import Leoman.Board
import Leoman.Syscall

namespace Leoman

open ByteMem StateExcept

/-!
# The kernel refines the board

Every completed call of the kernel does to its board what the relations of `Board` say,
whatever happens to memory, the heap and the page tables.

* `send_refines`, `recv_refines`, `rply_refines` — the three system calls, each its body and
  then a scheduling decision;
* `sched_refines` — `proc_schedule_after_irq`;
* `syscallSendMsg_ok`, `syscallRecvMsg_ok`, `syscallRplyMsg_ok` — the calls that a completed system
  call has made.
-/

section Refines

variable {τ : Type} {k k' : Kernel τ}

/-- A write to a process that keeps its pid, its state and its queue. -/
theorem board_updProc_keep {s : Slot} {f : Proc → Proc}
    (hpid : (f (k.procs s)).pid = (k.procs s).pid)
    (hstate : (f (k.procs s)).state = (k.procs s).state)
    (hin : (f (k.procs s)).recvQueue.inited = (k.procs s).recvQueue.inited)
    (hmsgs : (f (k.procs s)).recvQueue.msgs = (k.procs s).recvQueue.msgs) :
    (k.updProc s f).board = k.board := by
  apply Board.ext <;> try rfl
  all_goals
    funext t
    by_cases ht : t = s
    · subst ht
      simp [Kernel.board, Kernel.updProc, hpid, hstate, hin, hmsgs]
    · simp [Kernel.board, Kernel.updProc, ht]

/-- `proc->state = st`. -/
theorem board_setState (s : Slot) (st : ProcState) :
    (k.updProc s fun p => { p with state := st }).board = k.board.setState s st := by
  apply Board.ext <;> try rfl
  all_goals
    funext t
    by_cases ht : t = s
    · subst ht
      simp [Kernel.board, Kernel.updProc]
    · simp [Kernel.board, Kernel.updProc, ht]

/-- A write to the packets of a queue. -/
theorem board_setQueue (s : Slot) (f : List MsgPacketQueue → List MsgPacketQueue) :
    (k.updProc s fun p =>
      { p with recvQueue := { p.recvQueue with msgs := f p.recvQueue.msgs } }).board
      = k.board.setQueue s (f (k.board.queue s)) := by
  apply Board.ext <;> try rfl
  all_goals
    funext t
    by_cases ht : t = s
    · subst ht
      simp [Kernel.board, Kernel.updProc]
    · simp [Kernel.board, Kernel.updProc, ht]

/-- The small moves of the code, on the board. -/
theorem onMach_refines {α : Type} {x : Code Trap (Machine τ) α} {a : α}
    (h : onMach x k = .ok (a, k')) : k'.board = k.board := by
  obtain ⟨m, -, rfl⟩ := onMach_ok_iff.mp h
  rfl

theorem setState_refines {s : Slot} {st : ProcState}
    (h : setProc s (fun p => { p with state := st }) k = .ok ((), k')) :
    k'.board = k.board.setState s st := by
  obtain ⟨-, rfl⟩ := Prod.mk.inj (Except.ok.inj h)
  exact board_setState s st

theorem setHead_refines {s : Slot} {n : MsgPacketQueue} (h : setHead s n k = .ok ((), k')) :
    k'.board = k.board.setQueue s (n :: (k.board.queue s).tail) := by
  obtain ⟨-, rfl⟩ := Prod.mk.inj (Except.ok.inj h)
  exact board_setQueue s fun q => n :: q.tail

theorem note_refines {e : IpcEvent} (h : note e k = .ok ((), k')) :
    k'.board = k.board.record e := by
  obtain ⟨-, rfl⟩ := Prod.mk.inj (Except.ok.inj h)
  rfl

/-- `current_proc`. -/
theorem currentSlot_ok {c : Slot} (h : currentSlot k = .ok (c, k')) :
    k.board.current = some c ∧ k' = k := by
  unfold currentSlot at h
  rw [run_bind_of_ok (run_get k)] at h
  cases hc : k.currentProc with
  | none =>
    simp only [hc] at h
    exact absurd h (by simp)
  | some c' =>
    simp only [hc] at h
    obtain ⟨rfl, rfl⟩ := Prod.mk.inj (Except.ok.inj h)
    exact ⟨hc, rfl⟩

variable [Tlb τ]

/-- `STAILQ_INSERT_TAIL`. -/
theorem insertTail_refines {s : Slot} {n : MsgPacketQueue} (h : insertTail s n k = .ok ((), k')) :
    k'.board = k.board.push s n := by
  unfold Board.push
  rcases insertTail_ok h with ⟨hin, rfl⟩ | ⟨hin, k₁, h₁, rfl⟩
  · rw [if_pos (show k.board.inited s = true from hin)]
    exact board_setQueue s (· ++ [n])
  · have hstay : k.board.setQueue s (if k.board.inited s = true then k.board.queue s ++ [n]
        else k.board.queue s) = k.board := by
      rw [if_neg (Bool.eq_false_iff.mp (show k.board.inited s = false from hin))]
      apply Board.ext <;> try rfl
      simp
    have hk₁ : k₁.board = k.board := by
      rcases onlyIf_ok h₁ with ⟨-, h₁⟩ | ⟨-, rfl⟩
      · obtain ⟨m, -, rfl⟩ := onMach_ok_iff.mp h₁
        rfl
      · rfl
    rw [hstay, ← hk₁]
    exact board_updProc_keep rfl rfl rfl rfl

/-- The packet a send queues names the sender. -/
theorem sentPacket_sender {pid msg : BitVec 32} {m m' : Machine τ} {packet : MsgPacket}
    (h : sentPacket pid msg m = .ok (packet, m')) : packet.sender = pid := by
  obtain ⟨p, m₁, h₁, h⟩ := bind_ok_iff.mp h
  obtain ⟨physSendBuf, m₂, h₂, h⟩ := bind_ok_iff.mp h
  obtain ⟨physRecvBuf, m₃, h₃, h⟩ := bind_ok_iff.mp h
  obtain ⟨rfl, -⟩ := Prod.mk.inj (Except.ok.inj h)
  rfl

/-- A send to a process that is not waiting. -/
theorem queuePacket_refines {c r : Slot} {msg : BitVec 32}
    (h : queuePacket c r msg k = .ok ((), k')) :
    ∃ n, k.board.SentBy c n ∧
      k'.board = (k.board.push r n).record (.sent (k.board.origin c) r) := by
  obtain ⟨addr, heap, packet, m, k₁, -, -, hm, hins, rfl⟩ := queuePacket_ok h
  refine ⟨⟨addr, packet, some ⟨k.hist.length, c⟩⟩, ⟨rfl, sentPacket_sender hm⟩, ?_⟩
  show k₁.board.record (.sent (k.board.origin c) r) = _
  rw [insertTail_refines hins]
  rfl

/-- A sender fills a placeholder with its own pid, and the rest of the call leaves it. -/
theorem fillSendSide_sender {n packet : MsgPacket} {pid msg : BitVec 32} {m m' : Machine τ}
    (h : fillSendSide n pid msg m = .ok (packet, m')) : packet.sender = pid := by
  obtain ⟨sendBuf, m₁, h₁, h⟩ := bind_ok_iff.mp h
  obtain ⟨sendLen, m₂, h₂, h⟩ := bind_ok_iff.mp h
  obtain ⟨physSendBuf, m₃, h₃, h⟩ := bind_ok_iff.mp h
  obtain ⟨rfl, -⟩ := Prod.mk.inj (Except.ok.inj h)
  rfl

theorem fillRecvSide_sender {n packet : MsgPacket} {msg : BitVec 32} {m m' : Machine τ}
    (h : fillRecvSide n msg m = .ok (packet, m')) : packet.sender = n.sender := by
  obtain ⟨recvBuf, m₁, h₁, h⟩ := bind_ok_iff.mp h
  obtain ⟨recvLen, m₂, h₂, h⟩ := bind_ok_iff.mp h
  obtain ⟨physRecvBuf, m₃, h₃, h⟩ := bind_ok_iff.mp h
  obtain ⟨rfl, -⟩ := Prod.mk.inj (Except.ok.inj h)
  rfl

/-- The calls of a send to a waiting process: it fills in the sender's side of the placeholder,
    copies the message, reports the sender and fills in the receiver's side.  The placeholder is
    now the sender's packet, and the receiver is ready. -/
theorem fillPlaceholder_ok {c r : Slot} {msg : BitVec 32}
    (h : fillPlaceholder c r msg k = .ok ((), k')) :
    ∃ n rest filled m₁ m₂ m₃ full, k.board.queue r = n :: rest ∧
      fillSendSide n.msg (k.procs c).pid msg k.mach = .ok (filled, m₁) ∧
      copyToReceiver filled msg m₁ = .ok ((), m₂) ∧
      reportSender filled (k.procs c).pid m₂ = .ok ((), m₃) ∧
      fillRecvSide filled msg m₃ = .ok (full, k'.mach) ∧
      k'.board = ((((k.board.setState c .sendBlocked).setQueue r
        ({ n with msg := full, origin := some (k.board.origin c) } :: rest)).record
        (.sent (k.board.origin c) r)).record
        (.delivered (some (k.board.origin c)) r (k.board.pid c))).setState r .ready := by
  obtain ⟨_, k₁, h₁, h⟩ := bind_ok_iff.mp h
  have hb₁ := setState_refines h₁
  have hmach₁ : k₁.mach = k.mach := by
    obtain ⟨-, rfl⟩ := Prod.mk.inj (Except.ok.inj h₁)
    rfl
  rw [run_bind_of_ok (run_get _)] at h
  have hq : (k₁.procs r).recvQueue.msgs = k.board.queue r := congrFun (congrArg Board.queue hb₁) r
  have hpid : (k₁.procs c).pid = k.board.pid c := congrFun (congrArg Board.pid hb₁) c
  have horigin : (⟨k₁.hist.length, c⟩ : Origin) = k.board.origin c := by
    show k₁.board.origin c = _
    rw [hb₁]
    rfl
  simp only [hq, hpid, horigin] at h
  cases hn : k.board.queue r with
  | nil =>
    simp only [hn] at h
    exact absurd h (by simp)
  | cons n rest =>
    simp only [hn] at h
    obtain ⟨filled, k₂, h₂, h⟩ := bind_ok_iff.mp h
    obtain ⟨_, k₃, h₃, h⟩ := bind_ok_iff.mp h
    obtain ⟨_, k₄, h₄, h⟩ := bind_ok_iff.mp h
    obtain ⟨_, k₅, h₅, h⟩ := bind_ok_iff.mp h
    obtain ⟨_, k₆, h₆, h⟩ := bind_ok_iff.mp h
    obtain ⟨_, k₇, h₇, h⟩ := bind_ok_iff.mp h
    obtain ⟨full, k₈, h₈, h⟩ := bind_ok_iff.mp h
    obtain ⟨_, k₉, h₉, h₁₀⟩ := bind_ok_iff.mp h
    -- the two writes of the head collapse into the second
    have hboard : k'.board = ((((k.board.setState c .sendBlocked).setQueue r
        ({ n with msg := full, origin := some (k.board.origin c) } :: rest)).record
        (.sent (k.board.origin c) r)).record
        (.delivered (some (k.board.origin c)) r (k.board.pid c))).setState r .ready := by
      rw [setState_refines h₁₀, setHead_refines h₉, onMach_refines h₈, note_refines h₇,
        onMach_refines h₆, onMach_refines h₅, note_refines h₄, setHead_refines h₃,
        onMach_refines h₂, hb₁]
      apply Board.ext <;> try rfl
      simp [hn]
    -- on the machine only the four calls are left
    obtain ⟨m₁, hsend, rfl⟩ := onMach_ok_iff.mp h₂
    obtain ⟨-, rfl⟩ := Prod.mk.inj (Except.ok.inj h₃)
    obtain ⟨-, rfl⟩ := Prod.mk.inj (Except.ok.inj h₄)
    obtain ⟨m₂, hcopy, rfl⟩ := onMach_ok_iff.mp h₅
    obtain ⟨m₃, hreport, rfl⟩ := onMach_ok_iff.mp h₆
    obtain ⟨-, rfl⟩ := Prod.mk.inj (Except.ok.inj h₇)
    obtain ⟨m₄, hrecv, rfl⟩ := onMach_ok_iff.mp h₈
    obtain ⟨-, rfl⟩ := Prod.mk.inj (Except.ok.inj h₉)
    obtain ⟨-, rfl⟩ := Prod.mk.inj (Except.ok.inj h₁₀)
    rw [hmach₁] at hsend
    exact ⟨n, rest, filled, m₁, m₂, m₃, full, rfl, hsend, hcopy, hreport, hrecv, hboard⟩

/-- A send to a waiting process. -/
theorem fillPlaceholder_refines {c r : Slot} {msg : BitVec 32}
    (hr : k.board.state r = .recvBlocked) (h : fillPlaceholder c r msg k = .ok ((), k')) :
    k.board.Deposit c r k'.board := by
  obtain ⟨n, rest, filled, m₁, m₂, m₃, full, hn, hsend, -, -, hrecv, hboard⟩ :=
    fillPlaceholder_ok h
  have hsent : k.board.SentBy c { n with msg := full, origin := some (k.board.origin c) } :=
    ⟨rfl, (fillRecvSide_sender hrecv).trans (fillSendSide_sender hsend)⟩
  rw [hboard]
  exact Board.Deposit.waiting hr hn hsent

/-- **`syscall_send_msg` with a receiver**, up to the scheduling decision. -/
theorem sendTo_refines {c r : Slot} {msg : BitVec 32} (h : sendTo c r msg k = .ok ((), k')) :
    k.board.Deposit c r k'.board := by
  rcases sendTo_ok h with ⟨hst, hfill⟩ | ⟨hne, k₁, hput, hrest⟩
  · exact fillPlaceholder_refines hst hfill
  · obtain ⟨n, hsent, hb₁⟩ := queuePacket_refines hput
    rcases hrest with ⟨hst, rfl⟩ | ⟨hst, rfl⟩
    · rw [board_setState, hb₁]
      exact Board.Deposit.ready hst hsent
    · rw [hb₁]
      exact Board.Deposit.other hne hst hsent

/-- **`syscall_recv_msg`**, up to the scheduling decision. -/
theorem receive_refines {c : Slot} {msg : BitVec 32} (h : receive c msg k = .ok ((), k')) :
    k.board.Receive c k'.board := by
  rcases receive_ok h with ⟨hq, addr, heap, packet, m, -, -, -, hins⟩ | ⟨n, rest, m, hq, -, rfl⟩
  · rw [insertTail_refines hins]
    show k.board.Receive c
      ((k.updProc c fun p => { p with state := .recvBlocked }).board.push c ⟨addr, packet, none⟩)
    rw [board_setState]
    exact Board.Receive.block hq rfl
  · exact Board.Receive.take hq

/-- `sender->state = PROC_READY`. -/
theorem awaken_refines {p : Option Slot} (h : awaken p k = .ok ((), k')) :
    k'.board = k.board.wake p := by
  cases p with
  | none => exact onMach_refines h
  | some p => exact setState_refines h

/-- **`syscall_rply_msg`**, up to the scheduling decision. -/
theorem reply_refines {c : Slot} {msg : BitVec 32} (h : reply c msg k = .ok ((), k')) :
    k.board.Answer c k'.board := by
  rcases reply_ok h with ⟨hq, rfl⟩ | ⟨n, rest, m, k₁, hq, -, hwake, rfl⟩
  · exact Board.Answer.nothing hq
  · have htail : (k.board.queue c).tail = rest := congrArg List.tail hq
    have hremove := board_setQueue (k := k) c List.tail
    rw [htail] at hremove
    show k.board.Answer c (k₁.board.record (.replied n.origin c (k.board.find n.msg.sender)))
    rw [awaken_refines hwake, show Kernel.board { k.updProc c (fun p =>
      { p with recvQueue := { p.recvQueue with msgs := p.recvQueue.msgs.tail } }) with
      heap := kfree k.heap n.addr, mach := m } = k.board.setQueue c rest from hremove]
    exact Board.Answer.first hq

/-- The tail of `proc_schedule_after_irq`. -/
theorem switchTo_refines {next : Option Slot} {ret : BitVec 32}
    (h : switchTo next k = .ok (ret, k')) :
    ∃ n, next = some n ∧ k'.board = { k.board with current := some n } := by
  obtain ⟨_, k₁, h₁, h⟩ := bind_ok_iff.mp h
  have hb₁ : k₁.board = { k.board with current := next } := by
    obtain ⟨-, rfl⟩ := Prod.mk.inj (Except.ok.inj h₁)
    rfl
  cases next with
  | none => exact absurd h (by simp)
  | some n =>
    simp only at h
    rw [run_bind_of_ok (run_get k₁)] at h
    obtain ⟨_, k₂, h₂, h⟩ := bind_ok_iff.mp h
    have hb₂ : k₂.board = k₁.board := by
      obtain ⟨-, rfl⟩ := Prod.mk.inj (Except.ok.inj h₂)
      rfl
    obtain ⟨_, k₃, h₃, h₄⟩ := bind_ok_iff.mp h
    obtain ⟨-, rfl⟩ := Prod.mk.inj (Except.ok.inj h₄)
    exact ⟨n, rfl, by rw [onMach_refines h₃, hb₂, hb₁]⟩

/-- **`proc_schedule_after_irq`** with scheduling enabled. -/
theorem reschedule_refines {c : Slot} {frame ret : BitVec 32} (hc : k.board.current = some c)
    (h : reschedule c frame k = .ok (ret, k')) : k.board.Sched k'.board := by
  obtain ⟨_, k₁, h₁, h⟩ := bind_ok_iff.mp h
  have hb₁ : k₁.board = k.board := by
    obtain ⟨-, rfl⟩ := Prod.mk.inj (Except.ok.inj h₁)
    exact board_updProc_keep rfl rfl rfl rfl
  rw [run_bind_of_ok (run_get k₁)] at h
  obtain ⟨blocked, k₂, h₂, h⟩ := bind_ok_iff.mp h
  obtain ⟨_, k₃, h₃, h⟩ := bind_ok_iff.mp h
  obtain ⟨found, k₄, h₄, h⟩ := bind_ok_iff.mp h
  -- the slot whose state decides, and that state
  obtain ⟨t, ht, hk₂, hbl⟩ : ∃ t, k.board.find (k.board.pid c) = some t ∧ k₂ = k₁ ∧
      blocked = (k.board.state t).blocked := by
    unfold procIsBlocked at h₂
    rw [run_bind_of_ok (run_get k₁)] at h₂
    rw [← hb₁]
    cases hf : k₁.procFindByPid (k₁.procs c).pid with
    | none =>
      simp only [hf] at h₂
      exact absurd h₂ (by simp)
    | some t =>
      simp only [hf] at h₂
      obtain ⟨rfl, rfl⟩ := Prod.mk.inj (Except.ok.inj h₂)
      exact ⟨t, hf, rfl, rfl⟩
  have hb₃ :
      k₃.board = if (k.board.state t).blocked then k.board else k.board.setState c .ready := by
    rcases onlyIf_ok h₃ with ⟨hno, h₃⟩ | ⟨hyes, hk₃⟩
    · rw [← hbl, hno, setState_refines h₃, hk₂, hb₁]
      rfl
    · rw [← hbl, if_pos (by simpa using hyes), hk₃, hk₂, hb₁]
  have hidle : k₁.idle = k.board.idle := congrArg Board.idle hb₁
  have hidle₃ : k₃.idle = k.board.idle := by
    show k₃.board.idle = _
    rw [hb₃]
    split <;> rfl
  -- what the scan found
  unfold findNextProc at h₄
  obtain ⟨hfound, rfl⟩ := Prod.mk.inj (Except.ok.inj h₄)
  have hloop : findNextLoop k₃.procs k₃.idle .ready nprocs (k₃.cursor % nprocs)
      = (found, (findNextLoop k₃.procs k₃.idle .ready nprocs (k₃.cursor % nprocs)).2) := by
    rw [← hfound]
  have hpick : ∀ next, found.or k₁.idle = some next →
      (k.board.idle ≠ some next ∧ k₃.board.state next = .ready ∨
        k.board.idle = some next ∧ ∀ s, k.board.idle ≠ some s → k₃.board.state s ≠ .ready) := by
    intro next hnext
    rw [← hidle₃]
    cases found with
    | some s =>
      obtain rfl : s = next := by simpa using hnext
      exact Or.inl (findNextLoop_some hloop)
    | none =>
      refine Or.inr ⟨?_, fun s hs => findNextLoop_none_all hloop s hs⟩
      rw [hidle₃, ← hidle]
      simpa using hnext
  split at h
  · -- the same process goes on
    rename_i hsame
    obtain ⟨-, rfl⟩ := Prod.mk.inj (Except.ok.inj h)
    have hstay : k₃.board = { k₃.board with current := some c } := by
      have : k₃.board.current = some c := by
        rw [hb₃]
        split <;> exact hc
      rw [← this]
    have hsched := Board.Sched.switch hc ht hb₃ (hpick c hsame)
    rw [← hstay] at hsched
    exact hsched
  · obtain ⟨next, hnext, hb⟩ := switchTo_refines h
    rw [hb]
    exact Board.Sched.switch hc ht hb₃ (hpick next hnext)

/-- **`proc_schedule_after_irq`**: nothing with scheduling disabled or before the first
    process, else a scheduling decision. -/
theorem sched_refines {frame ret : BitVec 32}
    (h : procScheduleAfterIrq frame k = .ok (ret, k')) :
    (k.schedulingEnabled = false ∨ k.board.current = none) ∧ k'.board = k.board ∨
      k.schedulingEnabled = true ∧ k.board.Sched k'.board := by
  unfold procScheduleAfterIrq at h
  rw [run_bind_of_ok (run_get k)] at h
  split at h
  · rename_i hoff
    obtain ⟨-, rfl⟩ := Prod.mk.inj (Except.ok.inj h)
    exact Or.inl ⟨Or.inl hoff, rfl⟩
  · rename_i hon
    cases hc : k.currentProc with
    | none =>
      simp only [hc] at h
      obtain ⟨-, rfl⟩ := Prod.mk.inj (Except.ok.inj h)
      exact Or.inl ⟨Or.inr hc, rfl⟩
    | some c =>
      simp only [hc] at h
      exact Or.inr ⟨by simpa using hon, reschedule_refines hc h⟩

/-- The end of every system call. -/
theorem callEnd_refines {c : Slot} {frame : BitVec 32} (hc : k.board.current = some c)
    (h : (do procEnableScheduling; procScheduleWithoutIrq frame : Code Trap (Kernel τ) Unit) k
      = .ok ((), k')) : k.board.Sched k'.board := by
  obtain ⟨_, k₁, h₁, h⟩ := bind_ok_iff.mp h
  obtain ⟨-, rfl⟩ := Prod.mk.inj (Except.ok.inj h₁)
  obtain ⟨_, k₂, h₂, h⟩ := bind_ok_iff.mp h
  obtain ⟨-, rfl⟩ := Prod.mk.inj (Except.ok.inj h)
  rcases sched_refines h₂ with ⟨hoff | hnone, -⟩ | ⟨-, hsched⟩
  · exact absurd hoff (by simp)
  · exact absurd (hnone.symm.trans hc) (by simp)
  · exact hsched

/-- The process a send of the packet at `msg` goes to. -/
def Kernel.receiverOf (k : Kernel τ) (msg : BitVec 32) : Option Slot :=
  match load32 (receiverField msg) k.mach with
  | .ok (pid, _) => k.procFindByPid pid
  | .error _ => none

/-- The calls of a `syscall_send_msg` that completes: nobody has the pid in the packet, or the
    packet goes to the process that has it, and then the scheduler is called. -/
theorem syscallSendMsg_ok {msg frame : BitVec 32} (h : syscallSendMsg msg frame k = .ok ((), k')) :
    ∃ c pid m, k.currentProc = some c ∧ load32 (receiverField msg) k.mach = .ok (pid, m) ∧
      k.receiverOf msg = k.procFindByPid pid ∧
      (k.procFindByPid pid = none ∧ k' = { k with schedulingEnabled := false, mach := m } ∨
        ∃ r k₁, k.procFindByPid pid = some r ∧
          sendTo c r msg { k with schedulingEnabled := false, mach := m } = .ok ((), k₁) ∧
          (do procEnableScheduling; procScheduleWithoutIrq frame : Code Trap (Kernel τ) Unit) k₁
            = .ok ((), k')) := by
  obtain ⟨_, k₁, h₁, h⟩ := bind_ok_iff.mp h
  obtain ⟨-, rfl⟩ := Prod.mk.inj (Except.ok.inj h₁)
  obtain ⟨c, k₂, h₂, h⟩ := bind_ok_iff.mp h
  obtain ⟨hc, rfl⟩ := currentSlot_ok h₂
  obtain ⟨pid, k₃, h₃, h⟩ := bind_ok_iff.mp h
  obtain ⟨m, hm, rfl⟩ := onMach_ok_iff.mp h₃
  rw [run_bind_of_ok (run_get _)] at h
  have hm' : load32 (receiverField msg) k.mach = .ok (pid, m) := hm
  refine ⟨c, pid, m, hc, hm', by rw [Kernel.receiverOf, hm'], ?_⟩
  cases hf : k.procFindByPid pid with
  | none =>
    have hf' : Kernel.procFindByPid { k with schedulingEnabled := false, mach := m } pid = none :=
      hf
    simp only [hf'] at h
    obtain ⟨-, rfl⟩ := Prod.mk.inj (Except.ok.inj h)
    exact Or.inl ⟨rfl, rfl⟩
  | some r =>
    have hf' : Kernel.procFindByPid { k with schedulingEnabled := false, mach := m } pid = some r :=
      hf
    simp only [hf'] at h
    obtain ⟨⟨⟩, k₄, h₄, h⟩ := bind_ok_iff.mp h
    exact Or.inr ⟨r, k₄, rfl, h₄, h⟩

/-- A call that does the rest whatever is in the packet: its caller, the body with scheduling
    disabled, and the call of the scheduler. -/
theorem syscall_ok {body : Slot → Code Trap (Kernel τ) Unit} {frame : BitVec 32}
    (h : (do
      procDisableScheduling
      let c ← currentSlot
      body c
      procEnableScheduling
      procScheduleWithoutIrq frame : Code Trap (Kernel τ) Unit) k = .ok ((), k')) :
    ∃ c k₁, k.currentProc = some c ∧
      body c { k with schedulingEnabled := false } = .ok ((), k₁) ∧
      (do procEnableScheduling; procScheduleWithoutIrq frame : Code Trap (Kernel τ) Unit) k₁
        = .ok ((), k') := by
  obtain ⟨_, k₁, h₁, h⟩ := bind_ok_iff.mp h
  obtain ⟨-, rfl⟩ := Prod.mk.inj (Except.ok.inj h₁)
  obtain ⟨c, k₂, h₂, h⟩ := bind_ok_iff.mp h
  obtain ⟨hc, rfl⟩ := currentSlot_ok h₂
  obtain ⟨⟨⟩, k₃, h₃, h⟩ := bind_ok_iff.mp h
  exact ⟨c, k₃, hc, h₃, h⟩

/-- The calls of a `syscall_recv_msg` that completes. -/
theorem syscallRecvMsg_ok {msg frame : BitVec 32} (h : syscallRecvMsg msg frame k = .ok ((), k')) :
    ∃ c k₁, k.currentProc = some c ∧
      receive c msg { k with schedulingEnabled := false } = .ok ((), k₁) ∧
      (do procEnableScheduling; procScheduleWithoutIrq frame : Code Trap (Kernel τ) Unit) k₁
        = .ok ((), k') :=
  syscall_ok h

/-- The calls of a `syscall_rply_msg` that completes. -/
theorem syscallRplyMsg_ok {msg frame : BitVec 32} (h : syscallRplyMsg msg frame k = .ok ((), k')) :
    ∃ c k₁, k.currentProc = some c ∧
      reply c msg { k with schedulingEnabled := false } = .ok ((), k₁) ∧
      (do procEnableScheduling; procScheduleWithoutIrq frame : Code Trap (Kernel τ) Unit) k₁
        = .ok ((), k') :=
  syscall_ok h

/-- **`syscall_send_msg`.** -/
theorem send_refines {msg frame : BitVec 32} (h : syscallSendMsg msg frame k = .ok ((), k')) :
    ∃ c, k.board.current = some c ∧
      (k.receiverOf msg = none ∧ k'.board = k.board ∨
        ∃ r b, k.receiverOf msg = some r ∧ k.board.Deposit c r b ∧ b.Sched k'.board) := by
  obtain ⟨c, pid, m, hc, -, hto, ⟨hnone, rfl⟩ | ⟨r, k₁, hr, hsend, hend⟩⟩ := syscallSendMsg_ok h
  · exact ⟨c, hc, Or.inl ⟨hto.trans hnone, rfl⟩⟩
  · have hdep := sendTo_refines hsend
    exact ⟨c, hc, Or.inr ⟨r, k₁.board, hto.trans hr, hdep,
      callEnd_refines (hdep.current.trans hc) hend⟩⟩

/-- **`syscall_recv_msg`.** -/
theorem recv_refines {msg frame : BitVec 32} (h : syscallRecvMsg msg frame k = .ok ((), k')) :
    ∃ c b, k.board.current = some c ∧ k.board.Receive c b ∧ b.Sched k'.board := by
  obtain ⟨c, k₁, hc, hrun, hend⟩ := syscallRecvMsg_ok h
  have hrec := receive_refines hrun
  exact ⟨c, k₁.board, hc, hrec, callEnd_refines (hrec.current.trans hc) hend⟩

/-- **`syscall_rply_msg`.** -/
theorem rply_refines {msg frame : BitVec 32} (h : syscallRplyMsg msg frame k = .ok ((), k')) :
    ∃ c b, k.board.current = some c ∧ k.board.Answer c b ∧ b.Sched k'.board := by
  obtain ⟨c, k₁, hc, hrun, hend⟩ := syscallRplyMsg_ok h
  have hans := reply_refines hrun
  exact ⟨c, k₁.board, hc, hans, callEnd_refines (hans.current.trans hc) hend⟩

end Refines

end Leoman
