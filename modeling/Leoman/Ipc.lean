import Leoman.Boot
import Leoman.MapPage
import Leoman.Lib.Runs

namespace Leoman

open ByteMem StateExcept Runs

/-!
# Runs of IPC

Events are the system calls of the running process, timer interrupts, and whatever else a
process does between its calls.  The running process makes a call only if `proc_new` made it
and it is not idle, whose code makes none.

* `Board.Alone`, `Board.Running` — the invariant: who is blocked in `recv` has one packet, a
  placeholder, and who runs is not blocked;
* `Board.Named`, `Board.Yields` — the table is in order, and what a scheduling decision then
  changes;
* `recvBlocked_own_placeholder` — in every run a process blocked in `recv` has its own unfilled
  placeholder in its queue and nothing else.
-/

/-! ### Events -/

section Events

variable {τ : Type} [Tlb τ]

/-- An event.  `other` is any change of memory (and, by the kernel process, of the scheduling
    flag) between two calls. -/
inductive IpcOp (τ : Type) where
  | send (msg frame : BitVec 32)
  | recv (msg frame : BitVec 32)
  | reply (msg frame : BitVec 32)
  | tick (frame : BitVec 32)
  | other (mach : Machine τ) (scheduling : Bool)

/-- The event is a system call. -/
def IpcOp.isCall : IpcOp τ → Bool
  | .send _ _ | .recv _ _ | .reply _ _ => true
  | .tick _ | .other _ _ => false

/-- Run an event. -/
def IpcOp.exec : IpcOp τ → Code Trap (Kernel τ) Unit
  | .send msg frame => syscallSendMsg msg frame
  | .recv msg frame => syscallRecvMsg msg frame
  | .reply msg frame => syscallRplyMsg msg frame
  | .tick frame => do
    let _ ← procScheduleAfterIrq frame
    return ()
  | .other mach scheduling => modify fun k =>
      { k with mach := mach, schedulingEnabled := scheduling }

/-- The running process is one that makes calls. -/
def Board.MayCall (b : Board) (c : Slot) : Prop :=
  b.current = some c ∧ b.inited c = true ∧ b.idle ≠ some c

/-- A step. -/
def IpcStep (k : Kernel τ) (op : IpcOp τ) (k' : Kernel τ) : Prop :=
  (op.isCall = true → ∃ c, k.board.MayCall c) ∧ op.exec k = .ok ((), k')

/-- The scheduling decision of a timer interrupt. -/
theorem tick_refines {frame : BitVec 32} {k k' : Kernel τ}
    (h : (IpcOp.tick frame).exec k = .ok ((), k')) :
    k'.board = k.board ∨ k.board.Sched k'.board := by
  obtain ⟨_, k₁, h₁, h₂⟩ := bind_ok_iff.mp h
  obtain ⟨-, rfl⟩ := Prod.mk.inj (Except.ok.inj h₂)
  exact (sched_refines h₁).imp And.right And.right

/-- Nothing between two calls touches the board. -/
theorem other_refines {mach : Machine τ} {scheduling : Bool} {k k' : Kernel τ}
    (h : (IpcOp.other mach scheduling).exec k = .ok ((), k')) : k'.board = k.board := by
  obtain ⟨-, rfl⟩ := Prod.mk.inj (Except.ok.inj h)
  rfl

end Events

/-! ### Waiting in `recv` -/

namespace Board

variable {b b' : Board} {c r : Slot}

/-- A process blocked in `recv` has one packet, an unfilled placeholder. -/
def Alone (b : Board) : Prop :=
  ∀ s, b.state s = .recvBlocked → ∃ n, b.queue s = [n] ∧ n.origin = none

/-- The running process is not blocked, unless it is idle. -/
def Running (b : Board) : Prop :=
  ∀ c, b.current = some c → b.idle ≠ some c → (b.state c).blocked = false

/-- A send to a waiting process makes it ready; any other leaves the waiting ones alone. -/
theorem Alone.deposit (ha : b.Alone) (h : b.Deposit c r b') : b'.Alone := by
  intro s hs
  cases h with
  | waiting hr hq hsent =>
    have hsr : s ≠ r := by
      rintro rfl
      simp at hs
    have hsc : s ≠ c := by
      rintro rfl
      simp [hsr] at hs
    simp only [setState_state, record_state, setQueue_state, Function.update_of_ne hsr,
      Function.update_of_ne hsc] at hs
    simpa [hsr] using ha s hs
  | ready hr hsent =>
    have hsc : s ≠ c := by
      rintro rfl
      simp at hs
    simp only [setState_state, record_state, push, setQueue_state, Function.update_of_ne hsc] at hs
    have hsr : s ≠ r := by
      rintro rfl
      rw [hs] at hr
      exact absurd hr (by decide)
    simpa [push, hsr] using ha s hs
  | other hr hr' hsent =>
    have hsr : s ≠ r := by
      rintro rfl
      exact hr hs
    simpa [push, hsr] using ha s hs

/-- A receive blocks only on an empty queue, and then queues the placeholder. -/
theorem Alone.receive (ha : b.Alone) (hin : b.inited c = true) (h : b.Receive c b') :
    b'.Alone := by
  intro s hs
  cases h with
  | @block n hq hn =>
    by_cases hsc : s = c
    · subst hsc
      exact ⟨n, by simp [push, hin, hq], hn⟩
    · simp only [push, setQueue_state, setState_state, Function.update_of_ne hsc] at hs
      simpa [push, hsc] using ha s hs
  | take hq => exact ha s hs

/-- A reply takes from the queue of a process that is not blocked. -/
theorem Alone.answer (ha : b.Alone) (hc : (b.state c).blocked = false) (h : b.Answer c b') :
    b'.Alone := by
  intro s hs
  cases h with
  | nothing hq => exact ha s hs
  | @first n rest hq =>
    -- waking a process never blocks one
    have hbefore : b.state s = .recvBlocked := by
      rw [record_state] at hs
      cases hf : b.find n.msg.sender with
      | none =>
        rw [hf] at hs
        exact hs
      | some p =>
        rw [hf] at hs
        have hsp : s ≠ p := by
          rintro rfl
          simp [wake] at hs
        simpa [wake, hsp] using hs
    have hsc : s ≠ c := by
      rintro rfl
      rw [hbefore] at hc
      exact absurd hc (by decide)
    simpa [hsc] using ha s hbefore

/-- A scheduling decision only makes processes ready. -/
theorem Alone.sched (ha : b.Alone) (h : b.Sched b') : b'.Alone := by
  intro s hs
  obtain @⟨c, t, next, b₁, hc, ht, rfl, -⟩ := h
  split at hs
  · rename_i hbl
    simpa [hbl] using ha s hs
  · rename_i hbl
    have hsc : s ≠ c := by
      rintro rfl
      simp at hs
    simp only [setState_state, Function.update_of_ne hsc] at hs
    simpa [hbl] using ha s hs

/-- Whoever a scheduling decision picks is ready, or idle. -/
theorem Sched.running (h : b.Sched b') : b'.Running := by
  obtain @⟨c, t, next, b₁, hc, ht, hb₁, hpick⟩ := h
  intro d hd hidle
  obtain rfl : next = d := Option.some.inj hd
  have hidle₁ : b₁.idle = b.idle := by
    rw [hb₁]
    split <;> rfl
  rcases hpick with ⟨-, hready⟩ | ⟨hi, -⟩
  · show (b₁.state next).blocked = false
    rw [hready]
    rfl
  · exact absurd (hidle₁.trans hi) hidle

/-! ### Names -/

/-- The table is in order: pids tell processes apart, slots without a process are unused, and
    who runs is a process. -/
structure Named (b : Board) : Prop where
  pids : ∀ s t, b.inited s = true → b.pid s = b.pid t → s = t
  used : ∀ s, b.inited s = false → b.state s = .unused
  who : ∀ c, b.current = some c ∨ b.idle = some c → b.inited c = true

/-- The pid of a process finds it. -/
theorem Named.find_pid (h : b.Named) (hin : b.inited c = true) : b.find (b.pid c) = some c := by
  cases hf : b.find (b.pid c) with
  | none =>
    have := List.find?_eq_none.mp hf c (List.mem_finRange c)
    exact absurd this (by simp)
  | some t =>
    have ht := List.find?_some hf
    rw [decide_eq_true_eq] at ht
    rw [h.pids c t hin ht.symm]

/-- The states of slots without a process are not those of the processes involved. -/
theorem ne_of_inited {s : Slot} (hs : b.inited s = false) (hin : b.inited c = true) : s ≠ c := by
  rintro rfl
  exact absurd (hs.symm.trans hin) (by decide)

/-- Calls leave the names alone, and the slots without a process. -/
theorem Named.of_moves (h : b.Named) (hpid : b'.pid = b.pid) (hinited : b'.inited = b.inited)
    (hcur : b'.current = b.current) (hidle : b'.idle = b.idle)
    (hused : ∀ s, b.inited s = false → b'.state s = b.state s) : b'.Named := by
  refine ⟨?_, ?_, ?_⟩
  · rw [hpid, hinited]
    exact h.pids
  · intro s hs
    rw [hinited] at hs
    rw [hused s hs]
    exact h.used s hs
  · rw [hcur, hidle, hinited]
    exact h.who

/-- What a scheduling decision changes: the running process becomes ready unless it is blocked,
    and another one may run. -/
structure Yields (b b' : Board) (c : Slot) : Prop where
  current : b.current = some c
  inited_self : b.inited c = true
  pid : b'.pid = b.pid
  inited : b'.inited = b.inited
  idle : b'.idle = b.idle
  queue : b'.queue = b.queue
  hist : b'.hist = b.hist
  state : ∀ s, b'.state s = if s = c ∧ (b.state c).blocked = false then .ready else b.state s

/-- In a table in order the running process finds itself under its pid. -/
theorem Named.yields (hn : b.Named) (h : b.Sched b') : ∃ c, b.Yields b' c := by
  obtain @⟨c, t, next, b₁, hc, ht, rfl, -⟩ := h
  have hin : b.inited c = true := hn.who c (Or.inl hc)
  obtain rfl : c = t := Option.some.inj ((hn.find_pid hin).symm.trans ht)
  refine ⟨c, ?_⟩
  split
  · rename_i hbl
    exact ⟨hc, hin, rfl, rfl, rfl, rfl, rfl, fun s => by simp [hbl]⟩
  · rename_i hbl
    refine ⟨hc, hin, rfl, rfl, rfl, rfl, rfl, fun s => ?_⟩
    by_cases hsc : s = c
    · subst hsc
      simp [hbl]
    · simp [hsc]

/-- Whoever is not blocked before a scheduling decision is not blocked after it, and whoever is
    blocked stays as it is. -/
theorem Yields.state_cases (h : b.Yields b' c) (s : Slot) :
    b'.state s = b.state s ∨ s = c ∧ b'.state s = .ready ∧ (b.state s).blocked = false := by
  rw [h.state s]
  split
  · rename_i hs
    obtain ⟨rfl, hbl⟩ := hs
    exact Or.inr ⟨rfl, rfl, hbl⟩
  · exact Or.inl rfl

/-- **Names after a scheduling decision.** -/
theorem Named.sched (hn : b.Named) (h : b.Sched b') : b'.Named := by
  obtain ⟨c, hy⟩ := hn.yields h
  refine ⟨?_, ?_, ?_⟩
  · rw [hy.pid, hy.inited]
    exact hn.pids
  · intro s hs
    rw [hy.inited] at hs
    rw [hy.state s, if_neg (fun hc => ne_of_inited hs hy.inited_self hc.1)]
    exact hn.used s hs
  · intro d hd
    rw [hy.inited]
    rcases hd with hd | hd
    · -- whoever was picked is ready, and so a process, or is idle
      obtain @⟨c', t, next, b₁, -, -, hb₁, hpick⟩ := h
      obtain rfl : next = d := Option.some.inj hd
      rcases hpick with ⟨-, hready⟩ | ⟨hi, -⟩
      · by_contra hno
        have hun := hn.used next (by simpa using hno)
        rcases hy.state_cases next with hsame | ⟨rfl, -, -⟩
        · exact absurd (hready.symm.trans (hsame.trans hun)) (by decide)
        · exact hno hy.inited_self
      · exact hn.who next (Or.inr hi)
    · rw [hy.idle] at hd
      exact hn.who d (Or.inr hd)

end Board

section Placeholder

variable {τ : Type} {k k' : Kernel τ}

/-- What every run keeps about waiting processes. -/
def Waits (b : Board) : Prop := b.Alone ∧ b.Running

/-- Boot blocks nobody. -/
theorem Booted.state_cases {n : Nat} (h : Booted n k) (s : Slot) :
    k.board.state s = .running ∨ k.board.state s = .ready ∨ k.board.state s = .unused := by
  by_cases hs : s.val < n
  · have := (h.created s hs).2.2.2
    split at this
    · exact Or.inl this
    · exact Or.inr (Or.inl this)
  · exact Or.inr (Or.inr (h.unused s (by omega)).2.2.2)

theorem Booted.waits {n : Nat} (h : Booted n k) : Waits k.board := by
  constructor
  · intro s hs
    rcases h.state_cases s with h' | h' | h' <;> exact absurd (hs.symm.trans h') (by decide)
  · intro c _ _
    rcases h.state_cases c with h' | h' | h' <;> rw [h'] <;> rfl

/-- The processes after boot are the slots below `n`. -/
theorem Booted.inited_iff {n : Nat} (h : Booted n k) (s : Slot) :
    k.board.inited s = true ↔ s.val < n := by
  by_cases hs : s.val < n
  · exact iff_of_true (h.created s hs).2.1 hs
  · refine iff_of_false (fun hi => ?_) hs
    rw [(h.unused s (by omega)).2.1] at hi
    exact absurd hi (by decide)

/-- Boot leaves all queues empty. -/
theorem Booted.queue {n : Nat} (h : Booted n k) (s : Slot) : k.board.queue s = [] := by
  by_cases hs : s.val < n
  · exact (h.created s hs).2.2.1
  · exact (h.unused s (by omega)).2.2.1

/-- Boot leaves the table in order: the pids of processes are their slots, those of unused
    slots are -1. -/
theorem Booted.named {n : Nat} (h : Booted n k) : k.board.Named := by
  refine ⟨?_, ?_, ?_⟩
  · intro s t hs hp
    have hs' := (h.inited_iff s).mp hs
    rw [(h.created s hs').1] at hp
    have hlt : s.val < 64 := s.isLt
    by_cases ht : t.val < n
    · rw [(h.created t ht).1] at hp
      have hlt' : t.val < 64 := t.isLt
      have := congrArg BitVec.toNat hp
      simp only [BitVec.toNat_ofNat] at this
      exact Fin.ext (by omega)
    · rw [(h.unused t (by omega)).1] at hp
      have := congrArg BitVec.toNat hp
      simp only [BitVec.toNat_ofNat] at this
      omega
  · intro s hs
    refine (h.unused s ?_).2.2.2
    by_contra hlt
    rw [(h.inited_iff s).mpr (by omega)] at hs
    exact absurd hs (by decide)
  · rintro c (hc | hc)
    · obtain ⟨c', hc', hcur⟩ := h.current
      obtain rfl : c' = c := Option.some.inj (hcur.symm.trans hc)
      exact (h.inited_iff c').mpr (by omega)
    · obtain rfl : 1 = c := Option.some.inj (h.idle.symm.trans hc)
      refine (h.inited_iff 1).mpr ?_
      have := h.two_le
      show 1 < n
      omega

variable [Tlb τ]

/-- One step. -/
theorem IpcStep.waits {op : IpcOp τ} (hw : Waits k.board) (h : IpcStep k op k') :
    Waits k'.board := by
  obtain ⟨ha, hrun⟩ := hw
  obtain ⟨hcall, hex⟩ := h
  cases op with
  | send msg frame =>
    obtain ⟨c, -, ⟨-, hsame⟩ | ⟨r, b, -, hdep, hsched⟩⟩ := send_refines hex
    · rw [hsame]
      exact ⟨ha, hrun⟩
    · exact ⟨(ha.deposit hdep).sched hsched, hsched.running⟩
  | recv msg frame =>
    obtain ⟨c, b, hc, hrec, hsched⟩ := recv_refines hex
    obtain ⟨c', hc', hin, -⟩ := hcall rfl
    obtain rfl : c = c' := Option.some.inj (hc.symm.trans hc')
    exact ⟨(ha.receive hin hrec).sched hsched, hsched.running⟩
  | reply msg frame =>
    obtain ⟨c, b, hc, hans, hsched⟩ := rply_refines hex
    obtain ⟨c', hc', hin, hidle⟩ := hcall rfl
    obtain rfl : c = c' := Option.some.inj (hc.symm.trans hc')
    exact ⟨(ha.answer (hrun c hc hidle) hans).sched hsched, hsched.running⟩
  | tick frame =>
    rcases tick_refines hex with hsame | hsched
    · rw [hsame]
      exact ⟨ha, hrun⟩
    · exact ⟨ha.sched hsched, hsched.running⟩
  | other mach scheduling =>
    rw [other_refines hex]
    exact ⟨ha, hrun⟩

/-- **Placeholders.**  In every run from boot, in any order of calls, a process blocked in
    `recv` has exactly one packet in its queue: the placeholder its own `recv` inserted, which
    no sender has filled. -/
theorem recvBlocked_own_placeholder {n : Nat} {k₀ : Kernel τ} {tr : List (IpcOp τ)}
    (hb : Booted n k₀) (hrun : Run IpcStep k₀ tr k) (s : Slot)
    (hs : (k.procs s).state = .recvBlocked) :
    ∃ p, (k.procs s).recvQueue.msgs = [p] ∧ p.origin = none :=
  (hrun.invariant (J := fun _ k => Waits k.board) hb.waits
    fun _ _ _ _ hw hstep => hstep.waits hw).1 s hs

end Placeholder

/-! ### A small system -/

/-- Three packets in the user page `0x5000`, behind the table `0x2000` of the directory `0x1000`:
    at `0x5000` to process 2, at `0x5040` to process 3, at `0x5080` for a `recv`. -/
def demoMem : Mem :=
  let words : List (BitVec 32 × BitVec 32) :=
    [(0x1000#32, 0x2007#32), (0x2014#32, 0x5007#32),
     (0x5004#32, 2#32), (0x5008#32, 0x5100#32), (0x500c#32, 0x5200#32), (0x5010#32, 4#32),
     (0x5014#32, 4#32),
     (0x5044#32, 3#32), (0x5048#32, 0x5100#32), (0x504c#32, 0x5200#32), (0x5050#32, 4#32),
     (0x5054#32, 4#32), (0x508c#32, 0x5300#32), (0x5094#32, 4#32)]
  words.foldl (fun m w => write32 m w.1 w.2) (blankSpace 0x1000#32)

/-- Four processes after boot: the kernel's, idle, and two more, all in one address space. -/
def demoKernel : Kernel Unit :=
  { Kernel.initial ⟨demoMem, 0x1000#32, (), ⟨fun _ => 0#32, 0xe0100000#32⟩⟩ (heapInit fun _ => 0#8)
    with
    procs := fun s =>
      { pid := if s.val < 4 then BitVec.ofNat 32 s.val else 0xffffffff#32
        state := if s.val = 3 then .running else if s.val < 3 then .ready else .unused
        name := Vector.replicate 32 0#8, privileged := true, trapframe := 0#32, kstack := 0#32
        pdir := 0x1000#32, recvQueue := ⟨decide (s.val < 4), [], []⟩ }
    nextPid := 4#32
    idle := some ⟨1, by decide⟩
    currentProc := some ⟨3, by decide⟩
    schedulingEnabled := true
    cursor := 4 }

theorem booted_demoKernel : Booted 4 demoKernel := by
  refine ⟨by decide, by decide, rfl, ⟨3, by decide, rfl⟩, ?_, ?_, rfl⟩
  · decide
  · decide

/-- The running process of the small system is in `recv` after a `recv`, with its placeholder. -/
theorem recvBlocked_own_placeholder_demo : ∃ k, Run IpcStep demoKernel [.recv 0x5080#32 0#32] k ∧
    (k.procs 3).state = .recvBlocked ∧
      ∃ p, (k.procs 3).recvQueue.msgs = [p] ∧ p.origin = none := by
  have htest : ((IpcOp.recv 0x5080#32 0#32).exec demoKernel).toOption.map
      (fun r => decide ((r.2.procs 3).state = .recvBlocked)) = some true := by
    decide +kernel
  obtain ⟨_, k, h, hk⟩ := ok_of_test htest
  rw [decide_eq_true_eq] at hk
  have hstep : IpcStep demoKernel (.recv 0x5080#32 0#32) k :=
    ⟨fun _ => ⟨3, rfl, rfl, by decide⟩, h⟩
  have hrun := Run.start.next hstep
  exact ⟨k, hrun, hk, recvBlocked_own_placeholder booted_demoKernel hrun 3 hk⟩

end Leoman
