import Leoman.Placement
import Leoman.Schedule

namespace Leoman

open ByteMem StateExcept Runs

/-!
# Context switches

A process is suspended by a scheduling decision, with the frame of the interrupt that led to it,
and resumed by another one, any number of events later.  The events are timer interrupts,
`int 0x7f`, the bodies of the system calls, which end in an `int 0x7f` of their own, and whatever
processes do in between.

* `SwitchOp`, `SwitchStep` — the events;
* `lastFrame` — the frame a process was last suspended with, or the one `proc_new` built;
* `Sound` — what a scheduling decision must do;
* `context_switch` — every decision is sound in every run in which no reply goes to the pid of an
  unused slot;
* `context_switch_unused` — and in a run where one does, the scheduler resumes a slot `proc_new`
  never filled.
-/

section Bodies

variable {τ : Type} [Tlb τ]

/-- `syscall_send_msg` up to its `int $0x7f`, and whether it gets there. -/
def sendBody (msg : BitVec 32) : Code Trap (Kernel τ) Bool := do
  procDisableScheduling
  let c ← currentSlot
  let receiver ← onMach (load32 (receiverField msg))
  let k ← get
  match k.procFindByPid receiver with
  | none => return false
  | some r => do
    sendTo c r msg
    procEnableScheduling
    return true

/-- `syscall_recv_msg` up to its `int $0x7f`. -/
def recvBody (msg : BitVec 32) : Code Trap (Kernel τ) Unit := do
  procDisableScheduling
  let c ← currentSlot
  receive c msg
  procEnableScheduling

/-- `syscall_rply_msg` up to its `int $0x7f`. -/
def replyBody (msg : BitVec 32) : Code Trap (Kernel τ) Unit := do
  procDisableScheduling
  let c ← currentSlot
  reply c msg
  procEnableScheduling

/-- A send is its body and an `int $0x7f`, unless nobody has the pid. -/
theorem syscallSendMsg_eq (msg frame : BitVec 32) :
    syscallSendMsg (τ := τ) msg frame = (do
      let found ← sendBody msg
      if found then procScheduleWithoutIrq frame else pure ()) := by
  unfold syscallSendMsg sendBody
  simp only [bind_assoc]
  refine bind_congr fun _ => bind_congr fun _ => bind_congr fun receiver => bind_congr fun k => ?_
  cases k.procFindByPid receiver with
  | none => simp
  | some r => simp

/-- A receive is its body and an `int $0x7f`. -/
theorem syscallRecvMsg_eq (msg frame : BitVec 32) :
    syscallRecvMsg (τ := τ) msg frame = (do
      recvBody msg
      procScheduleWithoutIrq frame) := by
  unfold syscallRecvMsg recvBody
  simp only [bind_assoc]

/-- A reply is its body and an `int $0x7f`. -/
theorem syscallRplyMsg_eq (msg frame : BitVec 32) :
    syscallRplyMsg (τ := τ) msg frame = (do
      replyBody msg
      procScheduleWithoutIrq frame) := by
  unfold syscallRplyMsg replyBody
  simp only [bind_assoc]

omit [Tlb τ] in
/-- A body that gets through: its caller, and what it did under disabled scheduling. -/
theorem callBody_ok {body : Slot → Code Trap (Kernel τ) Unit} {k k' : Kernel τ}
    (h : (do
      procDisableScheduling
      let c ← currentSlot
      body c
      procEnableScheduling : Code Trap (Kernel τ) Unit) k = .ok ((), k')) :
    ∃ c k₁, k.currentProc = some c ∧
      body c { k with schedulingEnabled := false } = .ok ((), k₁) ∧
      k' = { k₁ with schedulingEnabled := true } := by
  obtain ⟨_, k₁, h₁, h⟩ := bind_ok_iff.mp h
  obtain ⟨-, rfl⟩ := Prod.mk.inj (Except.ok.inj h₁)
  obtain ⟨c, k₂, h₂, h⟩ := bind_ok_iff.mp h
  obtain ⟨hc, rfl⟩ := currentSlot_ok h₂
  obtain ⟨_, k₃, h₃, h⟩ := bind_ok_iff.mp h
  obtain ⟨-, rfl⟩ := Prod.mk.inj (Except.ok.inj h)
  exact ⟨c, k₃, hc, h₃, rfl⟩

/-- A completed `send`: nobody has the pid, or the packet goes to the process that has it. -/
theorem sendBody_ok {msg : BitVec 32} {found : Bool} {k k' : Kernel τ}
    (h : sendBody msg k = .ok (found, k')) : ∃ c mach, k.currentProc = some c ∧
      mach.cr3 = k.mach.cr3 ∧
      (found = false ∧ k' = { k with schedulingEnabled := false, mach := mach } ∨
        found = true ∧ ∃ r k₁, sendTo c r msg { k with schedulingEnabled := false, mach := mach }
          = .ok ((), k₁) ∧ k' = { k₁ with schedulingEnabled := true }) := by
  obtain ⟨_, k₁, h₁, h⟩ := bind_ok_iff.mp h
  obtain ⟨-, rfl⟩ := Prod.mk.inj (Except.ok.inj h₁)
  obtain ⟨c, k₂, h₂, h⟩ := bind_ok_iff.mp h
  obtain ⟨hc, rfl⟩ := currentSlot_ok h₂
  obtain ⟨receiver, k₃, h₃, h⟩ := bind_ok_iff.mp h
  obtain ⟨mach, hload, rfl⟩ := onMach_ok_iff.mp h₃
  rw [run_bind_of_ok (run_get _)] at h
  refine ⟨c, mach, hc, load32_cr3 _ _ _ _ hload, ?_⟩
  cases hf : ({ k with schedulingEnabled := false, mach := mach } : Kernel τ).procFindByPid receiver
    with
  | none =>
    simp only [hf] at h
    obtain ⟨rfl, rfl⟩ := Prod.mk.inj (Except.ok.inj h)
    exact Or.inl ⟨rfl, rfl⟩
  | some r =>
    simp only [hf] at h
    obtain ⟨_, k₄, h₄, h⟩ := bind_ok_iff.mp h
    obtain ⟨_, k₅, h₅, h⟩ := bind_ok_iff.mp h
    obtain ⟨-, rfl⟩ := Prod.mk.inj (Except.ok.inj h₅)
    obtain ⟨rfl, rfl⟩ := Prod.mk.inj (Except.ok.inj h)
    exact Or.inr ⟨rfl, r, k₄, h₄, rfl⟩

/-! ### Bodies move nobody -/

/-- `send` leaves everybody on their stacks, … -/
theorem sendBody_placement (msg : BitVec 32) :
    Preserves Kernel.placement (sendBody (τ := τ) msg) := by
  intro k found k' h
  obtain ⟨c, mach, -, hcr3, ⟨-, rfl⟩ | ⟨-, r, k₁, hrun, rfl⟩⟩ := sendBody_ok h
  · simp [Kernel.placement, hcr3]
  · have hp := sendTo_placement c r msg _ _ _ hrun
    simp only [Kernel.placement, hcr3] at hp ⊢
    exact hp

/-- … and so do `recv` … -/
theorem recvBody_placement (msg : BitVec 32) :
    Preserves Kernel.placement (recvBody (τ := τ) msg) := by
  intro k _ k' h
  obtain ⟨c, k₁, -, hrun, rfl⟩ := callBody_ok h
  have hp := receive_placement c msg _ _ _ hrun
  exact hp

/-- … and `reply`. -/
theorem replyBody_placement (msg : BitVec 32) :
    Preserves Kernel.placement (replyBody (τ := τ) msg) := by
  intro k _ k' h
  obtain ⟨c, k₁, -, hrun, rfl⟩ := callBody_ok h
  have hp := reply_placement c msg _ _ _ hrun
  exact hp

end Bodies

/-! ### Names and idle over the bodies -/

namespace Board

variable {b b' : Board} {c r : Slot}

/-- The idle process is not blocked. -/
def IdleFree (b : Board) : Prop := ∀ i, b.idle = some i → (b.state i).blocked = false

/-- No call makes a process: not `send`, … -/
theorem Deposit.inited (h : b.Deposit c r b') : b'.inited = b.inited := by
  cases h <;> rfl

/-- … not `recv` … -/
theorem Receive.inited (h : b.Receive c b') : b'.inited = b.inited := by
  cases h <;> rfl

/-- … and not `reply`. -/
theorem Answer.inited (h : b.Answer c b') : b'.inited = b.inited := by
  cases h with
  | nothing => rfl
  | first => simp

/-- The packet of a process names it, and the receiver is one. -/
theorem Named.deposit (hn : b.Named) (hc : b.inited c = true) (h : b.Deposit c r b') :
    b'.Named := by
  cases h with
  | waiting hr _ _ =>
    refine hn.of_moves rfl rfl rfl rfl fun s hs => ?_
    have hsr : s ≠ r := by
      rintro rfl
      exact absurd (hr.symm.trans (hn.used s hs)) (by decide)
    simp [hsr, ne_of_inited hs hc]
  | ready _ _ => exact hn.of_moves rfl rfl rfl rfl fun s hs => by simp [ne_of_inited hs hc, push]
  | other _ _ _ => exact hn.of_moves rfl rfl rfl rfl fun _ _ => rfl

/-- A placeholder names the process that waits. -/
theorem Named.receive (hn : b.Named) (hc : b.inited c = true) (h : b.Receive c b') :
    b'.Named := by
  cases h with
  | block _ _ => exact hn.of_moves rfl rfl rfl rfl fun s hs => by simp [ne_of_inited hs hc, push]
  | take _ => exact hn.of_moves rfl rfl rfl rfl fun _ _ => rfl

/-- A reply keeps the table in order if the process it wakes is one. -/
theorem Named.answer (hn : b.Named) (h : b.Answer c b')
    (hwake : ∀ n rest p, b.queue c = n :: rest → b.find n.msg.sender = some p →
      b.inited p = true) : b'.Named := by
  cases h with
  | nothing _ => exact hn
  | @first n rest hq =>
    cases hf : b.find n.msg.sender with
    | none => exact hn.of_moves rfl rfl rfl rfl fun _ _ => rfl
    | some p =>
      exact hn.of_moves rfl rfl rfl rfl fun s hs => by
        simp [wake, ne_of_inited hs (hwake n rest p hq hf)]

/-- Idle is not the process that sends, so it is not blocked. -/
theorem IdleFree.deposit (hi : b.IdleFree) (hc : b.idle ≠ some c) (h : b.Deposit c r b') :
    b'.IdleFree := by
  intro i hidle
  cases h with
  | waiting _ _ _ =>
    have hic : i ≠ c := by
      rintro rfl
      exact hc hidle
    by_cases hir : i = r
    · subst hir
      simp [ProcState.blocked]
    · simpa [hir, hic] using hi i hidle
  | ready _ _ =>
    have hic : i ≠ c := by
      rintro rfl
      exact hc hidle
    simpa [hic, push] using hi i hidle
  | other _ _ _ => exact hi i hidle

/-- Nor is it the one that receives. -/
theorem IdleFree.receive (hi : b.IdleFree) (hc : b.idle ≠ some c) (h : b.Receive c b') :
    b'.IdleFree := by
  intro i hidle
  cases h with
  | block _ _ =>
    have hic : i ≠ c := by
      rintro rfl
      exact hc hidle
    simpa [hic, push] using hi i hidle
  | take _ => exact hi i hidle

/-- An answer blocks nobody. -/
theorem IdleFree.answer (hi : b.IdleFree) (h : b.Answer c b') : b'.IdleFree := by
  intro i hidle
  cases h with
  | nothing _ => exact hi i hidle
  | @first n rest _ =>
    rw [record_idle, wake_idle] at hidle
    cases hf : b.find n.msg.sender with
    | none => exact hi i hidle
    | some p =>
      by_cases hip : i = p
      · subst hip
        simp [wake, ProcState.blocked]
      · simpa [wake, hip] using hi i hidle

/-- Scheduling makes ready and running only. -/
theorem IdleFree.sched (hi : b.IdleFree) (hn : b.Named) (h : b.Sched b') : b'.IdleFree := by
  obtain ⟨c, hy⟩ := hn.yields h
  intro i hidle
  rw [hy.idle] at hidle
  rcases hy.state_cases i with hs | ⟨-, hr, -⟩
  · rw [hs]
    exact hi i hidle
  · rw [hr]
    rfl

end Board

/-! ### Events -/

section Events

variable {τ : Type} [Tlb τ]

/-- `timer_handler`, less the tick counter. -/
def timerHandler (regs : BitVec 32) : Code Trap (Kernel τ) (BitVec 32) := procScheduleAfterIrq regs

/-- An event.  `other` is any change of memory (and, by the kernel process, of the scheduling
    flag) between two others. -/
inductive SwitchOp (τ : Type) where
  | timer (frame : BitVec 32)
  | int127 (frame : BitVec 32)
  | send (msg : BitVec 32)
  | recv (msg : BitVec 32)
  | reply (msg : BitVec 32)
  | other (mach : Machine τ) (scheduling : Bool)

/-- The event is the body of a system call. -/
def SwitchOp.isCall : SwitchOp τ → Bool
  | .send _ | .recv _ | .reply _ => true
  | .timer _ | .int127 _ | .other _ _ => false

/-- The frame of an interrupt that calls the scheduler. -/
def SwitchOp.frame? : SwitchOp τ → Option (BitVec 32)
  | .timer frame | .int127 frame => some frame
  | .send _ | .recv _ | .reply _ | .other _ _ => none

/-- Run an event. -/
def SwitchOp.exec : SwitchOp τ → Code Trap (Kernel τ) Unit
  | .timer frame => do
    let _ ← timerHandler frame
    return ()
  | .int127 frame => do
    let _ ← procScheduleAfterIrq frame
    return ()
  | .send msg => do
    let _ ← sendBody msg
    return ()
  | .recv msg => recvBody msg
  | .reply msg => replyBody msg
  | .other mach scheduling => modify fun k =>
      { k with mach := mach, schedulingEnabled := scheduling }

/-- An event with the kernel before and after it. -/
structure SwitchEvent (τ : Type) where
  op : SwitchOp τ
  before : Kernel τ
  after : Kernel τ

/-- A step: calls are made by processes. -/
def SwitchStep (k : Kernel τ) (e : SwitchEvent τ) (k' : Kernel τ) : Prop :=
  e.before = k ∧ e.after = k' ∧ (e.op.isCall = true → ∃ c, k.board.MayCall c) ∧
    e.op.exec k = .ok ((), k')

/-! ### Suspension and resumption -/

/-- The frames the slots were last suspended with, after one more event. -/
def SwitchEvent.suspends (saved : Slot → Option (BitVec 32)) (e : SwitchEvent τ) :
    Slot → Option (BitVec 32) := fun s =>
  if e.before.currentProc = some s ∧ e.after.currentProc ≠ some s then e.op.frame? else saved s

/-- The frame `proc_new` built for a slot, if it made a process of it. -/
def builtFrame (k₀ : Kernel τ) (s : Slot) : Option (BitVec 32) :=
  if (k₀.procs s).recvQueue.inited then some (k₀.procs s).trapframe else none

/-- The frame stored when the slot was last switched away from, or the one `proc_new` built. -/
def lastFrame (k₀ : Kernel τ) (tr : List (SwitchEvent τ)) : Slot → Option (BitVec 32) :=
  tr.foldl SwitchEvent.suspends (builtFrame k₀)

omit [Tlb τ] in
/-- The last event decides, if it suspends anybody. -/
theorem lastFrame_concat (k₀ : Kernel τ) (tr : List (SwitchEvent τ)) (e : SwitchEvent τ) :
    lastFrame k₀ (tr ++ [e]) = e.suspends (lastFrame k₀ tr) :=
  List.foldl_concat ..

/-- What a call of `proc_schedule_after_irq` must do, after the events `tr` since boot: nothing
    with scheduling disabled; else it resumes a ready process, or idle, with the frame that
    process was last suspended with, and touches no other process than the one it interrupts. -/
structure Sound (k₀ : Kernel τ) (tr : List (SwitchEvent τ)) (k : Kernel τ) (frame ret : BitVec 32)
    (k' : Kernel τ) : Prop where
  off : k.schedulingEnabled = false → ret = frame ∧ k' = k
  on : k.schedulingEnabled = true → ∃ c next, k.currentProc = some c ∧ k'.currentProc = some next ∧
    ((k'.procs next).state = .ready ∨ k.idle = some next) ∧
    (k'.procs next).state.blocked = false ∧ (next = c → ret = frame) ∧
    (next ≠ c → lastFrame k₀ tr next = some ret) ∧ ∀ s, s ≠ c → k'.procs s = k.procs s

/-- What every run keeps: the table is in order, idle is free, somebody runs, and everybody else
    has the frame it was suspended with. -/
structure Suspended (k₀ : Kernel τ) (tr : List (SwitchEvent τ)) (k : Kernel τ) : Prop where
  named : k.board.Named
  idleFree : k.board.IdleFree
  current : ∃ c, k.currentProc = some c
  frames : ∀ s, k.board.inited s = true → k.currentProc ≠ some s →
    lastFrame k₀ tr s = some (k.procs s).trapframe

variable {k₀ k k' : Kernel τ} {tr : List (SwitchEvent τ)} {e : SwitchEvent τ} {c next : Slot}
  {frame ret : BitVec 32}

/-- In a table in order the interrupted process is found under its pid. -/
theorem Switch.procs_eq (hn : k.board.Named) (hc : k.currentProc = some c)
    (h : Switch k c next frame ret k') :
    k'.procs = k.suspend c frame (k.procs c).state.blocked := by
  obtain ⟨t, ht, hprocs⟩ := h.procs
  obtain rfl : c = t :=
    Option.some.inj ((hn.find_pid (hn.who c (Or.inl hc))).symm.trans ht)
  exact hprocs

/-- Nobody but the interrupted process is touched. -/
theorem Switch.others (hn : k.board.Named) (hc : k.currentProc = some c)
    (h : Switch k c next frame ret k') {s : Slot} (hs : s ≠ c) : k'.procs s = k.procs s := by
  rw [h.procs_eq hn hc]
  exact k.suspend_of_ne frame _ hs

/-- A switch makes no process. -/
theorem Switch.inited (h : Switch k c next frame ret k') : k'.board.inited = k.board.inited := by
  obtain ⟨t, -, hprocs⟩ := h.procs
  funext s
  show (k'.procs s).recvQueue.inited = (k.procs s).recvQueue.inited
  rw [hprocs]
  by_cases hs : s = c
  · subst hs
    rw [k.suspend_self]
  · rw [k.suspend_of_ne frame _ hs]

/-- Whoever is picked is ready, or idle; and a slot that is not idle is a process. -/
theorem Switch.picked (h : Switch k c next frame ret k') :
    (k'.procs next).state = .ready ∨ k.idle = some next := by
  have hscan := h.scan
  cases hf : findNextLoop k'.procs k.idle .ready nprocs (k.cursor % nprocs) with
  | mk found j =>
    rw [hf] at hscan
    cases found with
    | none => exact Or.inr hscan
    | some u =>
      obtain rfl : u = next := Option.some.inj hscan
      exact Or.inl (findNextLoop_some hf).2

/-- **A decision is sound**, in the state every run keeps. -/
theorem Suspended.sound (hk : Suspended k₀ tr k)
    (h : procScheduleAfterIrq frame k = .ok (ret, k')) : Sound k₀ tr k frame ret k' := by
  have hsched := sched_refines h
  rcases procScheduleAfterIrq_cases h with ⟨hoff, rfl, rfl⟩ | ⟨hon, c, next, hc, hsw⟩
  · refine ⟨fun _ => ⟨rfl, rfl⟩, fun hon => ?_⟩
    obtain ⟨c, hc⟩ := hk.current
    rcases hoff with hoff | hnone
    · exact absurd (hon.symm.trans hoff) (by decide)
    · exact absurd (hnone.symm.trans hc) (by simp)
  · refine ⟨fun hoff => absurd (hon.symm.trans hoff) (by decide), fun _ => ?_⟩
    obtain ⟨hoff | hnone, -⟩ | ⟨-, hs⟩ := hsched
    · exact absurd (hon.symm.trans hoff) (by decide)
    · exact absurd (hnone.symm.trans hc) (by simp)
    have hn' := hk.named.sched hs
    have hin : k.board.inited next = true := by
      rw [← hsw.inited]
      exact hn'.who next (Or.inl hsw.current)
    have hfree : (k'.procs next).state.blocked = false := by
      rcases hsw.picked with hr | hi
      · rw [hr]
        rfl
      · exact hk.idleFree.sched hk.named hs next (hsw.idle.trans hi)
    refine ⟨c, next, hc, hsw.current, hsw.picked, hfree, fun heq => (hsw.stay heq).1, fun hne => ?_,
      fun s hs' => hsw.others hk.named hc hs'⟩
    rw [(hsw.away hne).1]
    refine hk.frames next hin fun hcur => hne ?_
    exact Option.some.inj (hcur.symm.trans hc)

/-- No reply goes to the pid of a slot without a process. -/
def AnswersProcess (k : Kernel τ) (op : SwitchOp τ) : Prop :=
  ∀ msg c n rest p, op = .reply msg → k.currentProc = some c →
    (k.procs c).recvQueue.msgs = n :: rest → k.procFindByPid n.msg.sender = some p →
    (k.procs p).recvQueue.inited = true

omit [Tlb τ] in
/-- A body moves nobody, so everybody's frame is still the one it was suspended with. -/
theorem Suspended.body (hk : Suspended k₀ tr k) (hb : e.before = k) (ha : e.after = k')
    (hp : k'.placement = k.placement) (hinited : k'.board.inited = k.board.inited)
    (hnamed : k'.board.Named) (hfree : k'.board.IdleFree) : Suspended k₀ (tr ++ [e]) k' := by
  have hcur : k'.currentProc = k.currentProc := congrArg Placement.current hp
  refine ⟨hnamed, hfree, by rw [hcur]; exact hk.current, fun s hin hs => ?_⟩
  rw [lastFrame_concat, SwitchEvent.suspends, hb, ha, hcur, if_neg (fun h => h.2 h.1),
    show (k'.procs s).trapframe = (k.procs s).trapframe from
      congrFun (congrArg Placement.trapframe hp) s]
  exact hk.frames s (by rw [← hinited]; exact hin) (by rw [← hcur]; exact hs)

/-- A scheduling decision stores the frame of the process it suspends. -/
theorem Suspended.decision (hk : Suspended k₀ tr k) (hb : e.before = k) (ha : e.after = k')
    (hf : e.op.frame? = some frame) (h : procScheduleAfterIrq frame k = .ok (ret, k')) :
    Suspended k₀ (tr ++ [e]) k' := by
  have hsched := sched_refines h
  rcases procScheduleAfterIrq_cases h with ⟨-, rfl, rfl⟩ | ⟨hon, c, next, hc, hsw⟩
  · exact hk.body hb ha rfl rfl hk.named hk.idleFree
  · obtain ⟨hoff | hnone, -⟩ | ⟨-, hs⟩ := hsched
    · exact absurd (hon.symm.trans hoff) (by decide)
    · exact absurd (hnone.symm.trans hc) (by simp)
    refine ⟨hk.named.sched hs, hk.idleFree.sched hk.named hs, ⟨next, hsw.current⟩,
      fun s hin hne => ?_⟩
    rw [lastFrame_concat, SwitchEvent.suspends, hb, ha, hf]
    by_cases hsc : s = c
    · -- the process switched away from
      subst hsc
      rw [if_pos ⟨hc, hne⟩, hsw.procs_eq hk.named hc, k.suspend_self]
    · have hncur : k.currentProc ≠ some s := by
        rw [hc]
        exact fun h => hsc (Option.some.inj h).symm
      rw [if_neg (fun h => hncur h.1), hsw.others hk.named hc hsc]
      exact hk.frames s (by rw [← hsw.inited]; exact hin) hncur

/-- **One event.** -/
theorem SwitchStep.suspended (hk : Suspended k₀ tr k) (h : SwitchStep k e k')
    (hans : AnswersProcess k e.op) : Suspended k₀ (tr ++ [e]) k' := by
  obtain ⟨hb, ha, hcall, hex⟩ := h
  cases hop : e.op with
  | timer frame =>
    rw [hop] at hex
    obtain ⟨ret, k₁, h₁, h₂⟩ := bind_ok_iff.mp hex
    obtain ⟨-, rfl⟩ := Prod.mk.inj (Except.ok.inj h₂)
    -- an interrupt from the timer, or the yield, is a decision
    exact hk.decision hb ha (by rw [hop]; rfl) h₁
  | int127 frame =>
    rw [hop] at hex
    obtain ⟨ret, k₁, h₁, h₂⟩ := bind_ok_iff.mp hex
    obtain ⟨-, rfl⟩ := Prod.mk.inj (Except.ok.inj h₂)
    exact hk.decision hb ha (by rw [hop]; rfl) h₁
  | send msg =>
    obtain ⟨d, hd, hin, hidle⟩ := hcall (by rw [hop]; rfl)
    rw [hop] at hex
    obtain ⟨found, k₁, h₁, h₂⟩ := bind_ok_iff.mp hex
    obtain ⟨-, rfl⟩ := Prod.mk.inj (Except.ok.inj h₂)
    -- a call moves nobody; what it does to the table is on the board
    have hp := sendBody_placement msg _ _ _ h₁
    obtain ⟨c, mach, hc, -, ⟨-, rfl⟩ | ⟨-, r, k₂, hrun, rfl⟩⟩ := sendBody_ok h₁
    · exact hk.body hb ha hp rfl hk.named hk.idleFree
    · obtain rfl : c = d := Option.some.inj (hc.symm.trans hd)
      have hdep : k.board.Deposit c r k₂.board := by
        have h := sendTo_refines hrun
        exact h
      exact hk.body hb ha hp hdep.inited (hk.named.deposit hin hdep)
        (hk.idleFree.deposit hidle hdep)
  | recv msg =>
    obtain ⟨d, hd, hin, hidle⟩ := hcall (by rw [hop]; rfl)
    rw [hop] at hex
    have hp := recvBody_placement msg _ _ _ hex
    obtain ⟨c, k₁, hc, hrun, rfl⟩ := callBody_ok hex
    obtain rfl : c = d := Option.some.inj (hc.symm.trans hd)
    have hrec : k.board.Receive c k₁.board := by
      have h := receive_refines hrun
      exact h
    exact hk.body hb ha hp hrec.inited (hk.named.receive hin hrec) (hk.idleFree.receive hidle hrec)
  | reply msg =>
    rw [hop] at hex
    have hp := replyBody_placement msg _ _ _ hex
    obtain ⟨c, k₁, hc, hrun, rfl⟩ := callBody_ok hex
    have hansw : k.board.Answer c k₁.board := by
      have h := reply_refines hrun
      exact h
    exact hk.body hb ha hp hansw.inited
      (hk.named.answer hansw fun n rest p hq hf => hans msg c n rest p hop hc hq hf)
      (hk.idleFree.answer hansw)
  | other mach scheduling =>
    rw [hop] at hex
    obtain ⟨-, rfl⟩ := Prod.mk.inj (Except.ok.inj hex)
    have hcur := hk.current
    refine ⟨hk.named, hk.idleFree, hcur, fun s hin hs => ?_⟩
    rw [lastFrame_concat, SwitchEvent.suspends, hb, ha, if_neg (fun h => h.2 h.1)]
    exact hk.frames s hin hs

omit [Tlb τ] in
/-- Boot leaves every process the frame `proc_new` built. -/
theorem Booted.suspended {n : Nat} (hb : Booted n k₀) : Suspended k₀ [] k₀ := by
  obtain ⟨c, -, hc⟩ := hb.current
  refine ⟨hb.named, fun i _ => ?_, ⟨c, hc⟩, fun s hin _ => if_pos hin⟩
  rcases hb.state_cases i with h | h | h <;> rw [h] <;> rfl

/-- **Context switches.**  In every run from boot in which no reply goes to the pid of an unused
    slot, every call of `proc_schedule_after_irq` is sound. -/
theorem context_switch {n : Nat} (hb : Booted n k₀)
    (hrun : Run (fun k e k' => SwitchStep k e k' ∧ AnswersProcess k e.op) k₀ tr k)
    (hcall : procScheduleAfterIrq frame k = .ok (ret, k')) : Sound k₀ tr k frame ret k' :=
  (hrun.invariant (J := fun tr k => Suspended k₀ tr k) hb.suspended
    fun _ _ _ _ hk hstep => hstep.1.suspended hk hstep.2).sound hcall

/-! ### The frames of `proc_new` -/

/-- Every process has the frame `proc_new` pushed on its kernel stack: 19 words. -/
def Framed (k : Kernel τ) : Prop :=
  ∀ s, (k.procs s).recvQueue.inited = true → (k.procs s).trapframe = (k.procs s).kstack - 76#32

/-- Each word takes four bytes off the stack pointer. -/
theorem pushWords_ret (ws : List (BitVec 32)) : ∀ {stack ret : BitVec 32} {m m' : Machine τ},
    pushWords ws stack m = .ok (ret, m') → ret = stack - 4#32 * BitVec.ofNat 32 ws.length := by
  induction ws with
  | nil =>
    intro stack ret m m' h
    obtain ⟨rfl, -⟩ := Prod.mk.inj (Except.ok.inj h)
    simp
  | cons w ws ih =>
    intro stack ret m m' h
    obtain ⟨_, m₁, -, h₂⟩ := bind_ok_iff.mp h
    rw [ih h₂]
    apply BitVec.eq_of_toNat_eq
    simp only [List.length_cons, BitVec.toNat_sub, BitVec.toNat_mul, BitVec.toNat_ofNat]
    omega

/-- `proc_new` leaves the frame it builds, and touches no other process. -/
theorem Framed.procNew (hk : Framed k) {procLoad : BitVec 32} {name : Vector (BitVec 8) 32}
    {privileged : Bool} {s : Slot} (h : procNew procLoad name privileged k = .ok (s, k')) :
    Framed k' := by
  obtain ⟨k₁, stack, _, _, pdir, _, trapframe, mach, hfind, -, -, -, hpush, rfl⟩ := procNew_ok h
  obtain ⟨-, rfl⟩ := Prod.mk.inj (Except.ok.inj hfind)
  intro u hu
  by_cases hus : u = s
  · subst hus
    simpa [initialFrame] using pushWords_ret _ hpush
  · simpa [hus] using hk u (by simpa [hus] using hu)

/-- So do all calls for the initrd. -/
theorem Framed.procNew_all {procLoad : BitVec 32} {names : List (Vector (BitVec 8) 32)}
    {k k' : Kernel τ} (hk : Framed k)
    (h : (names.forM fun name => do
      let _ ← Leoman.procNew procLoad name false : Code Trap (Kernel τ) Unit) k = .ok ((), k')) :
    Framed k' := by
  exact procNew_all_ok (J := fun _ => Framed) hk (fun _ _ _ _ _ _ hk₁ h₁ => hk₁.procNew h₁) h

/-- **Boot** leaves every process the frame `proc_new` built for it. -/
theorem bootProcs_framed {mach : Machine τ} {heap : Heap} {procLoad : BitVec 32}
    {kernelName idleName : Vector (BitVec 8) 32} {names : List (Vector (BitVec 8) 32)}
    (h : bootProcs procLoad kernelName idleName names (Kernel.initial mach heap) = .ok ((), k)) :
    Framed k := by
  obtain ⟨_, k₁, h₁, h⟩ := bind_ok_iff.mp h
  obtain ⟨_, k₂, h₂, h⟩ := bind_ok_iff.mp h
  have hk₁ : Framed k₁ := by
    obtain ⟨kernel, k₃, idle, k₄, h₃, h₄, rfl⟩ := procEarlyinit_ok h₁
    have hk₃ : Framed k₃ := Framed.procNew
      (fun s hs => absurd hs (by simp [Kernel.cleared, Kernel.initial])) h₃
    have hk₄ : Framed k₄ := Framed.procNew (k := { k₃ with currentProc := some kernel }) hk₃ h₄
    exact hk₄
  have hk₂ := hk₁.procNew_all h₂
  -- the kickoff marks the first process and loads its space
  obtain ⟨c, -, rfl⟩ := procKickoffFirstProcess_ok h
  intro s hs
  by_cases hsc : s = c
  · subst hsc
    simpa [Kernel.updProc] using hk₂ s (by simpa [Kernel.updProc] using hs)
  · simpa [Kernel.updProc, hsc] using hk₂ s (by simpa [Kernel.updProc, hsc] using hs)

/-! ### Checked runs -/

/-- Run events that `s` does not take part in, each one of which may happen. -/
def runWithout (s : Slot) : List (SwitchOp τ) → Code Trap (Kernel τ) Unit
  | [] => pure ()
  | op :: ops => do
    let k ← get
    if (op.isCall = true → ∃ c, k.currentProc = some c ∧ (k.procs c).recvQueue.inited = true ∧
        k.idle ≠ some c) ∧ k.currentProc ≠ some s then do
      op.exec
      runWithout s ops
    else trap .halt

/-- Such events are a run, in which `s` is not suspended. -/
theorem run_of_runWithout {s : Slot} {ops : List (SwitchOp τ)} {k k' : Kernel τ}
    (h : runWithout s ops k = .ok ((), k')) : ∃ tr : List (SwitchEvent τ),
      tr.map SwitchEvent.op = ops ∧ Run SwitchStep k tr k' ∧
      ∀ e ∈ tr, e.before.currentProc ≠ some s := by
  induction ops generalizing k with
  | nil =>
    obtain ⟨-, rfl⟩ := Prod.mk.inj (Except.ok.inj h)
    exact ⟨[], rfl, .start, by simp⟩
  | cons op ops ih =>
    unfold runWithout at h
    rw [run_bind_of_ok (run_get k)] at h
    split at h
    · rename_i hok
      obtain ⟨_, k₁, h₁, h₂⟩ := bind_ok_iff.mp h
      obtain ⟨tr, hops, hrun, hno⟩ := ih h₂
      have hstep : SwitchStep k ⟨op, k, k₁⟩ k₁ := ⟨rfl, rfl, hok.1, h₁⟩
      refine ⟨[⟨op, k, k₁⟩] ++ tr, by rw [List.map_append, hops]; rfl,
        (Run.start.next hstep).append hrun, ?_⟩
      intro e he
      rcases List.mem_append.mp he with he | he
      · rw [List.mem_singleton.mp he]
        exact hok.2
      · exact hno e he
    · exact absurd h (by simp)

omit [Tlb τ] in
/-- A slot that is not suspended keeps the frame `proc_new` built for it. -/
theorem lastFrame_of_idle {s : Slot} (h : ∀ e ∈ tr, e.before.currentProc ≠ some s) :
    lastFrame k₀ tr s = builtFrame k₀ s := by
  induction tr using List.reverseRecOn with
  | nil => rfl
  | append_singleton tr e ih =>
    rw [lastFrame_concat, SwitchEvent.suspends,
      if_neg (fun hc => h e (by simp) hc.1)]
    exact ih fun e' he' => h e' (by simp [he'])

end Events

/-! ### The small system -/

/-- Three timer interrupts in the small system: the third one resumes process 3 with the frame
    the first one suspended it with. -/
theorem context_switch_demo :
    ∃ (tr : List (SwitchEvent Unit)) (k k' : Kernel Unit) (ret : BitVec 32),
    Run (fun k e k' => SwitchStep k e k' ∧ AnswersProcess k e.op) demoKernel tr k ∧
      procScheduleAfterIrq 0x300#32 k = .ok (ret, k') ∧ ret = 0x100#32 ∧
      k'.currentProc = some 3 ∧ Sound demoKernel tr k 0x300#32 ret k' := by
  have htest : (((SwitchOp.timer 0x100#32).exec >>= fun _ => get >>= fun k₁ =>
      (SwitchOp.timer 0x200#32).exec >>= fun _ => get >>= fun k₂ =>
      procScheduleAfterIrq 0x300#32 >>= fun ret =>
        (pure (k₁, k₂, ret) : Code Trap (Kernel Unit) _)) demoKernel).toOption.map (fun r =>
          decide (r.1.2.2 = 0x100#32) && decide (r.2.currentProc = some 3)) = some true := by
    decide +kernel
  obtain ⟨⟨k₁, k₂, ret⟩, k', h, htests⟩ := ok_of_test htest
  simp only [Bool.and_eq_true, decide_eq_true_eq] at htests
  obtain ⟨_, _, h₁, h⟩ := bind_ok_iff.mp h
  obtain ⟨_, _, hget₁, h⟩ := bind_ok_iff.mp h
  obtain ⟨rfl, rfl⟩ := Prod.mk.inj (Except.ok.inj hget₁)
  obtain ⟨_, _, h₂, h⟩ := bind_ok_iff.mp h
  obtain ⟨_, _, hget₂, h⟩ := bind_ok_iff.mp h
  obtain ⟨rfl, rfl⟩ := Prod.mk.inj (Except.ok.inj hget₂)
  obtain ⟨ret', _, h₃, h⟩ := bind_ok_iff.mp h
  obtain ⟨heq, rfl⟩ := Prod.mk.inj (Except.ok.inj h)
  obtain ⟨rfl, heq'⟩ := Prod.mk.inj heq
  obtain ⟨rfl, rfl⟩ := Prod.mk.inj heq'
  have hstart : Run (fun k e k' => SwitchStep k e k' ∧ AnswersProcess k e.op) demoKernel []
    demoKernel := Run.start
  have hrun := (hstart.next (e := ⟨.timer 0x100#32, demoKernel, _⟩)
      ⟨⟨rfl, rfl, by simp [SwitchOp.isCall], h₁⟩, by simp [AnswersProcess]⟩).next
    (e := ⟨.timer 0x200#32, _, _⟩)
      ⟨⟨rfl, rfl, by simp [SwitchOp.isCall], h₂⟩, by simp [AnswersProcess]⟩
  exact ⟨_, _, _, _, hrun, h₃, htests.1, htests.2, context_switch booted_demoKernel hrun h₃⟩

/-- Three packets in the user page `0x5000`: at `0x5000` to process 0, at `0x5040` to process 2,
    at `0x5080` for a `recv`, with -1 where the sender's pid will go.  No message has any data. -/
def strayMem : Mem :=
  let words : List (BitVec 32 × BitVec 32) :=
    [(0x1000#32, 0x2007#32), (0x2014#32, 0x5007#32), (0x5044#32, 2#32), (0x5080#32, 0xffffffff#32)]
  words.foldl (fun m w => write32 m w.1 w.2) (blankSpace 0x1000#32)

/-- Three processes after boot: the kernel's, idle, and one more. -/
def strayKernel : Kernel Unit :=
  { demoKernel with
    mach := { demoKernel.mach with mem := strayMem }
    procs := fun s => { demoKernel.procs s with
      pid := if s.val < 3 then BitVec.ofNat 32 s.val else 0xffffffff#32
      state := if s.val = 2 then .running else if s.val < 2 then .ready else .unused
      recvQueue := ⟨decide (s.val < 3), [], []⟩ }
    nextPid := 3#32
    currentProc := some (procAt 2)
    cursor := 3 }

/-- It is a state that boot can leave. -/
theorem booted_strayKernel : Booted 3 strayKernel := by
  refine ⟨by decide, by decide, rfl, ⟨procAt 2, by decide, rfl⟩, ?_, ?_, rfl⟩
  · decide
  · decide

/-- Process 2 waits for 0, and 0 sends to it meanwhile, which does not block 0.  Then 0 answers and
    calls `recv`; when 2 answers in turn, 0 wakes with its own placeholder first in its queue.
    Its reply goes to the pid in that placeholder, the -1 in the packet of its own `recv`. -/
def strayOps : List (SwitchOp Unit) :=
  [.send 0x5000#32, .int127 0x10#32, .send 0x5040#32, .int127 0x20#32,
   .reply 0x5000#32, .int127 0x30#32, .timer 0x40#32, .recv 0x5080#32, .int127 0x50#32,
   .reply 0x5000#32, .int127 0x60#32, .reply 0x5000#32, .int127 0x70#32]

/-- **A slot without a process is resumed**: after `strayOps` slot 3 is ready, and the scheduler
    returns the frame of it, which `proc_new` never built. -/
theorem context_switch_unused : ∃ (n : Nat) (k₀ k k' : Kernel Unit)
    (tr : List (SwitchEvent Unit)) (frame ret : BitVec 32), Booted n k₀ ∧ Run SwitchStep k₀ tr k ∧
      procScheduleAfterIrq frame k = .ok (ret, k') ∧ ¬ Sound k₀ tr k frame ret k' := by
  have htest : ((runWithout 3 strayOps >>= fun _ => get >>= fun k =>
      procScheduleAfterIrq 0x80#32 >>= fun ret =>
        (pure (k, ret) : Code Trap (Kernel Unit) _)) strayKernel).toOption.map (fun r =>
          r.1.1.schedulingEnabled && decide (r.1.1.currentProc = some 2) &&
          decide (r.2.currentProc = some 3)) = some true := by
    decide +kernel
  obtain ⟨⟨k, ret⟩, k', h, htests⟩ := ok_of_test htest
  simp only [Bool.and_eq_true, decide_eq_true_eq] at htests
  obtain ⟨⟨hon, hcur⟩, hcur'⟩ := htests
  obtain ⟨_, _, h₁, h⟩ := bind_ok_iff.mp h
  obtain ⟨_, _, hget, h⟩ := bind_ok_iff.mp h
  obtain ⟨rfl, rfl⟩ := Prod.mk.inj (Except.ok.inj hget)
  obtain ⟨ret', _, h₂, h⟩ := bind_ok_iff.mp h
  obtain ⟨heq, rfl⟩ := Prod.mk.inj (Except.ok.inj h)
  obtain ⟨rfl, rfl⟩ := Prod.mk.inj heq
  obtain ⟨tr, -, hrun, hno⟩ := run_of_runWithout h₁
  refine ⟨3, strayKernel, _, _, tr, 0x80#32, _, booted_strayKernel, hrun, h₂, fun hsound => ?_⟩
  obtain ⟨c, next, hc, hnext, -, -, -, haway, -⟩ := hsound.on hon
  obtain rfl : 2 = c := Option.some.inj (hcur.symm.trans hc)
  obtain rfl : 3 = next := Option.some.inj (hcur'.symm.trans hnext)
  -- slot 3 was never suspended and never created
  have hframe := haway (by decide)
  have hnone : builtFrame strayKernel 3 = none := rfl
  rw [lastFrame_of_idle hno, hnone] at hframe
  exact absurd hframe (by simp)

end Leoman
