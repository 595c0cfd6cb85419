import Leoman.ContextSwitch
import Leoman.Spaces

namespace Leoman

open ByteMem StateExcept Runs

/-!
# Sends to nobody

`syscall_send_msg` looks the receiver up by pid, over all slots, and a slot without a process has
the pid -1.  So a pid that no process has may still find a slot, where the packet is queued behind
a head that was never initialised; and where it finds none, the call returns before it enables
scheduling again.

* `Harmless` — what a send to nobody should leave as it was;
* `failed_send` — it does exactly when scheduling was disabled to begin with and the pid finds no
  slot at all.
-/

/-! ### The table of a run -/

namespace Board

variable {b b' : Board} {c r : Slot}

/-- No call changes a pid: not `send`, … -/
theorem Deposit.pid (h : b.Deposit c r b') : b'.pid = b.pid := by
  cases h <;> rfl

/-- … not `recv` … -/
theorem Receive.pid (h : b.Receive c b') : b'.pid = b.pid := by
  cases h <;> rfl

/-- … and not `reply`. -/
theorem Answer.pid (h : b.Answer c b') : b'.pid = b.pid := by
  cases h with
  | nothing => rfl
  | first => simp

/-- Two boards have the same slots under the same pids. -/
def SameSlots (b b' : Board) : Prop := b'.pid = b.pid ∧ b'.inited = b.inited

/-- One step after the other. -/
theorem SameSlots.trans {b'' : Board} (h : b.SameSlots b') (h' : b'.SameSlots b'') :
    b.SameSlots b'' :=
  ⟨h'.1.trans h.1, h'.2.trans h.2⟩

/-- No step. -/
theorem SameSlots.of_eq (h : b' = b) : b.SameSlots b' := by
  subst h
  exact ⟨rfl, rfl⟩

/-- The scheduler changes states only. -/
theorem Sched.sameSlots (h : b.Sched b') : b.SameSlots b' := by
  obtain @⟨c, t, next, b₁, -, -, rfl, -⟩ := h
  split <;> exact ⟨rfl, rfl⟩

end Board

section Table

variable {τ : Type} [Tlb τ] {k k' : Kernel τ}

/-- No event makes or ends a process. -/
theorem IpcStep.sameSlots {op : IpcOp τ} (h : IpcStep k op k') : k.board.SameSlots k'.board := by
  obtain ⟨-, hex⟩ := h
  cases op with
  | send msg frame =>
    obtain ⟨c, -, ⟨-, hsame⟩ | ⟨r, b, -, hdep, hsched⟩⟩ := send_refines hex
    · exact .of_eq hsame
    · exact .trans ⟨hdep.pid, hdep.inited⟩ hsched.sameSlots
  | recv msg frame =>
    obtain ⟨c, b, -, hrec, hsched⟩ := recv_refines hex
    exact .trans ⟨hrec.pid, hrec.inited⟩ hsched.sameSlots
  | reply msg frame =>
    obtain ⟨c, b, -, hans, hsched⟩ := rply_refines hex
    exact .trans ⟨hans.pid, hans.inited⟩ hsched.sameSlots
  | tick frame =>
    rcases tick_refines hex with hsame | hsched
    · exact .of_eq hsame
    · exact hsched.sameSlots
  | other mach scheduling => exact .of_eq (other_refines hex)

/-- In every run the slots without a process are those with the pid -1. -/
theorem run_unused_pid {n : Nat} {k₀ : Kernel τ} {tr : List (IpcOp τ)} (hb : Booted n k₀)
    (hrun : Run IpcStep k₀ tr k) (s : Slot) (hs : k.board.inited s = false) :
    k.board.pid s = 0xffffffff#32 := by
  have hsame : k₀.board.SameSlots k.board :=
    hrun.invariant (J := fun _ k => k₀.board.SameSlots k.board) (.of_eq rfl)
      fun _ _ _ _ h hstep => h.trans hstep.sameSlots
  rw [hsame.2] at hs
  rw [hsame.1]
  refine (hb.unused s ?_).1
  by_contra hlt
  rw [(hb.inited_iff s).mpr (by omega)] at hs
  exact absurd hs (by decide)

end Table

/-! ### A packet for a slot without a process -/

section Stray

variable {τ : Type} {k k' : Kernel τ} {c r : Slot} {msg : BitVec 32}

/-- Suspending a process leaves the queues alone. -/
theorem Kernel.suspend_recvQueue (k : Kernel τ) (c : Slot) (frame : BitVec 32) (blocked : Bool)
    (s : Slot) : (k.suspend c frame blocked s).recvQueue = (k.procs s).recvQueue := by
  by_cases hs : s = c
  · subst hs
    rw [k.suspend_self]
  · rw [k.suspend_of_ne frame blocked hs]

/-- Suspending a process leaves who is ready ready. -/
theorem Kernel.suspend_ready (k : Kernel τ) {c s : Slot} (frame : BitVec 32) (blocked : Bool)
    (hs : (k.procs s).state = .ready) : (k.suspend c frame blocked s).state = .ready := by
  by_cases hsc : s = c
  · subst hsc
    rw [k.suspend_self]
    cases blocked with
    | true => exact hs
    | false => rfl
  · rw [k.suspend_of_ne frame blocked hsc]
    exact hs

variable [Tlb τ]

/-- The end of a call leaves the queues alone, and who is ready. -/
theorem callEnd_keeps {frame : BitVec 32}
    (h : (do procEnableScheduling; procScheduleWithoutIrq frame : Code Trap (Kernel τ) Unit) k
      = .ok ((), k')) (s : Slot) : (k'.procs s).recvQueue = (k.procs s).recvQueue ∧
      ((k.procs s).state = .ready → (k'.procs s).state = .ready) := by
  obtain ⟨_, k₁, h₁, h⟩ := bind_ok_iff.mp h
  obtain ⟨-, rfl⟩ := Prod.mk.inj (Except.ok.inj h₁)
  obtain ⟨_, k₂, h₂, h⟩ := bind_ok_iff.mp h
  obtain ⟨-, rfl⟩ := Prod.mk.inj (Except.ok.inj h)
  rcases procScheduleAfterIrq_cases h₂ with ⟨-, -, rfl⟩ | ⟨-, d, next, -, hsw⟩
  · exact ⟨rfl, id⟩
  · obtain ⟨t, -, hprocs⟩ := hsw.procs
    rw [hprocs]
    exact ⟨Kernel.suspend_recvQueue _ d frame _ s, Kernel.suspend_ready _ frame _⟩

/-- What `STAILQ_INSERT_TAIL` puts behind a head that was never initialised stays there. -/
theorem insertTail_stray {n : MsgPacketQueue} (hin : (k.procs r).recvQueue.inited = false)
    (h : insertTail r n k = .ok ((), k')) :
    (k'.procs r).recvQueue.stray = (k.procs r).recvQueue.stray ++ [n] := by
  rcases insertTail_ok h with ⟨hin', -⟩ | ⟨-, k₁, h₁, rfl⟩
  · exact absurd (hin.symm.trans hin') (by decide)
  · have hprocs : k₁.procs = k.procs := by
      rcases onlyIf_ok h₁ with ⟨-, h₁⟩ | ⟨-, rfl⟩
      · obtain ⟨m, -, rfl⟩ := onMach_ok_iff.mp h₁
        rfl
      · rfl
    simp [Kernel.updProc, hprocs]

/-- A send that queues a packet for a slot without a process leaves it stray. -/
theorem queuePacket_stray (hin : (k.procs r).recvQueue.inited = false)
    (h : queuePacket c r msg k = .ok ((), k')) :
    ∃ n, (k'.procs r).recvQueue.stray = (k.procs r).recvQueue.stray ++ [n] := by
  obtain ⟨addr, heap, packet, m, k₁, -, -, -, hins, rfl⟩ := queuePacket_ok h
  have hstray : (k₁.procs r).recvQueue.stray = (k.procs r).recvQueue.stray ++ [_] :=
    insertTail_stray (k := { k with heap := heap, mach := m }) hin hins
  exact ⟨_, hstray⟩

/-- **A send to a slot without a process** leaves a stray packet there or, were the slot waiting,
    wakes it. -/
theorem sendTo_stray (hin : (k.procs r).recvQueue.inited = false)
    (h : sendTo c r msg k = .ok ((), k')) :
    (k'.procs r).recvQueue ≠ (k.procs r).recvQueue ∨
      (k.procs r).state = .recvBlocked ∧ (k'.procs r).state = .ready := by
  rcases sendTo_ok h with ⟨hst, hfill⟩ | ⟨-, k₁, hput, hrest⟩
  · refine Or.inr ⟨hst, ?_⟩
    have hdep := fillPlaceholder_refines hst hfill
    show k'.board.state r = .ready
    generalize k'.board = b at hdep
    cases hdep with
    | waiting _ _ _ => simp
    | ready hr _ => exact absurd (hst.symm.trans hr) (by decide)
    | other hr _ _ => exact absurd hst hr
  · obtain ⟨n, hn⟩ := queuePacket_stray hin hput
    -- the rest of the send writes a state at most
    have hkeep : (k'.procs r).recvQueue = (k₁.procs r).recvQueue := by
      rcases hrest with ⟨-, rfl⟩ | ⟨-, rfl⟩
      · by_cases hrc : r = c
        · subst hrc
          simp [Kernel.updProc]
        · simp [Kernel.updProc, hrc]
      · rfl
    refine Or.inl fun hsame => ?_
    rw [hkeep] at hsame
    have := congrArg (fun q => q.stray.length) hsame
    simp [hn] at this

end Stray

/-! ### A send to nobody -/

section FailedSend

variable {τ : Type} {k k' : Kernel τ} {c : Slot}

/-- What a send to nobody should leave as it was: the states and queues, the slots without a
    process, and whether scheduling is enabled. -/
structure Harmless (k k' : Kernel τ) : Prop where
  state : ∀ s, (k'.procs s).state = (k.procs s).state
  queue : ∀ s, (k'.procs s).recvQueue = (k.procs s).recvQueue
  unused : ∀ s, (k.procs s).recvQueue.inited = false → k'.procs s = k.procs s
  scheduling : k'.schedulingEnabled = k.schedulingEnabled

/-- No slot has a pid. -/
theorem Kernel.procFindByPid_eq_none {pid : BitVec 32} :
    k.procFindByPid pid = none ↔ ∀ s, (k.procs s).pid ≠ pid := by
  unfold Kernel.procFindByPid
  rw [List.find?_eq_none]
  simp

variable [Tlb τ] {msg frame pid : BitVec 32} {m : Machine τ}

/-- The call up to the search for the receiver. -/
theorem syscallSendMsg_search (hc : k.currentProc = some c)
    (hload : load32 (receiverField msg) k.mach = .ok (pid, m)) :
    syscallSendMsg msg frame k = (match k.procFindByPid pid with
      | none => return ()
      | some r => do
        sendTo c r msg
        procEnableScheduling
        procScheduleWithoutIrq frame : Code Trap (Kernel τ) Unit)
          { k with schedulingEnabled := false, mach := m } := by
  unfold syscallSendMsg
  have hslot : currentSlot { k with schedulingEnabled := false }
      = .ok (c, { k with schedulingEnabled := false }) := by
    unfold currentSlot
    rw [run_bind_of_ok (run_get _)]
    simp only [hc]
    rfl
  have hpid : onMach (load32 (receiverField msg)) { k with schedulingEnabled := false }
      = .ok (pid, { k with schedulingEnabled := false, mach := m }) := zoom_ok hload
  rw [run_bind_of_ok (show procDisableScheduling k
    = .ok ((), { k with schedulingEnabled := false }) from rfl), run_bind_of_ok hslot,
    run_bind_of_ok hpid, run_bind_of_ok (run_get _)]
  rfl

/-- Where the pid finds no slot the call returns at once, with scheduling disabled. -/
theorem send_to_none (hc : k.currentProc = some c)
    (hload : load32 (receiverField msg) k.mach = .ok (pid, m))
    (hfind : k.procFindByPid pid = none) :
    syscallSendMsg msg frame k = .ok ((), { k with schedulingEnabled := false, mach := m }) := by
  rw [syscallSendMsg_search hc hload, hfind]
  rfl

/-- Where the pid finds a slot without a process the send is not harmless. -/
theorem send_to_unused {r : Slot} (hc : k.currentProc = some c)
    (hload : load32 (receiverField msg) k.mach = .ok (pid, m))
    (hfind : k.procFindByPid pid = some r) (hin : (k.procs r).recvQueue.inited = false)
    (hrun : syscallSendMsg msg frame k = .ok ((), k')) : ¬ Harmless k k' := by
  rw [syscallSendMsg_search hc hload, hfind] at hrun
  obtain ⟨_, k₁, h₁, h₂⟩ := bind_ok_iff.mp hrun
  obtain ⟨hqueue, hready⟩ := callEnd_keeps h₂ r
  intro hh
  rcases sendTo_stray (k := { k with schedulingEnabled := false, mach := m }) hin h₁ with
    hne | ⟨hwas, hnow⟩
  · exact hne (hqueue.symm.trans (hh.queue r))
  · have hst := hh.state r
    rw [hready hnow] at hst
    exact absurd (hst.trans hwas) (by decide)

/-- **A send to nobody.**  In every run from boot, whoever makes the call and whatever pid no
    process has it names: the call completes and is harmless if and only if scheduling was disabled
    before it and the pid finds no slot, that is, it is not -1 or every slot has a process. -/
theorem failed_send {n : Nat} {k₀ : Kernel τ} {tr : List (IpcOp τ)} (hb : Booted n k₀)
    (hrun : Run IpcStep k₀ tr k) (hc : k.currentProc = some c)
    (hload : load32 (receiverField msg) k.mach = .ok (pid, m))
    (hnobody : ∀ s, (k.procs s).recvQueue.inited = true → (k.procs s).pid ≠ pid) :
    (∃ k', syscallSendMsg msg frame k = .ok ((), k') ∧ Harmless k k') ↔
      k.schedulingEnabled = false ∧
        (pid ≠ 0xffffffff#32 ∨ ∀ s, (k.procs s).recvQueue.inited = true) := by
  -- the pid finds no slot, or one without a process, and then it is -1
  rcases hf : k.procFindByPid pid with _ | r
  · have hfind := Kernel.procFindByPid_eq_none.mp hf
    have hcond : pid ≠ 0xffffffff#32 ∨ ∀ s, (k.procs s).recvQueue.inited = true := by
      by_contra hno
      obtain ⟨hpid, hnot⟩ := not_or.mp hno
      obtain ⟨s, hs⟩ := not_forall.mp hnot
      have hs' : (k.procs s).recvQueue.inited = false := by simpa using hs
      have hsp := run_unused_pid hb hrun s hs'
      exact hfind s (hsp.trans (not_not.mp hpid).symm)
    constructor
    · rintro ⟨k', hk', hh⟩
      obtain ⟨-, rfl⟩ := Prod.mk.inj (Except.ok.inj (hk'.symm.trans (send_to_none hc hload hf)))
      exact ⟨hh.scheduling.symm, hcond⟩
    · rintro ⟨hoff, -⟩
      exact ⟨_, send_to_none hc hload hf, fun _ => rfl, fun _ => rfl, fun _ _ => rfl, hoff.symm⟩
  · have hr : (k.procs r).pid = pid := by simpa using List.find?_some hf
    have hin : (k.procs r).recvQueue.inited = false := by
      by_contra hne
      exact hnobody r (by simpa using hne) hr
    constructor
    · rintro ⟨k', hk', hh⟩
      exact absurd hh (send_to_unused hc hload hf hin hk')
    · rintro ⟨-, hpid | hall⟩
      · exact absurd (hr.symm.trans (run_unused_pid hb hrun r hin)) hpid
      · exact absurd ((hall r).symm.trans hin) (by decide)

end FailedSend

/-! ### In the small system -/

/-- The packet at `0x5010` is to process 4, which there is not. -/
theorem demoKernel_receiver :
    load32 (receiverField 0x5010#32) demoKernel.mach = .ok (4#32, demoKernel.mach) := by
  have hwalk : walk demoKernel.mach.mem demoKernel.mach.cr3 (receiverField 0x5010#32)
      = some 0x5000#32 := by
    decide +kernel
  have hread : read32 demoKernel.mach.mem (0x5000#32 + pageOffset (receiverField 0x5010#32))
      = 4#32 := by
    decide +kernel
  obtain ⟨t, h, -⟩ := load32_of_walk (coherent_unit _ _ _) (by decide) hwalk
  rw [h, hread]

/-- No process of the small system has pid 4. -/
theorem demoKernel_nobody : ∀ s, (demoKernel.procs s).recvQueue.inited = true →
    (demoKernel.procs s).pid ≠ 4#32 := by
  decide

/-- The packet at `0x5010` is for pid 4, so its `send` ends at once. -/
theorem demoKernel_send (frame : BitVec 32) : syscallSendMsg 0x5010#32 frame demoKernel
    = .ok ((), { demoKernel with schedulingEnabled := false }) :=
  send_to_none (c := procAt 3) rfl demoKernel_receiver (by decide)

/-- The running process of the small system sends to process 4, twice: the second send finds
    scheduling disabled by the first, and is harmless. -/
theorem failed_send_demo : ∃ k, Run IpcStep demoKernel [.send 0x5010#32 0#32] k ∧
    ∃ k', syscallSendMsg 0x5010#32 0#32 k = .ok ((), k') ∧ Harmless k k' := by
  have hstep : IpcStep demoKernel (.send 0x5010#32 0#32)
      { demoKernel with schedulingEnabled := false } :=
    ⟨fun _ => ⟨procAt 3, rfl, rfl, by decide⟩, demoKernel_send 0#32⟩
  have hrun := Run.start.next hstep
  exact ⟨_, hrun, (failed_send booted_demoKernel hrun (c := procAt 3) rfl demoKernel_receiver
    demoKernel_nobody).mpr ⟨rfl, Or.inl (by decide)⟩⟩

/-- The running process of the small system sends to process 4: scheduling was enabled before the
    call, and is disabled after it. -/
theorem failed_send_disables : Booted 4 demoKernel ∧ demoKernel.currentProc = some (procAt 3) ∧
    load32 (receiverField 0x5010#32) demoKernel.mach = .ok (4#32, demoKernel.mach) ∧
    (∀ s, (demoKernel.procs s).recvQueue.inited = true → (demoKernel.procs s).pid ≠ 4#32) ∧
    ∃ k', syscallSendMsg 0x5010#32 0#32 demoKernel = .ok ((), k') ∧
      demoKernel.schedulingEnabled = true ∧ k'.schedulingEnabled = false ∧
      ¬ Harmless demoKernel k' := by
  refine ⟨booted_demoKernel, rfl, demoKernel_receiver, demoKernel_nobody, _, demoKernel_send 0#32,
    rfl, rfl, fun h => ?_⟩
  exact absurd h.scheduling (by decide)

end Leoman
