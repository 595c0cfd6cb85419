import Leoman.Ipc

namespace Leoman

open ByteMem StateExcept Runs

/-!
# Between two calls

A system call ends in a scheduling decision, and timer interrupts make more of them until the
next caller runs.  None of them touches memory, the heap or a queue.

* `Alive` — the process table is in order, there is an idle process, and `cr3` is the directory
  of the running process;
* `Paused` — what scheduling decisions leave alone;
* `callEnd_runs` — the end of a system call completes;
* `Dispatched` — timer interrupts until a given process runs;
* `Completes` — a call completes whenever its caller gets to run;
* `exists_dispatched` — a ready process gets to run;
* `Due`, `Completes.reach` — so its call is made, and completes.
-/

/-- The scheduler can run. -/
structure Alive (k : Kernel Unit) : Prop where
  named : k.board.Named
  idle : ∃ i, k.idle = some i
  cr3 : ∀ c, k.currentProc = some c → k.mach.cr3 = (k.procs c).pdir

/-- From `k` to `k'` there were scheduling decisions only. -/
structure Paused (k k' : Kernel Unit) : Prop where
  alive : Alive k'
  mem : k'.mach.mem = k.mach.mem
  pm : k'.mach.pm = k.mach.pm
  heap : k'.heap = k.heap
  pdir : ∀ t, (k'.procs t).pdir = (k.procs t).pdir
  pid : k'.board.pid = k.board.pid
  inited : k'.board.inited = k.board.inited
  queue : k'.board.queue = k.board.queue
  idle : k'.idle = k.idle
  state : ∀ t, k'.board.state t = k.board.state t ∨
    (k.board.state t).blocked = false ∧ k'.board.state t = .ready

/-- Scheduling is enabled, and there is a process to interrupt. -/
def Running (k : Kernel Unit) : Prop := k.schedulingEnabled = true ∧ ∃ c, k.currentProc = some c

/-- How far the slot `t` is ahead of the cursor `i`, in cyclic order. -/
def ahead (i : Nat) (t : Slot) : Nat := (t.val + nprocs - i % nprocs) % nprocs

/-- From `k` to `k'` the next ready process was picked; all that are ready in `k` took part. -/
def Picks (k k' : Kernel Unit) : Prop :=
  ∃ procs : Slot → Proc, (∀ t, (k.procs t).state = .ready → (procs t).state = .ready) ∧
    k'.currentProc = (findNextLoop procs k.idle .ready nprocs (k.cursor % nprocs)).1.or k.idle ∧
    k'.cursor = (findNextLoop procs k.idle .ready nprocs (k.cursor % nprocs)).2

section Dispatch

variable {k k' k'' : Kernel Unit} {c : Slot} {frame : BitVec 32}

theorem Paused.refl (ha : Alive k) : Paused k k :=
  ⟨ha, rfl, rfl, rfl, fun _ => rfl, rfl, rfl, rfl, rfl, fun _ => Or.inl rfl⟩

theorem Paused.trans (h : Paused k k') (h' : Paused k' k'') : Paused k k'' := by
  refine ⟨h'.alive, h'.mem.trans h.mem, h'.pm.trans h.pm, h'.heap.trans h.heap,
    fun t => (h'.pdir t).trans (h.pdir t), h'.pid.trans h.pid, h'.inited.trans h.inited,
    h'.queue.trans h.queue, h'.idle.trans h.idle, fun t => ?_⟩
  rcases h'.state t with hs' | ⟨hb', hr'⟩
  · rw [hs']
    exact h.state t
  · rcases h.state t with hs | ⟨hb, -⟩
    · rw [hs] at hb'
      exact Or.inr ⟨hb', hr'⟩
    · exact Or.inr ⟨hb, hr'⟩

/-- A process that is blocked, or ready, stays so. -/
theorem Paused.state_eq (h : Paused k k') {t : Slot} {st : ProcState}
    (hst : k.board.state t = st) (hkeep : st.blocked = true ∨ st = .ready) :
    k'.board.state t = st := by
  rcases h.state t with hs | ⟨hb, hr⟩
  · rw [hs, hst]
  · rcases hkeep with hbl | rfl
    · rw [hst, hbl] at hb
      exact absurd hb (by decide)
    · exact hr

/-- What `proc_schedule_after_irq` does not touch. -/
structure Untouched (k k' : Kernel Unit) : Prop where
  mem : k'.mach.mem = k.mach.mem
  pm : k'.mach.pm = k.mach.pm
  heap : k'.heap = k.heap
  idle : k'.idle = k.idle
  pdir : ∀ t, (k'.procs t).pdir = (k.procs t).pdir

/-- A write to a process that keeps its directory. -/
theorem updProc_untouched {s : Slot} {f : Proc → Proc}
    (h : (f (k.procs s)).pdir = (k.procs s).pdir) :
    Untouched k (k.updProc s f) := by
  refine ⟨rfl, rfl, rfl, rfl, fun t => ?_⟩
  by_cases ht : t = s
  · subst ht
    simpa [Kernel.updProc] using h
  · simp [Kernel.updProc, ht]

/-- The end of `proc_schedule_after_irq`: the running process goes on, or another one runs in its
    own address space. -/
theorem switch_runs (c next : Slot) (frame : BitVec 32) (hcr3 : ∀ d, k.currentProc = some d →
      k.mach.cr3 = (k.procs d).pdir) :
    ∃ ret k', (if some next = some c then (pure frame : Code Trap (Kernel Unit) (BitVec 32))
        else switchTo (some next)) k = .ok (ret, k') ∧ Untouched k k' ∧
      (k.currentProc = some c → k'.currentProc = some next) ∧ k'.cursor = k.cursor ∧
      k'.schedulingEnabled = k.schedulingEnabled ∧
      ∀ d, k'.currentProc = some d → k'.mach.cr3 = (k'.procs d).pdir := by
  split
  · rename_i h
    exact ⟨frame, k, rfl, ⟨rfl, rfl, rfl, rfl, fun _ => rfl⟩, fun hc => hc.trans h.symm, rfl, rfl,
      hcr3⟩
  · refine ⟨(k.procs next).trapframe, { k with
        currentProc := some next, tssEsp0 := (k.procs next).kstack
        mach := { k.mach with cr3 := (k.procs next).pdir, tlb := () } }, rfl,
      ⟨rfl, rfl, rfl, rfl, fun _ => rfl⟩, fun _ => rfl, rfl, rfl, fun d hd => ?_⟩
    obtain rfl : next = d := Option.some.inj hd
    rfl

/-- **`proc_schedule_after_irq`** with scheduling enabled completes. -/
theorem reschedule_runs (ha : Alive k) (hc : k.currentProc = some c) (frame : BitVec 32) :
    ∃ ret k', reschedule c frame k = .ok (ret, k') ∧ Paused k k' ∧
      k'.schedulingEnabled = k.schedulingEnabled ∧ (∃ d, k'.currentProc = some d) ∧
      Picks k k' := by
  obtain ⟨i, hi⟩ := ha.idle
  -- the trap frame is saved, and the running process finds itself under its pid
  let k₁ := k.updProc c fun p => { p with trapframe := frame }
  have hu₁ : Untouched k k₁ := updProc_untouched rfl
  have hb₁ : k₁.board = k.board := board_updProc_keep rfl rfl rfl rfl
  have hfind : k₁.procFindByPid (k₁.procs c).pid = some c := by
    show k₁.board.find (k₁.board.pid c) = some c
    rw [hb₁]
    exact ha.named.find_pid (ha.named.who c (Or.inl hc))
  have hblocked : procIsBlocked (k₁.procs c).pid k₁ = .ok ((k₁.procs c).state.blocked, k₁) := by
    unfold procIsBlocked
    rw [run_bind_of_ok (run_get k₁), hfind]
    rfl
  -- unless it is blocked it becomes ready
  have hready₁ : ∀ t, (k.procs t).state = .ready → (k₁.procs t).state = .ready := by
    intro t ht
    by_cases htc : t = c
    · subst htc
      simpa [k₁, Kernel.updProc] using ht
    · simpa [k₁, Kernel.updProc, htc] using ht
  obtain ⟨k₂, hk₂, hu₂, hcur₂, hmach₂, hcursor₂, henabled₂, hready₂⟩ : ∃ k₂ : Kernel Unit,
      onlyIf ((k₁.procs c).state.blocked = false)
        (setProc c fun p => { p with state := .ready }) k₁ = .ok ((), k₂) ∧
      Untouched k₁ k₂ ∧ k₂.currentProc = k.currentProc ∧ k₂.mach = k.mach ∧
      k₂.cursor = k.cursor ∧ k₂.schedulingEnabled = k.schedulingEnabled ∧
      ∀ t, (k₁.procs t).state = .ready → (k₂.procs t).state = .ready := by
    unfold onlyIf
    split
    · refine ⟨k₁.updProc c fun p => { p with state := .ready }, rfl, updProc_untouched rfl, rfl,
        rfl, rfl, rfl, fun t ht => ?_⟩
      by_cases htc : t = c
      · subst htc
        simp [Kernel.updProc]
      · simpa [Kernel.updProc, htc] using ht
    · exact ⟨k₁, rfl, ⟨rfl, rfl, rfl, rfl, fun _ => rfl⟩, rfl, rfl, rfl, rfl, fun _ ht => ht⟩
  -- somebody is picked, idle if nobody else
  let r := findNextLoop k₂.procs k₂.idle .ready nprocs (k₂.cursor % nprocs)
  obtain ⟨next, hnext⟩ : ∃ next, r.1.or k₁.idle = some next := by
    cases hr : r.1 with
    | some s => exact ⟨s, rfl⟩
    | none => exact ⟨i, hi⟩
  obtain ⟨ret, k', hrun, hu₃, hcur₃, hcursor₃, henabled₃, hcr3⟩ :=
    switch_runs (k := { k₂ with cursor := r.2 }) c next frame
    fun d hd => by
      show k₂.mach.cr3 = (k₂.procs d).pdir
      rw [hmach₂, hu₂.pdir d, hu₁.pdir d]
      exact ha.cr3 d (hcur₂.symm.trans hd)
  have hok : reschedule c frame k = .ok (ret, k') := by
    unfold reschedule
    rw [run_bind_of_ok (show setProc c _ k = .ok ((), k₁) from rfl), run_bind_of_ok (run_get k₁),
      run_bind_of_ok hblocked, run_bind_of_ok hk₂,
      run_bind_of_ok (show findNextProc .ready k₂ = .ok (r.1, { k₂ with cursor := r.2 }) from rfl),
      hnext]
    exact hrun
  have hsched := reschedule_refines hc hok
  obtain ⟨d, hy⟩ := ha.named.yields hsched
  have hidle : k'.idle = k.idle := hu₃.idle.trans (hu₂.idle.trans hu₁.idle)
  refine ⟨ret, k', hok, ⟨⟨ha.named.sched hsched, ⟨i, hidle.trans hi⟩, hcr3⟩,
    hu₃.mem.trans (hu₂.mem.trans hu₁.mem), hu₃.pm.trans (hu₂.pm.trans hu₁.pm),
    hu₃.heap.trans (hu₂.heap.trans hu₁.heap), fun t => ?_, hy.pid, hy.inited, hy.queue, hidle,
    fun t => ?_⟩, henabled₃.trans henabled₂, ⟨next, hcur₃ (hcur₂.trans hc)⟩, k₂.procs,
    fun t ht => hready₂ t (hready₁ t ht), ?_, ?_⟩
  · rw [hu₃.pdir t]
    show (k₂.procs t).pdir = _
    rw [hu₂.pdir t, hu₁.pdir t]
  · rcases hy.state_cases t with hs | ⟨-, hr, hb⟩
    · exact Or.inl hs
    · exact Or.inr ⟨hb, hr⟩
  · rw [hcur₃ (hcur₂.trans hc), ← hnext]
    show (findNextLoop k₂.procs k₂.idle .ready nprocs (k₂.cursor % nprocs)).1.or _ = _
    rw [hu₂.idle, hu₁.idle, hcursor₂]
  · rw [hcursor₃]
    show (findNextLoop k₂.procs k₂.idle .ready nprocs (k₂.cursor % nprocs)).2 = _
    rw [hu₂.idle, hu₁.idle, hcursor₂]

/-- **`proc_schedule_after_irq`** completes. -/
theorem procScheduleAfterIrq_runs (ha : Alive k) (frame : BitVec 32) :
    ∃ ret k', procScheduleAfterIrq frame k = .ok (ret, k') ∧ Paused k k' ∧
      (Running k → Running k' ∧ Picks k k') := by
  unfold procScheduleAfterIrq
  rw [run_bind_of_ok (run_get k)]
  split
  · rename_i hoff
    refine ⟨frame, k, rfl, Paused.refl ha, fun hr => ?_⟩
    rw [hr.1] at hoff
    exact absurd hoff (by decide)
  · cases hc : k.currentProc with
    | none =>
      refine ⟨frame, k, rfl, Paused.refl ha, fun hr => ?_⟩
      obtain ⟨c, hcur⟩ := hr.2
      rw [hc] at hcur
      exact absurd hcur (by simp)
    | some c =>
      obtain ⟨ret, k', hrun, hp, henabled, hcur, hpick⟩ := reschedule_runs ha hc frame
      exact ⟨ret, k', hrun, hp, fun hr => ⟨⟨henabled.trans hr.1, hcur⟩, hpick⟩⟩

/-- **The end of a system call** completes. -/
theorem callEnd_runs (ha : Alive k) (frame : BitVec 32) :
    ∃ k', (do procEnableScheduling; procScheduleWithoutIrq frame : Code Trap (Kernel Unit) Unit) k
      = .ok ((), k') ∧ Paused k k' ∧ ((∃ c, k.currentProc = some c) → Running k') := by
  have ha' : Alive { k with schedulingEnabled := true } := ⟨ha.named, ha.idle, ha.cr3⟩
  obtain ⟨ret, k', hrun, hp, hr⟩ := procScheduleAfterIrq_runs ha' frame
  refine ⟨k', ?_, ⟨hp.alive, hp.mem, hp.pm, hp.heap, hp.pdir, hp.pid, hp.inited, hp.queue, hp.idle,
    hp.state⟩, fun hc => (hr ⟨rfl, hc⟩).1⟩
  rw [run_bind_of_ok (show procEnableScheduling k = .ok ((), _) from rfl)]
  exact run_bind_of_ok hrun

/-! ### Calls around their bodies -/

/-- The start of a call: scheduling is disabled, and the running process is the caller. -/
theorem callStart_runs (hc : k.currentProc = some c) (f : Slot → Code Trap (Kernel Unit) Unit) :
    (do procDisableScheduling; let c ← currentSlot; f c : Code Trap (Kernel Unit) Unit) k
      = f c { k with schedulingEnabled := false } := by
  have hslot : currentSlot { k with schedulingEnabled := false }
      = .ok (c, { k with schedulingEnabled := false }) := by
    unfold currentSlot
    rw [run_bind_of_ok (run_get _)]
    simp only [hc]
    rfl
  rw [run_bind_of_ok (show procDisableScheduling k
    = .ok ((), { k with schedulingEnabled := false }) from rfl), run_bind_of_ok hslot]

/-- `recv` is its body and the end of a call. -/
theorem syscallRecvMsg_start (hc : k.currentProc = some c) (msg frame : BitVec 32) :
    syscallRecvMsg msg frame k = (do
      receive c msg
      procEnableScheduling
      procScheduleWithoutIrq frame) { k with schedulingEnabled := false } :=
  callStart_runs hc _

/-- A reply is its body and the end of a call. -/
theorem syscallRplyMsg_start (hc : k.currentProc = some c) (msg frame : BitVec 32) :
    syscallRplyMsg msg frame k = (do
      reply c msg
      procEnableScheduling
      procScheduleWithoutIrq frame) { k with schedulingEnabled := false } :=
  callStart_runs hc _

/-- A send is its body and the end of a call, when the packet names a process. -/
theorem syscallSendMsg_start {pid : BitVec 32} {r : Slot} (hc : k.currentProc = some c)
    (msg frame : BitVec 32) (hload : load32 (receiverField msg) k.mach = .ok (pid, k.mach))
    (hr : k.procFindByPid pid = some r) :
    syscallSendMsg msg frame k = (do
      sendTo c r msg
      procEnableScheduling
      procScheduleWithoutIrq frame) { k with schedulingEnabled := false } := by
  unfold syscallSendMsg
  rw [callStart_runs hc, run_bind_of_ok (show onMach (load32 (receiverField msg))
      { k with schedulingEnabled := false } = .ok (pid, { k with schedulingEnabled := false }) from
        zoom_ok hload), run_bind_of_ok (run_get _)]
  have hr' : ({ k with schedulingEnabled := false } : Kernel Unit).procFindByPid pid = some r := hr
  rw [hr']

/-! ### Timer interrupts -/

/-- A timer interrupt. -/
def TickStep (k : Kernel Unit) (frame : BitVec 32) (k' : Kernel Unit) : Prop :=
  (IpcOp.tick frame).exec k = .ok ((), k')

/-- From `k` timer interrupts lead to `k'`, where `c` runs. -/
def Dispatched (k : Kernel Unit) (c : Slot) (k' : Kernel Unit) : Prop :=
  ∃ frames, Run TickStep k frames k' ∧ k'.currentProc = some c

theorem Dispatched.current (h : Dispatched k c k') : k'.currentProc = some c := by
  obtain ⟨-, -, hc⟩ := h
  exact hc

theorem TickStep.paused (ha : Alive k) (h : TickStep k frame k') : Paused k k' := by
  obtain ⟨ret, k₁, hrun, hp, -⟩ := procScheduleAfterIrq_runs ha frame
  obtain ⟨_, k₂, h₁, h₂⟩ := bind_ok_iff.mp h
  obtain ⟨-, rfl⟩ := Prod.mk.inj (Except.ok.inj h₂)
  obtain ⟨-, rfl⟩ := Prod.mk.inj (Except.ok.inj (hrun.symm.trans h₁))
  exact hp

/-- **Timer interrupts** leave everything alone but who runs. -/
theorem Dispatched.paused (ha : Alive k) (h : Dispatched k c k') : Paused k k' := by
  obtain ⟨frames, hrun, -⟩ := h
  exact hrun.invariant (J := fun _ k' => Paused k k') (Paused.refl ha)
    fun _ _ _ _ hp hstep => hp.trans (TickStep.paused hp.alive hstep)

/-- Whenever `c` gets to run next, its call completes, in a state with `Q`. -/
def Completes (k : Kernel Unit) (c : Slot) (call : Code Trap (Kernel Unit) Unit)
    (Q : Kernel Unit → Prop) : Prop :=
  ∀ k₁, Dispatched k c k₁ → ∃ k₂, call k₁ = .ok ((), k₂) ∧ Q k₂

theorem Completes.mono {call : Code Trap (Kernel Unit) Unit} {P Q : Kernel Unit → Prop}
    (h : Completes k c call P) (hPQ : ∀ k₂, P k₂ → Q k₂) : Completes k c call Q := by
  intro k₁ hd
  obtain ⟨k₂, hrun, hP⟩ := h k₁ hd
  exact ⟨k₂, hrun, hPQ k₂ hP⟩

/-- A call has one outcome. -/
theorem Completes.and {call : Code Trap (Kernel Unit) Unit} {P Q : Kernel Unit → Prop}
    (hP : Completes k c call P) (hQ : Completes k c call Q) :
    Completes k c call fun k₂ => P k₂ ∧ Q k₂ := by
  intro k₁ hd
  obtain ⟨k₂, hrun, h₂⟩ := hP k₁ hd
  obtain ⟨k₂', hrun', h₂'⟩ := hQ k₁ hd
  obtain ⟨-, rfl⟩ := Prod.mk.inj (Except.ok.inj (hrun.symm.trans hrun'))
  exact ⟨k₂, hrun, h₂, h₂'⟩

/-- A call completes when its body does; what scheduling decisions keep holds at its end. -/
theorem completes_of_body {call : Code Trap (Kernel Unit) Unit} {P : Kernel Unit → Prop}
    (body : Code Trap (Kernel Unit) Unit) (frame : BitVec 32)
    (hcall : ∀ k₁, Dispatched k c k₁ → call k₁ = (do
      body
      procEnableScheduling
      procScheduleWithoutIrq frame) { k₁ with schedulingEnabled := false })
    (hbody : ∀ k₁, Dispatched k c k₁ → ∃ k₂,
      body { k₁ with schedulingEnabled := false } = .ok ((), k₂) ∧
        k₂.currentProc = k₁.currentProc ∧ Alive k₂ ∧ P k₂)
    (hP : ∀ k₂ k₃, P k₂ → Paused k₂ k₃ → P k₃) :
    Completes k c call fun k₃ => Running k₃ ∧ P k₃ := by
  intro k₁ hd
  obtain ⟨k₂, hrun, hcur, ha, h₂⟩ := hbody k₁ hd
  obtain ⟨k₃, hend, hp, hrunning⟩ := callEnd_runs ha frame
  refine ⟨k₃, ?_, hrunning ⟨c, hcur.trans hd.current⟩, hP k₂ k₃ h₂ hp⟩
  rw [hcall k₁ hd, run_bind_of_ok hrun]
  exact hend

/-! ### Nobody ready is passed over -/

/-- The scan finds the first slot at or after `i` in cyclic order that is in the state asked for
    and is not idle, and leaves the cursor behind it. -/
theorem findNextLoop_first {procs : Slot → Proc} {idle : Option Slot} {st : ProcState} {t : Slot}
    (hst : (procs t).state = st) (hidle : idle ≠ some t) {i : Nat} (hi : i < nprocs) :
    ∃ u : Slot, findNextLoop procs idle st nprocs i = (some u, u.val + 1) ∧
      ahead i u ≤ ahead i t := by
  have ht : Takeable procs idle st t := ⟨hidle, hst⟩
  obtain ⟨u, hfirst, hscan⟩ := CyclicScan.exists_first hi ht
  exact ⟨u, findNextLoop_scan.trans hscan, hfirst.2 t ht⟩

/-- The process picked is `t`, or `t` is nearer now. -/
theorem Picks.toward {t : Slot} (h : Picks k k') (ht : (k.procs t).state = .ready)
    (hidle : k.idle ≠ some t) :
    k'.currentProc = some t ∨ ahead k'.cursor t < ahead k.cursor t := by
  obtain ⟨procs, hready, hcur, hcursor⟩ := h
  have hi : k.cursor % nprocs < nprocs := Nat.mod_lt _ (by decide)
  obtain ⟨u, hrun, hu⟩ := findNextLoop_first (hready t ht) hidle hi
  rw [hrun] at hcur hcursor
  by_cases hut : u = t
  · subst hut
    exact Or.inl hcur
  · right
    have hne : u.val ≠ t.val := fun h => hut (Fin.ext h)
    have := u.isLt
    have := t.isLt
    rw [hcursor]
    simp only [ahead, nprocs] at *
    omega

/-- **A ready process gets to run**: timer interrupts lead to it, one slot after the other. -/
theorem exists_dispatched {t : Slot} (ha : Alive k) (hr : Running k)
    (ht : (k.procs t).state = .ready) (hidle : k.idle ≠ some t) : ∃ k', Dispatched k t k' := by
  induction hd : ahead k.cursor t using Nat.strong_induction_on generalizing k with
  | _ d ih =>
    obtain ⟨ret, k₁, hrun, hp, hpick⟩ := procScheduleAfterIrq_runs ha 0#32
    obtain ⟨hr₁, hpicks⟩ := hpick hr
    have hstep : TickStep k 0#32 k₁ := run_bind_of_ok hrun
    rcases hpicks.toward ht hidle with hcur | hnear
    · exact ⟨k₁, [0#32], Run.start.next hstep, hcur⟩
    · obtain ⟨k', frames, hrest, hcur⟩ := ih _ (hd ▸ hnear) hp.alive hr₁
        (hp.state_eq ht (Or.inr rfl)) (by rw [hp.idle]; exact hidle) rfl
      exact ⟨k', [0#32] ++ frames, (Run.start.next hstep).append hrest, hcur⟩

/-- The scheduler can run, somebody runs and `c` is ready: it gets its turn, unless it is the idle
    process. -/
structure Due (k : Kernel Unit) (c : Slot) : Prop where
  alive : Alive k
  running : Running k
  ready : (k.procs c).state = .ready

/-- A call that completes whenever its caller runs, and a caller that gets to run. -/
theorem Completes.reach {call : Code Trap (Kernel Unit) Unit} {Q : Kernel Unit → Prop}
    (h : Completes k c call Q) (hdue : Due k c) (hidle : k.idle ≠ some c) :
    ∃ k₁ k₂, Dispatched k c k₁ ∧ call k₁ = .ok ((), k₂) ∧ Q k₂ := by
  obtain ⟨k₁, hd⟩ := exists_dispatched hdue.alive hdue.running hdue.ready hidle
  obtain ⟨k₂, hcall, hQ⟩ := h k₁ hd
  exact ⟨k₁, k₂, hd, hcall, hQ⟩

end Dispatch

end Leoman
