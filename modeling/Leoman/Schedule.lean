import Leoman.Dispatch

namespace Leoman

open StateExcept Runs

/-!
# The scheduler over whole runs

One call of `proc_schedule_after_irq` is described in full by `Switch`: what becomes of the
interrupted process, which slot the scan finds and what is loaded for it.  The laws below are
about runs of such calls.

* `Switch`, `procScheduleAfterIrq_cases` — everything a call can do;
* `round_robin` — between two turns of one process every process that stayed ready has had its
  turn, and idle gets one only when nobody is ready.
-/

section Switch

variable {τ : Type}

/-- The process table once an interrupt has suspended `c`: its frame is saved, and unless it is
    blocked it is ready. -/
def Kernel.suspend (k : Kernel τ) (c : Slot) (frame : BitVec 32) (blocked : Bool) : Slot → Proc :=
  Function.update k.procs c
    { k.procs c with trapframe := frame, state := if blocked then (k.procs c).state else .ready }

theorem Kernel.suspend_of_ne (k : Kernel τ) {c s : Slot} (frame : BitVec 32) (blocked : Bool)
    (hs : s ≠ c) : k.suspend c frame blocked s = k.procs s :=
  Function.update_of_ne hs _ _

theorem Kernel.suspend_self (k : Kernel τ) (c : Slot) (frame : BitVec 32) (blocked : Bool) :
    k.suspend c frame blocked c = { k.procs c with
      trapframe := frame, state := if blocked then (k.procs c).state else .ready } :=
  Function.update_self _ _ _

/-- Suspending a process moves nothing of it but its frame and its state. -/
theorem Kernel.suspend_fields (k : Kernel τ) (c : Slot) (frame : BitVec 32) (blocked : Bool)
    (s : Slot) : (k.suspend c frame blocked s).pdir = (k.procs s).pdir ∧
      (k.suspend c frame blocked s).kstack = (k.procs s).kstack := by
  by_cases hs : s = c
  · subst hs
    rw [k.suspend_self]
    exact ⟨rfl, rfl⟩
  · rw [k.suspend_of_ne frame blocked hs]
    exact ⟨rfl, rfl⟩

variable [Tlb τ]

/-- What `proc_schedule_after_irq` does when it interrupts `c` and picks `next`. -/
structure Switch (k : Kernel τ) (c next : Slot) (frame ret : BitVec 32) (k' : Kernel τ) :
    Prop where
  procs : ∃ t, k.procFindByPid (k.procs c).pid = some t ∧
    k'.procs = k.suspend c frame (k.procs t).state.blocked
  scan : (findNextLoop k'.procs k.idle .ready nprocs (k.cursor % nprocs)).1.or k.idle = some next
  cursor : k'.cursor = (findNextLoop k'.procs k.idle .ready nprocs (k.cursor % nprocs)).2
  current : k'.currentProc = some next
  idle : k'.idle = k.idle
  enabled : k'.schedulingEnabled = k.schedulingEnabled
  stay : next = c → ret = frame ∧ k'.mach = k.mach ∧ k'.tssEsp0 = k.tssEsp0
  away : next ≠ c → ret = (k.procs next).trapframe ∧ k'.tssEsp0 = (k.procs next).kstack ∧
    k'.mach = { k.mach with cr3 := (k.procs next).pdir, tlb := Tlb.flush k.mach.tlb }

/-- The tail of `proc_schedule_after_irq`. -/
theorem switchTo_ok {k k' : Kernel τ} {next : Option Slot} {ret : BitVec 32}
    (h : switchTo next k = .ok (ret, k')) :
    ∃ n, next = some n ∧ ret = (k.procs n).trapframe ∧ k' = { k with
      currentProc := some n
      tssEsp0 := (k.procs n).kstack
      mach := { k.mach with cr3 := (k.procs n).pdir, tlb := Tlb.flush k.mach.tlb } } := by
  obtain ⟨_, k₁, h₁, h⟩ := bind_ok_iff.mp h
  obtain ⟨-, rfl⟩ := Prod.mk.inj (Except.ok.inj h₁)
  cases next with
  | none => exact absurd h (by simp)
  | some n =>
    obtain ⟨rfl, rfl⟩ := Prod.mk.inj (Except.ok.inj h)
    exact ⟨n, rfl, rfl, rfl⟩

/-- **`proc_schedule_after_irq`** with scheduling enabled. -/
theorem reschedule_switch {k k' : Kernel τ} {c : Slot} {frame ret : BitVec 32}
    (hc : k.currentProc = some c) (h : reschedule c frame k = .ok (ret, k')) :
    ∃ next, Switch k c next frame ret k' := by
  obtain ⟨_, k₁, h₁, h⟩ := bind_ok_iff.mp h
  obtain ⟨-, rfl⟩ := Prod.mk.inj (Except.ok.inj h₁)
  rw [run_bind_of_ok (run_get _)] at h
  obtain ⟨blocked, k₂, h₂, h⟩ := bind_ok_iff.mp h
  obtain ⟨_, k₃, h₃, h⟩ := bind_ok_iff.mp h
  obtain ⟨found, k₄, h₄, h⟩ := bind_ok_iff.mp h
  -- saving the frame moves no pid, so the lookup is the one in `k`
  have hfind : ∀ pid, (k.updProc c fun p => { p with trapframe := frame }).procFindByPid pid
      = k.procFindByPid pid := by
    intro pid
    show Board.find (k.updProc c _).board pid = k.board.find pid
    rw [board_updProc_keep rfl rfl rfl rfl]
  obtain ⟨t, ht, rfl, hbl⟩ : ∃ t, k.procFindByPid (k.procs c).pid = some t ∧
      k₂ = k.updProc c (fun p => { p with trapframe := frame }) ∧
      blocked = (k.procs t).state.blocked := by
    unfold procIsBlocked at h₂
    rw [run_bind_of_ok (run_get _), hfind] at h₂
    have hpid : ((k.updProc c fun p => { p with trapframe := frame }).procs c).pid
        = (k.procs c).pid := by
      simp [Kernel.updProc]
    rw [hpid] at h₂
    cases hf : k.procFindByPid (k.procs c).pid with
    | none =>
      simp only [hf] at h₂
      exact absurd h₂ (by simp)
    | some t =>
      simp only [hf] at h₂
      obtain ⟨rfl, rfl⟩ := Prod.mk.inj (Except.ok.inj h₂)
      refine ⟨t, rfl, rfl, ?_⟩
      by_cases htc : t = c
      · subst htc
        simp [Kernel.updProc]
      · simp [Kernel.updProc, htc]
  have hprocs : k₃ = { k with procs := k.suspend c frame (k.procs t).state.blocked } := by
    rcases onlyIf_ok h₃ with ⟨hno, h₃⟩ | ⟨hyes, rfl⟩
    · obtain ⟨-, rfl⟩ := Prod.mk.inj (Except.ok.inj h₃)
      rw [hbl] at hno
      simp [Kernel.updProc, Kernel.suspend, hno]
    · rw [hbl, Bool.not_eq_false] at hyes
      simp [Kernel.updProc, Kernel.suspend, hyes]
  subst hprocs
  unfold findNextProc at h₄
  obtain ⟨hfound, rfl⟩ := Prod.mk.inj (Except.ok.inj h₄)
  split at h
  · rename_i hsame
    obtain ⟨rfl, rfl⟩ := Prod.mk.inj (Except.ok.inj h)
    refine ⟨c, ⟨t, ht, rfl⟩, ?_, rfl, hc, rfl, rfl, fun _ => ⟨rfl, rfl, rfl⟩,
      fun hne => absurd rfl hne⟩
    rw [← hfound] at hsame
    exact hsame
  · rename_i hne
    obtain ⟨n, hnext, rfl, rfl⟩ := switchTo_ok h
    have hnc : n ≠ c := by
      rintro rfl
      exact hne hnext
    rw [← hfound] at hnext
    refine ⟨n, ⟨t, ht, rfl⟩, hnext, rfl, rfl, rfl, rfl, fun h => absurd h hnc, fun _ => ?_⟩
    rw [show (({ k with procs := k.suspend c frame (k.procs t).state.blocked } : Kernel τ).procs n)
      = k.procs n from k.suspend_of_ne frame _ hnc]
    exact ⟨rfl, rfl, rfl⟩

/-- **Everything `proc_schedule_after_irq` can do.** -/
theorem procScheduleAfterIrq_cases {k k' : Kernel τ} {frame ret : BitVec 32}
    (h : procScheduleAfterIrq frame k = .ok (ret, k')) :
    (k.schedulingEnabled = false ∨ k.currentProc = none) ∧ ret = frame ∧ k' = k ∨
      k.schedulingEnabled = true ∧ ∃ c next, k.currentProc = some c ∧
        Switch k c next frame ret k' := by
  unfold procScheduleAfterIrq at h
  rw [run_bind_of_ok (run_get k)] at h
  split at h
  · rename_i hoff
    obtain ⟨rfl, rfl⟩ := Prod.mk.inj (Except.ok.inj h)
    exact Or.inl ⟨Or.inl hoff, rfl, rfl⟩
  · rename_i hon
    cases hc : k.currentProc with
    | none =>
      simp only [hc] at h
      obtain ⟨rfl, rfl⟩ := Prod.mk.inj (Except.ok.inj h)
      exact Or.inl ⟨Or.inr rfl, rfl, rfl⟩
    | some c =>
      simp only [hc] at h
      obtain ⟨next, hsw⟩ := reschedule_switch hc h
      exact Or.inr ⟨by simpa using hon, c, next, rfl, hsw⟩

end Switch

/-! ### The order of turns -/

/-- Behind the slot `u` everything that was ahead of it is nearer by the same amount. -/
theorem ahead_past {i : Nat} {u x : Slot} (h : ahead i u < ahead i x) :
    ahead (u.val + 1) x + ahead i u + 1 = ahead i x := by
  have hu := u.isLt
  have hx := x.isLt
  simp only [ahead, nprocs] at *
  omega

/-- Right behind its own slot a process is the last in cyclic order. -/
theorem ahead_self (t s : Slot) (hs : s ≠ t) : ahead (t.val + 1) s < ahead (t.val + 1) t := by
  have ht := t.isLt
  have hs' := s.isLt
  have hne : s.val ≠ t.val := fun h => hs (Fin.ext h)
  simp only [ahead, nprocs] at *
  omega

/-- The distance is to the cursor modulo `NPROCS`. -/
theorem ahead_mod (i : Nat) (t : Slot) : ahead (i % nprocs) t = ahead i t := by
  simp only [ahead, nprocs, Nat.mod_mod]

/-! ### Runs of calls -/

section RoundRobin

variable {τ : Type} [Tlb τ]

/-- A call of `proc_schedule_after_irq`: the frame it is given, the kernel it finds and the one it
    leaves. -/
structure SchedCall (τ : Type) where
  frame : BitVec 32
  before : Kernel τ
  after : Kernel τ

/-- What happens between two calls: anything, but `proc_new` is not called, nobody else scans,
    and nobody but the scheduler says who runs. -/
structure Between (k k' : Kernel τ) : Prop where
  cursor : k'.cursor = k.cursor
  idle : k'.idle = k.idle
  current : k'.currentProc = k.currentProc

/-- One call with scheduling enabled, after whatever happened since the last one. -/
def CallStep (k : Kernel τ) (call : SchedCall τ) (k' : Kernel τ) : Prop :=
  Between k call.before ∧ call.before.schedulingEnabled = true ∧ k' = call.after ∧
    ∃ ret, procScheduleAfterIrq call.frame call.before = .ok (ret, call.after)

/-- The call selects `s` to run next. -/
def SchedCall.Selects (call : SchedCall τ) (s : Slot) : Prop := call.after.currentProc = some s

/-- The slot `s` is ready when the call scans.  No state changes after the scan. -/
def SchedCall.Ready (call : SchedCall τ) (s : Slot) : Prop := (call.after.procs s).state = .ready

variable {k₀ k k' : Kernel τ} {call call' : SchedCall τ} {calls : List (SchedCall τ)} {s t : Slot}

/-- There is a process to interrupt at every call. -/
theorem CallStep.switch (hc : ∃ c, k.currentProc = some c) (h : CallStep k call k') :
    ∃ c next ret, call.before.currentProc = some c ∧
      Switch call.before c next call.frame ret call.after := by
  obtain ⟨hbt, hon, rfl, ret, hrun⟩ := h
  obtain ⟨c, hc⟩ := hc
  rw [← hbt.current] at hc
  rcases procScheduleAfterIrq_cases hrun with ⟨hoff | hnone, -, -⟩ | ⟨-, c', next, hc', hsw⟩
  · exact absurd (hon.symm.trans hoff) (by decide)
  · exact absurd (hnone.symm.trans hc) (by simp)
  · exact ⟨c', next, ret, hc', hsw⟩

/-- What a run of calls keeps: there is a running process, and idle is who it was. -/
def Turning (k₀ k : Kernel τ) : Prop := (∃ c, k.currentProc = some c) ∧ k.idle = k₀.idle

theorem CallStep.turning (hk : Turning k₀ k) (h : CallStep k call k') : Turning k₀ k' := by
  obtain ⟨c, next, ret, -, hsw⟩ := h.switch hk.1
  obtain ⟨hbt, -, rfl, -⟩ := h
  exact ⟨⟨next, hsw.current⟩, hsw.idle.trans (hbt.idle.trans hk.2)⟩

/-- The call at a place of the run. -/
theorem call_at {n : Nat} (hc : ∃ c, k₀.currentProc = some c) (hrun : Run CallStep k₀ calls k)
    (he : calls[n]? = some call) : ∃ m, Turning k₀ m ∧ CallStep m call call.after := by
  obtain ⟨m, m', hpre, hstep⟩ := hrun.step_at he
  obtain rfl : m' = call.after := hstep.2.2.1
  exact ⟨m, hpre.invariant (J := fun _ k => Turning k₀ k) ⟨hc, rfl⟩
    fun _ _ _ _ hk hs => hs.turning hk, hstep⟩

/-- **A turn.**  With `s` ready, the slot selected is `s`, or one before it in cyclic order; then
    the cursor has moved up to it, and no further. -/
theorem CallStep.turn (hk : Turning k₀ k) (h : CallStep k call k') (hs : call.Ready s)
    (hidle : k₀.idle ≠ some s) : ∃ u, call.Selects u ∧ call.after.cursor = u.val + 1 ∧
      ahead k.cursor u ≤ ahead k.cursor s := by
  obtain ⟨c, next, ret, -, hsw⟩ := h.switch hk.1
  obtain ⟨hbt, -, rfl, -⟩ := h
  have hidle' : call.before.idle ≠ some s := by
    rw [hbt.idle, hk.2]
    exact hidle
  have hi : call.before.cursor % nprocs < nprocs := Nat.mod_lt _ (by decide)
  obtain ⟨u, hscan, hu⟩ := findNextLoop_first hs hidle' hi
  have hnext := hsw.scan
  have hcursor := hsw.cursor
  rw [hscan] at hnext hcursor
  obtain rfl : u = next := Option.some.inj hnext
  rw [ahead_mod, ahead_mod, hbt.cursor] at hu
  exact ⟨u, hsw.current, hcursor, hu⟩

/-- Idle is selected when the scan finds nobody. -/
theorem CallStep.idle_only {i : Slot} (hk : Turning k₀ k) (h : CallStep k call k')
    (hi : k₀.idle = some i) (hsel : call.Selects i) (hs : k₀.idle ≠ some s) : ¬ call.Ready s := by
  intro hready
  obtain ⟨c, next, ret, -, hsw⟩ := h.switch hk.1
  obtain ⟨hbt, -, rfl, -⟩ := h
  have hidle : call.before.idle = k₀.idle := hbt.idle.trans hk.2
  obtain rfl : next = i := Option.some.inj (hsw.current.symm.trans hsel)
  cases hf : findNextLoop call.after.procs call.before.idle .ready nprocs
      (call.before.cursor % nprocs) with
  | mk found j =>
    cases found with
    | none =>
      refine findNextLoop_none_all hf s ?_ hready
      rw [hidle]
      exact hs
    | some u =>
      -- a slot the scan finds is not idle
      have hscan := hsw.scan
      rw [hf] at hscan
      obtain rfl : u = next := Option.some.inj hscan
      exact (findNextLoop_some hf).1 (hidle.trans hi)

/-- Whoever is selected is ready, or idle. -/
theorem CallStep.ready_of_selects (hk : Turning k₀ k) (h : CallStep k call k')
    (ht : k₀.idle ≠ some t) (hsel : call.Selects t) : call.Ready t := by
  obtain ⟨c, next, ret, -, hsw⟩ := h.switch hk.1
  obtain ⟨hbt, -, rfl, -⟩ := h
  have hidle : call.before.idle = k₀.idle := hbt.idle.trans hk.2
  obtain rfl : next = t := Option.some.inj (hsw.current.symm.trans hsel)
  have hscan := hsw.scan
  cases hf : findNextLoop call.after.procs call.before.idle .ready nprocs
      (call.before.cursor % nprocs) with
  | mk found j =>
    rw [hf] at hscan
    cases found with
    | none => exact absurd (hidle.symm.trans hscan) ht
    | some u =>
      obtain rfl : u = next := Option.some.inj hscan
      exact (findNextLoop_some hf).2

/-- **Waiting for one's turn.**  Once `t` has had its turn, the cursor reaches `s` before it
    reaches `t` again, for as long as `s` stays ready and is not selected. -/
theorem ahead_of_turn {a : Nat} (hc : ∃ c, k₀.currentProc = some c)
    (hrun : Run CallStep k₀ calls k) (hst : s ≠ t) (hs : k₀.idle ≠ some s)
    (ht : k₀.idle ≠ some t) (ha : calls[a]? = some call) (hsel : call.Selects t) :
    ∀ d (call' : SchedCall τ), calls[a + d]? = some call' →
      (∀ m c, a < m → m ≤ a + d → calls[m]? = some c → c.Ready s ∧ ¬ c.Selects s) →
      ahead call'.after.cursor s < ahead call'.after.cursor t := by
  intro d
  induction d with
  | zero =>
    intro call' hcall' _
    obtain rfl : call = call' := Option.some.inj (ha.symm.trans hcall')
    obtain ⟨m, hm, hstep⟩ := call_at hc hrun ha
    obtain ⟨u, hu, hcursor, -⟩ := hstep.turn hm (hstep.ready_of_selects hm ht hsel) ht
    obtain rfl : u = t := Option.some.inj (hu.symm.trans hsel)
    rw [hcursor]
    exact ahead_self u s hst
  | succ d ih =>
    intro call' hcall' hwait
    have hlt : a + d < calls.length := by
      have := (List.getElem?_eq_some_iff.mp hcall').1
      omega
    obtain ⟨prev, hprev⟩ : ∃ prev, calls[a + d]? = some prev :=
      ⟨_, List.getElem?_eq_getElem hlt⟩
    have hlast := ih prev hprev fun m c h₁ h₂ => hwait m c h₁ (by omega)
    obtain ⟨hready', hno⟩ := hwait (a + d + 1) call' (by omega) (by omega) hcall'
    -- the scan starts at the cursor the call before left
    obtain ⟨m₁, m₂, m₃, hs₁, hs₂⟩ := hrun.steps_at hprev hcall'
    obtain rfl : m₂ = prev.after := hs₁.2.2.1
    obtain ⟨m, hm, hstep⟩ := call_at hc hrun hcall'
    have hbt : m.cursor = prev.after.cursor := hstep.1.cursor.symm.trans hs₂.1.cursor
    obtain ⟨u, hu, hcursor, hle⟩ := hstep.turn hm hready' hs
    rw [hbt] at hle
    have hne : ahead prev.after.cursor u ≠ ahead prev.after.cursor s := by
      intro heq
      have hus : u = s := by
        have h1 := u.isLt
        have h2 := s.isLt
        simp only [ahead, nprocs] at *
        exact Fin.ext (by omega)
      exact hno (hus ▸ hu)
    have hs' := ahead_past (lt_of_le_of_ne hle hne)
    have ht' := ahead_past (lt_of_le_of_lt hle hlast)
    rw [hcursor]
    omega

/-- **Round robin.**  Take any run of calls after boot, with anything happening to the states of
    the processes in between.  If `s` is ready at every call after one that selects `t` and up to
    the next one that does, then `s` is selected strictly in between; and idle is selected only
    when no other slot is ready. -/
theorem round_robin {n : Nat} (hb : Booted n k₀) (hrun : Run CallStep k₀ calls k) :
    (∀ (a b : Nat) (s t : Slot) (ca cb : SchedCall τ), a < b → calls[a]? = some ca →
      calls[b]? = some cb → s ≠ t →
      k₀.idle ≠ some s → k₀.idle ≠ some t → ca.Selects t → cb.Selects t →
      (∀ (m : Nat) (c : SchedCall τ), a < m → m ≤ b → calls[m]? = some c → c.Ready s) →
      ∃ (m : Nat) (c : SchedCall τ), a < m ∧ m < b ∧ calls[m]? = some c ∧ c.Selects s) ∧
    ∀ c ∈ calls, ∀ i s : Slot, k₀.idle = some i → c.Selects i → s ≠ i → ¬ c.Ready s := by
  obtain ⟨c₀, -, hc₀⟩ := hb.current
  have hc : ∃ c, k₀.currentProc = some c := ⟨c₀, hc₀⟩
  constructor
  · intro a b s t ca cb hab ha hbb hst hs ht hsela hselb hready
    by_contra hnone
    -- the call before `b` leaves `s` nearer than `t`
    obtain ⟨prev, hprev⟩ : ∃ prev, calls[b - 1]? = some prev := by
      have := (List.getElem?_eq_some_iff.mp hbb).1
      exact ⟨_, List.getElem?_eq_getElem (show b - 1 < calls.length by omega)⟩
    have hnear : ahead prev.after.cursor s < ahead prev.after.cursor t := by
      refine ahead_of_turn hc hrun hst hs ht ha hsela (b - 1 - a) prev
        (by rw [show a + (b - 1 - a) = b - 1 by omega]; exact hprev) fun m c h₁ h₂ hm => ?_
      exact ⟨hready m c h₁ (by omega) hm, fun hsel => hnone ⟨m, c, h₁, by omega, hm, hsel⟩⟩
    -- but `b` selects `t`
    have hbb' : calls[b - 1 + 1]? = some cb := by
      rw [show b - 1 + 1 = b by omega]
      exact hbb
    obtain ⟨m₁, m₂, m₃, hs₁, hs₂⟩ := hrun.steps_at hprev hbb'
    obtain rfl : m₂ = prev.after := hs₁.2.2.1
    obtain ⟨m, hm, hstep⟩ := call_at hc hrun hbb
    have hbt : m.cursor = prev.after.cursor := hstep.1.cursor.symm.trans hs₂.1.cursor
    obtain ⟨u, hu, -, hle⟩ := hstep.turn hm (hready b cb hab le_rfl hbb) hs
    obtain rfl : u = t := Option.some.inj (hu.symm.trans hselb)
    rw [hbt] at hle
    omega
  · intro c hmem i s hi hsel hsi
    obtain ⟨m, hm⟩ := List.getElem?_of_mem hmem
    obtain ⟨m', hm', hstep⟩ := call_at hc hrun hm
    refine hstep.idle_only hm' hi hsel fun hs => hsi ?_
    exact Option.some.inj (hs.symm.trans hi)

end RoundRobin

/-- Four timer interrupts in the small system: process 0 runs, and runs again, with process 2 in
    between. -/
theorem round_robin_demo :
    ∃ (calls : List (SchedCall Unit)) (k : Kernel Unit) (c₀ c₃ : SchedCall Unit),
    Run CallStep demoKernel calls k ∧ calls.length = 4 ∧ calls[0]? = some c₀ ∧
      calls[3]? = some c₃ ∧ c₀.Selects 0 ∧ c₃.Selects 0 ∧
      ∃ (m : Nat) (c : SchedCall Unit), 0 < m ∧ m < 3 ∧ calls[m]? = some c ∧ c.Selects 2 := by
  -- the four calls as one piece of code, which returns the kernels in between
  have htest : ((procScheduleAfterIrq 0#32 >>= fun _ => get >>= fun k₁ =>
      procScheduleAfterIrq 0#32 >>= fun _ => get >>= fun k₂ =>
      procScheduleAfterIrq 0#32 >>= fun _ => get >>= fun k₃ =>
      procScheduleAfterIrq 0#32 >>= fun _ =>
        (pure (k₁, k₂, k₃) : Code Trap (Kernel Unit) _)) demoKernel).toOption.map (fun r =>
          r.1.1.schedulingEnabled && r.1.2.1.schedulingEnabled && r.1.2.2.schedulingEnabled &&
          decide (r.1.1.currentProc = some 0) && decide (r.2.currentProc = some 0) &&
          decide ((r.1.2.1.procs 2).state = .ready) && decide ((r.1.2.2.procs 2).state = .ready) &&
          decide ((r.2.procs 2).state = .ready)) = some true := by
    decide +kernel
  obtain ⟨⟨k₁, k₂, k₃⟩, k, h, htests⟩ := ok_of_test htest
  simp only [Bool.and_eq_true, decide_eq_true_eq] at htests
  obtain ⟨⟨⟨⟨⟨⟨⟨hon₁, hon₂⟩, hon₃⟩, hsel₁⟩, hsel₄⟩, hr₂⟩, hr₃⟩, hr₄⟩ := htests
  obtain ⟨ret₁, _, h₁, h⟩ := bind_ok_iff.mp h
  obtain ⟨_, _, hget₁, h⟩ := bind_ok_iff.mp h
  obtain ⟨rfl, rfl⟩ := Prod.mk.inj (Except.ok.inj hget₁)
  obtain ⟨ret₂, _, h₂, h⟩ := bind_ok_iff.mp h
  obtain ⟨_, _, hget₂, h⟩ := bind_ok_iff.mp h
  obtain ⟨rfl, rfl⟩ := Prod.mk.inj (Except.ok.inj hget₂)
  obtain ⟨ret₃, _, h₃, h⟩ := bind_ok_iff.mp h
  obtain ⟨_, _, hget₃, h⟩ := bind_ok_iff.mp h
  obtain ⟨rfl, rfl⟩ := Prod.mk.inj (Except.ok.inj hget₃)
  obtain ⟨ret₄, _, h₄, h⟩ := bind_ok_iff.mp h
  obtain ⟨heq, rfl⟩ := Prod.mk.inj (Except.ok.inj h)
  obtain ⟨rfl, heq'⟩ := Prod.mk.inj heq
  obtain ⟨rfl, rfl⟩ := Prod.mk.inj heq'
  have hstart : Run CallStep demoKernel [] demoKernel := Run.start
  have hrun := (((hstart.next (e := ⟨0#32, demoKernel, _⟩)
      ⟨⟨rfl, rfl, rfl⟩, rfl, rfl, ret₁, h₁⟩).next (e := ⟨0#32, _, _⟩)
      ⟨⟨rfl, rfl, rfl⟩, hon₁, rfl, ret₂, h₂⟩).next (e := ⟨0#32, _, _⟩)
      ⟨⟨rfl, rfl, rfl⟩, hon₂, rfl, ret₃, h₃⟩).next (e := ⟨0#32, _, _⟩)
      ⟨⟨rfl, rfl, rfl⟩, hon₃, rfl, ret₄, h₄⟩
  refine ⟨_, _, _, _, hrun, rfl, rfl, rfl, hsel₁, hsel₄,
    (round_robin booted_demoKernel hrun).1 0 3 2 0 _ _ (by decide) rfl rfl (by decide) (by decide)
      (by decide) hsel₁ hsel₄ fun m c h₀ hle hm => ?_⟩
  have hcases : m = 1 ∨ m = 2 ∨ m = 3 := by omega
  rcases hcases with rfl | rfl | rfl
  · obtain rfl := Option.some.inj hm
    exact hr₂
  · obtain rfl := Option.some.inj hm
    exact hr₃
  · obtain rfl := Option.some.inj hm
    exact hr₄

end Leoman
