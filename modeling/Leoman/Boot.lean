import Leoman.Refine

namespace Leoman

open ByteMem StateExcept

/-!
# The process table after boot

`kmain` creates the kernel process, idle and the processes of the initrd one after the other
and kicks off the last one.

* `Booted n k` — `n` processes: slots `0 … n-1` are taken in order, slot and pid agree, slot 1
  is idle and the last one created is running;
* `procNew_ok`, `procKickoffFirstProcess_ok` — what these functions do, `procNew_all_ok` — and what
  several calls of `proc_new` keep;
* `bootProcs_booted` — the code leaves that, whatever the machine and the heap are.
-/

section Boot

variable {τ : Type}

/-- The table after boot with `n` processes. -/
structure Booted (n : Nat) (k : Kernel τ) : Prop where
  two_le : 2 ≤ n
  le : n ≤ nprocs
  idle : k.idle = some 1
  current : ∃ c : Slot, c.val + 1 = n ∧ k.currentProc = some c
  created : ∀ s : Slot, s.val < n → k.board.pid s = BitVec.ofNat 32 s.val ∧
    k.board.inited s = true ∧ k.board.queue s = [] ∧
    k.board.state s = if s.val + 1 = n then .running else .ready
  unused : ∀ s : Slot, n ≤ s.val → k.board.pid s = 0xffffffff#32 ∧
    k.board.inited s = false ∧ k.board.queue s = [] ∧ k.board.state s = .unused
  hist : k.hist = []

/-- The table while processes are created: the first `n` slots are taken. -/
structure Creating (n : Nat) (k : Kernel τ) : Prop where
  le : n ≤ nprocs
  cursor : k.cursor = n
  nextPid : k.nextPid = BitVec.ofNat 32 n
  idle : ∀ i : Slot, k.idle = some i → i.val < n
  created : ∀ s : Slot, s.val < n → k.board.pid s = BitVec.ofNat 32 s.val ∧
    k.board.inited s = true ∧ k.board.queue s = [] ∧ k.board.state s = .ready
  unused : ∀ s : Slot, n ≤ s.val → k.board.pid s = 0xffffffff#32 ∧
    k.board.inited s = false ∧ k.board.queue s = [] ∧ k.board.state s = .unused
  hist : k.hist = []

/-- With a slot left `find_next_proc(PROC_UNUSED)` finds the one at the cursor. -/
theorem Creating.find_runs {n : Nat} {k : Kernel τ} (hk : Creating n k) (hlt : n < nprocs) :
    findNextProc .unused k = .ok (some ⟨n, hlt⟩, { k with cursor := n + 1 }) := by
  have ht : Fin.ofNat nprocs (n % nprocs) = ⟨n, hlt⟩ := by
    apply Fin.ext
    show n % nprocs % nprocs = n
    rw [Nat.mod_mod, Nat.mod_eq_of_lt hlt]
  have hidle : k.idle ≠ some ⟨n, hlt⟩ := fun hi => absurd (hk.idle _ hi) (by simp)
  have hunused : (k.procs ⟨n, hlt⟩).state = .unused := (hk.unused ⟨n, hlt⟩ (Nat.le_refl _)).2.2.2
  have hstep : findNextLoop k.procs k.idle .unused nprocs (n % nprocs)
      = (some ⟨n, hlt⟩, n + 1) := by
    show findNextLoop k.procs k.idle .unused (63 + 1) (n % nprocs) = _
    unfold findNextLoop
    simp only [ht]
    rw [if_neg hidle, if_pos hunused, Nat.mod_eq_of_lt hlt]
  simp only [findNextProc, hk.cursor, hstep]

/-- The slot `find_next_proc(PROC_UNUSED)` finds is the one at the cursor. -/
theorem Creating.find {n : Nat} {k k' : Kernel τ} (hk : Creating n k) {found : Option Slot}
    (h : findNextProc .unused k = .ok (found, k')) :
    (∀ s, found = some s → s.val = n ∧ k' = { k with cursor := n + 1 }) := by
  rintro s rfl
  have hlt : n < nprocs := by
    by_contra hge
    -- with every slot taken nothing would have been found
    obtain ⟨hs, -⟩ := Prod.mk.inj (Except.ok.inj h)
    obtain ⟨-, hstate⟩ := findNextLoop_some (Prod.ext hs rfl)
    have hready : (k.procs s).state = .ready :=
      (hk.created s (by have := s.isLt; omega)).2.2.2
    rw [hstate] at hready
    exact absurd hready (by decide)
  rw [hk.find_runs hlt] at h
  obtain ⟨hs, rfl⟩ := Prod.mk.inj (Except.ok.inj h)
  exact ⟨congrArg Fin.val (Option.some.inj hs).symm, rfl⟩

/-- The table when `proc_earlyinit` has marked every slot unused. -/
def Kernel.cleared (mach : Machine τ) (heap : Heap) : Kernel τ :=
  { Kernel.initial mach heap with
    procs := fun s => { (Kernel.initial mach heap).procs s with
      pid := 0xffffffff#32, state := .unused } }

/-- No slot of it is taken. -/
theorem cleared_creating (mach : Machine τ) (heap : Heap) :
    Creating 0 (Kernel.cleared mach heap) := by
  refine ⟨by decide, rfl, rfl, ?_, ?_, ?_, rfl⟩
  · intro i hi
    exact absurd hi (by simp [Kernel.cleared, Kernel.initial])
  · intro s hs
    omega
  · intro s _
    exact ⟨rfl, rfl, rfl, rfl⟩

/-- The current process has no part in which slots are taken. -/
theorem Creating.setCurrent {n : Nat} {k : Kernel τ} (hk : Creating n k) (c : Option Slot) :
    Creating n { k with currentProc := c } :=
  ⟨hk.le, hk.cursor, hk.nextPid, hk.idle, hk.created, hk.unused, hk.hist⟩

variable [Tlb τ]

/-- **What `proc_new` does**, call by call: it finds an unused slot, takes a frame for the kernel
    stack and maps it, makes the address space and pushes the frame; then the slot is filled in and
    is the current process. -/
theorem procNew_ok {k k' : Kernel τ} {procLoad : BitVec 32} {name : Vector (BitVec 8) 32}
    {privileged : Bool} {s : Slot} (h : procNew procLoad name privileged k = .ok (s, k')) :
    ∃ k₁ stack m₁ m₂ pdir m₃ trapframe mach, findNextProc .unused k = .ok (some s, k₁) ∧
      pmAllocPage k₁.mach = .ok (stack, m₁) ∧ mapPage stack stack pteW m₁ = .ok ((), m₂) ∧
      vmCopyKernelPdir m₂ = .ok (pdir, m₃) ∧
      pushWords (initialFrame procLoad (stack + pageSize)) (stack + pageSize) m₃
        = .ok (trapframe, mach) ∧
      k' = { k₁ with
        mach := mach
        procs := Function.update k₁.procs s {
          pid := k₁.nextPid, state := .ready, name, privileged, trapframe
          kstack := stack + pageSize, pdir, recvQueue := ⟨true, [], []⟩ }
        nextPid := k₁.nextPid + 1#32
        currentProc := some s } := by
  obtain ⟨found, k₁, h₁, h⟩ := bind_ok_iff.mp h
  obtain ⟨stack, k₂, h₂, h⟩ := bind_ok_iff.mp h
  obtain ⟨_, k₃, h₃, h⟩ := bind_ok_iff.mp h
  obtain ⟨m₁, halloc, rfl⟩ := onMach_ok_iff.mp h₂
  obtain ⟨m₂, hmap, rfl⟩ := onMach_ok_iff.mp h₃
  cases found with
  | none => exact absurd h (by simp)
  | some t =>
    simp only at h
    rw [run_bind_of_ok (run_get _)] at h
    obtain ⟨_, k₄, h₄, h⟩ := bind_ok_iff.mp h
    obtain ⟨_, k₅, h₅, h⟩ := bind_ok_iff.mp h
    obtain ⟨pdir, k₆, h₆, h⟩ := bind_ok_iff.mp h
    obtain ⟨_, k₇, h₇, h⟩ := bind_ok_iff.mp h
    obtain ⟨trapframe, k₈, h₈, h⟩ := bind_ok_iff.mp h
    obtain ⟨_, k₉, h₉, h⟩ := bind_ok_iff.mp h
    obtain ⟨_, k₁₀, h₁₀, h⟩ := bind_ok_iff.mp h
    obtain ⟨-, rfl⟩ := Prod.mk.inj (Except.ok.inj h₄)
    obtain ⟨-, rfl⟩ := Prod.mk.inj (Except.ok.inj h₅)
    obtain ⟨m₃, hcopy, rfl⟩ := onMach_ok_iff.mp h₆
    obtain ⟨-, rfl⟩ := Prod.mk.inj (Except.ok.inj h₇)
    obtain ⟨mach, hpush, rfl⟩ := onMach_ok_iff.mp h₈
    obtain ⟨-, rfl⟩ := Prod.mk.inj (Except.ok.inj h₉)
    obtain ⟨-, rfl⟩ := Prod.mk.inj (Except.ok.inj h₁₀)
    obtain ⟨rfl, rfl⟩ := Prod.mk.inj (Except.ok.inj h)
    refine ⟨k₁, stack, m₁, m₂, pdir, m₃, trapframe, mach, h₁, halloc, hmap, hcopy, hpush, ?_⟩
    simp [Kernel.updProc]

/-- **Several processes.**  What every `proc_new` takes one further, all of them take to the end. -/
theorem procNew_all_ok {J : Nat → Kernel τ → Prop} {k k' : Kernel τ} {procLoad : BitVec 32}
    {names : List (Vector (BitVec 8) 32)} (h₀ : J 0 k)
    (hstep : ∀ i < names.length, ∀ k k' name s, J i k →
      procNew procLoad name false k = .ok (s, k') → J (i + 1) k')
    (h : (names.forM fun name => do
      let _ ← procNew procLoad name false : Code Trap (Kernel τ) Unit) k = .ok ((), k')) :
    J names.length k' := by
  induction names generalizing J k with
  | nil =>
    obtain ⟨-, rfl⟩ := Prod.mk.inj (Except.ok.inj h)
    exact h₀
  | cons name names ih =>
    obtain ⟨_, k₁, h₁, h₂⟩ := bind_ok_iff.mp h
    obtain ⟨s, k₂, h₃, h₄⟩ := bind_ok_iff.mp h₁
    obtain ⟨-, rfl⟩ := Prod.mk.inj (Except.ok.inj h₄)
    have hone : J 1 k₂ := hstep 0 (Nat.succ_pos _) k k₂ name s h₀ h₃
    exact ih (J := fun i => J (i + 1)) hone
      (fun i hi => hstep (i + 1) (Nat.succ_lt_succ hi)) h₂

/-- **What `proc_kickoff_first_process` does**: it marks the current process, and loads its stack
    and its space. -/
theorem procKickoffFirstProcess_ok {k k' : Kernel τ}
    (h : procKickoffFirstProcess k = .ok ((), k')) :
    ∃ c, k.currentProc = some c ∧ k' = { k.updProc c (fun p => { p with state := .running }) with
      mach := { k.mach with cr3 := (k.procs c).pdir, tlb := Tlb.flush k.mach.tlb }
      schedulingEnabled := true
      tssEsp0 := (k.procs c).kstack } := by
  unfold procKickoffFirstProcess at h
  rw [run_bind_of_ok (run_get k)] at h
  cases hc : k.currentProc with
  | none =>
    simp only [hc] at h
    exact absurd h (by simp)
  | some c =>
    simp only [hc] at h
    obtain ⟨-, rfl⟩ := Prod.mk.inj (Except.ok.inj h)
    exact ⟨c, rfl, by simp [Kernel.updProc]⟩

/-- `proc_new` takes the next slot. -/
theorem Creating.procNew {n : Nat} {k k' : Kernel τ} (hk : Creating n k)
    {procLoad : BitVec 32} {name : Vector (BitVec 8) 32} {privileged : Bool} {s : Slot}
    (h : procNew procLoad name privileged k = .ok (s, k')) :
    s.val = n ∧ Creating (n + 1) k' ∧ k'.idle = k.idle ∧ k'.currentProc = some s := by
  obtain ⟨k₁, stack, _, _, pdir, _, trapframe, mach, hfind, -, -, -, -, rfl⟩ := procNew_ok h
  obtain ⟨hs, rfl⟩ := hk.find hfind s rfl
  refine ⟨hs, ?_, rfl, rfl⟩
  have hlt : n < nprocs := hs ▸ s.isLt
  refine ⟨hlt, rfl, ?_, ?_, ?_, ?_, hk.hist⟩
  · show k.nextPid + 1#32 = _
    rw [hk.nextPid, BitVec.ofNat_add_ofNat]
  · intro i hi
    have := hk.idle i hi
    omega
  · intro u hu
    by_cases hus : u = s
    · subst hus
      simp [Kernel.board, hk.nextPid, hs]
    · have hne : u.val ≠ n := fun h => hus (Fin.ext (h.trans hs.symm))
      have := hk.created u (by omega)
      simpa [Kernel.board, hus] using this
  · intro u hu
    have hus : u ≠ s := by
      rintro rfl
      omega
    have := hk.unused u (by omega)
    simpa [Kernel.board, hus] using this

/-- A list of `proc_new` calls takes that many slots. -/
theorem Creating.procNew_all {n : Nat} {k k' : Kernel τ} (hk : Creating n k)
    {procLoad : BitVec 32} {names : List (Vector (BitVec 8) 32)} {c : Slot} (hc : c.val + 1 = n)
    (hcur : k.currentProc = some c)
    (h : (names.forM fun name => do
      let _ ← Leoman.procNew procLoad name false : Code Trap (Kernel τ) Unit) k = .ok ((), k')) :
    Creating (n + names.length) k' ∧ k'.idle = k.idle ∧
      ∃ c : Slot, c.val + 1 = n + names.length ∧ k'.currentProc = some c := by
  let J (i : Nat) (k₁ : Kernel τ) : Prop := Creating (n + i) k₁ ∧ k₁.idle = k.idle ∧
    ∃ c : Slot, c.val + 1 = n + i ∧ k₁.currentProc = some c
  refine procNew_all_ok (J := J) ⟨hk, rfl, c, hc, hcur⟩ (fun i _ k₁ k₂ name s hJ h₁ => ?_) h
  obtain ⟨hk₁, hidle, -⟩ := hJ
  obtain ⟨hs, hk₂, hidle₂, hcur₂⟩ := hk₁.procNew h₁
  exact ⟨hk₂, hidle₂.trans hidle, s, by omega, hcur₂⟩

/-- `proc_earlyinit` is two calls of `proc_new`. -/
theorem procEarlyinit_ok {mach : Machine τ} {heap : Heap} {k : Kernel τ}
    {procLoad : BitVec 32} {kernelName idleName : Vector (BitVec 8) 32}
    (h : procEarlyinit procLoad kernelName idleName (Kernel.initial mach heap) = .ok ((), k)) :
    ∃ kernel k₁ idle k₂,
      procNew procLoad kernelName true (Kernel.cleared mach heap) = .ok (kernel, k₁) ∧
      procNew procLoad idleName true { k₁ with currentProc := some kernel } = .ok (idle, k₂) ∧
      k = { k₂ with idle := some idle, currentProc := some idle } := by
  obtain ⟨_, k₁, h₁, h⟩ := bind_ok_iff.mp h
  obtain ⟨-, rfl⟩ := Prod.mk.inj (Except.ok.inj h₁)
  obtain ⟨kernel, k₂, h₂, h⟩ := bind_ok_iff.mp h
  obtain ⟨_, k₃, h₃, h⟩ := bind_ok_iff.mp h
  obtain ⟨idle, k₄, h₄, h₅⟩ := bind_ok_iff.mp h
  obtain ⟨-, rfl⟩ := Prod.mk.inj (Except.ok.inj h₃)
  obtain ⟨-, rfl⟩ := Prod.mk.inj (Except.ok.inj h₅)
  exact ⟨kernel, k₂, idle, k₄, h₂, h₄, rfl⟩

/-- `proc_earlyinit` leaves the kernel process and idle. -/
theorem procEarlyinit_creating {mach : Machine τ} {heap : Heap} {k : Kernel τ}
    {procLoad : BitVec 32} {kernelName idleName : Vector (BitVec 8) 32}
    (h : procEarlyinit procLoad kernelName idleName (Kernel.initial mach heap) = .ok ((), k)) :
    Creating 2 k ∧ k.idle = some 1 ∧ k.currentProc = some 1 := by
  obtain ⟨kernel, k₁, idle, k₂, h₁, h₂, rfl⟩ := procEarlyinit_ok h
  obtain ⟨-, hk₁, -, -⟩ := (cleared_creating mach heap).procNew h₁
  obtain ⟨hidle, hk₂, -, -⟩ := (hk₁.setCurrent (some kernel)).procNew h₂
  obtain rfl : idle = 1 := Fin.ext hidle
  refine ⟨⟨hk₂.le, hk₂.cursor, hk₂.nextPid, ?_, hk₂.created, hk₂.unused, hk₂.hist⟩, rfl, rfl⟩
  intro i hi
  obtain rfl : 1 = i := Option.some.inj hi
  decide

/-- **Boot.**  Whatever the machine and the heap, if the process part of `kmain` reaches the
    first process, the table is as `Booted` says. -/
theorem bootProcs_booted {mach : Machine τ} {heap : Heap} {k : Kernel τ}
    {procLoad : BitVec 32} {kernelName idleName : Vector (BitVec 8) 32}
    {names : List (Vector (BitVec 8) 32)}
    (h : bootProcs procLoad kernelName idleName names (Kernel.initial mach heap) = .ok ((), k)) :
    Booted (2 + names.length) k := by
  obtain ⟨_, k₁, h₁, h⟩ := bind_ok_iff.mp h
  obtain ⟨_, k₂, h₂, h⟩ := bind_ok_iff.mp h
  obtain ⟨hk₁, hidle₁, hcur₁⟩ := procEarlyinit_creating h₁
  obtain ⟨hk₂, hidle₂, c, hc, hcur₂⟩ := hk₁.procNew_all (by decide) hcur₁ h₂
  obtain ⟨c', hc', rfl⟩ := procKickoffFirstProcess_ok h
  obtain rfl : c = c' := Option.some.inj (hcur₂.symm.trans hc')
  -- the kickoff only marks the process it starts
  have hb := board_setState (k := k₂) c .running
  refine ⟨by omega, hk₂.le, hidle₂.trans hidle₁, ⟨c, hc, hcur₂⟩, ?_, ?_, hk₂.hist⟩
  · intro s hs
    obtain ⟨hp, hi, hq, hst⟩ := hk₂.created s hs
    refine ⟨(congrFun (congrArg Board.pid hb) s).trans hp,
      (congrFun (congrArg Board.inited hb) s).trans hi,
      (congrFun (congrArg Board.queue hb) s).trans hq,
      (congrFun (congrArg Board.state hb) s).trans ?_⟩
    by_cases hsc : s = c
    · subst hsc
      simp [hc]
    · have hne : s.val + 1 ≠ 2 + names.length := fun h => hsc (Fin.ext (by omega))
      simp [hsc, hne, hst]
  · intro s hs
    obtain ⟨hp, hi, hq, hst⟩ := hk₂.unused s hs
    have hsc : s ≠ c := by
      rintro rfl
      omega
    refine ⟨(congrFun (congrArg Board.pid hb) s).trans hp,
      (congrFun (congrArg Board.inited hb) s).trans hi,
      (congrFun (congrArg Board.queue hb) s).trans hq,
      (congrFun (congrArg Board.state hb) s).trans ?_⟩
    simp [hsc, hst]

end Boot

end Leoman
