import Leoman.MapPage
import Leoman.Lib.Runs

namespace Leoman

open ByteMem StateExcept Runs

/-!
# Stale translations

`map_page` fills absent entries only, which no TLB retains.  `unmap_page` and
`vm_change_page_attrs` rewrite present ones and never issue `invlpg`: a translation retained
from before stays in force until the next `cr3` load.

* `VmOp` — the events: the three functions, byte accesses and `cr3` loads;
* `VmOp.Fresh` — the condition on an event, read off the state before it: an entry that is
  cleared or loses its frame must not be one some retained translation went through;
* `no_stale_translations` — along every run of fresh events each access resolves as the
  current tables say;
* `remapped_window_is_stale` — the IPC window mapped, used, unmapped and mapped elsewhere.
-/

/-- An event. -/
inductive VmOp where
  | mapPage (paddr vaddr flags : BitVec 32)
  | unmapPage (vaddr : BitVec 32)
  | changeAttrs (vaddr flags : BitVec 32)
  | load (vaddr : BitVec 32)
  | store (vaddr : BitVec 32) (b : BitVec 8)
  | loadCr3 (pdir : BitVec 32)
deriving DecidableEq, Repr

section Runs

variable {τ : Type} [Tlb τ]

/-- Run an event. -/
def VmOp.exec : VmOp → Code Trap (Machine τ) Unit
  | .mapPage paddr vaddr flags => Leoman.mapPage paddr vaddr flags
  | .unmapPage vaddr => Leoman.unmapPage vaddr
  | .changeAttrs vaddr flags => vmChangePageAttrs vaddr flags
  | .load vaddr => do
    let _ ← load8 vaddr
    pure ()
  | .store vaddr b => store8 vaddr b
  | .loadCr3 pdir => setCr3 pdir

/-- Every address resolves as the current tables say: to the same frame, or to a fault. -/
def Resolves (m : Machine τ) : Prop :=
  ∀ v, (translate v m).toOption.map Prod.fst = hwTranslate m.mem m.cr3 v

/-- No retained translation goes through the table entry of `v`, an entry outside the
    directory. -/
def Unretained (m : Machine τ) (v : BitVec 32) : Prop :=
  palignDown (pdeOf m.mem m.cr3 v) ≠ palignDown m.cr3 ∧
    ∀ q g, Tlb.lookup m.tlb q = some g →
      palignDown (pdeOf m.mem m.cr3 q) = palignDown (pdeOf m.mem m.cr3 v) →
      vmPtabIdx q ≠ vmPtabIdx v

/-- The frame `F` can become the page table of `v`: the address space does not use it, or it
    holds no entry for `v` that is present (nor is the directory entry about to be one). -/
def FreshTable (mem : Mem) (cr3 F v : BitVec 32) : Prop :=
  ¬ InUse mem cr3 F ∨
    (¬ Present (tableEntry mem F (vmPtabIdx v)) ∧
      (F = palignDown cr3 → vmPtabIdx v ≠ vmPdirIdx v))

/-- The condition on an event. -/
def VmOp.Fresh (m : Machine τ) : VmOp → Prop
  | .mapPage _ v flags => flags.toNat < 4096 ∧
      (Present (pdeOf m.mem m.cr3 v) ∨
        FreshTable m.mem m.cr3 (palignDown (pmAlloc m.pm).1) v)
  | .unmapPage v => ¬ Present (pteOf m.mem m.cr3 v) ∨ Unretained m v
  | .changeAttrs v flags => ¬ Present (pteOf m.mem m.cr3 v) ∨ Unretained m v ∨
      (Present flags ∧ flags.toNat < 4096)
  | .load _ => True
  | .store v _ => ∀ f, walk m.mem m.cr3 v = some f → ¬ InUse m.mem m.cr3 f
  | .loadCr3 pdir => Recursive m.mem pdir

/-- A step of a run of fresh events. -/
def FreshStep (m : Machine τ) (op : VmOp) (m' : Machine τ) : Prop :=
  op.Fresh m ∧ op.exec m = .ok ((), m')

/-- What every run of fresh events keeps. -/
structure Settled (m : Machine τ) : Prop where
  coherent : Coherent m.tlb m.mem m.cr3
  recursive : Recursive m.mem m.cr3

/-- A coherent TLB resolves every address as the tables say. -/
theorem Settled.resolves {m : Machine τ} (h : Settled m) : Resolves m := by
  intro v
  unfold hwTranslate
  cases hw : walk m.mem m.cr3 v with
  | none =>
    rw [translate_fault h.coherent hw]
    rfl
  | some f =>
    obtain ⟨t, ht, -⟩ := translate_of_walk h.coherent hw
    rw [ht]
    rfl

/-! ### Rewriting a table entry -/

/-- **Rewriting the entry of `v`** keeps a TLB coherent when the entry was absent, when no
    retained translation went through it, or when it keeps its frame. -/
theorem settled_setPte {t : τ} {mem : Mem} {cr3 v x : BitVec 32} (hc : Coherent t mem cr3)
    (hr : Recursive mem cr3)
    (h : ¬ Present (pteOf mem cr3 v) ∨
      (palignDown (pdeOf mem cr3 v) ≠ palignDown cr3 ∧ ∀ q g, Tlb.lookup t q = some g →
        palignDown (pdeOf mem cr3 q) = palignDown (pdeOf mem cr3 v) →
        vmPtabIdx q ≠ vmPtabIdx v) ∨
      (Present x ∧ palignDown x = palignDown (pteOf mem cr3 v))) :
    Coherent t (setPte mem cr3 v x) cr3 ∧ Recursive (setPte mem cr3 v x) cr3 := by
  have hslot := tableEntry_setPte mem cr3 v x (c := palignDown cr3) (j := 1023#32)
    (palignDown_aligned _) (by decide)
  unfold Recursive
  rw [hslot]
  by_cases ha : Present (pteOf mem cr3 v)
  · rcases h.resolve_left (fun hn => hn ha) with ⟨hd, hno⟩ | ⟨hx, hfr⟩
    · refine ⟨fun q g hq => ?_, ?_⟩
      · rw [walk_setPte hd fun _ => hno q g hq]
        exact hc q g hq
      · rw [if_neg fun hs => hd hs.1.symm]
        exact hr
    · refine ⟨hc.mono fun w f hw => ?_, ?_⟩
      · rw [← hw]
        exact walk_write_keep (palignDown_aligned _) (vmPtabIdx_lt v) (iff_of_true hx ha) hfr
      · split
        · rename_i hs
          have hpte : pteOf mem cr3 v = tableEntry mem (palignDown cr3) 1023#32 := by
            rw [pteOf, ← hs.1, ← hs.2]
          exact ⟨hx, by rw [hfr, hpte]; exact hr.2⟩
        · exact hr
  · refine ⟨hc.mono fun w f hw => ?_, ?_⟩
    · exact walk_write_absent (palignDown_aligned _) (vmPtabIdx_lt v) ha hw
    · rw [if_neg]
      · exact hr
      · -- the last slot of the directory is present, the entry of `v` is not
        intro hs
        apply ha
        rw [pteOf, ← hs.1, ← hs.2]
        exact hr.1

/-- What the functions retain besides are pages of the windows, and their tables are in the
    directory: a translation through an entry outside it was retained before. -/
theorem Unretained.of_onlyNew {m : Machine τ} {v : BitVec 32} (hr : Recursive m.mem m.cr3)
    (h : Unretained m v) {t : τ} (hn : OnlyNew InWindows m.tlb t) :
    Unretained { m with tlb := t } v := by
  refine ⟨h.1, fun q g hq hs => ?_⟩
  rcases hn q g hq with hq | hq
  · exact h.2 q g hq hs
  · have hdir : palignDown (pdeOf m.mem m.cr3 q) = palignDown m.cr3 := by
      rw [pdeOf, hq]
      exact hr.2
    exact absurd (hs.symm.trans hdir) h.1

/-! ### One event -/

variable {m m' : Machine τ}

/-- `map_page`. -/
theorem settled_mapPage {p v flags : BitVec 32} (hs : Settled m)
    (hf : (VmOp.mapPage p v flags).Fresh m) (hrun : mapPage p v flags m = .ok ((), m')) :
    Settled m' := by
  obtain ⟨hfl, htab⟩ := hf
  obtain ⟨hc, hr⟩ := hs
  by_cases hp : Present (pdeOf m.mem m.cr3 v)
  · by_cases hp' : Present (pteOf m.mem m.cr3 v)
    · obtain ⟨t, hct, -, herr | hok⟩ := @mapPage_mapped _ _ _ hc hr p v flags hp hp'
      · rw [herr] at hrun
        exact absurd hrun (by simp)
      · rw [hok, Except.ok.injEq, Prod.mk.injEq] at hrun
        rw [← hrun.2]
        exact ⟨hct, hr⟩
    · obtain ⟨t, hok, hct, -⟩ := mapPage_absentPage (p := p) hc hr hfl hp hp'
      rw [hok, Except.ok.injEq, Prod.mk.injEq] at hrun
      rw [← hrun.2]
      -- the entry of `v` is still absent after `pdir[...] |= flags`
      have habs : ¬ Present (pteOf (setPde m.mem m.cr3 v (pdeOf m.mem m.cr3 v ||| mapFlags flags))
          m.cr3 v) := by
        rw [pteOf, pdeOf_setPde_self, mapFlags, palignDown_or (flags_lt hfl),
          tableEntry_setPde _ _ _ _ (palignDown_aligned _) (vmPtabIdx_lt v), if_neg]
        · exact hp'
        · intro h
          apply hp'
          rw [pteOf, h.1, h.2]
          exact hp
      have := settled_setPte (x := palignDown p ||| mapFlags flags) hct (hr.store_flags hfl)
        (Or.inl habs)
      exact ⟨this.1, this.2⟩
  · obtain ⟨t, hok, hct, hnt⟩ := @mapPage_absentTable _ _ _ hc hr p v flags hp
    rw [hok, Except.ok.injEq, Prod.mk.injEq] at hrun
    rw [← hrun.2]
    have h1023 := hr.pdirIdx_ne hp
    have hframe : palignDown ((pmAlloc m.pm).1 ||| mapFlags flags) = palignDown (pmAlloc m.pm).1 :=
      palignDown_or (flags_lt hfl)
    have := settled_setPte (x := palignDown p ||| mapFlags flags) hct
      (hr.store_pde _ fun h => absurd h h1023) (v := v) ?_
    · exact ⟨this.1, this.2⟩
    rw [pdeOf_setPde_self, hframe]
    rcases htab.resolve_left hp with huse | ⟨habs, hdi⟩
    · -- the frame is new: only `v` itself could go through its entry, and `v` was not mapped
      refine Or.inr (Or.inl ⟨fun h => huse (h ▸ inUse_directory hr), fun q g hq hsq hj => ?_⟩)
      have hpq := (walk_eq_some_iff.mp (hct q g hq)).1
      rw [pdeOf_setPde] at hpq hsq
      split at hsq
      · rename_i hi
        rcases hnt q g hq with hq | hq
        · have := (walk_eq_some_iff.mp (hc q g hq)).1
          rw [pdeOf, hi] at this
          exact hp this
        · exact h1023 (hi.symm.trans hq)
      · rename_i hi
        rw [if_neg hi] at hpq
        exact huse ⟨q, hpq, hsq⟩
    · refine Or.inl ?_
      rw [pteOf, pdeOf_setPde_self, hframe,
        tableEntry_setPde _ _ _ _ (palignDown_aligned _) (vmPtabIdx_lt v),
        if_neg fun h => hdi h.1 h.2]
      exact habs

/-- A store to a table entry through the window. -/
theorem settled_store_ptabSlot {v x : BitVec 32} (hs : Settled m)
    (h : ¬ Present (pteOf m.mem m.cr3 v) ∨ Unretained m v ∨
      (Present x ∧ palignDown x = palignDown (pteOf m.mem m.cr3 v)))
    (hrun : store32 (ptabSlot v) x m = .ok ((), m')) : Settled m' := by
  obtain ⟨hc, hr⟩ := hs
  by_cases hp : Present (pdeOf m.mem m.cr3 v)
  · obtain ⟨t, hok, hct, hnt⟩ := store_ptabSlot hc hr hp x
    rw [hok, Except.ok.injEq, Prod.mk.injEq] at hrun
    rw [← hrun.2]
    have := settled_setPte hct hr
      (h.imp_right fun h => h.imp_left fun h => Unretained.of_onlyNew hr h hnt)
    exact ⟨this.1, this.2⟩
  · rw [store32_fault hc (walk_ptabSlot_absent hr hp)] at hrun
    exact absurd hrun (by simp)

/-- `unmap_page`. -/
theorem settled_unmapPage {v : BitVec 32} (hs : Settled m) (hf : (VmOp.unmapPage v).Fresh m)
    (hrun : unmapPage v m = .ok ((), m')) : Settled m' := by
  rw [unmapPage, ptabSlot_palignDown] at hrun
  exact settled_store_ptabSlot hs (hf.imp_right Or.inl) hrun

/-- Masking with `~0x3ff` keeps the frame. -/
theorem palignDown_attrs {e flags : BitVec 32} (hf : flags.toNat < 4096) :
    palignDown ((e &&& ~~~0x3ff#32) ||| flags) = palignDown e := by
  rw [palignDown_or hf]
  unfold palignDown
  rw [BitVec.and_assoc]
  congr 1

/-- `vm_change_page_attrs`. -/
theorem settled_changeAttrs {v flags : BitVec 32} (hs : Settled m)
    (hf : (VmOp.changeAttrs v flags).Fresh m)
    (hrun : vmChangePageAttrs v flags m = .ok ((), m')) : Settled m' := by
  rw [vmChangePageAttrs, ptabSlot_palignDown] at hrun
  by_cases hp : Present (pdeOf m.mem m.cr3 v)
  · obtain ⟨t, hok, hct, hnt⟩ := load_ptabSlot hs.coherent hs.recursive hp
    rw [run_bind_of_ok hok] at hrun
    have hs' : Settled { m with tlb := t } := ⟨hct, hs.recursive⟩
    refine settled_store_ptabSlot hs' ?_ hrun
    rcases hf with h | h | ⟨hpres, hlt⟩
    · exact Or.inl h
    · exact Or.inr (Or.inl (h.of_onlyNew hs.recursive hnt))
    · exact Or.inr (Or.inr ⟨present_or_right hpres, palignDown_attrs hlt⟩)
  · rw [run_bind_of_error (load32_fault hs.coherent (walk_ptabSlot_absent hs.recursive hp))] at hrun
    exact absurd hrun (by simp)

/-- An access that translates. -/
theorem translate_cases {v pa : BitVec 32} (hs : Settled m)
    (hrun : translate v m = .ok (pa, m')) :
    ∃ f t, walk m.mem m.cr3 v = some f ∧ pa = f + pageOffset v ∧ m' = { m with tlb := t } ∧
      Coherent t m.mem m.cr3 := by
  cases hw : walk m.mem m.cr3 v with
  | none =>
    rw [translate_fault hs.coherent hw] at hrun
    exact absurd hrun (by simp)
  | some f =>
    obtain ⟨t, ht, hct, -⟩ := translate_of_walk hs.coherent hw
    rw [ht, Except.ok.injEq, Prod.mk.injEq] at hrun
    exact ⟨f, t, rfl, hrun.1.symm, hrun.2.symm, hct⟩

/-- A load. -/
theorem settled_load {v : BitVec 32} (hs : Settled m)
    (hrun : (VmOp.load v).exec m = .ok ((), m')) : Settled m' := by
  obtain ⟨b, m₁, h₁, h₂⟩ := bind_ok_iff.mp hrun
  obtain ⟨pa, m₂, h₃, h₄⟩ := bind_ok_iff.mp h₁
  obtain ⟨f, t, -, -, rfl, hct⟩ := translate_cases hs h₃
  obtain ⟨m₃, m₄, h₅, h₆⟩ := bind_ok_iff.mp h₄
  simp only [run_get, run_pure, Except.ok.injEq, Prod.mk.injEq] at h₂ h₅ h₆
  rw [← h₂.2, ← h₆.2, ← h₅.2]
  exact ⟨hct, hs.recursive⟩

/-- A store outside the tables. -/
theorem settled_store {v : BitVec 32} {b : BitVec 8} (hs : Settled m)
    (hf : (VmOp.store v b).Fresh m) (hrun : store8 v b m = .ok ((), m')) : Settled m' := by
  obtain ⟨pa, m₁, h₁, h₂⟩ := bind_ok_iff.mp hrun
  obtain ⟨f, t, hw, rfl, rfl, hct⟩ := translate_cases hs h₁
  rw [run_modify, Except.ok.injEq, Prod.mk.injEq] at h₂
  rw [← h₂.2]
  have hframe : palignDown f = f := by
    obtain ⟨-, -, rfl⟩ := walk_eq_some_iff.mp hw
    exact palignDown_palignDown _
  have hagree : ∀ x, InUse m.mem m.cr3 (palignDown x) →
      write8 m.mem (f + pageOffset v) b x = m.mem x := by
    intro x hx
    refine Function.update_of_ne ?_ _ _
    rintro rfl
    rw [palignDown_frame_add hframe] at hx
    exact hf f hw hx
  exact ⟨hct.mono fun w g hg => (walk_of_agree hs.recursive hagree w).trans hg,
    hs.recursive.of_agree hagree⟩

/-- A `cr3` load empties the TLB. -/
theorem settled_loadCr3 {pdir : BitVec 32} (hf : (VmOp.loadCr3 pdir).Fresh m)
    (hrun : setCr3 pdir m = .ok ((), m')) : Settled m' := by
  rw [setCr3, run_modify, Except.ok.injEq, Prod.mk.injEq] at hrun
  rw [← hrun.2]
  refine ⟨fun q g hq => ?_, hf⟩
  simp only [Tlb.lookup_flush] at hq
  exact absurd hq (by simp)

/-- **One fresh event** leaves no stale translation. -/
theorem FreshStep.settled {op : VmOp} (hs : Settled m) (h : FreshStep m op m') : Settled m' := by
  obtain ⟨hf, hrun⟩ := h
  cases op with
  | mapPage p v flags => exact settled_mapPage hs hf hrun
  | unmapPage v => exact settled_unmapPage hs hf hrun
  | changeAttrs v flags => exact settled_changeAttrs hs hf hrun
  | load v => exact settled_load hs hrun
  | store v b => exact settled_store hs hf hrun
  | loadCr3 pdir => exact settled_loadCr3 hf hrun

/-- **No stale translations along a run of fresh events.**  Whatever the TLB chooses to
    retain, in every state such a run reaches each access resolves to the frame the current
    tables give, or faults where they give none. -/
theorem no_stale_translations {ops : List VmOp} (hs : Settled m)
    (hrun : Run FreshStep m ops m') : Resolves m' :=
  (hrun.invariant (J := fun _ m => Settled m) hs
    fun _ _ _ _ hi hstep => FreshStep.settled hi hstep).resolves

/-- Run events one after the other. -/
def execAll (ops : List VmOp) : Code Trap (Machine τ) Unit := ops.forM VmOp.exec

/-- A completed sequence is a run. -/
theorem run_of_execAll {ops : List VmOp} (h : execAll ops m = .ok ((), m')) :
    Run (fun m op m' => VmOp.exec op m = .ok ((), m')) m ops m' := by
  induction ops generalizing m with
  | nil =>
    obtain ⟨-, rfl⟩ := Prod.mk.inj (Except.ok.inj h)
    exact Run.start
  | cons op ops ih =>
    obtain ⟨_, m₁, h₁, h₂⟩ := bind_ok_iff.mp h
    exact (Run.start.next h₁).append (ih h₂)

end Runs

/-- The directory at `0x1000` with the reply window `0xcafe0000` mapped to `0x5000` by the
    table at `0x2000`, and a TLB that is empty and retains whatever it may. -/
def windowMachine : Machine RetainAll :=
  { mem := write32 (write32 (blankSpace 0x1000#32)
      (0x1000#32 + 4#32 * vmPdirIdx 0xcafe0000#32) 0x2003#32)
      (0x2000#32 + 4#32 * vmPtabIdx 0xcafe0000#32) 0x5003#32
    cr3 := 0x1000#32
    tlb := ⟨fun _ => none⟩
    pm := ⟨fun _ => 0#32, 0xe0003000#32⟩ }

/-- A window not used since the last `cr3` load can be unmapped and mapped elsewhere. -/
theorem no_stale_translations_unused : ∃ m', Run FreshStep windowMachine
    [.unmapPage 0xcafe0000#32, .mapPage 0x6000#32 0xcafe0000#32 0#32] m' ∧ Resolves m' := by
  have hempty : ∀ q g, Tlb.lookup windowMachine.tlb q ≠ some g := by
    simp [Tlb.lookup, windowMachine]
  have hs : Settled windowMachine := ⟨fun q g hq => absurd hq (hempty q g), by decide +kernel⟩
  have hunmap : (VmOp.exec (.unmapPage 0xcafe0000#32) windowMachine).toOption.map (fun r =>
      decide (Present (pdeOf r.2.mem r.2.cr3 0xcafe0000#32)) &&
        (VmOp.exec (.mapPage 0x6000#32 0xcafe0000#32 0#32) r.2).toOption.isSome) = some true := by
    decide +kernel
  obtain ⟨_, m₁, h₁, hm₁⟩ := ok_of_test hunmap
  rw [Bool.and_eq_true, decide_eq_true_eq] at hm₁
  have hf₁ : (VmOp.unmapPage 0xcafe0000#32).Fresh windowMachine :=
    Or.inr ⟨by decide +kernel, fun q g hq => absurd hq (hempty q g)⟩
  cases h₂ : VmOp.exec (.mapPage 0x6000#32 0xcafe0000#32 0#32) m₁ with
  | error e => simp [h₂, Except.toOption] at hm₁
  | ok r =>
    have hs₁ : FreshStep windowMachine (.unmapPage 0xcafe0000#32) m₁ := ⟨hf₁, h₁⟩
    have hs₂ : FreshStep m₁ (.mapPage 0x6000#32 0xcafe0000#32 0#32) r.2 :=
      ⟨⟨by decide, Or.inl hm₁.1⟩, h₂⟩
    have hrun := (Run.start.next hs₁).next hs₂
    exact ⟨r.2, hrun, no_stale_translations hs hrun⟩

/-- **Two mappings of a window without a switch between them.**  The reply path copies through
    `0xcafe0000`, unmaps it and maps another frame there for the next reply: an access still
    goes to the old frame. -/
theorem remapped_window_is_stale : ∃ m', Run (fun m op m' => VmOp.exec op m = .ok ((), m'))
    windowMachine [.load 0xcafe0000#32, .unmapPage 0xcafe0000#32,
      .mapPage 0x6000#32 0xcafe0000#32 0#32] m' ∧
      (translate 0xcafe0000#32 m').toOption.map Prod.fst = some 0x5000#32 ∧
      hwTranslate m'.mem m'.cr3 0xcafe0000#32 = some 0x6000#32 ∧ ¬ Resolves m' := by
  have htest : (execAll [.load 0xcafe0000#32, .unmapPage 0xcafe0000#32,
      .mapPage 0x6000#32 0xcafe0000#32 0#32] windowMachine).toOption.map (fun r =>
        decide ((translate 0xcafe0000#32 r.2).toOption.map Prod.fst = some 0x5000#32) &&
          decide (hwTranslate r.2.mem r.2.cr3 0xcafe0000#32 = some 0x6000#32)) = some true := by
    decide +kernel
  obtain ⟨_, m', h, hm'⟩ := ok_of_test htest
  simp only [Bool.and_eq_true, decide_eq_true_eq] at hm'
  refine ⟨m', run_of_execAll h, hm'.1, hm'.2, fun hres => ?_⟩
  have hsame := hres 0xcafe0000#32
  rw [hm'.1, hm'.2] at hsame
  exact absurd hsame (by decide)

end Leoman
