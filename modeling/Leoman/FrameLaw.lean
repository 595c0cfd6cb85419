import Leoman.MapPage

namespace Leoman

open ByteMem StateExcept

/-!
# The frame law of `map_page`

`map_page` should change the translation of one page only.  With the page table in place it
does.  Without one it takes a frame from `pm_alloc` and puts it into the directory as it is —
unlike `new_pdir` and `vm_copy_kernel_pdir`, which clear their frame first — so whatever the
frame holds becomes the translation of the 1023 other pages of the region.

* `newTable_iff` — what installing a new table does to the other pages, on memory alone;
* `mapPage_maps_only_iff` — the frame law holds exactly when the table exists or the new one
  is harmless;
* `mapPage_maps_garbage` — a frame with one stale entry.
-/

/-- Every page below the windows, other than that of `v`, translates in `mem'` as in `mem`. -/
def KeepsOthers (mem mem' : Mem) (cr3 v : BitVec 32) : Prop :=
  ∀ w : BitVec 32, w.toNat < 0xffc00000 → palignDown w ≠ palignDown v →
    hwTranslate mem' cr3 w = hwTranslate mem cr3 w

/-- The frame `T` holds no present entry but perhaps that of `v`. -/
def EmptyBut (mem : Mem) (T v : BitVec 32) : Prop :=
  ∀ j : BitVec 32, j.toNat < 1024 → j ≠ vmPtabIdx v → ¬ Present (tableEntry mem T j)

/-- The frame `F` can become the page table of `v`, with the page mapped to `p`, without any
    other page noticing: it is not the directory, it is empty, and a region that has it as its
    table already maps the page of `v`'s index to `p`.  (If it is the directory, the page
    entry has to replace the directory entry itself, and `p` is the table.) -/
def NewTableHarmless (mem : Mem) (cr3 F p v : BitVec 32) : Prop :=
  (F ≠ palignDown cr3 ∧ EmptyBut mem F v ∧
    ∀ w : BitVec 32, w.toNat < 0xffc00000 → Present (pdeOf mem cr3 w) →
      palignDown (pdeOf mem cr3 w) = F →
      Present (tableEntry mem F (vmPtabIdx v)) ∧
        palignDown (tableEntry mem F (vmPtabIdx v)) = palignDown p) ∨
  (F = palignDown cr3 ∧ vmPtabIdx v = vmPdirIdx v ∧ EmptyBut mem (palignDown p) v)

/-- Translations agree when the walks do. -/
theorem hwTranslate_eq_iff {mem mem' : Mem} {cr3 w : BitVec 32} :
    hwTranslate mem' cr3 w = hwTranslate mem cr3 w ↔ walk mem' cr3 w = walk mem cr3 w := by
  have hinj : Function.Injective fun f : BitVec 32 => f + pageOffset w := by
    intro f g h
    exact (BitVec.add_left_inj _).mp h
  exact (Option.map_injective hinj).eq_iff

/-- Without a page table no address of the region translates. -/
theorem walk_absent_region {mem : Mem} {cr3 v w : BitVec 32} (ha : ¬ Present (pdeOf mem cr3 v))
    (hi : vmPdirIdx w = vmPdirIdx v) : walk mem cr3 w = none := by
  rw [walk_eq_none_iff, pdeOf, hi]
  exact Or.inl ha

/-! ### A new table on memory -/

section NewTable

variable {mem : Mem} {cr3 v e x : BitVec 32} (hwf : WellFormed mem cr3)
  (hv : vmPdirIdx v ≠ 1023#32) (ha : ¬ Present (pdeOf mem cr3 v)) (he : Present e)
  (hx : Present x)

/-- The two stores: `e` into the directory, `x` into the table `e` points to. -/
def newTable (mem : Mem) (cr3 v e x : BitVec 32) : Mem := setPte (setPde mem cr3 v e) cr3 v x

/-- An entry after both stores. -/
theorem tableEntry_newTable {c j : BitVec 32} (hc : c.toNat % 4096 = 0) (hj : j.toNat < 1024) :
    tableEntry (newTable mem cr3 v e x) c j
      = if c = palignDown e ∧ j = vmPtabIdx v then x
        else if c = palignDown cr3 ∧ j = vmPdirIdx v then e else tableEntry mem c j := by
  rw [newTable, tableEntry_setPte _ _ _ _ hc hj, pdeOf_setPde_self,
    tableEntry_setPde _ _ _ _ hc hj]

/-- With `F` off the directory, the directory entries afterwards. -/
theorem pdeOf_newTable (hF : palignDown e ≠ palignDown cr3) (w : BitVec 32) :
    pdeOf (newTable mem cr3 v e x) cr3 w
      = if vmPdirIdx w = vmPdirIdx v then e else pdeOf mem cr3 w := by
  rw [pdeOf, tableEntry_newTable (palignDown_aligned _) (vmPdirIdx_lt w),
    if_neg (fun h => hF h.1.symm)]
  simp only [true_and, pdeOf]

include he in
/-- In the region of `v` the old content of the frame decides. -/
theorem newTable_region (hF : palignDown e ≠ palignDown cr3) {w : BitVec 32}
    (hi : vmPdirIdx w = vmPdirIdx v) (hj : vmPtabIdx w ≠ vmPtabIdx v) :
    walk (newTable mem cr3 v e x) cr3 w = none
      ↔ ¬ Present (tableEntry mem (palignDown e) (vmPtabIdx w)) := by
  have hpde : pdeOf (newTable mem cr3 v e x) cr3 w = e := by rw [pdeOf_newTable hF, if_pos hi]
  have hpte : pteOf (newTable mem cr3 v e x) cr3 w
      = tableEntry mem (palignDown e) (vmPtabIdx w) := by
    rw [pteOf, hpde, tableEntry_newTable (palignDown_aligned _) (vmPtabIdx_lt w),
      if_neg (fun h => hj h.2), if_neg (fun h => hF h.1)]
  rw [walk_eq_none_iff, hpde, hpte]
  exact or_iff_right (fun h => h he)

include hwf in
/-- Elsewhere nothing changes, except for a page of the same index in the same frame. -/
theorem newTable_other (hF : palignDown e ≠ palignDown cr3) {w : BitVec 32}
    (hi : vmPdirIdx w ≠ vmPdirIdx v) (hw : vmPdirIdx w ≠ 1023#32)
    (hs : Present (pdeOf mem cr3 w) → palignDown (pdeOf mem cr3 w) = palignDown e →
      vmPtabIdx w ≠ vmPtabIdx v) :
    walk (newTable mem cr3 v e x) cr3 w = walk mem cr3 w := by
  have hpde : pdeOf (setPde mem cr3 v e) cr3 w = pdeOf mem cr3 w := by
    rw [pdeOf_setPde, if_neg hi]
  calc walk (newTable mem cr3 v e x) cr3 w
      = walk (setPde mem cr3 v e) cr3 w := by
        refine walk_setPte (by rwa [pdeOf_setPde_self]) ?_
        rw [hpde, pdeOf_setPde_self]
        exact hs
    _ = walk mem cr3 w := walk_setPde_of_ne hi fun hp => hwf.table_ne hp hw

include hx in
/-- A region that shares the frame sees the new page entry. -/
theorem newTable_shared (hF : palignDown e ≠ palignDown cr3) {w : BitVec 32}
    (hi : vmPdirIdx w ≠ vmPdirIdx v) (hp : Present (pdeOf mem cr3 w))
    (hs : palignDown (pdeOf mem cr3 w) = palignDown e) (hj : vmPtabIdx w = vmPtabIdx v) :
    walk (newTable mem cr3 v e x) cr3 w = some (palignDown x) := by
  have hpde : pdeOf (newTable mem cr3 v e x) cr3 w = pdeOf mem cr3 w := by
    rw [pdeOf_newTable hF, if_neg hi]
  have hpte : pteOf (newTable mem cr3 v e x) cr3 w = x := by
    rw [pteOf, hpde, tableEntry_newTable (palignDown_aligned _) (vmPtabIdx_lt w),
      if_pos ⟨hs, hj⟩]
  rw [walk_eq_some_iff, hpde, hpte]
  exact ⟨hp, hx, rfl⟩

include hwf hv ha he hx

/-- Off the directory: the frame is harmless exactly when every other page is left alone. -/
theorem newTable_iff_of_ne (hF : palignDown e ≠ palignDown cr3) :
    KeepsOthers mem (newTable mem cr3 v e x) cr3 v
      ↔ EmptyBut mem (palignDown e) v ∧
        ∀ w : BitVec 32, w.toNat < 0xffc00000 → Present (pdeOf mem cr3 w) →
          palignDown (pdeOf mem cr3 w) = palignDown e →
          Present (tableEntry mem (palignDown e) (vmPtabIdx v)) ∧
            palignDown (tableEntry mem (palignDown e) (vmPtabIdx v)) = palignDown x := by
  constructor
  · intro hk
    constructor
    · -- the page of index `j` in the region of `v` did not translate before
      intro j hj hne
      obtain ⟨w, hwd, hwj⟩ := exists_idx (vmPdirIdx_lt v) hj
      have hpage : palignDown w ≠ palignDown v :=
        palignDown_ne_of_ptabIdx (by rwa [hwj])
      have hafter := hwTranslate_eq_iff.mp (hk w (by rwa [lt_kernPtabs_iff, hwd]) hpage)
      rw [walk_absent_region ha hwd, newTable_region he hF hwd (by rwa [hwj]), hwj] at hafter
      exact hafter
    · -- a sharing region sees `x` at the index of `v`, so it saw it before
      intro u hu hp hs
      obtain ⟨w, hwd, hwj⟩ := exists_idx (vmPdirIdx_lt u) (vmPtabIdx_lt v)
      have hpu : pdeOf mem cr3 w = pdeOf mem cr3 u := by rw [pdeOf, hwd, pdeOf]
      have hi : vmPdirIdx w ≠ vmPdirIdx v := by
        intro h
        apply ha
        rwa [pdeOf, ← h, hwd]
      have hsame := hwTranslate_eq_iff.mp
        (hk w (by rw [lt_kernPtabs_iff, hwd]; exact (lt_kernPtabs_iff u).mp hu)
          (palignDown_ne_of_pdirIdx hi))
      rw [newTable_shared hx hF hi (by rwa [hpu]) (by rwa [hpu]) hwj] at hsame
      obtain ⟨-, h2, h3⟩ := walk_eq_some_iff.mp hsame.symm
      rw [pteOf, hpu, hs, hwj] at h2 h3
      exact ⟨h2, h3⟩
  · rintro ⟨hempty, hshare⟩ w hw hpage
    rw [hwTranslate_eq_iff]
    by_cases hi : vmPdirIdx w = vmPdirIdx v
    · have hj : vmPtabIdx w ≠ vmPtabIdx v := fun hj => hpage (palignDown_eq_of_idx hi hj)
      rw [walk_absent_region ha hi, newTable_region he hF hi hj]
      exact hempty _ (vmPtabIdx_lt w) hj
    · have h1023 := (lt_kernPtabs_iff w).mp hw
      by_cases hs : Present (pdeOf mem cr3 w) ∧ palignDown (pdeOf mem cr3 w) = palignDown e ∧
          vmPtabIdx w = vmPtabIdx v
      · obtain ⟨hp, hs, hj⟩ := hs
        obtain ⟨h2, h3⟩ := hshare w hw hp hs
        rw [newTable_shared hx hF hi hp hs hj, eq_comm, walk_eq_some_iff, pteOf, hs, hj]
        exact ⟨hp, h2, h3⟩
      · exact newTable_other hwf hF hi h1023 fun hp hs' hj => hs ⟨hp, hs', hj⟩

/-- On the directory: some other page of the region shows a present directory entry, unless
    the page entry lands on the directory entry itself. -/
theorem newTable_iff_of_eq (hF : palignDown e = palignDown cr3) :
    KeepsOthers mem (newTable mem cr3 v e x) cr3 v
      ↔ vmPtabIdx v = vmPdirIdx v ∧ EmptyBut mem (palignDown x) v := by
  constructor
  · intro hk
    -- no other page of the region translates afterwards
    have hregion : ∀ j : BitVec 32, j.toNat < 1024 → j ≠ vmPtabIdx v →
        ∃ w, vmPdirIdx w = vmPdirIdx v ∧ vmPtabIdx w = j ∧
          walk (newTable mem cr3 v e x) cr3 w = none := by
      intro j hj hne
      obtain ⟨w, hwd, hwj⟩ := exists_idx (vmPdirIdx_lt v) hj
      refine ⟨w, hwd, hwj, ?_⟩
      have hpage : palignDown w ≠ palignDown v :=
        palignDown_ne_of_ptabIdx (by rwa [hwj])
      rw [hwTranslate_eq_iff.mp (hk w (by rwa [lt_kernPtabs_iff, hwd]) hpage)]
      exact walk_absent_region ha hwd
    have hij : vmPtabIdx v = vmPdirIdx v := by
      by_contra hij
      -- the table is the directory: slot 1023 shows up, or the slot of `v`'s region does
      have hcand : ∃ j : BitVec 32, j.toNat < 1024 ∧ j ≠ vmPtabIdx v ∧
          Present (tableEntry (newTable mem cr3 v e x) (palignDown cr3) j) := by
        by_cases h1023 : vmPtabIdx v = 1023#32
        · refine ⟨vmPdirIdx v, vmPdirIdx_lt v, fun h => hij h.symm, ?_⟩
          rw [tableEntry_newTable (palignDown_aligned _) (vmPdirIdx_lt v),
            if_neg (fun h => hij h.2.symm), if_pos ⟨rfl, rfl⟩]
          exact he
        · refine ⟨1023#32, by decide, fun h => h1023 h.symm, ?_⟩
          rw [tableEntry_newTable (palignDown_aligned _) (by decide),
            if_neg (fun h => h1023 h.2.symm), if_neg (fun h => hv h.2.symm)]
          exact hwf.recursive.1
      obtain ⟨j, hj, hne, hpres⟩ := hcand
      obtain ⟨w, hwd, hwj, hnone⟩ := hregion j hj hne
      have hpde : pdeOf (newTable mem cr3 v e x) cr3 w = e := by
        rw [pdeOf, hwd, tableEntry_newTable (palignDown_aligned _) (vmPdirIdx_lt v),
          if_neg (fun h => hij h.2.symm), if_pos ⟨rfl, rfl⟩]
      rw [walk_eq_none_iff, pteOf, hpde, hF, hwj] at hnone
      exact hnone.elim (fun h => h he) (fun h => h hpres)
    refine ⟨hij, fun j hj hne => ?_⟩
    obtain ⟨w, hwd, hwj, hnone⟩ := hregion j hj hne
    have hpde : pdeOf (newTable mem cr3 v e x) cr3 w = x := by
      rw [pdeOf, hwd, tableEntry_newTable (palignDown_aligned _) (vmPdirIdx_lt v),
        if_pos ⟨hF.symm, hij.symm⟩]
    rw [walk_eq_none_iff, pteOf, hpde, hwj,
      tableEntry_newTable (palignDown_aligned _) hj, if_neg (fun h => hne h.2),
      if_neg (fun h => hne (h.2.trans hij.symm))] at hnone
    exact hnone.elim (fun h => absurd hx h) id
  · rintro ⟨hij, hempty⟩ w hw hpage
    rw [hwTranslate_eq_iff]
    -- the only entry that changes is the directory entry of the region of `v`
    have hent : ∀ c j : BitVec 32, c.toNat % 4096 = 0 → j.toNat < 1024 →
        tableEntry (newTable mem cr3 v e x) c j
          = if c = palignDown cr3 ∧ j = vmPdirIdx v then x else tableEntry mem c j := by
      intro c j hc hj
      rw [tableEntry_newTable hc hj, hF, hij]
      split <;> simp_all
    by_cases hi : vmPdirIdx w = vmPdirIdx v
    · have hj : vmPtabIdx w ≠ vmPtabIdx v := fun hj => hpage (palignDown_eq_of_idx hi hj)
      have hpde : pdeOf (newTable mem cr3 v e x) cr3 w = x := by
        rw [pdeOf, hent _ _ (palignDown_aligned _) (vmPdirIdx_lt w), if_pos ⟨rfl, hi⟩]
      rw [walk_absent_region ha hi, walk_eq_none_iff, pteOf, hpde,
        hent _ _ (palignDown_aligned _) (vmPtabIdx_lt w), if_neg (fun h => hj (h.2.trans hij.symm))]
      exact Or.inr (hempty _ (vmPtabIdx_lt w) hj)
    · have h1023 := (lt_kernPtabs_iff w).mp hw
      have hpde : pdeOf (newTable mem cr3 v e x) cr3 w = pdeOf mem cr3 w := by
        rw [pdeOf, hent _ _ (palignDown_aligned _) (vmPdirIdx_lt w), if_neg (fun h => hi h.2),
          pdeOf]
      refine walk_congr (by rw [hpde]) fun hp => ?_
      have hpte : pteOf (newTable mem cr3 v e x) cr3 w = pteOf mem cr3 w := by
        rw [pteOf, hpde, hent _ _ (palignDown_aligned _) (vmPtabIdx_lt w),
          if_neg (fun h => hwf.table_ne hp h1023 h.1), pteOf]
      rw [hpte]
      exact ⟨Iff.rfl, rfl⟩

/-- **A new page table is harmless exactly when** `NewTableHarmless` says so. -/
theorem newTable_iff : KeepsOthers mem (newTable mem cr3 v e x) cr3 v
    ↔ NewTableHarmless mem cr3 (palignDown e) (palignDown x) v := by
  unfold NewTableHarmless
  rw [palignDown_palignDown x]
  by_cases hF : palignDown e = palignDown cr3
  · rw [newTable_iff_of_eq hwf hv ha he hx hF]
    simp only [hF, ne_eq, not_true_eq_false, false_and, false_or, true_and]
  · rw [newTable_iff_of_ne hwf hv ha he hx hF]
    simp only [hF, ne_eq, not_false_eq_true, true_and, false_and, or_false]

end NewTable

/-! ### The law -/

section Law

variable {τ : Type} [Tlb τ]

/-- `map_page(p, v, flags)` returns, and no page below the windows other than that of `v`
    translates differently afterwards. -/
def MapsOnly (p v flags : BitVec 32) (m : Machine τ) : Prop :=
  ∃ m', mapPage p v flags m = .ok ((), m') ∧ m'.cr3 = m.cr3 ∧ KeepsOthers m.mem m'.mem m.cr3 v

/-- The page entry `map_page` stores points to `p`. -/
theorem palignDown_entry {p flags : BitVec 32} (hf : flags.toNat < 4096) :
    palignDown (palignDown p ||| mapFlags flags) = palignDown p := by
  rw [mapFlags, palignDown_or (flags_lt hf), palignDown_palignDown]

/-- **Frame law of `map_page`.**  In a well-formed address space without stale translations,
    mapping an unmapped page changes the translation of that page only, exactly when its page
    table exists or the frame `pm_alloc` hands out for it is harmless as it is. -/
theorem mapPage_maps_only_iff {m : Machine τ} {p v flags : BitVec 32}
    (hc : Coherent m.tlb m.mem m.cr3) (hwf : WellFormed m.mem m.cr3) (hf : flags.toNat < 0x20)
    (hv : v.toNat < 0xffc00000) (hu : hwTranslate m.mem m.cr3 v = none) :
    MapsOnly p v flags m ↔ Present (pdeOf m.mem m.cr3 v) ∨
      NewTableHarmless m.mem m.cr3 (palignDown (pmAlloc m.pm).1) (palignDown p) v := by
  have hf' : flags.toNat < 4096 := by omega
  have h1023 := (lt_kernPtabs_iff v).mp hv
  have hpres : ∀ a : BitVec 32, Present (a ||| mapFlags flags) := fun a =>
    present_or_right (present_flags flags)
  by_cases hp : Present (pdeOf m.mem m.cr3 v)
  · -- the table exists: only its entry for `v` changes
    have ha : ¬ Present (pteOf m.mem m.cr3 v) := by
      have hw : walk m.mem m.cr3 v = none := Option.map_eq_none_iff.mp hu
      exact (walk_eq_none_iff.mp hw).resolve_left (fun h => h hp)
    obtain ⟨t, hrun, -⟩ := mapPage_absentPage (p := p) hc hwf.recursive hf' hp ha
    refine iff_of_true ⟨_, hrun, rfl, fun w hw hpage => ?_⟩ (Or.inl hp)
    rw [hwTranslate_eq_iff]
    exact walk_mapPage_absentPage hwf h1023 hf' hp hpage
  · obtain ⟨t, hrun, -⟩ := @mapPage_absentTable _ _ _ hc hwf.recursive p v flags hp
    have hiff := newTable_iff hwf h1023 hp (hpres (pmAlloc m.pm).1) (hpres (palignDown p))
    rw [palignDown_entry hf', mapFlags, palignDown_or (flags_lt hf')] at hiff
    rw [or_iff_right hp, ← hiff]
    constructor
    · rintro ⟨m', hrun', -, hk⟩
      rw [hrun, Except.ok.injEq, Prod.mk.injEq] at hrun'
      rw [← hrun'.2] at hk
      exact hk
    · intro hk
      exact ⟨_, hrun, rfl, hk⟩

end Law

/-- A directory at `0x1000`, and a pool whose first page is `0x2000`. -/
def lawMachine (mem : Mem) : Machine Unit :=
  { mem := mem, cr3 := 0x1000#32, tlb := (), pm := ⟨fun _ => 0#32, 0xe0002000#32⟩ }

/-- On cleared memory the law holds: the new table is empty. -/
theorem mapPage_maps_only_cleared :
    MapsOnly 0x7000#32 0#32 0#32 (lawMachine (blankSpace 0x1000#32)) := by
  have hd : (0x1000#32).toNat % 4096 = 0 := by decide
  refine (mapPage_maps_only_iff (fun _ _ h => absurd h (by simp [Tlb.lookup]))
    (wellFormed_blankSpace hd) (by decide) (by decide) (by decide +kernel)).mpr
    (Or.inr (Or.inl ?_))
  have hF : palignDown (pmAlloc (lawMachine (blankSpace 0x1000#32)).pm).1 = 0x2000#32 := by
    decide +kernel
  rw [hF]
  refine ⟨by decide, fun j hj _ => ?_, fun w hw hp _ => ?_⟩
  · exact blankSpace_absent hd (by decide) hj (fun h => absurd h (by decide))
  · exact absurd hp (blankSpace_absent hd (palignDown_aligned _) (vmPdirIdx_lt w)
      (fun _ => (lt_kernPtabs_iff w).mp hw))

/-- The same directory, with `0x2000` holding the entry `0x5003` in slot 1. -/
def staleFrameMem : Mem := write32 (blankSpace 0x1000#32) (0x2000#32 + 4#32 * 1#32) 0x5003#32

/-- **A stale entry in the new table.**  Mapping page 0 also maps page 1, to the frame
    `0x5000` that some earlier use of `0x2000` left behind. -/
theorem mapPage_maps_garbage :
    WellFormed staleFrameMem 0x1000#32 ∧ hwTranslate staleFrameMem 0x1000#32 0#32 = none ∧
      ¬ MapsOnly 0x7000#32 0#32 0#32 (lawMachine staleFrameMem) := by
  refine ⟨?_, by decide +kernel, ?_⟩
  · refine wellFormed_of_selfMap (by decide +kernel) fun i hi hne => ?_
    rw [staleFrameMem, tableEntry_write_of_ne (by decide) (palignDown_aligned _) (by decide) hi
      (Or.inl (by decide))]
    exact blankSpace_absent (by decide) (palignDown_aligned _) hi fun _ => hne
  · rintro ⟨m', hrun, -, hk⟩
    have hpage : (mapPage 0x7000#32 0#32 0#32 (lawMachine staleFrameMem)).toOption.map
        (fun r => hwTranslate r.2.mem 0x1000#32 0x1000#32) = some (some 0x5000#32) := by
      decide +kernel
    rw [hrun] at hpage
    have hafter : hwTranslate m'.mem 0x1000#32 0x1000#32 = some 0x5000#32 :=
      Option.some.inj hpage
    have hsame := hk 0x1000#32 (by decide) (by decide)
    rw [show (lawMachine staleFrameMem).cr3 = 0x1000#32 from rfl, hafter] at hsame
    exact absurd hsame (by decide +kernel)

end Leoman
