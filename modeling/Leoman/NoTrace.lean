import Leoman.UserWrites
import Leoman.MapPages

namespace Leoman

open ByteMem StateExcept Runs

/-!
# Windows leave no trace

A system call maps a window, copies through it and unmaps it again, and page tables it had to add
stay.  What the tables show is compared with the memory `mem₀` before the window:

* `Beyond mem₀ Q` — every address translates as it did in `mem₀`, but for those that read the
  table entry of a page in `Q`;
* `mapPage_beyond`, `unmapPage_beyond` — `map_page` puts its page into `Q`, `unmap_page` takes it
  out, whatever frames `pm_alloc` gives for tables;
* `mapPages_unmapPages` — so the pair of loops restores every translation;
* `IpcOp.Along` — where a call opens windows and where it stores to memory itself;
* `windows_leave_no_trace` — the calls, when what they store is in no table.
-/

/-! ### Between the two loops -/

/-- `w` reads the table entry that `q` does. -/
structure SameEntry (mem : Mem) (cr3 q w : BitVec 32) : Prop where
  left : Present (pdeOf mem cr3 q)
  right : Present (pdeOf mem cr3 w)
  table : palignDown (pdeOf mem cr3 q) = palignDown (pdeOf mem cr3 w)
  index : vmPtabIdx q = vmPtabIdx w

/-- It depends on the directory entries only. -/
theorem SameEntry.congr {mem mem' : Mem} {D q w : BitVec 32}
    (h : ∀ u, pdeOf mem' D u = pdeOf mem D u) : SameEntry mem' D q w ↔ SameEntry mem D q w := by
  constructor <;> rintro ⟨hl, hr, ht, hi⟩
  · rw [h] at hl hr ht
    rw [h] at ht
    exact ⟨hl, hr, ht, hi⟩
  · rw [← h] at hl hr ht
    rw [← h w] at ht
    exact ⟨hl, hr, ht, hi⟩

/-- The address space `D` shows in `mem` what it did in `mem₀`, beyond the pages `Q`. -/
structure Beyond (mem₀ mem : Mem) (D : BitVec 32) (Q : Set (BitVec 32)) : Prop where
  recursive : Recursive mem D
  tables : ∀ w, vmPdirIdx w ≠ 1023#32 → Present (pdeOf mem D w) →
    palignDown (pdeOf mem D w) ≠ palignDown D
  added : ∀ q ∈ Q, vmPdirIdx q ≠ 1023#32 ∧ Present (pdeOf mem D q) ∧
    ∀ w, vmPdirIdx w ≠ 1023#32 → SameEntry mem D q w → walk mem₀ D w = none
  walks : ∀ w, vmPdirIdx w ≠ 1023#32 → walk mem D w = walk mem₀ D w ∨ ∃ q ∈ Q, SameEntry mem D q w

section Tables

variable {mem₀ mem mem' : Mem} {D v w e x : BitVec 32} {Q : Set (BitVec 32)}

/-- An address space with nothing added. -/
theorem WellFormed.beyond (hwf : WellFormed mem D) : Beyond mem mem D ∅ :=
  ⟨hwf.recursive, fun _ hw hp => hwf.table_ne hp hw, fun _ hq => absurd hq (Set.notMem_empty _),
    fun _ _ => Or.inl rfl⟩

/-- With nothing added everything translates as it did. -/
theorem Beyond.restored (hb : Beyond mem₀ mem D ∅) (hw : w.toNat < 0xffc00000) :
    hwTranslate mem D w = hwTranslate mem₀ D w := by
  refine hwTranslate_congr ?_
  exact (hb.walks w ((lt_kernPtabs_iff w).mp hw)).resolve_right fun ⟨_, hq, _⟩ =>
    absurd hq (Set.notMem_empty _)

/-- What is not mapped now was not mapped. -/
theorem Beyond.unmapped (hb : Beyond mem₀ mem D Q) (hw : vmPdirIdx w ≠ 1023#32)
    (h : walk mem D w = none) : walk mem₀ D w = none := by
  rcases hb.walks w hw with heq | ⟨q, hq, hsame⟩
  · exact heq.symm.trans h
  · exact (hb.added q hq).2.2 w hw hsame

/-- A region without a table was not mapped. -/
theorem Beyond.no_table (hb : Beyond mem₀ mem D Q) (hw : vmPdirIdx w ≠ 1023#32)
    (h : ¬ Present (pdeOf mem D w)) : walk mem₀ D w = none :=
  hb.unmapped hw (walk_eq_none_iff.mpr (Or.inl h))

/-- Stores outside the directory and the tables keep their frames, … -/
theorem inUse_of_agree {F : BitVec 32} (hr : Recursive mem D)
    (h : ∀ y, InUse mem D (palignDown y) → mem' y = mem y) : InUse mem' D F ↔ InUse mem D F := by
  have hpde : ∀ w, pdeOf mem' D w = pdeOf mem D w := fun w =>
    tableEntry_congr (palignDown_aligned _) (vmPdirIdx_lt w) fun y hy =>
      h y (hy ▸ inUse_directory hr)
  simp only [InUse, hpde]

/-- … and what the address space shows. -/
theorem Beyond.of_agree (hb : Beyond mem₀ mem D Q)
    (h : ∀ y, InUse mem D (palignDown y) → mem' y = mem y) : Beyond mem₀ mem' D Q := by
  have hpde : ∀ w, pdeOf mem' D w = pdeOf mem D w := fun w =>
    tableEntry_congr (palignDown_aligned _) (vmPdirIdx_lt w) fun y hy =>
      h y (hy ▸ inUse_directory hb.recursive)
  have hsame : ∀ q w, SameEntry mem' D q w ↔ SameEntry mem D q w := fun q w => SameEntry.congr hpde
  refine ⟨hb.recursive.of_agree h, fun w hw hp => ?_, fun q hq => ?_, fun w hw => ?_⟩
  · rw [hpde] at hp ⊢
    exact hb.tables w hw hp
  · obtain ⟨hreg, hp, hshown⟩ := hb.added q hq
    exact ⟨hreg, (hpde q).symm ▸ hp, fun w hw hs => hshown w hw ((hsame q w).mp hs)⟩
  · rw [walk_of_agree hb.recursive h]
    exact (hb.walks w hw).imp_right fun ⟨q, hq, hs⟩ => ⟨q, hq, (hsame q w).mpr hs⟩

/-- `map_page` of a page that is mapped to the frame asked for: it reads the entry of a page
    added before. -/
theorem Beyond.already (hb : Beyond mem₀ mem D Q) (hv : vmPdirIdx v ≠ 1023#32)
    (hfree : walk mem₀ D v = none) (hp : Present (pdeOf mem D v)) (hp' : Present (pteOf mem D v)) :
    Beyond mem₀ mem D (insert v Q) := by
  have hmapped : walk mem D v ≠ none := fun h =>
    (walk_eq_none_iff.mp h).elim (fun ha => ha hp) fun ha => ha hp'
  obtain ⟨q, hq, hsame⟩ := (hb.walks v hv).resolve_left fun h => hmapped (h.trans hfree)
  refine ⟨hb.recursive, hb.tables, fun q' hq' => ?_, fun w hw => ?_⟩
  · rcases Set.mem_insert_iff.mp hq' with rfl | hq'
    · refine ⟨hv, hp, fun w hw hs => (hb.added q hq).2.2 w hw ?_⟩
      exact ⟨hsame.left, hs.right, hsame.table.trans hs.table, hsame.index.trans hs.index⟩
    · exact hb.added q' hq'
  · exact (hb.walks w hw).imp_right fun ⟨q, hq, hs⟩ => ⟨q, Set.mem_insert_of_mem v hq, hs⟩

/-- What `map_page` stores: a directory entry `e` whose table has no entry for `v`, and the entry
    `x`.  A table that is new to the region of `v` has no entries at all; other regions may have
    it, too. -/
structure Fills (mem : Mem) (D v e : BitVec 32) : Prop where
  present : Present e
  apart : palignDown e ≠ palignDown D
  kept : Present (pdeOf mem D v) → palignDown e = palignDown (pdeOf mem D v)
  empty : ¬ Present (tableEntry mem (palignDown e) (vmPtabIdx v))
  new : ¬ Present (pdeOf mem D v) →
    ∀ j : BitVec 32, j.toNat < 1024 → ¬ Present (tableEntry mem (palignDown e) j)

/-- A table in place stays in place. -/
theorem Fills.pde_kept (hf : Fills mem D v e) (hp : Present (pdeOf mem D w)) :
    Present (pdeOf (newTable mem D v e x) D w) ∧
      palignDown (pdeOf (newTable mem D v e x) D w) = palignDown (pdeOf mem D w) := by
  rw [pdeOf_newTable hf.apart]
  split
  · rename_i hi
    rw [pdeOf_congr hi] at hp ⊢
    exact ⟨hf.present, hf.kept hp⟩
  · exact ⟨hp, rfl⟩

/-- A region that has got its table is that of `v`. -/
theorem Fills.pde_new (hf : Fills mem D v e) (ha : ¬ Present (pdeOf mem D w))
    (hp : Present (pdeOf (newTable mem D v e x) D w)) :
    pdeOf (newTable mem D v e x) D w = e ∧ ¬ Present (pdeOf mem D v) := by
  rw [pdeOf_newTable hf.apart] at hp ⊢
  split
  · rename_i hi
    exact ⟨rfl, pdeOf_congr hi ▸ ha⟩
  · rename_i hi
    rw [if_neg hi] at hp
    exact absurd hp ha

/-- The directory entry that was stored. -/
theorem Fills.pde_self (hf : Fills mem D v e) : pdeOf (newTable mem D v e x) D v = e := by
  rw [pdeOf_newTable hf.apart, if_pos rfl]

/-- The directory stays apart from the tables. -/
theorem Fills.tables (hf : Fills mem D v e) (hb : Beyond mem₀ mem D Q) (hw : vmPdirIdx w ≠ 1023#32)
    (hp : Present (pdeOf (newTable mem D v e x) D w)) :
    palignDown (pdeOf (newTable mem D v e x) D w) ≠ palignDown D := by
  by_cases ha : Present (pdeOf mem D w)
  · rw [(hf.pde_kept ha).2]
    exact hb.tables w hw ha
  · rw [(hf.pde_new ha hp).1]
    exact hf.apart

/-- Nothing that reads the new entry was mapped. -/
theorem Fills.unmapped (hf : Fills mem D v e) (hb : Beyond mem₀ mem D Q)
    (hw : vmPdirIdx w ≠ 1023#32)
    (hs : SameEntry (newTable mem D v e x) D v w) : walk mem₀ D w = none := by
  by_cases hp : Present (pdeOf mem D w)
  · refine hb.unmapped hw (walk_eq_none_iff.mpr (Or.inr ?_))
    rw [pteOf, ← (hf.pde_kept hp).2, ← hs.table, hf.pde_self, ← hs.index]
    exact hf.empty
  · exact hb.no_table hw hp

/-- Whatever does not read it translates as before. -/
theorem Fills.walk_other (hf : Fills mem D v e) (hb : Beyond mem₀ mem D Q)
    (hw : vmPdirIdx w ≠ 1023#32) (hs : ¬ SameEntry (newTable mem D v e x) D v w) :
    walk (newTable mem D v e x) D w = walk mem D w := by
  have hself : pdeOf (newTable mem D v e x) D v = e := hf.pde_self
  by_cases hp' : Present (pdeOf (newTable mem D v e x) D w)
  · have hd := hf.tables hb hw hp'
    have hpte : pteOf (newTable mem D v e x) D w
        = tableEntry mem (palignDown (pdeOf (newTable mem D v e x) D w)) (vmPtabIdx w) := by
      rw [pteOf, tableEntry_newTable (palignDown_aligned _) (vmPtabIdx_lt w), if_neg,
        if_neg fun h => hd h.1]
      rintro ⟨ht, hi⟩
      exact hs ⟨by rw [hself]; exact hf.present, hp', by rw [hself, ht], hi.symm⟩
    by_cases hp : Present (pdeOf mem D w)
    · refine walk_congr (iff_of_true hp' hp) fun _ => ?_
      rw [hpte, (hf.pde_kept hp).2]
      exact ⟨Iff.rfl, rfl⟩
    · -- the new table is empty
      obtain ⟨he, ha⟩ := hf.pde_new hp hp'
      rw [walk_eq_none_iff.mpr (Or.inl hp), walk_eq_none_iff, hpte, he]
      exact Or.inr (hf.new ha _ (vmPtabIdx_lt w))
  · rw [walk_eq_none_iff.mpr (Or.inl hp'), walk_eq_none_iff.mpr]
    exact Or.inl fun hp => hp' (hf.pde_kept hp).1

/-- **The stores of `map_page`** add the page. -/
theorem Beyond.newTable (hb : Beyond mem₀ mem D Q) (hv : vmPdirIdx v ≠ 1023#32)
    (hf : Fills mem D v e) : Beyond mem₀ (newTable mem D v e x) D (insert v Q) := by
  refine ⟨?_, fun w hw hp => hf.tables hb hw hp, fun q hq => ?_, fun w hw => ?_⟩
  · have hslot : tableEntry (Leoman.newTable mem D v e x) (palignDown D) 1023#32
        = tableEntry mem (palignDown D) 1023#32 := by
      rw [tableEntry_newTable (palignDown_aligned _) (by decide), if_neg fun h => hf.apart h.1.symm,
        if_neg fun h => hv h.2.symm]
    unfold Recursive
    rw [hslot]
    exact hb.recursive
  · rcases Set.mem_insert_iff.mp hq with rfl | hq
    · refine ⟨hv, ?_, fun w hw hs => hf.unmapped hb hw hs⟩
      rw [hf.pde_self]
      exact hf.present
    · obtain ⟨hreg, hp, hshown⟩ := hb.added q hq
      obtain ⟨hp', hframe⟩ := hf.pde_kept (x := x) hp
      refine ⟨hreg, hp', fun w hw hs => ?_⟩
      by_cases hpw : Present (pdeOf mem D w)
      · refine hshown w hw ⟨hp, hpw, ?_, hs.index⟩
        rw [← hframe, hs.table, (hf.pde_kept hpw).2]
      · exact hb.no_table hw hpw
  · by_cases hs : SameEntry (Leoman.newTable mem D v e x) D v w
    · exact Or.inr ⟨v, Set.mem_insert v Q, hs⟩
    · rw [hf.walk_other hb hw hs]
      refine (hb.walks w hw).imp_right fun ⟨q, hq, hsame⟩ => ⟨q, Set.mem_insert_of_mem v hq, ?_⟩
      obtain ⟨hq', hqf⟩ := hf.pde_kept (x := x) hsame.left
      obtain ⟨hw', hwf⟩ := hf.pde_kept (x := x) hsame.right
      exact ⟨hq', hw', by rw [hqf, hwf, hsame.table], hsame.index⟩

/-- **The store of `unmap_page`** takes the page out. -/
theorem Beyond.clear (hb : Beyond mem₀ mem D Q) (hv : v ∈ Q) :
    Beyond mem₀ (setPte mem D v 0#32) D (Q \ {v}) := by
  obtain ⟨hreg, hp, hshown⟩ := hb.added v hv
  have hd := hb.tables v hreg hp
  have hpde : ∀ w, pdeOf (setPte mem D v 0#32) D w = pdeOf mem D w :=
    pdeOf_write (palignDown_aligned _) (vmPtabIdx_lt v) hd
  have hsame : ∀ q w, SameEntry (setPte mem D v 0#32) D q w ↔ SameEntry mem D q w := fun q w =>
    SameEntry.congr hpde
  refine ⟨?_, fun w hw hpw => ?_, fun q hq => ?_, fun w hw => ?_⟩
  · rw [recursive_iff, hpde]
    exact recursive_iff.mp hb.recursive
  · rw [hpde] at hpw ⊢
    exact hb.tables w hw hpw
  · obtain ⟨hregq, hpq, hshownq⟩ := hb.added q hq.1
    exact ⟨hregq, (hpde q).symm ▸ hpq, fun w hw hs => hshownq w hw ((hsame q w).mp hs)⟩
  · by_cases hs : SameEntry mem D v w
    · -- the entry is gone, and was not there before
      rw [hshown w hw hs]
      refine Or.inl ((walk_write_table_self (palignDown_aligned _) (vmPtabIdx_lt v) hd hs.right
        hs.table.symm hs.index.symm).trans ?_)
      rw [if_neg not_present_zero]
    · have hwalk : walk (setPte mem D v 0#32) D w = walk mem D w :=
        walk_setPte hd fun hpw ht hi => hs ⟨hp, hpw, ht.symm, hi.symm⟩
      rw [hwalk]
      refine (hb.walks w hw).imp_right fun ⟨q, hq, hsq⟩ => ⟨q, ⟨hq, ?_⟩, (hsame q w).mpr hsq⟩
      rintro rfl
      exact hs hsq

end Tables

/-! ### The two loops -/

/-- A window without pages. -/
theorem windowPages_zero (v : BitVec 32) : windowPages v 0 = ∅ := by
  ext q
  exact iff_of_false (fun ⟨_, hi, _⟩ => absurd hi (Nat.not_lt_zero _)) (Set.notMem_empty q)

/-- Pages one after the other that are all below the windows do not wrap around. -/
theorem window_end {v : BitVec 32} {n : Nat} (hva : v.toNat % 4096 = 0)
    (h : ∀ q ∈ windowPages v (n + 1), q.toNat < 0xffc00000) :
    v.toNat + 4096 * (n + 1) ≤ 0xffc00000 := by
  induction n with
  | zero =>
    have := h v ⟨0, by omega, pageAt_zero.symm⟩
    omega
  | succ n ih =>
    have hpage : (pageAt v (n + 1)).toNat = v.toNat + 4096 * (n + 1) := by
      have hprev := ih fun q ⟨i, hi, hq⟩ => h q ⟨i, by omega, hq⟩
      rw [pageAt, BitVec.toNat_add, BitVec.toNat_ofNat, Nat.mod_eq_of_lt (a := 4096 * (n + 1)),
        Nat.mod_eq_of_lt] <;> omega
    have hlast := h _ ⟨n + 1, by omega, rfl⟩
    rw [hpage] at hlast
    omega

section Loops

variable {τ : Type} [Tlb τ]

/-- The machine in between: what it retains of the two windows agrees with the tables. -/
structure Added (mem₀ : Mem) (D : BitVec 32) (Q : Set (BitVec 32)) (m : Machine τ) : Prop where
  cr3 : m.cr3 = D
  coherent : Coherent m.windowed.tlb m.mem D
  beyond : Beyond mem₀ m.mem D Q

/-- The next frame of `pm_alloc` is cleared. -/
def NextCleared (m : Machine τ) : Prop :=
  ∀ x, palignDown x = palignDown (pmAlloc m.pm).1 → m.mem x = 0#8

/-- Every frame `map_pages` takes for a table is cleared when it takes it. -/
def TablesCleared (flags : BitVec 32) : Nat → BitVec 32 → BitVec 32 → Machine τ → Prop
  | 0, _, _, _ => True
  | n + 1, p, v, m => (¬ Present (pdeOf m.mem m.cr3 v) → NextCleared m) ∧
    ∀ m', mapPage p v flags m = .ok ((), m') →
      TablesCleared flags n (p + pageSize) (v + pageSize) m'

variable {mem₀ : Mem} {D p v w flags sz : BitVec 32} {Q : Set (BitVec 32)} {m m' : Machine τ}

/-- At first nothing was added. -/
theorem Structured.added (hs : Structured m.windowed) : Added m.mem m.cr3 ∅ m :=
  ⟨rfl, hs.coherent, WellFormed.beyond hs.wellFormed⟩

/-- The machine is seen through its windows. -/
theorem added_of_windowed {M : Machine (Windowed τ)} (hM : m'.windowed = M) (hcr3 : M.cr3 = D)
    (hc : Coherent M.tlb M.mem D) (hb : Beyond mem₀ M.mem D Q) : Added mem₀ D Q m' := by
  subst hM
  exact ⟨hcr3, hc, hb⟩

/-- **`map_page`** puts its page into `Q`. -/
theorem mapPage_added (ha : Added mem₀ D Q m) (hv : vmPdirIdx v ≠ 1023#32)
    (hfree : walk mem₀ D v = none) (hf : flags.toNat < 0x20)
    (hz : ¬ Present (pdeOf m.mem m.cr3 v) → NextCleared m)
    (hrun : mapPage p v flags m = .ok ((), m')) : Added mem₀ D (insert v Q) m' := by
  obtain ⟨rfl, hc, hb⟩ := ha
  have hf' : flags.toNat < 4096 := by omega
  have hrun' := (mapPage_erases p v flags).ok hrun
  by_cases hp : Present (pdeOf m.mem m.cr3 v)
  · by_cases hp' : Present (pteOf m.mem m.cr3 v)
    · obtain ⟨t, hct, -, h⟩ := @mapPage_present _ _ m.windowed hc hb.recursive p v flags hp hp'
      rw [h] at hrun'
      split at hrun'
      · have hM : m'.windowed = { m.windowed with tlb := t } :=
          (Prod.mk.inj (Except.ok.inj hrun')).2.symm
        exact added_of_windowed hM rfl hct (hb.already hv hfree hp hp')
      · exact absurd hrun' (by simp)
    · obtain ⟨t, h, hct, -⟩ :=
        mapPage_absentPage (m := m.windowed) (p := p) hc hb.recursive hf' hp hp'
      have hframe := palignDown_or (e := pdeOf m.mem m.cr3 v) (flags_lt hf')
      have hfills : Fills m.mem m.cr3 v (pdeOf m.mem m.cr3 v ||| mapFlags flags) := by
        refine ⟨present_or_right (present_flags flags), ?_, fun _ => hframe, ?_,
          fun ha => absurd hp ha⟩ <;> rw [mapFlags, hframe]
        · exact hb.tables v hv hp
        · exact hp'
      have hM := (Prod.mk.inj (Except.ok.inj (hrun'.symm.trans h))).2
      exact added_of_windowed hM rfl (coherent_newTable hb.recursive hv hfills.apart hct)
        (hb.newTable hv hfills)
  · obtain ⟨t, h, hct, -⟩ := @mapPage_absentTable _ _ m.windowed hc hb.recursive p v flags hp
    have hframe := palignDown_or (e := (pmAlloc m.pm).1) (flags_lt hf')
    have hempty : ∀ j : BitVec 32, j.toNat < 1024 →
        ¬ Present (tableEntry m.mem (palignDown (pmAlloc m.pm).1) j) := fun j hj =>
      not_present_cleared (palignDown_aligned _) hj (hz hp)
    have hfills : Fills m.mem m.cr3 v ((pmAlloc m.pm).1 ||| mapFlags flags) := by
      refine ⟨present_or_right (present_flags flags), ?_, fun h => absurd h hp, ?_, fun _ => ?_⟩ <;>
        rw [mapFlags, hframe]
      · -- the directory is not cleared: it has the self-mapping
        intro heq
        exact hempty 1023#32 (by decide) (heq ▸ hb.recursive.1)
      · exact hempty _ (vmPtabIdx_lt v)
      · exact hempty
    have hM := (Prod.mk.inj (Except.ok.inj (hrun'.symm.trans h))).2
    exact added_of_windowed hM rfl (coherent_newTable hb.recursive hv hfills.apart hct)
      (hb.newTable hv hfills)

/-- **`unmap_page`** takes it out. -/
theorem unmapPage_added (ha : Added mem₀ D Q m) (hv : v ∈ Q) :
    ∃ m', unmapPage v m = .ok ((), m') ∧ Added mem₀ D (Q \ {v}) m' := by
  obtain ⟨rfl, hc, hb⟩ := ha
  obtain ⟨hreg, hp, -⟩ := hb.added v hv
  obtain ⟨t, h, hct, -⟩ := store_ptabSlot (m := m.windowed) hc hb.recursive hp 0#32
  have hrun : unmapPage v m.windowed = .ok ((), { m.windowed with
      mem := setPte m.mem m.cr3 v 0#32, tlb := t }) := by
    rw [unmapPage, ptabSlot_palignDown]
    exact h
  obtain ⟨m', hm', hM⟩ := (unmapPage_erases v).exists_ok hrun
  refine ⟨m', hm', added_of_windowed hM rfl ?_ (hb.clear hv)⟩
  refine coherent_of_keeps hct hb.recursive fun j hj hpj => ?_
  rw [tableEntry_setPte_dir (hb.tables v hreg hp) hj]
  exact ⟨hpj, rfl⟩

/-- The loop of `map_pages`. -/
theorem mapPagesLoop_added {n : Nat} (ha : Added mem₀ D Q m)
    (hfree : ∀ q ∈ windowPages v n, q.toNat < 0xffc00000 ∧ walk mem₀ D q = none)
    (hf : flags.toNat < 0x20) (hz : TablesCleared flags n p v m)
    (hrun : mapPagesLoop flags n p v m = .ok ((), m')) :
    Added mem₀ D (Q ∪ windowPages v n) m' := by
  induction n generalizing m p v Q with
  | zero =>
    obtain ⟨-, rfl⟩ := Prod.mk.inj (Except.ok.inj hrun)
    rwa [windowPages_zero, Set.union_empty]
  | succ n ih =>
    obtain ⟨⟨⟩, m₁, h₁, hrest⟩ := bind_ok_iff.mp hrun
    rw [windowPages_succ] at hfree ⊢
    obtain ⟨hv, hv₀⟩ := hfree v (Or.inl rfl)
    have ha₁ := mapPage_added ha ((lt_kernPtabs_iff v).mp hv) hv₀ hf hz.1 h₁
    have hloop := ih ha₁ (fun q hq => hfree q (Or.inr hq)) (hz.2 m₁ h₁) hrest
    rwa [← Set.union_singleton, Set.union_assoc] at hloop

/-- The loop of `unmap_pages`.  The tables are there, so it completes. -/
theorem unmapPagesLoop_added {n : Nat} (ha : Added mem₀ D Q m) (hva : v.toNat % 4096 = 0)
    (hend : v.toNat + 4096 * n ≤ 0xffc00000) (hq : windowPages v n ⊆ Q) :
    ∃ m', unmapPagesLoop n v m = .ok ((), m') ∧ Added mem₀ D (Q \ windowPages v n) m' := by
  induction n generalizing m v Q with
  | zero => exact ⟨m, rfl, by rwa [windowPages_zero, Set.sdiff_empty]⟩
  | succ n ih =>
    obtain ⟨hva', hend'⟩ := window_next hva hend
    have hfirst : v ∉ windowPages (v + pageSize) n := not_mem_windowPages hend
    rw [windowPages_succ] at hq ⊢
    obtain ⟨m₁, h₁, ha₁⟩ := unmapPage_added ha (hq (Or.inl rfl))
    have hrest : windowPages (v + pageSize) n ⊆ Q \ {v} := by
      intro q hqw
      refine ⟨hq (Or.inr hqw), ?_⟩
      rintro rfl
      exact hfirst hqw
    obtain ⟨m₂, h₂, ha₂⟩ := ih ha₁ hva' hend' hrest
    exact ⟨m₂, (run_bind_of_ok h₁).trans h₂, by rwa [Set.sdiff_sdiff] at ha₂⟩

/-- The window of `sz` bytes at `v` is below the directory's own, and nothing is mapped there. -/
def Vacant (mem : Mem) (cr3 v sz : BitVec 32) : Prop :=
  ∀ q ∈ windowPages (palignDown v) (pagesOf sz), q.toNat < 0xffc00000 ∧ walk mem cr3 q = none

/-- `map_pages` over a vacant window. -/
theorem mapPages_added (ha : Added mem₀ D ∅ m) (hfree : Vacant mem₀ D v sz)
    (hf : flags.toNat < 0x20)
    (hz : TablesCleared flags (pagesOf sz) (palignDown p) (palignDown v) m)
    (hrun : mapPages p v flags sz m = .ok ((), m')) :
    Added mem₀ D (windowPages (palignDown v) (pagesOf sz)) m' := by
  unfold mapPages at hrun
  split at hrun
  · rename_i hsz
    obtain ⟨-, rfl⟩ := Prod.mk.inj (Except.ok.inj hrun)
    rwa [hsz, show pagesOf 0#32 = 0 by decide, windowPages_zero]
  · have hloop := mapPagesLoop_added ha hfree hf hz hrun
    rwa [Set.empty_union] at hloop

/-- `unmap_pages` from any address of its first page. -/
theorem unmapPages_added {v' : BitVec 32}
    (ha : Added mem₀ D (windowPages (palignDown v) (pagesOf sz)) m) (hfree : Vacant mem₀ D v sz)
    (hv' : palignDown v' = palignDown v) :
    ∃ m', unmapPages v' sz m = .ok ((), m') ∧ Added mem₀ D ∅ m' := by
  unfold unmapPages
  split
  · rename_i hsz
    rw [hsz, show pagesOf 0#32 = 0 by decide, windowPages_zero] at ha
    exact ⟨m, rfl, ha⟩
  · rename_i hsz
    obtain ⟨n, hn⟩ : ∃ n, pagesOf sz = n + 1 := by
      have hpos : 0 < pagesOf sz := pagesOf_pos (Nat.pos_of_ne_zero fun h =>
        hsz (BitVec.eq_of_toNat_eq h))
      exact ⟨pagesOf sz - 1, by omega⟩
    have hend := window_end (palignDown_aligned v) fun q hq => (hfree q (hn ▸ hq)).1
    rw [hv', hn]
    rw [hn] at ha
    obtain ⟨m', hm', ha'⟩ := unmapPagesLoop_added ha (palignDown_aligned v) hend subset_rfl
    exact ⟨m', hm', by rwa [Set.sdiff_self] at ha'⟩

/-- **A window leaves no trace.**  After `map_pages` over pages that were not mapped,
    `unmap_pages` completes and every address below the directory's windows translates as it did
    before, whatever the page tables. -/
theorem mapPages_unmapPages {v' : BitVec 32} {m₁ : Machine τ} (hs : Structured m.windowed)
    (hfree : Vacant m.mem m.cr3 v sz) (hf : flags.toNat < 0x20)
    (hz : TablesCleared flags (pagesOf sz) (palignDown p) (palignDown v) m)
    (hv' : palignDown v' = palignDown v) (hrun : mapPages p v flags sz m = .ok ((), m₁)) :
    ∃ m₂, unmapPages v' sz m₁ = .ok ((), m₂) ∧ m₂.cr3 = m.cr3 ∧
      ∀ w : BitVec 32, w.toNat < 0xffc00000 →
        hwTranslate m₂.mem m₂.cr3 w = hwTranslate m.mem m.cr3 w := by
  have ha := mapPages_added hs.added hfree hf hz hrun
  obtain ⟨m₂, h₂, hcr3, -, hb⟩ := unmapPages_added ha hfree hv'
  refine ⟨m₂, h₂, hcr3, fun w hw => ?_⟩
  rw [hcr3]
  exact hb.restored hw

end Loops

/-! ### The accesses of a call -/

section Accesses

variable {τ : Type} [Tlb τ] {α β : Type}

/-- Whatever is added in `m` is what is added in `m'`. -/
def SameAdded (m m' : Machine τ) : Prop :=
  ∀ mem₀ D Q, Added mem₀ D Q m → Added mem₀ D Q m'

/-- The code adds nothing to the tables and takes nothing away. -/
def OnlyReads (x : Code Trap (Machine τ) α) : Prop := Keeps SameAdded x

/-- Nothing is read. -/
theorem OnlyReads.pure (a : α) : OnlyReads (pure a : Code Trap (Machine τ) α) :=
  Keeps.pure (R := SameAdded) (fun _ _ _ _ ha => ha) a

/-- One piece of code after the other. -/
theorem OnlyReads.bind {x : Code Trap (Machine τ) α} {f : α → Code Trap (Machine τ) β}
    (hx : OnlyReads x) (hf : ∀ a, OnlyReads (f a)) : OnlyReads (x >>= f) := by
  refine Keeps.bind (R := SameAdded) ?_ hx hf
  intro m₁ m₂ m₃ h h' mem₀ D Q ha
  exact h' mem₀ D Q (h mem₀ D Q ha)

/-- The machine is looked at. -/
theorem OnlyReads.get : OnlyReads (get : Code Trap (Machine τ) (Machine τ)) := by
  intro m a m' h
  obtain ⟨-, rfl⟩ := Prod.mk.inj (Except.ok.inj h)
  exact fun _ _ _ ha => ha

/-- What the TLB retains of a walk agrees with the tables. -/
theorem translate_onlyReads (v : BitVec 32) : OnlyReads (translate (τ := τ) v) := by
  intro m pa m' h mem₀ D Q ha
  unfold translate at h
  split at h
  · obtain ⟨-, rfl⟩ := Prod.mk.inj (Except.ok.inj h)
    exact ha
  · split at h
    · exact absurd h (by simp)
    · rename_i f hf
      obtain ⟨-, rfl⟩ := Prod.mk.inj (Except.ok.inj h)
      refine ⟨ha.cr3, fun q g hq => ?_, ha.beyond⟩
      rcases Tlb.lookup_fill (t := m.windowed.tlb) hq with ⟨rfl, rfl⟩ | hq
      · rw [walk_palignDown, ← ha.cr3]
        exact hf
      · exact ha.coherent q g hq

/-- A load of a byte, … -/
theorem load8_onlyReads (v : BitVec 32) : OnlyReads (load8 (τ := τ) v) :=
  (translate_onlyReads v).bind fun _ => OnlyReads.get.bind fun _ => .pure _

/-- … of a word, … -/
theorem load32_onlyReads (v : BitVec 32) : OnlyReads (load32 (τ := τ) v) :=
  (translate_onlyReads _).bind fun _ => (translate_onlyReads _).bind fun _ =>
    (translate_onlyReads _).bind fun _ => (translate_onlyReads _).bind fun _ =>
      OnlyReads.get.bind fun _ => .pure _

/-- … and of a page table entry. -/
theorem vmGetPhysMapping_onlyReads (v : BitVec 32) : OnlyReads (vmGetPhysMapping (τ := τ) v) :=
  (load32_onlyReads _).bind fun _ => .pure _

/-- The calls read their packets, … -/
theorem loadPacket_onlyReads (msg : BitVec 32) : OnlyReads (loadPacket (τ := τ) msg) :=
  (load32_onlyReads _).bind fun _ => (load32_onlyReads _).bind fun _ => (load32_onlyReads _).bind
    fun _ => (load32_onlyReads _).bind fun _ => (load32_onlyReads _).bind fun _ =>
      (load32_onlyReads _).bind fun _ => (load32_onlyReads _).bind fun _ =>
        (load32_onlyReads _).bind
        fun _ => (load32_onlyReads _).bind fun _ => .pure _

/-- … make those that they queue … -/
theorem sentPacket_onlyReads (pid msg : BitVec 32) : OnlyReads (sentPacket (τ := τ) pid msg) :=
  (loadPacket_onlyReads msg).bind fun _ => (vmGetPhysMapping_onlyReads _).bind fun _ =>
    (vmGetPhysMapping_onlyReads _).bind fun _ => .pure _

/-- … on either side, … -/
theorem waitingPacket_onlyReads (msg : BitVec 32) : OnlyReads (waitingPacket (τ := τ) msg) :=
  (loadPacket_onlyReads msg).bind fun _ => (vmGetPhysMapping_onlyReads _).bind fun _ =>
    (vmGetPhysMapping_onlyReads _).bind fun _ => .pure _

/-- … and fill in those that are queued: `send` … -/
theorem fillSendSide_onlyReads (n : MsgPacket) (pid msg : BitVec 32) :
    OnlyReads (fillSendSide (τ := τ) n pid msg) :=
  (load32_onlyReads _).bind fun _ => (load32_onlyReads _).bind fun _ =>
    (vmGetPhysMapping_onlyReads _).bind fun _ => .pure _

/-- … and `recv`. -/
theorem fillRecvSide_onlyReads (n : MsgPacket) (msg : BitVec 32) :
    OnlyReads (fillRecvSide (τ := τ) n msg) :=
  (load32_onlyReads _).bind fun _ => (load32_onlyReads _).bind fun _ =>
    (vmGetPhysMapping_onlyReads _).bind fun _ => .pure _

/-- None of the bytes is in the directory or a table of the address space. -/
def Spares (ys : List (BitVec 32)) (m : Machine τ) : Prop :=
  ∀ y ∈ ys, ¬ InUse m.mem m.cr3 (palignDown y)

/-- The physical bytes `store32` writes. -/
def store32Writes (v : BitVec 32) (m : Machine τ) : List (BitVec 32) :=
  match (do
    let pa₀ ← translate v
    let pa₁ ← translate (v + 1#32)
    let pa₂ ← translate (v + 2#32)
    let pa₃ ← translate (v + 3#32)
    return [pa₀, pa₁, pa₂, pa₃] : Code Trap (Machine τ) (List (BitVec 32))) m with
  | .ok (pas, _) => pas
  | .error _ => []

variable {mem₀ mem : Mem} {D v x dst src : BitVec 32} {Q : Set (BitVec 32)} {n : Nat}
  {m m' : Machine τ}

/-- Stores outside the directory and the tables. -/
theorem Added.store (ha : Added mem₀ D Q m)
    (h : ∀ y, InUse m.mem D (palignDown y) → mem y = m.mem y) :
    Added mem₀ D Q { m with mem := mem } :=
  ⟨ha.cr3, fun q g hq => (walk_of_agree ha.beyond.recursive h q).trans (ha.coherent q g hq),
    ha.beyond.of_agree h⟩

/-- **A word.** -/
theorem Added.store32 (ha : Added mem₀ D Q m) (hs : Spares (store32Writes v m) m)
    (h : Leoman.store32 v x m = .ok ((), m')) : Added mem₀ D Q m' := by
  obtain ⟨pa₀, m₁, h₁, h⟩ := bind_ok_iff.mp h
  obtain ⟨pa₁, m₂, h₂, h⟩ := bind_ok_iff.mp h
  obtain ⟨pa₂, m₃, h₃, h⟩ := bind_ok_iff.mp h
  obtain ⟨pa₃, m₄, h₄, h⟩ := bind_ok_iff.mp h
  obtain ⟨-, rfl⟩ := Prod.mk.inj (Except.ok.inj h)
  have ha₁ := translate_onlyReads _ _ _ _ h₁ _ _ _ ha
  have ha₂ := translate_onlyReads _ _ _ _ h₂ _ _ _ ha₁
  have ha₃ := translate_onlyReads _ _ _ _ h₃ _ _ _ ha₂
  have ha₄ := translate_onlyReads _ _ _ _ h₄ _ _ _ ha₃
  have hmem : m₄.mem = m.mem := by
    rw [translate_mem h₄, translate_mem h₃, translate_mem h₂, translate_mem h₁]
  have hwrites : store32Writes v m = [pa₀, pa₁, pa₂, pa₃] := by
    rw [store32Writes, run_bind_of_ok h₁, run_bind_of_ok h₂, run_bind_of_ok h₃, run_bind_of_ok h₄]
    rfl
  refine ha₄.store fun y hy => ?_
  rw [hmem, ← ha.cr3] at hy
  have hne : ∀ pa ∈ store32Writes v m, y ≠ pa := fun pa hpa heq => hs pa hpa (heq ▸ hy)
  rw [hwrites] at hne
  simp only [write8, Function.update_of_ne (hne pa₃ (by simp)),
    Function.update_of_ne (hne pa₂ (by simp)),
    Function.update_of_ne (hne pa₁ (by simp)), Function.update_of_ne (hne pa₀ (by simp))]

/-- **A copy.** -/
theorem Added.memcpy (ha : Added mem₀ D Q m) (hs : Spares (memcpyWrites dst src n m) m)
    (h : Leoman.memcpy dst src n m = .ok ((), m')) : Added mem₀ D Q m' := by
  induction n generalizing dst src m with
  | zero =>
    obtain ⟨-, rfl⟩ := Prod.mk.inj (Except.ok.inj h)
    exact ha
  | succ n ih =>
    obtain ⟨b, m₁, hload, h⟩ := bind_ok_iff.mp h
    obtain ⟨⟨⟩, m₂, hstore, h⟩ := bind_ok_iff.mp h
    obtain ⟨pa, m₃, hpa, hput⟩ := bind_ok_iff.mp hstore
    obtain ⟨-, rfl⟩ := Prod.mk.inj (Except.ok.inj hput)
    have ha₁ := load8_onlyReads _ _ _ _ hload _ _ _ ha
    have ha₃ := translate_onlyReads _ _ _ _ hpa _ _ _ ha₁
    have hmem : m₃.mem = m.mem := (translate_mem hpa).trans (load8_mem hload)
    rw [memcpyWrites, hload] at hs
    simp only [hpa] at hs
    have hfirst : ∀ y, InUse m₃.mem D (palignDown y) → write8 m₃.mem pa b y = m₃.mem y := by
      intro y hy
      refine Function.update_of_ne ?_ _ _
      rintro rfl
      rw [hmem, ← ha.cr3] at hy
      exact hs y List.mem_cons_self hy
    -- the directory entries are the same, so the rest spares the same frames
    refine ih (ha₃.store hfirst) (fun y hy hu => hs y (List.mem_cons_of_mem _ hy) ?_) h
    rw [ha.cr3, ← hmem]
    rw [show ({ m₃ with mem := write8 m₃.mem pa b } : Machine τ).cr3 = D from ha₃.cr3] at hu
    exact (inUse_of_agree ha₃.beyond.recursive hfirst).mp hu

end Accesses

/-! ### Along a call -/

section Along

variable {τ : Type} [Tlb τ] (P : BitVec 32 → BitVec 32 → BitVec 32 → Machine τ → Prop)
  (R : List (BitVec 32) → Machine τ → Prop)

/-- Along the copy into the buffer of a packet: `P p v sz` where a window is opened, `R` of the
    bytes that are stored. -/
def throughAlong (W : BitVec 32) (n : MsgPacket) (msg : BitVec 32) (m : Machine τ) : Prop :=
  P n.physRecvBuf W n.recvLen m ∧ ∀ sendBuf m₁, openBuffer W n msg m = .ok (sendBuf, m₁) →
    R (memcpyWrites (W + pageOffset n.recvBuf) sendBuf n.recvLen.toNat m₁) m₁

/-- Along `reportSender`. -/
def reportAlong (n : MsgPacket) (m : Machine τ) : Prop :=
  P n.physMsgPacket (msgWindow + pageOffset n.physMsgPacket) msgPacketSize m ∧
    ∀ m₁, mapPages n.physMsgPacket (msgWindow + pageOffset n.physMsgPacket) 0#32 msgPacketSize m
        = .ok ((), m₁) →
      R (store32Writes (msgWindow + pageOffset n.physMsgPacket) m₁) m₁

/-- Along `copyFromSender`. -/
def fromSenderAlong (n : MsgPacket) (msg : BitVec 32) (m : Machine τ) : Prop :=
  P n.physSendBuf msgWindow n.sendLen m ∧ ∀ buf m₁, openMessage n msg m = .ok (buf, m₁) →
    R (memcpyWrites buf.1 (msgWindow + pageOffset n.sendBuf) buf.2.toNat m₁) m₁ ∧
    ∀ m₂ m₃, memcpy buf.1 (msgWindow + pageOffset n.sendBuf) buf.2.toNat m₁ = .ok ((), m₂) →
      unmapPages (msgWindow + pageOffset n.sendBuf) n.sendLen m₂ = .ok ((), m₃) →
      R (store32Writes msg m₃) m₃

/-- Along `STAILQ_INSERT_TAIL` of a packet that `x` makes: the store through `NULL` where the head
    was never initialised. -/
def insertAlong (q : RecvQueue) (x : Code Trap (Machine τ) MsgPacket) (m : Machine τ) : Prop :=
  q.inited = false → q.stray = [] →
    ∀ n m₁, x m = .ok (n, m₁) → R (store32Writes 0#32 m₁) m₁

/-- Along `sendTo`. -/
def sendAlong (k : Kernel τ) (c r : Slot) (msg : BitVec 32) (m : Machine τ) : Prop :=
  if (k.procs r).state = .recvBlocked then
    ∀ n q filled m₁, (k.procs r).recvQueue.msgs = n :: q →
      fillSendSide n.msg (k.procs c).pid msg m = .ok (filled, m₁) →
      throughAlong P R recvBufWindow filled msg m₁ ∧
        ∀ m₂, copyToReceiver filled msg m₁ = .ok ((), m₂) → reportAlong P R filled m₂
  else insertAlong R (k.procs r).recvQueue (sentPacket (k.procs c).pid msg) m

/-- Along `receive`. -/
def receiveAlong (k : Kernel τ) (c : Slot) (msg : BitVec 32) : Prop :=
  match (k.procs c).recvQueue.msgs with
  | [] => insertAlong R (k.procs c).recvQueue (waitingPacket msg) k.mach
  | n :: _ => fromSenderAlong P R n.msg msg k.mach

/-- Along `reply`: the last store is the one through `NULL` for a sender nobody knows. -/
def replyAlong (k : Kernel τ) (c : Slot) (msg : BitVec 32) : Prop :=
  match (k.procs c).recvQueue.msgs with
  | [] => True
  | n :: _ => throughAlong P R replyWindow n.msg msg k.mach ∧
      (k.procFindByPid n.msg.sender = none →
        ∀ m, copyResponse n.msg msg k.mach = .ok ((), m) → R (store32Writes 4#32 m) m)

/-- Along a call, wherever it opens a window and wherever it stores to memory itself. -/
def IpcOp.Along (k : Kernel τ) : IpcOp τ → Prop
  | .send msg _ => ∀ c receiver m r, k.currentProc = some c →
      load32 (receiverField msg) k.mach = .ok (receiver, m) →
      k.procFindByPid receiver = some r → sendAlong P R k c r msg m
  | .recv msg _ => ∀ c, k.currentProc = some c → receiveAlong P R k c msg
  | .reply msg _ => ∀ c, k.currentProc = some c → replyAlong P R k c msg
  | .tick _ | .other _ _ => True

end Along

/-- A window that a call which began in `mem₀` may open: it is vacant, and tables that are new to it
    are cleared. -/
structure Opens {τ : Type} [Tlb τ] (mem₀ : Mem) (D p v sz : BitVec 32) (m : Machine τ) : Prop where
  vacant : Vacant mem₀ D v sz
  cleared : TablesCleared 0#32 (pagesOf sz) (palignDown p) (palignDown v) m

section Calls

variable {τ : Type} [Tlb τ] {mem₀ : Mem} {D W x msg pid : BitVec 32} {n : MsgPacket}
  {m m' : Machine τ} {k k' : Kernel τ} {c r : Slot}

/-- A window that may be opened: its pages are what is added. -/
theorem Opens.mapPages {p v sz : BitVec 32} (ho : Opens mem₀ D p v sz m) (ha : Added mem₀ D ∅ m)
    (h : Leoman.mapPages p v 0#32 sz m = .ok ((), m')) :
    Added mem₀ D (windowPages (palignDown v) (pagesOf sz)) m' :=
  mapPages_added ha ho.vacant (by decide) ho.cleared h

/-- The pages that were added are taken out. -/
theorem Added.unmapPages {v v' sz : BitVec 32}
    (ha : Added mem₀ D (windowPages (palignDown v) (pagesOf sz)) m) (hfree : Vacant mem₀ D v sz)
    (hv' : palignDown v' = palignDown v) (h : Leoman.unmapPages v' sz m = .ok ((), m')) :
    Added mem₀ D ∅ m' := by
  obtain ⟨m₁, h₁, ha₁⟩ := unmapPages_added ha hfree hv'
  obtain rfl := (Prod.mk.inj (Except.ok.inj (h.symm.trans h₁))).2
  exact ha₁

/-- A copy into the buffer of a packet. -/
theorem copyThrough_added {y : Code Trap (Machine τ) Unit}
    (hy : y = (do
      let sendBuf ← openBuffer W n msg
      memcpy (W + pageOffset n.recvBuf) sendBuf n.recvLen.toNat
      unmapPages W n.recvLen))
    (ha : Added mem₀ D ∅ m) (hal : throughAlong (Opens mem₀ D) Spares W n msg m)
    (h : y m = .ok ((), m')) : Added mem₀ D ∅ m' := by
  obtain ⟨ho, hspare⟩ := hal
  rw [hy] at h
  obtain ⟨sendBuf, m₁, hopen, h⟩ := bind_ok_iff.mp h
  obtain ⟨⟨⟩, m₂, hcopy, hclose⟩ := bind_ok_iff.mp h
  have hs := hspare sendBuf m₁ hopen
  obtain ⟨⟨⟩, m₀, hmap, hload⟩ := bind_ok_iff.mp hopen
  have ha₁ := load32_onlyReads _ _ _ _ hload _ _ _ (ho.mapPages ha hmap)
  exact (ha₁.memcpy hs hcopy).unmapPages ho.vacant rfl hclose

/-- The report of the sender closes what it opens. -/
theorem reportSender_added (ha : Added mem₀ D ∅ m)
    (hal : reportAlong (Opens mem₀ D) Spares n m) (h : reportSender n pid m = .ok ((), m')) :
    Added mem₀ D ∅ m' := by
  obtain ⟨ho, hspare⟩ := hal
  obtain ⟨⟨⟩, m₁, hmap, h⟩ := bind_ok_iff.mp h
  obtain ⟨⟨⟩, m₂, hstore, hclose⟩ := bind_ok_iff.mp h
  exact ((ho.mapPages ha hmap).store32 (hspare m₁ hmap) hstore).unmapPages ho.vacant rfl hclose

/-- So does the copy of a message that waits. -/
theorem copyFromSender_added (ha : Added mem₀ D ∅ m)
    (hal : fromSenderAlong (Opens mem₀ D) Spares n msg m)
    (h : copyFromSender n msg m = .ok ((), m')) : Added mem₀ D ∅ m' := by
  obtain ⟨ho, hspare⟩ := hal
  rw [copyFromSender_eq] at h
  obtain ⟨buf, m₁, hopen, h⟩ := bind_ok_iff.mp h
  obtain ⟨⟨⟩, m₂, hcopy, h⟩ := bind_ok_iff.mp h
  obtain ⟨⟨⟩, m₃, hclose, hstore⟩ := bind_ok_iff.mp h
  obtain ⟨hs, hs'⟩ := hspare buf m₁ hopen
  obtain ⟨⟨⟩, m₀, hmap, hopen⟩ := bind_ok_iff.mp hopen
  obtain ⟨_, m₅, h₅, hopen⟩ := bind_ok_iff.mp hopen
  obtain ⟨_, m₆, h₆, hopen⟩ := bind_ok_iff.mp hopen
  obtain ⟨-, rfl⟩ := Prod.mk.inj (Except.ok.inj hopen)
  have ha₅ := load32_onlyReads _ _ _ _ h₅ _ _ _ (ho.mapPages ha hmap)
  have ha₆ := load32_onlyReads _ _ _ _ h₆ _ _ _ ha₅
  -- `unmap_pages` gets the address of the message, in the first page of the window
  have hpage : palignDown (msgWindow + pageOffset n.sendBuf) = palignDown msgWindow :=
    palignDown_frame_add (by decide)
  exact ((ha₆.memcpy hs hcopy).unmapPages ho.vacant hpage hclose).store32 (hs' m₂ m₃ hcopy hclose)
    hstore

/-- A packet is put into a queue. -/
theorem insertTail_added {e : MsgPacketQueue} {y : Code Trap (Machine τ) MsgPacket}
    (ha : Added mem₀ D ∅ k.mach) (hal : insertAlong Spares (k.procs r).recvQueue y m)
    (hy : y m = .ok (n, k.mach)) (h : insertTail r e k = .ok ((), k')) :
    Added mem₀ D ∅ k'.mach := by
  rcases insertTail_ok h with ⟨-, rfl⟩ | ⟨hin, k₁, h₁, rfl⟩
  · exact ha
  · rcases onlyIf_ok h₁ with ⟨hstray, h₁⟩ | ⟨-, rfl⟩
    · obtain ⟨m₁, hstore, rfl⟩ := onMach_ok_iff.mp h₁
      exact ha.store32 (hal hin hstray n _ hy) hstore
    · exact ha

/-- A send to a process that does not wait. -/
theorem queuePacket_added (ha : Added mem₀ D ∅ k.mach)
    (hal : insertAlong Spares (k.procs r).recvQueue (sentPacket (k.procs c).pid msg) k.mach)
    (h : queuePacket c r msg k = .ok ((), k')) : Added mem₀ D ∅ k'.mach := by
  obtain ⟨addr, heap, packet, m, k₁, -, -, hm, hins, rfl⟩ := queuePacket_ok h
  have ha₁ : Added mem₀ D ∅ k₁.mach :=
    insertTail_added (k := { k with heap := heap, mach := m })
      (sentPacket_onlyReads _ _ _ _ _ hm _ _ _ ha) hal hm hins
  exact ha₁

/-- A send to a process that waits. -/
theorem fillPlaceholder_added (ha : Added mem₀ D ∅ k.mach) (hst : (k.procs r).state = .recvBlocked)
    (hal : sendAlong (Opens mem₀ D) Spares k c r msg k.mach)
    (h : fillPlaceholder c r msg k = .ok ((), k')) : Added mem₀ D ∅ k'.mach := by
  rw [sendAlong, if_pos hst] at hal
  obtain ⟨n, rest, filled, m₁, m₂, m₃, full, hn, hsend, hcopy, hreport, hrecv, -⟩ :=
    fillPlaceholder_ok h
  -- on the machine: two windows, and reads of the caller's packet
  obtain ⟨hthrough, hspares⟩ := hal n rest filled m₁ hn hsend
  have ha₁ := fillSendSide_onlyReads _ _ _ _ _ _ hsend _ _ _ ha
  have ha₂ := copyThrough_added (copyToReceiver_eq filled msg) ha₁ hthrough hcopy
  have ha₃ := reportSender_added ha₂ (hspares m₂ hcopy) hreport
  exact fillRecvSide_onlyReads _ _ _ _ _ hrecv _ _ _ ha₃

/-- `send`, to a process there is. -/
theorem sendTo_added (ha : Added mem₀ D ∅ k.mach)
    (hal : sendAlong (Opens mem₀ D) Spares k c r msg k.mach)
    (h : sendTo c r msg k = .ok ((), k')) : Added mem₀ D ∅ k'.mach := by
  rcases sendTo_ok h with ⟨hst, hfill⟩ | ⟨hne, k₁, hput, hrest⟩
  · exact fillPlaceholder_added ha hst hal hfill
  · rw [sendAlong, if_neg hne] at hal
    have ha₁ := queuePacket_added ha hal hput
    -- a state is written at most
    rcases hrest with ⟨-, rfl⟩ | ⟨-, rfl⟩
    · exact ha₁
    · exact ha₁

/-- `recv`. -/
theorem receive_added (ha : Added mem₀ D ∅ k.mach)
    (hal : receiveAlong (Opens mem₀ D) Spares k c msg) (h : receive c msg k = .ok ((), k')) :
    Added mem₀ D ∅ k'.mach := by
  unfold receiveAlong at hal
  rcases receive_ok h with ⟨hq, addr, heap, packet, m, -, -, hm, hins⟩ | ⟨n, rest, m, hq, hm, rfl⟩
  · simp only [hq] at hal
    refine insertTail_added ?_ ?_ hm hins
    · exact waitingPacket_onlyReads _ _ _ _ hm _ _ _ ha
    · exact (updState_keeps k c c _).1.symm ▸ hal
  · simp only [hq] at hal
    exact copyFromSender_added ha hal hm

/-- `reply`. -/
theorem reply_added (ha : Added mem₀ D ∅ k.mach)
    (hal : replyAlong (Opens mem₀ D) Spares k c msg) (h : reply c msg k = .ok ((), k')) :
    Added mem₀ D ∅ k'.mach := by
  unfold replyAlong at hal
  rcases reply_ok h with ⟨-, rfl⟩ | ⟨n, rest, m, k₁, hq, hm, hwake, rfl⟩
  · exact ha
  · simp only [hq] at hal
    obtain ⟨hthrough, hnull⟩ := hal
    have ha₁ := copyThrough_added (copyResponse_eq n.msg msg) ha hthrough hm
    cases hs : k.procFindByPid n.msg.sender with
    | none =>
      simp only [hs, awaken] at hwake
      obtain ⟨m', hstore, rfl⟩ := onMach_ok_iff.mp hwake
      exact ha₁.store32 (hnull hs m hm) hstore
    | some s =>
      simp only [hs, awaken] at hwake
      obtain ⟨-, rfl⟩ := Prod.mk.inj (Except.ok.inj hwake)
      exact ha₁

/-- The end of a call leaves memory alone. -/
theorem Added.callEnd {frame : BitVec 32} {k₁ : Kernel τ} (ha : Added mem₀ D ∅ k₁.mach)
    (h : (do procEnableScheduling; procScheduleWithoutIrq frame : Code Trap (Kernel τ) Unit) k₁
      = .ok ((), k')) : Beyond mem₀ k'.mach.mem D ∅ :=
  (callEnd_silent h).2 ▸ ha.beyond

/-- **A call leaves no trace** if its windows may be opened and what it stores itself is in no
    table. -/
theorem ipcCall_leaves_no_trace {op : IpcOp τ} (hs : Structured k.mach.windowed)
    (hcall : op.isCall = true) (hal : op.Along (Opens k.mach.mem k.mach.cr3) Spares k)
    (h : op.exec k = .ok ((), k')) : Beyond k.mach.mem k'.mach.mem k.mach.cr3 ∅ := by
  have ha : Added k.mach.mem k.mach.cr3 ∅ k.mach := hs.added
  cases op with
  | send msg frame =>
    obtain ⟨c, pid, m, hc, hm, -, hcases⟩ := syscallSendMsg_ok h
    have ha₁ : Added k.mach.mem k.mach.cr3 ∅ m := load32_onlyReads _ _ _ _ hm _ _ _ ha
    rcases hcases with ⟨-, rfl⟩ | ⟨r, k₁, hr, hsend, hend⟩
    · exact ha₁.beyond
    · exact (sendTo_added (k := { k with schedulingEnabled := false, mach := m }) ha₁
        (hal c pid m r hc hm hr) hsend).callEnd hend
  | recv msg frame =>
    obtain ⟨c, k₁, hc, hrun, hend⟩ := syscallRecvMsg_ok h
    exact (receive_added (k := { k with schedulingEnabled := false }) ha (hal c hc) hrun).callEnd
      hend
  | reply msg frame =>
    obtain ⟨c, k₁, hc, hrun, hend⟩ := syscallRplyMsg_ok h
    exact (reply_added (k := { k with schedulingEnabled := false }) ha (hal c hc) hrun).callEnd
      hend
  | tick frame => exact absurd hcall (by simp [IpcOp.isCall])
  | other mach scheduling => exact absurd hcall (by simp [IpcOp.isCall])

end Calls

/-- Copies that stay in a buffer of user memory spare the tables. -/
theorem WindowReady.spares {K dirs : Set (BitVec 32)} {k : Kernel Unit} {d : DataCopy Unit}
    {op : IpcOp Unit} (hr : WindowReady K dirs k d) (h : op.copy k = some d) (hb : d.InBuffer k) :
    Spares d.writes d.mach := by
  have hw := (hr.opened h).paging
  rintro y hy ⟨w, hp, hf⟩
  exact hr.apart _ (hb y hy) (hf ▸ hw.spaces.tables _ hw.current w hp)

/-- **Temporary windows.**  Of any address space with the self-mapping and its tables in distinct
    frames: `map_pages` over pages that are not mapped, then `unmap_pages` from the same page, and
    every address below `0xffc00000` translates as before.  So it does after a call whose windows
    are vacant, as long as the bytes the call stores are in no page table and not in the
    directory. -/
theorem windows_leave_no_trace {τ : Type} [Tlb τ] :
    (∀ {m m₁ : Machine τ} {p v v' flags sz : BitVec 32}, Structured m.windowed →
      Vacant m.mem m.cr3 v sz → flags.toNat < 0x20 →
      TablesCleared flags (pagesOf sz) (palignDown p) (palignDown v) m →
      palignDown v' = palignDown v → mapPages p v flags sz m = .ok ((), m₁) →
      ∃ m₂, unmapPages v' sz m₁ = .ok ((), m₂) ∧ m₂.cr3 = m.cr3 ∧
        ∀ w : BitVec 32, w.toNat < 0xffc00000 →
          hwTranslate m₂.mem m₂.cr3 w = hwTranslate m.mem m.cr3 w) ∧
    (∀ {k k' : Kernel τ} {op : IpcOp τ}, Structured k.mach.windowed → op.isCall = true →
      op.Along (Opens k.mach.mem k.mach.cr3) Spares k → op.exec k = .ok ((), k') →
      ∀ w : BitVec 32, w.toNat < 0xffc00000 →
        hwTranslate k'.mach.mem k.mach.cr3 w = hwTranslate k.mach.mem k.mach.cr3 w) :=
  ⟨fun hs hfree hf hz hv' hrun => mapPages_unmapPages hs hfree hf hz hv' hrun,
    fun hs hcall hal h _ hw => (ipcCall_leaves_no_trace hs hcall hal h).restored hw⟩

/-! ### The small system -/

section Small

open Exchange

variable {m : Machine Unit} {p W : BitVec 32}

/-- The tables of the small system are well formed. -/
theorem structured_sameTables (h : SameTables m.mem) (hcur : m.cr3 ∈ exchangeDirs) :
    Structured m.windowed := by
  have hs := spaces_sameTables h
  refine ⟨fun q g hq => absurd hq (by simp [Tlb.lookup]), hs.recursive _ hcur, ?_⟩
  intro i j hi hj hpi hpj heq
  obtain ⟨w, rfl, -⟩ := exists_idx hi (show (0#32).toNat < 1024 by decide)
  obtain ⟨u, rfl, -⟩ := exists_idx hj (show (0#32).toNat < 1024 by decide)
  exact hs.apart _ hcur _ hcur w u hpi hpj heq

/-- A page outside the first and the last region is a window for two bytes. -/
theorem opens_sameTables (h : SameTables m.mem) (hcur : m.cr3 ∈ exchangeDirs)
    (hpm : m.pm = (exchangeKernel false).mach.pm) (hW : palignDown W = W)
    (h₀ : vmPdirIdx W ≠ 0#32) (h₁ : vmPdirIdx W ≠ 1023#32) : Opens m.mem m.cr3 p W 2#32 m := by
  have hnext : palignDown (pmAlloc m.pm).1 = 0x100000#32 := by
    rw [hpm]
    decide +kernel
  constructor
  · rintro q ⟨i, hi, rfl⟩
    obtain rfl : i = 0 := Nat.lt_one_iff.mp hi
    rw [hW, pageAt_zero]
    refine ⟨(lt_kernPtabs_iff W).mpr h₁, ?_⟩
    rw [(spaces_exchange (b := false)).walk_agree h hcur]
    exact unmapped_exchange hcur h₀ h₁
  · refine ⟨fun _ x hx => ?_, fun _ _ => trivial⟩
    rw [hnext] at hx
    rw [h x (hx ▸ by decide)]
    exact (supply_exchange (b := false)).cleared 0x100000#32 (by decide +kernel) x hx

/-- The window of a reply, opened by hand and by the call. -/
theorem windows_leave_no_trace_served :
    (∃ m₁ m₂, mapPages 0x5200#32 replyWindow 0#32 2#32 servedKernel.mach = .ok ((), m₁) ∧
      unmapPages (replyWindow + 0x200#32) 2#32 m₁ = .ok ((), m₂) ∧
      ∀ w : BitVec 32, w.toNat < 0xffc00000 → hwTranslate m₂.mem m₂.cr3 w
        = hwTranslate servedKernel.mach.mem servedKernel.mach.cr3 w) ∧
    ∃ k', (IpcOp.reply 0x5040#32 0#32).exec servedKernel = .ok ((), k') ∧
      ∀ w : BitVec 32, w.toNat < 0xffc00000 → hwTranslate k'.mach.mem servedKernel.mach.cr3 w
        = hwTranslate servedKernel.mach.mem servedKernel.mach.cr3 w := by
  have hsame : SameTables servedKernel.mach.mem := fun _ _ => rfl
  have hcur : servedKernel.mach.cr3 ∈ exchangeDirs := by decide
  have hs := structured_sameTables hsame hcur
  have ho : Opens servedKernel.mach.mem servedKernel.mach.cr3 0x5200#32 replyWindow 2#32
      servedKernel.mach := opens_sameTables hsame hcur rfl (by decide) (by decide) (by decide)
  constructor
  · have hrun : (mapPages 0x5200#32 replyWindow 0#32 2#32 servedKernel.mach).toOption.map
        (fun _ => true) = some true := by
      decide +kernel
    obtain ⟨⟨⟩, m₁, hm₁, -⟩ := ok_of_test hrun
    have hpage : palignDown (replyWindow + 0x200#32) = palignDown replyWindow := by decide
    obtain ⟨m₂, hm₂, -, hwalks⟩ :=
      windows_leave_no_trace.1 hs ho.vacant (by decide) ho.cleared hpage hm₁
    exact ⟨m₁, m₂, hm₁, hm₂, hwalks⟩
  · have hrun : ((IpcOp.reply 0x5040#32 0#32).exec servedKernel).toOption.map
        (fun _ => true) = some true := by
      decide +kernel
    obtain ⟨⟨⟩, k', hk', -⟩ := ok_of_test hrun
    refine ⟨k', hk', windows_leave_no_trace.2 hs rfl (fun c hc => ?_) hk'⟩
    obtain rfl : procAt 2 = c := Option.some.inj hc
    refine ⟨⟨ho, fun sendBuf m₁ hopen => ?_⟩, fun hnone => absurd hnone (by decide +kernel)⟩
    -- the copy is the one into the buffer of the client
    obtain ⟨d, hcopy, hd, hr⟩ := served_copy
    have hspares := hr.spares hcopy ((writes_stay_in_buffer hcopy hr).mpr (served_aimed hd))
    simp only [IpcOp.copy, replyCopy, Option.bind_eq_bind, Option.bind_eq_some_iff,
      Option.pure_def] at hcopy
    obtain ⟨c', hc', n, hn, ⟨src, m⟩, hopen', hd'⟩ := hcopy
    obtain rfl : procAt 2 = c' := Option.some.inj hc'
    obtain rfl := Option.some.inj hn
    obtain rfl := Option.some.inj hd'
    obtain ⟨rfl, rfl⟩ := Prod.mk.inj (Except.ok.inj (hopen.symm.trans (ok_of_toOption hopen')))
    exact hspares

/-- The small system when the server, in user mode, is about to take the message of the client: the
    two bytes `0x2003`, for a buffer in its own page directory. -/
def rewriteKernel : Kernel Unit :=
  { servedKernel with
    mach := { servedKernel.mach with
      mem := writeAll servedKernel.mach.mem [(0x600c#32, 0xfffff004#32), (0x5100#32, 0x2003#32)] } }

/-- **A message that maps memory.**  The window of the `recv` is vacant, and its table cleared, but
    the message is copied over entry 1 of the directory: page `0x401000` was not mapped, and shows
    the directory afterwards. -/
theorem recv_leaves_trace : ¬ ∀ (k k' : Kernel Unit) (op : IpcOp Unit), Structured k.mach.windowed →
    op.isCall = true → op.Along (Opens k.mach.mem k.mach.cr3) (fun _ _ => True) k →
    op.exec k = .ok ((), k') → ∀ w : BitVec 32, w.toNat < 0xffc00000 →
      hwTranslate k'.mach.mem k.mach.cr3 w = hwTranslate k.mach.mem k.mach.cr3 w := by
  intro hall
  have hsame : SameTables rewriteKernel.mach.mem :=
    SameTables.writeAll (fun _ _ => rfl) (by decide)
  have hcur : rewriteKernel.mach.cr3 ∈ exchangeDirs := by decide
  have ho : Opens rewriteKernel.mach.mem rewriteKernel.mach.cr3 0x5100#32 msgWindow 2#32
      rewriteKernel.mach := opens_sameTables hsame hcur rfl (by decide) (by decide) (by decide)
  have hrun : ((IpcOp.recv 0x5000#32 0#32).exec rewriteKernel).toOption.map (fun r =>
      decide (hwTranslate r.2.mach.mem rewriteKernel.mach.cr3 0x401000#32 = some 0x2000#32)) =
        some true := by
    decide +kernel
  obtain ⟨⟨⟩, k', hk', htrans⟩ := ok_of_test hrun
  have hnone : hwTranslate rewriteKernel.mach.mem rewriteKernel.mach.cr3 0x401000#32 = none := by
    decide +kernel
  have hkept := hall rewriteKernel k' (.recv 0x5000#32 0#32)
    (structured_sameTables hsame hcur) rfl (fun c hc => ?_) hk' 0x401000#32 (by decide)
  · rw [of_decide_eq_true htrans, hnone] at hkept
    exact absurd hkept (by simp)
  · obtain rfl : procAt 2 = c := Option.some.inj hc
    exact ⟨ho, fun _ _ _ => ⟨trivial, fun _ _ _ _ => trivial⟩⟩

end Small

end Leoman
