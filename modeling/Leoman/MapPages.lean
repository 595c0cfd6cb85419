import Leoman.DataCopy
import Leoman.Directory

namespace Leoman

open ByteMem StateExcept

/-!
# Mapping a range (`map_pages`)

A page of the range is mapped already, or its entry is empty, or it has no page table yet.  What
`map_page` leaves is the same in the three cases:

* `MappedAs` — the entries of a page that `map_page(p, v, flags)` is done with;
* `PageMapped` — these, and the entries of all other pages as they were;
* `mapPage_maps` — the step lemma, `mapPagesLoop_maps` — the loop;
* `mapPages_correct` — every byte of the range translates as asked for, `vm_get_phys_mapping`
  says so too, and user code reaches it exactly when `PTE_U` was given.

What the TLB retains of ordinary pages plays no part: the code goes through the windows.
-/

/-! ### The entries of a page -/

/-- The entry `x` maps the frame `p` with the user bit of `flags`. -/
structure EntryFor (flags p x : BitVec 32) : Prop where
  present : Present x
  frame : palignDown x = p
  clean : x &&& 0xe00#32 = 0#32
  user : x &&& pteU = 0#32 ↔ flags &&& pteU = 0#32

/-- The page at `v` is mapped to the frame `p`, for user code when `flags` says so. -/
structure MappedAs (mem : Mem) (cr3 flags p v : BitVec 32) : Prop where
  table : Present (pdeOf mem cr3 v)
  entry : EntryFor flags p (pteOf mem cr3 v)

/-- Below the windows every page-table entry for user code is under a directory entry for user
    code, and bits 9 to 11 of the entries are clear. -/
structure CleanTables (mem : Mem) (cr3 : BitVec 32) : Prop where
  user : ∀ w : BitVec 32, w.toNat < 0xffc00000 → Present (pdeOf mem cr3 w) →
    Present (pteOf mem cr3 w) → pdeOf mem cr3 w &&& pteU = 0#32 → pteOf mem cr3 w &&& pteU = 0#32
  bits : ∀ w : BitVec 32, w.toNat < 0xffc00000 → Present (pdeOf mem cr3 w) →
    Present (pteOf mem cr3 w) → pteOf mem cr3 w &&& 0xe00#32 = 0#32

/-- From `mem` to `mem'` the page at `v` was mapped: other pages keep their entries, and directory
    entries their frames and user bits. -/
structure PageMapped (mem mem' : Mem) (cr3 flags p v : BitVec 32) : Prop where
  page : MappedAs mem' cr3 flags p v
  pageUser : pdeOf mem' cr3 v &&& pteU = 0#32 → pteOf mem' cr3 v &&& pteU = 0#32
  kept : ∀ w : BitVec 32, w.toNat < 0xffc00000 → palignDown w ≠ v → Present (pdeOf mem cr3 w) →
    Present (pdeOf mem' cr3 w) ∧ pteOf mem' cr3 w = pteOf mem cr3 w ∧
      (pdeOf mem' cr3 w &&& pteU = 0#32 → pdeOf mem cr3 w &&& pteU = 0#32)
  blank : ∀ w : BitVec 32, w.toNat < 0xffc00000 → palignDown w ≠ v →
    ¬ Present (pdeOf mem cr3 w) → Present (pdeOf mem' cr3 w) → ¬ Present (pteOf mem' cr3 w)

section Entries

variable {mem mem' : Mem} {cr3 flags p v e x : BitVec 32}

/-- Of the flags only five bits are set. -/
theorem mapFlags_and (hf : flags.toNat < 0x20) {c : BitVec 32} :
    mapFlags flags &&& c = (flags &&& (0x1f#32 &&& c)) ||| (3#32 &&& c) := by
  have hlow : flags &&& 0x1f#32 = flags := by
    apply BitVec.eq_of_toNat_eq
    rw [BitVec.toNat_and]
    exact (Nat.and_two_pow_sub_one_eq_mod flags.toNat 5).trans (Nat.mod_eq_of_lt hf)
  rw [mapFlags, BitVec.and_or_distrib_right, ← BitVec.and_assoc, hlow]
  rfl

theorem pdeOf_palignDown (w : BitVec 32) : pdeOf mem cr3 (palignDown w) = pdeOf mem cr3 w :=
  pdeOf_congr (vmPdirIdx_palignDown w)

theorem pteOf_palignDown (w : BitVec 32) : pteOf mem cr3 (palignDown w) = pteOf mem cr3 w := by
  rw [pteOf, pdeOf_palignDown, vmPtabIdx_palignDown, pteOf]

/-- What `map_page` stores. -/
theorem entryFor_stored (hp : p.toNat % 4096 = 0) (hf : flags.toNat < 0x20) :
    EntryFor flags p (palignDown p ||| mapFlags flags) := by
  rw [palignDown_of_aligned hp]
  refine ⟨present_or_right (present_flags flags), ?_, ?_, ?_⟩
  · rw [mapFlags, palignDown_or (flags_lt (by omega)), palignDown_of_aligned hp]
  · rw [entry_and hp (by decide), mapFlags_and hf]
    exact BitVec.or_zero.trans BitVec.and_zero
  · rw [entry_and hp (by decide), mapFlags_and hf]
    exact Iff.of_eq (congrArg (· = 0#32) BitVec.or_zero)

/-- An entry that `map_page` accepts as the one asked for. -/
theorem SameMapping.entryFor (h : SameMapping x p flags) (hp : p.toNat % 4096 = 0)
    (hf : flags.toNat < 0x20) (hpres : Present x) (hclean : x &&& 0xe00#32 = 0#32) :
    EntryFor flags p x := by
  refine ⟨hpres, ?_, hclean, ?_⟩
  · exact h.1.trans ((palignDown_palignDown p).trans (palignDown_of_aligned hp))
  · -- the user bit is among the five that are compared
    have hbit : ∀ y : BitVec 32, y &&& pteU = y &&& 0x1f#32 &&& pteU := fun y => by
      rw [BitVec.and_assoc]
      rfl
    rw [hbit, h.2, ← hbit, mapFlags_and hf]
    exact Iff.of_eq (congrArg (· = 0#32) BitVec.or_zero)

/-- `|= flags` sets the user bit when `flags` has it, and never clears it. -/
theorem user_or (h : (e ||| mapFlags flags) &&& pteU = 0#32) :
    e &&& pteU = 0#32 ∧ flags &&& pteU = 0#32 := by
  rw [BitVec.and_or_distrib_right, BitVec.or_eq_zero_iff, mapFlags, BitVec.and_or_distrib_right,
    BitVec.or_eq_zero_iff] at h
  exact ⟨h.1, h.2.1⟩

/-- **The two stores** of `map_page`, into a table in place or a fresh one. -/
theorem pageMapped_newTable (hwf : WellFormed mem cr3) (hva : v.toNat % 4096 = 0)
    (hd : palignDown e ≠ palignDown cr3) (he : Present e) (hx : EntryFor flags p x)
    (hu : e &&& pteU = 0#32 → x &&& pteU = 0#32)
    (hkept : Present (pdeOf mem cr3 v) → palignDown e = palignDown (pdeOf mem cr3 v) ∧
      (e &&& pteU = 0#32 → pdeOf mem cr3 v &&& pteU = 0#32))
    (hnew : ¬ Present (pdeOf mem cr3 v) → ¬ InUse mem cr3 (palignDown e) ∧
      ∀ y, palignDown y = palignDown e → mem y = 0#8) :
    PageMapped mem (newTable mem cr3 v e x) cr3 flags p v := by
  have hpde : ∀ w, pdeOf (newTable mem cr3 v e x) cr3 w
      = if vmPdirIdx w = vmPdirIdx v then e else pdeOf mem cr3 w := pdeOf_newTable hd
  have hself : pdeOf (newTable mem cr3 v e x) cr3 v = e := by rw [hpde, if_pos rfl]
  have hpte : pteOf (newTable mem cr3 v e x) cr3 v = x := by
    rw [pteOf, hself, tableEntry_newTable (palignDown_aligned _) (vmPtabIdx_lt v),
      if_pos ⟨rfl, rfl⟩]
  -- the entries stored are those of `v` only
  have hother : ∀ w c : BitVec 32, c.toNat % 4096 = 0 → c ≠ palignDown cr3 →
      (c = palignDown e → vmPtabIdx w ≠ vmPtabIdx v) →
      tableEntry (newTable mem cr3 v e x) c (vmPtabIdx w) = tableEntry mem c (vmPtabIdx w) := by
    intro w c hc hcd hce
    rw [tableEntry_newTable hc (vmPtabIdx_lt w), if_neg fun h => hce h.1 h.2,
      if_neg fun h => hcd h.1]
  have hidx : ∀ w, palignDown w ≠ v → vmPdirIdx w = vmPdirIdx v → vmPtabIdx w ≠ vmPtabIdx v := by
    intro w hw hi hj
    exact hw ((palignDown_eq_of_idx hi hj).trans (palignDown_of_aligned hva))
  refine ⟨⟨by rwa [hself], by rwa [hpte]⟩, by rwa [hself, hpte], fun w hw hwv hp => ?_,
    fun w hw hwv ha hp => ?_⟩
  · by_cases hi : vmPdirIdx w = vmPdirIdx v
    · rw [pdeOf_congr hi] at hp
      obtain ⟨hframe, huser⟩ := hkept hp
      have hw' : pdeOf (newTable mem cr3 v e x) cr3 w = e := by rw [hpde, if_pos hi]
      rw [pteOf, hw', pteOf, pdeOf_congr hi,
        hother w _ (palignDown_aligned _) hd fun _ => hidx w hwv hi, hframe]
      exact ⟨he, rfl, huser⟩
    · have hw' : pdeOf (newTable mem cr3 v e x) cr3 w = pdeOf mem cr3 w := by rw [hpde, if_neg hi]
      rw [pteOf, hw', hother w _ (palignDown_aligned _)
        (hwf.table_ne hp ((lt_kernPtabs_iff w).mp hw)) fun heq => ?_]
      · exact ⟨hp, rfl, id⟩
      · -- the table of another region is neither that of `v` nor a fresh one
        by_cases hpv : Present (pdeOf mem cr3 v)
        · exact absurd (hwf.region_eq hp hpv (heq.trans (hkept hpv).1)) hi
        · exact absurd ⟨w, hp, heq⟩ (hnew hpv).1
  · by_cases hi : vmPdirIdx w = vmPdirIdx v
    · rw [pdeOf_congr hi] at ha
      rw [pteOf, hpde, if_pos hi,
        hother w _ (palignDown_aligned _) hd fun _ => hidx w hwv hi]
      exact not_present_cleared (palignDown_aligned _) (vmPtabIdx_lt w) (hnew ha).2
    · rw [hpde, if_neg hi] at hp
      exact absurd hp ha

/-- The tables stay clean. -/
theorem PageMapped.cleanTables (h : PageMapped mem mem' cr3 flags p v) (hc : CleanTables mem cr3) :
    CleanTables mem' cr3 := by
  have hsplit : ∀ w : BitVec 32, w.toNat < 0xffc00000 → Present (pdeOf mem' cr3 w) →
      Present (pteOf mem' cr3 w) → palignDown w = v ∨ palignDown w ≠ v ∧
        Present (pdeOf mem cr3 w) ∧ pteOf mem' cr3 w = pteOf mem cr3 w := by
    intro w hw hp hp'
    by_cases hwv : palignDown w = v
    · exact Or.inl hwv
    · by_cases hold : Present (pdeOf mem cr3 w)
      · exact Or.inr ⟨hwv, hold, (h.kept w hw hwv hold).2.1⟩
      · exact absurd hp' (h.blank w hw hwv hold hp)
  have hpage : ∀ w, palignDown w = v →
      pdeOf mem' cr3 w = pdeOf mem' cr3 v ∧ pteOf mem' cr3 w = pteOf mem' cr3 v := by
    rintro w rfl
    exact ⟨(pdeOf_palignDown w).symm, (pteOf_palignDown w).symm⟩
  constructor
  · intro w hw hp hp' hu
    obtain hwv | ⟨hwv, hold, hpte⟩ := hsplit w hw hp hp'
    · rw [(hpage w hwv).1] at hu
      rw [(hpage w hwv).2]
      exact h.pageUser hu
    · rw [hpte] at hp' ⊢
      exact hc.user w hw hold hp' ((h.kept w hw hwv hold).2.2 hu)
  · intro w hw hp hp'
    obtain hwv | ⟨hwv, hold, hpte⟩ := hsplit w hw hp hp'
    · rw [(hpage w hwv).2]
      exact h.page.entry.clean
    · rw [hpte] at hp' ⊢
      exact hc.bits w hw hold hp'

end Entries

/-! ### One page -/

section Pages

variable {τ : Type} [Tlb τ] {m m' : Machine τ} {flags p v sz : BitVec 32}

/-- The next frame of `pm_alloc` is fit for a table: it is cleared, and not in use. -/
structure TableReady (m : Machine τ) : Prop where
  aligned : (pmAlloc m.pm).1.toNat % 4096 = 0
  unused : ¬ InUse m.mem m.cr3 (pmAlloc m.pm).1
  cleared : ∀ x, palignDown x = (pmAlloc m.pm).1 → m.mem x = 0#8

/-- **Step lemma.**  A completed `map_page` of a page below the windows. -/
theorem mapPage_maps (hs : Structured m.windowed) (hc : CleanTables m.mem m.cr3)
    (hpa : p.toNat % 4096 = 0) (hva : v.toNat % 4096 = 0) (hv : v.toNat < 0xffc00000)
    (hf : flags.toNat < 0x20) (hready : ¬ Present (pdeOf m.mem m.cr3 v) → TableReady m)
    (hrun : mapPage p v flags m = .ok ((), m')) :
    Structured m'.windowed ∧ m'.cr3 = m.cr3 ∧ PageMapped m.mem m'.mem m.cr3 flags p v := by
  have hrun' := (mapPage_erases p v flags).ok hrun
  have hr := hs.wellFormed.recursive
  have hf' : flags.toNat < 4096 := by omega
  have hreg := (lt_kernPtabs_iff v).mp hv
  have hfresh : ¬ Present (pdeOf m.mem m.cr3 v) →
      ¬ InUse m.mem m.cr3 (palignDown (pmAlloc m.pm).1) := fun ha =>
    (palignDown_of_aligned (hready ha).aligned).symm ▸ (hready ha).unused
  obtain ⟨⟨hdir, hct⟩, -⟩ := mapPage_pageStep hs hv hf hfresh hrun'
  refine ⟨⟨hct, hdir.wellFormed hs.wellFormed (vmPdirIdx_lt v) ?_⟩, hdir.cr3, ?_⟩
  · intro F hF
    by_cases hp : Present (pdeOf m.mem m.cr3 v)
    · rw [if_pos (show Present (pdeOf m.windowed.mem m.windowed.cr3 v) from hp)] at hF
      exact absurd hF (by simp [nextFrames])
    · rw [if_neg (show ¬ Present (pdeOf m.windowed.mem m.windowed.cr3 v) from hp)] at hF
      obtain rfl := List.mem_singleton.mp hF
      exact hfresh hp
  · have hx := entryFor_stored hpa hf
    by_cases hp : Present (pdeOf m.mem m.cr3 v)
    · by_cases hp' : Present (pteOf m.mem m.cr3 v)
      · -- mapped as asked for
        obtain ⟨t, -, -, hif⟩ := @mapPage_present _ _ m.windowed hs.coherent hr p v flags hp hp'
        rw [hif] at hrun'
        split at hrun'
        · rename_i hsame
          have hmem : m'.mem = m.mem :=
            (congrArg Machine.mem (Prod.mk.inj (Except.ok.inj hrun')).2).symm
          rw [hmem]
          exact ⟨⟨hp, hsame.entryFor hpa hf hp' (hc.bits v hv hp hp')⟩, hc.user v hv hp hp',
            fun w _ _ hw => ⟨hw, rfl, id⟩, fun w _ _ ha hw => absurd hw ha⟩
        · exact absurd hrun' (by simp)
      · -- into the table in place
        obtain ⟨t, hif, -, -⟩ :=
          mapPage_absentPage (m := m.windowed) (p := p) hs.coherent hr hf' hp hp'
        have hmem : m'.mem = newTable m.mem m.cr3 v (pdeOf m.mem m.cr3 v ||| mapFlags flags)
            (palignDown p ||| mapFlags flags) :=
          congrArg Machine.mem (Prod.mk.inj (Except.ok.inj (hrun'.symm.trans hif))).2
        have hframe := palignDown_or (e := pdeOf m.mem m.cr3 v) (flags_lt hf')
        rw [hmem]
        refine pageMapped_newTable hs.wellFormed hva ?_ (present_or_right (present_flags flags)) hx
          (fun hu => hx.user.mpr (user_or hu).2) (fun _ => ⟨hframe, fun hu => (user_or hu).1⟩)
          fun ha => absurd hp ha
        rw [mapFlags, hframe]
        exact hs.wellFormed.table_ne hp hreg
    · -- into a new table
      obtain ⟨t, hif, -, -⟩ := @mapPage_absentTable _ _ m.windowed hs.coherent hr p v flags hp
      have hmem : m'.mem = newTable m.mem m.cr3 v ((pmAlloc m.pm).1 ||| mapFlags flags)
          (palignDown p ||| mapFlags flags) :=
        congrArg Machine.mem (Prod.mk.inj (Except.ok.inj (hrun'.symm.trans hif))).2
      have hready' := hready hp
      have hframe : palignDown ((pmAlloc m.pm).1 ||| mapFlags flags) = (pmAlloc m.pm).1 :=
        (palignDown_or (flags_lt hf')).trans (palignDown_of_aligned hready'.aligned)
      rw [hmem]
      refine pageMapped_newTable hs.wellFormed hva ?_ (present_or_right (present_flags flags)) hx
        (fun hu => hx.user.mpr (user_or hu).2) (fun h => absurd h hp) fun _ => ?_
      · rw [hframe]
        exact fun heq => hready'.unused (heq ▸ inUse_directory hr)
      · rw [hframe]
        exact ⟨hready'.unused, hready'.cleared⟩

/-! ### The loop -/

/-- The last page of the loop by itself. -/
theorem mapPagesLoop_succ (flags : BitVec 32) (n : Nat) (p v : BitVec 32) :
    mapPagesLoop (τ := τ) flags (n + 1) p v
      = (do mapPagesLoop flags n p v; mapPage (pageAt p n) (pageAt v n) flags) := by
  induction n generalizing p v with
  | zero =>
    rw [pageAt_zero, pageAt_zero]
    exact bind_pure (mapPage (τ := τ) p v flags)
  | succ n ih =>
    rw [← pageAt_succ, ← pageAt_succ]
    show (do mapPage p v flags; mapPagesLoop flags (n + 1) (p + pageSize) (v + pageSize)) = _
    rw [ih, ← bind_assoc]
    rfl

/-- Every frame `map_pages` asks `pm_alloc` for is fit for a table, when it is asked for. -/
def TablesReady (flags : BitVec 32) : Nat → BitVec 32 → BitVec 32 → Machine τ → Prop
  | 0, _, _, _ => True
  | n + 1, p, v, m => (¬ Present (pdeOf m.mem m.cr3 v) → TableReady m) ∧
    ∀ m', mapPage p v flags m = .ok ((), m') →
      TablesReady flags n (p + pageSize) (v + pageSize) m'

/-- The `n` pages from `v` on are mapped to the frames from `p` on, and other pages keep their
    entries. -/
structure RangeMapped (m m' : Machine τ) (flags p v : BitVec 32) (n : Nat) : Prop where
  structured : Structured m'.windowed
  cr3 : m'.cr3 = m.cr3
  clean : CleanTables m'.mem m'.cr3
  maps : ∀ i < n, MappedAs m'.mem m'.cr3 flags (pageAt p i) (pageAt v i)
  kept : ∀ w : BitVec 32, w.toNat < 0xffc00000 → palignDown w ∉ windowPages v n →
    Present (pdeOf m.mem m.cr3 w) →
    Present (pdeOf m'.mem m'.cr3 w) ∧ pteOf m'.mem m'.cr3 w = pteOf m.mem m.cr3 w

/-- **Run lemma.** -/
theorem mapPagesLoop_maps {n : Nat} (hs : Structured m.windowed) (hc : CleanTables m.mem m.cr3)
    (hpa : p.toNat % 4096 = 0) (hva : v.toNat % 4096 = 0) (hend : v.toNat + 4096 * n ≤ 0xffc00000)
    (hf : flags.toNat < 0x20) (hready : TablesReady flags n p v m)
    (hrun : mapPagesLoop flags n p v m = .ok ((), m')) : RangeMapped m m' flags p v n := by
  induction n generalizing m p v with
  | zero =>
    obtain ⟨-, rfl⟩ := Prod.mk.inj (Except.ok.inj hrun)
    exact ⟨hs, rfl, hc, fun i hi => absurd hi (by omega), fun w _ _ hw => ⟨hw, rfl⟩⟩
  | succ n ih =>
    obtain ⟨⟨⟩, m₁, h₁, hrest⟩ := bind_ok_iff.mp hrun
    obtain ⟨hs₁, hcr3₁, hpage⟩ := mapPage_maps hs hc hpa hva (by omega) hf hready.1 h₁
    obtain ⟨hva', hend'⟩ := window_next hva hend
    have hpa' : (p + pageSize).toNat % 4096 = 0 := by
      rw [pageSize, BitVec.toNat_add, BitVec.toNat_ofNat]
      omega
    rw [← hcr3₁] at hpage
    have hr := ih hs₁ (hpage.cleanTables (hcr3₁ ▸ hc)) hpa' hva' hend' (hready.2 m₁ h₁) hrest
    have hfirst : palignDown v ∉ windowPages (v + pageSize) n := by
      rw [palignDown_of_aligned hva]
      exact not_mem_windowPages hend
    refine ⟨hr.structured, hr.cr3.trans hcr3₁, hr.clean, fun i hi => ?_, fun w hw hwin hp => ?_⟩
    · cases i with
      | zero =>
        -- the rest of the loop leaves the first page alone
        obtain ⟨htable, hsame⟩ := hr.kept v (by omega) hfirst hpage.page.table
        rw [pageAt_zero, pageAt_zero]
        exact ⟨htable, hsame ▸ hpage.page.entry⟩
      | succ i =>
        rw [← pageAt_succ, ← pageAt_succ]
        exact hr.maps i (by omega)
    · rw [windowPages_succ] at hwin
      obtain ⟨hp₁, hsame₁, -⟩ := hpage.kept w hw (fun e => hwin (Or.inl e)) (hcr3₁ ▸ hp)
      obtain ⟨hp', hsame⟩ := hr.kept w hw (fun e => hwin (Or.inr e)) hp₁
      exact ⟨hp', by rw [hsame, hsame₁, hcr3₁]⟩

/-! ### Every byte -/

/-- `vm_get_phys_mapping` where there is a page table. -/
theorem vmGetPhysMapping_runs (hs : Structured m.windowed) (hp : Present (pdeOf m.mem m.cr3 v)) :
    ∃ m', vmGetPhysMapping v m
      = .ok ((pteOf m.mem m.cr3 v &&& ~~~0x3ff#32) + pageOffset v, m') := by
  obtain ⟨t, hload, -⟩ := load_ptabSlot (m := m.windowed) hs.coherent hs.wellFormed.recursive hp
  obtain ⟨m', hm', -⟩ := (load_ptabSlot_erases v).exists_ok hload
  refine ⟨m', ?_⟩
  rw [vmGetPhysMapping, ptabSlot_palignDown]
  exact run_bind_of_ok hm'

/-- **A page mapped by `map_pages`**, byte by byte. -/
theorem MappedAs.byte (h : MappedAs m.mem m.cr3 flags p v) (hs : Structured m.windowed)
    (hc : CleanTables m.mem m.cr3) (hva : v.toNat % 4096 = 0) (hv : v.toNat < 0xffc00000) {k : Nat}
    (hk : k < 4096) :
    hwTranslate m.mem m.cr3 (v + BitVec.ofNat 32 k) = some (p + BitVec.ofNat 32 k) ∧
      (∃ m', vmGetPhysMapping (v + BitVec.ofNat 32 k) m = .ok (p + BitVec.ofNat 32 k, m')) ∧
      ((userWalk m.mem m.cr3 (v + BitVec.ofNat 32 k)).isSome ↔ flags &&& pteU ≠ 0#32) := by
  obtain ⟨hpage, hoff⟩ := page_add (v := v) (i := k) (by rw [pageOffset_toNat]; omega)
  have hzero : pageOffset v = 0#32 := by
    apply BitVec.eq_of_toNat_eq
    rw [pageOffset_toNat, hva]
    rfl
  rw [palignDown_of_aligned hva] at hpage
  rw [hzero, BitVec.zero_add] at hoff
  generalize v + BitVec.ofNat 32 k = w at *
  subst hpage
  have hpde : pdeOf m.mem m.cr3 (palignDown w) = _ := pdeOf_palignDown w
  have hpte : pteOf m.mem m.cr3 (palignDown w) = _ := pteOf_palignDown w
  obtain ⟨htable, hentry⟩ := h
  rw [hpde] at htable
  rw [hpte] at hentry
  have hwalk : walk m.mem m.cr3 w = some p :=
    walk_eq_some_iff.mpr ⟨htable, hentry.present, hentry.frame⟩
  refine ⟨?_, ?_, ?_⟩
  · rw [hwTranslate, hwalk, hoff]
    rfl
  · obtain ⟨m', hrun⟩ := vmGetPhysMapping_runs hs htable
    refine ⟨m', ?_⟩
    have hbits : pteOf m.mem m.cr3 w &&& 0xc00#32 = 0#32 := by
      rw [show (0xc00#32 : BitVec 32) = 0xe00#32 &&& 0xc00#32 by rfl, ← BitVec.and_assoc,
        hentry.clean, BitVec.zero_and]
    rw [hrun, and_not_3ff hbits, hentry.frame, hoff]
  · -- the user bit of the entry decides, for it is never under a directory entry without
    have huser := hc.user w (by rw [palignDown_toNat] at hv; omega) htable hentry.present
    rw [userWalk]
    by_cases hu : flags &&& pteU = 0#32
    · rw [if_pos (Or.inr (hentry.user.mpr hu))]
      simp [hu]
    · have hpu : ¬ pteOf m.mem m.cr3 w &&& pteU = 0#32 := fun e => hu (hentry.user.mp e)
      rw [if_neg (not_or.mpr ⟨fun e => hpu (huser e), hpu⟩), hwalk]
      simp [hu]

omit [Tlb τ] in
/-- Byte `k` is in page `k / 4096`. -/
theorem pageAt_add_mod (a : BitVec 32) (k : Nat) :
    pageAt a (k / 4096) + BitVec.ofNat 32 (k % 4096) = a + BitVec.ofNat 32 k := by
  rw [pageAt, BitVec.add_assoc, BitVec.ofNat_add_ofNat, Nat.div_add_mod]

/-- **`map_pages` is correct** on page-aligned ranges below the windows. -/
theorem mapPages_correct (hs : Structured m.windowed) (hc : CleanTables m.mem m.cr3)
    (hpa : p.toNat % 4096 = 0) (hva : v.toNat % 4096 = 0) (hsz : 1 ≤ sz.toNat)
    (hend : v.toNat + sz.toNat ≤ 0xffc00000) (hf : flags.toNat < 0x20)
    (hready : TablesReady flags (pagesOf sz) p v m)
    (hrun : mapPages p v flags sz m = .ok ((), m')) {k : Nat} (hk : k < sz.toNat) :
    hwTranslate m'.mem m'.cr3 (v + BitVec.ofNat 32 k) = some (p + BitVec.ofNat 32 k) ∧
      (∃ m'', vmGetPhysMapping (v + BitVec.ofNat 32 k) m' = .ok (p + BitVec.ofNat 32 k, m'')) ∧
      ((userWalk m'.mem m'.cr3 (v + BitVec.ofNat 32 k)).isSome ↔ flags &&& pteU ≠ 0#32) := by
  have hpages : v.toNat + 4096 * pagesOf sz ≤ 0xffc00000 ∧ k / 4096 < pagesOf sz := by
    unfold pagesOf
    split <;> omega
  have hloop : mapPagesLoop flags (pagesOf sz) p v m = .ok ((), m') := by
    have hne : sz ≠ 0#32 := by
      rintro rfl
      exact absurd hsz (by decide)
    rwa [mapPages, if_neg hne, palignDown_of_aligned hpa, palignDown_of_aligned hva] at hrun
  have hr := mapPagesLoop_maps hs hc hpa hva hpages.1 hf hready hloop
  have hbyte := (hr.maps _ hpages.2).byte hr.structured hr.clean (pageAt_aligned hva)
    (by rw [pageAt_toNat hpages.1 hpages.2]; omega) (Nat.mod_lt k (by decide))
  rwa [pageAt_add_mod, pageAt_add_mod] at hbyte

end Pages

/-- A space that holds nothing yet has the next frame of `pm_alloc` for a table, and once a page
    is mapped the one after it. -/
theorem tablesReady_blankSpace {p v : BitVec 32} (hv : v.toNat < 0xffc00000) :
    TablesReady pteU 2 p v (lawMachine (blankSpace 0x1000#32)) := by
  have hd : (0x1000#32).toNat % 4096 = 0 := by decide
  have hnext : nextFrames 2 (lawMachine (blankSpace 0x1000#32)).pm = [0x2000#32, 0x3000#32] := by
    decide +kernel
  obtain ⟨hfirst, hnext⟩ := List.cons.inj hnext
  have hsecond := (List.cons.inj hnext).1
  have hwf := wellFormed_blankSpace hd
  have hnone : ¬ Present (pdeOf (blankSpace 0x1000#32) 0x1000#32 v) :=
    blankSpace_absent hd (palignDown_aligned _) (vmPdirIdx_lt v) fun _ => (lt_kernPtabs_iff v).mp hv
  have hclear : ∀ {x : BitVec 32}, palignDown x ≠ 0x1000#32 → blankSpace 0x1000#32 x = 0#8 :=
    fun hx => write_slot_frame hd (by decide) hx
  have hpage : palignDown (pmAlloc (lawMachine (blankSpace 0x1000#32)).pm).1 = 0x2000#32 := by
    rw [hfirst]
    decide
  have hunused : ¬ InUse (blankSpace 0x1000#32) 0x1000#32
      (palignDown (pmAlloc (lawMachine (blankSpace 0x1000#32)).pm).1) := by
    rw [hpage]
    exact fun h => absurd (blankSpace_inUse hd h) (by decide)
  refine ⟨fun _ => ⟨?_, ?_, fun x hx => hclear ?_⟩, fun m' hm' => ⟨fun _ => ?_, fun _ _ => trivial⟩⟩
  · rw [hfirst]
    decide
  · rw [hfirst]
    exact hpage ▸ hunused
  · rw [hx, hfirst]
    decide
  · -- the first page went into a table in the first frame
    obtain ⟨t, hrun, -⟩ := @mapPage_absentTable _ _ (lawMachine (blankSpace 0x1000#32))
      (coherent_unit _ _ _) hwf.recursive p v pteU hnone
    have hm := (Prod.mk.inj (Except.ok.inj (hm'.symm.trans hrun))).2
    have hpm : (pmAlloc m'.pm).1 = 0x3000#32 := by
      rw [hm]
      exact hsecond
    have hs : Structured (lawMachine (blankSpace 0x1000#32)).windowed :=
      ⟨fun q g hq => absurd hq (by simp [Tlb.lookup]), hwf⟩
    obtain ⟨⟨hdir, -⟩, -⟩ := mapPage_pageStep hs hv (by decide) (fun _ => hunused)
      ((mapPage_erases p v pteU).ok hm')
    rw [if_neg (show ¬ Present (pdeOf (lawMachine (blankSpace 0x1000#32)).windowed.mem
      (lawMachine (blankSpace 0x1000#32)).windowed.cr3 v) from hnone)] at hdir
    refine ⟨?_, ?_, fun x hx => ?_⟩
    · rw [hpm]
      decide
    · rw [hpm]
      intro huse
      rcases hdir.inUse huse with hold | hnew
      · exact absurd (blankSpace_inUse hd hold) (by decide)
      · obtain ⟨F, hF, heq⟩ := List.mem_map.mp hnew
        obtain rfl := List.mem_singleton.mp hF
        exact absurd (hpage.symm.trans heq) (by decide)
    · rw [hpm] at hx
      have hmem : m'.mem x = setPte (setPde (blankSpace 0x1000#32) 0x1000#32 v
          ((pmAlloc (lawMachine (blankSpace 0x1000#32)).pm).1 ||| mapFlags pteU)) 0x1000#32 v
          (palignDown p ||| mapFlags pteU) x := congrArg (fun m => Machine.mem m x) hm
      have he : palignDown ((pmAlloc (lawMachine (blankSpace 0x1000#32)).pm).1 ||| mapFlags pteU)
          = 0x2000#32 := by
        rw [hfirst]
        decide
      rw [hmem, setPte, pdeOf_setPde_self, he, write_slot_frame (by decide) (vmPtabIdx_lt v)
        (by rw [hx]; decide), setPde, write_slot_frame (palignDown_aligned _) (vmPdirIdx_lt v)
        (by rw [hx]; decide)]
      exact hclear (by rw [hx]; decide)

/-- Two pages mapped for user code on both sides of 4 MiB, in a space that holds nothing yet: each
    takes a frame for its table. -/
theorem mapPages_correct_blank :
    ∃ m', mapPages 0x7000#32 0x3ff000#32 pteU 0x2000#32 (lawMachine (blankSpace 0x1000#32))
        = .ok ((), m') ∧
      ∀ k < 0x2000, hwTranslate m'.mem m'.cr3 (0x3ff000#32 + BitVec.ofNat 32 k)
        = some (0x7000#32 + BitVec.ofNat 32 k) ∧
        (userWalk m'.mem m'.cr3 (0x3ff000#32 + BitVec.ofNat 32 k)).isSome := by
  have hd : (0x1000#32).toNat % 4096 = 0 := by decide
  have hwf := wellFormed_blankSpace hd
  have hnone : ∀ w : BitVec 32, w.toNat < 0xffc00000 →
      ¬ Present (pdeOf (blankSpace 0x1000#32) 0x1000#32 w) := fun w hw =>
    blankSpace_absent hd (palignDown_aligned _) (vmPdirIdx_lt w) fun _ => (lt_kernPtabs_iff w).mp hw
  have hs : Structured (lawMachine (blankSpace 0x1000#32)).windowed :=
    ⟨fun q g hq => absurd hq (by simp [Tlb.lookup]), hwf⟩
  have hc : CleanTables (blankSpace 0x1000#32) 0x1000#32 :=
    ⟨fun w hw hp => absurd hp (hnone w hw), fun w hw hp => absurd hp (hnone w hw)⟩
  have htest : ((mapPages 0x7000#32 0x3ff000#32 pteU 0x2000#32
      (lawMachine (blankSpace 0x1000#32))).toOption.map fun _ => true) = some true := by
    decide +kernel
  obtain ⟨⟨⟩, m', hrun, -⟩ := ok_of_test htest
  refine ⟨m', hrun, fun k hk => ?_⟩
  obtain ⟨htrans, -, huser⟩ := mapPages_correct hs hc (by decide) (by decide) (by decide)
    (by decide) (by decide) (tablesReady_blankSpace (by decide)) hrun hk
  exact ⟨htrans, huser.mpr (by decide)⟩

end Leoman
