import Leoman.Populate

namespace Leoman

open ByteMem StateExcept

/-!
# What mapping pages changes, in all address spaces

`map_page` writes the directory of the current address space and one table, and that table may be
one of the kernel's, which all address spaces share.  Then the page shows in the others too; whether
user code reaches it there is up to their own directory entry, which `map_page` does not write.

* `MapsPages` — pages of one address space were mapped: what comes of it there and in the others;
* `MapsPages.trans` — pages, and more pages;
* `PageStored.mapsPages` — the page that `map_page` maps, `mapsPages_mapped` — the one it finds
  mapped;
* `userWalk_eq_some_iff` — what user code reaches: by the directory entry, and by the table entry.
-/

/-! ### One page -/

section MapPage

variable {τ : Type} [Tlb τ] {K dirs : Set (BitVec 32)} {n : Nat} {m m' : Machine τ}
  {p v flags : BitVec 32}

/-- What a completed `map_page` of an unmapped page has stored, and what it leaves. -/
structure PageStored (K dirs : Set (BitVec 32)) (n : Nat) (p v flags e : BitVec 32)
    (m m' : Machine τ) : Prop where
  cr3 : m'.cr3 = m.cr3
  coherent : Coherent m'.tlb m'.mem m'.cr3
  paging : Paging K dirs (if Present (pdeOf m.mem m.cr3 v) then n else n - 1) m'.bare
  edited : Edited K dirs {palignDown v} m.mem m'.mem
  walk : walk m'.mem m.cr3 v = some (palignDown p)
  stored : m'.mem = newTable m.mem m.cr3 v e (palignDown p ||| mapFlags flags)
  old : Present (pdeOf m.mem m.cr3 v) →
    e = pdeOf m.mem m.cr3 v ||| mapFlags flags ∧ m'.pm = m.pm
  new : ¬ Present (pdeOf m.mem m.cr3 v) →
    e = (pmAlloc m.pm).1 ||| mapFlags flags ∧ m'.pm = (pmAlloc m.pm).2

/-- **`map_page` of an unmapped page.** -/
theorem mapPage_stores (hc : Coherent m.tlb m.mem m.cr3) (hp : Paging K dirs n m.bare)
    (hn : ¬ Present (pdeOf m.mem m.cr3 v) → 0 < n) (hv : walk m.mem m.cr3 v = none)
    (hreg : vmPdirIdx v ≠ 1023#32) (p : BitVec 32) (hf : flags.toNat < 4096) :
    ∃ m' e, mapPage p v flags m = .ok ((), m') ∧ PageStored K dirs n p v flags e m m' := by
  have hr := hp.spaces.recursive _ hp.current
  obtain ⟨m', hrun, hrun₀, hc'⟩ := mapPage_bare hc hp hn hv hreg p hf
  obtain ⟨m₁, hrun₁, hcr3, hp', he, hwalk, -⟩ := mapPage_adds hp hn hv hreg p hf
  obtain rfl : m'.bare = m₁ := (Prod.mk.inj (Except.ok.inj (hrun₀.symm.trans hrun₁))).2
  -- the run is that of the machine without a TLB; what it stores depends on the table
  by_cases hpde : Present (pdeOf m.mem m.cr3 v)
  · have hpte : ¬ Present (pteOf m.mem m.cr3 v) :=
      (walk_eq_none_iff.mp hv).resolve_left fun h => h hpde
    obtain ⟨t, hrun₂, -⟩ := mapPage_absentPage (p := p) hc hr hf hpde hpte
    obtain rfl := (Prod.mk.inj (Except.ok.inj (hrun.symm.trans hrun₂))).2
    exact ⟨_, _, hrun, hcr3, hc', hp', he, hwalk, rfl, fun _ => ⟨rfl, rfl⟩,
      fun h => absurd hpde h⟩
  · obtain ⟨t, hrun₂, -⟩ := @mapPage_absentTable _ _ _ hc hr p v flags hpde
    obtain rfl := (Prod.mk.inj (Except.ok.inj (hrun.symm.trans hrun₂))).2
    exact ⟨_, _, hrun, hcr3, hc', hp', he, hwalk, rfl, fun h => absurd h hpde,
      fun _ => ⟨rfl, rfl⟩⟩

end MapPage

/-! ### What mapping pages changes -/

/-- The directory entry of `w` is present, and for user code. -/
def UserRegion (mem : Mem) (D w : BitVec 32) : Prop :=
  Present (pdeOf mem D w) ∧ pdeOf mem D w &&& pteU ≠ 0#32

/-- From `mem` to `mem'` the pages `L` of the address space `D` were mapped, for user code unless
    the process is privileged.  What was mapped stays mapped.  A page shows in another address space
    if its table is shared, and new tables are not; but the entries of other directories stay as
    they are.  The entries of `D` are for user code in the regions of the pages that were not mapped
    before. -/
structure MapsPages (K dirs : Set (BitVec 32)) (D : BitVec 32) (privileged : Bool)
    (L : Set (BitVec 32 × BitVec 32)) (mem mem' : Mem) : Prop where
  below : ∀ u ∈ L, vmPdirIdx u.1 ≠ 1023#32
  user : ∀ x, palignDown x ∉ K → mem' x = mem x
  tables : ∀ E ∈ dirs, ∀ w, Present (pdeOf mem E w) →
    Present (pdeOf mem' E w) ∧ palignDown (pdeOf mem' E w) = palignDown (pdeOf mem E w)
  others : ∀ E ∈ dirs, palignDown E ≠ palignDown D → ∀ w, pdeOf mem' E w = pdeOf mem E w
  shares : ∀ E ∈ dirs, palignDown E ≠ palignDown D → ∀ w, Shares mem' D E w → Shares mem D E w
  keeps : ∀ E ∈ dirs, ∀ w f, vmPdirIdx w ≠ 1023#32 → walk mem E w = some f →
    walk mem' E w = some f ∧ pteOf mem' E w = pteOf mem E w
  pages : ∀ E ∈ dirs, ∀ w f, vmPdirIdx w ≠ 1023#32 → walk mem' E w = some f →
    walk mem E w = some f ∨ (palignDown w, f) ∈ L ∧
      (palignDown E = palignDown D ∨ Shares mem D E w) ∧
      (pteOf mem' E w &&& pteU = 0#32 ↔ privileged = true)
  maps : ∀ u ∈ L, walk mem' D u.1 = some u.2 ∧
    (pteOf mem' D u.1 &&& pteU = 0#32 ↔ privileged = true)
  regions : ∀ w, UserRegion mem' D w → UserRegion mem D w ∨ privileged = false ∧
    ∃ u ∈ L, walk mem D u.1 = none ∧ vmPdirIdx u.1 = vmPdirIdx w
  kept : ∀ w, UserRegion mem D w → UserRegion mem' D w
  opened : privileged = false → ∀ u ∈ L, walk mem D u.1 = none → UserRegion mem' D u.1

section Relation

variable {K dirs : Set (BitVec 32)} {D E w : BitVec 32} {privileged : Bool}
  {L L' : Set (BitVec 32 × BitVec 32)} {mem mem' mem'' : Mem}

theorem UserRegion.congr {u : BitVec 32} (h : UserRegion mem D w)
    (heq : vmPdirIdx w = vmPdirIdx u) : UserRegion mem D u := by
  rw [UserRegion, pdeOf_congr heq] at h
  exact h

/-- No pages. -/
theorem MapsPages.refl : MapsPages K dirs D privileged ∅ mem mem :=
  ⟨fun _ h => absurd h (Set.notMem_empty _), fun _ _ => rfl, fun _ _ _ h => ⟨h, rfl⟩,
    fun _ _ _ _ => rfl, fun _ _ _ _ h => h, fun _ _ _ _ _ h => ⟨h, rfl⟩,
    fun _ _ _ _ _ h => Or.inl h, fun _ h => absurd h (Set.notMem_empty _), fun _ h => Or.inl h,
    fun _ h => h, fun _ _ h => absurd h (Set.notMem_empty _)⟩

/-- A page that is not mapped in the end was not mapped before. -/
theorem MapsPages.unmapped (h : MapsPages K dirs D privileged L mem mem') (hE : E ∈ dirs)
    (hw : vmPdirIdx w ≠ 1023#32) (hnone : walk mem' E w = none) : walk mem E w = none := by
  by_contra hne
  obtain ⟨f, hf⟩ := Option.ne_none_iff_exists'.mp hne
  rw [(h.keeps E hE w f hw hf).1] at hnone
  exact absurd hnone (by simp)

/-- What code sees of memory outside the tables stays, in every address space. -/
theorem MapsPages.userBytes {v : BitVec 32} {n : Nat} {f : Nat → BitVec 32}
    (h : MapsPages K dirs D privileged L mem mem') (hs : Spaces K dirs mem) (hE : E ∈ dirs)
    (hb : UserBytes K mem E v n f) : UserBytes K mem' E v n f := by
  refine ⟨fun i hi => ?_, hb.user⟩
  have hmap := hb.maps i hi
  obtain ⟨hw, -⟩ := walk_of_hwTranslate hmap
  have hreg := hs.region_of_user hE hmap (hb.user i hi)
  obtain ⟨hwalk, -⟩ := h.keeps E hE _ _ hreg hw
  rw [hwTranslate_congr (hwalk.trans hw.symm), hmap]

/-- **Pages, and more pages.** -/
theorem MapsPages.trans (h : MapsPages K dirs D privileged L mem mem')
    (h' : MapsPages K dirs D privileged L' mem' mem'') (hD : D ∈ dirs) :
    MapsPages K dirs D privileged (L ∪ L') mem mem'' := by
  refine ⟨fun u hu => hu.elim (h.below u) (h'.below u), fun x hx => ?_, fun E hE w hp => ?_,
    fun E hE hne w => ?_, fun E hE hne w hs => ?_, fun E hE w f hw hf => ?_,
    fun E hE w f hw hf => ?_, fun u hu => ?_, fun w hw => ?_,
    fun w hw => h'.kept w (h.kept w hw), fun hpriv u hu hnone => ?_⟩
  · rw [h'.user x hx, h.user x hx]
  · obtain ⟨hp', hf'⟩ := h.tables E hE w hp
    obtain ⟨hp'', hf''⟩ := h'.tables E hE w hp'
    exact ⟨hp'', hf''.trans hf'⟩
  · rw [h'.others E hE hne w, h.others E hE hne w]
  · exact h.shares E hE hne w (h'.shares E hE hne w hs)
  · obtain ⟨hf', he'⟩ := h.keeps E hE w f hw hf
    obtain ⟨hf'', he''⟩ := h'.keeps E hE w f hw hf'
    exact ⟨hf'', he''.trans he'⟩
  · rcases h'.pages E hE w f hw hf with hold | ⟨hL, hE', hbit⟩
    · -- an older page has kept its entry
      refine (h.pages E hE w f hw hold).imp_right fun ⟨hL, hE', hbit⟩ => ⟨Or.inl hL, hE', ?_⟩
      rw [(h'.keeps E hE w f hw hold).2]
      exact hbit
    · refine Or.inr ⟨Or.inr hL, ?_, hbit⟩
      by_cases heq : palignDown E = palignDown D
      · exact Or.inl heq
      · exact hE'.imp_right (h.shares E hE heq w)
  · rcases hu with hu | hu
    · obtain ⟨hwalk, hbit⟩ := h.maps u hu
      obtain ⟨hwalk', hpte⟩ := h'.keeps D hD _ _ (h.below u hu) hwalk
      rw [hpte]
      exact ⟨hwalk', hbit⟩
    · exact h'.maps u hu
  · rcases h'.regions w hw with hold | ⟨hpriv, u, hu, hnone, hreg⟩
    · exact (h.regions w hold).imp_right fun ⟨hpriv, u, hu, hrest⟩ => ⟨hpriv, u, Or.inl hu, hrest⟩
    · exact Or.inr ⟨hpriv, u, Or.inr hu, h.unmapped hD (h'.below u hu) hnone, hreg⟩
  · rcases hu with hu | hu
    · exact h'.kept _ (h.opened hpriv u hu hnone)
    · by_cases hnone' : walk mem' D u.1 = none
      · exact h'.opened hpriv u hu hnone'
      · -- the page was among the first, possibly by another name
        obtain ⟨g, hg⟩ := Option.ne_none_iff_exists'.mp hnone'
        rcases h.pages D hD _ g (h'.below u hu) hg with hold | ⟨hL, -⟩
        · rw [hold] at hnone
          exact absurd hnone (by simp)
        · have hopen := h.opened hpriv _ hL ((walk_palignDown mem D u.1).trans hnone)
          exact h'.kept _ (hopen.congr (vmPdirIdx_palignDown u.1))

/-- A page behind a shared table. -/
theorem Shares.pteOf_eq (h : Shares mem D E w) : pteOf mem E w = pteOf mem D w := by
  rw [pteOf, pteOf, h.2.2]

theorem Shares.walk_eq (h : Shares mem D E w) : walk mem E w = walk mem D w := by
  ext f
  rw [walk_eq_some_iff, walk_eq_some_iff, h.pteOf_eq]
  exact and_congr_left fun _ => iff_of_true h.2.1 h.1

/-- What user code reaches: both entries are for it. -/
theorem userWalk_eq_some_iff {f : BitVec 32} : userWalk mem D w = some f ↔
    UserRegion mem D w ∧ walk mem D w = some f ∧ pteOf mem D w &&& pteU ≠ 0#32 := by
  rw [userWalk]
  constructor
  · intro h
    split at h
    · exact absurd h (by simp)
    · rename_i hbits
      rw [not_or] at hbits
      exact ⟨⟨(walk_eq_some_iff.mp h).1, hbits.1⟩, h, hbits.2⟩
  · rintro ⟨⟨-, hpde⟩, hwalk, hpte⟩
    rw [if_neg (not_or.mpr ⟨hpde, hpte⟩)]
    exact hwalk

/-- The directory of one address space is no table of another. -/
theorem Spaces.dir_not_table (hs : Spaces K dirs mem) (hD : D ∈ dirs) (hE : E ∈ dirs)
    (hne : palignDown E ≠ palignDown D) (hp : Present (pdeOf mem E w)) :
    palignDown (pdeOf mem E w) ≠ palignDown D := by
  obtain ⟨hself, hframe⟩ := recursive_iff.mp (hs.recursive D hD)
  obtain ⟨-, hframe'⟩ := recursive_iff.mp (hs.recursive E hE)
  intro heq
  have hidx := hs.apart E hE D hD w _ hp hself (heq.trans hframe.symm)
  apply hne
  rw [← hframe', ← heq, pdeOf_congr hidx]

end Relation

/-! ### A page -/

/-- A page to map: neither mapped nor in the last region, and there is a frame for a table if it
    needs one.  The flags are those of a process. -/
structure PageToMap {τ : Type} [Tlb τ] (K dirs : Set (BitVec 32)) (n : Nat) (privileged : Bool)
    (p v flags : BitVec 32) (m : Machine τ) : Prop where
  paging : Paging K dirs n m.bare
  frames : ¬ Present (pdeOf m.mem m.cr3 v) → 0 < n
  region : vmPdirIdx v ≠ 1023#32
  page : v.toNat % 4096 = 0
  frame : p.toNat % 4096 = 0
  small : flags.toNat < 0x20
  user : flags &&& pteU = 0#32 ↔ privileged = true
  unmapped : walk m.mem m.cr3 v = none

section Page

variable {τ : Type} [Tlb τ] {K dirs : Set (BitVec 32)} {n : Nat} {privileged : Bool}
  {m m' : Machine τ} {p v flags e E w f : BitVec 32}

theorem PageToMap.spaces (h : PageToMap K dirs n privileged p v flags m) : Spaces K dirs m.mem :=
  h.paging.spaces

theorem PageToMap.current (h : PageToMap K dirs n privileged p v flags m) : m.cr3 ∈ dirs :=
  h.paging.current

theorem PageToMap.flags_lt (h : PageToMap K dirs n privileged p v flags m) :
    flags.toNat < 4096 := by
  have := h.small
  omega

/-- The frame of a new table. -/
theorem PageToMap.new_frame (h : PageToMap K dirs n privileged p v flags m)
    (hp : ¬ Present (pdeOf m.mem m.cr3 v)) : (pmAlloc m.pm).1 ∈ nextFrames n m.bare.pm := by
  obtain ⟨k, rfl⟩ : ∃ k, n = k + 1 := ⟨n - 1, by have := h.frames hp; omega⟩
  exact List.mem_cons_self

/-- The table, if it was in place, … -/
theorem PageStored.old_table (h : PageToMap K dirs n privileged p v flags m)
    (hst : PageStored K dirs n p v flags e m m') (hp : Present (pdeOf m.mem m.cr3 v)) :
    palignDown e = palignDown (pdeOf m.mem m.cr3 v) := by
  rw [(hst.old hp).1, mapFlags, palignDown_or (Leoman.flags_lt h.flags_lt)]

/-- … and if it was not. -/
theorem PageStored.new_table (h : PageToMap K dirs n privileged p v flags m)
    (hst : PageStored K dirs n p v flags e m m') (hp : ¬ Present (pdeOf m.mem m.cr3 v)) :
    palignDown e = (pmAlloc m.pm).1 := by
  rw [(hst.new hp).1, mapFlags, palignDown_or (Leoman.flags_lt h.flags_lt),
    palignDown_of_aligned (h.paging.supply.aligned _ (h.new_frame hp)).1]

/-- The table is no directory. -/
theorem PageStored.table_ne (h : PageToMap K dirs n privileged p v flags m)
    (hst : PageStored K dirs n p v flags e m m') (hE : E ∈ dirs) :
    palignDown e ≠ palignDown E := by
  by_cases hp : Present (pdeOf m.mem m.cr3 v)
  · rw [hst.old_table h hp]
    exact h.spaces.table_ne h.current hE hp h.region
  · rw [hst.new_table h hp]
    intro heq
    apply h.paging.supply.unused _ (h.new_frame hp) _ hE
    rw [heq]
    exact inUse_directory (h.spaces.recursive _ hE)

/-- Where another directory has the table, it is shared. -/
theorem PageStored.table_shared (h : PageToMap K dirs n privileged p v flags m)
    (hst : PageStored K dirs n p v flags e m m') (hE : E ∈ dirs) (hp : Present (pdeOf m.mem E w))
    (heq : palignDown (pdeOf m.mem E w) = palignDown e) :
    vmPdirIdx w = vmPdirIdx v ∧ Shares m.mem m.cr3 E w := by
  have hpv : Present (pdeOf m.mem m.cr3 v) := by
    by_contra hpv
    rw [hst.new_table h hpv] at heq
    exact h.paging.supply.unused _ (h.new_frame hpv) E hE ⟨w, hp, heq⟩
  rw [hst.old_table h hpv] at heq
  have hidx := h.spaces.apart E hE _ h.current w v hp hpv heq
  refine ⟨hidx, ?_, hp, ?_⟩
  · rw [pdeOf_congr hidx]
    exact hpv
  · rw [pdeOf_congr hidx]
    exact heq.symm

/-- The entries of the directory afterwards, … -/
theorem PageStored.pde_own (h : PageToMap K dirs n privileged p v flags m)
    (hst : PageStored K dirs n p v flags e m m') (w : BitVec 32) :
    pdeOf m'.mem m.cr3 w = if vmPdirIdx w = vmPdirIdx v then e else pdeOf m.mem m.cr3 w := by
  rw [hst.stored, pdeOf_newTable (hst.table_ne h h.current)]

/-- … those of the others, … -/
theorem PageStored.pde_other (h : PageToMap K dirs n privileged p v flags m)
    (hst : PageStored K dirs n p v flags e m m') (hE : E ∈ dirs)
    (hne : palignDown E ≠ palignDown m.cr3) (w : BitVec 32) :
    pdeOf m'.mem E w = pdeOf m.mem E w := by
  rw [pdeOf, hst.stored, tableEntry_newTable (palignDown_aligned _) (vmPdirIdx_lt w),
    if_neg fun heq => hst.table_ne h hE heq.1.symm, if_neg fun heq => hne heq.1, pdeOf]

/-- … the entry of the page, … -/
theorem PageStored.pte_page (h : PageToMap K dirs n privileged p v flags m)
    (hst : PageStored K dirs n p v flags e m m') (hw : palignDown w = v)
    (htable : palignDown (pdeOf m'.mem E w) = palignDown e) :
    EntryFor flags p (pteOf m'.mem E w) := by
  have hslot : vmPtabIdx w = vmPtabIdx v := by
    rw [← hw, vmPtabIdx_palignDown]
  rw [pteOf, htable, hst.stored, tableEntry_newTable (palignDown_aligned _) (vmPtabIdx_lt w),
    if_pos ⟨rfl, hslot⟩]
  exact entryFor_stored h.frame h.small

/-- … and those in the tables that are not shared. -/
theorem PageStored.pte_other (h : PageToMap K dirs n privileged p v flags m)
    (hst : PageStored K dirs n p v flags e m m') (hE : E ∈ dirs)
    (hne : palignDown E ≠ palignDown m.cr3) (hp : Present (pdeOf m.mem E w))
    (htable : palignDown (pdeOf m.mem E w) ≠ palignDown e) :
    pteOf m'.mem E w = pteOf m.mem E w ∧ Leoman.walk m'.mem E w = Leoman.walk m.mem E w := by
  have hpte : pteOf m'.mem E w = pteOf m.mem E w := by
    rw [pteOf, hst.pde_other h hE hne, hst.stored,
      tableEntry_newTable (palignDown_aligned _) (vmPtabIdx_lt w), if_neg fun heq => htable heq.1,
      if_neg fun heq => h.spaces.dir_not_table h.current hE hne hp heq.1, pteOf]
  exact ⟨hpte, walk_eq_of_entries (hst.pde_other h hE hne w) fun _ => hpte⟩

/-- What was mapped stays mapped. -/
theorem PageStored.keeps (h : PageToMap K dirs n privileged p v flags m)
    (hst : PageStored K dirs n p v flags e m m') (hE : E ∈ dirs) (hw : vmPdirIdx w ≠ 1023#32)
    (hwf : Leoman.walk m.mem E w = some f) :
    Leoman.walk m'.mem E w = some f ∧ pteOf m'.mem E w = pteOf m.mem E w := by
  obtain ⟨hp, -, -⟩ := walk_eq_some_iff.mp hwf
  by_cases hwv : palignDown w = v
  · -- the page was not mapped where the table is that of `v`
    have hnone : Leoman.walk m.mem m.cr3 w = none := by
      rw [← walk_palignDown, hwv]
      exact h.unmapped
    have hne : palignDown E ≠ palignDown m.cr3 := by
      intro heq
      rw [walk_dir_congr heq, hnone] at hwf
      exact absurd hwf (by simp)
    have htable : palignDown (pdeOf m.mem E w) ≠ palignDown e := by
      intro heq
      rw [(hst.table_shared h hE hp heq).2.walk_eq, hnone] at hwf
      exact absurd hwf (by simp)
    obtain ⟨hpte, hwalk⟩ := hst.pte_other h hE hne hp htable
    exact ⟨hwalk.trans hwf, hpte⟩
  · have hfar : palignDown w ∉ ({palignDown v} : Set (BitVec 32)) := by
      rw [palignDown_of_aligned h.page]
      exact hwv
    exact ⟨(hst.edited.walks E hE w hw hfar).trans hwf, hst.edited.ptes E hE w hw hfar hp⟩

/-- What is mapped afterwards was mapped before, or is the page, in an address space that has its
    table. -/
theorem PageStored.pages (h : PageToMap K dirs n privileged p v flags m)
    (hst : PageStored K dirs n p v flags e m m') (hE : E ∈ dirs) (hw : vmPdirIdx w ≠ 1023#32)
    (hwf : Leoman.walk m'.mem E w = some f) :
    Leoman.walk m.mem E w = some f ∨ (palignDown w, f) ∈ ({(v, p)} : Set (BitVec 32 × BitVec 32)) ∧
      (palignDown E = palignDown m.cr3 ∨ Shares m.mem m.cr3 E w) ∧
      (pteOf m'.mem E w &&& pteU = 0#32 ↔ privileged = true) := by
  obtain ⟨hp, -, hframe⟩ := walk_eq_some_iff.mp hwf
  by_cases hwv : palignDown w = v
  · have hnew : palignDown (pdeOf m'.mem E w) = palignDown e →
        (palignDown w, f) ∈ ({(v, p)} : Set (BitVec 32 × BitVec 32)) ∧
          (pteOf m'.mem E w &&& pteU = 0#32 ↔ privileged = true) := by
      intro htable
      have hx := hst.pte_page h hwv htable
      rw [hx.frame] at hframe
      refine ⟨?_, hx.user.trans h.user⟩
      rw [hwv, hframe]
      rfl
    by_cases hne : palignDown E = palignDown m.cr3
    · have htable : pdeOf m'.mem E w = e := by
        rw [pdeOf_dir_congr hne, hst.pde_own h, if_pos]
        rw [← hwv, vmPdirIdx_palignDown]
      obtain ⟨hmem, hbit⟩ := hnew (by rw [htable])
      exact Or.inr ⟨hmem, Or.inl hne, hbit⟩
    · -- in another address space the page is only seen behind the same table
      rw [hst.pde_other h hE hne] at hp hnew
      by_cases htable : palignDown (pdeOf m.mem E w) = palignDown e
      · obtain ⟨hmem, hbit⟩ := hnew htable
        exact Or.inr ⟨hmem, Or.inr (hst.table_shared h hE hp htable).2, hbit⟩
      · exact Or.inl ((hst.pte_other h hE hne hp htable).2.symm.trans hwf)
  · have hfar : palignDown w ∉ ({palignDown v} : Set (BitVec 32)) := by
      rw [palignDown_of_aligned h.page]
      exact hwv
    exact Or.inl ((hst.edited.walks E hE w hw hfar).symm.trans hwf)

/-- Flags of an entry. -/
theorem user_or_iff : (w ||| mapFlags flags) &&& pteU = 0#32 ↔
    w &&& pteU = 0#32 ∧ flags &&& pteU = 0#32 := by
  refine ⟨user_or, fun ⟨hw, hflags⟩ => ?_⟩
  have hpw : (pteP ||| pteW) &&& pteU = 0#32 := by decide
  rw [mapFlags, BitVec.and_or_distrib_right, BitVec.and_or_distrib_right, hw, hflags, hpw]
  decide

/-- The directory entry of the page is for user code if the flags say so. -/
theorem PageStored.user_entry (h : PageToMap K dirs n privileged p v flags m)
    (hst : PageStored K dirs n p v flags e m m') :
    e &&& pteU ≠ 0#32 ↔ UserRegion m.mem m.cr3 v ∨ flags &&& pteU ≠ 0#32 := by
  by_cases hp : Present (pdeOf m.mem m.cr3 v)
  · rw [(hst.old hp).1, UserRegion, ne_eq, user_or_iff]
    tauto
  · -- the frame of a new table has no flags of its own
    have hclean := entry_and (e := 0#32) (c := pteU)
      (h.paging.supply.aligned _ (h.new_frame hp)).1 (by decide)
    rw [BitVec.or_zero, BitVec.zero_and] at hclean
    rw [(hst.new hp).1, UserRegion, ne_eq, user_or_iff]
    tauto

/-- **What `map_page` of an unmapped page changes.** -/
theorem PageStored.mapsPages (h : PageToMap K dirs n privileged p v flags m)
    (hst : PageStored K dirs n p v flags e m m') :
    MapsPages K dirs m.cr3 privileged {(v, p)} m.mem m'.mem := by
  have hself : Leoman.walk m'.mem m.cr3 v = some p := by
    rw [hst.walk, palignDown_of_aligned h.frame]
  have htable : pdeOf m'.mem m.cr3 v = e := by
    rw [hst.pde_own h, if_pos rfl]
  have huser := hst.user_entry h
  have hopen : ∀ w, vmPdirIdx w = vmPdirIdx v → e &&& pteU ≠ 0#32 →
      UserRegion m'.mem m.cr3 w := by
    intro w hidx hbit
    have hv : UserRegion m'.mem m.cr3 v := by
      refine ⟨(walk_eq_some_iff.mp hself).1, ?_⟩
      rw [htable]
      exact hbit
    exact hv.congr hidx.symm
  refine ⟨fun u hmem => ?_, hst.edited.user, hst.edited.tables,
    fun E hE hne w => hst.pde_other h hE hne w, fun E hE hne w hsh => ?_,
    fun E hE w f hw hwf => hst.keeps h hE hw hwf, fun E hE w f hw hwf => hst.pages h hE hw hwf,
    fun u hmem => ?_, fun w hw => ?_, fun w hw => ?_, fun hpriv u hmem _ => ?_⟩
  · obtain rfl := Set.mem_singleton_iff.mp hmem
    exact h.region
  · -- a table that is new is in no other directory
    obtain ⟨hD, hE', heq⟩ := hsh
    rw [hst.pde_other h hE hne] at hE' heq
    rw [hst.pde_own h] at hD heq
    split at heq
    · exact (hst.table_shared h hE hE' heq.symm).2
    · rename_i hidx
      rw [if_neg hidx] at hD
      exact ⟨hD, hE', heq⟩
  · obtain rfl := Set.mem_singleton_iff.mp hmem
    have hx := hst.pte_page h (palignDown_of_aligned h.page) (by rw [htable])
    exact ⟨hself, hx.user.trans h.user⟩
  · -- only the directory entry of `v` may get the user bit
    by_cases hidx : vmPdirIdx w = vmPdirIdx v
    · have hbit := hw.2
      rw [hst.pde_own h, if_pos hidx] at hbit
      rcases huser.mp hbit with hold | hflags
      · exact Or.inl (hold.congr hidx.symm)
      · refine Or.inr ⟨?_, (v, p), rfl, h.unmapped, hidx.symm⟩
        exact Bool.eq_false_iff.mpr fun hpriv => hflags (h.user.mpr hpriv)
    · rw [UserRegion, hst.pde_own h, if_neg hidx] at hw
      exact Or.inl hw
  · by_cases hidx : vmPdirIdx w = vmPdirIdx v
    · exact hopen w hidx (huser.mpr (Or.inl (hw.congr hidx)))
    · rw [UserRegion, hst.pde_own h, if_neg hidx]
      exact hw
  · obtain rfl := Set.mem_singleton_iff.mp hmem
    refine hopen v rfl (huser.mpr (Or.inr fun hflags => ?_))
    rw [h.user.mp hflags] at hpriv
    cases hpriv

/-- A page that is mapped already. -/
theorem mapsPages_mapped {mem : Mem} {D : BitVec 32} (hreg : vmPdirIdx v ≠ 1023#32)
    (hv : walk mem D v = some p) (hbit : pteOf mem D v &&& pteU = 0#32 ↔ privileged = true) :
    MapsPages K dirs D privileged {(v, p)} mem mem := by
  refine ⟨fun u hmem => ?_, fun _ _ => rfl, fun _ _ _ hp => ⟨hp, rfl⟩, fun _ _ _ _ => rfl,
    fun _ _ _ _ hsh => hsh, fun _ _ _ _ _ hwf => ⟨hwf, rfl⟩, fun _ _ _ _ _ hwf => Or.inl hwf,
    fun u hmem => ?_, fun _ hw => Or.inl hw, fun _ hw => hw, fun _ u hmem hnone => ?_⟩
  · obtain rfl := Set.mem_singleton_iff.mp hmem
    exact hreg
  · obtain rfl := Set.mem_singleton_iff.mp hmem
    exact ⟨hv, hbit⟩
  · obtain rfl := Set.mem_singleton_iff.mp hmem
    rw [hv] at hnone
    exact absurd hnone (by simp)

/-- The entry that `map_page` accepts is for user code if the flags say so. -/
theorem SameMapping.user (hsame : SameMapping w p flags) (hf : flags.toNat < 0x20) :
    w &&& pteU = 0#32 ↔ flags &&& pteU = 0#32 := by
  have hbits : w &&& pteU = mapFlags flags &&& pteU := by
    have hlow : (0x1f#32 : BitVec 32) &&& pteU = pteU := by decide
    rw [← hlow, ← BitVec.and_assoc, hsame.2, BitVec.and_assoc]
  have hflags : mapFlags flags &&& pteU = flags &&& pteU := by
    rw [mapFlags_and hf]
    exact BitVec.or_zero
  rw [hbits, hflags]

end Page

end Leoman
