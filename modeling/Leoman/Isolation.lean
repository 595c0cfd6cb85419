import Leoman.ProcLoad

namespace Leoman

open ByteMem StateExcept

/-!
# Two processes, and the frames both reach

The frames of a segment are those its file is in, and as many after them as `p_memsz` asks for; the
frames of a stack are new.  A table of the kernel that two directories share shows the pages of
either process in the other, and a directory entry is opened to user code with the first page that
`map_page` maps in its region.

* `userReach` — the frames that user code reaches in an address space;
* `TwoMappings` — one process maps its pages, and then another one;
* `KeptApart` — the pages of the second that it does not find mapped are in no region of a shared
  table in which the first has pages, and have frames that the first does not have;
* `TwoMappings.disjoint_iff` — exactly then they reach no frame both, unless one is privileged;
* `TwoLoads` — two runs of `proc_load`, `TwoLoads.disjoint_iff` — the same for these, in terms of
  the files and of the state before each run;
* `TwoLoads.frames_ne` — the frames of the stacks are never the reason.
-/

/-! ### What user code reaches -/

/-- The frames that user code reaches in an address space. -/
def userReach (mem : Mem) (D : BitVec 32) : Set (BitVec 32) := {f | ∃ w, userWalk mem D w = some f}

/-- The table entry of `w` maps it to the frame `f`, for user code. -/
def UserPage (mem : Mem) (D w f : BitVec 32) : Prop :=
  walk mem D w = some f ∧ pteOf mem D w &&& pteU ≠ 0#32

/-- The address space has nothing for user code, in no entry. -/
structure NoUser (mem : Mem) (D : BitVec 32) : Prop where
  regions : ∀ w, ¬ UserRegion mem D w
  pages : ∀ w f, vmPdirIdx w ≠ 1023#32 → ¬ UserPage mem D w f

/-- From `mem` to `mem'` nothing has changed for user code in the address space `D`. -/
structure SameUser (D : BitVec 32) (mem mem' : Mem) : Prop where
  regions : ∀ w, UserRegion mem' D w ↔ UserRegion mem D w
  pages : ∀ w f, vmPdirIdx w ≠ 1023#32 → (UserPage mem' D w f ↔ UserPage mem D w f)

section Reach

variable {K dirs : Set (BitVec 32)} {D E w f : BitVec 32} {privileged : Bool}
  {L : Set (BitVec 32 × BitVec 32)} {mem mem' : Mem}

theorem mem_userReach : f ∈ userReach mem D ↔ ∃ w, UserRegion mem D w ∧ UserPage mem D w f :=
  exists_congr fun _ => userWalk_eq_some_iff

theorem Shares.symm (h : Shares mem D E w) : Shares mem E D w := ⟨h.2.1, h.1, h.2.2.symm⟩

theorem Shares.congr {u : BitVec 32} (h : Shares mem D E w) (heq : vmPdirIdx w = vmPdirIdx u) :
    Shares mem D E u := by
  rw [Shares, pdeOf_congr heq, pdeOf_congr heq] at h
  exact h

/-- A page for user code, behind a shared table. -/
theorem UserPage.shared (h : UserPage mem D w f) (hsh : Shares mem D E w) : UserPage mem E w f := by
  rw [UserPage, hsh.walk_eq, hsh.pteOf_eq]
  exact h

theorem userPage_palignDown : UserPage mem D (palignDown w) f ↔ UserPage mem D w f := by
  rw [UserPage, walk_palignDown, pteOf_palignDown, UserPage]

/-- A page has one frame. -/
theorem UserPage.unique {g : BitVec 32} (h : UserPage mem D w f) (h' : UserPage mem D w g) :
    f = g :=
  Option.some.inj (h.1.symm.trans h'.1)

/-- Nothing is for user code in any memory that has the frames of the tables as they are. -/
theorem NoUser.of_agree (h : NoUser mem D) (hs : Spaces K dirs mem) (hD : D ∈ dirs)
    (hagree : ∀ x, palignDown x ∈ K → mem' x = mem x) : NoUser mem' D := by
  refine ⟨fun w hw => ?_, fun w f hw hp => ?_⟩
  · rw [UserRegion, hs.pdeOf_agree hagree hD] at hw
    exact h.regions w hw
  · obtain ⟨hwalk, hpte⟩ := hp
    rw [hs.walk_agree hagree hD] at hwalk
    have hsame := hs.pteOf_agree hagree hD (walk_eq_some_iff.mp hwalk).1
    rw [hsame] at hpte
    exact h.pages w f hw ⟨hwalk, hpte⟩

/-- Pages for user code stay. -/
theorem MapsPages.keeps_user (h : MapsPages K dirs D privileged L mem mem') (hE : E ∈ dirs)
    (hw : vmPdirIdx w ≠ 1023#32) (hp : UserPage mem E w f) : UserPage mem' E w f := by
  obtain ⟨hwalk, hpte⟩ := h.keeps E hE w f hw hp.1
  refine ⟨hwalk, ?_⟩
  rw [hpte]
  exact hp.2

/-- A page for user code was one before, or was mapped. -/
theorem MapsPages.user_pages (h : MapsPages K dirs D privileged L mem mem') (hE : E ∈ dirs)
    (hw : vmPdirIdx w ≠ 1023#32) (hp : UserPage mem' E w f) :
    UserPage mem E w f ∨
      (palignDown w, f) ∈ L ∧ (palignDown E = palignDown D ∨ Shares mem D E w) := by
  rcases h.pages E hE w f hw hp.1 with hold | ⟨hL, hE', -⟩
  · have hbit := hp.2
    rw [(h.keeps E hE w f hw hold).2] at hbit
    exact Or.inl ⟨hold, hbit⟩
  · exact Or.inr ⟨hL, hE'⟩

/-- The pages mapped are for user code. -/
theorem MapsPages.user_page (h : MapsPages K dirs D privileged L mem mem')
    (hpriv : privileged = false) {u : BitVec 32 × BitVec 32} (hu : u ∈ L) :
    UserPage mem' D u.1 u.2 := by
  obtain ⟨hwalk, hbit⟩ := h.maps u hu
  refine ⟨hwalk, fun hzero => ?_⟩
  rw [hbit.mp hzero] at hpriv
  cases hpriv

/-- Tables are shared as before. -/
theorem MapsPages.shares_iff (h : MapsPages K dirs D privileged L mem mem') (hD : D ∈ dirs)
    (hE : E ∈ dirs) (hne : palignDown E ≠ palignDown D) :
    Shares mem' D E w ↔ Shares mem D E w := by
  refine ⟨h.shares E hE hne w, fun ⟨hp, hp', heq⟩ => ?_⟩
  obtain ⟨hD', hframe⟩ := h.tables D hD w hp
  obtain ⟨hE', hframe'⟩ := h.tables E hE w hp'
  exact ⟨hD', hE', hframe.trans (heq.trans hframe'.symm)⟩

/-- Other directories have the same entries for user code. -/
theorem MapsPages.region_other (h : MapsPages K dirs D privileged L mem mem') (hE : E ∈ dirs)
    (hne : palignDown E ≠ palignDown D) : UserRegion mem' E w ↔ UserRegion mem E w := by
  rw [UserRegion, h.others E hE hne w, UserRegion]

end Reach

/-! ### One process after another -/

/-- From `mem₀` to `mem₁` the address space `D` got the pages `L`, from `mem₂` to `mem₃` the address
    space `E` got the pages `L'`, and in between nothing changed for user code.  At first neither
    had anything for user code. -/
structure TwoMappings (K dirs : Set (BitVec 32)) (D E : BitVec 32) (privileged privileged' : Bool)
    (L L' : Set (BitVec 32 × BitVec 32)) (mem₀ mem₁ mem₂ mem₃ : Mem) : Prop where
  mem_dirs : D ∈ dirs ∧ E ∈ dirs
  other : palignDown E ≠ palignDown D
  noUser : NoUser mem₀ D ∧ NoUser mem₀ E
  aligned : ∀ u ∈ L', u.1.toNat % 4096 = 0
  first : MapsPages K dirs D privileged L mem₀ mem₁
  between : SameUser D mem₁ mem₂ ∧ SameUser E mem₁ mem₂
  tables : ∀ w, Shares mem₂ D E w ↔ Shares mem₁ D E w
  second : MapsPages K dirs E privileged' L' mem₂ mem₃

/-- The pages `L'` that are not found mapped, as pages of `L` in a table that the two directories
    share, are in no region of a shared table in which `L` has pages, and have frames that `L` does
    not have. -/
structure KeptApart (mem : Mem) (D E : BitVec 32) (L L' : Set (BitVec 32 × BitVec 32)) : Prop where
  tables : ∀ v ∈ L', ¬ (Shares mem D E v.1 ∧ v.1 ∈ Prod.fst '' L) →
    ∀ u ∈ L, vmPdirIdx u.1 = vmPdirIdx v.1 → ¬ Shares mem D E v.1
  frames : ∀ v ∈ L', ¬ (Shares mem D E v.1 ∧ v.1 ∈ Prod.fst '' L) → ∀ u ∈ L, u.2 ≠ v.2

namespace TwoMappings

variable {K dirs : Set (BitVec 32)} {D E w f : BitVec 32} {privileged privileged' : Bool}
  {L L' : Set (BitVec 32 × BitVec 32)} {mem₀ mem₁ mem₂ mem₃ : Mem} {u v : BitVec 32 × BitVec 32}
  (h : TwoMappings K dirs D E privileged privileged' L L' mem₀ mem₁ mem₂ mem₃)
include h

/-- What is shared is shared from the start. -/
theorem shares₁ : Shares mem₁ D E w ↔ Shares mem₀ D E w :=
  h.first.shares_iff h.mem_dirs.1 h.mem_dirs.2 h.other

theorem shares₂ : Shares mem₂ D E w ↔ Shares mem₀ D E w := (h.tables w).trans h.shares₁

theorem shares₃ : Shares mem₃ D E w ↔ Shares mem₀ D E w := by
  have hsecond := h.second.shares_iff h.mem_dirs.2 h.mem_dirs.1 (w := w) h.other.symm
  rw [← h.shares₂]
  exact ⟨fun hs => (hsecond.mp hs.symm).symm, fun hs => (hsecond.mpr hs.symm).symm⟩

/-- The first process finds none of its pages mapped, … -/
theorem first_new (hpriv : privileged = false) (hu : u ∈ L) : walk mem₀ D u.1 = none := by
  -- a page it finds mapped stays as it is, and is not for user code
  by_contra hne
  obtain ⟨g, hg⟩ := Option.ne_none_iff_exists'.mp hne
  have hreg := h.first.below u hu
  have hpage := (h.first.user_page hpriv hu).2
  rw [(h.first.keeps D h.mem_dirs.1 _ g hreg hg).2] at hpage
  exact h.noUser.1.pages _ g hreg ⟨hg, hpage⟩

/-- … the second those of the first in a table that is shared. -/
theorem second_new_iff (hpriv : privileged = false) (hpriv' : privileged' = false) (hv : v ∈ L') :
    walk mem₂ E v.1 = none ↔ ¬ (Shares mem₀ D E v.1 ∧ v.1 ∈ Prod.fst '' L) := by
  have hreg := h.second.below v hv
  constructor
  · rintro hnone ⟨hsh, u, hu, heq⟩
    have hpage := h.first.user_page hpriv hu
    rw [heq] at hpage
    have hpage' := hpage.shared (h.shares₁.mpr hsh)
    have hwalk := ((h.between.2.pages _ _ hreg).mpr hpage').1
    rw [hnone] at hwalk
    exact absurd hwalk (by simp)
  · intro hnot
    by_contra hne
    obtain ⟨g, hg⟩ := Option.ne_none_iff_exists'.mp hne
    -- it could only accept a page that is for user code already
    have hpage := (h.second.user_page hpriv' hv).2
    rw [(h.second.keeps E h.mem_dirs.2 _ g hreg hg).2] at hpage
    have hpage₁ := (h.between.2.pages _ _ hreg).mp ⟨hg, hpage⟩
    rcases h.first.user_pages h.mem_dirs.2 hreg hpage₁ with hold | ⟨hL, hE⟩
    · exact h.noUser.2.pages _ g hreg hold
    · rw [palignDown_of_aligned (h.aligned v hv)] at hL
      rw [h.first.shares_iff h.mem_dirs.1 h.mem_dirs.2 h.other |>.symm] at hE
      exact hnot ⟨h.shares₁.mp (hE.resolve_left h.other), _, hL, rfl⟩

/-- The directory entries of the first process that are for user code. -/
theorem region_first : UserRegion mem₃ D w ↔
    privileged = false ∧ ∃ u ∈ L, vmPdirIdx u.1 = vmPdirIdx w := by
  rw [h.second.region_other h.mem_dirs.1 h.other.symm, h.between.1.regions]
  constructor
  · intro hw
    rcases h.first.regions w hw with hold | ⟨hpriv, u, hu, -, heq⟩
    · exact absurd hold (h.noUser.1.regions w)
    · exact ⟨hpriv, u, hu, heq⟩
  · rintro ⟨hpriv, u, hu, heq⟩
    exact (h.first.opened hpriv u hu (h.first_new hpriv hu)).congr heq

/-- Those of the second: the regions of the pages that it does not find mapped. -/
theorem region_second : UserRegion mem₃ E w ↔
    privileged' = false ∧ ∃ v ∈ L', walk mem₂ E v.1 = none ∧ vmPdirIdx v.1 = vmPdirIdx w := by
  constructor
  · intro hw
    rcases h.second.regions w hw with hold | hnew
    · rw [h.between.2.regions, h.first.region_other h.mem_dirs.2 h.other] at hold
      exact absurd hold (h.noUser.2.regions w)
    · exact hnew
  · rintro ⟨hpriv, v, hv, hnone, heq⟩
    exact (h.second.opened hpriv v hv hnone).congr heq

/-- The pages of the first process for user code, in the end. -/
theorem page_first (hw : vmPdirIdx w ≠ 1023#32) (hp : UserPage mem₃ D w f) :
    (palignDown w, f) ∈ L ∨ (palignDown w, f) ∈ L' ∧ Shares mem₀ D E w := by
  rcases h.second.user_pages h.mem_dirs.1 hw hp with hold | ⟨hL, hE⟩
  · rcases h.first.user_pages h.mem_dirs.1 hw ((h.between.1.pages w f hw).mp hold) with hold | hnew
    · exact absurd hold (h.noUser.1.pages w f hw)
    · exact Or.inl hnew.1
  · exact Or.inr ⟨hL, h.shares₂.mp (hE.resolve_left h.other.symm).symm⟩

/-- Those of the second. -/
theorem page_second (hw : vmPdirIdx w ≠ 1023#32) (hp : UserPage mem₃ E w f) :
    (palignDown w, f) ∈ L' ∨ (palignDown w, f) ∈ L ∧ Shares mem₀ D E w := by
  rcases h.second.user_pages h.mem_dirs.2 hw hp with hold | hnew
  · rcases h.first.user_pages h.mem_dirs.2 hw ((h.between.2.pages w f hw).mp hold) with hold | hnew
    · exact absurd hold (h.noUser.2.pages w f hw)
    · exact Or.inr ⟨hnew.1, hnew.2.resolve_left h.other⟩
  · exact Or.inl hnew.1

/-- A page of the first process is for user code in the end. -/
theorem first_stays (hpriv : privileged = false) (hu : u ∈ L) : UserPage mem₃ D u.1 u.2 := by
  have hreg := h.first.below u hu
  apply h.second.keeps_user h.mem_dirs.1 hreg
  rw [h.between.1.pages _ _ hreg]
  exact h.first.user_page hpriv hu

/-- **Kept apart, they reach no frame both.** -/
theorem disjoint_of_keptApart (hpriv : privileged = false) (hpriv' : privileged' = false)
    (hk : KeptApart mem₀ D E L L') : Disjoint (userReach mem₃ D) (userReach mem₃ E) := by
  rw [Set.disjoint_left]
  intro f hf hf'
  obtain ⟨w, hregion, hpage⟩ := mem_userReach.mp hf
  obtain ⟨w', hregion', hpage'⟩ := mem_userReach.mp hf'
  obtain ⟨-, u₀, hu₀, hidx⟩ := h.region_first.mp hregion
  obtain ⟨-, v₀, hv₀, hnone, hidx'⟩ := h.region_second.mp hregion'
  have hw : vmPdirIdx w ≠ 1023#32 := hidx ▸ h.first.below u₀ hu₀
  have hw' : vmPdirIdx w' ≠ 1023#32 := hidx' ▸ h.second.below v₀ hv₀
  have hnew := (h.second_new_iff hpriv hpriv' hv₀).mp hnone
  -- in the region of `w'` the first process has no pages, or the table is not shared
  have hapart : ∀ u ∈ L, vmPdirIdx u.1 = vmPdirIdx w' → ¬ Shares mem₀ D E w' := by
    intro u hu heq hsh
    exact hk.tables v₀ hv₀ hnew u hu (heq.trans hidx'.symm) (hsh.congr hidx'.symm)
  have hsecond : (palignDown w', f) ∈ L' := by
    refine (h.page_second hw' hpage').resolve_right fun ⟨hL, hsh⟩ => ?_
    exact hapart _ hL (vmPdirIdx_palignDown w') hsh
  have hnotfound : ¬ (Shares mem₀ D E (palignDown w') ∧ palignDown w' ∈ Prod.fst '' L) := by
    rintro ⟨hsh, u, hu, heq⟩
    refine hapart u hu ?_ (hsh.congr (vmPdirIdx_palignDown w'))
    rw [heq, vmPdirIdx_palignDown]
  have hfirst : (palignDown w, f) ∈ L := by
    rcases h.page_first hw hpage with hL | ⟨hL, hsh⟩
    · exact hL
    · -- a page of the second process that shows in the first: it has found it there
      have hsh' := hsh.congr (vmPdirIdx_palignDown w).symm
      have hfound : Shares mem₀ D E (palignDown w) ∧ palignDown w ∈ Prod.fst '' L := by
        by_contra hnot
        refine hk.tables _ hL hnot u₀ hu₀ ?_ hsh'
        rw [hidx, vmPdirIdx_palignDown]
      obtain ⟨-, u, hu, heq⟩ := hfound
      have hg := h.first_stays hpriv hu
      rw [heq, userPage_palignDown] at hg
      rw [hpage.unique hg, ← heq]
      exact hu
  exact hk.frames _ hsecond hnotfound _ hfirst rfl

/-- **They reach a frame both**, if they are not. -/
theorem not_disjoint (hpriv : privileged = false) (hpriv' : privileged' = false)
    (hk : ¬ KeptApart mem₀ D E L L') : ¬ Disjoint (userReach mem₃ D) (userReach mem₃ E) := by
  have hreach : ∀ u ∈ L, u.2 ∈ userReach mem₃ D := fun u hu =>
    mem_userReach.mpr ⟨u.1, h.region_first.mpr ⟨hpriv, u, hu, rfl⟩, h.first_stays hpriv hu⟩
  have hreach' : ∀ v ∈ L', ¬ (Shares mem₀ D E v.1 ∧ v.1 ∈ Prod.fst '' L) →
      v.2 ∈ userReach mem₃ E := by
    intro v hv hnew
    have hnone := (h.second_new_iff hpriv hpriv' hv).mpr hnew
    exact mem_userReach.mpr ⟨v.1, h.region_second.mpr ⟨hpriv', v, hv, hnone, rfl⟩,
      h.second.user_page hpriv' hv⟩
  intro hdisj
  rw [Set.disjoint_left] at hdisj
  refine hk ⟨fun v hv hnew u hu heq hsh => ?_, fun v hv hnew u hu heq => ?_⟩
  · -- the page shows in the first process too
    refine hdisj (a := v.2) ?_ (hreach' v hv hnew)
    refine mem_userReach.mpr ⟨v.1, h.region_first.mpr ⟨hpriv, u, hu, heq⟩, ?_⟩
    exact (h.second.user_page hpriv' hv).shared (h.shares₃.mpr hsh).symm
  · have hboth := hreach u hu
    rw [heq] at hboth
    exact hdisj hboth (hreach' v hv hnew)

/-- **The frames both processes reach.** -/
theorem disjoint_iff : Disjoint (userReach mem₃ D) (userReach mem₃ E) ↔
    privileged = true ∨ privileged' = true ∨ KeptApart mem₀ D E L L' := by
  have hempty : ∀ F, (∀ w, ¬ UserRegion mem₃ F w) → userReach mem₃ F = ∅ := by
    intro F hF
    ext f
    rw [mem_userReach]
    exact iff_of_false (fun ⟨w, hw, _⟩ => hF w hw) (Set.notMem_empty f)
  -- a privileged process opens no region to user code, so it reaches nothing
  cases hpriv : privileged with
  | true =>
    have hnone := hempty D fun w hw => by
      have := (h.region_first.mp hw).1
      rw [hpriv] at this
      cases this
    rw [hnone]
    exact iff_of_true (Set.empty_disjoint _) (Or.inl rfl)
  | false =>
    cases hpriv' : privileged' with
    | true =>
      have hnone := hempty E fun w hw => by
        have := (h.region_second.mp hw).1
        rw [hpriv'] at this
        cases this
      rw [hnone]
      exact iff_of_true (Set.disjoint_empty _) (Or.inr (Or.inl rfl))
    | false =>
      have hfalse : ¬ false = true := Bool.false_ne_true
      rw [or_iff_right hfalse, or_iff_right hfalse]
      constructor
      · intro hdisj
        by_contra hk
        exact h.not_disjoint hpriv hpriv' hk hdisj
      · exact h.disjoint_of_keptApart hpriv hpriv'

end TwoMappings

/-! ### Two runs of `proc_load` -/

/-- A completed `proc_load`; `pm_alloc` had frames for its tables and its stack, and `c` more. -/
structure Loads {τ : Type} [Tlb τ] (K dirs : Set (BitVec 32)) (N c : Nat) (privileged : Bool)
    (addr : BitVec 32) (m m' : Machine τ) : Prop where
  start : Start K dirs (loadPages m.mem addr) N m
  enough : (lacking m.mem m.cr3 (loadPages m.mem addr)).ncard + (c + pagesOf userStackSize) ≤ N
  runs : ∃ entry, procLoad privileged addr m = .ok (entry, m')

/-- One process loads itself from `m₀` to `m₁`, and another one from `m₂` to `m₃`.  At first neither
    has anything for user code, and between the loads that stays as it is; the frames that the
    second gets are among those that were left after the first. -/
structure TwoLoads {τ : Type} [Tlb τ] (K dirs : Set (BitVec 32)) (N c N' : Nat)
    (privileged privileged' : Bool) (addr addr' : BitVec 32) (m₀ m₁ m₂ m₃ : Machine τ) : Prop where
  first : Loads K dirs N c privileged addr m₀ m₁
  second : Loads K dirs N' 0 privileged' addr' m₂ m₃
  other : palignDown m₂.cr3 ≠ palignDown m₀.cr3
  noUser : NoUser m₀.mem m₀.cr3 ∧ NoUser m₀.mem m₂.cr3
  between : SameUser m₀.cr3 m₁.mem m₂.mem ∧ SameUser m₂.cr3 m₁.mem m₂.mem
  tables : ∀ w, Shares m₂.mem m₀.cr3 m₂.cr3 w ↔ Shares m₁.mem m₀.cr3 m₂.cr3 w
  frames : ∀ F ∈ nextFrames N' m₂.pm, F ∈ nextFrames c m₁.pm

section Loads

variable {τ : Type} [Tlb τ] {K dirs : Set (BitVec 32)} {N c N' : Nat}
  {privileged privileged' : Bool} {addr addr' : BitVec 32} {m m' m₀ m₁ m₂ m₃ : Machine τ}
  {u v : BitVec 32 × BitVec 32}

omit [Tlb τ] in
/-- What a process maps begins at pages. -/
theorem aligned_of_mem_processFrames (hu : u ∈ processFrames m (imagePages m.mem addr)) :
    u.1.toNat % 4096 = 0 := by
  rcases List.mem_append.mp hu with hu | hu
  · unfold imagePages at hu
    split at hu
    · obtain ⟨h, -, hpages⟩ := mem_elfPages.mp hu
      obtain ⟨i, -, hq, -⟩ := ElfPheader.mem_pages.mp hpages
      rw [hq]
      exact pageAt_aligned (palignDown_aligned _)
    · cases hu
  · have hq : u.1 ∈ stackPages := map_fst_stackFrames ▸ List.mem_map_of_mem hu
    obtain ⟨i, -, heq⟩ := List.mem_map.mp hq
    rw [← heq]
    exact pageAt_aligned (by decide)

omit [Tlb τ] in
/-- The pages mapped are those that tables are counted for. -/
theorem exists_processFrames {q : BitVec 32} (hq : q ∈ loadPages m.mem addr) :
    ∃ u ∈ processFrames m (imagePages m.mem addr), u.1 = q := by
  have hmap : (processFrames m (imagePages m.mem addr)).map Prod.fst
      = (imagePages m.mem addr).map Prod.fst ++ stackPages := by
    rw [processFrames, List.map_append, map_fst_stackFrames]
  have hmem : q ∈ (imagePages m.mem addr).map Prod.fst ++ stackPages := List.mem_append.mpr hq
  rw [← hmap] at hmem
  exact List.mem_map.mp hmem

omit [Tlb τ] in
/-- The tables of a process, counted by its pages. -/
theorem ncard_loadPages : (lacking m.mem m.cr3 (loadPages m.mem addr)).ncard
    = tablesNeeded m.mem m.cr3 ((imagePages m.mem addr).map Prod.fst ++ stackPages) := by
  rw [← ncard_lacking]
  refine congrArg (fun P => (lacking m.mem m.cr3 P).ncard) ?_
  ext q
  exact List.mem_append.symm

/-- **The frames that user code of both processes reaches** after `proc_load` has run in both: none,
    exactly if one of them is privileged or their pages are kept apart. -/
theorem TwoLoads.disjoint_iff
    (h : TwoLoads K dirs N c N' privileged privileged' addr addr' m₀ m₁ m₂ m₃)
    (hsees : SeesFile K m₀.mem m₀.cr3 addr) (hsees' : SeesFile K m₂.mem m₂.cr3 addr') :
    Disjoint (userReach m₃.mem m₀.cr3) (userReach m₃.mem m₂.cr3) ↔ privileged = true ∨
      privileged' = true ∨ KeptApart m₀.mem m₀.cr3 m₂.cr3
        {u | u ∈ processFrames m₀ (imagePages m₀.mem addr)}
        {v | v ∈ processFrames m₂ (imagePages m₂.mem addr')} := by
  obtain ⟨entry, hrun⟩ := h.first.runs
  obtain ⟨entry', hrun'⟩ := h.second.runs
  have hload := procLoad_loads m₀ h.first.start hsees h.first.enough hrun
  have hload' := procLoad_loads m₂ h.second.start hsees' h.second.enough hrun'
  -- two loads are two mappings
  have hpair : TwoMappings K dirs m₀.cr3 m₂.cr3 privileged privileged'
      {u | u ∈ processFrames m₀ (imagePages m₀.mem addr)}
      {v | v ∈ processFrames m₂ (imagePages m₂.mem addr')} m₀.mem m₁.mem m₂.mem m₃.mem :=
    ⟨⟨h.first.start.current, h.second.start.current⟩, h.other, h.noUser,
      fun u hu => aligned_of_mem_processFrames hu, hload.mapped, h.between, h.tables, hload'.mapped⟩
  exact hpair.disjoint_iff

/-- **All frames are different**, when those of the images are, and are none that `pm_alloc` gives
    out. -/
theorem TwoLoads.frames_ne
    (h : TwoLoads K dirs N c N' privileged privileged' addr addr' m₀ m₁ m₂ m₃)
    (hsees : SeesFile K m₀.mem m₀.cr3 addr)
    (hoff : ∀ u, u ∈ imagePages m₀.mem addr ∨ u ∈ imagePages m₂.mem addr' →
      u.2 ∉ nextFrames N m₀.pm)
    (hne : ∀ u ∈ imagePages m₀.mem addr, ∀ v ∈ imagePages m₂.mem addr', u.2 ≠ v.2) :
    ∀ u ∈ processFrames m₀ (imagePages m₀.mem addr),
      ∀ v ∈ processFrames m₂ (imagePages m₂.mem addr'), u.2 ≠ v.2 := by
  obtain ⟨entry, hrun⟩ := h.first.runs
  have hload := procLoad_loads m₀ h.first.start hsees h.first.enough hrun
  obtain ⟨n, k, hcount⟩ := hload.frames
  -- the frames of the first stack, and those that were left
  have hnone := hload.lacking_eq_empty fun q hq => by
    obtain ⟨u, hu, heq⟩ := exists_processFrames hq
    exact ⟨u, hu, congrArg vmPdirIdx heq⟩
  have htaken := hcount.taken
  rw [hnone, Set.ncard_empty, Nat.add_zero, ncard_loadPages] at htaken
  have hsplit : nextFrames N m₀.pm = nextFrames k m₀.pm ++ nextFrames n m₁.pm := by
    rw [← hcount.total, nextFrames_add, ← hcount.pm]
  have hfirst : ∀ u ∈ stackFrames m₀.mem m₀.cr3 m₀.pm (imagePages m₀.mem addr),
      u.2 ∈ nextFrames k m₀.pm := by
    intro u hu
    obtain ⟨i, hi, heq⟩ := stackFrames_frameAt hu
    rw [heq, htaken]
    exact frameAt_mem hi
  have hsecond : ∀ v ∈ stackFrames m₂.mem m₂.cr3 m₂.pm (imagePages m₂.mem addr'),
      v.2 ∈ nextFrames n m₁.pm := by
    intro v hv
    obtain ⟨i, hi, heq⟩ := stackFrames_frameAt hv
    have henough := h.second.enough
    have hleft := hcount.enough
    rw [ncard_loadPages] at henough
    apply (nextFrames_sublist (k := c) (by omega) m₁.pm).subset
    apply h.frames
    rw [heq]
    exact frameAt_mem (by omega)
  have hnodup := h.first.start.paging.supply.nodup
  rw [show m₀.bare.pm = m₀.pm from rfl, hsplit, List.nodup_append] at hnodup
  rw [hsplit] at hoff
  intro u hu v hv heq
  rcases List.mem_append.mp hu with hu | hu
  · rcases List.mem_append.mp hv with hv | hv
    · exact hne u hu v hv heq
    · apply hoff u (Or.inl hu)
      rw [heq]
      exact List.mem_append_right _ (hsecond v hv)
  · rcases List.mem_append.mp hv with hv | hv
    · apply hoff v (Or.inr hv)
      rw [← heq]
      exact List.mem_append_left _ (hfirst u hu)
    · exact hnodup.2.2 _ (hfirst u hu) _ (hsecond v hv) heq

end Loads

end Leoman
