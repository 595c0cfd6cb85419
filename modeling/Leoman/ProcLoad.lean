import Leoman.Elf
import Leoman.MapsPages

namespace Leoman

open ByteMem StateExcept

/-!
# Loading a process (`proc_load`)

A process loads itself, in its own address space, when it first runs: `elf_load` maps the pages of
its file, and `vm_alloc_pages_at` maps new frames for its stack.  The directory it starts with has
the page tables of the kernel, and all processes share these.

* `procLoad` — the code, up to the `iret`;
* `Start` — the address space it starts in;
* `FrameCount` — how often `pm_alloc` was called: once for each table that was lacking, and for each
  page of the stack;
* `LoadState` — some pages were mapped, and there are frames for what is to come;
* `LoadState.page`, `LoadState.loop`, `LoadState.pheaders`, `LoadState.stack` — a page, a segment,
  the executable, the stack;
* `processFrames` — the pages of the process and their frames, from the state it starts in;
* `procLoad_loads` — a completed `proc_load` has mapped exactly these, for user code unless the
  process is privileged;
* `procLoad_completes` — it completes for executables whose segments have pages of their own.
-/

/-! ### The code -/

/-- `VM_USER_STACK_ADDR`. -/
def vmUserStackAddr : BitVec 32 := 0xd0000000#32

/-- `user_stack_size`: 16 KiB. -/
def userStackSize : BitVec 32 := 0x4000#32

/-- The magic number of an executable. -/
def elfMagic : BitVec 32 := 0x464c457f#32

section Code

variable {τ : Type} [Tlb τ]

/-- `proc_load`: the entry point it goes to.  `privileged` and `addr` are those of `current_proc`;
    what is no executable is taken for code as it is. -/
def procLoad (privileged : Bool) (addr : BitVec 32) : Code Trap (Machine τ) (BitVec 32) := do
  let magic ← load32 addr
  let entry ← if magic = elfMagic then elfLoad privileged addr else pure addr
  vmAllocPagesAt (vmUserStackAddr - userStackSize) (if privileged then 0#32 else pteU)
    userStackSize
  return entry

end Code

/-! ### Loads at their physical address -/

section Loads

variable {τ : Type} [Tlb τ] {m : Machine τ} {a : BitVec 32} {n i : Nat}

/-- The translation of a byte that is at its physical address. -/
theorem translate_phys (hc : Coherent m.tlb m.mem m.cr3)
    (ha : ∀ i < n, hwTranslate m.mem m.cr3 (a + BitVec.ofNat 32 i) = some (a + BitVec.ofNat 32 i))
    (hi : i < n) : ∃ t, translate (a + BitVec.ofNat 32 i) m
        = .ok (a + BitVec.ofNat 32 i, { m with tlb := t }) ∧ Coherent t m.mem m.cr3 := by
  obtain ⟨hw, heq⟩ := walk_of_hwTranslate (ha i hi)
  obtain ⟨t, ht, hct, -⟩ := translate_of_walk hc hw
  rw [← heq] at ht
  exact ⟨t, ht, hct⟩

/-- A word. -/
theorem load32_phys (hc : Coherent m.tlb m.mem m.cr3)
    (ha : ∀ i < 4, hwTranslate m.mem m.cr3 (a + BitVec.ofNat 32 i) = some (a + BitVec.ofNat 32 i)) :
    ∃ t, load32 a m = .ok (read32 m.mem a, { m with tlb := t }) ∧ Coherent t m.mem m.cr3 := by
  obtain ⟨t₀, h₀, hc₀⟩ := translate_phys hc ha (i := 0) (by omega)
  obtain ⟨t₁, h₁, hc₁⟩ := translate_phys (m := { m with tlb := t₀ }) hc₀ ha (i := 1) (by omega)
  obtain ⟨t₂, h₂, hc₂⟩ := translate_phys (m := { m with tlb := t₁ }) hc₁ ha (i := 2) (by omega)
  obtain ⟨t₃, h₃, hc₃⟩ := translate_phys (m := { m with tlb := t₂ }) hc₂ ha (i := 3) (by omega)
  rw [show BitVec.ofNat 32 0 = 0#32 from rfl, BitVec.add_zero] at h₀
  refine ⟨t₃, ?_, hc₃⟩
  unfold load32
  rw [run_bind_of_ok h₀, run_bind_of_ok h₁, run_bind_of_ok h₂, run_bind_of_ok h₃]
  rfl

/-- A half word. -/
theorem load16_phys (hc : Coherent m.tlb m.mem m.cr3)
    (ha : ∀ i < 2, hwTranslate m.mem m.cr3 (a + BitVec.ofNat 32 i) = some (a + BitVec.ofNat 32 i)) :
    ∃ t, load16 a m = .ok (m.mem (a + 1#32) ++ m.mem a, { m with tlb := t }) ∧
      Coherent t m.mem m.cr3 := by
  obtain ⟨t₀, h₀, hc₀⟩ := translate_phys hc ha (i := 0) (by omega)
  obtain ⟨t₁, h₁, hc₁⟩ := translate_phys (m := { m with tlb := t₀ }) hc₀ ha (i := 1) (by omega)
  rw [show BitVec.ofNat 32 0 = 0#32 from rfl, BitVec.add_zero] at h₀
  refine ⟨t₁, ?_, hc₁⟩
  unfold load16
  rw [run_bind_of_ok h₀, run_bind_of_ok h₁]
  rfl

end Loads

/-! ### The frames of a process -/

/-- What `pm_alloc` returns after `k` calls. -/
def frameAt (pm : Pm) (k : Nat) : BitVec 32 := (pmAlloc (pmAfter k pm)).1

/-- Pages from `v` on, with what `pm_alloc` returns after `a` calls, and on. -/
def framesFrom (pm : Pm) (v : BitVec 32) (a k : Nat) : List (BitVec 32 × BitVec 32) :=
  (List.range k).map fun i => (pageAt v i, frameAt pm (a + i))

/-- The number of page tables that pages lack. -/
def tablesNeeded (mem : Mem) (D : BitVec 32) (pages : List (BitVec 32)) : Nat :=
  ((pages.filter fun q => ¬ Present (pdeOf mem D q)).map vmPdirIdx).dedup.length

section Frames

variable {pm : Pm} {mem : Mem} {D v : BitVec 32} {pages : List (BitVec 32)} {a k N : Nat}

theorem frameAt_mem (hk : k < N) : frameAt pm k ∈ nextFrames N pm := by
  obtain ⟨j, rfl⟩ : ∃ j, N = k + (j + 1) := ⟨N - (k + 1), by omega⟩
  rw [nextFrames_add]
  apply List.mem_append_right
  exact List.mem_cons_self

/-- The first page by itself. -/
theorem framesFrom_succ : framesFrom pm v a (k + 1)
    = (v, frameAt pm a) :: framesFrom pm (v + pageSize) (a + 1) k := by
  rw [framesFrom, List.range_succ_eq_map, List.map_cons, List.map_map, pageAt_zero, Nat.add_zero]
  refine congrArg (_ :: ·) (List.map_congr_left fun i _ => ?_)
  rw [pageAt_succ, Nat.add_assoc, Nat.add_comm 1]
  rfl

theorem map_fst_framesFrom : (framesFrom pm v a k).map Prod.fst = (List.range k).map (pageAt v) :=
  List.map_map

theorem ncard_lacking : (lacking mem D {q | q ∈ pages}).ncard = tablesNeeded mem D pages := by
  have hset : lacking mem D {q | q ∈ pages}
      = ↑((pages.filter fun q => ¬ Present (pdeOf mem D q)).map vmPdirIdx).toFinset := by
    ext r
    simp only [lacking, Set.mem_ofPred_eq, List.coe_toFinset, List.mem_map, List.mem_filter,
      decide_eq_true_eq]
    exact exists_congr fun q => by tauto
  rw [hset, Set.ncard_coe_finset, List.card_toFinset, tablesNeeded]

end Frames

/-! ### The address space in the making -/

/-- The address space that pages `P` are mapped in next, which are below the windows. -/
structure Start {τ : Type} [Tlb τ] (K dirs P : Set (BitVec 32)) (N : Nat) (m : Machine τ) :
    Prop where
  coherent : Coherent m.tlb m.mem m.cr3
  paging : Paging K dirs N m.bare
  below : ∀ q ∈ P, vmPdirIdx q ≠ 1023#32

/-- From `m₀` to `m` `pm_alloc` was called `k` times: for the tables that the pages `P` have got,
    and `t` times for the stack.  It has `n` frames left, enough for the tables that they lack, and
    `c` more. -/
structure FrameCount {τ : Type} [Tlb τ] (K dirs P : Set (BitVec 32)) (N : Nat) (m₀ : Machine τ)
    (t c : Nat) (m : Machine τ) (n k : Nat) : Prop where
  paging : Paging K dirs n m.bare
  enough : (lacking m.mem m.cr3 P).ncard + c ≤ n
  total : k + n = N
  pm : m.pm = pmAfter k m₀.pm
  taken : k + (lacking m.mem m.cr3 P).ncard = (lacking m₀.mem m₀.cr3 P).ncard + t

/-- From `m₀` to `m` the pages `L` of the current address space were mapped, and `t` frames taken
    for the stack; there are frames for the tables that the pages `P` lack, and `c` more. -/
structure LoadState {τ : Type} [Tlb τ] (K dirs P : Set (BitVec 32)) (N : Nat) (privileged : Bool)
    (m₀ : Machine τ) (t : Nat) (L : Set (BitVec 32 × BitVec 32)) (c : Nat) (m : Machine τ) :
    Prop where
  cr3 : m.cr3 = m₀.cr3
  coherent : Coherent m.tlb m.mem m.cr3
  mapped : MapsPages K dirs m₀.cr3 privileged L m₀.mem m.mem
  frames : ∃ n k, FrameCount K dirs P N m₀ t c m n k

section LoadState

variable {τ : Type} [Tlb τ] {K dirs P : Set (BitVec 32)} {N t c : Nat} {privileged : Bool}
  {m₀ m m' : Machine τ} {L : Set (BitVec 32 × BitVec 32)} {p v flags : BitVec 32}

theorem Start.spaces (h : Start K dirs P N m) : Spaces K dirs m.mem := h.paging.spaces

theorem Start.current (h : Start K dirs P N m) : m.cr3 ∈ dirs := h.paging.current

/-- Before the first page. -/
theorem Start.loaded (h : Start K dirs P N m₀) (hn : (lacking m₀.mem m₀.cr3 P).ncard + c ≤ N) :
    LoadState K dirs P N privileged m₀ 0 ∅ c m₀ :=
  ⟨rfl, h.coherent, MapsPages.refl, N, 0, h.paging, hn, Nat.zero_add N, rfl, Nat.add_comm _ _⟩

/-- An access retains a translation in the TLB, and changes nothing else. -/
theorem LoadState.access (h : LoadState K dirs P N privileged m₀ t L c m) {tlb : τ}
    (hc : Coherent tlb m.mem m.cr3) :
    LoadState K dirs P N privileged m₀ t L c { m with tlb := tlb } := by
  obtain ⟨n, k, hcount⟩ := h.frames
  exact ⟨h.cr3, hc, h.mapped, n, k, hcount.paging, hcount.enough, hcount.total, hcount.pm,
    hcount.taken⟩

/-- More pages, to the same directory. -/
theorem LoadState.insert_page (h : LoadState K dirs P N privileged m₀ t L c m)
    (hcur : m.cr3 ∈ dirs) {mem : Mem}
    (hpage : MapsPages K dirs m.cr3 privileged {(v, p)} m.mem mem) :
    MapsPages K dirs m₀.cr3 privileged (insert (v, p) L) m₀.mem mem := by
  rw [h.cr3] at hcur hpage
  rw [← Set.union_singleton]
  exact h.mapped.trans hpage hcur

/-- The regions that lack a table after one page more. -/
theorem PageStored.lacking_eq {e : BitVec 32} {n : Nat}
    (hst : PageStored K dirs n p v flags e m m')
    (hmap : PageToMap K dirs n privileged p v flags m) :
    lacking m'.mem m'.cr3 P = lacking m.mem m.cr3 P \ {vmPdirIdx v} := by
  have hpresent : Present e := by
    have hself := (walk_eq_some_iff.mp hst.walk).1
    rw [hst.pde_own hmap, if_pos rfl] at hself
    exact hself
  ext r
  rw [hst.cr3]
  constructor
  · rintro ⟨q, hq, rfl, hno⟩
    rw [hst.pde_own hmap] at hno
    split at hno
    · exact absurd hpresent hno
    · rename_i hidx
      exact ⟨⟨q, hq, rfl, hno⟩, hidx⟩
  · rintro ⟨⟨q, hq, rfl, hno⟩, hidx⟩
    have hne : vmPdirIdx q ≠ vmPdirIdx v := hidx
    refine ⟨q, hq, rfl, ?_⟩
    rw [hst.pde_own hmap, if_neg hne]
    exact hno

/-- **The frames** after one page more. -/
theorem FrameCount.page {e : BitVec 32} {n k : Nat} (h : FrameCount K dirs P N m₀ t c m n k)
    (hst : PageStored K dirs n p v flags e m m')
    (hmap : PageToMap K dirs n privileged p v flags m) (hv : v ∈ P) :
    ∃ n' k', FrameCount K dirs P N m₀ t c m' n' k' := by
  have hpag := hst.paging
  have hlacking := hst.lacking_eq hmap (P := P)
  by_cases hp : Present (pdeOf m.mem m.cr3 v)
  · -- the table is there, so `pm_alloc` was not asked
    rw [if_pos hp] at hpag
    have hnot : vmPdirIdx v ∉ lacking m.mem m.cr3 P := by
      rintro ⟨q, -, hidx, hno⟩
      rw [pdeOf_congr hidx] at hno
      exact hno hp
    rw [Set.sdiff_singleton_eq_self hnot] at hlacking
    refine ⟨n, k, hpag, ?_, h.total, ?_, ?_⟩
    · rw [hlacking]
      exact h.enough
    · rw [(hst.old hp).2]
      exact h.pm
    · rw [hlacking]
      exact h.taken
  · -- a table more, and a region less that lacks one
    rw [if_neg hp] at hpag
    have hmem : vmPdirIdx v ∈ lacking m.mem m.cr3 P := ⟨v, hv, rfl, hp⟩
    have hless := Set.ncard_sdiff_singleton_add_one hmem lacking_finite
    rw [← hlacking] at hless
    have henough := h.enough
    have htotal := h.total
    have htaken := h.taken
    refine ⟨n - 1, k + 1, hpag, by omega, by omega, ?_, by omega⟩
    rw [(hst.new hp).2, h.pm, pmAfter_add]
    rfl

/-- A new page. -/
theorem LoadState.page_new (h : LoadState K dirs P N privileged m₀ t L c m)
    (h₀ : Start K dirs P N m₀)
    (hv : v ∈ P) (hva : v.toNat % 4096 = 0) (hpa : p.toNat % 4096 = 0) (hf : flags.toNat < 0x20)
    (hu : flags &&& pteU = 0#32 ↔ privileged = true) (hwalk : walk m.mem m.cr3 v = none) :
    ∃ m', mapPage p v flags m = .ok ((), m') ∧
      LoadState K dirs P N privileged m₀ t (insert (v, p) L) c m' := by
  obtain ⟨n, k, hcount⟩ := h.frames
  have hpag := hcount.paging
  have hpos : ¬ Present (pdeOf m.mem m.cr3 v) → 0 < n := by
    intro ha
    have hsome : 0 < (lacking m.mem m.cr3 P).ncard :=
      (Set.ncard_pos lacking_finite).mpr ⟨vmPdirIdx v, v, hv, rfl, ha⟩
    have henough := hcount.enough
    omega
  have hmap : PageToMap K dirs n privileged p v flags m :=
    ⟨hpag, hpos, h₀.below v hv, hva, hpa, hf, hu, hwalk⟩
  obtain ⟨m', e, hrun, hst⟩ :=
    mapPage_stores h.coherent hpag hpos hwalk hmap.region p hmap.flags_lt
  exact ⟨m', hrun, hst.cr3.trans h.cr3, hst.coherent,
    h.insert_page hmap.current (hst.mapsPages hmap), hcount.page hst hmap hv⟩

/-- **Step lemma.**  A completed `map_page`: the page was mapped to the frame already, or is now. -/
theorem LoadState.page (h : LoadState K dirs P N privileged m₀ t L c m) (h₀ : Start K dirs P N m₀)
    (hv : v ∈ P) (hva : v.toNat % 4096 = 0) (hpa : p.toNat % 4096 = 0) (hf : flags.toNat < 0x20)
    (hu : flags &&& pteU = 0#32 ↔ privileged = true) (hrun : mapPage p v flags m = .ok ((), m')) :
    LoadState K dirs P N privileged m₀ t (insert (v, p) L) c m' := by
  by_cases hwalk : walk m.mem m.cr3 v = none
  · obtain ⟨m₁, hrun₁, h₁⟩ := h.page_new h₀ hv hva hpa hf hu hwalk
    obtain rfl := (Prod.mk.inj (Except.ok.inj (hrun.symm.trans hrun₁))).2
    exact h₁
  · -- a page that is mapped: `map_page` compares the entries, and halts if they differ
    obtain ⟨g, hg⟩ := Option.ne_none_iff_exists'.mp hwalk
    obtain ⟨hp, hp', hframe⟩ := walk_eq_some_iff.mp hg
    obtain ⟨n, k, hcount⟩ := h.frames
    have hpag := hcount.paging
    have hr : Recursive m.mem m.cr3 := hpag.spaces.recursive _ hpag.current
    obtain ⟨tlb, hct, -, hif⟩ := @mapPage_present _ _ _ h.coherent hr p v flags hp hp'
    rw [hif] at hrun
    split at hrun
    · rename_i hsame
      obtain rfl := (Prod.mk.inj (Except.ok.inj hrun)).2
      have hgp : g = p := by
        rw [← hframe]
        exact hsame.1.trans ((palignDown_palignDown p).trans (palignDown_of_aligned hpa))
      rw [hgp] at hg
      have hpage : MapsPages K dirs m.cr3 privileged {(v, p)} m.mem m.mem :=
        mapsPages_mapped (h₀.below v hv) hg ((hsame.user hf).trans hu)
      exact ⟨h.cr3, hct, h.insert_page hpag.current hpage, n, k, hpag, hcount.enough, hcount.total,
        hcount.pm, hcount.taken⟩
    · exact absurd hrun (by simp)

/-- **Run lemma.**  A completed loop of `map_pages`. -/
theorem LoadState.loop (h : LoadState K dirs P N privileged m₀ t L c m) (h₀ : Start K dirs P N m₀)
    {k : Nat} (hP : ∀ i < k, pageAt v i ∈ P) (hva : v.toNat % 4096 = 0) (hpa : p.toNat % 4096 = 0)
    (hf : flags.toNat < 0x20) (hu : flags &&& pteU = 0#32 ↔ privileged = true)
    (hrun : mapPagesLoop flags k p v m = .ok ((), m')) :
    LoadState K dirs P N privileged m₀ t (L ∪ {u | u ∈ rangePages p v k}) c m' := by
  induction k generalizing m' with
  | zero =>
    obtain ⟨-, rfl⟩ := Prod.mk.inj (Except.ok.inj hrun)
    have hempty : L ∪ {u | u ∈ rangePages p v 0} = L := by simp [rangePages]
    rw [hempty]
    exact h
  | succ k ih =>
    rw [mapPagesLoop_succ] at hrun
    obtain ⟨⟨⟩, m₁, hrun₁, hlast⟩ := bind_ok_iff.mp hrun
    have h₁ := ih (fun i hi => hP i (by omega)) hrun₁
    have h₂ := h₁.page h₀ (hP k (by omega)) (pageAt_aligned hva) (pageAt_aligned hpa) hf hu hlast
    have hpages : L ∪ {u | u ∈ rangePages p v (k + 1)}
        = insert (pageAt v k, pageAt p k) (L ∪ {u | u ∈ rangePages p v k}) := by
      ext u
      simp only [rangePages, List.range_succ, List.map_append, List.mem_append, List.map_cons,
        List.map_nil, List.mem_singleton, Set.mem_union, Set.mem_ofPred_eq, Set.mem_insert_iff]
      tauto
    rw [hpages]
    exact h₂

/-! ### The executable -/

section Executable

variable {file a : BitVec 32} {n i : Nat}

/-- What the process sees of its file. -/
theorem LoadState.maps_file (h : LoadState K dirs P N privileged m₀ t L c m)
    (h₀ : Start K dirs P N m₀)
    (hb : UserBytes K m₀.mem m₀.cr3 a n (physBytes a)) (hi : i < n) :
    hwTranslate m.mem m.cr3 (a + BitVec.ofNat 32 i) = some (a + BitVec.ofNat 32 i) := by
  rw [h.cr3]
  exact (h.mapped.userBytes h₀.spaces h₀.current hb).maps i hi

/-- The bytes of the file are as they were. -/
theorem LoadState.byte (h : LoadState K dirs P N privileged m₀ t L c m)
    (hb : UserBytes K m₀.mem m₀.cr3 a n (physBytes a)) (hi : i < n) :
    m.mem (a + BitVec.ofNat 32 i) = m₀.mem (a + BitVec.ofNat 32 i) :=
  h.mapped.user _ (hb.user i hi)

/-- A load from the file. -/
theorem LoadState.load32 (h : LoadState K dirs P N privileged m₀ t L c m) (h₀ : Start K dirs P N m₀)
    (hb : UserBytes K m₀.mem m₀.cr3 a n (physBytes a)) (hn : 4 ≤ n) :
    ∃ m', Leoman.load32 a m = .ok (read32 m₀.mem a, m') ∧
      LoadState K dirs P N privileged m₀ t L c m' := by
  obtain ⟨t, hrun, hc⟩ := load32_phys h.coherent fun i hi => h.maps_file h₀ hb (i := i) (by omega)
  have hword : read32 m.mem a = read32 m₀.mem a := by
    have hzero := h.byte hb (i := 0) (by omega)
    rw [show BitVec.ofNat 32 0 = 0#32 from rfl, BitVec.add_zero] at hzero
    rw [read32, read32, hzero, show 1#32 = BitVec.ofNat 32 1 from rfl, h.byte hb (by omega),
      show 2#32 = BitVec.ofNat 32 2 from rfl, h.byte hb (by omega),
      show 3#32 = BitVec.ofNat 32 3 from rfl, h.byte hb (by omega)]
  rw [hword] at hrun
  exact ⟨_, hrun, h.access hc⟩

theorem LoadState.load16 (h : LoadState K dirs P N privileged m₀ t L c m) (h₀ : Start K dirs P N m₀)
    (hb : UserBytes K m₀.mem m₀.cr3 a n (physBytes a)) (hn : 2 ≤ n) :
    ∃ m', Leoman.load16 a m = .ok (m₀.mem (a + 1#32) ++ m₀.mem a, m') ∧
      LoadState K dirs P N privileged m₀ t L c m' := by
  obtain ⟨t, hrun, hc⟩ := load16_phys h.coherent fun i hi => h.maps_file h₀ hb (i := i) (by omega)
  have hzero := h.byte hb (i := 0) (by omega)
  rw [show BitVec.ofNat 32 0 = 0#32 from rfl, BitVec.add_zero] at hzero
  have hone := h.byte hb (i := 1) (by omega)
  rw [hzero, show 1#32 = BitVec.ofNat 32 1 from rfl, hone] at hrun
  exact ⟨_, hrun, h.access hc⟩

theorem elfFlags_user (privileged : Bool) : (elfFlags privileged).toNat < 0x20 ∧
    (elfFlags privileged &&& pteU = 0#32 ↔ privileged = true) := by
  cases privileged <;> decide

/-- A completed round of the loop of `elf_load`. -/
theorem LoadState.pheader (h : LoadState K dirs P N privileged m₀ t
      {u | u ∈ elfPagesUpTo m₀.mem file i} c m) (h₀ : Start K dirs P N m₀)
    (hb : UserBytes K m₀.mem m₀.cr3 (elfPheaders m₀.mem file) (32 * elfPhnum m₀.mem file)
      (physBytes (elfPheaders m₀.mem file)))
    (hP : ∀ u ∈ elfPages m₀.mem file, u.1 ∈ P) (hi : i < elfPhnum m₀.mem file)
    (hrun : elfLoadPheader privileged file (elfPheaders m₀.mem file + BitVec.ofNat 32 (32 * i)) m
      = .ok ((), m')) :
    LoadState K dirs P N privileged m₀ t {u | u ∈ elfPagesUpTo m₀.mem file (i + 1)} c m' := by
  have hbytes : UserBytes K m₀.mem m₀.cr3 (elfPheaders m₀.mem file + BitVec.ofNat 32 (32 * i)) 32
      (physBytes (elfPheaders m₀.mem file + BitVec.ofNat 32 (32 * i))) := hb.from (by omega)
  obtain ⟨hlt, huser⟩ := elfFlags_user privileged
  obtain ⟨m₁, hr₁, h₁⟩ := h.load32 h₀ hbytes (by omega)
  rw [elfPagesUpTo_succ]
  unfold elfLoadPheader at hrun
  rw [run_bind_of_ok hr₁] at hrun
  by_cases hload : (elfPheader m₀.mem file i).type = ptLoad
  · -- the loads of its fields find what is in the file, and then there is `map_pages`
    have htype : read32 m₀.mem (elfPheaders m₀.mem file + BitVec.ofNat 32 (32 * i)) = ptLoad :=
      hload
    have hfield : ∀ j, j + 4 ≤ 32 → UserBytes K m₀.mem m₀.cr3 _ 4 _ := fun j hj => hbytes.from hj
    obtain ⟨m₂, hr₂, h₂⟩ := h₁.load32 h₀ (hfield 4 (by omega)) (by omega)
    obtain ⟨m₃, hr₃, h₃⟩ := h₂.load32 h₀ (hfield 8 (by omega)) (by omega)
    obtain ⟨m₄, hr₄, h₄⟩ := h₃.load32 h₀ (hfield 20 (by omega)) (by omega)
    rw [htype, if_neg (by decide), if_pos rfl] at hrun
    have hmap : mapPages (file + (elfPheader m₀.mem file i).offset)
        (elfPheader m₀.mem file i).vaddr (elfFlags privileged) (elfPheader m₀.mem file i).memsz m₄
          = .ok ((), m') := by
      refine ((run_bind_of_ok hr₂).trans ((run_bind_of_ok hr₃).trans
        (run_bind_of_ok hr₄))).symm.trans hrun
    rw [mapPages_eq] at hmap
    have hseg : elfPheader m₀.mem file i ∈ elfSegments m₀.mem file := by
      rw [elfSegments, List.mem_filter]
      exact ⟨List.mem_map_of_mem (List.mem_range.mpr hi), by rw [hload]; rfl⟩
    have hloop := h₄.loop h₀ (fun j hj => hP _ (segment_page hseg hj)) (palignDown_aligned _)
      (palignDown_aligned _) hlt huser hmap
    rw [if_pos hload]
    have hsets : {u | u ∈ elfPagesUpTo m₀.mem file i ++ (elfPheader m₀.mem file i).pages file}
        = {u | u ∈ elfPagesUpTo m₀.mem file i} ∪ {u | u ∈ (elfPheader m₀.mem file i).pages file} :=
      Set.ext fun u => List.mem_append
    rw [hsets]
    exact hloop
  · -- `PT_NULL`, and every other type: nothing
    have htype : read32 m₀.mem (elfPheaders m₀.mem file + BitVec.ofNat 32 (32 * i)) ≠ ptLoad :=
      hload
    rw [if_neg htype, ite_self] at hrun
    obtain rfl := (Prod.mk.inj (Except.ok.inj hrun)).2
    rw [if_neg hload, List.append_nil]
    exact h₁

/-- **Run lemma.**  The loop of `elf_load`, from header `i` on. -/
theorem LoadState.pheaders {r : Nat} (h : LoadState K dirs P N privileged m₀ t
      {u | u ∈ elfPagesUpTo m₀.mem file i} c m) (h₀ : Start K dirs P N m₀)
    (hh : UserBytes K m₀.mem m₀.cr3 file 52 (physBytes file))
    (hb : UserBytes K m₀.mem m₀.cr3 (elfPheaders m₀.mem file) (32 * elfPhnum m₀.mem file)
      (physBytes (elfPheaders m₀.mem file)))
    (hP : ∀ u ∈ elfPages m₀.mem file, u.1 ∈ P) (hi : i ≤ elfPhnum m₀.mem file)
    (hr : elfPhnum m₀.mem file < i + r)
    (hrun : elfLoadLoop privileged file r i
      (elfPheaders m₀.mem file + BitVec.ofNat 32 (32 * i)) m = .ok ((), m')) :
    LoadState K dirs P N privileged m₀ t {u | u ∈ elfPages m₀.mem file} c m' := by
  induction r generalizing i m with
  | zero => omega
  | succ r ih =>
    -- `e_phnum` is read again in every round
    obtain ⟨m₁, hr₁, h₁⟩ := h.load16 h₀ (hh.from (j := 44) (k := 2) (by omega)) (by omega)
    have hphnum : (m₀.mem (file + BitVec.ofNat 32 44 + 1#32)
        ++ m₀.mem (file + BitVec.ofNat 32 44)).toNat = elfPhnum m₀.mem file := rfl
    rw [elfLoadLoop, run_bind_of_ok hr₁, hphnum] at hrun
    by_cases hlt : i < elfPhnum m₀.mem file
    · rw [if_pos hlt] at hrun
      obtain ⟨⟨⟩, m₂, hr₂, hrest⟩ := bind_ok_iff.mp hrun
      have h₂ := h₁.pheader h₀ hb hP hlt hr₂
      have hphdr : elfPheaders m₀.mem file + BitVec.ofNat 32 (32 * i) + elfPheaderSize
          = elfPheaders m₀.mem file + BitVec.ofNat 32 (32 * (i + 1)) := by
        rw [BitVec.add_assoc, elfPheaderSize, Nat.mul_succ, BitVec.ofNat_add]
      rw [hphdr] at hrest
      exact ih h₂ (by omega) (by omega) hrest
    · rw [if_neg hlt] at hrun
      obtain rfl := (Prod.mk.inj (Except.ok.inj hrun)).2
      obtain rfl : i = elfPhnum m₀.mem file := by omega
      exact h₁

/-- **A completed `elf_load`** has mapped the pages of the segments. -/
theorem LoadState.elfLoad {entry : BitVec 32} (h : LoadState K dirs P N privileged m₀ t ∅ c m)
    (h₀ : Start K dirs P N m₀) (hh : UserBytes K m₀.mem m₀.cr3 file 52 (physBytes file))
    (hb : UserBytes K m₀.mem m₀.cr3 (elfPheaders m₀.mem file) (32 * elfPhnum m₀.mem file)
      (physBytes (elfPheaders m₀.mem file)))
    (hP : ∀ u ∈ elfPages m₀.mem file, u.1 ∈ P)
    (hrun : Leoman.elfLoad privileged file m = .ok (entry, m')) :
    LoadState K dirs P N privileged m₀ t {u | u ∈ elfPages m₀.mem file} c m' := by
  obtain ⟨m₁, hr₁, h₁⟩ := h.load32 h₀ (hh.from (j := 28) (k := 4) (by omega)) (by omega)
  unfold Leoman.elfLoad at hrun
  rw [show (28#32 : BitVec 32) = BitVec.ofNat 32 28 from rfl, run_bind_of_ok hr₁] at hrun
  obtain ⟨⟨⟩, m₂, hr₂, hrest⟩ := bind_ok_iff.mp hrun
  have hempty : (∅ : Set (BitVec 32 × BitVec 32)) = {u | u ∈ elfPagesUpTo m₀.mem file 0} := by
    ext u
    simp [elfPagesUpTo]
  rw [hempty] at h₁
  have hfirst : file + read32 m₀.mem (file + BitVec.ofNat 32 28)
      = elfPheaders m₀.mem file + BitVec.ofNat 32 (32 * 0) := (BitVec.add_zero _).symm
  have hphnum : elfPhnum m₀.mem file < 0 + 0x10000 := by
    unfold elfPhnum
    omega
  rw [hfirst] at hr₂
  have h₂ := h₁.pheaders h₀ hh hb hP (Nat.zero_le _) hphnum hr₂
  obtain ⟨m₃, hr₃, h₃⟩ := h₂.load32 h₀ (hh.from (j := 24) (k := 4) (by omega)) (by omega)
  obtain rfl := (Prod.mk.inj (Except.ok.inj (hrest.symm.trans hr₃))).2
  exact h₃

end Executable

/-! ### The stack -/

/-- A frame for the stack. -/
theorem LoadState.alloc (h : LoadState K dirs P N privileged m₀ t L (c + 1) m) :
    (pmAlloc m.pm).1.toNat % 4096 = 0 ∧ LoadState K dirs P N privileged m₀ (t + 1) L c
      { m with pm := (pmAlloc m.pm).2 } := by
  obtain ⟨n, k, hcount⟩ := h.frames
  have henough := hcount.enough
  have htotal := hcount.total
  have htaken := hcount.taken
  obtain ⟨j, rfl⟩ : ∃ j, n = j + 1 := ⟨n - 1, by omega⟩
  have hsup := hcount.paging.supply
  have hF : (pmAlloc m.pm).1 ∈ nextFrames (j + 1) m.bare.pm := List.mem_cons_self
  have hrest : Supply K dirs m.mem j (pmAlloc m.pm).2 :=
    ⟨(List.nodup_cons.mp hsup.nodup).2, fun F hF => hsup.aligned F (List.mem_cons_of_mem _ hF),
      fun F hF => hsup.unused F (List.mem_cons_of_mem _ hF),
      fun F hF => hsup.cleared F (List.mem_cons_of_mem _ hF)⟩
  refine ⟨(hsup.aligned _ hF).1, h.cr3, h.coherent, h.mapped, j, k + 1,
    ⟨hcount.paging.spaces, hrest, hcount.paging.current⟩,
    show (lacking m.mem m.cr3 P).ncard + c ≤ j by omega, by omega, ?_,
    show k + 1 + (lacking m.mem m.cr3 P).ncard = _ by omega⟩
  show (pmAlloc m.pm).2 = pmAfter (k + 1) m₀.pm
  rw [hcount.pm, pmAfter_add]
  rfl

/-- A round of the loop of `vm_alloc_pages_at`. -/
theorem LoadState.stack_page {k : Nat}
    (h : LoadState K dirs P N privileged m₀ t L (c + (k + 1)) m) (h₀ : Start K dirs P N m₀)
    (hv : v ∈ P) (hva : v.toNat % 4096 = 0) (hf : flags.toNat < 0x20)
    (hu : flags &&& pteU = 0#32 ↔ privileged = true)
    (hrun : vmAllocPagesAtLoop flags (k + 1) v m = .ok ((), m')) :
    ∃ m₁, LoadState K dirs P N privileged m₀ (t + 1) (insert (v, (pmAlloc m.pm).1) L) (c + k) m₁ ∧
      vmAllocPagesAtLoop flags k (v + pageSize) m₁ = .ok ((), m') := by
  obtain ⟨F, m₁, halloc, hrest⟩ := bind_ok_iff.mp hrun
  obtain ⟨rfl, rfl⟩ := Prod.mk.inj (Except.ok.inj halloc)
  obtain ⟨⟨⟩, m₂, hmap, hloop⟩ := bind_ok_iff.mp hrest
  obtain ⟨hF, h₁⟩ := LoadState.alloc (c := c + k) h
  exact ⟨m₂, h₁.page h₀ hv hva hF hf hu hmap, hloop⟩

/-- When `L` has pages in all regions, no table is lacking, … -/
theorem LoadState.lacking_eq_empty (h : LoadState K dirs P N privileged m₀ t L c m)
    (hall : ∀ q ∈ P, ∃ u ∈ L, vmPdirIdx u.1 = vmPdirIdx q) : lacking m.mem m.cr3 P = ∅ := by
  rw [Set.eq_empty_iff_forall_notMem]
  rintro r ⟨q, hq, -, hno⟩
  obtain ⟨u, hu, hidx⟩ := hall q hq
  have hpresent := (walk_eq_some_iff.mp (h.mapped.maps u hu).1).1
  rw [← h.cr3, pdeOf_congr hidx] at hpresent
  exact hno hpresent

/-- … and `pm_alloc` was called for all tables. -/
theorem LoadState.pm_eq (h : LoadState K dirs P N privileged m₀ t L c m)
    (hall : ∀ q ∈ P, ∃ u ∈ L, vmPdirIdx u.1 = vmPdirIdx q) :
    m.pm = pmAfter ((lacking m₀.mem m₀.cr3 P).ncard + t) m₀.pm := by
  obtain ⟨n, k, hcount⟩ := h.frames
  have htaken := hcount.taken
  rw [h.lacking_eq_empty hall, Set.ncard_empty, Nat.add_zero] at htaken
  rw [hcount.pm, htaken]

theorem union_cons {α : Type} (A : Set α) (a : α) (l : List α) :
    A ∪ {x | x ∈ a :: l} = insert a A ∪ {x | x ∈ l} := by
  ext x
  simp only [List.mem_cons, Set.mem_union, Set.mem_ofPred_eq, Set.mem_insert_iff]
  tauto

/-- **Run lemma.**  A completed loop of `vm_alloc_pages_at`, when no table is lacking: the pages get
    what `pm_alloc` returns. -/
theorem LoadState.stack {k : Nat} (h : LoadState K dirs P N privileged m₀ t L (c + k) m)
    (h₀ : Start K dirs P N m₀) (hall : ∀ q ∈ P, ∃ u ∈ L, vmPdirIdx u.1 = vmPdirIdx q)
    (hP : ∀ i < k, pageAt v i ∈ P) (hva : v.toNat % 4096 = 0) (hf : flags.toNat < 0x20)
    (hu : flags &&& pteU = 0#32 ↔ privileged = true)
    (hrun : vmAllocPagesAtLoop flags k v m = .ok ((), m')) :
    LoadState K dirs P N privileged m₀ (t + k) (L ∪ {u | u ∈ framesFrom m₀.pm v
      ((lacking m₀.mem m₀.cr3 P).ncard + t) k}) c m' := by
  induction k generalizing v m t L with
  | zero =>
    obtain ⟨-, rfl⟩ := Prod.mk.inj (Except.ok.inj hrun)
    have hempty : L ∪ {u | u ∈ framesFrom m₀.pm v ((lacking m₀.mem m₀.cr3 P).ncard + t) 0} = L := by
      simp [framesFrom]
    rw [hempty]
    exact h
  | succ k ih =>
    have hfirst : v ∈ P := by
      have := hP 0 (by omega)
      rwa [pageAt_zero] at this
    have hframe : (pmAlloc m.pm).1 = frameAt m₀.pm ((lacking m₀.mem m₀.cr3 P).ncard + t) := by
      rw [h.pm_eq hall]
      rfl
    obtain ⟨m₁, h₁, hloop⟩ := h.stack_page h₀ hfirst hva hf hu hrun
    -- the pages after the first are pages of the same run, from the next page on
    have hva' : (v + pageSize).toNat % 4096 = 0 := by
      rw [pageSize, BitVec.toNat_add, BitVec.toNat_ofNat]
      omega
    have hP' : ∀ i < k, pageAt (v + pageSize) i ∈ P := by
      intro i hi
      rw [pageAt_succ]
      exact hP (i + 1) (by omega)
    have hall' : ∀ q ∈ P, ∃ u ∈ insert (v, (pmAlloc m.pm).1) L, vmPdirIdx u.1 = vmPdirIdx q := by
      intro q hq
      obtain ⟨u, hu, hidx⟩ := hall q hq
      exact ⟨u, Set.mem_insert_of_mem _ hu, hidx⟩
    have h₂ := ih h₁ hall' hP' hva' hloop
    have hcount : t + 1 + k = t + (k + 1) := by omega
    rw [hcount] at h₂
    rw [framesFrom_succ, union_cons, ← hframe]
    exact h₂

/-- The loop completes when none of the pages is mapped. -/
theorem LoadState.stack_runs {k : Nat} (h : LoadState K dirs P N privileged m₀ t L (c + k) m)
    (h₀ : Start K dirs P N m₀) (hP : ∀ i < k, pageAt v i ∈ P) (hva : v.toNat % 4096 = 0)
    (hend : v.toNat + 4096 * k ≤ 0xffc00000) (hf : flags.toNat < 0x20)
    (hu : flags &&& pteU = 0#32 ↔ privileged = true)
    (hnone : ∀ i < k, walk m₀.mem m₀.cr3 (pageAt v i) = none)
    (hnew : ∀ i < k, ∀ f, (pageAt v i, f) ∉ L) :
    ∃ m', vmAllocPagesAtLoop flags k v m = .ok ((), m') := by
  induction k generalizing v m t L with
  | zero => exact ⟨m, rfl⟩
  | succ k ih =>
    obtain ⟨hF, h₁⟩ := LoadState.alloc (c := c + k) h
    have hfirst : v ∈ P := by
      have := hP 0 (by omega)
      rwa [pageAt_zero] at this
    have hwalk : walk m.mem m.cr3 v = none := by
      -- a page that is mapped now was mapped before, or is one of `L`
      by_contra hne
      obtain ⟨f, hf⟩ := Option.ne_none_iff_exists'.mp hne
      have hnone₀ := hnone 0 (by omega)
      have hnew₀ := hnew 0 (by omega) f
      rw [pageAt_zero] at hnone₀ hnew₀
      rw [h.cr3] at hf
      rcases h.mapped.pages _ h₀.current v f (h₀.below v hfirst) hf with hold | ⟨hin, -⟩
      · rw [hnone₀] at hold
        exact absurd hold (by simp)
      · rw [palignDown_of_aligned hva] at hin
        exact hnew₀ hin
    obtain ⟨m₂, hrun, h₂⟩ := h₁.page_new h₀ hfirst hva hF hf hu hwalk
    obtain ⟨hva', hend'⟩ := window_next hva hend
    obtain ⟨m', hrest⟩ := ih h₂ (fun i hi => by rw [pageAt_succ]; exact hP (i + 1) (by omega))
      hva' hend' (fun i hi => by rw [pageAt_succ]; exact hnone (i + 1) (by omega))
      fun i hi f hin => by
        rcases Set.mem_insert_iff.mp hin with heq | hin
        · -- the pages behind the first are other pages
          have hnat := congrArg BitVec.toNat (Prod.mk.inj heq).1
          rw [pageAt_toNat hend' hi, pageSize, BitVec.toNat_add, BitVec.toNat_ofNat] at hnat
          omega
        · refine hnew (i + 1) (by omega) f ?_
          rw [← pageAt_succ]
          exact hin
    exact ⟨m', (run_bind_of_ok rfl).trans ((run_bind_of_ok hrun).trans hrest)⟩

end LoadState

/-! ### The process -/

/-- The pages `elf_load` maps for what is at `addr`, with their frames. -/
def imagePages (mem : Mem) (addr : BitVec 32) : List (BitVec 32 × BitVec 32) :=
  if read32 mem addr = elfMagic then elfPages mem addr else []

/-- The pages of the stack. -/
def stackPages : List (BitVec 32) :=
  (List.range (pagesOf userStackSize)).map (pageAt (vmUserStackAddr - userStackSize))

/-- The pages `proc_load` maps. -/
def loadPages (mem : Mem) (addr : BitVec 32) : Set (BitVec 32) :=
  {q | q ∈ (imagePages mem addr).map Prod.fst ∨ q ∈ stackPages}

/-- The pages of the stack, with the frames they get: the first one comes after the tables of the
    image `I`, the others come after all tables. -/
def stackFrames (mem : Mem) (D : BitVec 32) (pm : Pm) (I : List (BitVec 32 × BitVec 32)) :
    List (BitVec 32 × BitVec 32) :=
  let v := vmUserStackAddr - userStackSize
  (v, frameAt pm (tablesNeeded mem D (I.map Prod.fst))) ::
    framesFrom pm (v + pageSize) (tablesNeeded mem D (I.map Prod.fst ++ stackPages) + 1)
      (pagesOf userStackSize - 1)

/-- All pages of a process with the image `I`, and their frames. -/
def processFrames {τ : Type} (m : Machine τ) (I : List (BitVec 32 × BitVec 32)) :
    List (BitVec 32 × BitVec 32) :=
  I ++ stackFrames m.mem m.cr3 m.pm I

/-- In the address space `D` the file at `addr` is at its physical address, outside of the frames of
    tables. -/
structure SeesFile (K : Set (BitVec 32)) (mem : Mem) (D addr : BitVec 32) : Prop where
  magic : UserBytes K mem D addr 4 (physBytes addr)
  header : read32 mem addr = elfMagic → UserBytes K mem D addr 52 (physBytes addr)
  pheaders : read32 mem addr = elfMagic → UserBytes K mem D (elfPheaders mem addr)
    (32 * elfPhnum mem addr) (physBytes (elfPheaders mem addr))

theorem stackFlags_user (privileged : Bool) : (if privileged then 0#32 else pteU).toNat < 0x20 ∧
    ((if privileged then 0#32 else pteU) &&& pteU = 0#32 ↔ privileged = true) := by
  cases privileged <;> decide

section Process

variable {mem : Mem} {D : BitVec 32} {pm : Pm} {I : List (BitVec 32 × BitVec 32)}
  {u : BitVec 32 × BitVec 32}

theorem map_fst_stackFrames : (stackFrames mem D pm I).map Prod.fst = stackPages := by
  rw [stackFrames, List.map_cons, map_fst_framesFrom]
  show (vmUserStackAddr - userStackSize) :: _ = stackPages
  decide

/-- The stack is in one region. -/
theorem stackPages_region {q : BitVec 32} (hq : q ∈ stackPages) :
    vmPdirIdx q = vmPdirIdx (vmUserStackAddr - userStackSize) := by
  have htest : stackPages.all (fun q => decide (vmPdirIdx q
      = vmPdirIdx (vmUserStackAddr - userStackSize))) = true := by
    decide
  exact of_decide_eq_true (List.all_eq_true.mp htest q hq)

/-- The frames of the stack are among those of the process. -/
theorem stackFrames_frameAt (hu : u ∈ stackFrames mem D pm I) :
    ∃ k < tablesNeeded mem D (I.map Prod.fst ++ stackPages) + pagesOf userStackSize,
      u.2 = frameAt pm k := by
  have hle : tablesNeeded mem D (I.map Prod.fst)
      ≤ tablesNeeded mem D (I.map Prod.fst ++ stackPages) := by
    rw [← ncard_lacking, ← ncard_lacking]
    apply Set.ncard_le_ncard _ lacking_finite
    rintro r ⟨q, hq, hr⟩
    exact ⟨q, List.mem_append_left _ hq, hr⟩
  have hfour : pagesOf userStackSize = 4 := by decide
  rw [hfour]
  rcases List.mem_cons.mp hu with rfl | hu
  · exact ⟨_, by omega, rfl⟩
  · obtain ⟨i, hi, rfl⟩ := List.mem_map.mp hu
    have hlt := List.mem_range.mp hi
    rw [hfour] at hlt
    exact ⟨_, by omega, rfl⟩

end Process

section Process

variable {τ : Type} [Tlb τ] {K dirs P : Set (BitVec 32)} {N t c : Nat} {privileged : Bool}
  {m₀ m m' : Machine τ} {L : Set (BitVec 32 × BitVec 32)} {addr entry : BitVec 32}

/-- The image comes first, whatever pages the frames are counted for. -/
theorem procLoad_image (m₀ : Machine τ) (h₀ : Start K dirs (loadPages m₀.mem addr) N m₀)
    (hsees : SeesFile K m₀.mem m₀.cr3 addr)
    (hN : (lacking m₀.mem m₀.cr3 (loadPages m₀.mem addr)).ncard + c ≤ N)
    (hrun : procLoad privileged addr m₀ = .ok (entry, m')) :
    ∃ m₁, vmAllocPagesAt (vmUserStackAddr - userStackSize) (if privileged then 0#32 else pteU)
        userStackSize m₁ = .ok ((), m') ∧
      ∀ P, (∀ q ∈ (imagePages m₀.mem addr).map Prod.fst, q ∈ P) → Start K dirs P N m₀ →
        (lacking m₀.mem m₀.cr3 P).ncard + c ≤ N →
        LoadState K dirs P N privileged m₀ 0 {u | u ∈ imagePages m₀.mem addr} c m₁ := by
  have hstart : LoadState K dirs (loadPages m₀.mem addr) N privileged m₀ 0 ∅ c m₀ := h₀.loaded hN
  obtain ⟨m₁, hr₁, -⟩ := hstart.load32 h₀ hsees.magic (Nat.le_refl 4)
  have hmagic : ∀ P, Start K dirs P N m₀ → (lacking m₀.mem m₀.cr3 P).ncard + c ≤ N →
      LoadState K dirs P N privileged m₀ 0 ∅ c m₁ := by
    intro P hP hN
    have h : LoadState K dirs P N privileged m₀ 0 ∅ c m₀ := hP.loaded hN
    obtain ⟨m₁', hr, h₁⟩ := h.load32 hP hsees.magic (Nat.le_refl 4)
    obtain rfl := (Prod.mk.inj (Except.ok.inj (hr.symm.trans hr₁))).2
    exact h₁
  unfold procLoad at hrun
  rw [run_bind_of_ok hr₁] at hrun
  by_cases helf : read32 m₀.mem addr = elfMagic
  · have himg : imagePages m₀.mem addr = elfPages m₀.mem addr := if_pos helf
    rw [if_pos helf] at hrun
    obtain ⟨e, m₂, hr₂, hrest⟩ := bind_ok_iff.mp hrun
    obtain ⟨⟨⟩, m₃, hr₃, hret⟩ := bind_ok_iff.mp hrest
    obtain ⟨-, rfl⟩ := Prod.mk.inj (Except.ok.inj hret)
    refine ⟨m₂, hr₃, fun P himage hP hN => ?_⟩
    rw [himg] at himage ⊢
    exact (hmagic P hP hN).elfLoad hP (hsees.header helf) (hsees.pheaders helf)
      (fun u hu => himage _ (List.mem_map_of_mem hu)) hr₂
  · -- what is no executable is not mapped
    have himg : imagePages m₀.mem addr = [] := if_neg helf
    rw [if_neg helf] at hrun
    obtain ⟨e, m₂, hr₂, hrest⟩ := bind_ok_iff.mp hrun
    obtain ⟨-, rfl⟩ := Prod.mk.inj (Except.ok.inj hr₂)
    obtain ⟨⟨⟩, m₃, hr₃, hret⟩ := bind_ok_iff.mp hrest
    obtain ⟨-, rfl⟩ := Prod.mk.inj (Except.ok.inj hret)
    refine ⟨m₁, hr₃, fun P _ hP hN => ?_⟩
    rw [himg]
    simpa using hmagic P hP hN

/-- **A completed `proc_load`** has mapped the pages of the segments, and a stack of frames that
    `pm_alloc` had left. -/
theorem procLoad_loads (m₀ : Machine τ) (h₀ : Start K dirs (loadPages m₀.mem addr) N m₀)
    (hsees : SeesFile K m₀.mem m₀.cr3 addr)
    (hN : (lacking m₀.mem m₀.cr3 (loadPages m₀.mem addr)).ncard + (c + pagesOf userStackSize) ≤ N)
    (hrun : procLoad privileged addr m₀ = .ok (entry, m')) :
    LoadState K dirs (loadPages m₀.mem addr) N privileged m₀ (pagesOf userStackSize)
      {u | u ∈ processFrames m₀ (imagePages m₀.mem addr)} c m' := by
  obtain ⟨m₁, hstack, himage⟩ := procLoad_image m₀ h₀ hsees hN hrun
  have hpages : loadPages m₀.mem addr
      = {q | q ∈ (imagePages m₀.mem addr).map Prod.fst ++ stackPages} := by
    ext q
    exact List.mem_append.symm
  -- the frames taken for the tables of the image
  have hfirst : m₁.pm
      = pmAfter (tablesNeeded m₀.mem m₀.cr3 ((imagePages m₀.mem addr).map Prod.fst)) m₀.pm := by
    have hsub : lacking m₀.mem m₀.cr3 {q | q ∈ (imagePages m₀.mem addr).map Prod.fst}
        ⊆ lacking m₀.mem m₀.cr3 (loadPages m₀.mem addr) := by
      rintro r ⟨q, hq, hr⟩
      exact ⟨q, Or.inl hq, hr⟩
    have hle := Set.ncard_le_ncard hsub lacking_finite
    have h := himage {q | q ∈ (imagePages m₀.mem addr).map Prod.fst} (fun _ hq => hq)
      ⟨h₀.coherent, h₀.paging, fun q hq => h₀.below q (Or.inl hq)⟩ (by omega)
    have hpm := h.pm_eq fun q hq => by
      obtain ⟨u, hu, rfl⟩ := List.mem_map.mp hq
      exact ⟨u, hu, rfl⟩
    rw [ncard_lacking, Nat.add_zero] at hpm
    exact hpm
  -- and those for all tables
  have h := himage (loadPages m₀.mem addr) (fun _ hq => Or.inl hq) h₀ hN
  have hflag := stackFlags_user privileged
  have hfour : pagesOf userStackSize = 3 + 1 := by decide
  rw [vmAllocPagesAt, if_neg (by decide), hfour] at hstack
  rw [hfour] at h ⊢
  have hin : ∀ i < 4, pageAt (vmUserStackAddr - userStackSize) i ∈ loadPages m₀.mem addr := by
    intro i hi
    exact Or.inr (List.mem_map_of_mem (List.mem_range.mpr hi))
  have hv : palignDown (vmUserStackAddr - userStackSize) ∈ loadPages m₀.mem addr :=
    hin 0 (by decide)
  obtain ⟨m₂, h₁, hloop⟩ := h.stack_page h₀ hv (by decide) hflag.1 hflag.2 hstack
  have hall : ∀ q ∈ loadPages m₀.mem addr,
      ∃ u ∈ insert (palignDown (vmUserStackAddr - userStackSize), (pmAlloc m₁.pm).1)
        {u | u ∈ imagePages m₀.mem addr}, vmPdirIdx u.1 = vmPdirIdx q := by
    rintro q (hq | hq)
    · obtain ⟨u, hu, rfl⟩ := List.mem_map.mp hq
      exact ⟨u, Set.mem_insert_of_mem _ hu, rfl⟩
    · refine ⟨_, Set.mem_insert _ _, ?_⟩
      rw [vmPdirIdx_palignDown, stackPages_region hq]
  have h₂ := h₁.stack h₀ hall (fun i hi => by
    rw [pageAt_succ]
    exact hin (i + 1) (by omega)) (by decide) hflag.1 hflag.2 hloop
  have hset : insert (palignDown (vmUserStackAddr - userStackSize), (pmAlloc m₁.pm).1)
        {u | u ∈ imagePages m₀.mem addr} ∪ {u | u ∈ framesFrom m₀.pm
          (palignDown (vmUserStackAddr - userStackSize) + pageSize)
          ((lacking m₀.mem m₀.cr3 (loadPages m₀.mem addr)).ncard + (0 + 1)) 3}
      = {u | u ∈ processFrames m₀ (imagePages m₀.mem addr)} := by
    rw [← union_cons, hfirst, hpages, ncard_lacking, Nat.zero_add]
    ext u
    exact List.mem_append.symm
  rw [hset] at h₂
  exact h₂

/-- **An executable whose segments have pages of their own**, off the stack, is loaded, and
    entered at its entry point. -/
theorem procLoad_completes (m₀ : Machine τ) (h₀ : Start K dirs (loadPages m₀.mem addr) N m₀)
    (hsees : SeesFile K m₀.mem m₀.cr3 addr)
    (hN : (lacking m₀.mem m₀.cr3 (loadPages m₀.mem addr)).ncard + (c + pagesOf userStackSize) ≤ N)
    (helf : read32 m₀.mem addr = elfMagic) (hl : Loadable K m₀ addr)
    (hoff : ∀ q ∈ stackPages, walk m₀.mem m₀.cr3 q = none ∧ q ∉ (elfPages m₀.mem addr).map Prod.fst)
    (privileged : Bool) :
    ∃ m', procLoad privileged addr m₀ = .ok (elfEntry m₀.mem addr, m') := by
  have himg : imagePages m₀.mem addr = elfPages m₀.mem addr := if_pos helf
  have hpages : ∀ u ∈ elfPages m₀.mem addr, u.1 ∈ loadPages m₀.mem addr := fun u hu =>
    Or.inl (himg ▸ List.mem_map_of_mem hu)
  obtain ⟨t, hr₁, hct⟩ := load32_phys h₀.coherent fun i hi => hsees.magic.maps i hi
  -- an access leaves the tables as they are
  have h₁ : Start K dirs (loadPages m₀.mem addr) N { m₀ with tlb := t } :=
    ⟨hct, h₀.paging, h₀.below⟩
  have hl₁ : Loadable K { m₀ with tlb := t } addr :=
    ⟨hl.header, hl.pheaders, hl.sizes, hl.below, hl.congruent, hl.apart, hl.unmapped, hl.inPlace⟩
  have hsub : lacking m₀.mem m₀.cr3 (pagesIn (elfPages m₀.mem addr))
      ⊆ lacking m₀.mem m₀.cr3 (loadPages m₀.mem addr) := by
    rintro r ⟨q, hq, hr⟩
    obtain ⟨u, hu, rfl⟩ := List.mem_map.mp hq
    exact ⟨u.1, hpages u hu, hr⟩
  have hle := Set.ncard_le_ncard hsub lacking_finite
  obtain ⟨m₂, hr₂, -⟩ := elfLoad_populates privileged (m := { m₀ with tlb := t }) hct h₁.paging
    (hle.trans ((Nat.le_add_right _ _).trans hN)) hl₁
  have hstart : LoadState K dirs (loadPages m₀.mem addr) N privileged { m₀ with tlb := t } 0 ∅
      (c + pagesOf userStackSize) { m₀ with tlb := t } := h₁.loaded hN
  have hl₂ := hstart.elfLoad h₁ (hsees.header helf) (hsees.pheaders helf) hpages hr₂
  have hflag := stackFlags_user privileged
  have hstack : ∀ i < pagesOf userStackSize, pageAt (vmUserStackAddr - userStackSize) i
      ∈ stackPages := fun i hi => List.mem_map_of_mem (List.mem_range.mpr hi)
  obtain ⟨m₃, hr₃⟩ := hl₂.stack_runs h₁ (fun i hi => Or.inr (hstack i hi)) (by decide) (by decide)
    hflag.1 hflag.2 (fun i hi => (hoff _ (hstack i hi)).1)
    fun i hi f hin => (hoff _ (hstack i hi)).2 (List.mem_map_of_mem hin)
  refine ⟨m₃, (run_bind_of_ok hr₁).trans ?_⟩
  rw [if_pos helf]
  refine (run_bind_of_ok hr₂).trans ?_
  rw [vmAllocPagesAt, if_neg (by decide)]
  exact run_bind_of_ok hr₃

end Process

end Leoman
