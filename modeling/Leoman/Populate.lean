import Leoman.Transfer
import Leoman.MapPages
import Mathlib.Data.Set.Card

namespace Leoman

open ByteMem StateExcept

/-!
# Populating an address space

Pages that are not mapped yet are mapped one after the other, in whatever order: what comes of
that depends on the list of the pages and their frames only.  The frames of `pm_alloc` are needed
for the regions without a page table, and for nothing else.

* `NewPages` — a list of different pages that are not mapped, with the frames they are to get;
* `Populated` — the machine after these pages were mapped, with any TLB that is right about all
  pages;
* `Populated.page` — the step lemma, `Populated.loop` — the loop of `map_pages`.
-/

/-! ### Machines with and without a TLB -/

section Bare

variable {τ : Type} [Tlb τ] {K dirs : Set (BitVec 32)} {n : Nat} {m : Machine τ}
  {v flags : BitVec 32}

/-- The machine whose TLB retains nothing. -/
def Machine.bare {τ : Type} (m : Machine τ) : Machine Unit := ⟨m.mem, m.cr3, (), m.pm⟩

/-- The store of an entry that was not present leaves a TLB right about all pages. -/
theorem Coherent.setPte {t : τ} {mem : Mem} {cr3 x : BitVec 32} (hc : Coherent t mem cr3)
    (ha : ¬ Present (pteOf mem cr3 v)) : Coherent t (setPte mem cr3 v x) cr3 :=
  hc.mono fun _ _ hw => walk_write_absent (palignDown_aligned _) (vmPtabIdx_lt v) ha hw

/-- **`map_page`** of an unmapped page does the same with any TLB that is right about all pages,
    and leaves it so. -/
theorem mapPage_bare (hc : Coherent m.tlb m.mem m.cr3) (hp : Paging K dirs n m.bare)
    (hn : ¬ Present (pdeOf m.mem m.cr3 v) → 0 < n) (hv : walk m.mem m.cr3 v = none)
    (hreg : vmPdirIdx v ≠ 1023#32) (p : BitVec 32) (hf : flags.toNat < 4096) :
    ∃ m', mapPage p v flags m = .ok ((), m') ∧ mapPage p v flags m.bare = .ok ((), m'.bare) ∧
      Coherent m'.tlb m'.mem m'.cr3 := by
  have hr := hp.spaces.recursive _ hp.current
  have hc₀ : Coherent () m.mem m.cr3 := coherent_unit _ _ _
  by_cases hpde : Present (pdeOf m.mem m.cr3 v)
  · have hpte : ¬ Present (pteOf m.mem m.cr3 v) :=
      (walk_eq_none_iff.mp hv).resolve_left fun h => h hpde
    obtain ⟨t, hrun, hct, -⟩ := mapPage_absentPage (p := p) hc hr hf hpde hpte
    obtain ⟨t₀, hrun₀, -⟩ := mapPage_absentPage (m := m.bare) (p := p) hc₀ hr hf hpde hpte
    refine ⟨_, hrun, hrun₀, hct.setPte ?_⟩
    -- the flags go into the directory, not into the table
    rw [pteOf, pdeOf_setPde_self, mapFlags, palignDown_or (flags_lt hf),
      tableEntry_setPde _ _ _ _ (palignDown_aligned _) (vmPtabIdx_lt v),
      if_neg fun h => hp.spaces.table_ne hp.current hp.current hpde hreg h.1]
    exact hpte
  · obtain ⟨t, hrun, hct, -⟩ := @mapPage_absentTable _ _ _ hc hr p v flags hpde
    obtain ⟨t₀, hrun₀, -⟩ := @mapPage_absentTable _ _ m.bare hc₀ hr p v flags hpde
    refine ⟨_, hrun, hrun₀, hct.setPte ?_⟩
    -- the new table is cleared
    have hF : (pmAlloc m.pm).1 ∈ nextFrames n m.bare.pm := by
      obtain ⟨k, rfl⟩ : ∃ k, n = k + 1 := ⟨n - 1, by have := hn hpde; omega⟩
      exact List.mem_cons_self
    obtain ⟨hal, -⟩ := hp.supply.aligned _ hF
    have hdir : (pmAlloc m.pm).1 ≠ palignDown m.cr3 := fun h =>
      hp.supply.unused _ hF _ hp.current (h ▸ inUse_directory hr)
    rw [pteOf, pdeOf_setPde_self, mapFlags, palignDown_or (flags_lt hf), palignDown_of_aligned hal,
      tableEntry_setPde _ _ _ _ hal (vmPtabIdx_lt v), if_neg fun h => hdir h.1]
    exact not_present_cleared hal (vmPtabIdx_lt v) (hp.supply.cleared _ hF)

end Bare

/-! ### Pages to map -/

/-- The regions of the pages `P` that have no page table. -/
def lacking (mem : Mem) (D : BitVec 32) (P : Set (BitVec 32)) : Set (BitVec 32) :=
  {r | ∃ q ∈ P, vmPdirIdx q = r ∧ ¬ Present (pdeOf mem D q)}

/-- The pages of a list of pages and frames. -/
def pagesIn (T : List (BitVec 32 × BitVec 32)) : Set (BitVec 32) := {q | q ∈ T.map Prod.fst}

/-- The pages of `T` are different, below the windows, and unmapped; their frames are frames. -/
structure NewPages {τ : Type} (m : Machine τ) (T : List (BitVec 32 × BitVec 32)) : Prop where
  nodup : (T.map Prod.fst).Nodup
  aligned : ∀ q f, (q, f) ∈ T → q.toNat % 4096 = 0 ∧ f.toNat % 4096 = 0
  below : ∀ q f, (q, f) ∈ T → vmPdirIdx q ≠ 1023#32
  unmapped : ∀ q f, (q, f) ∈ T → walk m.mem m.cr3 q = none

/-- From `m₀` to `m` the pages `L` were mapped, which are among `P`. -/
structure Populated {τ : Type} [Tlb τ] (K dirs P : Set (BitVec 32)) (m₀ : Machine τ)
    (L : List (BitVec 32 × BitVec 32)) (m : Machine τ) : Prop where
  cr3 : m.cr3 = m₀.cr3
  coherent : Coherent m.tlb m.mem m.cr3
  frames : ∃ n, Paging K dirs n m.bare ∧ (lacking m.mem m.cr3 P).ncard ≤ n
  user : ∀ x, palignDown x ∉ K → m.mem x = m₀.mem x
  maps : ∀ q f, (q, f) ∈ L → walk m.mem m.cr3 q = some f
  keeps : ∀ w, vmPdirIdx w ≠ 1023#32 → palignDown w ∉ pagesIn L →
    walk m.mem m.cr3 w = walk m₀.mem m₀.cr3 w

section Populate

variable {τ : Type} [Tlb τ] {K dirs P : Set (BitVec 32)} {m₀ m : Machine τ}
  {T L : List (BitVec 32 × BitVec 32)} {v p flags : BitVec 32}

omit [Tlb τ] in
theorem NewPages.left {U : List (BitVec 32 × BitVec 32)} (h : NewPages m (T ++ U)) :
    NewPages m T := by
  refine ⟨?_, fun q f hu => h.aligned q f (List.mem_append_left U hu),
    fun q f hu => h.below q f (List.mem_append_left U hu),
    fun q f hu => h.unmapped q f (List.mem_append_left U hu)⟩
  have hnodup := h.nodup
  rw [List.map_append] at hnodup
  exact hnodup.of_append_left

/-- Nothing mapped yet. -/
theorem Populated.start (hc : Coherent m.tlb m.mem m.cr3) {n : Nat} (hp : Paging K dirs n m.bare)
    (hn : (lacking m.mem m.cr3 P).ncard ≤ n) : Populated K dirs P m [] m :=
  ⟨rfl, hc, ⟨n, hp, hn⟩, fun _ _ => rfl, fun _ _ h => absurd h (by simp), fun _ _ _ => rfl⟩

/-- An access retains a translation in the TLB, and changes nothing else. -/
theorem Populated.access (h : Populated K dirs P m₀ L m) {t : τ} (hc : Coherent t m.mem m.cr3) :
    Populated K dirs P m₀ L { m with tlb := t } :=
  ⟨h.cr3, hc, h.frames, h.user, h.maps, h.keeps⟩

theorem lacking_finite {mem : Mem} {D : BitVec 32} : (lacking mem D P).Finite := by
  have : Finite (BitVec 32) := Finite.of_injective BitVec.toFin fun a b h => BitVec.eq_of_toFin_eq h
  exact Set.toFinite _

/-- A new table: one region less lacks one. -/
theorem lacking_lt {mem mem' : Mem} {D : BitVec 32} (hv : v ∈ P)
    (ha : ¬ Present (pdeOf mem D v)) (hp : Present (pdeOf mem' D v))
    (hkeep : ∀ w, Present (pdeOf mem D w) → Present (pdeOf mem' D w)) :
    (lacking mem' D P).ncard < (lacking mem D P).ncard := by
  refine Set.ncard_lt_ncard ⟨?_, ?_⟩ lacking_finite
  · rintro r ⟨q, hq, hr, hno⟩
    exact ⟨q, hq, hr, fun h => hno (hkeep q h)⟩
  · intro hsub
    obtain ⟨q, -, hr, hno⟩ := hsub ⟨v, hv, rfl, ha⟩
    rw [pdeOf_congr hr] at hno
    exact hno hp

/-- Tables stay in place. -/
theorem lacking_le {mem mem' : Mem} {D : BitVec 32}
    (hkeep : ∀ w, Present (pdeOf mem D w) → Present (pdeOf mem' D w)) :
    (lacking mem' D P).ncard ≤ (lacking mem D P).ncard := by
  refine Set.ncard_le_ncard ?_ lacking_finite
  rintro r ⟨q, hq, hr, hno⟩
  exact ⟨q, hq, hr, fun h => hno (hkeep q h)⟩

/-- A page that is to be mapped next is not mapped. -/
theorem Populated.next (h : Populated K dirs P m₀ L m) (hT : NewPages m₀ (L ++ [(v, p)])) :
    vmPdirIdx v ≠ 1023#32 ∧ v.toNat % 4096 = 0 ∧ walk m.mem m.cr3 v = none := by
  have hmem : (v, p) ∈ L ++ [(v, p)] := List.mem_append_right L List.mem_cons_self
  obtain ⟨hva, -⟩ := hT.aligned v p hmem
  have hreg := hT.below v p hmem
  have hfirst : v ∉ pagesIn L := by
    have hnodup := hT.nodup
    rw [List.map_append, List.nodup_append] at hnodup
    exact fun hin => hnodup.2.2 v hin v List.mem_cons_self rfl
  refine ⟨hreg, hva, ?_⟩
  rw [h.keeps v hreg (by rwa [palignDown_of_aligned hva])]
  exact hT.unmapped v p hmem

/-- `map_page` of an unmapped page, with a TLB. -/
theorem mapPage_new {n : Nat} (hc : Coherent m.tlb m.mem m.cr3) (hp : Paging K dirs n m.bare)
    (hn : (lacking m.mem m.cr3 P).ncard ≤ n) (hP : v ∈ P) (hv : walk m.mem m.cr3 v = none)
    (hreg : vmPdirIdx v ≠ 1023#32) (p : BitVec 32) (hf : flags.toNat < 4096) :
    ∃ m', mapPage p v flags m = .ok ((), m') ∧ m'.cr3 = m.cr3 ∧ Coherent m'.tlb m'.mem m'.cr3 ∧
      (∃ n', Paging K dirs n' m'.bare ∧ (lacking m'.mem m.cr3 P).ncard ≤ n') ∧
      Edited K dirs {palignDown v} m.mem m'.mem ∧
      walk m'.mem m.cr3 v = some (palignDown p) := by
  have hpos : ¬ Present (pdeOf m.mem m.cr3 v) → 0 < n := by
    intro ha
    have : 0 < (lacking m.mem m.cr3 P).ncard :=
      (Set.ncard_pos lacking_finite).mpr ⟨vmPdirIdx v, v, hP, rfl, ha⟩
    omega
  obtain ⟨m', hrun, hrun₀, hc'⟩ := mapPage_bare hc hp hpos hv hreg p hf
  obtain ⟨m₁, hrun₁, hcr3, hp', he, hwalk, -⟩ := mapPage_adds hp hpos hv hreg p hf
  obtain rfl : m'.bare = m₁ := (Prod.mk.inj (Except.ok.inj (hrun₀.symm.trans hrun₁))).2
  have hkeep : ∀ w, Present (pdeOf m.mem m.cr3 w) → Present (pdeOf m'.mem m.cr3 w) := fun w hw =>
    (he.tables _ hp.current w hw).1
  have hpde : Present (pdeOf m'.mem m.cr3 v) := (walk_eq_some_iff.mp hwalk).1
  refine ⟨m', hrun, hcr3, hc', ⟨_, hp', ?_⟩, he, hwalk⟩
  by_cases ha : Present (pdeOf m.mem m.cr3 v)
  · rw [if_pos (show Present (pdeOf m.bare.mem m.bare.cr3 v) from ha)]
    exact (lacking_le hkeep).trans hn
  · rw [if_neg (show ¬ Present (pdeOf m.bare.mem m.bare.cr3 v) from ha)]
    have := lacking_lt hP ha hpde hkeep
    omega

/-- **Step lemma.**  One page more. -/
theorem Populated.page (h : Populated K dirs P m₀ L m) (hT : NewPages m₀ (L ++ [(v, p)]))
    (hP : v ∈ P) (hf : flags.toNat < 4096) :
    ∃ m', mapPage p v flags m = .ok ((), m') ∧ Populated K dirs P m₀ (L ++ [(v, p)]) m' := by
  obtain ⟨hreg, hva, hv⟩ := h.next hT
  obtain ⟨n, hp, hn⟩ := h.frames
  obtain ⟨m', hrun, hcr3, hc', hframes, he, hwalk⟩ :=
    mapPage_new h.coherent hp hn hP hv hreg p hf
  have hwalks : ∀ w, vmPdirIdx w ≠ 1023#32 → palignDown w ≠ v →
      walk m'.mem m'.cr3 w = walk m.mem m.cr3 w := by
    intro w hw hne
    rw [hcr3]
    refine he.walks _ hp.current w hw fun hin => hne ?_
    rw [Set.mem_singleton_iff, palignDown_of_aligned hva] at hin
    exact hin
  have hpages : ∀ q, q ∈ pagesIn L ∨ q = v → q ∈ pagesIn (L ++ [(v, p)]) := by
    intro q hq
    show q ∈ (L ++ [(v, p)]).map Prod.fst
    rw [List.map_append, List.mem_append]
    exact hq.imp_right fun h => by simp [h]
  rw [← hcr3] at hframes
  refine ⟨m', hrun, hcr3.trans h.cr3, hc', hframes, fun x hx => (he.user x hx).trans (h.user x hx),
    fun q f hu => ?_, fun w hw hnot => ?_⟩
  · rcases List.mem_append.mp hu with hold | hnew
    · -- an older page is another page
      have hpage := h.maps q f hold
      have hne : palignDown q ≠ v := by
        rw [palignDown_of_aligned (hT.aligned q f hu).1]
        intro heq
        rw [heq, hv] at hpage
        exact absurd hpage (by simp)
      rw [hwalks q (hT.below q f hu) hne]
      exact hpage
    · obtain ⟨rfl, rfl⟩ := Prod.mk.inj (List.mem_singleton.mp hnew)
      rw [hcr3, hwalk, palignDown_of_aligned (hT.aligned q f hu).2]
  · rw [hwalks w hw fun heq => hnot (hpages _ (Or.inr heq))]
    exact h.keeps w hw fun hin => hnot (hpages _ (Or.inl hin))

/-- The pages of a range, with their frames. -/
def rangePages (p v : BitVec 32) (k : Nat) : List (BitVec 32 × BitVec 32) :=
  (List.range k).map fun i => (pageAt v i, pageAt p i)

/-- **Run lemma.**  The loop of `map_pages`. -/
theorem Populated.loop (h : Populated K dirs P m₀ L m) {k : Nat}
    (hT : NewPages m₀ (L ++ rangePages p v k)) (hP : ∀ i < k, pageAt v i ∈ P)
    (hf : flags.toNat < 4096) :
    ∃ m', mapPagesLoop flags k p v m = .ok ((), m') ∧
      Populated K dirs P m₀ (L ++ rangePages p v k) m' := by
  induction k with
  | zero =>
    refine ⟨m, rfl, ?_⟩
    rw [show rangePages p v 0 = [] from rfl, List.append_nil]
    exact h
  | succ k ih =>
    have hlast : L ++ rangePages p v (k + 1)
        = (L ++ rangePages p v k) ++ [(pageAt v k, pageAt p k)] := by
      rw [rangePages, List.range_succ, List.map_append, List.append_assoc]
      rfl
    rw [hlast] at hT ⊢
    obtain ⟨m₁, hrun₁, h₁⟩ := ih hT.left fun i hi => hP i (by omega)
    obtain ⟨m', hrun, h'⟩ := h₁.page hT (hP k (by omega)) hf
    refine ⟨m', ?_, h'⟩
    rw [mapPagesLoop_succ]
    exact (run_bind_of_ok hrun₁).trans hrun

end Populate

end Leoman
