import Leoman.KernelProcess
import Leoman.MapPages
import Leoman.EitherOrder

namespace Leoman

open ByteMem StateExcept Exchange

/-!
# Memory on request (`MSG_MAP_MEMORY`)

The dispatcher loads the directory of the sender, has `map_pages` map `paddr` at `0x10000000`, and
replies `0x10000000`.  `map_pages` aligns `paddr` down, so what the reply is the address of is the
page of `paddr`.

* `Target` — an unmapped range in address spaces in order, with frames for its tables;
* `Laid` — what the loop of `map_pages` has done to the tables after some pages;
* `Laid.page` — the step lemma, `mapPagesLoop_lays` — the loop, and when it completes;
* `mapMemory_maps_iff` — the bytes behind the reply are those asked for, and the kernel process
  keeps its translations, exactly when `paddr` is the address of a page and the tables of the
  range are free of conflicts.
-/

/-! ### Address spaces and a range to map -/

section Tables

variable {τ : Type} {m : Machine τ} {v : BitVec 32} {j k n : Nat}

/-- Two pages at the same index of one region are one page. -/
theorem page_eq_of_idx (hv : v.toNat % 4096 = 0) (hend : v.toNat + 4096 * n ≤ 0xffc00000)
    (hj : j < n) (hk : k < n) (hd : vmPdirIdx (pageAt v j) = vmPdirIdx (pageAt v k))
    (ht : vmPtabIdx (pageAt v j) = vmPtabIdx (pageAt v k)) : j = k := by
  have h := palignDown_eq_of_idx hd ht
  rw [palignDown_of_aligned (pageAt_aligned hv), palignDown_of_aligned (pageAt_aligned hv)] at h
  have := congrArg BitVec.toNat h
  rw [pageAt_toNat hend hj, pageAt_toNat hend hk] at this
  omega

/-- The frames `pm_alloc` has for the regions without a table are distinct, and in use in none of
    the address spaces. -/
structure NewTables (dirs : Set (BitVec 32)) (m : Machine τ) (v : BitVec 32) (n : Nat) : Prop where
  unused : ∀ k < n, ¬ Present (pdeOf m.mem m.cr3 (pageAt v k)) →
    (tableOf m v k).toNat % 4096 = 0 ∧ ∀ E ∈ dirs, ¬ InUse m.mem E (tableOf m v k)
  distinct : ∀ j < n, ∀ k < n, ¬ Present (pdeOf m.mem m.cr3 (pageAt v j)) →
    ¬ Present (pdeOf m.mem m.cr3 (pageAt v k)) → tableOf m v j = tableOf m v k →
      vmPdirIdx (pageAt v j) = vmPdirIdx (pageAt v k)

end Tables

/-- `n` pages from `v` on are unmapped, among address spaces in order. -/
structure Target {τ : Type} [Tlb τ] (K dirs : Set (BitVec 32)) (m : Machine τ) (v : BitVec 32)
    (n : Nat) : Prop where
  spaces : Spaces K dirs m.mem
  current : m.cr3 ∈ dirs
  aligned : v.toNat % 4096 = 0
  below : v.toNat + 4096 * n ≤ 0xffc00000
  unmapped : ∀ k < n, walk m.mem m.cr3 (pageAt v k) = none
  tables : NewTables dirs m v n

section Target

variable {τ : Type} [Tlb τ] {K dirs : Set (BitVec 32)} {m : Machine τ} {v E w : BitVec 32}
  {j k n : Nat}

theorem Target.mono (ht : Target K dirs m v n) (h : k ≤ n) : Target K dirs m v k := by
  have hbelow := ht.below
  exact ⟨ht.spaces, ht.current, ht.aligned, by omega, fun i hi => ht.unmapped i (by omega),
    fun i hi => ht.tables.unused i (by omega),
    fun i hi i' hi' => ht.tables.distinct i (by omega) i' (by omega)⟩

theorem Target.table_aligned (ht : Target K dirs m v n) (hk : k < n) :
    (tableOf m v k).toNat % 4096 = 0 := by
  by_cases hp : Present (pdeOf m.mem m.cr3 (pageAt v k))
  · rw [tableOf, rangeTables_present hp]
    exact palignDown_aligned _
  · exact (ht.tables.unused k hk hp).1

/-- A table of any address space is a table of the range only if it is shared. -/
theorem Target.shares (ht : Target K dirs m v n) (hk : k < n) (hE : E ∈ dirs)
    (hp : Present (pdeOf m.mem E w)) (hf : palignDown (pdeOf m.mem E w) = tableOf m v k) :
    vmPdirIdx w = vmPdirIdx (pageAt v k) ∧ Shares m.mem m.cr3 E (pageAt v k) := by
  by_cases hpk : Present (pdeOf m.mem m.cr3 (pageAt v k))
  · rw [tableOf, rangeTables_present hpk] at hf
    have hidx := ht.spaces.apart E hE _ ht.current w _ hp hpk hf
    rw [pdeOf_congr hidx] at hp hf
    exact ⟨hidx, hpk, hp, hf.symm⟩
  · exact absurd ⟨w, hp, hf⟩ ((ht.tables.unused k hk hpk).2 E hE)

/-- A table of the range is no directory. -/
theorem Target.table_ne (ht : Target K dirs m v n) (hk : k < n) (hE : E ∈ dirs) :
    palignDown E ≠ tableOf m v k := by
  intro heq
  obtain ⟨hp, hf⟩ := recursive_iff.mp (ht.spaces.recursive E hE)
  obtain ⟨hidx, -⟩ := ht.shares hk hE hp (hf.trans heq)
  exact pageAt_region ht.below hk (hidx.symm.trans (by decide))

/-- The tables of different regions are different. -/
theorem Target.region_eq (ht : Target K dirs m v n) (hj : j < n) (hk : k < n)
    (heq : tableOf m v j = tableOf m v k) :
    vmPdirIdx (pageAt v j) = vmPdirIdx (pageAt v k) := by
  by_cases hp : Present (pdeOf m.mem m.cr3 (pageAt v j))
  · refine (ht.shares hk ht.current hp ?_).1
    rw [← heq, tableOf, rangeTables_present hp]
  · by_cases hp' : Present (pdeOf m.mem m.cr3 (pageAt v k))
    · refine (ht.shares hj ht.current hp' ?_).1.symm
      rw [heq, tableOf, rangeTables_present hp']
    · exact ht.tables.distinct j hj k hk hp hp' heq

end Target

/-! ### What the loop has done -/

/-- The entry `e` points to the frame `F`, and admits user code. -/
def UserEntry (F e : BitVec 32) : Prop := Present e ∧ palignDown e = F ∧ e &&& pteU ≠ 0#32

/-- What `map_page` stores admits user code, when asked for. -/
theorem user_flags (e : BitVec 32) : (e ||| mapFlags pteU) &&& pteU ≠ 0#32 := fun h =>
  absurd (user_or h).2 (by decide)

theorem userEntry_stored {F e : BitVec 32} (h : palignDown e = F) :
    UserEntry F (e ||| mapFlags pteU) :=
  ⟨present_or_right (present_flags pteU), (palignDown_or (flags_lt (by decide))).trans h,
    user_flags e⟩

/-- An entry that `map_page` accepts as the one asked for. -/
theorem SameMapping.userEntry {p x : BitVec 32} (h : SameMapping x p pteU) (hx : Present x) :
    UserEntry (palignDown p) x := by
  refine ⟨hx, h.1.trans (palignDown_palignDown p), fun hu => ?_⟩
  have hbit : x &&& pteU = x &&& 0x1f#32 &&& pteU := by
    rw [BitVec.and_assoc]
    rfl
  rw [hbit, h.2] at hu
  exact absurd hu (by decide)

/-- The table of page `k` is new, and not the first page it gets: `map_page` looks at an entry
    that nobody has written.  It accepts one that is not present, or the one asked for. -/
def SlotFits {τ : Type} (m : Machine τ) (p v : BitVec 32) (k : Nat) : Prop :=
  Continues v k → ¬ Present (pdeOf m.mem m.cr3 (pageAt v k)) →
    Present (tableEntry m.mem (tableOf m v k) (vmPtabIdx (pageAt v k))) →
      SameMapping (tableEntry m.mem (tableOf m v k) (vmPtabIdx (pageAt v k))) (pageAt p k) pteU

/-- From `m` to `m'` the first `n` pages from `v` on were mapped to the frames from `p` on, and no
    other entry of a directory or table was written. -/
structure Laid {τ : Type} [Tlb τ] (m : Machine τ) (p v : BitVec 32) (n : Nat) (m' : Machine τ) :
    Prop where
  cr3 : m'.cr3 = m.cr3
  pm : m'.pm = (rangeTables m v n).2
  windows : Coherent m'.windowed.tlb m'.mem m.cr3
  pdes : ∀ k < n, UserEntry (tableOf m v k) (pdeOf m'.mem m.cr3 (pageAt v k))
  ptes : ∀ k < n, UserEntry (pageAt p k)
    (tableEntry m'.mem (tableOf m v k) (vmPtabIdx (pageAt v k)))
  dir : ∀ i : BitVec 32, i.toNat < 1024 → (∀ k < n, i ≠ vmPdirIdx (pageAt v k)) →
    tableEntry m'.mem (palignDown m.cr3) i = tableEntry m.mem (palignDown m.cr3) i
  others : ∀ c i : BitVec 32, c.toNat % 4096 = 0 → i.toNat < 1024 → c ≠ palignDown m.cr3 →
    (∀ k < n, c = tableOf m v k → i ≠ vmPtabIdx (pageAt v k)) →
    tableEntry m'.mem c i = tableEntry m.mem c i

section Laid

variable {τ : Type} [Tlb τ] {K dirs : Set (BitVec 32)} {m m₁ m' : Machine τ}
  {p v E e x : BitVec 32} {k n : Nat}

/-- **The two stores** for page `n`. -/
theorem Laid.store (h : Laid m p v n m₁) (ht : Target K dirs m v (n + 1))
    (he : UserEntry (tableOf m v n) e) (hx : UserEntry (pageAt p n) x)
    (hmem : m'.mem = newTable m₁.mem m.cr3 (pageAt v n) e x) (hcr3 : m'.cr3 = m.cr3)
    (hpm : m'.pm = (rangeTables m v (n + 1)).2)
    (hc : Coherent m'.windowed.tlb m'.mem m.cr3) : Laid m p v (n + 1) m' := by
  have hdir : palignDown m.cr3 ≠ tableOf m v n := ht.table_ne (by omega) ht.current
  have hentry : ∀ c i : BitVec 32, c.toNat % 4096 = 0 → i.toNat < 1024 →
      tableEntry m'.mem c i = if c = tableOf m v n ∧ i = vmPtabIdx (pageAt v n) then x
        else if c = palignDown m.cr3 ∧ i = vmPdirIdx (pageAt v n) then e
        else tableEntry m₁.mem c i := by
    intro c i hca hi
    rw [hmem, tableEntry_newTable hca hi, he.2.1]
  have hpde : ∀ w, pdeOf m'.mem m.cr3 w
      = if vmPdirIdx w = vmPdirIdx (pageAt v n) then e else pdeOf m₁.mem m.cr3 w := by
    intro w
    rw [hmem, pdeOf_newTable (by rw [he.2.1]; exact hdir.symm)]
  refine ⟨hcr3, hpm, hc, fun k hk => ?_, fun k hk => ?_, fun i hi hne => ?_,
    fun c i hca hi hcd hne => ?_⟩
  · rw [hpde]
    split
    · rename_i hreg
      rwa [tableOf_region ht.below (by omega) (by omega) hreg]
    · rename_i hreg
      have hlt : k ≠ n := fun heq => hreg (by rw [heq])
      exact h.pdes k (by omega)
  · rw [hentry _ _ (ht.table_aligned hk) (vmPtabIdx_lt _)]
    by_cases heq : k = n
    · rw [heq, if_pos ⟨rfl, rfl⟩]
      exact hx
    · -- another page has another entry
      rw [if_neg fun hsame => heq (page_eq_of_idx ht.aligned ht.below hk (by omega)
          (ht.region_eq hk (by omega) hsame.1) hsame.2),
        if_neg fun hsame => ht.table_ne hk ht.current hsame.1.symm]
      exact h.ptes k (by omega)
  · rw [hentry _ _ (palignDown_aligned _) hi, if_neg fun hsame => hdir hsame.1,
      if_neg fun hsame => hne n (by omega) hsame.2]
    exact h.dir i hi fun k hk => hne k (by omega)
  · rw [hentry c i hca hi, if_neg fun hsame => hne n (by omega) hsame.1 hsame.2,
      if_neg fun hsame => hcd hsame.1]
    exact h.others c i hca hi hcd fun k hk => hne k (by omega)

/-- The page is mapped as asked for already. -/
theorem Laid.already (h : Laid m p v n m₁) (hp : UserEntry (tableOf m v n)
      (pdeOf m₁.mem m.cr3 (pageAt v n)))
    (hx : UserEntry (pageAt p n) (tableEntry m₁.mem (tableOf m v n) (vmPtabIdx (pageAt v n))))
    (hmem : m'.mem = m₁.mem) (hcr3 : m'.cr3 = m.cr3)
    (hpm : m'.pm = (rangeTables m v (n + 1)).2)
    (hc : Coherent m'.windowed.tlb m'.mem m.cr3) : Laid m p v (n + 1) m' := by
  refine ⟨hcr3, hpm, hc, fun k hk => ?_, fun k hk => ?_, fun i hi hne => ?_,
    fun c i hca hi hcd hne => ?_⟩
  · by_cases heq : k = n
    · rw [heq, hmem]
      exact hp
    · rw [hmem]
      exact h.pdes k (by omega)
  · by_cases heq : k = n
    · rw [heq, hmem]
      exact hx
    · rw [hmem]
      exact h.ptes k (by omega)
  · rw [hmem]
    exact h.dir i hi fun k hk => hne k (by omega)
  · rw [hmem]
    exact h.others c i hca hi hcd fun k hk => hne k (by omega)

/-- Nobody has written the entry of the next page yet. -/
theorem Laid.next_pte (h : Laid m p v n m₁) (ht : Target K dirs m v (n + 1)) :
    tableEntry m₁.mem (tableOf m v n) (vmPtabIdx (pageAt v n))
      = tableEntry m.mem (tableOf m v n) (vmPtabIdx (pageAt v n)) := by
  refine h.others _ _ (ht.table_aligned (by omega)) (vmPtabIdx_lt _)
    (ht.table_ne (by omega) ht.current).symm fun k hk heq hidx => ?_
  have := page_eq_of_idx ht.aligned ht.below (by omega) (by omega)
    (ht.region_eq (by omega) (by omega) heq) hidx
  omega

/-- The directory entry of the next page: of a region that was entered before, … -/
theorem Laid.next_pde (h : Laid m p v n m₁) (ht : Target K dirs m v (n + 1))
    (hc : Continues v n) : UserEntry (tableOf m v n) (pdeOf m₁.mem m.cr3 (pageAt v n)) := by
  have hprev := h.pdes (n - 1) (by have := hc.1; omega)
  rwa [tableOf_region ht.below (by omega) (by omega) hc.2.symm, ← pdeOf_congr hc.2] at hprev

/-- … or of a region that is entered now. -/
theorem Laid.first_pde (h : Laid m p v n m₁) (ht : Target K dirs m v (n + 1))
    (hc : ¬ Continues v n) :
    pdeOf m₁.mem m.cr3 (pageAt v n) = pdeOf m.mem m.cr3 (pageAt v n) := by
  refine h.dir _ (vmPdirIdx_lt _) fun k hk heq => hc ?_
  exact (continues_of_region ht.below hk (by omega) heq.symm).1

/-- The self-mapping is not in the range. -/
theorem Laid.recursive (h : Laid m p v n m₁) (ht : Target K dirs m v n) :
    Recursive m₁.mem m.cr3 := by
  have hr := ht.spaces.recursive _ ht.current
  unfold Recursive at hr ⊢
  rwa [h.dir 1023#32 (by decide) fun k hk heq => pageAt_region ht.below hk heq.symm]

/-- When there is a page table for the next page, it is the one of the range, and `pm_alloc` is
    not called. -/
theorem Laid.next_table (h : Laid m p v n m₁) (ht : Target K dirs m v (n + 1))
    (hp : Present (pdeOf m₁.mem m.cr3 (pageAt v n))) :
    palignDown (pdeOf m₁.mem m.cr3 (pageAt v n)) = tableOf m v n ∧
      m₁.pm = (rangeTables m v (n + 1)).2 := by
  by_cases hold : Present (pdeOf m.mem m.cr3 (pageAt v n))
  · have hpm : m₁.pm = (rangeTables m v (n + 1)).2 := by rw [h.pm, rangeTables_present hold]
    refine ⟨?_, hpm⟩
    by_cases hc : Continues v n
    · exact (h.next_pde ht hc).2.1
    · rw [h.first_pde ht hc, tableOf, rangeTables_present hold]
  · have hc : Continues v n := by
      by_contra hc
      rw [h.first_pde ht hc] at hp
      exact hold hp
    exact ⟨(h.next_pde ht hc).2.1, by rw [h.pm, rangeTables_continues hold hc]⟩

/-- What `map_page` does on the windows it does. -/
theorem mapPage_of_windowed {q w flags : BitVec 32} {u : Machine (Windowed τ)}
    (hrun : mapPage q w flags m.windowed = .ok ((), u)) :
    (∃ m', mapPage q w flags m = .ok ((), m')) ∧
      ∀ m', mapPage q w flags m = .ok ((), m') → m'.windowed = u := by
  obtain ⟨m', hm', -⟩ := (mapPage_erases q w flags).exists_ok hrun
  refine ⟨⟨m', hm'⟩, fun m' hm' => ?_⟩
  exact (Prod.mk.inj (Except.ok.inj (((mapPage_erases q w flags).ok hm').symm.trans hrun))).2

/-- `map_page` for page `n`, when it stores the two entries. -/
theorem Laid.stored (h : Laid m p v n m₁) (ht : Target K dirs m v (n + 1)) {t : Windowed τ}
    {pm : Pm} (hrun : mapPage (pageAt p n) (pageAt v n) pteU m₁.windowed
      = .ok ((), ⟨newTable m₁.mem m.cr3 (pageAt v n) e x, m.cr3, t, pm⟩))
    (hct : Coherent t (setPde m₁.mem m.cr3 (pageAt v n) e) m.cr3)
    (he : UserEntry (tableOf m v n) e) (hx : UserEntry (pageAt p n) x)
    (hpm : pm = (rangeTables m v (n + 1)).2) :
    (∃ m', mapPage (pageAt p n) (pageAt v n) pteU m₁ = .ok ((), m')) ∧
      ∀ m', mapPage (pageAt p n) (pageAt v n) pteU m₁ = .ok ((), m') →
        Laid m p v (n + 1) m' := by
  obtain ⟨hex, hall⟩ := mapPage_of_windowed hrun
  refine ⟨hex, fun m' hm' => ?_⟩
  have hw := hall m' hm'
  have hmem : m'.mem = newTable m₁.mem m.cr3 (pageAt v n) e x :=
    congrArg (fun u : Machine (Windowed τ) => u.mem) hw
  have hne : palignDown e ≠ palignDown m.cr3 := by
    rw [he.2.1]
    exact (ht.table_ne (by omega) ht.current).symm
  refine h.store ht he hx hmem (congrArg (fun u : Machine (Windowed τ) => u.cr3) hw)
    ((congrArg (fun u : Machine (Windowed τ) => u.pm) hw).trans hpm) ?_
  rw [hw, hmem]
  exact coherent_newTable (h.recursive (ht.mono (by omega))) (pageAt_region ht.below (by omega))
    hne hct

/-- The entry of the next page is in use already: it is in a table that is new and was not
    cleared. -/
theorem Laid.found (h : Laid m p v n m₁) (ht : Target K dirs m v (n + 1))
    (hp : Present (pdeOf m₁.mem m.cr3 (pageAt v n)))
    (hx : Present (tableEntry m.mem (tableOf m v n) (vmPtabIdx (pageAt v n)))) :
    Continues v n ∧ ¬ Present (pdeOf m.mem m.cr3 (pageAt v n)) := by
  have hold : ¬ Present (pdeOf m.mem m.cr3 (pageAt v n)) := by
    intro hold
    rcases walk_eq_none_iff.mp (ht.unmapped n (by omega)) with hno | hno
    · exact hno hold
    · rw [tableOf, rangeTables_present hold] at hx
      exact hno hx
  refine ⟨?_, hold⟩
  by_contra hc
  rw [h.first_pde ht hc] at hp
  exact hold hp

/-- **Step lemma.**  `map_page` for page `n`. -/
theorem Laid.page (h : Laid m p v n m₁) (ht : Target K dirs m v (n + 1))
    (hpa : p.toNat % 4096 = 0) :
    ((∃ m', mapPage (pageAt p n) (pageAt v n) pteU m₁ = .ok ((), m')) ↔ SlotFits m p v n) ∧
      ∀ m', mapPage (pageAt p n) (pageAt v n) pteU m₁ = .ok ((), m') →
        Laid m p v (n + 1) m' := by
  have hcr3 : m₁.windowed.cr3 = m.cr3 := h.cr3
  have hr : Recursive m₁.windowed.mem m₁.windowed.cr3 := by
    rw [hcr3]
    exact h.recursive (ht.mono (by omega))
  have hco : Coherent m₁.windowed.tlb m₁.windowed.mem m₁.windowed.cr3 := by
    rw [hcr3]
    exact h.windows
  have hq : palignDown (pageAt p n) = pageAt p n := palignDown_of_aligned (pageAt_aligned hpa)
  have hx' : UserEntry (pageAt p n) (palignDown (pageAt p n) ||| mapFlags pteU) :=
    userEntry_stored ((palignDown_palignDown _).trans hq)
  by_cases hp : Present (pdeOf m₁.windowed.mem m₁.windowed.cr3 (pageAt v n))
  · have hp₁ := hp
    rw [hcr3] at hp₁
    obtain ⟨hframe, hpm⟩ := h.next_table ht hp₁
    have hpte : pteOf m₁.windowed.mem m₁.windowed.cr3 (pageAt v n)
        = tableEntry m.mem (tableOf m v n) (vmPtabIdx (pageAt v n)) := by
      rw [hcr3, ← h.next_pte ht, ← hframe]
      rfl
    by_cases hx : Present (tableEntry m.mem (tableOf m v n) (vmPtabIdx (pageAt v n)))
    · -- accepted as it is, or not at all
      obtain ⟨hc, hold⟩ := h.found ht hp₁ hx
      obtain ⟨t, hct, -, hrun⟩ := @mapPage_present _ _ m₁.windowed hco hr (pageAt p n)
        (pageAt v n) pteU hp (hpte.symm ▸ hx)
      rw [hpte] at hrun
      rw [hcr3] at hct
      by_cases hsame : SameMapping (tableEntry m.mem (tableOf m v n) (vmPtabIdx (pageAt v n)))
        (pageAt p n) pteU
      · rw [if_pos hsame] at hrun
        obtain ⟨hex, hall⟩ := mapPage_of_windowed hrun
        refine ⟨iff_of_true hex fun _ _ _ => hsame, fun m' hm' => ?_⟩
        have hw := hall m' hm'
        have hmem : m'.mem = m₁.mem := congrArg (fun u : Machine (Windowed τ) => u.mem) hw
        have hentry := hsame.userEntry hx
        rw [hq, ← h.next_pte ht] at hentry
        refine h.already (h.next_pde ht hc) hentry hmem
          ((congrArg (fun u : Machine (Windowed τ) => u.cr3) hw).trans h.cr3)
          ((congrArg (fun u : Machine (Windowed τ) => u.pm) hw).trans hpm) ?_
        rw [hw, hmem]
        exact hct
      · rw [if_neg hsame] at hrun
        have hno : ∀ m', mapPage (pageAt p n) (pageAt v n) pteU m₁ ≠ .ok ((), m') := by
          intro m' hm'
          have hhalt := (mapPage_erases (τ := τ) _ _ _).error hrun
          exact absurd (hhalt.symm.trans hm') (by simp)
        exact ⟨iff_of_false (fun ⟨m', hm'⟩ => hno m' hm') fun hfit => hsame (hfit hc hold hx),
          fun m' hm' => absurd hm' (hno m')⟩
    · -- into the table in place
      have hflags : pteU.toNat < 4096 := by decide
      obtain ⟨t, hrun, hct, -⟩ := mapPage_absentPage (m := m₁.windowed) (p := pageAt p n)
        (v := pageAt v n) hco hr hflags hp (hpte.symm ▸ hx)
      rw [hcr3] at hrun hct
      obtain ⟨hex, hlaid⟩ := h.stored ht hrun hct (userEntry_stored hframe) hx' hpm
      exact ⟨iff_of_true hex fun _ _ hx₀ => absurd hx₀ hx, hlaid⟩
  · -- into a new table
    obtain ⟨t, hrun, hct, -⟩ :=
      @mapPage_absentTable _ _ m₁.windowed hco hr (pageAt p n) (pageAt v n) pteU hp
    rw [hcr3] at hp hrun hct
    have hc : ¬ Continues v n := fun hc => hp (h.next_pde ht hc).1
    have hold : ¬ Present (pdeOf m.mem m.cr3 (pageAt v n)) := by
      rwa [← h.first_pde ht hc]
    have hnew : rangeTables m v (n + 1) = pmAlloc m₁.pm := by rw [rangeTables_new hold hc, h.pm]
    have hframe : palignDown (pmAlloc m₁.pm).1 = tableOf m v n := by
      have hal := ht.table_aligned (k := n) (by omega)
      rw [tableOf, hnew] at hal ⊢
      exact palignDown_of_aligned hal
    obtain ⟨hex, hlaid⟩ := h.stored ht hrun hct (userEntry_stored hframe) hx' (by rw [hnew]; rfl)
    exact ⟨iff_of_true hex fun hc' => absurd hc' hc, hlaid⟩

/-! ### The loop -/

/-- **Run lemma.**  The loop completes when the pages fit, and then they are mapped. -/
theorem mapPagesLoop_lays (ht : Target K dirs m v n) (hc : Coherent m.windowed.tlb m.mem m.cr3)
    (hpa : p.toNat % 4096 = 0) :
    ((∃ m', mapPagesLoop pteU n p v m = .ok ((), m')) ↔ ∀ k < n, SlotFits m p v k) ∧
      ∀ m', mapPagesLoop pteU n p v m = .ok ((), m') → Laid m p v n m' := by
  induction n with
  | zero =>
    refine ⟨iff_of_true ⟨m, rfl⟩ fun k hk => absurd hk (by omega), fun m' hm' => ?_⟩
    obtain ⟨-, rfl⟩ := Prod.mk.inj (Except.ok.inj hm')
    exact ⟨rfl, rfl, hc, fun k hk => absurd hk (by omega), fun k hk => absurd hk (by omega),
      fun _ _ _ => rfl, fun _ _ _ _ _ _ => rfl⟩
  | succ n ih =>
    obtain ⟨hiff, hlaid⟩ := ih (ht.mono (by omega))
    rw [mapPagesLoop_succ]
    refine ⟨⟨?_, fun hfit => ?_⟩, fun m' hm' => ?_⟩
    · rintro ⟨m', hm'⟩
      obtain ⟨⟨⟩, m₁, h₁, h₂⟩ := bind_ok_iff.mp hm'
      have hlast := ((hlaid m₁ h₁).page ht hpa).1.mp ⟨m', h₂⟩
      intro k hk
      by_cases heq : k = n
      · exact heq ▸ hlast
      · exact hiff.mp ⟨m₁, h₁⟩ k (by omega)
    · obtain ⟨m₁, h₁⟩ := hiff.mpr fun k hk => hfit k (by omega)
      obtain ⟨m', h₂⟩ := ((hlaid m₁ h₁).page ht hpa).1.mpr (hfit n (by omega))
      exact ⟨m', (run_bind_of_ok h₁).trans h₂⟩
    · obtain ⟨⟨⟩, m₁, h₁, h₂⟩ := bind_ok_iff.mp hm'
      exact ((hlaid m₁ h₁).page ht hpa).2 m' h₂

/-! ### The translations -/

/-- The pages of the range. -/
theorem Laid.walk_page (h : Laid m p v n m') (hk : k < n) :
    walk m'.mem m.cr3 (pageAt v k) = some (pageAt p k) ∧
      userWalk m'.mem m.cr3 (pageAt v k) = some (pageAt p k) := by
  obtain ⟨hp, hframe, hu⟩ := h.pdes k hk
  obtain ⟨hp', hframe', hu'⟩ := h.ptes k hk
  have hpte : pteOf m'.mem m.cr3 (pageAt v k)
      = tableEntry m'.mem (tableOf m v k) (vmPtabIdx (pageAt v k)) := by rw [pteOf, hframe]
  have hwalk : walk m'.mem m.cr3 (pageAt v k) = some (pageAt p k) := by
    rw [walk_eq_some_iff, hpte]
    exact ⟨hp, hp', hframe'⟩
  refine ⟨hwalk, ?_⟩
  rw [userWalk, if_neg, hwalk]
  rw [hpte]
  exact not_or.mpr ⟨hu, hu'⟩

/-- The bytes of the range. -/
theorem Laid.byte (h : Laid m p v n m') (hva : v.toNat % 4096 = 0) {i : Nat} (hi : i < 4096 * n) :
    hwTranslate m'.mem m.cr3 (v + BitVec.ofNat 32 i) = some (p + BitVec.ofNat 32 i) ∧
      (userWalk m'.mem m.cr3 (v + BitVec.ofNat 32 i)).isSome := by
  obtain ⟨hwalk, huser⟩ := h.walk_page (k := i / 4096) (by omega)
  have hal : (pageOffset (pageAt v (i / 4096))).toNat = 0 := by
    rw [pageOffset_toNat, pageAt_aligned hva]
  obtain ⟨hpage, hoff⟩ := page_add (v := pageAt v (i / 4096)) (i := i % 4096) (by omega)
  rw [show pageOffset (pageAt v (i / 4096)) = 0#32 from BitVec.eq_of_toNat_eq hal,
    BitVec.zero_add] at hoff
  rw [palignDown_of_aligned (pageAt_aligned hva)] at hpage
  rw [← pageAt_add_mod v i, ← pageAt_add_mod p i]
  generalize pageAt v (i / 4096) + BitVec.ofNat 32 (i % 4096) = w at hpage hoff ⊢
  constructor
  · rw [hwTranslate, ← walk_palignDown, hpage, hwalk, hoff]
    rfl
  · rw [userWalk, ← pdeOf_palignDown, ← pteOf_palignDown, ← walk_palignDown, hpage]
    exact Option.isSome_of_eq_some huser

/-- The directory of another address space is as it was, … -/
theorem Laid.pde_other (h : Laid m p v n m') (ht : Target K dirs m v n) (hE : E ∈ dirs)
    (hne : palignDown E ≠ palignDown m.cr3) (w : BitVec 32) :
    pdeOf m'.mem E w = pdeOf m.mem E w :=
  h.others _ _ (palignDown_aligned _) (vmPdirIdx_lt w) hne fun _ hk heq =>
    absurd heq (ht.table_ne hk hE)

/-- … and so are its translations, unless it shares a table of the range. -/
theorem Laid.walk_other (h : Laid m p v n m') (ht : Target K dirs m v n) (hE : E ∈ dirs)
    (hne : palignDown E ≠ palignDown m.cr3) (hsh : ∀ k < n, ¬ Shares m.mem m.cr3 E (pageAt v k))
    (w : BitVec 32) : walk m'.mem E w = walk m.mem E w := by
  have hpde := h.pde_other ht hE hne w
  refine walk_eq_of_entries hpde fun hp => ?_
  rw [pteOf, hpde]
  refine h.others _ _ (palignDown_aligned _) (vmPtabIdx_lt w) (fun heq => ?_) fun k hk heq =>
    absurd (ht.shares hk hE hp heq).2 (hsh k hk)
  -- the slot that points to a directory is its last, which points to its own
  obtain ⟨hpd, hfd⟩ := recursive_iff.mp (ht.spaces.recursive _ ht.current)
  have hidx := ht.spaces.apart E hE _ ht.current w _ hp hpd (heq.trans hfd.symm)
  rw [pdeOf_congr hidx, (recursive_iff.mp (ht.spaces.recursive E hE)).2] at heq
  exact hne heq

/-- A table of the range that another address space shares shows the page there too. -/
theorem Laid.walk_shared (h : Laid m p v n m') (ht : Target K dirs m v n) (hE : E ∈ dirs)
    (hne : palignDown E ≠ palignDown m.cr3) (hk : k < n) (hsh : Shares m.mem m.cr3 E (pageAt v k)) :
    walk m.mem E (pageAt v k) = none ∧ walk m'.mem E (pageAt v k) = some (pageAt p k) := by
  obtain ⟨hp, hpE, hframe⟩ := hsh
  have htable : palignDown (pdeOf m.mem E (pageAt v k)) = tableOf m v k := by
    rw [← hframe, tableOf, rangeTables_present hp]
  constructor
  · refine walk_eq_none_iff.mpr (Or.inr ?_)
    have hno := (walk_eq_none_iff.mp (ht.unmapped k hk)).resolve_left fun hno => hno hp
    rwa [pteOf, hframe] at hno
  · obtain ⟨hp', hframe', -⟩ := h.ptes k hk
    rw [walk_eq_some_iff, pteOf, h.pde_other ht hE hne, htable]
    exact ⟨hpE, hp', hframe'⟩

end Laid

/-! ### The request -/

section Requests

variable {τ : Type} [Tlb τ] {K : Set (BitVec 32)} {d : Slot} {s : System τ} {r : Request τ}

/-- The directory of the sender. -/
def Request.pdir (r : Request τ) (s : System τ) : BitVec 32 := (s.kernel.procs r.sender).pdir

/-- The pages the request gets. -/
def Request.pages (r : Request τ) : Nat := pagesOf r.msg.length

/-- The iteration ends in a reply, every byte behind the address replied is the one asked for, in
    reach of user code, and the kernel process has the translations it had. -/
def Request.Maps (r : Request τ) (d : Slot) (s : System τ) : Prop :=
  ∃ reply s', r.serve s = .ok (reply, s') ∧
    (∀ k < r.msg.length.toNat,
      hwTranslate s'.kernel.mach.mem (r.pdir s) (reply.response + BitVec.ofNat 32 k)
          = some (r.msg.paddr + BitVec.ofNat 32 k) ∧
        (userWalk s'.kernel.mach.mem (r.pdir s) (reply.response + BitVec.ofNat 32 k)).isSome) ∧
    ∀ w, hwTranslate s'.kernel.mach.mem (s.kernel.procs d).pdir w
      = hwTranslate s.kernel.mach.mem (s.kernel.procs d).pdir w

/-- The condition, in the system before the request: `paddr` is the address of a page; no table of
    the range, and not the directory, is also the kernel's; and what `pm_alloc` has for the tables
    holds nothing that is in the way. -/
structure Request.Mappable (r : Request τ) (d : Slot) (s : System τ) : Prop where
  aligned : r.msg.paddr.toNat % 4096 = 0
  own : palignDown (s.kernel.procs d).pdir ≠ palignDown (r.pdir s)
  apart : ∀ k < r.pages,
    ¬ Shares s.kernel.mach.mem (r.pdir s) (s.kernel.procs d).pdir (pageAt 0x10000000#32 k)
  slots : ∀ k < r.pages,
    SlotFits (s.kernel.mach.load (r.pdir s)) (palignDown r.msg.paddr) 0x10000000#32 k

/-- Something is mapped from `0x10000000` on, and not after the first page of the window on the
    page tables: the kernel is, in every address space. -/
def HasKernel (mem : Mem) (D : BitVec 32) : Prop :=
  ∃ w : BitVec 32, 0x10000000 ≤ w.toNat ∧ w.toNat ≤ 0xffc00000 ∧ walk mem D w ≠ none

/-- An unmapped range ends before it. -/
theorem HasKernel.below {mem : Mem} {D len : BitVec 32} (h : HasKernel mem D)
    (hfree : ∀ k < len.toNat, walk mem D (0x10000000#32 + BitVec.ofNat 32 k) = none) :
    0x10000000 + 4096 * pagesOf len ≤ 0xffc00000 := by
  obtain ⟨w, hlow, hhigh, hw⟩ := h
  by_contra hend
  have hk : w.toNat / 4096 * 4096 - 0x10000000 < len.toNat := by
    unfold pagesOf at hend
    split at hend <;> omega
  refine hw ?_
  have hpage : 0x10000000#32 + BitVec.ofNat 32 (w.toNat / 4096 * 4096 - 0x10000000)
      = palignDown w := by
    apply BitVec.eq_of_toNat_eq
    rw [palignDown_toNat, BitVec.toNat_add, BitVec.toNat_ofNat, BitVec.toNat_ofNat]
    omega
  rw [← walk_palignDown, ← hpage]
  exact hfree _ hk

/-- The range of a request. -/
theorem Request.target (hin : s.kernel.board.inited r.sender = true)
    (hspaces : Spaces K (directories s.kernel) s.kernel.mach.mem)
    (hkernel : HasKernel s.kernel.mach.mem (r.pdir s))
    (hfree : ∀ k < r.msg.length.toNat,
      walk s.kernel.mach.mem (r.pdir s) (0x10000000#32 + BitVec.ofNat 32 k) = none)
    (hnew : NewTables (directories s.kernel) (s.kernel.mach.load (r.pdir s)) 0x10000000#32
      r.pages) :
    Target K (directories s.kernel) (s.kernel.mach.load (r.pdir s)) 0x10000000#32 r.pages := by
  refine ⟨hspaces, ⟨r.sender, hin, rfl⟩, by decide, hkernel.below hfree, fun k hk => ?_, hnew⟩
  refine hfree (4096 * k) ?_
  have : k < pagesOf r.msg.length := hk
  unfold pagesOf at this
  split at this <;> omega

/-- The iteration completes with the loop of `map_pages`, and replies `0x10000000`. -/
theorem Serving.mapMemory (hs : Serving d s) (hin : s.kernel.board.inited r.sender = true)
    (htype : r.msg.type = msgMapMemory) (hlen : 1 ≤ r.msg.length.toNat) {reply : Reply}
    {s' : System τ} : r.serve s = .ok (reply, s') ↔
      ∃ m', mapPagesLoop pteU r.pages (palignDown r.msg.paddr) 0x10000000#32
          (s.kernel.mach.load (r.pdir s)) = .ok ((), m') ∧
        reply = ⟨(s.kernel.procs r.sender).pid, 0x10000000#32, none⟩ ∧
        s' = s.served (m'.load (s.kernel.procs d).pdir) s.irqHandlers s.saveCurrCr3 := by
  have hfind : s.kernel.procFindByPid (s.kernel.procs r.sender).pid = some r.sender :=
    hs.named.find_pid hin
  have hpages : mapPages r.msg.paddr 0x10000000#32 pteU r.msg.length
      (s.kernel.mach.load (s.kernel.procs r.sender).pdir)
      = mapPagesLoop pteU r.pages (palignDown r.msg.paddr) 0x10000000#32
          (s.kernel.mach.load (r.pdir s)) := by
    have hne : r.msg.length ≠ 0#32 := by
      intro h
      rw [h] at hlen
      exact absurd hlen (by decide)
    rw [mapPages, if_neg hne, palignDown_of_aligned (a := 0x10000000#32) (by decide)]
    rfl
  unfold Request.serve dispatch
  rw [run_bind_of_ok (run_get s)]
  simp only [hfind]
  rw [if_neg (by rw [htype]; decide), if_pos htype, ← hpages]
  cases hm : mapPages r.msg.paddr 0x10000000#32 pteU r.msg.length
      (s.kernel.mach.load (s.kernel.procs r.sender).pdir) with
  | error e =>
    rw [run_bind_of_error (mapMemoryBranch_traps hm)]
    simp
  | ok a =>
    obtain ⟨⟨⟩, m'⟩ := a
    rw [run_bind_of_ok (mapMemoryBranch_completes hs.current hm)]
    constructor
    · intro h
      obtain ⟨rfl, rfl⟩ := Prod.mk.inj (Except.ok.inj h)
      exact ⟨m', rfl, rfl, rfl⟩
    · rintro ⟨m₁, hm₁, rfl, rfl⟩
      obtain ⟨-, rfl⟩ := Prod.mk.inj (Except.ok.inj hm₁)
      rfl

/-- **`MSG_MAP_MEMORY`.**  For any request of a process whose target range is unmapped, the bytes
    behind the reply are those asked for, and the kernel process keeps its translations, exactly
    when `paddr` is the address of a page and nothing of the tables is in conflict. -/
theorem mapMemory_maps_iff (hs : Serving d s) (hin : s.kernel.board.inited r.sender = true)
    (htype : r.msg.type = msgMapMemory) (hlen : 1 ≤ r.msg.length.toNat)
    (hspaces : Spaces K (directories s.kernel) s.kernel.mach.mem)
    (hkernel : HasKernel s.kernel.mach.mem (r.pdir s))
    (hfree : ∀ k < r.msg.length.toNat,
      walk s.kernel.mach.mem (r.pdir s) (0x10000000#32 + BitVec.ofNat 32 k) = none)
    (hnew : NewTables (directories s.kernel) (s.kernel.mach.load (r.pdir s)) 0x10000000#32
      r.pages) : r.Maps d s ↔ r.Mappable d s := by
  have ht := Request.target hin hspaces hkernel hfree hnew
  have hE : (s.kernel.procs d).pdir ∈ directories s.kernel :=
    ⟨d, hs.named.who d (Or.inl hs.current), rfl⟩
  have hpos : 0 < r.pages := pagesOf_pos hlen
  obtain ⟨hiff, hlaid⟩ := mapPagesLoop_lays ht (hs.loaded hin).windows
    (palignDown_aligned r.msg.paddr)
  constructor
  · rintro ⟨reply, s', hserve, hbytes, hkern⟩
    obtain ⟨m', hloop, rfl, rfl⟩ := (hs.mapMemory hin htype hlen).mp hserve
    have hl := hlaid m' hloop
    have hown : palignDown (s.kernel.procs d).pdir ≠ palignDown (r.pdir s) := by
      -- in its own directory the kernel would see the first page
      intro heq
      have hfirst := hwTranslate_eq_iff.mp (hkern (pageAt 0x10000000#32 0))
      rw [walk_dir_congr heq, walk_dir_congr heq] at hfirst
      exact absurd ((hl.walk_page hpos).1.symm.trans (hfirst.trans (ht.unmapped 0 hpos))) (by simp)
    refine ⟨?_, hown, fun k hk hsh => ?_, hiff.mp ⟨m', hloop⟩⟩
    · have hzero := (hbytes 0 (by omega)).1.symm.trans (hl.byte (i := 0) (by decide) (by omega)).1
      have hpage := (BitVec.add_left_inj _).mp (Option.some.inj hzero)
      rw [hpage]
      exact palignDown_aligned _
    · obtain ⟨hbefore, hafter⟩ := hl.walk_shared ht hE hown hk hsh
      have hsame := hwTranslate_eq_iff.mp (hkern (pageAt 0x10000000#32 k))
      exact absurd (hafter.symm.trans (hsame.trans hbefore)) (by simp)
  · intro hr
    obtain ⟨m', hloop⟩ := hiff.mpr hr.slots
    have hl := hlaid m' hloop
    refine ⟨_, _, (hs.mapMemory hin htype hlen).mpr ⟨m', hloop, rfl, rfl⟩, fun k hk => ?_,
      fun w => ?_⟩
    · have hlt : k < 4096 * r.pages := by
        unfold Request.pages pagesOf
        split <;> omega
      have hbyte := hl.byte (i := k) (by decide) hlt
      rwa [palignDown_of_aligned hr.aligned] at hbyte
    · exact hwTranslate_eq_iff.mpr (hl.walk_other ht hE hr.own hr.apart w)

end Requests

/-! ### A small system -/

/-- The dispatcher runs in the small system of two address spaces. -/
def askedSystem : System Unit where
  kernel := { exchangeKernel false with currentProc := some (procAt 0) }
  irqHandlers := timerOnly
  branch := []
  saveCurrCr3 := 0#32

theorem directories_asked {D : BitVec 32} (hD : D ∈ directories askedSystem.kernel) :
    D ∈ exchangeDirs := by
  obtain ⟨c, -, rfl⟩ := hD
  show (if c.val = 2 then 0x2000#32 else 0x1000#32) ∈ exchangeDirs
  split <;> decide

theorem spaces_asked : Spaces {F | F ∈ exchangeTables} (directories askedSystem.kernel)
    askedSystem.kernel.mach.mem := by
  have hs := spaces_exchange (b := false)
  exact ⟨fun D hD => hs.recursive D (directories_asked hD),
    fun D hD => hs.tables D (directories_asked hD),
    fun D hD E hE => hs.apart D (directories_asked hD) E (directories_asked hE)⟩

theorem serving_asked : Serving (procAt 0) askedSystem := by
  refine ⟨rfl, ⟨by decide, by decide, ?_⟩, ⟨spaces_asked.recursive, fun D hD w hw hp E hE => ?_⟩⟩
  · rintro c (hc | hc)
    · obtain rfl := Option.some.inj hc
      decide
    · obtain rfl := Option.some.inj hc
      decide
  · exact spaces_asked.table_ne hD hE hp hw

/-- Where a request is mapped there is nothing, not even a table. -/
theorem absent_asked {D : BitVec 32} (hD : D ∈ exchangeDirs) {k : Nat} (hk : k < 0x1000) :
    ¬ Present (pdeOf askedSystem.kernel.mach.mem D (0x10000000#32 + BitVec.ofNat 32 k)) := by
  intro hp
  have hidx : (vmPdirIdx (0x10000000#32 + BitVec.ofNat 32 k)).toNat = 0x40 := by
    rw [vmPdirIdx_toNat, BitVec.toNat_add, BitVec.toNat_ofNat, BitVec.toNat_ofNat]
    omega
  rcases pdeOf_exchange (b := false) hD hp with ⟨h, -⟩ | ⟨h, -⟩
  · rw [h] at hidx
    exact absurd hidx (by decide)
  · rw [h] at hidx
    exact absurd hidx (by decide)

theorem hasKernel_asked : HasKernel askedSystem.kernel.mach.mem 0x2000#32 :=
  ⟨0xffc00000#32, by decide, by decide, by decide +kernel⟩

theorem newTables_asked {D : BitVec 32} (hD : D ∈ exchangeDirs) :
    NewTables (directories askedSystem.kernel) (askedSystem.kernel.mach.load D)
      0x10000000#32 1 := by
  have habsent : ¬ Present (pdeOf (askedSystem.kernel.mach.load D).mem
      (askedSystem.kernel.mach.load D).cr3 (pageAt 0x10000000#32 0)) := absent_asked hD (by decide)
  have htable : tableOf (askedSystem.kernel.mach.load D) 0x10000000#32 0 = 0x100000#32 := by
    have hfirst : (pmAlloc askedSystem.kernel.mach.pm).1 = 0x100000#32 := by decide +kernel
    rw [tableOf, rangeTables_new habsent fun h => absurd h.1 (by decide)]
    exact hfirst
  constructor
  · intro k hk _
    obtain rfl : k = 0 := by omega
    rw [htable]
    refine ⟨by decide, fun E hE => ?_⟩
    exact (supply_exchange (b := false)).unused _ (by decide +kernel) E (directories_asked hE)
  · intro j hj k hk _ _ _
    rw [show j = k by omega]

/-- The server asks for the page of the video memory. -/
theorem mapMemory_maps_iff_video : (mapRequest 0xb8000#32).Maps (procAt 0) askedSystem := by
  have hserver : (0x2000#32 : BitVec 32) ∈ exchangeDirs := by decide
  have hlen : (mapRequest 0xb8000#32).msg.length.toNat = 0x1000 := by decide
  have hone : (mapRequest 0xb8000#32).pages = 1 := by decide
  have hfree : ∀ k < (mapRequest 0xb8000#32).msg.length.toNat,
      walk askedSystem.kernel.mach.mem ((mapRequest 0xb8000#32).pdir askedSystem)
        (0x10000000#32 + BitVec.ofNat 32 k) = none := by
    intro k hk
    rw [hlen] at hk
    exact walk_eq_none_iff.mpr (Or.inl (absent_asked hserver hk))
  refine (mapMemory_maps_iff (r := mapRequest 0xb8000#32) (s := askedSystem) serving_asked
    (by decide) (by decide) (by rw [hlen]; decide) spaces_asked hasKernel_asked hfree
    (newTables_asked hserver)).mpr ⟨by decide, by decide, fun k hk hsh => ?_, fun k hk hc => ?_⟩
  · rw [hone] at hk
    obtain rfl : k = 0 := by omega
    exact absent_asked hserver (k := 0) (by decide) hsh.1
  · rw [hone] at hk
    obtain rfl : k = 0 := by omega
    exact absurd hc.1 (by decide)

/-- Four bytes further into the page the reply is the address of the page. -/
theorem mapMemory_drops_offset : ¬ ∀ (K : Set (BitVec 32)) (d : Slot) (s : System Unit)
    (r : Request Unit), Serving d s → s.kernel.board.inited r.sender = true →
      r.msg.type = msgMapMemory → 1 ≤ r.msg.length.toNat →
      Spaces K (directories s.kernel) s.kernel.mach.mem →
      HasKernel s.kernel.mach.mem (r.pdir s) →
      (∀ k < r.msg.length.toNat,
        walk s.kernel.mach.mem (r.pdir s) (0x10000000#32 + BitVec.ofNat 32 k) = none) →
      NewTables (directories s.kernel) (s.kernel.mach.load (r.pdir s)) 0x10000000#32 r.pages →
      r.Maps d s := by
  intro h
  have hserver : (0x2000#32 : BitVec 32) ∈ exchangeDirs := by decide
  have hlen : (mapRequest 0xb8004#32).msg.length.toNat = 0x1000 := by decide
  obtain ⟨reply, s', hserve, hbytes, -⟩ := h _ (procAt 0) askedSystem (mapRequest 0xb8004#32)
    serving_asked (by decide) (by decide) (by rw [hlen]; decide) spaces_asked hasKernel_asked
    (fun k hk => walk_eq_none_iff.mpr (Or.inl (absent_asked hserver (hlen ▸ hk))))
    (newTables_asked hserver)
  have htest : ((mapRequest 0xb8004#32).serve askedSystem).toOption.map (fun x =>
      decide (hwTranslate x.2.kernel.mach.mem 0x2000#32 (x.1.response + 0#32) = some 0xb8000#32))
      = some true := by
    decide +kernel
  rw [hserve] at htest
  have hpage := of_decide_eq_true (Option.some.inj htest)
  exact absurd (hpage.symm.trans (hbytes 0 (by rw [hlen]; decide)).1) (by decide)

end Leoman
