import Leoman.Directory

namespace Leoman

open ByteMem StateExcept

/-!
# When `map_pages` comes through

`map_page` halts when it finds its page mapped otherwise.  That a whole range comes through can be
told before the first page: which table each page will have, and which entry of it `map_page` will
look at, is settled by the directory and by the frames that `pm_alloc` returns next.

* `Tidy`, `Loaded` — directories map themselves, and are nobody's page tables;
* `rangeTables` — the page table of each page of a range: the one in place, or the next frame of
  `pm_alloc`;
* `RangeFits` — the condition on the range;
* `Entered` — what the loop has done to the directory and the tables after some pages;
* `mapPagesLoop_serves` — the loop completes on a range that fits, and
  `mapPagesLoop_completes_iff` — only on such.
-/

/-! ### Directories -/

/-- The directories `dirs` map themselves, and no other entry of one points to one. -/
structure Tidy (dirs : Set (BitVec 32)) (mem : Mem) : Prop where
  recursive : ∀ D ∈ dirs, Recursive mem D
  tables : ∀ D ∈ dirs, ∀ w, vmPdirIdx w ≠ 1023#32 → Present (pdeOf mem D w) →
    ∀ E ∈ dirs, palignDown (pdeOf mem D w) ≠ palignDown E

section Tidy

variable {dirs : Set (BitVec 32)} {mem : Mem} {D v e x : BitVec 32}

/-- The two stores of `map_page` in the address space `D`, into a table that is no directory. -/
theorem Tidy.newTable (ht : Tidy dirs mem) (hv : vmPdirIdx v ≠ 1023#32)
    (he : ∀ E ∈ dirs, palignDown e ≠ palignDown E) : Tidy dirs (newTable mem D v e x) := by
  have hentry : ∀ E ∈ dirs, ∀ j : BitVec 32, j.toNat < 1024 →
      tableEntry (Leoman.newTable mem D v e x) (palignDown E) j
        = if palignDown E = palignDown D ∧ j = vmPdirIdx v then e
          else tableEntry mem (palignDown E) j := by
    intro E hE j hj
    rw [tableEntry_newTable (palignDown_aligned _) hj, if_neg fun h => he E hE h.1.symm]
  constructor
  · intro E hE
    have hlast := hentry E hE 1023#32 (by decide)
    rw [if_neg fun h => hv h.2.symm] at hlast
    unfold Recursive
    rw [hlast]
    exact ht.recursive E hE
  · intro E hE w hw hp G hG
    have hpde := hentry E hE (vmPdirIdx w) (vmPdirIdx_lt w)
    simp only [pdeOf] at hp ⊢
    rw [hpde] at hp ⊢
    split at hp
    · rename_i h
      rw [if_pos h]
      exact he G hG
    · rename_i h
      rw [if_neg h]
      exact ht.tables E hE w hw hp G hG

end Tidy

section Page

variable {τ : Type} [Tlb τ] {dirs : Set (BitVec 32)}

/-- What the TLB retains of the windows is right, and the loaded directory is one of `dirs`. -/
structure Loaded (dirs : Set (BitVec 32)) (m : Machine τ) : Prop where
  windows : Coherent m.windowed.tlb m.mem m.cr3
  cr3 : m.cr3 ∈ dirs
  tidy : Tidy dirs m.mem

/-- The page at `v` is below the windows; it is not mapped, or mapped to `p` with these flags;
    and a frame `pm_alloc` would hand out for its table is no directory. -/
def PageFits (dirs : Set (BitVec 32)) (flags p v : BitVec 32) (m : Machine τ) : Prop :=
  v.toNat < 0xffc00000 ∧
    (Present (pdeOf m.mem m.cr3 v) → Present (pteOf m.mem m.cr3 v) →
      SameMapping (pteOf m.mem m.cr3 v) p flags) ∧
    (¬ Present (pdeOf m.mem m.cr3 v) → ∀ E ∈ dirs, palignDown (pmAlloc m.pm).1 ≠ palignDown E)

variable {m : Machine τ} {p v flags : BitVec 32}

/-- **One page** that fits completes. -/
theorem mapPage_serves (hl : Loaded dirs m) (hf : flags.toNat < 4096)
    (hfit : PageFits dirs flags p v m) :
    ∃ m', mapPage p v flags m = .ok ((), m') ∧ MapStep m.windowed p v flags m'.windowed ∧
      Loaded dirs m' ∧ m'.cr3 = m.cr3 := by
  obtain ⟨hv, hsame, hfresh⟩ := hfit
  have h1023 := (lt_kernPtabs_iff v).mp hv
  have hr := hl.tidy.recursive _ hl.cr3
  obtain ⟨w, hw, hstep⟩ := (mapPage_completes_iff hl.windows hr hf).mpr hsame
  obtain ⟨m', hm', rfl⟩ := (mapPage_erases p v flags).exists_ok hw
  -- what is stored into the directory is not the frame of one
  have hstored : ∀ e x : BitVec 32, (∀ E ∈ dirs, palignDown e ≠ palignDown E) →
      m'.mem = newTable m.mem m.cr3 v e x → m'.cr3 = m.cr3 →
      Coherent m'.windowed.tlb (setPde m.mem m.cr3 v e) m.cr3 →
      Loaded dirs m' ∧ m'.cr3 = m.cr3 := by
    intro e x he hmem hcr3 hc
    have hc' : Coherent m'.windowed.tlb m'.mem m'.cr3 := by
      rw [hmem, hcr3]
      exact coherent_newTable hr h1023 (he _ hl.cr3) hc
    have ht : Tidy dirs m'.mem := by
      rw [hmem]
      exact hl.tidy.newTable h1023 he
    exact ⟨⟨hc', by rw [hcr3]; exact hl.cr3, ht⟩, hcr3⟩
  refine ⟨m', hm', hstep, ?_⟩
  generalize hwm : m'.windowed = w at hstep
  have hmem : m'.mem = w.mem := by rw [← hwm]; rfl
  have hcr3 : m'.cr3 = w.cr3 := by rw [← hwm]; rfl
  cases hstep with
  | already hp _ hc =>
    refine ⟨⟨?_, ?_, ?_⟩, hcr3⟩
    · rw [hwm, hmem, hcr3]
      exact hc
    · rw [hcr3]
      exact hl.cr3
    · rw [hmem]
      exact hl.tidy
  | page hp hc =>
    refine hstored _ _ (fun E hE => ?_) hmem hcr3 (by rw [hwm]; exact hc)
    rw [mapFlags, palignDown_or (flags_lt hf)]
    exact hl.tidy.tables _ hl.cr3 v h1023 hp E hE
  | table ha hc =>
    refine hstored _ _ (fun E hE => ?_) hmem hcr3 (by rw [hwm]; exact hc)
    rw [mapFlags, palignDown_or (flags_lt hf)]
    exact hfresh ha E hE

end Page

/-! ### The page tables of a range -/

/-- Page `k` from `v` on lies in the region of the page before it. -/
def Continues (v : BitVec 32) (k : Nat) : Prop :=
  0 < k ∧ vmPdirIdx (pageAt v k) = vmPdirIdx (pageAt v (k - 1))

instance (v : BitVec 32) (k : Nat) : Decidable (Continues v k) :=
  inferInstanceAs (Decidable (_ ∧ _))

section Tables

variable {τ : Type} {m : Machine τ} {v : BitVec 32} {j k n : Nat}

/-- The page table of the last of `k` pages from `v` on, and what `pm_alloc` has left then: a
    region without a table gets the next frame. -/
def rangeTables (m : Machine τ) (v : BitVec 32) : Nat → BitVec 32 × Pm
  | 0 => (0#32, m.pm)
  | k + 1 =>
    if Present (pdeOf m.mem m.cr3 (pageAt v k)) then
      (palignDown (pdeOf m.mem m.cr3 (pageAt v k)), (rangeTables m v k).2)
    else if Continues v k then rangeTables m v k
    else pmAlloc (rangeTables m v k).2

/-- The page table of page `k`. -/
def tableOf (m : Machine τ) (v : BitVec 32) (k : Nat) : BitVec 32 := (rangeTables m v (k + 1)).1

/-- A table in place. -/
theorem rangeTables_present (hp : Present (pdeOf m.mem m.cr3 (pageAt v k))) :
    rangeTables m v (k + 1)
      = (palignDown (pdeOf m.mem m.cr3 (pageAt v k)), (rangeTables m v k).2) := if_pos hp

/-- The table of the page before. -/
theorem rangeTables_continues (ha : ¬ Present (pdeOf m.mem m.cr3 (pageAt v k)))
    (hc : Continues v k) : rangeTables m v (k + 1) = rangeTables m v k :=
  (if_neg ha).trans (if_pos hc)

/-- A new table. -/
theorem rangeTables_new (ha : ¬ Present (pdeOf m.mem m.cr3 (pageAt v k)))
    (hc : ¬ Continues v k) : rangeTables m v (k + 1) = pmAlloc (rangeTables m v k).2 :=
  (if_neg ha).trans (if_neg hc)

/-- Between two pages of a region the region continues. -/
theorem continues_of_region (hend : v.toNat + 4096 * n ≤ 0xffc00000) (hj : j < k) (hk : k < n)
    (hreg : vmPdirIdx (pageAt v j) = vmPdirIdx (pageAt v k)) :
    Continues v k ∧ vmPdirIdx (pageAt v j) = vmPdirIdx (pageAt v (k - 1)) := by
  have h := congrArg BitVec.toNat hreg
  rw [vmPdirIdx_toNat, vmPdirIdx_toNat, pageAt_toNat hend (by omega), pageAt_toNat hend hk] at h
  have hprev : vmPdirIdx (pageAt v j) = vmPdirIdx (pageAt v (k - 1)) := by
    apply BitVec.eq_of_toNat_eq
    rw [vmPdirIdx_toNat, vmPdirIdx_toNat, pageAt_toNat hend (by omega),
      pageAt_toNat hend (i := k - 1) (by omega)]
    omega
  exact ⟨⟨by omega, hreg.symm.trans hprev⟩, hprev⟩

/-- The pages of a region have one table. -/
theorem tableOf_region (hend : v.toNat + 4096 * n ≤ 0xffc00000) (hj : j ≤ k) (hk : k < n)
    (hreg : vmPdirIdx (pageAt v j) = vmPdirIdx (pageAt v k)) : tableOf m v j = tableOf m v k := by
  induction k with
  | zero => rw [Nat.le_zero.mp hj]
  | succ k ih =>
    by_cases hlt : j = k + 1
    · rw [hlt]
    · obtain ⟨hc, hprev⟩ := continues_of_region hend (by omega) hk hreg
      have hbefore : tableOf m v j = tableOf m v k := ih (by omega) (by omega) hprev
      by_cases hp : Present (pdeOf m.mem m.cr3 (pageAt v (k + 1)))
      · have hp' := hp
        rw [← pdeOf_congr hreg] at hp'
        rw [tableOf, tableOf, rangeTables_present hp, rangeTables_present hp', pdeOf_congr hreg]
      · rw [hbefore, tableOf, tableOf, rangeTables_continues hp hc]

/-- The page after page `i`. -/
theorem pageAt_add_pageSize (v : BitVec 32) (i : Nat) :
    pageAt v i + pageSize = pageAt v (i + 1) := by
  apply BitVec.eq_of_toNat_eq
  simp only [pageAt, pageSize, BitVec.toNat_add, BitVec.toNat_ofNat]
  omega

/-- Pages of a range are different. -/
theorem pageAt_injective {p : BitVec 32} (hn : 4096 * n ≤ 0xffc00000) (hj : j < n) (hk : k < n)
    (h : pageAt p j = pageAt p k) : j = k := by
  have h := congrArg BitVec.toNat h
  simp only [pageAt, BitVec.toNat_add, BitVec.toNat_ofNat] at h
  omega

end Tables

/-! ### The condition -/

section Range

variable {τ : Type} {dirs : Set (BitVec 32)} {m : Machine τ} {flags p v : BitVec 32} {j k n : Nat}

/-- The table of page `k`, and the place of its entry there. -/
def slotOf (m : Machine τ) (v : BitVec 32) (k : Nat) : BitVec 32 × BitVec 32 :=
  (palignDown (tableOf m v k), vmPtabIdx (pageAt v k))

/-- What is in the place of its entry. -/
def entryAt (m : Machine τ) (v : BitVec 32) (k : Nat) : BitVec 32 :=
  tableEntry m.mem (slotOf m v k).1 (slotOf m v k).2

/-- The region of page `k` has a table when `map_page` comes to it. -/
def Entering (m : Machine τ) (v : BitVec 32) (k : Nat) : Prop :=
  Present (pdeOf m.mem m.cr3 (pageAt v k)) ∨ Continues v k

/-- The entry `map_page` looks at for page `k` is that of no page before, and it is empty or holds
    the mapping that is asked for.  In a new table it looks at no entry. -/
def EntryFits (m : Machine τ) (flags p v : BitVec 32) (k : Nat) : Prop :=
  Entering m v k → (∀ j < k, slotOf m v j ≠ slotOf m v k) ∧
    (Present (entryAt m v k) → SameMapping (entryAt m v k) (pageAt p k) flags)

instance (m : Machine τ) (flags p v : BitVec 32) (k : Nat) : Decidable (EntryFits m flags p v k) :=
  have : Decidable (Entering m v k) := inferInstanceAs (Decidable (_ ∨ _))
  inferInstanceAs (Decidable (_ → _ ∧ (_ → _)))

/-- The frames `pm_alloc` has for the tables of the range are no directories. -/
def TablesApart (dirs : Set (BitVec 32)) (m : Machine τ) (v : BitVec 32) (n : Nat) : Prop :=
  ∀ k < n, ¬ Present (pdeOf m.mem m.cr3 (pageAt v k)) →
    ∀ E ∈ dirs, palignDown (tableOf m v k) ≠ palignDown E

/-- The range is below the windows, and its pages can be mapped. -/
structure RangeFits (dirs : Set (BitVec 32)) (flags : BitVec 32) (n : Nat) (p v : BitVec 32)
    (m : Machine τ) : Prop where
  below : v.toNat + 4096 * n ≤ 0xffc00000
  apart : TablesApart dirs m v n
  entries : ∀ k < n, EntryFits m flags p v k

/-- No table of the range is a directory. -/
theorem TablesApart.table_ne (ha : TablesApart dirs m v n) (ht : Tidy dirs m.mem)
    (hd : m.cr3 ∈ dirs) (hend : v.toNat + 4096 * n ≤ 0xffc00000) (hk : k < n) {E : BitVec 32}
    (hE : E ∈ dirs) : palignDown (tableOf m v k) ≠ palignDown E := by
  by_cases hp : Present (pdeOf m.mem m.cr3 (pageAt v k))
  · rw [tableOf, rangeTables_present hp, palignDown_palignDown]
    exact ht.tables _ hd _ (pageAt_region hend hk) hp E hE
  · exact ha k hk hp E hE

/-! ### What the loop has done -/

/-- From `m` to `m₁` the first `n` pages from `v` on were mapped to the frames from `p` on.  Each
    region has its table; a place that belongs to pages of the range has the frame of one of them,
    and no other entry of directory or table was written. -/
structure Entered (m : Machine τ) (p v : BitVec 32) (n : Nat) (m₁ : Machine τ) : Prop where
  cr3 : m₁.cr3 = m.cr3
  pm : m₁.pm = (rangeTables m v n).2
  pdes : ∀ k < n, Present (pdeOf m₁.mem m.cr3 (pageAt v k)) ∧
    palignDown (pdeOf m₁.mem m.cr3 (pageAt v k)) = palignDown (tableOf m v k)
  dir : ∀ w, (∀ k < n, vmPdirIdx w ≠ vmPdirIdx (pageAt v k)) →
    pdeOf m₁.mem m.cr3 w = pdeOf m.mem m.cr3 w
  written : ∀ j < n, ∃ k < n, slotOf m v k = slotOf m v j ∧
    Present (tableEntry m₁.mem (slotOf m v j).1 (slotOf m v j).2) ∧
    palignDown (tableEntry m₁.mem (slotOf m v j).1 (slotOf m v j).2) = pageAt p k
  others : ∀ c i : BitVec 32, c.toNat % 4096 = 0 → i.toNat < 1024 → c ≠ palignDown m.cr3 →
    (∀ k < n, slotOf m v k ≠ (c, i)) → tableEntry m₁.mem c i = tableEntry m.mem c i

/-- At first nothing was. -/
theorem Entered.start : Entered m p v 0 m :=
  ⟨rfl, rfl, nofun, fun _ _ => rfl, nofun, fun _ _ _ _ _ _ => rfl⟩

variable {m₁ m₂ : Machine τ}

/-- The table of the next page: there is one exactly when its region was entered. -/
theorem Entered.next_table (h : Entered m p v n m₁)
    (hend : v.toNat + 4096 * (n + 1) ≤ 0xffc00000) :
    (Present (pdeOf m₁.mem m.cr3 (pageAt v n)) ↔ Entering m v n) ∧
    (Entering m v n →
      palignDown (pdeOf m₁.mem m.cr3 (pageAt v n)) = palignDown (tableOf m v n) ∧
        (rangeTables m v (n + 1)).2 = m₁.pm) ∧
    (¬ Entering m v n → rangeTables m v (n + 1) = pmAlloc m₁.pm) := by
  by_cases hc : Continues v n
  · -- the page before has entered the region
    obtain ⟨hp, hf⟩ := h.pdes (n - 1) (by have := hc.1; omega)
    rw [← pdeOf_congr hc.2] at hp hf
    have hsame : tableOf m v (n - 1) = tableOf m v n :=
      tableOf_region hend (by omega) (by omega) hc.2.symm
    refine ⟨iff_of_true hp (Or.inr hc), fun _ => ⟨hf.trans (by rw [hsame]), ?_⟩,
      fun hno => absurd (Or.inr hc) hno⟩
    rw [h.pm]
    by_cases ho : Present (pdeOf m.mem m.cr3 (pageAt v n))
    · rw [rangeTables_present ho]
    · rw [rangeTables_continues ho hc]
  · have hsame : pdeOf m₁.mem m.cr3 (pageAt v n) = pdeOf m.mem m.cr3 (pageAt v n) := by
      refine h.dir _ fun k hk heq => hc ?_
      exact (continues_of_region hend hk (by omega) heq.symm).1
    rw [hsame]
    refine ⟨(or_iff_left hc).symm, fun he => ?_, fun hno => ?_⟩
    · have ho := he.resolve_right hc
      rw [tableOf, rangeTables_present ho, palignDown_palignDown]
      exact ⟨rfl, h.pm.symm⟩
    · rw [rangeTables_new (fun ho => hno (Or.inl ho)) hc, h.pm]

/-- **The two stores** for page `n`. -/
theorem Entered.store (h : Entered m p v n m₁) (hend : v.toNat + 4096 * (n + 1) ≤ 0xffc00000)
    (hne : ∀ k < n + 1, palignDown (tableOf m v k) ≠ palignDown m.cr3) {e x : BitVec 32}
    (he : Present e ∧ palignDown e = palignDown (tableOf m v n))
    (hx : Present x ∧ palignDown x = pageAt p n)
    (hmem : m₂.mem = newTable m₁.mem m.cr3 (pageAt v n) e x) (hcr3 : m₂.cr3 = m.cr3)
    (hpm : m₂.pm = (rangeTables m v (n + 1)).2) : Entered m p v (n + 1) m₂ := by
  have hentry : ∀ c i : BitVec 32, c.toNat % 4096 = 0 → i.toNat < 1024 → c ≠ palignDown m.cr3 →
      tableEntry m₂.mem c i = if slotOf m v n = (c, i) then x else tableEntry m₁.mem c i := by
    intro c i hca hi hcd
    have hslot : (c = palignDown (tableOf m v n) ∧ i = vmPtabIdx (pageAt v n))
        ↔ slotOf m v n = (c, i) := by
      unfold slotOf
      rw [Prod.mk.injEq, eq_comm (a := c), eq_comm (a := i)]
    rw [hmem, tableEntry_newTable hca hi, he.2]
    simp only [hslot, if_neg fun hsame : c = palignDown m.cr3 ∧ _ => hcd hsame.1]
  have hpde : ∀ w, pdeOf m₂.mem m.cr3 w
      = if vmPdirIdx w = vmPdirIdx (pageAt v n) then e else pdeOf m₁.mem m.cr3 w := by
    intro w
    rw [hmem, pdeOf_newTable (by rw [he.2]; exact hne n (by omega))]
  refine ⟨hcr3, hpm, fun k hk => ?_, fun w hw => ?_, fun j hj => ?_, fun c i hca hi hcd hno => ?_⟩
  · rw [hpde]
    split
    · rename_i hreg
      rw [tableOf_region hend (by omega) (by omega) hreg]
      exact he
    · rename_i hreg
      have hlt : k ≠ n := fun heq => hreg (by rw [heq])
      exact h.pdes k (by omega)
  · rw [hpde, if_neg (hw n (by omega))]
    exact h.dir w fun k hk => hw k (by omega)
  · have hplace : tableEntry m₂.mem (slotOf m v j).1 (slotOf m v j).2
        = if slotOf m v n = slotOf m v j then x
          else tableEntry m₁.mem (slotOf m v j).1 (slotOf m v j).2 :=
      hentry _ _ (palignDown_aligned _) (vmPtabIdx_lt _) (hne j hj)
    rw [hplace]
    by_cases hsame : slotOf m v n = slotOf m v j
    · rw [if_pos hsame]
      exact ⟨n, by omega, hsame, hx⟩
    · rw [if_neg hsame]
      have hlt : j ≠ n := fun heq => hsame (by rw [heq])
      obtain ⟨k, hk, hslot, hw⟩ := h.written j (by omega)
      exact ⟨k, by omega, hslot, hw⟩
  · rw [hentry c i hca hi hcd, if_neg (hno n (by omega))]
    exact h.others c i hca hi hcd fun k hk => hno k (by omega)

/-- The page is mapped as asked for already. -/
theorem Entered.already (h : Entered m p v n m₁)
    (he : Present (pdeOf m₁.mem m.cr3 (pageAt v n)) ∧
      palignDown (pdeOf m₁.mem m.cr3 (pageAt v n)) = palignDown (tableOf m v n))
    (hx : Present (tableEntry m₁.mem (slotOf m v n).1 (slotOf m v n).2) ∧
      palignDown (tableEntry m₁.mem (slotOf m v n).1 (slotOf m v n).2) = pageAt p n)
    (hmem : m₂.mem = m₁.mem) (hcr3 : m₂.cr3 = m.cr3)
    (hpm : m₂.pm = (rangeTables m v (n + 1)).2) : Entered m p v (n + 1) m₂ := by
  refine ⟨hcr3, hpm, fun k hk => ?_, fun w hw => ?_, fun j hj => ?_, fun c i hca hi hcd hno => ?_⟩
  · rw [hmem]
    rcases Nat.lt_succ_iff_lt_or_eq.mp hk with hlt | rfl
    · exact h.pdes k hlt
    · exact he
  · rw [hmem]
    exact h.dir w fun k hk => hw k (by omega)
  · rw [hmem]
    rcases Nat.lt_succ_iff_lt_or_eq.mp hj with hlt | rfl
    · obtain ⟨k, hk, hslot, hw⟩ := h.written j hlt
      exact ⟨k, by omega, hslot, hw⟩
    · exact ⟨j, by omega, rfl, hx⟩
  · rw [hmem]
    exact h.others c i hca hi hcd fun k hk => hno k (by omega)

/-- The entry `map_page` looks at for the next page. -/
theorem Entered.next_entry (h : Entered m p v n m₁)
    (hend : v.toNat + 4096 * (n + 1) ≤ 0xffc00000) (hin : Entering m v n) :
    pteOf m₁.mem m.cr3 (pageAt v n) = tableEntry m₁.mem (slotOf m v n).1 (slotOf m v n).2 := by
  have htab := (h.next_table hend).2.1 hin
  rw [pteOf, htab.1]
  rfl

/-- **What `map_page` finds** for the next page is what it had to find at the start. -/
theorem Entered.entryFits_iff (h : Entered m p v n m₁) (hp : p.toNat % 4096 = 0)
    (hend : v.toNat + 4096 * (n + 1) ≤ 0xffc00000)
    (hne : ∀ k < n + 1, palignDown (tableOf m v k) ≠ palignDown m.cr3) :
    (Present (pdeOf m₁.mem m₁.cr3 (pageAt v n)) → Present (pteOf m₁.mem m₁.cr3 (pageAt v n)) →
      SameMapping (pteOf m₁.mem m₁.cr3 (pageAt v n)) (pageAt p n) flags) ↔
      EntryFits m flags p v n := by
  obtain ⟨hiff, -, -⟩ := h.next_table hend
  rw [h.cr3, hiff]
  refine forall_congr' fun hin => ?_
  rw [h.next_entry hend hin]
  by_cases hhit : ∃ j < n, slotOf m v j = slotOf m v n
  · -- a page before has the place, with another frame
    obtain ⟨j, hj, hslot⟩ := hhit
    obtain ⟨k, hk, -, hpres, hframe⟩ := h.written j hj
    rw [hslot] at hpres hframe
    refine iff_of_false (fun hsame => ?_) fun hfits => hfits.1 j hj hslot
    have hown : palignDown (tableEntry m₁.mem (slotOf m v n).1 (slotOf m v n).2)
        = palignDown (palignDown (pageAt p n)) := (hsame hpres).1
    rw [hframe, palignDown_palignDown, palignDown_of_aligned (pageAt_aligned hp)] at hown
    have hbound : 4096 * (n + 1) ≤ 0xffc00000 := (Nat.le_add_left _ _).trans hend
    have heq : k = n :=
      pageAt_injective hbound (hk.trans (Nat.lt_succ_self n)) (Nat.lt_succ_self n) hown
    exact absurd heq hk.ne
  · have hsame : tableEntry m₁.mem (slotOf m v n).1 (slotOf m v n).2 = entryAt m v n :=
      h.others _ _ (palignDown_aligned _) (vmPtabIdx_lt _) (hne n (by omega))
        fun k hk hslot => hhit ⟨k, hk, hslot⟩
    rw [hsame]
    exact (and_iff_right fun j hj hslot => hhit ⟨j, hj, hslot⟩).symm

end Range

/-! ### The loop -/

section Loop

variable {τ : Type} [Tlb τ] {dirs : Set (BitVec 32)} {m m' m₁ m₂ : Machine τ}
  {flags p v : BitVec 32} {n : Nat}

/-- **Step lemma.** -/
theorem Entered.next (h : Entered m p v n m₁) (hl : Loaded dirs m) (hl₁ : Loaded dirs m₁)
    (hf : flags.toNat < 4096) (hp : p.toNat % 4096 = 0)
    (hend : v.toNat + 4096 * (n + 1) ≤ 0xffc00000) (ha : TablesApart dirs m v (n + 1))
    (hfits : EntryFits m flags p v n) :
    ∃ m₂, mapPage (pageAt p n) (pageAt v n) flags m₁ = .ok ((), m₂) ∧ Loaded dirs m₂ ∧
      Entered m p v (n + 1) m₂ := by
  have hne : ∀ k < n + 1, palignDown (tableOf m v k) ≠ palignDown m.cr3 := fun k hk =>
    ha.table_ne hl.tidy hl.cr3 hend hk hl.cr3
  -- whether the region of page `n` has a table now, and which
  obtain ⟨hiff, hin, hout⟩ := h.next_table hend
  have hsame := (h.entryFits_iff hp hend hne).mpr hfits
  have hnew : ¬ Present (pdeOf m₁.mem m₁.cr3 (pageAt v n)) →
      rangeTables m v (n + 1) = pmAlloc m₁.pm := by
    rw [h.cr3, hiff]
    exact hout
  -- so the page can be mapped
  have hpage : PageFits dirs flags (pageAt p n) (pageAt v n) m₁ := by
    refine ⟨?_, hsame, fun hno E hE => ?_⟩
    · rw [pageAt_toNat hend (by omega)]
      omega
    · have htable : tableOf m v n = (pmAlloc m₁.pm).1 := congrArg Prod.fst (hnew hno)
      rw [← htable]
      exact ha.table_ne hl.tidy hl.cr3 hend (by omega) hE
  obtain ⟨m₂, hrun, hstep, hl₂, hcr3⟩ := mapPage_serves hl₁ hf hpage
  refine ⟨m₂, hrun, hl₂, ?_⟩
  have hcr3' : m₂.cr3 = m.cr3 := hcr3.trans h.cr3
  have hstored : Present (palignDown (pageAt p n) ||| mapFlags flags) ∧
      palignDown (palignDown (pageAt p n) ||| mapFlags flags) = pageAt p n := by
    refine ⟨present_or_right (present_flags flags), ?_⟩
    rw [mapFlags, palignDown_or (flags_lt hf), palignDown_palignDown,
      palignDown_of_aligned (pageAt_aligned hp)]
  generalize hw : m₂.windowed = w at hstep
  have hmem : m₂.mem = w.mem := by rw [← hw]; rfl
  have hpm : m₂.pm = w.pm := by rw [← hw]; rfl
  cases hstep with
  | already hpres hpte hc =>
    rw [h.cr3] at hsame
    have hpres' : Present (pdeOf m₁.mem m.cr3 (pageAt v n)) := h.cr3 ▸ hpres
    have hpte' : Present (pteOf m₁.mem m.cr3 (pageAt v n)) := h.cr3 ▸ hpte
    obtain ⟨htab, hrest⟩ := hin (hiff.mp hpres')
    -- the page was mapped as asked for, so nothing was stored
    have hframe : palignDown (pteOf m₁.mem m.cr3 (pageAt v n)) = pageAt p n := by
      have hsame' : palignDown (pteOf m₁.mem m.cr3 (pageAt v n))
          = palignDown (palignDown (pageAt p n)) := (hsame hpres' hpte').1
      rw [hsame', palignDown_palignDown, palignDown_of_aligned (pageAt_aligned hp)]
    have hentry := h.next_entry hend (hiff.mp hpres')
    rw [hentry] at hpte' hframe
    exact h.already ⟨hpres', htab⟩ ⟨hpte', hframe⟩ hmem hcr3' (hpm.trans hrest.symm)
  | page hpres hc =>
    obtain ⟨htab, hrest⟩ := hin (hiff.mp (h.cr3 ▸ hpres))
    -- the directory entry only gets flags, …
    have hpde : Present (pdeOf m₁.mem m.cr3 (pageAt v n) ||| mapFlags flags) ∧
        palignDown (pdeOf m₁.mem m.cr3 (pageAt v n) ||| mapFlags flags)
          = palignDown (tableOf m v n) := by
      refine ⟨present_or_right (present_flags flags), ?_⟩
      rw [mapFlags, palignDown_or (flags_lt hf)]
      exact htab
    refine h.store hend hne hpde hstored ?_ hcr3' (hpm.trans hrest.symm)
    rw [hmem, ← h.cr3]
    rfl
  | table hno hc =>
    -- … or is that of the frame for a new table
    have hpde : Present ((pmAlloc m₁.pm).1 ||| mapFlags flags) ∧
        palignDown ((pmAlloc m₁.pm).1 ||| mapFlags flags) = palignDown (tableOf m v n) := by
      refine ⟨present_or_right (present_flags flags), ?_⟩
      rw [mapFlags, palignDown_or (flags_lt hf), tableOf, hnew hno]
    refine h.store hend hne hpde hstored ?_ hcr3' ?_
    · rw [hmem, ← h.cr3]
      rfl
    · rw [hpm, hnew hno]
      rfl

/-- The loop from page `i` on, with `n` pages left. -/
theorem Entered.run {i : Nat} (h : Entered m p v i m₁) (hl : Loaded dirs m) (hl₁ : Loaded dirs m₁)
    (hf : flags.toNat < 4096) (hp : p.toNat % 4096 = 0)
    (hend : v.toNat + 4096 * (i + n) ≤ 0xffc00000) (ha : TablesApart dirs m v (i + n))
    (hfits : ∀ k < i + n, EntryFits m flags p v k) :
    ∃ m', mapPagesLoop flags n (pageAt p i) (pageAt v i) m₁ = .ok ((), m') ∧ Loaded dirs m' ∧
      Entered m p v (i + n) m' := by
  induction n generalizing i m₁ with
  | zero => exact ⟨m₁, rfl, hl₁, h⟩
  | succ n ih =>
    have hidx : i + (n + 1) = i + 1 + n := by omega
    rw [hidx] at hend ha hfits ⊢
    obtain ⟨m₂, hrun, hl₂, h₂⟩ := h.next hl hl₁ hf hp (by omega)
      (fun k hk => ha k (by omega)) (hfits i (by omega))
    obtain ⟨m', hrest, hl', h'⟩ := ih h₂ hl₂ hend ha hfits
    refine ⟨m', ?_, hl', h'⟩
    unfold mapPagesLoop
    rw [run_bind_of_ok hrun, pageAt_add_pageSize, pageAt_add_pageSize]
    exact hrest

/-- **Run lemma.**  The loop of `map_pages` completes on a range that fits. -/
theorem mapPagesLoop_serves (hl : Loaded dirs m) (hf : flags.toNat < 4096)
    (hp : p.toNat % 4096 = 0) (hfit : RangeFits dirs flags n p v m) :
    ∃ m', mapPagesLoop flags n p v m = .ok ((), m') ∧ Loaded dirs m' ∧ m'.cr3 = m.cr3 := by
  have hstart : Entered m p v 0 m := Entered.start
  obtain ⟨hend, ha, hfits⟩ := hfit
  rw [← Nat.zero_add n] at hend ha hfits
  obtain ⟨m', hrun, hl', h'⟩ := hstart.run hl hl hf hp hend ha hfits
  rw [pageAt_zero, pageAt_zero] at hrun
  exact ⟨m', hrun, hl', h'.cr3⟩

/-- A page that `map_page` came through did not hold another mapping. -/
theorem mapPage_fits (hl : Loaded dirs m) (hrun : mapPage p v flags m = .ok ((), m'))
    (hp : Present (pdeOf m.mem m.cr3 v)) (hp' : Present (pteOf m.mem m.cr3 v)) :
    SameMapping (pteOf m.mem m.cr3 v) p flags := by
  by_contra hne
  obtain ⟨t, -, -, hhalt⟩ := @mapPage_present _ _ m.windowed hl.windows
    (hl.tidy.recursive _ hl.cr3) p v flags hp hp'
  rw [(mapPage_erases p v flags).error (hhalt.trans (if_neg hne))] at hrun
  exact absurd hrun (by simp)

/-- The loop that came through had no page in its way. -/
theorem Entered.fits {i k : Nat} (h : Entered m p v i m₁) (hl : Loaded dirs m)
    (hl₁ : Loaded dirs m₁) (hf : flags.toNat < 4096) (hp : p.toNat % 4096 = 0)
    (hend : v.toNat + 4096 * (i + n) ≤ 0xffc00000) (ha : TablesApart dirs m v (i + n))
    (hrun : mapPagesLoop flags n (pageAt p i) (pageAt v i) m₁ = .ok ((), m')) (hik : i ≤ k)
    (hk : k < i + n) : EntryFits m flags p v k := by
  induction n generalizing i m₁ with
  | zero => omega
  | succ n ih =>
    have hidx : i + (n + 1) = i + 1 + n := by omega
    rw [hidx] at hend ha hk
    unfold mapPagesLoop at hrun
    obtain ⟨⟨⟩, m₂, hpage, hrest⟩ := bind_ok_iff.mp hrun
    have hne : ∀ k < i + 1, palignDown (tableOf m v k) ≠ palignDown m.cr3 := fun k hk =>
      ha.table_ne hl.tidy hl.cr3 hend (by omega) hl.cr3
    have hfits : EntryFits m flags p v i :=
      (h.entryFits_iff hp (by omega) hne).mp fun hpres hpte => mapPage_fits hl₁ hpage hpres hpte
    rcases hik.eq_or_lt with rfl | hlt
    · exact hfits
    · obtain ⟨m₂', hpage', hl₂, h₂⟩ := h.next hl hl₁ hf hp (by omega)
        (fun k hk => ha k (by omega)) hfits
      obtain rfl := (Prod.mk.inj (Except.ok.inj (hpage.symm.trans hpage'))).2
      rw [pageAt_add_pageSize, pageAt_add_pageSize] at hrest
      exact ih h₂ hl₂ hend ha hrest hlt hk

/-- **The loop of `map_pages` completes** exactly when the entries of the range fit. -/
theorem mapPagesLoop_completes_iff (hl : Loaded dirs m) (hf : flags.toNat < 4096)
    (hp : p.toNat % 4096 = 0) (hend : v.toNat + 4096 * n ≤ 0xffc00000)
    (ha : TablesApart dirs m v n) :
    (∃ m', mapPagesLoop flags n p v m = .ok ((), m')) ↔ ∀ k < n, EntryFits m flags p v k := by
  constructor
  · rintro ⟨m', hrun⟩ k hk
    have hstart : Entered m p v 0 m := Entered.start
    rw [← pageAt_zero (v := p), ← pageAt_zero (v := v)] at hrun
    rw [← Nat.zero_add n] at hend ha hk
    exact hstart.fits hl hl hf hp hend ha hrun (Nat.zero_le k) hk
  · intro hfits
    obtain ⟨m', hrun, -⟩ := mapPagesLoop_serves hl hf hp ⟨hend, ha, hfits⟩
    exact ⟨m', hrun⟩

end Loop

end Leoman
