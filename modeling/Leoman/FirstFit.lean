import Leoman.RealMemory

namespace Leoman

/-!
# First fit (`kernel/pm.c`)

`pm_alloc_cont` slides a mask over one word of the bitmap after the other; `pm_alloc` looks for a
single zero bit with a loop of its own.  Both are the same search: the lowest place where the
pages asked for are free, all in one word.

* `Pm.FreeRun`, `Pm.FirstFit` — the places, in the bitmap's own terms;
* `Pm.Takes.unique` — a call is determined by the pages it takes;
* `pmAllocCont_firstFit` — `pm_alloc_cont` is exact first fit, and for one page it is `pm_alloc`;
* `pmInit_available_iff` — `pm_init` passes over the type of the entries, so that the pool starts
  in available memory only when the longest entry of any type happens to.
-/

/-! ### Places -/

/-- `n` consecutive zero bits inside one word of the bitmap, from bit `shift` on. -/
def Pm.FreeRun (s : Pm) (n word shift : Nat) : Prop :=
  word < pmBitmapNmemb ∧ shift + n ≤ 32 ∧ ∀ j < n, (s.bitmap word).getLsbD (shift + j) = false

instance (s : Pm) (n word shift : Nat) : Decidable (s.FreeRun n word shift) :=
  inferInstanceAs (Decidable (_ ∧ _ ∧ _))

/-- The lowest such place: the first word that has one, and the lowest shift in it. -/
def Pm.FirstFit (s : Pm) (n word shift : Nat) : Prop :=
  s.FreeRun n word shift ∧
    ∀ word' shift', s.FreeRun n word' shift' → word < word' ∨ word = word' ∧ shift ≤ shift'

variable {s : Pm} {n : Nat}

/-- The places are the pages where the allocator's own test succeeds. -/
theorem freeRun_iff_fits {word shift : Nat} (hn : 1 ≤ n) :
    s.FreeRun n word shift ↔ shift < 32 ∧ 32 * word + shift < pmPages ∧
      s.Fits (32 * word + shift) n := by
  have hbit : ∀ j, shift + j < 32 →
      (¬ s.Used (32 * word + shift + j) ↔ (s.bitmap word).getLsbD (shift + j) = false) := by
    intro j hj
    have hdiv : (32 * word + shift + j) / 32 = word := by omega
    have hmod : (32 * word + shift + j) % 32 = shift + j := by omega
    rw [Pm.Used, hdiv, hmod, Bool.not_eq_true]
  unfold Pm.FreeRun Pm.Fits pmPages pmBitmapNmemb
  constructor
  · rintro ⟨hword, hfit, hfree⟩
    refine ⟨by omega, by omega, by omega, ?_⟩
    intro j hj
    exact (hbit j (by omega)).mpr (hfree j hj)
  · rintro ⟨hshift, hpage, hfit, hfree⟩
    refine ⟨by omega, by omega, ?_⟩
    intro j hj
    exact (hbit j (by omega)).mp (hfree j hj)

/-- A page where something fits, as a place. -/
theorem Pm.Fits.freeRun {k : Nat} (h : s.Fits k n) (hn : 1 ≤ n) (hk : k < pmPages) :
    s.FreeRun n (k / 32) (k % 32) := by
  have hpage : 32 * (k / 32) + k % 32 = k := by omega
  rw [freeRun_iff_fits hn, hpage]
  exact ⟨by omega, hk, h⟩

/-- The lowest page that fits is the lowest place. -/
theorem firstFit_of_lowest {k : Nat} (hn : 1 ≤ n) (hk : k < pmPages) (hfits : s.Fits k n)
    (hlow : ∀ i < k, ¬ s.Fits i n) : s.FirstFit n (k / 32) (k % 32) := by
  refine ⟨hfits.freeRun hn hk, ?_⟩
  intro word' shift' hrun
  obtain ⟨hshift, -, hfits'⟩ := (freeRun_iff_fits hn).mp hrun
  have hge : k ≤ 32 * word' + shift' := by
    by_contra hlt
    exact hlow _ (by omega) hfits'
  omega

/-! ### What a call takes determines it -/

/-- Bit by bit, a call sets the pages it takes and no other. -/
theorem Pm.Takes.getLsbD {s' : Pm} {k : Nat} (ht : s.Takes k n s') (i : Nat) {j : Nat}
    (hj : j < 32) : (s'.bitmap i).getLsbD j = true ↔
      (s.bitmap i).getLsbD j = true ∨ k ≤ 32 * i + j ∧ 32 * i + j < k + n := by
  have hused : ∀ t : Pm, t.Used (32 * i + j) ↔ (t.bitmap i).getLsbD j = true := by
    intro t
    have hdiv : (32 * i + j) / 32 = i := by omega
    have hmod : (32 * i + j) % 32 = j := by omega
    rw [Pm.Used, hdiv, hmod]
  rw [← hused, ← hused]
  exact ht.used (32 * i + j)

/-- **Uniqueness.**  Two calls that take the same pages leave the same manager. -/
theorem Pm.Takes.unique {s₁ s₂ : Pm} {k : Nat} (h₁ : s.Takes k n s₁) (h₂ : s.Takes k n s₂) :
    s₁ = s₂ := by
  have hbits : s₁.bitmap = s₂.bitmap := by
    funext i
    apply BitVec.eq_of_getLsbD_eq
    intro j hj
    rw [Bool.eq_iff_iff, h₁.getLsbD i hj, h₂.getLsbD i hj]
  cases s₁
  cases s₂
  rw [Pm.mk.injEq]
  exact ⟨hbits, h₁.pool.trans h₂.pool.symm⟩

/-- A call that takes a page changes the bitmap. -/
theorem Pm.Takes.bitmap_ne {s' : Pm} {k : Nat} (ht : s.Takes k n s') (hn : 1 ≤ n) :
    s'.bitmap ≠ s.bitmap := by
  intro heq
  have hused : s'.Used k := (ht.used k).mpr (Or.inr (by omega))
  rw [Pm.Used, heq] at hused
  exact ht.free k (Nat.le_refl k) (by omega) hused

/-- The address of a place. -/
theorem pageAddr_place (s : Pm) (word shift : Nat) : s.pageAddr (32 * word + shift) =
    v2p s.pool + 4096#32 * (32#32 * BitVec.ofNat 32 word + BitVec.ofNat 32 shift) := by
  apply BitVec.eq_of_toNat_eq
  rw [pageAddr_toNat]
  simp only [v2p, kernVoff, BitVec.toNat_add, BitVec.toNat_sub, BitVec.toNat_mul,
    BitVec.toNat_ofNat]
  omega

/-- For one page the two searches are one.  Both fail on a full bitmap. -/
theorem pmAllocCont_one (s : Pm) : pmAllocCont s 1 = pmAlloc s := by
  -- a single page fits where it is free
  have hfits : ∀ k, s.Fits k 1 ↔ ¬ s.Used k := by
    intro k
    constructor
    · intro h
      exact h.2 0 (by omega)
    · intro h
      refine ⟨by omega, fun j hj => ?_⟩
      obtain rfl : j = 0 := by omega
      exact h
  obtain ⟨he, hfull⟩ | ⟨k, s', ht, hlow, he⟩ := pmAlloc_spec s
  · obtain ⟨he', -⟩ | ⟨k', s'', ht', -, -, -⟩ := pmAllocCont_spec s (n := 1) (by omega) (by omega)
    · rw [he, he']
    · have hb := ht'.bound
      exact absurd (hfull k' (by omega)) (ht'.free k' (Nat.le_refl k') (by omega))
  · have hb := ht.bound
    have hfree : ¬ s.Used k := ht.free k (Nat.le_refl k) (by omega)
    obtain ⟨-, hnone⟩ | ⟨k', s'', ht', -, hlow', he'⟩ :=
      pmAllocCont_spec s (n := 1) (by omega) (by omega)
    · exact absurd ((hfits k).mpr hfree) (hnone k (by omega))
    · -- both took the lowest free page
      have hfree' : ¬ s.Used k' := ht'.free k' (Nat.le_refl k') (by omega)
      obtain rfl : k' = k := by
        obtain hlt | heq | hgt := Nat.lt_trichotomy k' k
        · exact absurd (hlow k' hlt) hfree'
        · exact heq
        · exact absurd ((hfits k).mpr hfree) (hlow' k hgt)
      rw [he, he', ht.unique ht']

/-! ### Exactness -/

/-- A successful call: it took the lowest place, set exactly its bits, and returned its address. -/
structure Pm.TookFirst (s : Pm) (n word shift : Nat) (r : BitVec 32 × Pm) : Prop where
  first : s.FirstFit n word shift
  bits : ∀ i j, j < 32 → ((r.2.bitmap i).getLsbD j = true ↔
    (s.bitmap i).getLsbD j = true ∨ i = word ∧ shift ≤ j ∧ j < shift + n)
  pool : r.2.pool = s.pool
  addr : r.1 = v2p s.pool + 4096#32 * (32#32 * BitVec.ofNat 32 word + BitVec.ofNat 32 shift)

/-- **Step lemma.**  Either there is no place, and the call returns `NULL` and changes nothing, or
    it takes the lowest one. -/
theorem pmAllocCont_places (s : Pm) {n : Nat} (hn : 1 ≤ n) (hn' : n ≤ 32) :
    ((¬ ∃ word shift, s.FreeRun n word shift) ∧ pmAllocCont s n = (0#32, s)) ∨
      (∃ word shift, s.TookFirst n word shift (pmAllocCont s n)) ∧
        (pmAllocCont s n).2.bitmap ≠ s.bitmap := by
  obtain ⟨he, hnone⟩ | ⟨k, s', ht, hfits, hlow, he⟩ := pmAllocCont_spec s hn hn'
  · refine Or.inl ⟨?_, he⟩
    rintro ⟨word, shift, hrun⟩
    obtain ⟨-, hpage, hfits⟩ := (freeRun_iff_fits hn).mp hrun
    exact hnone _ hpage hfits
  · have hb := ht.bound
    have hword := hfits.1
    have hpage : 32 * (k / 32) + k % 32 = k := by omega
    rw [he]
    refine Or.inr ⟨⟨k / 32, k % 32, firstFit_of_lowest hn (by omega) hfits hlow, ?_, ht.pool, ?_⟩,
      ht.bitmap_ne hn⟩
    · intro i j hj
      rw [ht.getLsbD i hj]
      refine or_congr Iff.rfl ?_
      omega
    · rw [← pageAddr_place, hpage]

/-- **Contiguous allocation is exact first fit.**  `pm_alloc_cont` finds a place exactly when some
    word of the bitmap has that many consecutive zero bits; it then takes the lowest one, and
    otherwise leaves the bitmap as it is.  For a single page it does what `pm_alloc` does. -/
theorem pmAllocCont_firstFit (s : Pm) {n : Nat} (hn : 1 ≤ n) (hn' : n ≤ 32) :
    ((pmAllocCont s n).2.bitmap ≠ s.bitmap ↔ ∃ word shift, s.FreeRun n word shift) ∧
      ((∃ word shift, s.FreeRun n word shift) →
        ∃ word shift, s.TookFirst n word shift (pmAllocCont s n)) ∧
      ((¬ ∃ word shift, s.FreeRun n word shift) → pmAllocCont s n = (0#32, s)) ∧
      pmAllocCont s 1 = pmAlloc s := by
  obtain ⟨hnone, he⟩ | ⟨⟨word, shift, htook⟩, hne⟩ := pmAllocCont_places s hn hn'
  · refine ⟨⟨?_, fun h => absurd h hnone⟩, fun h => absurd h hnone, fun _ => he, pmAllocCont_one s⟩
    rw [he]
    exact fun h => absurd rfl h
  · have hplace : ∃ word shift, s.FreeRun n word shift := ⟨word, shift, htook.first.1⟩
    exact ⟨⟨fun _ => hplace, fun _ => hne⟩, fun _ => ⟨word, shift, htook⟩,
      fun h => absurd hplace h, pmAllocCont_one s⟩

/-- A manager whose first word has gaps of two and three pages, the second a gap of four. -/
def gappedPm : Pm where
  bitmap := fun idx => if idx = 0 then 0xff1fffcf#32 else if idx = 1 then 0xffff0fff#32 else 0#32
  pool := 0xe0100000#32

/-- Four pages are taken from the second word. -/
theorem pmAllocCont_firstFit_gapped :
    (∃ word shift, gappedPm.TookFirst 4 word shift (pmAllocCont gappedPm 4)) ∧
      (pmAllocCont gappedPm 4).1 = 0x12c000#32 :=
  ⟨(pmAllocCont_firstFit gappedPm (n := 4) (by decide) (by decide)).2.1 ⟨1, 12, by decide⟩,
    by decide⟩

/-! ### The type of an entry -/

/-- What `pm_init` returns. -/
def pmInitReturn (memoryMap : Vector MemoryMapEntry 16) : BitVec 32 := v2p (pmInit memoryMap).pool

/-- `base_low` rounded up to a page. -/
def MemoryMapEntry.firstPage (e : MemoryMapEntry) : Nat := (e.baseLow.toNat + 4095) / 4096 * 4096

/-- The type of an entry is "available". -/
def MemoryMapEntry.Available (e : MemoryMapEntry) : Prop := e.type = 1#32

instance (e : MemoryMapEntry) : Decidable e.Available := inferInstanceAs (Decidable (_ = _))

variable (memoryMap : Vector MemoryMapEntry 16)

/-- `e` is available, and no available entry is longer. -/
def LongestAvailable (e : MemoryMapEntry) : Prop :=
  e ∈ memoryMap.toList ∧ e.Available ∧
    ∀ x ∈ memoryMap.toList, x.Available → x.lenLow ≤ e.lenLow

/-- `e` is the last of the longest entries, whatever their types. -/
def LastLongest (e : MemoryMapEntry) : Prop :=
  ∃ before after, memoryMap.toList = before ++ e :: after ∧
    (∀ x ∈ before, x.lenLow ≤ e.lenLow) ∧ ∀ x ∈ after, x.lenLow < e.lenLow

/-- What `pm_init` is for: it returns the first page of a longest available entry, with every page
    of the pool free. -/
def PicksAvailable : Prop :=
  (∃ a, LongestAvailable memoryMap a ∧ (pmInitReturn memoryMap).toNat = a.firstPage) ∧
    ∀ k, ¬ (pmInit memoryMap).Used k

variable {memoryMap}

/-- The search ends with the entry it started with, or with the last of the longest ones. -/
theorem foldl_chosenStep_last (l : List MemoryMapEntry) (acc : MemoryMapEntry) :
    (l.foldl chosenStep acc = acc ∧ ∀ x ∈ l, x.lenLow < acc.lenLow) ∨
      ∃ before after, l = before ++ l.foldl chosenStep acc :: after ∧
        acc.lenLow ≤ (l.foldl chosenStep acc).lenLow ∧
        (∀ x ∈ before, x.lenLow ≤ (l.foldl chosenStep acc).lenLow) ∧
        ∀ x ∈ after, x.lenLow < (l.foldl chosenStep acc).lenLow := by
  induction l generalizing acc with
  | nil => exact Or.inl ⟨rfl, by simp⟩
  | cons e l ih =>
    rw [List.foldl_cons]
    by_cases hle : acc.lenLow ≤ e.lenLow
    · have hchosen : chosenStep acc e = e := if_pos hle
      rw [hchosen]
      obtain ⟨hsame, hall⟩ | ⟨before, after, hl, hlen, hbefore, hafter⟩ := ih e
      · rw [hsame]
        exact Or.inr ⟨[], l, rfl, hle, by simp, hall⟩
      · refine Or.inr ⟨e :: before, after, congrArg (e :: ·) hl, BitVec.le_trans hle hlen, ?_,
          hafter⟩
        intro x hx
        obtain rfl | hx := List.mem_cons.mp hx
        · exact hlen
        · exact hbefore x hx
    · -- the entry is shorter than one before it
      have hchosen : chosenStep acc e = acc := if_neg hle
      have hlt : e.lenLow < acc.lenLow := BitVec.not_le.mp hle
      rw [hchosen]
      obtain ⟨hsame, hall⟩ | ⟨before, after, hl, hlen, hbefore, hafter⟩ := ih acc
      · refine Or.inl ⟨hsame, ?_⟩
        intro x hx
        obtain rfl | hx := List.mem_cons.mp hx
        · exact hlt
        · exact hall x hx
      · refine Or.inr ⟨e :: before, after, congrArg (e :: ·) hl, hlen, ?_, hafter⟩
        intro x hx
        obtain rfl | hx := List.mem_cons.mp hx
        · exact BitVec.le_trans (BitVec.le_of_lt hlt) hlen
        · exact hbefore x hx

/-- The entry `pm_init` settles on is the last of the longest. -/
theorem chosenEntry_lastLongest (memoryMap : Vector MemoryMapEntry 16) :
    LastLongest memoryMap (chosenEntry memoryMap) := by
  obtain ⟨-, hall⟩ | ⟨before, after, hl, -, hbefore, hafter⟩ :=
    foldl_chosenStep_last memoryMap.toList ⟨0#32, 0#32, 0#32⟩
  · have hmem : memoryMap[0] ∈ memoryMap.toList := by simp
    exact absurd (hall _ hmem) BitVec.not_lt_zero
  · exact ⟨before, after, hl, hbefore, hafter⟩

/-- There is one last longest entry. -/
theorem LastLongest.unique {e e' : MemoryMapEntry} (h : LastLongest memoryMap e)
    (h' : LastLongest memoryMap e') : e = e' := by
  obtain ⟨before, after, hl, hbefore, hafter⟩ := h
  obtain ⟨before', after', hl', hbefore', hafter'⟩ := h'
  obtain ⟨mid, hmid, hrest⟩ | ⟨mid, hmid, hrest⟩ :=
    List.append_eq_append_iff.mp (hl.symm.trans hl')
  · cases mid with
    | nil => exact (List.cons.inj hrest).1
    | cons x mid =>
      -- `e` stands before `e'`, and `e'` after `e`
      obtain ⟨rfl, hafterEq⟩ := List.cons.inj hrest
      have hle := hbefore' e (by rw [hmid]; simp)
      have hlt := hafter e' (by rw [hafterEq]; simp)
      exact absurd hlt (BitVec.not_lt.mpr hle)
  · cases mid with
    | nil => exact (List.cons.inj hrest).1.symm
    | cons x mid =>
      obtain ⟨rfl, hafterEq⟩ := List.cons.inj hrest
      have hle := hbefore e' (by rw [hmid]; simp)
      have hlt := hafter' e (by rw [hafterEq]; simp)
      exact absurd hlt (BitVec.not_lt.mpr hle)

/-- `pm_init` returns the first page of the entry it settles on, at the end of the address space
    modulo `2^32`. -/
theorem pmInitReturn_toNat (memoryMap : Vector MemoryMapEntry 16) :
    (pmInitReturn memoryMap).toNat = (chosenEntry memoryMap).firstPage % 2 ^ 32 := by
  have hzero := pageAddr_of_base (pmInit_pool memoryMap) 0
  have hpage : pmInitReturn memoryMap = (pmInit memoryMap).pageAddr 0 := by
    simp [pmInitReturn, Pm.pageAddr]
  rw [hpage, hzero, Nat.zero_mul, Nat.add_zero]
  rfl

/-- `pm_init` leaves every page free. -/
theorem pmInit_free (memoryMap : Vector MemoryMapEntry 16) (k : Nat) :
    ¬ (pmInit memoryMap).Used k := by
  simp [Pm.Used, pmInit]

/-- **`pm_init` looks at lengths only.**  It starts the pool in a longest available entry exactly
    when one of them begins on the same page as the last of the longest entries of any type. -/
theorem pmInit_available_iff (memoryMap : Vector MemoryMapEntry 16) :
    PicksAvailable memoryMap ↔ ∃ e a, LastLongest memoryMap e ∧ LongestAvailable memoryMap a ∧
      e.firstPage % 2 ^ 32 = a.firstPage := by
  rw [PicksAvailable, pmInitReturn_toNat]
  constructor
  · rintro ⟨⟨a, ha, hpage⟩, -⟩
    exact ⟨chosenEntry memoryMap, a, chosenEntry_lastLongest memoryMap, ha, hpage⟩
  · rintro ⟨e, a, he, ha, hpage⟩
    rw [he.unique (chosenEntry_lastLongest memoryMap)] at hpage
    exact ⟨⟨a, ha, hpage⟩, pmInit_free memoryMap⟩

/-- An available megabyte, and a reserved area of 256 megabytes behind it. -/
def reservedMap : Vector MemoryMapEntry 16 :=
  Vector.ofFn fun i =>
    if i.val = 0 then ⟨0x100000#32, 0x100000#32, 1#32⟩
    else if i.val = 1 then ⟨0x80000000#32, 0x10000000#32, 2#32⟩ else ⟨0#32, 0#32, 0#32⟩

/-- The pool starts in the reserved area. -/
theorem pmInit_takes_reserved :
    ¬ ∀ memoryMap : Vector MemoryMapEntry 16, (∃ e ∈ memoryMap.toList, e.Available) →
      (∀ e ∈ memoryMap.toList, e.baseLow ≤ 0xfffff000#32) → PicksAvailable memoryMap := by
  intro h
  obtain ⟨⟨a, ⟨hmem, havail, -⟩, hpage⟩, -⟩ := h reservedMap (by decide) (by decide)
  have hreturn : (pmInitReturn reservedMap).toNat = 0x80000000 := by decide
  have hother : ∀ e ∈ reservedMap.toList, e.Available → e.firstPage ≠ 0x80000000 := by decide
  exact hother a hmem havail (hpage.symm.trans hreturn)

end Leoman
