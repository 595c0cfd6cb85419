import Leoman.Addr
import Mathlib.Data.List.Basic
import Mathlib.Logic.Function.Basic
import Mathlib.Data.List.Pairwise

namespace Leoman

/-!
# Physical pages (`kernel/pm.c`)

The physical memory manager keeps one bit per 4 KiB page in `pm_bitmap`, 32K words of 32
bits.  `pmAlloc` scans for the first word that is not all ones and takes its lowest zero
bit; `pmAllocCont` scans with a shifted mask; both turn the index into an address with
wrapping 32-bit arithmetic.

* `Pm.Takes s k n s'` — what every successful call does: the pages `k … k+n-1` were free,
  are used afterwards, and no other bit changes.  Both allocators satisfy it, at the lowest
  place that fits (`pmAlloc_spec`, `pmAllocCont_spec`);
* `exclusive_pages` — no page is handed out twice;
* `pmFree_never_undoes` — `pmFree` converts the address with the *virtual* pool base while
  the allocators return *physical* addresses, so it always clears another page's bit.
-/

/-! ### The manager -/

/-- `PM_BITMAP_NMEMB`. -/
def pmBitmapNmemb : Nat := 32 * 1024

/-- `pm_bitmap` (one bit per page; the words from `pmBitmapNmemb` on do not exist and are
    never touched) and `pm_page_pool`, the kernel-virtual address of page 0. -/
structure Pm where
  bitmap : Nat → BitVec 32
  pool : BitVec 32

/-- The address both allocators compute for page number `k` of the pool. -/
def Pm.pageAddr (s : Pm) (k : Nat) : BitVec 32 := v2p (s.pool + BitVec.ofNat 32 k * pageSize)

/-- `pm_bitmap[idx] |= mask`. -/
def Pm.mark (s : Pm) (idx : Nat) (mask : BitVec 32) : Pm :=
  { s with bitmap := Function.update s.bitmap idx (s.bitmap idx ||| mask) }

/-- `pm_alloc`.  A `NULL` result is `0`.  The bit loop has no guard of its own: the word is
    not all ones, so it stops inside the word (`exists_zero_bit`). -/
def pmAlloc (s : Pm) : BitVec 32 × Pm :=
  match (List.range' 0 pmBitmapNmemb).find? (fun idx => s.bitmap idx ≠ 0xffffffff#32) with
  | none => (0#32, s)
  | some idx =>
    match (List.range' 0 32).find? (fun bit => s.bitmap idx &&& (1#32 <<< bit) = 0#32) with
    | none => (0#32, s)
    | some bit => (s.pageAddr (idx * 32 + bit), s.mark idx (1#32 <<< bit))

/-- The mask of `pm_alloc_cont` after `shift` rounds of its inner loop. -/
def contMask (pageNum shift : Nat) : BitVec 32 := (0xffffffff#32 >>> (32 - pageNum)) <<< shift

/-- The inner loop of `pm_alloc_cont`: the first shift whose `pageNum` bits are all free. -/
def contSearch (word : BitVec 32) (pageNum : Nat) : Option Nat :=
  (List.range' 0 (32 - pageNum + 1)).find? (fun shift => word &&& contMask pageNum shift = 0#32)

/-- `pm_alloc_cont`.  The inner loop tries the shifts `0 … 32 - page_num` of one word, the
    outer one goes on to the next word when none of them fits.  (`page_num = 0` shifts by the
    word size, which C leaves undefined; no caller does it.) -/
def pmAllocCont (s : Pm) (pageNum : Nat) : BitVec 32 × Pm :=
  if 32 < pageNum then (0#32, s)
  else
    match (List.range' 0 pmBitmapNmemb).findSome? (fun idx =>
        if s.bitmap idx ≠ 0xffffffff#32 then (contSearch (s.bitmap idx) pageNum).map (idx, ·)
        else none) with
    | none => (0#32, s)
    | some (idx, shift) => (s.pageAddr (idx * 32 + shift), s.mark idx (contMask pageNum shift))

/-- `pm_free`. -/
def pmFree (s : Pm) (addr : BitVec 32) : Pm :=
  let page := (palignDown addr - s.pool) / pageSize
  let idx := (page / 32#32).toNat
  let bit := (page % 32#32).toNat
  { s with bitmap := Function.update s.bitmap idx (s.bitmap idx &&& ~~~(1#32 <<< bit)) }

/-- `struct memory_map_entry`, less the fields nothing reads. -/
structure MemoryMapEntry where
  baseLow : BitVec 32
  lenLow : BitVec 32
  type : BitVec 32
deriving DecidableEq, Repr

/-- One round of the search loop of `pm_init`: the running `max_size` and `pm_page_pool`. -/
def pmInitStep (acc : BitVec 32 × BitVec 32) (e : MemoryMapEntry) : BitVec 32 × BitVec 32 :=
  if acc.1 ≤ e.lenLow then (e.lenLow, palignUp (p2v e.baseLow)) else acc

/-- `pm_init` on the 16 entries of the boot information's memory map, from the state the
    static variables start in. -/
def pmInit (memoryMap : Vector MemoryMapEntry 16) : Pm :=
  { bitmap := fun _ => 0#32
    pool := (memoryMap.toList.foldl pmInitStep (0#32, 0#32)).2 }

/-- `pm_init` leaves the pool base page-aligned. -/
theorem pmInit_pool_aligned (memoryMap : Vector MemoryMapEntry 16) :
    (pmInit memoryMap).pool.toNat % 4096 = 0 := by
  have step : ∀ (l : List MemoryMapEntry) (acc : BitVec 32 × BitVec 32),
      acc.2.toNat % 4096 = 0 → (l.foldl pmInitStep acc).2.toNat % 4096 = 0 := by
    intro l
    induction l with
    | nil => intro acc h; exact h
    | cons e l ih =>
      intro acc h
      refine ih _ ?_
      unfold pmInitStep
      split
      · exact palignUp_aligned _
      · exact h
  exact step _ _ (by decide)

/-! ### Pages and bits -/

/-- Page `k` is marked used. -/
def Pm.Used (s : Pm) (k : Nat) : Prop := (s.bitmap (k / 32)).getLsbD (k % 32) = true

instance (s : Pm) (k : Nat) : Decidable (s.Used k) :=
  inferInstanceAs (Decidable (_ = true))

/-- The number of pages the bitmap describes. -/
def pmPages : Nat := pmBitmapNmemb * 32

/-- The page address as a number. -/
theorem pageAddr_toNat (s : Pm) (k : Nat) :
    (s.pageAddr k).toNat = (s.pool.toNat + k * 4096 + 0x20000000) % 2 ^ 32 := by
  simp only [Pm.pageAddr, v2p, kernVoff, pageSize, BitVec.toNat_sub, BitVec.toNat_add,
    BitVec.toNat_mul, BitVec.toNat_ofNat]
  omega

/-- The address of a page depends on the pool base only. -/
theorem pageAddr_congr {s t : Pm} (h : s.pool = t.pool) (k : Nat) :
    s.pageAddr k = t.pageAddr k := by
  rw [Pm.pageAddr, Pm.pageAddr, h]

/-- **Injectivity of the address map.**  Distinct page numbers have distinct addresses: all
    `2^20` of them fit in the 32-bit space, whatever the pool base is. -/
theorem pageAddr_inj {s : Pm} {j k : Nat} (hj : j < pmPages) (hk : k < pmPages)
    (h : s.pageAddr j = s.pageAddr k) : j = k := by
  have h' := congrArg BitVec.toNat h
  rw [pageAddr_toNat, pageAddr_toNat] at h'
  unfold pmPages pmBitmapNmemb at hj hk
  omega

/-- A mask test is a test of each of its bits. -/
theorem and_eq_zero_iff (w mask : BitVec 32) :
    w &&& mask = 0#32 ↔ ∀ j, mask.getLsbD j = true → w.getLsbD j = false := by
  constructor
  · intro h j hj
    have hb : (w &&& mask).getLsbD j = false := by rw [h]; simp
    simpa [hj] using hb
  · intro h
    apply BitVec.eq_of_getLsbD_eq
    intro j _
    cases hm : mask.getLsbD j with
    | false => simp [hm]
    | true => simp [h j hm]

/-- The single-bit mask of `pm_alloc`. -/
theorem getLsbD_bit {bit : Nat} (hb : bit < 32) (j : Nat) :
    (1#32 <<< bit).getLsbD j = decide (j = bit) := by
  rw [BitVec.getLsbD_shiftLeft, BitVec.getLsbD_one, Bool.eq_iff_iff]
  simp only [Bool.and_eq_true, decide_eq_true_eq, Bool.not_eq_true', decide_eq_false_iff_not]
  omega

/-- The shifted mask of `pm_alloc_cont` covers exactly the bits `shift … shift + n - 1`. -/
theorem getLsbD_contMask {n shift : Nat} (h : shift + n ≤ 32) (j : Nat) :
    (contMask n shift).getLsbD j = decide (shift ≤ j ∧ j < shift + n) := by
  have hones : ∀ i, (0xffffffff#32).getLsbD i = decide (i < 32) := by
    intro i
    have hall : (0xffffffff#32) = BitVec.allOnes 32 := by decide
    rw [hall, BitVec.getLsbD_allOnes]
  rw [contMask, BitVec.getLsbD_shiftLeft, BitVec.getLsbD_ushiftRight, hones, Bool.eq_iff_iff]
  simp only [Bool.and_eq_true, decide_eq_true_eq, Bool.not_eq_true', decide_eq_false_iff_not]
  omega

/-- A word that is not all ones has a zero bit: the guardless loop of `pm_alloc` stops. -/
theorem exists_zero_bit {w : BitVec 32} (h : w ≠ 0xffffffff#32) :
    ∃ bit < 32, w.getLsbD bit = false := by
  by_contra hno
  apply h
  apply BitVec.eq_of_getLsbD_eq
  intro i hi
  have hall : (0xffffffff#32) = BitVec.allOnes 32 := by decide
  rw [hall, BitVec.getLsbD_allOnes]
  have hi' : w.getLsbD i = true := by
    by_contra hf
    exact hno ⟨i, hi, by simpa using hf⟩
  simp [hi', hi]

/-- Marking adds exactly the bits of the mask, in that word. -/
theorem mark_used (s : Pm) (idx : Nat) (mask : BitVec 32) (i : Nat) :
    (s.mark idx mask).Used i ↔ s.Used i ∨ (i / 32 = idx ∧ mask.getLsbD (i % 32) = true) := by
  unfold Pm.Used Pm.mark
  by_cases h : i / 32 = idx
  · simp [h]
  · simp [h]

/-! ### What a successful call does -/

/-- The pages `k … k+n-1` were free in `s` and are the only ones that changed in `s'`. -/
structure Pm.Takes (s : Pm) (k n : Nat) (s' : Pm) : Prop where
  bound : k + n ≤ pmPages
  free : ∀ i, k ≤ i → i < k + n → ¬ s.Used i
  used : ∀ i, s'.Used i ↔ s.Used i ∨ (k ≤ i ∧ i < k + n)
  pool : s'.pool = s.pool

/-- Marking a free run of bits inside one word takes those pages. -/
theorem mark_takes {s : Pm} {idx shift n : Nat} {mask : BitVec 32} (hidx : idx < pmBitmapNmemb)
    (hs : shift + n ≤ 32) (hmask : ∀ j, mask.getLsbD j = decide (shift ≤ j ∧ j < shift + n))
    (hfree : s.bitmap idx &&& mask = 0#32) :
    s.Takes (idx * 32 + shift) n (s.mark idx mask) := by
  unfold pmBitmapNmemb at hidx
  rw [and_eq_zero_iff] at hfree
  refine ⟨?_, ?_, ?_, rfl⟩
  · unfold pmPages pmBitmapNmemb
    omega
  · intro i hlo hhi
    have hdiv : i / 32 = idx := by omega
    have hbit := hfree (i % 32) (by rw [hmask]; simp; omega)
    unfold Pm.Used
    rw [hdiv, hbit]
    simp
  · intro i
    rw [mark_used, hmask]
    simp only [decide_eq_true_eq]
    refine or_congr Iff.rfl ⟨?_, ?_⟩
    · intro h; omega
    · intro h; omega

/-- **What `pm_alloc` does.**  It finds the whole bitmap used and returns `NULL`, or takes the
    lowest free page and returns its address. -/
theorem pmAlloc_spec (s : Pm) :
    (pmAlloc s = (0#32, s) ∧ ∀ k < pmPages, s.Used k) ∨
      ∃ k s', s.Takes k 1 s' ∧ (∀ i < k, s.Used i) ∧ pmAlloc s = (s.pageAddr k, s') := by
  unfold pmAlloc
  -- a word of all ones describes 32 used pages
  have hfull : ∀ k, s.bitmap (k / 32) = 0xffffffff#32 → s.Used k := by
    intro k hones
    have hones' : s.bitmap (k / 32) = BitVec.allOnes 32 := hones
    unfold Pm.Used
    rw [hones', BitVec.getLsbD_allOnes]
    simp; omega
  cases hw : (List.range' 0 pmBitmapNmemb).find? (fun idx => s.bitmap idx ≠ 0xffffffff#32) with
  | none =>
    refine Or.inl ⟨rfl, ?_⟩
    intro k hk
    have hidx : k / 32 ∈ List.range' 0 pmBitmapNmemb := by
      unfold pmPages at hk
      rw [List.mem_range'_1]
      omega
    exact hfull k (by simpa using List.find?_eq_none.mp hw _ hidx)
  | some idx =>
    obtain ⟨hne, hmem, hbefore⟩ := List.find?_range'_eq_some.mp hw
    have hidx : idx < pmBitmapNmemb := by rw [List.mem_range'_1] at hmem; omega
    obtain ⟨b, hb, hzero⟩ := exists_zero_bit (by simpa using hne)
    cases hbit : (List.range' 0 32).find?
        (fun bit => s.bitmap idx &&& (1#32 <<< bit) = 0#32) with
    | none =>
      have hbad := List.find?_eq_none.mp hbit b (by rw [List.mem_range'_1]; omega)
      refine absurd ?_ hbad
      rw [decide_eq_true_eq, and_eq_zero_iff]
      intro j hj
      rw [getLsbD_bit hb, decide_eq_true_eq] at hj
      rw [hj, hzero]
    | some bit =>
      obtain ⟨hfree, hmem', hset⟩ := List.find?_range'_eq_some.mp hbit
      have hlt : bit < 32 := by rw [List.mem_range'_1] at hmem'; omega
      refine Or.inr ⟨idx * 32 + bit, _, mark_takes hidx (n := 1) (by omega) ?_
        (by simpa using hfree), ?_, by simp only [hbit]⟩
      · intro j
        rw [getLsbD_bit hlt]
        simp only [decide_eq_decide]
        omega
      · intro i hi
        obtain hword | hword := Nat.lt_or_ge (i / 32) idx
        · exact hfull i (by simpa using hbefore (i / 32) (Nat.zero_le _) hword)
        · -- an earlier bit of the same word
          have hdiv : i / 32 = idx := by omega
          have hbit' := hset (i % 32) (Nat.zero_le _) (by omega)
          unfold Pm.Used
          by_contra hclear
          refine absurd ?_ (by simpa using hbit')
          rw [and_eq_zero_iff]
          intro j hj
          rw [getLsbD_bit (by omega), decide_eq_true_eq] at hj
          rw [hj, ← hdiv]
          simpa using hclear

/-- `pm_alloc` either finds the whole bitmap used and returns `NULL`, or takes one page and
    returns its address. -/
theorem pmAlloc_cases (s : Pm) :
    (pmAlloc s = (0#32, s) ∧ ∀ k < pmPages, s.Used k) ∨
      ∃ k s', s.Takes k 1 s' ∧ pmAlloc s = (s.pageAddr k, s') := by
  obtain h | ⟨k, s', ht, -, he⟩ := pmAlloc_spec s
  · exact Or.inl h
  · exact Or.inr ⟨k, s', ht, he⟩

/-- `n` pages in a row are free, all in one word of the bitmap. -/
def Pm.Fits (s : Pm) (k n : Nat) : Prop := k % 32 + n ≤ 32 ∧ ∀ j < n, ¬ s.Used (k + j)

instance (s : Pm) (k n : Nat) : Decidable (s.Fits k n) := inferInstanceAs (Decidable (_ ∧ _))

/-- The mask test of `pm_alloc_cont` finds the places that fit. -/
theorem and_contMask_eq_zero {s : Pm} {k n : Nat} (h : k % 32 + n ≤ 32) :
    s.bitmap (k / 32) &&& contMask n (k % 32) = 0#32 ↔ s.Fits k n := by
  rw [and_eq_zero_iff]
  simp only [getLsbD_contMask h, decide_eq_true_eq, Pm.Fits, h, true_and]
  constructor
  · intro hfree j hj
    have hbit := hfree (k % 32 + j) (by omega)
    have hdiv : (k + j) / 32 = k / 32 := by omega
    have hmod : (k + j) % 32 = k % 32 + j := by omega
    unfold Pm.Used
    rw [hdiv, hmod, hbit]
    decide
  · intro hfree j hj
    have hfree' := hfree (j - k % 32) (by omega)
    have hdiv : (k + (j - k % 32)) / 32 = k / 32 := by omega
    have hmod : (k + (j - k % 32)) % 32 = j := by omega
    unfold Pm.Used at hfree'
    rw [hdiv, hmod] at hfree'
    simpa using hfree'

/-- A word in which something fits is not all ones. -/
theorem Pm.Fits.word_ne {s : Pm} {k n : Nat} (h : s.Fits k n) (hn : 1 ≤ n) :
    s.bitmap (k / 32) ≠ 0xffffffff#32 := by
  intro hones
  have hones' : s.bitmap (k / 32) = BitVec.allOnes 32 := hones
  have hk := h.2 0 (by omega)
  unfold Pm.Used at hk
  rw [Nat.add_zero, hones', BitVec.getLsbD_allOnes] at hk
  simp at hk; omega

/-- **What `pm_alloc_cont` does.**  It finds no place that fits and returns `NULL`, or takes the
    lowest place that fits and returns the address of its first page. -/
theorem pmAllocCont_spec (s : Pm) {n : Nat} (hn : 1 ≤ n) (hn' : n ≤ 32) :
    (pmAllocCont s n = (0#32, s) ∧ ∀ k < pmPages, ¬ s.Fits k n) ∨
      ∃ k s', s.Takes k n s' ∧ s.Fits k n ∧ (∀ i < k, ¬ s.Fits i n) ∧
        pmAllocCont s n = (s.pageAddr k, s') := by
  unfold pmAllocCont
  rw [if_neg (by omega)]
  -- the search of one word, and what it says about the places in it
  have hword : ∀ k, (if s.bitmap (k / 32) ≠ 0xffffffff#32 then
      (contSearch (s.bitmap (k / 32)) n).map (k / 32, ·) else none) = none → ¬ s.Fits k n := by
    intro k hnone hfits
    rw [if_pos (hfits.word_ne hn), Option.map_eq_none_iff, contSearch, List.find?_eq_none] at hnone
    refine hnone (k % 32) (by rw [List.mem_range'_1]; have := hfits.1; omega) ?_
    rw [decide_eq_true_eq]
    exact (and_contMask_eq_zero hfits.1).mpr hfits
  cases hfind : (List.range' 0 pmBitmapNmemb).findSome? (fun idx =>
      if s.bitmap idx ≠ 0xffffffff#32 then (contSearch (s.bitmap idx) n).map (idx, ·)
      else none) with
  | none =>
    refine Or.inl ⟨rfl, ?_⟩
    intro k hk
    rw [List.findSome?_eq_none_iff] at hfind
    unfold pmPages at hk
    exact hword k (hfind (k / 32) (by rw [List.mem_range'_1]; omega))
  | some r =>
    obtain ⟨l₁, idx, l₂, hl, hsome, hbefore⟩ := List.findSome?_eq_some_iff.mp hfind
    obtain ⟨m, hm, rfl, hl₂⟩ := List.range'_eq_append_iff.mp hl
    have hcons : List.range' (0 + m * 1) (pmBitmapNmemb - m) = idx :: l₂ := hl₂.symm
    rw [List.range'_eq_cons_iff] at hcons
    obtain ⟨rfl, hpos, -⟩ := hcons
    simp only [Nat.mul_one, Nat.zero_add] at *
    split at hsome
    · rw [Option.map_eq_some_iff] at hsome
      obtain ⟨shift, hsearch, rfl⟩ := hsome
      obtain ⟨hfree, hmem, hprev⟩ := List.find?_range'_eq_some.mp hsearch
      have hlt : shift + n ≤ 32 := by rw [List.mem_range'_1] at hmem; omega
      have hidx : m < pmBitmapNmemb := by omega
      have htakes := mark_takes hidx hlt (getLsbD_contMask hlt) (by simpa using hfree)
      refine Or.inr ⟨m * 32 + shift, _, htakes, ⟨by omega, ?_⟩, ?_, rfl⟩
      · intro j hj
        exact htakes.free (m * 32 + shift + j) (by omega) (by omega)
      intro i hi hfits
      obtain hlow | hlow := Nat.lt_or_ge (i / 32) m
      · exact hword i (hbefore (i / 32) (by rw [List.mem_range'_1]; omega)) hfits
      · -- an earlier shift of the same word
        have hdiv : i / 32 = m := by omega
        have hbad := hprev (i % 32) (Nat.zero_le _) (by omega)
        refine absurd ?_ (by simpa using hbad)
        rw [← hdiv]
        exact (and_contMask_eq_zero hfits.1).mpr hfits
    · exact absurd hsome (by simp)

/-- `pm_alloc_cont` either returns `NULL` and changes nothing, or takes `n` pages in a row and
    returns the address of the first. -/
theorem pmAllocCont_cases (s : Pm) {n : Nat} (hn : 1 ≤ n) (hn' : n ≤ 32) :
    pmAllocCont s n = (0#32, s) ∨
      ∃ k s', s.Takes k n s' ∧ pmAllocCont s n = (s.pageAddr k, s') := by
  obtain ⟨h, -⟩ | ⟨k, s', ht, -, -, he⟩ := pmAllocCont_spec s hn hn'
  · exact Or.inl h
  · exact Or.inr ⟨k, s', ht, he⟩

/-! ### Sequences of calls -/

/-- A call to one of the two allocators. -/
inductive PmCall where
  | alloc
  | allocCont (pageNum : Nat)
deriving DecidableEq, Repr

/-- The number of pages a call asks for. -/
def PmCall.count : PmCall → Nat
  | .alloc => 1
  | .allocCont n => n

/-- `pm_alloc_cont` is asked for at least one page and at most a word of them. -/
def PmCall.Ok (c : PmCall) : Prop := 1 ≤ c.count ∧ c.count ≤ 32

instance (c : PmCall) : Decidable c.Ok := inferInstanceAs (Decidable (_ ∧ _))

/-- Run one call. -/
def PmCall.exec (s : Pm) : PmCall → BitVec 32 × Pm
  | .alloc => pmAlloc s
  | .allocCont n => pmAllocCont s n

/-- The pages a call with result `r` hands out; none when the result is `NULL`. -/
def PmCall.pages (c : PmCall) (r : BitVec 32) : List (BitVec 32) :=
  if r = 0#32 then [] else (List.range c.count).map (fun i => r + BitVec.ofNat 32 i * pageSize)

/-- The pages handed out by each call of a sequence, in order. -/
def handedOut (s : Pm) : List PmCall → List (List (BitVec 32))
  | [] => []
  | c :: cs => c.pages (c.exec s).1 :: handedOut (c.exec s).2 cs

/-- **Step lemma.**  Every call either fails and changes nothing or takes its pages. -/
theorem PmCall.exec_cases (s : Pm) {c : PmCall} (hc : c.Ok) :
    c.exec s = (0#32, s) ∨ ∃ k s', s.Takes k c.count s' ∧ c.exec s = (s.pageAddr k, s') := by
  cases c with
  | alloc =>
    rcases pmAlloc_cases s with ⟨h, _⟩ | h
    · exact Or.inl h
    · exact Or.inr h
  | allocCont n => exact pmAllocCont_cases s hc.1 hc.2

/-- The pages of a run of addresses are the addresses of a run of pages. -/
theorem pageAddr_add (s : Pm) (k i : Nat) :
    s.pageAddr k + BitVec.ofNat 32 i * pageSize = s.pageAddr (k + i) := by
  apply BitVec.eq_of_toNat_eq
  rw [BitVec.toNat_add, pageAddr_toNat, pageAddr_toNat]
  simp only [pageSize, BitVec.toNat_mul, BitVec.toNat_ofNat]
  omega

/-- Every page of a successful call is one of those it took. -/
theorem mem_pages_of_takes {s s' : Pm} {c : PmCall} {k : Nat} (ht : s.Takes k c.count s')
    {a : BitVec 32} (ha : a ∈ c.pages (s.pageAddr k)) :
    ∃ i < pmPages, k ≤ i ∧ i < k + c.count ∧ a = s.pageAddr i := by
  unfold PmCall.pages at ha
  split at ha
  · exact absurd ha (by simp)
  · rw [List.mem_map] at ha
    obtain ⟨i, hi, rfl⟩ := ha
    rw [List.mem_range] at hi
    have hb := ht.bound
    exact ⟨k + i, by omega, by omega, by omega, pageAddr_add s k i⟩

/-- The pages of one call are distinct. -/
theorem pages_nodup {s s' : Pm} {c : PmCall} {k : Nat} (ht : s.Takes k c.count s') :
    (c.pages (s.pageAddr k)).Nodup := by
  unfold PmCall.pages
  split
  · exact List.nodup_nil
  · refine List.Nodup.map_on ?_ List.nodup_range
    intro i hi j hj heq
    rw [List.mem_range] at hi hj
    rw [pageAddr_add, pageAddr_add] at heq
    have hb := ht.bound
    have := pageAddr_inj (by omega) (by omega) heq
    omega

/-- **Run lemma.**  A page handed out by a sequence of calls was free when it began. -/
theorem handedOut_free {s : Pm} {calls : List PmCall} (hok : ∀ c ∈ calls, c.Ok)
    {a : BitVec 32} (ha : a ∈ (handedOut s calls).flatten) :
    ∃ i < pmPages, ¬ s.Used i ∧ a = s.pageAddr i := by
  induction calls generalizing s with
  | nil => simp [handedOut] at ha
  | cons c cs ih =>
    have hcs : ∀ c' ∈ cs, c'.Ok := fun c' h => hok c' (List.mem_cons_of_mem _ h)
    rw [handedOut, List.flatten_cons, List.mem_append] at ha
    rcases PmCall.exec_cases s (hok c List.mem_cons_self) with he | ⟨k, s', ht, he⟩
    · rw [he] at ha
      rcases ha with ha | ha
      · simp [PmCall.pages] at ha
      · exact ih hcs ha
    · rw [he] at ha
      rcases ha with ha | ha
      · obtain ⟨i, hi, hlo, hhi, rfl⟩ := mem_pages_of_takes ht ha
        exact ⟨i, hi, ht.free i hlo hhi, rfl⟩
      · obtain ⟨i, hi, hfree, rfl⟩ := ih hcs ha
        exact ⟨i, hi, fun hu => hfree ((ht.used i).mpr (Or.inl hu)), pageAddr_congr ht.pool i⟩

/-- From any state of the manager, no page is handed out twice. -/
theorem handedOut_nodup (s : Pm) {calls : List PmCall} (hok : ∀ c ∈ calls, c.Ok) :
    (handedOut s calls).flatten.Nodup := by
  induction calls generalizing s with
  | nil => simp [handedOut]
  | cons c cs ih =>
    have hcs : ∀ c' ∈ cs, c'.Ok := fun c' h => hok c' (List.mem_cons_of_mem _ h)
    rw [handedOut, List.flatten_cons]
    rcases PmCall.exec_cases s (hok c List.mem_cons_self) with he | ⟨k, s', ht, he⟩
    · rw [he]
      simpa [PmCall.pages] using ih s hcs
    · rw [he]
      refine List.Nodup.append (pages_nodup ht) (ih s' hcs) ?_
      -- a page of this call is used from now on; a page of a later call is still free
      intro a ha ha'
      obtain ⟨i, hi, hlo, hhi, rfl⟩ := mem_pages_of_takes ht ha
      obtain ⟨j, hj, hfree, heq⟩ := handedOut_free hcs ha'
      have heq' : s.pageAddr i = s.pageAddr j := heq.trans (pageAddr_congr ht.pool j)
      obtain rfl := pageAddr_inj hi hj heq'
      exact hfree ((ht.used i).mpr (Or.inr ⟨hlo, hhi⟩))

/-- **Exclusive physical pages.**  After `pm_init`, over every sequence of `pm_alloc` and
    `pm_alloc_cont` calls, all the page addresses handed out are distinct. -/
theorem exclusive_pages (memoryMap : Vector MemoryMapEntry 16) (calls : List PmCall)
    (hok : ∀ c ∈ calls, c.Ok) : (handedOut (pmInit memoryMap) calls).flatten.Nodup :=
  handedOut_nodup _ hok

/-- A memory map with one available megabyte at `0x100000`. -/
def oneMegabyteMap : Vector MemoryMapEntry 16 :=
  (Vector.replicate 16 ⟨0#32, 0#32, 0#32⟩).set 0 ⟨0x100000#32, 0x100000#32, 1#32⟩

/-- Three calls on the one-megabyte map: two single pages around a run of four. -/
theorem exclusive_pages_three_calls :
    (handedOut (pmInit oneMegabyteMap) [.alloc, .allocCont 4, .alloc]).flatten.Nodup ∧
      (handedOut (pmInit oneMegabyteMap) [.alloc, .allocCont 4, .alloc]).flatten.length = 6 :=
  ⟨exclusive_pages oneMegabyteMap [.alloc, .allocCont 4, .alloc] (by decide), by decide⟩

/-! ### Freeing -/

/-- `s'` is `s` with page `k` marked free and every other page as it was. -/
def Pm.Clears (s : Pm) (k : Nat) (s' : Pm) : Prop :=
  ∀ i < pmPages, s'.Used i ↔ s.Used i ∧ i ≠ k

/-- **What `pm_free` does.**  Given the address the allocators return for page `k`, it clears
    the bit of page `k + 0x20000` (modulo the `2^20` pages): the address is physical, the pool
    base it subtracts is virtual, and the two differ by `KERN_VOFF`. -/
theorem pmFree_pageAddr {s : Pm} (hpool : s.pool.toNat % 4096 = 0) (k : Nat) :
    s.Clears ((k + 0x20000) % pmPages) (pmFree s (s.pageAddr k)) := by
  have hal : (s.pageAddr k).toNat % 4096 = 0 := by rw [pageAddr_toNat]; omega
  have hpage : ((palignDown (s.pageAddr k) - s.pool) / pageSize).toNat
      = (k + 0x20000) % (32 * 1024 * 32) := by
    rw [palignDown_of_aligned hal]
    simp only [pageSize, BitVec.toNat_udiv, BitVec.toNat_sub, BitVec.toNat_ofNat,
      pageAddr_toNat, Nat.reduceMod, Nat.reducePow]
    omega
  intro i hi
  unfold pmPages pmBitmapNmemb at *
  generalize (k + 0x20000) % (32 * 1024 * 32) = t at hpage ⊢
  have hidx : ((palignDown (s.pageAddr k) - s.pool) / pageSize / 32#32).toNat = t / 32 := by
    rw [BitVec.toNat_udiv, hpage]; rfl
  have hbit : ((palignDown (s.pageAddr k) - s.pool) / pageSize % 32#32).toNat = t % 32 := by
    rw [BitVec.toNat_umod, hpage]; rfl
  simp only [Pm.Used, pmFree, hidx, hbit]
  by_cases hw : i / 32 = t / 32
  · have hlt : i % 32 < 32 := Nat.mod_lt _ (by omega)
    rw [hw, Function.update_self, BitVec.getLsbD_and, BitVec.getLsbD_not,
      getLsbD_bit (Nat.mod_lt _ (by omega))]
    simp only [Bool.and_eq_true, Bool.not_eq_true', decide_eq_false_iff_not, hlt, decide_true,
      true_and]
    refine and_congr Iff.rfl (not_congr ?_)
    omega
  · rw [Function.update_of_ne hw]
    have hne : i ≠ t := fun h => hw (by rw [h])
    simp [hne]

/-- Freeing the address of a used page leaves that page used. -/
theorem pmFree_still_used {s : Pm} (hpool : s.pool.toNat % 4096 = 0) {k : Nat} (hk : k < pmPages)
    (hu : s.Used k) : (pmFree s (s.pageAddr k)).Used k := by
  refine (pmFree_pageAddr hpool k k hk).mpr ⟨hu, ?_⟩
  unfold pmPages pmBitmapNmemb at *
  omega

/-- **`pm_free` undoes no allocation.**  For every pool base `pm_init` can set and every
    bitmap: when `pm_alloc` marks a page, freeing it does not give the old bitmap back; and
    freeing an address either allocator returned never clears precisely that page's bit,
    whatever happened to the bitmap in between. -/
theorem pmFree_never_undoes (memoryMap : Vector MemoryMapEntry 16) (bitmap : Nat → BitVec 32) :
    let s : Pm := ⟨bitmap, (pmInit memoryMap).pool⟩
    (∀ p s', pmAlloc s = (p, s') → s' ≠ s → pmFree s' p ≠ s) ∧
      ∀ c : PmCall, c.Ok → ∀ p s', c.exec s = (p, s') → s' ≠ s →
        ∃ k < pmPages, p = s.pageAddr k ∧ ¬ s.Used k ∧
          ∀ t : Pm, t.pool = s.pool → t.Used k → ¬ t.Clears k (pmFree t p) := by
  intro s
  have hpool : s.pool.toNat % 4096 = 0 := pmInit_pool_aligned memoryMap
  have hcall : ∀ c : PmCall, c.Ok → ∀ p s', c.exec s = (p, s') → s' ≠ s →
      ∃ k < pmPages, p = s.pageAddr k ∧ ¬ s.Used k ∧ s'.Used k ∧ s'.pool = s.pool := by
    intro c hc p s' he hne
    rcases PmCall.exec_cases s hc with h | ⟨k, s'', ht, h⟩
    · exact absurd (Prod.mk.inj (he.symm.trans h)).2 hne
    · obtain ⟨rfl, rfl⟩ := Prod.mk.inj (he.symm.trans h)
      have hb := ht.bound
      have hcount := hc.1
      exact ⟨k, by omega, rfl, ht.free k le_rfl (by omega),
        (ht.used k).mpr (Or.inr ⟨le_rfl, by omega⟩), ht.pool⟩
  refine ⟨?_, ?_⟩
  · intro p s' he hne heq
    obtain ⟨k, hk, rfl, hfree, hu, hp⟩ := hcall .alloc (by decide) p s' he hne
    have haddr : s.pageAddr k = s'.pageAddr k := pageAddr_congr hp.symm k
    have hstill := pmFree_still_used (by rw [hp]; exact hpool) hk hu
    rw [← haddr, heq] at hstill
    exact hfree hstill
  · intro c hc p s' he hne
    obtain ⟨k, hk, rfl, hfree, _, _⟩ := hcall c hc p s' he hne
    refine ⟨k, hk, rfl, hfree, ?_⟩
    intro t htp htu hclear
    have haddr : s.pageAddr k = t.pageAddr k := pageAddr_congr htp.symm k
    have hstill := pmFree_still_used (by rw [htp]; exact hpool) hk htu
    rw [← haddr] at hstill
    exact ((hclear k hk).mp hstill).2 rfl

/-- On the one-megabyte map `pm_alloc` returns `0x100000`; freeing it leaves word 0 of the
    bitmap at 1 instead of 0. -/
theorem pmFree_leaves_first_page_used :
    let s := pmInit oneMegabyteMap
    (pmAlloc s).1 = 0x100000#32 ∧ (pmAlloc s).2.bitmap 0 = 1#32 ∧
      ¬ (pmFree (pmAlloc s).2 (pmAlloc s).1 = s) := by
  refine ⟨by decide, by decide, fun h => ?_⟩
  exact absurd (congrFun (congrArg Pm.bitmap h) 0) (by decide)

end Leoman
