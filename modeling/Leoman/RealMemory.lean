import Leoman.Pm

namespace Leoman

/-!
# The end of real memory

`pm_init` picks the longest entry of the memory map and puts the pool at its first whole page,
but the bitmap always describes 4 GiB of pages from there on, and neither allocator compares
the page it has found with the length of the entry.

* `chosenEntry` — the entry `pm_init` settles on; `wholePages` — how many pages fit in it;
* `inside_iff` — the pages of the pool that lie inside the entry are the first `wholePages`;
* `stays_in_memory` — as long as each call finds room inside the entry, every page handed out
  lies inside it;
* `pmAlloc_keepsTo_iff` — once the entry is used up, `pm_alloc` goes on into whatever follows it.
-/

/-! ### The entry -/

/-- One round of the search of `pm_init`, as far as the choice of the entry goes. -/
def chosenStep (acc e : MemoryMapEntry) : MemoryMapEntry := if acc.lenLow ≤ e.lenLow then e else acc

/-- The entry `pm_init` takes the pool from: the last one of the greatest length. -/
def chosenEntry (memoryMap : Vector MemoryMapEntry 16) : MemoryMapEntry :=
  memoryMap.toList.foldl chosenStep ⟨0#32, 0#32, 0#32⟩

/-- The page of 4 KiB at address `a` lies entirely inside `[base_low, base_low + len_low)`. -/
def MemoryMapEntry.Inside (e : MemoryMapEntry) (a : BitVec 32) : Prop :=
  e.baseLow.toNat ≤ a.toNat ∧ a.toNat + 4096 ≤ e.baseLow.toNat + e.lenLow.toNat

instance (e : MemoryMapEntry) (a : BitVec 32) : Decidable (e.Inside a) :=
  inferInstanceAs (Decidable (_ ∧ _))

/-- The number of whole pages below 4 GiB in an entry. -/
def MemoryMapEntry.wholePages (e : MemoryMapEntry) : Nat :=
  (min (e.baseLow.toNat + e.lenLow.toNat) (2 ^ 32) - (e.baseLow.toNat + 4095) / 4096 * 4096) / 4096

/-- The entry goes with the pool and the length that the search of `pm_init` ends with. -/
theorem foldl_chosenStep (l : List MemoryMapEntry) (acc : MemoryMapEntry) (pool : BitVec 32)
    (hpool : acc.lenLow = 0#32 ∨ pool = palignUp (p2v acc.baseLow)) :
    let e := l.foldl chosenStep acc
    let r := l.foldl pmInitStep (acc.lenLow, pool)
    r.1 = e.lenLow ∧ (l ≠ [] ∨ acc.lenLow ≠ 0#32 → r.2 = palignUp (p2v e.baseLow)) ∧
      acc.lenLow ≤ e.lenLow ∧ (∀ e' ∈ l, e'.lenLow ≤ e.lenLow) := by
  induction l generalizing acc pool with
  | nil =>
    refine ⟨rfl, ?_, BitVec.le_refl _, by simp⟩
    intro h
    exact hpool.resolve_left (h.resolve_left (by simp))
  | cons e l ih =>
    simp only [List.foldl_cons]
    by_cases hle : acc.lenLow ≤ e.lenLow
    · -- the entry is at least as long: it is the best one so far
      have hstep : pmInitStep (acc.lenLow, pool) e = (e.lenLow, palignUp (p2v e.baseLow)) :=
        if_pos hle
      have hchosen : chosenStep acc e = e := if_pos hle
      rw [hstep, hchosen]
      obtain ⟨hlen, hbase, hacc, hall⟩ := ih e (palignUp (p2v e.baseLow)) (Or.inr rfl)
      refine ⟨hlen, fun _ => ?_, BitVec.le_trans hle hacc, ?_⟩
      · by_cases hl : l = []
        · subst hl
          rfl
        · exact hbase (Or.inl hl)
      · intro e' he'
        obtain rfl | he' := List.mem_cons.mp he'
        · exact hacc
        · exact hall e' he'
    · have hstep : pmInitStep (acc.lenLow, pool) e = (acc.lenLow, pool) := if_neg hle
      have hchosen : chosenStep acc e = acc := if_neg hle
      rw [hstep, hchosen]
      obtain ⟨hlen, hbase, hacc, hall⟩ := ih acc pool hpool
      have hne : acc.lenLow ≠ 0#32 := by
        intro h0
        rw [h0] at hle
        exact hle (Nat.zero_le _)
      refine ⟨hlen, fun _ => hbase (Or.inr hne), hacc, ?_⟩
      intro e' he'
      obtain rfl | he' := List.mem_cons.mp he'
      · exact BitVec.le_trans (BitVec.le_of_lt (BitVec.not_le.mp hle)) hacc
      · exact hall e' he'

/-- The pool starts at the first page boundary of the chosen entry. -/
theorem pmInit_pool (memoryMap : Vector MemoryMapEntry 16) :
    (pmInit memoryMap).pool = palignUp (p2v (chosenEntry memoryMap).baseLow) := by
  have hne : memoryMap.toList ≠ [] := List.ne_nil_of_length_pos (by simp)
  exact (foldl_chosenStep memoryMap.toList ⟨0#32, 0#32, 0#32⟩ 0#32 (Or.inl rfl)).2.1 (Or.inl hne)

/-- No entry is longer than the chosen one. -/
theorem chosenEntry_longest (memoryMap : Vector MemoryMapEntry 16) :
    ∀ e ∈ memoryMap.toList, e.lenLow ≤ (chosenEntry memoryMap).lenLow :=
  (foldl_chosenStep memoryMap.toList ⟨0#32, 0#32, 0#32⟩ 0#32 (Or.inl rfl)).2.2.2

/-- The pool of an entry as a number. -/
theorem palignUp_p2v_toNat (base : BitVec 32) :
    (palignUp (p2v base)).toNat = (base.toNat + 3758096384 + 4095) % 4294967296 / 4096 * 4096 := by
  have hup : palignUp (p2v base) = palignDown (p2v base + pageSize - 1#32) := rfl
  have hvoff : kernVoff.toNat = 3758096384 := by decide
  have hsize : pageSize.toNat = 4096 := by decide
  have hone : (1#32).toNat = 1 := by decide
  have hword : (2 : Nat) ^ 32 = 4294967296 := by decide
  rw [hup, palignDown_toNat, BitVec.toNat_sub, BitVec.toNat_add, p2v, BitVec.toNat_add, hvoff,
    hsize, hone, hword]
  omega

/-- The address of page `k`, counted from the first page boundary of the entry. -/
theorem pageAddr_of_base {s : Pm} {base : BitVec 32} (hpool : s.pool = palignUp (p2v base))
    (k : Nat) :
    (s.pageAddr k).toNat = ((base.toNat + 4095) / 4096 * 4096 + k * 4096) % 4294967296 := by
  have hword : (2 : Nat) ^ 32 = 4294967296 := by decide
  rw [pageAddr_toNat, hpool, palignUp_p2v_toNat, hword]
  omega

/-- **The end of the entry.**  Of the pages of the pool, exactly the first `wholePages` lie
    inside the entry the pool starts in; the addresses of the others are past its end or wrap
    to below its start. -/
theorem inside_iff {s : Pm} {e : MemoryMapEntry} (hpool : s.pool = palignUp (p2v e.baseLow))
    {k : Nat} (hk : k < pmPages) : e.Inside (s.pageAddr k) ↔ k < e.wholePages := by
  have hbase := e.baseLow.isLt
  have hlen := e.lenLow.isLt
  have hk' : k < 1048576 := hk
  unfold MemoryMapEntry.Inside MemoryMapEntry.wholePages
  rw [pageAddr_of_base hpool]
  generalize e.baseLow.toNat = b at *
  generalize e.lenLow.toNat = n at *
  simp only [Nat.reducePow] at *
  obtain hwrap | hwrap := Nat.lt_or_ge ((b + 4095) / 4096 * 4096 + k * 4096) 4294967296
  · rw [Nat.mod_eq_of_lt hwrap]
    omega
  · -- past 4 GiB: the address wraps to below the entry
    rw [Nat.mod_eq_sub_mod hwrap, Nat.mod_eq_of_lt (by omega)]
    omega

/-! ### Calls that find room in the entry -/

/-- The entry has room for the call: a free page, or `page_num` free pages in one word of the
    bitmap, all of them inside the entry.  (A request for more than a word is refused, one for
    no page at all shifts by the word size, which C leaves undefined.) -/
def PmCall.Room (e : MemoryMapEntry) (s : Pm) : PmCall → Prop
  | .alloc => ∃ k < e.wholePages, ¬ s.Used k
  | .allocCont n => 32 < n ∨ 1 ≤ n ∧ ∃ k, k + n ≤ e.wholePages ∧ s.Fits k n

/-- What the caller of the allocators may rely on: every page handed out lies inside the entry,
    and when no page of the entry is free the call returns `NULL` and changes nothing. -/
def PmCall.KeepsTo (e : MemoryMapEntry) (s : Pm) (c : PmCall) : Prop :=
  (∀ a ∈ c.pages (c.exec s).1, e.Inside a) ∧
    ((∀ k < e.wholePages, s.Used k) → c.exec s = (0#32, s))

/-- A condition on each call of a sequence, in the state the call is made in. -/
def EachCall (P : Pm → PmCall → Prop) : Pm → List PmCall → Prop
  | _, [] => True
  | s, c :: cs => P s c ∧ EachCall P (c.exec s).2 cs

variable {e : MemoryMapEntry} {s : Pm}

/-- An entry has fewer pages than the bitmap. -/
theorem wholePages_lt (e : MemoryMapEntry) : e.wholePages < pmPages := by
  have hlen := e.lenLow.isLt
  have hbase := e.baseLow.isLt
  show e.wholePages < 1048576
  unfold MemoryMapEntry.wholePages
  generalize e.baseLow.toNat = b at *
  generalize e.lenLow.toNat = n at *
  simp only [Nat.reducePow] at *
  omega

/-- A call that takes its pages below the end of the entry hands out pages of the entry. -/
theorem inside_of_takes {s' : Pm} {c : PmCall} {k : Nat}
    (hpool : s.pool = palignUp (p2v e.baseLow)) (ht : s.Takes k c.count s')
    (hend : k + c.count ≤ e.wholePages) : ∀ a ∈ c.pages (s.pageAddr k), e.Inside a := by
  intro a ha
  obtain ⟨i, hi, -, hhi, rfl⟩ := mem_pages_of_takes ht ha
  exact (inside_iff hpool hi).mpr (by omega)

/-- **Step lemma.**  A call that finds room in the entry keeps to it, and the pool stays where
    it is. -/
theorem PmCall.Room.keepsTo {c : PmCall} (hpool : s.pool = palignUp (p2v e.baseLow))
    (h : c.Room e s) : c.KeepsTo e s ∧ (c.exec s).2.pool = s.pool := by
  cases c with
  | alloc =>
    obtain ⟨k, hk, hfree⟩ := h
    obtain ⟨-, hall⟩ | ⟨j, s', ht, hlow, he⟩ := pmAlloc_spec s
    · exact absurd (hall k (hk.trans (wholePages_lt e))) hfree
    · -- the lowest free page is not above the one with room
      have hj : j ≤ k := by
        by_contra hlt
        exact hfree (hlow k (by omega))
      have hexec : PmCall.alloc.exec s = (s.pageAddr j, s') := he
      rw [PmCall.KeepsTo, hexec]
      refine ⟨⟨inside_of_takes hpool (c := .alloc) ht ?_, ?_⟩, ht.pool⟩
      · simp only [PmCall.count]
        omega
      · exact fun hused => absurd (hused k hk) hfree
  | allocCont n =>
    obtain hbig | ⟨hn, k, hk, hfits⟩ := h
    · -- refused
      have hexec : (PmCall.allocCont n).exec s = (0#32, s) := if_pos hbig
      rw [PmCall.KeepsTo, hexec]
      exact ⟨⟨by simp [PmCall.pages], fun _ => rfl⟩, rfl⟩
    · have hn' : n ≤ 32 := by
        have := hfits.1
        omega
      have hfree : ¬ s.Used k := hfits.2 0 (by omega)
      obtain ⟨-, hnone⟩ | ⟨j, s', ht, -, hlow, he⟩ := pmAllocCont_spec s hn hn'
      · have := wholePages_lt e
        exact absurd hfits (hnone k (by omega))
      · have hj : j ≤ k := by
          by_contra hlt
          exact hlow k (by omega) hfits
        have hexec : (PmCall.allocCont n).exec s = (s.pageAddr j, s') := he
        rw [PmCall.KeepsTo, hexec]
        refine ⟨⟨inside_of_takes hpool (c := .allocCont n) ht ?_, ?_⟩, ht.pool⟩
        · simp only [PmCall.count]
          omega
        · exact fun hused => absurd (hused k (by omega)) hfree

/-- **Run lemma.** -/
theorem eachCall_keepsTo {calls : List PmCall} (hpool : s.pool = palignUp (p2v e.baseLow))
    (h : EachCall (fun s c => c.Room e s) s calls) :
    EachCall (fun s c => c.KeepsTo e s) s calls := by
  induction calls generalizing s with
  | nil => trivial
  | cons c cs ih =>
    obtain ⟨hkeeps, hsame⟩ := h.1.keepsTo hpool
    exact ⟨hkeeps, ih (hsame.trans hpool) h.2⟩

/-- **Allocation stays in real memory** for as long as there is room: after `pm_init`, when each
    call of a sequence finds room inside the chosen entry, every page handed out lies inside it
    (and no call is made when the entry is used up). -/
theorem stays_in_memory (memoryMap : Vector MemoryMapEntry 16) (calls : List PmCall)
    (h : EachCall (fun s c => c.Room (chosenEntry memoryMap) s) (pmInit memoryMap) calls) :
    EachCall (fun s c => c.KeepsTo (chosenEntry memoryMap) s) (pmInit memoryMap) calls :=
  eachCall_keepsTo (pmInit_pool memoryMap) h

/-- The one-megabyte map has room for a page and for a run of four. -/
theorem stays_in_memory_one_megabyte :
    EachCall (fun s c => c.KeepsTo (chosenEntry oneMegabyteMap) s) (pmInit oneMegabyteMap)
      [.alloc, .allocCont 4] :=
  stays_in_memory oneMegabyteMap [.alloc, .allocCont 4]
    ⟨⟨0, by decide, by decide⟩, Or.inr ⟨by decide, 1, by decide, by decide⟩, trivial⟩

/-! ### Past the end -/

/-- **The allocator runs on.**  For `pm_alloc` the room is needed: it keeps to the entry exactly
    when a page of the entry is free, or when the whole 4 GiB of the bitmap are used. -/
theorem pmAlloc_keepsTo_iff (hpool : s.pool = palignUp (p2v e.baseLow)) :
    PmCall.alloc.KeepsTo e s ↔ PmCall.alloc.Room e s ∨ ∀ k < pmPages, s.Used k := by
  constructor
  · intro h
    by_cases hroom : PmCall.alloc.Room e s
    · exact Or.inl hroom
    · refine Or.inr fun k hk => ?_
      have hused : ∀ k < e.wholePages, s.Used k := by
        intro k hk
        by_contra hfree
        exact hroom ⟨k, hk, hfree⟩
      have hexec : pmAlloc s = (0#32, s) := h.2 hused
      obtain ⟨-, hall⟩ | ⟨j, s', ht, -, he⟩ := pmAlloc_spec s
      · exact hall k hk
      · -- `NULL` was returned, but a bit was set
        have hsame : s' = s := congrArg Prod.snd (he.symm.trans hexec)
        subst hsame
        exact absurd ((ht.used j).mpr (Or.inr ⟨Nat.le_refl j, Nat.lt_succ_self j⟩))
          (ht.free j (Nat.le_refl j) (Nat.lt_succ_self j))
  · rintro (hroom | hall)
    · exact (hroom.keepsTo hpool).1
    · have hexec : PmCall.alloc.exec s = (0#32, s) := by
        obtain ⟨he, -⟩ | ⟨j, s', ht, -, -⟩ := pmAlloc_spec s
        · exact he
        · have hb := ht.bound
          exact absurd (hall j (by omega)) (ht.free j (Nat.le_refl j) (Nat.lt_succ_self j))
      rw [PmCall.KeepsTo, hexec]
      exact ⟨by simp [PmCall.pages], fun _ => rfl⟩

/-- A memory map whose longest entry is a single page. -/
def onePageMap : Vector MemoryMapEntry 16 :=
  Vector.ofFn fun i => if i.val = 0 then ⟨0x100000#32, 0x1000#32, 1#32⟩ else ⟨0#32, 0#32, 0#32⟩

/-- The second page comes from behind the entry. -/
theorem second_page_outside :
    ¬ ∀ (memoryMap : Vector MemoryMapEntry 16) (calls : List PmCall), (∀ c ∈ calls, c.Ok) →
      EachCall (fun s c => c.KeepsTo (chosenEntry memoryMap) s) (pmInit memoryMap) calls := by
  intro h
  have hsecond := (h onePageMap [.alloc, .alloc] (by decide)).2.1
  have hpages : (chosenEntry onePageMap).wholePages = 1 := by decide
  have hfree : ∀ k, ¬ (pmInit onePageMap).Used k := by
    intro k
    simp [Pm.Used, pmInit]
  obtain ⟨-, hall⟩ | ⟨j, s', ht, hlow, he⟩ := pmAlloc_spec (pmInit onePageMap)
  · exact hfree 0 (hall 0 (by decide))
  · -- the first call takes page 0, the only one of the entry
    have hexec : PmCall.alloc.exec (pmInit onePageMap) = ((pmInit onePageMap).pageAddr j, s') := he
    obtain rfl : j = 0 := by
      by_contra hj
      exact hfree 0 (hlow 0 (by omega))
    rw [hexec, pmAlloc_keepsTo_iff (ht.pool.trans (pmInit_pool onePageMap))] at hsecond
    obtain ⟨k, hk, hunused⟩ | hall := hsecond
    · exact hunused ((ht.used k).mpr (Or.inr (by omega)))
    · obtain hused | hused := (ht.used 1).mp (hall 1 (by decide))
      · exact hfree 1 hused
      · omega

end Leoman
