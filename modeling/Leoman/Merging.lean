import Leoman.MemoryMap
import Mathlib.Algebra.BigOperators.Group.List.Basic
import Mathlib.Data.Set.Basic

namespace Leoman

/-!
# Merging the entries of the memory map

The second loop of `adjust_the_memory_map` adds the lengths of a run of entries of one type and
moves the rest of the table down over it.  It does not look at the bases, and it moves the entries
below index `64 - i - 1` only, reading as many entries past that index as it has merged.

* `Mergeable` — the tables this does no harm to: runs without gaps, whose lengths add up without
  overflow, near enough to the start of the table for their length and for what follows;
* `mergeLoop_merges` — the loop on such a table, by its runs.
-/

/-! ### What a table says -/

/-- The entry covers the address. -/
def BootMapEntry.Covers (e : BootMapEntry) (a : Nat) : Prop :=
  e.baseLow.toNat ≤ a ∧ a < e.baseLow.toNat + e.lenLow.toNat

/-- The addresses covered by entries of a type. -/
def covered (l : List BootMapEntry) (type : BitVec 32) : Set Nat :=
  {a | ∃ e ∈ l, e.type = type ∧ e.Covers a}

/-- The length an entry adds to what is available: those of types 1 and 3 do. -/
def BootMapEntry.avail (e : BootMapEntry) : Nat :=
  if e.type = 1#32 ∨ e.type = 3#32 then e.lenLow.toNat else 0

/-- The total length of the entries of types 1 and 3. -/
def totalAvail (l : List BootMapEntry) : Nat := (l.map BootMapEntry.avail).sum

section Says

variable {l l' : List BootMapEntry} {e : BootMapEntry} {type : BitVec 32} {a : Nat}

/-- What two lists cover together. -/
theorem covered_append : covered (l ++ l') type = covered l type ∪ covered l' type := by
  ext a
  simp only [covered, List.mem_append, Set.mem_union, Set.mem_ofPred_eq]
  constructor
  · rintro ⟨e, he | he, h⟩
    · exact Or.inl ⟨e, he, h⟩
    · exact Or.inr ⟨e, he, h⟩
  · rintro (⟨e, he, h⟩ | ⟨e, he, h⟩)
    · exact ⟨e, Or.inl he, h⟩
    · exact ⟨e, Or.inr he, h⟩

/-- The sum over two lists. -/
theorem totalAvail_append : totalAvail (l ++ l') = totalAvail l + totalAvail l' := by
  simp [totalAvail]

/-- Entries that are not there cover nothing. -/
theorem covered_zeros (n : Nat) : covered (List.replicate n .zero) type = ∅ := by
  ext a
  simp only [covered, Set.mem_ofPred_eq, Set.mem_empty_iff_false, iff_false]
  rintro ⟨e, he, -, hcov⟩
  obtain rfl := List.eq_of_mem_replicate he
  obtain ⟨hlo, hhi⟩ := hcov
  exact absurd hhi (Nat.not_lt_of_le hlo)

/-- Cleared entries add nothing. -/
theorem totalAvail_zeros (n : Nat) : totalAvail (List.replicate n .zero) = 0 := by
  have hzero : BootMapEntry.avail .zero = 0 := by decide
  simp [totalAvail, hzero]

/-- The third loop adds up the total, as a word. -/
theorem foldl_avail (l : List BootMapEntry) (start : BitVec 32) :
    l.foldl (fun sum e => if e.type = 1#32 ∨ e.type = 3#32 then sum + e.lenLow else sum) start
      = start + BitVec.ofNat 32 (totalAvail l) := by
  induction l generalizing start with
  | nil => simp [totalAvail]
  | cons e l ih =>
    rw [List.foldl_cons, ih]
    have hcons : totalAvail (e :: l) = e.avail + totalAvail l := by simp [totalAvail]
    rw [hcons, BitVec.ofNat_add, ← BitVec.add_assoc]
    congr 1
    unfold BootMapEntry.avail
    split
    · simp
    · simp

end Says

/-! ### Tables as lists -/

/-- The entries of the table are those of the list, and zeros. -/
structure Lists (t : BootMap) (l : List BootMapEntry) : Prop where
  length : l.length ≤ 64
  get : ∀ j, j < 64 → t j = l.getD j .zero

section Lists

variable {t : BootMap} {l : List BootMapEntry}

/-- The table is the list, and cleared entries behind it. -/
theorem Lists.entries (h : Lists t l) :
    t.entries = l ++ List.replicate (64 - l.length) .zero := by
  have hlen := h.length
  refine List.ext_getElem? fun j => ?_
  by_cases hj : j < 64
  · have hget : t.entries[j]? = some (t j) := by simp [BootMap.entries, hj]
    rw [hget, h.get j hj, List.getD_eq_getElem?_getD]
    by_cases hjl : j < l.length
    · rw [List.getElem?_append_left hjl, List.getElem?_eq_getElem hjl]
      rfl
    · rw [List.getElem?_append_right (by omega), List.getElem?_eq_none (by omega),
        List.getElem?_replicate, if_pos (by omega)]
      rfl
  · rw [List.getElem?_eq_none (by simp [BootMap.entries]; omega),
      List.getElem?_eq_none (by simp; omega)]

/-- What the third loop computes. -/
theorem Lists.memAvail (h : Lists t l) (start : BitVec 32) :
    memAvail t start = start + BitVec.ofNat 32 (totalAvail l) := by
  rw [Leoman.memAvail, foldl_avail, h.entries, totalAvail_append, totalAvail_zeros, Nat.add_zero]

/-- So the table covers what the list does. -/
theorem Lists.covered (h : Lists t l) (type : BitVec 32) :
    covered t.entries type = covered l type := by
  rw [h.entries, covered_append, covered_zeros, Set.union_empty]

end Lists

/-! ### Tables that merge well -/

/-- The lengths of a run, added up. -/
def runLen (run : List BootMapEntry) : Nat := (run.map fun e => e.lenLow.toNat).sum

/-- The run begins at the address `stop` and goes on without gaps.  Empty entries do not count. -/
def Contiguous : Nat → List BootMapEntry → Prop
  | _, [] => True
  | stop, e :: run =>
    if e.lenLow = 0#32 then Contiguous stop run
    else e.baseLow.toNat = stop ∧ Contiguous (stop + e.lenLow.toNat) run

/-- The type of the first entry of the list, or of the zero after it. -/
def nextType : List BootMapEntry → BitVec 32
  | [] => 0#32
  | e :: _ => e.type

/-- A table from index `i` on that merging does no harm to.  The second loop passes over an empty
    entry; it leaves an entry alone whose neighbour is of another type; and it merges a run. -/
inductive Mergeable : Nat → List BootMapEntry → Prop
  | nil {i : Nat} : Mergeable i []
  | empty {i : Nat} {e : BootMapEntry} {rest : List BootMapEntry} :
    e.lenLow ||| e.lenHigh = 0#32 → Mergeable (i + 1) rest → Mergeable i (e :: rest)
  | alone {i : Nat} {e : BootMapEntry} {rest : List BootMapEntry} :
    -- the type of the next entry is read
    i < 63 → nextType rest ≠ e.type → Mergeable (i + 1) rest → Mergeable i (e :: rest)
  | run {i : Nat} {e : BootMapEntry} {run after : List BootMapEntry} :
    e.lenLow ||| e.lenHigh ≠ 0#32 →
    run ≠ [] → (∀ x ∈ run, x.type = e.type) → nextType after ≠ e.type →
    -- no gaps, and no overflow
    Contiguous (e.baseLow.toNat + e.lenLow.toNat) run →
    e.lenLow.toNat + runLen run < 2 ^ 32 →
    -- moving the rest down does not read past the table, and moves all of it
    run.length ≤ i + 1 → i + 1 + run.length + after.length + i ≤ 63 →
    Mergeable (i + 1) after → Mergeable i (e :: (run ++ after))

section Runs

variable {run : List BootMapEntry} {e : BootMapEntry} {a stop : Nat}

/-- A run is as long as its entries together. -/
theorem runLen_cons : runLen (e :: run) = e.lenLow.toNat + runLen run := by
  simp [runLen]

/-- A run without gaps covers what one entry of its length does. -/
theorem Contiguous.covers (h : Contiguous stop run) :
    (∃ x ∈ run, x.Covers a) ↔ stop ≤ a ∧ a < stop + runLen run := by
  induction run generalizing stop with
  | nil => simp [runLen]
  | cons e run ih =>
    rw [List.exists_mem_cons_iff, runLen_cons]
    unfold Contiguous at h
    split at h
    · rename_i hzero
      rw [ih h]
      have hno : ¬ e.Covers a := by
        rintro ⟨hlo, hhi⟩
        rw [hzero] at hhi
        exact absurd hhi (Nat.not_lt_of_le hlo)
      have hz : e.lenLow.toNat = 0 := by rw [hzero]; rfl
      constructor
      · rintro (h | h)
        · exact absurd h hno
        · omega
      · intro h
        exact Or.inr (by omega)
    · obtain ⟨hbase, h⟩ := h
      rw [ih h]
      unfold BootMapEntry.Covers
      omega

/-- The lengths the loop adds up, as words. -/
theorem foldl_lens (run : List BootMapEntry) (len : BitVec 32) :
    (run.foldl (fun len x => len + x.lenLow) len).toNat = (len.toNat + runLen run) % 2 ^ 32 := by
  induction run generalizing len with
  | nil => exact (Nat.mod_eq_of_lt len.isLt).symm
  | cons x run ih =>
    rw [List.foldl_cons, ih, runLen_cons, BitVec.toNat_add, Nat.mod_add_mod, Nat.add_assoc]

/-- The entry a run is merged into. -/
def merged (e : BootMapEntry) (run : List BootMapEntry) : BootMapEntry :=
  { e with lenLow := run.foldl (fun len x => len + x.lenLow) e.lenLow }

/-- The length of the merged entry, when it fits a word. -/
theorem merged_lenLow (hsum : e.lenLow.toNat + runLen run < 2 ^ 32) :
    (merged e run).lenLow.toNat = e.lenLow.toNat + runLen run := by
  rw [← Nat.mod_eq_of_lt hsum]
  exact foldl_lens run e.lenLow

/-- It covers what the run covered. -/
theorem merged_covered (hrun : ∀ x ∈ run, x.type = e.type)
    (hc : Contiguous (e.baseLow.toNat + e.lenLow.toNat) run)
    (hsum : e.lenLow.toNat + runLen run < 2 ^ 32) (type : BitVec 32) :
    covered [merged e run] type = covered (e :: run) type := by
  ext a
  have hlen := merged_lenLow hsum
  have hcov : (merged e run).Covers a ↔ e.Covers a ∨ ∃ x ∈ run, x.Covers a := by
    rw [hc.covers]
    unfold BootMapEntry.Covers
    rw [hlen, show (merged e run).baseLow = e.baseLow from rfl]
    omega
  simp only [covered, Set.mem_ofPred_eq, List.mem_singleton, exists_eq_left,
    List.exists_mem_cons_iff,
    hcov, show (merged e run).type = e.type from rfl]
  constructor
  · rintro ⟨htype, h | ⟨x, hx, h⟩⟩
    · exact Or.inl ⟨htype, h⟩
    · exact Or.inr ⟨x, hx, (hrun x hx).trans htype, h⟩
  · rintro (⟨htype, h⟩ | ⟨x, hx, htype, h⟩)
    · exact ⟨htype, Or.inl h⟩
    · exact ⟨(hrun x hx).symm.trans htype, Or.inr ⟨x, hx, h⟩⟩

/-- It adds as much to what is available. -/
theorem merged_avail (hrun : ∀ x ∈ run, x.type = e.type)
    (hsum : e.lenLow.toNat + runLen run < 2 ^ 32) :
    totalAvail [merged e run] = totalAvail (e :: run) := by
  have hlen := merged_lenLow hsum
  have htype : (merged e run).type = e.type := rfl
  have htail : totalAvail run = if e.type = 1#32 ∨ e.type = 3#32 then runLen run else 0 := by
    have hmap : run.map BootMapEntry.avail
        = run.map fun x => if e.type = 1#32 ∨ e.type = 3#32 then x.lenLow.toNat else 0 := by
      refine List.map_congr_left fun x hx => ?_
      unfold BootMapEntry.avail
      rw [hrun x hx]
    rw [totalAvail, hmap, runLen]
    split <;> simp
  have hcons : totalAvail (e :: run) = e.avail + totalAvail run := by simp [totalAvail]
  have hone : totalAvail [merged e run] = (merged e run).avail := by simp [totalAvail]
  rw [hcons, hone, htail]
  unfold BootMapEntry.avail
  rw [htype, hlen]
  split <;> rfl

end Runs

/-! ### The loop -/

section Loop

variable {t : BootMap} {i j k n r : Nat}

/-- The entries of the table are the ones that can be read. -/
theorem readEntry_of_lt (hj : j < 64) : readEntry t j = some (t j) := if_pos hj

/-- The inner loop goes over the run and stops at the next type. -/
theorem sumRun_run {run after : List BootMapEntry} (hrun : ∀ x ∈ run, x.type = (t i).type)
    (hnext : nextType after ≠ (t i).type) (len : BitVec 32) (hn : run.length < n)
    (hend : i + j + run.length < 64)
    (hget : ∀ m, m ≤ run.length → t (i + j + m) = (run ++ after).getD m .zero) :
    sumRun t i n j len
      = some (j + run.length, run.foldl (fun len x => len + x.lenLow) len) := by
  induction run generalizing n j len with
  | nil =>
    obtain ⟨n, rfl⟩ : ∃ m, n = m + 1 := ⟨n - 1, by simp at hn; omega⟩
    have hat : t (i + j) = after.getD 0 .zero := hget 0 (Nat.le_refl 0)
    have htype : (t (i + j)).type = nextType after := by
      rw [hat]
      cases after <;> rfl
    unfold sumRun
    rw [readEntry_of_lt (by simpa using hend), Option.bind_eq_bind, Option.bind_some,
      if_neg (by rw [htype]; exact hnext)]
    rfl
  | cons x run ih =>
    rw [List.length_cons] at hn hend
    obtain ⟨n, rfl⟩ : ∃ m, n = m + 1 := ⟨n - 1, by omega⟩
    have hat : t (i + j) = x := hget 0 (Nat.zero_le _)
    unfold sumRun
    rw [readEntry_of_lt (by omega), Option.bind_eq_bind, Option.bind_some, hat,
      if_pos (hrun x List.mem_cons_self),
      ih (fun y hy => hrun y (List.mem_cons_of_mem x hy)) (len + x.lenLow) (by omega) (by omega)
        (fun m hm => ?_), List.length_cons, List.foldl_cons]
    · congr 2
      omega
    · rw [show i + (j + 1) + m = i + j + (m + 1) by omega, hget (m + 1) (by simp; omega)]
      rfl

/-- Moving down reads ahead of what it writes. -/
theorem shiftDown_eq (hr : 0 < r) (hend : k + n + r ≤ 64) :
    shiftDown r n t k
      = some fun x => if k ≤ x ∧ x < k + n then t (x + r) else t x := by
  induction n generalizing t k with
  | zero =>
    unfold shiftDown
    congr 1
    funext x
    rw [if_neg (by omega)]
  | succ n ih =>
    unfold shiftDown
    rw [readEntry_of_lt (by omega), Option.bind_eq_bind, Option.bind_some, ih (by omega)]
    congr 1
    funext x
    by_cases hx : x = k
    · subst hx
      rw [if_neg (by omega), if_pos (by omega), Function.update_self]
    · by_cases hin : k ≤ x ∧ x < k + (n + 1)
      · rw [if_pos (by omega), if_pos hin, Function.update_of_ne (by omega)]
      · rw [if_neg (by omega), if_neg hin, Function.update_of_ne hx]

/-- Past the last entry nothing is merged. -/
theorem mergeLoop_zeros (hzero : ∀ j, i ≤ j → j < i + n → t j = .zero) :
    mergeLoop n t i = some t := by
  induction n generalizing i with
  | zero => rfl
  | succ n ih =>
    have hat : mergeAt t i = some t := by
      unfold mergeAt
      rw [hzero i (Nat.le_refl i) (by omega)]
      rfl
    unfold mergeLoop
    rw [hat, Option.bind_eq_bind, Option.bind_some]
    exact ih fun j hj hj' => hzero j (by omega) (by omega)

end Loop

/-! ### One round -/

section Round

variable {t : BootMap} {front rest run after : List BootMapEntry} {e : BootMapEntry} {i : Nat}

/-- The entry at the index. -/
theorem Lists.at (h : Lists t (front ++ e :: rest)) (hi : front.length = i) : t i = e := by
  have hlen := h.length
  rw [List.length_append, List.length_cons] at hlen
  rw [h.get i (by omega), List.getD_eq_getElem?_getD, List.getElem?_append_right (by omega), hi,
    Nat.sub_self]
  rfl

/-- The entries after it. -/
theorem Lists.behind (h : Lists t (front ++ e :: rest)) (hi : front.length = i) {m : Nat}
    (hm : i + 1 + m < 64) : t (i + 1 + m) = rest.getD m .zero := by
  rw [h.get (i + 1 + m) hm, List.getD_eq_getElem?_getD, List.getElem?_append_right (by omega),
    show i + 1 + m - front.length = m + 1 by omega, List.getElem?_cons_succ,
    ← List.getD_eq_getElem?_getD]

/-- An empty entry. -/
theorem mergeAt_empty (h : Lists t (front ++ e :: rest)) (hi : front.length = i)
    (he : e.lenLow ||| e.lenHigh = 0#32) : mergeAt t i = some t := by
  unfold mergeAt
  simp only [h.at hi, he, if_true]

/-- An entry with a neighbour of another type. -/
theorem mergeAt_alone (h : Lists t (front ++ e :: rest)) (hi : front.length = i) (hlt : i < 63)
    (hnext : nextType rest ≠ e.type) : mergeAt t i = some t := by
  have htype : (t (i + 1)).type = nextType rest := by
    rw [h.behind (m := 0) hi (by omega)]
    cases rest <;> rfl
  unfold mergeAt
  simp only [h.at hi]
  split
  · rfl
  · rw [readEntry_of_lt (by omega), Option.bind_eq_bind, Option.bind_some,
      if_neg (by rw [htype]; exact hnext)]
    rfl

/-- A run: the entry takes its length, and the rest is moved down. -/
theorem mergeAt_shifts (h : Lists t (front ++ e :: (run ++ after))) (hi : front.length = i)
    (he : e.lenLow ||| e.lenHigh ≠ 0#32) (hne : run ≠ []) (hrun : ∀ x ∈ run, x.type = e.type)
    (hnext : nextType after ≠ e.type) (hend : i + 1 + run.length < 64) :
    mergeAt t i = shiftDown run.length (64 - i - 1 - (i + 1))
      (Function.update t i (merged e run)) (i + 1) := by
  have hat := h.at hi
  have htype : (t (i + 1)).type = e.type := by
    rw [h.behind (m := 0) hi (by omega)]
    obtain ⟨x, run, rfl⟩ := List.exists_cons_of_ne_nil hne
    exact hrun x List.mem_cons_self
  have hsum : sumRun t i 64 1 e.lenLow
      = some (1 + run.length, run.foldl (fun len x => len + x.lenLow) e.lenLow) :=
    sumRun_run (by rw [hat]; exact hrun) (by rw [hat]; exact hnext) e.lenLow (by omega) (by omega)
      fun m hm => h.behind hi (by omega)
  unfold mergeAt
  simp only [hat]
  rw [if_neg he, readEntry_of_lt (by omega), Option.bind_eq_bind, Option.bind_some, if_pos htype,
    hsum, Option.bind_eq_bind, Option.bind_some, show 1 + run.length - 1 = run.length by omega]
  rfl

/-- What comes after the run moves down over it, where there is room. -/
theorem mergeAt_run (h : Lists t (front ++ e :: (run ++ after))) (hi : front.length = i)
    (he : e.lenLow ||| e.lenHigh ≠ 0#32) (hne : run ≠ []) (hrun : ∀ x ∈ run, x.type = e.type)
    (hnext : nextType after ≠ e.type) (hshort : run.length ≤ i + 1)
    (hroom : i + 1 + run.length + after.length + i ≤ 63) :
    ∃ t', mergeAt t i = some t' ∧ Lists t' (front ++ merged e run :: after) := by
  have hpos : 0 < run.length := List.length_pos_iff.mpr hne
  rw [mergeAt_shifts h hi he hne hrun hnext (by omega), shiftDown_eq hpos (by omega)]
  refine ⟨_, rfl, ?_, fun x hx => ?_⟩
  · have hlen := h.length
    simp only [List.length_append, List.length_cons] at hlen ⊢
    omega
  · rw [List.getD_eq_getElem?_getD]
    rcases Nat.lt_trichotomy x i with hlt | rfl | hgt
    · rw [if_neg (by omega), Function.update_of_ne (by omega), h.get x hx,
        List.getD_eq_getElem?_getD, List.getElem?_append_left (by omega),
        List.getElem?_append_left (by omega)]
    · rw [if_neg (by omega), Function.update_self, List.getElem?_append_right (by omega), hi,
        Nat.sub_self]
      rfl
    · obtain ⟨m, rfl⟩ : ∃ m, x = i + 1 + m := ⟨x - i - 1, by omega⟩
      have hshift : (front ++ merged e run :: after)[i + 1 + m]? = after[m]? := by
        rw [List.getElem?_append_right (by omega), show i + 1 + m - front.length = m + 1 by omega,
          List.getElem?_cons_succ]
      rw [hshift]
      split
      · rename_i hin
        rw [Function.update_of_ne (by omega),
          show i + 1 + m + run.length = i + 1 + (run.length + m) by omega,
          h.behind hi (by omega), List.getD_eq_getElem?_getD, List.getElem?_append_right (by omega),
          Nat.add_sub_cancel_left]
      · -- past what was moved there were only zeros
        rename_i hout
        rw [Function.update_of_ne (by omega), h.behind hi hx, List.getD_eq_getElem?_getD,
          List.getElem?_eq_none (by rw [List.length_append]; omega),
          List.getElem?_eq_none (by omega)]

end Round

/-! ### The whole loop -/

section Whole

variable {t : BootMap} {front rest : List BootMapEntry} {i : Nat}

/-- What merging should keep. -/
structure SameMap (l l' : List BootMapEntry) : Prop where
  covered : ∀ type, covered l' type = covered l type
  avail : totalAvail l' = totalAvail l

/-- One merge after the other. -/
theorem SameMap.trans {l l' l'' : List BootMapEntry} (h : SameMap l l') (h' : SameMap l' l'') :
    SameMap l l'' :=
  ⟨fun type => (h'.covered type).trans (h.covered type), h'.avail.trans h.avail⟩

/-- Merging one run. -/
theorem sameMap_merged {run after : List BootMapEntry} {e : BootMapEntry}
    (hrun : ∀ x ∈ run, x.type = e.type) (hc : Contiguous (e.baseLow.toNat + e.lenLow.toNat) run)
    (hsum : e.lenLow.toNat + runLen run < 2 ^ 32) :
    SameMap (front ++ e :: (run ++ after)) (front ++ merged e run :: after) := by
  have hsplit : front ++ e :: (run ++ after) = front ++ (e :: run) ++ after := by simp
  have hsplit' : front ++ merged e run :: after = front ++ [merged e run] ++ after := by simp
  rw [hsplit, hsplit']
  refine ⟨fun type => ?_, ?_⟩
  · simp only [covered_append, merged_covered hrun hc hsum]
  · simp only [totalAvail_append, merged_avail hrun hsum]

/-- **The loop merges** a table that merges well, run by run. -/
theorem mergeLoop_merges (hm : Mergeable i rest) (h : Lists t (front ++ rest))
    (hi : front.length = i) :
    ∃ t' l', mergeLoop (64 - i) t i = some t' ∧ Lists t' l' ∧ SameMap (front ++ rest) l' := by
  induction hm generalizing t front with
  | @nil i =>
    refine ⟨t, front ++ [], mergeLoop_zeros fun j hj hj' => ?_, h, fun _ => rfl, rfl⟩
    have hlen := h.length
    rw [List.length_append, hi] at hlen
    rw [h.get j (by omega), List.getD_eq_getElem?_getD, List.getElem?_eq_none (by simp; omega)]
    rfl
  | @empty i e rest he _ ih =>
    have hlen := h.length
    rw [List.length_append, List.length_cons] at hlen
    have h' : Lists t ((front ++ [e]) ++ rest) := by simpa using h
    obtain ⟨t', l', hrun, hl', hsame⟩ := ih h' (by simp [hi])
    refine ⟨t', l', ?_, hl', by simpa using hsame⟩
    rw [show 64 - i = 64 - (i + 1) + 1 by omega, mergeLoop, mergeAt_empty h hi he]
    exact hrun
  | @alone i e rest hlt hnext _ ih =>
    have h' : Lists t ((front ++ [e]) ++ rest) := by simpa using h
    obtain ⟨t', l', hrun, hl', hsame⟩ := ih h' (by simp [hi])
    refine ⟨t', l', ?_, hl', by simpa using hsame⟩
    rw [show 64 - i = 64 - (i + 1) + 1 by omega, mergeLoop, mergeAt_alone h hi hlt hnext]
    exact hrun
  | @run i e run after he hne hrun hnext hc hsum hshort hroom _ ih =>
    obtain ⟨t₁, hat, hl₁⟩ := mergeAt_run h hi he hne hrun hnext hshort hroom
    have hl₁' : Lists t₁ ((front ++ [merged e run]) ++ after) := by simpa using hl₁
    obtain ⟨t', l', hloop, hl', hsame⟩ := ih hl₁' (by simp [hi])
    refine ⟨t', l', ?_, hl', (sameMap_merged hrun hc hsum).trans (by simpa using hsame)⟩
    rw [show 64 - i = 64 - (i + 1) + 1 by omega, mergeLoop, hat]
    exact hloop

end Whole

end Leoman
