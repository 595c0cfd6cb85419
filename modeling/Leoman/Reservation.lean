import Leoman.MemoryMap
import Mathlib.Data.List.Forall2
import Mathlib.Data.Nat.ModEq

namespace Leoman

/-!
# Cutting the kernel out of the memory map

The first loop of `adjust_the_memory_map` against what it is for: the entry that holds the kernel
gives way to the part before the kernel, the kernel and the part after it.

* `BootMap.Sorted` — the tables the loader makes;
* `Reserved` — the entry at an index has been cut;
* `reserveLoop_frame`, `reserveLoop_skip`, `reserveLoop_cut` — what the loop leaves alone, passes
  over and writes;
* `kernel_reserved` — the loop does what it is for exactly when there is nothing to cut.
-/

/-! ### What the loop is for -/

/-- A range of addresses with a type. -/
structure MapRegion where
  base : Nat
  len : Nat
  type : BitVec 32

/-- The entry is for the region. -/
def BootMapEntry.Describes (e : BootMapEntry) (r : MapRegion) : Prop :=
  e.baseLow.toNat = r.base ∧ e.lenLow.toNat = r.len ∧ e.type = r.type

/-- The non-empty regions an entry is cut into: before the kernel, the kernel, and after it. -/
def pieces (kern e : BootMapEntry) : List MapRegion :=
  let kb := kern.baseLow.toNat
  let kl := kern.lenLow.toNat
  let eb := e.baseLow.toNat
  let el := e.lenLow.toNat
  [⟨eb, kb - eb, 1#32⟩, ⟨kb, kl, 2#32⟩, ⟨kb + kl, eb + el - (kb + kl), 1#32⟩].filter
    fun r => r.len ≠ 0

/-- The entry at `i` has been replaced by its pieces, and the others are as before, in order. -/
def Reserved (kern : BootMapEntry) (t t' : BootMap) (i : Nat) : Prop :=
  ∃ new, List.Forall₂ BootMapEntry.Describes new (pieces kern (t i)) ∧
    t'.entries = (t.entries.take i ++ new ++ t.entries.drop (i + 1)).take 64

/-- A table with `n` entries: 61 at most, sorted, without overlap, and none past the end of memory;
    the others are zero. -/
structure BootMap.Sorted (t : BootMap) (n : Nat) : Prop where
  le : n ≤ 61
  zero : ∀ j, n ≤ j → j < 64 → t j = .zero
  apart : ∀ i j, i < j → j < n → (t i).baseLow.toNat + (t i).lenLow.toNat ≤ (t j).baseLow.toNat
  fits : ∀ i, i < n → (t i).baseLow.toNat + (t i).lenLow.toNat ≤ 2 ^ 32

/-- The entry is available and the kernel's range lies in it. -/
structure HoldsKernel (kern e : BootMapEntry) : Prop where
  type : e.type = 1#32
  start : e.baseLow.toNat ≤ kern.baseLow.toNat
  upto : kern.baseLow.toNat + kern.lenLow.toNat ≤ e.baseLow.toNat + e.lenLow.toNat

section Entries

variable {t t' : BootMap} {kern : BootMapEntry} {i j : Nat}

theorem BootMap.entries_get (hj : j < 64) : t.entries[j]? = some (t j) := by
  simp [BootMap.entries, hj]

theorem BootMap.entries_length : t.entries.length = 64 := by
  simp [BootMap.entries]

/-- Entries before the one that has been cut. -/
theorem Reserved.before (h : Reserved kern t t' i) (hj : j < i) (hi : i < 64) :
    t' j = t j := by
  obtain ⟨new, -, heq⟩ := h
  have hget := congrArg (·[j]?) heq
  have hlen : j < (t.entries.take i).length := by
    rw [List.length_take, BootMap.entries_length]
    omega
  simp only [List.append_assoc] at hget
  rw [BootMap.entries_get (by omega), List.getElem?_take_of_lt (by omega),
    List.getElem?_append_left hlen, List.getElem?_take_of_lt hj,
    BootMap.entries_get (by omega)] at hget
  exact Option.some.inj hget

/-- The pieces. -/
theorem Reserved.piece (h : Reserved kern t t' i) {m : Nat} {r : MapRegion}
    (hr : (pieces kern (t i))[m]? = some r) (hm : i + m < 64) :
    (t' (i + m)).Describes r := by
  obtain ⟨new, hnew, heq⟩ := h
  obtain ⟨hlt, hr⟩ := List.getElem?_eq_some_iff.mp hr
  have hlt' : m < new.length := by
    rw [hnew.length_eq]
    exact hlt
  have hget := congrArg (·[i + m]?) heq
  have hlen : (t.entries.take i).length = i := by
    rw [List.length_take, BootMap.entries_length]
    omega
  simp only [List.append_assoc] at hget
  rw [BootMap.entries_get hm, List.getElem?_take_of_lt hm,
    List.getElem?_append_right (by omega), hlen, Nat.add_sub_cancel_left,
    List.getElem?_append_left hlt', List.getElem?_eq_getElem hlt'] at hget
  rw [Option.some.inj hget, ← hr]
  exact (List.forall₂_iff_get.mp hnew).2 m hlt' hlt

end Entries

/-! ### Pointer differences -/

section Pointers

variable {p q : BitVec 32}

theorem toNat_sub_of_le (h : q.toNat ≤ p.toNat) : (p - q).toNat = p.toNat - q.toNat := by
  rw [BitVec.toNat_sub]
  have := p.isLt
  have := q.isLt
  omega

/-- A positive difference is a quarter of the distance. -/
theorem ptrDiff_pos (h : BitVec.slt 0#32 (ptrDiff p q) = true) :
    (ptrDiff p q).toNat = (p - q).toNat / 4 ∧ 4 ≤ (p - q).toNat := by
  have hint : (ptrDiff p q).toInt = (p - q).toInt / 4 := by
    rw [ptrDiff, BitVec.toInt_sshiftRight, Int.shiftRight_eq_div_pow]
    rfl
  have hpos : 0 < (ptrDiff p q).toInt := by
    rw [BitVec.slt, decide_eq_true_eq] at h
    simpa using h
  have hlt := (p - q).isLt
  have hlt' := (ptrDiff p q).isLt
  simp only [BitVec.toInt_eq_toNat_cond] at hint hpos
  split at hint <;> split at hint <;> omega

theorem ptrDiff_self : ptrDiff p p = 0#32 := by
  simp [ptrDiff]

end Pointers

/-! ### The loop -/

section Loop

variable {kern : BootMapEntry} {t : BootMap} {i j k n : Nat}

/-- Shifting leaves the entries up to `i + 1` alone. -/
theorem shiftUp_frame (hj : j ≤ i + 1) : shiftUp t i k j = t j := by
  induction k generalizing t with
  | zero => rfl
  | succ k ih =>
    unfold shiftUp
    split
    · rw [ih, Function.update_of_ne (by omega)]
    · rfl

/-- What a cut writes up to the index, and where it ends. -/
theorem cutEntry_upto (kern : BootMapEntry) (t : BootMap) (hj : j ≤ i) :
    (cutEntry kern t i).1 j = (if j = i then
        if BitVec.slt 0#32 (ptrDiff kern.baseLow (t i).baseLow) then preEntry kern (t i) else kern
      else t j) ∧ i ≤ (cutEntry kern t i).2 := by
  have h₁ : j ≠ i + 1 := by omega
  have h₂ : j ≠ i + 1 + 1 := by omega
  unfold cutEntry
  by_cases hpre : BitVec.slt 0#32 (ptrDiff kern.baseLow (t i).baseLow)
  · -- the kernel goes to the next index, and nothing is written below this one
    simp only [hpre, if_true]
    split <;>
      · refine ⟨?_, Nat.le_succ i⟩
        by_cases hji : j = i
        · subst hji
          simp [h₂, shiftUp_frame (show j ≤ j + 1 + 1 by omega)]
        · simp [hji, h₁, h₂, shiftUp_frame, Nat.le_succ_of_le hj,
            Nat.le_succ_of_le (Nat.le_succ_of_le hj)]
  · simp only [hpre, if_false, Bool.false_eq_true]
    split <;>
      · refine ⟨?_, Nat.le_refl i⟩
        by_cases hji : j = i
        · simp [hji, shiftUp_frame]
        · simp [hji, h₁, shiftUp_frame, Nat.le_succ_of_le hj]

/-- **The loop leaves alone** the entries it has passed. -/
theorem reserveLoop_frame (hj : j < i) : reserveLoop kern n t i j = t j := by
  induction n generalizing t i with
  | zero => rfl
  | succ n ih =>
    unfold reserveLoop
    split
    · split
      · obtain ⟨hat, hle⟩ := cutEntry_upto kern t (Nat.le_of_lt hj)
        rw [ih (by omega), hat, if_neg (by omega)]
      · exact ih (by omega)
    · rfl

/-- **The loop passes over** entries that fail the tests. -/
theorem reserveLoop_skip (hm : ∀ j, i ≤ j → j < i + k → ¬ Fits kern (t j)) (hk : i + k ≤ 61) :
    reserveLoop kern (n + k) t i = reserveLoop kern n t (i + k) := by
  induction k generalizing i with
  | zero => rfl
  | succ k ih =>
    rw [← Nat.add_assoc, reserveLoop, if_pos (by omega), if_neg (hm i (Nat.le_refl i) (by omega)),
      ih (fun j hj hjk => hm j (by omega) (by omega)) (by omega)]
    congr 1
    omega

/-- **The loop cuts** the first entry that passes the tests. -/
theorem reserveKernel_cut (hm : ∀ j, j < i → ¬ Fits kern (t j)) (hi : i < 61)
    (hfit : Fits kern (t i)) : reserveKernel kern t
      = reserveLoop kern (60 - i) (cutEntry kern t i).1 ((cutEntry kern t i).2 + 1) := by
  unfold reserveKernel
  have hskip : reserveLoop kern (61 - i + i) t 0 = reserveLoop kern (61 - i) t (0 + i) :=
    reserveLoop_skip (fun j _ hj => hm j (by omega)) (by omega)
  rw [show 61 - i + i = 61 by omega, Nat.zero_add] at hskip
  rw [hskip, show 61 - i = (60 - i) + 1 by omega, reserveLoop, if_pos hi, if_pos hfit]

/-- The entry cut first. -/
theorem reserveKernel_at (hm : ∀ j, j < i → ¬ Fits kern (t j)) (hi : i < 61)
    (hfit : Fits kern (t i)) : reserveKernel kern t i
      = if BitVec.slt 0#32 (ptrDiff kern.baseLow (t i).baseLow) then preEntry kern (t i)
        else kern := by
  obtain ⟨hat, hle⟩ := cutEntry_upto kern t (Nat.le_refl i)
  rw [reserveKernel_cut hm hi hfit, reserveLoop_frame (by omega), hat, if_pos rfl]

/-- An entry that the loop does not cut, nor one before it. -/
theorem reserveKernel_unfit (hm : ∀ j, j ≤ i → ¬ Fits kern (t j)) (hi : i < 61) :
    reserveKernel kern t i = t i := by
  have hskip : reserveLoop kern (60 - i + (i + 1)) t 0
      = reserveLoop kern (60 - i) t (0 + (i + 1)) :=
    reserveLoop_skip (fun j _ hj => hm j (by omega)) (by omega)
  rw [show 60 - i + (i + 1) = 61 by omega] at hskip
  rw [reserveKernel, hskip, reserveLoop_frame (by omega)]

/-- What the loop can make of the entry it is at. -/
theorem reserveLoop_here (kern : BootMapEntry) (t : BootMap) (i n : Nat) :
    reserveLoop kern n t i i = t i ∨
    reserveLoop kern n t i i = preEntry kern (t i) ∨ reserveLoop kern n t i i = kern := by
  cases n with
  | zero => exact Or.inl rfl
  | succ n =>
    unfold reserveLoop
    split
    · split
      · obtain ⟨hat, hle⟩ := cutEntry_upto kern t (Nat.le_refl i)
        rw [reserveLoop_frame (by omega), hat, if_pos rfl]
        split
        · exact Or.inr (Or.inl rfl)
        · exact Or.inr (Or.inr rfl)
      · exact Or.inl (reserveLoop_frame (by omega))
    · exact Or.inl rfl

/-- The cut of an entry that begins with the kernel. -/
theorem cutEntry_exact (hbase : (t i).baseLow = kern.baseLow) : cutEntry kern t i
    = if (t i).lenLow = kern.lenLow then (Function.update t i kern, i)
      else (Function.update (shiftUp (Function.update t i kern) i 62) (i + 1)
        (postEntry kern (t i)), i) := by
  have hpos : BitVec.slt 0#32 0#32 = false := by decide
  have hlen : (t i).lenLow - kern.lenLow - 0#32 = 0#32 ↔ (t i).lenLow = kern.lenLow := by
    rw [BitVec.sub_zero, BitVec.sub_eq_iff_eq_add, BitVec.zero_add]
  unfold cutEntry
  simp only [hbase, ptrDiff_self, hpos, Bool.false_eq_true, if_false, ne_eq, hlen, ite_not]

end Loop

/-! ### Exactly when it works -/

section Exact

variable {kern : BootMapEntry} {t : BootMap} {i n : Nat}

/-- The pieces of an entry that begins before the kernel. -/
theorem pieces_before {e : BootMapEntry} (h : e.baseLow.toNat < kern.baseLow.toNat) :
    (pieces kern e)[0]? = some ⟨e.baseLow.toNat, kern.baseLow.toNat - e.baseLow.toNat, 1#32⟩ := by
  simp [pieces, List.filter_cons, show kern.baseLow.toNat - e.baseLow.toNat ≠ 0 by omega]

/-- The piece after the kernel. -/
theorem pieces_after {e : BootMapEntry} (h : e.baseLow.toNat = kern.baseLow.toNat)
    (hkl : kern.lenLow.toNat ≠ 0) (hlen : kern.lenLow.toNat < e.lenLow.toNat) :
    (pieces kern e)[1]? = some ⟨kern.baseLow.toNat + kern.lenLow.toNat,
      e.lenLow.toNat - kern.lenLow.toNat, 1#32⟩ := by
  have hrest : kern.baseLow.toNat + e.lenLow.toNat - (kern.baseLow.toNat + kern.lenLow.toNat)
      = e.lenLow.toNat - kern.lenLow.toNat := by
    omega
  have hne : e.lenLow.toNat - kern.lenLow.toNat ≠ 0 := by omega
  simp only [pieces, h, hrest]
  simp [hkl, hne]

theorem preEntry_baseLow {e : BootMapEntry} : (preEntry kern e).baseLow = e.baseLow := rfl

/-- The entry before the kernel that the code makes is too short. -/
theorem preEntry_not_describes {e : BootMapEntry} {r : MapRegion}
    (hle : e.baseLow.toNat ≤ kern.baseLow.toNat)
    (hpos : BitVec.slt 0#32 (ptrDiff kern.baseLow e.baseLow) = true)
    (hr : r.len = kern.baseLow.toNat - e.baseLow.toNat) : ¬ (preEntry kern e).Describes r := by
  rintro ⟨-, hlen, -⟩
  obtain ⟨hquarter, hfour⟩ := ptrDiff_pos hpos
  rw [toNat_sub_of_le hle] at hquarter hfour
  have : (ptrDiff kern.baseLow e.baseLow).toNat = r.len := hlen
  omega

/-- The entry after the kernel that the code makes begins too far up: four times the length is not
    the length, also modulo the size of memory. -/
theorem postEntry_base {e : BootMapEntry} (hkl : kern.lenLow.toNat ≠ 0) :
    (postEntry kern e).baseLow.toNat ≠ kern.baseLow.toNat + kern.lenLow.toNat := by
  intro heq
  have hbase : (postEntry kern e).baseLow.toNat
      = (kern.baseLow.toNat + 4 * kern.lenLow.toNat) % 2 ^ 32 := by
    have hdef : (postEntry kern e).baseLow = kern.baseLow + 4#32 * kern.lenLow := rfl
    rw [hdef, BitVec.toNat_add, BitVec.toNat_mul, Nat.add_mod_mod]
    rfl
  rw [hbase] at heq
  have hlt := kern.lenLow.isLt
  generalize kern.baseLow.toNat = b at heq
  generalize kern.lenLow.toNat = l at heq hkl hlt
  have hmod : b + (l + 3 * l) ≡ b + (l + 0) [MOD 2 ^ 32] := by
    rw [show l + 3 * l = 4 * l by omega, Nat.add_zero, ← heq]
    exact (Nat.mod_modEq _ _).symm
  have hthree : 2 ^ 32 ∣ 3 * l :=
    Nat.modEq_zero_iff_dvd.mp (Nat.ModEq.add_left_cancel' l (Nat.ModEq.add_left_cancel' b hmod))
  have hdvd : 2 ^ 32 ∣ l := Nat.Coprime.dvd_of_dvd_mul_left (by decide) hthree
  exact absurd (Nat.le_of_dvd (Nat.pos_of_ne_zero hkl) hdvd) (Nat.not_le_of_lt hlt)

/-- An entry before the one with the kernel that passes the tests is spoilt. -/
theorem cut_before {e : BootMapEntry} (hfit : Fits kern e) (hkern : kern.type = 2#32)
    (hkl : kern.lenLow.toNat ≠ 0) (hend : kern.baseLow.toNat + kern.lenLow.toNat ≤ 2 ^ 32) :
    (if BitVec.slt 0#32 (ptrDiff kern.baseLow e.baseLow) then preEntry kern e else kern) ≠ e := by
  obtain ⟨htype, hbase, hlen⟩ := hfit
  split
  · rename_i hpos
    intro heq
    obtain ⟨hquarter, hfour⟩ := ptrDiff_pos hpos
    rw [toNat_sub_of_le (BitVec.le_def.mp hbase)] at hquarter hfour
    have hsame : ptrDiff kern.baseLow e.baseLow = e.lenLow :=
      congrArg (fun e => e.toMemoryMapEntry.lenLow) heq
    rw [← hsame, BitVec.le_def, BitVec.toNat_add] at hlen
    -- the sum of the test does not wrap
    rw [Nat.mod_eq_of_lt (by omega)] at hlen
    omega
  · rintro rfl
    rw [hkern] at htype
    exact absurd htype (by decide)

/-- What is cut first is not before the entry with the kernel. -/
theorem Reserved.unfit (h : Reserved kern t (reserveKernel kern t) i) (hi : i < 61)
    (hkern : kern.type = 2#32) (hkl : kern.lenLow.toNat ≠ 0)
    (hend : kern.baseLow.toNat + kern.lenLow.toNat ≤ 2 ^ 32) (j : Nat) (hj : j < i) :
    ¬ Fits kern (t j) := by
  induction j using Nat.strong_induction_on with
  | _ j ih =>
    intro hfit
    have hat := reserveKernel_at (fun m hm => ih m hm (by omega)) (by omega) hfit
    exact cut_before hfit hkern hkl hend (hat.symm.trans (h.before hj (by omega)))

/-- The table with the kernel's entry in place of one of the same extent. -/
theorem reserved_update (hi : i < 61) (hbase : (t i).baseLow = kern.baseLow)
    (hlen : (t i).lenLow = kern.lenLow) (hkern : kern.type = 2#32) (hkl : kern.lenLow.toNat ≠ 0) :
    Reserved kern t (Function.update t i kern) i := by
  refine ⟨[kern], ?_, ?_⟩
  · have hpieces : pieces kern (t i) = [⟨kern.baseLow.toNat, kern.lenLow.toNat, 2#32⟩] := by
      simp [pieces, hbase, hlen, hkl]
    rw [hpieces]
    exact .cons ⟨rfl, rfl, hkern⟩ .nil
  · have hlen : (t.entries.take i).length = i := by
      rw [List.length_take, BootMap.entries_length]
      omega
    refine List.ext_getElem? fun j => ?_
    by_cases hj : j < 64
    · rw [BootMap.entries_get hj, List.getElem?_take_of_lt hj, List.append_assoc]
      rcases Nat.lt_trichotomy j i with hlt | rfl | hgt
      · rw [List.getElem?_append_left (by omega), List.getElem?_take_of_lt hlt,
          BootMap.entries_get hj, Function.update_of_ne (by omega)]
      · rw [List.getElem?_append_right (by omega), hlen, Nat.sub_self, Function.update_self]
        rfl
      · rw [List.getElem?_append_right (by omega), hlen, List.singleton_append,
          show j - i = (j - i - 1) + 1 by omega, List.getElem?_cons_succ, List.getElem?_drop,
          show i + 1 + (j - i - 1) = j by omega, BootMap.entries_get hj,
          Function.update_of_ne (by omega)]
    · rw [List.getElem?_eq_none (by rw [BootMap.entries_length]; omega),
        List.getElem?_eq_none (by rw [List.length_take]; omega)]

/-- Entries after the one with the kernel fail the tests. -/
theorem not_fits_after (hs : t.Sorted n) (hh : HoldsKernel kern (t i))
    (hkl : kern.lenLow.toNat ≠ 0) {j : Nat} (hij : i < j) (hj : j < 61) : ¬ Fits kern (t j) := by
  rintro ⟨htype, hbase, -⟩
  by_cases hjn : j < n
  · have hapart := hs.apart i j hij hjn
    have hupto := hh.upto
    rw [BitVec.le_def] at hbase
    omega
  · rw [hs.zero j (by omega) (by omega)] at htype
    exact absurd htype (by decide)

/-- If the loop has done its work, the entry began with the kernel: the piece the code makes before
    it is wrong. -/
theorem Reserved.base_eq (h : Reserved kern t (reserveKernel kern t) i) (hi : i < 61)
    (hh : HoldsKernel kern (t i)) (hkern : kern.type = 2#32) (hkl : kern.lenLow.toNat ≠ 0)
    (hbefore : ∀ j, j < i → ¬ Fits kern (t j)) : (t i).baseLow = kern.baseLow := by
  obtain ⟨-, hfrom, hupto⟩ := hh
  by_contra hne
  have hlt : (t i).baseLow.toNat < kern.baseLow.toNat := by
    have : (t i).baseLow.toNat ≠ kern.baseLow.toNat := fun h => hne (BitVec.eq_of_toNat_eq h)
    omega
  have hpiece := h.piece (pieces_before hlt) (by omega)
  rw [Nat.add_zero] at hpiece
  by_cases hfit : Fits kern (t i)
  · rw [reserveKernel_at hbefore hi hfit] at hpiece
    split at hpiece
    · rename_i hpos
      exact preEntry_not_describes hfrom hpos rfl hpiece
    · have htwo : 2#32 = 1#32 := hkern.symm.trans hpiece.2.2
      exact absurd htwo (by decide)
  · -- an entry left as it is keeps its length
    have hunfit : ∀ j, j ≤ i → ¬ Fits kern (t j) := by
      intro j hj
      rcases Nat.lt_or_eq_of_le hj with hj | rfl
      · exact hbefore j hj
      · exact hfit
    rw [reserveKernel_unfit hunfit hi] at hpiece
    have hlen : (t i).lenLow.toNat = kern.baseLow.toNat - (t i).baseLow.toNat := hpiece.2.1
    omega

/-- An entry that begins with the kernel and holds it passes the tests. -/
theorem HoldsKernel.fits (hh : HoldsKernel kern (t i)) (hbase : (t i).baseLow = kern.baseLow) :
    Fits kern (t i) := by
  obtain ⟨htype, hfrom, hupto⟩ := hh
  refine ⟨htype, BitVec.le_def.mpr hfrom, ?_⟩
  rw [hbase] at hupto
  rw [hbase, ptrDiff_self, BitVec.add_zero, BitVec.le_def]
  omega

/-- If the loop has done its work, the entry ended with the kernel: the piece the code makes after
    it is wrong. -/
theorem Reserved.len_eq (h : Reserved kern t (reserveKernel kern t) i) (hi : i < 61)
    (hh : HoldsKernel kern (t i)) (hkern : kern.type = 2#32) (hkl : kern.lenLow.toNat ≠ 0)
    (hbefore : ∀ j, j < i → ¬ Fits kern (t j)) (hbase : (t i).baseLow = kern.baseLow) :
    (t i).lenLow = kern.lenLow := by
  by_contra hne
  have hlt : kern.lenLow.toNat < (t i).lenLow.toNat := by
    have : (t i).lenLow.toNat ≠ kern.lenLow.toNat := fun h => hne (BitVec.eq_of_toNat_eq h)
    have hupto := hh.upto
    rw [hbase] at hupto
    omega
  have hpiece := h.piece (pieces_after (congrArg BitVec.toNat hbase) hkl hlt) (by omega)
  rw [reserveKernel_cut hbefore hi (hh.fits hbase), cutEntry_exact hbase, if_neg hne] at hpiece
  simp only at hpiece
  -- whatever the next round makes of it, its base stays, or it is the kernel's
  generalize ht' : Function.update (shiftUp (Function.update t i kern) i 62) (i + 1)
    (postEntry kern (t i)) = t' at hpiece
  have hpost : t' (i + 1) = postEntry kern (t i) := by
    rw [← ht', Function.update_self]
  obtain ⟨hpb, -, hpt⟩ := hpiece
  rcases reserveLoop_here kern t' (i + 1) (60 - i) with hsame | hpre | hk
  · rw [hsame, hpost] at hpb
    exact postEntry_base hkl hpb
  · rw [hpre, preEntry_baseLow, hpost] at hpb
    exact postEntry_base hkl hpb
  · rw [hk] at hpt
    have htwo : 2#32 = 1#32 := hkern.symm.trans hpt
    exact absurd htwo (by decide)

/-- Where the kernel fills the entry, and no entry before it passes the tests, the loop puts the
    kernel's entry in its place. -/
theorem reserveKernel_exact (hs : t.Sorted n) (hi : i < n) (hh : HoldsKernel kern (t i))
    (hkl : kern.lenLow.toNat ≠ 0) (hbase : (t i).baseLow = kern.baseLow)
    (hlen : (t i).lenLow = kern.lenLow) (hbefore : ∀ j, j < i → ¬ Fits kern (t j)) :
    reserveKernel kern t = Function.update t i kern := by
  have hn := hs.le
  have hafter : ∀ j, i + 1 ≤ j → j < i + 1 + (60 - i) →
      ¬ Fits kern (Function.update t i kern j) := by
    intro j hj hj'
    rw [Function.update_of_ne (by omega)]
    exact not_fits_after hs hh hkl (by omega) (by omega)
  rw [reserveKernel_cut hbefore (by omega) (hh.fits hbase), cutEntry_exact hbase, if_pos hlen]
  have hskip := reserveLoop_skip (n := 0) hafter (by omega)
  rw [Nat.zero_add] at hskip
  exact hskip

/-- **Cutting the kernel out.**  For every table the loader can make and every kernel, the first
    loop replaces the entry that holds the kernel by its pieces and leaves the others alone if and
    only if the kernel fills that entry and no available entry before it passes the test of the
    code. -/
theorem kernel_reserved (kernelPhys kernelSize : BitVec 32) (hs : t.Sorted n) (hi : i < n)
    (hh : HoldsKernel (kernEntry kernelPhys kernelSize) (t i))
    (hkl : (kernEntry kernelPhys kernelSize).lenLow ≠ 0#32) :
    Reserved (kernEntry kernelPhys kernelSize) t
        (reserveKernel (kernEntry kernelPhys kernelSize) t) i ↔
      (t i).baseLow = (kernEntry kernelPhys kernelSize).baseLow ∧
      (t i).lenLow = (kernEntry kernelPhys kernelSize).lenLow ∧
      ∀ j, j < i → ¬ Fits (kernEntry kernelPhys kernelSize) (t j) := by
  have hkern : (kernEntry kernelPhys kernelSize).type = 2#32 := rfl
  generalize kernEntry kernelPhys kernelSize = kern at *
  have hkl' : kern.lenLow.toNat ≠ 0 := fun h => hkl (BitVec.eq_of_toNat_eq h)
  have hi' : i < 61 := Nat.lt_of_lt_of_le hi hs.le
  have hend := Nat.le_trans hh.upto (hs.fits i hi)
  constructor
  · intro h
    have hbefore := h.unfit hi' hkern hkl' hend
    have hbase := h.base_eq hi' hh hkern hkl' hbefore
    exact ⟨hbase, h.len_eq hi' hh hkern hkl' hbefore hbase, hbefore⟩
  · rintro ⟨hbase, hlen, hbefore⟩
    rw [reserveKernel_exact hs hi hh hkl' hbase hlen hbefore]
    exact reserved_update hi' hbase hlen hkern hkl'

end Exact

/-! ### Two tables -/

/-- One available entry at 1 MiB. -/
def oneEntryMap (len : BitVec 32) : BootMap := fun j =>
  if j = 0 then ⟨⟨0x100000#32, len, 1#32⟩, 0#32, 0#32, 0#32⟩ else .zero

theorem oneEntryMap_sorted {len : BitVec 32} (hlen : 0x100000 + len.toNat ≤ 2 ^ 32) :
    (oneEntryMap len).Sorted 1 := by
  refine ⟨by decide, fun j hj _ => if_neg (by omega), fun i j hij hj => by omega, fun i hi => ?_⟩
  obtain rfl : i = 0 := by omega
  exact hlen

/-- A kernel of one page at 1 MiB, where just as much is available as it takes. -/
theorem kernel_reserved_demo : Reserved (kernEntry 0x100000#32 0x1000#32) (oneEntryMap 0x402000#32)
    (reserveKernel (kernEntry 0x100000#32 0x1000#32) (oneEntryMap 0x402000#32)) 0 :=
  (kernel_reserved 0x100000#32 0x1000#32 (oneEntryMap_sorted (by decide)) (by decide)
    ⟨rfl, by decide, by decide⟩ (by decide)).mpr ⟨rfl, rfl, fun j hj => absurd hj (by omega)⟩

/-- The same kernel where 16 MiB are available: what is left after it should begin at `0x502000`,
    and the entry the loop makes begins at `0x1108000`. -/
theorem kernel_reserved_scaled : (oneEntryMap 0x1000000#32).Sorted 1 ∧
    HoldsKernel (kernEntry 0x100000#32 0x1000#32) (oneEntryMap 0x1000000#32 0) ∧
    (reserveKernel (kernEntry 0x100000#32 0x1000#32) (oneEntryMap 0x1000000#32) 1).baseLow
      = 0x1108000#32 ∧
    ¬ Reserved (kernEntry 0x100000#32 0x1000#32) (oneEntryMap 0x1000000#32)
      (reserveKernel (kernEntry 0x100000#32 0x1000#32) (oneEntryMap 0x1000000#32)) 0 := by
  have hh : HoldsKernel (kernEntry 0x100000#32 0x1000#32) (oneEntryMap 0x1000000#32 0) :=
    ⟨rfl, by decide, by decide⟩
  refine ⟨oneEntryMap_sorted (by decide), hh, by decide +kernel, fun h => ?_⟩
  have hlen := h.len_eq (by decide) hh rfl (by decide) (fun j hj => absurd hj (by omega)) rfl
  exact absurd hlen (by decide)

end Leoman
