import Mathlib.Data.Nat.Digits.Lemmas

namespace Leoman.Numeral

/-!
# Numerals

Numbers as words over an alphabet of digits, the most significant digit first.

* `Alphabet` — symbols that differ, two at least; each stands for its place among them;
* `readNat`, `readInt` — the number that a word stands for, without a sign and with one;
* `numeral`, `intNumeral` — the numerals of a number, without leading zeros;
* `fixed` — as many digits as are asked for, leading zeros included;
* `readInt_intNumeral`, `readNat_fixed` — they are read back;
* `Canonical`, `intNumeral_canonical` — what it is to have no leading zeros.
-/

/-- The symbols of the digits, from zero on. -/
structure Alphabet (α : Type) where
  symbols : List α
  nodup : symbols.Nodup
  two_le : 2 ≤ symbols.length

section Alphabet

variable {α : Type} (A : Alphabet α)

/-- The number of digits. -/
def Alphabet.base : Nat := A.symbols.length

/-- A base of two or more is above one. -/
theorem Alphabet.one_lt_base : 1 < A.base := A.two_le

/-- The symbol of a digit. -/
def Alphabet.symbol (d : Nat) : α :=
  A.symbols.get ⟨d % A.base, Nat.mod_lt _ (Nat.lt_of_lt_of_le Nat.zero_lt_two A.two_le)⟩

/-- The word of digits. -/
def Alphabet.word (ds : List Nat) : List α := ds.map A.symbol

/-- The numeral of a number. -/
def Alphabet.numeral (n : Nat) : List α :=
  if n = 0 then A.word [0] else A.word (Nat.digits A.base n).reverse

/-- The numeral of an integer. -/
def Alphabet.intNumeral (minus : α) (z : Int) : List α :=
  if z < 0 then minus :: A.numeral z.natAbs else A.numeral z.natAbs

/-- The last `w` digits of a number. -/
def Alphabet.fixed (w n : Nat) : List α :=
  A.word ((List.range w).map fun k => n / A.base ^ k % A.base).reverse

/-- Digits, and no leading zero unless it is the only one. -/
structure Alphabet.Canonical (s : List α) : Prop where
  digits : ∀ c ∈ s, c ∈ A.symbols
  ne_nil : s ≠ []
  lead : s.head? = some (A.symbol 0) → s.length = 1

/-- With a sign, which zero does not have. -/
def Alphabet.IntCanonical (minus : α) (s : List α) : Prop :=
  A.Canonical s ∨ ∃ t, s = minus :: t ∧ A.Canonical t ∧ t ≠ [A.symbol 0]

end Alphabet

/-! ### Reading -/

section Reading

variable {α : Type} [DecidableEq α] (A : Alphabet α)

/-- Read digits behind those that have been read as `n`. -/
def Alphabet.readFrom : Nat → List α → Option Nat
  | n, [] => some n
  | n, c :: s =>
    if c ∈ A.symbols then Alphabet.readFrom (A.symbols.idxOf c + A.base * n) s else none

/-- Read a number. -/
def Alphabet.readNat (s : List α) : Option Nat := if s = [] then none else A.readFrom 0 s

/-- Read an integer. -/
def Alphabet.readInt (minus : α) (s : List α) : Option Int :=
  if s.head? = some minus then (A.readNat s.tail).map fun n : Nat => -(n : Int)
  else (A.readNat s).map fun n : Nat => (n : Int)

end Reading

/-! ### Words of digits -/

section Words

variable {α : Type} {A : Alphabet α} {ds : List Nat} {d n w : Nat}

/-- A digit is written with a symbol of the alphabet. -/
theorem symbol_mem : A.symbol d ∈ A.symbols := List.get_mem _ _

/-- The symbol of a digit below the base is the one with its number. -/
theorem symbol_of_lt (h : d < A.symbols.length) : A.symbol d = A.symbols[d] := by
  have hmod : d % A.base = d := Nat.mod_eq_of_lt h
  simp only [Alphabet.symbol, List.get_eq_getElem, hmod]

/-- Different digits have different symbols. -/
theorem symbol_inj {e : Nat} (hd : d < A.base) (he : e < A.base) (h : A.symbol d = A.symbol e) :
    d = e := by
  rw [symbol_of_lt hd, symbol_of_lt he] at h
  exact (A.nodup.getElem_inj_iff).mp h

/-- A symbol for each digit. -/
theorem length_word : (A.word ds).length = ds.length := List.length_map _

/-- All of them are of the alphabet. -/
theorem mem_word {c : α} (h : c ∈ A.word ds) : c ∈ A.symbols := by
  obtain ⟨d, -, rfl⟩ := List.mem_map.mp h
  exact symbol_mem

/-- The last digits are the number, if they are enough. -/
theorem ofDigits_range (b n w : Nat) :
    Nat.ofDigits b ((List.range w).map fun k => n / b ^ k % b) = n % b ^ w := by
  induction w with
  | zero => rw [List.range_zero, List.map_nil, Nat.ofDigits_nil, pow_zero, Nat.mod_one]
  | succ w ih =>
    rw [List.range_succ, List.map_append, List.map_singleton, Nat.ofDigits_append, ih,
      Nat.ofDigits_singleton, List.length_map, List.length_range, Nat.mod_pow_succ]

/-- Every number has a digit, zero too. -/
theorem numeral_ne_nil : A.numeral n ≠ [] := by
  unfold Alphabet.numeral
  split
  · exact List.cons_ne_nil _ _
  · rename_i hn
    have hdigits : Nat.digits A.base n ≠ [] := Nat.digits_ne_nil_iff_ne_zero.mpr hn
    intro h
    exact hdigits (List.reverse_eq_nil_iff.mp (List.map_eq_nil_iff.mp h))

/-- A numeral is written in the alphabet. -/
theorem mem_numeral {c : α} (h : c ∈ A.numeral n) : c ∈ A.symbols := by
  unfold Alphabet.numeral at h
  split at h
  · exact mem_word h
  · exact mem_word h

/-- The first digit of a numeral is its most significant one. -/
theorem numeral_head (hn : n ≠ 0) : (A.numeral n).head? ≠ some (A.symbol 0) := by
  have hne : Nat.digits A.base n ≠ [] := Nat.digits_ne_nil_iff_ne_zero.mpr hn
  have hlast := Nat.getLast_digit_ne_zero A.base hn
  have hlt : (Nat.digits A.base n).getLast hne < A.base :=
    Nat.digits_lt_base A.one_lt_base (List.getLast_mem hne)
  intro h
  rw [Alphabet.numeral, if_neg hn, Alphabet.word, List.head?_map, List.head?_reverse,
    List.getLast?_eq_some_getLast hne, Option.map_some, Option.some.injEq] at h
  exact hlast (symbol_inj hlt (Nat.lt_trans Nat.zero_lt_one A.one_lt_base) h)

/-- **Numerals have no leading zeros.** -/
theorem numeral_canonical (A : Alphabet α) (n : Nat) : A.Canonical (A.numeral n) where
  digits _ := mem_numeral
  ne_nil := numeral_ne_nil
  lead h := by
    by_cases hn : n = 0
    · rw [Alphabet.numeral, if_pos hn, length_word, List.length_singleton]
    · exact absurd h (numeral_head hn)

/-- **Nor have those with a sign.** -/
theorem intNumeral_canonical (A : Alphabet α) (minus : α) (z : Int) :
    A.IntCanonical minus (A.intNumeral minus z) := by
  unfold Alphabet.intNumeral
  split
  · rename_i hz
    refine Or.inr ⟨_, rfl, numeral_canonical A _, fun h => ?_⟩
    have hhead := numeral_head (A := A) (n := z.natAbs) (by omega)
    rw [h] at hhead
    exact hhead rfl
  · exact Or.inl (numeral_canonical A _)

end Words

/-! ### Round trips -/

section RoundTrips

variable {α : Type} [DecidableEq α] {A : Alphabet α} {ds : List Nat} {d n w : Nat} {minus : α}

/-- A symbol tells its digit. -/
theorem idxOf_symbol (hd : d < A.base) : A.symbols.idxOf (A.symbol d) = d := by
  rw [symbol_of_lt hd]
  exact A.nodup.idxOf_getElem d hd

/-- **Run lemma.**  Digits are read one after the other. -/
theorem readFrom_word (hds : ∀ d ∈ ds, d < A.base) :
    A.readFrom n (A.word ds) = some (ds.foldl (fun n d => d + A.base * n) n) := by
  induction ds generalizing n with
  | nil => rfl
  | cons d ds ih =>
    have hd : d < A.base := hds d List.mem_cons_self
    rw [Alphabet.word, List.map_cons, Alphabet.readFrom, if_pos symbol_mem, idxOf_symbol hd]
    exact ih fun e he => hds e (List.mem_cons_of_mem _ he)

/-- A word is read as the number of its digits. -/
theorem readNat_word (hds : ∀ d ∈ ds, d < A.base) (hne : ds ≠ []) :
    A.readNat (A.word ds.reverse) = some (Nat.ofDigits A.base ds) := by
  have hword : A.word ds.reverse ≠ [] := fun h =>
    hne (List.reverse_eq_nil_iff.mp (List.map_eq_nil_iff.mp h))
  rw [Alphabet.readNat, if_neg hword, readFrom_word fun d hd => hds d (List.mem_reverse.mp hd),
    List.foldl_reverse, Nat.ofDigits_eq_foldr]
  rfl

/-- **Round trip**: a numeral reads as its number. -/
theorem readNat_numeral : A.readNat (A.numeral n) = some n := by
  unfold Alphabet.numeral
  split
  · rename_i hn
    have hzero : ∀ d ∈ [0], d < A.base := by
      intro d hd
      rw [List.mem_singleton.mp hd]
      exact Nat.lt_trans Nat.zero_lt_one A.one_lt_base
    rw [hn]
    exact readNat_word hzero (List.cons_ne_nil _ _)
  · rename_i hn
    rw [readNat_word (fun d hd => Nat.digits_lt_base A.one_lt_base hd)
      (Nat.digits_ne_nil_iff_ne_zero.mpr hn), Nat.ofDigits_digits]

/-- **Numerals are read back.** -/
theorem readInt_intNumeral (hminus : minus ∉ A.symbols) (z : Int) :
    A.readInt minus (A.intNumeral minus z) = some z := by
  unfold Alphabet.intNumeral
  split
  · rename_i hz
    rw [Alphabet.readInt, if_pos (List.head?_cons ..), List.tail_cons, readNat_numeral,
      Option.map_some]
    congr 1
    omega
  · rename_i hz
    have hhead : (A.numeral z.natAbs).head? ≠ some minus := fun h =>
      hminus (mem_numeral (List.mem_of_mem_head? h))
    rw [Alphabet.readInt, if_neg hhead, readNat_numeral, Option.map_some]
    congr 1
    omega

/-- **As many digits as are asked for** are read back, if they are enough. -/
theorem readNat_fixed (hw : w ≠ 0) (hn : n < A.base ^ w) : A.readNat (A.fixed w n) = some n := by
  have hne : ((List.range w).map fun k => n / A.base ^ k % A.base) ≠ [] := by
    intro h
    have hlen := congrArg List.length h
    rw [List.length_map, List.length_range] at hlen
    exact hw hlen
  have hlt : ∀ d ∈ (List.range w).map (fun k => n / A.base ^ k % A.base), d < A.base := by
    intro d hd
    obtain ⟨k, -, rfl⟩ := List.mem_map.mp hd
    exact Nat.mod_lt _ (Nat.lt_trans Nat.zero_lt_one A.one_lt_base)
  rw [Alphabet.fixed, readNat_word hlt hne, ofDigits_range, Nat.mod_eq_of_lt hn]

/-- A single symbol is never read as a negative number. -/
theorem readInt_singleton_nonneg {c : α} {z : Int} (h : A.readInt minus [c] = some z) : 0 ≤ z := by
  unfold Alphabet.readInt at h
  split at h
  · cases h
  · obtain ⟨n, -, rfl⟩ := Option.map_eq_some_iff.mp h
    exact Int.natCast_nonneg n

end RoundTrips

end Leoman.Numeral
