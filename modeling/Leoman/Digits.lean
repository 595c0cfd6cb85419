import Leoman.Lib.Numeral
import Leoman.Print

namespace Leoman.Print

open ByteMem ByteWriter Numeral

/-!
# What numbers look like (`putd`, `puthd`)

`putd` takes the digits off from the end, keeps them in an array and prints the array backwards;
`puthd` moves a mask of four bits down the word.

* `decimal`, `hexadecimal` — the digits, as characters;
* `putdBytes_eq` — `putd` prints the decimal numeral, unless there is no negative of the value;
* `puthdBytes_eq` — `puthd` prints eight hexadecimal digits;
* `numbers_invertible_iff` — what is printed is read back as the number.
-/

/-- `0` to `9`. -/
def decimal : Alphabet (BitVec 8) where
  symbols := (List.range 10).map fun d => BitVec.ofNat 8 (0x30 + d)
  nodup := by decide
  two_le := by decide

/-- `0` to `9` and `a` to `f`. -/
def hexadecimal : Alphabet (BitVec 8) where
  symbols := decimal.symbols ++ (List.range 6).map fun d => BitVec.ofNat 8 (0x61 + d)
  nodup := by decide
  two_le := by decide

/-- The character `-`. -/
def minus : BitVec 8 := 0x2d#8

/-- The cells of `out` that `putd` fills. -/
def putdCells (v : BitVec 32) : List (BitVec 32) :=
  if v = 0#32 then [] else putdLoop (if v.toInt < 0 then -v else v) []

/-- `putd` writes `out`, the decimal numeral of the value, and has the ten cells that it needs. -/
structure PutdRenders (w : Writer) (v : BitVec 32) (out : List (BitVec 8)) : Prop where
  writes : putd w v = w.putAll out
  canonical : decimal.IntCanonical minus out
  parses : decimal.readInt minus out = some v.toInt
  cells : (putdCells v).length ≤ 10

/-- `puthd` writes `out`, the value in eight hexadecimal digits. -/
structure PuthdRenders (w : Writer) (v : BitVec 32) (out : List (BitVec 8)) : Prop where
  writes : puthd w v = w.putAll out
  eight : out.length = 8
  digits : ∀ c ∈ out, c ∈ hexadecimal.symbols
  parses : hexadecimal.readNat out = some v.toNat

/-! ### Decimal -/

section Decimal

variable {v : BitVec 32} {out : List (BitVec 32)}

/-- A decimal digit is printed as its symbol. -/
theorem digit_decimal : ∀ d < 10, digit ((BitVec.ofNat 32 d).setWidth 8) = decimal.symbol d := by
  decide

/-- **The loop of `putd`** fills the cells with the decimal digits, the last one first. -/
theorem putdLoop_eq (hv : v.toNat < 2 ^ 31) :
    putdLoop v out = out ++ (Nat.digits 10 v.toNat).map (BitVec.ofNat 32) := by
  induction hn : v.toNat using Nat.strong_induction_on generalizing v out with
  | _ n ih =>
    have hmsb : v.msb = false := BitVec.msb_eq_false_iff_two_mul_lt.mpr (by omega)
    have hint : v.toInt = v.toNat := BitVec.toInt_eq_toNat_of_msb hmsb
    rw [putdLoop]
    by_cases hpos : 0 < n
    · -- one digit, and those of a tenth
      have h10 : (10#32).msb = false := by decide
      have hdiv : (v.sdiv 10#32).toNat = n / 10 := by
        simp [BitVec.sdiv, hmsb, h10, hn]
      have hrem : v.srem 10#32 = BitVec.ofNat 32 (n % 10) := by
        apply BitVec.eq_of_toNat_eq
        simp [BitVec.srem, hmsb, h10, hn]
        omega
      rw [if_pos (by omega), ih (n / 10) (by omega) (by omega) hdiv, hrem,
        Nat.digits_def' (by decide) hpos, List.map_cons, List.append_assoc]
      rfl
    · have hzero : n = 0 := by omega
      rw [if_neg (by omega), hzero, Nat.digits_zero, List.map_nil, List.append_nil]

/-- The value without its sign; the least value has none. -/
theorem magnitude (hv : v ≠ BitVec.intMin 32) :
    (if v.toInt < 0 then -v else v).toNat = v.toInt.natAbs ∧ v.toInt.natAbs < 2 ^ 31 := by
  have hne : v.toNat ≠ 2 ^ 31 := fun h => hv (BitVec.eq_of_toNat_eq h)
  have hlt := v.isLt
  have hint := BitVec.toInt_eq_toNat_cond v
  by_cases hneg : v.toInt < 0
  · rw [if_pos hneg, BitVec.toNat_neg]
    split at hint <;> omega
  · rw [if_neg hneg]
    split at hint <;> omega

/-- **`putd` prints the decimal numeral** of every value but the least. -/
theorem putdBytes_eq (hv : v ≠ BitVec.intMin 32) :
    putdBytes v = decimal.intNumeral minus v.toInt := by
  obtain ⟨hmag, hlt⟩ := magnitude hv
  have hsymbols : ∀ u : BitVec 32, u.toNat = v.toInt.natAbs → u ≠ 0#32 →
      (putdLoop u []).reverse.map (fun d => digit (d.setWidth 8))
        = decimal.numeral v.toInt.natAbs := by
    intro u hu hne
    have hpos : v.toInt.natAbs ≠ 0 := fun h =>
      hne (BitVec.eq_of_toNat_eq (hu.trans h))
    rw [putdLoop_eq (by omega), hu, List.nil_append, ← List.map_reverse, List.map_map,
      Alphabet.numeral, if_neg hpos]
    apply List.map_congr_left
    intro d hd
    exact digit_decimal d (Nat.digits_lt_base (by decide) (List.mem_reverse.mp hd))
  unfold putdBytes Alphabet.intNumeral
  by_cases hzero : v = 0#32
  · subst hzero
    decide
  · rw [if_neg hzero]
    by_cases hneg : v.toInt < 0
    · rw [if_pos hneg] at hmag
      have hne : -v ≠ 0#32 := fun h => hzero (BitVec.neg_eq_zero_iff.mp h)
      rw [if_pos hneg, if_pos hneg, hsymbols _ hmag hne]
      rfl
    · rw [if_neg hneg] at hmag
      rw [if_neg hneg, if_neg hneg, hsymbols _ hmag hzero]

/-- Of the least value only the sign is printed. -/
theorem putdBytes_intMin : putdBytes (BitVec.intMin 32) = [minus] := by
  have hneg : -BitVec.intMin 32 = BitVec.intMin 32 := by decide
  unfold putdBytes
  rw [if_neg (by decide), if_pos (by decide), hneg, putdLoop, if_neg (by decide)]
  rfl

/-- No value has more than ten digits. -/
theorem putdCells_length (v : BitVec 32) : (putdCells v).length ≤ 10 := by
  unfold putdCells
  by_cases hzero : v = 0#32
  · rw [if_pos hzero]
    exact Nat.zero_le _
  · rw [if_neg hzero]
    by_cases hmin : v = BitVec.intMin 32
    · -- the loop does not even begin
      subst hmin
      have hneg : -BitVec.intMin 32 = BitVec.intMin 32 := by decide
      rw [if_pos (by decide), hneg, putdLoop, if_neg (by decide)]
      exact Nat.zero_le _
    · obtain ⟨hmag, hlt⟩ := magnitude hmin
      rw [putdLoop_eq (by omega), List.nil_append, List.length_map,
        Nat.digits_length_le_iff (by decide)]
      omega

/-- The least value is not rendered: a sign alone is no numeral. -/
theorem not_putdRenders_intMin (w : Writer) (out : List (BitVec 8)) :
    ¬ PutdRenders w (BitVec.intMin 32) out := by
  intro h
  have hwrites := h.writes
  rw [putd_eq, putdBytes_intMin] at hwrites
  have hlen := congrArg (fun w => w.written.length) hwrites
  simp only [Writer.length_written_putAll, List.length_singleton] at hlen
  obtain ⟨c, rfl⟩ : ∃ c, out = [c] := List.length_eq_one_iff.mp (by omega)
  have hnonneg := readInt_singleton_nonneg h.parses
  exact absurd hnonneg (by decide)

end Decimal

/-! ### Hexadecimal -/

section Hexadecimal

variable {v : BitVec 32} {k : Nat}

/-- A hexadecimal digit is printed as its symbol. -/
theorem digit_hexadecimal :
    ∀ d < 16, digit ((BitVec.ofNat 32 d).setWidth 8) = hexadecimal.symbol d := by
  decide

/-- Four bits of the value, where the mask and the count of shifts have come to. -/
theorem masked_eq (hk : k < 8) :
    (0xf0000000#32 >>> (4 * k) &&& v) >>> (28 - 4 * k)
      = BitVec.ofNat 32 (v.toNat / 16 ^ (7 - k) % 16) := by
  have hmask : ∀ j < 32, (0xf0000000#32).getLsbD (28 + j) = decide (j < 4) := by decide
  have hbits : (0xf0000000#32 >>> (4 * k) &&& v) >>> (28 - 4 * k)
      = (v >>> (28 - 4 * k)) &&& 15#32 := by
    have hlow : ∀ j < 32, (15#32).getLsbD j = decide (j < 4) := by decide
    apply BitVec.eq_of_getLsbD_eq
    intro j hj
    have hplace : 4 * k + (28 - 4 * k + j) = 28 + j := by omega
    rw [BitVec.getLsbD_ushiftRight, BitVec.getLsbD_and, BitVec.getLsbD_and,
      BitVec.getLsbD_ushiftRight, BitVec.getLsbD_ushiftRight, hplace, hmask j hj, hlow j hj,
      Bool.and_comm]
  have hpow : 16 ^ (7 - k) = 2 ^ (28 - 4 * k) := by
    rw [show 28 - 4 * k = 4 * (7 - k) by omega, pow_mul]
    rfl
  have hlt : v.toNat / 16 ^ (7 - k) % 16 < 16 := Nat.mod_lt _ (by decide)
  apply BitVec.eq_of_toNat_eq
  rw [hbits, BitVec.toNat_and, BitVec.toNat_ushiftRight, Nat.shiftRight_eq_div_pow, ← hpow,
    BitVec.toNat_ofNat (v.toNat / 16 ^ (7 - k) % 16),
    Nat.mod_eq_of_lt (Nat.lt_trans hlt (by decide))]
  exact Nat.and_two_pow_sub_one_eq_mod _ 4

/-- **`puthd` prints eight hexadecimal digits.** -/
theorem puthdBytes_eq (v : BitVec 32) : puthdBytes v = hexadecimal.fixed 8 v.toNat := by
  have hrev : (List.range 8).reverse = (List.range 8).map fun k => 7 - k := by decide
  rw [puthdBytes, Alphabet.fixed, Alphabet.word, ← List.map_reverse, hrev, List.map_map,
    List.map_map]
  apply List.map_congr_left
  intro k hk
  rw [masked_eq (List.mem_range.mp hk)]
  exact digit_hexadecimal _ (Nat.mod_lt _ (by decide))

end Hexadecimal

/-- **Numbers are read back.**  What `putd` writes is the decimal numeral of the value, for every
    value but the least, and what `puthd` writes are its eight hexadecimal digits. -/
theorem numbers_invertible_iff (w : Writer) (v : BitVec 32) :
    ((∃ out, PutdRenders w v out) ↔ v ≠ BitVec.intMin 32) ∧ ∃ out, PuthdRenders w v out := by
  refine ⟨⟨?_, fun hv => ⟨putdBytes v, putd_eq w v, ?_, ?_, putdCells_length v⟩⟩,
    puthdBytes v, puthd_eq w v, puthdBytes_length v, ?_, ?_⟩
  · rintro ⟨out, h⟩ rfl
    exact not_putdRenders_intMin w out h
  · rw [putdBytes_eq hv]
    exact intNumeral_canonical decimal minus _
  · rw [putdBytes_eq hv]
    exact readInt_intNumeral (by decide) _
  · intro c hc
    rw [puthdBytes_eq] at hc
    exact mem_word hc
  · rw [puthdBytes_eq]
    exact readNat_fixed (by decide) v.isLt

/-- Of `-2147483648` only the sign is printed. -/
theorem least_value_not_printed :
    ¬ ∀ (w : Writer) (v : BitVec 32), (∃ out, PutdRenders w v out) ∧
      ∃ out, PuthdRenders w v out := by
  intro h
  obtain ⟨⟨out, hout⟩, -⟩ := h ⟨fun _ => 0#8, 0#32, []⟩ (BitVec.intMin 32)
  exact not_putdRenders_intMin _ out hout

end Leoman.Print
