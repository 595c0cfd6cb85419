import Mathlib.Data.BitVec
import Mathlib.Tactic.Ring

namespace Leoman.ByteMem

/-!
# A 32-bit byte-addressed memory

`Mem` maps every 32-bit address to a byte; words are little endian and addresses wrap, as on
a 32-bit machine.

* `InRange x a n` — the address `x` is one of the `n` bytes that start at `a` (wrapping);
* `read32_write32_self` / `read32_write32_of_disjoint` — a stored word is read back, and a
  word whose bytes do not meet the stored ones is unchanged;
* `Stored m a bytes` — the bytes are in a row from `a` on;
* `copy` — the bytewise forward copy loop; `copy_apply` says what it leaves in every byte
  when the two ranges are disjoint.
-/

/-- A memory of bytes. -/
abbrev Mem := BitVec 32 → BitVec 8

/-- `x` is one of the `n` bytes starting at `a`; the range may wrap around the end. -/
def InRange (x a : BitVec 32) (n : Nat) : Prop := (x - a).toNat < n

instance (x a : BitVec 32) (n : Nat) : Decidable (InRange x a n) :=
  inferInstanceAs (Decidable ((x - a).toNat < n))

/-- The `k`-th byte of a range is in it. -/
theorem inRange_add {a : BitVec 32} {k n : Nat} (hk : k < n) (hk' : k < 2 ^ 32) :
    InRange (a + BitVec.ofNat 32 k) a n := by
  unfold InRange
  have h : a + BitVec.ofNat 32 k - a = BitVec.ofNat 32 k := by
    rw [BitVec.add_comm, BitVec.add_sub_cancel]
  rw [h, BitVec.toNat_ofNat, Nat.mod_eq_of_lt hk']
  exact hk

/-- Membership read off the addresses themselves, for a range that does not wrap. -/
theorem inRange_iff {x a : BitVec 32} {n : Nat} (h : a.toNat + n ≤ 2 ^ 32) :
    InRange x a n ↔ a.toNat ≤ x.toNat ∧ x.toNat < a.toNat + n := by
  unfold InRange
  rw [BitVec.toNat_sub]
  have := x.isLt
  have := a.isLt
  omega

/-! ### Words -/

/-- The little-endian word at `a`. -/
def read32 (m : Mem) (a : BitVec 32) : BitVec 32 :=
  m (a + 3#32) ++ m (a + 2#32) ++ m (a + 1#32) ++ m a

/-- Store the word `v` at `a`. -/
def write32 (m : Mem) (a v : BitVec 32) : Mem := fun x =>
  if InRange x a 4 then v.extractLsb' (8 * (x - a).toNat) 8 else m x

/-- Store one byte. -/
def write8 (m : Mem) (a : BitVec 32) (v : BitVec 8) : Mem := Function.update m a v

/-- The bytes outside the stored word are unchanged. -/
theorem write32_of_not_inRange {m : Mem} {a v x : BitVec 32} (h : ¬ InRange x a 4) :
    write32 m a v x = m x := if_neg h

/-- The bytes of the stored word. -/
theorem write32_add {m : Mem} {a v : BitVec 32} {k : Nat} (hk : k < 4) :
    write32 m a v (a + BitVec.ofNat 32 k) = v.extractLsb' (8 * k) 8 := by
  have hin : InRange (a + BitVec.ofNat 32 k) a 4 := inRange_add hk (by omega)
  have h : a + BitVec.ofNat 32 k - a = BitVec.ofNat 32 k := by
    rw [BitVec.add_comm, BitVec.add_sub_cancel]
  rw [write32, if_pos hin, h, BitVec.toNat_ofNat, Nat.mod_eq_of_lt (by omega)]

/-- A word is its four bytes. -/
theorem append_extract (v : BitVec 32) :
    v.extractLsb' 24 8 ++ v.extractLsb' 16 8 ++ v.extractLsb' 8 8 ++ v.extractLsb' 0 8 = v := by
  apply BitVec.eq_of_getLsbD_eq
  intro i hi
  simp only [BitVec.getLsbD_append, BitVec.getLsbD_extractLsb']
  by_cases h0 : i < 8
  · simp [h0]
  by_cases h1 : i < 16
  · simp [h0, show i - 8 < 8 by omega, show 8 + (i - 8) = i by omega]
  by_cases h2 : i < 24
  · simp [h0, show ¬ i - 8 < 8 by omega, show i - 8 - 8 < 8 by omega,
      show 16 + (i - 8 - 8) = i by omega]
  · simp [h0, show ¬ i - 8 < 8 by omega, show ¬ i - 8 - 8 < 8 by omega,
      show i - 8 - 8 - 8 < 8 by omega, show 24 + (i - 8 - 8 - 8) = i by omega]

/-- Reading back a stored word. -/
@[simp] theorem read32_write32_self (m : Mem) (a v : BitVec 32) :
    read32 (write32 m a v) a = v := by
  have h0 : write32 m a v a = v.extractLsb' 0 8 := by
    have := @write32_add m a v 0 (by omega)
    simpa using this
  have h1 : write32 m a v (a + 1#32) = v.extractLsb' 8 8 := write32_add (k := 1) (by omega)
  have h2 : write32 m a v (a + 2#32) = v.extractLsb' 16 8 := write32_add (k := 2) (by omega)
  have h3 : write32 m a v (a + 3#32) = v.extractLsb' 24 8 := write32_add (k := 3) (by omega)
  rw [read32, h0, h1, h2, h3, append_extract]

/-- A word stored byte by byte. -/
theorem write8_four (m : Mem) (a v : BitVec 32) :
    write8 (write8 (write8 (write8 m a (v.extractLsb' 0 8)) (a + 1#32) (v.extractLsb' 8 8))
      (a + 2#32) (v.extractLsb' 16 8)) (a + 3#32) (v.extractLsb' 24 8) = write32 m a v := by
  funext x
  by_cases hx : InRange x a 4
  · -- one of the four bytes: the last store to it wins, and they are all different
    obtain ⟨k, hk, rfl⟩ : ∃ k : Nat, k < 4 ∧ x = a + BitVec.ofNat 32 k := by
      refine ⟨(x - a).toNat, hx, ?_⟩
      rw [BitVec.ofNat_toNat, BitVec.setWidth_eq, BitVec.add_comm, BitVec.sub_add_cancel]
    rw [write32_add hk]
    have hk' : k = 0 ∨ k = 1 ∨ k = 2 ∨ k = 3 := by omega
    rcases hk' with rfl | rfl | rfl | rfl <;> simp [write8]
  · have hne : ∀ k : Nat, k < 4 → x ≠ a + BitVec.ofNat 32 k := by
      rintro k hk rfl
      exact hx (inRange_add hk (by omega))
    have h0 : x ≠ a := by
      have := hne 0 (by omega)
      rwa [BitVec.add_zero] at this
    rw [write32_of_not_inRange hx, write8, Function.update_of_ne (hne 3 (by omega)),
      write8, Function.update_of_ne (hne 2 (by omega)), write8,
      Function.update_of_ne (hne 1 (by omega)), write8, Function.update_of_ne h0]

/-- Two memories with the same four bytes at `a` hold the same word there. -/
theorem read32_congr {m m' : Mem} {a : BitVec 32} (h : ∀ x, InRange x a 4 → m x = m' x) :
    read32 m a = read32 m' a := by
  have h0 : m a = m' a := h a (by simp [InRange])
  have h1 : m (a + 1#32) = m' (a + 1#32) := h _ (inRange_add (k := 1) (by omega) (by omega))
  have h2 : m (a + 2#32) = m' (a + 2#32) := h _ (inRange_add (k := 2) (by omega) (by omega))
  have h3 : m (a + 3#32) = m' (a + 3#32) := h _ (inRange_add (k := 3) (by omega) (by omega))
  rw [read32, read32, h0, h1, h2, h3]

/-- A store leaves every word alone that shares no byte with the stored one. -/
theorem read32_write32_of_disjoint {m : Mem} {a b v : BitVec 32}
    (h : ∀ x, InRange x b 4 → ¬ InRange x a 4) : read32 (write32 m a v) b = read32 m b :=
  read32_congr fun x hx => write32_of_not_inRange (h x hx)

/-- Store words, in order. -/
def writeAll (m : Mem) (words : List (BitVec 32 × BitVec 32)) : Mem :=
  words.foldl (fun m w => write32 m w.1 w.2) m

/-- The bytes outside all stored words are unchanged. -/
theorem writeAll_of_not_inRange {m : Mem} {words : List (BitVec 32 × BitVec 32)} {x : BitVec 32}
    (h : ∀ w ∈ words, ¬ InRange x w.1 4) : writeAll m words x = m x := by
  induction words generalizing m with
  | nil => rfl
  | cons w words ih =>
    have hrest := ih (m := write32 m w.1 w.2) fun u hu => h u (List.mem_cons_of_mem w hu)
    rw [writeAll, List.foldl_cons, ← writeAll, hrest,
      write32_of_not_inRange (h w List.mem_cons_self)]

/-- Two ranges that follow one another, in either order. -/
def Apart (a : BitVec 32) (n : Nat) (b : BitVec 32) (k : Nat) : Prop :=
  a.toNat + n ≤ b.toNat ∨ b.toNat + k ≤ a.toNat

/-- Ranges apart share no byte. -/
theorem not_inRange_of_apart {a b x : BitVec 32} {n k : Nat} (ha : a.toNat + n ≤ 2 ^ 32)
    (hb : b.toNat + k ≤ 2 ^ 32) (h : Apart a n b k) (hx : InRange x b k) : ¬ InRange x a n := by
  unfold Apart at h
  rw [inRange_iff hb] at hx
  rw [inRange_iff ha]
  omega

/-- Two distinct word-aligned words share no byte. -/
theorem disjoint_of_aligned {a b x : BitVec 32} (ha : a.toNat % 4 = 0) (hb : b.toNat % 4 = 0)
    (hne : a ≠ b) (hx : InRange x b 4) : ¬ InRange x a 4 := by
  have hne' : a.toNat ≠ b.toNat := fun h => hne (BitVec.eq_of_toNat_eq h)
  have := a.isLt
  have := b.isLt
  rw [inRange_iff (by omega)] at hx
  rw [inRange_iff (by omega)]
  omega

/-- An aligned word is unchanged when none of the aligned words stored is it. -/
theorem read32_writeAll_of_ne {m : Mem} {words : List (BitVec 32 × BitVec 32)} {a : BitVec 32}
    (ha : a.toNat % 4 = 0) (h : ∀ w ∈ words, w.1.toNat % 4 = 0 ∧ w.1 ≠ a) :
    read32 (writeAll m words) a = read32 m a := by
  refine read32_congr fun x hx => writeAll_of_not_inRange fun w hw => ?_
  exact disjoint_of_aligned (h w hw).1 ha (h w hw).2 hx

/-- An aligned word is as before, or one of the aligned words stored. -/
theorem read32_writeAll_cases {m : Mem} {words : List (BitVec 32 × BitVec 32)} {a : BitVec 32}
    (ha : a.toNat % 4 = 0) (h : ∀ w ∈ words, w.1.toNat % 4 = 0) :
    read32 (writeAll m words) a = read32 m a ∨ ∃ w ∈ words, read32 (writeAll m words) a = w.2 := by
  induction words generalizing m with
  | nil => exact Or.inl rfl
  | cons w words ih =>
    have hrest := ih (m := write32 m w.1 w.2) fun u hu => h u (List.mem_cons_of_mem w hu)
    rw [writeAll, List.foldl_cons, ← writeAll]
    rcases hrest with hsame | ⟨u, hu, heq⟩
    · by_cases hw : w.1 = a
      · refine Or.inr ⟨w, List.mem_cons_self, ?_⟩
        rw [hsame, ← hw, read32_write32_self]
      · refine Or.inl (hsame.trans (read32_write32_of_disjoint fun x hx => ?_))
        exact disjoint_of_aligned (h w List.mem_cons_self) ha hw hx
    · exact Or.inr ⟨u, List.mem_cons_of_mem w hu, heq⟩

/-- The memory with the word `w a` at every aligned address `a`. -/
def ofWords (w : BitVec 32 → BitVec 32) : Mem := fun x =>
  (w (BitVec.ofNat 32 (x.toNat / 4 * 4))).extractLsb' (8 * (x.toNat % 4)) 8

theorem read32_ofWords (w : BitVec 32 → BitVec 32) {a : BitVec 32} (ha : a.toNat % 4 = 0) :
    read32 (ofWords w) a = w a := by
  have hbyte : ∀ {k : Nat}, k < 4 →
      ofWords w (a + BitVec.ofNat 32 k) = (w a).extractLsb' (8 * k) 8 := by
    intro k hk
    have hadd : (a + BitVec.ofNat 32 k).toNat = a.toNat + k := by
      rw [BitVec.toNat_add, BitVec.toNat_ofNat]
      omega
    have hword : BitVec.ofNat 32 ((a.toNat + k) / 4 * 4) = a := by
      apply BitVec.eq_of_toNat_eq
      rw [BitVec.toNat_ofNat]
      omega
    rw [ofWords, hadd, hword, show (a.toNat + k) % 4 = k by omega]
  have h₀ : ofWords w a = (w a).extractLsb' 0 8 := by
    have h := hbyte (k := 0) (by decide)
    rwa [BitVec.add_zero] at h
  have h₁ : ofWords w (a + 1#32) = (w a).extractLsb' 8 8 := hbyte (k := 1) (by decide)
  have h₂ : ofWords w (a + 2#32) = (w a).extractLsb' 16 8 := hbyte (k := 2) (by decide)
  have h₃ : ofWords w (a + 3#32) = (w a).extractLsb' 24 8 := hbyte (k := 3) (by decide)
  rw [read32, h₀, h₁, h₂, h₃, append_extract]

/-! ### Bytes in a row -/

/-- The memory has the bytes in a row from `a` on. -/
def Stored (m : Mem) (a : BitVec 32) (bytes : List (BitVec 8)) : Prop :=
  ∀ i b, bytes[i]? = some b → m (a + BitVec.ofNat 32 i) = b

section Stored

variable {m : Mem} {a : BitVec 32} {d e : List (BitVec 8)}

theorem Stored.left (h : Stored m a (d ++ e)) : Stored m a d := by
  intro i b hb
  refine h i b ?_
  rw [List.getElem?_append_left (List.getElem?_eq_some_iff.mp hb).1, hb]

theorem Stored.right (h : Stored m a (d ++ e)) : Stored m (a + BitVec.ofNat 32 d.length) e := by
  intro i b hb
  rw [BitVec.add_assoc, ← BitVec.ofNat_add]
  refine h (d.length + i) b ?_
  rw [List.getElem?_append_right (by omega), Nat.add_sub_cancel_left, hb]

theorem Stored.head {b : BitVec 8} (h : Stored m a (b :: d)) : m a = b := by
  have h₀ := h 0 b rfl
  rwa [BitVec.add_zero] at h₀

theorem Stored.tail {b : BitVec 8} (h : Stored m a (b :: d)) : Stored m (a + 1#32) d :=
  Stored.right (d := [b]) h

/-- The bytes matter only where they are. -/
theorem Stored.congr {m' : Mem} (h : Stored m a d) (hm : ∀ x, InRange x a d.length → m' x = m x) :
    Stored m' a d := by
  intro i b hb
  have hi := (List.getElem?_eq_some_iff.mp hb).1
  rw [hm _ ?_]
  · exact h i b hb
  · rw [InRange, BitVec.add_comm, BitVec.add_sub_cancel, BitVec.toNat_ofNat]
    exact Nat.lt_of_le_of_lt (Nat.mod_le i _) hi

/-- A memory that holds these bytes. -/
theorem stored_getD (a : BitVec 32) (b : BitVec 8) (h : d.length ≤ 2 ^ 32) :
    Stored (fun x => d.getD (x - a).toNat b) a d := by
  intro i v hv
  obtain ⟨hi, -⟩ := List.getElem?_eq_some_iff.mp hv
  have hindex : (a + BitVec.ofNat 32 i - a).toNat = i := by
    rw [BitVec.add_comm, BitVec.add_sub_cancel, BitVec.toNat_ofNat]
    exact Nat.mod_eq_of_lt (by omega)
  show d.getD (a + BitVec.ofNat 32 i - a).toNat b = v
  rw [hindex, List.getD_eq_getElem?_getD, hv, Option.getD_some]

/-- The word whose bytes are stored. -/
theorem Stored.read32 {v : BitVec 32} (h : Stored m a
    [v.extractLsb' 0 8, v.extractLsb' 8 8, v.extractLsb' 16 8, v.extractLsb' 24 8]) :
    read32 m a = v := by
  have h₁ : m (a + 1#32) = v.extractLsb' 8 8 := h 1 _ rfl
  have h₂ : m (a + 2#32) = v.extractLsb' 16 8 := h 2 _ rfl
  have h₃ : m (a + 3#32) = v.extractLsb' 24 8 := h 3 _ rfl
  rw [ByteMem.read32, h.head, h₁, h₂, h₃, append_extract]

end Stored

/-! ### Copying -/

/-- `while (len-- != 0) *dst++ = *src++` on one memory. -/
def copy (m : Mem) (dst src : BitVec 32) : Nat → Mem
  | 0 => m
  | n + 1 => copy (write8 m dst (m src)) (dst + 1#32) (src + 1#32) n

/-- A nonempty range is its first byte and the range after it. -/
theorem inRange_succ {x a : BitVec 32} {n : Nat} (hn : n < 2 ^ 32) :
    InRange x (a + 1#32) n ↔ InRange x a (n + 1) ∧ x ≠ a := by
  have hstep : x - (a + 1#32) = x - a - 1#32 := by ring
  have heq : x = a ↔ (x - a).toNat = 0 := by
    rw [← BitVec.toNat_inj, BitVec.toNat_sub]
    have := x.isLt
    have := a.isLt
    omega
  unfold InRange
  rw [hstep, ne_eq, heq, BitVec.toNat_sub (x - a)]
  have := (x - a).isLt
  simp only [BitVec.toNat_ofNat]
  omega

/-- A forward copy between disjoint ranges: the destination holds the source bytes, every
    other byte is unchanged. -/
theorem copy_apply {m : Mem} {dst src : BitVec 32} {n : Nat} (hn : n < 2 ^ 32)
    (hd : ∀ x, InRange x dst n → ¬ InRange x src n) (x : BitVec 32) :
    copy m dst src n x = if InRange x dst n then m (src + (x - dst)) else m x := by
  induction n generalizing m dst src with
  | zero => simp [copy, InRange]
  | succ n ih =>
    have hn' : n < 2 ^ 32 := by omega
    have hd' : ∀ x, InRange x (dst + 1#32) n → ¬ InRange x (src + 1#32) n := by
      intro y hy hy'
      rw [inRange_succ hn'] at hy hy'
      exact hd y hy.1 hy'.1
    have hsrc : src + 1#32 + (x - (dst + 1#32)) = src + (x - dst) := by ring
    rw [copy, ih hn' hd', hsrc]
    by_cases hx : x = dst
    · -- the first byte: stored by this iteration, not by the rest of the loop
      subst hx
      have h0 : ¬ InRange x (x + 1#32) n := by rw [inRange_succ hn']; simp
      have h1 : InRange x x (n + 1) := by simp [InRange]
      rw [if_neg h0, if_pos h1]
      simp [write8]
    · by_cases hin : InRange x (dst + 1#32) n
      · have h1 := ((inRange_succ hn').mp hin).1
        -- the source byte is not the destination byte stored just before
        have hne : src + (x - dst) ≠ dst := by
          intro he
          refine hd dst (by simp [InRange]) ?_
          rw [← he, InRange, BitVec.add_comm, BitVec.add_sub_cancel]
          exact h1
        rw [if_pos hin, if_pos h1, write8, Function.update_of_ne hne]
      · have h1 : ¬ InRange x dst (n + 1) := fun h => hin ((inRange_succ hn').mpr ⟨h, hx⟩)
        rw [if_neg hin, if_neg h1, write8, Function.update_of_ne hx]

end Leoman.ByteMem
