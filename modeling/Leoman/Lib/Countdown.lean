import Leoman.Lib.ByteMem
import Mathlib.Logic.Function.Iterate

namespace Leoman.Countdown

open ByteMem

/-!
# Loops that count down, and the words they move

A loop that decrements its counter and then tests it makes a round for every value down to zero,
and for the value zero as many as the counter has values.

* `doLoop` — the loop; `rounds` — how many rounds it makes; `doLoop_eq` — it makes these;
* `WordMove`, `WordMove.iterate` — a loop that moves words to a range apart from the source;
* `WordFill`, `WordFill.iterate` — a loop that stores the same word over and over.
-/

section Loop

variable {σ : Type} {w : Nat}

/-- The number of rounds for a counter. -/
def rounds (n : BitVec w) : Nat := if n.toNat = 0 then 2 ^ w else n.toNat

/-- Make a round, decrement the counter, go on unless it is zero; no more than a number of
    times. -/
def countdown (body : σ → σ) : Nat → BitVec w → σ → σ
  | 0, _, s => s
  | k + 1, n, s => if n - 1#w = 0#w then body s else countdown body k (n - 1#w) (body s)

/-- The loop.  The counter is zero after `2 ^ w` rounds at the latest. -/
def doLoop (body : σ → σ) (n : BitVec w) (s : σ) : σ := countdown body (2 ^ w) n s

theorem rounds_pos (n : BitVec w) : 1 ≤ rounds n := by
  unfold rounds
  split
  · exact Nat.one_le_two_pow
  · omega

theorem rounds_le (n : BitVec w) : rounds n ≤ 2 ^ w := by
  have := n.isLt
  unfold rounds
  split <;> omega

/-- The counter is tested after it is decremented. -/
theorem rounds_sub_one (hw : 0 < w) (n : BitVec w) :
    (n - 1#w = 0#w ∧ rounds n = 1) ∨
      (n - 1#w ≠ 0#w ∧ rounds n = rounds (n - 1#w) + 1) := by
  have hlt := n.isLt
  have htwo : 2 ≤ 2 ^ w := by
    calc 2 = 2 ^ 1 := rfl
      _ ≤ 2 ^ w := Nat.pow_le_pow_right (by decide) hw
  have hsub : (n - 1#w).toNat = (2 ^ w - 1 + n.toNat) % 2 ^ w := by
    rw [BitVec.toNat_sub, BitVec.toNat_ofNat, Nat.mod_eq_of_lt (show 1 < 2 ^ w by omega)]
  have hzero : n - 1#w = 0#w ↔ (n - 1#w).toNat = 0 := by
    rw [← BitVec.toNat_inj, BitVec.toNat_ofNat, Nat.zero_mod]
  rw [ne_eq, hzero, rounds, rounds, hsub]
  by_cases hn : n.toNat = 0
  · rw [hn, Nat.add_zero, Nat.mod_eq_of_lt (by omega), if_pos rfl, if_neg (by omega)]
    exact Or.inr ⟨by omega, by omega⟩
  · have hmod : (2 ^ w - 1 + n.toNat) % 2 ^ w = n.toNat - 1 := by
      rw [Nat.mod_eq_sub_mod (by omega), Nat.mod_eq_of_lt (by omega)]
      omega
    rw [hmod, if_neg hn]
    by_cases h1 : n.toNat = 1
    · exact Or.inl ⟨by omega, h1⟩
    · rw [if_neg (by omega)]
      exact Or.inr ⟨by omega, by omega⟩

/-- **The loop makes its rounds.** -/
theorem doLoop_eq (hw : 0 < w) (body : σ → σ) (n : BitVec w) (s : σ) :
    doLoop body n s = body^[rounds n] s := by
  have hcount : ∀ k (n : BitVec w) s, rounds n ≤ k → countdown body k n s = body^[rounds n] s := by
    intro k
    induction k with
    | zero => exact fun n _ h => absurd (rounds_pos n) (by omega)
    | succ k ih =>
      intro n s hk
      rw [countdown]
      rcases rounds_sub_one hw n with ⟨hz, hr⟩ | ⟨hz, hr⟩
      · rw [if_pos hz, hr]
        rfl
      · rw [if_neg hz, hr, Function.iterate_succ_apply]
        exact ih (n - 1#w) (body s) (by omega)
  exact hcount _ n s (rounds_le n)

/-- **Loop rule.**  What holds at first, and is kept by every round, holds at the end. -/
theorem doLoop_invariant (hw : 0 < w) {J : Nat → σ → Prop} {body : σ → σ} {n : BitVec w} {s : σ}
    (h₀ : J 0 s) (hstep : ∀ k < rounds n, ∀ s, J k s → J (k + 1) (body s)) :
    J (rounds n) (doLoop body n s) := by
  rw [doLoop_eq hw]
  have hrun : ∀ k ≤ rounds n, J k (body^[k] s) := by
    intro k
    induction k with
    | zero => exact fun _ => h₀
    | succ k ih =>
      intro hk
      rw [Function.iterate_succ_apply']
      exact hstep k (by omega) _ (ih (by omega))
  exact hrun _ (Nat.le_refl _)

end Loop

/-! ### Words -/

section Words

variable {m : Mem} {a b v x : BitVec 32}

/-- A part of a range. -/
theorem inRange_part {k n : Nat} (h : k + n ≤ 2 ^ 32) :
    InRange x (a + BitVec.ofNat 32 k) n ↔ k ≤ (x - a).toNat ∧ (x - a).toNat < k + n := by
  by_cases hn : n = 0
  · subst hn
    unfold InRange
    omega
  have hsub : x - (a + BitVec.ofNat 32 k) = x - a - BitVec.ofNat 32 k := by ring
  have := (x - a).isLt
  unfold InRange
  rw [hsub, BitVec.toNat_sub, BitVec.toNat_ofNat, Nat.mod_eq_of_lt (show k < 2 ^ 32 by omega)]
  omega

/-- The bytes of a word that was read. -/
theorem read32_byte (m : Mem) (a : BitVec 32) {k : Nat} (hk : k < 4) :
    (read32 m a).extractLsb' (8 * k) 8 = m (a + BitVec.ofNat 32 k) := by
  have hk' : k = 0 ∨ k = 1 ∨ k = 2 ∨ k = 3 := by omega
  apply BitVec.eq_of_getLsbD_eq
  intro i hi
  rw [read32, BitVec.getLsbD_extractLsb']
  simp only [BitVec.getLsbD_append]
  rcases hk' with rfl | rfl | rfl | rfl
  · simp [hi]
  · simp [hi, show ¬ 8 + i < 8 by omega, show 8 + i - 8 = i by omega]
  · simp [hi, show ¬ 16 + i < 8 by omega, show ¬ 16 + i - 8 < 8 by omega,
      show 16 + i - 8 - 8 = i by omega]
  · simp [hi, show ¬ 24 + i < 8 by omega, show ¬ 24 + i - 8 < 8 by omega,
      show ¬ 24 + i - 8 - 8 < 8 by omega, show 24 + i - 8 - 8 - 8 = i by omega]

/-- A word moved. -/
theorem write32_read32 (m : Mem) (a b x : BitVec 32) :
    write32 m a (read32 m b) x = if InRange x a 4 then m (b + (x - a)) else m x := by
  unfold write32
  split
  · rename_i hx
    rw [read32_byte m b hx, BitVec.ofNat_toNat, BitVec.setWidth_eq]
  · rfl

/-- A pointer that is advanced by the size of a word each time. -/
theorem pointer_next (a : BitVec 32) (n : Nat) :
    a + BitVec.ofNat 32 (4 * n) + 4#32 = a + BitVec.ofNat 32 (4 * (n + 1)) := by
  rw [BitVec.add_assoc, Nat.mul_succ, BitVec.ofNat_add]

/-- A loop that moves words. -/
structure WordMove where
  mem : Mem
  src : BitVec 32
  dst : BitVec 32

/-- One word. -/
def WordMove.next (s : WordMove) : WordMove :=
  ⟨write32 s.mem s.dst (read32 s.mem s.src), s.src + 4#32, s.dst + 4#32⟩

/-- **Words moved.**  Between ranges apart, the destination has the bytes of the source. -/
theorem WordMove.iterate (s : WordMove) {n : Nat} (hn : 4 * n ≤ 2 ^ 32)
    (hd : ∀ x, InRange x s.dst (4 * n) → ¬ InRange x s.src (4 * n)) :
    WordMove.next^[n] s = ⟨fun x => if InRange x s.dst (4 * n) then s.mem (s.src + (x - s.dst))
      else s.mem x, s.src + BitVec.ofNat 32 (4 * n), s.dst + BitVec.ofNat 32 (4 * n)⟩ := by
  induction n with
  | zero =>
    have hnot : ∀ x, ¬ InRange x s.dst (4 * 0) := fun x h => absurd h (by simp [InRange])
    simp only [hnot, if_false]
    rw [Function.iterate_zero_apply, Nat.mul_zero, BitVec.add_zero, BitVec.add_zero]
  | succ n ih =>
    have hsub : ∀ {x a : BitVec 32}, InRange x a (4 * n) → InRange x a (4 * (n + 1)) := by
      intro x a hx
      unfold InRange at *
      omega
    rw [Function.iterate_succ_apply', ih (by omega) fun x hx hx' => hd x (hsub hx) (hsub hx'),
      WordMove.next, WordMove.mk.injEq]
    refine ⟨funext fun x => ?_, pointer_next _ n, pointer_next _ n⟩
    have hsrc : s.src + BitVec.ofNat 32 (4 * n) + (x - (s.dst + BitVec.ofNat 32 (4 * n)))
        = s.src + (x - s.dst) := by ring
    rw [write32_read32, hsrc]
    by_cases hlast : InRange x (s.dst + BitVec.ofNat 32 (4 * n)) 4
    · have hx : InRange x s.dst (4 * (n + 1)) := ((inRange_part (by omega)).mp hlast).2
      -- the byte moved is none of those stored so far
      have hnot : ¬ InRange (s.src + (x - s.dst)) s.dst (4 * n) := by
        intro hin
        refine hd _ (hsub hin) ?_
        rw [InRange, BitVec.add_comm, BitVec.add_sub_cancel]
        exact hx
      rw [if_pos hlast, if_pos hx]
      exact if_neg hnot
    · rw [if_neg hlast]
      have hiff : InRange x s.dst (4 * (n + 1)) ↔ InRange x s.dst (4 * n) := by
        rw [inRange_part (by omega)] at hlast
        unfold InRange
        omega
      simp only [hiff]

/-- A loop that stores the word `v`. -/
structure WordFill where
  mem : Mem
  dst : BitVec 32

/-- One word. -/
def WordFill.next (v : BitVec 32) (s : WordFill) : WordFill :=
  ⟨write32 s.mem s.dst v, s.dst + 4#32⟩

/-- **Words stored.**  The range has the bytes of the word, over and over. -/
theorem WordFill.iterate (v : BitVec 32) (s : WordFill) {n : Nat} (hn : 4 * n ≤ 2 ^ 32) :
    (WordFill.next v)^[n] s = ⟨fun x => if InRange x s.dst (4 * n) then
      v.extractLsb' (8 * ((x - s.dst).toNat % 4)) 8 else s.mem x,
      s.dst + BitVec.ofNat 32 (4 * n)⟩ := by
  induction n with
  | zero =>
    have hnot : ∀ x, ¬ InRange x s.dst (4 * 0) := fun x h => absurd h (by simp [InRange])
    simp only [hnot, if_false]
    rw [Function.iterate_zero_apply, Nat.mul_zero, BitVec.add_zero]
  | succ n ih =>
    rw [Function.iterate_succ_apply', ih (by omega), WordFill.next, WordFill.mk.injEq]
    refine ⟨funext fun x => ?_, pointer_next _ n⟩
    unfold write32
    by_cases hlast : InRange x (s.dst + BitVec.ofNat 32 (4 * n)) 4
    · obtain ⟨hle, hlt⟩ := (inRange_part (by omega)).mp hlast
      have hx : InRange x s.dst (4 * (n + 1)) := hlt
      have hsub : x - (s.dst + BitVec.ofNat 32 (4 * n)) = x - s.dst - BitVec.ofNat 32 (4 * n) := by
        ring
      have hbyte : (x - (s.dst + BitVec.ofNat 32 (4 * n))).toNat = (x - s.dst).toNat % 4 := by
        rw [hsub, BitVec.toNat_sub, BitVec.toNat_ofNat]
        omega
      rw [if_pos hlast, if_pos hx, hbyte]
    · rw [if_neg hlast]
      have hiff : InRange x s.dst (4 * (n + 1)) ↔ InRange x s.dst (4 * n) := by
        rw [inRange_part (by omega)] at hlast
        unfold InRange
        omega
      simp only [hiff]

end Words

end Leoman.Countdown
