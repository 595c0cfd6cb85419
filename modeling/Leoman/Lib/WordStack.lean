import Leoman.Lib.ByteMem

namespace Leoman.WordStack

open ByteMem

/-!
# A stack of words in memory

The stack grows down: a word is pushed just below the stack pointer.

* `Words m a ws` — the words are in a row from `a` on;
* `pushAll_words` — what was pushed is there, the last word first;
* `pushAll_off` — and nothing else was touched.
-/

/-- A memory with a stack pointer into it. -/
abbrev Stack : Type := Mem × BitVec 32

/-- Push a word. -/
def push (s : Stack) (w : BitVec 32) : Stack := (write32 s.1 (s.2 - 4#32) w, s.2 - 4#32)

/-- Push words, one after the other. -/
def pushAll (s : Stack) (ws : List (BitVec 32)) : Stack := ws.foldl push s

/-- The memory has the words in a row from `a` on. -/
def Words (m : Mem) (a : BitVec 32) (ws : List (BitVec 32)) : Prop :=
  ∀ i w, ws[i]? = some w → read32 m (a + BitVec.ofNat 32 (4 * i)) = w

section Words

variable {m m' : Mem} {a : BitVec 32} {w : BitVec 32} {ws ws' : List (BitVec 32)} {i : Nat}

/-- No words are anywhere. -/
theorem Words.nil : Words m a [] := fun _ _ h => absurd h (by simp)

/-- The first word is where the row begins, … -/
theorem Words.head (h : Words m a (w :: ws)) : read32 m a = w := by
  have h₀ := h 0 w rfl
  rwa [Nat.mul_zero, BitVec.add_zero] at h₀

/-- … and the others follow. -/
theorem Words.cons (hw : read32 m a = w) (h : Words m (a + 4#32) ws) : Words m a (w :: ws) := by
  intro i v hv
  cases i with
  | zero =>
    rw [Nat.mul_zero, BitVec.add_zero, hw]
    exact Option.some.inj hv
  | succ i =>
    have hstep : a + BitVec.ofNat 32 (4 * (i + 1)) = a + 4#32 + BitVec.ofNat 32 (4 * i) := by
      rw [Nat.mul_add, Nat.add_comm (4 * i), BitVec.ofNat_add, BitVec.add_assoc]
    rw [hstep]
    exact h i v hv

/-- A byte of a word is a byte of the range of all words. -/
theorem inRange_word {x : BitVec 32} {n : Nat} (hfit : a.toNat + 4 * n ≤ 2 ^ 32) (hi : i < n)
    (hx : InRange x (a + BitVec.ofNat 32 (4 * i)) 4) : InRange x a (4 * n) := by
  have hat : (a + BitVec.ofNat 32 (4 * i)).toNat = a.toNat + 4 * i := by
    rw [BitVec.toNat_add, BitVec.toNat_ofNat]
    omega
  rw [inRange_iff (by omega), hat] at hx
  rw [inRange_iff hfit]
  omega

/-- The words matter only where they are. -/
theorem Words.congr (h : Words m a ws) (hfit : a.toNat + 4 * ws.length ≤ 2 ^ 32)
    (hm : ∀ x, InRange x a (4 * ws.length) → m' x = m x) : Words m' a ws := by
  intro i w hw
  have hi := (List.getElem?_eq_some_iff.mp hw).1
  rw [← h i w hw]
  exact read32_congr fun x hx => hm x (inRange_word hfit hi hx)

end Words

section Push

variable {m : Mem} {sp x : BitVec 32} {ws : List (BitVec 32)}

/-- The stack pointer behind a number of pushes. -/
theorem pushAll_snd (ws : List (BitVec 32)) (s : Stack) :
    (pushAll s ws).2 = s.2 - BitVec.ofNat 32 (4 * ws.length) := by
  induction ws generalizing s with
  | nil => simp [pushAll]
  | cons w ws ih =>
    have hlen : 4 * (w :: ws).length = 4 + 4 * ws.length := by
      rw [List.length_cons]
      omega
    rw [hlen, BitVec.ofNat_add, ← BitVec.sub_sub]
    exact ih (push s w)

/-- Words pushed in two parts. -/
theorem pushAll_append (s : Stack) (ws ws' : List (BitVec 32)) :
    pushAll s (ws ++ ws') = pushAll (pushAll s ws) ws' := List.foldl_append ..

/-- The pointer as a number, while there is room. -/
theorem sub_toNat (hroom : 4 * ws.length ≤ sp.toNat) :
    (sp - BitVec.ofNat 32 (4 * ws.length)).toNat = sp.toNat - 4 * ws.length := by
  have := sp.isLt
  rw [BitVec.toNat_sub, BitVec.toNat_ofNat]
  omega

/-- **Pushes touch nothing else** than the bytes below the pointer that they need. -/
theorem pushAll_off (hroom : 4 * ws.length ≤ sp.toNat)
    (hx : ¬ InRange x (sp - BitVec.ofNat 32 (4 * ws.length)) (4 * ws.length)) :
    (pushAll (m, sp) ws).1 x = m x := by
  induction ws generalizing m sp with
  | nil => rfl
  | cons w ws ih =>
    have := sp.isLt
    have hdown := sub_toNat hroom
    rw [List.length_cons] at hroom hx hdown
    have hone : (sp - 4#32).toNat = sp.toNat - 4 := by
      rw [BitVec.toNat_sub, BitVec.toNat_ofNat]
      omega
    rw [inRange_iff (by omega), hdown] at hx
    have hrest : ¬ InRange x (sp - 4#32 - BitVec.ofNat 32 (4 * ws.length)) (4 * ws.length) := by
      have hdown' : (sp - 4#32 - BitVec.ofNat 32 (4 * ws.length)).toNat
          = (sp - 4#32).toNat - 4 * ws.length := sub_toNat (by omega)
      rw [inRange_iff (by omega), hdown', hone]
      omega
    have hword : ¬ InRange x (sp - 4#32) 4 := by
      rw [inRange_iff (by omega), hone]
      omega
    show (pushAll (write32 m (sp - 4#32) w, sp - 4#32) ws).1 x = m x
    rw [ih (by omega) hrest, write32_of_not_inRange hword]

/-- **What was pushed is there**, from the new pointer on. -/
theorem pushAll_words (hroom : 4 * ws.length ≤ sp.toNat) :
    Words (pushAll (m, sp) ws).1 (sp - BitVec.ofNat 32 (4 * ws.length)) ws.reverse := by
  induction ws using List.reverseRecOn generalizing m sp with
  | nil => exact Words.nil
  | append_singleton ws w ih =>
    have := sp.isLt
    rw [List.length_append, List.length_singleton] at hroom
    have hinit : Words (pushAll (m, sp) ws).1 (sp - BitVec.ofNat 32 (4 * ws.length)) ws.reverse :=
      ih (by omega)
    have hdown : (sp - BitVec.ofNat 32 (4 * ws.length)).toNat = sp.toNat - 4 * ws.length :=
      sub_toNat (by omega)
    have hlen : sp - BitVec.ofNat 32 (4 * (ws ++ [w]).length)
        = sp - BitVec.ofNat 32 (4 * ws.length) - 4#32 := by
      rw [List.length_append, List.length_singleton, Nat.mul_add, BitVec.ofNat_add,
        ← BitVec.sub_sub]
    rw [hlen, List.reverse_append, List.reverse_singleton, List.singleton_append, pushAll_append]
    have hlast : (pushAll (pushAll (m, sp) ws) [w]).1
        = write32 (pushAll (m, sp) ws).1 (sp - BitVec.ofNat 32 (4 * ws.length) - 4#32) w := by
      rw [← pushAll_snd ws (m, sp)]
      rfl
    rw [hlast]
    have hone : (sp - BitVec.ofNat 32 (4 * ws.length) - 4#32).toNat
        = sp.toNat - 4 * ws.length - 4 := by
      rw [BitVec.toNat_sub, hdown, BitVec.toNat_ofNat]
      omega
    refine Words.cons (read32_write32_self _ _ _) ?_
    rw [BitVec.sub_add_cancel]
    -- the last word is below the others
    refine hinit.congr ?_ fun x hx => write32_of_not_inRange ?_
    · rw [List.length_reverse]
      omega
    · rw [List.length_reverse, inRange_iff (by omega), hdown] at hx
      rw [inRange_iff (by omega), hone]
      omega

end Push

end Leoman.WordStack
