import Mathlib.Data.List.Basic

namespace Leoman.SparseFile

/-!
# Files written at offsets

A file is the list of its bytes.  A write at an offset replaces what is there, and where the file
ends before the offset the gap is filled with holes; a write of nothing does nothing.

* `At f o d` — the file has the bytes `d` at offset `o`;
* `pwrite_at` — a write leaves its bytes at its offset;
* `At.pwrite` — and keeps what is elsewhere.
-/

variable {α : Type}

/-- Write `d` at the offset `o`. -/
def pwrite (hole : α) (f d : List α) (o : Nat) : List α :=
  match d with
  | [] => f
  | _ :: _ => f.take o ++ List.replicate (o - f.length) hole ++ d ++ f.drop (o + d.length)

/-- The file has the bytes `d` at offset `o`. -/
def At (f : List α) (o : Nat) (d : List α) : Prop := ∀ i, i < d.length → f[o + i]? = d[i]?

section At

variable {f d e : List α} {o o' : Nat}

/-- Nothing is anywhere. -/
theorem At.nil : At f o [] := fun _ hi => absurd hi (by simp)

/-- The first part of a row of data is where the row is, … -/
theorem At.left (h : At f o (d ++ e)) : At f o d := by
  intro i hi
  rw [h i (by rw [List.length_append]; omega), List.getElem?_append_left hi]

/-- … and the second is behind it. -/
theorem At.right (h : At f o (d ++ e)) : At f (o + d.length) e := by
  intro i hi
  rw [Nat.add_assoc, h (d.length + i) (by rw [List.length_append]; omega),
    List.getElem?_append_right (by omega), Nat.add_sub_cancel_left]

/-- Two parts make the row. -/
theorem At.append (hd : At f o d) (he : At f (o + d.length) e) : At f o (d ++ e) := by
  intro i hi
  by_cases hlt : i < d.length
  · rw [hd i hlt, List.getElem?_append_left hlt]
  · rw [List.length_append] at hi
    have hget := he (i - d.length) (by omega)
    rw [show o + d.length + (i - d.length) = o + i by omega] at hget
    rw [hget, List.getElem?_append_right (by omega)]

/-- What is there is within the file. -/
theorem At.lt_length (h : At f o d) {i : Nat} (hi : i < d.length) : o + i < f.length := by
  have hget := h i hi
  rw [List.getElem?_eq_getElem hi] at hget
  exact (List.getElem?_eq_some_iff.mp hget).1

/-- What is in a file lies within it. -/
theorem At.length_le (h : At f o d) (hd : d ≠ []) : o + d.length ≤ f.length := by
  have hpos : 0 < d.length := List.length_pos_iff.mpr hd
  have := h.lt_length (Nat.sub_lt hpos Nat.one_pos)
  omega

/-- It is what a read of that length returns. -/
theorem At.take_drop (h : At f o d) : (f.drop o).take d.length = d := by
  refine List.ext_getElem? fun i => ?_
  by_cases hi : i < d.length
  · rw [List.getElem?_take_of_lt hi, List.getElem?_drop, h i hi]
  · rw [List.getElem?_eq_none (by rw [List.length_take]; omega), List.getElem?_eq_none (by omega)]

end At

section Write

variable {hole : α} {f d e : List α} {o o' i : Nat}

/-- The bytes before the offset of a write. -/
theorem length_before (hole : α) (f : List α) (o : Nat) :
    (f.take o ++ List.replicate (o - f.length) hole).length = o := by
  simp only [List.length_append, List.length_take, List.length_replicate]
  omega

/-- A byte that was written, … -/
theorem pwrite_get_in (hi : o ≤ i) (hi' : i < o + d.length) :
    (pwrite hole f d o)[i]? = d[i - o]? := by
  have hlen := length_before hole f o
  cases d with
  | nil => exact absurd hi' (by simp; omega)
  | cons x d =>
    unfold pwrite
    rw [List.append_assoc, List.getElem?_append_right (by omega), hlen,
      List.getElem?_append_left (by omega)]

/-- … one in front of the write … -/
theorem pwrite_get_lt (hi : i < o) (hi' : i < f.length) : (pwrite hole f d o)[i]? = f[i]? := by
  have hlen := length_before hole f o
  cases d with
  | nil => rfl
  | cons x d =>
    unfold pwrite
    rw [List.append_assoc, List.getElem?_append_left (by omega),
      List.getElem?_append_left (by rw [List.length_take]; omega), List.getElem?_take_of_lt hi]

/-- … and one behind it. -/
theorem pwrite_get_ge (hi : o + d.length ≤ i) : (pwrite hole f d o)[i]? = f[i]? := by
  have hlen := length_before hole f o
  cases d with
  | nil => rfl
  | cons x d =>
    unfold pwrite
    rw [List.getElem?_append_right (by rw [List.length_append]; omega), List.getElem?_drop,
      List.length_append, hlen]
    congr 1
    omega

/-- No write makes a file shorter. -/
theorem length_le_pwrite : f.length ≤ (pwrite hole f d o).length := by
  cases d with
  | nil => exact Nat.le_refl _
  | cons x d =>
    unfold pwrite
    simp only [List.length_append, List.length_take, List.length_replicate, List.length_drop]
    omega

/-- It grows no further than to the end of what is written. -/
theorem length_pwrite_le {n : Nat} (hf : f.length ≤ n) (hd : o + d.length ≤ n) :
    (pwrite hole f d o).length ≤ n := by
  cases d with
  | nil => exact hf
  | cons x d =>
    unfold pwrite
    simp only [List.length_append, List.length_take, List.length_replicate, List.length_drop,
      List.length_cons] at hd ⊢
    omega

/-- **A write leaves its bytes** at its offset. -/
theorem pwrite_at : At (pwrite hole f d o) o d := by
  intro i hi
  rw [pwrite_get_in (by omega) (by omega), Nat.add_sub_cancel_left]

/-- **A write keeps what is elsewhere.** -/
theorem At.pwrite (h : At f o' e) (hapart : o' + e.length ≤ o ∨ o + d.length ≤ o') :
    At (pwrite hole f d o) o' e := by
  intro i hi
  rw [← h i hi]
  rcases hapart with hlt | hge
  · exact pwrite_get_lt (by omega) (h.lt_length hi)
  · exact pwrite_get_ge (by omega)

end Write

end Leoman.SparseFile
