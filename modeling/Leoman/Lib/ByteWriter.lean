import Leoman.Lib.ByteMem

namespace Leoman.ByteWriter

open ByteMem

/-!
# Bytes written in a row

A pointer into a buffer that moves on with every byte, and a record of the addresses written to.

* `Writer.put`, `Writer.putAll` — one byte, and one after the other;
* `Filled` — these bytes, and nothing else, have been written from an address on;
* `Filled.putAll` — what more bytes do; `Filled.overrun` — when there is no room for them.
-/

/-- Memory, where the next byte goes, and the addresses written to so far. -/
structure Writer where
  mem : Mem
  ptr : BitVec 32
  written : List (BitVec 32)

/-- `*ptr = b`. -/
def Writer.store (w : Writer) (b : BitVec 8) : Writer :=
  { w with mem := write8 w.mem w.ptr b, written := w.written ++ [w.ptr] }

/-- `*ptr++ = b`. -/
def Writer.put (w : Writer) (b : BitVec 8) : Writer :=
  { w.store b with ptr := w.ptr + 1#32 }

/-- One byte after the other. -/
def Writer.putAll (w : Writer) (bs : List (BitVec 8)) : Writer := bs.foldl Writer.put w

/-- From memory `m`, the bytes have been written from `a` on, and nothing else. -/
structure Filled (m : Mem) (a : BitVec 32) (bytes : List (BitVec 8)) (w : Writer) : Prop where
  ptr : w.ptr = a + BitVec.ofNat 32 bytes.length
  stored : Stored w.mem a bytes
  kept : ∀ x, ¬ InRange x a bytes.length → w.mem x = m x
  written : ∀ x, x ∈ w.written ↔ InRange x a bytes.length

section Writer

variable {m : Mem} {a x : BitVec 32} {bytes bs : List (BitVec 8)} {b : BitVec 8} {w : Writer}

theorem Writer.putAll_append (w : Writer) :
    w.putAll (bytes ++ bs) = (w.putAll bytes).putAll bs := List.foldl_append

/-- The record only grows. -/
theorem Writer.written_putAll (h : x ∈ w.written) : x ∈ (w.putAll bs).written := by
  induction bs generalizing w with
  | nil => exact h
  | cons b bs ih => exact ih (List.mem_append_left _ h)

/-- It has an entry for each byte. -/
theorem Writer.length_written_putAll (w : Writer) (bs : List (BitVec 8)) :
    (w.putAll bs).written.length = w.written.length + bs.length := by
  induction bs generalizing w with
  | nil => rfl
  | cons b bs ih =>
    have hput : (w.put b).written.length = w.written.length + 1 := by
      simp [Writer.put, Writer.store]
    have hstep := ih (w.put b)
    rw [hput] at hstep
    rw [List.length_cons, Nat.add_comm bs.length, ← Nat.add_assoc]
    exact hstep

/-- A range without its first byte is part of it. -/
theorem inRange_tail {n : Nat} (h : InRange x (a + 1#32) n) : InRange x a (n + 1) := by
  unfold InRange at *
  have hsub : x - (a + 1#32) = x - a - 1#32 := by ring
  rw [hsub, BitVec.toNat_sub, BitVec.toNat_ofNat] at h
  have := (x - a).isLt
  omega

/-- A range is all but its last byte, and that. -/
theorem inRange_last {k : Nat} (hk : k < 2 ^ 32) :
    InRange x a (k + 1) ↔ InRange x a k ∨ x = a + BitVec.ofNat 32 k := by
  have heq : x = a + BitVec.ofNat 32 k ↔ (x - a).toNat = k := by
    constructor
    · rintro rfl
      rw [BitVec.add_comm, BitVec.add_sub_cancel, BitVec.toNat_ofNat, Nat.mod_eq_of_lt hk]
    · intro h
      rw [← h, BitVec.ofNat_toNat, BitVec.setWidth_eq, BitVec.add_comm, BitVec.sub_add_cancel]
  rw [heq]
  unfold InRange
  omega

/-- Nothing has been written. -/
theorem Filled.start (m : Mem) (a : BitVec 32) : Filled m a [] ⟨m, a, []⟩ where
  ptr := (BitVec.add_zero a).symm
  stored _ _ h := nomatch h
  kept _ _ := rfl
  written x := by simp [InRange]

/-- **Step lemma.**  A byte more. -/
theorem Filled.put (h : Filled m a bytes w) (hroom : bytes.length < 2 ^ 32) (b : BitVec 8) :
    Filled m a (bytes ++ [b]) (w.put b) := by
  have hptr := h.ptr
  have hnew : ¬ InRange w.ptr a bytes.length := by
    rw [hptr, InRange, BitVec.add_comm, BitVec.add_sub_cancel, BitVec.toNat_ofNat,
      Nat.mod_eq_of_lt hroom]
    omega
  have hother : ∀ x, x ≠ w.ptr → (w.put b).mem x = w.mem x := fun x hx =>
    Function.update_of_ne hx ..
  refine ⟨?_, fun i c hc => ?_, fun x hx => ?_, fun x => ?_⟩
  · show w.ptr + 1#32 = _
    rw [hptr, List.length_append, BitVec.ofNat_add, BitVec.add_assoc]
    rfl
  · by_cases hi : i < bytes.length
    · rw [List.getElem?_append_left hi] at hc
      have hne : a + BitVec.ofNat 32 i ≠ w.ptr := by
        intro heq
        refine hnew (heq ▸ ?_)
        exact inRange_add hi (by omega)
      rw [hother _ hne]
      exact h.stored i c hc
    · have hlast : i = bytes.length ∧ b = c := by
        rw [List.getElem?_append_right (by omega)] at hc
        obtain ⟨hlt, hget⟩ := List.getElem?_eq_some_iff.mp hc
        rw [List.length_singleton] at hlt
        refine ⟨by omega, ?_⟩
        rw [← hget, List.getElem_singleton]
      obtain ⟨rfl, rfl⟩ := hlast
      rw [← hptr]
      exact Function.update_self ..
  · rw [List.length_append, List.length_singleton, inRange_last hroom, ← hptr, not_or] at hx
    rw [hother x hx.2]
    exact h.kept x hx.1
  · rw [List.length_append, List.length_singleton, inRange_last hroom, ← hptr, ← h.written]
    exact List.mem_append.trans (or_congr_right List.mem_singleton)

/-- **Run lemma.**  As long as there is room, more bytes follow those written. -/
theorem Filled.putAll (h : Filled m a bytes w) (hroom : bytes.length + bs.length ≤ 2 ^ 32) :
    Filled m a (bytes ++ bs) (w.putAll bs) := by
  induction bs generalizing bytes w with
  | nil =>
    rw [List.append_nil]
    exact h
  | cons b bs ih =>
    rw [List.length_cons] at hroom
    have hnext := ih (h.put (by omega) b) (by rw [List.length_append, List.length_singleton]; omega)
    rw [List.append_assoc] at hnext
    exact hnext

/-- Outside the room everything is as it was. -/
theorem Filled.mem_eq (h : Filled m a bytes w) {size : Nat} (hle : bytes.length ≤ size)
    (hx : ¬ InRange x a size) : w.mem x = m x := by
  refine h.kept x fun hin => hx ?_
  unfold InRange at *
  omega

/-- **One byte too many.**  The byte behind the room is written to. -/
theorem Filled.overrun (h : Filled m a bytes w) {size : Nat} (hsize : size < 2 ^ 32)
    (hle : bytes.length ≤ size) (hmore : size < bytes.length + bs.length) :
    a + BitVec.ofNat 32 size ∈ (w.putAll bs).written := by
  have hsplit := List.take_append_drop (size + 1 - bytes.length) bs
  have hlen : (bs.take (size + 1 - bytes.length)).length = size + 1 - bytes.length := by
    rw [List.length_take]
    omega
  have hfilled : Filled m a (bytes ++ bs.take (size + 1 - bytes.length)) _ :=
    h.putAll (by omega)
  rw [← hsplit, Writer.putAll_append]
  refine Writer.written_putAll ((hfilled.written _).mpr ?_)
  rw [List.length_append, hlen]
  exact inRange_add (by omega) hsize

end Writer

end Leoman.ByteWriter
