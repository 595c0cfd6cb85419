import Mathlib.Algebra.BigOperators.Intervals
import Mathlib.Algebra.Order.BigOperators.Group.Finset
import Mathlib.Data.BitVec
import Mathlib.Data.Fintype.EquivFin
import Mathlib.Logic.Function.Iterate

namespace Leoman.Walk

/-!
# Walks

A walk goes from one node to the next for as long as it is told to go on.

* `Reaches`, `Ends`, `NoRepeat` — it makes some number of steps, it ends, it comes to no node twice;
* `ends_iff_noRepeat` — among finitely many nodes it ends exactly when it comes to none twice;
* `advance` — steps of some length in an address space; `noRepeat_advance_iff` — such a walk comes
  to an address again exactly when a stretch of it goes all the way round.
-/

section Nodes

variable {α : Type*} (next : α → α) (go : α → Prop)

/-- From `a`, the walk makes `k` steps. -/
def Reaches (a : α) (k : Nat) : Prop := ∀ j < k, go (next^[j] a)

/-- It ends. -/
def Ends (a : α) : Prop := ∃ k, Reaches next go a k ∧ ¬ go (next^[k] a)

/-- It comes to no node twice. -/
def NoRepeat (a : α) : Prop := ∀ i j, i < j → Reaches next go a j → next^[i] a ≠ next^[j] a

variable {next go} {a : α} {i j k : Nat}

/-- The first step. -/
theorem reaches_succ : Reaches next go a (k + 1) ↔ go a ∧ Reaches next go (next a) k := by
  constructor
  · exact fun h => ⟨h 0 (by omega), fun j hj => h (j + 1) (by omega)⟩
  · rintro ⟨h₀, h⟩ (_ | j) hj
    · exact h₀
    · exact h j (by omega)

/-- It ends where it is, or from the next node on. -/
theorem ends_of_not_go (h : ¬ go a) : Ends next go a :=
  ⟨0, fun _ hj => absurd hj (by omega), h⟩

theorem ends_of_next (hgo : go a) (h : Ends next go (next a)) : Ends next go a := by
  obtain ⟨k, hk, hend⟩ := h
  exact ⟨k + 1, reaches_succ.mpr ⟨hgo, hk⟩, hend⟩

/-- Two nodes that are the same have the same nodes behind them. -/
theorem iterate_shift (h : next^[i] a = next^[j] a) (n : Nat) :
    next^[n + i] a = next^[n + j] a := by
  rw [Function.iterate_add_apply, h, ← Function.iterate_add_apply]

/-- **A walk ends** exactly when it comes to no node twice. -/
theorem ends_iff_noRepeat [Finite α] : Ends next go a ↔ NoRepeat next go a := by
  constructor
  · rintro ⟨k, hk, hend⟩ i j hij hj heq
    have hjk : j ≤ k := by
      by_contra hlt
      exact hend (hj k (by omega))
    -- the last node is one that was passed, a round earlier
    have hround := iterate_shift heq (k - j)
    rw [show k - j + j = k by omega] at hround
    exact hend (hround ▸ hk (k - j + i) (by omega))
  · intro hno
    by_contra hnot
    have hall : ∀ k, Reaches next go a k := by
      intro k
      induction k with
      | zero => exact fun _ hj => absurd hj (by omega)
      | succ k ih =>
        intro j hj
        by_cases hjk : j = k
        · subst hjk
          by_contra hgo
          exact hnot ⟨j, ih, hgo⟩
        · exact ih j (by omega)
    obtain ⟨i, j, hij, heq⟩ := Finite.exists_ne_map_eq_of_infinite fun k => next^[k] a
    rcases Nat.lt_or_gt_of_ne hij with hlt | hlt
    · exact hno i j hlt (hall j) heq
    · exact hno j i hlt (hall i) heq.symm

end Nodes

/-! ### Addresses -/

section Addresses

variable {w : Nat} (len : BitVec w → Nat) (a : BitVec w)

/-- A step of the length found at an address. -/
def advance (a : BitVec w) : BitVec w := a + BitVec.ofNat w (len a)

/-- The length of the stretch from step `i` to step `j`. -/
def span (i j : Nat) : Nat := ∑ k ∈ Finset.Ico i j, len ((advance len)^[k] a)

variable {len a} {go : BitVec w → Prop} {i j : Nat}

/-- Where a stretch leads. -/
theorem advance_iterate (hij : i ≤ j) :
    (advance len)^[j] a = (advance len)^[i] a + BitVec.ofNat w (span len a i j) := by
  induction j, hij using Nat.le_induction with
  | base => rw [span, Finset.Ico_self, Finset.sum_empty, BitVec.add_zero]
  | succ j hij ih =>
    have hspan : span len a i (j + 1) = span len a i j + len ((advance len)^[j] a) :=
      Finset.sum_Ico_succ_top hij _
    rw [Function.iterate_succ_apply', hspan, BitVec.ofNat_add, ← BitVec.add_assoc, ← ih]
    rfl

/-- A stretch leads back to its start when it goes all the way round. -/
theorem advance_iterate_eq_iff (hij : i ≤ j) :
    (advance len)^[i] a = (advance len)^[j] a ↔ 2 ^ w ∣ span len a i j := by
  rw [advance_iterate hij, Nat.dvd_iff_mod_eq_zero]
  constructor
  · intro h
    have hzero : BitVec.ofNat w (span len a i j) = 0#w := by
      have := congrArg (· - (advance len)^[i] a) h
      simpa [BitVec.add_comm] using this.symm
    simpa using congrArg BitVec.toNat hzero
  · intro h
    have hzero : BitVec.ofNat w (span len a i j) = 0#w :=
      BitVec.eq_of_toNat_eq (by rw [BitVec.toNat_ofNat, h, BitVec.toNat_ofNat, Nat.zero_mod])
    rw [hzero, BitVec.add_zero]

/-- There are finitely many addresses. -/
theorem ends_advance_iff : Ends (advance len) go a ↔ NoRepeat (advance len) go a := by
  have : Finite (BitVec w) := Finite.of_injective BitVec.toFin fun _ _ => BitVec.eq_of_toFin_eq
  exact ends_iff_noRepeat

/-- **A walk through an address space** comes to no address twice exactly when no stretch of it goes
    all the way round. -/
theorem noRepeat_advance_iff : NoRepeat (advance len) go a ↔
    ∀ i j, i < j → Reaches (advance len) go a j → ¬ 2 ^ w ∣ span len a i j :=
  forall₃_congr fun _ _ hij => imp_congr_right fun _ =>
    not_congr (advance_iterate_eq_iff (Nat.le_of_lt hij))

/-- A walk that is shorter than the address space comes to no address twice. -/
theorem noRepeat_of_span_lt (hpos : ∀ a, 0 < len a)
    (h : ∀ j, Reaches (advance len) go a j → span len a 0 j < 2 ^ w) :
    NoRepeat (advance len) go a := by
  rw [noRepeat_advance_iff]
  intro i j hij hj hdvd
  have hsplit : span len a 0 i + span len a i j = span len a 0 j :=
    Finset.sum_Ico_consecutive _ (Nat.zero_le i) (Nat.le_of_lt hij)
  have hstretch : 0 < span len a i j :=
    Finset.sum_pos (fun k _ => hpos _) ⟨i, Finset.mem_Ico.mpr ⟨Nat.le_refl i, hij⟩⟩
  have := Nat.le_of_dvd hstretch hdvd
  have := h j hj
  omega

end Addresses

end Leoman.Walk
