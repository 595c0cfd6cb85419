import Mathlib.Order.Filter.AtTopBot.Basic

namespace Leoman.Rounds

open Filter

/-!
# Computations with a number of rounds

A loop that need not end is a function of the number of rounds it may make; it gives nothing when
these do not suffice.

* `Returns` — with enough rounds it gives a value, and more of them make no difference;
* `returns_some`, `Returns.bind`, `Returns.of_succ` — the rules for values, for one computation
  after the other, and for a round of a loop.
-/

variable {α β : Type*} {f : Nat → Option α} {g : Nat → α → Option β}

/-- The computation returns. -/
def Returns (f : Nat → Option α) : Prop := ∃ x, ∀ᶠ n in atTop, f n = some x

theorem returns_some (x : α) : Returns fun _ => some x := ⟨x, Eventually.of_forall fun _ => rfl⟩

/-- One computation after the other. -/
theorem Returns.bind (hf : Returns f) (hg : ∀ x, Returns fun n => g n x) :
    Returns fun n => (f n).bind (g n) := by
  obtain ⟨x, hx⟩ := hf
  obtain ⟨y, hy⟩ := hg x
  refine ⟨y, (hx.and hy).mono ?_⟩
  rintro n ⟨hfn, hgn⟩
  show (f n).bind (g n) = some y
  rw [hfn]
  exact hgn

/-- A round more does not matter. -/
theorem Returns.of_succ (h : Returns fun n => f (n + 1)) : Returns f := by
  obtain ⟨x, hx⟩ := h
  obtain ⟨N, hN⟩ := eventually_atTop.mp hx
  refine ⟨x, eventually_atTop.mpr ⟨N + 1, fun n hn => ?_⟩⟩
  have hlast : f (n - 1 + 1) = some x := hN (n - 1) (by omega)
  rwa [Nat.sub_add_cancel (by omega)] at hlast

end Leoman.Rounds
