import Leoman.Lib.Runs
import Mathlib.Logic.Function.Basic

namespace Leoman.ContextStacks

open Leoman.Runs

/-!
# Suspended code, as a stack for each process

One of a number of processes runs.  Its code can be suspended by other code of the same process,
which is suspended in turn by more of it, and what a process resumes is what it suspended last.
Between two such moves any other process may run.

* `Contexts`, `Step` — who runs, what is suspended, and the three moves;
* `resumed` — code that was suspended goes on where it was, whatever happens meanwhile.
-/

/-- Who runs, in which registers, and what every process has suspended, the innermost first. -/
structure Contexts (ι ρ : Type) where
  current : ι
  regs : ρ
  suspended : ι → List ρ

/-- A move: the running code gets on, it is suspended by code that starts with other registers, or
    a process resumes what it suspended last. -/
inductive Move (ι ρ : Type) where
  | work (r : ρ)
  | suspend (r : ρ)
  | resume (i : ι)

variable {ι ρ : Type} [DecidableEq ι]

/-- What a move does. -/
inductive Step : Contexts ι ρ → Move ι ρ → Contexts ι ρ → Prop
  | work (c : Contexts ι ρ) (r : ρ) : Step c (.work r) { c with regs := r }
  | suspend (c : Contexts ι ρ) (r : ρ) : Step c (.suspend r) { c with
      regs := r
      suspended := Function.update c.suspended c.current (c.regs :: c.suspended c.current) }
  | resume {c : Contexts ι ρ} {i : ι} {r : ρ} {rs : List ρ} (h : c.suspended i = r :: rs) :
    Step c (.resume i) ⟨i, r, Function.update c.suspended i rs⟩

/-- The process `i` runs in the registers `r`, with no more suspended than `base`. -/
structure Resumed (i : ι) (r : ρ) (base : List ρ) (c : Contexts ι ρ) : Prop where
  current : c.current = i
  regs : c.regs = r
  suspended : c.suspended i = base

variable {c c' : Contexts ι ρ} {m : Move ι ρ} {moves : List (Move ι ρ)} {i : ι} {r : ρ}
  {base : List ρ}

/-- **One move** leaves suspended code suspended, or resumes it. -/
theorem Step.resumed (h : Step c m c') (hc : ∃ rs, c.suspended i = rs ++ r :: base) :
    (∃ rs, c'.suspended i = rs ++ r :: base) ∨ Resumed i r base c' := by
  obtain ⟨rs, hrs⟩ := hc
  cases h with
  | work r' => exact Or.inl ⟨rs, hrs⟩
  | suspend r' =>
    left
    by_cases hi : i = c.current
    · subst hi
      refine ⟨c.regs :: rs, ?_⟩
      simp [hrs]
    · refine ⟨rs, ?_⟩
      simpa [hi] using hrs
  | @resume j r' rs' hj =>
    by_cases hi : i = j
    · subst hi
      rw [hrs] at hj
      cases rs with
      | nil =>
        -- the innermost is the code itself
        obtain ⟨rfl, rfl⟩ := List.cons.inj hj
        exact Or.inr ⟨rfl, rfl, Function.update_self ..⟩
      | cons x rs =>
        obtain ⟨-, rfl⟩ := List.cons.inj hj
        exact Or.inl ⟨rs, Function.update_self ..⟩
    · refine Or.inl ⟨rs, ?_⟩
      simpa [hi] using hrs

/-- **What was suspended is resumed as it was**: until then everything that the process suspends
    lies above it. -/
theorem resumed (hc : c.suspended i = r :: base)
    (hrun : Run (fun c m c' => Step c m c' ∧ ¬ Resumed i r base c) c moves c') :
    (∃ rs, c'.suspended i = rs ++ r :: base) ∨ Resumed i r base c' := by
  refine hrun.invariant
    (J := fun _ c => (∃ rs, c.suspended i = rs ++ r :: base) ∨ Resumed i r base c)
    (Or.inl ⟨[], hc⟩) ?_
  rintro _ c₁ m c₂ (hs | hr) ⟨hstep, hno⟩
  · exact hstep.resumed hs
  · exact absurd hr hno

end Leoman.ContextStacks
