import Leoman.Lib.Runs
import Mathlib.Logic.Function.Basic

namespace Leoman.Interleave

open Leoman.Runs

/-!
# Interleavings of threads over a shared state

Any number of threads run one program: `act a c` is the next atomic step of a thread whose
private state is `c`, on the shared state `a`.  A schedule is the list of the threads that
move, one entry a step; `ok` is a condition on the moves a schedule may contain (`anyMove`
when there is none).

* `run_schedule` — every schedule is a run;
* `each` — the rely-guarantee rule: an assertion about one thread and the shared state that
  the thread's own steps keep and the other threads' steps do not disturb.
-/

variable {σ ι τ : Type} [DecidableEq ι]

/-- The shared state and the private state of every thread. -/
structure Threads (σ ι τ : Type) where
  shared : σ
  priv : ι → τ

/-- Thread `i` takes its next atomic step. -/
def Threads.move (act : σ → τ → σ × τ) (s : Threads σ ι τ) (i : ι) : Threads σ ι τ where
  shared := (act s.shared (s.priv i)).1
  priv := Function.update s.priv i (act s.shared (s.priv i)).2

/-- The step relation: a permitted move of one thread. -/
def Interleaved (act : σ → τ → σ × τ) (ok : Threads σ ι τ → ι → Prop) (s : Threads σ ι τ) (i : ι)
    (s' : Threads σ ι τ) : Prop :=
  ok s i ∧ s' = s.move act i

/-- No condition on the schedule. -/
def anyMove (_ : Threads σ ι τ) (_ : ι) : Prop := True

variable {act : σ → τ → σ × τ} {ok : Threads σ ι τ → ι → Prop} {s₀ s : Threads σ ι τ}
  {tr : List ι}

/-- A move acts on the shared state … -/
@[simp] theorem move_shared (s : Threads σ ι τ) (i : ι) :
    (s.move act i).shared = (act s.shared (s.priv i)).1 := rfl

/-- … and on what the thread has of its own, … -/
@[simp] theorem move_self (s : Threads σ ι τ) (i : ι) :
    (s.move act i).priv i = (act s.shared (s.priv i)).2 :=
  Function.update_self ..

/-- … not on what another has. -/
theorem move_other (s : Threads σ ι τ) {i j : ι} (h : j ≠ i) :
    (s.move act i).priv j = s.priv j :=
  Function.update_of_ne h ..

/-- Every schedule is a run. -/
theorem run_schedule (tr : List ι) (s₀ : Threads σ ι τ) :
    Run (Interleaved act anyMove) s₀ tr (tr.foldl (Threads.move act) s₀) :=
  Run.foldl (fun _ _ => ⟨trivial, rfl⟩) tr s₀

/-- **Rely-guarantee rule.**  The steps of a thread keep its own assertion, and those of the
    others leave it standing. -/
theorem each {L : σ → τ → Prop} (hrun : Run (Interleaved act ok) s₀ tr s)
    (h₀ : ∀ i, L s₀.shared (s₀.priv i))
    (hown : ∀ a c, L a c → L (act a c).1 (act a c).2)
    (hother : ∀ a c d, L a c → L a d → L (act a c).1 d) (i : ι) : L s.shared (s.priv i) := by
  refine hrun.invariant (J := fun _ s => ∀ i, L s.shared (s.priv i)) h₀ ?_ i
  rintro _ s k _ ih ⟨-, rfl⟩ j
  by_cases hj : j = k
  · subst hj
    rw [move_shared, move_self]
    exact hown _ _ (ih j)
  · rw [move_shared, move_other s hj]
    exact hother _ _ _ (ih k) (ih j)

end Leoman.Interleave
