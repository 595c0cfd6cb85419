import Mathlib.Data.List.Forall2

namespace Leoman.Runs

/-!
# Runs of a labelled transition system

`Run step s₀ tr s` — the events `tr`, in order, lead from `s₀` to `s`.  A condition on the
steps of a run is a conjunct of the step relation.

* `Run.invariant` — what holds at first and survives every step holds at the end; the
  invariant may mention the events so far;
* `Run.foldl`, `run_permitted` — the run of a list of events that all have a step, or that
  all meet a condition;
* `Run.step_at` — the step an event of the run stands for, and the run that leads up to it;
* `Run.simulates` — a run of another system that goes along with this one, step for step.
-/

variable {σ ι : Type} {step : σ → ι → σ → Prop} {s₀ s : σ} {tr : List ι}

/-- The events `tr` lead from `s₀` to the indexed state. -/
inductive Run (step : σ → ι → σ → Prop) (s₀ : σ) : List ι → σ → Prop
  | start : Run step s₀ [] s₀
  | next {tr : List ι} {s s' : σ} {e : ι} :
    Run step s₀ tr s → step s e s' → Run step s₀ (tr ++ [e]) s'

/-- **Invariant rule.** -/
theorem Run.invariant {J : List ι → σ → Prop} (hrun : Run step s₀ tr s) (h₀ : J [] s₀)
    (hstep : ∀ tr s e s', J tr s → step s e s' → J (tr ++ [e]) s') : J tr s := by
  induction hrun with
  | start => exact h₀
  | next _ hs ih => exact hstep _ _ _ _ ih hs

/-- Runs compose. -/
theorem Run.append {tr' : List ι} {s' : σ} (h : Run step s₀ tr s) (h' : Run step s tr' s') :
    Run step s₀ (tr ++ tr') s' := by
  induction h' with
  | start =>
    rw [List.append_nil]
    exact h
  | next _ hs ih =>
    rw [← List.append_assoc]
    exact ih.next hs

/-- Where every event has a step, every list of events is a run. -/
theorem Run.foldl {f : σ → ι → σ} (hf : ∀ s e, step s e (f s e)) (tr : List ι) (s₀ : σ) :
    Run step s₀ tr (tr.foldl f s₀) := by
  induction tr generalizing s₀ with
  | nil => exact Run.start
  | cons e tr ih =>
    have hfirst : Run step s₀ ([] ++ [e]) (f s₀ e) := Run.start.next (hf s₀ e)
    exact hfirst.append (ih _)

/-- Every event of the list meets the condition in the state it happens in. -/
def Permitted (f : σ → ι → σ) (ok : σ → ι → Prop) : List ι → σ → Prop
  | [], _ => True
  | e :: tr, s => ok s e ∧ Permitted f ok tr (f s e)

instance {f : σ → ι → σ} {ok : σ → ι → Prop} [∀ s e, Decidable (ok s e)] :
    ∀ tr s, Decidable (Permitted f ok tr s)
  | [], _ => isTrue trivial
  | e :: tr, s =>
    have : Decidable (Permitted f ok tr (f s e)) := instDecidablePermitted tr (f s e)
    inferInstanceAs (Decidable (_ ∧ _))

/-- A list of events that meet the condition is a run under it. -/
theorem run_permitted {f : σ → ι → σ} {ok : σ → ι → Prop} (tr : List ι) {s₀ : σ}
    (h : Permitted f ok tr s₀) : Run (fun s e s' => ok s e ∧ s' = f s e) s₀ tr (tr.foldl f s₀) := by
  induction tr generalizing s₀ with
  | nil => exact Run.start
  | cons e tr ih =>
    have hfirst : Run (fun s e s' => ok s e ∧ s' = f s e) s₀ ([] ++ [e]) (f s₀ e) :=
      Run.start.next ⟨h.1, rfl⟩
    exact hfirst.append (ih h.2)

/-- The last step of a run. -/
theorem Run.last {e : ι} (h : Run step s₀ (tr ++ [e]) s) : ∃ m, Run step s₀ tr m ∧ step m e s := by
  generalize htr : tr ++ [e] = tr' at h
  cases h with
  | start => exact absurd htr (by simp)
  | next h hs =>
    obtain ⟨rfl, he⟩ := List.append_inj' htr rfl
    obtain rfl : e = _ := List.head_eq_of_cons_eq he
    exact ⟨_, h, hs⟩

/-- The step of an event of the run. -/
theorem Run.step_at {n : Nat} {e : ι} (h : Run step s₀ tr s) (he : tr[n]? = some e) :
    ∃ m m', Run step s₀ (tr.take n) m ∧ step m e m' := by
  induction h with
  | start => exact absurd he (by simp)
  | @next tr m m' e' h hs ih =>
    by_cases hn : n < tr.length
    · rw [List.getElem?_append_left hn] at he
      rw [List.take_append_of_le_length (Nat.le_of_lt hn)]
      exact ih he
    · obtain ⟨rfl, rfl⟩ : n = tr.length ∧ e' = e := by
        rw [List.getElem?_append_right (by omega)] at he
        obtain ⟨hlt, heq⟩ := List.getElem?_eq_some_iff.mp he
        simp only [List.length_singleton] at hlt
        exact ⟨by omega, by simpa using heq⟩
      rw [List.take_left]
      exact ⟨m, m', h, hs⟩

/-- Two events in a row: the second step starts where the first one ends. -/
theorem Run.steps_at {n : Nat} {e e' : ι} (h : Run step s₀ tr s) (he : tr[n]? = some e)
    (he' : tr[n + 1]? = some e') : ∃ m₁ m₂ m₃, step m₁ e m₂ ∧ step m₂ e' m₃ := by
  obtain ⟨m₂, m₃, hrun, hs'⟩ := h.step_at he'
  rw [List.take_add_one, he] at hrun
  obtain ⟨m₁, -, hs⟩ := hrun.last
  exact ⟨m₁, m₂, m₃, hs, hs'⟩

/-- **Simulation rule.**  Where every step has one of the other system that goes with it, so has
    every run. -/
theorem Run.simulates {σ' ι' : Type} {step' : σ' → ι' → σ' → Prop} {R : σ → σ' → Prop}
    {L : ι → ι' → Prop} {t₀ : σ'} (hrun : Run step s₀ tr s) (h₀ : R s₀ t₀)
    (hstep : ∀ s t e s', R s t → step s e s' → ∃ e' t', L e e' ∧ step' t e' t' ∧ R s' t') :
    ∃ tr' t, List.Forall₂ L tr tr' ∧ Run step' t₀ tr' t ∧ R s t := by
  induction hrun with
  | start => exact ⟨[], t₀, .nil, .start, h₀⟩
  | next _ hs ih =>
    obtain ⟨tr', t, hl, hrun', hr⟩ := ih
    obtain ⟨e', t', he, hs', hr'⟩ := hstep _ _ _ _ hr hs
    exact ⟨tr' ++ [e'], t', List.rel_append hl (.cons he .nil), hrun'.next hs', hr'⟩

end Leoman.Runs
