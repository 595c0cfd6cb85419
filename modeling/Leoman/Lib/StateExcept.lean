import Mathlib.Logic.Basic

namespace Leoman.StateExcept

/-!
# Code over a state that may trap

`Code ε σ α` is state-passing code that either returns a value and a new state or stops with a
trap `ε`.  Forward proofs run it with `run_bind_of_ok`; backward proofs take a completed run
apart with `bind_ok_iff`.

* `zoom` — run code over a part of a larger state;
* `Keeps R x` — every completed run of `x` relates the state before to the state after by `R`;
  `Keeps.bind` composes it along a sequence for a transitive `R`;
* `Preserves f x` — every completed run of `x` leaves the part `f` of the state as it is;
* `Erases π x y` — `x` is `y` over a larger state, of which `π` is the part `y` has.
-/

variable {ε σ τ α β : Type}

/-- State-passing code with traps. -/
abbrev Code (ε σ α : Type) := StateT σ (Except ε) α

/-- Stop with a trap. -/
def trap (e : ε) : Code ε σ α := fun _ => .error e

/-- Run code under a condition. -/
def onlyIf (p : Prop) [Decidable p] (x : Code ε σ Unit) : Code ε σ Unit :=
  if p then x else pure ()

/-- Returning a value leaves the state alone. -/
@[simp] theorem run_pure (a : α) (s : σ) : (pure a : Code ε σ α) s = .ok (a, s) := rfl

/-- Nothing comes after a trap. -/
@[simp] theorem run_trap (e : ε) (s : σ) : (trap e : Code ε σ α) s = .error e := rfl

/-- Reading the state. -/
@[simp] theorem run_get (s : σ) : (get : Code ε σ σ) s = .ok (s, s) := rfl

/-- Writing it. -/
@[simp] theorem run_set (s s' : σ) : (set s' : Code ε σ PUnit) s = .ok (⟨⟩, s') := rfl

/-- Changing it. -/
@[simp] theorem run_modify (f : σ → σ) (s : σ) :
    (modify f : Code ε σ PUnit) s = .ok (⟨⟩, f s) := rfl

/-- Running the first half of a sequence that completes. -/
theorem run_bind_of_ok {x : Code ε σ α} {f : α → Code ε σ β} {s s' : σ} {a : α}
    (h : x s = .ok (a, s')) : (x >>= f) s = f a s' := by
  show Except.bind (x s) _ = _
  rw [h]
  rfl

/-- Running a sequence whose first half traps. -/
theorem run_bind_of_error {x : Code ε σ α} {f : α → Code ε σ β} {s : σ} {e : ε}
    (h : x s = .error e) : (x >>= f) s = .error e := by
  show Except.bind (x s) _ = _
  rw [h]
  rfl

/-- A completed sequence is two completed halves. -/
theorem bind_ok_iff {x : Code ε σ α} {f : α → Code ε σ β} {s s'' : σ} {b : β} :
    (x >>= f) s = .ok (b, s'') ↔ ∃ a s', x s = .ok (a, s') ∧ f a s' = .ok (b, s'') := by
  cases hx : x s with
  | error e => simp [run_bind_of_error hx]
  | ok r =>
    obtain ⟨a, s'⟩ := r
    rw [run_bind_of_ok hx]
    constructor
    · intro h
      exact ⟨a, s', rfl, h⟩
    · rintro ⟨a', t, heq, h⟩
      obtain ⟨rfl, rfl⟩ := Prod.mk.inj (Except.ok.inj heq)
      exact h

/-- The same when the state is read in between. -/
theorem bind_get_ok_iff {x : Code ε σ α} {f : σ → Code ε σ β} {s s'' : σ} {b : β} :
    (x >>= fun _ => get >>= f) s = .ok (b, s'') ↔
      ∃ a s', x s = .ok (a, s') ∧ f s' s' = .ok (b, s'') :=
  bind_ok_iff

/-- Code under a condition completes as the code, or at once. -/
theorem onlyIf_ok {p : Prop} [Decidable p] {x : Code ε σ Unit} {s s' : σ} {a : Unit}
    (h : onlyIf p x s = .ok (a, s')) : p ∧ x s = .ok ((), s') ∨ ¬ p ∧ s' = s := by
  unfold onlyIf at h
  split at h
  · rename_i hp
    exact Or.inl ⟨hp, h⟩
  · rename_i hp
    obtain ⟨-, rfl⟩ := Prod.mk.inj (Except.ok.inj h)
    exact Or.inr ⟨hp, rfl⟩

/-- A test that a run completes and of the state it completes in. -/
theorem ok_of_test {x : Except ε (α × σ)} {f : α × σ → Bool}
    (h : x.toOption.map f = some true) : ∃ a s, x = .ok (a, s) ∧ f (a, s) = true := by
  cases x with
  | error e => exact absurd h (by simp [Except.toOption])
  | ok r => exact ⟨r.1, r.2, rfl, Option.some.inj h⟩

/-! ### A part of the state -/

/-- Run code over a part of the state: `get` reads the part, `put` writes it back. -/
def zoom (get : σ → τ) (put : σ → τ → σ) (x : Code ε τ α) : Code ε σ α := fun s =>
  match x (get s) with
  | .ok (a, t) => .ok (a, put s t)
  | .error e => .error e

/-- What completes on the part completes on the whole. -/
theorem zoom_ok {get : σ → τ} {put : σ → τ → σ} {x : Code ε τ α} {s : σ} {a : α} {t : τ}
    (h : x (get s) = .ok (a, t)) : zoom get put x s = .ok (a, put s t) := by
  simp [zoom, h]

/-- And what traps there traps here. -/
theorem zoom_error {get : σ → τ} {put : σ → τ → σ} {x : Code ε τ α} {s : σ} {e : ε}
    (h : x (get s) = .error e) : zoom get put x s = .error e := by
  simp [zoom, h]

/-- Code over a part runs piece by piece. -/
theorem zoom_bind {get : σ → τ} {put : σ → τ → σ} (hget : ∀ s t, get (put s t) = t)
    (hput : ∀ s t u, put (put s t) u = put s u) (x : Code ε τ α) (f : α → Code ε τ β) :
    zoom get put (x >>= f) = zoom get put x >>= fun a => zoom get put (f a) := by
  funext s
  cases hx : x (get s) with
  | error e => rw [zoom_error (run_bind_of_error hx), run_bind_of_error (zoom_error hx)]
  | ok r =>
    obtain ⟨a, t⟩ := r
    rw [run_bind_of_ok (zoom_ok hx)]
    unfold zoom
    rw [run_bind_of_ok hx, hget]
    cases f a t with
    | error e => rfl
    | ok r' => simp only [hput]

/-- A completed run over a part leaves the rest to `put`. -/
theorem zoom_ok_iff {get : σ → τ} {put : σ → τ → σ} {x : Code ε τ α} {s s' : σ} {a : α} :
    zoom get put x s = .ok (a, s') ↔ ∃ t, x (get s) = .ok (a, t) ∧ s' = put s t := by
  unfold zoom
  cases hx : x (get s) with
  | error e => simp
  | ok r =>
    obtain ⟨b, t⟩ := r
    simp only [Except.ok.injEq, Prod.mk.injEq]
    constructor
    · rintro ⟨rfl, rfl⟩; exact ⟨t, ⟨rfl, rfl⟩, rfl⟩
    · rintro ⟨t', ⟨rfl, rfl⟩, rfl⟩; exact ⟨rfl, rfl⟩

/-! ### What every completed run keeps -/

/-- Every completed run of `x` relates its first state to its last. -/
def Keeps (R : σ → σ → Prop) (x : Code ε σ α) : Prop :=
  ∀ s a s', x s = .ok (a, s') → R s s'

/-- Code that does nothing keeps a reflexive relation. -/
theorem Keeps.pure {R : σ → σ → Prop} (hr : ∀ s, R s s) (a : α) :
    Keeps R (pure a : Code ε σ α) := by
  intro s b s' h
  simp only [run_pure, Except.ok.injEq, Prod.mk.injEq] at h
  rw [← h.2]
  exact hr s

/-- Code that never completes keeps anything. -/
theorem Keeps.trap {R : σ → σ → Prop} (e : ε) : Keeps R (trap e : Code ε σ α) := by
  intro s a s' h
  exact absurd h (by simp)

/-- **Composition** along a sequence, for a transitive relation. -/
theorem Keeps.bind {R : σ → σ → Prop} (ht : ∀ {a b c}, R a b → R b c → R a c)
    {x : Code ε σ α} {f : α → Code ε σ β} (hx : Keeps R x) (hf : ∀ a, Keeps R (f a)) :
    Keeps R (x >>= f) := by
  intro s b s'' h
  obtain ⟨a, s', h₁, h₂⟩ := bind_ok_iff.mp h
  exact ht (hx s a s' h₁) (hf a s' b s'' h₂)

/-- Code over a part keeps what no `put` breaks. -/
theorem Keeps.zoom {R : σ → σ → Prop} {get : σ → τ} {put : σ → τ → σ} {x : Code ε τ α}
    (h : ∀ s t, R s (put s t)) : Keeps R (zoom get put x) := by
  intro s a s' hs
  obtain ⟨t, -, rfl⟩ := zoom_ok_iff.mp hs
  exact h s t

/-! ### Parts of the state that code leaves alone -/

/-- Every completed run of `x` leaves the part `f` of the state as it is. -/
def Preserves {γ : Type} (f : σ → γ) (x : Code ε σ α) : Prop :=
  Keeps (fun s s' => f s' = f s) x

section Preserves

variable {γ : Type} {f : σ → γ}

/-- Returning a value. -/
theorem Preserves.pure (a : α) : Preserves f (pure a : Code ε σ α) :=
  Keeps.pure (R := fun s s' => f s' = f s) (fun _ => rfl) a

/-- Trapping. -/
theorem Preserves.trap (e : ε) : Preserves f (trap e : Code ε σ α) := Keeps.trap e

/-- Reading. -/
theorem Preserves.get : Preserves f (get : Code ε σ σ) := by
  intro s a s' h
  obtain ⟨-, rfl⟩ := Prod.mk.inj (Except.ok.inj h)
  rfl

/-- A change that `f` does not see. -/
theorem Preserves.modify {g : σ → σ} (h : ∀ s, f (g s) = f s) :
    Preserves f (modify g : Code ε σ PUnit) := by
  intro s a s' hs
  obtain ⟨-, rfl⟩ := Prod.mk.inj (Except.ok.inj hs)
  exact h s

/-- **Composition** along a sequence. -/
theorem Preserves.bind {x : Code ε σ α} {g : α → Code ε σ β} (hx : Preserves f x)
    (hg : ∀ a, Preserves f (g a)) : Preserves f (x >>= g) :=
  Keeps.bind (fun h₁ h₂ => h₂.trans h₁) hx hg

/-- Both branches of a test. -/
theorem Preserves.ite {p : Prop} [Decidable p] {x y : Code ε σ α} (hx : Preserves f x)
    (hy : Preserves f y) : Preserves f (if p then x else y) := by
  split
  · exact hx
  · exact hy

/-- Code under a condition. -/
theorem Preserves.onlyIf {p : Prop} [Decidable p] {x : Code ε σ Unit} (hx : Preserves f x) :
    Preserves f (onlyIf p x) :=
  Preserves.ite hx (Preserves.pure ())

/-- Code over a part that leaves `g` of the part alone leaves `f` alone, when that is all `f` sees
    of the part. -/
theorem Preserves.zoom {δ : Type} {g : τ → δ} {get : σ → τ} {put : σ → τ → σ} {x : Code ε τ α}
    (hx : Preserves g x) (h : ∀ s t, g t = g (get s) → f (put s t) = f s) :
    Preserves f (zoom get put x) := by
  intro s a s' hs
  obtain ⟨t, ht, rfl⟩ := zoom_ok_iff.mp hs
  exact h s t (hx _ _ _ ht)

end Preserves

/-! ### Code with a state of its own added -/

/-- Seen through `π`, the code `x` does what `y` does, traps included. -/
def Erases (π : τ → σ) (x : Code ε τ α) (y : Code ε σ α) : Prop :=
  ∀ t, (x t).map (fun r => (r.1, π r.2)) = y (π t)

section Erases

variable {π : τ → σ}

/-- Returning a value. -/
theorem Erases.pure (a : α) : Erases π (pure a : Code ε τ α) (pure a) := fun _ => rfl

/-- Trapping. -/
theorem Erases.trap (e : ε) : Erases π (trap e : Code ε τ α) (trap e) := fun _ => rfl

/-- Both branches of a test. -/
theorem Erases.ite {p : Prop} [Decidable p] {x x' : Code ε τ α} {y y' : Code ε σ α}
    (hx : Erases π x y) (hx' : Erases π x' y') :
    Erases π (if p then x else x') (if p then y else y') := by
  split
  · exact hx
  · exact hx'

/-- **Composition**: erasing goes through a sequence piece by piece. -/
theorem Erases.bind {x : Code ε τ α} {y : Code ε σ α} {f : α → Code ε τ β} {g : α → Code ε σ β}
    (hx : Erases π x y) (hf : ∀ a, Erases π (f a) (g a)) : Erases π (x >>= f) (y >>= g) := by
  intro t
  have h := hx t
  cases hxt : x t with
  | error e =>
    rw [hxt] at h
    rw [run_bind_of_error hxt, run_bind_of_error h.symm]
    rfl
  | ok r =>
    rw [hxt] at h
    rw [run_bind_of_ok hxt, run_bind_of_ok h.symm]
    exact hf r.1 r.2

/-- Bookkeeping after a piece of code. -/
theorem Erases.note {x : Code ε τ α} {y : Code ε σ α} {g : α → τ → τ} (hx : Erases π x y)
    (hg : ∀ a t, π (g a t) = π t) :
    Erases π (x >>= fun a => modify (g a) >>= fun _ => Pure.pure a) y := by
  intro t
  have h := hx t
  cases hxt : x t with
  | error e =>
    rw [hxt] at h
    rw [run_bind_of_error hxt]
    exact h
  | ok r =>
    rw [hxt] at h
    rw [run_bind_of_ok hxt, ← h]
    show Except.ok (r.1, π (g r.1 r.2)) = Except.ok (r.1, π r.2)
    rw [hg]

/-- A change of the larger state that is seen as one of the part. -/
theorem Erases.modify {f : τ → τ} {g : σ → σ} (h : ∀ t, π (f t) = g (π t)) :
    Erases π (modify f : Code ε τ PUnit) (modify g) := by
  intro t
  show Except.ok (PUnit.unit, π (f t)) = Except.ok (PUnit.unit, g (π t))
  rw [h]

/-- Code under a condition. -/
theorem Erases.onlyIf {p : Prop} [Decidable p] {x : Code ε τ Unit} {y : Code ε σ Unit}
    (hx : Erases π x y) : Erases π (onlyIf p x) (onlyIf p y) := by
  unfold StateExcept.onlyIf
  split
  · exact hx
  · exact Erases.pure ()

/-- Code over the part is what it is. -/
theorem Erases.zoom {put : τ → σ → τ} (hput : ∀ t s, π (put t s) = s) (x : Code ε σ α) :
    Erases π (zoom π put x) x := by
  intro t
  unfold StateExcept.zoom
  cases x (π t) with
  | error e => rfl
  | ok r =>
    show Except.ok (r.1, π (put t r.2)) = Except.ok r
    rw [hput]

/-- A completed run of the one is a completed run of the other. -/
theorem Erases.ok {x : Code ε τ α} {y : Code ε σ α} (h : Erases π x y) {t t' : τ} {a : α}
    (hx : x t = .ok (a, t')) : y (π t) = .ok (a, π t') := by
  rw [← h t, hx]
  rfl

/-- And they trap alike. -/
theorem Erases.error {x : Code ε τ α} {y : Code ε σ α} (h : Erases π x y) {t : τ} {e : ε}
    (hy : y (π t) = .error e) : x t = .error e := by
  have ht := h t
  rw [hy] at ht
  cases hx : x t with
  | error e' =>
    rw [hx] at ht
    exact congrArg Except.error (Except.error.inj ht)
  | ok r =>
    rw [hx] at ht
    exact absurd ht (by simp [Except.map])

/-- A completed run of the smaller code comes from one of the larger. -/
theorem Erases.exists_ok {x : Code ε τ α} {y : Code ε σ α} (h : Erases π x y) {t : τ} {s' : σ}
    {a : α} (hy : y (π t) = .ok (a, s')) : ∃ t', x t = .ok (a, t') ∧ π t' = s' := by
  have ht := h t
  rw [hy] at ht
  cases hx : x t with
  | error e =>
    rw [hx] at ht
    exact absurd ht (by simp [Except.map])
  | ok r =>
    rw [hx] at ht
    obtain ⟨rfl, rfl⟩ := Prod.mk.inj (Except.ok.inj ht)
    exact ⟨r.2, rfl, rfl⟩

end Erases

end Leoman.StateExcept
