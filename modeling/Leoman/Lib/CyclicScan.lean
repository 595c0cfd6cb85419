import Mathlib.Algebra.Order.Ring.Nat
import Mathlib.Data.List.Nodup
import Mathlib.Data.Fin.Basic

namespace Leoman.CyclicScan

/-!
# Scanning a table in cyclic order

A table of `N` slots is scanned from slot `i` on, and from its end on from its beginning, for a
slot that meets a condition.

* `scan` — the slot found, and the cursor: past the slot, or where the scan gave up;
* `visits` — the slots looked at;
* `scan_cases` — one or the other: the first slot that meets the condition, with none before it,
  or no slot among those looked at;
* `scan_eq_some_iff`, `scan_eq_none_iff`, `visits_nodup` — for a scan of the whole table.
-/

variable {N : Nat} [NeZero N]

/-- The slot `k` places after `i`. -/
def slot (N : Nat) [NeZero N] (i k : Nat) : Fin N := Fin.ofNat N (i + k)

/-- How far the slot `s` is ahead of `i`. -/
def dist (i : Nat) (s : Fin N) : Nat := (s.val + N - i % N) % N

theorem slot_val (i k : Nat) : (slot N i k).val = (i + k) % N := rfl

/-- Starting at the next slot. -/
theorem slot_next (i k : Nat) : slot N ((i + 1) % N) k = slot N i (k + 1) := by
  apply Fin.ext
  rw [slot_val, slot_val, Nat.mod_add_mod]
  congr 1
  omega

theorem dist_lt (i : Nat) (s : Fin N) : dist i s < N := Nat.mod_lt _ (Nat.pos_of_neZero N)

/-- The slot at its distance. -/
theorem slot_dist (i : Nat) (s : Fin N) : slot N i (dist i s) = s := by
  apply Fin.ext
  have hi := Nat.mod_lt i (Nat.pos_of_neZero N)
  rw [slot_val, dist, Nat.add_mod_mod, ← Nat.mod_add_mod]
  have hsum : i % N + (s.val + N - i % N) = s.val + N := by omega
  rw [hsum, Nat.add_mod_right, Nat.mod_eq_of_lt s.isLt]

/-- The distance of a slot. -/
theorem dist_slot (i : Nat) {k : Nat} (hk : k < N) : dist i (slot N i k) = k := by
  have hi := Nat.mod_lt i (Nat.pos_of_neZero N)
  have hmod : (i + k) % N = (i % N + k) % N := (Nat.mod_add_mod i N k).symm
  rw [dist, slot_val, hmod]
  by_cases hlt : i % N + k < N
  · rw [Nat.mod_eq_of_lt hlt]
    have hsum : i % N + k + N - i % N = k + N := by omega
    rw [hsum, Nat.add_mod_right, Nat.mod_eq_of_lt hk]
  · have hrest : (i % N + k) % N = i % N + k - N := by
      rw [Nat.mod_eq_sub_mod (by omega), Nat.mod_eq_of_lt (by omega)]
    have hsum : i % N + k - N + N - i % N = k := by omega
    rw [hrest, hsum, Nat.mod_eq_of_lt hk]

/-- Slots less than a round apart are different. -/
theorem slot_injOn {i k l : Nat} (hk : k < N) (hl : l < N) (h : slot N i k = slot N i l) :
    k = l := by
  rw [← dist_slot i hk, h, dist_slot i hl]

section Scan

variable (p : Fin N → Prop) [DecidablePred p]

/-- Scan at most `n` slots from slot `i` on. -/
def scan : Nat → Nat → Option (Fin N) × Nat
  | 0, i => (none, i)
  | n + 1, i => if p (Fin.ofNat N i) then (some (Fin.ofNat N i), i + 1) else scan n ((i + 1) % N)

/-- The slots looked at. -/
def visits : Nat → Nat → List (Fin N)
  | 0, _ => []
  | n + 1, i => Fin.ofNat N i :: if p (Fin.ofNat N i) then [] else visits n ((i + 1) % N)

/-- `s` is the first slot in cyclic order from `i` on that meets the condition. -/
def First (i : Nat) (s : Fin N) : Prop := p s ∧ ∀ t, p t → dist i s ≤ dist i t

variable {p}

omit [DecidablePred p] in
/-- There is one first slot at most. -/
theorem First.unique {i : Nat} {s t : Fin N} (hs : First p i s) (ht : First p i t) : s = t := by
  have heq : dist i s = dist i t := Nat.le_antisymm (hs.2 t ht.1) (ht.2 s hs.1)
  rw [← slot_dist i s, heq, slot_dist]

/-- **Everything a scan can do.** -/
theorem scan_cases {n i : Nat} (hi : i < N) :
    (∃ k < n, p (slot N i k) ∧ (∀ j < k, ¬ p (slot N i j)) ∧
        scan p n i = (some (slot N i k), (slot N i k).val + 1) ∧
        visits p n i = (List.range (k + 1)).map (slot N i)) ∨
      (∀ j < n, ¬ p (slot N i j)) ∧ scan p n i = (none, (i + n) % N) ∧
        visits p n i = (List.range n).map (slot N i) := by
  induction n generalizing i with
  | zero =>
    refine Or.inr ⟨fun j hj => absurd hj (Nat.not_lt_zero j), ?_, rfl⟩
    rw [scan, Nat.add_zero, Nat.mod_eq_of_lt hi]
  | succ n ih =>
    have hval : (slot N i 0).val = i := Nat.mod_eq_of_lt hi
    unfold scan visits
    by_cases hp : p (slot N i 0)
    · refine Or.inl ⟨0, Nat.succ_pos n, hp, fun j hj => absurd hj (Nat.not_lt_zero j), ?_, ?_⟩
      · rw [if_pos (show p (Fin.ofNat N i) from hp), hval]
        rfl
      · rw [if_pos (show p (Fin.ofNat N i) from hp)]
        rfl
    · rw [if_neg (show ¬ p (Fin.ofNat N i) from hp), if_neg (show ¬ p (Fin.ofNat N i) from hp)]
      have hbefore : ∀ {k : Nat}, (∀ j < k, ¬ p (slot N ((i + 1) % N) j)) →
          ∀ j < k + 1, ¬ p (slot N i j) := by
        intro k hk j hj
        cases j with
        | zero => exact hp
        | succ j =>
          rw [← slot_next]
          exact hk j (by omega)
      have hmap : ∀ k, Fin.ofNat N i :: (List.range k).map (slot N ((i + 1) % N))
          = (List.range (k + 1)).map (slot N i) := by
        intro k
        rw [List.range_succ_eq_map, List.map_cons, List.map_map]
        exact congrArg _ (List.map_congr_left fun j _ => slot_next i j)
      rcases ih (i := (i + 1) % N) (Nat.mod_lt _ (Nat.pos_of_neZero N)) with
        ⟨k, hk, hpk, hnone, hscan, hvisits⟩ | ⟨hnone, hscan, hvisits⟩
      · rw [slot_next] at hpk hscan
        refine Or.inl ⟨k + 1, by omega, hpk, hbefore hnone, hscan, ?_⟩
        rw [hvisits, hmap]
      · refine Or.inr ⟨hbefore hnone, ?_, ?_⟩
        · rw [hscan, Nat.mod_add_mod]
          congr 2
          omega
        · rw [hvisits, hmap]

/-- What is found meets the condition. -/
theorem scan_some {n i j : Nat} {s : Fin N} (h : scan p n i = (some s, j)) : p s := by
  induction n generalizing i with
  | zero => exact absurd (Prod.mk.inj h).1 (by simp)
  | succ n ih =>
    rw [scan] at h
    split at h
    · rename_i hp
      exact Option.some.inj (Prod.mk.inj h).1 ▸ hp
    · exact ih h

/-- No slot is looked at twice. -/
theorem visits_nodup {n i : Nat} (hi : i < N) (hn : n ≤ N) : (visits p n i).Nodup := by
  have hnodup : ∀ {k}, k ≤ N → ((List.range k).map (slot N i)).Nodup := by
    intro k hk
    refine List.Nodup.map_on (fun a ha b hb heq => ?_) List.nodup_range
    rw [List.mem_range] at ha hb
    exact slot_injOn (by omega) (by omega) heq
  rcases scan_cases (p := p) (n := n) hi with ⟨k, hk, -, -, -, hvisits⟩ | ⟨-, -, hvisits⟩
  · rw [hvisits]
    exact hnodup (by omega)
  · rw [hvisits]
    exact hnodup hn

/-- **Found.**  A scan of the whole table finds the first slot, and leaves the cursor past it. -/
theorem scan_eq_some_iff {i j : Nat} (hi : i < N) {s : Fin N} :
    scan p N i = (some s, j) ↔ First p i s ∧ j = s.val + 1 := by
  rcases scan_cases (p := p) (n := N) hi with ⟨k, hk, hpk, hbefore, hscan, -⟩ | ⟨hnone, hscan, -⟩
  · have hfirst : First p i (slot N i k) := by
      refine ⟨hpk, fun t ht => ?_⟩
      rw [dist_slot i hk]
      by_contra hlt
      refine hbefore (dist i t) (by omega) ?_
      rw [slot_dist]
      exact ht
    rw [hscan, Prod.mk.injEq, Option.some.injEq]
    constructor
    · rintro ⟨rfl, rfl⟩
      exact ⟨hfirst, rfl⟩
    · rintro ⟨hs, rfl⟩
      obtain rfl := hfirst.unique hs
      exact ⟨rfl, rfl⟩
  · rw [hscan]
    constructor
    · intro h
      exact absurd (Prod.mk.inj h).1 (by simp)
    · rintro ⟨hs, -⟩
      refine absurd hs.1 ?_
      rw [← slot_dist i s]
      exact hnone _ (dist_lt i s)

/-- **Not found.**  It gives up where it started when no slot meets the condition. -/
theorem scan_eq_none_iff {i j : Nat} (hi : i < N) :
    scan p N i = (none, j) ↔ (∀ t, ¬ p t) ∧ j = i := by
  rcases scan_cases (p := p) (n := N) hi with ⟨k, -, hpk, -, hscan, -⟩ | ⟨hnone, hscan, -⟩
  · rw [hscan]
    constructor
    · intro h
      exact absurd (Prod.mk.inj h).1 (by simp)
    · intro h
      exact absurd hpk (h.1 _)
  · rw [hscan, Nat.add_mod_right, Nat.mod_eq_of_lt hi, Prod.mk.injEq, eq_comm (a := j)]
    refine and_congr_left fun _ => ⟨fun _ t => ?_, fun _ => rfl⟩
    rw [← slot_dist i t]
    exact hnone _ (dist_lt i t)

/-- A scan of the whole table finds a slot when there is one. -/
theorem exists_first {i : Nat} (hi : i < N) {t : Fin N} (ht : p t) :
    ∃ u, First p i u ∧ scan p N i = (some u, u.val + 1) := by
  cases hscan : scan p N i with
  | mk found j =>
    cases found with
    | none => exact absurd ht (((scan_eq_none_iff hi).mp hscan).1 t)
    | some u =>
      obtain ⟨hfirst, rfl⟩ := (scan_eq_some_iff hi).mp hscan
      exact ⟨u, hfirst, rfl⟩

end Scan

end Leoman.CyclicScan
