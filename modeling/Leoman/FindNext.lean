import Leoman.Dispatch

namespace Leoman

/-!
# `find_next_proc` (`kernel/proc.c`)

Process creation and the scheduler look for a slot with one and the same scan, and it goes on
where the last one stopped.

* `findNextLogged` — the loop with a log of the slots it examines; `findNextLogged_fst` — without
  the log it is the loop;
* `findNextProc_cyclic` — it returns the first slot in cyclic order from the cursor on, examines no
  slot twice, and returns nothing exactly when there is no such slot.
-/

/-- A slot that is examined, before the others. -/
def logSlot (s : Slot) (r : (Option Slot × Nat) × List Slot) : (Option Slot × Nat) × List Slot :=
  (r.1, s :: r.2)

/-- The loop of `find_next_proc`, with `n` rounds left, from slot `i` on, and the slots it
    examines. -/
def findNextLogged (procs : Slot → Proc) (idle : Option Slot) (state : ProcState) :
    Nat → Nat → (Option Slot × Nat) × List Slot
  | 0, i => ((none, i), [])
  | n + 1, i =>
    let s := procAt i
    if idle = some s then logSlot s (findNextLogged procs idle state n ((i + 1) % nprocs))
    else if (procs s).state = state then ((some s, i + 1), [s])
    else logSlot s (findNextLogged procs idle state n ((i + 1) % nprocs))

/-- `s` is the first slot in cyclic order from slot `i` on that a scan may return. -/
def FirstTakeable (procs : Slot → Proc) (idle : Option Slot) (state : ProcState) (i : Nat)
    (s : Slot) : Prop :=
  Takeable procs idle state s ∧ ∀ t, Takeable procs idle state t → ahead i s ≤ ahead i t

section Scan

variable {procs : Slot → Proc} {idle : Option Slot} {state : ProcState} {n i : Nat}

/-- **Erasure.**  Without its log the loop is that of `find_next_proc`. -/
theorem findNextLogged_fst :
    (findNextLogged procs idle state n i).1 = findNextLoop procs idle state n i := by
  induction n generalizing i with
  | zero => rfl
  | succ n ih =>
    unfold findNextLogged findNextLoop
    dsimp only
    -- the branches are the same
    by_cases hidle : idle = some (Fin.ofNat nprocs i)
    · rw [if_pos (show idle = some (procAt i) from hidle), if_pos hidle, logSlot, ih]
    · rw [if_neg (show ¬ idle = some (procAt i) from hidle), if_neg hidle]
      by_cases hstate : (procs (Fin.ofNat nprocs i)).state = state
      · rw [if_pos (show (procs (procAt i)).state = state from hstate), if_pos hstate]
        rfl
      · rw [if_neg (show ¬ (procs (procAt i)).state = state from hstate), if_neg hstate, logSlot,
          ih]

/-- The slots examined are those a scan looks at. -/
theorem findNextLogged_snd : (findNextLogged procs idle state n i).2
    = CyclicScan.visits (Takeable procs idle state) n i := by
  induction n generalizing i with
  | zero => rfl
  | succ n ih =>
    unfold findNextLogged CyclicScan.visits
    dsimp only
    by_cases hidle : idle = some (procAt i)
    · have hno : ¬ Takeable procs idle state (Fin.ofNat nprocs i) := fun h => h.1 hidle
      rw [if_pos hidle, if_neg hno, logSlot, ih]
      rfl
    · rw [if_neg hidle]
      by_cases hstate : (procs (procAt i)).state = state
      · have hyes : Takeable procs idle state (Fin.ofNat nprocs i) := ⟨hidle, hstate⟩
        rw [if_pos hstate, if_pos hyes]
        rfl
      · have hno : ¬ Takeable procs idle state (Fin.ofNat nprocs i) := fun h => hstate h.2
        rw [if_neg hstate, if_neg hno, logSlot, ih]
        rfl

end Scan

/-- **`find_next_proc`.**  For every table, idle pointer and cursor it finds the first slot in
    cyclic order from the cursor on that is in the state and is not idle, and leaves the cursor
    just past it; it finds nothing exactly when there is none, and then the cursor is where it
    was, up to the end of the table; and the loop that does this examines no slot twice. -/
theorem findNextProc_cyclic {τ : Type} [Tlb τ] (k : Kernel τ) (state : ProcState) :
    ∃ found cursor visits, findNextProc state k = .ok (found, { k with cursor := cursor }) ∧
      findNextLogged k.procs k.idle state nprocs (k.cursor % nprocs) = ((found, cursor), visits) ∧
      (∀ s, found = some s ↔ FirstTakeable k.procs k.idle state (k.cursor % nprocs) s) ∧
      (∀ s, found = some s → cursor = s.val + 1) ∧
      (found = none ↔ ∀ s, ¬ Takeable k.procs k.idle state s) ∧
      (found = none → cursor = k.cursor % nprocs) ∧
      visits.Nodup := by
  have hi : k.cursor % nprocs < nprocs := Nat.mod_lt _ (by decide)
  have hsome := fun j s =>
    CyclicScan.scan_eq_some_iff (p := Takeable k.procs k.idle state) (j := j) (s := s) hi
  have hnone := fun j =>
    CyclicScan.scan_eq_none_iff (p := Takeable k.procs k.idle state) (j := j) hi
  simp only [← findNextLoop_scan] at hsome hnone
  refine ⟨_, _, _, rfl, Prod.ext findNextLogged_fst rfl, fun s => ⟨fun h => ?_, fun h => ?_⟩,
    fun s h => ?_, ⟨fun h => ?_, fun h => ?_⟩, fun h => ?_, ?_⟩
  · exact ((hsome _ s).mp (Prod.ext h rfl)).1
  · exact congrArg Prod.fst ((hsome (s.val + 1) s).mpr ⟨h, rfl⟩)
  · exact ((hsome _ s).mp (Prod.ext h rfl)).2
  · exact ((hnone _).mp (Prod.ext h rfl)).1
  · exact congrArg Prod.fst ((hnone (k.cursor % nprocs)).mpr ⟨h, rfl⟩)
  · exact ((hnone _).mp (Prod.ext h rfl)).2
  · have hnodup := CyclicScan.visits_nodup (p := Takeable k.procs k.idle state) hi (Nat.le_refl _)
    rw [← findNextLogged_snd] at hnodup
    exact hnodup

end Leoman
