import Leoman.Lib.Runs
import Mathlib.Logic.Function.Basic
import Mathlib.Data.Fintype.Basic

namespace Leoman.PrintLock

open Leoman.Runs

/-!
# `print_lock` on one processor (`kernel/print.c`)

`kprintf` spins on `print_lock` before it prints and never disables interrupts.  The code of
a process runs with interrupts enabled (`proc_idle` prints in a loop, the kernel process
prints its warnings); an interrupt or a system call puts a handler on top of it that runs
with interrupts disabled, and some handlers print as well (`kbd_handler` dumps the process
list, `syscall_send_msg` reports a receiver in an unknown state).  The timer's handler may
switch to another process, and so does a system call that blocks.

* `Deadlock` — a handler waits for the lock, and what holds the lock is suspended; no event
  leads out of it (`deadlock_forever`);
* `Sound` — what holds in every run: one context prints at a time, and the lock is taken
  while it does;
* `no_self_deadlock` — if an interrupt that finds its process printing is handled without
  printing and without switching, no deadlock is reachable;
* `deadlock_within_reach` — where that condition fails, a deadlock is at most two events away.
-/

/-! ### Contexts -/

/-- A process's own code, or the handler on top of it. -/
inductive Level where
  | own
  | handler
deriving DecidableEq, Repr

/-- Where a context stands with `kprintf`. -/
inductive PrintPoint where
  /-- Not in `kprintf`. -/
  | out
  /-- In the loop of `LOCK(print_lock)`. -/
  | spin
  /-- Between `LOCK` and `UNLOCK`. -/
  | print
deriving DecidableEq, Repr

/-- What a handler was entered by. -/
inductive Entry where
  | irq
  | syscall
deriving DecidableEq, Repr

/-- The lock word, the process that has the CPU, the handler on top of each process, and where
    each context stands. -/
structure Cpu (ι : Type) where
  printLocked : Bool
  current : ι
  handling : ι → Option Entry
  point : ι × Level → PrintPoint

/-- What can happen next. -/
inductive Event (ι : Type) where
  /-- The running code calls `kprintf`. -/
  | call
  /-- One `__sync_bool_compare_and_swap` of `LOCK`. -/
  | attempt
  /-- `UNLOCK`, at the end of `kprintf`. -/
  | unlock
  /-- An interrupt is taken. -/
  | irq
  /-- The process makes a system call. -/
  | syscall
  /-- The handler returns to its process. -/
  | iret
  /-- The timer's handler returns to another process. -/
  | preempt (next : ι)
  /-- A system call goes through `proc_schedule_without_irq`. -/
  | block (next : ι)
deriving DecidableEq, Repr

variable {ι : Type} [DecidableEq ι]

/-- The context that has the CPU: the handler, if there is one. -/
def Cpu.running (s : Cpu ι) : ι × Level :=
  (s.current, if s.handling s.current = none then .own else .handler)

/-- The state after an event; an event that cannot happen changes nothing. -/
def Cpu.after (s : Cpu ι) : Event ι → Cpu ι
  | .call =>
    if s.point s.running = .out then { s with point := Function.update s.point s.running .spin }
    else s
  | .attempt =>
    if s.point s.running = .spin ∧ s.printLocked = false then
      { s with printLocked := true, point := Function.update s.point s.running .print }
    else s
  | .unlock =>
    if s.point s.running = .print then
      { s with printLocked := false, point := Function.update s.point s.running .out }
    else s
  | .irq =>
    -- interrupts are enabled only while no handler runs
    if s.handling s.current = none then
      { s with handling := Function.update s.handling s.current (some .irq) }
    else s
  | .syscall =>
    if s.handling s.current = none ∧ s.point (s.current, .own) = .out then
      { s with handling := Function.update s.handling s.current (some .syscall) }
    else s
  | .iret =>
    if s.point (s.current, .handler) = .out then
      { s with handling := Function.update s.handling s.current none }
    else s
  | .preempt next =>
    if s.handling s.current = some .irq ∧ s.point (s.current, .handler) = .out then
      { s with handling := Function.update s.handling s.current none, current := next }
    else s
  | .block next =>
    -- the handler goes on when the process gets the CPU back
    if s.handling s.current = some .syscall ∧ s.point (s.current, .handler) = .out then
      { s with current := next }
    else s

/-- The events a run may contain: any, or those that meet a condition. -/
def Step (ok : Cpu ι → Event ι → Prop) (s : Cpu ι) (e : Event ι) (s' : Cpu ι) : Prop :=
  ok s e ∧ s' = s.after e

/-- No condition. -/
def anyEvent (_ : Cpu ι) (_ : Event ι) : Prop := True

/-- An interrupt that finds its process between `LOCK` and `UNLOCK` is handled without printing
    and without switching to another process. -/
def Harmless (s : Cpu ι) : Event ι → Prop
  | .call => s.handling s.current ≠ none → s.point (s.current, .own) ≠ .print
  | .preempt next | .block next => next ≠ s.current → s.point (s.current, .own) ≠ .print
  | .attempt | .unlock | .irq | .syscall | .iret => True

instance (s : Cpu ι) (e : Event ι) : Decidable (Harmless s e) := by
  cases e <;> unfold Harmless <;> infer_instance

/-- Nobody prints, and no handler runs. -/
def Start (s : Cpu ι) : Prop :=
  s.printLocked = false ∧ (∀ i, s.handling i = none) ∧ ∀ c, s.point c = .out

/-- Code that runs with interrupts disabled waits for the lock, and a suspended context holds
    it. -/
def Deadlock (s : Cpu ι) : Prop :=
  s.handling s.current ≠ none ∧ s.point s.running = .spin ∧ s.printLocked = true ∧
    ∃ c, c ≠ s.running ∧ s.point c = .print

variable {ok : Cpu ι → Event ι → Prop} {s₀ s : Cpu ι} {tr : List (Event ι)}

omit [DecidableEq ι] in
/-- The running context while a handler runs. -/
theorem running_handler (h : s.handling s.current ≠ none) : s.running = (s.current, .handler) := by
  rw [Cpu.running, if_neg h]

omit [DecidableEq ι] in
/-- The running context while none runs. -/
theorem running_own (h : s.handling s.current = none) : s.running = (s.current, .own) := by
  rw [Cpu.running, if_pos h]

/-- **A deadlock hangs the machine.**  Nothing can happen any more but failed attempts. -/
theorem deadlock_forever (h : Deadlock s) (e : Event ι) : s.after e = s := by
  obtain ⟨hhandler, hspin, hlocked, -⟩ := h
  have hpoint : s.point (s.current, .handler) = .spin := by
    rw [← running_handler hhandler]
    exact hspin
  cases e <;> simp [Cpu.after, hspin, hlocked, hhandler, hpoint]

/-! ### What holds in every run -/

/-- What holds however events follow each other. -/
structure Sound (s : Cpu ι) : Prop where
  /-- One context prints at a time, and the lock is taken while it does. -/
  one : ∀ c, s.point c = .print → s.printLocked = true ∧ ∀ c', s.point c' = .print → c' = c
  /-- A handler gives the CPU away only when it is not in `kprintf`. -/
  idle : ∀ i, i ≠ s.current ∨ s.handling i = none → s.point (i, .handler) = .out

/-- Moving the running context keeps suspended handlers out of `kprintf`. -/
theorem Sound.idle_update (h : Sound s) (p : PrintPoint) (i : ι)
    (hi : i ≠ s.current ∨ s.handling i = none) :
    Function.update s.point s.running p (i, .handler) = .out := by
  have hne : (i, Level.handler) ≠ s.running := by
    intro heq
    by_cases hc : s.handling s.current = none
    · rw [running_own hc] at heq
      exact absurd heq (by simp)
    · rw [running_handler hc] at heq
      obtain rfl : i = s.current := congrArg Prod.fst heq
      exact hi.elim (· rfl) hc
  rw [Function.update_of_ne hne]
  exact h.idle i hi

/-- A context that does not print any more, or not yet. -/
theorem Sound.one_update (h : Sound s) {c₀ : ι × Level} {p : PrintPoint} (hp : p ≠ .print)
    (c : ι × Level) (hc : Function.update s.point c₀ p c = .print) :
    c ≠ c₀ ∧ s.point c = .print ∧ ∀ c', Function.update s.point c₀ p c' = .print → c' = c := by
  have hold : ∀ c, Function.update s.point c₀ p c = .print → c ≠ c₀ ∧ s.point c = .print := by
    intro c hc
    by_cases heq : c = c₀
    · rw [heq, Function.update_self] at hc
      exact absurd hc hp
    · rw [Function.update_of_ne heq] at hc
      exact ⟨heq, hc⟩
  obtain ⟨hne, hprint⟩ := hold c hc
  exact ⟨hne, hprint, fun c' hc' => (h.one c hprint).2 c' (hold c' hc').2⟩

/-- **Step lemma.**  Every event keeps the lock sound. -/
theorem Sound.after (h : Sound s) (e : Event ι) : Sound (s.after e) := by
  cases e with
  | call =>
    simp only [Cpu.after]
    split
    · refine ⟨?_, h.idle_update _⟩
      intro c hc
      obtain ⟨-, hprint, hone⟩ := h.one_update (by decide) c hc
      exact ⟨(h.one c hprint).1, hone⟩
    · exact h
  | attempt =>
    simp only [Cpu.after]
    split
    · rename_i hfree
      -- the lock was free, so nobody was printing
      have hnone : ∀ c, s.point c ≠ .print := by
        intro c hc
        exact absurd ((h.one c hc).1.symm.trans hfree.2) (by decide)
      refine ⟨?_, h.idle_update _⟩
      intro c hc
      have honly : ∀ c, Function.update s.point s.running .print c = .print → c = s.running := by
        intro c hc
        by_contra hne
        rw [Function.update_of_ne hne] at hc
        exact hnone c hc
      exact ⟨rfl, fun c' hc' => (honly c' hc').trans (honly c hc).symm⟩
    · exact h
  | unlock =>
    simp only [Cpu.after]
    split
    · rename_i hprint
      refine ⟨?_, h.idle_update _⟩
      intro c hc
      -- the running context was the only one
      obtain ⟨hne, hprint', -⟩ := h.one_update (by decide) c hc
      exact absurd ((h.one _ hprint).2 c hprint') hne
    · exact h
  | irq | syscall =>
    simp only [Cpu.after]
    split
    · refine ⟨h.one, ?_⟩
      intro i hi
      by_cases heq : i = s.current
      · subst heq
        exact hi.elim (absurd rfl) fun e => by simp at e
      · exact h.idle i (Or.inl heq)
    · exact h
  | iret =>
    simp only [Cpu.after]
    split
    · rename_i hout
      refine ⟨h.one, ?_⟩
      intro i _
      by_cases heq : i = s.current
      · rw [heq]
        exact hout
      · exact h.idle i (Or.inl heq)
    · exact h
  | preempt next | block next =>
    simp only [Cpu.after]
    split
    · rename_i hout
      refine ⟨h.one, ?_⟩
      intro i _
      by_cases heq : i = s.current
      · rw [heq]
        exact hout.2
      · exact h.idle i (Or.inl heq)
    · exact h

/-- **Run lemma.** -/
theorem run_sound (hstart : Start s₀) (hrun : Run (Step ok) s₀ tr s) : Sound s := by
  refine hrun.invariant (J := fun _ s => Sound s) ?_ ?_
  · obtain ⟨-, -, hout⟩ := hstart
    refine ⟨fun c hc => ?_, fun i _ => hout _⟩
    rw [hout c] at hc
    exact absurd hc (by decide)
  · rintro _ s e _ h ⟨-, rfl⟩
    exact h.after e

/-! ### Without harmful interrupts -/

/-- No process is suspended while its own code prints, unless by a handler that stays out of
    `kprintf`. -/
structure Calm (s : Cpu ι) : Prop where
  suspended : ∀ i, i ≠ s.current → s.point (i, .own) ≠ .print
  interrupted : s.handling s.current ≠ none → s.point (s.current, .own) = .print →
    s.point (s.current, .handler) = .out

/-- A handler on top of code that prints moves only to stay out of `kprintf`. -/
theorem Calm.update (h : Calm s) {p : PrintPoint} {locked : Bool}
    (hp : s.handling s.current ≠ none → s.point (s.current, .own) = .print → p = .out) :
    Calm { s with printLocked := locked, point := Function.update s.point s.running p } := by
  refine ⟨?_, ?_⟩
  · intro i hi
    have hne : (i, Level.own) ≠ s.running := fun e => hi (congrArg Prod.fst e)
    show Function.update s.point s.running p (i, .own) ≠ .print
    rw [Function.update_of_ne hne]
    exact h.suspended i hi
  · intro (hhandler : s.handling s.current ≠ none)
      (hprint : Function.update s.point s.running p (s.current, .own) = .print)
    show Function.update s.point s.running p (s.current, .handler) = .out
    rw [running_handler hhandler] at hprint ⊢
    rw [Function.update_of_ne (by simp)] at hprint
    rw [Function.update_self]
    exact hp hhandler hprint

/-- Giving the CPU to another process. -/
theorem Calm.switch (h : Calm s) {next : ι}
    (hok : next ≠ s.current → s.point (s.current, .own) ≠ .print) {handling : ι → Option Entry}
    (hsame : next = s.current → handling next ≠ none → s.handling s.current ≠ none) :
    Calm { s with handling := handling, current := next } := by
  refine ⟨?_, ?_⟩
  · intro i hi
    by_cases heq : i = s.current
    · subst heq
      exact hok (Ne.symm hi)
    · exact h.suspended i heq
  · intro hhandler hprint
    by_cases heq : next = s.current
    · subst heq
      exact h.interrupted (hsame rfl hhandler) hprint
    · exact absurd hprint (h.suspended next heq)

/-- **Step lemma.**  A harmless event keeps the processor calm. -/
theorem Calm.after (h : Calm s) (hs : Sound s) {e : Event ι} (hok : Harmless s e) :
    Calm (s.after e) := by
  cases e with
  | call =>
    simp only [Cpu.after]
    split
    · -- a handler that calls `kprintf` is not on top of code that prints
      exact h.update fun hhandler hprint => absurd hprint (hok hhandler)
    · exact h
  | attempt =>
    simp only [Cpu.after]
    split
    · rename_i hspin
      refine h.update fun hhandler hprint => ?_
      rw [running_handler hhandler] at hspin
      exact absurd ((h.interrupted hhandler hprint).symm.trans hspin.1) (by decide)
    · exact h
  | unlock =>
    simp only [Cpu.after]
    split
    · exact h.update fun _ _ => rfl
    · exact h
  | irq =>
    simp only [Cpu.after]
    split
    · rename_i hnone
      exact ⟨h.suspended, fun _ _ => hs.idle _ (Or.inr hnone)⟩
    · exact h
  | syscall =>
    simp only [Cpu.after]
    split
    · rename_i hnone
      exact ⟨h.suspended, fun _ _ => hs.idle _ (Or.inr hnone.1)⟩
    · exact h
  | iret =>
    simp only [Cpu.after]
    split
    · exact ⟨h.suspended, fun e => absurd (Function.update_self ..) e⟩
    · exact h
  | preempt next =>
    simp only [Cpu.after]
    split
    · refine h.switch hok fun heq hhandler => ?_
      rw [heq, Function.update_self] at hhandler
      exact absurd rfl hhandler
    · exact h
  | block next =>
    simp only [Cpu.after]
    split
    · exact h.switch hok fun heq hhandler => heq ▸ hhandler
    · exact h

/-- **Run lemma.** -/
theorem run_calm (hstart : Start s₀) (hrun : Run (Step Harmless) s₀ tr s) : Calm s := by
  have hboth : Sound s ∧ Calm s := by
    refine hrun.invariant (J := fun _ s => Sound s ∧ Calm s)
      ⟨run_sound hstart (show Run (Step Harmless) s₀ [] s₀ from Run.start), ?_⟩ ?_
    · obtain ⟨-, hnone, hout⟩ := hstart
      refine ⟨fun i _ hp => ?_, fun hhandler => absurd (hnone _) hhandler⟩
      rw [hout] at hp
      exact absurd hp (by decide)
    · rintro _ s e _ ⟨hs, h⟩ ⟨hok, rfl⟩
      exact ⟨hs.after e, h.after hs hok⟩
  exact hboth.2

/-- **No self-deadlock on `print_lock`.**  Any number of processes print, are preempted, take
    interrupts and make system calls whose handlers print, in any order; as long as an
    interrupt that finds its process printing is handled without printing and without
    switching, code that runs with interrupts disabled never waits for a suspended context. -/
theorem no_self_deadlock (hstart : Start s₀) (hrun : Run (Step Harmless) s₀ tr s) :
    ¬ Deadlock s := by
  have hs := run_sound hstart hrun
  have h := run_calm hstart hrun
  rintro ⟨hhandler, hspin, -, ⟨i, level⟩, hne, hprint⟩
  rw [running_handler hhandler] at hspin hne
  by_cases heq : i = s.current
  · subst heq
    cases level with
    | handler => exact hne rfl
    | own => exact absurd ((h.interrupted hhandler hprint).symm.trans hspin) (by decide)
  · cases level with
    | handler => exact absurd ((hs.idle i (Or.inl heq)).symm.trans hprint) (by decide)
    | own => exact h.suspended i heq hprint

/-- The idle process and one other; nobody prints. -/
def idleAndOther : Cpu Bool where
  printLocked := false
  current := false
  handling := fun _ => none
  point := fun _ => .out

/-- The idle process prints, is interrupted meanwhile by a handler that does nothing, and is
    preempted after it has finished; then a handler prints. -/
def carefulEvents : List (Event Bool) :=
  [.call, .attempt, .irq, .iret, .unlock, .irq, .preempt true, .syscall, .call, .attempt, .unlock,
   .block false]

/-- In such a run there is no deadlock. -/
theorem no_self_deadlock_careful : ¬ Deadlock (carefulEvents.foldl Cpu.after idleAndOther) :=
  no_self_deadlock (show Start idleAndOther from ⟨rfl, fun _ => rfl, fun _ => rfl⟩)
    (run_permitted carefulEvents (by decide))

/-! ### The deadlock -/

/-- A handler that stands on the current process while some process's own code prints is one
    call away from the deadlock, or there already. -/
theorem Sound.deadlock_of_call (h : Sound s) (hhandler : s.handling s.current ≠ none) {i : ι}
    (hp : s.point (i, .own) = .print) : Deadlock (s.after .call) := by
  obtain ⟨hlocked, hone⟩ := h.one _ hp
  have hrun := running_handler hhandler
  have hne : (i, Level.own) ≠ (s.current, Level.handler) := fun e => by simp at e
  cases hpoint : s.point (s.current, .handler) with
  | print => exact absurd (hone _ hpoint).symm hne
  | spin =>
    have hsame : s.after .call = s := by
      simp [Cpu.after, hrun, hpoint]
    rw [hsame]
    exact ⟨hhandler, by rw [hrun, hpoint], hlocked, (i, .own), by rwa [hrun], hp⟩
  | out =>
    have hcall : s.after .call =
        { s with point := Function.update s.point (s.current, .handler) .spin } := by
      simp [Cpu.after, hrun, hpoint]
    rw [hcall]
    have hrun' :
        Cpu.running { s with point := Function.update s.point (s.current, .handler) .spin } =
        (s.current, .handler) := running_handler hhandler
    refine ⟨hhandler, ?_, hlocked, (i, .own), ?_, ?_⟩
    · rw [hrun']
      exact Function.update_self ..
    · rwa [hrun']
    · exact (Function.update_of_ne hne ..).trans hp

/-- **The deadlock is near.**  While the code of a process is between `LOCK` and `UNLOCK`, an
    interrupt whose handler prints is all it takes. -/
theorem deadlock_within_reach (h : Sound s) {i : ι} (hp : s.point (i, .own) = .print) :
    ∃ tr t, tr.length ≤ 2 ∧ Run (Step anyEvent) s tr t ∧ Deadlock t := by
  have hrun (tr : List (Event ι)) : Run (Step anyEvent) s tr (tr.foldl Cpu.after s) :=
    Run.foldl (fun _ _ => ⟨trivial, rfl⟩) tr s
  by_cases hhandler : s.handling s.current = none
  · refine ⟨_, _, by simp, hrun [.irq, .call], ?_⟩
    have hirq : s.after .irq =
        { s with handling := Function.update s.handling s.current (some .irq) } := by
      simp [Cpu.after, hhandler]
    have hafter := h.after .irq
    rw [List.foldl_cons, List.foldl_cons, List.foldl_nil]
    rw [hirq] at hafter ⊢
    exact hafter.deadlock_of_call (by simp) hp
  · exact ⟨_, _, by simp, hrun [.call], h.deadlock_of_call hhandler hp⟩

/-- The idle process is preempted while it prints, and the system call of the process that
    runs next prints as well. -/
def careless : List (Event Bool) :=
  [.call, .attempt, .irq, .preempt true, .syscall, .call]

/-- The deadlock is reachable. -/
theorem preempted_print_deadlocks :
    ¬ ∀ (s₀ s : Cpu Bool) (tr : List (Event Bool)), Start s₀ →
      Run (Step anyEvent) s₀ tr s → ¬ Deadlock s := by
  intro h
  refine h idleAndOther _ careless ⟨rfl, fun _ => rfl, fun _ => rfl⟩
    (Run.foldl (fun _ _ => ⟨trivial, rfl⟩) careless _) ?_
  exact ⟨by decide, by decide, by decide, (false, .own), by decide, by decide⟩

end Leoman.PrintLock
