import Leoman.Lib.Interleave
import Leoman.Pm
import Mathlib.Data.Fintype.Basic

namespace Leoman

open Leoman.Runs Leoman.Interleave

/-!
# Preemption inside `pm_alloc`

A new process starts in `proc_load`, with interrupts and scheduling enabled, and allocates
its page tables, its pages and its stack there.  The timer can take the CPU away from it
between any two steps of `pm_alloc`.  Here the function is cut into those steps, on the one
bitmap that all processes share: a process may call it as often as it likes.

* `allocStep` — one step; `run_alone` — a call that nobody interrupts is `pmAlloc`;
* `Race` — two processes have found the same bit clear, and neither has set it;
* `no_page_twice` — without such a meeting no page is returned twice;
* `race_returns_same_page` — with it, both return the same page;
* `race_reachable` — two fresh processes and one preemption are enough.
-/

/-! ### The steps of `pm_alloc` -/

/-- Where a process is. -/
inductive AllocPoint where
  /-- Not inside `pm_alloc`. -/
  | out
  /-- About to compare `pm_bitmap[idx]` with all ones. -/
  | testWord
  /-- About to test the bit. -/
  | testBit
  /-- The bit was clear; about to calculate the page's address. -/
  | calcPage
  /-- About to set the bit. -/
  | setBit
  /-- About to return the physical address. -/
  | ret
deriving DecidableEq, Repr

/-- A process, with the locals of its call. -/
structure Caller where
  point : AllocPoint
  idx : Nat
  bit : Nat
  page : BitVec 32
deriving DecidableEq, Repr

/-- What all processes share: the manager, and a record of the values returned so far. -/
structure PmShared where
  pm : Pm
  returned : List (BitVec 32)

/-- The bit mask `1 << bit`; the shift instruction uses the low five bits of its count. -/
def bitMask (bit : Nat) : BitVec 32 := 1#32 <<< (bit % 32)

/-- One step of a process; the bit loop has no guard. -/
def allocStep (a : PmShared) (c : Caller) : PmShared × Caller :=
  match c.point with
  | .out => (a, { c with point := .testWord, idx := 0 })
  | .testWord =>
    if c.idx < pmBitmapNmemb then
      if a.pm.bitmap c.idx ≠ 0xffffffff#32 then (a, { c with point := .testBit, bit := 0 })
      else (a, { c with idx := c.idx + 1 })
    else ({ a with returned := a.returned ++ [0#32] }, { c with point := .out })
  | .testBit =>
    if a.pm.bitmap c.idx &&& bitMask c.bit = 0#32 then (a, { c with point := .calcPage })
    else (a, { c with bit := c.bit + 1 })
  | .calcPage =>
    (a, { c with point := .setBit
                 page := a.pm.pool + BitVec.ofNat 32 (c.idx * 32 + c.bit) * pageSize })
  | .setBit => ({ a with pm := a.pm.mark c.idx (bitMask c.bit) }, { c with point := .ret })
  | .ret => ({ a with returned := a.returned ++ [v2p c.page] }, { c with point := .out })

/-- The number of the page a process has picked, until it has returned it. -/
def Caller.picked (c : Caller) : Option Nat :=
  match c.point with
  | .out | .testWord | .testBit => none
  | .calcPage | .setBit | .ret => some (c.idx * 32 + c.bit)

/-- The process has found its bit clear and has not set it yet. -/
def Caller.pending (c : Caller) : Bool :=
  match c.point with
  | .calcPage | .setBit => true
  | _ => false

section Steps

variable {a : PmShared} {c : Caller}

theorem bitMask_of_lt {bit : Nat} (h : bit < 32) : bitMask bit = 1#32 <<< bit := by
  rw [bitMask, Nat.mod_eq_of_lt h]

/-- A test of one bit. -/
theorem and_bitMask_eq_zero {w : BitVec 32} {bit : Nat} :
    w &&& bitMask bit = 0#32 ↔ w.getLsbD (bit % 32) = false := by
  have hlt : bit % 32 < 32 := Nat.mod_lt _ (by decide)
  rw [bitMask, and_eq_zero_iff]
  refine ⟨fun h => h _ (by simp [getLsbD_bit hlt]), ?_⟩
  intro h j hj
  rw [getLsbD_bit hlt, decide_eq_true_eq] at hj
  rwa [hj]

/-- The page a process has picked, by its bit. -/
theorem used_index (s : Pm) {idx bit : Nat} (h : bit < 32) :
    s.Used (idx * 32 + bit) ↔ (s.bitmap idx).getLsbD bit = true := by
  have hdiv : (idx * 32 + bit) / 32 = idx := by omega
  have hmod : (idx * 32 + bit) % 32 = bit := by omega
  rw [Pm.Used, hdiv, hmod]

/-- Setting the bit marks exactly the picked page. -/
theorem mark_bitMask_used (s : Pm) {idx bit : Nat} (h : bit < 32) (k : Nat) :
    (s.mark idx (bitMask bit)).Used k ↔ s.Used k ∨ k = idx * 32 + bit := by
  rw [mark_used, bitMask_of_lt h, getLsbD_bit h]
  refine or_congr Iff.rfl ?_
  rw [decide_eq_true_eq]
  omega

/-- What holds of a process at each point; only the manager matters. -/
def Caller.Ok (s : Pm) (c : Caller) : Prop :=
  match c.point with
  | .out | .testWord => True
  | .testBit => c.idx < pmBitmapNmemb ∧
      ∀ j < 32, j < c.bit → (s.bitmap c.idx).getLsbD j = true
  | .calcPage => c.idx < pmBitmapNmemb ∧ c.bit < 32 ∧ ¬ s.Used (c.idx * 32 + c.bit)
  | .setBit => c.idx < pmBitmapNmemb ∧ c.bit < 32 ∧ ¬ s.Used (c.idx * 32 + c.bit) ∧
      v2p c.page = s.pageAddr (c.idx * 32 + c.bit)
  | .ret => c.idx < pmBitmapNmemb ∧ c.bit < 32 ∧ s.Used (c.idx * 32 + c.bit) ∧
      v2p c.page = s.pageAddr (c.idx * 32 + c.bit)

/-- **Step lemma.**  A step of a process keeps what holds of it. -/
theorem allocStep_ok (h : c.Ok a.pm) : (allocStep a c).2.Ok (allocStep a c).1.pm := by
  unfold allocStep
  split <;> rename_i hp <;> simp only [Caller.Ok, hp] at h
  · trivial
  · split
    · split
      · exact ⟨‹_›, fun j _ hj => absurd hj (Nat.not_lt_zero j)⟩
      · simp only [Caller.Ok, hp]
    · trivial
  · obtain ⟨hidx, hset⟩ := h
    split <;> rename_i hbit <;> rw [and_bitMask_eq_zero] at hbit
    · -- all bits below `bit` are set, so a clear one is found inside the word
      have hlt : c.bit < 32 := by
        by_contra hge
        have hmod : c.bit % 32 < 32 := Nat.mod_lt _ (by decide)
        have hone := hset (c.bit % 32) hmod (by omega)
        exact absurd (hbit.symm.trans hone) (by decide)
      rw [Nat.mod_eq_of_lt hlt] at hbit
      refine ⟨hidx, hlt, ?_⟩
      rw [used_index _ hlt, hbit]
      decide
    · simp only [Caller.Ok, hp]
      refine ⟨hidx, ?_⟩
      intro j hj hlt
      by_cases heq : j = c.bit
      · subst heq
        rw [Nat.mod_eq_of_lt hj] at hbit
        simpa using hbit
      · exact hset j hj (by omega)
  · obtain ⟨hidx, hlt, hfree⟩ := h
    exact ⟨hidx, hlt, hfree, rfl⟩
  · obtain ⟨hidx, hlt, -, hpage⟩ := h
    refine ⟨hidx, hlt, ?_, hpage⟩
    exact (mark_bitMask_used _ hlt _).mpr (Or.inr rfl)
  · trivial

/-- What a step does to the manager: nothing, or it sets the bit it has found clear. -/
theorem allocStep_pm (h : c.Ok a.pm) :
    (allocStep a c).1.pm = a.pm ∨
      c.point = .setBit ∧ ∀ k, (allocStep a c).1.pm.Used k ↔
        a.pm.Used k ∨ k = c.idx * 32 + c.bit := by
  unfold allocStep
  split <;> rename_i hp
  case h_5 =>
    simp only [Caller.Ok, hp] at h
    exact Or.inr ⟨hp, mark_bitMask_used _ h.2.1⟩
  all_goals exact Or.inl (by (repeat' split) <;> rfl)

/-- No step moves the pool. -/
theorem allocStep_pool (a : PmShared) (c : Caller) : (allocStep a c).1.pm.pool = a.pm.pool := by
  unfold allocStep
  repeat' split
  all_goals rfl

/-- What a step does to the page picked and to the values returned. -/
theorem allocStep_picked (h : c.Ok a.pm) :
    -- no page is involved; at the end of the bitmap `NULL` is returned
    ((allocStep a c).2.picked = c.picked ∧ ((allocStep a c).1.returned = a.returned ∨
        (allocStep a c).1.returned = a.returned ++ [0#32])) ∨
    -- the bit is found clear
    (c.point = .testBit ∧ c.bit < 32 ∧ (allocStep a c).1 = a ∧
        ¬ a.pm.Used (c.idx * 32 + c.bit) ∧ (allocStep a c).2.picked = some (c.idx * 32 + c.bit)) ∨
    -- the page is returned
    (∃ k < pmPages, c.picked = some k ∧ a.pm.Used k ∧ (allocStep a c).2.picked = none ∧
        (allocStep a c).1 = { a with returned := a.returned ++ [a.pm.pageAddr k] }) := by
  have hok := allocStep_ok h
  unfold allocStep at hok ⊢
  split <;> rename_i hp <;> simp only [hp] at hok
  case h_2 =>
    refine Or.inl ?_
    split
    · split <;> exact ⟨by simp [Caller.picked, hp], Or.inl rfl⟩
    · exact ⟨by simp [Caller.picked, hp], Or.inr rfl⟩
  case h_3 =>
    split at hok <;> rename_i hbit
    · rw [if_pos hbit]
      exact Or.inr (Or.inl ⟨hp, hok.2.1, rfl, hok.2.2, rfl⟩)
    · rw [if_neg hbit]
      exact Or.inl ⟨by simp [Caller.picked, hp], Or.inl rfl⟩
  case h_6 =>
    simp only [Caller.Ok, hp] at h
    obtain ⟨hidx, hlt, hused, hpage⟩ := h
    refine Or.inr (Or.inr ⟨c.idx * 32 + c.bit, ?_, by simp [Caller.picked, hp], hused, rfl, ?_⟩)
    · unfold pmPages
      omega
    · rw [hpage]
  all_goals exact Or.inl ⟨by simp [Caller.picked, hp], Or.inl rfl⟩

/-! ### A call that nobody interrupts -/

/-- A process alone gets from one point to another. -/
def Alone (p q : PmShared × Caller) : Prop := ∃ n, (fun p => allocStep p.1 p.2)^[n] p = q

theorem Alone.trans {p q r : PmShared × Caller} (h : Alone p q) (h' : Alone q r) : Alone p r := by
  obtain ⟨n, rfl⟩ := h
  obtain ⟨m, rfl⟩ := h'
  exact ⟨m + n, Function.iterate_add_apply ..⟩

theorem Alone.step {p : PmShared × Caller} : Alone p (allocStep p.1 p.2) := ⟨1, rfl⟩

/-- The word loop passes over words that are all ones. -/
theorem alone_testWord {idx : Nat} (hc : c.point = .testWord) (hidx : idx ≤ pmBitmapNmemb)
    (hle : c.idx ≤ idx) (hones : ∀ j, c.idx ≤ j → j < idx → a.pm.bitmap j = 0xffffffff#32) :
    Alone (a, c) (a, { c with idx := idx }) := by
  induction idx, hle using Nat.le_induction with
  | base => exact ⟨0, rfl⟩
  | succ idx hle ih =>
    refine (ih (by omega) fun j hj hlt => hones j hj (by omega)).trans ⟨1, ?_⟩
    have hone := hones idx hle (by omega)
    simp only [Function.iterate_one, allocStep, hc, hone]
    rw [if_pos (by omega)]
    rfl

/-- The bit loop passes over bits that are set. -/
theorem alone_testBit {bit : Nat} (hc : c.point = .testBit) (hbit : c.bit = 0) (hlt : bit < 32)
    (hset : ∀ j < bit, ¬ a.pm.bitmap c.idx &&& (1#32 <<< j) = 0#32) :
    Alone (a, c) (a, { c with bit := bit }) := by
  induction bit with
  | zero =>
    rw [← hbit]
    exact ⟨0, rfl⟩
  | succ bit ih =>
    refine (ih (by omega) fun j hj => hset j (by omega)).trans ⟨1, ?_⟩
    have hone := hset bit (by omega)
    simp only [Function.iterate_one, allocStep, hc, bitMask_of_lt (show bit < 32 by omega)]
    rw [if_neg hone]

/-- **A call that nobody interrupts is `pmAlloc`.** -/
theorem run_alone (hc : c.point = .out) :
    ∃ c', c'.point = .out ∧
      Alone (a, c) (⟨(pmAlloc a.pm).2, a.returned ++ [(pmAlloc a.pm).1]⟩, c') := by
  have hcall : Alone (a, c) (a, { c with point := .testWord, idx := 0 }) := by
    refine ⟨1, ?_⟩
    simp only [Function.iterate_one, allocStep, hc]
  unfold pmAlloc
  cases hw : (List.range' 0 pmBitmapNmemb).find? (fun idx => a.pm.bitmap idx ≠ 0xffffffff#32) with
  | none =>
    have hones : ∀ j, 0 ≤ j → j < pmBitmapNmemb → a.pm.bitmap j = 0xffffffff#32 := by
      intro j _ hj
      have hmem : j ∈ List.range' 0 pmBitmapNmemb := by
        rw [List.mem_range'_1]
        omega
      simpa using List.find?_eq_none.mp hw j hmem
    refine ⟨{ c with idx := pmBitmapNmemb }, hc, hcall.trans ?_⟩
    refine (alone_testWord rfl le_rfl (Nat.zero_le _) hones).trans ⟨1, ?_⟩
    simp [allocStep, hc]
  | some idx =>
    obtain ⟨hne, hmem, hbefore⟩ := List.find?_range'_eq_some.mp hw
    have hidx : idx < pmBitmapNmemb := by rw [List.mem_range'_1] at hmem; omega
    have hones : ∀ j, 0 ≤ j → j < idx → a.pm.bitmap j = 0xffffffff#32 := by
      intro j _ hj
      simpa using hbefore j (Nat.zero_le j) hj
    have hword : Alone (a, { c with point := .testWord, idx := 0 })
        (a, { c with point := .testBit, idx := idx, bit := 0 }) := by
      refine (alone_testWord rfl hidx.le (Nat.zero_le _) hones).trans ⟨1, ?_⟩
      simp only [Function.iterate_one, allocStep, if_pos hidx]
      rw [if_pos (by simpa using hne)]
    have hfound := exists_zero_bit (by simpa using hne)
    cases hb : (List.range' 0 32).find? (fun bit => a.pm.bitmap idx &&& (1#32 <<< bit) = 0#32) with
    | none =>
      obtain ⟨b, hb32, hzero⟩ := hfound
      refine absurd ?_ (List.find?_eq_none.mp hb b (by rw [List.mem_range'_1]; omega))
      rw [decide_eq_true_eq, ← bitMask_of_lt hb32, and_bitMask_eq_zero, Nat.mod_eq_of_lt hb32]
      exact hzero
    | some bit =>
      obtain ⟨hclear, hmem', hprev⟩ := List.find?_range'_eq_some.mp hb
      have hlt : bit < 32 := by rw [List.mem_range'_1] at hmem'; omega
      have hset : ∀ j < bit, ¬ a.pm.bitmap idx &&& (1#32 <<< j) = 0#32 := by
        intro j hj
        simpa using hprev j (Nat.zero_le j) hj
      refine ⟨⟨.out, idx, bit, a.pm.pool + BitVec.ofNat 32 (idx * 32 + bit) * pageSize⟩, rfl, ?_⟩
      refine hcall.trans (hword.trans ((alone_testBit rfl rfl hlt hset).trans ⟨4, ?_⟩))
      have hclear' : a.pm.bitmap idx &&& bitMask bit = 0#32 := by
        rw [bitMask_of_lt hlt]
        simpa using hclear
      simp only [hb, ← bitMask_of_lt hlt]
      simp only [Function.iterate_succ, Function.iterate_zero, Function.comp_apply, id_eq,
        allocStep, if_pos hclear']
      rfl

end Steps

/-! ### Any number of processes -/

variable {ι : Type} [DecidableEq ι]

/-- The manager and every process. -/
abbrev PmThreads (ι : Type) : Type := Threads PmShared ι Caller

/-- No process is inside `pm_alloc` and nothing has been returned; the bitmap may be any. -/
def NoneInside (s : PmThreads ι) : Prop :=
  s.shared.returned = [] ∧ ∀ i, (s.priv i).point = .out

/-- The values that processes have been given as pages. -/
def pagesReturned (s : PmThreads ι) : List (BitVec 32) := s.shared.returned.filter (· ≠ 0#32)

/-- Processes `i` and `j` are both between finding the same bit clear and setting it. -/
def Race (s : PmThreads ι) (i j : ι) : Prop :=
  i ≠ j ∧ (s.priv i).pending = true ∧ (s.priv j).pending = true ∧
    (s.priv i).idx = (s.priv j).idx ∧ (s.priv i).bit = (s.priv j).bit

/-- The process that moves does not test a bit that another process has found clear and is
    still to set. -/
def NoRace (s : PmThreads ι) (i : ι) : Prop :=
  (s.priv i).point = .testBit → ∀ j, j ≠ i → (s.priv j).pending = true →
    ¬ ((s.priv j).idx = (s.priv i).idx ∧ (s.priv j).bit = (s.priv i).bit)

instance [Fintype ι] (s : PmThreads ι) (i : ι) : Decidable (NoRace s i) :=
  inferInstanceAs (Decidable (_ → _))

/-- Every page belongs to one process, or has been returned, once. -/
structure Owned (s : PmThreads ι) : Prop where
  ok : ∀ i, (s.priv i).Ok s.shared.pm
  apart : ∀ i j k, i ≠ j → (s.priv i).picked = some k → (s.priv j).picked ≠ some k
  record : ∃ ks : List Nat, ks.Nodup ∧ (∀ k ∈ ks, k < pmPages ∧ s.shared.pm.Used k) ∧
    (∀ i, ∀ k ∈ ks, (s.priv i).picked ≠ some k) ∧
    pagesReturned s = (ks.map s.shared.pm.pageAddr).filter (· ≠ 0#32)

variable {s₀ s : PmThreads ι} {tr : List ι} {i : ι}

/-- A pick of a process is in one of the two places of its call. -/
theorem pending_of_picked {m : Pm} {c : Caller} {k : Nat} (h : c.Ok m) (hk : c.picked = some k)
    (hfree : ¬ m.Used k) : c.pending = true ∧ c.idx * 32 + c.bit = k ∧ c.bit < 32 := by
  unfold Caller.picked at hk
  cases hp : c.point <;> simp only [hp, reduceCtorEq, Option.some.injEq] at hk <;>
    simp only [Caller.Ok, hp] at h <;> subst hk
  · exact ⟨by simp [Caller.pending, hp], rfl, h.2.1⟩
  · exact ⟨by simp [Caller.pending, hp], rfl, h.2.1⟩
  · exact absurd h.2.2.1 hfree

/-- The other processes' assertions survive a step: only a bit that is theirs could harm
    them. -/
theorem Owned.ok_other (h : Owned s) {j : ι} (hj : j ≠ i) :
    (s.priv j).Ok (s.move allocStep i).shared.pm := by
  obtain heq | ⟨hp, hused⟩ := allocStep_pm (h.ok i)
  · rw [move_shared, heq]
    exact h.ok j
  · rw [move_shared]
    have hpick : (s.priv i).picked = some ((s.priv i).idx * 32 + (s.priv i).bit) := by
      simp [Caller.picked, hp]
    have hpool := pageAddr_congr (allocStep_pool s.shared (s.priv i))
    have hoj := h.ok j
    have hne := h.apart i j _ (Ne.symm hj) hpick
    generalize (allocStep s.shared (s.priv i)).1.pm = m at hused hpool
    cases hpj : (s.priv j).point <;> simp only [Caller.Ok, hpj] at hoj ⊢
    case testBit =>
      refine ⟨hoj.1, ?_⟩
      intro b hb hlt
      rw [← used_index _ hb, hused, used_index _ hb]
      exact Or.inl (hoj.2 b hb hlt)
    -- a page still to be marked stays free, since the bit that is set is another one
    case calcPage =>
      refine ⟨hoj.1, hoj.2.1, fun hu => ?_⟩
      exact ((hused _).mp hu).elim hoj.2.2 fun e => hne (by simp [Caller.picked, hpj, e])
    case setBit =>
      rw [hpool]
      refine ⟨hoj.1, hoj.2.1, fun hu => ?_, hoj.2.2.2⟩
      exact ((hused _).mp hu).elim hoj.2.2.1 fun e => hne (by simp [Caller.picked, hpj, e])
    case ret =>
      rw [hpool]
      exact ⟨hoj.1, hoj.2.1, (hused _).mpr (Or.inl hoj.2.2.1), hoj.2.2.2⟩

/-- Assertions of all processes after a step. -/
theorem Owned.ok_step (h : Owned s) (j : ι) :
    ((s.move allocStep i).priv j).Ok (s.move allocStep i).shared.pm := by
  by_cases hj : j = i
  · subst hj
    rw [move_self, move_shared]
    exact allocStep_ok (h.ok j)
  · rw [move_other s hj]
    exact h.ok_other hj

/-- Used pages stay used. -/
theorem Owned.used_mono (h : Owned s) (i : ι) {k : Nat} (hk : s.shared.pm.Used k) :
    (s.move allocStep i).shared.pm.Used k := by
  rw [move_shared]
  obtain heq | ⟨-, hused⟩ := allocStep_pm (h.ok i)
  · rwa [heq]
  · exact (hused k).mpr (Or.inl hk)

/-- Picks stay apart when the mover ends up with a page nobody else has picked, or none. -/
theorem Owned.apart_step (h : Owned s)
    (hnew : ∀ k, ((s.move allocStep i).priv i).picked = some k →
      ∀ j, j ≠ i → (s.priv j).picked ≠ some k) (j j' : ι) (k : Nat) (hne : j ≠ j')
    (hk : ((s.move allocStep i).priv j).picked = some k) :
    ((s.move allocStep i).priv j').picked ≠ some k := by
  by_cases hj : j = i
  · subst hj
    rw [move_other s (Ne.symm hne)]
    exact hnew k hk j' (Ne.symm hne)
  · rw [move_other s hj] at hk
    by_cases hj' : j' = i
    · subst hj'
      intro hk'
      exact hnew k hk' j hj hk
    · rw [move_other s hj']
      exact h.apart j j' k hne hk

/-- **Step lemma.**  A step that does not test a bit another process is about to set keeps
    every page with one owner. -/
theorem Owned.step (h : Owned s) (hok : NoRace s i) : Owned (s.move allocStep i) := by
  obtain ⟨ks, hnodup, hks, hout, hrec⟩ := h.record
  have hpool := allocStep_pool s.shared (s.priv i)
  have hks' : ∀ k ∈ ks, k < pmPages ∧ (s.move allocStep i).shared.pm.Used k :=
    fun k hk => ⟨(hks k hk).1, h.used_mono i (hks k hk).2⟩
  have hout' : ∀ j, j ≠ i → ∀ k ∈ ks, ((s.move allocStep i).priv j).picked ≠ some k := by
    intro j hj k hk
    rw [move_other s hj]
    exact hout j k hk
  have haddr : (s.move allocStep i).shared.pm.pageAddr = s.shared.pm.pageAddr :=
    funext (pageAddr_congr hpool)
  obtain ⟨hpick, hret⟩ | ⟨hp, hlti, hsame, hfree, hpick⟩ |
      ⟨k, hk, hpick, hused, hpick', hret⟩ :=
    allocStep_picked (h.ok i)
  · -- nothing happens to any page
    have hmi : ((s.move allocStep i).priv i).picked = (s.priv i).picked := by
      rw [move_self, hpick]
    refine ⟨h.ok_step, h.apart_step ?_, ks, hnodup, hks', ?_, ?_⟩
    · intro k hk j hj
      exact h.apart i j k (Ne.symm hj) (hmi ▸ hk)
    · intro j
      by_cases hj : j = i
      · rw [hj, hmi]
        exact hout i
      · exact hout' j hj
    · rw [haddr, ← hrec, pagesReturned, pagesReturned, move_shared]
      obtain hret | hret := hret <;> rw [hret]
      simp
  · -- a free page is picked: nobody else has it, and it was never returned
    have hmi : ((s.move allocStep i).priv i).picked =
        some ((s.priv i).idx * 32 + (s.priv i).bit) := by
      rw [move_self, hpick]
    refine ⟨h.ok_step, h.apart_step ?_, ks, hnodup, hks', ?_, ?_⟩
    · intro k hk j hj hkj
      obtain rfl := Option.some.inj (hmi.symm.trans hk)
      obtain ⟨hpend, heq, hlt⟩ := pending_of_picked (h.ok j) hkj hfree
      exact hok hp j hj hpend ⟨by omega, by omega⟩
    · intro j
      by_cases hj : j = i
      · intro k hk
        rw [hj, hmi]
        intro heq
        obtain rfl := Option.some.inj heq
        exact hfree (hks _ hk).2
      · exact hout' j hj
    · rw [haddr, ← hrec, pagesReturned, pagesReturned, move_shared, hsame]
  · -- the page goes to the caller
    have hmi : ((s.move allocStep i).priv i).picked = none := by
      rw [move_self, hpick']
    have hknew : k ∉ ks := fun hk' => hout i k hk' hpick
    refine ⟨h.ok_step, h.apart_step ?_, ks ++ [k], ?_, ?_, ?_, ?_⟩
    · intro k' hk'
      rw [hmi] at hk'
      exact absurd hk' (by simp)
    · rw [List.nodup_append]
      refine ⟨hnodup, List.nodup_singleton k, ?_⟩
      intro k₁ hk₁ k₂ hk₂ heq
      obtain rfl := List.mem_singleton.mp hk₂
      exact hknew (heq ▸ hk₁)
    · intro k' hk'
      obtain hk' | hk' := List.mem_append.mp hk'
      · exact hks' k' hk'
      · obtain rfl := List.mem_singleton.mp hk'
        exact ⟨hk, h.used_mono i hused⟩
    · intro j k' hk'
      by_cases hj : j = i
      · rw [hj, hmi]
        simp
      · obtain hk' | hk' := List.mem_append.mp hk'
        · exact hout' j hj k' hk'
        · obtain rfl := List.mem_singleton.mp hk'
          rw [move_other s hj]
          exact h.apart i j k' (Ne.symm hj) hpick
    · rw [haddr, pagesReturned, move_shared, hret, List.filter_append, ← pagesReturned, hrec,
        List.map_append, List.filter_append]
      rfl

/-- **Run lemma.** -/
theorem run_owned (hstart : NoneInside s₀) (hrun : Run (Interleaved allocStep NoRace) s₀ tr s) :
    Owned s := by
  refine hrun.invariant (J := fun _ s => Owned s) ?_ ?_
  · have hnone : ∀ i, (s₀.priv i).picked = none := by
      intro i
      simp [Caller.picked, hstart.2 i]
    refine ⟨?_, ?_, [], List.nodup_nil, by simp, by simp, by simp [pagesReturned, hstart.1]⟩
    · intro i
      simp only [Caller.Ok, hstart.2 i]
    · intro i j k _ hk
      rw [hnone i] at hk
      exact absurd hk (by simp)
  · rintro _ s i _ h ⟨hok, rfl⟩
    exact h.step hok

/-- **No page twice.**  Any number of processes call `pm_alloc`, each as often as it likes, and
    preempt each other at any step; as long as none of them tests a bit that another has found
    clear and is still to set, no page is returned twice. -/
theorem no_page_twice (hstart : NoneInside s₀)
    (hrun : Run (Interleaved allocStep NoRace) s₀ tr s) : (pagesReturned s).Nodup := by
  obtain ⟨ks, hnodup, hks, -, hrec⟩ := (run_owned hstart hrun).record
  rw [hrec]
  refine List.Nodup.filter _ (List.Nodup.map_on ?_ hnodup)
  intro k hk k' hk' heq
  exact pageAddr_inj (hks k hk).1 (hks k' hk').1 heq

/-- A map with one megabyte, two processes, and every page free. -/
def twoLoading : PmThreads Bool where
  shared := ⟨pmInit oneMegabyteMap, []⟩
  priv := fun _ => ⟨.out, 0, 0, 0#32⟩

/-- The second process allocates while the first one is about to look for a word, and a step
    of each follows in turn. -/
def politeSchedule : List Bool :=
  [false] ++ List.replicate 6 true ++ List.replicate 6 false

/-- Two calls that overlap without a race. -/
theorem no_page_twice_polite :
    ((politeSchedule.foldl (Threads.move allocStep) twoLoading).shared.returned.filter
      (· ≠ 0#32)).Nodup :=
  no_page_twice (show NoneInside twoLoading from ⟨rfl, fun _ => rfl⟩)
    (run_permitted politeSchedule (by decide))

/-! ### The race -/

/-- A process at `setBit` holds the address of its page, on any schedule. -/
theorem run_page_address (hstart : NoneInside s₀)
    (hrun : Run (Interleaved allocStep anyMove) s₀ tr s) (i : ι)
    (hp : (s.priv i).point = .setBit) :
    v2p (s.priv i).page = s.shared.pm.pageAddr ((s.priv i).idx * 32 + (s.priv i).bit) := by
  refine each (L := fun a c => c.point = .setBit →
    v2p c.page = a.pm.pageAddr (c.idx * 32 + c.bit)) hrun ?_ ?_ ?_ i hp
  · intro i hp
    rw [hstart.2 i] at hp
    exact absurd hp (by decide)
  · intro a c _ hp
    unfold allocStep at hp ⊢
    split at hp <;> rename_i hc
    case h_4 => rfl
    case h_2 => (repeat' split at hp) <;> simp_all
    case h_3 => (repeat' split at hp) <;> simp_all
    all_goals exact absurd hp (by simp)
  · intro a c d _ hd hp
    rw [hd hp]
    exact (pageAddr_congr (allocStep_pool a c) _).symm

/-- A process that has found its bit clear and gets the CPU until it returns. -/
theorem finish_alone {i : ι} (hpend : (s.priv i).pending = true)
    (hpage : (s.priv i).point = .setBit →
      v2p (s.priv i).page = s.shared.pm.pageAddr ((s.priv i).idx * 32 + (s.priv i).bit)) :
    ∃ tr t, Run (Interleaved allocStep anyMove) s tr t ∧ t.shared.pm.pool = s.shared.pm.pool ∧
      t.shared.returned = s.shared.returned ++
        [s.shared.pm.pageAddr ((s.priv i).idx * 32 + (s.priv i).bit)] ∧
      ∀ j, j ≠ i → t.priv j = s.priv j := by
  have hother : ∀ (n : Nat) (s : PmThreads ι) (j : ι), j ≠ i →
      ((List.replicate n i).foldl (Threads.move allocStep) s).priv j = s.priv j := by
    intro n
    induction n with
    | zero => exact fun _ _ _ => rfl
    | succ n ih =>
      intro s j hj
      rw [List.replicate_succ, List.foldl_cons, ih _ j hj, move_other s hj]
  cases hp : (s.priv i).point <;> simp only [Caller.pending, hp, Bool.false_eq_true] at hpend
  case calcPage =>
    refine ⟨_, _, run_schedule (List.replicate 3 i) s, ?_, ?_, hother 3 s⟩
    · simp [List.replicate_succ, allocStep, hp, Pm.mark]
    · simp [List.replicate_succ, allocStep, hp, Pm.pageAddr]
  case setBit =>
    refine ⟨_, _, run_schedule (List.replicate 2 i) s, ?_, ?_, hother 2 s⟩
    · simp [List.replicate_succ, allocStep, hp, Pm.mark]
    · simp [List.replicate_succ, allocStep, hp, hpage hp]

/-- **A race is always lost.**  Whenever two processes have both found the same bit clear, they
    can go on to return the same page. -/
theorem race_returns_same_page {i j : ι} (hstart : NoneInside s₀)
    (hrun : Run (Interleaved allocStep anyMove) s₀ tr s) (hrace : Race s i j) :
    ∃ tr' t p, Run (Interleaved allocStep anyMove) s tr' t ∧
      t.shared.returned = s.shared.returned ++ [p, p] := by
  obtain ⟨hne, hi, hj, hidx, hbit⟩ := hrace
  obtain ⟨tr₁, t₁, hrun₁, hpool₁, hret₁, hother₁⟩ :=
    finish_alone hi (run_page_address hstart hrun i)
  have hsame := hother₁ j (Ne.symm hne)
  obtain ⟨tr₂, t₂, hrun₂, -, hret₂, -⟩ :=
    finish_alone (s := t₁) (i := j) (by rw [hsame]; exact hj)
      (run_page_address hstart (hrun.append hrun₁) j)
  refine ⟨tr₁ ++ tr₂, t₂, s.shared.pm.pageAddr ((s.priv i).idx * 32 + (s.priv i).bit),
    hrun₁.append hrun₂, ?_⟩
  rw [hret₂, hret₁, hsame, pageAddr_congr hpool₁, hidx, hbit, List.append_assoc]
  rfl

/-- One process is preempted between testing the bit and setting it, the other one runs its
    whole call, and the first one goes on. -/
def raceSchedule : List Bool :=
  List.replicate 3 false ++ List.replicate 6 true ++ List.replicate 3 false

/-- Two processes that load at the same time can both be given the first page. -/
theorem race_reachable :
    ¬ ∀ (s₀ s : PmThreads Bool) (tr : List Bool), NoneInside s₀ →
      Run (Interleaved allocStep anyMove) s₀ tr s → (pagesReturned s).Nodup := by
  intro h
  have hdup := h twoLoading _ raceSchedule ⟨rfl, fun _ => rfl⟩ (run_schedule raceSchedule _)
  revert hdup
  decide

end Leoman
