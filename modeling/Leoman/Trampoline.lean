import Leoman.Lib.Interleave
import Mathlib.Data.Finset.Card
import Mathlib.Data.Fintype.Basic
import Mathlib.Order.Interval.Finset.Nat

namespace Leoman.Trampoline

open Leoman.Runs Leoman.Interleave

/-!
# The stacks of the application processors (`kernel/trampoline_bin.asm`)

Every application processor that is woken up runs the trampoline, and all of them may run it
at the same time.  `find_my_stack` takes a number off the dword `unique_stack_id` with a
`lock cmpxchg` loop and turns it into a stack pointer.  The model steps one instruction of
one processor at a time, in any order; the only instructions that touch memory are the load
and the locked exchange of `unique_stack_id`.

* `exec_cases` — what one instruction does to the number a processor holds: nothing, or the
  exchange succeeds, the processor leaves the loop with the current number and the dword
  moves on by one;
* `Counted` — the dword counts the processors that have left, and their numbers are exactly
  those below it;
* `private_stacks` — the numbers are distinct and without a gap, and the stacks do not
  overlap.
-/

/-! ### One processor -/

/-- `KERNEL_TRAMPOLINE_LOAD_ADDR`. -/
def kernelTrampolineLoadAddr : Nat := 0x8000

/-- `KERNEL_TRAMPOLINE_MAX_SIZE`. -/
def kernelTrampolineMaxSize : Nat := 0x1000

/-- `KERNEL_TRAMPOLINE_STACK_SIZE`. -/
def kernelTrampolineStackSize : Nat := 256

/-- `KERNEL_TRAMPOLINE_STACK_SIZE_LOG2`. -/
def kernelTrampolineStackSizeLog2 : Nat := 8

/-- `KERNEL_TRAMPOLINE_STACKS_START_ADDR`. -/
def kernelTrampolineStacksStartAddr : Nat := kernelTrampolineLoadAddr + kernelTrampolineMaxSize

/-- The next instruction of a processor, from `find_my_stack` on. -/
inductive Instr where
  /-- `mov eax, dword [unique_stack_id]`, the target of the loop. -/
  | findMyStack
  /-- `mov ebx, eax`. -/
  | movEbxEax
  /-- `inc ebx`. -/
  | incEbx
  /-- `lock cmpxchg dword [unique_stack_id], ebx`. -/
  | cmpxchg
  /-- `jnz find_my_stack`. -/
  | jnz
  /-- `dec ebx`. -/
  | decEbx
  /-- `mov esp, ebx`. -/
  | movEspEbx
  /-- `inc esp`. -/
  | incEsp
  /-- `shl esp, KERNEL_TRAMPOLINE_STACK_SIZE_LOG2`. -/
  | shlEsp
  /-- `add esp, KERNEL_TRAMPOLINE_STACKS_START_ADDR`. -/
  | addEsp
  /-- `enter_kmain_for_secondary_cores`. -/
  | enterKmain
deriving DecidableEq, Repr

/-- The registers of a processor that the loop uses.  Of the flags only the one that `jnz`
    tests, as `cmpxchg` leaves it. -/
structure Core where
  ip : Instr
  eax : BitVec 32
  ebx : BitVec 32
  esp : BitVec 32
  zf : Bool
deriving DecidableEq, Repr

/-- One instruction of one processor; `uniqueStackId` is the shared dword. -/
def exec (uniqueStackId : BitVec 32) (c : Core) : BitVec 32 × Core :=
  match c.ip with
  | .findMyStack => (uniqueStackId, { c with ip := .movEbxEax, eax := uniqueStackId })
  | .movEbxEax => (uniqueStackId, { c with ip := .incEbx, ebx := c.eax })
  | .incEbx => (uniqueStackId, { c with ip := .cmpxchg, ebx := c.ebx + 1#32 })
  | .cmpxchg =>
    -- compares with `eax`; on failure `eax` receives what is in memory
    if c.eax = uniqueStackId then (c.ebx, { c with ip := .jnz, zf := true })
    else (uniqueStackId, { c with ip := .jnz, zf := false, eax := uniqueStackId })
  | .jnz => (uniqueStackId, { c with ip := if c.zf then .decEbx else .findMyStack })
  | .decEbx => (uniqueStackId, { c with ip := .movEspEbx, ebx := c.ebx - 1#32 })
  | .movEspEbx => (uniqueStackId, { c with ip := .incEsp, esp := c.ebx })
  | .incEsp => (uniqueStackId, { c with ip := .shlEsp, esp := c.esp + 1#32 })
  | .shlEsp =>
    (uniqueStackId, { c with ip := .addEsp, esp := c.esp <<< kernelTrampolineStackSizeLog2 })
  | .addEsp =>
    (uniqueStackId, { c with ip := .enterKmain
                             esp := c.esp + BitVec.ofNat 32 kernelTrampolineStacksStartAddr })
  | .enterKmain => (uniqueStackId, c)

/-- The exchange has succeeded: nothing brings the processor back to `find_my_stack`. -/
def Core.left (c : Core) : Bool :=
  match c.ip with
  | .findMyStack | .movEbxEax | .incEbx | .cmpxchg => false
  | .jnz => c.zf
  | .decEbx | .movEspEbx | .incEsp | .shlEsp | .addEsp | .enterKmain => true

/-- The number a processor that has left the loop holds: `ebx` once `dec ebx` has run. -/
def Core.stackId (c : Core) : BitVec 32 :=
  match c.ip with
  | .jnz | .decEbx => c.ebx - 1#32
  | _ => c.ebx

/-- The bytes of the stack: `KERNEL_TRAMPOLINE_STACK_SIZE` of them, ending at `esp`. -/
def Core.stackArea (c : Core) : Finset Nat :=
  Finset.Ico (c.esp.toNat - kernelTrampolineStackSize) c.esp.toNat

/-- What the registers hold at each instruction. -/
def Core.Ok (c : Core) : Prop :=
  match c.ip with
  | .incEbx => c.ebx = c.eax
  | .cmpxchg => c.ebx = c.eax + 1#32
  | .incEsp => c.esp = c.ebx
  | .shlEsp => c.esp = c.ebx + 1#32
  | .addEsp => c.esp = (c.ebx + 1#32) <<< kernelTrampolineStackSizeLog2
  | .enterKmain =>
    c.esp = (c.ebx + 1#32) <<< kernelTrampolineStackSizeLog2 +
      BitVec.ofNat 32 kernelTrampolineStacksStartAddr
  | _ => True

/-- Every instruction keeps the registers in order, whatever the shared dword holds. -/
theorem exec_ok (u : BitVec 32) {c : Core} (h : c.Ok) : (exec u c).2.Ok := by
  unfold exec
  split <;> rename_i hip
  -- the exchange and the jump have two outcomes each
  case h_4 => split <;> trivial
  case h_5 => cases c.zf <;> trivial
  case h_11 => exact h
  all_goals simp_all [Core.Ok]

/-- **Step lemma.**  An instruction leaves the shared dword and the number held alone, unless
    it is an exchange that succeeds: then the processor leaves the loop with the number the
    dword held, and the dword moves on. -/
theorem exec_cases (u : BitVec 32) {c : Core} (h : c.Ok) :
    ((exec u c).1 = u ∧ (exec u c).2.left = c.left ∧
        (c.left = true → (exec u c).2.stackId = c.stackId)) ∨
      ((exec u c).1 = u + 1#32 ∧ c.left = false ∧ (exec u c).2.left = true ∧
        (exec u c).2.stackId = u) := by
  unfold exec
  split <;> rename_i hip
  case h_4 =>
    split
    · rename_i heq
      simp only [Core.Ok, hip] at h
      refine Or.inr ⟨by rw [h, heq], by simp [Core.left, hip], rfl, ?_⟩
      simp only [Core.stackId, h, heq]
      exact BitVec.add_sub_cancel u 1#32
    · exact Or.inl ⟨rfl, by simp [Core.left, hip], by simp [Core.left, hip]⟩
  case h_5 =>
    refine Or.inl ⟨rfl, ?_, ?_⟩
    · cases hz : c.zf <;> simp [Core.left, hip, hz]
    · intro hl
      have hz : c.zf = true := by simpa [Core.left, hip] using hl
      simp [Core.stackId, hip, hz]
  all_goals exact Or.inl ⟨rfl, by simp [Core.left, hip], by simp [Core.left, Core.stackId, hip]⟩

/-! ### Any number of processors -/

variable {ι : Type} [DecidableEq ι]

/-- The shared dword and the registers of every application processor. -/
abbrev Smp (ι : Type) : Type := Threads (BitVec 32) ι Core

/-- `smp_init` has cleared `unique_stack_id`, and every processor reaches `find_my_stack` with
    whatever its registers hold. -/
def Start (s : Smp ι) : Prop :=
  s.shared = 0#32 ∧ ∀ i, (s.priv i).ip = .findMyStack

/-- The instructions of the processors, in any order. -/
abbrev Step : Smp ι → ι → Smp ι → Prop := Interleaved exec anyMove

variable {s₀ s : Smp ι} {tr : List ι}

/-- The registers of every processor are in order in every state reached. -/
theorem run_ok (hstart : Start s₀) (hrun : Run Step s₀ tr s) (i : ι) : (s.priv i).Ok := by
  refine each (L := fun _ c => c.Ok) hrun ?_ ?_ ?_ i
  · intro i
    simp only [Core.Ok, hstart.2 i]
  · intro u c hc
    exact exec_ok u hc
  · intro _ _ _ _ hd
    exact hd

section Counting

variable [Fintype ι]

/-- The processors that have left the loop. -/
def leavers (s : Smp ι) : Finset ι := {i | (s.priv i).left = true}

omit [DecidableEq ι] in
@[simp] theorem mem_leavers {s : Smp ι} {i : ι} : i ∈ leavers s ↔ (s.priv i).left = true := by
  simp [leavers]

/-- The dword counts the processors that have left, and as long as it has not wrapped their
    numbers are those below it. -/
structure Counted (s : Smp ι) : Prop where
  counter : s.shared = BitVec.ofNat 32 (leavers s).card
  ids : (leavers s).card ≤ 2 ^ 32 →
    (leavers s).image (fun i => (s.priv i).stackId.toNat) = Finset.range (leavers s).card

/-- A move that leaves the mover's number and the dword alone. -/
theorem Counted.quiet {i : ι} (h : Counted s) (hu : (s.move exec i).shared = s.shared)
    (hl : ((s.move exec i).priv i).left = (s.priv i).left)
    (hid : (s.priv i).left = true → ((s.move exec i).priv i).stackId = (s.priv i).stackId) :
    Counted (s.move exec i) := by
  have hsame : leavers (s.move exec i) = leavers s := by
    ext j
    by_cases hj : j = i
    · subst hj
      rw [mem_leavers, mem_leavers, hl]
    · rw [mem_leavers, mem_leavers, move_other s hj]
  have himage : ∀ j ∈ leavers s,
      ((s.move exec i).priv j).stackId.toNat = (s.priv j).stackId.toNat := by
    intro j hj
    by_cases hji : j = i
    · subst hji
      rw [hid (mem_leavers.mp hj)]
    · rw [move_other s hji]
  refine ⟨by rw [hu, hsame, h.counter], ?_⟩
  intro hk
  rw [hsame] at hk ⊢
  rw [Finset.image_congr himage]
  exact h.ids hk

/-- The exchange that succeeds: the processor leaves with the number that comes next. -/
theorem Counted.leave {i : ι} (h : Counted s)
    (hu : (s.move exec i).shared = s.shared + 1#32) (hl : (s.priv i).left = false)
    (hl' : ((s.move exec i).priv i).left = true)
    (hid : ((s.move exec i).priv i).stackId = s.shared) : Counted (s.move exec i) := by
  have hnew : i ∉ leavers s := by simp [hl]
  have hinsert : leavers (s.move exec i) = insert i (leavers s) := by
    ext j
    rw [Finset.mem_insert, mem_leavers]
    by_cases hj : j = i
    · subst hj
      exact iff_of_true hl' (Or.inl rfl)
    · rw [move_other s hj, mem_leavers]
      simp [hj]
  have hcard : (leavers (s.move exec i)).card = (leavers s).card + 1 := by
    rw [hinsert, Finset.card_insert_of_notMem hnew]
  refine ⟨?_, ?_⟩
  · rw [hu, hcard, h.counter, BitVec.ofNat_add]
  · intro hk
    rw [hcard] at hk ⊢
    have hid' : ((s.move exec i).priv i).stackId.toNat = (leavers s).card := by
      rw [hid, h.counter, BitVec.toNat_ofNat]
      exact Nat.mod_eq_of_lt (by omega)
    have hold : ∀ j ∈ leavers s,
        ((s.move exec i).priv j).stackId.toNat = (s.priv j).stackId.toNat := by
      intro j hj
      have hji : j ≠ i := fun e => hnew (e ▸ hj)
      rw [move_other s hji]
    rw [hinsert, Finset.image_insert, hid', Finset.image_congr hold, h.ids (by omega),
      Finset.range_add_one]

/-- **Run lemma.**  However the instructions interleave, the dword counts the leavers. -/
theorem run_counted (hstart : Start s₀) (hrun : Run Step s₀ tr s) : Counted s := by
  have hboth : Counted s ∧ ∀ i, (s.priv i).Ok := by
    refine hrun.invariant (J := fun _ s => Counted s ∧ ∀ i, (s.priv i).Ok) ⟨?_, ?_⟩ ?_
    · have hnone : leavers s₀ = ∅ := by
        ext i
        simp [Core.left, hstart.2 i]
      exact ⟨by rw [hstart.1, hnone]; rfl, by rw [hnone]; intro _; rfl⟩
    · exact run_ok hstart Run.start
    · rintro _ s i _ ⟨hc, hok⟩ ⟨-, rfl⟩
      refine ⟨?_, ?_⟩
      · obtain ⟨hu, hl, hid⟩ | ⟨hu, hl, hl', hid⟩ := exec_cases s.shared (hok i)
        · exact hc.quiet (by rw [move_shared, hu]) (by rw [move_self, hl]) (by rwa [move_self])
        · exact hc.leave (by rw [move_shared, hu]) hl (by rw [move_self, hl'])
            (by rw [move_self, hid])
      · intro j
        by_cases hj : j = i
        · subst hj
          rw [move_self]
          exact exec_ok _ (hok j)
        · rw [move_other s hj]
          exact hok j
  exact hboth.1

end Counting

/-! ### The stacks -/

/-- The stack pointer of a processor that is done, as a number. -/
theorem esp_toNat {c : Core} (h : c.Ok) (hdone : c.ip = .enterKmain)
    (hid : c.stackId.toNat < 2 ^ 16) :
    c.esp.toNat = (c.stackId.toNat + 1) * kernelTrampolineStackSize +
      kernelTrampolineStacksStartAddr := by
  simp only [Core.Ok, hdone, kernelTrampolineStackSizeLog2, kernelTrampolineStacksStartAddr,
    kernelTrampolineLoadAddr, kernelTrampolineMaxSize] at h
  simp only [Core.stackId, hdone] at hid ⊢
  rw [h]
  simp only [kernelTrampolineStackSize, kernelTrampolineStacksStartAddr, kernelTrampolineLoadAddr,
    kernelTrampolineMaxSize, BitVec.toNat_add, BitVec.toNat_shiftLeft, BitVec.toNat_ofNat,
    Nat.shiftLeft_eq]
  omega

/-- **Private stacks.**  However the application processors interleave, those that have left
    the loop hold distinct numbers, these are `0 … k - 1` when `k` have left, and the stacks
    that belong to numbers below `2^16` lie apart from each other and above the trampoline.
    (The dword counts to `2^32`.) -/
theorem private_stacks [Fintype ι] (hstart : Start s₀) (hrun : Run Step s₀ tr s)
    (hk : (leavers s).card ≤ 2 ^ 32) :
    (∀ i ∈ leavers s, ∀ j ∈ leavers s, i ≠ j → (s.priv i).stackId ≠ (s.priv j).stackId) ∧
    (leavers s).image (fun i => (s.priv i).stackId.toNat) = Finset.range (leavers s).card ∧
    (∀ i j, i ≠ j → (s.priv i).ip = .enterKmain → (s.priv j).ip = .enterKmain →
      (s.priv i).stackId.toNat < 2 ^ 16 → (s.priv j).stackId.toNat < 2 ^ 16 →
      Disjoint (s.priv i).stackArea (s.priv j).stackArea) ∧
    ∀ i, (s.priv i).ip = .enterKmain → (s.priv i).stackId.toNat < 2 ^ 16 →
      (s.priv i).stackArea.card = kernelTrampolineStackSize ∧
      ∀ a ∈ (s.priv i).stackArea, kernelTrampolineStacksStartAddr ≤ a := by
  have hc := run_counted hstart hrun
  have hok := run_ok hstart hrun
  -- as many numbers as processors: no number is held twice
  have hinj : Set.InjOn (fun i => (s.priv i).stackId.toNat) (leavers s) := by
    rw [← Finset.card_image_iff, hc.ids hk, Finset.card_range]
  have hdistinct : ∀ i ∈ leavers s, ∀ j ∈ leavers s, i ≠ j →
      (s.priv i).stackId ≠ (s.priv j).stackId := by
    intro i hi j hj hij heq
    exact hij (hinj hi hj (congrArg BitVec.toNat heq))
  have hleft : ∀ i, (s.priv i).ip = .enterKmain → i ∈ leavers s := by
    intro i hi
    rw [mem_leavers, Core.left, hi]
  refine ⟨hdistinct, hc.ids hk, ?_, ?_⟩
  · intro i j hij hi hj hidi hidj
    have hne : (s.priv i).stackId.toNat ≠ (s.priv j).stackId.toNat := by
      intro heq
      exact hdistinct i (hleft i hi) j (hleft j hj) hij (BitVec.eq_of_toNat_eq heq)
    have hei := esp_toNat (hok i) hi hidi
    have hej := esp_toNat (hok j) hj hidj
    rw [Finset.disjoint_left]
    intro a hai haj
    simp only [Core.stackArea, Finset.mem_Ico, hei, hej, kernelTrampolineStackSize] at hai haj
    omega
  · intro i hi hid
    have he := esp_toNat (hok i) hi hid
    refine ⟨?_, ?_⟩
    · simp only [Core.stackArea, Nat.card_Ico, he, kernelTrampolineStackSize]
      omega
    · intro a ha
      simp only [Core.stackArea, Finset.mem_Ico, he, kernelTrampolineStackSize] at ha
      omega

/-- Two processors that load the same number: one exchange fails and is retried. -/
def contention : Smp Bool where
  shared := 0#32
  priv := fun _ => ⟨.findMyStack, 0#32, 0#32, 0#32, false⟩

/-- Both load before either exchanges; then each runs to the end. -/
def contentionSchedule : List Bool :=
  [false, true] ++ List.replicate 9 false ++ List.replicate 15 true

/-- The two processors end with stacks of their own. -/
theorem private_stacks_contention :
    Disjoint ((contentionSchedule.foldl (Threads.move exec) contention).priv false).stackArea
      ((contentionSchedule.foldl (Threads.move exec) contention).priv true).stackArea :=
  (private_stacks (show Start contention from ⟨rfl, fun _ => rfl⟩)
    (run_schedule contentionSchedule _) (by decide)).2.2.1 false true (by decide) (by decide)
      (by decide) (by decide) (by decide)

end Leoman.Trampoline
