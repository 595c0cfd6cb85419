import Leoman.Awake

namespace Leoman.Startup

open Smp Runs ByteMem
open Trampoline (Core exec exec_cases exec_ok esp_toNat kernelTrampolineStackSize
  kernelTrampolineStacksStartAddr)

/-!
# The stacks, from power on

`find_my_stack` by itself is in `Trampoline`.  Here the processors come to it as `smp_init` starts
them: late, after a call has given up, or once more, after another INIT.

* `Ap.holder` — a processor that has taken a number; `Ap.seeker` — one that will;
* `Stacked` — the numbers taken are those below `unique_stack_id`, no two processors hold the same
  one, and there are not more of them than calls;
* `startup_stacks` — the stacks of all processors lie apart, above the trampoline.
-/

/-- The registers of a processor that has come to `find_my_stack`. -/
def Ap.core : Ap → Option Core
  | trampoline c | kmain c | counted c => some c
  | halted | waiting | started _ => none

/-- It has taken a number. -/
def Ap.holder (a : Ap) : Option Core := a.core.filter Core.left

/-- It will take one. -/
def Ap.seeker : Ap → Bool
  | started _ => true
  | trampoline c => !c.left
  | halted | waiting | kmain _ | counted _ => false

/-- The processors that will take a number, and the ones for which a STARTUP is on its way. -/
def System.seekers (s : System) : Nat := tally Ap.seeker s.ap + s.sent.countP Ipi.isStartup

/-- The first `k` numbers are taken. -/
structure Stacked (s : System) (k : Nat) : Prop where
  next : s.uniqueStackId = BitVec.ofNat 32 k
  calls : k + s.seekers + s.phase.due ≤ s.bsp.calls.length
  ok : ∀ i c, (s.ap i).core = some c → c.Ok
  entered : ∀ i c, s.ap i = .kmain c ∨ s.ap i = .counted c → c.ip = .enterKmain
  below : ∀ i c, (s.ap i).holder = some c → c.stackId.toNat < k
  apart : ∀ i j c d, i ≠ j → (s.ap i).holder = some c → (s.ap j).holder = some d →
    c.stackId ≠ d.stackId

section Stacked

variable {mem : Mem} {table : BitVec 32} {N k : Nat} {s s' : System} {i : BitVec 8} {a : Ap}
  {c : Core}

/-- A processor with a stack has entered the trampoline. -/
theorem Ap.core_of_holder (h : a.holder = some c) : a.core = some c :=
  (Option.filter_eq_some_iff.mp h).1

/-! ### The bootstrap processor -/

/-- What the bootstrap processor does not touch, and how many a STARTUP makes. -/
theorem bspStep_frame (mem : Mem) (table : BitVec 32) (s : System) (apicReg : BitVec 32) :
    (s.bspStep mem table apicReg).ap = s.ap ∧
      (s.bspStep mem table apicReg).uniqueStackId = s.uniqueStackId ∧
      (s.bspStep mem table apicReg).sent.countP Ipi.isStartup
          + (s.bspStep mem table apicReg).phase.due + s.bsp.calls.length
        = s.sent.countP Ipi.isStartup + s.phase.due
          + (s.bspStep mem table apicReg).bsp.calls.length := by
  unfold System.bspStep
  split <;> rename_i hp
  · rw [hp]
    split
    · exact ⟨rfl, rfl, rfl⟩
    · have hvisit : ∀ n next, (s.visit n next).phase.due = 0 := fun n next => congrArg Phase.due hp
      split
      · split
        · exact ⟨rfl, rfl, rfl⟩
        · exact ⟨rfl, rfl, by rw [hvisit]; rfl⟩
      · exact ⟨rfl, rfl, by rw [hvisit]; rfl⟩
      · exact ⟨rfl, rfl, by rw [hvisit]; rfl⟩
      · exact ⟨rfl, rfl, by rw [hvisit]; rfl⟩
      · exact ⟨rfl, rfl, by rw [hvisit]; rfl⟩
      · exact ⟨rfl, rfl, rfl⟩
  · -- the call owes a STARTUP from now on
    rename_i id
    rw [hp]
    refine ⟨rfl, rfl, ?_⟩
    show _ + 1 + _ = _ + 0 + (s.bsp.calls ++ [id]).length
    rw [List.length_append, List.length_singleton]
    show s.sent.countP _ + _ + _ = _
    omega
  · split
    · exact ⟨rfl, rfl, rfl⟩
    · rename_i id saved _
      rw [hp]
      refine ⟨rfl, rfl, ?_⟩
      show List.countP Ipi.isStartup (s.sent ++ [⟨id, 0x4500#32⟩]) + 1 + s.bsp.calls.length = _
      rw [List.countP_append, List.countP_singleton, init_isStartup]
      rfl
  · split
    · exact ⟨rfl, rfl, rfl⟩
    · rename_i id saved _
      rw [hp]
      refine ⟨rfl, rfl, ?_⟩
      show List.countP Ipi.isStartup
        (s.sent ++ [⟨id, 0x4600#32 ||| trampolinePage.setWidth 32⟩]) + 0 + s.bsp.calls.length = _
      rw [List.countP_append, List.countP_singleton, startup_isStartup]
      rfl
  · rw [hp]
    exact ⟨rfl, rfl, rfl⟩
  · rw [hp]
    dsimp only
    split
    · exact ⟨rfl, rfl, rfl⟩
    · split
      · exact ⟨rfl, rfl, rfl⟩
      · exact ⟨rfl, rfl, rfl⟩
  · exact ⟨rfl, rfl, rfl⟩

/-- A step that moves no processor. -/
theorem Stacked.goes (h : Stacked s k) (hap : s'.ap = s.ap)
    (hnext : s'.uniqueStackId = s.uniqueStackId)
    (hcalls : s'.seekers + s'.phase.due + s.bsp.calls.length
      ≤ s.seekers + s.phase.due + s'.bsp.calls.length) : Stacked s' k := by
  have hnum := h.calls
  refine ⟨by rw [hnext, h.next], by omega, ?_, ?_, ?_, ?_⟩
  all_goals rw [hap]
  · exact h.ok
  · exact h.entered
  · exact h.below
  · exact h.apart

/-! ### The others -/

/-- A processor changes: it holds the number it held, or the next one. -/
theorem Stacked.change {k' : Nat} (h : Stacked s k) (hap : s'.ap = Function.update s.ap i a)
    (hbsp : s'.bsp = s.bsp) (hphase : s'.phase = s.phase)
    (hnext : s'.uniqueStackId = BitVec.ofNat 32 k') (hk : k ≤ k')
    (hseekers : k' + a.seeker.toNat + s'.sent.countP Ipi.isStartup
      ≤ k + (s.ap i).seeker.toNat + s.sent.countP Ipi.isStartup) (hok : ∀ c, a.core = some c → c.Ok)
    (hentered : ∀ c, a = .kmain c ∨ a = .counted c → c.ip = .enterKmain)
    (hholder : ∀ c, a.holder = some c →
      (∃ d, (s.ap i).holder = some d ∧ d.stackId = c.stackId) ∨
        (c.stackId.toNat = k ∧ k < k')) : Stacked s' k' := by
  have hcalls : k' + s'.seekers + s.phase.due ≤ s.bsp.calls.length := by
    have hnum := h.calls
    have hsum := tally_update Ap.seeker s.ap i a
    unfold System.seekers at hnum ⊢
    rw [hap]
    omega
  -- the number of the processor is none of the others'
  have hother : ∀ j c d, j ≠ i → a.holder = some c → (s.ap j).holder = some d →
      c.stackId ≠ d.stackId := by
    intro j c d hj hc hd
    rcases hholder c hc with ⟨c₀, hc₀, hsame⟩ | ⟨hval, -⟩
    · rw [← hsame]
      exact h.apart i j c₀ d (Ne.symm hj) hc₀ hd
    · have hlt := h.below j d hd
      intro heq
      rw [← heq] at hlt
      omega
  refine ⟨hnext, by rw [hbsp, hphase]; exact hcalls, ?_, ?_, ?_, ?_⟩
  all_goals rw [hap]
  · intro j c hc
    by_cases hj : j = i
    · rw [hj, Function.update_self] at hc
      exact hok c hc
    · rw [Function.update_of_ne hj] at hc
      exact h.ok j c hc
  · intro j c hc
    by_cases hj : j = i
    · rw [hj, Function.update_self] at hc
      exact hentered c hc
    · rw [Function.update_of_ne hj] at hc
      exact h.entered j c hc
  · intro j c hc
    by_cases hj : j = i
    · rw [hj, Function.update_self] at hc
      rcases hholder c hc with ⟨d, hd, hsame⟩ | ⟨hval, hlt⟩
      · rw [← hsame]
        exact (h.below i d hd).trans_le hk
      · omega
    · rw [Function.update_of_ne hj] at hc
      exact (h.below j c hc).trans_le hk
  · intro j l c d hjl hc hd
    by_cases hj : j = i
    · rw [hj, Function.update_self] at hc
      have hl : l ≠ i := fun hl => hjl (hj.trans hl.symm)
      rw [Function.update_of_ne hl] at hd
      exact hother l c d hl hc hd
    · rw [Function.update_of_ne hj] at hc
      by_cases hl : l = i
      · rw [hl, Function.update_self] at hd
        exact (hother j d c hj hd hc).symm
      · rw [Function.update_of_ne hl] at hd
        exact h.apart j l c d hjl hc hd

/-- A step of the bootstrap processor. -/
theorem Stacked.bspStep (h : Stacked s k) (apicReg : BitVec 32) :
    Stacked (s.bspStep mem table apicReg) k := by
  obtain ⟨hap, hnext, hcalls⟩ := bspStep_frame mem table s apicReg
  refine h.goes hap hnext ?_
  unfold System.seekers
  rw [hap]
  omega

/-- An interrupt leaves a processor as it is, or takes it off whatever it did. -/
theorem receive_core (m : Ipi) (a : Ap) : a.receive m = a ∨ (a.receive m).core = none := by
  unfold Ap.receive
  split
  · exact Or.inr rfl
  · split
    · exact Or.inr rfl
    · exact Or.inl rfl

/-- A start-up makes a processor one more that looks for a stack. -/
theorem receive_seeker (m : Ipi) (a : Ap) :
    (a.receive m).seeker.toNat ≤ a.seeker.toNat + m.isStartup.toNat := by
  unfold Ap.receive
  split
  · exact Nat.zero_le _
  · split
    · rename_i hstart
      rw [Bool.and_eq_true] at hstart
      rw [hstart.1]
      exact Nat.le_add_left _ _
    · exact Nat.le_add_right _ _

/-- An interrupt arrives. -/
theorem Stacked.deliver (h : Stacked s k) : Stacked s.deliver k := by
  unfold System.deliver
  split
  · exact h
  · rename_i m rest hsent
    have hcases := receive_core m (s.ap m.coreId)
    have hnone : ∀ {a : Ap} {c : Core}, a.core = none → a.core ≠ some c := fun h h' =>
      absurd (h.symm.trans h') nofun
    refine h.change rfl rfl rfl h.next le_rfl ?_ ?_ ?_ ?_
    · have hreceive := receive_seeker m (s.ap m.coreId)
      have hcount : s.sent.countP Ipi.isStartup
          = rest.countP Ipi.isStartup + m.isStartup.toNat := by
        rw [hsent, List.countP_cons, Bool.toNat, cond_eq_ite]
      dsimp only
      omega
    · intro c hc
      rcases hcases with hsame | hoff
      · rw [hsame] at hc
        exact h.ok _ c hc
      · exact absurd hc (hnone hoff)
    · intro c hc
      rcases hcases with hsame | hoff
      · rw [hsame] at hc
        exact h.entered _ c hc
      · rcases hc with hc | hc
        · rw [hc] at hoff
          exact nomatch hoff
        · rw [hc] at hoff
          exact nomatch hoff
    · intro c hc
      rcases hcases with hsame | hoff
      · rw [hsame] at hc
        exact Or.inl ⟨c, hc, rfl⟩
      · exact absurd (Ap.core_of_holder hc) (hnone hoff)

/-- A processor enters the trampoline. -/
theorem Stacked.enter (h : Stacked s k) (i : BitVec 8) (c : Core) : Stacked (s.enter i c) k := by
  unfold System.enter
  split
  · rename_i page hap
    split
    · refine h.change rfl rfl rfl h.next le_rfl ?_ ?_ ?_ ?_
      · rw [hap]
        exact le_rfl
      · intro d hd
        rw [← Option.some.inj hd]
        exact True.intro
      · rintro d (hd | hd) <;> exact nomatch hd
      · intro d hd
        obtain ⟨hd, hleft⟩ := Option.filter_eq_some_iff.mp hd
        obtain rfl := Option.some.inj hd
        exact nomatch hleft
    · exact h
  · exact h

/-- A processor goes on with the registers it has, and the number it has. -/
theorem Stacked.coreStep (hN : s.bsp.calls.length < 2 ^ 32) (h : Stacked s k) (i : BitVec 8) :
    ∃ k', Stacked (s.coreStep i) k' := by
  unfold System.coreStep
  split
  · rename_i c hap
    have hok : c.Ok := h.ok i c (by rw [hap]; rfl)
    split
    · -- it leaves the trampoline
      rename_i hip
      have hleft : c.left = true := by rw [Core.left, hip]
      refine ⟨k, h.change rfl rfl rfl h.next le_rfl ?_ ?_ ?_ ?_⟩
      · exact Nat.add_le_add_right (Nat.add_le_add_left (Nat.zero_le _) _) _
      · intro d hd
        rw [← Option.some.inj hd]
        exact hok
      · rintro d (hd | hd)
        · rw [← Ap.kmain.inj hd]
          exact hip
        · cases hd
      · intro d hd
        left
        rw [hap]
        exact ⟨d, hd, rfl⟩
    · -- an instruction of the loop
      have hok' := exec_ok s.uniqueStackId hok
      have hcore : ∀ d, (Ap.trampoline (exec s.uniqueStackId c).2).core = some d → d.Ok := by
        intro d hd
        rw [← Option.some.inj hd]
        exact hok'
      have hheld : ∀ {a d : Core}, (Ap.trampoline a).holder = some d → a = d ∧ a.left = true := by
        intro a d hd
        obtain ⟨hd, hleft⟩ := Option.filter_eq_some_iff.mp hd
        obtain rfl := Option.some.inj hd
        exact ⟨rfl, hleft⟩
      rcases exec_cases s.uniqueStackId hok with ⟨hnum, hleft, hid⟩ | ⟨hnum, hleft, hleft', hid⟩
      · refine ⟨k, h.change rfl rfl rfl (hnum.trans h.next) le_rfl ?_ hcore ?_ ?_⟩
        · rw [hap]
          show k + (!(exec s.uniqueStackId c).2.left).toNat + _ ≤ k + (!c.left).toNat + _
          rw [hleft]
        · rintro d (hd | hd) <;> cases hd
        · intro d hd
          obtain ⟨rfl, hd'⟩ := hheld hd
          rw [hleft] at hd'
          left
          rw [hap]
          refine ⟨c, ?_, (hid hd').symm⟩
          exact Option.filter_eq_some_iff.mpr ⟨rfl, hd'⟩
      · -- the exchange that succeeds
        have hcalls := h.calls
        refine ⟨k + 1, h.change rfl rfl rfl ?_ (Nat.le_succ k) ?_ hcore ?_ ?_⟩
        · show (exec s.uniqueStackId c).1 = _
          rw [hnum, h.next, BitVec.ofNat_add]
        · rw [hap]
          show k + 1 + (!(exec s.uniqueStackId c).2.left).toNat + _ ≤ k + (!c.left).toNat + _
          rw [hleft, hleft']
          exact le_rfl
        · rintro d (hd | hd) <;> cases hd
        · intro d hd
          obtain ⟨rfl, -⟩ := hheld hd
          refine Or.inr ⟨?_, Nat.lt_succ_self k⟩
          rw [hid, h.next, BitVec.toNat_ofNat]
          exact Nat.mod_eq_of_lt (by omega)
  · -- it counts itself
    rename_i c hap
    refine ⟨k, h.change rfl rfl rfl h.next le_rfl ?_ ?_ ?_ ?_⟩
    · rw [hap]
      exact le_rfl
    · intro d hd
      rw [← Option.some.inj hd]
      exact h.ok i c (by rw [hap]; rfl)
    · rintro d (hd | hd)
      · cases hd
      · rw [← Ap.counted.inj hd]
        exact h.entered i c (Or.inl hap)
    · intro d hd
      left
      rw [hap]
      exact ⟨d, hd, rfl⟩
  · exact ⟨k, h⟩

/-- **Step lemma**, for every event. -/
theorem Stacked.step (hN : s.bsp.calls.length < 2 ^ 32) (h : Stacked s k) (e : Event) :
    ∃ k', Stacked (s.step mem table e) k' := by
  cases e with
  | bsp apicReg => exact ⟨k, h.bspStep apicReg⟩
  | deliver => exact ⟨k, h.deliver⟩
  | enter i c => exact ⟨k, h.enter i c⟩
  | core i => exact h.coreStep hN i

/-- **Run lemma.** -/
theorem run_stacked (mem : Mem) (table : BitVec 32) (waits : BitVec 8 → Bool) (tr : List Event) :
    ∃ k, Stacked ((powerOn mem table waits).run mem table tr) k := by
  have hN : (entryCount mem table).toNat < 2 ^ 16 := (entryCount mem table).isLt
  induction tr using List.reverseRecOn with
  | nil =>
    have hap : ∀ i, (powerOn mem table waits).ap i = .waiting ∨
        (powerOn mem table waits).ap i = .halted := fun i => by
      show (if waits i then Ap.waiting else .halted) = _ ∨
        (if waits i then Ap.waiting else .halted) = _
      split <;> simp
    have hcore : ∀ i c, ((powerOn mem table waits).ap i).core ≠ some c := by
      intro i c
      rcases hap i with h | h <;> rw [h] <;> exact nofun
    have hseekers : tally Ap.seeker (powerOn mem table waits).ap = 0 := by
      refine Finset.sum_eq_zero fun i _ => ?_
      rcases hap i with h | h <;> rw [h] <;> rfl
    refine ⟨0, rfl, ?_, ?_, ?_, ?_, ?_⟩
    · show 0 + (tally Ap.seeker (powerOn mem table waits).ap + 0) + 0 ≤ 0
      rw [hseekers]
    · exact fun i c hc => absurd hc (hcore i c)
    · rintro i c (hc | hc)
      · exact absurd (congrArg Ap.core hc) (hcore i c)
      · exact absurd (congrArg Ap.core hc) (hcore i c)
    · exact fun i c hc => absurd (Ap.core_of_holder hc) (hcore i c)
    · exact fun i _ c _ _ hc => absurd (Ap.core_of_holder hc) (hcore i c)
  | append_singleton tr e ih =>
    obtain ⟨k, hk⟩ := ih
    obtain ⟨ha, -⟩ := run_accounted mem table waits tr
    have hrounds := ha.rounds
    rw [System.run, List.foldl_concat]
    exact hk.step (by omega) e

/-! ### The areas -/

/-- The processor runs on its stack. -/
def Ap.onStack : Ap → Option Core
  | kmain c | counted c => some c
  | halted | waiting | started _ | trampoline _ => none

/-- A processor that runs `kmain_secondary_cores` has its stack. -/
theorem Stacked.holder_of_onStack (h : Stacked s k) (hc : (s.ap i).onStack = some c) :
    (s.ap i).holder = some c ∧ c.ip = .enterKmain := by
  have hentered : c.ip = .enterKmain ∧ (s.ap i).core = some c := by
    cases hap : s.ap i with
    | kmain d =>
      rw [hap] at hc
      obtain rfl := Option.some.inj hc
      exact ⟨h.entered i d (Or.inl hap), rfl⟩
    | counted d =>
      rw [hap] at hc
      obtain rfl := Option.some.inj hc
      exact ⟨h.entered i d (Or.inr hap), rfl⟩
    | _ =>
      rw [hap] at hc
      exact nomatch hc
  refine ⟨Option.filter_eq_some_iff.mpr ⟨hentered.2, ?_⟩, hentered.1⟩
  rw [Core.left, hentered.1]

/-- **The stacks of all processors lie apart**, and above the trampoline, in every order of steps
    and arrivals: whatever calls have given up, and whatever processors were started once more. -/
theorem startup_stacks (mem : Mem) (table : BitVec 32) (waits : BitVec 8 → Bool)
    (tr : List Event) :
    let s := (powerOn mem table waits).run mem table tr
    ∀ i c, (s.ap i).onStack = some c →
      c.stackArea.card = kernelTrampolineStackSize ∧
      (∀ x ∈ c.stackArea, kernelTrampolineStacksStartAddr ≤ x ∧
        x < kernelTrampolineStacksStartAddr + s.bsp.calls.length * kernelTrampolineStackSize) ∧
      ∀ j d, i ≠ j → (s.ap j).onStack = some d → Disjoint c.stackArea d.stackArea := by
  intro s i c hc
  obtain ⟨k, hk⟩ := run_stacked mem table waits tr
  obtain ⟨ha, -⟩ := run_accounted mem table waits tr
  have hN : (entryCount mem table).toNat < 2 ^ 16 := (entryCount mem table).isLt
  have hrounds : s.bsp.calls.length + s.phase.coming + s.left ≤ _ := ha.rounds
  have hcalls : k + s.seekers + s.phase.due ≤ s.bsp.calls.length := hk.calls
  have harea : ∀ j d, (s.ap j).onStack = some d → d.stackId.toNat < k ∧
      d.esp.toNat = (d.stackId.toNat + 1) * kernelTrampolineStackSize
        + kernelTrampolineStacksStartAddr := by
    intro j d hd
    obtain ⟨hholder, hip⟩ := hk.holder_of_onStack hd
    have hbelow := hk.below j d hholder
    exact ⟨hbelow, esp_toNat (hk.ok j d (Ap.core_of_holder hholder)) hip (by omega)⟩
  -- the area of a number
  have hmem : ∀ j d, (s.ap j).onStack = some d → ∀ x, x ∈ d.stackArea ↔
      kernelTrampolineStacksStartAddr + d.stackId.toNat * kernelTrampolineStackSize ≤ x ∧
        x < kernelTrampolineStacksStartAddr
          + (d.stackId.toNat + 1) * kernelTrampolineStackSize := by
    intro j d hd x
    obtain ⟨-, hesp⟩ := harea j d hd
    rw [Core.stackArea, Finset.mem_Ico, hesp, Nat.add_one_mul]
    omega
  obtain ⟨hbelow, hesp⟩ := harea i c hc
  refine ⟨?_, fun x hx => ?_, fun j d hij hd => ?_⟩
  · rw [Core.stackArea, Nat.card_Ico, hesp, Nat.add_one_mul]
    omega
  · obtain ⟨hlow, hhigh⟩ := (hmem i c hc x).mp hx
    refine ⟨(Nat.le_add_right _ _).trans hlow, hhigh.trans_le ?_⟩
    exact Nat.add_le_add_left (Nat.mul_le_mul_right _ (by omega)) _
  · have hne : c.stackId.toNat ≠ d.stackId.toNat := fun heq =>
      hk.apart i j c d hij (hk.holder_of_onStack hc).1 (hk.holder_of_onStack hd).1
        (BitVec.eq_of_toNat_eq heq)
    rw [Finset.disjoint_left]
    intro x hx hx'
    have hc' := (hmem i c hc x).mp hx
    have hd' := (hmem j d hd x).mp hx'
    rw [kernelTrampolineStackSize] at hc' hd'
    omega

end Stacked

/-- The two processors of the small system. -/
theorem startup_stacks_three : ∃ c d, (threeAwake.ap 0x01#8).onStack = some c ∧
    (threeAwake.ap 0x02#8).onStack = some d ∧ Disjoint c.stackArea d.stackArea := by
  have htest : (threeAwake.ap 0x01#8).onStack.isSome ∧ (threeAwake.ap 0x02#8).onStack.isSome := by
    decide +kernel
  obtain ⟨c, hc⟩ := Option.isSome_iff_exists.mp htest.1
  obtain ⟨d, hd⟩ := Option.isSome_iff_exists.mp htest.2
  obtain ⟨-, -, hapart⟩ := startup_stacks threeMem 0xf0000#32 (fun _ => false) _ _ c hc
  exact ⟨c, d, hc, hd, hapart _ d (by decide) hd⟩

end Leoman.Startup
