import Leoman.Startup

namespace Leoman.Startup

open Smp Runs Rounds ByteMem Filter
open Trampoline (Core kernelTrampolineMaxSize)

/-!
# `smp_init` among the other processors

What the bootstrap processor does between the steps of the others is what `smp_init` does in a
`World` in which it reads the same.

* `resume` — what is left of `smp_init`;
* `Saw` — the world in which the reads are those made so far;
* `resume_step`, `resume_run` — a step, and a run, get to what is left of `smp_init`;
* `smp_init_awake` — a run in which `smp_init` comes to its end.
-/

variable (w : World) (mem : Mem) (table : BitVec 32)

/-- What is left of `smp_init`. -/
def resume (rounds : Nat) (s : System) : Option Bsp :=
  match s.phase with
  | .entry => smpInitLoop w mem table rounds s.left s.next s.bsp
  | .call id => do
    let (_, b) ← smpInitCore w mem table rounds id s.bsp
    smpInitLoop w mem table rounds s.left s.next b
  | .init id saved => do
    let (_, b) ← smpSendInitIpi w mem table rounds id s.bsp
    let (_, b) ← smpSendStartupIpi w mem table rounds id trampolinePage b
    smpInitLoop w mem table rounds s.left s.next (waitForCore w saved 10000001 b).2
  | .startup id saved => do
    let (_, b) ← smpSendStartupIpi w mem table rounds id trampolinePage s.bsp
    smpInitLoop w mem table rounds s.left s.next (waitForCore w saved 10000001 b).2
  | .poll _ saved n =>
    smpInitLoop w mem table rounds s.left s.next (waitForCore w saved n s.bsp).2
  | .done => some s.bsp

/-- A world in which these are the first reads. -/
structure Saw (reads : List (BitVec 32)) : Prop where
  size : w.trampolineBinSize.toNat ≤ kernelTrampolineMaxSize
  apic : ∀ n v, reads[n]? = some v → w.apic n (localApicAddr mem table + 0x30#32) = v
  num : ∀ n v, reads[n]? = some v → w.initializedCoresNum n = v

section Resume

variable {w mem table} {s : System} {b b' : Bsp} {apic command apicReg v x : BitVec 32}
  {id : BitVec 8} {rounds n : Nat} {reads more : List (BitVec 32)}

/-- What was seen in the end had been seen before, … -/
theorem Saw.of_append (h : Saw w mem table (reads ++ more)) : Saw w mem table reads := by
  have hkept : ∀ n v, reads[n]? = some v → (reads ++ more)[n]? = some v := fun n v hv => by
    rw [List.getElem?_append_left (List.getElem?_eq_some_iff.mp hv).1, hv]
  exact ⟨h.size, fun n v hv => h.apic n v (hkept n v hv), fun n v hv => h.num n v (hkept n v hv)⟩

/-- The last read. -/
theorem Saw.last_num (h : Saw w mem table (reads ++ [v])) (hn : reads.length = n) :
    w.initializedCoresNum n = v :=
  h.num n v (by rw [← hn, List.getElem?_concat_length])

/-- … and the last read is the value the register had. -/
theorem Saw.last_apic (h : Saw w mem table (reads ++ [v])) (hn : reads.length = n) :
    w.apic n (localApicAddr mem table + 0x30#32) = v :=
  h.apic n v (by rw [← hn, List.getElem?_concat_length])

/-! ### The waiting loop -/

/-- An interrupt, once the loop is over. -/
theorem sendIpi_eq : sendIpi w command apic rounds id b = (waitIdle w apic rounds b).map fun b =>
    (0, (b.act (.mmioWrite (apic + 0x310#32) (id.setWidth 32 <<< 24))).act
      (.mmioWrite (apic + 0x300#32) command)) := by
  unfold sendIpi
  cases waitIdle w apic rounds b <;> rfl

/-- A busy APIC is read again, … -/
theorem waitIdle_busy (h : w.apic b.now (apic + 0x30#32) &&& 0x1000#32 ≠ 0#32) :
    waitIdle w apic (rounds + 1) b = waitIdle w apic rounds b.tick := if_pos h

/-- … and an idle one ends the wait. -/
theorem waitIdle_idle (h : ¬ w.apic b.now (apic + 0x30#32) &&& 0x1000#32 ≠ 0#32) :
    waitIdle w apic (rounds + 1) b = some b.tick := if_neg h

/-- More rounds give the same. -/
theorem waitIdle_succ (h : waitIdle w apic rounds b = some b') :
    waitIdle w apic (rounds + 1) b = some b' := by
  induction rounds generalizing b with
  | zero => exact nomatch h
  | succ n ih =>
    by_cases hbusy : w.apic b.now (apic + 0x30#32) &&& 0x1000#32 ≠ 0#32
    · rw [waitIdle_busy hbusy] at h ⊢
      exact ih h
    · rw [waitIdle_idle hbusy] at h ⊢
      exact h

/-- **A round of the loop** in which the APIC is busy, before whatever comes next. -/
theorem sendIpi_busy {α : Type} {g : Nat → Int × Bsp → Option α} {y : α}
    (hbusy : w.apic b.now (apic + 0x30#32) &&& 0x1000#32 ≠ 0#32)
    (h : ∀ᶠ rounds in atTop, (sendIpi w command apic rounds id b.tick).bind (g rounds) = some y) :
    ∀ᶠ rounds in atTop, (sendIpi w command apic rounds id b).bind (g rounds) = some y := by
  obtain ⟨N, hN⟩ := eventually_atTop.mp h
  refine eventually_atTop.mpr ⟨N + 1, fun r hr => ?_⟩
  obtain ⟨n, rfl⟩ : ∃ n, r = n + 1 := ⟨r - 1, by omega⟩
  -- with a round less it has got to the same state
  obtain ⟨p, hp, -⟩ := Option.bind_eq_some_iff.mp (hN n (by omega))
  obtain ⟨p', hp', hg⟩ := Option.bind_eq_some_iff.mp (hN (n + 1) (by omega))
  rw [sendIpi_eq] at hp hp'
  obtain ⟨b', hb', rfl⟩ := Option.map_eq_some_iff.mp hp
  rw [waitIdle_succ hb', Option.map_some] at hp'
  rw [sendIpi_eq, waitIdle_busy hbusy, hb', Option.map_some, hp']
  exact hg

/-- The round in which it is idle. -/
theorem sendIpi_idle {α : Type} {g : Nat → Int × Bsp → Option α} {y : α}
    (hidle : ¬ w.apic b.now (apic + 0x30#32) &&& 0x1000#32 ≠ 0#32)
    (h : ∀ᶠ rounds in atTop, g rounds (0, (b.tick.act (.mmioWrite (apic + 0x310#32)
      (id.setWidth 32 <<< 24))).act (.mmioWrite (apic + 0x300#32) command)) = some y) :
    ∀ᶠ rounds in atTop, (sendIpi w command apic rounds id b).bind (g rounds) = some y := by
  filter_upwards [h, eventually_ge_atTop 1] with r hr hpos
  obtain ⟨n, rfl⟩ : ∃ n, r = n + 1 := ⟨r - 1, by omega⟩
  rw [sendIpi_eq, waitIdle_idle hidle]
  exact hr

/-- `smp_init_core`, where the trampoline fits: its checks do not fail. -/
theorem smpInitCore_eq (hsize : w.trampolineBinSize.toNat ≤ kernelTrampolineMaxSize) :
    smpInitCore w mem table rounds id b =
      (smpSendInitIpi w mem table rounds id
        (Bsp.tick { b with calls := b.calls ++ [id] })).bind fun p =>
      (smpSendStartupIpi w mem table rounds id trampolinePage p.2).bind fun p =>
        some (waitForCore w (w.initializedCoresNum b.now) 10000001 p.2) := by
  unfold smpInitCore smpSendInitIpi smpSendStartupIpi
  simp only [if_neg (Nat.not_lt.mpr hsize), sendIpi_eq, Option.bind_eq_bind, Option.bind_map,
    Function.comp_def, ne_eq, not_true_eq_false, if_false, trampolinePage]
  rfl

/-! ### A step of the bootstrap processor -/

/-- Every step counts its reads. -/
theorem reads_bspStep (h : s.reads.length = s.bsp.now) (apicReg : BitVec 32) :
    (s.bspStep mem table apicReg).reads.length = (s.bspStep mem table apicReg).bsp.now := by
  have hread : ∀ v, (s.reads ++ [v]).length = s.bsp.now + 1 := fun v => by
    rw [List.length_append, List.length_singleton, h]
  unfold System.bspStep
  dsimp only
  repeat' split
  all_goals first | exact h | exact hread _

/-- **Step lemma.**  What is left after the step is what was left before it. -/
theorem resume_step (hlen : s.reads.length = s.bsp.now)
    (hsaw : Saw w mem table (s.bspStep mem table apicReg).reads) {y : Bsp}
    (h : ∀ᶠ rounds in atTop, resume w mem table rounds (s.bspStep mem table apicReg) = some y) :
    ∀ᶠ rounds in atTop, resume w mem table rounds s = some y := by
  unfold System.bspStep at hsaw h
  split at h
  · -- in the loop over the table
    rename_i hp
    simp only [resume, hp]
    simp only [hp] at hsaw
    split at h
    · rename_i hleft
      simp only [hleft] at hsaw ⊢
      have hnum : w.initializedCoresNum s.bsp.now = s.smpInitializedCoresNum := hsaw.last_num hlen
      simp only [smpInitLoop, hnum]
      exact h
    · rename_i n hleft
      simp only [hleft]
      split at h
      · rename_i htype
        simp only [smpInitLoop, htype]
        split at h
        · rename_i hid
          simp only [if_pos hid]
          exact h
        · rename_i hid
          simp only [if_neg hid]
          simpa only [resume, System.visit, hp] using h
      -- the other entries
      iterate 4
        · rename_i htype
          simp only [smpInitLoop, htype]
          simpa only [resume, System.visit, hp] using h
      · rename_i h₀ h₁ h₂ h₃ h₄
        simp only [imp_false] at h₀ h₁ h₂ h₃ h₄
        have hunknown : 4 < (mem s.next).toNat := by omega
        simp only [smpInitLoop_unknown hunknown]
        exact h
  · -- the counter is saved
    rename_i id hp
    simp only [hp] at hsaw
    have hnum : w.initializedCoresNum s.bsp.now = s.smpInitializedCoresNum := hsaw.last_num hlen
    simp only [resume, hp, smpInitCore_eq hsaw.size, hnum, Option.bind_eq_bind, Option.bind_assoc,
      Option.bind_some]
    exact h
  · -- the INIT
    rename_i id saved hp
    simp only [hp] at hsaw
    simp only [resume, hp]
    split at h
    · rename_i hbusy
      simp only [if_pos hbusy] at hsaw
      have hapic := hsaw.last_apic hlen
      refine sendIpi_busy (by rwa [hapic]) ?_
      simp only [resume, System.read, hp] at h
      exact h
    · rename_i hidle
      simp only [if_neg hidle] at hsaw
      have hapic := hsaw.last_apic hlen
      exact sendIpi_idle (by rwa [hapic]) h
  · -- the STARTUP
    rename_i id saved hp
    simp only [hp] at hsaw
    simp only [resume, hp]
    split at h
    · rename_i hbusy
      simp only [if_pos hbusy] at hsaw
      have hapic := hsaw.last_apic hlen
      refine sendIpi_busy (by rwa [hapic]) ?_
      simp only [resume, System.read, hp] at h
      exact h
    · rename_i hidle
      simp only [if_neg hidle] at hsaw
      have hapic := hsaw.last_apic hlen
      exact sendIpi_idle (by rwa [hapic]) h
  · rename_i id saved hp
    simp only [resume, hp, waitForCore]
    exact h
  · rename_i id saved n hp
    simp only [hp] at hsaw
    have hnum : w.initializedCoresNum s.bsp.now = s.smpInitializedCoresNum := by
      split at hsaw
      · exact hsaw.last_num hlen
      · split at hsaw
        · exact hsaw.last_num hlen
        · exact hsaw.last_num hlen
    simp only [resume, hp, waitForCore, hnum]
    dsimp only at h
    split at h
    · rename_i hmore
      simp only [if_pos hmore]
      exact h
    · rename_i hmore
      simp only [if_neg hmore]
      split at h
      · rename_i hone
        simp only [if_pos hone]
        exact h
      · rename_i hone
        simp only [if_neg hone]
        exact h
  · exact h

/-! ### A run -/

/-- The others do not do what the bootstrap processor does. -/
theorem resume_others {s' : System} (h : Others s s') (rounds : Nat) :
    resume w mem table rounds s' = resume w mem table rounds s := by
  unfold resume
  rw [h.bsp, h.phase, h.left, h.next]

/-- What has been read stays so. -/
theorem reads_grows (apicReg : BitVec 32) :
    s.reads <+: (s.bspStep mem table apicReg).reads := by
  unfold System.bspStep
  dsimp only
  repeat' split
  all_goals first | exact List.prefix_rfl | exact List.prefix_append _ _

/-- The reads of a state are all made, and what is left of `smp_init` there is what is left of it
    at first. -/
structure Resumes (mem : Mem) (table : BitVec 32) (s₀ s : System) : Prop where
  length : s.reads.length = s.bsp.now
  resume : ∀ w y, Saw w mem table s.reads →
    (∀ᶠ rounds in atTop, resume w mem table rounds s = some y) →
      ∀ᶠ rounds in atTop, Startup.resume w mem table rounds s₀ = some y

/-- Events of the other processors leave nothing of it out. -/
theorem Resumes.others {s₀ s' : System} (h : Resumes mem table s₀ s) (ho : Others s s') :
    Resumes mem table s₀ s' := by
  refine ⟨by rw [ho.reads, ho.bsp, h.length], fun w y hsaw hrest => ?_⟩
  rw [ho.reads] at hsaw
  simp only [resume_others ho] at hrest
  exact h.resume w y hsaw hrest

/-- **Step lemma**: what is left of `smp_init` after an event goes on from there. -/
theorem Resumes.step {s₀ : System} (h : Resumes mem table s₀ s) (e : Event) :
    Resumes mem table s₀ (s.step mem table e) := by
  cases e with
  | bsp apicReg =>
    refine ⟨reads_bspStep h.length apicReg, fun w y hsaw hrest => ?_⟩
    obtain ⟨more, hmore⟩ : s.reads <+: (s.bspStep mem table apicReg).reads := reads_grows apicReg
    have hbefore : Saw w mem table (s.reads ++ more) := by
      rw [hmore]
      exact hsaw
    exact h.resume w y hbefore.of_append (resume_step h.length hsaw hrest)
  | deliver => exact h.others (deliver_others s)
  | enter i c => exact h.others (enter_others s i c)
  | core i => exact h.others (coreStep_others s i)

/-- **Run lemma.** -/
theorem run_resumes (mem : Mem) (table : BitVec 32) (s₀ : System) (tr : List Event)
    (h₀ : s₀.reads.length = s₀.bsp.now) : Resumes mem table s₀ (s₀.run mem table tr) := by
  have hrun : Run (fun s e s' => System.step mem table s e = s') s₀ tr (s₀.run mem table tr) :=
    Run.foldl (fun _ _ => rfl) tr _
  refine hrun.invariant (J := fun _ s => Resumes mem table s₀ s) ⟨h₀, fun _ _ _ h => h⟩ ?_
  rintro tr s e _ h rfl
  exact h.step e

/-! ### What is printed at the end -/

/-- The number of processors is printed where `smp_init` ends. -/
theorem woke_bspStep {v : BitVec 32} (h : .woke v ∈ (s.bspStep mem table apicReg).bsp.log) :
    .woke v ∈ s.bsp.log ∨
      (s.phase = .entry ∧ v = s.smpInitializedCoresNum ∧
        (s.bspStep mem table apicReg).phase = .done ∧
        (s.bspStep mem table apicReg).ended = s.ended) := by
  unfold System.bspStep at h ⊢
  split
  · rename_i hp
    simp only [hp] at h
    split
    · rename_i hleft
      simp only [hleft] at h
      rcases List.mem_append.mp h with h | h
      · exact Or.inl h
      · exact Or.inr ⟨hp, Smp.Action.woke.inj (List.mem_singleton.mp h), rfl, rfl⟩
    · rename_i n hleft
      simp only [hleft] at h
      left
      split at h
      · split at h <;> exact h
      · exact h
      · exact h
      · exact h
      · exact h
      · simpa [System.visit, System.act, Bsp.act] using h
  · rename_i id hp
    simp only [hp] at h
    exact Or.inl h
  · rename_i id saved hp
    simp only [hp] at h
    left
    split at h
    · exact h
    · simpa [System.send, System.read, System.act, Bsp.act, Bsp.tick] using h
  · rename_i id saved hp
    simp only [hp] at h
    left
    split at h
    · exact h
    · simpa [System.send, System.read, System.act, Bsp.act, Bsp.tick] using h
  · rename_i id saved hp
    simp only [hp] at h
    exact Or.inl h
  · rename_i id saved n hp
    simp only [hp] at h
    left
    split at h
    · simpa [System.ends, System.read, System.act, Bsp.act, Bsp.tick] using h
    · split at h <;> exact h
  · rename_i hp
    simp only [hp] at h
    exact Or.inl h

/-- The number printed is right, as long as no call gives up. -/
def Printed (s : System) : Prop :=
  ∀ v, .woke v ∈ s.bsp.log → s.phase = .done ∧ v = BitVec.ofNat 32 (1 + s.ended.length)

/-- Events of the other processors print nothing. -/
theorem Printed.others {s' : System} (h : Printed s) (ho : Others s s') : Printed s' := by
  unfold Printed
  rw [ho.bsp, ho.phase, ho.ended]
  exact h

/-- **Step lemma** for what is printed. -/
theorem Printed.step {N : Nat} (hN : N < 2 ^ 16) (ha : Accounted N s) (ho : Order s)
    (ht : s.endings .timedOut = 0) (h : Printed s) (e : Event) : Printed (s.step mem table e) := by
  cases e with
  | bsp apicReg =>
    intro v hv
    show (s.bspStep mem table apicReg).phase = .done ∧
      v = BitVec.ofNat 32 (1 + (s.bspStep mem table apicReg).ended.length)
    rcases woke_bspStep hv with hold | ⟨hp, rfl, hdone, hended⟩
    · obtain ⟨hdone, hval⟩ := h v hold
      have hstop : s.bspStep mem table apicReg = s := by
        unfold System.bspStep
        rw [hdone]
      rw [hstop]
      exact ⟨hdone, hval⟩
    · have hawaited : s.phase.awaited = none := by
        rw [hp]
        rfl
      obtain ⟨hcounted, -⟩ := ho.nobody hN ha ht hawaited
      refine ⟨hdone, ?_⟩
      rw [hended, ha.counter, hcounted, called_length]
  | deliver => exact h.others (deliver_others s)
  | enter i c => exact h.others (enter_others s i c)
  | core i => exact h.others (coreStep_others s i)

/-- It holds in every run in which no call times out. -/
theorem run_printed (mem : Mem) (table : BitVec 32) (waits : BitVec 8 → Bool) (tr : List Event)
    (ht : ((powerOn mem table waits).run mem table tr).endings .timedOut = 0) :
    Printed ((powerOn mem table waits).run mem table tr) := by
  have hN : (entryCount mem table).toNat < 2 ^ 16 := (entryCount mem table).isLt
  induction tr using List.reverseRecOn with
  | nil =>
    intro v hv
    exact absurd (List.mem_singleton.mp hv) nofun
  | append_singleton tr e ih =>
    obtain ⟨ha, ho⟩ := run_accounted mem table waits tr
    rw [System.run, List.foldl_concat] at ht ⊢
    have hbefore := endings_step e ht
    exact (ih hbefore).step hN ha (ho hbefore) hbefore e

end Resume

/-! ### The end -/

section Awake

variable {mem : Mem} {table : BitVec 32} {es : List Entry}

/-- A world with these reads. -/
def worldOf (reads : List (BitVec 32)) : World where
  apic n _ := reads.getD n 0#32
  initializedCoresNum n := reads.getD n 0#32
  trampolineBinSize := 0x100#32

/-- The world made of the reads has them. -/
theorem saw_worldOf (mem : Mem) (table : BitVec 32) (reads : List (BitVec 32)) :
    Saw (worldOf reads) mem table reads := by
  have hget : ∀ (n : Nat) (v : BitVec 32), reads[n]? = some v → reads.getD n 0#32 = v :=
    fun n v hv => by rw [List.getD_eq_getElem?_getD, hv, Option.getD_some]
  have hsize : (0x100#32).toNat ≤ kernelTrampolineMaxSize := by decide
  exact ⟨hsize, hget, hget⟩

/-- **`smp_init` among the other processors.**  In every run in which it comes to its end, it is the
    `smp_init` of a world in which the APIC and the counter read as they did; it has called exactly
    the processors of the table, and found too many up at most as often as a call had given up.
    If none gave up, these processors are up, they have counted themselves in the order of the
    table, and their number is what is printed. -/
theorem smp_init_awake (h : Stored mem (entries table) (es.flatMap Entry.bytes))
    (hcount : (entryCount mem table).toNat = es.length) (waits : BitVec 8 → Bool)
    (tr : List Event) (hdone : ((powerOn mem table waits).run mem table tr).phase = .done) :
    let s := (powerOn mem table waits).run mem table tr
    (∀ w, Saw w mem table s.reads →
      ∀ᶠ rounds in atTop, smpInit w mem table rounds ⟨0, [], [], []⟩ = some s.bsp) ∧
      s.bsp.calls = coreIds es ∧ s.bsp.log.count .moreCores ≤ s.endings .timedOut ∧
      (s.endings .timedOut = 0 → s.counted = coreIds es ∧
        s.bsp.log.getLast? = some (.woke (BitVec.ofNat 32 (1 + (coreIds es).length)))) := by
  intro s
  have hN : (entryCount mem table).toNat < 2 ^ 16 := (entryCount mem table).isLt
  obtain ⟨ha, ho⟩ := run_accounted mem table waits tr
  have hresumes := run_resumes mem table (powerOn mem table waits) tr rfl
  have hinit : ∀ w, Saw w mem table s.reads →
      ∀ᶠ rounds in atTop, smpInit w mem table rounds ⟨0, [], [], []⟩ = some s.bsp := by
    intro w hsaw
    refine hresumes.resume w s.bsp hsaw (Eventually.of_forall fun rounds => ?_)
    rw [resume, hdone]
  -- the walk over the table, in one such world
  obtain ⟨rounds, hrun⟩ := (hinit _ (saw_worldOf mem table s.reads)).exists
  rw [smpInit, hcount, ← Nat.add_zero es.length] at hrun
  obtain ⟨s₁, hcame, hend⟩ := smpInitLoop_came h hrun
  have hbsp := Option.some.inj hend
  have hcalls : s.bsp.calls = coreIds es := by
    rw [← hbsp]
    exact hcame.calls
  refine ⟨hinit, hcalls, ?_, fun ht => ?_⟩
  · have hpaid := ha.paid
    rw [hdone] at hpaid
    exact (Nat.le_add_left _ _).trans hpaid
  · have hawaited : s.phase.awaited = none := congrArg Phase.awaited hdone
    obtain ⟨hcounted, -⟩ := (ho ht).nobody hN ha ht hawaited
    have hcalled : s.bsp.calls = s.called ++ s.phase.current.toList := (ho ht).calls
    rw [hdone, hcalls] at hcalled
    have hsame : s.called = coreIds es := (hcalled.trans (List.append_nil _)).symm
    refine ⟨hcounted.trans hsame, ?_⟩
    have hlast : s.bsp.log.getLast?
        = some (.woke ((worldOf s.reads).initializedCoresNum s₁.now)) := by
      rw [← hbsp]
      exact List.getLast?_concat
    obtain ⟨-, hval⟩ := run_printed mem table waits tr ht _ (List.mem_of_getLast? hlast)
    rw [hlast, hval, ← hsame, called_length]

end Awake

/-- The bootstrap processor and two others. -/
def threeProcessors : List Entry :=
  [.cpu 0x00#8 0x14#8 0x03#8 0x600#32 0x201#32 0#32 0#32,
   .cpu 0x01#8 0x14#8 0x01#8 0x600#32 0x201#32 0#32 0#32,
   .cpu 0x02#8 0x14#8 0x01#8 0x600#32 0x201#32 0#32 0#32]

/-- What comes before the entries: their number is at 34. -/
def threeHeader : List (BitVec 8) :=
  List.replicate 34 0x00#8 ++ [0x03#8, 0x00#8] ++ List.replicate 8 0x00#8

/-- The memory with the table. -/
def threeMem : Mem := fun x =>
  (threeHeader ++ threeProcessors.flatMap Entry.bytes).getD (x - 0xf0000#32).toNat 0xff#8

/-- A processor is called, gets its interrupts, and counts itself at once. -/
def awaken (id : BitVec 8) : List Event :=
  List.replicate 4 (.bsp 0x50014#32) ++
    [.deliver, .deliver, .enter id ⟨.jnz, 7#32, 8#32, 9#32, false⟩] ++
    List.replicate 12 (.core id) ++ [.bsp 0x50014#32]

/-- The run of the small system. -/
def threeAwake : System :=
  (powerOn threeMem 0xf0000#32 fun _ => false).run threeMem 0xf0000#32
    ([.bsp 0#32] ++ awaken 0x01#8 ++ awaken 0x02#8 ++ [.bsp 0#32])

/-- Both are up, and "woke 3 core(s) up" is printed. -/
theorem smp_init_awake_three : threeAwake.counted = [0x01#8, 0x02#8] ∧
    threeAwake.bsp.log.getLast? = some (.woke 3#32) := by
  have hstored : Stored threeMem 0xf0000#32 (threeHeader ++ threeProcessors.flatMap Entry.bytes) :=
    stored_getD _ _ (by decide)
  have htest : (threeAwake.phase = .done ∧ threeAwake.endings .timedOut = 0) ∧
      (entryCount threeMem 0xf0000#32).toNat = threeProcessors.length := by decide +kernel
  obtain ⟨-, -, -, hall⟩ := smp_init_awake hstored.right htest.2 (fun _ => false) _ htest.1.1
  exact hall htest.1.2

end Leoman.Startup
