import Leoman.Smp
import Mathlib.Algebra.BigOperators.Group.Finset.Basic
import Mathlib.Data.FinEnum

namespace Leoman.Startup

open Smp Runs Rounds ByteMem
open Trampoline (Core exec exec_cases exec_ok esp_toNat kernelTrampolineLoadAddr
  kernelTrampolineMaxSize)

/-!
# The start of the other processors

The bootstrap processor goes through the table, sends every processor an INIT and a STARTUP, and
waits for `smp_initialized_cores_num` to grow.  Meanwhile the interrupts are on their way, and the
processors that have got one run the trampoline and `kmain_secondary_cores`, which counts them.
Nothing but the counter tells the bootstrap processor who is up, and after 10000001 reads it gives
up and goes on with the next one.

* `System` — all processors, and the interrupts that are on their way; `System.step` — one of them
  takes a step, or an interrupt arrives;
* `Accounted` — the counter counts, and every processor that is not accounted for is paid for by a
  call that gave up;
* `Order` — as long as no call gives up, one processor at a time is on its way, and they count
  themselves in the order of the table;
* `cores_accounted` — what holds in every state reached.
-/

/-! ### The processors -/

/-- An application processor. -/
inductive Ap where
  /-- As the firmware leaves it: a STARTUP does nothing. -/
  | halted
  /-- An INIT has made it wait for a STARTUP. -/
  | waiting
  /-- A STARTUP has made it run from the start of a page. -/
  | started (page : BitVec 8)
  /-- From `find_my_stack` on. -/
  | trampoline (c : Core)
  /-- In `kmain_secondary_cores`, before `atomic_inc`. -/
  | kmain (c : Core)
  /-- After it: the processor halts. -/
  | counted (c : Core)
deriving DecidableEq, Repr

/-- On the way from a STARTUP to `atomic_inc`. -/
def Ap.inFlight : Ap → Bool
  | started _ | trampoline _ | kmain _ => true
  | halted | waiting | counted _ => false

/-- An interrupt for another processor: where it goes, and what was stored to the command register
    of the APIC. -/
structure Ipi where
  coreId : BitVec 8
  command : BitVec 32
deriving DecidableEq, Repr

/-- The delivery mode is in the bits 8 to 10. -/
def Ipi.isInit (m : Ipi) : Bool := m.command.extractLsb' 8 3 == 5#3

/-- The delivery mode of the command is start-up. -/
def Ipi.isStartup (m : Ipi) : Bool := m.command.extractLsb' 8 3 == 6#3

/-- The page of a STARTUP. -/
def Ipi.page (m : Ipi) : BitVec 8 := m.command.setWidth 8

/-- What an interrupt does to the processor it goes to. -/
def Ap.receive (m : Ipi) (a : Ap) : Ap :=
  if m.isInit then waiting else if m.isStartup && a == waiting then started m.page else a

/-- The page of the trampoline. -/
def trampolinePage : BitVec 8 := BitVec.ofNat 8 (kernelTrampolineLoadAddr / 4096)

/-- How a call of `smp_init_core` ended. -/
inductive Outcome where
  | booted | timedOut | moreCores
deriving DecidableEq, Repr

/-- Where the bootstrap processor is: in the loop of `smp_init`, or in a call of `smp_init_core`. -/
inductive Phase where
  | entry
  | call (id : BitVec 8)
  | init (id : BitVec 8) (saved : BitVec 32)
  | startup (id : BitVec 8) (saved : BitVec 32)
  | poll (id : BitVec 8) (saved : BitVec 32) (tries : Nat)
  | done
deriving DecidableEq, Repr

/-- All processors.  The last three fields are history: what the bootstrap processor has read, the
    processors in the order in which they counted themselves, and the calls that have ended. -/
structure System where
  bsp : Bsp
  phase : Phase
  left : Nat
  next : BitVec 32
  smpInitializedCoresNum : BitVec 32
  sent : List Ipi
  uniqueStackId : BitVec 32
  ap : BitVec 8 → Ap
  reads : List (BitVec 32)
  counted : List (BitVec 8)
  ended : List (BitVec 8 × Outcome)

namespace System

/-- The bootstrap processor reads a value. -/
def read (s : System) (v : BitVec 32) : System :=
  { s with bsp := s.bsp.tick, reads := s.reads ++ [v] }

/-- The bootstrap processor acts. -/
def act (s : System) (a : Smp.Action) : System := { s with bsp := s.bsp.act a }

/-- It stores to the two halves of the command register, and the interrupt is on its way. -/
def send (s : System) (apic : BitVec 32) (id : BitVec 8) (command : BitVec 32) : System :=
  { (s.act (.mmioWrite (apic + 0x310#32) (id.setWidth 32 <<< 24))).act
      (.mmioWrite (apic + 0x300#32) command) with sent := s.sent ++ [⟨id, command⟩] }

/-- A call ends. -/
def ends (s : System) (id : BitVec 8) (o : Outcome) : System :=
  { s with phase := .entry, ended := s.ended ++ [(id, o)] }

/-- The next entry of the table. -/
def visit (s : System) (left : Nat) (next : BitVec 32) : System :=
  { s with bsp := { s.bsp with visited := s.bsp.visited ++ [s.next] }, left := left, next := next }

/-- The bootstrap processor goes on to its next read: `apicReg` is what the register of its APIC
    holds, if that is the one. -/
def bspStep (mem : Mem) (table apicReg : BitVec 32) (s : System) : System :=
  match s.phase with
  | .entry =>
    match s.left with
    | 0 =>
      { (s.read s.smpInitializedCoresNum).act (.woke s.smpInitializedCoresNum) with phase := .done }
    | n + 1 =>
      match (mem s.next).toNat with
      | 0 =>
        if mem (s.next + 1#32) ≠ 0x00#8 then
          { s.visit n (s.next + 20#32) with phase := .call (mem (s.next + 1#32)) }
        else s.visit n (s.next + 20#32)
      | 1 => s.visit n (s.next + 8#32)
      | 2 => s.visit n (s.next + 8#32)
      | 3 => s.visit n (s.next + 8#32)
      | 4 => s.visit n (s.next + 8#32)
      | _ => { (s.visit n s.next).act (.unknownEntry (mem s.next)) with phase := .done }
  | .call id =>
    let s := { s with bsp := { s.bsp with calls := s.bsp.calls ++ [id] } }
    { s.read s.smpInitializedCoresNum with phase := .init id s.smpInitializedCoresNum }
  | .init id saved =>
    if apicReg &&& 0x1000#32 ≠ 0#32 then s.read apicReg
    else { (s.read apicReg).send (localApicAddr mem table) id 0x4500#32 with
      phase := .startup id saved }
  | .startup id saved =>
    if apicReg &&& 0x1000#32 ≠ 0#32 then s.read apicReg
    else { (s.read apicReg).send (localApicAddr mem table) id
        (0x4600#32 ||| trampolinePage.setWidth 32) with phase := .poll id saved 10000001 }
  | .poll id _ 0 => s.ends id .timedOut
  | .poll id saved (n + 1) =>
    let current := s.smpInitializedCoresNum
    if current > saved + 1#32 then ((s.read current).act .moreCores).ends id .moreCores
    else if current = saved + 1#32 then (s.read current).ends id .booted
    else { s.read current with phase := .poll id saved n }
  | .done => s

/-- An interrupt arrives. -/
def deliver (s : System) : System :=
  match s.sent with
  | [] => s
  | m :: rest =>
    { s with sent := rest, ap := Function.update s.ap m.coreId ((s.ap m.coreId).receive m) }

/-- A processor comes to `find_my_stack` with whatever its registers hold. -/
def enter (s : System) (i : BitVec 8) (c : Core) : System :=
  match s.ap i with
  | .started page =>
    if page = trampolinePage then
      { s with ap := Function.update s.ap i (.trampoline { c with ip := .findMyStack }) }
    else s
  | _ => s

/-- The next instruction of a processor; `kmain_secondary_cores` is one until the `atomic_inc`. -/
def coreStep (s : System) (i : BitVec 8) : System :=
  match s.ap i with
  | .trampoline c =>
    if c.ip = .enterKmain then { s with ap := Function.update s.ap i (.kmain c) }
    else { s with
      uniqueStackId := (exec s.uniqueStackId c).1
      ap := Function.update s.ap i (.trampoline (exec s.uniqueStackId c).2) }
  | .kmain c => { s with
      smpInitializedCoresNum := s.smpInitializedCoresNum + 1#32
      counted := s.counted ++ [i]
      ap := Function.update s.ap i (.counted c) }
  | _ => s

end System

/-- What happens next. -/
inductive Event where
  | bsp (apicReg : BitVec 32)
  | deliver
  | enter (i : BitVec 8) (c : Core)
  | core (i : BitVec 8)

/-- What an event does. -/
def System.step (mem : Mem) (table : BitVec 32) (s : System) : Event → System
  | .bsp apicReg => s.bspStep mem table apicReg
  | .deliver => s.deliver
  | .enter i c => s.enter i c
  | .core i => s.coreStep i

/-- `smp_init` has found the table and written the trampoline.  The firmware may have left a
    processor waiting. -/
def powerOn (mem : Mem) (table : BitVec 32) (waits : BitVec 8 → Bool) : System where
  bsp := Bsp.act ⟨0, [], [], []⟩ .detectingHardware
  phase := .entry
  left := (entryCount mem table).toNat
  next := entries table
  smpInitializedCoresNum := 1#32
  sent := []
  uniqueStackId := 0#32
  ap i := if waits i then .waiting else .halted
  reads := []
  counted := []
  ended := []

/-! ### Counting -/

/-- `smp_initialized_cores_num` as the call has saved it. -/
def Phase.saved : Phase → Option (BitVec 32)
  | init _ saved | startup _ saved | poll _ saved _ => some saved
  | entry | call _ | done => none

/-- The processor that the call waits for. -/
def Phase.awaited : Phase → Option (BitVec 8)
  | poll id _ _ => some id
  | entry | call _ | init _ _ | startup _ _ | done => none

/-- A call that is to be made. -/
def Phase.coming : Phase → Nat
  | call _ => 1
  | entry | init _ _ | startup _ _ | poll _ _ _ | done => 0

/-- A STARTUP that is to be sent. -/
def Phase.due : Phase → Nat
  | init _ _ | startup _ _ => 1
  | entry | call _ | poll _ _ _ | done => 0

/-- How many processors are like this. -/
def tally (p : Ap → Bool) (f : BitVec 8 → Ap) : Nat := ∑ i, (p (f i)).toNat

namespace System

/-- The processors on their way, and the ones for which a STARTUP is. -/
def flights (s : System) : Nat := tally Ap.inFlight s.ap + s.sent.countP Ipi.isStartup

/-- The calls that have ended like this. -/
def endings (s : System) (o : Outcome) : Nat := s.ended.countP fun e => e.2 == o

/-- The processors whose calls have ended. -/
def called (s : System) : List (BitVec 8) := s.ended.map Prod.fst

end System

section Counting

variable {s s' : System} {i : BitVec 8} {a : Ap}

/-- The calls with one outcome are read off the calls that ended, … -/
theorem endings_congr (h : s'.ended = s.ended) (o : Outcome) : s'.endings o = s.endings o := by
  unfold System.endings
  rw [h]

/-- … and so are the processors that were called. -/
theorem called_congr (h : s'.ended = s.ended) : s'.called = s.called := by
  unfold System.called
  rw [h]

/-- One processor changes. -/
theorem tally_update (p : Ap → Bool) (f : BitVec 8 → Ap) (i : BitVec 8) (a : Ap) :
    tally p (Function.update f i a) + (p (f i)).toNat = tally p f + (p a).toNat := by
  have hrest : ∑ j ∈ Finset.univ.erase i, (p (Function.update f i a j)).toNat
      = ∑ j ∈ Finset.univ.erase i, (p (f j)).toNat := by
    refine Finset.sum_congr rfl fun j hj => ?_
    rw [Function.update_of_ne (Finset.ne_of_mem_erase hj)]
  unfold tally
  rw [← Finset.add_sum_erase Finset.univ _ (Finset.mem_univ i), hrest, Function.update_self,
    ← Finset.add_sum_erase Finset.univ (fun j => (p (f j)).toNat) (Finset.mem_univ i)]
  omega

/-- A processor moves. -/
theorem flights_update (hap : s'.ap = Function.update s.ap i a) (hsent : s'.sent = s.sent) :
    s'.flights + (s.ap i).inFlight.toNat = s.flights + a.inFlight.toNat := by
  have hsum := tally_update Ap.inFlight s.ap i a
  unfold System.flights
  rw [hap, hsent]
  omega

/-- A change that leaves a processor in flight, or out of it, leaves the number in flight. -/
theorem flights_same (hap : s'.ap = Function.update s.ap i a) (hsent : s'.sent = s.sent)
    (h : a.inFlight = (s.ap i).inFlight) : s'.flights = s.flights := by
  have hsum := flights_update hap hsent
  rw [h] at hsum
  omega

/-- INIT is no start-up, … -/
theorem init_isStartup {id : BitVec 8} : Ipi.isStartup ⟨id, 0x4500#32⟩ = false := by
  have hmode : (0x4500#32).extractLsb' 8 3 ≠ 6#3 := by decide
  exact beq_false_of_ne hmode

/-- … and the second interrupt of a call is one. -/
theorem startup_isStartup {id : BitVec 8} :
    Ipi.isStartup ⟨id, 0x4600#32 ||| trampolinePage.setWidth 32⟩ = true := by
  have hmode : (0x4600#32 ||| trampolinePage.setWidth 32).extractLsb' 8 3 = 6#3 := by decide
  exact beq_iff_eq.mpr hmode

/-- An interrupt is sent. -/
theorem flights_send {m : Ipi} (hap : s'.ap = s.ap) (hsent : s'.sent = s.sent ++ [m]) :
    s'.flights = s.flights + m.isStartup.toNat := by
  unfold System.flights
  rw [hap, hsent, List.countP_append, List.countP_singleton, Bool.toNat, cond_eq_ite, Nat.add_assoc]

/-- An INIT on its way is no processor in flight, … -/
theorem flights_init {id : BitVec 8} (hap : s'.ap = s.ap)
    (hsent : s'.sent = s.sent ++ [⟨id, 0x4500#32⟩]) : s'.flights = s.flights := by
  rw [flights_send hap hsent, init_isStartup, Bool.toNat_false, Nat.add_zero]

/-- … and a start-up is one. -/
theorem flights_startup {id : BitVec 8} (hap : s'.ap = s.ap)
    (hsent : s'.sent = s.sent ++ [⟨id, 0x4600#32 ||| trampolinePage.setWidth 32⟩]) :
    s'.flights = s.flights + 1 := by
  rw [flights_send hap hsent, startup_isStartup, Bool.toNat_true]

/-- A processor in flight is counted as one. -/
theorem inFlight_le (h : (s.ap i).inFlight = true) : 1 ≤ s.flights := by
  have hsum : System.flights { s with ap := Function.update s.ap i .halted }
      + (s.ap i).inFlight.toNat = s.flights + Ap.halted.inFlight.toNat := flights_update rfl rfl
  rw [h] at hsum
  have hone : true.toNat = 1 := rfl
  have hzero : Ap.halted.inFlight.toNat = 0 := rfl
  omega

/-- An interrupt that arrives is off its way, and may put one processor on its way. -/
theorem receive_inFlight (m : Ipi) (a : Ap) :
    (a.receive m).inFlight.toNat ≤ a.inFlight.toNat + m.isStartup.toNat := by
  unfold Ap.receive
  split
  · exact Nat.zero_le _
  · split
    · rename_i hstart
      rw [Bool.and_eq_true] at hstart
      rw [hstart.1]
      exact Nat.le_add_left _ _
    · exact Nat.le_add_right _ _

/-- Only a STARTUP puts a processor on its way. -/
theorem inFlight_of_receive {m : Ipi} (h : (a.receive m).inFlight = true) :
    a.inFlight = true ∨ m.isStartup = true := by
  have hle := receive_inFlight m a
  rw [h, Bool.toNat_true] at hle
  by_contra hno
  rw [not_or, Bool.not_eq_true, Bool.not_eq_true] at hno
  rw [hno.1, hno.2] at hle
  exact absurd hle (by decide)

end Counting

/-! ### What the counter tells -/

/-- The counter counts the processors that have counted themselves.  The processors on their way and
    the calls that found too many are paid for by the calls that gave up, and the one that waits;
    what the current call has saved is the counter after `c` of them. -/
structure Accounted (entries : Nat) (s : System) : Prop where
  counter : s.smpInitializedCoresNum = BitVec.ofNat 32 (1 + s.counted.length)
  calls : s.counted.length + s.flights + s.phase.due ≤ s.bsp.calls.length
  rounds : s.bsp.calls.length + s.phase.coming + s.left ≤ entries
  log : s.bsp.log.count .moreCores = s.endings .moreCores
  balance : ∃ c ≤ s.counted.length, (∀ v, s.phase.saved = some v → v = BitVec.ofNat 32 (1 + c)) ∧
    s.flights + s.counted.length + s.endings .moreCores
      ≤ s.endings .timedOut + s.phase.awaited.toList.length + c

section Accounted

variable {mem : Mem} {table : BitVec 32} {N : Nat} {s s' : System}

/-- What the other processors do, and what the interrupts do. -/
structure Others (s s' : System) : Prop where
  bsp : s'.bsp = s.bsp
  phase : s'.phase = s.phase
  left : s'.left = s.left
  next : s'.next = s.next
  reads : s'.reads = s.reads
  ended : s'.ended = s.ended
  more : s.counted.length ≤ s'.counted.length
  counter : s'.smpInitializedCoresNum
    = s.smpInitializedCoresNum + BitVec.ofNat 32 (s'.counted.length - s.counted.length)
  flights : s'.counted.length + s'.flights ≤ s.counted.length + s.flights

/-- Events that leave the bootstrap processor and the counts alone, and put nobody in flight. -/
theorem Others.of_flights (hb : s'.bsp = s.bsp) (hp : s'.phase = s.phase) (hl : s'.left = s.left)
    (hx : s'.next = s.next) (hr : s'.reads = s.reads) (he : s'.ended = s.ended)
    (hc : s'.counted = s.counted)
    (hn : s'.smpInitializedCoresNum = s.smpInitializedCoresNum) (hf : s'.flights ≤ s.flights) :
    Others s s' := by
  refine ⟨hb, hp, hl, hx, hr, he, by rw [hc], ?_, by rw [hc]; omega⟩
  rw [hn, hc, Nat.sub_self]
  exact (BitVec.add_zero _).symm

/-- Nothing happens. -/
theorem Others.refl (s : System) : Others s s := .of_flights rfl rfl rfl rfl rfl rfl rfl rfl le_rfl

/-- An interrupt arrives. -/
theorem deliver_others (s : System) : Others s s.deliver := by
  unfold System.deliver
  split
  · exact .refl s
  · rename_i m rest hsent
    refine .of_flights rfl rfl rfl rfl rfl rfl rfl rfl ?_
    have hsum := tally_update Ap.inFlight s.ap m.coreId ((s.ap m.coreId).receive m)
    have hreceive := receive_inFlight m (s.ap m.coreId)
    have hcount : s.sent.countP Ipi.isStartup
        = rest.countP Ipi.isStartup + m.isStartup.toNat := by
      rw [hsent, List.countP_cons, Bool.toNat, cond_eq_ite]
    dsimp only [System.flights]
    omega

/-- A processor enters the trampoline, with anything in its registers. -/
theorem enter_others (s : System) (i : BitVec 8) (c : Core) : Others s (s.enter i c) := by
  unfold System.enter
  split
  · rename_i page hap
    split
    · refine .of_flights rfl rfl rfl rfl rfl rfl rfl rfl (le_of_eq (flights_same rfl rfl ?_))
      rw [hap]
      rfl
    · exact .refl s
  · exact .refl s

/-- A processor takes a step of its own. -/
theorem coreStep_others (s : System) (i : BitVec 8) : Others s (s.coreStep i) := by
  unfold System.coreStep
  split
  · rename_i c hap
    split
    all_goals
      refine .of_flights rfl rfl rfl rfl rfl rfl rfl rfl (le_of_eq (flights_same rfl rfl ?_))
      rw [hap]
      rfl
  · -- the processor counts itself
    rename_i c hap
    refine ⟨rfl, rfl, rfl, rfl, rfl, rfl, ?_, ?_, ?_⟩
    · exact (List.length_append ..).symm ▸ Nat.le_add_right _ _
    · show _ = s.smpInitializedCoresNum + BitVec.ofNat 32 ((s.counted ++ [i]).length - _)
      rw [List.length_append, Nat.add_sub_cancel_left]
      rfl
    · have hsum : System.flights { s with
            smpInitializedCoresNum := s.smpInitializedCoresNum + 1#32
            counted := s.counted ++ [i]
            ap := Function.update s.ap i (.counted c) } + (s.ap i).inFlight.toNat
          = s.flights + (Ap.counted c).inFlight.toNat := flights_update rfl rfl
      rw [hap] at hsum
      have hgone : (Ap.counted c).inFlight.toNat = 0 := rfl
      have hwas : (Ap.kmain c).inFlight.toNat = 1 := rfl
      rw [List.length_append, List.length_singleton]
      omega
  · exact .refl s

/-- They keep the accounts. -/
theorem Accounted.others (h : Accounted N s) (ho : Others s s') : Accounted N s' := by
  obtain ⟨c, hc, hsaved, hbalance⟩ := h.balance
  have hend := endings_congr ho.ended
  have hf := ho.flights
  have hm := ho.more
  refine ⟨?_, ?_, ?_, ?_, c, hc.trans hm, ?_, ?_⟩
  · rw [ho.counter, h.counter, ← BitVec.ofNat_add]
    congr 1
    omega
  · rw [ho.bsp, ho.phase]
    have hcalls := h.calls
    omega
  · rw [ho.bsp, ho.phase, ho.left]
    exact h.rounds
  · rw [ho.bsp, hend]
    exact h.log
  · rw [ho.phase]
    exact hsaved
  · rw [hend, hend, ho.phase]
    omega

/-- A step of the bootstrap processor that sends no STARTUP, and neither begins nor ends a call. -/
theorem Accounted.goes (h : Accounted N s)
    (hn : s'.smpInitializedCoresNum = s.smpInitializedCoresNum) (hc : s'.counted = s.counted)
    (hf : s'.flights = s.flights) (he : s'.ended = s.ended)
    (hlog : s'.bsp.log.count .moreCores = s.bsp.log.count .moreCores)
    (hcalls : s'.bsp.calls = s.bsp.calls) (hdue : s'.phase.due = s.phase.due)
    (hleft : s'.phase.coming + s'.left ≤ s.phase.coming + s.left)
    (hsaved : ∀ v, s'.phase.saved = some v → s.phase.saved = some v)
    (hawaited : s'.phase.awaited = s.phase.awaited) : Accounted N s' := by
  obtain ⟨c, hlen, hval, hbalance⟩ := h.balance
  have hend := endings_congr he
  refine ⟨?_, ?_, ?_, ?_, c, ?_, fun v hv => hval v (hsaved v hv), ?_⟩
  · rw [hn, hc, h.counter]
  · rw [hc, hf, hcalls, hdue]
    exact h.calls
  · rw [hcalls]
    have hrounds := h.rounds
    omega
  · rw [hlog, hend, h.log]
  · rwa [hc]
  · rw [hf, hc, hend, hend, hawaited]
    exact hbalance

/-- The STARTUP is sent. -/
theorem Accounted.sends {id : BitVec 8} {saved : BitVec 32} {n : Nat} (h : Accounted N s)
    (hp : s.phase = .startup id saved) (hp' : s'.phase = .poll id saved n)
    (hf : s'.flights = s.flights + 1) (hn : s'.smpInitializedCoresNum = s.smpInitializedCoresNum)
    (hc : s'.counted = s.counted) (he : s'.ended = s.ended) (hleft : s'.left = s.left)
    (hcalls : s'.bsp.calls = s.bsp.calls)
    (hlog : s'.bsp.log.count .moreCores = s.bsp.log.count .moreCores) : Accounted N s' := by
  obtain ⟨c, hlen, hval, hbalance⟩ := h.balance
  have hend := endings_congr he
  have hnum := h.calls
  have hrounds := h.rounds
  rw [hp] at hnum hrounds hval hbalance
  -- the call owes no STARTUP any more, and there is one processor more that it waits for
  simp only [Phase.due, Phase.coming, Phase.awaited, Option.toList_none, List.length_nil]
    at hnum hrounds hbalance
  refine ⟨?_, ?_, ?_, ?_, c, ?_, ?_, ?_⟩
  · rw [hn, hc, h.counter]
  · rw [hc, hf, hcalls, hp', Phase.due]
    omega
  · rw [hcalls, hp', hleft]
    exact hrounds
  · rw [hlog, hend, h.log]
  · rwa [hc]
  · rwa [hp']
  · rw [hf, hc, hend, hend, hp', Phase.awaited, Option.toList_some, List.length_singleton]
    omega

/-- Only a report of too many cores is one. -/
theorem count_act {b : Bsp} {a : Action} (h : a ≠ .moreCores) :
    (b.act a).log.count .moreCores = b.log.count .moreCores := by
  show (b.log ++ [a]).count .moreCores = _
  rw [List.count_append, List.count_singleton, beq_false_of_ne h]
  rfl

/-- The stores of an interrupt. -/
theorem count_send {apic command : BitVec 32} {id : BitVec 8} :
    (s.send apic id command).bsp.log.count .moreCores = s.bsp.log.count .moreCores := by
  unfold System.send System.act
  rw [count_act Smp.Action.noConfusion, count_act Smp.Action.noConfusion]

/-- The counter and the one saved, as numbers. -/
theorem counter_cmp {n c : Nat} (hn : n < 2 ^ 16) (hc : c ≤ n) :
    (BitVec.ofNat 32 (1 + n) > BitVec.ofNat 32 (1 + c) + 1#32 ↔ c + 1 < n) ∧
      (BitVec.ofNat 32 (1 + n) = BitVec.ofNat 32 (1 + c) + 1#32 ↔ n = c + 1) := by
  constructor
  · rw [gt_iff_lt, BitVec.lt_def, BitVec.toNat_add, BitVec.toNat_ofNat, BitVec.toNat_ofNat,
      BitVec.toNat_ofNat]
    omega
  · rw [← BitVec.toNat_inj, BitVec.toNat_add, BitVec.toNat_ofNat, BitVec.toNat_ofNat,
      BitVec.toNat_ofNat]
    omega

/-- The call that ends is one more of its outcome. -/
theorem endings_ends (s : System) (id : BitVec 8) (o o' : Outcome) :
    (s.ends id o).endings o' = s.endings o' + if o = o' then 1 else 0 := by
  show (s.ended ++ [(id, o)]).countP _ = _
  rw [List.countP_append, List.countP_singleton]
  simp only [System.endings, beq_iff_eq]

/-- The end of a call, after the counter has been compared. -/
theorem Accounted.ends {id : BitVec 8} {o : Outcome} {saved : BitVec 32} {n c : Nat}
    (h : Accounted N s) (hp : s.phase = .poll id saved n)
    (hcalls : s'.bsp.calls = s.bsp.calls)
    (hlog : s'.bsp.log.count .moreCores
      = s.bsp.log.count .moreCores + if o = .moreCores then 1 else 0)
    (hs : s' = System.ends { s with bsp := s'.bsp, reads := s'.reads } id o)
    (hc : c ≤ s.counted.length)
    (hbalance : s.flights + s.counted.length + s.endings .moreCores
      ≤ s.endings .timedOut + 1 + c)
    (ho : (o = .booted → s.counted.length = c + 1) ∧ (o = .moreCores → c + 1 < s.counted.length)) :
    Accounted N s' := by
  have hend : ∀ o', s'.endings o' = s.endings o' + if o = o' then 1 else 0 := by
    intro o'
    rw [hs]
    exact endings_ends _ id o o'
  have hcounted : s'.counted = s.counted := by
    rw [hs]
    rfl
  have hflights : s'.flights = s.flights := by
    rw [hs]
    rfl
  have hphase : s'.phase = .entry := by
    rw [hs]
    rfl
  have hmore := h.log
  refine ⟨?_, ?_, ?_, ?_, s.counted.length, ?_, ?_, ?_⟩
  · rw [hs]
    exact h.counter
  · rw [hcounted, hflights, hcalls, hphase]
    exact (Nat.le_add_right _ _).trans h.calls
  · rw [hcalls, hphase, hs]
    have hrounds := h.rounds
    rw [hp] at hrounds
    exact hrounds
  · rw [hlog, hend, hmore]
  · rw [hcounted]
  · rw [hphase]
    exact nofun
  · rw [hflights, hcounted, hend, hend, hphase]
    show _ ≤ _ + 0 + _
    -- the call was paid for while it waited: that is spent on the one processor that counted, on
    -- the one that did not, or on the report of one too many
    cases o with
    | booted =>
      have hlen := ho.1 rfl
      simp only [reduceCtorEq, if_false]
      omega
    | timedOut =>
      simp only [reduceCtorEq, if_false, if_true]
      omega
    | moreCores =>
      have hlen := ho.2 rfl
      simp only [reduceCtorEq, if_false, if_true]
      omega

/-- **Step lemma**, for the bootstrap processor. -/
theorem Accounted.bspStep (hN : N < 2 ^ 16) (h : Accounted N s) (apicReg : BitVec 32) :
    Accounted N (s.bspStep mem table apicReg) := by
  obtain ⟨c, hc, hsaved, hbalance⟩ := h.balance
  have hlen : s.counted.length < 2 ^ 16 := by
    have hcalls := h.calls
    have hrounds := h.rounds
    omega
  unfold System.bspStep
  split
  · -- in the loop over the table
    rename_i hp
    split
    · rename_i hleft
      refine h.goes rfl rfl rfl rfl (count_act Smp.Action.noConfusion) rfl ?_ ?_ ?_ ?_
      all_goals rw [hp]
      · rfl
      · exact le_rfl
      · exact fun v hv => nomatch hv
      · rfl
    · rename_i n hleft
      have hround : n ≤ s.left := by omega
      have hvisit : ∀ next, Accounted N (s.visit n next) := fun next =>
        h.goes rfl rfl rfl rfl rfl rfl rfl (Nat.add_le_add_left hround _) (fun _ hv => hv) rfl
      split
      · split
        · -- a processor to wake
          refine h.goes rfl rfl rfl rfl rfl rfl ?_ ?_ ?_ ?_
          all_goals rw [hp]
          · rfl
          · show 1 + n ≤ 0 + s.left
            omega
          · exact fun v hv => nomatch hv
          · rfl
        · exact hvisit _
      · exact hvisit _
      · exact hvisit _
      · exact hvisit _
      · exact hvisit _
      · -- an entry of no known type
        refine (hvisit s.next).goes rfl rfl rfl rfl
          (count_act Smp.Action.noConfusion) rfl ?_ ?_ ?_ ?_
        · exact hp ▸ rfl
        · exact hp ▸ le_rfl
        · exact fun v hv => nomatch hv
        · exact hp ▸ rfl
  · -- the counter is saved
    rename_i id hp
    have hcalls := h.calls
    have hrounds := h.rounds
    rw [hp] at hcalls hrounds hbalance
    refine ⟨h.counter, ?_, ?_, h.log, s.counted.length, le_rfl, ?_, ?_⟩
    · show _ + _ + 1 ≤ (s.bsp.calls ++ [id]).length
      rw [List.length_append, List.length_singleton]
      exact Nat.add_le_add_right hcalls 1
    · show (s.bsp.calls ++ [id]).length + 0 + s.left ≤ N
      rw [List.length_append, List.length_singleton]
      exact hrounds
    · intro v hv
      rw [← Option.some.inj hv]
      exact h.counter
    · show s.flights + s.counted.length + s.endings .moreCores
        ≤ s.endings .timedOut + 0 + s.counted.length
      have hbal : s.flights + s.counted.length + s.endings .moreCores
          ≤ s.endings .timedOut + 0 + c := hbalance
      omega
  · -- the INIT
    rename_i id saved hp
    split
    · exact h.goes rfl rfl rfl rfl rfl rfl rfl le_rfl (fun _ hv => hv) rfl
    · refine h.goes rfl rfl ?_ rfl count_send rfl ?_ ?_ ?_ ?_
      · exact flights_init rfl rfl
      all_goals rw [hp]
      · rfl
      · exact le_rfl
      · exact fun v hv => hv
      · rfl
  · -- the STARTUP
    rename_i id saved hp
    split
    · exact h.goes rfl rfl rfl rfl rfl rfl rfl le_rfl (fun _ hv => hv) rfl
    · exact h.sends hp rfl (flights_startup rfl rfl) rfl rfl rfl rfl rfl count_send
  · rename_i id saved hp
    rw [hp] at hsaved hbalance
    refine h.ends (o := .timedOut) hp rfl ?_ rfl hc hbalance ⟨nofun, nofun⟩
    rfl
  · rename_i id saved n hp
    rw [hp] at hsaved hbalance
    have hcmp := counter_cmp hlen hc
    rw [← h.counter, ← hsaved saved rfl] at hcmp
    obtain ⟨hgt, heq⟩ := hcmp
    dsimp only
    split
    · rename_i hmore
      refine h.ends (o := .moreCores) hp rfl ?_ rfl hc hbalance ⟨nofun, fun _ => hgt.mp hmore⟩
      show (s.bsp.log ++ [Smp.Action.moreCores]).count Smp.Action.moreCores = _
      rw [List.count_append]
      rfl
    · split
      · rename_i hone
        exact h.ends (o := .booted) hp rfl rfl rfl hc hbalance ⟨fun _ => heq.mp hone, nofun⟩
      · refine h.goes rfl rfl rfl rfl rfl rfl ?_ ?_ ?_ ?_
        all_goals rw [hp]
        · rfl
        · exact le_rfl
        · exact fun v hv => hv
        · rfl
  · exact h

end Accounted

/-! ### As long as no call gives up -/

/-- The processor that the call is about. -/
def Phase.current : Phase → Option (BitVec 8)
  | init id _ | startup id _ | poll id _ _ => some id
  | entry | call _ | done => none

/-- The processors whose calls have ended have counted themselves, in this order, and the one that
    is awaited may have done so after them.  No other processor is on its way. -/
structure Order (s : System) : Prop where
  booted : ∀ e ∈ s.ended, e.2 = .booted
  calls : s.bsp.calls = s.called ++ s.phase.current.toList
  saved : ∀ v, s.phase.saved = some v → v = BitVec.ofNat 32 (1 + s.ended.length)
  counted : s.counted = s.called ∨ ∃ id, s.phase.awaited = some id ∧ s.counted = s.called ++ [id]
  inFlight : ∀ id, s.phase.awaited = some id → ∀ i, (s.ap i).inFlight = true → i = id
  sent : ∀ id, s.phase.awaited = some id → ∀ m ∈ s.sent, m.isStartup = true → m.coreId = id

section Order

variable {mem : Mem} {table : BitVec 32} {N : Nat} {s s' : System} {i id : BitVec 8}

/-- As many processors were called as calls ended. -/
@[simp] theorem called_length (s : System) : s.called.length = s.ended.length :=
  List.length_map ..

/-- While a processor is awaited, `smp_init_core` has saved the counter. -/
theorem Phase.saved_of_awaited {p : Phase} (h : p.awaited = some id) : ∃ v, p.saved = some v := by
  cases p with
  | poll id' v n => exact ⟨v, rfl⟩
  | _ => exact nomatch h

/-- While the order holds, no more calls have ended than processors counted themselves. -/
theorem Order.ended_le (ho : Order s) : s.ended.length ≤ s.counted.length := by
  rcases ho.counted with h | ⟨id, -, h⟩ <;> simp [h]

/-- The balance, where nobody has given up. -/
theorem Order.balance (hN : N < 2 ^ 16) (ha : Accounted N s) (ho : Order s)
    (ht : s.endings .timedOut = 0) :
    s.flights + s.counted.length + s.endings .moreCores
      ≤ s.phase.awaited.toList.length + s.ended.length := by
  obtain ⟨c, hc, hsaved, hbalance⟩ := ha.balance
  have hcalls := ha.calls
  have hrounds := ha.rounds
  have hended := ho.ended_le
  have hcount : c ≤ s.ended.length := by
    cases hv : s.phase.saved with
    | none =>
      rcases ho.counted with h | ⟨id, hid, -⟩
      · have hlen := congrArg List.length h
        rw [called_length] at hlen
        exact hc.trans hlen.le
      · obtain ⟨v, hv'⟩ := Phase.saved_of_awaited hid
        exact absurd (hv.symm.trans hv') nofun
    | some v =>
      -- what the call has saved is both
      have heq := congrArg BitVec.toNat ((hsaved v hv).symm.trans (ho.saved v hv))
      rw [BitVec.toNat_ofNat, BitVec.toNat_ofNat] at heq
      omega
  omega

/-- Between the calls nobody is on the way. -/
theorem Order.nobody (hN : N < 2 ^ 16) (ha : Accounted N s) (ho : Order s)
    (ht : s.endings .timedOut = 0) (h : s.phase.awaited = none) :
    s.counted = s.called ∧ s.flights = 0 := by
  have hbalance := ho.balance hN ha ht
  rcases ho.counted with hc | ⟨id, hid, -⟩
  · have hlen := congrArg List.length hc
    rw [called_length] at hlen
    rw [h, Option.toList_none, List.length_nil] at hbalance
    exact ⟨hc, by omega⟩
  · exact absurd (h.symm.trans hid) nofun

/-- What the others do, as long as nobody counts itself. -/
theorem Order.others (ho : Order s) (hbsp : s'.bsp = s.bsp) (hphase : s'.phase = s.phase)
    (hended : s'.ended = s.ended) (hcounted : s'.counted = s.counted)
    (hfly : ∀ i, (s'.ap i).inFlight = true →
      (s.ap i).inFlight = true ∨ ∃ m ∈ s.sent, m.isStartup = true ∧ m.coreId = i)
    (hsent : ∀ m ∈ s'.sent, m ∈ s.sent) : Order s' := by
  have hcalled := called_congr hended
  refine ⟨hended ▸ ho.booted, ?_, ?_, ?_, ?_, ?_⟩
  · rw [hbsp, hcalled, hphase]
    exact ho.calls
  · rw [hphase, hended]
    exact ho.saved
  · rw [hcounted, hcalled, hphase]
    exact ho.counted
  · rw [hphase]
    intro id hid i hi
    rcases hfly i hi with hi' | ⟨m, hm, hstart, rfl⟩
    · exact ho.inFlight id hid i hi'
    · exact ho.sent id hid m hm hstart
  · rw [hphase]
    exact fun id hid m hm => ho.sent id hid m (hsent m hm)

/-- A processor that stays on its way, or off it. -/
theorem inFlight_update {f : BitVec 8 → Ap} {a : Ap} {j : BitVec 8}
    (h : a.inFlight = (f i).inFlight) (hj : (Function.update f i a j).inFlight = true) :
    (f j).inFlight = true := by
  by_cases hji : j = i
  · rw [hji, Function.update_self] at hj
    rw [hji, ← h, hj]
  · rwa [Function.update_of_ne hji] at hj

/-- An interrupt arrives. -/
theorem Order.deliver (ho : Order s) : Order s.deliver := by
  unfold System.deliver
  split
  · exact ho
  · rename_i m rest hsent
    refine ho.others rfl rfl rfl rfl ?_ ?_
    · intro i hi
      have hi' : (Function.update s.ap m.coreId ((s.ap m.coreId).receive m) i).inFlight = true := hi
      by_cases him : i = m.coreId
      · subst him
        rw [Function.update_self] at hi'
        refine (inFlight_of_receive hi').imp_right fun hstart => ⟨m, ?_, hstart, rfl⟩
        rw [hsent]
        exact List.mem_cons_self
      · rw [Function.update_of_ne him] at hi'
        exact Or.inl hi'
    · intro m' hm'
      rw [hsent]
      exact List.mem_cons_of_mem _ hm'

/-- A processor enters the trampoline. -/
theorem Order.enter (ho : Order s) (i : BitVec 8) (c : Core) : Order (s.enter i c) := by
  unfold System.enter
  split
  · rename_i page hap
    split
    · refine ho.others rfl rfl rfl rfl (fun j hj => Or.inl (inFlight_update ?_ hj)) fun _ hm => hm
      rw [hap]
      rfl
    · exact ho
  · exact ho

/-- A processor that counts itself is the one that is awaited. -/
theorem Order.coreStep (hN : N < 2 ^ 16) (ha : Accounted N s) (ho : Order s)
    (ht : s.endings .timedOut = 0) (i : BitVec 8) : Order (s.coreStep i) := by
  unfold System.coreStep
  split
  · rename_i c hap
    split
    all_goals
      refine ho.others rfl rfl rfl rfl (fun j hj => Or.inl (inFlight_update ?_ hj)) fun _ hm => hm
      rw [hap]
      rfl
  · rename_i c hap
    have hfly : (s.ap i).inFlight = true := by
      rw [hap]
      rfl
    have hone := inFlight_le hfly
    have hbalance := ho.balance hN ha ht
    cases haw : s.phase.awaited with
    | none =>
      have hnone := (ho.nobody hN ha ht haw).2
      omega
    | some id =>
      obtain rfl := ho.inFlight id haw i hfly
      have hcounted : s.counted = s.called := by
        rcases ho.counted with h | ⟨id', -, h⟩
        · exact h
        · have hlen := congrArg List.length h
          rw [List.length_append, called_length, List.length_singleton] at hlen
          rw [haw, Option.toList_some, List.length_singleton] at hbalance
          omega
      refine ⟨ho.booted, ho.calls, ho.saved, Or.inr ⟨i, haw, ?_⟩, ?_, ho.sent⟩
      · show s.counted ++ [i] = s.called ++ [i]
        rw [hcounted]
      · intro id' hid' j hj
        obtain rfl := Option.some.inj (haw.symm.trans hid')
        by_cases hji : j = i
        · exact hji
        · have hj' : (Function.update s.ap i (.counted c) j).inFlight = true := hj
          rw [Function.update_of_ne hji] at hj'
          exact ho.inFlight i haw j hj'
  · exact ho

/-- A step of the bootstrap processor that sends no STARTUP, and neither begins nor ends a call. -/
theorem Order.goes (ho : Order s) (hap : s'.ap = s.ap) (hcounted : s'.counted = s.counted)
    (hended : s'.ended = s.ended) (hcalls : s'.bsp.calls = s.bsp.calls)
    (hcurrent : s'.phase.current = s.phase.current)
    (hsaved : ∀ v, s'.phase.saved = some v → s.phase.saved = some v)
    (hawaited : s'.phase.awaited = s.phase.awaited)
    (hsent : s'.phase.awaited = none ∨ s'.sent = s.sent) : Order s' := by
  have hcalled := called_congr hended
  refine ⟨hended ▸ ho.booted, ?_, ?_, ?_, ?_, ?_⟩
  · rw [hcalls, hcalled, hcurrent]
    exact ho.calls
  · rw [hended]
    exact fun v hv => ho.saved v (hsaved v hv)
  · rw [hcounted, hcalled, hawaited]
    exact ho.counted
  · rw [hap, hawaited]
    exact ho.inFlight
  · intro id hid
    rcases hsent with hnone | hsame
    · exact absurd (hnone.symm.trans hid) nofun
    · rw [hsame]
      exact ho.sent id (hawaited ▸ hid)

/-- The STARTUP goes to the one processor that is awaited then. -/
theorem Order.sends {saved : BitVec 32} {n : Nat} {command : BitVec 32} (hN : N < 2 ^ 16)
    (ha : Accounted N s) (ho : Order s) (ht : s.endings .timedOut = 0)
    (hp : s.phase = .startup id saved) (hp' : s'.phase = .poll id saved n) (hap : s'.ap = s.ap)
    (hsent : s'.sent = s.sent ++ [⟨id, command⟩]) (hcounted : s'.counted = s.counted)
    (hended : s'.ended = s.ended) (hcalls : s'.bsp.calls = s.bsp.calls) : Order s' := by
  have hcalled := called_congr hended
  have hawaited : s.phase.awaited = none := by
    rw [hp]
    rfl
  obtain ⟨hcount, hflights⟩ := ho.nobody hN ha ht hawaited
  have hsame : ∀ id', s'.phase.awaited = some id' → id = id' := by
    rw [hp']
    exact fun id' hid' => Option.some.inj hid'
  refine ⟨hended ▸ ho.booted, ?_, ?_, Or.inl ?_, ?_, ?_⟩
  · rw [hcalls, hcalled, hp', ho.calls, hp]
    rfl
  · rw [hp', hended]
    have hsaved := ho.saved
    rw [hp] at hsaved
    exact hsaved
  · rw [hcounted, hcalled, hcount]
  · intro id' hid' i hi
    rw [hap] at hi
    have hone := inFlight_le hi
    omega
  · intro id' hid' m hm hstart
    rw [hsent] at hm
    rcases List.mem_append.mp hm with hm | hm
    · have hpos : 0 < s.sent.countP Ipi.isStartup := List.countP_pos_iff.mpr ⟨m, hm, hstart⟩
      unfold System.flights at hflights
      omega
    · rw [List.mem_singleton.mp hm]
      exact hsame id' hid'

/-- **Step lemma**, for the bootstrap processor. -/
theorem Order.bspStep (hN : N < 2 ^ 16) (ha : Accounted N s) (ho : Order s) (apicReg : BitVec 32)
    (ht' : (s.bspStep mem table apicReg).endings .timedOut = 0) (ht : s.endings .timedOut = 0) :
    Order (s.bspStep mem table apicReg) := by
  revert ht'
  unfold System.bspStep
  split <;> intro ht'
  · -- in the loop over the table
    rename_i hp
    split
    · refine ho.goes rfl rfl rfl rfl ?_ ?_ ?_ (Or.inl rfl)
      all_goals rw [hp]
      · rfl
      · exact fun v hv => nomatch hv
      · rfl
    · have hvisit : ∀ n next, Order (s.visit n next) := fun n next =>
        ho.goes rfl rfl rfl rfl rfl (fun _ hv => hv) rfl (Or.inr rfl)
      split
      · split
        · refine ho.goes rfl rfl rfl rfl ?_ ?_ ?_ (Or.inl rfl)
          all_goals rw [hp]
          · rfl
          · exact fun v hv => nomatch hv
          · rfl
        · exact hvisit _ _
      · exact hvisit _ _
      · exact hvisit _ _
      · exact hvisit _ _
      · exact hvisit _ _
      · refine ho.goes rfl rfl rfl rfl ?_ ?_ ?_ (Or.inl rfl)
        all_goals rw [hp]
        · rfl
        · exact fun v hv => nomatch hv
        · rfl
  · -- the counter is saved
    rename_i id hp
    have hawaited : s.phase.awaited = none := by
      rw [hp]
      rfl
    obtain ⟨hcount, -⟩ := ho.nobody hN ha ht hawaited
    have hcalls := ho.calls
    rw [hp] at hcalls
    refine ⟨ho.booted, ?_, ?_, Or.inl hcount, nofun, nofun⟩
    · show s.bsp.calls ++ [id] = s.called ++ [id]
      rw [hcalls]
      exact congrArg (· ++ [id]) (List.append_nil _)
    · intro v hv
      have hv' : s.smpInitializedCoresNum = v := Option.some.inj hv
      rw [← hv', ha.counter, hcount, called_length]
      rfl
  · -- the INIT
    rename_i id saved hp
    split
    · exact ho.goes rfl rfl rfl rfl rfl (fun _ hv => hv) rfl (Or.inr rfl)
    · refine ho.goes rfl rfl rfl rfl ?_ ?_ ?_ (Or.inl rfl)
      all_goals rw [hp]
      · rfl
      · exact fun v hv => hv
      · rfl
  · -- the STARTUP
    rename_i id saved hp
    split
    · exact ho.goes rfl rfl rfl rfl rfl (fun _ hv => hv) rfl (Or.inr rfl)
    · exact ho.sends hN ha ht hp rfl rfl rfl rfl rfl rfl
  · -- the call gives up
    rename_i id saved hp
    rw [endings_ends, if_pos rfl] at ht'
    omega
  · rename_i id saved n hp
    have hbalance := ho.balance hN ha ht
    have hlen : s.counted.length < 2 ^ 16 := by
      have hcalls := ha.calls
      have hrounds := ha.rounds
      omega
    have hsaved := ho.saved
    have hcalls := ho.calls
    rw [hp] at hsaved hbalance hcalls
    have hcmp := counter_cmp hlen ho.ended_le
    rw [← ha.counter, ← hsaved saved rfl] at hcmp
    obtain ⟨hgt, heq⟩ := hcmp
    dsimp only at ht' ⊢
    split
    · -- there are not that many
      rename_i hmore
      have hlong := hgt.mp hmore
      rcases ho.counted with h | ⟨id', -, h⟩
      all_goals
        have hlen' := congrArg List.length h
        simp only [List.length_append, called_length, List.length_singleton] at hlen'
        omega
    · split
      · rename_i hone
        have hlong := heq.mp hone
        have hcounted : s.counted = s.called ++ [id] := by
          rcases ho.counted with h | ⟨id', hid', h⟩
          · have hlen' := congrArg List.length h
            rw [called_length] at hlen'
            omega
          · rw [hp] at hid'
            rw [h, Option.some.inj hid']
        have hcalled : ∀ t : System, (t.ends id .booted).called = t.called ++ [id] := fun t =>
          List.map_append ..
        refine ⟨?_, ?_, nofun, Or.inl ?_, nofun, nofun⟩
        · exact List.forall_mem_append.mpr ⟨ho.booted, by simp⟩
        · rw [hcalled]
          show s.bsp.calls = (s.called ++ [id]) ++ []
          rw [List.append_nil]
          exact hcalls
        · rw [hcalled]
          exact hcounted
      · refine ho.goes rfl rfl rfl rfl ?_ ?_ ?_ (Or.inr rfl)
        all_goals rw [hp]
        · rfl
        · exact fun v hv => hv
        · rfl
  · exact ho

/-- Calls that have ended stay so. -/
theorem ended_grows (e : Event) : s.ended <+: (s.step mem table e).ended := by
  cases e with
  | bsp apicReg =>
    show s.ended <+: (s.bspStep mem table apicReg).ended
    unfold System.bspStep
    dsimp only
    repeat' split
    all_goals first | exact List.prefix_rfl | exact List.prefix_append _ _
  | deliver => exact (deliver_others s).ended ▸ List.prefix_rfl
  | enter i c => exact (enter_others s i c).ended ▸ List.prefix_rfl
  | core i => exact (coreStep_others s i).ended ▸ List.prefix_rfl

/-- Nobody had given up before. -/
theorem endings_step (e : Event) (h : (s.step mem table e).endings .timedOut = 0) :
    s.endings .timedOut = 0 :=
  Nat.le_zero.mp (h ▸ (ended_grows e).sublist.countP_le)

/-- The counter does not wrap: fewer processors than it has values. -/
theorem Accounted.counter_toNat (hN : N < 2 ^ 16) (h : Accounted N s) :
    s.smpInitializedCoresNum.toNat = 1 + s.counted.length := by
  have hcalls := h.calls
  have hrounds := h.rounds
  rw [h.counter, BitVec.toNat_ofNat]
  exact Nat.mod_eq_of_lt (by omega)

/-- The balance, whatever the current call has saved. -/
theorem Accounted.paid (h : Accounted N s) :
    s.flights + s.bsp.log.count .moreCores
      ≤ s.endings .timedOut + s.phase.awaited.toList.length := by
  obtain ⟨c, hc, -, hbalance⟩ := h.balance
  rw [h.log]
  omega

/-- While the order holds nobody is reported as too many. -/
theorem Order.no_moreCores (ho : Order s) (h : Accounted N s) :
    Smp.Action.moreCores ∉ s.bsp.log := by
  rw [← List.count_eq_zero, h.log, System.endings, List.countP_eq_zero]
  intro e he
  rw [ho.booted e he]
  exact Bool.false_ne_true

/-- And only the awaited processor is in flight. -/
theorem Order.awaited (hN : N < 2 ^ 16) (ha : Accounted N s) (ho : Order s)
    (ht : s.endings .timedOut = 0) (i : BitVec 8) (hi : (s.ap i).inFlight = true) :
    s.phase.awaited = some i := by
  cases haw : s.phase.awaited with
  | none =>
    have hnone := (ho.nobody hN ha ht haw).2
    have hone := inFlight_le hi
    omega
  | some id => rw [ho.inFlight id haw i hi]

/-- **Step lemma** for the account. -/
theorem Accounted.step (hN : N < 2 ^ 16) (h : Accounted N s) (e : Event) :
    Accounted N (s.step mem table e) := by
  cases e with
  | bsp apicReg => exact h.bspStep hN apicReg
  | deliver => exact h.others (deliver_others s)
  | enter i c => exact h.others (enter_others s i c)
  | core i => exact h.others (coreStep_others s i)

/-- **Step lemma** for the order, as long as no call times out. -/
theorem Order.step (hN : N < 2 ^ 16) (ha : Accounted N s) (ho : Order s) (e : Event)
    (ht : (s.step mem table e).endings .timedOut = 0) : Order (s.step mem table e) := by
  have hbefore := endings_step e ht
  cases e with
  | bsp apicReg => exact ho.bspStep hN ha apicReg ht hbefore
  | deliver => exact ho.deliver
  | enter i c => exact ho.enter i c
  | core i => exact ho.coreStep hN ha hbefore i

end Order

/-! ### Every state reached -/

section Run

variable {mem : Mem} {table : BitVec 32} {waits : BitVec 8 → Bool} {tr : List Event} {s : System}

/-- The run of a list of events. -/
abbrev System.run (mem : Mem) (table : BitVec 32) (s : System) (tr : List Event) : System :=
  tr.foldl (System.step mem table) s

/-- At power-on no processor is in flight, … -/
theorem powerOn_ap (i : BitVec 8) : ((powerOn mem table waits).ap i).inFlight = false := by
  show (if waits i then Ap.waiting else .halted).inFlight = false
  split <;> rfl

/-- … and so the number in flight is zero. -/
theorem powerOn_flights : (powerOn mem table waits).flights = 0 := by
  have hsum : tally Ap.inFlight (powerOn mem table waits).ap = 0 :=
    Finset.sum_eq_zero fun i _ => congrArg Bool.toNat (powerOn_ap i)
  unfold System.flights
  rw [hsum]
  rfl

/-- The account holds at power-on, … -/
theorem accounted_powerOn : Accounted (entryCount mem table).toNat (powerOn mem table waits) := by
  refine ⟨rfl, ?_, ?_, rfl, 0, le_rfl, nofun, ?_⟩
  · rw [powerOn_flights]
    exact le_rfl
  · show 0 + 0 + (entryCount mem table).toNat ≤ _
    omega
  · rw [powerOn_flights]
    exact le_rfl

/-- … and so does the order. -/
theorem order_powerOn : Order (powerOn mem table waits) :=
  ⟨nofun, rfl, nofun, Or.inl rfl, nofun, nofun⟩

/-- **Run lemma.** -/
theorem run_accounted (mem : Mem) (table : BitVec 32) (waits : BitVec 8 → Bool) (tr : List Event) :
    Accounted (entryCount mem table).toNat ((powerOn mem table waits).run mem table tr) ∧
      (((powerOn mem table waits).run mem table tr).endings .timedOut = 0 →
        Order ((powerOn mem table waits).run mem table tr)) := by
  have hrun : Run (fun s e s' => System.step mem table s e = s') (powerOn mem table waits) tr
      ((powerOn mem table waits).run mem table tr) := Run.foldl (fun _ _ => rfl) tr _
  have hN : (entryCount mem table).toNat < 2 ^ 16 := (entryCount mem table).isLt
  refine hrun.invariant (J := fun _ s => Accounted (entryCount mem table).toNat s ∧
    (s.endings .timedOut = 0 → Order s)) ⟨accounted_powerOn, fun _ => order_powerOn⟩ ?_
  rintro tr s e _ ⟨ha, ho⟩ rfl
  exact ⟨ha.step hN e, fun ht => (ho (endings_step e ht)).step hN ha e ht⟩

/-- **Every processor is accounted for**, in every order of steps and arrivals.  The counter counts;
    the processors on their way and the messages that there are too many are at most the calls that
    gave up, and one more while a call waits.  As long as no call gives up every call ends with its
    processor up, the processors count themselves in the order of the calls, and no processor but
    the one that is awaited is on its way. -/
theorem cores_accounted (mem : Mem) (table : BitVec 32) (waits : BitVec 8 → Bool)
    (tr : List Event) :
    let s := (powerOn mem table waits).run mem table tr
    s.smpInitializedCoresNum.toNat = 1 + s.counted.length ∧
      s.flights + s.bsp.log.count .moreCores
        ≤ s.endings .timedOut + s.phase.awaited.toList.length ∧
      (s.endings .timedOut = 0 →
        (∀ e ∈ s.ended, e.2 = .booted) ∧ Smp.Action.moreCores ∉ s.bsp.log ∧
          (s.counted = s.called ∨
            ∃ id, s.phase.awaited = some id ∧ s.counted = s.called ++ [id]) ∧
          ∀ i, (s.ap i).inFlight = true → s.phase.awaited = some i) := by
  obtain ⟨ha, ho⟩ := run_accounted mem table waits tr
  have hN : (entryCount mem table).toNat < 2 ^ 16 := (entryCount mem table).isLt
  refine ⟨ha.counter_toNat hN, ha.paid, fun ht => ?_⟩
  have hord := ho ht
  exact ⟨hord.booted, hord.no_moreCores ha, hord.counted, hord.awaited hN ha ht⟩

end Run

end Leoman.Startup
