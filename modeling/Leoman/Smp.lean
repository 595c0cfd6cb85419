import Leoman.Lib.ByteMem
import Leoman.Lib.Rounds
import Leoman.Trampoline

namespace Leoman.Smp

open ByteMem Rounds
open Trampoline (kernelTrampolineLoadAddr kernelTrampolineMaxSize)

/-!
# Waking the other processors (`kernel/smp.c`)

`smp_init` goes through the entries of the MP configuration table.  Their first byte is their type,
and that determines their size.  For every processor but number zero it calls `smp_init_core`, which
sends two interrupts through the local APIC and waits for the processor to count itself.

* `smpInitCore`, `smpInit` — the code;
* `Entry.bytes` — how an entry is laid out; `boundaries`, `coreIds` — where the entries of a list
  are, and which processors they name;
* `smpInitLoop_entry` — one round of the loop;
* `smpInit_walks` — the entries that are visited and the processors that are woken.

What the APIC and the other processors do is given by a `World`.  Stores to the registers of the
APIC are no stores to memory.
-/

/-! ### The code -/

/-- What the processor gets to read that it did not write itself: the registers of the APIC and
    `smp_initialized_cores_num`, by the number of such reads made before; and what the linker
    provides. -/
structure World where
  apic : Nat → BitVec 32 → BitVec 32
  initializedCoresNum : Nat → BitVec 32
  trampolineBinSize : BitVec 32

/-- What the processor does, other than to read. -/
inductive Action where
  | mmioWrite (addr value : BitVec 32)
  | detectingHardware
  | trampolineTooBig
  | couldntSendInit (coreId : BitVec 8)
  | couldntSendStartup (coreId : BitVec 8)
  | moreCores
  | unknownEntry (type : BitVec 8)
  | woke (cores : BitVec 32)
deriving DecidableEq, Repr

/-- The bootstrap processor: the number of reads so far, the actions, the calls of `smp_init_core`,
    and the addresses at which an entry was taken to be. -/
structure Bsp where
  now : Nat
  log : List Action
  calls : List (BitVec 8)
  visited : List (BitVec 32)
deriving DecidableEq, Repr

/-- One action more. -/
def Bsp.act (s : Bsp) (a : Action) : Bsp := { s with log := s.log ++ [a] }

/-- A read more. -/
def Bsp.tick (s : Bsp) : Bsp := { s with now := s.now + 1 }

variable (w : World)

/-- `while (mmio_read32(apic + 0x30) & BIT(12))`, a number of times at most. -/
def waitIdle (apic : BitVec 32) : Nat → Bsp → Option Bsp
  | 0, _ => none
  | n + 1, s =>
    if w.apic s.now (apic + 0x30#32) &&& 0x1000#32 ≠ 0#32 then waitIdle apic n s.tick
    else some s.tick

/-- Wait, choose the processor, and send the interrupt. -/
def sendIpi (command apic : BitVec 32) (rounds : Nat) (coreId : BitVec 8) (s : Bsp) :
    Option (Int × Bsp) := do
  let s ← waitIdle w apic rounds s
  let s := s.act (.mmioWrite (apic + 0x310#32) (coreId.setWidth 32 <<< 24))
  let s := s.act (.mmioWrite (apic + 0x300#32) command)
  return (0, s)

variable (mem : Mem) (table : BitVec 32)

/-- `mp_conf_table->local_apic_addr`. -/
def localApicAddr : BitVec 32 := read32 mem (table + 36#32)

/-- `mp_conf_table->entry_count`. -/
def entryCount : BitVec 16 := mem (table + 35#32) ++ mem (table + 34#32)

/-- `&mp_conf_table->_entries[0]`. -/
def entries : BitVec 32 := table + 44#32

/-- `smp_send_init_ipi`. -/
def smpSendInitIpi (rounds : Nat) (coreId : BitVec 8) (s : Bsp) : Option (Int × Bsp) :=
  sendIpi w 0x4500#32 (localApicAddr mem table) rounds coreId s

/-- `smp_send_startup_ipi`. -/
def smpSendStartupIpi (rounds : Nat) (coreId codePage : BitVec 8) (s : Bsp) :
    Option (Int × Bsp) :=
  sendIpi w (0x4600#32 ||| codePage.setWidth 32) (localApicAddr mem table) rounds coreId s

/-- The loop that waits for the processor to count itself, a number of times at most. -/
def waitForCore (saved : BitVec 32) : Nat → Bsp → Int × Bsp
  | 0, s => (0, s)
  | n + 1, s =>
    let current := w.initializedCoresNum s.now
    if current > saved + 1#32 then (1, s.tick.act .moreCores)
    else if current = saved + 1#32 then (0, s.tick)
    else waitForCore saved n s.tick

/-- `smp_init_core`.  The last loop tests `tries++ < 10000000` after each round. -/
def smpInitCore (rounds : Nat) (coreId : BitVec 8) (s : Bsp) : Option (Int × Bsp) :=
  let s := { s with calls := s.calls ++ [coreId] }
  let saved := w.initializedCoresNum s.now
  let s := s.tick
  if w.trampolineBinSize.toNat > kernelTrampolineMaxSize then some (1, s.act .trampolineTooBig)
  else do
    let (r, s) ← smpSendInitIpi w mem table rounds coreId s
    if r ≠ 0 then return (1, s.act (.couldntSendInit coreId))
    else do
      let (r, s) ← smpSendStartupIpi w mem table rounds coreId
        (BitVec.ofNat 8 (kernelTrampolineLoadAddr / 4096)) s
      if r ≠ 0 then return (1, s.act (.couldntSendStartup coreId))
      else return waitForCore w saved 10000001 s

/-- The loop of `smp_init` with `n` rounds left.  Nothing changes `entry_count`. -/
def smpInitLoop (rounds : Nat) : Nat → BitVec 32 → Bsp → Option Bsp
  | 0, _, s => some (s.tick.act (.woke (w.initializedCoresNum s.now)))
  | n + 1, entry, s =>
    let s := { s with visited := s.visited ++ [entry] }
    match (mem entry).toNat with
    | 0 =>
      let localApicId := mem (entry + 1#32)
      if localApicId ≠ 0x00#8 then do
        let (_, s) ← smpInitCore w mem table rounds localApicId s
        smpInitLoop rounds n (entry + 20#32) s
      else smpInitLoop rounds n (entry + 20#32) s
    | 1 => smpInitLoop rounds n (entry + 8#32) s
    | 2 => smpInitLoop rounds n (entry + 8#32) s
    | 3 => smpInitLoop rounds n (entry + 8#32) s
    | 4 => smpInitLoop rounds n (entry + 8#32) s
    | _ => some (s.act (.unknownEntry (mem entry)))

/-- `smp_init`, once the table is found and the trampoline is in place. -/
def smpInit (rounds : Nat) (s : Bsp) : Option Bsp :=
  smpInitLoop w mem table rounds (entryCount mem table).toNat (entries table)
    (s.act .detectingHardware)

/-! ### The table -/

/-- The bytes of a word and of a double word. -/
def wordBytes (x : BitVec 16) : List (BitVec 8) := [x.extractLsb' 0 8, x.extractLsb' 8 8]

def dwordBytes (x : BitVec 32) : List (BitVec 8) :=
  [x.extractLsb' 0 8, x.extractLsb' 8 8, x.extractLsb' 16 8, x.extractLsb' 24 8]

/-- An entry, of one of the five types. -/
inductive Entry where
  | cpu (localApicId localApicVer cpuFlags : BitVec 8)
      (cpuSignature featureFlags resvd0 resvd1 : BitVec 32)
  | bus (id : BitVec 8) (typeString : Fin 6 → BitVec 8)
  | ioApic (apicId apicVer apicFlags : BitVec 8) (apicAddr : BitVec 32)
  | intAssign (intType : BitVec 8) (intFlag : BitVec 16)
      (sourceBusId sourceBusIrq destApicId destApicIntin : BitVec 8)
  | localIntAssign (intType : BitVec 8) (localIntFlag : BitVec 16)
      (sourceBusId sourceBusIrq destApicId destApicIntin : BitVec 8)

/-- How it is laid out. -/
def Entry.bytes : Entry → List (BitVec 8)
  | cpu id ver flags signature features r₀ r₁ =>
    [0x00#8, id, ver, flags] ++ dwordBytes signature ++ dwordBytes features ++ dwordBytes r₀ ++
      dwordBytes r₁
  | bus id typeString => [0x01#8, id] ++ List.ofFn typeString
  | ioApic id ver flags addr => [0x02#8, id, ver, flags] ++ dwordBytes addr
  | intAssign type flag source irq apic intin =>
    [0x03#8, type] ++ wordBytes flag ++ [source, irq, apic, intin]
  | localIntAssign type flag source irq apic intin =>
    [0x04#8, type] ++ wordBytes flag ++ [source, irq, apic, intin]

/-- The processor that the entry has woken. -/
def Entry.coreId : Entry → Option (BitVec 8)
  | cpu id .. => if id ≠ 0x00#8 then some id else none
  | _ => none

/-- The processors, in order. -/
def coreIds (es : List Entry) : List (BitVec 8) := es.filterMap Entry.coreId

/-- Where the entries are. -/
def boundaries (a : BitVec 32) : List Entry → List (BitVec 32)
  | [] => []
  | e :: es => a :: boundaries (a + BitVec.ofNat 32 e.bytes.length) es

/-- The APIC gets idle over and over. -/
def World.Idle (apic : BitVec 32) : Prop :=
  ∀ n, ∃ m ≥ n, w.apic m (apic + 0x30#32) &&& 0x1000#32 = 0#32

/-- From one state to the other exactly these entries are visited, and these processors woken. -/
structure Bsp.Came (s s' : Bsp) (visited : List (BitVec 32)) (ids : List (BitVec 8)) : Prop where
  visited : s'.visited = s.visited ++ visited
  calls : s'.calls = s.calls ++ ids

section Calls

variable {w mem table} {rounds n : Nat} {apic entry a : BitVec 32} {coreId : BitVec 8}
  {s s' : Bsp} {e : Entry} {es : List Entry}

/-- Neither an action nor a read is a visit or a call. -/
theorem Bsp.came_nil (hv : s'.visited = s.visited) (hc : s'.calls = s.calls) : s.Came s' [] [] :=
  ⟨hv.trans (List.append_nil _).symm, hc.trans (List.append_nil _).symm⟩

theorem Bsp.Came.trans {s₁ s₂ s₃ : Bsp} {v v' : List (BitVec 32)} {i i' : List (BitVec 8)}
    (h : s₁.Came s₂ v i) (h' : s₂.Came s₃ v' i') : s₁.Came s₃ (v ++ v') (i ++ i') :=
  ⟨by rw [h'.visited, h.visited, List.append_assoc], by rw [h'.calls, h.calls, List.append_assoc]⟩

theorem waitIdle_came (h : waitIdle w apic rounds s = some s') : s.Came s' [] [] := by
  induction rounds generalizing s with
  | zero => exact nomatch h
  | succ n ih =>
    have htick : s.Came s.tick [] [] := Bsp.came_nil rfl rfl
    rw [waitIdle] at h
    split at h
    · exact htick.trans (ih h)
    · cases h
      exact htick

theorem sendIpi_came {command : BitVec 32} {r : Int}
    (h : sendIpi w command apic rounds coreId s = some (r, s')) : s.Came s' [] [] := by
  obtain ⟨s₁, hwait, h⟩ := Option.bind_eq_some_iff.mp h
  cases h
  exact (waitIdle_came hwait).trans (Bsp.came_nil rfl rfl)

theorem waitForCore_came (w : World) (saved : BitVec 32) (n : Nat) (s : Bsp) :
    s.Came (waitForCore w saved n s).2 [] [] := by
  induction n generalizing s with
  | zero => exact Bsp.came_nil rfl rfl
  | succ n ih =>
    have htick : s.Came s.tick [] [] := Bsp.came_nil rfl rfl
    rw [waitForCore]
    split
    · exact Bsp.came_nil rfl rfl
    · split
      · exact htick
      · exact htick.trans (ih s.tick)

/-- Waking a processor is one call. -/
theorem smpInitCore_came {r : Int}
    (h : smpInitCore w mem table rounds coreId s = some (r, s')) : s.Came s' [] [coreId] := by
  have hcall : s.Came (Bsp.tick { s with calls := s.calls ++ [coreId] }) [] [coreId] :=
    ⟨(List.append_nil _).symm, rfl⟩
  unfold smpInitCore at h
  dsimp only at h
  split at h
  · cases h
    exact hcall.trans (Bsp.came_nil rfl rfl)
  · obtain ⟨⟨r₁, s₁⟩, h₁, h⟩ := Option.bind_eq_some_iff.mp h
    have hinit := hcall.trans (sendIpi_came h₁)
    dsimp only at h
    split at h
    · cases h
      exact hinit.trans (Bsp.came_nil rfl rfl)
    · obtain ⟨⟨r₂, s₂⟩, h₂, h⟩ := Option.bind_eq_some_iff.mp h
      have hstartup := hinit.trans (sendIpi_came h₂)
      dsimp only at h
      split at h
      · cases h
        exact hstartup.trans (Bsp.came_nil rfl rfl)
      · have hwait := waitForCore_came w (w.initializedCoresNum s.now) 10000001 s₂
        rw [Option.some.inj h] at hwait
        exact hstartup.trans hwait

/-- The size of an entry. -/
theorem Entry.bytes_length (e : Entry) :
    e.bytes.length = match e with | cpu .. => 20 | _ => 8 := by
  cases e <;> simp [Entry.bytes, dwordBytes, wordBytes]

/-- **One round.**  The loop goes from one entry to the next, and wakes the processor. -/
theorem smpInitLoop_entry (h : Stored mem entry e.bytes) :
    smpInitLoop w mem table rounds (n + 1) entry s
      = let s := { s with visited := s.visited ++ [entry] }
        let next := entry + BitVec.ofNat 32 e.bytes.length
        match e.coreId with
        | none => smpInitLoop w mem table rounds n next s
        | some id => (smpInitCore w mem table rounds id s).bind fun p =>
          smpInitLoop w mem table rounds n next p.2 := by
  rw [e.bytes_length]
  cases e with
  | cpu id ver flags signature features r₀ r₁ =>
    have h₀ : mem entry = 0x00#8 := h.head
    have h₁ : mem (entry + 1#32) = id := h 1 _ rfl
    simp only [smpInitLoop, h₀, h₁, Entry.coreId]
    by_cases hid : id = 0x00#8
    · simp [hid]
    · simp [hid]
  | bus id typeString =>
    have h₀ : mem entry = 0x01#8 := h.head
    simp [smpInitLoop, h₀, Entry.coreId]
  | ioApic id ver flags addr =>
    have h₀ : mem entry = 0x02#8 := h.head
    simp [smpInitLoop, h₀, Entry.coreId]
  | intAssign type flag source irq apic intin =>
    have h₀ : mem entry = 0x03#8 := h.head
    simp [smpInitLoop, h₀, Entry.coreId]
  | localIntAssign type flag source irq apic intin =>
    have h₀ : mem entry = 0x04#8 := h.head
    simp [smpInitLoop, h₀, Entry.coreId]

/-- **Run lemma.**  All entries of a list. -/
theorem smpInitLoop_came (h : Stored mem a (es.flatMap Entry.bytes))
    (hrun : smpInitLoop w mem table rounds (es.length + n) a s = some s') :
    ∃ s₁, s.Came s₁ (boundaries a es) (coreIds es) ∧ smpInitLoop w mem table rounds n
      (a + BitVec.ofNat 32 (es.flatMap Entry.bytes).length) s₁ = some s' := by
  induction es generalizing a s with
  | nil =>
    rw [List.length_nil, Nat.zero_add] at hrun
    refine ⟨s, Bsp.came_nil rfl rfl, ?_⟩
    rw [List.flatMap_nil, List.length_nil, BitVec.add_zero]
    exact hrun
  | cons e es ih =>
    rw [List.flatMap_cons] at h
    have hsplit : es.length + 1 + n = es.length + n + 1 := by omega
    rw [List.length_cons, hsplit, smpInitLoop_entry h.left] at hrun
    rw [List.flatMap_cons, List.length_append, BitVec.ofNat_add, ← BitVec.add_assoc]
    have hvisit : s.Came { s with visited := s.visited ++ [a] } [a] [] :=
      ⟨rfl, (List.append_nil _).symm⟩
    cases hid : e.coreId with
    | none =>
      have hids : coreIds (e :: es) = coreIds es := List.filterMap_cons_none hid
      simp only [hid] at hrun
      obtain ⟨s₁, hs₁, hloop⟩ := ih h.right hrun
      rw [hids]
      exact ⟨s₁, hvisit.trans hs₁, hloop⟩
    | some id =>
      have hids : coreIds (e :: es) = id :: coreIds es := List.filterMap_cons_some hid
      simp only [hid] at hrun
      obtain ⟨⟨r, s₂⟩, hcore, hrest⟩ := Option.bind_eq_some_iff.mp hrun
      obtain ⟨s₁, hs₁, hloop⟩ := ih h.right hrest
      rw [hids]
      exact ⟨s₁, (hvisit.trans (smpInitCore_came hcore)).trans hs₁, hloop⟩

/-! ### Every call returns -/

/-- The wait is over as soon as the APIC is idle. -/
theorem waitIdle_returns (hidle : w.Idle apic) (s : Bsp) :
    Returns fun rounds => waitIdle w apic rounds s := by
  obtain ⟨m, hm, hzero⟩ := hidle s.now
  obtain ⟨k, hk⟩ : ∃ k, m = s.now + k := ⟨m - s.now, by omega⟩
  clear hm
  -- on the number of reads until the one that finds it idle
  induction k generalizing s with
  | zero =>
    refine Returns.of_succ ?_
    rw [hk, Nat.add_zero] at hzero
    simp only [waitIdle, hzero, ne_eq, not_true, if_false]
    exact returns_some _
  | succ k ih =>
    refine Returns.of_succ ?_
    simp only [waitIdle]
    split
    · refine ih s.tick (hk.trans ?_)
      show s.now + (k + 1) = s.now + 1 + k
      omega
    · exact returns_some _

theorem sendIpi_returns (hidle : w.Idle apic) (command : BitVec 32) (coreId : BitVec 8) (s : Bsp) :
    Returns fun rounds => sendIpi w command apic rounds coreId s :=
  (waitIdle_returns hidle s).bind fun _ => returns_some _

theorem smpInitCore_returns (hidle : w.Idle (localApicAddr mem table)) (coreId : BitVec 8)
    (s : Bsp) : Returns fun rounds => smpInitCore w mem table rounds coreId s := by
  simp only [smpInitCore]
  split
  · exact returns_some _
  · refine (sendIpi_returns hidle _ coreId _).bind fun p => ?_
    split
    · exact returns_some _
    · refine (sendIpi_returns hidle _ coreId p.2).bind fun p' => ?_
      split
      · exact returns_some _
      · exact returns_some _

/-- The loop gets to the end of a list of entries. -/
theorem smpInitLoop_returns (hidle : w.Idle (localApicAddr mem table))
    (h : Stored mem a (es.flatMap Entry.bytes))
    (hend : ∀ s, Returns fun rounds => smpInitLoop w mem table rounds n
      (a + BitVec.ofNat 32 (es.flatMap Entry.bytes).length) s) (s : Bsp) :
    Returns fun rounds => smpInitLoop w mem table rounds (es.length + n) a s := by
  induction es generalizing a s with
  | nil =>
    rw [List.flatMap_nil, List.length_nil, BitVec.add_zero] at hend
    rw [List.length_nil, Nat.zero_add]
    exact hend s
  | cons e es ih =>
    rw [List.flatMap_cons] at h
    rw [List.flatMap_cons, List.length_append, BitVec.ofNat_add, ← BitVec.add_assoc] at hend
    have hsplit : (e :: es).length + n = es.length + n + 1 := by
      rw [List.length_cons]
      omega
    simp only [hsplit, smpInitLoop_entry h.left]
    cases hid : e.coreId with
    | none => exact ih h.right hend _
    | some id => exact (smpInitCore_returns hidle id _).bind fun p => ih h.right hend p.2

/-- An entry of no known type ends the loop. -/
theorem smpInitLoop_unknown (h : 4 < (mem entry).toNat) :
    smpInitLoop w mem table rounds (n + 1) entry s
      = some (Bsp.act { s with visited := s.visited ++ [entry] } (.unknownEntry (mem entry))) := by
  rw [smpInitLoop]
  split <;> first | omega | rfl

/-! ### The table is processed -/

/-- A run that returns visits these entries, wakes these processors, and its last action is as
    given; and a run returns when the APIC gets idle over and over. -/
structure Processes (w : World) (mem : Mem) (table : BitVec 32) (s : Bsp)
    (visited : List (BitVec 32)) (ids : List (BitVec 8)) (last : Action → Prop) : Prop where
  run : ∀ rounds s', smpInit w mem table rounds s = some s' →
    s.Came s' visited ids ∧ ∃ a, last a ∧ s'.log.getLast? = some a
  returns : w.Idle (localApicAddr mem table) → Returns fun rounds => smpInit w mem table rounds s

/-- **The walk over the table.**  The loop visits the entries at their boundaries, and wakes the
    processors that have a number other than zero, in order.  At an entry of no known type it
    stops. -/
theorem smpInit_walks (w : World) (mem : Mem) (table : BitVec 32) (es : List Entry) (s : Bsp)
    (h : Stored mem (entries table) (es.flatMap Entry.bytes)) :
    ((entryCount mem table).toNat = es.length →
      Processes w mem table s (boundaries (entries table) es) (coreIds es)
        fun a => ∃ cores, a = .woke cores) ∧
    (es.length < (entryCount mem table).toNat →
      4 < (mem (entries table + BitVec.ofNat 32 (es.flatMap Entry.bytes).length)).toNat →
      Processes w mem table s (boundaries (entries table) es ++
          [entries table + BitVec.ofNat 32 (es.flatMap Entry.bytes).length]) (coreIds es)
        fun a => a = .unknownEntry
          (mem (entries table + BitVec.ofNat 32 (es.flatMap Entry.bytes).length))) := by
  have hstart : s.Came (s.act .detectingHardware) [] [] := Bsp.came_nil rfl rfl
  constructor
  · intro hcount
    have hloop : ∀ rounds, smpInit w mem table rounds s = smpInitLoop w mem table rounds
        (es.length + 0) (entries table) (s.act .detectingHardware) := fun rounds => by
      rw [smpInit, hcount, Nat.add_zero]
    refine ⟨fun rounds s' hrun => ?_, fun hidle => ?_⟩
    · rw [hloop] at hrun
      obtain ⟨s₁, hs₁, hend⟩ := smpInitLoop_came h hrun
      have hwoke : s₁.tick.act (.woke (w.initializedCoresNum s₁.now)) = s' := Option.some.inj hend
      subst hwoke
      refine ⟨⟨?_, ?_⟩, _, ⟨_, rfl⟩, List.getLast?_concat⟩
      · exact (hstart.trans hs₁).visited
      · exact (hstart.trans hs₁).calls
    · simp only [hloop]
      exact smpInitLoop_returns (n := 0) hidle h (fun _ => returns_some _) _
  · intro hcount hunknown
    obtain ⟨n, hn⟩ : ∃ n, (entryCount mem table).toNat = es.length + (n + 1) :=
      ⟨(entryCount mem table).toNat - es.length - 1, by omega⟩
    have hloop : ∀ rounds, smpInit w mem table rounds s = smpInitLoop w mem table rounds
        (es.length + (n + 1)) (entries table) (s.act .detectingHardware) := fun rounds => by
      rw [smpInit, hn]
    refine ⟨fun rounds s' hrun => ?_, fun hidle => ?_⟩
    · rw [hloop] at hrun
      obtain ⟨s₁, hs₁, hend⟩ := smpInitLoop_came h hrun
      rw [smpInitLoop_unknown hunknown, Option.some.injEq] at hend
      subst hend
      refine ⟨⟨?_, ?_⟩, _, rfl, List.getLast?_concat⟩
      · show s₁.visited ++ _ = _
        rw [hs₁.visited, List.append_assoc]
        rfl
      · exact (hstart.trans hs₁).calls
    · simp only [hloop]
      refine smpInitLoop_returns hidle h (fun s₁ => ?_) _
      simp only [smpInitLoop_unknown hunknown]
      exact returns_some _

end Calls

/-- The boot processor, an interrupt of a device, a second processor. -/
def twoProcessors : List Entry :=
  [.cpu 0x00#8 0x14#8 0x03#8 0x600#32 0x201#32 0#32 0#32,
   .intAssign 0x00#8 0x0000#16 0x00#8 0x01#8 0x02#8 0x01#8,
   .cpu 0x01#8 0x14#8 0x01#8 0x600#32 0x201#32 0#32 0#32]

/-- A table that counts three entries. -/
def smallTable : Mem := fun x =>
  let k := (x - 0xf0000#32).toNat
  if k = 34 then 0x03#8
  else if k < 44 then 0x00#8
  else (twoProcessors.flatMap Entry.bytes).getD (k - 44) 0xff#8

/-- The APIC is idle, and every processor counts itself at once. -/
def readyWorld : World := ⟨fun _ _ => 0x50014#32, fun n => BitVec.ofNat 32 (n + 1), 0x100#32⟩

/-- The second processor is woken. -/
theorem smpInit_walks_small :
    Stored smallTable (entries 0xf0000#32) (twoProcessors.flatMap Entry.bytes) ∧
    Processes readyWorld smallTable 0xf0000#32 ⟨0, [], [], []⟩
      [0xf002c#32, 0xf0040#32, 0xf0048#32] [0x01#8] fun a => ∃ cores, a = .woke cores := by
  have hstored : Stored smallTable (entries 0xf0000#32) (twoProcessors.flatMap Entry.bytes) := by
    intro i b hb
    have hlen : (twoProcessors.flatMap Entry.bytes).length = 48 := by decide
    have hi : i < 48 := hlen ▸ (List.getElem?_eq_some_iff.mp hb).1
    have hk : (entries 0xf0000#32 + BitVec.ofNat 32 i - 0xf0000#32).toNat = i + 44 := by
      unfold entries
      bv_omega
    rw [smallTable, hk]
    simp only [show i + 44 ≠ 34 by omega, show ¬ i + 44 < 44 by omega, if_false,
      Nat.add_sub_cancel, List.getD_eq_getElem?_getD, hb, Option.getD_some]
  exact ⟨hstored, (smpInit_walks readyWorld smallTable 0xf0000#32 twoProcessors ⟨0, [], [], []⟩
    hstored).1 (by decide)⟩

end Leoman.Smp
