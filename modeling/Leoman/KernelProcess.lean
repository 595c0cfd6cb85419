import Leoman.Resident
import Leoman.PageRange

namespace Leoman

open ByteMem StateExcept Runs

/-!
# The kernel process (`kernel/msg_dispatcher.c`)

The dispatcher waits for a request, runs the branch of its type and replies.  A request comes
from any process and may hold anything.  Two branches trust it: `MSG_MAP_MEMORY` always maps at
`0x10000000`, where `map_page` halts when it finds another page, and
`MSG_REQUEST_INTERRUPT_FORWARDING` hands `which` to `irq_install_handler`, whose only test is
`num < 16`, after a look into the page table of the handler.

* `MsgKernel`, `dispatch` — the request, and one iteration from its receipt to the reply;
* `kernel_process_robust` — as long as the requests meet `Acceptable`, every iteration replies
  and writes the interrupt table inside its sixteen slots;
* `mapMemory_answers_iff`, `forwarding_answers_iff` — the two branches reply to nothing else;
* `second_mapping_halts` — any second mapping to another frame halts the kernel.
-/

/-! ### Requests -/

/-- `struct msg_kernel`: the type, and the bytes of the union with what lies behind it. -/
structure MsgKernel where
  type : BitVec 32
  data : Nat → BitVec 8

/-- `MSG_REQUEST_INTERRUPT_FORWARDING`. -/
def msgRequestInterruptForwarding : BitVec 32 := 0#32

/-- `MSG_MAP_MEMORY`. -/
def msgMapMemory : BitVec 32 := 1#32

/-- `MSG_PORT_IN_BYTE`. -/
def msgPortInByte : BitVec 32 := 2#32

/-- `MSG_PORT_OUT_BYTE`. -/
def msgPortOutByte : BitVec 32 := 3#32

/-- `MSG_FIND_PROC_BY_NAME`. -/
def msgFindProcByName : BitVec 32 := 4#32

namespace MsgKernel

variable (msg : MsgKernel)

/-- A word of the union. -/
def word (i : Nat) : BitVec 32 :=
  msg.data (i + 3) ++ msg.data (i + 2) ++ msg.data (i + 1) ++ msg.data i

/-- `msg.data.interrupt.which`. -/
def which : BitVec 32 := msg.word 0

/-- `msg.data.interrupt.handler`. -/
def handler : BitVec 32 := msg.word 4

/-- `msg.data.map_memory.paddr`. -/
def paddr : BitVec 32 := msg.word 0

/-- `msg.data.map_memory.length`. -/
def length : BitVec 32 := msg.word 4

/-- `msg.data.port.which`. -/
def portWhich : BitVec 16 := msg.data 1 ++ msg.data 0

/-- `msg.data.port.data & 0xff`. -/
def portByte : BitVec 8 := (msg.word 4 &&& 0xff#32).setWidth 8

end MsgKernel

/-- `streq` from byte `i` on, with `n` rounds left. -/
def streq (s₁ s₂ : Nat → BitVec 8) : Nat → Nat → Option Bool
  | 0, _ => none
  | n + 1, i =>
    if s₁ i = s₂ i then if s₁ i = 0#8 then some true else streq s₁ s₂ n (i + 1) else some false

/-- `proc->name`, whose last byte is never written. -/
def Proc.nameBytes (p : Proc) (i : Nat) : BitVec 8 := p.name.toList.getD i 0#8

/-- The loop of `proc_find_by_name`: the pid of the first process of that name, or 0. -/
def findByNameLoop (procs : Slot → Proc) (name : Nat → BitVec 8) : List Slot → Option (BitVec 32)
  | [] => some 0#32
  | s :: rest =>
    match streq (procs s).nameBytes name 33 0 with
    | none => none
    | some true => some (procs s).pid
    | some false => findByNameLoop procs name rest

/-- `proc_find_by_name`. -/
def Kernel.procFindByName {τ : Type} (k : Kernel τ) (name : Nat → BitVec 8) :
    Option (BitVec 32) :=
  findByNameLoop k.procs name (List.finRange nprocs)

/-- What an iteration ends in: `ipc_reply(pid, &response, sizeof response)`, after the byte it
    may have sent to a port. -/
structure Reply where
  pid : BitVec 32
  response : BitVec 32
  out : Option (BitVec 16 × BitVec 8)

section Code

variable {τ : Type} [Tlb τ]

/-- Run the statements of a branch. -/
def execBranch : List (Stmt τ) → Code Trap (System τ) Unit
  | [] => pure ()
  | st :: rest => do
    st.exec
    execBranch rest

/-- `sender->pid`. -/
def senderPid (sender : Option Slot) : Code Trap (Kernel τ) (BitVec 32) :=
  match sender with
  | none => onMach (load32 0#32)
  | some s => do return ((← get).procs s).pid

/-- An iteration of `msg_dispatcher`, from the return of `ipc_recv` to the call of `ipc_reply`.
    `inb` is what the ports hold, and `code` the code at the handler of the request.  (The
    warning about an unknown type goes to the screen only.) -/
def dispatch (inb : BitVec 16 → BitVec 8) (code : BitVec 32 → Code Trap (Machine τ) (BitVec 32))
    (pid : BitVec 32) (msg : MsgKernel) : Code Trap (System τ) Reply := do
  let sender := (← get).kernel.procFindByPid pid
  let (response, out) ←
    if msg.type = msgRequestInterruptForwarding then do
      execBranch (forwardingBranch sender msg.which msg.handler code)
      pure (0x33cafe33#32, none)
    else if msg.type = msgMapMemory then do
      execBranch (mapMemoryBranch sender msg.paddr msg.length)
      pure (0x10000000#32, none)
    else if msg.type = msgPortInByte then
      pure ((inb msg.portWhich).setWidth 32, none)
    else if msg.type = msgPortOutByte then
      pure (1#32, some (msg.portWhich, msg.portByte))
    else if msg.type = msgFindProcByName then do
      match (← get).kernel.procFindByName msg.data with
      | none => trap .halt
      | some found => pure (found, none)
    else pure (0#32, none)
  let replyTo ← onKernel (senderPid sender)
  return ⟨replyTo, response, out⟩

end Code

/-! ### Names -/

/-- A name with an end is compared. -/
theorem streq_isSome {s₁ s₂ : Nat → BitVec 8} {n i j : Nat} (hj : s₁ j = 0#8) (hij : i ≤ j)
    (hn : j < i + n) : (streq s₁ s₂ n i).isSome := by
  induction n generalizing i with
  | zero => omega
  | succ n ih =>
    unfold streq
    split
    · split
      · rfl
      · rename_i hne
        -- the end is still ahead
        have hij' : i ≠ j := fun h => hne (h ▸ hj)
        exact ih (by omega) (by omega)
    · rfl

/-- `proc_find_by_name` returns. -/
theorem procFindByName_isSome {τ : Type} (k : Kernel τ) (name : Nat → BitVec 8) :
    (k.procFindByName name).isSome := by
  unfold Kernel.procFindByName
  induction List.finRange nprocs with
  | nil => rfl
  | cons s rest ih =>
    have hend : (k.procs s).nameBytes 32 = 0#8 := by simp [Proc.nameBytes]
    have hcmp : (streq (k.procs s).nameBytes name 33 0).isSome :=
      streq_isSome hend (Nat.zero_le 32) (by decide)
    unfold findByNameLoop
    split
    · rename_i hnone
      rw [hnone] at hcmp
      exact absurd hcmp (by simp)
    · rfl
    · exact ih

/-! ### The branches -/

/-- The directories of all processes. -/
def directories {τ : Type} (k : Kernel τ) : Set (BitVec 32) :=
  {D | ∃ c, k.board.inited c = true ∧ D = (k.procs c).pdir}

/-- The dispatcher, in slot `d`, is running, and the process table and the page tables are in
    order. -/
structure Serving {τ : Type} (d : Slot) (s : System τ) : Prop where
  current : s.kernel.currentProc = some d
  named : s.kernel.board.Named
  tidy : Tidy (directories s.kernel) s.kernel.mach.mem

/-- The machine with the directory `D` just loaded. -/
def Machine.load {τ : Type} [Tlb τ] (m : Machine τ) (D : BitVec 32) : Machine τ :=
  { m with cr3 := D, tlb := Tlb.flush m.tlb }

/-- The system with another machine and another interrupt table, scheduling enabled. -/
def System.served {τ : Type} (s : System τ) (mach : Machine τ) (handlers : Nat → IrqHandlerEntry τ)
    (saved : BitVec 32) : System τ :=
  { s with
    kernel := { s.kernel with mach := mach, schedulingEnabled := true }
    irqHandlers := handlers
    saveCurrCr3 := saved }

section Branches

variable {τ : Type} [Tlb τ] {d c : Slot} {s : System τ}

omit [Tlb τ] in
/-- As long as the page tables are in order, another iteration can follow. -/
theorem Serving.served (hs : Serving d s) {mach : Machine τ}
    (ht : Tidy (directories s.kernel) mach.mem) (handlers : Nat → IrqHandlerEntry τ)
    (saved : BitVec 32) : Serving d (s.served mach handlers saved) :=
  ⟨hs.current, hs.named, ht⟩

/-- A directory that was just loaded. -/
theorem Serving.loaded (hs : Serving d s) (hin : s.kernel.board.inited c = true) :
    Loaded (directories s.kernel) (s.kernel.mach.load (s.kernel.procs c).pdir) := by
  refine ⟨fun q g hq => ?_, ⟨c, hin, rfl⟩, hs.tidy⟩
  have hin := inWindows_of_lookup hq
  have hq' := (lookup_windowed hin).symm.trans hq
  exact absurd (Tlb.lookup_flush.symm.trans hq') (by simp)

/-- `vm_get_phys_mapping` where there is a page table. -/
theorem vmGetPhysMapping_completes {m : Machine τ} {virt : BitVec 32}
    (hl : Loaded (directories s.kernel) m) (hp : Present (pdeOf m.mem m.cr3 virt)) :
    ∃ phys t, vmGetPhysMapping virt m = .ok (phys, { m with tlb := t }) := by
  obtain ⟨t, ht, -⟩ := load_ptabSlot (m := m.windowed) hl.windows (hl.tidy.recursive _ hl.cr3) hp
  obtain ⟨m', hm', hwm⟩ := (load_ptabSlot_erases virt).exists_ok ht
  have heq : m' = { m with tlb := m'.tlb } := by
    have hmem : m'.windowed.mem = m.mem := by rw [hwm]; rfl
    have hcr3 : m'.windowed.cr3 = m.cr3 := by rw [hwm]; rfl
    have hpm : m'.windowed.pm = m.pm := by rw [hwm]; rfl
    rw [← hmem, ← hcr3, ← hpm]
    rfl
  unfold vmGetPhysMapping
  rw [ptabSlot_palignDown, run_bind_of_ok hm', heq]
  exact ⟨_, _, rfl⟩

omit [Tlb τ] in
/-- `irq_install_handler` of a number that is not negative stays in the table. -/
theorem irqInstallHandler_completes {num : BitVec 32} (hnum : 0 ≤ num.toInt)
    (entry : IrqHandlerEntry τ) :
    ∃ handlers, irqInstallHandler num entry s = .ok ((), { s with irqHandlers := handlers }) ∧
      ∀ n, 16 ≤ n → handlers n = s.irqHandlers n := by
  unfold irqInstallHandler onlyIf
  split
  · rename_i hlt
    rw [if_neg (by omega)]
    refine ⟨_, rfl, fun n hn => Function.update_of_ne ?_ _ _⟩
    rintro rfl
    rw [BitVec.toInt_eq_toNat_cond] at hlt hnum
    split at hlt <;> omega
  · exact ⟨s.irqHandlers, rfl, fun _ _ => rfl⟩

omit [Tlb τ] in
/-- A negative number is stored before the table. -/
theorem irqInstallHandler_negative {num : BitVec 32} (hnum : num.toInt < 0)
    (entry : IrqHandlerEntry τ) : irqInstallHandler num entry s = .error .halt := by
  unfold irqInstallHandler onlyIf
  rw [if_pos (by omega), if_pos hnum]
  rfl

/-- **`MSG_REQUEST_INTERRUPT_FORWARDING`** of a number that is not negative, with a handler in a
    region that has a page table. -/
theorem forwardingBranch_serves (hs : Serving d s) (hin : s.kernel.board.inited c = true)
    {which virt : BitVec 32} (code : BitVec 32 → Code Trap (Machine τ) (BitVec 32))
    (hwhich : 0 ≤ which.toInt)
    (hp : Present (pdeOf s.kernel.mach.mem (s.kernel.procs c).pdir virt)) :
    ∃ s', execBranch (forwardingBranch (some c) which virt code) s = .ok ((), s') ∧
      Serving d s' ∧ s'.kernel.procs = s.kernel.procs ∧
      ∀ n, 16 ≤ n → s'.irqHandlers n = s.irqHandlers n := by
  obtain ⟨phys, t, hphys⟩ := vmGetPhysMapping_completes (hs.loaded hin) hp
  -- the system while the sender's directory is loaded
  let lent : System τ :=
    { s with
      kernel := { s.kernel with
        mach := s.kernel.mach.load (s.kernel.procs c).pdir, schedulingEnabled := false }
      saveCurrCr3 := s.kernel.mach.cr3 }
  let back : System τ :=
    { lent with kernel := { lent.kernel with
        mach := { lent.kernel.mach with tlb := t }.load s.kernel.mach.cr3 } }
  have hmap : (Stmt.physMapping virt).exec lent
      = .ok ((), { lent with kernel := { lent.kernel with
          mach := { lent.kernel.mach with tlb := t } } }) := by
    refine onKernel_ok_iff.mpr ⟨{ lent.kernel with
      mach := { lent.kernel.mach with tlb := t } }, ?_, rfl⟩
    rw [run_bind_of_ok (show onMach (vmGetPhysMapping virt) lent.kernel
      = .ok (phys, { lent.kernel with mach := { lent.kernel.mach with tlb := t } }) from
        zoom_ok hphys)]
    rfl
  obtain ⟨handlers, hinst, hout⟩ := irqInstallHandler_completes (s := back) hwhich
    ⟨if virt = 0#32 then none else some (.forwarded code), (s.kernel.procs c).pdir⟩
  refine ⟨s.served back.kernel.mach handlers s.kernel.mach.cr3, ?_, hs.served ?_ _ _, rfl, hout⟩
  swap
  · exact hs.tidy
  unfold forwardingBranch
  simp only [execBranch]
  rw [run_bind_of_ok (show Stmt.exec .disableScheduling s = .ok ((), _) from rfl),
    run_bind_of_ok (show Stmt.exec .saveCr3 _ = .ok ((), _) from rfl),
    run_bind_of_ok (show Stmt.exec (.loadSenderCr3 (some c)) _ = .ok ((), lent) from rfl),
    run_bind_of_ok hmap, run_bind_of_ok (show Stmt.exec .restoreCr3 _ = .ok ((), back) from rfl),
    run_bind_of_ok (show Stmt.exec (.installHandler which _ (some c)) back = _ from
      (run_bind_of_ok rfl).trans hinst),
    run_bind_of_ok (show Stmt.exec .enableScheduling _ = .ok ((), _) from rfl)]
  rfl

omit [Tlb τ] in
/-- A trap of the machine is one of the whole system. -/
theorem onKernel_onMach_error {α : Type} {x : Code Trap (Machine τ) α} {m : Machine τ} {e : Trap}
    (hx : x m = .error e) (hm : s.kernel.mach = m) : onKernel (onMach x) s = .error e := by
  subst hm
  exact zoom_error (zoom_error hx)

/-- `MSG_MAP_MEMORY` is `map_pages` in the address space of the sender: it completes with it, … -/
theorem mapMemoryBranch_completes (hcur : s.kernel.currentProc = some d) {paddr length : BitVec 32}
    {m' : Machine τ} (hm' : mapPages paddr 0x10000000#32 pteU length
      (s.kernel.mach.load (s.kernel.procs c).pdir) = .ok ((), m')) :
    execBranch (mapMemoryBranch (some c) paddr length) s
      = .ok ((), s.served (m'.load (s.kernel.procs d).pdir) s.irqHandlers s.saveCurrCr3) := by
  -- the system while the sender's directory is loaded
  let lent : System τ :=
    { s with kernel := { s.kernel with
        mach := s.kernel.mach.load (s.kernel.procs c).pdir, schedulingEnabled := false } }
  let mapped : System τ := { lent with kernel := { lent.kernel with mach := m' } }
  have hmap : (Stmt.mapPages paddr length).exec lent = .ok ((), mapped) :=
    onKernel_ok_iff.mpr ⟨mapped.kernel, onMach_ok_iff.mpr ⟨m', hm', rfl⟩, rfl⟩
  have hown : Stmt.loadOwnCr3 (τ := τ).exec mapped = .ok ((), { mapped with kernel :=
      { mapped.kernel with mach := m'.load (s.kernel.procs d).pdir } }) := by
    refine onKernel_ok_iff.mpr ⟨_, ?_, rfl⟩
    have hslot : currentSlot mapped.kernel = .ok (d, mapped.kernel) := by
      unfold currentSlot
      rw [run_bind_of_ok (run_get _), show mapped.kernel.currentProc = some d from hcur]
      rfl
    rw [run_bind_of_ok hslot]
    rfl
  unfold mapMemoryBranch
  simp only [execBranch]
  rw [run_bind_of_ok (show Stmt.exec .disableScheduling s = .ok ((), _) from rfl),
    run_bind_of_ok (show Stmt.exec (.loadSenderCr3 (some c)) _ = .ok ((), lent) from rfl),
    run_bind_of_ok hmap, run_bind_of_ok hown,
    run_bind_of_ok (show Stmt.exec .enableScheduling _ = .ok ((), _) from rfl)]
  rfl

/-- … and traps with it. -/
theorem mapMemoryBranch_traps {paddr length : BitVec 32} {e : Trap}
    (he : mapPages paddr 0x10000000#32 pteU length
      (s.kernel.mach.load (s.kernel.procs c).pdir) = .error e) :
    execBranch (mapMemoryBranch (some c) paddr length) s = .error e := by
  unfold mapMemoryBranch
  simp only [execBranch]
  rw [run_bind_of_ok (show Stmt.exec .disableScheduling s = .ok ((), _) from rfl),
    run_bind_of_ok (show Stmt.exec (.loadSenderCr3 (some c)) _ = .ok ((), _) from rfl)]
  exact run_bind_of_error (onKernel_onMach_error he rfl)

/-- **`MSG_MAP_MEMORY`** of a range that fits. -/
theorem mapMemoryBranch_serves (hs : Serving d s) (hin : s.kernel.board.inited c = true)
    {paddr length : BitVec 32}
    (hfit : RangeFits (directories s.kernel) pteU (pagesOf length) (palignDown paddr) 0x10000000#32
      (s.kernel.mach.load (s.kernel.procs c).pdir)) :
    ∃ s', execBranch (mapMemoryBranch (some c) paddr length) s = .ok ((), s') ∧
      Serving d s' ∧ s'.kernel.procs = s.kernel.procs ∧ s'.irqHandlers = s.irqHandlers := by
  have hpages : ∃ m', mapPages paddr 0x10000000#32 pteU length
      (s.kernel.mach.load (s.kernel.procs c).pdir) = .ok ((), m') ∧
        Tidy (directories s.kernel) m'.mem := by
    unfold mapPages
    split
    · exact ⟨_, rfl, hs.tidy⟩
    · obtain ⟨m', hm', hl', -⟩ :=
        mapPagesLoop_serves (hs.loaded hin) (by decide) (palignDown_aligned _) hfit
      exact ⟨m', hm', hl'.tidy⟩
  obtain ⟨m', hm', ht⟩ := hpages
  refine ⟨_, mapMemoryBranch_completes hs.current hm', hs.served ?_ _ _, rfl, rfl⟩
  exact ht

end Branches

/-! ### Iterations -/

/-- A request: who sent it, what it says, and what the ports and the handler's address hold. -/
structure Request (τ : Type) where
  sender : Slot
  msg : MsgKernel
  inb : BitVec 16 → BitVec 8
  code : BitVec 32 → Code Trap (Machine τ) (BitVec 32)

section Iterations

variable {τ : Type} [Tlb τ] {d : Slot} {s s' s₀ : System τ}

/-- The iteration for a request. -/
def Request.serve (r : Request τ) : Code Trap (System τ) Reply := fun s =>
  dispatch r.inb r.code (s.kernel.procs r.sender).pid r.msg s

/-- The condition on a request, in the system before it: an interrupt number is not negative and
    its handler lies in a region with a page table; a range to map fits the tables as they are. -/
structure Request.Acceptable (s : System τ) (r : Request τ) : Prop where
  forwarding : r.msg.type = msgRequestInterruptForwarding → 0 ≤ r.msg.which.toInt ∧
    Present (pdeOf s.kernel.mach.mem (s.kernel.procs r.sender).pdir r.msg.handler)
  mapMemory : r.msg.type = msgMapMemory → RangeFits (directories s.kernel) pteU
    (pagesOf r.msg.length) (palignDown r.msg.paddr) 0x10000000#32
    (s.kernel.mach.load (s.kernel.procs r.sender).pdir)

/-- The iteration ends in a reply to the sender, and the interrupt table is `handlers` outside
    its sixteen slots. -/
def Answers (handlers : Nat → IrqHandlerEntry τ) (s : System τ) (r : Request τ) : Prop :=
  ∃ reply s', r.serve s = .ok (reply, s') ∧ reply.pid = (s.kernel.procs r.sender).pid ∧
    ∀ n, 16 ≤ n → s'.irqHandlers n = handlers n

/-- **Step lemma.**  The iteration for an acceptable request of a process. -/
theorem Serving.answers (hs : Serving d s) {r : Request τ}
    (hin : s.kernel.board.inited r.sender = true) (hr : r.Acceptable s) :
    ∃ reply s', r.serve s = .ok (reply, s') ∧ reply.pid = (s.kernel.procs r.sender).pid ∧
      Serving d s' ∧ ∀ n, 16 ≤ n → s'.irqHandlers n = s.irqHandlers n := by
  have hfind : s.kernel.procFindByPid (s.kernel.procs r.sender).pid = some r.sender :=
    hs.named.find_pid hin
  unfold Request.serve dispatch
  rw [run_bind_of_ok (run_get s)]
  simp only [hfind]
  by_cases h₀ : r.msg.type = msgRequestInterruptForwarding
  · obtain ⟨hwhich, hp⟩ := hr.forwarding h₀
    obtain ⟨s₁, h₁, hs₁, hprocs, hout⟩ := forwardingBranch_serves hs hin r.code hwhich hp
    rw [if_pos h₀, run_bind_of_ok h₁]
    refine ⟨_, s₁, rfl, ?_, hs₁, hout⟩
    show (s₁.kernel.procs r.sender).pid = _
    rw [hprocs]
  · rw [if_neg h₀]
    by_cases h₁ : r.msg.type = msgMapMemory
    · obtain ⟨s₁, hrun, hs₁, hprocs, hout⟩ := mapMemoryBranch_serves hs hin (hr.mapMemory h₁)
      rw [if_pos h₁, run_bind_of_ok hrun]
      refine ⟨_, s₁, rfl, ?_, hs₁, fun n _ => by rw [hout]⟩
      show (s₁.kernel.procs r.sender).pid = _
      rw [hprocs]
    · -- the other types leave the system as it is
      rw [if_neg h₁]
      split
      · exact ⟨_, s, rfl, rfl, hs, fun _ _ => rfl⟩
      · split
        · exact ⟨_, s, rfl, rfl, hs, fun _ _ => rfl⟩
        · split
          · obtain ⟨found, hname⟩ :=
              Option.isSome_iff_exists.mp (procFindByName_isSome s.kernel r.msg.data)
            simp only [run_bind_of_ok (run_get s), hname]
            exact ⟨_, s, rfl, rfl, hs, fun _ _ => rfl⟩
          · exact ⟨_, s, rfl, rfl, hs, fun _ _ => rfl⟩

/-! ### Runs -/

/-- The dispatcher serves a request, or anything else happens while it waits for one. -/
inductive RequestEvent (τ : Type) where
  | request (r : Request τ)
  | meanwhile

/-- A step: a process makes a request that is `ok`, and its iteration ends; or the rest of the
    system goes on, which keeps the process table and the page tables in order and leaves the
    interrupt table to the dispatcher. -/
def RequestStep (ok : System τ → Request τ → Prop) (d : Slot) (s : System τ) :
    RequestEvent τ → System τ → Prop
  | .request r, s' =>
    s.kernel.board.inited r.sender = true ∧ ok s r ∧ ∃ reply, r.serve s = .ok (reply, s')
  | .meanwhile, s' => Serving d s' ∧ s'.irqHandlers = s.irqHandlers

/-- **Run lemma.** -/
theorem run_serving {tr : List (RequestEvent τ)} (hs : Serving d s₀)
    (hrun : Run (RequestStep (fun s r => r.Acceptable s) d) s₀ tr s) :
    Serving d s ∧ ∀ n, 16 ≤ n → s.irqHandlers n = s₀.irqHandlers n := by
  refine hrun.invariant (J := fun _ s => Serving d s ∧
    ∀ n, 16 ≤ n → s.irqHandlers n = s₀.irqHandlers n) ⟨hs, fun _ _ => rfl⟩ ?_
  intro _ a e b ⟨ha, hout⟩ hstep
  cases e with
  | request r =>
    obtain ⟨hin, hr, reply, hserve⟩ := hstep
    obtain ⟨reply', b', hserve', -, hb, hout'⟩ := ha.answers hin hr
    obtain rfl : b' = b := (Prod.mk.inj (Except.ok.inj (hserve'.symm.trans hserve))).2
    exact ⟨hb, fun n hn => (hout' n hn).trans (hout n hn)⟩
  | meanwhile => exact ⟨hstep.1, fun n hn => by rw [hstep.2]; exact hout n hn⟩

/-- **The kernel process is robust** against acceptable requests: after any number of them, from
    any processes, the iteration for the next one ends in a reply to its sender, and
    `irq_install_handler` has never written outside the sixteen slots. -/
theorem kernel_process_robust {tr : List (RequestEvent τ)} {r : Request τ} (hs : Serving d s₀)
    (hrun : Run (RequestStep (fun s r => r.Acceptable s) d) s₀ tr s)
    (hin : s.kernel.board.inited r.sender = true) (hr : r.Acceptable s) :
    Answers s₀.irqHandlers s r := by
  obtain ⟨hs', hout⟩ := run_serving hs hrun
  obtain ⟨reply, s', hserve, hpid, -, hout'⟩ := hs'.answers hin hr
  exact ⟨reply, s', hserve, hpid, fun n hn => (hout' n hn).trans (hout n hn)⟩

/-! ### Requests that are not answered -/

/-- `map_page` of a page that is mapped to another frame halts. -/
theorem mapPage_halts {dirs : Set (BitVec 32)} {m : Machine τ} {p v flags f : BitVec 32}
    (hl : Loaded dirs m) (hw : walk m.mem m.cr3 v = some f) (hne : f ≠ palignDown p) :
    mapPage p v flags m = .error .halt := by
  obtain ⟨hp, hp', hf⟩ := walk_eq_some_iff.mp hw
  obtain ⟨t, -, -, hrun⟩ := @mapPage_present _ _ m.windowed hl.windows
    (hl.tidy.recursive _ hl.cr3) p v flags hp hp'
  refine (mapPage_erases p v flags).error (hrun.trans (if_neg fun hsame => hne ?_))
  have hframe : palignDown (pteOf m.mem m.cr3 v) = palignDown (palignDown p) := hsame.1
  rw [← hf, hframe, palignDown_palignDown]

/-- **A second mapping halts the kernel.**  Once `0x10000000` is mapped in the sender's address
    space, any `MSG_MAP_MEMORY` for another frame reaches `halt()` in `map_page`. -/
theorem second_mapping_halts {r : Request τ} {f : BitVec 32} (hs : Serving d s)
    (hin : s.kernel.board.inited r.sender = true) (htype : r.msg.type = msgMapMemory)
    (hlen : r.msg.length ≠ 0#32)
    (hw : walk s.kernel.mach.mem (s.kernel.procs r.sender).pdir 0x10000000#32 = some f)
    (hne : f ≠ palignDown r.msg.paddr) : r.serve s = .error .halt := by
  have hfind : s.kernel.procFindByPid (s.kernel.procs r.sender).pid = some r.sender :=
    hs.named.find_pid hin
  have hpages : mapPages r.msg.paddr 0x10000000#32 pteU r.msg.length
      (s.kernel.mach.load (s.kernel.procs r.sender).pdir) = .error .halt := by
    obtain ⟨n, hn⟩ : ∃ n, pagesOf r.msg.length = n + 1 := by
      have hne : r.msg.length.toNat ≠ 0 := fun h => hlen (BitVec.eq_of_toNat_eq h)
      have hpos : 0 < pagesOf r.msg.length := pagesOf_pos (by omega)
      exact ⟨pagesOf r.msg.length - 1, by omega⟩
    unfold mapPages
    rw [if_neg hlen, hn]
    refine run_bind_of_error (mapPage_halts (hs.loaded hin) (f := f) ?_ ?_)
    · exact hw
    · rw [palignDown_palignDown]
      exact hne
  unfold Request.serve dispatch
  rw [run_bind_of_ok (run_get s)]
  simp only [hfind]
  rw [if_neg (by rw [htype]; decide), if_pos htype]
  exact run_bind_of_error (mapMemoryBranch_traps hpages)

/-- **`MSG_MAP_MEMORY`** below the windows, with frames for its tables that are no directories, is
    answered exactly when the entries of the range fit. -/
theorem mapMemory_answers_iff {r : Request τ} (hs : Serving d s)
    (hin : s.kernel.board.inited r.sender = true) (htype : r.msg.type = msgMapMemory)
    (hend : (0x10000000#32).toNat + 4096 * pagesOf r.msg.length ≤ 0xffc00000)
    (ha : TablesApart (directories s.kernel) (s.kernel.mach.load (s.kernel.procs r.sender).pdir)
      0x10000000#32 (pagesOf r.msg.length)) :
    Answers s.irqHandlers s r ↔ ∀ k < pagesOf r.msg.length,
      EntryFits (s.kernel.mach.load (s.kernel.procs r.sender).pdir) pteU
        (palignDown r.msg.paddr) 0x10000000#32 k := by
  have hfind : s.kernel.procFindByPid (s.kernel.procs r.sender).pid = some r.sender :=
    hs.named.find_pid hin
  constructor
  · rintro ⟨reply, s', hserve, -⟩
    refine (mapPagesLoop_completes_iff (hs.loaded hin) (by decide) (palignDown_aligned _) hend
      ha).mp ?_
    -- what `map_pages` traps with, the iteration traps with
    cases hpages : mapPages r.msg.paddr 0x10000000#32 pteU r.msg.length
        (s.kernel.mach.load (s.kernel.procs r.sender).pdir) with
    | error e =>
      unfold Request.serve dispatch at hserve
      rw [run_bind_of_ok (run_get s)] at hserve
      simp only [hfind] at hserve
      rw [if_neg (by rw [htype]; decide), if_pos htype,
        run_bind_of_error (mapMemoryBranch_traps hpages)] at hserve
      exact absurd hserve (by simp)
    | ok x =>
      unfold mapPages at hpages
      split at hpages
      · rename_i hzero
        rw [hzero]
        exact ⟨_, rfl⟩
      · exact ⟨x.2, hpages⟩
  · intro hfits
    have hr : r.Acceptable s :=
      ⟨fun h => absurd (htype.symm.trans h) (by decide), fun _ => ⟨hend, ha, hfits⟩⟩
    obtain ⟨reply, s', hserve, hpid, -, hout⟩ := hs.answers hin hr
    exact ⟨reply, s', hserve, hpid, hout⟩

/-- **Interrupt forwarding** is answered exactly when the number is not negative and the handler
    lies in a region with a page table. -/
theorem forwarding_answers_iff {r : Request τ} (hs : Serving d s)
    (hin : s.kernel.board.inited r.sender = true)
    (htype : r.msg.type = msgRequestInterruptForwarding) :
    Answers s.irqHandlers s r ↔ 0 ≤ r.msg.which.toInt ∧
      Present (pdeOf s.kernel.mach.mem (s.kernel.procs r.sender).pdir r.msg.handler) := by
  constructor
  · rintro ⟨reply, s', hserve, -⟩
    have hfind : s.kernel.procFindByPid (s.kernel.procs r.sender).pid = some r.sender :=
      hs.named.find_pid hin
    unfold Request.serve dispatch at hserve
    rw [run_bind_of_ok (run_get s)] at hserve
    simp only [hfind] at hserve
    rw [if_pos htype] at hserve
    obtain ⟨⟨⟩, s₁, hbranch, -⟩ := bind_ok_iff.mp hserve
    unfold forwardingBranch at hbranch
    simp only [execBranch] at hbranch
    rw [run_bind_of_ok (show Stmt.exec .disableScheduling s = .ok ((), _) from rfl),
      run_bind_of_ok (show Stmt.exec .saveCr3 _ = .ok ((), _) from rfl),
      run_bind_of_ok (show Stmt.exec (.loadSenderCr3 (some r.sender)) _ = .ok ((), _) from rfl)]
      at hbranch
    obtain ⟨⟨⟩, s₂, hmap, hbranch⟩ := bind_ok_iff.mp hbranch
    obtain ⟨⟨⟩, s₃, -, hbranch⟩ := bind_ok_iff.mp hbranch
    obtain ⟨⟨⟩, s₄, hinst, -⟩ := bind_ok_iff.mp hbranch
    have hl := hs.loaded hin
    constructor
    · by_contra hneg
      obtain ⟨pdir, s₅, -, hinst⟩ := bind_ok_iff.mp hinst
      rw [irqInstallHandler_negative (by omega)] at hinst
      exact absurd hinst (by simp)
    · -- without a page table the look-up faults
      by_contra hp
      have hfault : vmGetPhysMapping r.msg.handler (s.kernel.mach.load
          (s.kernel.procs r.sender).pdir) = .error (.pageFault (ptabSlot r.msg.handler)) := by
        unfold vmGetPhysMapping
        rw [ptabSlot_palignDown]
        refine run_bind_of_error ((load_ptabSlot_erases r.msg.handler).error ?_)
        exact load32_fault hl.windows
          (walk_ptabSlot_absent (hl.tidy.recursive _ hl.cr3) hp)
      obtain ⟨k', hk, -⟩ := onKernel_ok_iff.mp hmap
      obtain ⟨phys, k₁, hk₁, -⟩ := bind_ok_iff.mp hk
      obtain ⟨m, hm, -⟩ := onMach_ok_iff.mp hk₁
      exact absurd (hfault.symm.trans hm) (by simp)
  · rintro ⟨hwhich, hp⟩
    have hr : r.Acceptable s :=
      ⟨fun _ => ⟨hwhich, hp⟩, fun h => absurd (htype.symm.trans h) (by decide)⟩
    obtain ⟨reply, s', hserve, hpid, -, hout⟩ := hs.answers hin hr
    exact ⟨reply, s', hserve, hpid, hout⟩

end Iterations

/-- The dispatcher in slot 0 of the small system, in a blank address space. -/
def blankSystem : System Unit where
  kernel := { demoKernel with
    mach := lawMachine (blankSpace 0x1000#32), currentProc := some (procAt 0) }
  irqHandlers := timerOnly
  branch := []
  saveCurrCr3 := 0#32

theorem directories_blankSystem {D : BitVec 32} (hD : D ∈ directories blankSystem.kernel) :
    D = 0x1000#32 := by
  obtain ⟨c, -, rfl⟩ := hD
  rfl

theorem serving_blankSystem : Serving (procAt 0) blankSystem := by
  have hd : (0x1000#32).toNat % 4096 = 0 := by decide
  refine ⟨rfl, ⟨by decide, by decide, ?_⟩, ⟨fun D hD => ?_, fun D hD w hw hp => ?_⟩⟩
  · rintro c (hc | hc)
    · obtain rfl := Option.some.inj hc
      decide
    · obtain rfl := Option.some.inj hc
      decide
  · rw [directories_blankSystem hD]
    exact (wellFormed_blankSpace hd).recursive
  · rw [directories_blankSystem hD] at hp
    exact absurd hp (blankSpace_absent hd (palignDown_aligned _) (vmPdirIdx_lt w) fun _ => hw)

/-- A request of process 2 with a type and the two words of the union. -/
def requestOf (type word₀ word₁ : BitVec 32) : Request Unit where
  sender := procAt 2
  msg := ⟨type, fun i =>
    if i < 4 then word₀.extractLsb' (8 * i) 8
    else if i < 8 then word₁.extractLsb' (8 * (i - 4)) 8 else 0#8⟩
  inb := fun _ => 0#8
  code := fun regs => pure regs

/-- A request to map the page at `paddr`. -/
def mapRequest (paddr : BitVec 32) : Request Unit := requestOf msgMapMemory paddr 0x1000#32

/-- A request to forward an interrupt. -/
def handlerRequest (which handler : BitVec 32) : Request Unit :=
  requestOf msgRequestInterruptForwarding which handler

/-- The video memory can be mapped where its page's table is apart and its entry fits. -/
theorem acceptable_video {s : System Unit}
    (ha : TablesApart (directories s.kernel)
      (s.kernel.mach.load (s.kernel.procs (procAt 2)).pdir) 0x10000000#32 1)
    (hfits : EntryFits (s.kernel.mach.load (s.kernel.procs (procAt 2)).pdir) pteU 0xb8000#32
      0x10000000#32 0) : (mapRequest 0xb8000#32).Acceptable s := by
  refine ⟨fun h => absurd h (by decide), fun _ => ?_⟩
  have hone : pagesOf (mapRequest 0xb8000#32).msg.length = 1 := by decide
  have hframe : palignDown (mapRequest 0xb8000#32).msg.paddr = 0xb8000#32 := by decide
  rw [hone, hframe]
  refine ⟨by decide, ha, fun k hk => ?_⟩
  obtain rfl : k = 0 := by omega
  exact hfits

/-- Process 2 can ask for the video memory, and its page has a table. -/
def videoFits (s : System Unit) : Bool :=
  s.kernel.board.inited (procAt 2) &&
    decide (Present (pdeOf s.kernel.mach.mem (s.kernel.procs (procAt 2)).pdir 0x10000000#32)) &&
    decide (EntryFits (s.kernel.mach.load (s.kernel.procs (procAt 2)).pdir) pteU 0xb8000#32
      0x10000000#32 0)

theorem videoFits_iff {s : System Unit} : videoFits s = true ↔
    s.kernel.board.inited (procAt 2) = true ∧
    Present (pdeOf s.kernel.mach.mem (s.kernel.procs (procAt 2)).pdir 0x10000000#32) ∧
    EntryFits (s.kernel.mach.load (s.kernel.procs (procAt 2)).pdir) pteU 0xb8000#32
      0x10000000#32 0 := by
  simp only [videoFits, Bool.and_eq_true, decide_eq_true_eq, and_assoc]

/-- The video memory is mapped into an address space that maps nothing, and again; a handler in
    the mapped page can then be installed. -/
theorem kernel_process_robust_video : ∃ s,
    Run (RequestStep (fun s r => r.Acceptable s) (procAt 0)) blankSystem
      [.request (mapRequest 0xb8000#32), .request (mapRequest 0xb8000#32)] s ∧
    Answers timerOnly s (handlerRequest 1#32 0x10000000#32) := by
  have htest : ((mapRequest 0xb8000#32).serve blankSystem).toOption.map (fun x => videoFits x.2 &&
      (((mapRequest 0xb8000#32).serve x.2).toOption.map fun y => videoFits y.2) == some true)
        = some true := by
    decide +kernel
  obtain ⟨reply₁, s₁, h₁, htest⟩ := ok_of_test htest
  rw [Bool.and_eq_true, beq_iff_eq, videoFits_iff] at htest
  obtain ⟨⟨hin₁, hp₁, hfits₁⟩, htest⟩ := htest
  obtain ⟨reply₂, s₂, h₂, htest₂⟩ := ok_of_test htest
  obtain ⟨hin₂, hp₂, -⟩ := videoFits_iff.mp htest₂
  -- at first the page has no table; `pm_alloc` has a frame that is not the directory
  have hfirst : (mapRequest 0xb8000#32).Acceptable blankSystem := by
    refine acceptable_video (fun k hk _ E hE => ?_) (by decide +kernel)
    obtain rfl : k = 0 := by omega
    rw [directories_blankSystem hE]
    decide +kernel
  have hagain : (mapRequest 0xb8000#32).Acceptable s₁ := by
    refine acceptable_video (fun k hk hno => ?_) hfits₁
    obtain rfl : k = 0 := by omega
    exact absurd hp₁ hno
  have hrun₁ : Run (RequestStep (fun s r => r.Acceptable s) (procAt 0)) blankSystem
      ([] ++ [.request (mapRequest 0xb8000#32)]) s₁ :=
    Run.start.next ⟨by decide, hfirst, reply₁, h₁⟩
  have hstep₂ : RequestStep (fun s r => r.Acceptable s) (procAt 0) s₁
      (.request (mapRequest 0xb8000#32)) s₂ := ⟨hin₁, hagain, reply₂, h₂⟩
  have hrun := hrun₁.next hstep₂
  refine ⟨s₂, hrun, kernel_process_robust serving_blankSystem hrun hin₂ ⟨fun _ => ?_, fun h => ?_⟩⟩
  · exact ⟨by decide, hp₂⟩
  · exact absurd h (by decide)

/-- The video memory, then another frame. -/
theorem second_mapping_unanswered :
    ¬ ∀ (d : Slot) (s₀ s : System Unit) (tr : List (RequestEvent Unit)) (r : Request Unit),
      Serving d s₀ → Run (RequestStep (fun _ _ => True) d) s₀ tr s →
        s.kernel.board.inited r.sender = true → Answers s₀.irqHandlers s r := by
  intro h
  have htest : ((mapRequest 0xb8000#32).serve blankSystem).toOption.map (fun x =>
      ((mapRequest 0xa0000#32).serve x.2).toOption.isNone &&
        x.2.kernel.board.inited (procAt 2)) = some true := by
    decide +kernel
  obtain ⟨reply, s, hfirst, hsecond⟩ := ok_of_test htest
  rw [Bool.and_eq_true] at hsecond
  have hrun : Run (RequestStep (fun _ _ => True) (procAt 0)) blankSystem
      ([] ++ [.request (mapRequest 0xb8000#32)]) s :=
    Run.start.next ⟨by decide, trivial, reply, hfirst⟩
  obtain ⟨reply', s', hserve, -⟩ :=
    h (procAt 0) blankSystem s _ (mapRequest 0xa0000#32) serving_blankSystem hrun hsecond.2
  rw [hserve] at hsecond
  exact absurd hsecond.1 (by simp [Except.toOption])

end Leoman
