import Leoman.Heap
import Leoman.Lib.CyclicScan
import Leoman.Vm
import Mathlib.Data.Fintype.Basic

namespace Leoman

open ByteMem StateExcept

/-!
# Processes and the scheduler (`kernel/proc.c`, `include/ipc.h`)

The process table, the receive queues and the functions that create processes and switch
between them, as code over the kernel's state.

* `Kernel` — the machine, the heap and the static variables of the kernel;
* `findNextProc`, `procScheduleAfterIrq` — the scheduler;
* `procNew`, `procEarlyinit`, `procKickoffFirstProcess` — from boot to the first process.

Packets carry an `origin` and the kernel a history `hist`.  No function of the source has them
and none of the code below reads them: they name the sends the statements talk about.
-/

/-- `NPROCS`. -/
abbrev nprocs : Nat := 64

/-- A slot of `procs[]`; the pointers to processes are slots. -/
abbrev Slot := Fin nprocs

/-- `enum proc_state`. -/
inductive ProcState where
  | unused
  | running
  | ready
  | sendBlocked
  | recvBlocked
  | replyBlocked
deriving DecidableEq, Repr

/-- The value of `PROC_READY`. -/
def procReady : BitVec 32 := 2#32

/-! ### Messages -/

/-- `struct msg_packet`, in the order of its nine words. -/
structure MsgPacket where
  sender : BitVec 32
  receiver : BitVec 32
  sendBuf : BitVec 32
  recvBuf : BitVec 32
  sendLen : BitVec 32
  recvLen : BitVec 32
  physSendBuf : BitVec 32
  physRecvBuf : BitVec 32
  physMsgPacket : BitVec 32
deriving DecidableEq, Repr

/-- A send: its place in the history and the process that made it. -/
structure Origin where
  serial : Nat
  src : Slot
deriving DecidableEq, Repr

/-- `struct msg_packet_queue`: a packet in the heap block `addr`.  `origin` is the send that
    filled it, `none` for the placeholder of a `recv` nobody has sent to yet. -/
structure MsgPacketQueue where
  addr : BitVec 32
  msg : MsgPacket
  origin : Option Origin
deriving DecidableEq, Repr

/-- `recv_queue`.  Until `STAILQ_INIT` the tail pointer of the head is `NULL`: what is inserted
    then is not linked from the head, and `msgs` does not see it. -/
structure RecvQueue where
  inited : Bool
  msgs : List MsgPacketQueue
  stray : List MsgPacketQueue

/-- What IPC did, in order. -/
inductive IpcEvent where
  | sent (o : Origin) (dst : Slot)
  | delivered (o : Option Origin) (dst : Slot) (reported : BitVec 32)
  | replied (o : Option Origin) (dst : Slot) (woken : Option Slot)
deriving DecidableEq, Repr

/-! ### The kernel -/

/-- `struct proc`, less the fields no function here reads. -/
structure Proc where
  pid : BitVec 32
  state : ProcState
  name : Vector (BitVec 8) 32
  privileged : Bool
  trapframe : BitVec 32
  kstack : BitVec 32
  pdir : BitVec 32
  recvQueue : RecvQueue

/-- The state of the kernel: the machine, the heap, the statics of `proc.c` (`cursor` is the
    `i` of `find_next_proc`), `tss.esp0`, and the history. -/
structure Kernel (τ : Type) where
  mach : Machine τ
  heap : Heap
  procs : Slot → Proc
  nextPid : BitVec 32
  idle : Option Slot
  currentProc : Option Slot
  schedulingEnabled : Bool
  cursor : Nat
  tssEsp0 : BitVec 32
  hist : List IpcEvent

section Code

variable {τ : Type} [Tlb τ]

/-- Update one process. -/
def Kernel.updProc (k : Kernel τ) (s : Slot) (f : Proc → Proc) : Kernel τ :=
  { k with procs := Function.update k.procs s (f (k.procs s)) }

/-- Run code on the machine. -/
def onMach {α : Type} (x : Code Trap (Machine τ) α) : Code Trap (Kernel τ) α :=
  zoom Kernel.mach (fun k m => { k with mach := m }) x

/-- Update one process, as code. -/
def setProc (s : Slot) (f : Proc → Proc) : Code Trap (Kernel τ) Unit :=
  modify fun k => k.updProc s f

/-- Call `kalloc`.  A scan that does not end is a kernel that hangs. -/
def kallocBlock (bytes : BitVec 32) : Code Trap (Kernel τ) (BitVec 32) := fun k =>
  match kalloc k.heap bytes with
  | none => .error .halt
  | some (p, heap) => .ok (p, { k with heap := heap })

/-- Call `kfree`. -/
def kfreeBlock (addr : BitVec 32) : Code Trap (Kernel τ) Unit :=
  modify fun k => { k with heap := kfree k.heap addr }

/-- Record an event. -/
def note (e : IpcEvent) : Code Trap (Kernel τ) Unit :=
  modify fun k => { k with hist := k.hist ++ [e] }

/-! ### Looking for processes -/

/-- The loop of `find_next_proc` with `n` rounds left, at slot `i`: the slot found and the
    cursor it leaves. -/
def findNextLoop (procs : Slot → Proc) (idle : Option Slot) (state : ProcState) :
    Nat → Nat → Option Slot × Nat
  | 0, i => (none, i)
  | n + 1, i =>
    let s : Slot := Fin.ofNat nprocs i
    if idle = some s then findNextLoop procs idle state n ((i + 1) % nprocs)
    else if (procs s).state = state then (some s, i + 1)
    else findNextLoop procs idle state n ((i + 1) % nprocs)

/-- `&procs[i]`. -/
def procAt (i : Nat) : Slot := Fin.ofNat nprocs i

/-- `find_next_proc`. -/
def findNextProc (state : ProcState) : Code Trap (Kernel τ) (Option Slot) := fun k =>
  let r := findNextLoop k.procs k.idle state nprocs (k.cursor % nprocs)
  .ok (r.1, { k with cursor := r.2 })

/-- `proc_find_by_pid`. -/
def Kernel.procFindByPid (k : Kernel τ) (pid : BitVec 32) : Option Slot :=
  (List.finRange nprocs).find? fun s => (k.procs s).pid = pid

/-- The states `proc_is_blocked` tests for. -/
def ProcState.blocked (s : ProcState) : Bool :=
  s = .sendBlocked || s = .recvBlocked || s = .replyBlocked

/-- `proc_is_blocked`.  Its only caller passes the pid of a process, so there is one. -/
def procIsBlocked (pid : BitVec 32) : Code Trap (Kernel τ) Bool := do
  let k ← get
  match k.procFindByPid pid with
  | none => trap .nullPointer
  | some s => return (k.procs s).state.blocked

/-! ### Scheduling -/

/-- `proc_disable_scheduling`. -/
def procDisableScheduling : Code Trap (Kernel τ) Unit :=
  modify fun k => { k with schedulingEnabled := false }

/-- `proc_enable_scheduling`. -/
def procEnableScheduling : Code Trap (Kernel τ) Unit :=
  modify fun k => { k with schedulingEnabled := true }

/-- Make `next` the running process: the tail of `proc_schedule_after_irq`. -/
def switchTo (next : Option Slot) : Code Trap (Kernel τ) (BitVec 32) := do
  modify fun k => { k with currentProc := next }
  match next with
  | none => trap .nullPointer
  | some n => do
    let p := (← get).procs n
    modify fun k => { k with tssEsp0 := p.kstack }
    onMach (setCr3 p.pdir)
    return p.trapframe

/-- `proc_schedule_after_irq` with scheduling enabled and a running process `c`. -/
def reschedule (c : Slot) (cpuState : BitVec 32) : Code Trap (Kernel τ) (BitVec 32) := do
  setProc c fun p => { p with trapframe := cpuState }
  let k ← get
  let blocked ← procIsBlocked (k.procs c).pid
  onlyIf (blocked = false) (setProc c fun p => { p with state := .ready })
  let next ← findNextProc .ready
  let next := next.or k.idle
  if next = some c then return cpuState else switchTo next

/-- `proc_schedule_after_irq`: from the frame of the interrupted process to the frame to
    return to. -/
def procScheduleAfterIrq (cpuState : BitVec 32) : Code Trap (Kernel τ) (BitVec 32) := do
  let k ← get
  if k.schedulingEnabled = false then return cpuState
  else
    match k.currentProc with
    | none => return cpuState
    | some c => reschedule c cpuState

/-- `proc_schedule_without_irq`: the interrupt it raises pushes a frame at `frame`, and its
    handler is `proc_schedule_after_irq`. -/
def procScheduleWithoutIrq (frame : BitVec 32) : Code Trap (Kernel τ) Unit := do
  let _ ← procScheduleAfterIrq frame
  return ()

/-! ### Creating processes -/

/-- `*--stack = w` for each word. -/
def pushWords : List (BitVec 32) → BitVec 32 → Code Trap (Machine τ) (BitVec 32)
  | [], stack => pure stack
  | w :: ws, stack => do
    store32 (stack - 4#32) w
    pushWords ws (stack - 4#32)

/-- `SEG_KCODE`. -/
def segKcode : BitVec 32 := 0x8#32

/-- `SEG_KDATA`. -/
def segKdata : BitVec 32 := 0x10#32

/-- The frame `proc_new` builds, from `ss` down to `gs`; `procLoad` is the address of
    `proc_load`. -/
def initialFrame (procLoad kstack : BitVec 32) : List (BitVec 32) :=
  [segKdata, kstack, 0x200#32, segKcode, procLoad, 0xdeadbeef#32, 0xfeedbabe#32,
    0#32, 0#32, 0#32, 0#32, 0#32, 0#32, 0#32, 0#32, segKdata, segKdata, segKdata, segKdata]

/-- `proc_new`.  Without a free slot the first store through `proc` is through `NULL`. -/
def procNew (procLoad : BitVec 32) (name : Vector (BitVec 8) 32) (privileged : Bool) :
    Code Trap (Kernel τ) Slot := do
  let proc ← findNextProc .unused
  let stack ← onMach pmAllocPage
  onMach (mapPage stack stack pteW)
  match proc with
  | none => trap .nullPointer
  | some s => do
    let pid := (← get).nextPid
    modify fun k => { k with nextPid := k.nextPid + 1#32 }
    setProc s fun p => { p with pid := pid, state := .ready }
    let pdir ← onMach vmCopyKernelPdir
    let kstack := stack + pageSize
    setProc s fun p => { p with pdir := pdir, privileged := privileged, kstack := kstack,
                                recvQueue := ⟨true, [], []⟩, name := name }
    let trapframe ← onMach (pushWords (initialFrame procLoad kstack) kstack)
    setProc s fun p => { p with trapframe := trapframe }
    modify fun k => { k with currentProc := some s }
    return s

/-- `proc_earlyinit`, less the interrupt gate it installs. -/
def procEarlyinit (procLoad : BitVec 32) (kernelName idleName : Vector (BitVec 8) 32) :
    Code Trap (Kernel τ) Unit := do
  modify fun k => { k with
    procs := fun s => { k.procs s with pid := 0xffffffff#32, state := .unused } }
  let kernel ← procNew procLoad kernelName true
  modify fun k => { k with currentProc := some kernel }
  let idle ← procNew procLoad idleName true
  modify fun k => { k with idle := some idle, currentProc := some idle }

/-- `proc_kickoff_first_process`, up to `proc_load`. -/
def procKickoffFirstProcess : Code Trap (Kernel τ) Unit := do
  match (← get).currentProc with
  | none => trap .nullPointer
  | some c => do
    setProc c fun p => { p with state := .running }
    let p := (← get).procs c
    modify fun k => { k with tssEsp0 := p.kstack }
    onMach (setCr3 p.pdir)
    procEnableScheduling

/-- The process part of `kmain`: the two processes of the kernel, those of the initrd, and
    the kickoff. -/
def bootProcs (procLoad : BitVec 32) (kernelName idleName : Vector (BitVec 8) 32)
    (names : List (Vector (BitVec 8) 32)) : Code Trap (Kernel τ) Unit := do
  procEarlyinit procLoad kernelName idleName
  names.forM fun name => do
    let _ ← procNew procLoad name false
  procKickoffFirstProcess

/-- The kernel before `proc_earlyinit`: all its statics are zero. -/
def Kernel.initial (mach : Machine τ) (heap : Heap) : Kernel τ :=
  { mach := mach
    heap := heap
    procs := fun _ =>
      { pid := 0#32, state := .unused, name := Vector.replicate 32 0#8, privileged := false
        trapframe := 0#32, kstack := 0#32, pdir := 0#32, recvQueue := ⟨false, [], []⟩ }
    nextPid := 0#32
    idle := none
    currentProc := none
    schedulingEnabled := false
    cursor := 0
    tssEsp0 := 0#32
    hist := [] }

end Code

/-! ### What `find_next_proc` finds -/

/-- The slot is in the state asked for and is not idle. -/
def Takeable (procs : Slot → Proc) (idle : Option Slot) (state : ProcState) (s : Slot) : Prop :=
  idle ≠ some s ∧ (procs s).state = state

instance (procs : Slot → Proc) (idle : Option Slot) (state : ProcState) :
    DecidablePred (Takeable procs idle state) :=
  fun _ => inferInstanceAs (Decidable (_ ∧ _))

section FindNext

variable {procs : Slot → Proc} {idle : Option Slot} {state : ProcState} {n i j : Nat} {s : Slot}

/-- The loop is a scan of a table in cyclic order. -/
theorem findNextLoop_scan : findNextLoop procs idle state n i
    = CyclicScan.scan (Takeable procs idle state) n i := by
  induction n generalizing i with
  | zero => rfl
  | succ n ih =>
    unfold findNextLoop CyclicScan.scan
    simp only [ih]
    by_cases hidle : idle = some (Fin.ofNat nprocs i)
    · rw [if_pos hidle, if_neg fun h => h.1 hidle]
    · rw [if_neg hidle]
      by_cases hstate : (procs (Fin.ofNat nprocs i)).state = state
      · rw [if_pos hstate, if_pos ⟨hidle, hstate⟩]
      · rw [if_neg hstate, if_neg fun h => hstate h.2]

/-- The slot found is not idle and is in the state asked for. -/
theorem findNextLoop_some (h : findNextLoop procs idle state n i = (some s, j)) :
    idle ≠ some s ∧ (procs s).state = state := by
  rw [findNextLoop_scan] at h
  exact CyclicScan.scan_some h

/-- Without a find every slot is idle or in another state. -/
theorem findNextLoop_none_all (h : findNextLoop procs idle state nprocs (i % nprocs) = (none, j))
    (s : Slot) (hs : idle ≠ some s) : (procs s).state ≠ state := by
  rw [findNextLoop_scan, CyclicScan.scan_eq_none_iff (Nat.mod_lt i (by decide))] at h
  exact fun hstate => h.1 s ⟨hs, hstate⟩

end FindNext

end Leoman
