import Leoman.Proc

namespace Leoman

open ByteMem StateExcept

/-!
# The IPC system calls (`kernel/syscall.c`)

`syscall_send_msg`, `syscall_recv_msg` and `syscall_rply_msg`.  `msg` is the address of the
caller's `struct msg_packet` (`regs->eax`), read through the MMU at the points the source reads
it; `frame` is the frame the `int $0x7f` at the end of the call pushes.  Interrupts are off
from the gate to that point, so a call is one step.

A system call is made by a process: `currentSlot` traps where there is none.

* `sendTo_ok`, `receive_ok`, `reply_ok` — what the bodies of the three calls did when they
  complete, and before them the same for the functions they call.
-/

section Code

variable {τ : Type} [Tlb τ]

/-- `current_proc`, dereferenced. -/
def currentSlot : Code Trap (Kernel τ) Slot := do
  match (← get).currentProc with
  | none => trap .nullPointer
  | some c => return c

/-! ### Packets in user memory -/

/-- `memcpy(&packet, msg, sizeof(struct msg_packet))`, word by word. -/
def loadPacket (msg : BitVec 32) : Code Trap (Machine τ) MsgPacket := do
  let sender ← load32 msg
  let receiver ← load32 (msg + 4#32)
  let sendBuf ← load32 (msg + 8#32)
  let recvBuf ← load32 (msg + 12#32)
  let sendLen ← load32 (msg + 16#32)
  let recvLen ← load32 (msg + 20#32)
  let physSendBuf ← load32 (msg + 24#32)
  let physRecvBuf ← load32 (msg + 28#32)
  let physMsgPacket ← load32 (msg + 32#32)
  return { sender, receiver, sendBuf, recvBuf, sendLen, recvLen, physSendBuf, physRecvBuf
           physMsgPacket }

/-- `&msg->receiver`. -/
def receiverField (msg : BitVec 32) : BitVec 32 := msg + 4#32

/-- `&msg->send_buf`. -/
def sendBufField (msg : BitVec 32) : BitVec 32 := msg + 8#32

/-- `&msg->recv_buf`. -/
def recvBufField (msg : BitVec 32) : BitVec 32 := msg + 12#32

/-- `&msg->send_len`. -/
def sendLenField (msg : BitVec 32) : BitVec 32 := msg + 16#32

/-- `&msg->recv_len`. -/
def recvLenField (msg : BitVec 32) : BitVec 32 := msg + 20#32

/-- `sizeof(struct msg_packet)`. -/
def msgPacketSize : BitVec 32 := 36#32

/-- `sizeof(struct msg_packet_queue)`. -/
def msgPacketQueueSize : BitVec 32 := 40#32

/-! ### Queues -/

/-- `STAILQ_INSERT_TAIL(&proc->recv_queue, n, msgs)`.  The first insertion into a head that
    was never initialised stores the element's address through `NULL`. -/
def insertTail (s : Slot) (n : MsgPacketQueue) : Code Trap (Kernel τ) Unit := do
  let q := ((← get).procs s).recvQueue
  if q.inited then
    setProc s fun p => { p with recvQueue := { p.recvQueue with msgs := p.recvQueue.msgs ++ [n] } }
  else do
    onlyIf (q.stray = []) (onMach (store32 0#32 n.addr))
    setProc s fun p =>
      { p with recvQueue := { p.recvQueue with stray := p.recvQueue.stray ++ [n] } }

/-- `STAILQ_REMOVE_HEAD`. -/
def removeHead (s : Slot) : Code Trap (Kernel τ) Unit :=
  setProc s fun p => { p with recvQueue := { p.recvQueue with msgs := p.recvQueue.msgs.tail } }

/-- Write the first packet of a queue. -/
def setHead (s : Slot) (n : MsgPacketQueue) : Code Trap (Kernel τ) Unit :=
  setProc s fun p =>
    { p with recvQueue := { p.recvQueue with msgs := n :: p.recvQueue.msgs.tail } }

/-- A block for a packet.  The source does not check the pointer. -/
def kallocPacket : Code Trap (Kernel τ) (BitVec 32) := do
  let addr ← kallocBlock msgPacketQueueSize
  if addr = 0#32 then trap .nullPointer else return addr

/-! ### Windows -/

/-- Where the receiver's buffer appears while a sender fills it. -/
def recvBufWindow : BitVec 32 := 0xdead0000#32

/-- Where the receiver's packet, or the sender's buffer, appears. -/
def msgWindow : BitVec 32 := 0xbabe0000#32

/-- Where the sender's response buffer appears while a receiver replies. -/
def replyWindow : BitVec 32 := 0xcafe0000#32

/-! ### The calls, on the machine -/

/-- The packet a send queues: a copy of the caller's, with the sender and the physical
    addresses of its buffers.  (The five assignments between store what has just been copied.) -/
def sentPacket (pid msg : BitVec 32) : Code Trap (Machine τ) MsgPacket := do
  let p ← loadPacket msg
  let physSendBuf ← vmGetPhysMapping p.sendBuf
  let physRecvBuf ← vmGetPhysMapping p.recvBuf
  return { p with sender := pid, physSendBuf, physRecvBuf }

/-- The placeholder a `recv` queues: where its buffer and its packet are. -/
def waitingPacket (msg : BitVec 32) : Code Trap (Machine τ) MsgPacket := do
  let p ← loadPacket msg
  let physRecvBuf ← vmGetPhysMapping p.recvBuf
  let physMsgPacket ← vmGetPhysMapping msg
  return { p with physRecvBuf, physMsgPacket }

/-- A sender fills in the sending side of a placeholder. -/
def fillSendSide (n : MsgPacket) (pid msg : BitVec 32) : Code Trap (Machine τ) MsgPacket := do
  let sendBuf ← load32 (sendBufField msg)
  let sendLen ← load32 (sendLenField msg)
  let physSendBuf ← vmGetPhysMapping sendBuf
  return { n with sender := pid, sendBuf, sendLen, physSendBuf }

/-- A sender copies its message into the buffer of a waiting receiver. -/
def copyToReceiver (n : MsgPacket) (msg : BitVec 32) : Code Trap (Machine τ) Unit := do
  mapPages n.physRecvBuf recvBufWindow 0#32 n.recvLen
  let sendBuf ← load32 (sendBufField msg)
  memcpy (recvBufWindow + pageOffset n.recvBuf) sendBuf n.recvLen.toNat
  unmapPages recvBufWindow n.recvLen

/-- A sender writes its pid into the packet of a waiting receiver. -/
def reportSender (n : MsgPacket) (pid : BitVec 32) : Code Trap (Machine τ) Unit := do
  let mappedMsgPacket := msgWindow + pageOffset n.physMsgPacket
  mapPages n.physMsgPacket mappedMsgPacket 0#32 msgPacketSize
  store32 mappedMsgPacket pid
  unmapPages mappedMsgPacket msgPacketSize

/-- A sender fills in where the response goes. -/
def fillRecvSide (n : MsgPacket) (msg : BitVec 32) : Code Trap (Machine τ) MsgPacket := do
  let recvBuf ← load32 (recvBufField msg)
  let recvLen ← load32 (recvLenField msg)
  let physRecvBuf ← vmGetPhysMapping recvBuf
  return { n with recvBuf, recvLen, physRecvBuf }

/-- A receiver copies the message of a packet into its own buffer. -/
def copyFromSender (n : MsgPacket) (msg : BitVec 32) : Code Trap (Machine τ) Unit := do
  let mappedSendBuf := msgWindow + pageOffset n.sendBuf
  mapPages n.physSendBuf msgWindow 0#32 n.sendLen
  let recvBuf ← load32 (recvBufField msg)
  let recvLen ← load32 (recvLenField msg)
  memcpy recvBuf mappedSendBuf recvLen.toNat
  unmapPages mappedSendBuf n.sendLen
  store32 msg n.sender

/-- A receiver copies its response into the buffer the sender gave. -/
def copyResponse (n : MsgPacket) (msg : BitVec 32) : Code Trap (Machine τ) Unit := do
  mapPages n.physRecvBuf replyWindow 0#32 n.recvLen
  let sendBuf ← load32 (sendBufField msg)
  memcpy (replyWindow + pageOffset n.recvBuf) sendBuf n.recvLen.toNat
  unmapPages replyWindow n.recvLen

/-! ### The calls -/

/-- The receiver is not waiting: queue a packet. -/
def queuePacket (c r : Slot) (msg : BitVec 32) : Code Trap (Kernel τ) Unit := do
  let addr ← kallocPacket
  let k ← get
  let packet ← onMach (sentPacket (k.procs c).pid msg)
  let origin : Origin := ⟨k.hist.length, c⟩
  insertTail r ⟨addr, packet, some origin⟩
  note (.sent origin r)

/-- The receiver waits in `recv`: fill its placeholder and its memory. -/
def fillPlaceholder (c r : Slot) (msg : BitVec 32) : Code Trap (Kernel τ) Unit := do
  setProc c fun p => { p with state := .sendBlocked }
  let k ← get
  match (k.procs r).recvQueue.msgs with
  | [] => trap .nullPointer
  | n :: _ => do
    let pid := (k.procs c).pid
    let origin : Origin := ⟨k.hist.length, c⟩
    let filled ← onMach (fillSendSide n.msg pid msg)
    setHead r { n with msg := filled, origin := some origin }
    note (.sent origin r)
    onMach (copyToReceiver filled msg)
    onMach (reportSender filled pid)
    note (.delivered (some origin) r pid)
    let full ← onMach (fillRecvSide filled msg)
    setHead r { n with msg := full, origin := some origin }
    setProc r fun p => { p with state := .ready }

/-- The send itself, by the state of the receiver.  Any other state than the two expected
    ones leaves the caller as it is. -/
def sendTo (c r : Slot) (msg : BitVec 32) : Code Trap (Kernel τ) Unit := do
  let k ← get
  onlyIf ((k.procs r).state ≠ .recvBlocked) (queuePacket c r msg)
  match (k.procs r).state with
  | .recvBlocked => fillPlaceholder c r msg
  | .ready => setProc c fun p => { p with state := .replyBlocked }
  | _ => pure ()

/-- `syscall_send_msg`.  A pid nobody has returns with scheduling still disabled. -/
def syscallSendMsg (msg frame : BitVec 32) : Code Trap (Kernel τ) Unit := do
  procDisableScheduling
  let c ← currentSlot
  let receiver ← onMach (load32 (receiverField msg))
  let k ← get
  match k.procFindByPid receiver with
  | none => return ()
  | some r => do
    sendTo c r msg
    procEnableScheduling
    procScheduleWithoutIrq frame

/-- Nobody has sent: block, and queue a placeholder. -/
def queuePlaceholder (c : Slot) (msg : BitVec 32) : Code Trap (Kernel τ) Unit := do
  setProc c fun p => { p with state := .recvBlocked }
  let addr ← kallocPacket
  let packet ← onMach (waitingPacket msg)
  insertTail c ⟨addr, packet, none⟩

/-- Take the message of the first packet. -/
def takeMessage (c : Slot) (n : MsgPacketQueue) (msg : BitVec 32) :
    Code Trap (Kernel τ) Unit := do
  onMach (copyFromSender n.msg msg)
  note (.delivered n.origin c n.msg.sender)

/-- The receive itself. -/
def receive (c : Slot) (msg : BitVec 32) : Code Trap (Kernel τ) Unit := do
  let k ← get
  match (k.procs c).recvQueue.msgs with
  | [] => queuePlaceholder c msg
  | n :: _ => takeMessage c n msg

/-- `syscall_recv_msg`. -/
def syscallRecvMsg (msg frame : BitVec 32) : Code Trap (Kernel τ) Unit := do
  procDisableScheduling
  let c ← currentSlot
  receive c msg
  procEnableScheduling
  procScheduleWithoutIrq frame

/-- `sender->state = PROC_READY`.  A sender pid nobody has is a store of `PROC_READY` at the
    offset of `state` from `NULL`. -/
def awaken (sender : Option Slot) : Code Trap (Kernel τ) Unit :=
  match sender with
  | none => onMach (store32 4#32 procReady)
  | some p => setProc p fun q => { q with state := .ready }

/-- Answer the first packet: copy the response, free the packet, wake its sender. -/
def answerFirst (c : Slot) (n : MsgPacketQueue) (msg : BitVec 32) :
    Code Trap (Kernel τ) Unit := do
  let k ← get
  let sender := k.procFindByPid n.msg.sender
  onMach (copyResponse n.msg msg)
  removeHead c
  kfreeBlock n.addr
  awaken sender
  note (.replied n.origin c sender)

/-- The reply itself. -/
def reply (c : Slot) (msg : BitVec 32) : Code Trap (Kernel τ) Unit := do
  let k ← get
  match (k.procs c).recvQueue.msgs with
  | [] => pure ()
  | n :: _ => answerFirst c n msg

/-- `syscall_rply_msg`. -/
def syscallRplyMsg (msg frame : BitVec 32) : Code Trap (Kernel τ) Unit := do
  procDisableScheduling
  let c ← currentSlot
  reply c msg
  procEnableScheduling
  procScheduleWithoutIrq frame

end Code

/-! ### What completed code did -/

section Completed

variable {τ : Type} {k k' : Kernel τ} {c r : Slot} {msg : BitVec 32}

/-- A completed run on the machine changes nothing else. -/
theorem onMach_ok_iff {α : Type} {x : Code Trap (Machine τ) α} {a : α} :
    onMach x k = .ok (a, k') ↔ ∃ m, x k.mach = .ok (a, m) ∧ k' = { k with mach := m } :=
  zoom_ok_iff

/-- `kalloc` of a packet changes the heap, and returns a block. -/
theorem kallocPacket_ok {addr : BitVec 32} (h : kallocPacket k = .ok (addr, k')) :
    addr ≠ 0#32 ∧ ∃ heap, kalloc k.heap msgPacketQueueSize = some (addr, heap) ∧
      k' = { k with heap := heap } := by
  obtain ⟨p, k₁, h₁, h⟩ := bind_ok_iff.mp h
  unfold kallocBlock at h₁
  split at h
  · exact absurd h (by simp)
  · rename_i hne
    obtain ⟨rfl, rfl⟩ := Prod.mk.inj (Except.ok.inj h)
    cases hk : kalloc k.heap msgPacketQueueSize with
    | none =>
      rw [hk] at h₁
      exact absurd h₁ (by simp)
    | some res =>
      rw [hk] at h₁
      obtain ⟨rfl, rfl⟩ := Prod.mk.inj (Except.ok.inj h₁)
      exact ⟨hne, _, rfl, rfl⟩

variable [Tlb τ]

/-- `STAILQ_INSERT_TAIL` links the packet, or stores its address through `NULL` and leaves it
    stray. -/
theorem insertTail_ok {s : Slot} {n : MsgPacketQueue} (h : insertTail s n k = .ok ((), k')) :
    ((k.procs s).recvQueue.inited = true ∧ k' = k.updProc s fun p =>
      { p with recvQueue := { p.recvQueue with msgs := p.recvQueue.msgs ++ [n] } }) ∨
    ((k.procs s).recvQueue.inited = false ∧ ∃ k₁,
      onlyIf ((k.procs s).recvQueue.stray = []) (onMach (store32 0#32 n.addr)) k = .ok ((), k₁) ∧
      k' = k₁.updProc s fun p =>
        { p with recvQueue := { p.recvQueue with stray := p.recvQueue.stray ++ [n] } }) := by
  unfold insertTail at h
  rw [run_bind_of_ok (run_get k)] at h
  split at h
  · rename_i hin
    obtain ⟨-, rfl⟩ := Prod.mk.inj (Except.ok.inj h)
    exact Or.inl ⟨hin, rfl⟩
  · rename_i hin
    obtain ⟨⟨⟩, k₁, h₁, h⟩ := bind_ok_iff.mp h
    obtain ⟨-, rfl⟩ := Prod.mk.inj (Except.ok.inj h)
    exact Or.inr ⟨Bool.eq_false_iff.mpr hin, k₁, h₁, rfl⟩

/-- A send to a process that does not wait allocates a packet, fills it in and queues it. -/
theorem queuePacket_ok (h : queuePacket c r msg k = .ok ((), k')) :
    ∃ addr heap packet m k₁, addr ≠ 0#32 ∧ kalloc k.heap msgPacketQueueSize = some (addr, heap) ∧
      sentPacket (k.procs c).pid msg k.mach = .ok (packet, m) ∧
      insertTail r ⟨addr, packet, some ⟨k.hist.length, c⟩⟩ { k with heap := heap, mach := m }
        = .ok ((), k₁) ∧
      k' = { k₁ with hist := k₁.hist ++ [.sent ⟨k.hist.length, c⟩ r] } := by
  obtain ⟨addr, k₁, h₁, h⟩ := bind_ok_iff.mp h
  obtain ⟨hne, heap, hkalloc, rfl⟩ := kallocPacket_ok h₁
  rw [run_bind_of_ok (run_get _)] at h
  obtain ⟨packet, k₂, h₂, h⟩ := bind_ok_iff.mp h
  obtain ⟨m, hm, rfl⟩ := onMach_ok_iff.mp h₂
  obtain ⟨⟨⟩, k₃, h₃, h⟩ := bind_ok_iff.mp h
  obtain ⟨-, rfl⟩ := Prod.mk.inj (Except.ok.inj h)
  exact ⟨addr, heap, packet, m, k₃, hne, hkalloc, hm, h₃, rfl⟩

/-- A send by the state of the receiver: a placeholder is filled, or a packet is queued and the
    sender blocks if the receiver is ready. -/
theorem sendTo_ok (h : sendTo c r msg k = .ok ((), k')) :
    ((k.procs r).state = .recvBlocked ∧ fillPlaceholder c r msg k = .ok ((), k')) ∨
    ((k.procs r).state ≠ .recvBlocked ∧ ∃ k₁, queuePacket c r msg k = .ok ((), k₁) ∧
      ((k.procs r).state = .ready ∧
          k' = k₁.updProc c (fun p => { p with state := .replyBlocked }) ∨
        (k.procs r).state ≠ .ready ∧ k' = k₁)) := by
  unfold sendTo at h
  rw [run_bind_of_ok (run_get k)] at h
  obtain ⟨_, k₁, h₁, h⟩ := bind_ok_iff.mp h
  rcases onlyIf_ok h₁ with ⟨hne, h₁⟩ | ⟨heq, rfl⟩
  · refine Or.inr ⟨hne, k₁, h₁, ?_⟩
    cases hst : (k.procs r).state with
    | recvBlocked => exact absurd hst hne
    | ready =>
      simp only [hst] at h
      obtain ⟨-, rfl⟩ := Prod.mk.inj (Except.ok.inj h)
      exact Or.inl ⟨rfl, rfl⟩
    | unused | running | sendBlocked | replyBlocked =>
      simp only [hst] at h
      obtain ⟨-, rfl⟩ := Prod.mk.inj (Except.ok.inj h)
      exact Or.inr ⟨by decide, rfl⟩
  · have hst : (k₁.procs r).state = .recvBlocked := by_contra heq
    simp only [hst] at h
    exact Or.inl ⟨hst, h⟩

/-- A receive blocks and queues a placeholder if there is nothing, and takes the message of the
    first packet if there is. -/
theorem receive_ok (h : receive c msg k = .ok ((), k')) :
    ((k.procs c).recvQueue.msgs = [] ∧ ∃ addr heap packet m, addr ≠ 0#32 ∧
      kalloc k.heap msgPacketQueueSize = some (addr, heap) ∧
      waitingPacket msg k.mach = .ok (packet, m) ∧
      insertTail c ⟨addr, packet, none⟩
        { k.updProc c (fun p => { p with state := .recvBlocked }) with heap := heap, mach := m }
        = .ok ((), k')) ∨
    (∃ n rest m, (k.procs c).recvQueue.msgs = n :: rest ∧
      copyFromSender n.msg msg k.mach = .ok ((), m) ∧
      k' = { k with mach := m, hist := k.hist ++ [.delivered n.origin c n.msg.sender] }) := by
  unfold receive at h
  rw [run_bind_of_ok (run_get k)] at h
  cases hq : (k.procs c).recvQueue.msgs with
  | nil =>
    simp only [hq] at h
    obtain ⟨_, k₁, h₁, h⟩ := bind_ok_iff.mp h
    obtain ⟨-, rfl⟩ := Prod.mk.inj (Except.ok.inj h₁)
    obtain ⟨addr, k₂, h₂, h⟩ := bind_ok_iff.mp h
    obtain ⟨hne, heap, hkalloc, rfl⟩ := kallocPacket_ok h₂
    obtain ⟨packet, k₃, h₃, h₄⟩ := bind_ok_iff.mp h
    obtain ⟨m, hm, rfl⟩ := onMach_ok_iff.mp h₃
    exact Or.inl ⟨rfl, addr, heap, packet, m, hne, hkalloc, hm, h₄⟩
  | cons n rest =>
    simp only [hq] at h
    obtain ⟨⟨⟩, k₁, h₁, h⟩ := bind_ok_iff.mp h
    obtain ⟨m, hm, rfl⟩ := onMach_ok_iff.mp h₁
    obtain ⟨-, rfl⟩ := Prod.mk.inj (Except.ok.inj h)
    exact Or.inr ⟨n, rest, m, rfl, hm, rfl⟩

/-- A reply does nothing if there is nothing, and answers the first packet if there is. -/
theorem reply_ok (h : reply c msg k = .ok ((), k')) :
    ((k.procs c).recvQueue.msgs = [] ∧ k' = k) ∨
    (∃ n rest m k₁, (k.procs c).recvQueue.msgs = n :: rest ∧
      copyResponse n.msg msg k.mach = .ok ((), m) ∧
      awaken (k.procFindByPid n.msg.sender)
        { k.updProc c (fun p =>
            { p with recvQueue := { p.recvQueue with msgs := p.recvQueue.msgs.tail } }) with
          heap := kfree k.heap n.addr, mach := m } = .ok ((), k₁) ∧
      k' = { k₁ with
        hist := k₁.hist ++ [.replied n.origin c (k.procFindByPid n.msg.sender)] }) := by
  unfold reply at h
  rw [run_bind_of_ok (run_get k)] at h
  cases hq : (k.procs c).recvQueue.msgs with
  | nil =>
    simp only [hq] at h
    obtain ⟨-, rfl⟩ := Prod.mk.inj (Except.ok.inj h)
    exact Or.inl ⟨rfl, rfl⟩
  | cons n rest =>
    simp only [hq, answerFirst] at h
    rw [run_bind_of_ok (run_get k)] at h
    obtain ⟨⟨⟩, k₁, h₁, h⟩ := bind_ok_iff.mp h
    obtain ⟨m, hm, rfl⟩ := onMach_ok_iff.mp h₁
    obtain ⟨_, k₂, h₂, h⟩ := bind_ok_iff.mp h
    obtain ⟨-, rfl⟩ := Prod.mk.inj (Except.ok.inj h₂)
    obtain ⟨_, k₃, h₃, h⟩ := bind_ok_iff.mp h
    obtain ⟨-, rfl⟩ := Prod.mk.inj (Except.ok.inj h₃)
    obtain ⟨⟨⟩, k₄, h₄, h⟩ := bind_ok_iff.mp h
    obtain ⟨-, rfl⟩ := Prod.mk.inj (Except.ok.inj h)
    exact Or.inr ⟨n, rest, m, k₄, rfl, hm, h₄, rfl⟩

end Completed

end Leoman
