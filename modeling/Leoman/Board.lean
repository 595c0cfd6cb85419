import Leoman.Proc

namespace Leoman

/-!
# The IPC board

What IPC is about: who is in which state, who runs, and which packets wait where.  `Board` is
that part of the kernel, with no memory, no heap and no page tables, and the relations below
are what the system calls may do to it.

* `Board.Deposit`, `Board.Receive`, `Board.Answer` — the bodies of the three calls;
* `Board.Sched` — a scheduling decision.
-/

/-- The part of the kernel IPC is about. -/
@[ext] structure Board where
  pid : Slot → BitVec 32
  state : Slot → ProcState
  inited : Slot → Bool
  queue : Slot → List MsgPacketQueue
  idle : Option Slot
  current : Option Slot
  hist : List IpcEvent

/-- The board of a kernel. -/
def Kernel.board {τ : Type} (k : Kernel τ) : Board where
  pid s := (k.procs s).pid
  state s := (k.procs s).state
  inited s := (k.procs s).recvQueue.inited
  queue s := (k.procs s).recvQueue.msgs
  idle := k.idle
  current := k.currentProc
  hist := k.hist

namespace Board

/-! ### Moves -/

/-- Put a process into a state. -/
def setState (b : Board) (s : Slot) (st : ProcState) : Board :=
  { b with state := Function.update b.state s st }

/-- Replace a queue. -/
def setQueue (b : Board) (s : Slot) (q : List MsgPacketQueue) : Board :=
  { b with queue := Function.update b.queue s q }

/-- Insert at the tail.  A head that was never initialised does not show what is inserted. -/
def push (b : Board) (s : Slot) (n : MsgPacketQueue) : Board :=
  b.setQueue s (if b.inited s then b.queue s ++ [n] else b.queue s)

/-- Record an event. -/
def record (b : Board) (e : IpcEvent) : Board := { b with hist := b.hist ++ [e] }

/-- Wake a process, if there is one. -/
def wake (b : Board) : Option Slot → Board
  | none => b
  | some p => b.setState p .ready

/-- The process with a pid. -/
def find (b : Board) (pid : BitVec 32) : Option Slot :=
  (List.finRange nprocs).find? fun s => b.pid s = pid

/-- The send about to be made by `c`. -/
def origin (b : Board) (c : Slot) : Origin := ⟨b.hist.length, c⟩

/-- The packet `n` is a send of `c`. -/
def SentBy (b : Board) (c : Slot) (n : MsgPacketQueue) : Prop :=
  n.origin = some (b.origin c) ∧ n.msg.sender = b.pid c

/-! ### The calls -/

/-- The process `c` sends to `r`. -/
inductive Deposit (b : Board) (c r : Slot) : Board → Prop
  /-- The receiver waits: its placeholder becomes the packet. -/
  | waiting {n n' : MsgPacketQueue} {rest : List MsgPacketQueue} :
    b.state r = .recvBlocked → b.queue r = n :: rest → b.SentBy c n' →
    Deposit b c r (((((b.setState c .sendBlocked).setQueue r (n' :: rest)).record
      (.sent (b.origin c) r)).record (.delivered (some (b.origin c)) r (b.pid c))).setState r
        .ready)
  /-- The receiver is ready: the packet is queued and the sender waits. -/
  | ready {n : MsgPacketQueue} : b.state r = .ready → b.SentBy c n →
    Deposit b c r (((b.push r n).record (.sent (b.origin c) r)).setState c .replyBlocked)
  /-- The receiver is in any other state: the packet is queued and the sender goes on. -/
  | other {n : MsgPacketQueue} : b.state r ≠ .recvBlocked → b.state r ≠ .ready → b.SentBy c n →
    Deposit b c r ((b.push r n).record (.sent (b.origin c) r))

/-- The process `c` receives. -/
inductive Receive (b : Board) (c : Slot) : Board → Prop
  | block {n : MsgPacketQueue} : b.queue c = [] → n.origin = none →
    Receive b c ((b.setState c .recvBlocked).push c n)
  | take {n : MsgPacketQueue} {rest : List MsgPacketQueue} : b.queue c = n :: rest →
    Receive b c (b.record (.delivered n.origin c n.msg.sender))

/-- The process `c` replies. -/
inductive Answer (b : Board) (c : Slot) : Board → Prop
  | nothing : b.queue c = [] → Answer b c b
  | first {n : MsgPacketQueue} {rest : List MsgPacketQueue} : b.queue c = n :: rest →
    Answer b c (((b.setQueue c rest).wake (b.find n.msg.sender)).record
      (.replied n.origin c (b.find n.msg.sender)))

/-- The running process `c` gives way: unless it is blocked it is ready, and a ready process
    other than idle runs next, or idle when there is none. -/
inductive Sched (b : Board) : Board → Prop
  | switch {c t next : Slot} {b₁ : Board} : b.current = some c → b.find (b.pid c) = some t →
    b₁ = (if (b.state t).blocked then b else b.setState c .ready) →
    (b.idle ≠ some next ∧ b₁.state next = .ready ∨
      b.idle = some next ∧ ∀ s, b.idle ≠ some s → b₁.state s ≠ .ready) →
    Sched b { b₁ with current := some next }

/-! ### Field lemmas -/

section Fields

variable (b : Board) (s : Slot) (st : ProcState) (q : List MsgPacketQueue) (n : MsgPacketQueue)
  (e : IpcEvent) (p : Option Slot)

/-- `setState` sets one state, … -/
@[simp] theorem setState_state : (b.setState s st).state = Function.update b.state s st := rfl
/-- … and leaves the queues, … -/
@[simp] theorem setState_queue : (b.setState s st).queue = b.queue := rfl
/-- … the pids, … -/
@[simp] theorem setState_pid : (b.setState s st).pid = b.pid := rfl
/-- … which slots are processes, … -/
@[simp] theorem setState_inited : (b.setState s st).inited = b.inited := rfl
/-- … the idle process, … -/
@[simp] theorem setState_idle : (b.setState s st).idle = b.idle := rfl
/-- … the running one … -/
@[simp] theorem setState_current : (b.setState s st).current = b.current := rfl
/-- … and the history. -/
@[simp] theorem setState_hist : (b.setState s st).hist = b.hist := rfl
/-- `setQueue` leaves the states, … -/
@[simp] theorem setQueue_state : (b.setQueue s q).state = b.state := rfl
/-- … sets one queue, … -/
@[simp] theorem setQueue_queue : (b.setQueue s q).queue = Function.update b.queue s q := rfl
/-- … and leaves the pids, … -/
@[simp] theorem setQueue_pid : (b.setQueue s q).pid = b.pid := rfl
/-- … which slots are processes, … -/
@[simp] theorem setQueue_inited : (b.setQueue s q).inited = b.inited := rfl
/-- … the idle process, … -/
@[simp] theorem setQueue_idle : (b.setQueue s q).idle = b.idle := rfl
/-- … the running one … -/
@[simp] theorem setQueue_current : (b.setQueue s q).current = b.current := rfl
/-- … and the history. -/
@[simp] theorem setQueue_hist : (b.setQueue s q).hist = b.hist := rfl
/-- `record` leaves the states, … -/
@[simp] theorem record_state : (b.record e).state = b.state := rfl
/-- … the queues, … -/
@[simp] theorem record_queue : (b.record e).queue = b.queue := rfl
/-- … the pids, … -/
@[simp] theorem record_pid : (b.record e).pid = b.pid := rfl
/-- … which slots are processes, … -/
@[simp] theorem record_inited : (b.record e).inited = b.inited := rfl
/-- … the idle process … -/
@[simp] theorem record_idle : (b.record e).idle = b.idle := rfl
/-- … and the running one, … -/
@[simp] theorem record_current : (b.record e).current = b.current := rfl
/-- … and appends to the history. -/
@[simp] theorem record_hist : (b.record e).hist = b.hist ++ [e] := rfl

/-- Waking changes a state, and nothing but it. -/
theorem wake_eq : b.wake p = { b with state := (b.wake p).state } := by
  cases p <;> rfl

/-- `wake` changes states only: not the queues, … -/
@[simp] theorem wake_queue : (b.wake p).queue = b.queue := by rw [wake_eq]
/-- … the pids, … -/
@[simp] theorem wake_pid : (b.wake p).pid = b.pid := by rw [wake_eq]
/-- … which slots are processes, … -/
@[simp] theorem wake_inited : (b.wake p).inited = b.inited := by rw [wake_eq]
/-- … the idle process, … -/
@[simp] theorem wake_idle : (b.wake p).idle = b.idle := by rw [wake_eq]
/-- … the running one … -/
@[simp] theorem wake_current : (b.wake p).current = b.current := by rw [wake_eq]
/-- … or the history. -/
@[simp] theorem wake_hist : (b.wake p).hist = b.hist := by rw [wake_eq]

end Fields

/-! ### Who runs -/

section Current

variable {b b' : Board} {c r : Slot}

/-- No call changes who runs before its scheduling decision. -/
theorem Deposit.current (h : b.Deposit c r b') : b'.current = b.current := by
  cases h <;> rfl

/-- The receiver goes on running, blocked or not, until the scheduler is called. -/
theorem Receive.current (h : b.Receive c b') : b'.current = b.current := by
  cases h <;> rfl

/-- So does a process that answers. -/
theorem Answer.current (h : b.Answer c b') : b'.current = b.current := by
  cases h with
  | nothing => rfl
  | first => simp

/-- A scheduling decision leaves the queues and the history alone. -/
theorem Sched.fields (h : b.Sched b') : b'.queue = b.queue ∧ b'.hist = b.hist := by
  obtain @⟨c, t, next, b₁, hc, ht, rfl, -⟩ := h
  split <;> exact ⟨rfl, rfl⟩

end Current

end Board

end Leoman
