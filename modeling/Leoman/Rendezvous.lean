import Mathlib
import Leoman.Dispatch
import Leoman.Transfer

namespace Leoman

open ByteMem StateExcept Runs

/-!
# The rendezvous of a client and a server

A client sends, a server receives and replies.  When the server receives first, the sender
writes into its buffer and its packet through windows; when the client sends first, the receiver
reads the buffer of the sender through a window.

* `Exchange` — who exchanges, with which packets, and where packets and buffers are;
* `Exchange.Ready` — the state before the exchange;
* `Exchange.Met`, `Exchange.Answered` — the state when both have called, and after the reply;
  neither depends on who called first;
* `recv_then_send`, `send_then_recv`, `reply_after` — the calls complete in these states.
-/

/-! ### What calls leave alone -/

/-- From `k` to `k'` nobody got another name, directory or queue head, or began to run. -/
structure SameNames (k k' : Kernel Unit) : Prop where
  pid : ∀ t, (k'.procs t).pid = (k.procs t).pid
  pdir : ∀ t, (k'.procs t).pdir = (k.procs t).pdir
  inited : ∀ t, (k'.procs t).recvQueue.inited = (k.procs t).recvQueue.inited
  idle : k'.idle = k.idle
  current : k'.currentProc = k.currentProc

/-- From `k` to `k'` no user byte outside `X` changed, the address spaces are as before and `n`
    frames are left for tables; the scheduler can run. -/
structure Since (K dirs : Set (BitVec 32)) (n : Nat) (X : Set (BitVec 32))
    (k k' : Kernel Unit) : Prop where
  alive : Alive k'
  spaces : Spaces K dirs k'.mach.mem
  supply : Supply K dirs k'.mach.mem n k'.mach.pm
  same : SameSpaces dirs k.mach.mem k'.mach.mem
  user : ∀ x, palignDown x ∉ K → x ∉ X → k'.mach.mem x = k.mach.mem x
  pid : ∀ t, (k'.procs t).pid = (k.procs t).pid
  pdir : ∀ t, (k'.procs t).pdir = (k.procs t).pdir
  inited : ∀ t, (k'.procs t).recvQueue.inited = (k.procs t).recvQueue.inited
  idle : k'.idle = k.idle

section Frames

variable {K dirs X Y : Set (BitVec 32)} {n n' : Nat} {k k' k'' : Kernel Unit} {s c : Slot}

/-- A step that touches no process. -/
theorem SameNames.of_procs (hp : k'.procs = k.procs) (hi : k'.idle = k.idle)
    (hc : k'.currentProc = k.currentProc) : SameNames k k' :=
  ⟨fun t => by rw [hp], fun t => by rw [hp], fun t => by rw [hp], hi, hc⟩

theorem SameNames.trans (h : SameNames k k') (h' : SameNames k' k'') : SameNames k k'' :=
  ⟨fun t => (h'.pid t).trans (h.pid t), fun t => (h'.pdir t).trans (h.pdir t),
    fun t => (h'.inited t).trans (h.inited t), h'.idle.trans h.idle, h'.current.trans h.current⟩

theorem updProc_sameNames {f : Proc → Proc} (hpid : (f (k.procs s)).pid = (k.procs s).pid)
    (hpdir : (f (k.procs s)).pdir = (k.procs s).pdir)
    (hin : (f (k.procs s)).recvQueue.inited = (k.procs s).recvQueue.inited) :
    SameNames k (k.updProc s f) := by
  refine ⟨fun t => ?_, fun t => ?_, fun t => ?_, rfl, rfl⟩
  all_goals
    by_cases ht : t = s
    · subst ht
      simpa [Kernel.updProc]
    · simp [Kernel.updProc, ht]

/-- The scheduler can run after a call that keeps the names and the slots without a process. -/
theorem Alive.of_sameNames (ha : Alive k) (hn : SameNames k k') (hcr3 : k'.mach.cr3 = k.mach.cr3)
    (hused : ∀ t, k.board.inited t = false → k'.board.state t = k.board.state t) : Alive k' := by
  refine ⟨ha.named.of_moves (funext hn.pid) (funext hn.inited) hn.current hn.idle hused, ?_, ?_⟩
  · rw [hn.idle]
    exact ha.idle
  · intro d hd
    rw [hcr3, hn.pdir d]
    exact ha.cr3 d (hn.current.symm.trans hd)

theorem Since.paused (h : Since K dirs n X k k') (hp : Paused k' k'') : Since K dirs n X k k'' := by
  refine ⟨hp.alive, ?_, ?_, ?_, ?_, fun t => (congrFun hp.pid t).trans (h.pid t),
    fun t => (hp.pdir t).trans (h.pdir t), fun t => (congrFun hp.inited t).trans (h.inited t),
    hp.idle.trans h.idle⟩
  · rw [hp.mem]
    exact h.spaces
  · rw [hp.mem, hp.pm]
    exact h.supply
  · rw [hp.mem]
    exact h.same
  · rw [hp.mem]
    exact h.user

/-- The paging state while a process of `dirs` runs. -/
theorem Since.paging (h : Since K dirs n X k k') (hc : k'.currentProc = some c)
    (hD : (k.procs c).pdir ∈ dirs) : Paging K dirs n k'.mach ∧ k'.mach.cr3 = (k.procs c).pdir := by
  have hcr3 : k'.mach.cr3 = (k.procs c).pdir := by
    rw [h.alive.cr3 c hc, h.pdir c]
  exact ⟨⟨h.spaces, h.supply, hcr3 ▸ hD⟩, hcr3⟩

/-- A call with an effect on the machine. -/
theorem Since.effect (h : Since K dirs n X k k') (he : Effect K dirs n' Y k'.mach k''.mach)
    (hn : SameNames k' k'') (ha : Alive k'') : Since K dirs n' (X ∪ Y) k k'' := by
  refine ⟨ha, he.paging.spaces, he.paging.supply, h.same.trans he.spaces, fun x hK hx => ?_,
    fun t => (hn.pid t).trans (h.pid t), fun t => (hn.pdir t).trans (h.pdir t),
    fun t => (hn.inited t).trans (h.inited t), hn.idle.trans h.idle⟩
  rw [Set.mem_union, not_or] at hx
  rw [he.user x hK hx.2, h.user x hK hx.1]

theorem Since.mono (h : Since K dirs n X k k') (hn : n' ≤ n) (hX : X ⊆ Y) :
    Since K dirs n' Y k k' :=
  ⟨h.alive, h.spaces, h.supply.mono hn, h.same, fun x hK hx => h.user x hK fun hx' => hx (hX hx'),
    h.pid, h.pdir, h.inited, h.idle⟩

/-- User bytes outside what was written. -/
theorem Since.bytes_eq {D v : BitVec 32} {l : Nat} {f : Nat → BitVec 32}
    (h : Since K dirs n X k k') (hb : UserBytes K k.mach.mem D v l f)
    (hd : Disjoint (bytesOf f l) X) : ∀ i < l, k'.mach.mem (f i) = k.mach.mem (f i) := fun i hi =>
  h.user _ (hb.user i hi) (Set.disjoint_left.mp hd ⟨i, hi, rfl⟩)

/-- A packet outside what was written. -/
theorem Since.packet_eq {D v : BitVec 32} {f : Nat → BitVec 32} (h : Since K dirs n X k k')
    (hb : UserBytes K k.mach.mem D v 36 f) (hd : Disjoint (bytesOf f 36) X) :
    packetVia k'.mach.mem f = packetVia k.mach.mem f :=
  packetVia_congr (h.bytes_eq hb hd)

/-- A ready process is one. -/
theorem Alive.inited_of_ready (ha : Alive k) (hs : (k.procs s).state = .ready) :
    (k.procs s).recvQueue.inited = true := by
  by_contra hno
  have := ha.named.used s ((Bool.not_eq_true _).mp hno)
  exact absurd (hs.symm.trans this) (by decide)

end Frames

/-! ### The exchange -/

/-- A client and a server, the addresses of their packets (`msgC` for the send, `msgS` for the
    `recv`, `msgR` for the reply), and where the bytes of packets and buffers are: `req` and `ans`
    are the buffers of the client, `inb` and `resp` those of the server. -/
structure Exchange where
  client : Slot
  server : Slot
  msgC : BitVec 32
  msgS : BitVec 32
  msgR : BitVec 32
  pktC : Nat → BitVec 32
  pktS : Nat → BitVec 32
  pktR : Nat → BitVec 32
  req : Nat → BitVec 32
  inb : Nat → BitVec 32
  resp : Nat → BitVec 32
  ans : Nat → BitVec 32

namespace Exchange

/-- The packets, as they are in memory. -/
def packetC (x : Exchange) (k : Kernel Unit) : MsgPacket := packetVia k.mach.mem x.pktC

def packetS (x : Exchange) (k : Kernel Unit) : MsgPacket := packetVia k.mach.mem x.pktS

def packetR (x : Exchange) (k : Kernel Unit) : MsgPacket := packetVia k.mach.mem x.pktR

/-- The bytes of packets and buffers, region by region. -/
def regions (x : Exchange) (k : Kernel Unit) : List (Set (BitVec 32)) :=
  [bytesOf x.pktC 36, bytesOf x.pktS 36, bytesOf x.pktR 36,
    bytesOf x.req (x.packetC k).sendLen.toNat, bytesOf x.inb (x.packetS k).recvLen.toNat,
    bytesOf x.resp (x.packetR k).sendLen.toNat, bytesOf x.ans (x.packetC k).recvLen.toNat]

/-- Before the exchange: two ready processes, nothing sent to the server yet, a packet to it, and
    packets and buffers in user memory, pairwise disjoint, with the sending buffers at least as
    long as the receiving ones. -/
structure Ready (x : Exchange) (K dirs : Set (BitVec 32)) (k : Kernel Unit) : Prop where
  alive : Alive k
  distinct : x.client ≠ x.server
  clientReady : (k.procs x.client).state = .ready
  serverReady : (k.procs x.server).state = .ready
  empty : (k.procs x.server).recvQueue.msgs = []
  heap : ∃ addr heap, kalloc k.heap msgPacketQueueSize = some (addr, heap) ∧ addr ≠ 0#32
  clientDir : (k.procs x.client).pdir ∈ dirs
  serverDir : (k.procs x.server).pdir ∈ dirs
  spaces : Spaces K dirs k.mach.mem
  receiver : (x.packetC k).receiver = (k.procs x.server).pid
  pktC : UserBytes K k.mach.mem (k.procs x.client).pdir x.msgC 36 x.pktC
  pktS : UserBuffer K k.mach.mem (k.procs x.server).pdir x.msgS 36 x.pktS
  pktR : UserBytes K k.mach.mem (k.procs x.server).pdir x.msgR 36 x.pktR
  req : UserBuffer K k.mach.mem (k.procs x.client).pdir (x.packetC k).sendBuf
    (x.packetC k).sendLen.toNat x.req
  inb : UserBuffer K k.mach.mem (k.procs x.server).pdir (x.packetS k).recvBuf
    (x.packetS k).recvLen.toNat x.inb
  resp : UserBytes K k.mach.mem (k.procs x.server).pdir (x.packetR k).sendBuf
    (x.packetR k).sendLen.toNat x.resp
  ans : UserBuffer K k.mach.mem (k.procs x.client).pdir (x.packetC k).recvBuf
    (x.packetC k).recvLen.toNat x.ans
  reqLen : (x.packetS k).recvLen.toNat ≤ (x.packetC k).sendLen.toNat
  respLen : (x.packetC k).recvLen.toNat ≤ (x.packetR k).sendLen.toNat
  apart : (x.regions k).Pairwise Disjoint

/-- The bytes of packets and buffers, with `l` bytes from the request on and `r` from the response
    on. -/
def spans (x : Exchange) (k : Kernel Unit) (l r : Nat) : List (Set (BitVec 32)) :=
  [bytesOf x.pktC 36, bytesOf x.pktS 36, bytesOf x.pktR 36, bytesOf x.req l,
    bytesOf x.inb (x.packetS k).recvLen.toNat, bytesOf x.resp r,
    bytesOf x.ans (x.packetC k).recvLen.toNat]

/-- As `Ready`, whatever the lengths sent say: `l` bytes from the request on and `r` from the
    response on are user memory, and enough for the buffers received into. -/
structure Poised (x : Exchange) (K dirs : Set (BitVec 32)) (l r : Nat) (k : Kernel Unit) :
    Prop where
  alive : Alive k
  distinct : x.client ≠ x.server
  clientReady : (k.procs x.client).state = .ready
  serverReady : (k.procs x.server).state = .ready
  empty : (k.procs x.server).recvQueue.msgs = []
  heap : ∃ addr heap, kalloc k.heap msgPacketQueueSize = some (addr, heap) ∧ addr ≠ 0#32
  clientDir : (k.procs x.client).pdir ∈ dirs
  serverDir : (k.procs x.server).pdir ∈ dirs
  spaces : Spaces K dirs k.mach.mem
  receiver : (x.packetC k).receiver = (k.procs x.server).pid
  pktC : UserBytes K k.mach.mem (k.procs x.client).pdir x.msgC 36 x.pktC
  pktS : UserBuffer K k.mach.mem (k.procs x.server).pdir x.msgS 36 x.pktS
  pktR : UserBytes K k.mach.mem (k.procs x.server).pdir x.msgR 36 x.pktR
  req : UserBuffer K k.mach.mem (k.procs x.client).pdir (x.packetC k).sendBuf l x.req
  inb : UserBuffer K k.mach.mem (k.procs x.server).pdir (x.packetS k).recvBuf
    (x.packetS k).recvLen.toNat x.inb
  resp : UserBytes K k.mach.mem (k.procs x.server).pdir (x.packetR k).sendBuf r x.resp
  ans : UserBuffer K k.mach.mem (k.procs x.client).pdir (x.packetC k).recvBuf
    (x.packetC k).recvLen.toNat x.ans
  reqLen : (x.packetS k).recvLen.toNat ≤ l
  respLen : (x.packetC k).recvLen.toNat ≤ r
  apart : (x.spans k l r).Pairwise Disjoint

/-- The lengths sent are enough. -/
theorem Ready.poised {x : Exchange} {K dirs : Set (BitVec 32)} {k : Kernel Unit}
    (hr : x.Ready K dirs k) :
    x.Poised K dirs (x.packetC k).sendLen.toNat (x.packetR k).sendLen.toNat k :=
  ⟨hr.alive, hr.distinct, hr.clientReady, hr.serverReady, hr.empty, hr.heap, hr.clientDir,
    hr.serverDir, hr.spaces, hr.receiver, hr.pktC, hr.pktS, hr.pktR, hr.req, hr.inb, hr.resp,
    hr.ans,
    hr.reqLen, hr.respLen, hr.apart⟩

/-- The windows are free, and `pm_alloc` has enough cleared frames for their tables. -/
structure WindowsFree (x : Exchange) (K dirs : Set (BitVec 32)) (k : Kernel Unit) : Prop where
  recvBuf : FreeWindow dirs k.mach.mem recvBufWindow (x.packetS k).recvLen
  packet : FreeWindow dirs k.mach.mem msgWindow msgPacketSize
  sendBuf : FreeWindow dirs k.mach.mem msgWindow (x.packetC k).sendLen
  reply : FreeWindow dirs k.mach.mem replyWindow (x.packetC k).recvLen
  supply : Supply K dirs k.mach.mem (pagesOf (x.packetC k).recvLen + 1 +
    max (pagesOf (x.packetS k).recvLen) (pagesOf (x.packetC k).sendLen)) k.mach.pm

/-- The bytes are physically consecutive, and end within the pages `map_pages` maps for `len`. -/
def Straight (f : Nat → BitVec 32) (n : Nat) (len : BitVec 32) : Prop :=
  ∀ i < n, f i = physBytes (f 0) i ∧ (pageOffset (f 0)).toNat + i < 4096 * pagesOf len

/-- What the windows show is what the buffers are: the condition under which the calls copy the
    right bytes. -/
structure Fits (x : Exchange) (k : Kernel Unit) : Prop where
  inb : Straight x.inb (x.packetS k).recvLen.toNat (x.packetS k).recvLen
  req : Straight x.req (x.packetS k).recvLen.toNat (x.packetC k).sendLen
  ans : Straight x.ans (x.packetC k).recvLen.toNat (x.packetC k).recvLen
  pktS : (pageOffset x.msgS).toNat + 4 ≤ 4096

/-- The placeholder the server queues when it receives first. -/
def placeholder (x : Exchange) (k : Kernel Unit) : MsgPacket :=
  { x.packetS k with physRecvBuf := x.inb 0, physMsgPacket := x.pktS 0 }

/-- The packet the client queues when it sends first. -/
def sent (x : Exchange) (k : Kernel Unit) : MsgPacket :=
  { x.packetC k with
    sender := (k.procs x.client).pid, physSendBuf := x.req 0, physRecvBuf := x.ans 0 }

/-- The placeholder with the sending side of the client filled in. -/
def filled (x : Exchange) (k : Kernel Unit) : MsgPacket :=
  { x.placeholder k with
    sender := (k.procs x.client).pid, sendBuf := (x.packetC k).sendBuf
    sendLen := (x.packetC k).sendLen, physSendBuf := x.req 0 }

/-- The placeholder with the receiving side of the client filled in too. -/
def full (x : Exchange) (k : Kernel Unit) : MsgPacket :=
  { x.filled k with
    recvBuf := (x.packetC k).recvBuf, recvLen := (x.packetC k).recvLen, physRecvBuf := x.ans 0 }

/-- The user bytes the request changes: the buffer of the server and the sender field of its
    packet. -/
def written (x : Exchange) (k : Kernel Unit) : Set (BitVec 32) :=
  bytesOf x.inb (x.packetS k).recvLen.toNat ∪ bytesOf x.pktS 4

/-- The request is in the buffer of the server, and the pid of the client in its packet. -/
structure Delivered (x : Exchange) (k k' : Kernel Unit) : Prop where
  bytes : ∀ i < (x.packetS k).recvLen.toNat, k'.mach.mem (x.inb i) = k.mach.mem (x.req i)
  sender : wordVia k'.mach.mem x.pktS 0 = (k.procs x.client).pid

/-- A stage of the exchange that began in `k`. -/
structure Stage (x : Exchange) (K dirs : Set (BitVec 32)) (n : Nat) (X : Set (BitVec 32))
    (k k' : Kernel Unit) (client server : ProcState) (queue : List MsgPacketQueue) : Prop where
  since : Since K dirs n X k k'
  client : (k'.procs x.client).state = client
  server : (k'.procs x.server).state = server
  queue : (k'.procs x.server).recvQueue.msgs = queue

variable {x : Exchange} {K dirs X Y : Set (BitVec 32)} {n n' l r : Nat} {k k' k'' : Kernel Unit}
  {stC stS : ProcState} {q : List MsgPacketQueue} {frame : BitVec 32}

/-- A stage lasts over scheduling decisions. -/
theorem Stage.paused (h : x.Stage K dirs n X k k' stC stS q) (hp : Paused k' k'')
    (hC : stC.blocked = true ∨ stC = .ready) (hS : stS.blocked = true ∨ stS = .ready) :
    x.Stage K dirs n X k k'' stC stS q :=
  ⟨h.since.paused hp, hp.state_eq h.client hC, hp.state_eq h.server hS,
    (congrFun hp.queue x.server).trans h.queue⟩

/-- The scheduling flag does not matter to a stage. -/
theorem Stage.silent (h : x.Stage K dirs n X k k' stC stS q) (b : Bool) :
    x.Stage K dirs n X k { k' with schedulingEnabled := b } stC stS q :=
  ⟨⟨⟨h.since.alive.named, h.since.alive.idle, h.since.alive.cr3⟩, h.since.spaces, h.since.supply,
    h.since.same, h.since.user, h.since.pid, h.since.pdir, h.since.inited, h.since.idle⟩,
    h.client, h.server, h.queue⟩

/-- From one stage to the next: a call has an effect on the machine and on the client and the
    server. -/
theorem Stage.step {stC' stS' : ProcState} {q' : List MsgPacketQueue} (hr : x.Poised K dirs l r k)
    (h : x.Stage K dirs n X k k' stC stS q) (he : Effect K dirs n' Y k'.mach k''.mach)
    (hn : SameNames k' k'')
    (hother : ∀ t, t ≠ x.client → t ≠ x.server → (k''.procs t).state = (k'.procs t).state)
    (hC : (k''.procs x.client).state = stC') (hS : (k''.procs x.server).state = stS')
    (hq : (k''.procs x.server).recvQueue.msgs = q') :
    x.Stage K dirs n' (X ∪ Y) k k'' stC' stS' q' := by
  have hinC : k'.board.inited x.client = true :=
    (h.since.inited _).trans (hr.alive.inited_of_ready hr.clientReady)
  have hinS : k'.board.inited x.server = true :=
    (h.since.inited _).trans (hr.alive.inited_of_ready hr.serverReady)
  refine ⟨h.since.effect he hn (h.since.alive.of_sameNames hn he.cr3 fun t ht => ?_), hC, hS, hq⟩
  exact hother t (Board.ne_of_inited ht hinC) (Board.ne_of_inited ht hinS)

/-- Two of the regions are disjoint. -/
theorem Poised.disjoint (hr : x.Poised K dirs l r k) (i j : Fin 7) (hij : i ≠ j) :
    Disjoint ((x.spans k l r).get i) ((x.spans k l r).get j) := by
  rcases lt_or_gt_of_ne hij with hlt | hlt
  · exact List.pairwise_iff_get.mp hr.apart i j hlt
  · exact (List.pairwise_iff_get.mp hr.apart j i hlt).symm

/-- What the request changes is in the regions of the server's packet and its buffer. -/
theorem Poised.disjoint_written (hr : x.Poised K dirs l r k) (i : Fin 7) (h₁ : i ≠ 1) (h₄ : i ≠ 4) :
    Disjoint ((x.spans k l r).get i) (x.written k) := by
  refine Set.disjoint_union_right.mpr ⟨hr.disjoint i 4 h₄, ?_⟩
  refine (hr.disjoint i 1 h₁).mono_right ?_
  rintro y ⟨j, hj, rfl⟩
  exact ⟨j, by omega, rfl⟩

/-! ### The calls, one by one -/

theorem kallocPacket_runs {addr : BitVec 32} {heap : Heap}
    (h : kalloc k.heap msgPacketQueueSize = some (addr, heap)) (hne : addr ≠ 0#32) :
    kallocPacket k = .ok (addr, { k with heap := heap }) := by
  have hblock : kallocBlock msgPacketQueueSize k = .ok (addr, { k with heap := heap }) := by
    unfold kallocBlock
    rw [h]
  unfold kallocPacket
  rw [run_bind_of_ok hblock, if_neg hne]
  rfl

theorem insertTail_runs {s : Slot} (hin : (k.procs s).recvQueue.inited = true)
    (e : MsgPacketQueue) : insertTail s e k = .ok ((), k.updProc s fun p =>
      { p with recvQueue := { p.recvQueue with msgs := p.recvQueue.msgs ++ [e] } }) := by
  unfold insertTail
  rw [run_bind_of_ok (run_get k), if_pos hin]
  rfl

theorem onMach_runs {α : Type} {y : Code Trap (Machine Unit) α} {a : α} {m m' : Machine Unit}
    (hm : k.mach = m) (h : y m = .ok (a, m')) : onMach y k = .ok (a, { k with mach := m' }) := by
  subst hm
  exact zoom_ok h

/-- A send to a process that waits, from what it does to the machine. -/
theorem fillPlaceholder_runs {c s : Slot} {msg : BitVec 32} {e : MsgPacketQueue}
    {filled full : MsgPacket} {m₁ m₂ m₃ m₄ : Machine Unit} (hne : s ≠ c)
    (hq : (k.procs s).recvQueue.msgs = e :: q)
    (hfill : fillSendSide e.msg (k.procs c).pid msg k.mach = .ok (filled, m₁))
    (hcopy : copyToReceiver filled msg m₁ = .ok ((), m₂))
    (hreport : reportSender filled (k.procs c).pid m₂ = .ok ((), m₃))
    (hrecv : fillRecvSide filled msg m₃ = .ok (full, m₄)) :
    fillPlaceholder c s msg k = .ok ((),
      { (k.updProc c fun p => { p with state := .sendBlocked }).updProc s fun p =>
          { p with
            state := .ready
            recvQueue := { p.recvQueue with
              msgs := { e with msg := full, origin := some ⟨k.hist.length, c⟩ } :: q } } with
        mach := m₄
        hist := k.hist ++ [.sent ⟨k.hist.length, c⟩ s,
          .delivered (some ⟨k.hist.length, c⟩) s (k.procs c).pid] }) := by
  have hqueue : ((k.updProc c fun p => { p with state := .sendBlocked }).procs s).recvQueue.msgs
      = e :: q := by
    simp [Kernel.updProc, Function.update_of_ne hne, hq]
  have hpid : ((k.updProc c fun p => { p with state := .sendBlocked }).procs c).pid
      = (k.procs c).pid := by
    simp [Kernel.updProc]
  unfold fillPlaceholder setHead setProc note
  rw [run_bind_of_ok (run_modify _ k), run_bind_of_ok (run_get _), hqueue]
  simp only [hpid]
  rw [run_bind_of_ok (onMach_runs (by rfl) hfill), run_bind_of_ok (run_modify _ _),
    run_bind_of_ok (run_modify _ _), run_bind_of_ok (onMach_runs (by rfl) hcopy),
    run_bind_of_ok (onMach_runs (by rfl) hreport), run_bind_of_ok (run_modify _ _),
    run_bind_of_ok (onMach_runs (by rfl) hrecv), run_bind_of_ok (run_modify _ _), run_modify]
  -- three writes to the slot of the receiver are one
  simp [Kernel.updProc, Function.update_idem, hq, Function.update_of_ne hne]

/-- **The server receives first**: it queues its placeholder and waits. -/
theorem Poised.receive_waits (hr : x.Poised K dirs l r k)
    (h : x.Stage K dirs n ∅ k k' .ready .ready []) (hheap : k'.heap = k.heap)
    (hc : k'.currentProc = some x.server) :
    ∃ addr k'', receive x.server x.msgS k' = .ok ((), k'') ∧ k''.currentProc = k'.currentProc ∧
      x.Stage K dirs n ∅ k k'' .ready .recvBlocked [⟨addr, x.placeholder k, none⟩] := by
  obtain ⟨addr, heap, hkalloc, hne⟩ := hr.heap
  have hin := hr.alive.inited_of_ready hr.serverReady
  obtain ⟨hp, hcr3⟩ := h.since.paging hc hr.serverDir
  -- what the server's packet says has not changed
  have hpkt : packetVia k'.mach.mem x.pktS = x.packetS k :=
    h.since.packet_eq hr.pktS.toBytes (by simp)
  have hpktS := hr.pktS.same hr.spaces hr.serverDir h.since.same
  have hinb := hr.inb.same hr.spaces hr.serverDir h.since.same
  rw [← hcr3] at hpktS hinb
  rw [← hpkt] at hinb
  have hwait := waitingPacket_user hp hpktS hinb
  rw [hpkt] at hwait
  let k₁ := k'.updProc x.server fun p => { p with state := .recvBlocked }
  let k₂ : Kernel Unit := { k₁ with heap := heap }
  let e : MsgPacketQueue := ⟨addr, x.placeholder k, none⟩
  have hin₂ : (k₂.procs x.server).recvQueue.inited = true := by
    simp [k₂, k₁, Kernel.updProc, h.since.inited, hin]
  refine ⟨addr, k₂.updProc x.server fun p => { p with
    recvQueue := { p.recvQueue with msgs := p.recvQueue.msgs ++ [e] } }, ?_, rfl, ?_⟩
  · unfold receive
    rw [run_bind_of_ok (run_get k'), h.queue]
    unfold queuePlaceholder
    simp only
    rw [run_bind_of_ok (show setProc x.server _ k' = .ok ((), k₁) from rfl),
      run_bind_of_ok (kallocPacket_runs (k := k₁) (hheap ▸ hkalloc) hne),
      run_bind_of_ok (show onMach (waitingPacket x.msgS) k₂ = .ok (x.placeholder k, k₂) from
        zoom_ok hwait)]
    exact insertTail_runs hin₂ e
  · rw [← Set.empty_union (∅ : Set (BitVec 32))]
    refine h.step hr (Effect.refl hp) ?_ (fun t _ ht => ?_) ?_ ?_ ?_
    · have h₁ : SameNames k' k₁ := updProc_sameNames rfl rfl rfl
      have h₂ : SameNames k₁ k₂ := SameNames.of_procs rfl rfl rfl
      exact h₁.trans (h₂.trans (updProc_sameNames rfl rfl rfl))
    · simp [k₂, k₁, Kernel.updProc, ht]
    · simp [k₂, k₁, Kernel.updProc, hr.distinct, h.client]
    · simp [k₂, k₁, Kernel.updProc]
    · simp [k₂, k₁, Kernel.updProc, h.queue, e]

/-- **The client sends first**: its packet is queued, and it waits. -/
theorem Poised.send_queues (hr : x.Poised K dirs l r k)
    (h : x.Stage K dirs n ∅ k k' .ready .ready []) (hheap : k'.heap = k.heap)
    (hc : k'.currentProc = some x.client) :
    ∃ e k'', sendTo x.client x.server x.msgC k' = .ok ((), k'') ∧
      k''.currentProc = k'.currentProc ∧ x.Stage K dirs n ∅ k k'' .replyBlocked .ready [e] ∧
      e.msg = x.sent k := by
  obtain ⟨addr, heap, hkalloc, hne⟩ := hr.heap
  have hin := hr.alive.inited_of_ready hr.serverReady
  obtain ⟨hp, hcr3⟩ := h.since.paging hc hr.clientDir
  have hpkt : packetVia k'.mach.mem x.pktC = x.packetC k := h.since.packet_eq hr.pktC (by simp)
  have hpktC := hr.pktC.same hr.spaces hr.clientDir h.since.same
  have hreq := hr.req.same hr.spaces hr.clientDir h.since.same
  have hans := hr.ans.same hr.spaces hr.clientDir h.since.same
  rw [← hcr3] at hpktC hreq hans
  rw [← hpkt] at hreq hans
  have hsent := sentPacket_user (k.procs x.client).pid hp hpktC hreq hans
  rw [hpkt, ← h.since.pid] at hsent
  let k₁ : Kernel Unit := { k' with heap := heap }
  let e : MsgPacketQueue := ⟨addr, x.sent k, some ⟨k'.hist.length, x.client⟩⟩
  let k₂ := k₁.updProc x.server fun p => { p with
    recvQueue := { p.recvQueue with msgs := p.recvQueue.msgs ++ [e] } }
  let k₃ : Kernel Unit := { k₂ with hist := k₂.hist ++ [.sent ⟨k'.hist.length, x.client⟩ x.server] }
  have hqueue : queuePacket x.client x.server x.msgC k' = .ok ((), k₃) := by
    have hpid : (k'.procs x.client).pid = (k.procs x.client).pid := h.since.pid _
    have hmach : onMach (sentPacket (k₁.procs x.client).pid x.msgC) k₁ = .ok (x.sent k, k₁) := by
      refine zoom_ok (hsent.trans ?_)
      rw [hpid]
      rfl
    unfold queuePacket
    rw [run_bind_of_ok (kallocPacket_runs (hheap ▸ hkalloc) hne), run_bind_of_ok (run_get k₁),
      run_bind_of_ok hmach, run_bind_of_ok (insertTail_runs (k := k₁)
        ((h.since.inited _).trans hin) e)]
    rfl
  refine ⟨e, k₃.updProc x.client fun p => { p with state := .replyBlocked }, ?_, rfl, ?_, rfl⟩
  · unfold sendTo
    rw [run_bind_of_ok (run_get k'), onlyIf, if_pos (by rw [h.server]; decide),
      run_bind_of_ok hqueue, h.server]
    rfl
  · rw [← Set.empty_union (∅ : Set (BitVec 32))]
    refine h.step hr (Effect.refl hp) ?_ (fun t ht ht' => ?_) ?_ ?_ ?_
    · have h₁ : SameNames k' k₁ := SameNames.of_procs rfl rfl rfl
      have h₂ : SameNames k₁ k₂ := updProc_sameNames rfl rfl rfl
      have h₃ : SameNames k₂ k₃ := SameNames.of_procs rfl rfl rfl
      exact h₁.trans (h₂.trans (h₃.trans (updProc_sameNames rfl rfl rfl)))
    · simp [k₃, k₂, k₁, Kernel.updProc, ht, ht']
    · simp [k₃, k₂, k₁, Kernel.updProc]
    · simp [k₃, k₂, k₁, Kernel.updProc, hr.distinct.symm, h.server]
    · simp [k₃, k₂, k₁, Kernel.updProc, hr.distinct.symm, h.queue]

/-- **The server receives after the send**: it copies the request out of the client. -/
theorem Poised.receive_takes {e : MsgPacketQueue} (hr : x.Poised K dirs l r k)
    (hw : x.WindowsFree K dirs k)
    (hf : Straight x.req (x.packetS k).recvLen.toNat (x.packetC k).sendLen)
    (h : x.Stage K dirs (n + pagesOf (x.packetC k).sendLen) ∅ k k' .replyBlocked .ready [e])
    (he : e.msg = x.sent k) (hc : k'.currentProc = some x.server) :
    ∃ k'', receive x.server x.msgS k' = .ok ((), k'') ∧ k''.currentProc = k'.currentProc ∧
      x.Stage K dirs n (x.written k) k k'' .replyBlocked .ready [e] ∧ x.Delivered k k'' := by
  obtain ⟨hp, hcr3⟩ := h.since.paging hc hr.serverDir
  have hpkt : packetVia k'.mach.mem x.pktS = x.packetS k :=
    h.since.packet_eq hr.pktS.toBytes (by simp)
  have hpktS := hr.pktS.same hr.spaces hr.serverDir h.since.same
  have hinb : UserBuffer K k'.mach.mem k'.mach.cr3 (packetVia k'.mach.mem x.pktS).recvBuf
      (x.packetS k).recvLen.toNat x.inb := by
    rw [hpkt, hcr3]
    exact hr.inb.same hr.spaces hr.serverDir h.since.same
  rw [← hcr3] at hpktS
  -- the window shows the request
  have hreq : ∀ i < (x.packetS k).recvLen.toNat, physBytes (x.req 0) i = x.req i := fun i hi =>
    (hf i hi).1.symm
  have huser : ∀ i < (x.packetS k).recvLen.toNat, palignDown (physBytes (x.req 0) i) ∉ K := by
    intro i hi
    rw [hreq i hi]
    exact hr.req.toBytes.user i (lt_of_lt_of_le hi hr.reqLen)
  have hdisj : ∀ i < (x.packetS k).recvLen.toNat, ∀ j < (x.packetS k).recvLen.toNat,
      x.inb i ≠ physBytes (x.req 0) j := by
    intro i hi j hj heq
    rw [hreq j hj] at heq
    exact Set.disjoint_left.mp (hr.disjoint 3 4 (by decide))
      ⟨j, lt_of_lt_of_le hj hr.reqLen, rfl⟩ ⟨i, hi, heq.symm⟩
  obtain ⟨m, hrun, heff, hcopied, hsender⟩ := copyFromSender_user (q := x.sent k) hp
    (hw.sendBuf.same h.since.same) hpktS (by rw [hpkt]) hinb hr.req.pageOffset_first.symm
    (fun i hi => (hf i hi).2) huser hdisj fun i hi j hj heq =>
      Set.disjoint_left.mp (hr.disjoint 1 4 (by decide)) ⟨j, by omega, rfl⟩ ⟨i, hi, heq.symm⟩
  let k₁ : Kernel Unit := { k' with mach := m }
  refine ⟨{ k₁ with hist := k₁.hist ++ [.delivered e.origin x.server e.msg.sender] }, ?_, rfl, ?_,
    ?_⟩
  · unfold receive
    rw [run_bind_of_ok (run_get k'), h.queue]
    unfold takeMessage
    simp only
    rw [he, run_bind_of_ok (show onMach (copyFromSender (x.sent k) x.msgS) k' = .ok ((), k₁) from
      zoom_ok hrun)]
    rfl
  · rw [← Set.empty_union (x.written k)]
    exact h.step hr heff (SameNames.of_procs rfl rfl rfl) (fun _ _ _ => rfl) h.client h.server
      h.queue
  · refine ⟨fun i hi => ?_, hsender⟩
    rw [← h.since.bytes_eq hr.req.toBytes (by simp) i (lt_of_lt_of_le hi hr.reqLen), ← hreq i hi]
    exact hcopied i hi

theorem bytesOf_congr {f g : Nat → BitVec 32} (h : ∀ i < n, f i = g i) :
    bytesOf f n = bytesOf g n := by
  ext y
  constructor
  · rintro ⟨i, hi, rfl⟩
    exact ⟨i, hi, h i hi⟩
  · rintro ⟨i, hi, rfl⟩
    exact ⟨i, hi, (h i hi).symm⟩

/-- What a client that finds the server waiting does to the machine. -/
theorem Poised.fill_machine (hr : x.Poised K dirs l r k) (hw : x.WindowsFree K dirs k)
    (hf : Straight x.inb (x.packetS k).recvLen.toNat (x.packetS k).recvLen)
    (hfield : (pageOffset x.msgS).toNat + 4 ≤ 4096)
    (h : x.Stage K dirs (n + 1 + pagesOf (x.packetS k).recvLen) ∅ k k' stC stS q)
    (hc : k'.currentProc = some x.client) :
    ∃ m₁ m₂,
      fillSendSide (x.placeholder k) (k.procs x.client).pid x.msgC k'.mach
        = .ok (x.filled k, k'.mach) ∧
      copyToReceiver (x.filled k) x.msgC k'.mach = .ok ((), m₁) ∧
      reportSender (x.filled k) (k.procs x.client).pid m₁ = .ok ((), m₂) ∧
      fillRecvSide (x.filled k) x.msgC m₂ = .ok (x.full k, m₂) ∧
      Effect K dirs n (x.written k) k'.mach m₂ ∧ x.Delivered k { k' with mach := m₂ } := by
  obtain ⟨hp, hcr3⟩ := h.since.paging hc hr.clientDir
  have hpkt : packetVia k'.mach.mem x.pktC = x.packetC k := h.since.packet_eq hr.pktC (by simp)
  have hpktC := hr.pktC.same hr.spaces hr.clientDir h.since.same
  have hreq := hr.req.same hr.spaces hr.clientDir h.since.same
  rw [← hcr3] at hpktC hreq
  have hsend := fillSendSide_user (q := x.placeholder k) (k.procs x.client).pid hp hpktC
    (by rw [hpkt]; exact hreq)
  rw [hpkt] at hsend
  -- the window shows the buffer of the server
  have hinb : ∀ i < (x.packetS k).recvLen.toNat, physBytes (x.inb 0) i = x.inb i := fun i hi =>
    (hf i hi).1.symm
  obtain ⟨m₁, hcopy, heff₁, hcopied⟩ := copyToReceiver_user (q := x.filled k) (g := x.req) hp
    (hw.recvBuf.same h.since.same) hpktC (by rw [hpkt]; exact hreq.toBytes.le hr.reqLen)
    hr.inb.pageOffset_first.symm (fun i hi => (hf i hi).2)
    (fun i hi => by
      rw [show (x.filled k).physRecvBuf = x.inb 0 from rfl, hinb i hi]
      exact hr.inb.toBytes.user i hi)
    (fun i hi j hj heq => by
      rw [show (x.filled k).physRecvBuf = x.inb 0 from rfl, hinb i hi] at heq
      exact Set.disjoint_left.mp (hr.disjoint 3 4 (by decide))
        ⟨j, lt_of_lt_of_le hj hr.reqLen, rfl⟩ ⟨i, hi, heq.symm⟩)
  -- and the next one its packet
  have hpktS : ∀ i < 4, physBytes (x.pktS 0) i = x.pktS i := fun i hi =>
    ((hr.pktS.toBytes.le (k := 4) (by omega)).in_page hfield i hi).symm
  obtain ⟨m₂, hreport, heff₂, hword⟩ := reportSender_user (q := x.filled k)
    (k.procs x.client).pid heff₁.paging
    ((hw.packet.same h.since.same).same heff₁.spaces)
    (by
      rw [show (x.filled k).physMsgPacket = x.pktS 0 from rfl, hr.pktS.pageOffset_first]
      exact hfield)
    (fun i hi => by
      rw [show (x.filled k).physMsgPacket = x.pktS 0 from rfl, hpktS i hi]
      exact hr.pktS.toBytes.user i (by omega))
  have hwritten : x.written k = bytesOf (physBytes (x.filled k).physRecvBuf)
      (x.filled k).recvLen.toNat ∪ bytesOf (physBytes (x.filled k).physMsgPacket) 4 :=
    (congrArg₂ _ (bytesOf_congr hinb) (bytesOf_congr hpktS)).symm
  have heff : Effect K dirs n (x.written k) k'.mach m₂ := hwritten ▸ heff₁.trans heff₂
  -- its own packet is not among what it has written
  have hpkt₂ : packetVia m₂.mem x.pktC = x.packetC k := by
    rw [← hpkt]
    refine packetVia_congr fun i hi => heff.user _ (hr.pktC.user i hi) ?_
    exact Set.disjoint_left.mp (hr.disjoint_written 0 (by decide) (by decide)) ⟨i, hi, rfl⟩
  have hans₂ : UserBuffer K m₂.mem m₂.cr3 (x.packetC k).recvBuf (x.packetC k).recvLen.toNat
      x.ans := by
    rw [heff.cr3, hcr3]
    exact hr.ans.same hr.spaces hr.clientDir (h.since.same.trans heff.spaces)
  have hpktC₂ : UserBytes K m₂.mem m₂.cr3 x.msgC 36 x.pktC := by
    rw [heff.cr3]
    exact hpktC.same hp.spaces hp.current heff.spaces
  have hrecv := fillRecvSide_user (q := x.filled k) heff.paging hpktC₂ (by rw [hpkt₂]; exact hans₂)
  rw [hpkt₂] at hrecv
  refine ⟨m₁, m₂, hsend, hcopy, hreport, hrecv, heff, fun i hi => ?_, ?_⟩
  · have hone := hcopied i hi
    rw [show (x.filled k).physRecvBuf = x.inb 0 from rfl, hinb i hi,
      h.since.bytes_eq hr.req.toBytes (by simp) i (lt_of_lt_of_le hi hr.reqLen)] at hone
    rw [← hone]
    refine heff₂.user _ (hr.inb.toBytes.user i hi) ?_
    rintro ⟨j, hj, heq⟩
    exact Set.disjoint_left.mp (hr.disjoint 1 4 (by decide)) ⟨j, by omega, rfl⟩
      ⟨i, hi, (hpktS j hj).symm.trans heq.symm⟩
  · rw [← hword]
    exact wordVia_congr (k := 4) (fun i hi => congrArg m₂.mem (hpktS i hi).symm) (by omega)

/-- **The client sends to the waiting server**: it fills the placeholder, the buffer and the
    packet, and waits. -/
theorem Poised.send_fills {addr : BitVec 32} (hr : x.Poised K dirs l r k)
    (hw : x.WindowsFree K dirs k)
    (hf : Straight x.inb (x.packetS k).recvLen.toNat (x.packetS k).recvLen)
    (hfield : (pageOffset x.msgS).toNat + 4 ≤ 4096)
    (h : x.Stage K dirs (n + 1 + pagesOf (x.packetS k).recvLen) ∅ k k' .ready .recvBlocked
      [⟨addr, x.placeholder k, none⟩])
    (hc : k'.currentProc = some x.client) :
    ∃ e k'', sendTo x.client x.server x.msgC k' = .ok ((), k'') ∧
      k''.currentProc = k'.currentProc ∧
      x.Stage K dirs n (x.written k) k k'' .sendBlocked .ready [e] ∧ e.msg = x.full k ∧
      x.Delivered k k'' := by
  obtain ⟨m₁, m₂, hsend, hcopy, hreport, hrecv, heff, hdel⟩ := hr.fill_machine hw hf hfield h hc
  have hne := hr.distinct.symm
  rw [← h.since.pid] at hsend hreport
  have hfill := fillPlaceholder_runs hne h.queue hsend hcopy hreport hrecv
  let e : MsgPacketQueue := ⟨addr, x.full k, some ⟨k'.hist.length, x.client⟩⟩
  have hrun : sendTo x.client x.server x.msgC k' = fillPlaceholder x.client x.server x.msgC k' := by
    unfold sendTo
    rw [run_bind_of_ok (run_get k'), onlyIf, if_neg (by rw [h.server]; decide), h.server,
      run_bind_of_ok (run_pure () k')]
  refine ⟨e, _, hrun.trans hfill, rfl, ?_, rfl, hdel.bytes, hdel.sender⟩
  rw [← Set.empty_union (x.written k)]
  refine h.step hr heff ?_ (fun t ht ht' => ?_) ?_ ?_ ?_
  · have h₁ : SameNames k' (k'.updProc x.client fun p => { p with state := .sendBlocked }) :=
      updProc_sameNames rfl rfl rfl
    have h₂ := h₁.trans (updProc_sameNames (s := x.server)
      (f := fun p => { p with state := .ready, recvQueue := { p.recvQueue with msgs := [e] } })
      rfl rfl rfl)
    exact h₂.trans (SameNames.of_procs rfl rfl rfl)
  · simp [Kernel.updProc, ht, ht']
  · simp [Kernel.updProc, hr.distinct]
  · simp [Kernel.updProc]
  · simp [Kernel.updProc, e]

/-- What a server that replies does to the machine. -/
theorem Poised.reply_machine {e : MsgPacketQueue} (hr : x.Poised K dirs l r k)
    (hw : x.WindowsFree K dirs k)
    (hf : Straight x.ans (x.packetC k).recvLen.toNat (x.packetC k).recvLen)
    (h : x.Stage K dirs (n + pagesOf (x.packetC k).recvLen) (x.written k) k k' stC stS q)
    (hbuf : e.msg.recvBuf = (x.packetC k).recvBuf) (hlen : e.msg.recvLen = (x.packetC k).recvLen)
    (hphys : e.msg.physRecvBuf = x.ans 0) (hc : k'.currentProc = some x.server) :
    ∃ m, copyResponse e.msg x.msgR k'.mach = .ok ((), m) ∧
      Effect K dirs n (bytesOf x.ans (x.packetC k).recvLen.toNat) k'.mach m ∧
      ∀ i < (x.packetC k).recvLen.toNat, m.mem (x.ans i) = k.mach.mem (x.resp i) := by
  obtain ⟨hp, hcr3⟩ := h.since.paging hc hr.serverDir
  -- the request has changed neither the packet of the reply nor the response
  have hpkt : packetVia k'.mach.mem x.pktR = x.packetR k :=
    h.since.packet_eq hr.pktR (hr.disjoint_written 2 (by decide) (by decide))
  have hresp₀ := h.since.bytes_eq hr.resp (hr.disjoint_written 5 (by decide) (by decide))
  have hpktR := hr.pktR.same hr.spaces hr.serverDir h.since.same
  have hresp := (hr.resp.same hr.spaces hr.serverDir h.since.same).le hr.respLen
  rw [← hcr3] at hpktR hresp
  -- the window shows the buffer of the client
  have hans : ∀ i < (x.packetC k).recvLen.toNat, physBytes (x.ans 0) i = x.ans i := fun i hi =>
    (hf i hi).1.symm
  obtain ⟨m, hrun, heff, hcopied⟩ := copyResponse_user (q := e.msg) (n := n) (g := x.resp)
    (by rw [hlen]; exact hp) (by rw [hlen]; exact hw.reply.same h.since.same) hpktR
    (by rw [hpkt, hlen]; exact hresp) (by rw [hbuf, hphys]; exact hr.ans.pageOffset_first.symm)
    (by rw [hlen, hphys]; exact fun i hi => (hf i hi).2)
    (by
      rw [hlen, hphys]
      intro i hi
      rw [hans i hi]
      exact hr.ans.toBytes.user i hi)
    (by
      rw [hlen, hphys]
      intro i hi j hj heq
      rw [hans i hi] at heq
      exact Set.disjoint_left.mp (hr.disjoint 5 6 (by decide))
        ⟨j, lt_of_lt_of_le hj hr.respLen, rfl⟩ ⟨i, hi, heq.symm⟩)
  rw [hlen, hphys] at heff hcopied
  rw [bytesOf_congr hans] at heff
  refine ⟨m, hrun, heff, fun i hi => ?_⟩
  have hone := hcopied i hi
  rw [hans i hi, hresp₀ i (lt_of_lt_of_le hi hr.respLen)] at hone
  exact hone

/-- A reply to a process there is, from what it does to the machine. -/
theorem answerFirst_runs {c s : Slot} {msg : BitVec 32} {e : MsgPacketQueue} {m : Machine Unit}
    (hfind : k.procFindByPid e.msg.sender = some s)
    (hcopy : copyResponse e.msg msg k.mach = .ok ((), m)) :
    answerFirst c e msg k = .ok ((),
      { (k.updProc c fun p =>
          { p with recvQueue := { p.recvQueue with msgs := p.recvQueue.msgs.tail } }).updProc s
            fun p => { p with state := .ready } with
        mach := m
        heap := kfree k.heap e.addr
        hist := k.hist ++ [.replied e.origin c (some s)] }) := by
  unfold answerFirst
  rw [run_bind_of_ok (run_get k), hfind]
  simp only
  rw [run_bind_of_ok (onMach_runs (by rfl) hcopy)]
  rfl

/-- **The server replies**: it copies the response into the buffer of the client, which is ready
    again. -/
theorem Poised.reply_answers {e : MsgPacketQueue} (hr : x.Poised K dirs l r k)
    (hw : x.WindowsFree K dirs k)
    (hf : Straight x.ans (x.packetC k).recvLen.toNat (x.packetC k).recvLen)
    (h : x.Stage K dirs (n + pagesOf (x.packetC k).recvLen) (x.written k) k k' stC .ready [e])
    (hpid : e.msg.sender = (k.procs x.client).pid) (hbuf : e.msg.recvBuf = (x.packetC k).recvBuf)
    (hlen : e.msg.recvLen = (x.packetC k).recvLen) (hphys : e.msg.physRecvBuf = x.ans 0)
    (hc : k'.currentProc = some x.server) :
    ∃ k'', reply x.server x.msgR k' = .ok ((), k'') ∧ k''.currentProc = k'.currentProc ∧
      x.Stage K dirs n (x.written k ∪ bytesOf x.ans (x.packetC k).recvLen.toNat) k k''
        .ready .ready [] ∧
      (∀ y, palignDown y ∉ K → y ∉ bytesOf x.ans (x.packetC k).recvLen.toNat →
        k''.mach.mem y = k'.mach.mem y) ∧
      ∀ i < (x.packetC k).recvLen.toNat, k''.mach.mem (x.ans i) = k.mach.mem (x.resp i) := by
  have hne := hr.distinct.symm
  have hfind : k'.procFindByPid e.msg.sender = some x.client := by
    rw [hpid, ← h.since.pid]
    exact h.since.alive.named.find_pid
      ((h.since.inited _).trans (hr.alive.inited_of_ready hr.clientReady))
  obtain ⟨m, hcopy, heff, hcopied⟩ := hr.reply_machine hw hf h hbuf hlen hphys hc
  have hanswer := answerFirst_runs (c := x.server) hfind hcopy
  have hrun : reply x.server x.msgR k' = answerFirst x.server e x.msgR k' := by
    unfold reply
    rw [run_bind_of_ok (run_get k'), h.queue]
  refine ⟨_, hrun.trans hanswer, rfl, ?_, heff.user, hcopied⟩
  refine h.step hr heff ?_ (fun t ht ht' => ?_) ?_ ?_ ?_
  · have h₁ : SameNames k' (k'.updProc x.server fun p =>
        { p with recvQueue := { p.recvQueue with msgs := p.recvQueue.msgs.tail } }) :=
      updProc_sameNames rfl rfl rfl
    have h₂ := h₁.trans (updProc_sameNames (s := x.client)
      (f := fun p => { p with state := .ready }) rfl rfl rfl)
    exact h₂.trans (SameNames.of_procs rfl rfl rfl)
  · simp [Kernel.updProc, ht, ht']
  · simp [Kernel.updProc]
  · simp [Kernel.updProc, hne, h.server]
  · simp [Kernel.updProc, hne, h.queue]

end Exchange

end Leoman
