import Leoman.Rendezvous

namespace Leoman

open ByteMem StateExcept Runs

/-!
# The rendezvous, in either order

The client and the server call in turn, and other processes and timer interrupts may come
between.

* `Exchange.Met` — both have called: the request is delivered, the server is ready, the client
  waits and its packet is the first in the queue;
* `Exchange.Answered` — after the reply;
* `rendezvous_either_order` — both orders lead to `Met`, and from there the reply to `Answered`;
* `Exchange.Transfers` — what is asked of the data alone, for buffers that may cross pages.
-/

namespace Exchange

/-- Both have called.  Nothing here depends on who called first, but for the state in which the
    client waits. -/
structure Met (x : Exchange) (K dirs : Set (BitVec 32)) (k k' : Kernel Unit) : Prop where
  since : Since K dirs (pagesOf (x.packetC k).recvLen) (x.written k) k k'
  delivered : x.Delivered k k'
  client : (k'.procs x.client).state = .sendBlocked ∨ (k'.procs x.client).state = .replyBlocked
  server : (k'.procs x.server).state = .ready
  first : ∃ e, (k'.procs x.server).recvQueue.msgs = [e] ∧
    e.msg.sender = (k.procs x.client).pid ∧ e.msg.recvBuf = (x.packetC k).recvBuf ∧
    e.msg.recvLen = (x.packetC k).recvLen ∧ e.msg.physRecvBuf = x.ans 0

/-- The server has replied: both are ready, the queue is empty, the response is in the buffer of
    the client, the request still in that of the server, and no other user byte has changed since
    the beginning. -/
structure Answered (x : Exchange) (K dirs : Set (BitVec 32)) (k k' : Kernel Unit) : Prop where
  since : Since K dirs 0 (x.written k ∪ bytesOf x.ans (x.packetC k).recvLen.toNat) k k'
  client : (k'.procs x.client).state = .ready
  server : (k'.procs x.server).state = .ready
  queue : (k'.procs x.server).recvQueue.msgs = []
  delivered : x.Delivered k k'
  bytes : ∀ i < (x.packetC k).recvLen.toNat, k'.mach.mem (x.ans i) = k.mach.mem (x.resp i)

section Calls

variable {x : Exchange} {K dirs X : Set (BitVec 32)} {n l r : Nat} {k k' k'' : Kernel Unit}
  {stC stS : ProcState} {q : List MsgPacketQueue} {frame : BitVec 32}

/-- Nothing has happened yet. -/
theorem Poised.stage (hr : x.Poised K dirs l r k) (hsupply : Supply K dirs k.mach.mem n k.mach.pm) :
    x.Stage K dirs n ∅ k k .ready .ready [] :=
  ⟨⟨hr.alive, hr.spaces, hsupply, SameSpaces.refl, fun _ _ _ => rfl, fun _ => rfl, fun _ => rfl,
    fun _ => rfl, rfl⟩, hr.clientReady, hr.serverReady, hr.empty⟩

/-- A stage lasts until one of the two gets to run, and into its call. -/
theorem Stage.dispatched {c : Slot} {k₁ : Kernel Unit} (h : x.Stage K dirs n X k k' stC stS q)
    (hd : Dispatched k' c k₁) (hC : stC.blocked = true ∨ stC = .ready)
    (hS : stS.blocked = true ∨ stS = .ready) :
    x.Stage K dirs n X k { k₁ with schedulingEnabled := false } stC stS q :=
  (h.paused (hd.paused h.since.alive) hC hS).silent false

/-- The server calls `recv` first. -/
theorem Poised.recv_first (hr : x.Poised K dirs l r k)
    (hsupply : Supply K dirs k.mach.mem n k.mach.pm) :
    Completes k x.server (syscallRecvMsg x.msgS frame) fun k₂ => Running k₂ ∧
      ∃ addr, x.Stage K dirs n ∅ k k₂ .ready .recvBlocked [⟨addr, x.placeholder k, none⟩] := by
  have h := hr.stage hsupply
  refine completes_of_body (receive x.server x.msgS) frame
    (fun k₁ hd => syscallRecvMsg_start hd.current _ _)
    (fun k₁ hd => ?_) fun k₂ k₃ hst hp => ?_
  · obtain ⟨addr, k₂, hrun, hcur, hst⟩ := hr.receive_waits
      (h.dispatched hd (Or.inr rfl) (Or.inr rfl)) (hd.paused hr.alive).heap hd.current
    exact ⟨k₂, hrun, hcur, hst.since.alive, addr, hst⟩
  · obtain ⟨addr, hst⟩ := hst
    exact ⟨addr, hst.paused hp (Or.inr rfl) (Or.inl rfl)⟩

/-- The packet of the client names the server. -/
theorem Poised.receiver_found (hr : x.Poised K dirs l r k) (h : x.Stage K dirs n ∅ k k' stC stS q)
    (hc : k'.currentProc = some x.client) :
    load32 (receiverField x.msgC) k'.mach = .ok ((k.procs x.server).pid, k'.mach) ∧
      k'.procFindByPid (k.procs x.server).pid = some x.server := by
  obtain ⟨hp, hcr3⟩ := h.since.paging hc hr.clientDir
  have hpkt : packetVia k'.mach.mem x.pktC = x.packetC k := h.since.packet_eq hr.pktC (by simp)
  have hpktC := hr.pktC.same hr.spaces hr.clientDir h.since.same
  rw [← hcr3] at hpktC
  refine ⟨?_, ?_⟩
  · rw [← hr.receiver, ← hpkt]
    exact load32_user (j := 4) hpktC (by omega)
  · rw [← h.since.pid]
    exact h.since.alive.named.find_pid
      ((h.since.inited _).trans (hr.alive.inited_of_ready hr.serverReady))

/-- The client sends first. -/
theorem Poised.send_first (hr : x.Poised K dirs l r k)
    (hsupply : Supply K dirs k.mach.mem n k.mach.pm) :
    Completes k x.client (syscallSendMsg x.msgC frame) fun k₂ => Running k₂ ∧
      ∃ e, x.Stage K dirs n ∅ k k₂ .replyBlocked .ready [e] ∧ e.msg = x.sent k := by
  have h := hr.stage hsupply
  refine completes_of_body (sendTo x.client x.server x.msgC) frame (fun k₁ hd => ?_)
    (fun k₁ hd => ?_) fun k₂ k₃ hst hp => ?_
  · obtain ⟨hload, hfind⟩ := hr.receiver_found
      (h.paused (hd.paused hr.alive) (Or.inr rfl) (Or.inr rfl)) hd.current
    exact syscallSendMsg_start hd.current _ _ hload hfind
  · obtain ⟨e, k₂, hrun, hcur, hst, he⟩ := hr.send_queues
      (h.dispatched hd (Or.inr rfl) (Or.inr rfl)) (hd.paused hr.alive).heap hd.current
    exact ⟨k₂, hrun, hcur, hst.since.alive, e, hst, he⟩
  · obtain ⟨e, hst, he⟩ := hst
    exact ⟨e, hst.paused hp (Or.inl rfl) (Or.inr rfl), he⟩

/-- What has been delivered is not touched by scheduling decisions. -/
theorem Delivered.paused (h : x.Delivered k k') (hp : Paused k' k'') : x.Delivered k k'' := by
  refine ⟨?_, ?_⟩
  · rw [hp.mem]
    exact h.bytes
  · rw [hp.mem]
    exact h.sender

/-- Nor by the reply, which writes the buffer of the client. -/
theorem Delivered.reply (hr : x.Poised K dirs l r k) (h : x.Delivered k k')
    (huser : ∀ y, palignDown y ∉ K → y ∉ bytesOf x.ans (x.packetC k).recvLen.toNat →
      k''.mach.mem y = k'.mach.mem y) : x.Delivered k k'' := by
  refine ⟨fun i hi => ?_, ?_⟩
  · rw [← h.bytes i hi]
    exact huser _ (hr.inb.toBytes.user i hi)
      (Set.disjoint_left.mp (hr.disjoint 4 6 (by decide)) ⟨i, hi, rfl⟩)
  · rw [← h.sender]
    refine wordVia_congr (k := 4) (fun i hi => ?_) (by omega)
    exact huser _ (hr.pktS.toBytes.user i (by omega))
      (Set.disjoint_left.mp (hr.disjoint 1 6 (by decide)) ⟨i, by omega, rfl⟩)

/-- The server calls `recv` after the send. -/
theorem Poised.recv_second {e : MsgPacketQueue} (hr : x.Poised K dirs l r k)
    (hw : x.WindowsFree K dirs k)
    (hf : Straight x.req (x.packetS k).recvLen.toNat (x.packetC k).sendLen)
    (h : x.Stage K dirs (n + pagesOf (x.packetC k).sendLen) ∅ k k' .replyBlocked .ready [e])
    (he : e.msg = x.sent k) :
    Completes k' x.server (syscallRecvMsg x.msgS frame) fun k₂ => Running k₂ ∧
      x.Stage K dirs n (x.written k) k k₂ .replyBlocked .ready [e] ∧ x.Delivered k k₂ := by
  refine completes_of_body (receive x.server x.msgS) frame
    (fun k₁ hd => syscallRecvMsg_start hd.current _ _)
    (fun k₁ hd => ?_) fun k₂ k₃ hst hp => ?_
  · obtain ⟨k₂, hrun, hcur, hst, hdel⟩ := hr.receive_takes hw hf
      (h.dispatched hd (Or.inl rfl) (Or.inr rfl)) he hd.current
    exact ⟨k₂, hrun, hcur, hst.since.alive, hst, hdel⟩
  · exact ⟨hst.1.paused hp (Or.inl rfl) (Or.inr rfl), hst.2.paused hp⟩

/-- The client sends after the `recv`. -/
theorem Poised.send_second {addr : BitVec 32} (hr : x.Poised K dirs l r k)
    (hw : x.WindowsFree K dirs k)
    (hf : Straight x.inb (x.packetS k).recvLen.toNat (x.packetS k).recvLen)
    (hfield : (pageOffset x.msgS).toNat + 4 ≤ 4096)
    (h : x.Stage K dirs (n + 1 + pagesOf (x.packetS k).recvLen) ∅ k k' .ready .recvBlocked
      [⟨addr, x.placeholder k, none⟩]) :
    Completes k' x.client (syscallSendMsg x.msgC frame) fun k₂ => Running k₂ ∧
      ∃ e, x.Stage K dirs n (x.written k) k k₂ .sendBlocked .ready [e] ∧ e.msg = x.full k ∧
        x.Delivered k k₂ := by
  refine completes_of_body (sendTo x.client x.server x.msgC) frame (fun k₁ hd => ?_)
    (fun k₁ hd => ?_) fun k₂ k₃ hst hp => ?_
  · obtain ⟨hload, hfind⟩ := hr.receiver_found
      (h.paused (hd.paused h.since.alive) (Or.inr rfl) (Or.inl rfl)) hd.current
    exact syscallSendMsg_start hd.current _ _ hload hfind
  · obtain ⟨e, k₂, hrun, hcur, hst, he, hdel⟩ := hr.send_fills hw hf hfield
      (h.dispatched hd (Or.inr rfl) (Or.inl rfl)) hd.current
    exact ⟨k₂, hrun, hcur, hst.since.alive, e, hst, he, hdel⟩
  · obtain ⟨e, hst, he, hdel⟩ := hst
    exact ⟨e, hst.paused hp (Or.inl rfl) (Or.inr rfl), he, hdel.paused hp⟩

/-- **`recv` then send.** -/
theorem Poised.recv_then_send (hr : x.Poised K dirs l r k) (hw : x.WindowsFree K dirs k)
    (hf : Straight x.inb (x.packetS k).recvLen.toNat (x.packetS k).recvLen)
    (hfield : (pageOffset x.msgS).toNat + 4 ≤ 4096) (f₁ f₂ : BitVec 32) :
    Completes k x.server (syscallRecvMsg x.msgS f₁) fun k₁ => Due k₁ x.client ∧
      Completes k₁ x.client (syscallSendMsg x.msgC f₂) fun k₂ =>
        Running k₂ ∧ x.Met K dirs k k₂ := by
  have hsupply : Supply K dirs k.mach.mem
      (pagesOf (x.packetC k).recvLen + 1 + pagesOf (x.packetS k).recvLen) k.mach.pm :=
    hw.supply.mono (by omega)
  refine (hr.recv_first hsupply).mono fun k₁ h₁ => ?_
  obtain ⟨hrun₁, addr, hst₁⟩ := h₁
  refine ⟨⟨hst₁.since.alive, hrun₁, hst₁.client⟩, ?_⟩
  refine (hr.send_second hw hf hfield hst₁).mono fun k₂ h₂ => ?_
  obtain ⟨hrun, e, hst₂, he, hdel⟩ := h₂
  exact ⟨hrun, hst₂.since, hdel, Or.inl hst₂.client, hst₂.server, e, hst₂.queue, by rw [he]; rfl,
    by rw [he]; rfl, by rw [he]; rfl, by rw [he]; rfl⟩

/-- **Send then `recv`.** -/
theorem Poised.send_then_recv (hr : x.Poised K dirs l r k) (hw : x.WindowsFree K dirs k)
    (hf : Straight x.req (x.packetS k).recvLen.toNat (x.packetC k).sendLen) (f₁ f₂ : BitVec 32) :
    Completes k x.client (syscallSendMsg x.msgC f₁) fun k₁ => Due k₁ x.server ∧
      Completes k₁ x.server (syscallRecvMsg x.msgS f₂) fun k₂ =>
        Running k₂ ∧ x.Met K dirs k k₂ := by
  have hsupply : Supply K dirs k.mach.mem
      (pagesOf (x.packetC k).recvLen + pagesOf (x.packetC k).sendLen) k.mach.pm :=
    hw.supply.mono (by omega)
  refine (hr.send_first hsupply).mono fun k₁ h₁ => ?_
  obtain ⟨hrun₁, e, hst₁, he⟩ := h₁
  refine ⟨⟨hst₁.since.alive, hrun₁, hst₁.server⟩, ?_⟩
  refine (hr.recv_second hw hf hst₁ he).mono fun k₂ h₂ => ?_
  obtain ⟨hrun, hst₂, hdel⟩ := h₂
  exact ⟨hrun, hst₂.since, hdel, Or.inr hst₂.client, hst₂.server, e, hst₂.queue, by rw [he]; rfl,
    by rw [he]; rfl, by rw [he]; rfl, by rw [he]; rfl⟩

/-- The server can reply. -/
theorem Met.due (h : x.Met K dirs k k') (hrun : Running k') : Due k' x.server :=
  ⟨h.since.alive, hrun, h.server⟩

/-- The stage in which the reply finds the two. -/
theorem Met.stage (h : x.Met K dirs k k') : ∃ stC e, stC.blocked = true ∧
    x.Stage K dirs (0 + pagesOf (x.packetC k).recvLen) (x.written k) k k' stC .ready [e] ∧
    e.msg.sender = (k.procs x.client).pid ∧ e.msg.recvBuf = (x.packetC k).recvBuf ∧
    e.msg.recvLen = (x.packetC k).recvLen ∧ e.msg.physRecvBuf = x.ans 0 := by
  obtain ⟨e, hq, hmsg⟩ := h.first
  have hsince : Since K dirs (0 + pagesOf (x.packetC k).recvLen) (x.written k) k k' :=
    h.since.mono (by omega) le_rfl
  rcases h.client with hC | hC
  · exact ⟨_, e, rfl, ⟨hsince, hC, h.server, hq⟩, hmsg⟩
  · exact ⟨_, e, rfl, ⟨hsince, hC, h.server, hq⟩, hmsg⟩

/-- **The reply**, in whichever order the two have met. -/
theorem Poised.reply_after (hr : x.Poised K dirs l r k) (hw : x.WindowsFree K dirs k)
    (hf : Straight x.ans (x.packetC k).recvLen.toNat (x.packetC k).recvLen)
    (h : x.Met K dirs k k') (frame : BitVec 32) :
    Completes k' x.server (syscallRplyMsg x.msgR frame) (x.Answered K dirs k) := by
  obtain ⟨stC, e, hblocked, hst, hpid, hbuf, hlen, hphys⟩ := h.stage
  refine (completes_of_body (P := x.Answered K dirs k) (reply x.server x.msgR) frame
    (fun k₁ hd => syscallRplyMsg_start hd.current _ _) (fun k₁ hd => ?_)
    fun k₂ k₃ ha hp => ?_).mono fun _ h => h.2
  · obtain ⟨k₂, hrun, hcur, hst₂, huser, hbytes⟩ := hr.reply_answers hw hf
      (hst.dispatched hd (Or.inl hblocked) (Or.inr rfl)) hpid hbuf hlen hphys hd.current
    exact ⟨k₂, hrun, hcur, hst₂.since.alive, hst₂.since, hst₂.client, hst₂.server, hst₂.queue,
      Delivered.reply hr (h.delivered.paused (hd.paused h.since.alive)) huser, hbytes⟩
  · have hst₃ := (⟨ha.since, ha.client, ha.server, ha.queue⟩ : x.Stage _ _ _ _ _ _ _ _ _).paused hp
      (Or.inr rfl) (Or.inr rfl)
    refine ⟨hst₃.since, hst₃.client, hst₃.server, hst₃.queue, ha.delivered.paused hp, ?_⟩
    rw [hp.mem]
    exact ha.bytes

end Calls

/-! ### Buffers within pages -/

/-- Every packet and every buffer lies within one page. -/
structure Paged (x : Exchange) (k : Kernel Unit) : Prop where
  pktC : (pageOffset x.msgC).toNat + 36 ≤ 4096
  pktS : (pageOffset x.msgS).toNat + 36 ≤ 4096
  pktR : (pageOffset x.msgR).toNat + 36 ≤ 4096
  req : (pageOffset (x.packetC k).sendBuf).toNat + (x.packetC k).sendLen.toNat ≤ 4096
  inb : (pageOffset (x.packetS k).recvBuf).toNat + (x.packetS k).recvLen.toNat ≤ 4096
  resp : (pageOffset (x.packetR k).sendBuf).toNat + (x.packetR k).sendLen.toNat ≤ 4096
  ans : (pageOffset (x.packetC k).recvBuf).toNat + (x.packetC k).recvLen.toNat ≤ 4096

section Pages

variable {x : Exchange} {K dirs : Set (BitVec 32)} {k : Kernel Unit}

/-- A page of bytes lies on one page, from its start. -/
theorem pagesOf_le_one (len : BitVec 32) (h : len.toNat ≤ 4096) : pagesOf len ≤ 1 := by
  unfold pagesOf
  split <;> omega

/-- A window for at most a page is free when its first page is. -/
theorem freeWindow_of_page {mem : Mem} {W len : BitVec 32} (hW : W.toNat % 4096 = 0)
    (hend : W.toNat + 4096 ≤ 0xffc00000) (hlen : len.toNat ≤ 4096)
    (hclosed : Closed dirs mem {W}) : FreeWindow dirs mem W len := by
  have hone := pagesOf_le_one len hlen
  refine ⟨hW, by omega, fun E hE q hq => hclosed E hE q ?_⟩
  obtain ⟨i, hi, rfl⟩ := hq
  obtain rfl : i = 0 := by omega
  exact pageAt_zero

/-- A buffer within one page is physically consecutive and ends within the pages mapped for any
    length it has room in. -/
theorem straight_of_page {mem : Mem} {D v len : BitVec 32} {n l : Nat} {f : Nat → BitVec 32}
    (h : UserBuffer K mem D v n f) (hpage : (pageOffset v).toNat + n ≤ 4096) (hl : l ≤ n)
    (hlen : l ≤ len.toNat) : Straight f l len := by
  intro i hi
  have hpos : 0 < pagesOf len := pagesOf_pos (by omega)
  refine ⟨h.toBytes.in_page hpage i (by omega), ?_⟩
  rw [h.pageOffset_first]
  omega

/-- Within pages, the three first window pages are enough, … -/
theorem Paged.windowsFree (hp : x.Paged k)
    (hclosed : Closed dirs k.mach.mem {recvBufWindow, msgWindow, replyWindow})
    (hsupply : Supply K dirs k.mach.mem 3 k.mach.pm) : x.WindowsFree K dirs k := by
  have hreq := hp.req
  have hinb := hp.inb
  have hans := hp.ans
  refine ⟨?_, ?_, ?_, ?_, ?_⟩
  · exact freeWindow_of_page (by decide) (by decide) (by omega) fun E hE q hq =>
      hclosed E hE q (Or.inl hq)
  · exact freeWindow_of_page (by decide) (by decide) (by decide) fun E hE q hq =>
      hclosed E hE q (Or.inr (Or.inl hq))
  · exact freeWindow_of_page (by decide) (by decide) (by omega) fun E hE q hq =>
      hclosed E hE q (Or.inr (Or.inl hq))
  · exact freeWindow_of_page (by decide) (by decide) (by omega) fun E hE q hq =>
      hclosed E hE q (Or.inr (Or.inr hq))
  · refine hsupply.mono ?_
    have h₁ := pagesOf_le_one (x.packetC k).sendLen (by omega)
    have h₂ := pagesOf_le_one (x.packetS k).recvLen (by omega)
    have h₃ := pagesOf_le_one (x.packetC k).recvLen (by omega)
    omega

/-- … and the windows show what the buffers are. -/
theorem Ready.fits_of_paged (hr : x.Ready K dirs k) (hp : x.Paged k) : x.Fits k := by
  have hpkt := hp.pktS
  exact ⟨straight_of_page hr.inb hp.inb le_rfl le_rfl,
    straight_of_page hr.req hp.req hr.reqLen hr.reqLen,
    straight_of_page hr.ans hp.ans le_rfl le_rfl, by omega⟩

/-- **The order of the rendezvous does not matter.**  Packets and buffers are pairwise disjoint
    and each within a mapped page, the buffers sent are as long as those received into, the three
    window pages are not mapped, and `pm_alloc` hands out cleared frames.  Whoever calls first,
    the server or the client, the calls complete, each with the next caller due, and then: the
    first bytes of the request are in the buffer of the server and the pid of the client in its
    packet; the server is ready and the client waits; the first packet of the queue is that of the
    client.  The reply leaves both ready, the queue empty and the response in the buffer of the
    client; and no other user byte has changed since the beginning. -/
theorem rendezvous_either_order (hr : x.Ready K dirs k) (hp : x.Paged k)
    (hclosed : Closed dirs k.mach.mem {recvBufWindow, msgWindow, replyWindow})
    (hsupply : Supply K dirs k.mach.mem 3 k.mach.pm) (f₁ f₂ f₃ : BitVec 32) :
    (Completes k x.server (syscallRecvMsg x.msgS f₁) fun k₁ => Due k₁ x.client ∧
      Completes k₁ x.client (syscallSendMsg x.msgC f₂) fun k₂ =>
        Due k₂ x.server ∧ x.Met K dirs k k₂ ∧
        Completes k₂ x.server (syscallRplyMsg x.msgR f₃) (x.Answered K dirs k)) ∧
    (Completes k x.client (syscallSendMsg x.msgC f₂) fun k₁ => Due k₁ x.server ∧
      Completes k₁ x.server (syscallRecvMsg x.msgS f₁) fun k₂ =>
        Due k₂ x.server ∧ x.Met K dirs k k₂ ∧
        Completes k₂ x.server (syscallRplyMsg x.msgR f₃) (x.Answered K dirs k)) := by
  have hw := hp.windowsFree hclosed hsupply
  have hf := hr.fits_of_paged hp
  -- in both orders the reply starts from the same description
  have hreply : ∀ k₂, Running k₂ ∧ x.Met K dirs k k₂ → Due k₂ x.server ∧ x.Met K dirs k k₂ ∧
      Completes k₂ x.server (syscallRplyMsg x.msgR f₃) (x.Answered K dirs k) := fun k₂ h =>
    ⟨h.2.due h.1, h.2, hr.poised.reply_after hw hf.ans h.2 f₃⟩
  exact ⟨(hr.poised.recv_then_send hw hf.inb hf.pktS f₁ f₂).mono fun k₁ h =>
      ⟨h.1, h.2.mono hreply⟩,
    (hr.poised.send_then_recv hw hf.req f₂ f₁).mono fun k₁ h => ⟨h.1, h.2.mono hreply⟩⟩

end Pages

/-! ### A small system -/

/-- Two address spaces: the directory of the client at `0x1000` with its table at `0x3000`, that
    of the server at `0x2000` with its table at `0x4000`.  Page `0x5000` of the client is frame
    `0x5000`, the page after it is frame `0x8000`; page `0x5000` of the server is frame `0x6000`.
    The packet of the client is at `0x5000`, those of the server are at `0x5000` and `0x5040`; all
    buffers have two bytes, and that of the request may cross into the next page. -/
def exchangeWords (crossing : Bool) : List (BitVec 32 × BitVec 32) :=
  [(0x1000#32, 0x3007#32), (0x1ffc#32, 0x1003#32), (0x2000#32, 0x4007#32), (0x2ffc#32, 0x2003#32),
   (0x3014#32, 0x5007#32), (0x3018#32, 0x8007#32), (0x4014#32, 0x6007#32),
   (0x5004#32, 2#32), (0x5008#32, if crossing then 0x5fff#32 else 0x5100#32),
   (0x500c#32, 0x5200#32), (0x5010#32, 2#32), (0x5014#32, 2#32), (0x5100#32, 0x3412#32),
   (0x600c#32, 0x5100#32), (0x6014#32, 2#32),
   (0x6048#32, 0x5140#32), (0x6050#32, 2#32), (0x6140#32, 0x7856#32)]

/-- Four processes: the kernel's, idle, the server and the client, which runs. -/
def exchangeKernel (crossing : Bool) : Kernel Unit :=
  { Kernel.initial ⟨writeAll (fun _ => 0#8) (exchangeWords crossing), 0x1000#32, (),
      ⟨fun _ => 0#32, 0xe0100000#32⟩⟩ (heapInit fun _ => 0#8) with
    procs := fun s =>
      { pid := if s.val < 4 then BitVec.ofNat 32 s.val else 0xffffffff#32
        state := if s.val < 4 then .ready else .unused
        name := Vector.replicate 32 0#8, privileged := true, trapframe := 0#32, kstack := 0#32
        pdir := if s.val = 2 then 0x2000#32 else 0x1000#32
        recvQueue := ⟨decide (s.val < 4), [], []⟩ }
    nextPid := 4#32
    idle := some (procAt 1)
    currentProc := some (procAt 3)
    schedulingEnabled := true
    cursor := 2 }

/-- Where its packets and buffers are. -/
def smallExchange (crossing : Bool) : Exchange where
  client := procAt 3
  server := procAt 2
  msgC := 0x5000#32
  msgS := 0x5000#32
  msgR := 0x5040#32
  pktC := physBytes 0x5000#32
  pktS := physBytes 0x6000#32
  pktR := physBytes 0x6040#32
  req := if crossing then fun i => if i = 0 then 0x5fff#32 else 0x7fff#32 + BitVec.ofNat 32 i
    else physBytes 0x5100#32
  inb := physBytes 0x6100#32
  resp := physBytes 0x6140#32
  ans := physBytes 0x5200#32

/-- The tables, and the frames `pm_alloc` has left. -/
def exchangeTables : List (BitVec 32) :=
  [0x1000#32, 0x2000#32, 0x3000#32, 0x4000#32, 0x100000#32, 0x101000#32, 0x102000#32]

/-- The directories of the two processes. -/
def exchangeDirs : List (BitVec 32) := [0x1000#32, 0x2000#32]

section Small

variable {b : Bool}

/-- The two entries of the directories. -/
theorem exchange_entries (b : Bool) {D : BitVec 32} (hD : D ∈ exchangeDirs) :
    palignDown D = D ∧ (D.toNat = 0x1000 ∨ D.toNat = 0x2000) ∧
      palignDown (tableEntry (exchangeKernel b).mach.mem D 0#32) = D + 0x2000#32 ∧
      Recursive (exchangeKernel b).mach.mem D := by
  rw [exchangeDirs, List.mem_pair] at hD
  rcases hD with rfl | rfl
  · cases b <;> decide +kernel
  · cases b <;> decide +kernel

/-- The words stored in the frames of the directories. -/
theorem exchange_words (b : Bool) {u : BitVec 32 × BitVec 32} (hu : u ∈ exchangeWords b) :
    u.1.toNat % 4 = 0 ∧ u.1.toNat < 0x10000 ∧
    (u.1.toNat / 4096 = 1 → u.1.toNat = 0x1000 ∨ u.1.toNat = 0x1ffc) ∧
    (u.1.toNat / 4096 = 2 → u.1.toNat = 0x2000 ∨ u.1.toNat = 0x2ffc) := by
  -- as a test of the list, which does not range over all words
  have htest : (exchangeWords b).all (fun u => decide (u.1.toNat % 4 = 0 ∧ u.1.toNat < 0x10000 ∧
      (u.1.toNat / 4096 = 1 → u.1.toNat = 0x1000 ∨ u.1.toNat = 0x1ffc) ∧
      (u.1.toNat / 4096 = 2 → u.1.toNat = 0x2000 ∨ u.1.toNat = 0x2ffc))) = true := by
    cases b <;> decide +kernel
  exact of_decide_eq_true (List.all_eq_true.mp htest u hu)

/-- There are no others. -/
theorem oneTable_exchange (b : Bool) {D : BitVec 32} (hD : D ∈ exchangeDirs) :
    OneTable (exchangeKernel b).mach.mem D (D + 0x2000#32) := by
  obtain ⟨-, hDn, htable, hself⟩ := exchange_entries b hD
  have hmem : (exchangeKernel b).mach.mem = writeAll (fun _ => 0#8) (exchangeWords b) := rfl
  rw [hmem] at htable hself ⊢
  refine oneTable_of_words (by omega) hself htable fun u hu => ?_
  obtain ⟨h4, -, hone, htwo⟩ := exchange_words b hu
  exact ⟨h4, by omega⟩

/-- Each directory has a table for the first region, and itself. -/
theorem pdeOf_exchange {D w : BitVec 32} (hD : D ∈ exchangeDirs)
    (hp : Present (pdeOf (exchangeKernel b).mach.mem D w)) :
    (vmPdirIdx w = 0#32 ∧ palignDown (pdeOf (exchangeKernel b).mach.mem D w) = D + 0x2000#32) ∨
      (vmPdirIdx w = 1023#32 ∧ palignDown (pdeOf (exchangeKernel b).mach.mem D w) = D) :=
  (oneTable_exchange b hD).slots w hp

/-- The two address spaces are well formed together. -/
theorem spaces_exchange : Spaces {F | F ∈ exchangeTables} {D | D ∈ exchangeDirs}
    (exchangeKernel b).mach.mem := by
  have htab : ∀ D ∈ exchangeDirs, D ∈ exchangeTables ∧ D + 0x2000#32 ∈ exchangeTables := by
    intro D hD
    rw [exchangeDirs, List.mem_pair] at hD
    rcases hD with rfl | rfl
    · decide
    · decide
  have hne : ∀ D ∈ exchangeDirs, ∀ E ∈ exchangeDirs, D + 0x2000#32 ≠ E := by
    intro D hD E hE heq
    have := congrArg BitVec.toNat heq
    rw [BitVec.toNat_add, BitVec.toNat_ofNat] at this
    have := (exchange_entries b hD).2.1
    have := (exchange_entries b hE).2.1
    omega
  exact spaces_of_oneTable (fun D hD => ⟨oneTable_exchange b hD, htab D hD⟩) hne

/-- Three cleared frames are left. -/
theorem supply_exchange : Supply {F | F ∈ exchangeTables} {D | D ∈ exchangeDirs}
    (exchangeKernel b).mach.mem 3 (exchangeKernel b).mach.pm := by
  have hnext : nextFrames 3 (exchangeKernel b).mach.pm
      = [0x100000#32, 0x101000#32, 0x102000#32] := by
    cases b <;> decide +kernel
  have hlow : ∀ D ∈ exchangeDirs, D.toNat < 0x100000 ∧ (D + 0x2000#32).toNat < 0x100000 := by
    intro D hD
    have := (exchange_entries b hD).2.1
    rw [BitVec.toNat_add, BitVec.toNat_ofNat]
    omega
  have hmem : (exchangeKernel b).mach.mem = writeAll (fun _ => 0#8) (exchangeWords b) := rfl
  have hone := fun D hD => And.intro (@oneTable_exchange b D hD) (hlow D hD)
  rw [hmem] at hone ⊢
  refine supply_of_oneTable hone (fun u hu => ?_) ?_ ?_
  · obtain ⟨-, hword, -, -⟩ := exchange_words b hu
    omega
  · rw [hnext]
    decide
  · rw [hnext]
    intro F hF
    simp only [List.mem_cons, List.not_mem_nil, or_false] at hF
    rcases hF with rfl | rfl | rfl <;> decide

/-- Memory in which the tables of the small system are as they were at first. -/
def SameTables (mem : Mem) : Prop :=
  ∀ x, palignDown x ∈ exchangeTables → mem x = (exchangeKernel false).mach.mem x

/-- So they are in any memory with the same tables. -/
theorem spaces_sameTables {mem : Mem} (h : SameTables mem) :
    Spaces {F | F ∈ exchangeTables} {D | D ∈ exchangeDirs} mem :=
  (spaces_exchange (b := false)).of_agree h

/-- The user memory of the small system is in the frames from `0x5000` on. -/
theorem SameTables.writeAll {mem : Mem} {words : List (BitVec 32 × BitVec 32)}
    (h : SameTables mem)
    (hwords : words.all (fun u => decide (0x5000 ≤ u.1.toNat ∧ u.1.toNat + 4 ≤ 0x7000)) = true) :
    SameTables (writeAll mem words) := by
  have htables : exchangeTables.all
      (fun F => decide (F.toNat < 0x5000 ∨ 0x7000 ≤ F.toNat)) = true := by
    decide
  intro x hx
  have hframe := of_decide_eq_true (List.all_eq_true.mp htables _ hx)
  rw [← h x hx]
  refine writeAll_of_not_inRange fun u hu hin => ?_
  have hu' := of_decide_eq_true (List.all_eq_true.mp hwords u hu)
  rw [inRange_iff (by omega)] at hin
  rw [palignDown_toNat] at hframe
  omega

/-- What its packets say. -/
theorem packets_exchange (b : Bool) :
    (smallExchange b).packetC (exchangeKernel b) = ⟨0#32, 2#32, if b then 0x5fff#32 else 0x5100#32,
      0x5200#32, 2#32, 2#32, 0#32, 0#32, 0#32⟩ ∧
    (smallExchange b).packetS (exchangeKernel b) = ⟨0#32, 0#32, 0#32, 0x5100#32, 0#32, 2#32, 0#32,
      0#32, 0#32⟩ ∧
    (smallExchange b).packetR (exchangeKernel b) = ⟨0#32, 0#32, 0x5140#32, 0#32, 2#32, 0#32, 0#32,
      0#32, 0#32⟩ := by
  cases b <;> decide +kernel

/-- A buffer of the small system, within a page. -/
theorem buffer_exchange {D v p : BitVec 32} {n : Nat}
    (h : hwTranslate (exchangeKernel b).mach.mem D v = some p ∧ palignDown p ∉ exchangeTables ∧
      (pageOffset v).toNat + max n 1 ≤ 4096 ∧
      pteOf (exchangeKernel b).mach.mem D v &&& 0xc00#32 = 0#32) :
    UserBuffer {F | F ∈ exchangeTables} (exchangeKernel b).mach.mem D v n (physBytes p) :=
  userBuffer_of_page h.1 h.2.1 h.2.2.1 h.2.2.2

/-- The request of the small system, within a page or across two. -/
theorem request_exchange (b : Bool) :
    UserBuffer {F | F ∈ exchangeTables} (exchangeKernel b).mach.mem 0x1000#32
      ((smallExchange b).packetC (exchangeKernel b)).sendBuf 2 (smallExchange b).req := by
  rw [(packets_exchange b).1]
  refine ⟨⟨?_, ?_⟩, ?_, ?_⟩
  · cases b <;> decide +kernel
  · show ∀ i < 2, palignDown ((smallExchange b).req i) ∉ exchangeTables
    cases b <;> decide +kernel
  · cases b <;> decide +kernel
  · cases b <;> decide +kernel

/-- Byte ranges that share no byte, as sets. -/
theorem pairwise_bytesOf {l : List ((Nat → BitVec 32) × Nat)}
    (h : l.Pairwise fun f g => ∀ i < f.2, ∀ j < g.2, f.1 i ≠ g.1 j) :
    (l.map fun f => bytesOf f.1 f.2).Pairwise Disjoint := by
  refine List.pairwise_map.mpr (h.imp fun {f g} hfg => Set.disjoint_left.mpr ?_)
  rintro y ⟨i, hi, rfl⟩ ⟨j, hj, heq⟩
  exact hfg i hi j hj heq

/-- The packets and buffers are apart. -/
theorem apart_exchange (b : Bool) :
    ((smallExchange b).regions (exchangeKernel b)).Pairwise Disjoint := by
  obtain ⟨hC, hS, hR⟩ := packets_exchange b
  rw [regions, hC, hS, hR]
  exact pairwise_bytesOf (l := [((smallExchange b).pktC, 36), ((smallExchange b).pktS, 36),
    ((smallExchange b).pktR, 36), ((smallExchange b).req, 2), ((smallExchange b).inb, 2),
    ((smallExchange b).resp, 2), ((smallExchange b).ans, 2)]) (by cases b <;> decide +kernel)

/-- The scheduler can run in it. -/
theorem alive_exchange (b : Bool) : Alive (exchangeKernel b) := by
  refine ⟨⟨?_, ?_, ?_⟩, ⟨_, rfl⟩, ?_⟩
  · cases b <;> decide
  · cases b <;> decide
  · cases b <;> decide
  · intro c hc
    obtain rfl := Option.some.inj hc
    rfl

/-- **The small system is ready.** -/
theorem ready_exchange (b : Bool) : (smallExchange b).Ready {F | F ∈ exchangeTables}
    {D | D ∈ exchangeDirs} (exchangeKernel b) := by
  obtain ⟨hC, hS, hR⟩ := packets_exchange b
  have hheap :
      (kalloc (exchangeKernel b).heap msgPacketQueueSize).map (fun r => decide (r.1 ≠ 0#32))
      = some true := by
    cases b <;> decide +kernel
  refine ⟨alive_exchange b, ?_, rfl, rfl, rfl, ?_, List.mem_cons_self,
    List.mem_cons_of_mem _ List.mem_cons_self, spaces_exchange, ?_, ?_, ?_, ?_, ?_, ?_, ?_,
    ?_, ?_, ?_, apart_exchange b⟩
  · cases b <;> decide
  · cases hk : kalloc (exchangeKernel b).heap msgPacketQueueSize with
    | none => simp [hk] at hheap
    | some r =>
      rw [hk, Option.map_some, Option.some.injEq, decide_eq_true_eq] at hheap
      exact ⟨r.1, r.2, rfl, hheap⟩
  · rw [hC]
    rfl
  · exact (buffer_exchange (n := 36) (by cases b <;> decide +kernel)).toBytes
  · exact buffer_exchange (by cases b <;> decide +kernel)
  · exact (buffer_exchange (n := 36) (by cases b <;> decide +kernel)).toBytes
  · have hreq := request_exchange b
    rw [hC] at hreq ⊢
    exact hreq
  · rw [hS]
    exact buffer_exchange (by cases b <;> decide +kernel)
  · rw [hR]
    exact (buffer_exchange (n := 2) (by cases b <;> decide +kernel)).toBytes
  · rw [hC]
    exact buffer_exchange (by cases b <;> decide +kernel)
  · rw [hS, hC]
  · rw [hC, hR]

/-- Nothing is mapped in the regions in between. -/
theorem unmapped_exchange {D q : BitVec 32} (hD : D ∈ exchangeDirs) (h₀ : vmPdirIdx q ≠ 0#32)
    (h₁ : vmPdirIdx q ≠ 1023#32) : walk (exchangeKernel b).mach.mem D q = none :=
  (oneTable_exchange b hD).unmapped h₀ h₁

/-- The windows of the calls are closed. -/
theorem closed_exchange : Closed {D | D ∈ exchangeDirs} (exchangeKernel b).mach.mem
    {recvBufWindow, msgWindow, replyWindow} := by
  rintro D hD q (rfl | rfl | rfl)
  · exact unmapped_exchange hD (by decide) (by decide)
  · exact unmapped_exchange hD (by decide) (by decide)
  · exact unmapped_exchange hD (by decide) (by decide)

/-- Its packets and buffers lie within pages. -/
theorem paged_exchange : (smallExchange false).Paged (exchangeKernel false) := by
  obtain ⟨hC, hS, hR⟩ := packets_exchange false
  refine ⟨by decide, by decide, by decide, ?_, ?_, ?_, ?_⟩
  · rw [hC]
    decide
  · rw [hS]
    decide
  · rw [hR]
    decide
  · rw [hC]
    decide

/-- In the small system the client sends, the server receives, and they have met. -/
theorem rendezvous_either_order_small : ∃ k₁ k₂,
    syscallSendMsg 0x5000#32 0#32 (exchangeKernel false) = .ok ((), k₁) ∧
      syscallRecvMsg 0x5000#32 0#32 k₁ = .ok ((), k₂) ∧
      (smallExchange false).Met {F | F ∈ exchangeTables} {D | D ∈ exchangeDirs}
        (exchangeKernel false) k₂ := by
  have htest : (syscallSendMsg 0x5000#32 0#32 (exchangeKernel false)).toOption.map (fun r =>
      decide (r.2.currentProc = some (smallExchange false).server)) = some true := by
    decide +kernel
  obtain ⟨_, k₁, hsend, hserver⟩ := ok_of_test htest
  rw [decide_eq_true_eq] at hserver
  have horder := (rendezvous_either_order (ready_exchange false) paged_exchange closed_exchange
    supply_exchange 0#32 0#32 0#32).2
  -- the client runs at first, and the server after the send
  obtain ⟨k₁', hsend', hrest⟩ := horder (exchangeKernel false) ⟨[], Run.start, rfl⟩
  obtain ⟨-, rfl⟩ := Prod.mk.inj (Except.ok.inj (hsend.symm.trans hsend'))
  obtain ⟨k₂, hrecv, -, hmet, -⟩ := hrest.2 k₁ ⟨[], Run.start, hserver⟩
  exact ⟨k₁, k₂, hsend, hrecv, hmet⟩

end Small

end Exchange

end Leoman
