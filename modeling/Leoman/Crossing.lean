import Leoman.EitherOrder

namespace Leoman

open ByteMem StateExcept Runs

/-!
# Buffers that cross pages

A call records the physical address of the first byte of a buffer, maps as many pages at a fixed
window as the length alone asks for, and adds the offset into the page afterwards.  So the bytes
are the right ones only where the buffer is physically consecutive, and the last ones are in the
window only where offset and length together need no further page.

* `Exchange.Transfers` — whoever calls first, the request and the response arrive;
* `Exchange.Consecutive`, `Exchange.InWindows` — the two conditions;
* `data_transfer` — they are enough, and for consecutive buffers the second is necessary;
* `crossing_request_faults` — a buffer of two bytes across two pages.
-/

namespace Exchange

/-- Whoever calls first, when both have called the request is in the buffer of the server, and
    after the reply the response is in that of the client. -/
def Transfers (x : Exchange) (k : Kernel Unit) : Prop :=
  let request (k₂ : Kernel Unit) : Prop :=
    ∀ i < (x.packetC k).sendLen.toNat, k₂.mach.mem (x.inb i) = k.mach.mem (x.req i)
  let response (k₃ : Kernel Unit) : Prop :=
    ∀ i < (x.packetC k).recvLen.toNat, k₃.mach.mem (x.ans i) = k.mach.mem (x.resp i)
  ∀ f₁ f₂ f₃,
    (Completes k x.server (syscallRecvMsg x.msgS f₁) fun k₁ =>
      Completes k₁ x.client (syscallSendMsg x.msgC f₂) fun k₂ => request k₂ ∧
        Completes k₂ x.server (syscallRplyMsg x.msgR f₃) response) ∧
    (Completes k x.client (syscallSendMsg x.msgC f₂) fun k₁ =>
      Completes k₁ x.server (syscallRecvMsg x.msgS f₁) fun k₂ => request k₂ ∧
        Completes k₂ x.server (syscallRplyMsg x.msgR f₃) response)

/-- The buffers seen through windows are physically consecutive. -/
structure Consecutive (x : Exchange) (k : Kernel Unit) : Prop where
  inb : ∀ i < (x.packetS k).recvLen.toNat, x.inb i = physBytes (x.inb 0) i
  req : ∀ i < (x.packetC k).sendLen.toNat, x.req i = physBytes (x.req 0) i
  ans : ∀ i < (x.packetC k).recvLen.toNat, x.ans i = physBytes (x.ans 0) i

/-- They end within the pages `map_pages` maps for their lengths. -/
structure InWindows (x : Exchange) (k : Kernel Unit) : Prop where
  inb : ∀ i < (x.packetS k).recvLen.toNat,
    (pageOffset (x.inb 0)).toNat + i < 4096 * pagesOf (x.packetS k).recvLen
  req : ∀ i < (x.packetS k).recvLen.toNat,
    (pageOffset (x.req 0)).toNat + i < 4096 * pagesOf (x.packetC k).sendLen
  ans : ∀ i < (x.packetC k).recvLen.toNat,
    (pageOffset (x.ans 0)).toNat + i < 4096 * pagesOf (x.packetC k).recvLen

/-- The scheduler runs, neither of the two is the idle process, and the pages after the windows
    are not mapped either. -/
structure Guarded (x : Exchange) (k : Kernel Unit) : Prop where
  running : Running k
  client : k.idle ≠ some x.client
  server : k.idle ≠ some x.server
  recvBuf : GuardPage k.mach.mem (k.procs x.client).pdir recvBufWindow (x.packetS k).recvLen
  sendBuf : GuardPage k.mach.mem (k.procs x.server).pdir msgWindow (x.packetC k).sendLen
  reply : GuardPage k.mach.mem (k.procs x.server).pdir replyWindow (x.packetC k).recvLen

section Crossing

variable {x : Exchange} {K dirs X : Set (BitVec 32)} {n : Nat} {k k' k'' : Kernel Unit}
  {stC stS : ProcState} {q : List MsgPacketQueue} {frame : BitVec 32}

/-! ### What a call that completes says of the buffers -/

/-- A `recv` after the send. -/
theorem Ready.receive_fits {e : MsgPacketQueue} (hr : x.Ready K dirs k)
    (hw : x.WindowsFree K dirs k)
    (hg : GuardPage k.mach.mem (k.procs x.server).pdir msgWindow (x.packetC k).sendLen)
    (h : x.Stage K dirs (n + pagesOf (x.packetC k).sendLen) ∅ k k' stC stS [e])
    (he : e.msg = x.sent k) (hc : k'.currentProc = some x.server)
    (hrun : receive x.server x.msgS k' = .ok ((), k'')) :
    ∀ i < (x.packetS k).recvLen.toNat,
      (pageOffset (x.req 0)).toNat + i < 4096 * pagesOf (x.packetC k).sendLen := by
  obtain ⟨hp, hcr3⟩ := h.since.paging hc hr.serverDir
  have hpkt : packetVia k'.mach.mem x.pktS = x.packetS k :=
    h.since.packet_eq hr.pktS.toBytes (by simp)
  have hpktS := (hr.pktS.same hr.spaces hr.serverDir h.since.same).toBytes
  have hinb := (hr.inb.same hr.spaces hr.serverDir h.since.same).toBytes
  have hguard := hg.same hr.serverDir h.since.same
  rw [← hcr3] at hpktS hinb hguard
  -- the body is the copy, and the copy completes
  rcases receive_ok hrun with ⟨hempty, -⟩ | ⟨e', rest, m, hq, hcopy, -⟩
  · exact absurd (h.queue.symm.trans hempty) (by simp)
  · obtain ⟨rfl, -⟩ := List.cons.inj (h.queue.symm.trans hq)
    rw [he] at hcopy
    exact copyFromSender_fits (q := x.sent k) hp (hw.sendBuf.same h.since.same) hguard hpktS
      (by rw [hpkt]) hr.reqLen (by rw [hpkt]; exact hinb) hr.req.pageOffset_first.symm hcopy

/-- A send to a server that waits. -/
theorem Ready.send_fits {addr : BitVec 32} (hr : x.Ready K dirs k) (hw : x.WindowsFree K dirs k)
    (hcons : ∀ i < (x.packetS k).recvLen.toNat, x.inb i = physBytes (x.inb 0) i)
    (hg : GuardPage k.mach.mem (k.procs x.client).pdir recvBufWindow (x.packetS k).recvLen)
    (h : x.Stage K dirs (n + 1 + pagesOf (x.packetS k).recvLen) ∅ k k' .ready .recvBlocked
      [⟨addr, x.placeholder k, none⟩])
    (hc : k'.currentProc = some x.client)
    (hrun : sendTo x.client x.server x.msgC k' = .ok ((), k'')) :
    ∀ i < (x.packetS k).recvLen.toNat,
      (pageOffset (x.inb 0)).toNat + i < 4096 * pagesOf (x.packetS k).recvLen := by
  obtain ⟨hp, hcr3⟩ := h.since.paging hc hr.clientDir
  have hpkt : packetVia k'.mach.mem x.pktC = x.packetC k := h.since.packet_eq hr.pktC (by simp)
  have hpktC := hr.pktC.same hr.spaces hr.clientDir h.since.same
  have hreq := hr.req.same hr.spaces hr.clientDir h.since.same
  have hguard := hg.same hr.clientDir h.since.same
  rw [← hcr3] at hpktC hreq hguard
  have hsend := fillSendSide_user (q := x.placeholder k) (k.procs x.client).pid hp hpktC
    (by rw [hpkt]; exact hreq)
  rw [hpkt] at hsend
  rcases sendTo_ok hrun with ⟨-, hfill⟩ | ⟨hne, -⟩
  · -- up to the copy the body only fills in the placeholder
    obtain ⟨e, rest, filled, m₁, m₂, m₃, full, hq, hfilled, hcopy, -⟩ := fillPlaceholder_ok hfill
    obtain ⟨rfl, -⟩ := List.cons.inj (h.queue.symm.trans hq)
    rw [h.since.pid] at hfilled
    obtain ⟨rfl, rfl⟩ := Prod.mk.inj (Except.ok.inj (hsend.symm.trans hfilled))
    refine copyThrough_fits (q := x.filled k) rfl hp (hw.recvBuf.same h.since.same) hguard hpktC
      hr.inb.pageOffset_first.symm (fun i hi => ?_) hcopy
    rw [show (x.filled k).physRecvBuf = x.inb 0 from rfl, ← hcons i hi]
    exact hr.inb.toBytes.user i hi
  · exact absurd h.server hne

/-- The reply. -/
theorem Ready.reply_fits {e : MsgPacketQueue} (hr : x.Ready K dirs k)
    (hw : x.WindowsFree K dirs k)
    (hcons : ∀ i < (x.packetC k).recvLen.toNat, x.ans i = physBytes (x.ans 0) i)
    (hg : GuardPage k.mach.mem (k.procs x.server).pdir replyWindow (x.packetC k).recvLen)
    (h : x.Stage K dirs (n + pagesOf (x.packetC k).recvLen) (x.written k) k k' stC .ready [e])
    (hbuf : e.msg.recvBuf = (x.packetC k).recvBuf) (hlen : e.msg.recvLen = (x.packetC k).recvLen)
    (hphys : e.msg.physRecvBuf = x.ans 0) (hc : k'.currentProc = some x.server)
    (hrun : reply x.server x.msgR k' = .ok ((), k'')) :
    ∀ i < (x.packetC k).recvLen.toNat,
      (pageOffset (x.ans 0)).toNat + i < 4096 * pagesOf (x.packetC k).recvLen := by
  obtain ⟨hp, hcr3⟩ := h.since.paging hc hr.serverDir
  have hpktR := hr.pktR.same hr.spaces hr.serverDir h.since.same
  have hguard := hg.same hr.serverDir h.since.same
  rw [← hcr3] at hpktR hguard
  rcases reply_ok hrun with ⟨hempty, -⟩ | ⟨e', rest, m, k₁, hq, hcopy, -⟩
  · exact absurd (h.queue.symm.trans hempty) (by simp)
  · obtain ⟨rfl, -⟩ := List.cons.inj (h.queue.symm.trans hq)
    have hfit := copyThrough_fits (q := e.msg) (n := n) rfl (by rw [hlen]; exact hp)
      (by rw [hlen]; exact hw.reply.same h.since.same) (by rw [hlen]; exact hguard) hpktR
      (by rw [hbuf, hphys]; exact hr.ans.pageOffset_first.symm)
      (by
        rw [hlen, hphys]
        intro i hi
        rw [← hcons i hi]
        exact hr.ans.toBytes.user i hi)
      hcopy
    rwa [hlen, hphys] at hfit

/-! ### The data arrives -/

/-- Consecutive buffers within their windows: the data arrives in both orders. -/
theorem Ready.transfers (hr : x.Ready K dirs k) (hw : x.WindowsFree K dirs k)
    (hfield : (pageOffset x.msgS).toNat + 4 ≤ 4096)
    (hlen : (x.packetC k).sendLen = (x.packetS k).recvLen) (hcons : x.Consecutive k)
    (hin : x.InWindows k) : x.Transfers k := by
  have hinb : Straight x.inb (x.packetS k).recvLen.toNat (x.packetS k).recvLen := fun i hi =>
    ⟨hcons.inb i hi, hin.inb i hi⟩
  have hreq : Straight x.req (x.packetS k).recvLen.toNat (x.packetC k).sendLen := fun i hi =>
    ⟨hcons.req i (hlen ▸ hi), hin.req i hi⟩
  have hans : Straight x.ans (x.packetC k).recvLen.toNat (x.packetC k).recvLen := fun i hi =>
    ⟨hcons.ans i hi, hin.ans i hi⟩
  intro f₁ f₂ f₃
  have hreply : ∀ k₂, Running k₂ ∧ x.Met K dirs k k₂ →
      (∀ i < (x.packetC k).sendLen.toNat, k₂.mach.mem (x.inb i) = k.mach.mem (x.req i)) ∧
      Completes k₂ x.server (syscallRplyMsg x.msgR f₃) fun k₃ =>
        ∀ i < (x.packetC k).recvLen.toNat, k₃.mach.mem (x.ans i) = k.mach.mem (x.resp i) := by
    intro k₂ h
    refine ⟨?_, (hr.poised.reply_after hw hans h.2 f₃).mono fun k₃ ha => ha.bytes⟩
    rw [hlen]
    exact h.2.delivered.bytes
  exact ⟨(hr.poised.recv_then_send hw hinb hfield f₁ f₂).mono fun k₁ h => h.2.mono hreply,
    (hr.poised.send_then_recv hw hreq f₂ f₁).mono fun k₁ h => h.2.mono hreply⟩

/-- If the request arrives when the client sends first, its buffer is in the window. -/
theorem Transfers.req_in_window (ht : x.Transfers k) (hr : x.Ready K dirs k)
    (hw : x.WindowsFree K dirs k) (hg : x.Guarded k) : ∀ i < (x.packetS k).recvLen.toNat,
      (pageOffset (x.req 0)).toNat + i < 4096 * pagesOf (x.packetC k).sendLen := by
  have hsupply : Supply K dirs k.mach.mem (0 + pagesOf (x.packetC k).sendLen) k.mach.pm :=
    hw.supply.mono (by omega)
  obtain ⟨-, k₁, -, -, ⟨hrun₁, e, hst₁, he⟩, hrecv⟩ := Completes.reach
    ((hr.poised.send_first hsupply).and (ht 0#32 0#32 0#32).2)
    ⟨hr.alive, hg.running, hr.clientReady⟩ hg.client
  obtain ⟨k₂, k₃, hd, hcall, -⟩ := Completes.reach hrecv ⟨hst₁.since.alive, hrun₁, hst₁.server⟩
    (by rw [hst₁.since.idle]; exact hg.server)
  rw [syscallRecvMsg_start hd.current] at hcall
  obtain ⟨_, k₄, hbody, -⟩ := bind_ok_iff.mp hcall
  exact hr.receive_fits hw hg.sendBuf (hst₁.dispatched hd (Or.inl rfl) (Or.inr rfl)) he hd.current
    hbody

/-- If it arrives when the server receives first, the buffer of the server is. -/
theorem Transfers.inb_in_window (ht : x.Transfers k) (hr : x.Ready K dirs k)
    (hw : x.WindowsFree K dirs k) (hcons : x.Consecutive k) (hg : x.Guarded k) :
    ∀ i < (x.packetS k).recvLen.toNat,
      (pageOffset (x.inb 0)).toNat + i < 4096 * pagesOf (x.packetS k).recvLen := by
  have hsupply : Supply K dirs k.mach.mem (0 + 1 + pagesOf (x.packetS k).recvLen) k.mach.pm :=
    hw.supply.mono (by omega)
  obtain ⟨-, k₁, -, -, ⟨hrun₁, addr, hst₁⟩, hsend⟩ := Completes.reach
    ((hr.poised.recv_first hsupply).and (ht 0#32 0#32 0#32).1)
    ⟨hr.alive, hg.running, hr.serverReady⟩ hg.server
  obtain ⟨k₂, k₃, hd, hcall, -⟩ := Completes.reach hsend ⟨hst₁.since.alive, hrun₁, hst₁.client⟩
    (by rw [hst₁.since.idle]; exact hg.client)
  obtain ⟨hload, hfind⟩ := hr.poised.receiver_found
    (hst₁.paused (hd.paused hst₁.since.alive) (Or.inr rfl) (Or.inl rfl)) hd.current
  rw [syscallSendMsg_start hd.current _ _ hload hfind] at hcall
  obtain ⟨_, k₄, hbody, -⟩ := bind_ok_iff.mp hcall
  exact hr.send_fits hw hcons.inb hg.recvBuf (hst₁.dispatched hd (Or.inr rfl) (Or.inl rfl))
    hd.current hbody

/-- If the response arrives, the buffer of the client is. -/
theorem Transfers.ans_in_window (ht : x.Transfers k) (hr : x.Ready K dirs k)
    (hw : x.WindowsFree K dirs k) (hfield : (pageOffset x.msgS).toNat + 4 ≤ 4096)
    (hcons : x.Consecutive k) (hg : x.Guarded k) : ∀ i < (x.packetC k).recvLen.toNat,
      (pageOffset (x.ans 0)).toNat + i < 4096 * pagesOf (x.packetC k).recvLen := by
  have hinb := ht.inb_in_window hr hw hcons hg
  have hmeet :=
    hr.poised.recv_then_send hw (fun i hi => ⟨hcons.inb i hi, hinb i hi⟩) hfield 0#32 0#32
  have hsupply : Supply K dirs k.mach.mem 0 k.mach.pm := hw.supply.mono (by omega)
  obtain ⟨-, k₁, -, -, ⟨⟨-, addr, hst₁⟩, hdue₁, hmeet₁⟩, hsend⟩ := Completes.reach
    (((hr.poised.recv_first hsupply).and hmeet).and (ht 0#32 0#32 0#32).1)
    ⟨hr.alive, hg.running, hr.serverReady⟩ hg.server
  obtain ⟨-, k₂, -, -, ⟨hrun₂, hmet⟩, -, hreply⟩ := Completes.reach (hmeet₁.and hsend) hdue₁
    (by rw [hst₁.since.idle]; exact hg.client)
  obtain ⟨k₃, k₄, hd, hcall, -⟩ := Completes.reach hreply (hmet.due hrun₂)
    (by rw [hmet.since.idle]; exact hg.server)
  rw [syscallRplyMsg_start hd.current] at hcall
  obtain ⟨_, k₅, hbody, -⟩ := bind_ok_iff.mp hcall
  obtain ⟨stC, e, hblocked, hst, -, hbuf, hlen, hphys⟩ := hmet.stage
  exact hr.reply_fits hw hcons.ans hg.reply (hst.dispatched hd (Or.inl hblocked) (Or.inr rfl)) hbuf
    hlen hphys hd.current hbody

/-- **IPC data transfer.**  Take buffers in mapped user pages, at any offset and over any frames,
    with equal lengths on both sides.  If the buffers seen through windows are physically
    consecutive and end within the pages mapped for their lengths, then whoever calls first the
    request arrives, and after the reply the response does.  And for consecutive buffers this is
    exact: if the data arrives in both orders, they end within these pages. -/
theorem data_transfer (hr : x.Ready K dirs k) (hw : x.WindowsFree K dirs k)
    (hfield : (pageOffset x.msgS).toNat + 4 ≤ 4096)
    (hlen : (x.packetC k).sendLen = (x.packetS k).recvLen) (hcons : x.Consecutive k) :
    (x.InWindows k → x.Transfers k) ∧ (x.Guarded k → (x.Transfers k ↔ x.InWindows k)) := by
  have henough := hr.transfers hw hfield hlen hcons
  refine ⟨henough, fun hg => ⟨fun ht => ⟨?_, ?_, ?_⟩, henough⟩⟩
  · exact ht.inb_in_window hr hw hcons hg
  · exact ht.req_in_window hr hw hg
  · exact ht.ans_in_window hr hw hfield hcons hg

end Crossing

/-! ### The small system -/

theorem lengths_exchange (b : Bool) :
    ((smallExchange b).packetC (exchangeKernel b)).sendLen = 2#32 ∧
    ((smallExchange b).packetC (exchangeKernel b)).recvLen = 2#32 ∧
    ((smallExchange b).packetS (exchangeKernel b)).recvLen = 2#32 ∧
    ((smallExchange b).packetR (exchangeKernel b)).sendLen = 2#32 := by
  obtain ⟨hC, hS, hR⟩ := packets_exchange b
  rw [hC, hS, hR]
  exact ⟨rfl, rfl, rfl, rfl⟩

theorem windowsFree_exchange (b : Bool) : (smallExchange b).WindowsFree {F | F ∈ exchangeTables}
    {D | D ∈ exchangeDirs} (exchangeKernel b) := by
  obtain ⟨hsend, hrecv, hrecvS, -⟩ := lengths_exchange b
  have hfree : ∀ W ∈ ({recvBufWindow, msgWindow, replyWindow} : Set (BitVec 32)),
      W.toNat % 4096 = 0 → W.toNat + 4096 ≤ 0xffc00000 → ∀ len : BitVec 32, len.toNat ≤ 4096 →
        FreeWindow {D | D ∈ exchangeDirs} (exchangeKernel b).mach.mem W len := by
    intro W hW hal hend len hlen
    refine freeWindow_of_page hal hend hlen fun E hE q hq => closed_exchange E hE q ?_
    rwa [Set.mem_singleton_iff.mp hq]
  refine ⟨?_, ?_, ?_, ?_, ?_⟩
  · exact hfree _ (Or.inl rfl) (by decide) (by decide) _ (by rw [hrecvS]; decide)
  · exact hfree _ (Or.inr (Or.inl rfl)) (by decide) (by decide) _ (by decide)
  · exact hfree _ (Or.inr (Or.inl rfl)) (by decide) (by decide) _ (by rw [hsend]; decide)
  · exact hfree _ (Or.inr (Or.inr rfl)) (by decide) (by decide) _ (by rw [hrecv]; decide)
  · rw [hsend, hrecv, hrecvS]
    exact supply_exchange

/-- Within pages the data arrives. -/
theorem data_transfer_small : (smallExchange false).Transfers (exchangeKernel false) := by
  obtain ⟨hsend, -, hrecvS, -⟩ := lengths_exchange false
  have hlen := hsend.trans hrecvS.symm
  have hfits := (ready_exchange false).fits_of_paged paged_exchange
  have hcons : (smallExchange false).Consecutive (exchangeKernel false) :=
    ⟨fun i hi => (hfits.inb i hi).1, fun i hi => (hfits.req i (hlen ▸ hi)).1,
      fun i hi => (hfits.ans i hi).1⟩
  exact (data_transfer (ready_exchange false) (windowsFree_exchange false) hfits.pktS hlen hcons).1
    ⟨fun i hi => (hfits.inb i hi).2, fun i hi => (hfits.req i hi).2,
      fun i hi => (hfits.ans i hi).2⟩

/-- **A request of two bytes across two pages.**  One page is mapped for two bytes: the server
    faults on the second one. -/
theorem crossing_request_faults : ∃ (x : Exchange) (K dirs : Set (BitVec 32)) (k : Kernel Unit),
    x.Ready K dirs k ∧ x.WindowsFree K dirs k ∧ (x.packetC k).sendLen = (x.packetS k).recvLen ∧
      (x.packetR k).sendLen = (x.packetC k).recvLen ∧ ¬ x.Transfers k := by
  obtain ⟨hsend, hrecv, hrecvS, hresp⟩ := lengths_exchange true
  refine ⟨smallExchange true, _, _, exchangeKernel true, ready_exchange true,
    windowsFree_exchange true, hsend.trans hrecvS.symm, hresp.trans hrecv.symm, fun ht => ?_⟩
  have htest : (syscallSendMsg 0x5000#32 0#32 (exchangeKernel true)).toOption.map (fun r =>
      decide (r.2.currentProc = some (smallExchange true).server) &&
        (syscallRecvMsg 0x5000#32 0#32 r.2).toOption.isNone) = some true := by
    decide +kernel
  obtain ⟨_, k₁, hfirst, htests⟩ := ok_of_test htest
  rw [Bool.and_eq_true, decide_eq_true_eq] at htests
  -- the client runs at first, and the server after the send
  obtain ⟨k₁', hfirst', hrest⟩ := (ht 0#32 0#32 0#32).2 (exchangeKernel true) ⟨[], Run.start, rfl⟩
  obtain ⟨-, rfl⟩ := Prod.mk.inj (Except.ok.inj (hfirst.symm.trans hfirst'))
  obtain ⟨k₂, hsecond, -⟩ := hrest k₁ ⟨[], Run.start, htests.1⟩
  have hnone := htests.2
  rw [show syscallRecvMsg 0x5000#32 0#32 k₁ = _ from hsecond] at hnone
  exact Bool.noConfusion hnone

end Exchange

end Leoman
