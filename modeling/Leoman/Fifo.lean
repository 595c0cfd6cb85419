import Leoman.Synchronous

namespace Leoman

open ByteMem StateExcept Runs

/-!
# First come, first served

Clients that only send, and servers that, like `msg_dispatcher`, alternate one `recv` and one
reply.  A packet reaches a server on one of two ways, through the placeholder of its `recv` or
through the tail of its queue, and leaves it with the reply.

* `sentTo`, `deliveredTo`, `repliedBy` — the history of one server;
* `Board.Ledger` — the three stages of a server, with its history in each;
* `Board.Served` — the invariant over all servers and clients;
* `first_come_first_served` — in every run deliveries follow the order of the sends, replies
  follow the deliveries, and a sender waits until the reply to its own packet.
-/

/-! ### The history of a server -/

/-- The send to `s` an event is. -/
def IpcEvent.asSent (s : Slot) : IpcEvent → Option Origin
  | .sent o dst => if dst = s then some o else none
  | .delivered _ _ _ | .replied _ _ _ => none

/-- The delivery to `s` an event is. -/
def IpcEvent.asDelivered (s : Slot) : IpcEvent → Option (Option Origin × BitVec 32)
  | .delivered o dst reported => if dst = s then some (o, reported) else none
  | .sent _ _ | .replied _ _ _ => none

/-- The reply by `s` an event is. -/
def IpcEvent.asReplied (s : Slot) : IpcEvent → Option (Option Origin × Option Slot)
  | .replied o dst woken => if dst = s then some (o, woken) else none
  | .sent _ _ | .delivered _ _ _ => none

/-- The sends to `s`, in the order they were made. -/
def sentTo (s : Slot) (hist : List IpcEvent) : List Origin :=
  hist.filterMap (IpcEvent.asSent s)

/-- What the `recv` calls of `s` delivered, with the sender each reported. -/
def deliveredTo (s : Slot) (hist : List IpcEvent) : List (Option Origin × BitVec 32) :=
  hist.filterMap (IpcEvent.asDelivered s)

/-- The packets `s` replied to, with the process each reply woke. -/
def repliedBy (s : Slot) (hist : List IpcEvent) : List (Option Origin × Option Slot) :=
  hist.filterMap (IpcEvent.asReplied s)

section History

variable (s : Slot) (hist hist' : List IpcEvent) (e : IpcEvent)

/-- What was sent by the end of two histories, … -/
@[simp] theorem sentTo_append : sentTo s (hist ++ hist') = sentTo s hist ++ sentTo s hist' :=
  List.filterMap_append

/-- … what was delivered … -/
@[simp] theorem deliveredTo_append :
    deliveredTo s (hist ++ hist') = deliveredTo s hist ++ deliveredTo s hist' :=
  List.filterMap_append

/-- … and what was answered. -/
@[simp] theorem repliedBy_append :
    repliedBy s (hist ++ hist') = repliedBy s hist ++ repliedBy s hist' :=
  List.filterMap_append

/-- One event more: it is a send to `s`, or none, … -/
@[simp] theorem sentTo_cons : sentTo s (e :: hist) = (e.asSent s).toList ++ sentTo s hist := by
  cases h : e.asSent s <;> simp [sentTo, h]

/-- … a delivery … -/
@[simp] theorem deliveredTo_cons :
    deliveredTo s (e :: hist) = (e.asDelivered s).toList ++ deliveredTo s hist := by
  cases h : e.asDelivered s <;> simp [deliveredTo, h]

/-- … or an answer. -/
@[simp] theorem repliedBy_cons :
    repliedBy s (e :: hist) = (e.asReplied s).toList ++ repliedBy s hist := by
  cases h : e.asReplied s <;> simp [repliedBy, h]

/-- Without events nothing was sent, … -/
@[simp] theorem sentTo_nil : sentTo s [] = [] := rfl

/-- … delivered … -/
@[simp] theorem deliveredTo_nil : deliveredTo s [] = [] := rfl

/-- … or answered. -/
@[simp] theorem repliedBy_nil : repliedBy s [] = [] := rfl

end History

attribute [simp] IpcEvent.asSent IpcEvent.asDelivered IpcEvent.asReplied

namespace Board

variable {b b' : Board} {s c r : Slot} {server busy : Slot → Bool}

/-! ### The stages of a server -/

/-- The history of `s`: what was sent to it, what it was delivered, and what it replied to.  Each
    delivery reports the pid of the sender and each reply wakes the sender. -/
def Log (b : Board) (s : Slot) (sent delivered replied : List Origin) : Prop :=
  sentTo s b.hist = sent ∧
  deliveredTo s b.hist = delivered.map (fun o => (some o, b.pid o.src)) ∧
  repliedBy s b.hist = replied.map (fun o => (some o, some o.src))

/-- The stage of a server.  The index says whether its next call is the reply. -/
inductive Ledger (b : Board) (s : Slot) : Bool → Prop
  /-- Between a reply and the next `recv`: everything not replied to is queued. -/
  | free (done todo : List Origin) : b.state s ≠ .recvBlocked →
    b.Log s (done ++ todo) done done →
    (b.queue s).map MsgPacketQueue.origin = todo.map some → Ledger b s false
  /-- Asleep in `recv`: everything has been replied to. -/
  | waiting (done : List Origin) : b.state s = .recvBlocked → b.Log s done done done →
    Ledger b s true
  /-- Between a `recv` and its reply: the delivered packet is the first of the queue. -/
  | serving (done todo : List Origin) (o : Origin) : b.state s ≠ .recvBlocked →
    b.Log s (done ++ o :: todo) (done ++ [o]) done →
    (b.queue s).map MsgPacketQueue.origin = (o :: todo).map some → Ledger b s true

/-- What leaves a server and its history alone leaves its stage alone. -/
theorem Ledger.of_same {pc : Bool} (h : b.Ledger s pc) (hst : b'.state s = b.state s ∨
      b'.state s ≠ .recvBlocked ∧ b.state s ≠ .recvBlocked)
    (hq : b'.queue s = b.queue s) (hpid : b'.pid = b.pid)
    (hsent : sentTo s b'.hist = sentTo s b.hist)
    (hdel : deliveredTo s b'.hist = deliveredTo s b.hist)
    (hrep : repliedBy s b'.hist = repliedBy s b.hist) : b'.Ledger s pc := by
  have hrecv : b'.state s = .recvBlocked ↔ b.state s = .recvBlocked := by
    rcases hst with hst | ⟨h₁, h₂⟩
    · rw [hst]
    · exact iff_of_false h₁ h₂
  have hlog : ∀ {x y z}, b.Log s x y z → b'.Log s x y z := by
    intro x y z hl
    unfold Log
    rw [hsent, hdel, hrep, hpid]
    exact hl
  cases h with
  | free done todo h₁ h₂ h₃ => exact .free done todo (hrecv.not.mpr h₁) (hlog h₂) (hq ▸ h₃)
  | waiting done h₁ h₂ => exact .waiting done (hrecv.mpr h₁) (hlog h₂)
  | serving done todo o h₁ h₂ h₃ =>
    exact .serving done todo o (hrecv.not.mpr h₁) (hlog h₂) (hq ▸ h₃)

/-- In every stage the sends are those replied to, then one that is being served or none, then
    those that wait, and the queue holds all but the first. -/
theorem Ledger.parts {pc : Bool} (h : b.Ledger s pc) : ∃ done cur todo : List Origin,
    b.Log s (done ++ (cur ++ todo)) (done ++ cur) done ∧
    ∀ o ∈ cur ++ todo, ∃ n ∈ b.queue s, n.origin = some o := by
  have hmem : ∀ {l : List Origin}, (b.queue s).map MsgPacketQueue.origin = l.map some →
      ∀ o ∈ l, ∃ n ∈ b.queue s, n.origin = some o := by
    intro l hq o ho
    have : some o ∈ (b.queue s).map MsgPacketQueue.origin := by
      rw [hq]
      exact List.mem_map_of_mem ho
    exact List.mem_map.mp this
  cases h with
  | free done todo _ hlog hq => exact ⟨done, [], todo, by simpa using hlog, hmem hq⟩
  | waiting done _ hlog => exact ⟨done, [], [], by simpa using hlog, by simp⟩
  | serving done todo o _ hlog hq => exact ⟨done, [o], todo, hlog, hmem hq⟩

/-- A sender fills the placeholder of a sleeping server. -/
theorem Ledger.fill {pc : Bool} {o : Origin} {n : MsgPacketQueue} (h : b.Ledger s pc)
    (hst : b.state s = .recvBlocked) (hst' : b'.state s ≠ .recvBlocked) (hpid : b'.pid = b.pid)
    (hq : b'.queue s = [n]) (ho : n.origin = some o)
    (hhist : b'.hist = b.hist ++ [.sent o s] ++ [.delivered (some o) s (b.pid o.src)]) :
    b'.Ledger s pc := by
  cases h with
  | free _ _ h₁ | serving _ _ _ h₁ => exact absurd hst h₁
  | waiting done h₁ h₂ =>
    obtain ⟨hs, hd, hr⟩ := h₂
    refine .serving done [] o hst' ⟨?_, ?_, ?_⟩ (by simp [hq, ho])
    · simp [hhist, hs]
    · simp [hhist, hd, hpid]
    · simp [hhist, hr]

/-- A sender queues a packet for a server that is awake. -/
theorem Ledger.push {pc : Bool} {o : Origin} {n : MsgPacketQueue} (h : b.Ledger s pc)
    (hst : b.state s ≠ .recvBlocked) (hst' : b'.state s ≠ .recvBlocked) (hpid : b'.pid = b.pid)
    (hq : b'.queue s = b.queue s ++ [n]) (ho : n.origin = some o)
    (hhist : b'.hist = b.hist ++ [.sent o s]) : b'.Ledger s pc := by
  have hdel : deliveredTo s b'.hist = deliveredTo s b.hist := by simp [hhist]
  have hrep : repliedBy s b'.hist = repliedBy s b.hist := by simp [hhist]
  have hsent : sentTo s b'.hist = sentTo s b.hist ++ [o] := by simp [hhist]
  cases h with
  | waiting _ h₁ => exact absurd h₁ hst
  | free done todo h₁ h₂ h₃ =>
    obtain ⟨hs, hd, hr⟩ := h₂
    refine .free done (todo ++ [o]) hst' ⟨?_, ?_, ?_⟩ (by simp [hq, h₃, ho])
    · rw [hsent, hs, List.append_assoc]
    · rw [hdel, hpid, hd]
    · rw [hrep, hr]
  | serving done todo o' h₁ h₂ h₃ =>
    obtain ⟨hs, hd, hr⟩ := h₂
    refine .serving done (todo ++ [o]) o' hst' ⟨?_, ?_, ?_⟩ (by simp [hq, h₃, ho])
    · rw [hsent, hs, List.append_assoc, List.cons_append]
    · rw [hdel, hpid, hd]
    · rw [hrep, hr]

/-- A server goes to sleep: nothing was queued. -/
theorem Ledger.sleep (h : b.Ledger s false) (hq : b.queue s = [])
    (hst' : b'.state s = .recvBlocked) (hpid : b'.pid = b.pid) (hhist : b'.hist = b.hist) :
    b'.Ledger s true := by
  cases h with
  | free done todo h₁ h₂ h₃ =>
    obtain rfl : todo = [] := by simpa [hq] using h₃.symm
    rw [List.append_nil] at h₂
    refine .waiting done hst' ?_
    unfold Log
    rw [hhist, hpid]
    exact h₂

/-- A server takes the first packet. -/
theorem Ledger.take {n : MsgPacketQueue} {rest : List MsgPacketQueue} (h : b.Ledger s false)
    (hq : b.queue s = n :: rest)
    (hsender : ∀ o, n.origin = some o → n.msg.sender = b.pid o.src)
    (hst' : b'.state s = b.state s) (hpid : b'.pid = b.pid) (hq' : b'.queue s = b.queue s)
    (hhist : b'.hist = b.hist ++ [.delivered n.origin s n.msg.sender]) : b'.Ledger s true := by
  cases h with
  | free done todo h₁ h₂ h₃ =>
    obtain ⟨hs, hd, hr⟩ := h₂
    cases todo with
    | nil => simp [hq] at h₃
    | cons o todo =>
      have ho : n.origin = some o := by
        rw [hq] at h₃
        exact (List.cons.inj h₃).1
      refine .serving done todo o (hst' ▸ h₁) ⟨?_, ?_, ?_⟩ (hq' ▸ h₃)
      · simp [hhist, hs]
      · simp [hhist, hd, hpid, ho, hsender o ho]
      · simp [hhist, hr]

/-- A server that is awake replies to the packet it was delivered. -/
theorem Ledger.pop {n : MsgPacketQueue} {rest : List MsgPacketQueue} {o : Origin}
    (h : b.Ledger s true) (hst : b.state s ≠ .recvBlocked) (hst' : b'.state s ≠ .recvBlocked)
    (hq : b.queue s = n :: rest) (ho : n.origin = some o) (hpid : b'.pid = b.pid)
    (hq' : b'.queue s = rest)
    (hhist : b'.hist = b.hist ++ [.replied n.origin s (some o.src)]) : b'.Ledger s false := by
  cases h with
  | waiting _ h₁ => exact absurd h₁ hst
  | serving done todo o' h₁ h₂ h₃ =>
    obtain ⟨hs, hd, hr⟩ := h₂
    rw [hq, List.map_cons, List.map_cons, List.cons.injEq, ho, Option.some.injEq] at h₃
    obtain ⟨rfl, h₃⟩ := h₃
    refine .free (done ++ [o]) todo hst' ⟨?_, ?_, ?_⟩ (by rw [hq', h₃])
    · simp [hhist, hs]
    · simp [hhist, hd, hpid]
    · simp [hhist, hr, ho]

/-! ### Packets at servers -/

/-- The board with the queues of the servers only. -/
def only (b : Board) (server : Slot → Bool) : Board :=
  { b with queue := fun s => if server s then b.queue s else [] }

/-- The board of the servers has their queues. -/
theorem only_queue (hs : server s = true) : (b.only server).queue s = b.queue s := by
  simp [only, hs]

/-- Replacing the queue of a server. -/
theorem only_setQueue {q : List MsgPacketQueue} (hs : server s = true) :
    ((b.setQueue s q).only server).queue = ((b.only server).setQueue s q).queue := by
  funext t
  by_cases hts : t = s
  · subst hts
    simp [only, hs]
  · simp [only, hts]

/-- Replacing the queue of a client. -/
theorem only_setQueue_client {q : List MsgPacketQueue} (hs : server s = false) :
    ((b.setQueue s q).only server).queue = (b.only server).queue := by
  funext t
  by_cases hts : t = s
  · subst hts
    simp [only, hs]
  · simp [only, hts]

/-- A packet pushed counts if it was pushed to a server. -/
theorem packetsFrom_only_push (server : Slot → Bool) (n : MsgPacketQueue) (p : Slot)
    (hin : b.inited s = true) :
    ((b.push s n).only server).packetsFrom p
      = (b.only server).packetsFrom p + if server s && n.isFrom p then 1 else 0 := by
  cases hs : server s with
  | false =>
    rw [push, packetsFrom_congr (only_setQueue_client hs)]
    simp
  | true =>
    have hpush := packetsFrom_push (b := b.only server) (s := s) (p := p) (n := n) hin
    rw [Bool.true_and, ← hpush, push, push, packetsFrom_congr (only_setQueue hs),
      only_queue hs]
    rfl

/-! ### The invariant -/

/-- Servers and clients in order. -/
structure Served (b : Board) (server busy : Slot → Bool) : Prop where
  alone : b.Alone
  named : b.Named
  /-- Servers are processes, and never wait for a reply. -/
  stage : ∀ s, server s = true → b.inited s = true ∧
    (b.state s = .running ∨ b.state s = .ready ∨ b.state s = .recvBlocked)
  running : ∀ s, b.state s = .running → b.current = some s
  ledger : ∀ s, server s = true → b.Ledger s (busy s)
  /-- A send queued at a server names its sender, a process. -/
  sender : ∀ s n o, server s = true → n ∈ b.queue s → n.origin = some o →
    n.msg.sender = b.pid o.src ∧ b.inited o.src = true
  /-- A process has at most one packet at the servers, and none unless it waits. -/
  count : ∀ p, (b.only server).packetsFrom p ≤ if (b.state p).awaitsReply then 1 else 0
  serial : ∀ s, (sentTo s b.hist).Pairwise (fun o o' => o.serial < o'.serial) ∧
    ∀ o ∈ sentTo s b.hist, o.serial < b.hist.length

section Steps

variable {n : MsgPacketQueue} {rest : List MsgPacketQueue}

/-- The sender of a packet queued at a server waits for the reply. -/
theorem Served.awaits {o : Origin} (hs : b.Served server busy) (hserver : server s = true)
    (hn : n ∈ b.queue s) (ho : n.origin = some o) : (b.state o.src).awaitsReply = true := by
  by_contra hno
  have hz : (b.only server).packetsFrom o.src = 0 := by
    have := hs.count o.src
    rw [if_neg hno] at this
    omega
  have := not_isFrom_of_packetsFrom hz (s := s) (by rwa [only_queue hserver])
  simp [MsgPacketQueue.isFrom, ho] at this

/-- The serial of a new send is above all others. -/
theorem serial_snoc {hist : List IpcEvent} (src dst : Slot) (more : List IpcEvent)
    (h : (sentTo s hist).Pairwise (fun o o' => o.serial < o'.serial) ∧
      ∀ o ∈ sentTo s hist, o.serial < hist.length)
    (hmore : sentTo s more = []) :
    (sentTo s (hist ++ .sent ⟨hist.length, src⟩ dst :: more)).Pairwise
        (fun o o' => o.serial < o'.serial) ∧
      ∀ o ∈ sentTo s (hist ++ .sent ⟨hist.length, src⟩ dst :: more),
        o.serial < (hist ++ IpcEvent.sent ⟨hist.length, src⟩ dst :: more).length := by
  obtain ⟨hpair, hlt⟩ := h
  by_cases hds : dst = s
  · simp only [sentTo_append, sentTo_cons, IpcEvent.asSent, hds, if_true, hmore, Option.toList_some,
      List.append_nil, List.length_append, List.length_cons]
    refine ⟨List.pairwise_append.mpr ⟨hpair, List.pairwise_singleton _ _, ?_⟩, ?_⟩
    · intro o ho o' ho'
      rw [List.mem_singleton.mp ho']
      exact hlt o ho
    · intro o ho
      rcases List.mem_append.mp ho with ho | ho
      · have := hlt o ho
        omega
      · rw [List.mem_singleton.mp ho]
        show hist.length < _
        omega
  · simp only [sentTo_append, sentTo_cons, IpcEvent.asSent, hds, if_false, hmore,
      Option.toList_none, List.append_nil, List.length_append, List.length_cons]
    refine ⟨hpair, fun o ho => ?_⟩
    have := hlt o ho
    omega

/-- New packets are placeholders or sends of the caller. -/
theorem Served.sender_moves (hs : b.Served server busy) (hin : b.inited c = true)
    (hpid : b'.pid = b.pid) (hinited : b'.inited = b.inited)
    (hnew : ∀ s m, m ∈ b'.queue s → m ∈ b.queue s ∨ m.origin = none ∨ b.SentBy c m) :
    ∀ s m o, server s = true → m ∈ b'.queue s → m.origin = some o →
      m.msg.sender = b'.pid o.src ∧ b'.inited o.src = true := by
  intro s m o hserver hm ho
  rw [hpid, hinited]
  rcases hnew s m hm with hm' | hnone | hsent
  · exact hs.sender s m o hserver hm' ho
  · exact absurd (hnone.symm.trans ho) (by simp)
  · obtain rfl := Option.some.inj (hsent.1.symm.trans ho)
    exact ⟨hsent.2, hin⟩

/-- A packet of the caller, which waits from now on. -/
theorem Served.count_send (hs : b.Served server busy) (hc : (b.state c).blocked = false)
    (hmore : ∀ p, (b'.only server).packetsFrom p
      ≤ (b.only server).packetsFrom p + if c = p then 1 else 0)
    (hc' : (b'.state c).awaitsReply = true)
    (hother : ∀ p, p ≠ c → (b'.state p).awaitsReply = (b.state p).awaitsReply) :
    ∀ p, (b'.only server).packetsFrom p ≤ if (b'.state p).awaitsReply then 1 else 0 := by
  intro p
  have hle := hs.count p
  have hle' := hmore p
  by_cases hpc : p = c
  · subst hpc
    rw [awaitsReply_of_not_blocked hc] at hle
    rw [if_pos rfl] at hle'
    rw [hc', if_pos rfl]
    simp only [Bool.false_eq_true, if_false] at hle
    omega
  · rw [if_neg (Ne.symm hpc)] at hle'
    rw [hother p hpc]
    omega

/-- **A send of a client** to any process. -/
theorem Served.deposit (hs : b.Served server busy) (hc : (b.state c).blocked = false)
    (hin : b.inited c = true) (hclient : server c = false) (hcur : b.current = some c)
    (hrin : b.inited r = true) (h : b.Deposit c r b') : b'.Served server busy := by
  have halone := hs.alone.deposit h
  have hne : ∀ s, server s = true → s ≠ c := by
    rintro s hserver rfl
    exact absurd (hserver.symm.trans hclient) (by decide)
  cases h with
  | @waiting n n' rest hst hq hsent =>
    -- the placeholder of `r`, its only packet, becomes the packet of `c`
    obtain ⟨n₀, hq₀, hn₀⟩ := hs.alone r hst
    obtain ⟨rfl, rfl⟩ : n = n₀ ∧ rest = [] := by
      rw [hq] at hq₀
      exact List.cons_eq_cons.mp hq₀
    have hcr : c ≠ r := by
      rintro rfl
      rw [hst] at hc
      exact absurd hc (by decide)
    refine ⟨halone, hs.named.of_moves rfl rfl rfl rfl ?_, ?_, ?_, ?_,
      hs.sender_moves hin rfl rfl ?_, hs.count_send hc ?_ ?_ ?_, ?_⟩
    · intro s hs'
      simp [ne_of_inited hs' hrin, ne_of_inited hs' hin]
    · intro s hserver
      by_cases hsr : s = r
      · subst hsr
        exact ⟨hrin, Or.inr (Or.inl (by simp))⟩
      · simpa [hsr, hne s hserver] using hs.stage s hserver
    · intro s hrun
      by_cases hsr : s = r
      · subst hsr
        simp at hrun
      · by_cases hsc : s = c
        · subst hsc
          simp [hsr] at hrun
        · exact hs.running s (by simpa [hsr, hsc] using hrun)
    · intro s hserver
      by_cases hsr : s = r
      · subst hsr
        exact (hs.ledger s hserver).fill hst (by simp) rfl (by simp) hsent.1 rfl
      · refine (hs.ledger s hserver).of_same (Or.inl ?_) ?_ rfl ?_ ?_ ?_
        · simp [hsr, hne s hserver]
        · simp [hsr]
        · simp [Ne.symm hsr]
        · simp [Ne.symm hsr]
        · simp
    · intro s m hm
      by_cases hsr : s = r
      · subst hsr
        simp only [setState_queue, record_queue, setQueue_queue, Function.update_self,
          List.mem_singleton] at hm
        exact Or.inr (Or.inr (hm ▸ hsent))
      · simp only [setState_queue, record_queue, setQueue_queue, Function.update_of_ne hsr] at hm
        exact Or.inl hm
    · intro p
      have hn' : n.isFrom p = false := by simp [MsgPacketQueue.isFrom, hn₀]
      cases hserver : server r with
      | false =>
        refine le_of_eq_of_le ?_ (Nat.le_add_right _ _)
        exact packetsFrom_congr (only_setQueue_client hserver)
      | true =>
        have hcount := packetsFrom_setQueue (b := b.only server) (s := r) (p := p) (q := [n'])
        rw [only_queue hserver, hq, List.countP_singleton, List.countP_singleton, hn',
          hsent.isFrom, ← packetsFrom_congr (only_setQueue hserver)] at hcount
        simp only [Bool.false_eq_true, if_false, decide_eq_true_eq, Nat.add_zero] at hcount
        exact le_of_eq hcount
    · simp [hcr, ProcState.awaitsReply]
    · intro p hpc
      by_cases hpr : p = r
      · subst hpr
        rw [hst]
        simp [ProcState.awaitsReply]
      · simp [hpr, hpc]
    · intro s
      have hserial := serial_snoc c r [.delivered (some (b.origin c)) r (b.pid c)]
        (hs.serial s) (by simp)
      simpa [origin, List.append_assoc] using hserial
  | @ready n hst hsent =>
    have hrecv : b.state r ≠ .recvBlocked := by
      rw [hst]
      decide
    refine ⟨halone, hs.named.of_moves rfl rfl rfl rfl ?_, ?_, ?_, ?_,
      hs.sender_moves hin rfl rfl ?_, hs.count_send hc ?_ ?_ ?_, ?_⟩
    · intro s hs'
      simp [push, ne_of_inited hs' hin]
    · intro s hserver
      simpa [push, hne s hserver] using hs.stage s hserver
    · intro s hrun
      by_cases hsc : s = c
      · subst hsc
        simp at hrun
      · exact hs.running s (by simpa [push, hsc] using hrun)
    · intro s hserver
      by_cases hsr : s = r
      · subst hsr
        refine (hs.ledger s hserver).push hrecv ?_ rfl ?_ hsent.1 rfl
        · simpa [push, hne s hserver] using hrecv
        · simp [push, hrin]
      · refine (hs.ledger s hserver).of_same (Or.inl ?_) ?_ rfl ?_ ?_ ?_
        · simp [push, hne s hserver]
        · simp [push, hsr]
        · simp [push, Ne.symm hsr]
        · simp [push]
        · simp [push]
    · intro s m hm
      by_cases hsr : s = r
      · subst hsr
        simp only [setState_queue, record_queue, push, hrin, if_true, setQueue_queue,
          Function.update_self, List.mem_append, List.mem_singleton] at hm
        exact hm.imp_right fun (h : m = n) => Or.inr (h ▸ hsent)
      · simp only [setState_queue, record_queue, push, setQueue_queue,
          Function.update_of_ne hsr] at hm
        exact Or.inl hm
    · intro p
      have hpush := packetsFrom_only_push server n p hrin
      rw [hsent.isFrom] at hpush
      refine le_trans (le_of_eq hpush) ?_
      by_cases hcp : c = p <;> cases server r <;> simp [hcp]
    · simp [ProcState.awaitsReply]
    · intro p hpc
      simp [push, hpc]
    · intro s
      have hserial := serial_snoc c r [] (hs.serial s) rfl
      simpa [origin, push] using hserial
  | @other n h₁ h₂ hsent =>
    -- a server is ready or waits, or it runs, and then it is not the caller
    have hserver : server r = false := by
      by_contra hserver
      have hserver : server r = true := by simpa using hserver
      rcases (hs.stage r hserver).2 with h | h | h
      · exact hne r hserver (Option.some.inj ((hs.running r h).symm.trans hcur))
      · exact h₂ h
      · exact h₁ h
    have hnr : ∀ s, server s = true → s ≠ r := by
      rintro s hs rfl
      exact absurd (hs.symm.trans hserver) (by decide)
    refine ⟨halone, hs.named.of_moves rfl rfl rfl rfl fun _ _ => rfl, hs.stage, hs.running, ?_,
      hs.sender_moves hin rfl rfl ?_, ?_, ?_⟩
    · intro s hs'
      refine (hs.ledger s hs').of_same (Or.inl rfl) ?_ rfl ?_ ?_ ?_
      · simp [push, hnr s hs']
      · simp [push, Ne.symm (hnr s hs')]
      · simp [push]
      · simp [push]
    · intro s m hm
      by_cases hsr : s = r
      · subst hsr
        simp only [record_queue, push, hrin, if_true, setQueue_queue, Function.update_self,
          List.mem_append, List.mem_singleton] at hm
        exact hm.imp_right fun (h : m = n) => Or.inr (h ▸ hsent)
      · simp only [record_queue, push, setQueue_queue, Function.update_of_ne hsr] at hm
        exact Or.inl hm
    · intro p
      refine le_of_eq_of_le ?_ (hs.count p)
      exact packetsFrom_congr (only_setQueue_client hserver)
    · intro s
      have hserial := serial_snoc c r [] (hs.serial s) rfl
      simpa [origin, push] using hserial

/-- **A `recv` of a server** whose next call it is. -/
theorem Served.receive (hs : b.Served server busy) (hserver : server c = true)
    (hc : (b.state c).blocked = false) (hbusy : busy c = false) (h : b.Receive c b') :
    b'.Served server (Function.update busy c true) := by
  have hin := (hs.stage c hserver).1
  have halone := hs.alone.receive hin h
  have hledger := hs.ledger c hserver
  rw [hbusy] at hledger
  cases h with
  | @block n hq hn =>
    -- an empty queue: a placeholder goes in, which no process has sent
    refine ⟨halone, hs.named.of_moves rfl rfl rfl rfl ?_, ?_, ?_, ?_,
      hs.sender_moves hin rfl rfl ?_, ?_, hs.serial⟩
    · intro s hs'
      simp [push, ne_of_inited hs' hin]
    · intro s hs'
      by_cases hsc : s = c
      · subst hsc
        exact ⟨hin, Or.inr (Or.inr (by simp [push]))⟩
      · simpa [push, hsc] using hs.stage s hs'
    · intro s hrun
      by_cases hsc : s = c
      · subst hsc
        simp [push] at hrun
      · exact hs.running s (by simpa [push, hsc] using hrun)
    · intro s hs'
      by_cases hsc : s = c
      · subst hsc
        rw [Function.update_self]
        exact hledger.sleep hq (by simp [push]) rfl rfl
      · rw [Function.update_of_ne hsc]
        refine (hs.ledger s hs').of_same (Or.inl ?_) ?_ rfl rfl rfl rfl
        · simp [push, hsc]
        · simp [push, hsc]
    · intro s m hm
      by_cases hsc : s = c
      · subst hsc
        simp only [push, setState_inited, hin, if_true, setState_queue, hq, setQueue_queue,
          Function.update_self, List.nil_append, List.mem_singleton] at hm
        exact Or.inr (Or.inl (hm ▸ hn))
      · simp only [push, setQueue_queue, setState_queue, Function.update_of_ne hsc] at hm
        exact Or.inl hm
    · intro p
      -- the placeholder is no packet from `p`
      have hpush := packetsFrom_only_push (b := b.setState c .recvBlocked) server n p hin
      have hn' : n.isFrom p = false := by simp [MsgPacketQueue.isFrom, hn]
      rw [hn', Bool.and_false] at hpush
      refine le_of_eq_of_le hpush ?_
      have hle : ((b.setState c .recvBlocked).only server).packetsFrom p ≤ _ := hs.count p
      by_cases hpc : p = c
      · subst hpc
        rw [awaitsReply_of_not_blocked hc] at hle
        simpa [push, ProcState.awaitsReply] using hle
      · simpa [push, hpc] using hle
  | @take n rest hq =>
    -- a packet waits: it is delivered, and stays first until the reply
    refine ⟨halone, hs.named.of_moves rfl rfl rfl rfl fun _ _ => rfl, hs.stage, hs.running, ?_,
      hs.sender, hs.count, ?_⟩
    · intro s hs'
      by_cases hsc : s = c
      · subst hsc
        rw [Function.update_self]
        have hmem : n ∈ b.queue s := by
          rw [hq]
          exact List.mem_cons_self
        exact hledger.take hq (fun o ho => (hs.sender s n o hs' hmem ho).1) rfl rfl rfl rfl
      · rw [Function.update_of_ne hsc]
        refine (hs.ledger s hs').of_same (Or.inl rfl) rfl rfl ?_ ?_ ?_
        · simp
        · simp [Ne.symm hsc]
        · simp
    · intro s
      obtain ⟨hpair, hlt⟩ := hs.serial s
      simp only [record_hist, sentTo_append, sentTo_cons, IpcEvent.asSent, sentTo_nil,
        Option.toList_none, List.append_nil, List.length_append, List.length_singleton]
      exact ⟨hpair, fun o ho => Nat.lt_succ_of_lt (hlt o ho)⟩

/-- A server about to reply has the packet to reply to first in its queue: its sender waits and
    is found under the pid the packet names. -/
theorem Served.first (hs : b.Served server busy) (hserver : server c = true)
    (hc : (b.state c).blocked = false) (hbusy : busy c = true) :
    ∃ n rest o, b.queue c = n :: rest ∧ n.origin = some o ∧ b.find n.msg.sender = some o.src ∧
      (b.state o.src).awaitsReply = true ∧ b.inited o.src = true ∧
      (deliveredTo c b.hist)[(repliedBy c b.hist).length]? = some (some o, b.pid o.src) := by
  have hledger := hs.ledger c hserver
  rw [hbusy] at hledger
  cases hledger with
  | waiting done hst hlog =>
    rw [hst] at hc
    exact absurd hc (by decide)
  | serving done todo o hst hlog hq =>
    cases hq' : b.queue c with
    | nil => simp [hq'] at hq
    | cons n rest =>
      have ho : n.origin = some o := by
        rw [hq'] at hq
        exact (List.cons.inj hq).1
      have hmem : n ∈ b.queue c := by
        rw [hq']
        exact List.mem_cons_self
      obtain ⟨hsender, hoin⟩ := hs.sender c n o hserver hmem ho
      refine ⟨n, rest, o, rfl, ho, ?_, hs.awaits hserver hmem ho, hoin, ?_⟩
      · rw [hsender]
        exact hs.named.find_pid hoin
      · rw [hlog.2.1, hlog.2.2]
        simp

/-- **A reply of a server** whose next call it is. -/
theorem Served.answer (hs : b.Served server busy) (hserver : server c = true)
    (hc : (b.state c).blocked = false) (hbusy : busy c = true) (h : b.Answer c b') :
    b'.Served server (Function.update busy c false) := by
  have hin := (hs.stage c hserver).1
  have halone := hs.alone.answer hc h
  obtain ⟨n, rest, o, hq, ho, hfind, hawait, hoin, -⟩ := hs.first hserver hc hbusy
  have hledger := hs.ledger c hserver
  rw [hbusy] at hledger
  have hcrecv : b.state c ≠ .recvBlocked := by
    intro h
    rw [h] at hc
    exact absurd hc (by decide)
  cases h with
  | nothing hq₀ => exact absurd (hq₀.symm.trans hq) (by simp)
  | @first n₀ rest₀ hq₀ =>
    obtain ⟨rfl, rfl⟩ : n = n₀ ∧ rest = rest₀ := List.cons_eq_cons.mp (hq.symm.trans hq₀)
    rw [hfind] at halone ⊢
    -- the sender that is woken waits for its reply, so it is no server
    have hno : ∀ s, (b.state s).awaitsReply = false → s ≠ o.src := by
      rintro s hs' rfl
      exact absurd (hs'.symm.trans hawait) (by decide)
    have hstate : ∀ s, server s = true → s ≠ o.src := by
      intro s hs'
      refine hno s ?_
      rcases (hs.stage s hs').2 with h | h | h <;> rw [h] <;> rfl
    refine ⟨halone, hs.named.of_moves rfl rfl rfl rfl ?_, ?_, ?_, ?_,
      hs.sender_moves hin rfl rfl ?_, ?_, ?_⟩
    · intro s hs'
      simp [wake, ne_of_inited hs' hoin]
    · intro s hs'
      simpa [wake, hstate s hs'] using hs.stage s hs'
    · intro s hrun
      by_cases hso : s = o.src
      · subst hso
        simp [wake] at hrun
      · exact hs.running s (by simpa [wake, hso] using hrun)
    · intro s hs'
      by_cases hsc : s = c
      · subst hsc
        rw [Function.update_self]
        -- the packet answered is the one delivered last
        refine hledger.pop hcrecv ?_ hq ho rfl ?_ rfl
        · simpa [wake, hstate s hs'] using hcrecv
        · simp [wake]
      · rw [Function.update_of_ne hsc]
        refine (hs.ledger s hs').of_same (Or.inl ?_) ?_ rfl ?_ ?_ ?_
        · simp [wake, hstate s hs']
        · simp [wake, hsc]
        · simp [wake]
        · simp [wake]
        · simp [wake, Ne.symm hsc]
    · intro s m hm
      by_cases hsc : s = c
      · subst hsc
        simp only [record_queue, wake_queue, setQueue_queue, Function.update_self] at hm
        rw [hq]
        exact Or.inl (List.mem_cons_of_mem _ hm)
      · simp only [record_queue, wake_queue, setQueue_queue, Function.update_of_ne hsc] at hm
        exact Or.inl hm
    · intro p
      -- the sender has one packet fewer, and it waited for that one
      have hcount := packetsFrom_setQueue (b := b.only server) (s := c) (p := p) (q := rest)
      have hfrom : n.isFrom p = decide (o.src = p) := by simp [MsgPacketQueue.isFrom, ho]
      have heq : ((((b.setQueue c rest).wake (some o.src)).record
          (.replied n.origin c (some o.src))).only server).packetsFrom p
          = ((b.only server).setQueue c rest).packetsFrom p :=
        packetsFrom_congr (only_setQueue hserver)
      rw [only_queue hserver, hq, List.countP_cons, hfrom] at hcount
      rw [heq]
      have hle := hs.count p
      by_cases hpo : o.src = p
      · subst hpo
        rw [hawait] at hle
        simp only [decide_true, if_true] at hcount hle
        simp only [record_state, wake, setState_state, Function.update_self]
        show _ ≤ 0
        omega
      · simp only [record_state, wake, setState_state, setQueue_state,
          Function.update_of_ne (Ne.symm hpo)]
        omega
    · intro s
      obtain ⟨hpair, hlt⟩ := hs.serial s
      simp only [record_hist, wake_hist, setQueue_hist, sentTo_append, sentTo_cons,
        IpcEvent.asSent, sentTo_nil, Option.toList_none, List.append_nil, List.length_append,
        List.length_singleton]
      exact ⟨hpair, fun o ho => Nat.lt_succ_of_lt (hlt o ho)⟩

/-- **A scheduling decision.** -/
theorem Served.sched (hs : b.Served server busy) (h : b.Sched b') : b'.Served server busy := by
  obtain ⟨c, hy⟩ := hs.named.yields h
  refine ⟨hs.alone.sched h, hs.named.sched h, ?_, ?_, ?_, ?_, ?_, ?_⟩
  · intro s hs'
    rw [hy.inited]
    rcases hy.state_cases s with hsame | ⟨-, hready, -⟩
    · rw [hsame]
      exact hs.stage s hs'
    · exact ⟨(hs.stage s hs').1, Or.inr (Or.inl hready)⟩
  · -- whoever was running has become ready
    intro s hrun
    rw [hy.state s] at hrun
    split at hrun
    · exact absurd hrun (by decide)
    · rename_i hno
      obtain rfl : s = c := Option.some.inj ((hs.running s hrun).symm.trans hy.current)
      exact absurd ⟨rfl, by rw [hrun]; rfl⟩ hno
  · intro s hs'
    refine (hs.ledger s hs').of_same ?_ (by rw [hy.queue]) hy.pid (by rw [hy.hist])
      (by rw [hy.hist]) (by rw [hy.hist])
    rcases hy.state_cases s with hsame | ⟨-, hready, hbl⟩
    · exact Or.inl hsame
    · refine Or.inr ⟨by rw [hready]; decide, fun h => ?_⟩
      rw [h] at hbl
      exact absurd hbl (by decide)
  · rw [hy.queue, hy.pid, hy.inited]
    exact hs.sender
  · intro p
    have hq : (b'.only server).queue = (b.only server).queue := by
      simp only [only, hy.queue]
    rw [packetsFrom_congr hq]
    have hle := hs.count p
    rcases hy.state_cases p with hsame | ⟨-, hready, hbl⟩
    · rw [hsame]
      exact hle
    · rw [awaitsReply_of_not_blocked hbl] at hle
      rw [hready]
      exact hle
  · rw [hy.hist]
    exact hs.serial

end Steps

end Board

/-! ### Runs -/

section Runs

variable {τ : Type} {k k' k₀ : Kernel τ} {n : Nat} {server busy busy' : Slot → Bool}

/-- Boot leaves every server before its first `recv`. -/
theorem Booted.served (h : Booted n k)
    (hserver : ∀ s, server s = true → (k.procs s).recvQueue.inited = true) :
    k.board.Served server fun _ => false := by
  have hrecv : ∀ s, k.board.state s ≠ .recvBlocked := by
    intro s hs
    rcases h.state_cases s with h' | h' | h' <;> exact absurd (hs.symm.trans h') (by decide)
  have hhist : k.board.hist = [] := h.hist
  refine ⟨h.waits.1, h.named, ?_, ?_, ?_, ?_, ?_, ?_⟩
  · intro s hs
    have hin : k.board.inited s = true := hserver s hs
    have hstate := (h.created s ((h.inited_iff s).mp hin)).2.2.2
    split at hstate
    · exact ⟨hin, Or.inl hstate⟩
    · exact ⟨hin, Or.inr (Or.inl hstate)⟩
  · intro s hs
    obtain ⟨c, hc, hcur⟩ := h.current
    have hlt : s.val < n := by
      by_contra hge
      have hun := (h.unused s (by omega)).2.2.2
      exact absurd (hs.symm.trans hun) (by decide)
    have hstate := (h.created s hlt).2.2.2
    split at hstate
    · rename_i hlast
      obtain rfl : c = s := Fin.ext (by omega)
      exact hcur
    · exact absurd (hs.symm.trans hstate) (by decide)
  · intro s _
    refine .free [] [] (hrecv s) ⟨?_, ?_, ?_⟩ (by rw [h.queue s]; rfl) <;> rw [hhist] <;> rfl
  · intro s m o _ hm
    rw [h.queue s] at hm
    exact absurd hm (by simp)
  · intro p
    have hz : (k.board.only server).packetsFrom p = 0 := by
      refine Finset.sum_eq_zero fun s _ => ?_
      simp [Board.only, h.queue s]
    omega
  · intro s
    rw [hhist]
    exact ⟨List.Pairwise.nil, by simp⟩

variable [Tlb τ]

/-- A step of clients and servers.  The second component says which servers have to reply
    next: a client only sends, to a process; a server alternates `recv` and reply. -/
def ServeStep (server : Slot → Bool) (x : Kernel τ × (Slot → Bool)) (op : IpcOp τ)
    (y : Kernel τ × (Slot → Bool)) : Prop :=
  IpcStep x.1 op y.1 ∧
  match op with
  | .send msg _ => y.2 = x.2 ∧ ∃ c r, x.1.currentProc = some c ∧ server c = false ∧
      x.1.receiverOf msg = some r ∧ (x.1.procs r).recvQueue.inited = true
  | .recv _ _ => ∃ c, x.1.currentProc = some c ∧ server c = true ∧ x.2 c = false ∧
      y.2 = Function.update x.2 c true
  | .reply _ _ => ∃ c, x.1.currentProc = some c ∧ server c = true ∧ x.2 c = true ∧
      y.2 = Function.update x.2 c false
  | .tick _ | .other _ _ => y.2 = x.2

/-- One step. -/
theorem ServeStep.served {op : IpcOp τ} (hw : Waits k.board) (hs : k.board.Served server busy)
    (h : ServeStep server (k, busy) op (k', busy')) : k'.board.Served server busy' := by
  obtain ⟨hstep, hturn⟩ := h
  cases op with
  | send msg frame =>
    obtain ⟨hbusy, c, r, hc, hclient, hr, hrin⟩ := hturn
    obtain rfl : busy' = busy := hbusy
    obtain ⟨hin, hfree⟩ := hstep.caller hw rfl hc
    obtain ⟨c', hc', ⟨hnone, -⟩ | ⟨r', b, hr', hdep, hsched⟩⟩ := send_refines hstep.2
    · exact absurd (hnone.symm.trans hr) (by simp)
    · obtain rfl : c = c' := Option.some.inj (hc.symm.trans hc')
      obtain rfl : r = r' := Option.some.inj (hr.symm.trans hr')
      exact (hs.deposit hfree hin hclient hc hrin hdep).sched hsched
  | recv msg frame =>
    obtain ⟨c, hc, hserver, hpc, hbusy⟩ := hturn
    obtain rfl : busy' = Function.update busy c true := hbusy
    obtain ⟨-, hfree⟩ := hstep.caller hw rfl hc
    obtain ⟨c', b, hc', hrec, hsched⟩ := recv_refines hstep.2
    obtain rfl : c = c' := Option.some.inj (hc.symm.trans hc')
    exact (hs.receive hserver hfree hpc hrec).sched hsched
  | reply msg frame =>
    obtain ⟨c, hc, hserver, hpc, hbusy⟩ := hturn
    obtain rfl : busy' = Function.update busy c false := hbusy
    obtain ⟨-, hfree⟩ := hstep.caller hw rfl hc
    obtain ⟨c', b, hc', hans, hsched⟩ := rply_refines hstep.2
    obtain rfl : c = c' := Option.some.inj (hc.symm.trans hc')
    exact (hs.answer hserver hfree hpc hans).sched hsched
  | tick frame =>
    obtain rfl : busy' = busy := hturn
    rcases tick_refines hstep.2 with hsame | hsched
    · rw [hsame]
      exact hs
    · exact hs.sched hsched
  | other mach scheduling =>
    obtain rfl : busy' = busy := hturn
    rw [other_refines hstep.2]
    exact hs

/-- Service in order: the history of one server. -/
structure InOrder (k : Kernel τ) (s : Slot) : Prop where
  /-- What was delivered are the first of the sends to `s`, in their order, … -/
  delivered : (deliveredTo s k.hist).map Prod.fst <+: (sentTo s k.hist).map some
  /-- … each once, … -/
  once : (sentTo s k.hist).Nodup ∧ ((deliveredTo s k.hist).map Prod.fst).Nodup
  /-- … with the pid of the process that made the send. -/
  reported : ∀ d ∈ deliveredTo s k.hist, ∃ o, d = (some o, (k.procs o.src).pid)
  /-- The replies go to the first of what was delivered, in its order, … -/
  replied : (repliedBy s k.hist).map Prod.fst <+: (deliveredTo s k.hist).map Prod.fst
  /-- … and each wakes the sender of its packet. -/
  woken : ∀ e ∈ repliedBy s k.hist, ∃ o, e = (some o, some o.src)
  /-- The sender of a packet not yet replied to waits. -/
  waits : ∀ o ∈ sentTo s k.hist, some o ∉ (repliedBy s k.hist).map Prod.fst →
    (k.procs o.src).state.awaitsReply = true

omit [Tlb τ] in
/-- The invariant gives service in order. -/
theorem InOrder.of_served {s : Slot} (hs : k.board.Served server busy) (hserver : server s = true) :
    InOrder k s := by
  obtain ⟨done, cur, todo, ⟨hsent, hdel, hrep⟩, hqueued⟩ := (hs.ledger s hserver).parts
  have hsent' : sentTo s k.hist = done ++ (cur ++ todo) := hsent
  have hdel' : deliveredTo s k.hist = (done ++ cur).map fun o => (some o, (k.procs o.src).pid) :=
    hdel
  have hrep' : repliedBy s k.hist = done.map fun o => (some o, some o.src) := hrep
  have hfst : (deliveredTo s k.hist).map Prod.fst = (done ++ cur).map some := by
    rw [hdel', List.map_map]
    rfl
  have hfst' : (repliedBy s k.hist).map Prod.fst = done.map some := by
    rw [hrep', List.map_map]
    rfl
  -- serials only grow, so no send occurs twice
  have hnodup : (sentTo s k.hist).Nodup :=
    (hs.serial s).1.imp fun {o o'} hlt heq => by rw [heq] at hlt; exact lt_irrefl _ hlt
  have hbefore : (deliveredTo s k.hist).map Prod.fst <+: (sentTo s k.hist).map some := by
    rw [hfst, hsent', ← List.append_assoc]
    exact (List.prefix_append _ _).map _
  refine ⟨hbefore, ⟨hnodup, ?_⟩, ?_, ?_, ?_, ?_⟩
  · exact hbefore.sublist.nodup (hnodup.map (Option.some_injective _))
  · intro d hd
    rw [hdel'] at hd
    obtain ⟨o, -, rfl⟩ := List.mem_map.mp hd
    exact ⟨o, rfl⟩
  · rw [hfst, hfst']
    exact (List.prefix_append _ _).map _
  · intro e he
    rw [hrep'] at he
    obtain ⟨o, -, rfl⟩ := List.mem_map.mp he
    exact ⟨o, rfl⟩
  · intro o ho hno
    rw [hsent'] at ho
    rcases List.mem_append.mp ho with hdone | hopen
    · rw [hfst'] at hno
      exact absurd (List.mem_map_of_mem hdone) hno
    · obtain ⟨m, hm, hmo⟩ := hqueued o hopen
      exact hs.awaits hserver hm hmo

/-- What a reply of the server `s` does: it takes the packet delivered last out of the queue and
    makes its sender ready.  The server itself goes on, ready. -/
def RepliesTo (k k' : Kernel τ) (s : Slot) : Prop :=
  ∃ n rest o, (k.procs s).recvQueue.msgs = n :: rest ∧ n.origin = some o ∧
    (deliveredTo s k.hist)[(repliedBy s k.hist).length]? = some (some o, (k.procs o.src).pid) ∧
    (k'.procs s).recvQueue.msgs = rest ∧
    (∀ t, t ≠ s → (k'.procs t).recvQueue.msgs = (k.procs t).recvQueue.msgs) ∧
    (k.procs o.src).state.awaitsReply = true ∧ (k'.procs o.src).state = .ready ∧
    (k'.procs s).state = .ready ∧
    (∀ p, p ≠ o.src → p ≠ s → (k'.procs p).state = (k.procs p).state) ∧
    k'.hist = k.hist ++ [.replied (some o) s (some o.src)]

/-- **A reply of a server.** -/
theorem ServeStep.replies {s : Slot} {msg frame : BitVec 32} (hw : Waits k.board)
    (hs : k.board.Served server busy) (hc : k.currentProc = some s)
    (h : ServeStep server (k, busy) (.reply msg frame) (k', busy')) : RepliesTo k k' s := by
  obtain ⟨hstep, c, hc', hserver, hpc, -⟩ := h
  obtain rfl : s = c := Option.some.inj (hc.symm.trans hc')
  obtain ⟨-, hfree⟩ := hstep.caller hw rfl hc
  obtain ⟨n, rest, o, hq, ho, hfind, hawait, -, hlast⟩ := hs.first hserver hfree hpc
  have hso : s ≠ o.src := by
    rintro rfl
    rw [Board.awaitsReply_of_not_blocked hfree] at hawait
    exact absurd hawait (by decide)
  obtain ⟨c', b, hc'', hans, hsched⟩ := rply_refines hstep.2
  obtain rfl : s = c' := Option.some.inj (hc.symm.trans hc'')
  have hserved := hs.answer hserver hfree hpc hans
  obtain ⟨d, hy⟩ := hserved.named.yields hsched
  obtain rfl : s = d := Option.some.inj (hc.symm.trans (hans.current.symm.trans hy.current))
  cases hans with
  | nothing hq₀ => exact absurd (hq₀.symm.trans hq) (by simp)
  | @first n₀ rest₀ hq₀ =>
    obtain ⟨rfl, rfl⟩ : n = n₀ ∧ rest = rest₀ := List.cons_eq_cons.mp (hq.symm.trans hq₀)
    rw [hfind] at hy
    have hbl : (((((k.board.setQueue s rest).wake (some o.src)).record
        (.replied n.origin s (some o.src))).state s)).blocked = false := by
      simpa [Board.wake, hso] using hfree
    have hstate : ∀ p, (k'.procs p).state = _ := hy.state
    have hqueue : ∀ t, (k'.procs t).recvQueue.msgs = _ := fun t => congrFun hy.queue t
    refine ⟨n, rest, o, hq, ho, hlast, ?_, ?_, hawait, ?_, ?_, ?_, ?_⟩
    · rw [hqueue s]
      simp
    · intro t hts
      rw [hqueue t]
      exact Function.update_of_ne hts _ _
    · rw [hstate o.src]
      simp [Board.wake, Ne.symm hso]
    · rw [hstate s, if_pos ⟨rfl, hbl⟩]
    · intro p hpo hps
      rw [hstate p, if_neg (fun h => hps h.1)]
      exact Function.update_of_ne hpo _ _
    · rw [← ho]
      exact hy.hist

/-- **First come, first served.**  Take any clients, which only send, and any servers, which
    alternate `recv` and reply.  In every state of every run each server has been delivered the
    first of the sends to it, in their order and each once, has replied to the first of those,
    and the senders of all others wait; and its next reply is to the packet delivered last. -/
theorem first_come_first_served {tr : List (IpcOp τ)} (hb : Booted n k₀)
    (hcreated : ∀ s, server s = true → (k₀.procs s).recvQueue.inited = true)
    (hrun : Run (ServeStep server) (k₀, fun _ => false) tr (k, busy)) (s : Slot)
    (hserver : server s = true) :
    InOrder k s ∧ ∀ msg frame k' busy', k.currentProc = some s →
      ServeStep server (k, busy) (.reply msg frame) (k', busy') → RepliesTo k k' s := by
  obtain ⟨hw, hs⟩ := hrun.invariant
    (J := fun _ x => Waits x.1.board ∧ x.1.board.Served server x.2) ⟨hb.waits, hb.served hcreated⟩
    fun _ _ _ _ hi hstep => ⟨hstep.1.waits hi.1, hstep.served hi.1 hi.2⟩
  exact ⟨.of_served hs hserver, fun msg frame k' busy' hc hstep => hstep.replies hw hs hc⟩

end Runs

/-- Process 3 of the small system as a server: it sleeps in `recv`, process 0 sends to it, and
    when it runs again it replies. -/
theorem first_come_first_served_demo : ∃ k busy, Run (ServeStep fun s => decide (s = 3))
    (demoKernel, fun _ => false)
    [.recv 0x5080#32 0#32, .send 0x5040#32 0#32, .tick 0#32, .reply 0x5000#32 0#32] (k, busy) ∧
    sentTo 3 k.hist = [⟨0, 0⟩] ∧ InOrder k 3 := by
  -- the calls as one piece of code, which returns the kernels before the send and the reply
  have htest : (((IpcOp.recv 0x5080#32 0#32).exec >>= fun _ => get >>= fun k₁ =>
      (IpcOp.send 0x5040#32 0#32).exec >>= fun _ => (IpcOp.tick 0#32).exec >>= fun _ =>
      get >>= fun k₃ => (IpcOp.reply 0x5000#32 0#32).exec >>= fun _ =>
        (pure (k₁, k₃) : Code Trap (Kernel Unit) _)) demoKernel).toOption.map (fun r =>
          decide (r.1.1.currentProc = some 0) && (r.1.1.procs 0).recvQueue.inited &&
          decide (r.1.1.idle = some 1) && decide (r.1.1.receiverOf 0x5040#32 = some 3) &&
          (r.1.1.procs 3).recvQueue.inited && decide (r.1.2.currentProc = some 3) &&
          (r.1.2.procs 3).recvQueue.inited && decide (r.1.2.idle = some 1) &&
          decide (sentTo 3 r.2.hist = [⟨0, 0⟩])) = some true := by
    decide +kernel
  obtain ⟨⟨k₁, k₃⟩, k₄, h, htests⟩ := ok_of_test htest
  simp only [Bool.and_eq_true, decide_eq_true_eq] at htests
  obtain ⟨⟨⟨⟨⟨⟨⟨⟨hcur₁, hin₁⟩, hidle₁⟩, hto⟩, hin₁'⟩, hcur₃⟩, hin₃⟩, hidle₃⟩, hsent⟩ := htests
  obtain ⟨_, k, h₁, h⟩ := bind_ok_iff.mp h
  obtain ⟨_, _, hget, h⟩ := bind_ok_iff.mp h
  obtain ⟨rfl, rfl⟩ := Prod.mk.inj (Except.ok.inj hget)
  obtain ⟨_, k₂, h₂, h⟩ := bind_ok_iff.mp h
  obtain ⟨_, k', h₃, h⟩ := bind_ok_iff.mp h
  obtain ⟨_, _, hget', h⟩ := bind_ok_iff.mp h
  obtain ⟨rfl, rfl⟩ := Prod.mk.inj (Except.ok.inj hget')
  obtain ⟨_, k'', h₄, h⟩ := bind_ok_iff.mp h
  obtain ⟨heq, rfl⟩ := Prod.mk.inj (Except.ok.inj h)
  obtain ⟨rfl, rfl⟩ := Prod.mk.inj heq
  have hne : ∀ {k : Kernel Unit} {s : Slot}, k.idle = some 1 → s ≠ 1 → k.board.idle ≠ some s := by
    intro k s hidle hs hs'
    exact hs (Option.some.inj (hs'.symm.trans hidle))
  have hs₁ : ServeStep (fun s => decide (s = 3)) (demoKernel, fun _ => false)
      (.recv 0x5080#32 0#32) (k, Function.update (fun _ => false) 3 true) :=
    ⟨⟨fun _ => ⟨3, rfl, rfl, by decide⟩, h₁⟩, 3, rfl, by decide, rfl, rfl⟩
  have hs₂ : ServeStep (fun s => decide (s = 3)) (k, Function.update (fun _ => false) 3 true)
      (.send 0x5040#32 0#32) (k₂, Function.update (fun _ => false) 3 true) :=
    ⟨⟨fun _ => ⟨0, hcur₁, hin₁, hne hidle₁ (by decide)⟩, h₂⟩, rfl, 0, 3, hcur₁, by decide, hto,
      hin₁'⟩
  have hs₃ : ServeStep (fun s => decide (s = 3)) (k₂, Function.update (fun _ => false) 3 true)
      (.tick 0#32) (k', Function.update (fun _ => false) 3 true) :=
    ⟨⟨fun h => absurd h (by decide), h₃⟩, rfl⟩
  have hs₄ : ServeStep (fun s => decide (s = 3)) (k', Function.update (fun _ => false) 3 true)
      (.reply 0x5000#32 0#32)
      (k'', Function.update (Function.update (fun _ => false) 3 true) 3 false) :=
    ⟨⟨fun _ => ⟨3, hcur₃, hin₃, hne hidle₃ (by decide)⟩, h₄⟩, 3, hcur₃, by decide, by simp, rfl⟩
  have hrun := (((Run.start.next hs₁).next hs₂).next hs₃).next hs₄
  refine ⟨_, _, hrun, hsent,
    (first_come_first_served booted_demoKernel (fun s hs => ?_) hrun 3 (by decide)).1⟩
  rw [of_decide_eq_true hs]
  rfl

end Leoman
