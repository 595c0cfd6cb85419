import Leoman.Ipc
import Mathlib.Algebra.BigOperators.Group.Finset.Basic

namespace Leoman

open ByteMem StateExcept Runs

/-!
# Synchronous IPC

`include/ipc.h` documents `ipc_send` as blocking until the receiver has replied.  The call
blocks its caller in two of the receiver's states and returns at once in the others, with the
packet queued all the same.

* `Board.packetsFrom` — the packets of a process in all queues together;
* `Board.Sync` — the invariant that links the queues to the states;
* `send_is_synchronous` — in every run whose sends find their receiver ready or waiting, a
  process waits for a reply exactly while one packet of its own is queued somewhere, and only
  the reply to that packet ends the wait;
* `send_to_blocked_does_not_wait` — a send to a process that itself waits for a reply.
-/

/-! ### Counting packets -/

/-- The packet is a send of `p`. -/
def MsgPacketQueue.isFrom (p : Slot) (n : MsgPacketQueue) : Bool :=
  decide (n.origin.map Origin.src = some p)

/-- `PROC_SEND_BLOCKED` or `PROC_REPLY_BLOCKED`: the process waits for a reply. -/
def ProcState.awaitsReply (st : ProcState) : Bool :=
  decide (st = .sendBlocked) || decide (st = .replyBlocked)

namespace Board

/-- The packets sent by `p` in the queues of all processes together.  Placeholders nobody has
    filled do not count. -/
def packetsFrom (b : Board) (p : Slot) : Nat :=
  ∑ s : Slot, (b.queue s).countP (MsgPacketQueue.isFrom p)

section Count

variable {b : Board} {s p : Slot} {q : List MsgPacketQueue} {n : MsgPacketQueue}

/-- Replacing one queue. -/
theorem packetsFrom_setQueue : (b.setQueue s q).packetsFrom p
      + (b.queue s).countP (MsgPacketQueue.isFrom p)
    = b.packetsFrom p + q.countP (MsgPacketQueue.isFrom p) := by
  unfold packetsFrom
  rw [← Finset.add_sum_erase _ _ (Finset.mem_univ s),
    ← Finset.add_sum_erase Finset.univ (fun t => (b.queue t).countP _) (Finset.mem_univ s)]
  have hrest : ∑ t ∈ Finset.univ.erase s, ((b.setQueue s q).queue t).countP
        (MsgPacketQueue.isFrom p)
      = ∑ t ∈ Finset.univ.erase s, (b.queue t).countP (MsgPacketQueue.isFrom p) := by
    refine Finset.sum_congr rfl fun t ht => ?_
    rw [setQueue_queue, Function.update_of_ne (Finset.ne_of_mem_erase ht)]
  rw [hrest, setQueue_queue, Function.update_self]
  omega

/-- Only the queues count. -/
theorem packetsFrom_congr {b' : Board} (h : b'.queue = b.queue) :
    b'.packetsFrom p = b.packetsFrom p := by
  rw [packetsFrom, packetsFrom, h]

theorem packetsFrom_push (hin : b.inited s = true) : (b.push s n).packetsFrom p
    = b.packetsFrom p + if n.isFrom p then 1 else 0 := by
  have h := packetsFrom_setQueue (b := b) (s := s) (p := p) (q := b.queue s ++ [n])
  rw [push, if_pos hin]
  rw [List.countP_append, List.countP_singleton] at h
  omega

/-- Without packets of `p` none of the packets in any queue is from `p`. -/
theorem not_isFrom_of_packetsFrom (h : b.packetsFrom p = 0) (hn : n ∈ b.queue s) :
    n.isFrom p = false := by
  have hz : (b.queue s).countP (MsgPacketQueue.isFrom p) = 0 :=
    Finset.sum_eq_zero_iff.mp h s (Finset.mem_univ s)
  rw [List.countP_eq_zero] at hz
  simpa using hz n hn

theorem SentBy.isFrom {c : Slot} (h : b.SentBy c n) : n.isFrom p = decide (c = p) := by
  unfold MsgPacketQueue.isFrom
  rw [h.1]
  simp [origin]

end Count

/-! ### The invariant -/

/-- The queues and the states belong together. -/
structure Sync (b : Board) : Prop where
  alone : b.Alone
  /-- Outside `recv` every queued packet is a send. -/
  filled : ∀ s n, b.state s ≠ .recvBlocked → n ∈ b.queue s → ∃ o, n.origin = some o
  /-- A send names its sender, a process. -/
  sender : ∀ s n o, n ∈ b.queue s → n.origin = some o →
    n.msg.sender = b.pid o.src ∧ b.inited o.src = true
  count : ∀ p, b.packetsFrom p = if (b.state p).awaitsReply then 1 else 0
  named : b.Named

variable {b b' : Board} {c r : Slot}

/-- A process that is not blocked waits for no reply. -/
theorem awaitsReply_of_not_blocked {st : ProcState} (h : st.blocked = false) :
    st.awaitsReply = false := by
  cases st <;> simp_all [ProcState.blocked, ProcState.awaitsReply]

/-- What a call leaves of the invariant besides the count: its new packets are sends of the
    caller or placeholders, a queue outside `recv` gains sends only, and unused slots are left
    alone. -/
theorem Sync.of_moves (hs : b.Sync) (halone : b'.Alone) (hin : b.inited c = true)
    (hpid : b'.pid = b.pid) (hinited : b'.inited = b.inited) (hcur : b'.current = b.current)
    (hidle : b'.idle = b.idle)
    (hnew : ∀ s n, n ∈ b'.queue s → n ∈ b.queue s ∨ n.origin = none ∨ b.SentBy c n)
    (hfill : ∀ s n, b'.state s ≠ .recvBlocked → n ∈ b'.queue s →
      b.state s ≠ .recvBlocked ∧ n ∈ b.queue s ∨ b.SentBy c n)
    (hused : ∀ s, b.inited s = false → b'.state s = b.state s)
    (hcount : ∀ p, b'.packetsFrom p = if (b'.state p).awaitsReply then 1 else 0) : b'.Sync := by
  refine ⟨halone, ?_, ?_, hcount, hs.named.of_moves hpid hinited hcur hidle hused⟩
  · intro s n hst hn
    rcases hfill s n hst hn with ⟨hst', hn'⟩ | hsent
    · exact hs.filled s n hst' hn'
    · exact ⟨_, hsent.1⟩
  · intro s n o hn ho
    rw [hpid, hinited]
    rcases hnew s n hn with hn' | hnone | hsent
    · exact hs.sender s n o hn' ho
    · exact absurd (hnone.symm.trans ho) (by simp)
    · obtain rfl := Option.some.inj (hsent.1.symm.trans ho)
      exact ⟨hsent.2, hin⟩

/-- **A send** to a process that is ready or waiting. -/
theorem Sync.deposit (hs : b.Sync) (hc : (b.state c).blocked = false) (hin : b.inited c = true)
    (hrin : b.inited r = true) (hr : b.state r = .ready ∨ b.state r = .recvBlocked)
    (h : b.Deposit c r b') : b'.Sync := by
  have halone := hs.alone.deposit h
  have hcrecv : b.state c ≠ .recvBlocked := by
    intro h
    rw [h] at hc
    exact absurd hc (by decide)
  cases h with
  | @waiting n n' rest hst hq hsent =>
    -- the one packet of `r` is its placeholder, and becomes a packet of `c`
    obtain ⟨n₀, hq₀, hn₀⟩ := hs.alone r hst
    obtain ⟨rfl, rfl⟩ : n = n₀ ∧ rest = [] := by
      rw [hq] at hq₀
      exact List.cons_eq_cons.mp hq₀
    have hcr : c ≠ r := by
      rintro rfl
      exact hcrecv hst
    have hmem : ∀ s m, m ∈ Function.update b.queue r [n'] s → s ≠ r ∧ m ∈ b.queue s ∨ m = n' := by
      intro s m hm
      by_cases hsr : s = r
      · subst hsr
        rw [Function.update_self, List.mem_singleton] at hm
        exact Or.inr hm
      · rw [Function.update_of_ne hsr] at hm
        exact Or.inl ⟨hsr, hm⟩
    refine hs.of_moves halone hin rfl rfl rfl rfl ?_ ?_ ?_ ?_
    · intro s m hm
      rcases hmem s m hm with ⟨-, hm⟩ | rfl
      · exact Or.inl hm
      · exact Or.inr (Or.inr hsent)
    · intro s m hsm hm
      rcases hmem s m hm with ⟨hsr, hm⟩ | rfl
      · refine Or.inl ⟨fun h => hsm ?_, hm⟩
        have hsc : s ≠ c := by
          rintro rfl
          exact hcrecv h
        simp [hsr, hsc, h]
      · exact Or.inr hsent
    · intro s hs'
      simp [ne_of_inited hs' hrin, ne_of_inited hs' hin]
    · intro p
      have hcount := packetsFrom_setQueue (b := b.setState c .sendBlocked) (s := r) (p := p)
        (q := [n'])
      have hn₀' : n.isFrom p = false := by simp [MsgPacketQueue.isFrom, hn₀]
      rw [setState_queue, hq, List.countP_singleton, List.countP_singleton, hn₀',
        hsent.isFrom, packetsFrom_congr (setState_queue _ _ _), hs.count p] at hcount
      rw [packetsFrom_congr (setState_queue _ _ _), packetsFrom_congr (record_queue _ _),
        packetsFrom_congr (record_queue _ _)]
      by_cases hpc : c = p
      · subst hpc
        rw [awaitsReply_of_not_blocked hc] at hcount
        simpa [Function.update_of_ne hcr, ProcState.awaitsReply] using hcount
      · by_cases hpr : p = r
        · subst hpr
          simp only [hst] at hcount
          simpa [hpc, ProcState.awaitsReply] using hcount
        · simpa [hpc, Ne.symm hpc, hpr] using hcount
  | @ready n hst hsent =>
    have hmem : ∀ s m, m ∈ (b.push r n).queue s → m ∈ b.queue s ∨ s = r ∧ m = n := by
      intro s m hm
      rw [push, if_pos hrin, setQueue_queue] at hm
      by_cases hsr : s = r
      · subst hsr
        rw [Function.update_self, List.mem_append, List.mem_singleton] at hm
        exact hm.imp_right fun h => ⟨rfl, h⟩
      · rw [Function.update_of_ne hsr] at hm
        exact Or.inl hm
    refine hs.of_moves halone hin rfl rfl rfl rfl ?_ ?_ ?_ ?_
    · intro s m hm
      rcases hmem s m hm with hm | ⟨-, rfl⟩
      · exact Or.inl hm
      · exact Or.inr (Or.inr hsent)
    · intro s m hsm hm
      rcases hmem s m hm with hm | ⟨-, rfl⟩
      · refine Or.inl ⟨fun h => hsm ?_, hm⟩
        have hsc : s ≠ c := by
          rintro rfl
          exact hcrecv h
        simp [push, hsc, h]
      · exact Or.inr hsent
    · intro s hs'
      simp [push, ne_of_inited hs' hin]
    · intro p
      rw [packetsFrom_congr (setState_queue _ _ _), packetsFrom_congr (record_queue _ _),
        packetsFrom_push hrin, hs.count p, hsent.isFrom]
      by_cases hpc : c = p
      · subst hpc
        rw [awaitsReply_of_not_blocked hc]
        simp [ProcState.awaitsReply]
      · simp [push, hpc, Ne.symm hpc]
  | other h₁ h₂ hsent => exact absurd hr (by simp [h₁, h₂])

/-- **A receive.** -/
theorem Sync.receive (hs : b.Sync) (hc : (b.state c).blocked = false) (hin : b.inited c = true)
    (h : b.Receive c b') : b'.Sync := by
  have halone := hs.alone.receive hin h
  cases h with
  | @block n hq hn =>
    have hmem : ∀ s m, m ∈ ((b.setState c .recvBlocked).push c n).queue s →
        m ∈ b.queue s ∨ s = c ∧ m = n := by
      intro s m hm
      by_cases hsc : s = c
      · subst hsc
        simp only [push, setState_inited, hin, if_true, setState_queue, hq, setQueue_queue,
          Function.update_self, List.nil_append, List.mem_singleton] at hm
        exact Or.inr ⟨rfl, hm⟩
      · simp only [push, setQueue_queue, setState_queue, Function.update_of_ne hsc] at hm
        exact Or.inl hm
    refine hs.of_moves halone hin rfl rfl rfl rfl ?_ ?_ ?_ ?_
    · intro s m hm
      rcases hmem s m hm with hm | ⟨-, rfl⟩
      · exact Or.inl hm
      · exact Or.inr (Or.inl hn)
    · intro s m hsm hm
      have hsc : s ≠ c := by
        rintro rfl
        simp [push] at hsm
      rcases hmem s m hm with hm | ⟨hsc', -⟩
      · refine Or.inl ⟨fun h => hsm ?_, hm⟩
        simp [push, hsc, h]
      · exact absurd hsc' hsc
    · intro s hs'
      simp [push, ne_of_inited hs' hin]
    · intro p
      have hn' : n.isFrom p = false := by simp [MsgPacketQueue.isFrom, hn]
      rw [packetsFrom_push (by simpa using hin), packetsFrom_congr (setState_queue _ _ _),
        hs.count p, hn']
      by_cases hpc : p = c
      · subst hpc
        rw [awaitsReply_of_not_blocked hc]
        simp [push, ProcState.awaitsReply]
      · simp [push, hpc]
  | take hq =>
    exact ⟨halone, hs.filled, hs.sender, fun p => (packetsFrom_congr rfl).trans (hs.count p),
      hs.named.of_moves rfl rfl rfl rfl fun _ _ => rfl⟩

/-- The first packet of a process that is not blocked: a send of a process that waits. -/
theorem Sync.first (hs : b.Sync) (hc : (b.state c).blocked = false) {n : MsgPacketQueue}
    {rest : List MsgPacketQueue} (hq : b.queue c = n :: rest) :
    ∃ o, n.origin = some o ∧ b.find n.msg.sender = some o.src ∧
      (b.state o.src).awaitsReply = true ∧ b.inited o.src = true := by
  have hmem : n ∈ b.queue c := by
    rw [hq]
    exact List.mem_cons_self
  obtain ⟨o, ho⟩ := hs.filled c n (fun h => by rw [h] at hc; exact absurd hc (by decide)) hmem
  obtain ⟨hsender, hoin⟩ := hs.sender c n o hmem ho
  refine ⟨o, ho, ?_, ?_, hoin⟩
  · rw [hsender]
    exact hs.named.find_pid hoin
  · by_contra hno
    have hz : b.packetsFrom o.src = 0 := by
      rw [hs.count, if_neg hno]
    have := not_isFrom_of_packetsFrom hz hmem
    simp [MsgPacketQueue.isFrom, ho] at this

/-- **A reply.** -/
theorem Sync.answer (hs : b.Sync) (hc : (b.state c).blocked = false) (hin : b.inited c = true)
    (h : b.Answer c b') : b'.Sync := by
  have halone := hs.alone.answer hc h
  cases h with
  | nothing hq => exact hs
  | @first n rest hq =>
    obtain ⟨o, ho, hfind, hawait, hoin⟩ := hs.first hc hq
    have hmem : ∀ s m, m ∈ Function.update b.queue c rest s → m ∈ b.queue s := by
      intro s m hm
      by_cases hsc : s = c
      · subst hsc
        rw [Function.update_self] at hm
        rw [hq]
        exact List.mem_cons_of_mem n hm
      · rwa [Function.update_of_ne hsc] at hm
    rw [hfind] at halone ⊢
    -- the sender waits and the caller does not
    have hoc : o.src ≠ c := by
      intro h
      rw [h, awaitsReply_of_not_blocked hc] at hawait
      exact absurd hawait (by decide)
    refine hs.of_moves halone hin rfl rfl rfl rfl ?_ ?_ ?_ ?_
    · intro s m hm
      exact Or.inl (hmem s m hm)
    · intro s m hsm hm
      refine Or.inl ⟨fun h => hsm ?_, hmem s m hm⟩
      have hso : s ≠ o.src := by
        rintro rfl
        rw [h] at hawait
        exact absurd hawait (by decide)
      simp [wake, hso, h]
    · intro s hs'
      simp [wake, ne_of_inited hs' hoin]
    · intro p
      -- the sender has no packet left and no longer waits; for all others nothing changes
      have hcount := packetsFrom_setQueue (b := b) (s := c) (p := p) (q := rest)
      rw [hq, List.countP_cons, hs.count p] at hcount
      rw [packetsFrom_congr (record_queue _ _), packetsFrom_congr (wake_queue _ _)]
      have hfrom : n.isFrom p = decide (o.src = p) := by simp [MsgPacketQueue.isFrom, ho]
      rw [hfrom] at hcount
      by_cases hpo : o.src = p
      · subst hpo
        rw [hawait] at hcount
        have hz : (b.setQueue c rest).packetsFrom o.src = 0 := by
          simp at hcount
          omega
        rw [hz]
        simp [wake, ProcState.awaitsReply]
      · have : (b.setQueue c rest).packetsFrom p = if (b.state p).awaitsReply then 1 else 0 := by
          simp only [hpo, decide_false, Bool.false_eq_true, if_false] at hcount
          omega
        rw [this]
        simp [wake, Ne.symm hpo]

/-- **A scheduling decision.** -/
theorem Sync.sched (hs : b.Sync) (h : b.Sched b') : b'.Sync := by
  obtain ⟨c, hy⟩ := hs.named.yields h
  refine ⟨hs.alone.sched h, ?_, ?_, ?_, hs.named.sched h⟩
  · intro s n hst hn
    rw [hy.queue] at hn
    refine hs.filled s n (fun hrecv => ?_) hn
    rcases hy.state_cases s with hsame | ⟨-, -, hbl⟩
    · exact hst (hsame.trans hrecv)
    · rw [hrecv] at hbl
      exact absurd hbl (by decide)
  · intro s n o hn ho
    rw [hy.queue] at hn
    rw [hy.pid, hy.inited]
    exact hs.sender s n o hn ho
  · intro p
    rw [packetsFrom_congr hy.queue, hs.count p]
    rcases hy.state_cases p with hsame | ⟨-, hready, hbl⟩
    · rw [hsame]
    · rw [hready, awaitsReply_of_not_blocked hbl]
      rfl

/-! ### Who stops waiting -/

/-- A send ends nobody's wait for a reply. -/
theorem Deposit.keeps_waiting (h : b.Deposit c r b') (hc : (b.state c).blocked = false)
    {p : Slot} (hp : (b.state p).awaitsReply = true) : (b'.state p).awaitsReply = true := by
  have hpc : p ≠ c := by
    rintro rfl
    rw [awaitsReply_of_not_blocked hc] at hp
    exact absurd hp (by decide)
  cases h with
  | waiting hst hq hsent =>
    have hpr : p ≠ r := by
      rintro rfl
      rw [hst] at hp
      exact absurd hp (by decide)
    simpa [hpc, hpr] using hp
  | ready hst hsent => simpa [push, hpc] using hp
  | other h₁ h₂ hsent => simpa [push] using hp

/-- Nor does a receive. -/
theorem Receive.keeps_waiting (h : b.Receive c b') (hc : (b.state c).blocked = false)
    {p : Slot} (hp : (b.state p).awaitsReply = true) : (b'.state p).awaitsReply = true := by
  have hpc : p ≠ c := by
    rintro rfl
    rw [awaitsReply_of_not_blocked hc] at hp
    exact absurd hp (by decide)
  cases h with
  | block hq hn => simpa [push, hpc] using hp
  | take hq => exact hp

/-- Nor does a scheduling decision. -/
theorem Named.sched_keeps_waiting (hn : b.Named) (h : b.Sched b') {p : Slot}
    (hp : (b.state p).awaitsReply = true) : (b'.state p).awaitsReply = true := by
  obtain ⟨c, hy⟩ := hn.yields h
  rcases hy.state_cases p with hsame | ⟨-, -, hbl⟩
  · rw [hsame]
    exact hp
  · rw [awaitsReply_of_not_blocked hbl] at hp
    exact absurd hp (by decide)

end Board

/-! ### Runs -/

section Runs

variable {τ : Type} {k k' k₀ : Kernel τ} {n : Nat}

/-- Boot leaves everything in order. -/
theorem Booted.sync (h : Booted n k) : k.board.Sync := by
  refine ⟨h.waits.1, ?_, ?_, ?_, h.named⟩
  · intro s m _ hm
    rw [h.queue s] at hm
    exact absurd hm (by simp)
  · intro s m o hm
    rw [h.queue s] at hm
    exact absurd hm (by simp)
  · intro p
    have hz : k.board.packetsFrom p = 0 :=
      Finset.sum_eq_zero fun s _ => by rw [h.queue s]; rfl
    rw [hz]
    rcases h.state_cases p with h' | h' | h' <;> rw [h'] <;> rfl

variable [Tlb τ]

/-- The receiver of a send is a process that is ready or waits in `recv`. -/
def Listens (k : Kernel τ) (msg : BitVec 32) : Prop :=
  ∃ r, k.receiverOf msg = some r ∧ (k.procs r).recvQueue.inited = true ∧
    ((k.procs r).state = .ready ∨ (k.procs r).state = .recvBlocked)

/-- A step in which a send finds its receiver listening. -/
def SyncStep (k : Kernel τ) (op : IpcOp τ) (k' : Kernel τ) : Prop :=
  IpcStep k op k' ∧ ∀ msg frame, op = .send msg frame → Listens k msg

/-- The caller of a system call, and that it is not blocked. -/
theorem IpcStep.caller {op : IpcOp τ} {c : Slot} (hw : Waits k.board) (h : IpcStep k op k')
    (hcall : op.isCall = true) (hc : k.board.current = some c) :
    k.board.inited c = true ∧ (k.board.state c).blocked = false := by
  obtain ⟨c', hc', hin, hidle⟩ := h.1 hcall
  obtain rfl : c = c' := Option.some.inj (hc.symm.trans hc')
  exact ⟨hin, hw.2 c hc hidle⟩

/-- One step. -/
theorem SyncStep.sync {op : IpcOp τ} (hw : Waits k.board) (hs : k.board.Sync)
    (h : SyncStep k op k') : k'.board.Sync := by
  obtain ⟨hstep, hlisten⟩ := h
  cases op with
  | send msg frame =>
    obtain ⟨c, hc, ⟨-, hsame⟩ | ⟨r, b, hr, hdep, hsched⟩⟩ := send_refines hstep.2
    · rw [hsame]
      exact hs
    · obtain ⟨hin, hfree⟩ := hstep.caller hw rfl hc
      obtain ⟨r', hr', hrin, hrst⟩ := hlisten msg frame rfl
      obtain rfl : r = r' := Option.some.inj (hr.symm.trans hr')
      exact (hs.deposit hfree hin hrin hrst hdep).sched hsched
  | recv msg frame =>
    obtain ⟨c, b, hc, hrec, hsched⟩ := recv_refines hstep.2
    obtain ⟨hin, hfree⟩ := hstep.caller hw rfl hc
    exact (hs.receive hfree hin hrec).sched hsched
  | reply msg frame =>
    obtain ⟨c, b, hc, hans, hsched⟩ := rply_refines hstep.2
    obtain ⟨hin, hfree⟩ := hstep.caller hw rfl hc
    exact (hs.answer hfree hin hans).sched hsched
  | tick frame =>
    rcases tick_refines hstep.2 with hsame | hsched
    · rw [hsame]
      exact hs
    · exact hs.sched hsched
  | other mach scheduling =>
    rw [other_refines hstep.2]
    exact hs

/-- The wait of `p` ends in a reply to the packet of `p`, which leaves its queue. -/
theorem SyncStep.wakes {op : IpcOp τ} {p : Slot} (hw : Waits k.board) (hs : k.board.Sync)
    (h : SyncStep k op k') (hp : (k.board.state p).awaitsReply = true)
    (hp' : (k'.board.state p).awaitsReply = false) :
    ∃ msg frame c n rest, op = .reply msg frame ∧ k.currentProc = some c ∧
      (k.procs c).recvQueue.msgs = n :: rest ∧ n.isFrom p = true ∧
      (k'.procs c).recvQueue.msgs = rest ∧
      k'.hist = k.hist ++ [.replied n.origin c (some p)] := by
  obtain ⟨hstep, hlisten⟩ := h
  -- scheduling alone never ends a wait
  have habs : ∀ {b : Board}, b.Sync → b.Sched k'.board →
      (b.state p).awaitsReply = true → False := by
    intro b hb hsched hbp
    rw [hb.named.sched_keeps_waiting hsched hbp] at hp'
    exact absurd hp' (by decide)
  cases op with
  | send msg frame =>
    obtain ⟨c, hc, ⟨-, hsame⟩ | ⟨r, b, hr, hdep, hsched⟩⟩ := send_refines hstep.2
    · rw [hsame, hp] at hp'
      exact absurd hp' (by decide)
    · obtain ⟨hin, hfree⟩ := hstep.caller hw rfl hc
      obtain ⟨r', hr', hrin, hrst⟩ := hlisten msg frame rfl
      obtain rfl : r = r' := Option.some.inj (hr.symm.trans hr')
      exact (habs (hs.deposit hfree hin hrin hrst hdep) hsched (hdep.keeps_waiting hfree hp)).elim
  | recv msg frame =>
    obtain ⟨c, b, hc, hrec, hsched⟩ := recv_refines hstep.2
    obtain ⟨hin, hfree⟩ := hstep.caller hw rfl hc
    exact (habs (hs.receive hfree hin hrec) hsched (hrec.keeps_waiting hfree hp)).elim
  | reply msg frame =>
    obtain ⟨c, b, hc, hans, hsched⟩ := rply_refines hstep.2
    obtain ⟨hin, hfree⟩ := hstep.caller hw rfl hc
    have hb := hs.answer hfree hin hans
    cases hans with
    | nothing hq => exact (habs hs hsched hp).elim
    | @first n rest hq =>
      obtain ⟨o, ho, hfind, -, -⟩ := hs.first hfree hq
      -- the one that was woken is the sender of the packet
      have hpo : o.src = p := by
        by_contra hne
        refine habs hb hsched ?_
        simpa [hfind, Board.wake, Ne.symm hne] using hp
      refine ⟨msg, frame, c, n, rest, rfl, hc, hq, ?_, ?_, ?_⟩
      · simp [MsgPacketQueue.isFrom, ho, hpo]
      · show k'.board.queue c = rest
        rw [hsched.fields.1]
        simp
      · show k'.board.hist = _
        rw [hsched.fields.2, hfind, hpo]
        simp [Kernel.board]
  | tick frame =>
    rcases tick_refines hstep.2 with hsame | hsched
    · rw [hsame, hp] at hp'
      exact absurd hp' (by decide)
    · exact (habs hs hsched hp).elim
  | other mach scheduling =>
    rw [other_refines hstep.2, hp] at hp'
    exact absurd hp' (by decide)

/-- **Synchronous IPC.**  In every run from boot whose sends all find a process that is ready or
    waits in `recv`: a process is send- or reply-blocked exactly when one packet it sent is
    queued, and else none is; and it stops waiting only in the step in which the receiver of
    that packet replies to it, which takes that packet out of the queue. -/
theorem send_is_synchronous {tr : List (IpcOp τ)} (hb : Booted n k₀)
    (hrun : Run SyncStep k₀ tr k) :
    (∀ p, ((k.procs p).state.awaitsReply = true ↔ k.board.packetsFrom p = 1) ∧
      ((k.procs p).state.awaitsReply = false → k.board.packetsFrom p = 0)) ∧
    ∀ op k' p, SyncStep k op k' → (k.procs p).state.awaitsReply = true →
      (k'.procs p).state.awaitsReply = false →
      ∃ msg frame c n rest, op = .reply msg frame ∧ k.currentProc = some c ∧
        (k.procs c).recvQueue.msgs = n :: rest ∧ n.isFrom p = true ∧
        (k'.procs c).recvQueue.msgs = rest ∧
        k'.hist = k.hist ++ [.replied n.origin c (some p)] := by
  obtain ⟨hw, hs⟩ := hrun.invariant (J := fun _ k => Waits k.board ∧ k.board.Sync)
    ⟨hb.waits, hb.sync⟩ fun _ _ _ _ hi hstep => ⟨hstep.1.waits hi.1, hstep.sync hi.1 hi.2⟩
  refine ⟨fun p => ?_, fun op k' p hstep hp hp' => hstep.wakes hw hs hp hp'⟩
  have hcount : k.board.packetsFrom p = if (k.procs p).state.awaitsReply then 1 else 0 := hs.count p
  rw [hcount]
  cases (k.procs p).state.awaitsReply <;> simp

end Runs

/-- Process 3 of the small system sends to process 2 and waits, with one packet queued. -/
theorem send_is_synchronous_demo : ∃ k, Run SyncStep demoKernel [.send 0x5000#32 0#32] k ∧
    (k.procs 3).state.awaitsReply = true ∧ k.board.packetsFrom 3 = 1 := by
  have htest : ((IpcOp.send 0x5000#32 0#32).exec demoKernel).toOption.map
      (fun r => (r.2.procs 3).state.awaitsReply) = some true := by
    decide +kernel
  obtain ⟨_, k, h, hk⟩ := ok_of_test htest
  have hlisten : Listens demoKernel 0x5000#32 := ⟨2, by decide +kernel, rfl, Or.inl rfl⟩
  have hstep : SyncStep demoKernel (.send 0x5000#32 0#32) k := by
    refine ⟨⟨fun _ => ⟨3, rfl, rfl, by decide⟩, h⟩, fun msg frame heq => ?_⟩
    obtain ⟨rfl, -⟩ := IpcOp.send.inj heq
    exact hlisten
  have hrun := Run.start.next hstep
  exact ⟨k, hrun, hk, ((send_is_synchronous booted_demoKernel hrun).1 3).1.mp hk⟩

/-- **A send to a process that waits for a reply itself.**  Process 3 sends to 2 and waits;
    then process 0 sends to 3.  Its packet is queued, and process 0 stays ready. -/
theorem send_to_blocked_does_not_wait : ∃ k, Run IpcStep demoKernel
    [.send 0x5000#32 0#32, .send 0x5040#32 0#32] k ∧ (k.procs 0).state = .ready ∧
      k.board.packetsFrom 0 = 1 := by
  -- both calls as one piece of code, which returns the kernel between them
  have htest : (((IpcOp.send 0x5000#32 0#32).exec >>= fun _ => get >>= fun k =>
      (IpcOp.send 0x5040#32 0#32).exec >>= fun _ => (pure k : Code Trap (Kernel Unit) _))
        demoKernel).toOption.map (fun r => decide (r.1.currentProc = some 0) &&
          (r.1.procs 0).recvQueue.inited && decide (r.1.idle = some 1) &&
          decide ((r.2.procs 0).state = .ready) && decide (r.2.board.packetsFrom 0 = 1))
      = some true := by
    decide +kernel
  obtain ⟨_, _, h, htests⟩ := ok_of_test htest
  simp only [Bool.and_eq_true, decide_eq_true_eq] at htests
  obtain ⟨⟨⟨⟨hcur, hin⟩, hidle⟩, hready⟩, hcount⟩ := htests
  obtain ⟨_, k, h₁, h⟩ := bind_ok_iff.mp h
  obtain ⟨_, _, hget, h⟩ := bind_ok_iff.mp h
  obtain ⟨rfl, rfl⟩ := Prod.mk.inj (Except.ok.inj hget)
  obtain ⟨_, k₂, h₂, h⟩ := bind_ok_iff.mp h
  obtain ⟨rfl, rfl⟩ := Prod.mk.inj (Except.ok.inj h)
  have hstep₁ : IpcStep demoKernel (.send 0x5000#32 0#32) k :=
    ⟨fun _ => ⟨3, rfl, rfl, by decide⟩, h₁⟩
  have hstep₂ : IpcStep k (.send 0x5040#32 0#32) k₂ := by
    refine ⟨fun _ => ⟨0, hcur, hin, ?_⟩, h₂⟩
    show k.idle ≠ some 0
    rw [hidle]
    decide
  exact ⟨k₂, (Run.start.next hstep₁).next hstep₂, hready, hcount⟩

end Leoman
