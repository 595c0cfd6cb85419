import Leoman.Ledger
import Leoman.MessageStore

namespace Leoman

open ByteMem StateExcept Runs

/-!
# IPC on linked queues

The system calls keep the receive queues as lists and ask a heap for their blocks.  Here they
run beside the memory that has both: every call makes its decision on what memory says, and does
to memory what its `kalloc`, its `kfree` and its macros do there.

* `QueueAct`, `IpcOp.act`, `IpcOp.actIn` — what a call does to the queues, by the lists and by
  memory;
* `act_done` — the kernel does it;
* `Mirrors` — memory has the queues of the kernel, in blocks at the same addresses;
* `QueueStep` — a call of a process, a send of it to a process, with no more than 314 packets
  queued after it, and with every other store, between the calls and in them, outside the reserved
  bytes; the calls do not keep to that by themselves, as a packet may aim its buffer anywhere;
* `queues_in_memory` — memory has the queues of the kernel in every run of such steps.
-/

/-! ### What a call does to the queues -/

/-- What there is to do: queue a packet, or take the first one. -/
inductive QueueAct where
  | nothing
  | put (s : Slot)
  | take (s : Slot)

/-- By the emptiness of a queue. -/
def QueueAct.ifEmpty (isEmpty : Slot → Bool) (yes no : Slot → QueueAct) (c : Option Slot) :
    QueueAct :=
  match c with
  | none => .nothing
  | some c => if isEmpty c then yes c else no c

section Acts

variable {τ : Type} [Tlb τ]

/-- What a call does, with a way to see whether a queue is empty. -/
def IpcOp.actBy (isEmpty : Slot → Bool) (k : Kernel τ) : IpcOp τ → QueueAct
  | .send msg _ =>
    match k.receiverOf msg with
    | none => .nothing
    | some r => if (k.procs r).state = .recvBlocked then .nothing else .put r
  | .recv _ _ => .ifEmpty isEmpty .put (fun _ => .nothing) k.currentProc
  | .reply _ _ => .ifEmpty isEmpty (fun _ => .nothing) .take k.currentProc
  | .tick _ | .other _ _ => .nothing

/-- What the kernel does. -/
def IpcOp.act (k : Kernel τ) : IpcOp τ → QueueAct :=
  IpcOp.actBy (fun s => (k.shelves s).2.isEmpty) k

/-- What it does as `STAILQ_EMPTY` tells. -/
def IpcOp.actIn (T : ProcTable) (m : Mem) (k : Kernel τ) : IpcOp τ → QueueAct :=
  IpcOp.actBy (fun s => stailqEmpty m (T.recvQueue s)) k

end Acts

/-- Do it in memory. -/
def QueueAct.exec (T : ProcTable) : QueueAct → Mem → Option Mem
  | .nothing, m => some m
  | .put s, m => (enqueue m (T.recvQueue s)).map Prod.snd
  | .take s, m => some (dequeue m (T.recvQueue s))

/-- The heap, and the blocks in the queues. -/
abbrev Stock := Heap × (Slot → Bool × List (BitVec 32))

/-- What it does to heap and queues. -/
def QueueAct.Does : QueueAct → Stock → Stock → Prop
  | .nothing, a, b => b = a
  | .put s, a, b => ∃ p, p ≠ 0#32 ∧ kalloc a.1 msgPacketQueueSize = some (p, b.1) ∧
      b.2 = Function.update a.2 s ((a.2 s).1, (a.2 s).2 ++ [p])
  | .take s, a, b => ∃ p rest, (a.2 s).2 = p :: rest ∧ b.1 = kfree a.1 p ∧
      b.2 = Function.update a.2 s ((a.2 s).1, rest)

/-! ### The kernel does it -/

section Stock

variable {τ : Type}

/-- The heap and the queues of a kernel. -/
def Kernel.stock (k : Kernel τ) : Stock := (k.heap, k.shelves)

/-- Code that leaves both alone. -/
theorem preserves_stock {α : Type} {x : Code Trap (Kernel τ) α} (hh : Preserves Kernel.heap x)
    (hs : Preserves Kernel.shelves x) : Preserves Kernel.stock x :=
  fun k a k' h => Prod.ext (hh k a k' h) (hs k a k' h)

theorem onMach_heap {α : Type} (x : Code Trap (Machine τ) α) : Preserves Kernel.heap (onMach x) :=
  Keeps.zoom fun _ _ => rfl

theorem setProc_heap (s : Slot) (f : Proc → Proc) : Preserves Kernel.heap (setProc (τ := τ) s f) :=
  .modify fun _ => rfl

theorem note_heap (e : IpcEvent) : Preserves Kernel.heap (note (τ := τ) e) := .modify fun _ => rfl

variable [Tlb τ] {k k' : Kernel τ} {c r : Slot} {msg frame : BitVec 32}

theorem fillPlaceholder_heap : Preserves Kernel.heap (fillPlaceholder (τ := τ) c r msg) := by
  refine Preserves.bind (setProc_heap _ _) fun _ => Preserves.bind .get fun k => ?_
  cases (k.procs r).recvQueue.msgs with
  | nil => exact .trap _
  | cons n rest =>
    refine Preserves.bind (onMach_heap _) fun _ => Preserves.bind (setProc_heap _ _) fun _ => ?_
    refine Preserves.bind (note_heap _) fun _ => Preserves.bind (onMach_heap _) fun _ => ?_
    refine Preserves.bind (onMach_heap _) fun _ => Preserves.bind (note_heap _) fun _ => ?_
    refine Preserves.bind (onMach_heap _) fun _ => Preserves.bind (setProc_heap _ _) fun _ => ?_
    exact setProc_heap _ _

theorem switchTo_heap (next : Option Slot) : Preserves Kernel.heap (switchTo (τ := τ) next) := by
  refine Preserves.bind (.modify fun _ => rfl) fun _ => ?_
  cases next with
  | none => exact .trap _
  | some n =>
    refine Preserves.bind .get fun k => Preserves.bind (.modify fun _ => rfl) fun _ => ?_
    exact Preserves.bind (onMach_heap _) fun _ => .pure _

theorem procScheduleAfterIrq_heap (frame : BitVec 32) :
    Preserves Kernel.heap (procScheduleAfterIrq (τ := τ) frame) := by
  refine Preserves.bind .get fun k => .ite (.pure _) ?_
  cases k.currentProc with
  | none => exact .pure _
  | some c =>
    refine Preserves.bind (setProc_heap _ _) fun _ => Preserves.bind .get fun k₁ => ?_
    refine Preserves.bind (Preserves.bind .get fun k₂ => ?_) fun _ => ?_
    · cases k₂.procFindByPid (k₁.procs c).pid with
      | none => exact .trap _
      | some s => exact .pure _
    · refine Preserves.bind (.onlyIf (setProc_heap _ _)) fun _ => ?_
      refine Preserves.bind ?_ fun _ => .ite (.pure _) (switchTo_heap _)
      intro k a k' h
      obtain ⟨-, rfl⟩ := Prod.mk.inj (Except.ok.inj h)
      rfl

/-- The end of every call. -/
theorem callEnd_stock : Preserves Kernel.stock (do
    procEnableScheduling
    procScheduleWithoutIrq frame : Code Trap (Kernel τ) Unit) := by
  refine Preserves.bind (.modify fun _ => rfl) fun _ => ?_
  refine Preserves.bind (preserves_stock (procScheduleAfterIrq_heap frame) ?_) fun _ => .pure _
  exact procScheduleAfterIrq_shelves frame

/-- The tail insertion into an initialised queue. -/
theorem insertTail_stock {s : Slot} {n : MsgPacketQueue} (hin : (k.shelves s).1 = true)
    (h : insertTail s n k = .ok ((), k')) : k'.stock = (k.heap,
      Function.update k.shelves s ((k.shelves s).1, (k.shelves s).2 ++ [n.addr])) := by
  rcases insertTail_ok h with ⟨-, rfl⟩ | ⟨hout, -⟩
  · refine Prod.ext rfl ?_
    show (k.updProc s _).shelves = _
    rw [shelves_updProc]
    simp [Kernel.shelves]
  · exact absurd (hout.symm.trans hin) (by decide)

omit [Tlb τ] in
theorem removeHead_stock {s : Slot} (h : removeHead s k = .ok ((), k')) : k'.stock = (k.heap,
    Function.update k.shelves s ((k.shelves s).1, (k.shelves s).2.tail)) := by
  obtain ⟨-, rfl⟩ := Prod.mk.inj (Except.ok.inj h)
  refine Prod.ext rfl ?_
  show (k.updProc s _).shelves = _
  rw [shelves_updProc]
  simp [Kernel.shelves]

/-- Waking a sender frees nothing. -/
theorem awaken_heap (sender : Option Slot) : Preserves Kernel.heap (awaken (τ := τ) sender) := by
  cases sender with
  | none => exact onMach_heap _
  | some p => exact setProc_heap _ _

/-- Queueing a block that `kalloc` has just returned. -/
theorem put_done {s : Slot} {heap : Heap} {k₁ : Kernel τ} {n : MsgPacketQueue}
    (hne : n.addr ≠ 0#32) (hkalloc : kalloc k.heap msgPacketQueueSize = some (n.addr, heap))
    (hstock : k₁.stock = (heap, k.shelves)) (hin : (k.shelves s).1 = true)
    (h : insertTail s n k₁ = .ok ((), k')) : (QueueAct.put s).Does k.stock k'.stock := by
  have hheap : k₁.heap = heap := congrArg Prod.fst hstock
  have hs : k₁.shelves = k.shelves := congrArg Prod.snd hstock
  have hin₁ : (k₁.shelves s).1 = true := by
    rw [hs]
    exact hin
  have hend := insertTail_stock hin₁ h
  rw [hheap, hs] at hend
  rw [hend]
  exact ⟨n.addr, hne, hkalloc, rfl⟩

/-- A send to a process that does not wait. -/
theorem queuePacket_done (hin : (k.shelves r).1 = true)
    (h : queuePacket c r msg k = .ok ((), k')) : (QueueAct.put r).Does k.stock k'.stock := by
  obtain ⟨addr, heap, packet, m, k₁, hne, hkalloc, -, hins, rfl⟩ := queuePacket_ok h
  have hstock : Kernel.stock { k with heap := heap, mach := m } = (heap, k.shelves) := rfl
  have hput : (QueueAct.put r).Does k.stock k₁.stock := put_done hne hkalloc hstock hin hins
  exact hput

/-- **A send** to a process. -/
theorem sendTo_done (hin : (k.shelves r).1 = true) (h : sendTo c r msg k = .ok ((), k')) :
    (if (k.procs r).state = .recvBlocked then QueueAct.nothing else .put r).Does
      k.stock k'.stock := by
  rcases sendTo_ok h with ⟨hst, hfill⟩ | ⟨hst, k₁, hput, hrest⟩
  · rw [if_pos hst]
    exact preserves_stock fillPlaceholder_heap (fillPlaceholder_shelves c r msg) _ _ _ hfill
  · rw [if_neg hst]
    -- what follows changes states only
    have hlast : k'.stock = k₁.stock := by
      rcases hrest with ⟨-, rfl⟩ | ⟨-, rfl⟩
      · exact Prod.ext rfl (setState_shelves c .replyBlocked k₁ () _ rfl)
      · rfl
    rw [hlast]
    exact queuePacket_done hin hput

/-- **A receive.** -/
theorem receive_done (hin : (k.shelves c).1 = true) (h : receive c msg k = .ok ((), k')) :
    (if (k.shelves c).2.isEmpty then QueueAct.put c else .nothing).Does k.stock k'.stock := by
  rcases receive_ok h with ⟨hq, addr, heap, packet, m, hne, hkalloc, -, hins⟩ |
    ⟨n, rest, m, hq, -, rfl⟩
  · have hempty : (k.shelves c).2 = [] := by simp [Kernel.shelves, hq]
    rw [hempty, if_pos List.isEmpty_nil]
    have hblocks := setState_shelves (τ := τ) c .recvBlocked k () _ rfl
    refine put_done (n := ⟨addr, packet, none⟩) hne hkalloc ?_ hin hins
    exact Prod.ext rfl hblocks
  · have hfull : (k.shelves c).2 = n.addr :: rest.map MsgPacketQueue.addr := by
      simp [Kernel.shelves, hq]
    rw [hfull, if_neg (by simp)]
    rfl

/-- **A reply.** -/
theorem reply_done (h : reply c msg k = .ok ((), k')) :
    (if (k.shelves c).2.isEmpty then QueueAct.nothing else .take c).Does k.stock k'.stock := by
  rcases reply_ok h with ⟨hq, rfl⟩ | ⟨n, rest, m, k₁, hq, -, hwake, rfl⟩
  · have hempty : (k'.shelves c).2 = [] := by simp [Kernel.shelves, hq]
    rw [hempty, if_pos List.isEmpty_nil]
    rfl
  · have hfull : (k.shelves c).2 = n.addr :: rest.map MsgPacketQueue.addr := by
      simp [Kernel.shelves, hq]
    rw [hfull, if_neg (by simp)]
    have hremove := congrArg Prod.snd (removeHead_stock (k := k) (s := c) rfl)
    -- waking the sender touches neither heap nor queues
    have hend := preserves_stock (awaken_heap _) (awaken_shelves _) _ _ _ hwake
    refine ⟨n.addr, rest.map MsgPacketQueue.addr, hfull, congrArg Prod.fst hend, ?_⟩
    refine (congrArg Prod.snd hend).trans (hremove.trans ?_)
    rw [hfull]
    rfl

/-- **An event** does to heap and queues what its code is for. -/
theorem act_done {op : IpcOp τ}
    (hcaller : op.isCall = true → ∃ c, k.board.current = some c ∧ k.board.inited c = true)
    (hreceiver : ∀ msg frame r, op = .send msg frame → k.receiverOf msg = some r →
      k.board.inited r = true)
    (h : op.exec k = .ok ((), k')) : (op.act k).Does k.stock k'.stock := by
  cases op with
  | send msg frame =>
    obtain ⟨c, pid, m, -, -, hto, hcases⟩ := syscallSendMsg_ok h
    have hr := hreceiver msg frame
    unfold IpcOp.act IpcOp.actBy
    simp only [hto] at hr ⊢
    rcases hcases with ⟨hnone, rfl⟩ | ⟨r, k₁, hf, hsend, hend⟩
    · rw [hnone]
      rfl
    · have hin : (k.shelves r).1 = true := hr r trivial hf
      rw [hf]
      -- the end of the call, the scheduler with it, touches neither heap nor queues
      rw [callEnd_stock _ _ _ hend]
      exact sendTo_done (k := { k with schedulingEnabled := false, mach := m }) hin hsend
  | recv msg frame =>
    obtain ⟨c, hc, hin⟩ := hcaller rfl
    have hcur : k.currentProc = some c := hc
    obtain ⟨c', k₁, hc', hrun, hend⟩ := syscallRecvMsg_ok h
    obtain rfl : c' = c := Option.some.inj (hc'.symm.trans hcur)
    unfold IpcOp.act IpcOp.actBy
    rw [callEnd_stock _ _ _ hend, hcur]
    exact receive_done (k := { k with schedulingEnabled := false }) hin hrun
  | reply msg frame =>
    obtain ⟨c, k₁, hcur, hrun, hend⟩ := syscallRplyMsg_ok h
    unfold IpcOp.act IpcOp.actBy
    rw [callEnd_stock _ _ _ hend, hcur]
    exact reply_done (k := { k with schedulingEnabled := false }) hrun
  | tick frame =>
    refine Preserves.bind (preserves_stock (procScheduleAfterIrq_heap frame) ?_)
      (fun _ => .pure _) _ _ _ h
    exact procScheduleAfterIrq_shelves frame
  | other mach scheduling =>
    obtain ⟨-, rfl⟩ := Prod.mk.inj (Except.ok.inj h)
    rfl

end Stock

/-! ### Memory follows -/

section Memory

variable {τ : Type} {n : Nat} {T : ProcTable} {k k' : Kernel τ} {m : Mem}

/-- The lists of the first `n` processes. -/
def Kernel.lists (k : Kernel τ) (n : Nat) : {s : Slot // s.val < n} → List (BitVec 32) :=
  fun s => (k.shelves s).2

/-- Memory has the queues of the kernel, and its heap gives out the blocks that the kernel's
    heap does. -/
structure Mirrors (T : ProcTable) (n : Nat) (k : Kernel τ) (m : Mem) : Prop where
  created : ∀ s, (k.shelves s).1 = true ↔ s.val < n
  others : ∀ s : Slot, n ≤ s.val → (k.shelves s).2 = []
  stocked : ∃ live, (live.map Prod.fst : Multiset (BitVec 32)) = k.queued ∧
    (∃ j, Slotted ⟨k.heap, live⟩ j) ∧ Stocked T n live m (k.lists n)

/-- Changing the queue of a process changes its list. -/
theorem lists_update {s : Slot} (hs : s.val < n) {b : Bool} {xs : List (BitVec 32)}
    (h : k'.shelves = Function.update k.shelves s (b, xs)) :
    k'.lists n = Function.update (k.lists n) ⟨s, hs⟩ xs := by
  funext t
  unfold Kernel.lists
  rw [h]
  by_cases hts : t = ⟨s, hs⟩
  · subst hts
    rw [Function.update_self, Function.update_self]
  · have hne : t.val ≠ s := fun heq => hts (Subtype.ext heq)
    rw [Function.update_of_ne hne, Function.update_of_ne hts]

/-- And nothing else. -/
theorem Mirrors.update (h : Mirrors T n k m) {s : Slot} (hs : s.val < n) {xs : List (BitVec 32)}
    (hsh : k'.shelves = Function.update k.shelves s ((k.shelves s).1, xs)) :
    (∀ t, (k'.shelves t).1 = true ↔ t.val < n) ∧ ∀ t : Slot, n ≤ t.val → (k'.shelves t).2 = [] := by
  rw [hsh]
  refine ⟨fun t => ?_, fun t ht => ?_⟩
  · by_cases hts : t = s
    · subst hts
      rw [Function.update_self]
      exact h.created t
    · rw [Function.update_of_ne hts]
      exact h.created t
  · have hts : t ≠ s := by
      rintro rfl
      omega
    rw [Function.update_of_ne hts]
    exact h.others t ht

/-- One packet more. -/
theorem queued_put {s : Slot} {b : Bool} {p : BitVec 32}
    (hsh : k'.shelves = Function.update k.shelves s (b, (k.shelves s).2 ++ [p])) :
    k'.queued = p ::ₘ k.queued := by
  have hu := queuedIn_update k.shelves s (b, (k.shelves s).2 ++ [p])
  rw [← Multiset.coe_add, ← add_assoc, add_right_comm] at hu
  have hu := add_right_cancel hu
  rw [Kernel.queued, hsh, hu, Multiset.coe_singleton, add_comm, Multiset.singleton_add]
  rfl

/-- One packet less. -/
theorem queued_take {s : Slot} {b : Bool} {p : BitVec 32} {rest : List (BitVec 32)}
    (hq : (k.shelves s).2 = p :: rest) (hsh : k'.shelves = Function.update k.shelves s (b, rest)) :
    k.queued = p ::ₘ k'.queued := by
  have hu := queuedIn_update k.shelves s (b, rest)
  rw [hq, ← Multiset.cons_coe, Multiset.add_cons, ← Multiset.cons_add] at hu
  have hu := add_right_cancel hu
  rw [Kernel.queued, Kernel.queued, hsh]
  exact hu.symm

/-- The least free slot is one. -/
theorem HeapState.LeastFree.unique {s s' : HeapState} {i j : Nat} (hi : s.LeastFree i)
    (hj : s'.LeastFree j) (hlive : s.live = s'.live) : i = j := by
  have hslot : ∀ l, s.SlotLive l ↔ s'.SlotLive l := by
    intro l
    unfold HeapState.SlotLive
    rw [hlive]
  rcases lt_trichotomy i j with hlt | heq | hlt
  · exact absurd ((hslot i).mpr (hj.2 i hlt)) hi.1
  · exact heq
  · exact absurd ((hslot j).mp (hi.2 j hlt)) hj.1

/-- **Queueing a packet** in memory: the heap there returns the same block. -/
theorem Mirrors.put (h : Mirrors T n k m) {s : Slot} (hs : s.val < n)
    (hdone : (QueueAct.put s).Does k.stock k'.stock) (hfew : k'.queued.card ≤ 314) :
    ∃ m', (QueueAct.put s).exec T m = some m' ∧ Mirrors T n k' m' := by
  obtain ⟨p, hne, hcall, hsh⟩ := hdone
  obtain ⟨live, hlive, ⟨j, hj⟩, hst⟩ := h.stocked
  have hqueued : k'.queued = p ::ₘ k.queued := queued_put hsh
  have hlen : live.length < 314 := by
    have hcard := congrArg Multiset.card hlive
    rw [Multiset.coe_card, List.length_map] at hcard
    rw [hqueued, Multiset.card_cons] at hfew
    omega
  -- both heaps return the least slot that is free
  obtain ⟨i, hi, hleast, -, hcall', hstep⟩ := hj.kalloc_takes
  obtain ⟨i', m', hleast', henq, hst'⟩ := hst.enqueue hlen ⟨s, hs⟩
  obtain rfl : i = i' := hleast.unique hleast' rfl
  have hboth : (p, k'.heap) = (packetPayload i, _) := Option.some.inj (hcall.symm.trans hcall')
  obtain ⟨rfl, hheap⟩ := Prod.mk.inj hboth
  have hkept := fun hroom => hj.kalloc hroom hstep
  obtain ⟨j', hj'⟩ := hkept (Nat.succ_le_of_lt hlen)
  obtain ⟨hcreated, hothers⟩ := h.update hs hsh
  refine ⟨m', ?_, hcreated, hothers, (packetPayload i, msgPacketQueueSize) :: live, ?_, ⟨j', ?_⟩,
    ?_⟩
  · show (enqueue m (T.recvQueue s)).map Prod.snd = some m'
    rw [henq]
    rfl
  · rw [hqueued, ← hlive]
    rfl
  · rw [hheap]
    exact hj'
  · rw [lists_update hs hsh]
    exact hst'

/-- **Taking the first packet** in memory. -/
theorem Mirrors.take (h : Mirrors T n k m) {s : Slot} (hs : s.val < n)
    (hdone : (QueueAct.take s).Does k.stock k'.stock) :
    ∃ m', (QueueAct.take s).exec T m = some m' ∧ Mirrors T n k' m' := by
  obtain ⟨p, rest, hq, hheap, hsh⟩ := hdone
  obtain ⟨live, hlive, ⟨j, hj⟩, hst⟩ := h.stocked
  have hqueued : k.queued = p ::ₘ k'.queued := queued_take hq hsh
  have hmem : p ∈ live.map Prod.fst := by
    rw [← Multiset.mem_coe, hlive, hqueued]
    exact Multiset.mem_cons_self p _
  have hstep : HeapState.step ⟨k.heap, live⟩ (.kfree p)
      = some ⟨kfree k.heap p, live.eraseP fun e => e.1 = p⟩ := if_pos hmem
  obtain ⟨hcreated, hothers⟩ := h.update hs hsh
  have hq' : k.lists n ⟨s, hs⟩ = p :: rest := hq
  have hst' := hst.dequeue hq'
  refine ⟨dequeue m (T.recvQueue s), rfl, hcreated, hothers, live.eraseP fun e => e.1 = p, ?_,
    ⟨j, ?_⟩, ?_⟩
  · have herase : (live.eraseP fun e => e.1 = p).map Prod.fst = (live.map Prod.fst).erase p := by
      rw [List.erase_eq_eraseP, List.eraseP_map]
      congr 2
      funext e
      exact decide_eq_decide.mpr eq_comm
    rw [herase, ← Multiset.coe_erase, hlive, hqueued, Multiset.erase_cons_head]
  · rw [show k'.heap = kfree k.heap p from hheap]
    exact hj.kfree hstep
  · rw [lists_update hs hsh]
    exact hst'

/-- Code that leaves heap and queues alone. -/
theorem Mirrors.of_stock (h : Mirrors T n k m) (hs : k'.stock = k.stock) : Mirrors T n k' m := by
  have hheap : k'.heap = k.heap := congrArg Prod.fst hs
  have hsh : k'.shelves = k.shelves := congrArg Prod.snd hs
  have hlists : k'.lists n = k.lists n := by
    unfold Kernel.lists
    rw [hsh]
  refine ⟨fun s => ?_, fun s hs => ?_, ?_⟩
  · rw [hsh]
    exact h.created s
  · rw [hsh]
    exact h.others s hs
  · rw [hheap, hlists, Kernel.queued, hsh]
    exact h.stocked

/-- **Boot**: the heap is new, and the queues are empty. -/
theorem Mirrors.start (hb : Booted n k) {m₁ : Mem} (hheap : k.heap = heapInit m₁)
    (hm : T.Inited n m) : Mirrors T n k m := by
  have hempty : ∀ s, (k.shelves s).2 = [] := by
    intro s
    have hs : (k.procs s).recvQueue.msgs = [] := hb.queue s
    simp [Kernel.shelves, hs]
  refine ⟨hb.inited_iff, fun s _ => hempty s, [], ?_, ⟨0, ?_⟩, ?_⟩
  · exact (hb.conserved.live : liveBlocks ([] : List (HeapCall τ)) = k.queued)
  · rw [hheap]
    exact heapInit_slotted m₁
  · have hlists : k.lists n = fun _ => [] := funext fun s => hempty s
    rw [hlists]
    exact hm.stocked

variable [Tlb τ] {op : IpcOp τ}

/-- A call is made by a process, and a send is to one. -/
structure IpcOp.Between (op : IpcOp τ) (k : Kernel τ) : Prop where
  caller : op.isCall = true → ∃ c, k.board.current = some c ∧ k.board.inited c = true
  receiver : ∀ msg frame r, op = .send msg frame → k.receiverOf msg = some r →
    k.board.inited r = true

/-- What it does, it does to the queue of a process. -/
theorem IpcOp.Between.act_inited (hb : op.Between k) {s : Slot}
    (h : op.act k = .put s ∨ op.act k = .take s) : k.board.inited s = true := by
  unfold IpcOp.act IpcOp.actBy at h
  cases op with
  | send msg frame =>
    cases hr : k.receiverOf msg with
    | none => simp [hr] at h
    | some r =>
      simp only [hr] at h
      split at h
      · simp at h
      · obtain rfl : r = s := by simpa using h
        exact hb.receiver msg frame r rfl hr
  | recv msg frame =>
    obtain ⟨c, hc, hin⟩ := hb.caller rfl
    rw [show k.currentProc = some c from hc] at h
    simp only [QueueAct.ifEmpty] at h
    split at h
    · obtain rfl : c = s := by simpa using h
      exact hin
    · simp at h
  | reply msg frame =>
    obtain ⟨c, hc, hin⟩ := hb.caller rfl
    rw [show k.currentProc = some c from hc] at h
    simp only [QueueAct.ifEmpty] at h
    split at h
    · simp at h
    · obtain rfl : c = s := by simpa using h
      exact hin
  | tick frame => simp at h
  | other mach scheduling => simp at h

/-- What memory tells is what the lists tell. -/
theorem Mirrors.actIn_eq (h : Mirrors T n k m) (hb : op.Between k) :
    op.actIn T m k = op.act k := by
  obtain ⟨live, -, -, hst⟩ := h.stocked
  cases op with
  | send msg frame => rfl
  | recv msg frame | reply msg frame =>
    obtain ⟨c, hc, hin⟩ := hb.caller rfl
    have hs : c.val < n := (h.created c).mp hin
    have hobs : stailqEmpty m (T.recvQueue c) = (k.shelves c).2.isEmpty :=
      (hst.queues.observed ⟨c, hs⟩ trivial).empty
    unfold IpcOp.actIn IpcOp.act IpcOp.actBy
    rw [show k.currentProc = some c from hc]
    simp only [QueueAct.ifEmpty, hobs]
  | tick frame => rfl
  | other mach scheduling => rfl

/-- **Step lemma.**  What memory tells can be done there, and does what the kernel does. -/
theorem Mirrors.step (h : Mirrors T n k m) (hb : op.Between k) (hex : op.exec k = .ok ((), k'))
    (hfew : k'.queued.card ≤ 314) :
    ∃ m', (op.actIn T m k).exec T m = some m' ∧ Mirrors T n k' m' := by
  have hdone := act_done hb.caller hb.receiver hex
  rw [h.actIn_eq hb]
  cases hact : op.act k with
  | nothing =>
    rw [hact] at hdone
    exact ⟨m, rfl, h.of_stock hdone⟩
  | put s =>
    rw [hact] at hdone
    exact h.put ((h.created s).mp (hb.act_inited (Or.inl hact))) hdone hfew
  | take s =>
    rw [hact] at hdone
    exact h.take ((h.created s).mp (hb.act_inited (Or.inr hact))) hdone

omit [Tlb τ] in
/-- Stores that leave the reserved bytes alone. -/
theorem Mirrors.scribble (h : Mirrors T n k m) {m' : Mem}
    (hm : ∀ x, T.Reserved (k.lists n) x → m' x = m x) : Mirrors T n k m' := by
  obtain ⟨live, hlive, hheap, hst⟩ := h.stocked
  exact ⟨h.created, h.others, live, hlive, hheap, hst.scribble hm⟩

/-- A step of the kernel and of memory: memory changes as its own queues tell the call to, and
    besides in any way that leaves the reserved bytes alone.  These other stores are those of the
    call itself, of messages into buffers and of fields into packets, and all that runs before the
    next call.  That they spare the headers, links and heads is a condition on the run: the buffer
    of a packet may be aimed at any of them. -/
structure QueueStep (T : ProcTable) (n : Nat) (s : Kernel τ × Mem) (op : IpcOp τ)
    (s' : Kernel τ × Mem) : Prop where
  between : op.Between s.1
  exec : op.exec s.1 = .ok ((), s'.1)
  few : s'.1.queued.card ≤ 314
  memory : ∃ m, (op.actIn T s.2 s.1).exec T s.2 = some m ∧
    ∀ x, T.Reserved (s'.1.lists n) x → s'.2 x = m x

theorem QueueStep.mirrors {s s' : Kernel τ × Mem} (h : Mirrors T n s.1 s.2)
    (hs : QueueStep T n s op s') : Mirrors T n s'.1 s'.2 := by
  obtain ⟨m, hm, hscribble⟩ := hs.memory
  obtain ⟨m', hm', hmirrors⟩ := h.step hs.between hs.exec hs.few
  obtain rfl : m = m' := Option.some.inj (hm.symm.trans hm')
  exact hmirrors.scribble hscribble

/-- **IPC on linked queues.**  From boot, after any number of calls, in any order, memory has
    exactly the queues of the kernel, if at each of them the caller and the receiver of a send are
    processes, no more than 314 packets are queued at a time, and all other stores, by the calls and
    between them, are outside the headers, links and heads.  Its heap is sound, with the queued
    packets for its allocated blocks, and the next call finds all it needs. -/
theorem queues_in_memory {k₀ : Kernel τ} {m₀ m₁ : Mem} {tr : List (IpcOp τ)} (hb : Booted n k₀)
    (hheap : k₀.heap = heapInit m₁) (hm : T.Inited n m₀)
    (hrun : Run (QueueStep T n) (k₀, m₀) tr (k, m)) :
    (∀ s, (T.queues n).Observed m (k.lists n) s) ∧
    (∃ live, (live.map Prod.fst : Multiset (BitVec 32)) = k.queued ∧
      HeapState.Safe ⟨⟨true, m⟩, live⟩) ∧
    ∀ (op : IpcOp τ) k', op.Between k → op.exec k = .ok ((), k') → k'.queued.card ≤ 314 →
      ∃ m', QueueStep T n (k, m) op (k', m') := by
  have hmirrors : Mirrors T n k m := hrun.invariant (J := fun _ s => Mirrors T n s.1 s.2)
    (Mirrors.start hb hheap hm) fun _ _ _ _ h hs => hs.mirrors h
  obtain ⟨live, hlive, -, hst⟩ := hmirrors.stocked
  obtain ⟨j, hj⟩ := hst.slots
  refine ⟨fun s => hst.queues.observed s trivial, ⟨live, hlive, hj.inv.safe⟩,
    fun op k' hbt hex hfew => ?_⟩
  obtain ⟨m', hm', -⟩ := hmirrors.step hbt hex hfew
  exact ⟨m', hbt, hex, hfew, m', hm', fun _ _ => rfl⟩

end Memory

/-! ### The small system -/

/-- Its table is at `0x100000`. -/
def demoTable : ProcTable := ⟨0x100000#32, by decide⟩

/-- Its memory after boot. -/
def demoQueues : Mem :=
  demoTable.initQueues ((List.finRange nprocs).take 4) (heapInit fun _ => 0#8).mem

theorem inited_demoQueues : demoTable.Inited 4 demoQueues :=
  demoTable.inited_initQueues (by decide) _

/-- Process 3 receives, process 0 sends to process 2, and process 2 replies.  In memory the queue of
    process 3 then has its placeholder, in the first slot of the heap, and that of process 2 is
    empty again. -/
theorem queues_in_memory_demo : ∃ k m, Run (QueueStep demoTable 4) (demoKernel, demoQueues)
      [.recv 0x5080#32 0#32, .send 0x5000#32 0#32, .reply 0x5000#32 0#32] (k, m) ∧
    stailqFirst m (demoTable.recvQueue 3) = 0xe400000c#32 ∧
    stailqEmpty m (demoTable.recvQueue 2) = true := by
  -- the three calls as one piece of code, which returns the kernels in between
  have htest : (((IpcOp.recv 0x5080#32 0#32).exec >>= fun _ => get >>= fun k₁ =>
      (IpcOp.send 0x5000#32 0#32).exec >>= fun _ => get >>= fun k₂ =>
      (IpcOp.reply 0x5000#32 0#32).exec >>= fun _ =>
        (pure (k₁, k₂) : Code Trap (Kernel Unit) _)) demoKernel).toOption.map (fun r =>
          decide (r.1.1.queued.card ≤ 314) && decide (r.1.1.currentProc = some 0) &&
          (r.1.1.procs 0).recvQueue.inited &&
          decide (r.1.1.receiverOf 0x5000#32 = some 2) && (r.1.1.procs 2).recvQueue.inited &&
          decide (r.1.2.queued.card ≤ 314) && decide (r.1.2.currentProc = some 2) &&
          (r.1.2.procs 2).recvQueue.inited && decide (r.2.queued.card ≤ 314) &&
          decide ((r.2.shelves 3).2 = [0xe400000c#32]) && decide ((r.2.shelves 2).2 = []))
      = some true := by
    decide +kernel
  obtain ⟨⟨k₁, k₂⟩, k₃, h, htests⟩ := ok_of_test htest
  simp only [Bool.and_eq_true, decide_eq_true_eq, and_assoc] at htests
  obtain ⟨hfew₁, hcur₁, hin₀, hto, hin₁, hfew₂, hcur₂, hin₂, hfew₃, hthree, htwo⟩ := htests
  obtain ⟨_, l₁, h₁, h⟩ := bind_get_ok_iff.mp h
  obtain ⟨_, l₂, h₂, h⟩ := bind_get_ok_iff.mp h
  obtain ⟨_, l₃, h₃, h⟩ := bind_ok_iff.mp h
  obtain ⟨hmid, rfl⟩ := Prod.mk.inj (Except.ok.inj h)
  obtain ⟨rfl, rfl⟩ := Prod.mk.inj hmid
  have hrecv : IpcOp.Between (.recv 0x5080#32 0#32) demoKernel :=
    ⟨fun _ => ⟨3, rfl, rfl⟩, fun _ _ _ hop => absurd hop (by simp)⟩
  have hsend : IpcOp.Between (.send 0x5000#32 0#32) l₁ := by
    refine ⟨fun _ => ⟨0, hcur₁, hin₀⟩, fun msg frame r hop hr => ?_⟩
    obtain ⟨rfl, -⟩ := IpcOp.send.inj hop
    obtain rfl : 2 = r := Option.some.inj (hto.symm.trans hr)
    exact hin₁
  have hreply : IpcOp.Between (.reply 0x5000#32 0#32) l₂ :=
    ⟨fun _ => ⟨2, hcur₂, hin₂⟩, fun _ _ _ hop => absurd hop (by simp)⟩
  -- memory goes along, one call after the other
  obtain ⟨-, -, hnext⟩ := queues_in_memory booted_demoKernel rfl inited_demoQueues Run.start
  obtain ⟨m₁, hstep₁⟩ := hnext _ l₁ hrecv h₁ hfew₁
  have hrun₁ := Run.start.next hstep₁
  obtain ⟨-, -, hnext⟩ := queues_in_memory booted_demoKernel rfl inited_demoQueues hrun₁
  obtain ⟨m₂, hstep₂⟩ := hnext _ l₂ hsend h₂ hfew₂
  have hrun₂ := hrun₁.next hstep₂
  obtain ⟨-, -, hnext⟩ := queues_in_memory booted_demoKernel rfl inited_demoQueues hrun₂
  obtain ⟨m₃, hstep₃⟩ := hnext _ l₃ hreply h₃ hfew₃
  have hrun₃ := hrun₂.next hstep₃
  obtain ⟨hobs, -, -⟩ := queues_in_memory booted_demoKernel rfl inited_demoQueues hrun₃
  have hfirst : stailqFirst m₃ (demoTable.recvQueue 3) = elmPtr (l₃.shelves 3).2.head? :=
    (hobs ⟨3, by decide⟩).first
  have hempty : stailqEmpty m₃ (demoTable.recvQueue 2) = (l₃.shelves 2).2.isEmpty :=
    (hobs ⟨2, by decide⟩).empty
  refine ⟨l₃, m₃, hrun₃, ?_, ?_⟩
  · rw [hfirst, hthree]
    rfl
  · rw [hempty, htwo]
    rfl

end Leoman
