import Leoman.Ipc
import Leoman.Schedule
import Mathlib.Algebra.BigOperators.Group.Finset.Basic
import Mathlib.Algebra.BigOperators.Group.Finset.Piecewise
import Mathlib.Data.Multiset.Basic
import Mathlib.Algebra.Order.Group.Multiset

namespace Leoman

open ByteMem StateExcept Runs

/-!
# The ledger of packets

A send allocates a packet when the receiver is not waiting, a receive when its queue is empty,
and a reply, made by yet another process, frees one.  `Audit` is the kernel with a ledger of
those calls of `kalloc` and `kfree`; the audited system calls are the system calls with an entry
made at each of them (`audit_erases`).

* `liveBlocks` — the blocks allocated and not freed so far;
* `Kernel.queued` — the blocks in the receive queues, all of them together;
* `Conserved` — the two agree, and every `kfree` was of a block that had just left its queue;
* `packets_conserved` — in every run, for any order of calls.
-/

/-! ### The calls around their allocations -/

section Pieces

variable {τ : Type} [Tlb τ]

/-- `syscall_send_msg` queues a packet: the part after `kalloc`. -/
def queueAt (c r : Slot) (msg addr : BitVec 32) : Code Trap (Kernel τ) Unit := do
  let k ← get
  let packet ← onMach (sentPacket (k.procs c).pid msg)
  let origin : Origin := ⟨k.hist.length, c⟩
  insertTail r ⟨addr, packet, some origin⟩
  note (.sent origin r)

/-- `syscall_recv_msg` queues a placeholder: the part after `kalloc`. -/
def placeAt (c : Slot) (msg addr : BitVec 32) : Code Trap (Kernel τ) Unit := do
  let packet ← onMach (waitingPacket msg)
  insertTail c ⟨addr, packet, none⟩

/-- `syscall_rply_msg` takes the first packet from its queue: the part before `kfree`. -/
def takeFirst (c : Slot) (n : MsgPacketQueue) (msg : BitVec 32) :
    Code Trap (Kernel τ) (Option Slot) := do
  let k ← get
  onMach (copyResponse n.msg msg)
  removeHead c
  return k.procFindByPid n.msg.sender

/-- The part after `kfree`. -/
def wakeSender (c : Slot) (n : MsgPacketQueue) (sender : Option Slot) :
    Code Trap (Kernel τ) Unit := do
  awaken sender
  note (.replied n.origin c sender)

/-- `send` takes its packet first. -/
theorem queuePacket_eq (c r : Slot) (msg : BitVec 32) :
    queuePacket (τ := τ) c r msg = kallocPacket >>= queueAt c r msg := rfl

/-- `reply` takes the first packet, frees it and wakes its sender. -/
theorem answerFirst_eq (c : Slot) (n : MsgPacketQueue) (msg : BitVec 32) :
    answerFirst (τ := τ) c n msg = (do
      let sender ← takeFirst c n msg
      kfreeBlock n.addr
      wakeSender c n sender) := by
  unfold answerFirst takeFirst wakeSender
  simp only [bind_assoc, pure_bind]

end Pieces

/-! ### Audited calls -/

/-- A call made for a packet; `kfree` with the kernel before the packet was taken from its queue,
    and the one it is made in. -/
inductive HeapCall (τ : Type) where
  | kalloc (addr : BitVec 32)
  | kfree (addr : BitVec 32) (was now : Kernel τ)

/-- The kernel, and the calls made so far. -/
structure Audit (τ : Type) where
  kernel : Kernel τ
  calls : List (HeapCall τ)

section Audited

variable {τ : Type}

/-- Run code on the kernel. -/
def onAudit {α : Type} (x : Code Trap (Kernel τ) α) : Code Trap (Audit τ) α :=
  zoom Audit.kernel (fun a k => { a with kernel := k }) x

/-- `kalloc` of a packet, with its entry. -/
def auditKalloc : Code Trap (Audit τ) (BitVec 32) := do
  let addr ← onAudit kallocPacket
  modify fun a => { a with calls := a.calls ++ [.kalloc addr] }
  return addr

/-- `kfree` of a packet, with its entry. -/
def auditKfree (was : Kernel τ) (addr : BitVec 32) : Code Trap (Audit τ) Unit := do
  let now ← onAudit get
  onAudit (kfreeBlock addr)
  modify fun a => { a with calls := a.calls ++ [.kfree addr was now] }

variable [Tlb τ]

/-- `sendTo`, audited. -/
def auditSendTo (c r : Slot) (msg : BitVec 32) : Code Trap (Audit τ) Unit := do
  let k ← onAudit get
  onlyIf ((k.procs r).state ≠ .recvBlocked)
    (auditKalloc >>= fun addr => onAudit (queueAt c r msg addr))
  match (k.procs r).state with
  | .recvBlocked => onAudit (fillPlaceholder c r msg)
  | .ready => onAudit (setProc c fun p => { p with state := .replyBlocked })
  | _ => pure ()

/-- `receive`, audited. -/
def auditReceive (c : Slot) (msg : BitVec 32) : Code Trap (Audit τ) Unit := do
  let k ← onAudit get
  match (k.procs c).recvQueue.msgs with
  | [] => do
    onAudit (setProc c fun p => { p with state := .recvBlocked })
    auditKalloc >>= fun addr => onAudit (placeAt c msg addr)
  | n :: _ => onAudit (takeMessage c n msg)

/-- `reply`, audited. -/
def auditReply (c : Slot) (msg : BitVec 32) : Code Trap (Audit τ) Unit := do
  let k ← onAudit get
  match (k.procs c).recvQueue.msgs with
  | [] => pure ()
  | n :: _ => do
    let sender ← onAudit (takeFirst c n msg)
    auditKfree k n.addr
    onAudit (wakeSender c n sender)

/-- An event, audited. -/
def IpcOp.audit : IpcOp τ → Code Trap (Audit τ) Unit
  | .send msg frame => do
    onAudit procDisableScheduling
    let c ← onAudit currentSlot
    let receiver ← onAudit (onMach (load32 (receiverField msg)))
    let k ← onAudit get
    match k.procFindByPid receiver with
    | none => return ()
    | some r => do
      auditSendTo c r msg
      onAudit procEnableScheduling
      onAudit (procScheduleWithoutIrq frame)
  | .recv msg frame => do
    onAudit procDisableScheduling
    let c ← onAudit currentSlot
    auditReceive c msg
    onAudit procEnableScheduling
    onAudit (procScheduleWithoutIrq frame)
  | .reply msg frame => do
    onAudit procDisableScheduling
    let c ← onAudit currentSlot
    auditReply c msg
    onAudit procEnableScheduling
    onAudit (procScheduleWithoutIrq frame)
  | .tick frame => onAudit (IpcOp.tick frame).exec
  | .other mach scheduling => onAudit (IpcOp.other mach scheduling).exec

/-! ### The audited calls are the calls -/

omit [Tlb τ] in
/-- Kernel code keeps no books. -/
theorem onAudit_erases {α : Type} (x : Code Trap (Kernel τ) α) :
    Erases Audit.kernel (onAudit x) x :=
  Erases.zoom (fun _ _ => rfl) x

omit [Tlb τ] in
/-- Without the ledger: `kalloc`, … -/
theorem auditKalloc_erases : Erases Audit.kernel (auditKalloc (τ := τ)) kallocPacket :=
  (onAudit_erases kallocPacket).note fun _ _ => rfl

omit [Tlb τ] in
/-- … `kfree`, … -/
theorem auditKfree_erases (was : Kernel τ) (addr : BitVec 32) :
    Erases Audit.kernel (auditKfree was addr) (kfreeBlock addr) := fun _ => rfl

/-- … `send` to a process, … -/
theorem auditSendTo_erases (c r : Slot) (msg : BitVec 32) :
    Erases Audit.kernel (auditSendTo (τ := τ) c r msg) (sendTo c r msg) := by
  refine (onAudit_erases get).bind fun k => Erases.bind (.onlyIf ?_) fun _ => ?_
  · rw [queuePacket_eq]
    exact auditKalloc_erases.bind fun addr => onAudit_erases _
  · cases (k.procs r).state with
    | recvBlocked => exact onAudit_erases _
    | ready => exact onAudit_erases _
    | _ => exact .pure ()

/-- … `recv` … -/
theorem auditReceive_erases (c : Slot) (msg : BitVec 32) :
    Erases Audit.kernel (auditReceive (τ := τ) c msg) (receive c msg) := by
  refine (onAudit_erases get).bind fun k => ?_
  cases (k.procs c).recvQueue.msgs with
  | nil =>
    refine (onAudit_erases (setProc c fun p => { p with state := .recvBlocked })).bind fun _ => ?_
    exact auditKalloc_erases.bind fun addr => onAudit_erases (placeAt c msg addr)
  | cons n rest => exact onAudit_erases _

/-- … and `reply`. -/
theorem auditReply_erases (c : Slot) (msg : BitVec 32) :
    Erases Audit.kernel (auditReply (τ := τ) c msg) (reply c msg) := by
  refine (onAudit_erases get).bind fun k => ?_
  cases (k.procs c).recvQueue.msgs with
  | nil => exact .pure ()
  | cons n rest =>
    simp only [answerFirst_eq]
    refine (onAudit_erases _).bind fun sender => (auditKfree_erases _ _).bind fun _ => ?_
    exact onAudit_erases _

/-- **The ledger changes nothing**: seen without it, an audited event is the event. -/
theorem audit_erases (op : IpcOp τ) : Erases Audit.kernel op.audit op.exec := by
  cases op with
  | send msg frame =>
    refine (onAudit_erases _).bind fun _ => (onAudit_erases _).bind fun c =>
      (onAudit_erases _).bind fun receiver => (onAudit_erases get).bind fun k => ?_
    cases k.procFindByPid receiver with
    | none => exact .pure ()
    | some r =>
      exact (auditSendTo_erases c r msg).bind fun _ => (onAudit_erases _).bind fun _ =>
        onAudit_erases _
  | recv msg frame =>
    exact (onAudit_erases _).bind fun _ => (onAudit_erases _).bind fun c =>
      (auditReceive_erases c msg).bind fun _ => (onAudit_erases _).bind fun _ => onAudit_erases _
  | reply msg frame =>
    exact (onAudit_erases _).bind fun _ => (onAudit_erases _).bind fun c =>
      (auditReply_erases c msg).bind fun _ => (onAudit_erases _).bind fun _ => onAudit_erases _
  | tick frame => exact onAudit_erases _
  | other mach scheduling => exact onAudit_erases _

end Audited

/-! ### Blocks in queues -/

/-- What the queues hold: whether the head was initialised, and the blocks of the packets. -/
def Kernel.shelves {τ : Type} (k : Kernel τ) : Slot → Bool × List (BitVec 32) := fun s =>
  ((k.procs s).recvQueue.inited, (k.procs s).recvQueue.msgs.map MsgPacketQueue.addr)

/-- The blocks in all queues taken together. -/
@[irreducible] def queuedIn (shelves : Slot → Bool × List (BitVec 32)) : Multiset (BitVec 32) :=
  ∑ s : Slot, ((shelves s).2 : Multiset (BitVec 32))

/-- The blocks in the queues of a kernel. -/
def Kernel.queued {τ : Type} (k : Kernel τ) : Multiset (BitVec 32) := queuedIn k.shelves

/-- Changing one queue changes the blocks by the difference. -/
theorem queuedIn_update (f : Slot → Bool × List (BitVec 32)) (s : Slot)
    (q : Bool × List (BitVec 32)) :
    queuedIn (Function.update f s q) + ((f s).2 : Multiset (BitVec 32))
      = queuedIn f + (q.2 : Multiset (BitVec 32)) := by
  have hsplit : ∀ g : Slot → Bool × List (BitVec 32), queuedIn g
      = ((g s).2 : Multiset (BitVec 32)) + ∑ t ∈ Finset.univ \ {s}, ((g t).2 : Multiset _) := by
    intro g
    unfold queuedIn
    rw [← Finset.sum_sdiff (Finset.subset_univ {s}), Finset.sum_singleton, add_comm]
  have hrest : ∑ t ∈ Finset.univ \ {s}, ((Function.update f s q t).2 : Multiset (BitVec 32))
      = ∑ t ∈ Finset.univ \ {s}, ((f t).2 : Multiset (BitVec 32)) := by
    refine Finset.sum_congr rfl fun t ht => ?_
    rw [Function.update_of_ne (by simpa using ht)]
  rw [hsplit (Function.update f s q), hsplit f, hrest, Function.update_self]
  ac_rfl

section Shelves

variable {τ : Type}

/-- The machine has none of the queues. -/
theorem onMach_shelves {α : Type} (x : Code Trap (Machine τ) α) :
    Preserves Kernel.shelves (onMach x) :=
  Keeps.zoom fun _ _ => rfl

/-- A change of other fields of a process, … -/
theorem setProc_shelves (s : Slot) {f : Proc → Proc} (hf : ∀ p, (f p).recvQueue = p.recvQueue) :
    Preserves Kernel.shelves (setProc (τ := τ) s f) := by
  refine .modify fun k => funext fun t => ?_
  by_cases ht : t = s
  · subst ht
    simp [Kernel.shelves, Kernel.updProc, hf]
  · simp [Kernel.shelves, Kernel.updProc, ht]

/-- … such as its state. -/
theorem setState_shelves (s : Slot) (st : ProcState) :
    Preserves Kernel.shelves (setProc (τ := τ) s fun p => { p with state := st }) :=
  setProc_shelves s fun _ => rfl

/-- The history is no queue. -/
theorem note_shelves (e : IpcEvent) : Preserves Kernel.shelves (note (τ := τ) e) :=
  .modify fun _ => rfl

/-- A packet from `kalloc` is in no queue yet. -/
theorem kallocPacket_shelves : Preserves Kernel.shelves (kallocPacket (τ := τ)) := by
  intro k p k' h
  obtain ⟨-, heap, -, rfl⟩ := kallocPacket_ok h
  rfl

variable [Tlb τ] {k k' : Kernel τ}

/-- Waking a sender changes its state. -/
theorem awaken_shelves (sender : Option Slot) :
    Preserves Kernel.shelves (awaken (τ := τ) sender) := by
  unfold awaken
  split
  · exact onMach_shelves _
  · exact setProc_shelves _ fun _ => rfl

/-- A scheduling decision touches no queue. -/
theorem procScheduleAfterIrq_shelves (frame : BitVec 32) :
    Preserves Kernel.shelves (procScheduleAfterIrq (τ := τ) frame) := by
  intro k ret k' h
  rcases procScheduleAfterIrq_cases h with ⟨-, -, rfl⟩ | ⟨-, c, next, -, hsw⟩
  · rfl
  · obtain ⟨t, -, hprocs⟩ := hsw.procs
    funext s
    unfold Kernel.shelves
    rw [hprocs]
    by_cases hs : s = c
    · subst hs
      rw [k.suspend_self]
    · rw [k.suspend_of_ne frame _ hs]

omit [Tlb τ] in
/-- Writing a process's queue. -/
theorem shelves_updProc (s : Slot) (f : Proc → Proc) :
    (k.updProc s f).shelves = Function.update k.shelves s ((f (k.procs s)).recvQueue.inited,
      (f (k.procs s)).recvQueue.msgs.map MsgPacketQueue.addr) := by
  funext t
  by_cases ht : t = s
  · subst ht
    simp [Kernel.shelves, Kernel.updProc]
  · simp [Kernel.shelves, Kernel.updProc, ht]

/-- Inserting into the queue of a process adds the block. -/
theorem insertTail_queued {s : Slot} {n : MsgPacketQueue} (hin : (k.shelves s).1 = true)
    (h : insertTail s n k = .ok ((), k')) : k'.queued = n.addr ::ₘ k.queued := by
  rcases insertTail_ok h with ⟨-, rfl⟩ | ⟨hout, -⟩
  · rw [Kernel.queued, shelves_updProc]
    have hu := queuedIn_update k.shelves s ((k.procs s).recvQueue.inited,
      ((k.procs s).recvQueue.msgs ++ [n]).map MsgPacketQueue.addr)
    rw [List.map_append, List.map_singleton, ← Multiset.coe_add, ← add_assoc,
      add_right_comm] at hu
    have hq := add_right_cancel hu
    rw [List.map_append, List.map_singleton, hq, Multiset.coe_singleton, add_comm,
      Multiset.singleton_add]
    rfl
  · exact absurd (hout.symm.trans hin) (by decide)

omit [Tlb τ] in
/-- Taking the first packet from a queue takes its block. -/
theorem removeHead_queued {s : Slot} {n : MsgPacketQueue} {rest : List MsgPacketQueue}
    (hq : (k.procs s).recvQueue.msgs = n :: rest) (h : removeHead s k = .ok ((), k')) :
    k.queued = n.addr ::ₘ k'.queued := by
  obtain ⟨-, rfl⟩ := Prod.mk.inj (Except.ok.inj h)
  rw [Kernel.queued, Kernel.queued, shelves_updProc]
  have hu := queuedIn_update k.shelves s ((k.procs s).recvQueue.inited,
    (k.procs s).recvQueue.msgs.tail.map MsgPacketQueue.addr)
  have hs : ((k.shelves s).2 : Multiset (BitVec 32))
      = {n.addr} + (rest.map MsgPacketQueue.addr : List (BitVec 32)) := by
    simp [Kernel.shelves, hq]
  rw [hs, hq, List.tail_cons, ← add_assoc] at hu
  have hq' := add_right_cancel hu
  rw [hq, List.tail_cons, ← hq', add_comm, Multiset.singleton_add]

/-- Filling a placeholder moves no block. -/
theorem fillPlaceholder_shelves (c r : Slot) (msg : BitVec 32) :
    Preserves Kernel.shelves (fillPlaceholder (τ := τ) c r msg) := by
  intro k _ k' h
  obtain ⟨n, rest, filled, m₁, m₂, m₃, full, hn, -, -, -, -, hboard⟩ := fillPlaceholder_ok h
  have hinited : k'.board.inited = k.board.inited := by
    rw [hboard]
    rfl
  -- the packet in the first place is in the block of the placeholder
  have hqueue : ∀ t, (k'.board.queue t).map MsgPacketQueue.addr
      = (k.board.queue t).map MsgPacketQueue.addr := by
    intro t
    rw [hboard]
    by_cases ht : t = r
    · subst ht
      simp [hn]
    · simp [ht]
  exact funext fun t => Prod.ext (congrFun hinited t) (hqueue t)

end Shelves

/-! ### Conservation -/

section Conserved

variable {τ : Type}

/-- The blocks that are live after one more call. -/
def HeapCall.apply (live : Multiset (BitVec 32)) : HeapCall τ → Multiset (BitVec 32)
  | .kalloc addr => addr ::ₘ live
  | .kfree addr _ _ => live.erase addr

/-- The blocks allocated and not freed so far. -/
def liveBlocks (calls : List (HeapCall τ)) : Multiset (BitVec 32) := calls.foldl HeapCall.apply 0

/-- The last call is done last. -/
theorem liveBlocks_concat (calls : List (HeapCall τ)) (call : HeapCall τ) :
    liveBlocks (calls ++ [call]) = call.apply (liveBlocks calls) :=
  List.foldl_concat ..

/-- The block of a `kfree` is live, was the first one of a queue, and is in no queue now; all
    other live blocks are in queues. -/
structure JustLeft (live : Multiset (BitVec 32)) (addr : BitVec 32) (was now : Kernel τ) :
    Prop where
  mem : addr ∈ live
  head : ∃ s, (was.shelves s).2.head? = some addr
  left : was.queued = addr ::ₘ now.queued
  gone : addr ∉ now.queued
  others : live = addr ::ₘ now.queued

/-- Every `kfree` was of a live block that had just left its queue. -/
def FreesLive (calls : List (HeapCall τ)) : Prop :=
  ∀ before addr was now after, calls = before ++ .kfree addr was now :: after →
    JustLeft (liveBlocks before) addr was now

/-- The live blocks are the packets in the queues, each of them in one place only. -/
structure Conserved (a : Audit τ) : Prop where
  live : liveBlocks a.calls = a.kernel.queued
  nodup : a.kernel.queued.Nodup
  frees : FreesLive a.calls

/-- One more call. -/
theorem FreesLive.concat {calls : List (HeapCall τ)} (h : FreesLive calls) {call : HeapCall τ}
    (hcall : ∀ addr was now, call = .kfree addr was now →
      JustLeft (liveBlocks calls) addr was now) : FreesLive (calls ++ [call]) := by
  intro before addr was now after heq
  rcases List.eq_nil_or_concat after with rfl | ⟨after, last, rfl⟩
  · obtain ⟨rfl, hlast⟩ := List.append_inj' heq rfl
    exact hcall addr was now (List.head_eq_of_cons_eq hlast)
  · rw [List.concat_eq_append, ← List.cons_append, ← List.append_assoc] at heq
    obtain ⟨rfl, -⟩ := List.append_inj' heq rfl
    exact h before addr was now after rfl

/-- `kalloc` does not return a block that is live. -/
def FreshKalloc (a : Audit τ) : Prop :=
  ∀ addr heap, kalloc a.kernel.heap msgPacketQueueSize = some (addr, heap) →
    addr ∉ liveBlocks a.calls

/-- Calling it tells. -/
instance FreshKalloc.decidable (a : Audit τ) : Decidable (FreshKalloc a) :=
  decidable_of_iff (∀ r ∈ kalloc a.kernel.heap msgPacketQueueSize, r.1 ∉ liveBlocks a.calls)
    ⟨fun h addr heap hr => h (addr, heap) hr, fun h r hr => h r.1 r.2 hr⟩

/-- Kernel code with the ledger beside it. -/
theorem onAudit_ok_iff {α : Type} {x : Code Trap (Kernel τ) α} {a a' : Audit τ} {v : α} :
    onAudit x a = .ok (v, a') ↔ ∃ k', x a.kernel = .ok (v, k') ∧ a' = { a with kernel := k' } :=
  zoom_ok_iff

variable {a a' : Audit τ}

/-- What moves no block keeps the ledger right. -/
theorem Conserved.of_shelves (h : Conserved a) {k' : Kernel τ}
    (hs : k'.shelves = a.kernel.shelves) : Conserved { a with kernel := k' } := by
  have hq : k'.queued = a.kernel.queued := congrArg queuedIn hs
  exact ⟨h.live.trans hq.symm, by rw [hq]; exact h.nodup, h.frees⟩

/-- Allocating: the block is new, and in no queue yet. -/
theorem auditKalloc_ok (h : Conserved a) (hfresh : FreshKalloc a) {addr : BitVec 32}
    (hrun : auditKalloc a = .ok (addr, a')) : a'.calls = a.calls ++ [.kalloc addr] ∧
      addr ∉ a.kernel.queued ∧ a'.kernel.shelves = a.kernel.shelves := by
  obtain ⟨addr', a₁, h₁, hrest⟩ := bind_ok_iff.mp hrun
  obtain ⟨k', hk, rfl⟩ := onAudit_ok_iff.mp h₁
  obtain ⟨rfl, rfl⟩ := Prod.mk.inj (Except.ok.inj hrest)
  refine ⟨rfl, ?_, kallocPacket_shelves _ _ _ hk⟩
  obtain ⟨p, k₁, hp, hrest'⟩ := bind_ok_iff.mp hk
  have hpa : p = addr' := by
    split at hrest'
    · exact absurd hrest' (by simp)
    · exact (Prod.mk.inj (Except.ok.inj hrest')).1
  subst hpa
  unfold kallocBlock at hp
  cases hka : kalloc a.kernel.heap msgPacketQueueSize with
  | none =>
    rw [hka] at hp
    exact absurd hp (by simp)
  | some r =>
    rw [hka] at hp
    obtain ⟨rfl, -⟩ := Prod.mk.inj (Except.ok.inj hp)
    rw [← h.live]
    exact hfresh r.1 r.2 hka

/-- Allocating a packet and inserting it into the queue of a process. -/
theorem Conserved.insert (h : Conserved a) (hfresh : FreshKalloc a) {addr : BitVec 32}
    (hrun : auditKalloc a = .ok (addr, a')) {k' : Kernel τ}
    (hq : k'.queued = addr ::ₘ a'.kernel.queued) : Conserved { a' with kernel := k' } := by
  obtain ⟨hcalls, hnew, hs⟩ := auditKalloc_ok h hfresh hrun
  have hsame : a'.kernel.queued = a.kernel.queued := congrArg queuedIn hs
  rw [hsame] at hq
  refine ⟨?_, ?_, ?_⟩
  · show liveBlocks a'.calls = k'.queued
    rw [hcalls, liveBlocks_concat, hq, ← h.live]
    rfl
  · show k'.queued.Nodup
    rw [hq]
    exact Multiset.nodup_cons.mpr ⟨hnew, h.nodup⟩
  · show FreesLive a'.calls
    rw [hcalls]
    exact h.frees.concat fun _ _ _ hc => absurd hc (by simp)

/-- Freeing the packet that has just left its queue. -/
theorem Conserved.remove (h : Conserved a) {addr : BitVec 32} {k : Kernel τ} {s : Slot}
    (hhead : (a.kernel.shelves s).2.head? = some addr)
    (hq : a.kernel.queued = addr ::ₘ k.queued)
    (hrun : auditKfree a.kernel addr { a with kernel := k } = .ok ((), a')) : Conserved a' := by
  obtain ⟨-, rfl⟩ := Prod.mk.inj (Except.ok.inj hrun)
  have hlive : liveBlocks a.calls = addr ::ₘ k.queued := h.live.trans hq
  have hnodup : (addr ::ₘ k.queued).Nodup := hq ▸ h.nodup
  obtain ⟨hgone, hnodup'⟩ := Multiset.nodup_cons.mp hnodup
  refine ⟨?_, hnodup', h.frees.concat fun p was now hc => ?_⟩
  · show liveBlocks (a.calls ++ [.kfree addr a.kernel k]) = k.queued
    rw [liveBlocks_concat, hlive]
    exact Multiset.erase_cons_head _ _
  · obtain ⟨rfl, rfl, rfl⟩ := HeapCall.kfree.inj hc
    exact ⟨hlive ▸ Multiset.mem_cons_self _ _, ⟨s, hhead⟩, hq, hgone, hlive⟩

/-- Code that moves no block keeps the ledger right. -/
theorem Conserved.onAudit {α : Type} {x : Code Trap (Kernel τ) α} {v : α} (h : Conserved a)
    (hx : Preserves Kernel.shelves x) (hrun : onAudit x a = .ok (v, a')) : Conserved a' := by
  obtain ⟨k', hk, rfl⟩ := onAudit_ok_iff.mp hrun
  exact h.of_shelves (hx _ _ _ hk)

end Conserved

/-! ### The audited calls conserve packets -/

section Bodies

variable {τ : Type} [Tlb τ] {k k' : Kernel τ} {a a' : Audit τ}

/-- The part of a send after `kalloc` adds the block to the queue of the receiver. -/
theorem queueAt_queued {c r : Slot} {msg addr : BitVec 32} (hin : (k.shelves r).1 = true)
    (h : queueAt c r msg addr k = .ok ((), k')) : k'.queued = addr ::ₘ k.queued := by
  unfold queueAt at h
  rw [run_bind_of_ok (run_get k)] at h
  obtain ⟨packet, k₁, h₁, h⟩ := bind_ok_iff.mp h
  have hs₁ := onMach_shelves _ _ _ _ h₁
  obtain ⟨_, k₂, h₂, h₃⟩ := bind_ok_iff.mp h
  have hin₁ : (k₁.shelves r).1 = true := by rw [hs₁]; exact hin
  have hq₁ : k₁.queued = k.queued := congrArg queuedIn hs₁
  have hq₃ : k'.queued = k₂.queued := congrArg queuedIn (note_shelves _ _ _ _ h₃)
  rw [hq₃, insertTail_queued hin₁ h₂, hq₁]

/-- The part of a receive after `kalloc` adds the block to the queue of the caller. -/
theorem placeAt_queued {c : Slot} {msg addr : BitVec 32} (hin : (k.shelves c).1 = true)
    (h : placeAt c msg addr k = .ok ((), k')) : k'.queued = addr ::ₘ k.queued := by
  unfold placeAt at h
  obtain ⟨packet, k₁, h₁, h₂⟩ := bind_ok_iff.mp h
  have hs₁ := onMach_shelves _ _ _ _ h₁
  have hin₁ : (k₁.shelves c).1 = true := by rw [hs₁]; exact hin
  have hq₁ : k₁.queued = k.queued := congrArg queuedIn hs₁
  rw [insertTail_queued hin₁ h₂, hq₁]

omit [Tlb τ] in
/-- Allocating a packet and then queueing it. -/
theorem Conserved.queue (h : Conserved a) (hfresh : FreshKalloc a)
    {place : BitVec 32 → Code Trap (Kernel τ) Unit} {s : Slot}
    (hin : (a.kernel.shelves s).1 = true)
    (hplace : ∀ {addr : BitVec 32} {k k' : Kernel τ}, (k.shelves s).1 = true →
      place addr k = .ok ((), k') → k'.queued = addr ::ₘ k.queued)
    (hrun : (auditKalloc >>= fun addr => Leoman.onAudit (place addr)) a = .ok ((), a')) :
    Conserved a' := by
  obtain ⟨addr, a₁, h₁, h₂⟩ := bind_ok_iff.mp hrun
  obtain ⟨k', hk, rfl⟩ := onAudit_ok_iff.mp h₂
  obtain ⟨-, -, hs⟩ := auditKalloc_ok h hfresh h₁
  have hin₁ : (a₁.kernel.shelves s).1 = true := by rw [hs]; exact hin
  exact h.insert hfresh h₁ (hplace hin₁ hk)

/-- **A send** to a process allocates a packet unless the process waits, and queues it. -/
theorem auditSendTo_conserved {c r : Slot} {msg : BitVec 32} (h : Conserved a)
    (hfresh : FreshKalloc a) (hin : (a.kernel.shelves r).1 = true)
    (hrun : auditSendTo c r msg a = .ok ((), a')) : Conserved a' := by
  unfold auditSendTo at hrun
  obtain ⟨k, a₁, h₁, hrun⟩ := bind_ok_iff.mp hrun
  obtain ⟨k₁, hk₁, rfl⟩ := onAudit_ok_iff.mp h₁
  obtain ⟨rfl, rfl⟩ := Prod.mk.inj (Except.ok.inj hk₁)
  obtain ⟨_, a₂, h₂, hrun⟩ := bind_ok_iff.mp hrun
  have hcons : Conserved a₂ := by
    rcases onlyIf_ok h₂ with ⟨-, h₂⟩ | ⟨-, rfl⟩
    · exact h.queue hfresh hin queueAt_queued h₂
    · exact h
  cases hst : (a.kernel.procs r).state with
  | recvBlocked =>
    simp only [hst] at hrun
    exact hcons.onAudit (fillPlaceholder_shelves c r msg) hrun
  | ready =>
    simp only [hst] at hrun
    exact hcons.onAudit (setState_shelves c .replyBlocked) hrun
  | unused | running | sendBlocked | replyBlocked =>
    simp only [hst] at hrun
    obtain ⟨-, rfl⟩ := Prod.mk.inj (Except.ok.inj hrun)
    exact hcons

/-- Reading a packet moves no block. -/
theorem takeMessage_shelves (c : Slot) (n : MsgPacketQueue) (msg : BitVec 32) :
    Preserves Kernel.shelves (takeMessage (τ := τ) c n msg) := by
  refine Preserves.bind (onMach_shelves _) fun _ => note_shelves _

/-- **A receive** allocates a placeholder when the queue is empty. -/
theorem auditReceive_conserved {c : Slot} {msg : BitVec 32} (h : Conserved a)
    (hfresh : FreshKalloc a) (hin : (a.kernel.shelves c).1 = true)
    (hrun : auditReceive c msg a = .ok ((), a')) : Conserved a' := by
  unfold auditReceive at hrun
  obtain ⟨k, a₁, h₁, hrun⟩ := bind_ok_iff.mp hrun
  obtain ⟨k₁, hk₁, rfl⟩ := onAudit_ok_iff.mp h₁
  obtain ⟨rfl, rfl⟩ := Prod.mk.inj (Except.ok.inj hk₁)
  cases hq : (a.kernel.procs c).recvQueue.msgs with
  | nil =>
    simp only [hq] at hrun
    obtain ⟨_, a₂, h₂, hrun⟩ := bind_ok_iff.mp hrun
    obtain ⟨k₂, hk₂, rfl⟩ := onAudit_ok_iff.mp h₂
    have hs := setState_shelves c .recvBlocked _ _ _ hk₂
    have hin₂ : (k₂.shelves c).1 = true := by rw [hs]; exact hin
    -- blocking leaves the heap alone, so the block is still a new one
    have hfresh₂ : FreshKalloc { a with kernel := k₂ } := by
      obtain ⟨-, rfl⟩ := Prod.mk.inj (Except.ok.inj hk₂)
      exact hfresh
    exact (h.of_shelves hs).queue hfresh₂ hin₂ placeAt_queued hrun
  | cons n rest =>
    simp only [hq] at hrun
    exact h.onAudit (takeMessage_shelves c n msg) hrun

/-- The part of a reply before `kfree` takes the first block from the queue of the caller. -/
theorem takeFirst_queued {c : Slot} {n : MsgPacketQueue} {rest : List MsgPacketQueue}
    {msg : BitVec 32} {sender : Option Slot} (hq : (k.procs c).recvQueue.msgs = n :: rest)
    (h : takeFirst c n msg k = .ok (sender, k')) : k.queued = n.addr ::ₘ k'.queued := by
  unfold takeFirst at h
  rw [run_bind_of_ok (run_get k)] at h
  obtain ⟨_, k₁, h₁, h⟩ := bind_ok_iff.mp h
  obtain ⟨m, -, rfl⟩ := onMach_ok_iff.mp h₁
  obtain ⟨_, k₂, h₂, h₃⟩ := bind_ok_iff.mp h
  obtain ⟨-, rfl⟩ := Prod.mk.inj (Except.ok.inj h₃)
  exact removeHead_queued (k := { k with mach := m }) hq h₂

/-- Waking a sender moves no block. -/
theorem wakeSender_shelves (c : Slot) (n : MsgPacketQueue) (sender : Option Slot) :
    Preserves Kernel.shelves (wakeSender (τ := τ) c n sender) :=
  Preserves.bind (awaken_shelves sender) fun _ => note_shelves _

/-- **A reply** takes the first packet from its queue and frees it. -/
theorem auditReply_conserved {c : Slot} {msg : BitVec 32} (h : Conserved a)
    (hrun : auditReply c msg a = .ok ((), a')) : Conserved a' := by
  unfold auditReply at hrun
  obtain ⟨k, a₁, h₁, hrun⟩ := bind_ok_iff.mp hrun
  obtain ⟨k₁, hk₁, rfl⟩ := onAudit_ok_iff.mp h₁
  obtain ⟨rfl, rfl⟩ := Prod.mk.inj (Except.ok.inj hk₁)
  cases hq : (a.kernel.procs c).recvQueue.msgs with
  | nil =>
    simp only [hq] at hrun
    obtain ⟨-, rfl⟩ := Prod.mk.inj (Except.ok.inj hrun)
    exact h
  | cons n rest =>
    simp only [hq] at hrun
    obtain ⟨sender, a₂, h₂, hrun⟩ := bind_ok_iff.mp hrun
    obtain ⟨k₂, hk₂, rfl⟩ := onAudit_ok_iff.mp h₂
    obtain ⟨_, a₃, h₃, h₄⟩ := bind_ok_iff.mp hrun
    have hhead : (a.kernel.shelves c).2.head? = some n.addr := by
      simp [Kernel.shelves, hq]
    have hcons := h.remove hhead (takeFirst_queued hq hk₂) h₃
    exact hcons.onAudit (wakeSender_shelves c n sender) h₄

end Bodies

/-! ### Runs -/

section Runs

variable {τ : Type} [Tlb τ] {k : Kernel τ} {a a' : Audit τ}

/-- A step: the caller is a process, and so is the receiver of a send; `kalloc` returns no block
    that is live. -/
structure AuditStep (a : Audit τ) (op : IpcOp τ) (a' : Audit τ) : Prop where
  caller : op.isCall = true → ∃ c, a.kernel.board.current = some c ∧
    a.kernel.board.inited c = true
  receiver : ∀ msg frame r, op = .send msg frame → a.kernel.receiverOf msg = some r →
    a.kernel.board.inited r = true
  fresh : FreshKalloc a
  exec : op.audit a = .ok ((), a')

omit [Tlb τ] in
/-- A flag is set, … -/
theorem procEnableScheduling_shelves : Preserves Kernel.shelves (procEnableScheduling (τ := τ)) :=
  .modify fun _ => rfl

/-- … and the other events touch no queue. -/
theorem other_shelves (mach : Machine τ) (scheduling : Bool) :
    Preserves Kernel.shelves (IpcOp.other mach scheduling).exec :=
  .modify fun _ => rfl

/-- The end of every call moves no block. -/
theorem Conserved.callEnd {frame : BitVec 32} (h : Conserved a)
    (hrun : (do Leoman.onAudit procEnableScheduling
                Leoman.onAudit (procScheduleWithoutIrq frame) : Code Trap (Audit τ) Unit) a
      = .ok ((), a')) : Conserved a' := by
  obtain ⟨_, a₁, h₁, h₂⟩ := bind_ok_iff.mp hrun
  have hcons : Conserved a₁ := h.onAudit procEnableScheduling_shelves h₁
  exact hcons.onAudit (Preserves.bind (procScheduleAfterIrq_shelves frame) fun _ => .pure _) h₂

omit [Tlb τ] in
/-- The start of every call: scheduling is off, and the caller is the running process. -/
theorem callStart_audit {c : Slot} {f : Slot → Code Trap (Audit τ) Unit}
    (hc : a.kernel.board.current = some c)
    (hrun : (do Leoman.onAudit procDisableScheduling
                let c ← Leoman.onAudit currentSlot
                f c : Code Trap (Audit τ) Unit) a = .ok ((), a')) :
    f c { a with kernel := { a.kernel with schedulingEnabled := false } } = .ok ((), a') := by
  obtain ⟨_, a₁, h₁, hrun⟩ := bind_ok_iff.mp hrun
  obtain ⟨k₁, hk₁, rfl⟩ := onAudit_ok_iff.mp h₁
  obtain ⟨-, rfl⟩ := Prod.mk.inj (Except.ok.inj hk₁)
  obtain ⟨c', a₂, h₂, hrun⟩ := bind_ok_iff.mp hrun
  obtain ⟨k₂, hk₂, rfl⟩ := onAudit_ok_iff.mp h₂
  obtain ⟨hc', rfl⟩ := currentSlot_ok hk₂
  obtain rfl : c' = c := Option.some.inj (hc'.symm.trans hc)
  exact hrun

/-- **One step** conserves packets. -/
theorem AuditStep.conserved {op : IpcOp τ} (h : Conserved a) (hs : AuditStep a op a') :
    Conserved a' := by
  obtain ⟨hcaller, hreceiver, hfresh, hrun⟩ := hs
  have h₁ : Conserved { a with kernel := { a.kernel with schedulingEnabled := false } } :=
    h.of_shelves rfl
  cases op with
  | send msg frame =>
    obtain ⟨c, hc, -⟩ := hcaller rfl
    have hrun := callStart_audit hc hrun
    obtain ⟨pid, a₂, h₂, hrun⟩ := bind_ok_iff.mp hrun
    obtain ⟨k₂, hk₂, rfl⟩ := onAudit_ok_iff.mp h₂
    obtain ⟨m, hm, rfl⟩ := onMach_ok_iff.mp hk₂
    obtain ⟨k, a₃, h₃, hrun⟩ := bind_ok_iff.mp hrun
    obtain ⟨k₃, hk₃, rfl⟩ := onAudit_ok_iff.mp h₃
    obtain ⟨rfl, rfl⟩ := Prod.mk.inj (Except.ok.inj hk₃)
    -- the receiver was found in the table the call started with
    have hto : a.kernel.receiverOf msg = a.kernel.procFindByPid pid := by
      have hm' : load32 (receiverField msg) a.kernel.mach = .ok (pid, m) := hm
      rw [Kernel.receiverOf, hm']
    cases hf : a.kernel.procFindByPid pid with
    | none =>
      have hf' : ({ a.kernel with schedulingEnabled := false, mach := m } : Kernel τ).procFindByPid
          pid = none := hf
      simp only [hf'] at hrun
      obtain ⟨-, rfl⟩ := Prod.mk.inj (Except.ok.inj hrun)
      exact h.of_shelves rfl
    | some r =>
      have hf' : ({ a.kernel with schedulingEnabled := false, mach := m } : Kernel τ).procFindByPid
          pid = some r := hf
      simp only [hf'] at hrun
      obtain ⟨_, a₄, h₄, hrun⟩ := bind_ok_iff.mp hrun
      have hin := hreceiver msg frame r rfl (hto.trans hf)
      have hcons : Conserved { a with kernel :=
          { a.kernel with schedulingEnabled := false, mach := m } } := h.of_shelves rfl
      exact (auditSendTo_conserved hcons hfresh hin h₄).callEnd hrun
  | recv msg frame =>
    obtain ⟨c, hc, hin⟩ := hcaller rfl
    obtain ⟨_, a₂, h₂, hrun⟩ := bind_ok_iff.mp (callStart_audit hc hrun)
    exact (auditReceive_conserved h₁ hfresh hin h₂).callEnd hrun
  | reply msg frame =>
    obtain ⟨c, hc, -⟩ := hcaller rfl
    obtain ⟨_, a₂, h₂, hrun⟩ := bind_ok_iff.mp (callStart_audit hc hrun)
    exact (auditReply_conserved h₁ h₂).callEnd hrun
  | tick frame =>
    exact h.onAudit (Preserves.bind (procScheduleAfterIrq_shelves frame) fun _ => .pure _) hrun
  | other mach scheduling => exact h.onAudit (other_shelves mach scheduling) hrun

omit [Tlb τ] in
/-- Boot has made no packets. -/
theorem Booted.conserved {n : Nat} (h : Booted n k) : Conserved (τ := τ) ⟨k, []⟩ := by
  have hempty : k.queued = 0 := by
    unfold Kernel.queued queuedIn
    refine Finset.sum_eq_zero fun s _ => ?_
    have hs : (k.procs s).recvQueue.msgs = [] := h.queue s
    simp [Kernel.shelves, hs]
  refine ⟨?_, ?_, fun before addr was now after heq => absurd heq (by simp)⟩
  · show (0 : Multiset (BitVec 32)) = k.queued
    exact hempty.symm
  · show k.queued.Nodup
    rw [hempty]
    exact Multiset.nodup_zero

/-- Every event of the kernel can be audited. -/
theorem AuditStep.of_exec {op : IpcOp τ} {k' : Kernel τ}
    (hcaller : op.isCall = true → ∃ c, a.kernel.board.current = some c ∧
      a.kernel.board.inited c = true)
    (hreceiver : ∀ msg frame r, op = .send msg frame → a.kernel.receiverOf msg = some r →
      a.kernel.board.inited r = true) (hfresh : FreshKalloc a)
    (hrun : op.exec a.kernel = .ok ((), k')) : ∃ a', AuditStep a op a' ∧ a'.kernel = k' := by
  obtain ⟨a', ha', hk'⟩ := (audit_erases op).exists_ok hrun
  exact ⟨a', ⟨hcaller, hreceiver, hfresh, ha'⟩, hk'⟩

/-- **Packet conservation.**  In every run from boot, in any order of calls, the blocks the calls
    have allocated and not freed are the packets in the queues of all processes taken together,
    each packet in one place of one queue, and every `kfree` was of a live block that had just left
    its queue: nothing is freed twice and nothing is lost. -/
theorem packets_conserved {n : Nat} {k₀ : Kernel τ} {tr : List (IpcOp τ)} (hb : Booted n k₀)
    (hrun : Run AuditStep ⟨k₀, []⟩ tr a) : Conserved a :=
  hrun.invariant (J := fun _ a => Conserved a) hb.conserved
    fun _ _ _ _ h hstep => hstep.conserved h

/-- In the small system process 3 receives, which allocates its placeholder; then process 0 sends
    to process 2, which allocates a second block; and process 2 replies, which frees that one.
    The placeholder stays live. -/
theorem packets_conserved_demo : ∃ a, Run AuditStep ⟨demoKernel, []⟩
      [.recv 0x5080#32 0#32, .send 0x5000#32 0#32, .reply 0x5000#32 0#32] a ∧
    a.calls.length = 3 ∧ liveBlocks a.calls = {0xe400000c#32} ∧ Conserved a := by
  -- the three calls as one piece of code, which returns the ledgers in between
  have htest : (((IpcOp.recv 0x5080#32 0#32).audit >>= fun _ => get >>= fun a₁ =>
      (IpcOp.send 0x5000#32 0#32).audit >>= fun _ => get >>= fun a₂ =>
      (IpcOp.reply 0x5000#32 0#32).audit >>= fun _ =>
        (pure (a₁, a₂) : Code Trap (Audit Unit) _)) ⟨demoKernel, []⟩).toOption.map (fun r =>
          decide (r.1.1.kernel.currentProc = some 0) &&
          (r.1.1.kernel.procs 0).recvQueue.inited &&
          decide (r.1.1.kernel.receiverOf 0x5000#32 = some 2) &&
          (r.1.1.kernel.procs 2).recvQueue.inited && decide (FreshKalloc r.1.1) &&
          decide (r.1.2.kernel.currentProc = some 2) &&
          (r.1.2.kernel.procs 2).recvQueue.inited && decide (FreshKalloc r.1.2) &&
          decide (r.2.calls.length = 3) && decide (liveBlocks r.2.calls = {0xe400000c#32}))
      = some true := by
    decide +kernel
  obtain ⟨⟨a₁, a₂⟩, a, h, htests⟩ := ok_of_test htest
  simp only [Bool.and_eq_true, decide_eq_true_eq] at htests
  obtain ⟨⟨⟨⟨⟨⟨⟨⟨⟨hcur₁, hin₀⟩, hto⟩, hin₁⟩, hfresh₁⟩, hcur₂⟩, hin₂⟩, hfresh₂⟩, hcalls⟩, hlive⟩ :=
    htests
  obtain ⟨_, b₁, h₁, h⟩ := bind_get_ok_iff.mp h
  obtain ⟨_, b₂, h₂, h⟩ := bind_get_ok_iff.mp h
  obtain ⟨_, b₃, h₃, h⟩ := bind_ok_iff.mp h
  obtain ⟨hmid, rfl⟩ := Prod.mk.inj (Except.ok.inj h)
  obtain ⟨rfl, rfl⟩ := Prod.mk.inj hmid
  have hrecv : AuditStep ⟨demoKernel, []⟩ (.recv 0x5080#32 0#32) b₁ :=
    ⟨fun _ => ⟨3, rfl, rfl⟩, fun _ _ _ hop => absurd hop (by simp),
      fun _ _ _ => Multiset.notMem_zero _, h₁⟩
  have hsend : AuditStep b₁ (.send 0x5000#32 0#32) b₂ := by
    refine ⟨fun _ => ⟨0, hcur₁, hin₀⟩, fun msg frame r hop hr => ?_, hfresh₁, h₂⟩
    obtain ⟨rfl, -⟩ := IpcOp.send.inj hop
    obtain rfl : 2 = r := Option.some.inj (hto.symm.trans hr)
    exact hin₁
  have hreply : AuditStep b₂ (.reply 0x5000#32 0#32) b₃ :=
    ⟨fun _ => ⟨2, hcur₂, hin₂⟩, fun _ _ _ hop => absurd hop (by simp), hfresh₂, h₃⟩
  have hrun := ((Run.start.next hrecv).next hsend).next hreply
  exact ⟨b₃, hrun, hcalls, hlive, packets_conserved booted_demoKernel hrun⟩

end Runs

end Leoman
