import Leoman.PacketSlots
import Leoman.Stailq

namespace Leoman

open ByteMem LinkCells

/-!
# The receive queues in memory

A packet lies in a block of the kernel heap and is linked through a field of its own; the heads of
the queues are in the process table.  So the headers of the heap, the links and the heads share
one memory, and `kalloc`, `kfree` and the macros of `queue.h` all write it.

* `ProcTable` — where `procs` is, below the heap;
* `enqueue`, `dequeue` — the calls of `kalloc` and `STAILQ_INSERT_TAIL`, and of
  `STAILQ_REMOVE_HEAD` and `kfree`, as `syscall.c` makes them;
* `Stocked` — the heap is sound, the queues are lists, and the packets in them are the blocks that
  are allocated;
* `Stocked.enqueue`, `Stocked.dequeue`, `Stocked.scribble` — what keeps it.
-/

/-! ### Where things are -/

/-- `sizeof(struct proc)`: the name of 33 bytes is padded to a word, and a `bool` is one. -/
def procSize : Nat := 88

/-- `offsetof(struct proc, recv_queue)`. -/
def recvQueueOffset : Nat := 80

/-- `offsetof(struct msg_packet_queue, msgs)`. -/
def msgsOffset : BitVec 32 := 36#32

/-- `procs`, in the kernel's data, below the heap. -/
structure ProcTable where
  base : BitVec 32
  below : base.toNat + nprocs * procSize ≤ heapPoolAddr.toNat

/-- `&procs[s].recv_queue`. -/
def ProcTable.recvQueue (T : ProcTable) (s : Slot) : BitVec 32 :=
  T.base + BitVec.ofNat 32 (procSize * s.val + recvQueueOffset)

/-- The queues of the first `n` processes. -/
def ProcTable.queues (T : ProcTable) (n : Nat) : StailqLayout {s : Slot // s.val < n} :=
  ⟨fun s => T.recvQueue s, msgsOffset⟩

section Places

variable (T : ProcTable) {n : Nat}

theorem recvQueue_toNat (s : Slot) :
    (T.recvQueue s).toNat = T.base.toNat + procSize * s.val + recvQueueOffset := by
  have hbelow := T.below
  have hs : s.val < 64 := s.isLt
  have hpool : heapPoolAddr.toNat = 0xe4000000 := by decide
  simp only [ProcTable.recvQueue, procSize, recvQueueOffset, nprocs, BitVec.toNat_add,
    BitVec.toNat_ofNat] at *
  omega

theorem recvQueue_below (s : Slot) : (T.recvQueue s).toNat + 8 ≤ heapPoolAddr.toNat := by
  have hbelow := T.below
  have hs : s.val < 64 := s.isLt
  rw [recvQueue_toNat]
  simp only [procSize, recvQueueOffset, nprocs] at *
  omega

theorem stqhLast_toNat (s : Slot) :
    (stqhLast (T.recvQueue s)).toNat = (T.recvQueue s).toNat + 4 := by
  have hbelow := recvQueue_below T s
  have hpool : heapPoolAddr.toNat = 0xe4000000 := by decide
  simp only [stqhLast, BitVec.toNat_add, BitVec.toNat_ofNat]
  omega

/-- The heads are words of different processes. -/
theorem recvQueue_apart {s t : Slot} (hst : s ≠ t) :
    Apart (T.recvQueue s) 8 (T.recvQueue t) 8 := by
  have hne : s.val ≠ t.val := fun h => hst (Fin.ext h)
  unfold Apart
  rw [recvQueue_toNat, recvQueue_toNat]
  simp only [procSize]
  omega

theorem packetPayload_toNat {k : Nat} (hk : k < 314) :
    (packetPayload k).toNat = 0xe4000000 + 52 * k + 12 := by
  have hslot := packetSlot_toNat (k := k) (by omega)
  simp only [packetPayload, blockSize, BitVec.toNat_add, BitVec.toNat_ofNat, hslot]
  omega

theorem msgs_toNat {k : Nat} (hk : k < 314) :
    (stqeNext msgsOffset (packetPayload k)).toNat = 0xe4000000 + 52 * k + 48 := by
  simp only [stqeNext, msgsOffset, BitVec.toNat_add, BitVec.toNat_ofNat, packetPayload_toNat hk]
  omega

/-- Words apart do not overlap. -/
theorem DisjointWords.of_apart {a b : BitVec 32} (ha : a.toNat + 4 ≤ 2 ^ 32)
    (hb : b.toNat + 4 ≤ 2 ^ 32) (h : Apart a 4 b 4) : DisjointWords a b :=
  fun _ hx hx' => not_inRange_of_apart ha hb h hx' hx

/-- The words of the heads do not overlap. -/
theorem ProcTable.heads_separate (s t : Slot) :
    (s ≠ t → DisjointWords (T.recvQueue s) (T.recvQueue t)) ∧
    (s ≠ t → DisjointWords (stqhLast (T.recvQueue s)) (stqhLast (T.recvQueue t))) ∧
    DisjointWords (stqhLast (T.recvQueue s)) (T.recvQueue t) := by
  have hs := recvQueue_below T s
  have ht := recvQueue_below T t
  have hs' := stqhLast_toNat T s
  have ht' := stqhLast_toNat T t
  have hap : s ≠ t → Apart (T.recvQueue s) 8 (T.recvQueue t) 8 := recvQueue_apart T
  have hpool : heapPoolAddr.toNat = 0xe4000000 := by decide
  unfold Apart at hap
  refine ⟨fun hst => ?_, fun hst => ?_, ?_⟩
  · have := hap hst
    exact .of_apart (by omega) (by omega) (by unfold Apart; omega)
  · have := hap hst
    exact .of_apart (by omega) (by omega) (by unfold Apart; omega)
  · refine .of_apart (by omega) (by omega) ?_
    unfold Apart
    by_cases hst : s = t
    · subst hst
      omega
    · have := hap hst
      omega

/-- The link of a packet in a slot is behind the heads. -/
theorem ProcTable.head_link_separate (s : Slot) {k : Nat} (hk : k < 314) :
    DisjointWords (T.recvQueue s) (stqeNext msgsOffset (packetPayload k)) ∧
    DisjointWords (stqhLast (T.recvQueue s)) (stqeNext msgsOffset (packetPayload k)) := by
  have hs := recvQueue_below T s
  have hs' := stqhLast_toNat T s
  have hlink := msgs_toNat hk
  have hpool : heapPoolAddr.toNat = 0xe4000000 := by decide
  exact ⟨.of_apart (by omega) (by omega) (Or.inl (by omega)),
    .of_apart (by omega) (by omega) (Or.inl (by omega))⟩

/-- **Packets in slots** can be queued: the heads and their links do not overlap. -/
theorem ProcTable.separate {used : Cell {s : Slot // s.val < n} (BitVec 32) → Prop}
    (hused : ∀ p, used (.next p) → ∃ k < 314, p = packetPayload k) :
    (T.queues n).Separate used := by
  have hne : ∀ {s t : {s : Slot // s.val < n}}, s ≠ t → s.val ≠ t.val :=
    fun hst h => hst (Subtype.ext h)
  refine ⟨fun c d hc hd hcd => ?_, fun s t _ _ hst => (T.heads_separate s t).2.1 (hne hst),
    fun s c _ hc => ?_⟩
  · cases c with
    | first s =>
      cases d with
      | first t =>
        exact (T.heads_separate s t).1 (hne fun h => hcd (congrArg Cell.first h))
      | next p =>
        obtain ⟨k, hk, rfl⟩ := hused p hd
        exact (T.head_link_separate s hk).1
    | next p =>
      obtain ⟨k, hk, rfl⟩ := hused p hc
      cases d with
      | first t => exact (T.head_link_separate t hk).1.symm
      | next p' =>
        obtain ⟨j, hj, rfl⟩ := hused p' hd
        have hne : k ≠ j := fun h => hcd (by rw [h])
        have hk' := msgs_toNat hk
        have hj' := msgs_toNat hj
        show DisjointWords (stqeNext msgsOffset (packetPayload k))
          (stqeNext msgsOffset (packetPayload j))
        exact .of_apart (by omega) (by omega) (by unfold Apart; omega)
  · cases c with
    | first t => exact (T.heads_separate s t).2.2
    | next p =>
      obtain ⟨k, hk, rfl⟩ := hused p hc
      exact (T.head_link_separate s hk).2

end Places

/-! ### The calls -/

/-- `kalloc` of a packet and `STAILQ_INSERT_TAIL`; `none` if there is no block.  What the packet
    gets between the two does not matter here. -/
def enqueue (m : Mem) (head : BitVec 32) : Option (BitVec 32 × Mem) :=
  match kalloc ⟨true, m⟩ msgPacketQueueSize with
  | none => none
  | some (packet, heap) =>
    if packet = 0#32 then none
    else some (packet, stailqInsertTail msgsOffset heap.mem head packet)

/-- `STAILQ_FIRST`, `STAILQ_REMOVE_HEAD` and `kfree`. -/
def dequeue (m : Mem) (head : BitVec 32) : Mem :=
  let first := stailqFirst m head
  (kfree ⟨true, stailqRemoveHead msgsOffset m head⟩ first).mem

/-! ### Bytes of the heap -/

section Bytes

variable {m m' : Mem} {live : List (BitVec 32 × BitVec 32)} {k j : Nat} {x : BitVec 32}

/-- The byte belongs to the header of a slot. -/
def OnHeader (x : BitVec 32) : Prop := ∃ k ≤ 314, InRange x (packetSlot k) 12

theorem OnHeader.toNat (h : OnHeader x) :
    ∃ k ≤ 314, 0xe4000000 + 52 * k ≤ x.toNat ∧ x.toNat < 0xe4000000 + 52 * k + 12 := by
  obtain ⟨k, hk, hx⟩ := h
  have hslot := packetSlot_toNat hk
  rw [inRange_iff (by omega), hslot] at hx
  exact ⟨k, hk, hx⟩

/-- The bytes of a link are behind a packet, not in a header. -/
theorem not_onHeader_of_link (hk : k < 314)
    (hx : InRange x (stqeNext msgsOffset (packetPayload k)) 4) : ¬ OnHeader x := by
  intro h
  obtain ⟨j, -, hlo, hhi⟩ := h.toNat
  have hlink := msgs_toNat hk
  rw [inRange_iff (by omega), hlink] at hx
  omega

/-- Nor are those of a head. -/
theorem not_onHeader_of_head {T : ProcTable} {s : Slot} (hx : InRange x (T.recvQueue s) 8) :
    ¬ OnHeader x := by
  intro h
  obtain ⟨j, -, hlo, -⟩ := h.toNat
  have hlow := recvQueue_below T s
  have hpool : heapPoolAddr.toNat = 0xe4000000 := by decide
  rw [inRange_iff (by omega)] at hx
  omega

/-- The two words of a head are its bytes. -/
theorem inRange_head {T : ProcTable} {s : Slot}
    (hx : InRange x (T.recvQueue s) 4 ∨ InRange x (stqhLast (T.recvQueue s)) 4) :
    InRange x (T.recvQueue s) 8 := by
  have hlow := recvQueue_below T s
  have hlast := stqhLast_toNat T s
  have hpool : heapPoolAddr.toNat = 0xe4000000 := by decide
  rw [inRange_iff (by omega), inRange_iff (by omega), hlast] at hx
  rw [inRange_iff (by omega)]
  omega

/-- The heap is sound if the headers of its slots are as they were. -/
theorem Slotted.congr_headers (h : Slotted ⟨⟨true, m⟩, live⟩ k)
    (hm : ∀ j ≤ k, HdrEq m' m (packetSlot j)) : Slotted ⟨⟨true, m'⟩, live⟩ k := by
  have hhdr : ∀ y ∈ slotList k ++ [packetSlot k], HdrEq m' m y := by
    intro y hy
    rw [slotList_succ] at hy
    obtain ⟨j, hj, rfl⟩ := mem_slotList hy
    exact hm j (by omega)
  have hslot : ∀ j < k, HdrEq m' m (packetSlot j) := fun j hj =>
    hhdr _ (List.mem_append_left _ (packetSlot_mem hj))
  have htail : HdrEq m' m (packetSlot k) := hhdr _ (by simp)
  refine ⟨⟨rfl, h.inv.chain.transport fun y hy => (hhdr y hy).next, ?_, h.inv.lower, ?_, ?_,
    h.inv.tailIn, fun e he => ?_, h.inv.distinct⟩, h.few, fun j hj => ?_, fun j hj => ?_⟩
  · refine h.inv.spaced.imp_of_mem fun {y z} hy _ hyz => ?_
    unfold EndsBefore at hyz ⊢
    rw [(hhdr y hy).dataSize]
    exact hyz
  · rw [htail.type]
    exact h.inv.tailType
  · rw [htail.dataSize]
    exact h.inv.tailSize
  · obtain ⟨y, hy, hused, rfl⟩ := h.inv.live e he
    have hy' := hhdr y (List.mem_append_left _ hy)
    exact ⟨y, hy, hy'.type.trans hused, by rw [hy'.dataSize]⟩
  · exact (hslot j hj).dataSize.trans (h.size j hj)
  · exact (h.used j hj).imp_left (hslot j hj).type.trans

theorem Slotted.congr (h : Slotted ⟨⟨true, m⟩, live⟩ k) (hm : ∀ x, OnHeader x → m' x = m x) :
    Slotted ⟨⟨true, m'⟩, live⟩ k := by
  have hfew := h.few
  exact h.congr_headers fun j hj x hx => hm x ⟨j, by omega, hx⟩

/-- An allocated block is the payload of a slot. -/
theorem Slotted.live_slot (h : Slotted ⟨⟨true, m⟩, live⟩ k) {p : BitVec 32}
    (hp : p ∈ live.map Prod.fst) : ∃ j < 314, p = packetPayload j := by
  obtain ⟨e, he, rfl⟩ := List.mem_map.mp hp
  obtain ⟨y, hy, -, rfl⟩ := h.inv.live e he
  obtain ⟨j, hj, rfl⟩ := mem_slotList hy
  have hfew := h.few
  exact ⟨j, by omega, rfl⟩

/-- `kalloc` writes headers only. -/
theorem Slotted.takeBlock_frame (h : Slotted ⟨⟨true, m⟩, live⟩ k) (hj : j ≤ k) (hj' : j < 314)
    (hx : ¬ OnHeader x) : takeBlock m (packetSlot j) msgPacketQueueSize x = m x := by
  have hself : ¬ InRange x (packetSlot j) 12 := fun hin => hx ⟨j, by omega, hin⟩
  rcases Nat.lt_or_eq_of_le hj with hlt | rfl
  · rw [takeBlock_inner (h.inv.ne_zero (h.inv.succ (packetSlot_mem hlt)).1)]
    exact fillBlock_frame _ _ _ hself
  · have hslot := packetSlot_toNat (k := j) (by omega)
    have hsize : msgPacketQueueSize.toNat = 40 := by decide
    have hnew : ¬ InRange x (packetSlot j + blockSize + msgPacketQueueSize) 12 := by
      rw [packetSlot_succ]
      exact fun hin => hx ⟨j + 1, by omega, hin⟩
    rw [takeBlock_last h.inv.chain.next_last, fillBlock_frame _ _ _ hself]
    exact splitTail_frame (by omega) hself hnew

end Bytes

/-! ### Heap and queues -/

/-- The heap is sound, the queues are lists, and the packets in them are the blocks that are
    allocated. -/
structure Stocked (T : ProcTable) (n : Nat) (live : List (BitVec 32 × BitVec 32)) (m : Mem)
    (q : {s : Slot // s.val < n} → List (BitVec 32)) : Prop where
  slots : ∃ k, Slotted ⟨⟨true, m⟩, live⟩ k
  queues : (T.queues n).Stailqs (fun _ => True) m q
  stock : ∀ p, p ∈ live.map Prod.fst ↔ ∃ s, p ∈ q s

/-- The bytes that hold heap and queues together: those of the heads, and of the pool all but the
    packets in the queues. -/
def ProcTable.Reserved (T : ProcTable) {n : Nat} (q : {s : Slot // s.val < n} → List (BitVec 32))
    (x : BitVec 32) : Prop :=
  (∃ s : {s : Slot // s.val < n}, InRange x (T.recvQueue s) 8) ∨
  InRange x heapPoolAddr heapSize.toNat ∧ ∀ s, ∀ p ∈ q s, ¬ InRange x p msgPacketSize.toNat

section Stocked

variable {T : ProcTable} {n : Nat} {live : List (BitVec 32 × BitVec 32)} {m m' : Mem}
  {q : {s : Slot // s.val < n} → List (BitVec 32)} {s : {s : Slot // s.val < n}} {x : BitVec 32}

/-- A queued packet is in a slot. -/
theorem Stocked.queued_slot (h : Stocked T n live m q) {p : BitVec 32} (hp : p ∈ q s) :
    ∃ k < 314, p = packetPayload k := by
  obtain ⟨k, hk⟩ := h.slots
  exact hk.live_slot ((h.stock p).mpr ⟨s, hp⟩)

/-- All queued packets are in slots. -/
def InSlots (q : {s : Slot // s.val < n} → List (BitVec 32)) : Prop :=
  ∀ s, ∀ p ∈ q s, ∃ k < 314, p = packetPayload k

theorem Stocked.inSlots (h : Stocked T n live m q) : InSlots q := fun _ _ hp => h.queued_slot hp

/-- The queues do not use the headers of the heap. -/
theorem InSlots.cell_off_header (h : InSlots q) {c : Cell {s : Slot // s.val < n} _}
    (hc : InQueues (fun _ => True) q c) (hx : InRange x ((T.queues n).cell c) 4) :
    ¬ OnHeader x := by
  cases c with
  | first s => exact not_onHeader_of_head (inRange_head (Or.inl hx))
  | next p =>
    obtain ⟨s, hp⟩ := hc
    obtain ⟨k, hk, rfl⟩ := h s p hp
    exact not_onHeader_of_link hk hx

/-- Changes of headers leave the queues alone. -/
theorem InSlots.queues_congr (h : InSlots q) (hq : (T.queues n).Stailqs (fun _ => True) m q)
    (hm : ∀ x, ¬ OnHeader x → m' x = m x) : (T.queues n).Stailqs (fun _ => True) m' q :=
  hq.congr (fun _ hc x hx => hm x (h.cell_off_header hc hx))
    fun _ _ x hx => hm x (not_onHeader_of_head (inRange_head (Or.inr hx)))

/-- The bytes of headers are outside what a macro changes. -/
theorem InSlots.outside_of_onHeader (h : InSlots q)
    {op : StailqOp {s : Slot // s.val < n}} (hinits : op.inits (fun _ => True) = fun _ => True)
    (hnew : ∀ p, op.new? = some p → ∃ k < 314, p = packetPayload k) (hx : OnHeader x) :
    (T.queues n).Outside (fun _ => True) q op x := by
  refine ⟨fun s _ hin => ?_, fun c hc hin => ?_, fun p hp hin => ?_⟩
  · exact not_onHeader_of_head (inRange_head (Or.inr hin)) hx
  · rw [hinits] at hc
    exact h.cell_off_header hc hin hx
  · obtain ⟨k, hk, rfl⟩ := hnew p hp
    exact not_onHeader_of_link hk hin hx

/-- **Step lemma for `enqueue`.**  The packet gets the least slot that is free. -/
theorem Stocked.enqueue (h : Stocked T n live m q) (hfew : live.length < 314)
    (s : {s : Slot // s.val < n}) : ∃ k m', HeapState.LeastFree ⟨⟨true, m⟩, live⟩ k ∧
      enqueue m (T.recvQueue s) = some (packetPayload k, m') ∧
      Stocked T n ((packetPayload k, msgPacketQueueSize) :: live) m'
        (Function.update q s (q s ++ [packetPayload k])) := by
  obtain ⟨j, hj⟩ := h.slots
  obtain ⟨k, hk, hleast, -, hcall, hstep⟩ := hj.kalloc_takes
  have hk' : k < 314 := (hj.le_length hk hleast.2).trans_lt hfew
  have hpay := packetPayload_toNat hk'
  have hne : packetPayload k ≠ 0#32 := by
    intro hzero
    rw [hzero] at hpay
    exact absurd hpay (by rw [BitVec.toNat_ofNat]; omega)
  -- the heap after `kalloc`
  have hkept := fun hroom => hj.kalloc hroom hstep
  obtain ⟨j', hj'⟩ := hkept (Nat.succ_le_of_lt hfew)
  have hqueues :
      (T.queues n).Stailqs (fun _ => True) (takeBlock m (packetSlot k) msgPacketQueueSize) q :=
    h.inSlots.queues_congr h.queues fun x hx => hj.takeBlock_frame hk hk' hx
  -- the block is a new one
  have hnotin : ∀ s, packetPayload k ∉ q s := fun s hs =>
    hleast.1 ((h.stock _).mpr ⟨s, hs⟩)
  have hslots : ∀ p, (Cell.next p : Cell {s : Slot // s.val < n} _) = .next (packetPayload k) ∨
      InQueues (fun _ => True) q (.next p) → ∃ k < 314, p = packetPayload k := by
    rintro p (hp | ⟨s, hp⟩)
    · exact ⟨k, hk', Cell.next.inj hp⟩
    · exact h.queued_slot hp
  have husable :
      (StailqOp.insertTail s (packetPayload k)).Usable (T.queues n) (fun _ => True) q := by
    refine ⟨fun _ _ => trivial, ?_, trivial⟩
    rintro e ⟨⟩
    exact ⟨hne, hnotin, T.separate hslots⟩
  have hdone := StailqOp.exec_done (n := 0) hqueues husable rfl
  refine ⟨k, _, hleast, ?_, ⟨j', ?_⟩, hdone.holds, fun p => ?_⟩
  · unfold Leoman.enqueue
    rw [hcall]
    exact if_neg hne
  · refine hj'.congr fun x hx => hdone.rest x ?_
    refine h.inSlots.outside_of_onHeader rfl ?_ hx
    rintro p ⟨⟩
    exact ⟨k, hk', rfl⟩
  · rw [List.map_cons, List.mem_cons, h.stock p]
    constructor
    · rintro (rfl | ⟨t, ht⟩)
      · exact ⟨s, by simp⟩
      · by_cases hts : t = s
        · subst hts
          exact ⟨t, by simp [ht]⟩
        · exact ⟨t, by rwa [Function.update_of_ne hts]⟩
    · rintro ⟨t, ht⟩
      by_cases hts : t = s
      · subst hts
        rw [Function.update_self, List.mem_append, List.mem_singleton] at ht
        exact ht.symm.imp_right fun h => ⟨t, h⟩
      · rw [Function.update_of_ne hts] at ht
        exact Or.inr ⟨t, ht⟩

/-- Taking an element out of the list of blocks, by its address. -/
theorem mem_eraseP_fst {live : List (BitVec 32 × BitVec 32)} {p p' : BitVec 32}
    (hd : live.Pairwise fun e f => e.1 ≠ f.1) :
    p' ∈ (live.eraseP fun e => e.1 = p).map Prod.fst ↔ p' ∈ live.map Prod.fst ∧ p' ≠ p := by
  simp only [List.mem_map]
  constructor
  · rintro ⟨e, he, rfl⟩
    exact ⟨⟨e, List.mem_of_mem_eraseP he, rfl⟩, eraseP_fst_ne hd he⟩
  · rintro ⟨⟨e, he, rfl⟩, hne⟩
    exact ⟨e, (List.mem_eraseP_of_neg (by simpa using hne)).mpr he, rfl⟩

/-- The first packet of a queue is in no other place. -/
theorem Stocked.first_once (h : Stocked T n live m q) {p : BitVec 32} {rest : List (BitVec 32)}
    (hq : q s = p :: rest) (p' : BitVec 32) :
    (∃ t, p' ∈ Function.update q s rest t) ↔ (∃ t, p' ∈ q t) ∧ p' ≠ p := by
  obtain ⟨st, -, hs⟩ := h.queues.store
  have hnodup := hs.nodup s
  rw [hq, List.nodup_cons] at hnodup
  have hmem : p ∈ q s := by
    rw [hq]
    exact List.mem_cons_self
  constructor
  · rintro ⟨t, ht⟩
    by_cases hts : t = s
    · subst hts
      rw [Function.update_self] at ht
      refine ⟨⟨t, ?_⟩, ?_⟩
      · rw [hq]
        exact List.mem_cons_of_mem p ht
      · rintro rfl
        exact hnodup.1 ht
    · rw [Function.update_of_ne hts] at ht
      refine ⟨⟨t, ht⟩, ?_⟩
      rintro rfl
      exact hs.once t s hts p' ht hmem
  · rintro ⟨⟨t, ht⟩, hne⟩
    by_cases hts : t = s
    · subst hts
      rw [hq, List.mem_cons] at ht
      refine ⟨t, ?_⟩
      rw [Function.update_self]
      exact ht.resolve_left hne
    · exact ⟨t, by rwa [Function.update_of_ne hts]⟩

/-- **Step lemma for `dequeue`.**  The first packet is given back. -/
theorem Stocked.dequeue (h : Stocked T n live m q) {p : BitVec 32} {rest : List (BitVec 32)}
    (hq : q s = p :: rest) : Stocked T n (live.eraseP fun e => e.1 = p)
      (Leoman.dequeue m (T.recvQueue s)) (Function.update q s rest) := by
  obtain ⟨k, hk⟩ := h.slots
  have husable : (StailqOp.removeHead s).Usable (T.queues n) (fun _ => True) q :=
    ⟨fun _ _ => trivial, nofun, fun hnil => absurd (hq.symm.trans hnil) (List.cons_ne_nil p rest)⟩
  have hdone := StailqOp.exec_done (n := 0) h.queues husable rfl
  have hop : (StailqOp.removeHead s).apply q = Function.update q s rest := by
    show Function.update q s (q s).tail = _
    rw [hq]
    rfl
  have hfirst : stailqFirst m (T.recvQueue s) = p := by
    have hobs : stailqFirst m (T.recvQueue s) = elmPtr (q s).head? :=
      (h.queues.observed s trivial).first
    rw [hobs, hq]
    rfl
  -- the macro leaves the heap alone
  have hk₁ : Slotted ⟨⟨true, stailqRemoveHead msgsOffset m (T.recvQueue s)⟩, live⟩ k :=
    hk.congr fun x hx => hdone.rest x (h.inSlots.outside_of_onHeader rfl nofun hx)
  have hlive : p ∈ live.map Prod.fst := (h.stock p).mpr ⟨s, by rw [hq]; exact List.mem_cons_self⟩
  have hstep :
      HeapState.step ⟨⟨true, stailqRemoveHead msgsOffset m (T.recvQueue s)⟩, live⟩ (.kfree p)
      = some ⟨kfree ⟨true, stailqRemoveHead msgsOffset m (T.recvQueue s)⟩ p,
          live.eraseP fun e => e.1 = p⟩ := if_pos hlive
  have hstock : ∀ p', p' ∈ (live.eraseP fun e => e.1 = p).map Prod.fst ↔
      ∃ t, p' ∈ Function.update q s rest t := by
    intro p'
    rw [mem_eraseP_fst hk.inv.distinct, h.stock p', h.first_once hq p']
  -- and `kfree` leaves the queues alone
  have hk₂ := hk₁.kfree hstep
  obtain ⟨y, hy, rfl, hfree⟩ := hk₁.inv.kfree_eq hstep
  have hheap : kfree ⟨true, stailqRemoveHead msgsOffset m (T.recvQueue s)⟩ (y + blockSize)
      = ⟨true, write8 (stailqRemoveHead msgsOffset m (T.recvQueue s)) (y + 2#32) blockUnused⟩ :=
    congrArg HeapState.heap hfree
  have hqueues : (T.queues n).Stailqs (fun _ => True)
      (stailqRemoveHead msgsOffset m (T.recvQueue s)) (Function.update q s rest) :=
    hop ▸ hdone.holds
  have hslots : InSlots (Function.update q s rest) := by
    intro t p ht
    obtain ⟨⟨u, hu⟩, -⟩ := (h.first_once hq p).mp ⟨t, ht⟩
    exact h.queued_slot hu
  unfold Leoman.dequeue
  simp only [hfirst, hheap]
  rw [hheap] at hk₂
  refine ⟨⟨k, hk₂⟩, hslots.queues_congr hqueues fun x hx => ?_, hstock⟩
  refine write8_of_not_inRange fun hin => hx ?_
  obtain ⟨j, hj, rfl⟩ := mem_slotList hy
  have hfew := hk.few
  exact ⟨j, by omega, inRange_field (by decide) hin⟩

/-- Headers and links are reserved. -/
theorem InSlots.reserved (h : InSlots q) (hx : OnHeader x ∨
    ∃ s, ∃ p ∈ q s, InRange x (stqeNext msgsOffset p) 4) : T.Reserved q x := by
  have hpool : heapPoolAddr.toNat = 0xe4000000 := by decide
  have hsize : heapSize.toNat = 16384 := by decide
  have hpacket : msgPacketSize.toNat = 36 := by decide
  -- no byte of a slot's header or link is in a packet
  have hout : ∀ k ≤ 314, (0xe4000000 + 52 * k ≤ x.toNat ∧ x.toNat < 0xe4000000 + 52 * k + 12 ∨
      k < 314 ∧ 0xe4000000 + 52 * k + 48 ≤ x.toNat ∧ x.toNat < 0xe4000000 + 52 * k + 52) →
      T.Reserved q x := by
    intro k hk hplace
    refine Or.inr ⟨?_, fun s p hp hin => ?_⟩
    · rw [inRange_iff (by omega)]
      omega
    · obtain ⟨j, hj, rfl⟩ := h s p hp
      have hpay := packetPayload_toNat hj
      rw [inRange_iff (by omega)] at hin
      omega
  rcases hx with hx | ⟨s, p, hp, hin⟩
  · obtain ⟨k, hk, hplace⟩ := hx.toNat
    exact hout k hk (Or.inl hplace)
  · obtain ⟨k, hk, rfl⟩ := h s p hp
    have hlink := msgs_toNat hk
    rw [inRange_iff (by omega), hlink] at hin
    exact hout k (by omega) (Or.inr ⟨hk, by omega⟩)

/-- **Step lemma for everything else**: stores that leave the reserved bytes alone. -/
theorem Stocked.scribble (h : Stocked T n live m q) (hm : ∀ x, T.Reserved q x → m' x = m x) :
    Stocked T n live m' q := by
  obtain ⟨k, hk⟩ := h.slots
  refine ⟨⟨k, hk.congr fun x hx => hm x (h.inSlots.reserved (Or.inl hx))⟩,
    h.queues.congr (fun c hc x hx => hm x ?_) (fun s _ x hx => hm x ?_), h.stock⟩
  · cases c with
    | first s => exact Or.inl ⟨s, inRange_head (Or.inl hx)⟩
    | next p =>
      obtain ⟨s, hp⟩ := hc
      exact h.inSlots.reserved (Or.inr ⟨s, p, hp, hx⟩)
  · exact Or.inl ⟨s, inRange_head (Or.inr hx)⟩

/-- The queue of a process is as `STAILQ_INIT` leaves it. -/
def ProcTable.QueueInited (T : ProcTable) (m : Mem) (s : Slot) : Prop :=
  stailqFirst m (T.recvQueue s) = 0#32 ∧ read32 m (stqhLast (T.recvQueue s)) = T.recvQueue s

/-- Memory when no packet has been sent: `heap_init` has made its block, and `proc_new` the queues
    of the first `n` processes. -/
structure ProcTable.Inited (T : ProcTable) (n : Nat) (m : Mem) : Prop where
  heap : ∃ m₀, ∀ x, InRange x heapPoolAddr 12 → m x = (heapInit m₀).mem x
  queues : ∀ s : Slot, s.val < n → T.QueueInited m s

theorem ProcTable.Inited.stocked (h : T.Inited n m) : Stocked T n [] m fun _ => [] := by
  obtain ⟨m₀, hm₀⟩ := h.heap
  have hslot : packetSlot 0 = heapPoolAddr := by decide
  have hzero : Slotted ⟨⟨true, (heapInit m₀).mem⟩, []⟩ 0 := heapInit_slotted m₀
  refine ⟨⟨0, hzero.congr_headers fun j hj x hx => ?_⟩, ?_, by simp⟩
  · obtain rfl : j = 0 := by omega
    exact hm₀ x (hslot ▸ hx)
  · refine StailqLayout.stailqs_empty (T.separate fun p hp => ?_) fun s _ => h.queues s s.2
    obtain ⟨s, hp⟩ := hp
    exact absurd hp (by simp)

/-! ### Making the queues -/

/-- `STAILQ_INIT` of the queue of each process, as `proc_new` does it. -/
def ProcTable.initQueues (T : ProcTable) (slots : List Slot) (m : Mem) : Mem :=
  slots.foldl (fun m s => stailqInit m (T.recvQueue s)) m

/-- `STAILQ_INIT` makes one queue. -/
theorem ProcTable.queueInited_init (T : ProcTable) (m : Mem) (s : Slot) :
    T.QueueInited (stailqInit m (T.recvQueue s)) s := by
  refine ⟨?_, read32_write32_self _ _ _⟩
  have hsep := (T.heads_separate s s).2.2.symm
  show read32 (write32 (write32 m (T.recvQueue s) 0#32) (stqhLast (T.recvQueue s)) _) _ = _
  rw [hsep.read, read32_write32_self]

/-- It leaves the bytes of other heads alone, and all others. -/
theorem stailqInit_frame {s : Slot} (hx : ¬ InRange x (T.recvQueue s) 8) :
    stailqInit m (T.recvQueue s) x = m x := by
  unfold stailqInit
  rw [write32_of_not_inRange fun h => hx (inRange_head (Or.inr h)),
    write32_of_not_inRange fun h => hx (inRange_head (Or.inl h))]

theorem ProcTable.QueueInited.init {s : Slot} (h : T.QueueInited m s) (t : Slot) :
    T.QueueInited (stailqInit m (T.recvQueue t)) s := by
  by_cases hst : s = t
  · subst hst
    exact T.queueInited_init m s
  · have hfirst := (T.heads_separate s t).1 hst
    have hlast := (T.heads_separate s t).2.1 hst
    refine ⟨?_, ?_⟩
    · show read32 (write32 (write32 m (T.recvQueue t) 0#32) _ _) (T.recvQueue s) = _
      rw [(T.heads_separate t s).2.2.symm.read, hfirst.read]
      exact h.1
    · show read32 (write32 (write32 m (T.recvQueue t) 0#32) _ _) (stqhLast (T.recvQueue s)) = _
      rw [hlast.read, (T.heads_separate s t).2.2.read]
      exact h.2

/-- **Boot makes them all**, over whatever the table held. -/
theorem ProcTable.inited_initQueues (T : ProcTable) {slots : List Slot}
    (hslots : ∀ s : Slot, s.val < n → s ∈ slots) (m : Mem) :
    T.Inited n (T.initQueues slots (heapInit m).mem) := by
  have hheap : ∀ (slots : List Slot) (m : Mem) x, InRange x heapPoolAddr 12 →
      T.initQueues slots m x = m x := by
    intro slots m x hx
    induction slots generalizing m with
    | nil => rfl
    | cons s slots ih =>
      rw [ProcTable.initQueues, List.foldl_cons, ← ProcTable.initQueues, ih]
      refine stailqInit_frame fun hin => not_onHeader_of_head hin ⟨0, by omega, ?_⟩
      rwa [show packetSlot 0 = heapPoolAddr by decide]
  have hqueues : ∀ (slots : List Slot) (m : Mem) s, s ∈ slots ∨ T.QueueInited m s →
      T.QueueInited (T.initQueues slots m) s := by
    intro slots m s hs
    induction slots generalizing m with
    | nil => exact hs.resolve_left (by simp)
    | cons t slots ih =>
      rw [ProcTable.initQueues, List.foldl_cons, ← ProcTable.initQueues]
      refine ih _ ?_
      rcases hs with hs | hs
      · rcases List.mem_cons.mp hs with rfl | hs
        · exact Or.inr (T.queueInited_init m s)
        · exact Or.inl hs
      · exact Or.inr (hs.init t)
  exact ⟨⟨m, fun x hx => hheap slots _ x hx⟩, fun s hs => hqueues slots _ s (Or.inl (hslots s hs))⟩

end Stocked

end Leoman
