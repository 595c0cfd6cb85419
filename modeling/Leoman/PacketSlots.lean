import Leoman.HeapSafety
import Leoman.Syscall

namespace Leoman

open ByteMem

/-!
# The heap as the message queues use it

The only allocations the kernel makes are `sizeof(struct msg_packet_queue)` bytes.  With a
single size the fit test of `kalloc` cannot go wrong: the pool is an array of slots of 52 bytes, a
header and a payload each, and the first unused block is the least slot that is free.

* `packetSlot` — the slots; 314 of them and the last header fit into the pool;
* `Slotted` — the chain is the slots in order, and a slot that is not free is live;
* `kalloc_least_slot` — every allocation of a run gets the least free slot, for as long as no
  more than 314 are live.
-/

/-- The header of slot `k`. -/
def packetSlot (k : Nat) : BitVec 32 := heapPoolAddr + BitVec.ofNat 32 (52 * k)

/-- The payload of slot `k`. -/
def packetPayload (k : Nat) : BitVec 32 := packetSlot k + blockSize

/-- Slot `k` is allocated. -/
def HeapState.SlotLive (s : HeapState) (k : Nat) : Prop := packetPayload k ∈ s.live.map Prod.fst

/-- Slot `k` is the least one that is not allocated. -/
def HeapState.LeastFree (s : HeapState) (k : Nat) : Prop :=
  ¬ s.SlotLive k ∧ ∀ j < k, s.SlotLive j

/-- An event of a run in which every allocation is a packet. -/
def HeapOp.Packet : HeapOp → Prop
  | .kalloc bytes => bytes = msgPacketQueueSize
  | _ => True

/-- The first `n` slots. -/
def slotList (n : Nat) : List (BitVec 32) := (List.range n).map packetSlot

/-! ### The slots -/

theorem packetSlot_toNat {k : Nat} (hk : k ≤ 314) :
    (packetSlot k).toNat = 0xe4000000 + 52 * k := by
  have hpool : heapPoolAddr.toNat = 0xe4000000 := by decide
  rw [packetSlot, BitVec.toNat_add, hpool, BitVec.toNat_ofNat]
  omega

theorem packetSlot_inj {j k : Nat} (hj : j ≤ 314) (hk : k ≤ 314)
    (h : packetSlot j = packetSlot k) : j = k := by
  have hnat := congrArg BitVec.toNat h
  rw [packetSlot_toNat hj, packetSlot_toNat hk] at hnat
  omega

/-- The slots lie behind one another. -/
theorem packetSlot_succ (k : Nat) :
    packetSlot k + blockSize + msgPacketQueueSize = packetSlot (k + 1) := by
  apply BitVec.eq_of_toNat_eq
  simp only [packetSlot, blockSize, msgPacketQueueSize, BitVec.toNat_add, BitVec.toNat_ofNat]
  omega

theorem slotList_succ (n : Nat) : slotList n ++ [packetSlot n] = slotList (n + 1) := by
  rw [slotList, slotList, List.range_succ, List.map_append, List.map_singleton]

theorem packetSlot_mem {k n : Nat} (h : k < n) : packetSlot k ∈ slotList n :=
  List.mem_map.mpr ⟨k, List.mem_range.mpr h, rfl⟩

theorem mem_slotList {x : BitVec 32} {n : Nat} (h : x ∈ slotList n) :
    ∃ k < n, x = packetSlot k := by
  obtain ⟨k, hk, rfl⟩ := List.mem_map.mp h
  exact ⟨k, List.mem_range.mp hk, rfl⟩

/-! ### The invariant -/

/-- The pool is divided into `n` slots and the rest: each slot is of a packet's size, and is
    marked unused unless it is allocated. -/
structure Slotted (s : HeapState) (n : Nat) : Prop where
  inv : HeapInv s (slotList n) (packetSlot n)
  few : n ≤ 314
  size : ∀ k < n, blockDataSize s.heap.mem (packetSlot k) = msgPacketQueueSize
  used : ∀ k < n, blockType s.heap.mem (packetSlot k) = blockUnused ∨ s.SlotLive k

/-- `heap_init` leaves no slot and the whole pool as the rest. -/
theorem heapInit_slotted (m : Mem) : Slotted (HeapState.init m) 0 where
  inv := by
    have hzero : packetSlot 0 = heapPoolAddr := by decide
    rw [hzero]
    exact heapInit_inv m
  few := by decide
  size := by simp
  used := by simp

section Slotted

variable {s : HeapState} {n : Nat} (h : Slotted s n)

include h

/-- An allocated slot is one of the `n`, and is marked used. -/
theorem Slotted.live_used {k : Nat} (hk : k ≤ n) (hlive : s.SlotLive k) :
    k < n ∧ blockType s.heap.mem (packetSlot k) = blockUsed := by
  obtain ⟨e, he, hpay⟩ := List.mem_map.mp hlive
  obtain ⟨x, hx, hused, rfl⟩ := h.inv.live e he
  obtain ⟨j, hj, rfl⟩ := mem_slotList hx
  have hfew := h.few
  have hslot : packetSlot j = packetSlot k := by
    simpa [packetPayload] using hpay
  obtain rfl := packetSlot_inj (by omega) (by omega) hslot
  exact ⟨hj, hused⟩

/-- The test of `kalloc` passes a slot exactly when it is marked unused. -/
theorem Slotted.fits_iff {k : Nat} (hk : k ≤ n) :
    blockFits s.heap.mem msgPacketQueueSize (packetSlot k) = true ↔
      blockType s.heap.mem (packetSlot k) = blockUnused := by
  have hroom : msgPacketQueueSize ≤ blockDataSize s.heap.mem (packetSlot k) + blockSize := by
    obtain hlt | rfl := Nat.lt_or_eq_of_le hk
    · rw [h.size k hlt]
      decide
    · -- the rest of the pool
      have hfew := h.few
      have hsize := h.inv.tailSize
      have hend : poolEnd = 0xe4004000 := rfl
      have hpacket : msgPacketQueueSize.toNat = 40 := by decide
      have hheader : blockSize.toNat = 12 := by decide
      rw [packetSlot_toNat hfew] at hsize
      rw [BitVec.le_def, BitVec.toNat_add, hpacket, hheader, Nat.mod_eq_of_lt (by omega)]
      omega
  simp [blockFits, hroom]

/-- **The scan stops at the least free slot.** -/
theorem Slotted.find_least : ∃ k ≤ n, s.LeastFree k ∧
    blockType s.heap.mem (packetSlot k) = blockUnused ∧
    (slotList n ++ [packetSlot n]).find? (blockFits s.heap.mem msgPacketQueueSize)
      = some (packetSlot k) := by
  have htail := (h.fits_iff (Nat.le_refl n)).mpr h.inv.tailType
  rw [slotList_succ, slotList, List.find?_map]
  cases hfind : (List.range (n + 1)).find?
      (blockFits s.heap.mem msgPacketQueueSize ∘ packetSlot) with
  | none =>
    have hnone := List.find?_eq_none.mp hfind n (by simp)
    exact absurd htail hnone
  | some k =>
    obtain ⟨hfits, hmem, hbefore⟩ := List.find?_range_eq_some.mp hfind
    have hk : k ≤ n := by
      rw [List.mem_range] at hmem
      omega
    have hunused := (h.fits_iff hk).mp hfits
    refine ⟨k, hk, ⟨?_, ?_⟩, hunused, rfl⟩
    · intro hlive
      have hused := (h.live_used hk hlive).2
      rw [hunused] at hused
      exact absurd hused (by decide)
    · -- an earlier slot is marked used, hence allocated
      intro j hj
      have hbad := hbefore j hj
      refine (h.used j (by omega)).resolve_left fun hj' => ?_
      rw [Function.comp_apply, (h.fits_iff (by omega)).mpr hj'] at hbad
      exact absurd hbad (by decide)

/-- When the slots below `k` are allocated there are at least `k` allocations. -/
theorem Slotted.le_length {k : Nat} (hk : k ≤ n) (hall : ∀ j < k, s.SlotLive j) :
    k ≤ s.live.length := by
  have hfew := h.few
  have hnodup : ((List.range k).map packetPayload).Nodup := by
    refine List.Nodup.map_on ?_ List.nodup_range
    intro i hi j hj heq
    rw [List.mem_range] at hi hj
    exact packetSlot_inj (by omega) (by omega) (by simpa [packetPayload] using heq)
  have hsub : (List.range k).map packetPayload ⊆ s.live.map Prod.fst := by
    intro a ha
    obtain ⟨j, hj, rfl⟩ := List.mem_map.mp ha
    exact hall j (List.mem_range.mp hj)
  have hle := (hnodup.subperm hsub).length_le
  simpa using hle

/-- Taking a slot that was given back. -/
theorem Slotted.take_inner {k : Nat} (hk : k < n)
    (hunused : blockType s.heap.mem (packetSlot k) = blockUnused) :
    Slotted (s.taken (packetSlot k) msgPacketQueueSize
      (fillBlock s.heap.mem (packetSlot k) msgPacketQueueSize)) n := by
  have hmem := packetSlot_mem hk
  -- the slot ends before its successor
  have hroom := (h.inv.succ hmem).2.1
  unfold EndsBefore at hroom
  rw [h.size k hk] at hroom
  have hother : ∀ j < n, j ≠ k →
      HdrEq (fillBlock s.heap.mem (packetSlot k) msgPacketQueueSize) s.heap.mem (packetSlot j) := by
    intro j hj hne
    have hfew := h.few
    refine h.inv.hdrEq_of_frame (List.mem_append_left _ hmem)
      (List.mem_append_left _ (packetSlot_mem hj)) ?_ fun a ha _ => fillBlock_frame _ _ _ ha
    exact fun heq => hne (packetSlot_inj (by omega) (by omega) heq.symm)
  refine ⟨h.inv.fill_inner hmem hunused hroom, h.few, ?_, ?_⟩
  · intro j hj
    by_cases hjk : j = k
    · subst hjk
      exact fillBlock_dataSize _ _ _
    · exact (hother j hj hjk).dataSize.trans (h.size j hj)
  · intro j hj
    by_cases hjk : j = k
    · subst hjk
      exact Or.inr List.mem_cons_self
    · obtain hu | hl := h.used j hj
      · exact Or.inl ((hother j hj hjk).type.trans hu)
      · exact Or.inr (List.mem_cons_of_mem _ hl)

/-- Taking a slot off the rest of the pool. -/
theorem Slotted.take_last (hn : n < 314) :
    Slotted (s.taken (packetSlot n) msgPacketQueueSize
      (fillBlock (splitTail s.heap.mem (packetSlot n) msgPacketQueueSize) (packetSlot n)
        msgPacketQueueSize)) (n + 1) := by
  have hsize : msgPacketQueueSize.toNat = 40 := by decide
  have hend : poolEnd = 0xe4004000 := rfl
  have hslot := packetSlot_toNat (k := n) (by omega)
  have hroom : (packetSlot n).toNat + 12 + msgPacketQueueSize.toNat + 12 ≤ poolEnd := by omega
  have hinv := h.inv.fill_last hroom
  rw [slotList_succ, packetSlot_succ] at hinv
  have hother : ∀ j < n, HdrEq (fillBlock (splitTail s.heap.mem (packetSlot n) msgPacketQueueSize)
      (packetSlot n) msgPacketQueueSize) s.heap.mem (packetSlot j) :=
    fun j hj => h.inv.split_hdrEq (by omega) (packetSlot_mem hj)
  refine ⟨hinv, by omega, ?_, ?_⟩
  · intro j hj
    obtain hlt | rfl := Nat.lt_succ_iff_lt_or_eq.mp hj
    · exact (hother j hlt).dataSize.trans (h.size j hlt)
    · exact fillBlock_dataSize _ _ _
  · intro j hj
    obtain hlt | rfl := Nat.lt_succ_iff_lt_or_eq.mp hj
    · obtain hu | hl := h.used j hlt
      · exact Or.inl ((hother j hlt).type.trans hu)
      · exact Or.inr (List.mem_cons_of_mem _ hl)
    · exact Or.inr List.mem_cons_self

/-- **The allocation.**  `kalloc` takes the least free slot, which is marked unused. -/
theorem Slotted.kalloc_takes : ∃ k ≤ n, s.LeastFree k ∧
    blockType s.heap.mem (packetSlot k) = blockUnused ∧
    kalloc s.heap msgPacketQueueSize = some (packetPayload k,
      { s.heap with mem := takeBlock s.heap.mem (packetSlot k) msgPacketQueueSize }) ∧
    s.step (.kalloc msgPacketQueueSize) = some (s.taken (packetSlot k) msgPacketQueueSize
      (takeBlock s.heap.mem (packetSlot k) msgPacketQueueSize)) := by
  obtain ⟨k, hk, hleast, hunused, hfind⟩ := h.find_least
  have hpacket : msgPacketQueueSize ≠ 0#32 := by decide
  have hmem : packetSlot k ∈ slotList n ++ [packetSlot n] := List.mem_of_find?_eq_some hfind
  have hpay : packetSlot k + blockSize ≠ 0#32 := h.inv.payload_ne_zero hmem
  have hcall := h.inv.kalloc_found hpacket hfind
  exact ⟨k, hk, hleast, hunused, hcall, by simp [HeapState.step, hcall, hpay, HeapState.taken]⟩

/-- **Step lemma for `kalloc`.**  With fewer than 314 allocations before it, the pool is divided
    into slots after it. -/
theorem Slotted.kalloc {s' : HeapState} (hfew : s'.live.length ≤ 314)
    (hs : s.step (.kalloc msgPacketQueueSize) = some s') : ∃ n', Slotted s' n' := by
  obtain ⟨k, hk, hleast, hunused, -, hstep⟩ := h.kalloc_takes
  rw [hstep, Option.some.injEq] at hs
  subst hs
  obtain hlt | rfl := Nat.lt_or_eq_of_le hk
  · refine ⟨n, ?_⟩
    rw [takeBlock_inner (h.inv.ne_zero (h.inv.succ (packetSlot_mem hlt)).1)]
    exact h.take_inner hlt hunused
  · -- every slot is allocated, and there is one allocation more after the call
    have hn := h.le_length hk hleast.2
    have hmore : s.live.length + 1 ≤ 314 := hfew
    refine ⟨k + 1, ?_⟩
    rw [takeBlock_last h.inv.chain.next_last]
    exact h.take_last (by omega)

/-- **Step lemma for `kfree`.** -/
theorem Slotted.kfree {addr : BitVec 32} {s' : HeapState}
    (hs : s.step (.kfree addr) = some s') : Slotted s' n := by
  have hinv := h.inv.step_kfree hs
  obtain ⟨x, hx, rfl, rfl⟩ := h.inv.kfree_eq hs
  obtain ⟨k, hk, rfl⟩ := mem_slotList hx
  have hmem := List.mem_append_left [packetSlot n] hx
  have hfew := h.few
  refine ⟨hinv, h.few, ?_, ?_⟩
  · intro j hj
    exact (h.inv.type_dataSize hmem (List.mem_append_left _ (packetSlot_mem hj))).trans
      (h.size j hj)
  · intro j hj
    by_cases hjk : j = k
    · subst hjk
      refine Or.inl ?_
      simp [blockType, write8]
    · have hne : packetSlot j ≠ packetSlot k :=
        fun heq => hjk (packetSlot_inj (by omega) (by omega) heq)
      have hhdr := h.inv.type_hdrEq (v := blockUnused) hmem
        (List.mem_append_left _ (packetSlot_mem hj)) hne
      obtain hu | hl := h.used j hj
      · exact Or.inl (hhdr.type.trans hu)
      · -- another allocation stays live
        obtain ⟨e, he, hpay⟩ := List.mem_map.mp hl
        refine Or.inr (List.mem_map.mpr ⟨e, ?_, hpay⟩)
        refine (List.mem_eraseP_of_neg ?_).mpr he
        rw [decide_eq_true_eq, hpay]
        simpa [packetPayload] using hne

/-- **Step lemma for a store.** -/
theorem Slotted.store {addr : BitVec 32} {v : BitVec 8} {s' : HeapState}
    (hs : s.step (.store addr v) = some s') : Slotted s' n := by
  have hinv := h.inv.step_store hs
  obtain ⟨rfl, hall⟩ := h.inv.store_eq hs
  have hhdr : ∀ j < n, HdrEq (write8 s.heap.mem addr v) s.heap.mem (packetSlot j) :=
    fun j hj => hall _ (List.mem_append_left _ (packetSlot_mem hj))
  refine ⟨hinv, h.few, fun j hj => (hhdr j hj).dataSize.trans (h.size j hj), fun j hj => ?_⟩
  exact (h.used j hj).imp (hhdr j hj).type.trans id

end Slotted

/-! ### Runs -/

/-- **Run lemma.**  A run of packets with at most 314 live at a time keeps the slots. -/
theorem run_slotted (m : Mem) {ops : List HeapOp} {s : HeapState} (hops : ∀ op ∈ ops, op.Packet)
    (hfew : ∀ pre, pre <+: ops → ∀ s, (HeapState.init m).run pre = some s → s.live.length ≤ 314)
    (hrun : (HeapState.init m).run ops = some s) : ∃ n, Slotted s n := by
  induction ops using List.reverseRecOn generalizing s with
  | nil =>
    simp only [HeapState.run, Option.some.injEq] at hrun
    subst hrun
    exact ⟨0, heapInit_slotted m⟩
  | append_singleton ops op ih =>
    have hlast := hfew _ (List.prefix_refl _) s hrun
    rw [run_snoc, Option.bind_eq_some_iff] at hrun
    obtain ⟨s₀, h₀, hstep⟩ := hrun
    obtain ⟨n, h⟩ := ih (fun o ho => hops o (List.mem_append_left _ ho))
      (fun pre hp => hfew pre (hp.trans (List.prefix_append _ _))) h₀
    cases op with
    | kalloc bytes =>
      obtain rfl : bytes = msgPacketQueueSize := hops (.kalloc bytes) (by simp)
      exact h.kalloc hlast hstep
    | kfree addr => exact ⟨n, h.kfree hstep⟩
    | store addr v => exact ⟨n, h.store hstep⟩

/-- **The heap of the message queues.**  In every run of packet allocations, frees of live pointers
    and stores of the owners, with at most 314 allocations live at any time, every state is safe
    and every `kalloc` returns the payload of the least slot that is not live. -/
theorem kalloc_least_slot (m : Mem) (ops : List HeapOp) (hops : ∀ op ∈ ops, op.Packet)
    (hfew : ∀ pre, pre <+: ops →
      ∀ s, (HeapState.init m).run pre = some s → s.live.length ≤ 314) :
    ∀ pre, pre <+: ops → ∀ s, (HeapState.init m).run pre = some s →
      s.Safe ∧ ∀ bytes, pre ++ [.kalloc bytes] <+: ops →
        ∃ k < 314, s.LeastFree k ∧ ∃ heap, kalloc s.heap bytes = some (packetPayload k, heap) := by
  intro pre hpre s hrun
  obtain ⟨n, h⟩ := run_slotted m (fun op ho => hops op (hpre.subset ho))
    (fun p hp => hfew p (hp.trans hpre)) hrun
  refine ⟨h.inv.safe, ?_⟩
  intro bytes hnext
  obtain rfl : bytes = msgPacketQueueSize := hops (.kalloc bytes) (hnext.subset (by simp))
  obtain ⟨k, hk, hleast, -, hcall, hstep⟩ := h.kalloc_takes
  refine ⟨k, ?_, hleast, _, hcall⟩
  -- the allocation is live after the call
  have hafter := hfew _ hnext _ (by rw [run_snoc, hrun, Option.bind_some, hstep])
  have hmore : s.live.length + 1 ≤ 314 := hafter
  have hle := h.le_length hk hleast.2
  omega

/-- An event adds at most one allocation. -/
theorem run_live_length {ops : List HeapOp} {s s' : HeapState} (hrun : s.run ops = some s') :
    s'.live.length ≤ s.live.length + ops.length := by
  induction ops generalizing s with
  | nil =>
    simp only [HeapState.run, Option.some.injEq] at hrun
    rw [hrun, List.length_nil, Nat.add_zero]
  | cons op ops ih =>
    obtain ⟨s₁, hstep, hrest⟩ := Option.bind_eq_some_iff.mp hrun
    have hone : s₁.live.length ≤ s.live.length + 1 := by
      cases op with
      | kalloc bytes =>
        obtain ⟨r, -, rfl⟩ := Option.map_eq_some_iff.mp hstep
        by_cases hnull : r.1 = 0#32 <;> simp [hnull]
      | kfree addr =>
        simp only [HeapState.step] at hstep
        split at hstep
        · obtain rfl := Option.some.inj hstep
          exact (List.length_eraseP_le).trans (Nat.le_succ _)
        · exact absurd hstep (by simp)
      | store addr v =>
        simp only [HeapState.step] at hstep
        split at hstep
        · obtain rfl := Option.some.inj hstep
          exact Nat.le_succ _
        · exact absurd hstep (by simp)
    have hall := ih hrest
    rw [List.length_cons]
    omega

/-- Two packets, the first given back, and a third one. -/
def threePackets : List HeapOp :=
  [.kalloc msgPacketQueueSize, .kalloc msgPacketQueueSize, .kfree (packetPayload 0),
    .kalloc msgPacketQueueSize]

theorem threePackets_isSome :
    ((HeapState.init fun _ => 0#8).run (threePackets.take 3)).isSome = true := by
  decide +kernel

/-- The third packet gets the least slot that is free. -/
theorem kalloc_least_slot_three :
    ∃ s, (HeapState.init fun _ => 0#8).run (threePackets.take 3) = some s ∧ s.Safe ∧
      ∃ k < 314, s.LeastFree k ∧ ∃ heap,
        kalloc s.heap msgPacketQueueSize = some (packetPayload k, heap) := by
  refine ⟨_, (Option.some_get threePackets_isSome).symm, ?_⟩
  obtain ⟨hsafe, hnext⟩ := kalloc_least_slot (fun _ => 0#8) threePackets
    (by simp [threePackets, HeapOp.Packet])
    (fun pre hpre s hs => (run_live_length hs).trans
      ((Nat.add_le_add_left hpre.length_le _).trans (by simp [threePackets, HeapState.init])))
    (threePackets.take 3) (List.take_prefix _ _) _ (Option.some_get threePackets_isSome).symm
  exact ⟨hsafe, hnext msgPacketQueueSize (by simp [threePackets])⟩

end Leoman
