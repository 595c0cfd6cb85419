import Leoman.Heap
import Mathlib.Data.List.Range
import Mathlib.Data.List.Perm.Subperm

namespace Leoman

open ByteMem

/-!
# Heap safety

Runs of `kalloc`, `kfree` of live pointers and stores of the owners into their payloads, from
`heap_init` on.  `HeapState` carries the live allocations beside the heap, `HeapState.Safe` is
the property wanted of every state of a run, and `HeapInv` the stronger invariant that carries
the induction: the chain is in address order, each block ends before the next one begins, and
the last one is the unused rest of the pool.
-/

/-- The first address behind the pool. -/
def poolEnd : Nat := 0xe4000000 + 16384

/-- A heap and its live allocations, each a pointer with the number of bytes asked for. -/
structure HeapState where
  heap : Heap
  live : List (BitVec 32 × BitVec 32)

/-- The state `heap_init` leaves, over any contents of the pool's frames. -/
def HeapState.init (m : Mem) : HeapState := ⟨heapInit m, []⟩

/-- One event of a run. -/
inductive HeapOp where
  | kalloc (bytes : BitVec 32)
  | kfree (addr : BitVec 32)
  | store (addr : BitVec 32) (v : BitVec 8)
deriving DecidableEq, Repr

/-- Run one event.  Only live pointers are freed and only live payloads are written; `none`
    also stands for a `kalloc` that does not return. -/
def HeapState.step (s : HeapState) : HeapOp → Option HeapState
  | .kalloc bytes =>
    (kalloc s.heap bytes).map fun r =>
      ⟨r.2, if r.1 = 0#32 then s.live else (r.1, bytes) :: s.live⟩
  | .kfree addr =>
    if addr ∈ s.live.map Prod.fst then
      some ⟨kfree s.heap addr, s.live.eraseP (fun e => e.1 = addr)⟩
    else none
  | .store addr v =>
    if ∃ e ∈ s.live, InRange addr e.1 e.2.toNat then
      some { s with heap := { s.heap with mem := write8 s.heap.mem addr v } }
    else none

/-- The state after a `kalloc` that took block `x` and left the memory `m`. -/
def HeapState.taken (s : HeapState) (x bytes : BitVec 32) (m : Mem) : HeapState :=
  ⟨{ s.heap with mem := m }, (x + blockSize, bytes) :: s.live⟩

/-- Run a sequence of events. -/
def HeapState.run (s : HeapState) : List HeapOp → Option HeapState
  | [] => some s
  | op :: ops => (s.step op).bind fun s' => s'.run ops

/-- The `n` bytes at `a` lie inside the pool. -/
def InPool (a : BitVec 32) (n : Nat) : Prop :=
  heapPoolAddr.toNat ≤ a.toNat ∧ a.toNat + n ≤ poolEnd

/-- **The property wanted.**  Every header of the chain and every live payload lies inside the
    pool, live payloads share no byte with a header, nor with one another. -/
def HeapState.Safe (s : HeapState) : Prop :=
  ∃ l, Chain s.heap.mem heapPoolAddr l ∧
    (∀ b ∈ l, InPool b 12) ∧
    (∀ e ∈ s.live, InPool e.1 e.2.toNat) ∧
    (∀ e ∈ s.live, ∀ b ∈ l, Apart e.1 e.2.toNat b 12) ∧
    s.live.Pairwise (fun e f => Apart e.1 e.2.toNat f.1 f.2.toNat)

/-- The block the scan of `kalloc` stops at has room: an inner block up to its successor, the
    last one for the payload and the header written behind it. -/
def RoomFor (m : Mem) (bytes : BitVec 32) : Prop :=
  bytes = 0#32 ∨ ∀ b, findBlock m bytes scanSteps heapPoolAddr = some b → b ≠ 0#32 →
    if blockNext m b = 0#32 then b.toNat + 12 + bytes.toNat + 12 ≤ poolEnd
    else b.toNat + 12 + bytes.toNat ≤ (blockNext m b).toNat

/-- The condition on one event of a run: a `kalloc` has room. -/
def HeapState.Room (s : HeapState) : HeapOp → Prop
  | .kalloc bytes => RoomFor s.heap.mem bytes
  | _ => True

/-! ### The invariant -/

/-- A block's payload ends before `y` begins. -/
def EndsBefore (m : Mem) (x y : BitVec 32) : Prop :=
  x.toNat + 12 + (blockDataSize m x).toNat ≤ y.toNat

/-- The inner blocks `l` and the last block `t` of a sound heap. -/
structure HeapInv (s : HeapState) (l : List (BitVec 32)) (t : BitVec 32) : Prop where
  init : s.heap.initialized = true
  chain : Chain s.heap.mem heapPoolAddr (l ++ [t])
  spaced : (l ++ [t]).Pairwise (EndsBefore s.heap.mem)
  lower : ∀ x ∈ l ++ [t], heapPoolAddr.toNat ≤ x.toNat
  tailType : blockType s.heap.mem t = blockUnused
  tailSize : t.toNat + 12 + (blockDataSize s.heap.mem t).toNat = poolEnd + 4
  tailIn : t.toNat + 12 ≤ poolEnd
  live : ∀ e ∈ s.live, ∃ x ∈ l, blockType s.heap.mem x = blockUsed ∧
    e = (x + blockSize, blockDataSize s.heap.mem x)
  distinct : s.live.Pairwise (fun e f => e.1 ≠ f.1)

section Inv

variable {s : HeapState} {l : List (BitVec 32)} {t : BitVec 32} (h : HeapInv s l t)

include h

/-- An inner block ends before the last one. -/
theorem HeapInv.before_last {x : BitVec 32} (hx : x ∈ l) : EndsBefore s.heap.mem x t :=
  (List.pairwise_append.mp h.spaced).2.2 x hx t List.mem_cons_self

/-- Every header lies inside the pool. -/
theorem HeapInv.inPool {x : BitVec 32} (hx : x ∈ l ++ [t]) : InPool x 12 := by
  refine ⟨h.lower x hx, ?_⟩
  have ht := h.tailIn
  rcases List.mem_append.mp hx with hx | hx
  · have hb := h.before_last hx
    unfold EndsBefore at hb
    omega
  · rw [List.mem_singleton] at hx
    subst hx
    exact ht

theorem HeapInv.ne_zero {x : BitVec 32} (hx : x ∈ l ++ [t]) : x ≠ 0#32 := by
  have hl := h.lower x hx
  rintro rfl
  exact absurd hl (by decide)

/-- Two different blocks: one ends before the other begins. -/
theorem HeapInv.ordered {x y : BitVec 32} (hx : x ∈ l ++ [t]) (hy : y ∈ l ++ [t]) (hne : x ≠ y) :
    EndsBefore s.heap.mem x y ∨ EndsBefore s.heap.mem y x := by
  have hsym : Std.Symm
      (fun x y => EndsBefore s.heap.mem x y ∨ EndsBefore s.heap.mem y x) := ⟨fun _ _ => Or.symm⟩
  exact (h.spaced.imp Or.inl : (l ++ [t]).Pairwise
    (fun x y => EndsBefore s.heap.mem x y ∨ EndsBefore s.heap.mem y x)).forall hx hy hne

/-- Two different headers share no byte. -/
theorem HeapInv.apart {x y : BitVec 32} (hx : x ∈ l ++ [t]) (hy : y ∈ l ++ [t]) (hne : x ≠ y) :
    Apart x 12 y 12 := by
  unfold Apart
  rcases h.ordered hx hy hne with ho | ho <;> unfold EndsBefore at ho <;> omega

/-- A store outside the header of `y` leaves it alone: the form in which every step uses the
    spacing of the chain. -/
theorem HeapInv.hdrEq_of_frame {m' : Mem} {x y : BitVec 32} (hx : x ∈ l ++ [t])
    (hy : y ∈ l ++ [t]) (hne : x ≠ y)
    (hframe : ∀ a, ¬ InRange a x 12 → a.toNat < t.toNat + 12 → m' a = s.heap.mem a) :
    HdrEq m' s.heap.mem y := by
  intro a ha
  have hpx := (h.inPool hx).2
  have hpy := (h.inPool hy).2
  have hpe : poolEnd ≤ 2 ^ 32 := by decide
  refine hframe a (not_inRange_of_apart (by omega) (by omega) (h.apart hx hy hne) ha) ?_
  rw [inRange_iff (by omega)] at ha
  rcases List.mem_append.mp hy with hy | hy
  · have hb := h.before_last hy
    unfold EndsBefore at hb
    omega
  · rw [List.mem_singleton] at hy
    subst hy
    omega

/-- No address occurs twice in the chain. -/
theorem HeapInv.nodup : (l ++ [t]).Nodup := by
  refine h.spaced.imp fun {x y} hxy => ?_
  rintro rfl
  unfold EndsBefore at hxy
  omega

/-- The scan has enough steps for the chain. -/
theorem HeapInv.length_lt : (l ++ [t]).length < scanSteps := by
  have hnd : ((l ++ [t]).map BitVec.toNat).Nodup :=
    h.nodup.map fun _ _ hxy => BitVec.eq_of_toNat_eq hxy
  have hsub : (l ++ [t]).map BitVec.toNat ⊆ List.range (2 ^ 32) := by
    intro a ha
    rw [List.mem_map] at ha
    obtain ⟨x, _, rfl⟩ := ha
    exact List.mem_range.mpr x.isLt
  have hle := (hnd.subperm hsub).length_le
  rw [List.length_map, List.length_range] at hle
  unfold scanSteps
  omega

/-- What the scan of `kalloc` returns. -/
theorem HeapInv.findBlock_eq (bytes : BitVec 32) :
    findBlock s.heap.mem bytes scanSteps heapPoolAddr
      = some (((l ++ [t]).find? (blockFits s.heap.mem bytes)).getD 0#32) :=
  findBlock_chain h.chain h.length_lt

/-- The successor of an inner block: it is behind the block, and no block lies between. -/
theorem HeapInv.succ {x : BitVec 32} (hx : x ∈ l) :
    blockNext s.heap.mem x ∈ l ++ [t] ∧ EndsBefore s.heap.mem x (blockNext s.heap.mem x) ∧
      ∀ b ∈ l ++ [t], x.toNat < b.toNat → (blockNext s.heap.mem x).toNat ≤ b.toNat := by
  obtain ⟨l₁, r, rfl⟩ := List.append_of_mem hx
  obtain ⟨y, l₂, hr⟩ : ∃ y l₂, r ++ [t] = y :: l₂ := by
    cases r with
    | nil => exact ⟨t, [], rfl⟩
    | cons y r => exact ⟨y, r ++ [t], rfl⟩
  have hl : l₁ ++ x :: r ++ [t] = l₁ ++ x :: y :: l₂ := by
    rw [List.append_assoc, List.cons_append, hr]
  have hc := h.chain
  have hs := h.spaced
  rw [hl] at hc hs ⊢
  rw [hc.next_inner]
  rw [List.pairwise_append, List.pairwise_cons, List.pairwise_cons] at hs
  obtain ⟨-, ⟨hxy, hy, -⟩, h1⟩ := hs
  refine ⟨by simp, hxy y List.mem_cons_self, ?_⟩
  intro b hb hlt
  rw [List.mem_append, List.mem_cons, List.mem_cons] at hb
  rcases hb with hb | rfl | rfl | hb
  · have := h1 b hb x List.mem_cons_self
    unfold EndsBefore at this
    omega
  · omega
  · exact le_rfl
  · have := hy b hb
    unfold EndsBefore at this
    omega

/-- The invariant gives the property. -/
theorem HeapInv.safe : s.Safe := by
  have hpe : poolEnd ≤ 2 ^ 32 := by decide
  -- where a live payload lies, read off the block it belongs to
  have hpay : ∀ x ∈ l, (x + blockSize).toNat = x.toNat + 12 ∧
      x.toNat + 12 + (blockDataSize s.heap.mem x).toNat ≤ t.toNat := by
    intro x hx
    have hb := h.before_last hx
    have ht := h.tailIn
    unfold EndsBefore at hb
    refine ⟨?_, hb⟩
    simp only [blockSize, BitVec.toNat_add, BitVec.toNat_ofNat]
    omega
  refine ⟨l ++ [t], h.chain, fun b hb => h.inPool hb, ?_, ?_, ?_⟩
  · intro e he
    obtain ⟨x, hx, -, rfl⟩ := h.live e he
    obtain ⟨hp, hb⟩ := hpay x hx
    have hlow := h.lower x (List.mem_append_left _ hx)
    have ht := h.tailIn
    exact ⟨by simp only [hp]; omega, by simp only [hp]; omega⟩
  · intro e he b hb
    obtain ⟨x, hx, -, rfl⟩ := h.live e he
    obtain ⟨hp, -⟩ := hpay x hx
    unfold Apart
    simp only [hp]
    by_cases hne : x = b
    · subst hne
      omega
    · rcases h.ordered (List.mem_append_left _ hx) hb hne with ho | ho <;>
        unfold EndsBefore at ho <;> omega
  · refine h.distinct.imp_of_mem ?_
    intro e f he hf hne
    obtain ⟨x, hx, -, rfl⟩ := h.live e he
    obtain ⟨y, hy, -, rfl⟩ := h.live f hf
    obtain ⟨hpx, -⟩ := hpay x hx
    obtain ⟨hpy, -⟩ := hpay y hy
    unfold Apart
    simp only [hpx, hpy]
    have hxy : x ≠ y := by
      rintro rfl
      exact hne rfl
    rcases h.ordered (List.mem_append_left _ hx) (List.mem_append_left _ hy) hxy with ho | ho <;>
      unfold EndsBefore at ho <;> omega

end Inv

/-- `heap_init` establishes the invariant: one unused block, the whole pool. -/
theorem heapInit_inv (m : Mem) : HeapInv (HeapState.init m) [] heapPoolAddr where
  init := rfl
  chain := ⟨rfl, by decide, read32_write32_self _ _ _⟩
  spaced := by simp
  lower := by simp
  tailType := by rfl
  tailSize := by
    have hsz : blockDataSize (HeapState.init m).heap.mem heapPoolAddr
        = heapSize - (blockSize - 4#32) := by
      simp only [blockDataSize, HeapState.init, heapInit]
      rw [read32_write32_of_disjoint fun x hx =>
        fields_disjoint (by decide) (by decide) (by decide) hx, read32_write32_self]
    rw [hsz]
    decide
  tailIn := by decide
  live := by simp [HeapState.init]
  distinct := by simp [HeapState.init]

/-! ### One event -/

/-- Freeing a pointer removes its only live entry. -/
theorem eraseP_fst_ne {live : List (BitVec 32 × BitVec 32)} {addr : BitVec 32}
    (hd : live.Pairwise (fun e f => e.1 ≠ f.1)) {e : BitVec 32 × BitVec 32}
    (he : e ∈ live.eraseP (fun e => e.1 = addr)) : e.1 ≠ addr := by
  induction live with
  | nil => simp at he
  | cons f fs ih =>
    rw [List.pairwise_cons] at hd
    by_cases hf : f.1 = addr
    · rw [List.eraseP_cons_of_pos (by simpa using hf)] at he
      rw [← hf]
      exact (hd.1 e he).symm
    · rw [List.eraseP_cons_of_neg (by simpa using hf), List.mem_cons] at he
      rcases he with rfl | he
      · exact hf
      · exact ih hd.2 he

/-- The new header is as `splitTail` left it. -/
theorem split_hdrEq_new {m : Mem} {t bytes : BitVec 32}
    (hnw : t.toNat + 12 + bytes.toNat + 12 ≤ 2 ^ 32) :
    HdrEq (fillBlock (splitTail m t bytes) t bytes) (splitTail m t bytes)
      (t + blockSize + bytes) :=
  fun _ ha => fillBlock_frame _ _ _ (newBlock_disjoint hnw ha)

section Step

variable {s : HeapState} {l : List (BitVec 32)} {t : BitVec 32} (h : HeapInv s l t)

include h

/-- The last block is not an inner one. -/
theorem HeapInv.ne_last {x : BitVec 32} (hx : x ∈ l) : t ≠ x := by
  have hb := h.before_last hx
  rintro rfl
  unfold EndsBefore at hb
  omega

/-- Marking an inner block as used, with a size that ends before its successor. -/
theorem HeapInv.fill_inner {x bytes : BitVec 32} (hx : x ∈ l)
    (hu : blockType s.heap.mem x = blockUnused)
    (hroom : x.toNat + 12 + bytes.toNat ≤ (blockNext s.heap.mem x).toNat) :
    HeapInv (s.taken x bytes (fillBlock s.heap.mem x bytes)) l t := by
  have hx' : x ∈ l ++ [t] := List.mem_append_left _ hx
  have hother : ∀ y ∈ l ++ [t], y ≠ x → HdrEq (fillBlock s.heap.mem x bytes) s.heap.mem y :=
    fun y hy hne => h.hdrEq_of_frame hx' hy (Ne.symm hne) fun a ha _ => fillBlock_frame _ _ _ ha
  have ht := hother t (by simp) (h.ne_last hx)
  unfold HeapState.taken
  refine ⟨h.init, ?_, ?_, h.lower, ?_, ?_, h.tailIn, ?_, ?_⟩
  · refine h.chain.transport fun y hy => ?_
    by_cases hyx : y = x
    · rw [hyx]; exact fillBlock_next _ _ _
    · exact (hother y hy hyx).next
  · refine h.spaced.imp_of_mem ?_
    intro y z hy hz hyz
    unfold EndsBefore at hyz ⊢
    by_cases hyx : y = x
    · -- the only size that changed; `z` is not before the successor
      subst hyx
      have hle := (h.succ hx).2.2 z hz (by omega)
      rw [fillBlock_dataSize]
      omega
    · rw [(hother y hy hyx).dataSize]
      exact hyz
  · rw [ht.type]
    exact h.tailType
  · rw [ht.dataSize]
    exact h.tailSize
  · intro e he
    rcases List.mem_cons.mp he with rfl | he
    · exact ⟨x, hx, fillBlock_type _ _ _, by rw [fillBlock_dataSize]⟩
    · obtain ⟨y, hy, hyu, rfl⟩ := h.live e he
      have hyx : y ≠ x := by
        rintro rfl
        rw [hyu] at hu
        exact absurd hu (by decide)
      have hq := hother y (List.mem_append_left _ hy) hyx
      exact ⟨y, hy, by rw [hq.type]; exact hyu, by rw [hq.dataSize]⟩
  · refine List.pairwise_cons.mpr ⟨?_, h.distinct⟩
    intro e he heq
    obtain ⟨y, hy, hyu, rfl⟩ := h.live e he
    have hxy : x = y := by simpa using heq
    rw [← hxy, hu] at hyu
    exact absurd hyu (by decide)

/-- Splitting the last block leaves the inner headers alone: the stores are confined to the
    last header and to addresses behind it. -/
theorem HeapInv.split_hdrEq {bytes : BitVec 32}
    (hnw : t.toNat + 12 + bytes.toNat + 12 ≤ 2 ^ 32) {y : BitVec 32} (hy : y ∈ l) :
    HdrEq (fillBlock (splitTail s.heap.mem t bytes) t bytes) s.heap.mem y := by
  have hnb := newBlock_toNat hnw
  refine h.hdrEq_of_frame (x := t) (by simp) (List.mem_append_left _ hy) (h.ne_last hy)
    fun a ha hlt => ?_
  rw [fillBlock_frame _ _ _ ha, splitTail_frame hnw ha]
  rw [inRange_iff (by omega)]
  omega

/-- The chain after the split. -/
theorem HeapInv.split_chain {bytes : BitVec 32}
    (hnw : t.toNat + 12 + bytes.toNat + 12 ≤ 2 ^ 32) :
    Chain (fillBlock (splitTail s.heap.mem t bytes) t bytes) heapPoolAddr
      (l ++ [t] ++ [t + blockSize + bytes]) := by
  refine h.chain.snoc (fun y hy => (h.split_hdrEq hnw hy).next) ?_ ?_ ?_
  · rw [fillBlock_next, splitTail_next_self]
  · intro hz
    have hnb := newBlock_toNat hnw
    rw [hz, BitVec.toNat_ofNat] at hnb
    omega
  · rw [(split_hdrEq_new hnw).next, splitTail_next_new hnw]
    exact h.chain.next_last

/-- Splitting the last block: it becomes an inner one, and the new header is the last. -/
theorem HeapInv.fill_last {bytes : BitVec 32}
    (hroom : t.toNat + 12 + bytes.toNat + 12 ≤ poolEnd) :
    HeapInv (s.taken t bytes (fillBlock (splitTail s.heap.mem t bytes) t bytes))
      (l ++ [t]) (t + blockSize + bytes) := by
  have hpe : poolEnd = 0xe4004000 := rfl
  have hnw : t.toNat + 12 + bytes.toNat + 12 ≤ 2 ^ 32 := by omega
  have hnb := newBlock_toNat hnw
  have hother : ∀ y ∈ l, HdrEq (fillBlock (splitTail s.heap.mem t bytes) t bytes) s.heap.mem y :=
    fun y hy => h.split_hdrEq hnw hy
  have hlow := h.lower t (by simp)
  have hsize := h.tailSize
  unfold HeapState.taken
  refine ⟨h.init, h.split_chain hnw, ?_, ?_, ?_, ?_, by omega, ?_, ?_⟩
  · refine List.pairwise_append.mpr ⟨?_, by simp, ?_⟩
    · -- among the old blocks only the size of `t` changed, and nothing is behind `t`
      have hs := List.pairwise_append.mp h.spaced
      refine List.pairwise_append.mpr ⟨hs.1.imp_of_mem fun {y z} hy _ hyz => ?_, by simp, ?_⟩
      · unfold EndsBefore at hyz ⊢
        rw [(hother y hy).dataSize]
        exact hyz
      · intro y hy z hz
        have hyz := hs.2.2 y hy z hz
        unfold EndsBefore at hyz ⊢
        rw [(hother y hy).dataSize]
        exact hyz
    · intro y hy z hz
      rw [List.mem_singleton] at hz
      subst hz
      unfold EndsBefore
      rcases List.mem_append.mp hy with hy | hy
      · have hb := h.before_last hy
        unfold EndsBefore at hb
        rw [(hother y hy).dataSize]
        omega
      · rw [List.mem_singleton] at hy
        subst hy
        rw [fillBlock_dataSize]
        omega
  · intro y hy
    rcases List.mem_append.mp hy with hy | hy
    · exact h.lower y hy
    · rw [List.mem_singleton] at hy
      subst hy
      omega
  · rw [(split_hdrEq_new hnw).type, splitTail_type_new hnw]
    exact h.tailType
  · have hds : (blockDataSize s.heap.mem t - (bytes + blockSize)).toNat
        = (blockDataSize s.heap.mem t).toNat - (bytes.toNat + 12) := by
      simp only [blockSize, BitVec.toNat_sub, BitVec.toNat_add, BitVec.toNat_ofNat]
      omega
    rw [(split_hdrEq_new hnw).dataSize, splitTail_dataSize_new hnw, hds]
    omega
  · intro e he
    rcases List.mem_cons.mp he with rfl | he
    · exact ⟨t, by simp, fillBlock_type _ _ _, by rw [fillBlock_dataSize]⟩
    · obtain ⟨y, hy, hyu, rfl⟩ := h.live e he
      exact ⟨y, List.mem_append_left _ hy, by rw [(hother y hy).type]; exact hyu,
        by rw [(hother y hy).dataSize]⟩
  · refine List.pairwise_cons.mpr ⟨?_, h.distinct⟩
    intro e he heq
    obtain ⟨y, hy, -, rfl⟩ := h.live e he
    have hty : t = y := by simpa using heq
    exact h.ne_last hy hty

/-- The address of a block's payload, read as a number. -/
theorem HeapInv.payload_toNat {x : BitVec 32} (hx : x ∈ l ++ [t]) :
    (x + blockSize).toNat = x.toNat + 12 := by
  have hp := (h.inPool hx).2
  have hpe : poolEnd = 0xe4004000 := rfl
  simp only [blockSize, BitVec.toNat_add, BitVec.toNat_ofNat]
  omega

/-- A payload pointer is not `NULL`. -/
theorem HeapInv.payload_ne_zero {x : BitVec 32} (hx : x ∈ l ++ [t]) : x + blockSize ≠ 0#32 := by
  intro hz
  have hn := h.payload_toNat hx
  rw [hz, BitVec.toNat_ofNat] at hn
  omega

/-- `kalloc` takes the first block that passes its test. -/
theorem HeapInv.kalloc_found {bytes x : BitVec 32} (hb : bytes ≠ 0#32)
    (hf : (l ++ [t]).find? (blockFits s.heap.mem bytes) = some x) :
    kalloc s.heap bytes
      = some (x + blockSize, { s.heap with mem := takeBlock s.heap.mem x bytes }) := by
  have hscan := h.findBlock_eq bytes
  rw [hf, Option.getD_some] at hscan
  have hx0 := h.ne_zero (List.mem_of_find?_eq_some hf)
  simp [kalloc, h.init, hb, hscan, hx0]

/-- What a `kalloc` can do in a sound heap: fail, needing no room, or take an inner block, or
    take the last one. -/
theorem HeapInv.step_kalloc_cases (bytes : BitVec 32) :
    (s.step (.kalloc bytes) = some s ∧ RoomFor s.heap.mem bytes) ∨
    (∃ x ∈ l, blockType s.heap.mem x = blockUnused ∧
      (RoomFor s.heap.mem bytes ↔ x.toNat + 12 + bytes.toNat ≤ (blockNext s.heap.mem x).toNat) ∧
      s.step (.kalloc bytes) = some (s.taken x bytes (fillBlock s.heap.mem x bytes))) ∨
    (bytes ≠ 0#32 ∧ bytes ≤ blockDataSize s.heap.mem t + blockSize ∧
      (RoomFor s.heap.mem bytes ↔ t.toNat + 12 + bytes.toNat + 12 ≤ poolEnd) ∧
      s.step (.kalloc bytes)
        = some (s.taken t bytes (fillBlock (splitTail s.heap.mem t bytes) t bytes))) := by
  by_cases hb : bytes = 0#32
  · exact Or.inl ⟨by simp [HeapState.step, kalloc, h.init, hb], Or.inl hb⟩
  have hscan := h.findBlock_eq bytes
  cases hf : (l ++ [t]).find? (blockFits s.heap.mem bytes) with
  | none =>
    rw [hf, Option.getD_none] at hscan
    refine Or.inl ⟨by simp [HeapState.step, kalloc, h.init, hb, hscan], Or.inr fun b hbf hb0 => ?_⟩
    rw [hscan, Option.some.injEq] at hbf
    exact absurd hbf.symm hb0
  | some x =>
    rw [hf, Option.getD_some] at hscan
    have hmem := List.mem_of_find?_eq_some hf
    have hfit := List.find?_some hf
    have hx0 := h.ne_zero hmem
    have hp0 := h.payload_ne_zero hmem
    simp only [blockFits, Bool.and_eq_true, beq_iff_eq, decide_eq_true_eq] at hfit
    have hroom : RoomFor s.heap.mem bytes ↔
        if blockNext s.heap.mem x = 0#32 then x.toNat + 12 + bytes.toNat + 12 ≤ poolEnd
        else x.toNat + 12 + bytes.toNat ≤ (blockNext s.heap.mem x).toNat := by
      simp [RoomFor, hb, hscan, hx0]
    have hstep :
        s.step (.kalloc bytes) = some (s.taken x bytes (takeBlock s.heap.mem x bytes)) := by
      simp [HeapState.step, h.kalloc_found hb hf, hp0, HeapState.taken]
    rcases List.mem_append.mp hmem with hx | hx
    · have hn0 := h.ne_zero (h.succ hx).1
      rw [if_neg hn0] at hroom
      rw [takeBlock_inner hn0] at hstep
      exact Or.inr (Or.inl ⟨x, hx, hfit.1, hroom, hstep⟩)
    · rw [List.mem_singleton] at hx
      subst hx
      have hn0 := h.chain.next_last
      rw [if_pos hn0] at hroom
      rw [takeBlock_last hn0] at hstep
      exact Or.inr (Or.inr ⟨hb, hfit.2, hroom, hstep⟩)

/-- `kalloc` keeps the invariant when it has room. -/
theorem HeapInv.step_kalloc {bytes : BitVec 32} (hroom : RoomFor s.heap.mem bytes) :
    ∃ s' l' t', s.step (.kalloc bytes) = some s' ∧ HeapInv s' l' t' := by
  rcases h.step_kalloc_cases bytes with ⟨hs, -⟩ | ⟨x, hx, hu, hr, hs⟩ | ⟨-, -, hr, hs⟩
  · exact ⟨s, l, t, hs, h⟩
  · exact ⟨_, l, t, hs, h.fill_inner hx hu (hr.mp hroom)⟩
  · exact ⟨_, l ++ [t], _, hs, h.fill_last (hr.mp hroom)⟩

/-- Without room `kalloc` breaks the property at once: the payload covers the next header, or
    the header written behind it leaves the pool. -/
theorem HeapInv.step_kalloc_unsafe {bytes : BitVec 32} (hroom : ¬ RoomFor s.heap.mem bytes) :
    ∃ s', s.step (.kalloc bytes) = some s' ∧ ¬ s'.Safe := by
  have hpe : poolEnd = 0xe4004000 := rfl
  rcases h.step_kalloc_cases bytes with ⟨-, hr⟩ | ⟨x, hx, hu, hr, hs⟩ | ⟨hb, hfit, hr, hs⟩
  · exact absurd hr hroom
  · refine ⟨_, hs, ?_⟩
    rintro ⟨l', hl', -, -, hdis, -⟩
    have hx' := List.mem_append_left [t] hx
    obtain ⟨hnm, hafter, -⟩ := h.succ hx
    -- the chain is still the old one
    have hchain : Chain (fillBlock s.heap.mem x bytes) heapPoolAddr (l ++ [t]) := by
      refine h.chain.transport fun y hy => ?_
      by_cases hyx : y = x
      · rw [hyx]; exact fillBlock_next _ _ _
      · exact (h.hdrEq_of_frame hx' hy (Ne.symm hyx) fun a ha _ => fillBlock_frame _ _ _ ha).next
    obtain rfl := hchain.unique hl'
    have ha := hdis _ List.mem_cons_self _ hnm
    have hpn := h.payload_toNat hx'
    rw [hr] at hroom
    unfold Apart at ha
    unfold EndsBefore at hafter
    simp only [hpn] at ha
    omega
  · refine ⟨_, hs, ?_⟩
    rintro ⟨l', hl', hin, -⟩
    rw [hr] at hroom
    have hsize := h.tailSize
    have hfit' : bytes.toNat ≤ (blockDataSize s.heap.mem t).toNat + 12 := by
      have := BitVec.le_def.mp hfit
      simp only [blockSize, BitVec.toNat_add, BitVec.toNat_ofNat] at this
      omega
    have hnw : t.toNat + 12 + bytes.toNat + 12 ≤ 2 ^ 32 := by omega
    obtain rfl := (h.split_chain hnw).unique hl'
    have hnew := (hin (t + blockSize + bytes) (by simp)).2
    rw [newBlock_toNat hnw] at hnew
    omega

/-- Freeing a live pointer changes the type of its block, an inner one. -/
theorem HeapInv.kfree_eq {addr : BitVec 32} {s' : HeapState}
    (hs : s.step (.kfree addr) = some s') : ∃ x ∈ l, addr = x + blockSize ∧
      s' = ⟨{ s.heap with mem := write8 s.heap.mem (x + 2#32) blockUnused },
        s.live.eraseP (fun e => e.1 = x + blockSize)⟩ := by
  simp only [HeapState.step] at hs
  split at hs
  case isFalse => exact absurd hs (by simp)
  case isTrue hlive =>
    rw [Option.some.injEq] at hs
    rw [List.mem_map] at hlive
    obtain ⟨e, he, rfl⟩ := hlive
    obtain ⟨x, hx, hu, rfl⟩ := h.live e he
    have hx' := List.mem_append_left [t] hx
    have haddr : x + blockSize - blockSize + 2#32 = x + 2#32 := by ring
    have hfree : kfree s.heap (x + blockSize)
        = { s.heap with mem := write8 s.heap.mem (x + 2#32) blockUnused } := by
      simp only [kfree, h.init, Bool.not_true, Bool.false_eq_true, if_false,
        if_neg (h.payload_ne_zero hx'), haddr]
    simp only [hfree] at hs
    exact ⟨x, hx, rfl, hs.symm⟩

/-- A store to the type of a block leaves every other header alone. -/
theorem HeapInv.type_hdrEq {x y : BitVec 32} {v : BitVec 8} (hx : x ∈ l ++ [t])
    (hy : y ∈ l ++ [t]) (hne : y ≠ x) :
    HdrEq (write8 s.heap.mem (x + 2#32) v) s.heap.mem y :=
  h.hdrEq_of_frame hx hy (Ne.symm hne)
    fun _ ha _ => write8_of_not_inRange fun hr => ha (inRange_field (by decide) hr)

/-- It leaves the size of every block alone. -/
theorem HeapInv.type_dataSize {x y : BitVec 32} {v : BitVec 8} (hx : x ∈ l ++ [t])
    (hy : y ∈ l ++ [t]) : blockDataSize (write8 s.heap.mem (x + 2#32) v) y
      = blockDataSize s.heap.mem y := by
  by_cases hyx : y = x
  · subst hyx
    exact read32_congr fun a ha =>
      write8_of_not_inRange (fields_disjoint (by decide) (by decide) (by decide) ha)
  · exact (h.type_hdrEq hx hy hyx).dataSize

/-- `kfree` of a live pointer keeps the invariant: it changes the type of one inner block. -/
theorem HeapInv.step_kfree {addr : BitVec 32} {s' : HeapState}
    (hs : s.step (.kfree addr) = some s') : HeapInv s' l t := by
  obtain ⟨x, hx, rfl, rfl⟩ := h.kfree_eq hs
  have hx' := List.mem_append_left [t] hx
  have hother : ∀ y ∈ l ++ [t], y ≠ x →
      HdrEq (write8 s.heap.mem (x + 2#32) blockUnused) s.heap.mem y :=
    fun y hy hne => h.type_hdrEq hx' hy hne
  have hnext : ∀ y ∈ l ++ [t], blockNext (write8 s.heap.mem (x + 2#32) blockUnused) y
      = blockNext s.heap.mem y := by
    intro y hy
    by_cases hyx : y = x
    · subst hyx
      exact read32_congr fun a ha =>
        write8_of_not_inRange (fields_disjoint (by decide) (by decide) (by decide) ha)
    · exact (hother y hy hyx).next
  have hsize : ∀ y ∈ l ++ [t], blockDataSize (write8 s.heap.mem (x + 2#32) blockUnused) y
      = blockDataSize s.heap.mem y := fun y hy => h.type_dataSize hx' hy
  refine ⟨h.init, h.chain.transport hnext, ?_, h.lower, ?_, ?_, h.tailIn, ?_, ?_⟩
  · refine h.spaced.imp_of_mem fun {y z} hy _ hyz => ?_
    unfold EndsBefore at hyz ⊢
    rw [hsize y hy]
    exact hyz
  · rw [(hother t (by simp) (h.ne_last hx)).type]
    exact h.tailType
  · rw [hsize t (by simp)]
    exact h.tailSize
  · intro f hf
    obtain ⟨y, hy, hyu, rfl⟩ := h.live f (List.mem_of_mem_eraseP hf)
    have hyx : y ≠ x := by
      rintro rfl
      exact eraseP_fst_ne h.distinct hf rfl
    exact ⟨y, hy, by rw [(hother y (List.mem_append_left _ hy) hyx).type]; exact hyu,
      by rw [hsize y (List.mem_append_left _ hy)]⟩
  · exact h.distinct.eraseP _

/-- A store of an owner into its payload meets no header. -/
theorem HeapInv.store_eq {addr : BitVec 32} {v : BitVec 8} {s' : HeapState}
    (hs : s.step (.store addr v) = some s') :
    s' = { s with heap := { s.heap with mem := write8 s.heap.mem addr v } } ∧
      ∀ y ∈ l ++ [t], HdrEq (write8 s.heap.mem addr v) s.heap.mem y := by
  simp only [HeapState.step] at hs
  split at hs
  case isFalse => exact absurd hs (by simp)
  case isTrue hlive =>
    rw [Option.some.injEq] at hs
    refine ⟨hs.symm, ?_⟩
    obtain ⟨e, he, hin⟩ := hlive
    obtain ⟨x, hx, -, rfl⟩ := h.live e he
    have hx' := List.mem_append_left [t] hx
    have hb := h.before_last hx
    have ht := h.tailIn
    have hpe : poolEnd = 0xe4004000 := rfl
    have hpn := h.payload_toNat hx'
    unfold EndsBefore at hb
    simp only at hin
    rw [inRange_iff (by omega)] at hin
    intro y hy a ha
    have hpy := (h.inPool hy).2
    refine write8_of_not_inRange ?_
    rw [inRange_iff (by omega)] at ha
    intro hr
    rw [inRange_iff (by omega)] at hr
    by_cases hyx : y = x
    · subst hyx
      omega
    · rcases h.ordered hx' hy (Ne.symm hyx) with ho | ho <;> unfold EndsBefore at ho <;> omega

/-- A store of an owner into its payload keeps the invariant: it meets no header. -/
theorem HeapInv.step_store {addr : BitVec 32} {v : BitVec 8} {s' : HeapState}
    (hs : s.step (.store addr v) = some s') : HeapInv s' l t := by
  obtain ⟨rfl, hall⟩ := h.store_eq hs
  refine ⟨h.init, h.chain.transport fun y hy => (hall y hy).next, ?_, h.lower, ?_, ?_, h.tailIn,
    ?_, h.distinct⟩
  · refine h.spaced.imp_of_mem fun {y z} hy _ hyz => ?_
    unfold EndsBefore at hyz ⊢
    rw [(hall y hy).dataSize]
    exact hyz
  · rw [(hall t (by simp)).type]
    exact h.tailType
  · rw [(hall t (by simp)).dataSize]
    exact h.tailSize
  · intro f hf
    obtain ⟨y, hy, hyu, rfl⟩ := h.live f hf
    have hq := hall y (List.mem_append_left _ hy)
    exact ⟨y, hy, by rw [hq.type]; exact hyu, by rw [hq.dataSize]⟩

/-- **Step lemma.**  An event that has room keeps the invariant. -/
theorem HeapInv.step {op : HeapOp} {s' : HeapState} (hroom : s.Room op)
    (hs : s.step op = some s') : ∃ l' t', HeapInv s' l' t' := by
  cases op with
  | kalloc bytes =>
    obtain ⟨s'', l', t', hs', h'⟩ := h.step_kalloc hroom
    rw [hs', Option.some.injEq] at hs
    subst hs
    exact ⟨l', t', h'⟩
  | kfree addr => exact ⟨l, t, h.step_kfree hs⟩
  | store addr v => exact ⟨l, t, h.step_store hs⟩

end Step

/-! ### Runs -/

/-- Running one event more. -/
theorem run_snoc (s : HeapState) (ops : List HeapOp) (op : HeapOp) :
    s.run (ops ++ [op]) = (s.run ops).bind (·.step op) := by
  induction ops generalizing s with
  | nil => simp [HeapState.run]
  | cons o os ih =>
    simp only [List.cons_append, HeapState.run, Option.bind_assoc]
    congr 1
    funext s'
    exact ih s'

/-- **Run lemma.**  A run whose events all have room reaches only states with the invariant. -/
theorem run_inv (m : Mem) {ops : List HeapOp} {s : HeapState}
    (hroom : ∀ pre op, pre ++ [op] <+: ops →
      ∀ s, (HeapState.init m).run pre = some s → s.Room op)
    (hrun : (HeapState.init m).run ops = some s) : ∃ l t, HeapInv s l t := by
  induction ops using List.reverseRecOn generalizing s with
  | nil =>
    simp only [HeapState.run, Option.some.injEq] at hrun
    subst hrun
    exact ⟨[], heapPoolAddr, heapInit_inv m⟩
  | append_singleton ops op ih =>
    rw [run_snoc, Option.bind_eq_some_iff] at hrun
    obtain ⟨s₀, h₀, hstep⟩ := hrun
    obtain ⟨l, t, hinv⟩ := ih (fun pre o hp => hroom pre o (hp.trans (List.prefix_append _ _))) h₀
    exact hinv.step (hroom ops op (List.prefix_refl _) s₀ h₀) hstep

/-- **Step lemma, converse.**  An event without room reaches an unsafe state. -/
theorem HeapInv.room_of_safe {s : HeapState} {l : List (BitVec 32)} {t : BitVec 32}
    (h : HeapInv s l t) {op : HeapOp} (hsafe : ∀ s', s.step op = some s' → s'.Safe) :
    s.Room op := by
  cases op with
  | kalloc bytes =>
    by_contra hroom
    obtain ⟨s', hs', hun⟩ := h.step_kalloc_unsafe hroom
    exact hun (hsafe s' hs')
  | kfree addr => trivial
  | store addr v => trivial

/-- A run that stays safe had room at every event. -/
theorem run_room (m : Mem) {ops : List HeapOp}
    (hsafe : ∀ pre, pre <+: ops → ∀ s, (HeapState.init m).run pre = some s → s.Safe) :
    ∀ pre op, pre ++ [op] <+: ops → ∀ s, (HeapState.init m).run pre = some s → s.Room op := by
  induction ops using List.reverseRecOn with
  | nil =>
    intro pre op hp
    exact absurd (List.prefix_nil.mp hp) (by simp)
  | append_singleton ops o ih =>
    have ih' := ih fun pre hp => hsafe pre (hp.trans (List.prefix_append _ _))
    intro pre op hp s hrun
    rcases List.prefix_concat_iff.mp hp with heq | hp'
    · -- the last event: the invariant holds where it runs
      obtain ⟨rfl, heq'⟩ := List.append_inj' heq rfl
      obtain rfl := List.singleton_inj.mp heq'
      obtain ⟨l, t, hinv⟩ := run_inv m ih' hrun
      refine hinv.room_of_safe fun s' hs' => hsafe _ (List.prefix_refl _) s' ?_
      rw [run_snoc, hrun, Option.bind_some, hs']
    · exact ih' pre op hp' s hrun

/-- **Heap safety, exactly.**  Over every sequence of `kalloc`, `kfree` of live pointers and
    stores into live payloads after `heap_init`: all the states of the run are safe if and only
    if each `kalloc` of it, in the state it is called in, has room. -/
theorem heap_safe_iff (m : Mem) (ops : List HeapOp) :
    (∀ pre, pre <+: ops → ∀ s, (HeapState.init m).run pre = some s → s.Safe) ↔
      ∀ pre op, pre ++ [op] <+: ops → ∀ s, (HeapState.init m).run pre = some s → s.Room op := by
  constructor
  · exact run_room m
  · intro hroom pre hpre s hrun
    obtain ⟨l, t, hinv⟩ := run_inv m (fun p o hp => hroom p o (hp.trans hpre)) hrun
    exact hinv.safe

/-- Take 8 bytes, free them, take 16: the freed block passes the fit test. -/
def reuseOps : List HeapOp :=
  [.kalloc 8#32, .kfree (heapPoolAddr + blockSize), .kalloc 16#32]

theorem reuseOps_isSome : ((HeapState.init fun _ => 0#8).run reuseOps).isSome = true := by
  decide +kernel

/-- The 16 bytes taken from the freed block cover the header behind it. -/
theorem heap_reuse_overlaps_header :
    ∃ s, (HeapState.init fun _ => 0#8).run reuseOps = some s ∧ ¬ s.Safe := by
  refine ⟨_, (Option.some_get reuseOps_isSome).symm, ?_⟩
  rintro ⟨l, hl, -, -, hdis, -⟩
  have hchain : Chain (((HeapState.init fun _ => 0#8).run reuseOps).get reuseOps_isSome).heap.mem
      heapPoolAddr [heapPoolAddr, heapPoolAddr + 20#32] :=
    ⟨rfl, by decide, by decide +kernel, by decide, by unfold Chain; decide +kernel⟩
  obtain rfl := hchain.unique hl
  have hlive : (heapPoolAddr + blockSize, 16#32)
      ∈ (((HeapState.init fun _ => 0#8).run reuseOps).get reuseOps_isSome).live := by
    decide +kernel
  have hap := hdis _ hlive (heapPoolAddr + 20#32) (by simp)
  exact absurd hap (by unfold Apart; decide)

end Leoman
