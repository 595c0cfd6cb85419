import Leoman.Pm

namespace Leoman

/-!
# Adjusting the memory map (`kernel/kernel.c`)

`adjust_the_memory_map` cuts the kernel out of the memory the loader found, merges neighbours of
one type, and adds up what is available.  All three loops go over 64 entries.

The bases are of type `uint32_t *`: their differences count words, and what is added to them is
multiplied by four.

* `reserveKernel` — the first loop;
* `mergeEntries` — the second;
* `memAvail` — the third.
-/

/-- `struct memory_map_entry`, with the fields `pm_init` does not read. -/
structure BootMapEntry extends MemoryMapEntry where
  baseHigh : BitVec 32
  lenHigh : BitVec 32
  acpiExt : BitVec 32
deriving DecidableEq, Repr

/-- An entry the loader did not fill. -/
def BootMapEntry.zero : BootMapEntry := ⟨⟨0#32, 0#32, 0#32⟩, 0#32, 0#32, 0#32⟩

/-- `memory_map`: the entries from index 0 on. -/
abbrev BootMap := Nat → BootMapEntry

/-- The entries as a list. -/
def BootMap.entries (t : BootMap) : List BootMapEntry := (List.range 64).map t

/-! ### Pointer arithmetic -/

/-- `p - q` for two `uint32_t *`: an arithmetic shift of the distance in bytes. -/
def ptrDiff (p q : BitVec 32) : BitVec 32 := (p - q).sshiftRight 2

/-- `p + n` for a `uint32_t *p`. -/
def ptrAdd (p n : BitVec 32) : BitVec 32 := p + 4#32 * n

/-! ### The kernel's entry -/

/-- `kernentry`, from the linker's `kernel_phys` and `kernel_size`. -/
def kernEntry (kernelPhys kernelSize : BitVec 32) : BootMapEntry where
  baseLow := kernelPhys
  baseHigh := 0#32
  lenLow := kernelSize + 0x1000#32 + 0x400000#32
  lenHigh := 0#32
  type := 2#32
  acpiExt := 0#32

/-- `for (k = 62; k > i; k--) memory_map[k + 1] = memory_map[k]`, from `k` on. -/
def shiftUp (t : BootMap) (i : Nat) : Nat → BootMap
  | 0 => t
  | k + 1 => if i < k + 1 then shiftUp (Function.update t (k + 2) (t (k + 1))) i k else t

/-- The three tests before an entry is cut: it is available, begins before the kernel, and is long
    enough. -/
def Fits (kern e : BootMapEntry) : Prop :=
  e.type = 1#32 ∧ e.baseLow ≤ kern.baseLow ∧
    kern.lenLow + ptrDiff kern.baseLow e.baseLow ≤ e.lenLow

instance (kern e : BootMapEntry) : Decidable (Fits kern e) :=
  inferInstanceAs (Decidable (_ ∧ _ ∧ _))

/-- `pre`: what is left of `e` before the kernel. -/
def preEntry (kern e : BootMapEntry) : BootMapEntry :=
  { e with lenLow := ptrDiff kern.baseLow e.baseLow, lenHigh := 0#32 }

/-- `pre_align`: the rest of `e`. -/
def preAlignEntry (kern e : BootMapEntry) : BootMapEntry :=
  { e with
    baseLow := ptrAdd (preEntry kern e).baseLow (preEntry kern e).lenLow
    baseHigh := 0#32
    lenLow := e.lenLow - (preEntry kern e).lenLow
    lenHigh := 0#32 }

/-- `post`: what is left of `e` after the kernel. -/
def postEntry (kern e : BootMapEntry) : BootMapEntry where
  baseLow := ptrAdd kern.baseLow kern.lenLow
  baseHigh := 0#32
  lenLow := ptrDiff (ptrAdd e.baseLow e.lenLow) (ptrAdd kern.baseLow kern.lenLow)
  lenHigh := 0#32
  type := 1#32
  acpiExt := 0#32

/-- Cut the kernel out of the entry at `i`: the table, and `i` after it. -/
def cutEntry (kern : BootMapEntry) (t : BootMap) (i : Nat) : BootMap × Nat :=
  let e := t i
  -- an entry before the kernel
  let (t, i) :=
    if BitVec.slt 0#32 (ptrDiff kern.baseLow e.baseLow) then
      (Function.update (Function.update (shiftUp t i 62) i (preEntry kern e)) (i + 1)
        (preAlignEntry kern e), i + 1)
    else (t, i)
  let t := Function.update t i kern
  -- an entry after it
  if e.lenLow - kern.lenLow - ptrDiff kern.baseLow e.baseLow ≠ 0#32 then
    (Function.update (shiftUp t i 62) (i + 1) (postEntry kern e), i)
  else (t, i)

/-- The first loop at index `i`, with `n` rounds left. -/
def reserveLoop (kern : BootMapEntry) : Nat → BootMap → Nat → BootMap
  | 0, t, _ => t
  | n + 1, t, i =>
    if i < 61 then
      if Fits kern (t i) then
        let r := cutEntry kern t i
        reserveLoop kern n r.1 (r.2 + 1)
      else reserveLoop kern n t (i + 1)
    else t

/-- The first loop of `adjust_the_memory_map`.  Every round moves on by one entry at least, so that
    61 rounds are enough. -/
def reserveKernel (kern : BootMapEntry) (t : BootMap) : BootMap := reserveLoop kern 61 t 0

/-! ### Merging -/

/-- Read an entry.  What lies past the table is not an entry. -/
def readEntry (t : BootMap) (i : Nat) : Option BootMapEntry := if i < 64 then some (t i) else none

/-- `while ((e + j)->type == e->type)`, with `n` rounds left: `j` and the length of `e` after it.
    A read past the table ends it before the rounds run out. -/
def sumRun (t : BootMap) (i : Nat) : Nat → Nat → BitVec 32 → Option (Nat × BitVec 32)
  | 0, _, _ => none
  | n + 1, j, len => do
    let next ← readEntry t (i + j)
    if next.type = (t i).type then sumRun t i n (j + 1) (len + next.lenLow)
    else return (j, len)

/-- `n` rounds of `memory_map[k] = memory_map[k + j]`, from `k` on. -/
def shiftDown (j : Nat) : Nat → BootMap → Nat → Option BootMap
  | 0, t, _ => some t
  | n + 1, t, k => do
    let next ← readEntry t (k + j)
    shiftDown j n (Function.update t k next) (k + 1)

/-- The second loop at index `i`.  The inner loop runs from `i + 1` to before `64 - i - 1`. -/
def mergeAt (t : BootMap) (i : Nat) : Option BootMap :=
  let e := t i
  if e.lenLow ||| e.lenHigh = 0#32 then some t
  else do
    let next ← readEntry t (i + 1)
    if next.type = e.type then do
      let (j, len) ← sumRun t i 64 1 e.lenLow
      let t := Function.update t i { e with lenLow := len }
      shiftDown (j - 1) (64 - i - 1 - (i + 1)) t (i + 1)
    else return t

/-- The second loop from index `i` on, with `n` rounds left. -/
def mergeLoop : Nat → BootMap → Nat → Option BootMap
  | 0, t, _ => some t
  | n + 1, t, i => do
    let t ← mergeAt t i
    mergeLoop n t (i + 1)

/-- The second loop of `adjust_the_memory_map`. -/
def mergeEntries (t : BootMap) : Option BootMap := mergeLoop 64 t 0

/-- The third loop: `mem_avail` after it. -/
def memAvail (t : BootMap) (start : BitVec 32) : BitVec 32 :=
  t.entries.foldl (fun sum e => if e.type = 1#32 ∨ e.type = 3#32 then sum + e.lenLow else sum) start

end Leoman
