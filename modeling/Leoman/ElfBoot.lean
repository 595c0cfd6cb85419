import Leoman.Lib.Countdown

namespace Leoman.ElfBoot

open ByteMem Countdown

/-!
# Relocating the kernel (`boot/elf.asm`)

The boot loader moves the segments of the kernel to their physical addresses, and clears what they
have behind their file bytes.  It does so in double words, counted by the `LOOP` of real mode, whose
counter has 16 bits.

* `dispatchElfSections` — the code;
* `BootSegment`, `KernelFile` — the program headers, and what is asked of the file;
* `loadProgramHeader_byte` — what one header does to every byte of memory;
* `Placed` — what holds after the first headers;
* `dispatch_relocates_iff` — the segments are in place exactly when the bytes their loops leave out
  are right already; and they leave out none of segments with 256 KiB at most of both kinds
  (`small_segment_fits`).
-/

/-! ### The code -/

/-- A word of memory. -/
def word16 (m : Mem) (a : BitVec 32) : BitVec 16 := m (a + 1#32) ++ m a

/-- Where files are loaded. -/
def loadedFile : BitVec 32 := 0x10000#32

/-- From `.load_program_headers` to `.load_next_program_header`, for the header at `ebx`.  `loop`
    decrements the low half of `ecx`. -/
def loadProgramHeader (m : Mem) (ebx : BitVec 32) : Mem :=
  if read32 m ebx ≠ 1#32 then m
  else
    let esi := loadedFile + read32 m (ebx + 0x04#32)
    let edi := read32 m (ebx + 0x0c#32)
    let ecx := read32 m (ebx + 0x10#32) / 4#32
    let moved : WordMove :=
      if ecx = 0#32 then ⟨m, esi, edi⟩
      else doLoop WordMove.next (ecx.setWidth 16) ⟨m, esi, edi⟩
    let eax := read32 moved.mem (ebx + 0x14#32)
    let edx := read32 moved.mem (ebx + 0x10#32)
    if eax ≤ edx then moved.mem
    else
      (doLoop (WordFill.next 0#32) (((eax - edx) / 4#32).setWidth 16) ⟨moved.mem, moved.dst⟩).mem

/-- Memory, and `ebx`. -/
structure Headers where
  mem : Mem
  ebx : BitVec 32

/-- A round of the outer loop. -/
def Headers.next (s : Headers) : Headers :=
  let m := loadProgramHeader s.mem s.ebx
  ⟨m, s.ebx + (word16 m (loadedFile + 0x2a#32)).setWidth 32⟩

/-- `dispatch_elf_sections`.  The outer counter is kept on the stack of the loader, which is no part
    of `m`. -/
def dispatchElfSections (m : Mem) : Mem :=
  let cx := word16 m (loadedFile + 0x2c#32)
  (doLoop Headers.next cx ⟨m, loadedFile + read32 m (loadedFile + 0x1c#32)⟩).mem

/-! ### The file -/

/-- `e_phnum`. -/
def phnum (m : Mem) : Nat := (word16 m (loadedFile + 0x2c#32)).toNat

/-- The address of program header `i`. -/
def pheaderAddr (m : Mem) (i : Nat) : BitVec 32 :=
  loadedFile + read32 m (loadedFile + 0x1c#32) +
    BitVec.ofNat 32 ((word16 m (loadedFile + 0x2a#32)).toNat * i)

/-- A program header, as far as it is read. -/
structure BootSegment where
  type : BitVec 32
  offset : BitVec 32
  paddr : BitVec 32
  filesz : BitVec 32
  memsz : BitVec 32
deriving DecidableEq, Repr

/-- The program header at an address. -/
def segmentAt (m : Mem) (a : BitVec 32) : BootSegment :=
  ⟨read32 m a, read32 m (a + 0x04#32), read32 m (a + 0x0c#32), read32 m (a + 0x10#32),
    read32 m (a + 0x14#32)⟩

/-- Program header `i`. -/
def segment (m : Mem) (i : Nat) : BootSegment := segmentAt m (pheaderAddr m i)

/-- It is to be loaded. -/
def BootSegment.Load (h : BootSegment) : Prop := h.type = 1#32

instance (h : BootSegment) : Decidable h.Load := inferInstanceAs (Decidable (_ = _))

/-- The segment is moved to this byte. -/
def BootSegment.Target (h : BootSegment) (x : BitVec 32) : Prop := InRange x h.paddr h.memsz.toNat

/-- An ELF file of `len` bytes has been loaded.  It has program headers, the segments are in the
    file, their sizes are multiples of four, and their targets do not overlap. -/
structure KernelFile (m : Mem) (len : Nat) : Prop where
  fits : len ≤ 2 ^ 32
  header : 52 ≤ len
  headers : 1 ≤ phnum m
  pheaders : ∀ i < phnum m, (read32 m (loadedFile + 0x1c#32)).toNat +
    (word16 m (loadedFile + 0x2a#32)).toNat * i + 32 ≤ len
  inFile : ∀ i < phnum m, (segment m i).Load →
    (segment m i).offset.toNat + (segment m i).filesz.toNat ≤ len
  sizes : ∀ i < phnum m, (segment m i).Load →
    (segment m i).filesz.toNat ≤ (segment m i).memsz.toNat ∧
      (segment m i).filesz.toNat % 4 = 0 ∧ (segment m i).memsz.toNat % 4 = 0
  outside : ∀ i < phnum m, (segment m i).Load → ∀ x, (segment m i).Target x →
    ¬ InRange x loadedFile len
  disjoint : ∀ i < phnum m, ∀ j < phnum m, i ≠ j → (segment m i).Load → (segment m j).Load →
    ∀ x, (segment m i).Target x → ¬ (segment m j).Target x

/-- Every target has the file bytes and then zeros, and everything else is as it was. -/
def Relocated (m m' : Mem) : Prop :=
  (∀ i < phnum m, (segment m i).Load → ∀ k < (segment m i).memsz.toNat,
    m' ((segment m i).paddr + BitVec.ofNat 32 k)
      = if k < (segment m i).filesz.toNat then
          m (loadedFile + (segment m i).offset + BitVec.ofNat 32 k) else 0#8) ∧
  ∀ x, (∀ i < phnum m, (segment m i).Load → ¬ (segment m i).Target x) → m' x = m x

/-- The number of double words that are moved. -/
def BootSegment.moved (h : BootSegment) : Nat :=
  if h.filesz / 4#32 = 0#32 then 0 else rounds ((h.filesz / 4#32).setWidth 16)

/-- The number of double words that are cleared. -/
def BootSegment.cleared (h : BootSegment) : Nat :=
  if h.memsz ≤ h.filesz then 0 else rounds (((h.memsz - h.filesz) / 4#32).setWidth 16)

/-- What a byte of the target is in the end. -/
def BootSegment.placed (m : Mem) (h : BootSegment) (k : Nat) : BitVec 8 :=
  if k < 4 * h.moved then m (loadedFile + h.offset + BitVec.ofNat 32 k)
  else if k < 4 * (h.moved + h.cleared) then 0#8
  else m (h.paddr + BitVec.ofNat 32 k)

/-- What the loops leave out is right already: file bytes behind those moved are zero where they are
    cleared and in place elsewhere, and what is not cleared is zero. -/
structure BootSegment.Fits (m : Mem) (h : BootSegment) : Prop where
  bytes : ∀ k, 4 * h.moved ≤ k → k < h.filesz.toNat →
    m (loadedFile + h.offset + BitVec.ofNat 32 k)
      = if k < 4 * (h.moved + h.cleared) then 0#8 else m (h.paddr + BitVec.ofNat 32 k)
  zeros : ∀ k, h.filesz.toNat ≤ k → 4 * (h.moved + h.cleared) ≤ k → k < h.memsz.toNat →
    m (h.paddr + BitVec.ofNat 32 k) = 0#8

section Header

variable {m mem : Mem} {h : BootSegment} {a x : BitVec 32} {len i : Nat}

theorem dwords_toNat (n : BitVec 32) : (n / 4#32).toNat = n.toNat / 4 := by
  rw [BitVec.toNat_udiv]
  rfl

/-- The counter of a loop that makes a round for every value but zero. -/
theorem rounds_le_self {n : BitVec 32} (hn : n ≠ 0#32) : rounds (n.setWidth 16) ≤ n.toNat := by
  have hpos : n.toNat ≠ 0 := fun h => hn (BitVec.eq_of_toNat_eq h)
  unfold rounds
  rw [BitVec.toNat_setWidth]
  split <;> omega

/-- No more is moved than the file bytes. -/
theorem moved_le (h : BootSegment) : 4 * h.moved ≤ h.filesz.toNat := by
  unfold BootSegment.moved
  split
  · omega
  · rename_i hne
    have := rounds_le_self hne
    rw [dwords_toNat] at this
    omega

/-- No more is cleared than there is behind them. -/
theorem cleared_le (hle : h.filesz.toNat ≤ h.memsz.toNat) (h₁ : h.filesz.toNat % 4 = 0)
    (h₂ : h.memsz.toNat % 4 = 0) : h.filesz.toNat + 4 * h.cleared ≤ h.memsz.toNat := by
  unfold BootSegment.cleared
  split
  · omega
  · rename_i hgt
    have hlt : h.filesz.toNat < h.memsz.toNat := by
      rw [BitVec.le_def] at hgt
      omega
    have hquot : ((h.memsz - h.filesz) / 4#32).toNat = (h.memsz.toNat - h.filesz.toNat) / 4 := by
      rw [dwords_toNat, BitVec.toNat_sub]
      omega
    have hne : (h.memsz - h.filesz) / 4#32 ≠ 0#32 := by
      intro hz
      rw [hz] at hquot
      have hzero : (0#32 : BitVec 32).toNat = 0 := rfl
      omega
    have := rounds_le_self hne
    omega

/-- Small segments leave nothing out. -/
theorem small_segment_fits (hle : h.filesz.toNat ≤ h.memsz.toNat) (h₁ : h.filesz.toNat % 4 = 0)
    (h₂ : h.memsz.toNat % 4 = 0) (hfile : h.filesz.toNat ≤ 0x40000)
    (hmem : h.memsz.toNat ≤ h.filesz.toNat + 0x40000) : h.Fits m := by
  have hrounds : ∀ {n : BitVec 32}, n ≠ 0#32 → n.toNat ≤ 0x10000 →
      rounds (n.setWidth 16) = n.toNat := by
    intro n hn hle
    have hpos : n.toNat ≠ 0 := fun h => hn (BitVec.eq_of_toNat_eq h)
    unfold rounds
    rw [BitVec.toNat_setWidth]
    split <;> omega
  have hmoved : 4 * h.moved = h.filesz.toNat := by
    unfold BootSegment.moved
    split
    · rename_i hz
      have := dwords_toNat h.filesz
      rw [hz] at this
      have hzero : (0#32 : BitVec 32).toNat = 0 := rfl
      omega
    · rename_i hne
      rw [hrounds hne (by rw [dwords_toNat]; omega), dwords_toNat]
      omega
  have hcleared : h.filesz.toNat + 4 * h.cleared = h.memsz.toNat := by
    unfold BootSegment.cleared
    split
    · rename_i hge
      rw [BitVec.le_def] at hge
      omega
    · rename_i hgt
      rw [BitVec.le_def] at hgt
      have hsub : (h.memsz - h.filesz).toNat = h.memsz.toNat - h.filesz.toNat := by
        rw [BitVec.toNat_sub]
        omega
      have hne : (h.memsz - h.filesz) / 4#32 ≠ 0#32 := by
        intro hz
        have := dwords_toNat (h.memsz - h.filesz)
        rw [hz] at this
        have hzero : (0#32 : BitVec 32).toNat = 0 := rfl
        omega
      rw [hrounds hne (by rw [dwords_toNat]; omega), dwords_toNat]
      omega
  exact ⟨fun k hk hk' => by omega, fun k _ hk hk' => by omega⟩

/-- A part of the header. -/
theorem inRange_header (hhead : ∀ j < 32, InRange (a + BitVec.ofNat 32 j) loadedFile len) {c : Nat}
    (hc : c + 4 ≤ 32) (hx : InRange x (a + BitVec.ofNat 32 c) 4) : InRange x loadedFile len := by
  obtain ⟨-, hlt⟩ := (inRange_part (by omega)).mp hx
  have hsum : x = a + BitVec.ofNat 32 (x - a).toNat := by
    rw [BitVec.ofNat_toNat, BitVec.setWidth_eq, BitVec.add_comm, BitVec.sub_add_cancel]
  rw [hsum]
  exact hhead _ (by omega)

/-- A header is read as it is in the file. -/
theorem header_word (hagree : ∀ x, InRange x loadedFile len → mem x = m x)
    (hhead : ∀ j < 32, InRange (a + BitVec.ofNat 32 j) loadedFile len) {c : Nat}
    (hc : c + 4 ≤ 32) :
    read32 mem (a + BitVec.ofNat 32 c) = read32 m (a + BitVec.ofNat 32 c) :=
  read32_congr fun _ hx => hagree _ (inRange_header hhead hc hx)

/-- A part of the file. -/
theorem source_inFile {off : BitVec 32} {n : Nat} (hn : off.toNat + n ≤ len) (hlen : len ≤ 2 ^ 32)
    (hx : InRange x (loadedFile + off) n) : InRange x loadedFile len := by
  have hoff : off = BitVec.ofNat 32 off.toNat := by rw [BitVec.ofNat_toNat, BitVec.setWidth_eq]
  rw [hoff, inRange_part (by omega)] at hx
  unfold InRange
  omega

/-- **One header.**  What it does to every byte of memory. -/
theorem loadProgramHeader_byte (hagree : ∀ x, InRange x loadedFile len → mem x = m x)
    (hhead : ∀ j < 32, InRange (a + BitVec.ofNat 32 j) loadedFile len)
    (hlen : len ≤ 2 ^ 32) (h : BootSegment) (hh : segmentAt m a = h) (hload : h.Load)
    (hin : h.offset.toNat + h.filesz.toNat ≤ len)
    (hsizes : h.filesz.toNat ≤ h.memsz.toNat ∧ h.filesz.toNat % 4 = 0 ∧ h.memsz.toNat % 4 = 0)
    (hout : ∀ x, h.Target x → ¬ InRange x loadedFile len) (x : BitVec 32) :
    loadProgramHeader mem a x
      = if InRange x h.paddr (4 * h.moved) then m (loadedFile + h.offset + (x - h.paddr))
        else if InRange x h.paddr (4 * (h.moved + h.cleared)) then 0#8 else mem x := by
  have hzero : a + BitVec.ofNat 32 0 = a := BitVec.add_zero a
  have htype : read32 mem a = 1#32 := by
    have hword := header_word hagree hhead (c := 0) (by omega)
    rw [hzero] at hword
    rw [hword]
    exact (congrArg BootSegment.type hh).trans hload
  have hoff : read32 mem (a + 0x04#32) = h.offset :=
    (header_word hagree hhead (c := 0x04) (by omega)).trans (congrArg BootSegment.offset hh)
  have hpaddr : read32 mem (a + 0x0c#32) = h.paddr :=
    (header_word hagree hhead (c := 0x0c) (by omega)).trans (congrArg BootSegment.paddr hh)
  have hfilesz : read32 mem (a + 0x10#32) = h.filesz :=
    (header_word hagree hhead (c := 0x10) (by omega)).trans (congrArg BootSegment.filesz hh)
  have hmoved := moved_le h
  have hcleared := cleared_le hsizes.1 hsizes.2.1 hsizes.2.2
  -- the words that are moved
  let M : WordMove := ⟨fun x => if InRange x h.paddr (4 * h.moved) then
    m (loadedFile + h.offset + (x - h.paddr)) else mem x,
    loadedFile + h.offset + BitVec.ofNat 32 (4 * h.moved),
    h.paddr + BitVec.ofNat 32 (4 * h.moved)⟩
  have hmove : (if h.filesz / 4#32 = 0#32 then (⟨mem, loadedFile + h.offset, h.paddr⟩ : WordMove)
      else doLoop WordMove.next ((h.filesz / 4#32).setWidth 16)
        ⟨mem, loadedFile + h.offset, h.paddr⟩) = M := by
    have hiter := WordMove.iterate ⟨mem, loadedFile + h.offset, h.paddr⟩ (n := h.moved)
      (by omega) fun y hy hy' => by
        have htarget : (y - h.paddr).toNat < 4 * h.moved := hy
        refine hout y ?_ (source_inFile (by omega) hlen hy')
        unfold BootSegment.Target InRange
        omega
    have hbytes : WordMove.next^[h.moved] ⟨mem, loadedFile + h.offset, h.paddr⟩ = M := by
      rw [hiter, WordMove.mk.injEq]
      refine ⟨funext fun y => ?_, rfl, rfl⟩
      show (if InRange y h.paddr (4 * h.moved) then mem (loadedFile + h.offset + (y - h.paddr))
        else mem y) = _
      split
      · rename_i hy
        have hsrc : h.offset.toNat + 4 * h.moved ≤ len := by omega
        refine hagree _ (source_inFile hsrc hlen ?_)
        rw [InRange, BitVec.add_comm, BitVec.add_sub_cancel]
        exact hy
      · rfl
    rw [← hbytes, BootSegment.moved]
    split
    · rfl
    · exact doLoop_eq (by decide) _ _ _
  have hagree' : ∀ x, InRange x loadedFile len → M.mem x = m x := by
    intro x hx
    have hnot : ¬ InRange x h.paddr (4 * h.moved) := by
      intro hin
      refine hout x ?_ hx
      unfold BootSegment.Target InRange at *
      omega
    exact (if_neg hnot).trans (hagree x hx)
  have hfilesz' : read32 M.mem (a + 0x10#32) = h.filesz :=
    (header_word hagree' hhead (c := 0x10) (by omega)).trans (congrArg BootSegment.filesz hh)
  have hmemsz' : read32 M.mem (a + 0x14#32) = h.memsz :=
    (header_word hagree' hhead (c := 0x14) (by omega)).trans (congrArg BootSegment.memsz hh)
  unfold loadProgramHeader
  rw [if_neg (not_not.mpr htype)]
  simp only [hoff, hpaddr, hfilesz, hmove, hfilesz', hmemsz']
  split
  · rename_i hge
    have hnone : h.cleared = 0 := if_pos hge
    rw [hnone, Nat.add_zero]
    by_cases hx : InRange x h.paddr (4 * h.moved)
    · exact (if_pos hx).trans (if_pos hx).symm
    · rw [if_neg hx, if_neg hx]
      exact if_neg hx
  · rename_i hgt
    have hsome : h.cleared = rounds (((h.memsz - h.filesz) / 4#32).setWidth 16) := if_neg hgt
    rw [doLoop_eq (by decide), ← hsome, WordFill.iterate _ _ (by omega)]
    have hpart : InRange x (h.paddr + BitVec.ofNat 32 (4 * h.moved)) (4 * h.cleared) ↔
        4 * h.moved ≤ (x - h.paddr).toNat ∧
          (x - h.paddr).toNat < 4 * h.moved + 4 * h.cleared := inRange_part (by omega)
    show (if InRange x (h.paddr + BitVec.ofNat 32 (4 * h.moved)) (4 * h.cleared) then _
      else if InRange x h.paddr (4 * h.moved) then _ else mem x) = _
    by_cases hx : InRange x h.paddr (4 * h.moved)
    · have hlt : (x - h.paddr).toNat < 4 * h.moved := hx
      rw [if_neg (by rw [hpart]; omega), if_pos hx, if_pos hx]
    · have hge : ¬ (x - h.paddr).toNat < 4 * h.moved := hx
      rw [if_neg hx, if_neg hx]
      by_cases hx' : InRange x h.paddr (4 * (h.moved + h.cleared))
      · have hlt : (x - h.paddr).toNat < 4 * (h.moved + h.cleared) := hx'
        rw [if_pos (by rw [hpart]; omega), if_pos hx']
        exact BitVec.extractLsb'_zero
      · have hlt : ¬ (x - h.paddr).toNat < 4 * (h.moved + h.cleared) := hx'
        rw [if_neg (by rw [hpart]; omega), if_neg hx']

/-- The bytes of a target. -/
theorem target_ofNat {k : Nat} (hk : k < h.memsz.toNat) :
    h.Target (h.paddr + BitVec.ofNat 32 k) :=
  inRange_add hk (Nat.lt_trans hk h.memsz.isLt)

/-- What a byte of the target is, by its place in it. -/
theorem BootSegment.placed_eq (h : BootSegment) (m : Mem) {k : Nat} (hk : k < h.memsz.toNat) :
    (if InRange (h.paddr + BitVec.ofNat 32 k) h.paddr (4 * h.moved) then
        m (loadedFile + h.offset + (h.paddr + BitVec.ofNat 32 k - h.paddr))
      else if InRange (h.paddr + BitVec.ofNat 32 k) h.paddr (4 * (h.moved + h.cleared)) then 0#8
      else m (h.paddr + BitVec.ofNat 32 k)) = h.placed m k := by
  have hlt := h.memsz.isLt
  have hsub : h.paddr + BitVec.ofNat 32 k - h.paddr = BitVec.ofNat 32 k := by
    rw [BitVec.add_comm, BitVec.add_sub_cancel]
  have hin : ∀ n, InRange (h.paddr + BitVec.ofNat 32 k) h.paddr n ↔ k < n := by
    intro n
    rw [InRange, hsub, BitVec.toNat_ofNat, Nat.mod_eq_of_lt (by omega)]
  simp only [hin, hsub, BootSegment.placed]

end Header

/-! ### All headers -/

/-- After the first `n` headers: their targets are done, everything else is as it was. -/
structure Placed (m : Mem) (n : Nat) (s : Headers) : Prop where
  ebx : s.ebx = pheaderAddr m n
  targets : ∀ i < n, (segment m i).Load → ∀ k < (segment m i).memsz.toNat,
    s.mem ((segment m i).paddr + BitVec.ofNat 32 k) = (segment m i).placed m k
  others : ∀ x, (∀ i < n, (segment m i).Load → ¬ (segment m i).Target x) → s.mem x = m x

section Dispatch

variable {m : Mem} {len n : Nat} {s : Headers}

/-- The bytes of header `n` are in the file. -/
theorem KernelFile.pheader (hf : KernelFile m len) (hn : n < phnum m) :
    ∀ j < 32, InRange (pheaderAddr m n + BitVec.ofNat 32 j) loadedFile len := by
  intro j hj
  have hfits := hf.fits
  have hend := hf.pheaders n hn
  have hoff : read32 m (loadedFile + 0x1c#32)
      = BitVec.ofNat 32 (read32 m (loadedFile + 0x1c#32)).toNat := by
    rw [BitVec.ofNat_toNat, BitVec.setWidth_eq]
  rw [pheaderAddr, hoff, BitVec.add_assoc, BitVec.add_assoc, ← BitVec.ofNat_add, ← BitVec.ofNat_add]
  exact inRange_add (by omega) (by omega)

/-- The file is as it was. -/
theorem Placed.file (h : Placed m n s) (hf : KernelFile m len) (hn : n ≤ phnum m) {x : BitVec 32}
    (hx : InRange x loadedFile len) : s.mem x = m x :=
  h.others x fun i hi hload ht => hf.outside i (by omega) hload x ht hx

/-- The size of a program header is read again in every round. -/
theorem word16_file {mem : Mem} (hf : KernelFile m len)
    (hagree : ∀ x, InRange x loadedFile len → mem x = m x) :
    word16 mem (loadedFile + 0x2a#32) = word16 m (loadedFile + 0x2a#32) := by
  have hheader := hf.header
  have h₀ : InRange (loadedFile + 0x2a#32) loadedFile len :=
    inRange_add (k := 0x2a) (by omega) (by omega)
  have h₁ : InRange (loadedFile + 0x2a#32 + 1#32) loadedFile len := by
    rw [BitVec.add_assoc]
    exact inRange_add (k := 0x2b) (by omega) (by omega)
  rw [word16, word16, hagree _ h₀, hagree _ h₁]

/-- What the next header does to a byte. -/
theorem Placed.next_byte (h : Placed m n s) (hf : KernelFile m len) (hn : n < phnum m)
    (x : BitVec 32) : s.next.mem x
      = if (segment m n).Load then
          if InRange x (segment m n).paddr (4 * (segment m n).moved) then
            m (loadedFile + (segment m n).offset + (x - (segment m n).paddr))
          else if InRange x (segment m n).paddr
            (4 * ((segment m n).moved + (segment m n).cleared)) then 0#8
          else s.mem x
        else s.mem x := by
  have hagree : ∀ x, InRange x loadedFile len → s.mem x = m x := fun x hx =>
    h.file hf (by omega) hx
  have hhead := hf.pheader hn
  show loadProgramHeader s.mem s.ebx x = _
  rw [h.ebx]
  split
  · rename_i hload
    exact loadProgramHeader_byte hagree hhead hf.fits _ rfl hload (hf.inFile n hn hload)
      (hf.sizes n hn hload) (hf.outside n hn hload) x
  · rename_i hload
    have hzero : pheaderAddr m n + BitVec.ofNat 32 0 = pheaderAddr m n := BitVec.add_zero _
    have htype := header_word hagree hhead (c := 0) (by omega)
    rw [hzero] at htype
    have hne : read32 s.mem (pheaderAddr m n) ≠ 1#32 := by
      rw [htype]
      exact hload
    rw [loadProgramHeader, if_pos hne]

/-- **Step lemma.**  One header more. -/
theorem Placed.next (h : Placed m n s) (hf : KernelFile m len) (hn : n < phnum m) :
    Placed m (n + 1) s.next := by
  have hbyte := h.next_byte hf hn
  -- outside its target the header changes nothing
  have hkeep : ∀ x, ((segment m n).Load → ¬ (segment m n).Target x) → s.next.mem x = s.mem x := by
    intro x hx
    rw [hbyte]
    split
    · rename_i hload
      obtain ⟨h₁, h₂, h₃⟩ := hf.sizes n hn hload
      have hm := moved_le (segment m n)
      have hc := cleared_le h₁ h₂ h₃
      have hnot := hx hload
      unfold BootSegment.Target InRange at hnot
      rw [if_neg (by unfold InRange; omega), if_neg (by unfold InRange; omega)]
    · rfl
  have hothers : ∀ x, (∀ i < n + 1, (segment m i).Load → ¬ (segment m i).Target x) →
      s.next.mem x = m x := by
    intro x hx
    rw [hkeep x (hx n (by omega))]
    exact h.others x fun i hi => hx i (by omega)
  refine ⟨?_, fun i hi hload k hk => ?_, hothers⟩
  · have hsize : word16 s.next.mem (loadedFile + 0x2a#32) = word16 m (loadedFile + 0x2a#32) :=
      word16_file hf fun x hx => hothers x fun i hi hload ht =>
        hf.outside i (by omega) hload x ht hx
    show s.ebx + (word16 s.next.mem (loadedFile + 0x2a#32)).setWidth 32 = _
    rw [h.ebx, hsize, pheaderAddr, pheaderAddr, Nat.mul_succ, BitVec.ofNat_add, ← BitVec.add_assoc,
      BitVec.ofNat_toNat]
  · have htarget := target_ofNat hk
    by_cases hin : i = n
    · subst hin
      have hbefore : s.mem ((segment m i).paddr + BitVec.ofNat 32 k)
          = m ((segment m i).paddr + BitVec.ofNat 32 k) :=
        h.others _ fun j hj hj' => hf.disjoint i hn j (by omega) (by omega) hload hj' _ htarget
      rw [hbyte, if_pos hload, hbefore]
      exact (segment m i).placed_eq m hk
    · have hother := hf.disjoint i (by omega) n hn hin hload
      rw [hkeep _ fun hload' => hother hload' _ htarget]
      exact h.targets i (by omega) hload k hk

/-- **Run lemma.**  All headers. -/
theorem dispatch_placed (hf : KernelFile m len) :
    ∃ s, Placed m (phnum m) s ∧ dispatchElfSections m = s.mem := by
  have hrounds : rounds (word16 m (loadedFile + 0x2c#32)) = phnum m := by
    have := hf.headers
    exact if_neg (show phnum m ≠ 0 by omega)
  have hstart : Placed m 0 ⟨m, loadedFile + read32 m (loadedFile + 0x1c#32)⟩ :=
    ⟨(BitVec.add_zero _).symm, fun _ hi => absurd hi (by omega), fun _ _ => rfl⟩
  have hrun := doLoop_invariant (J := Placed m) (by decide) hstart
    fun k hk s hs => hs.next hf (hrounds ▸ hk)
  rw [hrounds] at hrun
  exact ⟨_, hrun, rfl⟩

/-- A target is right exactly when what the loops leave out is. -/
theorem placed_right_iff (h : BootSegment) (hle : h.filesz.toNat ≤ h.memsz.toNat) :
    (∀ k < h.memsz.toNat, h.placed m k
      = if k < h.filesz.toNat then m (loadedFile + h.offset + BitVec.ofNat 32 k) else 0#8) ↔
      h.Fits m := by
  have hmoved := moved_le h
  constructor
  · refine fun hall => ⟨fun k hk hk' => ?_, fun k hk hk' hk'' => ?_⟩
    · have hbyte := hall k (by omega)
      rw [BootSegment.placed, if_neg (by omega), if_pos hk'] at hbyte
      exact hbyte.symm
    · have hbyte := hall k hk''
      rw [BootSegment.placed, if_neg (by omega), if_neg (by omega), if_neg (by omega)] at hbyte
      exact hbyte
  · intro hfits k hk
    rw [BootSegment.placed]
    by_cases hfile : k < h.filesz.toNat
    · rw [if_pos hfile]
      by_cases hm : k < 4 * h.moved
      · rw [if_pos hm]
      · rw [if_neg hm]
        exact (hfits.bytes k (by omega) hfile).symm
    · rw [if_neg hfile, if_neg (by omega)]
      by_cases hc : k < 4 * (h.moved + h.cleared)
      · rw [if_pos hc]
      · rw [if_neg hc]
        exact hfits.zeros k (by omega) (by omega) hk

/-- **The kernel is relocated** exactly when what the loops leave out of its segments is right
    already. -/
theorem dispatch_relocates_iff (hf : KernelFile m len) :
    Relocated m (dispatchElfSections m) ↔
      ∀ i < phnum m, (segment m i).Load → (segment m i).Fits m := by
  obtain ⟨s, hs, hmem⟩ := dispatch_placed hf
  rw [hmem]
  constructor
  · intro hrel i hi hload
    rw [← placed_right_iff _ (hf.sizes i hi hload).1]
    intro k hk
    rw [← hs.targets i hi hload k hk]
    exact hrel.1 i hi hload k hk
  · refine fun hfits => ⟨fun i hi hload k hk => ?_, hs.others⟩
    rw [hs.targets i hi hload k hk]
    exact (placed_right_iff _ (hf.sizes i hi hload).1).mpr (hfits i hi hload) k hk

end Dispatch

/-! ### A kernel with one segment -/

/-- A kernel of one page, with its bss behind it; all of it is zero.  Other memory is not. -/
def onePage (memsz : BitVec 32) : Mem := fun x =>
  let a := (x - loadedFile).toNat
  if a = 0x1c then 0x34#8
  else if a = 0x2a then 0x20#8
  else if a = 0x2c then 0x01#8
  else if a = 0x34 then 0x01#8
  else if a = 0x39 then 0x10#8
  else if a = 0x42 then 0x10#8
  else if a = 0x45 then 0x10#8
  else if 0x48 ≤ a ∧ a < 0x4c then memsz.extractLsb' (8 * (a - 0x48)) 8
  else if a < 0x2000 then 0x00#8
  else 0xff#8

/-- Its program header, with a small bss and with one of more than 256 KiB. -/
example : segment (onePage 0x2000#32) 0
    = ⟨0x1#32, 0x1000#32, 0x100000#32, 0x1000#32, 0x2000#32⟩ := by decide

theorem onePage_kernelFile {memsz : BitVec 32} (hsize : 0x1000 ≤ memsz.toNat)
    (hmul : memsz.toNat % 4 = 0) (hmax : memsz.toNat ≤ 0x100000)
    (hseg : segment (onePage memsz) 0
      = ⟨0x1#32, 0x1000#32, 0x100000#32, 0x1000#32, memsz⟩)
    (hnum : phnum (onePage memsz) = 1)
    (hoff : (read32 (onePage memsz) (loadedFile + 0x1c#32)).toNat = 0x34) :
    KernelFile (onePage memsz) 0x2000 where
  fits := by decide
  header := by decide
  headers := by omega
  pheaders i hi := by
    obtain rfl : i = 0 := by omega
    rw [hoff]
    omega
  inFile i hi _ := by
    obtain rfl : i = 0 := by omega
    rw [hseg]
    exact Nat.le_refl 0x2000
  sizes i hi _ := by
    obtain rfl : i = 0 := by omega
    rw [hseg]
    have hpage : (0x1000#32 : BitVec 32).toNat % 4 = 0 := by decide
    exact ⟨hsize, hpage, hmul⟩
  outside i hi _ x hx := by
    obtain rfl : i = 0 := by omega
    rw [hseg] at hx
    have htarget : (x - 0x100000#32).toNat < memsz.toNat := hx
    unfold InRange loadedFile
    bv_omega
  disjoint i hi j hj hij := absurd hij (by omega)

/-- A bss of one page is cleared, and the page of the file in place. -/
theorem dispatch_relocates_iff_page :
    KernelFile (onePage 0x2000#32) 0x2000 ∧
      Relocated (onePage 0x2000#32) (dispatchElfSections (onePage 0x2000#32)) := by
  have hseg : segment (onePage 0x2000#32) 0
      = ⟨0x1#32, 0x1000#32, 0x100000#32, 0x1000#32, 0x2000#32⟩ := by decide
  have hnum : phnum (onePage 0x2000#32) = 1 := by decide
  have hf : KernelFile (onePage 0x2000#32) 0x2000 :=
    onePage_kernelFile (by decide) (by decide) (by decide) hseg hnum (by decide)
  refine ⟨hf, (dispatch_relocates_iff hf).mpr fun i hi _ => ?_⟩
  obtain rfl : i = 0 := by omega
  rw [hseg]
  exact small_segment_fits (by decide) (by decide) (by decide) (by decide) (by decide)

/-- **A bss of 260 KiB.**  All but its first page is left as it was. -/
theorem large_bss_not_cleared :
    KernelFile (onePage 0x42000#32) 0x2000 ∧
      ¬ Relocated (onePage 0x42000#32) (dispatchElfSections (onePage 0x42000#32)) := by
  have hseg : segment (onePage 0x42000#32) 0
      = ⟨0x1#32, 0x1000#32, 0x100000#32, 0x1000#32, 0x42000#32⟩ := by decide
  have hf : KernelFile (onePage 0x42000#32) 0x2000 :=
    onePage_kernelFile (by decide) (by decide) (by decide) hseg (by decide) (by decide)
  refine ⟨hf, fun hrel => ?_⟩
  obtain ⟨s, hs, hmem⟩ := dispatch_placed hf
  have hload : (segment (onePage 0x42000#32) 0).Load := by rw [hseg]; rfl
  have hk : 0x2000 < (segment (onePage 0x42000#32) 0).memsz.toNat := by rw [hseg]; decide
  have hzero := hrel.1 0 hf.headers hload 0x2000 hk
  rw [hmem, hs.targets 0 hf.headers hload 0x2000 hk, hseg] at hzero
  exact absurd hzero (by decide)

end Leoman.ElfBoot
