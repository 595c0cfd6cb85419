import Leoman.Lib.Countdown

namespace Leoman.IsoFs

open ByteMem Countdown

/-!
# Files of the boot medium (`boot/isofs.asm`)

The boot loader walks a path through the directories of an ISO 9660 medium and loads the file at
its end, in real mode.  The data segment starts at address zero and has no limit.

* `loadSectors` — a loop that reads one sector and moves it to its place, and decrements the number
  of sectors that are left;
* `searchDirectory` — the search of a directory for one component of the path;
* `findAndLoadFile` — the whole, `foundTheFile` its last part;
* `foundTheFile_covers_iff` — the number of sectors read is enough, and not too much, when the low
  half of the length has a unit of 512 bytes at least, and as many of them, taken for sectors, are
  the length.
-/

/-- The sectors of the medium, which have 2048 bytes. -/
abbrev Drive := BitVec 16 → Nat → BitVec 8

/-- Memory, and the sectors the BIOS was asked for so far. -/
structure Boot where
  mem : Mem
  reads : List (BitVec 16)

/-- The address of an offset in the data segment. -/
def seg (offset : BitVec 16) : BitVec 32 := offset.setWidth 32

/-- A byte of the data segment. -/
def read8 (m : Mem) (p : BitVec 16) : BitVec 8 := m (seg p)

/-- A word of the data segment. -/
def read16 (m : Mem) (p : BitVec 16) : BitVec 16 := m (seg p + 1#32) ++ m (seg p)

/-! ### Sectors -/

/-- `int 13h` with the disk address packet: one sector, to `0x2000`.  A drive that fails halts the
    machine; here it does not. -/
def int13h (drive : Drive) (sector : BitVec 16) (s : Boot) : Boot where
  mem := fun x => if InRange x 0x2000#32 2048 then drive sector (x - 0x2000#32).toNat else s.mem x
  reads := s.reads ++ [sector]

/-- What the loop of `load_sectors` keeps: besides memory, the sector and the destination. -/
structure Loading where
  boot : Boot
  cx : BitVec 16
  edi : BitVec 32

/-- From `.continue` to `dec dx`. -/
def loadSector (drive : Drive) (l : Loading) : Loading :=
  let s := int13h drive l.cx l.boot
  let moved := doLoop WordMove.next 512#16 ⟨s.mem, 0x2000#32, l.edi⟩
  ⟨{ s with mem := moved.mem }, l.cx + 1#16, moved.dst⟩

/-- `load_sectors`. -/
def loadSectors (drive : Drive) (cx dx : BitVec 16) (edi : BitVec 32) (s : Boot) : Boot :=
  (doLoop (loadSector drive) dx ⟨s, cx, edi⟩).boot

/-- `load_directory`. -/
def loadDirectory (drive : Drive) (cx : BitVec 16) (s : Boot) : Boot :=
  loadSectors drive cx 1#16 0x8c00#32 s

/-- `load_file`. -/
def loadFile (drive : Drive) (cx dx : BitVec 16) (s : Boot) : Boot :=
  loadSectors drive cx dx 0x10000#32 s

/-- `load_root_directory`. -/
def loadRootDirectory (drive : Drive) (s : Boot) : Boot :=
  loadDirectory drive (read16 s.mem (0x8400#16 + 156#16 + 2#16)) s

/-- `initialize_isofs_utilities`, which goes on into `load_root_directory`. -/
def initializeIsofsUtilities (drive : Drive) (s : Boot) : Boot :=
  loadRootDirectory drive (loadSectors drive 0x10#16 1#16 0x8400#32 s)

/-! ### Paths -/

/-- Where a comparison of names ends. -/
inductive Compare where
  /-- `.found_the_file`, from within the loop. -/
  | found
  /-- `.checkout_next_file`. -/
  | next
  /-- After the loop. -/
  | matched (bx : BitVec 16)
deriving DecidableEq, Repr

/-- `.compare_filenames`, with so many rounds left; `cx` is zero after `0x10000` at the latest. -/
def compareFilenames (m : Mem) : Nat → BitVec 16 → BitVec 16 → BitVec 16 → Compare
  | 0, _, _, bx => .matched bx
  | n + 1, cx, si, bx =>
    let al := read8 m bx
    let ah := read8 m si
    -- `;`
    if ah = 0x3b#8 then .found
    else if ah ≠ al then .next
    else if cx - 1#16 = 0#16 then .matched (bx + 1#16)
    else compareFilenames m n (cx - 1#16) (si + 1#16) (bx + 1#16)

/-- Where the search of a directory ends. -/
inductive Search where
  /-- `.found_the_file`, with the record at `di`. -/
  | found (di : BitVec 16)
  /-- The record at `di` is the next directory, and the rest of the path is at `bx`. -/
  | descend (di bx : BitVec 16)
  /-- `.file_not_found`. -/
  | notFound
deriving DecidableEq, Repr

/-- `.checkout_file_in_directory`, with so many rounds left. -/
def searchDirectory (m : Mem) (fnamePtr : BitVec 16) : Nat → BitVec 16 → Option Search
  | 0, _ => none
  | n + 1, di =>
    let dx := read16 m (di + 10#16)
    let cl := read8 m (di + 32#16)
    match compareFilenames m 0x10000 (cl.setWidth 16) (di + 33#16) fnamePtr with
    | .found => some (.found di)
    | .matched bx =>
      -- `/`
      if read8 m bx = 0x2f#8 then some (.descend di (bx + 1#16)) else some (.found di)
    | .next =>
      if dx = 0#16 then some .notFound
      else searchDirectory m fnamePtr n (di + (read8 m di).setWidth 16)

/-- `.found_the_file`; the length is returned in `ax`. -/
def foundTheFile (drive : Drive) (di : BitVec 16) (s : Boot) : BitVec 16 × Boot :=
  let dx := read16 s.mem (di + 10#16) / 512#16
  let cx := read16 s.mem (di + 2#16)
  let ax := read16 s.mem (di + 10#16)
  (ax, loadFile drive cx dx s)

/-- The directories of a path, with so many left; the searches have `rounds`. -/
def findAndLoadLoop (drive : Drive) (rounds : Nat) :
    Nat → BitVec 16 → Boot → Option (Option (BitVec 16 × Boot))
  | 0, _, _ => none
  | n + 1, fnamePtr, s =>
    match searchDirectory s.mem fnamePtr rounds 0x8c00#16 with
    | none => none
    | some .notFound => some none
    | some (.found di) => some (some (foundTheFile drive di s))
    | some (.descend di bx) =>
      findAndLoadLoop drive rounds n bx (loadDirectory drive (read16 s.mem (di + 2#16)) s)

/-- `find_and_load_file`: `none` while it has not come to an end, and `some none` for a file that
    is not found. -/
def findAndLoadFile (drive : Drive) (si : BitVec 16) (rounds : Nat) (s : Boot) :
    Option (Option (BitVec 16 × Boot)) :=
  let s := loadRootDirectory drive s
  let fnamePtr := if read8 s.mem si = 0x2f#8 then si + 1#16 else si
  findAndLoadLoop drive rounds rounds fnamePtr s

/-! ### The sectors of a file -/

section Sectors

variable {drive : Drive} {di cx dx : BitVec 16} {edi : BitVec 32} {s : Boot}

/-- Every round of `load_sectors` reads one sector. -/
theorem loadSectors_reads : (loadSectors drive cx dx edi s).reads.length
    = s.reads.length + rounds dx := by
  have hrun : (doLoop (loadSector drive) dx ⟨s, cx, edi⟩).boot.reads.length
      = s.reads.length + rounds dx :=
    doLoop_invariant (J := fun k (l : Loading) => l.boot.reads.length = s.reads.length + k)
      (by decide) rfl fun k _ l hl => by
        show (l.boot.reads ++ [l.cx]).length = _
        rw [List.length_append, hl]
        rfl
  exact hrun

/-- The number of sectors that are read for the record at `di`. -/
def sectorsRead (drive : Drive) (di : BitVec 16) (s : Boot) : Nat :=
  (foundTheFile drive di s).2.reads.length - s.reads.length

/-- A word is the low half of a double word. -/
theorem read16_eq (m : Mem) (p : BitVec 16) : read16 m p = (read32 m (seg p)).setWidth 16 := by
  rw [read16, read32, BitVec.append_assoc]
  exact BitVec.setWidth_append_eq_right.symm

/-- It is the quotient, or the number of values of the counter. -/
theorem sectorsRead_eq {L : Nat} (hlen : read32 s.mem (seg (di + 10#16)) = BitVec.ofNat 32 L) :
    sectorsRead drive di s
      = if L % 0x10000 / 512 = 0 then 0x10000 else L % 0x10000 / 512 := by
  have hquot : (read16 s.mem (di + 10#16) / 512#16).toNat = L % 0x10000 / 512 := by
    rw [read16_eq, hlen, BitVec.toNat_udiv, BitVec.toNat_setWidth, BitVec.toNat_ofNat]
    congr 1
    omega
  rw [sectorsRead, foundTheFile, loadFile, loadSectors_reads, Nat.add_sub_cancel_left, rounds,
    hquot]
  rfl

/-- **The sectors of a file.**  For every length below a megabyte, the sectors read are enough, and
    no more than units of 512 bytes, exactly when the low half of the length is 512 at least and
    its whole units of 512 bytes, taken for sectors, are enough for the file. -/
theorem foundTheFile_covers_iff (drive : Drive) (di : BitVec 16) (s : Boot) {L : Nat} (hpos : 1 ≤ L)
    (hlt : L < 2 ^ 20) (hlen : read32 s.mem (seg (di + 10#16)) = BitVec.ofNat 32 L) :
    ((L + 2047) / 2048 ≤ sectorsRead drive di s ∧ sectorsRead drive di s ≤ (L + 511) / 512) ↔
      512 ≤ L % 0x10000 ∧ L ≤ 2048 * (L % 0x10000 / 512) := by
  rw [sectorsRead_eq hlen]
  split
  · -- more sectors than any such file has
    omega
  · omega

/-- A medium of zeros. -/
def emptyDrive : Drive := fun _ _ => 0#8

/-- A record whose file has `L` bytes. -/
def lengthRecord (L : BitVec 32) : Boot := ⟨write32 (fun _ => 0#8) 0x8c0a#32 L, []⟩

/-- A file of 100000 bytes is covered. -/
theorem foundTheFile_covers_iff_large :
    (100000 + 2047) / 2048 ≤ sectorsRead emptyDrive 0x8c00#16 (lengthRecord 100000#32) ∧
      sectorsRead emptyDrive 0x8c00#16 (lengthRecord 100000#32) ≤ (100000 + 511) / 512 :=
  (foundTheFile_covers_iff emptyDrive 0x8c00#16 (lengthRecord 100000#32) (by decide) (by decide)
    (read32_write32_self _ _ _)).mpr (by decide)

/-- For a file of 511 bytes all values of the counter are gone through. -/
theorem short_file_reads : ¬ ∀ (drive : Drive) (di : BitVec 16) (s : Boot) (L : Nat), 1 ≤ L →
    L < 2 ^ 20 → read32 s.mem (seg (di + 10#16)) = BitVec.ofNat 32 L →
      (L + 2047) / 2048 ≤ sectorsRead drive di s ∧ sectorsRead drive di s ≤ (L + 511) / 512 := by
  intro h
  have hlen : read32 (lengthRecord 511#32).mem (seg (0x8c00#16 + 10#16)) = BitVec.ofNat 32 511 :=
    read32_write32_self _ _ _
  have hle := (h emptyDrive 0x8c00#16 (lengthRecord 511#32) 511 (by decide) (by decide) hlen).2
  rw [sectorsRead_eq hlen] at hle
  exact absurd hle (by decide)

end Sectors

end Leoman.IsoFs
