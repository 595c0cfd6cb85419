import Leoman.Addr
import Leoman.Lib.ByteMem
import Leoman.Lib.SparseFile

namespace Leoman

open ByteMem SparseFile

/-!
# The archive format (`tools/sar.c`, `kernel/sar.c`)

An archive is a magic number, a record for each file, a record of zeros, and from the next page on
the contents of the files, each from a page on.  A record is the size of the file, where its
contents are, the length of its name, and the name.

* `create` — the tool writes an archive, with a file offset of its own for the records and the
  contents written past it;
* `extract` — the tool reads one back;
* `sarLookup`, `sarGetContents` — the kernel looks up a file by name in an archive in memory.

File input and output and `malloc` succeed here, except that files may not open.
-/

/-- A byte. -/
abbrev Byte := BitVec 8

/-- `struct sar_file`. -/
structure SarFile where
  size : BitVec 32
  offset : BitVec 32
  namelen : BitVec 32
deriving DecidableEq, Repr

/-- The bytes of a word. -/
def wordBytes (x : BitVec 32) : List Byte :=
  [x.extractLsb' 0 8, x.extractLsb' 8 8, x.extractLsb' 16 8, x.extractLsb' 24 8]

/-- The bytes of a record, without the name. -/
def SarFile.bytes (h : SarFile) : List Byte :=
  wordBytes h.size ++ wordBytes h.offset ++ wordBytes h.namelen

/-- `SAR_MAGIC`. -/
def sarMagic : BitVec 32 := 0x52415307#32

/-- `sizeof(struct sar_header)`. -/
def sarHeaderSize : BitVec 32 := 4#32

/-- `sizeof(struct sar_file)`. -/
def sarFileSize : BitVec 32 := 12#32

/-- `PALIGN`. -/
abbrev palign (addr : BitVec 32) : BitVec 32 := palignUp addr

/-! ### The tool -/

/-- `basename`: what follows the last slash, trailing slashes aside. -/
def basename (path : List Byte) : List Byte :=
  if path = [] then [0x2e#8]
  else
    match path.reverse.dropWhile (· = 0x2f#8) with
    | [] => [0x2f#8]
    | rev => (rev.takeWhile (· ≠ 0x2f#8)).reverse

/-- `strlen(basename(path)) + 1`, as a word. -/
def namelen (path : List Byte) : BitVec 32 := BitVec.ofNat 32 ((basename path).length + 1)

/-- The state of `create`: the archive and its file offset, and the two addresses. -/
structure Creation where
  archive : List Byte
  pos : Nat
  lastFileOffset : BitVec 32
  lastFhdrAddr : BitVec 32

/-- `write(archive, data, ..)`. -/
def Creation.write (s : Creation) (data : List Byte) : Creation :=
  { s with archive := pwrite 0#8 s.archive data s.pos, pos := s.pos + data.length }

/-- `pwrite(archive, data, .., offset)`. -/
def Creation.pwrite (s : Creation) (data : List Byte) (offset : BitVec 32) : Creation :=
  { s with archive := SparseFile.pwrite 0#8 s.archive data offset.toNat }

/-- `total_hdr_size`. -/
def totalHdrSize (paths : List (List Byte)) : BitVec 32 :=
  let records := paths.foldl (fun n path => n + sarFileSize + namelen path) 0#32
  palign (records + sarHeaderSize + sarFileSize)

/-- One round of the second loop of `create`.  The file system gives the contents of a file that
    opens; `read` fills a buffer of the aligned size, and the rest of it is zeroed. -/
def addFile (fs : List Byte → Option (List Byte)) (s : Creation) (path : List Byte) : Creation :=
  match fs path with
  | none => s
  | some contents =>
    let fhdr : SarFile :=
      { size := BitVec.ofNat 32 contents.length, offset := s.lastFileOffset
        namelen := namelen path }
    let lastFhdrAddr := s.lastFhdrAddr + (sarFileSize + fhdr.namelen)
    let buf := contents.take fhdr.size.toNat ++
      List.replicate (palign fhdr.size - fhdr.size).toNat 0#8
    let s := s.write fhdr.bytes
    let s := s.write ((basename path ++ [0#8]).take fhdr.namelen.toNat)
    let s := s.pwrite buf s.lastFileOffset
    { s with lastFileOffset := s.lastFileOffset + palign fhdr.size, lastFhdrAddr := lastFhdrAddr }

/-- `create`: the archive it writes.  It wants one file at least. -/
def create (fs : List Byte → Option (List Byte)) (paths : List (List Byte)) :
    Option (List Byte) :=
  if paths = [] then none
  else
    let s : Creation := ⟨[], 0, totalHdrSize paths, sarHeaderSize⟩
    let s := s.write (wordBytes sarMagic)
    let s := paths.foldl (addFile fs) s
    let s := s.pwrite (List.replicate 12 0#8) s.lastFhdrAddr
    some s.archive

/-- Read a word of the archive.  Past its end there is nothing to read. -/
def readWord (buf : List Byte) (p : Nat) : Option (BitVec 32) := do
  let b₀ ← buf[p]?
  let b₁ ← buf[p + 1]?
  let b₂ ← buf[p + 2]?
  let b₃ ← buf[p + 3]?
  return b₃ ++ b₂ ++ b₁ ++ b₀

/-- Read a record. -/
def readSarFile (buf : List Byte) (p : Nat) : Option SarFile := do
  let size ← readWord buf p
  let offset ← readWord buf (p + 4)
  let namelen ← readWord buf (p + 8)
  return ⟨size, offset, namelen⟩

/-- The string at the start of the bytes: up to a NUL. -/
def cString : List Byte → Option (List Byte)
  | [] => none
  | b :: bs => if b = 0#8 then some [] else (cString bs).map (b :: ·)

/-- The bytes `write` takes from the buffer. -/
def readSlice (buf : List Byte) (offset size : Nat) : Option (List Byte) :=
  if size = 0 ∨ offset + size ≤ buf.length then some ((buf.drop offset).take size) else none

/-- A directory: the contents of the files in it, by name. -/
abbrev Directory := List Byte → Option (List Byte)

/-- The loop of `extract` with `n` rounds left, at the record at `p`. -/
def extractLoop (buf : List Byte) : Nat → Nat → Directory → Option Directory
  | 0, _, _ => none
  | n + 1, p, dir => do
    let fhdr ← readSarFile buf p
    if fhdr.size ||| fhdr.offset ||| fhdr.namelen = 0#32 then return dir
    else do
      let fname ← cString (buf.drop (p + 12))
      let contents ← readSlice buf fhdr.offset.toNat fhdr.size.toNat
      extractLoop buf n (p + 12 + fhdr.namelen.toNat) (Function.update dir fname (some contents))

/-- `extract` of one archive into a directory.  A record has 12 bytes at least, so that more rounds
    than the archive has bytes are never made. -/
def extract (archive : List Byte) (dir : Directory) : Option Directory :=
  extractLoop archive (archive.length + 1) 4 dir

/-! ### The kernel -/

/-- `strcmp` with `n` rounds left. -/
def strcmp (mem : Mem) : Nat → BitVec 32 → BitVec 32 → Option Int
  | 0, _, _ => none
  | n + 1, s₁, s₂ =>
    if mem s₁ = mem s₂ then
      if mem s₁ = 0#8 then some 0 else strcmp mem n (s₁ + 1#32) (s₂ + 1#32)
    else some ((mem s₁).toNat - (mem s₂).toNat)

/-- The fields of the record at an address. -/
def sarFileAt (mem : Mem) (fhdr : BitVec 32) : SarFile :=
  ⟨read32 mem fhdr, read32 mem (fhdr + 4#32), read32 mem (fhdr + 8#32)⟩

/-- The loop of `sar_lookup` with `n` rounds left; the inner option is the pointer it returns. -/
def sarLookupLoop (mem : Mem) (fname : BitVec 32) (rounds : Nat) :
    Nat → BitVec 32 → Option (Option (BitVec 32))
  | 0, _ => none
  | n + 1, fhdr =>
    let h := sarFileAt mem fhdr
    if h.size ||| h.offset ||| h.namelen = 0#32 then some none
    else
      match strcmp mem rounds (fhdr + sarFileSize) fname with
      | none => none
      | some c =>
        if c = 0 then some (some fhdr)
        else sarLookupLoop mem fname rounds n (fhdr + sarFileSize + h.namelen)

/-- `sar_lookup`, with as many rounds of each loop. -/
def sarLookup (mem : Mem) (file fname : BitVec 32) (rounds : Nat) : Option (Option (BitVec 32)) :=
  sarLookupLoop mem fname rounds rounds (file + sarHeaderSize)

/-- `sar_get_contents`. -/
def sarGetContents (mem : Mem) (file fname : BitVec 32) (rounds : Nat) :
    Option (Option (BitVec 32)) :=
  (sarLookup mem file fname rounds).map fun found =>
    found.map fun fhdr => file + (sarFileAt mem fhdr).offset

end Leoman
