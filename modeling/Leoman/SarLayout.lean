import Leoman.Sar
import Mathlib.Algebra.BigOperators.Group.List.Basic

namespace Leoman

open ByteMem SparseFile

/-!
# What `sar c` writes

The bytes of an archive, by the files that opened: the records one after the other, from the magic
number on, and the contents where the records say.

* `readable` — the files that open, by name;
* `archiveSize` — how long the archive is to be, without bounds;
* `Layout` — records and contents are where they belong;
* `create_layout` — the archive of an `archiveSize` below `2 ^ 32` has them there.
-/

/-! ### Sizes -/

/-- The files that open: their names and their contents. -/
def readable (fs : List Byte → Option (List Byte)) (paths : List (List Byte)) :
    List (List Byte × List Byte) :=
  paths.filterMap fun path => (fs path).map fun contents => (basename path, contents)

/-- The length of the record of a file with its name. -/
def recordLen (name : List Byte) : Nat := 12 + name.length + 1

/-- Rounded up to pages. -/
def alignedLen (n : Nat) : Nat := (n + 4095) / 4096 * 4096

/-- Where the record of zeros ends. -/
def headersEnd (files : List (List Byte × List Byte)) : Nat :=
  4 + (files.map fun f => recordLen f.1).sum + 12

/-- The length of all contents, each rounded up to pages. -/
def contentsLen (files : List (List Byte × List Byte)) : Nat :=
  (files.map fun f => alignedLen f.2.length).sum

/-- The length of the records of all files named, whether they open or not. -/
def headerSize (paths : List (List Byte)) : Nat :=
  4 + (paths.map fun path => recordLen (basename path)).sum + 12

/-- The length of the archive: up to the end of the contents, or of the records where there are
    none. -/
def archiveSize (fs : List Byte → Option (List Byte)) (paths : List (List Byte)) : Nat :=
  if contentsLen (readable fs paths) = 0 then headersEnd (readable fs paths)
  else alignedLen (headerSize paths) + contentsLen (readable fs paths)

/-! ### Records -/

/-- The record of a file whose contents are at `off`. -/
def sarRecord (off : BitVec 32) (f : List Byte × List Byte) : List Byte :=
  SarFile.bytes ⟨BitVec.ofNat 32 f.2.length, off, BitVec.ofNat 32 (f.1.length + 1)⟩ ++
    (f.1 ++ [0#8])

/-- Where the contents of the next file go. -/
def nextOffset (off : BitVec 32) (f : List Byte × List Byte) : BitVec 32 :=
  off + palign (BitVec.ofNat 32 f.2.length)

/-- The records of files whose contents begin at `off`. -/
def sarRecords : BitVec 32 → List (List Byte × List Byte) → List Byte
  | _, [] => []
  | off, f :: files => sarRecord off f ++ sarRecords (nextOffset off f) files

/-- The files with where their contents go. -/
def placed : BitVec 32 → List (List Byte × List Byte) →
    List (BitVec 32 × (List Byte × List Byte))
  | _, [] => []
  | off, f :: files => (off, f) :: placed (nextOffset off f) files

section Records

variable {off : BitVec 32} {f : List Byte × List Byte} {files files' : List (List Byte × List Byte)}

/-- The length of a record, … -/
theorem sarRecord_length : (sarRecord off f).length = recordLen f.1 := by
  simp [sarRecord, SarFile.bytes, wordBytes, recordLen]
  omega

/-- … and of all of them. -/
theorem sarRecords_length : (sarRecords off files).length
    = (files.map fun f => recordLen f.1).sum := by
  induction files generalizing off with
  | nil => rfl
  | cons f files ih =>
    rw [sarRecords, List.length_append, sarRecord_length, ih]
    simp

/-- Records in two parts: the second part has its contents behind those of the first. -/
theorem sarRecords_append : sarRecords off (files ++ files')
    = sarRecords off files ++ sarRecords (files.foldl nextOffset off) files' := by
  induction files generalizing off with
  | nil => rfl
  | cons f files ih => rw [List.cons_append, sarRecords, sarRecords, ih, List.append_assoc,
      List.foldl_cons]

/-- So have the files that are placed. -/
theorem placed_append : placed off (files ++ files')
    = placed off files ++ placed (files.foldl nextOffset off) files' := by
  induction files generalizing off with
  | nil => rfl
  | cons f files ih => rw [List.cons_append, placed, placed, ih, List.cons_append, List.foldl_cons]

/-- The contents of two parts, … -/
theorem contentsLen_append : contentsLen (files ++ files')
    = contentsLen files + contentsLen files' := by
  simp [contentsLen]

/-- … and of a first file. -/
theorem contentsLen_cons :
    contentsLen (f :: files) = alignedLen f.2.length + contentsLen files := by
  simp [contentsLen]

/-- Where the headers of two parts end. -/
theorem headersEnd_append : headersEnd (files ++ files')
    = headersEnd files + (files'.map fun f => recordLen f.1).sum := by
  simp [headersEnd]
  omega

/-- Aligned contents are not shorter. -/
theorem le_alignedLen (n : Nat) : n ≤ alignedLen n := by
  unfold alignedLen
  omega

/-- `PALIGN` of what is not too near the end of the words. -/
theorem palign_toNat {n : Nat} (hn : alignedLen n < 2 ^ 32) :
    (palign (BitVec.ofNat 32 n)).toNat = alignedLen n := by
  have hle := le_alignedLen n
  have h : palign (BitVec.ofNat 32 n) = palignDown (BitVec.ofNat 32 n + 4095#32) := by
    have hadd : BitVec.ofNat 32 n + 4096#32 - 1#32 = BitVec.ofNat 32 n + 4095#32 := by bv_omega
    exact congrArg palignDown hadd
  unfold alignedLen at hn hle ⊢
  rw [h, palignDown_toNat, BitVec.toNat_add, BitVec.toNat_ofNat, BitVec.toNat_ofNat]
  omega

/-- Contents of length zero. -/
theorem placed_empty (h : contentsLen files = 0) : ∀ x ∈ placed off files, x.2.2 = [] := by
  induction files generalizing off with
  | nil => exact fun x hx => absurd hx (by simp [placed])
  | cons f files ih =>
    rw [contentsLen_cons] at h
    have hle := le_alignedLen f.2.length
    intro x hx
    rcases List.mem_cons.mp hx with rfl | hx
    · have hzero : f.2.length = 0 := by omega
      exact List.length_eq_zero_iff.mp hzero
    · exact ih (by omega) x hx

/-- The next file goes behind the contents so far. -/
theorem nextOffset_toNat (h : off.toNat + contentsLen files < 2 ^ 32) :
    (files.foldl nextOffset off).toNat = off.toNat + contentsLen files := by
  induction files generalizing off with
  | nil => rfl
  | cons f files ih =>
    rw [contentsLen_cons] at h
    have hnext : (nextOffset off f).toNat = off.toNat + alignedLen f.2.length := by
      rw [nextOffset, BitVec.toNat_add, palign_toNat (by omega), Nat.mod_eq_of_lt (by omega)]
    rw [List.foldl_cons, ih (by omega), contentsLen_cons, hnext, Nat.add_assoc]

/-- Contents are where they are to be, one behind the other. -/
theorem placed_bounds (h : off.toNat + contentsLen files < 2 ^ 32) : ∀ x ∈ placed off files,
    off.toNat ≤ x.1.toNat ∧ x.1.toNat + x.2.2.length ≤ off.toNat + contentsLen files := by
  induction files generalizing off with
  | nil => exact fun x hx => absurd hx (by simp [placed])
  | cons f files ih =>
    rw [contentsLen_cons] at h
    have hle := le_alignedLen f.2.length
    have hnext : (nextOffset off f).toNat = off.toNat + alignedLen f.2.length := by
      rw [nextOffset, BitVec.toNat_add, palign_toNat (by omega), Nat.mod_eq_of_lt (by omega)]
    intro x hx
    rw [contentsLen_cons]
    rcases List.mem_cons.mp hx with rfl | hx
    · exact ⟨Nat.le_refl _, by simp only; omega⟩
    · have := ih (by omega) x hx
      omega

end Records

/-! ### The archive -/

/-- Records and contents are where they belong. -/
structure Layout (archive : List Byte) (off : BitVec 32) (files : List (List Byte × List Byte)) :
    Prop where
  head : At archive 0 (wordBytes sarMagic ++ sarRecords off files)
  body : ∀ x ∈ placed off files, At archive x.1.toNat x.2.2

/-- There is room for the records before the contents, and for the contents below `2 ^ 32`; if all
    files are empty it does not matter where their contents go. -/
structure HasRoom (off : BitVec 32) (files : List (List Byte × List Byte)) : Prop where
  head : headersEnd files < 2 ^ 32
  body : contentsLen files ≠ 0 →
    headersEnd files ≤ off.toNat ∧ off.toNat + contentsLen files < 2 ^ 32

/-- The state of `create` once it has written the files. -/
structure Written (off : BitVec 32) (files : List (List Byte × List Byte)) (s : Creation) :
    Prop where
  layout : Layout s.archive off files
  pos : s.pos = 4 + (files.map fun f => recordLen f.1).sum
  addr : s.lastFhdrAddr = BitVec.ofNat 32 s.pos
  next : s.lastFileOffset = files.foldl nextOffset off

section Create

variable {off : BitVec 32} {files files' : List (List Byte × List Byte)} {s : Creation}

/-- Room for all is room for the first ones. -/
theorem HasRoom.left (h : HasRoom off (files ++ files')) : HasRoom off files := by
  obtain ⟨hhead, hbody⟩ := h
  rw [headersEnd_append] at hhead hbody
  rw [contentsLen_append] at hbody
  refine ⟨by omega, fun hne => ?_⟩
  have := hbody (by omega)
  omega

/-- A write before the contents leaves them alone. -/
theorem body_pwrite {archive data : List Byte} {p : Nat}
    (hoff : contentsLen files ≠ 0 →
      p + data.length ≤ off.toNat ∧ off.toNat + contentsLen files < 2 ^ 32)
    (h : ∀ x ∈ placed off files, At archive x.1.toNat x.2.2) :
    ∀ x ∈ placed off files, At (SparseFile.pwrite 0#8 archive data p) x.1.toNat x.2.2 := by
  intro x hx
  by_cases hne : contentsLen files = 0
  · rw [placed_empty hne x hx]
    exact At.nil
  · obtain ⟨hp, hlen⟩ := hoff hne
    have hbounds := placed_bounds hlen x hx
    exact (h x hx).pwrite (Or.inr (by omega))

/-- The buffer of a file: its contents and zeros. -/
def fileBuffer (contents : List Byte) : List Byte :=
  let size := BitVec.ofNat 32 contents.length
  contents.take size.toNat ++ List.replicate (palign size - size).toNat 0#8

/-- **The contents of one more file** go behind those of the others. -/
theorem Layout.contents {archive : List Byte} {f : List Byte × List Byte}
    (hhead : At archive 0 (wordBytes sarMagic ++ sarRecords off (files ++ [f])))
    (hbody : ∀ x ∈ placed off files, At archive x.1.toNat x.2.2)
    (hroom : HasRoom off (files ++ [f])) :
    Layout (SparseFile.pwrite 0#8 archive (fileBuffer f.2) (files.foldl nextOffset off).toNat) off
      (files ++ [f]) := by
  have hplaced : placed off (files ++ [f])
      = placed off files ++ [(files.foldl nextOffset off, f)] :=
    placed_append
  by_cases hempty : f.2 = []
  · -- nothing is written
    have hbuf : fileBuffer f.2 = [] := by
      rw [hempty]
      decide
    rw [hbuf]
    refine ⟨hhead, fun x hx => ?_⟩
    rw [hplaced] at hx
    rcases List.mem_append.mp hx with hx | hx
    · exact hbody x hx
    · obtain rfl := List.mem_singleton.mp hx
      rw [hempty]
      exact At.nil
  · have hpos : 0 < f.2.length := List.length_pos_iff.mpr hempty
    have hle := le_alignedLen f.2.length
    have hsum : contentsLen (files ++ [f]) = contentsLen files + alignedLen f.2.length := by
      rw [contentsLen_append, contentsLen_cons, show contentsLen [] = 0 from rfl, Nat.add_zero]
    obtain ⟨hoff, hlen⟩ := hroom.body (by omega)
    have hnext : (files.foldl nextOffset off).toNat = off.toNat + contentsLen files :=
      nextOffset_toNat (by omega)
    have hsize : (BitVec.ofNat 32 f.2.length).toNat = f.2.length := by
      rw [BitVec.toNat_ofNat, Nat.mod_eq_of_lt (by omega)]
    obtain ⟨zeros, hbuf⟩ : ∃ zeros, fileBuffer f.2 = f.2 ++ zeros := by
      unfold fileBuffer
      simp only [hsize, List.take_length]
      exact ⟨_, rfl⟩
    refine ⟨hhead.pwrite (Or.inl ?_), fun x hx => ?_⟩
    · -- the records end before the contents begin
      have hend : (wordBytes sarMagic ++ sarRecords off (files ++ [f])).length + 12
          = headersEnd (files ++ [f]) := by
        rw [List.length_append, sarRecords_length]
        rfl
      omega
    · rw [hplaced] at hx
      rcases List.mem_append.mp hx with hx | hx
      · have hbounds := placed_bounds (by omega) x hx
        exact (hbody x hx).pwrite (Or.inl (by omega))
      · obtain rfl := List.mem_singleton.mp hx
        rw [hbuf]
        exact pwrite_at.left

/-- **One file**: its record goes behind the others, and its contents behind theirs. -/
theorem Written.addFile {fs : List Byte → Option (List Byte)} {path contents : List Byte}
    (h : Written off files s) (hfs : fs path = some contents)
    (hroom : HasRoom off (files ++ [(basename path, contents)])) :
    Written off (files ++ [(basename path, contents)]) (addFile fs s path) := by
  obtain ⟨⟨hhead, hbody⟩, hpos, haddr, hnext⟩ := h
  have hend : headersEnd (files ++ [(basename path, contents)])
      = s.pos + recordLen (basename path) + 12 := by
    rw [headersEnd_append, hpos]
    simp only [headersEnd, List.map_cons, List.map_nil, List.sum_singleton]
    omega
  have hhd := hroom.head
  rw [hend] at hhd
  have hrec : recordLen (basename path) = 12 + (basename path).length + 1 := rfl
  have hnl : (namelen path).toNat = (basename path).length + 1 := by
    rw [namelen, BitVec.toNat_ofNat, Nat.mod_eq_of_lt (by omega)]
  -- the record, as it is written
  let fhdr : SarFile := ⟨BitVec.ofNat 32 contents.length, s.lastFileOffset, namelen path⟩
  let name := basename path ++ [0#8]
  have hfhdr : fhdr.bytes.length = 12 := rfl
  have hname : (basename path ++ [0#8]).take (namelen path).toNat = name := by
    rw [hnl]
    exact List.take_of_length_le (by simp)
  have hnlen : name.length = (basename path).length + 1 := by simp [name]
  let a₁ := SparseFile.pwrite 0#8 s.archive fhdr.bytes s.pos
  let a₂ := SparseFile.pwrite 0#8 a₁ name (s.pos + 12)
  have hstep : Leoman.addFile fs s path =
      { archive := SparseFile.pwrite 0#8 a₂ (fileBuffer contents) s.lastFileOffset.toNat
        pos := s.pos + 12 + name.length
        lastFileOffset := s.lastFileOffset + palign (BitVec.ofNat 32 contents.length)
        lastFhdrAddr := s.lastFhdrAddr + (sarFileSize + namelen path) } := by
    unfold Leoman.addFile
    rw [hfs]
    simp only [Creation.write, Creation.pwrite, hname]
    rfl
  -- it follows the records so far
  have hlen : (wordBytes sarMagic ++ sarRecords off files).length = s.pos := by
    rw [List.length_append, sarRecords_length, hpos]
    rfl
  have hrecord : At a₂ s.pos (fhdr.bytes ++ name) :=
    At.append (pwrite_at.pwrite (Or.inl (by omega))) (by rw [hfhdr]; exact pwrite_at)
  have hhead₂ :
      At a₂ 0 (wordBytes sarMagic ++ sarRecords off (files ++ [(basename path, contents)])) := by
    have hsame : sarRecord (files.foldl nextOffset off) (basename path, contents)
        = fhdr.bytes ++ name := by
      rw [← hnext]
      rfl
    rw [sarRecords_append, sarRecords, sarRecords, List.append_nil, hsame, ← List.append_assoc]
    refine At.append ((hhead.pwrite (Or.inl (by omega))).pwrite (Or.inl (by omega))) ?_
    rw [hlen, Nat.zero_add]
    exact hrecord
  -- and both are written before the contents
  have hoff : contentsLen files ≠ 0 → s.pos + 12 + name.length ≤ off.toNat ∧
      off.toNat + contentsLen files < 2 ^ 32 := by
    intro hne
    have hroom' := hroom.body (by rw [contentsLen_append]; omega)
    rw [contentsLen_append, hend] at hroom'
    omega
  have hbody₂ : ∀ x ∈ placed off files, At a₂ x.1.toNat x.2.2 := by
    refine body_pwrite (fun hne => hoff hne) (body_pwrite (fun hne => ?_) hbody)
    have := hoff hne
    omega
  rw [hstep]
  refine ⟨?_, ?_, ?_, ?_⟩
  · show Layout (SparseFile.pwrite 0#8 a₂ (fileBuffer contents) s.lastFileOffset.toNat) off _
    rw [hnext]
    exact Layout.contents hhead₂ hbody₂ hroom
  · show s.pos + 12 + name.length = _
    rw [List.map_append, List.sum_append, hpos, hnlen]
    simp only [List.map_cons, List.map_nil, List.sum_singleton, hrec]
    omega
  · show s.lastFhdrAddr + (sarFileSize + namelen path) = BitVec.ofNat 32 (s.pos + 12 + name.length)
    rw [haddr, hnlen, namelen, sarFileSize, ← BitVec.ofNat_add, ← BitVec.ofNat_add, Nat.add_assoc]
  · show s.lastFileOffset + palign (BitVec.ofNat 32 contents.length) = _
    rw [List.foldl_append, hnext]
    rfl

/-- **All files**: those that do not open are passed over. -/
theorem Written.addFiles {fs : List Byte → Option (List Byte)} {paths : List (List Byte)}
    (h : Written off files s) (hroom : HasRoom off (files ++ readable fs paths)) :
    Written off (files ++ readable fs paths) (paths.foldl (Leoman.addFile fs) s) := by
  induction paths generalizing files s with
  | nil =>
    rw [readable, List.filterMap_nil, List.append_nil]
    exact h
  | cons path paths ih =>
    rw [List.foldl_cons]
    cases hfs : fs path with
    | none =>
      have hsame : Leoman.addFile fs s path = s := by
        unfold Leoman.addFile
        rw [hfs]
      have hskip : readable fs (path :: paths) = readable fs paths := by
        simp [readable, hfs]
      rw [hskip] at hroom ⊢
      rw [hsame]
      exact ih h hroom
    | some contents =>
      have htake :
          readable fs (path :: paths) = (basename path, contents) :: readable fs paths := by
        simp [readable, hfs]
      have hassoc : files ++ readable fs (path :: paths)
          = (files ++ [(basename path, contents)]) ++ readable fs paths := by
        rw [htake]
        simp
      rw [hassoc] at hroom ⊢
      exact ih (h.addFile hfs hroom.left) hroom

/-- `total_hdr_size` of what is not too long. -/
theorem totalHdrSize_toNat {paths : List (List Byte)} (h : alignedLen (headerSize paths) < 2 ^ 32) :
    (totalHdrSize paths).toNat = alignedLen (headerSize paths) := by
  have hfold : ∀ (paths : List (List Byte)) (n : Nat),
      paths.foldl (fun n path => n + sarFileSize + namelen path) (BitVec.ofNat 32 n)
        = BitVec.ofNat 32 (n + (paths.map fun path => recordLen (basename path)).sum) := by
    intro paths
    induction paths with
    | nil => exact fun n => rfl
    | cons path paths ih =>
      intro n
      have hstep : BitVec.ofNat 32 n + sarFileSize + namelen path
          = BitVec.ofNat 32 (n + recordLen (basename path)) := by
        rw [sarFileSize, namelen, ← BitVec.ofNat_add, ← BitVec.ofNat_add, Nat.add_assoc,
          ← Nat.add_assoc 12]
        rfl
      rw [List.foldl_cons, hstep, ih, List.map_cons, List.sum_cons, Nat.add_assoc]
  have hsum : paths.foldl (fun n path => n + sarFileSize + namelen path) 0#32 + sarHeaderSize
      + sarFileSize = BitVec.ofNat 32 (headerSize paths) := by
    rw [hfold paths 0, sarHeaderSize, sarFileSize, ← BitVec.ofNat_add, ← BitVec.ofNat_add]
    congr 1
    unfold headerSize
    omega
  show (palign (paths.foldl (fun n path => n + sarFileSize + namelen path) 0#32 + sarHeaderSize
    + sarFileSize)).toNat = _
  rw [hsum, palign_toNat h]

/-- The files that open have fewer records than all that are named. -/
theorem headersEnd_le (fs : List Byte → Option (List Byte)) (paths : List (List Byte)) :
    headersEnd (readable fs paths) ≤ headerSize paths := by
  have hle : ((readable fs paths).map fun f => recordLen f.1).sum
      ≤ (paths.map fun path => recordLen (basename path)).sum := by
    induction paths with
    | nil => exact Nat.le_refl _
    | cons path paths ih =>
      cases hfs : fs path with
      | none =>
        have hskip : readable fs (path :: paths) = readable fs paths := by simp [readable, hfs]
        rw [hskip, List.map_cons, List.sum_cons]
        omega
      | some contents =>
        have htake : readable fs (path :: paths)
            = (basename path, contents) :: readable fs paths := by simp [readable, hfs]
        rw [htake, List.map_cons, List.map_cons, List.sum_cons, List.sum_cons]
        exact Nat.add_le_add_left ih _
  unfold headersEnd headerSize
  omega

/-- An archive that stays below `2 ^ 32` has room. -/
theorem hasRoom_of_size {fs : List Byte → Option (List Byte)} {paths : List (List Byte)}
    (h : archiveSize fs paths < 2 ^ 32) : HasRoom (totalHdrSize paths) (readable fs paths) := by
  have hle := headersEnd_le fs paths
  have hal := le_alignedLen (headerSize paths)
  unfold archiveSize at h
  split at h
  · rename_i hzero
    exact ⟨h, fun hne => absurd hzero hne⟩
  · refine ⟨by omega, fun _ => ?_⟩
    rw [totalHdrSize_toNat (by omega)]
    omega

/-- The magic number comes first. -/
theorem written_start (off : BitVec 32) :
    Written off [] (Creation.write ⟨[], 0, off, sarHeaderSize⟩ (wordBytes sarMagic)) := by
  refine ⟨⟨?_, fun x hx => absurd hx (by simp [placed])⟩, rfl, rfl, rfl⟩
  rw [sarRecords, List.append_nil]
  exact pwrite_at

/-- **The record of zeros** goes behind the others. -/
theorem Written.terminate (h : Written off files s) (hroom : HasRoom off files) :
    Layout (s.pwrite (List.replicate 12 0#8) s.lastFhdrAddr).archive off files ∧
      At (s.pwrite (List.replicate 12 0#8) s.lastFhdrAddr).archive
        (4 + (files.map fun f => recordLen f.1).sum) (List.replicate 12 0#8) := by
  obtain ⟨⟨hhead, hbody⟩, hpos, haddr, -⟩ := h
  have hend : headersEnd files = s.pos + 12 := by
    rw [hpos]
    rfl
  have hlast : s.lastFhdrAddr.toNat = s.pos := by
    have := hroom.head
    rw [haddr, BitVec.toNat_ofNat, Nat.mod_eq_of_lt (by omega)]
  rw [← hpos]
  simp only [Creation.pwrite, hlast]
  refine ⟨⟨?_, ?_⟩, pwrite_at⟩
  · refine hhead.pwrite (Or.inl ?_)
    rw [List.length_append, sarRecords_length, hpos]
    exact Nat.le_of_eq (Nat.zero_add _)
  · refine body_pwrite (fun hne => ?_) hbody
    have := hroom.body hne
    rw [List.length_replicate]
    omega

/-- **The archive**: records, a record of zeros, and contents. -/
theorem create_layout {fs : List Byte → Option (List Byte)} {paths : List (List Byte)}
    (hpaths : paths ≠ []) (hsize : archiveSize fs paths < 2 ^ 32) :
    ∃ archive, create fs paths = some archive ∧
      Layout archive (totalHdrSize paths) (readable fs paths) ∧
      At archive (4 + ((readable fs paths).map fun f => recordLen f.1).sum)
        (List.replicate 12 0#8) := by
  have hroom : HasRoom (totalHdrSize paths) ([] ++ readable fs paths) := hasRoom_of_size hsize
  have hwritten := (written_start (totalHdrSize paths)).addFiles hroom
  refine ⟨_, ?_, hwritten.terminate hroom⟩
  rw [create, if_neg hpaths]

end Create

end Leoman
