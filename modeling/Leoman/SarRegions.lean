import Leoman.SarRoundTrip
import Mathlib.Data.List.TakeWhile

namespace Leoman

open ByteMem SparseFile

/-!
# Where `sar c` puts things

The first loop of `create` counts the records of all files named, the second one writes those of the
files that open.  What keeps the two together is that the records written end before the first
contents, and that contents follow each other without wrapping round; the second is a fact about the
length of the archive alone.

* `createEach` — `create`, with what comes of each file in turn;
* `LaidOut` — records and regions of an archive, as readers rely on them;
* `Written.addEach` — the run over the files, of an archive that stays below `2 ^ 32` bytes;
* `createEach_laidOut` — such an archive is laid out, if its records are below `2 ^ 32` bytes too;
* `headerSize_le_length` — they are, if all files open.
-/

/-! ### The files named -/

/-- `create`, where every file named comes with its contents, if it can be opened.  The files that
    have been read are not closed, so that a file named twice may open once and not again. -/
def createEach (named : List (List Byte × Option (List Byte))) : Option (List Byte) :=
  if named = [] then none
  else
    let s : Creation := ⟨[], 0, totalHdrSize (named.map Prod.fst), sarHeaderSize⟩
    let s := s.write (wordBytes sarMagic)
    let s := named.foldl (fun s f => addFile (fun _ => f.2) s f.1) s
    let s := s.pwrite (List.replicate 12 0#8) s.lastFhdrAddr
    some s.archive

/-- With the same outcome whenever a file is named it is `create`. -/
theorem create_eq_createEach (fs : List Byte → Option (List Byte)) (paths : List (List Byte)) :
    create fs paths = createEach (paths.map fun path => (path, fs path)) := by
  have hstep : addFile fs = fun s path => addFile (fun _ => fs path) s path := rfl
  unfold create createEach
  by_cases hpaths : paths = []
  · rw [if_pos hpaths, hpaths, List.map_nil, if_pos rfl]
  · have hnamed : (paths.map fun path => (path, fs path)) ≠ [] := fun h =>
      hpaths (List.map_eq_nil_iff.mp h)
    have hfst : (paths.map fun path => (path, fs path)).map Prod.fst = paths := by
      rw [List.map_map]
      exact List.map_id paths
    rw [if_neg hpaths, if_neg hnamed, hfst]
    simp only [List.foldl_map, hstep]

/-- The part of the contents that the size in the record counts. -/
def counted (contents : List Byte) : List Byte :=
  contents.take (BitVec.ofNat 32 contents.length).toNat

/-- The files that open, in the order they are named. -/
def opened (named : List (List Byte × Option (List Byte))) : List (List Byte × List Byte) :=
  named.filterMap fun f => f.2.map fun contents => (basename f.1, counted contents)

/-- Records and regions: the records stand one behind the other from byte 4 on, before the one of
    zeros and before the first contents; contents begin at pages, and end before the next ones. -/
structure LaidOut (archive : List Byte) (records : List (SarFile × List Byte)) : Prop where
  contiguous : At archive 4 (records.flatMap (fun r => r.1.bytes ++ r.2) ++ List.replicate 12 0#8)
  names : ∀ r ∈ records, r.1.namelen.toNat = r.2.length
  aligned : ∀ r ∈ records, 4096 ∣ r.1.offset.toNat
  before : ∀ r ∈ records.head?,
    4 + (records.flatMap fun r => r.1.bytes ++ r.2).length + 12 ≤ r.1.offset.toNat
  regions : records.Pairwise fun r r' =>
    r.1.offset.toNat + alignedLen r.1.size.toNat ≤ r'.1.offset.toNat
  nonzero : ∀ r ∈ records, r.1.bytes ≠ List.replicate 12 0#8

/-- The sizes and names in the records are those of the files that open. -/
def RecordsOf (named : List (List Byte × Option (List Byte)))
    (records : List (SarFile × List Byte)) :
    Prop :=
  records.map (fun r => (r.1.size, r.2))
    = (opened named).map fun f => (BitVec.ofNat 32 f.2.length, f.1 ++ [0#8])

/-! ### Lengths -/

section Lengths

variable {contents path : List Byte} {s : Creation}

/-- What `sar` counts of a file, by its 32-bit size. -/
theorem counted_length : (counted contents).length = contents.length % 2 ^ 32 := by
  have hle := Nat.mod_le contents.length (2 ^ 32)
  rw [counted, List.length_take, BitVec.toNat_ofNat]
  omega

/-- The tool takes no more of a file than it counts. -/
theorem addFile_counted (contents path : List Byte) (s : Creation) :
    addFile (fun _ => some contents) s path =
      addFile (fun _ => some (counted contents)) s path := by
  have hsize : BitVec.ofNat 32 (counted contents).length = BitVec.ofNat 32 contents.length := by
    apply BitVec.eq_of_toNat_eq
    rw [counted_length, BitVec.toNat_ofNat, BitVec.toNat_ofNat, Nat.mod_mod]
  have htake : (counted contents).take (BitVec.ofNat 32 contents.length).toNat
      = contents.take (BitVec.ofNat 32 contents.length).toNat := by
    rw [counted, List.take_take, Nat.min_self]
  unfold addFile
  simp only [hsize, htake]

/-- The buffer of a file takes up whole pages. -/
theorem fileBuffer_length (h : contents.length < 2 ^ 32) :
    (fileBuffer contents).length = alignedLen contents.length := by
  have halign : (palign (BitVec.ofNat 32 contents.length)).toNat
      = alignedLen contents.length % 2 ^ 32 := by
    have hdown : palign (BitVec.ofNat 32 contents.length)
        = palignDown (BitVec.ofNat 32 contents.length + 4095#32) := by
      have hadd : BitVec.ofNat 32 contents.length + 4096#32 - 1#32
          = BitVec.ofNat 32 contents.length + 4095#32 := by bv_omega
      exact congrArg palignDown hadd
    unfold alignedLen
    rw [hdown, palignDown_toNat, BitVec.toNat_add, BitVec.toNat_ofNat, BitVec.toNat_ofNat]
    omega
  have hle := le_alignedLen contents.length
  have hpad : (2 ^ 32 - contents.length + alignedLen contents.length % 2 ^ 32) % 2 ^ 32
      = alignedLen contents.length - contents.length := by
    have hend : alignedLen contents.length ≤ 2 ^ 32 := by
      unfold alignedLen
      omega
    rcases Nat.lt_or_eq_of_le hend with hlt | heq
    · rw [Nat.mod_eq_of_lt hlt]
      omega
    · -- the aligned size is no word, and the rest up to it is as long as without the carry
      have hpos : 0 < contents.length := by
        apply Nat.pos_of_ne_zero
        intro hzero
        rw [hzero] at heq
        exact absurd heq (by decide)
      rw [heq]
      omega
  unfold fileBuffer
  rw [List.length_append, List.length_take, List.length_replicate, BitVec.toNat_sub, halign,
    BitVec.toNat_ofNat, Nat.mod_eq_of_lt h, Nat.min_self, hpad]
  omega

/-- The archive only grows. -/
theorem Creation.length_le_write (s : Creation) (data : List Byte) :
    s.archive.length ≤ (s.write data).archive.length := length_le_pwrite

/-- A write makes no file shorter: not at an offset, … -/
theorem Creation.length_le_pwrite (s : Creation) (data : List Byte) (offset : BitVec 32) :
    s.archive.length ≤ (s.pwrite data offset).archive.length := SparseFile.length_le_pwrite

/-- … not those for one file … -/
theorem length_le_addFile {fs : List Byte → Option (List Byte)} :
    s.archive.length ≤ (addFile fs s path).archive.length := by
  unfold addFile
  split
  · exact Nat.le_refl _
  · apply Nat.le_trans _ length_le_pwrite
    exact Nat.le_trans (s.length_le_write _) (Creation.length_le_write _ _)

/-- … and not those for all. -/
theorem length_le_addEach {named : List (List Byte × Option (List Byte))} : s.archive.length
    ≤ (named.foldl (fun s f => addFile (fun _ => f.2) s f.1) s).archive.length := by
  induction named generalizing s with
  | nil => exact Nat.le_refl _
  | cons f named ih => exact Nat.le_trans length_le_addFile ih

/-- A write within a length leaves the file within it: at the end, … -/
theorem Creation.length_write_le {data : List Byte} {n : Nat} (hs : s.archive.length ≤ n)
    (hdata : s.pos + data.length ≤ n) : (s.write data).archive.length ≤ n :=
  SparseFile.length_pwrite_le hs hdata

/-- … and at an offset. -/
theorem Creation.length_pwrite_le {data : List Byte} {offset : BitVec 32} {n : Nat}
    (hs : s.archive.length ≤ n) (hdata : offset.toNat + data.length ≤ n) :
    (s.pwrite data offset).archive.length ≤ n :=
  SparseFile.length_pwrite_le hs hdata

/-- With a file more it reaches to the end of the record, or to that of the contents. -/
theorem length_addFile_le {n : Nat} (h : contents.length < 2 ^ 32) (hs : s.archive.length ≤ n)
    (hrecord : s.pos + recordLen (basename path) ≤ n)
    (hbody : s.lastFileOffset.toNat + alignedLen contents.length ≤ n) :
    (addFile (fun _ => some contents) s path).archive.length ≤ n := by
  rw [← fileBuffer_length h] at hbody
  unfold recordLen at hrecord
  have hname : ((basename path ++ [0#8]).take (namelen path).toNat).length
      ≤ (basename path).length + 1 := by
    rw [List.length_take, List.length_append]
    exact Nat.min_le_right _ _
  refine Creation.length_pwrite_le (Creation.length_write_le (Creation.length_write_le hs ?_) ?_)
    hbody
  · show s.pos + 12 ≤ n
    omega
  · apply Nat.le_trans (Nat.add_le_add_left hname _)
    show s.pos + 12 + _ ≤ n
    omega

/-- The archive reaches to the end of what was written. -/
theorem Creation.end_le_write (s : Creation) {data : List Byte} (hne : data ≠ []) :
    s.pos + data.length ≤ (s.write data).archive.length :=
  At.length_le pwrite_at hne

/-- What was written is in the file. -/
theorem Creation.end_le_pwrite (s : Creation) {data : List Byte} (hne : data ≠ [])
    (offset : BitVec 32) : offset.toNat + data.length ≤ (s.pwrite data offset).archive.length :=
  At.length_le pwrite_at hne

/-- It holds the contents just written. -/
theorem length_of_addFile (h : contents.length < 2 ^ 32) (hne : contents ≠ []) :
    s.lastFileOffset.toNat + alignedLen contents.length
      ≤ (addFile (fun _ => some contents) s path).archive.length := by
  have hpos : 0 < contents.length := List.length_pos_iff.mpr hne
  have hle := le_alignedLen contents.length
  have hbuf : fileBuffer contents ≠ [] := by
    apply List.ne_nil_of_length_pos
    rw [fileBuffer_length h]
    omega
  rw [← fileBuffer_length h]
  exact At.length_le pwrite_at hbuf

end Lengths

/-! ### The run over the files -/

section Run

variable {off : BitVec 32} {files : List (List Byte × List Byte)} {s : Creation}
  {named : List (List Byte × Option (List Byte))}

/-- Contents that follow each other do not wrap round. -/
theorem HasRoom.end_lt (h : HasRoom off files) : off.toNat + contentsLen files < 2 ^ 32 := by
  have hoff := off.isLt
  have hbody := h.body
  omega

/-- **One file more has room**, if its record is before the contents and the archive is not too
    long. -/
theorem Written.room {path contents : List Byte} (h : Written off files s)
    (hroom : HasRoom off files) (hsize : contents.length < 2 ^ 32)
    (hhead : headersEnd (files ++ [(basename path, contents)]) ≤ off.toNat)
    (hlen : (Leoman.addFile (fun _ => some contents) s path).archive.length < 2 ^ 32) :
    HasRoom off (files ++ [(basename path, contents)]) := by
  have hoff := off.isLt
  have hend := hroom.end_lt
  have hnext : s.lastFileOffset.toNat = off.toNat + contentsLen files := by
    rw [h.next, nextOffset_toNat hend]
  have hsum : contentsLen (files ++ [(basename path, contents)])
      = contentsLen files + alignedLen contents.length := by
    rw [contentsLen_append]
    simp [contentsLen]
  refine ⟨by omega, fun _ => ⟨hhead, ?_⟩⟩
  rw [hsum]
  by_cases hempty : contents = []
  · -- no contents are written
    have hzero : alignedLen contents.length = 0 := by
      rw [hempty]
      rfl
    omega
  · have hthis : s.lastFileOffset.toNat + alignedLen contents.length
        ≤ (Leoman.addFile (fun _ => some contents) s path).archive.length :=
      length_of_addFile hsize hempty
    omega

/-- **Run lemma.**  What the second loop of `create` has written, when the archive does not get too
    long. -/
theorem Written.addEach (h : Written off files s) (hroom : HasRoom off files)
    (hhead : opened named ≠ [] → headersEnd (files ++ opened named) ≤ off.toNat)
    (hlen : (named.foldl (fun s f => Leoman.addFile (fun _ => f.2) s f.1) s).archive.length
      < 2 ^ 32) :
    Written off (files ++ opened named)
        (named.foldl (fun s f => Leoman.addFile (fun _ => f.2) s f.1) s) ∧
      HasRoom off (files ++ opened named) := by
  induction named generalizing files s with
  | nil =>
    rw [opened, List.filterMap_nil, List.append_nil]
    exact ⟨h, hroom⟩
  | cons f named ih =>
    obtain ⟨path, outcome⟩ := f
    rw [List.foldl_cons] at hlen ⊢
    cases outcome with
    | none => exact ih h hroom hhead hlen
    | some contents =>
      have hopened : opened ((path, some contents) :: named)
          = (basename path, counted contents) :: opened named := rfl
      have hassoc : files ++ opened ((path, some contents) :: named)
          = (files ++ [(basename path, counted contents)]) ++ opened named := by
        rw [hopened, List.append_cons]
      have hsize : (counted contents).length < 2 ^ 32 := by
        rw [counted_length]
        exact Nat.mod_lt _ (by decide)
      have hhead' := hhead (by rw [hopened]; exact List.cons_ne_nil _ _)
      rw [hassoc] at hhead' ⊢
      rw [addFile_counted contents path s] at hlen ⊢
      -- the archive of this file is no longer than that of all
      have hone := Nat.lt_of_le_of_lt length_le_addEach hlen
      have hthis : headersEnd (files ++ [(basename path, counted contents)]) ≤ off.toNat := by
        rw [headersEnd_append] at hhead'
        omega
      have hroom' := h.room hroom hsize hthis hone
      exact ih (h.addFile rfl hroom') hroom' (fun _ => hhead') hlen

end Run

/-! ### Records and regions -/

/-- The records of the files, with their names. -/
def recordsFrom (off : BitVec 32) (files : List (List Byte × List Byte)) :
    List (SarFile × List Byte) :=
  (placed off files).map fun x => (sarFileOf x.1 x.2, x.2.1 ++ [0#8])

section Regions

variable {off : BitVec 32} {files : List (List Byte × List Byte)} {archive : List Byte}

/-- A header is told by its bytes. -/
theorem SarFile.bytes_inj {h h' : SarFile} (heq : h.bytes = h'.bytes) : h = h' := by
  have hat : At h.bytes 0 h.bytes := fun i _ => by rw [Nat.zero_add]
  have hread := readSarFile_of_at hat
  rw [heq] at hat hread
  rw [readSarFile_of_at hat] at hread
  exact (Option.some.inj hread).symm

/-- They are the records that are written. -/
theorem flatMap_recordsFrom :
    (recordsFrom off files).flatMap (fun r => r.1.bytes ++ r.2) = sarRecords off files := by
  induction files generalizing off with
  | nil => rfl
  | cons f files ih =>
    have htail : (recordsFrom (nextOffset off f) files).flatMap (fun r => r.1.bytes ++ r.2)
        = sarRecords (nextOffset off f) files := ih
    rw [sarRecords, ← htail]
    rfl

/-- The sizes and the names of the records are those of the files. -/
theorem recordsFrom_sizes : (recordsFrom off files).map (fun r => (r.1.size, r.2))
    = files.map fun f => (BitVec.ofNat 32 f.2.length, f.1 ++ [0#8]) := by
  induction files generalizing off with
  | nil => rfl
  | cons f files ih =>
    have htail : (recordsFrom (nextOffset off f) files).map (fun r => (r.1.size, r.2))
        = files.map fun f => (BitVec.ofNat 32 f.2.length, f.1 ++ [0#8]) := ih
    rw [List.map_cons, ← htail]
    rfl

/-- The regions are those of the files. -/
theorem placed_files (off : BitVec 32) (files : List (List Byte × List Byte)) :
    (placed off files).map Prod.snd = files := by
  induction files generalizing off with
  | nil => rfl
  | cons f files ih => rw [placed, List.map_cons, ih]

/-- Every region begins at a page, and not before the first. -/
theorem placed_aligned (hoff : 4096 ∣ off.toNat) (hend : off.toNat + contentsLen files < 2 ^ 32) :
    ∀ x ∈ placed off files, 4096 ∣ x.1.toNat := by
  induction files generalizing off with
  | nil => exact fun x hx => absurd hx List.not_mem_nil
  | cons f files ih =>
    rw [contentsLen_cons] at hend
    have hnext : (nextOffset off f).toNat = off.toNat + alignedLen f.2.length := by
      rw [nextOffset, BitVec.toNat_add, palign_toNat (by omega), Nat.mod_eq_of_lt (by omega)]
    have hpages : 4096 ∣ alignedLen f.2.length := Nat.dvd_mul_left _ _
    intro x hx
    rcases List.mem_cons.mp hx with rfl | hx
    · exact hoff
    · exact ih (hnext ▸ Nat.dvd_add hoff hpages) (by omega) x hx

/-- Every region ends before the next one. -/
theorem placed_regions (hend : off.toNat + contentsLen files < 2 ^ 32) :
    (placed off files).Pairwise fun x y => x.1.toNat + alignedLen x.2.2.length ≤ y.1.toNat := by
  induction files generalizing off with
  | nil => exact List.Pairwise.nil
  | cons f files ih =>
    rw [contentsLen_cons] at hend
    have hnext : (nextOffset off f).toNat = off.toNat + alignedLen f.2.length := by
      rw [nextOffset, BitVec.toNat_add, palign_toNat (by omega), Nat.mod_eq_of_lt (by omega)]
    refine List.Pairwise.cons (fun y hy => ?_) (ih (by omega))
    have hfirst := (placed_bounds (by omega) y hy).1
    rw [hnext] at hfirst
    exact hfirst

/-- **An archive with records and contents in their places is laid out.** -/
theorem Layout.laidOut (hlay : Layout archive off files)
    (hzeros : At archive (4 + (files.map fun f => recordLen f.1).sum) (List.replicate 12 0#8))
    (hroom : HasRoom off files) (hoff : 4096 ∣ off.toNat)
    (hhead : files ≠ [] → headersEnd files ≤ off.toNat) :
    LaidOut archive (recordsFrom off files) := by
  have hend := hroom.end_lt
  have hfits : ∀ x ∈ placed off files, FieldsFit x.2 := by
    intro x hx
    apply hroom.fits
    rw [← placed_files off files]
    exact List.mem_map_of_mem hx
  refine ⟨?_, ?_, ?_, ?_, ?_, ?_⟩
  · rw [flatMap_recordsFrom]
    apply At.append (hlay.head.right (d := wordBytes sarMagic))
    rw [sarRecords_length]
    exact hzeros
  · intro r hr
    obtain ⟨x, hx, rfl⟩ := List.mem_map.mp hr
    have hname := (hfits x hx).1
    simp only [sarFileOf, BitVec.toNat_ofNat, List.length_append, List.length_singleton]
    exact Nat.mod_eq_of_lt hname
  · intro r hr
    obtain ⟨x, hx, rfl⟩ := List.mem_map.mp hr
    exact placed_aligned hoff hend x hx
  · rw [flatMap_recordsFrom, sarRecords_length]
    intro r hr
    cases files with
    | nil => cases hr
    | cons f files =>
      -- the first contents begin where the records were to end
      cases hr
      exact hhead (List.cons_ne_nil _ _)
  · rw [recordsFrom, List.pairwise_map]
    refine (placed_regions hend).imp_of_mem fun {x y} hx _ hxy => ?_
    have hsize := (hfits x hx).2
    simp only [sarFileOf, BitVec.toNat_ofNat, Nat.mod_eq_of_lt hsize]
    exact hxy
  · intro r hr hzero
    obtain ⟨x, hx, rfl⟩ := List.mem_map.mp hr
    have hnone : sarFileOf x.1 x.2 = ⟨0#32, 0#32, 0#32⟩ := SarFile.bytes_inj hzero
    have hfields := @sarFileOf_ne_zero x.1 x.2 (hfits x hx)
    rw [hnone] at hfields
    exact hfields rfl

end Regions

/-! ### What `create` writes -/

/-- The files that open have fewer records than all that are named. -/
theorem headersEnd_opened_le (named : List (List Byte × Option (List Byte))) :
    headersEnd (opened named) ≤ headerSize (named.map Prod.fst) := by
  have hle : ((opened named).map fun f => recordLen f.1).sum
      ≤ ((named.map Prod.fst).map fun path => recordLen (basename path)).sum := by
    induction named with
    | nil => exact Nat.le_refl _
    | cons f named ih =>
      obtain ⟨path, outcome⟩ := f
      rw [List.map_cons, List.map_cons, List.sum_cons]
      cases outcome with
      | none => exact Nat.le_add_left_of_le ih
      | some contents => exact Nat.add_le_add_left ih _
  unfold headersEnd headerSize
  omega

/-! ### Where the records end -/

section Positions

variable {named : List (List Byte × Option (List Byte))} {archive path contents : List Byte}
  {s : Creation}

/-- Every file named opens, and its base name fits in a record. -/
def AllOpen (named : List (List Byte × Option (List Byte))) : Prop :=
  ∀ f ∈ named, f.2 ≠ none ∧ (basename f.1).length + 1 < 2 ^ 32

/-- The next record goes to the file offset, and the archive reaches to there. -/
structure AtEnd (s : Creation) : Prop where
  addr : s.lastFhdrAddr = BitVec.ofNat 32 s.pos
  written : s.pos ≤ s.archive.length

/-- A file takes its record on. -/
theorem AtEnd.addFile (h : AtEnd s) (contents : List Byte)
    (hname : (basename path).length + 1 < 2 ^ 32) :
    (Leoman.addFile (fun _ => some contents) s path).pos = s.pos + recordLen (basename path) ∧
      AtEnd (Leoman.addFile (fun _ => some contents) s path) := by
  have htake : (basename path ++ [0#8]).take (namelen path).toNat = basename path ++ [0#8] := by
    rw [namelen, BitVec.toNat_ofNat, Nat.mod_eq_of_lt hname]
    exact List.take_of_length_le (by simp)
  let fhdr : SarFile := ⟨BitVec.ofNat 32 contents.length, s.lastFileOffset, namelen path⟩
  let record := (s.write fhdr.bytes).write (basename path ++ [0#8])
  have hpos : record.pos = s.pos + recordLen (basename path) := by
    show s.pos + 12 + (basename path ++ [0#8]).length = _
    rw [List.length_append, recordLen]
    exact Nat.add_assoc _ _ _
  -- the record is written at the file offset, and the contents elsewhere
  have hstep : Leoman.addFile (fun _ => some contents) s path =
      { record.pwrite (fileBuffer contents) s.lastFileOffset with
        lastFileOffset := s.lastFileOffset + palign fhdr.size
        lastFhdrAddr := s.lastFhdrAddr + (sarFileSize + namelen path) } := by
    simp only [Leoman.addFile, htake]
    rfl
  rw [hstep]
  refine ⟨hpos, ?_, ?_⟩
  · show s.lastFhdrAddr + (sarFileSize + namelen path) = BitVec.ofNat 32 record.pos
    rw [hpos, h.addr, BitVec.ofNat_add, recordLen, Nat.add_assoc, BitVec.ofNat_add 12]
    rfl
  · -- the name ends with a byte, so it is written
    have hend : record.pos ≤ record.archive.length :=
      (s.write fhdr.bytes).end_le_write (by simp)
    exact Nat.le_trans hend (record.length_le_pwrite _ _)

/-- **The records of all files.** -/
theorem AtEnd.addEach (h : AtEnd s) (hopen : AllOpen named) :
    (named.foldl (fun s f => Leoman.addFile (fun _ => f.2) s f.1) s).pos
        = s.pos + (named.map fun f => recordLen (basename f.1)).sum ∧
      AtEnd (named.foldl (fun s f => Leoman.addFile (fun _ => f.2) s f.1) s) := by
  induction named generalizing s with
  | nil => exact ⟨rfl, h⟩
  | cons f named ih =>
    obtain ⟨path, outcome⟩ := f
    obtain ⟨hsome, hname⟩ := hopen _ List.mem_cons_self
    obtain ⟨contents, rfl⟩ := Option.ne_none_iff_exists'.mp hsome
    obtain ⟨hpos, hend⟩ := h.addFile contents hname
    obtain ⟨hpos', hend'⟩ := ih hend fun f hf => hopen f (List.mem_cons_of_mem _ hf)
    rw [List.foldl_cons]
    refine ⟨?_, hend'⟩
    rw [hpos', hpos, List.map_cons, List.sum_cons, Nat.add_assoc]

/-- The record of zeros too. -/
theorem AtEnd.terminate (h : AtEnd s)
    (hlen : (s.pwrite (List.replicate 12 0#8) s.lastFhdrAddr).archive.length < 2 ^ 32) :
    s.pos + 12 ≤ (s.pwrite (List.replicate 12 0#8) s.lastFhdrAddr).archive.length := by
  have hwritten :=
    Nat.le_trans h.written (s.length_le_pwrite (List.replicate 12 0#8) s.lastFhdrAddr)
  have hlast : s.lastFhdrAddr.toNat = s.pos := by
    rw [h.addr, BitVec.toNat_ofNat]
    exact Nat.mod_eq_of_lt (Nat.lt_of_le_of_lt hwritten hlen)
  have hzeros : List.replicate 12 (0#8 : Byte) ≠ [] := List.cons_ne_nil _ _
  have hend := s.end_le_pwrite hzeros s.lastFhdrAddr
  rw [hlast] at hend
  exact hend

/-- **The records of all files named** are in the archive. -/
theorem headerSize_le_length (hcreate : createEach named = some archive)
    (hlen : archive.length < 2 ^ 32) (hopen : AllOpen named) :
    headerSize (named.map Prod.fst) ≤ archive.length := by
  have hnamed : named ≠ [] := by
    rintro rfl
    cases hcreate
  rw [createEach, if_neg hnamed] at hcreate
  obtain rfl := Option.some.inj hcreate
  have hstart : AtEnd (Creation.write ⟨[], 0, totalHdrSize (named.map Prod.fst), sarHeaderSize⟩
      (wordBytes sarMagic)) := ⟨rfl, Nat.le_refl 4⟩
  obtain ⟨hpos, hend⟩ := hstart.addEach hopen
  have hle := hend.terminate hlen
  rw [hpos] at hle
  rw [headerSize, List.map_map]
  exact hle

/-- There is room for them, if there is a page more. -/
theorem alignedLen_headerSize_lt (hcreate : createEach named = some archive)
    (hlen : archive.length ≤ 2 ^ 32 - 4096) (hopen : AllOpen named) :
    alignedLen (headerSize (named.map Prod.fst)) < 2 ^ 32 := by
  have hle := headerSize_le_length hcreate (by omega) hopen
  unfold alignedLen
  omega

end Positions

/-! ### The archive -/

/-- The files of the archive, with the offsets of their contents. -/
def placedFiles (named : List (List Byte × Option (List Byte))) :
    List (BitVec 32 × (List Byte × List Byte)) :=
  placed (totalHdrSize (named.map Prod.fst)) (opened named)

/-- Records and contents are in their places. -/
theorem createEach_layout {named : List (List Byte × Option (List Byte))} {archive : List Byte}
    (hcreate : createEach named = some archive) (hlen : archive.length < 2 ^ 32)
    (hhdr : opened named ≠ [] → alignedLen (headerSize (named.map Prod.fst)) < 2 ^ 32) :
    Layout archive (totalHdrSize (named.map Prod.fst)) (opened named) ∧
      At archive (4 + ((opened named).map fun f => recordLen f.1).sum) (List.replicate 12 0#8) ∧
      HasRoom (totalHdrSize (named.map Prod.fst)) (opened named) ∧
      (opened named ≠ [] →
        headersEnd (opened named) ≤ (totalHdrSize (named.map Prod.fst)).toNat) := by
  have hnamed : named ≠ [] := by
    rintro rfl
    cases hcreate
  rw [createEach, if_neg hnamed] at hcreate
  obtain rfl := Option.some.inj hcreate
  have hhead : opened named ≠ [] →
      headersEnd ([] ++ opened named) ≤ (totalHdrSize (named.map Prod.fst)).toNat := by
    intro hne
    have hle := headersEnd_opened_le named
    have hal := le_alignedLen (headerSize (named.map Prod.fst))
    rw [totalHdrSize_toNat (hhdr hne), List.nil_append]
    omega
  have hroom₀ : HasRoom (totalHdrSize (named.map Prod.fst)) [] :=
    ⟨by decide, fun hne => absurd rfl hne⟩
  simp only [Creation.pwrite] at hlen
  obtain ⟨hwritten, hroom⟩ := (written_start (totalHdrSize (named.map Prod.fst))).addEach hroom₀
    hhead (Nat.lt_of_le_of_lt length_le_pwrite hlen)
  rw [List.nil_append] at hwritten hroom hhead
  obtain ⟨hlay, hzeros⟩ := hwritten.terminate hroom
  exact ⟨hlay, hzeros, hroom, hhead⟩

/-- **The archive is laid out**, if it is below `2 ^ 32` bytes and the records of all files named,
    whether they open or not, are below `2 ^ 32` bytes. -/
theorem createEach_laidOut (named : List (List Byte × Option (List Byte))) (archive : List Byte)
    (hcreate : createEach named = some archive) (hlen : archive.length < 2 ^ 32)
    (hhdr : opened named ≠ [] → alignedLen (headerSize (named.map Prod.fst)) < 2 ^ 32) :
    ∃ records, RecordsOf named records ∧ LaidOut archive records := by
  obtain ⟨hlay, hzeros, hroom, hhead⟩ := createEach_layout hcreate hlen hhdr
  have hpages : 4096 ∣ (totalHdrSize (named.map Prod.fst)).toNat :=
    Nat.dvd_of_mod_eq_zero (palignUp_aligned _)
  exact ⟨_, recordsFrom_sizes, hlay.laidOut hzeros hroom hpages hhead⟩

/-- A file `b` in a directory `a`, one that does not open, and `a/b` again. -/
def demoNamed : List (List Byte × Option (List Byte)) :=
  [([0x61#8, 0x2f#8, 0x62#8], some [1#8, 0#8, 2#8]), ([0x63#8], none),
    ([0x61#8, 0x2f#8, 0x62#8], none)]

/-- One file that opens, and two that do not. -/
theorem createEach_laidOut_demo : ∃ archive, createEach demoNamed = some archive ∧
    ∃ records, RecordsOf demoNamed records ∧ LaidOut archive records := by
  have hlen : (createEach demoNamed).map List.length = some 8192 := by decide +kernel
  obtain ⟨archive, hcreate, harchive⟩ := Option.map_eq_some_iff.mp hlen
  exact ⟨archive, hcreate,
    createEach_laidOut demoNamed archive hcreate (by omega) fun _ => by decide⟩

/-- A name without slashes is its own base name. -/
theorem basename_of_notMem {path : List Byte} (hne : path ≠ []) (h : 0x2f#8 ∉ path) :
    basename path = path := by
  have hslash : ∀ b ∈ path.reverse, ¬ b = 0x2f#8 := fun b hb he =>
    h (he ▸ List.mem_reverse.mp hb)
  have hdrop : path.reverse.dropWhile (· = 0x2f#8) = path.reverse := by
    rw [List.dropWhile_eq_self_iff]
    intro hpos
    simpa using hslash _ (List.getElem_mem hpos)
  have htake : path.reverse.takeWhile (· ≠ 0x2f#8) = path.reverse := by
    rw [List.takeWhile_eq_self_iff]
    intro b hb
    simpa using hslash b hb
  rw [basename, if_neg hne, hdrop]
  split
  · rename_i hnil
    exact absurd (List.reverse_eq_nil_iff.mp hnil) hne
  · rw [htake, List.reverse_reverse]

/-- The archive of an empty file `e` and a file that does not open. -/
theorem createEach_long {path : List Byte} (hlen : path.length = 4294967196) (h : 0x2f#8 ∉ path) :
    createEach [(path, none), ([0x65#8], some [])]
      = some (wordBytes sarMagic ++ SarFile.bytes ⟨0#32, 0#32, 2#32⟩ ++ [0x65#8, 0#8]
        ++ List.replicate 12 0#8) := by
  have hne : path ≠ [] := by
    rintro rfl
    cases hlen
  have hhdr : totalHdrSize [path, [0x65#8]] = 0#32 := by
    rw [totalHdrSize]
    simp only [List.foldl_cons, List.foldl_nil, namelen, basename_of_notMem hne h, hlen]
    decide
  have hskip : ∀ s, addFile (fun _ => none) s path = s := fun _ => rfl
  rw [createEach, if_neg (List.cons_ne_nil _ _), List.map_cons, List.map_cons, List.map_nil, hhdr]
  simp only [List.foldl_cons, hskip]
  decide

/-- The records of files that do not open count, and they can be more than a word holds: then
    contents are placed before the end of the records. -/
theorem unopened_name_wraps : ¬ ∀ (named : List (List Byte × Option (List Byte)))
    (archive : List Byte),
    createEach named = some archive → archive.length < 2 ^ 32 →
      ∃ records, RecordsOf named records ∧ LaidOut archive records := by
  intro hall
  have hpath : 0x2f#8 ∉ List.replicate 4294967196 0x61#8 := by
    intro h
    exact absurd (List.eq_of_mem_replicate h) (by decide)
  obtain ⟨records, hsizes, hlaid⟩ :=
    hall _ _ (createEach_long List.length_replicate hpath) (by decide)
  -- one record, and it says that its contents are at the start of the archive
  obtain ⟨r, rest, rfl⟩ : ∃ r rest, records = r :: rest := by
    cases records with
    | nil => cases hsizes
    | cons r rest => exact ⟨r, rest, rfl⟩
  have hat := hlaid.contiguous
  rw [List.flatMap_cons] at hat
  have hread := readSarFile_of_at hat.left.left.left
  have hrecord : readSarFile (wordBytes sarMagic ++ SarFile.bytes ⟨0#32, 0#32, 2#32⟩
      ++ [0x65#8, 0#8] ++ List.replicate 12 0#8) 4 = some ⟨0#32, 0#32, 2#32⟩ := by decide
  have hzero : r.1.offset = 0#32 := by
    rw [hrecord] at hread
    rw [← Option.some.inj hread]
  have hbefore := hlaid.before r rfl
  rw [hzero] at hbefore
  exact absurd hbefore (by simp)

end Leoman
