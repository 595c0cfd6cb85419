import Leoman.SarLayout
import Mathlib.Algebra.Order.BigOperators.Group.List

namespace Leoman

open ByteMem SparseFile

/-!
# Archives are read back

Both readers walk the records from the first on until they find the one of zeros.  The induction is
on the files whose records are still ahead; what carries it is that these records, and the zeros
behind them, are at the place the reader has come to.

* `extractLoop_records` — the tool writes out every file ahead;
* `sarLookupLoop_records` — the kernel finds the first file ahead that has the name;
* `archive_round_trip` — what `create` writes is read back by both.
-/

/-- The records of the files and the record of zeros. -/
def recordBytes (off : BitVec 32) (files : List (List Byte × List Byte)) : List Byte :=
  sarRecords off files ++ List.replicate 12 0#8

/-- Sizes that fit in the fields of a record. -/
def FieldsFit (f : List Byte × List Byte) : Prop := f.1.length + 1 < 2 ^ 32 ∧ f.2.length < 2 ^ 32

section Records

variable {off : BitVec 32} {f : List Byte × List Byte} {files : List (List Byte × List Byte)}

/-- The record of a file, as `struct sar_file`. -/
def sarFileOf (off : BitVec 32) (f : List Byte × List Byte) : SarFile :=
  ⟨BitVec.ofNat 32 f.2.length, off, BitVec.ofNat 32 (f.1.length + 1)⟩

/-- The archive ends with the record that has no file. -/
theorem recordBytes_nil : recordBytes off [] = SarFile.bytes ⟨0#32, 0#32, 0#32⟩ := rfl

/-- A record: its header, then the name with its NUL, then the contents, then the rest. -/
theorem recordBytes_cons : recordBytes off (f :: files)
    = (sarFileOf off f).bytes ++ ((f.1 ++ [0#8]) ++ recordBytes (nextOffset off f) files) := by
  rw [recordBytes, sarRecords, sarRecord, recordBytes, List.append_assoc, List.append_assoc]
  rfl

/-- A record with a name is not the one of zeros. -/
theorem sarFileOf_ne_zero (hf : FieldsFit f) :
    (sarFileOf off f).size ||| (sarFileOf off f).offset ||| (sarFileOf off f).namelen ≠ 0#32 := by
  intro h
  have hnl : (sarFileOf off f).namelen = 0#32 := (BitVec.or_eq_zero_iff.mp h).2
  have hlen : (BitVec.ofNat 32 (f.1.length + 1)).toNat = 0 := congrArg BitVec.toNat hnl
  rw [BitVec.toNat_ofNat, Nat.mod_eq_of_lt hf.1] at hlen
  exact absurd hlen (Nat.succ_ne_zero _)

/-- Files behind the first. -/
theorem mem_placed_cons {x : BitVec 32 × (List Byte × List Byte)}
    (hx : x ∈ placed (nextOffset off f) files) : x ∈ placed off (f :: files) :=
  List.mem_cons_of_mem _ hx

end Records

/-! ### The tool -/

/-- The directory with a file written. -/
def Directory.put (dir : Directory) (f : List Byte × List Byte) : Directory :=
  Function.update dir f.1 (some f.2)

section Extract

variable {buf : List Byte} {p : Nat}

/-- A word is read back from where it stands. -/
theorem readWord_of_at {x : BitVec 32} (h : At buf p (wordBytes x)) :
    readWord buf p = some x := by
  have h₀ : buf[p]? = some (x.extractLsb' 0 8) := h 0 (by simp [wordBytes])
  have h₁ : buf[p + 1]? = some (x.extractLsb' 8 8) := h 1 (by simp [wordBytes])
  have h₂ : buf[p + 2]? = some (x.extractLsb' 16 8) := h 2 (by simp [wordBytes])
  have h₃ : buf[p + 3]? = some (x.extractLsb' 24 8) := h 3 (by simp [wordBytes])
  simp [readWord, h₀, h₁, h₂, h₃, append_extract]

/-- So is a header, … -/
theorem readSarFile_of_at {h : SarFile} (hat : At buf p h.bytes) :
    readSarFile buf p = some h := by
  have hsize : readWord buf p = some h.size := readWord_of_at hat.left.left
  have hoffset : readWord buf (p + 4) = some h.offset := readWord_of_at hat.left.right
  have hnamelen : readWord buf (p + 8) = some h.namelen := readWord_of_at hat.right
  simp [readSarFile, hsize, hoffset, hnamelen]

/-- … a string in front of anything, … -/
theorem cString_append {name rest : List Byte} (h : 0#8 ∉ name) :
    cString (name ++ 0#8 :: rest) = some name := by
  induction name with
  | nil => rfl
  | cons b name ih =>
    rw [List.mem_cons, not_or] at h
    rw [List.cons_append, cString, if_neg (Ne.symm h.1), ih h.2]
    rfl

/-- … a name, … -/
theorem cString_of_at {name : List Byte} (hat : At buf p (name ++ [0#8])) (h : 0#8 ∉ name) :
    cString (buf.drop p) = some name := by
  have hsplit : buf.drop p = name ++ 0#8 :: (buf.drop p).drop (name ++ [0#8]).length := by
    conv_lhs => rw [← List.take_append_drop (name ++ [0#8]).length (buf.drop p), hat.take_drop]
    rw [List.append_assoc, List.singleton_append]
  rw [hsplit, cString_append h]

/-- … and contents of a known length. -/
theorem readSlice_of_at {contents : List Byte} (hat : At buf p contents) :
    readSlice buf p contents.length = some contents := by
  have hin : contents.length = 0 ∨ p + contents.length ≤ buf.length := by
    by_cases hne : contents = []
    · exact Or.inl (by rw [hne]; rfl)
    · exact Or.inr (hat.length_le hne)
  rw [readSlice, if_pos hin, hat.take_drop]

/-- **The tool writes out every file ahead.** -/
theorem extractLoop_records {off : BitVec 32} {files : List (List Byte × List Byte)} {n : Nat}
    {dir : Directory} (hat : At buf p (recordBytes off files))
    (hbody : ∀ x ∈ placed off files, At buf x.1.toNat x.2.2) (hfits : ∀ f ∈ files, FieldsFit f)
    (hnul : ∀ f ∈ files, 0#8 ∉ f.1) (hn : files.length < n) :
    extractLoop buf n p dir = some (files.foldl Directory.put dir) := by
  induction files generalizing p off n dir with
  | nil =>
    obtain ⟨n, rfl⟩ : ∃ k, n = k + 1 := Nat.exists_eq_succ_of_ne_zero (by omega)
    rw [recordBytes_nil] at hat
    rw [extractLoop, readSarFile_of_at hat]
    rfl
  | cons f files ih =>
    obtain ⟨n, rfl⟩ : ∃ k, n = k + 1 := Nat.exists_eq_succ_of_ne_zero (by omega)
    rw [recordBytes_cons] at hat
    have hf := hfits f List.mem_cons_self
    have hsize : (sarFileOf off f).size.toNat = f.2.length := by
      rw [sarFileOf, BitVec.toNat_ofNat, Nat.mod_eq_of_lt hf.2]
    have hnl : (sarFileOf off f).namelen.toNat = (f.1 ++ [0#8]).length := by
      rw [sarFileOf, BitVec.toNat_ofNat, Nat.mod_eq_of_lt hf.1, List.length_append]
      rfl
    have hname : cString (buf.drop (p + 12)) = some f.1 :=
      cString_of_at hat.right.left (hnul f List.mem_cons_self)
    have hslice : readSlice buf off.toNat f.2.length = some f.2 :=
      readSlice_of_at (hbody (off, f) List.mem_cons_self)
    -- the next record is behind the name
    have hrest : extractLoop buf n (p + 12 + (f.1 ++ [0#8]).length) (dir.put f)
        = some (files.foldl Directory.put (dir.put f)) :=
      ih hat.right.right (fun x hx => hbody x (mem_placed_cons hx))
        (fun g hg => hfits g (List.mem_cons_of_mem f hg))
        (fun g hg => hnul g (List.mem_cons_of_mem f hg)) (Nat.lt_of_succ_lt_succ hn)
    rw [extractLoop, readSarFile_of_at hat.left]
    simp only [Option.bind_eq_bind, Option.bind_some]
    rw [if_neg (sarFileOf_ne_zero hf), hname, Option.bind_some, hsize]
    show (readSlice buf off.toNat f.2.length).bind _ = _
    rw [hslice, Option.bind_some, hnl]
    exact hrest

/-- Files with different names are written out side by side. -/
theorem foldl_put {files : List (List Byte × List Byte)} {dir : Directory}
    (hnodup : (files.map Prod.fst).Nodup) (name : List Byte) :
    files.foldl Directory.put dir name = (files.lookup name).or (dir name) := by
  induction files generalizing dir with
  | nil => rfl
  | cons f files ih =>
    rw [List.map_cons, List.nodup_cons] at hnodup
    rw [List.foldl_cons, ih hnodup.2]
    by_cases hname : name = f.1
    · -- no later file has the name
      have hlater : files.lookup name = none := by
        rw [List.lookup_eq_none_iff]
        intro g hg
        rw [hname]
        exact bne_iff_ne.mpr fun he => hnodup.1 (he ▸ List.mem_map_of_mem hg)
      rw [hlater, hname, Directory.put, Function.update_self, List.lookup_cons_self]
      rfl
    · rw [Directory.put, Function.update_of_ne hname, List.lookup_cons, beq_false_of_ne hname]

end Extract

/-! ### The kernel -/

section Kernel

variable {mem : Mem} {off fhdr : BitVec 32}

/-- What an archive has at an offset, memory has behind the start of the archive. -/
theorem Stored.of_at {file : BitVec 32} {archive d : List Byte} {p : Nat}
    (h : Stored mem file archive) (hat : At archive p d) :
    Stored mem (file + BitVec.ofNat 32 p) d := by
  intro i b hb
  have hget := hat i (List.getElem?_eq_some_iff.mp hb).1
  rw [BitVec.add_assoc, ← BitVec.ofNat_add]
  exact h (p + i) b (hget.trans hb)

/-- A header that is stored in memory is the one read there. -/
theorem sarFileAt_of_stored {h : SarFile} (hst : Stored mem fhdr h.bytes) :
    sarFileAt mem fhdr = h := by
  have hsize : read32 mem fhdr = h.size := Stored.read32 hst.left.left
  have hoffset : read32 mem (fhdr + 4#32) = h.offset := Stored.read32 hst.left.right
  have hnamelen : read32 mem (fhdr + 8#32) = h.namelen := Stored.read32 hst.right
  rw [sarFileAt, hsize, hoffset, hnamelen]

/-- A string in memory. -/
def CString (mem : Mem) (p : BitVec 32) (s : List Byte) : Prop :=
  0#8 ∉ s ∧ Stored mem p (s ++ [0#8])

/-- **Strings are compared** up to the NUL of the first. -/
theorem strcmp_spec {s t : List Byte} {a b : BitVec 32} {n : Nat} (hs : CString mem a s)
    (ht : CString mem b t) (hn : s.length < n) :
    ∃ c, strcmp mem n a b = some c ∧ (c = 0 ↔ s = t) := by
  induction s generalizing t a b n with
  | nil =>
    obtain ⟨n, rfl⟩ : ∃ k, n = k + 1 := Nat.exists_eq_succ_of_ne_zero (by omega)
    have ha : mem a = 0#8 := hs.2.head
    cases t with
    | nil =>
      have hb : mem b = 0#8 := ht.2.head
      refine ⟨0, ?_, by simp⟩
      rw [strcmp, ha, hb, if_pos rfl, if_pos rfl]
    | cons y t =>
      have hb : mem b = y := ht.2.head
      have hy : y ≠ 0#8 := fun h => ht.1 (h ▸ List.mem_cons_self)
      refine ⟨_, by rw [strcmp, ha, hb, if_neg (Ne.symm hy)], ?_⟩
      have hne : y.toNat ≠ 0 := fun h => hy (BitVec.eq_of_toNat_eq h)
      simp only [BitVec.toNat_ofNat]
      constructor
      · omega
      · exact fun h => absurd h.symm (List.cons_ne_nil y t)
  | cons x s ih =>
    obtain ⟨n, rfl⟩ : ∃ k, n = k + 1 := Nat.exists_eq_succ_of_ne_zero (by omega)
    have ha : mem a = x := hs.2.head
    have hx : x ≠ 0#8 := fun h => hs.1 (h ▸ List.mem_cons_self)
    have hs' : CString mem (a + 1#32) s := ⟨fun h => hs.1 (List.mem_cons_of_mem x h), hs.2.tail⟩
    cases t with
    | nil =>
      have hb : mem b = 0#8 := ht.2.head
      refine ⟨_, by rw [strcmp, ha, hb, if_neg hx], ?_⟩
      have hne : x.toNat ≠ 0 := fun h => hx (BitVec.eq_of_toNat_eq h)
      simp only [BitVec.toNat_ofNat]
      constructor
      · omega
      · exact fun h => absurd h (List.cons_ne_nil x s)
    | cons y t =>
      have hb : mem b = y := ht.2.head
      have ht' : CString mem (b + 1#32) t := ⟨fun h => ht.1 (List.mem_cons_of_mem y h), ht.2.tail⟩
      by_cases hxy : x = y
      · obtain ⟨c, hc, hiff⟩ := ih hs' ht' (Nat.lt_of_succ_lt_succ hn)
        refine ⟨c, by rw [strcmp, ha, hb, if_pos hxy, if_neg hx, hc], ?_⟩
        rw [hiff, List.cons.injEq]
        exact ⟨fun h => ⟨hxy, h⟩, fun h => h.2⟩
      · refine ⟨_, by rw [strcmp, ha, hb, if_neg hxy], ?_⟩
        have hne : x.toNat ≠ y.toNat := fun h => hxy (BitVec.eq_of_toNat_eq h)
        rw [List.cons.injEq]
        constructor
        · omega
        · exact fun h => absurd h.1 hxy

/-- **The kernel finds the first file ahead** that has the name. -/
theorem sarLookupLoop_records {files : List (List Byte × List Byte)} {name : List Byte}
    {fname : BitVec 32} {rounds n : Nat} (hst : Stored mem fhdr (recordBytes off files))
    (hfits : ∀ f ∈ files, FieldsFit f) (hnul : ∀ f ∈ files, 0#8 ∉ f.1)
    (hrounds : ∀ f ∈ files, f.1.length < rounds) (hname : CString mem fname name)
    (hn : files.length < n) :
    match files.lookup name with
    | none => sarLookupLoop mem fname rounds n fhdr = some none
    | some contents => ∃ fhdr' off', sarLookupLoop mem fname rounds n fhdr = some (some fhdr') ∧
        sarFileAt mem fhdr' = sarFileOf off' (name, contents) ∧
        (off', (name, contents)) ∈ placed off files := by
  induction files generalizing off fhdr n with
  | nil =>
    obtain ⟨n, rfl⟩ : ∃ k, n = k + 1 := Nat.exists_eq_succ_of_ne_zero (by omega)
    rw [recordBytes_nil] at hst
    show sarLookupLoop mem fname rounds (n + 1) fhdr = some none
    rw [sarLookupLoop, sarFileAt_of_stored hst]
    rfl
  | cons f files ih =>
    obtain ⟨n, rfl⟩ : ∃ k, n = k + 1 := Nat.exists_eq_succ_of_ne_zero (by omega)
    rw [recordBytes_cons] at hst
    have hf := hfits f List.mem_cons_self
    have hrec : sarFileAt mem fhdr = sarFileOf off f := sarFileAt_of_stored hst.left
    have hfile : CString mem (fhdr + sarFileSize) f.1 :=
      ⟨hnul f List.mem_cons_self, hst.right.left⟩
    obtain ⟨c, hc, hiff⟩ := strcmp_spec hfile hname (hrounds f List.mem_cons_self)
    by_cases hsame : f.1 = name
    · -- this is the file
      have hlook : (f :: files).lookup name = some f.2 := by
        rw [List.lookup_cons, hsame, beq_self_eq_true]
      rw [hlook]
      refine ⟨fhdr, off, ?_, ?_, ?_⟩
      · rw [sarLookupLoop, hrec]
        simp only [if_neg (sarFileOf_ne_zero hf), hc, if_pos (hiff.mpr hsame)]
      · rw [hrec, ← hsame]
      · rw [← hsame]
        exact List.mem_cons_self
    · -- the next record is behind the name
      have hnext : fhdr + BitVec.ofNat 32 (sarFileOf off f).bytes.length
          + BitVec.ofNat 32 (f.1 ++ [0#8]).length
          = fhdr + sarFileSize + (sarFileOf off f).namelen := by
        rw [List.length_append]
        rfl
      have hrest := hst.right.right
      rw [hnext] at hrest
      have hlook : (f :: files).lookup name = files.lookup name := by
        rw [List.lookup_cons, beq_false_of_ne (Ne.symm hsame)]
      have hloop : sarLookupLoop mem fname rounds (n + 1) fhdr
          = sarLookupLoop mem fname rounds n (fhdr + sarFileSize + (sarFileOf off f).namelen) := by
        rw [sarLookupLoop, hrec]
        simp only [if_neg (sarFileOf_ne_zero hf), hc, if_neg fun h => hsame (hiff.mp h)]
      have hfound := ih hrest (fun g hg => hfits g (List.mem_cons_of_mem f hg))
        (fun g hg => hnul g (List.mem_cons_of_mem f hg))
        (fun g hg => hrounds g (List.mem_cons_of_mem f hg)) (Nat.lt_of_succ_lt_succ hn)
      rw [hlook, hloop]
      cases hl : files.lookup name with
      | none =>
        rw [hl] at hfound
        exact hfound
      | some contents =>
        rw [hl] at hfound
        obtain ⟨fhdr', off', hres, hat, hmem⟩ := hfound
        exact ⟨fhdr', off', hres, hat, mem_placed_cons hmem⟩

end Kernel

/-! ### Round trip -/

section RoundTrip

variable {fs : List Byte → Option (List Byte)} {paths : List (List Byte)}
  {files : List (List Byte × List Byte)}

/-- A part of a path without NUL has none. -/
theorem nul_notMem_basename {path : List Byte} (h : 0#8 ∉ path) : 0#8 ∉ basename path := by
  unfold basename
  split
  · decide
  · split
    · decide
    · rename_i rev hrev
      intro hmem
      have hrev' : 0#8 ∈ path.reverse.dropWhile (· = 0x2f#8) :=
        (List.takeWhile_sublist _).subset (List.mem_reverse.mp hmem)
      exact h (List.mem_reverse.mp ((List.dropWhile_sublist _).subset hrev'))

/-- So the names that `create` stores have none. -/
theorem nul_notMem_readable (h : ∀ path ∈ paths, 0#8 ∉ path) :
    ∀ f ∈ readable fs paths, 0#8 ∉ f.1 := by
  intro f hf
  obtain ⟨path, hpath, hsome⟩ := List.mem_filterMap.mp hf
  obtain ⟨contents, -, rfl⟩ := Option.map_eq_some_iff.mp hsome
  exact nul_notMem_basename (h path hpath)

/-- With room for all records, the fields of each hold its numbers. -/
theorem HasRoom.fits {off : BitVec 32} (h : HasRoom off files) : ∀ f ∈ files, FieldsFit f := by
  intro f hf
  have hname : recordLen f.1 ≤ (files.map fun f => recordLen f.1).sum :=
    List.le_sum_of_mem (List.mem_map_of_mem hf)
  have hbody : alignedLen f.2.length ≤ contentsLen files := by
    unfold contentsLen
    exact List.le_sum_of_mem (List.mem_map.mpr ⟨f, hf, rfl⟩)
  have hle := le_alignedLen f.2.length
  have hhead := h.head
  have hroom := h.body
  unfold recordLen at hname
  unfold headersEnd recordLen at hhead
  exact ⟨by omega, by omega⟩

/-- With different names, looking one up gives its contents, … -/
theorem lookup_of_mem {name contents : List Byte} (hnodup : (files.map Prod.fst).Nodup)
    (h : (name, contents) ∈ files) : files.lookup name = some contents := by
  induction files with
  | nil => exact absurd h List.not_mem_nil
  | cons f files ih =>
    rw [List.map_cons, List.nodup_cons] at hnodup
    rcases List.mem_cons.mp h with rfl | h
    · exact List.lookup_cons_self
    · have hne : name ≠ f.1 := fun he => hnodup.1 (he ▸ List.mem_map_of_mem h)
      rw [List.lookup_cons, beq_false_of_ne hne]
      exact ih hnodup.2 h

/-- … and a name that is not there gives nothing. -/
theorem lookup_of_notMem {name : List Byte} (h : name ∉ files.map Prod.fst) :
    files.lookup name = none := by
  rw [List.lookup_eq_none_iff]
  intro f hf
  exact bne_iff_ne.mpr fun he => h (he ▸ List.mem_map_of_mem hf)

/-- **An archive of the files.**  `extract` writes these files and no others; the kernel finds each
    of them by name, with its size and its contents, and no others. -/
structure ArchiveOf (archive : List Byte) (files : List (List Byte × List Byte)) : Prop where
  extracted : ∀ dir, ∃ dir', extract archive dir = some dir' ∧
    (∀ name contents, (name, contents) ∈ files → dir' name = some contents) ∧
    ∀ name, name ∉ files.map Prod.fst → dir' name = dir name
  found : ∀ mem file fname name contents, Stored mem file archive → CString mem fname name →
    (name, contents) ∈ files → ∀ rounds, archive.length < rounds →
    ∃ fhdr p, sarLookup mem file fname rounds = some (some fhdr) ∧
      (sarFileAt mem fhdr).size.toNat = contents.length ∧
      sarGetContents mem file fname rounds = some (some p) ∧ Stored mem p contents
  absent : ∀ mem file fname name, Stored mem file archive → CString mem fname name →
    name ∉ files.map Prod.fst → ∀ rounds, archive.length < rounds →
    sarLookup mem file fname rounds = some none ∧
      sarGetContents mem file fname rounds = some none

/-- What is laid out as an archive is read back as one. -/
theorem ArchiveOf.of_layout {archive : List Byte} {off : BitVec 32}
    (hlay : Layout archive off files)
    (hzeros : At archive (4 + (files.map fun f => recordLen f.1).sum) (List.replicate 12 0#8))
    (hroom : HasRoom off files) (hnul : ∀ f ∈ files, 0#8 ∉ f.1)
    (hnodup : (files.map Prod.fst).Nodup) : ArchiveOf archive files := by
  -- the records begin behind the magic number
  have hat : At archive 4 (recordBytes off files) := by
    refine At.append (hlay.head.right (d := wordBytes sarMagic)) ?_
    rw [sarRecords_length]
    exact hzeros
  have hlen : 4 + ((files.map fun f => recordLen f.1).sum + 12) ≤ archive.length := by
    have hle := hat.length_le (by simp [recordBytes])
    rwa [recordBytes, List.length_append, sarRecords_length, List.length_replicate] at hle
  have hcount : files.length ≤ (files.map fun f => recordLen f.1).sum := by
    have hone := List.length_le_sum_of_one_le (files.map fun f => recordLen f.1) (by
      intro n hn
      obtain ⟨f, -, rfl⟩ := List.mem_map.mp hn
      simp only [recordLen]
      omega)
    rwa [List.length_map] at hone
  have hnames : ∀ f ∈ files, f.1.length < archive.length := by
    intro f hf
    have hle : recordLen f.1 ≤ (files.map fun f => recordLen f.1).sum :=
      List.le_sum_of_mem (List.mem_map_of_mem hf)
    simp only [recordLen] at hle hlen
    omega
  have hlookup : ∀ {mem file fname name rounds}, Stored mem file archive →
      CString mem fname name → archive.length < rounds → _ :=
    fun {mem file fname name rounds} hst hname hr =>
      sarLookupLoop_records (n := rounds) (Stored.of_at hst hat) hroom.fits hnul
        (fun f hf => (hnames f hf).trans hr) hname (by omega)
  refine ⟨fun dir => ?_, fun mem file fname name contents hst hname hmem rounds hr => ?_,
    fun mem file fname name hst hname habs rounds hr => ?_⟩
  · refine ⟨files.foldl Directory.put dir, ?_, fun name contents hmem => ?_, fun name habs => ?_⟩
    · exact extractLoop_records hat hlay.body hroom.fits hnul (by omega)
    · rw [foldl_put hnodup, lookup_of_mem hnodup hmem, Option.some_or]
    · rw [foldl_put hnodup, lookup_of_notMem habs, Option.none_or]
  · have hres := hlookup hst hname hr
    rw [lookup_of_mem hnodup hmem] at hres
    obtain ⟨fhdr, off', hfound, hrec, hplaced⟩ := hres
    have hfound' : sarLookup mem file fname rounds = some (some fhdr) := hfound
    refine ⟨fhdr, file + off', hfound', ?_, ?_, ?_⟩
    · rw [hrec, sarFileOf, BitVec.toNat_ofNat, Nat.mod_eq_of_lt (hroom.fits _ hmem).2]
    · rw [sarGetContents, hfound', Option.map_some, Option.map_some, hrec]
      rfl
    · have hcont := Stored.of_at hst (hlay.body _ hplaced)
      rwa [BitVec.ofNat_toNat, BitVec.setWidth_eq] at hcont
  · have hres := hlookup hst hname hr
    rw [lookup_of_notMem habs] at hres
    have hres' : sarLookup mem file fname rounds = some none := hres
    refine ⟨hres', ?_⟩
    rw [sarGetContents, hres']
    rfl

end RoundTrip

/-- **Archives are read back.**  For files with different names, and an archive below `2 ^ 32`
    bytes, `create` writes an archive of the files that open. -/
theorem archive_round_trip (fs : List Byte → Option (List Byte)) (paths : List (List Byte))
    (hpaths : paths ≠ []) (hnul : ∀ path ∈ paths, 0#8 ∉ path)
    (hnodup : ((readable fs paths).map Prod.fst).Nodup) (hsize : archiveSize fs paths < 2 ^ 32) :
    ∃ archive, create fs paths = some archive ∧ ArchiveOf archive (readable fs paths) := by
  obtain ⟨archive, hcreate, hlay, hzeros⟩ := create_layout hpaths hsize
  exact ⟨archive, hcreate,
    ArchiveOf.of_layout hlay hzeros (hasRoom_of_size hsize) (nul_notMem_readable hnul) hnodup⟩

/-- A file `b` in a directory `a`, an empty file `e`, and no others. -/
def demoFs (path : List Byte) : Option (List Byte) :=
  if path = [0x61#8, 0x2f#8, 0x62#8] then some [1#8, 0#8, 2#8]
  else if path = [0x65#8] then some [] else none

/-- Two files that can be read, one of them empty, and one between them that cannot be opened. -/
theorem archive_round_trip_demo :
    ∃ archive, create demoFs [[0x61#8, 0x2f#8, 0x62#8], [0x63#8], [0x65#8]] = some archive ∧
      ArchiveOf archive [([0x62#8], [1#8, 0#8, 2#8]), ([0x65#8], [])] :=
  archive_round_trip demoFs [[0x61#8, 0x2f#8, 0x62#8], [0x63#8], [0x65#8]] (by decide) (by decide)
    (by decide) (by decide)

end Leoman
