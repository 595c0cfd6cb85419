import Leoman.Isolation
import Leoman.SarRegions

namespace Leoman

open ByteMem SparseFile StateExcept

/-!
# Processes from the initrd

`kmain` makes processes of the files of the initrd, and `proc_load` maps these where they are.  A
file begins at a page, and what follows its last page belongs to the next file: the segments of two
files are in different frames as long as every page mapped begins within the file.

* `IsElf`, `fileSegments`, `filePages` — an executable, as it is in the archive;
* `SeesInitrd` — the archive is in memory, at its physical address;
* `filePages_apart` — the frames of two files, if no segment leaves its file;
* `load_isolated_iff` — which processes share frames for user code;
* `neighbour_reached` — a segment with more memory than its file has: user code reaches the next
  file.
-/

/-! ### Executables in files -/

section Files

variable (file : List Byte)

/-- The file in memory, at address 0. -/
def fileMem : Mem := fun a => file.getD a.toNat 0#8

/-- Its segments. -/
def fileSegments : List ElfPheader := elfSegments (fileMem file) 0#32

/-- The pages that are mapped when it is at `addr`, with their frames. -/
def filePages (addr : BitVec 32) : List (BitVec 32 × BitVec 32) :=
  (fileSegments file).flatMap (·.pages addr)

/-- The file is an executable: it has the magic number, and its headers are in it. -/
structure IsElf : Prop where
  magic : read32 (fileMem file) 0#32 = elfMagic
  header : 52 ≤ file.length
  pheaders : (read32 (fileMem file) 28#32).toNat + 32 * elfPhnum (fileMem file) 0#32 ≤ file.length

/-- The bytes of its segments are in it too. -/
def SegmentsInside : Prop := ∀ h ∈ fileSegments file,
  h.offset.toNat + h.filesz.toNat ≤ file.length ∧ h.filesz.toNat ≤ h.memsz.toNat

/-- Every page that is mapped begins within the file. -/
def PagesInside : Prop := ∀ h ∈ fileSegments file, ∀ i < pagesOf h.memsz,
  4096 * (h.offset.toNat / 4096 + i) < file.length

end Files

section Read

variable {file : List Byte} {mem : Mem} {addr : BitVec 32} {j : Nat}

/-- A byte of the file. -/
theorem stored_byte (h : Stored mem addr file) (hlen : file.length ≤ 2 ^ 32)
    (hj : j < file.length) : mem (addr + BitVec.ofNat 32 j) = fileMem file (BitVec.ofNat 32 j) := by
  have hget : file[j]? = some file[j] := List.getElem?_eq_getElem hj
  rw [h j _ hget, fileMem, BitVec.toNat_ofNat, Nat.mod_eq_of_lt (by omega),
    List.getD_eq_getElem?_getD, hget, Option.getD_some]

/-- A word. -/
theorem stored_word (h : Stored mem addr file) (hlen : file.length ≤ 2 ^ 32)
    (hj : j + 4 ≤ file.length) :
    read32 mem (addr + BitVec.ofNat 32 j) = read32 (fileMem file) (BitVec.ofNat 32 j) := by
  have hbyte : ∀ k < 4, mem (addr + BitVec.ofNat 32 j + BitVec.ofNat 32 k)
      = fileMem file (BitVec.ofNat 32 j + BitVec.ofNat 32 k) := by
    intro k hk
    rw [BitVec.add_assoc, ← BitVec.ofNat_add]
    exact stored_byte h hlen (by omega)
  have hzero := hbyte 0 (by omega)
  rw [show BitVec.ofNat 32 0 = 0#32 from rfl, BitVec.add_zero, BitVec.add_zero] at hzero
  rw [read32, read32, hzero, show 1#32 = BitVec.ofNat 32 1 from rfl, hbyte 1 (by omega),
    show 2#32 = BitVec.ofNat 32 2 from rfl, hbyte 2 (by omega),
    show 3#32 = BitVec.ofNat 32 3 from rfl, hbyte 3 (by omega)]

/-- The program headers are where the file says. -/
theorem IsElf.elfPheaders_eq (he : IsElf file) (h : Stored mem addr file)
    (hlen : file.length ≤ 2 ^ 32) :
    elfPheaders mem addr = addr + read32 (fileMem file) 28#32 := by
  have hheader := he.header
  have hword := stored_word h hlen (j := 28) (by omega)
  rw [elfPheaders, show (28#32 : BitVec 32) = BitVec.ofNat 32 28 from rfl, hword]

/-- The number of headers is read from the file. -/
theorem IsElf.elfPhnum_eq (he : IsElf file) (h : Stored mem addr file)
    (hlen : file.length ≤ 2 ^ 32) : elfPhnum mem addr = elfPhnum (fileMem file) 0#32 := by
  have hheader := he.header
  have hlow := stored_byte h hlen (j := 44) (by omega)
  have hhigh := stored_byte h hlen (j := 45) (by omega)
  have hnext : addr + 44#32 + 1#32 = addr + BitVec.ofNat 32 45 := by
    rw [BitVec.add_assoc]
    rfl
  rw [elfPhnum, elfPhnum, hnext, hhigh, show (44#32 : BitVec 32) = BitVec.ofNat 32 44 from rfl,
    hlow]
  rfl

/-- A program header. -/
theorem IsElf.elfPheader_eq (he : IsElf file) (h : Stored mem addr file)
    (hlen : file.length ≤ 2 ^ 32) {i : Nat} (hi : i < elfPhnum (fileMem file) 0#32) :
    elfPheader mem addr i = elfPheader (fileMem file) 0#32 i := by
  have hph := he.pheaders
  have hword : ∀ k, k + 4 ≤ 32 →
      read32 mem (elfPheaders mem addr + BitVec.ofNat 32 (32 * i) + BitVec.ofNat 32 k)
        = read32 (fileMem file) (elfPheaders (fileMem file) 0#32 + BitVec.ofNat 32 (32 * i)
            + BitVec.ofNat 32 k) := by
    intro k hk
    have hat : read32 (fileMem file) 28#32 + BitVec.ofNat 32 (32 * i) + BitVec.ofNat 32 k
        = BitVec.ofNat 32 ((read32 (fileMem file) 28#32).toNat + 32 * i + k) := by
      rw [BitVec.ofNat_add, BitVec.ofNat_add, BitVec.ofNat_toNat, BitVec.setWidth_eq]
    -- in `fileMem` the file is at address 0
    have hzero : elfPheaders (fileMem file) 0#32 = read32 (fileMem file) 28#32 :=
      BitVec.zero_add _
    rw [he.elfPheaders_eq h hlen, hzero, BitVec.add_assoc addr, BitVec.add_assoc addr, hat]
    exact stored_word h hlen (by omega)
  have hfirst := hword 0 (by omega)
  rw [show BitVec.ofNat 32 0 = 0#32 from rfl, BitVec.add_zero, BitVec.add_zero] at hfirst
  rw [elfPheader, elfPheader, pheaderAt, pheaderAt, hfirst, ElfPheader.mk.injEq]
  exact ⟨rfl, hword 4 (by omega), hword 8 (by omega), hword 16 (by omega), hword 20 (by omega)⟩

/-- The loader sees the executable, … -/
theorem IsElf.magic_eq (he : IsElf file) (h : Stored mem addr file) (hlen : file.length ≤ 2 ^ 32) :
    read32 mem addr = elfMagic := by
  have hheader := he.header
  have hword := stored_word h hlen (j := 0) (by omega)
  rw [show BitVec.ofNat 32 0 = 0#32 from rfl, BitVec.add_zero, he.magic] at hword
  exact hword

/-- … and its segments. -/
theorem IsElf.elfSegments_eq (he : IsElf file) (h : Stored mem addr file)
    (hlen : file.length ≤ 2 ^ 32) : elfSegments mem addr = fileSegments file := by
  rw [fileSegments, elfSegments, elfSegments, he.elfPhnum_eq h hlen]
  congr 1
  exact List.map_congr_left fun i hi => he.elfPheader_eq h hlen (List.mem_range.mp hi)

/-- **The pages `elf_load` maps** are those of the file. -/
theorem IsElf.imagePages_eq (he : IsElf file) (h : Stored mem addr file)
    (hlen : file.length ≤ 2 ^ 32) : imagePages mem addr = filePages file addr := by
  rw [imagePages, if_pos (he.magic_eq h hlen), elfPages, he.elfSegments_eq h hlen, filePages]

end Read

/-! ### The archive in memory -/

/-- The archive is in memory at `initrd`, outside the frames of tables, and the current address
    space has it at its physical address. -/
structure SeesInitrd {τ : Type} (K : Set (BitVec 32)) (initrd : BitVec 32) (archive : List Byte)
    (m : Machine τ) : Prop where
  stored : Stored m.mem initrd archive
  seen : UserBytes K m.mem m.cr3 initrd archive.length (physBytes initrd)

section Archive

variable {τ : Type} {K : Set (BitVec 32)} {initrd off : BitVec 32} {archive file : List Byte}
  {m : Machine τ}

/-- The archive leaves a page of memory to the directory. -/
theorem SeesInitrd.length_le {dirs : Set (BitVec 32)} (h : SeesInitrd K initrd archive m)
    (hs : Spaces K dirs m.mem) (hcur : m.cr3 ∈ dirs) : archive.length ≤ 2 ^ 32 - 4096 := by
  obtain ⟨hp, hframe⟩ := recursive_iff.mp (hs.recursive _ hcur)
  have hK := hs.tables _ hcur _ hp
  rw [hframe] at hK
  have hfar : ∀ j < 4096,
      archive.length ≤ (palignDown m.cr3 + BitVec.ofNat 32 j - initrd).toNat := by
    intro j hj
    by_contra hlt
    apply h.seen.user _ (Nat.lt_of_not_le hlt)
    have hpage : palignDown (palignDown m.cr3 + BitVec.ofNat 32 j) = palignDown m.cr3 := by
      apply BitVec.eq_of_toNat_eq
      simp only [palignDown_toNat, BitVec.toNat_add, BitVec.toNat_ofNat]
      omega
    rw [physBytes, BitVec.ofNat_toNat, BitVec.setWidth_eq, BitVec.add_comm initrd,
      BitVec.sub_add_cancel, hpage]
    exact hK
  -- behind a longer archive the page would wrap round to its first byte
  have hstart := hfar 0 (by decide)
  rw [BitVec.add_zero] at hstart
  by_contra hlong
  have hlast := hfar (2 ^ 32 - (palignDown m.cr3 - initrd).toNat) (by omega)
  rw [BitVec.toNat_sub, BitVec.toNat_add, BitVec.toNat_ofNat] at hlast
  rw [BitVec.toNat_sub] at hstart hlast
  omega

/-- What is in the archive is in memory. -/
theorem SeesInitrd.stored_at (h : SeesInitrd K initrd archive m) (hat : At archive off.toNat file) :
    Stored m.mem (initrd + off) file := by
  intro i b hb
  have hi := (List.getElem?_eq_some_iff.mp hb).1
  have hget : archive[off.toNat + i]? = some b := (hat i hi).trans hb
  have haddr : initrd + off + BitVec.ofNat 32 i = initrd + BitVec.ofNat 32 (off.toNat + i) := by
    rw [BitVec.ofNat_add, BitVec.ofNat_toNat, BitVec.setWidth_eq, BitVec.add_assoc]
  rw [haddr]
  exact h.stored _ b hget

/-- A part of a file that is in the archive. -/
theorem SeesInitrd.seen_at (h : SeesInitrd K initrd archive m) (hat : At archive off.toNat file)
    (hne : file ≠ []) {o : BitVec 32} {n : Nat} (hn : o.toNat + n ≤ file.length) :
    UserBytes K m.mem m.cr3 (initrd + off + o) n (physBytes (initrd + off + o)) := by
  have hlen := hat.length_le hne
  have hpart := h.seen.from (j := off.toNat + o.toNat) (k := n) (by omega)
  rw [BitVec.ofNat_add, BitVec.ofNat_toNat, BitVec.ofNat_toNat, BitVec.setWidth_eq,
    BitVec.setWidth_eq, ← BitVec.add_assoc] at hpart
  exact hpart

/-- **A process sees its file.** -/
theorem SeesInitrd.seesFile (h : SeesInitrd K initrd archive m) (hat : At archive off.toNat file)
    (he : IsElf file) (hlen : file.length ≤ 2 ^ 32) : SeesFile K m.mem m.cr3 (initrd + off) := by
  have hheader := he.header
  have hne : file ≠ [] := by
    rintro rfl
    exact absurd hheader (by decide)
  have hstart : ∀ n ≤ 52, UserBytes K m.mem m.cr3 (initrd + off) n (physBytes (initrd + off)) := by
    intro n hn
    have hpart := h.seen_at hat hne (o := 0#32) (n := n) (by rw [BitVec.toNat_ofNat]; omega)
    rw [BitVec.add_zero] at hpart
    exact hpart
  have hstored := h.stored_at hat
  refine ⟨hstart 4 (by omega), fun _ => hstart 52 (by omega), fun _ => ?_⟩
  rw [he.elfPheaders_eq hstored hlen, he.elfPhnum_eq hstored hlen]
  exact h.seen_at hat hne he.pheaders

/-- Pages that are mapped leave the archive in place, for an address space that had it. -/
theorem SeesInitrd.mapsPages {dirs : Set (BitVec 32)} {D : BitVec 32} {privileged : Bool}
    {L : Set (BitVec 32 × BitVec 32)} {m' : Machine τ} (h : SeesInitrd K initrd archive m)
    (hmap : MapsPages K dirs D privileged L m.mem m'.mem) (hs : Spaces K dirs m.mem)
    (hcur : m'.cr3 ∈ dirs)
    (hseen : UserBytes K m.mem m'.cr3 initrd archive.length (physBytes initrd)) :
    SeesInitrd K initrd archive m' := by
  refine ⟨fun i b hb => ?_, hmap.userBytes hs hcur hseen⟩
  have hi := (List.getElem?_eq_some_iff.mp hb).1
  have hbyte : m'.mem (initrd + BitVec.ofNat 32 i) = m.mem (initrd + BitVec.ofNat 32 i) :=
    hmap.user _ (hseen.user i hi)
  rw [hbyte]
  exact h.stored i b hb

/-- The frame of a page that begins within its file. -/
theorem PagesInside.frame (hin : PagesInside file) {addr : BitVec 32}
    (haddr : addr.toNat % 4096 = 0) {u : BitVec 32 × BitVec 32} (hu : u ∈ filePages file addr) :
    ∃ j, 4096 * j < file.length ∧ u.2 = addr + BitVec.ofNat 32 (4096 * j) := by
  obtain ⟨h, hh, hpages⟩ := List.mem_flatMap.mp hu
  obtain ⟨i, hi, -, hf⟩ := ElfPheader.mem_pages.mp hpages
  refine ⟨h.offset.toNat / 4096 + i, hin h hh i hi, ?_⟩
  rw [hf]
  apply BitVec.eq_of_toNat_eq
  simp only [pageAt, palignDown_toNat, BitVec.toNat_add, BitVec.toNat_ofNat]
  omega

/-- It is a frame of the archive, and none that `pm_alloc` gives out. -/
theorem SeesInitrd.frame_not_mem (h : SeesInitrd K initrd archive m)
    (hat : At archive off.toNat file) (hin : PagesInside file)
    (haddr : (initrd + off).toNat % 4096 = 0) {u : BitVec 32 × BitVec 32}
    (hu : u ∈ filePages file (initrd + off)) : u.2 ∉ K := by
  obtain ⟨j, hj, hf⟩ := hin.frame haddr hu
  have hne : file ≠ [] := by
    rintro rfl
    exact absurd hj (by simp)
  -- its first byte is in the file, and the archive is outside `K`
  have hsmall : (BitVec.ofNat 32 (4096 * j)).toNat + 1 ≤ file.length := by
    have := Nat.mod_le (4096 * j) (2 ^ 32)
    rw [BitVec.toNat_ofNat]
    omega
  have hbyte := (h.seen_at hat hne hsmall).user 0 Nat.one_pos
  have hframe : u.2.toNat % 4096 = 0 := by
    rw [hf, BitVec.toNat_add, BitVec.toNat_ofNat]
    omega
  rw [physBytes, show BitVec.ofNat 32 0 = 0#32 from rfl, BitVec.add_zero, ← hf,
    palignDown_of_aligned hframe] at hbyte
  exact hbyte

/-- **User code of two processes** made from files of the archive. -/
theorem TwoLoads.files_disjoint_iff [Tlb τ] {dirs : Set (BitVec 32)} {N c N' : Nat}
    {privileged privileged' : Bool} {m₀ m₁ m₂ m₃ : Machine τ} {off' : BitVec 32} {file' : List Byte}
    (h : TwoLoads K dirs N c N' privileged privileged' (initrd + off) (initrd + off') m₀ m₁ m₂ m₃)
    (hat : At archive off.toNat file) (hat' : At archive off'.toNat file') (he : IsElf file)
    (he' : IsElf file') (hlen : file.length ≤ 2 ^ 32) (hlen' : file'.length ≤ 2 ^ 32)
    (hsees : SeesInitrd K initrd archive m₀) (hsees' : SeesInitrd K initrd archive m₂) :
    Disjoint (userReach m₃.mem m₀.cr3) (userReach m₃.mem m₂.cr3) ↔ privileged = true ∨
      privileged' = true ∨ KeptApart m₀.mem m₀.cr3 m₂.cr3
        {u | u ∈ processFrames m₀ (filePages file (initrd + off))}
        {v | v ∈ processFrames m₂ (filePages file' (initrd + off'))} := by
  rw [← he.imagePages_eq (hsees.stored_at hat) hlen,
    ← he'.imagePages_eq (hsees'.stored_at hat') hlen']
  exact h.disjoint_iff (hsees.seesFile hat he hlen) (hsees'.seesFile hat' he' hlen')

end Archive

/-! ### The files of the archive -/

section Placed

variable {named : List (List Byte × Option (List Byte))} {archive : List Byte} {initrd : BitVec 32}
  {i k : Nat} {x y : BitVec 32 × (List Byte × List Byte)}

/-- A file is counted by a word. -/
theorem length_of_placed (hx : (placedFiles named)[i]? = some x) : x.2.2.length ≤ 2 ^ 32 := by
  have hfile : x.2 ∈ opened named := by
    rw [← placed_files (totalHdrSize (named.map Prod.fst)) (opened named)]
    exact List.mem_map_of_mem (List.mem_of_getElem? hx)
  obtain ⟨f, -, hf⟩ := List.mem_filterMap.mp hfile
  obtain ⟨contents, -, heq⟩ := Option.map_eq_some_iff.mp hf
  rw [← heq, counted_length]
  exact Nat.le_of_lt (Nat.mod_lt _ (by decide))

/-- Files begin at pages. -/
theorem placed_addr (hroom : HasRoom (totalHdrSize (named.map Prod.fst)) (opened named))
    (hinitrd : initrd.toNat % 4096 = 0) (hx : (placedFiles named)[i]? = some x) :
    (initrd + x.1).toNat % 4096 = 0 := by
  have hpages : 4096 ∣ (totalHdrSize (named.map Prod.fst)).toNat :=
    Nat.dvd_of_mod_eq_zero (palignUp_aligned _)
  have hdvd := placed_aligned hpages hroom.end_lt x (List.mem_of_getElem? hx)
  rw [BitVec.toNat_add]
  omega

/-- **Pages that begin within their files are in different frames.** -/
theorem filePages_apart (hroom : HasRoom (totalHdrSize (named.map Prod.fst)) (opened named))
    (hinitrd : initrd.toNat % 4096 = 0) (hx : (placedFiles named)[i]? = some x)
    (hy : (placedFiles named)[k]? = some y) (hik : i ≠ k) (hin : PagesInside x.2.2)
    (hin' : PagesInside y.2.2) :
    ∀ u ∈ filePages x.2.2 (initrd + x.1), ∀ v ∈ filePages y.2.2 (initrd + y.1), u.2 ≠ v.2 := by
  have hend := hroom.end_lt
  have hbound : ∀ x ∈ placedFiles named, x.1.toNat + x.2.2.length < 2 ^ 32 := by
    intro x hx
    have := (placed_bounds hend x hx).2
    omega
  -- one file ends before the other one begins
  have hregions : x.1.toNat + x.2.2.length ≤ y.1.toNat ∨ y.1.toNat + y.2.2.length ≤ x.1.toNat := by
    have hpair : (placedFiles named).Pairwise fun x y =>
        x.1.toNat + alignedLen x.2.2.length ≤ y.1.toNat := placed_regions hend
    rw [List.pairwise_iff_getElem] at hpair
    obtain ⟨hi, hxi⟩ := List.getElem?_eq_some_iff.mp hx
    obtain ⟨hk, hyk⟩ := List.getElem?_eq_some_iff.mp hy
    rcases Nat.lt_or_gt_of_ne hik with hlt | hlt
    · have hle := hpair i k hi hk hlt
      rw [hxi, hyk] at hle
      exact Or.inl (Nat.le_trans (Nat.add_le_add_left (le_alignedLen _) _) hle)
    · have hle := hpair k i hk hi hlt
      rw [hxi, hyk] at hle
      exact Or.inr (Nat.le_trans (Nat.add_le_add_left (le_alignedLen _) _) hle)
  intro u hu v hv heq
  obtain ⟨j, hj, hf⟩ := hin.frame (placed_addr hroom hinitrd hx) hu
  obtain ⟨j', hj', hf'⟩ := hin'.frame (placed_addr hroom hinitrd hy) hv
  have hboundx := hbound x (List.mem_of_getElem? hx)
  have hboundy := hbound y (List.mem_of_getElem? hy)
  rw [hf, hf', BitVec.add_assoc, BitVec.add_assoc, BitVec.add_right_inj] at heq
  have hnat := congrArg BitVec.toNat heq
  simp only [BitVec.toNat_add, BitVec.toNat_ofNat] at hnat
  omega

/-- **User code of two processes** made from different files of an archive of `create`, after
    `proc_load` has run in both, reaches no frame both, exactly if one of the processes is
    privileged or each page of the second that it does not find mapped is in no region of a table
    that both directories share and the first has pages in, and has a frame that the first does not
    have.  The frames are different if every page begins within its file. -/
theorem load_isolated_iff {τ : Type} [Tlb τ] {K dirs : Set (BitVec 32)} {N c N' : Nat}
    {privileged privileged' : Bool} {m₀ m₁ m₂ m₃ : Machine τ}
    (hcreate : createEach named = some archive) (hopen : AllOpen named)
    (hx : (placedFiles named)[i]? = some x) (hy : (placedFiles named)[k]? = some y) (hik : i ≠ k)
    (he : IsElf x.2.2) (he' : IsElf y.2.2)
    (hsees : SeesInitrd K initrd archive m₀) (hsees' : SeesInitrd K initrd archive m₂)
    (h : TwoLoads K dirs N c N' privileged privileged' (initrd + x.1) (initrd + y.1) m₀ m₁ m₂ m₃) :
    (Disjoint (userReach m₃.mem m₀.cr3) (userReach m₃.mem m₂.cr3) ↔ privileged = true ∨
      privileged' = true ∨ KeptApart m₀.mem m₀.cr3 m₂.cr3
        {u | u ∈ processFrames m₀ (filePages x.2.2 (initrd + x.1))}
        {v | v ∈ processFrames m₂ (filePages y.2.2 (initrd + y.1))}) ∧
    (initrd.toNat % 4096 = 0 → PagesInside x.2.2 → PagesInside y.2.2 →
      ∀ u ∈ processFrames m₀ (filePages x.2.2 (initrd + x.1)),
        ∀ v ∈ processFrames m₂ (filePages y.2.2 (initrd + y.1)), u.2 ≠ v.2) := by
  -- that the archive is in memory bounds its length, and with it that of its records
  have hlen := hsees.length_le h.first.start.spaces h.first.start.current
  obtain ⟨hlay, -, hroom, -⟩ := createEach_layout hcreate (by omega) fun _ =>
    alignedLen_headerSize_lt hcreate hlen hopen
  have hat := hlay.body x (List.mem_of_getElem? hx)
  have hat' := hlay.body y (List.mem_of_getElem? hy)
  have hsize := length_of_placed hx
  have hsize' := length_of_placed hy
  refine ⟨h.files_disjoint_iff hat hat' he he' hsize hsize' hsees hsees',
    fun hinitrd hin hin' => ?_⟩
  have haddr := placed_addr hroom hinitrd hx
  have haddr' := placed_addr hroom hinitrd hy
  have hne := filePages_apart hroom hinitrd hx hy hik hin hin'
  -- `pm_alloc` gives out frames of `K` only
  have hoff : ∀ u, u ∈ filePages x.2.2 (initrd + x.1) ∨ u ∈ filePages y.2.2 (initrd + y.1) →
      u.2 ∉ nextFrames N m₀.pm := by
    intro u hu hpool
    have hK := (h.first.start.paging.supply.aligned u.2 hpool).2
    rcases hu with hu | hu
    · exact hsees.frame_not_mem hat hin haddr hu hK
    · exact hsees'.frame_not_mem hat' hin' haddr' hu hK
  rw [← he.imagePages_eq (hsees.stored_at hat) hsize,
    ← he'.imagePages_eq (hsees'.stored_at hat') hsize'] at hne hoff ⊢
  exact h.frames_ne (hsees.seesFile hat he hsize) hoff hne

end Placed

/-! ### Two files -/

/-- An executable of 84 bytes that are its only segment, at `0x30000000`.  The segment has as much
    memory, or a page and a byte. -/
def demoFile (past : Bool) : List Byte :=
  wordBytes elfMagic ++ List.replicate 20 0#8 ++ wordBytes 0x30000000#32 ++ wordBytes 52#32
    ++ List.replicate 12 0#8 ++ [1#8, 0#8] ++ List.replicate 6 0#8
    ++ wordBytes ptLoad ++ wordBytes 0#32 ++ wordBytes 0x30000000#32 ++ wordBytes 0#32
    ++ wordBytes 84#32 ++ wordBytes (if past then 0x1001#32 else 84#32) ++ List.replicate 8 0#8

/-- Two files `a` and `b`. -/
def pairNamed (past : Bool) : List (List Byte × Option (List Byte)) :=
  [([0x61#8], some (demoFile past)), ([0x62#8], some (demoFile false))]

/-- The words of two directories, at `0x1000` and `0x2000`, with the table of the kernel at
    `0x3000`, which maps the three pages of the archive at their address. -/
def pairWords : List (BitVec 32 × BitVec 32) :=
  [(0x1000#32, 0x3003#32), (0x1ffc#32, 0x1003#32), (0x2000#32, 0x3003#32), (0x2ffc#32, 0x2003#32),
   (0x3040#32, 0x10003#32), (0x3044#32, 0x11003#32), (0x3048#32, 0x12003#32)]

/-- The page tables before anything is loaded. -/
def pairTables : Mem := writeAll (fun _ => 0#8) pairWords

/-- A pool at the physical address `0x100000`, all of it free. -/
def pairPm : Pm := ⟨fun _ => 0#32, 0xe0100000#32⟩

/-- The two directories. -/
def pairDirs : List (BitVec 32) := [0x1000#32, 0x2000#32]

/-- The frames of the tables, and those that `pm_alloc` gives out. -/
def pairFrames : List (BitVec 32) :=
  [0x1000#32, 0x2000#32, 0x3000#32, 0x100000#32, 0x101000#32, 0x102000#32, 0x103000#32, 0x104000#32,
   0x105000#32, 0x106000#32, 0x107000#32, 0x108000#32, 0x109000#32, 0x10a000#32, 0x10b000#32]

/-- The machine with an archive at `0x10000`. -/
def pairMachine (archive : List Byte) : Machine Unit where
  mem a := if 0x10000 ≤ a.toNat ∧ a.toNat < 0x10000 + archive.length then
    archive.getD (a.toNat - 0x10000) 0#8 else pairTables a
  cr3 := 0x1000#32
  tlb := ()
  pm := pairPm

section Pair

variable {archive : List Byte} {past : Bool} {D : BitVec 32}

/-- The file is an executable. -/
theorem isElf_demo (past : Bool) : IsElf (demoFile past) := by
  refine ⟨?_, ?_, ?_⟩ <;> cases past <;> decide +kernel

/-- It has 84 bytes, … -/
theorem length_demo (past : Bool) : (demoFile past).length = 84 := by
  cases past <;> rfl

/-- … which memory can hold. -/
theorem length_demo_le (past : Bool) : (demoFile past).length ≤ 2 ^ 32 := by
  rw [length_demo]
  decide

/-- Its one segment. -/
theorem fileSegments_demo (past : Bool) : fileSegments (demoFile past)
    = [⟨1#32, 0#32, 0x30000000#32, 84#32, if past then 0x1001#32 else 84#32⟩] := by
  cases past <;> decide +kernel

/-- The archive has three pages, at most. -/
theorem createEach_pair (past : Bool) :
    ∃ archive, createEach (pairNamed past) = some archive ∧ archive.length ≤ 0x3000 := by
  have hlen : ∀ past, (demoFile past).length < 2 ^ 32 := by
    intro past
    rw [length_demo]
    decide
  refine ⟨_, rfl, ?_⟩
  apply Creation.length_pwrite_le
  · apply length_addFile_le (hlen _)
    · apply length_addFile_le (hlen _)
      · cases past <;> decide
      · cases past <;> decide
      · rw [length_demo]
        cases past <;> decide
    · cases past <;> decide
    · rw [length_demo]
      cases past <;> decide
  · cases past <;> decide

/-- The first begins after the table of contents, the other one at the next page. -/
theorem placed_pair (past : Bool) :
    (placedFiles (pairNamed past))[0]? = some (0x1000#32, [0x61#8], demoFile past) ∧
      (placedFiles (pairNamed past))[1]? = some (0x2000#32, [0x62#8], demoFile false) := by
  have hcounted : ∀ past, counted (demoFile past) = demoFile past := by
    intro past
    apply List.take_of_length_le
    rw [length_demo]
    decide
  have hopened : opened (pairNamed past)
      = [([0x61#8], counted (demoFile past)), ([0x62#8], counted (demoFile false))] := rfl
  have hheader : totalHdrSize ((pairNamed past).map Prod.fst) = 0x1000#32 := by
    show totalHdrSize [[0x61#8], [0x62#8]] = 0x1000#32
    decide
  rw [placedFiles, hheader, hopened, hcounted, hcounted, placed, placed, placed, nextOffset,
    length_demo]
  exact ⟨rfl, rfl⟩

/-- Both files can be opened. -/
theorem allOpen_pair (past : Bool) : AllOpen (pairNamed past) := by
  intro f hf
  rw [pairNamed, List.mem_pair] at hf
  rcases hf with rfl | rfl
  · exact ⟨Option.some_ne_none _, show (basename [0x61#8]).length + 1 < 2 ^ 32 by decide⟩
  · exact ⟨Option.some_ne_none _, show (basename [0x62#8]).length + 1 < 2 ^ 32 by decide⟩

/-- The two files are at `0x1000` and `0x2000` in the archive. -/
theorem at_pair (hcreate : createEach (pairNamed past) = some archive)
    (hlen : archive.length ≤ 0x3000) :
    At archive (0x1000#32).toNat (demoFile past) ∧
      At archive (0x2000#32).toNat (demoFile false) := by
  obtain ⟨hlay, -⟩ := createEach_layout hcreate (by omega) fun _ =>
    alignedLen_headerSize_lt hcreate (by omega) (allOpen_pair past)
  obtain ⟨hx, hy⟩ := placed_pair past
  exact ⟨hlay.body _ (List.mem_of_getElem? hx), hlay.body _ (List.mem_of_getElem? hy)⟩

/-- In both directories there is the table of the kernel, and nothing else. -/
theorem oneTable_pair (hD : D ∈ pairDirs) : OneTable pairTables D 0x3000#32 := by
  rw [pairDirs, List.mem_pair] at hD
  have htest : pairWords.all (fun u => decide (u.1.toNat % 4 = 0 ∧
      (u.1.toNat / 4096 = 1 → u.1.toNat = 0x1000 ∨ u.1.toNat = 0x1ffc) ∧
      (u.1.toNat / 4096 = 2 → u.1.toNat = 0x2000 ∨ u.1.toNat = 0x2ffc))) = true := by
    decide
  have hwords := fun u hu => of_decide_eq_true (List.all_eq_true.mp htest u hu)
  rcases hD with rfl | rfl
  · exact oneTable_of_words (by decide) (by decide +kernel) (by decide +kernel) fun u hu =>
      ⟨(hwords u hu).1, (hwords u hu).2.1⟩
  · exact oneTable_of_words (by decide) (by decide +kernel) (by decide +kernel) fun u hu =>
      ⟨(hwords u hu).1, (hwords u hu).2.2⟩

/-- The paging state before the loads. -/
theorem paging_pair : Paging {F | F ∈ pairFrames} {D | D ∈ pairDirs} 12
    ⟨pairTables, 0x1000#32, (), pairPm⟩ := by
  have hdir : ∀ D ∈ pairDirs, D ∈ pairFrames ∧ D ≠ 0x3000#32 ∧ D.toNat < 0x100000 := by
    intro D hD
    rw [pairDirs, List.mem_pair] at hD
    rcases hD with rfl | rfl
    · decide
    · decide
  have hnext : nextFrames 12 pairPm = pairFrames.drop 3 := by
    decide +kernel
  have hpool : (pairFrames.drop 3).all (fun F => decide (F.toNat % 4096 = 0 ∧ 0x100000 ≤ F.toNat))
      = true := by
    decide
  have hwords : pairWords.all (fun u => decide (u.1.toNat + 4 ≤ 0x100000)) = true := by
    decide
  have htables : ∀ D ∈ {D | D ∈ pairDirs}, OneTable pairTables D 0x3000#32 ∧
      D ∈ {F | F ∈ pairFrames} ∧ 0x3000#32 ∈ {F | F ∈ pairFrames} := fun D hD =>
    ⟨oneTable_pair hD, (hdir D hD).1, by decide⟩
  have hlow : ∀ D ∈ {D | D ∈ pairDirs}, OneTable pairTables D 0x3000#32 ∧ D.toNat < 0x100000 ∧
      (0x3000#32 : BitVec 32).toNat < 0x100000 := fun D hD =>
    ⟨oneTable_pair hD, (hdir D hD).2.2, by decide⟩
  refine ⟨?_, ?_, List.mem_cons_self⟩
  · exact spaces_of_oneTable htables fun D _ E hE heq => (hdir E hE).2.1 heq.symm
  · refine supply_of_oneTable hlow
      (fun u hu => of_decide_eq_true (List.all_eq_true.mp hwords u hu)) ?_ fun F hF => ?_
    · rw [hnext]
      decide
    · rw [hnext] at hF
      obtain ⟨hal, hlo⟩ := of_decide_eq_true (List.all_eq_true.mp hpool F hF)
      exact ⟨hal, hlo, List.mem_of_mem_drop hF⟩

/-- No entry is for user code. -/
theorem noUser_pair (D : BitVec 32) : NoUser pairTables D := by
  have htest : pairWords.all (fun u => decide (u.1.toNat % 4 = 0 ∧ u.2 &&& pteU = 0#32))
      = true := by
    decide
  have hwords := fun u hu => of_decide_eq_true (List.all_eq_true.mp htest u hu)
  have hentry : ∀ c j : BitVec 32, c.toNat % 4096 = 0 → j.toNat < 1024 →
      tableEntry pairTables c j &&& pteU = 0#32 := by
    intro c j hc hj
    have hslot := slot_toNat hc hj
    -- a word is zero, or one of those stored
    rcases read32_writeAll_cases (m := fun _ => 0#8) (a := c + 4#32 * j) (by omega)
      fun u hu => (hwords u hu).1 with hold | ⟨u, hu, hnew⟩
    · have hzero : tableEntry pairTables c j = tableEntry (fun _ => 0#8) c j := hold
      rw [hzero, tableEntry_zero]
      decide
    · have hword : tableEntry pairTables c j = u.2 := hnew
      rw [hword]
      exact (hwords u hu).2
  refine ⟨fun w hw => ?_, fun w f _ hp => ?_⟩
  · exact hw.2 (hentry _ _ (palignDown_aligned _) (vmPdirIdx_lt w))
  · exact hp.2 (hentry _ _ (palignDown_aligned _) (vmPtabIdx_lt w))

/-- The frames are off the archive, and off the pages behind it. -/
theorem pairFrames_far {F : BitVec 32} (hF : F ∈ pairFrames) :
    F.toNat < 0x10000 ∨ 0x20000 ≤ F.toNat := by
  have htest : pairFrames.all (fun F => decide (F.toNat < 0x10000 ∨ 0x20000 ≤ F.toNat)) = true := by
    decide
  exact of_decide_eq_true (List.all_eq_true.mp htest F hF)

/-- Where a byte of the archive is. -/
theorem initrd_byte {i : Nat} (hi : i < 0x3000) :
    (0x10000#32 + BitVec.ofNat 32 i).toNat = 0x10000 + i := by
  rw [BitVec.toNat_add, BitVec.toNat_ofNat, BitVec.toNat_ofNat]
  omega

/-- The archive is in none of the frames. -/
theorem agree_pair (hlen : archive.length ≤ 0x3000) :
    ∀ x, palignDown x ∈ {F | F ∈ pairFrames} → (pairMachine archive).mem x = pairTables x := by
  intro x hx
  have hframe := pairFrames_far hx
  rw [palignDown_toNat] at hframe
  exact if_neg (by omega)

/-- What the directories have, with the archive in memory. -/
theorem spaces_pair (hlen : archive.length ≤ 0x3000) : Paging {F | F ∈ pairFrames}
      {D | D ∈ pairDirs} 12 (pairMachine archive).bare ∧
    ∀ D ∈ pairDirs, OneTable (pairMachine archive).mem D 0x3000#32 ∧
      NoUser (pairMachine archive).mem D := by
  have hagree := agree_pair hlen
  have hs := paging_pair.spaces
  refine ⟨(paging_pair.of_agree hagree).1, fun D hD => ⟨?_, ?_⟩⟩
  · exact (oneTable_pair hD).of_agree hs hD hagree
  · exact (noUser_pair D).of_agree hs hD hagree

/-- Both directories have the archive at its physical address. -/
theorem initrd_pair (hlen : archive.length ≤ 0x3000) (hD : D ∈ pairDirs) :
    UserBytes {F | F ∈ pairFrames} (pairMachine archive).mem D 0x10000#32 archive.length
      (physBytes 0x10000#32) := by
  have hpages : ∀ i < 3, walk pairTables D (pageAt 0x10000#32 i) = some (pageAt 0x10000#32 i) := by
    rw [pairDirs, List.mem_pair] at hD
    rcases hD with rfl | rfl
    · decide +kernel
    · decide +kernel
  refine ⟨fun i hi => ?_, fun i hi hK => ?_⟩
  · replace hi := Nat.lt_of_lt_of_le hi hlen
    have hpage : palignDown (0x10000#32 + BitVec.ofNat 32 i) = pageAt 0x10000#32 (i / 4096) := by
      apply BitVec.eq_of_toNat_eq
      rw [palignDown_toNat, initrd_byte hi, pageAt, BitVec.toNat_add, BitVec.toNat_ofNat,
        BitVec.toNat_ofNat]
      omega
    rw [hwTranslate, paging_pair.spaces.walk_agree (agree_pair hlen) hD, ← walk_palignDown, hpage,
      hpages _ (by omega), Option.map_some, ← hpage, palignDown_add_pageOffset, physBytes]
  · replace hi := Nat.lt_of_lt_of_le hi hlen
    have hframe := pairFrames_far hK
    rw [palignDown_toNat, physBytes, initrd_byte hi] at hframe
    omega

/-- The archive is in memory. -/
theorem stored_pair (hlen : archive.length ≤ 0x3000) :
    Stored (pairMachine archive).mem 0x10000#32 archive := by
  intro i b hb
  have hi := (List.getElem?_eq_some_iff.mp hb).1
  have hbyte := initrd_byte (Nat.lt_of_lt_of_le hi hlen)
  have hin : 0x10000 ≤ (0x10000#32 + BitVec.ofNat 32 i).toNat ∧
      (0x10000#32 + BitVec.ofNat 32 i).toNat < 0x10000 + archive.length := by
    rw [hbyte]
    omega
  have hmem : (pairMachine archive).mem (0x10000#32 + BitVec.ofNat 32 i)
      = archive.getD ((0x10000#32 + BitVec.ofNat 32 i).toNat - 0x10000) 0#8 := if_pos hin
  rw [hmem, hbyte, Nat.add_sub_cancel_left, List.getD_eq_getElem?_getD, hb, Option.getD_some]

/-- The pages of the image, … -/
theorem mem_imagePages_demo {addr q : BitVec 32}
    (hq : q ∈ (filePages (demoFile past) addr).map Prod.fst) :
    q ∈ [0x30000000#32, 0x30001000#32] := by
  rw [filePages, fileSegments_demo] at hq
  cases past with
  | false =>
    rw [List.mem_singleton.mp hq]
    exact List.mem_cons_self
  | true => exact hq

/-- … and the regions of all pages. -/
theorem region_demo {addr q : BitVec 32}
    (hq : q ∈ (filePages (demoFile past) addr).map Prod.fst ∨ q ∈ stackPages) :
    vmPdirIdx q = 192#32 ∨ vmPdirIdx q = 831#32 := by
  have htest : ([0x30000000#32, 0x30001000#32] ++ stackPages).all (fun q => decide
      (vmPdirIdx q = 192#32 ∨ vmPdirIdx q = 831#32)) = true := by
    decide
  have hmem : q ∈ [0x30000000#32, 0x30001000#32] ++ stackPages := by
    rcases hq with hq | hq
    · exact List.mem_append_left _ (mem_imagePages_demo hq)
    · exact List.mem_append_right _ hq
  exact of_decide_eq_true (List.all_eq_true.mp htest q hmem)

/-- Nothing is mapped where the segments and the windows go. -/
theorem unmapped_demo {mem : Mem} {T q : BitVec 32} (hone : OneTable mem D T)
    (hq : vmPdirIdx q = 192#32 ∨ vmPdirIdx q = 831#32) : walk mem D q = none := by
  apply hone.unmapped
  · rcases hq with hq | hq <;> rw [hq] <;> decide
  · rcases hq with hq | hq <;> rw [hq] <;> decide

/-- The file can be loaded. -/
theorem loadable_demo {m : Machine Unit} {T off : BitVec 32} (hone : OneTable m.mem m.cr3 T)
    (hsees : SeesInitrd {F | F ∈ pairFrames} 0x10000#32 archive m)
    (hat : At archive off.toNat (demoFile past)) (hoff : off = 0x1000#32 ∨ off = 0x2000#32) :
    Loadable {F | F ∈ pairFrames} m (0x10000#32 + off) := by
  have he := isElf_demo past
  have hsize := length_demo_le past
  have hstored := hsees.stored_at hat
  have hfile := hsees.seesFile hat he hsize
  have hmagic := he.magic_eq hstored hsize
  have hmemsz : (if past then 0x1001#32 else 84#32).toNat ≤ 0x1001 := by
    cases past <;> decide
  refine ⟨hfile.header hmagic, hfile.pheaders hmagic, ?_, ?_, ?_, ?_, ?_, ?_⟩
  all_goals
    rw [he.elfSegments_eq hstored hsize, fileSegments_demo]
  · cases past <;> decide
  · cases past <;> decide
  · cases past <;> decide
  · exact List.pairwise_singleton _ _
  · intro h hh k hk
    obtain rfl := List.mem_singleton.mp hh
    have hlt := Nat.lt_of_lt_of_le hk hmemsz
    apply unmapped_demo hone
    apply Or.inl
    apply BitVec.eq_of_toNat_eq
    rw [vmPdirIdx_toNat, BitVec.toNat_add]
    simp only [BitVec.toNat_ofNat]
    omega
  · intro h hh k hk hK
    obtain rfl := List.mem_singleton.mp hh
    have hlt := Nat.lt_of_lt_of_le hk hmemsz
    have hframe := pairFrames_far hK
    simp only [ElfPheader.place, palignDown_toNat, pageOffset_toNat, BitVec.toNat_add,
      BitVec.toNat_ofNat] at hframe
    rcases hoff with rfl | rfl
    · simp only [BitVec.toNat_ofNat] at hframe
      omega
    · simp only [BitVec.toNat_ofNat] at hframe
      omega

/-- **It is loaded**, with six frames. -/
theorem loads_demo {m : Machine Unit} {T off : BitVec 32} {N c : Nat}
    (hpag : Paging {F | F ∈ pairFrames} {D | D ∈ pairDirs} N m.bare) (hN : c + 6 ≤ N)
    (hone : OneTable m.mem m.cr3 T) (hsees : SeesInitrd {F | F ∈ pairFrames} 0x10000#32 archive m)
    (hat : At archive off.toNat (demoFile past)) (hoff : off = 0x1000#32 ∨ off = 0x2000#32) :
    ∃ m', Loads {F | F ∈ pairFrames} {D | D ∈ pairDirs} N c false (0x10000#32 + off) m m' := by
  have he := isElf_demo past
  have hsize := length_demo_le past
  have hstored := hsees.stored_at hat
  have hmagic := he.magic_eq hstored hsize
  have himage := he.imagePages_eq hstored hsize
  have hregions : ∀ q ∈ loadPages m.mem (0x10000#32 + off),
      vmPdirIdx q = 192#32 ∨ vmPdirIdx q = 831#32 := by
    intro q hq
    rw [loadPages, himage] at hq
    exact region_demo hq
  have hstart : Start {F | F ∈ pairFrames} {D | D ∈ pairDirs} (loadPages m.mem (0x10000#32 + off)) N
      m := by
    refine ⟨coherent_unit _ _ _, hpag, fun q hq => ?_⟩
    rcases hregions q hq with hreg | hreg <;> rw [hreg] <;> decide
  have hlack : (lacking m.mem m.cr3 (loadPages m.mem (0x10000#32 + off))).ncard ≤ 2 := by
    have hsub : lacking m.mem m.cr3 (loadPages m.mem (0x10000#32 + off)) ⊆ {192#32, 831#32} := by
      rintro r ⟨q, hq, rfl, -⟩
      exact hregions q hq
    rw [← Set.ncard_pair (show (192#32 : BitVec 32) ≠ 831#32 by decide)]
    exact Set.ncard_le_ncard hsub (Set.toFinite _)
  have hstack : pagesOf userStackSize = 4 := by decide
  have henough : (lacking m.mem m.cr3 (loadPages m.mem (0x10000#32 + off))).ncard
      + (c + pagesOf userStackSize) ≤ N := by
    omega
  have hoffstack : ∀ q ∈ stackPages, walk m.mem m.cr3 q = none ∧
      q ∉ (elfPages m.mem (0x10000#32 + off)).map Prod.fst := by
    have htest : stackPages.all (fun q => decide (q ∉ [0x30000000#32, 0x30001000#32])) = true := by
      decide
    intro q hq
    refine ⟨unmapped_demo hone (@region_demo past 0#32 q (Or.inr hq)), fun hin => ?_⟩
    have hnot := of_decide_eq_true (List.all_eq_true.mp htest q hq)
    have helf : elfPages m.mem (0x10000#32 + off)
        = filePages (demoFile past) (0x10000#32 + off) := by
      rw [← himage, imagePages, if_pos hmagic]
    rw [helf] at hin
    exact hnot (mem_imagePages_demo hin)
  obtain ⟨m', hrun⟩ := procLoad_completes m hstart (hsees.seesFile hat he hsize) henough hmagic
    (loadable_demo hone hsees hat hoff) hoffstack false
  exact ⟨m', hstart, henough, _, hrun⟩

/-- Both address spaces see the archive. -/
theorem sees_pair (hlen : archive.length ≤ 0x3000) :
    SeesInitrd {F | F ∈ pairFrames} 0x10000#32 archive (pairMachine archive) :=
  ⟨stored_pair hlen, initrd_pair hlen List.mem_cons_self⟩

/-- One file is loaded, and then the other, in the second directory. -/
theorem twoLoads_pair (hcreate : createEach (pairNamed past) = some archive)
    (hlen : archive.length ≤ 0x3000) :
    ∃ m₁ m₃, TwoLoads {F | F ∈ pairFrames} {D | D ∈ pairDirs} 12 6 6 false false
        (0x10000#32 + 0x1000#32) (0x10000#32 + 0x2000#32) (pairMachine archive) m₁
        { m₁ with cr3 := 0x2000#32 } m₃ ∧
      SeesInitrd {F | F ∈ pairFrames} 0x10000#32 archive { m₁ with cr3 := 0x2000#32 } := by
  obtain ⟨hat, hat'⟩ := at_pair hcreate hlen
  have hD : (0x1000#32 : BitVec 32) ∈ pairDirs := List.mem_cons_self
  have hE : (0x2000#32 : BitVec 32) ∈ pairDirs := List.mem_cons_of_mem _ List.mem_cons_self
  have hne : palignDown (0x2000#32 : BitVec 32) ≠ palignDown 0x1000#32 := by decide
  obtain ⟨hpag, hspaces⟩ := spaces_pair hlen
  have hsees := sees_pair hlen
  obtain ⟨m₁, hfirst⟩ := loads_demo hpag (show 6 + 6 ≤ 12 by decide) (hspaces _ hD).1 hsees hat
    (Or.inl rfl)
  obtain ⟨entry, hrun⟩ := hfirst.runs
  have hsize := length_demo_le past
  have hload := procLoad_loads _ hfirst.start (hsees.seesFile hat (isElf_demo past) hsize)
    hfirst.enough hrun
  obtain ⟨n, k, hcount⟩ := hload.frames
  have hpag₁ := hcount.paging
  have henough := hcount.enough
  -- the second directory is as the first process leaves it: its entries are not written
  have hpag₂ : Paging {F | F ∈ pairFrames} {D | D ∈ pairDirs} 6
      { m₁ with cr3 := 0x2000#32 }.bare :=
    ⟨hpag₁.spaces, hpag₁.supply.mono (by omega), hE⟩
  have hone₂ : OneTable m₁.mem 0x2000#32 0x3000#32 := by
    refine ⟨hpag₁.spaces.recursive _ hE, fun w hp => ?_⟩
    rw [hload.mapped.others _ hE hne] at hp ⊢
    exact (hspaces _ hE).1.slots w hp
  have hsees₂ : SeesInitrd {F | F ∈ pairFrames} 0x10000#32 archive { m₁ with cr3 := 0x2000#32 } :=
    hsees.mapsPages hload.mapped hpag.spaces hE (initrd_pair hlen hE)
  obtain ⟨m₃, hsecond⟩ := loads_demo hpag₂ (Nat.le_refl 6) hone₂ hsees₂ hat' (Or.inr rfl)
  refine ⟨m₁, m₃, ⟨hfirst, hsecond, hne, ⟨(hspaces _ hD).2, (hspaces _ hE).2⟩, ?_, fun w => Iff.rfl,
    fun F hF => hF⟩, hsees₂⟩
  exact ⟨⟨fun w => Iff.rfl, fun w f _ => Iff.rfl⟩, ⟨fun w => Iff.rfl, fun w f _ => Iff.rfl⟩⟩

/-- The region of a page of the process is in no table. -/
theorem not_shares_demo {mem : Mem} {T E q : BitVec 32} (hone : OneTable mem D T)
    (hq : vmPdirIdx q = 192#32 ∨ vmPdirIdx q = 831#32) : ¬ Shares mem D E q := by
  rintro ⟨hp, -, -⟩
  rcases hone.slots q hp with ⟨hidx, -⟩ | ⟨hidx, -⟩
  · rw [hidx] at hq
    exact absurd hq (by decide)
  · rw [hidx] at hq
    exact absurd hq (by decide)

end Pair

/-- The segments are in their files, … -/
theorem segmentsInside_demo (past : Bool) : SegmentsInside (demoFile past) := by
  intro h hh
  rw [fileSegments_demo, List.mem_singleton] at hh
  rw [hh]
  cases past <;> decide

/-- … and without the page and the byte every page begins in its file. -/
theorem pagesInside_demo : PagesInside (demoFile false) := by
  intro h hh
  rw [fileSegments_demo, List.mem_singleton] at hh
  rw [hh]
  decide

/-- **Two files of an archive**, without the page and the byte: user code reaches no frame of both
    processes. -/
theorem load_isolated_pair : ∃ archive m₁ m₃, createEach (pairNamed false) = some archive ∧
    TwoLoads {F | F ∈ pairFrames} {D | D ∈ pairDirs} 12 6 6 false false (0x10000#32 + 0x1000#32)
      (0x10000#32 + 0x2000#32) (pairMachine archive) m₁ { m₁ with cr3 := 0x2000#32 } m₃ ∧
    Disjoint (userReach m₃.mem 0x1000#32) (userReach m₃.mem 0x2000#32) := by
  obtain ⟨archive, hcreate, hlen⟩ := createEach_pair false
  obtain ⟨m₁, m₃, hloads, hsees'⟩ := twoLoads_pair hcreate hlen
  obtain ⟨hx, hy⟩ := placed_pair false
  obtain ⟨hiff, hframes⟩ := load_isolated_iff hcreate (allOpen_pair false) hx hy Nat.zero_ne_one
    (isElf_demo false) (isElf_demo false) (sees_pair hlen) hsees' hloads
  obtain ⟨-, hspaces⟩ := spaces_pair hlen
  refine ⟨archive, m₁, m₃, hcreate, hloads, hiff.mpr (Or.inr (Or.inr ⟨?_, ?_⟩))⟩
  · -- the table that they share is that of the first region, and the pages are elsewhere
    intro v hv _ u hu _
    apply not_shares_demo (hspaces _ List.mem_cons_self).1
    apply region_demo
    have hpage : v.1 ∈ (processFrames _ (filePages (demoFile false) _)).map Prod.fst :=
      List.mem_map_of_mem hv
    rw [processFrames, List.map_append, map_fst_stackFrames] at hpage
    exact List.mem_append.mp hpage
  · intro v hv _ u hu
    exact hframes (by decide) pagesInside_demo pagesInside_demo u hu v hv

/-- A segment may have more memory than its file: then **user code reaches the next file**, the
    image of another process. -/
theorem neighbour_reached : ¬ ∀ (named : List (List Byte × Option (List Byte)))
    (archive : List Byte) (initrd : BitVec 32) (K dirs : Set (BitVec 32)) (N c N' i k : Nat)
    (privileged privileged' : Bool) (x y : BitVec 32 × (List Byte × List Byte))
    (m₀ m₁ m₂ m₃ : Machine Unit),
    createEach named = some archive → AllOpen named → initrd.toNat % 4096 = 0 →
    (placedFiles named)[i]? = some x → (placedFiles named)[k]? = some y → i ≠ k →
    IsElf x.2.2 → IsElf y.2.2 → SegmentsInside x.2.2 → SegmentsInside y.2.2 →
    SeesInitrd K initrd archive m₀ → SeesInitrd K initrd archive m₂ →
    TwoLoads K dirs N c N' privileged privileged' (initrd + x.1) (initrd + y.1) m₀ m₁ m₂ m₃ →
    Disjoint (userReach m₃.mem m₀.cr3) (userReach m₃.mem m₂.cr3) := by
  intro hclaim
  obtain ⟨archive, hcreate, hlen⟩ := createEach_pair true
  obtain ⟨m₁, m₃, hloads, hsees'⟩ := twoLoads_pair hcreate hlen
  obtain ⟨hx, hy⟩ := placed_pair true
  have hdisj := hclaim (pairNamed true) archive 0x10000#32 {F | F ∈ pairFrames} {D | D ∈ pairDirs}
    12 6 6 0 1 false false _ _ (pairMachine archive) m₁ _ m₃ hcreate (allOpen_pair true) (by decide)
    hx hy Nat.zero_ne_one (isElf_demo true) (isElf_demo false) (segmentsInside_demo true)
    (segmentsInside_demo false) (sees_pair hlen) hsees' hloads
  obtain ⟨hat, hat'⟩ := at_pair hcreate hlen
  have hiff := hloads.files_disjoint_iff hat hat' (isElf_demo true) (isElf_demo false)
    (length_demo_le true) (length_demo_le false) (sees_pair hlen) hsees'
  have hapart := ((hiff.mp hdisj).resolve_left Bool.false_ne_true).resolve_left Bool.false_ne_true
  -- the second page of the first file is the first page of the other
  have hu : (0x30001000#32, 0x12000#32) ∈ filePages (demoFile true) (0x10000#32 + 0x1000#32) := by
    rw [filePages, fileSegments_demo]
    decide
  have hv : (0x30000000#32, 0x12000#32) ∈ filePages (demoFile false) (0x10000#32 + 0x2000#32) := by
    rw [filePages, fileSegments_demo]
    decide
  obtain ⟨-, hspaces⟩ := spaces_pair hlen
  have hone := (hspaces 0x1000#32 List.mem_cons_self).1
  refine hapart.frames (0x30000000#32, 0x12000#32) (List.mem_append_left _ hv) (fun hsh => ?_)
    (0x30001000#32, 0x12000#32) (List.mem_append_left _ hu) rfl
  exact not_shares_demo hone (by decide) hsh.1

end Leoman
