import Leoman.EitherOrder
import Leoman.Populate

namespace Leoman

open ByteMem StateExcept

/-!
# Executables (`kernel/elf.c`)

`elf_load` maps the segments of an executable in place: the pages of the file become the pages of
the process.  It does so for `p_memsz` bytes from the page of `p_vaddr` on, and copies and clears
nothing.

* `elfLoad` — the loader, with its loads from the file;
* `ElfPheader`, `elfPheader` — the program headers, read off memory;
* `Loadable` — executables whose segments have pages of their own, which are not mapped yet;
* `elfLoad_populates` — the loader completes, and has mapped `elfPages` and nothing else;
* `elfLoad_image_iff` — the process has the image of the executable exactly when no segment ends
  behind the last page it got, and what comes after the file bytes of a segment is zero.
-/

/-! ### The loader -/

/-- `struct elf_pheader`, less the fields nobody reads.  (The loader does not read `filesz`.) -/
structure ElfPheader where
  type : BitVec 32
  offset : BitVec 32
  vaddr : BitVec 32
  filesz : BitVec 32
  memsz : BitVec 32
deriving DecidableEq, Repr

/-- `sizeof(struct elf_pheader)`. -/
def elfPheaderSize : BitVec 32 := 32#32

/-- `PT_NULL`. -/
def ptNull : BitVec 32 := 0#32

/-- `PT_LOAD`. -/
def ptLoad : BitVec 32 := 1#32

section Code

variable {τ : Type} [Tlb τ]

/-- Read a half word. -/
def load16 (vaddr : BitVec 32) : Code Trap (Machine τ) (BitVec 16) := do
  let pa₀ ← translate vaddr
  let pa₁ ← translate (vaddr + 1#32)
  let m := (← get).mem
  return m pa₁ ++ m pa₀

/-- The flags of the pages of a process. -/
def elfFlags (privileged : Bool) : BitVec 32 := pteW ||| if privileged then 0#32 else pteU

/-- The body of the loop of `elf_load`. -/
def elfLoadPheader (privileged : Bool) (file phdr : BitVec 32) : Code Trap (Machine τ) Unit := do
  let pType ← load32 phdr
  if pType = ptNull then pure ()
  else if pType = ptLoad then do
    let pOffset ← load32 (phdr + 4#32)
    let pVaddr ← load32 (phdr + 8#32)
    let pMemsz ← load32 (phdr + 20#32)
    mapPages (file + pOffset) pVaddr (elfFlags privileged) pMemsz
  else pure ()

/-- The loop of `elf_load` from header `i` on, with `n` rounds left: `hdr->e_phnum` is read in each
    of them. -/
def elfLoadLoop (privileged : Bool) (file : BitVec 32) :
    Nat → Nat → BitVec 32 → Code Trap (Machine τ) Unit
  | 0, _, _ => pure ()
  | n + 1, i, phdr => do
    let ePhnum ← load16 (file + 44#32)
    if i < ePhnum.toNat then do
      elfLoadPheader privileged file phdr
      elfLoadLoop privileged file n (i + 1) (phdr + elfPheaderSize)
    else pure ()

/-- `elf_load`; `privileged` is `current_proc->privileged`.  The header number has 16 bits, so the
    loop ends in the round for header `0xffff` at the latest. -/
def elfLoad (privileged : Bool) (file : BitVec 32) : Code Trap (Machine τ) (BitVec 32) := do
  let ePhoff ← load32 (file + 28#32)
  elfLoadLoop privileged file 0x10000 0 (file + ePhoff)
  load32 (file + 24#32)

end Code

/-! ### The executable in memory -/

section File

variable (mem : Mem) (file : BitVec 32)

/-- `hdr->e_entry`. -/
def elfEntry : BitVec 32 := read32 mem (file + 24#32)

/-- The address of the program headers. -/
def elfPheaders : BitVec 32 := file + read32 mem (file + 28#32)

/-- `hdr->e_phnum`. -/
def elfPhnum : Nat := (mem (file + 44#32 + 1#32) ++ mem (file + 44#32)).toNat

/-- The program header at an address. -/
def pheaderAt (a : BitVec 32) : ElfPheader where
  type := read32 mem a
  offset := read32 mem (a + 4#32)
  vaddr := read32 mem (a + 8#32)
  filesz := read32 mem (a + 16#32)
  memsz := read32 mem (a + 20#32)

/-- Program header `i`. -/
def elfPheader (i : Nat) : ElfPheader :=
  pheaderAt mem (elfPheaders mem file + BitVec.ofNat 32 (32 * i))

/-- The segments: the program headers of type `PT_LOAD`. -/
def elfSegments : List ElfPheader :=
  ((List.range (elfPhnum mem file)).map (elfPheader mem file)).filter (·.type = ptLoad)

end File

namespace ElfPheader

variable (h : ElfPheader) (file : BitVec 32)

/-- Where the loader maps byte `k` of the segment: in the page of the file that it maps at the page
    of `vaddr`, and the pages after it. -/
def place (k : Nat) : BitVec 32 :=
  palignDown (file + h.offset) + pageOffset h.vaddr + BitVec.ofNat 32 k

/-- The pages the loader maps for the segment, with their frames. -/
def pages : List (BitVec 32 × BitVec 32) :=
  rangePages (palignDown (file + h.offset)) (palignDown h.vaddr) (pagesOf h.memsz)

/-- In a file at a page boundary that is the byte of the file. -/
theorem place_of_aligned (hfile : file.toNat % 4096 = 0)
    (hcong : h.vaddr.toNat % 4096 = h.offset.toNat % 4096) (k : Nat) :
    h.place file k = file + h.offset + BitVec.ofNat 32 k := by
  have hoff : pageOffset h.vaddr = pageOffset (file + h.offset) := by
    apply BitVec.eq_of_toNat_eq
    rw [pageOffset_toNat, pageOffset_toNat, BitVec.toNat_add]
    omega
  rw [place, hoff, palignDown_add_pageOffset]

end ElfPheader

/-- The pages of the first `n` program headers. -/
def elfPagesUpTo (mem : Mem) (file : BitVec 32) (n : Nat) : List (BitVec 32 × BitVec 32) :=
  (((List.range n).map (elfPheader mem file)).filter (·.type = ptLoad)).flatMap (·.pages file)

/-- The pages the loader maps. -/
def elfPages (mem : Mem) (file : BitVec 32) : List (BitVec 32 × BitVec 32) :=
  (elfSegments mem file).flatMap (·.pages file)

/-- The segments have no page in common. -/
def ElfPheader.Apart (g h : ElfPheader) : Prop := ∀ j < g.memsz.toNat, ∀ k < h.memsz.toNat,
  palignDown (g.vaddr + BitVec.ofNat 32 j) ≠ palignDown (h.vaddr + BitVec.ofNat 32 k)

instance : Std.Symm ElfPheader.Apart where
  symm _ _ hab j hj k hk heq := hab k hk j hj heq.symm

/-- The executable at `file` is in memory, outside the tables and the frames left for some, and at
    its physical address.  Its segments are below the kernel, with pages of their own, which are
    not mapped yet. -/
structure Loadable {τ : Type} (K : Set (BitVec 32)) (m : Machine τ) (file : BitVec 32) : Prop where
  header : UserBytes K m.mem m.cr3 file 52 (physBytes file)
  pheaders : UserBytes K m.mem m.cr3 (elfPheaders m.mem file) (32 * elfPhnum m.mem file)
    (physBytes (elfPheaders m.mem file))
  sizes : ∀ h ∈ elfSegments m.mem file, 1 ≤ h.filesz.toNat ∧ h.filesz.toNat ≤ h.memsz.toNat
  below : ∀ h ∈ elfSegments m.mem file, h.vaddr.toNat + h.memsz.toNat ≤ 0xc0000000
  congruent : ∀ h ∈ elfSegments m.mem file, h.vaddr.toNat % 4096 = h.offset.toNat % 4096
  apart : (elfSegments m.mem file).Pairwise ElfPheader.Apart
  unmapped : ∀ h ∈ elfSegments m.mem file, ∀ k < h.memsz.toNat,
    walk m.mem m.cr3 (h.vaddr + BitVec.ofNat 32 k) = none
  inPlace : ∀ h ∈ elfSegments m.mem file, ∀ k < h.memsz.toNat, palignDown (h.place file k) ∉ K

/-! ### Pages of a segment -/

section Pages

variable {h g : ElfPheader} {file : BitVec 32}

/-- The page of a byte. -/
theorem ElfPheader.page_of_byte (hend : h.vaddr.toNat + h.memsz.toNat ≤ 0xc0000000) {k : Nat}
    (hk : k < h.memsz.toNat) : palignDown (h.vaddr + BitVec.ofNat 32 k)
      = pageAt (palignDown h.vaddr) ((h.vaddr.toNat % 4096 + k) / 4096) := by
  apply BitVec.eq_of_toNat_eq
  simp only [pageAt, palignDown_toNat, BitVec.toNat_add, BitVec.toNat_ofNat]
  omega

/-- Every page the loader maps holds a byte of the segment. -/
theorem ElfPheader.byte_of_page (hend : h.vaddr.toNat + h.memsz.toNat ≤ 0xc0000000) {i : Nat}
    (hi : i < pagesOf h.memsz) : ∃ k < h.memsz.toNat,
      pageAt (palignDown h.vaddr) i = palignDown (h.vaddr + BitVec.ofNat 32 k) := by
  have hlt : 4096 * i < h.memsz.toNat := by
    unfold pagesOf at hi
    split at hi <;> omega
  refine ⟨4096 * i - h.vaddr.toNat % 4096, by omega, ?_⟩
  apply BitVec.eq_of_toNat_eq
  simp only [pageAt, palignDown_toNat, BitVec.toNat_add, BitVec.toNat_ofNat]
  omega

theorem ElfPheader.mem_pages {q f : BitVec 32} : (q, f) ∈ h.pages file ↔
    ∃ i < pagesOf h.memsz, q = pageAt (palignDown h.vaddr) i ∧
      f = pageAt (palignDown (file + h.offset)) i := by
  simp only [ElfPheader.pages, rangePages, List.mem_map, List.mem_range, Prod.mk.injEq]
  exact exists_congr fun i => and_congr_right fun _ => and_congr eq_comm eq_comm

/-- The pages of a segment end below the windows. -/
theorem ElfPheader.pages_end (hend : h.vaddr.toNat + h.memsz.toNat ≤ 0xc0000000) :
    (palignDown h.vaddr).toNat + 4096 * pagesOf h.memsz ≤ 0xffc00000 := by
  rw [palignDown_toNat]
  unfold pagesOf
  split <;> omega

end Pages

section Loadable

variable {τ : Type} {K : Set (BitVec 32)} {m : Machine τ} {file : BitVec 32}

theorem mem_elfPages {q f : BitVec 32} {mem : Mem} : (q, f) ∈ elfPages mem file ↔
    ∃ h ∈ elfSegments mem file, (q, f) ∈ h.pages file := List.mem_flatMap

/-- Page `j` of a segment. -/
theorem segment_page {h : ElfPheader} {mem : Mem} (hh : h ∈ elfSegments mem file) {j : Nat}
    (hj : j < pagesOf h.memsz) :
    (pageAt (palignDown h.vaddr) j, pageAt (palignDown (file + h.offset)) j) ∈ elfPages mem file :=
  mem_elfPages.mpr ⟨h, hh, ElfPheader.mem_pages.mpr ⟨j, hj, rfl, rfl⟩⟩

/-- Every page holds a byte of its segment. -/
theorem Loadable.byte_of_mem (hl : Loadable K m file) {h : ElfPheader}
    (hh : h ∈ elfSegments m.mem file) {q : BitVec 32} (hq : q ∈ (h.pages file).map Prod.fst) :
    ∃ k < h.memsz.toNat, q = palignDown (h.vaddr + BitVec.ofNat 32 k) := by
  obtain ⟨⟨q, f⟩, hu, rfl⟩ := List.mem_map.mp hq
  obtain ⟨i, hi, rfl, -⟩ := ElfPheader.mem_pages.mp hu
  exact ElfPheader.byte_of_page (hl.below h hh) hi

/-- The pages of the segments can be mapped, in any order. -/
theorem Loadable.newPages (hl : Loadable K m file) : NewPages m (elfPages m.mem file) := by
  refine ⟨?_, fun q f hu => ?_, fun q f hu => ?_, fun q f hu => ?_⟩
  · rw [elfPages, List.map_flatMap, List.nodup_flatMap]
    constructor
    · intro h hh
      have hend := ElfPheader.pages_end (hl.below h hh)
      rw [ElfPheader.pages, rangePages, List.map_map]
      refine List.Nodup.map_on (fun i hi j hj heq => ?_) List.nodup_range
      have := congrArg BitVec.toNat heq
      simp only [Function.comp_apply] at this
      rw [pageAt_toNat hend (List.mem_range.mp hi),
        pageAt_toNat hend (List.mem_range.mp hj)] at this
      omega
    · refine hl.apart.imp_of_mem fun {g h} hg hh hne => ?_
      intro q hq hq'
      obtain ⟨j, hj, rfl⟩ := hl.byte_of_mem hg hq
      obtain ⟨k, hk, heq⟩ := hl.byte_of_mem hh hq'
      exact hne j hj k hk heq
  · obtain ⟨h, hh, hq⟩ := mem_elfPages.mp hu
    obtain ⟨i, hi, rfl, rfl⟩ := ElfPheader.mem_pages.mp hq
    exact ⟨pageAt_aligned (palignDown_aligned _), pageAt_aligned (palignDown_aligned _)⟩
  · obtain ⟨h, hh, hq⟩ := mem_elfPages.mp hu
    obtain ⟨i, hi, rfl, -⟩ := ElfPheader.mem_pages.mp hq
    exact pageAt_region (ElfPheader.pages_end (hl.below h hh)) hi
  · obtain ⟨h, hh, hq⟩ := mem_elfPages.mp hu
    obtain ⟨k, hk, rfl⟩ := hl.byte_of_mem hh (List.mem_map_of_mem hq)
    rw [walk_palignDown]
    exact hl.unmapped h hh k hk

/-- The segment does not get pages behind its last one, not from other segments either. -/
theorem Loadable.not_mapped (hl : Loadable K m file) (hh : h ∈ elfSegments m.mem file)
    (hk : k < h.memsz.toNat)
    (hpast : pagesOf h.memsz ≤ (h.vaddr.toNat % 4096 + k) / 4096) :
    palignDown (h.vaddr + BitVec.ofNat 32 k) ∉ pagesIn (elfPages m.mem file) := by
  intro hin
  obtain ⟨⟨q, f⟩, hu, heq⟩ := List.mem_map.mp hin
  obtain ⟨g, hg, hq⟩ := mem_elfPages.mp hu
  by_cases hgh : g = h
  · obtain rfl := hgh
    obtain ⟨i, hi, rfl, -⟩ := ElfPheader.mem_pages.mp hq
    have hend := hl.below g hg
    rw [ElfPheader.page_of_byte hend hk] at heq
    have hnat := congrArg BitVec.toNat heq
    rw [pageAt_toNat (ElfPheader.pages_end hend) hi] at hnat
    simp only [pageAt, palignDown_toNat, BitVec.toNat_add, BitVec.toNat_ofNat] at hnat
    omega
  · obtain ⟨j, hj, hqj⟩ := hl.byte_of_mem hg (List.mem_map_of_mem hq)
    exact hl.apart.forall hg hh hgh j hj k hk (hqj.symm.trans heq)

end Loadable

/-! ### Loads -/

section Loads

variable {τ : Type} [Tlb τ] {K dirs P : Set (BitVec 32)} {m₀ m : Machine τ}
  {L : List (BitVec 32 × BitVec 32)} {a v x : BitVec 32} {n j : Nat}

/-- Bytes further on. -/
theorem UserBytes.from {mem : Mem} {D : BitVec 32} (hb : UserBytes K mem D a n (physBytes a))
    {k : Nat} (hk : j + k ≤ n) :
    UserBytes K mem D (a + BitVec.ofNat 32 j) k (physBytes (a + BitVec.ofNat 32 j)) := by
  have hshift : ∀ i, a + BitVec.ofNat 32 j + BitVec.ofNat 32 i = a + BitVec.ofNat 32 (j + i) := by
    intro i
    rw [BitVec.add_assoc, BitVec.ofNat_add]
  refine ⟨fun i hi => ?_, fun i hi => ?_⟩
  · rw [physBytes, hshift]
    exact hb.maps (j + i) (by omega)
  · rw [physBytes, hshift]
    exact hb.user (j + i) (by omega)

/-- What is mapped stays mapped. -/
theorem Populated.maps_old (h : Populated K dirs P m₀ L m) (hs : Spaces K dirs m₀.mem)
    (hcur : m₀.cr3 ∈ dirs) (hL : NewPages m₀ L) (hv : hwTranslate m₀.mem m₀.cr3 v = some x)
    (hx : palignDown x ∉ K) : hwTranslate m.mem m.cr3 v = some x := by
  have hnot : palignDown v ∉ pagesIn L := by
    intro hin
    obtain ⟨⟨q, f⟩, hu, heq⟩ := List.mem_map.mp hin
    have hno := hL.unmapped q f hu
    rw [show q = palignDown v from heq, walk_palignDown, (walk_of_hwTranslate hv).1] at hno
    exact absurd hno (by simp)
  rw [hwTranslate, h.keeps v (hs.region_of_user hcur hv hx) hnot]
  exact hv

/-- An access to a byte that was mapped at the start. -/
theorem Populated.translate (h : Populated K dirs P m₀ L m) (hs : Spaces K dirs m₀.mem)
    (hcur : m₀.cr3 ∈ dirs) (hL : NewPages m₀ L) (hv : hwTranslate m₀.mem m₀.cr3 v = some x)
    (hx : palignDown x ∉ K) :
    ∃ m', Leoman.translate v m = .ok (x, m') ∧ Populated K dirs P m₀ L m' := by
  obtain ⟨hw, heq⟩ := walk_of_hwTranslate (h.maps_old hs hcur hL hv hx)
  obtain ⟨t, ht, hc, -⟩ := translate_of_walk h.coherent hw
  rw [← heq] at ht
  exact ⟨_, ht, h.access hc⟩

/-- The bytes of the file are as they were. -/
theorem Populated.byte (h : Populated K dirs P m₀ L m)
    (hb : UserBytes K m₀.mem m₀.cr3 a n (physBytes a)) (hj : j < n) :
    m.mem (a + BitVec.ofNat 32 j) = m₀.mem (a + BitVec.ofNat 32 j) :=
  h.user _ (hb.user j hj)

/-- **A load** from the file. -/
theorem Populated.load32 (h : Populated K dirs P m₀ L m) (hs : Spaces K dirs m₀.mem)
    (hcur : m₀.cr3 ∈ dirs) (hL : NewPages m₀ L) (hb : UserBytes K m₀.mem m₀.cr3 a n (physBytes a))
    (hn : 4 ≤ n) : ∃ m', Leoman.load32 a m = .ok (read32 m₀.mem a, m') ∧
      Populated K dirs P m₀ L m' := by
  have hzero : a + BitVec.ofNat 32 0 = a := BitVec.add_zero a
  have h₀ := hb.maps 0 (by omega)
  rw [physBytes, hzero] at h₀
  have hx₀ := hb.user 0 (by omega)
  rw [physBytes, hzero] at hx₀
  obtain ⟨m₁, hr₁, h₁⟩ := h.translate hs hcur hL h₀ hx₀
  obtain ⟨m₂, hr₂, h₂⟩ := h₁.translate hs hcur hL (hb.maps 1 (by omega)) (hb.user 1 (by omega))
  obtain ⟨m₃, hr₃, h₃⟩ := h₂.translate hs hcur hL (hb.maps 2 (by omega)) (hb.user 2 (by omega))
  obtain ⟨m₄, hr₄, h₄⟩ := h₃.translate hs hcur hL (hb.maps 3 (by omega)) (hb.user 3 (by omega))
  refine ⟨m₄, ?_, h₄⟩
  have hb₀ := h₄.byte hb (j := 0) (by omega)
  rw [hzero] at hb₀
  unfold Leoman.load32
  rw [run_bind_of_ok hr₁, run_bind_of_ok hr₂, run_bind_of_ok hr₃, run_bind_of_ok hr₄]
  show Except.ok (m₄.mem (a + BitVec.ofNat 32 3) ++ m₄.mem (a + BitVec.ofNat 32 2)
    ++ m₄.mem (a + BitVec.ofNat 32 1) ++ m₄.mem a, m₄) = _
  rw [h₄.byte hb (by omega), h₄.byte hb (by omega), h₄.byte hb (by omega), hb₀]
  rfl

theorem Populated.load16 (h : Populated K dirs P m₀ L m) (hs : Spaces K dirs m₀.mem)
    (hcur : m₀.cr3 ∈ dirs) (hL : NewPages m₀ L) (hb : UserBytes K m₀.mem m₀.cr3 a n (physBytes a))
    (hn : 2 ≤ n) : ∃ m', Leoman.load16 a m = .ok (m₀.mem (a + 1#32) ++ m₀.mem a, m') ∧
      Populated K dirs P m₀ L m' := by
  have hzero : a + BitVec.ofNat 32 0 = a := BitVec.add_zero a
  have h₀ := hb.maps 0 (by omega)
  rw [physBytes, hzero] at h₀
  have hx₀ := hb.user 0 (by omega)
  rw [physBytes, hzero] at hx₀
  obtain ⟨m₁, hr₁, h₁⟩ := h.translate hs hcur hL h₀ hx₀
  obtain ⟨m₂, hr₂, h₂⟩ := h₁.translate hs hcur hL (hb.maps 1 (by omega)) (hb.user 1 (by omega))
  refine ⟨m₂, ?_, h₂⟩
  have hb₀ := h₂.byte hb (j := 0) (by omega)
  rw [hzero] at hb₀
  unfold Leoman.load16
  rw [run_bind_of_ok hr₁, run_bind_of_ok hr₂]
  show Except.ok (m₂.mem (a + BitVec.ofNat 32 1) ++ m₂.mem a, m₂) = _
  rw [h₂.byte hb (by omega), hb₀]

end Loads

/-! ### The loop -/

section Loop

variable {τ : Type} [Tlb τ] {K dirs P : Set (BitVec 32)} {m₀ m : Machine τ}
  {L : List (BitVec 32 × BitVec 32)} {file : BitVec 32} (privileged : Bool)

theorem elfFlags_lt : (elfFlags privileged).toNat < 4096 := by
  cases privileged <;> decide

/-- One program header more. -/
theorem elfPagesUpTo_succ (mem : Mem) (file : BitVec 32) (i : Nat) :
    elfPagesUpTo mem file (i + 1) = elfPagesUpTo mem file i ++
      if (elfPheader mem file i).type = ptLoad then (elfPheader mem file i).pages file else [] := by
  rw [elfPagesUpTo, List.range_succ, List.map_append, List.filter_append, List.flatMap_append,
    elfPagesUpTo]
  congr 1
  rw [List.map_singleton, List.filter_singleton]
  by_cases h : (elfPheader mem file i).type = ptLoad
  · rw [if_pos h, decide_eq_true h]
    exact List.append_nil _
  · rw [if_neg h, decide_eq_false h]
    rfl

/-- The first program headers are followed by the others. -/
theorem elfPagesUpTo_prefix (mem : Mem) (file : BitVec 32) {i n : Nat} (hi : i ≤ n) :
    ∃ U, elfPagesUpTo mem file n = elfPagesUpTo mem file i ++ U := by
  induction n with
  | zero =>
    obtain rfl : i = 0 := by omega
    exact ⟨[], (List.append_nil _).symm⟩
  | succ n ih =>
    by_cases heq : i = n + 1
    · exact ⟨[], by rw [heq, List.append_nil]⟩
    · obtain ⟨U, hU⟩ := ih (by omega)
      rw [elfPagesUpTo_succ, hU, List.append_assoc]
      exact ⟨_, rfl⟩

/-- **A program header.** -/
theorem Populated.pheader {i : Nat} (h : Populated K dirs (pagesIn (elfPages m₀.mem file)) m₀
      (elfPagesUpTo m₀.mem file i) m)
    (hs : Spaces K dirs m₀.mem) (hcur : m₀.cr3 ∈ dirs) (hl : Loadable K m₀ file)
    (hi : i < elfPhnum m₀.mem file) :
    ∃ m', elfLoadPheader privileged file
        (elfPheaders m₀.mem file + BitVec.ofNat 32 (32 * i)) m = .ok ((), m') ∧
      Populated K dirs (pagesIn (elfPages m₀.mem file)) m₀
        (elfPagesUpTo m₀.mem file (i + 1)) m' := by
  have hall : elfPages m₀.mem file = elfPagesUpTo m₀.mem file (elfPhnum m₀.mem file) := rfl
  have hnew : ∀ j ≤ elfPhnum m₀.mem file, NewPages m₀ (elfPagesUpTo m₀.mem file j) := by
    intro j hj
    obtain ⟨U, hU⟩ := elfPagesUpTo_prefix m₀.mem file hj
    have := hl.newPages
    rw [hall, hU] at this
    exact this.left
  have hL := hnew i (by omega)
  have hbytes : UserBytes K m₀.mem m₀.cr3 (elfPheaders m₀.mem file + BitVec.ofNat 32 (32 * i)) 32
      (physBytes (elfPheaders m₀.mem file + BitVec.ofNat 32 (32 * i))) :=
    hl.pheaders.from (by omega)
  obtain ⟨m₁, hr₁, h₁⟩ := h.load32 hs hcur hL hbytes (by omega)
  have hnext := hnew (i + 1) (by omega)
  rw [elfPagesUpTo_succ] at hnext ⊢
  unfold elfLoadPheader
  rw [run_bind_of_ok hr₁]
  by_cases hload : (elfPheader m₀.mem file i).type = ptLoad
  · have htype : read32 m₀.mem (elfPheaders m₀.mem file + BitVec.ofNat 32 (32 * i)) = ptLoad :=
      hload
    rw [if_pos hload] at hnext ⊢
    rw [htype, if_neg (by decide), if_pos rfl]
    have hfield : ∀ j, j + 4 ≤ 32 → UserBytes K m₀.mem m₀.cr3 _ 4 _ := fun j hj => hbytes.from hj
    obtain ⟨m₂, hr₂, h₂⟩ := h₁.load32 hs hcur hL (hfield 4 (by omega)) (by omega)
    obtain ⟨m₃, hr₃, h₃⟩ := h₂.load32 hs hcur hL (hfield 8 (by omega)) (by omega)
    obtain ⟨m₄, hr₄, h₄⟩ := h₃.load32 hs hcur hL (hfield 20 (by omega)) (by omega)
    have hpages : ∀ j < pagesOf (elfPheader m₀.mem file i).memsz,
        pageAt (palignDown (elfPheader m₀.mem file i).vaddr) j
          ∈ pagesIn (elfPages m₀.mem file) := by
      -- the segment is one of the whole executable
      have hseg : elfPheader m₀.mem file i ∈ elfSegments m₀.mem file := by
        rw [elfSegments, List.mem_filter]
        exact ⟨List.mem_map_of_mem (List.mem_range.mpr hi), by rw [hload]; rfl⟩
      intro j hj
      exact List.mem_map.mpr ⟨_, segment_page hseg hj, rfl⟩
    obtain ⟨m', hr', h'⟩ := h₄.loop hnext hpages (elfFlags_lt privileged)
    refine ⟨m', (run_bind_of_ok hr₂).trans ((run_bind_of_ok hr₃).trans
      ((run_bind_of_ok hr₄).trans ?_)), h'⟩
    rw [mapPages_eq]
    exact hr'
  · have htype : read32 m₀.mem (elfPheaders m₀.mem file + BitVec.ofNat 32 (32 * i)) ≠ ptLoad :=
      hload
    rw [if_neg hload, List.append_nil]
    refine ⟨m₁, ?_, h₁⟩
    rw [if_neg htype, ite_self]
    rfl

/-- **Run lemma.**  The loop, from header `i` on. -/
theorem Populated.pheaders {n i : Nat} (h : Populated K dirs (pagesIn (elfPages m₀.mem file)) m₀
      (elfPagesUpTo m₀.mem file i) m)
    (hs : Spaces K dirs m₀.mem) (hcur : m₀.cr3 ∈ dirs) (hl : Loadable K m₀ file)
    (hi : i ≤ elfPhnum m₀.mem file) (hn : elfPhnum m₀.mem file < i + n) :
    ∃ m', elfLoadLoop privileged file n i
        (elfPheaders m₀.mem file + BitVec.ofNat 32 (32 * i)) m = .ok ((), m') ∧
      Populated K dirs (pagesIn (elfPages m₀.mem file)) m₀ (elfPages m₀.mem file) m' := by
  induction n generalizing i m with
  | zero => omega
  | succ n ih =>
    have hL : NewPages m₀ (elfPagesUpTo m₀.mem file i) := by
      obtain ⟨U, hU⟩ := elfPagesUpTo_prefix m₀.mem file hi
      have hnew := hl.newPages
      rw [show elfPages m₀.mem file = elfPagesUpTo m₀.mem file (elfPhnum m₀.mem file) from rfl,
        hU] at hnew
      exact hnew.left
    obtain ⟨m₁, hr₁, h₁⟩ :=
      h.load16 hs hcur hL (hl.header.from (j := 44) (k := 2) (by omega)) (by omega)
    rw [elfLoadLoop, run_bind_of_ok hr₁]
    have hphnum : (m₀.mem (file + BitVec.ofNat 32 44 + 1#32)
        ++ m₀.mem (file + BitVec.ofNat 32 44)).toNat = elfPhnum m₀.mem file := rfl
    rw [hphnum]
    by_cases hlt : i < elfPhnum m₀.mem file
    · obtain ⟨m₂, hr₂, h₂⟩ := h₁.pheader privileged hs hcur hl hlt
      obtain ⟨m', hr', h'⟩ := ih h₂ (by omega) (by omega)
      have hphdr : elfPheaders m₀.mem file + BitVec.ofNat 32 (32 * i) + elfPheaderSize
          = elfPheaders m₀.mem file + BitVec.ofNat 32 (32 * (i + 1)) := by
        rw [BitVec.add_assoc, elfPheaderSize, Nat.mul_succ, BitVec.ofNat_add]
      rw [if_pos hlt]
      refine ⟨m', (run_bind_of_ok hr₂).trans ?_, h'⟩
      rw [hphdr]
      exact hr'
    · rw [if_neg hlt]
      obtain rfl : i = elfPhnum m₀.mem file := by omega
      exact ⟨m₁, rfl, h₁⟩

/-- **`elf_load`** completes, returns the entry point, and has mapped the pages of the segments. -/
theorem elfLoad_populates {n : Nat} (hc : Coherent m.tlb m.mem m.cr3) (hp : Paging K dirs n m.bare)
    (hn : (lacking m.mem m.cr3 (pagesIn (elfPages m.mem file))).ncard ≤ n)
    (hl : Loadable K m file) :
    ∃ m', elfLoad privileged file m = .ok (elfEntry m.mem file, m') ∧
      Populated K dirs (pagesIn (elfPages m.mem file)) m (elfPages m.mem file) m' := by
  have hs := hp.spaces
  have hcur : m.cr3 ∈ dirs := hp.current
  have hstart := Populated.start hc hp hn
  have hempty : NewPages m (elfPagesUpTo m.mem file 0) :=
    ⟨List.nodup_nil, fun _ _ hu => absurd hu (by simp [elfPagesUpTo]),
      fun _ _ hu => absurd hu (by simp [elfPagesUpTo]),
      fun _ _ hu => absurd hu (by simp [elfPagesUpTo])⟩
  obtain ⟨m₁, hr₁, h₁⟩ :=
    hstart.load32 hs hcur hempty (hl.header.from (j := 28) (k := 4) (by omega)) (by omega)
  have hphnum : elfPhnum m.mem file < 0 + 0x10000 := by
    unfold elfPhnum
    omega
  obtain ⟨m₂, hr₂, h₂⟩ :=
    Populated.pheaders privileged (i := 0) h₁ hs hcur hl (by omega) hphnum
  obtain ⟨m₃, hr₃, h₃⟩ :=
    h₂.load32 hs hcur hl.newPages (hl.header.from (j := 24) (k := 4) (by omega)) (by omega)
  have hfirst : elfPheaders m.mem file + BitVec.ofNat 32 (32 * 0) = elfPheaders m.mem file :=
    BitVec.add_zero _
  rw [hfirst] at hr₂
  exact ⟨m₃, (run_bind_of_ok hr₁).trans ((run_bind_of_ok hr₂).trans hr₃), h₃⟩

end Loop

/-! ### The image -/

/-- The byte that the current address space has at an address. -/
def byteAt {τ : Type} (m : Machine τ) (v : BitVec 32) : Option (BitVec 8) :=
  (hwTranslate m.mem m.cr3 v).map m.mem

/-- In `m'` the process has the image of the executable that is at `file` in `m`. -/
def ElfImage {τ : Type} (m m' : Machine τ) (file : BitVec 32) : Prop :=
  ∀ h ∈ elfSegments m.mem file,
    (∀ k < h.filesz.toNat, byteAt m' (h.vaddr + BitVec.ofNat 32 k)
      = some (m.mem (file + h.offset + BitVec.ofNat 32 k))) ∧
    ∀ k, h.filesz.toNat ≤ k → k < h.memsz.toNat →
      byteAt m' (h.vaddr + BitVec.ofNat 32 k) = some 0#8

/-- Where the loader maps a segment there is what the segment is to have. -/
structure ElfPheader.Fits (mem : Mem) (file : BitVec 32) (h : ElfPheader) : Prop where
  reaches : h.vaddr.toNat % 4096 + h.memsz.toNat ≤ 4096 * pagesOf h.memsz
  bytes : ∀ k < h.filesz.toNat, mem (h.place file k) = mem (file + h.offset + BitVec.ofNat 32 k)
  zeros : ∀ k, h.filesz.toNat ≤ k → k < h.memsz.toNat → mem (h.place file k) = 0#8

section Image

variable {τ : Type} [Tlb τ] {K dirs P : Set (BitVec 32)} {m₀ m : Machine τ} {file : BitVec 32}
  {h : ElfPheader} {k : Nat}

/-- A byte of a page of the segment. -/
theorem ElfPheader.place_eq (h : ElfPheader) (file : BitVec 32) (k : Nat) :
    pageAt (palignDown (file + h.offset)) ((h.vaddr.toNat % 4096 + k) / 4096)
      + pageOffset (h.vaddr + BitVec.ofNat 32 k) = h.place file k := by
  apply BitVec.eq_of_toNat_eq
  rw [pageAt, ElfPheader.place]
  simp only [BitVec.toNat_add, BitVec.toNat_ofNat, pageOffset_toNat]
  omega

/-- **What the process has** in place of byte `k` of a segment. -/
theorem Populated.byteAt_segment (hp : Populated K dirs P m₀ (elfPages m₀.mem file) m)
    (hl : Loadable K m₀ file) (hh : h ∈ elfSegments m₀.mem file) (hk : k < h.memsz.toNat) :
    byteAt m (h.vaddr + BitVec.ofNat 32 k)
      = if (h.vaddr.toNat % 4096 + k) / 4096 < pagesOf h.memsz then
          some (m₀.mem (h.place file k)) else none := by
  have hend := hl.below h hh
  have hpage := ElfPheader.page_of_byte hend hk
  rw [byteAt, hwTranslate]
  split
  · rename_i hreach
    have hwalk := hp.maps _ _ (segment_page hh hreach)
    rw [← hpage, walk_palignDown] at hwalk
    rw [hwalk, Option.map_some, Option.map_some, ElfPheader.place_eq,
      hp.user _ (hl.inPlace h hh k hk)]
  · rename_i hpast
    have hreg : vmPdirIdx (h.vaddr + BitVec.ofNat 32 k) ≠ 1023#32 := by
      rw [← lt_kernPtabs_iff, BitVec.toNat_add, BitVec.toNat_ofNat]
      omega
    rw [hp.keeps _ hreg (hl.not_mapped hh hk (by omega)), hl.unmapped h hh k hk]
    rfl

/-- A segment has its image exactly when it fits. -/
theorem Populated.image_iff (hp : Populated K dirs P m₀ (elfPages m₀.mem file) m)
    (hl : Loadable K m₀ file) :
    ElfImage m₀ m file ↔ ∀ h ∈ elfSegments m₀.mem file, h.Fits m₀.mem file := by
  refine forall₂_congr fun h hh => ?_
  obtain ⟨hone, hle⟩ := hl.sizes h hh
  have hbyte := fun k hk => hp.byteAt_segment (k := k) hl hh hk
  constructor
  · rintro ⟨hbytes, hzeros⟩
    -- no byte is missing, not the last one either
    have hmapped : ∀ k < h.memsz.toNat,
        (h.vaddr.toNat % 4096 + k) / 4096 < pagesOf h.memsz := by
      intro k hk
      by_contra hpast
      have hnone := hbyte k hk
      rw [if_neg hpast] at hnone
      by_cases hfile : k < h.filesz.toNat
      · exact absurd (hnone.symm.trans (hbytes k hfile)) (by simp)
      · exact absurd (hnone.symm.trans (hzeros k (by omega) hk)) (by simp)
    refine ⟨?_, fun k hk => ?_, fun k hk hk' => ?_⟩
    · have := hmapped (h.memsz.toNat - 1) (by omega)
      omega
    · have hsome := hbyte k (by omega)
      rw [if_pos (hmapped k (by omega))] at hsome
      exact Option.some.inj (hsome.symm.trans (hbytes k hk))
    · have hsome := hbyte k hk'
      rw [if_pos (hmapped k hk')] at hsome
      exact Option.some.inj (hsome.symm.trans (hzeros k hk hk'))
  · intro hfits
    have hreach := hfits.reaches
    refine ⟨fun k hk => ?_, fun k hk hk' => ?_⟩
    · rw [hbyte k (by omega), if_pos (by omega), hfits.bytes k hk]
    · rw [hbyte k hk', if_pos (by omega), hfits.zeros k hk hk']

/-- **The image of an executable.**  For executables whose segments have unmapped pages of their
    own, `elf_load` returns the entry point, and the process has the image, exactly when for every
    segment the pages from that of `p_vaddr` on, as many as for `p_memsz` bytes, reach its end, and
    the memory mapped there, from that of the file on, has its bytes and then zeros. -/
theorem elfLoad_image_iff {n : Nat} (privileged : Bool) (hc : Coherent m.tlb m.mem m.cr3)
    (hp : Paging K dirs n m.bare)
    (hn : (lacking m.mem m.cr3 (pagesIn (elfPages m.mem file))).ncard ≤ n)
    (hl : Loadable K m file) :
    (∃ entry m', elfLoad privileged file m = .ok (entry, m') ∧ entry = elfEntry m.mem file ∧
        ElfImage m m' file) ↔ ∀ h ∈ elfSegments m.mem file, h.Fits m.mem file := by
  obtain ⟨m₁, hrun, hpop⟩ := elfLoad_populates privileged hc hp hn hl
  rw [← hpop.image_iff hl]
  constructor
  · rintro ⟨entry, m', hrun', -, himage⟩
    obtain rfl := (Prod.mk.inj (Except.ok.inj (hrun.symm.trans hrun'))).2
    exact himage
  · intro himage
    exact ⟨_, m₁, hrun, rfl, himage⟩

end Image

/-! ### A small executable -/

section Small

open Exchange

/-- The small system with an executable of one segment at `0x5000`: of the two file bytes from
    `0x5100` on, or of the first only, and two bytes with zeros, or one, behind them. -/
def elfMachine (b : Bool) : Machine Unit :=
  { (exchangeKernel false).mach with
    mem := writeAll (exchangeKernel false).mach.mem
      [(0x5018#32, 0x400100#32), (0x501c#32, 0x34#32), (0x502c#32, 1#32), (0x5034#32, 1#32),
       (0x5038#32, 0x100#32), (0x503c#32, 0x400100#32), (0x5044#32, if b then 2#32 else 1#32),
       (0x5048#32, if b then 4#32 else 2#32)] }

theorem sameTables_elf (b : Bool) : SameTables (elfMachine b).mem :=
  SameTables.writeAll (fun _ _ => rfl) (by cases b <;> decide)

theorem paging_elf (b : Bool) :
    Paging {F | F ∈ exchangeTables} {D | D ∈ exchangeDirs} 3 (elfMachine b).bare := by
  have hp : Paging {F | F ∈ exchangeTables} {D | D ∈ exchangeDirs} 3
      (exchangeKernel false).mach := ⟨spaces_exchange, supply_exchange, List.mem_cons_self⟩
  exact (hp.of_agree (sameTables_elf b)).1

theorem segments_elf (b : Bool) : elfSegments (elfMachine b).mem 0x5000#32
    = [⟨1#32, 0x100#32, 0x400100#32, if b then 2#32 else 1#32, if b then 4#32 else 2#32⟩] := by
  cases b <;> decide +kernel

theorem pages_elf (b : Bool) :
    elfPages (elfMachine b).mem 0x5000#32 = [(0x400000#32, 0x5000#32)] := by
  rw [elfPages, segments_elf]
  cases b <;> decide +kernel

/-- One page table is needed at most. -/
theorem lacking_elf (b : Bool) : (lacking (elfMachine b).mem (elfMachine b).cr3
    (pagesIn (elfPages (elfMachine b).mem 0x5000#32))).ncard ≤ 3 := by
  have hsub : lacking (elfMachine b).mem (elfMachine b).cr3
      (pagesIn (elfPages (elfMachine b).mem 0x5000#32)) ⊆ {1#32} := by
    rintro r ⟨q, hq, rfl, -⟩
    rw [pages_elf] at hq
    obtain rfl : q = 0x400000#32 := List.mem_singleton.mp hq
    decide
  have := Set.ncard_le_ncard hsub (Set.finite_singleton _)
  rw [Set.ncard_singleton] at this
  omega

/-- The page of the executable. -/
theorem page_elf (b : Bool) : UserBytes {F | F ∈ exchangeTables} (elfMachine b).mem 0x1000#32
    0x5000#32 4096 (physBytes 0x5000#32) := by
  have hpage := (buffer_exchange (b := false) (D := 0x1000#32) (v := 0x5000#32) (p := 0x5000#32)
    (n := 4096) (by decide +kernel)).toBytes
  have hp : Paging {F | F ∈ exchangeTables} {D | D ∈ exchangeDirs} 3
      (exchangeKernel false).mach := ⟨spaces_exchange, supply_exchange, List.mem_cons_self⟩
  exact hpage.same hp.spaces hp.current (hp.of_agree (sameTables_elf b)).2

theorem loadable_elf (b : Bool) :
    Loadable {F | F ∈ exchangeTables} (elfMachine b) 0x5000#32 := by
  have hzero : (0x5000#32 : BitVec 32) + BitVec.ofNat 32 0 = 0x5000#32 := BitVec.add_zero _
  have hpheaders : elfPheaders (elfMachine b).mem 0x5000#32
      = 0x5000#32 + BitVec.ofNat 32 0x34 := by
    cases b <;> decide +kernel
  have hphnum : elfPhnum (elfMachine b).mem 0x5000#32 = 1 := by
    cases b <;> decide +kernel
  have hpdirIdx : ∀ k < 4, vmPdirIdx (0x400100#32 + BitVec.ofNat 32 k) = 1#32 := by decide
  have hmemsz : (if b then 4#32 else 2#32 : BitVec 32).toNat ≤ 4 := by cases b <;> decide
  refine ⟨?_, ?_, ?_, ?_, ?_, ?_, ?_, ?_⟩
  · have hheader := (page_elf b).from (j := 0) (k := 52) (by omega)
    rw [hzero] at hheader
    exact hheader
  · rw [hpheaders, hphnum]
    exact (page_elf b).from (by omega)
  all_goals
    rw [segments_elf]
  · cases b <;> decide
  · cases b <;> decide
  · cases b <;> decide
  · exact List.pairwise_singleton _ _
  · intro h hh k hk
    obtain rfl := List.mem_singleton.mp hh
    have hidx := hpdirIdx k (lt_of_lt_of_le hk hmemsz)
    have hcur : (elfMachine b).cr3 ∈ {D | D ∈ exchangeDirs} := List.mem_cons_self
    rw [(spaces_exchange (b := false)).walk_agree (sameTables_elf b) hcur]
    exact unmapped_exchange List.mem_cons_self (by rw [hidx]; decide) (by rw [hidx]; decide)
  · intro h hh k hk
    obtain rfl := List.mem_singleton.mp hh
    have hplace : ∀ k < 4, palignDown (palignDown (0x5000#32 + 0x100#32) + pageOffset 0x400100#32
        + BitVec.ofNat 32 k) ∉ exchangeTables := by decide
    exact hplace k (lt_of_lt_of_le hk hmemsz)

/-- **A small executable** is loaded, and the process has its image. -/
theorem elfLoad_image_iff_small : ∃ entry m',
    elfLoad false 0x5000#32 (elfMachine true) = .ok (entry, m') ∧
      entry = elfEntry (elfMachine true).mem 0x5000#32 ∧
      ElfImage (elfMachine true) m' 0x5000#32 := by
  refine (elfLoad_image_iff (m := elfMachine true) false (coherent_unit _ _ _) (paging_elf true)
    (lacking_elf true) (loadable_elf true)).mpr ?_
  rw [segments_elf]
  intro h hh
  obtain rfl := List.mem_singleton.mp hh
  have hbytes : ∀ k < 2, (elfMachine true).mem (ElfPheader.place
      ⟨1#32, 0x100#32, 0x400100#32, 2#32, 4#32⟩ 0x5000#32 k)
      = (elfMachine true).mem (0x5000#32 + 0x100#32 + BitVec.ofNat 32 k) := by
    decide +kernel
  have hzeros : ∀ k < 4, 2 ≤ k → (elfMachine true).mem (ElfPheader.place
      ⟨1#32, 0x100#32, 0x400100#32, 2#32, 4#32⟩ 0x5000#32 k) = 0#8 := by
    decide +kernel
  exact ⟨by decide, hbytes, fun k hk hk' => hzeros k hk' hk⟩

/-- **The byte behind.**  Where the segment has a zero the process has the next byte of the
    file. -/
theorem elfLoad_leaves_bss : ¬ ∀ (K dirs : Set (BitVec 32)) (n : Nat) (m : Machine Unit)
    (file : BitVec 32) (privileged : Bool), Coherent m.tlb m.mem m.cr3 → Paging K dirs n m.bare →
    (lacking m.mem m.cr3 (pagesIn (elfPages m.mem file))).ncard ≤ n → Loadable K m file →
    ∃ entry m', elfLoad privileged file m = .ok (entry, m') ∧ entry = elfEntry m.mem file ∧
      ElfImage m m' file := by
  intro h
  obtain ⟨entry, m', hrun, -, himage⟩ := h _ _ 3 (elfMachine false) 0x5000#32 false
    (coherent_unit _ _ _) (paging_elf false) (lacking_elf false) (loadable_elf false)
  have htest : (elfLoad false 0x5000#32 (elfMachine false)).toOption.map (fun r =>
      decide (byteAt r.2 (0x400100#32 + BitVec.ofNat 32 1) = some 0x34#8)) = some true := by
    decide +kernel
  rw [hrun] at htest
  have hbyte := of_decide_eq_true (Option.some.inj htest)
  have hzero := (himage _ (by rw [segments_elf]; exact List.mem_cons_self)).2 1 (by decide)
    (by decide)
  exact absurd (hbyte.symm.trans hzero) (by decide)

end Small

end Leoman
