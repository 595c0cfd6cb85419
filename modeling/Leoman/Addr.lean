import Mathlib.Data.BitVec

namespace Leoman

/-!
# Addresses (`include/kernel/vm.h`)

The address arithmetic every part of the kernel shares: the page-alignment macros, the
physical/kernel-virtual conversions and the two index macros of the paging structures.  Each
definition is followed by what it does to the address read as a number, so that the proofs
above it never look at a mask or a shift again.
-/

/-- `PAGE_SIZE`. -/
def pageSize : BitVec 32 := 4096#32

/-- `KERN_VOFF`, where the kernel is offset to in virtual memory. -/
def kernVoff : BitVec 32 := 0xe0000000#32

/-- `PALIGNUP`. -/
def palignUp (addr : BitVec 32) : BitVec 32 := (addr + pageSize - 1#32) &&& ~~~(pageSize - 1#32)

/-- `PALIGNDOWN`. -/
def palignDown (addr : BitVec 32) : BitVec 32 := addr &&& ~~~(pageSize - 1#32)

/-- `p2v`: physical to kernel-virtual. -/
def p2v (addr : BitVec 32) : BitVec 32 := addr + kernVoff

/-- `v2p`: kernel-virtual to physical. -/
def v2p (addr : BitVec 32) : BitVec 32 := addr - kernVoff

/-- Masking with `~(PAGE_SIZE - 1)` is clearing the twelve offset bits. -/
theorem palignDown_eq_shift (a : BitVec 32) : palignDown a = (a >>> 12) <<< 12 := by
  ext i hi
  have hmask : (~~~(pageSize - 1#32))[i] = decide (12 ≤ i) := by
    revert i; decide
  rw [palignDown, BitVec.getElem_and, hmask]
  simp only [BitVec.getElem_shiftLeft]
  grind

/-- `PALIGNDOWN` rounds down to a multiple of the page size. -/
theorem palignDown_toNat (a : BitVec 32) : (palignDown a).toNat = a.toNat / 4096 * 4096 := by
  rw [palignDown_eq_shift]
  simp only [BitVec.toNat_shiftLeft, BitVec.toNat_ushiftRight, Nat.shiftRight_eq_div_pow,
    Nat.shiftLeft_eq]
  omega

/-- `PALIGNUP` yields a multiple of the page size. -/
theorem palignUp_aligned (a : BitVec 32) : (palignUp a).toNat % 4096 = 0 := by
  have h : palignUp a = palignDown (a + pageSize - 1#32) := rfl
  rw [h, palignDown_toNat]
  omega

/-- An aligned address is its own page. -/
theorem palignDown_of_aligned {a : BitVec 32} (h : a.toNat % 4096 = 0) : palignDown a = a := by
  apply BitVec.eq_of_toNat_eq
  rw [palignDown_toNat]
  omega

/-- `PALIGNDOWN` yields a multiple of the page size. -/
theorem palignDown_aligned (a : BitVec 32) : (palignDown a).toNat % 4096 = 0 := by
  rw [palignDown_toNat]
  omega

/-! ### Indices into the paging structures -/

/-- `vm_pdir_idx`. -/
def vmPdirIdx (vaddr : BitVec 32) : BitVec 32 := vaddr >>> 22

/-- `vm_ptab_idx`. -/
def vmPtabIdx (vaddr : BitVec 32) : BitVec 32 := (vaddr >>> 12) &&& 0x3ff#32

/-- The offset into the page, `addr & 0xfff`. -/
def pageOffset (addr : BitVec 32) : BitVec 32 := addr &&& 0xfff#32

/-- The top ten bits. -/
theorem vmPdirIdx_toNat (v : BitVec 32) : (vmPdirIdx v).toNat = v.toNat / 2 ^ 22 := by
  simp [vmPdirIdx, Nat.shiftRight_eq_div_pow]

/-- The ten bits below them. -/
theorem vmPtabIdx_toNat (v : BitVec 32) : (vmPtabIdx v).toNat = v.toNat / 4096 % 1024 := by
  have hmask : (0x3ff#32).toNat = 2 ^ 10 - 1 := rfl
  rw [vmPtabIdx, BitVec.toNat_and, hmask, Nat.and_two_pow_sub_one_eq_mod,
    BitVec.toNat_ushiftRight, Nat.shiftRight_eq_div_pow]

/-- The low twelve bits. -/
theorem pageOffset_toNat (v : BitVec 32) : (pageOffset v).toNat = v.toNat % 4096 := by
  have hmask : (0xfff#32).toNat = 2 ^ 12 - 1 := rfl
  rw [pageOffset, BitVec.toNat_and, hmask, Nat.and_two_pow_sub_one_eq_mod]

/-- An offset is within the page. -/
theorem pageOffset_lt (v : BitVec 32) : (pageOffset v).toNat < 4096 := by
  rw [pageOffset_toNat]
  omega

/-- A directory has 1024 entries, … -/
theorem vmPdirIdx_lt (v : BitVec 32) : (vmPdirIdx v).toNat < 1024 := by
  rw [vmPdirIdx_toNat]
  omega

/-- … and so has a table. -/
theorem vmPtabIdx_lt (v : BitVec 32) : (vmPtabIdx v).toNat < 1024 := by
  rw [vmPtabIdx_toNat]
  omega

/-- An address is its page plus its offset. -/
theorem palignDown_add_pageOffset (v : BitVec 32) : palignDown v + pageOffset v = v := by
  apply BitVec.eq_of_toNat_eq
  rw [BitVec.toNat_add, palignDown_toNat, pageOffset_toNat]
  omega

/-- The page of an address fixes both its indices. -/
theorem vmPdirIdx_palignDown (v : BitVec 32) : vmPdirIdx (palignDown v) = vmPdirIdx v := by
  apply BitVec.eq_of_toNat_eq
  rw [vmPdirIdx_toNat, vmPdirIdx_toNat, palignDown_toNat]
  omega

/-- The indices are those of the page. -/
theorem vmPtabIdx_palignDown (v : BitVec 32) : vmPtabIdx (palignDown v) = vmPtabIdx v := by
  apply BitVec.eq_of_toNat_eq
  rw [vmPtabIdx_toNat, vmPtabIdx_toNat, palignDown_toNat]
  omega

/-- The first address of a page is aligned. -/
theorem palignDown_palignDown (v : BitVec 32) : palignDown (palignDown v) = palignDown v :=
  palignDown_of_aligned (palignDown_aligned v)

/-- Conversely the two indices determine the page. -/
theorem palignDown_eq_of_idx {v w : BitVec 32} (hd : vmPdirIdx v = vmPdirIdx w)
    (ht : vmPtabIdx v = vmPtabIdx w) : palignDown v = palignDown w := by
  apply BitVec.eq_of_toNat_eq
  have hd' := congrArg BitVec.toNat hd
  have ht' := congrArg BitVec.toNat ht
  rw [vmPdirIdx_toNat, vmPdirIdx_toNat] at hd'
  rw [vmPtabIdx_toNat, vmPtabIdx_toNat] at ht'
  rw [palignDown_toNat, palignDown_toNat]
  omega

/-- Two addresses that differ in an index are in different pages. -/
theorem palignDown_ne_of_pdirIdx {v w : BitVec 32} (h : vmPdirIdx w ≠ vmPdirIdx v) :
    palignDown w ≠ palignDown v := by
  intro he
  apply h
  rw [← vmPdirIdx_palignDown, he, vmPdirIdx_palignDown]

/-- Different indices, different pages. -/
theorem palignDown_ne_of_ptabIdx {v w : BitVec 32} (h : vmPtabIdx w ≠ vmPtabIdx v) :
    palignDown w ≠ palignDown v := by
  intro he
  apply h
  rw [← vmPtabIdx_palignDown, he, vmPtabIdx_palignDown]

/-- Every pair of indices is that of some page. -/
theorem exists_idx {d j : BitVec 32} (hd : d.toNat < 1024) (hj : j.toNat < 1024) :
    ∃ w, vmPdirIdx w = d ∧ vmPtabIdx w = j := by
  refine ⟨BitVec.ofNat 32 (d.toNat * 2 ^ 22 + j.toNat * 4096), ?_, ?_⟩
  · apply BitVec.eq_of_toNat_eq
    rw [vmPdirIdx_toNat, BitVec.toNat_ofNat]
    omega
  · apply BitVec.eq_of_toNat_eq
    rw [vmPtabIdx_toNat, BitVec.toNat_ofNat]
    omega

/-- A frame plus an offset is in that frame. -/
theorem palignDown_frame_add {f v : BitVec 32} (hf : palignDown f = f) :
    palignDown (f + pageOffset v) = f := by
  have hal := palignDown_aligned f
  rw [hf] at hal
  have := f.isLt
  apply BitVec.eq_of_toNat_eq
  rw [palignDown_toNat, BitVec.toNat_add, pageOffset_toNat]
  omega

/-- The addresses below `KERN_PTABS_ADDR` are those of the directory slots before 1023. -/
theorem lt_kernPtabs_iff (v : BitVec 32) : v.toNat < 0xffc00000 ↔ vmPdirIdx v ≠ 1023#32 := by
  rw [ne_eq, ← BitVec.toNat_inj, vmPdirIdx_toNat, BitVec.toNat_ofNat]
  omega

end Leoman
