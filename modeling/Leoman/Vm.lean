import Leoman.Mmu

namespace Leoman

open ByteMem StateExcept

/-!
# Virtual memory (`kernel/vm.c`)

The kernel edits the current address space through the directory's own slot 1023: with the
directory mapped into itself, entry `i` of the directory appears at `0xfffff000 + 4 i` and
entry `j` of table `i` at `0xffc00000 + 4096 i + 4 j`.  Each function below is the source
function with those accesses going through the MMU.

* `Recursive` — the self-mapping; `walk_pdirSlot` and `walk_ptabSlot` say what the two windows
  resolve to under it;
* `walk_write_absent`, `walk_write_keep` — the two kinds of entry stores that leave successful
  walks alone.
-/

/-- `KERN_PDIR_ADDR`. -/
def kernPdirAddr : BitVec 32 := 0xfffff000#32

/-- `KERN_PTABS_ADDR`. -/
def kernPtabsAddr : BitVec 32 := 0xffc00000#32

/-- `PTE_W`. -/
def pteW : BitVec 32 := 2#32

/-- `PTE_U`. -/
def pteU : BitVec 32 := 4#32

/-- `&pdir[vm_pdir_idx(vaddr)]`. -/
def pdirSlot (vaddr : BitVec 32) : BitVec 32 := kernPdirAddr + 4#32 * vmPdirIdx vaddr

/-- `&ptab[vm_ptab_idx(vaddr)]`, with `ptab` the table of `vaddr`. -/
def ptabSlot (vaddr : BitVec 32) : BitVec 32 :=
  kernPtabsAddr + 4#32 * (0x400#32 * vmPdirIdx vaddr) + 4#32 * vmPtabIdx vaddr

section Code

variable {τ : Type} [Tlb τ]

/-- `map_page`.  Its two error messages go to the screen only. -/
def mapPage (paddr vaddr flags : BitVec 32) : Code Trap (Machine τ) Unit := do
  let paddr := palignDown paddr
  let vaddr := palignDown vaddr
  let flags := flags ||| (pteP ||| pteW)
  if (← load32 (pdirSlot vaddr)) &&& pteP ≠ 0#32 then
    -- the corresponding page table exists
    let pte ← load32 (ptabSlot vaddr)
    if pte &&& pteP ≠ 0#32 then
      -- page is already mapped
      if pte &&& 0xfffff000#32 ≠ paddr &&& 0xfffff000#32 then trap .halt
      else if pte &&& 0x1f#32 ≠ flags &&& 0x1f#32 then trap .halt
      else pure ()
    else
      -- page isn't mapped
      let pde ← load32 (pdirSlot vaddr)
      store32 (pdirSlot vaddr) (pde ||| flags)
      store32 (ptabSlot vaddr) (paddr ||| flags)
  else
    -- the page table doesn't exist
    let newPtab ← pmAllocPage
    store32 (pdirSlot vaddr) (newPtab ||| flags)
    vmFlushPage (pdirSlot vaddr)
    store32 (ptabSlot vaddr) (paddr ||| flags)

/-- `unmap_page`. -/
def unmapPage (vaddr : BitVec 32) : Code Trap (Machine τ) Unit :=
  store32 (ptabSlot (palignDown vaddr)) 0#32

/-- The number of pages `map_pages` and its relatives go through for `sz` bytes. -/
def pagesOf (sz : BitVec 32) : Nat := sz.toNat / 4096 + if 0 < sz.toNat % 4096 then 1 else 0

/-- A range with a byte has a page. -/
theorem pagesOf_pos {sz : BitVec 32} (h : 0 < sz.toNat) : 0 < pagesOf sz := by
  unfold pagesOf
  split <;> omega

/-- The loop of `map_pages`. -/
def mapPagesLoop (flags : BitVec 32) : Nat → BitVec 32 → BitVec 32 → Code Trap (Machine τ) Unit
  | 0, _, _ => pure ()
  | n + 1, paddr, vaddr => do
    mapPage paddr vaddr flags
    mapPagesLoop flags n (paddr + pageSize) (vaddr + pageSize)

/-- `map_pages`. -/
def mapPages (paddr vaddr flags sz : BitVec 32) : Code Trap (Machine τ) Unit :=
  if sz = 0#32 then pure ()
  else mapPagesLoop flags (pagesOf sz) (palignDown paddr) (palignDown vaddr)

/-- The loop of `unmap_pages`. -/
def unmapPagesLoop : Nat → BitVec 32 → Code Trap (Machine τ) Unit
  | 0, _ => pure ()
  | n + 1, vaddr => do
    unmapPage vaddr
    unmapPagesLoop n (vaddr + pageSize)

/-- `unmap_pages`. -/
def unmapPages (vaddr sz : BitVec 32) : Code Trap (Machine τ) Unit :=
  if sz = 0#32 then pure () else unmapPagesLoop (pagesOf sz) (palignDown vaddr)

/-- `vm_get_phys_mapping`. -/
def vmGetPhysMapping (vaddr : BitVec 32) : Code Trap (Machine τ) (BitVec 32) := do
  let offset := pageOffset vaddr
  let pte ← load32 (ptabSlot (palignDown vaddr))
  return (pte &&& ~~~0x3ff#32) + offset

/-- The loop of `vm_alloc_pages_at`. -/
def vmAllocPagesAtLoop (flags : BitVec 32) : Nat → BitVec 32 → Code Trap (Machine τ) Unit
  | 0, _ => pure ()
  | n + 1, vaddr => do
    let physicalPage ← pmAllocPage
    mapPage physicalPage vaddr flags
    vmAllocPagesAtLoop flags n (vaddr + pageSize)

/-- `vm_alloc_pages_at`. -/
def vmAllocPagesAt (vaddr flags sz : BitVec 32) : Code Trap (Machine τ) Unit :=
  if sz = 0#32 then pure () else vmAllocPagesAtLoop flags (pagesOf sz) (palignDown vaddr)

/-- `vm_change_page_attrs`. -/
def vmChangePageAttrs (vaddr newFlags : BitVec 32) : Code Trap (Machine τ) Unit := do
  let vaddr := palignDown vaddr
  let pte ← load32 (ptabSlot vaddr)
  store32 (ptabSlot vaddr) ((pte &&& ~~~0x3ff#32) ||| newFlags)

/-- The loop of `vm_copy_kernel_pdir`: the present entries that are not for user mode, from
    slot `i` on. -/
def copyKernelPdes (newPdir : BitVec 32) : Nat → BitVec 32 → Code Trap (Machine τ) Unit
  | 0, _ => pure ()
  | n + 1, i => do
    let pde ← load32 (kernPdirAddr + 4#32 * i)
    onlyIf (pde &&& pteP ≠ 0#32) do
      let pde ← load32 (kernPdirAddr + 4#32 * i)
      onlyIf (pde &&& pteU = 0#32) do
        let pde ← load32 (kernPdirAddr + 4#32 * i)
        store32 (newPdir + 4#32 * i) pde
    copyKernelPdes newPdir n (i + 1#32)

/-- `vm_copy_kernel_pdir`. -/
def vmCopyKernelPdir : Code Trap (Machine τ) (BitVec 32) := do
  let newPdir ← pmAllocPage
  if newPdir = 0#32 then return 0#32
  else do
    mapPage newPdir newPdir 0#32
    memset newPdir 0#8 4096
    copyKernelPdes newPdir 1024 0#32
    store32 (newPdir + 4#32 * 1023#32) (newPdir ||| pteP ||| pteW)
    return newPdir

end Code

/-! ### Entries -/

/-- An entry is present. -/
def Present (e : BitVec 32) : Prop := e &&& pteP ≠ 0#32

instance (e : BitVec 32) : Decidable (Present e) := inferInstanceAs (Decidable (_ ≠ _))

/-- An entry is present when its lowest bit is set. -/
theorem present_iff (e : BitVec 32) : Present e ↔ e.getLsbD 0 = true := by
  unfold Present
  rw [ne_eq, and_eq_zero_iff]
  constructor
  · intro h
    by_contra hf
    refine h fun j hj => ?_
    have hj0 : j = 0 := by
      rw [pteP, BitVec.getLsbD_one] at hj
      simpa using hj
    rw [hj0]
    simpa using hf
  · intro h hall
    have := hall 0 (by decide)
    rw [h] at this
    exact absurd this (by simp)

/-- Flags of a present entry make an entry present, … -/
theorem present_or_right {e f : BitVec 32} (h : Present f) : Present (e ||| f) := by
  rw [present_iff] at h ⊢
  simp [h]

/-- … and `map_page` always adds such flags. -/
theorem present_flags (flags : BitVec 32) : Present (flags ||| (pteP ||| pteW)) :=
  present_or_right (by decide)

/-- Flag bits do not reach the frame of an entry. -/
theorem palignDown_or {e f : BitVec 32} (hf : f.toNat < 4096) :
    palignDown (e ||| f) = palignDown e := by
  have h0 : palignDown f = 0#32 := by
    apply BitVec.eq_of_toNat_eq
    rw [palignDown_toNat, BitVec.toNat_ofNat]
    omega
  have hdist : palignDown (e ||| f) = palignDown e ||| palignDown f := by
    unfold palignDown
    rw [BitVec.and_comm, BitVec.and_or_distrib_left, BitVec.and_comm e, BitVec.and_comm f]
  rw [hdist, h0, BitVec.or_zero]

/-- `flags |= PTE_P | PTE_W` stays below the frame bits. -/
theorem flags_lt {flags : BitVec 32} (hf : flags.toNat < 4096) :
    (flags ||| (pteP ||| pteW)).toNat < 4096 := by
  rw [BitVec.toNat_or]
  exact Nat.or_lt_two_pow (n := 12) hf (by decide)

/-- The low bits of an entry are its flags. -/
theorem entry_and {F e c : BitVec 32} (hF : F.toNat % 4096 = 0) (hc : c.toNat < 4096) :
    (F ||| e) &&& c = e &&& c := by
  have hzero : F &&& c = 0#32 := by
    have hc0 : palignDown c = 0#32 := by
      apply BitVec.eq_of_toNat_eq
      rw [palignDown_toNat, BitVec.toNat_ofNat]
      omega
    rw [← palignDown_of_aligned hF, palignDown, BitVec.and_assoc, BitVec.and_comm _ c]
    exact (congrArg (F &&& ·) hc0).trans BitVec.and_zero
  rw [BitVec.and_or_distrib_right, hzero, BitVec.zero_or]

/-! ### Walks -/

/-- The directory entry of an address. -/
def pdeOf (mem : Mem) (cr3 v : BitVec 32) : BitVec 32 :=
  tableEntry mem (palignDown cr3) (vmPdirIdx v)

/-- The table entry of an address, in the table its directory entry points to. -/
def pteOf (mem : Mem) (cr3 v : BitVec 32) : BitVec 32 :=
  tableEntry mem (palignDown (pdeOf mem cr3 v)) (vmPtabIdx v)

/-- A walk succeeds through two present entries. -/
theorem walk_eq_some_iff {mem : Mem} {cr3 v f : BitVec 32} :
    walk mem cr3 v = some f ↔
      Present (pdeOf mem cr3 v) ∧ Present (pteOf mem cr3 v) ∧ palignDown (pteOf mem cr3 v) = f := by
  unfold walk Present pteOf pdeOf
  simp only
  split
  · simp_all
  · split
    · simp_all
    · simp_all

/-- A page is not mapped when its table or its entry there is absent. -/
theorem walk_eq_none_iff {mem : Mem} {cr3 v : BitVec 32} :
    walk mem cr3 v = none ↔ ¬ Present (pdeOf mem cr3 v) ∨ ¬ Present (pteOf mem cr3 v) := by
  unfold walk Present pteOf pdeOf
  simp only
  split
  · simp_all
  · split
    · simp_all
    · simp_all

/-- Two memories whose entries for `v` agree up to flags give the same walk. -/
theorem walk_congr {mem mem' : Mem} {cr3 v : BitVec 32}
    (hp : Present (pdeOf mem' cr3 v) ↔ Present (pdeOf mem cr3 v))
    (ht : Present (pdeOf mem cr3 v) → (Present (pteOf mem' cr3 v) ↔ Present (pteOf mem cr3 v)) ∧
      palignDown (pteOf mem' cr3 v) = palignDown (pteOf mem cr3 v)) :
    walk mem' cr3 v = walk mem cr3 v := by
  by_cases h : Present (pdeOf mem cr3 v)
  · obtain ⟨hpt, hf⟩ := ht h
    by_cases h' : Present (pteOf mem cr3 v)
    · rw [walk_eq_some_iff.mpr ⟨h, h', rfl⟩, walk_eq_some_iff]
      exact ⟨hp.mpr h, hpt.mpr h', hf⟩
    · rw [walk_eq_none_iff.mpr (Or.inr h'), walk_eq_none_iff]
      exact Or.inr fun hq => h' (hpt.mp hq)
  · rw [walk_eq_none_iff.mpr (Or.inl h), walk_eq_none_iff]
    exact Or.inl fun hq => h (hp.mp hq)

section Stores

variable {mem : Mem} {cr3 v b i x : BitVec 32} (hb : b.toNat % 4096 = 0) (hi : i.toNat < 1024)

include hb hi

/-- A stored entry is either the one read, or another one. -/
theorem tableEntry_write (c j : BitVec 32) (hc : c.toNat % 4096 = 0) (hj : j.toNat < 1024) :
    tableEntry (write32 mem (b + 4#32 * i) x) c j
      = if c = b ∧ j = i then x else tableEntry mem c j := by
  split
  · rename_i h
    rw [h.1, h.2, tableEntry_write_self]
  · rename_i h
    refine tableEntry_write_of_ne hb hc hi hj ?_
    by_cases hbc : c = b
    · exact Or.inr fun hij => h ⟨hbc, hij.symm⟩
    · exact Or.inl fun hcb => hbc hcb.symm

/-- **Filling an absent entry changes no successful walk**: the entries it goes through are
    present, so none of them is the one stored. -/
theorem walk_write_absent {f : BitVec 32} (ha : ¬ Present (tableEntry mem b i))
    (hw : walk mem cr3 v = some f) : walk (write32 mem (b + 4#32 * i) x) cr3 v = some f := by
  obtain ⟨h1, h2, h3⟩ := walk_eq_some_iff.mp hw
  have hpde : pdeOf (write32 mem (b + 4#32 * i) x) cr3 v = pdeOf mem cr3 v := by
    unfold pdeOf
    rw [tableEntry_write hb hi _ _ (palignDown_aligned _) (vmPdirIdx_lt v), if_neg]
    rintro ⟨hc, hj⟩
    unfold pdeOf at h1
    rw [hc, hj] at h1
    exact ha h1
  have hpte : pteOf (write32 mem (b + 4#32 * i) x) cr3 v = pteOf mem cr3 v := by
    unfold pteOf
    rw [hpde, tableEntry_write hb hi _ _ (palignDown_aligned _) (vmPtabIdx_lt v), if_neg]
    rintro ⟨hc, hj⟩
    unfold pteOf at h2
    rw [hc, hj] at h2
    exact ha h2
  rw [walk_eq_some_iff, hpde, hpte]
  exact ⟨h1, h2, h3⟩

/-- **Changing only flags of an entry changes no walk.** -/
theorem walk_write_keep (hp : Present x ↔ Present (tableEntry mem b i))
    (hf : palignDown x = palignDown (tableEntry mem b i)) :
    walk (write32 mem (b + 4#32 * i) x) cr3 v = walk mem cr3 v := by
  have hent : ∀ c j : BitVec 32, c.toNat % 4096 = 0 → j.toNat < 1024 →
      (Present (tableEntry (write32 mem (b + 4#32 * i) x) c j) ↔ Present (tableEntry mem c j)) ∧
        palignDown (tableEntry (write32 mem (b + 4#32 * i) x) c j)
          = palignDown (tableEntry mem c j) := by
    intro c j hc hj
    rw [tableEntry_write hb hi c j hc hj]
    split
    · rename_i h
      rw [h.1, h.2]
      exact ⟨hp, hf⟩
    · exact ⟨Iff.rfl, rfl⟩
  have hpde := hent (palignDown cr3) (vmPdirIdx v) (palignDown_aligned _) (vmPdirIdx_lt v)
  refine walk_congr hpde.1 fun _ => ?_
  unfold pteOf pdeOf
  rw [hpde.2]
  exact hent _ _ (palignDown_aligned _) (vmPtabIdx_lt v)

end Stores

/-! ### The recursive slot -/

/-- Slot 1023 of the directory is present and maps the directory itself. -/
def Recursive (mem : Mem) (cr3 : BitVec 32) : Prop :=
  Present (tableEntry mem (palignDown cr3) 1023#32) ∧
    palignDown (tableEntry mem (palignDown cr3) 1023#32) = palignDown cr3

instance (mem : Mem) (cr3 : BitVec 32) : Decidable (Recursive mem cr3) :=
  inferInstanceAs (Decidable (_ ∧ _))

section Slots

variable (v : BitVec 32)

/-- Where the window has the directory entry, … -/
theorem pdirSlot_toNat : (pdirSlot v).toNat = 0xfffff000 + 4 * (vmPdirIdx v).toNat :=
  slot_toNat (by decide) (vmPdirIdx_lt v)

/-- … and where it has the table entry. -/
theorem ptabSlot_toNat : (ptabSlot v).toNat
    = 0xffc00000 + 4096 * (vmPdirIdx v).toNat + 4 * (vmPtabIdx v).toNat := by
  have h1 := vmPdirIdx_lt v
  have h2 := vmPtabIdx_lt v
  simp only [ptabSlot, kernPtabsAddr, BitVec.toNat_add, BitVec.toNat_mul, BitVec.toNat_ofNat]
  omega

/-- The window has whole words: of the directory, … -/
theorem pdirSlot_aligned : (pdirSlot v).toNat % 4 = 0 := by
  rw [pdirSlot_toNat]
  omega

/-- … and of the tables. -/
theorem ptabSlot_aligned : (ptabSlot v).toNat % 4 = 0 := by
  rw [ptabSlot_toNat]
  omega

/-- The offset of a directory entry in its page is that in the directory, … -/
theorem pageOffset_pdirSlot : pageOffset (pdirSlot v) = 4#32 * vmPdirIdx v := by
  apply BitVec.eq_of_toNat_eq
  have := vmPdirIdx_lt v
  rw [pageOffset_toNat, pdirSlot_toNat, BitVec.toNat_mul, BitVec.toNat_ofNat]
  omega

/-- … and the one of a table entry is that in the table. -/
theorem pageOffset_ptabSlot : pageOffset (ptabSlot v) = 4#32 * vmPtabIdx v := by
  apply BitVec.eq_of_toNat_eq
  have := vmPtabIdx_lt v
  rw [pageOffset_toNat, ptabSlot_toNat, BitVec.toNat_mul, BitVec.toNat_ofNat]
  omega

/-- The directory's window is in the last region, … -/
theorem vmPdirIdx_pdirSlot : vmPdirIdx (pdirSlot v) = 1023#32 := by
  apply BitVec.eq_of_toNat_eq
  have := vmPdirIdx_lt v
  rw [vmPdirIdx_toNat, pdirSlot_toNat, BitVec.toNat_ofNat]
  omega

/-- … on its last page. -/
theorem vmPtabIdx_pdirSlot : vmPtabIdx (pdirSlot v) = 1023#32 := by
  apply BitVec.eq_of_toNat_eq
  have := vmPdirIdx_lt v
  rw [vmPtabIdx_toNat, pdirSlot_toNat, BitVec.toNat_ofNat]
  omega

/-- The tables are in the last region too, … -/
theorem vmPdirIdx_ptabSlot : vmPdirIdx (ptabSlot v) = 1023#32 := by
  apply BitVec.eq_of_toNat_eq
  have := vmPdirIdx_lt v
  have := vmPtabIdx_lt v
  rw [vmPdirIdx_toNat, ptabSlot_toNat, BitVec.toNat_ofNat]
  omega

/-- … each on the page of its region. -/
theorem vmPtabIdx_ptabSlot : vmPtabIdx (ptabSlot v) = vmPdirIdx v := by
  apply BitVec.eq_of_toNat_eq
  have := vmPdirIdx_lt v
  have := vmPtabIdx_lt v
  rw [vmPtabIdx_toNat, ptabSlot_toNat]
  omega

end Slots

section Windows

variable {mem : Mem} {cr3 : BitVec 32} (hr : Recursive mem cr3)

include hr

/-- The directory window resolves to the directory. -/
theorem walk_pdirSlot (v : BitVec 32) : walk mem cr3 (pdirSlot v) = some (palignDown cr3) := by
  have hpde : pdeOf mem cr3 (pdirSlot v) = tableEntry mem (palignDown cr3) 1023#32 := by
    rw [pdeOf, vmPdirIdx_pdirSlot]
  have hpte : pteOf mem cr3 (pdirSlot v) = tableEntry mem (palignDown cr3) 1023#32 := by
    rw [pteOf, hpde, hr.2, vmPtabIdx_pdirSlot]
  rw [walk_eq_some_iff, hpde, hpte]
  exact ⟨hr.1, hr.1, hr.2⟩

/-- The table window of `v` shows the directory entry of `v` to the walk. -/
theorem pteOf_ptabSlot (v : BitVec 32) : pteOf mem cr3 (ptabSlot v) = pdeOf mem cr3 v := by
  rw [pteOf, pdeOf, vmPdirIdx_ptabSlot, hr.2, vmPtabIdx_ptabSlot, pdeOf]

/-- The table window resolves to the table, when there is one. -/
theorem walk_ptabSlot {v : BitVec 32} (hp : Present (pdeOf mem cr3 v)) :
    walk mem cr3 (ptabSlot v) = some (palignDown (pdeOf mem cr3 v)) := by
  rw [walk_eq_some_iff, pteOf_ptabSlot hr, pdeOf, vmPdirIdx_ptabSlot]
  exact ⟨hr.1, hp, rfl⟩

/-- Without a table the window is not mapped. -/
theorem walk_ptabSlot_absent {v : BitVec 32} (hp : ¬ Present (pdeOf mem cr3 v)) :
    walk mem cr3 (ptabSlot v) = none := by
  rw [walk_eq_none_iff, pteOf_ptabSlot hr]
  exact Or.inr hp

end Windows

/-! ### The frames of an address space -/

/-- The frame `F` is the directory or one of the tables it points to. -/
def InUse (mem : Mem) (cr3 F : BitVec 32) : Prop :=
  ∃ w, Present (pdeOf mem cr3 w) ∧ palignDown (pdeOf mem cr3 w) = F

/-- The directory is its own last table. -/
theorem inUse_directory {mem : Mem} {cr3 : BitVec 32} (hr : Recursive mem cr3) :
    InUse mem cr3 (palignDown cr3) := by
  refine ⟨0xffffffff#32, ?_⟩
  rw [pdeOf, show vmPdirIdx 0xffffffff#32 = 1023#32 by decide]
  exact hr

/-- An entry is in the four bytes of its slot. -/
theorem tableEntry_congr {mem mem' : Mem} {c j : BitVec 32} (hc : c.toNat % 4096 = 0)
    (hj : j.toNat < 1024) (h : ∀ x, palignDown x = c → mem' x = mem x) :
    tableEntry mem' c j = tableEntry mem c j := by
  refine read32_congr fun x hx => h x ?_
  have hs := slot_toNat hc hj
  have := c.isLt
  rw [inRange_iff (by omega)] at hx
  apply BitVec.eq_of_toNat_eq
  rw [palignDown_toNat]
  omega

/-- Walks depend on the directory and the tables only. -/
theorem walk_of_agree {mem mem' : Mem} {cr3 : BitVec 32} (hr : Recursive mem cr3)
    (h : ∀ x, InUse mem cr3 (palignDown x) → mem' x = mem x) (w : BitVec 32) :
    walk mem' cr3 w = walk mem cr3 w := by
  have hpde : pdeOf mem' cr3 w = pdeOf mem cr3 w :=
    tableEntry_congr (palignDown_aligned _) (vmPdirIdx_lt w) fun x hx =>
      h x (hx ▸ inUse_directory hr)
  refine walk_congr (by rw [hpde]) fun hp => ?_
  have hpte : pteOf mem' cr3 w = pteOf mem cr3 w := by
    rw [pteOf, hpde]
    exact tableEntry_congr (palignDown_aligned _) (vmPtabIdx_lt w) fun x hx =>
      h x ⟨w, hp, hx.symm⟩
  rw [hpte]
  exact ⟨Iff.rfl, rfl⟩

/-- Stores outside the tables leave the self-mapping. -/
theorem Recursive.of_agree {mem mem' : Mem} {cr3 : BitVec 32} (hr : Recursive mem cr3)
    (h : ∀ x, InUse mem cr3 (palignDown x) → mem' x = mem x) : Recursive mem' cr3 := by
  have hslot : tableEntry mem' (palignDown cr3) 1023#32
      = tableEntry mem (palignDown cr3) 1023#32 :=
    tableEntry_congr (palignDown_aligned _) (by decide) fun x hx => h x (hx ▸ inUse_directory hr)
  unfold Recursive
  rw [hslot]
  exact hr

end Leoman
