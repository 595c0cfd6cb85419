import Leoman.Vm

namespace Leoman

open ByteMem StateExcept

/-!
# Editing an address space (`map_page`)

Under a coherent TLB and a recursive directory every access of `map_page` reaches the entry it
is meant for, so the function is one or two entry stores on physical memory:

* `setPde`, `setPte` — the store of a directory entry, of a table entry;
* `mapPage_absentTable`, `mapPage_absentPage`, `mapPage_present` — `map_page` branch by branch;
* `WellFormed` — the self-mapping and page tables in pairwise distinct frames;
* `walk_setPde_of_ne`, `walk_setPte` — the walks such a store leaves alone.
-/

/-! ### Entry stores -/

/-- Store the directory entry of `v`. -/
def setPde (mem : Mem) (cr3 v x : BitVec 32) : Mem :=
  write32 mem (palignDown cr3 + 4#32 * vmPdirIdx v) x

/-- Store the table entry of `v`, in the table its directory entry points to. -/
def setPte (mem : Mem) (cr3 v x : BitVec 32) : Mem :=
  write32 mem (palignDown (pdeOf mem cr3 v) + 4#32 * vmPtabIdx v) x

/-- `flags |= PTE_P | PTE_W`. -/
def mapFlags (flags : BitVec 32) : BitVec 32 := flags ||| (pteP ||| pteW)

section Entries

variable (mem : Mem) (cr3 v x : BitVec 32)

/-- An entry after the store of a directory entry. -/
theorem tableEntry_setPde {c j : BitVec 32} (hc : c.toNat % 4096 = 0) (hj : j.toNat < 1024) :
    tableEntry (setPde mem cr3 v x) c j
      = if c = palignDown cr3 ∧ j = vmPdirIdx v then x else tableEntry mem c j :=
  tableEntry_write (palignDown_aligned _) (vmPdirIdx_lt v) c j hc hj

/-- An entry after the store of a table entry. -/
theorem tableEntry_setPte {c j : BitVec 32} (hc : c.toNat % 4096 = 0) (hj : j.toNat < 1024) :
    tableEntry (setPte mem cr3 v x) c j
      = if c = palignDown (pdeOf mem cr3 v) ∧ j = vmPtabIdx v then x else tableEntry mem c j :=
  tableEntry_write (palignDown_aligned _) (vmPtabIdx_lt v) c j hc hj

/-- The stored directory entry is the one of every address of its region. -/
theorem pdeOf_setPde (w : BitVec 32) :
    pdeOf (setPde mem cr3 v x) cr3 w
      = if vmPdirIdx w = vmPdirIdx v then x else pdeOf mem cr3 w := by
  rw [pdeOf, tableEntry_setPde _ _ _ _ (palignDown_aligned _) (vmPdirIdx_lt w)]
  simp only [true_and, pdeOf]

/-- The entry that was stored. -/
theorem pdeOf_setPde_self : pdeOf (setPde mem cr3 v x) cr3 v = x := by
  rw [pdeOf_setPde, if_pos rfl]

variable {mem cr3 v}

/-- Slot 1023 survives the store of another directory entry, or of one that keeps the frame. -/
theorem Recursive.store_pde (hr : Recursive mem cr3)
    (hx : vmPdirIdx v = 1023#32 → Present x ∧ palignDown x = palignDown cr3) :
    Recursive (setPde mem cr3 v x) cr3 := by
  unfold Recursive
  rw [tableEntry_setPde _ _ _ _ (palignDown_aligned _) (by decide)]
  split
  · rename_i h
    exact hx h.2.symm
  · exact hr

/-- Without a directory entry of its own an address is not in the last region. -/
theorem Recursive.pdirIdx_ne (hr : Recursive mem cr3) (ha : ¬ Present (pdeOf mem cr3 v)) :
    vmPdirIdx v ≠ 1023#32 := by
  intro h
  rw [pdeOf, h] at ha
  exact ha hr.1

end Entries

/-! ### Accesses through the windows -/

/-- A page of the two windows, the addresses slot 1023 gives. -/
def InWindows (q : BitVec 32) : Prop := vmPdirIdx q = 1023#32

/-- The directory is in the windows, … -/
theorem inWindows_pdirSlot (v : BitVec 32) : InWindows (palignDown (pdirSlot v)) := by
  rw [InWindows, vmPdirIdx_palignDown, vmPdirIdx_pdirSlot]

/-- … and so are the tables. -/
theorem inWindows_ptabSlot (v : BitVec 32) : InWindows (palignDown (ptabSlot v)) := by
  rw [InWindows, vmPdirIdx_palignDown, vmPdirIdx_ptabSlot]

section Windows

variable {τ : Type} [Tlb τ] {m : Machine τ} (hc : Coherent m.tlb m.mem m.cr3)
  (hr : Recursive m.mem m.cr3) (v : BitVec 32)

include hc hr

/-- Reading `pdir[vm_pdir_idx(v)]`. -/
theorem load_pdirSlot : ∃ t, load32 (pdirSlot v) m
    = .ok (pdeOf m.mem m.cr3 v, { m with tlb := t }) ∧ Coherent t m.mem m.cr3 ∧
      OnlyNew InWindows m.tlb t := by
  obtain ⟨t, ht, hct, hnt⟩ := load32_of_walk hc (pdirSlot_aligned v) (walk_pdirSlot hr v)
  rw [pageOffset_pdirSlot] at ht
  exact ⟨t, ht, hct, hnt.mono fun q hq => hq ▸ inWindows_pdirSlot v⟩

/-- Writing `pdir[vm_pdir_idx(v)]`. -/
theorem store_pdirSlot (x : BitVec 32) : ∃ t, store32 (pdirSlot v) x m
    = .ok ((), { m with mem := setPde m.mem m.cr3 v x, tlb := t }) ∧
      Coherent t m.mem m.cr3 ∧ OnlyNew InWindows m.tlb t := by
  obtain ⟨t, ht, hct, hnt⟩ :=
    store32_of_walk (x := x) hc (pdirSlot_aligned v) (walk_pdirSlot hr v)
  rw [pageOffset_pdirSlot] at ht
  exact ⟨t, ht, hct, hnt.mono fun q hq => hq ▸ inWindows_pdirSlot v⟩

variable {v} (hp : Present (pdeOf m.mem m.cr3 v))

include hp

/-- Reading `ptab[vm_ptab_idx(v)]`. -/
theorem load_ptabSlot : ∃ t, load32 (ptabSlot v) m
    = .ok (pteOf m.mem m.cr3 v, { m with tlb := t }) ∧ Coherent t m.mem m.cr3 ∧
      OnlyNew InWindows m.tlb t := by
  obtain ⟨t, ht, hct, hnt⟩ := load32_of_walk hc (ptabSlot_aligned v) (walk_ptabSlot hr hp)
  rw [pageOffset_ptabSlot] at ht
  exact ⟨t, ht, hct, hnt.mono fun q hq => hq ▸ inWindows_ptabSlot v⟩

/-- Writing `ptab[vm_ptab_idx(v)]`. -/
theorem store_ptabSlot (x : BitVec 32) : ∃ t, store32 (ptabSlot v) x m
    = .ok ((), { m with mem := setPte m.mem m.cr3 v x, tlb := t }) ∧
      Coherent t m.mem m.cr3 ∧ OnlyNew InWindows m.tlb t := by
  obtain ⟨t, ht, hct, hnt⟩ :=
    store32_of_walk (x := x) hc (ptabSlot_aligned v) (walk_ptabSlot hr hp)
  rw [pageOffset_ptabSlot] at ht
  exact ⟨t, ht, hct, hnt.mono fun q hq => hq ▸ inWindows_ptabSlot v⟩

end Windows

/-! ### `map_page`, branch by branch -/

/-- The entry `pte` is what `map_page(p, _, flags)` stores, as far as `map_page` compares: the
    frame, and the low five bits. -/
def SameMapping (pte p flags : BitVec 32) : Prop :=
  pte &&& 0xfffff000#32 = palignDown p &&& 0xfffff000#32 ∧
    pte &&& 0x1f#32 = mapFlags flags &&& 0x1f#32

instance (pte p flags : BitVec 32) : Decidable (SameMapping pte p flags) :=
  inferInstanceAs (Decidable (_ ∧ _))

section MapPage

variable {τ : Type} [Tlb τ] {m : Machine τ} (hc : Coherent m.tlb m.mem m.cr3)
  (hr : Recursive m.mem m.cr3) {p v flags : BitVec 32}

/-- A TLB that agrees with the tables agrees with them after a store that keeps the successful
    walks. -/
theorem Coherent.mono {t : τ} {mem mem' : Mem} {cr3 : BitVec 32} (hc : Coherent t mem cr3)
    (hw : ∀ w f, walk mem cr3 w = some f → walk mem' cr3 w = some f) : Coherent t mem' cr3 :=
  fun q g hq => hw q g (hc q g hq)

/-- The entries of an address are those of its page: in the directory … -/
theorem pdirSlot_palignDown (v : BitVec 32) : pdirSlot (palignDown v) = pdirSlot v := by
  rw [pdirSlot, pdirSlot, vmPdirIdx_palignDown]

/-- … and in the table. -/
theorem ptabSlot_palignDown (v : BitVec 32) : ptabSlot (palignDown v) = ptabSlot v := by
  rw [ptabSlot, ptabSlot, vmPdirIdx_palignDown, vmPtabIdx_palignDown]

/-- `pdir[...] |= flags` keeps the self-mapping. -/
theorem Recursive.store_flags {mem : Mem} {cr3 : BitVec 32} (hr : Recursive mem cr3)
    (hf : flags.toNat < 4096) :
    Recursive (setPde mem cr3 v (pdeOf mem cr3 v ||| mapFlags flags)) cr3 := by
  refine hr.store_pde _ fun h => ⟨present_or_right (present_flags flags), ?_⟩
  rw [mapFlags, palignDown_or (flags_lt hf), pdeOf, h]
  exact hr.2

include hc hr

/-- No page table yet: the frame of `pm_alloc` goes into the directory as it is, and the page
    into that frame. -/
theorem mapPage_absentTable (ha : ¬ Present (pdeOf m.mem m.cr3 v)) :
    let mem₁ := setPde m.mem m.cr3 v ((pmAlloc m.pm).1 ||| mapFlags flags)
    ∃ t, mapPage p v flags m
        = .ok ((), { m with mem := setPte mem₁ m.cr3 v (palignDown p ||| mapFlags flags)
                            tlb := t, pm := (pmAlloc m.pm).2 }) ∧ Coherent t mem₁ m.cr3 ∧
      OnlyNew InWindows m.tlb t := by
  intro mem₁
  obtain ⟨t₀, h₀, hc₀, hn₀⟩ := load_pdirSlot hc hr v
  -- the stored directory entry was absent, so what the TLB retains stays right
  have hkeep : ∀ w f, walk m.mem m.cr3 w = some f → walk mem₁ m.cr3 w = some f :=
    fun w f => walk_write_absent (palignDown_aligned _) (vmPdirIdx_lt v) ha
  obtain ⟨t₁, h₁, hc₁, hn₁⟩ := store_pdirSlot
    (m := { m with tlb := t₀, pm := (pmAlloc m.pm).2 }) hc₀ hr v
    ((pmAlloc m.pm).1 ||| mapFlags flags)
  have hc₂ : Coherent (Tlb.invlpg t₁ (pdirSlot v &&& 0xfffff000#32)) mem₁ m.cr3 :=
    fun q g hq => hkeep q g (hc₁ q g (Tlb.lookup_invlpg hq).2)
  have hn₂ : OnlyNew InWindows t₁ (Tlb.invlpg t₁ (pdirSlot v &&& 0xfffff000#32)) :=
    fun q g hq => Or.inl (Tlb.lookup_invlpg hq).2
  have hp : Present (pdeOf mem₁ m.cr3 v) := by
    rw [pdeOf_setPde_self]
    exact present_or_right (present_flags flags)
  obtain ⟨t₃, h₃, hc₃, hn₃⟩ := store_ptabSlot
    (m := { m with mem := mem₁, tlb := Tlb.invlpg t₁ (pdirSlot v &&& 0xfffff000#32)
                   pm := (pmAlloc m.pm).2 })
    hc₂ (hr.store_pde _ fun h => absurd h (hr.pdirIdx_ne ha)) hp (palignDown p ||| mapFlags flags)
  refine ⟨t₃, ?_, hc₃, ((hn₀.trans hn₁).trans hn₂).trans hn₃⟩
  unfold mapPage
  simp only [pdirSlot_palignDown, ptabSlot_palignDown]
  rw [run_bind_of_ok h₀, if_neg (show ¬ (_ &&& pteP ≠ 0#32) from ha)]
  exact (run_bind_of_ok rfl).trans ((run_bind_of_ok h₁).trans ((run_bind_of_ok rfl).trans h₃))

/-- A page table, and the page not in it. -/
theorem mapPage_absentPage (hf : flags.toNat < 4096)
    (hp : Present (pdeOf m.mem m.cr3 v)) (ha : ¬ Present (pteOf m.mem m.cr3 v)) :
    let mem₁ := setPde m.mem m.cr3 v (pdeOf m.mem m.cr3 v ||| mapFlags flags)
    ∃ t, mapPage p v flags m
        = .ok ((), { m with mem := setPte mem₁ m.cr3 v (palignDown p ||| mapFlags flags)
                            tlb := t }) ∧ Coherent t mem₁ m.cr3 ∧
      OnlyNew InWindows m.tlb t := by
  intro mem₁
  obtain ⟨t₀, h₀, hc₀, hn₀⟩ := load_pdirSlot hc hr v
  obtain ⟨t₁, h₁, hc₁, hn₁⟩ := load_ptabSlot (m := { m with tlb := t₀ }) hc₀ hr hp
  obtain ⟨t₂, h₂, hc₂, hn₂⟩ := load_pdirSlot (m := { m with tlb := t₁ }) hc₁ hr v
  obtain ⟨t₃, h₃, hc₃, hn₃⟩ := store_pdirSlot (m := { m with tlb := t₂ }) hc₂ hr v
    (pdeOf m.mem m.cr3 v ||| mapFlags flags)
  -- only flags of the directory entry change
  have hkeep : ∀ w, walk mem₁ m.cr3 w = walk m.mem m.cr3 w := fun w =>
    walk_write_keep (palignDown_aligned _) (vmPdirIdx_lt v)
      (iff_of_true (present_or_right (present_flags flags)) hp) (palignDown_or (flags_lt hf))
  have hp₁ : Present (pdeOf mem₁ m.cr3 v) := by
    rw [pdeOf_setPde_self]
    exact present_or_right (present_flags flags)
  obtain ⟨t₄, h₄, hc₄, hn₄⟩ := store_ptabSlot (m := { m with mem := mem₁, tlb := t₃ })
    (hc₃.mono fun w f hw => (hkeep w).trans hw) (hr.store_flags hf) hp₁
    (palignDown p ||| mapFlags flags)
  refine ⟨t₄, ?_, hc₄, (((hn₀.trans hn₁).trans hn₂).trans hn₃).trans hn₄⟩
  unfold mapPage
  simp only [pdirSlot_palignDown, ptabSlot_palignDown]
  rw [run_bind_of_ok h₀, if_pos (show _ &&& pteP ≠ 0#32 from hp), run_bind_of_ok h₁,
    if_neg (show ¬ (_ &&& pteP ≠ 0#32) from ha)]
  exact (run_bind_of_ok h₂).trans ((run_bind_of_ok h₃).trans h₄)

/-- The page is mapped already: `map_page` stops unless it finds what it was to store. -/
theorem mapPage_present (hp : Present (pdeOf m.mem m.cr3 v))
    (hp' : Present (pteOf m.mem m.cr3 v)) :
    ∃ t, Coherent t m.mem m.cr3 ∧ OnlyNew InWindows m.tlb t ∧
      mapPage p v flags m = if SameMapping (pteOf m.mem m.cr3 v) p flags
        then .ok ((), { m with tlb := t }) else .error .halt := by
  obtain ⟨t₀, h₀, hc₀, hn₀⟩ := load_pdirSlot hc hr v
  obtain ⟨t₁, h₁, hc₁, hn₁⟩ := load_ptabSlot (m := { m with tlb := t₀ }) hc₀ hr hp
  refine ⟨t₁, hc₁, hn₀.trans hn₁, ?_⟩
  unfold mapPage
  simp only [pdirSlot_palignDown, ptabSlot_palignDown]
  rw [run_bind_of_ok h₀, if_pos (show _ &&& pteP ≠ 0#32 from hp), run_bind_of_ok h₁,
    if_pos (show _ &&& pteP ≠ 0#32 from hp')]
  -- the frame is compared first, then the flags
  split
  · rename_i hframe
    rw [if_neg fun h : SameMapping _ p flags => hframe h.1]
    rfl
  · rename_i hframe
    split
    · rename_i hflags
      rw [if_neg fun h : SameMapping _ p flags => hflags h.2]
      rfl
    · rename_i hflags
      rw [if_pos (show SameMapping _ p flags from
        ⟨not_not.mp hframe, not_not.mp hflags⟩)]
      rfl

/-- Either way nothing but the TLB changes. -/
theorem mapPage_mapped (hp : Present (pdeOf m.mem m.cr3 v))
    (hp' : Present (pteOf m.mem m.cr3 v)) :
    ∃ t, Coherent t m.mem m.cr3 ∧ OnlyNew InWindows m.tlb t ∧
      (mapPage p v flags m = .error .halt ∨
        mapPage p v flags m = .ok ((), { m with tlb := t })) := by
  obtain ⟨t, hct, hnt, hrun⟩ := @mapPage_present _ _ _ hc hr p v flags hp hp'
  refine ⟨t, hct, hnt, ?_⟩
  rw [hrun]
  split
  · exact Or.inr rfl
  · exact Or.inl rfl

end MapPage

/-! ### Well-formed address spaces -/

/-- Slot 1023 maps the directory itself, and the present slots point to distinct frames. -/
structure WellFormed (mem : Mem) (cr3 : BitVec 32) : Prop where
  recursive : Recursive mem cr3
  distinct : ∀ i j : BitVec 32, i.toNat < 1024 → j.toNat < 1024 →
    Present (tableEntry mem (palignDown cr3) i) → Present (tableEntry mem (palignDown cr3) j) →
    palignDown (tableEntry mem (palignDown cr3) i)
      = palignDown (tableEntry mem (palignDown cr3) j) → i = j

/-- The address space with nothing but the self-mapping, in the directory `dir`, on cleared
    memory. -/
def blankSpace (dir : BitVec 32) : Mem :=
  write32 (fun _ => 0#8) (dir + 4#32 * 1023#32) (dir ||| (pteP ||| pteW))

/-- Cleared memory holds zero entries. -/
theorem tableEntry_zero (c j : BitVec 32) : tableEntry (fun _ => 0#8) c j = 0#32 := by
  show 0#8 ++ 0#8 ++ 0#8 ++ 0#8 = 0#32
  decide

/-- A blank directory has one entry. -/
theorem tableEntry_blankSpace {dir c j : BitVec 32} (hd : dir.toNat % 4096 = 0)
    (hc : c.toNat % 4096 = 0) (hj : j.toNat < 1024) :
    tableEntry (blankSpace dir) c j
      = if c = dir ∧ j = 1023#32 then dir ||| (pteP ||| pteW) else 0#32 := by
  rw [blankSpace, tableEntry_write hd (by decide) c j hc hj, tableEntry_zero]

/-- Zero is no entry. -/
theorem not_present_zero : ¬ Present 0#32 := by decide

/-- Everything else in it is absent. -/
theorem blankSpace_absent {dir c j : BitVec 32} (hd : dir.toNat % 4096 = 0)
    (hc : c.toNat % 4096 = 0) (hj : j.toNat < 1024) (hne : c = dir → j ≠ 1023#32) :
    ¬ Present (tableEntry (blankSpace dir) c j) := by
  rw [tableEntry_blankSpace hd hc hj, if_neg (fun h => hne h.1 h.2)]
  exact not_present_zero

/-- A directory in which no slot but the last is present, and that one is the self-mapping. -/
theorem wellFormed_of_selfMap {mem : Mem} {dir : BitVec 32} (hr : Recursive mem dir)
    (h : ∀ i : BitVec 32, i.toNat < 1024 → i ≠ 1023#32 →
      ¬ Present (tableEntry mem (palignDown dir) i)) : WellFormed mem dir := by
  have hlast : ∀ i : BitVec 32, i.toNat < 1024 → Present (tableEntry mem (palignDown dir) i) →
      i = 1023#32 := fun i hi hp => by_contra fun hne => h i hi hne hp
  exact ⟨hr, fun i j hi hj hpi hpj _ => (hlast i hi hpi).trans (hlast j hj hpj).symm⟩

/-- It is well formed. -/
theorem wellFormed_blankSpace {dir : BitVec 32} (hd : dir.toNat % 4096 = 0) :
    WellFormed (blankSpace dir) dir := by
  have hself := tableEntry_blankSpace hd hd (j := 1023#32) (by decide)
  rw [if_pos ⟨rfl, rfl⟩] at hself
  refine wellFormed_of_selfMap ?_ fun i hi hne => ?_
  · unfold Recursive
    rw [palignDown_of_aligned hd, hself, palignDown_or (by decide), palignDown_of_aligned hd]
    exact ⟨present_or_right (by decide), rfl⟩
  · rw [palignDown_of_aligned hd]
    exact blankSpace_absent hd hd hi fun _ => hne

/-- A space that holds nothing yet uses no frame but its directory. -/
theorem blankSpace_inUse {dir F : BitVec 32} (hd : dir.toNat % 4096 = 0)
    (h : InUse (blankSpace dir) dir F) : F = dir := by
  obtain ⟨w, hp, hf⟩ := h
  rw [pdeOf, palignDown_of_aligned hd] at hp hf
  have hw : vmPdirIdx w = 1023#32 := by
    by_contra hne
    exact blankSpace_absent hd hd (vmPdirIdx_lt w) (fun _ => hne) hp
  rw [tableEntry_blankSpace hd hd (vmPdirIdx_lt w), if_pos ⟨rfl, hw⟩, palignDown_or (by decide),
    palignDown_of_aligned hd] at hf
  exact hf.symm

section WellFormed

variable {mem : Mem} {cr3 v w : BitVec 32} (hwf : WellFormed mem cr3)

include hwf

/-- Two addresses with the same page table are in the same region. -/
theorem WellFormed.region_eq (hv : Present (pdeOf mem cr3 v)) (hw : Present (pdeOf mem cr3 w))
    (h : palignDown (pdeOf mem cr3 v) = palignDown (pdeOf mem cr3 w)) :
    vmPdirIdx v = vmPdirIdx w :=
  hwf.distinct _ _ (vmPdirIdx_lt v) (vmPdirIdx_lt w) hv hw h

/-- The directory is the page table of the last region only. -/
theorem WellFormed.table_ne (hv : Present (pdeOf mem cr3 v)) (h1023 : vmPdirIdx v ≠ 1023#32) :
    palignDown (pdeOf mem cr3 v) ≠ palignDown cr3 := by
  intro h
  exact h1023 (hwf.distinct _ _ (vmPdirIdx_lt v) (by decide) hv hwf.recursive.1
    (h.trans hwf.recursive.2.symm))

end WellFormed

section TableStores

variable {mem : Mem} {E b i w x : BitVec 32} (hb : b.toNat % 4096 = 0) (hi : i.toNat < 1024)
  (hd : b ≠ palignDown E)

include hb hi hd

/-- A store outside the directory `E` keeps the directory entries. -/
theorem pdeOf_write (u : BitVec 32) :
    pdeOf (write32 mem (b + 4#32 * i) x) E u = pdeOf mem E u := by
  rw [pdeOf, tableEntry_write hb hi _ _ (palignDown_aligned _) (vmPdirIdx_lt u), if_neg]
  · rfl
  · rintro ⟨h, -⟩
    exact hd h.symm

/-- It leaves the walk of `w` alone unless `w` reads the entry stored, … -/
theorem walk_write_table (hw : Present (pdeOf mem E w) → palignDown (pdeOf mem E w) = b →
      vmPtabIdx w ≠ i) :
    walk (write32 mem (b + 4#32 * i) x) E w = walk mem E w := by
  have hpde : pdeOf (write32 mem (b + 4#32 * i) x) E w = pdeOf mem E w := pdeOf_write hb hi hd w
  refine walk_congr (by rw [hpde]) fun hp => ?_
  have hpte : pteOf (write32 mem (b + 4#32 * i) x) E w = pteOf mem E w := by
    rw [pteOf, hpde, tableEntry_write hb hi _ _ (palignDown_aligned _) (vmPtabIdx_lt w), if_neg]
    · rfl
    · rintro ⟨h, hj⟩
      exact hw hp h hj
  rw [hpte]
  exact ⟨Iff.rfl, rfl⟩

/-- … and then it is what the entry says. -/
theorem walk_write_table_self (hp : Present (pdeOf mem E w)) (hf : palignDown (pdeOf mem E w) = b)
    (hj : vmPtabIdx w = i) :
    walk (write32 mem (b + 4#32 * i) x) E w = if Present x then some (palignDown x) else none := by
  have hpde : pdeOf (write32 mem (b + 4#32 * i) x) E w = pdeOf mem E w := pdeOf_write hb hi hd w
  have hpte : pteOf (write32 mem (b + 4#32 * i) x) E w = x := by
    rw [pteOf, hpde, tableEntry_write hb hi _ _ (palignDown_aligned _) (vmPtabIdx_lt w),
      if_pos ⟨hf, hj⟩]
  split
  · rename_i hx
    rw [walk_eq_some_iff, hpde, hpte]
    exact ⟨hp, hx, rfl⟩
  · rename_i hx
    rw [walk_eq_none_iff, hpte]
    exact Or.inr hx

end TableStores

/-- The store of a table entry leaves the walk of `w` alone, unless the table is the directory
    or `w` reads the same entry. -/
theorem walk_setPte {mem : Mem} {cr3 v w x : BitVec 32}
    (hd : palignDown (pdeOf mem cr3 v) ≠ palignDown cr3)
    (hw : Present (pdeOf mem cr3 w) →
      palignDown (pdeOf mem cr3 w) = palignDown (pdeOf mem cr3 v) → vmPtabIdx w ≠ vmPtabIdx v) :
    walk (setPte mem cr3 v x) cr3 w = walk mem cr3 w :=
  walk_write_table (palignDown_aligned _) (vmPtabIdx_lt v) hd hw

/-- The store of a directory entry leaves the walks through other tables alone. -/
theorem walk_setPde_of_ne {mem : Mem} {cr3 v w x : BitVec 32} (hi : vmPdirIdx w ≠ vmPdirIdx v)
    (hd : Present (pdeOf mem cr3 w) → palignDown (pdeOf mem cr3 w) ≠ palignDown cr3) :
    walk (setPde mem cr3 v x) cr3 w = walk mem cr3 w := by
  have hpde : pdeOf (setPde mem cr3 v x) cr3 w = pdeOf mem cr3 w := by
    rw [pdeOf_setPde, if_neg hi]
  refine walk_congr (by rw [hpde]) fun hp => ?_
  have hpte : pteOf (setPde mem cr3 v x) cr3 w = pteOf mem cr3 w := by
    rw [pteOf, hpde, tableEntry_setPde _ _ _ _ (palignDown_aligned _) (vmPtabIdx_lt w), if_neg]
    · rfl
    · rintro ⟨h, -⟩
      exact hd hp h
  rw [hpte]
  exact ⟨Iff.rfl, rfl⟩

/-- With the page table in place, `map_page` changes the walk of no other page. -/
theorem walk_mapPage_absentPage {mem : Mem} {cr3 v w flags x : BitVec 32}
    (hwf : WellFormed mem cr3) (hv : vmPdirIdx v ≠ 1023#32) (hf : flags.toNat < 4096)
    (hp : Present (pdeOf mem cr3 v)) (hpage : palignDown w ≠ palignDown v) :
    walk (setPte (setPde mem cr3 v (pdeOf mem cr3 v ||| mapFlags flags)) cr3 v x) cr3 w
      = walk mem cr3 w := by
  have hpres : Present (pdeOf mem cr3 v ||| mapFlags flags) :=
    present_or_right (present_flags flags)
  have hframe : palignDown (pdeOf mem cr3 v ||| mapFlags flags) = palignDown (pdeOf mem cr3 v) :=
    palignDown_or (flags_lt hf)
  have hpde : ∀ u, (Present (pdeOf (setPde mem cr3 v (pdeOf mem cr3 v ||| mapFlags flags)) cr3 u)
      ↔ Present (pdeOf mem cr3 u)) ∧
      palignDown (pdeOf (setPde mem cr3 v (pdeOf mem cr3 v ||| mapFlags flags)) cr3 u)
        = palignDown (pdeOf mem cr3 u) := by
    intro u
    rw [pdeOf_setPde]
    split
    · rename_i hi
      have hu : pdeOf mem cr3 u = pdeOf mem cr3 v := by rw [pdeOf, hi, pdeOf]
      rw [hu]
      exact ⟨iff_of_true hpres hp, hframe⟩
    · exact ⟨Iff.rfl, rfl⟩
  calc walk (setPte (setPde mem cr3 v (pdeOf mem cr3 v ||| mapFlags flags)) cr3 v x) cr3 w
      = walk (setPde mem cr3 v (pdeOf mem cr3 v ||| mapFlags flags)) cr3 w := by
        refine walk_setPte ?_ ?_
        · rw [(hpde v).2]
          exact hwf.table_ne hp hv
        · intro hpw hs hj
          rw [(hpde w).2, (hpde v).2] at hs
          exact hpage (palignDown_eq_of_idx (hwf.region_eq ((hpde w).1.mp hpw) hp hs) hj)
    _ = walk mem cr3 w := walk_write_keep (palignDown_aligned _) (vmPdirIdx_lt v)
        (iff_of_true hpres hp) hframe

end Leoman
