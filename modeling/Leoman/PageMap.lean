import Leoman.MapPages

namespace Leoman

open ByteMem StateExcept Runs

/-!
# An address space as a page map

What the six functions of `kernel/vm.c` are for: below the windows an address space says which
regions of 4 MiB have a page table, and what the entry of each page is.  The frames of the tables,
the directory that maps itself, the windows and the TLB are how this is stored.

* `PageMap` — the address space so described, and how it translates addresses;
* `PageCall.apply`, `VmCall.apply` — the functions on page maps: they need no memory;
* `Shows` — the tables in memory show a page map;
* `PageCall.refines`, `execPages_refines` — the code in memory and the function on page maps
  complete together, and what the one leaves shows what the other computes;
* `page_map_refines` — the run: whatever else happens to the memory outside the tables, between
  the calls, every address translates as the page map says.
-/

/-! ### Page maps -/

/-- The entry is for user mode. -/
def forUser (e : BitVec 32) : Bool := decide (e &&& pteU ≠ 0#32)

/-- Of every region whether it has a table, and whether user code may pass there; of every page
    its entry. -/
structure PageMap where
  table : BitVec 32 → Option Bool
  entry : BitVec 32 → BitVec 32

namespace PageMap

/-- Change the entry of a page. -/
def setEntry (M : PageMap) (v x : BitVec 32) : PageMap :=
  { M with entry := Function.update M.entry (palignDown v) x }

/-- Give a region a table, or change who may pass the one it has.  The entries of a new table are
    zero. -/
def setTable (M : PageMap) (v : BitVec 32) (user : Bool) : PageMap where
  table := Function.update M.table (vmPdirIdx v) (some user)
  entry q := if vmPdirIdx q = vmPdirIdx v ∧ M.table (vmPdirIdx v) = none then 0#32 else M.entry q

/-- An entry of a page is in a table that is there already. -/
@[simp] theorem setEntry_table (M : PageMap) (v x : BitVec 32) :
    (M.setEntry v x).table = M.table := rfl

/-- One page gets the entry. -/
theorem setEntry_entry (M : PageMap) (v x q : BitVec 32) :
    (M.setEntry v x).entry q = if q = palignDown v then x else M.entry q :=
  Function.update_apply ..

/-- One region gets the table. -/
theorem setTable_table (M : PageMap) (v : BitVec 32) (user : Bool) (i : BitVec 32) :
    (M.setTable v user).table i = if i = vmPdirIdx v then some user else M.table i :=
  Function.update_apply ..

/-- A new table is empty; a region that had one keeps its pages. -/
theorem setTable_entry (M : PageMap) (v : BitVec 32) (user : Bool) (w : BitVec 32) :
    (M.setTable v user).entry (palignDown w)
      = if vmPdirIdx w = vmPdirIdx v ∧ M.table (vmPdirIdx v) = none then 0#32
        else M.entry (palignDown w) := by
  show (if vmPdirIdx (palignDown w) = vmPdirIdx v ∧ _ then _ else _) = _
  rw [vmPdirIdx_palignDown]

/-- The frame of a page. -/
def walk (M : PageMap) (v : BitVec 32) : Option (BitVec 32) :=
  if (M.table (vmPdirIdx v)).isSome ∧ Present (M.entry (palignDown v)) then
    some (palignDown (M.entry (palignDown v)))
  else none

/-- The frame, for user code. -/
def userWalk (M : PageMap) (v : BitVec 32) : Option (BitVec 32) :=
  if M.table (vmPdirIdx v) = some true ∧ forUser (M.entry (palignDown v)) = true then M.walk v
  else none

/-- The address that an address stands for. -/
def translate (M : PageMap) (v : BitVec 32) : Option (BitVec 32) :=
  (M.walk v).map (· + pageOffset v)

/-- What `vm_get_phys_mapping` answers, if it does. -/
def physMapping (M : PageMap) (v : BitVec 32) : Option (BitVec 32) :=
  if (M.table (vmPdirIdx v)).isSome then
    some ((M.entry (palignDown v) &&& ~~~0x3ff#32) + pageOffset v)
  else none

/-- `map_page`: a table for the region comes from `pm_alloc`, and a page that is mapped in another
    way stops the machine. -/
def map (p v flags : BitVec 32) (s : PageMap × Pm) : Option (PageMap × Pm) :=
  match s.1.table (vmPdirIdx v) with
  | some user =>
    if Present (s.1.entry (palignDown v)) then
      if SameMapping (s.1.entry (palignDown v)) p flags then some s else none
    else some ((s.1.setTable v (user || forUser flags)).setEntry v
      (palignDown p ||| mapFlags flags), s.2)
  | none => some ((s.1.setTable v (forUser flags)).setEntry v (palignDown p ||| mapFlags flags),
      (pmAlloc s.2).2)

/-- Rewrite the entry of a page whose region has a table. -/
def rewrite (v : BitVec 32) (f : BitVec 32 → BitVec 32) (s : PageMap × Pm) :
    Option (PageMap × Pm) :=
  if (s.1.table (vmPdirIdx v)).isSome then
    some (s.1.setEntry v (f (s.1.entry (palignDown v))), s.2)
  else none

end PageMap

/-- A page of a call, on page maps. -/
def PageCall.apply (s : PageMap × Pm) : PageCall → Option (PageMap × Pm)
  | map paddr vaddr flags => PageMap.map paddr vaddr flags s
  | alloc vaddr flags => PageMap.map (pmAlloc s.2).1 vaddr flags (s.1, (pmAlloc s.2).2)
  | unmap vaddr => PageMap.rewrite vaddr (fun _ => 0#32) s
  | attrs vaddr newFlags => PageMap.rewrite vaddr (fun pte => (pte &&& ~~~0x3ff#32) ||| newFlags) s

/-- A call, on page maps: page by page. -/
def VmCall.apply (s : PageMap × Pm) (c : VmCall) : Option (PageMap × Pm) :=
  c.pages.foldlM PageCall.apply s

/-! ### What the tables show -/

/-- The tables in memory show the page map, below the windows. -/
structure Shows (mem : Mem) (cr3 : BitVec 32) (M : PageMap) : Prop where
  table : ∀ w : BitVec 32, w.toNat < 0xffc00000 → M.table (vmPdirIdx w)
    = if Present (pdeOf mem cr3 w) then some (forUser (pdeOf mem cr3 w)) else none
  entry : ∀ w : BitVec 32, w.toNat < 0xffc00000 → Present (pdeOf mem cr3 w) →
    pteOf mem cr3 w = M.entry (palignDown w)

section Shows

variable {mem mem' : Mem} {cr3 v w e x flags : BitVec 32} {M : PageMap}

/-- The flag is a bit of the entry. -/
theorem forUser_iff : forUser e = true ↔ e &&& pteU ≠ 0#32 := decide_eq_true_iff

/-- Flags are added, so what was for user code stays so. -/
theorem forUser_or : forUser (e ||| mapFlags flags) = (forUser e || forUser flags) := by
  have hbits : (e ||| mapFlags flags) &&& pteU = e &&& pteU ||| flags &&& pteU := by
    rw [BitVec.and_or_distrib_right, mapFlags, BitVec.and_or_distrib_right]
    exact congrArg _ BitVec.or_zero
  rw [Bool.eq_iff_iff, Bool.or_eq_true, forUser_iff, forUser_iff, forUser_iff, hbits, ne_eq,
    BitVec.or_eq_zero_iff, not_and_or]

/-- The flags of a frame are its own. -/
theorem forUser_frame (he : e.toNat % 4096 = 0) :
    forUser (e ||| mapFlags flags) = forUser flags := by
  have hzero : e &&& pteU = 0#32 := by
    have h := entry_and (e := 0#32) he (show pteU.toNat < 4096 by decide)
    rwa [BitVec.or_zero, BitVec.zero_and] at h
  rw [forUser_or, forUser, hzero]
  rfl

/-- A region with a directory entry has a table, with its flag, … -/
theorem Shows.table_some (h : Shows mem cr3 M) (hw : w.toNat < 0xffc00000)
    (hp : Present (pdeOf mem cr3 w)) :
    M.table (vmPdirIdx w) = some (forUser (pdeOf mem cr3 w)) := by
  rw [h.table w hw, if_pos hp]

/-- … one without has none, … -/
theorem Shows.table_none (h : Shows mem cr3 M) (hw : w.toNat < 0xffc00000)
    (ha : ¬ Present (pdeOf mem cr3 w)) : M.table (vmPdirIdx w) = none := by
  rw [h.table w hw, if_neg ha]

/-- … and so the two go together. -/
theorem Shows.isSome_iff (h : Shows mem cr3 M) (hw : w.toNat < 0xffc00000) :
    (M.table (vmPdirIdx w)).isSome ↔ Present (pdeOf mem cr3 w) := by
  rw [h.table w hw]
  split <;> simp_all

/-- **What is shown is what the hardware does.** -/
theorem Shows.walk (h : Shows mem cr3 M) (hw : w.toNat < 0xffc00000) :
    walk mem cr3 w = M.walk w := by
  unfold PageMap.walk
  by_cases hp : Present (pdeOf mem cr3 w)
  · have hsome := (h.isSome_iff hw).mpr hp
    by_cases hp' : Present (pteOf mem cr3 w)
    · rw [h.entry w hw hp] at hp'
      rw [if_pos ⟨hsome, hp'⟩, walk_eq_some_iff, h.entry w hw hp]
      exact ⟨hp, hp', rfl⟩
    · rw [walk_eq_none_iff.mpr (Or.inr hp'), if_neg]
      rw [h.entry w hw hp] at hp'
      exact fun hand => hp' hand.2
  · rw [walk_eq_none_iff.mpr (Or.inl hp), if_neg]
    exact fun hand => hp ((h.isSome_iff hw).mp hand.1)

/-- The MMU's translation is that of the map. -/
theorem Shows.translate (h : Shows mem cr3 M) (hw : w.toNat < 0xffc00000) :
    hwTranslate mem cr3 w = M.translate w := by
  rw [hwTranslate, h.walk hw, PageMap.translate]

/-- So it is for user code. -/
theorem Shows.userWalk (h : Shows mem cr3 M) (hw : w.toNat < 0xffc00000) :
    userWalk mem cr3 w = M.userWalk w := by
  unfold Leoman.userWalk PageMap.userWalk
  rw [h.walk hw]
  by_cases hp : Present (pdeOf mem cr3 w)
  · have huser : (M.table (vmPdirIdx w) = some true ∧ forUser (M.entry (palignDown w)) = true) ↔
        ¬ (pdeOf mem cr3 w &&& pteU = 0#32 ∨ pteOf mem cr3 w &&& pteU = 0#32) := by
      rw [h.table_some hw hp, h.entry w hw hp, Option.some_inj, forUser_iff, forUser_iff, not_or]
    by_cases hbits : pdeOf mem cr3 w &&& pteU = 0#32 ∨ pteOf mem cr3 w &&& pteU = 0#32
    · rw [if_pos hbits, if_neg fun hand => huser.mp hand hbits]
    · rw [if_neg hbits, if_pos (huser.mpr hbits)]
  · -- without a table both find nothing
    have hnone : M.walk w = none := by
      rw [← h.walk hw]
      exact walk_eq_none_iff.mpr (Or.inl hp)
    rw [hnone, ite_self, ite_self]

/-! ### Stores -/

/-- A table entry is the one of its page only. -/
theorem pteOf_setPte (hwf : WellFormed mem cr3) (hv : v.toNat < 0xffc00000)
    (hp : Present (pdeOf mem cr3 v)) (hpw : Present (pdeOf mem cr3 w)) :
    pteOf (setPte mem cr3 v x) cr3 w
      = if palignDown w = palignDown v then x else pteOf mem cr3 w := by
  have hd := hwf.table_ne hp ((lt_kernPtabs_iff v).mp hv)
  rw [pteOf, pdeOf, tableEntry_setPte_dir hd (vmPdirIdx_lt w),
    tableEntry_setPte _ _ _ _ (palignDown_aligned _) (vmPtabIdx_lt w)]
  by_cases hwv : palignDown w = palignDown v
  · have hdir : vmPdirIdx w = vmPdirIdx v := by
      rw [← vmPdirIdx_palignDown w, hwv, vmPdirIdx_palignDown]
    have htab : vmPtabIdx w = vmPtabIdx v := by
      rw [← vmPtabIdx_palignDown w, hwv, vmPtabIdx_palignDown]
    rw [if_pos hwv, if_pos ⟨by rw [pdeOf, hdir], htab⟩]
  · rw [if_neg hwv, if_neg]
    · rfl
    · -- the same table would be of the same region
      rintro ⟨hframe, htab⟩
      exact hwv (palignDown_eq_of_idx (hwf.region_eq hpw hp hframe) htab)

/-- **A table entry stored.** -/
theorem Shows.setPte (h : Shows mem cr3 M) (hwf : WellFormed mem cr3) (hv : v.toNat < 0xffc00000)
    (hp : Present (pdeOf mem cr3 v)) : Shows (setPte mem cr3 v x) cr3 (M.setEntry v x) := by
  have hpde : ∀ w, pdeOf (Leoman.setPte mem cr3 v x) cr3 w = pdeOf mem cr3 w := fun w =>
    tableEntry_setPte_dir (hwf.table_ne hp ((lt_kernPtabs_iff v).mp hv)) (vmPdirIdx_lt w)
  refine ⟨fun w hw => ?_, fun w hw hpw => ?_⟩
  · rw [hpde]
    exact h.table w hw
  · rw [hpde] at hpw
    rw [pteOf_setPte hwf hv hp hpw, PageMap.setEntry_entry, h.entry w hw hpw]

/-- **A directory entry and a table entry stored**, into a table in place or a cleared one. -/
theorem Shows.newTable (h : Shows mem cr3 M) (hwf : WellFormed mem cr3) (hv : v.toNat < 0xffc00000)
    (hd : palignDown e ≠ palignDown cr3) (he : Present e)
    (hkept : Present (pdeOf mem cr3 v) → palignDown e = palignDown (pdeOf mem cr3 v))
    (hnew : ¬ Present (pdeOf mem cr3 v) → ¬ InUse mem cr3 (palignDown e) ∧
      ∀ y, palignDown y = palignDown e → mem y = 0#8) :
    Shows (newTable mem cr3 v e x) cr3 ((M.setTable v (forUser e)).setEntry v x) := by
  have hpde : ∀ w, pdeOf (Leoman.newTable mem cr3 v e x) cr3 w
      = if vmPdirIdx w = vmPdirIdx v then e else pdeOf mem cr3 w := pdeOf_newTable hd
  refine ⟨fun w hw => ?_, fun w hw hpw => ?_⟩
  · rw [PageMap.setEntry_table, PageMap.setTable_table, hpde]
    by_cases hi : vmPdirIdx w = vmPdirIdx v
    · rw [if_pos hi, if_pos hi, if_pos he]
    · rw [if_neg hi, if_neg hi]
      exact h.table w hw
  · rw [PageMap.setEntry_entry, PageMap.setTable_entry, pteOf, hpde]
    rw [hpde] at hpw
    by_cases hi : vmPdirIdx w = vmPdirIdx v
    · rw [if_pos hi, tableEntry_newTable (palignDown_aligned _) (vmPtabIdx_lt w)]
      by_cases hj : vmPtabIdx w = vmPtabIdx v
      · rw [if_pos ⟨rfl, hj⟩, if_pos (palignDown_eq_of_idx hi hj)]
      · rw [if_neg fun hand => hj hand.2, if_neg fun hand => hd hand.1,
          if_neg (palignDown_ne_of_ptabIdx hj)]
        -- the other entries of the table
        by_cases hp : Present (pdeOf mem cr3 v)
        · have hsome : ¬ (vmPdirIdx w = vmPdirIdx v ∧ M.table (vmPdirIdx v) = none) := by
            rw [h.table_some hv hp]
            exact fun hand => Option.some_ne_none _ hand.2
          rw [if_neg hsome, ← h.entry w hw (by rwa [pdeOf_congr hi]), pteOf, pdeOf_congr hi,
            hkept hp]
        · rw [if_pos ⟨hi, h.table_none hv hp⟩,
            tableEntry_congr (palignDown_aligned _) (vmPtabIdx_lt w) (hnew hp).2]
          exact tableEntry_zero _ _
    · rw [if_neg hi] at hpw ⊢
      have hother : palignDown (pdeOf mem cr3 w) ≠ palignDown e := by
        intro heq
        by_cases hp : Present (pdeOf mem cr3 v)
        · exact hi (hwf.region_eq hpw hp (heq.trans (hkept hp)))
        · exact (hnew hp).1 ⟨w, hpw, heq⟩
      have hdir := hwf.table_ne hpw ((lt_kernPtabs_iff w).mp hw)
      rw [if_neg (palignDown_ne_of_pdirIdx hi), if_neg fun hand => hi hand.1,
        tableEntry_newTable (palignDown_aligned _) (vmPtabIdx_lt w),
        if_neg fun hand => hother hand.1,
        if_neg fun hand => hdir hand.1, ← h.entry w hw hpw, pteOf]

/-! ### Other memory -/

/-- The tables of one address space. -/
theorem WellFormed.spaces (h : WellFormed mem cr3) : Spaces {F | InUse mem cr3 F} {cr3} mem := by
  refine ⟨?_, ?_, ?_⟩
  · rintro _ rfl
    exact h.recursive
  · rintro _ rfl w hp
    exact ⟨w, hp, rfl⟩
  · rintro _ rfl _ rfl w u hw hu heq
    exact h.region_eq hw hu heq

section Agree

variable (hwf : WellFormed mem cr3) (hm : ∀ x, InUse mem cr3 (palignDown x) → mem' x = mem x)

include hwf hm

/-- Memory that agrees in the tables has the same frames in use, … -/
theorem WellFormed.inUse_agree (F : BitVec 32) : InUse mem' cr3 F ↔ InUse mem cr3 F := by
  have hpde := hwf.spaces.pdeOf_agree hm rfl
  simp only [InUse, hpde]

/-- … is well formed too, … -/
theorem WellFormed.of_agree : WellFormed mem' cr3 := by
  refine ⟨hwf.recursive.of_agree hm, fun i j hi hj => ?_⟩
  have hentry : ∀ i : BitVec 32, i.toNat < 1024 →
      tableEntry mem' (palignDown cr3) i = tableEntry mem (palignDown cr3) i := fun i hi =>
    tableEntry_congr (palignDown_aligned _) hi fun x hx =>
      hm x (hx ▸ inUse_directory hwf.recursive)
  rw [hentry i hi, hentry j hj]
  exact hwf.distinct i j hi hj

/-- … and shows the same map. -/
theorem Shows.of_agree (h : Shows mem cr3 M) : Shows mem' cr3 M := by
  have hpde := hwf.spaces.pdeOf_agree hm rfl
  refine ⟨fun w hw => ?_, fun w hw hp => ?_⟩
  · rw [hpde]
    exact h.table w hw
  · rw [hpde] at hp
    rw [hwf.spaces.pteOf_agree hm rfl hp]
    exact h.entry w hw hp

end Agree

end Shows

/-! ### One page -/

section Page

variable {τ : Type} [Tlb τ] {m m' : Machine (Windowed τ)} {p v flags : BitVec 32} {M M' : PageMap}

/-- The code has completed: its memory shows the page map computed, and was written in tables
    only. -/
structure Edits (mem : Mem) (m' : Machine (Windowed τ)) (M' : PageMap) : Prop where
  shows : Shows m'.mem m'.cr3 M'
  frame : ∀ x, ¬ InUse m'.mem m'.cr3 (palignDown x) → m'.mem x = mem x

/-- The code and the function on page maps stop together, or complete together. -/
def Refines (x : Code Trap (Machine (Windowed τ)) Unit) (m : Machine (Windowed τ))
    (y : Option (PageMap × Pm)) : Prop :=
  (y = none ∧ ∃ e, x m = .error e) ∨
    ∃ m' M', x m = .ok ((), m') ∧ y = some (M', m'.pm) ∧ Edits m.mem m' M'

/-- A frame for a table, if one is needed. -/
def PageCall.Ready (m : Machine (Windowed τ)) : PageCall → Prop
  | map _ v _ => ¬ Present (pdeOf m.mem m.cr3 v) → TableReady m
  | alloc v _ => ¬ Present (pdeOf m.mem m.cr3 v) → TableReady { m with pm := (pmAlloc m.pm).2 }
  | unmap _ => True
  | attrs _ _ => True

omit [Tlb τ] in
/-- The memory after the two stores of `map_page`. -/
theorem newTable_frame {mem : Mem} {cr3 e x y : BitVec 32} (hr : Recursive mem cr3)
    (hv : vmPdirIdx v ≠ 1023#32) (hd : palignDown e ≠ palignDown cr3) (he : Present e)
    (hy : ¬ InUse (newTable mem cr3 v e x) cr3 (palignDown y)) :
    newTable mem cr3 v e x y = mem y := by
  have hself : pdeOf (newTable mem cr3 v e x) cr3 v = e := by rw [pdeOf_newTable hd, if_pos rfl]
  have htable : palignDown y ≠ palignDown e := fun heq =>
    hy ⟨v, by rwa [hself], by rw [hself, heq]⟩
  have hdir : palignDown y ≠ palignDown cr3 := by
    intro heq
    -- the directory is still its own last table
    refine hy ⟨0xffffffff#32, ?_⟩
    have hlast : vmPdirIdx 0xffffffff#32 ≠ vmPdirIdx v := fun h => hv (h.symm.trans (by decide))
    rw [pdeOf_newTable hd, if_neg hlast, heq, pdeOf,
      show vmPdirIdx 0xffffffff#32 = 1023#32 by decide]
    exact hr
  rw [newTable, setPte, pdeOf_setPde_self,
    write_slot_frame (palignDown_aligned _) (vmPtabIdx_lt v) htable, setPde,
    write_slot_frame (palignDown_aligned _) (vmPdirIdx_lt v) hdir]

/-- `ptab[vm_ptab_idx(v)] = x`. -/
theorem store_refines {x : BitVec 32} (hs : Structured m) (hM : Shows m.mem m.cr3 M)
    (hv : v.toNat < 0xffc00000) : Refines (store32 (ptabSlot v) x) m
      (if (M.table (vmPdirIdx v)).isSome then some (M.setEntry v x, m.pm) else none) := by
  by_cases hp : Present (pdeOf m.mem m.cr3 v)
  · obtain ⟨t, hrun, -⟩ := store_ptabSlot hs.coherent hs.wellFormed.recursive hp x
    refine Or.inr ⟨_, _, hrun, if_pos ((hM.isSome_iff hv).mpr hp), hM.setPte hs.wellFormed hv hp,
      ?_⟩
    intro y hy
    have hd := hs.wellFormed.table_ne hp ((lt_kernPtabs_iff v).mp hv)
    refine write_slot_frame (palignDown_aligned _) (vmPtabIdx_lt v) fun heq => hy ⟨v, ?_⟩
    have hpde : pdeOf (setPte m.mem m.cr3 v x) m.cr3 v = pdeOf m.mem m.cr3 v :=
      tableEntry_setPte_dir hd (vmPdirIdx_lt v)
    rw [hpde]
    exact ⟨hp, heq.symm⟩
  · exact Or.inl ⟨if_neg fun h => hp ((hM.isSome_iff hv).mp h), _,
      store32_fault hs.coherent (walk_ptabSlot_absent hs.wellFormed.recursive hp)⟩

/-- `unmap_page`. -/
theorem unmapPage_refines (hs : Structured m) (hM : Shows m.mem m.cr3 M)
    (hv : v.toNat < 0xffc00000) :
    Refines (unmapPage v) m (PageMap.rewrite v (fun _ => 0#32) (M, m.pm)) := by
  rw [unmapPage, ptabSlot_palignDown]
  exact store_refines hs hM hv

/-- `vm_change_page_attrs`. -/
theorem vmChangePageAttrs_refines (hs : Structured m) (hM : Shows m.mem m.cr3 M)
    (hv : v.toNat < 0xffc00000) : Refines (vmChangePageAttrs v flags) m
      (PageMap.rewrite v (fun pte => (pte &&& ~~~0x3ff#32) ||| flags) (M, m.pm)) := by
  rw [vmChangePageAttrs]
  simp only [ptabSlot_palignDown]
  by_cases hp : Present (pdeOf m.mem m.cr3 v)
  · obtain ⟨t, hload, hct, -⟩ := load_ptabSlot hs.coherent hs.wellFormed.recursive hp
    have hstore := store_refines (x := (pteOf m.mem m.cr3 v &&& ~~~0x3ff#32) ||| flags)
      (m := { m with tlb := t }) ⟨hct, hs.wellFormed⟩ hM hv
    rw [Refines, run_bind_of_ok hload, PageMap.rewrite, ← hM.entry v hv hp]
    exact hstore
  · exact Or.inl ⟨if_neg fun h => hp ((hM.isSome_iff hv).mp h), _, run_bind_of_error
      (load32_fault hs.coherent (walk_ptabSlot_absent hs.wellFormed.recursive hp))⟩

/-- **`map_page`.** -/
theorem mapPage_refines (hs : Structured m) (hM : Shows m.mem m.cr3 M) (hv : v.toNat < 0xffc00000)
    (hf : flags.toNat < 0x20) (hready : ¬ Present (pdeOf m.mem m.cr3 v) → TableReady m) :
    Refines (mapPage p v flags) m (PageMap.map p v flags (M, m.pm)) := by
  have hr := hs.wellFormed.recursive
  have hreg := (lt_kernPtabs_iff v).mp hv
  have hf' : flags.toNat < 4096 := by omega
  by_cases hp : Present (pdeOf m.mem m.cr3 v)
  · have htable := hM.table_some hv hp
    by_cases hp' : Present (pteOf m.mem m.cr3 v)
    · -- mapped already
      obtain ⟨t, -, -, hrun⟩ := @mapPage_present _ _ _ hs.coherent hr p v flags hp hp'
      rw [hM.entry v hv hp] at hp' hrun
      have hmap : PageMap.map p v flags (M, m.pm) =
          if SameMapping (M.entry (palignDown v)) p flags then some (M, m.pm) else none := by
        simp only [PageMap.map, htable, if_pos hp']
      rw [hmap]
      by_cases hsame : SameMapping (M.entry (palignDown v)) p flags
      · rw [if_pos hsame] at hrun ⊢
        exact Or.inr ⟨_, _, hrun, rfl, hM, fun _ _ => rfl⟩
      · rw [if_neg hsame] at hrun ⊢
        exact Or.inl ⟨rfl, _, hrun⟩
    · -- into the table in place
      obtain ⟨t, hrun, -, -⟩ := mapPage_absentPage (p := p) hs.coherent hr hf' hp hp'
      have hframe := palignDown_or (e := pdeOf m.mem m.cr3 v) (flags_lt hf')
      have he : Present (pdeOf m.mem m.cr3 v ||| mapFlags flags) :=
        present_or_right (present_flags flags)
      have hd : palignDown (pdeOf m.mem m.cr3 v ||| mapFlags flags) ≠ palignDown m.cr3 := by
        rw [mapFlags, hframe]
        exact hs.wellFormed.table_ne hp hreg
      have hshows := hM.newTable (x := palignDown p ||| mapFlags flags) hs.wellFormed hv hd he
        (fun _ => hframe) fun ha => absurd hp ha
      rw [hM.entry v hv hp] at hp'
      refine Or.inr ⟨_, _, hrun, ?_, hshows, fun y hy => newTable_frame hr hreg hd he hy⟩
      simp only [PageMap.map, htable, if_neg hp', forUser_or]
  · -- into a new table
    obtain ⟨t, hrun, -, -⟩ := @mapPage_absentTable _ _ _ hs.coherent hr p v flags hp
    have hready' := hready hp
    have hframe : palignDown ((pmAlloc m.pm).1 ||| mapFlags flags) = (pmAlloc m.pm).1 :=
      (palignDown_or (flags_lt hf')).trans (palignDown_of_aligned hready'.aligned)
    have he : Present ((pmAlloc m.pm).1 ||| mapFlags flags) :=
      present_or_right (present_flags flags)
    have hd : palignDown ((pmAlloc m.pm).1 ||| mapFlags flags) ≠ palignDown m.cr3 := by
      rw [hframe]
      exact fun heq => hready'.unused (heq ▸ inUse_directory hr)
    have hshows := hM.newTable (x := palignDown p ||| mapFlags flags) hs.wellFormed hv hd he
      (fun h => absurd h hp) fun _ => by
        rw [hframe]
        exact ⟨hready'.unused, hready'.cleared⟩
    refine Or.inr ⟨_, _, hrun, ?_, hshows, fun y hy => newTable_frame hr hreg hd he hy⟩
    simp only [PageMap.map, hM.table_none hv hp, forUser_frame hready'.aligned]

/-- **Simulation square** of a page of a call. -/
theorem PageCall.refines {c : PageCall} (hs : Structured m) (hM : Shows m.mem m.cr3 M)
    (hb : c.Below) (hready : c.Ready m) : Refines c.exec m (c.apply (M, m.pm)) := by
  cases c with
  | map p v f => exact mapPage_refines hs hM hb.1 hb.2 hready
  | alloc v f =>
    exact mapPage_refines (m := { m with pm := (pmAlloc m.pm).2 }) ⟨hs.coherent, hs.wellFormed⟩ hM
      hb.1 hb.2 hready
  | unmap v => exact unmapPage_refines hs hM hb
  | attrs v f => exact vmChangePageAttrs_refines hs hM hb.1

end Page

/-! ### With frames in stock -/

section Stock

variable {τ : Type} [Tlb τ] {m m' : Machine (Windowed τ)} {M M' : PageMap} {n k : Nat}

/-- The tables are in order and show `M`, and the next `n` frames of `pm_alloc` are fit for
    tables. -/
structure Keeping (n : Nat) (m : Machine (Windowed τ)) (M : PageMap) : Prop where
  structured : Structured m
  supply : Supply Set.univ {m.cr3} m.mem n m.pm
  shows : Shows m.mem m.cr3 M

omit [Tlb τ] in
/-- A frame in stock is ready for a table. -/
theorem supply_tableReady {σ : Type} {m : Machine σ} (h : Supply Set.univ {m.cr3} m.mem n m.pm)
    (hn : 0 < n) : TableReady m := by
  have hmem : (pmAlloc m.pm).1 ∈ nextFrames n m.pm := by
    cases n with
    | zero => exact absurd hn (by decide)
    | succ n => exact List.mem_cons_self
  exact ⟨(h.aligned _ hmem).1, h.unused _ hmem _ rfl, h.cleared _ hmem⟩

omit [Tlb τ] in
/-- `n` calls, `n` frames. -/
theorem nextFrames_length (n : Nat) (pm : Pm) : (nextFrames n pm).length = n := by
  induction n generalizing pm with
  | zero => rfl
  | succ n ih => exact congrArg Nat.succ (ih _)

omit [Tlb τ] in
/-- The frames behind the first `k`. -/
theorem nextFrames_split (hk : k ≤ n) (pm : Pm) :
    nextFrames n pm = nextFrames k pm ++ nextFrames (n - k) (pmAfter k pm) := by
  rw [← nextFrames_add, Nat.add_sub_cancel' hk]

omit [Tlb τ] in
/-- What is left of the stock. -/
theorem Supply.rest {K dirs : Set (BitVec 32)} {mem : Mem} {pm : Pm} (h : Supply K dirs mem n pm)
    (hk : k ≤ n) : Supply K dirs mem (n - k) (pmAfter k pm) := by
  have hmem : ∀ F ∈ nextFrames (n - k) (pmAfter k pm), F ∈ nextFrames n pm := fun F hF => by
    rw [nextFrames_split hk]
    exact List.mem_append_right _ hF
  have hnodup := h.nodup
  rw [nextFrames_split hk] at hnodup
  exact ⟨(List.nodup_append'.mp hnodup).2.1, fun F hF => h.aligned F (hmem F hF),
    fun F hF => h.unused F (hmem F hF), fun F hF => h.cleared F (hmem F hF)⟩

omit [Tlb τ] in
/-- A page takes two frames at most. -/
theorem allocs_le_two (c : PageCall) (m : Machine (Windowed τ)) : c.allocs m ≤ 2 := by
  cases c with
  | map p v f =>
    rw [PageCall.allocs]
    split <;> omega
  | alloc v f =>
    rw [PageCall.allocs]
    split <;> omega
  | unmap v => exact Nat.zero_le 2
  | attrs v f => exact Nat.zero_le 2

/-- A call that takes no more than the stock is ready. -/
theorem Keeping.ready (h : Keeping n m M) {c : PageCall} (hn : c.allocs m ≤ n) : c.Ready m := by
  cases c with
  | map p v f =>
    intro ha
    rw [PageCall.allocs, if_neg ha] at hn
    exact supply_tableReady h.supply hn
  | alloc v f =>
    intro ha
    rw [PageCall.allocs, if_neg ha] at hn
    exact supply_tableReady (m := { m with pm := (pmAlloc m.pm).2 })
      (h.supply.rest (k := 1) (by omega)) (Nat.sub_pos_of_lt hn)
  | unmap v => trivial
  | attrs v f => trivial

/-- **Step lemma.**  A page of a call, with frames for it in stock. -/
theorem Keeping.page (h : Keeping n m M) {c : PageCall} (hb : c.Below) (hn : c.allocs m ≤ n) :
    (c.apply (M, m.pm) = none ∧ ∃ e, c.exec m = .error e) ∨
      ∃ m' M', c.exec m = .ok ((), m') ∧ c.apply (M, m.pm) = some (M', m'.pm) ∧
        Keeping (n - c.allocs m) m' M' := by
  rcases PageCall.refines h.structured h.shows hb (h.ready hn) with hno | ⟨m', M', hrun, happ, hed⟩
  · exact Or.inl hno
  · refine Or.inr ⟨m', M', hrun, happ, ?_⟩
    -- the frames taken are not in the directory yet
    have hsub : ∀ F ∈ c.returned m, F ∈ nextFrames n m.pm := fun F hF =>
      (nextFrames_sublist hn m.pm).mem hF
    have hfresh : ∀ F ∈ c.returned m, ¬ InUse m.mem m.cr3 (palignDown F) := fun F hF => by
      rw [palignDown_of_aligned (h.supply.aligned F (hsub F hF)).1]
      exact h.supply.unused F (hsub F hF) _ rfl
    obtain ⟨⟨hdir, hc⟩, hpm⟩ := PageCall.pageStep h.structured hb hfresh hrun
    have hrest := h.supply.rest hn
    have hunused : ∀ F ∈ nextFrames (n - c.allocs m) m'.pm, ¬ InUse m'.mem m'.cr3 F := by
      intro F hF huse
      rw [hpm] at hF
      rcases hdir.inUse huse with hold | hnew
      · exact hrest.unused F hF _ rfl hold
      · obtain ⟨G, hG, rfl⟩ := List.mem_map.mp hnew
        rw [palignDown_of_aligned (h.supply.aligned G (hsub G hG)).1] at hF
        have hnodup := h.supply.nodup
        rw [nextFrames_split hn] at hnodup
        exact (List.nodup_append'.mp hnodup).2.2 hG hF
    refine ⟨⟨hc, hdir.wellFormed h.structured.wellFormed (vmPdirIdx_lt _) hfresh⟩,
      ⟨hpm ▸ hrest.nodup, fun F hF => hrest.aligned F (hpm ▸ hF), ?_, fun F hF x hx => ?_⟩,
        hed.shows⟩
    · rintro F hF _ rfl
      exact hunused F hF
    · rw [hed.frame x (hx ▸ hunused F hF)]
      exact hrest.cleared F (hpm ▸ hF) x hx

/-- **A list of pages** completes exactly when it does on page maps. -/
theorem Keeping.pages (h : Keeping n m M) {cs : List PageCall} (hb : ∀ c ∈ cs, c.Below)
    (hn : 2 * cs.length ≤ n) :
    (∃ m', execPages cs m = .ok ((), m')) ↔ (cs.foldlM PageCall.apply (M, m.pm)).isSome := by
  induction cs generalizing n m M with
  | nil => exact iff_of_true ⟨m, rfl⟩ rfl
  | cons c cs ih =>
    rw [List.length_cons] at hn
    have hc := allocs_le_two c m
    rw [List.foldlM_cons]
    rcases h.page (hb c List.mem_cons_self) (by omega) with
      ⟨hnone, e, herr⟩ | ⟨m', M', hrun, happ, h'⟩
    · rw [hnone]
      refine iff_of_false ?_ (by simp)
      rintro ⟨m'', hm''⟩
      rw [execPages, run_bind_of_error herr] at hm''
      exact absurd hm'' (by simp)
    · rw [happ, execPages, run_bind_of_ok hrun]
      exact ih h' (fun d hd => hb d (List.mem_cons_of_mem _ hd)) (by omega)

end Stock

/-! ### Runs -/

/-- What happens to an address space while it is loaded: a call, a `pm_alloc` for some other
    purpose, anything else. -/
inductive SpaceOp where
  | call (c : VmCall)
  | take
  | work

/-- On page maps. -/
def SpaceOp.apply (s : PageMap × Pm) : SpaceOp → Option (PageMap × Pm)
  | call c => c.apply s
  | take => some (s.1, (pmAlloc s.2).2)
  | work => some s

section Runs

variable {τ : Type} [Tlb τ] {s₀ s s' : Session τ} {M₀ M : PageMap} {n : Nat}

/-- Any other work: the tables, and the frames still in stock of the first `n`, are not written, and
    what the TLB retains of the windows is right. -/
structure Elsewhere (n : Nat) (s s' : Session τ) : Prop where
  cr3 : s'.machine.cr3 = s.machine.cr3
  pm : s'.machine.pm = s.machine.pm
  returned : s'.returned = s.returned
  tables : ∀ x, InUse s.machine.mem s.machine.cr3 (palignDown x) →
    s'.machine.mem x = s.machine.mem x
  stock : ∀ x, palignDown x ∈ nextFrames (n - s.returned.length) s.machine.pm →
    s'.machine.mem x = s.machine.mem x
  windows : ∀ q g, InWindows q → Tlb.lookup s'.machine.tlb q = some g →
    walk s'.machine.mem s'.machine.cr3 q = some g

/-- A step of the system. -/
def SpaceStep (n : Nat) (s : Session τ) : SpaceOp → Session τ → Prop
  | .call c, s' => EditStep s c s'
  | .take, s' => s' = ⟨{ s.machine with pm := (pmAlloc s.machine.pm).2 },
      s.returned ++ [(pmAlloc s.machine.pm).1]⟩
  | .work, s' => Elsewhere n s s'

/-- The session and the page map. -/
def Session.Follows (n : Nat) (s : Session τ) (M : PageMap) : Prop :=
  Keeping (n - s.returned.length) s.machine.windowed M

/-- One page of a call. -/
theorem PageRun.follows {c : PageCall} (h : s.Follows n M) (hstep : PageRun s c s')
    (hn : s'.returned.length ≤ n) : ∃ M', c.apply (M, s.machine.pm) = some (M', s'.machine.pm) ∧
      s'.Follows n M' := by
  obtain ⟨hb, hexec, hret⟩ := hstep
  have hlen : s'.returned.length = s.returned.length + c.allocs s.machine := by
    rw [hret, List.length_append, PageCall.returned, nextFrames_length]
  have hwin := (PageCall.exec_erases c).ok hexec
  rcases Keeping.page h hb (show c.allocs s.machine ≤ _ by omega) with ⟨-, e, herr⟩ | hdone
  · rw [hwin] at herr
    exact absurd herr (by simp)
  · obtain ⟨m', M', hrun, happ, hkeep⟩ := hdone
    obtain rfl : s'.machine.windowed = m' :=
      (Prod.mk.inj (Except.ok.inj (hwin.symm.trans hrun))).2
    refine ⟨M', happ, ?_⟩
    rw [Session.Follows, hlen, ← Nat.sub_sub]
    exact hkeep

/-- A call. -/
theorem EditStep.follows {c : VmCall} (h : s.Follows n M) (hstep : EditStep s c s')
    (hn : s'.returned.length ≤ n) : ∃ M', c.apply (M, s.machine.pm) = some (M', s'.machine.pm) ∧
      s'.Follows n M' := by
  refine hstep.pages.invariant (J := fun cs s' => s'.returned.length ≤ n →
    ∃ M', cs.foldlM PageCall.apply (M, s.machine.pm) = some (M', s'.machine.pm) ∧ s'.Follows n M')
    (fun _ => ⟨M, rfl, h⟩) ?_ hn
  intro cs a d b ih hd hb
  have hmono : a.returned.length ≤ b.returned.length := by
    rw [hd.2.2, List.length_append]
    exact Nat.le_add_right _ _
  obtain ⟨Ma, happ, ha⟩ := ih (hmono.trans hb)
  obtain ⟨Mb, happ', hb'⟩ := hd.follows ha hb
  refine ⟨Mb, ?_, hb'⟩
  rw [List.foldlM_append, happ]
  show [d].foldlM PageCall.apply (Ma, a.machine.pm) = _
  rw [List.foldlM_cons, happ']
  rfl

/-- Other work. -/
theorem Elsewhere.follows (h : s.Follows n M) (hstep : Elsewhere n s s') : s'.Follows n M := by
  obtain ⟨⟨hc, hwf⟩, hsup, hM⟩ := h
  have hcr3 : s'.machine.windowed.cr3 = s.machine.windowed.cr3 := hstep.cr3
  have hpm : s'.machine.windowed.pm = s.machine.windowed.pm := hstep.pm
  have hin := hwf.inUse_agree hstep.tables
  rw [Session.Follows, hstep.returned]
  refine ⟨⟨fun q g hq => ?_, ?_⟩, ?_, ?_⟩
  · have hq' := inWindows_of_lookup hq
    exact hstep.windows q g hq' ((lookup_windowed hq').symm.trans hq)
  · rw [hcr3]
    exact hwf.of_agree hstep.tables
  · rw [hcr3, hpm]
    refine ⟨hsup.nodup, hsup.aligned, ?_, fun F hF x hx => ?_⟩
    · rintro F hF _ rfl huse
      exact hsup.unused F hF _ rfl ((hin F).mp huse)
    · exact (hstep.stock x (hx ▸ hF)).trans (hsup.cleared F hF x hx)
  · rw [hcr3]
    exact hM.of_agree hwf hstep.tables

/-- **Step lemma for runs.** -/
theorem SpaceStep.follows {op : SpaceOp} (h : s.Follows n M) (hstep : SpaceStep n s op s')
    (hn : s'.returned.length ≤ n) : ∃ M', op.apply (M, s.machine.pm) = some (M', s'.machine.pm) ∧
      s'.Follows n M' := by
  cases op with
  | call c => exact EditStep.follows h hstep hn
  | take =>
    obtain rfl := hstep
    refine ⟨M, rfl, ?_⟩
    rw [List.length_append, List.length_singleton] at hn
    rw [Session.Follows, List.length_append, List.length_singleton, ← Nat.sub_sub]
    obtain ⟨⟨hc, hwf⟩, hsup, hM⟩ := h
    exact ⟨⟨hc, hwf⟩, hsup.rest (k := 1) (by omega), hM⟩
  | work => exact ⟨M, congrArg (fun pm => some (M, pm)) hstep.pm.symm, Elsewhere.follows h hstep⟩

/-- The frames taken only grow in number. -/
theorem SpaceStep.length_le {op : SpaceOp} (hstep : SpaceStep n s op s') :
    s.returned.length ≤ s'.returned.length := by
  cases op with
  | call c =>
    rw [hstep.2.2, List.length_append]
    exact Nat.le_add_right _ _
  | take =>
    obtain rfl := hstep
    rw [List.length_append]
    exact Nat.le_add_right _ _
  | work => exact (congrArg List.length hstep.returned).ge

/-- **Run lemma.** -/
theorem run_follows {tr : List SpaceOp} (h : s₀.Follows n M₀) (hrun : Run (SpaceStep n) s₀ tr s)
    (hn : s.returned.length ≤ n) : ∃ M,
      tr.foldlM SpaceOp.apply (M₀, s₀.machine.pm) = some (M, s.machine.pm) ∧ s.Follows n M := by
  refine hrun.invariant (J := fun tr s => s.returned.length ≤ n → ∃ M,
    tr.foldlM SpaceOp.apply (M₀, s₀.machine.pm) = some (M, s.machine.pm) ∧ s.Follows n M)
    (fun _ => ⟨M₀, rfl, h⟩) ?_ hn
  intro tr a op b ih hstep hb
  obtain ⟨Ma, happ, ha⟩ := ih (hstep.length_le.trans hb)
  obtain ⟨Mb, happ', hb'⟩ := hstep.follows ha hb
  refine ⟨Mb, ?_, hb'⟩
  rw [List.foldlM_append, happ]
  show [op].foldlM SpaceOp.apply (Ma, a.machine.pm) = _
  rw [List.foldlM_cons, happ']
  rfl

/-- The calls go through the windows only. -/
theorem execPages_erases (cs : List PageCall) :
    Erases Machine.windowed (execPages (τ := τ) cs) (execPages cs) := by
  induction cs with
  | nil => exact Erases.pure _
  | cons c cs ih => exact (PageCall.exec_erases c).bind fun _ => ih

/-- `vm_get_phys_mapping` reads through the windows only. -/
theorem vmGetPhysMapping_erases (v : BitVec 32) :
    Erases Machine.windowed (vmGetPhysMapping (τ := τ) v) (vmGetPhysMapping v) :=
  (load_ptabSlot_erases _).bind fun _ => Erases.pure _

/-- **`vm_get_phys_mapping`** answers what the page map says, or faults. -/
theorem Session.Follows.physMapping (h : s.Follows n M) {v : BitVec 32} (hv : v.toNat < 0xffc00000)
    (r : BitVec 32) : (∃ m', vmGetPhysMapping v s.machine = .ok (r, m')) ↔
      M.physMapping v = some r := by
  obtain ⟨hs, -, hM⟩ := h
  unfold PageMap.physMapping
  by_cases hp : Present (pdeOf s.machine.mem s.machine.cr3 v)
  · obtain ⟨m', hm'⟩ := vmGetPhysMapping_runs hs hp
    rw [if_pos ((hM.isSome_iff hv).mpr hp), ← hM.entry v hv hp, hm', Option.some_inj]
    constructor
    · rintro ⟨m'', h⟩
      exact (Prod.mk.inj (Except.ok.inj h)).1
    · rintro rfl
      exact ⟨m', rfl⟩
  · rw [if_neg fun h => hp ((hM.isSome_iff hv).mp h)]
    refine iff_of_false ?_ nofun
    rintro ⟨m', hm'⟩
    have hwin := (vmGetPhysMapping_erases v).ok hm'
    rw [vmGetPhysMapping, ptabSlot_palignDown, run_bind_of_error
      (load32_fault hs.coherent (walk_ptabSlot_absent hs.wellFormed.recursive hp))] at hwin
    exact absurd hwin (by simp)

/-- The start: a directory just loaded, and `n` frames in stock. -/
theorem FreshStart.follows (hstart : FreshStart s₀)
    (hsup : Supply Set.univ {s₀.machine.cr3} s₀.machine.mem n s₀.machine.pm)
    (hM : Shows s₀.machine.mem s₀.machine.cr3 M₀) : s₀.Follows n M₀ := by
  refine ⟨⟨fun q g hq => ?_, hstart.wellFormed⟩, ?_, hM⟩
  · have hin := inWindows_of_lookup hq
    exact hstart.windows q g hin ((lookup_windowed hin).symm.trans hq)
  · rw [hstart.returned]
    exact hsup

/-- **An address space is a page map.**  Load a well-formed directory that shows `M₀`, with `n`
    frames in stock that `pm_alloc` returns next, cleared and in nobody's tables.  In every run of
    the six functions below the windows with flags below `0x20`, of other calls of `pm_alloc` and of
    other work outside the tables and the stock, that takes at most `n` frames, the page map follows
    the calls; every address below the windows translates as it says, for the kernel and for user
    code; `vm_get_phys_mapping` answers from it; and the next call completes exactly when it does
    on the page map. -/
theorem page_map_refines {tr : List SpaceOp} (hstart : FreshStart s₀)
    (hsup : Supply Set.univ {s₀.machine.cr3} s₀.machine.mem n s₀.machine.pm)
    (hM : Shows s₀.machine.mem s₀.machine.cr3 M₀) (hrun : Run (SpaceStep n) s₀ tr s)
    (hn : s.returned.length ≤ n) :
    ∃ M, tr.foldlM SpaceOp.apply (M₀, s₀.machine.pm) = some (M, s.machine.pm) ∧
      (∀ v : BitVec 32, v.toNat < 0xffc00000 →
        hwTranslate s.machine.mem s.machine.cr3 v = M.translate v ∧
        userWalk s.machine.mem s.machine.cr3 v = M.userWalk v ∧
        ∀ r, (∃ m', vmGetPhysMapping v s.machine = .ok (r, m')) ↔ M.physMapping v = some r) ∧
      ∀ c : VmCall, (∀ page ∈ c.pages, page.Below) →
        s.returned.length + 2 * c.pages.length ≤ n →
        ((∃ m', c.exec s.machine = .ok ((), m')) ↔ (c.apply (M, s.machine.pm)).isSome) := by
  obtain ⟨M, happ, h⟩ := run_follows (hstart.follows hsup hM) hrun hn
  refine ⟨M, happ, fun v hv => ⟨h.shows.translate hv, h.shows.userWalk hv, h.physMapping hv⟩,
    fun c hb hlen => ?_⟩
  rw [vmCall_exec_eq]
  have hpages := Keeping.pages h hb (by omega)
  refine Iff.trans ⟨?_, ?_⟩ hpages
  · rintro ⟨m', hm'⟩
    exact ⟨_, (execPages_erases c.pages).ok hm'⟩
  · rintro ⟨m', hm'⟩
    obtain ⟨m'', h', -⟩ := (execPages_erases c.pages).exists_ok hm'
    exact ⟨m'', h'⟩

end Runs

/-! ### The blank directory -/

/-- Nothing is mapped. -/
def blankMap : PageMap := ⟨fun _ => none, fun _ => 0#32⟩

/-- The blank directory shows the map without tables. -/
theorem shows_blankSpace : Shows (blankSpace 0x1000#32) 0x1000#32 blankMap := by
  have hnone : ∀ w : BitVec 32, w.toNat < 0xffc00000 →
      ¬ Present (pdeOf (blankSpace 0x1000#32) 0x1000#32 w) := fun w hw =>
    blankSpace_absent (by decide) (palignDown_aligned _) (vmPdirIdx_lt w)
      fun _ => (lt_kernPtabs_iff w).mp hw
  exact ⟨fun w hw => (if_neg (hnone w hw)).symm, fun w hw hp => absurd hp (hnone w hw)⟩

/-- The next three frames of `pm_alloc` are there for tables. -/
theorem supply_blankSpace : Supply Set.univ {0x1000#32} (blankSpace 0x1000#32) 3
    blankSession.machine.pm := by
  have hd : (0x1000#32).toNat % 4096 = 0 := by decide
  have hnext : nextFrames 3 blankSession.machine.pm = [0x2000#32, 0x3000#32, 0x4000#32] := by
    decide +kernel
  have hother : ∀ F ∈ nextFrames 3 blankSession.machine.pm,
      F.toNat % 4096 = 0 ∧ F ≠ 0x1000#32 := by
    intro F hF
    rw [hnext] at hF
    simp only [List.mem_cons, List.not_mem_nil, or_false] at hF
    rcases hF with rfl | rfl | rfl <;> exact ⟨by decide, by decide⟩
  refine ⟨?_, fun F hF => ⟨(hother F hF).1, trivial⟩, ?_, fun F hF x hx => ?_⟩
  · rw [hnext]
    decide
  · rintro F hF _ rfl huse
    exact (hother F hF).2 (blankSpace_inUse hd huse)
  · exact write_slot_frame hd (by decide) fun heq => (hother F hF).2 (hx.symm.trans heq)

/-- Map a page into the blank directory, which takes a frame for the table; take a frame, write to
    it, and map it for user code next to the first page.  The page map then says where the two pages
    are, for the kernel and for user code. -/
theorem page_map_refines_blank : ∃ s : Session Unit,
    Run (SpaceStep 3) blankSession [.call (.mapPage 0x7000#32 0#32 0#32), .take, .work,
      .call (.mapPage 0x3000#32 0x1000#32 pteU)] s ∧
      hwTranslate s.machine.mem s.machine.cr3 0x12#32 = some 0x7012#32 ∧
      userWalk s.machine.mem s.machine.cr3 0x1000#32 = some 0x3000#32 ∧
      hwTranslate s.machine.mem s.machine.cr3 0x2000#32 = none ∧
      (vmGetPhysMapping 0x12#32 s.machine).toOption.isSome := by
  have hstart : FreshStart blankSession :=
    ⟨wellFormed_blankSpace (by decide), fun q g _ h => absurd h (by simp [Tlb.lookup]), rfl⟩
  -- the run as one piece of code, which returns the machine after the first call
  have htest : ((mapPage 0x7000#32 0#32 0#32 >>= fun _ => get >>= fun m₁ =>
      pmAllocPage >>= fun _ =>
      modify (fun m => { m with mem := write32 m.mem 0x3000#32 42#32 }) >>= fun _ =>
      get >>= fun m₃ =>
      mapPage 0x3000#32 0x1000#32 pteU >>= fun _ =>
        (pure (m₁, m₃) : Code Trap (Machine Unit) _)) blankSession.machine).toOption.map (fun r =>
          decide (returnedBy (VmCall.mapPage 0x7000#32 0#32 0#32).pages blankSession.machine
            = [0x2000#32]) &&
          decide (nextFrames 2 r.1.1.pm = [0x3000#32, 0x4000#32]) &&
          decide (returnedBy (VmCall.mapPage 0x3000#32 0x1000#32 pteU).pages r.1.2 = []))
      = some true := by
    decide +kernel
  obtain ⟨⟨m₁, m₃⟩, m₄, h, htests⟩ := ok_of_test htest
  simp only [Bool.and_eq_true, decide_eq_true_eq] at htests
  obtain ⟨⟨hret₁, hnext⟩, hret₄⟩ := htests
  obtain ⟨_, l₁, h₁, h⟩ := bind_get_ok_iff.mp h
  obtain ⟨_, l₂, h₂, h⟩ := bind_ok_iff.mp h
  obtain ⟨-, rfl⟩ := Prod.mk.inj (Except.ok.inj h₂)
  obtain ⟨_, l₃, h₃, h⟩ := bind_get_ok_iff.mp h
  obtain ⟨-, rfl⟩ := Prod.mk.inj (Except.ok.inj h₃)
  obtain ⟨_, l₄, h₄, h⟩ := bind_ok_iff.mp h
  obtain ⟨hmid, rfl⟩ := Prod.mk.inj (Except.ok.inj h)
  obtain ⟨rfl, rfl⟩ := Prod.mk.inj hmid
  obtain ⟨hthird, hfourth⟩ : (pmAlloc l₁.pm).1 = 0x3000#32 ∧
      nextFrames 1 (pmAlloc l₁.pm).2 = [0x4000#32] := List.cons.inj hnext
  -- the first call
  have hstep₁ : SpaceStep 3 blankSession (.call (.mapPage 0x7000#32 0#32 0#32))
      ⟨l₁, [0x2000#32]⟩ := ⟨by decide, h₁, hret₁.symm⟩
  have hrun₁ := Run.start.next hstep₁
  -- the frame that is taken and written is in nobody's tables
  obtain ⟨M₁, -, -, hsup, -⟩ :=
    run_follows (hstart.follows supply_blankSpace shows_blankSpace) hrun₁
      (Nat.le_of_ble_eq_true rfl)
  have hunused : ¬ InUse l₁.mem l₁.cr3 0x3000#32 := by
    refine hsup.unused _ ?_ _ rfl
    show 0x3000#32 ∈ nextFrames 2 l₁.pm
    rw [hnext]
    decide
  have hwrite : ∀ {x : BitVec 32}, palignDown x ≠ 0x3000#32 →
      write32 l₁.mem 0x3000#32 42#32 x = l₁.mem x := fun hx =>
    write_slot_frame (b := 0x3000#32) (i := 0#32) (by decide) (by decide) hx
  have hstep₂ : SpaceStep 3 ⟨l₁, [0x2000#32]⟩ .take
      ⟨{ l₁ with pm := (pmAlloc l₁.pm).2 }, [0x2000#32, 0x3000#32]⟩ := by
    show _ = _
    rw [hthird]
    rfl
  have hstep₃ : SpaceStep 3 ⟨{ l₁ with pm := (pmAlloc l₁.pm).2 }, [0x2000#32, 0x3000#32]⟩ .work
      ⟨{ l₁ with pm := (pmAlloc l₁.pm).2, mem := write32 l₁.mem 0x3000#32 42#32 },
        [0x2000#32, 0x3000#32]⟩ := by
    refine ⟨rfl, rfl, rfl, fun x hx => hwrite ?_, fun x hx => hwrite ?_, fun q g _ h => ?_⟩
    · exact fun heq => hunused (heq ▸ hx)
    · have hx' : palignDown x ∈ nextFrames 1 (pmAlloc l₁.pm).2 := hx
      rw [hfourth, List.mem_singleton] at hx'
      rw [hx']
      decide
    · exact absurd h (by simp [Tlb.lookup])
  have hstep₄ : SpaceStep 3
      ⟨{ l₁ with pm := (pmAlloc l₁.pm).2, mem := write32 l₁.mem 0x3000#32 42#32 },
        [0x2000#32, 0x3000#32]⟩ (.call (.mapPage 0x3000#32 0x1000#32 pteU))
      ⟨l₄, [0x2000#32, 0x3000#32]⟩ := by
    refine ⟨by decide, h₄, ?_⟩
    rw [hret₄]
    rfl
  have hrun := ((hrun₁.next hstep₂).next hstep₃).next hstep₄
  obtain ⟨M, happ, hall, -⟩ := page_map_refines hstart supply_blankSpace shows_blankSpace hrun
    (Nat.le_of_ble_eq_true rfl)
  -- what the calls compute on page maps
  have hmap : ([.call (.mapPage 0x7000#32 0#32 0#32), .take, .work,
      .call (.mapPage 0x3000#32 0x1000#32 pteU)].foldlM SpaceOp.apply
        (blankMap, blankSession.machine.pm)).map (fun r => (r.1.translate 0x12#32,
          r.1.userWalk 0x1000#32, r.1.translate 0x2000#32, r.1.physMapping 0x12#32))
      = some (some 0x7012#32, some 0x3000#32, none, some 0x7012#32) := by
    decide +kernel
  have happ' := congrArg (Option.map fun r : PageMap × Pm => (r.1.translate 0x12#32,
    r.1.userWalk 0x1000#32, r.1.translate 0x2000#32, r.1.physMapping 0x12#32)) happ
  have hvals := Option.some.inj (happ'.symm.trans hmap)
  simp only [Prod.mk.injEq] at hvals
  obtain ⟨htrans, huser, hnone, hphys⟩ := hvals
  refine ⟨_, hrun, ?_, ?_, ?_, ?_⟩
  · exact (hall 0x12#32 (by decide)).1.trans htrans
  · exact (hall 0x1000#32 (by decide)).2.1.trans huser
  · exact (hall 0x2000#32 (by decide)).1.trans hnone
  · obtain ⟨m', h⟩ := ((hall 0x12#32 (by decide)).2.2 0x7012#32).mpr hphys
    rw [h]
    rfl

end Leoman
