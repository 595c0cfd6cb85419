import Leoman.DataCopy
import Leoman.Directory

namespace Leoman

open ByteMem StateExcept

/-!
# New address spaces (`vm_copy_kernel_pdir`)

The new directory is a frame of `pm_alloc` that `map_page` maps at its own address; everything
after that is stores into that one frame, which no walk the code makes goes through.

* `OwnPage F m` — the frame `F` is mapped at its own address, and neither the directory nor a
  table the code or the TLB relies on: stores into it are then ordinary stores
  (`OwnPage.store8`, `OwnPage.store32`);
* `OwnPage.memset`, `OwnPage.copyKernelPdes` — the two loops over the frame;
* `vmCopyKernelPdir_runs` — what the function leaves, once `map_page` has mapped the frame;
* `vmCopyKernelPdir_kernel_only` — the translations through the new directory.
-/

/-- A present directory entry that is not for user mode. -/
def KernelEntry (e : BitVec 32) : Prop := Present e ∧ e &&& pteU = 0#32

instance (e : BitVec 32) : Decidable (KernelEntry e) := inferInstanceAs (Decidable (_ ∧ _))

/-! ### A frame mapped at its own address -/

section OwnPage

variable {τ : Type} [Tlb τ] {m : Machine τ} {F v : BitVec 32}

/-- The frame `F` is mapped at its own address; it is not the directory, nor its own table, nor
    a table of what the TLB retains. -/
structure OwnPage (F : BitVec 32) (m : Machine τ) : Prop where
  aligned : F.toNat % 4096 = 0
  coherent : Coherent m.tlb m.mem m.cr3
  recursive : Recursive m.mem m.cr3
  dir : palignDown m.cr3 ≠ F
  maps : walk m.mem m.cr3 F = some F
  table : palignDown (pdeOf m.mem m.cr3 F) ≠ F
  retained : ∀ q g, Tlb.lookup m.tlb q = some g → palignDown (pdeOf m.mem m.cr3 q) ≠ F

/-- Memory that agrees off `F` has the same directory, … -/
theorem pdeOf_off {mem mem' : Mem} {cr3 : BitVec 32} (hd : palignDown cr3 ≠ F)
    (h : ∀ x, palignDown x ≠ F → mem' x = mem x) (v : BitVec 32) :
    pdeOf mem' cr3 v = pdeOf mem cr3 v :=
  tableEntry_congr (palignDown_aligned _) (vmPdirIdx_lt v) fun x hx => h x (hx ▸ hd)

/-- … and the same walks through other tables. -/
theorem walk_off {mem mem' : Mem} {cr3 : BitVec 32} (hd : palignDown cr3 ≠ F)
    (h : ∀ x, palignDown x ≠ F → mem' x = mem x) (hv : palignDown (pdeOf mem cr3 v) ≠ F) :
    walk mem' cr3 v = walk mem cr3 v := by
  refine walk_eq_of_entries (pdeOf_off hd h v) fun _ => ?_
  rw [pteOf, pdeOf_off hd h v]
  exact tableEntry_congr (palignDown_aligned _) (vmPtabIdx_lt v) fun x hx => h x (hx ▸ hv)

/-- Any stores into the frame. -/
theorem OwnPage.store (ho : OwnPage F m) {mem : Mem} (h : ∀ x, palignDown x ≠ F → mem x = m.mem x) :
    OwnPage F { m with mem := mem } := by
  have hpde := pdeOf_off ho.dir h
  refine ⟨ho.aligned, fun q g hq => ?_, ?_, ho.dir, ?_, ?_, fun q g hq => ?_⟩
  · rw [walk_off ho.dir h (ho.retained q g hq)]
    exact ho.coherent q g hq
  · rw [recursive_iff, hpde]
    exact recursive_iff.mp ho.recursive
  · rw [walk_off ho.dir h ho.table]
    exact ho.maps
  · rw [hpde]
    exact ho.table
  · rw [hpde]
    exact ho.retained q g hq

/-- An access to a page whose table is not `F`. -/
theorem OwnPage.access (ho : OwnPage F m) {t : τ} (hc : Coherent t m.mem m.cr3)
    (hn : OnlyNew (· = palignDown v) m.tlb t) (hv : palignDown (pdeOf m.mem m.cr3 v) ≠ F) :
    OwnPage F { m with tlb := t } := by
  refine ⟨ho.aligned, hc, ho.recursive, ho.dir, ho.maps, ho.table, fun q g hq => ?_⟩
  obtain hold | rfl := hn q g hq
  · exact ho.retained q g hold
  · rwa [pdeOf_congr (vmPdirIdx_palignDown v)]

/-- A byte of the page. -/
theorem palignDown_byte {k : Nat} (hF : F.toNat % 4096 = 0) (hk : k < 4096) :
    palignDown (F + BitVec.ofNat 32 k) = F := by
  apply BitVec.eq_of_toNat_eq
  have := F.isLt
  rw [palignDown_toNat, BitVec.toNat_add, BitVec.toNat_ofNat]
  omega

/-- A slot of the page. -/
theorem palignDown_slot {i : BitVec 32} (hF : F.toNat % 4096 = 0) (hi : i.toNat < 1024) :
    palignDown (F + 4#32 * i) = F ∧ (F + 4#32 * i).toNat % 4 = 0 := by
  have hs := slot_toNat hF hi
  constructor
  · apply BitVec.eq_of_toNat_eq
    rw [palignDown_toNat, hs]
    omega
  · omega

/-- Every address of the page resolves to itself. -/
theorem OwnPage.walk_page (ho : OwnPage F m) (hv : palignDown v = F) :
    walk m.mem m.cr3 v = some F ∧ palignDown (pdeOf m.mem m.cr3 v) ≠ F ∧ F + pageOffset v = v := by
  refine ⟨?_, ?_, ?_⟩
  · rw [← walk_palignDown, hv]
    exact ho.maps
  · rw [← pdeOf_congr (vmPdirIdx_palignDown v), hv]
    exact ho.table
  · rw [← hv, palignDown_add_pageOffset]

/-- A byte stored into the page. -/
theorem OwnPage.store8 (ho : OwnPage F m) (hv : palignDown v = F) (b : BitVec 8) :
    ∃ t, store8 v b m = .ok ((), { m with mem := write8 m.mem v b, tlb := t }) ∧
      OwnPage F { m with mem := write8 m.mem v b, tlb := t } := by
  obtain ⟨hw, ht, hself⟩ := ho.walk_page hv
  obtain ⟨t, hrun, hc, hn⟩ := translate_of_walk ho.coherent hw
  refine ⟨t, ?_, (ho.access hc hn ht).store fun x hx => ?_⟩
  · rw [hself] at hrun
    exact run_bind_of_ok hrun
  · refine Function.update_of_ne ?_ _ _
    rintro rfl
    exact hx hv

/-- An aligned word stored into the page. -/
theorem OwnPage.store32 (ho : OwnPage F m) (hv : palignDown v = F) (h4 : v.toNat % 4 = 0)
    (w : BitVec 32) :
    ∃ t, store32 v w m = .ok ((), { m with mem := write32 m.mem v w, tlb := t }) ∧
      OwnPage F { m with mem := write32 m.mem v w, tlb := t } ∧
      ∀ x, palignDown x ≠ F → write32 m.mem v w x = m.mem x := by
  have hoff : ∀ x, palignDown x ≠ F → write32 m.mem v w x = m.mem x := by
    intro x hx
    refine write32_of_not_inRange fun hin => hx ?_
    -- the four bytes are in the page of the first
    have hx' : x = v + BitVec.ofNat 32 (x - v).toNat := by
      rw [BitVec.ofNat_toNat, BitVec.setWidth_eq]
      ring
    rw [hx', (palignDown_add_byte h4 hin).1, hv]
  obtain ⟨hw, ht, hself⟩ := ho.walk_page hv
  obtain ⟨t, hrun, hc, hn⟩ := store32_of_walk (x := w) ho.coherent h4 hw
  rw [hself] at hrun
  exact ⟨t, hrun, (ho.access hc hn ht).store hoff, hoff⟩

/-- A read of the directory through its window. -/
theorem OwnPage.load_pdirSlot (ho : OwnPage F m) (v : BitVec 32) :
    ∃ t, load32 (pdirSlot v) m = .ok (pdeOf m.mem m.cr3 v, { m with tlb := t }) ∧
      OwnPage F { m with tlb := t } := by
  obtain ⟨t, hrun, hc, hn⟩ :=
    load32_of_walk ho.coherent (pdirSlot_aligned v) (walk_pdirSlot ho.recursive v)
  rw [pageOffset_pdirSlot] at hrun
  refine ⟨t, hrun, ho.access hc hn ?_⟩
  rw [pdeOf, vmPdirIdx_pdirSlot, ho.recursive.2]
  exact ho.dir

/-! ### The two loops -/

/-- `memset` within the page. -/
theorem OwnPage.memset (ho : OwnPage F m) (c : BitVec 8) {n k : Nat} (hk : k + n ≤ 4096) :
    ∃ t, memset (F + BitVec.ofNat 32 k) c n m = .ok ((), { m with
        mem := fun x => if InRange x (F + BitVec.ofNat 32 k) n then c else m.mem x, tlb := t }) ∧
      OwnPage F { m with
        mem := fun x => if InRange x (F + BitVec.ofNat 32 k) n then c else m.mem x, tlb := t } := by
  induction n generalizing m k with
  | zero => exact ⟨m.tlb, by simp [Leoman.memset, InRange], by simpa [InRange] using ho⟩
  | succ n ih =>
    obtain ⟨t₁, hrun₁, ho₁⟩ := ho.store8 (palignDown_byte ho.aligned (show k < 4096 by omega)) c
    obtain ⟨t, hrun, ho'⟩ := ih ho₁ (k := k + 1) (by omega)
    have hnext : F + BitVec.ofNat 32 (k + 1) = F + BitVec.ofNat 32 k + 1#32 := by
      rw [BitVec.add_assoc, BitVec.ofNat_add_ofNat]
    rw [hnext] at hrun ho'
    -- the byte stored first, and the bytes of the rest of the loop
    have hmem : (fun x => if InRange x (F + BitVec.ofNat 32 k + 1#32) n then c
          else write8 m.mem (F + BitVec.ofNat 32 k) c x)
        = fun x => if InRange x (F + BitVec.ofNat 32 k) (n + 1) then c else m.mem x := by
      funext x
      by_cases hx : x = F + BitVec.ofNat 32 k
      · subst hx
        simp [write8, InRange]
      · rw [write8, Function.update_of_ne hx]
        simp only [inRange_succ (show n < 2 ^ 32 by omega), ne_eq, hx, not_false_eq_true, and_true]
    simp only [hmem] at hrun ho'
    exact ⟨t, (run_bind_of_ok hrun₁).trans hrun, ho'⟩

/-- Memory with the frame `F` cleared. -/
def clearPage (mem : Mem) (F : BitVec 32) : Mem := fun x => if palignDown x = F then 0#8 else mem x

theorem tableEntry_clearPage {mem : Mem} {j : BitVec 32} (hF : F.toNat % 4096 = 0)
    (hj : j.toNat < 1024) : tableEntry (clearPage mem F) F j = 0#32 :=
  (tableEntry_congr hF hj fun _ hx => if_pos hx).trans (tableEntry_zero F j)

/-- `memset` of the whole page. -/
theorem OwnPage.clear (ho : OwnPage F m) :
    ∃ t, Leoman.memset F 0#8 4096 m = .ok ((), { m with mem := clearPage m.mem F, tlb := t }) ∧
      OwnPage F { m with mem := clearPage m.mem F, tlb := t } := by
  obtain ⟨t, hrun, ho'⟩ := ho.memset 0#8 (n := 4096) (k := 0) (by omega)
  have hmem : (fun x => if InRange x F 4096 then 0#8 else m.mem x) = clearPage m.mem F := by
    funext x
    have hiff : InRange x F 4096 ↔ palignDown x = F := by
      have := ho.aligned
      have := F.isLt
      rw [inRange_iff (by omega), ← BitVec.toNat_inj, palignDown_toNat]
      omega
    simp only [clearPage, hiff]
  rw [BitVec.add_zero] at hrun ho'
  rw [hmem] at hrun ho'
  exact ⟨t, hrun, ho'⟩

/-- The directory is off the frame. -/
theorem OwnPage.dirEntry_off (ho : OwnPage F m) {mem : Mem} {t : τ} {j : BitVec 32}
    (hj : j.toNat < 1024) (h : ∀ x, palignDown x ≠ F → mem x = m.mem x) :
    dirEntry { m with mem := mem, tlb := t } j = dirEntry m j :=
  tableEntry_congr (palignDown_aligned m.cr3) hj fun x hx => h x (hx ▸ ho.dir)

/-- The entry the loop leaves in slot `j`, from slot `i` on. -/
def copiedPde (m : Machine τ) (F : BitVec 32) (i j : BitVec 32) : BitVec 32 :=
  if i.toNat ≤ j.toNat ∧ KernelEntry (dirEntry m j) then dirEntry m j else tableEntry m.mem F j

/-- One round of the loop: the slot is copied, or left alone. -/
theorem OwnPage.copyPde (ho : OwnPage F m) {n : Nat} {i : BitVec 32} (hi : i.toNat < 1024) :
    ∃ mem t, OwnPage F { m with mem := mem, tlb := t } ∧
      Leoman.copyKernelPdes F (n + 1) i m
        = Leoman.copyKernelPdes F n (i + 1#32) { m with mem := mem, tlb := t } ∧
      (∀ x, palignDown x ≠ F → mem x = m.mem x) ∧ ∀ j : BitVec 32, j.toNat < 1024 →
        tableEntry mem F j = if j = i then copiedPde m F i i else tableEntry m.mem F j := by
  obtain ⟨w, rfl, -⟩ := exists_idx hi (show (0#32).toNat < 1024 by decide)
  have hslot : kernPdirAddr + 4#32 * vmPdirIdx w = pdirSlot w := rfl
  obtain ⟨t₁, h₁, ho₁⟩ := ho.load_pdirSlot w
  obtain ⟨t₂, h₂, ho₂⟩ := ho₁.load_pdirSlot w
  obtain ⟨t₃, h₃, ho₃⟩ := ho₂.load_pdirSlot w
  have hentry : dirEntry m (vmPdirIdx w) = pdeOf m.mem m.cr3 w := rfl
  -- without a copy the frame is as it was
  have hkeep : ¬ KernelEntry (pdeOf m.mem m.cr3 w) → ∀ j : BitVec 32, tableEntry m.mem F j
      = if j = vmPdirIdx w then copiedPde m F (vmPdirIdx w) (vmPdirIdx w)
        else tableEntry m.mem F j := by
    intro hk j
    have hsame : copiedPde m F (vmPdirIdx w) (vmPdirIdx w) = tableEntry m.mem F (vmPdirIdx w) :=
      if_neg fun h => hk h.2
    rw [hsame]
    split
    · rename_i h
      rw [h]
    · rfl
  simp only [Leoman.copyKernelPdes, hslot]
  by_cases hp : Present (pdeOf m.mem m.cr3 w)
  · by_cases hu : pdeOf m.mem m.cr3 w &&& pteU = 0#32
    · obtain ⟨hpage, h4⟩ := palignDown_slot ho.aligned hi
      obtain ⟨t₄, h₄, ho₄, hoff⟩ := ho₃.store32 hpage h4 (pdeOf m.mem m.cr3 w)
      refine ⟨write32 m.mem (F + 4#32 * vmPdirIdx w) (pdeOf m.mem m.cr3 w), t₄, ho₄, ?_, hoff, ?_⟩
      · refine (run_bind_of_ok h₁).trans (run_bind_of_ok (a := ()) ?_)
        rw [onlyIf, if_pos (show _ &&& pteP ≠ 0#32 from hp), run_bind_of_ok h₂, onlyIf, if_pos hu,
          run_bind_of_ok h₃]
        exact h₄
      · intro j hj
        rw [tableEntry_write ho.aligned hi _ _ ho.aligned hj]
        simp only [true_and]
        split
        · exact (if_pos ⟨Nat.le_refl _, hp, hu⟩).symm
        · rfl
    · refine ⟨m.mem, t₂, ho₂, ?_, fun _ _ => rfl, fun j _ => hkeep (fun h => hu h.2) j⟩
      refine (run_bind_of_ok h₁).trans (run_bind_of_ok (a := ()) ?_)
      rw [onlyIf, if_pos (show _ &&& pteP ≠ 0#32 from hp), run_bind_of_ok h₂, onlyIf, if_neg hu]
      rfl
  · refine ⟨m.mem, t₁, ho₁, ?_, fun _ _ => rfl, fun j _ => hkeep (fun h => hp h.1) j⟩
    refine (run_bind_of_ok h₁).trans (run_bind_of_ok (a := ()) ?_)
    rw [onlyIf, if_neg (show ¬ (_ &&& pteP ≠ 0#32) from hp)]
    rfl

/-- **The copy loop**, from slot `i` on. -/
theorem OwnPage.copyKernelPdes (ho : OwnPage F m) {n : Nat} {i : BitVec 32}
    (hi : i.toNat + n = 1024) :
    ∃ mem t, copyKernelPdes F n i m = .ok ((), { m with mem := mem, tlb := t }) ∧
      OwnPage F { m with mem := mem, tlb := t } ∧ (∀ x, palignDown x ≠ F → mem x = m.mem x) ∧
      ∀ j : BitVec 32, j.toNat < 1024 → tableEntry mem F j = copiedPde m F i j := by
  induction n generalizing m i with
  | zero =>
    refine ⟨m.mem, m.tlb, rfl, ho, fun _ _ => rfl, fun j hj => ?_⟩
    rw [copiedPde, if_neg]
    rintro ⟨hij, -⟩
    omega
  | succ n ih =>
    have hi' : i.toNat < 1024 := by omega
    have hnext : (i + 1#32).toNat = i.toNat + 1 := by
      rw [BitVec.toNat_add, BitVec.toNat_ofNat]
      omega
    obtain ⟨mem₁, t₁, ho₁, hrun₁, hoff₁, hent₁⟩ := ho.copyPde (n := n) hi'
    obtain ⟨mem, t, hrun, ho', hoff, hent⟩ := ih ho₁ (i := i + 1#32) (by omega)
    refine ⟨mem, t, hrun₁.trans hrun, ho', fun x hx => (hoff x hx).trans (hoff₁ x hx), ?_⟩
    intro j hj
    rw [hent j hj, copiedPde, ho.dirEntry_off hj hoff₁, hent₁ j hj, hnext]
    by_cases hji : j = i
    · subst hji
      rw [if_neg (fun h => absurd h.1 (by omega)), if_pos rfl]
    · have hne : j.toNat ≠ i.toNat := fun h => hji (BitVec.eq_of_toNat_eq h)
      rw [if_neg hji, copiedPde]
      have hiff : i.toNat + 1 ≤ j.toNat ↔ i.toNat ≤ j.toNat := by omega
      simp only [hiff]

/-- The entry of the new directory in slot `j`. -/
def newPde (m : Machine τ) (F j : BitVec 32) : BitVec 32 :=
  if j = 1023#32 then F ||| pteP ||| pteW
  else if KernelEntry (dirEntry m j) then dirEntry m j else 0#32

/-- **After `map_page`** nothing stops `vm_copy_kernel_pdir`, and the frame is the directory it is
    meant to be. -/
theorem vmCopyKernelPdir_runs {m₁ : Machine τ} (halloc : (pmAlloc m.pm).1 = F) (hF : F ≠ 0#32)
    (hmap : mapPage F F 0#32 { m with pm := (pmAlloc m.pm).2 } = .ok ((), m₁))
    (ho : OwnPage F m₁) :
    ∃ mem t, vmCopyKernelPdir m = .ok (F, { m₁ with mem := mem, tlb := t }) ∧
      OwnPage F { m₁ with mem := mem, tlb := t } ∧
      (∀ x, palignDown x ≠ F → mem x = m₁.mem x) ∧
      ∀ j : BitVec 32, j.toNat < 1024 → tableEntry mem F j = newPde m₁ F j := by
  obtain ⟨t₂, h₂, ho₂⟩ := ho.clear
  obtain ⟨mem₃, t₃, h₃, ho₃, hoff₃, hent₃⟩ := ho₂.copyKernelPdes (n := 1024) (i := 0#32) rfl
  obtain ⟨hpage, h4⟩ := palignDown_slot ho.aligned (show (1023#32).toNat < 1024 by decide)
  obtain ⟨t₄, h₄, ho₄, hoff₄⟩ := ho₃.store32 hpage h4 (F ||| pteP ||| pteW)
  have hoff : ∀ x, palignDown x ≠ F → clearPage m₁.mem F x = m₁.mem x := fun x hx => if_neg hx
  refine ⟨write32 mem₃ (F + 4#32 * 1023#32) (F ||| pteP ||| pteW), t₄, ?_, ho₄, ?_, ?_⟩
  · have hone : pmAllocPage m = .ok (F, { m with pm := (pmAlloc m.pm).2 }) := by
      rw [pmAllocPage, halloc]
    rw [vmCopyKernelPdir, run_bind_of_ok hone, if_neg hF, run_bind_of_ok hmap, run_bind_of_ok h₂,
      run_bind_of_ok h₃, run_bind_of_ok h₄]
    rfl
  · intro x hx
    exact (hoff₄ x hx).trans ((hoff₃ x hx).trans (hoff x hx))
  · intro j hj
    rw [tableEntry_write ho.aligned (by decide) _ _ ho.aligned hj, newPde]
    simp only [true_and]
    split
    · rfl
    · rw [hent₃ j hj, copiedPde, ho.dirEntry_off hj hoff, tableEntry_clearPage ho.aligned hj]
      simp

/-! ### The translations through the new directory -/

/-- The address space `d` holds the kernel part of `cr3`, and nothing else. -/
structure KernelOnly (mem : Mem) (cr3 d : BitVec 32) : Prop where
  kernel : ∀ w : BitVec 32, w.toNat < 0xffc00000 → KernelEntry (pdeOf mem cr3 w) →
    hwTranslate mem d w = hwTranslate mem cr3 w
  nothingElse : ∀ w : BitVec 32, w.toNat < 0xffc00000 → ¬ KernelEntry (pdeOf mem cr3 w) →
    hwTranslate mem d w = none
  noUser : ∀ w, userWalk mem d w = none
  self : hwTranslate mem d 0xfffff000#32 = some d

omit [Tlb τ] in
/-- The entries say so. -/
theorem kernelOnly_of_entries {m : Machine τ} (hF : F.toNat % 4096 = 0)
    (h : ∀ j : BitVec 32, j.toNat < 1024 → tableEntry m.mem F j = newPde m F j) :
    KernelOnly m.mem m.cr3 F := by
  have hpde : ∀ w, pdeOf m.mem F w = newPde m F (vmPdirIdx w) := by
    intro w
    rw [pdeOf, palignDown_of_aligned hF]
    exact h _ (vmPdirIdx_lt w)
  have hlow : ∀ w : BitVec 32, w.toNat < 0xffc00000 → pdeOf m.mem F w
      = if KernelEntry (pdeOf m.mem m.cr3 w) then pdeOf m.mem m.cr3 w else 0#32 := by
    intro w hw
    rw [hpde, newPde, if_neg ((lt_kernPtabs_iff w).mp hw)]
    rfl
  have hlast : palignDown (F ||| pteP ||| pteW) = F := by
    rw [BitVec.or_assoc, palignDown_or (by decide), palignDown_of_aligned hF]
  have hpres : Present (F ||| pteP ||| pteW) := by
    rw [BitVec.or_assoc]
    exact present_or_right (by decide)
  refine ⟨fun w hw hk => ?_, fun w hw hk => ?_, fun w => ?_, ?_⟩
  · -- the same table
    have hsame : pdeOf m.mem F w = pdeOf m.mem m.cr3 w := by rw [hlow w hw, if_pos hk]
    rw [pdeOf, pdeOf] at hsame
    rw [hwTranslate, hwTranslate, walk, walk, hsame]
  · have hnone : pdeOf m.mem F w = 0#32 := by rw [hlow w hw, if_neg hk]
    rw [hwTranslate, walk_eq_none_iff.mpr (Or.inl (hnone ▸ not_present_zero))]
    rfl
  · have hu : pdeOf m.mem F w &&& pteU = 0#32 := by
      rw [hpde, newPde]
      split
      · rw [BitVec.or_assoc, entry_and hF (by decide)]
        rfl
      · split
        · rename_i hk
          exact hk.2
        · rfl
    rw [userWalk, if_pos (Or.inl hu)]
  · have hself : pdeOf m.mem F 0xfffff000#32 = F ||| pteP ||| pteW := by
      rw [hpde, show vmPdirIdx 0xfffff000#32 = 1023#32 by decide, newPde, if_pos rfl]
    have hpte : pteOf m.mem F 0xfffff000#32 = F ||| pteP ||| pteW := by
      rw [pteOf, hself, hlast, show vmPtabIdx 0xfffff000#32 = 1023#32 by decide,
        h _ (by decide), newPde, if_pos rfl]
    have hwalk : walk m.mem F 0xfffff000#32 = some F := by
      rw [walk_eq_some_iff, hself, hpte]
      exact ⟨hpres, hpres, hlast⟩
    rw [hwTranslate, hwalk]
    simp [pageOffset]

/-! ### Mapping the frame -/

/-- The two stores of `map_page`: the page is mapped. -/
theorem walk_newTable_self (mem : Mem) {cr3 e x : BitVec 32} (he : Present e) (hx : Present x)
    (hne : palignDown e = palignDown cr3 → vmPtabIdx v ≠ vmPdirIdx v) :
    pdeOf (newTable mem cr3 v e x) cr3 v = e ∧
      walk (newTable mem cr3 v e x) cr3 v = some (palignDown x) := by
  have hpde : pdeOf (newTable mem cr3 v e x) cr3 v = e := by
    rw [pdeOf, tableEntry_newTable (palignDown_aligned _) (vmPdirIdx_lt v), if_neg,
      if_pos ⟨rfl, rfl⟩]
    rintro ⟨hd, hi⟩
    exact hne hd.symm hi.symm
  have hpte : pteOf (newTable mem cr3 v e x) cr3 v = x := by
    rw [pteOf, hpde, tableEntry_newTable (palignDown_aligned _) (vmPtabIdx_lt v), if_pos ⟨rfl, rfl⟩]
  refine ⟨hpde, ?_⟩
  rw [walk_eq_some_iff, hpde, hpte]
  exact ⟨he, hx, rfl⟩

/-- A directory entry in place keeps its frame, when `e` does and `x` goes to an absent entry. -/
theorem kept_newTable {mem : Mem} {cr3 e x : BitVec 32}
    (he : Present (pdeOf mem cr3 v) → Present e ∧ palignDown e = palignDown (pdeOf mem cr3 v))
    (hx : palignDown e = palignDown cr3 → ¬ Present (tableEntry mem (palignDown cr3) (vmPtabIdx v)))
    {w : BitVec 32} (hw : Present (pdeOf mem cr3 w)) :
    Present (pdeOf (newTable mem cr3 v e x) cr3 w) ∧
      palignDown (pdeOf (newTable mem cr3 v e x) cr3 w) = palignDown (pdeOf mem cr3 w) := by
  rw [pdeOf, tableEntry_newTable (palignDown_aligned _) (vmPdirIdx_lt w)]
  split
  · rename_i h
    rw [pdeOf, h.2] at hw
    exact absurd hw (hx h.1.symm)
  · split
    · rename_i h
      rw [pdeOf_congr h.2] at hw ⊢
      exact he hw
    · exact ⟨hw, rfl⟩

/-- `F` is no table in use, and the directory entries in place keep their frames. -/
theorem OwnPage.of_kept {m' : Machine τ} (hF : F.toNat % 4096 = 0)
    (hc : Coherent m.tlb m.mem m.cr3) (hr : Recursive m.mem m.cr3)
    (hfresh : ¬ InUse m.mem m.cr3 F) (hcr3 : m'.cr3 = m.cr3)
    (hc' : Coherent m'.tlb m'.mem m'.cr3) (hn : OnlyNew InWindows m.tlb m'.tlb)
    (hkept : ∀ w, Present (pdeOf m.mem m.cr3 w) → Present (pdeOf m'.mem m'.cr3 w) ∧
      palignDown (pdeOf m'.mem m'.cr3 w) = palignDown (pdeOf m.mem m.cr3 w))
    (hmaps : walk m'.mem m'.cr3 F = some F)
    (htable : palignDown (pdeOf m'.mem m'.cr3 F) ≠ F) : OwnPage F m' := by
  have hold : ∀ w, Present (pdeOf m.mem m.cr3 w) → palignDown (pdeOf m'.mem m'.cr3 w) ≠ F := by
    intro w hw heq
    exact hfresh ⟨w, hw, (hkept w hw).2.symm.trans heq⟩
  obtain ⟨hp, hf⟩ := recursive_iff.mp hr
  obtain ⟨hp', hf'⟩ := hkept _ hp
  refine ⟨hF, hc', recursive_iff.mpr ⟨hp', ?_⟩, ?_, hmaps, htable, fun q g hq => hold q ?_⟩
  · rw [hf', hf, hcr3]
  · rw [hcr3, ← hf, ← hf']
    exact hold _ hp
  · obtain hin | hin := hn q g hq
    · exact (walk_eq_some_iff.mp (hc q g hin)).1
    · -- the windows are there
      rw [pdeOf_congr (show vmPdirIdx q = vmPdirIdx 0xffffffff#32 from hin)]
      exact hp

/-- **`map_page` of a fresh frame at its own address.** -/
theorem OwnPage.of_mapPage {m' : Machine τ} {flags : BitVec 32} (hF : F.toNat % 4096 = 0)
    (hc : Coherent m.tlb m.mem m.cr3) (hr : Recursive m.mem m.cr3)
    (hfresh : ¬ InUse m.mem m.cr3 F)
    (htable : ¬ Present (pdeOf m.mem m.cr3 F) → palignDown (pmAlloc m.pm).1 ≠ F ∧
      ¬ InUse m.mem m.cr3 (palignDown (pmAlloc m.pm).1))
    (hf : flags.toNat < 4096) (hrun : mapPage F F flags m = .ok ((), m')) :
    OwnPage F m' ∧ m'.cr3 = m.cr3 := by
  have hx : Present (palignDown F ||| mapFlags flags) := present_or_right (present_flags flags)
  have hxF : palignDown (palignDown F ||| mapFlags flags) = F := by
    rw [mapFlags, palignDown_or (flags_lt hf), palignDown_palignDown, palignDown_of_aligned hF]
  by_cases hp : Present (pdeOf m.mem m.cr3 F)
  · have hother : palignDown (pdeOf m.mem m.cr3 F) ≠ F := fun h => hfresh ⟨F, hp, h⟩
    by_cases hp' : Present (pteOf m.mem m.cr3 F)
    · -- mapped already
      obtain ⟨t, hct, hn, hif⟩ := @mapPage_present _ _ _ hc hr F F flags hp hp'
      rw [hif] at hrun
      split at hrun
      · rename_i hsame
        obtain ⟨-, rfl⟩ := Prod.mk.inj (Except.ok.inj hrun)
        have hto : palignDown (pteOf m.mem m.cr3 F) = F :=
          hsame.1.trans ((palignDown_palignDown F).trans (palignDown_of_aligned hF))
        exact ⟨.of_kept hF hc hr hfresh rfl hct hn (fun w hw => ⟨hw, rfl⟩)
          (walk_eq_some_iff.mpr ⟨hp, hp', hto⟩) hother, rfl⟩
      · exact absurd hrun (by simp)
    · -- into the table there is
      obtain ⟨t, hrun', hct, hn⟩ := mapPage_absentPage (p := F) hc hr hf hp hp'
      obtain rfl := (Prod.mk.inj (Except.ok.inj (hrun.symm.trans hrun'))).2
      have hframe : palignDown (pdeOf m.mem m.cr3 F ||| mapFlags flags)
          = palignDown (pdeOf m.mem m.cr3 F) := palignDown_or (flags_lt hf)
      have he : Present (pdeOf m.mem m.cr3 F ||| mapFlags flags) :=
        present_or_right (present_flags flags)
      -- when the directory is the table, the two entries are different
      have hne :
          palignDown (pdeOf m.mem m.cr3 F) = palignDown m.cr3 → vmPtabIdx F ≠ vmPdirIdx F := by
        intro h hi
        rw [pteOf, h, hi] at hp'
        exact hp' hp
      obtain ⟨hself, hmaps⟩ := walk_newTable_self (v := F) m.mem he hx (hframe ▸ hne)
      refine ⟨.of_kept hF hc hr hfresh rfl (hct.mono fun w f => ?_) hn (fun w hw => ?_)
        (hmaps.trans (congrArg some hxF)) ?_, rfl⟩
      · -- the entry filled was absent
        refine walk_write_absent (palignDown_aligned _) (vmPtabIdx_lt F) ?_
        rw [pdeOf_setPde_self, hframe,
          tableEntry_setPde _ _ _ _ (palignDown_aligned _) (vmPtabIdx_lt F),
          if_neg fun h => hne h.1 h.2]
        exact hp'
      · refine kept_newTable (fun _ => ⟨he, hframe⟩) (fun h => ?_) hw
        rw [hframe] at h
        rwa [pteOf, h] at hp'
      · exact fun h => hother ((hframe.symm.trans (congrArg palignDown hself.symm)).trans h)
  · -- into a new table
    obtain ⟨hT, hTfresh⟩ := htable hp
    obtain ⟨t, hrun', hct, hn⟩ := @mapPage_absentTable _ _ _ hc hr F F flags hp
    obtain rfl := (Prod.mk.inj (Except.ok.inj (hrun.symm.trans hrun'))).2
    have hframe : palignDown ((pmAlloc m.pm).1 ||| mapFlags flags) = palignDown (pmAlloc m.pm).1 :=
      palignDown_or (flags_lt hf)
    have hdir : palignDown (pmAlloc m.pm).1 ≠ palignDown m.cr3 := fun h =>
      hTfresh (h ▸ inUse_directory hr)
    have he : Present ((pmAlloc m.pm).1 ||| mapFlags flags) :=
      present_or_right (present_flags flags)
    obtain ⟨hself, hmaps⟩ := walk_newTable_self (v := F) m.mem he hx
      fun h : _ = palignDown m.cr3 => absurd (hframe.symm.trans h) hdir
    refine ⟨.of_kept hF hc hr hfresh rfl (fun q g hq => ?_) hn (fun w hw => ?_)
      (hmaps.trans (congrArg some hxF)) ?_, rfl⟩
    · -- what is retained goes through the tables there were
      have hw := hct q g hq
      have hpq : Present (pdeOf m.mem m.cr3 q) := by
        obtain hold | hin := hn q g hq
        · exact (walk_eq_some_iff.mp (hc q g hold)).1
        · rw [pdeOf_congr (show vmPdirIdx q = vmPdirIdx 0xffffffff#32 from hin)]
          exact (recursive_iff.mp hr).1
      have hq' : pdeOf (setPde m.mem m.cr3 F ((pmAlloc m.pm).1 ||| mapFlags flags)) m.cr3 q
          = pdeOf m.mem m.cr3 q := by
        rw [pdeOf_setPde, if_neg]
        intro hi
        rw [pdeOf_congr hi] at hpq
        exact hp hpq
      rw [← hw]
      refine walk_setPte ?_ fun _ heq => ?_
      · rw [pdeOf_setPde_self, hframe]
        exact hdir
      · rw [hq', pdeOf_setPde_self, hframe] at heq
        exact absurd ⟨q, hpq, heq⟩ hTfresh
    · refine kept_newTable (fun h => absurd h hp) (fun h => ?_) hw
      exact absurd (hframe.symm.trans h) hdir
    · exact fun h => hT ((hframe.symm.trans (congrArg palignDown hself.symm)).trans h)

/-- Pages of an aligned pool are aligned. -/
theorem pmAlloc_aligned {s : Pm} (hpool : s.pool.toNat % 4096 = 0) :
    (pmAlloc s).1.toNat % 4096 = 0 := by
  obtain ⟨he, -⟩ | ⟨k, s', -, he⟩ := pmAlloc_cases s
  · rw [he]
    rfl
  · rw [he, pageAddr_toNat]
    omega

theorem pmAlloc_pool (s : Pm) : (pmAlloc s).2.pool = s.pool := by
  obtain ⟨he, -⟩ | ⟨k, s', ht, he⟩ := pmAlloc_cases s
  · rw [he]
  · rw [he]
    exact ht.pool

/-- `pm_alloc` does not return a page twice. -/
theorem pmAlloc_again {s : Pm} (hne : (pmAlloc s).1 ≠ 0#32) :
    (pmAlloc (pmAlloc s).2).1 ≠ (pmAlloc s).1 := by
  obtain ⟨he, -⟩ | ⟨k, s', ht, he⟩ := pmAlloc_cases s
  · rw [he] at hne
    exact absurd rfl hne
  · rw [he] at hne ⊢
    obtain ⟨he', -⟩ | ⟨k', s'', ht', he'⟩ := pmAlloc_cases s'
    · rw [he']
      exact hne.symm
    · rw [he', Pm.pageAddr, ht.pool]
      intro heq
      have := ht.bound
      have := ht'.bound
      obtain rfl : k' = k := pageAddr_inj (by omega) (by omega) heq
      -- the page is used now
      exact ht'.free k' (by omega) (by omega) ((ht.used k').mpr (Or.inr ⟨by omega, by omega⟩))

/-- The frames `vm_copy_kernel_pdir` asks for, `d` and perhaps one for the table of `d`, are not
    in use. -/
structure FreshFrames (m : Machine τ) (d : BitVec 32) : Prop where
  pool : m.pm.pool.toNat % 4096 = 0
  directory : ¬ InUse m.mem m.cr3 d
  table : ¬ Present (pdeOf m.mem m.cr3 d) →
    ¬ InUse m.mem m.cr3 (palignDown (pmAlloc (pmAlloc m.pm).2).1)

/-- With such frames `map_page` leaves the new directory to itself. -/
theorem FreshFrames.ownPage {m₁ : Machine τ} (hfresh : FreshFrames m F)
    (hc : Coherent m.tlb m.mem m.cr3) (hr : Recursive m.mem m.cr3)
    (hF : (pmAlloc m.pm).1 = F) (hne : F ≠ 0#32)
    (hmap : mapPage F F 0#32 { m with pm := (pmAlloc m.pm).2 } = .ok ((), m₁)) :
    OwnPage F m₁ ∧ m₁.cr3 = m.cr3 := by
  have haligned : F.toNat % 4096 = 0 := hF ▸ pmAlloc_aligned hfresh.pool
  refine OwnPage.of_mapPage (m := { m with pm := (pmAlloc m.pm).2 }) haligned hc hr
    hfresh.directory (fun hp => ⟨?_, hfresh.table hp⟩) (by decide) hmap
  rw [palignDown_of_aligned (pmAlloc_aligned ?_), ← hF]
  · exact pmAlloc_again (hF ▸ hne)
  · rw [pmAlloc_pool]
    exact hfresh.pool

/-- **`vm_copy_kernel_pdir` completes** unless `map_page` finds its page mapped otherwise. -/
theorem vmCopyKernelPdir_completes (hfresh : FreshFrames m F) (hc : Coherent m.tlb m.mem m.cr3)
    (hr : Recursive m.mem m.cr3) (hF : (pmAlloc m.pm).1 = F) (hne : F ≠ 0#32)
    (hmapped : Present (pdeOf m.mem m.cr3 F) → Present (pteOf m.mem m.cr3 F) →
      SameMapping (pteOf m.mem m.cr3 F) F 0#32) :
    ∃ m', vmCopyKernelPdir m = .ok (F, m') := by
  obtain ⟨m₁, hmap, -⟩ := (mapPage_completes_iff
    (m := { m with pm := (pmAlloc m.pm).2 }) hc hr (show (0#32).toNat < 4096 by decide)).mpr hmapped
  obtain ⟨mem, t, hrun, -⟩ := vmCopyKernelPdir_runs hF hne hmap (hfresh.ownPage hc hr hF hne hmap).1
  exact ⟨_, hrun⟩

/-- **New address spaces.**  Under a directory that maps itself, and with frames from `pm_alloc`
    that are not in use, the directory `vm_copy_kernel_pdir` returns holds the kernel part of the
    current one, as that is on return, and nothing else. -/
theorem vmCopyKernelPdir_kernel_only {m' : Machine τ} {d : BitVec 32}
    (hc : Coherent m.tlb m.mem m.cr3) (hr : Recursive m.mem m.cr3)
    (hrun : vmCopyKernelPdir m = .ok (d, m')) (hd : d ≠ 0#32) (hfresh : FreshFrames m d) :
    m'.cr3 = m.cr3 ∧ KernelOnly m'.mem m'.cr3 d := by
  obtain ⟨F, m₀, h₀, h⟩ := bind_ok_iff.mp hrun
  obtain ⟨hF, rfl⟩ := Prod.mk.inj (Except.ok.inj h₀)
  have hne : F ≠ 0#32 := by
    rintro rfl
    obtain ⟨rfl, -⟩ := Prod.mk.inj (Except.ok.inj h)
    exact hd rfl
  rw [if_neg hne] at h
  obtain ⟨⟨⟩, m₁, hmap, hrest⟩ := bind_ok_iff.mp h
  obtain rfl : F = d := by
    obtain ⟨_, _, -, h₂⟩ := bind_ok_iff.mp hrest
    obtain ⟨_, _, -, h₃⟩ := bind_ok_iff.mp h₂
    obtain ⟨_, _, -, h₄⟩ := bind_ok_iff.mp h₃
    exact (Prod.mk.inj (Except.ok.inj h₄)).1
  obtain ⟨ho, hcr3⟩ := hfresh.ownPage hc hr hF hne hmap
  obtain ⟨mem, t, hrun', -, hoff, hent⟩ := vmCopyKernelPdir_runs hF hne hmap ho
  obtain rfl := (Prod.mk.inj (Except.ok.inj (hrun.symm.trans hrun'))).2
  -- the frame is not the directory, which therefore is as `map_page` left it
  refine ⟨hcr3, kernelOnly_of_entries ho.aligned fun j hj => ?_⟩
  rw [hent j hj, newPde, newPde, ho.dirEntry_off hj hoff]

end OwnPage

/-- From there the new directory is the first page of the pool; the second is its table. -/
theorem vmCopyKernelPdir_kernel_only_blank :
    ∃ m', vmCopyKernelPdir (lawMachine (blankSpace 0x1000#32)) = .ok (0x2000#32, m') ∧
      KernelOnly m'.mem m'.cr3 0x2000#32 := by
  have hd : (0x1000#32).toNat % 4096 = 0 := by decide
  have hr : Recursive (blankSpace 0x1000#32) 0x1000#32 := (wellFormed_blankSpace hd).recursive
  have hc : Coherent () (blankSpace 0x1000#32) 0x1000#32 := coherent_unit _ _ _
  have hfirst : (pmAlloc (lawMachine (blankSpace 0x1000#32)).pm).1 = 0x2000#32 := by decide +kernel
  have hsecond : (pmAlloc (pmAlloc (lawMachine (blankSpace 0x1000#32)).pm).2).1 = 0x3000#32 := by
    decide +kernel
  have hfree : ∀ F, F ≠ 0x1000#32 → ¬ InUse (blankSpace 0x1000#32) 0x1000#32 F :=
    fun F hF h => hF (blankSpace_inUse hd h)
  have hfresh : FreshFrames (lawMachine (blankSpace 0x1000#32)) 0x2000#32 := by
    refine ⟨by decide, hfree _ (by decide), fun _ => ?_⟩
    rw [hsecond]
    exact hfree _ (by decide)
  have habsent : ¬ Present (pdeOf (blankSpace 0x1000#32) 0x1000#32 0x2000#32) :=
    blankSpace_absent hd (palignDown_aligned _) (by decide) fun _ => by decide
  obtain ⟨m', hrun⟩ := vmCopyKernelPdir_completes hfresh hc hr hfirst (by decide)
    fun hp => absurd hp habsent
  have hd₀ : 0x2000#32 ≠ 0#32 := by decide
  have hholds := vmCopyKernelPdir_kernel_only (m := lawMachine (blankSpace 0x1000#32)) hc hr hrun
    hd₀ hfresh
  exact ⟨m', hrun, hholds.2⟩

end Leoman
