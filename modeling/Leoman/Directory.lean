import Leoman.FrameLaw
import Leoman.Spaces
import Leoman.Lib.Runs

namespace Leoman

open ByteMem StateExcept Runs

/-!
# The directory over whole runs

Six functions edit the current address space, all of them through the two windows.  None of
them flushes an ordinary page whose entry it rewrites, so the TLB may go stale; what it retains
of the windows does not, as long as no present directory entry loses its frame.

* `PageCall`, `VmCall` — the calls page by page, and the six functions as lists of those;
* `Windowed` — the TLB with its translations of ordinary pages left out: the calls cannot tell
  the difference (`PageCall.exec_erases`), and this TLB stays coherent;
* `DirStep` — what one page of a call does to the directory;
* `structure_kept` — over every run the directory maps itself, its tables are distinct, and a
  present entry keeps its frame.
-/

/-! ### The windows are all that is accessed -/

instance (q : BitVec 32) : Decidable (InWindows q) := inferInstanceAs (Decidable (_ = _))

/-- The TLB `base`, seen only where it retains pages of the windows. -/
structure Windowed (τ : Type) where
  base : τ

section Windowed

variable {τ : Type} [Tlb τ]

instance : Tlb (Windowed τ) where
  lookup t q := if InWindows q then Tlb.lookup t.base q else none
  fill t p f := ⟨Tlb.fill t.base p f⟩
  invlpg t p := ⟨Tlb.invlpg t.base p⟩
  flush t := ⟨Tlb.flush t.base⟩
  lookup_fill {t p f q g} h := by
    by_cases hq : InWindows q
    · simp only [if_pos hq] at h ⊢
      exact Tlb.lookup_fill h
    · simp [if_neg hq] at h
  lookup_invlpg {t p q g} h := by
    by_cases hq : InWindows q
    · simp only [if_pos hq] at h ⊢
      exact Tlb.lookup_invlpg h
    · simp [if_neg hq] at h
  lookup_flush {t q} := by
    simp only [Tlb.lookup_flush, ite_self]

/-- A page of the windows is looked up in the TLB that is there. -/
theorem lookup_windowed {t : τ} {q : BitVec 32} (hq : InWindows q) :
    Tlb.lookup (⟨t⟩ : Windowed τ) q = Tlb.lookup t q := if_pos hq

/-- Only window pages are retained. -/
theorem inWindows_of_lookup {t : Windowed τ} {q g : BitVec 32} (h : Tlb.lookup t q = some g) :
    InWindows q := by
  by_contra hq
  rw [show Tlb.lookup t q = none from if_neg hq] at h
  exact absurd h (by simp)

/-- The machine with that TLB. -/
def Machine.windowed (m : Machine τ) : Machine (Windowed τ) := ⟨m.mem, m.cr3, ⟨m.tlb⟩, m.pm⟩

/-- A page of the windows resolves the same. -/
theorem translate_erases {v : BitVec 32} (hv : InWindows (palignDown v)) :
    Erases Machine.windowed (translate (τ := τ) v) (translate v) := by
  intro m
  have hmem : (Machine.windowed m).mem = m.mem := rfl
  have hcr3 : (Machine.windowed m).cr3 = m.cr3 := rfl
  have htlb : (Machine.windowed m).tlb = ⟨m.tlb⟩ := rfl
  simp only [translate, htlb, hmem, hcr3, lookup_windowed hv]
  cases Tlb.lookup m.tlb (palignDown v) with
  | some f => rfl
  | none =>
    cases walk m.mem m.cr3 v with
    | none => rfl
    | some f => rfl

section Word

variable {v : BitVec 32} (hv : InWindows (palignDown v)) (ha : v.toNat % 4 = 0)

include hv ha

/-- The bytes of an aligned word of the windows. -/
theorem translate_byte_erases {i : Nat} (hi : i < 4) :
    Erases Machine.windowed (translate (τ := τ) (v + BitVec.ofNat 32 i))
      (translate (v + BitVec.ofNat 32 i)) :=
  translate_erases (by rwa [(palignDown_add_byte ha hi).1])

/-- A word of the windows is loaded the same, … -/
theorem load32_erases : Erases Machine.windowed (load32 (τ := τ) v) (load32 v) :=
  (translate_erases hv).bind fun _ => (translate_byte_erases hv ha (i := 1) (by decide)).bind
    fun _ => (translate_byte_erases hv ha (i := 2) (by decide)).bind
      fun _ => (translate_byte_erases hv ha (i := 3) (by decide)).bind fun _ _ => rfl

/-- … and stored. -/
theorem store32_erases (x : BitVec 32) :
    Erases Machine.windowed (store32 (τ := τ) v x) (store32 v x) :=
  (translate_erases hv).bind fun _ => (translate_byte_erases hv ha (i := 1) (by decide)).bind
    fun _ => (translate_byte_erases hv ha (i := 2) (by decide)).bind
      fun _ => (translate_byte_erases hv ha (i := 3) (by decide)).bind
        fun _ => Erases.modify fun _ => rfl

end Word

section Slots

variable (v x : BitVec 32)

/-- A directory entry is loaded through its window, … -/
theorem load_pdirSlot_erases :
    Erases Machine.windowed (load32 (τ := τ) (pdirSlot v)) (load32 (pdirSlot v)) :=
  load32_erases (inWindows_pdirSlot v) (pdirSlot_aligned v)

/-- … a table entry too, … -/
theorem load_ptabSlot_erases :
    Erases Machine.windowed (load32 (τ := τ) (ptabSlot v)) (load32 (ptabSlot v)) :=
  load32_erases (inWindows_ptabSlot v) (ptabSlot_aligned v)

/-- … and so is each of them … -/
theorem store_pdirSlot_erases :
    Erases Machine.windowed (store32 (τ := τ) (pdirSlot v) x) (store32 (pdirSlot v) x) :=
  store32_erases (inWindows_pdirSlot v) (pdirSlot_aligned v) x

/-- … stored. -/
theorem store_ptabSlot_erases :
    Erases Machine.windowed (store32 (τ := τ) (ptabSlot v) x) (store32 (ptabSlot v) x) :=
  store32_erases (inWindows_ptabSlot v) (ptabSlot_aligned v) x

end Slots

omit [Tlb τ] in
/-- `pm_alloc` accesses no memory that is translated. -/
theorem pmAllocPage_erases : Erases Machine.windowed (pmAllocPage (τ := τ)) pmAllocPage :=
  fun _ => rfl

/-- A page that is flushed is flushed in both. -/
theorem vmFlushPage_erases (v : BitVec 32) :
    Erases Machine.windowed (vmFlushPage (τ := τ) v) (vmFlushPage v) :=
  Erases.modify fun _ => rfl

/-- `map_page` accesses nothing but the windows. -/
theorem mapPage_erases (paddr vaddr flags : BitVec 32) :
    Erases Machine.windowed (mapPage (τ := τ) paddr vaddr flags) (mapPage paddr vaddr flags) := by
  unfold mapPage
  refine (load_pdirSlot_erases _).bind fun pde => Erases.ite ?_ ?_
  · refine (load_ptabSlot_erases _).bind fun pte => Erases.ite ?_ ?_
    · exact Erases.ite (Erases.trap _) (Erases.ite (Erases.trap _) (Erases.pure _))
    · exact (load_pdirSlot_erases _).bind fun _ =>
        (store_pdirSlot_erases _ _).bind fun _ => store_ptabSlot_erases _ _
  · exact pmAllocPage_erases.bind fun _ => (store_pdirSlot_erases _ _).bind fun _ =>
      (vmFlushPage_erases _).bind fun _ => store_ptabSlot_erases _ _

/-- `unmap_page` accesses the windows only, … -/
theorem unmapPage_erases (vaddr : BitVec 32) :
    Erases Machine.windowed (unmapPage (τ := τ) vaddr) (unmapPage vaddr) :=
  store_ptabSlot_erases _ _

/-- … and so does `vm_change_page_attrs`. -/
theorem vmChangePageAttrs_erases (vaddr newFlags : BitVec 32) :
    Erases Machine.windowed (vmChangePageAttrs (τ := τ) vaddr newFlags)
      (vmChangePageAttrs vaddr newFlags) :=
  (load_ptabSlot_erases _).bind fun _ => store_ptabSlot_erases _ _

end Windowed

/-! ### Calls, page by page -/

/-- A page of a call: one `map_page`, one turn of the loop of `vm_alloc_pages_at`, one
    `unmap_page`, one `vm_change_page_attrs`. -/
inductive PageCall where
  | map (paddr vaddr flags : BitVec 32)
  | alloc (vaddr flags : BitVec 32)
  | unmap (vaddr : BitVec 32)
  | attrs (vaddr newFlags : BitVec 32)
deriving DecidableEq, Repr

namespace PageCall

/-- The page. -/
def vaddr : PageCall → BitVec 32
  | map _ vaddr _ => vaddr
  | alloc vaddr _ => vaddr
  | unmap vaddr => vaddr
  | attrs vaddr _ => vaddr

/-- Below the windows, with flags from the low five bits. -/
def Below : PageCall → Prop
  | map _ vaddr flags => vaddr.toNat < 0xffc00000 ∧ flags.toNat < 0x20
  | alloc vaddr flags => vaddr.toNat < 0xffc00000 ∧ flags.toNat < 0x20
  | unmap vaddr => vaddr.toNat < 0xffc00000
  | attrs vaddr newFlags => vaddr.toNat < 0xffc00000 ∧ newFlags.toNat < 0x20

/-- It can be told. -/
instance Below.decidable : ∀ c : PageCall, Decidable c.Below
  | map _ _ _ | alloc _ _ | attrs _ _ => inferInstanceAs (Decidable (_ ∧ _))
  | unmap _ => inferInstanceAs (Decidable (_ < _))

section Code

variable {τ : Type} [Tlb τ]

/-- Run it. -/
def exec : PageCall → Code Trap (Machine τ) Unit
  | map paddr vaddr flags => mapPage paddr vaddr flags
  | alloc vaddr flags => do
    let physicalPage ← pmAllocPage
    mapPage physicalPage vaddr flags
  | unmap vaddr => unmapPage vaddr
  | attrs vaddr newFlags => vmChangePageAttrs vaddr newFlags

/-- So does a page of any call. -/
theorem exec_erases (c : PageCall) : Erases Machine.windowed (c.exec (τ := τ)) c.exec := by
  cases c with
  | map p v f => exact mapPage_erases p v f
  | alloc v f => exact pmAllocPage_erases.bind fun _ => mapPage_erases _ v f
  | unmap v => exact unmapPage_erases v
  | attrs v f => exact vmChangePageAttrs_erases v f

/-- How often it calls `pm_alloc`: `map_page` does when its page table is absent. -/
def allocs (m : Machine τ) : PageCall → Nat
  | map _ vaddr _ => if Present (pdeOf m.mem m.cr3 vaddr) then 0 else 1
  | alloc vaddr _ => if Present (pdeOf m.mem m.cr3 vaddr) then 1 else 2
  | unmap _ => 0
  | attrs _ _ => 0

/-- The frames `pm_alloc` returns to it. -/
def returned (c : PageCall) (m : Machine τ) : List (BitVec 32) := nextFrames (c.allocs m) m.pm

end Code

end PageCall

/-- The six functions. -/
inductive VmCall where
  | mapPage (paddr vaddr flags : BitVec 32)
  | mapPages (paddr vaddr flags sz : BitVec 32)
  | unmapPage (vaddr : BitVec 32)
  | unmapPages (vaddr sz : BitVec 32)
  | vmAllocPagesAt (vaddr flags sz : BitVec 32)
  | vmChangePageAttrs (vaddr newFlags : BitVec 32)
deriving DecidableEq, Repr

/-- `n` pages in a row, from `v` on. -/
def eachPage (page : Nat → PageCall) (n : Nat) : List PageCall := (List.range n).map page

/-- The first page, and those after it. -/
theorem eachPage_succ (page : Nat → PageCall) (n : Nat) :
    eachPage page (n + 1) = page 0 :: eachPage (fun i => page (i + 1)) n := by
  rw [eachPage, List.range_succ_eq_map, List.map_cons, List.map_map]
  rfl

namespace VmCall

/-- The pages a call goes through. -/
def pages : VmCall → List PageCall
  | mapPage paddr vaddr flags => [.map paddr vaddr flags]
  | mapPages paddr vaddr flags sz => if sz = 0#32 then [] else
      eachPage (fun i => .map (pageAt (palignDown paddr) i) (pageAt (palignDown vaddr) i) flags)
        (pagesOf sz)
  | unmapPage vaddr => [.unmap vaddr]
  | unmapPages vaddr sz => if sz = 0#32 then [] else
      eachPage (fun i => .unmap (pageAt (palignDown vaddr) i)) (pagesOf sz)
  | vmAllocPagesAt vaddr flags sz => if sz = 0#32 then [] else
      eachPage (fun i => .alloc (pageAt (palignDown vaddr) i) flags) (pagesOf sz)
  | vmChangePageAttrs vaddr newFlags => [.attrs vaddr newFlags]

section Code

variable {τ : Type} [Tlb τ]

/-- Run it. -/
def exec : VmCall → Code Trap (Machine τ) Unit
  | mapPage paddr vaddr flags => Leoman.mapPage paddr vaddr flags
  | mapPages paddr vaddr flags sz => Leoman.mapPages paddr vaddr flags sz
  | unmapPage vaddr => Leoman.unmapPage vaddr
  | unmapPages vaddr sz => Leoman.unmapPages vaddr sz
  | vmAllocPagesAt vaddr flags sz => Leoman.vmAllocPagesAt vaddr flags sz
  | vmChangePageAttrs vaddr newFlags => Leoman.vmChangePageAttrs vaddr newFlags

end Code

end VmCall

section Code

variable {τ : Type} [Tlb τ]

/-- Run calls page by page. -/
def execPages : List PageCall → Code Trap (Machine τ) Unit
  | [] => pure ()
  | c :: cs => do
    c.exec
    execPages cs

/-- The loops are their pages, one after the other. -/
theorem mapPagesLoop_pages (flags : BitVec 32) (n : Nat) (p v : BitVec 32) :
    mapPagesLoop (τ := τ) flags n p v
      = execPages (eachPage (fun i => .map (pageAt p i) (pageAt v i) flags) n) := by
  induction n generalizing p v with
  | zero => rfl
  | succ n ih =>
    simp only [eachPage_succ, pageAt_zero, ← pageAt_succ]
    show (do mapPage p v flags; mapPagesLoop flags n (p + pageSize) (v + pageSize)) = _
    rw [ih]
    rfl

/-- The loop of `unmap_pages`, … -/
theorem unmapPagesLoop_pages (n : Nat) (v : BitVec 32) :
    unmapPagesLoop (τ := τ) n v = execPages (eachPage (fun i => .unmap (pageAt v i)) n) := by
  induction n generalizing v with
  | zero => rfl
  | succ n ih =>
    simp only [eachPage_succ, pageAt_zero, ← pageAt_succ]
    show (do unmapPage v; unmapPagesLoop n (v + pageSize)) = _
    rw [ih]
    rfl

/-- … and that of `vm_alloc_pages_at`. -/
theorem vmAllocPagesAtLoop_pages (flags : BitVec 32) (n : Nat) (v : BitVec 32) :
    vmAllocPagesAtLoop (τ := τ) flags n v
      = execPages (eachPage (fun i => .alloc (pageAt v i) flags) n) := by
  induction n generalizing v with
  | zero => rfl
  | succ n ih =>
    simp only [eachPage_succ, pageAt_zero, ← pageAt_succ]
    -- both sides are `pm_alloc`, `map_page` and the rest
    show (do
      let physicalPage ← pmAllocPage
      mapPage physicalPage v flags
      vmAllocPagesAtLoop flags n (v + pageSize)) = _
    rw [ih, execPages, PageCall.exec, bind_assoc]

/-- **A call is its pages**, one after the other. -/
theorem vmCall_exec_eq (c : VmCall) : c.exec (τ := τ) = execPages c.pages := by
  cases c with
  | mapPage p v f => exact (bind_pure (mapPage (τ := τ) p v f)).symm
  | mapPages p v f sz =>
    simp only [VmCall.exec, VmCall.pages, mapPages]
    split
    · rfl
    · exact mapPagesLoop_pages f _ _ _
  | unmapPage v => exact (bind_pure (unmapPage (τ := τ) v)).symm
  | unmapPages v sz =>
    simp only [VmCall.exec, VmCall.pages, unmapPages]
    split
    · rfl
    · exact unmapPagesLoop_pages _ _
  | vmAllocPagesAt v f sz =>
    simp only [VmCall.exec, VmCall.pages, vmAllocPagesAt]
    split
    · rfl
    · exact vmAllocPagesAtLoop_pages f _ _
  | vmChangePageAttrs v f => exact (bind_pure (vmChangePageAttrs (τ := τ) v f)).symm

end Code

/-! ### What `map_page` does -/

/-- A completed `map_page(p, v, flags)`: it found the page mapped as asked for, or stored the
    table entry, or put a frame of `pm_alloc` into the directory first. -/
inductive MapStep {τ : Type} [Tlb τ] (m : Machine τ) (p v flags : BitVec 32) : Machine τ → Prop
  | already {t : τ} (hp : Present (pdeOf m.mem m.cr3 v)) (hp' : Present (pteOf m.mem m.cr3 v))
    (hc : Coherent t m.mem m.cr3) : MapStep m p v flags { m with tlb := t }
  | page {t : τ} (hp : Present (pdeOf m.mem m.cr3 v))
    (hc : Coherent t (setPde m.mem m.cr3 v (pdeOf m.mem m.cr3 v ||| mapFlags flags)) m.cr3) :
    MapStep m p v flags { m with
      mem := newTable m.mem m.cr3 v (pdeOf m.mem m.cr3 v ||| mapFlags flags)
        (palignDown p ||| mapFlags flags), tlb := t }
  | table {t : τ} (ha : ¬ Present (pdeOf m.mem m.cr3 v))
    (hc : Coherent t (setPde m.mem m.cr3 v ((pmAlloc m.pm).1 ||| mapFlags flags)) m.cr3) :
    MapStep m p v flags { m with
      mem := newTable m.mem m.cr3 v ((pmAlloc m.pm).1 ||| mapFlags flags)
        (palignDown p ||| mapFlags flags), tlb := t, pm := (pmAlloc m.pm).2 }

section MapPage

variable {τ : Type} [Tlb τ] {m m' : Machine τ} {p v flags : BitVec 32}

/-- **`map_page` completes** exactly when it does not find the page mapped otherwise. -/
theorem mapPage_completes_iff (hc : Coherent m.tlb m.mem m.cr3) (hr : Recursive m.mem m.cr3)
    (hf : flags.toNat < 4096) :
    (∃ m', mapPage p v flags m = .ok ((), m') ∧ MapStep m p v flags m') ↔
      (Present (pdeOf m.mem m.cr3 v) → Present (pteOf m.mem m.cr3 v) →
        SameMapping (pteOf m.mem m.cr3 v) p flags) := by
  by_cases hp : Present (pdeOf m.mem m.cr3 v)
  · by_cases hp' : Present (pteOf m.mem m.cr3 v)
    · obtain ⟨t, hct, -, hrun⟩ := @mapPage_present _ _ _ hc hr p v flags hp hp'
      constructor
      · rintro ⟨m', hm', -⟩ - -
        by_contra hne
        rw [hrun, if_neg hne] at hm'
        exact absurd hm' (by simp)
      · intro hsame
        rw [hrun, if_pos (hsame hp hp')]
        exact ⟨_, rfl, .already hp hp' hct⟩
    · obtain ⟨t, hrun, hct, -⟩ := mapPage_absentPage (p := p) hc hr hf hp hp'
      exact iff_of_true ⟨_, hrun, .page hp hct⟩ fun _ h => absurd h hp'
  · obtain ⟨t, hrun, hct, -⟩ := @mapPage_absentTable _ _ _ hc hr p v flags hp
    exact iff_of_true ⟨_, hrun, .table hp hct⟩ fun h => absurd h hp

/-- **Inversion.** -/
theorem mapPage_inv (hc : Coherent m.tlb m.mem m.cr3) (hr : Recursive m.mem m.cr3)
    (hf : flags.toNat < 4096) (hrun : mapPage p v flags m = .ok ((), m')) :
    MapStep m p v flags m' := by
  have hsame : Present (pdeOf m.mem m.cr3 v) → Present (pteOf m.mem m.cr3 v) →
      SameMapping (pteOf m.mem m.cr3 v) p flags := by
    intro hp hp'
    by_contra hne
    obtain ⟨t, -, -, hhalt⟩ := @mapPage_present _ _ _ hc hr p v flags hp hp'
    rw [hhalt, if_neg hne] at hrun
    exact absurd hrun (by simp)
  obtain ⟨m₁, hm₁, hstep⟩ := (mapPage_completes_iff hc hr hf).mpr hsame
  obtain rfl := (Prod.mk.inj (Except.ok.inj (hrun.symm.trans hm₁))).2
  exact hstep

end MapPage

/-! ### What a page of a call does to the directory -/

/-- Entry `i` of the loaded directory. -/
def dirEntry {τ : Type} (m : Machine τ) (i : BitVec 32) : BitVec 32 :=
  tableEntry m.mem (palignDown m.cr3) i

/-- The directory before and after: only entry `i` is rewritten; it keeps its frame, or, if it
    was absent, gets one of the frames `fs`. -/
structure DirStep {τ : Type} (m m' : Machine τ) (i : BitVec 32) (fs : List (BitVec 32)) : Prop where
  cr3 : m'.cr3 = m.cr3
  others : ∀ j : BitVec 32, j.toNat < 1024 → j ≠ i → dirEntry m' j = dirEntry m j
  kept : Present (dirEntry m i) →
    Present (dirEntry m' i) ∧ palignDown (dirEntry m' i) = palignDown (dirEntry m i)
  new : ¬ Present (dirEntry m i) → ∃ F ∈ fs, palignDown (dirEntry m' i) = palignDown F

section DirStep

variable {τ : Type} {m m' : Machine τ} {i : BitVec 32} {fs : List (BitVec 32)}

/-- A frame is in use when an entry points to it. -/
theorem inUse_iff {F : BitVec 32} : InUse m.mem m.cr3 F ↔
    ∃ j : BitVec 32, j.toNat < 1024 ∧ Present (dirEntry m j) ∧ palignDown (dirEntry m j) = F := by
  constructor
  · rintro ⟨w, hp, hf⟩
    exact ⟨vmPdirIdx w, vmPdirIdx_lt w, hp, hf⟩
  · rintro ⟨j, hj, hp, hf⟩
    obtain ⟨w, rfl, -⟩ := exists_idx hj (show (0#32).toNat < 1024 by decide)
    exact ⟨w, hp, hf⟩

/-- A present entry stays, with its frame. -/
theorem DirStep.keeps (h : DirStep m m' i fs) {j : BitVec 32} (hj : j.toNat < 1024)
    (hp : Present (dirEntry m j)) :
    Present (dirEntry m' j) ∧ palignDown (dirEntry m' j) = palignDown (dirEntry m j) := by
  by_cases hji : j = i
  · subst hji
    exact h.kept hp
  · rw [h.others j hj hji]
    exact ⟨hp, rfl⟩

/-- A frame in use was in use, or is one of the new ones. -/
theorem DirStep.inUse (h : DirStep m m' i fs) {F : BitVec 32} (hF : InUse m'.mem m'.cr3 F) :
    InUse m.mem m.cr3 F ∨ F ∈ fs.map palignDown := by
  obtain ⟨j, hj, hp, rfl⟩ := inUse_iff.mp hF
  by_cases hold : Present (dirEntry m j)
  · exact Or.inl (inUse_iff.mpr ⟨j, hj, hold, (h.keeps hj hold).2.symm⟩)
  · obtain rfl : j = i := by
      by_contra hji
      rw [h.others j hj hji] at hp
      exact hold hp
    obtain ⟨G, hG, heq⟩ := h.new hold
    exact Or.inr (List.mem_map.mpr ⟨G, hG, heq.symm⟩)

/-- The rewritten entry shares its frame with no other. -/
theorem DirStep.apart (h : DirStep m m' i fs) (hwf : WellFormed m.mem m.cr3) (hi : i.toNat < 1024)
    (hfresh : ∀ F ∈ fs, ¬ InUse m.mem m.cr3 (palignDown F)) {j : BitVec 32} (hj : j.toNat < 1024)
    (hji : j ≠ i) (hp : Present (dirEntry m' j)) :
    palignDown (dirEntry m' i) ≠ palignDown (dirEntry m' j) := by
  rw [h.others j hj hji] at hp ⊢
  intro heq
  by_cases hold : Present (dirEntry m i)
  · rw [(h.kept hold).2] at heq
    exact hji (hwf.distinct i j hi hj hold hp heq).symm
  · obtain ⟨F, hF, hnew⟩ := h.new hold
    exact hfresh F hF (inUse_iff.mpr ⟨j, hj, hp, by rw [← heq, hnew]⟩)

/-- **The structure survives** a step whose new frames are not in use. -/
theorem DirStep.wellFormed (h : DirStep m m' i fs) (hwf : WellFormed m.mem m.cr3)
    (hi : i.toNat < 1024) (hfresh : ∀ F ∈ fs, ¬ InUse m.mem m.cr3 (palignDown F)) :
    WellFormed m'.mem m'.cr3 := by
  constructor
  · obtain ⟨hp, hf⟩ := h.keeps (j := 1023#32) (by decide) hwf.recursive.1
    exact ⟨hp, hf.trans (by rw [h.cr3]; exact hwf.recursive.2)⟩
  · intro a b ha hb hpa hpb heq
    by_cases hai : a = i
    · subst hai
      by_contra hba
      exact h.apart hwf hi hfresh hb (fun e => hba e.symm) hpb heq
    · by_cases hbi : b = i
      · subst hbi
        exact absurd heq.symm (h.apart hwf hi hfresh ha hai hpa)
      · -- neither entry was touched
        have hea := h.others a ha hai
        have heb := h.others b hb hbi
        simp only [dirEntry] at hea heb
        rw [hea] at hpa heq
        rw [heb] at hpb heq
        rw [h.cr3] at *
        exact hwf.distinct a b ha hb hpa hpb heq

end DirStep

section Steps

variable {τ : Type} [Tlb τ] {m m' : Machine (Windowed τ)} {p v flags : BitVec 32}

/-- A window page resolves to the frame of the entry it shows. -/
theorem walk_inWindows {mem : Mem} {cr3 q g : BitVec 32} (hr : Recursive mem cr3)
    (hq : InWindows q) : walk mem cr3 q = some g ↔
      Present (tableEntry mem (palignDown cr3) (vmPtabIdx q)) ∧
        palignDown (tableEntry mem (palignDown cr3) (vmPtabIdx q)) = g := by
  have hpde : pdeOf mem cr3 q = tableEntry mem (palignDown cr3) 1023#32 := by rw [pdeOf, hq]
  rw [walk_eq_some_iff, pteOf, hpde, hr.2]
  exact and_iff_right hr.1

/-- What is retained of the windows stays right as long as present entries keep their frames. -/
theorem coherent_of_keeps {t : Windowed τ} {mem mem' : Mem} {cr3 : BitVec 32}
    (hc : Coherent t mem cr3) (hr : Recursive mem cr3)
    (h : ∀ j : BitVec 32, j.toNat < 1024 → Present (tableEntry mem (palignDown cr3) j) →
      Present (tableEntry mem' (palignDown cr3) j) ∧
        palignDown (tableEntry mem' (palignDown cr3) j)
          = palignDown (tableEntry mem (palignDown cr3) j)) : Coherent t mem' cr3 := by
  intro q g hq
  have hin := inWindows_of_lookup hq
  obtain ⟨hp, hf⟩ := (walk_inWindows hr hin).mp (hc q g hq)
  obtain ⟨hself, hselff⟩ := h 1023#32 (by decide) hr.1
  obtain ⟨hp', hf'⟩ := h (vmPtabIdx q) (vmPtabIdx_lt q) hp
  exact (walk_inWindows ⟨hself, hselff.trans hr.2⟩ hin).mpr ⟨hp', hf'.trans hf⟩

/-- The invariant of the machine. -/
structure Structured (m : Machine (Windowed τ)) : Prop where
  coherent : Coherent m.tlb m.mem m.cr3
  wellFormed : WellFormed m.mem m.cr3

/-- What a page of a call leaves behind, `k` calls of `pm_alloc` later. -/
structure PageStep (m m' : Machine (Windowed τ)) (v : BitVec 32) (k : Nat) : Prop where
  dir : DirStep m m' (vmPdirIdx v) (nextFrames k m.pm)
  coherent : Coherent m'.tlb m'.mem m'.cr3

/-- Without a directory entry there is no access to the table. -/
theorem present_of_store {x : BitVec 32} (hs : Structured m)
    (hrun : store32 (ptabSlot v) x m = .ok ((), m')) : Present (pdeOf m.mem m.cr3 v) := by
  by_contra hp
  rw [store32_fault hs.coherent (walk_ptabSlot_absent hs.wellFormed.recursive hp)] at hrun
  exact absurd hrun (by simp)

/-- Storing a table entry leaves the directory alone. -/
theorem tableEntry_setPte_dir {mem : Mem} {cr3 x j : BitVec 32}
    (hd : palignDown (pdeOf mem cr3 v) ≠ palignDown cr3) (hj : j.toNat < 1024) :
    tableEntry (setPte mem cr3 v x) (palignDown cr3) j = tableEntry mem (palignDown cr3) j := by
  rw [tableEntry_setPte _ _ _ _ (palignDown_aligned _) hj, if_neg fun h => hd h.1.symm]

/-- A step whose directory is the one before. -/
theorem pageStep_of_same (hs : Structured m) (hcr3 : m'.cr3 = m.cr3)
    (hc : Coherent m'.tlb m.mem m.cr3)
    (h : ∀ j : BitVec 32, j.toNat < 1024 → dirEntry m' j = dirEntry m j)
    (hp : Present (pdeOf m.mem m.cr3 v)) (k : Nat) : PageStep m m' v k := by
  refine ⟨⟨hcr3, fun j hj _ => h j hj, fun hp => ?_, fun ha => absurd hp ha⟩, ?_⟩
  · rw [h _ (vmPdirIdx_lt v)]
    exact ⟨hp, rfl⟩
  · rw [hcr3]
    refine coherent_of_keeps hc hs.wellFormed.recursive fun j hj hp => ?_
    have hsame := h j hj
    simp only [dirEntry, hcr3] at hsame
    rw [hsame]
    exact ⟨hp, rfl⟩

/-- `ptab[vm_ptab_idx(v)] = x`. -/
theorem pageStep_store {x : BitVec 32} (hs : Structured m) (hv : v.toNat < 0xffc00000)
    (hrun : store32 (ptabSlot v) x m = .ok ((), m')) : PageStep m m' v 0 ∧ m'.pm = m.pm := by
  have hp := present_of_store hs hrun
  obtain ⟨t, ht, hct, -⟩ := store_ptabSlot hs.coherent hs.wellFormed.recursive hp x
  rw [ht] at hrun
  have hm' := (Prod.mk.inj (Except.ok.inj hrun)).2
  have hd := hs.wellFormed.table_ne hp ((lt_kernPtabs_iff v).mp hv)
  have hct' : Coherent m'.tlb m.mem m.cr3 := by rwa [← hm']
  refine ⟨pageStep_of_same hs (by rw [← hm']) hct' (fun j hj => ?_) hp 0, by rw [← hm']⟩
  rw [← hm']
  exact tableEntry_setPte_dir hd hj

/-- `unmap_page`. -/
theorem unmapPage_pageStep (hs : Structured m) (hv : v.toNat < 0xffc00000)
    (hrun : unmapPage v m = .ok ((), m')) : PageStep m m' v 0 ∧ m'.pm = m.pm := by
  unfold unmapPage at hrun
  rw [ptabSlot_palignDown] at hrun
  exact pageStep_store hs hv hrun

/-- `vm_change_page_attrs`. -/
theorem vmChangePageAttrs_pageStep (hs : Structured m) (hv : v.toNat < 0xffc00000)
    (hrun : vmChangePageAttrs v flags m = .ok ((), m')) : PageStep m m' v 0 ∧ m'.pm = m.pm := by
  unfold vmChangePageAttrs at hrun
  simp only [ptabSlot_palignDown] at hrun
  obtain ⟨pte, m₁, hload, hstore⟩ := bind_ok_iff.mp hrun
  by_cases hp : Present (pdeOf m.mem m.cr3 v)
  · obtain ⟨t, ht, hct, -⟩ := load_ptabSlot hs.coherent hs.wellFormed.recursive hp
    rw [ht] at hload
    obtain ⟨rfl, rfl⟩ := Prod.mk.inj (Except.ok.inj hload)
    -- a TLB with one more window page makes no difference to the directory
    obtain ⟨⟨hdir, hc'⟩, hpm⟩ :=
      pageStep_store (m := { m with tlb := t }) ⟨hct, hs.wellFormed⟩ hv hstore
    exact ⟨⟨⟨hdir.cr3, hdir.others, hdir.kept, hdir.new⟩, hc'⟩, hpm⟩
  · rw [load32_fault hs.coherent (walk_ptabSlot_absent hs.wellFormed.recursive hp)] at hload
    exact absurd hload (by simp)

/-- The second store of `map_page` is outside the directory. -/
theorem coherent_newTable {t : Windowed τ} {mem : Mem} {cr3 e x : BitVec 32}
    (hr : Recursive mem cr3) (hv : vmPdirIdx v ≠ 1023#32) (hd : palignDown e ≠ palignDown cr3)
    (hc : Coherent t (setPde mem cr3 v e) cr3) : Coherent t (newTable mem cr3 v e x) cr3 := by
  refine coherent_of_keeps hc (hr.store_pde _ fun h => absurd h hv) fun j hj hp => ?_
  have hsame : tableEntry (newTable mem cr3 v e x) (palignDown cr3) j
      = tableEntry (setPde mem cr3 v e) (palignDown cr3) j := by
    rw [tableEntry_newTable (palignDown_aligned _) hj, if_neg (fun h => hd h.1.symm),
      tableEntry_setPde _ _ _ _ (palignDown_aligned _) hj]
  rw [hsame]
  exact ⟨hp, rfl⟩

/-- The two stores of `map_page`: `e` into the directory, `x` into the table it points to. -/
theorem pageStep_newTable {e x : BitVec 32} {k : Nat} (hs : Structured m)
    (hv : v.toNat < 0xffc00000) (hmem : m'.mem = newTable m.mem m.cr3 v e x)
    (hcr3 : m'.cr3 = m.cr3) (hc : Coherent m'.tlb (setPde m.mem m.cr3 v e) m.cr3)
    (hd : palignDown e ≠ palignDown m.cr3)
    (hkept : Present (pdeOf m.mem m.cr3 v) →
      Present e ∧ palignDown e = palignDown (pdeOf m.mem m.cr3 v))
    (hnew : ¬ Present (pdeOf m.mem m.cr3 v) →
      ∃ F ∈ nextFrames k m.pm, palignDown e = palignDown F) : PageStep m m' v k := by
  have hentry : ∀ j : BitVec 32, j.toNat < 1024 →
      dirEntry m' j = if j = vmPdirIdx v then e else dirEntry m j := by
    intro j hj
    rw [dirEntry, hmem, hcr3, tableEntry_newTable (palignDown_aligned _) hj,
      if_neg (fun h => hd h.1.symm)]
    simp only [true_and, dirEntry]
  have hself : dirEntry m' (vmPdirIdx v) = e := by rw [hentry _ (vmPdirIdx_lt v), if_pos rfl]
  refine ⟨⟨hcr3, fun j hj hji => ?_, fun hp => ?_, fun ha => ?_⟩, ?_⟩
  · rw [hentry j hj, if_neg hji]
  · rw [hself]
    exact hkept hp
  · rw [hself]
    exact hnew ha
  · rw [hmem, hcr3]
    exact coherent_newTable hs.wellFormed.recursive ((lt_kernPtabs_iff v).mp hv) hd hc

/-- `map_page`, when the frame it would take for a table is not in use. -/
theorem mapPage_pageStep (hs : Structured m) (hv : v.toNat < 0xffc00000)
    (hf : flags.toNat < 0x20)
    (hfresh : ¬ Present (pdeOf m.mem m.cr3 v) →
      ¬ InUse m.mem m.cr3 (palignDown (pmAlloc m.pm).1))
    (hrun : mapPage p v flags m = .ok ((), m')) :
    PageStep m m' v (if Present (pdeOf m.mem m.cr3 v) then 0 else 1) ∧
      m'.pm = if Present (pdeOf m.mem m.cr3 v) then m.pm else (pmAlloc m.pm).2 := by
  have hf' : flags.toNat < 4096 := by omega
  have hr := hs.wellFormed.recursive
  cases mapPage_inv hs.coherent hr hf' hrun with
  | already hp _ hct =>
    rw [if_pos hp, if_pos hp]
    refine ⟨pageStep_of_same hs ?_ ?_ (fun _ _ => ?_) hp 0, rfl⟩
    · rfl
    · exact hct
    · rfl
  | page hp hct =>
    -- flags of the directory entry, and the table entry
    rw [if_pos hp, if_pos hp]
    have hframe := palignDown_or (e := pdeOf m.mem m.cr3 v) (flags_lt hf')
    refine ⟨pageStep_newTable hs hv rfl rfl hct ?_ ?_ ?_, rfl⟩
    · rw [mapFlags, hframe]
      exact hs.wellFormed.table_ne hp ((lt_kernPtabs_iff v).mp hv)
    · intro _
      exact ⟨present_or_right (present_flags flags), hframe⟩
    · intro ha
      exact absurd hp ha
  | table ha hct =>
    -- a frame of `pm_alloc` becomes the table
    rw [if_neg ha, if_neg ha]
    have hframe := palignDown_or (e := (pmAlloc m.pm).1) (flags_lt hf')
    refine ⟨pageStep_newTable hs hv rfl rfl hct ?_ ?_ ?_, rfl⟩
    · rw [mapFlags, hframe]
      intro heq
      exact hfresh ha (heq ▸ inUse_directory hr)
    · intro hp
      exact absurd hp ha
    · intro _
      exact ⟨(pmAlloc m.pm).1, List.mem_singleton_self _, hframe⟩

/-- The allocator after `n` calls. -/
def pmAfter : Nat → Pm → Pm
  | 0, pm => pm
  | n + 1, pm => pmAfter n (pmAlloc pm).2

/-- The frames of `n + k` calls: those of the first `n`, then those of the others. -/
theorem nextFrames_add (n k : Nat) (pm : Pm) :
    nextFrames (n + k) pm = nextFrames n pm ++ nextFrames k (pmAfter n pm) := by
  induction n generalizing pm with
  | zero => rw [Nat.zero_add]; rfl
  | succ n ih =>
    rw [Nat.succ_add]
    exact congrArg _ (ih _)

/-- The allocator after `n + k` calls. -/
theorem pmAfter_add (n k : Nat) (pm : Pm) : pmAfter (n + k) pm = pmAfter k (pmAfter n pm) := by
  induction n generalizing pm with
  | zero => rw [Nat.zero_add]; rfl
  | succ n ih =>
    rw [Nat.succ_add]
    exact ih _

/-- **Step lemma.**  A page of a call whose frames are not in use does to the directory what
    `DirStep` says, and calls `pm_alloc` as often as `allocs` says. -/
theorem PageCall.pageStep {c : PageCall} (hs : Structured m) (hb : c.Below)
    (hfresh : ∀ F ∈ c.returned m, ¬ InUse m.mem m.cr3 (palignDown F))
    (hrun : c.exec m = .ok ((), m')) :
    PageStep m m' c.vaddr (c.allocs m) ∧ m'.pm = pmAfter (c.allocs m) m.pm := by
  cases c with
  | map p v f =>
    have hmap := mapPage_pageStep hs hb.1 hb.2 (fun ha => ?_) hrun
    · simp only [PageCall.allocs, PageCall.vaddr]
      by_cases hp : Present (pdeOf m.mem m.cr3 v)
      · rw [if_pos hp, if_pos hp] at hmap
        rwa [if_pos hp]
      · rw [if_neg hp, if_neg hp] at hmap
        rwa [if_neg hp]
    · refine hfresh _ ?_
      rw [PageCall.returned, PageCall.allocs, if_neg ha]
      exact List.mem_singleton_self _
  | alloc v f =>
    -- the page itself comes first, then perhaps a table for it
    have hmap := mapPage_pageStep (m := { m with pm := (pmAlloc m.pm).2 })
      ⟨hs.coherent, hs.wellFormed⟩ hb.1 hb.2 (fun ha => ?_) hrun
    · obtain ⟨⟨hdir, hc⟩, hpm⟩ := hmap
      simp only [PageCall.allocs, PageCall.vaddr]
      split at hpm
      · rename_i hp
        rw [if_pos hp]
        exact ⟨⟨⟨hdir.cr3, hdir.others, hdir.kept, fun ha => absurd hp ha⟩, hc⟩, hpm⟩
      · rename_i hp
        rw [if_neg hp] at hdir ⊢
        refine ⟨⟨⟨hdir.cr3, hdir.others, hdir.kept, fun ha => ?_⟩, hc⟩, hpm⟩
        obtain ⟨F, hF, heq⟩ := hdir.new ha
        exact ⟨F, List.mem_cons_of_mem _ hF, heq⟩
    · refine hfresh _ ?_
      rw [PageCall.returned, PageCall.allocs, if_neg ha]
      exact List.mem_cons_of_mem _ (List.mem_singleton_self _)
  | unmap v => exact unmapPage_pageStep hs hb hrun
  | attrs v f => exact vmChangePageAttrs_pageStep hs hb.1 hrun

end Steps

/-! ### Runs -/

/-- The machine, and the frames `pm_alloc` has returned so far. -/
structure Session (τ : Type) where
  machine : Machine τ
  returned : List (BitVec 32)

section Runs

variable {τ : Type} [Tlb τ]

/-- The frames `pm_alloc` returns during calls made page by page. -/
def returnedBy : List PageCall → Machine τ → List (BitVec 32)
  | [], _ => []
  | c :: cs, m => c.returned m ++ (match c.exec m with
    | .ok (_, m') => returnedBy cs m'
    | .error _ => [])

/-- A call below the windows that neither halts nor faults. -/
def EditStep (s : Session τ) (c : VmCall) (s' : Session τ) : Prop :=
  (∀ page ∈ c.pages, page.Below) ∧ c.exec s.machine = .ok ((), s'.machine) ∧
    s'.returned = s.returned ++ returnedBy c.pages s.machine

/-- The directory maps itself and its tables are distinct; what the TLB retains of the windows
    is right, as it is after a `cr3` load; `pm_alloc` has not been called yet. -/
structure FreshStart (s : Session τ) : Prop where
  wellFormed : WellFormed s.machine.mem s.machine.cr3
  windows : ∀ q g, InWindows q → Tlb.lookup s.machine.tlb q = some g →
    walk s.machine.mem s.machine.cr3 q = some g
  returned : s.returned = []

/-- The frames `pm_alloc` has returned by `s` are distinct, and none was in the directory of
    `s₀`.  (None being NULL is not needed.) -/
def Supplied (s₀ s : Session τ) : Prop :=
  (s.returned.map palignDown).Nodup ∧
    ∀ F ∈ s.returned, ¬ InUse s₀.machine.mem s₀.machine.cr3 (palignDown F)

/-- A page of a call, as a step. -/
def PageRun (s : Session τ) (c : PageCall) (s' : Session τ) : Prop :=
  c.Below ∧ c.exec s.machine = .ok ((), s'.machine) ∧
    s'.returned = s.returned ++ c.returned s.machine

/-- What a run keeps, as long as `pm_alloc` supplies new frames.  The frames returned are those
    `pm_alloc` hands out one after the other from `s₀` on. -/
structure Intact (s₀ s : Session τ) : Prop where
  structured : Structured s.machine.windowed
  tables : ∀ F, InUse s.machine.mem s.machine.cr3 F →
    InUse s₀.machine.mem s₀.machine.cr3 F ∨ F ∈ s.returned.map palignDown
  record : ∃ n, s.returned = nextFrames n s₀.machine.pm ∧ s.machine.pm = pmAfter n s₀.machine.pm

/-- Present entries stay, with their frames. -/
def Extends (s s' : Session τ) : Prop :=
  ∀ j : BitVec 32, j.toNat < 1024 → Present (dirEntry s.machine j) →
    Present (dirEntry s'.machine j) ∧
      palignDown (dirEntry s'.machine j) = palignDown (dirEntry s.machine j)

variable {s₀ s s' : Session τ}

/-- At first nothing was returned. -/
theorem FreshStart.kept (h : FreshStart s₀) : Intact s₀ s₀ := by
  refine ⟨⟨?_, h.wellFormed⟩, fun F hF => Or.inl hF, 0, h.returned, rfl⟩
  intro q g hq
  have hin := inWindows_of_lookup hq
  exact h.windows q g hin ((lookup_windowed hin).symm.trans hq)

/-- A call is a run of its pages. -/
theorem EditStep.pages {c : VmCall} (h : EditStep s c s') : Run PageRun s c.pages s' := by
  obtain ⟨hb, hexec, hret⟩ := h
  rw [vmCall_exec_eq] at hexec
  generalize c.pages = cs at *
  induction cs generalizing s with
  | nil =>
    obtain ⟨-, hm⟩ := Prod.mk.inj (Except.ok.inj hexec)
    obtain rfl : s = s' := by
      cases s
      cases s'
      simp only [returnedBy, List.append_nil] at hret hm
      rw [hret, hm]
    exact Run.start
  | cons p ps ih =>
    obtain ⟨⟨⟩, m₁, hfirst, hrest⟩ := bind_ok_iff.mp hexec
    have hp : PageRun s p ⟨m₁, s.returned ++ p.returned s.machine⟩ :=
      ⟨hb p List.mem_cons_self, hfirst, rfl⟩
    have hone : Run PageRun s ([] ++ [p]) _ := Run.start.next hp
    refine hone.append (ih (fun q hq => hb q (List.mem_cons_of_mem _ hq)) hrest ?_)
    rw [hret, returnedBy, hfirst, List.append_assoc]

/-- **Step lemma for runs.** -/
theorem PageRun.kept {c : PageCall} (h : PageRun s c s') (hk : Intact s₀ s)
    (hsup : Supplied s₀ s') : Intact s₀ s' ∧ Extends s s' := by
  obtain ⟨hb, hexec, hret⟩ := h
  rw [Supplied, hret] at hsup
  -- what `pm_alloc` returns now is not in the directory yet
  have hfresh : ∀ F ∈ c.returned s.machine,
      ¬ InUse s.machine.mem s.machine.cr3 (palignDown F) := by
    intro F hF huse
    obtain hold | hnew := hk.tables _ huse
    · exact hsup.2 F (List.mem_append_right _ hF) hold
    · have hnodup := hsup.1
      rw [List.map_append] at hnodup
      exact (List.nodup_append'.mp hnodup).2.2 hnew (List.mem_map_of_mem hF)
  obtain ⟨⟨hdir, hc⟩, hpm⟩ :=
    PageCall.pageStep hk.structured hb hfresh ((PageCall.exec_erases c).ok hexec)
  have hwf := hdir.wellFormed hk.structured.wellFormed (vmPdirIdx_lt _) hfresh
  refine ⟨⟨⟨hc, hwf⟩, fun F hF => ?_, ?_⟩, fun j hj hp => hdir.keeps hj hp⟩
  · rw [hret, List.map_append, List.mem_append]
    obtain hold | hnew := hdir.inUse hF
    · exact (hk.tables F hold).imp_right Or.inl
    · exact Or.inr (Or.inr hnew)
  · obtain ⟨n, hn, hpn⟩ := hk.record
    refine ⟨n + c.allocs s.machine, ?_, ?_⟩
    · rw [hret, hn, PageCall.returned, hpn, nextFrames_add]
    · rw [pmAfter_add, ← hpn]
      exact hpm

/-- A run of calls is a run of their pages. -/
theorem pages_of_run {tr : List VmCall} (h : Run EditStep s tr s') :
    Run PageRun s (tr.flatMap VmCall.pages) s' := by
  induction h with
  | start => exact Run.start
  | next hrun hstep ih =>
    rw [List.flatMap_append, List.flatMap_singleton]
    exact ih.append hstep.pages

/-- The frames returned only grow. -/
theorem returned_of_run {tr : List PageCall} (h : Run PageRun s tr s') :
    ∃ fs, s'.returned = s.returned ++ fs := by
  refine h.invariant (J := fun _ s' => ∃ fs, s'.returned = s.returned ++ fs)
    ⟨[], (List.append_nil _).symm⟩ ?_
  rintro _ a c b ⟨fs, hfs⟩ ⟨-, -, hret⟩
  exact ⟨fs ++ c.returned a.machine, by rw [hret, hfs, List.append_assoc]⟩

omit [Tlb τ] in
/-- What has been returned so far is new if what is returned in the end is. -/
theorem Supplied.before {fs : List (BitVec 32)} (h : Supplied s₀ s')
    (heq : s'.returned = s.returned ++ fs) : Supplied s₀ s := by
  rw [Supplied, heq] at h
  refine ⟨?_, fun F hF => h.2 F (List.mem_append_left _ hF)⟩
  have hnodup := h.1
  rw [List.map_append] at hnodup
  exact (List.nodup_append'.mp hnodup).1

/-- **Run lemma.** -/
theorem run_intact {tr : List PageCall} (hk : Intact s₀ s) (hrun : Run PageRun s tr s')
    (hsup : Supplied s₀ s') : Intact s₀ s' ∧ Extends s s' := by
  refine hrun.invariant (J := fun _ s' => Supplied s₀ s' → Intact s₀ s' ∧ Extends s s')
    (fun _ => ⟨hk, fun _ _ hp => ⟨hp, rfl⟩⟩) ?_ hsup
  intro _ a c b ih hstep hb
  obtain ⟨ha, hext⟩ := ih (hb.before hstep.2.2)
  obtain ⟨hkb, hext'⟩ := hstep.kept ha hb
  refine ⟨hkb, fun j hj hp => ?_⟩
  obtain ⟨hpa, hfa⟩ := hext j hj hp
  obtain ⟨hpb, hfb⟩ := hext' j hj hpa
  exact ⟨hpb, hfb.trans hfa⟩

/-- **The structure of the page tables.**  From a directory that maps itself and has its tables
    in distinct frames, and with new frames from `pm_alloc`, every run of the six functions
    below the windows keeps it so; and between any two states of the run no present directory
    entry loses its frame. -/
theorem structure_kept {s₁ s₂ : Session τ} {tr tr' : List VmCall} (hstart : FreshStart s₀)
    (hrun : Run EditStep s₀ tr s₁) (hrun' : Run EditStep s₁ tr' s₂) (hsup : Supplied s₀ s₂) :
    WellFormed s₂.machine.mem s₂.machine.cr3 ∧ Extends s₁ s₂ := by
  have hpages' := pages_of_run hrun'
  obtain ⟨fs, hfs⟩ := returned_of_run hpages'
  have h₁ := run_intact hstart.kept (pages_of_run hrun) (hsup.before hfs)
  have h₂ := run_intact h₁.1 hpages' hsup
  exact ⟨h₂.1.structured.wellFormed, h₂.2⟩

end Runs

/-- The blank directory, before any call. -/
def blankSession : Session Unit := ⟨lawMachine (blankSpace 0x1000#32), []⟩

/-- Mapping a page into it takes a frame for the table; then two pages are allocated in another
    region, which takes a frame for each and one for their table, and the first page is unmapped.
    The table stays where it is. -/
theorem structure_kept_blank : ∃ s₁ s₂ : Session Unit,
    Run EditStep blankSession [.mapPage 0x7000#32 0#32 0#32] s₁ ∧
      Run EditStep s₁ [.vmAllocPagesAt 0x400000#32 pteU 0x2000#32, .unmapPage 0#32] s₂ ∧
      s₂.returned = [0x2000#32, 0x3000#32, 0x4000#32, 0x5000#32] ∧
      WellFormed s₂.machine.mem s₂.machine.cr3 ∧ Extends s₁ s₂ := by
  have hd : (0x1000#32).toNat % 4096 = 0 := by decide
  have hwf : WellFormed blankSession.machine.mem blankSession.machine.cr3 :=
    wellFormed_blankSpace hd
  have hstart : FreshStart blankSession :=
    ⟨hwf, fun q g _ h => absurd h (by simp [Tlb.lookup]), rfl⟩
  -- the three calls as one piece of code, which returns the machines in between
  have htest : ((mapPage 0x7000#32 0#32 0#32 >>= fun _ => get >>= fun m₁ =>
      vmAllocPagesAt 0x400000#32 pteU 0x2000#32 >>= fun _ => get >>= fun m₂ =>
      unmapPage 0#32 >>= fun _ => (pure (m₁, m₂) : Code Trap (Machine Unit) _))
        blankSession.machine).toOption.map (fun r =>
          decide (returnedBy (VmCall.mapPage 0x7000#32 0#32 0#32).pages blankSession.machine
            = [0x2000#32]) &&
          decide (returnedBy (VmCall.vmAllocPagesAt 0x400000#32 pteU 0x2000#32).pages r.1.1
            = [0x3000#32, 0x4000#32, 0x5000#32]) &&
          decide (returnedBy (VmCall.unmapPage 0#32).pages r.1.2 = [])) = some true := by
    decide +kernel
  obtain ⟨⟨m₁, m₂⟩, m₃, h, htests⟩ := ok_of_test htest
  simp only [Bool.and_eq_true, decide_eq_true_eq] at htests
  obtain ⟨⟨hret₁, hret₂⟩, hret₃⟩ := htests
  obtain ⟨_, l₁, h₁, h⟩ := bind_get_ok_iff.mp h
  obtain ⟨_, l₂, h₂, h⟩ := bind_get_ok_iff.mp h
  obtain ⟨_, l₃, h₃, h⟩ := bind_ok_iff.mp h
  obtain ⟨hmid, rfl⟩ := Prod.mk.inj (Except.ok.inj h)
  obtain ⟨rfl, rfl⟩ := Prod.mk.inj hmid
  have hrun : Run EditStep blankSession ([] ++ [.mapPage 0x7000#32 0#32 0#32])
      ⟨l₁, [0x2000#32]⟩ :=
    Run.start.next ⟨by simp [VmCall.pages, PageCall.Below], h₁, hret₁.symm⟩
  have halloc : EditStep ⟨l₁, [0x2000#32]⟩ (.vmAllocPagesAt 0x400000#32 pteU 0x2000#32)
      ⟨l₂, [0x2000#32, 0x3000#32, 0x4000#32, 0x5000#32]⟩ := by
    refine ⟨by decide, h₂, ?_⟩
    rw [hret₂]
    rfl
  have hunmap : EditStep ⟨l₂, [0x2000#32, 0x3000#32, 0x4000#32, 0x5000#32]⟩ (.unmapPage 0#32)
      ⟨l₃, [0x2000#32, 0x3000#32, 0x4000#32, 0x5000#32]⟩ := by
    refine ⟨by simp [VmCall.pages, PageCall.Below], h₃, ?_⟩
    rw [hret₃]
    rfl
  have hrun' := (Run.start.next halloc).next hunmap
  -- the directory in use at first is none of the frames
  have hsup : Supplied blankSession
      ⟨l₃, [0x2000#32, 0x3000#32, 0x4000#32, 0x5000#32]⟩ := by
    refine ⟨?_, fun F hF huse => ?_⟩
    · show ([0x2000#32, 0x3000#32, 0x4000#32, 0x5000#32].map palignDown).Nodup
      decide
    have hpage : palignDown F = 0x1000#32 := blankSpace_inUse hd huse
    simp only [List.mem_cons, List.not_mem_nil, or_false] at hF
    rcases hF with rfl | rfl | rfl | rfl <;> exact absurd hpage (by decide)
  exact ⟨_, _, hrun, hrun', rfl, structure_kept hstart hrun hrun' hsup⟩

end Leoman
