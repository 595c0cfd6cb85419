import Leoman.PageMap
import Leoman.StaleTlb

namespace Leoman

open ByteMem StateExcept Runs

/-!
# The address space the kernel boots in (`kernel/entry_obj.asm`)

The directory and its first two tables are data of the kernel's image; `_start` puts the second
table into the directory and loads it.  From there on the functions of `kernel/vm.c` edit this
address space.

* `PreambleLoaded` — the image is in memory; `start` — the code of `_start` up to the jump;
* `shows_start` — what it sets up, as a page map: the first 4 MiB identity-mapped, and again at
  `KERN_VOFF`, nothing else, and nothing for user mode;
* `vmChangePagesAttrs` — the one caller of `vm_change_page_attrs`;
* `Fixed` — a page that stays where it is: `apply_fixed` for one page of a call;
* `kernel_stays_mapped` — over every run from boot whose calls spare them, the kernel's addresses
  translate as at boot, and user code never reaches them.
-/

/-! ### The image -/

/-- `page_directory`, at `kernel_phys`. -/
def pageDirectory : BitVec 32 := 0x100000#32

/-- `page_table_0`. -/
def pageTable0 : BitVec 32 := 0x101000#32

/-- `kernel_page_table`. -/
def kernelPageTable : BitVec 32 := 0x102000#32

/-- Entry `i` of `page_directory`, as assembled. -/
def pageDirectoryEntry (i : BitVec 32) : BitVec 32 :=
  if i = 0#32 then pageTable0 + 3#32
  else if i = 1023#32 then pageDirectory + 3#32
  else 0#32

/-- Entry `i` of `page_table_0`. -/
def pageTable0Entry (i : BitVec 32) : BitVec 32 := i * 4096#32 ||| 3#32

/-- Entry `i` of `kernel_page_table`. -/
def kernelPageTableEntry (i : BitVec 32) : BitVec 32 :=
  i * 4096#32 ||| 3#32 ||| 1#32 <<< 3 ||| 1#32 <<< 4

/-- The preamble of the image is in memory. -/
structure PreambleLoaded (mem : Mem) : Prop where
  directory : ∀ i : BitVec 32, i.toNat < 1024 →
    tableEntry mem pageDirectory i = pageDirectoryEntry i
  first : ∀ i : BitVec 32, i.toNat < 1024 → tableEntry mem pageTable0 i = pageTable0Entry i
  kernel : ∀ i : BitVec 32, i.toNat < 1024 →
    tableEntry mem kernelPageTable i = kernelPageTableEntry i

/-- `_start`: put the kernel's table into the directory, load the directory, turn paging on. -/
def start {τ : Type} [Tlb τ] (m : Machine τ) : Machine τ :=
  { m with
    mem := write32 m.mem (pageDirectory + 4#32 * (kernVoff >>> 22)) (kernelPageTable ||| 3#32)
    cr3 := pageDirectory
    tlb := Tlb.flush m.tlb }

/-- What the boot address space maps. -/
def bootMap : PageMap where
  table i := if i = 0#32 ∨ i = 896#32 then some false else none
  entry q := if vmPdirIdx q = 0#32 then pageTable0Entry (vmPtabIdx q)
    else kernelPageTableEntry (vmPtabIdx q)

section Start

variable {τ : Type} [Tlb τ] {m : Machine τ} (h : PreambleLoaded m.mem)

/-- Entries of `page_directory` behind `_start`. -/
def startEntry (i : BitVec 32) : BitVec 32 :=
  if i = 896#32 then kernelPageTable ||| 3#32 else pageDirectoryEntry i

/-- Three entries are there: those of the two tables, and the directory's own. -/
theorem startEntry_present {i : BitVec 32} :
    Present (startEntry i) ↔ i = 0#32 ∨ i = 896#32 ∨ i = 1023#32 := by
  unfold startEntry pageDirectoryEntry
  by_cases h₀ : i = 0#32
  · subst h₀
    decide
  · by_cases h₁ : i = 896#32
    · subst h₁
      decide
    · by_cases h₂ : i = 1023#32
      · subst h₂
        decide
      · rw [if_neg h₁, if_neg h₀, if_neg h₂]
        simp [h₀, h₁, h₂, not_present_zero]

/-- `_start` loads the directory. -/
@[simp] theorem start_cr3 (m : Machine τ) : (start m).cr3 = pageDirectory := rfl

/-- It is aligned. -/
theorem palignDown_pageDirectory : palignDown pageDirectory = pageDirectory := by decide

/-- A word of a table of the image behind `_start`. -/
theorem tableEntry_start {c j : BitVec 32} (hc : c.toNat % 4096 = 0) (hj : j.toNat < 1024) :
    tableEntry (start m).mem c j = if c = pageDirectory ∧ j = 896#32 then kernelPageTable ||| 3#32
      else tableEntry m.mem c j := by
  have hidx : kernVoff >>> 22 = 896#32 := by decide
  rw [start, hidx, tableEntry_write (by decide) (by decide) c j hc hj]

include h

/-- Its entries, read from memory. -/
theorem dirEntry_start {j : BitVec 32} (hj : j.toNat < 1024) :
    tableEntry (start m).mem pageDirectory j = startEntry j := by
  rw [tableEntry_start (by decide) hj, h.directory j hj, startEntry]
  simp only [true_and]

/-- The entry that an address goes through. -/
theorem pdeOf_start (w : BitVec 32) :
    pdeOf (start m).mem (start m).cr3 w = startEntry (vmPdirIdx w) := by
  rw [pdeOf, start_cr3, palignDown_pageDirectory, dirEntry_start h (vmPdirIdx_lt w)]

/-- The directory maps itself, and the tables are different. -/
theorem wellFormed_start : WellFormed (start m).mem (start m).cr3 := by
  rw [start_cr3]
  refine ⟨?_, fun i j hi hj => ?_⟩
  · rw [Recursive, palignDown_pageDirectory, dirEntry_start h (by decide)]
    decide
  · rw [palignDown_pageDirectory, dirEntry_start h hi, dirEntry_start h hj, startEntry_present,
      startEntry_present]
    -- three tables, in three frames
    rintro (rfl | rfl | rfl) (rfl | rfl | rfl) <;> decide

/-- **What `_start` sets up.** -/
theorem shows_start : Shows (start m).mem (start m).cr3 bootMap := by
  refine ⟨fun w hw => ?_, fun w hw hp => ?_⟩
  · have hlast := (lt_kernPtabs_iff w).mp hw
    rw [pdeOf_start h]
    generalize vmPdirIdx w = i at *
    show (if i = 0#32 ∨ i = 896#32 then some false else none) = _
    by_cases hi : i = 0#32 ∨ i = 896#32
    · rw [if_pos hi, if_pos (startEntry_present.mpr (hi.imp_right Or.inl))]
      rcases hi with rfl | rfl <;> rfl
    · rw [if_neg hi, if_neg]
      intro hp
      rcases startEntry_present.mp hp with h₀ | h₁ | h₂
      · exact hi (Or.inl h₀)
      · exact hi (Or.inr h₁)
      · exact hlast h₂
  · have hlast := (lt_kernPtabs_iff w).mp hw
    have htab := vmPtabIdx_lt w
    rw [pdeOf_start h, startEntry_present] at hp
    rw [pteOf, pdeOf_start h]
    show _ = if vmPdirIdx (palignDown w) = 0#32 then pageTable0Entry (vmPtabIdx (palignDown w))
      else kernelPageTableEntry (vmPtabIdx (palignDown w))
    rw [vmPdirIdx_palignDown, vmPtabIdx_palignDown]
    rcases hp with h₀ | h₁ | h₂
    · have hframe : palignDown (startEntry 0#32) = pageTable0 := by decide
      rw [h₀, if_pos rfl, hframe, tableEntry_start (by decide) htab,
        if_neg fun hand => absurd hand.1 (by decide)]
      exact h.first _ htab
    · have hframe : palignDown (startEntry 896#32) = kernelPageTable := by decide
      rw [h₁, if_neg (by decide), hframe, tableEntry_start (by decide) htab,
        if_neg fun hand => absurd hand.1 (by decide)]
      exact h.kernel _ htab
    · exact absurd h₂ hlast

/-- The directory was just loaded. -/
theorem freshStart_start : FreshStart (⟨start m, []⟩ : Session τ) :=
  ⟨wellFormed_start h, fun _ _ _ hq => absurd (hq.symm.trans Tlb.lookup_flush) nofun, rfl⟩

end Start

/-! ### `vm_change_pages_attrs` -/

section ChangeAttrs

variable {τ : Type} [Tlb τ]

/-- The loop of `vm_change_pages_attrs`. -/
def vmChangePagesAttrsLoop (newFlags : BitVec 32) : Nat → BitVec 32 → Code Trap (Machine τ) Unit
  | 0, _ => pure ()
  | n + 1, vaddr => do
    vmChangePageAttrs vaddr newFlags
    vmChangePagesAttrsLoop newFlags n (vaddr + pageSize)

/-- `vm_change_pages_attrs`. -/
def vmChangePagesAttrs (vaddr newFlags bytes : BitVec 32) : Code Trap (Machine τ) Unit :=
  vmChangePagesAttrsLoop newFlags (pagesOf bytes) (palignDown vaddr)

/-- The calls it makes. -/
def attrsCalls (newFlags : BitVec 32) (n : Nat) (v : BitVec 32) : List SpaceOp :=
  (List.range n).map fun i => .call (.vmChangePageAttrs (pageAt v i) newFlags)

/-- A page, and the pages after it. -/
theorem attrsCalls_succ (newFlags : BitVec 32) (n : Nat) (v : BitVec 32) :
    attrsCalls newFlags (n + 1) v
      = .call (.vmChangePageAttrs v newFlags) :: attrsCalls newFlags n (v + pageSize) := by
  simp only [attrsCalls, List.range_succ_eq_map, List.map_cons, List.map_map, pageAt_zero,
    Function.comp_def, Nat.succ_eq_add_one, ← pageAt_succ]

/-- It is a run of them. -/
theorem vmChangePagesAttrs_run {m m' : Machine τ} {newFlags v : BitVec 32} {n N : Nat}
    {r : List (BitVec 32)} (hend : v.toNat + 4096 * n ≤ 0xffc00000) (hf : newFlags.toNat < 0x20)
    (hrun : vmChangePagesAttrsLoop newFlags n v m = .ok ((), m')) :
    Run (SpaceStep N) ⟨m, r⟩ (attrsCalls newFlags n v) ⟨m', r⟩ := by
  induction n generalizing m v with
  | zero =>
    obtain ⟨-, rfl⟩ := Prod.mk.inj (Except.ok.inj hrun)
    exact Run.start
  | succ n ih =>
    obtain ⟨⟨⟩, m₁, h₁, hrest⟩ := bind_ok_iff.mp hrun
    have hnext : (v + pageSize).toNat = v.toNat + 4096 ∨ n = 0 := by
      rw [pageSize, BitVec.toNat_add, BitVec.toNat_ofNat]
      omega
    have hone :
        SpaceStep N (⟨m, r⟩ : Session τ) (.call (.vmChangePageAttrs v newFlags)) ⟨m₁, r⟩ := by
      refine ⟨fun page hpage => ?_, h₁, ?_⟩
      · obtain rfl := List.mem_singleton.mp hpage
        exact ⟨show v.toNat < 0xffc00000 by omega, hf⟩
      · show r = r ++ ([] ++ _)
        rw [List.nil_append]
        split <;> exact (List.append_nil r).symm
    rw [attrsCalls_succ]
    rcases hnext with hnext | rfl
    · exact (Run.start.next hone).append (ih (by omega) hrest)
    · obtain ⟨-, rfl⟩ := Prod.mk.inj (Except.ok.inj hrest)
      exact Run.start.next hone

end ChangeAttrs

/-! ### Pages that stay where they are -/

/-- The page of `v` is mapped to the frame `f`, and not for user code. -/
structure PageMap.Fixed (M : PageMap) (v f : BitVec 32) : Prop where
  table : (M.table (vmPdirIdx v)).isSome
  present : Present (M.entry (palignDown v))
  frame : palignDown (M.entry (palignDown v)) = f
  kernel : forUser (M.entry (palignDown v)) = false

/-- A page of a call that does not take the page of `v` away from the kernel. -/
def PageCall.Spares (v : BitVec 32) : PageCall → Prop
  | map _ _ _ => True
  | alloc _ _ => True
  | unmap u => palignDown u ≠ palignDown v
  | attrs u newFlags => palignDown u = palignDown v → Present newFlags ∧ forUser newFlags = false

/-- An operation that does not. -/
def SpaceOp.Spares (v : BitVec 32) : SpaceOp → Prop
  | call c => ∀ page ∈ c.pages, page.Spares v
  | take => True
  | work => True

section Fixed

variable {M M' : PageMap} {u v f x : BitVec 32} {pm pm' : Pm}

/-- A fixed page is mapped, … -/
theorem PageMap.Fixed.walk (h : M.Fixed v f) : M.walk v = some f := by
  rw [PageMap.walk, if_pos ⟨h.table, h.present⟩, h.frame]

/-- … not for user code. -/
theorem PageMap.Fixed.userWalk (h : M.Fixed v f) : M.userWalk v = none := by
  rw [PageMap.userWalk, if_neg]
  rw [h.kernel]
  exact fun hand => absurd hand.2 (by decide)

/-- Only its table and its entry matter. -/
theorem PageMap.Fixed.congr (h : M.Fixed v f) (ht : (M'.table (vmPdirIdx v)).isSome)
    (he : M'.entry (palignDown v) = M.entry (palignDown v)) : M'.Fixed v f := by
  obtain ⟨-, hp, hf, hk⟩ := h
  rw [← he] at hp hf hk
  exact ⟨ht, hp, hf, hk⟩

/-- Another page gets another entry. -/
theorem PageMap.Fixed.setEntry (h : M.Fixed v f) (hne : palignDown u ≠ palignDown v) :
    (M.setEntry u x).Fixed v f := by
  refine h.congr ?_ ?_
  · exact h.table
  · rw [PageMap.setEntry_entry, if_neg hne.symm]

/-- A table that is there keeps its entries. -/
theorem PageMap.Fixed.setTable (h : M.Fixed v f) {user : Bool} : (M.setTable u user).Fixed v f := by
  apply h.congr
  · rw [PageMap.setTable_table]
    split
    · rfl
    · exact h.table
  · rw [PageMap.setTable_entry, if_neg]
    rintro ⟨hidx, hnone⟩
    have htable := h.table
    rw [hidx, hnone] at htable
    exact absurd htable (by decide)

/-- Where `map_page` stores an entry there was none. -/
theorem PageMap.Fixed.map {p flags : BitVec 32} (h : M.Fixed v f)
    (happ : PageMap.map p u flags (M, pm) = some (M', pm')) : M'.Fixed v f := by
  have hsame : palignDown u = palignDown v → vmPdirIdx u = vmPdirIdx v := fun heq => by
    rw [← vmPdirIdx_palignDown u, heq, vmPdirIdx_palignDown]
  unfold PageMap.map at happ
  split at happ
  · split at happ
    · split at happ
      · obtain rfl := (Prod.mk.inj (Option.some.inj happ)).1
        exact h
      · exact absurd happ nofun
    · rename_i habsent
      obtain rfl := (Prod.mk.inj (Option.some.inj happ)).1
      refine h.setTable.setEntry fun heq => habsent ?_
      rw [heq]
      exact h.present
  · rename_i hnone
    obtain rfl := (Prod.mk.inj (Option.some.inj happ)).1
    refine h.setTable.setEntry fun heq => ?_
    have htable := h.table
    rw [← hsame heq, hnone] at htable
    exact absurd htable (by decide)

/-- **Step lemma.** -/
theorem PageCall.apply_fixed {c : PageCall} (h : M.Fixed v f) (hb : c.Below) (hs : c.Spares v)
    (happ : c.apply (M, pm) = some (M', pm')) : M'.Fixed v f := by
  have hrewrite : ∀ {g : BitVec 32 → BitVec 32} {u : BitVec 32},
      PageMap.rewrite u g (M, pm) = some (M', pm') →
        M' = M.setEntry u (g (M.entry (palignDown u))) := by
    intro g u h
    unfold PageMap.rewrite at h
    split at h
    · exact (Prod.mk.inj (Option.some.inj h)).1.symm
    · exact absurd h nofun
  cases c with
  | map p u flags => exact h.map happ
  | alloc u flags => exact h.map happ
  | unmap u =>
    rw [hrewrite (g := fun _ => 0#32) happ]
    exact h.setEntry hs
  | attrs u newFlags =>
    rw [hrewrite (g := fun pte => (pte &&& ~~~0x3ff#32) ||| newFlags) happ]
    by_cases heq : palignDown u = palignDown v
    · -- the page itself keeps its frame, and stays the kernel's
      obtain ⟨hp, hk⟩ := hs heq
      have hflags : newFlags.toNat < 4096 := by
        have := hb.2
        omega
      have hentry : (M.setEntry u ((M.entry (palignDown u) &&& ~~~0x3ff#32) ||| newFlags)).entry
          (palignDown v) = (M.entry (palignDown v) &&& ~~~0x3ff#32) ||| newFlags := by
        rw [PageMap.setEntry_entry, if_pos heq.symm, heq]
      refine ⟨h.table, ?_, ?_, ?_⟩ <;> rw [hentry]
      · exact present_or_right hp
      · rw [palignDown_attrs hflags]
        exact h.frame
      · rw [Bool.eq_false_iff, ne_eq, forUser_iff, not_not, BitVec.and_or_distrib_right,
          BitVec.or_eq_zero_iff, BitVec.and_assoc]
        refine ⟨BitVec.and_zero, ?_⟩
        rwa [Bool.eq_false_iff, ne_eq, forUser_iff, not_not] at hk
    · exact h.setEntry heq

/-- **Run lemma**, for the pages of a call and for calls. -/
theorem apply_pages_fixed {cs : List PageCall} (h : M.Fixed v f) (hb : ∀ c ∈ cs, c.Below)
    (hs : ∀ c ∈ cs, c.Spares v) (happ : cs.foldlM PageCall.apply (M, pm) = some (M', pm')) :
    M'.Fixed v f := by
  induction cs generalizing M pm with
  | nil =>
    obtain rfl := (Prod.mk.inj (Option.some.inj happ)).1
    exact h
  | cons c cs ih =>
    rw [List.foldlM_cons] at happ
    obtain ⟨⟨M₁, pm₁⟩, h₁, hrest⟩ := Option.bind_eq_some_iff.mp happ
    have hone := PageCall.apply_fixed h (hb c List.mem_cons_self) (hs c List.mem_cons_self) h₁
    exact ih hone (fun d hd => hb d (List.mem_cons_of_mem _ hd))
      (fun d hd => hs d (List.mem_cons_of_mem _ hd)) hrest

end Fixed

/-! ### From boot on -/

/-- Where the kernel finds a physical address of the first 4 MiB, or what it finds at `v`. -/
def kernelPhys (v : BitVec 32) : Option (BitVec 32) :=
  if v.toNat < 0x400000 then some v
  else if 0xe0000000 ≤ v.toNat ∧ v.toNat < 0xe0400000 then some (v2p v)
  else none

section Kernel

variable {v F f pa : BitVec 32}

/-- A supervisor entry of the boot tables. -/
theorem bootMap_fixed (htable : (bootMap.table (vmPdirIdx v)).isSome)
    (hentry : bootMap.entry (palignDown v) = F ||| f) (hF : F.toNat % 4096 = 0)
    (hf : f.toNat < 4096) (hp : Present f) (hu : f &&& pteU = 0#32) : bootMap.Fixed v F := by
  refine ⟨htable, ?_, ?_, ?_⟩ <;> rw [hentry]
  · exact present_or_right hp
  · rw [palignDown_or hf, palignDown_of_aligned hF]
  · rw [Bool.eq_false_iff, ne_eq, forUser_iff, not_not, entry_and hF (by decide), hu]

/-- The entries of the two tables. -/
theorem bootMap_entry (w : BitVec 32) : bootMap.entry (palignDown w)
    = if vmPdirIdx w = 0#32 then pageTable0Entry (vmPtabIdx w)
      else kernelPageTableEntry (vmPtabIdx w) := by
  show (if vmPdirIdx (palignDown w) = 0#32 then _ else _) = _
  rw [vmPdirIdx_palignDown, vmPtabIdx_palignDown]

/-- The two regions. -/
theorem kernelPhys_cases (v : BitVec 32) :
    (vmPdirIdx v = 0#32 ∧ kernelPhys v = some v ∧ vmPtabIdx v * 4096#32 = palignDown v) ∨
    (vmPdirIdx v = 896#32 ∧ kernelPhys v = some (v2p v) ∧
      pageOffset (v2p v) = pageOffset v ∧ vmPtabIdx v * 4096#32 = palignDown (v2p v)) ∨
    (vmPdirIdx v ≠ 0#32 ∧ vmPdirIdx v ≠ 896#32 ∧ kernelPhys v = none) := by
  have htab : (vmPtabIdx v * 4096#32).toNat = v.toNat / 4096 % 1024 * 4096 := by
    rw [BitVec.toNat_mul, BitVec.toNat_ofNat, vmPtabIdx_toNat]
    omega
  have hidx : ∀ {k : Nat}, k < 1024 → (vmPdirIdx v = BitVec.ofNat 32 k ↔ v.toNat / 2 ^ 22 = k) := by
    intro k hk
    rw [← BitVec.toNat_inj, vmPdirIdx_toNat, BitVec.toNat_ofNat, Nat.mod_eq_of_lt (by omega)]
  have h₀ : vmPdirIdx v = 0#32 ↔ v.toNat / 2 ^ 22 = 0 := hidx (k := 0) (by decide)
  have h₁ : vmPdirIdx v = 896#32 ↔ v.toNat / 2 ^ 22 = 896 := hidx (k := 896) (by decide)
  unfold kernelPhys
  by_cases hlow : v.toNat < 0x400000
  · refine Or.inl ⟨h₀.mpr (by omega), if_pos hlow, ?_⟩
    apply BitVec.eq_of_toNat_eq
    rw [htab, palignDown_toNat]
    omega
  · rw [if_neg hlow]
    by_cases hhigh : 0xe0000000 ≤ v.toNat ∧ v.toNat < 0xe0400000
    · have hphys : (v2p v).toNat = v.toNat - 0xe0000000 := by
        rw [v2p, kernVoff, BitVec.toNat_sub, BitVec.toNat_ofNat]
        omega
      refine Or.inr (Or.inl ⟨h₁.mpr (by omega), if_pos hhigh, ?_, ?_⟩)
      · apply BitVec.eq_of_toNat_eq
        rw [pageOffset_toNat, pageOffset_toNat, hphys]
        omega
      · apply BitVec.eq_of_toNat_eq
        rw [htab, palignDown_toNat, hphys]
        omega
    · refine Or.inr (Or.inr ⟨fun h => ?_, fun h => ?_, if_neg hhigh⟩)
      · have := h₀.mp h
        omega
      · have := h₁.mp h
        omega

/-- **The kernel's pages** at boot: fixed, with the offset kept. -/
theorem kernelPhys_fixed (h : kernelPhys v = some pa) :
    pageOffset pa = pageOffset v ∧ bootMap.Fixed v (palignDown pa) := by
  have haligned : (vmPtabIdx v * 4096#32).toNat % 4096 = 0 := by
    rw [BitVec.toNat_mul, BitVec.toNat_ofNat]
    omega
  rcases kernelPhys_cases v with ⟨hidx, hphys, hframe⟩ | ⟨hidx, hphys, hoff, hframe⟩ | ⟨-, -, hno⟩
  · obtain rfl := Option.some.inj (hphys.symm.trans h)
    rw [← hframe]
    refine ⟨rfl, bootMap_fixed (f := 3#32) ?_ ?_ haligned (by decide) (by decide) (by decide)⟩
    · rw [hidx]
      rfl
    · rw [bootMap_entry, if_pos hidx, pageTable0Entry]
  · obtain rfl := Option.some.inj (hphys.symm.trans h)
    rw [← hframe]
    refine ⟨hoff, bootMap_fixed (f := 0x1b#32) ?_ ?_ haligned (by decide) (by decide) (by decide)⟩
    · rw [hidx]
      rfl
    · rw [bootMap_entry, if_neg (by rw [hidx]; decide), kernelPageTableEntry, BitVec.or_assoc,
        BitVec.or_assoc]
      rfl
  · exact absurd (h.symm.trans hno) nofun

/-- A fixed page translates its addresses. -/
theorem PageMap.Fixed.translate {M : PageMap} (h : M.Fixed v (palignDown pa))
    (hoff : pageOffset pa = pageOffset v) : M.translate v = some pa := by
  rw [PageMap.translate, h.walk, Option.map_some, ← hoff, palignDown_add_pageOffset]

/-- **At boot** there is nothing else. -/
theorem bootMap_translate (v : BitVec 32) : bootMap.translate v = kernelPhys v := by
  cases h : kernelPhys v with
  | some pa =>
    obtain ⟨hoff, hfix⟩ := kernelPhys_fixed h
    exact hfix.translate hoff
  | none =>
    have hnone : bootMap.table (vmPdirIdx v) = none := by
      rcases kernelPhys_cases v with ⟨-, hphys, -⟩ | ⟨-, hphys, -⟩ | ⟨h₀, h₁, -⟩
      · exact absurd (h.symm.trans hphys) nofun
      · exact absurd (h.symm.trans hphys) nofun
      · exact if_neg (not_or.mpr ⟨h₀, h₁⟩)
    rw [PageMap.translate, PageMap.walk, if_neg]
    · rfl
    · rw [hnone]
      exact fun hand => absurd hand.1 (by decide)

end Kernel

section Boot

variable {τ : Type} [Tlb τ] {m : Machine τ} {s : Session τ} {tr : List SpaceOp} {n : Nat}

/-- A run of calls that spare the page of `v`, on page maps. -/
theorem Session.Follows.fixed {s₀ : Session τ} {M : PageMap} {v f : BitVec 32} (h : s₀.Follows n M)
    (hfix : M.Fixed v f) (hrun : Run (SpaceStep n) s₀ tr s) (hn : s.returned.length ≤ n)
    (hspare : ∀ op ∈ tr, op.Spares v) : ∃ M', s.Follows n M' ∧ M'.Fixed v f := by
  refine hrun.invariant (J := fun tr s => s.returned.length ≤ n → (∀ op ∈ tr, op.Spares v) →
    ∃ M', s.Follows n M' ∧ M'.Fixed v f) (fun _ _ => ⟨M, h, hfix⟩) ?_ hn hspare
  intro tr a op b ih hstep hb hsp
  obtain ⟨Ma, ha, hfa⟩ :=
    ih (hstep.length_le.trans hb) fun o ho => hsp o (List.mem_append_left _ ho)
  obtain ⟨Mb, happ, hb'⟩ := hstep.follows ha hb
  refine ⟨Mb, hb', ?_⟩
  have hop := hsp op (List.mem_append_right _ (List.mem_singleton_self op))
  cases op with
  | call c => exact apply_pages_fixed hfa hstep.1 hop happ
  | take =>
    obtain rfl := (Prod.mk.inj (Option.some.inj happ)).1
    exact hfa
  | work =>
    obtain rfl := (Prod.mk.inj (Option.some.inj happ)).1
    exact hfa

/-- **The kernel stays mapped.**  The address space of `_start` maps the first 4 MiB of memory at 0
    and at `KERN_VOFF`, and nothing else below the windows.  Let `n` frames be in stock that
    `pm_alloc` returns next, cleared and not in use.  After any run of the functions of
    `kernel/vm.c`, with flags below `0x20`, of other calls of `pm_alloc` and of other work outside
    the tables and the stock, that takes at most `n` frames, an address of these 8 MiB that no call
    unmapped, and none changed unless to a supervisor page again, still stands for the same physical
    address, and user code does not get there. -/
theorem kernel_stays_mapped (h : PreambleLoaded m.mem)
    (hsup : Supply Set.univ {pageDirectory} (start m).mem n m.pm)
    (hrun : Run (SpaceStep n) ⟨start m, []⟩ tr s) (hn : s.returned.length ≤ n) {v : BitVec 32} :
    (v.toNat < 0xffc00000 → hwTranslate (start m).mem (start m).cr3 v = kernelPhys v) ∧
      ∀ pa, kernelPhys v = some pa → (∀ op ∈ tr, op.Spares v) →
        hwTranslate s.machine.mem s.machine.cr3 v = some pa ∧
          userWalk s.machine.mem s.machine.cr3 v = none := by
  have hshows := shows_start h
  refine ⟨fun hv => ?_, fun pa hpa hspare => ?_⟩
  · rw [hshows.translate hv, bootMap_translate]
  · obtain ⟨hoff, hfix⟩ := kernelPhys_fixed hpa
    have hv : v.toNat < 0xffc00000 := by
      unfold kernelPhys at hpa
      split at hpa
      · omega
      · split at hpa
        · omega
        · exact absurd hpa nofun
    obtain ⟨M, hM, hfix'⟩ := (FreshStart.follows (freshStart_start h) hsup hshows).fixed hfix hrun
      hn hspare
    refine ⟨(hM.shows.translate hv).trans (hfix'.translate hoff), ?_⟩
    exact (hM.shows.userWalk hv).trans hfix'.userWalk

end Boot

/-! ### The image, and the trampoline -/

/-- The preamble, and zeros. -/
def preambleWord (a : BitVec 32) : BitVec 32 :=
  if palignDown a = pageDirectory then pageDirectoryEntry (pageOffset a >>> 2)
  else if palignDown a = pageTable0 then pageTable0Entry (pageOffset a >>> 2)
  else if palignDown a = kernelPageTable then kernelPageTableEntry (pageOffset a >>> 2)
  else 0#32

/-- The bytes of the preamble are loaded where they belong. -/
theorem loaded_preamble : PreambleLoaded (ofWords preambleWord) := by
  have hword : ∀ {c i : BitVec 32}, c.toNat % 4096 = 0 → i.toNat < 1024 →
      tableEntry (ofWords preambleWord) c i = preambleWord (c + 4#32 * i) ∧
        palignDown (c + 4#32 * i) = c ∧ pageOffset (c + 4#32 * i) >>> 2 = i := by
    intro c i hc hi
    have hslot := slot_toNat hc hi
    refine ⟨read32_ofWords _ (by omega), ?_, ?_⟩
    · apply BitVec.eq_of_toNat_eq
      rw [palignDown_toNat, hslot]
      omega
    · apply BitVec.eq_of_toNat_eq
      rw [BitVec.toNat_ushiftRight, pageOffset_toNat, hslot, Nat.shiftRight_eq_div_pow]
      omega
  refine ⟨fun i hi => ?_, fun i hi => ?_, fun i hi => ?_⟩
  · obtain ⟨hread, hpage, hidx⟩ := hword (c := pageDirectory) (by decide) hi
    rw [hread, preambleWord, hpage, hidx, if_pos rfl]
  · obtain ⟨hread, hpage, hidx⟩ := hword (c := pageTable0) (by decide) hi
    rw [hread, preambleWord, hpage, hidx, if_neg (by decide), if_pos rfl]
  · obtain ⟨hread, hpage, hidx⟩ := hword (c := kernelPageTable) (by decide) hi
    rw [hread, preambleWord, hpage, hidx, if_neg (by decide), if_neg (by decide), if_pos rfl]

/-- The machine that `_start` finds. -/
def bareMachine : Machine Unit :=
  { mem := ofWords preambleWord, cr3 := 0#32, tlb := (), pm := ⟨fun _ => 0#32, 0xe0800000#32⟩ }

/-- `smp_init` makes the page of the trampoline uncached: the kernel still finds it at 0x8000. -/
theorem kernel_stays_mapped_trampoline : ∃ m' : Machine Unit,
    vmChangePagesAttrs 0x8000#32 0x1b#32 0x1000#32 (start bareMachine) = .ok ((), m') ∧
      hwTranslate m'.mem m'.cr3 0x8010#32 = some 0x8010#32 ∧
      userWalk m'.mem m'.cr3 0x8010#32 = none := by
  have htest : ((vmChangePagesAttrsLoop 0x1b#32 1 0x8000#32 (start bareMachine)).toOption.map
      fun _ => true) = some true := by decide +kernel
  obtain ⟨⟨⟩, m', hm', -⟩ := ok_of_test htest
  have hrun := vmChangePagesAttrs_run (N := 0) (r := []) (by decide) (by decide) hm'
  have hsup : Supply Set.univ {pageDirectory} (start bareMachine).mem 0 (start bareMachine).pm :=
    ⟨List.nodup_nil, nofun, nofun, nofun⟩
  have hspare : ∀ op ∈ attrsCalls 0x1b#32 1 0x8000#32, op.Spares 0x8010#32 := by
    intro op hop
    obtain rfl := List.mem_singleton.mp hop
    intro page hpage
    obtain rfl := List.mem_singleton.mp hpage
    exact fun _ => by decide
  obtain ⟨-, hkept⟩ := kernel_stays_mapped (v := 0x8010#32) loaded_preamble hsup hrun le_rfl
  exact ⟨m', hm', hkept _ (by decide) hspare⟩

end Leoman
