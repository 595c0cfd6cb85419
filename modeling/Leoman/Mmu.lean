import Leoman.Lib.ByteMem
import Leoman.Lib.StateExcept
import Leoman.Pm

namespace Leoman

open ByteMem StateExcept

/-!
# The machine under the kernel

Physical memory, `cr3`, a TLB and the physical page manager.  Every access of the kernel to
memory goes through `translate`: a TLB hit, else the two-level walk of the page tables, whose
result the TLB may keep.

* `Tlb τ` — what is known of the TLB: it may retain any present translation used since the
  last `cr3` load or `invlpg` of that page, and nothing else.  `Unit` retains nothing (every
  access walks the tables), `RetainAll` keeps everything it may;
* `walk` — the hardware walk (32-bit paging, 4 KiB pages; the kernel never sets `CR4.PSE`);
* `Coherent` — no retained translation differs from the walk.  Under it an access resolves as
  the walk does (`translate_of_walk`), and so do aligned loads and stores.
-/

/-- How kernel code stops: `halt()`, a page fault (`screen_of_death`, which hangs), or the use
    of a null pointer where the model does not follow the code any further. -/
inductive Trap where
  | halt
  | pageFault (vaddr : BitVec 32)
  | nullPointer
deriving DecidableEq, Repr

/-! ### The TLB -/

/-- A translation cache from pages to frames, both given by their first address. -/
class Tlb (τ : Type) where
  lookup : τ → BitVec 32 → Option (BitVec 32)
  fill : τ → BitVec 32 → BitVec 32 → τ
  invlpg : τ → BitVec 32 → τ
  flush : τ → τ
  lookup_fill : ∀ {t p f q g}, lookup (fill t p f) q = some g →
    (q = p ∧ g = f) ∨ lookup t q = some g
  lookup_invlpg : ∀ {t p q g}, lookup (invlpg t p) q = some g → q ≠ p ∧ lookup t q = some g
  lookup_flush : ∀ {t q}, lookup (flush t) q = none

/-- The TLB that retains nothing. -/
instance : Tlb Unit where
  lookup _ _ := none
  fill _ _ _ := ()
  invlpg _ _ := ()
  flush _ := ()
  lookup_fill h := absurd h (by simp)
  lookup_invlpg h := absurd h (by simp)
  lookup_flush := rfl

/-- The TLB that retains everything it may. -/
structure RetainAll where
  entries : BitVec 32 → Option (BitVec 32)

instance : Tlb RetainAll where
  lookup t p := t.entries p
  fill t p f := ⟨Function.update t.entries p (some f)⟩
  invlpg t p := ⟨Function.update t.entries p none⟩
  flush _ := ⟨fun _ => none⟩
  lookup_fill {t p f q g} h := by
    simp only at h
    by_cases hq : q = p
    · subst hq
      rw [Function.update_self, Option.some.injEq] at h
      exact Or.inl ⟨rfl, h.symm⟩
    · rw [Function.update_of_ne hq] at h
      exact Or.inr h
  lookup_invlpg {t p q g} h := by
    simp only at h
    by_cases hq : q = p
    · subst hq
      rw [Function.update_self] at h
      exact absurd h (by simp)
    · rw [Function.update_of_ne hq] at h
      exact ⟨hq, h⟩
  lookup_flush := rfl

/-! ### Page tables in memory -/

/-- The machine. -/
structure Machine (τ : Type) where
  mem : Mem
  cr3 : BitVec 32
  tlb : τ
  pm : Pm

/-- Entry `idx` of the directory or table in the frame `base`. -/
def tableEntry (mem : Mem) (base idx : BitVec 32) : BitVec 32 := read32 mem (base + 4#32 * idx)

/-- `PDE_P` and `PTE_P`, the present bit of both kinds of entry. -/
def pteP : BitVec 32 := 1#32

/-- The walk: the frame of the page of `vaddr`, when both entries are present. -/
def walk (mem : Mem) (cr3 vaddr : BitVec 32) : Option (BitVec 32) :=
  let pde := tableEntry mem (palignDown cr3) (vmPdirIdx vaddr)
  if pde &&& pteP = 0#32 then none
  else
    let pte := tableEntry mem (palignDown pde) (vmPtabIdx vaddr)
    if pte &&& pteP = 0#32 then none else some (palignDown pte)

/-- The hardware translation of an address. -/
def hwTranslate (mem : Mem) (cr3 vaddr : BitVec 32) : Option (BitVec 32) :=
  (walk mem cr3 vaddr).map (· + pageOffset vaddr)

/-- The walk depends on the page of the address only. -/
theorem walk_palignDown (mem : Mem) (cr3 v : BitVec 32) :
    walk mem cr3 (palignDown v) = walk mem cr3 v := by
  simp only [walk, vmPdirIdx_palignDown, vmPtabIdx_palignDown]

/-- The address of a slot, read as a number. -/
theorem slot_toNat {b i : BitVec 32} (hb : b.toNat % 4096 = 0) (hi : i.toNat < 1024) :
    (b + 4#32 * i).toNat = b.toNat + 4 * i.toNat := by
  have := b.isLt
  simp only [BitVec.toNat_add, BitVec.toNat_mul, BitVec.toNat_ofNat]
  omega

/-- Storing a slot and reading it back. -/
@[simp] theorem tableEntry_write_self (mem : Mem) (b i v : BitVec 32) :
    tableEntry (write32 mem (b + 4#32 * i) v) b i = v := read32_write32_self _ _ _

/-- Storing a slot leaves every other slot of every frame alone. -/
theorem tableEntry_write_of_ne {mem : Mem} {b c i j v : BitVec 32} (hb : b.toNat % 4096 = 0)
    (hc : c.toNat % 4096 = 0) (hi : i.toNat < 1024) (hj : j.toNat < 1024)
    (hne : b ≠ c ∨ i ≠ j) :
    tableEntry (write32 mem (b + 4#32 * i) v) c j = tableEntry mem c j := by
  have hsi := slot_toNat hb hi
  have hsj := slot_toNat hc hj
  refine read32_write32_of_disjoint fun x hx =>
    disjoint_of_aligned (by omega) (by omega) ?_ hx
  intro heq
  have heq' := congrArg BitVec.toNat heq
  rw [hsi, hsj] at heq'
  have hbc : b = c := BitVec.eq_of_toNat_eq (by omega)
  have hij : i = j := BitVec.eq_of_toNat_eq (by omega)
  exact hne.elim (fun h => h hbc) (fun h => h hij)

/-! ### Accesses -/

section Access

variable {τ : Type} [Tlb τ]

/-- Resolve an address: the TLB first, else the walk, which fills the TLB. -/
def translate (vaddr : BitVec 32) : Code Trap (Machine τ) (BitVec 32) := fun m =>
  match Tlb.lookup m.tlb (palignDown vaddr) with
  | some frame => .ok (frame + pageOffset vaddr, m)
  | none =>
    match walk m.mem m.cr3 vaddr with
    | none => .error (.pageFault vaddr)
    | some frame =>
      .ok (frame + pageOffset vaddr, { m with tlb := Tlb.fill m.tlb (palignDown vaddr) frame })

/-- Read a byte. -/
def load8 (vaddr : BitVec 32) : Code Trap (Machine τ) (BitVec 8) := do
  let pa ← translate vaddr
  return (← get).mem pa

/-- Write a byte. -/
def store8 (vaddr : BitVec 32) (v : BitVec 8) : Code Trap (Machine τ) Unit := do
  let pa ← translate vaddr
  modify fun m => { m with mem := write8 m.mem pa v }

/-- Read a word.  Its bytes are translated one by one: it may cross into another page. -/
def load32 (vaddr : BitVec 32) : Code Trap (Machine τ) (BitVec 32) := do
  let pa₀ ← translate vaddr
  let pa₁ ← translate (vaddr + 1#32)
  let pa₂ ← translate (vaddr + 2#32)
  let pa₃ ← translate (vaddr + 3#32)
  let m := (← get).mem
  return m pa₃ ++ m pa₂ ++ m pa₁ ++ m pa₀

/-- Write a word.  All its bytes are translated before any is written. -/
def store32 (vaddr v : BitVec 32) : Code Trap (Machine τ) Unit := do
  let pa₀ ← translate vaddr
  let pa₁ ← translate (vaddr + 1#32)
  let pa₂ ← translate (vaddr + 2#32)
  let pa₃ ← translate (vaddr + 3#32)
  modify fun m =>
    { m with mem := write8 (write8 (write8 (write8 m.mem pa₀ (v.extractLsb' 0 8))
        pa₁ (v.extractLsb' 8 8)) pa₂ (v.extractLsb' 16 8)) pa₃ (v.extractLsb' 24 8) }

/-- `memcpy`: byte by byte, forwards. -/
def memcpy (dst src : BitVec 32) : Nat → Code Trap (Machine τ) Unit
  | 0 => pure ()
  | n + 1 => do
    let b ← load8 src
    store8 dst b
    memcpy (dst + 1#32) (src + 1#32) n

/-- `memset`. -/
def memset (dst : BitVec 32) (ch : BitVec 8) : Nat → Code Trap (Machine τ) Unit
  | 0 => pure ()
  | n + 1 => do
    store8 dst ch
    memset (dst + 1#32) ch n

/-- `vm_flush_page`. -/
def vmFlushPage (vaddr : BitVec 32) : Code Trap (Machine τ) Unit :=
  modify fun m => { m with tlb := Tlb.invlpg m.tlb (vaddr &&& 0xfffff000#32) }

/-- `set_cr3`, which empties the TLB. -/
def setCr3 (pdir : BitVec 32) : Code Trap (Machine τ) Unit :=
  modify fun m => { m with cr3 := pdir, tlb := Tlb.flush m.tlb }

/-- Call the physical page allocator. -/
def pmAllocPage : Code Trap (Machine τ) (BitVec 32) := fun m =>
  .ok ((pmAlloc m.pm).1, { m with pm := (pmAlloc m.pm).2 })

/-! ### Coherence -/

/-- Every retained translation is the one the tables in `mem` give. -/
def Coherent (t : τ) (mem : Mem) (cr3 : BitVec 32) : Prop :=
  ∀ p f, Tlb.lookup t p = some f → walk mem cr3 p = some f

/-- What `t'` retains and `t` did not are translations of pages in `P`. -/
def OnlyNew (P : BitVec 32 → Prop) (t t' : τ) : Prop :=
  ∀ q g, Tlb.lookup t' q = some g → Tlb.lookup t q = some g ∨ P q

theorem OnlyNew.refl (P : BitVec 32 → Prop) (t : τ) : OnlyNew P t t := fun _ _ h => Or.inl h

theorem OnlyNew.trans {P : BitVec 32 → Prop} {t t' t'' : τ} (h : OnlyNew P t t')
    (h' : OnlyNew P t' t'') : OnlyNew P t t'' := fun q g hq =>
  (h' q g hq).elim (h q g) Or.inr

theorem OnlyNew.mono {P Q : BitVec 32 → Prop} {t t' : τ} (h : OnlyNew P t t')
    (hPQ : ∀ q, P q → Q q) : OnlyNew Q t t' := fun q g hq => (h q g hq).imp_right (hPQ q)

/-- A coherent TLB and a successful walk: the access resolves as the walk says, and the TLB
    stays coherent and retains at most this page besides. -/
theorem translate_of_walk {m : Machine τ} (hc : Coherent m.tlb m.mem m.cr3) {v f : BitVec 32}
    (hw : walk m.mem m.cr3 v = some f) :
    ∃ t, translate v m = .ok (f + pageOffset v, { m with tlb := t }) ∧
      Coherent t m.mem m.cr3 ∧ OnlyNew (· = palignDown v) m.tlb t := by
  unfold translate
  cases hl : Tlb.lookup m.tlb (palignDown v) with
  | some g =>
    have hg := hc _ _ hl
    rw [walk_palignDown, hw, Option.some.injEq] at hg
    exact ⟨m.tlb, by simp [hg], hc, OnlyNew.refl _ _⟩
  | none =>
    refine ⟨Tlb.fill m.tlb (palignDown v) f, by simp only [hw], ?_, ?_⟩
    · intro p g hp
      rcases Tlb.lookup_fill hp with ⟨rfl, rfl⟩ | hp
      · rw [walk_palignDown, hw]
      · exact hc p g hp
    · intro p g hp
      exact (Tlb.lookup_fill hp).symm.imp_right And.left

/-- A coherent TLB and a failing walk: a page fault. -/
theorem translate_fault {m : Machine τ} (hc : Coherent m.tlb m.mem m.cr3) {v : BitVec 32}
    (hw : walk m.mem m.cr3 v = none) : translate v m = .error (.pageFault v) := by
  unfold translate
  cases hl : Tlb.lookup m.tlb (palignDown v) with
  | some g =>
    have hg := hc _ _ hl
    rw [walk_palignDown, hw] at hg
    exact absurd hg (by simp)
  | none => simp [hw]

/-- The bytes of an aligned word lie in one page. -/
theorem palignDown_add_byte {v : BitVec 32} (hv : v.toNat % 4 = 0) {k : Nat}
    (hk : k < 4) : palignDown (v + BitVec.ofNat 32 k) = palignDown v ∧
      pageOffset (v + BitVec.ofNat 32 k) = pageOffset v + BitVec.ofNat 32 k := by
  have hadd : (v + BitVec.ofNat 32 k).toNat = v.toNat + k := by
    rw [BitVec.toNat_add, BitVec.toNat_ofNat]
    omega
  constructor
  · apply BitVec.eq_of_toNat_eq
    rw [palignDown_toNat, palignDown_toNat, hadd]
    omega
  · apply BitVec.eq_of_toNat_eq
    rw [pageOffset_toNat, hadd, BitVec.toNat_add, pageOffset_toNat, BitVec.toNat_ofNat]
    omega

/-- The four translations of an aligned word access. -/
theorem translate_word {m : Machine τ} (hc : Coherent m.tlb m.mem m.cr3) {v f : BitVec 32}
    (hv : v.toNat % 4 = 0) (hw : walk m.mem m.cr3 v = some f) {β : Type}
    (k : BitVec 32 → BitVec 32 → BitVec 32 → BitVec 32 → Code Trap (Machine τ) β) :
    ∃ t, (do
      let pa₀ ← translate v
      let pa₁ ← translate (v + 1#32)
      let pa₂ ← translate (v + 2#32)
      let pa₃ ← translate (v + 3#32)
      k pa₀ pa₁ pa₂ pa₃ : Code Trap (Machine τ) β) m
        = k (f + pageOffset v) (f + pageOffset v + 1#32) (f + pageOffset v + 2#32)
            (f + pageOffset v + 3#32) { m with tlb := t } ∧ Coherent t m.mem m.cr3 ∧
        OnlyNew (· = palignDown v) m.tlb t := by
  have hbyte : ∀ i : Nat, i < 4 → ∀ t : τ, Coherent t m.mem m.cr3 →
      ∃ t', translate (v + BitVec.ofNat 32 i) { m with tlb := t }
          = .ok (f + pageOffset v + BitVec.ofNat 32 i, { m with tlb := t' }) ∧
        Coherent t' m.mem m.cr3 ∧ OnlyNew (· = palignDown v) t t' := by
    intro i hi t ht
    obtain ⟨hpage, hoff⟩ := palignDown_add_byte hv hi
    have hwi : walk m.mem m.cr3 (v + BitVec.ofNat 32 i) = some f := by
      rw [← walk_palignDown, hpage, walk_palignDown, hw]
    obtain ⟨t', h', hc', hn'⟩ := translate_of_walk (m := { m with tlb := t }) ht hwi
    refine ⟨t', ?_, hc', ?_⟩
    · rw [h', hoff, BitVec.add_assoc]
    · rw [hpage] at hn'
      exact hn'
  obtain ⟨t₀, h₀, hc₀, hn₀⟩ := translate_of_walk hc hw
  obtain ⟨t₁, h₁, hc₁, hn₁⟩ := hbyte 1 (by omega) t₀ hc₀
  obtain ⟨t₂, h₂, hc₂, hn₂⟩ := hbyte 2 (by omega) t₁ hc₁
  obtain ⟨t₃, h₃, hc₃, hn₃⟩ := hbyte 3 (by omega) t₂ hc₂
  refine ⟨t₃, ?_, hc₃, ((hn₀.trans hn₁).trans hn₂).trans hn₃⟩
  rw [run_bind_of_ok h₀, run_bind_of_ok h₁, run_bind_of_ok h₂, run_bind_of_ok h₃]

/-- An aligned load from a mapped page. -/
theorem load32_of_walk {m : Machine τ} (hc : Coherent m.tlb m.mem m.cr3) {v f : BitVec 32}
    (hv : v.toNat % 4 = 0) (hw : walk m.mem m.cr3 v = some f) :
    ∃ t, load32 v m = .ok (read32 m.mem (f + pageOffset v), { m with tlb := t }) ∧
      Coherent t m.mem m.cr3 ∧ OnlyNew (· = palignDown v) m.tlb t :=
  translate_word hc hv hw (fun pa₀ pa₁ pa₂ pa₃ => do
    let m := (← get).mem
    return m pa₃ ++ m pa₂ ++ m pa₁ ++ m pa₀)

/-- An aligned store to a mapped page. -/
theorem store32_of_walk {m : Machine τ} (hc : Coherent m.tlb m.mem m.cr3) {v f x : BitVec 32}
    (hv : v.toNat % 4 = 0) (hw : walk m.mem m.cr3 v = some f) :
    ∃ t, store32 v x m
        = .ok ((), { m with mem := write32 m.mem (f + pageOffset v) x, tlb := t }) ∧
      Coherent t m.mem m.cr3 ∧ OnlyNew (· = palignDown v) m.tlb t := by
  obtain ⟨t, ht, hc'⟩ := translate_word hc hv hw (fun pa₀ pa₁ pa₂ pa₃ =>
    (modify fun m => { m with mem := write8 (write8 (write8 (write8 m.mem pa₀ (x.extractLsb' 0 8))
        pa₁ (x.extractLsb' 8 8)) pa₂ (x.extractLsb' 16 8)) pa₃ (x.extractLsb' 24 8) } :
      Code Trap (Machine τ) Unit))
  refine ⟨t, ?_, hc'⟩
  rw [store32, ht, run_modify, write8_four]

/-- An aligned access to an unmapped page. -/
theorem load32_fault {m : Machine τ} (hc : Coherent m.tlb m.mem m.cr3) {v : BitVec 32}
    (hw : walk m.mem m.cr3 v = none) : load32 v m = .error (.pageFault v) :=
  run_bind_of_error (translate_fault hc hw)

theorem store32_fault {m : Machine τ} (hc : Coherent m.tlb m.mem m.cr3) {v x : BitVec 32}
    (hw : walk m.mem m.cr3 v = none) : store32 v x m = .error (.pageFault v) :=
  run_bind_of_error (translate_fault hc hw)

end Access

end Leoman
