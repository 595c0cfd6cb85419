import Leoman.Boot
import Leoman.KernelProcess
import Leoman.KernelSpace
import Leoman.Lib.WordStack
import Leoman.Sar

namespace Leoman

open ByteMem StateExcept WordStack

/-!
# The name directory (`proc_find_by_name`)

`proc_new` copies the 32 bytes at `name` into the slot it takes, whatever follows the string in
them, and `proc_find_by_name` compares with the hand-written `strcmp`.

* `streq_eq_strcmp`, `streq_strings` — the comparison, and what it decides about two strings;
* `Rostered names k` — the process table after one `proc_new` for each of `names`, a step lemma
  (`Rostered.procNew`) and its run (`Rostered.procNews`);
* `procFindByName_finds` — the answer to every question;
* `procNew_completes` — `proc_new` on a machine whose pool is mapped, for a boot that ends.
-/

/-! ### Strings -/

/-- The two bytes `strcmp` subtracts are equal when the difference is zero. -/
theorem byte_diff_eq_zero {a b : BitVec 8} : (a.toNat : Int) - b.toNat = 0 ↔ a = b := by
  rw [← BitVec.toNat_inj]
  omega

/-- `streq` is `strcmp(..) == 0`, of the strings at `a` and `b` in any memory. -/
theorem streq_eq_strcmp {mem : Mem} {a b : BitVec 32} {s₁ s₂ : Nat → BitVec 8}
    (h₁ : ∀ i, s₁ i = mem (a + BitVec.ofNat 32 i)) (h₂ : ∀ i, s₂ i = mem (b + BitVec.ofNat 32 i))
    (n i : Nat) : streq s₁ s₂ n i
      = (strcmp mem n (a + BitVec.ofNat 32 i) (b + BitVec.ofNat 32 i)).map (· == 0) := by
  induction n generalizing i with
  | zero => rfl
  | succ n ih =>
    have hnext : ∀ c : BitVec 32, c + BitVec.ofNat 32 i + 1#32 = c + BitVec.ofNat 32 (i + 1) := by
      intro c
      rw [BitVec.add_assoc, BitVec.ofNat_add_ofNat]
    unfold streq strcmp
    rw [h₁ i, h₂ i, hnext, hnext]
    split
    · split
      · rfl
      · exact ih (i + 1)
    · rename_i hne
      simp [byte_diff_eq_zero, hne]

/-- The string at `bytes` from byte `i` on, cut off after `n` characters. -/
def stringFrom (bytes : Nat → BitVec 8) : Nat → Nat → List (BitVec 8)
  | 0, _ => []
  | n + 1, i => if bytes i = 0#8 then [] else bytes i :: stringFrom bytes n (i + 1)

/-- The name at `bytes`. -/
def nameAt (bytes : Nat → BitVec 8) : List (BitVec 8) := stringFrom bytes 32 0

/-- A name of one to 31 characters and its end. -/
def IsName (bytes : Nat → BitVec 8) : Prop :=
  1 ≤ (nameAt bytes).length ∧ (nameAt bytes).length ≤ 31

instance (bytes : Nat → BitVec 8) : Decidable (IsName bytes) := inferInstanceAs (Decidable (_ ∧ _))

/-- The bytes `proc_new` copies, read as a string; the byte behind them is zero. -/
def rawBytes (name : Vector (BitVec 8) 32) (i : Nat) : BitVec 8 := name.toList.getD i 0#8

/-- **The comparison** of two strings that end in time. -/
theorem streq_strings {s₁ s₂ : Nat → BitVec 8} {n rounds i : Nat} (hn : n ≤ rounds)
    (h₁ : (stringFrom s₁ n i).length < n) (h₂ : (stringFrom s₂ n i).length < n) :
    streq s₁ s₂ rounds i = some (decide (stringFrom s₁ n i = stringFrom s₂ n i)) := by
  induction n generalizing rounds i with
  | zero => exact absurd h₁ (by simp)
  | succ n ih =>
    obtain ⟨rounds, rfl⟩ : ∃ r, rounds = r + 1 := ⟨rounds - 1, by omega⟩
    unfold streq
    unfold stringFrom at h₁ h₂ ⊢
    by_cases he₁ : s₁ i = 0#8
    · by_cases he₂ : s₂ i = 0#8
      · simp [he₁, he₂]
      · -- the first string ends here
        simp [he₁, he₂, Ne.symm he₂]
    · by_cases he₂ : s₂ i = 0#8
      · simp [he₁, he₂]
      · rw [if_neg he₁] at h₁
        rw [if_neg he₂] at h₂
        rw [List.length_cons] at h₁ h₂
        have hrest : streq s₁ s₂ rounds (i + 1) = _ := ih (by omega) (by omega) (by omega)
        by_cases heq : s₁ i = s₂ i
        · rw [if_pos heq, if_neg he₁, hrest]
          simp [he₂, heq]
        · simp [he₁, he₂, heq]

/-! ### The table -/

section Roster

variable {τ : Type}

/-- The table after one `proc_new` for each of `names`: the slots are taken in order, and every
    slot holds the bytes it was created with. -/
structure Rostered (names : List (Vector (BitVec 8) 32)) (k : Kernel τ) : Prop where
  creating : Creating names.length k
  name : ∀ s : Slot, (k.procs s).name = names.getD s.val (Vector.replicate 32 0#8)

/-- Before the first process there are no names. -/
theorem cleared_rostered (mach : Machine τ) (heap : Heap) :
    Rostered [] (Kernel.cleared mach heap) :=
  ⟨cleared_creating mach heap, fun _ => rfl⟩

/-- Who runs does not matter. -/
theorem Rostered.setCurrent {names : List (Vector (BitVec 8) 32)} {k : Kernel τ}
    (h : Rostered names k) (c : Option Slot) : Rostered names { k with currentProc := c } :=
  ⟨h.creating.setCurrent c, h.name⟩

variable [Tlb τ]

/-- The calls of `proc_new` after `proc_earlyinit`: the slots they return. -/
def procNews (procLoad : BitVec 32) :
    List (Vector (BitVec 8) 32 × Bool) → Code Trap (Kernel τ) (List Slot)
  | [] => pure []
  | (name, privileged) :: rest => do
    let s ← procNew procLoad name privileged
    let slots ← procNews procLoad rest
    return s :: slots

variable {names : List (Vector (BitVec 8) 32)} {k k' : Kernel τ} {procLoad : BitVec 32}

/-- **Step lemma.**  `proc_new` puts the name into the next slot. -/
theorem Rostered.procNew (h : Rostered names k) {name : Vector (BitVec 8) 32} {privileged : Bool}
    {s : Slot} (hrun : procNew procLoad name privileged k = .ok (s, k')) :
    s.val = names.length ∧ Rostered (names ++ [name]) k' := by
  obtain ⟨hs, hk', -, -⟩ := h.creating.procNew hrun
  refine ⟨hs, ⟨by rwa [List.length_append, List.length_singleton], fun t => ?_⟩⟩
  obtain ⟨k₁, stack, _, _, pdir, _, trapframe, mach, hfind, -, -, -, -, rfl⟩ := procNew_ok hrun
  obtain ⟨-, rfl⟩ := h.creating.find hfind s rfl
  show (Function.update k.procs s _ t).name = _
  by_cases ht : t = s
  · subst ht
    rw [Function.update_self, hs]
    simp
  · rw [Function.update_of_ne ht, h.name t]
    have hne : t.val ≠ names.length := fun e => ht (Fin.ext (e.trans hs.symm))
    rw [List.getD_eq_getElem?_getD, List.getD_eq_getElem?_getD, List.getElem?_append]
    split
    · rfl
    · rw [List.getElem?_eq_none (by omega), List.getElem?_eq_none (by simp; omega)]

/-- **Run lemma.** -/
theorem Rostered.procNews (h : Rostered names k) {calls : List (Vector (BitVec 8) 32 × Bool)}
    {slots : List Slot} (hrun : procNews procLoad calls k = .ok (slots, k')) :
    slots.map Fin.val = List.range' names.length calls.length ∧
      Rostered (names ++ calls.map Prod.fst) k' := by
  induction calls generalizing names k slots with
  | nil =>
    obtain ⟨rfl, rfl⟩ := Prod.mk.inj (Except.ok.inj hrun)
    exact ⟨rfl, by simpa using h⟩
  | cons c calls ih =>
    obtain ⟨s, k₁, h₁, hrest⟩ := bind_ok_iff.mp hrun
    obtain ⟨slots', k₂, h₂, hret⟩ := bind_ok_iff.mp hrest
    obtain ⟨rfl, rfl⟩ := Prod.mk.inj (Except.ok.inj hret)
    obtain ⟨hs, hone⟩ := h.procNew h₁
    obtain ⟨hslots, hall⟩ := ih hone h₂
    rw [List.length_append, List.length_singleton] at hslots
    refine ⟨?_, by simpa using hall⟩
    rw [List.map_cons, List.length_cons, List.range'_succ, hs, hslots]

/-- `proc_earlyinit` creates the kernel process and idle. -/
theorem procEarlyinit_rostered {mach : Machine τ} {heap : Heap}
    {kernelName idleName : Vector (BitVec 8) 32}
    (hrun : procEarlyinit procLoad kernelName idleName (Kernel.initial mach heap) = .ok ((), k)) :
    Rostered [kernelName, idleName] k := by
  obtain ⟨kernel, k₁, idle, k₂, h₁, h₂, rfl⟩ := procEarlyinit_ok hrun
  obtain ⟨-, hk₁⟩ := (cleared_rostered mach heap).procNew h₁
  obtain ⟨-, hk₂⟩ := (hk₁.setCurrent (some kernel)).procNew h₂
  exact ⟨(procEarlyinit_creating hrun).1, hk₂.name⟩

end Roster

/-! ### The answers -/

section Answers

variable {τ : Type} {names : List (Vector (BitVec 8) 32)} {k : Kernel τ} {q : Nat → BitVec 8}

/-- The process in slot `s` was created with a name equal to `q`. -/
def CreatedAs (names : List (Vector (BitVec 8) 32)) (q : Nat → BitVec 8) (s : Slot) : Prop :=
  (names[s.val]?.map fun name => nameAt (rawBytes name)) = some (nameAt q)

instance (names : List (Vector (BitVec 8) 32)) (q : Nat → BitVec 8) (s : Slot) :
    Decidable (CreatedAs names q s) := inferInstanceAs (Decidable (_ = _))

/-- The lowest slot created with a name equal to `q`. -/
def LowestAs (names : List (Vector (BitVec 8) 32)) (q : Nat → BitVec 8) (s : Slot) : Prop :=
  CreatedAs names q s ∧ ∀ t < s, ¬ CreatedAs names q t

/-- The comparison `proc_find_by_name` makes in slot `s`. -/
theorem Rostered.compare (h : Rostered names k) (hnames : ∀ name ∈ names, IsName (rawBytes name))
    (hq : IsName q) (s : Slot) :
    streq (k.procs s).nameBytes q 33 0 = some (decide (CreatedAs names q s)) := by
  have hstring : (nameAt (k.procs s).nameBytes).length ≤ 31 ∧
      (CreatedAs names q s ↔ nameAt (k.procs s).nameBytes = nameAt q) := by
    have hbytes : (k.procs s).nameBytes
        = rawBytes (names.getD s.val (Vector.replicate 32 0#8)) := by
      rw [← h.name s]
      rfl
    rw [hbytes, List.getD_eq_getElem?_getD, CreatedAs]
    cases hs : names[s.val]? with
    | none =>
      -- the slot is unused, and no name is empty
      have hempty : nameAt (rawBytes (Vector.replicate 32 0#8)) = [] := by decide
      have hne : [] ≠ nameAt q := fun e => absurd (e ▸ hq.1) (by simp)
      simp [hempty, hne]
    | some name =>
      have hname := hnames name (List.mem_of_getElem? hs)
      exact ⟨hname.2, Option.some_inj⟩
  simp only [hstring.2]
  exact streq_strings (by decide) (Nat.lt_succ_of_le hstring.1) (Nat.lt_succ_of_le hq.2)

/-- The first of `n` slots that passes a test. -/
theorem find?_finRange {n : Nat} {p : Fin n → Bool} {s : Fin n} :
    (List.finRange n).find? p = some s ↔ p s ∧ ∀ t < s, ¬ p t := by
  rw [List.find?_eq_some_iff_getElem]
  refine and_congr_right fun _ => ⟨?_, fun h => ?_⟩
  · rintro ⟨i, hi, rfl, hbefore⟩ t ht
    have := hbefore t.val (by simpa [Fin.lt_def] using ht)
    simpa using this
  · refine ⟨s.val, by simp, by simp, fun j hj => ?_⟩
    have := h ⟨j, by omega⟩ (by simpa [Fin.lt_def] using hj)
    simpa using this

/-- `proc_find_by_name` with the comparisons made. -/
theorem findByNameLoop_eq {procs : Slot → Proc} {p : Slot → Bool} (slots : List Slot)
    (hcmp : ∀ s, streq (procs s).nameBytes q 33 0 = some (p s)) :
    findByNameLoop procs q slots
      = some (((slots.find? p).map fun s => (procs s).pid).getD 0#32) := by
  induction slots with
  | nil => rfl
  | cons s slots ih =>
    unfold findByNameLoop
    rw [hcmp s, List.find?_cons]
    cases p s with
    | true => rfl
    | false => exact ih

/-- **What `proc_find_by_name` returns.** -/
theorem Rostered.procFindByName (h : Rostered names k)
    (hnames : ∀ name ∈ names, IsName (rawBytes name)) (hq : IsName q) :
    (∀ s, LowestAs names q s → k.procFindByName q = some (k.procs s).pid) ∧
      ((∀ s, ¬ CreatedAs names q s) → k.procFindByName q = some 0#32) := by
  have hloop := findByNameLoop_eq (List.finRange nprocs) (h.compare hnames hq)
  constructor
  · rintro s ⟨hs, hbefore⟩
    have hfind : (List.finRange nprocs).find? (fun s => decide (CreatedAs names q s)) = some s :=
      find?_finRange.mpr ⟨by simpa using hs, fun t ht => by simpa using hbefore t ht⟩
    rw [Kernel.procFindByName, hloop, hfind]
    rfl
  · intro hnone
    have hfind : (List.finRange nprocs).find? (fun s => decide (CreatedAs names q s)) = none := by
      rw [List.find?_eq_none]
      intro s _
      simpa using hnone s
    rw [Kernel.procFindByName, hloop, hfind]
    rfl

/-- A created process has its slot number for a pid. -/
theorem Rostered.pid (h : Rostered names k) {s : Slot} (hs : s.val < names.length) :
    (k.procs s).pid = BitVec.ofNat 32 s.val := (h.creating.created s hs).1

/-- Processes have different pids. -/
theorem Rostered.pid_inj (h : Rostered names k) {s t : Slot} (hs : s.val < names.length)
    (ht : t.val < names.length) (hpid : (k.procs s).pid = (k.procs t).pid) : s = t := by
  rw [h.pid hs, h.pid ht] at hpid
  have hs' : s.val < 64 := s.isLt
  have ht' : t.val < 64 := t.isLt
  have := congrArg BitVec.toNat hpid
  simp only [BitVec.toNat_ofNat] at this
  exact Fin.ext (by omega)

/-- A slot with a name is one of the first. -/
theorem CreatedAs.lt {s : Slot} (h : CreatedAs names q s) : s.val < names.length := by
  by_contra hge
  rw [CreatedAs, List.getElem?_eq_none (by omega)] at h
  exact absurd h (by simp)

/-- Some slot is the lowest, if there is one. -/
theorem exists_lowestAs {s : Slot} (h : CreatedAs names q s) : ∃ t, LowestAs names q t := by
  cases hfind : (List.finRange nprocs).find? (fun s => decide (CreatedAs names q s)) with
  | none =>
    rw [List.find?_eq_none] at hfind
    exact absurd h (by simpa using hfind s (List.mem_finRange s))
  | some t =>
    obtain ⟨ht, hbefore⟩ := find?_finRange.mp hfind
    exact ⟨t, by simpa using ht, fun u hu => by simpa using hbefore u hu⟩

/-- The directory answers by name and by pid for the processes created with `names`. -/
structure AnswersByName (names : List (Vector (BitVec 8) 32)) (k : Kernel τ) : Prop where
  found : ∀ q, IsName q → ∀ s, LowestAs names q s → k.procFindByName q = some (k.procs s).pid
  missing : ∀ q, IsName q → (∀ s, ¬ CreatedAs names q s) → k.procFindByName q = some 0#32
  distinct : ∀ s t : Slot, s.val < names.length → t.val < names.length →
    (k.procs s).pid = (k.procs t).pid → s = t
  byPid : ∀ q, IsName q → ∀ pid, k.procFindByName q = some pid → pid ≠ 0#32 →
    ∃ s, LowestAs names q s ∧ k.procFindByPid pid = some s

/-- The answers to all questions. -/
theorem Rostered.answers (h : Rostered names k)
    (hnames : ∀ name ∈ names, IsName (rawBytes name)) : AnswersByName names k := by
  refine ⟨fun q hq => (h.procFindByName hnames hq).1, fun q hq => (h.procFindByName hnames hq).2,
    fun s t hs ht => h.pid_inj hs ht, fun q hq pid hpid hne => ?_⟩
  obtain ⟨hfound, hmissing⟩ := h.procFindByName hnames hq
  by_cases hex : ∃ s, CreatedAs names q s
  · obtain ⟨s₀, hs₀⟩ := hex
    obtain ⟨s, hs⟩ := exists_lowestAs hs₀
    obtain rfl := Option.some.inj (hpid.symm.trans (hfound s hs))
    refine ⟨s, hs, find?_finRange.mpr ⟨by simp, fun t ht => ?_⟩⟩
    -- a lower slot is a created one, with a pid of its own
    have hs' := hs.1.lt
    have hpid' : (k.procs t).pid ≠ (k.procs s).pid := fun e =>
      (Fin.ne_of_lt ht) (h.pid_inj (by have : t.val < s.val := ht; omega) hs' e)
    simpa using hpid'
  · have hzero := hmissing fun s hs => hex ⟨s, hs⟩
    exact absurd (Option.some.inj (hpid.symm.trans hzero)) hne

variable [Tlb τ] in
/-- **The name directory.**  After `proc_earlyinit` and any calls of `proc_new`, all with names of
    one to 31 characters, the slots are those of the calls in order, and `proc_find_by_name` and
    `proc_find_by_pid` answer for them. -/
theorem procFindByName_answers {mach : Machine τ} {heap : Heap} {k₀ : Kernel τ}
    {procLoad : BitVec 32} {kernelName idleName : Vector (BitVec 8) 32}
    {calls : List (Vector (BitVec 8) 32 × Bool)} {slots : List Slot}
    (hnames : ∀ name ∈ kernelName :: idleName :: calls.map Prod.fst, IsName (rawBytes name))
    (hinit : procEarlyinit procLoad kernelName idleName (Kernel.initial mach heap) = .ok ((), k₀))
    (hcalls : procNews procLoad calls k₀ = .ok (slots, k)) :
    slots.map Fin.val = List.range' 2 calls.length ∧
      AnswersByName (kernelName :: idleName :: calls.map Prod.fst) k := by
  obtain ⟨hslots, hroster⟩ := (procEarlyinit_rostered hinit).procNews hcalls
  exact ⟨hslots, hroster.answers hnames⟩

end Answers

/-! ### A boot that ends -/

section Progress

variable {T F : BitVec 32} {fs : List (BitVec 32)} {m : Machine Unit}

/-- The frames `fs` are mapped at their own addresses, all by the table `T`, and none of them is
    that table or the directory. -/
structure PoolMapped (T : BitVec 32) (fs : List (BitVec 32)) (m : Machine Unit) : Prop where
  recursive : Recursive m.mem m.cr3
  dir : palignDown m.cr3 ∉ fs
  table : T ∉ fs
  aligned : ∀ F ∈ fs, F.toNat % 4096 = 0 ∧ F ≠ 0#32
  entries : ∀ F ∈ fs, Present (pdeOf m.mem m.cr3 F) ∧ palignDown (pdeOf m.mem m.cr3 F) = T ∧
    pteOf m.mem m.cr3 F = F ||| 3#32

/-- Stores into one of the frames, and calls of `pm_alloc`. -/
theorem PoolMapped.store (h : PoolMapped T fs m) (hF : F ∈ fs) {mem : Mem} (t : Unit) (pm : Pm)
    (hoff : ∀ x, palignDown x ≠ F → mem x = m.mem x) :
    PoolMapped T fs ⟨mem, m.cr3, t, pm⟩ := by
  have hpde := pdeOf_off (fun e => h.dir (e ▸ hF)) hoff
  refine ⟨?_, h.dir, h.table, h.aligned, fun G hG => ?_⟩
  · rw [recursive_iff, hpde]
    exact recursive_iff.mp h.recursive
  · obtain ⟨hp, hT, hpte⟩ := h.entries G hG
    rw [pteOf, hpde]
    refine ⟨hp, hT, ?_⟩
    rw [← hpte, pteOf]
    refine tableEntry_congr (palignDown_aligned _) (vmPtabIdx_lt G) fun x hx => hoff x ?_
    rw [hx, hT]
    exact fun e => h.table (e ▸ hF)

/-- The entry of one of the frames, and what `map_page` makes of it. -/
theorem PoolMapped.ownPage (h : PoolMapped T fs m) (hF : F ∈ fs) (pm : Pm) (flags : BitVec 32)
    (hf : mapFlags flags &&& 0x1f#32 = 3#32) :
    OwnPage F { m with pm := pm } ∧
      mapPage F F flags { m with pm := pm } = .ok ((), { m with pm := pm }) := by
  obtain ⟨haligned, -⟩ := h.aligned F hF
  obtain ⟨hp, hT, hpte⟩ := h.entries F hF
  have hframe : palignDown (pteOf m.mem m.cr3 F) = F := by
    rw [hpte, palignDown_or (by decide), palignDown_of_aligned haligned]
  have hp' : Present (pteOf m.mem m.cr3 F) := by
    rw [hpte]
    exact present_or_right (by decide)
  constructor
  · refine ⟨haligned, coherent_unit _ _ _, h.recursive, fun e => h.dir (e ▸ hF),
      walk_eq_some_iff.mpr ⟨hp, hp', hframe⟩, ?_, fun q g hq => absurd hq (by simp [Tlb.lookup])⟩
    rw [hT]
    exact fun e => h.table (e ▸ hF)
  · obtain ⟨t, -, -, hrun⟩ := @mapPage_present _ _ { m with pm := pm }
      (coherent_unit _ _ _) h.recursive F F flags hp hp'
    rw [hrun, if_pos]
    refine ⟨hframe.trans ?_, ?_⟩
    · exact ((palignDown_palignDown F).trans (palignDown_of_aligned haligned)).symm
    · show pteOf m.mem m.cr3 F &&& 0x1f#32 = _
      rw [hpte, entry_and haligned (by decide), hf]
      rfl

/-- `proc_new` pushes the frame onto the stack page. -/
theorem OwnPage.pushWords {τ : Type} [Tlb τ] {m : Machine τ} (ho : OwnPage F m)
    (words : List (BitVec 32)) {k : Nat} (h4 : k % 4 = 0) (hk : k ≤ 4096)
    (hlen : 4 * words.length ≤ k) :
    ∃ mem t, pushWords words (F + BitVec.ofNat 32 k) m
        = .ok (F + BitVec.ofNat 32 k - BitVec.ofNat 32 (4 * words.length),
            { m with mem := mem, tlb := t }) ∧
      mem = (pushAll (m.mem, F + BitVec.ofNat 32 k) words).1 ∧
      OwnPage F { m with mem := mem, tlb := t } ∧ ∀ x, palignDown x ≠ F → mem x = m.mem x := by
  induction words generalizing m k with
  | nil => exact ⟨m.mem, m.tlb, by simp [Leoman.pushWords], rfl, ho, fun _ _ => rfl⟩
  | cons w words ih =>
    rw [List.length_cons] at hlen
    have hsub : F + BitVec.ofNat 32 k - 4#32 = F + BitVec.ofNat 32 (k - 4) := by
      apply BitVec.eq_of_toNat_eq
      simp only [BitVec.toNat_sub, BitVec.toNat_add, BitVec.toNat_ofNat]
      omega
    have hpage : palignDown (F + BitVec.ofNat 32 (k - 4)) = F :=
      palignDown_byte ho.aligned (by omega)
    have haligned : (F + BitVec.ofNat 32 (k - 4)).toNat % 4 = 0 := by
      have := ho.aligned
      rw [BitVec.toNat_add, BitVec.toNat_ofNat]
      omega
    -- the word pushed first, and the others below it
    obtain ⟨t₁, hrun, ho₁, hoff₁⟩ := ho.store32 hpage haligned w
    obtain ⟨mem, t, hrest, hmem, ho', hoff⟩ := ih ho₁ (k := k - 4) (by omega) (by omega) (by omega)
    have hdown : F + BitVec.ofNat 32 (k - 4) - BitVec.ofNat 32 (4 * words.length)
        = F + BitVec.ofNat 32 k - BitVec.ofNat 32 (4 * (w :: words).length) := by
      have hall : 4 * (w :: words).length = 4 + 4 * words.length := by
        rw [List.length_cons]
        omega
      rw [← hsub, hall, BitVec.ofNat_add, BitVec.sub_sub]
    refine ⟨mem, t, ?_, ?_, ho', fun x hx => (hoff x hx).trans (hoff₁ x hx)⟩
    · unfold Leoman.pushWords
      rw [hsub, ← hdown]
      exact (run_bind_of_ok hrun).trans hrest
    · rw [hmem]
      show _ = (pushAll (push (m.mem, F + BitVec.ofNat 32 k) w) words).1
      rw [push, hsub]

/-- Code on the machine, run from the kernel. -/
theorem onMach_runs {α : Type} {x : Code Trap (Machine Unit) α} {k : Kernel Unit} {a : α}
    {m : Machine Unit} (h : x k.mach = .ok (a, m)) : onMach x k = .ok (a, { k with mach := m }) :=
  zoom_ok h

/-- **`proc_new` completes** while there is a slot left and the next two frames are mapped. -/
theorem procNew_completes {k : Kernel Unit} {n : Nat} (hk : Creating n k) (hlt : n < nprocs)
    (h : PoolMapped T fs k.mach) (hsupply : ∀ F ∈ nextFrames 2 k.mach.pm, F ∈ fs)
    (procLoad : BitVec 32) (name : Vector (BitVec 8) 32) (privileged : Bool) :
    ∃ k', procNew procLoad name privileged k = .ok (⟨n, hlt⟩, k') ∧ PoolMapped T fs k'.mach ∧
      k'.mach.pm = pmAfter 2 k.mach.pm := by
  have hstack := hsupply _ List.mem_cons_self
  have hpdir := hsupply _ (List.mem_cons_of_mem _ List.mem_cons_self)
  obtain ⟨-, hmap₁⟩ := h.ownPage hstack (pmAlloc k.mach.pm).2 pteW (by decide)
  -- the directory
  obtain ⟨ho₂, hmap₂⟩ := h.ownPage hpdir (pmAfter 2 k.mach.pm) 0#32 (by decide)
  obtain ⟨mem₂, t₂, hcopy, -, hoff₂, -⟩ := vmCopyKernelPdir_runs
    (m := { k.mach with pm := (pmAlloc k.mach.pm).2 }) rfl (h.aligned _ hpdir).2 hmap₂ ho₂
  have h₂ := h.store hpdir t₂ (pmAfter 2 k.mach.pm) hoff₂
  -- the stack
  obtain ⟨ho₃, -⟩ := h₂.ownPage hstack (pmAfter 2 k.mach.pm) pteW (by decide)
  obtain ⟨mem₃, t₃, hpush, -, -, hoff₃⟩ := ho₃.pushWords
    (initialFrame procLoad ((pmAlloc k.mach.pm).1 + pageSize)) (k := 4096) rfl (Nat.le_refl _)
    (by simp [initialFrame])
  have h₃ := h₂.store hstack t₂ (pmAfter 2 k.mach.pm) hoff₃
  have hrun : ∃ k', procNew procLoad name privileged k = .ok (⟨n, hlt⟩, k') ∧
      k'.mach = ⟨mem₃, k.mach.cr3, t₂, pmAfter 2 k.mach.pm⟩ := by
    refine ⟨?_, ?run, ?mach⟩
    case run =>
      refine (run_bind_of_ok (hk.find_runs hlt)).trans ?_
      refine (run_bind_of_ok (onMach_runs rfl)).trans ?_
      refine (run_bind_of_ok (onMach_runs hmap₁)).trans ?_
      refine (run_bind_of_ok (run_get _)).trans ?_
      refine (run_bind_of_ok (run_modify _ _)).trans ?_
      refine (run_bind_of_ok (run_modify _ _)).trans ?_
      refine (run_bind_of_ok (onMach_runs hcopy)).trans ?_
      refine (run_bind_of_ok (run_modify _ _)).trans ?_
      refine (run_bind_of_ok (onMach_runs hpush)).trans ?_
      rfl
    case mach => rfl
  obtain ⟨k', hk', hmach⟩ := hrun
  refine ⟨k', hk', ?_, ?_⟩
  · rw [hmach]
    exact h₃
  · rw [hmach]

/-- A list of calls completes. -/
theorem procNews_completes {k : Kernel Unit} {n : Nat} (hk : Creating n k) (procLoad : BitVec 32)
    (calls : List (Vector (BitVec 8) 32 × Bool)) (hlen : n + calls.length ≤ nprocs)
    (h : PoolMapped T fs k.mach)
    (hsupply : ∀ F ∈ nextFrames (2 * calls.length) k.mach.pm, F ∈ fs) :
    ∃ slots k', procNews procLoad calls k = .ok (slots, k') := by
  induction calls generalizing n k with
  | nil => exact ⟨[], k, rfl⟩
  | cons c calls ih =>
    rw [List.length_cons] at hlen hsupply
    rw [show 2 * (calls.length + 1) = 2 + 2 * calls.length by omega, nextFrames_add] at hsupply
    obtain ⟨k₁, h₁, hm₁, hpm₁⟩ := procNew_completes hk (by omega) h
      (fun F hF => hsupply F (List.mem_append_left _ hF)) procLoad c.1 c.2
    obtain ⟨-, hk₁, -, -⟩ := hk.procNew h₁
    obtain ⟨slots, k', hrest⟩ := ih hk₁ (by omega) hm₁
      (fun F hF => hsupply F (List.mem_append_right _ (hpm₁ ▸ hF)))
    exact ⟨_, k', (run_bind_of_ok h₁).trans (run_bind_of_ok hrest)⟩

/-- `proc_earlyinit` completes. -/
theorem procEarlyinit_completes {mach : Machine Unit} (heap : Heap) (h : PoolMapped T fs mach)
    (hsupply : ∀ F ∈ nextFrames 4 mach.pm, F ∈ fs) (procLoad : BitVec 32)
    (kernelName idleName : Vector (BitVec 8) 32) :
    ∃ k, procEarlyinit procLoad kernelName idleName (Kernel.initial mach heap) = .ok ((), k) ∧
      PoolMapped T fs k.mach ∧ k.mach.pm = pmAfter 4 mach.pm := by
  rw [show (4 : Nat) = 2 + 2 by rfl, nextFrames_add] at hsupply
  obtain ⟨k₁, h₁, hm₁, hpm₁⟩ := procNew_completes (cleared_creating mach heap) (by decide) h
    (fun F hF => hsupply F (List.mem_append_left _ hF)) procLoad kernelName true
  obtain ⟨-, hk₁, -, -⟩ := (cleared_creating mach heap).procNew h₁
  obtain ⟨k₂, h₂, hm₂, hpm₂⟩ := procNew_completes (hk₁.setCurrent (some ⟨0, by decide⟩))
    (by decide) hm₁ (fun F hF => hsupply F (List.mem_append_right _ (hpm₁ ▸ hF))) procLoad idleName
    true
  refine ⟨_, (run_bind_of_ok (run_modify _ _)).trans ((run_bind_of_ok h₁).trans
    ((run_bind_of_ok (run_modify _ _)).trans (run_bind_of_ok h₂))), hm₂, ?_⟩
  rw [hpm₂, hpm₁]
  rfl

end Progress

/-- A pool of which the first `j` pages are used hands out the following ones in order. -/
theorem nextFrames_fresh {s : Pm} {n j : Nat} (hused : ∀ i, s.Used i ↔ i < j)
    (hn : j + n ≤ pmPages) : nextFrames n s = (List.range' j n).map s.pageAddr := by
  induction n generalizing s j with
  | zero => rfl
  | succ n ih =>
    obtain ⟨-, hall⟩ | ⟨k, s', ht, hbefore, he⟩ := pmAlloc_spec s
    · exact absurd ((hused j).mp (hall j (by omega))) (by omega)
    · -- the lowest free page is `j`
      have hk : k = j := by
        have hge : ¬ k < j := fun h => ht.free k (by omega) (by omega) ((hused k).mpr h)
        by_contra hne
        exact absurd ((hused j).mp (hbefore j (by omega))) (by omega)
      subst hk
      have hused' : ∀ i, s'.Used i ↔ i < k + 1 := by
        intro i
        rw [ht.used, hused]
        omega
      have haddr : s'.pageAddr = s.pageAddr := by
        funext i
        rw [Pm.pageAddr, Pm.pageAddr, ht.pool]
      rw [nextFrames, he, List.range'_succ, List.map_cons, ih hused' (by omega), haddr]

/-- The table `T` with an entry for each of `fs` at its own address. -/
def mapIdentity (mem : Mem) (T : BitVec 32) (fs : List (BitVec 32)) : Mem :=
  fs.foldr (fun F mem => write32 mem (T + 4#32 * vmPtabIdx F) (F ||| 3#32)) mem

section Identity

variable {mem : Mem} {T F : BitVec 32} {fs : List (BitVec 32)} (hT : T.toNat % 4096 = 0)

include hT

/-- The other tables are as they were, … -/
theorem tableEntry_mapIdentity_of_ne {c j : BitVec 32} (hc : c.toNat % 4096 = 0)
    (hj : j.toNat < 1024) (hne : c ≠ T) :
    tableEntry (mapIdentity mem T fs) c j = tableEntry mem c j := by
  induction fs with
  | nil => rfl
  | cons G fs ih =>
    exact (tableEntry_write_of_ne hT hc (vmPtabIdx_lt G) hj (Or.inl hne.symm)).trans ih

/-- … and the table `T` has the entries. -/
theorem tableEntry_mapIdentity (hnodup : (fs.map vmPtabIdx).Nodup) (hF : F ∈ fs) :
    tableEntry (mapIdentity mem T fs) T (vmPtabIdx F) = F ||| 3#32 := by
  induction fs with
  | nil => exact absurd hF (by simp)
  | cons G fs ih =>
    obtain ⟨hG, hrest⟩ := List.nodup_cons.mp hnodup
    obtain rfl | hF := List.mem_cons.mp hF
    · exact tableEntry_write_self _ _ _ _
    · have hne : vmPtabIdx G ≠ vmPtabIdx F := fun e => hG (e ▸ List.mem_map_of_mem hF)
      exact (tableEntry_write_of_ne hT hT (vmPtabIdx_lt G) (vmPtabIdx_lt F) (Or.inr hne)).trans
        (ih hrest hF)

end Identity

/-- Six frames from `0x10000` on. -/
def poolFrames : List (BitVec 32) :=
  [0x10000#32, 0x11000#32, 0x12000#32, 0x13000#32, 0x14000#32, 0x15000#32]

/-- The machine with these frames for a pool, mapped by the table at `0x2000`. -/
def poolMachine : Machine Unit where
  mem := mapIdentity (setPde (blankSpace 0x1000#32) 0x1000#32 0#32 0x2003#32) 0x2000#32 poolFrames
  cr3 := 0x1000#32
  tlb := ()
  pm := ⟨fun _ => 0#32, 0xe0010000#32⟩

/-- They are mapped, as `proc_new` will ask for. -/
theorem poolMachine_mapped : PoolMapped 0x2000#32 poolFrames poolMachine := by
  have hT : (0x2000#32).toNat % 4096 = 0 := by decide
  have hblank : Recursive (blankSpace 0x1000#32) 0x1000#32 :=
    (wellFormed_blankSpace (by decide)).recursive
  have hpde : ∀ v, pdeOf poolMachine.mem 0x1000#32 v
      = pdeOf (setPde (blankSpace 0x1000#32) 0x1000#32 0#32 0x2003#32) 0x1000#32 v := fun v =>
    tableEntry_mapIdentity_of_ne hT (palignDown_aligned _) (vmPdirIdx_lt v) (by decide)
  have hfirst : ∀ F ∈ poolFrames, pdeOf poolMachine.mem 0x1000#32 F = 0x2003#32 := by
    intro F hF
    have hidx : poolFrames.all (vmPdirIdx · == vmPdirIdx 0#32) := by decide
    have := List.all_eq_true.mp hidx F hF
    rw [hpde, pdeOf_setPde, if_pos (by simpa using this)]
  have haligned : ∀ F ∈ poolFrames, F.toNat % 4096 = 0 ∧ F ≠ 0#32 := by
    intro F hF
    have hall : poolFrames.all (fun F => F.toNat % 4096 = 0 && F != 0#32) := by decide
    simpa using List.all_eq_true.mp hall F hF
  refine ⟨?_, by decide, by decide, haligned, fun F hF => ?_⟩
  · refine recursive_iff.mpr ?_
    rw [show poolMachine.cr3 = 0x1000#32 from rfl, hpde]
    exact recursive_iff.mp (hblank.store_pde 0x2003#32 fun h => absurd h (by decide))
  · rw [show poolMachine.cr3 = 0x1000#32 from rfl, hfirst F hF]
    refine ⟨by decide, by decide, ?_⟩
    rw [pteOf, hfirst F hF]
    exact tableEntry_mapIdentity hT (by decide +kernel) hF

/-- The 32 bytes at a string, with other data behind it. -/
def rawName (chars : List (BitVec 8)) : Vector (BitVec 8) 32 :=
  Vector.ofFn fun i => (chars ++ [0#8]).getD i.val 0xcc#8

/-- `"kernel"`, `"idle"` and `"init"`. -/
def kernelName : Vector (BitVec 8) 32 :=
  rawName [0x6b#8, 0x65#8, 0x72#8, 0x6e#8, 0x65#8, 0x6c#8]

/-- `"idle"`. -/
def idleName : Vector (BitVec 8) 32 := rawName [0x69#8, 0x64#8, 0x6c#8, 0x65#8]

/-- `"init"`. -/
def initName : Vector (BitVec 8) 32 := rawName [0x69#8, 0x6e#8, 0x69#8, 0x74#8]

/-- A boot that creates one process: its name is found, in slot 2. -/
theorem procFindByName_answers_init : ∃ (k₀ k : Kernel Unit) (slots : List Slot),
    procEarlyinit 0#32 kernelName idleName (Kernel.initial poolMachine (heapInit fun _ => 0#8))
      = .ok ((), k₀) ∧ procNews 0#32 [(initName, false)] k₀ = .ok (slots, k) ∧
      slots.map Fin.val = [2] ∧ AnswersByName [kernelName, idleName, initName] k := by
  have hall : ∀ F ∈ nextFrames 6 poolMachine.pm, F ∈ poolFrames := by
    have hpages : (nextFrames 6 poolMachine.pm) = poolFrames := by
      rw [nextFrames_fresh (j := 0) (by simp [Pm.Used, poolMachine]) (by decide)]
      decide +kernel
    exact fun F hF => hpages ▸ hF
  obtain ⟨k₀, hinit, hmapped, hpm⟩ := procEarlyinit_completes (heapInit fun _ => 0#8)
    poolMachine_mapped (fun F hF => hall F ((nextFrames_sublist (by decide) _).subset hF)) 0#32
    kernelName idleName
  obtain ⟨hcreating, -, -⟩ := procEarlyinit_creating hinit
  have hmore : ∀ F ∈ nextFrames 2 k₀.mach.pm, F ∈ poolFrames := by
    intro F hF
    refine hall F ?_
    rw [show (6 : Nat) = 4 + 2 by rfl, nextFrames_add]
    exact List.mem_append_right _ (hpm ▸ hF)
  obtain ⟨slots, k, hcalls⟩ := procNews_completes hcreating 0#32 [(initName, false)] (by decide)
    hmapped hmore
  have hnames : ∀ name ∈ [kernelName, idleName, initName], IsName (rawBytes name) := by
    intro name hname
    have hall : [kernelName, idleName, initName].all (fun name => IsName (rawBytes name)) := by
      decide +kernel
    simpa using List.all_eq_true.mp hall name hname
  exact ⟨k₀, k, slots, hinit, hcalls, procFindByName_answers hnames hinit hcalls⟩

end Leoman
