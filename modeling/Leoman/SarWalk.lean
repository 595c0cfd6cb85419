import Leoman.Lib.Walk
import Leoman.Sar

namespace Leoman

open ByteMem Walk

/-!
# Does the lookup end? (`kernel/sar.c`)

`sar_lookup` goes from header to header by a length that the headers themselves give, with nothing
that bounds it.

* `Passes`, `nextHeader` — when the lookup goes on, and where;
* `strcmp_total` — a name is compared in as many rounds as the wanted name has bytes;
* `terminates_iff_ends` — the lookup ends exactly when its walk does;
* `sarLookup_terminates_iff` — and that is when no stretch of headers goes all the way round the
  address space.
-/

/-- The header is not the last one, and its name is another one. -/
def Passes (mem : Mem) (fname fhdr : BitVec 32) : Prop :=
  (sarFileAt mem fhdr).size ||| (sarFileAt mem fhdr).offset ||| (sarFileAt mem fhdr).namelen
      ≠ 0#32 ∧
    ∃ n c, strcmp mem n (fhdr + sarFileSize) fname = some c ∧ c ≠ 0

/-- The length of a header with its name. -/
def headerLen (mem : Mem) (fhdr : BitVec 32) : Nat := 12 + (sarFileAt mem fhdr).namelen.toNat

/-- The headers that come one after the other. -/
abbrev nextHeader (mem : Mem) : BitVec 32 → BitVec 32 := advance (headerLen mem)

/-- The lookup ends. -/
def Terminates (mem : Mem) (file fname : BitVec 32) : Prop :=
  ∃ rounds found, sarLookup mem file fname rounds = some found

/-- A string ends somewhere. -/
def Terminated (mem : Mem) (p : BitVec 32) : Prop := ∃ n, mem (p + BitVec.ofNat 32 n) = 0#8

section Lookup

variable {mem : Mem} {file fname fhdr a b : BitVec 32} {rounds n : Nat}

theorem nextHeader_eq :
    nextHeader mem fhdr = fhdr + sarFileSize + (sarFileAt mem fhdr).namelen := by
  show fhdr + BitVec.ofNat 32 (12 + (sarFileAt mem fhdr).namelen.toNat) = _
  rw [BitVec.ofNat_add, BitVec.ofNat_toNat, BitVec.setWidth_eq,
    ← BitVec.add_assoc]
  rfl

/-- More rounds do not change the outcome. -/
theorem strcmp_mono {c : Int} (h : strcmp mem n a b = some c) {k : Nat} (hk : n ≤ k) :
    strcmp mem k a b = some c := by
  induction n generalizing a b k with
  | zero => exact nomatch h
  | succ n ih =>
    obtain ⟨k, rfl⟩ : ∃ j, k = j + 1 := Nat.exists_eq_succ_of_ne_zero (by omega)
    rw [strcmp] at h ⊢
    split
    · rename_i heq
      rw [if_pos heq] at h
      split
      · rename_i hz
        rwa [if_pos hz] at h
      · rename_i hz
        rw [if_neg hz] at h
        exact ih h (by omega)
    · rename_i hne
      rwa [if_neg hne] at h

/-- The comparison ends with the second string. -/
theorem strcmp_total (hb : mem (b + BitVec.ofNat 32 n) = 0#8) :
    ∃ c, strcmp mem (n + 1) a b = some c := by
  induction n generalizing a b with
  | zero =>
    rw [BitVec.add_zero] at hb
    rw [strcmp]
    split
    · rename_i heq
      exact ⟨0, if_pos (heq.trans hb)⟩
    · exact ⟨_, rfl⟩
  | succ n ih =>
    have hrest : mem (b + 1#32 + BitVec.ofNat 32 n) = 0#8 := by
      rw [← hb, Nat.add_comm, BitVec.ofNat_add, BitVec.add_assoc]
    rw [strcmp]
    split
    · split
      · exact ⟨0, rfl⟩
      · exact ih hrest
    · exact ⟨_, rfl⟩

/-- A lookup that ends has come to the last header it passes. -/
theorem ends_of_loop {found : Option (BitVec 32)}
    (h : sarLookupLoop mem fname rounds n fhdr = some found) :
    Ends (nextHeader mem) (Passes mem fname) fhdr := by
  induction n generalizing fhdr with
  | zero => exact nomatch h
  | succ n ih =>
    rw [sarLookupLoop] at h
    by_cases hz : (sarFileAt mem fhdr).size ||| (sarFileAt mem fhdr).offset |||
        (sarFileAt mem fhdr).namelen = 0#32
    · exact ends_of_not_go fun hpass => hpass.1 hz
    · rw [if_neg hz] at h
      cases hcmp : strcmp mem rounds (fhdr + sarFileSize) fname with
      | none =>
        rw [hcmp] at h
        exact nomatch h
      | some c =>
        simp only [hcmp] at h
        by_cases hc : c = 0
        · -- the name that is found is no other one, however many rounds are made
          refine ends_of_not_go fun hpass => ?_
          obtain ⟨-, n', c', hcmp', hne⟩ := hpass
          have h₁ := strcmp_mono hcmp (Nat.le_max_left rounds n')
          have h₂ := strcmp_mono hcmp' (Nat.le_max_right rounds n')
          rw [h₁, Option.some.injEq] at h₂
          exact hne (h₂ ▸ hc)
        · rw [if_neg hc, ← nextHeader_eq] at h
          exact ends_of_next ⟨hz, rounds, c, hcmp, hc⟩ (ih h)

/-- **One round.**  The lookup returns, or it passes the header. -/
theorem loop_step {m : Nat} (hname : mem (fname + BitVec.ofNat 32 m) = 0#8) (hm : m < rounds)
    (n : Nat) (fhdr : BitVec 32) :
    (∃ found, sarLookupLoop mem fname rounds (n + 1) fhdr = some found) ∨
      (Passes mem fname fhdr ∧ sarLookupLoop mem fname rounds (n + 1) fhdr
        = sarLookupLoop mem fname rounds n (nextHeader mem fhdr)) := by
  rw [sarLookupLoop, nextHeader_eq]
  by_cases hz : (sarFileAt mem fhdr).size ||| (sarFileAt mem fhdr).offset |||
      (sarFileAt mem fhdr).namelen = 0#32
  · exact Or.inl ⟨none, if_pos hz⟩
  · rw [if_neg hz]
    obtain ⟨c, hc⟩ : ∃ c, strcmp mem (m + 1) (fhdr + sarFileSize) fname = some c :=
      strcmp_total hname
    have hcmp := strcmp_mono hc (show m + 1 ≤ rounds by omega)
    simp only [hcmp]
    by_cases hc₀ : c = 0
    · exact Or.inl ⟨some fhdr, if_pos hc₀⟩
    · exact Or.inr ⟨⟨hz, rounds, c, hcmp, hc₀⟩, if_neg hc₀⟩

/-- A lookup whose walk ends does so, with enough rounds. -/
theorem loop_of_ends {k m : Nat} (hname : mem (fname + BitVec.ofNat 32 m) = 0#8) (hm : m < rounds)
    (hend : ¬ Passes mem fname ((nextHeader mem)^[k] fhdr)) (hn : k < n) :
    ∃ found, sarLookupLoop mem fname rounds n fhdr = some found := by
  induction k generalizing fhdr n with
  | zero =>
    obtain ⟨n, rfl⟩ : ∃ j, n = j + 1 := Nat.exists_eq_succ_of_ne_zero (by omega)
    obtain hfound | ⟨hpass, -⟩ := loop_step hname hm n fhdr
    · exact hfound
    · exact absurd hpass hend
  | succ k ih =>
    obtain ⟨n, rfl⟩ : ∃ j, n = j + 1 := Nat.exists_eq_succ_of_ne_zero (by omega)
    obtain hfound | ⟨-, hloop⟩ := loop_step hname hm n fhdr
    · exact hfound
    · rw [hloop]
      exact ih hend (by omega)

/-- The lookup ends exactly when its walk does. -/
theorem terminates_iff_ends (hname : Terminated mem fname) :
    Terminates mem file fname ↔
      Ends (nextHeader mem) (Passes mem fname) (file + sarHeaderSize) := by
  constructor
  · rintro ⟨rounds, found, h⟩
    exact ends_of_loop h
  · rintro ⟨k, -, hend⟩
    obtain ⟨m, hm⟩ := hname
    have hloop : ∃ found, sarLookupLoop mem fname (max k m + 1) (max k m + 1)
        (file + sarHeaderSize) = some found := loop_of_ends hm (by omega) hend (by omega)
    exact ⟨_, hloop⟩

/-- **When the lookup ends.**  It does exactly when it comes to no header twice, and that is when no
    stretch of the headers it passes goes all the way round the address space; headers that take up
    less than the address space are never passed twice. -/
theorem sarLookup_terminates_iff (mem : Mem) (file fname : BitVec 32)
    (hname : Terminated mem fname) :
    (Terminates mem file fname ↔
      NoRepeat (nextHeader mem) (Passes mem fname) (file + sarHeaderSize)) ∧
    (NoRepeat (nextHeader mem) (Passes mem fname) (file + sarHeaderSize) ↔
      ∀ i j, i < j → Reaches (nextHeader mem) (Passes mem fname) (file + sarHeaderSize) j →
        ¬ 2 ^ 32 ∣ span (headerLen mem) (file + sarHeaderSize) i j) ∧
    ((∀ j, Reaches (nextHeader mem) (Passes mem fname) (file + sarHeaderSize) j →
        span (headerLen mem) (file + sarHeaderSize) 0 j < 2 ^ 32) →
      NoRepeat (nextHeader mem) (Passes mem fname) (file + sarHeaderSize) ∧
        Terminates mem file fname) := by
  have hends : Terminates mem file fname ↔ _ := terminates_iff_ends hname
  refine ⟨hends.trans ends_advance_iff, noRepeat_advance_iff, fun hspan => ?_⟩
  have hno : NoRepeat (nextHeader mem) (Passes mem fname) (file + sarHeaderSize) :=
    noRepeat_of_span_lt (fun a => by unfold headerLen; omega) hspan
  exact ⟨hno, hends.mpr (ends_advance_iff.mpr hno)⟩

/-- One header at 0x1004, whose name has the given length; the name is not empty. -/
def oneHeader (namelen : BitVec 32) : Mem :=
  write32 (fun x => if x = 0x1010#32 then 0x41#8 else 0x00#8) 0x100c#32 namelen

/-- The name has two bytes, and the empty name is looked up: the walk passes one header, takes the
    zeros behind it for the last one, and ends. -/
theorem sarLookup_terminates_iff_short :
    Passes (oneHeader 2#32) 0x2000#32 (0x1000#32 + sarHeaderSize) ∧
      NoRepeat (nextHeader (oneHeader 2#32)) (Passes (oneHeader 2#32) 0x2000#32)
        (0x1000#32 + sarHeaderSize) ∧
      Terminates (oneHeader 2#32) 0x1000#32 0x2000#32 := by
  obtain ⟨hends, hspan, -⟩ :=
    sarLookup_terminates_iff (oneHeader 2#32) 0x1000#32 0x2000#32 ⟨0, by decide⟩
  have hlast : ¬ Passes (oneHeader 2#32) 0x2000#32
      ((nextHeader (oneHeader 2#32))^[1] (0x1000#32 + sarHeaderSize)) :=
    fun h => absurd h.1 (by decide)
  have hno : NoRepeat (nextHeader (oneHeader 2#32)) (Passes (oneHeader 2#32) 0x2000#32)
      (0x1000#32 + sarHeaderSize) := by
    refine hspan.mpr fun i j hij hreach => ?_
    -- the walk makes one step at most
    have hj : j ≤ 1 := Nat.le_of_not_lt fun h => hlast (hreach 1 h)
    obtain ⟨rfl, rfl⟩ : i = 0 ∧ j = 1 := by omega
    decide
  exact ⟨⟨by decide, 1, 0x41, by decide, by decide⟩, hno, hends.mpr hno⟩

/-- **A header that is its own successor.**  Its name is given as long as the address space less the
    12 bytes of the header. -/
theorem header_visited_twice :
    Terminated (oneHeader 0xfffffff4#32) 0x2000#32 ∧
      ¬ NoRepeat (nextHeader (oneHeader 0xfffffff4#32))
        (Passes (oneHeader 0xfffffff4#32) 0x2000#32) (0x1000#32 + sarHeaderSize) ∧
      ¬ Terminates (oneHeader 0xfffffff4#32) 0x1000#32 0x2000#32 := by
  have hname : Terminated (oneHeader 0xfffffff4#32) 0x2000#32 := ⟨0, by decide⟩
  have hpass : Passes (oneHeader 0xfffffff4#32) 0x2000#32 (0x1000#32 + sarHeaderSize) :=
    ⟨by decide, 1, 0x41, by decide, by decide⟩
  have htwice : ¬ NoRepeat (nextHeader (oneHeader 0xfffffff4#32))
      (Passes (oneHeader 0xfffffff4#32) 0x2000#32) (0x1000#32 + sarHeaderSize) := by
    intro hno
    refine hno 0 1 (by decide) (fun j hj => ?_) (by decide)
    obtain rfl : j = 0 := by omega
    exact hpass
  exact ⟨hname, htwice, fun h => htwice (ends_advance_iff.mp ((terminates_iff_ends hname).mp h))⟩

end Lookup

end Leoman
