import Leoman.IsoFs
import Mathlib.Data.List.TakeWhile

namespace Leoman.IsoFs

open ByteMem Countdown

/-!
# Looking up a name (`boot/isofs.asm`)

The search compares the identifier of a record with the path as far as the identifier goes.  So a
record whose identifier is only the beginning of the name is taken for the file; and a record whose
length has a low half of zero ends the search.

* `DirRecord` — well-formed records, as the bytes they are; `stem` — the identifier without its
  version;
* `IsDirectory`, `IsComponent` — a directory and a path in memory;
* `Hits` — the path begins with the name of an entry; `compareFilenames_cases` — what a comparison
  finds out;
* `searchDirectory_record`, `searchDirectory_skip` — the search at one record, and past several;
* `searchDirectory_finds_iff` — the search finds the record with the name, or none when there is
  none, exactly when no record before it stops the search.
-/

/-! ### Records -/

/-- The length of the identifier. -/
def nameLen (bytes : List (BitVec 8)) : Nat := (bytes.getD 32 0#8).toNat

/-- A record of a directory: its length comes first, the identifier from byte 33 on.  The records
    of the directory itself and its parent have the identifiers 0 and 1. -/
structure DirRecord where
  bytes : List (BitVec 8)
  length_eq : bytes.length = (bytes.getD 0 0#8).toNat
  named : 1 ≤ nameLen bytes
  fits : 33 + nameLen bytes ≤ bytes.length
  chars : ∀ c ∈ (bytes.drop 33).take (nameLen bytes), c = 0x2f#8 ∨ c = 0#8 →
    (bytes.drop 33).take (nameLen bytes) = [0#8]

/-- The identifier. -/
def DirRecord.ident (r : DirRecord) : List (BitVec 8) := (r.bytes.drop 33).take (nameLen r.bytes)

/-- The identifier up to `;`. -/
def DirRecord.stem (r : DirRecord) : List (BitVec 8) := r.ident.takeWhile (· ≠ 0x3b#8)

/-- The data length. -/
def DirRecord.dataLength (r : DirRecord) : BitVec 32 :=
  r.bytes.getD 13 0#8 ++ r.bytes.getD 12 0#8 ++ r.bytes.getD 11 0#8 ++ r.bytes.getD 10 0#8

/-- The bytes of records in a row. -/
def dirBytes (recs : List DirRecord) : List (BitVec 8) := recs.flatMap DirRecord.bytes

/-- The directory loaded at `0x8c00` is a sector with the records, and zeros behind them. -/
structure IsDirectory (m : Mem) (recs : List DirRecord) : Prop where
  padded : (dirBytes recs).length < 2048
  stored : Stored m 0x8c00#32
    (dirBytes recs ++ List.replicate (2048 - (dirBytes recs).length) 0#8)

/-- The path at `p` goes on with a component, and then a slash or a NUL. -/
structure IsComponent (m : Mem) (p : BitVec 16) (name : List (BitVec 8)) : Prop where
  nonempty : name ≠ []
  chars : ∀ c ∈ name, c ≠ 0#8 ∧ c ≠ 0x2f#8
  stored : ∀ i c, name[i]? = some c → read8 m (p + BitVec.ofNat 16 i) = c
  ended : read8 m (p + BitVec.ofNat 16 name.length) = 0#8 ∨
    read8 m (p + BitVec.ofNat 16 name.length) = 0x2f#8

/-- Where the record behind some others starts. -/
def recordAt (before : List DirRecord) : BitVec 16 :=
  0x8c00#16 + BitVec.ofNat 16 (dirBytes before).length

/-- The record a search selects. -/
def Search.selected : Search → Option (BitVec 16)
  | .found di => some di
  | .descend di _ => some di
  | .notFound => none

/-- The result is a record with the name, if there is one, and no record otherwise. -/
def RightResult (recs : List DirRecord) (name : List (BitVec 8)) (result : Search) : Prop :=
  (∃ before r after, recs = before ++ r :: after ∧ r.stem = name ∧
      result.selected = some (recordAt before)) ∨
    (∀ r ∈ recs, r.stem ≠ name) ∧ result = .notFound

/-! ### Comparing names -/

section Compare

variable {m : Mem} {cx si bx p a : BitVec 16} {n k : Nat}

/-- The first `k` characters are those of the path, without a `;` among them. -/
def SameUpTo (m : Mem) (si bx : BitVec 16) (k : Nat) : Prop :=
  ∀ i < k, read8 m (si + BitVec.ofNat 16 i) = read8 m (bx + BitVec.ofNat 16 i) ∧
    read8 m (si + BitVec.ofNat 16 i) ≠ 0x3b#8

/-- The path at `p` begins with the name of the entry at `a`: with all of it, or what comes before
    a `;`.  (A name without characters would be compared for `0x10000` rounds.) -/
def Hits (m : Mem) (a p : BitVec 16) : Prop :=
  ∃ k ≤ rounds ((read8 m (a + 32#16)).setWidth 16), SameUpTo m (a + 33#16) p k ∧
    (k < rounds ((read8 m (a + 32#16)).setWidth 16) →
      read8 m (a + 33#16 + BitVec.ofNat 16 k) = 0x3b#8)

theorem offset_succ (q : BitVec 16) (i : Nat) :
    q + 1#16 + BitVec.ofNat 16 i = q + BitVec.ofNat 16 (i + 1) := by
  rw [BitVec.add_assoc, ← BitVec.ofNat_add, Nat.add_comm]

/-- One character more. -/
theorem sameUpTo_succ (h₀ : read8 m si = read8 m bx) (h₁ : read8 m si ≠ 0x3b#8) :
    SameUpTo m si bx (k + 1) ↔ SameUpTo m (si + 1#16) (bx + 1#16) k := by
  constructor
  · intro h i hi
    rw [offset_succ, offset_succ]
    exact h (i + 1) (by omega)
  · intro h i hi
    cases i with
    | zero =>
      rw [BitVec.add_zero, BitVec.add_zero]
      exact ⟨h₀, h₁⟩
    | succ i =>
      have hi' := h i (by omega)
      rwa [offset_succ, offset_succ] at hi'

/-- **Everything a comparison can find out.** -/
theorem compareFilenames_cases (hn : rounds cx ≤ n) :
    (compareFilenames m n cx si bx = .next ∧ ∃ k < rounds cx, SameUpTo m si bx k ∧
        read8 m (si + BitVec.ofNat 16 k) ≠ 0x3b#8 ∧
        read8 m (si + BitVec.ofNat 16 k) ≠ read8 m (bx + BitVec.ofNat 16 k)) ∨
      (compareFilenames m n cx si bx = .found ∧ ∃ k < rounds cx, SameUpTo m si bx k ∧
        read8 m (si + BitVec.ofNat 16 k) = 0x3b#8) ∨
      (∃ q, compareFilenames m n cx si bx = .matched q) ∧ SameUpTo m si bx (rounds cx) := by
  induction n generalizing cx si bx with
  | zero => exact absurd (rounds_pos cx) (by omega)
  | succ n ih =>
    have hpos := rounds_pos cx
    have hnone : SameUpTo m si bx 0 := fun i hi => absurd hi (Nat.not_lt_zero i)
    unfold compareFilenames
    by_cases hsemi : read8 m si = 0x3b#8
    · refine Or.inr (Or.inl ⟨if_pos hsemi, 0, hpos, hnone, ?_⟩)
      rw [BitVec.add_zero]
      exact hsemi
    · simp only [if_neg hsemi]
      by_cases hsame : read8 m si = read8 m bx
      · simp only [hsame, ne_eq, not_true_eq_false, if_false]
        have hne : read8 m bx ≠ 0x3b#8 := hsame ▸ hsemi
        rcases rounds_sub_one (by decide) cx with ⟨hz, hr⟩ | ⟨hz, hr⟩
        · rw [if_pos hz, hr, sameUpTo_succ hsame hsemi]
          exact Or.inr (Or.inr ⟨⟨_, rfl⟩, fun i hi => absurd hi (Nat.not_lt_zero i)⟩)
        · rw [if_neg hz, hr]
          rcases @ih (cx - 1#16) (si + 1#16) (bx + 1#16) (by omega) with
            ⟨hc, k, hk, hs, h₁, h₂⟩ | ⟨hc, k, hk, hs, h₁⟩ | ⟨hc, hs⟩
          · rw [offset_succ] at h₁ h₂
            rw [offset_succ] at h₂
            exact Or.inl ⟨hc, k + 1, by omega, (sameUpTo_succ hsame hsemi).mpr hs, h₁, h₂⟩
          · rw [offset_succ] at h₁
            exact Or.inr (Or.inl ⟨hc, k + 1, by omega, (sameUpTo_succ hsame hsemi).mpr hs, h₁⟩)
          · exact Or.inr (Or.inr ⟨hc, (sameUpTo_succ hsame hsemi).mpr hs⟩)
      · refine Or.inl ⟨if_pos hsame, 0, hpos, hnone, ?_⟩
        rw [BitVec.add_zero, BitVec.add_zero]
        exact ⟨hsemi, hsame⟩

/-- It goes on to the next record exactly when the name of the record is no beginning of the
    path. -/
theorem compareFilenames_next_iff :
    compareFilenames m 0x10000 ((read8 m (a + 32#16)).setWidth 16) (a + 33#16) p = .next ↔
      ¬ Hits m a p := by
  have hcases : (compareFilenames m 0x10000 ((read8 m (a + 32#16)).setWidth 16) (a + 33#16) p
      = .next ∧ _) ∨ _ := compareFilenames_cases (rounds_le _)
  rcases hcases with
    ⟨hc, k, hk, hs, h₁, h₂⟩ | ⟨hc, k, hk, hs, h₁⟩ | ⟨⟨q, hc⟩, hs⟩
  · refine ⟨fun _ => ?_, fun _ => hc⟩
    rintro ⟨l, hl, hs', hend⟩
    rcases Nat.lt_trichotomy k l with hlt | rfl | hgt
    · exact h₂ (hs' k hlt).1
    · exact h₁ (hend hk)
    · exact (hs l hgt).2 (hend (by omega))
  · refine ⟨fun h => absurd (hc.symm.trans h) (by simp), fun h => ?_⟩
    exact absurd ⟨k, hk.le, hs, fun _ => h₁⟩ h
  · refine ⟨fun h => absurd (hc.symm.trans h) (by simp), fun h => ?_⟩
    exact absurd ⟨_, Nat.le_refl _, hs, fun hlt => absurd hlt (Nat.lt_irrefl _)⟩ h

end Compare

/-! ### The search at a record -/

section Search

variable {m : Mem} {p a : BitVec 16} {n : Nat} {recs before after : List DirRecord} {r : DirRecord}
  {name : List (BitVec 8)}

/-- An entry that the path begins with is selected. -/
theorem searchDirectory_hit (h : Hits m a p) :
    ∃ result, (∀ n, searchDirectory m p (n + 1) a = some result) ∧ result.selected = some a := by
  have hne := mt compareFilenames_next_iff.mp (not_not.mpr h)
  cases hc : compareFilenames m 0x10000 ((read8 m (a + 32#16)).setWidth 16) (a + 33#16) p with
  | next => exact absurd hc hne
  | found => exact ⟨.found a, fun n => by simp only [searchDirectory, hc], rfl⟩
  | matched bx =>
    by_cases hslash : read8 m bx = 0x2f#8
    · refine ⟨.descend a (bx + 1#16), fun n => ?_, rfl⟩
      simp only [searchDirectory, hc, if_pos hslash]
    · exact ⟨.found a, fun n => by simp only [searchDirectory, hc, if_neg hslash], rfl⟩

/-- Any other entry is passed over, unless the low half of its length is zero. -/
theorem searchDirectory_miss (h : ¬ Hits m a p) :
    searchDirectory m p (n + 1) a = if read16 m (a + 10#16) = 0#16 then some .notFound
      else searchDirectory m p n (a + (read8 m a).setWidth 16) := by
  simp only [searchDirectory, compareFilenames_next_iff.mpr h]

theorem getElem?_eq_getD {l : List (BitVec 8)} {j : Nat} (hj : j < l.length) :
    l[j]? = some (l.getD j 0#8) := by
  rw [List.getD_eq_getElem?_getD, List.getElem?_eq_getElem hj]
  rfl

/-- The bytes of a record, where they are in the directory. -/
theorem IsDirectory.byte (hd : IsDirectory m (before ++ r :: after)) {j : Nat}
    (hj : j < r.bytes.length) :
    read8 m (recordAt before + BitVec.ofNat 16 j) = r.bytes.getD j 0#8 := by
  have hbytes : dirBytes (before ++ r :: after)
      = dirBytes before ++ (r.bytes ++ dirBytes after) := by
    rw [dirBytes, List.flatMap_append, List.flatMap_cons]
    rfl
  have hpadded := hd.padded
  have hstored := hd.stored.left
  rw [hbytes] at hpadded hstored
  rw [List.length_append, List.length_append] at hpadded
  have hbyte := hstored.right.left j (r.bytes.getD j 0#8)
    (getElem?_eq_getD hj)
  rw [read8, ← hbyte]
  congr 1
  apply BitVec.eq_of_toNat_eq
  simp only [seg, recordAt, BitVec.toNat_setWidth, BitVec.toNat_add, BitVec.toNat_ofNat]
  omega

/-- Where a record is. -/
theorem IsDirectory.recordAt_toNat (hd : IsDirectory m (before ++ after)) :
    (recordAt before).toNat = 0x8c00 + (dirBytes before).length ∧
      (dirBytes before).length < 2048 := by
  have hpadded := hd.padded
  rw [dirBytes, List.flatMap_append, List.length_append] at hpadded
  have hlt : (dirBytes before).length < 2048 := by
    rw [dirBytes]
    omega
  refine ⟨?_, hlt⟩
  rw [recordAt, BitVec.toNat_add, BitVec.toNat_ofNat, BitVec.toNat_ofNat]
  omega

/-- A word of a record. -/
theorem read16_read8 {q : BitVec 16} (hq : q.toNat + 1 < 0x10000) :
    read16 m q = read8 m (q + 1#16) ++ read8 m q := by
  have hnext : seg q + 1#32 = seg (q + 1#16) := by
    apply BitVec.eq_of_toNat_eq
    simp only [seg, BitVec.toNat_setWidth, BitVec.toNat_add, BitVec.toNat_ofNat]
    omega
  rw [read16, hnext]
  rfl

/-- The low half of its length. -/
theorem IsDirectory.length (hd : IsDirectory m (before ++ r :: after)) :
    read16 m (recordAt before + 10#16) = r.dataLength.setWidth 16 := by
  have hfits := r.fits
  obtain ⟨hnat, hlt⟩ := hd.recordAt_toNat
  have hten : (recordAt before + 10#16).toNat + 1 < 0x10000 := by
    rw [BitVec.toNat_add, hnat, BitVec.toNat_ofNat]
    omega
  have hsum : recordAt before + 10#16 + 1#16 = recordAt before + 11#16 := by
    rw [BitVec.add_assoc]
    rfl
  have h₁₀ := hd.byte (j := 10) (by omega)
  have h₁₁ := hd.byte (j := 11) (by omega)
  rw [read16_read8 hten, hsum, h₁₀, h₁₁, DirRecord.dataLength, BitVec.append_assoc]
  exact BitVec.setWidth_append_eq_right.symm

/-- The number of rounds for its name. -/
theorem IsDirectory.nameRounds (hd : IsDirectory m (before ++ r :: after)) :
    rounds ((read8 m (recordAt before + 32#16)).setWidth 16) = nameLen r.bytes := by
  have hnamed := r.named
  have hfits := r.fits
  have hlen := hd.byte (j := 32) (by omega)
  have hlt := (r.bytes.getD 32 0#8).isLt
  rw [hlen, rounds, BitVec.toNat_setWidth, Nat.mod_eq_of_lt (by omega), if_neg]
  · rfl
  · exact Nat.one_le_iff_ne_zero.mp hnamed

/-- Where the next one starts. -/
theorem IsDirectory.next (hd : IsDirectory m (before ++ r :: after)) :
    recordAt before + (read8 m (recordAt before)).setWidth 16 = recordAt (before ++ [r]) := by
  have hfits := r.fits
  have h₀ := hd.byte (j := 0) (by omega)
  rw [BitVec.add_zero] at h₀
  have hlen : (dirBytes (before ++ [r])).length = (dirBytes before).length + r.bytes.length := by
    rw [dirBytes, List.flatMap_append, List.length_append, List.flatMap_singleton]
    rfl
  rw [h₀, recordAt, recordAt, hlen, r.length_eq, BitVec.ofNat_add, BitVec.add_assoc,
    BitVec.ofNat_toNat]

/-- The padding starts with a zero. -/
theorem IsDirectory.padding (hd : IsDirectory m recs) : read8 m (recordAt recs) = 0#8 := by
  have hpadded := hd.padded
  have hbyte := hd.stored.right 0 0#8 (by
    rw [List.getElem?_replicate, if_pos (by omega)])
  rw [BitVec.add_zero] at hbyte
  rw [read8, ← hbyte]
  congr 1
  apply BitVec.eq_of_toNat_eq
  simp only [seg, recordAt, BitVec.toNat_setWidth, BitVec.toNat_add, BitVec.toNat_ofNat]
  omega

theorem DirRecord.ident_length (r : DirRecord) : r.ident.length = nameLen r.bytes := by
  have hfits := r.fits
  rw [ident, List.length_take, List.length_drop]
  omega

/-- The characters of its name. -/
theorem IsDirectory.ident (hd : IsDirectory m (before ++ r :: after)) {i : Nat}
    (hi : i < nameLen r.bytes) :
    r.ident[i]? = some (read8 m (recordAt before + 33#16 + BitVec.ofNat 16 i)) := by
  have hfits := r.fits
  have hbyte := hd.byte (j := 33 + i) (by omega)
  rw [BitVec.add_assoc, ← BitVec.ofNat_add, hbyte, DirRecord.ident,
    List.getElem?_take_of_lt hi, List.getElem?_drop, getElem?_eq_getD (by omega)]

/-! ### Names -/

/-- The stem of a name that has a `;`, or ends. -/
theorem DirRecord.stem_eq_take {k : Nat} (hk : k ≤ r.ident.length)
    (hne : ∀ i < k, r.ident[i]? ≠ some 0x3b#8)
    (hend : k < r.ident.length → r.ident[k]? = some 0x3b#8) : r.stem = r.ident.take k := by
  have hsplit : r.ident = r.ident.take k ++ r.ident.drop k := (List.take_append_drop k _).symm
  have htake : ∀ c ∈ r.ident.take k, decide (c ≠ 0x3b#8) = true := by
    intro c hc
    obtain ⟨i, hi⟩ := List.mem_iff_getElem?.mp hc
    rw [decide_eq_true_eq]
    rintro rfl
    by_cases hik : i < k
    · rw [List.getElem?_take_of_lt hik] at hi
      exact hne i hik hi
    · rw [List.getElem?_eq_none (by rw [List.length_take]; omega)] at hi
      exact absurd hi (by simp)
  have hdrop : (r.ident.drop k).takeWhile (· ≠ 0x3b#8) = [] := by
    by_cases hlt : k < r.ident.length
    · have hhead := hend hlt
      rw [List.getElem?_eq_getElem hlt, Option.some.injEq] at hhead
      rw [List.drop_eq_getElem_cons hlt, List.takeWhile_cons_of_neg]
      simp [hhead]
    · rw [List.drop_eq_nil_of_le (by omega)]
      rfl
  rw [stem, hsplit, List.takeWhile_append_of_pos htake, hdrop, List.append_nil, ← hsplit]

/-- Behind the stem there is a `;`, or nothing. -/
theorem DirRecord.stem_end (r : DirRecord) (h : r.stem.length < r.ident.length) :
    r.ident[r.stem.length]? = some 0x3b#8 := by
  have hsplit : r.stem ++ r.ident.dropWhile (· ≠ 0x3b#8) = r.ident :=
    List.takeWhile_append_dropWhile
  cases hrest : r.ident.dropWhile (· ≠ 0x3b#8) with
  | nil =>
    rw [hrest, List.append_nil] at hsplit
    rw [hsplit] at h
    exact absurd h (Nat.lt_irrefl _)
  | cons c cs =>
    have hhead := List.head?_dropWhile_not (· ≠ 0x3b#8) r.ident
    rw [hrest] at hhead
    have hc : c = 0x3b#8 := by simpa using hhead
    rw [← hsplit, hrest, hc]
    exact List.getElem?_append_right (Nat.le_refl _) |>.trans (by rw [Nat.sub_self]; rfl)

/-- **The path begins with the name of a record** exactly when the stem is a beginning of the
    component. -/
theorem IsDirectory.hits_iff (hd : IsDirectory m (before ++ r :: after))
    (hp : IsComponent m p name) : Hits m (recordAt before) p ↔ r.stem <+: name := by
  have hlen := r.ident_length
  unfold Hits
  rw [hd.nameRounds, List.prefix_iff_getElem?]
  constructor
  · rintro ⟨k, hk, hsame, hend⟩
    have hstem : r.stem = r.ident.take k := by
      refine DirRecord.stem_eq_take (by omega) (fun i hi => ?_) fun hlt => ?_
      · rw [hd.ident (by omega)]
        exact fun h => (hsame i hi).2 (Option.some.inj h)
      · rw [hd.ident (by omega), hend (by omega)]
    have hident : ∀ i < k, r.ident[i]? = some (read8 m (p + BitVec.ofNat 16 i)) := by
      intro i hi
      rw [hd.ident (by omega), (hsame i hi).1]
    -- no name goes on past the end of the component
    have hle : k ≤ name.length := by
      by_contra hgt
      have hlast := hident name.length (by omega)
      have hchar := r.chars _ (List.mem_of_getElem? hlast) (hp.ended.symm)
      have hone : r.ident = [0#8] := hchar
      have hlen' : r.ident.length = 1 := by rw [hone]; rfl
      exact hp.nonempty (List.length_eq_zero_iff.mp (by omega))
    intro i hi
    have hik := hi
    rw [hstem, List.length_take] at hik
    have hname := List.getElem?_eq_getElem (show i < name.length by omega)
    have hsame' : r.stem[i]? = name[i]? := by
      rw [hstem, List.getElem?_take_of_lt (by omega), hident i (by omega), hp.stored i _ hname,
        hname]
    exact hsame'.symm.trans (List.getElem?_eq_getElem hi)
  · intro hbegins
    have hle : r.stem.length ≤ r.ident.length := (List.takeWhile_prefix _).length_le
    refine ⟨r.stem.length, by omega, fun i hi => ?_, fun hlt => ?_⟩
    · have hchar := List.prefix_iff_getElem?.mp (List.takeWhile_prefix (· ≠ 0x3b#8)) i hi
      rw [hd.ident (by omega)] at hchar
      rw [Option.some.inj hchar, hp.stored i _ (hbegins i hi)]
      have hmem : r.stem[i] ∈ r.ident.takeWhile (· ≠ 0x3b#8) := List.getElem_mem hi
      have hne := List.mem_takeWhile_imp hmem
      exact ⟨rfl, of_decide_eq_true hne⟩
    · have hsemi := r.stem_end (by omega)
      rw [hd.ident hlt] at hsemi
      exact Option.some.inj hsemi

/-! ### The search -/

/-- The record stops the search: the path begins with its name, or the low half of its length is
    zero. -/
def Stops (name : List (BitVec 8)) (r : DirRecord) : Prop :=
  r.stem <+: name ∨ r.dataLength.setWidth 16 = 0#16

instance (name : List (BitVec 8)) : DecidablePred (Stops name) :=
  fun _ => inferInstanceAs (Decidable (_ ∨ _))

/-- **Run lemma.**  Records that do not stop the search are passed over. -/
theorem IsDirectory.skip (hp : IsComponent m p name) {mid : List DirRecord}
    (hd : IsDirectory m (before ++ (mid ++ after))) (hmid : ∀ q ∈ mid, ¬ Stops name q) :
    searchDirectory m p (mid.length + n) (recordAt before)
      = searchDirectory m p n (recordAt (before ++ mid)) := by
  induction mid generalizing before with
  | nil => rw [List.append_nil, List.length_nil, Nat.zero_add]
  | cons r mid ih =>
    have hno := hmid r List.mem_cons_self
    have hmiss : ¬ Hits m (recordAt before) p := fun h => hno (Or.inl ((hd.hits_iff hp).mp h))
    have hword : read16 m (recordAt before + 10#16) ≠ 0#16 := by
      rw [hd.length]
      exact fun h => hno (Or.inr h)
    have hlen : (r :: mid).length + n = mid.length + n + 1 := by
      rw [List.length_cons]
      omega
    rw [hlen, searchDirectory_miss hmiss, if_neg hword, hd.next]
    have hnext : before ++ (r :: mid ++ after) = before ++ [r] ++ (mid ++ after) := by simp
    rw [hnext] at hd
    rw [ih hd fun q hq => hmid q (List.mem_cons_of_mem r hq), List.append_assoc]
    rfl

/-- With more rounds the search comes to the same end. -/
theorem searchDirectory_mono {result : Search} {k : Nat}
    (h : searchDirectory m p n a = some result) : searchDirectory m p (n + k) a = some result := by
  induction n generalizing a with
  | zero => exact absurd h (by simp [searchDirectory])
  | succ n ih =>
    have hlen : n + 1 + k = n + k + 1 := by omega
    rw [hlen]
    by_cases hhit : Hits m a p
    · obtain ⟨r, hr, -⟩ := searchDirectory_hit hhit
      rw [hr] at h ⊢
      exact h
    · rw [searchDirectory_miss hhit] at h ⊢
      split at h
      · rename_i hz
        rw [if_pos hz]
        exact h
      · rename_i hz
        rw [if_neg hz]
        exact ih h

/-- The first record that stops a search is one. -/
theorem first_unique {α : Type} {P : α → Prop} {l a b a' b' : List α} {x x' : α}
    (h : l = a ++ x :: b) (h' : l = a' ++ x' :: b') (ha : ∀ q ∈ a, ¬ P q) (hx : P x)
    (ha' : ∀ q ∈ a', ¬ P q) (hx' : P x') : a = a' ∧ x = x' := by
  rcases List.append_eq_append_iff.mp (h.symm.trans h') with ⟨c, hc, hc'⟩ | ⟨c, hc, hc'⟩
  · cases c with
    | nil => exact ⟨(List.append_nil a ▸ hc).symm, (List.cons.inj hc').1⟩
    | cons y c =>
      obtain ⟨rfl, -⟩ := List.cons.inj hc'
      exact absurd hx (ha' _ (hc ▸ List.mem_append_right _ List.mem_cons_self))
  · cases c with
    | nil => exact ⟨List.append_nil a' ▸ hc, (List.cons.inj hc').1.symm⟩
    | cons y c =>
      obtain ⟨rfl, -⟩ := List.cons.inj hc'
      exact absurd hx' (ha _ (hc ▸ List.mem_append_right _ List.mem_cons_self))

/-- Records take up space. -/
theorem dirBytes_lt (before : List DirRecord) (r : DirRecord) (after : List DirRecord) :
    (dirBytes before).length < (dirBytes (before ++ r :: after)).length := by
  have hfits := r.fits
  rw [dirBytes, dirBytes, List.flatMap_append, List.flatMap_cons, List.length_append,
    List.length_append]
  omega

/-- Records in different places are different. -/
theorem IsDirectory.record_unique {before' after' : List DirRecord} {r' : DirRecord}
    (hd : IsDirectory m (before ++ r :: after))
    (heq : before ++ r :: after = before' ++ r' :: after')
    (hat : recordAt before = recordAt before') : r = r' := by
  have hd' := hd
  rw [heq] at hd'
  have hlen : (dirBytes before).length = (dirBytes before').length := by
    have h := congrArg BitVec.toNat hat
    rw [hd.recordAt_toNat.1, hd'.recordAt_toNat.1] at h
    omega
  rcases List.append_eq_append_iff.mp heq with ⟨c, hc, hc'⟩ | ⟨c, hc, hc'⟩
  · cases c with
    | nil => exact (List.cons.inj hc').1
    | cons y c =>
      have := dirBytes_lt before y c
      rw [← hc] at this
      omega
  · cases c with
    | nil => exact (List.cons.inj hc').1.symm
    | cons y c =>
      have := dirBytes_lt before' y c
      rw [← hc] at this
      omega

/-- The search comes to an end, with the right result. -/
def Finds (m : Mem) (p : BitVec 16) (recs : List DirRecord) (name : List (BitVec 8)) : Prop :=
  ∃ n result, searchDirectory m p n 0x8c00#16 = some result ∧ RightResult recs name result

/-- The padding, read as an entry, ends the search. -/
def PaddingEnds (m : Mem) (p : BitVec 16) (recs : List DirRecord) : Prop :=
  read16 m (recordAt recs + 10#16) = 0#16 ∧ ¬ Hits m (recordAt recs) p

/-- A search that ends is what counts. -/
theorem finds_iff {result : Search} (h : searchDirectory m p n 0x8c00#16 = some result) :
    Finds m p recs name ↔ RightResult recs name result := by
  constructor
  · rintro ⟨k, result', hk, hright⟩
    have hsame := searchDirectory_mono (k := n) hk
    rw [Nat.add_comm, searchDirectory_mono h, Option.some.injEq] at hsame
    exact hsame ▸ hright
  · exact fun hright => ⟨n, result, h, hright⟩

/-- **Stopped by a name.** -/
theorem IsDirectory.finds_of_hit (hd : IsDirectory m (before ++ r :: after))
    (hp : IsComponent m p name) (hbefore : ∀ q ∈ before, ¬ Stops name q) (hhit : r.stem <+: name) :
    Finds m p (before ++ r :: after) name ↔ r.stem = name := by
  obtain ⟨result, hrun, hsel⟩ := searchDirectory_hit ((hd.hits_iff hp).mpr hhit)
  have hskip : searchDirectory m p (before.length + 1) (recordAt []) = _ :=
    IsDirectory.skip hp hd hbefore
  rw [List.nil_append, hrun 0] at hskip
  rw [finds_iff hskip]
  constructor
  · rintro (⟨before', r', after', heq, hname, hsel'⟩ | ⟨-, hnone⟩)
    · have hat := Option.some.inj (hsel.symm.trans hsel')
      rw [hd.record_unique heq hat]
      exact hname
    · rw [hnone] at hsel
      exact absurd hsel (by simp [Search.selected])
  · intro hname
    exact Or.inl ⟨before, r, after, rfl, hname, hsel⟩

/-- **Stopped by a length.** -/
theorem IsDirectory.finds_of_empty (hd : IsDirectory m (before ++ r :: after))
    (hp : IsComponent m p name) (hbefore : ∀ q ∈ before, ¬ Stops name q)
    (hmiss : ¬ r.stem <+: name) (hzero : r.dataLength.setWidth 16 = 0#16) :
    Finds m p (before ++ r :: after) name ↔ ∀ q ∈ before ++ r :: after, q.stem ≠ name := by
  have hskip : searchDirectory m p (before.length + 1) (recordAt []) = _ :=
    IsDirectory.skip hp hd hbefore
  rw [List.nil_append, searchDirectory_miss (mt (hd.hits_iff hp).mp hmiss), hd.length,
    if_pos hzero] at hskip
  rw [finds_iff hskip]
  constructor
  · rintro (⟨_, _, _, -, -, hsel⟩ | ⟨hnone, -⟩)
    · exact absurd hsel (by simp [Search.selected])
    · exact hnone
  · exact fun hnone => Or.inr ⟨hnone, rfl⟩

/-- **Not stopped.**  The search goes on into the padding. -/
theorem IsDirectory.finds_of_end (hd : IsDirectory m recs) (hp : IsComponent m p name)
    (hall : ∀ q ∈ recs, ¬ Stops name q) : Finds m p recs name ↔ PaddingEnds m p recs := by
  have hnone : ∀ q ∈ recs, q.stem ≠ name := fun q hq h =>
    hall q hq (Or.inl (h ▸ List.prefix_rfl))
  have hskip : ∀ n, searchDirectory m p (recs.length + n) 0x8c00#16
      = searchDirectory m p n (recordAt recs) := fun n => by
    have hd' : IsDirectory m ([] ++ (recs ++ [])) := by rwa [List.append_nil, List.nil_append]
    exact IsDirectory.skip hp hd' hall
  by_cases hhit : Hits m (recordAt recs) p
  · obtain ⟨result, hrun, hsel⟩ := searchDirectory_hit hhit
    rw [finds_iff ((hskip 1).trans (hrun 0))]
    refine ⟨?_, fun hends => absurd hhit hends.2⟩
    rintro (⟨before, r, after, heq, -, hsel'⟩ | ⟨-, hres⟩)
    · -- the padding is behind all records
      have hat := congrArg BitVec.toNat (Option.some.inj (hsel.symm.trans hsel'))
      have hlt := dirBytes_lt before r after
      have hd₁ : IsDirectory m (recs ++ []) := by rwa [List.append_nil]
      have hd₂ := hd
      rw [heq] at hd₂
      rw [hd₁.recordAt_toNat.1, hd₂.recordAt_toNat.1] at hat
      rw [← heq] at hlt
      omega
    · rw [hres] at hsel
      exact absurd hsel (by simp [Search.selected])
  · by_cases hzero : read16 m (recordAt recs + 10#16) = 0#16
    · have hrun : searchDirectory m p 1 (recordAt recs) = some .notFound := by
        rw [searchDirectory_miss hhit, if_pos hzero]
      rw [finds_iff ((hskip 1).trans hrun)]
      exact ⟨fun _ => ⟨hzero, hhit⟩, fun _ => Or.inr ⟨hnone, rfl⟩⟩
    · refine ⟨?_, fun hends => absurd hends.1 hzero⟩
      rintro ⟨n, result, hrun, -⟩
      have hlong := searchDirectory_mono (k := recs.length) hrun
      rw [Nat.add_comm, hskip] at hlong
      -- a record length of zero: the search stays where it is
      have hstay : ∀ n, searchDirectory m p n (recordAt recs) = none := by
        intro n
        induction n with
        | zero => rfl
        | succ n ih =>
          rw [searchDirectory_miss hhit, if_neg hzero, hd.padding, BitVec.setWidth_zero,
            BitVec.add_zero]
          exact ih
      rw [hstay] at hlong
      exact absurd hlong (by simp)

/-- No record comes in the way: before the record with the name there is none that stops the
    search; and if there is no such record, then the first that does has a length whose low half is
    zero, or there is none and the padding ends the search. -/
def Unhindered (m : Mem) (p : BitVec 16) (recs : List DirRecord) (name : List (BitVec 8)) : Prop :=
  (∃ before r after, recs = before ++ r :: after ∧ (∀ q ∈ before, ¬ Stops name q) ∧
      r.stem = name) ∨
    (∀ q ∈ recs, q.stem ≠ name) ∧
      ((∃ before r after, recs = before ++ r :: after ∧ (∀ q ∈ before, ¬ Stops name q) ∧
          ¬ r.stem <+: name ∧ r.dataLength.setWidth 16 = 0#16) ∨
        (∀ q ∈ recs, ¬ Stops name q) ∧ PaddingEnds m p recs)

/-- **Looking up a name.**  For every directory and every component, the search ends with the record
    that has the name, or finds none when there is none, exactly when no record comes in the
    way. -/
theorem searchDirectory_finds_iff (hd : IsDirectory m recs) (hp : IsComponent m p name) :
    Finds m p recs name ↔ Unhindered m p recs name := by
  cases hfind : recs.find? (fun q => decide (Stops name q)) with
  | none =>
    have hall : ∀ q ∈ recs, ¬ Stops name q := by
      intro q hq
      simpa using List.find?_eq_none.mp hfind q hq
    have hnone : ∀ q ∈ recs, q.stem ≠ name := fun q hq h =>
      hall q hq (Or.inl (h ▸ List.prefix_rfl))
    rw [hd.finds_of_end hp hall]
    constructor
    · exact fun hends => Or.inr ⟨hnone, Or.inr ⟨hall, hends⟩⟩
    · rintro (⟨b, r, a, rfl, -, hname⟩ | ⟨-, ⟨b, r, a, rfl, -, -, hz⟩ | ⟨-, hends⟩⟩)
      · exact absurd hname (hnone r (by simp))
      · exact absurd (Or.inr hz) (hall r (by simp))
      · exact hends
  | some r =>
    obtain ⟨hr, before, after, heq, hbefore⟩ := List.find?_eq_some_iff_append.mp hfind
    have hstop : Stops name r := of_decide_eq_true hr
    have hpass : ∀ q ∈ before, ¬ Stops name q := by
      intro q hq
      simpa using hbefore q hq
    -- every way to say which record is the first
    have hfirst : ∀ {b r' a}, recs = b ++ r' :: a → (∀ q ∈ b, ¬ Stops name q) → Stops name r' →
        r' = r := fun h hb hs => (first_unique h heq hb hs hpass hstop).2
    subst heq
    by_cases hhit : r.stem <+: name
    · rw [hd.finds_of_hit hp hpass hhit]
      constructor
      · exact fun hname => Or.inl ⟨before, r, after, rfl, hpass, hname⟩
      · rintro (⟨b, r', a, h, hb, hname⟩ | ⟨-, ⟨b, r', a, h, hb, hmiss, hz⟩ | ⟨hall, -⟩⟩)
        · rw [← hfirst h hb (Or.inl (hname ▸ List.prefix_rfl))]
          exact hname
        · rw [hfirst h hb (Or.inr hz)] at hmiss
          exact absurd hhit hmiss
        · exact absurd hstop (hall r (by simp))
    · have hzero := hstop.resolve_left hhit
      rw [hd.finds_of_empty hp hpass hhit hzero]
      constructor
      · exact fun hnone => Or.inr ⟨hnone, Or.inl ⟨before, r, after, rfl, hpass, hhit, hzero⟩⟩
      · rintro (⟨b, r', a, h, hb, hname⟩ | ⟨hnone, -⟩)
        · have hsame := hfirst h hb (Or.inl (hname ▸ List.prefix_rfl))
          exact absurd (hname ▸ hsame ▸ List.prefix_rfl) hhit
        · exact hnone

/-- With room for the fixed part of a record the padding ends the search. -/
theorem IsDirectory.padding_ends (hd : IsDirectory m recs) (hp : IsComponent m p name)
    (hroom : (dirBytes recs).length + 34 ≤ 2048) : PaddingEnds m p recs := by
  have hpadded := hd.padded
  have hd' : IsDirectory m (recs ++ []) := by rwa [List.append_nil]
  obtain ⟨hnat, -⟩ := hd'.recordAt_toNat
  have hzero : ∀ j < 34, read8 m (recordAt recs + BitVec.ofNat 16 j) = 0#8 := by
    intro j hj
    have hbyte := hd.stored.right j 0#8 (by rw [List.getElem?_replicate, if_pos (by omega)])
    rw [read8, ← hbyte]
    congr 1
    apply BitVec.eq_of_toNat_eq
    simp only [seg, recordAt, BitVec.toNat_setWidth, BitVec.toNat_add, BitVec.toNat_ofNat]
    omega
  constructor
  · have hten : (recordAt recs + 10#16).toNat + 1 < 0x10000 := by
      rw [BitVec.toNat_add, hnat, BitVec.toNat_ofNat]
      omega
    have h₁₀ : read8 m (recordAt recs + 10#16) = 0#8 := hzero 10 (by omega)
    have h₁₁ : read8 m (recordAt recs + 11#16) = 0#8 := hzero 11 (by omega)
    have hsum : recordAt recs + 10#16 + 1#16 = recordAt recs + 11#16 := by
      rw [BitVec.add_assoc]
      rfl
    rw [read16_read8 hten, hsum, h₁₀, h₁₁]
    rfl
  · -- the first character would be a NUL, and no component begins with one
    rintro ⟨k, -, hsame, hend⟩
    have h₃₃ : read8 m (recordAt recs + 33#16 + BitVec.ofNat 16 0) = 0#8 := by
      rw [BitVec.add_zero]
      exact hzero 33 (by omega)
    by_cases hk : k = 0
    · subst hk
      rw [hend (rounds_pos _)] at h₃₃
      exact absurd h₃₃ (by decide)
    · obtain ⟨c, cs, rfl⟩ := List.exists_cons_of_ne_nil hp.nonempty
      rw [(hsame 0 (by omega)).1, hp.stored 0 c rfl] at h₃₃
      exact (hp.chars c List.mem_cons_self).1 h₃₃

/-! ### Three records -/

/-- Memory with a directory, and a path at `0x7000`. -/
def dirMemory (recs : List DirRecord) (path : List (BitVec 8)) : Mem := fun x =>
  if 0x8c00 ≤ x.toNat then (dirBytes recs).getD (x.toNat - 0x8c00) 0#8
  else path.getD (x.toNat - 0x7000) 0#8

theorem isDirectory_dirMemory {path : List (BitVec 8)} (h : (dirBytes recs).length < 2048) :
    IsDirectory (dirMemory recs path) recs := by
  refine ⟨h, fun i b hb => ?_⟩
  obtain ⟨hi, -⟩ := List.getElem?_eq_some_iff.mp hb
  rw [List.length_append, List.length_replicate] at hi
  have hnat : (0x8c00#32 + BitVec.ofNat 32 i).toNat = 0x8c00 + i := by
    rw [BitVec.toNat_add, BitVec.toNat_ofNat, BitVec.toNat_ofNat]
    omega
  rw [dirMemory, hnat, if_pos (by omega), Nat.add_sub_cancel_left, List.getD_eq_getElem?_getD]
  by_cases hin : i < (dirBytes recs).length
  · rw [List.getElem?_append_left hin] at hb
    rw [hb]
    rfl
  · rw [List.getElem?_append_right (by omega), List.getElem?_replicate, if_pos (by omega)] at hb
    rw [List.getElem?_eq_none (by omega), ← Option.some.inj hb]
    rfl

/-- The bytes of a record with an identifier. -/
def recordBytes (ident : List (BitVec 8)) : List (BitVec 8) :=
  [BitVec.ofNat 8 (33 + ident.length), 0x00#8, 0x20#8, 0x00#8, 0x00#8, 0x00#8, 0x00#8, 0x00#8,
   0x00#8, 0x20#8, 0x00#8, 0x08#8, 0x00#8, 0x00#8, 0x00#8, 0x00#8, 0x08#8, 0x00#8] ++
    List.replicate 14 0x00#8 ++ [BitVec.ofNat 8 ident.length] ++ ident

/-- `KER;1`. -/
def kerRecord : DirRecord where
  bytes := recordBytes [0x4b#8, 0x45#8, 0x52#8, 0x3b#8, 0x31#8]
  length_eq := by decide
  named := by decide
  fits := by decide
  chars := by simp [recordBytes, nameLen]

/-- `BOOT;1`. -/
def bootRecord : DirRecord where
  bytes := recordBytes [0x42#8, 0x4f#8, 0x4f#8, 0x54#8, 0x3b#8, 0x31#8]
  length_eq := by decide
  named := by decide
  fits := by decide
  chars := by simp [recordBytes, nameLen]

/-- `KERNELS;1`. -/
def kernelsRecord : DirRecord where
  bytes := recordBytes [0x4b#8, 0x45#8, 0x52#8, 0x4e#8, 0x45#8, 0x4c#8, 0x53#8, 0x3b#8, 0x31#8]
  length_eq := by decide
  named := by decide
  fits := by decide
  chars := by simp [recordBytes, nameLen]

/-- `KERNELS`. -/
def kernelsName : List (BitVec 8) := [0x4b#8, 0x45#8, 0x52#8, 0x4e#8, 0x45#8, 0x4c#8, 0x53#8]

theorem isComponent_kernels (recs : List DirRecord) :
    IsComponent (dirMemory recs kernelsName) 0x7000#16 kernelsName := by
  have hread : ∀ i < 8, read8 (dirMemory recs kernelsName) (0x7000#16 + BitVec.ofNat 16 i)
      = kernelsName.getD i 0#8 := by
    intro i hi
    have hnat : (seg (0x7000#16 + BitVec.ofNat 16 i)).toNat = 0x7000 + i := by
      simp only [seg, BitVec.toNat_setWidth, BitVec.toNat_add, BitVec.toNat_ofNat]
      omega
    rw [read8, dirMemory, hnat, if_neg (by omega), Nat.add_sub_cancel_left]
  refine ⟨by decide, by simp [kernelsName], fun i c hc => ?_, Or.inl (hread 7 (by decide))⟩
  obtain ⟨hi, -⟩ := List.getElem?_eq_some_iff.mp hc
  rw [hread i (Nat.lt_trans hi (by decide)), List.getD_eq_getElem?_getD, hc]
  rfl

/-- Behind a file of another name, which is passed over, the file is found; and without it the
    search finds nothing. -/
theorem searchDirectory_finds_iff_second :
    Finds (dirMemory [bootRecord, kernelsRecord] kernelsName) 0x7000#16 [bootRecord, kernelsRecord]
        kernelsName ∧
      Finds (dirMemory [bootRecord] kernelsName) 0x7000#16 [bootRecord] kernelsName := by
  have hpass : ∀ q ∈ [bootRecord], ¬ Stops kernelsName q := by
    intro q hq
    obtain rfl := List.mem_singleton.mp hq
    decide
  have hother : ∀ q ∈ [bootRecord], q.stem ≠ kernelsName := fun q hq h =>
    hpass q hq (Or.inl (h ▸ List.prefix_rfl))
  have hd : IsDirectory (dirMemory [bootRecord] kernelsName) [bootRecord] :=
    isDirectory_dirMemory (by decide)
  constructor
  · exact (searchDirectory_finds_iff (isDirectory_dirMemory (by decide))
      (isComponent_kernels _)).mpr
        (Or.inl ⟨[bootRecord], kernelsRecord, [], rfl, hpass, by decide⟩)
  · exact (searchDirectory_finds_iff hd (isComponent_kernels _)).mpr
      (Or.inr ⟨hother, Or.inr ⟨hpass, hd.padding_ends (isComponent_kernels _) (by decide)⟩⟩)

/-- **The wrong file.**  Behind a file whose name is the beginning of its own it is not found. -/
theorem shorter_name_selected : ¬ ∀ (m : Mem) (p : BitVec 16) (recs : List DirRecord)
    (name : List (BitVec 8)), IsDirectory m recs → IsComponent m p name → Finds m p recs name := by
  intro h
  have hd : IsDirectory (dirMemory ([] ++ kerRecord :: [kernelsRecord]) kernelsName)
      ([] ++ kerRecord :: [kernelsRecord]) := isDirectory_dirMemory (by decide)
  have hp := isComponent_kernels ([] ++ kerRecord :: [kernelsRecord])
  have hfinds := (hd.finds_of_hit hp (by simp) (by decide)).mp (h _ _ _ _ hd hp)
  exact absurd hfinds (by decide)

end Search

end Leoman.IsoFs
