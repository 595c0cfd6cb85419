import Leoman.Merging

namespace Leoman

/-!
# When merging keeps the memory map

A table of at most 32 entries keeps its map only if it is `Mergeable`: the loop either reads past
the table, or leaves an entry that covers a gap, or one too short for its run.  (With more entries
the loop may also leave entries twice, which need not show.)

* `exists_gap` — a run with a gap has an address that its lengths reach and its entries do not;
* `mergeAt_none` — reads past the table;
* `Keeps.mergeable` — the induction along the table;
* `merging_preserves` — the result, in both directions.
-/

/-- The one entry ends before the other begins. -/
def EntryApart (e e' : BootMapEntry) : Prop := e.baseLow.toNat + e.lenLow.toNat ≤ e'.baseLow.toNat

section Gaps

variable {run : List BootMapEntry} {stop : Nat}

/-- Sorted entries from an address on leave room for their lengths. -/
theorem runLen_le {b : Nat} (hs : run.Pairwise EntryApart) (hlo : ∀ x ∈ run, stop ≤ x.baseLow.toNat)
    (hhi : ∀ x ∈ run, x.baseLow.toNat + x.lenLow.toNat ≤ b) (hb : stop ≤ b) :
    stop + runLen run ≤ b := by
  induction run generalizing stop with
  | nil => simpa [runLen] using hb
  | cons e run ih =>
    obtain ⟨he, hs⟩ := List.pairwise_cons.mp hs
    have hstop := hlo e List.mem_cons_self
    have hend := hhi e List.mem_cons_self
    have hlo' : ∀ x ∈ run, stop + e.lenLow.toNat ≤ x.baseLow.toNat := by
      intro x hx
      have h : _ ≤ _ := he x hx
      omega
    have hrest := ih hs hlo' (fun x hx => hhi x (List.mem_cons_of_mem e hx)) (by omega)
    rw [runLen_cons]
    omega

/-- A gap is an address that the lengths of the run reach and no entry covers. -/
theorem exists_gap (hs : run.Pairwise EntryApart) (hlo : ∀ x ∈ run, stop ≤ x.baseLow.toNat)
    (hc : ¬ Contiguous stop run) :
    ∃ a, stop ≤ a ∧ a < stop + runLen run ∧ ∀ x ∈ run, ¬ x.Covers a := by
  induction run generalizing stop with
  | nil => exact absurd trivial hc
  | cons e run ih =>
    obtain ⟨he, hs⟩ := List.pairwise_cons.mp hs
    have hstop := hlo e List.mem_cons_self
    rw [runLen_cons]
    unfold Contiguous at hc
    split at hc
    · -- an empty entry is passed over
      rename_i hzero
      have hz : e.lenLow.toNat = 0 := by rw [hzero]; rfl
      obtain ⟨a, ha, ha', hno⟩ := ih hs (fun x hx => hlo x (List.mem_cons_of_mem e hx)) hc
      refine ⟨a, ha, by omega, fun x hx => ?_⟩
      rcases List.mem_cons.mp hx with rfl | hx
      · rintro ⟨h₁, h₂⟩
        omega
      · exact hno x hx
    · rename_i hlen
      have hpos : 0 < e.lenLow.toNat := Nat.pos_of_ne_zero fun h => hlen (BitVec.eq_of_toNat_eq h)
      by_cases hbase : e.baseLow.toNat = stop
      · have hlo' : ∀ x ∈ run, stop + e.lenLow.toNat ≤ x.baseLow.toNat := by
          intro x hx
          have h : _ ≤ _ := he x hx
          omega
        obtain ⟨a, ha, ha', hno⟩ := ih hs hlo' fun h => hc ⟨hbase, h⟩
        refine ⟨a, by omega, by omega, fun x hx => ?_⟩
        rcases List.mem_cons.mp hx with rfl | hx
        · rintro ⟨h₁, h₂⟩
          omega
        · exact hno x hx
      · -- the gap begins at once
        refine ⟨stop, Nat.le_refl stop, by omega, fun x hx => ?_⟩
        rcases List.mem_cons.mp hx with rfl | hx
        · rintro ⟨h₁, -⟩
          omega
        · rintro ⟨h₁, -⟩
          have h : _ ≤ _ := he x hx
          omega

end Gaps

/-! ### Reads past the table -/

section Past

variable {t t' : BootMap} {i j k n r : Nat}

/-- A run up to the end of the table has no end. -/
theorem sumRun_none (htype : ∀ m, i + j ≤ m → m < 64 → (t m).type = (t i).type)
    (len : BitVec 32) : sumRun t i n j len = none := by
  induction n generalizing j len with
  | zero => rfl
  | succ n ih =>
    unfold sumRun
    by_cases hlt : i + j < 64
    · rw [readEntry_of_lt hlt, Option.bind_eq_bind, Option.bind_some,
        if_pos (htype _ (Nat.le_refl _) hlt)]
      exact ih (fun m hm hm' => htype m (by omega) hm') _
    · rw [readEntry, if_neg hlt]
      rfl

/-- Moving down by more entries than are left reads past the table. -/
theorem shiftDown_none (hn : 0 < n) (hend : 64 < k + n + r) : shiftDown r n t k = none := by
  induction n generalizing t k with
  | zero => omega
  | succ n ih =>
    unfold shiftDown
    by_cases hlt : k + r < 64
    · rw [readEntry_of_lt hlt, Option.bind_eq_bind, Option.bind_some]
      exact ih (by omega) (by omega)
    · rw [readEntry, if_neg hlt]
      rfl

/-- Moving down leaves the entries before alone. -/
theorem shiftDown_frame (h : shiftDown r n t k = some t') (hj : j < k) : t' j = t j := by
  induction n generalizing t k with
  | zero =>
    obtain rfl := Option.some.inj h
    rfl
  | succ n ih =>
    unfold shiftDown at h
    obtain ⟨next, -, h⟩ := Option.bind_eq_some_iff.mp h
    rw [ih h (by omega), Function.update_of_ne (by omega)]

/-- A round leaves the entries before its index alone. -/
theorem mergeAt_frame (h : mergeAt t i = some t') (hj : j < i) : t' j = t j := by
  unfold mergeAt at h
  simp only at h
  split at h
  · obtain rfl := Option.some.inj h
    rfl
  · obtain ⟨next, -, h⟩ := Option.bind_eq_some_iff.mp h
    split at h
    · obtain ⟨⟨j', len⟩, -, h⟩ := Option.bind_eq_some_iff.mp h
      rw [shiftDown_frame h (by omega), Function.update_of_ne (by omega)]
    · obtain rfl := Option.some.inj h
      rfl

/-- So does the loop. -/
theorem mergeLoop_frame (h : mergeLoop n t i = some t') (hj : j < i) : t' j = t j := by
  induction n generalizing t i with
  | zero =>
    obtain rfl := Option.some.inj h
    rfl
  | succ n ih =>
    unfold mergeLoop at h
    obtain ⟨t₁, h₁, h⟩ := Option.bind_eq_some_iff.mp h
    rw [ih h (by omega), mergeAt_frame h₁ hj]

end Past

section Rounds

variable {t : BootMap} {front rest run after : List BootMapEntry} {e : BootMapEntry} {i : Nat}

/-- A run of type 0 that goes on into the zeros. -/
theorem mergeAt_none_of_zeros (h : Lists t (front ++ e :: rest)) (hi : front.length = i)
    (hlt : i < 63) (he : e.lenLow ||| e.lenHigh ≠ 0#32) (htype : e.type = 0#32)
    (hrest : ∀ x ∈ rest, x.type = e.type) : mergeAt t i = none := by
  have hall : ∀ m, i + 1 ≤ m → m < 64 → (t m).type = e.type := by
    intro m hm hm'
    obtain ⟨d, rfl⟩ : ∃ d, m = i + 1 + d := ⟨m - (i + 1), by omega⟩
    rw [h.behind hi hm', List.getD_eq_getElem?_getD]
    cases hd : rest[d]? with
    | none => exact htype.symm
    | some x => exact hrest x (List.mem_of_getElem? hd)
  have hat := h.at hi
  unfold mergeAt
  simp only [hat]
  rw [if_neg he, readEntry_of_lt (by omega), Option.bind_eq_bind, Option.bind_some,
    if_pos (hall _ (Nat.le_refl _) (by omega)),
    sumRun_none (by rw [hat]; exact hall), Option.bind_eq_bind, Option.bind_none]

/-- A run too long for its place. -/
theorem mergeAt_none_of_long (h : Lists t (front ++ e :: (run ++ after))) (hi : front.length = i)
    (he : e.lenLow ||| e.lenHigh ≠ 0#32) (hrun : ∀ x ∈ run, x.type = e.type)
    (hnext : nextType after ≠ e.type) (hlong : i + 1 < run.length)
    (hroom : i + 1 + run.length + after.length ≤ 32) : mergeAt t i = none := by
  have hne : run ≠ [] := by
    rintro rfl
    exact absurd hlong (by simp)
  rw [mergeAt_shifts h hi he hne hrun hnext (by omega)]
  exact shiftDown_none (by omega) (by omega)

end Rounds

/-! ### Along the table -/

section Along

variable {t t' : BootMap} {front rest run after : List BootMapEntry} {e : BootMapEntry} {i : Nat}

/-- The addresses covered after a merge with a gap are not those covered before. -/
theorem contiguous_of_covered (hs : (front ++ e :: (run ++ after)).Pairwise EntryApart)
    (hsum : e.lenLow.toNat + runLen run < 2 ^ 32) (hin : merged e run ∈ t'.entries)
    (hcov : covered t'.entries e.type = covered (front ++ e :: (run ++ after)) e.type) :
    Contiguous (e.baseLow.toNat + e.lenLow.toNat) run := by
  by_contra hc
  obtain ⟨-, hs₁, hfront⟩ := List.pairwise_append.mp hs
  obtain ⟨he, hs₂⟩ := List.pairwise_cons.mp hs₁
  obtain ⟨hsrun, -, hafter⟩ := List.pairwise_append.mp hs₂
  have hlo : ∀ x ∈ run, e.baseLow.toNat + e.lenLow.toNat ≤ x.baseLow.toNat :=
    fun x hx => he x (List.mem_append_left after hx)
  obtain ⟨a, ha, ha', hno⟩ := exists_gap hsrun hlo hc
  -- the merged entry covers the gap
  have hmem : a ∈ covered t'.entries e.type := by
    refine ⟨merged e run, hin, rfl, ?_, ?_⟩
    · show e.baseLow.toNat ≤ a
      omega
    · show a < e.baseLow.toNat + (merged e run).lenLow.toNat
      rw [merged_lenLow hsum]
      omega
  rw [hcov] at hmem
  obtain ⟨y, hy, -, hyl, hyh⟩ := hmem
  -- but no entry did
  rcases List.mem_append.mp hy with hy | hy
  · have h : _ ≤ _ := hfront y hy e List.mem_cons_self
    omega
  rcases List.mem_cons.mp hy with rfl | hy
  · omega
  rcases List.mem_append.mp hy with hy | hy
  · exact hno y hy ⟨hyl, hyh⟩
  · have hend := runLen_le hsrun hlo (fun x hx => hafter x hx y hy)
      (he y (List.mem_append_right run hy))
    omega

/-- A run whose lengths overflow is the last one, and loses its end. -/
theorem runLen_lt_of_covered (hs : (front ++ e :: (run ++ after)).Pairwise EntryApart)
    (hne : run ≠ [])
    (hrun : ∀ x ∈ run, x.type = e.type)
    (hcov : after = [] → covered (front ++ [merged e run]) e.type
      = covered (front ++ e :: (run ++ after)) e.type) :
    e.lenLow.toNat + runLen run < 2 ^ 32 := by
  by_contra hsum
  obtain ⟨-, hs₁, hfront⟩ := List.pairwise_append.mp hs
  obtain ⟨he, hs₂⟩ := List.pairwise_cons.mp hs₁
  obtain ⟨hsrun, -, hafter⟩ := List.pairwise_append.mp hs₂
  have hlo : ∀ x ∈ run, e.baseLow.toNat + e.lenLow.toNat ≤ x.baseLow.toNat :=
    fun x hx => he x (List.mem_append_left after hx)
  -- nothing can begin after the run
  have hnil : after = [] := by
    refine List.eq_nil_iff_forall_not_mem.mpr fun y hy => ?_
    have hend := runLen_le hsrun hlo (fun x hx => hafter x hx y hy)
      (he y (List.mem_append_right run hy))
    have := y.baseLow.isLt
    omega
  -- the last address of the run
  obtain ⟨init, x, rfl⟩ : ∃ init x, run = init ++ [x] := by
    rcases List.eq_nil_or_concat run with hnil | ⟨init, x, hx⟩
    · exact absurd hnil hne
    · exact ⟨init, x, by rw [hx, List.concat_eq_append]⟩
  have hx : x ∈ init ++ [x] := List.mem_append_right init (List.mem_singleton_self x)
  obtain ⟨hsinit, -, hinit⟩ := List.pairwise_append.mp hsrun
  have hend := runLen_le hsinit (fun y hy => hlo y (List.mem_append_left [x] hy))
    (fun y hy => hinit y hy x (List.mem_singleton_self x)) (hlo x hx)
  have hlen : runLen (init ++ [x]) = runLen init + x.lenLow.toNat := by simp [runLen]
  have hxb := x.baseLow.isLt
  have hxl := x.lenLow.isLt
  rw [hlen] at hsum
  have hlast : x.baseLow.toNat + x.lenLow.toNat - 1 ∈
      covered (front ++ e :: ((init ++ [x]) ++ after)) e.type := by
    refine ⟨x, ?_, hrun x hx, by omega, by omega⟩
    exact List.mem_append_right front (List.mem_cons_of_mem e (List.mem_append_left after hx))
  rw [← hcov hnil] at hlast
  obtain ⟨y, hy, -, hyl, hyh⟩ := hlast
  rcases List.mem_append.mp hy with hy | hy
  · have h : _ ≤ _ := hfront y hy e List.mem_cons_self
    omega
  · obtain rfl := List.mem_singleton.mp hy
    have hm : (merged e (init ++ [x])).lenLow.toNat
        = (e.lenLow.toNat + runLen (init ++ [x])) % 2 ^ 32 := foldl_lens _ _
    have hb : (merged e (init ++ [x])).baseLow = e.baseLow := rfl
    rw [hm, hb, hlen] at hyh
    omega

/-- The entries are still apart after a merge. -/
theorem pairwise_merged (hs : (front ++ e :: (run ++ after)).Pairwise EntryApart)
    (hsum : e.lenLow.toNat + runLen run < 2 ^ 32) :
    (front ++ merged e run :: after).Pairwise EntryApart := by
  obtain ⟨hs₀, hs₁, hfront⟩ := List.pairwise_append.mp hs
  obtain ⟨he, hs₂⟩ := List.pairwise_cons.mp hs₁
  obtain ⟨hsrun, hsafter, hafter⟩ := List.pairwise_append.mp hs₂
  refine List.pairwise_append.mpr ⟨hs₀, List.pairwise_cons.mpr ⟨fun y hy => ?_, hsafter⟩, ?_⟩
  · have hend := runLen_le hsrun (fun x hx => he x (List.mem_append_left after hx))
      (fun x hx => hafter x hx y hy) (he y (List.mem_append_right run hy))
    show e.baseLow.toNat + (merged e run).lenLow.toNat ≤ _
    rw [merged_lenLow hsum]
    omega
  · intro x hx y hy
    rcases List.mem_cons.mp hy with rfl | hy
    · exact hfront x hx e List.mem_cons_self
    · exact hfront x hx y (List.mem_cons_of_mem e (List.mem_append_right run hy))

/-- The run of a type that a list begins with. -/
theorem exists_run (l : List BootMapEntry) (type : BitVec 32) : ∃ run after, l = run ++ after ∧
    (∀ x ∈ run, x.type = type) ∧ (after = [] ∨ nextType after ≠ type) := by
  induction l with
  | nil => exact ⟨[], [], rfl, fun _ hx => absurd hx (by simp), Or.inl rfl⟩
  | cons e l ih =>
    by_cases he : e.type = type
    · obtain ⟨run, after, rfl, hrun, hafter⟩ := ih
      refine ⟨e :: run, after, rfl, fun x hx => ?_, hafter⟩
      rcases List.mem_cons.mp hx with rfl | hx
      · exact he
      · exact hrun x hx
    · exact ⟨[], e :: l, rfl, fun _ hx => absurd hx (by simp), Or.inr he⟩

/-- **Along the table**: from index `i` on the loop keeps the map of a short table only if it
    merges well. -/
theorem mergeable_of_covered (hlen : (front ++ rest).length ≤ 32) (hi : front.length = i)
    (h : Lists t (front ++ rest)) (hs : (front ++ rest).Pairwise EntryApart)
    (hrun : mergeLoop (64 - i) t i = some t')
    (hcov : ∀ type, covered t'.entries type = covered (front ++ rest) type) : Mergeable i rest := by
  induction hn : rest.length using Nat.strong_induction_on generalizing front rest t i with
  | _ n ih =>
  cases rest with
  | nil => exact .nil
  | cons e rest =>
    rw [List.length_append, List.length_cons] at hlen
    rw [List.length_cons] at hn
    rw [show 64 - i = 64 - (i + 1) + 1 by omega, mergeLoop] at hrun
    obtain ⟨t₁, h₁, hloop⟩ := Option.bind_eq_some_iff.mp hrun
    -- an entry that stays as it is
    have hstay : mergeAt t i = some t → Mergeable (i + 1) rest := by
      intro hat
      obtain rfl := Option.some.inj (h₁.symm.trans hat)
      have hfront : front ++ e :: rest = (front ++ [e]) ++ rest := by simp
      rw [hfront] at h hs
      refine ih rest.length (by omega) ?_ (by simp [hi]) h hs hloop (fun type => ?_) rfl
      · simp only [List.length_append, List.length_singleton]
        omega
      · rw [← hfront]
        exact hcov type
    by_cases he : e.lenLow ||| e.lenHigh = 0#32
    · exact .empty he (hstay (mergeAt_empty h hi he))
    obtain ⟨run, after, rfl, htypes, hend⟩ := exists_run rest e.type
    rw [List.length_append] at hlen hn
    by_cases hnext : nextType after = e.type
    · -- the run goes on into the zeros
      obtain rfl : after = [] := hend.resolve_right fun h => h hnext
      rw [List.append_nil] at h
      rw [mergeAt_none_of_zeros h hi (by omega) he hnext.symm htypes] at h₁
      exact absurd h₁ (by simp)
    by_cases hne : run = []
    · subst hne
      exact .alone (by omega) hnext (hstay (mergeAt_alone h hi (by omega) hnext))
    -- a run is short enough, or the loop reads past the table
    have hshort : run.length ≤ i + 1 := by
      by_contra hlong
      rw [mergeAt_none_of_long h hi he htypes hnext (by omega) (by omega)] at h₁
      exact absurd h₁ (by simp)
    obtain ⟨t₂, hat, hl₂⟩ := mergeAt_run h hi he hne htypes hnext hshort (by omega)
    obtain rfl := Option.some.inj (h₁.symm.trans hat)
    -- nothing touches the merged entry any more
    have hin : merged e run ∈ t'.entries := by
      have hkeep : t' i = merged e run := by
        rw [mergeLoop_frame hloop (by omega), hl₂.at hi]
      rw [← hkeep]
      exact List.mem_map_of_mem (List.mem_range.mpr (by omega))
    have hsum := runLen_lt_of_covered hs hne htypes fun hnil => by
      subst hnil
      have hzeros : ∀ j, i + 1 ≤ j → j < i + 1 + (64 - (i + 1)) → t₁ j = .zero := by
        intro j hj hj'
        rw [hl₂.get j (by omega), List.getD_eq_getElem?_getD,
          List.getElem?_eq_none (by simp; omega)]
        rfl
      obtain rfl := Option.some.inj (hloop.symm.trans (mergeLoop_zeros hzeros))
      rw [← hl₂.covered]
      exact hcov e.type
    have hc := contiguous_of_covered hs hsum hin (hcov e.type)
    have hsame : SameMap (front ++ e :: (run ++ after)) (front ++ merged e run :: after) :=
      sameMap_merged htypes hc hsum
    have hs₂ := pairwise_merged hs hsum
    have hfront : front ++ merged e run :: after = (front ++ [merged e run]) ++ after := by simp
    rw [hfront] at hl₂ hs₂
    refine .run he hne htypes hnext hc hsum hshort (by omega) ?_
    refine ih after.length (by omega) ?_ (by simp [hi]) hl₂ hs₂ hloop (fun type => ?_) rfl
    · simp only [List.length_append, List.length_singleton]
      omega
    · rw [← hfront, hsame.covered]
      exact hcov type

/-- What the second loop is to do: it reads nothing past the table and leaves, for each type, the
    same set of addresses; and what the third loop then adds to `mem_avail` is the total length of
    the entries of types 1 and 3 before merging. -/
def KeepsMap (t : BootMap) : Prop :=
  ∃ t', mergeEntries t = some t' ∧
    (∀ type, covered t'.entries type = covered t.entries type) ∧
    ∀ start, memAvail t' start = start + BitVec.ofNat 32 (totalAvail t.entries)

/-- **Merging keeps the map.**  Every table of sorted entries without overlap, followed by zeros,
    keeps its map if it merges well; and if it has at most 32 entries, only then. -/
theorem merging_preserves {l : List BootMapEntry} (hl : Lists t l) (hs : l.Pairwise EntryApart) :
    (Mergeable 0 l → KeepsMap t) ∧ (l.length ≤ 32 → KeepsMap t → Mergeable 0 l) := by
  have hl₀ : Lists t ([] ++ l) := hl
  constructor
  · intro hm
    obtain ⟨t', l', hrun, hl', hsame⟩ := mergeLoop_merges hm hl₀ rfl
    refine ⟨t', hrun, fun type => ?_, fun start => ?_⟩
    · rw [hl'.covered, hl.covered]
      exact hsame.covered type
    · have htotal : totalAvail t.entries = totalAvail l := by
        rw [hl.entries, totalAvail_append, totalAvail_zeros, Nat.add_zero]
      rw [hl'.memAvail, htotal, hsame.avail]
      rfl
  · rintro hlen ⟨t', hrun, hcov, -⟩
    have hcov' : ∀ type, covered t'.entries type = covered ([] ++ l) type := by
      intro type
      rw [hcov, hl.covered]
      rfl
    have hlen₀ : (([] : List BootMapEntry) ++ l).length ≤ 32 := hlen
    exact mergeable_of_covered hlen₀ rfl hl₀ hs hrun hcov'

end Along

/-! ### Two tables -/

/-- The table with the entries of a list. -/
def mapOf (l : List BootMapEntry) : BootMap := fun j => l.getD j .zero

theorem lists_mapOf {l : List BootMapEntry} (h : l.length ≤ 64) : Lists (mapOf l) l :=
  ⟨h, fun _ _ => rfl⟩

/-- An entry of a region below 4 GiB. -/
def lowEntry (base len type : BitVec 32) : BootMapEntry := ⟨⟨base, len, type⟩, 0#32, 0#32, 0#32⟩

/-- Two available entries side by side and a reserved one are merged well. -/
theorem merging_preserves_demo :
    KeepsMap (mapOf [lowEntry 0#32 0x1000#32 1#32, lowEntry 0x1000#32 0x2000#32 1#32,
      lowEntry 0x3000#32 0x1000#32 2#32]) := by
  refine (merging_preserves (lists_mapOf (by decide)) (by simp [lowEntry, EntryApart])).1 ?_
  refine @Mergeable.run 0 _ [lowEntry 0x1000#32 0x2000#32 1#32]
    [lowEntry 0x3000#32 0x1000#32 2#32] (by decide) (by simp) ?_ (by decide) ?_
    (by decide) (by decide) (by decide) ?_
  · rintro x hx
    obtain rfl := List.mem_singleton.mp hx
    rfl
  · exact ⟨rfl, trivial⟩
  · exact .alone (by decide) (by decide) .nil

/-- Two available entries with a gap between them: merged they cover the gap, and end where the
    second one began. -/
theorem merging_stretches :
    let l := [lowEntry 0#32 0x1000#32 1#32, lowEntry 0x2000#32 0x1000#32 1#32]
    Lists (mapOf l) l ∧
    l.Pairwise EntryApart ∧
    (∃ t', mergeEntries (mapOf l) = some t' ∧
      0x1000 ∈ covered t'.entries 1#32 ∧ 0x1000 ∉ covered (mapOf l).entries 1#32) ∧
    ¬ KeepsMap (mapOf l) := by
  intro l
  have hl : Lists (mapOf l) l := lists_mapOf (by decide)
  have hl₀ : Lists (mapOf l) ([] ++ lowEntry 0#32 0x1000#32 1#32 ::
      ([lowEntry 0x2000#32 0x1000#32 1#32] ++ [])) := hl
  obtain ⟨t₁, hat, hl₁⟩ := mergeAt_run (i := 0) hl₀ rfl (by decide) (by simp)
    (fun x hx => by obtain rfl := List.mem_singleton.mp hx; rfl) (by decide) (by decide) (by decide)
  have hzeros : ∀ j, 1 ≤ j → j < 1 + 63 → t₁ j = .zero := by
    intro j hj hj'
    rw [hl₁.get j (by omega), List.getD_eq_getElem?_getD, List.getElem?_eq_none (by simp; omega)]
    rfl
  have hloop : mergeEntries (mapOf l) = some t₁ := by
    rw [mergeEntries, mergeLoop, hat, Option.bind_eq_bind, Option.bind_some]
    exact mergeLoop_zeros hzeros
  have hnow : 0x1000 ∈ covered t₁.entries 1#32 := by
    rw [hl₁.covered]
    exact ⟨_, List.mem_singleton_self _, rfl, by decide, by decide⟩
  have hbefore : 0x1000 ∉ covered (mapOf l).entries 1#32 := by
    rw [hl.covered]
    rintro ⟨e, he, -, hlo, hhi⟩
    rcases List.mem_cons.mp he with rfl | he
    · exact absurd hhi (by decide)
    · obtain rfl := List.mem_singleton.mp he
      exact absurd hlo (by decide)
  refine ⟨hl, by simp [l, lowEntry, EntryApart], ⟨t₁, hloop, hnow, hbefore⟩, ?_⟩
  rintro ⟨t', hrun, hcov, -⟩
  obtain rfl := Option.some.inj (hrun.symm.trans hloop)
  rw [hcov] at hnow
  exact hbefore hnow

end Leoman
