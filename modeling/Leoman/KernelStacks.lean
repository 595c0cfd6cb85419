import Leoman.NameDirectory
import Leoman.Suspension

namespace Leoman

open ByteMem StateExcept WordStack

/-!
# The kernel stacks after boot

`proc_new` takes a frame of `pm_alloc` for the kernel stack, maps it at its own address, makes the
address space, which takes a frame too, and only then pushes the first frame of the process.  That
the stacks are different pages, each with the frame pushed there, is what `Suspension` starts from;
here it comes out of boot.

* `TablesSound`, `Mapped` — the paging structures, and a page that is mapped and is no table;
* `SelfMaps` — what `map_page(F, F, flags)` does, for a frame that is in no use yet
  (`mapPage_selfMaps`);
* `FrameStock` — the frames that `pm_alloc` has for boot;
* `procNew_pages` — the pages `proc_new` takes, and the calls it makes with them;
* `StacksBuilt` — the stacks so far, and the stock for the others, with a step lemma
  (`StacksBuilt.procNew`);
* `bootProcs_started` — what boot leaves is `Started`.
-/

/-! ### A frame mapped at its own address -/

section Pages

variable {τ : Type} [Tlb τ] {m m' : Machine τ} {F G v flags : BitVec 32}

/-- The directory maps itself, its tables are different frames, and the TLB is right. -/
structure TablesSound (m : Machine τ) : Prop where
  coherent : Coherent m.tlb m.mem m.cr3
  wellFormed : WellFormed m.mem m.cr3

/-- The page `F`, below the windows, is mapped at its own address, and is no table. -/
structure Mapped (F : BitVec 32) (m : Machine τ) : Prop where
  aligned : F.toNat % 4096 = 0
  below : F.toNat < 0xffc00000
  walk : walk m.mem m.cr3 F = some F
  unused : ¬ InUse m.mem m.cr3 F

/-- The machine with the windows of its TLB is one that `Directory` speaks of. -/
theorem TablesSound.structured (hs : TablesSound m) : Structured m.windowed := by
  refine ⟨fun q g hq => ?_, hs.wellFormed⟩
  rw [lookup_windowed (inWindows_of_lookup hq)] at hq
  exact hs.coherent q g hq

/-- Such a page is its own: what the TLB retains goes through tables in use. -/
theorem Mapped.ownPage (h : Mapped F m) (hs : TablesSound m) : OwnPage F m := by
  have htable : ∀ w f, Leoman.walk m.mem m.cr3 w = some f →
      palignDown (pdeOf m.mem m.cr3 w) ≠ F :=
    fun w f hw heq => h.unused ⟨w, (walk_eq_some_iff.mp hw).1, heq⟩
  refine ⟨h.aligned, hs.coherent, hs.wellFormed.recursive, fun heq => h.unused ?_, h.walk,
    htable F F h.walk, fun q g hq => htable q g (hs.coherent q g hq)⟩
  exact heq ▸ inUse_directory hs.wellFormed.recursive

/-- Stores into a frame that is no table: the same tables, … -/
theorem inUse_of_off {mem : Mem} {cr3 : BitVec 32} {mem' : Mem} (hr : Recursive mem cr3)
    (hF : ¬ InUse mem cr3 F) (h : ∀ x, palignDown x ≠ F → mem' x = mem x) :
    InUse mem' cr3 G ↔ InUse mem cr3 G := by
  have hd : palignDown cr3 ≠ F := fun heq => hF (heq ▸ inUse_directory hr)
  simp only [InUse, pdeOf_off hd h]

/-- … and the same walks. -/
theorem walk_of_off {mem : Mem} {cr3 : BitVec 32} {mem' : Mem} (hr : Recursive mem cr3)
    (hF : ¬ InUse mem cr3 F) (h : ∀ x, palignDown x ≠ F → mem' x = mem x)
    {f : BitVec 32} (hw : walk mem cr3 v = some f) : walk mem' cr3 v = some f := by
  have hd : palignDown cr3 ≠ F := fun heq => hF (heq ▸ inUse_directory hr)
  rw [walk_off hd h fun heq => hF ⟨v, (walk_eq_some_iff.mp hw).1, heq⟩]
  exact hw

/-- Stores into a page that is no table leave the paging structures as they are. -/
theorem TablesSound.of_off (hs : TablesSound m) (hF : ¬ InUse m.mem m.cr3 F) (hcr3 : m'.cr3 = m.cr3)
    (hoff : ∀ x, palignDown x ≠ F → m'.mem x = m.mem x)
    (hc : Coherent m'.tlb m'.mem m'.cr3) : TablesSound m' := by
  have hr := hs.wellFormed.recursive
  have hd : palignDown m.cr3 ≠ F := fun heq => hF (heq ▸ inUse_directory hr)
  have hentry : ∀ j : BitVec 32, j.toNat < 1024 →
      tableEntry m'.mem (palignDown m'.cr3) j = tableEntry m.mem (palignDown m.cr3) j := by
    intro j hj
    rw [hcr3]
    exact tableEntry_congr (palignDown_aligned _) hj fun x hx => hoff x (hx ▸ hd)
  refine ⟨hc, ⟨?_, fun i j hi hj hpi hpj heq => ?_⟩⟩
  · unfold Recursive
    rw [hentry _ (by decide), hcr3]
    exact hr
  · rw [hentry i hi] at hpi heq
    rw [hentry j hj] at hpj heq
    exact hs.wellFormed.distinct i j hi hj hpi hpj heq

/-- And so do the pages that are mapped. -/
theorem Mapped.of_off (h : Mapped G m) (hs : TablesSound m) (hF : ¬ InUse m.mem m.cr3 F)
    (hcr3 : m'.cr3 = m.cr3) (hoff : ∀ x, palignDown x ≠ F → m'.mem x = m.mem x) :
    Mapped G m' := by
  have hr := hs.wellFormed.recursive
  refine ⟨h.aligned, h.below, ?_, ?_⟩
  · rw [hcr3]
    exact walk_of_off hr hF hoff h.walk
  · rw [hcr3, inUse_of_off hr hF hoff]
    exact h.unused

/-- What `map_page(F, F, flags)` does: the page is mapped, no other translation changes, and at
    most one new frame is in use, which `pm_alloc` returned. -/
structure SelfMaps (F : BitVec 32) (m m' : Machine τ) : Prop where
  sound : TablesSound m'
  cr3 : m'.cr3 = m.cr3
  walk : walk m'.mem m'.cr3 F = some F
  tables : ∃ j ≤ 1, m'.pm = pmAfter j m.pm ∧ ∀ G, InUse m'.mem m'.cr3 G →
    InUse m.mem m.cr3 G ∨ G ∈ (nextFrames j m.pm).map palignDown
  off : ∀ x, ¬ InUse m'.mem m'.cr3 (palignDown x) → m'.mem x = m.mem x
  keeps : ∀ v, v.toNat < 0xffc00000 → palignDown v ≠ F → ∀ f,
    Leoman.walk m.mem m.cr3 v = some f → Leoman.walk m'.mem m'.cr3 v = some f

/-- The two stores of `map_page` are in the directory and in the table. -/
theorem newTable_off {mem : Mem} {cr3 e x y : BitVec 32} (hd : palignDown y ≠ palignDown cr3)
    (he : palignDown y ≠ palignDown e) : newTable mem cr3 v e x y = mem y := by
  rw [newTable, setPte, pdeOf_setPde_self,
    write_slot_frame (palignDown_aligned _) (vmPtabIdx_lt v) he, setPde,
    write_slot_frame (palignDown_aligned _) (vmPdirIdx_lt v) hd]

/-- What `map_page(p, v, flags)` stores: nothing, or an entry of the table there is, or a frame of
    `pm_alloc` as the table and an entry of that. -/
inductive MapStores (m : Machine τ) (p v flags : BitVec 32) (mem : Mem) : Prop
  | none (h : mem = m.mem)
  | page (hp : Present (pdeOf m.mem m.cr3 v))
    (h : mem = newTable m.mem m.cr3 v (pdeOf m.mem m.cr3 v ||| mapFlags flags)
      (palignDown p ||| mapFlags flags))
  | table (ha : ¬ Present (pdeOf m.mem m.cr3 v))
    (h : mem = newTable m.mem m.cr3 v ((pmAlloc m.pm).1 ||| mapFlags flags)
      (palignDown p ||| mapFlags flags))

variable {p : BitVec 32}

/-- A completed `map_page` stores what `MapStores` says, and takes a frame for a table that is not
    there. -/
theorem mapPage_effect (hs : TablesSound m) (hbelow : v.toNat < 0xffc00000)
    (hf : flags.toNat < 0x20) (hfresh : ¬ Present (pdeOf m.mem m.cr3 v) →
      ¬ InUse m.mem m.cr3 (palignDown (pmAlloc m.pm).1))
    (hrun : mapPage p v flags m = .ok ((), m')) :
    MapStores m p v flags m'.mem ∧ WellFormed m'.mem m'.cr3 ∧
      ∃ j ≤ 1, m'.pm = pmAfter j m.pm ∧ ∀ G, InUse m'.mem m'.cr3 G →
        InUse m.mem m.cr3 G ∨ G ∈ (nextFrames j m.pm).map palignDown := by
  have hrun' := (mapPage_erases p v flags).ok hrun
  obtain ⟨⟨hdir, -⟩, hpm⟩ := mapPage_pageStep hs.structured hbelow hf hfresh hrun'
  have hstep := mapPage_inv hs.structured.coherent hs.wellFormed.recursive (by omega) hrun'
  have hstores : MapStores m p v flags m'.mem := by
    have hmem : m'.mem = m'.windowed.mem := rfl
    rw [hmem]
    generalize m'.windowed = w at hstep
    cases hstep with
    | already hp _ hc => exact .none rfl
    | page hp hc => exact .page hp rfl
    | table ha hc => exact .table ha rfl
  refine ⟨hstores, ?_⟩
  by_cases hp : Present (pdeOf m.mem m.cr3 v)
  · have hp' : Present (pdeOf m.windowed.mem m.windowed.cr3 v) := hp
    rw [if_pos hp'] at hdir hpm
    exact ⟨hdir.wellFormed hs.wellFormed (vmPdirIdx_lt v) nofun, 0, by omega, hpm,
      fun G hG => hdir.inUse hG⟩
  · have hp' : ¬ Present (pdeOf m.windowed.mem m.windowed.cr3 v) := hp
    rw [if_neg hp'] at hdir hpm
    refine ⟨hdir.wellFormed hs.wellFormed (vmPdirIdx_lt v) fun G hG => ?_, 1, le_rfl, hpm,
      fun G hG => hdir.inUse hG⟩
    obtain rfl := List.mem_singleton.mp hG
    exact hfresh hp

/-- Both stores of `map_page` are in frames that are in use afterwards. -/
theorem MapStores.off (h : MapStores m p v flags m'.mem) (hs : TablesSound m)
    (hs' : WellFormed m'.mem m'.cr3) (hcr3 : m'.cr3 = m.cr3) (hv : vmPdirIdx v ≠ 1023#32)
    (hf : flags.toNat < 4096) (hfresh : ¬ Present (pdeOf m.mem m.cr3 v) →
      ¬ InUse m.mem m.cr3 (palignDown (pmAlloc m.pm).1))
    {x : BitVec 32} (hx : ¬ InUse m'.mem m'.cr3 (palignDown x)) : m'.mem x = m.mem x := by
  have hself : InUse m'.mem m'.cr3 (palignDown m.cr3) := hcr3 ▸ inUse_directory hs'.recursive
  have htwo : ∀ e w : BitVec 32, m'.mem = newTable m.mem m.cr3 v e w →
      palignDown e ≠ palignDown m.cr3 → Present e → m'.mem x = m.mem x := by
    intro e w hmem he hp
    have hpde : pdeOf m'.mem m'.cr3 v = e := by
      rw [hmem, hcr3, pdeOf_newTable he, if_pos rfl]
    rw [hmem]
    refine newTable_off (fun heq => hx (heq ▸ hself)) fun heq => hx ?_
    exact ⟨v, by rwa [hpde], by rw [hpde, heq]⟩
  cases h with
  | none hmem => rw [hmem]
  | page hp hmem =>
    refine htwo _ _ hmem ?_ (present_or_right (present_flags flags))
    rw [mapFlags, palignDown_or (flags_lt hf)]
    exact hs.wellFormed.table_ne hp hv
  | table ha hmem =>
    refine htwo _ _ hmem ?_ (present_or_right (present_flags flags))
    rw [mapFlags, palignDown_or (flags_lt hf)]
    exact fun heq => hfresh ha (heq ▸ inUse_directory hs.wellFormed.recursive)

/-- A page that is mapped stays so. -/
theorem MapStores.keeps (h : MapStores m p v flags m'.mem) (hs : TablesSound m)
    (hcr3 : m'.cr3 = m.cr3) (hv : vmPdirIdx v ≠ 1023#32) (hf : flags.toNat < 4096)
    (hfresh : ¬ Present (pdeOf m.mem m.cr3 v) →
      ¬ InUse m.mem m.cr3 (palignDown (pmAlloc m.pm).1))
    {w f : BitVec 32} (hw : vmPdirIdx w ≠ 1023#32) (hvw : palignDown w ≠ palignDown v)
    (hwalk : walk m.mem m.cr3 w = some f) : walk m'.mem m'.cr3 w = some f := by
  rw [hcr3]
  cases h with
  | none hmem => rwa [hmem]
  | page hp hmem =>
    rw [hmem]
    exact (walk_mapPage_absentPage hs.wellFormed hv hf hp hvw).trans hwalk
  | table ha hmem =>
    have hnew := hfresh ha
    have hframe : palignDown ((pmAlloc m.pm).1 ||| mapFlags flags) = palignDown (pmAlloc m.pm).1 :=
      palignDown_or (flags_lt hf)
    -- the region of `v` had no table, so `w` is in another
    have hpw := (walk_eq_some_iff.mp hwalk).1
    have hi : vmPdirIdx w ≠ vmPdirIdx v := fun hi => ha (by rwa [← pdeOf_congr hi])
    rw [hmem]
    refine (newTable_other hs.wellFormed ?_ hi hw fun hp heq => ?_).trans hwalk
    · rw [hframe]
      exact fun heq => hnew (heq ▸ inUse_directory hs.wellFormed.recursive)
    · rw [hframe] at heq
      exact absurd ⟨w, hp, heq⟩ hnew

/-- **`map_page` of a frame in no use**, at its own address. -/
theorem mapPage_selfMaps (hs : TablesSound m) (haligned : F.toNat % 4096 = 0)
    (hbelow : F.toNat < 0xffc00000) (hunused : ¬ InUse m.mem m.cr3 F)
    (htable : ¬ Present (pdeOf m.mem m.cr3 F) → palignDown (pmAlloc m.pm).1 ≠ F ∧
      ¬ InUse m.mem m.cr3 (palignDown (pmAlloc m.pm).1))
    (hf : flags.toNat < 0x20) (hrun : mapPage F F flags m = .ok ((), m')) : SelfMaps F m m' := by
  have hf' : flags.toNat < 4096 := by omega
  have hv := (lt_kernPtabs_iff F).mp hbelow
  obtain ⟨ho, hcr3⟩ := OwnPage.of_mapPage haligned hs.coherent hs.wellFormed.recursive hunused
    htable hf' hrun
  obtain ⟨hst, hwf, htables⟩ := mapPage_effect hs hbelow hf (fun ha => (htable ha).2) hrun
  refine ⟨⟨ho.coherent, hwf⟩, hcr3, ho.maps, htables, fun x hx => ?_, fun w hw hne f hwalk => ?_⟩
  · exact hst.off hs hwf hcr3 hv hf' (fun ha => (htable ha).2) hx
  · refine hst.keeps hs hcr3 hv hf' (fun ha => (htable ha).2) ((lt_kernPtabs_iff w).mp hw) ?_ hwalk
    rwa [palignDown_of_aligned haligned]

end Pages

/-! ### The frames for boot -/

section Stock

variable {τ : Type} [Tlb τ] {m m' : Machine τ} {F G flags : BitVec 32} {j n : Nat}

/-- The next `n` frames of `pm_alloc` are different pages below the windows; none of them is page
    0, which `pm_alloc` returns when it has none left, and none is in use. -/
structure FrameStock (n : Nat) (m : Machine τ) : Prop where
  nodup : (nextFrames n m.pm).Nodup
  page : ∀ F ∈ nextFrames n m.pm, F.toNat % 4096 = 0 ∧ F ≠ 0#32 ∧ F.toNat < 0xffc00000
  unused : ∀ F ∈ nextFrames n m.pm, ¬ InUse m.mem m.cr3 F

/-- The page `G` was given out, for something that is no table. -/
def Given (n : Nat) (G : BitVec 32) (m : Machine τ) : Prop :=
  ¬ InUse m.mem m.cr3 G ∧ G ∉ nextFrames n m.pm

omit [Tlb τ] in
/-- Fewer frames. -/
theorem FrameStock.mono (h : FrameStock n m) (hj : j ≤ n) : FrameStock j m := by
  have hsub := nextFrames_sublist hj m.pm
  exact ⟨hsub.nodup h.nodup, fun F hF => h.page F (hsub.subset hF),
    fun F hF => h.unused F (hsub.subset hF)⟩

omit [Tlb τ] in
/-- Of fewer frames. -/
theorem Given.mono (h : Given n G m) (hj : j ≤ n) : Given j G m :=
  ⟨h.1, fun hG => h.2 ((nextFrames_sublist hj m.pm).subset hG)⟩

omit [Tlb τ] in
/-- What is left when `j` frames are taken, and only they can be in use now. -/
theorem FrameStock.after (h : FrameStock (j + n) m) (hpm : m'.pm = pmAfter j m.pm)
    (huse : ∀ G, InUse m'.mem m'.cr3 G → InUse m.mem m.cr3 G ∨ G ∈ nextFrames j m.pm) :
    FrameStock n m' ∧ (∀ G ∈ nextFrames j m.pm, G ∉ nextFrames n m'.pm) ∧
      ∀ G, Given (j + n) G m → Given n G m' := by
  have hsplit := nextFrames_add j n m.pm
  rw [← hpm] at hsplit
  have hnodup := h.nodup
  rw [hsplit] at hnodup
  obtain ⟨-, hrest, hdisj⟩ := List.nodup_append.mp hnodup
  have hleft : ∀ F ∈ nextFrames n m'.pm, F ∈ nextFrames (j + n) m.pm := by
    intro F hF
    rw [hsplit]
    exact List.mem_append_right _ hF
  refine ⟨⟨hrest, fun F hF => h.page F (hleft F hF), fun F hF hu => ?_⟩,
    fun G hG hG' => hdisj G hG G hG' rfl, fun G hG => ⟨?_, ?_⟩⟩
  · rcases huse F hu with hold | htaken
    · exact h.unused F (hleft F hF) hold
    · exact hdisj F htaken F hF rfl
  · intro hu
    rcases huse G hu with hold | htaken
    · exact hG.1 hold
    · exact hG.2 (hsplit ▸ List.mem_append_left _ htaken)
  · exact fun hmem => hG.2 (hleft G hmem)

/-- Stores into a page that is no table leave alone what was given out … -/
theorem Given.of_off (h : Given n G m) (hs : TablesSound m) (hF : ¬ InUse m.mem m.cr3 F)
    (hcr3 : m'.cr3 = m.cr3) (hpm : m'.pm = m.pm)
    (hoff : ∀ x, palignDown x ≠ F → m'.mem x = m.mem x) : Given n G m' := by
  rw [Given, hcr3, hpm, inUse_of_off hs.wellFormed.recursive hF hoff]
  exact h

/-- … and the stock. -/
theorem FrameStock.of_off (h : FrameStock n m) (hs : TablesSound m) (hF : ¬ InUse m.mem m.cr3 F)
    (hcr3 : m'.cr3 = m.cr3) (hpm : m'.pm = m.pm)
    (hoff : ∀ x, palignDown x ≠ F → m'.mem x = m.mem x) : FrameStock n m' := by
  refine ⟨by rw [hpm]; exact h.nodup, by rw [hpm]; exact h.page, fun G hG => ?_⟩
  rw [hcr3, inUse_of_off hs.wellFormed.recursive hF hoff]
  exact h.unused G (hpm ▸ hG)

/-- A frame `F` was taken from stock and mapped at its own address, and perhaps a frame for its
    table.  The pages that were given out before are as they were. -/
structure Takes (n : Nat) (F : BitVec 32) (m m' : Machine τ) : Prop where
  sound : TablesSound m'
  stock : FrameStock n m'
  page : Mapped F m'
  taken : F ∈ nextFrames (n + 2) m.pm
  given : Given n F m'
  others : ∀ G, Given (n + 2) G m → Given n G m' ∧ (Mapped G m → Mapped G m') ∧
    ∀ x, palignDown x = G → m'.mem x = m.mem x

/-- **`pm_alloc` and `map_page`.** -/
theorem FrameStock.takes (h : FrameStock (n + 2) m) (hs : TablesSound m) (hF : (pmAlloc m.pm).1 = F)
    (hf : flags.toNat < 0x20)
    (hrun : mapPage F F flags { m with pm := (pmAlloc m.pm).2 } = .ok ((), m')) :
    Takes n F m m' := by
  have hnodup := h.nodup
  have hmem : F ∈ nextFrames (n + 2) m.pm := hF ▸ List.mem_cons_self
  obtain ⟨haligned, -, hbelow⟩ := h.page F hmem
  -- the frame for a table is another one
  have hnext : (pmAlloc (pmAlloc m.pm).2).1 ∈ nextFrames (n + 2) m.pm :=
    List.mem_cons_of_mem _ List.mem_cons_self
  have htable : palignDown (pmAlloc (pmAlloc m.pm).2).1 ≠ F ∧
      ¬ InUse m.mem m.cr3 (palignDown (pmAlloc (pmAlloc m.pm).2).1) := by
    rw [palignDown_of_aligned (h.page _ hnext).1]
    refine ⟨fun heq => ?_, h.unused _ hnext⟩
    have hfirst := (List.nodup_cons.mp hnodup).1
    rw [hF] at hfirst
    exact hfirst (heq ▸ List.mem_cons_self)
  obtain ⟨hs', hcr3, hwalk, ⟨j, hj, hpm, huse⟩, hoff, hkeeps⟩ :=
    mapPage_selfMaps (m := { m with pm := (pmAlloc m.pm).2 }) ⟨hs.coherent, hs.wellFormed⟩ haligned
      hbelow (h.unused F hmem) (fun _ => htable) hf hrun
  -- the frames taken are `F` and the `j` after it
  have hall : nextFrames (1 + j) m.pm = F :: nextFrames j (pmAlloc m.pm).2 := by
    rw [nextFrames_add, ← hF]
    rfl
  have hpages : ∀ G ∈ nextFrames j (pmAlloc m.pm).2, G ∈ nextFrames (n + 2) m.pm := by
    intro G hG
    have hsub := nextFrames_sublist (show 1 + j ≤ n + 2 by omega) m.pm
    rw [hall] at hsub
    exact hsub.subset (List.mem_cons_of_mem _ hG)
  have huse' : ∀ G, InUse m'.mem m'.cr3 G →
      InUse m.mem m.cr3 G ∨ G ∈ nextFrames j (pmAlloc m.pm).2 := by
    intro G hG
    refine (huse G hG).imp_right fun hmap => ?_
    obtain ⟨T, hT, rfl⟩ := List.mem_map.mp hmap
    rwa [palignDown_of_aligned (h.page T (hpages T hT)).1]
  have hpm' : m'.pm = pmAfter (1 + j) m.pm := hpm.trans (pmAfter_add 1 j m.pm).symm
  obtain ⟨hleft, htaken, hgiven⟩ := (h.mono (show 1 + j + n ≤ n + 2 by omega)).after hpm'
    fun G hG => (huse' G hG).imp_right fun hmem => hall ▸ List.mem_cons_of_mem _ hmem
  have hunused : ¬ InUse m'.mem m'.cr3 F := by
    intro hu
    have hd := (h.mono (show 1 + j ≤ n + 2 by omega)).nodup
    rw [hall] at hd
    exact (huse' F hu).elim (h.unused F hmem) (List.nodup_cons.mp hd).1
  refine ⟨hs', hleft, ⟨haligned, hbelow, hwalk, hunused⟩, hmem, ⟨hunused, htaken F ?_⟩,
    fun G hG => ?_⟩
  · rw [hall]
    exact List.mem_cons_self
  · have hG' : Given n G m' := hgiven G (hG.mono (by omega))
    refine ⟨hG', fun hGm => ⟨hGm.aligned, hGm.below, ?_, hG'.1⟩, fun x hx => hoff x (hx ▸ hG'.1)⟩
    refine hkeeps G hGm.below ?_ G hGm.walk
    rw [palignDown_of_aligned hGm.aligned]
    exact fun heq => hG.2 (heq ▸ hmem)

/-- Stores into the page. -/
theorem Takes.store {m₁ : Machine τ} (h : Takes n F m m₁) {mem : Mem} {t : τ}
    (ho : OwnPage F { m₁ with mem := mem, tlb := t })
    (hoff : ∀ x, palignDown x ≠ F → mem x = m₁.mem x) :
    Takes n F m { m₁ with mem := mem, tlb := t } := by
  have hF := h.page.unused
  refine ⟨h.sound.of_off hF rfl hoff ho.coherent, h.stock.of_off h.sound hF rfl rfl hoff,
    h.page.of_off h.sound hF rfl hoff, h.taken, h.given.of_off h.sound hF rfl rfl hoff,
    fun G hG => ?_⟩
  obtain ⟨hG', hmapped, hmem⟩ := h.others G hG
  refine ⟨hG'.of_off h.sound hF rfl rfl hoff,
    fun hm => (hmapped hm).of_off h.sound hF rfl hoff, fun x hx => (hoff x ?_).trans (hmem x hx)⟩
  rw [hx]
  exact fun heq => hG.2 (heq ▸ h.taken)

/-- **`vm_copy_kernel_pdir`.** -/
theorem FrameStock.copies (h : FrameStock (n + 2) m) (hs : TablesSound m)
    (hrun : vmCopyKernelPdir m = .ok (F, m')) : Takes n F m m' := by
  have hne : (pmAlloc m.pm).1 ≠ 0#32 := (h.page _ List.mem_cons_self).2.1
  obtain ⟨D, m₀, h₀, hrest⟩ := bind_ok_iff.mp hrun
  obtain ⟨rfl, rfl⟩ := Prod.mk.inj (Except.ok.inj h₀)
  rw [if_neg hne] at hrest
  obtain ⟨⟨⟩, m₁, hmap, -⟩ := bind_ok_iff.mp hrest
  have ht := h.takes hs rfl (show (0#32).toNat < 0x20 by decide) hmap
  obtain ⟨mem, t, hrun', ho, hoff, -⟩ :=
    vmCopyKernelPdir_runs rfl hne hmap (ht.page.ownPage ht.sound)
  obtain ⟨rfl, rfl⟩ := Prod.mk.inj (Except.ok.inj (hrun.symm.trans hrun'))
  exact ht.store ho hoff

end Stock

/-! ### The stack of a process -/

section Stack

variable {τ : Type} [Tlb τ] {m m' m₁ m₂ : Machine τ} {procLoad S D ret : BitVec 32} {j n : Nat}

/-- The page `S` was given out as a kernel stack, and has the frame of `proc_new` at its top. -/
structure StackPage (procLoad : BitVec 32) (n : Nat) (S : BitVec 32) (m : Machine τ) : Prop where
  aligned : S.toNat % 4096 = 0
  below : S.toNat < 0xffc00000
  given : Given n S m
  frame : Words m.mem (S + pageSize - 76#32) (initialFrame procLoad (S + pageSize)).reverse

omit [Tlb τ] in
/-- It stays one while its bytes stay. -/
theorem StackPage.keep (h : StackPage procLoad n S m) (hgiven : Given j S m')
    (hmem : ∀ x, palignDown x = S → m'.mem x = m.mem x) : StackPage procLoad j S m' := by
  have hS := h.aligned
  have hbelow := h.below
  have hat : (S + pageSize - 76#32).toNat = S.toNat + 4020 := by
    simp only [pageSize, BitVec.toNat_sub, BitVec.toNat_add, BitVec.toNat_ofNat]
    omega
  have hlen : (initialFrame procLoad (S + pageSize)).reverse.length = 19 := rfl
  refine ⟨hS, hbelow, hgiven, h.frame.congr (by rw [hat, hlen]; omega) fun x hx => hmem x ?_⟩
  rw [hlen, inRange_iff (by omega), hat] at hx
  apply BitVec.eq_of_toNat_eq
  rw [palignDown_toNat]
  omega

/-- **The frame is pushed** onto the stack page. -/
theorem Mapped.pushes (h : Mapped S m) (hs : TablesSound m) (hgiven : Given n S m)
    (hrun : pushWords (initialFrame procLoad (S + pageSize)) (S + pageSize) m = .ok (ret, m')) :
    TablesSound m' ∧ StackPage procLoad n S m' ∧ m'.cr3 = m.cr3 ∧ m'.pm = m.pm ∧
      ∀ x, palignDown x ≠ S → m'.mem x = m.mem x := by
  have hbelow := h.below
  have hroom : (S + pageSize).toNat = S.toNat + 4096 := by
    simp only [pageSize, BitVec.toNat_add, BitVec.toNat_ofNat]
    omega
  obtain ⟨mem, t, hrun', hmem, ho, hoff⟩ := (h.ownPage hs).pushWords
    (initialFrame procLoad (S + pageSize)) (k := 4096) rfl le_rfl (by simp [initialFrame])
  obtain ⟨-, rfl⟩ := Prod.mk.inj (Except.ok.inj (hrun.symm.trans hrun'))
  have hgiven' : Given n S { m with mem := mem, tlb := t } :=
    hgiven.of_off hs h.unused rfl rfl hoff
  refine ⟨hs.of_off h.unused rfl hoff ho.coherent, ⟨h.aligned, hbelow, hgiven', ?_⟩, rfl, rfl, hoff⟩
  have hwords : Words (pushAll (m.mem, S + pageSize) (initialFrame procLoad (S + pageSize))).1
      (S + pageSize - BitVec.ofNat 32 (4 * (initialFrame procLoad (S + pageSize)).length))
      (initialFrame procLoad (S + pageSize)).reverse := by
    apply pushAll_words
    rw [hroom]
    simp only [initialFrame, List.length_cons, List.length_nil]
    omega
  show Words mem _ _
  rw [hmem]
  exact hwords

/-- **A new stack**: a page of the stock becomes one, and what was given out before is as it was. -/
theorem FrameStock.stack (h : FrameStock (n + 4) m) (hs : TablesSound m) (hS : (pmAlloc m.pm).1 = S)
    (hmap : mapPage S S pteW { m with pm := (pmAlloc m.pm).2 } = .ok ((), m₁))
    (hcopy : vmCopyKernelPdir m₁ = .ok (D, m₂))
    (hpush : pushWords (initialFrame procLoad (S + pageSize)) (S + pageSize) m₂ = .ok (ret, m')) :
    TablesSound m' ∧ FrameStock n m' ∧ StackPage procLoad n S m' ∧ S ∈ nextFrames (n + 4) m.pm ∧
      ∀ G, Given (n + 4) G m → Given n G m' ∧ ∀ x, palignDown x = G → m'.mem x = m.mem x := by
  have h₁ : Takes (n + 2) S m m₁ := h.takes hs hS (by decide) hmap
  have h₂ : Takes n D m₁ m₂ := h₁.stock.copies h₁.sound hcopy
  obtain ⟨hgiven, hmapped, -⟩ := h₂.others S h₁.given
  have hpage := hmapped h₁.page
  obtain ⟨hs', hstack, hcr3, hpm, hoff⟩ := hpage.pushes h₂.sound hgiven hpush
  have hunused := hgiven.1
  refine ⟨hs', h₂.stock.of_off h₂.sound hunused hcr3 hpm hoff, hstack, h₁.taken, fun G hG => ?_⟩
  obtain ⟨hG₁, -, hmem₁⟩ := h₁.others G hG
  obtain ⟨hG₂, -, hmem₂⟩ := h₂.others G hG₁
  have hGS : G ≠ S := fun heq => hG.2 (heq ▸ h₁.taken)
  refine ⟨hG₂.of_off h₂.sound hunused hcr3 hpm hoff, fun x hx => ?_⟩
  rw [hoff x (hx ▸ hGS), hmem₂ x hx, hmem₁ x hx]

end Stack

/-! ### The stacks of all processes -/

section Boot

variable {τ : Type} [Tlb τ] {k k' : Kernel τ} {procLoad : BitVec 32} {n c : Nat} {s : Slot}
  {name : Vector (BitVec 8) 32} {privileged : Bool}

/-- **The pages of `proc_new`**: it takes a frame for the stack and maps it, makes the address
    space, and pushes the frame; no other process changes. -/
theorem procNew_pages (h : procNew procLoad name privileged k = .ok (s, k')) :
    ∃ S m₁ D m₂ ret, (pmAlloc k.mach.pm).1 = S ∧
      mapPage S S pteW { k.mach with pm := (pmAlloc k.mach.pm).2 } = .ok ((), m₁) ∧
      vmCopyKernelPdir m₁ = .ok (D, m₂) ∧
      pushWords (initialFrame procLoad (S + pageSize)) (S + pageSize) m₂ = .ok (ret, k'.mach) ∧
      (k'.procs s).kstack = S + pageSize ∧ ∀ t, t ≠ s → k'.procs t = k.procs t := by
  obtain ⟨k₁, stack, m₁, m₂, pdir, m₃, trapframe, mach, hfind, halloc, hmap, hcopy, hpush, rfl⟩ :=
    procNew_ok h
  obtain ⟨-, rfl⟩ := Prod.mk.inj (Except.ok.inj hfind)
  obtain ⟨rfl, rfl⟩ := Prod.mk.inj (Except.ok.inj halloc)
  refine ⟨_, m₂, pdir, m₃, trapframe, rfl, hmap, hcopy, hpush, ?_, fun t ht => ?_⟩
  · simp
  · simp [ht]

/-- The stacks that are built, with `n` frames left for the others: every process has a page with
    the frame of `proc_new`, and they are different pages. -/
structure StacksBuilt (procLoad : BitVec 32) (n : Nat) (k : Kernel τ) : Prop where
  sound : TablesSound k.mach
  stock : FrameStock n k.mach
  stack : ∀ t, (k.procs t).recvQueue.inited = true →
    ∃ S, (k.procs t).kstack = S + pageSize ∧ StackPage procLoad n S k.mach
  distinct : ∀ t u, (k.procs t).recvQueue.inited = true → (k.procs u).recvQueue.inited = true →
    (k.procs t).kstack = (k.procs u).kstack → t = u

/-- **Step lemma.**  `proc_new` gives the next process a stack of its own. -/
theorem StacksBuilt.procNew (h : StacksBuilt procLoad (n + 4) k)
    (hrun : procNew procLoad name privileged k = .ok (s, k')) : StacksBuilt procLoad n k' := by
  obtain ⟨S, m₁, D, m₂, ret, hS, hmap, hcopy, hpush, hkstack, hothers⟩ := procNew_pages hrun
  obtain ⟨hs, hstock, hnew, htaken, hkept⟩ := h.stock.stack h.sound hS hmap hcopy hpush
  have hold : ∀ t, t ≠ s → (k'.procs t).recvQueue.inited = true →
      ∃ G, (k'.procs t).kstack = G + pageSize ∧ StackPage procLoad n G k'.mach ∧ G ≠ S := by
    intro t hts ht
    rw [hothers t hts] at ht ⊢
    obtain ⟨G, hG, hpage⟩ := h.stack t ht
    obtain ⟨hgiven, hmem⟩ := hkept G hpage.given
    exact ⟨G, hG, hpage.keep hgiven hmem, fun heq => hpage.given.2 (heq ▸ htaken)⟩
  -- the new stack is none of those there were
  have hne : ∀ t, t ≠ s → (k'.procs t).recvQueue.inited = true →
      (k'.procs t).kstack ≠ (k'.procs s).kstack := by
    intro t hts ht heq
    obtain ⟨G, hG, -, hGS⟩ := hold t hts ht
    rw [hG, hkstack] at heq
    exact hGS ((BitVec.add_left_inj _).mp heq)
  refine ⟨hs, hstock, fun t ht => ?_, fun t u ht hu heq => ?_⟩
  · by_cases hts : t = s
    · exact ⟨S, hts ▸ hkstack, hnew⟩
    · obtain ⟨G, hG, hpage, -⟩ := hold t hts ht
      exact ⟨G, hG, hpage⟩
  · by_cases hts : t = s <;> by_cases hus : u = s
    · rw [hts, hus]
    · exact absurd (hts ▸ heq.symm) (hne u hus hu)
    · exact absurd (hus ▸ heq) (hne t hts ht)
    · rw [hothers t hts, hothers u hus] at heq
      exact h.distinct t u (hothers t hts ▸ ht) (hothers u hus ▸ hu) heq

/-- **Run lemma.** -/
theorem StacksBuilt.procNew_all {names : List (Vector (BitVec 8) 32)}
    (h : StacksBuilt procLoad (n + 4 * names.length) k)
    (hrun : (names.forM fun name => do
      let _ ← Leoman.procNew procLoad name false : Code Trap (Kernel τ) Unit) k = .ok ((), k')) :
    StacksBuilt procLoad n k' := by
  have hend := procNew_all_ok (J := fun i => StacksBuilt procLoad (n + 4 * (names.length - i))) h
    (fun i hi k₁ k₂ name s hJ h₁ => ?_) hrun
  · rwa [Nat.sub_self] at hend
  · have hleft : n + 4 * (names.length - i) = n + 4 * (names.length - (i + 1)) + 4 := by omega
    rw [hleft] at hJ
    exact hJ.procNew h₁

/-- Before the first process there are no stacks. -/
theorem stacksBuilt_cleared {mach : Machine τ} (heap : Heap) (hs : TablesSound mach)
    (hstock : FrameStock n mach) : StacksBuilt procLoad n (Kernel.cleared mach heap) :=
  ⟨hs, hstock, fun _ ht => absurd ht (by simp [Kernel.cleared, Kernel.initial]),
    fun _ _ ht => absurd ht (by simp [Kernel.cleared, Kernel.initial])⟩

/-- `proc_earlyinit` builds the first two. -/
theorem procEarlyinit_stacks {mach : Machine τ} {heap : Heap}
    {kernelName idleName : Vector (BitVec 8) 32} (hs : TablesSound mach)
    (hstock : FrameStock (n + 4 + 4) mach)
    (h : procEarlyinit procLoad kernelName idleName (Kernel.initial mach heap) = .ok ((), k)) :
    StacksBuilt procLoad n k := by
  obtain ⟨kernel, k₁, idle, k₂, h₁, h₂, rfl⟩ := procEarlyinit_ok h
  have hk₁ : StacksBuilt procLoad (n + 4) k₁ := (stacksBuilt_cleared heap hs hstock).procNew h₁
  have hset : StacksBuilt procLoad (n + 4) { k₁ with currentProc := some kernel } :=
    ⟨hk₁.sound, hk₁.stock, hk₁.stack, hk₁.distinct⟩
  have hk₂ : StacksBuilt procLoad n k₂ := hset.procNew h₂
  exact ⟨hk₂.sound, hk₂.stock, hk₂.stack, hk₂.distinct⟩

/-- `proc_kickoff_first_process` leaves memory and stacks alone; interrupts from user mode will
    come in on the stack of the process it starts. -/
theorem procKickoffFirstProcess_stacks (h : procKickoffFirstProcess k = .ok ((), k')) :
    k'.mach.mem = k.mach.mem ∧ (∀ t, (k'.procs t).kstack = (k.procs t).kstack ∧
      (k'.procs t).recvQueue = (k.procs t).recvQueue) ∧
      ∀ t, k'.currentProc = some t → k'.tssEsp0 = (k'.procs t).kstack := by
  obtain ⟨c, hc, rfl⟩ := procKickoffFirstProcess_ok h
  refine ⟨rfl, fun t => ?_, fun t ht => ?_⟩
  · by_cases htc : t = c
    · subst htc
      simp [Kernel.updProc]
    · simp [Kernel.updProc, htc]
  · obtain rfl : c = t := Option.some.inj (hc.symm.trans ht)
    simp [Kernel.updProc]

/-- **Boot builds the stacks.**  With a directory that maps itself, a TLB that is right, and enough
    frames in stock, what boot leaves is `Started`: the kernel stacks of the processes are
    different pages, and each has the frame of `proc_new`. -/
theorem bootProcs_started {mach : Machine τ} {heap : Heap} {regs : Regs}
    {kernelName idleName : Vector (BitVec 8) 32} {names : List (Vector (BitVec 8) 32)}
    (hs : TablesSound mach) (hstock : FrameStock (4 * (2 + names.length)) mach)
    (hboot : bootProcs procLoad kernelName idleName names (Kernel.initial mach heap) = .ok ((), k))
    (hregs : ∀ s, k.currentProc = some s → OnStack (k.procs s).kstack [] regs) :
    Started procLoad ⟨k, regs, bootFrames k⟩ := by
  obtain ⟨_, k₁, h₁, h⟩ := bind_ok_iff.mp hboot
  obtain ⟨_, k₂, h₂, h₃⟩ := bind_ok_iff.mp h
  rw [show 4 * (2 + names.length) = 0 + 4 * names.length + 4 + 4 by omega] at hstock
  have hbuilt : StacksBuilt procLoad 0 k₂ := (procEarlyinit_stacks hs hstock h₁).procNew_all h₂
  obtain ⟨hmem, hprocs, hesp0⟩ := procKickoffFirstProcess_stacks h₃
  have hinited : ∀ t, (k.procs t).recvQueue.inited = true → (k₂.procs t).recvQueue.inited = true :=
    fun t ht => (hprocs t).2 ▸ ht
  have hpage : ∀ t, (k.procs t).recvQueue.inited = true →
      ∃ S, (k.procs t).kstack = S + pageSize ∧ StackPage procLoad 0 S k₂.mach ∧
        (k.procs t).kstack.toNat = S.toNat + 4096 := by
    intro t ht
    obtain ⟨S, hS, hstack⟩ := hbuilt.stack t (hinited t ht)
    have hbelow := hstack.below
    refine ⟨S, (hprocs t).1.trans hS, hstack, ?_⟩
    rw [(hprocs t).1, hS]
    simp only [pageSize, BitVec.toNat_add, BitVec.toNat_ofNat]
    omega
  refine ⟨⟨_, bootProcs_booted hboot⟩, bootProcs_framed hboot, ⟨fun t ht => ?_, fun t ht => ?_,
    fun t u ht hu heq => ?_⟩, hesp0, hregs, rfl, fun t ht _ => ?_⟩
  · obtain ⟨S, -, hstack, hat⟩ := hpage t ht
    have hS := hstack.aligned
    show (k.procs t).kstack.toNat % kstackSize = 0
    simp only [kstackSize]
    omega
  · obtain ⟨S, -, -, hat⟩ := hpage t ht
    show 0 < (k.procs t).kstack.toNat
    omega
  · refine hbuilt.distinct t u (hinited t ht) (hinited u hu) ?_
    rw [← (hprocs t).1, ← (hprocs u).1]
    exact heq
  · obtain ⟨S, hS, hstack, -⟩ := hpage t ht
    have hframe := hstack.frame
    rw [← hS, ← hmem] at hframe
    exact hframe

end Boot

/-! ### The small boot -/

/-- An entry of the directory of `poolMachine`: only the first and the last are there. -/
theorem poolMachine_entry {j : BitVec 32} (hj : j.toNat < 1024) :
    tableEntry poolMachine.mem (palignDown poolMachine.cr3) j = if j = 0#32 then 0x2003#32
      else if j = 1023#32 then 0x1003#32 else 0#32 := by
  have hd : (0x1000#32).toNat % 4096 = 0 := by decide
  have hfirst : tableEntry poolMachine.mem 0x1000#32 j
      = tableEntry (setPde (blankSpace 0x1000#32) 0x1000#32 0#32 0x2003#32) 0x1000#32 j :=
    tableEntry_mapIdentity_of_ne (by decide) hd hj (by decide)
  rw [show palignDown poolMachine.cr3 = 0x1000#32 by decide, hfirst,
    tableEntry_setPde _ _ _ _ hd hj, tableEntry_blankSpace hd hd hj]
  simp only [show palignDown 0x1000#32 = 0x1000#32 by decide,
    show vmPdirIdx 0#32 = 0#32 by decide, true_and]
  rfl

/-- The frames they point to. -/
theorem poolMachine_present {j : BitVec 32} (hj : j.toNat < 1024)
    (hp : Present (tableEntry poolMachine.mem (palignDown poolMachine.cr3) j)) :
    (j = 0#32 ∧ palignDown (tableEntry poolMachine.mem (palignDown poolMachine.cr3) j)
      = 0x2000#32) ∨
    (j = 1023#32 ∧ palignDown (tableEntry poolMachine.mem (palignDown poolMachine.cr3) j)
      = 0x1000#32) := by
  rw [poolMachine_entry hj] at hp ⊢
  split at hp
  · rename_i h
    rw [if_pos h]
    exact Or.inl ⟨h, by decide⟩
  · rename_i h
    split at hp
    · rename_i h'
      rw [if_neg h, if_pos h']
      exact Or.inr ⟨h', by decide⟩
    · exact absurd hp not_present_zero

/-- Its directory and its tables are in order. -/
theorem tablesSound_poolMachine : TablesSound poolMachine := by
  refine ⟨coherent_unit _ _ _, poolMachine_mapped.recursive, fun i j hi hj hpi hpj heq => ?_⟩
  rcases poolMachine_present hi hpi with ⟨rfl, h₁⟩ | ⟨rfl, h₁⟩ <;>
    rcases poolMachine_present hj hpj with ⟨rfl, h₂⟩ | ⟨rfl, h₂⟩
  · rfl
  · exact absurd (h₁.symm.trans (heq.trans h₂)) (by decide)
  · exact absurd (h₁.symm.trans (heq.trans h₂)) (by decide)
  · rfl

/-- Twelve frames for three processes. -/
theorem stock_poolMachine : FrameStock 12 poolMachine := by
  have hnext : nextFrames 12 poolMachine.pm = (List.range' 0 12).map poolMachine.pm.pageAddr :=
    nextFrames_fresh (j := 0) (by simp [Pm.Used, poolMachine]) (by decide)
  have hpages : ∀ F ∈ nextFrames 12 poolMachine.pm,
      F.toNat % 4096 = 0 ∧ 0x10000 ≤ F.toNat ∧ F.toNat < 0xffc00000 := by
    intro F hF
    rw [hnext] at hF
    obtain ⟨i, hi, rfl⟩ := List.mem_map.mp hF
    have hi' := (List.mem_range'_1.mp hi).2
    rw [pageAddr_toNat, show poolMachine.pm.pool.toNat = 0xe0010000 from rfl]
    omega
  refine ⟨?_, fun F hF => ?_, fun F hF hu => ?_⟩
  · rw [hnext]
    decide +kernel
  · obtain ⟨h₁, h₂, h₃⟩ := hpages F hF
    refine ⟨h₁, ?_, h₃⟩
    rintro rfl
    exact absurd h₂ (by simp)
  · obtain ⟨-, h, -⟩ := hpages F hF
    obtain ⟨w, hp, hf⟩ := hu
    rcases poolMachine_present (vmPdirIdx_lt w) hp with ⟨-, h₁⟩ | ⟨-, h₁⟩
    · rw [← hf, show palignDown (pdeOf poolMachine.mem poolMachine.cr3 w) = 0x2000#32 from h₁] at h
      exact absurd h (by simp)
    · rw [← hf, show palignDown (pdeOf poolMachine.mem poolMachine.cr3 w) = 0x1000#32 from h₁] at h
      exact absurd h (by simp)

/-- Boot with one process of the initrd, from `poolMachine`: it completes, and any code that the
    process then runs in user mode can be interrupted. -/
theorem bootProcs_started_init : ∃ k : Kernel Unit,
    bootProcs 0xe0100400#32 kernelName idleName [initName]
      (Kernel.initial poolMachine (heapInit fun _ => 0#8)) = .ok ((), k) ∧
      k.currentProc = some 2 ∧ ∀ regs : Regs, regs.Legal → regs.user = true →
        Started 0xe0100400#32 ⟨k, regs, bootFrames k⟩ := by
  have hpages : nextFrames 6 poolMachine.pm = poolFrames := by
    rw [nextFrames_fresh (j := 0) (by simp [Pm.Used, poolMachine]) (by decide)]
    decide +kernel
  rw [show (6 : Nat) = 4 + 2 by rfl, nextFrames_add] at hpages
  obtain ⟨k₁, h₁, hmapped, hpm⟩ := procEarlyinit_completes (heapInit fun _ => 0#8)
    poolMachine_mapped (fun F hF => hpages ▸ List.mem_append_left _ hF) 0xe0100400#32 kernelName
    idleName
  obtain ⟨hcreating, -, -⟩ := procEarlyinit_creating h₁
  obtain ⟨k₂, h₂, -⟩ := procNew_completes hcreating (by decide) hmapped
    (fun F hF => hpages ▸ List.mem_append_right _ (hpm ▸ hF)) 0xe0100400#32 initName false
  obtain ⟨-, -, -, hcur⟩ := hcreating.procNew h₂
  have hkick : ∃ k, procKickoffFirstProcess k₂ = .ok ((), k) ∧ k.currentProc = some 2 := by
    unfold procKickoffFirstProcess
    rw [run_bind_of_ok (run_get k₂)]
    simp only [hcur]
    exact ⟨_, rfl, hcur⟩
  obtain ⟨k, h₃, hcur'⟩ := hkick
  have hboot : bootProcs 0xe0100400#32 kernelName idleName [initName]
      (Kernel.initial poolMachine (heapInit fun _ => 0#8)) = .ok ((), k) := by
    refine (run_bind_of_ok h₁).trans ((run_bind_of_ok (a := ()) ?_).trans h₃)
    exact (run_bind_of_ok ((run_bind_of_ok h₂).trans rfl)).trans rfl
  have hstock : FrameStock (4 * (2 + [initName].length)) poolMachine := stock_poolMachine
  refine ⟨k, hboot, hcur', fun regs hlegal huser => ?_⟩
  refine bootProcs_started tablesSound_poolMachine hstock hboot fun s _ => ?_
  exact ⟨hlegal, fun _ => rfl, fun h => absurd (huser.symm.trans h) (by simp),
    fun h => absurd (huser.symm.trans h) (by simp)⟩

end Leoman
