import Leoman.MapPage
import Mathlib.Data.Set.Basic

namespace Leoman

open ByteMem StateExcept

/-!
# All address spaces at once

An IPC call edits the page tables of one process while the buffers of another are in play.  `K`
is the set of frames that hold directories and page tables, now or after `pm_alloc` hands them
out; everything else is user memory.  The machine is the one whose TLB retains nothing.

* `Spaces` — the address spaces `dirs` are well formed together: each is mapped into itself, all
  tables are in `K`, and two slots share a table only at the same index;
* `Supply` — the next frames of `pm_alloc` are cleared and in nobody's tables;
* `Edited` — what an edit of some pages leaves alone: user memory and all other walks;
* `mapPage_adds`, `mapPage_opens`, `unmapPage_closes` — `map_page` and `unmap_page` as such edits;
* `mapPages_opens`, `unmapPages_closes` — the same for a window of several pages.
-/

/-! ### Families of address spaces -/

/-- The address spaces `dirs` have their tables in `K`, and two of their slots that point to one
    frame have the same index.  (Slot 1023 points to the directory itself, so a directory is no
    table of another address space.) -/
structure Spaces (K dirs : Set (BitVec 32)) (mem : Mem) : Prop where
  recursive : ∀ D ∈ dirs, Recursive mem D
  tables : ∀ D ∈ dirs, ∀ w, Present (pdeOf mem D w) → palignDown (pdeOf mem D w) ∈ K
  apart : ∀ D ∈ dirs, ∀ E ∈ dirs, ∀ w u, Present (pdeOf mem D w) → Present (pdeOf mem E u) →
    palignDown (pdeOf mem D w) = palignDown (pdeOf mem E u) → vmPdirIdx w = vmPdirIdx u

/-- The self-mapping, read off the directory entry of the last page. -/
theorem recursive_iff {mem : Mem} {D : BitVec 32} : Recursive mem D ↔
    Present (pdeOf mem D 0xffffffff#32) ∧
      palignDown (pdeOf mem D 0xffffffff#32) = palignDown D := by
  rw [pdeOf, show vmPdirIdx 0xffffffff#32 = 1023#32 by decide]
  rfl

/-- A directory entry depends on the index only. -/
theorem pdeOf_congr {mem : Mem} {D w u : BitVec 32} (h : vmPdirIdx w = vmPdirIdx u) :
    pdeOf mem D w = pdeOf mem D u := by
  rw [pdeOf, h, pdeOf]

/-- A directory is the frame that `cr3` points into: the entries … -/
theorem pdeOf_dir_congr {mem : Mem} {D E w : BitVec 32} (h : palignDown E = palignDown D) :
    pdeOf mem E w = pdeOf mem D w := by
  rw [pdeOf, h, pdeOf]

/-- … and the walks are the same. -/
theorem walk_dir_congr {mem : Mem} {D E w : BitVec 32} (h : palignDown E = palignDown D) :
    walk mem E w = walk mem D w := by
  rw [walk, h, walk]

/-- A store of an entry stays in its frame. -/
theorem write_slot_frame {mem : Mem} {b i x y : BitVec 32} (hb : b.toNat % 4096 = 0)
    (hi : i.toNat < 1024) (hy : palignDown y ≠ b) : write32 mem (b + 4#32 * i) x y = mem y := by
  refine write32_of_not_inRange fun hin => hy ?_
  have hs := slot_toNat hb hi
  have := b.isLt
  rw [inRange_iff (by omega)] at hin
  apply BitVec.eq_of_toNat_eq
  rw [palignDown_toNat]
  omega

section Family

variable {K dirs : Set (BitVec 32)} {mem mem' : Mem} {D E v w : BitVec 32}

/-- The directory is in `K`. -/
theorem Spaces.dir_mem (hs : Spaces K dirs mem) (hD : D ∈ dirs) : palignDown D ∈ K := by
  obtain ⟨hp, hf⟩ := recursive_iff.mp (hs.recursive D hD)
  rw [← hf]
  exact hs.tables D hD _ hp

/-- A table outside the last region is no directory. -/
theorem Spaces.table_ne (hs : Spaces K dirs mem) (hD : D ∈ dirs) (hE : E ∈ dirs)
    (hp : Present (pdeOf mem D w)) (hw : vmPdirIdx w ≠ 1023#32) :
    palignDown (pdeOf mem D w) ≠ palignDown E := by
  obtain ⟨hp', hf⟩ := recursive_iff.mp (hs.recursive E hE)
  intro h
  exact hw (hs.apart D hD E hE w _ hp hp' (h.trans hf.symm))

/-- A walk outside the last region. -/
theorem walk_eq_of_entries (hpde : pdeOf mem' E w = pdeOf mem E w)
    (hpte : Present (pdeOf mem E w) → pteOf mem' E w = pteOf mem E w) :
    walk mem' E w = walk mem E w := by
  refine walk_congr (by rw [hpde]) fun hp => ?_
  rw [hpte hp]
  exact ⟨Iff.rfl, rfl⟩

/-- The address spaces are in `K`: memory that agrees there has the same entries, … -/
theorem Spaces.pdeOf_agree (hs : Spaces K dirs mem) (h : ∀ x, palignDown x ∈ K → mem' x = mem x)
    (hE : E ∈ dirs) (w : BitVec 32) : pdeOf mem' E w = pdeOf mem E w :=
  tableEntry_congr (palignDown_aligned _) (vmPdirIdx_lt w) fun x hx => h x (hx ▸ hs.dir_mem hE)

/-- … the same entries of tables, … -/
theorem Spaces.pteOf_agree (hs : Spaces K dirs mem) (h : ∀ x, palignDown x ∈ K → mem' x = mem x)
    (hE : E ∈ dirs) (hp : Present (pdeOf mem E w)) : pteOf mem' E w = pteOf mem E w := by
  rw [pteOf, hs.pdeOf_agree h hE w]
  exact tableEntry_congr (palignDown_aligned _) (vmPtabIdx_lt w) fun x hx =>
    h x (hx ▸ hs.tables E hE w hp)

/-- … the same walks, … -/
theorem Spaces.walk_agree (hs : Spaces K dirs mem) (h : ∀ x, palignDown x ∈ K → mem' x = mem x)
    (hE : E ∈ dirs) (w : BitVec 32) : walk mem' E w = walk mem E w := by
  apply walk_eq_of_entries (hs.pdeOf_agree h hE w)
  exact hs.pteOf_agree h hE

/-- Address spaces whose entries differ in flags only. -/
theorem Spaces.of_pdes (hs : Spaces K dirs mem)
    (h : ∀ E ∈ dirs, ∀ w, (Present (pdeOf mem' E w) ↔ Present (pdeOf mem E w)) ∧
      palignDown (pdeOf mem' E w) = palignDown (pdeOf mem E w)) : Spaces K dirs mem' := by
  refine ⟨fun E hE => ?_, fun E hE w hp => ?_, fun E hE E' hE' w u hp hp' heq => ?_⟩
  · rw [recursive_iff, (h E hE _).1, (h E hE _).2]
    exact recursive_iff.mp (hs.recursive E hE)
  · rw [(h E hE w).2]
    exact hs.tables E hE w ((h E hE w).1.mp hp)
  · rw [(h E hE w).2, (h E' hE' u).2] at heq
    exact hs.apart E hE E' hE' w u ((h E hE w).1.mp hp) ((h E' hE' u).1.mp hp') heq

/-- … and is well formed too. -/
theorem Spaces.of_agree (hs : Spaces K dirs mem) (h : ∀ x, palignDown x ∈ K → mem' x = mem x) :
    Spaces K dirs mem' :=
  hs.of_pdes fun E hE w => by rw [hs.pdeOf_agree h hE w]; exact ⟨Iff.rfl, rfl⟩

end Family

/-! ### The frames `pm_alloc` has left -/

/-- The next `n` frames `pm_alloc` hands out. -/
def nextFrames : Nat → Pm → List (BitVec 32)
  | 0, _ => []
  | n + 1, pm => (pmAlloc pm).1 :: nextFrames n (pmAlloc pm).2

/-- They are distinct frames of `K`, cleared, and in nobody's tables. -/
structure Supply (K dirs : Set (BitVec 32)) (mem : Mem) (n : Nat) (pm : Pm) : Prop where
  nodup : (nextFrames n pm).Nodup
  aligned : ∀ F ∈ nextFrames n pm, F.toNat % 4096 = 0 ∧ F ∈ K
  unused : ∀ F ∈ nextFrames n pm, ∀ D ∈ dirs, ¬ InUse mem D F
  cleared : ∀ F ∈ nextFrames n pm, ∀ x, palignDown x = F → mem x = 0#8

/-- Fewer calls return the first of the frames. -/
theorem nextFrames_sublist {n k : Nat} (h : k ≤ n) (pm : Pm) :
    (nextFrames k pm).Sublist (nextFrames n pm) := by
  induction k generalizing n pm with
  | zero => exact List.nil_sublist _
  | succ k ih =>
    obtain ⟨n, rfl⟩ : ∃ n', n = n' + 1 := ⟨n - 1, by omega⟩
    exact (ih (by omega) _).cons_cons _

section Supply

variable {K dirs : Set (BitVec 32)} {mem mem' : Mem} {n k : Nat} {pm : Pm}

/-- Fewer frames in stock. -/
theorem Supply.mono (h : Supply K dirs mem n pm) (hk : k ≤ n) : Supply K dirs mem k pm := by
  have hsub := nextFrames_sublist hk pm
  exact ⟨hsub.nodup h.nodup, fun F hF => h.aligned F (hsub.subset hF),
    fun F hF => h.unused F (hsub.subset hF), fun F hF => h.cleared F (hsub.subset hF)⟩

/-- Stores outside the frames left, and tables outside them. -/
theorem Supply.of_edit (h : Supply K dirs mem n pm)
    (hmem : ∀ F ∈ nextFrames n pm, ∀ x, palignDown x = F → mem' x = mem x)
    (huse : ∀ F ∈ nextFrames n pm, ∀ D ∈ dirs, InUse mem' D F → InUse mem D F) :
    Supply K dirs mem' n pm :=
  ⟨h.nodup, h.aligned, fun F hF D hD hu => h.unused F hF D hD (huse F hF D hD hu),
    fun F hF x hx => (hmem F hF x hx).trans (h.cleared F hF x hx)⟩

end Supply

/-- The paging state: the address spaces, and `n` frames left for tables. -/
structure Paging (K dirs : Set (BitVec 32)) (n : Nat) (m : Machine Unit) : Prop where
  spaces : Spaces K dirs m.mem
  supply : Supply K dirs m.mem n m.pm
  current : m.cr3 ∈ dirs

/-! ### Edits -/

/-- The tables of `v` in the address spaces `D` and `E` are one frame. -/
def Shares (mem : Mem) (D E v : BitVec 32) : Prop :=
  Present (pdeOf mem D v) ∧ Present (pdeOf mem E v) ∧
    palignDown (pdeOf mem D v) = palignDown (pdeOf mem E v)

/-- From `mem` to `mem'` the pages `P` were edited: user memory, the walks and the table entries
    of all other pages below the last region and the tables in place are as before. -/
structure Edited (K dirs P : Set (BitVec 32)) (mem mem' : Mem) : Prop where
  user : ∀ x, palignDown x ∉ K → mem' x = mem x
  walks : ∀ E ∈ dirs, ∀ w, vmPdirIdx w ≠ 1023#32 → palignDown w ∉ P →
    walk mem' E w = walk mem E w
  ptes : ∀ E ∈ dirs, ∀ w, vmPdirIdx w ≠ 1023#32 → palignDown w ∉ P → Present (pdeOf mem E w) →
    pteOf mem' E w = pteOf mem E w
  tables : ∀ E ∈ dirs, ∀ w, Present (pdeOf mem E w) → Present (pdeOf mem' E w) ∧
    palignDown (pdeOf mem' E w) = palignDown (pdeOf mem E w)

section Edits

variable {K dirs P Q : Set (BitVec 32)} {mem mem' mem'' : Mem} {D E v w : BitVec 32}

/-- No edit. -/
theorem Edited.refl : Edited K dirs P mem mem :=
  ⟨fun _ _ => rfl, fun _ _ _ _ _ => rfl, fun _ _ _ _ _ _ => rfl, fun _ _ _ h => ⟨h, rfl⟩⟩

/-- One edit after the other. -/
theorem Edited.trans (h : Edited K dirs P mem mem') (h' : Edited K dirs Q mem' mem'') :
    Edited K dirs (P ∪ Q) mem mem'' := by
  refine ⟨fun x hx => ?_, fun E hE w hw hwP => ?_, fun E hE w hw hwP hp => ?_,
    fun E hE w hp => ?_⟩
  · rw [h'.user x hx, h.user x hx]
  · rw [Set.mem_union, not_or] at hwP
    rw [h'.walks E hE w hw hwP.2, h.walks E hE w hw hwP.1]
  · rw [Set.mem_union, not_or] at hwP
    rw [h'.ptes E hE w hw hwP.2 (h.tables E hE w hp).1, h.ptes E hE w hw hwP.1 hp]
  · obtain ⟨hp', hf'⟩ := h.tables E hE w hp
    obtain ⟨hp'', hf''⟩ := h'.tables E hE w hp'
    exact ⟨hp'', hf''.trans hf'⟩

/-- An edit of more pages. -/
theorem Edited.mono (h : Edited K dirs P mem mem') (hPQ : P ⊆ Q) : Edited K dirs Q mem mem' :=
  ⟨h.user, fun E hE w hw hwQ => h.walks E hE w hw fun hwP => hwQ (hPQ hwP),
    fun E hE w hw hwQ => h.ptes E hE w hw fun hwP => hwQ (hPQ hwP), h.tables⟩

/-- Shared tables stay shared. -/
theorem Shares.edited (hsh : Shares mem D E v) (h : Edited K dirs P mem mem') (hD : D ∈ dirs)
    (hE : E ∈ dirs) : Shares mem' D E v := by
  obtain ⟨hd, he, heq⟩ := hsh
  obtain ⟨hd', hfd⟩ := h.tables D hD v hd
  obtain ⟨he', hfe⟩ := h.tables E hE v he
  exact ⟨hd', he', by rw [hfd, hfe, heq]⟩

end Edits

/-! ### Stores of entries -/

section Entries

variable {K dirs : Set (BitVec 32)} {n : Nat} {m : Machine Unit} {D E v w x flags : BitVec 32}

/-- A cleared frame holds no present entry. -/
theorem not_present_cleared {mem : Mem} {F j : BitVec 32} (hF : F.toNat % 4096 = 0)
    (hj : j.toNat < 1024) (hz : ∀ x, palignDown x = F → mem x = 0#8) :
    ¬ Present (tableEntry mem F j) := by
  have hzero : tableEntry mem F j = tableEntry (fun _ => 0#8) F j :=
    tableEntry_congr hF hj hz
  rw [hzero, tableEntry_zero]
  exact not_present_zero

/-- **The store of a table entry.** -/
theorem Paging.storePte (hp : Paging K dirs n m) (hv : Present (pdeOf m.mem m.cr3 v))
    (hreg : vmPdirIdx v ≠ 1023#32) (x : BitVec 32) :
    Paging K dirs n { m with mem := setPte m.mem m.cr3 v x } ∧
    Edited K dirs {palignDown v} m.mem (setPte m.mem m.cr3 v x) ∧
    ∀ E ∈ dirs, (Shares m.mem m.cr3 E v → walk (setPte m.mem m.cr3 v x) E v
        = if Present x then some (palignDown x) else none) ∧
      (¬ Shares m.mem m.cr3 E v → walk (setPte m.mem m.cr3 v x) E v = walk m.mem E v) := by
  have htable : palignDown (pdeOf m.mem m.cr3 v) ∈ K := hp.spaces.tables _ hp.current v hv
  have hne : ∀ E ∈ dirs, palignDown (pdeOf m.mem m.cr3 v) ≠ palignDown E := fun E hE =>
    hp.spaces.table_ne hp.current hE hv hreg
  have hpde : ∀ E ∈ dirs, ∀ u, pdeOf (setPte m.mem m.cr3 v x) E u = pdeOf m.mem E u :=
    fun E hE u => pdeOf_write (palignDown_aligned _) (vmPtabIdx_lt v) (hne E hE) u
  have hframe : ∀ y, palignDown y ≠ palignDown (pdeOf m.mem m.cr3 v) →
      setPte m.mem m.cr3 v x y = m.mem y :=
    fun y hy => write_slot_frame (palignDown_aligned _) (vmPtabIdx_lt v) hy
  have hother : ∀ E ∈ dirs, ∀ w, palignDown w ∉ ({palignDown v} : Set (BitVec 32)) →
      Present (pdeOf m.mem E w) → palignDown (pdeOf m.mem E w) = palignDown (pdeOf m.mem m.cr3 v) →
      vmPtabIdx w ≠ vmPtabIdx v := fun E hE w hwv hpw hf hj =>
    hwv (palignDown_eq_of_idx (hp.spaces.apart E hE _ hp.current w v hpw hv hf) hj)
  refine ⟨⟨?_, ?_, hp.current⟩, ⟨?_, ?_, ?_, ?_⟩, fun E hE => ⟨fun hsh => ?_, fun hsh => ?_⟩⟩
  · exact hp.spaces.of_pdes fun E hE w => by rw [hpde E hE w]; exact ⟨Iff.rfl, rfl⟩
  · refine hp.supply.of_edit (fun F hF y hy => hframe y ?_) fun F hF E hE hu => ?_
    · -- the table is in use, so it is none of the frames left
      intro hy'
      exact hp.supply.unused F hF _ hp.current ⟨v, hv, hy'.symm.trans hy⟩
    · obtain ⟨u, hu, hf⟩ := hu
      rw [hpde E hE u] at hu hf
      exact ⟨u, hu, hf⟩
  · intro y hy
    exact hframe y fun hy' => hy (hy' ▸ htable)
  · intro E hE w _ hwv
    exact walk_write_table (palignDown_aligned _) (vmPtabIdx_lt v) (hne E hE) (hother E hE w hwv)
  · intro E hE w _ hwv hpw
    rw [pteOf, hpde E hE w]
    refine (tableEntry_setPte m.mem m.cr3 v x (palignDown_aligned _) (vmPtabIdx_lt w)).trans ?_
    rw [if_neg fun h => hother E hE w hwv hpw h.1 h.2]
    rfl
  · intro E hE w hpw
    rw [hpde E hE w]
    exact ⟨hpw, rfl⟩
  · exact walk_write_table_self (palignDown_aligned _) (vmPtabIdx_lt v) (hne E hE) hsh.2.1
      hsh.2.2.symm rfl
  · refine walk_write_table (palignDown_aligned _) (vmPtabIdx_lt v) (hne E hE) fun hpw hf _ => ?_
    exact hsh ⟨hv, hpw, hf.symm⟩

/-- A directory entry of any address space after the store of one. -/
theorem pdeOf_setPde_family {mem : Mem} : pdeOf (setPde mem D v x) E w
    = if palignDown E = palignDown D ∧ vmPdirIdx w = vmPdirIdx v then x else pdeOf mem E w :=
  tableEntry_setPde mem D v x (palignDown_aligned _) (vmPdirIdx_lt w)

/-- The store of a directory entry keeps the table entries of the regions below the last. -/
theorem Spaces.pteOf_setPde {mem : Mem} (hs : Spaces K dirs mem) (hD : D ∈ dirs) (hE : E ∈ dirs)
    (hpde : pdeOf (setPde mem D v x) E w = pdeOf mem E w) (hp : Present (pdeOf mem E w))
    (hw : vmPdirIdx w ≠ 1023#32) : pteOf (setPde mem D v x) E w = pteOf mem E w := by
  rw [pteOf, hpde, tableEntry_setPde mem D v x (palignDown_aligned _) (vmPtabIdx_lt w), if_neg]
  · rfl
  · rintro ⟨h, -⟩
    exact hs.table_ne hE hD hp hw h

/-- **A new table**: a frame of `pm_alloc`, which is cleared, goes into the directory. -/
theorem Paging.newTable (hp : Paging K dirs (n + 1) m) (ha : ¬ Present (pdeOf m.mem m.cr3 v))
    (hf : flags.toNat < 4096) :
    Paging K dirs n { m with
      mem := setPde m.mem m.cr3 v ((pmAlloc m.pm).1 ||| mapFlags flags)
      pm := (pmAlloc m.pm).2 } ∧
    Edited K dirs ∅ m.mem (setPde m.mem m.cr3 v ((pmAlloc m.pm).1 ||| mapFlags flags)) := by
  have hmem : (pmAlloc m.pm).1 ∈ nextFrames (n + 1) m.pm := List.mem_cons_self
  have hrest : ∀ F ∈ nextFrames n (pmAlloc m.pm).2, F ∈ nextFrames (n + 1) m.pm :=
    fun F hF => List.mem_cons_of_mem _ hF
  obtain ⟨haligned, hK⟩ := hp.supply.aligned _ hmem
  have hunused := hp.supply.unused _ hmem
  generalize hFdef : (pmAlloc m.pm).1 = F at *
  -- the new entry is present, points to `F`, and `F` is nobody's table
  have hpres : Present (F ||| mapFlags flags) := present_or_right (present_flags _)
  have hto : palignDown (F ||| mapFlags flags) = F := by
    rw [mapFlags, palignDown_or (flags_lt hf), palignDown_of_aligned haligned]
  have hreg : vmPdirIdx v ≠ 1023#32 := (hp.spaces.recursive _ hp.current).pdirIdx_ne ha
  have hdir : palignDown m.cr3 ≠ F := fun h =>
    hunused _ hp.current (h ▸ inUse_directory (hp.spaces.recursive _ hp.current))
  have hframe : ∀ y, palignDown y ≠ palignDown m.cr3 →
      setPde m.mem m.cr3 v (F ||| mapFlags flags) y = m.mem y :=
    fun y hy => write_slot_frame (palignDown_aligned _) (vmPdirIdx_lt v) hy
  have hpde : ∀ E w, pdeOf (setPde m.mem m.cr3 v (F ||| mapFlags flags)) E w
      = if palignDown E = palignDown m.cr3 ∧ vmPdirIdx w = vmPdirIdx v then F ||| mapFlags flags
        else pdeOf m.mem E w := fun E w => pdeOf_setPde_family
  -- a table in place is not in the region of `v`
  have hold : ∀ E w, Present (pdeOf m.mem E w) →
      ¬ (palignDown E = palignDown m.cr3 ∧ vmPdirIdx w = vmPdirIdx v) := by
    intro E w hpw h
    rw [pdeOf_dir_congr h.1, pdeOf_congr h.2] at hpw
    exact ha hpw
  refine ⟨⟨⟨fun E hE => ?_, fun E hE w hpw => ?_, fun E hE E' hE' w u hpw hpu heq => ?_⟩, ?_,
    hp.current⟩, ⟨fun y hy => ?_, fun E hE w hw _ => ?_, fun E hE w hw _ hpw => ?_,
    fun E hE w hpw => ?_⟩⟩
  · rw [recursive_iff, hpde, if_neg fun h => hreg (h.2.symm.trans (by decide))]
    exact recursive_iff.mp (hp.spaces.recursive E hE)
  · simp only [hpde] at hpw ⊢
    split
    · rw [hto]
      exact hK
    · rename_i h
      rw [if_neg h] at hpw
      exact hp.spaces.tables E hE w hpw
  · simp only [hpde] at hpw hpu heq
    split at heq <;> rename_i h
    · split at heq <;> rename_i h'
      · exact h.2.trans h'.2.symm
      · rw [if_neg h'] at hpu
        exact absurd ⟨u, hpu, heq.symm.trans hto⟩ (hunused E' hE')
    · rw [if_neg h] at hpw
      split at heq <;> rename_i h'
      · exact absurd ⟨w, hpw, heq.trans hto⟩ (hunused E hE)
      · rw [if_neg h'] at hpu
        exact hp.spaces.apart E hE E' hE' w u hpw hpu heq
  · have hnodup := hp.supply.nodup
    rw [nextFrames, hFdef, List.nodup_cons] at hnodup
    have hleft : Supply K dirs m.mem n (pmAlloc m.pm).2 :=
      ⟨hnodup.2, fun G hG => hp.supply.aligned G (hrest G hG),
        fun G hG => hp.supply.unused G (hrest G hG), fun G hG => hp.supply.cleared G (hrest G hG)⟩
    refine hleft.of_edit (fun G hG y hy => hframe y ?_) fun G hG E hE hu => ?_
    · intro hy'
      exact hleft.unused G hG _ hp.current
        ((hy'.symm.trans hy) ▸ inUse_directory (hp.spaces.recursive _ hp.current))
    · obtain ⟨u, hpu, hf⟩ := hu
      simp only [hpde] at hpu hf
      split at hf <;> rename_i h
      · exact absurd ((hf.symm.trans hto) ▸ hG) hnodup.1
      · rw [if_neg h] at hpu
        exact ⟨u, hpu, hf⟩
  · exact hframe y fun hy' => hy (hy' ▸ hp.spaces.dir_mem hp.current)
  · by_cases h : palignDown E = palignDown m.cr3 ∧ vmPdirIdx w = vmPdirIdx v
    · -- the region had no table, and the new one is empty
      rw [walk_eq_none_iff.mpr (Or.inl fun hpw => hold E w hpw h), walk_eq_none_iff]
      refine Or.inr ?_
      rw [pteOf, hpde, if_pos h, hto,
        tableEntry_setPde _ _ _ _ haligned (vmPtabIdx_lt w), if_neg fun h => hdir h.1.symm]
      exact not_present_cleared haligned (vmPtabIdx_lt w) (hp.supply.cleared F hmem)
    · have hsame : pdeOf (setPde m.mem m.cr3 v (F ||| mapFlags flags)) E w = pdeOf m.mem E w := by
        rw [hpde, if_neg h]
      exact walk_eq_of_entries hsame fun hpw =>
        hp.spaces.pteOf_setPde hp.current hE hsame hpw hw
  · exact hp.spaces.pteOf_setPde hp.current hE (by rw [hpde, if_neg (hold E w hpw)]) hpw hw
  · rw [hpde, if_neg (hold E w hpw)]
    exact ⟨hpw, rfl⟩

/-- **An old table**: flags are added to its directory entry. -/
theorem Paging.oldTable (hp : Paging K dirs n m) (hv : Present (pdeOf m.mem m.cr3 v))
    (hf : flags.toNat < 4096) :
    Paging K dirs n { m with
      mem := setPde m.mem m.cr3 v (pdeOf m.mem m.cr3 v ||| mapFlags flags) } ∧
    Edited K dirs ∅ m.mem (setPde m.mem m.cr3 v (pdeOf m.mem m.cr3 v ||| mapFlags flags)) := by
  have hpres : Present (pdeOf m.mem m.cr3 v ||| mapFlags flags) :=
    present_or_right (present_flags _)
  have hto : palignDown (pdeOf m.mem m.cr3 v ||| mapFlags flags)
      = palignDown (pdeOf m.mem m.cr3 v) := palignDown_or (flags_lt hf)
  have hframe : ∀ y, palignDown y ≠ palignDown m.cr3 →
      setPde m.mem m.cr3 v (pdeOf m.mem m.cr3 v ||| mapFlags flags) y = m.mem y :=
    fun y hy => write_slot_frame (palignDown_aligned _) (vmPdirIdx_lt v) hy
  have hpde : ∀ E w, (Present (pdeOf (setPde m.mem m.cr3 v
        (pdeOf m.mem m.cr3 v ||| mapFlags flags)) E w) ↔ Present (pdeOf m.mem E w)) ∧
      palignDown (pdeOf (setPde m.mem m.cr3 v (pdeOf m.mem m.cr3 v ||| mapFlags flags)) E w)
        = palignDown (pdeOf m.mem E w) := by
    intro E w
    rw [pdeOf_setPde_family]
    split
    · rename_i h
      rw [pdeOf_dir_congr h.1, pdeOf_congr h.2]
      exact ⟨iff_of_true hpres hv, hto⟩
    · exact ⟨Iff.rfl, rfl⟩
  refine ⟨⟨hp.spaces.of_pdes fun E _ w => hpde E w, ?_, hp.current⟩, ⟨fun y hy => ?_,
    fun E hE w hw _ => ?_, fun E hE w hw _ hpw => ?_, fun E hE w hpw => ?_⟩⟩
  · refine hp.supply.of_edit (fun F hF y hy => hframe y ?_) fun F hF E hE hu => ?_
    · intro hy'
      exact hp.supply.unused F hF _ hp.current
        ((hy'.symm.trans hy) ▸ inUse_directory (hp.spaces.recursive _ hp.current))
    · obtain ⟨u, hu, hf⟩ := hu
      exact ⟨u, (hpde E u).1.mp hu, (hpde E u).2.symm.trans hf⟩
  · exact hframe y fun hy' => hy (hy' ▸ hp.spaces.dir_mem hp.current)
  · exact walk_write_keep (palignDown_aligned _) (vmPdirIdx_lt v) (iff_of_true hpres hv) hto
  · rw [pteOf, (hpde E w).2, tableEntry_setPde _ _ _ _ (palignDown_aligned _) (vmPtabIdx_lt w),
      if_neg fun h => hp.spaces.table_ne hE hp.current hpw hw h.1]
    rfl
  · exact ⟨(hpde E w).1.mpr hpw, (hpde E w).2⟩

end Entries

/-! ### One page -/

section Page

variable {K dirs : Set (BitVec 32)} {n : Nat} {m : Machine Unit} {v flags : BitVec 32}

/-- A TLB that retains nothing is coherent. -/
theorem coherent_unit (t : Unit) (mem : Mem) (cr3 : BitVec 32) : Coherent t mem cr3 :=
  fun _ _ h => absurd h (by simp [Tlb.lookup])

/-- **`map_page`** of an unmapped page, which takes a frame of `pm_alloc` if there is no table.
    Other address spaces see the page if they share the table. -/
theorem mapPage_adds (hp : Paging K dirs n m) (hn : ¬ Present (pdeOf m.mem m.cr3 v) → 0 < n)
    (hv : walk m.mem m.cr3 v = none) (hreg : vmPdirIdx v ≠ 1023#32) (p : BitVec 32)
    (hf : flags.toNat < 4096) :
    ∃ m', mapPage p v flags m = .ok ((), m') ∧ m'.cr3 = m.cr3 ∧
      Paging K dirs (if Present (pdeOf m.mem m.cr3 v) then n else n - 1) m' ∧
      Edited K dirs {palignDown v} m.mem m'.mem ∧
      walk m'.mem m.cr3 v = some (palignDown p) ∧
      ∀ E ∈ dirs, walk m.mem E v = none → walk m'.mem E v = none ∨ Shares m'.mem m.cr3 E v := by
  have hx : Present (palignDown p ||| mapFlags flags) := present_or_right (present_flags _)
  have hxf : palignDown (palignDown p ||| mapFlags flags) = palignDown p := by
    rw [mapFlags, palignDown_or (flags_lt hf), palignDown_palignDown]
  -- first the table is there, then its entry is stored
  have hready : ∃ m₁ : Machine Unit, m₁.cr3 = m.cr3 ∧
      Paging K dirs (if Present (pdeOf m.mem m.cr3 v) then n else n - 1) m₁ ∧
      Edited K dirs ∅ m.mem m₁.mem ∧ Present (pdeOf m₁.mem m.cr3 v) ∧
      mapPage p v flags m = .ok ((), { m₁ with
        mem := setPte m₁.mem m.cr3 v (palignDown p ||| mapFlags flags) }) := by
    have hr := hp.spaces.recursive _ hp.current
    have hco := coherent_unit m.tlb m.mem m.cr3
    by_cases hpde : Present (pdeOf m.mem m.cr3 v)
    · have hpte : ¬ Present (pteOf m.mem m.cr3 v) := by
        rw [walk_eq_none_iff] at hv
        exact hv.resolve_left fun h => h hpde
      obtain ⟨hp₁, he₁⟩ := hp.oldTable hpde hf
      obtain ⟨t, hrun, -⟩ := @mapPage_absentPage Unit _ m hco hr p v flags hf hpde hpte
      rw [if_pos hpde]
      refine ⟨{ m with mem := setPde m.mem m.cr3 v (pdeOf m.mem m.cr3 v ||| mapFlags flags) }, rfl,
        hp₁, he₁, ?_, hrun⟩
      rw [pdeOf_setPde_self]
      exact present_or_right (present_flags _)
    · obtain ⟨n, rfl⟩ : ∃ n', n = n' + 1 := ⟨n - 1, by have := hn hpde; omega⟩
      obtain ⟨hp₁, he₁⟩ := hp.newTable hpde hf
      obtain ⟨t, hrun, -⟩ := @mapPage_absentTable Unit _ m hco hr p v flags hpde
      rw [if_neg hpde]
      refine ⟨{ m with mem := setPde m.mem m.cr3 v ((pmAlloc m.pm).1 ||| mapFlags flags)
                       pm := (pmAlloc m.pm).2 }, rfl, hp₁, he₁, ?_, hrun⟩
      rw [pdeOf_setPde_self]
      exact present_or_right (present_flags _)
  obtain ⟨m₁, hcr3, hp₁, he₁, hpde₁, hrun⟩ := hready
  rw [← hcr3] at hpde₁ hrun
  obtain ⟨hp₂, he₂, hwalk⟩ := hp₁.storePte hpde₁ hreg (palignDown p ||| mapFlags flags)
  have hsh : Shares m₁.mem m₁.cr3 m₁.cr3 v := ⟨hpde₁, hpde₁, rfl⟩
  refine ⟨{ m₁ with mem := setPte m₁.mem m₁.cr3 v (palignDown p ||| mapFlags flags) }, hrun, hcr3,
    hp₂, (he₁.trans he₂).mono (by simp), ?_, fun E hE hEv => ?_⟩
  · rw [← hcr3, (hwalk _ hp₁.current).1 hsh, if_pos hx, hxf]
  · by_cases hshE : Shares m₁.mem m₁.cr3 E v
    · rw [← hcr3]
      exact Or.inr (hshE.edited he₂ hp₁.current hE)
    · refine Or.inl ?_
      rw [(hwalk E hE).2 hshE, he₁.walks E hE v hreg (by simp)]
      exact hEv

/-- With a frame set aside for every page. -/
theorem mapPage_opens (hp : Paging K dirs (n + 1) m) (hv : walk m.mem m.cr3 v = none)
    (hreg : vmPdirIdx v ≠ 1023#32) (p : BitVec 32) :
    ∃ m', mapPage p v 0#32 m = .ok ((), m') ∧ m'.cr3 = m.cr3 ∧ Paging K dirs n m' ∧
      Edited K dirs {palignDown v} m.mem m'.mem ∧
      walk m'.mem m.cr3 v = some (palignDown p) ∧
      ∀ E ∈ dirs, walk m.mem E v = none → walk m'.mem E v = none ∨ Shares m'.mem m.cr3 E v := by
  obtain ⟨m', hrun, hcr3, hp', hrest⟩ :=
    @mapPage_adds K dirs (n + 1) m v 0#32 hp (fun _ => by omega) hv hreg p (by decide)
  refine ⟨m', hrun, hcr3, ⟨hp'.spaces, hp'.supply.mono ?_, hp'.current⟩, hrest⟩
  split <;> omega

/-- **`unmap_page`** of a page with a table. -/
theorem unmapPage_closes (hp : Paging K dirs n m) (hv : Present (pdeOf m.mem m.cr3 v))
    (hreg : vmPdirIdx v ≠ 1023#32)
    (hshared : ∀ E ∈ dirs, walk m.mem E v = none ∨ Shares m.mem m.cr3 E v) :
    ∃ m', unmapPage v m = .ok ((), m') ∧ m'.cr3 = m.cr3 ∧ Paging K dirs n m' ∧
      Edited K dirs {palignDown v} m.mem m'.mem ∧ ∀ E ∈ dirs, walk m'.mem E v = none := by
  obtain ⟨hp', he, hwalk⟩ := hp.storePte hv hreg 0#32
  obtain ⟨t, hrun, -⟩ := store_ptabSlot (coherent_unit m.tlb m.mem m.cr3)
    (hp.spaces.recursive _ hp.current) hv 0#32
  refine ⟨{ m with mem := setPte m.mem m.cr3 v 0#32 }, ?_, rfl, hp', he, fun E hE => ?_⟩
  · rw [unmapPage, ptabSlot_palignDown]
    exact hrun
  · by_cases hsh : Shares m.mem m.cr3 E v
    · rw [(hwalk E hE).1 hsh, if_neg not_present_zero]
    · rw [(hwalk E hE).2 hsh]
      exact (hshared E hE).resolve_right hsh

end Page

/-! ### Windows of several pages -/

/-- Page `i` from `v` on. -/
def pageAt (v : BitVec 32) (i : Nat) : BitVec 32 := v + BitVec.ofNat 32 (4096 * i)

/-- The `k` pages from `v` on. -/
def windowPages (v : BitVec 32) (k : Nat) : Set (BitVec 32) := {q | ∃ i < k, q = pageAt v i}

/-- No address space maps any of the pages. -/
def Closed (dirs : Set (BitVec 32)) (mem : Mem) (P : Set (BitVec 32)) : Prop :=
  ∀ E ∈ dirs, ∀ q ∈ P, walk mem E q = none

section Window

variable {K dirs P : Set (BitVec 32)} {n k i : Nat} {m : Machine Unit} {v p : BitVec 32}

/-- The first page, … -/
theorem pageAt_zero : pageAt v 0 = v := BitVec.add_zero v

/-- … and the pages from the second on. -/
theorem pageAt_succ : pageAt (v + pageSize) i = pageAt v (i + 1) := by
  apply BitVec.eq_of_toNat_eq
  simp only [pageAt, pageSize, BitVec.toNat_add, BitVec.toNat_ofNat]
  omega

/-- They are aligned, as the first is. -/
theorem pageAt_aligned (hv : v.toNat % 4096 = 0) : (pageAt v i).toNat % 4096 = 0 := by
  simp only [pageAt, BitVec.toNat_add, BitVec.toNat_ofNat]
  omega

/-- The pages of a window that ends below the last region. -/
theorem pageAt_toNat (hend : v.toNat + 4096 * k ≤ 0xffc00000) (hi : i < k) :
    (pageAt v i).toNat = v.toNat + 4096 * i := by
  simp only [pageAt, BitVec.toNat_add, BitVec.toNat_ofNat]
  omega

/-- A range that ends below the windows has no page in the last region. -/
theorem pageAt_region (hend : v.toNat + 4096 * k ≤ 0xffc00000) (hi : i < k) :
    vmPdirIdx (pageAt v i) ≠ 1023#32 := by
  rw [← lt_kernPtabs_iff, pageAt_toNat hend hi]
  omega

/-- The pages of a window: its first, and those of the rest. -/
theorem windowPages_succ : windowPages v (k + 1) = {v} ∪ windowPages (v + pageSize) k := by
  ext q
  constructor
  · rintro ⟨i, hi, rfl⟩
    cases i with
    | zero => exact Or.inl pageAt_zero
    | succ i => exact Or.inr ⟨i, by omega, pageAt_succ.symm⟩
  · rintro (rfl | ⟨i, hi, rfl⟩)
    · exact ⟨0, by omega, pageAt_zero.symm⟩
    · exact ⟨i + 1, by omega, pageAt_succ⟩

/-- The first page of a window is none of the others. -/
theorem not_mem_windowPages (hend : v.toNat + 4096 * (k + 1) ≤ 0xffc00000) :
    v ∉ windowPages (v + pageSize) k := by
  rintro ⟨i, hi, h⟩
  rw [pageAt_succ] at h
  have := congrArg BitVec.toNat h
  rw [pageAt_toNat hend (by omega)] at this
  omega

/-- The first page of a window and its end. -/
theorem window_next (hv : v.toNat % 4096 = 0) (hend : v.toNat + 4096 * (k + 1) ≤ 0xffc00000) :
    (v + pageSize).toNat % 4096 = 0 ∧ (v + pageSize).toNat + 4096 * k ≤ 0xffc00000 := by
  rw [pageSize, BitVec.toNat_add, BitVec.toNat_ofNat]
  omega

/-- The machine with the pages from `v` on mapped to the frames from `p` on. -/
structure Opened (K dirs : Set (BitVec 32)) (v p : BitVec 32) (k : Nat) (m m' : Machine Unit) :
    Prop where
  cr3 : m'.cr3 = m.cr3
  edited : Edited K dirs (windowPages v k) m.mem m'.mem
  maps : ∀ i < k, walk m'.mem m.cr3 (pageAt v i) = some (pageAt p i)
  shared : ∀ E ∈ dirs, ∀ q ∈ windowPages v k, walk m'.mem E q = none ∨ Shares m'.mem m.cr3 E q

/-- **The loop of `map_pages`** over unmapped pages. -/
theorem mapPagesLoop_opens (hp : Paging K dirs (n + k) m) (hv : v.toNat % 4096 = 0)
    (hpa : p.toNat % 4096 = 0) (hend : v.toNat + 4096 * k ≤ 0xffc00000)
    (hclosed : Closed dirs m.mem (windowPages v k)) :
    ∃ m', mapPagesLoop 0#32 k p v m = .ok ((), m') ∧ Paging K dirs n m' ∧
      Opened K dirs v p k m m' := by
  induction k generalizing m v p with
  | zero =>
    refine ⟨m, rfl, hp, rfl, Edited.refl, fun i hi => absurd hi (by omega), ?_⟩
    rintro E _ q ⟨i, hi, -⟩
    exact absurd hi (by omega)
  | succ k ih =>
    have hself : v ∈ windowPages v (k + 1) := ⟨0, by omega, pageAt_zero.symm⟩
    have hreg : vmPdirIdx v ≠ 1023#32 := by
      have := pageAt_region (i := 0) hend (by omega)
      rwa [pageAt_zero] at this
    obtain ⟨m₁, hrun₁, hcr3₁, hp₁, he₁, hw₁, hsh₁⟩ :=
      mapPage_opens (n := n + k) hp (hclosed _ hp.current v hself) hreg p
    obtain ⟨hv', hend'⟩ := window_next hv hend
    have hpa' : (p + pageSize).toNat % 4096 = 0 := by
      rw [pageSize, BitVec.toNat_add, BitVec.toNat_ofNat]
      omega
    have hfirst : v ∉ windowPages (v + pageSize) k := not_mem_windowPages hend
    have hrest : ∀ q ∈ windowPages (v + pageSize) k, vmPdirIdx q ≠ 1023#32 ∧ palignDown q = q := by
      rintro q ⟨i, hi, rfl⟩
      exact ⟨pageAt_region hend' hi, palignDown_of_aligned (pageAt_aligned hv')⟩
    -- the other pages are still unmapped
    have hclosed₁ : Closed dirs m₁.mem (windowPages (v + pageSize) k) := by
      intro E hE q hq
      rw [he₁.walks E hE q (hrest q hq).1]
      · exact hclosed E hE q (windowPages_succ ▸ Or.inr hq)
      · rw [Set.mem_singleton_iff, (hrest q hq).2, palignDown_of_aligned hv]
        rintro rfl
        exact hfirst hq
    obtain ⟨m₂, hrun₂, hp₂, ho₂⟩ := ih hp₁ hv' hpa' hend' hclosed₁
    have hkeep : ∀ E ∈ dirs, walk m₂.mem E v = walk m₁.mem E v := fun E hE =>
      ho₂.edited.walks E hE v hreg (by rwa [palignDown_of_aligned hv])
    refine ⟨m₂, (run_bind_of_ok hrun₁).trans hrun₂, hp₂, ho₂.cr3.trans hcr3₁, ?_, ?_, ?_⟩
    · rw [windowPages_succ]
      rw [palignDown_of_aligned hv] at he₁
      exact he₁.trans ho₂.edited
    · intro i hi
      cases i with
      | zero =>
        rw [pageAt_zero, pageAt_zero, hkeep _ hp.current, hw₁, palignDown_of_aligned hpa]
      | succ i =>
        have := ho₂.maps i (by omega)
        rwa [pageAt_succ, pageAt_succ, hcr3₁] at this
    · intro E hE q hq
      rw [windowPages_succ] at hq
      rcases hq with rfl | hq
      · rw [hkeep E hE]
        exact (hsh₁ E hE (hclosed E hE q hself)).imp_right fun h =>
          h.edited ho₂.edited hp.current hE
      · have := ho₂.shared E hE q hq
        rwa [hcr3₁] at this

/-- **The loop of `unmap_pages`** over pages with a table. -/
theorem unmapPagesLoop_closes (hp : Paging K dirs n m) (hv : v.toNat % 4096 = 0)
    (hend : v.toNat + 4096 * k ≤ 0xffc00000)
    (hpde : ∀ i < k, Present (pdeOf m.mem m.cr3 (pageAt v i)))
    (hshared : ∀ E ∈ dirs, ∀ q ∈ windowPages v k, walk m.mem E q = none ∨
      Shares m.mem m.cr3 E q) :
    ∃ m', unmapPagesLoop k v m = .ok ((), m') ∧ m'.cr3 = m.cr3 ∧ Paging K dirs n m' ∧
      Edited K dirs (windowPages v k) m.mem m'.mem ∧ Closed dirs m'.mem (windowPages v k) := by
  induction k generalizing m v with
  | zero =>
    refine ⟨m, rfl, rfl, hp, Edited.refl, ?_⟩
    rintro E _ q ⟨i, hi, -⟩
    exact absurd hi (by omega)
  | succ k ih =>
    have hself : v ∈ windowPages v (k + 1) := ⟨0, by omega, pageAt_zero.symm⟩
    have hreg : vmPdirIdx v ≠ 1023#32 := by
      have := pageAt_region (i := 0) hend (by omega)
      rwa [pageAt_zero] at this
    have hpde₀ := hpde 0 (by omega)
    rw [pageAt_zero] at hpde₀
    obtain ⟨m₁, hrun₁, hcr3₁, hp₁, he₁, hclosed₁⟩ :=
      unmapPage_closes hp hpde₀ hreg fun E hE => hshared E hE v hself
    obtain ⟨hv', hend'⟩ := window_next hv hend
    have hfirst : v ∉ windowPages (v + pageSize) k := not_mem_windowPages hend
    have hrest : ∀ q ∈ windowPages (v + pageSize) k, vmPdirIdx q ≠ 1023#32 ∧ palignDown q = q := by
      rintro q ⟨i, hi, rfl⟩
      exact ⟨pageAt_region hend' hi, palignDown_of_aligned (pageAt_aligned hv')⟩
    have hpde₁ : ∀ i < k, Present (pdeOf m₁.mem m₁.cr3 (pageAt (v + pageSize) i)) := by
      intro i hi
      rw [hcr3₁, pageAt_succ]
      exact (he₁.tables _ hp.current _ (hpde (i + 1) (by omega))).1
    have hshared₁ : ∀ E ∈ dirs, ∀ q ∈ windowPages (v + pageSize) k, walk m₁.mem E q = none ∨
        Shares m₁.mem m₁.cr3 E q := by
      intro E hE q hq
      rw [he₁.walks E hE q (hrest q hq).1, hcr3₁]
      · exact (hshared E hE q (windowPages_succ ▸ Or.inr hq)).imp_right fun h =>
          h.edited he₁ hp.current hE
      · rw [Set.mem_singleton_iff, (hrest q hq).2, palignDown_of_aligned hv]
        rintro rfl
        exact hfirst hq
    obtain ⟨m₂, hrun₂, hcr3₂, hp₂, he₂, hclosed₂⟩ := ih hp₁ hv' hend' hpde₁ hshared₁
    refine ⟨m₂, (run_bind_of_ok hrun₁).trans hrun₂, hcr3₂.trans hcr3₁, hp₂, ?_, ?_⟩
    · rw [windowPages_succ]
      rw [palignDown_of_aligned hv] at he₁
      exact he₁.trans he₂
    · intro E hE q hq
      rw [windowPages_succ] at hq
      rcases hq with rfl | hq
      · rw [he₂.walks E hE q hreg (by rwa [palignDown_of_aligned hv])]
        exact hclosed₁ E hE
      · exact hclosed₂ E hE q hq

/-- All walks and mapped entries below the last region are as before. -/
structure SameSpaces (dirs : Set (BitVec 32)) (mem mem' : Mem) : Prop where
  walks : ∀ E ∈ dirs, ∀ w, vmPdirIdx w ≠ 1023#32 → walk mem' E w = walk mem E w
  ptes : ∀ E ∈ dirs, ∀ w, vmPdirIdx w ≠ 1023#32 → walk mem E w ≠ none →
    pteOf mem' E w = pteOf mem E w

/-- The same memory. -/
theorem SameSpaces.refl {mem : Mem} : SameSpaces dirs mem mem :=
  ⟨fun _ _ _ _ => rfl, fun _ _ _ _ _ => rfl⟩

/-- One change after the other. -/
theorem SameSpaces.trans {mem mem' mem'' : Mem} (h : SameSpaces dirs mem mem')
    (h' : SameSpaces dirs mem' mem'') : SameSpaces dirs mem mem'' := by
  refine ⟨fun E hE w hw => (h'.walks E hE w hw).trans (h.walks E hE w hw), fun E hE w hw hm => ?_⟩
  rw [h'.ptes E hE w hw (by rwa [h.walks E hE w hw]), h.ptes E hE w hw hm]

/-- Stores to user memory leave the paging state alone. -/
theorem Paging.of_agree (hp : Paging K dirs n m) {mem : Mem}
    (h : ∀ x, palignDown x ∈ K → mem x = m.mem x) :
    Paging K dirs n { m with mem := mem } ∧ SameSpaces dirs m.mem mem := by
  have hpde : ∀ E ∈ dirs, ∀ w, pdeOf mem E w = pdeOf m.mem E w :=
    fun E hE w => hp.spaces.pdeOf_agree h hE w
  refine ⟨⟨hp.spaces.of_agree h, ?_, hp.current⟩,
    ⟨fun E hE w _ => hp.spaces.walk_agree h hE w, fun E hE w _ hm => ?_⟩⟩
  · refine hp.supply.of_edit (fun F hF x hx => h x (hx ▸ (hp.supply.aligned F hF).2))
      fun F _ E hE hu => ?_
    obtain ⟨u, hu, hf⟩ := hu
    rw [hpde E hE u] at hu hf
    exact ⟨u, hu, hf⟩
  · have hpw : Present (pdeOf m.mem E w) := by
      by_contra hno
      exact hm (walk_eq_none_iff.mpr (Or.inl hno))
    exact hp.spaces.pteOf_agree h hE hpw

/-- `map_pages` is its loop, for the empty range too. -/
theorem mapPages_eq {τ : Type} [Tlb τ] (flags sz : BitVec 32) : mapPages p v flags sz
    = (mapPagesLoop flags (pagesOf sz) (palignDown p) (palignDown v) :
      Code Trap (Machine τ) Unit) := by
  unfold mapPages
  split
  · rename_i h
    rw [h]
    rfl
  · rfl

/-- A length of zero is no page, so the test for it changes nothing. -/
theorem unmapPages_eq (sz : BitVec 32) :
    unmapPages v sz
      = (unmapPagesLoop (pagesOf sz) (palignDown v) : Code Trap (Machine Unit) Unit) := by
  unfold unmapPages
  split
  · rename_i h
    rw [h]
    rfl
  · rfl

/-- **`map_pages`** over unmapped pages. -/
theorem mapPages_opens {sz : BitVec 32} (hp : Paging K dirs (n + pagesOf sz) m)
    (hend : (palignDown v).toNat + 4096 * pagesOf sz ≤ 0xffc00000)
    (hclosed : Closed dirs m.mem (windowPages (palignDown v) (pagesOf sz))) :
    ∃ m', mapPages p v 0#32 sz m = .ok ((), m') ∧ Paging K dirs n m' ∧
      Opened K dirs (palignDown v) (palignDown p) (pagesOf sz) m m' := by
  rw [mapPages_eq]
  exact mapPagesLoop_opens hp (palignDown_aligned _) (palignDown_aligned _) hend hclosed

/-- **`unmap_pages`** after stores to user memory: the address spaces are as before. -/
theorem unmapPages_closes {sz : BitVec 32} {m₁ : Machine Unit} {mem : Mem}
    (hp : Paging K dirs n m₁) (ho : Opened K dirs (palignDown v) p (pagesOf sz) m m₁)
    (hend : (palignDown v).toNat + 4096 * pagesOf sz ≤ 0xffc00000)
    (hclosed : Closed dirs m.mem (windowPages (palignDown v) (pagesOf sz)))
    (h : ∀ x, palignDown x ∈ K → mem x = m₁.mem x) :
    ∃ m', unmapPages v sz { m₁ with mem := mem } = .ok ((), m') ∧ m'.cr3 = m.cr3 ∧
      Paging K dirs n m' ∧ SameSpaces dirs m.mem m'.mem ∧
      ∀ x, palignDown x ∉ K → m'.mem x = mem x := by
  obtain ⟨hp₂, hsame⟩ := hp.of_agree h
  have hv := palignDown_aligned v
  have hpage : ∀ q ∈ windowPages (palignDown v) (pagesOf sz), vmPdirIdx q ≠ 1023#32 := by
    rintro q ⟨i, hi, rfl⟩
    exact pageAt_region hend hi
  have hpde : ∀ i < pagesOf sz, Present (pdeOf mem m₁.cr3 (pageAt (palignDown v) i)) := by
    intro i hi
    rw [hp.spaces.pdeOf_agree h hp.current, ho.cr3]
    exact (walk_eq_some_iff.mp (ho.maps i hi)).1
  have hshared : ∀ E ∈ dirs, ∀ q ∈ windowPages (palignDown v) (pagesOf sz),
      walk mem E q = none ∨ Shares mem m₁.cr3 E q := by
    intro E hE q hq
    rw [hsame.walks E hE q (hpage q hq), Shares, hp.spaces.pdeOf_agree h hp.current,
      hp.spaces.pdeOf_agree h hE, ho.cr3]
    exact ho.shared E hE q hq
  obtain ⟨m', hrun, hcr3, hp', he, hclosed'⟩ :=
    unmapPagesLoop_closes (m := { m₁ with mem := mem }) hp₂ hv hend hpde hshared
  refine ⟨m', by rw [unmapPages_eq]; exact hrun, hcr3.trans ho.cr3, hp', ⟨?_, ?_⟩, he.user⟩
  · intro E hE w hw
    by_cases hwP : palignDown w ∈ windowPages (palignDown v) (pagesOf sz)
    · rw [← walk_palignDown, hclosed' E hE _ hwP, ← walk_palignDown, hclosed E hE _ hwP]
    · rw [he.walks E hE w hw hwP, hsame.walks E hE w hw, ho.edited.walks E hE w hw hwP]
  · intro E hE w hw hm
    have hwP : palignDown w ∉ windowPages (palignDown v) (pagesOf sz) := by
      intro hwP
      rw [← walk_palignDown] at hm
      exact hm (hclosed E hE _ hwP)
    have hpw : Present (pdeOf m.mem E w) := by
      by_contra hno
      exact hm (walk_eq_none_iff.mpr (Or.inl hno))
    have hpw₁ := (ho.edited.tables E hE w hpw).1
    have hm₁ : walk m₁.mem E w ≠ none := by rwa [ho.edited.walks E hE w hw hwP]
    have hpw₂ : Present (pdeOf mem E w) := by rwa [hp.spaces.pdeOf_agree h hE]
    rw [he.ptes E hE w hw hwP hpw₂, hsame.ptes E hE w hw hm₁, ho.edited.ptes E hE w hw hwP hpw]

end Window

/-! ### Directories with one table -/

/-- The directory `D` has the table `T` in its first slot and itself in the last, and nothing
    else. -/
structure OneTable (mem : Mem) (D T : BitVec 32) : Prop where
  recursive : Recursive mem D
  slots : ∀ w, Present (pdeOf mem D w) →
    vmPdirIdx w = 0#32 ∧ palignDown (pdeOf mem D w) = T ∨
      vmPdirIdx w = 1023#32 ∧ palignDown (pdeOf mem D w) = D

section OneTable

variable {K dirs : Set (BitVec 32)} {mem : Mem} {D T v : BitVec 32} {T' : BitVec 32 → BitVec 32}
  {n lo : Nat} {pm : Pm} {words : List (BitVec 32 × BitVec 32)}

/-- Nothing is mapped outside the first region, and the last. -/
theorem OneTable.unmapped (h : OneTable mem D T) (h₀ : vmPdirIdx v ≠ 0#32)
    (h₁ : vmPdirIdx v ≠ 1023#32) : walk mem D v = none := by
  refine walk_eq_none_iff.mpr (Or.inl fun hp => ?_)
  rcases h.slots v hp with ⟨hv, -⟩ | ⟨hv, -⟩
  · exact h₀ hv
  · exact h₁ hv

/-- It is one in any memory that has the frames of the tables as they are. -/
theorem OneTable.of_agree {mem' : Mem} (h : OneTable mem D T) (hs : Spaces K dirs mem)
    (hD : D ∈ dirs) (hagree : ∀ x, palignDown x ∈ K → mem' x = mem x) : OneTable mem' D T := by
  refine ⟨(hs.of_agree hagree).recursive D hD, fun w hp => ?_⟩
  rw [hs.pdeOf_agree hagree hD] at hp ⊢
  exact h.slots w hp

/-- Words stored in a directory, at its first and at its last slot. -/
theorem oneTable_of_words (hD : D.toNat % 4096 = 0)
    (hself : Recursive (writeAll (fun _ => 0#8) words) D)
    (htable : palignDown (tableEntry (writeAll (fun _ => 0#8) words) D 0#32) = T)
    (hwords : ∀ u ∈ words, u.1.toNat % 4 = 0 ∧ (u.1.toNat / 4096 = D.toNat / 4096 →
      u.1.toNat = D.toNat ∨ u.1.toNat = D.toNat + 0xffc)) :
    OneTable (writeAll (fun _ => 0#8) words) D T := by
  have hframe : palignDown D = D := palignDown_of_aligned hD
  refine ⟨hself, fun w hp => ?_⟩
  have hlt := vmPdirIdx_lt w
  rw [pdeOf, hframe] at hp ⊢
  by_cases h₀ : vmPdirIdx w = 0#32
  · rw [h₀]
    exact Or.inl ⟨rfl, htable⟩
  by_cases h₁ : vmPdirIdx w = 1023#32
  · have hlast := hself.2
    rw [hframe] at hlast
    rw [h₁]
    exact Or.inr ⟨rfl, hlast⟩
  -- the word is none of those stored
  refine absurd hp ?_
  have h₀' : (vmPdirIdx w).toNat ≠ 0 := fun h => h₀ (BitVec.eq_of_toNat_eq h)
  have h₁' : (vmPdirIdx w).toNat ≠ 1023 := fun h => h₁ (BitVec.eq_of_toNat_eq h)
  have hslot : (D + 4#32 * vmPdirIdx w).toNat = D.toNat + 4 * (vmPdirIdx w).toNat :=
    slot_toNat hD hlt
  have hread : tableEntry (writeAll (fun _ => 0#8) words) D (vmPdirIdx w)
      = tableEntry (fun _ => 0#8) D (vmPdirIdx w) := by
    refine read32_writeAll_of_ne (by omega) fun u hu => ?_
    obtain ⟨h4, hslots⟩ := hwords u hu
    refine ⟨h4, fun heq => ?_⟩
    have := congrArg BitVec.toNat heq
    rw [hslot] at this
    omega
  rw [hread, tableEntry_zero]
  exact not_present_zero

/-- A family of such directories, none of which is a table. -/
theorem spaces_of_oneTable (h : ∀ D ∈ dirs, OneTable mem D (T' D) ∧ D ∈ K ∧ T' D ∈ K)
    (hne : ∀ D ∈ dirs, ∀ E ∈ dirs, T' D ≠ E) : Spaces K dirs mem := by
  refine ⟨fun D hD => (h D hD).1.recursive, fun D hD w hp => ?_,
    fun D hD E hE w u hp hp' heq => ?_⟩
  · obtain ⟨hone, hDK, hTK⟩ := h D hD
    rcases hone.slots w hp with ⟨-, hf⟩ | ⟨-, hf⟩
    · rw [hf]
      exact hTK
    · rw [hf]
      exact hDK
  · rcases (h D hD).1.slots w hp with ⟨hw, hf⟩ | ⟨hw, hf⟩
    · rcases (h E hE).1.slots u hp' with ⟨hu, hf'⟩ | ⟨hu, hf'⟩
      · rw [hw, hu]
      · rw [hf, hf'] at heq
        exact absurd heq (hne D hD E hE)
    · rcases (h E hE).1.slots u hp' with ⟨hu, hf'⟩ | ⟨hu, hf'⟩
      · rw [hf, hf'] at heq
        exact absurd heq.symm (hne E hE D hD)
      · rw [hw, hu]

/-- `pm_alloc` gives out frames behind the directories, the tables and all words stored. -/
theorem supply_of_oneTable
    (h : ∀ D ∈ dirs, OneTable (writeAll (fun _ => 0#8) words) D (T' D) ∧ D.toNat < lo ∧
      (T' D).toNat < lo)
    (hwords : ∀ u ∈ words, u.1.toNat + 4 ≤ lo) (hnodup : (nextFrames n pm).Nodup)
    (hframes : ∀ F ∈ nextFrames n pm, F.toNat % 4096 = 0 ∧ lo ≤ F.toNat ∧ F ∈ K) :
    Supply K dirs (writeAll (fun _ => 0#8) words) n pm := by
  refine ⟨hnodup, fun F hF => ⟨(hframes F hF).1, (hframes F hF).2.2⟩, ?_, fun F hF x hx => ?_⟩
  · rintro F hF D hD ⟨w, hp, hf⟩
    obtain ⟨-, hhigh, -⟩ := hframes F hF
    obtain ⟨hone, hDlo, hTlo⟩ := h D hD
    rw [← hf] at hhigh
    rcases hone.slots w hp with ⟨-, hf'⟩ | ⟨-, hf'⟩
    · rw [hf'] at hhigh
      omega
    · rw [hf'] at hhigh
      omega
  · refine writeAll_of_not_inRange fun u hu hin => ?_
    have hend := hwords u hu
    obtain ⟨-, hhigh, -⟩ := hframes F hF
    have hle : F.toNat ≤ x.toNat := by
      rw [← hx, palignDown_toNat]
      omega
    have hF := F.isLt
    rw [inRange_iff (by omega)] at hin
    omega

end OneTable

end Leoman
