import Leoman.Spaces
import Leoman.Syscall

namespace Leoman

open ByteMem StateExcept

/-!
# User memory through the kernel's eyes

The bytes of a user buffer are wherever the page tables of its process put them.  An IPC call
reads some buffers through the address space of the running process and others through a window,
which shows the physical bytes from the first one on.

* `UserBytes` — the bytes at a virtual address are user memory, byte `i` at `f i`;
* `load32_user`, `memcpy_user` — loads and copies of user bytes;
* `vmGetPhysMapping_user` — the physical address of a buffer;
* `Window.copyIn`, `Window.copyOut` — copies into a window and out of it;
* `copyToReceiver_user`, `reportSender_user`, `copyFromSender_user`, `copyResponse_user` — the
  machine part of the IPC calls.
-/

/-! ### User bytes -/

/-- The `n` bytes at `v` are user memory: byte `i` is at the physical address `f i`. -/
structure UserBytes (K : Set (BitVec 32)) (mem : Mem) (D v : BitVec 32) (n : Nat)
    (f : Nat → BitVec 32) : Prop where
  maps : ∀ i < n, hwTranslate mem D (v + BitVec.ofNat 32 i) = some (f i)
  user : ∀ i < n, palignDown (f i) ∉ K

/-- The word of the user bytes from byte `j` on. -/
def wordVia (mem : Mem) (f : Nat → BitVec 32) (j : Nat) : BitVec 32 :=
  mem (f (j + 3)) ++ mem (f (j + 2)) ++ mem (f (j + 1)) ++ mem (f j)

section Bytes

variable {K dirs P : Set (BitVec 32)} {mem mem' : Mem} {D v w x y : BitVec 32} {n k j : Nat}
  {f g : Nat → BitVec 32} {m : Machine Unit}

/-- A walk ends in the frame of the byte it finds. -/
theorem walk_of_hwTranslate (h : hwTranslate mem D v = some x) :
    walk mem D v = some (palignDown x) ∧ x = palignDown x + pageOffset v := by
  unfold hwTranslate at h
  cases hw : walk mem D v with
  | none => simp [hw] at h
  | some f =>
    rw [hw, Option.map_some, Option.some.injEq] at h
    obtain ⟨-, -, hf⟩ := walk_eq_some_iff.mp hw
    have hx : palignDown x = f := by
      rw [← h]
      refine palignDown_frame_add ?_
      rw [← hf, palignDown_palignDown]
    rw [hx]
    exact ⟨rfl, h.symm⟩

/-- A translation is a walk and an offset. -/
theorem hwTranslate_congr (h : walk mem' D v = walk mem D v) :
    hwTranslate mem' D v = hwTranslate mem D v := by
  rw [hwTranslate, h, hwTranslate]

/-- The last region shows tables, so user memory is below it. -/
theorem Spaces.region_of_user (hs : Spaces K dirs mem) (hD : D ∈ dirs)
    (h : hwTranslate mem D v = some x) (hx : palignDown x ∉ K) : vmPdirIdx v ≠ 1023#32 := by
  obtain ⟨hw, -⟩ := walk_of_hwTranslate h
  obtain ⟨-, hpte, hf⟩ := walk_eq_some_iff.mp hw
  intro hreg
  obtain ⟨u, hu, -⟩ := exists_idx (vmPtabIdx_lt v) (vmPtabIdx_lt v)
  -- the table entry is a directory entry
  have heq : pteOf mem D v = pdeOf mem D u := by
    rw [pteOf, pdeOf, hreg, (hs.recursive D hD).2, pdeOf, hu]
  rw [heq] at hpte hf
  exact hx (hf ▸ hs.tables D hD u hpte)

/-- Fewer bytes. -/
theorem UserBytes.le (h : UserBytes K mem D v n f) (hk : k ≤ n) : UserBytes K mem D v k f :=
  ⟨fun i hi => h.maps i (by omega), fun i hi => h.user i (by omega)⟩

/-- User bytes after an edit of unmapped pages. -/
theorem UserBytes.edited (h : UserBytes K mem D v n f) (hs : Spaces K dirs mem) (hD : D ∈ dirs)
    (he : Edited K dirs P mem mem') (hclosed : Closed dirs mem P) :
    UserBytes K mem' D v n f := by
  refine ⟨fun i hi => ?_, h.user⟩
  have hmap := h.maps i hi
  rw [hwTranslate_congr (he.walks D hD _ (hs.region_of_user hD hmap (h.user i hi)) fun hP => ?_),
    hmap]
  have hw := (walk_of_hwTranslate hmap).1
  rw [← walk_palignDown, hclosed D hD _ hP] at hw
  exact absurd hw (by simp)

/-- User bytes after a call that leaves the address spaces alone. -/
theorem UserBytes.same (h : UserBytes K mem D v n f) (hs : Spaces K dirs mem) (hD : D ∈ dirs)
    (hsame : SameSpaces dirs mem mem') : UserBytes K mem' D v n f := by
  refine ⟨fun i hi => ?_, h.user⟩
  have hmap := h.maps i hi
  rw [hwTranslate_congr (hsame.walks D hD _ (hs.region_of_user hD hmap (h.user i hi))), hmap]

/-! ### Loads and copies -/

/-- Without a TLB an access goes where the walk says. -/
theorem translate_unit (h : hwTranslate m.mem m.cr3 v = some x) : translate v m = .ok (x, m) := by
  obtain ⟨hw, hx⟩ := walk_of_hwTranslate h
  obtain ⟨t, ht, -⟩ := translate_of_walk (coherent_unit m.tlb m.mem m.cr3) hw
  rw [← hx] at ht
  exact ht

/-- A byte is loaded from where it is, … -/
theorem load8_unit (h : hwTranslate m.mem m.cr3 v = some x) : load8 v m = .ok (m.mem x, m) :=
  run_bind_of_ok (translate_unit h)

/-- … or stored there. -/
theorem store8_unit (h : hwTranslate m.mem m.cr3 v = some x) (b : BitVec 8) :
    store8 v b m = .ok ((), { m with mem := write8 m.mem x b }) :=
  run_bind_of_ok (translate_unit h)

/-- The four translations of a word among user bytes. -/
theorem UserBytes.word (h : UserBytes K m.mem m.cr3 v n f) (hj : j + 4 ≤ n) (i : Nat) (hi : i < 4) :
    translate (v + BitVec.ofNat 32 j + BitVec.ofNat 32 i) m = .ok (f (j + i), m) := by
  refine translate_unit ?_
  have := h.maps (j + i) (by omega)
  rwa [BitVec.ofNat_add, ← BitVec.add_assoc] at this

/-- Loading a word of user bytes. -/
theorem load32_user (h : UserBytes K m.mem m.cr3 v n f) (hj : j + 4 ≤ n) :
    load32 (v + BitVec.ofNat 32 j) m = .ok (wordVia m.mem f j, m) := by
  have h₀ := h.word hj 0 (by omega)
  rw [show BitVec.ofNat 32 0 = 0#32 from rfl, BitVec.add_zero] at h₀
  unfold load32
  rw [run_bind_of_ok h₀, run_bind_of_ok (h.word hj 1 (by omega)),
    run_bind_of_ok (h.word hj 2 (by omega)), run_bind_of_ok (h.word hj 3 (by omega))]
  rfl

/-- The byte after. -/
theorem add_one_add_ofNat (a : BitVec 32) (i : Nat) :
    a + 1#32 + BitVec.ofNat 32 i = a + BitVec.ofNat 32 (i + 1) := by
  rw [BitVec.ofNat_add, BitVec.add_assoc, BitVec.add_comm (BitVec.ofNat 32 i)]

/-- **`memcpy`** into user memory, from bytes that are none of those written. -/
theorem memcpy_user {dst src : BitVec 32} (hs : Spaces K dirs m.mem) (hcur : m.cr3 ∈ dirs)
    (hdst : UserBytes K m.mem m.cr3 dst n f)
    (hsrc : ∀ i < n, hwTranslate m.mem m.cr3 (src + BitVec.ofNat 32 i) = some (g i))
    (hinj : ∀ i < n, ∀ j < n, f i = f j → i = j) (hdisj : ∀ i < n, ∀ j < n, f i ≠ g j) :
    ∃ mem', memcpy dst src n m = .ok ((), { m with mem := mem' }) ∧
      (∀ i < n, mem' (f i) = m.mem (g i)) ∧ ∀ x, (∀ i < n, x ≠ f i) → mem' x = m.mem x := by
  induction n generalizing m dst src f g with
  | zero => exact ⟨m.mem, rfl, fun i hi => absurd hi (by omega), fun _ _ => rfl⟩
  | succ n ih =>
    have hload : load8 src m = .ok (m.mem (g 0), m) := by
      have := hsrc 0 (by omega)
      rw [show BitVec.ofNat 32 0 = 0#32 from rfl, BitVec.add_zero] at this
      exact load8_unit this
    have hstore := hdst.maps 0 (by omega)
    rw [show BitVec.ofNat 32 0 = 0#32 from rfl, BitVec.add_zero] at hstore
    -- the byte stored is user memory, so no translation changes
    have hagree : ∀ x, palignDown x ∈ K → write8 m.mem (f 0) (m.mem (g 0)) x = m.mem x := by
      intro x hx
      refine Function.update_of_ne ?_ _ _
      rintro rfl
      exact hdst.user 0 (by omega) hx
    have hwalk : ∀ u, hwTranslate (write8 m.mem (f 0) (m.mem (g 0))) m.cr3 u
        = hwTranslate m.mem m.cr3 u := fun u => hwTranslate_congr (hs.walk_agree hagree hcur u)
    obtain ⟨mem', hrun, hcopied, hother⟩ := ih
      (m := { m with mem := write8 m.mem (f 0) (m.mem (g 0)) }) (f := fun i => f (i + 1))
      (g := fun i => g (i + 1)) (hs.of_agree hagree) hcur
      ⟨fun i hi => by rw [hwalk, add_one_add_ofNat]; exact hdst.maps (i + 1) (by omega),
        fun i hi => hdst.user (i + 1) (by omega)⟩
      (fun i hi => by rw [hwalk, add_one_add_ofNat]; exact hsrc (i + 1) (by omega))
      (fun i hi j hj h => by have := hinj (i + 1) (by omega) (j + 1) (by omega) h; omega)
      (fun i hi j hj => hdisj (i + 1) (by omega) (j + 1) (by omega))
    refine ⟨mem', ?_, fun i hi => ?_, fun x hx => ?_⟩
    · rw [memcpy, run_bind_of_ok hload, run_bind_of_ok (store8_unit hstore _)]
      exact hrun
    · cases i with
      | zero =>
        rw [hother (f 0) fun i hi h => by have := hinj 0 (by omega) (i + 1) (by omega) h; omega]
        exact Function.update_self _ _ _
      | succ i =>
        rw [hcopied i (by omega)]
        exact Function.update_of_ne (Ne.symm (hdisj 0 (by omega) (i + 1) hi)) _ _
    · rw [hother x fun i hi => hx (i + 1) (by omega)]
      exact Function.update_of_ne (hx 0 (by omega)) _ _

/-- Without a TLB an access that completes has a walk. -/
theorem walk_of_translate {m' : Machine Unit} (h : translate v m = .ok (x, m')) :
    m' = m ∧ hwTranslate m.mem m.cr3 v = some x := by
  simp only [translate, Tlb.lookup] at h
  cases hw : walk m.mem m.cr3 v with
  | none => simp [hw] at h
  | some frame =>
    simp only [hw] at h
    obtain ⟨rfl, rfl⟩ := Prod.mk.inj (Except.ok.inj h)
    exact ⟨rfl, by rw [hwTranslate, hw]; rfl⟩

/-- What a load that completes says of the walk, and of the machine. -/
theorem load8_ok {m' : Machine Unit} {b : BitVec 8} (h : load8 v m = .ok (b, m')) :
    m' = m ∧ walk m.mem m.cr3 v ≠ none := by
  obtain ⟨pa, m₁, hpa, hrest⟩ := bind_ok_iff.mp h
  obtain ⟨rfl, hx⟩ := walk_of_translate hpa
  obtain ⟨-, hm⟩ := Prod.mk.inj (Except.ok.inj hrest)
  rw [(walk_of_hwTranslate hx).1]
  exact ⟨hm.symm, by simp⟩

/-- A store that completes is to a page that is mapped. -/
theorem store8_ok {m' : Machine Unit} {b : BitVec 8} {u : Unit}
    (h : store8 v b m = .ok (u, m')) : walk m.mem m.cr3 v ≠ none := by
  obtain ⟨pa, m₁, hpa, -⟩ := bind_ok_iff.mp h
  obtain ⟨-, hx⟩ := walk_of_translate hpa
  rw [(walk_of_hwTranslate hx).1]
  simp

/-- **`memcpy` stops at a page that is not mapped**, on either side. -/
theorem memcpy_stops {dst src : BitVec 32} {m' : Machine Unit} (hs : Spaces K dirs m.mem)
    (hcur : m.cr3 ∈ dirs) (hdst : UserBytes K m.mem m.cr3 dst j f) (hj : j < n)
    (hstop : walk m.mem m.cr3 (dst + BitVec.ofNat 32 j) = none ∨
      walk m.mem m.cr3 (src + BitVec.ofNat 32 j) = none) : memcpy dst src n m ≠ .ok ((), m') := by
  induction j generalizing m dst src n f with
  | zero =>
    obtain ⟨n, rfl⟩ : ∃ n', n = n' + 1 := ⟨n - 1, by omega⟩
    rw [show BitVec.ofNat 32 0 = 0#32 from rfl, BitVec.add_zero, BitVec.add_zero] at hstop
    intro h
    -- the first byte is loaded and stored, so both sides are mapped
    obtain ⟨b, m₁, hload, h⟩ := bind_ok_iff.mp h
    obtain ⟨_, m₂, hstore, -⟩ := bind_ok_iff.mp h
    obtain ⟨rfl, hsrc⟩ := load8_ok hload
    exact hstop.elim (store8_ok hstore) hsrc
  | succ j ih =>
    obtain ⟨n, rfl⟩ : ∃ n', n = n' + 1 := ⟨n - 1, by omega⟩
    intro h
    obtain ⟨b, m₁, hload, h⟩ := bind_ok_iff.mp h
    obtain ⟨_, m₂, hstore, h⟩ := bind_ok_iff.mp h
    obtain ⟨hm₁, -⟩ := load8_ok hload
    have hfirst := hdst.maps 0 (by omega)
    rw [show BitVec.ofNat 32 0 = 0#32 from rfl, BitVec.add_zero] at hfirst
    rw [hm₁, store8_unit hfirst] at hstore
    obtain ⟨-, rfl⟩ := Prod.mk.inj (Except.ok.inj hstore)
    -- the byte stored is user memory, so no translation changes
    have hagree : ∀ x, palignDown x ∈ K → write8 m.mem (f 0) b x = m.mem x := by
      intro x hx
      refine Function.update_of_ne ?_ _ _
      rintro rfl
      exact hdst.user 0 (by omega) hx
    refine ih (m := { m with mem := write8 m.mem (f 0) b }) (f := fun i => f (i + 1))
      (hs.of_agree hagree) hcur ⟨fun i hi => ?_, fun i hi => hdst.user (i + 1) (by omega)⟩
      (by omega) ?_ h
    · rw [hwTranslate_congr (hs.walk_agree hagree hcur _), add_one_add_ofNat]
      exact hdst.maps (i + 1) (by omega)
    · rw [hs.walk_agree hagree hcur, hs.walk_agree hagree hcur, add_one_add_ofNat,
        add_one_add_ofNat]
      exact hstop

end Bytes

/-! ### What a call leaves behind -/

/-- From `m` to `m'` no user byte outside `X` changed and the address spaces are as before; `n`
    frames are left for tables. -/
structure Effect (K dirs : Set (BitVec 32)) (n : Nat) (X : Set (BitVec 32))
    (m m' : Machine Unit) : Prop where
  cr3 : m'.cr3 = m.cr3
  paging : Paging K dirs n m'
  spaces : SameSpaces dirs m.mem m'.mem
  user : ∀ x, palignDown x ∉ K → x ∉ X → m'.mem x = m.mem x

/-- The first `n` addresses of `f`. -/
def bytesOf (f : Nat → BitVec 32) (n : Nat) : Set (BitVec 32) := {x | ∃ i < n, x = f i}

/-- The `n` bytes from the physical address `p` on. -/
def physBytes (p : BitVec 32) : Nat → BitVec 32 := fun i => p + BitVec.ofNat 32 i

section Effects

variable {K dirs X Y : Set (BitVec 32)} {n n' k : Nat} {m m₁ m₂ : Machine Unit} {v D : BitVec 32}
  {f : Nat → BitVec 32}

/-- Nothing was done. -/
theorem Effect.refl (hp : Paging K dirs n m) : Effect K dirs n X m m :=
  ⟨rfl, hp, SameSpaces.refl, fun _ _ _ => rfl⟩

/-- One piece of work after the other. -/
theorem Effect.trans (h : Effect K dirs n X m m₁) (h' : Effect K dirs n' Y m₁ m₂) :
    Effect K dirs n' (X ∪ Y) m m₂ := by
  refine ⟨h'.cr3.trans h.cr3, h'.paging, h.spaces.trans h'.spaces, fun x hK hx => ?_⟩
  rw [Set.mem_union, not_or] at hx
  rw [h'.user x hK hx.2, h.user x hK hx.1]

/-- Buffers stay where they are. -/
theorem Effect.bytes (h : Effect K dirs n X m m₁) (hs : Spaces K dirs m.mem) (hD : D ∈ dirs)
    (hb : UserBytes K m.mem D v k f) : UserBytes K m₁.mem D v k f :=
  hb.same hs hD h.spaces

/-- The words of equal bytes. -/
theorem wordVia_congr {mem mem' : Mem} {j : Nat} {g : Nat → BitVec 32}
    (h : ∀ i < k, mem' (f i) = mem (g i)) (hj : j + 4 ≤ k) :
    wordVia mem' f j = wordVia mem g j := by
  rw [wordVia, wordVia, h j (by omega), h (j + 1) (by omega), h (j + 2) (by omega),
    h (j + 3) (by omega)]

/-- Distinct places of a physical range are distinct bytes. -/
theorem physBytes_inj {p : BitVec 32} (hk : k ≤ 2 ^ 32) :
    ∀ i < k, ∀ j < k, physBytes p i = physBytes p j → i = j := by
  intro i hi j hj h
  have := congrArg BitVec.toNat (BitVec.add_right_inj p |>.mp h)
  simp only [BitVec.toNat_ofNat] at this
  omega

end Effects

/-! ### Windows -/

/-- The machine `m₁` is `m` with a window at `W` onto the physical memory from the page of `p`
    on.  Whatever user memory is written then, `unmap_pages` at `v` closes it again. -/
structure Window (K dirs : Set (BitVec 32)) (n : Nat) (W p v len : BitVec 32)
    (m m₁ : Machine Unit) : Prop where
  cr3 : m₁.cr3 = m.cr3
  paging : Paging K dirs n m₁
  user : ∀ x, palignDown x ∉ K → m₁.mem x = m.mem x
  bytes : ∀ u k f, UserBytes K m.mem m.cr3 u k f → UserBytes K m₁.mem m₁.cr3 u k f
  outside : ∀ w, vmPdirIdx w ≠ 1023#32 → palignDown w ∉ windowPages W (pagesOf len) →
    walk m₁.mem m₁.cr3 w = walk m.mem m.cr3 w
  shows : ∀ t < 4096 * pagesOf len,
    hwTranslate m₁.mem m₁.cr3 (W + BitVec.ofNat 32 t) = some (palignDown p + BitVec.ofNat 32 t)
  close : ∀ mem, (∀ x, palignDown x ∈ K → mem x = m₁.mem x) →
    ∃ m', unmapPages v len { m₁ with mem := mem } = .ok ((), m') ∧ m'.cr3 = m.cr3 ∧
      Paging K dirs n m' ∧ SameSpaces dirs m.mem m'.mem ∧
      ∀ x, palignDown x ∉ K → m'.mem x = mem x

/-- The pages of the window at `W` that `map_pages` opens for `len` bytes are free, and below the
    last region. -/
def FreeWindow (dirs : Set (BitVec 32)) (mem : Mem) (W len : BitVec 32) : Prop :=
  W.toNat % 4096 = 0 ∧ W.toNat + 4096 * pagesOf len ≤ 0xffc00000 ∧
    Closed dirs mem (windowPages W (pagesOf len))

section Windows

variable {K dirs X : Set (BitVec 32)} {n k : Nat} {m m₁ : Machine Unit} {W p v len : BitVec 32}
  {f g : Nat → BitVec 32}

/-- A window stays free as long as the address spaces stay as they are. -/
theorem FreeWindow.same {mem mem' : Mem} (h : FreeWindow dirs mem W len)
    (hsame : SameSpaces dirs mem mem') : FreeWindow dirs mem' W len := by
  refine ⟨h.1, h.2.1, fun E hE q hq => ?_⟩
  obtain ⟨i, hi, rfl⟩ := hq
  rw [hsame.walks E hE _ (pageAt_region h.2.1 hi)]
  exact h.2.2 E hE _ ⟨i, hi, rfl⟩

/-- Byte `t` of an open window. -/
theorem Opened.shows (ho : Opened K dirs W p k m m₁) (hW : W.toNat % 4096 = 0)
    (hend : W.toNat + 4096 * k ≤ 0xffc00000) {t : Nat} (ht : t < 4096 * k) :
    hwTranslate m₁.mem m₁.cr3 (W + BitVec.ofNat 32 t) = some (p + BitVec.ofNat 32 t) := by
  have hpage : palignDown (W + BitVec.ofNat 32 t) = pageAt W (t / 4096) := by
    apply BitVec.eq_of_toNat_eq
    rw [palignDown_toNat, pageAt_toNat hend (by omega), BitVec.toNat_add, BitVec.toNat_ofNat]
    omega
  have hoff : (pageOffset (W + BitVec.ofNat 32 t)).toNat = t % 4096 := by
    rw [pageOffset_toNat, BitVec.toNat_add, BitVec.toNat_ofNat]
    omega
  have hadd : pageAt p (t / 4096) + pageOffset (W + BitVec.ofNat 32 t) = p + BitVec.ofNat 32 t := by
    apply BitVec.eq_of_toNat_eq
    simp only [pageAt, BitVec.toNat_add, hoff, BitVec.toNat_ofNat]
    omega
  rw [hwTranslate, ← walk_palignDown, hpage, ho.cr3, ho.maps _ (by omega), Option.map_some, hadd]

/-- **Opening a window.** -/
theorem mapPages_window (hp : Paging K dirs (n + pagesOf len) m)
    (hfree : FreeWindow dirs m.mem W len) {v₁ : BitVec 32} (h₁ : palignDown v₁ = W)
    (h₂ : palignDown v = W) :
    ∃ m₁, mapPages p v₁ 0#32 len m = .ok ((), m₁) ∧ Window K dirs n W p v len m m₁ := by
  obtain ⟨hW, hend, hclosed⟩ := hfree
  obtain ⟨m₁, hrun, hp₁, ho⟩ :=
    mapPages_opens (p := p) (v := v₁) hp (by rwa [h₁]) (by rwa [h₁])
  rw [h₁] at ho
  refine ⟨m₁, hrun, ho.cr3, hp₁, ho.edited.user, fun u k f hu => ?_, fun w hw hwP => ?_,
    fun t ht => ?_, fun mem hmem => ?_⟩
  · rw [ho.cr3]
    exact hu.edited hp.spaces hp.current ho.edited hclosed
  · rw [ho.cr3]
    exact ho.edited.walks _ hp.current w hw hwP
  · exact ho.shows hW hend ht
  · rw [← h₂] at ho hend hclosed
    exact unmapPages_closes hp₁ ho hend hclosed hmem

/-- The bytes of a buffer in the window. -/
theorem Window.buffer (hw : Window K dirs n W p v len m m₁)
    (hfit : ∀ i < k, (pageOffset p).toNat + i < 4096 * pagesOf len) :
    ∀ i < k, hwTranslate m₁.mem m₁.cr3 (W + pageOffset p + BitVec.ofNat 32 i)
      = some (physBytes p i) := by
  intro i hi
  have hoff : pageOffset p = BitVec.ofNat 32 (pageOffset p).toNat := by
    rw [BitVec.ofNat_toNat, BitVec.setWidth_eq]
  have hshow := hw.shows ((pageOffset p).toNat + i) (hfit i hi)
  rw [BitVec.ofNat_add, ← hoff, ← BitVec.add_assoc, ← BitVec.add_assoc,
    palignDown_add_pageOffset] at hshow
  exact hshow

/-- **A copy into the window.** -/
theorem Window.copyIn (hw : Window K dirs n W p v len m m₁) {src : BitVec 32}
    (hfit : ∀ i < k, (pageOffset p).toNat + i < 4096 * pagesOf len) (hk : k ≤ 2 ^ 32)
    (huser : ∀ i < k, palignDown (physBytes p i) ∉ K)
    (hsrc : UserBytes K m.mem m.cr3 src k g)
    (hdisj : ∀ i < k, ∀ j < k, physBytes p i ≠ g j) :
    ∃ m₂ m', memcpy (W + pageOffset p) src k m₁ = .ok ((), m₂) ∧
      unmapPages v len m₂ = .ok ((), m') ∧ Effect K dirs n (bytesOf (physBytes p) k) m m' ∧
      ∀ i < k, m'.mem (physBytes p i) = m.mem (g i) := by
  obtain ⟨mem, hrun, hcopied, hother⟩ := memcpy_user hw.paging.spaces hw.paging.current
    ⟨hw.buffer hfit, huser⟩ (hw.bytes src k g hsrc).maps (physBytes_inj hk) hdisj
  obtain ⟨m', hun, hcr3, hp', hsame, hm'⟩ := hw.close mem fun x hx => hother x fun i hi h =>
    huser i hi (h ▸ hx)
  refine ⟨_, m', hrun, hun, ⟨hcr3, hp', hsame, fun x hK hx => ?_⟩, fun i hi => ?_⟩
  · rw [hm' x hK, hother x fun i hi h => hx ⟨i, hi, h⟩, hw.user x hK]
  · rw [hm' _ (huser i hi), hcopied i hi, hw.user _ (hsrc.user i hi)]

/-- **A copy out of the window.** -/
theorem Window.copyOut (hw : Window K dirs n W p v len m m₁) {dst : BitVec 32}
    (hfit : ∀ i < k, (pageOffset p).toNat + i < 4096 * pagesOf len)
    (huser : ∀ i < k, palignDown (physBytes p i) ∉ K)
    (hdst : UserBytes K m.mem m.cr3 dst k f) (hinj : ∀ i < k, ∀ j < k, f i = f j → i = j)
    (hdisj : ∀ i < k, ∀ j < k, f i ≠ physBytes p j) :
    ∃ m₂ m', memcpy dst (W + pageOffset p) k m₁ = .ok ((), m₂) ∧
      unmapPages v len m₂ = .ok ((), m') ∧ Effect K dirs n (bytesOf f k) m m' ∧
      ∀ i < k, m'.mem (f i) = m.mem (physBytes p i) := by
  have hdst₁ := hw.bytes dst k f hdst
  obtain ⟨mem, hrun, hcopied, hother⟩ := memcpy_user hw.paging.spaces hw.paging.current hdst₁
    (hw.buffer hfit) hinj hdisj
  obtain ⟨m', hun, hcr3, hp', hsame, hm'⟩ := hw.close mem fun x hx => hother x fun i hi h =>
    hdst.user i hi (h ▸ hx)
  refine ⟨_, m', hrun, hun, ⟨hcr3, hp', hsame, fun x hK hx => ?_⟩, fun i hi => ?_⟩
  · rw [hm' x hK, hother x fun i hi h => hx ⟨i, hi, h⟩, hw.user x hK]
  · rw [hm' _ (hdst.user i hi), hcopied i hi, hw.user _ (huser i hi)]

/-- The page after the window at `W` for `len` bytes is not mapped either. -/
def GuardPage (mem : Mem) (D W len : BitVec 32) : Prop :=
  W.toNat + 4096 * (pagesOf len + 1) ≤ 0xffc00000 ∧ walk mem D (pageAt W (pagesOf len)) = none

/-- The guard page is read off the tables. -/
theorem GuardPage.same {mem mem' : Mem} {D : BitVec 32} (h : GuardPage mem D W len)
    (hD : D ∈ dirs) (hsame : SameSpaces dirs mem mem') : GuardPage mem' D W len := by
  refine ⟨h.1, ?_⟩
  rw [hsame.walks D hD _ (pageAt_region h.1 (by omega))]
  exact h.2

/-- The frame of a byte in the window, at whatever offset it starts. -/
theorem Window.frame (hw : Window K dirs n W p v len m m₁) {o : BitVec 32} {i : Nat}
    (hi : o.toNat + i < 4096 * pagesOf len) :
    walk m₁.mem m₁.cr3 (W + o + BitVec.ofNat 32 i)
      = some (palignDown (palignDown p + o + BitVec.ofNat 32 i)) := by
  have ho : o = BitVec.ofNat 32 o.toNat := by rw [BitVec.ofNat_toNat, BitVec.setWidth_eq]
  have hshow := hw.shows (o.toNat + i) hi
  rw [BitVec.ofNat_add, ← ho, ← BitVec.add_assoc, ← BitVec.add_assoc] at hshow
  exact (walk_of_hwTranslate hshow).1

/-- A range that does not end within the window runs into the guard page. -/
theorem Window.runs_out (hw : Window K dirs n W p v len m m₁) (hW : W.toNat % 4096 = 0)
    (hg : GuardPage m.mem m.cr3 W len) (hlen : 0 < len.toNat) {o : BitVec 32}
    (ho : o.toNat < 4096) {i : Nat} (hi : 4096 * pagesOf len ≤ o.toNat + i) :
    ∃ j ≤ i, (∀ t < j, o.toNat + t < 4096 * pagesOf len) ∧
      walk m₁.mem m₁.cr3 (W + o + BitVec.ofNat 32 j) = none := by
  have hpos := pagesOf_pos hlen
  have hguard : W + o + BitVec.ofNat 32 (4096 * pagesOf len - o.toNat)
      = pageAt W (pagesOf len) := by
    apply BitVec.eq_of_toNat_eq
    simp only [pageAt, BitVec.toNat_add, BitVec.toNat_ofNat]
    omega
  refine ⟨4096 * pagesOf len - o.toNat, by omega, fun t ht => by omega, ?_⟩
  rw [hguard, hw.outside _ (pageAt_region hg.1 (by omega))]
  · exact hg.2
  · rw [palignDown_of_aligned (pageAt_aligned hW)]
    rintro ⟨t, ht, heq⟩
    have := congrArg BitVec.toNat heq
    rw [pageAt_toNat hg.1 (by omega), pageAt_toNat hg.1 (by omega)] at this
    omega

/-- A copy into the window that completes stays within it. -/
theorem Window.copyIn_fits (hw : Window K dirs n W p v len m m₁) (hW : W.toNat % 4096 = 0)
    (hg : GuardPage m.mem m.cr3 W len) {src : BitVec 32} {m₂ : Machine Unit}
    (hk : k ≤ len.toNat) (huser : ∀ i < k, palignDown (physBytes p i) ∉ K)
    (h : memcpy (W + pageOffset p) src k m₁ = .ok ((), m₂)) :
    ∀ i < k, (pageOffset p).toNat + i < 4096 * pagesOf len := by
  intro i hi
  by_contra hno
  obtain ⟨j, hj, hin, hend⟩ := hw.runs_out hW hg (by omega) (pageOffset_lt p) (not_lt.mp hno)
  exact memcpy_stops hw.paging.spaces hw.paging.current
    ⟨hw.buffer hin, fun t ht => huser t (by omega)⟩ (by omega) (Or.inl hend) h

/-- A copy out of the window that completes stays within it. -/
theorem Window.copyOut_fits (hw : Window K dirs n W p v len m m₁) (hW : W.toNat % 4096 = 0)
    (hg : GuardPage m.mem m.cr3 W len) {dst : BitVec 32} {m₂ : Machine Unit} (hk : k ≤ len.toNat)
    (hdst : UserBytes K m.mem m.cr3 dst k f)
    (h : memcpy dst (W + pageOffset p) k m₁ = .ok ((), m₂)) :
    ∀ i < k, (pageOffset p).toNat + i < 4096 * pagesOf len := by
  intro i hi
  by_contra hno
  obtain ⟨j, hj, -, hend⟩ := hw.runs_out hW hg (by omega) (pageOffset_lt p) (not_lt.mp hno)
  exact memcpy_stops hw.paging.spaces hw.paging.current
    ((hw.bytes dst k f hdst).le (by omega)) (by omega) (Or.inr hend) h

end Windows

/-! ### Buffers and packets -/

/-- The `n` bytes at `v` are a user buffer: its bytes, and the first one of an empty buffer too,
    are user memory, no two of them are one byte, and the entry of its first page has the two
    bits clear that `vm_get_phys_mapping` takes for address bits. -/
structure UserBuffer (K : Set (BitVec 32)) (mem : Mem) (D v : BitVec 32) (n : Nat)
    (f : Nat → BitVec 32) : Prop where
  bytes : UserBytes K mem D v (max n 1) f
  inj : ∀ i < n, ∀ j < n, f i = f j → i = j
  clean : pteOf mem D v &&& 0xc00#32 = 0#32

/-- The packet in user bytes. -/
def packetVia (mem : Mem) (f : Nat → BitVec 32) : MsgPacket where
  sender := wordVia mem f 0
  receiver := wordVia mem f 4
  sendBuf := wordVia mem f 8
  recvBuf := wordVia mem f 12
  sendLen := wordVia mem f 16
  recvLen := wordVia mem f 20
  physSendBuf := wordVia mem f 24
  physRecvBuf := wordVia mem f 28
  physMsgPacket := wordVia mem f 32

section Buffers

variable {K dirs : Set (BitVec 32)} {n k : Nat} {m m' : Machine Unit} {D v msg x : BitVec 32}
  {f fm : Nat → BitVec 32}

/-- The bytes of a buffer, without its table. -/
theorem UserBuffer.toBytes {mem : Mem} (h : UserBuffer K mem D v n f) : UserBytes K mem D v n f :=
  h.bytes.le (le_max_left _ _)

/-- A shorter buffer. -/
theorem UserBuffer.le {mem : Mem} (h : UserBuffer K mem D v n f) (hk : k ≤ n) :
    UserBuffer K mem D v k f :=
  ⟨h.bytes.le (by omega), fun i hi j hj => h.inj i (by omega) j (by omega), h.clean⟩

/-- The first byte of a buffer. -/
theorem UserBuffer.first {mem : Mem} (h : UserBuffer K mem D v n f) :
    hwTranslate mem D v = some (f 0) ∧ palignDown (f 0) ∉ K := by
  have := h.bytes.maps 0 (by omega)
  rw [show BitVec.ofNat 32 0 = 0#32 from rfl, BitVec.add_zero] at this
  exact ⟨this, h.bytes.user 0 (by omega)⟩

/-- Physical and virtual addresses agree in the offset. -/
theorem UserBuffer.pageOffset_first {mem : Mem} (h : UserBuffer K mem D v n f) :
    pageOffset (f 0) = pageOffset v := by
  have hx := (walk_of_hwTranslate h.first.1).2
  have hal := palignDown_aligned (f 0)
  apply BitVec.eq_of_toNat_eq
  rw [hx, pageOffset_toNat, BitVec.toNat_add, pageOffset_toNat]
  omega

/-- The page of an address further on within it, and its offset. -/
theorem page_add {i : Nat} (h : (pageOffset v).toNat + i < 4096) :
    palignDown (v + BitVec.ofNat 32 i) = palignDown v ∧
      pageOffset (v + BitVec.ofNat 32 i) = pageOffset v + BitVec.ofNat 32 i := by
  have hv := pageOffset_toNat v
  constructor
  · apply BitVec.eq_of_toNat_eq
    rw [palignDown_toNat, palignDown_toNat, BitVec.toNat_add, BitVec.toNat_ofNat]
    omega
  · apply BitVec.eq_of_toNat_eq
    rw [BitVec.toNat_add, pageOffset_toNat, BitVec.toNat_add, BitVec.toNat_ofNat]
    omega

/-- The bytes up to the end of the page are physically consecutive. -/
theorem UserBytes.in_page {mem : Mem} (h : UserBytes K mem D v n f)
    (hpage : (pageOffset v).toNat + n ≤ 4096) : ∀ i < n, f i = physBytes (f 0) i := by
  intro i hi
  have h₀ := h.maps 0 (by omega)
  rw [show BitVec.ofNat 32 0 = 0#32 from rfl, BitVec.add_zero] at h₀
  obtain ⟨hw₀, hx₀⟩ := walk_of_hwTranslate h₀
  obtain ⟨hw, hx⟩ := walk_of_hwTranslate (h.maps i hi)
  -- both bytes are on the page of `v`
  obtain ⟨hsame, hoff⟩ := page_add (v := v) (i := i) (by omega)
  have hframe : palignDown (f i) = palignDown (f 0) := by
    rw [← walk_palignDown, hsame, walk_palignDown, hw₀] at hw
    exact (Option.some.inj hw).symm
  rw [hx, hframe, hoff, ← BitVec.add_assoc, ← hx₀]
  rfl

/-- A buffer within a mapped user page. -/
theorem userBuffer_of_page {mem : Mem} {p : BitVec 32} (h : hwTranslate mem D v = some p)
    (hK : palignDown p ∉ K) (hpage : (pageOffset v).toNat + max n 1 ≤ 4096)
    (hclean : pteOf mem D v &&& 0xc00#32 = 0#32) : UserBuffer K mem D v n (physBytes p) := by
  obtain ⟨hw, hp⟩ := walk_of_hwTranslate h
  have hoffset := pageOffset_toNat v
  have hal := palignDown_aligned p
  have hlt := (palignDown p).isLt
  refine ⟨⟨fun i hi => ?_, fun i hi => ?_⟩, physBytes_inj (by omega), hclean⟩
  · obtain ⟨hsame, hoff⟩ := page_add (v := v) (i := i) (by omega)
    rw [hwTranslate, ← walk_palignDown, hsame, walk_palignDown, hw, Option.map_some, hoff,
      ← BitVec.add_assoc, ← hp]
    rfl
  · have hframe : palignDown (physBytes p i) = palignDown p := by
      have hpn := congrArg BitVec.toNat hp
      rw [BitVec.toNat_add] at hpn
      apply BitVec.eq_of_toNat_eq
      rw [palignDown_toNat, palignDown_toNat, physBytes, BitVec.toNat_add, BitVec.toNat_ofNat]
      omega
    rw [hframe]
    exact hK

/-- Buffers stay where they are as long as the address spaces do. -/
theorem UserBuffer.same {mem mem' : Mem} (h : UserBuffer K mem D v n f) (hs : Spaces K dirs mem)
    (hD : D ∈ dirs) (hsame : SameSpaces dirs mem mem') : UserBuffer K mem' D v n f := by
  obtain ⟨hmap, huser⟩ := h.first
  refine ⟨h.bytes.same hs hD hsame, h.inj, ?_⟩
  rw [hsame.ptes D hD v (hs.region_of_user hD hmap huser)]
  · exact h.clean
  · rw [(walk_of_hwTranslate hmap).1]
    simp

/-- The mask of `vm_get_phys_mapping` is `PALIGNDOWN` when the two bits are clear. -/
theorem and_not_3ff {e : BitVec 32} (h : e &&& 0xc00#32 = 0#32) :
    e &&& ~~~0x3ff#32 = palignDown e := by
  have hmask : ~~~0x3ff#32 = ~~~(pageSize - 1#32) ||| 0xc00#32 := by decide
  rw [hmask, BitVec.and_or_distrib_left, h, BitVec.or_zero]
  rfl

/-- What `vm_get_phys_mapping` answers: the entry less its low ten bits, whatever they say, plus
    the offset. -/
theorem vmGetPhysMapping_eq (hr : Recursive m.mem m.cr3) (hp : Present (pdeOf m.mem m.cr3 v)) :
    vmGetPhysMapping v m = .ok ((pteOf m.mem m.cr3 v &&& ~~~0x3ff#32) + pageOffset v, m) := by
  obtain ⟨t, hload, -⟩ := load_ptabSlot (coherent_unit m.tlb m.mem m.cr3) hr hp
  unfold vmGetPhysMapping
  rw [ptabSlot_palignDown, run_bind_of_ok hload, run_pure]

/-- **`vm_get_phys_mapping`** of a buffer. -/
theorem vmGetPhysMapping_user (hp : Paging K dirs k m) (h : UserBuffer K m.mem m.cr3 v n f) :
    vmGetPhysMapping v m = .ok (f 0, m) := by
  obtain ⟨hw, hx⟩ := walk_of_hwTranslate h.first.1
  obtain ⟨hpde, -, hf⟩ := walk_eq_some_iff.mp hw
  rw [vmGetPhysMapping_eq (hp.spaces.recursive _ hp.current) hpde, and_not_3ff h.clean, hf, ← hx]

/-- Loading a packet. -/
theorem loadPacket_user (h : UserBytes K m.mem m.cr3 msg 36 fm) :
    loadPacket msg m = .ok (packetVia m.mem fm, m) := by
  have hload : ∀ j, j + 4 ≤ 36 → load32 (msg + BitVec.ofNat 32 j) m = .ok (wordVia m.mem fm j, m) :=
    fun j hj => load32_user h hj
  have h₀ := hload 0 (by omega)
  rw [show BitVec.ofNat 32 0 = 0#32 from rfl, BitVec.add_zero] at h₀
  unfold loadPacket
  rw [run_bind_of_ok h₀, run_bind_of_ok (hload 4 (by omega)), run_bind_of_ok (hload 8 (by omega)),
    run_bind_of_ok (hload 12 (by omega)), run_bind_of_ok (hload 16 (by omega)),
    run_bind_of_ok (hload 20 (by omega)), run_bind_of_ok (hload 24 (by omega)),
    run_bind_of_ok (hload 28 (by omega)), run_bind_of_ok (hload 32 (by omega))]
  rfl

/-- A packet none of whose bytes changed. -/
theorem packetVia_congr {mem mem' : Mem} (h : ∀ i < 36, mem' (fm i) = mem (fm i)) :
    packetVia mem' fm = packetVia mem fm := by
  have hword : ∀ j, j + 4 ≤ 36 → wordVia mem' fm j = wordVia mem fm j := fun j hj =>
    wordVia_congr h hj
  simp only [packetVia, hword 0 (by omega), hword 4 (by omega), hword 8 (by omega),
    hword 12 (by omega), hword 16 (by omega), hword 20 (by omega), hword 24 (by omega),
    hword 28 (by omega), hword 32 (by omega)]

/-- **The store of a word** into four distinct user bytes. -/
theorem store32_user (h : UserBytes K m.mem m.cr3 v 4 f)
    (hinj : ∀ i < 4, ∀ j < 4, f i = f j → i = j) (x : BitVec 32) :
    ∃ mem, store32 v x m = .ok ((), { m with mem := mem }) ∧ wordVia mem f 0 = x ∧
      ∀ y, (∀ i < 4, y ≠ f i) → mem y = m.mem y := by
  have hne : ∀ i < 4, ∀ j < 4, i ≠ j → f i ≠ f j := fun i hi j hj hij h => hij (hinj i hi j hj h)
  have htr : ∀ i < 4, translate (v + BitVec.ofNat 32 i) m = .ok (f i, m) := fun i hi =>
    translate_unit (h.maps i hi)
  have h₀ := htr 0 (by omega)
  rw [show BitVec.ofNat 32 0 = 0#32 from rfl, BitVec.add_zero] at h₀
  refine ⟨write8 (write8 (write8 (write8 m.mem (f 0) (x.extractLsb' 0 8)) (f 1)
    (x.extractLsb' 8 8)) (f 2) (x.extractLsb' 16 8)) (f 3) (x.extractLsb' 24 8), ?_, ?_, ?_⟩
  · unfold store32
    rw [run_bind_of_ok h₀, run_bind_of_ok (htr 1 (by omega)), run_bind_of_ok (htr 2 (by omega)),
      run_bind_of_ok (htr 3 (by omega))]
    rfl
  · unfold wordVia write8
    rw [Function.update_self, Function.update_of_ne (hne 2 (by omega) 3 (by omega) (by omega)),
      Function.update_self, Function.update_of_ne (hne 1 (by omega) 3 (by omega) (by omega)),
      Function.update_of_ne (hne 1 (by omega) 2 (by omega) (by omega)), Function.update_self,
      Function.update_of_ne (hne 0 (by omega) 3 (by omega) (by omega)),
      Function.update_of_ne (hne 0 (by omega) 2 (by omega) (by omega)),
      Function.update_of_ne (hne 0 (by omega) 1 (by omega) (by omega)), Function.update_self]
    exact append_extract x
  · intro y hy
    simp only [write8, Function.update_of_ne (hy 0 (by omega)),
      Function.update_of_ne (hy 1 (by omega)),
      Function.update_of_ne (hy 2 (by omega)), Function.update_of_ne (hy 3 (by omega))]

end Buffers

/-! ### The machine part of the calls -/

section Calls

variable {K dirs : Set (BitVec 32)} {n i k : Nat} {m : Machine Unit} {msg : BitVec 32}
  {f g fm : Nat → BitVec 32} {q : MsgPacket}

/-- The packet a send queues. -/
theorem sentPacket_user (pid : BitVec 32) (hp : Paging K dirs n m)
    (hm : UserBytes K m.mem m.cr3 msg 36 fm)
    (hsend : UserBuffer K m.mem m.cr3 (packetVia m.mem fm).sendBuf i f)
    (hrecv : UserBuffer K m.mem m.cr3 (packetVia m.mem fm).recvBuf k g) :
    sentPacket pid msg m = .ok ({ packetVia m.mem fm with
      sender := pid, physSendBuf := f 0, physRecvBuf := g 0 }, m) := by
  unfold sentPacket
  rw [run_bind_of_ok (loadPacket_user hm), run_bind_of_ok (vmGetPhysMapping_user hp hsend),
    run_bind_of_ok (vmGetPhysMapping_user hp hrecv)]
  rfl

/-- The placeholder a `recv` queues. -/
theorem waitingPacket_user (hp : Paging K dirs n m) (hm : UserBuffer K m.mem m.cr3 msg 36 fm)
    (hrecv : UserBuffer K m.mem m.cr3 (packetVia m.mem fm).recvBuf k g) :
    waitingPacket msg m = .ok ({ packetVia m.mem fm with
      physRecvBuf := g 0, physMsgPacket := fm 0 }, m) := by
  unfold waitingPacket
  rw [run_bind_of_ok (loadPacket_user hm.toBytes), run_bind_of_ok (vmGetPhysMapping_user hp hrecv),
    run_bind_of_ok (vmGetPhysMapping_user hp hm)]
  rfl

/-- `send` fills in its side from a packet in user memory, … -/
theorem fillSendSide_user (pid : BitVec 32) (hp : Paging K dirs n m)
    (hm : UserBytes K m.mem m.cr3 msg 36 fm)
    (hsend : UserBuffer K m.mem m.cr3 (packetVia m.mem fm).sendBuf i f) :
    fillSendSide q pid msg m = .ok ({ q with
      sender := pid, sendBuf := (packetVia m.mem fm).sendBuf
      sendLen := (packetVia m.mem fm).sendLen, physSendBuf := f 0 }, m) := by
  have hbuf : load32 (sendBufField msg) m = .ok ((packetVia m.mem fm).sendBuf, m) :=
    load32_user (j := 8) hm (by omega)
  have hlen : load32 (sendLenField msg) m = .ok ((packetVia m.mem fm).sendLen, m) :=
    load32_user (j := 16) hm (by omega)
  unfold fillSendSide
  rw [run_bind_of_ok hbuf, run_bind_of_ok hlen, run_bind_of_ok (vmGetPhysMapping_user hp hsend)]
  rfl

/-- … and `recv` fills in its own. -/
theorem fillRecvSide_user (hp : Paging K dirs n m) (hm : UserBytes K m.mem m.cr3 msg 36 fm)
    (hrecv : UserBuffer K m.mem m.cr3 (packetVia m.mem fm).recvBuf i f) :
    fillRecvSide q msg m = .ok ({ q with
      recvBuf := (packetVia m.mem fm).recvBuf, recvLen := (packetVia m.mem fm).recvLen
      physRecvBuf := f 0 }, m) := by
  have hbuf : load32 (recvBufField msg) m = .ok ((packetVia m.mem fm).recvBuf, m) :=
    load32_user (j := 12) hm (by omega)
  have hlen : load32 (recvLenField msg) m = .ok ((packetVia m.mem fm).recvLen, m) :=
    load32_user (j := 20) hm (by omega)
  unfold fillRecvSide
  rw [run_bind_of_ok hbuf, run_bind_of_ok hlen, run_bind_of_ok (vmGetPhysMapping_user hp hrecv)]
  rfl

/-- A field of the caller's packet, read while a window is open. -/
theorem Window.field {W p v len : BitVec 32} {m₁ : Machine Unit}
    (hw : Window K dirs n W p v len m m₁) (hm : UserBytes K m.mem m.cr3 msg 36 fm)
    (hj : k + 4 ≤ 36) :
    load32 (msg + BitVec.ofNat 32 k) m₁ = .ok (wordVia m.mem fm k, m₁) := by
  rw [load32_user (hw.bytes _ _ _ hm) hj,
    wordVia_congr (fun i hi => hw.user _ (hm.user i hi)) hj]

/-- The copy through a window at `W` onto the buffer of a packet: `copy_to_receiver` and the
    copy of a response do the same at two places. -/
theorem copyThrough_user {W : BitVec 32} {x : Code Trap (Machine Unit) Unit}
    (hx : x = (do
      mapPages q.physRecvBuf W 0#32 q.recvLen
      let sendBuf ← load32 (sendBufField msg)
      memcpy (W + pageOffset q.recvBuf) sendBuf q.recvLen.toNat
      unmapPages W q.recvLen))
    (hp : Paging K dirs (n + pagesOf q.recvLen) m) (hfree : FreeWindow dirs m.mem W q.recvLen)
    (hm : UserBytes K m.mem m.cr3 msg 36 fm)
    (hsrc : UserBytes K m.mem m.cr3 (packetVia m.mem fm).sendBuf q.recvLen.toNat g)
    (hoff : pageOffset q.recvBuf = pageOffset q.physRecvBuf)
    (hfit : ∀ i < q.recvLen.toNat, (pageOffset q.physRecvBuf).toNat + i < 4096 * pagesOf q.recvLen)
    (huser : ∀ i < q.recvLen.toNat, palignDown (physBytes q.physRecvBuf i) ∉ K)
    (hdisj : ∀ i < q.recvLen.toNat, ∀ j < q.recvLen.toNat, physBytes q.physRecvBuf i ≠ g j) :
    ∃ m', x m = .ok ((), m') ∧
      Effect K dirs n (bytesOf (physBytes q.physRecvBuf) q.recvLen.toNat) m m' ∧
      ∀ i < q.recvLen.toNat, m'.mem (physBytes q.physRecvBuf i) = m.mem (g i) := by
  have hW : palignDown W = W := palignDown_of_aligned hfree.1
  obtain ⟨m₁, hopen, hw⟩ := mapPages_window (p := q.physRecvBuf) hp hfree hW hW
  have hload : load32 (sendBufField msg) m₁ = .ok ((packetVia m.mem fm).sendBuf, m₁) :=
    hw.field (k := 8) hm (by omega)
  obtain ⟨m₂, m', hcopy, hclose, heff, hcopied⟩ := hw.copyIn hfit (by omega) huser hsrc hdisj
  refine ⟨m', ?_, heff, hcopied⟩
  rw [hx, run_bind_of_ok hopen, run_bind_of_ok hload, hoff, run_bind_of_ok hcopy]
  exact hclose

/-- **A sender copies into the buffer of a waiting receiver.** -/
theorem copyToReceiver_user (hp : Paging K dirs (n + pagesOf q.recvLen) m)
    (hfree : FreeWindow dirs m.mem recvBufWindow q.recvLen)
    (hm : UserBytes K m.mem m.cr3 msg 36 fm)
    (hsrc : UserBytes K m.mem m.cr3 (packetVia m.mem fm).sendBuf q.recvLen.toNat g)
    (hoff : pageOffset q.recvBuf = pageOffset q.physRecvBuf)
    (hfit : ∀ i < q.recvLen.toNat, (pageOffset q.physRecvBuf).toNat + i < 4096 * pagesOf q.recvLen)
    (huser : ∀ i < q.recvLen.toNat, palignDown (physBytes q.physRecvBuf i) ∉ K)
    (hdisj : ∀ i < q.recvLen.toNat, ∀ j < q.recvLen.toNat, physBytes q.physRecvBuf i ≠ g j) :
    ∃ m', copyToReceiver q msg m = .ok ((), m') ∧
      Effect K dirs n (bytesOf (physBytes q.physRecvBuf) q.recvLen.toNat) m m' ∧
      ∀ i < q.recvLen.toNat, m'.mem (physBytes q.physRecvBuf i) = m.mem (g i) :=
  copyThrough_user rfl hp hfree hm hsrc hoff hfit huser hdisj

/-- **A receiver copies its response into the buffer of the sender.** -/
theorem copyResponse_user (hp : Paging K dirs (n + pagesOf q.recvLen) m)
    (hfree : FreeWindow dirs m.mem replyWindow q.recvLen)
    (hm : UserBytes K m.mem m.cr3 msg 36 fm)
    (hsrc : UserBytes K m.mem m.cr3 (packetVia m.mem fm).sendBuf q.recvLen.toNat g)
    (hoff : pageOffset q.recvBuf = pageOffset q.physRecvBuf)
    (hfit : ∀ i < q.recvLen.toNat, (pageOffset q.physRecvBuf).toNat + i < 4096 * pagesOf q.recvLen)
    (huser : ∀ i < q.recvLen.toNat, palignDown (physBytes q.physRecvBuf i) ∉ K)
    (hdisj : ∀ i < q.recvLen.toNat, ∀ j < q.recvLen.toNat, physBytes q.physRecvBuf i ≠ g j) :
    ∃ m', copyResponse q msg m = .ok ((), m') ∧
      Effect K dirs n (bytesOf (physBytes q.physRecvBuf) q.recvLen.toNat) m m' ∧
      ∀ i < q.recvLen.toNat, m'.mem (physBytes q.physRecvBuf i) = m.mem (g i) :=
  copyThrough_user rfl hp hfree hm hsrc hoff hfit huser hdisj

/-- **A sender writes its pid into the packet of a waiting receiver.** -/
theorem reportSender_user (pid : BitVec 32) (hp : Paging K dirs (n + 1) m)
    (hfree : FreeWindow dirs m.mem msgWindow msgPacketSize)
    (hfit : (pageOffset q.physMsgPacket).toNat + 4 ≤ 4096)
    (huser : ∀ i < 4, palignDown (physBytes q.physMsgPacket i) ∉ K) :
    ∃ m', reportSender q pid m = .ok ((), m') ∧
      Effect K dirs n (bytesOf (physBytes q.physMsgPacket) 4) m m' ∧
      wordVia m'.mem (physBytes q.physMsgPacket) 0 = pid := by
  have hW : palignDown (msgWindow + pageOffset q.physMsgPacket) = msgWindow :=
    palignDown_frame_add (by decide)
  obtain ⟨m₁, hopen, hw⟩ := mapPages_window (p := q.physMsgPacket) hp hfree hW hW
  have hinj := physBytes_inj (p := q.physMsgPacket) (k := 4) (by omega)
  have hin : ∀ i < 4, (pageOffset q.physMsgPacket).toNat + i < 4096 * pagesOf msgPacketSize := by
    have : pagesOf msgPacketSize = 1 := by decide
    omega
  obtain ⟨mem, hstore, hword, hother⟩ :=
    store32_user (x := pid) ⟨hw.buffer (k := 4) hin, huser⟩ hinj
  obtain ⟨m', hclose, hcr3, hp', hsame, hm'⟩ := hw.close mem fun x hx => hother x fun i hi h =>
    huser i hi (h ▸ hx)
  refine ⟨m', ?_, ⟨hcr3, hp', hsame, fun x hK hx => ?_⟩, ?_⟩
  · unfold reportSender
    rw [run_bind_of_ok hopen, run_bind_of_ok hstore]
    exact hclose
  · rw [hm' x hK, hother x fun i hi h => hx ⟨i, hi, h⟩, hw.user x hK]
  · rw [← hword]
    exact wordVia_congr (k := 4) (fun i hi => hm' _ (huser i hi)) (by omega)

/-- **A receiver copies out of the buffer of a sender.** -/
theorem copyFromSender_user {L : Nat} (hp : Paging K dirs (n + pagesOf q.sendLen) m)
    (hfree : FreeWindow dirs m.mem msgWindow q.sendLen) (hm : UserBuffer K m.mem m.cr3 msg 36 fm)
    (hL : L = (packetVia m.mem fm).recvLen.toNat)
    (hdst : UserBuffer K m.mem m.cr3 (packetVia m.mem fm).recvBuf L f)
    (hoff : pageOffset q.sendBuf = pageOffset q.physSendBuf)
    (hfit : ∀ i < L, (pageOffset q.physSendBuf).toNat + i < 4096 * pagesOf q.sendLen)
    (huser : ∀ i < L, palignDown (physBytes q.physSendBuf i) ∉ K)
    (hdisj : ∀ i < L, ∀ j < L, f i ≠ physBytes q.physSendBuf j)
    (hpkt : ∀ i < L, ∀ j < 4, f i ≠ fm j) :
    ∃ m', copyFromSender q msg m = .ok ((), m') ∧
      Effect K dirs n (bytesOf f L ∪ bytesOf fm 4) m m' ∧
      (∀ i < L, m'.mem (f i) = m.mem (physBytes q.physSendBuf i)) ∧
      wordVia m'.mem fm 0 = q.sender := by
  have hW : palignDown msgWindow = msgWindow := by decide
  have hWoff : palignDown (msgWindow + pageOffset q.physSendBuf) = msgWindow :=
    palignDown_frame_add hW
  obtain ⟨m₁, hopen, hw⟩ := mapPages_window (p := q.physSendBuf) hp hfree hW hWoff
  have hbuf : load32 (recvBufField msg) m₁ = .ok ((packetVia m.mem fm).recvBuf, m₁) :=
    hw.field (k := 12) hm.toBytes (by omega)
  have hlen : load32 (recvLenField msg) m₁ = .ok ((packetVia m.mem fm).recvLen, m₁) :=
    hw.field (k := 20) hm.toBytes (by omega)
  obtain ⟨m₂, m₃, hcopy, hclose, heff, hcopied⟩ :=
    hw.copyOut hfit huser hdst.toBytes hdst.inj hdisj
  -- the window is closed again, and the sender goes into the packet
  have hm₃ := (hm.same hp.spaces hp.current heff.spaces).le (k := 4) (by omega)
  rw [← heff.cr3] at hm₃
  obtain ⟨mem, hstore, hword, hother⟩ := store32_user hm₃.toBytes hm₃.inj q.sender
  have hagree : ∀ x, palignDown x ∈ K → mem x = m₃.mem x := fun x hx =>
    hother x fun i hi h => hm.toBytes.user i (by omega) (h ▸ hx)
  obtain ⟨hp', hsame⟩ := heff.paging.of_agree hagree
  have hlast : Effect K dirs n (bytesOf fm 4) m₃ { m₃ with mem := mem } :=
    ⟨rfl, hp', hsame, fun x _ hx => hother x fun i hi h => hx ⟨i, hi, h⟩⟩
  refine ⟨{ m₃ with mem := mem }, ?_, heff.trans hlast, fun i hi => ?_, hword⟩
  · unfold copyFromSender
    rw [hoff, run_bind_of_ok hopen, run_bind_of_ok hbuf, run_bind_of_ok hlen, ← hL,
      run_bind_of_ok hcopy, run_bind_of_ok hclose]
    exact hstore
  · rw [← hcopied i hi]
    exact hother _ fun j hj => hpkt i hi j hj

/-- A copy through a window that completes stays within it. -/
theorem copyThrough_fits {W : BitVec 32} {x : Code Trap (Machine Unit) Unit} {m' : Machine Unit}
    (hx : x = (do
      mapPages q.physRecvBuf W 0#32 q.recvLen
      let sendBuf ← load32 (sendBufField msg)
      memcpy (W + pageOffset q.recvBuf) sendBuf q.recvLen.toNat
      unmapPages W q.recvLen))
    (hp : Paging K dirs (n + pagesOf q.recvLen) m) (hfree : FreeWindow dirs m.mem W q.recvLen)
    (hg : GuardPage m.mem m.cr3 W q.recvLen) (hm : UserBytes K m.mem m.cr3 msg 36 fm)
    (hoff : pageOffset q.recvBuf = pageOffset q.physRecvBuf)
    (huser : ∀ i < q.recvLen.toNat, palignDown (physBytes q.physRecvBuf i) ∉ K)
    (h : x m = .ok ((), m')) :
    ∀ i < q.recvLen.toNat, (pageOffset q.physRecvBuf).toNat + i < 4096 * pagesOf q.recvLen := by
  have hW : palignDown W = W := palignDown_of_aligned hfree.1
  obtain ⟨m₁, hopen, hw⟩ := mapPages_window (p := q.physRecvBuf) hp hfree hW hW
  have hload : load32 (sendBufField msg) m₁ = .ok ((packetVia m.mem fm).sendBuf, m₁) :=
    hw.field (k := 8) hm (by omega)
  rw [hx, run_bind_of_ok hopen, run_bind_of_ok hload, hoff] at h
  obtain ⟨_, m₂, hcopy, -⟩ := bind_ok_iff.mp h
  exact hw.copyIn_fits hfree.1 hg le_rfl huser hcopy

/-- A receiver that completes has found the message within the window. -/
theorem copyFromSender_fits {L : Nat} {m' : Machine Unit}
    (hp : Paging K dirs (n + pagesOf q.sendLen) m)
    (hfree : FreeWindow dirs m.mem msgWindow q.sendLen)
    (hg : GuardPage m.mem m.cr3 msgWindow q.sendLen) (hm : UserBytes K m.mem m.cr3 msg 36 fm)
    (hL : L = (packetVia m.mem fm).recvLen.toNat) (hlen : L ≤ q.sendLen.toNat)
    (hdst : UserBytes K m.mem m.cr3 (packetVia m.mem fm).recvBuf L f)
    (hoff : pageOffset q.sendBuf = pageOffset q.physSendBuf)
    (h : copyFromSender q msg m = .ok ((), m')) :
    ∀ i < L, (pageOffset q.physSendBuf).toNat + i < 4096 * pagesOf q.sendLen := by
  have hW : palignDown msgWindow = msgWindow := by decide
  obtain ⟨m₁, hopen, hw⟩ := mapPages_window (p := q.physSendBuf) hp hfree hW hW
  have hbuf : load32 (recvBufField msg) m₁ = .ok ((packetVia m.mem fm).recvBuf, m₁) :=
    hw.field (k := 12) hm (by omega)
  have hlen' : load32 (recvLenField msg) m₁ = .ok ((packetVia m.mem fm).recvLen, m₁) :=
    hw.field (k := 20) hm (by omega)
  unfold copyFromSender at h
  rw [hoff, run_bind_of_ok hopen, run_bind_of_ok hbuf, run_bind_of_ok hlen', ← hL] at h
  obtain ⟨_, m₂, hcopy, -⟩ := bind_ok_iff.mp h
  exact hw.copyOut_fits hfree.1 hg hlen hdst hcopy

end Calls

end Leoman
