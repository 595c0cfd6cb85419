import Leoman.Ipc
import Leoman.Transfer

namespace Leoman

open ByteMem StateExcept Runs

/-!
# The data copies of IPC

A call copies data at most once: a send into the buffer of a waiting receiver and a reply into
that of the sender, both through a window onto the physical address in the packet, and a `recv`
straight to `recv_buf`.

* `userWalk` — the walk of user code, which needs `PTE_U` in both entries;
* `memcpyWrites` — the physical bytes a copy writes until it ends or faults;
* `memcpyWrites_iff` — where these stay in a set of frames;
* `DataCopy`, `IpcOp.copy` — the data copy of a call, `copy_made` — the call comes to it.
-/

/-! ### Memory of user code -/

/-- The walk of user code: it fails unless both entries are present and for user mode. -/
def userWalk (mem : Mem) (cr3 vaddr : BitVec 32) : Option (BitVec 32) :=
  if pdeOf mem cr3 vaddr &&& pteU = 0#32 ∨ pteOf mem cr3 vaddr &&& pteU = 0#32 then none
  else walk mem cr3 vaddr

/-- The frames that the address space `cr3` maps for user code at the `len` bytes from `buf` on. -/
def userFrames (mem : Mem) (cr3 buf len : BitVec 32) : Set (BitVec 32) :=
  {f | ∃ i < len.toNat, userWalk mem cr3 (buf + BitVec.ofNat 32 i) = some f}

/-- What user code can reach the kernel can reach too. -/
theorem walk_of_userWalk {mem : Mem} {cr3 v f : BitVec 32} (h : userWalk mem cr3 v = some f) :
    walk mem cr3 v = some f := by
  unfold userWalk at h
  split at h
  · exact absurd h (by simp)
  · exact h

/-! ### The bytes a copy writes -/

section Writes

variable {τ : Type} [Tlb τ]

/-- The physical bytes `memcpy` writes, in order, until it ends or faults. -/
def memcpyWrites (dst src : BitVec 32) : Nat → Machine τ → List (BitVec 32)
  | 0, _ => []
  | n + 1, m =>
    match load8 src m with
    | .error _ => []
    | .ok (b, m₁) =>
      match translate dst m₁ with
      | .error _ => []
      | .ok (pa, m₂) =>
        pa :: memcpyWrites (dst + 1#32) (src + 1#32) n { m₂ with mem := write8 m₂.mem pa b }

/-- Accesses change nothing but the TLB. -/
theorem translate_mem {v pa : BitVec 32} {m m' : Machine τ} (h : translate v m = .ok (pa, m')) :
    m'.mem = m.mem := by
  unfold translate at h
  split at h
  · obtain ⟨-, rfl⟩ := Prod.mk.inj (Except.ok.inj h)
    rfl
  · split at h
    · exact absurd h (by simp)
    · obtain ⟨-, rfl⟩ := Prod.mk.inj (Except.ok.inj h)
      rfl

/-- A load changes no memory. -/
theorem load8_mem {v : BitVec 32} {b : BitVec 8} {m m' : Machine τ} (h : load8 v m = .ok (b, m')) :
    m'.mem = m.mem := by
  obtain ⟨_, m₀, h₀, hget⟩ := bind_ok_iff.mp h
  obtain ⟨-, rfl⟩ := Prod.mk.inj (Except.ok.inj hget)
  exact translate_mem h₀

/-- **`memcpy` changes no other byte.** -/
theorem memcpy_frame {dst src y : BitVec 32} {n : Nat} {m m' : Machine τ}
    (h : memcpy dst src n m = .ok ((), m')) (hy : y ∉ memcpyWrites dst src n m) :
    m'.mem y = m.mem y := by
  induction n generalizing dst src m with
  | zero =>
    obtain ⟨-, rfl⟩ := Prod.mk.inj (Except.ok.inj h)
    rfl
  | succ n ih =>
    obtain ⟨b, m₁, hload, h⟩ := bind_ok_iff.mp h
    obtain ⟨⟨⟩, m₂, hstore, h⟩ := bind_ok_iff.mp h
    obtain ⟨pa, m₃, hpa, hput⟩ := bind_ok_iff.mp hstore
    obtain ⟨-, rfl⟩ := Prod.mk.inj (Except.ok.inj hput)
    rw [memcpyWrites, hload] at hy
    simp only [hpa, List.mem_cons, not_or] at hy
    rw [ih h hy.2, ← load8_mem hload, ← translate_mem hpa]
    exact Function.update_of_ne hy.1 _ _

end Writes

section Exact

variable {K dirs S : Set (BitVec 32)} {m : Machine Unit} {v dst src : BitVec 32} {n : Nat}

/-- Byte `i` of the range at `v` is mapped. -/
def MappedAt (m : Machine Unit) (v : BitVec 32) (i : Nat) : Prop :=
  walk m.mem m.cr3 (v + BitVec.ofNat 32 i) ≠ none

/-- Mapped from its first byte on. -/
theorem mappedAt_zero : MappedAt m v 0 ↔ walk m.mem m.cr3 v ≠ none := by
  rw [MappedAt, show BitVec.ofNat 32 0 = 0#32 from rfl, BitVec.add_zero]

/-- The copy reaches byte `i`: the source is mapped up to it, and the destination before it. -/
def Reaches (m : Machine Unit) (dst src : BitVec 32) (i : Nat) : Prop :=
  (∀ j ≤ i, MappedAt m src j) ∧ ∀ j < i, MappedAt m dst j

/-- After the first byte of a copy that leaves the walks alone. -/
theorem reaches_succ {m' : Machine Unit} {i : Nat} (hsrc : MappedAt m src 0)
    (hdst : MappedAt m dst 0)
    (hwalk : ∀ u, walk m'.mem m'.cr3 u = walk m.mem m.cr3 u) :
    Reaches m' (dst + 1#32) (src + 1#32) i ↔ Reaches m dst src (i + 1) := by
  have hshift : ∀ u j, MappedAt m' (u + 1#32) j ↔ MappedAt m u (j + 1) := fun u j => by
    rw [MappedAt, hwalk, add_one_add_ofNat, MappedAt]
  constructor
  · rintro ⟨hs, hd⟩
    refine ⟨fun j hj => ?_, fun j hj => ?_⟩
    · cases j with
      | zero => exact hsrc
      | succ j => exact (hshift src j).mp (hs j (by omega))
    · cases j with
      | zero => exact hdst
      | succ j => exact (hshift dst j).mp (hd j (by omega))
  · rintro ⟨hs, hd⟩
    exact ⟨fun j hj => (hshift src j).mpr (hs (j + 1) (by omega)),
      fun j hj => (hshift dst j).mpr (hd (j + 1) (by omega))⟩

/-- What is asked of the bytes after the first. -/
theorem reached_succ {m' : Machine Unit} {f : BitVec 32} (hsrc : MappedAt m src 0)
    (hdst : walk m.mem m.cr3 dst = some f) (hf : f ∈ S)
    (hwalk : ∀ u, walk m'.mem m'.cr3 u = walk m.mem m.cr3 u) :
    (∀ i < n, Reaches m' (dst + 1#32) (src + 1#32) i →
        ∀ f, walk m'.mem m'.cr3 (dst + 1#32 + BitVec.ofNat 32 i) = some f → f ∈ S) ↔
      ∀ i < n + 1, Reaches m dst src i →
        ∀ f, walk m.mem m.cr3 (dst + BitVec.ofNat 32 i) = some f → f ∈ S := by
  have hdst₀ : MappedAt m dst 0 := mappedAt_zero.mpr (by simp [hdst])
  simp only [hwalk, add_one_add_ofNat, reaches_succ hsrc hdst₀ hwalk]
  constructor
  · intro hrest i hi hr f' hf'
    cases i with
    | zero =>
      rw [show BitVec.ofNat 32 0 = 0#32 from rfl, BitVec.add_zero, hdst] at hf'
      exact Option.some.inj hf' ▸ hf
    | succ i => exact hrest i (by omega) hr f' hf'
  · exact fun h i hi hr f' hf' => h (i + 1) (by omega) hr f' hf'

/-- A copy that faults on its first load, … -/
theorem memcpyWrites_of_src (hsrc : walk m.mem m.cr3 src = none) :
    memcpyWrites dst src n m = [] := by
  cases n with
  | zero => rfl
  | succ n =>
    rw [memcpyWrites, load8, run_bind_of_error (translate_fault (coherent_unit _ _ _) hsrc)]

/-- … one that faults on its first store, … -/
theorem memcpyWrites_of_dst {g : BitVec 32} (hsrc : walk m.mem m.cr3 src = some g)
    (hdst : walk m.mem m.cr3 dst = none) : memcpyWrites dst src n m = [] := by
  cases n with
  | zero => rfl
  | succ n =>
    have hload : translate src m = .ok (g + pageOffset src, m) :=
      translate_unit (by rw [hwTranslate, hsrc]; rfl)
    rw [memcpyWrites, load8, run_bind_of_ok hload]
    simp only [run_bind_of_ok (run_get m), run_pure, translate_fault (coherent_unit _ _ _) hdst]

/-- … and one that writes its first byte. -/
theorem memcpyWrites_succ {f g : BitVec 32} (hsrc : walk m.mem m.cr3 src = some g)
    (hdst : walk m.mem m.cr3 dst = some f) :
    ∃ m' : Machine Unit, memcpyWrites dst src (n + 1) m
        = (f + pageOffset dst) :: memcpyWrites (dst + 1#32) (src + 1#32) n m' ∧
      (∀ x, x ≠ f + pageOffset dst → m'.mem x = m.mem x) ∧ m'.cr3 = m.cr3 := by
  have hload : load8 src m = .ok (m.mem (g + pageOffset src), m) :=
    run_bind_of_ok (translate_unit (by rw [hwTranslate, hsrc]; rfl))
  have hstore : translate dst m = .ok (f + pageOffset dst, m) :=
    translate_unit (by rw [hwTranslate, hdst]; rfl)
  refine ⟨{ m with mem := write8 m.mem (f + pageOffset dst) (m.mem (g + pageOffset src)) }, ?_,
    fun x hx => Function.update_of_ne hx _ _, rfl⟩
  rw [memcpyWrites, hload]
  simp only [hstore]

/-- **Where a copy stays in `S`.**  It does if and only if every byte it reaches is mapped there.
    What it writes before it leaves `S` is in no table, so until then the walks stay what they
    are. -/
theorem memcpyWrites_iff (hs : Spaces K dirs m.mem) (hcur : m.cr3 ∈ dirs) (hS : ∀ f ∈ S, f ∉ K) :
    (∀ y ∈ memcpyWrites dst src n m, palignDown y ∈ S) ↔
      ∀ i < n, Reaches m dst src i →
        ∀ f, walk m.mem m.cr3 (dst + BitVec.ofNat 32 i) = some f → f ∈ S := by
  induction n generalizing m dst src with
  | zero => exact iff_of_true (fun y hy => absurd hy (by simp [memcpyWrites])) fun i hi => by omega
  | succ n ih =>
    cases hsrc : walk m.mem m.cr3 src with
    | none =>
      -- byte 0 is not reached
      rw [memcpyWrites_of_src hsrc]
      refine iff_of_true (fun y hy => absurd hy (by simp)) fun i _ hr => ?_
      exact absurd hsrc (mappedAt_zero.mp (hr.1 0 (Nat.zero_le i)))
    | some g =>
    cases hdst : walk m.mem m.cr3 dst with
    | none =>
      -- only byte 0 is reached
      rw [memcpyWrites_of_dst hsrc hdst]
      refine iff_of_true (fun y hy => absurd hy (by simp)) fun i _ hr f hf => ?_
      cases i with
      | zero =>
        rw [show BitVec.ofNat 32 0 = 0#32 from rfl, BitVec.add_zero, hdst] at hf
        exact absurd hf (by simp)
      | succ i => exact absurd hdst (mappedAt_zero.mp (hr.2 0 (by omega)))
    | some f =>
    have hsrc₀ : MappedAt m src 0 := mappedAt_zero.mpr (by simp [hsrc])
    have hframe : palignDown (f + pageOffset dst) = f := by
      obtain ⟨-, -, hf⟩ := walk_eq_some_iff.mp hdst
      exact palignDown_frame_add (by rw [← hf, palignDown_palignDown])
    obtain ⟨m', hcons, hmem, hcr3⟩ := memcpyWrites_succ (n := n) hsrc hdst
    by_cases hf : f ∈ S
    · -- the byte is in no table, and the rest is a copy from a machine with the same walks
      have hagree : ∀ x, palignDown x ∈ K → m'.mem x = m.mem x := by
        intro x hx
        refine hmem x ?_
        rintro rfl
        exact hS f hf (hframe ▸ hx)
      have hwalk : ∀ u, walk m'.mem m'.cr3 u = walk m.mem m.cr3 u := by
        rw [hcr3]
        exact hs.walk_agree hagree hcur
      rw [hcons, List.forall_mem_cons, hframe, ih (hs.of_agree hagree) (hcr3 ▸ hcur),
        reached_succ hsrc₀ hdst hf hwalk]
      exact and_iff_right hf
    · -- byte 0 is reached, and outside
      refine iff_of_false (fun h => hf ?_) fun h => hf ?_
      · have := h (f + pageOffset dst) (by rw [hcons]; exact List.mem_cons_self)
        rwa [hframe] at this
      · refine h 0 (by omega) ⟨fun j hj => ?_, fun j hj => absurd hj (by omega)⟩ f ?_
        · rwa [Nat.le_zero.mp hj]
        · rw [show BitVec.ofNat 32 0 = 0#32 from rfl, BitVec.add_zero]
          exact hdst

end Exact

/-! ### The data copy of a call -/

/-- How a copy gets to the buffer it is for. -/
inductive Way where
  | window
  | direct
deriving DecidableEq, Repr

/-- A data copy, about to be made on `mach`: the process whose buffer it is for, the buffer, what
    is mapped at `window` for it, and where the data is. -/
structure DataCopy (τ : Type) where
  giver : Slot
  recvBuf : BitVec 32
  recvLen : BitVec 32
  way : Way
  window : BitVec 32
  phys : BitVec 32
  span : BitVec 32
  src : BitVec 32
  mach : Machine τ

/-- The process a packet in the queue of `s` is from.  A placeholder is the owner's. -/
def MsgPacketQueue.giver (n : MsgPacketQueue) (s : Slot) : Slot :=
  match n.origin with
  | none => s
  | some o => o.src

section Copy

variable {τ : Type} [Tlb τ]

/-- What `memcpy` is called with as its destination. -/
def DataCopy.dst (d : DataCopy τ) : BitVec 32 :=
  match d.way with
  | .window => d.window + pageOffset d.recvBuf
  | .direct => d.recvBuf

/-- The physical bytes the copy writes. -/
def DataCopy.writes (d : DataCopy τ) : List (BitVec 32) :=
  memcpyWrites d.dst d.src d.recvLen.toNat d.mach

/-- `copyToReceiver` and `copyResponse`, up to `memcpy`. -/
def openBuffer (W : BitVec 32) (n : MsgPacket) (msg : BitVec 32) :
    Code Trap (Machine τ) (BitVec 32) := do
  mapPages n.physRecvBuf W 0#32 n.recvLen
  load32 (sendBufField msg)

/-- `copyFromSender`, up to `memcpy`. -/
def openMessage (n : MsgPacket) (msg : BitVec 32) :
    Code Trap (Machine τ) (BitVec 32 × BitVec 32) := do
  mapPages n.physSendBuf msgWindow 0#32 n.sendLen
  let recvBuf ← load32 (recvBufField msg)
  let recvLen ← load32 (recvLenField msg)
  return (recvBuf, recvLen)

/-- The copies open a buffer, copy through the window and close it: `send`, … -/
theorem copyToReceiver_eq (n : MsgPacket) (msg : BitVec 32) :
    copyToReceiver (τ := τ) n msg = (do
      let sendBuf ← openBuffer recvBufWindow n msg
      memcpy (recvBufWindow + pageOffset n.recvBuf) sendBuf n.recvLen.toNat
      unmapPages recvBufWindow n.recvLen) := by
  simp only [copyToReceiver, openBuffer, bind_assoc]

/-- … `reply` … -/
theorem copyResponse_eq (n : MsgPacket) (msg : BitVec 32) :
    copyResponse (τ := τ) n msg = (do
      let sendBuf ← openBuffer replyWindow n msg
      memcpy (replyWindow + pageOffset n.recvBuf) sendBuf n.recvLen.toNat
      unmapPages replyWindow n.recvLen) := by
  simp only [copyResponse, openBuffer, bind_assoc]

/-- … and `recv`, which then reports the sender. -/
theorem copyFromSender_eq (n : MsgPacket) (msg : BitVec 32) :
    copyFromSender (τ := τ) n msg = (do
      let buf ← openMessage n msg
      memcpy buf.1 (msgWindow + pageOffset n.sendBuf) buf.2.toNat
      unmapPages (msgWindow + pageOffset n.sendBuf) n.sendLen
      store32 msg n.sender) := by
  simp only [copyFromSender, openMessage, bind_assoc, pure_bind]

/-- A copy through a window onto the buffer of a packet. -/
def DataCopy.through (giver : Slot) (W : BitVec 32) (n : MsgPacket) (src : BitVec 32)
    (mach : Machine τ) : DataCopy τ where
  giver := giver
  recvBuf := n.recvBuf
  recvLen := n.recvLen
  way := .window
  window := W
  phys := n.physRecvBuf
  span := n.recvLen
  src := src
  mach := mach

/-- The data copy of a send: to a process that waits in `recv`. -/
def sendCopy (k : Kernel τ) (msg : BitVec 32) : Option (DataCopy τ) := do
  let c ← k.currentProc
  let (receiver, m) ← (load32 (receiverField msg) k.mach).toOption
  let r ← k.procFindByPid receiver
  if (k.procs r).state = .recvBlocked then
    let n ← (k.procs r).recvQueue.msgs.head?
    let (filled, m) ← (fillSendSide n.msg (k.procs c).pid msg m).toOption
    let (sendBuf, m) ← (openBuffer recvBufWindow filled msg m).toOption
    return .through (n.giver r) recvBufWindow filled sendBuf m
  else none

/-- The data copy of a `recv`: of the first packet. -/
def recvCopy (k : Kernel τ) (msg : BitVec 32) : Option (DataCopy τ) := do
  let c ← k.currentProc
  let n ← (k.procs c).recvQueue.msgs.head?
  let (buf, m) ← (openMessage n.msg msg k.mach).toOption
  return { giver := c, recvBuf := buf.1, recvLen := buf.2, way := .direct, window := msgWindow
           phys := n.msg.physSendBuf, span := n.msg.sendLen
           src := msgWindow + pageOffset n.msg.sendBuf, mach := m }

/-- The data copy of a reply: to the process the first packet is from. -/
def replyCopy (k : Kernel τ) (msg : BitVec 32) : Option (DataCopy τ) := do
  let c ← k.currentProc
  let n ← (k.procs c).recvQueue.msgs.head?
  let (sendBuf, m) ← (openBuffer replyWindow n.msg msg k.mach).toOption
  return .through (n.giver c) replyWindow n.msg sendBuf m

/-- The data copy of an event, if it comes to one. -/
def IpcOp.copy (k : Kernel τ) : IpcOp τ → Option (DataCopy τ)
  | .send msg _ => sendCopy k msg
  | .recv msg _ => recvCopy k msg
  | .reply msg _ => replyCopy k msg
  | .tick _ | .other _ _ => none

/-! ### The calls make these copies -/

/-- `x` makes the copy `d`: from `k` it runs as `memcpy` from the machine of `d`, and something
    after it. -/
def Makes {α : Type} (x : Code Trap (Kernel τ) α) (k : Kernel τ) (d : DataCopy τ) : Prop :=
  ∃ (k₁ : Kernel τ) (rest : Unit → Code Trap (Kernel τ) α), k₁.mach = d.mach ∧
    x k = (onMach (memcpy d.dst d.src d.recvLen.toNat) >>= rest) k₁

variable {α β : Type} {x : Code Trap (Kernel τ) α} {k k₁ : Kernel τ} {d : DataCopy τ} {c r : Slot}
  {msg : BitVec 32}

/-- A copy in the first part of a piece of code, … -/
theorem Makes.bind (h : Makes x k d) (f : α → Code Trap (Kernel τ) β) : Makes (x >>= f) k d := by
  obtain ⟨k₁, rest, hmach, hrun⟩ := h
  refine ⟨k₁, fun b => rest b >>= f, hmach, ?_⟩
  rw [← bind_assoc]
  show Except.bind (x k) _ = Except.bind ((_ >>= rest) k₁) _
  rw [hrun]

/-- … and one in what follows. -/
theorem Makes.after {f : α → Code Trap (Kernel τ) β} {a : α} (hx : x k = .ok (a, k₁))
    (h : Makes (f a) k₁ d) : Makes (x >>= f) k d := by
  obtain ⟨k₂, rest, hmach, hrun⟩ := h
  exact ⟨k₂, rest, hmach, by rw [run_bind_of_ok hx, hrun]⟩

omit [Tlb τ] in
/-- Machine code in sequence. -/
theorem onMach_bind (y : Code Trap (Machine τ) α) (f : α → Code Trap (Machine τ) β) :
    onMach (y >>= f) = onMach y >>= fun a => onMach (f a) :=
  @zoom_bind _ _ _ _ _ Kernel.mach (fun k m => { k with mach := m }) (fun _ _ => rfl)
    (fun _ _ _ => rfl) y f

omit [Tlb τ] in
/-- The current process. -/
theorem currentSlot_runs (hc : k.currentProc = some c) : currentSlot k = .ok (c, k) := by
  unfold currentSlot
  rw [run_bind_of_ok (run_get k)]
  simp only [hc]
  rfl

/-- Code on the machine that begins with the copy `d`, but for `y` before it. -/
theorem makes_of_open {y : Code Trap (Machine τ) β} {m : Machine τ} {b : β}
    {dst src : β → BitVec 32} {len : β → Nat} {rest : β → Code Trap (Machine τ) Unit}
    (hopen : y k.mach = .ok (b, m)) (hmach : d.mach = m) (hdst : dst b = d.dst)
    (hsrc : src b = d.src) (hlen : len b = d.recvLen.toNat) :
    Makes (onMach do
      let a ← y
      memcpy (dst a) (src a) (len a)
      rest a) k d := by
  rw [onMach_bind]
  refine Makes.after (zoom_ok hopen) ?_
  rw [onMach_bind, hdst, hsrc, hlen]
  exact ⟨{ k with mach := m }, _, hmach.symm, rfl⟩

/-- A result is one that did not trap. -/
theorem ok_of_toOption {ε : Type} {y : Except ε α} {a : α} (h : y.toOption = some a) :
    y = .ok a := by
  cases y with
  | error e => exact absurd h (by simp [Except.toOption])
  | ok b => exact congrArg _ (Option.some.inj h)

omit [Tlb τ] in
/-- The store of a state keeps queues and pids. -/
theorem updState_keeps (k : Kernel τ) (c s : Slot) (st : ProcState) :
    ((k.updProc c fun p => { p with state := st }).procs s).recvQueue = (k.procs s).recvQueue ∧
      ((k.updProc c fun p => { p with state := st }).procs s).pid = (k.procs s).pid := by
  by_cases hs : s = c
  · subst hs
    simp [Kernel.updProc]
  · simp [Kernel.updProc, Function.update_of_ne hs]

/-- A send to a waiting process copies into the buffer of the first packet. -/
theorem fillPlaceholder_makes {n : MsgPacketQueue} {q : List MsgPacketQueue} {filled : MsgPacket}
    {src : BitVec 32} {m₁ m₂ : Machine τ} (g : Slot) (hq : (k.procs r).recvQueue.msgs = n :: q)
    (hfill : fillSendSide n.msg (k.procs c).pid msg k.mach = .ok (filled, m₁))
    (hopen : openBuffer recvBufWindow filled msg m₁ = .ok (src, m₂)) :
    Makes (fillPlaceholder c r msg) k (.through g recvBufWindow filled src m₂) := by
  -- when the queue is read, the state of the caller is all that has changed
  have hprocs := fun s => updState_keeps k c s .sendBlocked
  unfold fillPlaceholder
  refine Makes.after (run_modify _ _) (Makes.after (run_get _) ?_)
  simp only [(hprocs r).1, hq]
  refine Makes.after (zoom_ok (t := m₁) (a := filled) ?_) ?_
  · simp only [(hprocs c).2]
    exact hfill
  refine Makes.after (run_modify _ _) (Makes.after (run_modify _ _) (Makes.bind ?_ _))
  rw [copyToReceiver_eq]
  exact makes_of_open hopen rfl rfl rfl rfl

/-- `send` makes the copy it is said to make. -/
theorem sendCopy_made (h : sendCopy k msg = some d) (frame : BitVec 32) :
    Makes (syscallSendMsg msg frame) k d := by
  simp only [sendCopy, Option.bind_eq_bind, Option.bind_eq_some_iff] at h
  obtain ⟨c, hc, ⟨receiver, m⟩, hload, r, hr, h⟩ := h
  split at h
  · rename_i hst
    simp only [Option.bind_eq_some_iff, Option.pure_def] at h
    obtain ⟨n, hn, ⟨filled, m₁⟩, hfill, ⟨src, m₂⟩, hopen, hd⟩ := h
    obtain rfl := Option.some.inj hd
    obtain ⟨q, hq⟩ := List.head?_eq_some_iff.mp hn
    have hmakes := fillPlaceholder_makes (n.giver r)
      (k := { k with schedulingEnabled := false, mach := m }) hq (ok_of_toOption hfill)
      (ok_of_toOption hopen)
    refine Makes.after (run_modify _ _) (Makes.after (currentSlot_runs hc) ?_)
    refine Makes.after (zoom_ok (ok_of_toOption hload)) (Makes.after (run_get _) ?_)
    have hr' : ({ k with schedulingEnabled := false, mach := m } : Kernel τ).procFindByPid receiver
      = some r := hr
    simp only [hr']
    refine Makes.bind (Makes.after (run_get _) ?_) _
    simp only [hst]
    refine Makes.after (a := ()) ?_ hmakes
    rw [onlyIf, if_neg (not_not.mpr hst)]
    rfl
  · exact absurd h (by simp)

/-- So does `recv`. -/
theorem recvCopy_made (h : recvCopy k msg = some d) (frame : BitVec 32) :
    Makes (syscallRecvMsg msg frame) k d := by
  simp only [recvCopy, Option.bind_eq_bind, Option.bind_eq_some_iff, Option.pure_def] at h
  obtain ⟨c, hc, n, hn, ⟨⟨buf, len⟩, m⟩, hopen, hd⟩ := h
  obtain rfl := Option.some.inj hd
  obtain ⟨q, hq⟩ := List.head?_eq_some_iff.mp hn
  have hopen := ok_of_toOption hopen
  refine Makes.after (run_modify _ _) (Makes.after (currentSlot_runs hc) (Makes.bind ?_ _))
  refine Makes.after (run_get _) ?_
  simp only [hq]
  refine Makes.bind ?_ _
  rw [copyFromSender_eq]
  exact makes_of_open hopen rfl rfl rfl rfl

/-- And `reply`. -/
theorem replyCopy_made (h : replyCopy k msg = some d) (frame : BitVec 32) :
    Makes (syscallRplyMsg msg frame) k d := by
  simp only [replyCopy, Option.bind_eq_bind, Option.bind_eq_some_iff, Option.pure_def] at h
  obtain ⟨c, hc, n, hn, ⟨src, m⟩, hopen, hd⟩ := h
  obtain rfl := Option.some.inj hd
  obtain ⟨q, hq⟩ := List.head?_eq_some_iff.mp hn
  have hopen := ok_of_toOption hopen
  refine Makes.after (run_modify _ _) (Makes.after (currentSlot_runs hc) (Makes.bind ?_ _))
  refine Makes.after (run_get _) ?_
  simp only [hq]
  refine Makes.after (run_get _) (Makes.bind ?_ _)
  rw [copyResponse_eq]
  exact makes_of_open hopen rfl rfl rfl rfl

/-- **A call makes its data copy.** -/
theorem copy_made {op : IpcOp τ} (h : op.copy k = some d) : Makes op.exec k d := by
  cases op with
  | send msg frame => exact sendCopy_made h frame
  | recv msg frame => exact recvCopy_made h frame
  | reply msg frame => exact replyCopy_made h frame
  | tick frame => exact absurd h (by simp [IpcOp.copy])
  | other mach scheduling => exact absurd h (by simp [IpcOp.copy])

end Copy

end Leoman
