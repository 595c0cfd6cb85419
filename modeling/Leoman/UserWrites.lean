import Leoman.DataCopy
import Leoman.EitherOrder
import Leoman.FailedSend

namespace Leoman

open ByteMem StateExcept Runs

/-!
# IPC writes and user memory

None of the three copies looks at the bits of the page tables that say whose the memory is.  A
`recv` writes wherever the kernel may; a window shows the frames behind the one that
`vm_get_phys_mapping` read out of an entry, present or not, when the buffer was given.

* `DataCopy.InBuffer`, `DataCopy.Aimed` — the bytes written are user memory of the buffer, and the
  condition for it on page tables and packet;
* `writes_stay_in_buffer` — the one holds exactly when the other does;
* `packets_given` — in every run a packet has its physical address from `vm_get_phys_mapping`, in a
  call of the process it is from;
* `aimed_of_page`, `WindowReady.aimed_direct` — buffers for which the condition holds.
-/

/-! ### Where a data copy goes -/

namespace DataCopy

/-- The frame of byte `i` behind `phys`, at the offset of `recv_buf`. -/
def behind (d : DataCopy Unit) (i : Nat) : BitVec 32 :=
  palignDown (palignDown d.phys + pageOffset d.recvBuf + BitVec.ofNat 32 i)

/-- The buffer, as user memory of the process that gave it. -/
def userFrames (d : DataCopy Unit) (k : Kernel Unit) : Set (BitVec 32) :=
  Leoman.userFrames k.mach.mem (k.procs d.giver).pdir d.recvBuf d.recvLen

/-- All bytes written are in the buffer, in frames its process may use. -/
def InBuffer (d : DataCopy Unit) (k : Kernel Unit) : Prop :=
  ∀ y ∈ d.writes, palignDown y ∈ d.userFrames k

/-- The copy is aimed at `S`.  Through a window it is where the frames from that of `phys` on
    are in `S`, as far as pages were mapped for `recv_len` alone; otherwise where the pages of
    `recv_buf` up to the first that is not mapped are.  Bytes behind a fault of the source do not
    count.  What is mapped is read off the page tables of the copy: those before the call with the
    pages of the window added. -/
def Aimed (d : DataCopy Unit) (S : Set (BitVec 32)) : Prop :=
  ∀ i < d.recvLen.toNat, (∀ j ≤ i, MappedAt d.mach d.src j) →
    match d.way with
    | .window => (pageOffset d.recvBuf).toNat + i < 4096 * pagesOf d.recvLen → d.behind i ∈ S
    | .direct => (∀ j < i, MappedAt d.mach d.recvBuf j) →
        ∀ f, walk d.mach.mem d.mach.cr3 (d.recvBuf + BitVec.ofNat 32 i) = some f → f ∈ S

end DataCopy

/-- The window of a copy can be opened: its pages and the next are not mapped, `pm_alloc` has
    cleared frames for its tables, and no table is user memory of the buffer. -/
structure WindowReady (K dirs : Set (BitVec 32)) (k : Kernel Unit) (d : DataCopy Unit) : Prop where
  paging : Paging K dirs (0 + pagesOf d.span) k.mach
  free : FreeWindow dirs k.mach.mem d.window d.span
  guard : GuardPage k.mach.mem k.mach.cr3 d.window d.span
  apart : ∀ f ∈ d.userFrames k, f ∉ K

section Unit

variable {K dirs S : Set (BitVec 32)} {k : Kernel Unit} {d : DataCopy Unit} {m m' : Machine Unit}
  {v x msg : BitVec 32} {op : IpcOp Unit}

/-- Without a TLB loads change nothing. -/
theorem load32_same (h : load32 v m = .ok (x, m')) : m' = m := by
  obtain ⟨_, m₀, h₀, h⟩ := bind_ok_iff.mp h
  obtain ⟨_, m₁, h₁, h⟩ := bind_ok_iff.mp h
  obtain ⟨_, m₂, h₂, h⟩ := bind_ok_iff.mp h
  obtain ⟨_, m₃, h₃, h⟩ := bind_ok_iff.mp h
  obtain ⟨-, rfl⟩ := Prod.mk.inj (Except.ok.inj h)
  rw [(walk_of_translate h₃).1, (walk_of_translate h₂).1, (walk_of_translate h₁).1,
    (walk_of_translate h₀).1]

theorem vmGetPhysMapping_same (h : vmGetPhysMapping v m = .ok (x, m')) : m' = m := by
  obtain ⟨_, m₁, hload, h⟩ := bind_ok_iff.mp h
  obtain ⟨-, rfl⟩ := Prod.mk.inj (Except.ok.inj h)
  exact load32_same hload

/-- A sender that fills in a placeholder leaves the buffer of the receiver alone. -/
theorem fillSendSide_same {n q : MsgPacket} {pid : BitVec 32}
    (h : fillSendSide n pid msg m = .ok (q, m')) :
    m' = m ∧ q.recvBuf = n.recvBuf ∧ q.recvLen = n.recvLen ∧ q.physRecvBuf = n.physRecvBuf := by
  obtain ⟨_, m₁, h₁, h⟩ := bind_ok_iff.mp h
  obtain ⟨_, m₂, h₂, h⟩ := bind_ok_iff.mp h
  obtain ⟨_, m₃, h₃, h⟩ := bind_ok_iff.mp h
  obtain ⟨rfl, rfl⟩ := Prod.mk.inj (Except.ok.inj h)
  refine ⟨?_, rfl, rfl, rfl⟩
  rw [vmGetPhysMapping_same h₃, load32_same h₂, load32_same h₁]

theorem openBuffer_opens {W : BitVec 32} {n : MsgPacket} (h : openBuffer W n msg m = .ok (x, m')) :
    mapPages n.physRecvBuf W 0#32 n.recvLen m = .ok ((), m') := by
  obtain ⟨⟨⟩, m₁, hmap, hload⟩ := bind_ok_iff.mp h
  rw [load32_same hload]
  exact hmap

/-- The copy `d` is for the buffer of the packet `n` in the queue of `s`. -/
structure DataCopy.For (d : DataCopy Unit) (s : Slot) (n : MsgPacketQueue) : Prop where
  giver : d.giver = n.giver s
  recvBuf : d.recvBuf = n.msg.recvBuf
  recvLen : d.recvLen = n.msg.recvLen
  phys : d.phys = n.msg.physRecvBuf

/-- **The window of a data copy**, and the packet it is for if it shows the destination. -/
theorem copy_opened (h : op.copy k = some d) :
    mapPages d.phys d.window 0#32 d.span k.mach = .ok ((), d.mach) ∧
      (d.way = .window → d.span = d.recvLen ∧ ∃ s, ∃ n ∈ k.board.queue s, d.For s n) := by
  cases op with
  | send msg frame =>
    simp only [IpcOp.copy, sendCopy, Option.bind_eq_bind, Option.bind_eq_some_iff] at h
    obtain ⟨c, -, ⟨receiver, m⟩, hload, r, -, h⟩ := h
    split at h
    · simp only [Option.bind_eq_some_iff, Option.pure_def] at h
      obtain ⟨n, hn, ⟨filled, m₁⟩, hfill, ⟨src, m₂⟩, hopen, hd⟩ := h
      obtain rfl := Option.some.inj hd
      obtain ⟨rfl, hbuf, hlen, hphys⟩ := fillSendSide_same (ok_of_toOption hfill)
      obtain rfl := load32_same (ok_of_toOption hload)
      exact ⟨openBuffer_opens (ok_of_toOption hopen), fun _ => ⟨rfl, r, n, List.mem_of_mem_head? hn,
        rfl, hbuf, hlen, hphys⟩⟩
    · exact absurd h (by simp)
  | recv msg frame =>
    simp only [IpcOp.copy, recvCopy, Option.bind_eq_bind, Option.bind_eq_some_iff,
      Option.pure_def] at h
    obtain ⟨c, -, n, -, ⟨⟨buf, len⟩, m⟩, hopen, hd⟩ := h
    obtain rfl := Option.some.inj hd
    obtain ⟨⟨⟩, m₁, hmap, hrest⟩ := bind_ok_iff.mp (ok_of_toOption hopen)
    obtain ⟨_, m₂, h₂, hrest⟩ := bind_ok_iff.mp hrest
    obtain ⟨_, m₃, h₃, hrest⟩ := bind_ok_iff.mp hrest
    obtain ⟨-, rfl⟩ := Prod.mk.inj (Except.ok.inj hrest)
    obtain rfl := (load32_same h₃).trans (load32_same h₂)
    exact ⟨hmap, fun hw => absurd hw (by simp)⟩
  | reply msg frame =>
    simp only [IpcOp.copy, replyCopy, Option.bind_eq_bind, Option.bind_eq_some_iff,
      Option.pure_def] at h
    obtain ⟨c, -, n, hn, ⟨src, m⟩, hopen, hd⟩ := h
    obtain rfl := Option.some.inj hd
    exact ⟨openBuffer_opens (ok_of_toOption hopen), fun _ => ⟨rfl, c, n, List.mem_of_mem_head? hn,
      rfl, rfl, rfl, rfl⟩⟩
  | tick frame => exact absurd h (by simp [IpcOp.copy])
  | other mach scheduling => exact absurd h (by simp [IpcOp.copy])

/-- The window is open when the copy starts. -/
theorem WindowReady.opened (hr : WindowReady K dirs k d) (h : op.copy k = some d) :
    Window K dirs 0 d.window d.phys d.window d.span k.mach d.mach := by
  have hW : palignDown d.window = d.window := palignDown_of_aligned hr.free.1
  obtain ⟨m₁, hrun, hw⟩ := mapPages_window (p := d.phys) hr.paging hr.free hW hW
  obtain ⟨-, rfl⟩ := Prod.mk.inj (Except.ok.inj (hrun.symm.trans (copy_opened h).1))
  exact hw

/-- Where a copy through the window goes: as far as the window does, behind `phys`. -/
theorem WindowReady.aimed_window (hr : WindowReady K dirs k d) (h : op.copy k = some d)
    (hway : d.way = .window) :
    (∀ i < d.recvLen.toNat, Reaches d.mach d.dst d.src i →
      ∀ f, walk d.mach.mem d.mach.cr3 (d.dst + BitVec.ofNat 32 i) = some f → f ∈ S) ↔
    d.Aimed S := by
  have hspan := ((copy_opened h).2 hway).1
  have hw := hr.opened h
  have hguard := hr.guard
  rw [hspan] at hw hguard
  have hdst : d.dst = d.window + pageOffset d.recvBuf := by rw [DataCopy.dst, hway]
  simp only [DataCopy.Aimed, hway, hdst, DataCopy.behind]
  refine forall₂_congr fun i hi => ⟨fun hall hsrc hin => ?_, fun hall hreach f hf => ?_⟩
  · -- within the window every byte before is mapped, too
    refine hall ⟨hsrc, fun j hj => ?_⟩ _ (hw.frame hin)
    rw [MappedAt, hw.frame (by omega)]
    simp
  · by_cases hin : (pageOffset d.recvBuf).toNat + i < 4096 * pagesOf d.recvLen
    · rw [hw.frame hin] at hf
      exact Option.some.inj hf ▸ hall hreach.1 hin
    · -- the copy does not get past the page after the window
      obtain ⟨j, hj, -, hnone⟩ := hw.runs_out hr.free.1 hguard (by omega)
        (pageOffset_lt d.recvBuf) (not_lt.mp hin)
      rcases Nat.lt_or_eq_of_le hj with hlt | rfl
      · exact absurd hnone (hreach.2 j hlt)
      · rw [hnone] at hf
        exact absurd hf (by simp)

/-- **IPC writes.**  Take any state of the kernel, with any page tables, in which the window of a
    data copy can be opened.  All bytes the copy writes, until it ends or faults, are in frames
    that the process whose buffer it is maps there for user code, if and only if the copy is aimed
    at these frames. -/
theorem writes_stay_in_buffer (h : op.copy k = some d) (hr : WindowReady K dirs k d) :
    d.InBuffer k ↔ d.Aimed (d.userFrames k) := by
  have hw := hr.opened h
  have hexact := @memcpyWrites_iff K dirs (d.userFrames k) d.mach d.dst d.src d.recvLen.toNat
    hw.paging.spaces hw.paging.current hr.apart
  cases hway : d.way with
  | window => exact hexact.trans (hr.aimed_window h hway)
  | direct =>
    have hdst : d.dst = d.recvBuf := by rw [DataCopy.dst, hway]
    rw [DataCopy.InBuffer, DataCopy.writes, hexact, hdst]
    simp only [DataCopy.Aimed, hway, Reaches, and_imp]

/-! ### Buffers within a page -/

/-- The physical address in a packet is what `vm_get_phys_mapping` answers for its buffer. -/
def MsgPacket.Located (n : MsgPacket) (m : Machine Unit) : Prop :=
  vmGetPhysMapping n.recvBuf m = .ok (n.physRecvBuf, m)

/-- So it is in the packet a send queues, … -/
theorem sentPacket_located {n : MsgPacket} {pid : BitVec 32}
    (h : sentPacket pid msg m = .ok (n, m')) : n.Located m' := by
  obtain ⟨q, m₁, -, h⟩ := bind_ok_iff.mp h
  obtain ⟨_, m₂, -, h⟩ := bind_ok_iff.mp h
  obtain ⟨p, m₃, hget, h⟩ := bind_ok_iff.mp h
  obtain ⟨rfl, rfl⟩ := Prod.mk.inj (Except.ok.inj h)
  obtain rfl := vmGetPhysMapping_same hget
  exact hget

/-- … in the placeholder of a `recv`, … -/
theorem waitingPacket_located {n : MsgPacket} (h : waitingPacket msg m = .ok (n, m')) :
    n.Located m' := by
  obtain ⟨q, m₁, -, h⟩ := bind_ok_iff.mp h
  obtain ⟨p, m₂, hget, h⟩ := bind_ok_iff.mp h
  obtain ⟨_, m₃, hget', h⟩ := bind_ok_iff.mp h
  obtain ⟨rfl, rfl⟩ := Prod.mk.inj (Except.ok.inj h)
  obtain rfl := vmGetPhysMapping_same hget'
  obtain rfl := vmGetPhysMapping_same hget
  exact hget

/-- … and in a placeholder that has been filled. -/
theorem fillRecvSide_located {n q : MsgPacket} (h : fillRecvSide q msg m = .ok (n, m')) :
    n.Located m' := by
  obtain ⟨_, m₁, -, h⟩ := bind_ok_iff.mp h
  obtain ⟨_, m₂, -, h⟩ := bind_ok_iff.mp h
  obtain ⟨p, m₃, hget, h⟩ := bind_ok_iff.mp h
  obtain ⟨rfl, rfl⟩ := Prod.mk.inj (Except.ok.inj h)
  obtain rfl := vmGetPhysMapping_same hget
  exact hget

/-- **A buffer within a page.**  Where the page is mapped for user code, with the two bits clear
    that `vm_get_phys_mapping` does not mask, and the packet says what `vm_get_phys_mapping`
    answers, a copy through a window is aimed at it. -/
theorem aimed_of_page {f : BitVec 32} (hway : d.way = .window)
    (hphys : d.phys = (pteOf k.mach.mem (k.procs d.giver).pdir d.recvBuf &&& ~~~0x3ff#32)
      + pageOffset d.recvBuf)
    (hclean : pteOf k.mach.mem (k.procs d.giver).pdir d.recvBuf &&& 0xc00#32 = 0#32)
    (huser : userWalk k.mach.mem (k.procs d.giver).pdir d.recvBuf = some f)
    (hpage : (pageOffset d.recvBuf).toNat + d.recvLen.toNat ≤ 4096) :
    d.Aimed (d.userFrames k) := by
  obtain ⟨-, -, hf⟩ := walk_eq_some_iff.mp (walk_of_userWalk huser)
  have hal : palignDown f = f := by rw [← hf, palignDown_palignDown]
  have hfirst : palignDown d.phys = f := by
    rw [hphys, and_not_3ff hclean, hf]
    exact palignDown_frame_add hal
  simp only [DataCopy.Aimed, hway]
  intro i hi _ _
  refine ⟨0, by omega, ?_⟩
  rw [show BitVec.ofNat 32 0 = 0#32 from rfl, BitVec.add_zero, huser, Option.some.injEq,
    DataCopy.behind, hfirst, BitVec.add_assoc]
  -- the byte is on the page of the first one
  obtain ⟨-, hoff⟩ := page_add (v := d.recvBuf) (i := i) (by omega)
  rw [← hoff]
  exact (palignDown_frame_add hal).symm

/-- **A buffer of the caller.**  Where every byte is mapped for user code, a copy straight to it is
    aimed at it: the window the message is read through is elsewhere. -/
theorem WindowReady.aimed_direct (hr : WindowReady K dirs k d) (h : op.copy k = some d)
    (hway : d.way = .direct) (hdir : (k.procs d.giver).pdir = k.mach.cr3)
    (huser : ∀ i < d.recvLen.toNat,
      userWalk k.mach.mem k.mach.cr3 (d.recvBuf + BitVec.ofNat 32 i) ≠ none) :
    d.Aimed (d.userFrames k) := by
  have hw := hr.opened h
  simp only [DataCopy.Aimed, hway]
  intro i hi _ _ f' hf'
  obtain ⟨f, hf⟩ := Option.ne_none_iff_exists'.mp (huser i hi)
  have hmem : f ∈ d.userFrames k := ⟨i, hi, by rw [hdir]; exact hf⟩
  have hwalk := walk_of_userWalk hf
  have hal : palignDown f = f := by
    obtain ⟨-, -, hpte⟩ := walk_eq_some_iff.mp hwalk
    rw [← hpte, palignDown_palignDown]
  have hregion := hr.paging.spaces.region_of_user hr.paging.current
    (show hwTranslate k.mach.mem k.mach.cr3 _ = some _ by rw [hwTranslate, hwalk]; rfl)
    (by rw [palignDown_frame_add hal]; exact hr.apart f hmem)
  rw [hw.outside _ hregion fun hin => ?_, hwalk] at hf'
  · exact Option.some.inj hf' ▸ hmem
  · -- the pages of the window were not mapped
    have hnone := hr.free.2.2 _ hr.paging.current _ hin
    rw [walk_palignDown, hwalk] at hnone
    exact absurd hnone (by simp)

end Unit

/-! ### Code that leaves memory alone -/

section Silent

variable {τ : Type} [Tlb τ] {k k' : Kernel τ} {frame : BitVec 32}

/-- Scheduling changes neither queues nor memory. -/
theorem schedule_silent {ret : BitVec 32} (h : procScheduleAfterIrq frame k = .ok (ret, k')) :
    k'.board.queue = k.board.queue ∧ k'.mach.mem = k.mach.mem := by
  rcases procScheduleAfterIrq_cases h with ⟨-, -, rfl⟩ | ⟨-, d, next, -, hsw⟩
  · exact ⟨rfl, rfl⟩
  · obtain ⟨t, -, hprocs⟩ := hsw.procs
    refine ⟨funext fun s => ?_, ?_⟩
    · show (k'.procs s).recvQueue.msgs = (k.procs s).recvQueue.msgs
      rw [hprocs, Kernel.suspend_recvQueue]
    · by_cases hnext : next = d
      · rw [(hsw.stay hnext).2.1]
      · rw [(hsw.away hnext).2.2]

theorem callEnd_silent
    (h : (do procEnableScheduling; procScheduleWithoutIrq frame : Code Trap (Kernel τ) Unit) k
      = .ok ((), k')) : k'.board.queue = k.board.queue ∧ k'.mach.mem = k.mach.mem := by
  obtain ⟨_, k₁, h₁, h⟩ := bind_ok_iff.mp h
  obtain ⟨-, rfl⟩ := Prod.mk.inj (Except.ok.inj h₁)
  obtain ⟨_, k₂, h₂, h⟩ := bind_ok_iff.mp h
  obtain ⟨-, rfl⟩ := Prod.mk.inj (Except.ok.inj h)
  have hsilent := schedule_silent h₂
  exact ⟨hsilent.1, hsilent.2⟩

end Silent

/-! ### Whose address a packet has -/

section Given

variable {k k' : Kernel Unit} {m m' : Machine Unit} {c r s : Slot} {msg frame : BitVec 32}
  {op : IpcOp Unit} {n : MsgPacketQueue}

/-- The physical address in a packet is the answer of `vm_get_phys_mapping` in the address space
    `cr3`. -/
def MsgPacket.LocatedIn (n : MsgPacket) (mem : Mem) (cr3 : BitVec 32) : Prop :=
  ∃ m : Machine Unit, m.mem = mem ∧ m.cr3 = cr3 ∧ n.Located m

/-- From `k` to `k'` the only packets that came into queues are from `c`, located in its address
    space. -/
def NewFrom (c : Slot) (k k' : Kernel Unit) : Prop :=
  ∀ s n, n ∈ k'.board.queue s → n ∈ k.board.queue s ∨
    n.giver s = c ∧ n.msg.LocatedIn k'.mach.mem k.mach.cr3

theorem NewFrom.of_queue (h : k'.board.queue = k.board.queue) : NewFrom c k k' := fun _ _ hn =>
  Or.inl (h ▸ hn)

/-- What is silent about queues, the memory and the address space. -/
theorem NewFrom.congr {k₁ k₂ : Kernel Unit} (h : NewFrom c k₁ k₂)
    (hq : k₁.board.queue = k.board.queue) (hcr3 : k₁.mach.cr3 = k.mach.cr3)
    (hq' : k'.board.queue = k₂.board.queue) (hmem : k'.mach.mem = k₂.mach.mem) :
    NewFrom c k k' := by
  intro s n hn
  rw [hq'] at hn
  rw [hmem, ← hcr3, ← hq]
  exact h s n hn

/-- A packet that `STAILQ_INSERT_TAIL` links from the head; what it stores where the head was never
    initialised is not linked. -/
theorem insertTail_newFrom (hgiver : n.giver s = c) (hloc : n.msg.Located k.mach)
    (h : insertTail s n k = .ok ((), k')) : NewFrom c k k' := by
  have hboard := insertTail_refines h
  rcases insertTail_ok h with ⟨hin, rfl⟩ | ⟨hin, -⟩
  · intro t p hp
    by_cases ht : t = s
    · subst ht
      simp only [Kernel.updProc, Kernel.board, Function.update_self, List.mem_append,
        List.mem_singleton] at hp
      rcases hp with hp | rfl
      · exact Or.inl hp
      · exact Or.inr ⟨hgiver, k.mach, rfl, rfl, hloc⟩
    · simp only [Kernel.updProc, Kernel.board, Function.update_of_ne ht] at hp
      exact Or.inl hp
  · refine NewFrom.of_queue ?_
    rw [hboard, Board.push, if_neg (Bool.eq_false_iff.mp (show k.board.inited s = false from hin))]
    funext t
    by_cases ht : t = s
    · subst ht
      simp
    · simp [ht]

/-- A send to a process that does not wait. -/
theorem queuePacket_newFrom (h : queuePacket c r msg k = .ok ((), k')) : NewFrom c k k' := by
  obtain ⟨addr, heap, packet, m, k₁, -, -, hm, hins, rfl⟩ := queuePacket_ok h
  have hnew := insertTail_newFrom (k := { k with heap := heap, mach := m }) (c := c) rfl
    (sentPacket_located hm) hins
  exact hnew.congr rfl (sentPacket_cr3 _ _ _ _ _ hm) rfl rfl

/-- A send to a process that waits: the packet becomes the sender's when its buffer is known. -/
theorem fillPlaceholder_newFrom (h : fillPlaceholder c r msg k = .ok ((), k')) :
    NewFrom c k k' := by
  have hcr3 : k'.mach.cr3 = k.mach.cr3 :=
    congrArg Placement.cr3 (fillPlaceholder_placement c r msg _ _ _ h)
  obtain ⟨n, rest, filled, m₁, m₂, m₃, full, hn, -, -, -, hrecv, hboard⟩ := fillPlaceholder_ok h
  -- nothing but the head of one queue has changed
  have hqueue : k'.board.queue = Function.update k.board.queue r
      ({ n with msg := full, origin := some (k.board.origin c) } :: rest) := by
    rw [hboard]
    rfl
  have hloc : full.LocatedIn k'.mach.mem k.mach.cr3 :=
    ⟨k'.mach, rfl, hcr3, fillRecvSide_located hrecv⟩
  intro t p hp
  rw [hqueue] at hp
  by_cases ht : t = r
  · subst ht
    rw [Function.update_self, List.mem_cons] at hp
    rcases hp with rfl | hp
    · exact Or.inr ⟨rfl, hloc⟩
    · exact Or.inl (hn ▸ List.mem_cons_of_mem _ hp)
  · rw [Function.update_of_ne ht] at hp
    exact Or.inl hp

/-- A send. -/
theorem sendTo_newFrom (h : sendTo c r msg k = .ok ((), k')) : NewFrom c k k' := by
  rcases sendTo_ok h with ⟨-, hfill⟩ | ⟨-, k₁, hput, ⟨-, rfl⟩ | ⟨-, rfl⟩⟩
  · exact fillPlaceholder_newFrom hfill
  · have hqueue := congrArg Board.queue (board_setState (k := k₁) c .replyBlocked)
    exact (queuePacket_newFrom hput).congr rfl rfl hqueue rfl
  · exact queuePacket_newFrom hput

/-- A `recv` that waits queues its own placeholder; any other leaves the queues alone. -/
theorem receive_newFrom (h : receive c msg k = .ok ((), k')) : NewFrom c k k' := by
  rcases receive_ok h with ⟨-, addr, heap, packet, m, -, -, hm, hins⟩ | ⟨n, rest, m, -, -, rfl⟩
  · have hnew := insertTail_newFrom (c := c) rfl (waitingPacket_located hm) hins
    have hqueue := congrArg Board.queue (board_setState (k := k) c .recvBlocked)
    exact hnew.congr hqueue (waitingPacket_cr3 _ _ _ _ hm) rfl rfl
  · exact NewFrom.of_queue rfl

/-- A reply takes a packet out. -/
theorem reply_newFrom (h : reply c msg k = .ok ((), k')) : NewFrom c k k' := by
  have hans := reply_refines h
  intro s n hn
  left
  generalize k'.board = b at hans hn
  cases hans with
  | nothing _ => exact hn
  | @first p rest hq =>
    by_cases hs : s = c
    · subst hs
      rw [hq]
      have : n ∈ rest := by simpa using hn
      exact List.mem_cons_of_mem _ this
    · simpa [hs] using hn

/-- **Step lemma.**  Packets come into queues from the caller only, located in its address
    space. -/
theorem IpcStep.newFrom (h : IpcStep k op k') :
    k'.board.queue = k.board.queue ∨ ∃ c, k.currentProc = some c ∧ NewFrom c k k' := by
  obtain ⟨hcall, h⟩ := h
  cases op with
  | send msg frame =>
    obtain ⟨c, pid, m, hc, hm, -, ⟨-, rfl⟩ | ⟨r, k₁, -, hsend, hend⟩⟩ := syscallSendMsg_ok h
    · exact Or.inl rfl
    · obtain rfl := load32_same hm
      obtain ⟨hq, hmem⟩ := callEnd_silent hend
      exact Or.inr ⟨c, hc, (sendTo_newFrom hsend).congr rfl rfl hq hmem⟩
  | recv msg frame =>
    obtain ⟨c, k₁, hc, hrun, hend⟩ := syscallRecvMsg_ok h
    obtain ⟨hq, hmem⟩ := callEnd_silent hend
    exact Or.inr ⟨c, hc, (receive_newFrom hrun).congr rfl rfl hq hmem⟩
  | reply msg frame =>
    obtain ⟨c, k₁, hc, hrun, hend⟩ := syscallRplyMsg_ok h
    obtain ⟨hq, hmem⟩ := callEnd_silent hend
    exact Or.inr ⟨c, hc, (reply_newFrom hrun).congr rfl rfl hq hmem⟩
  | tick frame =>
    obtain ⟨_, k₁, h₁, h⟩ := bind_ok_iff.mp h
    obtain ⟨-, rfl⟩ := Prod.mk.inj (Except.ok.inj h)
    exact Or.inl (schedule_silent h₁).1
  | other mach scheduling => exact Or.inl (congrArg Board.queue (other_refines h))

/-- The last event of `tr` or an earlier one was the call of `c` in which the packet got where it
    is. -/
def GivenIn (k₀ : Kernel Unit) (tr : List (IpcOp Unit)) (s : Slot) (n : MsgPacketQueue) : Prop :=
  ∃ tr₁ op tr₂ k₁ k₂, tr = tr₁ ++ op :: tr₂ ∧ Run IpcStep k₀ tr₁ k₁ ∧ IpcStep k₁ op k₂ ∧
    k₁.currentProc = some (n.giver s) ∧ n.msg.LocatedIn k₂.mach.mem k₁.mach.cr3

/-- **Whose address a packet has.**  In every run from boot each packet in a queue came there, or
    got its buffer, in a call of the process it is from, and its physical address is what
    `vm_get_phys_mapping` answers in the address space and the memory of that call. -/
theorem packets_given {b : Nat} {k₀ : Kernel Unit} {tr : List (IpcOp Unit)} (hb : Booted b k₀)
    (hrun : Run IpcStep k₀ tr k) : ∀ s, ∀ n ∈ k.board.queue s, GivenIn k₀ tr s n := by
  induction hrun with
  | start =>
    intro s n hn
    rw [hb.queue s] at hn
    exact absurd hn (by simp)
  | @next tr k₁ k₂ op hrun hstep ih =>
    intro s n hn
    have hold : n ∈ k₁.board.queue s → GivenIn k₀ (tr ++ [op]) s n := by
      intro hmem
      obtain ⟨tr₁, op', tr₂, m₁, m₂, rfl, hrest⟩ := ih s n hmem
      exact ⟨tr₁, op', tr₂ ++ [op], m₁, m₂, by simp, hrest⟩
    rcases hstep.newFrom with hq | ⟨c, hc, hnew⟩
    · rw [hq] at hn
      exact hold hn
    · rcases hnew s n hn with hmem | ⟨rfl, hloc⟩
      · exact hold hmem
      · exact ⟨tr, op, [], k₁, k₂, rfl, hrun, hstep, hc, hloc⟩

/-- A copy through a window goes to the address its process had for the buffer when it gave it. -/
theorem copy_given {b : Nat} {k₀ : Kernel Unit} {tr : List (IpcOp Unit)} {d : DataCopy Unit}
    (hb : Booted b k₀) (hrun : Run IpcStep k₀ tr k) (h : op.copy k = some d)
    (hway : d.way = .window) :
    ∃ tr₁ op₁ tr₂ k₁ k₂, tr = tr₁ ++ op₁ :: tr₂ ∧ Run IpcStep k₀ tr₁ k₁ ∧ IpcStep k₁ op₁ k₂ ∧
      k₁.currentProc = some d.giver ∧ ∃ m : Machine Unit, m.mem = k₂.mach.mem ∧
        m.cr3 = k₁.mach.cr3 ∧ vmGetPhysMapping d.recvBuf m = .ok (d.phys, m) := by
  obtain ⟨-, s, n, hn, hfor⟩ := (copy_opened h).2 hway
  obtain ⟨tr₁, op₁, tr₂, k₁, k₂, htr, hrun₁, hstep, hcur, m, hmem, hcr3, hloc⟩ :=
    packets_given hb hrun s n hn
  refine ⟨tr₁, op₁, tr₂, k₁, k₂, htr, hrun₁, hstep, ?_, m, hmem, hcr3, ?_⟩
  · rw [hfor.giver]
    exact hcur
  · rw [hfor.recvBuf, hfor.phys]
    exact hloc

end Given

/-! ### The small system -/

section Small

open Exchange

/-- The small system when the server, which runs, has taken the message of the client: what it
    gives as the response goes through a window to `0x5200`. -/
def servedKernel : Kernel Unit :=
  { exchangeKernel false with
    mach := { (exchangeKernel false).mach with cr3 := 0x2000#32 }
    currentProc := some (procAt 2)
    procs := fun s =>
      { (exchangeKernel false).procs s with
        privileged := decide (s.val < 2)
        state := if s.val = 2 then .running else if s.val = 3 then .replyBlocked else .ready
        recvQueue := ⟨decide (s.val < 4), if s.val = 2 then
          [⟨0x1000#32, ⟨3#32, 2#32, 0x5100#32, 0x5200#32, 2#32, 2#32, 0x5100#32, 0x5200#32,
            0x5000#32⟩,
            some ⟨0, procAt 3⟩⟩] else [], []⟩ } }

/-- The copy of the response, and the window it is made through. -/
theorem served_copy : ∃ d : DataCopy Unit, (IpcOp.reply 0x5040#32 0#32).copy servedKernel = some d ∧
    (d.giver = procAt 3 ∧ d.recvBuf = 0x5200#32 ∧ d.recvLen = 2#32 ∧ d.way = .window ∧
      d.phys = 0x5200#32) ∧
    WindowReady {F | F ∈ exchangeTables} {D | D ∈ exchangeDirs} servedKernel d := by
  have htest : ((IpcOp.reply 0x5040#32 0#32).copy servedKernel).map (fun d =>
      decide (d.giver = procAt 3 ∧ d.recvBuf = 0x5200#32 ∧ d.recvLen = 2#32 ∧ d.way = .window ∧
        d.window = replyWindow ∧ d.phys = 0x5200#32 ∧ d.span = 2#32)) = some true := by
    decide +kernel
  obtain ⟨d, hcopy, hd⟩ := Option.map_eq_some_iff.mp htest
  obtain ⟨hgiver, hbuf, hlen, hway, hwin, hphys, hspan⟩ := of_decide_eq_true hd
  refine ⟨d, hcopy, ⟨hgiver, hbuf, hlen, hway, hphys⟩,
    ⟨spaces_exchange (b := false), ?_, ?_⟩, ?_, ?_, ?_⟩
  · rw [hspan]
    exact (supply_exchange (b := false)).mono (by decide)
  · exact List.mem_cons_of_mem _ List.mem_cons_self
  · rw [hspan, hwin]
    refine freeWindow_of_page (by decide) (by decide) (by decide) fun E hE q hq => ?_
    rw [Set.mem_singleton_iff.mp hq]
    exact closed_exchange E hE replyWindow (by simp)
  · rw [hspan, hwin]
    exact ⟨by decide, by decide +kernel⟩
  · rintro f ⟨i, hi, hf⟩
    rw [hlen] at hi
    rw [hgiver, hbuf] at hf
    have hall : ∀ i < 2, userWalk servedKernel.mach.mem (servedKernel.procs (procAt 3)).pdir
        (0x5200#32 + BitVec.ofNat 32 i) = some 0x5000#32 := by
      decide +kernel
    rw [Option.some.inj (hf.symm.trans (hall i hi))]
    decide

/-- It is aimed at the buffer of the client. -/
theorem served_aimed {d : DataCopy Unit} (hd : d.giver = procAt 3 ∧ d.recvBuf = 0x5200#32 ∧
    d.recvLen = 2#32 ∧ d.way = .window ∧ d.phys = 0x5200#32) :
    d.Aimed (d.userFrames servedKernel) := by
  obtain ⟨hgiver, hbuf, hlen, hway, hphys⟩ := hd
  refine aimed_of_page (f := 0x5000#32) hway ?_ ?_ ?_ ?_ <;> rw [hbuf]
  · rw [hphys, hgiver]
    decide +kernel
  · rw [hgiver]
    decide +kernel
  · rw [hgiver]
    decide +kernel
  · rw [hlen]
    decide

/-- The response of two bytes is written to the buffer of the client. -/
theorem writes_stay_in_buffer_served : ∃ d : DataCopy Unit,
    (IpcOp.reply 0x5040#32 0#32).copy servedKernel = some d ∧ d.giver = procAt 3 ∧
      d.recvLen = 2#32 ∧ d.InBuffer servedKernel := by
  obtain ⟨d, hcopy, hd, hr⟩ := served_copy
  exact ⟨d, hcopy, hd.1, hd.2.2.1, (writes_stay_in_buffer hcopy hr).mpr (served_aimed hd)⟩

/-- The small system, with a server in user mode that asks for its message in its own page
    directory, which is mapped at `0xfffff000` for the kernel only. -/
def spyKernel : Kernel Unit :=
  { exchangeKernel false with
    mach := { (exchangeKernel false).mach with
      mem := writeAll (exchangeKernel false).mach.mem [(0x600c#32, 0xfffff004#32)] }
    procs := fun s => { (exchangeKernel false).procs s with privileged := decide (s.val < 2) } }

/-- **A message in the page directory.**  The client sends two bytes, the server receives them, and
    `recv` writes them to its directory. -/
theorem recv_writes_directory : ∃ (k : Kernel Unit) (d : DataCopy Unit),
    syscallSendMsg 0x5000#32 0#32 spyKernel = .ok ((), k) ∧
      (IpcOp.recv 0x5000#32 0#32).copy k = some d ∧ (k.procs d.giver).privileged = false ∧
      0x2004#32 ∈ d.writes ∧ ¬ d.InBuffer k := by
  have htest : (syscallSendMsg 0x5000#32 0#32 spyKernel).toOption.map (fun r =>
      (((IpcOp.recv 0x5000#32 0#32).copy r.2).map fun d =>
        decide ((r.2.procs d.giver).privileged = false ∧ 0x2004#32 ∈ d.writes ∧
          ∀ i < d.recvLen.toNat, userWalk r.2.mach.mem (r.2.procs d.giver).pdir
            (d.recvBuf + BitVec.ofNat 32 i) ≠ some 0x2000#32)) == some true) = some true := by
    decide +kernel
  obtain ⟨_, k, hsend, htests⟩ := ok_of_test htest
  obtain ⟨d, hcopy, hd⟩ := Option.map_eq_some_iff.mp (beq_iff_eq.mp htests)
  obtain ⟨hpriv, hmem, huser⟩ := of_decide_eq_true hd
  refine ⟨k, d, hsend, hcopy, hpriv, hmem, fun hin => ?_⟩
  obtain ⟨i, hi, hwalk⟩ := hin _ hmem
  exact huser i hi (hwalk.trans (by decide))

end Small

end Leoman
