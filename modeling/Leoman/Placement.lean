import Leoman.Syscall

namespace Leoman

open ByteMem StateExcept

/-!
# What the system calls leave in place

Saved frames, kernel stacks and page directories, who runs, `tss.esp0` and `cr3`: the bodies of
the system calls move none of them, only scheduling decisions do.

* `Placement` — those parts of the kernel;
* `load32_cr3` … `mapPages_cr3` — no access to memory and no edit of the page tables loads `cr3`;
* `sendTo_placement`, `receive_placement`, `reply_placement` — the bodies of the three calls.
-/

/-! ### Code that does not load `cr3` -/

section Cr3

variable {τ : Type}

/-- `pm_alloc` reads and writes its bitmap only. -/
theorem pmAllocPage_cr3 : Preserves Machine.cr3 (pmAllocPage (τ := τ)) := by
  intro m a m' h
  obtain ⟨-, rfl⟩ := Prod.mk.inj (Except.ok.inj h)
  rfl

variable [Tlb τ]

/-- The MMU fills the TLB; it does not load a directory. -/
theorem translate_cr3 (v : BitVec 32) : Preserves Machine.cr3 (translate (τ := τ) v) := by
  intro m a m' h
  unfold translate at h
  split at h
  · obtain ⟨-, rfl⟩ := Prod.mk.inj (Except.ok.inj h)
    rfl
  · split at h
    · exact absurd h (by simp)
    · obtain ⟨-, rfl⟩ := Prod.mk.inj (Except.ok.inj h)
      rfl

/-- Loads of a byte. -/
theorem load8_cr3 (v : BitVec 32) : Preserves Machine.cr3 (load8 (τ := τ) v) :=
  (translate_cr3 v).bind fun _ => Preserves.get.bind fun _ => .pure _

/-- Stores of a byte. -/
theorem store8_cr3 (v : BitVec 32) (b : BitVec 8) :
    Preserves Machine.cr3 (store8 (τ := τ) v b) :=
  (translate_cr3 v).bind fun _ => .modify fun _ => rfl

/-- Loads of a word. -/
theorem load32_cr3 (v : BitVec 32) : Preserves Machine.cr3 (load32 (τ := τ) v) :=
  (translate_cr3 _).bind fun _ => (translate_cr3 _).bind fun _ => (translate_cr3 _).bind fun _ =>
    (translate_cr3 _).bind fun _ => Preserves.get.bind fun _ => .pure _

/-- Stores of a word. -/
theorem store32_cr3 (v x : BitVec 32) : Preserves Machine.cr3 (store32 (τ := τ) v x) :=
  (translate_cr3 _).bind fun _ => (translate_cr3 _).bind fun _ => (translate_cr3 _).bind fun _ =>
    (translate_cr3 _).bind fun _ => .modify fun _ => rfl

/-- `memcpy`, by induction on the length. -/
theorem memcpy_cr3 (n : Nat) : ∀ dst src : BitVec 32,
    Preserves Machine.cr3 (memcpy (τ := τ) dst src n) := by
  induction n with
  | zero => exact fun _ _ => .pure ()
  | succ n ih =>
    intro dst src
    exact (load8_cr3 src).bind fun b => (store8_cr3 dst b).bind fun _ => ih _ _

/-- `map_page`, on all of its paths. -/
theorem mapPage_cr3 (paddr vaddr flags : BitVec 32) :
    Preserves Machine.cr3 (mapPage (τ := τ) paddr vaddr flags) := by
  unfold mapPage
  refine (load32_cr3 _).bind fun _ => .ite ?_ ?_
  · refine (load32_cr3 _).bind fun _ => .ite ?_ ?_
    · exact .ite (.trap _) (.ite (.trap _) (.pure ()))
    · exact (load32_cr3 _).bind fun _ => (store32_cr3 _ _).bind fun _ => store32_cr3 _ _
  · exact pmAllocPage_cr3.bind fun _ => (store32_cr3 _ _).bind fun _ =>
      Preserves.bind (.modify fun _ => rfl) fun _ => store32_cr3 _ _

/-- The loop of `map_pages`. -/
theorem mapPagesLoop_cr3 (flags : BitVec 32) (n : Nat) : ∀ paddr vaddr : BitVec 32,
    Preserves Machine.cr3 (mapPagesLoop (τ := τ) flags n paddr vaddr) := by
  induction n with
  | zero => exact fun _ _ => .pure ()
  | succ n ih => exact fun _ _ => (mapPage_cr3 _ _ _).bind fun _ => ih _ _

/-- `map_pages`. -/
theorem mapPages_cr3 (paddr vaddr flags sz : BitVec 32) :
    Preserves Machine.cr3 (mapPages (τ := τ) paddr vaddr flags sz) :=
  .ite (.pure ()) (mapPagesLoop_cr3 _ _ _ _)

/-- The loop of `unmap_pages`. -/
theorem unmapPagesLoop_cr3 (n : Nat) : ∀ vaddr : BitVec 32,
    Preserves Machine.cr3 (unmapPagesLoop (τ := τ) n vaddr) := by
  induction n with
  | zero => exact fun _ => .pure ()
  | succ n ih => exact fun _ => (store32_cr3 _ _).bind fun _ => ih _

/-- `unmap_pages`. -/
theorem unmapPages_cr3 (vaddr sz : BitVec 32) :
    Preserves Machine.cr3 (unmapPages (τ := τ) vaddr sz) :=
  .ite (.pure ()) (unmapPagesLoop_cr3 _ _)

/-- `vm_get_phys_mapping`. -/
theorem vmGetPhysMapping_cr3 (v : BitVec 32) :
    Preserves Machine.cr3 (vmGetPhysMapping (τ := τ) v) :=
  (load32_cr3 _).bind fun _ => .pure _

/-! ### The machine part of the calls -/

/-- A call reads its packet. -/
theorem loadPacket_cr3 (msg : BitVec 32) : Preserves Machine.cr3 (loadPacket (τ := τ) msg) :=
  (load32_cr3 _).bind fun _ => (load32_cr3 _).bind fun _ => (load32_cr3 _).bind fun _ =>
    (load32_cr3 _).bind fun _ => (load32_cr3 _).bind fun _ => (load32_cr3 _).bind fun _ =>
    (load32_cr3 _).bind fun _ => (load32_cr3 _).bind fun _ => (load32_cr3 _).bind fun _ => .pure _

/-- The packet that `send` queues. -/
theorem sentPacket_cr3 (pid msg : BitVec 32) :
    Preserves Machine.cr3 (sentPacket (τ := τ) pid msg) :=
  (loadPacket_cr3 _).bind fun _ => (vmGetPhysMapping_cr3 _).bind fun _ =>
    (vmGetPhysMapping_cr3 _).bind fun _ => .pure _

/-- The packet that a waiting `recv` queues. -/
theorem waitingPacket_cr3 (msg : BitVec 32) : Preserves Machine.cr3 (waitingPacket (τ := τ) msg) :=
  (loadPacket_cr3 _).bind fun _ => (vmGetPhysMapping_cr3 _).bind fun _ =>
    (vmGetPhysMapping_cr3 _).bind fun _ => .pure _

/-- `send` fills in its side of a packet. -/
theorem fillSendSide_cr3 (n : MsgPacket) (pid msg : BitVec 32) :
    Preserves Machine.cr3 (fillSendSide (τ := τ) n pid msg) :=
  (load32_cr3 _).bind fun _ => (load32_cr3 _).bind fun _ => (vmGetPhysMapping_cr3 _).bind fun _ =>
    .pure _

/-- `recv` fills in its side. -/
theorem fillRecvSide_cr3 (n : MsgPacket) (msg : BitVec 32) :
    Preserves Machine.cr3 (fillRecvSide (τ := τ) n msg) :=
  (load32_cr3 _).bind fun _ => (load32_cr3 _).bind fun _ => (vmGetPhysMapping_cr3 _).bind fun _ =>
    .pure _

/-- The message is copied through windows of the current directory. -/
theorem copyToReceiver_cr3 (n : MsgPacket) (msg : BitVec 32) :
    Preserves Machine.cr3 (copyToReceiver (τ := τ) n msg) :=
  (mapPages_cr3 _ _ _ _).bind fun _ => (load32_cr3 _).bind fun _ => (memcpy_cr3 _ _ _).bind fun _ =>
    unmapPages_cr3 _ _

/-- The receiver learns who sent, through a window too. -/
theorem reportSender_cr3 (n : MsgPacket) (pid : BitVec 32) :
    Preserves Machine.cr3 (reportSender (τ := τ) n pid) :=
  (mapPages_cr3 _ _ _ _).bind fun _ => (store32_cr3 _ _).bind fun _ => unmapPages_cr3 _ _

/-- `recv` copies a message that waits for it. -/
theorem copyFromSender_cr3 (n : MsgPacket) (msg : BitVec 32) :
    Preserves Machine.cr3 (copyFromSender (τ := τ) n msg) :=
  (mapPages_cr3 _ _ _ _).bind fun _ => (load32_cr3 _).bind fun _ => (load32_cr3 _).bind fun _ =>
    (memcpy_cr3 _ _ _).bind fun _ => (unmapPages_cr3 _ _).bind fun _ => store32_cr3 _ _

/-- `reply` copies the response. -/
theorem copyResponse_cr3 (n : MsgPacket) (msg : BitVec 32) :
    Preserves Machine.cr3 (copyResponse (τ := τ) n msg) :=
  (mapPages_cr3 _ _ _ _).bind fun _ => (load32_cr3 _).bind fun _ => (memcpy_cr3 _ _ _).bind fun _ =>
    unmapPages_cr3 _ _

end Cr3

/-! ### Placements -/

/-- Where everybody is: the saved frame, the kernel stack and the directory of every process, who
    runs and who is idle, and what the processor has loaded. -/
structure Placement where
  trapframe : Slot → BitVec 32
  kstack : Slot → BitVec 32
  pdir : Slot → BitVec 32
  idle : Option Slot
  current : Option Slot
  tssEsp0 : BitVec 32
  cr3 : BitVec 32

section Placement

variable {τ : Type}

/-- The placement of a kernel. -/
def Kernel.placement (k : Kernel τ) : Placement where
  trapframe s := (k.procs s).trapframe
  kstack s := (k.procs s).kstack
  pdir s := (k.procs s).pdir
  idle := k.idle
  current := k.currentProc
  tssEsp0 := k.tssEsp0
  cr3 := k.mach.cr3

/-- Machine code that keeps the directory loaded keeps the placement. -/
theorem onMach_placement {α : Type} {x : Code Trap (Machine τ) α} (h : Preserves Machine.cr3 x) :
    Preserves Kernel.placement (onMach x) :=
  h.zoom fun k m hm => by simp [Kernel.placement, hm]

/-- A write to a process that keeps its frame, its stack and its directory. -/
theorem setProc_placement (s : Slot) {f : Proc → Proc}
    (hf : ∀ p, (f p).trapframe = p.trapframe ∧ (f p).kstack = p.kstack ∧ (f p).pdir = p.pdir) :
    Preserves Kernel.placement (setProc (τ := τ) s f) := by
  refine .modify fun k => ?_
  have hp : ∀ t, ((k.updProc s f).procs t).trapframe = (k.procs t).trapframe ∧
      ((k.updProc s f).procs t).kstack = (k.procs t).kstack ∧
      ((k.updProc s f).procs t).pdir = (k.procs t).pdir := by
    intro t
    by_cases ht : t = s
    · subst ht
      simpa [Kernel.updProc] using hf (k.procs t)
    · simp [Kernel.updProc, ht]
  simp only [Kernel.placement, hp]
  rfl

/-- `kalloc` of a packet. -/
theorem kallocPacket_placement : Preserves Kernel.placement (kallocPacket (τ := τ)) := by
  intro k p k' h
  obtain ⟨-, heap, -, rfl⟩ := kallocPacket_ok h
  rfl

/-- The history is no part of it. -/
theorem note_placement (e : IpcEvent) : Preserves Kernel.placement (note (τ := τ) e) :=
  .modify fun _ => rfl

/-- A packet at the head of a queue is filled in. -/
theorem setHead_placement (s : Slot) (n : MsgPacketQueue) :
    Preserves Kernel.placement (setHead (τ := τ) s n) :=
  setProc_placement s fun _ => ⟨rfl, rfl, rfl⟩

/-- `STAILQ_REMOVE_HEAD`. -/
theorem removeHead_placement (s : Slot) : Preserves Kernel.placement (removeHead (τ := τ) s) :=
  setProc_placement s fun _ => ⟨rfl, rfl, rfl⟩

/-- `kfree`. -/
theorem kfreeBlock_placement (addr : BitVec 32) :
    Preserves Kernel.placement (kfreeBlock (τ := τ) addr) :=
  .modify fun _ => rfl

variable [Tlb τ]

/-- `STAILQ_INSERT_TAIL`. -/
theorem insertTail_placement (s : Slot) (n : MsgPacketQueue) :
    Preserves Kernel.placement (insertTail (τ := τ) s n) := by
  refine Preserves.get.bind fun _ => .ite ?_ ?_
  · exact setProc_placement s fun _ => ⟨rfl, rfl, rfl⟩
  · exact (Preserves.onlyIf (onMach_placement (store32_cr3 _ _))).bind fun _ =>
      setProc_placement s fun _ => ⟨rfl, rfl, rfl⟩

/-- A sender becomes ready where it is. -/
theorem awaken_placement (sender : Option Slot) :
    Preserves Kernel.placement (awaken (τ := τ) sender) := by
  unfold awaken
  split
  · exact onMach_placement (store32_cr3 _ _)
  · exact setProc_placement _ fun _ => ⟨rfl, rfl, rfl⟩

/-- `send`, to a receiver that does not wait. -/
theorem queuePacket_placement (c r : Slot) (msg : BitVec 32) :
    Preserves Kernel.placement (queuePacket (τ := τ) c r msg) :=
  kallocPacket_placement.bind fun _ => Preserves.get.bind fun _ =>
    (onMach_placement (sentPacket_cr3 _ _)).bind fun _ => (insertTail_placement _ _).bind fun _ =>
    note_placement _

/-- `send`, to one that waits in `recv`. -/
theorem fillPlaceholder_placement (c r : Slot) (msg : BitVec 32) :
    Preserves Kernel.placement (fillPlaceholder (τ := τ) c r msg) := by
  unfold fillPlaceholder
  refine .bind (setProc_placement c fun _ => ⟨rfl, rfl, rfl⟩) fun _ => .bind .get fun k => ?_
  split
  · exact .trap _
  · refine (onMach_placement (fillSendSide_cr3 _ _ _)).bind fun _ => ?_
    refine (setHead_placement _ _).bind fun _ => (note_placement _).bind fun _ => ?_
    refine (onMach_placement (copyToReceiver_cr3 _ _)).bind fun _ => ?_
    refine (onMach_placement (reportSender_cr3 _ _)).bind fun _ => ?_
    refine (note_placement _).bind fun _ => ?_
    refine (onMach_placement (fillRecvSide_cr3 _ _)).bind fun _ => ?_
    exact (setHead_placement _ _).bind fun _ => setProc_placement r fun _ => ⟨rfl, rfl, rfl⟩

/-- **A send** moves nobody. -/
theorem sendTo_placement (c r : Slot) (msg : BitVec 32) :
    Preserves Kernel.placement (sendTo (τ := τ) c r msg) := by
  unfold sendTo
  refine Preserves.get.bind fun k => Preserves.bind (.onlyIf (queuePacket_placement c r msg))
    fun _ => ?_
  split
  · exact fillPlaceholder_placement c r msg
  · exact setProc_placement c fun _ => ⟨rfl, rfl, rfl⟩
  · exact .pure ()

/-- **A receive** moves nobody. -/
theorem receive_placement (c : Slot) (msg : BitVec 32) :
    Preserves Kernel.placement (receive (τ := τ) c msg) := by
  unfold receive
  refine Preserves.get.bind fun k => ?_
  split
  · unfold queuePlaceholder
    refine .bind (setProc_placement c fun _ => ⟨rfl, rfl, rfl⟩) fun _ => ?_
    refine kallocPacket_placement.bind fun _ => ?_
    exact (onMach_placement (waitingPacket_cr3 _)).bind fun _ => insertTail_placement _ _
  · unfold takeMessage
    exact (onMach_placement (copyFromSender_cr3 _ _)).bind fun _ => note_placement _

/-- **A reply** moves nobody. -/
theorem reply_placement (c : Slot) (msg : BitVec 32) :
    Preserves Kernel.placement (reply (τ := τ) c msg) := by
  unfold reply
  refine Preserves.get.bind fun k => ?_
  split
  · exact .pure ()
  · unfold answerFirst
    refine Preserves.get.bind fun k' => (onMach_placement (copyResponse_cr3 _ _)).bind fun _ => ?_
    refine (removeHead_placement c).bind fun _ => (kfreeBlock_placement _).bind fun _ => ?_
    exact (awaken_placement _).bind fun _ => note_placement _

end Placement

end Leoman
