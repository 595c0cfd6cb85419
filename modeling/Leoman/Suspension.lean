import Leoman.ContextSwitch
import Leoman.Lib.ContextStacks
import Leoman.TrapFrame

namespace Leoman

open ByteMem StateExcept Runs WordStack ContextStacks

/-!
# Suspended code goes on where it was

The processor, the stubs and the scheduler together: any code is interrupted anywhere, in user mode
or inside a handler, handlers make system calls' bodies run, reschedule or return, and every process
has its frames on a kernel stack of its own.

* `Computer`, `CpuOp`, `CpuStep` — the kernel with the registers, and the events;
* `Nested` — what the frames on one kernel stack suspend;
* `Represents` — a computer, as processes with suspended code;
* `computer_refines` — every run is one of `ContextStacks`;
* `resumes_where_it_was` — interrupted code gets its registers back.

The C code of the kernel is not compiled here: it moves the registers as it likes (`run`), on its
stack and below the frames.  What it must not do is write over a saved frame.
-/

/-! ### The computer -/

section Computer

variable {τ : Type} [Tlb τ]

/-- The kernel, the registers, and for every process the handlers it is in, by the frames they
    were called with, the innermost first. -/
structure Computer (τ : Type) where
  kernel : Kernel τ
  regs : Regs
  handlers : Slot → List (BitVec 32)

/-- An event: the running code gets on, or runs the body of a system call or anything else that
    does not schedule, or is interrupted; a handler returns the frame it was called with, or what
    `proc_schedule_after_irq` returns. -/
inductive CpuOp (τ : Type) where
  | run (r : Regs)
  | call (op : SwitchOp τ)
  | interrupt (base num handler back : BitVec 32)
  | finish
  | schedule

/-- The memory. -/
def Computer.mem (c : Computer τ) : Mem := c.kernel.mach.mem

/-- The kernel stack of a process. -/
def Computer.kstack (c : Computer τ) (s : Slot) : BitVec 32 := (c.kernel.procs s).kstack

/-- The slot has a process. -/
def Computer.created (c : Computer τ) (s : Slot) : Bool := c.kernel.board.inited s

/-- The process `s` is interrupted, up to the start of the handler. -/
def Computer.enterHandler (c : Computer τ) (s : Slot) (base num handler back : BitVec 32) :
    Computer τ :=
  let (mem, r, f) := suspend c.kernel.tssEsp0 base num handler back c.mem c.regs
  { kernel := { c.kernel with mach := { c.kernel.mach with mem := mem } }
    regs := r
    handlers := Function.update c.handlers s (f :: c.handlers s) }

/-- What an event does; `none` where the kernel traps, or no handler is there to return. -/
def CpuOp.exec : CpuOp τ → Computer τ → Option (Computer τ)
  | .run r, c => some { c with regs := r }
  | .call op, c =>
    match op.exec c.kernel with
    | .error _ => none
    | .ok (_, k) => some { c with kernel := k }
  | .interrupt base num handler back, c =>
    c.kernel.currentProc.map fun s => c.enterHandler s base num handler back
  | .finish, c => do
    let s ← c.kernel.currentProc
    let f ← (c.handlers s).head?
    some { c with
      regs := stubReturn c.mem f c.regs
      handlers := Function.update c.handlers s (c.handlers s).tail }
  | .schedule, c => do
    let s ← c.kernel.currentProc
    let f ← (c.handlers s).head?
    match procScheduleAfterIrq f c.kernel with
    | .error _ => none
    | .ok (ret, k) => do
      let next ← k.currentProc
      some { kernel := k
             regs := stubReturn k.mach.mem ret c.regs
             handlers := Function.update c.handlers next (c.handlers next).tail }

/-! ### What code may do -/

/-- The bytes of a kernel stack. -/
abbrev kstackSize : Nat := 4096

/-- The bytes of a saved frame, by the code it suspends. -/
def frameBytes (mem : Mem) (f : BitVec 32) : Nat :=
  if userSel (wordSel (frameWord mem f 15)) then 76 else 68

/-- User code runs outside all handlers; kernel code is on its stack, and below the frame of its
    handler. -/
structure OnStack (kstack : BitVec 32) (fs : List (BitVec 32)) (r : Regs) : Prop where
  legal : r.Legal
  user : r.user = true → fs = []
  below : r.user = false → r.esp.toNat ≤ (fs.headD kstack).toNat
  room : r.user = false → kstack.toNat ≤ r.esp.toNat + kstackSize

/-- No saved frame changes. -/
def Computer.KeepsFrames (c : Computer τ) (mem : Mem) : Prop :=
  ∀ s, ∀ f ∈ c.handlers s, ∀ x, InRange x f (frameBytes c.mem f) → mem x = c.mem x

/-- What makes an event one that may happen: code stays where its stack is, no saved frame is
    written over, calls are made by processes and answer processes, and a frame that the kernel's
    own code pushes fits on its stack. -/
def CpuOp.Allowed (c : Computer τ) : CpuOp τ → Computer τ → Prop
  | .run r, _ => ∀ s, c.kernel.currentProc = some s → OnStack (c.kstack s) (c.handlers s) r
  | .call op, c' => op.frame? = none ∧ (op.isCall = true → ∃ s, c.kernel.board.MayCall s) ∧
      AnswersProcess c.kernel op ∧ c.KeepsFrames c'.mem
  | .interrupt _ _ _ _, _ => ∀ s, c.kernel.currentProc = some s → c.regs.user = false →
      (c.kstack s).toNat + 76 ≤ c.regs.esp.toNat + kstackSize
  | .finish, _ => True
  | .schedule, _ => True

/-- A step. -/
def CpuStep (c : Computer τ) (op : CpuOp τ) (c' : Computer τ) : Prop :=
  op.exec c = some c' ∧ op.Allowed c c'

end Computer

/-! ### Frames on a kernel stack -/

/-- The frames on a kernel stack, the innermost first, suspend code with these registers. -/
inductive Nested (mem : Mem) (kstack : BitVec 32) : List (BitVec 32) → List Regs → Prop
  | nil : Nested mem kstack [] []
  | cons {f : BitVec 32} {r : Regs} {fs : List (BitVec 32)} {rs : List Regs}
    (holds : Holds mem f r) (below : f.toNat + r.frameSize ≤ (fs.headD kstack).toNat)
    (room : kstack.toNat ≤ f.toNat + kstackSize) (user : r.user = true → fs = [])
    (rest : Nested mem kstack fs rs) : Nested mem kstack (f :: fs) (r :: rs)

section Nested

variable {mem mem' : Mem} {kstack f : BitVec 32} {fs : List (BitVec 32)} {r : Regs}
  {rs : List Regs}

/-- A frame that holds code of a kind has the bytes of that kind. -/
theorem Holds.frameBytes (h : Holds mem f r) : frameBytes mem f = r.frameSize := by
  obtain ⟨saved, num, err, hw⟩ := h.words
  have hcs : frameWord mem f 15 = selWord r.cs := hw 15 _ rfl
  unfold Leoman.frameBytes Regs.frameSize
  rw [hcs, wordSel_selWord]
  rfl

/-- Where the frames of a kernel stack are. -/
theorem Nested.bounds (h : Nested mem kstack fs rs) :
    (fs.headD kstack).toNat ≤ kstack.toNat ∧ ∀ f ∈ fs, (fs.headD kstack).toNat ≤ f.toNat ∧
      f.toNat + frameBytes mem f ≤ kstack.toNat ∧ kstack.toNat ≤ f.toNat + kstackSize := by
  induction h with
  | nil => exact ⟨le_rfl, fun f hf => absurd hf (by simp)⟩
  | @cons f r fs rs holds below room user rest ih =>
    obtain ⟨htop, hall⟩ := ih
    rw [List.headD_cons]
    refine ⟨by omega, fun g hg => ?_⟩
    rcases List.mem_cons.mp hg with rfl | hg
    · rw [holds.frameBytes]
      exact ⟨le_rfl, by omega, room⟩
    · obtain ⟨hg₁, hg₂, hg₃⟩ := hall g hg
      exact ⟨by omega, hg₂, hg₃⟩

/-- Only the bytes of the frames matter. -/
theorem Nested.congr (h : Nested mem kstack fs rs)
    (hm : ∀ f ∈ fs, ∀ x, InRange x f (frameBytes mem f) → mem' x = mem x) :
    Nested mem' kstack fs rs := by
  induction h with
  | nil => exact .nil
  | @cons f r fs rs holds below room user rest ih =>
    refine .cons (holds.congr fun x hx => ?_) below room user (ih fun g hg => ?_)
    · apply hm f List.mem_cons_self x
      rwa [holds.frameBytes]
    · exact hm g (List.mem_cons_of_mem f hg)

/-- As many frames as suspended pieces of code. -/
theorem Nested.length (h : Nested mem kstack fs rs) : rs.length = fs.length := by
  induction h with
  | nil => rfl
  | cons _ _ _ _ _ ih => rw [List.length_cons, List.length_cons, ih]

/-- Code that resumes is on its stack, below the frames that are left. -/
theorem Nested.onStack (h : Nested mem kstack (f :: fs) (r :: rs)) : OnStack kstack fs r := by
  cases h with
  | cons holds below room user rest =>
    have hfit := holds.fits
    have hsize : r.user = false → r.frameSize = 68 := by
      intro hu
      rw [Regs.frameSize, hu]
      rfl
    have hesp : r.user = false →
        r.esp.toNat = f.toNat + 68 ∨ r.esp.toNat + 2 ^ 32 = f.toNat + 68 := by
      intro hu
      rw [holds.esp hu, BitVec.toNat_add, BitVec.toNat_ofNat]
      have := f.isLt
      have := hsize hu
      omega
    refine ⟨holds.legal, user, fun hu => ?_, fun hu => ?_⟩
    · have h₁ := hsize hu
      rcases hesp hu with h₂ | h₂ <;> omega
    · have h₁ := hsize hu
      have h₂ := kstack.isLt
      have hhead := rest.bounds.1
      have htop := (fs.headD kstack).isLt
      rcases hesp hu with h₃ | h₃ <;> omega

end Nested

/-! ### Processes with suspended code -/

section Refinement

variable {τ : Type} [Tlb τ]

/-- A computer, as processes with suspended code. -/
structure Represents (c : Computer τ) (a : Contexts Slot Regs) : Prop where
  current : c.kernel.currentProc = some a.current
  regs : c.regs = a.regs
  frames : ∀ s, c.created s = true → Nested c.mem (c.kstack s) (c.handlers s) (a.suspended s)

/-- The kernel stacks of the processes are different pages. -/
structure StacksApart (c : Computer τ) : Prop where
  aligned : ∀ s, c.created s = true → (c.kstack s).toNat % kstackSize = 0
  positive : ∀ s, c.created s = true → 0 < (c.kstack s).toNat
  distinct : ∀ s t, c.created s = true → c.created t = true → c.kstack s = c.kstack t → s = t

/-- What every event keeps: the table is in order, the running process is on its own stack, and
    all others will be resumed with their innermost frame. -/
structure Arranged (k₀ : Kernel τ) (c : Computer τ) (a : Contexts Slot Regs) : Prop where
  represents : Represents c a
  suspended : ∃ tr, Suspended k₀ tr c.kernel
  apart : StacksApart c
  esp0 : c.kernel.tssEsp0 = c.kstack a.current
  onStack : OnStack (c.kstack a.current) (c.handlers a.current) c.regs
  saved : ∀ s, c.created s = true → s ≠ a.current →
    (c.handlers s).head? = some (c.kernel.procs s).trapframe

/-- The move an event makes. -/
inductive Moves : CpuOp τ → Move Slot Regs → Prop
  | run (r : Regs) : Moves (.run r) (.work r)
  | call (op : SwitchOp τ) (r : Regs) : Moves (.call op) (.work r)
  | interrupt (base num handler back : BitVec 32) (r : Regs) :
    Moves (.interrupt base num handler back) (.suspend r)
  | finish (s : Slot) : Moves .finish (.resume s)
  | schedule (s : Slot) : Moves .schedule (.resume s)

variable {k₀ : Kernel τ} {c c' : Computer τ} {a : Contexts Slot Regs} {s t : Slot}
  {op : CpuOp τ} {base num handler back : BitVec 32}

omit [Tlb τ] in
/-- Different kernel stacks have no byte in common. -/
theorem StacksApart.below (h : StacksApart c) (hs : c.created s = true) (ht : c.created t = true)
    (hst : s ≠ t) : (c.kstack s).toNat + kstackSize ≤ (c.kstack t).toNat ∨
      (c.kstack t).toNat + kstackSize ≤ (c.kstack s).toNat := by
  have hne : (c.kstack s).toNat ≠ (c.kstack t).toNat := fun heq =>
    hst (h.distinct s t hs ht (BitVec.eq_of_toNat_eq heq))
  have h₁ := h.aligned s hs
  have h₂ := h.aligned t ht
  simp only [kstackSize] at *
  omega

omit [Tlb τ] in
/-- The running process is one. -/
theorem Arranged.created (h : Arranged k₀ c a) : c.created a.current = true := by
  obtain ⟨tr, hk⟩ := h.suspended
  exact hk.named.who a.current (Or.inl h.represents.current)

/-- A call leaves everybody where they are. -/
theorem SwitchOp.exec_placement {o : SwitchOp τ} {k k' : Kernel τ} (hf : o.frame? = none)
    (h : o.exec k = .ok ((), k')) :
    (∀ u, (k'.procs u).trapframe = (k.procs u).trapframe ∧
      (k'.procs u).kstack = (k.procs u).kstack) ∧
    k'.currentProc = k.currentProc ∧ k'.tssEsp0 = k.tssEsp0 := by
  have hplace : ∀ {k'' : Kernel τ}, k''.placement = k.placement →
      (∀ u, (k''.procs u).trapframe = (k.procs u).trapframe ∧
        (k''.procs u).kstack = (k.procs u).kstack) ∧
      k''.currentProc = k.currentProc ∧ k''.tssEsp0 = k.tssEsp0 := by
    intro k'' hp
    exact ⟨fun u => ⟨congrFun (congrArg Placement.trapframe hp) u,
      congrFun (congrArg Placement.kstack hp) u⟩, congrArg Placement.current hp,
      congrArg Placement.tssEsp0 hp⟩
  cases o with
  | timer frame => exact absurd hf (by simp [SwitchOp.frame?])
  | int127 frame => exact absurd hf (by simp [SwitchOp.frame?])
  | send msg =>
    obtain ⟨found, k₁, h₁, h₂⟩ := bind_ok_iff.mp h
    obtain ⟨-, rfl⟩ := Prod.mk.inj (Except.ok.inj h₂)
    exact hplace (sendBody_placement msg _ _ _ h₁)
  | recv msg => exact hplace (recvBody_placement msg _ _ _ h)
  | reply msg => exact hplace (replyBody_placement msg _ _ _ h)
  | other mach scheduling =>
    obtain ⟨-, rfl⟩ := Prod.mk.inj (Except.ok.inj h)
    exact ⟨fun u => ⟨rfl, rfl⟩, rfl, rfl⟩

/-- A call makes no process. -/
theorem SwitchOp.exec_inited {o : SwitchOp τ} {k k' : Kernel τ} (hf : o.frame? = none)
    (h : o.exec k = .ok ((), k')) : k'.board.inited = k.board.inited := by
  cases o with
  | timer frame => exact absurd hf (by simp [SwitchOp.frame?])
  | int127 frame => exact absurd hf (by simp [SwitchOp.frame?])
  | send msg =>
    obtain ⟨found, k₁, h₁, h₂⟩ := bind_ok_iff.mp h
    obtain ⟨-, rfl⟩ := Prod.mk.inj (Except.ok.inj h₂)
    obtain ⟨c, mach, -, -, ⟨-, rfl⟩ | ⟨-, r, k₂, hrun, rfl⟩⟩ := sendBody_ok h₁
    · rfl
    · exact (sendTo_refines hrun).inited
  | recv msg =>
    obtain ⟨c, k₁, -, hrun, rfl⟩ := callBody_ok h
    exact (receive_refines hrun).inited
  | reply msg =>
    obtain ⟨c, k₁, -, hrun, rfl⟩ := callBody_ok h
    exact (reply_refines hrun).inited
  | other mach scheduling =>
    obtain ⟨-, rfl⟩ := Prod.mk.inj (Except.ok.inj h)
    rfl

omit [Tlb τ] in
/-- The stacks stay apart while processes keep theirs. -/
theorem StacksApart.keep (h : StacksApart c) (hcreated : ∀ s, c'.created s = c.created s)
    (hkstack : ∀ s, c'.kstack s = c.kstack s) : StacksApart c' := by
  refine ⟨fun s hs => ?_, fun s hs => ?_, fun s t hs ht => ?_⟩
  · rw [hkstack]
    exact h.aligned s ((hcreated s).symm.trans hs)
  · rw [hkstack]
    exact h.positive s ((hcreated s).symm.trans hs)
  · rw [hkstack, hkstack]
    exact h.distinct s t ((hcreated s).symm.trans hs) ((hcreated t).symm.trans ht)

/-! ### The events, one by one -/

omit [Tlb τ] in
/-- Code that gets on, on its stack, disturbs nobody. -/
theorem Arranged.run (h : Arranged k₀ c a) {r : Regs}
    (hr : OnStack (c.kstack a.current) (c.handlers a.current) r) :
    Arranged k₀ { c with regs := r } { a with regs := r } :=
  ⟨⟨h.represents.current, rfl, h.represents.frames⟩, h.suspended,
    h.apart.keep (fun _ => rfl) fun _ => rfl, h.esp0, hr, h.saved⟩

/-- The body of a call, or anything else that does not schedule. -/
theorem Arranged.call (h : Arranged k₀ c a) {o : SwitchOp τ} {k : Kernel τ} (hf : o.frame? = none)
    (hcall : o.isCall = true → ∃ s, c.kernel.board.MayCall s) (hans : AnswersProcess c.kernel o)
    (hrun : o.exec c.kernel = .ok ((), k)) (hkeep : c.KeepsFrames k.mach.mem) :
    Arranged k₀ { c with kernel := k } a := by
  obtain ⟨hprocs, hcur, hesp0⟩ := SwitchOp.exec_placement hf hrun
  have hinited := SwitchOp.exec_inited hf hrun
  have hcreated : ∀ s, ({ c with kernel := k } : Computer τ).created s = c.created s :=
    fun s => congrFun hinited s
  have hkstack : ∀ s, ({ c with kernel := k } : Computer τ).kstack s = c.kstack s :=
    fun s => (hprocs s).2
  refine ⟨⟨hcur.trans h.represents.current, h.represents.regs, fun s hs => ?_⟩, ?_,
    h.apart.keep hcreated hkstack, ?_, ?_, fun s hs hne => ?_⟩
  · rw [hkstack]
    exact (h.represents.frames s ((hcreated s).symm.trans hs)).congr (hkeep s)
  · obtain ⟨tr, hk⟩ := h.suspended
    have hstep : SwitchStep c.kernel ⟨o, c.kernel, k⟩ k := ⟨rfl, rfl, hcall, hrun⟩
    exact ⟨_, hstep.suspended hk hans⟩
  · rw [hkstack, ← h.esp0]
    exact hesp0
  · rw [hkstack]
    exact h.onStack
  · show (c.handlers s).head? = some (k.procs s).trapframe
    rw [(hprocs s).1]
    exact h.saved s ((hcreated s).symm.trans hs) hne

/-- An interrupt: the new frame is below all others of the process, and on no other stack. -/
theorem Arranged.interrupt (h : Arranged k₀ c a) {mem : Mem} {r : Regs} {f : BitVec 32}
    (hroom : c.regs.user = false →
      (c.kstack a.current).toNat + 76 ≤ c.regs.esp.toNat + kstackSize)
    (hin : HandlerEntered c.kernel.tssEsp0 c.mem c.regs mem r f) :
    Arranged k₀ { kernel := { c.kernel with mach := { c.kernel.mach with mem := mem } }
                  regs := r
                  handlers := Function.update c.handlers a.current (f :: c.handlers a.current) }
      { a with
        regs := r
        suspended := Function.update a.suspended a.current (a.regs :: a.suspended a.current) } := by
  have hin₀ := h.created
  have hpos := h.apart.positive _ hin₀
  have hal := h.apart.aligned _ hin₀
  have hown := h.represents.frames _ hin₀
  have hbounds := hown.bounds
  have hon := h.onStack
  have hK := (c.kstack a.current).isLt
  -- where the processor pushes
  obtain ⟨top, htop, hle, hlow⟩ : ∃ top : Nat,
      top = (interruptStack c.kernel.tssEsp0 c.regs).toNat ∧
      top ≤ ((c.handlers a.current).headD (c.kstack a.current)).toNat ∧
      (c.kstack a.current).toNat + c.regs.frameSize + 8 ≤ top + kstackSize := by
    refine ⟨_, rfl, ?_⟩
    unfold interruptStack Regs.frameSize
    cases hu : c.regs.user with
    | true =>
      rw [if_pos rfl, if_pos rfl, h.esp0, hon.user hu]
      exact ⟨le_rfl, by simp only [kstackSize]; omega⟩
    | false =>
      rw [if_neg (by decide), if_neg (by decide)]
      have := hroom hu
      exact ⟨hon.below hu, by omega⟩
  have hf : f.toNat + c.regs.frameSize = top := by
    have hstack := (interruptStack c.kernel.tssEsp0 c.regs).isLt
    rw [hin.frame, pushedFrame, BitVec.toNat_sub, BitVec.toNat_ofNat]
    simp only [kstackSize] at *
    omega
  have hf8 : (f - 8#32).toNat = f.toNat - 8 := by
    rw [BitVec.toNat_sub, BitVec.toNat_ofNat]
    simp only [kstackSize] at *
    omega
  have hsize := c.regs.frameSize_le
  have hoff : ∀ x : BitVec 32, x.toNat < f.toNat - 8 ∨ top ≤ x.toNat → mem x = c.mem x := by
    intro x hx
    refine hin.off x fun hxin => ?_
    rw [inRange_iff (by simp only [kstackSize] at *; omega), hf8] at hxin
    simp only [kstackSize] at *
    omega
  refine ⟨⟨h.represents.current, rfl, fun s hs => ?_⟩, ?_,
    h.apart.keep (fun _ => rfl) fun _ => rfl, h.esp0, ⟨?_, fun hu => ?_, fun _ => ?_, fun _ => ?_⟩,
    fun s hs hne => ?_⟩
  · by_cases hsc : s = a.current
    · subst hsc
      show Nested mem (c.kstack a.current) (Function.update c.handlers a.current _ a.current)
        (Function.update a.suspended a.current _ a.current)
      rw [Function.update_self, Function.update_self, ← h.represents.regs]
      refine .cons hin.holds ?_ ?_ hon.user (hown.congr fun g hg x hx => ?_)
      · omega
      · simp only [kstackSize] at *
        omega
      · -- frames of the same process are above
        obtain ⟨h₁, h₂, -⟩ := hbounds.2 g hg
        rw [inRange_iff (by omega)] at hx
        exact hoff x (Or.inr (by omega))
    · show Nested mem (c.kstack s) (Function.update c.handlers a.current _ s)
        (Function.update a.suspended a.current _ s)
      rw [Function.update_of_ne hsc, Function.update_of_ne hsc]
      refine (h.represents.frames s hs).congr fun g hg x hx => hoff x ?_
      -- frames of another process are on another page
      obtain ⟨-, h₂, h₃⟩ := (h.represents.frames s hs).bounds.2 g hg
      have hK' := (c.kstack s).isLt
      rw [inRange_iff (by omega)] at hx
      rcases h.apart.below hs hin₀ hsc with hlt | hlt
      · left
        simp only [kstackSize] at *
        omega
      · right
        have := hbounds.1
        simp only [kstackSize] at *
        omega
  · -- the kernel sees a change of memory only
    obtain ⟨tr, hk⟩ := h.suspended
    have hstep : SwitchStep c.kernel
        ⟨.other { c.kernel.mach with mem := mem } c.kernel.schedulingEnabled, c.kernel, _⟩ _ :=
      ⟨rfl, rfl, by simp [SwitchOp.isCall], rfl⟩
    exact ⟨_, hstep.suspended hk (by simp [AnswersProcess])⟩
  · rw [Regs.Legal, hin.user, if_neg (by decide)]
    exact hin.ss
  · rw [hin.user] at hu
    exact absurd hu (by decide)
  · show r.esp.toNat ≤ ((Function.update c.handlers a.current _ a.current).headD _).toNat
    rw [Function.update_self, List.headD_cons, hin.esp, hf8]
    omega
  · show (c.kstack a.current).toNat ≤ r.esp.toNat + kstackSize
    rw [hin.esp, hf8]
    simp only [kstackSize] at *
    omega
  · show (Function.update c.handlers a.current _ s).head? = _
    rw [Function.update_of_ne hne]
    exact h.saved s hs hne

omit [Tlb τ] in
/-- A handler runs in the kernel. -/
theorem OnStack.ss {kstack f : BitVec 32} {fs : List (BitVec 32)} {r : Regs}
    (h : OnStack kstack (f :: fs) r) : r.ss = kdataSel := by
  have hu : r.user = false := by
    cases hu : r.user with
    | false => rfl
    | true => exact absurd (h.user hu) (by simp)
  have hlegal := h.legal
  rwa [Regs.Legal, hu, if_neg (by decide)] at hlegal

omit [Tlb τ] in
/-- The stub resumes what the innermost frame of the process `next` suspends, and everybody else
    keeps the frame they have. -/
theorem Arranged.resume (h : Arranged k₀ c a) {k : Kernel τ} {next : Slot} {ret : BitVec 32}
    (hss : c.regs.ss = kdataSel) (hk : ∃ tr, Suspended k₀ tr k) (hmem : k.mach.mem = c.mem)
    (hinited : k.board.inited = c.kernel.board.inited)
    (hkstack : ∀ s, (k.procs s).kstack = c.kstack s) (hnext : k.currentProc = some next)
    (hesp0 : k.tssEsp0 = c.kstack next) (hret : (c.handlers next).head? = some ret)
    (hsaved : ∀ s, c.created s = true → s ≠ next →
      (c.handlers s).head? = some (k.procs s).trapframe) :
    ∃ r rs, a.suspended next = r :: rs ∧
      Arranged k₀ ⟨k, stubReturn k.mach.mem ret c.regs,
          Function.update c.handlers next (c.handlers next).tail⟩
        ⟨next, r, Function.update a.suspended next rs⟩ := by
  have hcreated : ∀ s, k.board.inited s = c.created s := fun s => congrFun hinited s
  have hin : c.created next = true := by
    obtain ⟨tr, hk⟩ := hk
    rw [← hcreated]
    exact hk.named.who next (Or.inl hnext)
  -- the frame returned is the innermost on the stack of `next`, and holds its registers
  have hnested := h.represents.frames next hin
  cases hfs : c.handlers next with
  | nil =>
    rw [hfs] at hret
    exact absurd hret (by simp)
  | cons f fs =>
    rw [hfs] at hret hnested
    obtain rfl : f = ret := Option.some.inj hret
    cases hrs : a.suspended next with
    | nil =>
      rw [hrs] at hnested
      exact absurd hnested.length (by simp)
    | cons r rs =>
      rw [hrs] at hnested
      have hon := hnested.onStack
      cases hnested with
      | cons holds below room user rest =>
        refine ⟨r, rs, rfl, ⟨hnext, ?_, fun s hs => ?_⟩, hk,
          h.apart.keep hcreated hkstack, ?_, ?_, fun s hs hne => ?_⟩
        · rw [hmem]
          exact stubReturn_holds holds hss
        · have hs' : c.created s = true := (hcreated s).symm.trans hs
          show Nested k.mach.mem (k.procs s).kstack (Function.update c.handlers next _ s)
            (Function.update a.suspended next rs s)
          -- only the stack of `next` has a frame fewer
          rw [hmem, hkstack]
          by_cases hsn : s = next
          · subst hsn
            rw [Function.update_self, Function.update_self]
            exact rest
          · rw [Function.update_of_ne hsn, Function.update_of_ne hsn]
            exact h.represents.frames s hs'
        · show k.tssEsp0 = (k.procs next).kstack
          rw [hkstack, hesp0]
        · show OnStack (k.procs next).kstack (Function.update c.handlers next _ next)
            (stubReturn k.mach.mem f c.regs)
          rw [hkstack, Function.update_self, hmem, stubReturn_holds holds hss]
          exact hon
        · show (Function.update c.handlers next _ s).head? = some (k.procs s).trapframe
          rw [Function.update_of_ne hne]
          exact hsaved s ((hcreated s).symm.trans hs) hne

omit [Tlb τ] in
/-- A handler returns the frame it was called with. -/
theorem Arranged.finish (h : Arranged k₀ c a) {f : BitVec 32}
    (hf : (c.handlers a.current).head? = some f) : ∃ r rs, a.suspended a.current = r :: rs ∧
      Arranged k₀ { c with
          regs := stubReturn c.mem f c.regs
          handlers := Function.update c.handlers a.current (c.handlers a.current).tail }
        ⟨a.current, r, Function.update a.suspended a.current rs⟩ := by
  have hon := h.onStack
  obtain ⟨fs, hfs⟩ := List.head?_eq_some_iff.mp hf
  rw [hfs] at hon
  exact h.resume hon.ss h.suspended rfl rfl (fun _ => rfl) h.represents.current h.esp0 hf h.saved

/-- A handler returns what the scheduler says. -/
theorem Arranged.schedule (h : Arranged k₀ c a) {f ret : BitVec 32} {k : Kernel τ} {next : Slot}
    (hf : (c.handlers a.current).head? = some f)
    (hrun : procScheduleAfterIrq f c.kernel = .ok (ret, k)) (hnext : k.currentProc = some next) :
    ∃ r rs, a.suspended next = r :: rs ∧
      Arranged k₀ ⟨k, stubReturn k.mach.mem ret c.regs,
          Function.update c.handlers next (c.handlers next).tail⟩
        ⟨next, r, Function.update a.suspended next rs⟩ := by
  have hon := h.onStack
  obtain ⟨fs, hfs⟩ := List.head?_eq_some_iff.mp hf
  rw [hfs] at hon
  have hcur := h.represents.current
  obtain ⟨tr, hk⟩ := h.suspended
  have hk' : ∃ tr, Suspended k₀ tr k :=
    ⟨_, hk.decision (e := ⟨.timer f, c.kernel, k⟩) rfl rfl rfl hrun⟩
  rcases procScheduleAfterIrq_cases hrun with ⟨-, rfl, rfl⟩ | ⟨-, t, n, ht, hsw⟩
  · -- scheduling is disabled
    obtain rfl : a.current = next := Option.some.inj (hcur.symm.trans hnext)
    exact h.resume hon.ss hk' rfl rfl (fun _ => rfl) hnext h.esp0 hf h.saved
  · obtain rfl : a.current = t := Option.some.inj (hcur.symm.trans ht)
    obtain rfl : next = n := Option.some.inj (hnext.symm.trans hsw.current)
    have hkstack : ∀ s, (k.procs s).kstack = c.kstack s := by
      intro s
      rw [hsw.procs_eq hk.named ht]
      exact (c.kernel.suspend_fields a.current f _ s).2
    have hmine : (k.procs a.current).trapframe = f := by
      rw [hsw.procs_eq hk.named ht, c.kernel.suspend_self]
    have hothers : ∀ s, s ≠ a.current → (k.procs s).trapframe = (c.kernel.procs s).trapframe := by
      intro s hs
      rw [hsw.others hk.named ht hs]
    have hsaved : ∀ s, c.created s = true → (c.handlers s).head? = some (k.procs s).trapframe := by
      intro s hs
      by_cases hsc : s = a.current
      · rw [hsc, hmine]
        exact hf
      · rw [hothers s hsc]
        exact h.saved s hs hsc
    by_cases hstay : next = a.current
    · obtain ⟨rfl, hmach, hesp0⟩ := hsw.stay hstay
      rw [hstay] at hnext ⊢
      exact h.resume hon.ss hk' (congrArg Machine.mem hmach) hsw.inited hkstack hnext
        (hesp0.trans h.esp0) hf fun s hs _ => hsaved s hs
    · obtain ⟨hret, hesp0, hmach⟩ := hsw.away hstay
      have hin : c.created next = true := by
        obtain ⟨tr', hk''⟩ := hk'
        have hwho := hk''.named.who next (Or.inl hnext)
        rwa [hsw.inited] at hwho
      refine h.resume hon.ss hk' (by rw [hmach]; rfl) hsw.inited hkstack hnext hesp0 ?_
        fun s hs _ => hsaved s hs
      rw [hret]
      exact h.saved next hin hstay

/-- **One event** is one move. -/
theorem CpuStep.moves (h : Arranged k₀ c a) (hstep : CpuStep c op c') :
    ∃ m a', Moves op m ∧ Step a m a' ∧ Arranged k₀ c' a' := by
  obtain ⟨hex, hok⟩ := hstep
  have hcur := h.represents.current
  cases op with
  | run r =>
    obtain rfl := Option.some.inj hex
    exact ⟨_, _, .run r, .work a r, h.run (hok _ hcur)⟩
  | call o =>
    simp only [CpuOp.exec] at hex
    split at hex
    · exact absurd hex (by simp)
    · rename_i k hrun
      obtain rfl := Option.some.inj hex
      obtain ⟨hf, hcall, hans, hkeep⟩ := hok
      exact ⟨_, _, .call o a.regs, .work a a.regs, h.call hf hcall hans hrun hkeep⟩
  | interrupt base num handler back =>
    simp only [CpuOp.exec, hcur, Option.map_some] at hex
    obtain rfl := Option.some.inj hex
    have hroom := hok _ hcur
    have hpos := h.apart.positive _ h.created
    have hal := h.apart.aligned _ h.created
    -- the frame fits: from user mode on the whole stack, from the kernel by what is asked
    have hbelow : c.regs.frameSize + 8 ≤ (interruptStack c.kernel.tssEsp0 c.regs).toNat := by
      unfold interruptStack Regs.frameSize
      cases hu : c.regs.user with
      | true =>
        rw [if_pos rfl, if_pos rfl, h.esp0]
        simp only [kstackSize] at hal
        omega
      | false =>
        rw [if_neg (by decide), if_neg (by decide)]
        have := hroom hu
        simp only [kstackSize] at *
        omega
    exact ⟨_, _, .interrupt base num handler back _, .suspend a _,
      h.interrupt hroom (suspend_holds h.onStack.legal hbelow)⟩
  | finish =>
    cases hf : (c.handlers a.current).head? with
    | none =>
      simp only [CpuOp.exec, hcur, Option.bind_eq_bind, Option.bind_some, hf] at hex
      exact absurd hex (by simp)
    | some f =>
      simp only [CpuOp.exec, hcur, Option.bind_eq_bind, Option.bind_some, hf] at hex
      obtain rfl := Option.some.inj hex
      -- the process itself goes on
      obtain ⟨r, rs, hrs, h'⟩ := h.finish hf
      exact ⟨_, _, .finish a.current, .resume hrs, h'⟩
  | schedule =>
    cases hf : (c.handlers a.current).head? with
    | none =>
      simp only [CpuOp.exec, hcur, Option.bind_eq_bind, Option.bind_some, hf] at hex
      exact absurd hex (by simp)
    | some f =>
      simp only [CpuOp.exec, hcur, Option.bind_eq_bind, Option.bind_some, hf] at hex
      split at hex
      · exact absurd hex (by simp)
      · rename_i ret k hrun
        cases hnext : k.currentProc with
        | none =>
          rw [hnext] at hex
          exact absurd hex (by simp)
        | some next =>
          rw [hnext] at hex
          obtain rfl := Option.some.inj hex
          -- the process chosen goes on, and the other one stays suspended
          obtain ⟨r, rs, hrs, h'⟩ := h.schedule hf hrun hnext
          exact ⟨_, _, .schedule next, .resume hrs, h'⟩

/-! ### From boot on -/

/-- The registers in the frame of `proc_new`.  Ring 0 returns to ring 0, so the last two words stay
    on the stack. -/
def freshRegs (procLoad kstack : BitVec 32) : Regs where
  eax := 0#32
  ecx := 0#32
  edx := 0#32
  ebx := 0#32
  esp := kstack - 8#32
  ebp := 0#32
  esi := 0#32
  edi := 0#32
  eip := procLoad
  eflags := 0x200#32
  cs := kcodeSel
  ss := kdataSel
  ds := kdataSel
  es := kdataSel
  fs := kdataSel
  gs := kdataSel

/-- The frames after boot: that of `proc_new`, for every process but the running one. -/
def bootFrames (k : Kernel τ) (s : Slot) : List (BitVec 32) :=
  if k.board.inited s = true ∧ k.currentProc ≠ some s then [(k.procs s).trapframe] else []

/-- The computer when the first process starts: the processes of `boot`, each with the frame that
    `proc_new` built, and the first one at the `iret` that ends its `proc_load`.  That boot leaves
    the kernel so is `bootProcs_started`. -/
structure Started (procLoad : BitVec 32) (c : Computer τ) : Prop where
  booted : ∃ n, Booted n c.kernel
  framed : Framed c.kernel
  apart : StacksApart c
  esp0 : ∀ s, c.kernel.currentProc = some s → c.kernel.tssEsp0 = c.kstack s
  onStack : ∀ s, c.kernel.currentProc = some s → OnStack (c.kstack s) [] c.regs
  handlers : c.handlers = bootFrames c.kernel
  built : ∀ s, c.created s = true → c.kernel.currentProc ≠ some s →
    Words c.mem (c.kstack s - 76#32) (initialFrame procLoad (c.kstack s)).reverse

/-- The processes after boot: `s` runs, and all others are about to run `proc_load`. -/
def bootContexts (procLoad : BitVec 32) (c : Computer τ) (s : Slot) : Contexts Slot Regs where
  current := s
  regs := c.regs
  suspended t := if c.created t = true ∧ c.kernel.currentProc ≠ some t then
    [freshRegs procLoad (c.kstack t)] else []

/-- `proc_load` is kernel code. -/
theorem freshRegs_user (procLoad kstack : BitVec 32) :
    (freshRegs procLoad kstack).user = false := by
  show userSel kcodeSel = false
  decide

/-- Its frame is one of kernel code: 17 words. -/
theorem freshRegs_size (procLoad kstack : BitVec 32) :
    (freshRegs procLoad kstack).frameSize = 68 := by
  rw [Regs.frameSize, freshRegs_user]
  rfl

/-- The frame of `proc_new`, from its address on. -/
theorem initialFrame_reverse (procLoad kstack : BitVec 32) :
    (initialFrame procLoad kstack).reverse =
      frameWords (freshRegs procLoad kstack) 0#32 0xfeedbabe#32 0xdeadbeef#32 ++
        [kstack, segKdata] := by
  unfold frameWords
  rw [freshRegs_user]
  rfl

/-- **The frame of `proc_new`** suspends the start of `proc_load`. -/
theorem holds_initialFrame {mem : Mem} {procLoad kstack : BitVec 32}
    (hroom : 76 ≤ kstack.toNat)
    (h : Words mem (kstack - 76#32) (initialFrame procLoad kstack).reverse) :
    Holds mem (kstack - 76#32) (freshRegs procLoad kstack) := by
  have hK := kstack.isLt
  have hdown : (kstack - 76#32).toNat = kstack.toNat - 76 := by
    rw [BitVec.toNat_sub, BitVec.toNat_ofNat]
    omega
  refine ⟨?_, ?_, ⟨0#32, 0xfeedbabe#32, 0xdeadbeef#32, fun i w hw => h i w ?_⟩, fun _ => ?_⟩
  · rw [Regs.Legal, freshRegs_user]
    rfl
  · rw [hdown, freshRegs_size]
    omega
  · rw [initialFrame_reverse, List.getElem?_append_left (List.getElem?_eq_some_iff.mp hw).1]
    exact hw
  · show kstack - 8#32 = kstack - 76#32 + 68#32
    apply BitVec.eq_of_toNat_eq
    simp only [BitVec.toNat_sub, BitVec.toNat_add, BitVec.toNat_ofNat]
    omega

variable {procLoad : BitVec 32} {c₀ c₁ c₂ : Computer τ} {tr tr' : List (CpuOp τ)}

omit [Tlb τ] in
/-- The computer that boot leaves is arranged. -/
theorem Started.orderly (h : Started procLoad c) (hs : c.kernel.currentProc = some s) :
    Arranged c.kernel c (bootContexts procLoad c s) := by
  obtain ⟨n, hb⟩ := h.booted
  refine ⟨⟨hs, rfl, fun t ht => ?_⟩, ⟨[], hb.suspended⟩, h.apart, h.esp0 s hs, ?_,
    fun t ht hne => ?_⟩
  · show Nested c.mem (c.kstack t) (c.handlers t) (if _ then _ else _)
    rw [h.handlers, bootFrames]
    by_cases hcur : c.kernel.currentProc = some t
    · rw [if_neg (fun h => h.2 hcur), if_neg (fun h => h.2 hcur)]
      exact .nil
    · have hpos := h.apart.positive t ht
      have hal := h.apart.aligned t ht
      have hroom : 76 ≤ (c.kstack t).toNat := by
        simp only [kstackSize] at hal
        omega
      have hK := (c.kstack t).isLt
      have hdown : (c.kstack t - 76#32).toNat = (c.kstack t).toNat - 76 := by
        rw [BitVec.toNat_sub, BitVec.toNat_ofNat]
        omega
      rw [if_pos ⟨ht, hcur⟩, if_pos ⟨ht, hcur⟩,
        show (c.kernel.procs t).trapframe = c.kstack t - 76#32 from h.framed t ht]
      refine .cons (holds_initialFrame hroom (h.built t ht hcur)) ?_ ?_ (fun _ => rfl) .nil
      · rw [hdown, List.headD_nil, freshRegs_size]
        omega
      · rw [hdown]
        simp only [kstackSize]
        omega
  · show OnStack (c.kstack s) (c.handlers s) c.regs
    rw [h.handlers, bootFrames, if_neg (fun h => h.2 hs)]
    exact h.onStack s hs
  · have hcur : c.kernel.currentProc ≠ some t := fun hcur =>
      hne (Option.some.inj (hcur.symm.trans hs))
    rw [h.handlers, bootFrames, if_pos ⟨ht, hcur⟩]
    rfl

/-- What a run keeps, with the moves it makes. -/
theorem Started.run (h₀ : Started procLoad c₀) (hs : c₀.kernel.currentProc = some s)
    (hrun : Run CpuStep c₀ tr c) : ∃ moves a, List.Forall₂ Moves tr moves ∧
      Run Step (bootContexts procLoad c₀ s) moves a ∧ Arranged c₀.kernel c a :=
  hrun.simulates (R := Arranged c₀.kernel) (h₀.orderly hs) fun _ _ _ _ h hstep => hstep.moves h

/-- **Refinement.**  Every run of the computer, from the first process on, is a run of processes
    with suspended code, one move for each event: whatever is suspended, at any depth of any
    process, is in the frames on its kernel stack, and the processor has the registers of the code
    that runs.  The events are those `Allowed`: no saved frame is written over; code that is
    interrupted in the kernel is on its kernel stack, with room for one more frame; and the callers,
    and the senders that are answered, are processes. -/
theorem computer_refines (h₀ : Started procLoad c₀) (hs : c₀.kernel.currentProc = some s)
    (hrun : Run CpuStep c₀ tr c) : ∃ moves a, List.Forall₂ Moves tr moves ∧
      Run Step (bootContexts procLoad c₀ s) moves a ∧ Represents c a := by
  obtain ⟨moves, a, hmoves, habs, h⟩ := h₀.run hs hrun
  exact ⟨moves, a, hmoves, habs, h.represents⟩

/-- The process `s` runs, inside `n` handlers. -/
def Computer.At (c : Computer τ) (s : Slot) (n : Nat) : Prop :=
  c.kernel.currentProc = some s ∧ (c.handlers s).length = n

instance (c : Computer τ) (s : Slot) (n : Nat) : Decidable (c.At s n) :=
  inferInstanceAs (Decidable (_ ∧ _))

/-- **Interrupts are not noticed.**  Interrupt any code of a process, in user mode or in the
    kernel, inside any number of handlers.  Whatever happens then, to this process and to all
    others, of what is `Allowed` (no saved frame is written over, code is on its kernel stack with
    room for a frame when it is interrupted in the kernel, callers and answered senders are
    processes): the first time that the process runs inside as many handlers again, it has all the
    registers it had. -/
theorem resumes_where_it_was (h₀ : Started procLoad c₀) (hrun : Run CpuStep c₀ tr c)
    (hs : c.kernel.currentProc = some s)
    (hint : CpuStep c (.interrupt base num handler back) c₁)
    (hrest : Run (fun c' op c'' => CpuStep c' op c'' ∧ ¬ c'.At s (c.handlers s).length) c₁ tr' c₂)
    (hat : c₂.At s (c.handlers s).length) : c₂.regs = c.regs := by
  obtain ⟨n, hb⟩ := h₀.booted
  obtain ⟨s₀, -, hs₀⟩ := hb.current
  obtain ⟨moves, a, -, -, h⟩ := h₀.run hs₀ hrun
  have hcur : a.current = s := Option.some.inj (h.represents.current.symm.trans hs)
  have hdepth : ∀ {c' a'}, Arranged c₀.kernel c' a' → Resumed s c.regs (a.suspended s) a' →
      c'.At s (c.handlers s).length := by
    intro c' a' h' hres
    refine ⟨hres.current ▸ h'.represents.current, ?_⟩
    have hin' : c'.created s = true := hres.current ▸ h'.created
    have hin : c.created s = true := hcur ▸ h.created
    rw [← (h'.represents.frames s hin').length, hres.suspended,
      (h.represents.frames s hin).length]
  -- the interrupt suspends the code
  obtain ⟨m, a₁, hm, hstep, h₁⟩ := hint.moves h
  have hsusp : a₁.suspended s = c.regs :: a.suspended s := by
    cases hm with
    | interrupt base num handler back r =>
      cases hstep with
      | suspend =>
        show Function.update a.suspended a.current _ s = _
        rw [hcur, Function.update_self, h.represents.regs]
  -- and the rest is a run in which it is not resumed yet
  have haway : ∀ c' a' op c'', Arranged c₀.kernel c' a' →
      (CpuStep c' op c'' ∧ ¬ c'.At s (c.handlers s).length) → ∃ m' a'', Moves op m' ∧
        (Step a' m' a'' ∧ ¬ Resumed s c.regs (a.suspended s) a') ∧ Arranged c₀.kernel c'' a'' := by
    intro c' a' op c'' h' ⟨hstep', hno⟩
    obtain ⟨m', a'', hm', hs', h''⟩ := hstep'.moves h'
    exact ⟨m', a'', hm', ⟨hs', fun hres => hno (hdepth h' hres)⟩, h''⟩
  obtain ⟨moves', a₂, -, habs, h₂⟩ := hrest.simulates h₁ haway
  rcases resumed hsusp habs with ⟨rs, hrs⟩ | hres
  · -- as deep as before, nothing can be suspended above
    exfalso
    have hcur₂ : a₂.current = s := Option.some.inj (h₂.represents.current.symm.trans hat.1)
    have hin₂ : c₂.created s = true := hcur₂ ▸ h₂.created
    have hin : c.created s = true := hcur ▸ h.created
    have hlen := (h₂.represents.frames s hin₂).length
    rw [hrs, hat.2, ← (h.represents.frames s hin).length, List.length_append,
      List.length_cons] at hlen
    omega
  · rw [h₂.represents.regs, hres.regs]

end Refinement

/-! ### The small system -/

/-- The kernel stack of a slot of the small system. -/
def demoKstack (s : Slot) : BitVec 32 := BitVec.ofNat 32 (0x11000 + 0x1000 * s.val)

/-- The frames of `proc_new` for the first three processes. -/
def framesMem : Mem :=
  ((List.finRange nprocs).take 3).foldl (fun m s => (pushAll (m, demoKstack s)
    (initialFrame 0xe0100400#32 (demoKstack s))).1) demoMem

/-- Process 3 of the small system in user mode. -/
def demoComputer : Computer Unit where
  kernel := { demoKernel with
    mach := { demoKernel.mach with mem := framesMem }
    procs := fun s => { demoKernel.procs s with
      kstack := demoKstack s, trapframe := demoKstack s - 76#32 }
    tssEsp0 := 0x14000#32 }
  regs := ⟨1#32, 2#32, 3#32, 4#32, 0xe0000000#32, 5#32, 6#32, 7#32, 0x2000000#32, 0x200#32, 0x1b#16,
    0x23#16, 0x23#16, 0x23#16, 0x23#16, 0x23#16⟩
  handlers := fun s => if s.val < 3 then [demoKstack s - 76#32] else []

/-- The event may happen, as far as a program can tell: an interrupt that fits on the stack, or the
    return of a handler. -/
def CpuOp.fits (c : Computer Unit) : CpuOp Unit → Bool
  | .interrupt _ _ _ _ => c.regs.user || c.kernel.currentProc.all fun s =>
      decide ((c.kstack s).toNat + 76 ≤ c.regs.esp.toNat + kstackSize)
  | .finish | .schedule => true
  | .run _ | .call _ => false

/-- Such an event may happen. -/
theorem CpuOp.fits_allowed {c : Computer Unit} {op : CpuOp Unit} (h : op.fits c = true)
    (c' : Computer Unit) : op.Allowed c c' := by
  cases op with
  | run r => exact absurd h (by simp [CpuOp.fits])
  | call o => exact absurd h (by simp [CpuOp.fits])
  | interrupt base num handler back =>
    intro s hs hu
    simpa [CpuOp.fits, hs, hu] using h
  | finish => trivial
  | schedule => trivial

/-- Run such events, while `s` is not back inside `n` handlers. -/
def runAway (s : Slot) (n : Nat) : List (CpuOp Unit) → Computer Unit → Option (Computer Unit)
  | [], c => some c
  | op :: ops, c => if op.fits c && !decide (c.At s n) then op.exec c >>= runAway s n ops else none

/-- Such events are a run. -/
theorem run_of_runAway {s : Slot} {n : Nat} {ops : List (CpuOp Unit)} {c c' : Computer Unit}
    (h : runAway s n ops c = some c') :
    Run (fun c op c' => CpuStep c op c' ∧ ¬ c.At s n) c ops c' := by
  induction ops generalizing c with
  | nil =>
    obtain rfl := Option.some.inj h
    exact .start
  | cons op ops ih =>
    unfold runAway at h
    split at h
    · rename_i hok
      simp only [Bool.and_eq_true, Bool.not_eq_true', decide_eq_false_iff_not] at hok
      obtain ⟨c₁, hex, hrest⟩ := Option.bind_eq_some_iff.mp h
      have hstep : CpuStep c op c₁ := ⟨hex, CpuOp.fits_allowed hok.1 c₁⟩
      have hfirst : Run (fun c op c' => CpuStep c op c' ∧ ¬ c.At s n) c ([] ++ [op]) c₁ :=
        Run.start.next ⟨hstep, hok.2⟩
      exact hfirst.append (ih hrest)
    · exact absurd h (by simp)

/-- The words of a list, tested one by one. -/
theorem words_of_test {mem : Mem} {a : BitVec 32} {ws : List (BitVec 32)}
    (h : ∀ i : Fin ws.length, read32 mem (a + BitVec.ofNat 32 (4 * i.val)) = ws.get i) :
    Words mem a ws := by
  intro i w hw
  obtain ⟨hi, rfl⟩ := List.getElem?_eq_some_iff.mp hw
  exact h ⟨i, hi⟩

/-- It is a computer that boot can leave. -/
theorem started_demoComputer : Started 0xe0100400#32 demoComputer := by
  refine ⟨⟨4, by decide, by decide, rfl, ⟨3, by decide, rfl⟩, ?_, ?_, rfl⟩, fun _ _ => rfl,
    ⟨?_, ?_, ?_⟩, ?_, ?_, ?_, ?_⟩
  · decide
  · decide
  · decide
  · decide
  · decide
  · intro s hs
    obtain rfl := Option.some.inj hs
    rfl
  · -- user code
    exact fun s _ => ⟨by decide, fun _ => rfl, fun h => absurd h (by decide),
      fun h => absurd h (by decide)⟩
  · have htest : ∀ s, demoComputer.handlers s = bootFrames demoComputer.kernel s := by
      decide +kernel
    exact funext htest
  · intro s hs hcur
    apply words_of_test
    revert s
    decide +kernel

/-- The timer of the small system. -/
def demoTick : CpuOp Unit := .interrupt 0xe0100500#32 32#32 0xe0100600#32 0xe0100520#32

/-- A process of the small system in its first timer interrupt. -/
def demoTicked (s : Slot) : Computer Unit :=
  demoComputer.enterHandler s 0xe0100500#32 32#32 0xe0100600#32 0xe0100520#32

/-- The tick may happen. -/
theorem demoTick_step : CpuStep demoComputer demoTick (demoTicked 3) :=
  ⟨rfl, CpuOp.fits_allowed rfl _⟩

/-- A timer interrupt in the small system, and the start of another process. -/
theorem computer_refines_demo : ∃ (c : Computer Unit) (moves : List (Move Slot Regs))
    (a : Contexts Slot Regs), List.Forall₂ Moves [demoTick, .schedule] moves ∧
      Run Step (bootContexts 0xe0100400#32 demoComputer 3) moves a ∧ Represents c a := by
  have htest : (CpuOp.exec .schedule (demoTicked 3)).isSome = true := by decide +kernel
  obtain ⟨c, hex⟩ := Option.isSome_iff_exists.mp htest
  have hrun : Run CpuStep demoComputer ([] ++ [demoTick] ++ [.schedule]) c :=
    (Run.start.next demoTick_step).next ⟨hex, trivial⟩
  exact ⟨c, computer_refines started_demoComputer rfl hrun⟩

/-- Three timer interrupts in the small system, each one followed by a decision of the scheduler:
    the third one resumes process 3, in user mode, with its own stack pointer. -/
theorem resumes_where_it_was_demo : ∃ (c : Computer Unit) (tr : List (CpuOp Unit)),
    CpuStep demoComputer demoTick (demoTicked 3) ∧
      Run (fun c' op c'' => CpuStep c' op c'' ∧ ¬ c'.At 3 0) (demoTicked 3) tr c ∧
      tr.length = 5 ∧ c.At 3 0 ∧ c.regs = demoComputer.regs := by
  have htest :
      ((runAway 3 0 [.schedule, demoTick, .schedule, demoTick, .schedule] (demoTicked 3)).map
      fun c => decide (c.At 3 0)) = some true := by
    decide +kernel
  obtain ⟨c, hrun, hat⟩ := Option.map_eq_some_iff.mp htest
  rw [decide_eq_true_eq] at hat
  have hrest := run_of_runAway hrun
  exact ⟨c, _, demoTick_step, hrest, rfl, hat,
    resumes_where_it_was started_demoComputer .start rfl demoTick_step hrest hat⟩

end Leoman
