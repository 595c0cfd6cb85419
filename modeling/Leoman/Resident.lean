import Leoman.ContextSwitch

namespace Leoman

open ByteMem StateExcept Runs

/-!
# Every process in its own address space (`kernel/idt.c`, `kernel/msg_dispatcher.c`)

`cr3` is loaded in four places: by the scheduler, around a forwarded interrupt handler, and in two
branches of the dispatcher, the process that serves requests to the kernel.  The dispatcher runs
with interrupts on, so its branches are sequences of statements with interrupts in between.

* `irqHandler` — `irq_handler`, with the table of handlers;
* `Stmt`, `forwardingBranch`, `mapMemoryBranch` — the two branches, statement by statement;
* `Closes` — a discipline for statement sequences: `cr3` is lent out only with scheduling
  disabled, and given back before it is enabled again;
* `resident` — in every run `cr3` and `tss.esp0` are those of the running process whenever
  control is back in it.
-/

/-! ### Interrupts -/

/-- What an entry of `irq_handlers` may call: the timer, or code of a process or a driver. -/
inductive IrqHandler (τ : Type) where
  | timer
  | forwarded (code : BitVec 32 → Code Trap (Machine τ) (BitVec 32))

/-- `struct irq_handler_entry`. -/
structure IrqHandlerEntry (τ : Type) where
  handler : Option (IrqHandler τ)
  pdir : BitVec 32

/-- The code returns its argument and does not load `cr3`. -/
def ReturnsArgument {τ : Type} (code : BitVec 32 → Code Trap (Machine τ) (BitVec 32)) : Prop :=
  ∀ regs m ret m', code regs m = .ok (ret, m') → ret = regs ∧ m'.cr3 = m.cr3

/-- The timer is installed without a directory, and everything else returns its argument. -/
def Orderly {τ : Type} (handlers : Nat → IrqHandlerEntry τ) : Prop :=
  ∀ i, ((handlers i).handler = some .timer → (handlers i).pdir = 0#32) ∧
    ∀ code, (handlers i).handler = some (.forwarded code) → ReturnsArgument code

section Code

variable {τ : Type} [Tlb τ]

/-- Call a handler. -/
def IrqHandler.call : IrqHandler τ → BitVec 32 → Code Trap (Kernel τ) (BitVec 32)
  | .timer, regs => timerHandler regs
  | .forwarded code, regs => onMach (code regs)

/-- `irq_handler` for the interrupt `num`, less the acknowledgement to the controllers. -/
def irqHandler (handlers : Nat → IrqHandlerEntry τ) (num : Nat) (regs : BitVec 32) :
    Code Trap (Kernel τ) (BitVec 32) := do
  if 32 ≤ num ∧ num < 48 then
    match (handlers (num - 32)).handler with
    | some handler => do
      let pdir := (handlers (num - 32)).pdir
      let savedPdir := (← get).mach.cr3
      -- switch to the interrupt handlers address space
      onlyIf (pdir ≠ 0#32) (onMach (setCr3 pdir))
      let ret ← handler.call regs
      -- restore the original address space
      onlyIf (pdir ≠ 0#32) (onMach (setCr3 savedPdir))
      return ret
    | none => do
      -- an upper case Q on red background
      onMach (store8 0xb8002#32 0x51#8)
      onMach (store8 0xb8003#32 0xc0#8)
      return regs
  else return regs

/-! ### The dispatcher -/

/-- A statement of the two branches.  `sender` is the process that made the request. -/
inductive Stmt (τ : Type) where
  | disableScheduling
  | enableScheduling
  | saveCr3
  | restoreCr3
  | loadSenderCr3 (sender : Option Slot)
  | loadOwnCr3
  | physMapping (virt : BitVec 32)
  | installHandler (which : BitVec 32) (handler : Option (IrqHandler τ)) (sender : Option Slot)
  | mapPages (paddr length : BitVec 32)

/-- `MSG_REQUEST_INTERRUPT_FORWARDING`; `code` is the code at `virt`. -/
def forwardingBranch (sender : Option Slot) (which virt : BitVec 32)
    (code : BitVec 32 → Code Trap (Machine τ) (BitVec 32)) : List (Stmt τ) :=
  [.disableScheduling, .saveCr3, .loadSenderCr3 sender, .physMapping virt, .restoreCr3,
    .installHandler which (if virt = 0#32 then none else some (.forwarded code)) sender,
    .enableScheduling]

/-- `MSG_MAP_MEMORY`. -/
def mapMemoryBranch (sender : Option Slot) (paddr length : BitVec 32) : List (Stmt τ) :=
  [.disableScheduling, .loadSenderCr3 sender, .mapPages paddr length, .loadOwnCr3,
    .enableScheduling]

/-- The kernel with the table of interrupt handlers, and what is left of the dispatcher's branch
    and of its local `save_curr_cr3`. -/
structure System (τ : Type) where
  kernel : Kernel τ
  irqHandlers : Nat → IrqHandlerEntry τ
  branch : List (Stmt τ)
  saveCurrCr3 : BitVec 32

/-- Run code on the kernel. -/
def onKernel {α : Type} (x : Code Trap (Kernel τ) α) : Code Trap (System τ) α :=
  zoom System.kernel (fun s k => { s with kernel := k }) x

/-- `sender->pdir`.  Without a sender that is the word at the offset of `pdir` from `NULL`. -/
def senderPdir (sender : Option Slot) : Code Trap (Kernel τ) (BitVec 32) :=
  match sender with
  | none => onMach (load32 64#32)
  | some s => do return ((← get).procs s).pdir

/-- `irq_install_handler`.  A negative number is below 16 too, and stores before the table: the
    code has no meaning from there on. -/
def irqInstallHandler (num : BitVec 32) (entry : IrqHandlerEntry τ) :
    Code Trap (System τ) Unit :=
  onlyIf (num.toInt < 16) do
    if num.toInt < 0 then trap .halt
    else modify fun s =>
      { s with irqHandlers := Function.update s.irqHandlers num.toNat entry }

/-- Run a statement. -/
def Stmt.exec : Stmt τ → Code Trap (System τ) Unit
  | .disableScheduling => onKernel procDisableScheduling
  | .enableScheduling => onKernel procEnableScheduling
  | .saveCr3 => modify fun s => { s with saveCurrCr3 := s.kernel.mach.cr3 }
  | .restoreCr3 => do
    let saved := (← get).saveCurrCr3
    onKernel (onMach (setCr3 saved))
  | .loadSenderCr3 sender => onKernel do
    let pdir ← senderPdir sender
    onMach (setCr3 pdir)
  | .loadOwnCr3 => onKernel do
    let c ← currentSlot
    let pdir := ((← get).procs c).pdir
    onMach (setCr3 pdir)
  | .physMapping virt => onKernel do
    let _ ← onMach (vmGetPhysMapping virt)
    return ()
  | .installHandler which handler sender => do
    let pdir ← onKernel (senderPdir sender)
    irqInstallHandler which ⟨handler, pdir⟩
  | .mapPages paddr length =>
    onKernel (onMach (Leoman.mapPages paddr 0x10000000#32 pteU length))

end Code

/-! ### The discipline of a branch -/

section Discipline

variable {τ : Type}

/-- The rest of a branch is in order when it starts with scheduling disabled (`locked`), another
    directory loaded (`lent`), and the own one saved (`saved`): another directory is loaded only
    under disabled scheduling, and the own one is back before scheduling is enabled or the branch
    ends. -/
def Closes : List (Stmt τ) → (locked lent saved : Bool) → Prop
  | [], locked, lent, _ => locked = false ∧ lent = false
  | .disableScheduling :: b, _, lent, saved => Closes b true lent saved
  | .enableScheduling :: b, _, lent, saved => lent = false ∧ Closes b false lent saved
  | .saveCr3 :: b, locked, lent, _ => Closes b locked lent (!lent)
  | .restoreCr3 :: b, locked, _, saved => saved = true ∧ Closes b locked false saved
  | .loadSenderCr3 _ :: b, locked, _, saved => locked = true ∧ Closes b locked true saved
  | .loadOwnCr3 :: b, locked, _, saved => Closes b locked false saved
  | .physMapping _ :: b, locked, lent, saved => Closes b locked lent saved
  | .installHandler _ _ _ :: b, locked, lent, saved => Closes b locked lent saved
  | .mapPages _ _ :: b, locked, lent, saved => Closes b locked lent saved

/-- The handlers a branch installs return their argument. -/
def InstallsOrderly (b : List (Stmt τ)) : Prop :=
  ∀ which handler sender, Stmt.installHandler which handler sender ∈ b →
    handler ≠ some .timer ∧ ∀ code, handler = some (.forwarded code) → ReturnsArgument code

theorem closes_forwardingBranch (sender : Option Slot) (which virt : BitVec 32)
    (code : BitVec 32 → Code Trap (Machine τ) (BitVec 32)) :
    Closes (forwardingBranch sender which virt code) false false false := by
  simp [forwardingBranch, Closes]

theorem closes_mapMemoryBranch (sender : Option Slot) (paddr length : BitVec 32) :
    Closes (mapMemoryBranch (τ := τ) sender paddr length) false false false := by
  simp [mapMemoryBranch, Closes]

end Discipline

/-! ### Events -/

section Events

variable {τ : Type} [Tlb τ]

/-- An event.  `other` is what a process does to memory between two others. -/
inductive SystemOp (τ : Type) where
  | irq (num : Nat) (frame : BitVec 32)
  | int127 (frame : BitVec 32)
  | send (msg frame : BitVec 32)
  | recv (msg frame : BitVec 32)
  | reply (msg frame : BitVec 32)
  | forwarding (sender : Option Slot) (which virt : BitVec 32)
      (code : BitVec 32 → Code Trap (Machine τ) (BitVec 32))
  | mapMemory (sender : Option Slot) (paddr length : BitVec 32)
  | stmt
  | other (mach : Machine τ)

/-- Run an event: a request enters its branch, and `stmt` runs the next statement of it. -/
def SystemOp.exec : SystemOp τ → Code Trap (System τ) Unit
  | .irq num frame => do
    let handlers := (← get).irqHandlers
    let _ ← onKernel (irqHandler handlers num frame)
    return ()
  | .int127 frame => onKernel (procScheduleWithoutIrq frame)
  | .send msg frame => onKernel (syscallSendMsg msg frame)
  | .recv msg frame => onKernel (syscallRecvMsg msg frame)
  | .reply msg frame => onKernel (syscallRplyMsg msg frame)
  | .forwarding sender which virt code =>
    modify fun s => { s with branch := forwardingBranch sender which virt code }
  | .mapMemory sender paddr length =>
    modify fun s => { s with branch := mapMemoryBranch sender paddr length }
  | .stmt => do
    match (← get).branch with
    | [] => pure ()
    | st :: rest => do
      modify fun s => { s with branch := rest }
      st.exec
  | .other mach => modify fun s => { s with kernel := { s.kernel with mach := mach } }

/-- When an event may happen, with the dispatcher in slot `d`: interrupts at any time, what the
    running process does when it is not the dispatcher in the middle of a branch, and the
    statements of a branch when the dispatcher runs.  Forwarded handlers return their argument,
    and processes do not load `cr3`. -/
def SystemOp.May (d : Slot) (s : System τ) : SystemOp τ → Prop
  | .irq _ _ => True
  | .int127 _ | .send _ _ | .recv _ _ | .reply _ _ => s.kernel.currentProc = some d → s.branch = []
  | .forwarding _ _ _ code =>
    s.kernel.currentProc = some d ∧ s.branch = [] ∧ ReturnsArgument code
  | .mapMemory _ _ _ => s.kernel.currentProc = some d ∧ s.branch = []
  | .stmt => s.kernel.currentProc = some d
  | .other mach => mach.cr3 = s.kernel.mach.cr3

/-- A step. -/
def SystemStep (d : Slot) (s : System τ) (op : SystemOp τ) (s' : System τ) : Prop :=
  op.May d s ∧ op.exec s = .ok ((), s')

/-! ### Residence -/

/-- `cr3` is the directory of the running process. -/
def OwnSpace (k : Kernel τ) : Prop := ∀ c, k.currentProc = some c → k.mach.cr3 = (k.procs c).pdir

/-- `tss.esp0` is the kernel stack of the running process. -/
def OwnStack (k : Kernel τ) : Prop := ∀ c, k.currentProc = some c → k.tssEsp0 = (k.procs c).kstack

variable {k k' : Kernel τ} {frame ret : BitVec 32} {d c : Slot}

omit [Tlb τ] in
/-- What moves nobody leaves the running process in its space and on its stack. -/
theorem OwnSpace.of_placement (h : OwnSpace k) (hp : k'.placement = k.placement) :
    OwnSpace k' := by
  intro c hc
  have hcur : k'.currentProc = k.currentProc := congrArg Placement.current hp
  have hcr3 : k'.mach.cr3 = k.mach.cr3 := congrArg Placement.cr3 hp
  have hpdir : (k'.procs c).pdir = (k.procs c).pdir := congrFun (congrArg Placement.pdir hp) c
  rw [hcr3, hpdir]
  exact h c (hcur.symm.trans hc)

omit [Tlb τ] in
theorem OwnStack.of_placement (h : OwnStack k) (hp : k'.placement = k.placement) :
    OwnStack k' := by
  intro c hc
  have hcur : k'.currentProc = k.currentProc := congrArg Placement.current hp
  have htss : k'.tssEsp0 = k.tssEsp0 := congrArg Placement.tssEsp0 hp
  have hstack : (k'.procs c).kstack = (k.procs c).kstack :=
    congrFun (congrArg Placement.kstack hp) c
  rw [htss, hstack]
  exact h c (hcur.symm.trans hc)

/-- Directories stay where they are, and somebody runs. -/
structure Fixed (k k' : Kernel τ) : Prop where
  pdir : ∀ s, (k'.procs s).pdir = (k.procs s).pdir
  current : (∃ c, k.currentProc = some c) → ∃ c, k'.currentProc = some c

/-- **A scheduling decision** loads the space and the stack of whoever it picks. -/
theorem Switch.own_context {next : Slot} (hspace : OwnSpace k) (hstack : OwnStack k)
    (hc : k.currentProc = some c) (h : Switch k c next frame ret k') :
    OwnSpace k' ∧ OwnStack k' ∧ Fixed k k' := by
  obtain ⟨t, -, hprocs⟩ := h.procs
  have hf : ∀ s, (k'.procs s).pdir = (k.procs s).pdir ∧
      (k'.procs s).kstack = (k.procs s).kstack := by
    intro s
    rw [hprocs]
    exact k.suspend_fields c frame _ s
  refine ⟨fun e he => ?_, fun e he => ?_, ⟨fun s => (hf s).1, fun _ => ⟨next, h.current⟩⟩⟩
  · obtain rfl : next = e := Option.some.inj (h.current.symm.trans he)
    rw [(hf next).1]
    by_cases hn : next = c
    · rw [(h.stay hn).2.1, hn]
      exact hspace c hc
    · rw [(h.away hn).2.2]
  · obtain rfl : next = e := Option.some.inj (h.current.symm.trans he)
    rw [(hf next).2]
    by_cases hn : next = c
    · rw [(h.stay hn).2.2, hn]
      exact hstack c hc
    · rw [(h.away hn).2.1]

theorem procScheduleAfterIrq_resident (hspace : OwnSpace k) (hstack : OwnStack k)
    (h : procScheduleAfterIrq frame k = .ok (ret, k')) :
    OwnSpace k' ∧ OwnStack k' ∧ Fixed k k' := by
  rcases procScheduleAfterIrq_cases h with ⟨-, -, rfl⟩ | ⟨-, c, next, hc, hsw⟩
  · exact ⟨hspace, hstack, fun _ => rfl, id⟩
  · exact hsw.own_context hspace hstack hc

omit [Tlb τ] in
theorem Fixed.of_placement (hp : k'.placement = k.placement) : Fixed k k' := by
  refine ⟨fun s => congrFun (congrArg Placement.pdir hp) s, fun hc => ?_⟩
  rw [show k'.currentProc = k.currentProc from congrArg Placement.current hp]
  exact hc

omit [Tlb τ] in
theorem Fixed.trans {k'' : Kernel τ} (h : Fixed k k') (h' : Fixed k' k'') : Fixed k k'' :=
  ⟨fun s => (h'.pdir s).trans (h.pdir s), fun hc => h'.current (h.current hc)⟩

/-- A body that moves nobody, and an `int $0x7f`. -/
theorem call_resident {α : Type} {body : Code Trap (Kernel τ) α} {p : α → Prop}
    [DecidablePred p] (hbody : Preserves Kernel.placement body) (hspace : OwnSpace k)
    (hstack : OwnStack k)
    (h : (do let a ← body; if p a then procScheduleWithoutIrq frame else pure ()) k
      = .ok ((), k')) : OwnSpace k' ∧ OwnStack k' ∧ Fixed k k' := by
  obtain ⟨a, k₁, h₁, h₂⟩ := bind_ok_iff.mp h
  have hp := hbody _ _ _ h₁
  split at h₂
  · obtain ⟨ret, k₂, h₃, h₄⟩ := bind_ok_iff.mp h₂
    obtain ⟨-, rfl⟩ := Prod.mk.inj (Except.ok.inj h₄)
    obtain ⟨hs, ht, hf⟩ :=
      procScheduleAfterIrq_resident (hspace.of_placement hp) (hstack.of_placement hp) h₃
    exact ⟨hs, ht, (Fixed.of_placement hp).trans hf⟩
  · obtain ⟨-, rfl⟩ := Prod.mk.inj (Except.ok.inj h₂)
    exact ⟨hspace.of_placement hp, hstack.of_placement hp, Fixed.of_placement hp⟩

/-- **`irq_handler`** calls the scheduler, or leaves everything but memory as it was. -/
theorem irqHandler_cases {handlers : Nat → IrqHandlerEntry τ} (ho : Orderly handlers) {num : Nat}
    (h : irqHandler handlers num frame k = .ok (ret, k')) :
    procScheduleAfterIrq frame k = .ok (ret, k') ∨
      ret = frame ∧ ∃ mach : Machine τ, mach.cr3 = k.mach.cr3 ∧ k' = { k with mach := mach } := by
  unfold irqHandler at h
  split at h
  · cases hh : (handlers (num - 32)).handler with
    | none =>
      simp only [hh] at h
      obtain ⟨_, k₁, h₁, h⟩ := bind_ok_iff.mp h
      obtain ⟨_, k₂, h₂, h⟩ := bind_ok_iff.mp h
      obtain ⟨m₁, hm₁, rfl⟩ := onMach_ok_iff.mp h₁
      obtain ⟨m₂, hm₂, rfl⟩ := onMach_ok_iff.mp h₂
      obtain ⟨rfl, rfl⟩ := Prod.mk.inj (Except.ok.inj h)
      exact Or.inr ⟨rfl, m₂, (store8_cr3 _ _ _ _ _ hm₂).trans (store8_cr3 _ _ _ _ _ hm₁), rfl⟩
    | some handler =>
      simp only [hh] at h
      rw [run_bind_of_ok (run_get k)] at h
      obtain ⟨_, k₁, h₁, h⟩ := bind_ok_iff.mp h
      obtain ⟨ret', k₂, h₂, h⟩ := bind_ok_iff.mp h
      obtain ⟨_, k₃, h₃, h⟩ := bind_ok_iff.mp h
      obtain ⟨rfl, rfl⟩ := Prod.mk.inj (Except.ok.inj h)
      cases handler with
      | timer =>
        -- no directory is loaded around the timer
        have h0 := (ho (num - 32)).1 hh
        rcases onlyIf_ok h₁ with ⟨hne, -⟩ | ⟨-, rfl⟩
        · exact absurd h0 hne
        rcases onlyIf_ok h₃ with ⟨hne, -⟩ | ⟨-, rfl⟩
        · exact absurd h0 hne
        exact Or.inl h₂
      | forwarded code =>
        have hcode := (ho (num - 32)).2 code hh
        obtain ⟨m₂, hm₂, rfl⟩ := onMach_ok_iff.mp h₂
        obtain ⟨hret, hcr3⟩ := hcode _ _ _ _ hm₂
        refine Or.inr ⟨hret, ?_⟩
        rcases onlyIf_ok h₁ with ⟨hne, h₁⟩ | ⟨heq, rfl⟩
        · rcases onlyIf_ok h₃ with ⟨-, h₃⟩ | ⟨heq, -⟩
          · obtain ⟨m₁, -, rfl⟩ := onMach_ok_iff.mp h₁
            obtain ⟨m₃, hm₃, rfl⟩ := onMach_ok_iff.mp h₃
            obtain ⟨-, rfl⟩ := Prod.mk.inj (Except.ok.inj hm₃)
            exact ⟨{ m₂ with cr3 := k.mach.cr3, tlb := Tlb.flush m₂.tlb }, rfl, rfl⟩
          · exact absurd hne heq
        · rcases onlyIf_ok h₃ with ⟨hne, -⟩ | ⟨-, rfl⟩
          · exact absurd hne heq
          · exact ⟨m₂, hcr3, rfl⟩
  · obtain ⟨rfl, rfl⟩ := Prod.mk.inj (Except.ok.inj h)
    exact Or.inr ⟨rfl, k.mach, rfl, rfl⟩

/-! ### The invariant -/

/-- Where the dispatcher is in its branch, and what that means for `cr3`. -/
structure Phase (d : Slot) (s : System τ) (locked lent saved : Bool) : Prop where
  closes : Closes s.branch locked lent saved
  disabled : locked = true → s.kernel.schedulingEnabled = false ∧ s.kernel.currentProc = some d
  locked_of_lent : lent = true → locked = true
  space : lent = false → OwnSpace s.kernel
  own : saved = true → s.saveCurrCr3 = (s.kernel.procs d).pdir

/-- What every run keeps. -/
structure Orderliness (d : Slot) (s : System τ) : Prop where
  stack : OwnStack s.kernel
  current : ∃ c, s.kernel.currentProc = some c
  handlers : Orderly s.irqHandlers
  installs : InstallsOrderly s.branch
  phase : ∃ locked lent saved, Phase d s locked lent saved

variable {s s' : System τ}

omit [Tlb τ] in
/-- What the running process does outside a branch, it does in its own space. -/
theorem Orderliness.outside (h : Orderliness d s)
    (hout : s.kernel.currentProc = some d → s.branch = []) :
    OwnSpace s.kernel ∧ ∃ saved, Phase d s false false saved := by
  obtain ⟨locked, lent, saved, hp⟩ := h.phase
  obtain rfl : locked = false := by
    by_contra hl
    obtain ⟨-, hc⟩ := hp.disabled (by simpa using hl)
    have hcl := hp.closes
    rw [hout hc] at hcl
    exact hl hcl.1
  obtain rfl : lent = false := by
    by_contra hl
    exact absurd (hp.locked_of_lent (by simpa using hl)) (by decide)
  exact ⟨hp.space rfl, saved, hp⟩

omit [Tlb τ] in
/-- A kernel step that keeps the running process in its space, outside a branch. -/
theorem Orderliness.of_kernel (h : Orderliness d s) {saved : Bool}
    (hp : Phase d s false false saved) (hk : OwnSpace k' ∧ OwnStack k' ∧ Fixed s.kernel k') :
    Orderliness d { s with kernel := k' } := by
  obtain ⟨hspace, hstack, hf⟩ := hk
  refine ⟨hstack, hf.current h.current, h.handlers, h.installs, false, false, saved,
    ⟨hp.closes, fun hl => absurd hl (by decide), fun hl => absurd hl (by decide), fun _ => hspace,
      fun hs => ?_⟩⟩
  rw [hp.own hs]
  exact (hf.pdir d).symm

omit [Tlb τ] in
/-- Memory may change at any time. -/
theorem Orderliness.of_mach (h : Orderliness d s) {mach : Machine τ}
    (hcr3 : mach.cr3 = s.kernel.mach.cr3) :
    Orderliness d { s with kernel := { s.kernel with mach := mach } } := by
  obtain ⟨locked, lent, saved, hp⟩ := h.phase
  refine ⟨h.stack, h.current, h.handlers, h.installs, locked, lent, saved,
    ⟨hp.closes, hp.disabled, hp.locked_of_lent, fun hl c hc => ?_, hp.own⟩⟩
  exact hcr3.trans (hp.space hl c hc)

/-- A scheduling decision may come at any time: in a branch it changes nothing. -/
theorem Orderliness.schedule (h : Orderliness d s)
    (hrun : procScheduleAfterIrq frame s.kernel = .ok (ret, k')) :
    Orderliness d { s with kernel := k' } := by
  obtain ⟨locked, lent, saved, hp⟩ := h.phase
  cases locked with
  | true =>
    rcases procScheduleAfterIrq_cases hrun with ⟨-, -, rfl⟩ | ⟨hon, -⟩
    · exact h
    · exact absurd ((hp.disabled rfl).1.symm.trans hon) (by decide)
  | false =>
    obtain rfl : lent = false := by
      by_contra hl
      exact absurd (hp.locked_of_lent (by simpa using hl)) (by decide)
    exact h.of_kernel hp (procScheduleAfterIrq_resident (hp.space rfl) h.stack hrun)

/-- **An interrupt.** -/
theorem Orderliness.irq (h : Orderliness d s) {num : Nat}
    (hrun : irqHandler s.irqHandlers num frame s.kernel = .ok (ret, k')) :
    Orderliness d { s with kernel := k' } := by
  rcases irqHandler_cases h.handlers hrun with hsched | ⟨-, mach, hcr3, rfl⟩
  · exact h.schedule hsched
  · exact h.of_mach hcr3

/-! ### Statements -/

omit [Tlb τ] in
theorem onKernel_ok_iff {α : Type} {x : Code Trap (Kernel τ) α} {a : α} :
    onKernel x s = .ok (a, s') ↔ ∃ k', x s.kernel = .ok (a, k') ∧ s' = { s with kernel := k' } :=
  zoom_ok_iff

/-- Reading `sender->pdir` touches nothing but the TLB. -/
theorem senderPdir_ok {sender : Option Slot} {pdir : BitVec 32}
    (h : senderPdir sender k = .ok (pdir, k')) :
    ∃ mach : Machine τ, mach.cr3 = k.mach.cr3 ∧ k' = { k with mach := mach } := by
  cases sender with
  | none =>
    obtain ⟨m, hm, rfl⟩ := onMach_ok_iff.mp h
    exact ⟨m, load32_cr3 _ _ _ _ hm, rfl⟩
  | some p =>
    obtain ⟨-, rfl⟩ := Prod.mk.inj (Except.ok.inj h)
    exact ⟨k.mach, rfl, rfl⟩

omit [Tlb τ] in
/-- Installing a handler that returns its argument keeps the table orderly. -/
theorem irqInstallHandler_ok {num pdir : BitVec 32} {handler : Option (IrqHandler τ)}
    (ho : Orderly s.irqHandlers) (htimer : handler ≠ some .timer)
    (hcode : ∀ code, handler = some (.forwarded code) → ReturnsArgument code)
    (h : irqInstallHandler num ⟨handler, pdir⟩ s = .ok ((), s')) :
    ∃ handlers, Orderly handlers ∧ s' = { s with irqHandlers := handlers } := by
  rcases onlyIf_ok h with ⟨-, h⟩ | ⟨-, rfl⟩
  · split at h
    · exact absurd h (by simp)
    · obtain ⟨-, rfl⟩ := Prod.mk.inj (Except.ok.inj h)
      refine ⟨_, fun i => ?_, rfl⟩
      by_cases hi : i = num.toNat
      · subst hi
        simp only [Function.update_self]
        exact ⟨fun ht => absurd ht htimer, hcode⟩
      · simp only [Function.update_of_ne hi]
        exact ho i
  · exact ⟨s'.irqHandlers, ho, rfl⟩

/-- **A statement** of a branch that closes leaves the rest of the branch one that does. -/
theorem Orderliness.stmt (h : Orderliness d s) (hcur : s.kernel.currentProc = some d)
    {st : Stmt τ} {rest : List (Stmt τ)} (hb : s.branch = st :: rest)
    (hrun : st.exec { s with branch := rest } = .ok ((), s')) : Orderliness d s' := by
  obtain ⟨locked, lent, saved, hp⟩ := h.phase
  have hcl := hp.closes
  rw [hb] at hcl
  have hin : InstallsOrderly rest := fun which handler sender hmem =>
    h.installs which handler sender (hb ▸ List.mem_cons_of_mem _ hmem)
  -- a statement that has no say in the discipline
  have hskip : Closes rest locked lent saved → Orderliness d { s with branch := rest } := fun hcl =>
    ⟨h.stack, h.current, h.handlers, hin, locked, lent, saved,
      ⟨hcl, hp.disabled, hp.locked_of_lent, hp.space, hp.own⟩⟩
  cases st with
  | disableScheduling =>
    obtain ⟨k', hk, rfl⟩ := onKernel_ok_iff.mp hrun
    obtain ⟨-, rfl⟩ := Prod.mk.inj (Except.ok.inj hk)
    exact ⟨h.stack, h.current, h.handlers, hin, true, lent, saved,
      ⟨hcl, fun _ => ⟨rfl, hcur⟩, fun _ => rfl, hp.space, hp.own⟩⟩
  | enableScheduling =>
    obtain ⟨k', hk, rfl⟩ := onKernel_ok_iff.mp hrun
    obtain ⟨-, rfl⟩ := Prod.mk.inj (Except.ok.inj hk)
    exact ⟨h.stack, h.current, h.handlers, hin, false, lent, saved,
      ⟨hcl.2, fun hl => absurd hl (by decide), fun hl => absurd (hl.symm.trans hcl.1) (by decide),
        hp.space, hp.own⟩⟩
  | saveCr3 =>
    obtain ⟨-, rfl⟩ := Prod.mk.inj (Except.ok.inj hrun)
    refine ⟨h.stack, h.current, h.handlers, hin, locked, lent, !lent,
      ⟨hcl, hp.disabled, hp.locked_of_lent, hp.space, fun hs => ?_⟩⟩
    exact hp.space (by simpa using hs) d hcur
  | restoreCr3 =>
    rw [Stmt.exec, run_bind_of_ok (run_get _)] at hrun
    obtain ⟨k', hk, rfl⟩ := onKernel_ok_iff.mp hrun
    obtain ⟨m, hm, rfl⟩ := onMach_ok_iff.mp hk
    obtain ⟨-, rfl⟩ := Prod.mk.inj (Except.ok.inj hm)
    refine ⟨h.stack, h.current, h.handlers, hin, locked, false, saved,
      ⟨hcl.2, hp.disabled, fun hl => absurd hl (by decide), fun _ c hc => ?_, hp.own⟩⟩
    -- the directory given back is the dispatcher's own
    obtain rfl : d = c := Option.some.inj (hcur.symm.trans hc)
    exact hp.own hcl.1
  | loadSenderCr3 sender =>
    obtain ⟨k', hk, rfl⟩ := onKernel_ok_iff.mp hrun
    obtain ⟨pdir, k₁, hk₁, hk₂⟩ := bind_ok_iff.mp hk
    obtain ⟨mach, -, rfl⟩ := senderPdir_ok hk₁
    obtain ⟨m, -, rfl⟩ := onMach_ok_iff.mp hk₂
    exact ⟨h.stack, h.current, h.handlers, hin, locked, true, saved,
      ⟨hcl.2, hp.disabled, fun _ => hcl.1, fun hl => absurd hl (by decide), hp.own⟩⟩
  | loadOwnCr3 =>
    obtain ⟨k', hk, rfl⟩ := onKernel_ok_iff.mp hrun
    obtain ⟨c, k₁, hk₁, hk₂⟩ := bind_ok_iff.mp hk
    obtain ⟨hc, rfl⟩ := currentSlot_ok hk₁
    rw [run_bind_of_ok (run_get _)] at hk₂
    obtain ⟨m, hm, rfl⟩ := onMach_ok_iff.mp hk₂
    obtain ⟨-, rfl⟩ := Prod.mk.inj (Except.ok.inj hm)
    refine ⟨h.stack, h.current, h.handlers, hin, locked, false, saved,
      ⟨hcl, hp.disabled, fun hl => absurd hl (by decide), fun _ e he => ?_, hp.own⟩⟩
    obtain rfl : c = e := Option.some.inj (hc.symm.trans he)
    rfl
  | physMapping virt =>
    obtain ⟨k', hk, rfl⟩ := onKernel_ok_iff.mp hrun
    obtain ⟨_, k₁, hk₁, hk₂⟩ := bind_ok_iff.mp hk
    obtain ⟨-, rfl⟩ := Prod.mk.inj (Except.ok.inj hk₂)
    obtain ⟨m, hm, rfl⟩ := onMach_ok_iff.mp hk₁
    exact (hskip hcl).of_mach (vmGetPhysMapping_cr3 _ _ _ _ hm)
  | installHandler which handler sender =>
    obtain ⟨pdir, s₁, hs₁, hs₂⟩ := bind_ok_iff.mp hrun
    obtain ⟨k', hk, rfl⟩ := onKernel_ok_iff.mp hs₁
    obtain ⟨mach, hcr3, rfl⟩ := senderPdir_ok hk
    have hm := (hskip hcl).of_mach hcr3
    obtain ⟨htimer, hcode⟩ := h.installs which handler sender (by rw [hb]; exact List.mem_cons_self)
    obtain ⟨handlers, ho, rfl⟩ := irqInstallHandler_ok hm.handlers htimer hcode hs₂
    obtain ⟨locked', lent', saved', hp'⟩ := hm.phase
    exact ⟨hm.stack, hm.current, ho, hm.installs, locked', lent', saved',
      ⟨hp'.closes, hp'.disabled, hp'.locked_of_lent, hp'.space, hp'.own⟩⟩
  | mapPages paddr length =>
    obtain ⟨k', hk, rfl⟩ := onKernel_ok_iff.mp hrun
    obtain ⟨m, hm, rfl⟩ := onMach_ok_iff.mp hk
    exact (hskip hcl).of_mach (mapPages_cr3 _ _ _ _ _ _ _ hm)

/-! ### Runs -/

omit [Tlb τ] in
/-- The dispatcher enters a branch that closes. -/
theorem Orderliness.enter (h : Orderliness d s) (hb : s.branch = []) {b : List (Stmt τ)}
    (hcl : Closes b false false false) (hin : InstallsOrderly b) :
    Orderliness d { s with branch := b } := by
  obtain ⟨hspace, saved, hp⟩ := h.outside fun _ => hb
  exact ⟨h.stack, h.current, h.handlers, hin, false, false, false,
    ⟨hcl, hp.disabled, hp.locked_of_lent, fun _ => hspace, fun hs => absurd hs (by decide)⟩⟩

/-- **One event.** -/
theorem SystemStep.orderliness {op : SystemOp τ} (h : Orderliness d s)
    (hstep : SystemStep d s op s') : Orderliness d s' := by
  obtain ⟨hmay, hex⟩ := hstep
  cases op with
  | irq num frame =>
    rw [SystemOp.exec, run_bind_of_ok (run_get s)] at hex
    obtain ⟨ret, s₁, h₁, h₂⟩ := bind_ok_iff.mp hex
    obtain ⟨-, rfl⟩ := Prod.mk.inj (Except.ok.inj h₂)
    obtain ⟨k', hk, rfl⟩ := onKernel_ok_iff.mp h₁
    exact h.irq hk
  | int127 frame =>
    obtain ⟨k', hk, rfl⟩ := onKernel_ok_iff.mp hex
    obtain ⟨ret, k₁, h₁, h₂⟩ := bind_ok_iff.mp hk
    obtain ⟨-, rfl⟩ := Prod.mk.inj (Except.ok.inj h₂)
    exact h.schedule h₁
  | send msg frame =>
    -- a call is made outside the dispatcher's branches; its body keeps the placement
    obtain ⟨hspace, saved, hp⟩ := h.outside hmay
    obtain ⟨k', hk, rfl⟩ := onKernel_ok_iff.mp hex
    rw [syscallSendMsg_eq] at hk
    exact h.of_kernel hp (call_resident (p := fun found => found = true)
      (sendBody_placement msg) hspace h.stack hk)
  | recv msg frame =>
    obtain ⟨hspace, saved, hp⟩ := h.outside hmay
    obtain ⟨k', hk, rfl⟩ := onKernel_ok_iff.mp hex
    rw [syscallRecvMsg_eq] at hk
    exact h.of_kernel hp (call_resident (p := fun _ => True)
      (recvBody_placement msg) hspace h.stack hk)
  | reply msg frame =>
    obtain ⟨hspace, saved, hp⟩ := h.outside hmay
    obtain ⟨k', hk, rfl⟩ := onKernel_ok_iff.mp hex
    rw [syscallRplyMsg_eq] at hk
    exact h.of_kernel hp (call_resident (p := fun _ => True)
      (replyBody_placement msg) hspace h.stack hk)
  | forwarding sender which virt code =>
    obtain ⟨-, hb, hcode⟩ := hmay
    obtain ⟨-, rfl⟩ := Prod.mk.inj (Except.ok.inj hex)
    -- the handler that is installed has the interrupted process's code, or is none
    refine h.enter hb (closes_forwardingBranch sender which virt code) fun w hd p hmem => ?_
    have heq : hd = if virt = 0#32 then none else some (.forwarded code) := by
      simp only [forwardingBranch, List.mem_cons, reduceCtorEq, Stmt.installHandler.injEq,
        List.not_mem_nil, or_false, false_or] at hmem
      exact hmem.2.1
    rw [heq]
    split
    · exact ⟨by simp, fun _ hc => absurd hc (by simp)⟩
    · refine ⟨by simp, fun code' hc => ?_⟩
      obtain rfl : code = code' := by simpa using hc
      exact hcode
  | mapMemory sender paddr length =>
    obtain ⟨-, hb⟩ := hmay
    obtain ⟨-, rfl⟩ := Prod.mk.inj (Except.ok.inj hex)
    refine h.enter hb (closes_mapMemoryBranch sender paddr length) fun w hd p hmem => ?_
    exact absurd hmem (by simp [mapMemoryBranch])
  | stmt =>
    rw [SystemOp.exec, run_bind_of_ok (run_get s)] at hex
    -- the next statement of the branch, if one is left
    cases hb : s.branch with
    | nil =>
      simp only [hb] at hex
      obtain ⟨-, rfl⟩ := Prod.mk.inj (Except.ok.inj hex)
      exact h
    | cons st rest =>
      simp only [hb] at hex
      obtain ⟨_, s₁, h₁, h₂⟩ := bind_ok_iff.mp hex
      obtain ⟨-, rfl⟩ := Prod.mk.inj (Except.ok.inj h₁)
      exact h.stmt hmay hb h₂
  | other mach =>
    obtain ⟨-, rfl⟩ := Prod.mk.inj (Except.ok.inj hex)
    exact h.of_mach hmay

/-- The kickoff loads the space and the stack of the first process. -/
theorem procKickoffFirstProcess_resident (h : procKickoffFirstProcess k = .ok ((), k')) :
    OwnSpace k' ∧ OwnStack k' ∧ ∃ c, k'.currentProc = some c := by
  obtain ⟨c, hc, rfl⟩ := procKickoffFirstProcess_ok h
  refine ⟨fun e he => ?_, fun e he => ?_, c, hc⟩
  · obtain rfl : c = e := Option.some.inj (hc.symm.trans he)
    simp [Kernel.updProc]
  · obtain rfl : c = e := Option.some.inj (hc.symm.trans he)
    simp [Kernel.updProc]

/-- **Every process in its own address space.**  From the kickoff on, after any events, with the
    timer installed as `timer_install` does and any other handlers that return their argument:
    `cr3` is the directory of the running process and `tss.esp0` its kernel stack, unless it is
    the dispatcher in the middle of a branch. -/
theorem resident {k₀ k₁ : Kernel τ} {handlers : Nat → IrqHandlerEntry τ} {saved : BitVec 32}
    {tr : List (SystemOp τ)} (hkick : procKickoffFirstProcess k₀ = .ok ((), k₁))
    (ho : Orderly handlers) (hrun : Run (SystemStep d) ⟨k₁, handlers, [], saved⟩ tr s)
    (hback : s.kernel.currentProc = some d → s.branch = []) :
    ∃ c, s.kernel.currentProc = some c ∧ s.kernel.mach.cr3 = (s.kernel.procs c).pdir ∧
      s.kernel.tssEsp0 = (s.kernel.procs c).kstack := by
  obtain ⟨hspace, hstack, hcur⟩ := procKickoffFirstProcess_resident hkick
  have h₀ : Orderliness d ⟨k₁, handlers, [], saved⟩ :=
    ⟨hstack, hcur, ho, fun _ _ _ hmem => absurd hmem (by simp), false, false, false,
      ⟨⟨rfl, rfl⟩, fun hl => absurd hl (by decide), fun hl => absurd hl (by decide),
        fun _ => hspace, fun hs => absurd hs (by decide)⟩⟩
  have h := hrun.invariant (J := fun _ s => Orderliness d s) h₀
    fun _ _ _ _ h hstep => hstep.orderliness h
  obtain ⟨c, hc⟩ := h.current
  exact ⟨c, hc, (h.outside hback).1 c hc, h.stack c hc⟩

end Events

/-- The table after `timer_install`. -/
def timerOnly : Nat → IrqHandlerEntry Unit := fun i => ⟨if i = 0 then some .timer else none, 0#32⟩

theorem orderly_timerOnly : Orderly timerOnly := by
  intro i
  refine ⟨fun _ => rfl, fun code hcode => ?_⟩
  simp only [timerOnly] at hcode
  split at hcode <;> simp at hcode

/-- A request to map memory in the small system, from process 2 to the dispatcher in slot 0: the
    timer brings the dispatcher, and comes again with the directory of process 2 loaded. -/
theorem resident_demo : ∃ (k₁ : Kernel Unit) (s : System Unit),
    procKickoffFirstProcess demoKernel = .ok ((), k₁) ∧
      Run (SystemStep 0) ⟨k₁, timerOnly, [], 0#32⟩
        [.irq 32 0#32, .mapMemory (some 2) 0x7000#32 4#32, .stmt, .stmt, .irq 32 0#32, .stmt,
          .stmt, .stmt] s ∧
      s.kernel.currentProc = some 0 ∧ s.branch = [] ∧ s.kernel.schedulingEnabled = true ∧
      ∃ c, s.kernel.currentProc = some c ∧ s.kernel.mach.cr3 = (s.kernel.procs c).pdir ∧
        s.kernel.tssEsp0 = (s.kernel.procs c).kstack := by
  have hkick : (procKickoffFirstProcess demoKernel).toOption.map (fun _ => true) = some true := by
    decide +kernel
  obtain ⟨_, k₁, hk₁, -⟩ := ok_of_test hkick
  -- the events as one piece of code, which returns the systems the dispatcher runs in
  have htest : ((onKernel procKickoffFirstProcess >>= fun _ => (SystemOp.irq 32 0#32).exec >>=
      fun _ => get >>= fun s₁ => (SystemOp.mapMemory (some 2) 0x7000#32 4#32).exec >>=
      fun _ => get >>= fun s₂ => SystemOp.stmt.exec >>= fun _ => get >>= fun s₃ =>
      SystemOp.stmt.exec >>= fun _ => (SystemOp.irq 32 0#32).exec >>= fun _ => get >>= fun s₄ =>
      SystemOp.stmt.exec >>= fun _ => get >>= fun s₅ => SystemOp.stmt.exec >>= fun _ =>
      get >>= fun s₆ => SystemOp.stmt.exec >>= fun _ =>
        (pure [s₁, s₂, s₃, s₄, s₅, s₆] : Code Trap (System Unit) _))
      ⟨demoKernel, timerOnly, [], 0#32⟩).toOption.map (fun r =>
        r.1.all (fun s => decide (s.kernel.currentProc = some 0)) &&
        decide (r.2.kernel.currentProc = some 0) && r.2.branch.isEmpty &&
        r.2.kernel.schedulingEnabled) = some true := by
    decide +kernel
  obtain ⟨l, s, h, htests⟩ := ok_of_test htest
  simp only [Bool.and_eq_true, decide_eq_true_eq, List.all_eq_true, List.isEmpty_iff] at htests
  obtain ⟨⟨⟨hall, hcur⟩, hb⟩, hon⟩ := htests
  obtain ⟨_, _, h₀, h⟩ := bind_ok_iff.mp h
  obtain ⟨k₁', hk₁', rfl⟩ := onKernel_ok_iff.mp h₀
  obtain ⟨-, rfl⟩ := Prod.mk.inj (Except.ok.inj (hk₁.symm.trans hk₁'))
  obtain ⟨_, s₁, h₁, h⟩ := bind_ok_iff.mp h
  rw [run_bind_of_ok (run_get _)] at h
  obtain ⟨_, s₂, h₂, h⟩ := bind_ok_iff.mp h
  rw [run_bind_of_ok (run_get _)] at h
  obtain ⟨_, s₃, h₃, h⟩ := bind_ok_iff.mp h
  rw [run_bind_of_ok (run_get _)] at h
  obtain ⟨_, s₄, h₄, h⟩ := bind_ok_iff.mp h
  obtain ⟨_, s₅, h₅, h⟩ := bind_ok_iff.mp h
  rw [run_bind_of_ok (run_get _)] at h
  obtain ⟨_, s₆, h₆, h⟩ := bind_ok_iff.mp h
  rw [run_bind_of_ok (run_get _)] at h
  obtain ⟨_, s₇, h₇, h⟩ := bind_ok_iff.mp h
  rw [run_bind_of_ok (run_get _)] at h
  obtain ⟨_, s₈, h₈, h⟩ := bind_ok_iff.mp h
  obtain ⟨rfl, rfl⟩ := Prod.mk.inj (Except.ok.inj h)
  have hstart : Run (SystemStep 0) ⟨k₁, timerOnly, [], 0#32⟩ [] ⟨k₁, timerOnly, [], 0#32⟩ := .start
  have hbranch : s₁.branch = [] := by
    rw [SystemOp.exec, run_bind_of_ok (run_get _)] at h₁
    obtain ⟨_, _, h₁', h₁⟩ := bind_ok_iff.mp h₁
    obtain ⟨-, rfl⟩ := Prod.mk.inj (Except.ok.inj h₁)
    obtain ⟨_, -, rfl⟩ := onKernel_ok_iff.mp h₁'
    rfl
  have hs₁ : SystemStep 0 ⟨k₁, timerOnly, [], 0#32⟩ (.irq 32 0#32) s₁ := ⟨trivial, h₁⟩
  have hs₂ : SystemStep 0 s₁ (.mapMemory (some 2) 0x7000#32 4#32) s₂ :=
    ⟨⟨hall s₁ (by simp), hbranch⟩, h₂⟩
  have hs₃ : SystemStep 0 s₂ .stmt s₃ := ⟨hall s₂ (by simp), h₃⟩
  have hs₄ : SystemStep 0 s₃ .stmt s₄ := ⟨hall s₃ (by simp), h₄⟩
  have hs₅ : SystemStep 0 s₄ (.irq 32 0#32) s₅ := ⟨trivial, h₅⟩
  have hs₆ : SystemStep 0 s₅ .stmt s₆ := ⟨hall s₅ (by simp), h₆⟩
  have hs₇ : SystemStep 0 s₆ .stmt s₇ := ⟨hall s₆ (by simp), h₇⟩
  have hs₈ : SystemStep 0 s₇ .stmt s₈ := ⟨hall s₇ (by simp), h₈⟩
  have hrun := (((((((hstart.next hs₁).next hs₂).next hs₃).next hs₄).next hs₅).next hs₆).next
    hs₇).next hs₈
  exact ⟨k₁, s₈, hk₁, hrun, hcur, hb, hon,
    resident hk₁ orderly_timerOnly hrun fun _ => hb⟩

end Leoman
