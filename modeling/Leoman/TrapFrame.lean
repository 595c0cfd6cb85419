import Leoman.Lib.WordStack
import Leoman.Proc

namespace Leoman

open ByteMem WordStack

/-!
# Interrupt frames (`kernel/idt_obj.asm`)

An interrupt suspends code: the processor pushes where it was, the stub of the vector pushes the
rest of the registers, and the address of all that is what the C handler gets.  The handler returns
the address of a frame, which need not be the same one, and the stub resumes what that frame
suspends.

* `interrupted`, `commonStub` — from the interrupt to the handler;
* `stubReturn` — from the handler to the `iret`;
* `Holds m f r` — the frame at `f` suspends code with the registers `r`;
* `suspend_holds`, `stubReturn_holds` — what is suspended is what is resumed.

Kernel stacks are read and written at their own addresses: `proc_new` maps them there.  A selector
is pushed as a word with zeros above it; nothing reads these.
-/

/-! ### Registers -/

/-- The registers of the processor. -/
structure Regs where
  eax : BitVec 32
  ecx : BitVec 32
  edx : BitVec 32
  ebx : BitVec 32
  esp : BitVec 32
  ebp : BitVec 32
  esi : BitVec 32
  edi : BitVec 32
  eip : BitVec 32
  eflags : BitVec 32
  cs : BitVec 16
  ss : BitVec 16
  ds : BitVec 16
  es : BitVec 16
  fs : BitVec 16
  gs : BitVec 16
deriving DecidableEq, Repr

/-- A selector, as it is pushed. -/
def selWord (sel : BitVec 16) : BitVec 32 := sel.setWidth 32

/-- `pop` of a selector. -/
def wordSel (w : BitVec 32) : BitVec 16 := w.setWidth 16

/-- The selector `SEG_KCODE`, which all gates have. -/
def kcodeSel : BitVec 16 := 0x8#16

/-- The selector `SEG_KDATA`. -/
def kdataSel : BitVec 16 := 0x10#16

/-- The selector has user privileges, which are all that is used besides those of the kernel. -/
def userSel (sel : BitVec 16) : Bool := sel &&& 3#16 = 3#16

/-- The selector is that of one of the kernel's segments (descriptor 1 or 2, privilege level 0). -/
def kernelSel (sel : BitVec 16) : Bool := sel >>> 3 = 1#16 || sel >>> 3 = 2#16

/-- User code was running. -/
def Regs.user (r : Regs) : Bool := userSel r.cs

/-- What the privileges allow: user code has no segment of the kernel in a data segment register,
    and the kernel's stack segment is its own. -/
def Regs.Legal (r : Regs) : Prop :=
  if r.user then
    kernelSel r.ds = false ∧ kernelSel r.es = false ∧ kernelSel r.fs = false ∧
      kernelSel r.gs = false
  else r.ss = kdataSel

instance (r : Regs) : Decidable r.Legal := by
  unfold Regs.Legal
  infer_instance

/-! ### Suspending -/

/-- Where the processor starts to push: on the kernel stack of the process, unless the kernel was
    running. -/
def interruptStack (esp0 : BitVec 32) (r : Regs) : BitVec 32 := if r.user then esp0 else r.esp

/-- What the processor pushes: `ss` and `esp` only when crossing rings. -/
def processorWords (r : Regs) : List (BitVec 32) :=
  (if r.user then [selWord r.ss, r.esp] else []) ++ [r.eflags, selWord r.cs, r.eip]

/-- `TF`, `IF`, `NT`, `RF` and `VM`, which an interrupt gate clears. -/
def gateClears : BitVec 32 := 0x34300#32

/-- An interrupt through a gate, without an error code. -/
def interrupted (esp0 base : BitVec 32) (mem : Mem) (r : Regs) : Mem × Regs :=
  let (mem, esp) := pushAll (mem, interruptStack esp0 r) (processorWords r)
  (mem, { r with
    esp := esp, ss := if r.user then kdataSel else r.ss, cs := kcodeSel, eip := base
    eflags := r.eflags &&& ~~~gateClears })

/-- `dummy error code`. -/
def dummyErrorCode : BitVec 32 := 0x0badc0de#32

/-- What the stub of a vector pushes: the error code, the vector, `pusha`, and the data segments. -/
def stubWords (num : BitVec 32) (r : Regs) : List (BitVec 32) :=
  [dummyErrorCode, num, r.eax, r.ecx, r.edx, r.ebx, r.esp - 8#32, r.ebp, r.esi, r.edi,
    selWord r.ds, selWord r.es, selWord r.fs, selWord r.gs]

/-- From the gate to the handler: the memory, the registers it starts with, and the frame it gets.
    `handler` is its address and `back` the one it returns to. -/
def commonStub (num handler back : BitVec 32) (mem : Mem) (r : Regs) : Mem × Regs × BitVec 32 :=
  let (mem, frame) := pushAll (mem, r.esp) (stubWords num r)
  let (mem, esp) := pushAll (mem, frame) [frame, back]
  (mem, { r with eax := handler, esp := esp, eip := handler
                 ds := kdataSel, es := kdataSel, fs := kdataSel, gs := kdataSel }, frame)

/-- An interrupt of the code with the registers `r`, up to the handler. -/
def suspend (esp0 base num handler back : BitVec 32) (mem : Mem) (r : Regs) :
    Mem × Regs × BitVec 32 :=
  let (mem, r) := interrupted esp0 base mem r
  commonStub num handler back mem r

/-! ### Resuming -/

/-- The word of a frame that is popped after `i` others. -/
def frameWord (mem : Mem) (frame : BitVec 32) (i : Nat) : BitVec 32 :=
  read32 mem (frame + BitVec.ofNat 32 (4 * i))

/-- A data segment register after an `iret`: segments of the kernel are not left to user code. -/
def outerSel (sel : BitVec 16) : BitVec 16 := if kernelSel sel then 0#16 else sel

/-- From the return of the handler to the end of the `iret`: `esp` is what the handler returned,
    `popa` drops the saved `esp`, and the vector and the error code are dropped. -/
def stubReturn (mem : Mem) (frame : BitVec 32) (r : Regs) : Regs :=
  let w := frameWord mem frame
  let r := { r with
    gs := wordSel (w 0), fs := wordSel (w 1), es := wordSel (w 2), ds := wordSel (w 3)
    edi := w 4, esi := w 5, ebp := w 6, ebx := w 8, edx := w 9, ecx := w 10, eax := w 11
    eip := w 14, cs := wordSel (w 15), eflags := w 16 }
  if r.user then
    { r with esp := w 17, ss := wordSel (w 18), ds := outerSel r.ds, es := outerSel r.es
             fs := outerSel r.fs, gs := outerSel r.gs }
  else { r with esp := frame + BitVec.ofNat 32 68 }

/-! ### Frames -/

/-- The words of a frame, from its address on. -/
def frameWords (r : Regs) (saved num err : BitVec 32) : List (BitVec 32) :=
  [selWord r.gs, selWord r.fs, selWord r.es, selWord r.ds, r.edi, r.esi, r.ebp, saved, r.ebx, r.edx,
    r.ecx, r.eax, num, err, r.eip, selWord r.cs, r.eflags] ++
  (if r.user then [r.esp, selWord r.ss] else [])

/-- The bytes of a frame. -/
def Regs.frameSize (r : Regs) : Nat := if r.user then 76 else 68

/-- The frame at `f` suspends code with the registers `r`.  The kernel's stack goes on behind its
    frame. -/
structure Holds (mem : Mem) (f : BitVec 32) (r : Regs) : Prop where
  legal : r.Legal
  fits : f.toNat + r.frameSize ≤ 2 ^ 32
  words : ∃ saved num err, Words mem f (frameWords r saved num err)
  esp : r.user = false → r.esp = f + BitVec.ofNat 32 68

section Frames

variable {mem mem' : Mem} {f esp0 base num handler back : BitVec 32} {r r' : Regs}

/-- A selector is read back from the word that holds it. -/
theorem wordSel_selWord (sel : BitVec 16) : wordSel (selWord sel) = sel := by
  unfold wordSel selWord
  rw [BitVec.setWidth_setWidth_of_le _ (by decide), BitVec.setWidth_eq]

/-- The words of a frame are its bytes. -/
theorem frameWords_length (r : Regs) (saved num err : BitVec 32) :
    4 * (frameWords r saved num err).length = r.frameSize := by
  unfold frameWords Regs.frameSize
  split <;> rfl

/-- 19 words at most. -/
theorem Regs.frameSize_le (r : Regs) : r.frameSize ≤ 76 := by
  unfold Regs.frameSize
  split <;> omega

/-- A frame matters only where it is. -/
theorem Holds.congr (h : Holds mem f r)
    (hm : ∀ x, InRange x f r.frameSize → mem' x = mem x) : Holds mem' f r := by
  obtain ⟨saved, num, err, hw⟩ := h.words
  refine ⟨h.legal, h.fits, ⟨saved, num, err, hw.congr ?_ ?_⟩, h.esp⟩
  · rw [frameWords_length]
    exact h.fits
  · rw [frameWords_length]
    exact hm

/-- **Resuming** what a frame suspends: all registers are those of the suspended code. -/
theorem stubReturn_holds (h : Holds mem f r) (hss : r'.ss = kdataSel) :
    stubReturn mem f r' = r := by
  obtain ⟨saved, num, err, hw⟩ := h.words
  have hlegal := h.legal
  have hesp := h.esp
  have hat : ∀ i w, (frameWords r saved num err)[i]? = some w → frameWord mem f i = w := hw
  have hcs : userSel (wordSel (frameWord mem f 15)) = r.user := by
    rw [hat 15 (selWord r.cs) rfl, wordSel_selWord]
    rfl
  -- the words that frames of the kernel have as well
  have h₀ := hat 0 _ rfl
  have h₁ := hat 1 _ rfl
  have h₂ := hat 2 _ rfl
  have h₃ := hat 3 _ rfl
  have h₄ := hat 4 _ rfl
  have h₅ := hat 5 _ rfl
  have h₆ := hat 6 _ rfl
  have h₈ := hat 8 _ rfl
  have h₉ := hat 9 _ rfl
  have h₁₀ := hat 10 _ rfl
  have h₁₁ := hat 11 _ rfl
  have h₁₄ := hat 14 _ rfl
  have h₁₅ := hat 15 _ rfl
  have h₁₆ := hat 16 _ rfl
  unfold stubReturn Regs.user
  simp only [hcs]
  cases hu : r.user with
  | true =>
    have h₁₇ : frameWord mem f 17 = r.esp := hat 17 _ (by simp [frameWords, hu])
    have h₁₈ : frameWord mem f 18 = selWord r.ss := hat 18 _ (by simp [frameWords, hu])
    rw [Regs.Legal, if_pos hu] at hlegal
    obtain ⟨hds, hes, hfs, hgs⟩ := hlegal
    simp only [if_true, h₀, h₁, h₂, h₃, h₄, h₅, h₆, h₈, h₉, h₁₀, h₁₁, h₁₄, h₁₅, h₁₆, h₁₇, h₁₈,
      wordSel_selWord, outerSel, hds, hes, hfs, hgs, Bool.false_eq_true, if_false]
  | false =>
    rw [Regs.Legal, hu, if_neg (by decide)] at hlegal
    simp only [Bool.false_eq_true, if_false, h₀, h₁, h₂, h₃, h₄, h₅, h₆, h₈, h₉, h₁₀, h₁₁, h₁₄,
      h₁₅, h₁₆, wordSel_selWord, ← hesp hu, hss]
    rw [← hlegal]

/-- The words that an interrupt pushes, up to the frame, are those of the frame. -/
theorem pushed_words (r r₁ : Regs) (num : BitVec 32) (hd : r₁ = { r with
    esp := r₁.esp, ss := r₁.ss, cs := r₁.cs, eip := r₁.eip, eflags := r₁.eflags }) :
    (processorWords r ++ stubWords num r₁).reverse
      = frameWords r (r₁.esp - 8#32) num dummyErrorCode := by
  rw [hd]
  unfold processorWords stubWords frameWords
  cases r.user <;> rfl

/-- What the processor and the stub push is a frame. -/
theorem pushed_length (r r₁ : Regs) (num : BitVec 32) :
    4 * (processorWords r ++ stubWords num r₁).length = r.frameSize := by
  unfold processorWords stubWords Regs.frameSize
  cases r.user <;> rfl

/-- The frame of an interrupt ends where the processor starts to push. -/
def pushedFrame (esp0 : BitVec 32) (r : Regs) : BitVec 32 :=
  interruptStack esp0 r - BitVec.ofNat 32 r.frameSize

/-- What an interrupt leaves: the frame, the handler running on the stack of the kernel, and the
    rest of the memory. -/
structure HandlerEntered (esp0 : BitVec 32) (mem : Mem) (r : Regs) (mem' : Mem) (r' : Regs)
    (f : BitVec 32) : Prop where
  frame : f = pushedFrame esp0 r
  holds : Holds mem' f r
  user : r'.user = false
  ss : r'.ss = kdataSel
  esp : r'.esp = f - 8#32
  off : ∀ x, ¬ InRange x (f - 8#32) (r.frameSize + 8) → mem' x = mem x

/-- **Suspending.** -/
theorem suspend_holds (hr : r.Legal) (hroom : r.frameSize + 8 ≤ (interruptStack esp0 r).toNat) :
    HandlerEntered esp0 mem r (suspend esp0 base num handler back mem r).1
      (suspend esp0 base num handler back mem r).2.1
      (suspend esp0 base num handler back mem r).2.2 := by
  let r₁ := (interrupted esp0 base mem r).2
  let s := pushAll (mem, interruptStack esp0 r) (processorWords r ++ stubWords num r₁)
  have hs : s = pushAll (pushAll (mem, interruptStack esp0 r) (processorWords r))
      (stubWords num r₁) := pushAll_append _ _ _
  have hrun : suspend esp0 base num handler back mem r = ((pushAll s [s.2, back]).1,
      { r₁ with eax := handler, esp := (pushAll s [s.2, back]).2, eip := handler
                ds := kdataSel, es := kdataSel, fs := kdataSel, gs := kdataSel }, s.2) := by
    rw [hs]
    rfl
  have hlen := pushed_length r r₁ num
  have hframe : s.2 = pushedFrame esp0 r := by
    rw [pushAll_snd, hlen]
    rfl
  have hstack := (interruptStack esp0 r).isLt
  have hdown : (pushedFrame esp0 r).toNat = (interruptStack esp0 r).toNat - r.frameSize := by
    rw [pushedFrame, ← hlen, sub_toNat (by omega), hlen]
  have hcall : (pushedFrame esp0 r - 8#32).toNat
      = (interruptStack esp0 r).toNat - r.frameSize - 8 := by
    rw [BitVec.toNat_sub, hdown, BitVec.toNat_ofNat]
    omega
  -- the two words of the call are below the frame
  have hlast : ∀ x, ¬ InRange x (pushedFrame esp0 r - 8#32) 8 →
      (pushAll s [s.2, back]).1 x = s.1 x := by
    intro x hx
    have hroom' : 4 * [s.2, back].length ≤ s.2.toNat := by
      rw [hframe, hdown, List.length_cons, List.length_singleton]
      omega
    refine pushAll_off hroom' ?_
    show ¬ InRange x (s.2 - 8#32) 8
    rwa [hframe]
  have hfit : (pushedFrame esp0 r).toNat + r.frameSize ≤ 2 ^ 32 := by omega
  have hwords :
      Words s.1 (pushedFrame esp0 r) (frameWords r (r₁.esp - 8#32) num dummyErrorCode) := by
    rw [← pushed_words r r₁ num rfl, pushedFrame, ← hlen]
    exact pushAll_words (by omega)
  have hholds : Holds s.1 (pushedFrame esp0 r) r := by
    refine ⟨hr, hfit, ⟨_, _, _, hwords⟩, fun hu => ?_⟩
    rw [pushedFrame, interruptStack, Regs.frameSize, hu, if_neg (by decide), if_neg (by decide),
      BitVec.sub_add_cancel]
  rw [hrun]
  refine ⟨hframe, ?_, ?_, ?_, ?_, ?_⟩
  · have hholds' : Holds s.1 s.2 r := by
      rw [hframe]
      exact hholds
    refine hholds'.congr fun x hx => hlast x ?_
    rw [hframe, inRange_iff hfit] at hx
    rw [inRange_iff (by omega)]
    omega
  · show userSel kcodeSel = false
    decide
  · show (if r.user then kdataSel else r.ss) = kdataSel
    split
    · rfl
    · rename_i hu
      rwa [Regs.Legal, if_neg hu] at hr
  · show (pushAll s [s.2, back]).2 = s.2 - 8#32
    exact pushAll_snd _ _
  · intro x hx
    have hx' : ¬ InRange x (pushedFrame esp0 r - 8#32) (r.frameSize + 8) := by
      rw [← hframe]
      exact hx
    rw [inRange_iff (by omega)] at hx'
    have hcalls : ¬ InRange x (pushedFrame esp0 r - 8#32) 8 := by
      rw [inRange_iff (by omega)]
      omega
    refine (hlast x hcalls).trans (pushAll_off (by omega) ?_)
    rw [hlen]
    show ¬ InRange x (pushedFrame esp0 r) r.frameSize
    rw [inRange_iff hfit]
    omega

end Frames

end Leoman
