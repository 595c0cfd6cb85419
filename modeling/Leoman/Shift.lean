import Leoman.Keyboard
import Mathlib.Data.List.Induction

namespace Leoman.Shift

open Leoman.Keyboard hiding layout layoutAt

/-!
# The Shift keys (`kernel/kbd.c`, `servers/kbd.c`)

Two drivers translate make codes into characters with one table of two columns, the second for keys
pressed with Shift.  The state of both Shift keys is one flag in either of them.  The kernel's
handler chooses the column by the flag; the server keeps the flag and answers from the first column.

* `kbdHandler` — the kernel's handler; `asked` — the server, asked right after a key;
* `Held` — a Shift key is down; `wanted` — the character that is to be delivered;
* `flag_iff` — the flag says whether the last Shift code was a make code;
* `shift_translated_iff` — the keys for which the two drivers deliver the right character.
-/

/-! ### The kernel's handler -/

/-- `layout`. -/
def layout : List (BitVec 8 × BitVec 8) :=
  [(0x00#8, 0x00#8), (0x1b#8, 0x1b#8), (0x31#8, 0x21#8), (0x32#8, 0x40#8),
   (0x33#8, 0x23#8), (0x34#8, 0x24#8), (0x35#8, 0x25#8), (0x36#8, 0x5e#8),
   (0x37#8, 0x26#8), (0x38#8, 0x2a#8), (0x39#8, 0x28#8), (0x30#8, 0x29#8),
   (0x5b#8, 0x7b#8), (0x5d#8, 0x7d#8), (0x08#8, 0x08#8), (0x09#8, 0x09#8),
   (0x27#8, 0x22#8), (0x2c#8, 0x3c#8), (0x2e#8, 0x3e#8), (0x70#8, 0x50#8),
   (0x79#8, 0x59#8), (0x66#8, 0x46#8), (0x67#8, 0x47#8), (0x63#8, 0x43#8),
   (0x72#8, 0x52#8), (0x6c#8, 0x4c#8), (0x2f#8, 0x3f#8), (0x3d#8, 0x2b#8),
   (0x0a#8, 0x0a#8), (0x00#8, 0x00#8), (0x61#8, 0x41#8), (0x6f#8, 0x4f#8),
   (0x65#8, 0x45#8), (0x75#8, 0x55#8), (0x69#8, 0x49#8), (0x64#8, 0x44#8),
   (0x68#8, 0x48#8), (0x74#8, 0x54#8), (0x6e#8, 0x4e#8), (0x73#8, 0x53#8),
   (0x2d#8, 0x5f#8), (0x60#8, 0x7e#8), (0x00#8, 0x00#8), (0x5c#8, 0x7c#8),
   (0x3b#8, 0x3a#8), (0x71#8, 0x51#8), (0x6a#8, 0x4a#8), (0x6b#8, 0x4b#8),
   (0x78#8, 0x58#8), (0x62#8, 0x42#8), (0x6d#8, 0x4d#8), (0x77#8, 0x57#8),
   (0x76#8, 0x56#8), (0x7a#8, 0x5a#8), (0x00#8, 0x00#8), (0x00#8, 0x00#8),
   (0x00#8, 0x00#8), (0x20#8, 0x20#8), (0x00#8, 0x00#8), (0x00#8, 0x00#8)]

/-- `layout[scancode]`.  `beyond` is the memory that follows the table. -/
def layoutAt (beyond : Nat → BitVec 8 × BitVec 8) (scancode : BitVec 8) : BitVec 8 × BitVec 8 :=
  layout.getD scancode.toNat (beyond scancode.toNat)

/-- The variables of the kernel's driver, and how often the list of processes was printed. -/
structure KernelKbd where
  keyBuffer : BitVec 8
  isPressedShift : Bool
  dumps : Nat
deriving DecidableEq, Repr

/-- The driver as it starts. -/
def KernelKbd.initial : KernelKbd := ⟨0x00#8, false, 0⟩

variable (beyond : Nat → BitVec 8 × BitVec 8)

/-- `kbd_handler` on the byte that was read from the controller. -/
def kbdHandler (s : KernelKbd) (scancode : BitVec 8) : KernelKbd :=
  let s := if scancode = keyLshift ∨ scancode = keyRshift then { s with isPressedShift := true }
    else s
  let s := if scancode = released keyLshift ∨ scancode = released keyRshift then
      { s with isPressedShift := false }
    else s
  if scancode &&& 0x80#8 = 0#8 then
    let row := layoutAt beyond scancode
    let s := { s with keyBuffer := if s.isPressedShift then row.2 else row.1 }
    if s.keyBuffer = 0x70#8 then { s with dumps := s.dumps + 1 } else s
  else s

/-- The driver after a sequence of scancodes. -/
def handled (codes : List (BitVec 8)) : KernelKbd := codes.foldl (kbdHandler beyond) .initial

/-! ### What is to be delivered -/

/-- The last code of this key is its make code. -/
def HeldKey (key : BitVec 8) (codes : List (BitVec 8)) : Prop :=
  (codes.filter fun c => c = key ∨ c = released key).getLast? = some key

/-- A Shift key is down. -/
def Held (codes : List (BitVec 8)) : Prop := HeldKey keyLshift codes ∨ HeldKey keyRshift codes

instance (codes : List (BitVec 8)) : Decidable (Held codes) :=
  inferInstanceAs (Decidable (_ = _ ∨ _ = _))

/-- A make or break code of a Shift key. -/
def ShiftCode (c : BitVec 8) : Prop :=
  c = keyLshift ∨ c = keyRshift ∨ c = released keyLshift ∨ c = released keyRshift

instance (c : BitVec 8) : Decidable (ShiftCode c) := inferInstanceAs (Decidable (_ ∨ _))

/-- The last code of a Shift key is a break code. -/
def LastReleased (codes : List (BitVec 8)) : Prop :=
  (codes.filter (ShiftCode ·)).getLast? = some (released keyLshift) ∨
    (codes.filter (ShiftCode ·)).getLast? = some (released keyRshift)

instance (codes : List (BitVec 8)) : Decidable (LastReleased codes) :=
  inferInstanceAs (Decidable (_ = _ ∨ _ = _))

/-- The two characters of a key differ. -/
def Shifts (c : BitVec 8) : Prop := (layoutAt beyond c).1 ≠ (layoutAt beyond c).2

/-- The character that is to be delivered for `c`, the last of the scancodes. -/
def wanted (codes : List (BitVec 8)) (c : BitVec 8) : BitVec 8 :=
  if Held codes then (layoutAt beyond c).2 else (layoutAt beyond c).1

/-- The kernel delivers the right character at every make code below 60. -/
def KernelDelivers (codes : List (BitVec 8)) : Prop :=
  ∀ pre c, pre ++ [c] <+: codes → c.toNat < 60 →
    (handled beyond (pre ++ [c])).keyBuffer = wanted beyond (pre ++ [c]) c

/-! ### The server -/

/-- The scancodes of a run of the server. -/
def scancodes (tr : List Event) : List (BitVec 8) :=
  tr.filterMap fun
    | .irq scancode => some scancode
    | .server _ => none

/-- The server after these events. -/
def served (tr : List Event) : Kbd :=
  tr.foldl (Kbd.after fun n => (beyond n).1) idleServer

/-- The server is asked right after a key, and goes on until it replies. -/
def asked (s : Kbd) (c : BitVec 8) : Kbd :=
  (.irq c :: List.replicate 4 (.server msgGetc)).foldl (Kbd.after fun n => (beyond n).1) s

/-- The server, when it is asked right after a make code below 60, replies the right character. -/
def ServerDelivers (tr : List Event) : Prop :=
  ∀ pre c, pre ++ [.irq c] <+: tr → c.toNat < 60 → (served beyond pre).point = .recv →
    (asked beyond (served beyond pre) c).reply
      = (wanted beyond (scancodes (pre ++ [.irq c])) c).setWidth 32

section Flag

variable {beyond} {codes : List (BitVec 8)} {c key : BitVec 8}

/-- The server has the first column of the same table. -/
theorem server_layout (c : BitVec 8) :
    Keyboard.layoutAt (fun n => (beyond n).1) c = (layoutAt beyond c).1 := by
  have hcolumn : Keyboard.layout = layout.map Prod.fst := by decide
  rw [Keyboard.layoutAt, layoutAt, hcolumn, List.getD_eq_getElem?_getD, List.getD_eq_getElem?_getD,
    List.getElem?_map]
  cases layout[c.toNat]? <;> rfl

/-- A code more. -/
theorem heldKey_append (hkey : released key ≠ key) :
    HeldKey key (codes ++ [c]) ↔ c = key ∨ (c ≠ released key ∧ HeldKey key codes) := by
  unfold HeldKey
  rw [List.filter_append, List.filter_singleton]
  by_cases h₁ : c = key
  · simp [h₁]
  · by_cases h₂ : c = released key
    · simp [h₂, hkey]
    · simp [h₁, h₂]

/-- The last Shift code, a code later. -/
theorem lastReleased_append :
    LastReleased (codes ++ [c]) ↔ (c = released keyLshift ∨ c = released keyRshift) ∨
      (¬ ShiftCode c ∧ LastReleased codes) := by
  unfold LastReleased
  rw [List.filter_append, List.filter_singleton]
  by_cases h : ShiftCode c
  · simp [h]
  · have hL : c ≠ released keyLshift := fun e => h (Or.inr (Or.inr (Or.inl e)))
    have hR : c ≠ released keyRshift := fun e => h (Or.inr (Or.inr (Or.inr e)))
    simp [h, hL, hR]

/-- The handler's flag. -/
theorem kbdHandler_flag (s : KernelKbd) (c : BitVec 8) :
    (kbdHandler beyond s c).isPressedShift = true ↔
      (c = keyLshift ∨ c = keyRshift) ∨ (¬ ShiftCode c ∧ s.isPressedShift = true) := by
  have hLR : released keyLshift ≠ keyLshift ∧ released keyLshift ≠ keyRshift ∧
      released keyRshift ≠ keyLshift ∧ released keyRshift ≠ keyRshift := by decide
  obtain ⟨h₁, h₂, h₃, h₄⟩ := hLR
  have hflag : (kbdHandler beyond s c).isPressedShift
      = if c = released keyLshift ∨ c = released keyRshift then false
        else if c = keyLshift ∨ c = keyRshift then true else s.isPressedShift := by
    simp only [kbdHandler, apply_ite KernelKbd.isPressedShift, ite_self]
  rw [hflag]
  unfold ShiftCode
  split
  · rename_i hr
    obtain rfl | rfl := hr
    · simp [h₁, h₂]
    · simp [h₃, h₄]
  · rename_i hr
    split
    · rename_i hp
      simp [hp]
    · rename_i hp
      have hnone : ¬ (c = keyLshift ∨ c = keyRshift ∨ c = released keyLshift ∨
          c = released keyRshift) := by tauto
      simp [hp, hnone]

/-- The handler's character. -/
theorem kbdHandler_keyBuffer (s : KernelKbd) {c : BitVec 8} (hc : c &&& 0x80#8 = 0#8) :
    (kbdHandler beyond s c).keyBuffer
      = if (kbdHandler beyond s c).isPressedShift then (layoutAt beyond c).2
        else (layoutAt beyond c).1 := by
  unfold kbdHandler
  simp only [if_pos hc]
  generalize (if c = released keyLshift ∨ c = released keyRshift then _ else _ : KernelKbd) = t
  cases t.isPressedShift
  · simp only [Bool.false_eq_true, if_false]
    split <;> rfl
  · simp only [if_true]
    split <;> rfl

/-- **The flag.**  It is set when a Shift key is down and the last Shift code is no break code. -/
theorem flag_iff (codes : List (BitVec 8)) :
    (handled beyond codes).isPressedShift = true ↔ Held codes ∧ ¬ LastReleased codes := by
  have hkeys : released keyLshift ≠ keyLshift ∧ released keyRshift ≠ keyRshift := by decide
  induction codes using List.reverseRecOn with
  | nil => simp [handled, KernelKbd.initial, Held, HeldKey]
  | append_singleton codes c ih =>
    have hrun : handled beyond (codes ++ [c]) = kbdHandler beyond (handled beyond codes) c :=
      List.foldl_concat ..
    have hbefore : (handled beyond codes).isPressedShift = true ↔
      Held codes ∧ ¬ LastReleased codes := ih
    rw [hrun, kbdHandler_flag, hbefore, Held, Held, heldKey_append hkeys.1, heldKey_append hkeys.2,
      lastReleased_append]
    by_cases hshift : ShiftCode c
    · -- a Shift code decides it alone
      rcases hshift with rfl | rfl | rfl | rfl <;> simp [keyLshift, keyRshift, released, ShiftCode]
    · have hL : c ≠ keyLshift := fun e => hshift (Or.inl e)
      have hR : c ≠ keyRshift := fun e => hshift (Or.inr (Or.inl e))
      have hL' : c ≠ released keyLshift := fun e => hshift (Or.inr (Or.inr (Or.inl e)))
      have hR' : c ≠ released keyRshift := fun e => hshift (Or.inr (Or.inr (Or.inr e)))
      simp [hshift, hL, hR, hL', hR']

/-- A make code has the high bit clear. -/
theorem make_of_lt (hc : c.toNat < 60) : c &&& 0x80#8 = 0#8 := by
  decide +revert

/-- The kernel's character at one make code. -/
theorem kernel_right_iff (hc : c.toNat < 60) :
    (handled beyond (codes ++ [c])).keyBuffer = wanted beyond (codes ++ [c]) c ↔
      (Shifts beyond c → ¬ (Held (codes ++ [c]) ∧ LastReleased (codes ++ [c]))) := by
  have hrun : handled beyond (codes ++ [c]) = kbdHandler beyond (handled beyond codes) c :=
    List.foldl_concat ..
  have hflag : (handled beyond (codes ++ [c])).isPressedShift = true ↔ _ := flag_iff _
  rw [hrun] at hflag ⊢
  rw [kbdHandler_keyBuffer _ (make_of_lt hc), wanted, Shifts]
  simp only [hflag]
  by_cases hheld : Held (codes ++ [c])
  · by_cases hlast : LastReleased (codes ++ [c])
    · simp [hheld, hlast]
    · simp [hheld, hlast]
  · simp [hheld]

/-- What the server replies. -/
theorem asked_reply {s : Kbd} (hs : s.point = .recv) (hc : c &&& 0x80#8 = 0#8) :
    (asked beyond s c).point = .reply ∧
      (asked beyond s c).reply = (layoutAt beyond c).1.setWidth 32 := by
  obtain ⟨shift, heq⟩ := irq_make (s := s) hc
  simp [asked, Kbd.after, heq, serve, hs, List.replicate_succ, server_layout]

/-- The server's reply at one make code. -/
theorem server_right_iff {s : Kbd} (hs : s.point = .recv) (hc : c.toNat < 60) :
    (asked beyond s c).reply = (wanted beyond codes c).setWidth 32 ↔
      (Shifts beyond c → ¬ Held codes) := by
  have hwiden : ∀ a b : BitVec 8, a.setWidth 32 = b.setWidth 32 ↔ a = b := by
    intro a b
    refine ⟨fun h => ?_, fun h => by rw [h]⟩
    have := congrArg BitVec.toNat h
    bv_omega
  rw [(asked_reply hs (make_of_lt hc)).2, hwiden, wanted, Shifts]
  by_cases hheld : Held codes
  · simp [hheld]
  · simp [hheld]

/-- **The right character.**  At every make code below 60 with two characters: the kernel delivers
    the right one unless a Shift key is down although the last Shift code is a break code, and the
    server unless a Shift key is down. -/
theorem shift_translated_iff (beyond : Nat → BitVec 8 × BitVec 8) (codes : List (BitVec 8))
    (tr : List Event) :
    (KernelDelivers beyond codes ↔
      ∀ pre c, pre ++ [c] <+: codes → c.toNat < 60 → Shifts beyond c →
        ¬ (Held (pre ++ [c]) ∧ LastReleased (pre ++ [c]))) ∧
    (ServerDelivers beyond tr ↔
      ∀ pre c, pre ++ [.irq c] <+: tr → c.toNat < 60 → (served beyond pre).point = .recv →
        Shifts beyond c → ¬ Held (scancodes (pre ++ [.irq c]))) := by
  constructor
  · exact forall₄_congr fun pre c _ hc => kernel_right_iff hc
  · refine forall₄_congr fun pre c _ hc => ?_
    exact forall_congr' fun hrecv => server_right_iff hrecv hc

/-- The left Shift key is held, the right one is pressed and released, and then a key. -/
def bothShifts : List (BitVec 8) := [0x2a#8, 0x36#8, 0xb6#8, 0x1e#8]

/-- The left Shift key is held, and then a key. -/
def shiftedKey : List Event := [.irq 0x2a#8, .irq 0x1e#8]

/-- **Neither driver delivers the capital letter.** -/
theorem capital_not_delivered :
    ¬ KernelDelivers (fun _ => (0x00#8, 0x00#8)) bothShifts ∧
      ¬ ServerDelivers (fun _ => (0x00#8, 0x00#8)) shiftedKey := by
  constructor
  · intro h
    have hkey := h [0x2a#8, 0x36#8, 0xb6#8] 0x1e#8 (List.prefix_refl _) (by decide)
    exact absurd hkey (by decide)
  · intro h
    have hkey := h [.irq 0x2a#8] 0x1e#8 (List.prefix_refl _) (by decide) (by decide)
    exact absurd hkey (by decide)

end Flag

end Leoman.Shift
