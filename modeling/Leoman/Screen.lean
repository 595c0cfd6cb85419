import Leoman.Lib.TextScreen
import Mathlib.Data.BitVec
import Mathlib.Data.List.Basic

namespace Leoman

open Leoman.TextScreen

/-!
# The screen driver (`drivers/screen.c`)

The driver draws characters into the video memory it has had mapped and answers `MSG_PUTS` and
`MSG_PUTC`.

* `putChar` — one character, with wrapping and scrolling;
* `putChar_raster` — it prints on the screen as `Raster.put` does, with `screenCell` as the
  encoding;
* `handle` — one round of the loop of `main`, with a record of the calls to `put_char` and of
  the bytes of the message that are read.
-/

/-! ### Drawing -/

/-- `screen_columns`. -/
def screenColumns : Nat := 80

/-- `screen_rows`. -/
def screenRows : Nat := 25

/-- `'\n'`. -/
def newlineChar : BitVec 8 := 0x0a#8

/-- `ch == '\n'`. -/
def isNewline (ch : BitVec 8) : Bool := ch = newlineChar

/-- The driver's variables and the video memory, cell by cell.  An `enum color` is an unsigned
    word. -/
structure Screen where
  column : Nat
  row : Nat
  fgColor : BitVec 32
  bgColor : BitVec 32
  videoMemory : Nat → BitVec 16

/-- The value `put_char_at` writes: `((bg_color << 4 | fg_color) << 8) | ch`, cut to 16 bits.
    `ch` is a `char`, signed on this machine, and is extended to a word first. -/
def screenCell (fg bg : BitVec 32) (ch : BitVec 8) : BitVec 16 :=
  (((bg <<< 4 ||| fg) <<< 8) ||| ch.signExtend 32).setWidth 16

/-- `put_char_at`. -/
def putCharAt (s : Screen) (ch : BitVec 8) (x y : Nat) : Screen :=
  { s with videoMemory :=
      Function.update s.videoMemory (y * screenColumns + x) (screenCell s.fgColor s.bgColor ch) }

/-- `scrollup`: the last row is filled with `'\0'`. -/
def scrollup (s : Screen) : Screen :=
  { s with videoMemory := scrollRows screenColumns screenRows 0x0000#16 s.videoMemory }

/-- `put_char`. -/
def putChar (s : Screen) (ch : BitVec 8) : Screen :=
  let s := if screenColumns ≤ s.column ∨ ch = newlineChar then
      { s with column := 0, row := s.row + 1 }
    else s
  let s := if screenRows ≤ s.row then { scrollup s with row := s.row - 1 } else s
  if ch = newlineChar then s
  else { putCharAt s ch s.column s.row with column := s.column + 1 }

/-- `clear`. -/
def clear (s : Screen) : Screen :=
  let blank := screenCell s.fgColor s.bgColor 0x00#8
  { s with videoMemory := fillRows screenColumns screenRows blank s.videoMemory }

/-- The screen as a raster. -/
def Screen.raster (s : Screen) : Raster (BitVec 16) := ⟨s.column, s.row, s.videoMemory⟩

/-- **What `put_char` does.**  It prints on the raster, and keeps the colours. -/
theorem putChar_raster (s : Screen) (ch : BitVec 8) :
    (putChar s ch).raster = s.raster.put screenColumns screenRows 0x0000#16
        (screenCell s.fgColor s.bgColor) isNewline ch ∧
      (putChar s ch).fgColor = s.fgColor ∧ (putChar s ch).bgColor = s.bgColor := by
  obtain ⟨column, row, fg, bg, mem⟩ := s
  by_cases hnl : ch = newlineChar <;> by_cases hfull : screenColumns ≤ column <;>
    by_cases hbottom : screenRows ≤ row + 1 <;> by_cases hrow : screenRows ≤ row <;>
    simp [putChar, Raster.put, Screen.raster, scrollup, putCharAt, isNewline, hnl, hfull,
      hbottom, hrow]

/-- Print a sequence of characters. -/
def putChars (s : Screen) (chs : List (BitVec 8)) : Screen := chs.foldl putChar s

/-! ### Messages -/

/-- `MSG_IO_BUFSIZE`. -/
def msgIoBufsize : Nat := 64

/-- `MSG_PUTS`. -/
def msgPuts : BitVec 32 := 1#32

/-- `MSG_PUTC`. -/
def msgPutc : BitVec 32 := 2#32

/-- The bytes of a `struct msg_io`, by their offsets: `type` at 0, `one_char` at 4, `chars` from
    5 on; the structure is padded to 72 bytes. -/
abbrev MsgIo := Nat → BitVec 8

/-- `sizeof (struct msg_io)`. -/
def msgIoSize : Nat := 72

/-- `offsetof (struct msg_io, one_char)`. -/
def oneCharOffset : Nat := 4

/-- `offsetof (struct msg_io, chars)`. -/
def charsOffset : Nat := 5

/-- `msg.type`, little-endian. -/
def MsgIo.type (m : MsgIo) : BitVec 32 := m 3 ++ m 2 ++ m 1 ++ m 0

/-- The driver while it handles a message: its screen, the arguments of its calls to `put_char`,
    and the offsets of the bytes of the message it has read, the type apart. -/
structure Handling where
  screen : Screen
  calls : List (BitVec 8)
  reads : List Nat

/-- A call of `put_char`. -/
def Handling.put (d : Handling) (ch : BitVec 8) : Handling :=
  { d with screen := putChar d.screen ch, calls := d.calls ++ [ch] }

/-- A read of a byte of the message. -/
def Handling.read (d : Handling) (offset : Nat) : Handling :=
  { d with reads := d.reads ++ [offset] }

/-- The loop of `MSG_PUTS`, with `p` at the given offset into `chars`: the byte is tested before
    the offset is. -/
def printBuffer (m : MsgIo) (d : Handling) (p : Nat) : Handling :=
  let d := d.read (charsOffset + p)
  if m (charsOffset + p) = 0x00#8 then d
  else if msgIoBufsize ≤ p then d
  else printBuffer m ((d.read (charsOffset + p)).put (m (charsOffset + p))) (p + 1)
termination_by msgIoBufsize + 1 - p

/-- One round of the driver's loop, without the reply.  The case of `MSG_PUTS` has no `break`. -/
def handle (s : Screen) (m : MsgIo) : Handling :=
  let d : Handling := ⟨s, [], []⟩
  if m.type = msgPuts then
    ((printBuffer m d 0).read oneCharOffset).put (m oneCharOffset)
  else if m.type = msgPutc then (d.read oneCharOffset).put (m oneCharOffset)
  else d

/-- The record of the calls is what was printed. -/
theorem handle_screen (s : Screen) (m : MsgIo) :
    (handle s m).screen = putChars s (handle s m).calls := by
  have hput : ∀ (d : Handling) ch, d.screen = putChars s d.calls →
      (d.put ch).screen = putChars s (d.put ch).calls := by
    intro d ch hd
    simp only [Handling.put, putChars, List.foldl_append, List.foldl_cons, List.foldl_nil]
    rw [hd]
    rfl
  have hloop : ∀ (d : Handling) p, d.screen = putChars s d.calls →
      (printBuffer m d p).screen = putChars s (printBuffer m d p).calls := by
    intro d p
    induction d, p using printBuffer.induct (m := m) with
    | case1 d p hzero =>
      intro hd
      rw [printBuffer, if_pos hzero]
      exact hd
    | case2 d p hzero hend =>
      intro hd
      rw [printBuffer, if_neg hzero, if_pos hend]
      exact hd
    | case3 d p _ hzero hend ih =>
      intro hd
      rw [printBuffer, if_neg hzero, if_neg hend]
      exact ih (hput _ _ hd)
  unfold handle
  split
  · exact hput _ _ (hloop _ _ rfl)
  · split
    · exact hput _ _ rfl
    · rfl

end Leoman
