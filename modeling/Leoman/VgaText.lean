import Leoman.Lib.TextLines
import Leoman.Terminals

namespace Leoman

open Leoman.TextScreen

/-!
# The text on the kernel's terminal (`kernel/vga.c`)

`vga_putch` wraps a full line only when the next character comes, with the branch that also
handles the newline, and scrolls by copying the cells in place.  What is on the screen is the end
of the text all the same.

* `vgaCode` — the character of a cell, its low byte;
* `vgaPrints` — the terminal after `vga_init` and a sequence of characters;
* `vgaPrints_text` — the last 25 lines of the text are on the screen, the cursor is at the end of
  the last one, and nothing outside of the 80 by 25 cells has been written.
-/

/-- The character code of a cell. -/
def vgaCode (cell : BitVec 16) : BitVec 8 := cell.setWidth 8

/-- `' '`. -/
def blankChar : BitVec 8 := 0x20#8

/-- The terminal after `vga_init`, on whatever the video memory holds, and a sequence of
    characters. -/
def vgaPrints (mem : Nat → BitVec 16) (text : List (BitVec 8)) : Vga :=
  text.foldl vgaPutch (vgaInit mem)

/-- The lines of the text that ought to be on the screen. -/
def vgaLines (text : List (BitVec 8)) : List (List (BitVec 8)) :=
  shownLines vgaHeight (textLines vgaWidth isNewline text)

/-- The colour is not part of the code. -/
theorem vgaCode_makeChar (color ch : BitVec 8) : vgaCode (vgaMakeChar color ch) = ch := by
  apply BitVec.eq_of_getLsbD_eq
  intro i hi
  rw [vgaCode, BitVec.getLsbD_setWidth, vgaMakeChar_getLsbD color ch (by omega), if_pos hi]
  simp [hi]

variable (mem : Nat → BitVec 16) (text : List (BitVec 8))

/-- **Step lemma.**  One character more. -/
theorem vgaPrints_concat (ch : BitVec 8) : (vgaPrints mem (text ++ [ch])).raster =
    (vgaPrints mem text).raster.put vgaWidth vgaHeight 0x0020#16
      (vgaMakeChar (vgaPrints mem text).vgaColor) isNewline ch := by
  rw [vgaPrints, List.foldl_append]
  exact (vgaPutch_raster (vgaPrints mem text) ch).1

/-- **Run lemma.**  The terminal displays the lines of the text, and stores to its own cells
    only. -/
theorem vgaPrints_displays :
    Displays vgaWidth vgaHeight vgaCode blankChar (textLines vgaWidth isNewline text)
        (vgaPrints mem text).raster ∧
      ∀ i, vgaHeight * vgaWidth ≤ i → (vgaPrints mem text).vgaMem i = mem i := by
  induction text using List.reverseRecOn with
  | nil =>
    have hlines : textLines vgaWidth isNewline ([] : List (BitVec 8)) = [[]] := by
      rw [textLines, List.splitOnP_nil, List.flatMap_singleton, wrapLine_short (Nat.zero_le _)]
    have hmem : (vgaPrints mem []).vgaMem =
        fillRows vgaWidth vgaHeight (vgaMakeChar (vgaMakeColor 15#32 0#32) 0x20#8) mem := rfl
    rw [hlines]
    refine ⟨⟨rfl, rfl, ?_⟩, ?_⟩
    · intro y hy x hx
      show vgaCode ((vgaPrints mem []).vgaMem (y * vgaWidth + x)) = _
      rw [hmem, fillRows_apply, if_pos (index_lt hx hy), vgaCode_makeChar]
      -- the one line there is is empty
      cases y with
      | zero => rfl
      | succ y => rfl
    · intro i hi
      rw [hmem, fillRows_apply, if_neg (by omega)]
  | append_singleton text ch ih =>
    obtain ⟨hshows, hframe⟩ := ih
    have hraster := vgaPrints_concat mem text ch
    refine ⟨?_, ?_⟩
    · rw [hraster]
      exact hshows.put (by decide) (by decide) (vgaCode_makeChar _) ch
    · intro i hi
      have hmem : (vgaPrints mem (text ++ [ch])).vgaMem
          = (vgaPrints mem (text ++ [ch])).raster.mem :=
        rfl
      rw [hmem, hraster, hshows.put_frame (by decide) ch hi]
      exact hframe i hi

/-- **The terminal shows the end of the text.**  After every sequence of characters the cursor is on
    the screen or right behind a full line, the character codes are the last 25 lines of the text,
    padded with blanks, with the cursor at the end of the last one; and whatever the memory held,
    only the cells of the screen have been written. -/
theorem vgaPrints_text :
    (vgaPrints mem text).vgaRow ≤ 24 ∧ (vgaPrints mem text).vgaCol ≤ 80 ∧
      (∀ i, 25 * 80 ≤ i → (vgaPrints mem text).vgaMem i = mem i) ∧
      (vgaPrints mem text).vgaRow + 1 = (vgaLines text).length ∧
      (vgaLines text).getLast?.map List.length = some (vgaPrints mem text).vgaCol ∧
      ∀ y < 25, ∀ x < 80, vgaCode ((vgaPrints mem text).vgaMem (y * 80 + x)) =
        lineCell blankChar (vgaLines text) y x := by
  obtain ⟨hshows, hframe⟩ := vgaPrints_displays mem text
  have hrow : (vgaPrints mem text).vgaRow < 25 := hshows.row_lt
  refine ⟨by omega, hshows.col_le (by decide), hframe, hshows.row, ?_, hshows.cell⟩
  -- the last line of the text is on the screen
  have hcol := hshows.col
  have hlen : (shownLines vgaHeight (textLines vgaWidth isNewline text)).length = _ :=
    hshows.row.symm
  rw [shownLines, List.length_drop] at hlen
  rw [vgaLines, shownLines, List.getLast?_drop, if_neg (by omega)]
  exact hcol

end Leoman
