import Leoman.Lib.TextScreen
import Mathlib.Data.List.Basic

namespace Leoman.TextScreen

/-!
# The text on a screen

What a screen shows of everything printed on it: the text is split at its newlines, a line that is
longer than the screen is wide is broken, and of the lines the last ones are on the screen.

* `textLines` — the text broken into lines; a line of exactly the screen's width is not broken, so
  that it goes on with the character after it (`textLines_char`);
* `shownLines` — the lines that are on the screen, the first one at its top;
* `Displays.put` — a raster that displays the lines of a text goes on to display them when a
  character is printed.
-/

variable {α β : Type} {w h : Nat} {newline : α → Bool}

/-! ### Lines -/

/-- Break a line into pieces of the screen's width. -/
def wrapLine (w : Nat) (line : List α) : List (List α) :=
  if line.length ≤ w ∨ w = 0 then [line] else line.take w :: wrapLine w (line.drop w)
termination_by line.length
decreasing_by
  rw [List.length_drop]
  omega

/-- The lines of a text. -/
def textLines (w : Nat) (newline : α → Bool) (text : List α) : List (List α) :=
  (text.splitOnP newline).flatMap (wrapLine w)

/-- The last `h` lines, or all of them while there are fewer. -/
def shownLines (h : Nat) (lines : List (List α)) : List (List α) := lines.drop (lines.length - h)

theorem wrapLine_short {line : List α} (hline : line.length ≤ w) : wrapLine w line = [line] := by
  rw [wrapLine, if_pos (Or.inl hline)]

theorem wrapLine_long {line : List α} (hw : 0 < w) (hline : w < line.length) :
    wrapLine w line = line.take w :: wrapLine w (line.drop w) := by
  rw [wrapLine, if_neg (by omega)]

/-- A character is added to the last piece of a line, or begins a new one. -/
theorem wrapLine_concat (hw : 0 < w) (line : List α) (a : α) :
    ∃ before last, wrapLine w line = before ++ [last] ∧ last.length ≤ w ∧
      wrapLine w (line ++ [a]) =
        if last.length < w then before ++ [last ++ [a]] else before ++ [last] ++ [[a]] := by
  induction hn : line.length using Nat.strong_induction_on generalizing line with
  | _ n ih =>
    obtain hshort | hlong := Nat.lt_or_ge w line.length
    · -- the first piece is cut off on both sides
      obtain ⟨before, last, hpieces, hlast, hadd⟩ := ih (line.drop w).length
        (by rw [List.length_drop]; omega) (line.drop w) rfl
      refine ⟨line.take w :: before, last, ?_, hlast, ?_⟩
      · rw [wrapLine_long hw hshort, hpieces, List.cons_append]
      · rw [wrapLine_long hw (by rw [List.length_append]; omega),
          List.take_append_of_le_length (by omega), List.drop_append_of_le_length (by omega), hadd]
        split <;> simp
    · refine ⟨[], line, by rw [wrapLine_short hlong, List.nil_append], hlong, ?_⟩
      split
      · rename_i hroom
        exact wrapLine_short (by rw [List.length_append, List.length_singleton]; omega)
      · rename_i hfull
        have hlen : line.length = w := by omega
        rw [wrapLine_long hw (by rw [List.length_append, List.length_singleton]; omega),
          List.take_append_of_le_length (by omega), List.take_of_length_le (by omega),
          List.drop_append_of_le_length (by omega), List.drop_eq_nil_of_le (by omega),
          List.nil_append, wrapLine_short (by rw [List.length_singleton]; omega)]
        simp

/-- A character that is no newline is added to the last part of the text. -/
theorem splitOnP_concat {a : α} (ha : newline a = false) (text : List α) :
    ∃ before last, text.splitOnP newline = before ++ [last] ∧
      (text ++ [a]).splitOnP newline = before ++ [last ++ [a]] := by
  induction text with
  | nil => exact ⟨[], [], by simp, by simp [List.splitOnP_cons_eq_if_modifyHead, ha]⟩
  | cons x text ih =>
    obtain ⟨before, last, hsplit, hadd⟩ := ih
    rw [List.cons_append, List.splitOnP_cons_eq_if_modifyHead, List.splitOnP_cons_eq_if_modifyHead,
      hsplit, hadd]
    cases hx : newline x with
    | true => exact ⟨[] :: before, last, by simp, by simp⟩
    | false =>
      -- the character in front belongs to the first part
      cases before with
      | nil => exact ⟨[], x :: last, by simp, by simp⟩
      | cons first before => exact ⟨(x :: first) :: before, last, by simp, by simp⟩

/-- A newline begins an empty line. -/
theorem textLines_newline {a : α} (ha : newline a = true) (text : List α) :
    textLines w newline (text ++ [a]) = textLines w newline text ++ [[]] := by
  rw [textLines, List.splitOnP_append_cons text [] ha, List.flatMap_append, List.splitOnP_nil,
    List.flatMap_singleton, wrapLine_short (Nat.zero_le w)]
  rfl

/-- Any other character is added to the last line, or begins a new one when that is full. -/
theorem textLines_char {a : α} (hw : 0 < w) (ha : newline a = false) (text : List α) :
    ∃ before last, textLines w newline text = before ++ [last] ∧ last.length ≤ w ∧
      textLines w newline (text ++ [a]) =
        if last.length < w then before ++ [last ++ [a]] else before ++ [last] ++ [[a]] := by
  obtain ⟨before, part, hsplit, hadd⟩ := splitOnP_concat ha text
  obtain ⟨pieces, last, hpieces, hlast, hwrap⟩ := wrapLine_concat hw part a
  refine ⟨before.flatMap (wrapLine w) ++ pieces, last, ?_, hlast, ?_⟩
  · rw [textLines, hsplit, List.flatMap_append, List.flatMap_singleton, hpieces,
      List.append_assoc]
  · rw [textLines, hadd, List.flatMap_append, List.flatMap_singleton, hwrap]
    split <;> simp

/-- No line is longer than the screen is wide. -/
theorem textLines_length (hw : 0 < w) {text : List α} (line : List α)
    (hline : line ∈ textLines w newline text) : line.length ≤ w := by
  obtain ⟨part, -, hpiece⟩ := List.mem_flatMap.mp hline
  induction hn : part.length using Nat.strong_induction_on generalizing part with
  | _ n ih =>
    obtain hshort | hlong := Nat.lt_or_ge w part.length
    · rw [wrapLine_long hw hshort, List.mem_cons] at hpiece
      obtain rfl | hrest := hpiece
      · exact List.length_take_le w part
      · exact ih (part.drop w).length (by rw [List.length_drop]; omega) (part.drop w) hrest rfl
    · rw [wrapLine_short hlong, List.mem_singleton] at hpiece
      rw [hpiece]
      exact hlong

/-! ### Lines on a raster -/

/-- What is to be in column `x` of row `y`: the character of the line, or a blank behind its end
    and below the last line. -/
def lineCell (blank : α) (lines : List (List α)) (y x : Nat) : α :=
  ((lines[y]?).bind (·[x]?)).getD blank

/-- The last lines are on the screen, with the cursor at the end of the last of them.  A cell shows
    the character `code` reads off it. -/
structure Displays (w h : Nat) (code : β → α) (blank : α) (lines : List (List α)) (r : Raster β) :
    Prop where
  row : r.row + 1 = (shownLines h lines).length
  col : lines.getLast?.map List.length = some r.col
  cell : ∀ y < h, ∀ x < w, code (r.mem (y * w + x)) = lineCell blank (shownLines h lines) y x

/-- The line break of `Raster.put`. -/
def Raster.newLine (w h : Nat) (fill : β) (r : Raster β) : Raster β :=
  if h ≤ r.row + 1 then ⟨0, r.row, scrollRows w h fill r.mem⟩ else ⟨0, r.row + 1, r.mem⟩

/-- A character at the cursor. -/
def Raster.draw (w : Nat) (c : β) (r : Raster β) : Raster β :=
  ⟨r.col + 1, r.row, Function.update r.mem (r.row * w + r.col) c⟩

/-- Printing is a line break, a character, or both. -/
theorem Raster.put_eq {encode : α → β} {fill : β} {r : Raster β} (hrow : r.row < h) (a : α) :
    r.put w h fill encode newline a =
      if newline a = true then r.newLine w h fill
      else if w ≤ r.col then (r.newLine w h fill).draw w (encode a) else r.draw w (encode a) := by
  obtain ⟨col, row, mem⟩ := r
  have hstay : ¬ h ≤ row := by
    simpa using hrow
  by_cases hnl : newline a = true <;> by_cases hfull : w ≤ col <;>
    by_cases hbottom : h ≤ row + 1 <;>
    simp [Raster.put, Raster.newLine, Raster.draw, hnl, hfull, hbottom, hstay]

theorem shownLines_length (lines : List (List α)) :
    (shownLines h lines).length = min lines.length h := by
  rw [shownLines, List.length_drop]
  omega

/-- A line on the screen, by its number in the text. -/
theorem shownLines_getElem? (lines : List (List α)) (y : Nat) :
    (shownLines h lines)[y]? = lines[lines.length - h + y]? := by
  rw [shownLines, List.getElem?_drop]

/-- The row of a cell is determined by its number. -/
theorem index_row {y y' x x' : Nat} (hx : x < w) (hx' : x' < w)
    (heq : y * w + x = y' * w + x') : y = y' := by
  have hdiv := congrArg (· / w) heq
  simp only [Nat.mul_comm _ w, Nat.mul_add_div (Nat.zero_lt_of_lt hx), Nat.div_eq_of_lt hx,
    Nat.div_eq_of_lt hx', Nat.add_zero] at hdiv
  exact hdiv

section Displays

variable {code : β → α} {blank : α} {lines : List (List α)} {r : Raster β} {fill : β}

theorem Displays.row_lt (hd : Displays w h code blank lines r) : r.row < h := by
  have hrow := hd.row
  rw [shownLines_length] at hrow
  omega

/-- Another line: the screen scrolls when it is full. -/
theorem Displays.newLine (hd : Displays w h code blank lines r) (hfill : code fill = blank) :
    Displays w h code blank (lines ++ [[]]) (r.newLine w h fill) := by
  have hrow := hd.row
  rw [shownLines_length] at hrow
  have hlen : (lines ++ [[]]).length = lines.length + 1 := by simp
  have hcol : (lines ++ [[]]).getLast?.map List.length = some 0 := by simp
  unfold Raster.newLine
  by_cases hbottom : h ≤ r.row + 1
  · rw [if_pos hbottom]
    refine ⟨?_, hcol, ?_⟩
    · rw [shownLines_length, hlen]
      show r.row + 1 = _
      omega
    · intro y hy x hx
      have hlast : (h - 1) * w + w = h * w := by
        rw [← Nat.succ_mul]
        congr 1
        omega
      have hindex := index_lt hx hy
      simp only [scrollRows_apply, lineCell, shownLines_getElem?, hlen]
      by_cases hup : y + 1 < h
      · -- the row below, which has moved up
        have hsmall : y * w + x < (h - 1) * w := index_lt hx (by omega)
        have hbelow := hd.cell (y + 1) hup x hx
        rw [lineCell, shownLines_getElem?] at hbelow
        have hcell : y * w + x + w = (y + 1) * w + x := by ring
        rw [if_pos hsmall, hcell, hbelow, List.getElem?_append_left (by omega)]
        congr 3
        omega
      · -- the row that has scrolled in
        obtain rfl : y = h - 1 := by omega
        rw [if_neg (by omega), if_pos (by omega), hfill, List.getElem?_append_right (by omega)]
        have hzero : lines.length + 1 - h + (h - 1) - lines.length = 0 := by omega
        rw [hzero]
        rfl
  · rw [if_neg hbottom]
    refine ⟨?_, hcol, ?_⟩
    · rw [shownLines_length, hlen]
      show r.row + 1 + 1 = _
      omega
    · intro y hy x hx
      have hold := hd.cell y hy x hx
      simp only [lineCell, shownLines_getElem?, hlen] at hold ⊢
      rw [hold]
      have hfirst : lines.length - h + y = y := by omega
      have hfirst' : lines.length + 1 - h + y = y := by omega
      rw [hfirst, hfirst', List.getElem?_append]
      by_cases hline : y < lines.length
      · rw [if_pos hline]
      · -- an empty line shows what no line shows
        rw [if_neg hline, List.getElem?_eq_none (by omega)]
        cases hnew : [([] : List α)][y - lines.length]? with
        | none => rfl
        | some line =>
          obtain rfl : line = [] := by simpa using List.mem_of_getElem? hnew
          rfl

/-- Another character on a line that has room for it. -/
theorem Displays.draw {before : List (List α)} {last : List α} {a : α} {c : β}
    (hd : Displays w h code blank (before ++ [last]) r) (hroom : last.length < w)
    (hc : code c = a) : Displays w h code blank (before ++ [last ++ [a]]) (r.draw w c) := by
  have hrow := hd.row
  have hcol := hd.col
  have hlen : ∀ l : List α, (before ++ [l]).length = before.length + 1 := by simp
  rw [shownLines_length, hlen] at hrow
  have hend : last.length = r.col := by simpa using hcol
  have hlast : before.length + 1 - h + r.row = before.length := by omega
  refine ⟨?_, by simp [Raster.draw, hend], ?_⟩
  · rw [shownLines_length, hlen]
    exact hrow
  · intro y hy x hx
    have hold := hd.cell y hy x hx
    simp only [Raster.draw, lineCell, shownLines_getElem?, hlen] at hold ⊢
    by_cases hyrow : y = r.row
    · -- the cursor's row
      rw [hyrow, hlast, List.getElem?_append_right (Nat.le_refl _), Nat.sub_self] at hold ⊢
      simp only [List.getElem?_cons_zero, Option.bind_some] at hold ⊢
      by_cases hxcol : x = r.col
      · rw [hxcol, Function.update_self, hc, ← hend, List.getElem?_concat_length, Option.getD_some]
      · rw [Function.update_of_ne (by omega), hold]
        obtain hleft | hright := Nat.lt_or_ge x last.length
        · rw [List.getElem?_append_left hleft]
        · rw [List.getElem?_eq_none hright, List.getElem?_eq_none]
          rw [List.length_append, List.length_singleton]
          omega
    · have hother : y * w + x ≠ r.row * w + r.col :=
        fun heq => hyrow (index_row hx (by omega) heq)
      rw [Function.update_of_ne hother, hold]
      obtain hleft | hright := Nat.lt_or_ge (before.length + 1 - h + y) before.length
      · rw [List.getElem?_append_left hleft, List.getElem?_append_left hleft]
      · rw [List.getElem?_eq_none (by rw [hlen]; omega),
          List.getElem?_eq_none (by rw [hlen]; omega)]

/-- **Refinement.**  A raster that displays the lines of a text goes on to do so, whatever is
    printed. -/
theorem Displays.put {encode : α → β} {text : List α} (hw : 0 < w)
    (hd : Displays w h code blank (textLines w newline text) r) (hfill : code fill = blank)
    (hcode : ∀ a, code (encode a) = a) (a : α) :
    Displays w h code blank (textLines w newline (text ++ [a]))
      (r.put w h fill encode newline a) := by
  rw [Raster.put_eq hd.row_lt]
  cases hnl : newline a with
  | true =>
    rw [if_pos rfl, textLines_newline hnl]
    exact hd.newLine hfill
  | false =>
    obtain ⟨before, last, hlines, hlast, hadd⟩ := textLines_char hw hnl text
    rw [hlines] at hd
    have hcol : last.length = r.col := by simpa using hd.col
    rw [if_neg (by simp), hadd, ← hcol]
    by_cases hroom : last.length < w
    · rw [if_pos hroom, if_neg (by omega)]
      exact hd.draw hroom (hcode a)
    · rw [if_neg hroom, if_pos (by omega)]
      exact (hd.newLine hfill).draw (by simpa using hw) (hcode a)

/-- The cursor is at most behind the last column. -/
theorem Displays.col_le {text : List α} (hw : 0 < w)
    (hd : Displays w h code blank (textLines w newline text) r) : r.col ≤ w := by
  obtain ⟨last, hlast, hlen⟩ := Option.map_eq_some_iff.mp hd.col
  rw [← hlen]
  exact textLines_length hw last (List.mem_of_getLast? hlast)

/-- Printing stores to cells of the screen only. -/
theorem Displays.put_frame {encode : α → β} {text : List α} (hw : 0 < w)
    (hd : Displays w h code blank (textLines w newline text) r) (a : α) {i : Nat}
    (hi : h * w ≤ i) : (r.put w h fill encode newline a).mem i = r.mem i := by
  have hrow := hd.row_lt
  have hnew : (r.newLine w h fill).mem i = r.mem i ∧ (r.newLine w h fill).row < h := by
    have hlast : (h - 1) * w + w = h * w := by
      rw [← Nat.succ_mul]
      congr 1
      omega
    unfold Raster.newLine
    split
    · refine ⟨?_, hrow⟩
      show scrollRows w h fill r.mem i = r.mem i
      rw [scrollRows_apply, if_neg (by omega), if_neg (by omega)]
    · refine ⟨rfl, ?_⟩
      show r.row + 1 < h
      omega
  have hdraw : ∀ (r : Raster β) (c : β), r.row < h → r.col < w → (r.draw w c).mem i = r.mem i := by
    intro r c hrow hcol
    have hindex := index_lt hcol hrow
    exact Function.update_of_ne (by omega) _ _
  rw [Raster.put_eq hrow]
  split
  · exact hnew.1
  · split
    · refine (hdraw _ _ hnew.2 ?_).trans hnew.1
      unfold Raster.newLine
      split <;> exact hw
    · rename_i hcol
      exact hdraw r _ hrow (by omega)

end Displays

end Leoman.TextScreen
