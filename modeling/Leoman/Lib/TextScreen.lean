import Mathlib.Logic.Function.Basic
import Mathlib.Tactic.Ring

namespace Leoman.TextScreen

/-!
# Text screens

A text screen of `h` rows and `w` columns: characters go where the cursor is, lines wrap, and
the screen scrolls up when the cursor leaves it at the bottom.

* `Page` — what such a screen is for: the characters, cell by cell, with `none` where nothing
  has been printed since the cell was last cleared;
* `Raster` — a screen in memory: `w * h` cells in a row, moved by loops that copy one cell at
  a time, with some value in the cells that scroll in;
* `Shows.put` — a raster that encodes its characters cell by cell shows the page, whatever is
  printed.
-/

variable {α β : Type} {w h : Nat}

/-! ### Pages -/

/-- The cursor and the characters of a screen. -/
structure Page (α : Type) where
  col : Nat
  row : Nat
  cell : Nat → Option α

/-- An empty screen with the cursor at the top left. -/
def Page.empty : Page α := ⟨0, 0, fun _ => none⟩

/-- To the next line, when the line is full or the character says so. -/
def Page.wrap (w : Nat) (newline : α → Bool) (p : Page α) (a : α) : Page α :=
  if w ≤ p.col ∨ newline a = true then { p with col := 0, row := p.row + 1 } else p

/-- One line up, when the cursor has left the screen. -/
def Page.scroll (w h : Nat) (p : Page α) : Page α :=
  if h ≤ p.row then
    { p with row := p.row - 1
             cell := fun i => if i < (h - 1) * w then p.cell (i + w) else none }
  else p

/-- Print a character. -/
def Page.put (w h : Nat) (newline : α → Bool) (p : Page α) (a : α) : Page α :=
  let p := (p.wrap w newline a).scroll w h
  if newline a = true then p
  else { p with cell := Function.update p.cell (p.row * w + p.col) (some a), col := p.col + 1 }

/-- The cursor is on the screen, or behind the last column. -/
structure Page.Fits (w h : Nat) (p : Page α) : Prop where
  col : p.col ≤ w
  row : p.row < h

variable {newline : α → Bool} {p : Page α} {a : α}

theorem Page.Fits.wrap (hp : p.Fits w h) (hnl : newline a = false) (hw : 0 < w) :
    (p.wrap w newline a).col < w ∧ (p.wrap w newline a).row ≤ h := by
  have hcol := hp.col
  have hrow := hp.row
  unfold Page.wrap
  split
  · exact ⟨hw, hrow⟩
  · rename_i hno
    refine ⟨?_, Nat.le_of_lt hrow⟩
    simp only [hnl, Bool.false_eq_true, or_false, Nat.not_le] at hno
    exact hno

theorem Page.scroll_col : (p.scroll w h).col = p.col := by
  unfold Page.scroll
  split <;> rfl

theorem Page.scroll_row (hh : 0 < h) (hrow : p.row ≤ h) : (p.scroll w h).row < h := by
  unfold Page.scroll
  split
  · show p.row - 1 < h
    omega
  · omega

/-- Printing keeps the cursor on the screen. -/
theorem Page.Fits.put (hp : p.Fits w h) (hw : 0 < w) (hh : 0 < h) :
    (p.put w h newline a).Fits w h := by
  unfold Page.put
  cases hnl : newline a with
  | true =>
    simp only [if_true]
    refine ⟨?_, Page.scroll_row hh ?_⟩
    · rw [Page.scroll_col]
      simp [Page.wrap, hnl]
    · have hrow := hp.row
      simp only [Page.wrap, hnl, or_true, if_true]
      omega
  | false =>
    obtain ⟨hcol, hrow⟩ := hp.wrap hnl hw
    simp only [Bool.false_eq_true, if_false]
    refine ⟨?_, Page.scroll_row hh hrow⟩
    show ((p.wrap w newline a).scroll w h).col + 1 ≤ w
    rw [Page.scroll_col]
    omega

/-- A position on the screen is a cell of it. -/
theorem index_lt {x y : Nat} (hx : x < w) (hy : y < h) : y * w + x < h * w := by
  have hle : (y + 1) * w ≤ h * w := Nat.mul_le_mul_right w hy
  rw [Nat.add_mul, Nat.one_mul] at hle
  omega

/-- A character that has been printed is on the screen. -/
theorem Page.put_cell (hp : p.Fits w h) (hw : 0 < w) (hh : 0 < h) (hnl : newline a = false) :
    ∃ i < h * w, (p.put w h newline a).cell i = some a := by
  obtain ⟨hcol, hrow⟩ := hp.wrap hnl hw
  have hcol' : ((p.wrap w newline a).scroll w h).col < w := by
    rw [Page.scroll_col]
    exact hcol
  have hrow' : ((p.wrap w newline a).scroll w h).row < h := Page.scroll_row hh hrow
  refine ⟨_, index_lt hcol' hrow', ?_⟩
  simp only [Page.put, hnl, Bool.false_eq_true, if_false]
  exact Function.update_self ..

/-- What is in a cell after a character has been printed was in some cell before, or is the
    character. -/
theorem Page.cell_put {i : Nat} {b : α} (hb : (p.put w h newline a).cell i = some b) :
    (∃ j, p.cell j = some b) ∨ b = a := by
  have hold : ∀ j, ((p.wrap w newline a).scroll w h).cell j = some b → ∃ j, p.cell j = some b := by
    intro j hj
    have hwrap : (p.wrap w newline a).cell = p.cell := by
      unfold Page.wrap
      split <;> rfl
    unfold Page.scroll at hj
    split at hj
    · simp only [hwrap] at hj
      split at hj
      · exact ⟨_, hj⟩
      · exact absurd hj (by simp)
    · exact ⟨j, hwrap ▸ hj⟩
  unfold Page.put at hb
  cases hnl : newline a with
  | true =>
    simp only [hnl, if_true] at hb
    exact Or.inl (hold i hb)
  | false =>
    simp only [hnl, Bool.false_eq_true, if_false] at hb
    by_cases hi : i = ((p.wrap w newline a).scroll w h).row * w +
        ((p.wrap w newline a).scroll w h).col
    · rw [hi, Function.update_self, Option.some.injEq] at hb
      exact Or.inr hb.symm
    · rw [Function.update_of_ne hi] at hb
      exact Or.inl (hold i hb)

/-! ### Screens in memory -/

/-- Copy row `y` to the row above it, from left to right. -/
def copyRow (w y : Nat) (mem : Nat → β) : Nat → β :=
  (List.range w).foldl (fun m x => Function.update m ((y - 1) * w + x) (m (y * w + x))) mem

/-- Copy every row but the first to the row above it, and fill the last row. -/
def scrollRows (w h : Nat) (fill : β) (mem : Nat → β) : Nat → β :=
  let mem := (List.range' 1 (h - 1)).foldl (fun m y => copyRow w y m) mem
  (List.range w).foldl (fun m x => Function.update m ((h - 1) * w + x) fill) mem

/-- Write one value to every cell, row by row. -/
def fillRows (w h : Nat) (v : β) (mem : Nat → β) : Nat → β :=
  (List.range h).foldl
    (fun m y => (List.range w).foldl (fun m x => Function.update m (y * w + x) v) m) mem

/-- What a row copy leaves. -/
theorem copyRow_apply (y : Nat) (mem : Nat → β) (i : Nat) :
    copyRow w (y + 1) mem i =
      if y * w ≤ i ∧ i < y * w + w then mem (i + w) else mem i := by
  -- after `n` cells, the first `n` cells of the upper row are copied
  have hloop : ∀ n ≤ w, ∀ i,
      (List.range n).foldl
          (fun m x => Function.update m (y * w + x) (m (y * w + w + x))) mem i =
        if y * w ≤ i ∧ i < y * w + n then mem (i + w) else mem i := by
    intro n
    induction n with
    | zero =>
      intro _ i
      rw [if_neg (by omega)]
      rfl
    | succ n ih =>
      intro hn i
      rw [List.range_succ, List.foldl_append, List.foldl_cons, List.foldl_nil]
      by_cases hi : i = y * w + n
      · -- the cell below has not been written yet
        rw [hi, Function.update_self, ih (by omega), if_neg (by omega), if_pos (by omega)]
        congr 1
        omega
      · rw [Function.update_of_ne hi, ih (by omega)]
        exact if_congr (by omega) rfl rfl
  have hrow : (y + 1) * w = y * w + w := by ring
  rw [copyRow, Nat.add_sub_cancel, hrow]
  exact hloop w (Nat.le_refl w) i

/-- What scrolling leaves. -/
theorem scrollRows_apply (fill : β) (mem : Nat → β) (i : Nat) :
    scrollRows w h fill mem i =
      if i < (h - 1) * w then mem (i + w) else if i < (h - 1) * w + w then fill else mem i := by
  -- after `n` rows, everything above row `n` has moved up
  have hrows : ∀ n i, (List.range' 1 n).foldl (fun m y => copyRow w y m) mem i =
      if i < n * w then mem (i + w) else mem i := by
    intro n
    induction n with
    | zero =>
      intro i
      simp
    | succ n ih =>
      intro i
      have hrow : (n + 1) * w = n * w + w := by ring
      rw [List.range'_concat, List.foldl_append, List.foldl_cons, List.foldl_nil, Nat.one_mul,
        Nat.add_comm 1 n, copyRow_apply, ih, ih, hrow]
      split_ifs <;> first | rfl | omega
  -- after `n` cells, the first `n` cells of the last row are filled
  have hfill : ∀ n (m : Nat → β) i,
      (List.range n).foldl (fun m x => Function.update m ((h - 1) * w + x) fill) m i =
        if (h - 1) * w ≤ i ∧ i < (h - 1) * w + n then fill else m i := by
    intro n
    induction n with
    | zero =>
      intro m i
      rw [if_neg (by omega)]
      rfl
    | succ n ih =>
      intro m i
      rw [List.range_succ, List.foldl_append, List.foldl_cons, List.foldl_nil]
      by_cases hi : i = (h - 1) * w + n
      · rw [hi, Function.update_self, if_pos (by omega)]
      · rw [Function.update_of_ne hi, ih]
        exact if_congr (by omega) rfl rfl
  rw [scrollRows, hfill, hrows]
  split_ifs <;> first | rfl | omega

/-- What clearing leaves. -/
theorem fillRows_apply (v : β) (mem : Nat → β) (i : Nat) :
    fillRows w h v mem i = if i < h * w then v else mem i := by
  -- after `n` cells of a row, the first `n` cells of it are filled
  have hrow : ∀ n y (m : Nat → β) i,
      (List.range n).foldl (fun m x => Function.update m (y * w + x) v) m i =
        if y * w ≤ i ∧ i < y * w + n then v else m i := by
    intro n y
    induction n with
    | zero =>
      intro m i
      rw [if_neg (by omega)]
      rfl
    | succ n ih =>
      intro m i
      rw [List.range_succ, List.foldl_append, List.foldl_cons, List.foldl_nil]
      by_cases hi : i = y * w + n
      · rw [hi, Function.update_self, if_pos (by omega)]
      · rw [Function.update_of_ne hi, ih]
        exact if_congr (by omega) rfl rfl
  unfold fillRows
  induction h generalizing i with
  | zero => simp
  | succ n ih =>
    have hnext : (n + 1) * w = n * w + w := by ring
    rw [List.range_succ, List.foldl_append, List.foldl_cons, List.foldl_nil, hrow, ih, hnext]
    split_ifs <;> first | rfl | omega

/-- A screen in memory and its cursor. -/
structure Raster (β : Type) where
  col : Nat
  row : Nat
  mem : Nat → β

/-- Print a character: its encoding goes to the cell at the cursor, and `fill` to the cells that
    scroll in. -/
def Raster.put (w h : Nat) (fill : β) (encode : α → β) (newline : α → Bool) (r : Raster β) (a : α) :
    Raster β :=
  let r := if w ≤ r.col ∨ newline a = true then { r with col := 0, row := r.row + 1 } else r
  let r := if h ≤ r.row then { r with row := r.row - 1, mem := scrollRows w h fill r.mem } else r
  if newline a = true then r
  else { r with mem := Function.update r.mem (r.row * w + r.col) (encode a), col := r.col + 1 }

/-- The raster has the cursor of the page, and every character of the page in its cell. -/
structure Shows (w h : Nat) (encode : α → β) (p : Page α) (r : Raster β) : Prop where
  col : r.col = p.col
  row : r.row = p.row
  cell : ∀ i < h * w, ∀ a, p.cell i = some a → r.mem i = encode a

variable {encode : α → β} {r : Raster β} {fill : β}

/-- An empty page is shown by any memory. -/
theorem shows_empty (mem : Nat → β) : Shows w h encode Page.empty ⟨0, 0, mem⟩ :=
  ⟨rfl, rfl, fun _ _ _ hc => absurd hc (by simp [Page.empty])⟩

/-- **Refinement.**  Whatever is printed, the raster goes on to show the page. -/
theorem Shows.put (hs : Shows w h encode p r) (hh : 0 < h) :
    Shows w h encode (p.put w h newline a) (r.put w h fill encode newline a) := by
  obtain ⟨hcol, hrow, hcell⟩ := hs
  obtain ⟨pcol, prow, pcell⟩ := p
  obtain ⟨rcol, rrow, mem⟩ := r
  obtain rfl : rcol = pcol := hcol
  obtain rfl : rrow = prow := hrow
  -- first the line break: it moves the cursor on both sides
  have hwrap : ∃ col row, (Page.wrap w newline ⟨rcol, rrow, pcell⟩ a) = ⟨col, row, pcell⟩ ∧
      (if w ≤ rcol ∨ newline a = true then ⟨0, rrow + 1, mem⟩ else ⟨rcol, rrow, mem⟩ : Raster β) =
        ⟨col, row, mem⟩ := by
    unfold Page.wrap
    by_cases hbreak : w ≤ rcol ∨ newline a = true
    · exact ⟨0, rrow + 1, by rw [if_pos hbreak], by rw [if_pos hbreak]⟩
    · exact ⟨rcol, rrow, by rw [if_neg hbreak], by rw [if_neg hbreak]⟩
  obtain ⟨col, row, hpage, hraster⟩ := hwrap
  -- then the scrolling: a cell that holds a character holds its encoding
  have hscroll : Shows w h encode (Page.scroll w h ⟨col, row, pcell⟩)
      (if h ≤ row then ⟨col, row - 1, scrollRows w h fill mem⟩ else ⟨col, row, mem⟩) := by
    unfold Page.scroll
    by_cases hbottom : h ≤ row
    · rw [if_pos hbottom, if_pos hbottom]
      refine ⟨rfl, rfl, ?_⟩
      intro i _ a ha
      have hlast : (h - 1) * w + w = h * w := by
        rw [← Nat.succ_mul]
        congr 1
        omega
      simp only [scrollRows_apply] at ha ⊢
      by_cases hi : i < (h - 1) * w
      · rw [if_pos hi] at ha ⊢
        exact hcell (i + w) (by omega) a ha
      · rw [if_neg hi] at ha
        exact absurd ha (by simp)
    · rw [if_neg hbottom, if_neg hbottom]
      exact ⟨rfl, rfl, hcell⟩
  -- and the character itself
  unfold Page.put Raster.put
  simp only [hpage, hraster]
  generalize Page.scroll w h ⟨col, row, pcell⟩ = p' at hscroll ⊢
  generalize (if h ≤ row then ⟨col, row - 1, scrollRows w h fill mem⟩
    else ⟨col, row, mem⟩ : Raster β) = r' at hscroll ⊢
  cases newline a with
  | true => exact hscroll
  | false =>
    refine ⟨congrArg (· + 1) hscroll.col, hscroll.row, ?_⟩
    intro i hi b hb
    simp only [Bool.false_eq_true, if_false, hscroll.row, hscroll.col] at hb ⊢
    by_cases heq : i = p'.row * w + p'.col
    · rw [heq, Function.update_self, Option.some.injEq] at hb
      rw [heq, Function.update_self, hb]
    · rw [Function.update_of_ne heq] at hb ⊢
      exact hscroll.cell i hi b hb

end Leoman.TextScreen
