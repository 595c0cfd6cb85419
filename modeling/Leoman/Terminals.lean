import Leoman.Screen
import Mathlib.Data.List.Induction

namespace Leoman

open Leoman.TextScreen

/-!
# The two terminals (`kernel/vga.c`, `drivers/screen.c`)

The kernel prints on the VGA screen itself until the screen driver is up, with an implementation
of its own.  Both are compared with the page that a screen of 80 by 25 should show.

* `vgaPutch_raster` — `vga_putch` prints as `Raster.put` does, with `vgaMakeChar`;
* `screenCell_eq_iff` — the driver and the kernel encode a character alike exactly when its top
  bit is clear, or when the colour byte is all ones;
* `agree_iff` — after a sequence of bytes the two agree exactly when every character that is
  still on the screen is encoded alike;
* `terminals_agree` — they agree all the way through a sequence exactly when it has no byte
  above `0x7f`, or the colour byte is all ones.
-/

/-! ### The kernel's terminal -/

/-- `VGA_WIDTH`. -/
def vgaWidth : Nat := 80

/-- `VGA_HEIGHT`. -/
def vgaHeight : Nat := 25

/-- `vga_col`, `vga_row`, `vga_color` and the video memory, cell by cell. -/
structure Vga where
  vgaCol : Nat
  vgaRow : Nat
  vgaColor : BitVec 8
  vgaMem : Nat → BitVec 16

/-- `vga_scrollup`: the last row is filled with `' '`. -/
def vgaScrollup (v : Vga) : Vga :=
  { v with vgaMem := scrollRows vgaWidth vgaHeight 0x0020#16 v.vgaMem }

/-- `vga_make_color`. -/
def vgaMakeColor (fg bg : BitVec 32) : BitVec 8 := (fg ||| bg <<< 4).setWidth 8

/-- `vga_make_char`: both bytes are made unsigned first. -/
def vgaMakeChar (color ch : BitVec 8) : BitVec 16 :=
  (ch.setWidth 32 ||| color.setWidth 32 <<< 8).setWidth 16

/-- `vga_putchat`. -/
def vgaPutchat (v : Vga) (ch color : BitVec 8) (x y : Nat) : Vga :=
  { v with vgaMem := Function.update v.vgaMem (y * vgaWidth + x) (vgaMakeChar color ch) }

/-- `vga_putch`. -/
def vgaPutch (v : Vga) (ch : BitVec 8) : Vga :=
  let v := if vgaWidth ≤ v.vgaCol ∨ ch = newlineChar then
      { v with vgaCol := 0, vgaRow := v.vgaRow + 1 }
    else v
  let v := if vgaHeight ≤ v.vgaRow then { vgaScrollup v with vgaRow := v.vgaRow - 1 } else v
  if ch = newlineChar then v
  else { vgaPutchat v ch v.vgaColor v.vgaCol v.vgaRow with vgaCol := v.vgaCol + 1 }

/-- `vga_init`, on whatever the video memory holds. -/
def vgaInit (mem : Nat → BitVec 16) : Vga :=
  let color := vgaMakeColor 15#32 0#32
  ⟨0, 0, color, fillRows vgaWidth vgaHeight (vgaMakeChar color 0x20#8) mem⟩

/-- The screen as a raster. -/
def Vga.raster (v : Vga) : Raster (BitVec 16) := ⟨v.vgaCol, v.vgaRow, v.vgaMem⟩

/-- **What `vga_putch` does.**  It prints on the raster, and keeps the colour. -/
theorem vgaPutch_raster (v : Vga) (ch : BitVec 8) :
    (vgaPutch v ch).raster = v.raster.put vgaWidth vgaHeight 0x0020#16
        (vgaMakeChar v.vgaColor) isNewline ch ∧
      (vgaPutch v ch).vgaColor = v.vgaColor := by
  obtain ⟨col, row, color, mem⟩ := v
  by_cases hnl : ch = newlineChar <;> by_cases hfull : vgaWidth ≤ col <;>
    by_cases hbottom : vgaHeight ≤ row + 1 <;> by_cases hrow : vgaHeight ≤ row <;>
    simp [vgaPutch, Raster.put, Vga.raster, vgaScrollup, vgaPutchat, isNewline, hnl, hfull,
      hbottom, hrow]

/-! ### The encodings -/

/-- Bit by bit: the character below, the colour above; the driver also puts the character's sign
    into the colour. -/
theorem screenCell_getLsbD (fg bg : BitVec 32) (ch : BitVec 8) {i : Nat} (hi : i < 16) :
    (screenCell fg bg ch).getLsbD i =
      if i < 8 then ch.getLsbD i else (vgaMakeColor fg bg).getLsbD (i - 8) || ch.msb := by
  have h32 : i < 32 := by omega
  have hcolor : i - 8 < 32 := by omega
  simp only [screenCell, vgaMakeColor, BitVec.getLsbD_setWidth, BitVec.getLsbD_or,
    BitVec.getLsbD_shiftLeft, BitVec.getLsbD_signExtend, hi, h32, hcolor, decide_true,
    Bool.true_and]
  by_cases h8 : i < 8
  · simp [h8]
  · have hlow : i - 8 < 8 := by omega
    simp [h8, hlow, Bool.or_comm]

theorem vgaMakeChar_getLsbD (color ch : BitVec 8) {i : Nat} (hi : i < 16) :
    (vgaMakeChar color ch).getLsbD i =
      if i < 8 then ch.getLsbD i else color.getLsbD (i - 8) := by
  have h32 : i < 32 := by omega
  simp only [vgaMakeChar, BitVec.getLsbD_setWidth, BitVec.getLsbD_or, BitVec.getLsbD_shiftLeft,
    hi, h32, decide_true, Bool.true_and]
  by_cases h8 : i < 8
  · simp [h8]
  · have hch : ch.getLsbD i = false := BitVec.getLsbD_of_ge ch i (by omega)
    have hcolor : i - 8 < 32 := by omega
    simp [h8, hch, hcolor]

/-- **The encodings differ in the colour of bytes above `0x7f`.** -/
theorem screenCell_eq_iff (fg bg : BitVec 32) (ch : BitVec 8) :
    screenCell fg bg ch = vgaMakeChar (vgaMakeColor fg bg) ch ↔
      ch < 0x80#8 ∨ vgaMakeColor fg bg = 0xff#8 := by
  have hmsb : ch < 0x80#8 ↔ ch.msb = false := by
    rw [BitVec.msb_eq_false_iff_two_mul_lt, BitVec.lt_def]
    have h80 : (0x80#8).toNat = 128 := by decide
    rw [h80]
    omega
  have hones : 0xff#8 = BitVec.allOnes 8 := by decide
  rw [hmsb]
  constructor
  · intro heq
    cases hm : ch.msb with
    | false => exact Or.inl rfl
    | true =>
      refine Or.inr (BitVec.eq_of_getLsbD_eq fun j hj => ?_)
      have hbit := congrArg (fun w : BitVec 16 => w.getLsbD (j + 8)) heq
      simp only [screenCell_getLsbD fg bg ch (show j + 8 < 16 by omega),
        vgaMakeChar_getLsbD _ ch (show j + 8 < 16 by omega), hm, Bool.or_true,
        if_neg (show ¬ j + 8 < 8 by omega), Nat.add_sub_cancel] at hbit
      rw [hones, BitVec.getLsbD_allOnes, ← hbit]
      simpa using hj
  · intro hok
    apply BitVec.eq_of_getLsbD_eq
    intro i hi
    rw [screenCell_getLsbD fg bg ch hi, vgaMakeChar_getLsbD _ ch hi]
    refine if_congr Iff.rfl rfl ?_
    obtain hm | hff := hok
    · rw [hm, Bool.or_false]
    · rw [hff, hones, BitVec.getLsbD_allOnes]
      have hlt : i - 8 < 8 := by omega
      simp [hlt]

/-! ### Printing on both -/

section Printing

variable (fg bg : BitVec 32)

/-- The kernel's screen after `vga_init`, the choice of the colours, and a sequence of bytes. -/
def kernelPrints (mem : Nat → BitVec 16) (bytes : List (BitVec 8)) : Vga :=
  bytes.foldl vgaPutch { vgaInit mem with vgaColor := vgaMakeColor fg bg }

/-- The driver's screen after the choice of the colours, `clear`, and a sequence of bytes. -/
def driverPrints (mem : Nat → BitVec 16) (bytes : List (BitVec 8)) : Screen :=
  putChars (clear ⟨0, 0, fg, bg, mem⟩) bytes

/-- The page that ought to be shown; its empty cells are those that clearing or scrolling left
    blank. -/
def pageOf (bytes : List (BitVec 8)) : Page (BitVec 8) :=
  bytes.foldl (Page.put vgaWidth vgaHeight isNewline) Page.empty

/-- The cursors are in the same place, and so is every character. -/
structure Agree (p : Page (BitVec 8)) (v : Vga) (s : Screen) : Prop where
  col : v.vgaCol = s.column
  row : v.vgaRow = s.row
  cell : ∀ i < vgaHeight * vgaWidth, p.cell i ≠ none → v.vgaMem i = s.videoMemory i

variable {fg bg} {mem mem' : Nat → BitVec 16}

/-- The kernel shows the page. -/
theorem kernelPrints_shows (bytes : List (BitVec 8)) :
    Shows vgaWidth vgaHeight (vgaMakeChar (vgaMakeColor fg bg)) (pageOf bytes)
        (kernelPrints fg bg mem bytes).raster ∧
      (kernelPrints fg bg mem bytes).vgaColor = vgaMakeColor fg bg := by
  induction bytes using List.reverseRecOn with
  | nil => exact ⟨shows_empty _, rfl⟩
  | append_singleton bytes ch ih =>
    obtain ⟨hshows, hcolor⟩ := ih
    obtain ⟨hraster, hkeep⟩ := vgaPutch_raster (kernelPrints fg bg mem bytes) ch
    rw [hcolor] at hraster
    simp only [kernelPrints, pageOf, List.foldl_append, List.foldl_cons, List.foldl_nil] at *
    rw [hraster]
    exact ⟨hshows.put (by decide), hkeep.trans hcolor⟩

/-- The driver shows the page. -/
theorem driverPrints_shows (bytes : List (BitVec 8)) :
    Shows vgaWidth vgaHeight (screenCell fg bg) (pageOf bytes)
        (driverPrints fg bg mem bytes).raster ∧
      (driverPrints fg bg mem bytes).fgColor = fg ∧
      (driverPrints fg bg mem bytes).bgColor = bg := by
  induction bytes using List.reverseRecOn with
  | nil => exact ⟨shows_empty _, rfl, rfl⟩
  | append_singleton bytes ch ih =>
    obtain ⟨hshows, hfg, hbg⟩ := ih
    obtain ⟨hraster, hkeepf, hkeepb⟩ := putChar_raster (driverPrints fg bg mem bytes) ch
    rw [hfg, hbg] at hraster
    simp only [driverPrints, putChars, pageOf, List.foldl_append, List.foldl_cons,
      List.foldl_nil] at *
    rw [hraster]
    exact ⟨hshows.put (by decide), hkeepf.trans hfg, hkeepb.trans hbg⟩

/-- The cursor stays on the screen. -/
theorem pageOf_fits (bytes : List (BitVec 8)) : (pageOf bytes).Fits vgaWidth vgaHeight := by
  induction bytes using List.reverseRecOn with
  | nil => exact ⟨Nat.zero_le _, by decide⟩
  | append_singleton bytes ch ih =>
    rw [pageOf, List.foldl_append]
    exact ih.put (by decide) (by decide)

/-- **When the screens agree.**  After a sequence of bytes the two terminals agree exactly when
    every character that is on the screen is below `0x80`, or the colour byte is all ones. -/
theorem agree_iff (bytes : List (BitVec 8)) :
    Agree (pageOf bytes) (kernelPrints fg bg mem bytes) (driverPrints fg bg mem' bytes) ↔
      ∀ i < vgaHeight * vgaWidth, ∀ ch, (pageOf bytes).cell i = some ch →
        ch < 0x80#8 ∨ vgaMakeColor fg bg = 0xff#8 := by
  obtain ⟨hkernel, -⟩ := @kernelPrints_shows fg bg mem bytes
  obtain ⟨hdriver, -⟩ := @driverPrints_shows fg bg mem' bytes
  constructor
  · intro h i hi ch hch
    rw [← screenCell_eq_iff]
    calc screenCell fg bg ch = (driverPrints fg bg mem' bytes).videoMemory i :=
          (hdriver.cell i hi ch hch).symm
      _ = (kernelPrints fg bg mem bytes).vgaMem i := (h.cell i hi (by simp [hch])).symm
      _ = vgaMakeChar (vgaMakeColor fg bg) ch := hkernel.cell i hi ch hch
  · intro h
    refine ⟨hkernel.col.trans hdriver.col.symm, hkernel.row.trans hdriver.row.symm, ?_⟩
    intro i hi hne
    obtain ⟨ch, hch⟩ := Option.ne_none_iff_exists'.mp hne
    calc (kernelPrints fg bg mem bytes).vgaMem i = vgaMakeChar (vgaMakeColor fg bg) ch :=
          hkernel.cell i hi ch hch
      _ = screenCell fg bg ch := ((screenCell_eq_iff fg bg ch).mpr (h i hi ch hch)).symm
      _ = (driverPrints fg bg mem' bytes).videoMemory i := (hdriver.cell i hi ch hch).symm

/-- Every character on the page was printed. -/
theorem pageOf_cell {bytes : List (BitVec 8)} {i : Nat} {ch : BitVec 8}
    (h : (pageOf bytes).cell i = some ch) : ch ∈ bytes := by
  induction bytes using List.reverseRecOn generalizing i with
  | nil => exact absurd h (by simp [pageOf, Page.empty])
  | append_singleton bytes b ih =>
    rw [pageOf, List.foldl_append] at h
    obtain ⟨j, hold⟩ | hnew := Page.cell_put h
    · exact List.mem_append_left _ (ih hold)
    · exact List.mem_append_right _ (List.mem_singleton.mpr hnew)

end Printing

/-- **The two terminals agree** at every point of a sequence of bytes exactly when it has no byte
    above `0x7f`, or when the colours are such that the colour byte is all ones. -/
theorem terminals_agree (fg bg : BitVec 32) (mem mem' : Nat → BitVec 16)
    (bytes : List (BitVec 8)) :
    (∀ printed, printed <+: bytes → Agree (pageOf printed) (kernelPrints fg bg mem printed)
        (driverPrints fg bg mem' printed)) ↔
      (∀ ch ∈ bytes, ch < 0x80#8) ∨ vgaMakeColor fg bg = 0xff#8 := by
  constructor
  · intro h
    by_cases hff : vgaMakeColor fg bg = 0xff#8
    · exact Or.inr hff
    · refine Or.inl fun ch hch => ?_
      by_cases hnl : ch = newlineChar
      · rw [hnl]
        decide
      · -- right after it has been printed, the character is on the screen
        obtain ⟨before, after, rfl⟩ := List.append_of_mem hch
        have hagree := h (before ++ [ch]) ⟨after, by simp⟩
        rw [agree_iff] at hagree
        have hshown : isNewline ch = false := by simp [isNewline, hnl]
        obtain ⟨i, hi, hcell⟩ := Page.put_cell (pageOf_fits before) (by decide) (by decide) hshown
        have hcell' : (pageOf (before ++ [ch])).cell i = some ch := by
          rw [pageOf, List.foldl_append]
          exact hcell
        exact (hagree i hi ch hcell').resolve_right hff
  · intro h printed hprefix
    rw [agree_iff]
    intro i _ ch hch
    refine h.imp_left fun hlow => hlow ch ?_
    exact hprefix.subset (pageOf_cell hch)

/-- White on black, a byte above `0x7f`. -/
theorem high_byte_disagrees :
    ¬ ∀ (fg bg : BitVec 32) (mem mem' : Nat → BitVec 16) (bytes : List (BitVec 8)),
      Agree (pageOf bytes) (kernelPrints fg bg mem bytes) (driverPrints fg bg mem' bytes) := by
  intro h
  have hall := (terminals_agree 15#32 0#32 (fun _ => 0#16) (fun _ => 0#16) [0xdc#8]).mp
    fun printed _ => h _ _ _ _ printed
  revert hall
  decide

end Leoman
