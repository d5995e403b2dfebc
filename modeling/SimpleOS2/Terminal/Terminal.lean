/-
  File:      SimpleOS2/Terminal/Terminal.lean
  Subject:   THE DOUBLE-BUFFERED TERMINAL (terminal/terminal.cpp).

  Behind the video buffer stands a back buffer whose rows of characters form a ring: `bBufferLine` is the
  row that is shown on top. To scroll, the ring is turned by one row, the row at the bottom is cleared,
  and the ring is copied onto the screen in two pieces.

  * `paint`, `blt` -- writing a rectangle, copying one; `paint_px`, `blt_px` -- what a pixel is afterwards;
  * `TerminalInfo`, `putChar`, `removeChar`, `newLine` -- the terminal;
  * `Fits` -- the text area lies on the screen and the cursor in the text area;
  * `Shows` -- each character cell of the screen is the one of the ring;
  * `Safe` -- a step does not scroll, or the pixels that `Blt` leaves out are blank;
  * `ring_shown` -- on runs of safe steps the screen shows the ring;
  * `right_margin_kept` -- scrolling leaves the columns at the right as they were.

  A buffer is a function from pixel indices to pixels. Sizes are below the range of an `int`. The lock
  around the calls and `Clear`, `SetCursor` are left out.
-/
import Mathlib.Logic.Function.Basic
import Mathlib.Tactic.SplitIfs
import SimpleOS2.Lib.Run

namespace SimpleOS2

open Lib

namespace Terminal

/-! ## 1. Rectangles of pixels -/

/-- The pixels of a buffer, by their index. -/
abbrev Buffer := Nat → Nat

/-- The pixel in a column and a line. -/
def px (buf : Buffer) (scan p q : Nat) : Nat := buf (p + q * scan)

/-- `for(int i = 0; i < n; i++)`. -/
def loop {β : Type} (body : Nat → β → β) : (n : Nat) → β → β
  | 0, b => b
  | n + 1, b => body n (loop body n b)

/-- The loops that write a rectangle pixel by pixel. -/
def paint (val : Nat → Nat → Nat) (x y w h scan : Nat) (dest : Buffer) : Buffer :=
  loop (fun j d => loop (fun i d => Function.update d ((x + i) + (y + j) * scan) (val i j)) w d) h dest

/-- `Fill`. -/
def fill (dest : Buffer) (pxl x y w h dstScan : Nat) : Buffer := paint (fun _ _ => pxl) x y w h dstScan dest

/-- `kmemcpy` of `width` pixels. -/
def copyRow (dest src : Buffer) (dst from_ width : Nat) : Buffer :=
  fun i => if dst ≤ i ∧ i < dst + width then src (from_ + (i - dst)) else dest i

/-- `Blt`. It takes the columns `srcX` and `dstX` and copies from the first column to the first column.
    `src` is what stands in the source while `dest` is written: both may be one buffer. -/
def blt (dest : Buffer) (src : Buffer → Buffer) (_srcX srcY _dstX dstY width height srcScan dstScan : Nat) :
    Buffer :=
  loop (fun y d => copyRow d (src d) ((dstY + y) * dstScan) ((srcY + y) * srcScan) width) height dest

section Pixels

variable {scan p q p' q' x y w h : Nat} {val : Nat → Nat → Nat} {dest : Buffer}

theorem index_inj (hp : p < scan) (hp' : p' < scan) (h : p + q * scan = p' + q' * scan) :
    p = p' ∧ q = q' := by
  have h1 : (p + q * scan) % scan = (p' + q' * scan) % scan := by rw [h]
  rw [Nat.add_mul_mod_self_right, Nat.add_mul_mod_self_right, Nat.mod_eq_of_lt hp,
    Nat.mod_eq_of_lt hp'] at h1
  subst h1
  exact ⟨rfl, Nat.eq_of_mul_eq_mul_right (by omega) (Nat.add_left_cancel h)⟩

/-- One line of a rectangle. -/
theorem line_px (hw : x + w ≤ scan) (hp : p < scan) (v : Nat → Nat) (l : Nat) :
    px (loop (fun i d => Function.update d ((x + i) + l * scan) (v i)) w dest) scan p q =
      if q = l ∧ x ≤ p ∧ p < x + w then v (p - x) else px dest scan p q := by
  induction w with
  | zero =>
      rw [if_neg (by omega)]
      rfl
  | succ w ih =>
      have ih := ih (by omega)
      by_cases hx : p = x + w ∧ q = l
      · obtain ⟨rfl, rfl⟩ := hx
        rw [if_pos (by omega), Nat.add_sub_cancel_left]
        exact Function.update_self _ _ _
      · have hne : p + q * scan ≠ (x + w) + l * scan := by
          intro he
          exact hx (index_inj hp (by omega) he)
        refine (Function.update_of_ne hne _ _).trans (ih.trans ?_)
        have hiff : (q = l ∧ x ≤ p ∧ p < x + w) ↔ (q = l ∧ x ≤ p ∧ p < x + (w + 1)) := by omega
        simp only [hiff]

/-- **A pixel after a rectangle has been written.** -/
theorem paint_px (hw : x + w ≤ scan) (hp : p < scan) :
    px (paint val x y w h scan dest) scan p q =
      if (y ≤ q ∧ q < y + h) ∧ x ≤ p ∧ p < x + w then val (p - x) (q - y) else px dest scan p q := by
  unfold paint
  induction h with
  | zero =>
      rw [if_neg (by omega)]
      rfl
  | succ h ih =>
      refine (line_px hw hp (fun i => val i h) (y + h)).trans ?_
      rw [ih]
      by_cases hl : q = y + h
      · subst hl
        by_cases hx : x ≤ p ∧ p < x + w
        · rw [if_pos ⟨rfl, hx⟩, if_pos ⟨by omega, hx⟩, Nat.add_sub_cancel_left]
        · rw [if_neg (fun hc => hx hc.2), if_neg (fun hc => hx hc.2), if_neg (fun hc => hx hc.2)]
      · rw [if_neg (fun hc => hl hc.1)]
        have hiff : ((y ≤ q ∧ q < y + h) ∧ x ≤ p ∧ p < x + w) ↔
            ((y ≤ q ∧ q < y + (h + 1)) ∧ x ≤ p ∧ p < x + w) := by omega
        simp only [hiff]

/-- **A pixel after a copy from another buffer**: the columns from `width` on are left out. -/
theorem blt_px {src : Buffer} {srcX srcY dstX dstY width : Nat} (hw : width ≤ scan) (hp : p < scan) :
    px (blt dest (fun _ => src) srcX srcY dstX dstY width h scan scan) scan p q =
      if (dstY ≤ q ∧ q < dstY + h) ∧ p < width then px src scan p (srcY + (q - dstY))
      else px dest scan p q := by
  unfold blt
  induction h with
  | zero =>
      rw [if_neg (by omega)]
      rfl
  | succ h ih =>
      show copyRow _ src ((dstY + h) * scan) ((srcY + h) * scan) width (p + q * scan) = _
      unfold copyRow
      by_cases hl : q = dstY + h
      · subst hl
        by_cases hx : p < width
        · rw [if_pos (by omega), if_pos ⟨by omega, hx⟩, Nat.add_sub_cancel_left, Nat.add_sub_cancel,
            Nat.add_comm]
          rfl
        · rw [if_neg (by omega), if_neg (by omega)]
          exact ih.trans (if_neg (by omega))
      · have hne : ¬ ((dstY + h) * scan ≤ p + q * scan ∧ p + q * scan < (dstY + h) * scan + width) := by
          intro hc
          have h1 : p + q * scan = (p + q * scan - (dstY + h) * scan) + (dstY + h) * scan := by omega
          exact hl (index_inj hp (by omega) h1).2
        rw [if_neg hne]
        refine ih.trans ?_
        have hiff : ((dstY ≤ q ∧ q < dstY + h) ∧ p < width) ↔
            ((dstY ≤ q ∧ q < dstY + (h + 1)) ∧ p < width) := by omega
        simp only [hiff]

end Pixels

/-! ## 2. The terminal -/

def margin : Nat := 25
def charWidth : Nat := 8
def charHeight : Nat := 16

structure TerminalInfo where
  vBuffer : Buffer
  screenWidth : Nat
  screenHeight : Nat
  screenScanlineWidth : Nat
  invertColors : Bool
  cursorX : Nat
  cursorY : Nat
  screenCharsPerRow : Nat
  screenCharsPerCol : Nat
  bBuffer : Option Buffer
  bBufferLine : Nat

/-- `InitTerminalInfo`. The line of the back buffer is set when there is one. -/
def initTerminalInfo (videoBuffer : Buffer) (width height scanline : Nat) (invertColors : Bool)
    (garbage : Nat) : TerminalInfo where
  vBuffer := videoBuffer
  screenWidth := width
  screenHeight := height
  screenScanlineWidth := scanline
  invertColors := invertColors
  cursorX := 0
  cursorY := 0
  screenCharsPerRow := (width - margin * 2) / charWidth
  screenCharsPerCol := (height - margin * 2) / charHeight
  bBuffer := none
  bBufferLine := garbage

/-- `EnableDoubleBuffering`. The pages of the back buffer hold something behind the last pixel. -/
def enableDoubleBuffering (t : TerminalInfo) (garbage : Buffer) : TerminalInfo :=
  { t with
    bBuffer := some (copyRow garbage t.vBuffer 0 0 (t.screenScanlineWidth * t.screenHeight))
    bBufferLine := 0 }

section Functions

-- `g_FontData` and what stands behind it
variable (fontData : Nat → Nat)

/-- The pixel of a character: `charData[y] & (1 << (g_CharWidth - 1 - x))`. -/
def glyph (c : BitVec 8) (color x y : Nat) : Nat :=
  if fontData ((c.signExtend 64).toNat * charHeight + y) &&& (1 <<< (charWidth - 1 - x)) ≠ 0 then color
  else 0

/-- The loops over the pixels of a character. -/
def renderAt (dest : Buffer) (c : BitVec 8) (xPos line color scan : Nat) : Buffer :=
  paint (glyph fontData c color) (xPos * charWidth + margin) line charWidth charHeight scan dest

/-- `_RenderChar`. -/
def renderCharScreen (t : TerminalInfo) (c : BitVec 8) (xPos yPos color : Nat) : TerminalInfo :=
  { t with
    vBuffer := renderAt fontData t.vBuffer c xPos (yPos * charHeight + margin) color t.screenScanlineWidth }

/-- `_RenderCharBB`. -/
def renderCharBB (t : TerminalInfo) (bBuffer : Buffer) (c : BitVec 8) (xPos yPos color : Nat) :
    TerminalInfo :=
  let yy := (t.bBufferLine + yPos) % t.screenCharsPerCol * charHeight + margin
  renderCharScreen fontData
    { t with bBuffer := some (renderAt fontData bBuffer c xPos yy color t.screenScanlineWidth) } c xPos yPos
    color

/-- `RenderChar`. -/
def renderChar (t : TerminalInfo) (c : BitVec 8) (xPos yPos color : Nat) : TerminalInfo :=
  match t.bBuffer with
  | none => renderCharScreen fontData t c xPos yPos color
  | some bBuffer => renderCharBB fontData t bBuffer c xPos yPos color

def chSpace : BitVec 8 := 0x20
def chCursor : BitVec 8 := 0x5F
def white : Nat := 0xFFFFFFFF

/-- `_AdvanceCursor`: on one buffer it is moved up. -/
def advanceCursorScreen (t : TerminalInfo) : TerminalInfo :=
  let width := t.screenCharsPerRow * charWidth
  let rows := (t.screenCharsPerCol - 1) * charHeight
  let scan := t.screenScanlineWidth
  let moved :=
    if t.cursorX + 1 = t.screenCharsPerRow then
      if t.cursorY + 1 = t.screenCharsPerCol then
        { t with
          cursorX := 0
          cursorY := t.screenCharsPerCol - 1
          vBuffer := fill (blt t.vBuffer (fun d => d) margin (margin + charHeight) margin margin width rows
            scan scan) 0 margin (margin + rows) width charHeight scan }
      else { t with cursorX := 0, cursorY := t.cursorY + 1 }
    else { t with cursorX := t.cursorX + 1 }
  renderChar fontData moved chCursor moved.cursorX moved.cursorY white

/-- The scrolling in `_AdvanceCursorBB`. -/
def scrollBB (t : TerminalInfo) (bBuffer : Buffer) : TerminalInfo :=
  let n := t.screenCharsPerCol
  let width := t.screenCharsPerRow * charWidth
  let scan := t.screenScanlineWidth
  let line := (t.bBufferLine + 1) % n
  let fillYY := margin + ((line + n - 1) % n) * charHeight
  let b := fill bBuffer 0 margin fillYY width charHeight scan
  let yyA := margin
  let heightA := (n - line) * charHeight
  let yyB := yyA + heightA
  let heightB := n * charHeight - heightA
  let v := blt t.vBuffer (fun _ => b) margin (line * charHeight + margin) margin yyA width heightA scan scan
  { t with
    cursorX := 0
    cursorY := n - 1
    bBufferLine := line
    bBuffer := some b
    vBuffer := blt v (fun _ => b) margin margin margin yyB width heightB scan scan }

/-- `_AdvanceCursorBB`. -/
def advanceCursorBB (t : TerminalInfo) (bBuffer : Buffer) : TerminalInfo :=
  if t.cursorX + 1 = t.screenCharsPerRow then
    if t.cursorY + 1 = t.screenCharsPerCol then scrollBB t bBuffer
    else { t with cursorX := 0, cursorY := t.cursorY + 1 }
  else { t with cursorX := t.cursorX + 1 }

/-- `AdvanceCursor`. -/
def advanceCursor (t : TerminalInfo) : TerminalInfo :=
  match t.bBuffer with
  | none => advanceCursorScreen fontData t
  | some bBuffer => advanceCursorBB t bBuffer

/-- The color of `PutChar`. -/
def shownColor (t : TerminalInfo) (color : Nat) : Nat :=
  if t.invertColors then
    ((color &&& 0xFF) <<< 16) ||| (((color >>> 8) &&& 0xFF) <<< 8) ||| ((color >>> 16) &&& 0xFF)
  else color

/-- `RenderChar(tInfo, '_', tInfo->cursorX, tInfo->cursorY, 0xFFFFFFFF)`. -/
def renderCursor (t : TerminalInfo) : TerminalInfo :=
  renderChar fontData t chCursor t.cursorX t.cursorY white

/-- `PutChar`. -/
def putChar (t : TerminalInfo) (c : BitVec 8) (color : Nat) : TerminalInfo :=
  renderCursor fontData
    (advanceCursor fontData (renderChar fontData t c t.cursorX t.cursorY (shownColor t color)))

/-- `RemoveChar`. -/
def removeChar (t : TerminalInfo) : TerminalInfo :=
  let t := renderChar fontData t chSpace t.cursorX t.cursorY 0
  if t.cursorX = 0 then
    if 0 < t.cursorY then
      renderCursor fontData { t with cursorX := t.screenCharsPerRow - 1, cursorY := t.cursorY - 1 }
    else t
  else renderCursor fontData { t with cursorX := t.cursorX - 1 }

/-- `NewLine`. -/
def newLine (t : TerminalInfo) : TerminalInfo :=
  let t := renderChar fontData t chSpace t.cursorX t.cursorY 0
  renderCursor fontData (advanceCursor fontData { t with cursorX := t.screenCharsPerRow - 1 })

end Functions

/-! ## 3. The text area -/

/-- The text area lies on the screen, and the cursor in the text area. -/
structure Fits (t : TerminalInfo) : Prop where
  rows : 0 < t.screenCharsPerRow
  cols : 0 < t.screenCharsPerCol
  scan : margin + t.screenCharsPerRow * charWidth ≤ t.screenScanlineWidth
  height : margin + t.screenCharsPerCol * charHeight ≤ t.screenHeight
  cursorX : t.cursorX < t.screenCharsPerRow
  cursorY : t.cursorY < t.screenCharsPerCol

/-- A screen with at least one character fits. -/
theorem init_fits (videoBuffer : Buffer) {width height scanline : Nat} (invertColors : Bool)
    (garbage : Nat) (hw : margin * 2 + charWidth ≤ width) (hh : margin * 2 + charHeight ≤ height)
    (hs : width ≤ scanline) :
    Fits (initTerminalInfo videoBuffer width height scanline invertColors garbage) := by
  simp only [margin, charWidth, charHeight] at hw hh
  constructor <;> simp only [initTerminalInfo, margin, charWidth, charHeight] <;> omega

/-- The pixel of a character cell. -/
def cellPx (buf : Buffer) (scan x y i j : Nat) : Nat :=
  px buf scan (x * charWidth + margin + i) (y * charHeight + margin + j)

/-- The row of the ring that is shown in a row of the screen. -/
def TerminalInfo.ringRow (t : TerminalInfo) (y : Nat) : Nat := (t.bBufferLine + y) % t.screenCharsPerCol

/-- **The screen shows the ring.** -/
def Shows (t : TerminalInfo) (b : Buffer) : Prop :=
  ∀ x y i j, x < t.screenCharsPerRow → y < t.screenCharsPerCol → i < charWidth → j < charHeight →
    cellPx t.vBuffer t.screenScanlineWidth x y i j =
      cellPx b t.screenScanlineWidth x (t.ringRow y) i j

/-- A terminal with the back buffer `b`, whatever its screen shows. -/
structure Running (t : TerminalInfo) (b : Buffer) : Prop where
  buffer : t.bBuffer = some b
  fits : Fits t
  line : t.bBufferLine < t.screenCharsPerCol

section Cells

variable {fontData : Nat → Nat} {t : TerminalInfo} {b buf : Buffer} {c : BitVec 8}
  {x y x' y' i j color scan : Nat}

/-- A character written into one cell: that cell and no other. -/
theorem renderAt_cell (hs : margin + x * charWidth + charWidth ≤ scan)
    (hs' : margin + x' * charWidth + charWidth ≤ scan) (hi : i < charWidth) (hj : j < charHeight) :
    cellPx (renderAt fontData buf c x (y * charHeight + margin) color scan) scan x' y' i j =
      if x' = x ∧ y' = y then glyph fontData c color i j else cellPx buf scan x' y' i j := by
  simp only [margin, charWidth, charHeight] at *
  unfold cellPx renderAt
  simp only [margin, charWidth, charHeight]
  rw [paint_px (by omega) (by omega)]
  by_cases hc : x' = x ∧ y' = y
  · obtain ⟨rfl, rfl⟩ := hc
    rw [if_pos (by omega), if_pos ⟨rfl, rfl⟩]
    congr 1 <;> omega
  · rw [if_neg hc, if_neg (by omega)]

theorem Fits.cell (h : Fits t) (hx : x < t.screenCharsPerRow) :
    margin + x * charWidth + charWidth ≤ t.screenScanlineWidth := by
  have h1 := h.scan
  simp only [margin, charWidth] at h1 ⊢
  omega

/-- Different rows of the screen show different rows of the ring. -/
theorem ringRow_inj (h : t.bBufferLine < t.screenCharsPerCol) (hy : y < t.screenCharsPerCol)
    (hy' : y' < t.screenCharsPerCol) : t.ringRow y = t.ringRow y' ↔ y = y' := by
  have hmod : ∀ z, z < t.screenCharsPerCol → t.ringRow z =
      if t.bBufferLine + z < t.screenCharsPerCol then t.bBufferLine + z
      else t.bBufferLine + z - t.screenCharsPerCol := by
    intro z hz
    unfold TerminalInfo.ringRow
    split_ifs with hlt
    · exact Nat.mod_eq_of_lt hlt
    · rw [Nat.mod_eq_sub_mod (by omega), Nat.mod_eq_of_lt (by omega)]
  rw [hmod y hy, hmod y' hy']
  split_ifs <;> omega

/-! ## 4. Drawing a character -/

/-- The back buffer after a character has been drawn. -/
def drawnBuffer (fontData : Nat → Nat) (t : TerminalInfo) (b : Buffer) (c : BitVec 8) (x y color : Nat) :
    Buffer :=
  renderAt fontData b c x (t.ringRow y * charHeight + margin) color t.screenScanlineWidth

theorem renderChar_eq (h : Running t b) (c : BitVec 8) (x y color : Nat) :
    renderChar fontData t c x y color =
      { t with
        bBuffer := some (drawnBuffer fontData t b c x y color)
        vBuffer := renderAt fontData t.vBuffer c x (y * charHeight + margin) color
          t.screenScanlineWidth } := by
  unfold renderChar
  rw [h.buffer]
  rfl

theorem Running.render (h : Running t b) (c : BitVec 8) (x y color : Nat) :
    Running (renderChar fontData t c x y color) (drawnBuffer fontData t b c x y color) := by
  rw [renderChar_eq h]
  exact ⟨rfl, ⟨h.fits.rows, h.fits.cols, h.fits.scan, h.fits.height, h.fits.cursorX, h.fits.cursorY⟩, h.line⟩

/-- **A character drawn into both buffers is shown.** -/
theorem Shows.render (h : Running t b) (hS : Shows t b) (hx : x < t.screenCharsPerRow)
    (hy : y < t.screenCharsPerCol) :
    Shows (renderChar fontData t c x y color) (drawnBuffer fontData t b c x y color) := by
  rw [renderChar_eq h]
  intro x' y' i j hx' hy' hi hj
  have hv := @renderAt_cell fontData t.vBuffer c x y x' y' i j color _ (h.fits.cell hx) (h.fits.cell hx') hi hj
  have hb := @renderAt_cell fontData b c x (t.ringRow y) x' (t.ringRow y') i j color _ (h.fits.cell hx)
    (h.fits.cell hx') hi hj
  refine hv.trans (Eq.trans ?_ hb.symm)
  by_cases hc : x' = x ∧ y' = y
  · rw [if_pos hc, if_pos ⟨hc.1, congrArg t.ringRow hc.2⟩]
  · rw [if_neg hc, if_neg fun hc' => hc ⟨hc'.1, (ringRow_inj h.line hy' hy).mp hc'.2⟩]
    exact hS x' y' i j hx' hy' hi hj

/-- The cells in other rows stay. -/
theorem render_other (h : Running t b) (hx : x < t.screenCharsPerRow) (hx' : x' < t.screenCharsPerRow)
    (hne : y' ≠ y) (hi : i < charWidth) (hj : j < charHeight) :
    cellPx (renderChar fontData t c x y color).vBuffer t.screenScanlineWidth x' y' i j =
      cellPx t.vBuffer t.screenScanlineWidth x' y' i j := by
  rw [renderChar_eq h]
  exact (renderAt_cell (h.fits.cell hx) (h.fits.cell hx') hi hj).trans (if_neg fun hc => hne hc.2)

/-! ## 5. Scrolling -/

/-- The pixels of the text area that `Blt` leaves out: it copies as many columns as the text area has, but
    from the left border of the screen on. -/
def LeftOut (t : TerminalInfo) (p : Nat) : Prop :=
  margin ≤ p ∧ t.screenCharsPerRow * charWidth ≤ p ∧ p < margin + t.screenCharsPerRow * charWidth

/-- They are blank in every row. -/
def Blank (t : TerminalInfo) : Prop :=
  ∀ p, LeftOut t p → ∀ y j, y < t.screenCharsPerCol → j < charHeight →
    px t.vBuffer t.screenScanlineWidth p (y * charHeight + margin + j) = 0

/-- The back buffer after scrolling. -/
def clearedBuffer (t : TerminalInfo) (b : Buffer) : Buffer :=
  fill b 0 margin (margin + t.ringRow 0 * charHeight) (t.screenCharsPerRow * charWidth) charHeight
    t.screenScanlineWidth

theorem ringRow_zero (h : t.bBufferLine < t.screenCharsPerCol) : t.ringRow 0 = t.bBufferLine :=
  Nat.mod_eq_of_lt h

/-- The row that is cleared is the one that was on top. -/
theorem filled_row (h : t.bBufferLine < t.screenCharsPerCol) :
    ((t.bBufferLine + 1) % t.screenCharsPerCol + t.screenCharsPerCol - 1) % t.screenCharsPerCol =
      t.bBufferLine := by
  by_cases hl : t.bBufferLine + 1 < t.screenCharsPerCol
  · rw [Nat.mod_eq_of_lt hl, Nat.add_right_comm, Nat.add_sub_cancel, Nat.add_mod_right, Nat.mod_eq_of_lt h]
  · have he : t.bBufferLine + 1 = t.screenCharsPerCol := by omega
    rw [he, Nat.mod_self, Nat.zero_add, Nat.mod_eq_of_lt (by omega)]
    omega

theorem scrollBB_buffer (h : Running t b) : (scrollBB t b).bBuffer = some (clearedBuffer t b) := by
  show some (fill _ _ _ _ _ _ _) = _
  rw [filled_row h.line, clearedBuffer, ringRow_zero h.line]

/-- The ring is turned by one row. -/
theorem ringRow_scrollBB (t : TerminalInfo) (b : Buffer) (y : Nat) :
    (scrollBB t b).ringRow y = t.ringRow (y + 1) := by
  show ((t.bBufferLine + 1) % t.screenCharsPerCol + y) % t.screenCharsPerCol = _
  rw [Nat.mod_add_mod, TerminalInfo.ringRow]
  congr 1
  omega

/-- A row of the ring after scrolling. -/
theorem clearedBuffer_px (h : Running t b) {p r : Nat} (hp : margin ≤ p)
    (hp' : p < margin + t.screenCharsPerRow * charWidth) (hj : j < charHeight) :
    px (clearedBuffer t b) t.screenScanlineWidth p (r * charHeight + margin + j) =
      if r = t.ringRow 0 then 0 else px b t.screenScanlineWidth p (r * charHeight + margin + j) := by
  have hs := h.fits.scan
  have hrow : (margin + t.ringRow 0 * charHeight ≤ r * charHeight + margin + j ∧
      r * charHeight + margin + j < margin + t.ringRow 0 * charHeight + charHeight) ↔ r = t.ringRow 0 := by
    simp only [margin, charHeight] at *
    omega
  unfold clearedBuffer fill
  rw [paint_px hs (by omega)]
  by_cases hr : r = t.ringRow 0
  · rw [if_pos ⟨hrow.mpr hr, hp, hp'⟩, if_pos hr]
  · rw [if_neg fun hc => hr (hrow.mp hc.1), if_neg hr]

/-- The two copies of the ring onto the screen, the second one below the first. -/
theorem two_copies {v b : Buffer} {n line width y j p : Nat} (hw : width ≤ scan) (hp : p < scan)
    (hl : line < n) (hy : y < n) (hj : j < charHeight) :
    px (blt (blt v (fun _ => b) margin (line * charHeight + margin) margin margin width
          ((n - line) * charHeight) scan scan)
        (fun _ => b) margin margin margin (margin + (n - line) * charHeight) width
        (n * charHeight - (n - line) * charHeight) scan scan) scan p (y * charHeight + margin + j) =
      if p < width then px b scan p ((line + y) % n * charHeight + margin + j)
      else px v scan p (y * charHeight + margin + j) := by
  rw [blt_px hw hp, blt_px hw hp]
  by_cases hpw : p < width
  · rw [if_pos hpw]
    have hupper : (margin + (n - line) * charHeight ≤ y * charHeight + margin + j) ↔ ¬ y < n - line := by
      simp only [margin, charHeight] at *
      omega
    by_cases hya : y < n - line
    · rw [if_neg fun hc => hupper.mp hc.1.1 hya, if_pos (by simp only [margin, charHeight] at *; omega),
        Nat.mod_eq_of_lt (by omega)]
      congr 1
      simp only [charHeight]
      omega
    · rw [if_pos (by simp only [margin, charHeight] at *; omega), Nat.mod_eq_sub_mod (by omega),
        Nat.mod_eq_of_lt (by omega)]
      congr 1
      simp only [charHeight]
      omega
  · rw [if_neg hpw, if_neg fun hc => hpw hc.2, if_neg fun hc => hpw hc.2]

/-- **What a pixel shows after scrolling**: the ring in the columns that `Blt` copies, the same as before in
    those it leaves out. -/
theorem scrollBB_px (h : Running t b) {p : Nat} (hp' : p < margin + t.screenCharsPerRow * charWidth)
    (hy : y < t.screenCharsPerCol) (hj : j < charHeight) :
    px (scrollBB t b).vBuffer t.screenScanlineWidth p (y * charHeight + margin + j) =
      if p < t.screenCharsPerRow * charWidth then
        px (clearedBuffer t b) t.screenScanlineWidth p (t.ringRow (y + 1) * charHeight + margin + j)
      else px t.vBuffer t.screenScanlineWidth p (y * charHeight + margin + j) := by
  have hs := h.fits.scan
  have hbuf := Option.some.inj (scrollBB_buffer h)
  have hring : ((t.bBufferLine + 1) % t.screenCharsPerCol + y) % t.screenCharsPerCol = t.ringRow (y + 1) :=
    ringRow_scrollBB t b y
  rw [← hbuf, ← hring]
  exact two_copies (by omega) (by omega) (Nat.mod_lt _ h.fits.cols) hy hj

theorem Running.scrollBB (h : Running t b) : Running (scrollBB t b) (clearedBuffer t b) where
  buffer := scrollBB_buffer h
  fits := ⟨h.fits.rows, h.fits.cols, h.fits.scan, h.fits.height, h.fits.rows,
    Nat.sub_lt h.fits.cols Nat.one_pos⟩
  line := Nat.mod_lt _ h.fits.cols

/-- The pixels of a cell lie in the text area. -/
theorem cell_in_text (hx : x < t.screenCharsPerRow) (hi : i < charWidth) :
    margin ≤ x * charWidth + margin + i ∧
      x * charWidth + margin + i < margin + t.screenCharsPerRow * charWidth := by
  simp only [margin, charWidth] at *
  omega

/-- **Scrolling shows the ring** if the columns that `Blt` leaves out are blank. -/
theorem Shows.scrollBB (h : Running t b) (hS : Shows t b) (hB : Blank t) :
    Shows (scrollBB t b) (clearedBuffer t b) := by
  intro x y i j hx hy hi hj
  have hx : x < t.screenCharsPerRow := hx
  have hy : y < t.screenCharsPerCol := hy
  obtain ⟨hp, hp'⟩ := cell_in_text hx hi
  show px (Terminal.scrollBB t b).vBuffer t.screenScanlineWidth _ _ =
    px (clearedBuffer t b) t.screenScanlineWidth _ _
  rw [ringRow_scrollBB, scrollBB_px h hp' hy hj]
  split_ifs with hc
  · rfl
  · -- a column left out: blank before, and blank in the row below, which is now shown here
    have hleft : LeftOut t (x * charWidth + margin + i) := ⟨hp, by omega, hp'⟩
    rw [hB _ hleft y j hy hj, clearedBuffer_px h hp hp' hj]
    split_ifs with hr
    · rfl
    · have hlast : y + 1 < t.screenCharsPerCol := by
        by_contra hlast
        apply hr
        have he : y + 1 = t.screenCharsPerCol := by omega
        rw [he, TerminalInfo.ringRow, Nat.add_mod_right, TerminalInfo.ringRow, Nat.add_zero]
      have h1 := hS x (y + 1) i j hx hlast hi hj
      exact (hB _ hleft (y + 1) j hlast hj).symm.trans h1

/-- Each cell then shows what was one row lower. -/
theorem scrollBB_moves (h : Running t b) (hS : Shows t b) (hB : Blank t) (hx : x < t.screenCharsPerRow)
    (hy : y + 1 < t.screenCharsPerCol) (hi : i < charWidth) (hj : j < charHeight) :
    cellPx (scrollBB t b).vBuffer t.screenScanlineWidth x y i j =
      cellPx t.vBuffer t.screenScanlineWidth x (y + 1) i j := by
  obtain ⟨hp, hp'⟩ := cell_in_text hx hi
  have h1 := Shows.scrollBB h hS hB x y i j hx (show y < t.screenCharsPerCol by omega) hi hj
  rw [ringRow_scrollBB] at h1
  have hr : ¬ t.ringRow (y + 1) = t.ringRow 0 := by
    rw [ringRow_inj h.line hy h.fits.cols]
    omega
  refine h1.trans ((clearedBuffer_px h hp hp' hj).trans ((if_neg hr).trans ?_))
  exact (hS x (y + 1) i j hx hy hi hj).symm

/-! ## 6. The calls -/

/-- A back buffer whose ring the screen shows. -/
def Ready (t : TerminalInfo) : Prop := ∃ b, Running t b ∧ Shows t b

theorem Ready.render (h : Ready t) (c : BitVec 8) (color : Nat) (hx : x < t.screenCharsPerRow)
    (hy : y < t.screenCharsPerCol) : Ready (renderChar fontData t c x y color) := by
  obtain ⟨b, hR, hS⟩ := h
  exact ⟨_, hR.render c x y color, hS.render hR hx hy⟩

/-- Moving the cursor changes no pixel. -/
theorem Ready.move (h : Ready t) (hx : x < t.screenCharsPerRow) (hy : y < t.screenCharsPerCol) :
    Ready { t with cursorX := x, cursorY := y } := by
  obtain ⟨b, hR, hS⟩ := h
  exact ⟨b, ⟨hR.buffer, ⟨hR.fits.rows, hR.fits.cols, hR.fits.scan, hR.fits.height, hx, hy⟩, hR.line⟩, hS⟩

theorem Ready.cursor (h : Ready t) : Ready (renderCursor fontData t) := by
  obtain ⟨b, hR, hS⟩ := h
  exact Ready.render ⟨b, hR, hS⟩ chCursor white hR.fits.cursorX hR.fits.cursorY

theorem advanceCursor_eq (h : Running t b) : advanceCursor fontData t = advanceCursorBB t b := by
  unfold advanceCursor
  rw [h.buffer]

/-- `AdvanceCursor` either scrolls or moves the cursor. -/
theorem Ready.advance (h : Ready t)
    (hB : t.cursorX + 1 = t.screenCharsPerRow → t.cursorY + 1 = t.screenCharsPerCol → Blank t) :
    Ready (advanceCursor fontData t) := by
  obtain ⟨b, hR, hS⟩ := h
  have hx := hR.fits.cursorX
  have hy := hR.fits.cursorY
  rw [advanceCursor_eq hR]
  unfold advanceCursorBB
  split_ifs with h1 h2
  · exact ⟨_, hR.scrollBB, hS.scrollBB hR (hB h1 h2)⟩
  · exact Ready.move ⟨b, hR, hS⟩ hR.fits.rows (by omega)
  · exact Ready.move ⟨b, hR, hS⟩ (by omega) hy

end Cells

/-- The calls after `EnableDoubleBuffering`. -/
inductive Event where
  | putChar (c : BitVec 8) (color : Nat)
  | newLine
  | removeChar

section Calls

variable (fontData : Nat → Nat)

def termStep (t : TerminalInfo) (ev : Event) (t' : TerminalInfo) : Prop :=
  match ev with
  | .putChar c color => t' = putChar fontData t c color
  | .newLine => t' = newLine fontData t
  | .removeChar => t' = removeChar fontData t

/-- The call scrolls. -/
def Scrolls (t : TerminalInfo) : Event → Prop
  | .putChar _ _ => t.cursorX + 1 = t.screenCharsPerRow ∧ t.cursorY + 1 = t.screenCharsPerCol
  | .newLine => t.cursorY + 1 = t.screenCharsPerCol
  | .removeChar => False

/-- The terminal when the call has drawn its character. -/
def drawn (t : TerminalInfo) : Event → TerminalInfo
  | .putChar c color => renderChar fontData t c t.cursorX t.cursorY (shownColor t color)
  | _ => renderChar fontData t chSpace t.cursorX t.cursorY 0

/-- The call does not scroll, or the pixels that `Blt` leaves out are blank then. -/
def Safe (t : TerminalInfo) (ev : Event) : Prop := Scrolls t ev → Blank (drawn fontData t ev)

/-- The terminal right after `EnableDoubleBuffering`. -/
def Enabled (t : TerminalInfo) : Prop := ∃ t0 garbage, Fits t0 ∧ t = enableDoubleBuffering t0 garbage

end Calls

section Runs

variable {fontData : Nat → Nat} {t t' : TerminalInfo} {b : Buffer} {ev : Event}

theorem ready_enabled (h : Enabled t) : Ready t := by
  obtain ⟨t0, garbage, hF, rfl⟩ := h
  refine ⟨_, ⟨rfl, ⟨hF.rows, hF.cols, hF.scan, hF.height, hF.cursorX, hF.cursorY⟩, hF.cols⟩, ?_⟩
  intro x y i j hx hy hi hj
  have hx : x < t0.screenCharsPerRow := hx
  have hy : y < t0.screenCharsPerCol := hy
  have hring : (enableDoubleBuffering t0 garbage).ringRow y = y := by
    show (0 + y) % t0.screenCharsPerCol = y
    rw [Nat.zero_add, Nat.mod_eq_of_lt hy]
  obtain ⟨-, hp⟩ := cell_in_text hx hi
  have hscan := hF.scan
  have hheight := hF.height
  rw [hring]
  show t0.vBuffer _ = copyRow garbage t0.vBuffer 0 0 _ _
  -- the pixel lies among those that are copied
  have hq : y * charHeight + margin + j < t0.screenHeight := by
    simp only [margin, charHeight] at *
    omega
  have hidx : x * charWidth + margin + i + (y * charHeight + margin + j) * t0.screenScanlineWidth <
      t0.screenScanlineWidth * t0.screenHeight := by
    calc x * charWidth + margin + i + (y * charHeight + margin + j) * t0.screenScanlineWidth
        < t0.screenScanlineWidth + (y * charHeight + margin + j) * t0.screenScanlineWidth :=
          Nat.add_lt_add_right (by omega) _
      _ = (y * charHeight + margin + j + 1) * t0.screenScanlineWidth := by
          rw [Nat.succ_mul, Nat.add_comm]
      _ ≤ t0.screenHeight * t0.screenScanlineWidth := Nat.mul_le_mul_right _ hq
      _ = t0.screenScanlineWidth * t0.screenHeight := Nat.mul_comm _ _
  unfold copyRow
  rw [if_pos ⟨Nat.zero_le _, by rw [Nat.zero_add]; exact hidx⟩, Nat.zero_add, Nat.sub_zero]

theorem Ready.bounds (h : Ready t) : t.cursorX < t.screenCharsPerRow ∧ t.cursorY < t.screenCharsPerCol := by
  obtain ⟨b, hR, -⟩ := h
  exact ⟨hR.fits.cursorX, hR.fits.cursorY⟩

theorem Ready.geometry (h : Ready t) (c : BitVec 8) (x y color : Nat) :
    (renderChar fontData t c x y color).screenCharsPerRow = t.screenCharsPerRow ∧
      (renderChar fontData t c x y color).screenCharsPerCol = t.screenCharsPerCol ∧
      (renderChar fontData t c x y color).cursorX = t.cursorX ∧
      (renderChar fontData t c x y color).cursorY = t.cursorY ∧
      (renderChar fontData t c x y color).screenScanlineWidth = t.screenScanlineWidth := by
  obtain ⟨b, hR, -⟩ := h
  rw [renderChar_eq hR]
  exact ⟨rfl, rfl, rfl, rfl, rfl⟩

/-- **A safe call keeps the screen and the ring together.** -/
theorem ready_step (h : Ready t) (hs : termStep fontData t ev t') (hsafe : Safe fontData t ev) :
    Ready t' := by
  obtain ⟨hx, hy⟩ := h.bounds
  cases ev with
  | putChar c color =>
      obtain rfl : t' = putChar fontData t c color := hs
      obtain ⟨h1, h2, h3, h4, -⟩ := @Ready.geometry fontData t h c t.cursorX t.cursorY (shownColor t color)
      refine (Ready.advance (h.render c (shownColor t color) hx hy) fun hr hc => ?_).cursor
      rw [h1, h3] at hr
      rw [h2, h4] at hc
      exact hsafe ⟨hr, hc⟩
  | newLine =>
      obtain rfl : t' = newLine fontData t := hs
      obtain ⟨h1, h2, h3, h4, -⟩ := @Ready.geometry fontData t h chSpace t.cursorX t.cursorY 0
      obtain ⟨d, hd⟩ : ∃ d, renderChar fontData t chSpace t.cursorX t.cursorY 0 = d := ⟨_, rfl⟩
      have hR : Ready d := hd ▸ h.render chSpace 0 hx hy
      unfold newLine
      unfold Safe drawn Scrolls at hsafe
      rw [hd] at h1 h2 h3 h4 hsafe ⊢
      have hm : Ready { d with cursorX := d.screenCharsPerRow - 1 } :=
        Ready.move (y := d.cursorY) hR (by omega) (by omega)
      refine (hm.advance fun hr hc => ?_).cursor
      have hc : d.cursorY + 1 = d.screenCharsPerCol := hc
      exact hsafe (by omega)
  | removeChar =>
      obtain rfl : t' = removeChar fontData t := hs
      obtain ⟨h1, h2, h3, h4, -⟩ := @Ready.geometry fontData t h chSpace t.cursorX t.cursorY 0
      obtain ⟨d, hd⟩ : ∃ d, renderChar fontData t chSpace t.cursorX t.cursorY 0 = d := ⟨_, rfl⟩
      have hR : Ready d := hd ▸ h.render chSpace 0 hx hy
      simp only [removeChar]
      rw [hd] at h1 h2 h3 h4 ⊢
      split_ifs with hz hy0
      · exact (Ready.move hR (by omega) (by omega)).cursor
      · exact hR
      · exact (Ready.move (y := d.cursorY) hR (by omega) (by omega)).cursor

theorem ready_runs (h : Reach (Guarded (termStep fontData) (Safe fontData)) Enabled t) : Ready t :=
  h.inv (fun _ h0 => ready_enabled h0) fun _ _ _ hI hs => ready_step hI hs.1 hs.2

/-- The cursor that is drawn last lies in the row at the bottom. -/
theorem advanced_moves (h : Ready t) (hB : Blank t) (hx : t.cursorX + 1 = t.screenCharsPerRow)
    (hy : t.cursorY + 1 = t.screenCharsPerCol) {x y i j : Nat} (hx' : x < t.screenCharsPerRow)
    (hy' : y + 1 < t.screenCharsPerCol) (hi : i < charWidth) (hj : j < charHeight) :
    cellPx (renderCursor fontData (advanceCursor fontData t)).vBuffer t.screenScanlineWidth x y i j =
      cellPx t.vBuffer t.screenScanlineWidth x (y + 1) i j := by
  obtain ⟨b, hR, hS⟩ := h
  have he : advanceCursor fontData t = scrollBB t b := by
    rw [advanceCursor_eq hR, advanceCursorBB, if_pos hx, if_pos hy]
  rw [he]
  have hne : y ≠ (scrollBB t b).cursorY := by
    show y ≠ t.screenCharsPerCol - 1
    omega
  exact (render_other hR.scrollBB hR.fits.rows hx' hne hi hj).trans
    (scrollBB_moves hR hS hB hx' hy' hi hj)

/-- A safe call that scrolls shows each row one row higher. -/
theorem safe_moves (h : Ready t) (hs : termStep fontData t ev t') (hsafe : Safe fontData t ev)
    (hsc : Scrolls t ev) {x y i j : Nat} (hx' : x < t.screenCharsPerRow)
    (hy' : y + 1 < t.screenCharsPerCol) (hi : i < charWidth) (hj : j < charHeight) :
    cellPx t'.vBuffer t.screenScanlineWidth x y i j =
      cellPx (drawn fontData t ev).vBuffer t.screenScanlineWidth x (y + 1) i j := by
  obtain ⟨hx, hy⟩ := h.bounds
  have hB := hsafe hsc
  cases ev with
  | putChar c color =>
      obtain rfl : t' = putChar fontData t c color := hs
      obtain ⟨h1, h2, h3, h4, h5⟩ := @Ready.geometry fontData t h c t.cursorX t.cursorY
        (shownColor t color)
      have hR := @Ready.render fontData t _ _ h c (shownColor t color) hx hy
      unfold putChar
      simp only [drawn] at hB ⊢
      obtain ⟨d, hd⟩ : ∃ d, renderChar fontData t c t.cursorX t.cursorY (shownColor t color) = d := ⟨_, rfl⟩
      rw [hd] at h1 h2 h3 h4 h5 hR hB ⊢
      obtain ⟨hsx, hsy⟩ := hsc
      rw [← h5]
      exact advanced_moves hR hB (by omega) (by omega) (by omega) (by omega) hi hj
  | newLine =>
      obtain rfl : t' = newLine fontData t := hs
      obtain ⟨h1, h2, h3, h4, h5⟩ := @Ready.geometry fontData t h chSpace t.cursorX t.cursorY 0
      have hR := @Ready.render fontData t _ _ h chSpace 0 hx hy
      unfold newLine
      simp only [drawn] at hB ⊢
      obtain ⟨d, hd⟩ : ∃ d, renderChar fontData t chSpace t.cursorX t.cursorY 0 = d := ⟨_, rfl⟩
      rw [hd] at h1 h2 h3 h4 h5 hR hB ⊢
      have hsy : t.cursorY + 1 = t.screenCharsPerCol := hsc
      have hm : Ready { d with cursorX := d.screenCharsPerRow - 1 } :=
        Ready.move (y := d.cursorY) hR (by omega) (by omega)
      have hlast : d.screenCharsPerRow - 1 + 1 = d.screenCharsPerRow := by omega
      rw [← h5]
      exact advanced_moves hm hB hlast (show d.cursorY + 1 = d.screenCharsPerCol by omega)
        (show x < d.screenCharsPerRow by omega) (show y + 1 < d.screenCharsPerCol by omega) hi hj
  | removeChar => exact hsc.elim

end Runs

/-- **On runs of safe calls the screen shows the ring**, and a call that scrolls shows in each row but the
    last what was one row lower. -/
theorem ring_shown {fontData : Nat → Nat} {t : TerminalInfo}
    (h : Reach (Guarded (termStep fontData) (Safe fontData)) Enabled t) :
    (∃ b, t.bBuffer = some b ∧ Shows t b) ∧
      ∀ ev t', termStep fontData t ev t' → Safe fontData t ev → Scrolls t ev →
        ∀ x y i j, x < t.screenCharsPerRow → y + 1 < t.screenCharsPerCol → i < charWidth → j < charHeight →
          cellPx t'.vBuffer t.screenScanlineWidth x y i j =
            cellPx (drawn fontData t ev).vBuffer t.screenScanlineWidth x (y + 1) i j := by
  have hR := ready_runs h
  constructor
  · obtain ⟨b, hb, hS⟩ := hR
    exact ⟨b, hb.buffer, hS⟩
  · exact fun ev t' hs hsafe hsc x y i j hx hy hi hj => safe_moves hR hs hsafe hsc hx hy hi hj

/-- A screen of one column and two rows. -/
def small : TerminalInfo :=
  enableDoubleBuffering (initTerminalInfo (fun _ => 0) 58 82 58 false 0) fun _ => 0

theorem small_enabled : Enabled small :=
  ⟨_, _, init_fits _ _ _ (by decide) (by decide) (by decide), rfl⟩

/-- A font in which every pixel of every character is set. -/
def blocks : Nat → Nat := fun _ => 0xFF

/-- The small screen after one character, and after two. -/
def once : TerminalInfo := putChar blocks small 0x41 1
def twice : TerminalInfo := putChar blocks once 0x41 2

theorem step_once : termStep blocks small (.putChar 0x41 1) once := rfl

theorem ring_shown_small : ∃ b, once.bBuffer = some b ∧ Shows once b := by
  have hsafe : Safe blocks small (.putChar 0x41 1) := fun hsc => absurd hsc.2 (by decide)
  exact (ring_shown (.next small _ once (.start small small_enabled) ⟨step_once, hsafe⟩)).1

/-- The second character scrolls: the screen still shows the first one in the upper row, the ring the
    second one. -/
theorem right_margin_kept : ¬ ∀ (fontData : Nat → Nat) (t : TerminalInfo),
    Reach (termStep fontData) Enabled t → ∃ b, t.bBuffer = some b ∧ Shows t b := by
  intro hall
  have hstep : termStep blocks once (.putChar 0x41 2) twice := rfl
  have hr : Reach (termStep blocks) Enabled twice :=
    .next once _ twice (.next small _ once (.start small small_enabled) step_once) hstep
  obtain ⟨b, hb, hS⟩ := hall blocks twice hr
  have h1 := hS 0 0 0 0 (by decide) (by decide) (by decide) (by decide)
  have hring : (twice.bBuffer.map fun b => cellPx b 58 0 1 0 0) = some 2 := by decide +kernel
  have hscreen : cellPx twice.vBuffer 58 0 0 0 0 = 1 := by decide +kernel
  rw [hb] at hring
  have h2 : cellPx b 58 0 1 0 0 = 2 := Option.some.inj hring
  have h3 : cellPx twice.vBuffer 58 0 0 0 0 = cellPx b 58 0 1 0 0 := h1
  rw [hscreen, h2] at h3
  cases h3

end Terminal

end SimpleOS2
