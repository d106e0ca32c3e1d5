import LizardOs.Dev.Scroll
import LizardOs.Lib.Paper
import LizardOs.Tty.Cursor

/-!
# What the console shows

The cursor and the framebuffer together: `draw_char` and `clear_framebuffer` of `framebuffer.c`, and the functions of
`tty.c` as they act on both.  Text that is written to the console is text on a roll of paper, of which the screen shows
the last rows, every character in its glyph and every other place in the background.  For this the lines of the
framebuffer may have no gap, since scrolling takes them as one block, and there must be more than one row of text.
`font` is memory from the table on: `draw_char` looks a byte from 0x80 on up before the beginning of it.
-/

namespace LizardOs.Tty

open LizardOs.Lib LizardOs.Dev

def FONT_WIDTH : ℕ := 8
def FONT_HEIGHT : ℕ := 16

/-- The glyphs, and the colours of the text and behind it. -/
structure Style where
  font : ℕ → UInt8
  color : UInt32
  bg : UInt32

namespace Style

/-- `character * FONT_HEIGHT + y` of `draw_char`, where `char` is signed. -/
def fontIndex (c : UInt8) (y : ℕ) : ℕ :=
  ((if c < 0x80 then c.toNat else c.toNat + (2 ^ 64 - 256)) * FONT_HEIGHT + y) % 2 ^ 64

/-- A pixel of a glyph. -/
def glyph (f : Style) (c : UInt8) (x y : ℕ) : UInt32 :=
  if (f.font (fontIndex c y)).toNat / 2 ^ (7 - x) % 2 = 1 then f.color else f.bg

end Style

/-- A rectangle, pixel by pixel. -/
def paint (x₀ y₀ m n : ℕ) (px : ℕ → ℕ → UInt32) (s : Screen) : Screen :=
  forLoop n (fun y s => forLoop m (fun x s => s.drawPixel (x₀ + x) (y₀ + y) (px x y)) s) s

/-- `draw_char`. -/
def drawChar (f : Style) (xIndex yIndex : ℕ) (c : UInt8) (s : Screen) : Screen :=
  if s.mapped = false then s else paint xIndex yIndex FONT_WIDTH FONT_HEIGHT (f.glyph c) s

/-- `clear_framebuffer`. -/
def clearFramebuffer (f : Style) (s : Screen) : Screen :=
  if s.mapped = false then s else paint 0 0 s.width s.height (fun _ _ => f.bg) s

/-- The cursor with the grid of characters, and the framebuffer. -/
structure Display where
  terminal : Terminal
  screen : Screen

namespace Display

/-- `tty_putentryat`. -/
def ttyPutentryat (f : Style) (s : Display) (c : UInt8) (x y : ℕ) : Display :=
  ⟨s.terminal.ttyPutentryat c x y, drawChar f (x * FONT_WIDTH) (y * FONT_HEIGHT) c s.screen⟩

/-- `tty_scroll`. -/
def ttyScroll (f : Style) (s : Display) : Display :=
  ⟨s.terminal.ttyScroll, s.screen.scrollFramebuffer f.bg 16⟩

/-- `tty_breakline`. -/
def ttyBreakline (f : Style) (s : Display) : Display :=
  let t : Terminal := { s.terminal with terminalRow := incSize s.terminal.terminalRow, terminalColumn := 0 }
  if t.terminalRow = t.terminalTextHeight then ttyScroll f ⟨t, s.screen⟩ else ⟨t, s.screen⟩

/-- `tty_clean`. -/
def ttyClean (f : Style) (s : Display) : Display := ⟨s.terminal.ttyClean, clearFramebuffer f s.screen⟩

/-- The end of `tty_putchar`: a byte that is drawn. -/
def putGlyph (f : Style) (s : Display) (c : UInt8) : Display :=
  let s := s.ttyPutentryat f c s.terminal.terminalColumn s.terminal.terminalRow
  let t : Terminal := { s.terminal with terminalColumn := incSize s.terminal.terminalColumn }
  if t.terminalColumn = t.terminalTextWidth then ttyBreakline f ⟨t, s.screen⟩ else ⟨t, s.screen⟩

/-- `tty_tab`. -/
def ttyTab (f : Style) (s : Display) : Display :=
  forLoop (TAB_SIZE - s.terminal.terminalColumn % TAB_SIZE) (fun _ s => s.putGlyph f 32) s

/-- `tty_putchar`; the mirror on the serial port is left out. -/
def ttyPutchar (f : Style) (s : Display) (c : UInt8) : Display :=
  if c = 10 then s.ttyBreakline f
  else if c = 9 then s.ttyTab f
  else if c = 12 then s.ttyClean f
  else s.putGlyph f c

/-- `tty_write`. -/
def ttyWrite (f : Style) (s : Display) (data : List UInt8) : Display := data.foldl (ttyPutchar f) s

/-- After `tty_init`, and after `vmm_init` has cleared the framebuffer. -/
def init (f : Style) (s : Screen) : Display :=
  ⟨⟨s.width / FONT_WIDTH, s.height / FONT_HEIGHT, 0, 0, 0, 0, fun _ => 0, []⟩, clearFramebuffer f s⟩

end Display

/-! ### Text on paper -/

/-- A tab: spaces to the next column that is a multiple of `TAB_SIZE`. -/
def Paper.tab (w : ℕ) (p : Paper UInt8) : Paper UInt8 :=
  forLoop (TAB_SIZE - p.current.length % TAB_SIZE) (fun _ p => p.put w 32) p

/-- What a byte does to the paper. -/
def Paper.type (w : ℕ) (p : Paper UInt8) (c : UInt8) : Paper UInt8 :=
  if c = 10 then p.newline
  else if c = 9 then Paper.tab w p
  else if c = 12 then .empty
  else p.put w c

/-- The paper after a text. -/
def typed (w : ℕ) (data : List UInt8) : Paper UInt8 := data.foldl (Paper.type w) .empty

/-- The pixel of the window of `h` rows. -/
def shown (f : Style) (h : ℕ) (p : Paper UInt8) (x y : ℕ) : UInt32 :=
  match p.cell h (y / FONT_HEIGHT) (x / FONT_WIDTH) with
  | some c => f.glyph c (x % FONT_WIDTH) (y % FONT_HEIGHT)
  | none => f.bg

/-! ### The framebuffer -/

/-- A framebuffer of `W` by `H` pixels whose lines have no gap. -/
structure Flat (W H : ℕ) (s : Screen) : Prop where
  mapped : s.mapped = true
  width : s.width = W
  height : s.height = H
  pitch : s.pitch = 4 * W
  small : W * H < 2 ^ 32

namespace Flat

variable {W H : ℕ} {s : Screen}

theorem stride (h : Flat W H s) : s.stride = W := by
  rw [Screen.stride, h.pitch]
  omega

/-- Every pixel has its own word. -/
theorem pixelAt (h : Flat W H s) {x y : ℕ} (hx : x < W) (hy : y < H) : s.pixelAt x y = y * W + x ∧ y * W + x < 2 ^ 32 := by
  have hsmall := h.small
  have hrow : (y + 1) * W ≤ H * W := Nat.mul_le_mul_right _ hy
  rw [Nat.succ_mul, Nat.mul_comm H W] at hrow
  have hlt : y * W + x < 2 ^ 32 := by omega
  rw [Screen.pixelAt, h.stride, Nat.mod_eq_of_lt (by omega)]
  exact ⟨rfl, hlt⟩

/-- A store changes no size. -/
theorem store (h : Flat W H s) (i : ℕ) (px : UInt32) : Flat W H (s.store i px) :=
  ⟨h.mapped, h.width, h.height, h.pitch, h.small⟩

theorem memmove (h : Flat W H s) (dst src n : ℕ) : Flat W H (Screen.bytes.memmove dst src n s) := by
  rw [ByteStore.memmove]
  split
  · exact forLoop_invariant (I := fun _ (s : Screen) => Flat W H s) h fun _ _ _ hs => hs.store _ _
  · exact forLoop_invariant (I := fun _ (s : Screen) => Flat W H s) h fun _ _ _ hs => hs.store _ _

theorem drawPixel (h : Flat W H s) (x y : ℕ) (px : UInt32) : Flat W H (s.drawPixel x y px) := by
  rw [Screen.drawPixel, if_neg (by rw [h.mapped]; decide)]
  exact h.store _ _

/-- A pixel is drawn, and no other one changes. -/
theorem pixels_drawPixel (h : Flat W H s) {x y x' y' : ℕ} (hx : x < W) (hy : y < H) (hx' : x' < W)
    (px : UInt32) : (s.drawPixel x y px).pixels (y' * W + x') =
      if x' = x ∧ y' = y then px else s.pixels (y' * W + x') := by
  obtain ⟨hat, -⟩ := h.pixelAt hx hy
  rw [Screen.drawPixel, if_neg (by rw [h.mapped]; decide), hat]
  show Function.update s.pixels (y * W + x) px (y' * W + x') = _
  by_cases hsame : x' = x ∧ y' = y
  · rw [if_pos hsame, hsame.1, hsame.2, Function.update_self]
  · rw [if_neg hsame, Function.update_of_ne]
    intro heq
    apply hsame
    have hrow : y' = y := by
      have hdiv := congrArg (· / W) heq
      simp only [Nat.mul_comm _ W] at hdiv
      rw [Nat.mul_add_div (by omega), Nat.mul_add_div (by omega), Nat.div_eq_of_lt hx', Nat.div_eq_of_lt hx] at hdiv
      omega
    rw [hrow] at heq
    exact ⟨by omega, hrow⟩

/-- **A rectangle is painted**, and no pixel outside it changes. -/
theorem paint {x₀ y₀ m n : ℕ} (h : Flat W H s) (hx : x₀ + m ≤ W) (hy : y₀ + n ≤ H) (px : ℕ → ℕ → UInt32) :
    Flat W H (Tty.paint x₀ y₀ m n px s) ∧ ∀ x < W, ∀ y < H, (Tty.paint x₀ y₀ m n px s).pixels (y * W + x) =
      if x₀ ≤ x ∧ x < x₀ + m ∧ y₀ ≤ y ∧ y < y₀ + n then px (x - x₀) (y - y₀) else s.pixels (y * W + x) := by
  refine forLoop_invariant (I := fun j (s' : Screen) => Flat W H s' ∧ ∀ x < W, ∀ y < H, s'.pixels (y * W + x) =
    if x₀ ≤ x ∧ x < x₀ + m ∧ y₀ ≤ y ∧ y < y₀ + j then px (x - x₀) (y - y₀) else s.pixels (y * W + x))
    ⟨h, fun x _ y _ => (if_neg (by omega)).symm⟩ fun j s' hj hs' => ?_
  -- one line of it
  have hline := @forLoop_invariant Screen
    (fun i s'' => Flat W H s'' ∧ ∀ x < W, ∀ y < H, s''.pixels (y * W + x) =
      if x₀ ≤ x ∧ x < x₀ + i ∧ y = y₀ + j then px (x - x₀) j else s'.pixels (y * W + x))
    m (fun x s => s.drawPixel (x₀ + x) (y₀ + j) (px x j)) s'
    ⟨hs'.1, fun x _ y _ => (if_neg (by omega)).symm⟩ fun i s'' hi hs'' => by
      refine ⟨hs''.1.drawPixel _ _ _, fun x hxW y hyH => ?_⟩
      rw [hs''.1.pixels_drawPixel (by omega) (by omega) hxW, hs''.2 x hxW y hyH]
      by_cases hnew : x = x₀ + i ∧ y = y₀ + j
      · rw [if_pos hnew, if_pos (by omega)]
        congr 1
        omega
      · rw [if_neg hnew]
        exact if_congr (by omega) rfl rfl
  refine ⟨hline.1, fun x hxW y hyH => ?_⟩
  rw [hline.2 x hxW y hyH, hs'.2 x hxW y hyH]
  by_cases hrow : x₀ ≤ x ∧ x < x₀ + m ∧ y = y₀ + j
  · rw [if_pos hrow, if_pos (by omega)]
    congr 1
    omega
  · rw [if_neg hrow]
    exact if_congr (by omega) rfl rfl

theorem drawChar (h : Flat W H s) (f : Style) (c : UInt8) {x₀ y₀ : ℕ} (hx : x₀ + FONT_WIDTH ≤ W)
    (hy : y₀ + FONT_HEIGHT ≤ H) : Flat W H (Tty.drawChar f x₀ y₀ c s) ∧
      ∀ x < W, ∀ y < H, (Tty.drawChar f x₀ y₀ c s).pixels (y * W + x) =
        if x₀ ≤ x ∧ x < x₀ + FONT_WIDTH ∧ y₀ ≤ y ∧ y < y₀ + FONT_HEIGHT then f.glyph c (x - x₀) (y - y₀)
        else s.pixels (y * W + x) := by
  rw [Tty.drawChar, if_neg (by rw [h.mapped]; decide)]
  exact h.paint hx hy _

theorem clearFramebuffer (h : Flat W H s) (f : Style) : Flat W H (Tty.clearFramebuffer f s) ∧
    ∀ x < W, ∀ y < H, (Tty.clearFramebuffer f s).pixels (y * W + x) = f.bg := by
  rw [Tty.clearFramebuffer, if_neg (by rw [h.mapped]; decide), h.width, h.height]
  have hpaint : Flat W H (Tty.paint 0 0 W H (fun _ _ => f.bg) s) ∧ _ := h.paint (by omega) (by omega) fun _ _ => f.bg
  obtain ⟨hflat, hpixels⟩ := hpaint
  refine ⟨hflat, fun x hx y hy => ?_⟩
  rw [hpixels x hx y hy, if_pos (by omega)]

/-- **Scrolling** moves every line up by a row of text, and the last row is background. -/
theorem scrollFramebuffer (h : Flat W H s) (bg : UInt32) (hH : 16 < H) :
    Flat W H (s.scrollFramebuffer bg 16) ∧ ∀ x < W, ∀ y < H, (s.scrollFramebuffer bg 16).pixels (y * W + x) =
      if y + 16 < H then s.pixels ((y + 16) * W + x) else bg := by
  have h16 : (16 : UInt32).toNat = 16 := rfl
  have hcells : 16 * W < 2 ^ 32 ∧ (H - 16) * W < 2 ^ 32 := by
    have hsmall := h.small
    have hfirst : 16 * W ≤ H * W := Nat.mul_le_mul_right _ hH.le
    have hrest : (H - 16) * W ≤ H * W := Nat.mul_le_mul_right _ (Nat.sub_le _ _)
    rw [Nat.mul_comm H W] at hfirst hrest
    omega
  have hgapless : s.Gapless 16 := by
    refine .inr ⟨by rw [h.pitch, h.width], ?_, ?_⟩
    · rw [h16, h.width]
      exact hcells.1
    · rw [h16, h.width, h.height]
      exact hcells.2
  have hp : 0 < (16 : UInt32).toNat := by decide
  have hh : (16 : UInt32).toNat < s.height := by
    rw [h.height]
    exact hH
  refine ⟨?_, fun x hx y hy => ?_⟩
  · have hgo : ¬((16 : UInt32) = 0 ∨ s.height ≤ (16 : UInt32).toNat) := by
      rintro (hzero | hle)
      · exact absurd hzero (by decide)
      · omega
    rw [Screen.scrollFramebuffer, if_neg (by rw [h.mapped]; decide), if_neg hgo]
    exact forLoop_invariant (I := fun _ (s : Screen) => Flat W H s) (h.memmove _ _ _) fun _ _ _ hs => hs.store _ _
  · have hscrolled : Screen.Scrolled s (s.scrollFramebuffer bg 16) bg 16 := hgapless.scrolled h.mapped hp hh
    obtain ⟨hmove, hclear⟩ := hscrolled
    rw [← (h.pixelAt hx hy).1]
    by_cases hlow : y + 16 < H
    · rw [if_pos hlow, hmove x (by rw [h.width]; exact hx) y (by rw [h.height, h16]; omega), h16,
        (h.pixelAt hx hlow).1]
    · rw [if_neg hlow, hclear x (by rw [h.width]; exact hx) y (by rw [h.height]; exact hy)
        (by rw [h.height, h16]; omega)]

end Flat

/-! ### The console shows the paper -/

/-- The screen shows the window of the paper, and the cursor is in the row that is written to. -/
structure Draws (f : Style) (W H : ℕ) (s : Display) (p : Paper UInt8) : Prop where
  width : s.terminal.terminalTextWidth = W / FONT_WIDTH
  height : s.terminal.terminalTextHeight = H / FONT_HEIGHT
  row : s.terminal.terminalRow = p.row (H / FONT_HEIGHT)
  flat : Flat W H s.screen
  pixels : ∀ x < W, ∀ y < H, s.screen.pixels (y * W + x) = shown f (H / FONT_HEIGHT) p x y

/-- And the cursor is where the next character goes, on the grid. -/
structure Shows (f : Style) (W H : ℕ) (s : Display) (p : Paper UInt8) : Prop extends Draws f W H s p where
  column : s.terminal.terminalColumn = p.current.length
  fits : p.Fits (W / FONT_WIDTH)

section

variable {f : Style} {W H : ℕ} {s : Display} {p : Paper UInt8}

/-- The sizes that the results share: at least one column, more than a row of pixels of text, and sizes of 64 bits. -/
structure Sizes (W H : ℕ) : Prop where
  column : FONT_WIDTH ≤ W
  rows : FONT_HEIGHT < H
  wide : W < 2 ^ 64
  high : H < 2 ^ 64

theorem shown_of_cell {h x y : ℕ} {q : Paper UInt8}
    (hcell : q.cell h (y / FONT_HEIGHT) (x / FONT_WIDTH) = p.cell h (y / FONT_HEIGHT) (x / FONT_WIDTH)) :
    shown f h q x y = shown f h p x y := by
  rw [shown, shown, hcell]

theorem shown_none {h x y : ℕ} (hcell : p.cell h (y / FONT_HEIGHT) (x / FONT_WIDTH) = none) : shown f h p x y = f.bg := by
  rw [shown, hcell]

theorem shown_some {h x y : ℕ} {c : UInt8} (hcell : p.cell h (y / FONT_HEIGHT) (x / FONT_WIDTH) = some c) :
    shown f h p x y = f.glyph c (x % FONT_WIDTH) (y % FONT_HEIGHT) := by
  rw [shown, hcell]

/-- **A new line.**  The column before it does not matter. -/
theorem Draws.ttyBreakline (hs : Draws f W H s p) (hz : Sizes W H) (hfits : p.newline.Fits (W / FONT_WIDTH)) :
    Shows f W H (s.ttyBreakline f) p.newline := by
  have hrows := hz.rows
  have hhigh := hz.high
  rw [FONT_HEIGHT] at hrows
  have hh : 0 < H / FONT_HEIGHT := by
    rw [FONT_HEIGHT]
    omega
  have hrow : p.row (H / FONT_HEIGHT) < H / FONT_HEIGHT := Paper.row_lt hh p
  have hbound : H / FONT_HEIGHT ≤ H := Nat.div_le_self _ _
  have hinc : incSize s.terminal.terminalRow = p.row (H / FONT_HEIGHT) + 1 := by
    rw [hs.row, incSize, Nat.mod_eq_of_lt (by omega)]
  rw [Display.ttyBreakline]
  simp only [hinc, hs.height]
  split
  · rename_i hlast
    obtain ⟨hflat, hpixels⟩ := hs.flat.scrollFramebuffer f.bg hrows
    refine ⟨⟨hs.width, rfl, ?_, hflat, fun x hx y hy => ?_⟩, rfl, hfits⟩
    · show decSize (p.row (H / FONT_HEIGHT) + 1) = _
      rw [Paper.row_newline_of_eq hlast, decSize]
      omega
    · show (s.screen.scrollFramebuffer f.bg 16).pixels (y * W + x) = _
      have hnext : (y + 16) / FONT_HEIGHT = y / FONT_HEIGHT + 1 := by
        rw [FONT_HEIGHT]
        omega
      have hplace : (y + 16) % FONT_HEIGHT = y % FONT_HEIGHT := by
        rw [FONT_HEIGHT]
        omega
      rw [hpixels x hx y hy]
      split
      · rename_i hlow
        rw [hs.pixels x hx (y + 16) hlow, shown, shown, Paper.cell_newline_of_eq hlast, hnext, hplace]
        split_ifs with hin
        · rfl
        · rw [Paper.cell_below (by omega)]
      · rename_i hlow
        rw [shown_none]
        rw [Paper.cell_newline_of_eq hlast, if_neg]
        rw [FONT_HEIGHT]
        omega
  · rename_i hnot
    have hlt : p.row (H / FONT_HEIGHT) + 1 < H / FONT_HEIGHT := by omega
    refine ⟨⟨hs.width, rfl, ?_, hs.flat, fun x hx y hy => ?_⟩, rfl, hfits⟩
    · rw [Paper.row_newline_of_lt hlt]
    · rw [shown_of_cell (Paper.cell_newline_of_lt hlt _ _)]
      exact hs.pixels x hx y hy

/-- The place of the cursor, in pixels. -/
theorem Shows.cursor (hs : Shows f W H s p) (hz : Sizes W H) :
    p.current.length * FONT_WIDTH + FONT_WIDTH ≤ W ∧ p.row (H / FONT_HEIGHT) * FONT_HEIGHT + FONT_HEIGHT ≤ H := by
  have hrows := hz.rows
  have hcolumn := hs.fits.current
  have hrow : p.row (H / FONT_HEIGHT) < H / FONT_HEIGHT := Paper.row_lt (by rw [FONT_HEIGHT] at hrows ⊢; omega) p
  rw [FONT_WIDTH] at hcolumn ⊢
  rw [FONT_HEIGHT] at *
  omega

/-- **A glyph is drawn** where the paper is written to, and the cursor moves on. -/
theorem Shows.putGlyph (hs : Shows f W H s p) (hz : Sizes W H) (c : UInt8) :
    Shows f W H (s.putGlyph f c) (p.put (W / FONT_WIDTH) c) := by
  obtain ⟨hx₀, hy₀⟩ := hs.cursor hz
  have hwide := hz.wide
  have hinc : incSize s.terminal.terminalColumn = p.current.length + 1 := by
    have hcolumn := hs.fits.current
    have hbound : W / FONT_WIDTH ≤ W := Nat.div_le_self _ _
    rw [hs.column, incSize, Nat.mod_eq_of_lt (by omega)]
  obtain ⟨hflat, hpixels⟩ := hs.flat.drawChar f c hx₀ hy₀
  have hdrawn : ∀ x < W, ∀ y < H,
      (drawChar f (p.current.length * FONT_WIDTH) (p.row (H / FONT_HEIGHT) * FONT_HEIGHT) c s.screen).pixels
        (y * W + x) = shown f (H / FONT_HEIGHT) (p.append c) x y := by
    intro x hx y hy
    have hin : (p.current.length * FONT_WIDTH ≤ x ∧ x < p.current.length * FONT_WIDTH + FONT_WIDTH ∧
        p.row (H / FONT_HEIGHT) * FONT_HEIGHT ≤ y ∧ y < p.row (H / FONT_HEIGHT) * FONT_HEIGHT + FONT_HEIGHT) ↔
        y / FONT_HEIGHT = p.row (H / FONT_HEIGHT) ∧ x / FONT_WIDTH = p.current.length := by
      generalize p.row (H / FONT_HEIGHT) = r
      rw [FONT_WIDTH, FONT_HEIGHT]
      omega
    have hcell := Paper.cell_append (p := p) c (H / FONT_HEIGHT) (y / FONT_HEIGHT) (x / FONT_WIDTH)
    rw [hpixels x hx y hy, if_congr hin rfl rfl]
    split
    · rename_i hhere
      rw [if_pos hhere] at hcell
      rw [shown_some hcell, ← hhere.1, ← hhere.2]
      have hxmod := Nat.div_add_mod' x FONT_WIDTH
      have hymod := Nat.div_add_mod' y FONT_HEIGHT
      congr 1
      · omega
      · omega
    · rename_i hother
      rw [if_neg hother] at hcell
      rw [shown_of_cell hcell]
      exact hs.pixels x hx y hy
  have hdraws : Draws f W H ⟨{ (s.terminal.ttyPutentryat c s.terminal.terminalColumn s.terminal.terminalRow) with
      terminalColumn := incSize s.terminal.terminalColumn },
      drawChar f (s.terminal.terminalColumn * FONT_WIDTH) (s.terminal.terminalRow * FONT_HEIGHT) c s.screen⟩
      (p.append c) := by
    refine ⟨hs.width, hs.height, hs.row, ?_, ?_⟩
    · rw [hs.column, hs.row]
      exact hflat
    · rw [hs.column, hs.row]
      exact hdrawn
  have hfits := hs.fits.put c
  rw [Display.putGlyph]
  rw [Paper.put] at hfits ⊢
  by_cases hfull : p.current.length + 1 = W / FONT_WIDTH
  · rw [if_pos hfull] at hfits ⊢
    have hcolumn : incSize s.terminal.terminalColumn = s.terminal.terminalTextWidth := by
      rw [hinc, hs.width, hfull]
    exact (if_pos hcolumn).symm ▸ hdraws.ttyBreakline hz hfits
  · rw [if_neg hfull] at hfits ⊢
    have hcolumn : incSize s.terminal.terminalColumn ≠ s.terminal.terminalTextWidth := by
      rw [hinc, hs.width]
      exact hfull
    have hlen : incSize s.terminal.terminalColumn = (p.append c).current.length := by
      rw [hinc, Paper.append, List.length_append, List.length_singleton]
    exact (if_neg hcolumn).symm ▸ ⟨hdraws, hlen, hfits⟩

/-- **`tty_putchar`** types a byte. -/
theorem Shows.ttyPutchar (hs : Shows f W H s p) (hz : Sizes W H) (c : UInt8) :
    Shows f W H (s.ttyPutchar f c) (Paper.type (W / FONT_WIDTH) p c) := by
  rw [Display.ttyPutchar, Paper.type]
  split
  · exact hs.toDraws.ttyBreakline hz hs.fits.newline
  · split
    · rw [Display.ttyTab, Paper.tab, hs.column]
      generalize TAB_SIZE - p.current.length % TAB_SIZE = n
      induction n with
      | zero => exact hs
      | succ n ih => exact ih.putGlyph hz 32
    · split
      · have hzero : 0 < W / FONT_WIDTH := Nat.lt_of_le_of_lt (Nat.zero_le _) hs.fits.current
        obtain ⟨hflat, hpixels⟩ := hs.flat.clearFramebuffer f
        refine ⟨⟨hs.width, hs.height, ?_, hflat, fun x hx y hy => ?_⟩, rfl, Paper.fits_empty hzero⟩
        · exact (Nat.zero_min _).symm
        · rw [shown_none (Paper.cell_empty _ _ _)]
          exact hpixels x hx y hy
      · exact hs.putGlyph hz c

theorem Shows.ttyWrite (hs : Shows f W H s p) (hz : Sizes W H) (data : List UInt8) :
    Shows f W H (s.ttyWrite f data) (data.foldl (Paper.type (W / FONT_WIDTH)) p) := by
  induction data generalizing s p with
  | nil => exact hs
  | cons c data ih => exact ih (hs.ttyPutchar hz c)

/-- A cleared screen shows empty paper. -/
theorem shows_init (f : Style) {s : Screen} (hflat : Flat W H s) (hz : Sizes W H) :
    Shows f W H (Display.init f s) .empty := by
  have hcolumn : 0 < W / FONT_WIDTH := Nat.div_pos hz.column (by decide)
  obtain ⟨hclear, hpixels⟩ := hflat.clearFramebuffer f
  refine ⟨⟨?_, ?_, (Nat.zero_min _).symm, hclear, fun x hx y hy => ?_⟩, rfl, Paper.fits_empty hcolumn⟩
  · rw [← hflat.width]
    rfl
  · rw [← hflat.height]
    rfl
  · rw [shown_none (Paper.cell_empty _ _ _)]
    exact hpixels x hx y hy

/-! ### The cursor is that of the terminal alone -/

theorem terminal_ttyBreakline (f : Style) (s : Display) : (s.ttyBreakline f).terminal = s.terminal.ttyBreakline := by
  rw [Display.ttyBreakline, Terminal.ttyBreakline]
  simp only [apply_ite Display.terminal, Display.ttyScroll]

theorem terminal_putGlyph (f : Style) (s : Display) (c : UInt8) :
    (s.putGlyph f c).terminal = s.terminal.putGlyph c := by
  have hput : (s.ttyPutentryat f c s.terminal.terminalColumn s.terminal.terminalRow).terminal =
    s.terminal.ttyPutentryat c s.terminal.terminalColumn s.terminal.terminalRow := rfl
  rw [Display.putGlyph, Terminal.putGlyph, ← hput]
  dsimp only
  split
  · exact terminal_ttyBreakline f _
  · rfl

theorem terminal_ttyPutchar (f : Style) (s : Display) (c : UInt8) :
    (s.ttyPutchar f c).terminal = s.terminal.ttyPutchar c := by
  have htab : (s.ttyTab f).terminal = s.terminal.ttyTab :=
    forLoop_map (fun _ s => terminal_putGlyph f s 32) s
  rw [Display.ttyPutchar, Terminal.ttyPutchar]
  simp only [apply_ite Display.terminal, terminal_ttyBreakline, terminal_putGlyph, htab, Display.ttyClean]

theorem terminal_ttyWrite (f : Style) (s : Display) (data : List UInt8) :
    (s.ttyWrite f data).terminal = s.terminal.ttyWrite data := by
  induction data generalizing s with
  | nil => rfl
  | cons c data ih =>
    show ((s.ttyPutchar f c).ttyWrite f data).terminal = (s.terminal.ttyPutchar c).ttyWrite data
    rw [ih, terminal_ttyPutchar]

/-- **What the console shows.**  Whatever text is written, with whatever line ends, tabs and form feeds, every pixel of
the framebuffer is that of the last rows of the text, as far as it wraps at the width of the screen; and the cursor is
where the text ends. -/
theorem display_shows (f : Style) {s₀ : Screen} (hflat : Flat W H s₀) (hz : Sizes W H) (data : List UInt8) :
    (∀ x < W, ∀ y < H, ((Display.init f s₀).ttyWrite f data).screen.pixels (s₀.pixelAt x y) =
      shown f (H / FONT_HEIGHT) (typed (W / FONT_WIDTH) data) x y) ∧
    ((Display.init f s₀).ttyWrite f data).terminal =
      (Editor.start (W / FONT_WIDTH) (H / FONT_HEIGHT)).terminal.ttyWrite data ∧
    ((Display.init f s₀).ttyWrite f data).terminal.terminalRow =
      (typed (W / FONT_WIDTH) data).row (H / FONT_HEIGHT) ∧
    ((Display.init f s₀).ttyWrite f data).terminal.terminalColumn = (typed (W / FONT_WIDTH) data).current.length := by
  have hs := (shows_init f hflat hz).ttyWrite hz data
  refine ⟨fun x hx y hy => ?_, ?_, hs.row, hs.column⟩
  · rw [(hflat.pixelAt hx hy).1]
    exact hs.pixels x hx y hy
  · rw [terminal_ttyWrite, ← hflat.width, ← hflat.height]
    rfl

/-- A screen of two rows of two characters. -/
def fourPlaces : Screen := ⟨true, 16, 32, 64, fun _ => 7, []⟩

/-- A font in which every character is a block, except the space. -/
def blocks : Style := ⟨fun i => if i / 16 = 32 then 0 else 0xFF, 1, 0⟩

/-- Three lines are written, so that the first one is gone: `b` and `c` are left. -/
theorem display_shows_fourPlaces :
    ((Display.init blocks fourPlaces).ttyWrite blocks [97, 97, 98, 10, 32, 99]).screen.pixels
        (fourPlaces.pixelAt 0 0) = 0 ∧
      ((Display.init blocks fourPlaces).ttyWrite blocks [97, 97, 98, 10, 32, 99]).screen.pixels
        (fourPlaces.pixelAt 15 15) = 1 := by
  have hflat : Flat 16 32 fourPlaces := ⟨rfl, rfl, rfl, rfl, by decide⟩
  have hz : Sizes 16 32 := ⟨by decide, by decide, by decide, by decide⟩
  obtain ⟨hpixels, -⟩ := display_shows blocks hflat hz [97, 97, 98, 10, 32, 99]
  rw [hpixels 0 (by decide) 0 (by decide), hpixels 15 (by decide) 15 (by decide)]
  decide

end

end LizardOs.Tty
