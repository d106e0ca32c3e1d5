import LizardOs.Lib.ForLoop
import Mathlib.Logic.Function.Basic
import Mathlib.Tactic.Ring

/-!
# The framebuffer

`fb_present_xrgb` of `framebuffer.c`.  The screen is its geometry and its words, and it records the words that are
stored, so that a statement can speak of every one of them.  The sizes of the image have 32 bits, the width and the
height of the screen 64.
-/

namespace LizardOs.Dev

open LizardOs.Lib

/-- The framebuffer and its geometry.  `mapped` says that the pointer is not `NULL`, and `written` are the positions
stored to, latest first. -/
structure Screen where
  mapped : Bool
  width : ℕ
  height : ℕ
  pitch : ℕ
  pixels : ℕ → UInt32
  written : List ℕ

namespace Screen

/-- Words from one scanline to the next. -/
def stride (s : Screen) : ℕ := s.pitch / 4

/-- `framebuffer[i] = px`. -/
def store (s : Screen) (i : ℕ) (px : UInt32) : Screen :=
  { s with pixels := Function.update s.pixels i px, written := i :: s.written }

/-- `memcpy(framebuffer + dst, src, 4 * n)`; the source may be the framebuffer, at a distance of whole words. -/
def memcpy (s : Screen) (dst : ℕ) (src : Screen → ℕ → UInt32) (n : ℕ) : Screen :=
  forLoop n (fun i s => s.store (dst + i) (src s i)) s

/-- The test of the scale search for the next scale. -/
def scaleFits (s : Screen) (sw sh scale : ℕ) : Bool :=
  decide (sw * (scale + 1) % 2 ^ 32 ≤ s.width ∧ sh * (scale + 1) % 2 ^ 32 ≤ s.height)

/-- The scale search; `none` when it has not ended after `fuel` scales. -/
def scaleSearch (s : Screen) (sw sh : ℕ) : ℕ → ℕ → Option ℕ
  | 0, _ => none
  | fuel + 1, scale => if s.scaleFits sw sh scale then s.scaleSearch sw sh fuel (scale + 1) else some scale

/-- The scale of an image.  Each scale that is passed is less than the width. -/
def scaleOf (s : Screen) (sw sh : ℕ) : Option ℕ := s.scaleSearch sw sh (s.width + 1) 1

/-- `ox`: half of what is left of the width, as the 32 bits of a 64-bit difference. -/
def originX (s : Screen) (sw scale : ℕ) : ℕ := (s.width + 2 ^ 64 - sw * scale % 2 ^ 32) % 2 ^ 64 / 2 % 2 ^ 32

/-- `oy`. -/
def originY (s : Screen) (sh scale : ℕ) : ℕ := (s.height + 2 ^ 64 - sh * scale % 2 ^ 32) % 2 ^ 64 / 2 % 2 ^ 32

/-- Write a pixel of the source `scale` times at `d`, and move `d` behind it. -/
def expandPixel (px : UInt32) (scale : ℕ) (sd : Screen × ℕ) : Screen × ℕ :=
  forLoop scale (fun _ sd => (sd.1.store sd.2 px, sd.2 + 1)) sd

/-- The first output row of a source row. -/
def expandRow (s : Screen) (drow : ℕ) (srow : ℕ → UInt32) (sw scale : ℕ) : Screen :=
  (forLoop sw (fun sx sd => expandPixel (srow sx) scale sd) (s, drow)).1

/-- The output rows of source row `sy`. -/
def presentRow (src : ℕ → UInt32) (sw sh scale sy : ℕ) (s : Screen) : Screen :=
  let srow := fun sx => src (sy * sw + sx)
  let drow := (s.originY sh scale + sy * scale) % 2 ^ 32 * s.stride + s.originX sw scale
  let s := if scale = 1 then s.memcpy drow (fun _ => srow) sw else s.expandRow drow srow sw scale
  forLoop (scale - 1)
    (fun k s => s.memcpy (drow + (k + 1) * s.stride) (fun s i => s.pixels (drow + i)) (sw * scale % 2 ^ 32)) s

end Screen

/-- `fb_present_xrgb`; `none` when the scale search does not end. -/
def fbPresentXrgb (s : Screen) (src : Option (ℕ → UInt32)) (sw sh : ℕ) : Option Screen :=
  match src with
  | none => some s
  | some src =>
      if s.mapped = false ∨ sw = 0 ∨ sh = 0 then some s
      else
        match s.scaleOf sw sh with
        | none => none
        | some scale => some (forLoop sh (fun sy s => s.presentRow src sw sh scale sy) s)

end LizardOs.Dev
