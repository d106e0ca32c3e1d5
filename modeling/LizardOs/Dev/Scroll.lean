import LizardOs.Dev.Framebuffer
import LizardOs.Lib.Memmove
import Mathlib.Tactic.IntervalCases

/-!
# Scrolling

`draw_pixel` and `scroll_framebuffer` of `framebuffer.c`.  A pixel is drawn in the line that the pitch gives, and the
text is moved up by `memmove` over the bytes of the framebuffer, as if the lines lay one behind the other with no gap.
So the text keeps its shape exactly when there is no gap, and the sizes do not need more than 32 bits
(`scrolls_iff`).
-/

namespace LizardOs.Dev

open LizardOs.Lib

/-- A 32-bit word with byte `k` replaced. -/
def setByte (w : UInt32) (k : ℕ) (b : UInt8) : UInt32 :=
  UInt32.ofNat (w.toNat - (leByte w.toNat k).toNat * 256 ^ k + b.toNat * 256 ^ k)

namespace Screen

/-- The word that `draw_pixel` addresses. -/
def pixelAt (s : Screen) (x y : ℕ) : ℕ := (y * s.stride + x) % 2 ^ 64

/-- `draw_pixel`. -/
def drawPixel (s : Screen) (x y : ℕ) (color : UInt32) : Screen :=
  if s.mapped = false then s else s.store (s.pixelAt x y) color

/-- `((unsigned char *)framebuffer)[k]`. -/
def byteAt (s : Screen) (k : ℕ) : UInt8 := leByte (s.pixels (k / 4)).toNat (k % 4)

/-- `((unsigned char *)framebuffer)[k] = b`. -/
def storeByte (s : Screen) (k : ℕ) (b : UInt8) : Screen := s.store (k / 4) (setByte (s.pixels (k / 4)) (k % 4) b)

end Screen

theorem leByte_setByte (w : UInt32) {k j : ℕ} (b : UInt8) (hk : k < 4) (hj : j < 4) :
    leByte (setByte w k b).toNat j = if j = k then b else leByte w.toNat j := by
  have hw := w.toNat_lt
  have hb := b.toNat_lt
  apply UInt8.toNat_inj.mp
  rw [leByte_toNat, setByte, UInt32.toNat_ofNat', leByte_toNat]
  interval_cases k <;> interval_cases j <;> simp only [leByte_toNat, apply_ite UInt8.toNat] <;> simp <;> omega

/-- The bytes of a word decide about it. -/
theorem word_ext {v w : UInt32} (h : ∀ j < 4, leByte v.toNat j = leByte w.toNat j) : v = w := by
  have hv := v.toNat_lt
  have hw := w.toNat_lt
  have hbyte : ∀ j < 4, v.toNat / 256 ^ j % 256 = w.toNat / 256 ^ j % 256 := by
    intro j hj
    rw [← leByte_toNat, ← leByte_toNat, h j hj]
  have h0 := hbyte 0 (by decide)
  have h1 := hbyte 1 (by decide)
  have h2 := hbyte 2 (by decide)
  have h3 := hbyte 3 (by decide)
  apply UInt32.toNat_inj.mp
  omega

namespace Screen

variable {s : Screen} {p : UInt32} {bg : UInt32}

theorem byteAt_storeByte (s : Screen) (k : ℕ) (b : UInt8) :
    (s.storeByte k b).byteAt = Function.update s.byteAt k b := by
  funext j
  rw [byteAt, storeByte, store]
  by_cases hword : j / 4 = k / 4
  · simp only [hword, Function.update_self]
    rw [leByte_setByte _ _ (by omega) (by omega)]
    by_cases hj : j = k
    · rw [if_pos (by rw [hj]), hj, Function.update_self]
    · rw [if_neg (by omega), Function.update_of_ne hj, byteAt, hword]
  · have hj : j ≠ k := fun h => hword (by rw [h])
    simp only []
    rw [Function.update_of_ne hword, Function.update_of_ne hj, byteAt]

/-- The bytes of the framebuffer. -/
def bytes : ByteStore Screen := ⟨byteAt, storeByte, byteAt_storeByte⟩

/-- `scroll_framebuffer`; `bg` is `tty_bg_color`. -/
def scrollFramebuffer (s : Screen) (bg pixels : UInt32) : Screen :=
  if s.mapped = false then s
  else if pixels = 0 ∨ s.height ≤ pixels.toNat then s
  else
    let scrollOffset := pixels.toNat * s.width % 2 ^ 32
    let movePixels := (s.height - pixels.toNat) * s.width % 2 ^ 32
    let s := bytes.memmove 0 (4 * scrollOffset) (4 * movePixels) s
    forLoop scrollOffset (fun i s => s.store (movePixels + i) bg) s

/-- Whole words that `memmove` moves. -/
theorem pixels_memmove (s : Screen) (off n i : ℕ) :
    (bytes.memmove 0 (4 * off) (4 * n) s).pixels i = if i < n then s.pixels (i + off) else s.pixels i := by
  set s' := bytes.memmove 0 (4 * off) (4 * n) s with hs'
  have hbytes : s'.byteAt = splice s.byteAt 0 (fun j => s.byteAt (4 * off + j)) (4 * n) :=
    ByteStore.get_memmove (m := bytes)
  have hword : ∀ (t : Screen) (i j : ℕ), j < 4 → leByte (t.pixels i).toNat j = t.byteAt (4 * i + j) := by
    intro t i j hj
    rw [byteAt, show (4 * i + j) / 4 = i by omega, show (4 * i + j) % 4 = j by omega]
  apply word_ext
  intro j hj
  rw [hword s' i j hj, hbytes]
  split
  · rw [splice_zero (by omega), hword s _ j hj]
    exact congrArg s.byteAt (by omega)
  · rw [splice_outside (by omega), hword s _ j hj]

theorem pixels_clear (s : Screen) (bg : UInt32) (start n i : ℕ) :
    (forLoop n (fun i s => s.store (start + i) bg) s).pixels i =
      if start ≤ i ∧ i < start + n then bg else s.pixels i := by
  refine forLoop_invariant
    (I := fun k (s' : Screen) => s'.pixels i = if start ≤ i ∧ i < start + k then bg else s.pixels i)
    (if_neg (by omega)).symm fun k s' hk hs' => ?_
  rw [store]
  by_cases hi : i = start + k
  · rw [hi, if_pos (by omega)]
    exact Function.update_self ..
  · have hsame : (start ≤ i ∧ i < start + (k + 1)) ↔ (start ≤ i ∧ i < start + k) := by omega
    rw [if_congr hsame rfl rfl, ← hs']
    exact Function.update_of_ne hi ..

/-- The words after a scroll. -/
theorem pixels_scrollFramebuffer (bg : UInt32) (hmapped : s.mapped = true) (hp : 0 < p.toNat) (hh : p.toNat < s.height)
    (i : ℕ) :
    (s.scrollFramebuffer bg p).pixels i =
      if (s.height - p.toNat) * s.width % 2 ^ 32 ≤ i ∧
          i < (s.height - p.toNat) * s.width % 2 ^ 32 + p.toNat * s.width % 2 ^ 32 then bg
      else if i < (s.height - p.toNat) * s.width % 2 ^ 32 then s.pixels (i + p.toNat * s.width % 2 ^ 32)
      else s.pixels i := by
  have hgo : ¬(p = 0 ∨ s.height ≤ p.toNat) := by
    rintro (rfl | hle)
    · exact absurd hp (by decide)
    · omega
  rw [scrollFramebuffer, if_neg (by rw [hmapped]; decide), if_neg hgo]
  simp only []
  rw [pixels_clear, pixels_memmove]

/-- The text has moved up by `pixels` lines, where `draw_pixel` draws it, and the last lines are empty. -/
def Scrolled (s s' : Screen) (bg pixels : UInt32) : Prop :=
  (∀ x < s.width, ∀ y < s.height - pixels.toNat,
    s'.pixels (s.pixelAt x y) = s.pixels (s.pixelAt x (y + pixels.toNat))) ∧
  ∀ x < s.width, ∀ y < s.height, s.height - pixels.toNat ≤ y → s'.pixels (s.pixelAt x y) = bg

/-- The lines lie one behind the other with no gap, and neither the words that are moved nor those that are cleared
need more than 32 bits to count; or there is no pixel at all. -/
def Gapless (s : Screen) (pixels : UInt32) : Prop :=
  s.width = 0 ∨ (s.pitch = 4 * s.width ∧ pixels.toNat * s.width < 2 ^ 32 ∧
    (s.height - pixels.toNat) * s.width < 2 ^ 32)

/-- Without a gap, scrolling moves the text up. -/
theorem Gapless.scrolled (h : s.Gapless p) (hmapped : s.mapped = true) (hp : 0 < p.toNat) (hh : p.toNat < s.height) :
    Scrolled s (s.scrollFramebuffer bg p) bg p := by
  rcases h with hzero | ⟨hpitch, hclear, hmove⟩
  · exact ⟨fun x hx => absurd hx (by omega), fun x hx => absurd hx (by omega)⟩
  · have hstride : s.stride = s.width := by
      rw [stride]
      omega
    have hlines : s.height * s.width = (s.height - p.toNat) * s.width + p.toNat * s.width := by
      rw [← Nat.add_mul, Nat.sub_add_cancel hh.le]
    -- every word of the text has its own address
    have haddr : ∀ x < s.width, ∀ y < s.height, s.pixelAt x y = y * s.width + x := by
      intro x hx y hy
      have hrow : (y + 1) * s.width ≤ s.height * s.width := Nat.mul_le_mul_right _ hy
      rw [Nat.succ_mul] at hrow
      rw [pixelAt, hstride, Nat.mod_eq_of_lt (by omega)]
    have hpixels := fun i => pixels_scrollFramebuffer (s := s) bg hmapped hp hh i
    rw [Nat.mod_eq_of_lt hclear, Nat.mod_eq_of_lt hmove] at hpixels
    refine ⟨fun x hx y hy => ?_, fun x hx y hy hlast => ?_⟩
    · have hrow : (y + 1) * s.width ≤ (s.height - p.toNat) * s.width := Nat.mul_le_mul_right _ hy
      rw [Nat.succ_mul] at hrow
      rw [haddr x hx y (by omega), haddr x hx _ (by omega), hpixels, if_neg (by omega), if_pos (by omega), Nat.add_mul]
      exact congrArg s.pixels (by omega)
    · have hbelow : (s.height - p.toNat) * s.width ≤ y * s.width := Nat.mul_le_mul_right _ hlast
      have hrow : (y + 1) * s.width ≤ s.height * s.width := Nat.mul_le_mul_right _ hy
      rw [Nat.succ_mul] at hrow
      rw [haddr x hx y hy, hpixels, if_pos (by omega)]

/-- The screen shows one white word on black at place `i`. -/
def spot (s : Screen) (i : ℕ) : Screen := { s with pixels := fun j => if j = i then 1 else 0 }

/-- With a gap, or with a count that wraps around, a spot that is to move up is lost. -/
theorem gapless_of_scrolled (hmapped : s.mapped = true) (hp : 0 < p.toNat) (hh : p.toNat < s.height)
    (hpitch : s.pitch < 2 ^ 32) (hline : 4 * s.width ≤ s.pitch) (hfour : 4 ∣ s.pitch)
    (h : ∀ i, Scrolled (s.spot i) ((s.spot i).scrollFramebuffer 0 p) 0 p) : s.Gapless p := by
  by_contra hgap
  rw [Gapless, not_or] at hgap
  obtain ⟨hzero, hgap⟩ := hgap
  have hw : 0 < s.width := Nat.pos_of_ne_zero hzero
  have hwide : s.width ≤ s.stride := by
    rw [stride]
    omega
  have hp32 := p.toNat_lt
  have hpixels := fun i => pixels_scrollFramebuffer (s := s.spot i) 0 hmapped hp hh
  have hmoved : p.toNat * s.width ≤ p.toNat * s.stride := Nat.mul_le_mul_left _ hwide
  have hfits : p.toNat * s.stride < 2 ^ 32 * 2 ^ 30 := by
    have hstride : s.stride < 2 ^ 30 := by
      rw [stride]
      omega
    exact Nat.mul_lt_mul'' hp32 hstride
  have hpos : 0 < p.toNat * s.stride := Nat.mul_pos hp (by omega)
  by_cases hfirst : p.toNat * s.width % 2 ^ 32 < p.toNat * s.stride
  · -- the line that moves to the top is taken from too far up
    have hspot := (h (p.toNat * s.stride)).1 0 hw 0 (Nat.sub_pos_of_lt hh)
    have htop : (s.spot (p.toNat * s.stride)).pixelAt 0 0 = 0 := by
      rw [pixelAt, Nat.zero_mul]
      rfl
    have hline : (s.spot (p.toNat * s.stride)).pixelAt 0 (0 + p.toNat) = p.toNat * s.stride := by
      show ((0 + p.toNat) * s.stride + 0) % 2 ^ 64 = _
      rw [Nat.zero_add, Nat.add_zero, Nat.mod_eq_of_lt (by omega)]
    have hone : (s.spot (p.toNat * s.stride)).pixels (p.toNat * s.stride) = 1 := if_pos rfl
    have hother : ∀ j, j ≠ p.toNat * s.stride → (s.spot (p.toNat * s.stride)).pixels j = 0 := fun j hj => if_neg hj
    rw [htop, hline, hpixels, hone] at hspot
    split at hspot
    · cases hspot
    · split at hspot
      · rw [hother _ (by show 0 + p.toNat * s.width % 2 ^ 32 ≠ _; omega)] at hspot
        cases hspot
      · rw [hother _ (by omega)] at hspot
        cases hspot
  · -- the lines have no gap, and the first word behind those that are moved is cleared
    have hclear : p.toNat * s.width < 2 ^ 32 := by
      by_contra hwrap
      have := Nat.mod_lt (p.toNat * s.width) (show 0 < 2 ^ 32 by decide)
      omega
    have hsame : s.stride = s.width := by
      rw [Nat.mod_eq_of_lt hclear] at hfirst
      exact (Nat.eq_of_mul_eq_mul_left hp (by omega : p.toNat * s.width = p.toNat * s.stride)).symm
    have hmove : 2 ^ 32 ≤ (s.height - p.toNat) * s.width := by
      by_contra hfew
      refine hgap ⟨?_, hclear, Nat.not_le.mp hfew⟩
      rw [stride] at hsame
      omega
    set m := (s.height - p.toNat) * s.width % 2 ^ 32 with hm
    have hm32 : m < 2 ^ 32 := Nat.mod_lt _ (by decide)
    have hrow : m / s.width < s.height - p.toNat := (Nat.div_lt_iff_lt_mul hw).mpr (by omega)
    have hplace : m / s.width * s.width + m % s.width = m := Nat.div_add_mod' m s.width
    have hspot := (h (m + p.toNat * s.width)).1 (m % s.width) (Nat.mod_lt _ hw) (m / s.width) hrow
    have hfrom : (s.spot (m + p.toNat * s.width)).pixelAt (m % s.width) (m / s.width) = m := by
      show (m / s.width * s.stride + m % s.width) % 2 ^ 64 = m
      rw [hsame, hplace, Nat.mod_eq_of_lt (by omega)]
    have hto : (s.spot (m + p.toNat * s.width)).pixelAt (m % s.width) (m / s.width + p.toNat) =
        m + p.toNat * s.width := by
      show ((m / s.width + p.toNat) * s.stride + m % s.width) % 2 ^ 64 = _
      rw [hsame, Nat.add_mul, Nat.mod_eq_of_lt (by omega)]
      omega
    have hone : (s.spot (m + p.toNat * s.width)).pixels (m + p.toNat * s.width) = 1 := if_pos rfl
    have hsome : m < m + p.toNat * s.width % 2 ^ 32 := by
      have := Nat.mul_pos hp hw
      rw [Nat.mod_eq_of_lt hclear]
      omega
    rw [hfrom, hto, hpixels, hone, if_pos ⟨le_rfl, hsome⟩] at hspot
    cases hspot

end Screen

open Screen

/-- **When scrolling moves the text rows as drawn**: for a framebuffer of this geometry, whatever it shows and whatever
the background is, exactly when its lines have no gap and the counts of words do not wrap around. -/
theorem scrolls_iff (s : Screen) (p : UInt32) (hmapped : s.mapped = true) (hpitch : s.pitch < 2 ^ 32)
    (hfour : 4 ∣ s.pitch) (hline : 4 * s.width ≤ s.pitch) (hp : 0 < p.toNat) (hh : p.toNat < s.height) :
    (∀ (text : ℕ → UInt32) (bg : UInt32), Scrolled { s with pixels := text }
      ({ s with pixels := text }.scrollFramebuffer bg p) bg p) ↔ s.Gapless p := by
  constructor
  · intro h
    exact gapless_of_scrolled hmapped hp hh hpitch hline hfour fun i => h _ 0
  · intro h text bg
    exact Gapless.scrolled (s := { s with pixels := text }) h hmapped hp hh

/-- Two lines of three pixels with no gap; the second line begins with a white pixel. -/
def tightScreen : Screen := ⟨true, 3, 2, 12, fun i => if i = 3 then 1 else 0, []⟩

theorem scrolls_iff_tightScreen : Scrolled tightScreen (tightScreen.scrollFramebuffer 0 1) 0 1 :=
  (scrolls_iff tightScreen 1 rfl (by decide) (by decide) (by decide) (by decide) (by decide)).mpr
    (.inr (by decide)) tightScreen.pixels 0

/-- A screen of two lines of three pixels, with a fourth word behind each; the second line begins with a white pixel. -/
def paddedScreen : Screen := ⟨true, 3, 2, 16, fun i => if i = 4 then 1 else 0, []⟩

/-- The white pixel does not come to the first line. -/
theorem not_scrolled_padded : paddedScreen.mapped = true ∧ 4 ∣ paddedScreen.pitch ∧
    4 * paddedScreen.width ≤ paddedScreen.pitch ∧ (1 : UInt32).toNat < paddedScreen.height ∧
      ¬Scrolled paddedScreen (paddedScreen.scrollFramebuffer 0 1) 0 1 := by
  refine ⟨rfl, by decide, by decide, by decide, fun h => ?_⟩
  have hfirst := h.1 0 (by decide) 0 (by decide)
  rw [pixels_scrollFramebuffer 0 rfl (by decide) (by decide)] at hfirst
  exact absurd hfirst (by decide)

end LizardOs.Dev
