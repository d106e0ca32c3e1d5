import LizardOs.Dev.Framebuffer
import Mathlib.Order.Bounds.Basic
import Mathlib.Tactic.Set

/-!
# Blits

An image that is no larger than the screen is scaled by the largest factor that fits and put in the middle
(`fbPresentXrgb_image`).  An image that is larger in one direction is not turned away: the difference of the sizes wraps
around, and it is written outside of the screen (`onScreen_iff`).
-/

namespace LizardOs.Dev

open LizardOs.Lib

namespace Screen

variable {s s' s'' : Screen} {sw sh scale : ℕ} {f : ℕ → UInt32} {R R' : ℕ → Prop}

/-! ### What a part of the routine writes -/

/-- The words at the positions `R` have been stored, as `f` says, and nothing else has changed. -/
structure Wrote (s s' : Screen) (R : ℕ → Prop) (f : ℕ → UInt32) : Prop where
  width : s'.width = s.width
  height : s'.height = s.height
  pitch : s'.pitch = s.pitch
  inside : ∀ i, R i → s'.pixels i = f i
  outside : ∀ i, ¬R i → s'.pixels i = s.pixels i
  written : ∀ i ∈ s'.written, R i ∨ i ∈ s.written

theorem Wrote.nothing (s : Screen) (hR : ∀ i, ¬R i) : Wrote s s R f :=
  ⟨rfl, rfl, rfl, fun i hi => absurd hi (hR i), fun _ _ => rfl, fun _ hi => .inr hi⟩

theorem Wrote.congr (h : Wrote s s' R f) (hR : ∀ i, R' i ↔ R i) : Wrote s s' R' f :=
  ⟨h.width, h.height, h.pitch, fun i hi => h.inside i ((hR i).mp hi),
    fun i hi => h.outside i fun hr => hi ((hR i).mpr hr),
    fun i hi => (h.written i hi).imp_left (hR i).mpr⟩

/-- Two parts that write what `f` says. -/
theorem Wrote.trans (h : Wrote s s' R f) (h' : Wrote s' s'' R' f) : Wrote s s'' (fun i => R i ∨ R' i) f := by
  refine ⟨h'.width.trans h.width, h'.height.trans h.height, h'.pitch.trans h.pitch, fun i hi => ?_,
    fun i hi => ?_, fun i hi => ?_⟩
  · by_cases hr' : R' i
    · exact h'.inside i hr'
    · rw [h'.outside i hr', h.inside i (hi.resolve_right hr')]
  · rw [h'.outside i fun hr' => hi (.inr hr'), h.outside i fun hr => hi (.inl hr)]
  · rcases h'.written i hi with hr' | hi'
    · exact .inl (.inr hr')
    · exact (h.written i hi').imp_left .inl

theorem wrote_store (s : Screen) (i : ℕ) {px : UInt32} (hpx : f i = px) : Wrote s (s.store i px) (· = i) f := by
  refine ⟨rfl, rfl, rfl, fun j hj => ?_, fun j hj => Function.update_of_ne hj .., fun j hj => ?_⟩
  · rw [hj, hpx]
    exact Function.update_self ..
  · exact List.mem_cons.mp hj

/-- One more word behind those that are stored. -/
theorem Wrote.store {dst n : ℕ} {px : UInt32} (h : Wrote s s' (fun i => dst ≤ i ∧ i < dst + n) f)
    (hpx : f (dst + n) = px) :
    Wrote s (s'.store (dst + n) px) (fun i => dst ≤ i ∧ i < dst + (n + 1)) f := by
  refine (h.trans (wrote_store s' _ hpx)).congr fun i => ?_
  omega

/-- `memcpy` from a source that the copy does not change. -/
theorem wrote_memcpy (s : Screen) (dst n : ℕ) {src : Screen → ℕ → UInt32}
    (hsrc : ∀ s' : Screen, (∀ i, ¬(dst ≤ i ∧ i < dst + n) → s'.pixels i = s.pixels i) →
      ∀ j < n, src s' j = f (dst + j)) :
    Wrote s (s.memcpy dst src n) (fun i => dst ≤ i ∧ i < dst + n) f := by
  refine forLoop_invariant (I := fun k s' => Wrote s s' (fun i => dst ≤ i ∧ i < dst + k) f)
    (Wrote.nothing s fun i => by omega) fun j s' hj hs' => hs'.store ?_
  refine (hsrc s' (fun i hi => hs'.outside i ?_) j hj).symm
  omega

theorem wrote_expandPixel (s : Screen) (d scale : ℕ) {px : UInt32} (hpx : ∀ j < scale, f (d + j) = px) :
    Wrote s (expandPixel px scale (s, d)).1 (fun i => d ≤ i ∧ i < d + scale) f ∧
      (expandPixel px scale (s, d)).2 = d + scale := by
  refine forLoop_invariant
    (I := fun k (sd : Screen × ℕ) => Wrote s sd.1 (fun i => d ≤ i ∧ i < d + k) f ∧ sd.2 = d + k)
    ⟨Wrote.nothing s fun i => by omega, rfl⟩ fun j sd hj hsd => ?_
  obtain ⟨hwrote, hd⟩ := hsd
  rw [hd]
  exact ⟨hwrote.store (hpx j hj), rfl⟩

theorem wrote_expandRow (s : Screen) (drow : ℕ) {srow : ℕ → UInt32} (sw scale : ℕ)
    (hf : ∀ j < sw * scale, f (drow + j) = srow (j / scale)) :
    Wrote s (s.expandRow drow srow sw scale) (fun i => drow ≤ i ∧ i < drow + sw * scale) f := by
  have hloop : Wrote s (forLoop sw (fun sx sd => expandPixel (srow sx) scale sd) (s, drow)).1
      (fun i => drow ≤ i ∧ i < drow + sw * scale) f ∧
      (forLoop sw (fun sx sd => expandPixel (srow sx) scale sd) (s, drow)).2 = drow + sw * scale := by
    refine forLoop_invariant
      (I := fun m (sd : Screen × ℕ) =>
        Wrote s sd.1 (fun i => drow ≤ i ∧ i < drow + m * scale) f ∧ sd.2 = drow + m * scale)
      ⟨Wrote.nothing s fun i => by omega, by simp⟩ ?_
    rintro sx ⟨s', d⟩ hsx ⟨hwrote, rfl⟩
    have hend : (sx + 1) * scale = sx * scale + scale := Nat.succ_mul sx scale
    have hroom : (sx + 1) * scale ≤ sw * scale := Nat.mul_le_mul_right scale hsx
    have hpx : ∀ j < scale, f (drow + sx * scale + j) = srow sx := by
      intro j hj
      rw [Nat.add_assoc, hf _ (by omega), Nat.add_comm, Nat.add_mul_div_right _ _ (by omega),
        Nat.div_eq_of_lt hj, Nat.zero_add]
    obtain ⟨hpixel, hd⟩ := wrote_expandPixel s' (drow + sx * scale) scale hpx
    refine ⟨(hwrote.trans hpixel).congr fun i => ?_, ?_⟩
    · rw [hend]
      omega
    · rw [hd, hend, Nat.add_assoc]
  exact hloop.1

theorem Wrote.stride (h : Wrote s s' R f) : s'.stride = s.stride := by
  rw [Screen.stride, Screen.stride, h.pitch]

/-- The words of `n` lines of `dw` words, the first of them at `drow`. -/
def Lines (drow stride dw n i : ℕ) : Prop := ∃ k < n, drow + k * stride ≤ i ∧ i < drow + k * stride + dw

theorem lines_one {drow stride dw i : ℕ} : Lines drow stride dw 1 i ↔ drow ≤ i ∧ i < drow + dw := by
  constructor
  · rintro ⟨k, hk, hi⟩
    obtain rfl : k = 0 := by omega
    rwa [Nat.zero_mul, Nat.add_zero] at hi
  · intro hi
    exact ⟨0, Nat.zero_lt_one, by omega⟩

theorem lines_succ {drow stride dw n i : ℕ} : Lines drow stride dw (n + 1) i ↔
    Lines drow stride dw n i ∨ drow + n * stride ≤ i ∧ i < drow + n * stride + dw := by
  constructor
  · rintro ⟨k, hk, hi⟩
    by_cases hkn : k = n
    · exact .inr (hkn ▸ hi)
    · exact .inl ⟨k, by omega, hi⟩
  · rintro (⟨k, hk, hi⟩ | hi)
    · exact ⟨k, by omega, hi⟩
    · exact ⟨n, by omega, hi⟩

/-- **The output rows of one source row**, when its lines do not reach into the next ones. -/
theorem wrote_presentRow {src : ℕ → UInt32} {sy drow : ℕ} (hscale : 0 < scale)
    (hdrow : (s.originY sh scale + sy * scale) % 2 ^ 32 * s.stride + s.originX sw scale = drow)
    (hdw : sw * scale % 2 ^ 32 = sw * scale) (hfit : sw * scale ≤ s.stride)
    (hf : ∀ k < scale, ∀ j < sw * scale, f (drow + k * s.stride + j) = src (sy * sw + j / scale)) :
    Wrote s (s.presentRow src sw sh scale sy) (Lines drow s.stride (sw * scale) scale) f := by
  have hfirst : ∀ j < sw * scale, f (drow + j) = src (sy * sw + j / scale) := by
    intro j hj
    have hzero := hf 0 hscale j hj
    rwa [Nat.zero_mul, Nat.add_zero] at hzero
  set s₁ := if scale = 1 then s.memcpy drow (fun _ sx => src (sy * sw + sx)) sw
    else s.expandRow drow (fun sx => src (sy * sw + sx)) sw scale with hs₁
  have hwrote₁ : Wrote s s₁ (Lines drow s.stride (sw * scale) 1) f := by
    refine Wrote.congr ?_ fun i => lines_one
    rw [hs₁]
    split
    · rename_i hone
      rw [hone, Nat.mul_one]
      refine wrote_memcpy s drow sw fun _ _ j hj => ?_
      rw [hfirst j (by rw [hone]; omega), hone, Nat.div_one]
    · exact wrote_expandRow s drow sw scale hfirst
  have hpresent : s.presentRow src sw sh scale sy = forLoop (scale - 1) (fun k s =>
      s.memcpy (drow + (k + 1) * s.stride) (fun s i => s.pixels (drow + i)) (sw * scale % 2 ^ 32)) s₁ := by
    simp only [presentRow, hdrow, hs₁]
  have hloop : Wrote s (s.presentRow src sw sh scale sy) (Lines drow s.stride (sw * scale) (scale - 1 + 1)) f := by
    rw [hpresent]
    refine forLoop_invariant (I := fun m s' => Wrote s s' (Lines drow s.stride (sw * scale) (m + 1)) f)
      hwrote₁ fun m s' hm hs' => ?_
    rw [hdw, hs'.stride]
    have hnext : s.stride ≤ (m + 1) * s.stride := Nat.le_mul_of_pos_left _ (Nat.succ_pos m)
    -- the line is copied from the first one, which it does not overlap
    have hcopy : Wrote s' (s'.memcpy (drow + (m + 1) * s.stride) (fun s i => s.pixels (drow + i)) (sw * scale))
        (fun i => drow + (m + 1) * s.stride ≤ i ∧ i < drow + (m + 1) * s.stride + sw * scale) f := by
      refine wrote_memcpy s' _ _ fun s'' hsame j hj => ?_
      show s''.pixels (drow + j) = _
      rw [hsame _ (by omega), hs'.inside _ ⟨0, Nat.succ_pos m, by omega⟩, hfirst j hj,
        hf (m + 1) (by omega) j hj]
    exact (hs'.trans hcopy).congr fun i => lines_succ
  rwa [Nat.sub_add_cancel hscale] at hloop

/-! ### Where the image lies -/

/-- `ox` and `oy` without the wrap-around. -/
def middleX (s : Screen) (sw scale : ℕ) : ℕ := (s.width - sw * scale) / 2

def middleY (s : Screen) (sh scale : ℕ) : ℕ := (s.height - sh * scale) / 2

/-- An image of `sw` by `sh` pixels at a scale at which it lies on the screen, and no 32-bit value on the way to its
place wraps around. -/
structure Placed (s : Screen) (sw sh scale : ℕ) : Prop where
  scale_pos : 0 < scale
  line : s.width ≤ s.stride
  width : s.width < 2 ^ 32
  height : s.height < 2 ^ 64
  fitsX : sw * scale ≤ s.width
  fitsY : sh * scale ≤ s.height
  sizeY : sh * scale < 2 ^ 32
  originY : s.middleY sh scale < 2 ^ 32
  rows : ∀ sy < sh, s.middleY sh scale + sy * scale < 2 ^ 32

/-- Half of a 64-bit difference that does not wrap around, cut to 32 bits. -/
theorem half_of_difference {a b : ℕ} (ha : a < 2 ^ 64) (hb : b < 2 ^ 32) (hba : b ≤ a) (hhalf : (a - b) / 2 < 2 ^ 32) :
    (a + 2 ^ 64 - b % 2 ^ 32) % 2 ^ 64 / 2 % 2 ^ 32 = (a - b) / 2 := by
  rw [Nat.mod_eq_of_lt hb, show a + 2 ^ 64 - b = a - b + 2 ^ 64 by omega, Nat.add_mod_right,
    Nat.mod_eq_of_lt (Nat.lt_of_le_of_lt (Nat.sub_le a b) ha), Nat.mod_eq_of_lt hhalf]

theorem Placed.originX_eq (h : s.Placed sw sh scale) : s.originX sw scale = s.middleX sw scale := by
  have hwidth := h.width
  have hfits := h.fitsX
  exact half_of_difference (by omega) (by omega) hfits (by omega)

theorem Placed.originY_eq (h : s.Placed sw sh scale) : s.originY sh scale = s.middleY sh scale :=
  half_of_difference h.height h.sizeY h.fitsY h.originY

theorem Placed.right (h : s.Placed sw sh scale) : s.middleX sw scale + sw * scale ≤ s.width := by
  have hfits := h.fitsX
  rw [middleX]
  omega

theorem Placed.bottom (h : s.Placed sw sh scale) : s.middleY sh scale + sh * scale ≤ s.height := by
  have hfits := h.fitsY
  rw [middleY]
  omega

/-- The word that belongs at position `i` of the screen, in the scaled image. -/
def target (s : Screen) (src : ℕ → UInt32) (sw sh scale i : ℕ) : UInt32 :=
  src ((i / s.stride - s.middleY sh scale) / scale * sw + (i % s.stride - s.middleX sw scale) / scale)

theorem target_at {src : ℕ → UInt32} {x y : ℕ} (hx : s.middleX sw scale + x < s.stride) :
    s.target src sw sh scale ((s.middleY sh scale + y) * s.stride + (s.middleX sw scale + x)) =
      src (y / scale * sw + x / scale) := by
  rw [target, Nat.add_comm ((s.middleY sh scale + y) * s.stride),
    Nat.add_mul_div_right _ _ (Nat.zero_lt_of_lt hx), Nat.add_mul_mod_self_right, Nat.div_eq_of_lt hx,
    Nat.mod_eq_of_lt hx, Nat.zero_add, Nat.add_sub_cancel_left, Nat.add_sub_cancel_left]

/-- The positions of the scaled image. -/
def InImage (s : Screen) (sw sh scale i : ℕ) : Prop :=
  ∃ x < sw * scale, ∃ y < sh * scale, i = (s.middleY sh scale + y) * s.stride + (s.middleX sw scale + x)

theorem Wrote.originX (h : Wrote s s' R f) (sw scale : ℕ) : s'.originX sw scale = s.originX sw scale := by
  rw [Screen.originX, Screen.originX, h.width]

theorem Wrote.originY (h : Wrote s s' R f) (sh scale : ℕ) : s'.originY sh scale = s.originY sh scale := by
  rw [Screen.originY, Screen.originY, h.height]

/-- The lines of source row `sy` are the next ones of the image. -/
theorem lines_iff {ox oy stride dw scale sy i : ℕ} :
    ((∃ x < dw, ∃ y < sy * scale, i = (oy + y) * stride + (ox + x)) ∨
        Lines ((oy + sy * scale) * stride + ox) stride dw scale i) ↔
      ∃ x < dw, ∃ y < (sy + 1) * scale, i = (oy + y) * stride + (ox + x) := by
  have hend : (sy + 1) * scale = sy * scale + scale := Nat.succ_mul sy scale
  have hline : ∀ k, (oy + (sy * scale + k)) * stride = (oy + sy * scale) * stride + k * stride := by
    intro k
    rw [← Nat.add_assoc, Nat.add_mul]
  constructor
  · rintro (⟨x, hx, y, hy, rfl⟩ | ⟨k, hk, hi⟩)
    · exact ⟨x, hx, y, by omega, rfl⟩
    · refine ⟨i - ((oy + sy * scale) * stride + ox + k * stride), by omega, sy * scale + k, by omega, ?_⟩
      rw [hline]
      omega
  · rintro ⟨x, hx, y, hy, rfl⟩
    by_cases hold : y < sy * scale
    · exact .inl ⟨x, hx, y, hold, rfl⟩
    · obtain ⟨k, rfl⟩ := Nat.exists_eq_add_of_le (Nat.le_of_not_lt hold)
      refine .inr ⟨k, by omega, ?_⟩
      rw [hline]
      omega

/-- **The whole image** is written where it belongs. -/
theorem wrote_present (h : s.Placed sw sh scale) (src : ℕ → UInt32) :
    Wrote s (forLoop sh (fun sy s => s.presentRow src sw sh scale sy) s) (s.InImage sw sh scale)
      (s.target src sw sh scale) := by
  have hright := h.right
  have hline := h.line
  have hwidth := h.width
  refine forLoop_invariant (I := fun m s' => Wrote s s' (fun i => ∃ x < sw * scale, ∃ y < m * scale,
      i = (s.middleY sh scale + y) * s.stride + (s.middleX sw scale + x)) (s.target src sw sh scale))
    (Wrote.nothing s fun i => ?_) fun sy s' hsy hs' => ?_
  · rintro ⟨x, -, y, hy, -⟩
    omega
  · have hdrow : (s'.originY sh scale + sy * scale) % 2 ^ 32 * s'.stride + s'.originX sw scale =
        (s.middleY sh scale + sy * scale) * s.stride + s.middleX sw scale := by
      rw [hs'.originY, hs'.originX, hs'.stride, h.originY_eq, h.originX_eq, Nat.mod_eq_of_lt (h.rows sy hsy)]
    have hrow : Wrote s' (s'.presentRow src sw sh scale sy)
        (Lines ((s.middleY sh scale + sy * scale) * s.stride + s.middleX sw scale) s'.stride (sw * scale) scale)
        (s.target src sw sh scale) := by
      refine wrote_presentRow h.scale_pos hdrow
        (Nat.mod_eq_of_lt (by omega)) (by rw [hs'.stride]; omega) fun k hk j hj => ?_
      -- the pixel of source row `sy` on its line `k`
      have hplace : (s.middleY sh scale + sy * scale) * s.stride + s.middleX sw scale + k * s'.stride + j =
          (s.middleY sh scale + (sy * scale + k)) * s.stride + (s.middleX sw scale + j) := by
        rw [hs'.stride, ← Nat.add_assoc (s.middleY sh scale), Nat.add_mul _ k]
        omega
      rw [hplace, target_at (by omega), Nat.add_comm (sy * scale), Nat.add_mul_div_right _ _ h.scale_pos,
        Nat.div_eq_of_lt hk, Nat.zero_add]
    rw [hs'.stride] at hrow
    exact (hs'.trans hrow).congr fun i => lines_iff.symm

/-! ### The scale search -/

/-- The search stops at the first scale whose successor does not fit. -/
theorem scaleSearch_some {fuel start : ℕ} (h : s.scaleSearch sw sh fuel start = some scale) :
    start ≤ scale ∧ (∀ t, start ≤ t → t < scale → s.scaleFits sw sh t = true) ∧
      s.scaleFits sw sh scale = false := by
  induction fuel generalizing start with
  | zero => cases h
  | succ fuel ih =>
    rw [scaleSearch] at h
    by_cases hfits : s.scaleFits sw sh start = true
    · rw [if_pos hfits] at h
      obtain ⟨hle, hpass, hstop⟩ := ih h
      refine ⟨by omega, fun t ht hts => ?_, hstop⟩
      by_cases hstart : t = start
      · rw [hstart]
        exact hfits
      · exact hpass t (by omega) hts
    · rw [if_neg hfits] at h
      obtain rfl := Option.some.inj h
      exact ⟨le_rfl, fun t ht hts => by omega, by simpa using hfits⟩

theorem scaleSearch_eq {fuel start : ℕ} (hle : start ≤ scale) (hfuel : scale < start + fuel)
    (hpass : ∀ t, start ≤ t → t < scale → s.scaleFits sw sh t = true) (hstop : s.scaleFits sw sh scale = false) :
    s.scaleSearch sw sh fuel start = some scale := by
  induction fuel generalizing start with
  | zero => omega
  | succ fuel ih =>
    rw [scaleSearch]
    by_cases hend : start = scale
    · rw [hend, hstop]
      rfl
    · rw [if_pos (hpass start le_rfl (by omega)),
        ih (by omega) (by omega) fun t ht hts => hpass t (by omega) hts]

/-- The largest scale at which an image fits. -/
def largestScale (s : Screen) (sw sh : ℕ) : ℕ := min (s.width / sw) (s.height / sh)

theorem le_largestScale_iff (hsw : 0 < sw) (hsh : 0 < sh) :
    scale ≤ s.largestScale sw sh ↔ sw * scale ≤ s.width ∧ sh * scale ≤ s.height := by
  rw [largestScale, Nat.le_min, Nat.le_div_iff_mul_le hsw, Nat.le_div_iff_mul_le hsh, Nat.mul_comm, Nat.mul_comm sh]

/-- A test of the search that wraps nothing around tests the sizes. -/
theorem scaleFits_iff {t : ℕ} (hw : sw * (t + 1) < 2 ^ 32) (hh : sw * (t + 1) ≤ s.width → sh * (t + 1) < 2 ^ 32) :
    s.scaleFits sw sh t = true ↔ sw * (t + 1) ≤ s.width ∧ sh * (t + 1) ≤ s.height := by
  rw [scaleFits, decide_eq_true_iff, Nat.mod_eq_of_lt hw]
  constructor
  · rintro ⟨h1, h2⟩
    rw [Nat.mod_eq_of_lt (hh h1)] at h2
    exact ⟨h1, h2⟩
  · rintro ⟨h1, h2⟩
    rw [Nat.mod_eq_of_lt (hh h1)]
    exact ⟨h1, h2⟩

/-! ### Images that fit -/

/-- No 32-bit value of the scale search, the size, the offset and the rows of the image wraps around. -/
structure NoWrap (s : Screen) (sw sh scale : ℕ) : Prop where
  search : ∀ t, 0 < t → t ≤ scale → sw * (t + 1) < 2 ^ 32 ∧ (sw * (t + 1) ≤ s.width → sh * (t + 1) < 2 ^ 32)
  size : sw * scale < 2 ^ 32 ∧ sh * scale < 2 ^ 32
  offsetX : sw * scale ≤ s.width ∧ s.middleX sw scale < 2 ^ 32
  offsetY : sh * scale ≤ s.height ∧ s.middleY sh scale < 2 ^ 32
  rows : ∀ sy < sh, s.middleY sh scale + sy * scale < 2 ^ 32

/-- An image that is no larger than the screen; and the screen is not so high that the search, the scaled height or the
place of the last row needs more than 32 bits. -/
structure Fits (s : Screen) (sw sh : ℕ) : Prop where
  width : sw ≤ s.width
  height : sh ≤ s.height
  search : sw * (s.largestScale sw sh + 1) ≤ s.width → sh * (s.largestScale sw sh + 1) < 2 ^ 32
  sizeY : sh * s.largestScale sw sh < 2 ^ 32
  rows : s.middleY sh (s.largestScale sw sh) + (sh - 1) * s.largestScale sw sh < 2 ^ 32

/-- A geometry: the pitch has 32 bits and room for the width, the height has 64 bits. -/
structure Geometry (s : Screen) : Prop where
  pitch : s.pitch < 2 ^ 32
  line : 4 * s.width ≤ s.pitch
  height : s.height < 2 ^ 64

theorem Fits.scale_pos (h : s.Fits sw sh) (hsw : 0 < sw) (hsh : 0 < sh) : 0 < s.largestScale sw sh := by
  have hone : 1 ≤ s.largestScale sw sh := (le_largestScale_iff hsw hsh).mpr (by
    rw [Nat.mul_one, Nat.mul_one]
    exact ⟨h.width, h.height⟩)
  exact hone

theorem Fits.noWrap (h : s.Fits sw sh) (hg : s.Geometry) (hsw : 0 < sw) (hsh : 0 < sh) :
    s.NoWrap sw sh (s.largestScale sw sh) := by
  have hsearch := h.search
  have hsizeY := h.sizeY
  have hrows := h.rows
  have hpos := h.scale_pos hsw hsh
  obtain ⟨hfitX, hfitY⟩ := (le_largestScale_iff (s := s) hsw hsh).mp le_rfl
  generalize s.largestScale sw sh = m at hsearch hsizeY hrows hpos hfitX hfitY ⊢
  have hwidth : s.width < 2 ^ 30 := by
    have hline := hg.line
    have hpitch := hg.pitch
    omega
  have hlast : ∀ sy < sh, sy * m ≤ (sh - 1) * m := fun sy hsy => Nat.mul_le_mul_right m (by omega)
  have hhigh := hlast 0 hsh
  refine ⟨fun t ht htm => ⟨?_, fun hfit => ?_⟩, ⟨by omega, hsizeY⟩, ⟨hfitX, ?_⟩, ⟨hfitY, by omega⟩,
    fun sy hsy => ?_⟩
  · -- one scale more adds no more than the width again
    have hmono : sw * (t + 1) ≤ sw * m + sw := by
      rw [← Nat.mul_succ]
      exact Nat.mul_le_mul_left sw (by omega)
    have hsw' := h.width
    omega
  · by_cases htm' : t = m
    · rw [htm'] at hfit ⊢
      exact hsearch hfit
    · have hmono : sh * (t + 1) ≤ sh * m := Nat.mul_le_mul_left sh (by omega)
      omega
  · rw [middleX]
    omega
  · have := hlast sy hsy
    omega

/-- The search finds the largest scale. -/
theorem Fits.scaleOf_eq (h : s.Fits sw sh) (hg : s.Geometry) (hsw : 0 < sw) (hsh : 0 < sh) :
    s.scaleOf sw sh = some (s.largestScale sw sh) := by
  have hno := h.noWrap hg hsw hsh
  have hpos := h.scale_pos hsw hsh
  have htest : ∀ t, 0 < t → t ≤ s.largestScale sw sh →
      (s.scaleFits sw sh t = true ↔ t + 1 ≤ s.largestScale sw sh) := by
    intro t ht htm
    obtain ⟨hw, hh⟩ := hno.search t ht htm
    rw [scaleFits_iff hw hh, le_largestScale_iff hsw hsh]
  have hwidth : s.largestScale sw sh ≤ s.width :=
    Nat.le_trans (Nat.min_le_left _ _) (Nat.div_le_self _ _)
  refine scaleSearch_eq hpos (by omega) (fun t ht htm => (htest t ht (by omega)).mpr htm) ?_
  rw [Bool.eq_false_iff]
  intro hfits
  exact absurd ((htest _ hpos le_rfl).mp hfits) (by omega)

theorem NoWrap.placed (h : s.NoWrap sw sh scale) (hg : s.Geometry) (hscale : 0 < scale) :
    s.Placed sw sh scale := by
  have hline := hg.line
  have hpitch := hg.pitch
  refine ⟨hscale, ?_, by omega, hg.height, h.offsetX.1, h.offsetY.1, h.size.2, h.offsetY.2, h.rows⟩
  rw [Screen.stride]
  omega

/-- **An image that fits** is written, scaled by the largest factor, in the middle of the screen, and nothing else. -/
theorem Fits.present (h : s.Fits sw sh) (hg : s.Geometry) (hmapped : s.mapped = true) (hsw : 0 < sw) (hsh : 0 < sh)
    (src : ℕ → UInt32) :
    ∃ s', fbPresentXrgb s (some src) sw sh = some s' ∧ Wrote s s' (s.InImage sw sh (s.largestScale sw sh))
      (s.target src sw sh (s.largestScale sw sh)) := by
  have hplaced := (h.noWrap hg hsw hsh).placed hg (h.scale_pos hsw hsh)
  refine ⟨_, ?_, wrote_present hplaced src⟩
  rw [fbPresentXrgb]
  simp only [h.scaleOf_eq hg hsw hsh]
  exact if_neg (by simp [hmapped]; omega)

end Screen

open Screen

/-- **The centred upscale.**  An image no larger than a screen of fewer than 2 ^ 31 lines is scaled by the largest
factor that fits.  The word at each place of the scaled image, which lies in the middle of the screen, is the one of its
nearest pixel, and every other word of the framebuffer is unchanged. -/
theorem fbPresentXrgb_image (s : Screen) (src : ℕ → UInt32) (sw sh : ℕ) (hmapped : s.mapped = true)
    (hpitch : s.pitch < 2 ^ 32) (hline : 4 * s.width ≤ s.pitch) (hheight : s.height < 2 ^ 31) (hsw : 1 ≤ sw)
    (hw : sw ≤ s.width) (hsh : 1 ≤ sh) (hh : sh ≤ s.height) :
    ∃ scale s', IsGreatest {t | 1 ≤ t ∧ sw * t ≤ s.width ∧ sh * t ≤ s.height} scale ∧
      s.scaleOf sw sh = some scale ∧ fbPresentXrgb s (some src) sw sh = some s' ∧
      (∀ x < sw * scale, ∀ y < sh * scale,
        s'.pixels (((s.height - sh * scale) / 2 + y) * (s.pitch / 4) + ((s.width - sw * scale) / 2 + x)) =
          src (y / scale * sw + x / scale)) ∧
      ∀ i, (∀ x < sw * scale, ∀ y < sh * scale,
          i ≠ ((s.height - sh * scale) / 2 + y) * (s.pitch / 4) + ((s.width - sw * scale) / 2 + x)) →
        s'.pixels i = s.pixels i := by
  have hg : s.Geometry := ⟨hpitch, hline, by omega⟩
  obtain ⟨hfitX, hfitY⟩ := (le_largestScale_iff (s := s) hsw hsh).mp le_rfl
  have hfits : s.Fits sw sh := by
    refine ⟨hw, hh, fun _ => ?_, by omega, ?_⟩
    · rw [Nat.mul_succ]
      omega
    · have hlast : (sh - 1) * s.largestScale sw sh ≤ sh * s.largestScale sw sh :=
        Nat.mul_le_mul_right _ (Nat.sub_le sh 1)
      rw [middleY]
      omega
  have hpos := hfits.scale_pos hsw hsh
  obtain ⟨s', hrun, hwrote⟩ := hfits.present hg hmapped hsw hsh src
  have hright := ((hfits.noWrap hg hsw hsh).placed hg hpos).right
  refine ⟨s.largestScale sw sh, s', ⟨⟨hpos, hfitX, hfitY⟩, fun t ht => ?_⟩, hfits.scaleOf_eq hg hsw hsh, hrun,
    fun x hx y hy => ?_, fun i hi => hwrote.outside i ?_⟩
  · exact (le_largestScale_iff hsw hsh).mpr ht.2
  · have hstride : s.middleX sw (s.largestScale sw sh) + x < s.stride := by
      rw [Screen.stride]
      omega
    exact (hwrote.inside _ ⟨x, hx, y, hy, rfl⟩).trans (target_at hstride)
  · rintro ⟨x, hx, y, hy, rfl⟩
    exact hi x hx y hy rfl

/-- A screen of two lines of three pixels, with a fourth word behind each. -/
def smallScreen : Screen := ⟨true, 3, 2, 16, fun _ => 7, []⟩

/-- One pixel fills two columns of the small screen. -/
theorem fbPresentXrgb_image_smallScreen :
    ∃ s', fbPresentXrgb smallScreen (some fun _ => 9) 1 1 = some s' ∧ s'.pixels 5 = 9 ∧ s'.pixels 6 = 7 := by
  obtain ⟨scale, s', -, hscale, hrun, himage, hrest⟩ := fbPresentXrgb_image smallScreen (fun _ => 9) 1 1
    rfl (by decide) (by decide) (by decide) (by decide) (by decide) (by decide) (by decide)
  obtain rfl : scale = 2 := (Option.some.inj hscale).symm
  exact ⟨s', hrun, himage 1 (by decide) 1 (by decide), hrest 6 (by decide)⟩

/-- A blit stays on the screen: no 32-bit value wraps around, and each word that is stored is one of a pixel. -/
def StaysOnScreen (s : Screen) (src : ℕ → UInt32) (sw sh : ℕ) : Prop :=
  ∃ scale s', s.scaleOf sw sh = some scale ∧ fbPresentXrgb { s with written := [] } (some src) sw sh = some s' ∧
    s.NoWrap sw sh scale ∧ ∀ i ∈ s'.written, ∃ y < s.height, ∃ x < s.width, i = y * (s.pitch / 4) + x

theorem Screen.NoWrap.fits {s : Screen} {sw sh scale : ℕ} (h : s.NoWrap sw sh scale) (hsw : 0 < sw) (hsh : 0 < sh)
    (hscale : s.scaleOf sw sh = some scale) : s.Fits sw sh := by
  obtain ⟨hpos, -, hstop⟩ := scaleSearch_some hscale
  obtain ⟨hnextX, hnextY⟩ := h.search scale hpos le_rfl
  -- the scale at which the search has stopped is the largest one
  have hle : scale ≤ s.largestScale sw sh := (le_largestScale_iff hsw hsh).mpr ⟨h.offsetX.1, h.offsetY.1⟩
  have hge : ¬scale + 1 ≤ s.largestScale sw sh := by
    rw [le_largestScale_iff hsw hsh, ← scaleFits_iff hnextX hnextY, hstop]
    exact Bool.false_ne_true
  obtain rfl : s.largestScale sw sh = scale := by omega
  exact ⟨Nat.le_trans (Nat.le_mul_of_pos_right sw hpos) h.offsetX.1,
    Nat.le_trans (Nat.le_mul_of_pos_right sh hpos) h.offsetY.1, hnextY, h.size.2, h.rows (sh - 1) (by omega)⟩

/-- **When a blit stays on the screen**: exactly when the image is no larger than it, and the screen is not so high that
the height and the rows of the scaled image need more than 32 bits. -/
theorem staysOnScreen_iff (s : Screen) (src : ℕ → UInt32) (sw sh : ℕ) (hmapped : s.mapped = true)
    (hpitch : s.pitch < 2 ^ 32) (hline : 4 * s.width ≤ s.pitch) (hheight : s.height < 2 ^ 64) (hsw : 1 ≤ sw)
    (hsh : 1 ≤ sh) : StaysOnScreen s src sw sh ↔ s.Fits sw sh := by
  constructor
  · rintro ⟨scale, -, hscale, -, hno, -⟩
    exact hno.fits hsw hsh hscale
  · intro hfits
    have hg : s.Geometry := ⟨hpitch, hline, hheight⟩
    have hno := hfits.noWrap hg hsw hsh
    have hplaced := hno.placed hg (hfits.scale_pos hsw hsh)
    -- the record of stores starts empty
    set s₀ : Screen := { s with written := [] } with hs₀
    have hfits₀ : s₀.Fits sw sh := ⟨hfits.width, hfits.height, hfits.search, hfits.sizeY, hfits.rows⟩
    obtain ⟨s', hrun, hwrote⟩ := hfits₀.present ⟨hpitch, hline, hheight⟩ hmapped hsw hsh src
    refine ⟨_, s', hfits.scaleOf_eq hg hsw hsh, hrun, hno, fun i hi => ?_⟩
    rcases hwrote.written i hi with ⟨x, hx, y, hy, rfl⟩ | hnone
    · have hright : s.middleX sw (s.largestScale sw sh) + x < s.width := by
        have := hplaced.right
        change x < sw * s.largestScale sw sh at hx
        omega
      have hbottom : s.middleY sh (s.largestScale sw sh) + y < s.height := by
        have := hplaced.bottom
        change y < sh * s.largestScale sw sh at hy
        omega
      exact ⟨_, hbottom, _, hright, rfl⟩
    · cases hnone

/-- One pixel stays on the small screen. -/
theorem staysOnScreen_iff_smallScreen : StaysOnScreen smallScreen (fun _ => 9) 1 1 :=
  (staysOnScreen_iff smallScreen (fun _ => 9) 1 1 rfl (by decide) (by decide) (by decide) (by decide)
    (by decide)).mpr ⟨by decide, by decide, by decide, by decide, by decide⟩

/-- A line of four pixels is stored far behind the small screen, which is three pixels wide. -/
theorem not_staysOnScreen_wide :
    (fbPresentXrgb smallScreen (some fun _ => 9) 4 1).map Screen.written =
        some [4294967298, 4294967297, 4294967296, 4294967295] ∧
      ¬StaysOnScreen smallScreen (fun _ => 9) 4 1 := by
  refine ⟨by decide, ?_⟩
  rintro ⟨scale, -, hscale, -, hno, -⟩
  have hwide := (hno.fits (by decide) (by decide) hscale).width
  exact absurd hwide (by decide)

end LizardOs.Dev
