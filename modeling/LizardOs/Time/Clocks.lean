import LizardOs.Time.Calendar

/-!
# The clocks

`ktime.c` and `ktime.h`: every tick adds its nanoseconds to a monotonic and a wall clock, which keep seconds and
nanoseconds apart.  Whatever the ticks are, no nanosecond is lost (`clocks_accumulate`).
-/

namespace LizardOs.Time

def NSEC_PER_SEC : ℤ := 1000000000
def USEC_PER_SEC : ℤ := 1000000
def MSEC_PER_SEC : ℤ := 1000
def NSEC_PER_MSEC : ℤ := 1000000
def NSEC_PER_USEC : ℤ := 1000

/-! ### Seconds and nanoseconds -/

/-- `timespec_normalize`. -/
def timespecNormalize (ts : TimeSpec) : TimeSpec :=
  let ts : TimeSpec :=
    if NSEC_PER_SEC ≤ ts.nsec ∨ ts.nsec ≤ -NSEC_PER_SEC then
      ⟨i64 (ts.sec + ts.nsec.tdiv NSEC_PER_SEC), ts.nsec.tmod NSEC_PER_SEC⟩
    else ts
  if ts.nsec < 0 then ⟨i64 (ts.sec - 1), ts.nsec + NSEC_PER_SEC⟩ else ts

/-- `timespec_to_ns`. -/
def timespecToNs (ts : TimeSpec) : ℤ := i64 (i64 (ts.sec * NSEC_PER_SEC) + ts.nsec)

/-- `timespec_to_us`. -/
def timespecToUs (ts : TimeSpec) : ℤ := i64 (i64 (ts.sec * USEC_PER_SEC) + ts.nsec.tdiv NSEC_PER_USEC)

/-- `timespec_to_ms`. -/
def timespecToMs (ts : TimeSpec) : ℤ := i64 (i64 (ts.sec * MSEC_PER_SEC) + ts.nsec.tdiv NSEC_PER_MSEC)

/-- What a tick does to a clock. -/
def advance (ts : TimeSpec) (delta_ns : UInt64) : TimeSpec :=
  timespecNormalize ⟨ts.sec, i64 (ts.nsec + delta_ns.toNat)⟩

/-! ### The clocks of the kernel -/

/-- The clocks, and what they said at boot. -/
structure Clocks where
  wall_clock : TimeSpec
  mono_clock : TimeSpec
  boot_wall : TimeSpec
  boot_mono : TimeSpec

/-- `time_init`, for the time the clock chip gives. -/
def bootClocks (wall : TimeSpec) : Clocks := ⟨wall, ⟨0, 0⟩, wall, ⟨0, 0⟩⟩

/-- `time_tick_ns`. -/
def timeTickNs (c : Clocks) (delta_ns : UInt64) : Clocks :=
  { c with mono_clock := advance c.mono_clock delta_ns, wall_clock := advance c.wall_clock delta_ns }

/-- `timespec_uptime`. -/
def timespecUptime (c : Clocks) : TimeSpec :=
  timespecNormalize ⟨i64 (c.mono_clock.sec - c.boot_mono.sec), i64 (c.mono_clock.nsec - c.boot_mono.nsec)⟩

/-- `time_uptime_ns`. -/
def timeUptimeNs (c : Clocks) : ℤ := timespecToNs (timespecUptime c)

/-- `time_uptime_us`. -/
def timeUptimeUs (c : Clocks) : ℤ := timespecToUs (timespecUptime c)

/-- `time_uptime_ms`. -/
def timeUptimeMs (c : Clocks) : ℤ := timespecToMs (timespecUptime c)

/-- The clocks after some ticks. -/
def ticked (c : Clocks) (ds : List UInt64) : Clocks := ds.foldl timeTickNs c

/-! ### One clock -/

namespace TimeSpec

/-- `timespec_is_normalized`. -/
def Normalized (ts : TimeSpec) : Prop := 0 ≤ ts.nsec ∧ ts.nsec < NSEC_PER_SEC

/-- The nanoseconds it stands for. -/
def ns (ts : TimeSpec) : ℤ := ts.sec * NSEC_PER_SEC + ts.nsec

end TimeSpec

/-- Seconds that an `i64` holds. -/
def SecondsFit (ns : ℤ) : Prop := -2 ^ 63 ≤ ns / NSEC_PER_SEC ∧ ns / NSEC_PER_SEC < 2 ^ 63

/-- All nanoseconds of some ticks. -/
def total (ds : List UInt64) : ℕ := (ds.map UInt64.toNat).sum

variable {ts : TimeSpec}

theorem i64_of_range {z : ℤ} (hlow : -2 ^ 63 ≤ z) (hhigh : z < 2 ^ 63) : i64 z = z :=
  Int.bmod_eq_of_le_mul_two (by omega) (by omega)

/-- A clock that is normalised shows the quotient and the remainder. -/
theorem TimeSpec.Normalized.parts (h : ts.Normalized) :
    ts.ns / NSEC_PER_SEC = ts.sec ∧ ts.ns % NSEC_PER_SEC = ts.nsec := by
  obtain ⟨hlow, hhigh⟩ := h
  rw [TimeSpec.ns, NSEC_PER_SEC] at *
  omega

/-- Nothing is to be done for nanoseconds in range. -/
theorem timespecNormalize_of_normalized (h : ts.Normalized) : timespecNormalize ts = ts := by
  obtain ⟨hlow, hhigh⟩ := h
  have hin : ¬(NSEC_PER_SEC ≤ ts.nsec ∨ ts.nsec ≤ -NSEC_PER_SEC) := by
    rw [NSEC_PER_SEC] at *
    omega
  rw [timespecNormalize, if_neg hin]
  exact if_neg (Int.not_lt.mpr hlow)

/-- `timespec_normalize` carries nanoseconds that are not negative. -/
theorem timespecNormalize_of_nonneg (hnsec : 0 ≤ ts.nsec) (hlow : -2 ^ 63 ≤ ts.sec)
    (hhigh : ts.sec + ts.nsec / NSEC_PER_SEC < 2 ^ 63) :
    timespecNormalize ts = ⟨ts.sec + ts.nsec / NSEC_PER_SEC, ts.nsec % NSEC_PER_SEC⟩ := by
  have hpos : 0 ≤ ts.nsec % NSEC_PER_SEC ∧ 0 ≤ ts.nsec / NSEC_PER_SEC := by
    rw [NSEC_PER_SEC]
    omega
  by_cases hlarge : NSEC_PER_SEC ≤ ts.nsec
  · have hcarry : NSEC_PER_SEC ≤ ts.nsec ∨ ts.nsec ≤ -NSEC_PER_SEC := .inl hlarge
    simp only [timespecNormalize, if_pos hcarry, Int.tdiv_eq_ediv_of_nonneg hnsec, Int.tmod_eq_emod_of_nonneg hnsec]
    rw [i64_of_range (by omega) hhigh]
    exact if_neg (Int.not_lt.mpr hpos.1)
  · have hin : ts.Normalized := ⟨hnsec, Int.not_le.mp hlarge⟩
    rw [timespecNormalize_of_normalized hin, Int.ediv_eq_zero_of_lt hnsec hin.2, Int.emod_eq_of_lt hnsec hin.2,
      Int.add_zero]

/-- **A tick** keeps a clock normalised and adds its nanoseconds. -/
theorem advance_spec (h : ts.Normalized) {d : UInt64} (hd : d.toNat < 2 ^ 62) (hfit : SecondsFit ts.ns)
    (hfit' : SecondsFit (ts.ns + d.toNat)) : (advance ts d).Normalized ∧ (advance ts d).ns = ts.ns + d.toNat := by
  obtain ⟨hsec, -⟩ := h.parts
  obtain ⟨hlow, hhigh⟩ := h
  have hin : i64 (ts.nsec + d.toNat) = ts.nsec + d.toNat := by
    rw [NSEC_PER_SEC] at hhigh
    exact i64_of_range (by omega) (by omega)
  have hcarry : ts.sec + (ts.nsec + d.toNat) / NSEC_PER_SEC = (ts.ns + d.toNat) / NSEC_PER_SEC := by
    rw [TimeSpec.ns, NSEC_PER_SEC]
    omega
  have hlow' := hfit.1
  rw [hsec] at hlow'
  have hadvance : advance ts d =
      ⟨ts.sec + (ts.nsec + d.toNat) / NSEC_PER_SEC, (ts.nsec + d.toNat) % NSEC_PER_SEC⟩ := by
    rw [advance, hin]
    exact timespecNormalize_of_nonneg (show 0 ≤ ts.nsec + d.toNat by omega) hlow' (by rw [hcarry]; exact hfit'.2)
  rw [hadvance]
  simp only [TimeSpec.Normalized, TimeSpec.ns, NSEC_PER_SEC]
  omega

theorem SecondsFit.between {m n k : ℤ} (hm : SecondsFit m) (hk : SecondsFit k) (hmn : m ≤ n) (hnk : n ≤ k) :
    SecondsFit n := by
  rw [SecondsFit, NSEC_PER_SEC] at *
  omega

/-- **A run of ticks** keeps a clock normalised and adds all their nanoseconds. -/
theorem foldl_advance (ds : List UInt64) (h : ts.Normalized) (hds : ∀ d ∈ ds, d.toNat < 2 ^ 62)
    (hfit : SecondsFit ts.ns) (hfit' : SecondsFit (ts.ns + total ds)) :
    (ds.foldl advance ts).Normalized ∧ (ds.foldl advance ts).ns = ts.ns + total ds := by
  induction ds generalizing ts with
  | nil => exact ⟨h, (Int.add_zero _).symm⟩
  | cons d ds ih =>
    have htotal : total (d :: ds) = d.toNat + total ds := by
      rw [total, List.map_cons, List.sum_cons]
      rfl
    rw [htotal, Nat.cast_add, ← Int.add_assoc] at hfit' ⊢
    have hnext : SecondsFit (ts.ns + d.toNat) := hfit.between hfit' (by omega) (by omega)
    obtain ⟨hnorm, hns⟩ := advance_spec h (hds d List.mem_cons_self) hfit hnext
    rw [← hns] at hfit' hnext ⊢
    exact ih hnorm (fun x hx => hds x (List.mem_cons_of_mem d hx)) hnext hfit'

/-! ### Units -/

/-- An exact conversion: `per` units make a second, and a unit is `unit` nanoseconds. -/
theorem units_of_normalized (h : ts.Normalized) {per unit : ℤ} (hunit : 0 < unit) (hper : per * unit = NSEC_PER_SEC)
    (hpos : 0 ≤ ts.ns) (hfit : ts.ns / unit < 2 ^ 63) :
    i64 (i64 (ts.sec * per) + ts.nsec.tdiv unit) = ts.ns / unit := by
  obtain ⟨hsec, -⟩ := h.parts
  have hsplit : ts.ns / unit = ts.sec * per + ts.nsec / unit := by
    have hns : ts.ns = ts.nsec + ts.sec * per * unit := by
      rw [TimeSpec.ns, ← hper, Int.mul_assoc, Int.add_comm]
    rw [hns, Int.add_mul_ediv_right _ _ (Int.ne_of_gt hunit), Int.add_comm]
  have hsecpos : 0 ≤ ts.sec := by
    rw [← hsec]
    exact Int.ediv_nonneg hpos (by decide)
  have hperpos : 0 ≤ per := by
    by_contra hneg
    have hprod := Int.mul_neg_of_neg_of_pos (Int.not_le.mp hneg) hunit
    rw [hper] at hprod
    exact absurd hprod (by decide)
  have hfirst : 0 ≤ ts.sec * per := Int.mul_nonneg hsecpos hperpos
  have hrest : 0 ≤ ts.nsec / unit := Int.ediv_nonneg h.1 (Int.le_of_lt hunit)
  rw [hsplit] at hfit ⊢
  have hwhole : i64 (ts.sec * per) = ts.sec * per := i64_of_range (by omega) (by omega)
  rw [Int.tdiv_eq_ediv_of_nonneg h.1, hwhole, i64_of_range (by omega) hfit]

/-! ### All clocks -/

theorem ticked_eq (c : Clocks) (ds : List UInt64) :
    ticked c ds =
      { c with mono_clock := ds.foldl advance c.mono_clock, wall_clock := ds.foldl advance c.wall_clock } := by
  induction ds generalizing c with
  | nil => rfl
  | cons d ds ih => exact ih (timeTickNs c d)

/-- What is known of the clocks after some ticks. -/
structure Accumulated (boot : TimeSpec) (ds : List UInt64) (c : Clocks) : Prop where
  mono : c.mono_clock.Normalized
  wall : c.wall_clock.Normalized
  wall_ns : c.wall_clock.ns = boot.ns + total ds
  uptime_ns : (total ds : ℤ) < 2 ^ 63 → timeUptimeNs c = total ds
  uptime_us : (total ds : ℤ) / 1000 < 2 ^ 63 → timeUptimeUs c = total ds / 1000
  uptime_ms : (total ds : ℤ) / 1000000 < 2 ^ 63 → timeUptimeMs c = total ds / 1000000
  constant : c.wall_clock.ns - (timespecUptime c).ns = boot.ns

/-- The clocks after ticks from boot. -/
theorem accumulated_ticked {wall : TimeSpec} (hwall : wall.Normalized) (hboot : SecondsFit wall.ns) {ds : List UInt64}
    (hds : ∀ d ∈ ds, d.toNat < 2 ^ 62) (hfit : SecondsFit (total ds)) (hfit' : SecondsFit (wall.ns + total ds)) :
    Accumulated wall ds (ticked (bootClocks wall) ds) := by
  have hzero : (⟨0, 0⟩ : TimeSpec).Normalized := ⟨le_rfl, by decide⟩
  have hzerons : (⟨0, 0⟩ : TimeSpec).ns = 0 := rfl
  have hstart : SecondsFit (⟨0, 0⟩ : TimeSpec).ns := ⟨by decide, by decide⟩
  obtain ⟨hmono, hmonons⟩ := foldl_advance ds hzero hds hstart (by rw [hzerons, Int.zero_add]; exact hfit)
  obtain ⟨hwallnorm, hwallns⟩ := foldl_advance ds hwall hds hboot hfit'
  rw [hzerons, Int.zero_add] at hmonons
  have hm : (ticked (bootClocks wall) ds).mono_clock = ds.foldl advance ⟨0, 0⟩ := by
    rw [ticked_eq]
    rfl
  have hw : (ticked (bootClocks wall) ds).wall_clock = ds.foldl advance wall := by
    rw [ticked_eq]
    rfl
  -- the monotonic clock was zero at boot, so the uptime is what it shows
  have huptime : timespecUptime (ticked (bootClocks wall) ds) = ds.foldl advance ⟨0, 0⟩ := by
    obtain ⟨hsec, -⟩ := hmono.parts
    rw [hmonons] at hsec
    rw [SecondsFit, hsec] at hfit
    have hlt := hmono.2
    rw [NSEC_PER_SEC] at hlt
    have hnorm := timespecNormalize_of_normalized hmono
    have hbefore : (ticked (bootClocks wall) ds).boot_mono = ⟨0, 0⟩ := by
      rw [ticked_eq]
      rfl
    rw [timespecUptime, hm, hbefore]
    generalize ds.foldl advance ⟨0, 0⟩ = mono at hmono hfit hlt hnorm
    rw [Int.sub_zero, Int.sub_zero, i64_of_range hfit.1 hfit.2, i64_of_range (by have := hmono.1; omega) (by omega)]
    exact hnorm
  have hpos : 0 ≤ (ds.foldl advance ⟨0, 0⟩).ns := by
    rw [hmonons]
    exact Int.natCast_nonneg _
  refine ⟨hm ▸ hmono, hw ▸ hwallnorm, hw ▸ hwallns, fun hlt => ?_, fun hlt => ?_, fun hlt => ?_, ?_⟩
  · have hexact := units_of_normalized hmono Int.one_pos (Int.mul_one NSEC_PER_SEC) hpos (by
      rw [hmonons, Int.ediv_one]
      exact hlt)
    rw [Int.tdiv_one, Int.ediv_one, hmonons] at hexact
    rw [timeUptimeNs, huptime]
    exact hexact
  · rw [← hmonons] at hlt ⊢
    rw [timeUptimeUs, huptime]
    exact units_of_normalized hmono (by decide) (by decide) hpos hlt
  · rw [← hmonons] at hlt ⊢
    rw [timeUptimeMs, huptime]
    exact units_of_normalized hmono (by decide) (by decide) hpos hlt
  · rw [huptime, hw, hwallns, hmonons, Int.add_sub_cancel]

theorem total_take_le (ds : List UInt64) (n : ℕ) : total (ds.take n) ≤ total ds := by
  have hsplit : total ds = total (ds.take n) + total (ds.drop n) := by
    rw [total, total, total, ← List.sum_append, ← List.map_append, List.take_append_drop]
  omega

/-- **The clocks.**  After each of a run of ticks the clocks are normalised, the uptime in nanoseconds, microseconds and
milliseconds is the sum of the ticks so far in that unit, where it fits in an `i64`, and the wall clock shows the time
of the boot plus that sum; so the uptime grows, and the wall clock less the uptime stays what it is. -/
theorem clocks_accumulate {wall : TimeSpec} (hwall : wall.Normalized) (hboot : SecondsFit wall.ns) {ds : List UInt64}
    (hds : ∀ d ∈ ds, d.toNat < 2 ^ 62) (hfit : SecondsFit (total ds)) (hfit' : SecondsFit (wall.ns + total ds)) :
    (∀ n, Accumulated wall (ds.take n) (ticked (bootClocks wall) (ds.take n))) ∧
      ∀ m n, m ≤ n → (total (ds.take n) : ℤ) < 2 ^ 63 →
        timeUptimeNs (ticked (bootClocks wall) (ds.take m)) ≤ timeUptimeNs (ticked (bootClocks wall) (ds.take n)) := by
  have heach : ∀ n, Accumulated wall (ds.take n) (ticked (bootClocks wall) (ds.take n)) := by
    intro n
    have hle := total_take_le ds n
    have hzero : SecondsFit 0 := ⟨by decide, by decide⟩
    exact accumulated_ticked hwall hboot (fun d hd => hds d (List.mem_of_mem_take hd))
      (hzero.between hfit (Int.natCast_nonneg _) (by omega)) (hboot.between hfit' (by omega) (by omega))
  refine ⟨heach, fun m n hmn hlt => ?_⟩
  have hle : total (ds.take m) ≤ total (ds.take n) := by
    have h := total_take_le (ds.take n) m
    rwa [List.take_take, Nat.min_eq_left hmn] at h
  rw [(heach n).uptime_ns hlt, (heach m).uptime_ns (by omega)]
  omega

theorem clocks_accumulate_carry :
    (∀ n, Accumulated ⟨1709251199, 0⟩ ([999999999, 1, 4000000000].take n)
        (ticked (bootClocks ⟨1709251199, 0⟩) ([999999999, 1, 4000000000].take n))) ∧
      ∀ m n, m ≤ n → (total ([999999999, 1, 4000000000].take n) : ℤ) < 2 ^ 63 →
        timeUptimeNs (ticked (bootClocks ⟨1709251199, 0⟩) ([999999999, 1, 4000000000].take m)) ≤
          timeUptimeNs (ticked (bootClocks ⟨1709251199, 0⟩) ([999999999, 1, 4000000000].take n)) :=
  clocks_accumulate ⟨by decide, by decide⟩ ⟨by decide, by decide⟩
    (List.forall_mem_cons.mpr ⟨by decide, List.forall_mem_cons.mpr ⟨by decide,
      List.forall_mem_singleton.mpr (by decide)⟩⟩)
    ⟨by decide, by decide⟩ ⟨by decide, by decide⟩

end LizardOs.Time
