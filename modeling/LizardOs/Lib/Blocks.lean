import Mathlib.Data.List.Basic
import Mathlib.Data.List.Perm.Basic
import Mathlib.Tactic.Ring

/-!
# Tilings by blocks of power-of-two size

A block of order `k` covers `2 ^ k` consecutive cells.  `Tiles blocks n F` says that the blocks are pairwise
apart, aligned to their size, inside `[0, n)`, and together cover exactly the cells of `F`.  It depends on the
blocks up to their order in the list, and survives cutting a block in halves.
-/

namespace LizardOs.Lib

/-- A block: its first cell and the logarithm of its size. -/
structure Block where
  start : ℕ
  order : ℕ
deriving DecidableEq

namespace Block

/-- One past the last cell. -/
def stop (b : Block) : ℕ := b.start + 2 ^ b.order

/-- The cell lies in the block. -/
def Has (b : Block) (p : ℕ) : Prop := b.start ≤ p ∧ p < b.stop

/-- The blocks share no cell. -/
def Apart (b c : Block) : Prop := b.stop ≤ c.start ∨ c.stop ≤ b.start

instance (b : Block) (p : ℕ) : Decidable (b.Has p) := inferInstanceAs (Decidable (_ ∧ _))
instance (b c : Block) : Decidable (b.Apart c) := inferInstanceAs (Decidable (_ ∨ _))

theorem start_lt_stop (b : Block) : b.start < b.stop := by
  have := Nat.two_pow_pos b.order
  simp only [stop]
  omega

theorem Apart.symm {b c : Block} (h : b.Apart c) : c.Apart b := Or.symm h

theorem Apart.not_has {b c : Block} (h : b.Apart c) {p : ℕ} (hb : b.Has p) : ¬c.Has p := by
  intro hc
  rcases h with h | h
  · exact absurd hb.2 (by have := hc.1; omega)
  · exact absurd hc.2 (by have := hb.1; omega)

/-- The halves of a block of order `k + 1`. -/
theorem stop_succ (s k : ℕ) : (⟨s, k + 1⟩ : Block).stop = s + 2 ^ k + 2 ^ k := by
  simp only [stop, pow_succ]
  omega

end Block

/-- The blocks tile the cells of `F` below `n`. -/
structure Tiles (blocks : List Block) (n : ℕ) (F : ℕ → Prop) : Prop where
  apart : blocks.Pairwise Block.Apart
  aligned : ∀ b ∈ blocks, 2 ^ b.order ∣ b.start
  inside : ∀ b ∈ blocks, b.stop ≤ n
  cover : ∀ p, F p ↔ ∃ b ∈ blocks, b.Has p

namespace Tiles

variable {bs cs : List Block} {n : ℕ} {F : ℕ → Prop}

theorem perm (h : Tiles bs n F) (hp : bs.Perm cs) : Tiles cs n F where
  apart := (hp.pairwise_iff fun hab => hab.symm).mp h.apart
  aligned := fun b hb => h.aligned b (hp.mem_iff.mpr hb)
  inside := fun b hb => h.inside b (hp.mem_iff.mpr hb)
  cover := by
    intro p
    rw [h.cover p]
    constructor
    · intro ⟨b, hb, hbp⟩
      exact ⟨b, hp.mem_iff.mp hb, hbp⟩
    · intro ⟨b, hb, hbp⟩
      exact ⟨b, hp.mem_iff.mpr hb, hbp⟩

/-- Nothing tiles no cells. -/
theorem nil (hF : ∀ p, ¬F p) : Tiles [] n F where
  apart := List.Pairwise.nil
  aligned := by simp
  inside := by simp
  cover := by
    intro p
    simp [hF p]

/-- The cells of a tiling may be described otherwise. -/
theorem congr {F' : ℕ → Prop} (h : Tiles bs n F) (hF : ∀ p, F' p ↔ F p) : Tiles bs n F' where
  apart := h.apart
  aligned := h.aligned
  inside := h.inside
  cover := fun p => (hF p).trans (h.cover p)

/-- A tiling of cells below `s` grows by a block that starts at `s`. -/
theorem snoc {s k : ℕ} {F' : ℕ → Prop} (h : Tiles bs n F) (hbelow : ∀ p, F p → p < s)
    (hdvd : 2 ^ k ∣ s) (hin : s + 2 ^ k ≤ n)
    (hF : ∀ p, F' p ↔ F p ∨ (⟨s, k⟩ : Block).Has p) : Tiles (⟨s, k⟩ :: bs) n F' := by
  have hstop : ∀ b ∈ bs, b.stop ≤ s := by
    intro b hb
    have hlt := b.start_lt_stop
    have hlast := hbelow (b.stop - 1) ((h.cover _).mpr ⟨b, hb, by constructor <;> omega⟩)
    omega
  constructor
  · rw [List.pairwise_cons]
    exact ⟨fun b hb => .inr (hstop b hb), h.apart⟩
  · intro b hb
    rcases List.mem_cons.mp hb with rfl | hb
    · exact hdvd
    · exact h.aligned b hb
  · intro b hb
    rcases List.mem_cons.mp hb with rfl | hb
    · exact hin
    · exact h.inside b hb
  · intro p
    rw [hF p, h.cover p]
    simp only [List.mem_cons, exists_eq_or_imp]
    exact Or.comm

/-- A block may be cut in halves. -/
theorem halve {s k : ℕ} (h : Tiles (⟨s, k + 1⟩ :: bs) n F) :
    Tiles (⟨s, k⟩ :: ⟨s + 2 ^ k, k⟩ :: bs) n F := by
  obtain ⟨hapart, hbs⟩ := List.pairwise_cons.mp h.apart
  have hpos := Nat.two_pow_pos k
  have hstop := Block.stop_succ s k
  have hleft : (⟨s, k⟩ : Block).stop = s + 2 ^ k := rfl
  have hright : (⟨s + 2 ^ k, k⟩ : Block).stop = s + 2 ^ k + 2 ^ k := rfl
  constructor
  · rw [List.pairwise_cons, List.pairwise_cons]
    refine ⟨?_, ?_, hbs⟩
    · intro b hb
      rcases List.mem_cons.mp hb with rfl | hb
      · exact .inl (by rw [hleft])
      · rcases hapart b hb with hb | hb
        · rw [hstop] at hb
          exact .inl (by rw [hleft]; omega)
        · exact .inr hb
    · intro b hb
      rcases hapart b hb with hb | hb
      · rw [hstop] at hb
        exact .inl (by rw [hright]; omega)
      · have hb' : b.stop ≤ s := hb
        exact .inr (by show b.stop ≤ s + 2 ^ k; omega)
  · intro b hb
    have hdvd : 2 ^ k ∣ s := (pow_dvd_pow 2 (Nat.le_succ k)).trans (h.aligned ⟨s, k + 1⟩ (by simp))
    rcases List.mem_cons.mp hb with rfl | hb
    · exact hdvd
    · rcases List.mem_cons.mp hb with rfl | hb
      · exact (Nat.dvd_add_right hdvd).mpr (dvd_refl _)
      · exact h.aligned b (by simp [hb])
  · intro b hb
    have hin := h.inside ⟨s, k + 1⟩ (by simp)
    rw [hstop] at hin
    rcases List.mem_cons.mp hb with rfl | hb
    · rw [hleft]
      omega
    · rcases List.mem_cons.mp hb with rfl | hb
      · rw [hright]
        omega
      · exact h.inside b (by simp [hb])
  · intro p
    rw [h.cover p]
    simp only [List.mem_cons, exists_eq_or_imp, Block.Has, hstop, hleft, hright]
    constructor
    · rintro (hp | hp)
      · by_cases hmid : p < s + 2 ^ k
        · exact .inl ⟨hp.1, hmid⟩
        · exact .inr (.inl ⟨by omega, hp.2⟩)
      · exact .inr (.inr hp)
    · rintro (hp | hp | hp)
      · exact .inl ⟨hp.1, by omega⟩
      · exact .inl ⟨by omega, hp.2⟩
      · exact .inr hp

/-- Two different places of a tiling share no cell. -/
theorem apart_of_mem {b c : Block} (h : Tiles (b :: bs) n F) (hc : c ∈ bs) : b.Apart c :=
  (List.pairwise_cons.mp h.apart).1 c hc

end Tiles

/-- The blocks split off a block of order `i` that starts at `s` until its order is `k`. -/
def splitOff (s k : ℕ) : ℕ → List Block
  | 0 => []
  | i + 1 => if k < i + 1 then splitOff s k i ++ [⟨s + 2 ^ i, i⟩] else []

/-- A piece lies inside the block it was split off. -/
theorem splitOff_has {s k i p : ℕ} {b : Block} (h : b ∈ splitOff s k i) (hp : b.Has p) :
    (⟨s, i⟩ : Block).Has p := by
  induction i with
  | zero => simp [splitOff] at h
  | succ i ih =>
    have hpos := Nat.two_pow_pos i
    have hstop := Block.stop_succ s i
    unfold splitOff at h
    split at h
    · rcases List.mem_append.mp h with h | h
      · obtain ⟨h1, h2⟩ := ih h
        refine ⟨h1, ?_⟩
        rw [hstop]
        simp only [Block.stop] at h2
        omega
      · rw [List.mem_singleton.mp h] at hp
        obtain ⟨h1, h2⟩ := hp
        have h1' : s + 2 ^ i ≤ p := h1
        have h2' : p < s + 2 ^ i + 2 ^ i := h2
        refine ⟨by show s ≤ p; omega, ?_⟩
        rw [hstop]
        exact h2'
    · cases h

theorem splitOff_self (s k : ℕ) : splitOff s k k = [] := by
  cases k with
  | zero => rfl
  | succ k => simp [splitOff]

/-- **Splitting a block down** to a smaller order keeps the tiling. -/
theorem Tiles.splitOff {bs : List Block} {n s k : ℕ} {F : ℕ → Prop} (i : ℕ) (hk : k ≤ i)
    (h : Tiles (⟨s, i⟩ :: bs) n F) : Tiles (⟨s, k⟩ :: (Lib.splitOff s k i ++ bs)) n F := by
  induction i generalizing bs with
  | zero =>
    obtain rfl : k = 0 := by omega
    exact h
  | succ i ih =>
    by_cases hki : k = i + 1
    · rw [hki, splitOff_self]
      exact h
    · have hrest := ih (by omega) h.halve
      rw [Lib.splitOff, if_pos (by omega), List.append_assoc]
      exact hrest

end LizardOs.Lib
