import Mathlib.Data.List.Basic
import Mathlib.Logic.Function.Basic

/-!
# Linked blocks laid end to end

Blocks with a header of `hdr` cells and a payload, chained by `next` links in the order of their addresses.
`Seg pos link l pos' link'` says that the blocks of `l` fill the cells from `pos` to `pos'` without a gap, where
`link` leads to the first of them and the last one leads on to `link'`.
-/

namespace LizardOs.Lib

variable {hdr : ℕ} {size next size' next' : ℕ → ℕ} {pos link pos' link' : ℕ} {l m : List ℕ} {a b : ℕ}

/-- The blocks of `l` lie end to end, each linked to the following one. -/
def Seg (hdr : ℕ) (size next : ℕ → ℕ) : ℕ → ℕ → List ℕ → ℕ → ℕ → Prop
  | pos, link, [], pos', link' => pos' = pos ∧ link' = link
  | pos, link, b :: l, pos', link' => link = b ∧ pos = b ∧ Seg hdr size next (b + hdr + size b) (next b) l pos' link'

namespace Seg

theorem append_iff : Seg hdr size next pos link (l ++ m) pos' link' ↔
    ∃ p q, Seg hdr size next pos link l p q ∧ Seg hdr size next p q m pos' link' := by
  induction l generalizing pos link with
  | nil =>
    constructor
    · intro h
      exact ⟨pos, link, ⟨rfl, rfl⟩, h⟩
    · intro ⟨p, q, ⟨hp, hq⟩, h⟩
      rw [hp, hq] at h
      exact h
  | cons b l ih =>
    constructor
    · intro ⟨h1, h2, h3⟩
      obtain ⟨p, q, h4, h5⟩ := ih.mp h3
      exact ⟨p, q, ⟨h1, h2, h4⟩, h5⟩
    · intro ⟨p, q, ⟨h1, h2, h4⟩, h5⟩
      exact ⟨h1, h2, ih.mpr ⟨p, q, h4, h5⟩⟩

/-- A segment taken apart at one of its blocks. -/
theorem middle_iff : Seg hdr size next pos link (l ++ b :: m) pos' link' ↔
    Seg hdr size next pos link l b b ∧ Seg hdr size next (b + hdr + size b) (next b) m pos' link' := by
  rw [append_iff]
  constructor
  · intro ⟨p, q, h1, hq, hp, h2⟩
    rw [hp, hq] at h1
    exact ⟨h1, h2⟩
  · intro ⟨h1, h2⟩
    exact ⟨b, b, h1, rfl, rfl, h2⟩

/-- Only the blocks of the segment matter. -/
theorem congr (h : Seg hdr size next pos link l pos' link') (hsize : ∀ b ∈ l, size' b = size b)
    (hnext : ∀ b ∈ l, next' b = next b) : Seg hdr size' next' pos link l pos' link' := by
  induction l generalizing pos link with
  | nil => exact h
  | cons b l ih =>
    obtain ⟨h1, h2, h3⟩ := h
    refine ⟨h1, h2, ?_⟩
    rw [hsize b List.mem_cons_self, hnext b List.mem_cons_self]
    exact ih h3 (fun c hc => hsize c (List.mem_cons_of_mem _ hc)) fun c hc => hnext c (List.mem_cons_of_mem _ hc)

/-- The headers alone need room. -/
theorem length_le (h : Seg hdr size next pos link l pos' link') : pos + l.length * hdr ≤ pos' := by
  induction l generalizing pos link with
  | nil =>
    rw [h.1]
    simp
  | cons b l ih =>
    obtain ⟨h1, h2, h3⟩ := h
    have hle := ih h3
    rw [List.length_cons, Nat.succ_mul]
    omega

/-- Each block lies inside the segment. -/
theorem inside (h : Seg hdr size next pos link l pos' link') (hb : b ∈ l) : pos ≤ b ∧ b + hdr + size b ≤ pos' := by
  induction l generalizing pos link with
  | nil => cases hb
  | cons c l ih =>
    obtain ⟨h1, h2, h3⟩ := h
    rcases List.mem_cons.mp hb with rfl | hb
    · have hle := h3.length_le
      omega
    · have hin := ih h3 hb
      omega

/-- Each block leads to another one, or behind the segment. -/
theorem next_mem (h : Seg hdr size next pos link l pos' link') (hb : b ∈ l) : next b = link' ∨ next b ∈ l := by
  induction l generalizing pos link with
  | nil => cases hb
  | cons c l ih =>
    obtain ⟨-, -, h3⟩ := h
    rcases List.mem_cons.mp hb with rfl | hb
    · cases l with
      | nil => exact .inl h3.2.symm
      | cons d l =>
        right
        rw [show next b = d from h3.1]
        simp
    · exact (ih h3 hb).imp_right (List.mem_cons_of_mem _)

/-- The blocks follow each other. -/
theorem pairwise (h : Seg hdr size next pos link l pos' link') : l.Pairwise fun a b => a + hdr + size a ≤ b := by
  induction l generalizing pos link with
  | nil => exact List.Pairwise.nil
  | cons c l ih =>
    obtain ⟨-, -, h3⟩ := h
    rw [List.pairwise_cons]
    exact ⟨fun b hb => (h3.inside hb).1, ih h3⟩

theorem nodup (hpos : 0 < hdr) (h : Seg hdr size next pos link l pos' link') : l.Nodup := by
  refine h.pairwise.imp fun {a b} hab heq => ?_
  omega

/-- A block taken out of the middle is on neither side of it. -/
theorem not_mem_sides (hpos : 0 < hdr) (h : Seg hdr size next pos link (l ++ b :: m) pos' link') : b ∉ l ∧ b ∉ m := by
  have hnodup := h.nodup hpos
  rw [List.nodup_append, List.nodup_cons] at hnodup
  exact ⟨fun hb => hnodup.2.2 b hb b List.mem_cons_self rfl, hnodup.2.1.1⟩

end Seg

end LizardOs.Lib
