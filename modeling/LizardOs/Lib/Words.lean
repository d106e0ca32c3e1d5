import Mathlib.Algebra.Order.BigOperators.Group.List
import Mathlib.Algebra.Order.Ring.Nat
import Mathlib.Data.List.Basic
import Mathlib.Data.List.TakeWhile

/-!
# The words of a text

The words are the longest pieces without separators: what is left of a split at each separator when the empty pieces
are dropped.
-/

namespace LizardOs.Lib

variable {α : Type*} {P : α → Bool}

/-- The pieces between the separators, without the empty ones. -/
def wordsOf (P : α → Bool) (l : List α) : List (List α) := (l.splitOnP P).filter fun w => !w.isEmpty

theorem wordsOf_separator {x : α} (hx : P x = true) (l : List α) : wordsOf P (x :: l) = wordsOf P l := by
  rw [wordsOf, List.splitOnP_cons_eq_if_modifyHead, if_pos hx]
  rfl

/-- Separators in front make no words. -/
theorem wordsOf_separators {b : List α} (hb : ∀ x ∈ b, P x = true) (l : List α) : wordsOf P (b ++ l) = wordsOf P l := by
  induction b with
  | nil => rfl
  | cons x b ih =>
    rw [List.cons_append, wordsOf_separator (hb x List.mem_cons_self),
      ih fun y hy => hb y (List.mem_cons_of_mem _ hy)]

theorem wordsOf_word {w : List α} (hne : w ≠ []) (hw : ∀ x ∈ w, P x = false) : wordsOf P w = [w] := by
  rw [wordsOf, List.splitOnP_eq_singleton hw]
  simp [hne]

/-- A word ends at a separator. -/
theorem wordsOf_word_append {w : List α} (hne : w ≠ []) (hw : ∀ x ∈ w, P x = false) {x : α} (hx : P x = true)
    (l : List α) : wordsOf P (w ++ x :: l) = w :: wordsOf P l := by
  rw [wordsOf, List.splitOnP_append_cons_of_forall_mem hw x hx, List.filter_cons_of_pos (by simp [hne])]
  rfl

/-- The words with one place behind each take no more room than the text with one place behind it. -/
theorem wordsOf_room (P : α → Bool) (l : List α) : ((wordsOf P l).map fun w => w.length + 1).sum ≤ l.length + 1 := by
  have hpieces : ∀ l : List α, ((l.splitOnP P).map fun w => w.length + 1).sum = l.length + 1 := by
    intro l
    induction l with
    | nil => rfl
    | cons x l ih =>
      rw [List.splitOnP_cons_eq_if_modifyHead]
      split
      · rw [List.map_cons, List.sum_cons, ih, List.length_nil, List.length_cons]
        omega
      · cases hsplit : l.splitOnP P with
        | nil => exact absurd hsplit (List.splitOnP_ne_nil P l)
        | cons w ws =>
          rw [hsplit, List.map_cons, List.sum_cons] at ih
          rw [List.modifyHead_cons, List.map_cons, List.sum_cons, List.length_cons, List.length_cons]
          omega
  rw [← hpieces l]
  exact (List.filter_sublist.map _).sum_le_sum fun _ _ => Nat.zero_le _

/-- The first word of a text that has one: what stands before it, the word, and what is left. -/
theorem exists_word (l : List α) : (∀ x ∈ l, P x = true) ∨ ∃ b w rest, l = b ++ (w ++ rest) ∧ (∀ x ∈ b, P x = true) ∧
    w ≠ [] ∧ (∀ x ∈ w, P x = false) ∧ ∀ x, rest.head? = some x → P x = true := by
  have hb : ∀ x ∈ l.takeWhile P, P x = true := fun x hx => List.mem_takeWhile_imp hx
  cases hrest : l.dropWhile P with
  | nil =>
    left
    have hall : l.takeWhile P = l := by
      have hsplit := List.takeWhile_append_dropWhile (p := P) (l := l)
      rwa [hrest, List.append_nil] at hsplit
    rw [← hall]
    exact hb
  | cons c r =>
    right
    have hc : P c = false := by
      have hhead := List.head?_dropWhile_not (p := P) (l := l)
      rw [hrest] at hhead
      simpa using hhead
    refine ⟨l.takeWhile P, (c :: r).takeWhile fun x => !P x, (c :: r).dropWhile fun x => !P x, ?_, hb, ?_, ?_, ?_⟩
    · rw [List.takeWhile_append_dropWhile, ← hrest, List.takeWhile_append_dropWhile]
    · rw [List.takeWhile_cons_of_pos (by simp [hc])]
      exact List.cons_ne_nil _ _
    · intro x hx
      simpa using List.mem_takeWhile_imp hx
    · intro x hx
      have hhead := List.head?_dropWhile_not (p := fun x => !P x) (l := c :: r)
      rw [hx] at hhead
      simpa using hhead

end LizardOs.Lib
