import Mathlib.Data.List.Basic

/-!
# Text on a roll of paper

Lines of at most `w` places are written one below the other, without an end.  A window of `h` rows shows the last of
them, and as long as there are fewer it shows all, from the top.  What a new line does to the window: nothing while
there is a row left, and else every row moves up by one.
-/

namespace LizardOs.Lib

/-- The line that is written to, and those above it, the nearest one first. -/
structure Paper (α : Type*) where
  current : List α
  above : List (List α)

namespace Paper

variable {α : Type*} {p : Paper α} {w h i j : ℕ}

def empty : Paper α := ⟨[], []⟩

def newline (p : Paper α) : Paper α := ⟨[], p.current :: p.above⟩

def append (p : Paper α) (c : α) : Paper α := ⟨p.current ++ [c], p.above⟩

/-- Write to the next place; behind the last one a new line begins. -/
def put (w : ℕ) (p : Paper α) (c : α) : Paper α :=
  if p.current.length + 1 = w then (p.append c).newline else p.append c

/-- The row of the window that is written to. -/
def row (h : ℕ) (p : Paper α) : ℕ := min p.above.length (h - 1)

/-- The line that a row of the window shows. -/
def line (h : ℕ) (p : Paper α) (i : ℕ) : List α :=
  if i = p.row h then p.current else if i < p.row h then p.above.getD (p.row h - 1 - i) [] else []

/-- What is at a place of the window. -/
def cell (h : ℕ) (p : Paper α) (i j : ℕ) : Option α := (p.line h i)[j]?

/-- No line is longer than the paper is wide, and there is a place left on the current one. -/
structure Fits (w : ℕ) (p : Paper α) : Prop where
  current : p.current.length < w
  above : ∀ l ∈ p.above, l.length ≤ w

theorem fits_empty (hw : 0 < w) : (empty : Paper α).Fits w := ⟨hw, nofun⟩

theorem Fits.newline (hp : p.Fits w) : p.newline.Fits w where
  current := Nat.lt_of_le_of_lt (Nat.zero_le _) hp.current
  above := List.forall_mem_cons.mpr ⟨Nat.le_of_lt hp.current, hp.above⟩

theorem Fits.put (hp : p.Fits w) (c : α) : (p.put w c).Fits w := by
  have hlen := hp.current
  have happ : (p.current ++ [c]).length = p.current.length + 1 := by simp
  rw [Paper.put]
  split
  · rename_i hfull
    exact ⟨Nat.lt_of_le_of_lt (Nat.zero_le _) hlen,
      List.forall_mem_cons.mpr ⟨Nat.le_of_eq (by rw [append, happ, hfull]), hp.above⟩⟩
  · exact ⟨by rw [append, happ]; omega, hp.above⟩

theorem row_lt (hh : 0 < h) (p : Paper α) : p.row h < h := by
  rw [row]
  omega

@[simp] theorem row_append (c : α) : (p.append c).row h = p.row h := rfl

/-- Where there is a row left, the next one is written to. -/
theorem row_newline_of_lt (hrow : p.row h + 1 < h) : p.newline.row h = p.row h + 1 := by
  rw [row] at hrow
  rw [row, row, newline, List.length_cons]
  omega

theorem row_newline_of_eq (hrow : p.row h + 1 = h) : p.newline.row h = p.row h := by
  rw [row] at hrow
  rw [row, row, newline, List.length_cons]
  omega

/-- No line is shown below the current one. -/
theorem cell_below (hi : p.row h < i) (j : ℕ) : p.cell h i j = none := by
  rw [cell, line, if_neg (by omega), if_neg (by omega)]
  rfl

theorem cell_empty (h i j : ℕ) : (empty : Paper α).cell h i j = none := by
  rw [cell, line, row, empty]
  split
  · rfl
  · split
    · rfl
    · rfl

/-- One more place of the current row. -/
theorem cell_append (c : α) (h i j : ℕ) :
    (p.append c).cell h i j = if i = p.row h ∧ j = p.current.length then some c else p.cell h i j := by
  rw [cell, cell, line, line, row_append]
  by_cases hi : i = p.row h
  · rw [if_pos hi, if_pos hi, append]
    by_cases hj : j = p.current.length
    · rw [if_pos ⟨hi, hj⟩, hj, List.getElem?_concat_length]
    · rw [if_neg fun hboth => hj hboth.2, List.getElem?_append]
      split
      · rfl
      · rename_i hbehind
        rw [List.getElem?_eq_none (by simp; omega), List.getElem?_eq_none (by omega)]
  · have hother : ¬(i = p.row h ∧ j = p.current.length) := fun hboth => hi hboth.1
    rw [if_neg hother, if_neg hi, if_neg hi]
    rfl

/-- A new line does not change the window while there is a row left. -/
theorem cell_newline_of_lt (hrow : p.row h + 1 < h) (i j : ℕ) : p.newline.cell h i j = p.cell h i j := by
  rw [cell, cell, line, line, row_newline_of_lt hrow]
  by_cases hnew : i = p.row h + 1
  · rw [if_pos hnew, if_neg (by omega), if_neg (by omega)]
    rfl
  · rw [if_neg hnew]
    by_cases hlast : i = p.row h
    · rw [if_pos (by omega), if_pos hlast, hlast, newline, Nat.add_sub_cancel, Nat.sub_self]
      rfl
    · rw [if_neg hlast]
      by_cases hold : i < p.row h
      · have hnext : p.row h + 1 - 1 - i = (p.row h - 1 - i) + 1 := by omega
        rw [if_pos (by omega), if_pos hold, hnext, newline]
        rfl
      · rw [if_neg (by omega), if_neg hold]

/-- On the last row a new line moves the window up. -/
theorem cell_newline_of_eq (hrow : p.row h + 1 = h) (i j : ℕ) :
    p.newline.cell h i j = if i + 1 < h then p.cell h (i + 1) j else none := by
  rw [cell, cell, line, line, row_newline_of_eq hrow]
  by_cases hlast : i = p.row h
  · rw [if_pos hlast, if_neg (by omega)]
    rfl
  · rw [if_neg hlast]
    by_cases hold : i < p.row h
    · rw [if_pos hold, if_pos (by omega)]
      by_cases hnext : i + 1 = p.row h
      · have hzero : p.row h - 1 - i = 0 := by omega
        rw [if_pos hnext, hzero, newline]
        rfl
      · have hsucc : p.row h - 1 - i = (p.row h - 1 - (i + 1)) + 1 := by omega
        rw [if_neg hnext, if_pos (by omega), hsucc, newline]
        rfl
    · rw [if_neg hold, if_neg (by omega)]
      rfl

end Paper

end LizardOs.Lib
