import Mathlib.Logic.Function.Basic
import Mathlib.Data.List.Basic

/-!
# Stateful routines that may fail to return

`Prog σ α` is the type of a routine over an explicit state `σ`: it answers with a value and the state it
leaves behind, or with `none` when one of its loops never exits.  A failing routine (an error code, a null
pointer) *returns*: its failure is part of `α`.  So `p s = some (a, s')` says both that the routine
returns and what it does, and `Prog.Returns` is the total-correctness reading that later proofs chain.

Nothing here knows which program it runs.
-/

namespace LizardOs.Lib

/-- A routine over the state `σ`; `none` is a loop that never exits. -/
def Prog (σ α : Type) : Type := σ → Option (α × σ)

namespace Prog

variable {σ α β : Type}

instance : Monad (Prog σ) where
  pure a := fun s => some (a, s)
  bind p f := fun s => (p s).bind fun r => f r.1 r.2

/-- Read the whole state. -/
def get : Prog σ σ := fun s => some (s, s)

/-- Apply a function to the state. -/
def modify (f : σ → σ) : Prog σ Unit := fun s => some ((), f s)

/-- A loop that never exits. -/
def diverge : Prog σ α := fun _ => none

-- The parentheses keep these equations out of definitional unfolding: a rewrite with one of them is a
-- proof step of its own, and checking it never evaluates the routines inside.

@[simp] theorem pure_apply (a : α) (s : σ) : (pure a : Prog σ α) s = some (a, s) :=
  (rfl)

@[simp] theorem bind_apply (p : Prog σ α) (f : α → Prog σ β) (s : σ) :
    (p >>= f) s = (p s).bind fun r => f r.1 r.2 := (rfl)

theorem obind_some {γ δ : Type} (x : γ) (f : γ → Option δ) : (some x).bind f = f x := (rfl)

@[simp] theorem get_apply (s : σ) : (get : Prog σ σ) s = some (s, s) := (rfl)

@[simp] theorem modify_apply (f : σ → σ) (s : σ) : modify f s = some ((), f s) := (rfl)

@[simp] theorem diverge_apply (s : σ) : (diverge : Prog σ α) s = none := (rfl)

@[simp] theorem ite_apply (c : Prop) [Decidable c] (p q : Prog σ α) (s : σ) :
    (if c then p else q) s = if c then p s else q s := by
  split <;> rfl

/-- Peel the first routine off a sequence that returned. -/
theorem bind_eq_some {p : Prog σ α} {f : α → Prog σ β} {s : σ} {r : β × σ} :
    (p >>= f) s = some r ↔ ∃ a s', p s = some (a, s') ∧ f a s' = some r := by
  constructor
  · intro h
    rw [bind_apply, Option.bind_eq_some_iff] at h
    obtain ⟨⟨a, s'⟩, hp, hf⟩ := h
    exact ⟨a, s', hp, hf⟩
  · rintro ⟨a, s', hp, hf⟩
    rw [bind_apply, hp]
    exact hf

theorem bind_pure (p : Prog σ α) : (p >>= pure) = p := by
  funext s
  rw [bind_apply]
  cases p s with
  | none => rfl
  | some r => rfl

/-- A sequence whose first routine's outcome is known. -/
theorem bind_of_eq {p : Prog σ α} {s s' : σ} {a : α} (h : p s = some (a, s')) (f : α → Prog σ β) :
    (p >>= f) s = f a s' := by
  rw [bind_apply, h]
  rfl

/-- The routine returns from every state. -/
def Total (p : Prog σ α) : Prop := ∀ s, ∃ a s', p s = some (a, s')

namespace Total

theorem pure (a : α) : Total (Pure.pure a : Prog σ α) := fun s => ⟨a, s, rfl⟩

theorem bind {p : Prog σ α} {f : α → Prog σ β} (hp : Total p) (hf : ∀ a, Total (f a)) : Total (p >>= f) := by
  intro s
  obtain ⟨a, s', hrun⟩ := hp s
  rw [bind_of_eq hrun]
  exact hf a s'

theorem get {f : σ → Prog σ β} (hf : ∀ s, Total (f s)) : Total (get >>= f) := fun s => hf s s

theorem modify (f : σ → σ) : Total (modify f) := fun s => ⟨(), f s, rfl⟩

theorem ite {c : Prop} [Decidable c] {p q : Prog σ α} (hp : Total p) (hq : Total q) : Total (if c then p else q) := by
  split
  · exact hp
  · exact hq

end Total

end Prog

end LizardOs.Lib
