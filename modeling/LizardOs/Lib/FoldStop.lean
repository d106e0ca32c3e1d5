import Mathlib.Data.Int.Notation
import Mathlib.Data.List.Basic

/-!
# Loops that a callback stops

`foldStop g l ctx` is the loop `for x in l: r = g(x, &ctx); if (r) return r;` of C code with callbacks: it
carries a context, and the first non-zero code ends it.
-/

namespace LizardOs.Lib

variable {ι κ : Type}

/-- Run the callback over the list until it answers with a non-zero code. -/
def foldStop (g : ι → κ → ℤ × κ) : List ι → κ → ℤ × κ
  | [], ctx => (0, ctx)
  | x :: l, ctx => if (g x ctx).1 ≠ 0 then g x ctx else foldStop g l (g x ctx).2

theorem foldStop_append (g : ι → κ → ℤ × κ) (l m : List ι) (ctx : κ) :
    foldStop g (l ++ m) ctx =
      if (foldStop g l ctx).1 ≠ 0 then foldStop g l ctx else foldStop g m (foldStop g l ctx).2 := by
  induction l generalizing ctx with
  | nil => simp [foldStop]
  | cons x l ih =>
    simp only [List.cons_append, foldStop]
    split
    · rfl
    · exact ih _

end LizardOs.Lib
