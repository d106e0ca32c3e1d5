import LizardOs.Lib.Bytes
import LizardOs.Vfs.PathFolding
import Mathlib.Data.List.GetD

/-!
# The buffer of a path that is folded

What `vfs_resolve_path` leaves in `out`.  The result is written component by component, each one after a test for room,
so a result that is too long leaves the components that still fitted.
-/

namespace LizardOs.Vfs

open LizardOs.Lib

/-! ### The loop over the buffer -/

/-- `memcpy(out + o, s, strlen(s))`. -/
def putBytes (out : Buf) (o : ℕ) (s : Name) : Buf := splice out o (fun j => s.getD j 0) s.length

/-- The loop that writes the result behind the `o` bytes written so far. -/
def writeInto (outsz : ℕ) (out : Buf) (o : ℕ) : List Name → ℤ × Buf
  | [] => (0, Function.update out o 0)
  | c :: cs =>
      if outsz < o + 1 + c.length + 1 then (-1, out)
      else writeInto outsz (putBytes (Function.update out o 47) (o + 1) c) (o + 1 + c.length) cs

/-- `vfs_resolve_path`: the return value and the contents of `out`. -/
def resolveInto (base path : Name) (out : Buf) (outsz : ℕ) : ℤ × Buf :=
  match collectWork base path with
  | none => (-1, out)
  | some work =>
      match foldComponents [] (tokens (some work)) with
      | none => (-1, out)
      | some [] =>
          if outsz < 2 then (-1, out) else (0, Function.update (Function.update out 0 47) 1 0)
      | some kept => writeInto outsz out 0 kept

/-! ### Bytes written one after another -/

theorem putBytes_nil (out : Buf) (o : ℕ) : putBytes out o [] = out := splice_nothing ..

theorem update_eq_putBytes (out : Buf) (o : ℕ) (b : UInt8) : Function.update out o b = putBytes out o [b] := by
  funext j
  by_cases hj : j = o
  · subst hj
    have hinside : putBytes out j [b] (j + 0) = b := splice_inside Nat.zero_lt_one
    rw [Function.update_self]
    exact hinside.symm
  · rw [Function.update_of_ne hj, putBytes, splice_outside]
    rw [List.length_singleton]
    omega

theorem putBytes_append (out : Buf) (o : ℕ) (a b : Name) :
    putBytes (putBytes out o a) (o + a.length) b = putBytes out o (a ++ b) := by
  have hfirst : putBytes out o a = splice out o (fun j => (a ++ b).getD j 0) a.length :=
    splice_congr fun j hj => by rw [List.getD_append _ _ _ _ hj]
  have hsecond : (fun j => b.getD j 0) = fun j => (a ++ b).getD (a.length + j) 0 := by
    funext j
    rw [List.getD_append_right _ _ _ _ (Nat.le_add_right _ _), Nat.add_sub_cancel_left]
  rw [hfirst]
  unfold putBytes
  rw [hsecond, splice_append, List.length_append]

/-- Writing changes nothing exactly when the bytes are there already. -/
theorem putBytes_eq_self_iff {out : Buf} {s : Name} : putBytes out 0 s = out ↔ firstBytes out s.length = s := by
  have hbyte : putBytes out 0 s = out ↔ ∀ j < s.length, s.getD j 0 = out j := by
    constructor
    · intro h j hj
      have hj' := congrFun h j
      rw [putBytes, splice_zero hj] at hj'
      exact hj'
    · intro h
      funext j
      by_cases hj : j < s.length
      · rw [putBytes, splice_zero hj, h j hj]
      · exact splice_outside (by omega)
  rw [hbyte]
  constructor
  · intro h
    refine List.ext_getElem (by simp [firstBytes]) fun j hj hj' => ?_
    have hget := h j hj'
    rw [List.getD_eq_getElem _ _ hj'] at hget
    simpa [firstBytes] using hget.symm
  · intro h j hj
    have hget := firstBytes_get? (b := out) hj
    rw [h] at hget
    rw [List.getD_eq_getElem?_getD, hget, Option.getD_some]

/-! ### What the loop has written -/

/-- The components the loop writes, with `o` bytes written so far: those in front of the first that does not fit. -/
def fitting (outsz : ℕ) : ℕ → List Name → List Name
  | _, [] => []
  | o, c :: cs => if outsz < o + 1 + c.length + 1 then [] else c :: fitting outsz (o + 1 + c.length) cs

theorem render_cons (c : Name) (cs : List Name) : render (c :: cs) = 47 :: c ++ render cs := by
  rw [render, render, List.flatMap_cons]

/-- The loop puts the components that fit behind what is written, and fails when they are not all. -/
theorem writeInto_eq (outsz : ℕ) (out : Buf) (o : ℕ) (cs : List Name) :
    writeInto outsz out o cs =
      if fitting outsz o cs = cs then (0, putBytes out o (render cs ++ [0]))
      else (-1, putBytes out o (render (fitting outsz o cs))) := by
  induction cs generalizing out o with
  | nil =>
    rw [writeInto, if_pos (by rw [fitting]), update_eq_putBytes]
    rfl
  | cons c cs ih =>
    have hstep : ∀ s : Name, putBytes (putBytes (Function.update out o 47) (o + 1) c) (o + 1 + c.length) s =
        putBytes out o (47 :: c ++ s) := by
      intro s
      have hcomponent : putBytes (putBytes out o [47]) (o + 1) c = putBytes out o (47 :: c) :=
        putBytes_append out o [47] c
      have hrest := putBytes_append out o (47 :: c) s
      rw [List.length_cons] at hrest
      rw [update_eq_putBytes, hcomponent, ← hrest, Nat.add_assoc, Nat.add_comm 1]
    rw [writeInto, fitting]
    by_cases hfull : outsz < o + 1 + c.length + 1
    · rw [if_pos hfull, if_pos hfull, if_neg (by simp)]
      exact congrArg (Prod.mk (-1)) (putBytes_nil out o).symm
    · rw [if_neg hfull, if_neg hfull, ih, hstep, hstep]
      simp only [List.cons.injEq, true_and, render_cons, List.append_assoc]

/-- All components fit exactly when the rendered path and its terminator do. -/
theorem fitting_eq_self_iff {outsz : ℕ} {cs : List Name} (hcs : cs ≠ []) :
    fitting outsz 0 cs = cs ↔ (render cs).length + 1 ≤ outsz := by
  have hgeneral : ∀ (cs : List Name) (o : ℕ), cs ≠ [] →
      (fitting outsz o cs = cs ↔ o + (render cs).length + 1 ≤ outsz) := by
    intro cs
    induction cs with
    | nil => exact fun _ h => absurd rfl h
    | cons c cs ih =>
      intro o _
      rw [fitting, render_cons, List.length_append, List.length_cons]
      by_cases hfull : outsz < o + 1 + c.length + 1
      · rw [if_pos hfull]
        constructor
        · intro h
          cases h
        · omega
      · rw [if_neg hfull]
        by_cases hnil : cs = []
        · subst hnil
          simp only [fitting, render, List.flatMap_nil, List.length_nil, true_iff]
          omega
        · simp only [List.cons.injEq, true_and]
          rw [ih (o + 1 + c.length) hnil]
          omega
  have h := hgeneral cs 0 hcs
  rwa [Nat.zero_add] at h

/-! ### The whole routine -/

/-- The components that survive the folding. -/
def keptComponents (base path : Name) : List Name := survivors (VfsState.components (joinPath base path))

/-- The path folds within the limits of `work` and `comps`. -/
structure Folds (base path : Name) : Prop where
  joined : (joinPath base path).length ≤ 255
  stack : ∀ n, (survivors ((VfsState.components (joinPath base path)).take n)).length ≤ 64

/-- The path folds, and the result with its terminator is longer than `out`. -/
structure Spills (base path : Name) (outsz : ℕ) : Prop where
  folds : Folds base path
  long : outsz < (absolutePath (keptComponents base path)).length + 1

/-- What is in `out` after a result that was too long: the components in front of the first that did not fit. -/
def spilled (base path : Name) (outsz : ℕ) : Name := render (fitting outsz 0 (keptComponents base path))

theorem resolveInto_of_not_folds {base path : Name} (h : ¬Folds base path) (out : Buf) (outsz : ℕ) :
    resolveInto base path out outsz = (-1, out) := by
  rw [resolveInto, collectWork_eq]
  by_cases hlen : (joinPath base path).length ≤ TASK_CWD_MAX * 2 - 1
  · have hnone : foldComponents [] (VfsState.components (joinPath base path)) = none := by
      cases hfold : foldComponents [] (VfsState.components (joinPath base path)) with
      | none => rfl
      | some cs =>
        obtain ⟨hstack, -⟩ := (foldComponents_eq_some_iff (Nat.zero_le _)).mp hfold
        exact absurd ⟨hlen, hstack⟩ h
    simp only [if_pos hlen, tokens_eq, hnone]
  · simp only [if_neg hlen]

theorem resolveInto_of_folds {base path : Name} (h : Folds base path) (out : Buf) (outsz : ℕ) :
    resolveInto base path out outsz =
      if (absolutePath (keptComponents base path)).length + 1 ≤ outsz then
        (0, putBytes out 0 (absolutePath (keptComponents base path) ++ [0]))
      else (-1, putBytes out 0 (spilled base path outsz)) := by
  have hlen : (joinPath base path).length ≤ TASK_CWD_MAX * 2 - 1 := h.joined
  have hfold : foldComponents [] (VfsState.components (joinPath base path)) = some (keptComponents base path) :=
    (foldComponents_eq_some_iff (Nat.zero_le _)).mpr ⟨h.stack, rfl⟩
  rw [resolveInto, collectWork_eq]
  simp only [if_pos hlen, tokens_eq, hfold, spilled]
  generalize keptComponents base path = cs
  cases cs with
  | nil =>
    show (if outsz < 2 then (-1, out) else (0, Function.update (Function.update out 0 47) 1 0)) =
      if 2 ≤ outsz then (0, putBytes out 0 [47, 0]) else (-1, putBytes out 0 [])
    by_cases hroom : outsz < 2
    · rw [if_pos hroom, if_neg (by omega), putBytes_nil]
    · rw [if_neg hroom, if_pos (by omega), update_eq_putBytes, update_eq_putBytes]
      exact congrArg (Prod.mk 0) (putBytes_append out 0 [47] [0])
  | cons c cs =>
    have hfits : fitting outsz 0 (c :: cs) = c :: cs ↔ (render (c :: cs)).length + 1 ≤ outsz :=
      fitting_eq_self_iff (List.cons_ne_nil c cs)
    rw [absolutePath, ← render_eq (List.cons_ne_nil c cs)]
    show writeInto outsz out 0 (c :: cs) = _
    rw [writeInto_eq]
    by_cases hroom : (render (c :: cs)).length + 1 ≤ outsz
    · rw [if_pos (hfits.mpr hroom), if_pos hroom]
    · rw [if_neg (mt hfits.mp hroom), if_neg hroom]

/-- The routine succeeds exactly when the folding does, and then the result and its terminator are in `out`. -/
theorem resolveInto_refines (base path : Name) (out : Buf) (outsz : ℕ) :
    (∀ p, resolvePathLoops base path outsz = some p →
      resolveInto base path out outsz = (0, putBytes out 0 (p ++ [0]))) ∧
    (resolvePathLoops base path outsz = none → (resolveInto base path out outsz).1 = -1) := by
  rw [resolvePathLoops_eq]
  constructor
  · intro p hp
    obtain ⟨hfits, rfl⟩ := vfsResolvePath_eq_some_iff.mp hp
    rw [resolveInto_of_folds ⟨hfits.joined, hfits.stack⟩]
    exact if_pos hfits.result
  · intro hnone
    by_cases hfolds : Folds base path
    · rw [resolveInto_of_folds hfolds]
      by_cases hroom : (absolutePath (keptComponents base path)).length + 1 ≤ outsz
      · rw [vfsResolvePath_eq_some_iff.mpr ⟨⟨hfolds.joined, hfolds.stack, hroom⟩, rfl⟩] at hnone
        cases hnone
      · rw [if_neg hroom]
    · rw [resolveInto_of_not_folds hfolds]

/-- **When a failure leaves `out` untouched**: exactly when the folding itself fails, or the components that were
written before the one that did not fit had been in `out` already. -/
theorem resolveInto_untouched_iff (base path : Name) (out : Buf) (outsz : ℕ) :
    ((resolveInto base path out outsz).1 = -1 → (resolveInto base path out outsz).2 = out) ↔
      (Spills base path outsz →
        firstBytes out (spilled base path outsz).length = spilled base path outsz) := by
  by_cases hfolds : Folds base path
  · rw [resolveInto_of_folds hfolds]
    by_cases hroom : (absolutePath (keptComponents base path)).length + 1 ≤ outsz
    · have hzero : (0 : ℤ) ≠ -1 := by decide
      rw [if_pos hroom]
      exact ⟨fun _ hspills => absurd hspills.long (Nat.not_lt.mpr hroom), fun _ h => absurd h hzero⟩
    · rw [if_neg hroom, ← putBytes_eq_self_iff]
      dsimp only
      exact ⟨fun h _ => h rfl, fun h _ => h ⟨hfolds, Nat.lt_of_not_le hroom⟩⟩
  · rw [resolveInto_of_not_folds hfolds]
    exact ⟨fun _ hspills => absurd hspills.folds hfolds, fun _ _ => rfl⟩

/-- `/a/bbb` does not fit into four bytes, and `/a` is left over what was in them. -/
theorem resolveInto_spills :
    (resolveInto [47] [97, 47, 98, 98, 98] (fun _ => 120) 4).1 = -1 ∧
      (resolveInto [47] [97, 47, 98, 98, 98] (fun _ => 120) 4).2 ≠ fun _ => 120 := by
  have hwork : collectWork [47] [97, 47, 98, 98, 98] = some [47, 97, 47, 98, 98, 98] := by decide
  have hkept : foldComponents [] (VfsState.components [47, 97, 47, 98, 98, 98]) = some [[97], [98, 98, 98]] := by
    decide
  have hrun : resolveInto [47] [97, 47, 98, 98, 98] (fun _ => 120) 4 =
      writeInto 4 (fun _ => 120) 0 [[97], [98, 98, 98]] := by
    rw [resolveInto, hwork]
    simp only [tokens_eq, hkept]
  rw [hrun]
  have hfirst : (writeInto 4 (fun _ => 120) 0 [[97], [98, 98, 98]]).2 0 = 47 := by decide
  refine ⟨by decide, fun h => ?_⟩
  rw [h] at hfirst
  exact absurd hfirst (by decide)

end LizardOs.Vfs
