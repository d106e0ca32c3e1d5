import LizardOs.Vfs.Paths
import Mathlib.Data.List.Flatten
import Mathlib.Data.List.TakeWhile

/-!
# Path folding against its specification

The loops of `vfs_resolve_path` one by one: the copies into `work`, the calls of `strtok_r`, the bounded stack of
components.  They compute `vfsResolvePath` (`resolvePathLoops_eq`).  What comes out is the unbounded left fold of the
components of the joined path, and it comes out exactly when the three limits of the routine are met
(`resolvePathLoops_folds`).
-/

namespace LizardOs.Vfs

/-! ### The loops -/

/-- The loops that fill `work`: a byte is copied while there is room for it and for the terminator. -/
def fillWork : Name → Name → Option Name
  | work, [] => some work
  | work, b :: src => if TASK_CWD_MAX * 2 - 1 ≤ work.length then none else fillWork (work ++ [b]) src

/-- The first part of `vfs_resolve_path`. -/
def collectWork (base path : Name) : Option Name :=
  if path.head? = some 47 then fillWork [] path
  else do
    let work ← fillWork [] base
    let work ← if work.getLast? = some 47 then some work else fillWork work [47]
    fillWork work path

/-- `strtok_r` with the delimiter `/`: what `*saveptr` points at, with `none` for `NULL`, gives the token and the new
`*saveptr`. -/
def strtokR : Option Name → Option (Name × Option Name)
  | none => none
  | some s =>
      match s.dropWhile (· == 47) with
      | [] => none
      | b :: rest =>
          match (b :: rest).dropWhile (· != 47) with
          | [] => some ((b :: rest).takeWhile (· != 47), none)
          | _ :: left => some ((b :: rest).takeWhile (· != 47), some left)

/-- How many bytes are left to scan. -/
def bytesLeft (save : Option Name) : ℕ := save.elim 0 List.length

theorem strtokR_bytesLeft {save save' : Option Name} {tok : Name} (h : strtokR save = some (tok, save')) :
    bytesLeft save' < bytesLeft save := by
  cases save with
  | none => cases h
  | some s =>
    rw [strtokR] at h
    have hskip : (s.dropWhile (· == 47)).length ≤ s.length := (List.dropWhile_suffix _).length_le
    split at h
    · cases h
    · rename_i b rest hs
      rw [hs, List.length_cons] at hskip
      show bytesLeft save' < s.length
      split at h
      · obtain ⟨-, rfl⟩ := Prod.mk.inj (Option.some.inj h)
        show 0 < s.length
        omega
      · rename_i x left hleft
        obtain ⟨-, rfl⟩ := Prod.mk.inj (Option.some.inj h)
        have hdrop : ((b :: rest).dropWhile (· != 47)).length ≤ (b :: rest).length :=
          (List.dropWhile_suffix _).length_le
        rw [hleft, List.length_cons, List.length_cons] at hdrop
        show left.length < s.length
        omega

/-- The tokens that the calls of `strtok_r` in the head of the loop give. -/
def tokens (save : Option Name) : List Name :=
  match _h : strtokR save with
  | none => []
  | some (tok, save') => tok :: tokens save'
termination_by bytesLeft save
decreasing_by exact strtokR_bytesLeft _h

/-- `vfs_resolve_path` with its loops; `none` is the failure. -/
def resolvePathLoops (base path : Name) (outsz : ℕ) : Option Name :=
  match collectWork base path with
  | none => none
  | some work =>
      match foldComponents [] (tokens (some work)) with
      | none => none
      | some [] => if outsz < 2 then none else some [47]
      | some kept => writePath outsz [] kept

/-! ### The copies -/

theorem fillWork_eq {work : Name} (src : Name) (hwork : work.length ≤ TASK_CWD_MAX * 2 - 1) :
    fillWork work src =
      if (work ++ src).length ≤ TASK_CWD_MAX * 2 - 1 then some (work ++ src) else none := by
  induction src generalizing work with
  | nil => rw [fillWork, List.append_nil, if_pos hwork]
  | cons b src ih =>
    have happ : work ++ b :: src = work ++ [b] ++ src := by simp
    rw [fillWork]
    by_cases hfull : TASK_CWD_MAX * 2 - 1 ≤ work.length
    · rw [if_pos hfull, if_neg]
      rw [List.length_append, List.length_cons]
      omega
    · rw [if_neg hfull, ih, happ]
      rw [List.length_append, List.length_singleton]
      omega

theorem collectWork_eq (base path : Name) :
    collectWork base path =
      if (joinPath base path).length ≤ TASK_CWD_MAX * 2 - 1 then some (joinPath base path) else none := by
  have hempty : ([] : Name).length ≤ TASK_CWD_MAX * 2 - 1 := Nat.zero_le _
  rw [collectWork, joinPath]
  by_cases habs : path.head? = some 47
  · rw [if_pos habs, if_pos habs, fillWork_eq path hempty, List.nil_append]
  · rw [if_neg habs, if_neg habs, fillWork_eq base hempty, List.nil_append]
    by_cases hbase : base.length ≤ TASK_CWD_MAX * 2 - 1
    · rw [if_pos hbase]
      by_cases hlast : base.getLast? = some 47
      · simp only [Option.bind_eq_bind, Option.bind_some, if_pos hlast]
        rw [fillWork_eq path hbase]
      · simp only [Option.bind_eq_bind, Option.bind_some, if_neg hlast]
        rw [fillWork_eq [47] hbase]
        by_cases hslash : (base ++ [47]).length ≤ TASK_CWD_MAX * 2 - 1
        · rw [if_pos hslash, Option.bind_some, fillWork_eq path hslash, List.append_assoc]
          rfl
        · rw [if_neg hslash, if_neg]
          · rfl
          · simp only [List.length_append, List.length_cons, List.length_nil] at hslash ⊢
            omega
    · rw [if_neg hbase, if_neg]
      · rfl
      · split
        · rw [List.length_append]
          omega
        · rw [List.length_append]
          omega

/-! ### The tokens -/

theorem splitOn_append_slash (x y : Name) : (x ++ 47 :: y).splitOn 47 = x.splitOn 47 ++ y.splitOn 47 := by
  induction x with
  | nil =>
    rw [List.nil_append, List.splitOn_cons_eq_if_modifyHead, if_pos (by simp), List.splitOn_nil]
    rfl
  | cons b x ih =>
    rw [List.cons_append, List.splitOn_cons_eq_if_modifyHead, List.splitOn_cons_eq_if_modifyHead, ih]
    split
    · rfl
    · obtain ⟨a, rest, hsplit⟩ := List.exists_cons_of_ne_nil (List.splitOn_ne_nil 47 x)
      rw [hsplit]
      rfl

/-- A slash ends a component. -/
theorem components_append_slash (x y : Name) :
    VfsState.components (x ++ 47 :: y) = VfsState.components x ++ VfsState.components y := by
  rw [VfsState.components, splitOn_append_slash, List.filter_append]
  rfl

theorem components_nil : VfsState.components [] = [] := rfl

theorem components_slash (x : Name) : VfsState.components (47 :: x) = VfsState.components x := by
  have h := components_append_slash [] x
  rwa [components_nil, List.nil_append, List.nil_append] at h

theorem components_of_noSlash {c : Name} (hne : c ≠ []) (h : 47 ∉ c) : VfsState.components c = [c] := by
  have hsplit : c.splitOn 47 = [c] := by
    have happ : ([47].intercalate [c]).splitOn 47 = [c] :=
      List.splitOn_intercalate 47 (by simpa using h) (by simp)
    rwa [List.intercalate_singleton] at happ
  rw [VfsState.components, hsplit]
  exact List.filter_eq_self.mpr fun x hx => by simpa [List.mem_singleton.mp hx] using hne

theorem components_dropWhile (s : Name) :
    VfsState.components (s.dropWhile (· == 47)) = VfsState.components s := by
  induction s with
  | nil => rfl
  | cons b s ih =>
    rw [List.dropWhile_cons]
    split
    · rename_i hb
      obtain rfl : b = 47 := by simpa using hb
      rw [ih, components_slash]
    · rfl

/-- **The tokens are the components.** -/
theorem tokens_eq (s : Name) : tokens (some s) = VfsState.components s := by
  generalize hn : s.length = n
  induction n using Nat.strong_induction_on generalizing s with
  | _ n ih =>
    rw [tokens]
    split
    · rename_i h
      rw [strtokR] at h
      split at h
      · rename_i hs
        rw [← components_dropWhile, hs, components_nil]
      · split at h <;> cases h
    · rename_i tok save' h
      have hlt := strtokR_bytesLeft h
      rw [strtokR] at h
      split at h
      · cases h
      · rename_i b rest hs
        have hb : b ≠ 47 := by
          have hhead := List.head?_dropWhile_not (· == 47) s
          rw [hs] at hhead
          simpa using hhead
        have htok : 47 ∉ (b :: rest).takeWhile (· != 47) := by
          intro hmem
          have := List.mem_takeWhile_imp hmem
          simp at this
        have hne : (b :: rest).takeWhile (· != 47) ≠ [] := by
          rw [List.takeWhile_cons_of_pos (by simpa using hb)]
          exact List.cons_ne_nil _ _
        have hcut := List.takeWhile_append_dropWhile (p := (· != 47)) (l := b :: rest)
        rw [← components_dropWhile, hs, ← hcut]
        split at h
        · rename_i hdrop
          obtain ⟨rfl, rfl⟩ := Prod.mk.inj (Option.some.inj h)
          rw [hdrop, List.append_nil, components_of_noSlash hne htok]
          rw [tokens]
          rfl
        · rename_i x left hdrop
          obtain ⟨rfl, rfl⟩ := Prod.mk.inj (Option.some.inj h)
          obtain rfl : x = 47 := by
            have hhead := List.head?_dropWhile_not (· != 47) (b :: rest)
            rw [hdrop] at hhead
            simpa using hhead
          rw [hdrop, components_append_slash, components_of_noSlash hne htok]
          rw [ih left.length (by rw [← hn]; exact hlt) left rfl]
          rfl

theorem resolvePathLoops_eq (base path : Name) (outsz : ℕ) :
    resolvePathLoops base path outsz = vfsResolvePath base path outsz := by
  rw [resolvePathLoops, vfsResolvePath, collectWork_eq]
  by_cases hlen : (joinPath base path).length ≤ TASK_CWD_MAX * 2 - 1
  · rw [if_pos hlen, if_neg (Nat.not_lt.mpr hlen)]
    exact tokens_eq (joinPath base path) ▸ rfl
  · simp only [if_neg hlen, if_pos (Nat.lt_of_not_le hlen)]

/-! ### The specification -/

/-- One component folded into those that survive so far. -/
def foldOne (kept : List Name) (c : Name) : List Name :=
  if c = [46] then kept else if c = [46, 46] then kept.dropLast else kept ++ [c]

/-- The components that survive, without a bound on their number. -/
def survivors (cs : List Name) : List Name := cs.foldl foldOne []

/-- `/` and the components behind it with a `/` between two of them. -/
def absolutePath (cs : List Name) : Name := 47 :: [47].intercalate cs

/-- The three limits of `vfs_resolve_path`: of `work`, of `comps` at each moment of the loop, and of `out`. -/
structure Fits (base path : Name) (outsz : ℕ) : Prop where
  joined : (joinPath base path).length ≤ 255
  stack : ∀ n, (survivors ((VfsState.components (joinPath base path)).take n)).length ≤ 64
  result : (absolutePath (survivors (VfsState.components (joinPath base path)))).length + 1 ≤ outsz

/-! ### The stack -/

/-- The bounded loop is the unbounded fold as long as the stack holds what is on it. -/
theorem foldComponents_eq_some_iff {kept out cs : List Name} (hkept : kept.length ≤ 64) :
    foldComponents kept cs = some out ↔
      (∀ n, ((cs.take n).foldl foldOne kept).length ≤ 64) ∧ cs.foldl foldOne kept = out := by
  induction cs generalizing kept with
  | nil =>
    rw [foldComponents, Option.some.injEq]
    constructor
    · intro h
      exact ⟨fun n => by rwa [List.take_nil, List.foldl_nil], h⟩
    · exact fun h => h.2
  | cons c cs ih =>
    -- one more component on both sides of the prefixes
    have hshift : (∀ n, (((c :: cs).take n).foldl foldOne kept).length ≤ 64) ↔
        ∀ n, ((cs.take n).foldl foldOne (foldOne kept c)).length ≤ 64 := by
      constructor
      · intro h n
        exact h (n + 1)
      · intro h n
        cases n with
        | zero => exact hkept
        | succ n => exact h n
    rw [hshift, List.foldl_cons, foldComponents]
    by_cases hdot : c = [46]
    · rw [if_pos hdot, foldOne, if_pos hdot]
      exact ih hkept
    · rw [if_neg hdot]
      by_cases hdotdot : c = [46, 46]
      · rw [if_pos hdotdot, foldOne, if_neg hdot, if_pos hdotdot]
        exact ih (by rw [List.length_dropLast]; omega)
      · rw [if_neg hdotdot, foldOne, if_neg hdot, if_neg hdotdot]
        by_cases hfull : TASK_CWD_MAX / 2 ≤ kept.length
        · rw [if_pos hfull]
          constructor
          · intro h
            cases h
          · rintro ⟨h, -⟩
            have hpush := h 0
            rw [List.take_zero, List.foldl_nil, List.length_append, List.length_singleton] at hpush
            exact absurd hfull (by simp only [TASK_CWD_MAX]; omega)
        · rw [if_neg hfull]
          refine ih ?_
          rw [List.length_append, List.length_singleton]
          simp only [TASK_CWD_MAX] at hfull
          omega

/-- **Folding with its limits is folding without them, where they are met.** -/
theorem vfsResolvePath_eq_some_iff {base path out : Name} {outsz : ℕ} :
    vfsResolvePath base path outsz = some out ↔
      Fits base path outsz ∧ absolutePath (survivors (VfsState.components (joinPath base path))) = out := by
  have hempty : ([] : List Name).length ≤ 64 := Nat.zero_le _
  rw [vfsResolvePath]
  constructor
  · intro h
    split at h
    · cases h
    · rename_i hlen
      have hjoined : (joinPath base path).length ≤ 255 := Nat.le_of_not_lt hlen
      cases hfold : foldComponents [] (VfsState.components (joinPath base path)) with
      | none =>
        rw [hfold] at h
        cases h
      | some kept =>
        rw [hfold] at h
        obtain ⟨hstack, hkept⟩ := (foldComponents_eq_some_iff hempty).mp hfold
        have hsurvive : survivors (VfsState.components (joinPath base path)) = kept := hkept
        rw [hsurvive]
        cases kept with
        | nil =>
          change (if outsz < 2 then none else some [47]) = some out at h
          split at h
          · cases h
          · rename_i hroom
            refine ⟨⟨hjoined, hstack, ?_⟩, Option.some.inj h⟩
            rw [hsurvive]
            exact Nat.le_of_not_lt hroom
        | cons c cs =>
          obtain ⟨hroom, hout⟩ := (writePath_eq_some_iff (List.cons_ne_nil c cs)).mp h
          rw [render_eq (List.cons_ne_nil c cs)] at hroom hout
          refine ⟨⟨hjoined, hstack, ?_⟩, hout⟩
          rw [hsurvive]
          exact hroom
  · rintro ⟨hfits, hout⟩
    have hjoined : ¬ TASK_CWD_MAX * 2 - 1 < (joinPath base path).length := Nat.not_lt.mpr hfits.joined
    rw [if_neg hjoined]
    have hfold := (foldComponents_eq_some_iff hempty).mpr ⟨hfits.stack, rfl⟩
    have hroom := hfits.result
    rw [hfold]
    change absolutePath (List.foldl foldOne [] _) = out at hout
    change (absolutePath (List.foldl foldOne [] _)).length + 1 ≤ outsz at hroom
    generalize List.foldl foldOne [] (VfsState.components (joinPath base path)) = kept at hout hroom
    cases kept with
    | nil =>
      have hsize : ¬ outsz < 2 := Nat.not_lt.mpr hroom
      show (if outsz < 2 then none else some [47]) = some out
      rw [if_neg hsize, ← hout]
      rfl
    | cons c cs =>
      refine (writePath_eq_some_iff (List.cons_ne_nil c cs)).mpr ?_
      rw [render_eq (List.cons_ne_nil c cs)]
      exact ⟨hroom, hout⟩

/-! ### Folding again -/

theorem survivors_parts (path : Name) : ∀ c ∈ survivors (VfsState.components path), Part c := by
  suffices hrun : ∀ cs kept : List Name, (∀ c ∈ kept, Part c) → (∀ c ∈ cs, c ≠ [] ∧ 47 ∉ c) →
      ∀ c ∈ cs.foldl foldOne kept, Part c from
    hrun _ [] (by simp) fun c hc => mem_components hc
  intro cs
  induction cs with
  | nil => exact fun kept hkept _ => hkept
  | cons c cs ih =>
    intro kept hkept hcs
    rw [List.foldl_cons]
    refine ih _ ?_ fun x hx => hcs x (List.mem_cons_of_mem _ hx)
    intro x hx
    rw [foldOne] at hx
    split at hx
    · exact hkept x hx
    · rename_i hdot
      split at hx
      · exact hkept x (List.dropLast_subset _ hx)
      · rename_i hdotdot
        rcases List.mem_append.mp hx with hx | hx
        · exact hkept x hx
        · obtain rfl := List.mem_singleton.mp hx
          obtain ⟨hne, hslash⟩ := hcs x List.mem_cons_self
          exact ⟨hne, hslash, hdot, hdotdot⟩

theorem foldl_foldOne_of_parts {cs : List Name} (h : ∀ c ∈ cs, Part c) (kept : List Name) :
    cs.foldl foldOne kept = kept ++ cs := by
  induction cs generalizing kept with
  | nil => rw [List.foldl_nil, List.append_nil]
  | cons c cs ih =>
    have hc := h c List.mem_cons_self
    rw [List.foldl_cons, foldOne, if_neg hc.dot, if_neg hc.dotdot,
      ih (fun x hx => h x (List.mem_cons_of_mem _ hx)), List.append_assoc]
    rfl

theorem survivors_of_parts {cs : List Name} (h : ∀ c ∈ cs, Part c) : survivors cs = cs :=
  foldl_foldOne_of_parts h []

theorem components_absolutePath {cs : List Name} (h : ∀ c ∈ cs, Part c) :
    VfsState.components (absolutePath cs) = cs := by
  cases cs with
  | nil => rfl
  | cons c cs =>
    have hrender := components_render h
    rwa [render_eq (List.cons_ne_nil c cs)] at hrender

theorem joinPath_absolutePath (base : Name) (cs : List Name) :
    joinPath base (absolutePath cs) = absolutePath cs := by
  rw [joinPath, if_pos]
  rfl

/-- Folding components that survived with more behind them is folding all from the start. -/
theorem survivors_append (path : Name) (cs : List Name) :
    survivors (survivors (VfsState.components path) ++ cs) = survivors (VfsState.components path ++ cs) := by
  have hparts := survivors_parts path
  have hall : survivors (VfsState.components path ++ cs) = cs.foldl foldOne (survivors (VfsState.components path)) := by
    rw [survivors, List.foldl_append, survivors]
  rw [hall, survivors, List.foldl_append, foldl_foldOne_of_parts hparts, List.nil_append]

/-! ### How long the result is -/

theorem length_render_foldOne (kept : List Name) (c : Name) :
    (render (foldOne kept c)).length ≤ (render kept).length + (render [c]).length := by
  rw [foldOne]
  split
  · omega
  · split
    · have hsub : (render kept.dropLast).length ≤ (render kept).length :=
        ((List.dropLast_sublist kept).flatMap _).length_le
      omega
    · rw [render, List.flatMap_append, List.length_append]
      exact Nat.le_refl _

theorem length_render_foldl (cs kept : List Name) :
    (render (cs.foldl foldOne kept)).length ≤ (render kept).length + (render cs).length := by
  induction cs generalizing kept with
  | nil => exact Nat.le_add_right _ _
  | cons c cs ih =>
    have hone := length_render_foldOne kept c
    have hrest := ih (foldOne kept c)
    have hcons : (render (c :: cs)).length = (render [c]).length + (render cs).length := by
      rw [render, List.flatMap_cons, List.length_append, render, List.flatMap_singleton, render]
    rw [List.foldl_cons, hcons]
    omega

theorem length_render_components (s : Name) : (render (VfsState.components s)).length ≤ s.length + 1 := by
  have hall : render (s.splitOn 47) = 47 :: s := by
    rw [render_eq (List.splitOn_ne_nil 47 s), List.intercalate_splitOn]
  have hsub : (render (VfsState.components s)).length ≤ (render (s.splitOn 47)).length :=
    (List.filter_sublist.flatMap _).length_le
  rwa [hall, List.length_cons] at hsub

/-- Folding an absolute path does not lengthen it. -/
theorem length_absolutePath_survivors {s : Name} (hs : s.head? = some 47) :
    (absolutePath (survivors (VfsState.components s))).length ≤ s.length := by
  obtain ⟨t, rfl⟩ := List.head?_eq_some_iff.mp hs
  rw [components_slash, List.length_cons]
  have hfold := length_render_foldl (VfsState.components t) []
  have hall := length_render_components t
  change (render (survivors (VfsState.components t))).length ≤ 0 + _ at hfold
  cases hkept : survivors (VfsState.components t) with
  | nil => exact Nat.le_add_left 1 _
  | cons c cs =>
    rw [hkept] at hfold
    rw [absolutePath, ← render_eq (List.cons_ne_nil c cs)]
    omega

theorem head_joinPath {base : Name} (hbase : base.head? = some 47) (path : Name) :
    (joinPath base path).head? = some 47 := by
  rw [joinPath]
  split
  · assumption
  · split
    · rw [List.head?_append, hbase]
      rfl
    · rw [List.head?_append, hbase]
      rfl

/-! ### Joining -/

theorem components_joinPath {base path : Name} (h : path.head? ≠ some 47) :
    VfsState.components (joinPath base path) = VfsState.components base ++ VfsState.components path := by
  rw [joinPath, if_neg h]
  split
  · rename_i hlast
    obtain ⟨base, rfl⟩ := List.getLast?_eq_some_iff.mp hlast
    rw [List.append_assoc, List.singleton_append, components_append_slash, components_append_slash, components_nil,
      List.append_nil]
  · rw [components_append_slash]

/-- `a/b` gives the components of `a` and those of `b`. -/
theorem components_joinPath_append {base a b : Name} (ha : a ≠ []) :
    VfsState.components (joinPath base (a ++ 47 :: b)) =
      VfsState.components (joinPath base a) ++ VfsState.components b := by
  have hhead : (a ++ 47 :: b).head? = a.head? := List.head?_append_of_ne_nil a ha
  by_cases habs : a.head? = some 47
  · rw [joinPath, if_pos (hhead.trans habs), joinPath, if_pos habs, components_append_slash]
  · rw [components_joinPath (fun h => habs (hhead ▸ h)), components_joinPath habs, components_append_slash,
      List.append_assoc]

/-! ### The whole -/

/-- A folded path folds to itself, whatever it is folded against. -/
theorem vfsResolvePath_again {base path out : Name} {outsz : ℕ} (hbase : base.head? = some 47)
    (h : vfsResolvePath base path outsz = some out) (base' : Name) :
    vfsResolvePath base' out outsz = some out := by
  obtain ⟨hfits, rfl⟩ := vfsResolvePath_eq_some_iff.mp h
  have hparts := survivors_parts (joinPath base path)
  have hroot := head_joinPath hbase path
  have hlen := length_absolutePath_survivors hroot
  have hcount : (survivors (VfsState.components (joinPath base path))).length ≤ 64 := by
    have hall := hfits.stack (VfsState.components (joinPath base path)).length
    rwa [List.take_length] at hall
  have hroom := hfits.result
  have hjoined := hfits.joined
  generalize survivors (VfsState.components (joinPath base path)) = kept at *
  rw [vfsResolvePath_eq_some_iff, joinPath_absolutePath, components_absolutePath hparts, survivors_of_parts hparts]
  refine ⟨⟨?_, ?_, ?_⟩, rfl⟩
  · rw [joinPath_absolutePath]
    omega
  · intro n
    rw [joinPath_absolutePath, components_absolutePath hparts,
      survivors_of_parts fun c hc => hparts c (List.mem_of_mem_take hc)]
    exact (List.length_take_le' n kept).trans hcount
  · rwa [joinPath_absolutePath, components_absolutePath hparts, survivors_of_parts hparts]

/-- Resolving `a/b` is resolving `b` from where `a` leads. -/
theorem vfsResolvePath_append {base a b whole first second : Name} {n₁ n₂ n₃ : ℕ} (ha : a ≠ [])
    (hb : b.head? ≠ some 47) (hwhole : vfsResolvePath base (a ++ 47 :: b) n₁ = some whole)
    (hfirst : vfsResolvePath base a n₂ = some first) (hsecond : vfsResolvePath first b n₃ = some second) :
    whole = second := by
  obtain ⟨-, rfl⟩ := vfsResolvePath_eq_some_iff.mp hwhole
  obtain ⟨-, rfl⟩ := vfsResolvePath_eq_some_iff.mp hfirst
  obtain ⟨-, rfl⟩ := vfsResolvePath_eq_some_iff.mp hsecond
  rw [components_joinPath_append ha, components_joinPath hb, components_absolutePath (survivors_parts _),
    survivors_append]

/-- **`vfs_resolve_path` folds.**  It succeeds exactly within its three limits, and then gives `/` and the surviving
components.  The result is a fixed point, and a path may be resolved in two parts. -/
theorem resolvePathLoops_folds {base : Name} (hbase : base.head? = some 47) (path : Name) (outsz : ℕ) :
    ((∃ out, resolvePathLoops base path outsz = some out) ↔ Fits base path outsz) ∧
    (∀ out, resolvePathLoops base path outsz = some out →
      out = absolutePath (survivors (VfsState.components (joinPath base path))) ∧
      ∀ base', resolvePathLoops base' out outsz = some out) ∧
    ∀ a b whole first second n₁ n₂ n₃, a ≠ [] → b.head? ≠ some 47 →
      resolvePathLoops base (a ++ 47 :: b) n₁ = some whole →
      resolvePathLoops base a n₂ = some first →
      resolvePathLoops first b n₃ = some second → whole = second := by
  simp only [resolvePathLoops_eq]
  refine ⟨⟨?_, ?_⟩, ?_, ?_⟩
  · rintro ⟨out, h⟩
    exact (vfsResolvePath_eq_some_iff.mp h).1
  · intro hfits
    exact ⟨_, vfsResolvePath_eq_some_iff.mpr ⟨hfits, rfl⟩⟩
  · intro out h
    exact ⟨(vfsResolvePath_eq_some_iff.mp h).2.symm, vfsResolvePath_again hbase h⟩
  · intro a b whole first second n₁ n₂ n₃ ha hb
    exact vfsResolvePath_append ha hb

/-- From `/home`, `../usr` is `/usr`, and that is `/usr` from anywhere. -/
theorem resolvePathLoops_folds_home :
    resolvePathLoops [47, 104, 111, 109, 101] [46, 46, 47, 117, 115, 114] 128 = some [47, 117, 115, 114] ∧
    ∀ base', resolvePathLoops base' [47, 117, 115, 114] 128 = some [47, 117, 115, 114] := by
  have hrun : resolvePathLoops [47, 104, 111, 109, 101] [46, 46, 47, 117, 115, 114] 128 = some [47, 117, 115, 114] := by
    rw [resolvePathLoops_eq]
    decide
  exact ⟨hrun, ((resolvePathLoops_folds rfl _ 128).2.1 _ hrun).2⟩

end LizardOs.Vfs
