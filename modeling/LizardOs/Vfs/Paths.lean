import LizardOs.Vfs.Dentry
import Mathlib.Data.List.Induction

/-!
# Path folding

`vfs_resolve_path` of `vfs.c`: the path a system call was given, folded against the working directory of the task.  What
comes out is canonical (`vfsResolvePath_canonical`), and a canonical path comes out as it went in, whatever the working
directory (`vfsResolvePath_of_canonical`).
-/

namespace LizardOs.Vfs

def TASK_CWD_MAX : ℕ := 128

/-- What `vfs_resolve_path` collects in `work`. -/
def joinPath (base path : Name) : Name :=
  if path.head? = some 47 then path
  else if base.getLast? = some 47 then base ++ path
  else base ++ 47 :: path

/-- The components that survive, with at most `TASK_CWD_MAX / 2` of them at any time. -/
def foldComponents : List Name → List Name → Option (List Name)
  | kept, [] => some kept
  | kept, c :: cs =>
      if c = [46] then foldComponents kept cs
      else if c = [46, 46] then foldComponents kept.dropLast cs
      else if TASK_CWD_MAX / 2 ≤ kept.length then none
      else foldComponents (kept ++ [c]) cs

/-- The loop that writes the result. -/
def writePath (outsz : ℕ) : Name → List Name → Option Name
  | out, [] => some out
  | out, c :: cs => if outsz < out.length + 1 + c.length + 1 then none else writePath outsz (out ++ 47 :: c) cs

/-- `vfs_resolve_path`; `none` is the failure. -/
def vfsResolvePath (base path : Name) (outsz : ℕ) : Option Name :=
  if TASK_CWD_MAX * 2 - 1 < (joinPath base path).length then none
  else
    match foldComponents [] (VfsState.components (joinPath base path)) with
    | none => none
    | some [] => if outsz < 2 then none else some [47]
    | some kept => writePath outsz [] kept

/-! ### Canonical paths -/

/-- An absolute path without empty, `.` and `..` components that fits into `cwd`. -/
structure Canonical (path : Name) : Prop where
  bound : path.length < TASK_CWD_MAX
  rooted : path.head? = some 47
  parts : path = [47] ∨ ∀ c ∈ path.tail.splitOn 47, c ≠ [] ∧ c ≠ [46] ∧ c ≠ [46, 46]
  last : path = [47] ∨ path.getLast? ≠ some 47

/-- A component that a folded path keeps. -/
structure Part (c : Name) : Prop where
  ne_nil : c ≠ []
  slash : 47 ∉ c
  dot : c ≠ [46]
  dotdot : c ≠ [46, 46]

/-- The absolute path with the given components, of which there is one. -/
def render (cs : List Name) : Name := cs.flatMap fun c => 47 :: c

theorem slash_not_mem_splitOn {path c : Name} (h : c ∈ path.splitOn 47) : 47 ∉ c := by
  induction path generalizing c with
  | nil =>
    rw [List.splitOn_nil, List.mem_singleton] at h
    rw [h]
    exact List.not_mem_nil
  | cons x path ih =>
    rw [List.splitOn_cons_eq_if_modifyHead] at h
    split at h
    · rcases List.mem_cons.mp h with rfl | h
      · exact List.not_mem_nil
      · exact ih h
    · rename_i hx
      obtain ⟨a, rest, hsplit⟩ := List.exists_cons_of_ne_nil (List.splitOn_ne_nil 47 path)
      rw [hsplit, List.modifyHead_cons] at h
      rcases List.mem_cons.mp h with rfl | h
      · intro hmem
        rcases List.mem_cons.mp hmem with rfl | hmem
        · simp at hx
        · exact ih (by rw [hsplit]; simp) hmem
      · exact ih (by rw [hsplit]; simp [h])

theorem mem_of_mem_splitOn {path c : Name} {b : UInt8} (h : c ∈ path.splitOn 47) (hb : b ∈ c) :
    b ∈ path := by
  induction path generalizing c with
  | nil =>
    rw [List.splitOn_nil, List.mem_singleton] at h
    rw [h] at hb
    exact hb
  | cons x path ih =>
    rw [List.splitOn_cons_eq_if_modifyHead] at h
    split at h
    · rcases List.mem_cons.mp h with rfl | h
      · cases hb
      · exact List.mem_cons_of_mem _ (ih h hb)
    · obtain ⟨a, rest, hsplit⟩ := List.exists_cons_of_ne_nil (List.splitOn_ne_nil 47 path)
      rw [hsplit, List.modifyHead_cons] at h
      rcases List.mem_cons.mp h with rfl | h
      · rcases List.mem_cons.mp hb with rfl | hb
        · exact List.mem_cons_self
        · exact List.mem_cons_of_mem _ (ih (by rw [hsplit]; simp) hb)
      · exact List.mem_cons_of_mem _ (ih (by rw [hsplit]; simp [h]) hb)

theorem mem_components {path c : Name} (h : c ∈ VfsState.components path) : c ≠ [] ∧ 47 ∉ c := by
  obtain ⟨hmem, hne⟩ := List.mem_filter.mp h
  exact ⟨by simpa using hne, slash_not_mem_splitOn hmem⟩

/-- Behind its first slash a rendered path is its components with slashes between them. -/
theorem render_eq {cs : List Name} (hcs : cs ≠ []) : render cs = 47 :: [47].intercalate cs := by
  induction cs with
  | nil => exact absurd rfl hcs
  | cons c cs ih =>
    cases cs with
    | nil => simp [render]
    | cons c' cs =>
      have hrest := ih (by simp)
      rw [List.intercalate_cons_cons, render, List.flatMap_cons]
      show 47 :: c ++ render (c' :: cs) = _
      rw [hrest]
      simp

theorem components_render {cs : List Name} (h : ∀ c ∈ cs, Part c) :
    VfsState.components (render cs) = cs := by
  by_cases hcs : cs = []
  · subst hcs
    rfl
  · have hslash : ∀ c ∈ cs, 47 ∉ c := fun c hc => (h c hc).slash
    have hsplit : (render cs).splitOn 47 = [] :: cs := by
      have happ := List.splitOn_append_cons_self_of_not_mem (show (47 : UInt8) ∉ [] by simp) ([47].intercalate cs)
      rw [List.nil_append, List.splitOn_intercalate 47 hslash hcs] at happ
      rw [render_eq hcs]
      exact happ
    have hkeep : cs.filter (fun c => !c.isEmpty) = cs := by
      rw [List.filter_eq_self]
      intro c hc
      simpa using (h c hc).ne_nil
    rw [VfsState.components, hsplit, List.filter_cons_of_neg (by simp), hkeep]

/-- A rendered path ends in its last component. -/
theorem getLast_render {cs : List Name} (h : ∀ c ∈ cs, Part c) : (render cs).getLast? ≠ some 47 := by
  induction cs using List.reverseRecOn with
  | nil => simp [render]
  | append_singleton cs c _ =>
    have hc := h c (by simp)
    rw [render, List.flatMap_append, List.flatMap_singleton]
    intro hlast
    rw [List.getLast?_append_of_ne_nil _ (by simp), List.getLast?_cons, Option.some.injEq] at hlast
    have hx := List.getLast?_eq_some_getLast hc.ne_nil
    rw [hx, Option.getD_some] at hlast
    exact hc.slash (hlast ▸ List.getLast_mem hc.ne_nil)

/-- The canonical paths are `/` and the rendered ones. -/
theorem canonical_iff {path : Name} : Canonical path ↔ path.length < TASK_CWD_MAX ∧
    (path = [47] ∨ ∃ cs, cs ≠ [] ∧ (∀ c ∈ cs, Part c) ∧ path = render cs) := by
  constructor
  · intro h
    refine ⟨h.bound, ?_⟩
    rcases h.parts with heq | hparts
    · exact .inl heq
    · right
      obtain ⟨tail, rfl⟩ : ∃ tail, path = 47 :: tail := by
        have hhead := h.rooted
        cases path with
        | nil => cases hhead
        | cons x tail =>
          obtain rfl := Option.some.inj hhead
          exact ⟨tail, rfl⟩
      have hne : tail.splitOn 47 ≠ [] := List.splitOn_ne_nil _ _
      refine ⟨tail.splitOn 47, hne, ?_, ?_⟩
      · intro c hc
        obtain ⟨h1, h2, h3⟩ := hparts c hc
        exact ⟨h1, slash_not_mem_splitOn hc, h2, h3⟩
      · rw [render_eq hne, List.intercalate_splitOn]
  · rintro ⟨hbound, rfl | ⟨cs, hcs, hparts, rfl⟩⟩
    · exact ⟨hbound, rfl, .inl rfl, .inl rfl⟩
    · have heq := render_eq hcs
      refine ⟨hbound, by rw [heq]; rfl, .inr ?_, .inr (getLast_render hparts)⟩
      rw [heq, List.tail_cons, List.splitOn_intercalate 47 (fun c hc => (hparts c hc).slash) hcs]
      exact fun c hc => ⟨(hparts c hc).ne_nil, (hparts c hc).dot, (hparts c hc).dotdot⟩

/-! ### What folding gives -/

/-- The loop over the components keeps only such that are neither `.` nor `..`. -/
theorem foldComponents_parts {cs kept out : List Name} (h : foldComponents kept cs = some out)
    (hkept : ∀ c ∈ kept, Part c) (hcs : ∀ c ∈ cs, c ≠ [] ∧ 47 ∉ c) : ∀ c ∈ out, Part c := by
  induction cs generalizing kept with
  | nil =>
    obtain rfl := Option.some.inj h
    exact hkept
  | cons c cs ih =>
    have hrest : ∀ x ∈ cs, x ≠ [] ∧ 47 ∉ x := fun x hx => hcs x (by simp [hx])
    rw [foldComponents] at h
    split at h
    · exact ih h hkept hrest
    · rename_i hdot
      split at h
      · exact ih h (fun x hx => hkept x (List.dropLast_subset _ hx)) hrest
      · rename_i hdotdot
        split at h
        · cases h
        · refine ih h (fun x hx => ?_) hrest
          rcases List.mem_append.mp hx with hx | hx
          · exact hkept x hx
          · obtain rfl := List.mem_singleton.mp hx
            obtain ⟨h1, h2⟩ := hcs x (by simp)
            exact ⟨h1, h2, hdot, hdotdot⟩

/-- The loop makes no component of its own. -/
theorem foldComponents_subset {cs kept out : List Name} (h : foldComponents kept cs = some out) :
    ∀ c ∈ out, c ∈ kept ∨ c ∈ cs := by
  induction cs generalizing kept with
  | nil =>
    obtain rfl := Option.some.inj h
    exact fun c hc => .inl hc
  | cons c cs ih =>
    intro x hx
    rw [foldComponents] at h
    split at h
    · exact (ih h x hx).imp_right (List.mem_cons_of_mem _)
    · split at h
      · exact (ih h x hx).imp (fun hk => List.dropLast_subset _ hk) (List.mem_cons_of_mem _)
      · split at h
        · cases h
        · rcases ih h x hx with hk | hk
          · rcases List.mem_append.mp hk with hk | hk
            · exact .inl hk
            · exact .inr (by simp [List.mem_singleton.mp hk])
          · exact .inr (List.mem_cons_of_mem _ hk)

/-- A list of components that are kept passes through the loop unchanged. -/
theorem foldComponents_of_parts {cs kept : List Name} (h : ∀ c ∈ cs, Part c)
    (hlen : kept.length + cs.length ≤ TASK_CWD_MAX / 2) :
    foldComponents kept cs = some (kept ++ cs) := by
  induction cs generalizing kept with
  | nil => rw [foldComponents, List.append_nil]
  | cons c cs ih =>
    have hc := h c (by simp)
    rw [List.length_cons] at hlen
    rw [foldComponents, if_neg hc.dot, if_neg hc.dotdot, if_neg (by omega),
      ih (fun x hx => h x (by simp [hx])) (by simp only [List.length_append, List.length_singleton]; omega),
      List.append_assoc]
    rfl

/-- The loop that writes the result writes the rendered path, and room for a terminator is left. -/
theorem writePath_eq {cs : List Name} {outsz : ℕ} {pre out : Name} (hpre : pre.length < outsz)
    (h : writePath outsz pre cs = some out) : out = pre ++ render cs ∧ out.length < outsz := by
  induction cs generalizing pre with
  | nil =>
    obtain rfl := Option.some.inj h
    exact ⟨by simp [render], hpre⟩
  | cons c cs ih =>
    rw [writePath] at h
    split at h
    · cases h
    · rename_i hfit
      obtain ⟨heq, hlen⟩ := ih (by simp only [List.length_append, List.length_cons]; omega) h
      refine ⟨?_, hlen⟩
      rw [heq, render, render, List.flatMap_cons, List.append_assoc]

theorem writePath_of_fits {cs : List Name} {outsz : ℕ} {pre : Name}
    (h : (pre ++ render cs).length < outsz) : writePath outsz pre cs = some (pre ++ render cs) := by
  induction cs generalizing pre with
  | nil => simp [writePath, render]
  | cons c cs ih =>
    have happ : pre ++ render (c :: cs) = pre ++ 47 :: c ++ render cs := by
      rw [render, render, List.flatMap_cons, List.append_assoc]
    rw [happ] at h ⊢
    have hlen := h
    simp only [List.length_append, List.length_cons] at hlen
    rw [writePath, if_neg (by omega), ih h]

theorem writePath_eq_some_iff {cs : List Name} {outsz : ℕ} {out : Name} (hcs : cs ≠ []) :
    writePath outsz [] cs = some out ↔ (render cs).length < outsz ∧ render cs = out := by
  constructor
  · intro h
    have hpos : 0 < outsz := by
      obtain ⟨c, cs, rfl⟩ := List.exists_cons_of_ne_nil hcs
      rw [writePath] at h
      split at h
      · cases h
      · omega
    obtain ⟨heq, hlen⟩ := writePath_eq (show ([] : Name).length < outsz from hpos) h
    rw [List.nil_append] at heq
    exact ⟨heq ▸ hlen, heq.symm⟩
  · rintro ⟨hlen, rfl⟩
    exact writePath_of_fits hlen

/-- **A folded path is canonical.** -/
theorem vfsResolvePath_canonical {base path out : Name} {outsz : ℕ}
    (hsz : outsz ≤ TASK_CWD_MAX) (h : vfsResolvePath base path outsz = some out) : Canonical out := by
  rw [vfsResolvePath] at h
  split at h
  · cases h
  · split at h
    · cases h
    · split at h
      · cases h
      · obtain rfl := Option.some.inj h
        exact canonical_iff.mpr ⟨by decide, .inl rfl⟩
    · rename_i kept hne hfold
      have hcs : kept ≠ [] := fun hnil => hne (by rw [hnil])
      obtain ⟨hlen, rfl⟩ := (writePath_eq_some_iff hcs).mp h
      rw [canonical_iff]
      refine ⟨by omega, .inr ⟨kept, hcs, ?_, rfl⟩⟩
      exact foldComponents_parts hfold (by simp) fun c hc => mem_components hc

theorem mem_joinPath {base path : Name} {b : UInt8} (h : b ∈ joinPath base path) :
    b = 47 ∨ b ∈ base ∨ b ∈ path := by
  unfold joinPath at h
  split at h
  · exact .inr (.inr h)
  · split at h
    · exact .inr (List.mem_append.mp h)
    · rcases List.mem_append.mp h with h | h
      · exact .inr (.inl h)
      · rcases List.mem_cons.mp h with h | h
        · exact .inl h
        · exact .inr (.inr h)

/-- A folded path is made of slashes and of bytes of the two paths. -/
theorem mem_vfsResolvePath {base path out : Name} {outsz : ℕ} {b : UInt8}
    (h : vfsResolvePath base path outsz = some out) (hb : b ∈ out) : b = 47 ∨ b ∈ base ∨ b ∈ path := by
  rw [vfsResolvePath] at h
  split at h
  · cases h
  · split at h
    · cases h
    · split at h
      · cases h
      · obtain rfl := Option.some.inj h
        exact .inl (List.mem_singleton.mp hb)
    · rename_i kept hne hfold
      have hcs : kept ≠ [] := fun hnil => hne (by rw [hnil])
      obtain ⟨-, rfl⟩ := (writePath_eq_some_iff hcs).mp h
      obtain ⟨c, hc, hbc⟩ := List.mem_flatMap.mp hb
      rcases List.mem_cons.mp hbc with hslash | hbc
      · exact .inl hslash
      · rcases foldComponents_subset hfold c hc with hk | hk
        · cases hk
        · exact mem_joinPath (mem_of_mem_splitOn (List.mem_filter.mp hk).1 hbc)

/-- Components take two bytes at least, so that a path of `n` bytes has at most `n / 2` of them. -/
theorem length_render {cs : List Name} (h : ∀ c ∈ cs, Part c) : 2 * cs.length ≤ (render cs).length := by
  induction cs with
  | nil => exact Nat.le_refl 0
  | cons c cs ih =>
    have hrest := ih fun x hx => h x (by simp [hx])
    have hc : 0 < c.length := List.length_pos_iff.mpr (h c (by simp)).ne_nil
    rw [render, List.flatMap_cons, List.length_append, List.length_cons, List.length_cons]
    rw [render] at hrest
    omega

/-- **A canonical path resolves to itself** from every working directory. -/
theorem vfsResolvePath_of_canonical {path : Name} (base : Name) (h : Canonical path) :
    vfsResolvePath base path TASK_CWD_MAX = some path := by
  have hjoin : joinPath base path = path := by
    rw [joinPath, if_pos h.rooted]
  have hbound := h.bound
  rw [vfsResolvePath, hjoin, if_neg (by simp only [TASK_CWD_MAX] at *; omega)]
  obtain ⟨-, rfl | ⟨cs, hcs, hparts, rfl⟩⟩ := canonical_iff.mp h
  · rfl
  · have hcount := length_render hparts
    have hfold : foldComponents [] cs = some cs :=
      foldComponents_of_parts hparts (by simp only [TASK_CWD_MAX, List.length_nil] at *; omega)
    rw [components_render hparts, hfold]
    obtain ⟨c, cs, rfl⟩ := List.exists_cons_of_ne_nil hcs
    exact writePath_of_fits hbound

end LizardOs.Vfs
