import Mathlib.Data.List.Basic
import Mathlib.Data.List.Induction
import Mathlib.Data.List.Nodup
import Mathlib.Logic.Function.Basic

/-!
# Trees of tables

Tables of entries, where an entry may lead to another table.  `walk` follows a path of indices from a root.  Among the
paths of `ok`, those of `own` are `Branching` when no other path leads to the same table.  Then a write to a cell at
the end of a path of `own` changes what lies behind that cell only, and a table that no path leads to can be hung in
there without changing anything else.  `collect` gathers the tables below a root, each one after those below it.
-/

namespace LizardOs.Lib

variable {τ ι ε : Type*}

/-- Follow a path of indices from a table. -/
def walk (child : ε → Option τ) (mem : τ → ι → ε) : List ι → τ → Option τ
  | [], t => some t
  | i :: P, t => (child (mem t i)).bind (walk child mem P)

/-- Write one cell. -/
def writeCell [DecidableEq τ] [DecidableEq ι] (mem : τ → ι → ε) (t : τ) (i : ι) (e : ε) : τ → ι → ε :=
  Function.update mem t (Function.update (mem t) i e)

/-- Where a path of `own` leads, no other path of `ok` does. -/
def Branching (child : ε → Option τ) (mem : τ → ι → ε) (own ok : List ι → Prop) (root : τ) : Prop :=
  ∀ P Q t, own P → ok Q → walk child mem P root = some t → walk child mem Q root = some t → P = Q

/-- A set of paths that holds every beginning of a path in it. -/
def Closed (ok : List ι → Prop) : Prop := ∀ P Q, ok (P ++ Q) → ok P

section

variable {child : ε → Option τ} {mem mem' : τ → ι → ε} {own ok : List ι → Prop} {root t f : τ} {P Q : List ι} {i j : ι}

theorem walk_append (P Q : List ι) (t : τ) :
    walk child mem (P ++ Q) t = (walk child mem P t).bind (walk child mem Q) := by
  induction P generalizing t with
  | nil => rfl
  | cons i P ih =>
    show (child (mem t i)).bind (walk child mem (P ++ Q)) = ((child (mem t i)).bind (walk child mem P)).bind _
    cases child (mem t i) with
    | none => rfl
    | some c => exact ih c

theorem walk_singleton (i : ι) (t : τ) : walk child mem [i] t = child (mem t i) := by
  show (child (mem t i)).bind (fun c => some c) = _
  cases child (mem t i) with
  | none => rfl
  | some c => rfl

theorem walk_concat (P : List ι) (i : ι) (t : τ) :
    walk child mem (P ++ [i]) t = (walk child mem P t).bind fun u => child (mem u i) := by
  rw [walk_append]
  congr 1
  funext u
  exact walk_singleton i u

/-- Two memories that agree on the tables a path passes lead to the same table. -/
theorem walk_congr (hclosed : Closed ok)
    (hagree : ∀ P i u, ok (P ++ [i]) → walk child mem P root = some u → child (mem' u i) = child (mem u i))
    (hP : ok P) : walk child mem' P root = walk child mem P root := by
  induction P using List.reverseRecOn with
  | nil => rfl
  | append_singleton P i ih =>
    rw [walk_concat, walk_concat, ih (hclosed P [i] hP)]
    cases hu : walk child mem P root with
    | none => rfl
    | some u => exact hagree P i u hP hu

/-- A table that no path leads to may change. -/
theorem walk_of_fresh (hclosed : Closed ok) (hfresh : ∀ P, ok P → walk child mem P root ≠ some f)
    (hother : ∀ u, u ≠ f → mem' u = mem u) (hP : ok P) : walk child mem' P root = walk child mem P root := by
  refine walk_congr hclosed (fun P i u hok hu => ?_) hP
  rw [hother u]
  rintro rfl
  exact hfresh P (hclosed P [i] hok) hu

/-- What does not change any walk keeps the tree. -/
theorem Branching.congr (hb : Branching child mem own ok root) (hsub : ∀ P, own P → ok P)
    (hsame : ∀ P, ok P → walk child mem' P root = walk child mem P root) : Branching child mem' own ok root := by
  intro P Q t hP hQ hPt hQt
  rw [hsame P (hsub P hP)] at hPt
  rw [hsame Q hQ] at hQt
  exact hb P Q t hP hQ hPt hQt

variable [DecidableEq τ] [DecidableEq ι] {e : ε}

@[simp] theorem writeCell_self (mem : τ → ι → ε) (t : τ) (i : ι) (e : ε) : writeCell mem t i e t i = e := by
  rw [writeCell, Function.update_self, Function.update_self]

theorem writeCell_of_ne {u : τ} (h : u ≠ t ∨ j ≠ i) : writeCell mem t i e u j = mem u j := by
  rw [writeCell]
  by_cases hu : u = t
  · subst hu
    rw [Function.update_self, Function.update_of_ne (h.resolve_left (not_not.mpr rfl))]
  · rw [Function.update_of_ne hu]

theorem writeCell_table {u : τ} (h : u ≠ t) : writeCell mem t i e u = mem u := Function.update_of_ne h ..

/-- A write changes the walks through its cell only. -/
theorem walk_writeCell (hb : Branching child mem own ok root) (hclosed : Closed ok) (hP : own P)
    (ht : walk child mem P root = some t) (hQ : ok Q) (hnot : ¬P ++ [i] <+: Q) :
    walk child (writeCell mem t i e) Q root = walk child mem Q root := by
  induction Q using List.reverseRecOn with
  | nil => rfl
  | append_singleton Q j ih =>
    have hQ' := hclosed Q [j] hQ
    have hnot' : ¬P ++ [i] <+: Q := fun hpre => hnot (hpre.trans (List.prefix_append Q [j]))
    rw [walk_concat, walk_concat, ih hQ' hnot']
    cases hu : walk child mem Q root with
    | none => rfl
    | some u =>
      show child (writeCell mem t i e u j) = child (mem u j)
      rw [writeCell_of_ne]
      by_contra hboth
      obtain ⟨hut, hji⟩ := not_or.mp hboth
      have hPQ : P = Q := hb P Q t hP hQ' ht (by rw [hu, not_not.mp hut])
      have hcell : P ++ [i] = Q ++ [j] := by rw [hPQ, not_not.mp hji]
      exact hnot (hcell ▸ List.prefix_rfl)

/-- Hang a table that no path leads to, and behind which there is nothing, into an empty cell: one more path leads
somewhere, and the others lead where they led. -/
theorem walk_grow (hb : Branching child mem own ok root) (hclosed : Closed ok) (hsub : ∀ P, own P → ok P) (hP : own P)
    (ht : walk child mem P root = some t) (hnone : child (mem t i) = none) (he : child e = some f) (hft : f ≠ t)
    (hempty : ∀ j, ok (P ++ [i] ++ [j]) → child (mem f j) = none) :
    walk child (writeCell mem t i e) (P ++ [i]) root = some f ∧
      ∀ Q, ok Q → Q ≠ P ++ [i] → walk child (writeCell mem t i e) Q root = walk child mem Q root := by
  have hself : walk child (writeCell mem t i e) (P ++ [i]) root = some f := by
    have hnot : ¬P ++ [i] <+: P := by
      intro hpre
      have hlen := hpre.length_le
      rw [List.length_append, List.length_singleton] at hlen
      omega
    rw [walk_concat, walk_writeCell hb hclosed hP ht (hsub P hP) hnot, ht]
    show child (writeCell mem t i e t i) = some f
    rw [writeCell_self, he]
  refine ⟨hself, fun Q hQ hne => ?_⟩
  by_cases hpre : P ++ [i] <+: Q
  · obtain ⟨R, rfl⟩ := hpre
    cases R with
    | nil => exact absurd (List.append_nil _) hne
    | cons j R =>
      -- the path led nowhere, and leads to an empty cell of the new table
      have hbefore : walk child mem (P ++ [i]) root = none := by
        rw [walk_concat, ht]
        exact hnone
      have hcell : child (mem f j) = none := by
        apply hempty
        apply hclosed (P ++ [i] ++ [j]) R
        rw [List.append_assoc (P ++ [i])]
        exact hQ
      rw [walk_append (P ++ [i]), walk_append (P ++ [i]), hself, hbefore]
      show (child (writeCell mem t i e f j)).bind _ = none
      rw [writeCell_table hft, hcell]
      rfl
  · exact walk_writeCell hb hclosed hP ht hQ hpre

theorem Branching.grow (hb : Branching child mem own ok root) (hclosed : Closed ok) (hsub : ∀ P, own P → ok P)
    (hP : own P) (ht : walk child mem P root = some t) (hnone : child (mem t i) = none) (he : child e = some f)
    (hfresh : ∀ Q, ok Q → walk child mem Q root ≠ some f)
    (hempty : ∀ j, ok (P ++ [i] ++ [j]) → child (mem f j) = none) :
    Branching child (writeCell mem t i e) own ok root := by
  have hft : f ≠ t := fun heq => hfresh P (hsub P hP) (by rw [ht, heq])
  obtain ⟨hself, hsame⟩ := walk_grow hb hclosed hsub hP ht hnone he hft hempty
  intro A B u hA hB hAu hBu
  by_cases hAP : A = P ++ [i]
  · by_cases hBP : B = P ++ [i]
    · rw [hAP, hBP]
    · rw [hAP, hself] at hAu
      rw [hsame B hB hBP, ← hAu] at hBu
      exact absurd hBu (hfresh B hB)
  · rw [hsame A (hsub A hA) hAP] at hAu
    by_cases hBP : B = P ++ [i]
    · rw [hBP, hself] at hBu
      rw [← hBu] at hAu
      exact absurd hAu (hfresh A (hsub A hA))
    · rw [hsame B hB hBP] at hBu
      exact hb A B u hA hB hAu hBu

/-- Clear a cell: what was behind it is reached no more. -/
theorem walk_prune (hb : Branching child mem own ok root) (hclosed : Closed ok) (hsub : ∀ P, own P → ok P) (hP : own P)
    (ht : walk child mem P root = some t) (he : child e = none) (hpre : P ++ [i] <+: Q) :
    walk child (writeCell mem t i e) Q root = none := by
  obtain ⟨R, rfl⟩ := hpre
  have hnot : ¬P ++ [i] <+: P := by
    intro hpre
    have hlen := hpre.length_le
    rw [List.length_append, List.length_singleton] at hlen
    omega
  have hcut : walk child (writeCell mem t i e) (P ++ [i]) root = none := by
    rw [walk_concat, walk_writeCell hb hclosed hP ht (hsub P hP) hnot, ht]
    show child (writeCell mem t i e t i) = none
    rw [writeCell_self, he]
  rw [walk_append, hcut]
  rfl

theorem Branching.prune (hb : Branching child mem own ok root) (hclosed : Closed ok) (hsub : ∀ P, own P → ok P)
    (hP : own P) (ht : walk child mem P root = some t) (he : child e = none) :
    Branching child (writeCell mem t i e) own ok root := by
  have hkept : ∀ Q u, ok Q → walk child (writeCell mem t i e) Q root = some u → walk child mem Q root = some u := by
    intro Q u hQ hu
    by_cases hpre : P ++ [i] <+: Q
    · rw [walk_prune hb hclosed hsub hP ht he hpre] at hu
      cases hu
    · rwa [walk_writeCell hb hclosed hP ht hQ hpre] at hu
  exact fun A B u hA hB hAu hBu => hb A B u hA hB (hkept A u (hsub A hA) hAu) (hkept B u hB hBu)

end

/-! ### All tables below a root -/

section

variable {child : ε → Option τ} {mem mem' : τ → ι → ε} {idx : ℕ → List ι} {t c x : τ} {P Q : List ι} {d : ℕ}

/-- The path has at most `d` indices, each of its level: `idx k` are the indices of a table with `k` levels below. -/
def Follows (idx : ℕ → List ι) : ℕ → List ι → Prop
  | _, [] => True
  | 0, _ :: _ => False
  | d + 1, i :: P => i ∈ idx d ∧ Follows idx d P

theorem follows_nil (idx : ℕ → List ι) (d : ℕ) : Follows idx d [] := by
  cases d with
  | zero => trivial
  | succ d => trivial

theorem Follows.closed (idx : ℕ → List ι) (d : ℕ) : Closed (Follows idx d) := by
  intro P
  induction P generalizing d with
  | nil =>
    intro Q _
    exact follows_nil idx d
  | cons i P ih =>
    intro Q h
    cases d with
    | zero => exact h
    | succ d => exact ⟨h.1, ih d Q h.2⟩

/-- The tables below a root, each after those below it. -/
def collect (child : ε → Option τ) (mem : τ → ι → ε) (idx : ℕ → List ι) : ℕ → τ → List τ
  | 0, _ => []
  | d + 1, t => (idx d).flatMap fun i =>
      match child (mem t i) with
      | none => []
      | some c => collect child mem idx d c ++ [c]

theorem mem_collect : x ∈ collect child mem idx d t ↔
    ∃ P, P ≠ [] ∧ Follows idx d P ∧ walk child mem P t = some x := by
  induction d generalizing t with
  | zero =>
    constructor
    · intro h
      cases h
    · intro ⟨P, hne, hP, _⟩
      cases P with
      | nil => exact absurd rfl hne
      | cons i P => exact hP.elim
  | succ d ih =>
    rw [collect, List.mem_flatMap]
    constructor
    · intro ⟨i, hi, hx⟩
      cases hc : child (mem t i) with
      | none =>
        rw [hc] at hx
        cases hx
      | some c =>
        rw [hc] at hx
        rcases List.mem_append.mp hx with hx | hx
        · obtain ⟨P, -, hP, hwalk⟩ := ih.mp hx
          refine ⟨i :: P, List.cons_ne_nil _ _, ⟨hi, hP⟩, ?_⟩
          show (child (mem t i)).bind _ = _
          rw [hc]
          exact hwalk
        · refine ⟨[i], List.cons_ne_nil _ _, ⟨hi, follows_nil idx d⟩, ?_⟩
          rw [walk_singleton, hc, List.mem_singleton.mp hx]
    · intro ⟨P, hne, hP, hwalk⟩
      cases P with
      | nil => exact absurd rfl hne
      | cons i P =>
        refine ⟨i, hP.1, ?_⟩
        have hbind : (child (mem t i)).bind (walk child mem P) = some x := hwalk
        obtain ⟨c, hc, hcx⟩ := Option.bind_eq_some_iff.mp hbind
        rw [hc]
        apply List.mem_append.mpr
        by_cases hnil : P = []
        · right
          rw [hnil] at hcx
          exact List.mem_singleton.mpr (Option.some.inj hcx).symm
        · exact .inl (ih.mpr ⟨P, hnil, hP.2, hcx⟩)

/-- A table that is below a child of `t` is below `t`. -/
theorem walk_cons_of_child {i : ι} (hc : child (mem t i) = some c) (hwalk : walk child mem P c = some x) :
    walk child mem (i :: P) t = some x := by
  show (child (mem t i)).bind _ = _
  rw [hc]
  exact hwalk

/-- What is below a table of a tree is a tree. -/
theorem Branching.below {i : ι} (hb : Branching child mem (Follows idx (d + 1)) (Follows idx (d + 1)) t) (hi : i ∈ idx d)
    (hc : child (mem t i) = some c) : Branching child mem (Follows idx d) (Follows idx d) c := by
  intro P Q u hP hQ hPu hQu
  have heq := hb (i :: P) (i :: Q) u ⟨hi, hP⟩ ⟨hi, hQ⟩ (walk_cons_of_child hc hPu) (walk_cons_of_child hc hQu)
  exact (List.cons.inj heq).2

/-- The root of a tree is not below itself. -/
theorem Branching.not_mem_collect (hb : Branching child mem (Follows idx d) (Follows idx d) t) :
    t ∉ collect child mem idx d t := by
  intro hmem
  obtain ⟨P, hne, hP, hwalk⟩ := mem_collect.mp hmem
  exact hne (hb P [] t hP (follows_nil idx d) hwalk rfl)

/-- In a tree every table is gathered once. -/
theorem nodup_collect (hidx : ∀ k, (idx k).Nodup) (hb : Branching child mem (Follows idx d) (Follows idx d) t) :
    (collect child mem idx d t).Nodup := by
  induction d generalizing t with
  | zero => exact List.nodup_nil
  | succ d ih =>
    rw [collect, List.nodup_flatMap]
    refine ⟨fun i hi => ?_, (hidx d).imp_of_mem fun {i j} hi hj hij => ?_⟩
    · cases hc : child (mem t i) with
      | none => exact List.nodup_nil
      | some c =>
        have hbc := hb.below hi hc
        show (collect child mem idx d c ++ [c]).Nodup
        rw [List.nodup_append]
        refine ⟨ih hbc, List.nodup_singleton c, fun x hx y hy hxy => ?_⟩
        rw [List.mem_singleton] at hy
        rw [hxy, hy] at hx
        exact hbc.not_mem_collect hx
    · show List.Disjoint _ _
      intro x hxi hxj
      have hpath : ∀ k ∈ idx d, x ∈ (match child (mem t k) with
          | none => []
          | some c => collect child mem idx d c ++ [c]) →
          ∃ P, Follows idx d P ∧ walk child mem (k :: P) t = some x := by
        intro k _ hxk
        cases hc : child (mem t k) with
        | none =>
          rw [hc] at hxk
          cases hxk
        | some c =>
          rw [hc] at hxk
          rcases List.mem_append.mp hxk with hxk | hxk
          · obtain ⟨P, -, hP, hwalk⟩ := mem_collect.mp hxk
            exact ⟨P, hP, walk_cons_of_child hc hwalk⟩
          · exact ⟨[], follows_nil idx d, walk_cons_of_child hc (by rw [List.mem_singleton.mp hxk]; rfl)⟩
      obtain ⟨P, hP, hPx⟩ := hpath i hi hxi
      obtain ⟨Q, hQ, hQx⟩ := hpath j hj hxj
      exact hij (List.cons.inj (hb (i :: P) (j :: Q) x ⟨hi, hP⟩ ⟨hj, hQ⟩ hPx hQx)).1

end

end LizardOs.Lib
