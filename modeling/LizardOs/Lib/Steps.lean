import Mathlib.Data.Nat.Basic

/-!
# Step relations and what holds along their runs

A step relation says which state each action may lead to.  `Reaches` collects the states of all runs from a
start state; an invariant is proved for the start and for one step.
-/

namespace LizardOs.Lib

variable {σ α : Type*} {step : σ → α → σ → Prop}

/-- The states some sequence of steps leads to. -/
inductive Reaches (step : σ → α → σ → Prop) (s₀ : σ) : σ → Prop
  | start : Reaches step s₀ s₀
  | next {s s' : σ} {a : α} : Reaches step s₀ s → step s a s' → Reaches step s₀ s'

/-- What holds at the start and survives one step holds in every state reached. -/
theorem Reaches.invariant {s₀ s : σ} {I : σ → Prop} (h : Reaches step s₀ s) (hstart : I s₀)
    (hstep : ∀ s a s', I s → step s a s' → I s') : I s := by
  induction h with
  | start => exact hstart
  | next _ hs ih => exact hstep _ _ _ ih hs

/-- A run from `s` to `s'`, with the states it passes and the steps it takes there. -/
inductive Trace (step : σ → α → σ → Prop) (s : σ) : List (σ × α) → σ → Prop
  | nil : Trace step s [] s
  | snoc {l : List (σ × α)} {s₁ s₂ : σ} {a : α} :
      Trace step s l s₁ → step s₁ a s₂ → Trace step s (l ++ [(s₁, a)]) s₂

/-- What holds at the start of a run and survives each of its steps holds at its end. -/
theorem Trace.invariant {s s' : σ} {l : List (σ × α)} {I : σ → Prop} (h : Trace step s l s') (hstart : I s)
    (hstep : ∀ x ∈ l, ∀ s₂, I x.1 → step x.1 x.2 s₂ → I s₂) : I s' := by
  induction h with
  | nil => exact hstart
  | @snoc l s₁ s₂ a hl hs ih =>
    have hprev : I s₁ := ih fun x hx => hstep x (List.mem_append_left _ hx)
    exact hstep (s₁, a) (by simp) s₂ hprev hs

/-- When the steps that keep an invariant are known exactly, so are the runs that keep it in every state. -/
theorem Trace.invariant_iff {s s' : σ} {l : List (σ × α)} {I : σ → Prop} {K : σ → α → Prop} (h : Trace step s l s')
    (hstart : I s) (hstep : ∀ s₁ a s₂, I s₁ → step s₁ a s₂ → (K s₁ a ↔ I s₂)) :
    (∀ x ∈ l, K x.1 x.2) ↔ (∀ x ∈ l, I x.1) ∧ I s' := by
  induction h with
  | nil => exact ⟨fun _ => ⟨fun x hx => absurd hx List.not_mem_nil, hstart⟩, fun _ x hx => absurd hx List.not_mem_nil⟩
  | @snoc l s₁ s₂ a hl hs ih =>
    have hlast : ∀ P : σ × α → Prop, (∀ x ∈ l ++ [(s₁, a)], P x) ↔ (∀ x ∈ l, P x) ∧ P (s₁, a) := by
      intro P
      simp only [List.mem_append, List.mem_singleton, or_imp, forall_and, forall_eq]
    rw [hlast fun x => K x.1 x.2, hlast fun x => I x.1, ih]
    constructor
    · rintro ⟨⟨hall, h₁⟩, hok⟩
      exact ⟨⟨hall, h₁⟩, (hstep s₁ a s₂ h₁ hs).mp hok⟩
    · rintro ⟨⟨hall, h₁⟩, h₂⟩
      exact ⟨⟨hall, h₁⟩, (hstep s₁ a s₂ h₁ hs).mpr h₂⟩

/-- **Counted steps lower a rank.**  When each counted step lowers a rank that the other steps raise only where they
are charged for it, and then by at most `c`, the steps counted in a run are no more than the rank at its start and the
charges pay for. -/
theorem Trace.rank {s s' : σ} {l : List (σ × α)} {I : σ → Prop} {rank : σ → ℕ} {counted charged : σ × α → Bool}
    {c : ℕ} (h : Trace step s l s') (hstart : I s)
    (hstep : ∀ x ∈ l, ∀ s₂, I x.1 → step x.1 x.2 s₂ →
      I s₂ ∧ rank s₂ + (counted x).toNat ≤ rank x.1 + c * (charged x).toNat) :
    I s' ∧ rank s' + l.countP counted ≤ rank s + c * l.countP charged := by
  induction h with
  | nil => exact ⟨hstart, by simp⟩
  | @snoc l s₁ s₂ a hl hs ih =>
    obtain ⟨hprev, hle⟩ := ih fun x hx => hstep x (List.mem_append_left _ hx)
    obtain ⟨hnext, hone⟩ := hstep (s₁, a) (by simp) s₂ hprev hs
    have hcount : ∀ P : σ × α → Bool, (l ++ [(s₁, a)]).countP P = l.countP P + (P (s₁, a)).toNat := by
      intro P
      rw [List.countP_append, List.countP_singleton]
      cases P (s₁, a) <;> rfl
    refine ⟨hnext, ?_⟩
    rw [hcount, hcount, Nat.mul_add]
    simp only at hone
    omega

/-- The end of a run from a state that is reached is reached. -/
theorem Trace.reaches {s₀ s s' : σ} {l : List (σ × α)} (h : Trace step s l s') (hs : Reaches step s₀ s) :
    Reaches step s₀ s' := by
  induction h with
  | nil => exact hs
  | snoc _ hstep ih => exact .next ih hstep

/-! ### Running a list of steps -/

section Exec

variable (exec : σ → α → Option σ)

/-- Take steps one after another, and give the states passed with the steps taken there. -/
def runSteps (s : σ) : List α → Option (List (σ × α) × σ)
  | [] => some ([], s)
  | a :: as =>
      match exec s a with
      | none => none
      | some s' =>
          match runSteps s' as with
          | none => none
          | some (l, s'') => some ((s, a) :: l, s'')

/-- The states passed by steps that can all be taken. -/
def runPassed (s : σ) (as : List α) : List (σ × α) := ((runSteps exec s as).map Prod.fst).getD []

/-- The last state of steps that can all be taken. -/
def runLast (s : σ) (as : List α) : σ := ((runSteps exec s as).map Prod.snd).getD s

variable {exec}

theorem trace_of_runSteps {s s' : σ} {as : List α} {l : List (σ × α)} (h : runSteps exec s as = some (l, s')) :
    Trace (fun s a s' => exec s a = some s') s l s' := by
  have hall : ∀ (as : List α) (s₀ s : σ) (l₀ l : List (σ × α)), Trace (fun s a s' => exec s a = some s') s₀ l₀ s →
      runSteps exec s as = some (l, s') → Trace (fun s a s' => exec s a = some s') s₀ (l₀ ++ l) s' := by
    intro as
    induction as with
    | nil =>
      intro s₀ s l₀ l h₀ h
      simp only [runSteps, Option.some.injEq, Prod.mk.injEq] at h
      obtain ⟨rfl, rfl⟩ := h
      rw [List.append_nil]
      exact h₀
    | cons a as ih =>
      intro s₀ s l₀ l h₀ h
      rw [runSteps] at h
      split at h
      · cases h
      · rename_i s₁ hexec
        split at h
        · cases h
        · rename_i l₁ s₂ hrest
          simp only [Option.some.injEq, Prod.mk.injEq] at h
          obtain ⟨rfl, rfl⟩ := h
          have := ih s₀ s₁ (l₀ ++ [(s, a)]) l₁ (h₀.snoc hexec) hrest
          rwa [List.append_assoc] at this
  exact hall as s s [] l .nil h

/-- Steps that can all be taken are a run. -/
theorem trace_runLast {s : σ} {as : List α} (h : (runSteps exec s as).isSome = true) :
    Trace (fun s a s' => exec s a = some s') s (runPassed exec s as) (runLast exec s as) := by
  obtain ⟨⟨l, s'⟩, hsteps⟩ := Option.isSome_iff_exists.mp h
  rw [runPassed, runLast, hsteps]
  exact trace_of_runSteps hsteps

end Exec

/-! ### Machines that answer -/

section Calls

variable {τ β : Type*}

/-- Make calls one after another: the answers and the last state. -/
def runCalls (exec : α → σ → β × σ) : List α → σ → List β × σ
  | [], s => ([], s)
  | a :: as, s => ((exec a s).1 :: (runCalls exec as (exec a s).2).1, (runCalls exec as (exec a s).2).2)

/-- A condition on each call and the state before it. -/
def Along (exec : α → σ → β × σ) (ok : σ → α → Prop) : List α → σ → Prop
  | [], _ => True
  | a :: as, s => ok s a ∧ Along exec ok as (exec a s).2

variable {exec : α → σ → β × σ} {spec : α → τ → β × τ} {R Q : σ → τ → Prop} {proper ok : τ → α → Prop}

/-- Two machines that a relation holds together answer alike along every run. -/
theorem runCalls_agree
    (hstep : ∀ s t a, R s t → (exec a s).1 = (spec a t).1 ∧ R (exec a s).2 (spec a t).2) (as : List α) {s : σ} {t : τ}
    (h : R s t) : (runCalls exec as s).1 = (runCalls spec as t).1 ∧ R (runCalls exec as s).2 (runCalls spec as t).2 := by
  induction as generalizing s t with
  | nil => exact ⟨rfl, h⟩
  | cons a as ih =>
    obtain ⟨hfirst, hnext⟩ := hstep s t a h
    obtain ⟨hrest, hend⟩ := ih hnext
    exact ⟨congrArg₂ List.cons hfirst hrest, hend⟩

/-- Two machines that a relation holds together: when it is known which calls keep them together, they answer alike and
look alike after every part of a run exactly when the run has such calls only. -/
theorem runCalls_agree_iff (hQ : ∀ s t, R s t → Q s t)
    (hok : ∀ s t a, R s t → proper t a → ok t a → (exec a s).1 = (spec a t).1 ∧ R (exec a s).2 (spec a t).2)
    (hbad : ∀ s t a, R s t → proper t a → ¬ok t a → (exec a s).1 = (spec a t).1 → ¬Q (exec a s).2 (spec a t).2)
    (as : List α) {s : σ} {t : τ} (h : R s t) (hproper : Along spec proper as t) :
    (∀ n, (runCalls exec (as.take n) s).1 = (runCalls spec (as.take n) t).1 ∧
        Q (runCalls exec (as.take n) s).2 (runCalls spec (as.take n) t).2) ↔ Along spec ok as t := by
  induction as generalizing s t with
  | nil =>
    refine ⟨fun _ => trivial, fun _ n => ?_⟩
    rw [List.take_nil]
    exact ⟨rfl, hQ s t h⟩
  | cons a as ih =>
    obtain ⟨ha, hrest⟩ := hproper
    constructor
    · intro hall
      have hfirst : (exec a s).1 = (spec a t).1 := (List.cons.inj (hall 1).1).1
      have hgood : ok t a := by
        by_contra hno
        exact hbad s t a h ha hno hfirst (hall 1).2
      refine ⟨hgood, (ih (hok s t a h ha hgood).2 hrest).mp fun n => ?_⟩
      obtain ⟨hanswers, hlook⟩ := hall (n + 1)
      exact ⟨(List.cons.inj hanswers).2, hlook⟩
    · rintro ⟨hgood, halong⟩ n
      obtain ⟨hfirst, hnext⟩ := hok s t a h ha hgood
      cases n with
      | zero => exact ⟨rfl, hQ s t h⟩
      | succ n =>
        obtain ⟨hanswers, hlook⟩ := (ih hnext hrest).mpr halong n
        exact ⟨congrArg₂ List.cons hfirst hanswers, hlook⟩

end Calls

end LizardOs.Lib
