import LizardOs.Lib.Prog

/-!
# Routines built from allowed steps

What a routine passes to its device is a matter of the steps it is made of, whatever the device answers.
`Built look sees step Q m` certifies that `m` is put together, by sequencing, case distinctions and looks at a part of
the state, from steps that `step` allows, and that its answer satisfies `Q`; `step` also says what each step may answer.
What every allowed step does to the state, every routine built from them does (`Built.run`), and a relation between two
states that every allowed step keeps is kept by two runs of the routine (`Built.alike`).

Nothing here knows which program it runs.
-/

namespace LizardOs.Lib

variable {σ ν : Type}

/-- A set of steps: which routines are allowed, with what their answers satisfy. -/
abbrev StepSet (σ : Type) := ∀ α : Type, (α → Prop) → Prog σ α → Prop

/-- The routine is built from steps of the set, as long as the state is one that `sees` describes.  Between the steps it
goes by what `look` shows of the state. -/
inductive Built (look : σ → ν) (sees : σ → Prop) (step : StepSet σ) : {α : Type} → (α → Prop) → Prog σ α → Prop
  | pure {α : Type} {Q : α → Prop} {a : α} (h : Q a) : Built look sees step Q (Pure.pure a)
  | diverge {α : Type} {Q : α → Prop} : Built look sees step Q (Prog.diverge : Prog σ α)
  | get {α : Type} {Q : α → Prop} {f : σ → Prog σ α} (hf : ∀ s t, look s = look t → f s = f t)
      (h : ∀ s, sees s → Built look sees step Q (f s)) : Built look sees step Q (Prog.get >>= f)
  | step {α : Type} {Q : α → Prop} {m : Prog σ α} (h : step α Q m) : Built look sees step Q m
  | bind {α β : Type} {P : α → Prop} {Q : β → Prop} {m : Prog σ α} {f : α → Prog σ β} (hm : Built look sees step P m)
      (hf : ∀ a, P a → Built look sees step Q (f a)) : Built look sees step Q (m >>= f)

/-- Two runs end alike: neither returns, or both do, with one answer and related states. -/
inductive Alike {α : Type} (R : σ → σ → Prop) : Option (α × σ) → Option (α × σ) → Prop
  | never : Alike R none none
  | answer {a : α} {s t : σ} (h : R s t) : Alike R (some (a, s)) (some (a, t))

namespace Built

variable {look : σ → ν} {sees : σ → Prop} {step : StepSet σ} {α : Type} {P Q : α → Prop}

theorem ite {c : Prop} [Decidable c] {p q : Prog σ α} (hp : c → Built look sees step Q p)
    (hq : ¬c → Built look sees step Q q) : Built look sees step Q (if c then p else q) := by
  split
  · exact hp ‹_›
  · exact hq ‹_›

theorem imp {m : Prog σ α} (h : Built look sees step P m) (himp : ∀ a, P a → Q a) : Built look sees step Q m := by
  have hbind := Built.bind h fun a ha => Built.pure (himp a ha)
  rwa [Prog.bind_pure] at hbind

/-- **What every step keeps, the routine keeps**, and its answer is as certified. -/
theorem run {R : σ → σ → Prop} (hrefl : ∀ s, R s s) (htrans : ∀ s t u, R s t → R t u → R s u)
    (hsees : ∀ s t, R s t → sees s → sees t)
    (hstep : ∀ {α : Type} {Q : α → Prop} {m : Prog σ α}, step α Q m → ∀ s a t, sees s → m s = some (a, t) → R s t ∧ Q a)
    {m : Prog σ α} (h : Built look sees step Q m) : ∀ s a t, sees s → m s = some (a, t) → R s t ∧ Q a := by
  induction h with
  | pure h =>
    intro s a t _ hrun
    rw [Prog.pure_apply, Option.some.injEq, Prod.mk.injEq] at hrun
    obtain ⟨rfl, rfl⟩ := hrun
    exact ⟨hrefl _, h⟩
  | diverge =>
    intro s a t _ hrun
    cases hrun
  | get _ _ ih =>
    intro s a t hs hrun
    exact ih s hs s a t hs hrun
  | step h => exact hstep h
  | bind _ _ ihm ihf =>
    intro s b u hs hrun
    obtain ⟨a, t, hm, hf⟩ := Prog.bind_eq_some.mp hrun
    obtain ⟨hst, ha⟩ := ihm s a t hs hm
    obtain ⟨htu, hb⟩ := ihf a ha t b u (hsees s t hst hs) hf
    exact ⟨htrans s t u hst htu, hb⟩

/-- **Two runs from related states end alike**, if every step does so. -/
theorem alike {R : σ → σ → Prop} (hlook : ∀ s t, R s t → look s = look t)
    (hkeep : ∀ {α : Type} {Q : α → Prop} {m : Prog σ α}, step α Q m → ∀ s a t, sees s → m s = some (a, t) →
      sees t ∧ Q a)
    (hstep : ∀ {α : Type} {Q : α → Prop} {m : Prog σ α}, step α Q m → ∀ s t, sees s → sees t → R s t →
      Alike R (m s) (m t))
    {m : Prog σ α} (h : Built look sees step Q m) : ∀ s t, sees s → sees t → R s t → Alike R (m s) (m t) := by
  induction h with
  | pure h => exact fun s t _ _ hst => .answer hst
  | diverge => exact fun s t _ _ _ => .never
  | @get _ _ f hf _ ih =>
    intro s t hs ht hst
    show Alike R (f s s) (f t t)
    rw [← hf s t (hlook s t hst)]
    exact ih s hs s t hs ht hst
  | step h => exact hstep h
  | @bind _ _ _ _ m f hm _ ihm ihf =>
    intro s t hs ht hst
    have halike := ihm s t hs ht hst
    have hrun : ∀ s a s', sees s → m s = some (a, s') → (sees s → sees s') ∧ _ :=
      hm.run (fun _ h => h) (fun _ _ _ h h' hs => h' (h hs)) (fun _ _ h => h) fun hstep s a s' hs hrun =>
        ⟨fun _ => (hkeep hstep s a s' hs hrun).1, (hkeep hstep s a s' hs hrun).2⟩
    have hs' := fun a s' => hrun s a s' hs
    have ht' := fun a t' => hrun t a t' ht
    rw [Prog.bind_apply, Prog.bind_apply]
    generalize m s = x at halike hs' ⊢
    generalize m t = y at halike ht' ⊢
    cases halike with
    | never => exact .never
    | answer hR => exact ihf _ (hs' _ _ rfl).2 _ _ ((hs' _ _ rfl).1 hs) ((ht' _ _ rfl).1 ht) hR

end Built

end LizardOs.Lib
