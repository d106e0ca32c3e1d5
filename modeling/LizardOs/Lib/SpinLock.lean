import LizardOs.Lib.Steps
import Mathlib.Logic.Function.Basic

/-!
# Sections under a spin lock

Any number of threads make calls.  A call answers at once, or it takes the lock, works on the shared state step by step,
and gives the lock back.  The threads take turns in any order, one access at a time: `test_and_set`, a look at the lock
while it spins, a step of the section, the release.

In every interleaving the calls behave as if each of them had run alone, one behind the other, in the order in which they
gave the lock back (`LockState.linear`).
-/

namespace LizardOs.Lib

/-- What the calls do: the local state with which a section starts, or the answer of a call that needs no lock; and one step
of a section, which may fault. -/
structure Sections (σ κ ρ β : Type*) where
  start : κ → ρ ⊕ β
  step : ρ → σ → Option ((ρ ⊕ β) × σ)

variable {ι σ κ ρ β : Type*}

namespace Sections

variable (P : Sections σ κ ρ β)

/-- A section alone, for `n` steps at most. -/
def finish : ℕ → ρ → σ → Option (β × σ)
  | 0, _, _ => none
  | n + 1, r, s =>
      match P.step r s with
      | none => none
      | some (.inr b, s') => some (b, s')
      | some (.inl r', s') => finish n r' s'

/-- The section alone comes from one point to another. -/
def LeadsTo (r : ρ) (s : σ) (r' : ρ) (s' : σ) : Prop := ∃ k, ∀ n, P.finish (n + k) r s = P.finish n r' s'

variable {P} {r r' r'' : ρ} {s s' s'' : σ}

theorem LeadsTo.refl (r : ρ) (s : σ) : P.LeadsTo r s r s := ⟨0, fun _ => rfl⟩

theorem LeadsTo.trans (h : P.LeadsTo r s r' s') (h' : P.LeadsTo r' s' r'' s'') : P.LeadsTo r s r'' s'' := by
  obtain ⟨k, hk⟩ := h
  obtain ⟨k', hk'⟩ := h'
  refine ⟨k' + k, fun n => ?_⟩
  rw [← Nat.add_assoc, hk, hk']

theorem LeadsTo.one (h : P.step r s = some (.inl r', s')) : P.LeadsTo r s r' s' := by
  refine ⟨1, fun n => ?_⟩
  rw [finish, h]

theorem LeadsTo.answer {b : β} (h : P.LeadsTo r s r' s') (hb : P.step r' s' = some (.inr b, s'')) :
    ∃ n, P.finish n r s = some (b, s'') := by
  obtain ⟨k, hk⟩ := h
  refine ⟨1 + k, ?_⟩
  rw [hk, finish, hb]

/-- More steps change nothing. -/
theorem finish_add {n : ℕ} {x : β × σ} (h : P.finish n r s = some x) (k : ℕ) : P.finish (n + k) r s = some x := by
  induction n generalizing r s with
  | zero => cases h
  | succ n ih =>
    rw [Nat.succ_add]
    rw [finish] at h ⊢
    split at h
    · cases h
    · exact h
    · exact ih h

/-- A section has one outcome. -/
theorem finish_unique {n m : ℕ} {x y : β × σ} (hx : P.finish n r s = some x) (hy : P.finish m r s = some y) : x = y := by
  have hx' := finish_add hx m
  have hy' := finish_add hy n
  rw [Nat.add_comm] at hy'
  exact Option.some.inj (hx'.symm.trans hy')

/-- Calls that run one behind the other, with the threads that make them and their answers. -/
inductive Sequential (P : Sections σ κ ρ β) (s₀ : σ) : List (ι × κ × β) → σ → Prop
  | nil : Sequential P s₀ [] s₀
  | quick {l : List (ι × κ × β)} {s : σ} {i : ι} {c : κ} {b : β} :
      Sequential P s₀ l s → P.start c = .inr b → Sequential P s₀ (l ++ [(i, c, b)]) s
  | locked {l : List (ι × κ × β)} {s s' : σ} {i : ι} {c : κ} {r : ρ} {b : β} {n : ℕ} :
      Sequential P s₀ l s → P.start c = .inl r → P.finish n r s = some (b, s') →
        Sequential P s₀ (l ++ [(i, c, b)]) s'

end Sections

/-- Where a thread is. -/
inductive Phase (κ ρ β : Type*) where
  | idle
  | trying (c : κ)
  | spinning (c : κ)
  | inside (c : κ) (r : ρ)
  | leaving (c : κ) (b : β)

/-- The thread has the lock. -/
def Phase.Holds : Phase κ ρ β → Prop
  | .inside _ _ => True
  | .leaving _ _ => True
  | _ => False

/-- The lock, the shared state, the threads, and the calls that have returned. -/
structure LockState (ι σ κ ρ β : Type*) where
  locked : Bool
  shared : σ
  phase : ι → Phase κ ρ β
  log : List (ι × κ × β)

namespace LockState

/-- The start: no thread has made a call. -/
def init (s₀ : σ) : LockState ι σ κ ρ β := ⟨false, s₀, fun _ => .idle, []⟩

/-- The section of thread `i` has come to `S` from the state `base`. -/
def Working (P : Sections σ κ ρ β) (S : LockState ι σ κ ρ β) (base : σ) (i : ι) : Prop :=
  ∃ c r₀, P.start c = .inl r₀ ∧
    ((∃ r, S.phase i = .inside c r ∧ P.LeadsTo r₀ base r S.shared) ∨
      ∃ b n, S.phase i = .leaving c b ∧ P.finish n r₀ base = some (b, S.shared))

/-- The calls that have returned ran one behind the other up to `base`; the lock is free in this state, or one thread has
it and has come from there. -/
structure Linear (P : Sections σ κ ρ β) (s₀ : σ) (S : LockState ι σ κ ρ β) (base : σ) : Prop where
  sequential : P.Sequential s₀ S.log base
  free : S.locked = false → S.shared = base ∧ ∀ i, ¬(S.phase i).Holds
  held : S.locked = true → ∃ i, (∀ j, (S.phase j).Holds → j = i) ∧ S.Working P base i

variable {P : Sections σ κ ρ β} {s₀ base : σ} {S S' : LockState ι σ κ ρ β}

/-- The thread that has the lock, and the others. -/
theorem Linear.holder (h : Linear P s₀ S base) {i : ι} (hi : (S.phase i).Holds) :
    S.locked = true ∧ (∀ j, j ≠ i → ¬(S.phase j).Holds) ∧ S.Working P base i := by
  cases hlocked : S.locked with
  | false => exact absurd hi ((h.free hlocked).2 i)
  | true =>
    obtain ⟨k, hall, hwork⟩ := h.held hlocked
    obtain rfl := hall i hi
    exact ⟨rfl, fun j hj hh => hj (hall j hh), hwork⟩

/-- One thread has the lock, and has come to this state. -/
theorem linear_of_working {i : ι} (hseq : P.Sequential s₀ S.log base) (hlocked : S.locked = true)
    (hothers : ∀ j, j ≠ i → ¬(S.phase j).Holds) (hwork : S.Working P base i) : Linear P s₀ S base := by
  refine ⟨hseq, fun hfree => absurd (hfree.symm.trans hlocked) Bool.false_ne_true, fun _ => ⟨i, fun j hj => ?_, hwork⟩⟩
  by_contra hne
  exact hothers j hne hj

variable [DecidableEq ι]

def setPhase (S : LockState ι σ κ ρ β) (i : ι) (p : Phase κ ρ β) : LockState ι σ κ ρ β :=
  { S with phase := Function.update S.phase i p }

/-- One access of thread `i`; an idle thread makes the call `c`. -/
def step (P : Sections σ κ ρ β) (S : LockState ι σ κ ρ β) (a : ι × κ) : Option (LockState ι σ κ ρ β) :=
  match S.phase a.1 with
  | .idle => some (S.setPhase a.1 (.trying a.2))
  | .trying c =>
      match P.start c with
      | .inr b => some { S.setPhase a.1 .idle with log := S.log ++ [(a.1, c, b)] }
      | .inl r =>
          if S.locked then some (S.setPhase a.1 (.spinning c))
          else some { S.setPhase a.1 (.inside c r) with locked := true }
  | .spinning c => if S.locked then some S else some (S.setPhase a.1 (.trying c))
  | .inside c r =>
      match P.step r S.shared with
      | none => none
      | some (.inl r', s') => some { S.setPhase a.1 (.inside c r') with shared := s' }
      | some (.inr b, s') => some { S.setPhase a.1 (.leaving c b) with shared := s' }
  | .leaving c b => some { S.setPhase a.1 .idle with locked := false, log := S.log ++ [(a.1, c, b)] }

theorem setPhase_self (S : LockState ι σ κ ρ β) (i : ι) (p : Phase κ ρ β) : (S.setPhase i p).phase i = p :=
  Function.update_self ..

theorem setPhase_ne (S : LockState ι σ κ ρ β) {i j : ι} (h : j ≠ i) (p : Phase κ ρ β) :
    (S.setPhase i p).phase j = S.phase j := Function.update_of_ne h ..

/-- A thread without the lock goes on without it, and may have answered. -/
theorem Linear.waits (h : Linear P s₀ S base) {i : ι} (hi : ¬(S.phase i).Holds) {p : Phase κ ρ β} (hp : ¬p.Holds)
    {log : List (ι × κ × β)} (hlog : P.Sequential s₀ log base) :
    Linear P s₀ { S.setPhase i p with log := log } base := by
  have hothers : ∀ j, ((S.setPhase i p).phase j).Holds → j ≠ i ∧ (S.phase j).Holds := by
    intro j hj
    by_cases hji : j = i
    · rw [hji, setPhase_self] at hj
      exact absurd hj hp
    · rw [setPhase_ne S hji] at hj
      exact ⟨hji, hj⟩
  refine ⟨hlog, fun hfree => ⟨(h.free hfree).1, fun j hj => (h.free hfree).2 j (hothers j hj).2⟩, fun hheld => ?_⟩
  obtain ⟨k, hall, c, r₀, hstart, hwork⟩ := h.held hheld
  have hki : k ≠ i := by
    rintro rfl
    rcases hwork with ⟨r, hr, -⟩ | ⟨b, n, hb, -⟩
    · exact hi (hr ▸ trivial)
    · exact hi (hb ▸ trivial)
  refine ⟨k, fun j hj => hall j (hothers j hj).2, c, r₀, hstart, ?_⟩
  show (∃ r, (S.setPhase i p).phase k = _ ∧ _) ∨ ∃ b n, (S.setPhase i p).phase k = _ ∧ _
  rw [setPhase_ne S hki]
  exact hwork

/-- **One access** of any thread. -/
theorem Linear.step (h : Linear P s₀ S base) {a : ι × κ} (hstep : LockState.step P S a = some S') :
    ∃ base', Linear P s₀ S' base' := by
  obtain ⟨i, c'⟩ := a
  rw [LockState.step] at hstep
  cases hphase : S.phase i with
  | idle =>
    have hi : ¬(S.phase i).Holds := by
      rw [hphase]
      exact id
    simp only [hphase, Option.some.injEq] at hstep
    subst hstep
    exact ⟨base, h.waits hi id h.sequential⟩
  | trying c =>
    have hi : ¬(S.phase i).Holds := by
      rw [hphase]
      exact id
    simp only [hphase] at hstep
    cases hstart : P.start c with
    | inr b =>
      simp only [hstart, Option.some.injEq] at hstep
      subst hstep
      exact ⟨base, h.waits hi id (h.sequential.quick hstart)⟩
    | inl r =>
      simp only [hstart] at hstep
      cases hlocked : S.locked with
      | true =>
        simp only [hlocked, if_true, Option.some.injEq] at hstep
        subst hstep
        exact ⟨base, h.waits hi id h.sequential⟩
      | false =>
        simp only [hlocked, Bool.false_eq_true, if_false, Option.some.injEq] at hstep
        subst hstep
        obtain ⟨hshared, hnone⟩ := h.free hlocked
        refine ⟨base, linear_of_working h.sequential rfl (fun j hj => ?_)
          ⟨c, r, hstart, .inl ⟨r, setPhase_self .., ?_⟩⟩⟩
        · show ¬((S.setPhase i _).phase j).Holds
          rw [setPhase_ne S hj]
          exact hnone j
        · show P.LeadsTo r base r S.shared
          rw [hshared]
          exact .refl r base
  | spinning c =>
    have hi : ¬(S.phase i).Holds := by
      rw [hphase]
      exact id
    simp only [hphase] at hstep
    split at hstep
    · obtain rfl := Option.some.inj hstep
      exact ⟨base, h⟩
    · obtain rfl := Option.some.inj hstep
      exact ⟨base, h.waits hi id h.sequential⟩
  | inside c r =>
    obtain ⟨hlocked, hothers, c₀, r₀, hstart, hwork⟩ := h.holder (show (S.phase i).Holds by rw [hphase]; trivial)
    have hkeep : ∀ p j, j ≠ i → ¬((S.setPhase i p).phase j).Holds := by
      intro p j hj
      rw [setPhase_ne S hj]
      exact hothers j hj
    rcases hwork with ⟨r₁, hr₁, hleads⟩ | ⟨b, n, hb, -⟩
    · obtain ⟨rfl, rfl⟩ := Phase.inside.inj (hphase.symm.trans hr₁)
      simp only [hphase] at hstep
      split at hstep
      · cases hstep
      · rename_i r' s' hone
        obtain rfl := Option.some.inj hstep
        exact ⟨base, linear_of_working h.sequential hlocked (hkeep _)
          ⟨c, r₀, hstart, .inl ⟨r', setPhase_self .., hleads.trans (.one hone)⟩⟩⟩
      · rename_i b s' hone
        obtain rfl := Option.some.inj hstep
        obtain ⟨n, hn⟩ := hleads.answer hone
        exact ⟨base, linear_of_working h.sequential hlocked (hkeep _)
          ⟨c, r₀, hstart, .inr ⟨b, n, setPhase_self .., hn⟩⟩⟩
    · cases hphase.symm.trans hb
  | leaving c b =>
    obtain ⟨hlocked, hothers, c₀, r₀, hstart, hwork⟩ := h.holder (show (S.phase i).Holds by rw [hphase]; trivial)
    rcases hwork with ⟨r, hr, -⟩ | ⟨b₁, n, hb, hfinish⟩
    · cases hphase.symm.trans hr
    · obtain ⟨rfl, rfl⟩ := Phase.leaving.inj (hphase.symm.trans hb)
      simp only [hphase, Option.some.injEq] at hstep
      subst hstep
      refine ⟨S.shared, h.sequential.locked hstart hfinish, fun _ => ⟨rfl, fun j hj => ?_⟩, fun hheld => ?_⟩
      · by_cases hji : j = i
        · have hidle : (S.setPhase i .idle).phase j = .idle := by rw [hji, setPhase_self]
          exact (hidle ▸ hj : (Phase.idle : Phase κ ρ β).Holds)
        · have hsame : (S.setPhase i .idle).phase j = S.phase j := setPhase_ne S hji _
          exact hothers j hji (hsame ▸ hj)
      · cases hheld

/-- **Linearisation.** Whatever the threads do, the calls that have returned gave the answers of some run without
interleaving, in the order in which they gave the lock back; and only one thread at a time has the lock. -/
theorem linear {s₀ : σ} {S : LockState ι σ κ ρ β} (h : Reaches (fun S a S' => LockState.step P S a = some S') (init s₀) S) :
    ∃ base, Linear P s₀ S base := by
  refine h.invariant (I := fun S => ∃ base, Linear P s₀ S base) ⟨s₀, .nil, fun _ => ⟨rfl, fun _ => id⟩, fun h => ?_⟩ ?_
  · cases h
  · rintro S a S' ⟨base, hlin⟩ hstep
    exact hlin.step hstep

end LockState

end LizardOs.Lib
