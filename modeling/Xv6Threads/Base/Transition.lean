-- SUMMARY: Labelled transition systems and the invariant rule for runs whose steps meet a condition.
import Mathlib.Logic.Basic

/-!
# Transition systems

A system is given by its initial states and its labelled steps. What holds of
runs may depend on the steps taken: `Reaches G` collects the states reached by
runs in which every step, at the state where it is taken, meets `G`. The rule
`Reaches.invariant` is the induction over runs.
-/

/-- A labelled transition system. -/
structure Lts (σ ε : Type) where
  init : σ → Prop
  step : σ → ε → σ → Prop

namespace Lts

variable {σ ε : Type} (M : Lts σ ε)

/-- The states reached by runs all of whose steps meet `G`. -/
inductive Reaches (G : σ → ε → Prop) : σ → Prop
  | init {s : σ} : M.init s → Reaches G s
  | step {s s' : σ} {e : ε} : Reaches G s → G s e → M.step s e s' → Reaches G s'

variable {M}

/-- What holds initially and is kept by every step that meets the condition
holds in every state reached. -/
theorem Reaches.invariant {G : σ → ε → Prop} {P : σ → Prop}
    (hinit : ∀ s, M.init s → P s)
    (hstep : ∀ s e s', P s → G s e → M.step s e s' → P s')
    {s : σ} (h : M.Reaches G s) : P s := by
  induction h with
  | init hs => exact hinit _ hs
  | step _ hG hse ih => exact hstep _ _ _ ih hG hse

/-- A stronger condition on the steps reaches fewer states. -/
theorem Reaches.mono {G G' : σ → ε → Prop} (hG : ∀ s e, G s e → G' s e)
    {s : σ} (h : M.Reaches G s) : M.Reaches G' s := by
  induction h with
  | init hs => exact .init hs
  | step _ hg hse ih => exact .step ih (hG _ _ hg) hse

/-! ## Replaying

A system whose steps are computed by a function can be run on a list of labels. -/

/-- The state after the events, if each of them can be taken and meets `G`. -/
def replay (f : σ → ε → Option σ) (G : σ → ε → Prop) [∀ s e, Decidable (G s e)] (s : σ) : List ε → Option σ
  | [] => some s
  | e :: es => if G s e then (f s e).bind fun s' => replay f G s' es else none

/-- A replayed run takes events of the list only, so that a condition on these is enough. -/
theorem Reaches.of_replay_mem {f : σ → ε → Option σ} {G G' : σ → ε → Prop} [∀ s e, Decidable (G s e)]
    (hf : ∀ s e s', f s e = some s' → M.step s e s') {s s' : σ} {es : List ε}
    (hG : ∀ s, ∀ e ∈ es, G s e → G' s e) (hs : M.Reaches G' s) (hrun : replay f G s es = some s') :
    M.Reaches G' s' := by
  induction es generalizing s with
  | nil =>
    obtain rfl := Option.some.inj hrun
    exact hs
  | cons e es ih =>
    rw [replay] at hrun
    split at hrun
    · rename_i he
      obtain ⟨s₁, hs₁, hrun⟩ := Option.bind_eq_some_iff.1 hrun
      have hG' : ∀ s, ∀ e ∈ es, G s e → G' s e := fun s e hmem => hG s e (List.mem_cons_of_mem _ hmem)
      exact ih hG' (.step hs (hG s e List.mem_cons_self he) (hf s e s₁ hs₁)) hrun
    · cases hrun

theorem Reaches.of_replay {f : σ → ε → Option σ} {G : σ → ε → Prop} [∀ s e, Decidable (G s e)]
    (hf : ∀ s e s', f s e = some s' → M.step s e s') {s s' : σ} {es : List ε} (hs : M.Reaches G s)
    (hrun : replay f G s es = some s') : M.Reaches G s' :=
  .of_replay_mem hf (fun _ _ _ h => h) hs hrun

/-! ## Histories

A value computed along the run, that the steps themselves do not look at. -/

/-- The system with a history that starts as `h₀` and is updated by every step
from the state where it is taken. -/
def withHistory {η : Type} (M : Lts σ ε) (h₀ : η) (record : σ → ε → η → η) : Lts (σ × η) ε where
  init s := M.init s.1 ∧ s.2 = h₀
  step s e s' := M.step s.1 e s'.1 ∧ s'.2 = record s.1 e s.2

/-- A computed step, with its history. -/
def recorded {η : Type} (f : σ → ε → Option σ) (record : σ → ε → η → η) (s : σ × η) (e : ε) : Option (σ × η) :=
  (f s.1 e).map fun s' => (s', record s.1 e s.2)

theorem step_of_recorded {η : Type} {f : σ → ε → Option σ} {record : σ → ε → η → η} {h₀ : η}
    (hf : ∀ s e s', f s e = some s' → M.step s e s') {s s' : σ × η} {e : ε} (h : recorded f record s e = some s') :
    (M.withHistory h₀ record).step s e s' := by
  obtain ⟨s₁, hs₁, rfl⟩ := Option.map_eq_some_iff.1 h
  exact ⟨hf _ _ _ hs₁, rfl⟩

/-- Every run has a history. -/
theorem Reaches.exists_history {η : Type} {G : σ → ε → Prop} {s : σ} (h : M.Reaches G s)
    (h₀ : η) (record : σ → ε → η → η) :
    ∃ η, (M.withHistory h₀ record).Reaches (fun s => G s.1) (s, η) := by
  induction h with
  | init hs => exact ⟨h₀, .init ⟨hs, rfl⟩⟩
  | step _ hG hse ih =>
    obtain ⟨η, hη⟩ := ih
    exact ⟨_, .step hη hG ⟨hse, rfl⟩⟩

/-! ## Sections

A part of the run that is looked at as one step: its inner states are passed
through, not stopped at. -/

/-- The runs of `M` that go on from `s` through states in `inner`, with any
number of steps. -/
inductive Passes (M : Lts σ ε) (inner : σ → Prop) (s : σ) : σ → Prop
  | one {s' : σ} {e : ε} : M.step s e s' → Passes M inner s s'
  | more {s' s'' : σ} {e : ε} : Passes M inner s s' → inner s' → M.step s' e s'' → Passes M inner s s''

/-- The system whose steps lead from one state outside `inner` to the next. -/
def sections (M : Lts σ ε) (inner : σ → Prop) : Lts σ Unit where
  init s := M.init s ∧ ¬ inner s
  step s _ s' := M.Passes inner s s' ∧ ¬ inner s'

/-- What is reached by whole sections is reached by steps, and is not inside one. -/
theorem Reaches.of_sections {inner : σ → Prop} {G : σ → Unit → Prop} {s : σ}
    (h : (M.sections inner).Reaches G s) : M.Reaches (fun _ _ => True) s ∧ ¬ inner s := by
  induction h with
  | init hs => exact ⟨.init hs.1, hs.2⟩
  | step _ _ hpass ih =>
    obtain ⟨hpass, hout⟩ := hpass
    refine ⟨?_, hout⟩
    clear hout
    induction hpass with
    | one hse => exact .step ih.1 trivial hse
    | more _ _ hse ih' => exact .step ih' trivial hse

/-- The other way round: a run stops at every state outside a section. -/
theorem Reaches.to_sections {inner : σ → Prop} (hinit : ∀ s, M.init s → ¬ inner s) {s : σ}
    {G : σ → ε → Prop} (h : M.Reaches G s) (hout : ¬ inner s) :
    (M.sections inner).Reaches (fun _ _ => True) s := by
  -- a state inside a section has been entered from a state outside
  have hfrom : (¬ inner s ∧ (M.sections inner).Reaches (fun _ _ => True) s) ∨
      (inner s ∧ ∃ s₀, (M.sections inner).Reaches (fun _ _ => True) s₀ ∧ M.Passes inner s₀ s) := by
    clear hout
    induction h with
    | init hs => exact .inl ⟨hinit _ hs, .init ⟨hs, hinit _ hs⟩⟩
    | @step s s' e _ _ hse ih =>
      obtain ⟨s₀, hs₀, hpass⟩ : ∃ s₀, (M.sections inner).Reaches (fun _ _ => True) s₀ ∧ M.Passes inner s₀ s' := by
        rcases ih with ⟨-, hs⟩ | ⟨hin, s₀, hs₀, hpass⟩
        · exact ⟨s, hs, .one hse⟩
        · exact ⟨s₀, hs₀, .more hpass hin hse⟩
      by_cases hin : inner s'
      · exact .inr ⟨hin, s₀, hs₀, hpass⟩
      · exact .inl ⟨hin, .step hs₀ trivial (e := ()) ⟨hpass, hin⟩⟩
  rcases hfrom with ⟨-, hs⟩ | ⟨hin, -⟩
  · exact hs
  · exact absurd hin hout

end Lts
