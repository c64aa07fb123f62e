-- SUMMARY: Inversion of computations that may stop with an error.
import Mathlib.Logic.Basic
import Mathlib.Data.List.Basic

/-!
# Computations that may stop

Inversion lemmas for `Except`: what is known about a computation once it has
returned. They are used to take a `do` block apart with `obtain`, without
unfolding the monad.
-/

namespace Except

variable {ε α β : Type}

theorem bind_ok_iff {x : Except ε α} {f : α → Except ε β} {b : β} :
    (x >>= f) = .ok b ↔ ∃ a, x = .ok a ∧ f a = .ok b := by
  cases x <;> simp [bind, Except.bind]

theorem pure_ok_iff {a b : α} : (pure a : Except ε α) = .ok b ↔ a = b := by
  simp [pure, Except.pure]

theorem toOption_eq_some_iff {x : Except ε α} {a : α} : x.toOption = some a ↔ x = .ok a := by
  cases x <;> simp [Except.toOption]

/-- A property kept by every round of a loop that returns holds at its end. -/
theorem foldlM_invariant {P : β → Prop} {f : β → α → Except ε β} {l : List α}
    (hstep : ∀ a ∈ l, ∀ b b', P b → f b a = .ok b' → P b') {b b' : β}
    (hb : P b) (h : l.foldlM f b = .ok b') : P b' := by
  induction l generalizing b with
  | nil =>
    rw [List.foldlM_nil, pure_ok_iff] at h
    exact h ▸ hb
  | cons a l ih =>
    rw [List.foldlM_cons, bind_ok_iff] at h
    obtain ⟨c, hc, h⟩ := h
    have hP : P c := hstep a (by simp) b c hb hc
    exact ih (fun x hx => hstep x (by simp [hx])) hP h

/-! ## What a computation returns -/

/-- Every result of `x` satisfies `P`. -/
def Yields (x : Except ε α) (P : α → Prop) : Prop := ∀ a, x = .ok a → P a

section

variable {P : α → Prop} {Q : β → Prop}

theorem yields_ok {a : α} (h : P a) : Yields (.ok a : Except ε α) P := by
  rintro _ ⟨⟩
  exact h

theorem yields_error {e : ε} : Yields (.error e : Except ε α) P := nofun

theorem Yields.bind {x : Except ε α} {f : α → Except ε β} (hx : x.Yields P)
    (hf : ∀ a, P a → (f a).Yields Q) : (x >>= f).Yields Q := by
  intro b h
  obtain ⟨a, ha, hb⟩ := bind_ok_iff.1 h
  exact hf a (hx a ha) b hb

/-- `x` returns, with a result that satisfies `P`. -/
def Returns (x : Except ε α) (P : α → Prop) : Prop := ∃ a, x = .ok a ∧ P a

theorem Returns.bind {x : Except ε α} {f : α → Except ε β} (hx : x.Returns P)
    (hf : ∀ a, P a → (f a).Returns Q) : (x >>= f).Returns Q := by
  obtain ⟨a, ha, hP⟩ := hx
  obtain ⟨b, hb, hQ⟩ := hf a hP
  exact ⟨b, bind_ok_iff.2 ⟨a, ha, hb⟩, hQ⟩

theorem Returns.foldlM {f : α → β → Except ε α} (hf : ∀ a b, P a → (f a b).Returns P) (l : List β) {a : α}
    (ha : P a) : (l.foldlM f a).Returns P := by
  induction l generalizing a with
  | nil => exact ⟨a, rfl, ha⟩
  | cons b l ih => exact (hf a b ha).bind fun _ => ih

/-- A loop that returns is followed, round by round, by the same loop from a
related start. -/
theorem foldlM_follows {f : α → β → Except ε α} {R : α → α → Prop}
    (hf : ∀ b a₁ a₂ a₃, R a₁ a₂ → f a₁ b = .ok a₃ → (f a₂ b).Returns (R a₃)) {l : List β} {a₁ a₂ a₃ : α}
    (h : R a₁ a₂) (hl : l.foldlM f a₁ = .ok a₃) : (l.foldlM f a₂).Returns (R a₃) := by
  induction l generalizing a₁ a₂ with
  | nil =>
    cases hl
    exact ⟨a₂, rfl, h⟩
  | cons b l ih =>
    obtain ⟨a, hb, hrest⟩ := bind_ok_iff.1 hl
    exact (hf b a₁ a₂ a h hb).bind fun _ ha => ih ha hrest

theorem Yields.foldlM {f : α → β → Except ε α} (hf : ∀ a b, P a → (f a b).Yields P) (l : List β) {a : α}
    (ha : P a) : (l.foldlM f a).Yields P := fun _ h =>
  foldlM_invariant (fun b _ a₁ a₂ h₁ h₂ => hf a₁ b h₁ a₂ h₂) ha h

end

/-! ## Errors that do not happen -/

/-- `x` does not stop with `e`. -/
def Avoids (e : ε) (x : Except ε α) : Prop := x ≠ .error e

variable {e : ε}

@[simp] theorem avoids_ok {a : α} : Avoids e (.ok a) := nofun

theorem Avoids.bind {x : Except ε α} {f : α → Except ε β} (hx : x.Avoids e)
    (hf : ∀ a, x = .ok a → (f a).Avoids e) : (x >>= f).Avoids e := by
  cases x with
  | error e' => exact fun heq => hx (congrArg error (error.inj heq))
  | ok a => exact hf a rfl

theorem Avoids.foldlM {f : β → α → Except ε β} (hf : ∀ b a, (f b a).Avoids e) (l : List α) (b : β) :
    (l.foldlM f b).Avoids e := by
  induction l generalizing b with
  | nil => exact avoids_ok
  | cons a l ih => exact (hf b a).bind fun c _ => ih c

/-! ## Both at once -/

section

variable {e : ε} {P : α → Prop} {Q : β → Prop}

/-- `x` does not stop with `e`, and every result of it satisfies `P`. -/
def Settles (x : Except ε α) (e : ε) (P : α → Prop) : Prop := x.Avoids e ∧ x.Yields P

theorem settles_ok {a : α} (h : P a) : Settles (.ok a) e P := ⟨avoids_ok, yields_ok h⟩

theorem settles_error {e' : ε} (h : e' ≠ e) : Settles (.error e' : Except ε α) e P :=
  ⟨fun heq => h (error.inj heq), yields_error⟩

theorem Settles.bind {x : Except ε α} {f : α → Except ε β} (hx : x.Settles e P)
    (hf : ∀ a, P a → (f a).Settles e Q) : (x >>= f).Settles e Q :=
  ⟨hx.1.bind fun a ha => (hf a (hx.2 a ha)).1, hx.2.bind fun a ha => (hf a ha).2⟩

theorem Settles.mono {P' : α → Prop} {x : Except ε α} (hx : x.Settles e P) (h : ∀ a, P a → P' a) :
    x.Settles e P' := ⟨hx.1, fun a ha => h a (hx.2 a ha)⟩

end

end Except
