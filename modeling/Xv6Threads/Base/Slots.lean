-- SUMMARY: Finite maps kept in an array of slots that may be free.
import Mathlib.Logic.Function.Basic
import Mathlib.Data.List.Basic

/-!
# Slots

A table of slots, each of which is free or binds a key to a value. Searching it
from the front finds the first slot with a key. As long as no key is bound twice,
such a table is a map: filling a free slot adds a binding and freeing a slot
removes one.
-/

namespace Xv6

namespace Slots

variable {κ ν : Type*} {e e' : Nat → Option (κ × ν)} {n n' k : Nat} {a b : κ} {v : ν}

/-- No key is bound in two slots. -/
def Unique (e : Nat → Option (κ × ν)) (n : Nat) : Prop :=
  ∀ i j a v w, i < n → j < n → e i = some (a, v) → e j = some (a, w) → i = j

theorem Unique.congr (hu : Unique e n) (h : ∀ k < n, e' k = e k) : Unique e' n := by
  intro i j a v w hi hj hslot hslot'
  rw [h i hi] at hslot
  rw [h j hj] at hslot'
  exact hu i j a v w hi hj hslot hslot'

/-- The slots after `k` was filled, where `k` was free or is the next one. -/
structure Filled (e : Nat → Option (κ × ν)) (n k : Nat) (a : κ) (v : ν) (e' : Nat → Option (κ × ν)) (n' : Nat) : Prop where
  size : n' = max n (k + 1)
  next : k ≤ n
  free : k < n → e k = none
  here : e' k = some (a, v)
  others : ∀ j < n, j ≠ k → e' j = e j

theorem Filled.slot_iff (h : Filled e n k a v e' n') {j : Nat} {w : ν} :
    j < n' ∧ e' j = some (b, w) ↔ (j < n ∧ e j = some (b, w)) ∨ (j = k ∧ b = a ∧ w = v) := by
  have hsize := h.size
  have hnext := h.next
  by_cases hjk : j = k
  · subst hjk
    rw [h.here]
    constructor
    · rintro ⟨-, heq⟩
      obtain ⟨rfl, rfl⟩ := Prod.mk.inj (Option.some.inj heq)
      exact .inr ⟨rfl, rfl, rfl⟩
    · rintro (⟨hj, heq⟩ | ⟨-, rfl, rfl⟩)
      · rw [h.free hj] at heq
        cases heq
      · exact ⟨by omega, rfl⟩
  · constructor
    · rintro ⟨hj, heq⟩
      rw [h.others j (by omega) hjk] at heq
      exact .inl ⟨by omega, heq⟩
    · rintro (⟨hj, heq⟩ | ⟨heq, -, -⟩)
      · exact ⟨by omega, by rw [h.others j hj hjk, heq]⟩
      · exact absurd heq hjk

variable [DecidableEq κ]

/-- The value of a key and the slot it is in: the first one of `n` with that key. -/
def get (e : Nat → Option (κ × ν)) (n : Nat) (a : κ) : Option (ν × Nat) :=
  (List.range n).findSome? fun k => (e k).bind fun p => if p.1 = a then some (p.2, k) else none

theorem bind_slot_iff : ((e k).bind fun p => if p.1 = a then some (p.2, k) else none) = some (v, n) ↔
    e k = some (a, v) ∧ k = n := by
  constructor
  · intro h
    obtain ⟨⟨b, w⟩, hslot, hval⟩ := Option.bind_eq_some_iff.1 h
    by_cases hkey : b = a
    · rw [if_pos hkey] at hval
      obtain ⟨rfl, rfl⟩ := Prod.mk.inj (Option.some.inj hval)
      exact ⟨by rw [hslot, hkey], rfl⟩
    · rw [if_neg hkey] at hval
      cases hval
  · rintro ⟨hslot, rfl⟩
    rw [hslot]
    exact if_pos rfl

theorem get_eq_none_iff : get e n a = none ↔ ∀ k < n, ∀ v, e k ≠ some (a, v) := by
  rw [get, List.findSome?_eq_none_iff]
  refine forall_congr' fun k => ?_
  rw [List.mem_range]
  refine imp_congr_right fun _ => ?_
  constructor
  · intro h v hslot
    rw [bind_slot_iff.2 ⟨hslot, rfl⟩] at h
    cases h
  · intro h
    rw [Option.eq_none_iff_forall_not_mem]
    rintro ⟨v, m⟩ hmem
    exact h v (bind_slot_iff.1 hmem).1

theorem slot_of_get (h : get e n a = some (v, k)) : k < n ∧ e k = some (a, v) := by
  obtain ⟨j, hj, hfound⟩ := List.exists_of_findSome?_eq_some h
  obtain ⟨hslot, rfl⟩ := bind_slot_iff.1 hfound
  exact ⟨List.mem_range.1 hj, hslot⟩

theorem Unique.get_eq_some_iff (hu : Unique e n) : get e n a = some (v, k) ↔ k < n ∧ e k = some (a, v) := by
  refine ⟨slot_of_get, fun ⟨hk, hslot⟩ => ?_⟩
  cases hget : get e n a with
  | none => exact absurd hslot (get_eq_none_iff.1 hget k hk v)
  | some p =>
    obtain ⟨hj, hslot'⟩ := slot_of_get (show get e n a = some (p.1, p.2) from hget)
    obtain rfl := hu _ _ _ _ _ hj hk hslot' hslot
    rw [hslot] at hslot'
    obtain ⟨-, hv⟩ := Prod.mk.inj (Option.some.inj hslot')
    rw [hv]

/-- Two tables without double keys are the same map if they have the same bindings. -/
theorem get_eq_of_iff (hu : Unique e n) (hu' : Unique e' n')
    (h : ∀ v k, k < n ∧ e k = some (a, v) ↔ k < n' ∧ e' k = some (b, v)) : get e n a = get e' n' b := by
  refine Option.ext fun ⟨v, k⟩ => ?_
  rw [hu.get_eq_some_iff, hu'.get_eq_some_iff, h]

theorem Filled.unique (h : Filled e n k a v e' n') (hu : Unique e n) (hnone : get e n a = none) : Unique e' n' := by
  rw [get_eq_none_iff] at hnone
  intro i j b w w' hi hj hslot hslot'
  rcases h.slot_iff.1 ⟨hi, hslot⟩ with ⟨hi, hslot⟩ | ⟨rfl, rfl, rfl⟩
  · rcases h.slot_iff.1 ⟨hj, hslot'⟩ with ⟨hj, hslot'⟩ | ⟨rfl, rfl, rfl⟩
    · exact hu i j b w w' hi hj hslot hslot'
    · exact absurd hslot (hnone i hi w)
  · rcases h.slot_iff.1 ⟨hj, hslot'⟩ with ⟨hj, hslot'⟩ | ⟨rfl, -, -⟩
    · exact absurd hslot' (hnone j hj w')
    · rfl

/-- Filling a free slot adds a binding. -/
theorem Filled.get (h : Filled e n k a v e' n') (hu : Unique e n) (hnone : get e n a = none) :
    get e' n' = Function.update (get e n) a (some (v, k)) := by
  have hu' := h.unique hu hnone
  funext b
  by_cases hb : b = a
  · subst hb
    rw [Function.update_self, hu'.get_eq_some_iff, h.slot_iff]
    exact .inr ⟨rfl, rfl, rfl⟩
  · rw [Function.update_of_ne hb]
    refine get_eq_of_iff hu' hu fun w j => ?_
    rw [h.slot_iff]
    exact or_iff_left fun hnew => hb hnew.2.1

/-- Freeing a slot removes a binding. -/
theorem erase (hu : Unique e n) (hget : get e n a = some (v, k)) (hfree : e' k = none) (hothers : ∀ j < n, j ≠ k → e' j = e j) :
    Unique e' n ∧ get e' n = Function.update (get e n) a none := by
  obtain ⟨hk, hslot⟩ := slot_of_get hget
  have hsub : ∀ {j b w}, j < n ∧ e' j = some (b, w) ↔ (j < n ∧ e j = some (b, w)) ∧ j ≠ k := by
    intro j b w
    by_cases hjk : j = k
    · subst hjk
      rw [hfree]
      exact ⟨fun h => (by cases h.2), fun h => absurd rfl h.2⟩
    · constructor
      · rintro ⟨hj, heq⟩
        rw [hothers j hj hjk] at heq
        exact ⟨⟨hj, heq⟩, hjk⟩
      · rintro ⟨⟨hj, heq⟩, -⟩
        exact ⟨hj, by rw [hothers j hj hjk, heq]⟩
  have hu' : Unique e' n := by
    intro i j b w w' hi hj hslot hslot'
    exact hu i j b w w' hi hj (hsub.1 ⟨hi, hslot⟩).1.2 (hsub.1 ⟨hj, hslot'⟩).1.2
  refine ⟨hu', funext fun b => ?_⟩
  by_cases hb : b = a
  · subst hb
    rw [Function.update_self, get_eq_none_iff]
    intro j hj w hslot'
    obtain ⟨⟨-, hslot''⟩, hne⟩ := hsub.1 ⟨hj, hslot'⟩
    exact hne (hu j k b w v hj hk hslot'' hslot)
  · rw [Function.update_of_ne hb]
    refine get_eq_of_iff hu' hu fun w j => ?_
    rw [hsub]
    refine and_iff_left_of_imp fun ⟨hj, hslot'⟩ => ?_
    rintro rfl
    rw [hslot] at hslot'
    exact hb (Prod.mk.inj (Option.some.inj hslot')).1.symm

end Slots

end Xv6
