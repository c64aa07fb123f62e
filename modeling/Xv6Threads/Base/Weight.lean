-- SUMMARY: Weighing lists and finite families: the arithmetic of resources that move between owners.
import Mathlib.Algebra.BigOperators.Group.Finset.Basic
import Mathlib.Algebra.BigOperators.Fin
import Mathlib.Algebra.Order.BigOperators.Group.Finset
import Mathlib.Data.List.FinRange

/-!
# Weights

A resource is followed through a program by weighing its owners. A weight gives
every unit of the resource a natural number; the weight of an owner is the sum
over the units it owns. Moving units between owners keeps the total for every
weight, so one equation covers both "how often does this unit occur" (the
weight `single u`) and "how many units are there" (the constant weight).
-/

namespace Weight

variable {ι U : Type}

/-- The weight of a list of units. -/
def ofList (w : U → Nat) (l : List U) : Nat := (l.map w).sum

@[simp] theorem ofList_nil (w : U → Nat) : ofList w [] = 0 := rfl

theorem ofList_perm {l l' : List U} (h : l.Perm l') (w : U → Nat) : ofList w l = ofList w l' := (h.map w).sum_eq

@[simp] theorem ofList_cons (w : U → Nat) (u : U) (l : List U) :
    ofList w (u :: l) = w u + ofList w l := by
  simp [ofList]

@[simp] theorem ofList_append (w : U → Nat) (l l' : List U) :
    ofList w (l ++ l') = ofList w l + ofList w l' := by
  simp [ofList]

/-- The weight of a unit that may be absent. -/
def ofOption (w : U → Nat) (o : Option U) : Nat := o.elim 0 w

@[simp] theorem ofOption_none (w : U → Nat) : ofOption w none = 0 := rfl
@[simp] theorem ofOption_some (w : U → Nat) (u : U) : ofOption w (some u) = w u := rfl

theorem ofList_one (l : List U) : ofList (fun _ => 1) l = l.length := by
  induction l with
  | nil => rfl
  | cons u l ih => simp [ih, Nat.add_comm]

variable [DecidableEq U]

/-- The weight that counts one unit. -/
def single (u : U) : U → Nat := fun v => if v = u then 1 else 0

@[simp] theorem single_self (u : U) : single u u = 1 := by simp [single]

theorem single_ne {u v : U} (h : v ≠ u) : single u v = 0 := by simp [single, h]

theorem ofList_single_pos {u : U} {l : List U} : 0 < ofList (single u) l ↔ u ∈ l := by
  induction l with
  | nil => simp
  | cons v l ih =>
    by_cases h : v = u
    · subst h; simp
    · simp [single_ne h, ih, Ne.symm h]

theorem ofList_single_eq_zero {u : U} {l : List U} : ofList (single u) l = 0 ↔ u ∉ l := by
  rw [← ofList_single_pos]; omega

theorem ofList_single (u : U) (l : List U) : ofList (single u) l = l.count u := by
  induction l with
  | nil => rfl
  | cons v l ih =>
    rw [ofList_cons, ih, List.count_cons, single, Nat.add_comm]
    simp

/-- Lists that weigh the same have the same units. -/
theorem perm_of_ofList {l l' : List U} (h : ∀ w, ofList w l = ofList w l') : l.Perm l' := by
  rw [List.perm_iff_count]
  intro u
  rw [← ofList_single, ← ofList_single, h]

theorem subperm_of_ofList {l l' : List U} (h : ∀ w, ofList w l ≤ ofList w l') : l.Subperm l' := by
  rw [List.subperm_ext_iff]
  intro u _
  rw [← ofList_single, ← ofList_single]
  exact h _

/-- A list in which every unit weighs at most one has no duplicates. -/
theorem nodup_iff {l : List U} : l.Nodup ↔ ∀ u, ofList (single u) l ≤ 1 := by
  induction l with
  | nil => simp
  | cons v l ih =>
    rw [List.nodup_cons, ih]
    constructor
    · rintro ⟨hv, hl⟩ u
      by_cases h : v = u
      · subst h; simp [ofList_single_eq_zero.2 hv]
      · simpa [single_ne h] using hl u
    · intro h
      constructor
      · have := h v
        rw [ofList_cons, single_self] at this
        exact ofList_single_eq_zero.1 (by omega)
      · intro u
        have := h u
        rw [ofList_cons] at this
        omega

/-! ## Families -/

variable [Fintype ι] [DecidableEq ι]

/-- Two families that differ at one index only have totals that differ there only. -/
theorem sum_change {g h : ι → Nat} (i : ι) (hne : ∀ j, j ≠ i → g j = h j) :
    ∑ j, g j + h i = ∑ j, h j + g i := by
  have hg := Finset.add_sum_erase Finset.univ g (Finset.mem_univ i)
  have hh := Finset.add_sum_erase Finset.univ h (Finset.mem_univ i)
  have herase : ∑ j ∈ Finset.univ.erase i, g j = ∑ j ∈ Finset.univ.erase i, h j :=
    Finset.sum_congr rfl (fun j hj => hne j (Finset.ne_of_mem_erase hj))
  omega

omit [DecidableEq ι] in
theorem le_sum (g : ι → Nat) (i : ι) : g i ≤ ∑ j, g j :=
  Finset.single_le_sum (fun _ _ => Nat.zero_le _) (Finset.mem_univ i)

/-- Two different members of a family weigh no more than the whole. -/
theorem add_le_sum {g : ι → Nat} {i j : ι} (hij : i ≠ j) : g i + g j ≤ ∑ k, g k := by
  have hi := Finset.add_sum_erase Finset.univ g (Finset.mem_univ i)
  have hj : g j ≤ ∑ k ∈ Finset.univ.erase i, g k :=
    Finset.single_le_sum (fun _ _ => Nat.zero_le _) (Finset.mem_erase.2 ⟨hij.symm, Finset.mem_univ j⟩)
  omega

/-! ## References

A family of references, each of which may be absent. -/

/-- How many references there are to a unit. -/
def tally (x : ι → Option U) (u : U) : Nat := ∑ i, ofOption (single u) (x i)

omit [DecidableEq ι] in
theorem tally_eq_card (x : ι → Option U) (u : U) :
    tally x u = (Finset.univ.filter fun i => x i = some u).card := by
  rw [Finset.card_filter]
  refine Finset.sum_congr rfl fun i _ => ?_
  cases x i with
  | none => rfl
  | some v => simp [single]

omit [DecidableEq ι] in
theorem tally_pos {x : ι → Option U} {u : U} {i : ι} (h : x i = some u) : 0 < tally x u := by
  rw [tally_eq_card]
  exact Finset.card_pos.2 ⟨i, by simp [h]⟩

omit [DecidableEq ι] in
theorem exists_of_tally_pos {x : ι → Option U} {u : U} (h : 0 < tally x u) : ∃ i, x i = some u := by
  rw [tally_eq_card] at h
  obtain ⟨i, hi⟩ := Finset.card_pos.1 h
  exact ⟨i, by simpa using hi⟩

theorem tally_update (x : ι → Option U) (i : ι) (o : Option U) (u : U) :
    tally (Function.update x i o) u + ofOption (single u) (x i) =
      tally x u + ofOption (single u) o := by
  have h := sum_change (g := fun j => ofOption (single u) (Function.update x i o j))
    (h := fun j => ofOption (single u) (x j)) i fun j hj => by simp only [Function.update_of_ne hj]
  simpa [tally] using h

theorem count_cons (u v : U) (l : List U) : (u :: l).count v = l.count v + single v u := by
  rw [List.count_cons]
  simp [single]

/-- A reference moves from a list into an empty place of the family. -/
theorem tally_store {x : ι → Option U} {i : ι} {u : U} (h : x i = none) (v : U) (l : List U) :
    tally (Function.update x i (some u)) v + l.count v = tally x v + (u :: l).count v := by
  have hsum := tally_update x i (some u) v
  rw [h, ofOption_none, ofOption_some] at hsum
  rw [count_cons]
  omega

/-- A reference moves from its place in the family into a list. -/
theorem tally_take {x : ι → Option U} {i : ι} {u : U} (h : x i = some u) (v : U) (l : List U) :
    tally (Function.update x i none) v + (u :: l).count v = tally x v + l.count v := by
  have hsum := tally_update x i none v
  rw [h, ofOption_none, ofOption_some] at hsum
  rw [count_cons]
  omega

end Weight
