-- SUMMARY: Singly linked lists and rings given by a successor function.
import Mathlib.Logic.Function.Iterate
import Mathlib.Data.List.Basic
import Mathlib.Tactic.Tauto

/-!
# Paths

A singly linked list as code walks it: `Leads succ l e` says that each node of `l`
has the next one as its successor, and the last one has `e`. A ring is a list that
leads back to its head; it can be entered at any node.
-/

variable {α : Type}

/-- From the head of `l` on, successors visit the nodes of `l` and then arrive at `e`. -/
def Leads (succ : α → α) : List α → α → Prop
  | [], _ => True
  | a :: l, e => succ a = l.headD e ∧ Leads succ l e

namespace Leads

variable {succ succ' : α → α} {l A B : List α} {a e x y : α}

theorem append : Leads succ (A ++ B) e ↔ Leads succ A (B.headD e) ∧ Leads succ B e := by
  induction A with
  | nil => simp [Leads]
  | cons a A ih =>
    have hhead : (A ++ B).headD e = A.headD (B.headD e) := by cases A <;> rfl
    rw [List.cons_append, Leads, Leads, ih, hhead, and_assoc]

theorem congr (h : Leads succ l e) (hs : ∀ x ∈ l, succ' x = succ x) : Leads succ' l e := by
  induction l with
  | nil => trivial
  | cons a l ih =>
    refine ⟨?_, ih h.2 fun x hx => hs x (List.mem_cons_of_mem _ hx)⟩
    rw [hs a (List.mem_cons_self ..)]
    exact h.1

/-- A node, with those in front of it and those behind. -/
theorem split (h : Leads succ l e) (hx : x ∈ l) : ∃ A B, l = A ++ x :: B ∧ succ x = B.headD e := by
  obtain ⟨A, B, rfl⟩ := List.append_of_mem hx
  exact ⟨A, B, rfl, (append.1 h).2.1⟩

/-- The successor of a node is the next node or the end. -/
theorem succ_mem (h : Leads succ l e) (hx : x ∈ l) : succ x ∈ l ∨ succ x = e := by
  obtain ⟨A, B, rfl, hsucc⟩ := h.split hx
  cases B with
  | nil => exact .inr hsucc
  | cons y B =>
    rw [hsucc]
    exact .inl (by simp)

/-- Two nodes of which one follows the other stand side by side. -/
theorem split_succ (h : Leads succ l e) (hx : x ∈ l) (hy : succ x = y) (hne : y ≠ e) :
    ∃ A B, l = A ++ x :: y :: B ∧ succ y = B.headD e := by
  obtain ⟨A, B, rfl, hsucc⟩ := h.split hx
  cases B with
  | nil => exact absurd (hy.symm.trans hsucc) hne
  | cons z B =>
    obtain rfl : y = z := hy.symm.trans hsucc
    exact ⟨A, B, rfl, (append.1 h).2.2.1⟩

/-- A ring entered at another node. -/
theorem rotate (h : Leads succ (A ++ x :: B) (A.headD x)) : Leads succ (x :: B ++ A) x := by
  rw [append] at h
  rw [append]
  exact ⟨h.2, h.1⟩

theorem iterate_mem (h : Leads succ (a :: l) a) (hx : x ∈ a :: l) (k : Nat) : succ^[k] x ∈ a :: l := by
  induction k with
  | zero => exact hx
  | succ k ih =>
    rw [Function.iterate_succ_apply']
    rcases h.succ_mem ih with hmem | heq
    · exact hmem
    · rw [heq]
      exact List.mem_cons_self ..

theorem iterate_getElem (h : Leads succ (a :: l) e) {k : Nat} (hk : k < (a :: l).length) :
    succ^[k] a = (a :: l)[k] := by
  induction l generalizing a k with
  | nil =>
    obtain rfl : k = 0 := by simpa using hk
    rfl
  | cons b l ih =>
    cases k with
    | zero => rfl
    | succ k =>
      have hb : succ a = b := h.1
      rw [Function.iterate_succ_apply, hb, List.getElem_cons_succ]
      exact ih h.2 (by simpa using hk)

/-- From any node of a ring every node is reached. -/
theorem exists_iterate (h : Leads succ (a :: l) a) (hx : x ∈ a :: l) (hy : y ∈ a :: l) : ∃ k, succ^[k] x = y := by
  obtain ⟨A, B, hsplit⟩ := List.append_of_mem hx
  have hhead : A.headD x = a := by cases A <;> simp_all
  rw [hsplit] at h hy
  have hring := rotate (hhead ▸ h)
  have hmem : y ∈ x :: (B ++ A) := by
    simp only [List.mem_append, List.mem_cons] at hy ⊢
    tauto
  obtain ⟨k, hk, hget⟩ := List.getElem_of_mem hmem
  exact ⟨k, (hring.iterate_getElem hk).trans hget⟩

end Leads
