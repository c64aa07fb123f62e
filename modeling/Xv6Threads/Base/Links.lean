-- SUMMARY: Doubly linked rings with a head: unlinking, linking in front, and searching in both directions.
import Mathlib.Logic.Function.Basic
import Xv6Threads.Base.Circular

/-!
# Lists with a head node

A doubly linked ring in which every node has both links, as C code keeps it
with a list head among the nodes. The operations are the usual sequences of
assignments; `Ring` relates them to the list of nodes behind the head.
-/

/-- The links of all nodes. -/
structure Links (α : Type) where
  next : α → α
  prev : α → α

namespace Links

variable {α : Type} [DecidableEq α]

/-- `x->next = y`. -/
def setNext (L : Links α) (x y : α) : Links α := { L with next := Function.update L.next x y }

/-- `x->prev = y`. -/
def setPrev (L : Links α) (x y : α) : Links α := { L with prev := Function.update L.prev x y }

/-- `b->next->prev = b->prev; b->prev->next = b->next`. -/
def unlink (L : Links α) (b : α) : Links α :=
  let L := L.setPrev (L.next b) (L.prev b)
  L.setNext (L.prev b) (L.next b)

/-- `b->next = a->next; b->prev = a; a->next->prev = b; a->next = b`. -/
def linkBehind (L : Links α) (a b : α) : Links α :=
  let L := L.setNext b (L.next a)
  let L := L.setPrev b a
  let L := L.setPrev (L.next a) b
  L.setNext a b

/-- `for (x = ...; x != a; x = succ(x)) if (p(x)) ...`: the node at which the
loop stops, or none at its end. The outer option is empty if it goes on for
longer than the given number of rounds. -/
def search (succ : α → α) (a : α) (p : α → Bool) : Nat → α → Option (Option α)
  | 0, _ => none
  | n + 1, x => if x = a then some none else if p x then some (some x) else search succ a p n (succ x)

/-- Behind the head `a` come the nodes of `l`. -/
def Ring (L : Links α) (a : α) (l : List α) : Prop :=
  Circular (fun x => some (L.next x)) (fun x => some (L.prev x)) a l

variable {L : Links α} {a b x : α} {l : List α} {p : α → Bool} {n : Nat}

omit [DecidableEq α] in
theorem Ring.prev_next (h : L.Ring a l) (hx : x ∈ a :: l) : L.prev (L.next x) = x := by
  obtain ⟨y, -, hn, hp⟩ := h.exists_next hx
  rw [Option.some.inj hn]
  exact Option.some.inj hp

omit [DecidableEq α] in
theorem Ring.next_prev (h : L.Ring a l) (hx : x ∈ a :: l) : L.next (L.prev x) = x := by
  obtain ⟨y, -, hp, hn⟩ := (Circular.reverse h).exists_next (x := x) (by simpa using hx)
  rw [Option.some.inj hp]
  exact Option.some.inj hn

omit [DecidableEq α] in
theorem Ring.next_mem (h : L.Ring a l) (hx : x ∈ a :: l) : L.next x ∈ a :: l := by
  obtain ⟨y, hy, hn, -⟩ := h.exists_next hx
  rwa [Option.some.inj hn]

theorem Ring.unlink (h : L.Ring a l) (hb : b ∈ l) : (L.unlink b).Ring a (l.erase b) := by
  have hmem : b ∈ a :: l := List.mem_cons_of_mem _ hb
  -- `b` is not its own neighbour
  have hnext : L.next b ≠ b := fun heq => h.next_ne hb (congrArg some heq)
  have hpb : (L.setPrev (L.next b) (L.prev b)).prev b = L.prev b := Function.update_of_ne (Ne.symm hnext) _ _
  refine Circular.remove h hb rfl rfl ?_ ?_ (fun z hz _ => ?_) fun z hz _ => ?_
  · simp only [Links.unlink, hpb]
    simp only [setNext, setPrev, Function.update_self]
  · simp only [Links.unlink, setNext, setPrev, Function.update_self]
  · simp only [Links.unlink, hpb, setNext]
    rw [Function.update_of_ne hz]
    rfl
  · simp only [Links.unlink, setNext, setPrev]
    rw [Function.update_of_ne hz]

theorem Ring.linkBehind (h : L.Ring a l) (hb : b ∉ a :: l) : (L.linkBehind a b).Ring a (b :: l) := by
  have hab : a ≠ b := fun heq => hb (by simp [heq])
  have hna : L.next a ≠ b := fun heq => hb (heq ▸ h.next_mem (List.mem_cons_self ..))
  refine Circular.insert h hb ?_ ?_ ?_ (fun x hx => ?_) (fun x hxa hxb => ?_) fun x hxb hx => ?_
  · simp [Links.linkBehind, setNext, setPrev]
  · simp [Links.linkBehind, setNext, setPrev, hab, Ne.symm hab]
  · simp [Links.linkBehind, setNext, setPrev, hab, Ne.symm hna]
  · obtain rfl := Option.some.inj hx
    simp [Links.linkBehind, setNext, setPrev, hab]
  · simp [Links.linkBehind, setNext, setPrev, hxa, hxb]
  · have hx : x ≠ L.next a := fun heq => hx (congrArg some heq.symm)
    simp [Links.linkBehind, setNext, setPrev, hab, hxb, hx]

/-- Move a node to the front. -/
theorem Ring.moveFront (h : L.Ring a l) (hb : b ∈ l) :
    ∃ l', ((L.unlink b).linkBehind a b).Ring a l' ∧ ∀ x, x ∈ l' ↔ x ∈ l := by
  have hnodup := List.nodup_cons.1 h.nodup
  have hout : b ∉ a :: l.erase b := by
    simp only [List.mem_cons, not_or]
    exact ⟨fun heq => h.head_notMem (heq ▸ hb), fun hmem => hnodup.2.not_mem_erase hmem⟩
  refine ⟨b :: l.erase b, (h.unlink hb).linkBehind hout, fun x => ?_⟩
  exact (List.perm_cons_erase hb).symm.mem_iff

omit [DecidableEq α] in
/-- A single head node. -/
theorem Ring.empty (hn : L.next a = a) (hp : L.prev a = a) : L.Ring a [] :=
  Circular.self (congrArg some hn) (congrArg some hp)

theorem search_of_follows {succ : α → α} (h : Follows (fun x => some (succ x)) (some x) l a) (ha : a ∉ l)
    (hn : l.length < n) : search succ a p n x = some (l.find? p) := by
  induction l generalizing x n with
  | nil =>
    obtain ⟨n, rfl⟩ : ∃ m, n = m + 1 := ⟨n - 1, by simp at hn; omega⟩
    obtain rfl : x = a := Option.some.inj h
    simp [search]
  | cons c l ih =>
    obtain ⟨n, rfl⟩ : ∃ m, n = m + 1 := ⟨n - 1, by simp at hn; omega⟩
    obtain ⟨hx, h⟩ := h
    obtain rfl : x = c := Option.some.inj hx
    have hxa : x ≠ a := fun heq => ha (by simp [heq])
    rw [search, if_neg hxa, List.find?_cons]
    cases hp : p x with
    | true => simp
    | false =>
      simp only [Bool.false_eq_true, if_false]
      exact ih h (fun hmem => ha (List.mem_cons_of_mem _ hmem)) (by simpa using hn)

/-- The search along `next` looks at the nodes in order. -/
theorem Ring.search_next (h : L.Ring a l) (hn : l.length < n) :
    search L.next a p n (L.next a) = some (l.find? p) :=
  search_of_follows h.follows h.head_notMem hn

/-- The search along `prev` looks at them from the end. -/
theorem Ring.search_prev (h : L.Ring a l) (hn : l.length < n) :
    search L.prev a p n (L.prev a) = some (l.reverse.find? p) :=
  search_of_follows (Circular.reverse h).follows (Circular.reverse h).head_notMem (by simpa using hn)

end Links
