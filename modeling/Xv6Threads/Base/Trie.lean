-- SUMMARY: Tries of a fixed depth laid out in a store of nodes: the nodes they hold and where a path leads.
import Xv6Threads.Base.Weight

/-!
# Tries in a store

A store gives every node a family of entries, each empty or a link to another
node. The trie of depth `n` at a node follows `n` links from there. As long as no
node occurs twice, a path is determined by the node it leads to, and a change
below one entry leaves what is below the others alone.
-/

namespace Trie

variable {P ι : Type}

/-- The entries of the nodes. -/
abbrev Links (P ι : Type) := P → ι → Option P

/-- The node that `n` links lead to; `path k` is the entry taken `k` links before the end. -/
def find (s : Links P ι) (path : Nat → ι) : Nat → P → Option P
  | 0, p => some p
  | n + 1, p => (s p (path (n + 1))).bind (find s path n)

/-- The nodes of the trie of depth `n` at a node. -/
inductive Holds (s : Links P ι) : Nat → P → P → Prop
  | root {n : Nat} {p : P} : Holds s n p p
  | child {n : Nat} {p c f : P} {i : ι} (hlink : s p i = some c) (h : Holds s n c f) : Holds s (n + 1) p f

/-- The nodes whose entries are links of the trie. -/
inductive Inner (s : Links P ι) : Nat → P → P → Prop
  | root {n : Nat} {p : P} : Inner s (n + 1) p p
  | child {n : Nat} {p c f : P} {i : ι} (hlink : s p i = some c) (h : Inner s n c f) : Inner s (n + 1) p f

variable {s s' : Links P ι} {path path' : Nat → ι} {n : Nat} {p c d f q : P} {i j : ι}

theorem Inner.holds (h : Inner s n p f) : Holds s n p f := by
  induction h with
  | root => exact .root
  | child hlink _ ih => exact .child hlink ih

theorem holds_of_find (h : find s path n p = some q) : Holds s n p q := by
  induction n generalizing p with
  | zero =>
    cases h
    exact .root
  | succ n ih =>
    obtain ⟨c, hlink, hc⟩ := Option.bind_eq_some_iff.1 h
    exact .child hlink (ih hc)

/-- Where a path leads depends on the entries it takes. -/
theorem find_path (h : ∀ k, 0 < k → k ≤ n → path k = path' k) : find s path n p = find s path' n p := by
  induction n generalizing p with
  | zero => rfl
  | succ n ih =>
    rw [find, find, h (n + 1) (Nat.succ_pos _) (Nat.le_refl _)]
    exact Option.bind_congr fun c _ => ih fun k hpos hk => h k hpos (Nat.le_succ_of_le hk)

/-! ## Stores that agree -/

theorem find_congr (h : ∀ f, Inner s n p f → s' f = s f) : find s' path n p = find s path n p := by
  induction n generalizing p with
  | zero => rfl
  | succ n ih =>
    rw [find, find, h p .root]
    exact Option.bind_congr fun c hlink => ih fun f hf => h f (.child hlink hf)

theorem Inner.congr (h : ∀ f, Inner s n p f → s' f = s f) : Inner s' n p f ↔ Inner s n p f := by
  induction n generalizing p with
  | zero => exact ⟨nofun, nofun⟩
  | succ n ih =>
    have hroot := h p .root
    constructor
    · rintro (_ | ⟨hlink, hf⟩)
      · exact .root
      · rw [hroot] at hlink
        exact .child hlink ((ih fun f hf => h f (.child hlink hf)).1 hf)
    · rintro (_ | ⟨hlink, hf⟩)
      · exact .root
      · exact .child (hroot ▸ hlink) ((ih fun f hf => h f (.child hlink hf)).2 hf)

theorem Holds.congr (h : ∀ f, Inner s n p f → s' f = s f) : Holds s' n p f ↔ Holds s n p f := by
  induction n generalizing p with
  | zero => exact ⟨fun | .root => .root, fun | .root => .root⟩
  | succ n ih =>
    have hroot := h p .root
    constructor
    · rintro (_ | ⟨hlink, hf⟩)
      · exact .root
      · rw [hroot] at hlink
        exact .child hlink ((ih fun f hf => h f (.child hlink hf)).1 hf)
    · rintro (_ | ⟨hlink, hf⟩)
      · exact .root
      · exact .child (hroot ▸ hlink) ((ih fun f hf => h f (.child hlink hf)).2 hf)

/-! ## Weights -/

variable [Fintype ι]

/-- The weight of the nodes of a trie, each as often as it occurs. -/
def weigh (s : Links P ι) (w : P → Nat) : Nat → P → Nat
  | 0, p => w p
  | n + 1, p => w p + ∑ i, (s p i).elim 0 (weigh s w n)

variable {w : P → Nat}

theorem weigh_congr (h : ∀ f, Inner s n p f → s' f = s f) : weigh s' w n p = weigh s w n p := by
  induction n generalizing p with
  | zero => rfl
  | succ n ih =>
    rw [weigh, weigh, h p .root]
    refine congrArg (w p + ·) (Finset.sum_congr rfl fun i _ => ?_)
    cases hlink : s p i with
    | none => rfl
    | some c => exact ih fun f hf => h f (.child hlink hf)

theorem root_le_weigh : w p ≤ weigh s w n p := by
  cases n with
  | zero => exact Nat.le_refl _
  | succ n => exact Nat.le_add_right _ _

theorem child_le_weigh (hlink : s p i = some c) : w p + weigh s w n c ≤ weigh s w (n + 1) p := by
  have hle := Weight.le_sum (fun i => (s p i).elim 0 (weigh s w n)) i
  simp only [hlink, Option.elim_some] at hle
  rw [weigh]
  omega

theorem children_le_weigh [DecidableEq ι] (hne : i ≠ j) (hi : s p i = some c) (hj : s p j = some d) :
    weigh s w n c + weigh s w n d ≤ weigh s w (n + 1) p := by
  have hle := Weight.add_le_sum (g := fun i => (s p i).elim 0 (weigh s w n)) hne
  simp only [hi, hj, Option.elim_some] at hle
  rw [weigh]
  omega

/-- A change of one entry, and below it. -/
theorem weigh_change [DecidableEq ι] (hentry : ∀ j, j ≠ i → s' p j = s p j)
    (hbelow : ∀ j, j ≠ i → ∀ c, s p j = some c → weigh s' w n c = weigh s w n c) :
    weigh s' w (n + 1) p + (s p i).elim 0 (weigh s w n) = weigh s w (n + 1) p + (s' p i).elim 0 (weigh s' w n) := by
  have hchange := Weight.sum_change (g := fun j => (s' p j).elim 0 (weigh s' w n))
    (h := fun j => (s p j).elim 0 (weigh s w n)) i fun j hj => by
      rw [hentry j hj]
      cases hlink : s p j with
      | none => rfl
      | some c => exact hbelow j hj c hlink
  rw [weigh, weigh]
  omega

/-- A node without links. -/
theorem weigh_bare (h : ∀ i, s p i = none) : weigh s w n p = w p := by
  cases n with
  | zero => rfl
  | succ n => simp [weigh, h]

variable [DecidableEq P]

theorem holds_iff : Holds s n p f ↔ 0 < weigh s (Weight.single f) n p := by
  constructor
  · intro h
    induction h with
    | root => exact Nat.lt_of_lt_of_le (by simp) root_le_weigh
    | @child n _ _ f _ hlink _ ih =>
      have := child_le_weigh (w := Weight.single f) (n := n) hlink
      omega
  · intro h
    induction n generalizing p with
    | zero =>
      by_cases hp : p = f
      · exact hp ▸ .root
      · rw [weigh, Weight.single_ne hp] at h
        omega
    | succ n ih =>
      by_cases hp : p = f
      · exact hp ▸ .root
      · rw [weigh, Weight.single_ne hp, Nat.zero_add] at h
        obtain ⟨i, -, hi⟩ := Finset.exists_ne_zero_of_sum_ne_zero (Nat.pos_iff_ne_zero.1 h)
        cases hlink : s p i with
        | none =>
          rw [hlink] at hi
          exact absurd rfl hi
        | some c =>
          rw [hlink] at hi
          exact .child hlink (ih (Nat.pos_of_ne_zero hi))

theorem weigh_eq_zero (h : ¬ Holds s n p f) : weigh s (Weight.single f) n p = 0 := by
  by_contra hne
  exact h (holds_iff.2 (Nat.pos_of_ne_zero hne))

/-! ## Tries without repetition -/

/-- No node occurs twice. -/
def Distinct (s : Links P ι) (n : Nat) (p : P) : Prop := ∀ f, weigh s (Weight.single f) n p ≤ 1

theorem Distinct.child (h : Distinct s (n + 1) p) (hlink : s p i = some c) : Distinct s n c := fun f => by
  have := child_le_weigh (w := Weight.single f) (n := n) hlink
  have := h f
  omega

theorem Distinct.root_notin (h : Distinct s (n + 1) p) (hlink : s p i = some c) : ¬ Holds s n c p := fun hc => by
  have hpos := holds_iff.1 hc
  have hle := child_le_weigh (w := Weight.single p) (n := n) hlink
  have hone := h p
  rw [Weight.single_self] at hle
  omega

theorem Distinct.apart [DecidableEq ι] (h : Distinct s (n + 1) p) (hne : i ≠ j) (hi : s p i = some c)
    (hj : s p j = some d) (hf : Holds s n c f) : ¬ Holds s n d f := fun hd => by
  have := holds_iff.1 hf
  have := holds_iff.1 hd
  have := children_le_weigh (w := Weight.single f) (n := n) hne hi hj
  have := h f
  omega

/-- The node a path leads to is not one of those the path goes through. -/
theorem Distinct.not_inner [DecidableEq ι] (h : Distinct s n p) (hq : find s path n p = some q) : ¬ Inner s n p q := by
  induction n generalizing p with
  | zero => nofun
  | succ n ih =>
    obtain ⟨c, hlink, hc⟩ := Option.bind_eq_some_iff.1 hq
    rintro (_ | ⟨hlink', hf⟩)
    · exact h.root_notin hlink (holds_of_find hc)
    · rename_i d j
      by_cases hj : path (n + 1) = j
      · rw [hj, hlink'] at hlink
        cases hlink
        exact ih (h.child hlink') hc hf
      · exact h.apart hj hlink hlink' (holds_of_find hc) hf.holds

/-- Two paths that lead to the same node take the same entries. -/
theorem Distinct.find_inj [DecidableEq ι] (h : Distinct s n p) (hq : find s path n p = some q)
    (hq' : find s path' n p = some q) {k : Nat} (hpos : 0 < k) (hk : k ≤ n) : path k = path' k := by
  induction n generalizing p with
  | zero => omega
  | succ n ih =>
    obtain ⟨c, hlink, hc⟩ := Option.bind_eq_some_iff.1 hq
    obtain ⟨d, hlink', hd⟩ := Option.bind_eq_some_iff.1 hq'
    have htop : path (n + 1) = path' (n + 1) := by
      by_contra hne
      exact h.apart hne hlink hlink' (holds_of_find hc) (holds_of_find hd)
    rcases Nat.lt_or_ge n k with hlast | hle
    · rwa [show k = n + 1 by omega]
    · rw [htop, hlink'] at hlink
      cases hlink
      exact ih (h.child hlink') hc hd hle

end Trie
