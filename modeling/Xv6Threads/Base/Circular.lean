-- SUMMARY: Circular doubly linked lists given by their next and prev links.
import Mathlib.Data.List.Chain
import Mathlib.Data.Fintype.Card

/-!
# Circular lists

A circular doubly linked list over a type of nodes, seen from one node of it,
its head. `Circular next prev a l` says that following `next` from `a` visits
the nodes of `l` in order and comes back to `a`, and that `prev` leads the
same way backwards.
-/

variable {α : Type}

/-- `b` follows `a`. -/
def Linked (next prev : α → Option α) (a b : α) : Prop := next a = some b ∧ prev b = some a

/-- From the node `o` on, following `next` visits `l` and then arrives at `b`. -/
def Follows (next : α → Option α) : Option α → List α → α → Prop
  | o, [], b => o = some b
  | o, x :: l, b => o = some x ∧ Follows next (next x) l b

/-- The nodes `a :: l` are all different and form a ring. -/
structure Circular (next prev : α → Option α) (a : α) (l : List α) : Prop where
  nodup : (a :: l).Nodup
  chain : (a :: (l ++ [a])).IsChain (Linked next prev)

namespace Follows

variable {next next' : α → Option α} {o : Option α} {b x : α} {l l' : List α}

/-- The nodes on the way to `b` are determined by `next`. -/
theorem unique (h : Follows next o l b) (h' : Follows next o l' b) (hb : b ∉ l) (hb' : b ∉ l') :
    l = l' := by
  induction l generalizing o l' with
  | nil =>
    obtain rfl : o = some b := h
    cases l' with
    | nil => rfl
    | cons y l' => exact absurd (Option.some.inj h'.1) (fun heq => hb' (by simp [heq]))
  | cons y l ih =>
    obtain ⟨rfl, h⟩ := h
    cases l' with
    | nil => exact absurd (Option.some.inj h') (fun heq => hb (by simp [heq]))
    | cons z l' =>
      obtain ⟨hz, h'⟩ := h'
      obtain rfl := Option.some.inj hz
      simp only [List.mem_cons, not_or] at hb hb'
      rw [ih h h' hb.2 hb'.2]

theorem next_ne_none (h : Follows next o l b) (hx : x ∈ l) : next x ≠ none := by
  induction l generalizing o with
  | nil => cases hx
  | cons y l ih =>
    rcases List.mem_cons.1 hx with rfl | hx
    · cases l with
      | nil => exact fun hn => by simp [Follows, hn] at h
      | cons z l => exact fun hn => by simp [Follows, hn] at h
    · exact ih h.2 hx

theorem congr (h : Follows next o l b) (hn : ∀ x ∈ l, next' x = next x) : Follows next' o l b := by
  induction l generalizing o with
  | nil => exact h
  | cons y l ih =>
    refine ⟨h.1, ?_⟩
    rw [hn y (by simp)]
    exact ih h.2 fun x hx => hn x (by simp [hx])

end Follows

namespace Circular

variable {next prev next' prev' : α → Option α} {a b x : α} {l : List α}

theorem head_notMem (h : Circular next prev a l) : a ∉ l := (List.nodup_cons.1 h.nodup).1

private theorem follows_of_chain {b : α} (h : (b :: (l ++ [a])).IsChain (Linked next prev)) :
    Follows next (next b) l a := by
  induction l generalizing b with
  | nil => exact (List.isChain_pair.1 h).1
  | cons c l ih =>
    rw [List.cons_append, List.isChain_cons_cons] at h
    exact ⟨h.1.1, ih h.2⟩

theorem follows (h : Circular next prev a l) : Follows next (next a) l a :=
  follows_of_chain h.chain

/-- A node alone on its ring. -/
theorem self (hn : next a = some a) (hp : prev a = some a) : Circular next prev a [] :=
  ⟨by simp, by simp [Linked, hn, hp]⟩

/-- Links of other nodes do not matter. -/
theorem congr (h : Circular next prev a l) (hn : ∀ x ∈ a :: l, next' x = next x)
    (hp : ∀ x ∈ a :: l, prev' x = prev x) : Circular next' prev' a l := by
  refine ⟨h.nodup, h.chain.imp_of_mem_imp fun x y hx hy hxy => ?_⟩
  have hmem : ∀ z, z ∈ a :: (l ++ [a]) → z ∈ a :: l := by
    intro z hz
    simp only [List.mem_cons, List.mem_append, List.not_mem_nil, or_false] at hz ⊢
    tauto
  exact ⟨(hn x (hmem x hx)).trans hxy.1, (hp y (hmem y hy)).trans hxy.2⟩

private theorem exists_next_of_chain {b : α} (h : (b :: (l ++ [a])).IsChain (Linked next prev))
    (hx : x ∈ b :: l) : ∃ y ∈ l ++ [a], Linked next prev x y := by
  induction l generalizing b with
  | nil =>
    obtain rfl : x = b := by simpa using hx
    exact ⟨a, by simp, by simpa using h⟩
  | cons c l ih =>
    rw [List.cons_append, List.isChain_cons_cons] at h
    rcases List.mem_cons.1 hx with rfl | hx
    · exact ⟨c, by simp, h.1⟩
    · obtain ⟨y, hy, hxy⟩ := ih h.2 hx
      exact ⟨y, by simp only [List.cons_append, List.mem_cons]; exact .inr hy, hxy⟩

/-- Every node of the ring is followed by a node of the ring. -/
theorem exists_next (h : Circular next prev a l) (hx : x ∈ a :: l) :
    ∃ y ∈ a :: l, Linked next prev x y := by
  obtain ⟨y, hy, hxy⟩ := exists_next_of_chain h.chain hx
  refine ⟨y, ?_, hxy⟩
  simp only [List.mem_append, List.mem_cons, List.not_mem_nil, or_false] at hy ⊢
  tauto

/-- Link a new node `b` behind the head. -/
theorem insert (h : Circular next prev a l) (hb : b ∉ a :: l)
    (hna : next' a = some b) (hnb : next' b = next a) (hpb : prev' b = some a)
    (hpx : ∀ x, next a = some x → prev' x = some b)
    (hn : ∀ x, x ≠ a → x ≠ b → next' x = next x)
    (hp : ∀ x, x ≠ b → next a ≠ some x → prev' x = prev x) :
    Circular next' prev' a (b :: l) := by
  have hab : a ≠ b := fun heq => hb (by simp [heq])
  have hal : a ∉ l := h.head_notMem
  refine ⟨?_, ?_⟩
  · have := h.nodup
    simp only [List.nodup_cons, List.mem_cons, not_or] at hb this ⊢
    exact ⟨⟨hab, hal⟩, hb.2, this.2⟩
  · rw [List.cons_append, List.isChain_cons_cons]
    refine ⟨⟨hna, hpb⟩, ?_⟩
    -- the links after the first one leave `a` untouched on the left
    have hrest : ∀ x y, x ≠ a → x ≠ b → Linked next prev x y → y ≠ b → Linked next' prev' x y := by
      intro x y hxa hxb hxy hyb
      refine ⟨(hn x hxa hxb).trans hxy.1, (hp y hyb fun hay => hxa ?_).trans hxy.2⟩
      obtain ⟨z, -, hz⟩ := h.exists_next (x := a) (by simp)
      have hzy : z = y := Option.some.inj (hz.1.symm.trans hay)
      have hpy := hz.2
      rw [hzy, hxy.2] at hpy
      exact Option.some.inj hpy
    cases l with
    | nil =>
      have hnext : next a = some a := h.follows
      rw [List.nil_append, List.isChain_pair]
      exact ⟨hnb.trans hnext, hpx a hnext⟩
    | cons c l =>
      have hchain := h.chain
      rw [List.cons_append, List.isChain_cons_cons] at hchain
      rw [List.cons_append, List.isChain_cons_cons]
      refine ⟨⟨hnb.trans hchain.1.1, hpx c hchain.1.1⟩, ?_⟩
      -- pairs of `c :: (l ++ [a])`: the left node is in `c :: l`
      have hpairs : ∀ (c : α) (l : List α), a ∉ c :: l → b ∉ c :: l →
          (c :: (l ++ [a])).IsChain (Linked next prev) →
          (c :: (l ++ [a])).IsChain (Linked next' prev') := by
        intro c l
        induction l generalizing c with
        | nil =>
          intro hac hbc hch
          rw [List.nil_append, List.isChain_pair] at hch ⊢
          simp only [List.mem_singleton] at hac hbc
          exact hrest c a (Ne.symm hac) (Ne.symm hbc) hch hab
        | cons d l ih =>
          intro hac hbc hch
          simp only [List.mem_cons, not_or] at hac hbc
          rw [List.cons_append, List.isChain_cons_cons] at hch ⊢
          refine ⟨hrest c d (Ne.symm hac.1) (Ne.symm hbc.1) hch.1 (Ne.symm hbc.2.1), ih d ?_ ?_ hch.2⟩
          · simp [hac.2.1, hac.2.2]
          · simp [hbc.2.1, hbc.2.2]
      simp only [List.mem_cons, not_or] at hb
      exact hpairs c l hal (by simp [hb.2.1, hb.2.2]) hchain.2

/-- A node behind the head is not its own successor. -/
theorem next_ne (h : Circular next prev a l) (hb : b ∈ l) : next b ≠ some b := by
  obtain ⟨l₁, l₂, rfl⟩ := List.append_of_mem hb
  have hab : a ≠ b := fun heq => h.head_notMem (heq ▸ hb)
  have hnodup := h.nodup
  simp only [List.nodup_cons, List.nodup_append] at hnodup
  have hchain := h.chain
  rw [show a :: ((l₁ ++ b :: l₂) ++ [a]) = (a :: l₁) ++ (b :: (l₂ ++ [a])) by simp, List.isChain_append] at hchain
  obtain ⟨-, hrest, -⟩ := hchain
  intro heq
  cases l₂ with
  | nil =>
    have hlink := (List.isChain_pair.1 hrest).1
    exact hab (Option.some.inj (hlink.symm.trans heq))
  | cons c l₂ =>
    have hlink := (List.isChain_cons_cons.1 hrest).1.1
    have hcb : c = b := Option.some.inj (hlink.symm.trans heq)
    exact hnodup.2.2.1.1 (by simp [hcb])

/-- Take the node `b` out of the ring. -/
theorem remove [DecidableEq α] {x y : α} (h : Circular next prev a l) (hb : b ∈ l) (hx : prev b = some x)
    (hy : next b = some y) (hnx : next' x = some y) (hpy : prev' y = some x)
    (hn : ∀ z, z ≠ x → z ≠ b → next' z = next z) (hp : ∀ z, z ≠ y → z ≠ b → prev' z = prev z) :
    Circular next' prev' a (l.erase b) := by
  obtain ⟨l₁, l₂, hb₁, rfl, herase⟩ := List.exists_erase_eq hb
  rw [herase]
  have hnodup := h.nodup
  have hsplit : (a :: ((l₁ ++ b :: l₂) ++ [a])) = (a :: l₁) ++ (b :: (l₂ ++ [a])) := by simp
  have hchain := h.chain
  rw [hsplit, List.isChain_append] at hchain
  obtain ⟨hfirst, hrest, hxb⟩ := hchain
  have hab : a ≠ b := fun heq => h.head_notMem (heq ▸ hb)
  have hb₂ : b ∉ l₂ := by
    simp only [List.nodup_cons, List.nodup_append] at hnodup
    exact hnodup.2.2.1.1
  -- the neighbours of `b`
  have hlast : ∀ u ∈ (a :: l₁).getLast?, u = x := by
    intro u hu
    have := (hxb u hu b (by simp)).2
    rw [hx] at this
    exact (Option.some.inj this).symm
  have hlink : ∀ v ∈ (l₂ ++ [a]).head?, Linked next prev b v := by
    intro v hv
    cases l₂ with
    | nil =>
      obtain rfl : a = v := by simpa using hv
      exact List.isChain_pair.1 hrest
    | cons c l₂ =>
      obtain rfl : c = v := by simpa using hv
      exact (List.isChain_cons_cons.1 hrest).1
  have hhead : ∀ v ∈ (l₂ ++ [a]).head?, v = y := by
    intro v hv
    rw [(hlink v hv).1] at hy
    exact Option.some.inj hy
  have hnextx : next x = some b := by
    obtain ⟨u, hu⟩ : ∃ u, u ∈ (a :: l₁).getLast? := ⟨_, List.getLast?_eq_some_getLast (by simp)⟩
    rw [← hlast u hu]
    exact (hxb u hu b (by simp)).1
  have hprevy : prev y = some b := by
    obtain ⟨v, hv⟩ : ∃ v, v ∈ (l₂ ++ [a]).head? := ⟨_, List.head?_eq_some_head (by simp)⟩
    rw [← hhead v hv]
    exact (hlink v hv).2
  -- links between other nodes are not touched
  have hkeep : ∀ u v, u ≠ b → v ≠ b → Linked next prev u v → Linked next' prev' u v := by
    intro u v hu hv huv
    refine ⟨(hn u (fun heq => hv ?_) hu).trans huv.1, (hp v (fun heq => hu ?_) hv).trans huv.2⟩
    · have hv' := huv.1
      rw [heq, hnextx] at hv'
      exact (Option.some.inj hv').symm
    · have hu' := huv.2
      rw [heq, hprevy] at hu'
      exact (Option.some.inj hu').symm
  refine ⟨?_, ?_⟩
  · refine hnodup.sublist ?_
    simp
  · rw [show a :: ((l₁ ++ l₂) ++ [a]) = (a :: l₁) ++ (l₂ ++ [a]) by simp, List.isChain_append]
    have hmem₁ : ∀ z, z ∈ a :: l₁ → z ≠ b := by
      rintro z hz rfl
      rcases List.mem_cons.1 hz with hz | hz
      · exact hab hz.symm
      · exact hb₁ hz
    have hmem₂ : ∀ z, z ∈ l₂ ++ [a] → z ≠ b := by
      rintro z hz rfl
      rcases List.mem_append.1 hz with hz | hz
      · exact hb₂ hz
      · exact hab (List.mem_singleton.1 hz).symm
    refine ⟨hfirst.imp_of_mem_imp fun u v hu hv huv => ?_, ?_, fun u hu v hv => ?_⟩
    · exact hkeep u v (hmem₁ u hu) (hmem₁ v hv) huv
    · exact (List.IsChain.of_cons hrest).imp_of_mem_imp fun u v hu hv huv =>
        hkeep u v (hmem₂ u hu) (hmem₂ v hv) huv
    · rw [hlast u hu, hhead v hv]
      exact ⟨hnx, hpy⟩

/-- The ring seen backwards. -/
theorem reverse (h : Circular next prev a l) : Circular prev next a l.reverse := by
  refine ⟨?_, ?_⟩
  · have := h.nodup
    simpa using this
  · have hrev : a :: (l.reverse ++ [a]) = (a :: (l ++ [a])).reverse := by simp
    rw [hrev, List.isChain_reverse]
    exact h.chain.imp fun u v huv => ⟨huv.2, huv.1⟩

theorem length_lt [Fintype α] (h : Circular next prev a l) : l.length < Fintype.card α := by
  have := h.nodup.length_le_card
  rw [List.length_cons] at this
  omega

end Circular
