-- SUMMARY: Units with one owner that are lent to users: the safe ways of taking, lending and returning them.
import Xv6Threads.Base.Weight

/-!
# Ledgers

A ledger records, for every unit of a resource, how often it is owned by the
system, how often each user uses it, and a count kept beside. Users are live or
not, and live users that share a unit have to have the same key.

Units are taken from the system by users (`Hire`), lent by one user to another
(`Lend`), and returned to the system or dropped (`Retire`, `Dismiss`, `Lose`).
`Safe` says that nothing is owned twice or owned while it is used; `Short` says
that the count of a unit stays below the number of its users.
-/

structure Ledger (σ U κ : Type) where
  own : U → Nat
  use : σ → U → Nat
  count : U → Int
  live : σ → Prop
  key : σ → κ

namespace Ledger

variable {σ U κ : Type} {A A' : Ledger σ U κ} {S : σ → Prop} {t freed : U → Nat} {p q : σ} {u : U}

/-- Live users were live before, with the same key, or come with nothing. -/
def Settled (A A' : Ledger σ U κ) : Prop :=
  ∀ q, A'.live q → (A.live q ∧ A'.key q = A.key q) ∨ ∀ u, A.use q u = 0

/-- Units may have been lost. -/
structure Lose (A A' : Ledger σ U κ) : Prop where
  settled : A.Settled A'
  own : ∀ u, A'.own u ≤ A.own u
  use : A'.use = A.use
  count : ∀ u, A'.count u ≤ A.count u

/-- The users in `S`, of one key, have taken the units `t` together. -/
structure Hire (A : Ledger σ U κ) (S : σ → Prop) (t : U → Nat) (A' : Ledger σ U κ) : Prop where
  settled : A.Settled A'
  own : ∀ u, A'.own u + t u = A.own u
  inside : ∀ q, S q → ∀ u, A.use q u ≤ A'.use q u ∧ A'.use q u ≤ A.use q u + t u
  outside : ∀ q, ¬ S q → A'.use q = A.use q
  count : A'.count = A.count
  together : ∀ q q', S q → S q' → A'.key q = A'.key q'

/-- User `q`, who used nothing, was lent units of `p`. -/
structure Lend (A : Ledger σ U κ) (p q : σ) (A' : Ledger σ U κ) : Prop where
  settled : A.Settled A'
  own : A'.own = A.own
  lender : A.live p ∧ A'.live p
  fresh : ∀ u, A.use q u = 0
  taker : ∀ u, A'.use q u ≤ A.use p u
  outside : ∀ x, x ≠ q → A'.use x = A.use x
  count : ∀ u, A'.count u = A.count u + A'.use q u
  together : A'.key q = A'.key p

/-- User `q` has given up the units `t`; those in `freed` are owned again, and
no other live user uses one of them. -/
structure Retire (A : Ledger σ U κ) (q : σ) (t freed : U → Nat) (A' : Ledger σ U κ) : Prop where
  settled : A.Settled A'
  live : A.live q
  own : ∀ u, A'.own u = A.own u + freed u
  le : ∀ u, freed u ≤ t u
  use : ∀ u, A'.use q u + t u = A.use q u
  outside : ∀ x, x ≠ q → A'.use x = A.use x
  alone : ∀ u, 0 < freed u → ∀ x, x ≠ q → A.live x → A.use x u = 0
  count : ∀ u, (A'.count u + t u ≤ A.count u ∧ (0 < freed u → A'.count u ≤ 0)) ∨
    (A'.count u ≤ A.count u ∧ freed u = t u)

/-- The users in `S` are gone; what they used is not returned. -/
structure Dismiss [DecidableEq σ] (A : Ledger σ U κ) (S : Finset σ) (A' : Ledger σ U κ) : Prop where
  settled : A.Settled A'
  own : A'.own = A.own
  inside : ∀ q ∈ S, ∀ u, A'.use q u = 0
  outside : ∀ q, q ∉ S → A'.use q = A.use q
  count : ∀ u, A'.count u = A.count u - ∑ q ∈ S, (A.use q u : Int)

/-! ## Safety -/

/-- A unit is owned at most once, or used at most once by each of a set of live
users of one key. -/
structure Safe (A : Ledger σ U κ) : Prop where
  own_le : ∀ u, A.own u ≤ 1
  apart : ∀ q u, A.live q → A.own u + A.use q u ≤ 1
  shared : ∀ q q' u, A.live q → A.live q' → 0 < A.use q u → 0 < A.use q' u → A.key q = A.key q'

/-- Users who use no unit that they did not use before stay apart. -/
theorem Safe.of_le (h : A.Safe) (hs : A.Settled A') (hown : ∀ u, A'.own u ≤ A.own u)
    (huse : ∀ q u, A'.live q → A'.use q u ≤ A.use q u) : A'.Safe := by
  refine ⟨fun u => (hown u).trans (h.own_le u), fun q u hq => ?_, fun q q' u hq hq' hu hu' => ?_⟩
  · have := hown u
    have := huse q u hq
    rcases hs q hq with ⟨hlive, -⟩ | hzero
    · have := h.apart q u hlive
      omega
    · have := hzero u
      have := h.own_le u
      omega
  · have h₁ := huse q u hq
    have h₂ := huse q' u hq'
    rcases hs q hq with ⟨hlive, hkey⟩ | hzero
    · rcases hs q' hq' with ⟨hlive', hkey'⟩ | hzero'
      · rw [hkey, hkey']
        exact h.shared q q' u hlive hlive' (by omega) (by omega)
      · have := hzero' u
        omega
    · have := hzero u
      omega

theorem Safe.lose (h : A.Safe) (hs : A.Lose A') : A'.Safe :=
  h.of_le hs.settled hs.own fun q u _ => by rw [hs.use]

theorem Safe.dismiss [DecidableEq σ] {S : Finset σ} (h : A.Safe) (hs : A.Dismiss S A') : A'.Safe := by
  refine h.of_le hs.settled (fun u => by rw [hs.own]) fun q u _ => ?_
  by_cases hq : q ∈ S
  · rw [hs.inside q hq]
    exact Nat.zero_le _
  · rw [hs.outside q hq]

/-- Before units are taken from the system, no live user uses them. -/
theorem Hire.unused (hs : A.Hire S t A') (h : A.Safe) (hq : A'.live q) (hu : 0 < t u) : A.use q u = 0 := by
  have := hs.own u
  rcases hs.settled q hq with ⟨hlive, -⟩ | hzero
  · have := h.apart q u hlive
    omega
  · exact hzero u

theorem Safe.hire (h : A.Safe) (hs : A.Hire S t A') : A'.Safe := by
  have hle : ∀ q u, A'.use q u ≤ A.use q u + t u := by
    intro q u
    by_cases hq : S q
    · exact (hs.inside q hq u).2
    · rw [hs.outside q hq]
      exact Nat.le_add_right _ _
  refine ⟨fun u => ?_, fun q u hq => ?_, fun q q' u hq hq' hu hu' => ?_⟩
  · have := hs.own u
    have := h.own_le u
    omega
  · have := hs.own u
    have := hle q u
    rcases hs.settled q hq with ⟨hlive, -⟩ | hzero
    · have := h.apart q u hlive
      omega
    · have := hzero u
      have := h.own_le u
      omega
  · have hq₁ := hle q u
    have hq₂ := hle q' u
    rcases Nat.eq_zero_or_pos (t u) with ht | ht
    · -- nothing new: both used the unit before
      rcases hs.settled q hq with ⟨hlive, hkey⟩ | hzero
      · rcases hs.settled q' hq' with ⟨hlive', hkey'⟩ | hzero'
        · rw [hkey, hkey']
          exact h.shared q q' u hlive hlive' (by omega) (by omega)
        · have := hzero' u
          omega
      · have := hzero u
        omega
    · -- the unit was owned, so both have just taken it
      have hin : ∀ {x}, A'.live x → 0 < A'.use x u → S x := by
        intro x hx hux
        by_contra hout
        rw [hs.outside x hout, hs.unused h hx ht] at hux
        exact Nat.lt_irrefl _ hux
      exact hs.together q q' (hin hq hu) (hin hq' hu')

theorem Safe.lend (h : A.Safe) (hs : A.Lend p q A') : A'.Safe := by
  have huse : ∀ x u, x ≠ q → A'.use x u = A.use x u := fun x u hx => by rw [hs.outside x hx]
  -- a live user other than `q` that uses something
  have hold : ∀ {x u}, A'.live x → x ≠ q → 0 < A'.use x u → A.live x ∧ A'.key x = A.key x ∧ 0 < A.use x u := by
    intro x u hx hne hu
    rw [huse x u hne] at hu
    rcases hs.settled x hx with ⟨hlive, hkey⟩ | hzero
    · exact ⟨hlive, hkey, hu⟩
    · rw [hzero u] at hu
      exact absurd hu (Nat.lt_irrefl _)
  have hpkey : ∀ u, 0 < A.use p u → A'.key p = A.key p := by
    intro u hu
    rcases hs.settled p hs.lender.2 with ⟨-, hkey⟩ | hzero
    · exact hkey
    · rw [hzero u] at hu
      exact absurd hu (Nat.lt_irrefl _)
  -- the key of whoever uses a unit is the key of `p` if `q` uses it too
  have hshare : ∀ {x u}, A'.live x → 0 < A'.use x u → 0 < A'.use q u → A'.key x = A'.key p := by
    intro x u hx hu hq
    by_cases hxq : x = q
    · rw [hxq, hs.together]
    · have hp := Nat.lt_of_lt_of_le hq (hs.taker u)
      obtain ⟨hlive, hkey, hux⟩ := hold hx hxq hu
      rw [hkey, hpkey u hp]
      exact h.shared x p u hlive hs.lender.1 hux hp
  refine ⟨fun u => by rw [hs.own]; exact h.own_le u, fun x u hx => ?_, fun x y u hx hy hux huy => ?_⟩
  · rw [hs.own]
    by_cases hxq : x = q
    · subst hxq
      have := hs.taker u
      have := h.apart p u hs.lender.1
      omega
    · rw [huse x u hxq]
      rcases hs.settled x hx with ⟨hlive, -⟩ | hzero
      · exact h.apart x u hlive
      · rw [hzero u]
        exact h.own_le u
  · by_cases hxq : x = q
    · subst hxq
      rw [hs.together, hshare hy huy hux]
    by_cases hyq : y = q
    · subst hyq
      rw [hs.together, hshare hx hux huy]
    · obtain ⟨hlx, hkx, hux'⟩ := hold hx hxq hux
      obtain ⟨hly, hky, huy'⟩ := hold hy hyq huy
      rw [hkx, hky]
      exact h.shared x y u hlx hly hux' huy'

theorem Safe.retire (h : A.Safe) (hs : A.Retire q t freed A') : A'.Safe := by
  have hq : ∀ u, A.own u + A.use q u ≤ 1 := fun u => h.apart q u hs.live
  refine ⟨fun u => ?_, fun x u hx => ?_, fun x y u hx hy hux huy => ?_⟩
  · have := hs.own u
    have := hs.le u
    have := hs.use u
    have := hq u
    omega
  · have h₁ := hs.own u
    have h₂ := hs.le u
    have h₃ := hs.use u
    by_cases hxq : x = q
    · subst hxq
      have := hq u
      omega
    · rw [hs.outside x hxq]
      rcases hs.settled x hx with ⟨hlive, -⟩ | hzero
      · rcases Nat.eq_zero_or_pos (freed u) with hf | hf
        · have := h.apart x u hlive
          omega
        · have := hs.alone u hf x hxq hlive
          have := hq u
          omega
      · have := hzero u
        have := hq u
        omega
  · have hle : ∀ z, A'.use z u ≤ A.use z u := by
      intro z
      by_cases hz : z = q
      · have := hs.use u
        rw [hz]
        omega
      · rw [hs.outside z hz]
    have hx' := hle x
    have hy' := hle y
    rcases hs.settled x hx with ⟨hlx, hkx⟩ | hzero
    · rcases hs.settled y hy with ⟨hly, hky⟩ | hzero'
      · rw [hkx, hky]
        exact h.shared x y u hlx hly (by omega) (by omega)
      · have := hzero' u
        omega
    · have := hzero u
      omega

/-! ## Counts -/

section Counts

variable [Fintype σ]

/-- The users of a unit. -/
def users (A : Ledger σ U κ) (u : U) : Finset σ := Finset.univ.filter fun q => 0 < A.use q u

theorem mem_users : q ∈ A.users u ↔ 0 < A.use q u := by simp [users]

theorem users_eq_of_use (h : ∀ q, A'.use q u = A.use q u) : A'.users u = A.users u := by
  ext q
  rw [mem_users, mem_users, h q]

/-- The count of a unit does not reach the number of its users. -/
structure Short (A : Ledger σ U κ) : Prop where
  owned : ∀ u, 0 < A.own u → A.count u ≤ (A.users u).card
  used : ∀ q u, A.live q → 0 < A.use q u → A.count u + 1 ≤ (A.users u).card

theorem Short.lose (h : A.Short) (hs : A.Lose A') : A'.Short := by
  have husers : ∀ u, A'.users u = A.users u := fun u => users_eq_of_use fun q => by rw [hs.use]
  refine ⟨fun u hu => ?_, fun q u hq hu => ?_⟩
  · rw [husers]
    exact (hs.count u).trans (h.owned u (Nat.lt_of_lt_of_le hu (hs.own u)))
  · rw [husers]
    rw [hs.use] at hu
    have := hs.count u
    rcases hs.settled q hq with ⟨hlive, -⟩ | hzero
    · have := h.used q u hlive hu
      omega
    · rw [hzero u] at hu
      exact absurd hu (Nat.lt_irrefl _)

theorem Short.hire (h : A.Short) (hs : A.Hire S t A') : A'.Short := by
  have hsub : ∀ u, A.users u ⊆ A'.users u := by
    intro u q hq
    rw [mem_users] at *
    by_cases hS : S q
    · exact Nat.lt_of_lt_of_le hq (hs.inside q hS u).1
    · rwa [hs.outside q hS]
  have hcard : ∀ u, (A.users u).card ≤ (A'.users u).card := fun u => Finset.card_le_card (hsub u)
  refine ⟨fun u hu => ?_, fun q u hq hu => ?_⟩
  · have := hs.own u
    have := h.owned u (by omega)
    have := hcard u
    rw [hs.count]
    omega
  · rw [hs.count]
    have := hcard u
    rcases Nat.eq_zero_or_pos (A.use q u) with hzero | hpos
    · -- `q` has just taken the unit
      have ht : 0 < t u := by
        by_cases hS : S q
        · have := (hs.inside q hS u).2
          omega
        · rw [hs.outside q hS, hzero] at hu
          exact absurd hu (Nat.lt_irrefl _)
      have hown := hs.own u
      have hle := h.owned u (by omega)
      have hlt : (A.users u).card < (A'.users u).card := by
        refine Finset.card_lt_card (Finset.ssubset_iff_subset_ne.2 ⟨hsub u, fun heq => ?_⟩)
        have hmem : q ∈ A.users u := heq ▸ mem_users.2 hu
        rw [mem_users, hzero] at hmem
        exact absurd hmem (Nat.lt_irrefl _)
      omega
    · rcases hs.settled q hq with ⟨hlive, -⟩ | hzero
      · have := h.used q u hlive hpos
        omega
      · rw [hzero u] at hpos
        exact absurd hpos (Nat.lt_irrefl _)

theorem Short.lend (h : A.Short) (hsafe : A.Safe) (hs : A.Lend p q A') : A'.Short := by
  -- a unit that was lent has one user more and a count that is one higher
  have hlent : ∀ u, 0 < A'.use q u → A'.count u = A.count u + 1 ∧
      (A.users u).card + 1 ≤ (A'.users u).card ∧ A.own u = 0 ∧ A.count u + 1 ≤ (A.users u).card := by
    intro u hu
    have hp := hsafe.apart p u hs.lender.1
    have htaker := hs.taker u
    refine ⟨by rw [hs.count u]; omega, ?_, by omega, h.used p u hs.lender.1 (by omega)⟩
    refine Finset.card_lt_card (Finset.ssubset_iff_subset_ne.2 ⟨fun x hx => ?_, fun heq => ?_⟩)
    · rw [mem_users] at *
      by_cases hxq : x = q
      · rwa [hxq]
      · rwa [hs.outside x hxq]
    · have hmem : q ∈ A.users u := heq ▸ mem_users.2 hu
      rw [mem_users, hs.fresh u] at hmem
      exact absurd hmem (Nat.lt_irrefl _)
  -- any other unit is as before
  have hsame : ∀ u, A'.use q u = 0 → A'.count u = A.count u ∧ A'.users u = A.users u := by
    intro u hu
    refine ⟨by rw [hs.count u, hu]; simp, users_eq_of_use fun x => ?_⟩
    by_cases hxq : x = q
    · rw [hxq, hu, hs.fresh u]
    · rw [hs.outside x hxq]
  refine ⟨fun u hu => ?_, fun x u hx hu => ?_⟩
  · rw [hs.own] at hu
    rcases Nat.eq_zero_or_pos (A'.use q u) with hz | hpos
    · obtain ⟨hc, hn⟩ := hsame u hz
      rw [hc, hn]
      exact h.owned u hu
    · have := (hlent u hpos).2.2.1
      omega
  · rcases Nat.eq_zero_or_pos (A'.use q u) with hz | hpos
    · obtain ⟨hc, hn⟩ := hsame u hz
      rw [hc, hn]
      have hxq : x ≠ q := fun heq => by
        rw [heq, hz] at hu
        exact Nat.lt_irrefl _ hu
      rw [hs.outside x hxq] at hu
      rcases hs.settled x hx with ⟨hlive, -⟩ | hzero
      · exact h.used x u hlive hu
      · rw [hzero u] at hu
        exact absurd hu (Nat.lt_irrefl _)
    · obtain ⟨h₁, h₂, -, h₄⟩ := hlent u hpos
      omega

theorem Short.retire (h : A.Short) (hsafe : A.Safe) (hs : A.Retire q t freed A') : A'.Short := by
  -- a unit given up has one user less
  have hgiven : ∀ u, 0 < t u → (A'.users u).card + 1 = (A.users u).card ∧ A.own u = 0 ∧ t u = 1 ∧
      A'.use q u = 0 ∧ A.count u + 1 ≤ (A.users u).card := by
    intro u hu
    have h₁ := hsafe.apart q u hs.live
    have h₂ := hs.use u
    refine ⟨?_, by omega, by omega, by omega, h.used q u hs.live (by omega)⟩
    have hq : q ∈ A.users u := mem_users.2 (by omega)
    have hq' : q ∉ A'.users u := fun hmem => by
      have := mem_users.1 hmem
      omega
    have hinsert : A.users u = Finset.cons q (A'.users u) hq' := by
      ext x
      rw [Finset.mem_cons]
      by_cases hxq : x = q
      · simp [hxq, hq]
      · rw [mem_users, mem_users, hs.outside x hxq]
        simp [hxq]
    rw [hinsert, Finset.card_cons]
  have hsame : ∀ u, t u = 0 → A'.users u = A.users u ∧ A'.own u = A.own u ∧ A'.count u ≤ A.count u := by
    intro u hu
    have h₁ := hs.own u
    have h₂ := hs.le u
    have h₃ := hs.use u
    refine ⟨users_eq_of_use fun x => ?_, by omega, ?_⟩
    · by_cases hxq : x = q
      · subst hxq
        omega
      · rw [hs.outside x hxq]
    · rcases hs.count u with ⟨hc, -⟩ | ⟨hc, -⟩ <;> omega
  refine ⟨fun u hu => ?_, fun x u hx hu => ?_⟩
  · rcases Nat.eq_zero_or_pos (t u) with ht | ht
    · obtain ⟨hn, ho, hc⟩ := hsame u ht
      rw [hn]
      exact hc.trans (h.owned u (ho ▸ hu))
    · obtain ⟨hn, hown, ht1, -, hcount⟩ := hgiven u ht
      have hown' := hs.own u
      rcases hs.count u with ⟨hc, hfree⟩ | ⟨hc, hfree⟩
      · have := hfree (by omega)
        omega
      · omega
  · have hle : A'.use x u ≤ A.use x u := by
      by_cases hxq : x = q
      · have := hs.use u
        rw [hxq]
        omega
      · rw [hs.outside x hxq]
    have hlive : A.live x := by
      rcases hs.settled x hx with ⟨hlive, -⟩ | hzero
      · exact hlive
      · have := hzero u
        omega
    rcases Nat.eq_zero_or_pos (t u) with ht | ht
    · obtain ⟨hn, -, hc⟩ := hsame u ht
      have := h.used x u hlive (by omega)
      rw [hn]
      omega
    · obtain ⟨hn, hown, ht1, hzero, hcount⟩ := hgiven u ht
      have hxq : x ≠ q := fun heq => by
        rw [heq] at hu
        omega
      rcases hs.count u with ⟨hc, -⟩ | ⟨-, hfree⟩
      · omega
      · -- a unit that was freed has no other user
        have := hs.alone u (by omega) x hxq hlive
        omega

theorem Short.dismiss [DecidableEq σ] {S : Finset σ} (h : A.Short) (hs : A.Dismiss S A') : A'.Short := by
  have hcard : ∀ u, ((A.users u).card : Int) - ∑ q ∈ S, (A.use q u : Int) ≤ (A'.users u).card := by
    intro u
    have hsub : A.users u ⊆ A'.users u ∪ S.filter fun q => 0 < A.use q u := by
      intro x hx
      rw [mem_users] at hx
      by_cases hxS : x ∈ S
      · exact Finset.mem_union_right _ (Finset.mem_filter.2 ⟨hxS, hx⟩)
      · refine Finset.mem_union_left _ (mem_users.2 ?_)
        rwa [hs.outside x hxS]
    have h₁ := (Finset.card_le_card hsub).trans (Finset.card_union_le _ _)
    have h₂ : (S.filter fun q => 0 < A.use q u).card ≤ ∑ q ∈ S, A.use q u := by
      rw [Finset.card_filter]
      refine Finset.sum_le_sum fun x _ => ?_
      split <;> omega
    have h₃ : ((∑ q ∈ S, A.use q u : Nat) : Int) = ∑ q ∈ S, (A.use q u : Int) := by push_cast; rfl
    omega
  refine ⟨fun u hu => ?_, fun x u hx hu => ?_⟩
  · rw [hs.own] at hu
    have := h.owned u hu
    have := hcard u
    rw [hs.count]
    omega
  · have hxS : x ∉ S := fun hmem => by
      rw [hs.inside x hmem] at hu
      exact Nat.lt_irrefl _ hu
    rw [hs.outside x hxS] at hu
    have := hcard u
    rw [hs.count]
    rcases hs.settled x hx with ⟨hlive, -⟩ | hzero
    · have := h.used x u hlive hu
      omega
    · rw [hzero u] at hu
      exact absurd hu (Nat.lt_irrefl _)

/-- Both at once: what every step keeps. -/
structure Sound (A : Ledger σ U κ) : Prop where
  safe : A.Safe
  short : A.Short

theorem Sound.lose (h : A.Sound) (hs : A.Lose A') : A'.Sound := ⟨h.safe.lose hs, h.short.lose hs⟩

theorem Sound.hire (h : A.Sound) (hs : A.Hire S t A') : A'.Sound := ⟨h.safe.hire hs, h.short.hire hs⟩

theorem Sound.lend (h : A.Sound) (hs : A.Lend p q A') : A'.Sound :=
  ⟨h.safe.lend hs, h.short.lend h.safe hs⟩

theorem Sound.retire {r : U → Nat} (h : A.Sound) (hs : A.Retire q t r A') : A'.Sound :=
  ⟨h.safe.retire hs, h.short.retire h.safe hs⟩

theorem Sound.dismiss [DecidableEq σ] {S : Finset σ} (h : A.Sound) (hs : A.Dismiss S A') : A'.Sound :=
  ⟨h.safe.dismiss hs, h.short.dismiss hs⟩

end Counts

end Ledger
