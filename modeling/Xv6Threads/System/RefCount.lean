-- SUMMARY: When `ref_count` of a leader is the number of members of its group that have not exited.
import Xv6Threads.System.Groups

/-!
# The count of active threads

`ref_count` is declared as the number of active threads in the family.
`thread_create` and `thread_exit` keep it so. Two calls do not: `freeproc`
counts a thread out a second time when it is reaped, and `exit` by the leader
does not count the leader out.
-/

namespace Xv6

variable {b : Boot} {k : Kernel} {e : Event} {E' : Entries}

/-- The members of the group of `L` that have not exited, `L` included. -/
def Kernel.activeMembers (k : Kernel) (L : Slot) : Finset Slot :=
  Finset.univ.filter fun q => (k.proc q).groupLeader = some L ∧ (k.proc q).state.phase = .active

/-- Every leader counts its active members. -/
def Kernel.RefCountExact (k : Kernel) : Prop :=
  ∀ L, (k.proc L).groupLeader = some L → (k.proc L).refCount = (k.activeMembers L).card

instance (k : Kernel) : Decidable k.RefCountExact := inferInstanceAs (Decidable (∀ _, _ → _))

/-- The step reaps no thread, and no leader of a group exits in it. -/
def CountsOnce (k : Kernel) (e : Event) : Prop :=
  (∀ q ∈ k.reaps e, (k.proc q).isThread = false) ∧
    ∀ p ∈ e.exits, (k.proc p).groupLeader ≠ some p

instance (k : Kernel) (e : Event) : Decidable (CountsOnce k e) := inferInstanceAs (Decidable (_ ∧ _))

namespace Entries

variable {E : Entries} {L p np q : Slot} {ms : List Slot}

/-- The active members, by entries. -/
def active (E : Entries) (L : Slot) : Finset Slot :=
  Finset.univ.filter fun q => (E q).groupLeader = some L ∧ (E q).phase = .active

theorem mem_active : q ∈ E.active L ↔ (E q).groupLeader = some L ∧ (E q).phase = .active := by
  simp [active]

/-- The count that every leader holds, by entries. -/
def CountExact (E : Entries) : Prop :=
  ∀ L, (E L).groupLeader = some L → (E L).refCount = ((E.active L).card : Int)

theorem card_active_congr (h : ∀ q, ((E' q).groupLeader = some L ∧ (E' q).phase = .active) ↔
    ((E q).groupLeader = some L ∧ (E q).phase = .active)) :
    (E.active L).card = (E'.active L).card := by
  congr 1
  ext q
  rw [mem_active, mem_active, h]

/-- A slot that is active in no group before and after does not count. -/
theorem CountExact.update_outside (h : E.CountExact) {x : Entry}
    (hold : (E p).groupLeader = none ∨ (E p).phase ≠ .active)
    (hnew : x.groupLeader = none ∨ x.phase ≠ .active) (hself : x.groupLeader ≠ some p) :
    CountExact (Function.update E p x) := by
  intro L hL
  have hLp : L ≠ p := fun heq => by
    subst heq
    rw [Function.update_self] at hL
    exact hself hL
  rw [Function.update_of_ne hLp] at hL ⊢
  refine (h L hL).trans (congrArg Nat.cast (card_active_congr fun q => ?_))
  by_cases hq : q = p
  · subst hq
    rw [Function.update_self]
    constructor
    · rintro ⟨hl, hp⟩
      rcases hnew with hn | hn
      · rw [hn] at hl; cases hl
      · exact absurd hp hn
    · rintro ⟨hl, hp⟩
      rcases hold with hn | hn
      · rw [hn] at hl; cases hl
      · exact absurd hp hn
  · rw [Function.update_of_ne hq]

/-- Founding a group counts the founder. -/
theorem CountExact.found (h : E.CountExact) (hE : E.WellGrouped) (hp : (E p).phase = .active) :
    (E.found p).CountExact := by
  unfold Entries.found
  split
  · rename_i hnone
    intro L hL
    by_cases hLp : L = p
    · subst hLp
      have hone : active (Function.update E L
          { E L with groupLeader := some L, groupNext := some L, groupPrev := some L,
                     numChildren := 0, refCount := 1 }) L = {L} := by
        ext q
        rw [mem_active, Finset.mem_singleton]
        by_cases hq : q = L
        · subst hq
          simp [hp]
        · rw [Function.update_of_ne hq]
          refine ⟨fun ⟨hl, hact⟩ => ?_, fun heq => absurd heq hq⟩
          -- a slot of the group would make `L` a leader already
          obtain ⟨ms, hg⟩ := hE.group q L hl (Entry.enrolled_of_active hact)
          rw [hg.leader.1] at hnone
          cases hnone
      rw [hone, Function.update_self]
      rfl
    · rw [Function.update_of_ne hLp] at hL ⊢
      refine (h L hL).trans (congrArg Nat.cast (card_active_congr fun q => ?_))
      by_cases hq : q = p
      · subst hq
        rw [Function.update_self, hnone]
        exact ⟨fun ⟨hl, _⟩ => absurd (Option.some.inj hl).symm hLp, fun ⟨hl, _⟩ => by cases hl⟩
      · rw [Function.update_of_ne hq]
  · exact h

/-- Linking in a thread counts it. -/
theorem CountExact.linkIn (h : E.CountExact) (hL : (E L).groupLeader = some L) {x : Entry}
    (hnp : (E np).groupLeader = none) (hx : x.groupLeader = some L ∧ x.phase = .active) :
    (E.linkIn L np x).CountExact := by
  have hLnp : L ≠ np := fun heq => by rw [heq, hnp] at hL; cases hL
  have hlead : ∀ q, q ≠ np → (E.linkIn L np x q).groupLeader = (E q).groupLeader ∧
      (E.linkIn L np x q).phase = (E q).phase := by
    intro q hq; simp [Entries.linkIn, hq]
  have hself : E.linkIn L np x np = x := by simp [Entries.linkIn]
  intro L' hL'
  have hL'np : L' ≠ np := fun heq => by
    subst heq
    rw [hself, hx.1] at hL'
    exact hLnp (Option.some.inj hL')
  rw [(hlead L' hL'np).1] at hL'
  by_cases heq : L' = L
  · subst heq
    have hactive : (E.linkIn L' np x).active L' = insert np (E.active L') := by
      ext q
      rw [Finset.mem_insert, mem_active, mem_active]
      by_cases hq : q = np
      · subst hq; simp [hself, hx]
      · simp [(hlead q hq).1, (hlead q hq).2, hq]
    have hnotin : np ∉ E.active L' := by rw [mem_active, hnp]; simp
    rw [hactive, Finset.card_insert_of_notMem hnotin]
    simp only [Entries.linkIn, if_neg hLnp, if_true, h L' hL']
    push_cast
    rfl
  · have hcount : (E.linkIn L np x L').refCount = (E L').refCount := by
      simp [Entries.linkIn, hL'np, heq]
    rw [hcount]
    refine (h L' hL').trans (congrArg Nat.cast (card_active_congr fun q => ?_))
    by_cases hq : q = np
    · subst hq
      rw [hself, hx.1, hnp]
      exact ⟨fun hl => absurd (Option.some.inj hl.1).symm heq, fun hl => by cases hl.1⟩
    · rw [(hlead q hq).1, (hlead q hq).2]

/-- An active thread that exits is counted out. -/
theorem CountExact.threadExit (h : E.CountExact) (hE : E.WellGrouped) (hp : (E p).phase = .active)
    (hpL : (E p).groupLeader = some L) (hne : L ≠ p) :
    CountExact (Function.update (Function.update E L (E L).dropRef) p
      { E p with phase := .zombie }) := by
  obtain ⟨ms, hg⟩ := hE.group p L hpL (Entry.enrolled_of_active hp)
  have hsame : ∀ q, q ≠ p → (Function.update E L (E L).dropRef q).groupLeader = (E q).groupLeader ∧
      (Function.update E L (E L).dropRef q).phase = (E q).phase := by
    intro q _
    by_cases hq : q = L
    · subst hq
      rw [Function.update_self, Entry.dropRef]
      split <;> exact ⟨rfl, rfl⟩
    · rw [Function.update_of_ne hq]
      exact ⟨rfl, rfl⟩
  have hpos : 0 < (E L).refCount := by
    rw [h L hg.leader.1]
    exact_mod_cast Finset.card_pos.2 ⟨p, mem_active.2 ⟨hpL, hp⟩⟩
  intro L' hL'
  have hL'p : L' ≠ p := fun heq => by
    subst heq
    rw [Function.update_self] at hL'
    exact hne (Option.some.inj (hpL.symm.trans hL'))
  rw [Function.update_of_ne hL'p, (hsame L' hL'p).1] at hL'
  rw [Function.update_of_ne hL'p]
  by_cases heq : L' = L
  · subst heq
    have hactive : active (Function.update (Function.update E L' (E L').dropRef) p
        { E p with phase := .zombie }) L' = (E.active L').erase p := by
      ext q
      rw [Finset.mem_erase, mem_active, mem_active]
      by_cases hq : q = p
      · subst hq; simp
      · rw [Function.update_of_ne hq, (hsame q hq).1, (hsame q hq).2]
        simp [hq]
    have hmem : p ∈ E.active L' := mem_active.2 ⟨hpL, hp⟩
    have hcard := Finset.card_erase_add_one hmem
    rw [hactive, Function.update_self, Entry.dropRef, if_pos hpos]
    simp only [h L' hL']
    omega
  · rw [Function.update_of_ne heq]
    refine (h L' hL').trans (congrArg Nat.cast (card_active_congr fun q => ?_))
    by_cases hq : q = p
    · subst hq
      rw [Function.update_self, hpL]
      exact ⟨fun hl => absurd (Option.some.inj hl.1).symm heq,
        fun hl => absurd (Option.some.inj hl.1).symm heq⟩
    · rw [Function.update_of_ne hq, (hsame q hq).1, (hsame q hq).2]

end Entries

/-- A move of a step that reaps no thread and in which no leader exits keeps
the counts exact. -/
theorem Move.countExact (hm : Move k e E') (hE : k.entries.WellGrouped) (hG : CountsOnce k e)
    (h : k.entries.CountExact) : E'.CountExact := by
  have hunused : ∀ np, k.findUnused = some np → (k.entries np).groupLeader = none := fun np hnp =>
    (hE.idle np (Kernel.findUnused_phase hnp)).1
  cases hm with
  | quiet => exact h
  | strike _ q _ =>
    intro L hL
    have hsame : ∀ x, (Function.update k.entries q { k.entries q with killed := true } x).groupLeader =
        (k.entries x).groupLeader ∧
        (Function.update k.entries q { k.entries q with killed := true } x).phase = (k.entries x).phase ∧
        (Function.update k.entries q { k.entries q with killed := true } x).refCount =
          (k.entries x).refCount := by
      intro x
      by_cases hx : x = q
      · subst hx; simp
      · simp [hx]
    rw [(hsame L).1] at hL
    rw [(hsame L).2.2]
    refine (h L hL).trans (congrArg Nat.cast (Entries.card_active_congr fun x => ?_))
    rw [(hsame x).1, (hsame x).2.1]
  | allocFail p np c hfind =>
    exact h.update_outside (.inl (hunused np hfind)) (.inl rfl) (by simp [Entry.clear])
  | fork p np hp hfind =>
    exact h.update_outside (.inl (hunused np hfind)) (.inl rfl) (by simp [Entry.claim])
  | create p np L start arg ms x hp hfind hL hg hx =>
    refine (h.found hE hp).linkIn hg.leader.1 ?_ ⟨by rw [hx], by rw [hx]⟩
    have hpnp : np ≠ p := fun heq => by
      have := Kernel.findUnused_phase hfind
      rw [heq, hp] at this; cases this
    rw [Entries.found_of_ne hpnp]
    exact hunused np hfind
  | createBad p np L start arg x hp hfind hL hx =>
    have hpnp : np ≠ p := fun heq => by
      have := Kernel.findUnused_phase hfind
      rw [heq, hp] at this; cases this
    have hLnp : L ≠ np := by
      obtain ⟨-, ms, hg⟩ := Kernel.exists_found_group hE hp
      rw [hL] at hg
      intro heq
      have := hg.leader.1
      rw [heq, Entries.found_of_ne hpnp, hunused np hfind] at this
      cases this
    refine (h.found hE hp).update_outside (.inl ?_) (.inr (by simp [hx, Entry.claim])) ?_
    · rw [Entries.found_of_ne hpnp]
      exact hunused np hfind
    · rw [hx]
      exact fun heq => hLnp (Option.some.inj heq)
  | threadExit _ p L _ hp _ hpL hne => exact h.threadExit hE hp hpL hne
  | processExit _ p hexit hp hthread =>
    -- a process that leads no group is in no group
    have hnone : (k.entries p).groupLeader = none :=
      (hE.process p hthread (Entry.enrolled_of_active hp)).resolve_right (hG.2 p hexit)
    intro L hL
    refine (h L hL).trans (congrArg Nat.cast (Entries.card_active_congr fun q => ?_))
    by_cases hq : q = p
    · subst hq
      simp [Kernel.retire, hnone]
    · simp [Kernel.retire, hq]
  | reapThread _ q L hreap hq hqL hne =>
    -- excluded: an exited slot with a leader is a thread
    have hthread : (k.entries q).isThread = false := hG.1 q hreap
    rcases hE.process q hthread (Entry.enrolled_of_zombie hq) with hn | hs
    · rw [hqL] at hn; cases hn
    · rw [hqL] at hs; exact absurd (Option.some.inj hs) hne
  | reapProcess _ q _ hq hL =>
    exact h.update_outside (.inl hL) (.inl rfl) (by simp [Entry.clear])
  | reapGroup _ L ms chan files _ hq hg _ =>
    have hin : ∀ q, q ∈ L :: ms → (k.entries.disband L ms chan files q).groupLeader = none := by
      intro q hmem
      by_cases hqL : q = L
      · simp [Entries.disband, hqL, Entry.clear]
      · simp [Entries.disband, hqL, (List.mem_cons.1 hmem).resolve_left hqL, Entry.release]
    have hout : ∀ q, q ∉ L :: ms → k.entries.disband L ms chan files q = k.entries q := by
      intro q hmem
      simp only [List.mem_cons, not_or] at hmem
      simp [Entries.disband, hmem.1, hmem.2]
    intro L' hL'
    have hL'out : L' ∉ L :: ms := fun hmem => by rw [hin L' hmem] at hL'; cases hL'
    rw [hout L' hL'out] at hL' ⊢
    refine (h L' hL').trans (congrArg Nat.cast (Entries.card_active_congr fun q => ?_))
    by_cases hmem : q ∈ L :: ms
    · rw [hin q hmem]
      refine ⟨fun hl => (by cases hl.1), fun hl => ?_⟩
      have hql := ((hg.mem_iff q).1 hmem).1
      rw [hl.1] at hql
      exact absurd (by simp [Option.some.inj hql]) hL'out
    · rw [hout q hmem]

/-- In every state of a run that reaps no thread and in which no leader exits,
every leader counts its active members. -/
theorem refCount_exact (h : (system b).Reaches CountsOnce k) : k.RefCountExact := by
  refine Lts.Reaches.invariant (P := fun k => k.entries.WellGrouped ∧ k.entries.CountExact) ?_ ?_ h |>.2
  · intro k hk
    refine ⟨Boot.main_wellGrouped hk, fun L hL => ?_⟩
    obtain ⟨p, hne, -, hp⟩ := Boot.main_entries hk
    by_cases hLp : L = p
    · subst hLp
      rw [hp] at hL
      simp [Proc.zero, Proc.entry] at hL
    · simp [Kernel.entries, hne L hLp, Proc.zero, Proc.entry] at hL
  · rintro k e k' ⟨hE, hc⟩ hG ⟨hen, r, hstep⟩
    have hm := Kernel.step_move hE hen hstep
    exact ⟨hm.wellGrouped hE, hm.countExact hE hG hc⟩

/-- A leader with two threads, one of which has exited. -/
theorem refCount_exact_of_three : ∃ k, (system .standard).Reaches CountsOnce k ∧ k.RefCountExact ∧
    (k.proc ⟨0, by decide⟩).refCount = 2 := by
  have hrun : (Boot.standard.run CountsOnce
      [.schedule ⟨0, by decide⟩, .call ⟨0, by decide⟩ (.threadCreate 0 0),
        .call ⟨0, by decide⟩ (.threadCreate 0 0), .schedule ⟨1, by decide⟩,
        .call ⟨1, by decide⟩ .threadExit]).any
      (fun k => (k.proc ⟨0, by decide⟩).refCount = 2) = true := by decide +kernel
  obtain ⟨k, hk, hc⟩ := exists_reaches_of_run hrun
  exact ⟨k, hk, refCount_exact hk, by simpa using hc⟩

/-- A thread that exits and is joined is counted out twice: the leader is left
with a count of zero while it runs. -/
theorem refCount_wrong_after_join : ¬ ∀ (b : Boot) (k : Kernel), Reachable b k → k.RefCountExact := by
  intro h
  have hrun : (Boot.standard.run anyStep
      [.schedule ⟨0, by decide⟩, .call ⟨0, by decide⟩ (.threadCreate 0 0), .schedule ⟨1, by decide⟩,
        .call ⟨1, by decide⟩ .threadExit, .call ⟨0, by decide⟩ (.threadJoin 1)]).any
      (fun k => ¬ k.RefCountExact) = true := by decide +kernel
  obtain ⟨k, hk, hc⟩ := exists_reaches_of_run hrun
  simp only [decide_not, Bool.not_eq_eq_eq_not, Bool.not_true, decide_eq_false_iff_not] at hc
  exact hc (h _ k hk)

end Xv6
