-- SUMMARY: Thread groups as rings of entries, and what the updates of the process table do to them.
import Xv6Threads.Base.Circular
import Xv6Threads.Process.Entries

/-!
# Thread groups

A group is a ring of slots through `group_next` and `group_prev`, seen from its
leader. `WellGrouped` says that every slot that names a leader is on the ring
of that leader, with one exception: a slot that a failed `thread_create` has
left in state `USED` still names a leader and is on no ring.

The updates of the table are stated as functions on entries, and each of them
is shown to keep the table well grouped.
-/

namespace Xv6

/-- The slot is in use, and not left behind by a failed `thread_create`. -/
def Entry.Enrolled (e : Entry) : Prop := e.phase ≠ .unused ∧ e.phase ≠ .used

instance (e : Entry) : Decidable e.Enrolled := inferInstanceAs (Decidable (_ ∧ _))

namespace Entries

variable {E E' : Entries} {L p q np : Slot} {ms : List Slot}

/-- `L` leads a group whose other members are `ms`, in the order of the ring. -/
structure Group (E : Entries) (L : Slot) (ms : List Slot) : Prop where
  ring : Circular (fun q => (E q).groupNext) (fun q => (E q).groupPrev) L ms
  mem_iff : ∀ q, q ∈ L :: ms ↔ (E q).groupLeader = some L ∧ (E q).Enrolled

structure WellGrouped (E : Entries) : Prop where
  idle : ∀ q, (E q).phase = .unused → (E q).groupLeader = none ∧ (E q).isThread = false
  group : ∀ q L, (E q).groupLeader = some L → (E q).Enrolled → ∃ ms, E.Group L ms
  thread : ∀ q, (E q).isThread = true → (E q).Enrolled ∧ ∃ L, L ≠ q ∧ (E q).groupLeader = some L
  process : ∀ q, (E q).isThread = false → (E q).Enrolled →
    (E q).groupLeader = none ∨ (E q).groupLeader = some q

/-! ## Groups -/

namespace Group

theorem leader (h : E.Group L ms) : (E L).groupLeader = some L ∧ (E L).Enrolled :=
  (h.mem_iff L).1 (by simp)

theorem unique {ms' : List Slot} (h : E.Group L ms) (h' : E.Group L ms') : ms = ms' :=
  h.ring.follows.unique h'.ring.follows h.ring.head_notMem h'.ring.head_notMem

theorem next_mem (h : E.Group L ms) (hq : (E L).groupNext = some q) : q ∈ L :: ms := by
  obtain ⟨y, hy, hly⟩ := h.ring.exists_next (x := L) (by simp)
  obtain rfl : y = q := Option.some.inj (hly.1.symm.trans hq)
  exact hy

theorem next_isSome (h : E.Group L ms) : ∃ q ∈ L :: ms, (E L).groupNext = some q ∧
    (E q).groupPrev = some L := by
  obtain ⟨y, hy, hly⟩ := h.ring.exists_next (x := L) (by simp)
  exact ⟨y, hy, hly.1, hly.2⟩

/-- A group is determined by the entries of its members. -/
theorem congr (h : E.Group L ms)
    (hin : ∀ q ∈ L :: ms, (E' q).groupNext = (E q).groupNext ∧ (E' q).groupPrev = (E q).groupPrev)
    (hmem : ∀ q, (E' q).groupLeader = some L ∧ (E' q).Enrolled ↔
      (E q).groupLeader = some L ∧ (E q).Enrolled) : E'.Group L ms :=
  ⟨h.ring.congr (fun q hq => (hin q hq).1) (fun q hq => (hin q hq).2),
    fun q => (h.mem_iff q).trans (hmem q).symm⟩

end Group

namespace WellGrouped

theorem group_of_leader (h : E.WellGrouped) (hL : (E L).groupLeader = some L)
    (hen : (E L).Enrolled) : ∃ ms, E.Group L ms :=
  h.group L L hL hen

/-- A leader is not a thread. -/
theorem not_isThread_of_leader (h : E.WellGrouped) (hL : (E L).groupLeader = some L) :
    (E L).isThread = false := by
  by_contra hthread
  obtain ⟨-, L', hne, hL'⟩ := h.thread L (by simpa using hthread)
  rw [hL] at hL'
  exact hne (Option.some.inj hL').symm

end WellGrouped

/-! ## Updates that do not touch groups -/

/-- What groups depend on in an entry. -/
structure SameGroup (e e' : Entry) : Prop where
  phase : (e'.phase = .unused ↔ e.phase = .unused) ∧ (e'.phase = .used ↔ e.phase = .used)
  thread : e'.isThread = e.isThread
  leader : e'.groupLeader = e.groupLeader
  next : e'.groupNext = e.groupNext
  prev : e'.groupPrev = e.groupPrev

theorem SameGroup.refl (e : Entry) : SameGroup e e := ⟨⟨.rfl, .rfl⟩, rfl, rfl, rfl, rfl⟩

theorem SameGroup.enrolled {e e' : Entry} (h : SameGroup e e') : e'.Enrolled ↔ e.Enrolled := by
  simp only [Entry.Enrolled, ne_eq, h.phase.1, h.phase.2]

theorem Group.of_sameGroup (hg : E.Group L ms) (hs : ∀ q, SameGroup (E q) (E' q)) : E'.Group L ms :=
  hg.congr (fun q _ => ⟨(hs q).next, (hs q).prev⟩) fun q => by rw [(hs q).leader, (hs q).enrolled]

theorem WellGrouped.of_sameGroup (h : E.WellGrouped) (hs : ∀ q, SameGroup (E q) (E' q)) :
    E'.WellGrouped where
  idle q hq := by
    rw [(hs q).leader, (hs q).thread]
    exact h.idle q ((hs q).phase.1.1 hq)
  group q L hL hen := by
    rw [(hs q).leader] at hL
    obtain ⟨ms, hg⟩ := h.group q L hL ((hs q).enrolled.1 hen)
    exact ⟨ms, hg.of_sameGroup hs⟩
  thread q hq := by
    rw [(hs q).thread] at hq
    rw [(hs q).enrolled, (hs q).leader]
    exact h.thread q hq
  process q hq hen := by
    rw [(hs q).thread] at hq
    rw [(hs q).leader]
    exact h.process q hq ((hs q).enrolled.1 hen)

/-- Changing a field of one slot that groups do not depend on. -/
theorem WellGrouped.update_of_sameGroup (h : E.WellGrouped) {e : Entry} (hs : SameGroup (E p) e) :
    WellGrouped (Function.update E p e) := by
  refine h.of_sameGroup fun q => ?_
  by_cases hq : q = p
  · subst hq; simpa using hs
  · rw [Function.update_of_ne hq]
    exact .refl _

/-! ## Slots outside groups -/

/-- A slot on no ring may change as long as it stays on no ring. -/
theorem WellGrouped.update_outside (h : E.WellGrouped) {e : Entry}
    (hold : (E p).groupLeader = none ∨ ¬ (E p).Enrolled) (hthread : e.isThread = false)
    (hnew : e.groupLeader = none ∨ e.phase = .used) : WellGrouped (Function.update E p e) := by
  have hgroup : ∀ L ms, E.Group L ms → Group (Function.update E p e) L ms := by
    intro L ms hg
    have hp : p ∉ L :: ms := fun hmem => by
      obtain ⟨hl, hen⟩ := (hg.mem_iff p).1 hmem
      rcases hold with hn | hn
      · rw [hn] at hl; cases hl
      · exact hn hen
    refine hg.congr (fun q hq => ?_) fun q => ?_
    · rw [Function.update_of_ne (fun heq : q = p => hp (heq ▸ hq))]
      exact ⟨rfl, rfl⟩
    · by_cases hq : q = p
      · subst hq
        rw [Function.update_self, ← hg.mem_iff]
        refine ⟨fun ⟨hl, hen⟩ => ?_, fun hmem => absurd hmem hp⟩
        rcases hnew with hn | hu
        · rw [hn] at hl; cases hl
        · exact absurd hu hen.2
      · rw [Function.update_of_ne hq]
  refine ⟨fun q hq => ?_, fun q L hL hen => ?_, fun q hq => ?_, fun q hq hen => ?_⟩
  all_goals by_cases hqp : q = p
  · subst hqp
    rw [Function.update_self] at hq ⊢
    rcases hnew with hn | hu
    · exact ⟨hn, hthread⟩
    · rw [hu] at hq; cases hq
  · rw [Function.update_of_ne hqp] at hq ⊢
    exact h.idle q hq
  · subst hqp
    rw [Function.update_self] at hL hen
    rcases hnew with hn | hu
    · rw [hn] at hL; cases hL
    · exact absurd hu hen.2
  · rw [Function.update_of_ne hqp] at hL hen
    obtain ⟨ms, hg⟩ := h.group q L hL hen
    exact ⟨ms, hgroup L ms hg⟩
  · subst hqp
    rw [Function.update_self, hthread] at hq
    cases hq
  · rw [Function.update_of_ne hqp] at hq ⊢
    exact h.thread q hq
  · subst hqp
    rw [Function.update_self] at hen ⊢
    rcases hnew with hn | hu
    · exact .inl hn
    · exact absurd hu hen.2
  · rw [Function.update_of_ne hqp] at hq hen ⊢
    exact h.process q hq hen

/-! ## Founding and joining a group -/

/-- The first thread of a process makes it a leader. -/
def found (E : Entries) (p : Slot) : Entries :=
  if (E p).groupLeader = none then
    Function.update E p
      { E p with
        groupLeader := some p
        groupNext := some p
        groupPrev := some p
        numChildren := 0
        refCount := 1 }
  else E

/-- Count in `np`, with entry `e`, and link it behind its leader. -/
def linkIn (E : Entries) (L np : Slot) (e : Entry) : Entries := fun q =>
  if q = np then e
  else
    { E q with
      groupPrev := if (E L).groupNext = some q then some np else (E q).groupPrev
      groupNext := if q = L then some np else (E q).groupNext
      numChildren := if q = L then (E q).numChildren + 1 else (E q).numChildren
      refCount := if q = L then (E q).refCount + 1 else (E q).refCount }

theorem found_of_ne (h : q ≠ p) : E.found p q = E q := by
  unfold found
  split
  · exact Function.update_of_ne h _ _
  · rfl

theorem WellGrouped.found (h : E.WellGrouped) (hp : (E p).Enrolled) (hthread : (E p).isThread = false ∨
    (E p).groupLeader ≠ none) : (E.found p).WellGrouped := by
  unfold Entries.found
  split
  · rename_i hnone
    have hthread : (E p).isThread = false := hthread.resolve_right (not_not.2 hnone)
    have hgroup : ∀ L ms, E.Group L ms → L ≠ p → Group (Function.update E p
        { E p with groupLeader := some p, groupNext := some p, groupPrev := some p,
                   numChildren := 0, refCount := 1 }) L ms := by
      intro L ms hg hLp
      have hnot : p ∉ L :: ms := fun hmem => by
        have := ((hg.mem_iff p).1 hmem).1
        rw [hnone] at this; cases this
      refine hg.congr (fun q hq => ?_) fun q => ?_
      · rw [Function.update_of_ne (fun heq : q = p => hnot (heq ▸ hq))]
        exact ⟨rfl, rfl⟩
      · by_cases hq : q = p
        · subst hq
          rw [Function.update_self, ← hg.mem_iff]
          exact ⟨fun ⟨hl, _⟩ => absurd (Option.some.inj hl).symm hLp, fun hmem => absurd hmem hnot⟩
        · rw [Function.update_of_ne hq]
    refine ⟨fun q hq => ?_, fun q L hL hen => ?_, fun q hq => ?_, fun q hq hen => ?_⟩
    all_goals by_cases hqp : q = p
    · subst hqp
      rw [Function.update_self] at hq
      exact absurd hq hp.1
    · rw [Function.update_of_ne hqp] at hq ⊢
      exact h.idle q hq
    · subst hqp
      rw [Function.update_self] at hL
      obtain rfl : q = L := Option.some.inj hL
      refine ⟨[], .self (by simp) (by simp), fun q' => ?_⟩
      rw [List.mem_singleton]
      by_cases hq' : q' = q
      · subst hq'
        rw [Function.update_self]
        exact ⟨fun _ => ⟨rfl, hp⟩, fun _ => rfl⟩
      · rw [Function.update_of_ne hq']
        refine ⟨fun heq => absurd heq hq', fun ⟨hl, hen⟩ => ?_⟩
        obtain ⟨ms, hg⟩ := h.group q' q hl hen
        rw [hg.leader.1] at hnone
        cases hnone
    · rw [Function.update_of_ne hqp] at hL hen
      obtain ⟨ms, hg⟩ := h.group q L hL hen
      refine ⟨ms, hgroup L ms hg fun heq => ?_⟩
      have := hg.leader.1
      rw [heq, hnone] at this; cases this
    · subst hqp
      rw [Function.update_self] at hq
      dsimp only at hq
      rw [hthread] at hq; cases hq
    · rw [Function.update_of_ne hqp] at hq ⊢
      exact h.thread q hq
    · subst hqp
      rw [Function.update_self]
      exact .inr rfl
    · rw [Function.update_of_ne hqp] at hq hen ⊢
      exact h.process q hq hen
  · exact h

theorem WellGrouped.linkIn (h : E.WellGrouped) (hg : E.Group L ms) (hnp : (E np).phase = .unused)
    {e : Entry} (hphase : e.phase = .active) (hthread : e.isThread = true)
    (hleader : e.groupLeader = some L) (hprev : e.groupPrev = some L)
    (hnext : e.groupNext = (E L).groupNext) :
    (E.linkIn L np e).WellGrouped ∧ (E.linkIn L np e).Group L (np :: ms) := by
  have hen : ∀ q, q ≠ np → ((E.linkIn L np e q).Enrolled ↔ (E q).Enrolled) := by
    intro q hq; simp [Entries.linkIn, hq, Entry.Enrolled]
  have hlead : ∀ q, q ≠ np → (E.linkIn L np e q).groupLeader = (E q).groupLeader := by
    intro q hq; simp [Entries.linkIn, hq]
  have hthr : ∀ q, q ≠ np → (E.linkIn L np e q).isThread = (E q).isThread := by
    intro q hq; simp [Entries.linkIn, hq]
  have hself : E.linkIn L np e np = e := by simp [Entries.linkIn]
  have hen_np : e.Enrolled := by simp [Entry.Enrolled, hphase]
  have hidle := h.idle np hnp
  have hnotin : ∀ L' ms', E.Group L' ms' → np ∉ L' :: ms' := by
    intro L' ms' hg' hmem
    have := ((hg'.mem_iff np).1 hmem).1
    rw [hidle.1] at this; cases this
  have hLnp : L ≠ np := fun heq => hnotin L ms hg (by simp [heq])
  have hgroupL : (E.linkIn L np e).Group L (np :: ms) := by
    refine ⟨hg.ring.insert (hnotin L ms hg) ?_ ?_ ?_ ?_ ?_ ?_, fun q => ?_⟩
    · simp [Entries.linkIn, hLnp]
    · simp [hself, hnext]
    · simp [hself, hprev]
    · intro x hx
      have hxnp : x ≠ np := fun heq => hnotin L ms hg (heq ▸ hg.next_mem hx)
      simp [Entries.linkIn, hxnp, hx]
    · intro x hxL hxnp
      simp [Entries.linkIn, hxnp, hxL]
    · intro x hxnp hx
      simp [Entries.linkIn, hxnp, hx]
    · by_cases hq : q = np
      · subst hq
        simp [hself, hleader, hen_np]
      · rw [hlead q hq, hen q hq, ← hg.mem_iff]
        simp [hq]
  have hgroup : ∀ L' ms', E.Group L' ms' → L' ≠ L → (E.linkIn L np e).Group L' ms' := by
    intro L' ms' hg' hne
    refine hg'.congr (fun q hq => ?_) fun q => ?_
    · have hqnp : q ≠ np := fun heq => hnotin L' ms' hg' (heq ▸ hq)
      have hql : (E q).groupLeader = some L' := ((hg'.mem_iff q).1 hq).1
      have hqL : q ≠ L := fun heq => by
        rw [heq, hg.leader.1] at hql
        exact hne (Option.some.inj hql).symm
      have hqn : (E L).groupNext ≠ some q := fun heq => by
        have := ((hg.mem_iff q).1 (hg.next_mem heq)).1
        rw [hql] at this
        exact hne (Option.some.inj this)
      simp [Entries.linkIn, hqnp, hqL, hqn]
    · by_cases hq : q = np
      · subst hq
        rw [hself, hleader, hidle.1]
        exact ⟨fun ⟨hl, _⟩ => absurd (Option.some.inj hl).symm hne, fun ⟨hl, _⟩ => by cases hl⟩
      · rw [hlead q hq, hen q hq]
  refine ⟨⟨fun q hq => ?_, fun q L' hL hq => ?_, fun q hq => ?_, fun q hq hen' => ?_⟩, hgroupL⟩
  all_goals by_cases hqnp : q = np
  · subst hqnp
    rw [hself, hphase] at hq; cases hq
  · rw [hlead q hqnp, hthr q hqnp]
    refine h.idle q ?_
    simpa [Entries.linkIn, hqnp] using hq
  · subst hqnp
    rw [hself, hleader] at hL
    obtain rfl := Option.some.inj hL
    exact ⟨_, hgroupL⟩
  · rw [hlead q hqnp] at hL
    obtain ⟨ms', hg'⟩ := h.group q L' hL ((hen q hqnp).1 hq)
    by_cases heq : L' = L
    · subst heq
      exact ⟨_, hgroupL⟩
    · exact ⟨ms', hgroup L' ms' hg' heq⟩
  · subst hqnp
    rw [hself]
    exact ⟨hen_np, L, hLnp, hleader⟩
  · rw [hthr q hqnp] at hq
    rw [hen q hqnp, hlead q hqnp]
    exact h.thread q hq
  · subst hqnp
    rw [hself, hthread] at hq; cases hq
  · rw [hthr q hqnp] at hq
    rw [hlead q hqnp]
    exact h.process q hq ((hen q hqnp).1 hen')

/-! ## Releasing a group -/

/-- A whole group leaves the table. -/
theorem WellGrouped.dissolve (h : E.WellGrouped) (hg : E.Group L ms)
    (hin : ∀ q ∈ L :: ms, (E' q).phase = .unused ∧ (E' q).groupLeader = none ∧ (E' q).isThread = false)
    (hout : ∀ q, q ∉ L :: ms → E' q = E q) : E'.WellGrouped := by
  have hgroup : ∀ L' ms', E.Group L' ms' → L' ≠ L → E'.Group L' ms' := by
    intro L' ms' hg' hne
    have hdisj : ∀ q ∈ L' :: ms', q ∉ L :: ms := by
      intro q hq hq'
      have h1 := ((hg'.mem_iff q).1 hq).1
      rw [((hg.mem_iff q).1 hq').1] at h1
      exact hne (Option.some.inj h1).symm
    refine hg'.congr (fun q hq => ?_) fun q => ?_
    · rw [hout q (hdisj q hq)]
      exact ⟨rfl, rfl⟩
    · by_cases hq : q ∈ L :: ms
      · rw [← hg'.mem_iff, (hin q hq).2.1]
        exact ⟨fun ⟨hl, _⟩ => (by cases hl), fun hq' => absurd hq (hdisj q hq')⟩
      · rw [hout q hq]
  refine ⟨fun q hq => ?_, fun q L' hL hq => ?_, fun q hq => ?_, fun q hq hen => ?_⟩
  all_goals by_cases hmem : q ∈ L :: ms
  · exact ⟨(hin q hmem).2.1, (hin q hmem).2.2⟩
  · rw [hout q hmem] at hq ⊢
    exact h.idle q hq
  · rw [(hin q hmem).2.1] at hL; cases hL
  · rw [hout q hmem] at hL hq
    obtain ⟨ms', hg'⟩ := h.group q L' hL hq
    refine ⟨ms', hgroup L' ms' hg' fun heq => hmem ?_⟩
    subst heq
    rw [hg.unique hg']
    exact (hg'.mem_iff q).2 ⟨hL, hq⟩
  · rw [(hin q hmem).2.2] at hq; cases hq
  · rw [hout q hmem] at hq ⊢
    exact h.thread q hq
  · exact absurd (hin q hmem).1 hen.1
  · rw [hout q hmem] at hq hen ⊢
    exact h.process q hq hen

end Entries

end Xv6
