-- SUMMARY: What `kill` does, when it is what its caller asked for, and who can die of it.
import Xv6Threads.System.Groups

/-!
# kill

`kill` marks the first slot with the given pid, whether it is in use or not: a
slot keeps its pid when it is released, and slots never used have pid zero.
The mark stays in the slot until `freeproc` clears it, so it can hit a process
that did not exist when the call was made.

Along a run, `struck` collects the slots whose present occupant has been marked
since it was created.
-/

namespace Xv6

variable {b : Boot} {k : Kernel} {e : Event} {E' : Entries} {pid : Int}

/-- A slot in use has this pid. -/
def Kernel.Named (k : Kernel) (pid : Int) (q : Slot) : Prop :=
  (k.proc q).state ≠ .unused ∧ (k.proc q).pid = pid

instance (k : Kernel) (pid : Int) (q : Slot) : Decidable (k.Named pid q) :=
  inferInstanceAs (Decidable (_ ∧ _))

/-- The mark left in a slot: killed, and woken if asleep. -/
def Proc.marked (pr : Proc) : Proc :=
  { pr with killed := true, state := if pr.state = .sleeping then .runnable else pr.state }

/-- What `kill(pid)` is meant to do. -/
structure Kernel.KillSpec (k : Kernel) (pid : Int) : Prop where
  returns : (k.kill pid).1 = 0 ↔ ∃ q, k.Named pid q
  marks : (∃ q, k.Named pid q) → ∃ q, k.Named pid q ∧ (k.kill pid).2 = k.modify q Proc.marked
  refuses : (¬ ∃ q, k.Named pid q) → k.kill pid = (-1, k)

/-- The first slot with the pid, if there is one, is in use; or it is already
marked, and so is a slot in use with the same pid, which does not sleep. -/
def Kernel.HitsNamed (k : Kernel) (pid : Int) : Prop :=
  ∀ s, k.findPid pid = some s → (k.proc s).state ≠ .unused ∨
    (k.proc s).killed = true ∧
      ∃ q, k.Named pid q ∧ (k.proc q).killed = true ∧ (k.proc q).state ≠ .sleeping

namespace Kernel

theorem findPid_pid {s : Slot} (h : k.findPid pid = some s) : (k.proc s).pid = pid := by
  simpa using List.find?_some h

theorem findPid_none (h : k.findPid pid = none) (q : Slot) : ¬ k.Named pid q := fun hq => by
  have := List.find?_eq_none.1 h q (List.mem_finRange q)
  simp [hq.2] at this

theorem kill_of_findPid {s : Slot} (h : k.findPid pid = some s) :
    k.kill pid = (0, k.modify s Proc.marked) := by
  rw [kill, h]
  rfl

/-- Marking a slot twice is marking it once. -/
theorem modify_marked_eq_self {q : Slot} (hk : (k.proc q).killed = true)
    (hs : (k.proc q).state ≠ .sleeping) : k.modify q Proc.marked = k := by
  have hpr : (k.proc q).marked = k.proc q := by
    simp only [Proc.marked, if_neg hs]
    rw [← hk]
  rw [modify_eq_update, hpr, Function.update_eq_self]

/-- `kill` does what it is meant to exactly when the slot it meets first is in
use, apart from marks that change nothing. -/
theorem killSpec_iff (k : Kernel) (pid : Int) : k.KillSpec pid ↔ k.HitsNamed pid := by
  constructor
  · intro h s hs
    by_cases hunused : (k.proc s).state = .unused
    · right
      rw [← not_not (a := _ ∧ _)]
      intro hnot
      have hreturns := h.returns
      rw [kill_of_findPid hs] at hreturns
      obtain ⟨q, hq, heq⟩ := h.marks (hreturns.1 rfl)
      rw [kill_of_findPid hs] at heq
      have hsq : s ≠ q := fun hsq => hq.1 (hsq ▸ hunused)
      -- both slots carry the mark already
      have hs' : (k.proc s).marked = k.proc s := by
        have := congrArg (fun k' : Kernel => k'.proc s) heq
        simpa [modify_proc_ne hsq] using this
      have hq' : k.proc q = (k.proc q).marked := by
        have := congrArg (fun k' : Kernel => k'.proc q) heq
        simpa [modify_proc_ne hsq.symm] using this
      refine hnot ⟨?_, q, hq, ?_, ?_⟩
      · rw [← hs']; rfl
      · rw [hq']; rfl
      · rw [hq', Proc.marked]
        by_cases hsl : (k.proc q).state = .sleeping
        · simp [hsl]
        · simp [hsl]
    · exact .inl hunused
  · intro h
    cases hs : k.findPid pid with
    | none =>
      have hnone : ¬ ∃ q, k.Named pid q := fun ⟨q, hq⟩ => findPid_none hs q hq
      have hkill : k.kill pid = (-1, k) := by simp [kill, hs]
      exact ⟨by simp [hkill, hnone], fun hq => absurd hq hnone, fun _ => hkill⟩
    | some s =>
      have hkill := kill_of_findPid hs
      rcases h s hs with huse | ⟨hmark, q, hq, hqk, hqs⟩
      · have hnamed : k.Named pid s := ⟨huse, findPid_pid hs⟩
        exact ⟨by simp only [hkill, true_iff]; exact ⟨s, hnamed⟩,
          fun _ => ⟨s, hnamed, by rw [hkill]⟩, fun hnone => absurd ⟨s, hnamed⟩ hnone⟩
      · by_cases huse : (k.proc s).state = .unused
        · have hself := modify_marked_eq_self hmark (q := s) (by simp [huse])
          exact ⟨by simp only [hkill, true_iff]; exact ⟨q, hq⟩,
            fun _ => ⟨q, hq, by rw [hkill, hself, modify_marked_eq_self hqk hqs]⟩,
            fun hnone => absurd ⟨q, hq⟩ hnone⟩
        · have hnamed : k.Named pid s := ⟨huse, findPid_pid hs⟩
          exact ⟨by simp only [hkill, true_iff]; exact ⟨s, hnamed⟩,
            fun _ => ⟨s, hnamed, by rw [hkill]⟩, fun hnone => absurd ⟨s, hnamed⟩ hnone⟩

/-- The slots whose occupant has been marked since it was created, after `e`. -/
def struck (k : Kernel) (e : Event) (σ : Finset Slot) : Finset Slot :=
  Finset.univ.filter fun q => (k.proc q).state ≠ .unused ∧ (q ∈ σ ∨ k.strikes e = some q)

end Kernel

/-- The system, watching who has been marked. -/
def watched (b : Boot) : Lts (Kernel × Finset Slot) Event :=
  (system b).withHistory ∅ Kernel.struck

/-- The step marks no slot that is not in use, and releases no marked thread
with its leader. -/
def SparesUnborn (k : Kernel) (e : Event) : Prop :=
  (∀ q ∈ k.strikes e, (k.proc q).state ≠ .unused) ∧
    ∀ L ∈ k.reaps e, ∀ q, q ≠ L → (k.proc q).groupLeader = some L → (k.proc q).state ≠ .used →
      (k.proc q).killed = false

instance (k : Kernel) (e : Event) : Decidable (SparesUnborn k e) :=
  inferInstanceAs (Decidable (_ ∧ _))

/-- Slots not in use carry no mark, and a mark in a slot in use is one that its
occupant has received. -/
structure Entries.MarksOwn (E : Entries) (σ : Finset Slot) : Prop where
  idle : ∀ q, (E q).phase = .unused → (E q).killed = false
  own : ∀ q, (E q).phase ≠ .unused → (E q).killed = true → q ∈ σ

theorem Kernel.mem_struck {σ : Finset Slot} {q : Slot} : q ∈ k.struck e σ ↔
    (k.entries q).phase ≠ .unused ∧ (q ∈ σ ∨ k.strikes e = some q) := by
  have hphase : (k.proc q).state ≠ .unused ↔ (k.entries q).phase ≠ .unused := by
    cases hs : (k.proc q).state <;> simp [Kernel.entries, Proc.entry, hs, ProcState.phase]
  simp only [Kernel.struck, Finset.mem_filter, Finset.mem_univ, true_and, hphase]

/-- A mark that was there before, or none at all, needs no new explanation. -/
theorem Entries.MarksOwn.of_kept {σ : Finset Slot} (h : k.entries.MarksOwn σ)
    (hidle : ∀ q, (E' q).phase = .unused → (E' q).killed = false)
    (hown : ∀ q, (E' q).killed = true → (k.entries q).killed = true) :
    E'.MarksOwn (k.struck e σ) := by
  refine ⟨hidle, fun q _ hk => ?_⟩
  have hkilled := hown q hk
  have huse : (k.entries q).phase ≠ .unused := fun hu => by rw [h.idle q hu] at hkilled; cases hkilled
  exact Kernel.mem_struck.2 ⟨huse, .inl (h.own q huse hkilled)⟩

/-- Counting out and marking as exited leaves the mark of a kill alone. -/
theorem Entries.dropRef_update_killed {E : Entries} {L p q : Slot} {ph : Phase} (hph : ph ≠ .unused) :
    let F := Function.update (Function.update E L (E L).dropRef) p { E p with phase := ph }
    (F q).killed = (E q).killed ∧ ((F q).phase = .unused → (E q).phase = .unused) := by
  have hdrop : (E L).dropRef.killed = (E L).killed ∧ (E L).dropRef.phase = (E L).phase := by
    unfold Entry.dropRef; split <;> exact ⟨rfl, rfl⟩
  intro F
  by_cases hqp : q = p
  · subst hqp
    simp [F, hph]
  · by_cases hqL : q = L
    · subst hqL
      simp [F, hqp, hdrop]
    · simp [F, hqp, hqL]

theorem Move.marksOwn {σ : Finset Slot} (hm : Move k e E') (hG : SparesUnborn k e) (h : k.entries.MarksOwn σ) : E'.MarksOwn (k.struck e σ) := by
  have hfound : ∀ p q, (k.entries.found p q).killed = (k.entries q).killed ∧
      (k.entries.found p q).phase = (k.entries q).phase := by
    intro p q
    unfold Entries.found
    split
    · by_cases hq : q = p
      · subst hq; simp
      · simp [hq]
    · exact ⟨rfl, rfl⟩
  cases hm with
  | quiet => exact h.of_kept h.idle fun q hq => hq
  | strike _ s hs =>
    have huse : (k.entries s).phase ≠ .unused := by
      intro hu
      refine hG.1 s hs ?_
      cases hst : (k.proc s).state <;> simp [Kernel.entries, Proc.entry, hst, ProcState.phase] at hu ⊢
    refine ⟨fun q hq => ?_, fun q hq hk => ?_⟩
    · by_cases hqs : q = s
      · subst hqs
        rw [Function.update_self] at hq
        exact absurd hq huse
      · rw [Function.update_of_ne hqs] at hq ⊢
        exact h.idle q hq
    · by_cases hqs : q = s
      · subst hqs
        exact Kernel.mem_struck.2 ⟨huse, .inr hs⟩
      · rw [Function.update_of_ne hqs] at hq hk
        exact Kernel.mem_struck.2 ⟨hq, .inl (h.own q hq hk)⟩
  | allocFail p np c hfind =>
    refine h.of_kept (fun q hq => ?_) fun q hq => ?_
    all_goals by_cases hqn : q = np
    · subst hqn; simp [Entry.clear]
    · rw [Function.update_of_ne hqn] at hq ⊢; exact h.idle q hq
    · subst hqn; simp [Entry.clear] at hq
    · rwa [Function.update_of_ne hqn] at hq
  | fork p np hp hfind =>
    refine h.of_kept (fun q hq => ?_) fun q hq => ?_
    all_goals by_cases hqn : q = np
    · subst hqn; simp at hq
    · rw [Function.update_of_ne hqn] at hq ⊢; exact h.idle q hq
    · subst hqn; simpa [Entry.claim] using hq
    · rwa [Function.update_of_ne hqn] at hq
  | create p np L start arg ms x hp hfind hL hg hx =>
    refine h.of_kept (fun q hq => ?_) fun q hq => ?_
    all_goals by_cases hqn : q = np
    · simp [Entries.linkIn, hqn, hx] at hq
    · simp only [Entries.linkIn, if_neg hqn, (hfound p q).1, (hfound p q).2] at hq ⊢
      exact h.idle q hq
    · simpa [Entries.linkIn, hqn, hx, Entry.claim] using hq
    · simpa only [Entries.linkIn, if_neg hqn, (hfound p q).1] using hq
  | createBad p np L start arg x hp hfind hL hx =>
    refine h.of_kept (fun q hq => ?_) fun q hq => ?_
    all_goals by_cases hqn : q = np
    · subst hqn; simp [hx, Entry.claim] at hq
    · rw [Function.update_of_ne hqn, (hfound p q).2] at hq
      rw [Function.update_of_ne hqn, (hfound p q).1]
      exact h.idle q hq
    · subst hqn; simpa [hx, Entry.claim] using hq
    · rwa [Function.update_of_ne hqn, (hfound p q).1] at hq
  | threadExit _ p L _ hp _ _ _ =>
    exact h.of_kept
      (fun q hq => (Entries.dropRef_update_killed (by simp)).1.trans
        (h.idle q ((Entries.dropRef_update_killed (by simp)).2 hq)))
      fun q hq => (Entries.dropRef_update_killed (by simp)).1.symm.trans hq
  | processExit _ p _ hp _ =>
    refine h.of_kept (fun q hq => ?_) fun q hq => hq
    by_cases hqp : q = p
    · subst hqp; simp [Kernel.retire] at hq
    · simp only [Kernel.retire, if_neg hqp] at hq
      exact h.idle q hq
  | reapThread _ p L _ _ _ _ =>
    exact h.of_kept
      (fun q hq => (Entries.dropRef_update_killed (by simp)).1.trans
        (h.idle q ((Entries.dropRef_update_killed (by simp)).2 hq)))
      fun q hq => (Entries.dropRef_update_killed (by simp)).1.symm.trans hq
  | reapProcess _ p _ _ _ =>
    refine h.of_kept (fun q hq => ?_) fun q hq => ?_
    all_goals by_cases hqp : q = p
    · subst hqp; simp [Entry.clear]
    · rw [Function.update_of_ne hqp] at hq ⊢; exact h.idle q hq
    · subst hqp; simp [Entry.clear] at hq
    · rwa [Function.update_of_ne hqp] at hq
  | reapGroup _ L ms chan files hreap _ hg _ =>
    -- the members released with the leader carry no mark
    have hms : ∀ q ∈ ms, (k.entries q).killed = false := by
      intro q hq
      have hmem := (hg.mem_iff q).1 (by simp [hq])
      refine hG.2 L hreap q (fun heq => hg.ring.head_notMem (heq ▸ hq)) hmem.1 fun hused => ?_
      exact hmem.2.2 (by simp [Kernel.entries, Proc.entry, hused, ProcState.phase])
    refine h.of_kept (fun q hq => ?_) fun q hq => ?_
    all_goals by_cases hqL : q = L
    · simp [Entries.disband, hqL, Entry.clear]
    · by_cases hqm : q ∈ ms
      · simpa [Entries.disband, hqL, hqm, Entry.release] using hms q hqm
      · simp only [Entries.disband, if_neg hqL, if_neg hqm] at hq ⊢
        exact h.idle q hq
    · simp [Entries.disband, hqL, Entry.clear] at hq
    · by_cases hqm : q ∈ ms
      · simpa [Entries.disband, hqL, hqm, Entry.release] using hq
      · simpa [Entries.disband, hqL, hqm] using hq

/-- `kill(pid)` does what it is meant to exactly when it hits a slot in use,
apart from marks that change nothing; and in a run that marks slots in use only
and releases no marked thread with its leader, a process that dies of a mark
has received it itself. -/
theorem kill_reaches_named (b : Boot) (k : Kernel) :
    (Reachable b k → ∀ pid, k.KillSpec pid ↔ k.HitsNamed pid) ∧
    ∀ σ : Finset Slot, (watched b).Reaches (fun s => SparesUnborn s.1) (k, σ) →
      ∀ p, k.enabled (.die p) = true → p ∈ σ := by
  refine ⟨fun _ pid => k.killSpec_iff pid, fun σ h p hp => ?_⟩
  have hinv := h.invariant (P := fun s => s.1.entries.WellGrouped ∧ s.1.entries.MarksOwn s.2) ?_ ?_
  · have hdie : (k.proc p).state = .running ∧ (k.proc p).killed = true := by simpa [Kernel.enabled] using hp
    exact hinv.2.own p (by simp [Kernel.entries, Proc.entry, hdie.1, ProcState.phase]) hdie.2
  · rintro ⟨k, σ⟩ ⟨hk, rfl⟩
    obtain ⟨p, hne, -, hp⟩ := Boot.main_entries (k := k) hk
    have hfalse : ∀ q, (k.entries q).killed = false := by
      intro q
      by_cases hq : q = p
      · subst hq; rw [hp]; rfl
      · simp [Kernel.entries, hne q hq, Proc.entry, Proc.zero]
    exact ⟨Boot.main_wellGrouped hk, fun q _ => hfalse q, fun q _ hq => by rw [hfalse q] at hq; cases hq⟩
  · rintro ⟨k, σ⟩ e ⟨k', σ'⟩ ⟨hE, hmarks⟩ hG ⟨⟨hen, r, hstep⟩, rfl⟩
    have hm := Kernel.step_move hE hen hstep
    exact ⟨hm.wellGrouped hE, hm.marksOwn hG hmarks⟩

/-- A child that is killed and then switched to: the mark it dies of is its own. -/
theorem kill_reaches_named_child : ∃ k σ, Reachable .standard k ∧ k.KillSpec 2 ∧
    (watched .standard).Reaches (fun s => SparesUnborn s.1) (k, σ) ∧
    k.enabled (.die ⟨1, by decide⟩) = true ∧ ⟨1, by decide⟩ ∈ σ := by
  have hrun : (Boot.standard.run SparesUnborn
      [.schedule ⟨0, by decide⟩, .call ⟨0, by decide⟩ .fork, .call ⟨0, by decide⟩ (.kill 2),
        .schedule ⟨1, by decide⟩]).any
      (fun k => k.enabled (.die ⟨1, by decide⟩) ∧ k.findPid 2 = some ⟨1, by decide⟩ ∧
        (k.proc ⟨1, by decide⟩).state ≠ .unused) = true := by decide +kernel
  obtain ⟨k, hk, hc⟩ := exists_reaches_of_run hrun
  obtain ⟨hdie, hfind, huse⟩ := of_decide_eq_true hc
  obtain ⟨σ, hσ⟩ := hk.exists_history (∅ : Finset Slot) Kernel.struck
  have hreach : Reachable .standard k := hk.mono fun _ _ _ => trivial
  refine ⟨k, σ, hreach, ((kill_reaches_named _ k).1 hreach 2).2 ?_, hσ, hdie,
    (kill_reaches_named _ k).2 σ hσ _ hdie⟩
  intro s hs
  rw [hfind] at hs
  obtain rfl := Option.some.inj hs
  exact .inl huse

/-- Right after boot, `kill(0)` reports success although no process has pid
zero: it has marked a slot that was never used. -/
theorem kill_hits_unused_slot :
    ¬ ∀ (b : Boot) (k : Kernel), Reachable b k → ∀ pid, k.KillSpec pid := by
  intro h
  have hrun : (Boot.standard.run anyStep []).any
      (fun k => (k.kill 0).1 = 0 ∧ ∀ q, ¬ k.Named 0 q) = true := by decide +kernel
  obtain ⟨k, hk, hc⟩ := exists_reaches_of_run hrun
  obtain ⟨hzero, hnone⟩ := of_decide_eq_true hc
  obtain ⟨q, hq⟩ := (h _ k hk 0).returns.1 hzero
  exact hnone q hq

end Xv6
