-- SUMMARY: When a slot taken by `allocproc` shows nothing of its previous occupant.
import Xv6Threads.System.Groups

/-!
# Fresh slots

`allocproc` resets the group links and counters of a slot and nothing else, so
a new occupant sees what the last one left in the other fields. A slot becomes
`UNUSED` at the end of `freeproc`, which clears what is needed, or in its loop
over the other members of a group, which leaves `parent`, `chan`, `killed` and
the open files; and `kill` writes to slots that are not in use.
-/

namespace Xv6

variable {b : Boot} {k : Kernel} {e : Event} {E' : Entries}

/-- Nothing of a previous occupant is visible. -/
structure Proc.Blank (pr : Proc) : Prop where
  killed : pr.killed = false
  chan : pr.chan = none
  ofile : ∀ i, pr.ofile i = none
  cwd : pr.cwd = none
  isThread : pr.isThread = false
  tid : pr.tid = 0
  links : pr.groupLeader = none ∧ pr.groupNext = none ∧ pr.groupPrev = none
  counters : pr.numChildren = 0 ∧ pr.refCount = 0

/-- A slot that is not in use is nobody's child, and the slot that `allocproc`
returns is blank. -/
def Kernel.SlotsFresh (k : Kernel) : Prop :=
  (∀ q, (k.proc q).state = .unused → (k.proc q).parent = none) ∧
    ∀ p k', k.allocproc = .ok (some p, k') → (k'.proc p).Blank

/-- The step reaps no leader whose ring has another member, and marks no slot
that is not in use. -/
def LeavesNothing (k : Kernel) (e : Event) : Prop :=
  (∀ L ∈ k.reaps e, (k.proc L).groupLeader = some L → (k.proc L).groupNext = some L) ∧
    ∀ q ∈ k.strikes e, (k.proc q).state ≠ .unused

instance (k : Kernel) (e : Event) : Decidable (LeavesNothing k e) :=
  inferInstanceAs (Decidable (_ ∧ _))

namespace Entries

/-- An entry of a slot that is not in use and has nothing to show. -/
structure Vacant (x : Entry) : Prop where
  parent : x.parent = none
  killed : x.killed = false
  chan : x.chan = none
  ofile : x.ofile = fun _ => none
  cwd : x.cwd = none
  isThread : x.isThread = false
  tid : x.tid = 0

/-- Slots not in use are vacant, and exited processes have no open files. -/
structure Clean (E : Entries) : Prop where
  vacant : ∀ q, (E q).phase = .unused → Vacant (E q)
  closed : ∀ q, (E q).phase = .zombie → (E q).isThread = false → (E q).ofile = fun _ => none

variable {E : Entries} {p : Slot}

/-- One slot changes. -/
theorem Clean.update (h : E.Clean) {x : Entry} (hv : x.phase = .unused → Vacant x)
    (hz : x.phase = .zombie → x.isThread = false → x.ofile = fun _ => none) :
    Clean (Function.update E p x) := by
  constructor
  · intro q hq
    by_cases hqp : q = p
    · subst hqp
      rw [Function.update_self] at hq ⊢
      exact hv hq
    · rw [Function.update_of_ne hqp] at hq ⊢
      exact h.vacant q hq
  · intro q hq hthread
    by_cases hqp : q = p
    · subst hqp
      rw [Function.update_self] at hq hthread ⊢
      exact hz hq hthread
    · rw [Function.update_of_ne hqp] at hq hthread ⊢
      exact h.closed q hq hthread

/-- Group links and counters of slots in use do not matter. -/
theorem Clean.found (h : E.Clean) (hp : (E p).phase = .active) : (E.found p).Clean := by
  unfold Entries.found
  split
  · exact h.update (by simp [hp]) (by simp [hp])
  · exact h

end Entries

theorem Entry.clear_vacant {x : Entry} (hfiles : x.ofile = fun _ => none) : Entries.Vacant x.clear :=
  ⟨rfl, rfl, rfl, hfiles, rfl, rfl, rfl⟩

theorem Entry.dropRef_phase (x : Entry) : x.dropRef.phase = x.phase ∧ x.dropRef.isThread = x.isThread ∧
    x.dropRef.ofile = x.ofile := by
  unfold Entry.dropRef
  split <;> exact ⟨rfl, rfl, rfl⟩

/-- The leader of a group has an entry of its own kept by counting out. -/
theorem Entries.Clean.dropRef_update {E : Entries} {L p : Slot} (h : E.Clean) {ph : Phase}
    (hL : (E L).phase ≠ .unused) (hp : ph ≠ .unused) (hz : ph = .zombie → (E p).isThread = true) :
    Clean (Function.update (Function.update E L (E L).dropRef) p { E p with phase := ph }) := by
  have hdrop := (E L).dropRef_phase
  refine (h.update ?_ ?_).update (fun hu => absurd hu hp) ?_
  · rw [hdrop.1]
    exact fun hu => absurd hu hL
  · rw [hdrop.1, hdrop.2.1, hdrop.2.2]
    exact h.closed L
  · intro hzombie hthread
    rw [hz hzombie] at hthread
    cases hthread

/-- A live process shows no open files in its entry. -/
theorem Kernel.entries_ofile_of_active {q : Slot} (h : (k.entries q).phase = .active) :
    (k.entries q).ofile = fun _ => none := by
  have hs : ¬ (k.proc q).KeepsFiles := by
    rintro (hu | ⟨hz, -⟩)
    · simp [Kernel.entries, Proc.entry, hu, ProcState.phase] at h
    · simp [Kernel.entries, Proc.entry, hz, ProcState.phase] at h
  simp [Kernel.entries, Proc.entry, hs]

/-- A move that leaves nothing behind keeps the table clean. -/
theorem Move.clean (hm : Move k e E') (hE : k.entries.WellGrouped) (hG : LeavesNothing k e)
    (h : k.entries.Clean) : E'.Clean := by
  have hvacant : ∀ np, k.findUnused = some np → Entries.Vacant (k.entries np) := fun np hnp =>
    h.vacant np (Kernel.findUnused_phase hnp)
  have hleader : ∀ q L, (k.entries q).groupLeader = some L → (k.entries q).Enrolled →
      (k.entries L).phase ≠ .unused := by
    intro q L hL hen
    obtain ⟨ms, hg⟩ := hE.group q L hL hen
    exact hg.leader.2.1
  cases hm with
  | quiet => exact h
  | strike _ q hstrike =>
    have hq : (k.entries q).phase ≠ .unused := by
      intro hu
      refine hG.2 q hstrike ?_
      cases hst : (k.proc q).state <;> simp [Kernel.entries, Proc.entry, hst, ProcState.phase] at hu ⊢
    exact h.update (fun hu => absurd hu hq) (h.closed q)
  | allocFail p np c hfind =>
    have hv := Entry.clear_vacant (hvacant np hfind).ofile
    exact h.update (fun _ => ⟨hv.parent, hv.killed, hv.chan, hv.ofile, hv.cwd, hv.isThread, hv.tid⟩)
      (by simp [Entry.clear])
  | fork p np hp hfind => exact h.update (by simp) (by simp)
  | create p np L start arg ms x hp hfind hL hg hx =>
    have hfound := h.found hp
    constructor
    · intro q hq
      by_cases hqnp : q = np
      · simp [Entries.linkIn, hqnp, hx] at hq
      · simp only [Entries.linkIn, if_neg hqnp] at hq ⊢
        have hv := hfound.vacant q hq
        exact ⟨hv.parent, hv.killed, hv.chan, hv.ofile, hv.cwd, hv.isThread, hv.tid⟩
    · intro q hq hthread
      by_cases hqnp : q = np
      · simp [Entries.linkIn, hqnp, hx] at hq
      · simp only [Entries.linkIn, if_neg hqnp] at hq hthread ⊢
        exact hfound.closed q hq hthread
  | createBad p np L start arg x hp hfind hL hx =>
    exact (h.found hp).update (by simp [hx, Entry.claim]) (by simp [hx, Entry.claim])
  | threadExit _ p L _ hp hthread hpL _ =>
    exact h.dropRef_update (hleader p L hpL (Entry.enrolled_of_active hp)) (by simp) fun _ => hthread
  | processExit _ p _ hp _ =>
    constructor
    · intro q hq
      have hqp : q ≠ p := fun heq => by simp [Kernel.retire, heq] at hq
      simp only [Kernel.retire, if_neg hqp] at hq ⊢
      have hv := h.vacant q hq
      exact ⟨by simp [hv.parent], hv.killed, hv.chan, hv.ofile, hv.cwd, hv.isThread, hv.tid⟩
    · intro q hq hthread
      by_cases hqp : q = p
      · subst hqp
        exact Kernel.entries_ofile_of_active hp
      · simp only [Kernel.retire, if_neg hqp] at hq hthread ⊢
        exact h.closed q hq hthread
  | reapThread _ q L _ hq hqL _ =>
    exact h.dropRef_update (hleader q L hqL (Entry.enrolled_of_zombie hq)) (by simp) (by simp)
  | reapProcess _ q _ hq hL =>
    have hthread : (k.entries q).isThread = false := by
      by_contra hthread
      obtain ⟨-, L, -, hL'⟩ := hE.thread q (by simpa using hthread)
      rw [hL] at hL'; cases hL'
    exact h.update (fun _ => Entry.clear_vacant (h.closed q hq hthread)) (by simp [Entry.clear])
  | reapGroup _ L ms chan files hreap hq hg _ =>
    -- the ring holds the leader only
    have hnext := hG.1 L hreap hg.leader.1
    have hnil : Follows (fun q => (k.entries q).groupNext) (k.entries L).groupNext [] L := hnext
    have hms : ms = [] := hg.ring.follows.unique hnil hg.ring.head_notMem (by simp)
    subst hms
    have hthread := hE.not_isThread_of_leader hg.leader.1
    have hupd : k.entries.disband L [] chan files = Function.update k.entries L (k.entries L).clear := by
      funext q
      by_cases hqL : q = L
      · subst hqL; simp [Entries.disband]
      · simp [Entries.disband, hqL]
    rw [hupd]
    exact h.update (fun _ => Entry.clear_vacant (h.closed L hq hthread)) (by simp [Entry.clear])

/-- In a clean table, slots are taken fresh. -/
theorem Entries.Clean.slotsFresh (h : k.entries.Clean) : k.SlotsFresh := by
  have hv : ∀ q, (k.proc q).state = .unused → Entries.Vacant (k.entries q) := fun q hq =>
    h.vacant q (by simp [Kernel.entries, Proc.entry, hq, ProcState.phase])
  refine ⟨fun q hq => (hv q hq).parent, fun p k' halloc => ?_⟩
  have hunused := Kernel.findUnused_unused (Kernel.allocproc_some halloc).1
  obtain ⟨-, tf, pt, hp⟩ := Kernel.allocproc_some_proc halloc
  have hvp := hv p hunused
  have hchan : (k.proc p).chan = none := by
    simpa [Kernel.entries, Proc.entry, hunused] using hvp.chan
  have hfiles : (k.proc p).ofile = fun _ => none := by
    simpa [Kernel.entries, Proc.entry, hunused, Proc.KeepsFiles] using hvp.ofile
  have hcwd : (k.proc p).cwd = none := by
    simpa [Kernel.entries, Proc.entry, hunused] using hvp.cwd
  rw [hp]
  exact ⟨hvp.killed, hchan, fun i => congrFun hfiles i, hcwd, hvp.isThread, hvp.tid, ⟨rfl, rfl, rfl⟩,
    ⟨rfl, rfl⟩⟩

theorem Boot.procinit_clean (b : Boot) : b.procinit.entries.Clean := by
  refine ⟨fun q _ => ⟨rfl, rfl, ?_, ?_, ?_, rfl, rfl⟩, fun q hq _ => ?_⟩
  all_goals simp [Kernel.entries, Boot.procinit, Proc.zero, Proc.entry, Proc.KeepsFiles]

theorem Boot.main_clean (h : b.main = .ok k) : k.entries.Clean := by
  obtain ⟨p, hne, -, hp⟩ := Boot.main_entries h
  have hupd : k.entries = Function.update b.procinit.entries p (k.entries p) := by
    funext q
    by_cases hq : q = p
    · subst hq; simp
    · simp [Kernel.entries, hne q hq, hq, Boot.procinit]
  rw [hupd]
  exact b.procinit_clean.update (by simp [hp]) (by simp [hp])

/-- In every run that reaps no leader with other members on its ring and marks
no unused slot, slots are taken fresh: at boot and ever after. -/
theorem allocproc_fresh (b : Boot) : b.procinit.SlotsFresh ∧
    ∀ k, (system b).Reaches LeavesNothing k → k.SlotsFresh := by
  refine ⟨b.procinit_clean.slotsFresh, fun k h => ?_⟩
  have hinv := h.invariant (P := fun k => k.entries.WellGrouped ∧ k.entries.Clean)
    (fun k hk => ⟨Boot.main_wellGrouped hk, Boot.main_clean hk⟩) ?_
  · exact hinv.2.slotsFresh
  · rintro k e k' ⟨hE, hc⟩ hG ⟨hen, r, hstep⟩
    have hm := Kernel.step_move hE hen hstep
    exact ⟨hm.wellGrouped hE, hm.clean hE hG hc⟩

/-- A child that has exited and been reaped leaves its slot fresh. -/
theorem allocproc_fresh_after_wait : ∃ k, (system .standard).Reaches LeavesNothing k ∧ k.SlotsFresh ∧
    k.findUnused = some ⟨1, by decide⟩ ∧ (k.proc ⟨1, by decide⟩).pid = 2 := by
  have hrun : (Boot.standard.run LeavesNothing
      [.schedule ⟨0, by decide⟩, .call ⟨0, by decide⟩ .fork, .schedule ⟨1, by decide⟩,
        .call ⟨1, by decide⟩ (.exit 0), .call ⟨0, by decide⟩ (.wait 0)]).any
      (fun k => k.findUnused = some ⟨1, by decide⟩ ∧ (k.proc ⟨1, by decide⟩).pid = 2) = true := by
    decide +kernel
  obtain ⟨k, hk, hc⟩ := exists_reaches_of_run hrun
  exact ⟨k, hk, (allocproc_fresh .standard).2 k hk, of_decide_eq_true hc⟩

/-- A thread released with its leader keeps its parent: its slot is unused and
still a child of the first process. -/
theorem slot_not_fresh_after_group : ¬ ∀ (b : Boot) (k : Kernel), Reachable b k → k.SlotsFresh := by
  intro h
  have hrun : (Boot.standard.run anyStep
      [.schedule ⟨0, by decide⟩, .call ⟨0, by decide⟩ .fork, .schedule ⟨1, by decide⟩,
        .call ⟨1, by decide⟩ (.threadCreate 0 0), .schedule ⟨2, by decide⟩,
        .call ⟨2, by decide⟩ .threadExit, .call ⟨1, by decide⟩ (.exit 0),
        .call ⟨0, by decide⟩ (.wait 0)]).any
      (fun k => (k.proc ⟨2, by decide⟩).state = .unused ∧
        (k.proc ⟨2, by decide⟩).parent = some ⟨0, by decide⟩) = true := by decide +kernel
  obtain ⟨k, hk, hc⟩ := exists_reaches_of_run hrun
  obtain ⟨hunused, hparent⟩ := of_decide_eq_true hc
  rw [(h _ k hk).1 _ hunused] at hparent
  cases hparent

end Xv6
