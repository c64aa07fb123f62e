-- SUMMARY: Every slot in use has a parent that has not exited, in runs where nobody leaves children behind.
import Xv6Threads.Process.Calm
import Xv6Threads.Process.Shortage
import Xv6Threads.System.Groups

/-!
# Orphans

`exit` hands the children of a process to init before the process is gone.
`thread_exit` does not, nor does the release of a group with its members, and
nothing stops init itself from exiting. `Bequeaths` excludes the steps in which
one of them leaves a child behind, and a `thread_create` that runs out of
memory after it has taken a slot: such a slot has no parent.
-/

namespace Xv6

variable {b : Boot} {k k' : Kernel} {e : Event} {E' : Entries} {p q c : Slot}

namespace Kernel

/-- `c` is a child of `p`, and its slot is in use. -/
def Child (k : Kernel) (p c : Slot) : Prop := (k.proc c).state ≠ .unused ∧ (k.proc c).parent = some p

instance (k : Kernel) (p c : Slot) : Decidable (k.Child p c) := inferInstanceAs (Decidable (_ ∧ _))

/-- Every slot in use but init has a parent, and the parent has not exited. -/
def Adopted (k : Kernel) : Prop :=
  ∀ c, c ≠ k.initproc → (k.proc c).state ≠ .unused → ∃ p, (k.proc c).parent = some p ∧
    (k.proc p).state ≠ .zombie ∧ (k.proc p).state ≠ .ghost ∧ (k.proc p).state ≠ .unused

instance (k : Kernel) : Decidable k.Adopted := by
  unfold Adopted
  infer_instance

/-- Who exits with children is a process other than init, and init is there to
take them; a member that has not exited when its group is released has children
in the group only; and a new thread gets its stack. -/
structure Bequeaths (k : Kernel) (e : Event) : Prop where
  exit : ∀ p ∈ e.exits, ∀ c, k.Child p c →
    (k.proc p).isThread = false ∧ p ≠ k.initproc ∧ (k.proc k.initproc).state.phase = .active
  release : ∀ L ∈ k.reaps e, ∀ q c, (k.proc q).groupLeader = some L →
    (k.proc q).state.phase = .active → k.Child q c → (k.proc c).groupLeader = some L
  stack : ∀ p ∈ e.creates, k.lacksStack p = false

instance (k : Kernel) (e : Event) : Decidable (k.Bequeaths e) :=
  decidable_of_iff _
    ⟨fun ⟨h₁, h₂, h₃⟩ => Bequeaths.mk h₁ h₂ h₃, fun h => And.intro h.exit (And.intro h.release h.stack)⟩

/-! ## Slots left behind by thread_create -/

/-- A thread_create that leaves its slot in state `USED` found no page for the stack. -/
theorem lacksStack_of_left {r : Option Int} {start arg : Nat} (hp : (k.entries p).phase = .active)
    (hfind : k.findUnused = some q) (h : k.step (.call p (.threadCreate start arg)) = .ok (r, k'))
    (hq : (k'.entries q).phase = .used) : k.lacksStack p = true := by
  obtain ⟨⟨v, k₁⟩, hv, hr⟩ := Except.bind_ok_iff.1 h
  cases hr
  rcases threadCreate_ok hv with halloc | ⟨np, k₁, k₂, pt, npt, b, m, npt', halloc, henter, hpt, hnpt, hshare, hend⟩
  · rcases allocproc_none halloc with ⟨hnone, -⟩ | ⟨np, m, hfind', -, rfl⟩
    · rw [hnone] at hfind
      cases hfind
    · obtain rfl := Option.some.inj (hfind'.symm.trans hfind)
      simp [entries, Proc.entry, Proc.clear, ProcState.phase] at hq
  · have hslot := (allocproc_some halloc).1
    rcases hend with ⟨m', hk, -⟩ | ⟨stack, m', k₃, -, -, hstart⟩
    · have hpnp : p ≠ np := by
        rintro rfl
        rw [findUnused_phase hslot] at hp
        cases hp
      have hshares := shares_of_parts halloc hpnp henter hpt hnpt hshare
      exact (hshares.freelist_eq_nil_iff hslot).1 (Mem.kalloc_none hk).1
    · obtain rfl : np = q := Option.some.inj (hslot.symm.trans hfind)
      obtain ⟨ntf, regs, ft, ir, files, cwd, -, rfl⟩ := startThread_ok hstart
      simp [entries, Proc.entry, ProcState.phase] at hq

theorem used_of_update {E : Entries} {x : Slot} {en : Entry} (hq : (Function.update E x en q).phase = .used)
    (hx : en.phase = .used → (E x).phase = .used) : (E q).phase = .used := by
  by_cases hqx : q = x
  · subst hqx
    rw [Function.update_self] at hq
    exact hx hq
  · rwa [Function.update_of_ne hqx] at hq

theorem used_of_dropRef {E : Entries} {L : Slot} (hq : (Function.update E L (E L).dropRef q).phase = .used) : (E q).phase = .used :=
  used_of_update hq (E L).dropRef_sameGroup.phase.2.1

/-- A slot is left in state `USED` only when there is no page for the stack. -/
theorem step_used {r : Option Int} (hE : k.entries.WellGrouped) (hen : k.enabled e = true)
    (hG : ∀ p ∈ e.creates, k.lacksStack p = false)
    (h : k.step e = .ok (r, k')) (hq : (k'.entries q).phase = .used) : (k.entries q).phase = .used := by
  have hm := step_move hE hen h
  generalize hE' : k'.entries = E' at hm
  rw [hE'] at hq
  cases hm with
  | quiet => exact hq
  | strike _ x hx => exact used_of_update hq id
  | allocFail p np c hfind => exact used_of_update hq (fun h => by cases h)
  | fork p np hp hfind => exact used_of_update hq (fun h => by cases h)
  | create p np L start arg ms x hp hfind hL hg hx =>
    by_cases hqx : q = np
    · subst hqx hx
      simp [Entries.linkIn] at hq
    · simpa [Entries.linkIn, hqx, found_phase] using hq
  | createBad p np L start arg x hp hfind hL hx =>
    by_cases hqx : q = np
    · subst hqx
      have hlacks := hG p rfl
      rw [lacksStack_of_left hp hfind h (hE' ▸ hq)] at hlacks
      cases hlacks
    · rwa [Function.update_of_ne hqx, found_phase] at hq
  | threadExit _ x L he hp ht hL hne => exact used_of_dropRef (used_of_update hq (fun h => by cases h))
  | processExit _ x he hp ht =>
    simp only [retire] at hq
    split at hq
    · cases hq
    · exact hq
  | reapThread _ x L hr hz hL hne => exact used_of_dropRef (used_of_update hq (fun h => by cases h))
  | reapProcess _ x hr hz hL => exact used_of_update hq (fun h => by cases h)
  | reapGroup _ L ms chan files hr hz hg href =>
    simp only [Entries.disband] at hq
    split at hq
    · cases hq
    · split at hq
      · cases hq
      · exact hq

end Kernel

/-! ## Parents -/

/-- No slot is left behind, and every slot in use but `init` has an active parent. -/
structure Entries.Parented (E : Entries) (init : Slot) : Prop where
  settled : ∀ q, (E q).phase ≠ .used
  parent : ∀ c, c ≠ init → (E c).phase ≠ .unused → ∃ p, (E c).parent = some p ∧ (E p).phase = .active

/-- Slots keep their parents, and active slots stay active but for some that are
nobody's parent. -/
theorem Entries.Parented.mono {E : Entries} {init : Slot} (h : E.Parented init)
    (hused : ∀ q, (E' q).phase ≠ .used)
    (hparent : ∀ c, (E' c).phase ≠ .unused → (E c).phase ≠ .unused ∧ (E' c).parent = (E c).parent)
    (hactive : ∀ p c, (E' c).phase ≠ .unused → (E c).parent = some p → (E p).phase = .active →
      (E' p).phase = .active) : E'.Parented init := by
  refine ⟨hused, fun c hc hu => ?_⟩
  obtain ⟨hu', heq⟩ := hparent c hu
  obtain ⟨p, hp, hact⟩ := h.parent c hc hu'
  exact ⟨p, heq.trans hp, hactive p c hu hp hact⟩

/-- A slot is taken by a child of an active process. -/
theorem Entries.Parented.taken {E : Entries} {init n : Slot} (h : E.Parented init)
    (hused : ∀ q, (E' q).phase ≠ .used) (hnp : (E n).phase = .unused) (hp : (E p).phase = .active)
    (hself : (E' n).parent = some p)
    (hother : ∀ q, q ≠ n → (E' q).phase = (E q).phase ∧ (E' q).parent = (E q).parent) :
    E'.Parented init := by
  have hne : ∀ q, (E q).phase = .active → q ≠ n := fun q hq heq => by
    rw [heq, hnp] at hq; cases hq
  refine ⟨hused, fun c hc hu => ?_⟩
  by_cases hcnp : c = n
  · subst hcnp
    exact ⟨p, hself, (hother p (hne p hp)).1.trans hp⟩
  · obtain ⟨hph, hpar⟩ := hother c hcnp
    obtain ⟨p', hp', hact⟩ := h.parent c hc (hph ▸ hu)
    exact ⟨p', hpar.trans hp', (hother p' (hne p' hact)).1.trans hact⟩

theorem Entries.found_parent (E : Entries) (p q : Slot) : (E.found p q).parent = (E q).parent := by
  unfold Entries.found
  split
  · by_cases h : q = p
    · subst h; simp
    · simp [h]
  · rfl

/-- Counting a member out and changing its phase leaves the other slots' parents
and phases alone. -/
theorem Entries.dropRef_update_keep (E : Entries) (L : Slot) {x : Entry} (hq : q ≠ p) :
    (Function.update (Function.update E L (E L).dropRef) p x q).parent = (E q).parent ∧
      (Function.update (Function.update E L (E L).dropRef) p x q).phase = (E q).phase := by
  rw [Function.update_of_ne hq]
  by_cases hqL : q = L
  · subst hqL
    rw [Function.update_self]
    unfold Entry.dropRef
    split <;> exact ⟨rfl, rfl⟩
  · rw [Function.update_of_ne hqL]
    exact ⟨rfl, rfl⟩

/-- One slot changes, and stays the child it was; if it is no longer active, it
is nobody's parent. -/
theorem Entries.Parented.change {E : Entries} {init x : Slot} (h : E.Parented init) (hused : ∀ q, (E' q).phase ≠ .used)
    (hkeep : ∀ q, q ≠ x → (E' q).parent = (E q).parent ∧ (E' q).phase = (E q).phase)
    (hself : (E' x).phase ≠ .unused → (E x).phase ≠ .unused ∧ (E' x).parent = (E x).parent)
    (hlive : ∀ c, (E c).phase ≠ .unused → (E c).parent = some x → (E x).phase = .active → (E' x).phase = .active) :
    E'.Parented init := by
  have hparent : ∀ c, (E' c).phase ≠ .unused → (E c).phase ≠ .unused ∧ (E' c).parent = (E c).parent := by
    intro c hu
    by_cases hc : c = x
    · subst hc
      exact hself hu
    · obtain ⟨hpar, hph⟩ := hkeep c hc
      exact ⟨hph ▸ hu, hpar⟩
  refine h.mono hused hparent fun p c hu hp hact => ?_
  by_cases hpx : p = x
  · subst hpx
    exact hlive c (hparent c hu).1 hp hact
  · exact (hkeep p hpx).2.trans hact

theorem Entries.Parented.update {E : Entries} {init x : Slot} {en : Entry} (h : E.Parented init)
    (hused : ∀ q, (Function.update E x en q).phase ≠ .used)
    (hself : en.phase ≠ .unused → (E x).phase ≠ .unused ∧ en.parent = (E x).parent)
    (hlive : (E x).phase = .active → en.phase = .active) : Entries.Parented (Function.update E x en) init := by
  refine h.change (x := x) hused (fun q hq => ?_) ?_ fun _ _ _ => ?_
  · rw [Function.update_of_ne hq]
    exact ⟨rfl, rfl⟩
  · rwa [Function.update_self]
  · rwa [Function.update_self]

theorem Kernel.retire_parented {x : Slot} (hused : ∀ q, (k.retire x q).phase ≠ .used) (hp : (k.entries x).phase = .active)
    (hG : ∀ c, k.Child x c → x ≠ k.initproc ∧ (k.entries k.initproc).phase = .active) (h : k.entries.Parented k.initproc) :
    (k.retire x).Parented k.initproc := by
  refine ⟨hused, fun c hc hu => ?_⟩
  have hcu : (k.entries c).phase ≠ .unused := by
    by_cases hcx : c = x
    · simp [hcx, hp]
    · simpa [Kernel.retire, hcx] using hu
  obtain ⟨p, hpar, hact⟩ := h.parent c hc hcu
  by_cases hpx : p = x
  · -- the children of the process go to init
    subst hpx
    obtain ⟨hinit, hlive⟩ := hG c ⟨fun hs => hcu (congrArg ProcState.phase hs), hpar⟩
    exact ⟨k.initproc, by simp [Kernel.retire, hpar], by simp [Kernel.retire, hinit.symm, hlive]⟩
  · exact ⟨p, by simp [Kernel.retire, hpar, hpx], by simp [Kernel.retire, hpx, hact]⟩

theorem Move.parented (hm : Move k e E') (hG : k.Bequeaths e) (hused : ∀ q, (E' q).phase ≠ .used)
    (h : k.entries.Parented k.initproc) : E'.Parented k.initproc := by
  have hchild : ∀ p c, (k.entries c).phase ≠ .unused → (k.entries c).parent = some p → k.Child p c :=
    fun p c hu hp => ⟨fun hs => hu (congrArg ProcState.phase hs), hp⟩
  cases hm with
  | quiet => exact h
  | strike _ x hx => exact h.update hused (fun hu => ⟨hu, rfl⟩) id
  | allocFail p np _ hfind =>
    refine h.update hused (fun hu => absurd rfl hu) fun hact => ?_
    rw [Kernel.findUnused_phase hfind] at hact
    cases hact
  | fork p np hp hfind =>
    refine h.taken hused (Kernel.findUnused_phase hfind) hp (n := np) ?_ fun q hq => ?_
    · rw [Function.update_self]
    · rw [Function.update_of_ne hq]
      exact ⟨rfl, rfl⟩
  | create p np L start arg ms x hp hfind hL hg hx =>
    refine h.taken hused (Kernel.findUnused_phase hfind) hp (n := np) ?_ fun q hq => ?_
    · subst hx
      simp [Entries.linkIn]
    · simp [Entries.linkIn, hq, Kernel.found_phase, Entries.found_parent]
  | createBad p np L start arg x hp hfind hL hx =>
    refine absurd ?_ (hused np)
    rw [Function.update_self, hx]
    rfl
  | threadExit _ x L he hp ht hL hne =>
    refine h.change hused (fun q => k.entries.dropRef_update_keep L) (fun _ => ?_) fun c hcu hc => ?_
    · rw [Function.update_self]
      exact ⟨by simp [hp], rfl⟩
    · -- the thread that exits has no children
      have hnot := (hG.exit x he c (hchild x c hcu hc)).1
      rw [show (k.proc x).isThread = true from ht] at hnot
      cases hnot
  | processExit _ x he hp ht =>
    exact Kernel.retire_parented hused hp (fun c hc => ⟨(hG.exit x he c hc).2.1, (hG.exit x he c hc).2.2⟩) h
  | reapThread _ x L hr hz hL hne =>
    refine h.change hused (fun q => k.entries.dropRef_update_keep L) (fun _ => ?_) fun _ _ _ hact => ?_
    · rw [Function.update_self]
      exact ⟨by simp [hz], rfl⟩
    · rw [hz] at hact
      cases hact
  | reapProcess _ x hr hz hL =>
    refine h.update hused (fun hu => absurd rfl hu) fun hact => ?_
    rw [hz] at hact
    cases hact
  | reapGroup _ L ms chan files hr hz hg href =>
    have hfree : ∀ q, q ∈ L :: ms → (k.entries.disband L ms chan files q).phase = .unused := by
      intro q hq
      by_cases hqL : q = L
      · simp [Entries.disband, hqL, Entry.clear]
      · simp [Entries.disband, hqL, (List.mem_cons.1 hq).resolve_left hqL, Entry.release]
    have hkeep : ∀ q, q ∉ L :: ms → k.entries.disband L ms chan files q = k.entries q := by
      intro q hq
      simp only [List.mem_cons, not_or] at hq
      simp [Entries.disband, hq.1, hq.2]
    have hout : ∀ c, (k.entries.disband L ms chan files c).phase ≠ .unused → c ∉ L :: ms :=
      fun c hu hmem => hu (hfree c hmem)
    refine h.mono hused (fun c hu => ?_) (fun p c hu hp' hact => ?_)
    · have hc := hkeep c (hout c hu)
      rw [hc] at hu ⊢
      exact ⟨hu, rfl⟩
    · -- a member that has not exited has children in the group only
      have hc := hout c hu
      rw [hkeep c hc] at hu
      have hpms : p ∉ L :: ms := fun hmem => by
        have hlead := hG.release L hr p c ((hg.mem_iff p).1 hmem).1 hact (hchild p c hu hp')
        exact hc ((hg.mem_iff c).2 ⟨hlead, hu, h.settled c⟩)
      rw [hkeep p hpms]
      exact hact

/-! ## Runs -/

theorem parented_of_main (h : b.main = .ok k) : k.entries.Parented k.initproc := by
  obtain ⟨p, hne, hinit, hp⟩ := Boot.main_entries h
  refine ⟨fun q hq => ?_, fun c hc hu => absurd ?_ hu⟩
  · by_cases hqp : q = p
    · subst hqp
      rw [hp] at hq
      cases hq
    · simp [Kernel.entries, hne q hqp, Proc.zero, Proc.entry, ProcState.phase] at hq
  · rw [hinit] at hc
    simp [Kernel.entries, hne c hc, Proc.zero, Proc.entry, ProcState.phase]

/-- In every state of every run in which nobody leaves a child behind, the
parent of every slot in use but init has not exited. -/
theorem adopted_of_reaches (h : (system b).Reaches Kernel.Bequeaths k) : k.Adopted := by
  have hinv := h.invariant (P := fun k => k.entries.WellGrouped ∧ k.entries.Parented k.initproc)
    (fun k hk => ⟨Boot.main_wellGrouped hk, parented_of_main hk⟩) ?_
  · intro c hc hu
    have hphase : ∀ s : ProcState, s.phase = .unused → s = .unused := by intro s; cases s <;> simp [ProcState.phase]
    obtain ⟨p, hp, hact⟩ := hinv.2.parent c hc fun hn => hu (hphase _ hn)
    have hlive : ∀ s : ProcState, s.phase = .active → s ≠ .zombie ∧ s ≠ .ghost ∧ s ≠ .unused := by
      intro s; cases s <;> simp [ProcState.phase]
    exact ⟨p, hp, hlive _ hact⟩
  · rintro k e k' ⟨hE, hpar⟩ hG ⟨hen, r, hstep⟩
    have hm := Kernel.step_move hE hen hstep
    have hused : ∀ q, (k'.entries q).phase ≠ .used :=
      fun q hq => hpar.settled q (Kernel.step_used hE hen hG.stack hstep hq)
    rw [(Kernel.step_treads hen hstep).initproc]
    exact ⟨hm.wellGrouped hE, hm.parented hG hused hpar⟩

/-- A child forks and exits: its own child goes to init. -/
theorem adopted_of_grandchild : ∃ k, (system .standard).Reaches Kernel.Bequeaths k ∧ k.Adopted ∧
    (k.proc ⟨2, by decide⟩).state = .runnable ∧ (k.proc ⟨1, by decide⟩).state = .zombie := by
  have hrun : (Boot.standard.run Kernel.Bequeaths
      [.schedule ⟨0, by decide⟩, .call ⟨0, by decide⟩ .fork, .schedule ⟨1, by decide⟩,
        .call ⟨1, by decide⟩ .fork, .call ⟨1, by decide⟩ (.exit 0)]).any
      (fun k => (k.proc ⟨2, by decide⟩).state = .runnable ∧ (k.proc ⟨1, by decide⟩).state = .zombie)
      = true := by decide +kernel
  obtain ⟨k, hk, hc⟩ := exists_reaches_of_run hrun
  exact ⟨k, hk, adopted_of_reaches hk, by simpa using hc⟩

/-- A thread forks and exits: the parent of its child is a zombie. -/
theorem orphan_of_thread : ¬ ∀ (b : Boot) (k : Kernel), Reachable b k → k.Adopted := by
  intro h
  have hrun : (Boot.standard.run anyStep
      [.schedule ⟨0, by decide⟩, .call ⟨0, by decide⟩ (.threadCreate 0 0), .schedule ⟨1, by decide⟩,
        .call ⟨1, by decide⟩ .fork, .call ⟨1, by decide⟩ .threadExit]).any
      (fun k => ¬ k.Adopted) = true := by decide +kernel
  obtain ⟨k, hk, hc⟩ := exists_reaches_of_run hrun
  exact absurd (h _ k hk) (by simpa using hc)

end Xv6
