-- SUMMARY: Who sleeps in wait or thread_join has somebody left to reap, in runs that wait for no ghost.
import Xv6Threads.System.Lineage

/-!
# Waiting

A thread that has been reaped stays in its slot as a ghost, with its parent and
its id, until its leader is reaped. The scans of `wait` and `thread_join` count
it as a child, so a parent with nothing but ghosts left goes to sleep and is
never woken. `Sensible` excludes such calls; what remains is that a sleeper is
woken whenever a child of it exits or is handed to it, and that a group is
released only when all its threads have exited.
-/

namespace Xv6

variable {b : Boot} {k k' : Kernel} {e : Event} {r : Option Int} {p q c : Slot}

/-! ## Waking the parent -/

namespace Kernel

/-- A sleeper that `wakeup` leaves asleep sleeps on another channel. -/
theorem wakeup_asleep {me : Option Slot} {chan : Chan}
    (h : ((k.wakeup me chan).proc q).state = .sleeping) (hne : some q ≠ me) :
    ((k.wakeup me chan).proc q).chan ≠ some chan := by
  simp only [wakeup] at h ⊢
  split at h
  · cases h
  · rename_i hcond
    rw [if_neg hcond]
    exact fun hc => hcond ⟨hne, h, hc⟩

theorem wakeParent_asleep (hpar : (k.proc q).parent = some p) (hne : p ≠ q)
    (h : ((k.wakeParent q).proc p).state = .sleeping) :
    ((k.wakeParent q).proc p).chan ≠ some (.proc p) := by
  simp only [wakeParent, hpar] at h ⊢
  exact wakeup_asleep h fun heq => hne (Option.some.inj heq)

theorem reparent_asleep (hpar : (k.proc c).parent = some q) (hne : k.initproc ≠ q)
    (h : ((k.reparent q).proc k.initproc).state = .sleeping) :
    ((k.reparent q).proc k.initproc).chan ≠ some (.proc k.initproc) := by
  have horphans : ((List.finRange nproc).any fun pp => (k.proc pp).parent = some q) = true := by
    rw [List.any_eq_true]
    exact ⟨c, List.mem_finRange c, by simpa using hpar⟩
  simp only [reparent, horphans, if_true] at h ⊢
  exact wakeup_asleep h fun heq => hne (Option.some.inj heq)

/-- When a process exits, its parent does not sleep on, and if it leaves
children, neither does init. -/
theorem exitProcess_asleep {status : Int} (hq : (k.proc q).state = .running)
    (h : k.exitProcess q status = .ok k') :
    (∀ p, (k.proc q).parent = some p → p ≠ q → (k'.proc p).state = .sleeping →
      (k'.proc p).chan ≠ some (.proc p)) ∧
    ∀ c, (k.proc c).parent = some q → k.initproc ≠ q → (k'.proc k.initproc).state = .sleeping →
      (k'.proc k.initproc).chan ≠ some (.proc k.initproc) := by
  obtain ⟨k₁, hclose, h⟩ := Except.bind_ok_iff.1 h
  obtain ⟨k₂, htable, h⟩ := Except.bind_ok_iff.1 h
  cases h
  obtain ⟨k₀, hw₀, rfl⟩ := closeFiles_ok (by simp [hq]) hclose
  -- parents before `reparent` are the ones at the start
  have hparent : ∀ c, (((k₀.modify q fun pr => { pr with ofile := fun _ => none }).dropCwd q).proc c).parent
      = (k.proc c).parent := by
    intro c
    rw [dropCwd_proc, modify_proc]
    split
    · rw [modify_proc]
      split <;> exact (hw₀.slot c).parent_eq
    · rw [modify_proc]
      split <;> exact (hw₀.slot c).parent_eq
  have hinit : ((k₀.modify q fun pr => { pr with ofile := fun _ => none }).dropCwd q).initproc
      = k.initproc := (dropCwd_frame _ q).2.2.2.2.trans hw₀.initproc
  generalize (k₀.modify q fun pr => { pr with ofile := fun _ => none }).dropCwd q = kc at hparent hinit htable
  -- what follows `reparent` puts nobody to sleep
  have htproc := (dropTable_ok htable).1
  have hrest : ∀ p, ((k₂.modify q fun pr => { pr with xstate := status, state := .zombie }).proc p).state = .sleeping →
      ((kc.reparent q).proc p).state = .sleeping ∧
      ((k₂.modify q fun pr => { pr with xstate := status, state := .zombie }).proc p).chan =
        ((kc.reparent q).proc p).chan := by
    intro p hp
    by_cases hpq : p = q
    · subst hpq
      rw [modify_proc_same] at hp
      cases hp
    · rw [modify_proc_ne hpq, htproc, modify_proc_ne hpq] at hp ⊢
      exact ⟨hp, rfl⟩
  have hzparent : ∀ p, p ≠ q → (k.proc q).parent = some p →
      ((k₂.modify q fun pr => { pr with xstate := status, state := .zombie }).proc q).parent = some p := by
    intro p hne hp
    rw [modify_proc_same, htproc, modify_proc_same]
    dsimp only
    rw [((wakes_reparent kc q).slot q).parent_eq]
    dsimp only
    rw [hparent q, hp, if_neg fun heq => hne (Option.some.inj heq)]
  generalize (k₂.modify q fun pr => { pr with xstate := status, state := .zombie }) = kz at hrest hzparent
  refine ⟨fun p hp hne hs => wakeParent_asleep (hzparent p hne hp) hne hs, fun c hc hne hs => ?_⟩
  have hww := (wakes_wakeParent kz q).calm.slot k.initproc
  obtain ⟨hsz, -, hchan⟩ := hww.asleep hs
  obtain ⟨hsr, hchan'⟩ := hrest _ hsz
  rw [hchan, hchan', ← hinit]
  exact reparent_asleep ((hparent c).trans hc) (hinit ▸ hne) (hinit ▸ hsr)

theorem step_asleep (hen : k.enabled e = true) (h : k.step e = .ok (r, k')) (he : e.exits = some q) :
    (∀ p, (k.proc q).parent = some p → p ≠ q → (k'.proc p).state = .sleeping →
      (k'.proc p).chan ≠ some (.proc p)) ∧
    ((k.proc q).isThread = false → ∀ c, (k.proc c).parent = some q → k.initproc ≠ q →
      (k'.proc k.initproc).state = .sleeping → (k'.proc k.initproc).chan ≠ some (.proc k.initproc)) := by
  have hq := exits_running hen he
  rcases step_exit_cases h he with ⟨hthread, rfl⟩ | ⟨-, status, hx⟩
  · refine ⟨fun p hpar hne hs => ?_, fun hprocess => ?_⟩
    · refine wakeParent_asleep ?_ hne hs
      have hparent : ∀ c, ((k.dropRef (k.leaderOf q)).proc c).parent = (k.proc c).parent := by
        intro c
        rw [dropRef, modify_proc]
        split
        · split <;> rfl
        · rfl
      rw [modify_proc_same]
      exact (hparent q).trans hpar
    · rw [hthread] at hprocess
      cases hprocess
  · obtain ⟨hparent, hinit⟩ := exitProcess_asleep hq hx
    exact ⟨hparent, fun _ => hinit⟩

/-! ## What a sleeper waits for -/

/-- `c` is a child of `p` that a `wait` or `thread_join` of `p`, asleep at `at_`,
looks for, in whatever state. -/
def Awaited (k : Kernel) (p : Slot) : Resume → Slot → Prop
  | .wait _, c => (k.proc c).parent = some p
  | .join tid, c => k.isChildThread p tid c = true
  | _, _ => False

instance (k : Kernel) (p : Slot) (at_ : Resume) (c : Slot) : Decidable (k.Awaited p at_ c) := by
  unfold Awaited
  split <;> infer_instance

/-- The slot is in use, and nobody has reaped its process or thread. -/
def Unreaped (k : Kernel) (c : Slot) : Prop := (k.proc c).state ≠ .ghost ∧ (k.proc c).state ≠ .unused

instance (k : Kernel) (c : Slot) : Decidable (k.Unreaped c) := inferInstanceAs (Decidable (_ ∧ _))

/-- Record who has created the thread in a slot. -/
def makers (k : Kernel) (e : Event) (made : Slot → Option Slot) : Slot → Option Slot :=
  match e.creates, k.findUnused with
  | some p, some np => Function.update made np (some p)
  | _, _ => made

/-- Steps that wait for no ghost, and release a group only when its threads
have exited. Init joins the threads it has created itself. -/
structure Sensible (s : Kernel × (Slot → Option Slot)) (e : Event) : Prop where
  await : ∀ a ∈ s.1.awaits e, (s.1.proc a.1).killed = false → ∀ c, s.1.Awaited a.1 a.2 c →
    ∃ c', s.1.Awaited a.1 a.2 c' ∧ s.1.Unreaped c'
  own : ∀ tid, s.1.awaits e = some (s.1.initproc, .join tid) → ∀ c,
    s.1.Awaited s.1.initproc (.join tid) c → s.2 c = some s.1.initproc
  release : ∀ L ∈ s.1.reaps e, ∀ q, (s.1.proc q).groupLeader = some L →
    (s.1.proc q).state.phase ≠ .active

end Kernel

theorem Kernel.unreaped_iff : k.Unreaped c ↔ (k.entries c).phase ≠ .ghost ∧ (k.entries c).phase ≠ .unused := by
  show (k.proc c).state ≠ .ghost ∧ (k.proc c).state ≠ .unused ↔
    (k.proc c).state.phase ≠ .ghost ∧ (k.proc c).state.phase ≠ .unused
  cases (k.proc c).state <;> simp [ProcState.phase]

/-- What is looked for depends on the parent and the ids only. -/
theorem Kernel.Awaited.congr {at_ : Resume} (h : k.Awaited p at_ c)
    (hpar : (k'.entries c).parent = (k.entries c).parent) (hids : (k.entries c).SameIds (k'.entries c)) :
    k'.Awaited p at_ c := by
  have hparent : (k'.proc c).parent = (k.proc c).parent := hpar
  have hthread : (k'.proc c).isThread = (k.proc c).isThread := hids.isThread
  have htid : (k'.proc c).tid = (k.proc c).tid := hids.tid
  cases at_ with
  | wait addr => exact hparent.trans h
  | join tid =>
    simp only [Kernel.Awaited, Kernel.isChildThread, hparent, hthread, htid] at h ⊢
    exact h
  | user => exact h
  | call => exact h

theorem Kernel.Awaited.parent {at_ : Resume} (h : k.Awaited p at_ c) : (k.entries c).parent = some p := by
  cases at_ with
  | wait addr => exact h
  | join tid =>
    simp only [Kernel.Awaited, Kernel.isChildThread, decide_eq_true_eq] at h
    exact h.1
  | user => cases h
  | call => cases h

theorem Kernel.Awaited.isThread {tid : Int} (h : k.Awaited p (.join tid) c) :
    (k.entries c).isThread = true := by
  simp only [Kernel.Awaited, Kernel.isChildThread, decide_eq_true_eq] at h
  exact h.2.2

/-- A call blocks when some slot is looked for and none of them has exited. -/
theorem Kernel.blocks_spec {at_ : Resume} (h : k.Blocks p at_) :
    (k.proc p).killed = false ∧ (∃ c, k.Awaited p at_ c) ∧
      ∀ c, k.Awaited p at_ c → (k.entries c).phase ≠ .zombie := by
  have hzombie : ∀ c, (k.entries c).phase = .zombie → (k.proc c).state = .zombie :=
    fun c hc => ProcState.phase_zombie.1 hc
  cases at_ with
  | wait addr =>
    obtain ⟨hfind, hkids, hkill⟩ := h
    obtain ⟨c, -, hc⟩ := List.any_eq_true.1 hkids
    have hchild : (k.proc c).parent = some p := by simpa using hc
    refine ⟨hkill, ⟨c, hchild⟩, fun c hc hz => ?_⟩
    have hnot := List.find?_eq_none.1 hfind c (List.mem_finRange c)
    have hpar : (k.proc c).parent = some p := hc
    simp [hpar, hzombie c hz] at hnot
  | join tid =>
    obtain ⟨hfind, hkids, hkill⟩ := h
    obtain ⟨c, -, hc⟩ := List.any_eq_true.1 hkids
    refine ⟨hkill, ⟨c, hc⟩, fun c hc hz => ?_⟩
    have hnot := List.find?_eq_none.1 hfind c (List.mem_finRange c)
    have hpar : k.isChildThread p tid c = true := hc
    simp [hpar, hzombie c hz] at hnot
  | user => cases h
  | call => cases h

/-! ## Runs -/

/-- The point inside `wait` or `thread_join` where a process sleeps. -/
def Resume.Awaits : Resume → Prop
  | .wait _ => True
  | .join _ => True
  | _ => False

/-- What holds of sleepers along a run; `made` says who has created a thread. -/
structure Attentive (k : Kernel) (made : Slot → Option Slot) : Prop where
  grouped : k.entries.WellGrouped
  maker : ∀ c p, (k.entries c).isThread = true → (k.entries c).parent = some p →
    made c = some p ∨ p = k.initproc
  chan : ∀ p, (k.proc p).state = .sleeping → (k.proc p).resume.Awaits → (k.proc p).chan = some (.proc p)
  awake : ∀ p, (k.proc p).state = .sleeping → ∀ c, k.Awaited p (k.proc p).resume c →
    (k.entries c).phase ≠ .zombie
  someone : ∀ p, (k.proc p).state = .sleeping → (k.proc p).resume.Awaits →
    ∃ c, k.Awaited p (k.proc p).resume c ∧ k.Unreaped c ∧
      ∀ tid, (k.proc p).resume = .join tid → made c = some p

theorem Kernel.Awaited.awaits {at_ : Resume} (h : k.Awaited p at_ c) : at_.Awaits := by
  cases at_ with
  | wait addr => trivial
  | join tid => trivial
  | user => cases h
  | call => cases h

/-- The record changes at a slot that was not in use. -/
theorem Kernel.makers_of_used {made : Slot → Option Slot} (h : (k.entries c).phase ≠ .unused) :
    k.makers e made c = made c := by
  unfold Kernel.makers
  cases e.creates with
  | none => rfl
  | some p =>
    cases hfind : k.findUnused with
    | none => rfl
    | some np =>
      refine Function.update_of_ne (fun heq => h ?_) _ _
      rw [heq]
      exact Kernel.findUnused_phase hfind

section

variable {made : Slot → Option Slot}

theorem Attentive.maker_step (h : Attentive k made) (hen : k.enabled e = true)
    (hstep : k.step e = .ok (r, k')) (hthread : (k'.entries c).isThread = true)
    (hpar : (k'.entries c).parent = some p) : k.makers e made c = some p ∨ p = k.initproc := by
  have hkept : (k.entries c).isThread = true → (k.entries c).parent = some p →
      k.makers e made c = some p ∨ p = k.initproc := by
    intro ht hp
    rw [Kernel.makers_of_used (h.grouped.thread c ht).1.1]
    exact h.maker c p ht hp
  have hidle : k.findUnused = some c → (k.entries c).isThread = false :=
    fun hfind => (h.grouped.idle c (Kernel.findUnused_phase hfind)).2
  cases (Kernel.step_move h.grouped hen hstep).kin c with
  | kept _ hp hids => exact hkept (hids.isThread ▸ hthread) (hp ▸ hpar)
  | exited _ _ _ hp hids =>
    rcases hp with hp | ⟨-, -, hp⟩
    · exact hkept (hids.isThread ▸ hthread) (hp ▸ hpar)
    · exact .inr (Option.some.inj (hpar.symm.trans hp))
  | adopted _ _ _ _ _ _ hp _ _ => exact .inr (Option.some.inj (hpar.symm.trans hp))
  | reaped _ _ _ _ _ _ hp hids => exact hkept (hids.isThread ▸ hthread) (hp ▸ hpar)
  | freed _ _ ht _ => rw [ht] at hthread; cases hthread
  | forked _ _ _ hfind _ _ ht _ => rw [ht, hidle hfind] at hthread; cases hthread
  | created p' start arg he _ hfind _ hp _ _ _ =>
    subst he
    refine .inl ?_
    obtain rfl : p' = p := Option.some.inj (hp.symm.trans hpar)
    simp [Kernel.makers, Event.creates, hfind]
  | failed _ _ ht _ => rw [ht] at hthread; cases hthread
  | stranded _ _ _ _ hfind _ ht _ => rw [ht, hidle hfind] at hthread; cases hthread

/-- A sleeper that sleeps on is woken when somebody it looks for exits. -/
theorem Attentive.awake_step (h : Attentive k made) (hen : k.enabled e = true)
    (hstep : k.step e = .ok (r, k')) (hs : (k.proc p).state = .sleeping)
    (hs' : (k'.proc p).state = .sleeping) (hres : (k'.proc p).resume = (k.proc p).resume)
    (hchan : (k'.proc p).chan = (k.proc p).chan) (hc : k'.Awaited p (k'.proc p).resume c) :
    (k'.entries c).phase ≠ .zombie := by
  intro hz
  have hproc : (k'.proc p).chan = some (.proc p) := hchan.trans (h.chan p hs (hres ▸ hc.awaits))
  have hback : (k'.entries c).parent = (k.entries c).parent → (k.entries c).SameIds (k'.entries c) →
      k.Awaited p (k.proc p).resume c := by
    intro hpar hids
    exact hres ▸ hc.congr hpar.symm ⟨hids.isThread.symm, hids.tid.symm, hids.pid.symm⟩
  cases (Kernel.step_move h.grouped hen hstep).kin c with
  | kept hph hpar hids => exact h.awake p hs c (hback hpar hids) (hph ▸ hz)
  | exited he _ _ hp hids =>
    have hrun := Kernel.exits_running hen he
    have hne : p ≠ c := fun heq => by rw [heq, hrun] at hs; cases hs
    rcases hp with hp | ⟨hprocess, hself, hp⟩
    · exact (Kernel.step_asleep hen hstep he).1 p (hp.symm.trans hc.parent) hne hs' hproc
    · obtain rfl : p = k.initproc := Option.some.inj (hc.parent.symm.trans hp)
      exact (Kernel.step_asleep hen hstep he).2 hprocess c hself hne hs' hproc
  | adopted x he _ _ hprocess hpx hp _ _ =>
    obtain rfl : p = k.initproc := Option.some.inj (hc.parent.symm.trans hp)
    have hrun := Kernel.exits_running hen he
    have hne : k.initproc ≠ x := fun heq => by rw [heq, hrun] at hs; cases hs
    exact (Kernel.step_asleep hen hstep he).2 hprocess c hpx hne hs' hproc
  | reaped _ _ _ _ _ hph _ _ => rw [hph] at hz; cases hz
  | freed _ hph _ _ => rw [hph] at hz; cases hz
  | forked _ _ _ _ hph _ _ _ => rw [hph] at hz; cases hz
  | created _ _ _ _ _ _ hph _ _ _ _ => rw [hph] at hz; cases hz
  | failed _ hph _ _ => rw [hph] at hz; cases hz
  | stranded _ _ _ _ _ hph _ _ => rw [hph] at hz; cases hz

/-- Whoever a sleeper looks for is not taken away while it sleeps. -/
theorem Attentive.keep_step (h : Attentive k made) (hen : k.enabled e = true)
    (hG : Kernel.Sensible (k, made) e) (hstep : k.step e = .ok (r, k'))
    (hs : (k.proc p).state = .sleeping) (hc : k.Awaited p (k.proc p).resume c) (hu : k.Unreaped c) :
    k'.Awaited p (k.proc p).resume c ∧ k'.Unreaped c := by
  rw [Kernel.unreaped_iff] at hu ⊢
  -- a parent that reaps or exits is not asleep
  have hreap : k.reaps e ≠ some c := fun hr => by
    obtain ⟨p', hp', -, hrun⟩ := Kernel.reaps_parent hen hr
    obtain rfl := Option.some.inj (hc.parent.symm.trans hp')
    rw [hs] at hrun
    rcases hrun with hrun | hrun <;> cases hrun
  have hfind : k.findUnused ≠ some c := fun hf => hu.2 (Kernel.findUnused_phase hf)
  cases (Kernel.step_move h.grouped hen hstep).kin c with
  | kept hph hpar hids => exact ⟨hc.congr hpar hids, hph ▸ hu⟩
  | exited he _ hph hp hids =>
    have hrun := Kernel.exits_running hen he
    rcases hp with hp | ⟨-, hself, -⟩
    · exact ⟨hc.congr hp hids, by rw [hph]; exact ⟨nofun, nofun⟩⟩
    · obtain rfl := Option.some.inj (hc.parent.symm.trans hself)
      rw [hrun] at hs
      cases hs
  | adopted x he _ _ _ hpx _ _ _ =>
    obtain rfl := Option.some.inj (hc.parent.symm.trans hpx)
    rw [Kernel.exits_running hen he] at hs
    cases hs
  | reaped _ hr _ _ _ _ _ _ => exact absurd hr hreap
  | freed hf _ _ _ =>
    obtain ⟨L, hr, ⟨-, rfl⟩ | ⟨ms, hg, hmem⟩⟩ := hf
    · exact absurd hr hreap
    · obtain ⟨hlead, hen'⟩ := (hg.mem_iff c).1 hmem
      have hact := hG.release L hr c hlead
      have hz : (k.entries c).phase = .zombie := by
        have hact' : (k.entries c).phase ≠ .active := hact
        obtain ⟨hne, hne'⟩ := hen'
        revert hact' hne hne' hu
        cases (k.entries c).phase <;> simp
      exact absurd hz (h.awake p hs c hc)
  | forked _ _ _ hf _ _ _ _ => exact absurd hf hfind
  | created _ _ _ _ _ hf _ _ _ _ _ => exact absurd hf hfind
  | failed hf _ _ _ => exact absurd hf hfind
  | stranded _ _ _ _ hf _ _ _ => exact absurd hf hfind

theorem Attentive.step (h : Attentive k made) (hen : k.enabled e = true)
    (hG : Kernel.Sensible (k, made) e) (hstep : k.step e = .ok (r, k')) :
    Attentive k' (k.makers e made) := by
  have ht := Kernel.step_treads hen hstep
  refine ⟨(Kernel.step_move h.grouped hen hstep).wellGrouped h.grouped, fun c p hthread hpar => ?_,
    fun p hs hres => ?_, fun p hs c hc => ?_, fun p hs hres => ?_⟩
  · rw [ht.initproc]
    exact h.maker_step hen hstep hthread hpar
  · rcases ht.asleep p hs with ⟨hs₀, hr, hc⟩ | hd
    · exact hc.trans (h.chan p hs₀ (hr ▸ hres))
    · cases hd with
      | block n _ hcall => rw [hcall] at hres; cases hres
      | await _ hchan _ _ _ => exact hchan
  · rcases ht.asleep p hs with ⟨hs₀, hr, hchan⟩ | hd
    · exact h.awake_step hen hstep hs₀ hs hr hchan hc
    · cases hd with
      | block n _ hcall => rw [hcall] at hc; cases hc
      | await _ _ hb he _ =>
        rw [he]
        have hc₀ : k.Awaited p (k'.proc p).resume c := hc.congr (by rw [he]) (by rw [he]; exact .refl _)
        exact (Kernel.blocks_spec hb).2.2 c hc₀
  · rcases ht.asleep p hs with ⟨hs₀, hr, -⟩ | hd
    · obtain ⟨c, hc, hu, hmade⟩ := h.someone p hs₀ (hr ▸ hres)
      obtain ⟨hc', hu'⟩ := h.keep_step hen hG hstep hs₀ hc hu
      refine ⟨c, hr ▸ hc', hu', fun tid htid => ?_⟩
      rw [Kernel.makers_of_used (Kernel.unreaped_iff.1 hu).2]
      exact hmade tid (hr ▸ htid)
    · cases hd with
      | block n _ hcall => rw [hcall] at hres; cases hres
      | await ha _ hb he _ =>
        obtain ⟨hkill, ⟨c₀, hc₀⟩, -⟩ := Kernel.blocks_spec hb
        obtain ⟨c, hc, hu⟩ := hG.await _ ha hkill c₀ hc₀
        have hu' := Kernel.unreaped_iff.1 hu
        refine ⟨c, hc.congr (by rw [he]) (by rw [he]; exact .refl _),
          Kernel.unreaped_iff.2 (by rwa [he]), fun tid htid => ?_⟩
        rw [Kernel.makers_of_used hu'.2]
        rw [htid] at hc ha
        rcases h.maker c p hc.isThread hc.parent with hmade | rfl
        · exact hmade
        · exact hG.own tid ha c hc

theorem attentive_of_reaches
    (h : ((system b).withHistory (fun _ => none) Kernel.makers).Reaches Kernel.Sensible (k, made)) :
    Attentive k made := by
  refine Lts.Reaches.invariant (P := fun s => Attentive s.1 s.2) ?_ ?_ h
  · rintro ⟨k, made⟩ ⟨hk, rfl⟩
    obtain ⟨p, hne, -, hp⟩ := Boot.main_entries hk
    have hawake : ∀ q, (k.proc q).state ≠ .sleeping := fun q hs => by
      by_cases hq : q = p
      · subst hq
        obtain ⟨p', k₁, pt, tf, f, m, b', m', pt', halloc, -, -, -, -, ir, regs, rfl⟩ :=
          Kernel.userinit_ok hk
        by_cases hqp : q = p'
        · subst hqp
          simp at hs
        · have := hne p' (Ne.symm hqp)
          simp only [Function.update_self] at this
          exact absurd (congrArg Proc.state this) (by simp [Proc.zero])
      · rw [hne q hq] at hs
        cases hs
    refine ⟨Boot.main_wellGrouped hk, fun c p' hthread _ => ?_, fun q hs => absurd hs (hawake q),
      fun q hs => absurd hs (hawake q), fun q hs => absurd hs (hawake q)⟩
    by_cases hc : c = p
    · subst hc
      rw [hp] at hthread
      cases hthread
    · rw [show k.entries c = Proc.zero.entry from congrArg Proc.entry (hne c hc)] at hthread
      cases hthread
  · rintro ⟨k, made⟩ e ⟨k', made'⟩ hinv hG ⟨⟨hen, r, hstep⟩, rfl⟩
    exact hinv.step hen hG hstep

/-- With nothing left to reap, `wait` returns `-1` unless ghosts are left. -/
theorem Kernel.wait_exhausted_iff {addr : Nat} :
    ((∀ c, (k.proc c).parent = some p → ¬ k.Unreaped c) → k.wait p addr = .ok (some (-1), k)) ↔
      (k.proc p).killed = true ∨
        ∀ c, (k.proc c).parent = some p → ∃ c', (k.proc c').parent = some p ∧ k.Unreaped c' := by
  by_cases hleft : ∃ c, (k.proc c).parent = some p ∧ k.Unreaped c
  · obtain ⟨c, hc, hu⟩ := hleft
    exact ⟨fun _ => .inr fun _ _ => ⟨c, hc, hu⟩, fun _ hnone => absurd hu (hnone c hc)⟩
  · push Not at hleft
    have hzombie : k.findZombie p = none := by
      refine List.find?_eq_none.2 fun c _ hc => ?_
      obtain ⟨hpar, hz⟩ : (k.proc c).parent = some p ∧ (k.proc c).state = .zombie := by simpa using hc
      exact hleft c hpar (by simp [Unreaped, hz])
    simp only [Kernel.wait, hzombie]
    constructor
    · intro h
      by_cases hkill : (k.proc p).killed = true
      · exact .inl hkill
      · refine .inr fun c hc => ?_
        have hkids : k.hasKids p = true := List.any_eq_true.2 ⟨c, List.mem_finRange c, by simpa using hc⟩
        have := h hleft
        simp [hkids, hkill] at this
    · rintro h -
      rcases h with hkill | hnone
      · simp [hkill]
      · have hkids : k.hasKids p = false := by
          refine List.any_eq_false.2 fun c _ hc => ?_
          obtain ⟨c', hc', hu⟩ := hnone c (by simpa using hc)
          exact hleft c' hc' hu
        simp [hkids]

/-- With the thread reaped, `thread_join` returns `-1` unless its ghost is left. -/
theorem Kernel.join_exhausted_iff {tid : Int} :
    ((∀ c, k.isChildThread p tid c = true → ¬ k.Unreaped c) → k.threadJoin p tid = .ok (some (-1), k)) ↔
      (k.proc p).killed = true ∨
        ∀ c, k.isChildThread p tid c = true → ∃ c', k.isChildThread p tid c' = true ∧ k.Unreaped c' := by
  by_cases hleft : ∃ c, k.isChildThread p tid c = true ∧ k.Unreaped c
  · obtain ⟨c, hc, hu⟩ := hleft
    exact ⟨fun _ => .inr fun _ _ => ⟨c, hc, hu⟩, fun _ hnone => absurd hu (hnone c hc)⟩
  · push Not at hleft
    have hzombie : ((List.finRange nproc).find? fun tp =>
        k.isChildThread p tid tp ∧ (k.proc tp).state = .zombie) = none := by
      refine List.find?_eq_none.2 fun c _ hc => ?_
      obtain ⟨hpar, hz⟩ : k.isChildThread p tid c = true ∧ (k.proc c).state = .zombie := by simpa using hc
      exact hleft c hpar (by simp [Unreaped, hz])
    simp only [Kernel.threadJoin, hzombie]
    constructor
    · intro h
      by_cases hkill : (k.proc p).killed = true
      · exact .inl hkill
      · refine .inr fun c hc => ?_
        have hkids : (List.finRange nproc).any (k.isChildThread p tid) = true :=
          List.any_eq_true.2 ⟨c, List.mem_finRange c, hc⟩
        have := h hleft
        simp [hkids, hkill] at this
    · rintro h -
      rcases h with hkill | hnone
      · simp [hkill]
      · have hkids : (List.finRange nproc).any (k.isChildThread p tid) = false := by
          refine List.any_eq_false.2 fun c _ hc => ?_
          obtain ⟨c', hc', hu⟩ := hnone c hc
          exact hleft c' hc' hu
        simp [hkids]

/-- In every state of every run of sensible steps, a process asleep in `wait` has
a child that nobody has reaped, and one asleep in `thread_join` has created the
thread it waits for and nobody has reaped it. Once everything is reaped, the
calls return `-1`, exactly if the caller is killed or no ghost is left. -/
theorem waits_for_unreaped
    (h : ((system b).withHistory (fun _ => none) Kernel.makers).Reaches Kernel.Sensible (k, made)) :
    (∀ p addr, (k.proc p).state = .sleeping → (k.proc p).resume = .wait addr →
      ∃ c, (k.proc c).parent = some p ∧ k.Unreaped c) ∧
    (∀ p tid, (k.proc p).state = .sleeping → (k.proc p).resume = .join tid →
      ∃ c, k.isChildThread p tid c = true ∧ k.Unreaped c ∧ made c = some p) ∧
    (∀ p addr, ((∀ c, (k.proc c).parent = some p → ¬ k.Unreaped c) →
        k.wait p addr = .ok (some (-1), k)) ↔
      (k.proc p).killed = true ∨
        ∀ c, (k.proc c).parent = some p → ∃ c', (k.proc c').parent = some p ∧ k.Unreaped c') ∧
    ∀ p tid, ((∀ c, k.isChildThread p tid c = true → ¬ k.Unreaped c) →
        k.threadJoin p tid = .ok (some (-1), k)) ↔
      (k.proc p).killed = true ∨
        ∀ c, k.isChildThread p tid c = true → ∃ c', k.isChildThread p tid c' = true ∧ k.Unreaped c' := by
  have hinv := attentive_of_reaches h
  refine ⟨fun p addr hs hr => ?_, fun p tid hs hr => ?_, fun p addr => Kernel.wait_exhausted_iff,
    fun p tid => Kernel.join_exhausted_iff⟩
  · obtain ⟨c, hc, hu, -⟩ := hinv.someone p hs (by rw [hr]; trivial)
    rw [hr] at hc
    exact ⟨c, hc, hu⟩
  · obtain ⟨c, hc, hu, hmade⟩ := hinv.someone p hs (by rw [hr]; trivial)
    rw [hr] at hc
    exact ⟨c, hc, hu, hmade tid hr⟩

end

/-- Steps that await a child somebody has still to reap, and reap none. -/
def Kernel.Patient (k : Kernel) (e : Event) : Prop :=
  k.reaps e = none ∧ ∀ a ∈ k.awaits e, a.1 ≠ k.initproc ∧
    ∃ c, k.Awaited a.1 a.2 c ∧ k.Unreaped c

instance (k : Kernel) (e : Event) : Decidable (k.Patient e) := inferInstanceAs (Decidable (_ ∧ _))

/-- A child creates a thread and joins it. -/
theorem waits_for_thread : ∃ k made,
    ((system .standard).withHistory (fun _ => none) Kernel.makers).Reaches Kernel.Sensible (k, made) ∧
      (k.proc ⟨1, by decide⟩).state = .sleeping ∧
      ∃ c, k.isChildThread ⟨1, by decide⟩ 1 c = true ∧ k.Unreaped c ∧ made c = some ⟨1, by decide⟩ := by
  have hrun : (Boot.standard.run Kernel.Patient
      [.schedule ⟨0, by decide⟩, .call ⟨0, by decide⟩ .fork, .schedule ⟨1, by decide⟩,
        .call ⟨1, by decide⟩ (.threadCreate 0 0), .call ⟨1, by decide⟩ (.threadJoin 1)]).any
      (fun k => (k.proc ⟨1, by decide⟩).state = .sleeping ∧ (k.proc ⟨1, by decide⟩).resume = .join 1)
      = true := by decide +kernel
  obtain ⟨k, hk, hc⟩ := exists_reaches_of_run hrun
  obtain ⟨made, hmade⟩ := hk.exists_history (fun _ => none) Kernel.makers
  have hsensible : ((system .standard).withHistory (fun _ => none) Kernel.makers).Reaches Kernel.Sensible (k, made) :=
    hmade.mono fun s e hs =>
      { await := fun a ha _ _ _ => (hs.2 a ha).2
        own := fun tid ha => absurd rfl (hs.2 _ ha).1
        release := fun L hL => by rw [hs.1] at hL; cases hL }
  obtain ⟨hsleep, hres⟩ : (k.proc ⟨1, by decide⟩).state = .sleeping ∧
      (k.proc ⟨1, by decide⟩).resume = .join 1 := by simpa using hc
  exact ⟨k, made, hsensible, hsleep, (waits_for_unreaped hsensible).2.1 _ _ hsleep hres⟩

/-- A thread is joined twice: the second call sleeps, and nobody is left to wake it. -/
theorem waits_for_ghost : ¬ ∀ (b : Boot) (k : Kernel), Reachable b k →
    (∀ p addr, (k.proc p).state = .sleeping → (k.proc p).resume = .wait addr →
      ∃ c, (k.proc c).parent = some p ∧ k.Unreaped c) ∧
    ∀ p tid, (k.proc p).state = .sleeping → (k.proc p).resume = .join tid →
      ∃ c, k.isChildThread p tid c = true ∧ k.Unreaped c := by
  intro h
  have hrun : (Boot.standard.run anyStep
      [.schedule ⟨0, by decide⟩, .call ⟨0, by decide⟩ (.threadCreate 0 0), .schedule ⟨1, by decide⟩,
        .call ⟨1, by decide⟩ .threadExit, .call ⟨0, by decide⟩ (.threadJoin 1),
        .call ⟨0, by decide⟩ (.threadJoin 1)]).any
      (fun k => (k.proc ⟨0, by decide⟩).state = .sleeping ∧ (k.proc ⟨0, by decide⟩).resume = .join 1 ∧
        ∀ c, k.isChildThread ⟨0, by decide⟩ 1 c = true → ¬ k.Unreaped c) = true := by decide +kernel
  obtain ⟨k, hk, hc⟩ := exists_reaches_of_run hrun
  obtain ⟨hs, hr, hnone⟩ : (k.proc ⟨0, by decide⟩).state = .sleeping ∧
      (k.proc ⟨0, by decide⟩).resume = .join 1 ∧
      ∀ c, k.isChildThread ⟨0, by decide⟩ 1 c = true → ¬ k.Unreaped c := by simpa using hc
  obtain ⟨c, hthread, hu⟩ := (h _ k hk).2 _ _ hs hr
  exact hnone c hthread hu

end Xv6
