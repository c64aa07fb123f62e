-- SUMMARY: What a step of the system can do to the process table.
import Xv6Threads.Process.Groups

/-!
# Moves

`Move k e E'` lists what event `e` can make of the entries of `k`. Most events
leave them alone; the others take a slot, link a thread into a group, mark a
slot killed, exited or reaped, or release a whole group. `step_move` says that
every step of the system is a move, so an invariant of the process table is
proved once for each constructor.
-/

namespace Xv6

/-! ## Updates of an entry -/

/-- The decrement of `ref_count`: not below zero. -/
def Entry.dropRef (e : Entry) : Entry :=
  if 0 < e.refCount then { e with refCount := e.refCount - 1 } else e

/-- The entry of a slot that `allocproc` has found and filled in. -/
def Entry.claim (e : Entry) (pid : Int) : Entry :=
  { e with
    phase := .used
    pid := pid
    groupLeader := none
    groupNext := none
    groupPrev := none
    numChildren := 0
    refCount := 0
    chan := none
    ofile := fun _ => none
    cwd := none }

/-- The entry of a slot after the end of `freeproc`; its files stay. -/
def Entry.clear (e : Entry) : Entry :=
  { e with
    phase := .unused
    killed := false
    parent := none
    isThread := false
    tid := 0
    groupLeader := none
    groupNext := none
    groupPrev := none
    numChildren := 0
    refCount := 0
    chan := none
    cwd := none }

/-- The entry of a member after the loop of `freeproc`. Channel and files are
the ones the slot had. -/
def Entry.release (e : Entry) (chan : Option Chan) (files : Fin nofile → Option FileIx) : Entry :=
  { e with
    phase := .unused
    isThread := false
    tid := 0
    groupLeader := none
    groupNext := none
    groupPrev := none
    numChildren := 0
    refCount := 0
    chan := chan
    ofile := files
    cwd := none }

/-! ## Whom an event concerns -/

/-- The slot that a kill or a fault marks. -/
def Kernel.strikes (k : Kernel) : Event → Option Slot
  | .fault p => some p
  | .call _ (.kill pid) => k.findPid pid
  | _ => none

/-- The process that exits. -/
def Event.exits : Event → Option Slot
  | .call p (.exit _) => some p
  | .call p .threadExit => some p
  | .die p => some p
  | _ => none

/-- The exited thread that `thread_join(tid)` of `p` finds. -/
def Kernel.findJoin (k : Kernel) (p : Slot) (tid : Int) : Option Slot :=
  (List.finRange nproc).find? fun tp => k.isChildThread p tid tp ∧ (k.proc tp).state = .zombie

/-- The exited child that `wait(addr)` of `p` reaps: the first one, if its status
can be copied out. -/
def Kernel.waitReaps (k : Kernel) (p : Slot) (addr : Nat) : Option Slot :=
  (k.findZombie p).filter fun pp => (k.copyStatus p pp addr).toOption.any Prod.fst

/-- The exited child that a `wait` or `thread_join` reaps, in a new call or in
one that was asleep. -/
def Kernel.reaps (k : Kernel) : Event → Option Slot
  | .call p (.wait addr) => k.waitReaps p addr
  | .call p (.threadJoin tid) => k.findJoin p tid
  | .schedule p =>
    match (k.proc p).resume with
    | .wait addr => k.waitReaps p addr
    | .join tid => k.findJoin p tid
    | _ => none
  | _ => none

/-! ## Moves -/

/-- The entries of a process table in which `p` has exited as a process. -/
def Kernel.retire (k : Kernel) (p : Slot) : Entries := fun q =>
  { k.entries q with
    phase := if q = p then .zombie else (k.entries q).phase
    parent := if (k.entries q).parent = some p then some k.initproc else (k.entries q).parent }

/-- The entries after the group of `L` with members `ms` has been released;
each member keeps the channel and the files it had. -/
def Entries.disband (E : Entries) (L : Slot) (ms : List Slot) (chan : Slot → Option Chan)
    (files : Slot → Fin nofile → Option FileIx) : Entries := fun q =>
  if q = L then (E L).clear
  else if q ∈ ms then (E q).release (chan q) (files q)
  else E q

open Entries in
inductive Move (k : Kernel) : Event → Entries → Prop where
  | quiet (e : Event) : Move k e k.entries
  | strike (e : Event) (q : Slot) : k.strikes e = some q →
      Move k e (Function.update k.entries q { k.entries q with killed := true })
  | allocFail (p np : Slot) (c : Call) : k.findUnused = some np →
      Move k (.call p c) (Function.update k.entries np { (k.entries np).clear with pid := k.nextpid })
  | fork (p np : Slot) : (k.entries p).phase = .active → k.findUnused = some np →
      Move k (.call p .fork)
        (Function.update k.entries np
          { (k.entries np).claim k.nextpid with phase := .active, parent := some p })
  | create (p np L : Slot) (start arg : Nat) (ms : List Slot) (e : Entry) :
      (k.entries p).phase = .active → k.findUnused = some np → k.leaderOf p = L →
      (k.entries.found p).Group L ms →
      e = { (k.entries np).claim k.nextpid with
        phase := .active
        parent := some p
        isThread := true
        tid := (k.entries.found p L).numChildren + 1
        groupLeader := some L
        groupPrev := some L
        groupNext := (k.entries.found p L).groupNext } →
      Move k (.call p (.threadCreate start arg)) ((k.entries.found p).linkIn L np e)
  | createBad (p np L : Slot) (start arg : Nat) (e : Entry) :
      (k.entries p).phase = .active → k.findUnused = some np → k.leaderOf p = L →
      e = { (k.entries np).claim k.nextpid with
        tid := (k.entries.found p L).numChildren + 1
        groupLeader := some L
        groupPrev := some L
        groupNext := (k.entries.found p L).groupNext } →
      Move k (.call p (.threadCreate start arg)) (Function.update (k.entries.found p) np e)
  | threadExit (e : Event) (p L : Slot) : e.exits = some p → (k.entries p).phase = .active →
      (k.entries p).isThread = true → (k.entries p).groupLeader = some L → L ≠ p →
      Move k e (Function.update (Function.update k.entries L (k.entries L).dropRef) p
        { k.entries p with phase := .zombie })
  | processExit (e : Event) (p : Slot) : e.exits = some p → (k.entries p).phase = .active →
      (k.entries p).isThread = false → Move k e (k.retire p)
  | reapThread (e : Event) (q L : Slot) : k.reaps e = some q → (k.entries q).phase = .zombie →
      (k.entries q).groupLeader = some L → L ≠ q →
      Move k e (Function.update (Function.update k.entries L (k.entries L).dropRef) q
        { k.entries q with phase := .ghost })
  | reapProcess (e : Event) (q : Slot) : k.reaps e = some q → (k.entries q).phase = .zombie →
      (k.entries q).groupLeader = none →
      Move k e (Function.update k.entries q (k.entries q).clear)
  | reapGroup (e : Event) (L : Slot) (ms : List Slot) (chan : Slot → Option Chan)
      (files : Slot → Fin nofile → Option FileIx) : k.reaps e = some L →
      (k.entries L).phase = .zombie → k.entries.Group L ms → (k.entries L).dropRef.refCount = 0 →
      Move k e (k.entries.disband L ms chan files)

namespace Kernel

variable {k k' : Kernel} {p q np L : Slot}

/-! ## Releasing slots -/

theorem entry_clear (pr : Proc) (h : pr.KeepsFiles) : pr.clear.entry = pr.entry.clear := by
  have hfiles : pr.entry.ofile = pr.ofile := by simp [Proc.entry, h]
  simp [Proc.entry, Proc.clear, Entry.clear, Proc.KeepsFiles, ProcState.phase] at hfiles ⊢
  exact hfiles.symm

theorem entry_release (pr : Proc) : pr.release.entry = pr.entry.release pr.chan pr.ofile := by
  simp [Proc.entry, Proc.release, Entry.release, Proc.KeepsFiles, ProcState.phase]

theorem freeSelf_entries (h : k.freeSelf p = .ok k') (hp : (k.proc p).KeepsFiles) :
    k'.entries = Function.update k.entries p (k.entries p).clear := by
  obtain ⟨m, -, rfl⟩ := freeSelf_ok h
  funext q
  by_cases hq : q = p
  · subst hq
    simpa [entries] using entry_clear _ hp
  · simp [entries, hq]

theorem entries_dropRef (k : Kernel) (L : Slot) :
    (k.dropRef L).entries = Function.update k.entries L (k.entries L).dropRef := by
  rw [dropRef, entries_modify]
  congr 1
  by_cases h : 0 < (k.proc L).refCount
  · rw [if_pos h]
    exact (if_pos h).symm
  · rw [if_neg h]
    exact (if_neg h).symm

/-- The loop of `freeproc` follows `group_next` and releases what it meets. -/
theorem freeMembers_ok {n : Nat} {o : Option Slot} (h : freeMembers p n o k = .ok k') :
    ∃ ms, p ∉ ms ∧ ms.Nodup ∧ Follows (fun q => (k.entries q).groupNext) o ms p ∧
      ∀ q, (q ∉ ms → k'.proc q = k.proc q) ∧ (q ∈ ms → k'.proc q = (k.proc q).release) := by
  induction n generalizing o k with
  | zero => cases h
  | succ n ih =>
    cases o with
    | none => cases h
    | some q =>
      rw [freeMembers] at h
      split at h
      · rename_i heq
        cases h
        exact ⟨[], by simp, by simp, by rw [heq]; rfl, fun q => ⟨fun _ => rfl, fun hq => by cases hq⟩⟩
      · rename_i hqp
        obtain ⟨k₁, hfree, h⟩ := Except.bind_ok_iff.1 h
        obtain ⟨m, m', -, -, rfl⟩ := freeMember_ok hfree
        obtain ⟨ms, hp, hnodup, hfollow, hproc⟩ := ih h
        -- the member just released has lost its link, so it is not met again
        have hq : q ∉ ms := fun hmem => hfollow.next_ne_none hmem (by simp [entries, Proc.entry, Proc.release])
        refine ⟨q :: ms, by simp [Ne.symm hqp, hp], List.nodup_cons.2 ⟨hq, hnodup⟩, ⟨rfl, ?_⟩, ?_⟩
        · refine hfollow.congr fun x hx => ?_
          have hxq : x ≠ q := fun heq => hq (heq ▸ hx)
          simp [entries, hxq]
        · intro x
          obtain ⟨hout, hin⟩ := hproc x
          constructor
          · intro hx
            simp only [List.mem_cons, not_or] at hx
            rw [hout hx.2]
            exact Function.update_of_ne hx.1 _ _
          · intro hx
            rcases List.mem_cons.1 hx with rfl | hx
            · rw [hout hq]
              exact Function.update_self _ _ _
            · rw [hin hx]
              have hxq : x ≠ q := fun heq => hq (heq ▸ hx)
              simp [hxq]

/-! ## Taking slots -/

theorem entry_claim (pr : Proc) (pid : Int) (tf : Option Trapframe) (pt : Option PageTable)
    (at_ : Resume) :
    Proc.entry { pr.claim pid with trapframe := tf, pagetable := pt, resume := at_ } =
      pr.entry.claim pid := by
  simp [Proc.entry, Proc.claim, Entry.claim, Proc.KeepsFiles, ProcState.phase]

theorem allocproc_some_entries (h : k.allocproc = .ok (some np, k')) :
    k'.entries = Function.update k.entries np ((k.entries np).claim k.nextpid) := by
  obtain ⟨-, tf, m, pt, m', -, -, rfl⟩ := allocproc_some h
  funext q
  by_cases hq : q = np
  · subst hq
    simpa [entries] using entry_claim _ _ _ _ _
  · simp [entries, hq]

/-- One slot changed. -/
theorem entries_eq_update {e : Entry} (hne : ∀ q, q ≠ np → k'.proc q = k.proc q)
    (hnp : (k'.proc np).entry = e) : k'.entries = Function.update k.entries np e := by
  funext q
  by_cases hq : q = np
  · subst hq; simpa [entries] using hnp
  · simp [entries, hq, hne q hq]

/-- The entry of a slot that was claimed and given up again. -/
theorem entry_clear_of_unused {pr pr₀ : Proc} (h : pr₀.state = .unused) (hfiles : pr.ofile = pr₀.ofile) :
    pr.clear.entry = { pr₀.entry.clear with pid := pr.pid } := by
  simp [Proc.entry, Proc.clear, Entry.clear, Proc.KeepsFiles, ProcState.phase, h, hfiles]

theorem move_of_eq {e : Event} {E : Entries} (h : Move k e E) (heq : k'.entries = E) :
    Move k e k'.entries := heq ▸ h

theorem allocproc_none_move (h : k.allocproc = .ok (none, k')) (c : Call) :
    Move k (.call p c) k'.entries := by
  rcases allocproc_none h with ⟨-, rfl⟩ | ⟨np, m, hfind, -, rfl⟩
  · exact .quiet _
  · refine move_of_eq (.allocFail p np c hfind) (entries_eq_update (fun q hq => by simp [hq]) ?_)
    simp only [Function.update_self]
    exact entry_clear_of_unused (findUnused_unused hfind) rfl

theorem fork_move {r : Int} (hp : (k.proc p).state.phase = .active) (h : k.fork p = .ok (r, k')) :
    Move k (.call p .fork) k'.entries := by
  rcases fork_ok h with halloc | ⟨np, k₁, old, new, m, new', halloc, -, -, hend⟩
  · exact allocproc_none_move halloc _
  have hfind := (allocproc_some halloc).1
  obtain ⟨hne, tf, pt, hnp⟩ := allocproc_some_proc halloc
  rcases hend with ⟨-, hfree⟩ | ⟨-, ntf, regs, ft, ir, files, cwd, name, -, rfl⟩
  · -- the slot is cleared again; its files are the ones it had before
    rw [freeproc_of_ungrouped (by simp [setTable, hnp, Proc.claim])] at hfree
    obtain ⟨m', -, rfl⟩ := freeSelf_ok hfree
    refine move_of_eq (.allocFail p np _ hfind)
      (entries_eq_update (fun q hq => by simp [hq, setTable, modify_proc_ne, hne]) ?_)
    simp only [Function.update_self, setTable, modify_proc_same, hnp]
    exact entry_clear_of_unused (findUnused_unused hfind) rfl
  · refine move_of_eq (.fork p np hp hfind) (entries_eq_update (fun q hq => by simp [hq, hne]) ?_)
    simp only [Function.update_self, hnp]
    simp [Proc.entry, Proc.claim, Entry.claim, entries, Proc.KeepsFiles, ProcState.phase]

/-! ## thread_create -/

theorem entries_foundGroup (k : Kernel) (p : Slot) : (k.foundGroup p).entries = k.entries.found p := by
  unfold foundGroup Entries.found
  by_cases h : (k.proc p).groupLeader = none
  · rw [if_pos h, if_pos (show (k.entries p).groupLeader = none from h), entries_modify]
    rfl
  · rw [if_neg h, if_neg (show (k.entries p).groupLeader ≠ none from h)]

/-- `np` is counted in and linked behind the leader. -/
theorem enterGroup_entries (h : k.enterGroup L np = .ok k') (hne : np ≠ L)
    (hnext : (k.entries L).groupNext ≠ some np) :
    k'.entries = k.entries.linkIn L np
      { k.entries np with
        tid := (k.entries L).numChildren + 1
        groupLeader := some L
        groupPrev := some L
        groupNext := (k.entries L).groupNext } := by
  simp only [enterGroup] at h
  split at h
  · cases h
  rename_i next hnx
  have hnx' : (k.proc L).groupNext = some next := by
    simpa [modify_proc_ne hne.symm] using hnx
  have hnextnp : next ≠ np := fun heq => hnext (heq ▸ hnx')
  cases h
  funext q
  by_cases hq : q = np
  · subst hq
    simp [entries, Entries.linkIn, modify_proc, hne, Ne.symm hnextnp, hnx', Proc.entry]
    rfl
  · have hL : (k.entries L).groupNext = some next := hnx'
    by_cases hqL : q = L
    · subst hqL
      by_cases hqn : q = next
      · subst hqn
        simp [entries, Entries.linkIn, modify_proc, hq, hnx', Proc.entry]
        rfl
      · simp [entries, Entries.linkIn, modify_proc, hq, hnx', hqn, Ne.symm hqn, Proc.entry]
        rfl
    · by_cases hqn : q = next
      · subst hqn
        simp [entries, Entries.linkIn, modify_proc, hq, hqL, hnx', Proc.entry]
        rfl
      · simp [entries, Entries.linkIn, modify_proc, hq, hqL, hqn, hnx', Ne.symm hqn, Proc.entry]

/-- `np` is linked out of the ring again and counted out. -/
theorem leaveGroup_entries (h : k.leaveGroup L np = .ok k') (hne : np ≠ L) {next : Slot}
    (hprev : (k.entries np).groupPrev = some L) (hnext : (k.entries np).groupNext = some next)
    (hnp : next ≠ np) :
    k'.entries = fun q =>
      { k.entries q with
        groupPrev := if q = next then some L else (k.entries q).groupPrev
        groupNext := if q = L then some next else (k.entries q).groupNext
        numChildren := if q = L then (k.entries q).numChildren - 1 else (k.entries q).numChildren
        refCount := if q = L then (k.entries q).refCount - 1 else (k.entries q).refCount } := by
  have hprev' : (k.proc np).groupPrev = some L := hprev
  have hnext' : (k.proc np).groupNext = some next := hnext
  simp only [leaveGroup, hprev', hnext'] at h
  cases h
  funext q
  by_cases hqL : q = L
  · subst hqL
    by_cases hqn : q = next
    · subst hqn
      simp [entries, modify_proc, hprev', hne, Proc.entry]
      rfl
    · simp [entries, modify_proc, hprev', hqn, hne, Proc.entry]
      rfl
  · by_cases hqn : q = next
    · subst hqn
      simp [entries, modify_proc, hprev', hqL, hne, Proc.entry]
      rfl
    · simp [entries, modify_proc, hqL, hqn, Proc.entry]

theorem entry_started {pr : Proc} (h : pr.state.phase = .used) (tf : Option Trapframe)
    (files : Fin nofile → Option FileIx) (cwd : Option InodeIx) (name : String) :
    Proc.entry { pr with
        trapframe := tf
        ofile := files
        cwd := cwd
        isThread := true
        name := name
        parent := some p
        state := .runnable } =
      { pr.entry with phase := .active, isThread := true, parent := some p } := by
  have hs : pr.state = .used := by
    cases hst : pr.state <;> simp [hst, ProcState.phase] at h ⊢
  simp [Proc.entry, Proc.KeepsFiles, ProcState.phase, hs]

theorem startThread_entries {curr start arg : Nat} (h : k.startThread p np curr start arg = .ok k')
    (hnp : (k.entries np).phase = .used) :
    k'.entries = Function.update k.entries np
      { k.entries np with phase := .active, isThread := true, parent := some p } := by
  obtain ⟨ntf, regs, ft, ir, files, cwd, -, rfl⟩ := startThread_ok h
  refine entries_eq_update (fun q hq => Function.update_of_ne hq _ _) ?_
  simp only [Function.update_self]
  exact entry_started hnp _ _ _ _

/-- The leader of `p` once its group is founded. -/
theorem found_groupLeader (k : Kernel) (p : Slot) :
    (k.entries.found p p).groupLeader = some (k.leaderOf p) := by
  unfold Entries.found leaderOf
  by_cases h : (k.proc p).groupLeader = none
  · rw [if_pos (show (k.entries p).groupLeader = none from h), h]
    simp
  · rw [if_neg (show (k.entries p).groupLeader ≠ none from h)]
    obtain ⟨L, hL⟩ := Option.ne_none_iff_exists'.1 h
    rw [hL]
    exact hL

theorem found_phase (E : Entries) (p q : Slot) : (E.found p q).phase = (E q).phase := by
  unfold Entries.found
  split
  · by_cases h : q = p
    · subst h; simp
    · simp [h]
  · rfl

/-- The group that `thread_create` by `p` works on. -/
theorem exists_found_group (hE : k.entries.WellGrouped) (hp : (k.proc p).state.phase = .active) :
    (k.entries.found p).WellGrouped ∧ ∃ ms, (k.entries.found p).Group (k.leaderOf p) ms := by
  have hen : (k.entries p).Enrolled := by
    have : (k.entries p).phase = .active := hp
    simp [Entry.Enrolled, this]
  have hfound : (k.entries.found p).WellGrouped := by
    refine hE.found hen ?_
    by_cases hthread : (k.entries p).isThread = true
    · obtain ⟨-, L, -, hL⟩ := hE.thread p hthread
      exact .inr (by simp [hL])
    · exact .inl (by simpa using hthread)
  refine ⟨hfound, hfound.group p _ (found_groupLeader k p) ?_⟩
  simpa [Entry.Enrolled, found_phase] using hen

/-- The entry that `thread_create` by `p` prepares for `np`. -/
def joined (k : Kernel) (p np : Slot) : Entry :=
  { (k.entries np).claim k.nextpid with
    tid := (k.entries.found p (k.leaderOf p)).numChildren + 1
    groupLeader := some (k.leaderOf p)
    groupPrev := some (k.leaderOf p)
    groupNext := (k.entries.found p (k.leaderOf p)).groupNext }

/-- The table after `thread_create` by `p` has counted in `np` and linked it. -/
theorem enterGroup_joined (hE : k.entries.WellGrouped) (hp : (k.proc p).state.phase = .active)
    {k₁ k₂ : Kernel} (halloc : k.allocproc = .ok (some np, k₁))
    (henter : (k₁.foundGroup p).enterGroup (k₁.leaderOf p) np = .ok k₂) :
    p ≠ np ∧ (k.entries np).phase = .unused ∧ k₁.leaderOf p = k.leaderOf p ∧
      ∃ ms, (k.entries.found p).WellGrouped ∧ (k.entries.found p).Group (k.leaderOf p) ms ∧
        np ∉ k.leaderOf p :: ms ∧
        k₂.entries = (k.entries.found p).linkIn (k.leaderOf p) np (k.joined p np) := by
  have hfind := (allocproc_some halloc).1
  obtain ⟨hne, -⟩ := allocproc_some_proc halloc
  have hnp : (k.entries np).phase = .unused := by
    simp [entries, Proc.entry, findUnused_unused hfind, ProcState.phase]
  have hpnp : p ≠ np := fun heq => by
    have : (k.entries p).phase = .active := hp
    rw [heq, hnp] at this; cases this
  have hleader : k₁.leaderOf p = k.leaderOf p := by simp [leaderOf, hne p hpnp]
  obtain ⟨hfound, ms, hg⟩ := exists_found_group hE hp
  rw [hleader] at henter
  -- the new slot is on no ring
  have hnpring : np ∉ k.leaderOf p :: ms := fun hmem =>
    ((hg.mem_iff np).1 hmem).2.1 ((found_phase _ _ _).trans hnp)
  have hnpL : np ≠ k.leaderOf p := fun heq => hnpring (by simp [heq])
  refine ⟨hpnp, hnp, hleader, ms, hfound, hg, hnpring, ?_⟩
  -- taking the slot and founding the group commute
  have hE₁ : ∀ q, q ≠ np → k₁.entries.found p q = k.entries.found p q := by
    intro q hq
    have hpe : k₁.entries p = k.entries p := by simp [entries, hne p hpnp]
    have hqe : k₁.entries q = k.entries q := by simp [entries, hne q hq]
    by_cases hqp : q = p
    · subst hqp; simp only [Entries.found, hpe]; split <;> simp [hqe]
    · rw [Entries.found_of_ne hqp, Entries.found_of_ne hqp, hqe]
  have hnpe : k₁.entries.found p np = (k.entries np).claim k.nextpid := by
    rw [Entries.found_of_ne hpnp.symm, allocproc_some_entries halloc, Function.update_self]
  have hLe := hE₁ _ hnpL.symm
  obtain ⟨next, hnextmem, hnext, -⟩ := hg.next_isSome
  have hnextnp : next ≠ np := fun heq => hnpring (heq ▸ hnextmem)
  have hE₂ := enterGroup_entries henter hnpL (by
    rw [entries_foundGroup, hLe, hnext]
    exact fun heq => hnextnp (Option.some.inj heq))
  rw [entries_foundGroup, hnpe, hLe] at hE₂
  rw [hE₂]
  funext q
  by_cases hq : q = np
  · simp [Entries.linkIn, hq, joined]
  · simp only [Entries.linkIn, hq, if_false, hE₁ q hq, hLe]

/-- `thread_create` got no slot, gave the new slot up half-way, or linked it in
and started it; with the states in between. -/
theorem threadCreate_cases {start arg : Nat} {r : Int} (hE : k.entries.WellGrouped)
    (hp : (k.proc p).state.phase = .active) (h : k.threadCreate p start arg = .ok (r, k')) :
    k.allocproc = .ok (none, k') ∨
    ∃ np ms k₁ k₂ pt npt b m npt', k.allocproc = .ok (some np, k₁) ∧ p ≠ np ∧
      (k.entries.found p).Group (k.leaderOf p) ms ∧
      (k₁.foundGroup p).enterGroup (k.leaderOf p) np = .ok k₂ ∧
      k₂.entries = (k.entries.found p).linkIn (k.leaderOf p) np (k.joined p np) ∧
      (k₂.proc p).pagetable = some pt ∧ (k₂.proc np).pagetable = some npt ∧
      PageTable.uvmshare k₂.mem pt npt (k₂.proc p).sz = .ok (b, m, npt') ∧
      ((∃ m', m.kalloc = (none, m') ∧
          leaveGroup { { k₂ with mem := m }.setTable np npt' with mem := m' } (k.leaderOf p) np = .ok k' ∧
          k'.entries = Function.update (k.entries.found p) np (k.joined p np)) ∨
        ∃ stack m' k₃, m.kalloc = (some stack, m') ∧
          ringLoop (k.leaderOf p) (mapStack (k₂.proc p).sz stack) nproc (k.leaderOf p)
            { { k₂ with mem := m }.setTable np npt' with mem := m'.memset stack 0 } = .ok k₃ ∧
          k₃.entries = k₂.entries ∧ k₃.startThread p np (k₂.proc p).sz start arg = .ok k' ∧
          k'.entries = (k.entries.found p).linkIn (k.leaderOf p) np
            { k.joined p np with phase := .active, parent := some p, isThread := true }) := by
  rcases threadCreate_ok h with halloc | ⟨np, k₁, k₂, pt, npt, b, m, npt', halloc, henter, hpt, hnpt, hshare, hend⟩
  · exact .inl halloc
  refine .inr ?_
  obtain ⟨hpnp, -, hleader, ms, -, hg, hnpring, hE₂⟩ := enterGroup_joined hE hp halloc henter
  rw [hleader] at henter hend
  have hnpL : np ≠ k.leaderOf p := fun heq => hnpring (by simp [heq])
  obtain ⟨next, hnextmem, hnext, hnextprev⟩ := hg.next_isSome
  have hnextnp : next ≠ np := fun heq => hnpring (heq ▸ hnextmem)
  refine ⟨np, ms, k₁, k₂, pt, npt, b, m, npt', halloc, hpnp, hg, henter, hE₂, hpt, hnpt, hshare, ?_⟩
  rcases hend with ⟨m', hk, hleave⟩ | ⟨stack, m', k₃, hk, hloop, hstart⟩
  · refine .inl ⟨m', hk, hleave, ?_⟩
    have hK : entries { { k₂ with mem := m }.setTable np npt' with mem := m' } = k₂.entries :=
      (entries_setTable { k₂ with mem := m } np npt').trans rfl
    have hnpnext : (entries { { k₂ with mem := m }.setTable np npt' with mem := m' } np).groupNext
        = some next := by rw [hK, hE₂]; simp [Entries.linkIn, joined, hnext]
    have := leaveGroup_entries hleave hnpL (by rw [hK, hE₂]; simp [Entries.linkIn, joined]) hnpnext hnextnp
    rw [this, hK, hE₂]
    funext q
    by_cases hq : q = np
    · subst hq
      simp [Entries.linkIn, hnpL, Ne.symm hnextnp, Entry.claim, joined]
    · have hprevq : q = next → (k.entries.found p q).groupPrev = some (k.leaderOf p) := by
        rintro rfl; exact hnextprev
      have hnextq : q = k.leaderOf p → (k.entries.found p q).groupNext = some next := by
        rintro rfl; exact hnext
      simp only [Entries.linkIn, hq, if_false, Function.update_of_ne hq, hnext, Option.some.injEq,
        eq_comm (a := next)]
      generalize k.entries.found p q = e at hprevq hnextq
      cases e
      by_cases hqL : q = k.leaderOf p <;> by_cases hqn : q = next <;> simp_all
  · have hK : entries { { k₂ with mem := m }.setTable np npt' with mem := m'.memset stack 0 } =
        k₂.entries := (entries_setTable { k₂ with mem := m } np npt').trans rfl
    have hE₃ : k₃.entries = k₂.entries := by
      refine ringLoop_invariant (P := fun k' => k'.entries = k₂.entries) ?_ hK hloop
      intro k₄ q k₅ he hbody
      exact (mapStack_remaps hbody).entries.trans he
    refine .inr ⟨stack, m', k₃, hk, hloop, hE₃, hstart, ?_⟩
    rw [startThread_entries hstart (by rw [hE₃, hE₂]; simp [Entries.linkIn, joined, Entry.claim]), hE₃, hE₂]
    funext q
    by_cases hq : q = np
    · subst hq
      simp [Entries.linkIn, Entry.claim, joined]
    · simp [Entries.linkIn, hq]

theorem threadCreate_move {start arg : Nat} {r : Int} (hE : k.entries.WellGrouped)
    (hp : (k.proc p).state.phase = .active) (h : k.threadCreate p start arg = .ok (r, k')) :
    Move k (.call p (.threadCreate start arg)) k'.entries := by
  rcases threadCreate_cases hE hp h with
    halloc | ⟨np, ms, k₁, k₂, pt, npt, b, m, npt', halloc, -, hg, -, -, -, -, -, hend⟩
  · exact allocproc_none_move halloc _
  have hfind := (allocproc_some halloc).1
  rcases hend with ⟨m', -, -, hk'⟩ | ⟨stack, m', k₃, -, -, -, -, hk'⟩
  · exact move_of_eq (.createBad p np _ start arg _ hp hfind rfl rfl) hk'
  · exact move_of_eq (.create p np _ start arg ms _ hp hfind rfl hg rfl) hk'

/-! ## Exit -/

theorem entries_exited (hp : (k.proc p).state.phase = .active) (hthread : (k.proc p).isThread = false)
    (status : Int) : entries { k with proc := k.exited p status } = k.retire p := by
  have hs : (k.proc p).state ≠ .unused ∧ (k.proc p).state ≠ .zombie := by
    constructor <;> intro hst <;> simp [hst, ProcState.phase] at hp
  funext q
  by_cases hq : q = p
  · subst hq
    simp [entries, exited, retire, Proc.entry, Proc.KeepsFiles, ProcState.phase, hs, hthread]
  · simp only [entries, exited, retire, if_neg hq]
    rfl

theorem exitProcess_move {e : Event} {status : Int} (he : e.exits = some p)
    (hp : (k.proc p).state = .running) (hthread : (k.proc p).isThread = false)
    (h : k.exitProcess p status = .ok k') : Move k e k'.entries := by
  have hp' : (k.proc p).state.phase = .active := by simp [hp, ProcState.phase]
  refine move_of_eq (.processExit e p he hp' hthread) ?_
  rw [(exitProcess_ok (by simp [hp]) h).1.entries_eq, entries_exited hp' hthread]

theorem threadExitThread_move {e : Event} (hE : k.entries.WellGrouped) (he : e.exits = some p)
    (hp : (k.proc p).state = .running) (hthread : (k.proc p).isThread = true) :
    Move k e (k.threadExitThread p).entries := by
  obtain ⟨-, L, hne, hL⟩ := hE.thread p hthread
  have hp' : (k.entries p).phase = .active := by simp [entries, Proc.entry, hp, ProcState.phase]
  refine move_of_eq (.threadExit e p L he hp' hthread hL hne) ?_
  have hleader : k.leaderOf p = L := by
    rw [leaderOf, show (k.proc p).groupLeader = some L from hL]
    rfl
  rw [threadExitThread, (wakes_wakeParent _ _).entries_eq, entries_modify, entries_dropRef, hleader]
  congr 1
  have hpL : (k.dropRef L).proc p = k.proc p := modify_proc_ne hne.symm
  rw [hpL]
  simp [entries, Proc.entry, Proc.KeepsFiles, ProcState.phase, hp, hthread]

theorem exit_move {e : Event} {status : Int} (hE : k.entries.WellGrouped) (he : e.exits = some p)
    (hp : (k.proc p).state = .running) (h : k.exit p status = .ok k') : Move k e k'.entries := by
  unfold exit at h
  split at h
  · rename_i hthread
    cases h
    exact threadExitThread_move hE he hp hthread
  · rename_i hthread
    exact exitProcess_move he hp (by simpa using hthread) h

theorem threadExit_move {e : Event} (hE : k.entries.WellGrouped) (he : e.exits = some p)
    (hp : (k.proc p).state = .running) (h : k.threadExit p = .ok k') : Move k e k'.entries := by
  unfold threadExit at h
  split at h
  · rename_i hthread
    cases h
    exact threadExitThread_move hE he hp hthread
  · rename_i hthread
    exact exitProcess_move he hp (by simpa using hthread) h

/-! ## Reaping -/

/-- What `freeproc` does to an exited slot: a thread becomes a ghost, a process
is cleared, a leader is cleared with its whole group. -/
theorem freeproc_entries (hE : k.entries.WellGrouped) (hz : (k.proc q).state = .zombie)
    (h : k.freeproc q = .ok k') :
    ((k.entries q).groupLeader = none ∧
      k'.entries = Function.update k.entries q (k.entries q).clear) ∨
    (∃ L, L ≠ q ∧ (k.entries q).groupLeader = some L ∧
      k'.entries = Function.update (Function.update k.entries L (k.entries L).dropRef) q
        { k.entries q with phase := .ghost }) ∨
    (∃ ms, k.entries.Group q ms ∧ (k.entries q).dropRef.refCount = 0 ∧
      k'.entries = k.entries.disband q ms (fun x => (k.proc x).chan) fun x => (k.proc x).ofile) := by
  have hen : (k.entries q).Enrolled := by
    simp [Entry.Enrolled, entries, Proc.entry, hz, ProcState.phase]
  cases hL : (k.proc q).groupLeader with
  | none =>
    refine .inl ⟨hL, ?_⟩
    rw [freeproc_of_ungrouped hL] at h
    refine freeSelf_entries h (.inr ⟨hz, ?_⟩)
    by_contra hthread
    obtain ⟨-, L, -, hL'⟩ := hE.thread q (by simpa [entries, Proc.entry] using hthread)
    rw [show (k.entries q).groupLeader = none from hL] at hL'
    cases hL'
  | some L =>
    simp only [freeproc, hL] at h
    split at h
    · cases h
    rename_i hpanic
    split at h
    · rename_i hne
      refine .inr (.inl ⟨L, Ne.symm hne, hL, ?_⟩)
      cases h
      rw [entries_modify, entries_dropRef]
      congr 1
      have hqL : (k.dropRef L).proc q = k.proc q := modify_proc_ne hne
      rw [hqL]
      have hthread : (k.proc q).isThread = true := by
        by_contra hthread
        rcases hE.process q (by simpa [entries, Proc.entry] using hthread) hen with hn | hs
        · rw [show (k.entries q).groupLeader = some L from hL] at hn; cases hn
        · rw [show (k.entries q).groupLeader = some L from hL] at hs
          exact hne (Option.some.inj hs).symm
      simp [entries, Proc.entry, Proc.KeepsFiles, ProcState.phase, hz, hthread]
    · rename_i hne
      obtain rfl : q = L := not_not.1 hne
      refine .inr (.inr ?_)
      obtain ⟨k₁, hfree, h⟩ := Except.bind_ok_iff.1 h
      obtain ⟨ms', hq, -, hfollow, hproc⟩ := freeMembers_ok hfree
      obtain ⟨ms, hg⟩ := hE.group_of_leader hL hen
      have hnext : (fun x => ((k.dropRef q).entries x).groupNext) = fun x => (k.entries x).groupNext := by
        funext x
        rw [entries_dropRef]
        by_cases hx : x = q
        · subst hx
          rw [Function.update_self, Entry.dropRef]
          split <;> rfl
        · rw [Function.update_of_ne hx]
      have hstart : ((k.dropRef q).proc q).groupNext = (k.entries q).groupNext :=
        congrFun hnext q
      rw [hnext, hstart] at hfollow
      obtain rfl : ms = ms' := hg.ring.follows.unique hfollow hg.ring.head_notMem hq
      refine ⟨ms, hg, ?_, ?_⟩
      · have href : ((k.dropRef q).proc q).refCount = (k.entries q).dropRef.refCount := by
          have := congrFun (entries_dropRef k q) q
          rw [Function.update_self] at this
          exact congrArg Entry.refCount this
        rw [← href]
        exact not_not.1 fun hne => hpanic ⟨rfl, hne⟩
      · have hdrop : ∀ x, x ≠ q → (k.dropRef q).proc x = k.proc x := fun x hx => modify_proc_ne hx
        have hkeep : ((k.dropRef q).proc q).KeepsFiles := by
          have hthread := hE.not_isThread_of_leader hL
          refine .inr ⟨?_, ?_⟩
          · simp only [dropRef, modify_proc_same]
            split <;> exact hz
          · simp only [dropRef, modify_proc_same]
            split <;> exact hthread
        have hself := (hproc q).1 hg.ring.head_notMem
        have hclear := freeSelf_entries h (hself ▸ hkeep)
        rw [hclear]
        funext x
        by_cases hx : x = q
        · subst hx
          have : k₁.entries x = (k.entries x).dropRef := by
            rw [entries, hself]
            exact (congrFun (entries_dropRef k x) x).trans (Function.update_self _ _ _)
          rw [Function.update_self, this]
          simp only [Entries.disband, if_true, Entry.dropRef]
          split <;> rfl
        · rw [Function.update_of_ne hx, Entries.disband, if_neg hx]
          by_cases hmem : x ∈ ms
          · rw [if_pos hmem, entries, (hproc x).2 hmem, hdrop x hx]
            exact entry_release _
          · rw [if_neg hmem, entries, (hproc x).1 hmem, hdrop x hx]
            rfl

section

/-! The reaper may have been switched to in the same step, so the call is made
from a state `k₁` with the entries of `k`. -/

variable {k₁ : Kernel} {e : Event}

theorem freeproc_move (hk : k₁.entries = k.entries) (hE : k.entries.WellGrouped)
    (he : k.reaps e = some q) (hz : (k₁.proc q).state = .zombie) (h : k₁.freeproc q = .ok k') :
    Move k e k'.entries := by
  have hz' : (k.entries q).phase = .zombie := by
    rw [← hk]
    simp [entries, Proc.entry, hz, ProcState.phase]
  rcases freeproc_entries (hk ▸ hE) hz h with ⟨hL, hk'⟩ | ⟨L, hne, hL, hk'⟩ | ⟨ms, hg, href, hk'⟩
  all_goals rw [hk] at *
  · exact move_of_eq (.reapProcess e q he hz' hL) hk'
  · exact move_of_eq (.reapThread e q L he hz' hL hne) hk'
  · exact move_of_eq (.reapGroup e q ms _ _ he hz' hg href) hk'

theorem wait_move {addr : Nat} {r : Option Int} (hk : k₁.entries = k.entries)
    (hE : k.entries.WellGrouped) (he : k.reaps e = k₁.waitReaps p addr)
    (hp : (k₁.proc p).state.phase = .active) (h : k₁.wait p addr = .ok (r, k')) :
    Move k e k'.entries := by
  rcases wait_ok h with rfl | rfl | ⟨pp, b, m, hfind, hcopy, -, -, -, rfl | ⟨rfl, hfree⟩⟩
  · exact move_of_eq (.quiet e) hk
  · exact move_of_eq (.quiet e) ((entries_sleep hp _ _).trans hk)
  · exact move_of_eq (.quiet e) hk
  · have hreaps : k₁.waitReaps p addr = some pp := by
      simp [waitReaps, hfind, hcopy, Except.toOption]
    have hk₂ : entries { k₁ with mem := m } = k.entries := hk
    exact freeproc_move hk₂ hE (he.trans hreaps) (findZombie_spec hfind).2 hfree

theorem findJoin_spec {tid : Int} (h : k.findJoin p tid = some q) :
    k.isChildThread p tid q = true ∧ (k.proc q).state = .zombie := by
  simpa using List.find?_some h

theorem threadJoin_ok {tid : Int} {r : Option Int} (h : k.threadJoin p tid = .ok (r, k')) :
    k' = k ∨ k' = k.sleep p (.proc p) (.join tid) ∨
    ∃ tp, k.findJoin p tid = some tp ∧ k.freeproc tp = .ok k' := by
  unfold threadJoin at h
  split at h
  · rename_i tp hfind
    obtain ⟨k₁, hfree, h⟩ := Except.bind_ok_iff.1 h
    cases h
    exact .inr (.inr ⟨tp, hfind, hfree⟩)
  · split at h
    · cases h
      exact .inl rfl
    · cases h
      exact .inr (.inl rfl)

theorem threadJoin_move {tid : Int} {r : Option Int} (hk : k₁.entries = k.entries)
    (hE : k.entries.WellGrouped) (he : k.reaps e = k₁.findJoin p tid)
    (hp : (k₁.proc p).state.phase = .active) (h : k₁.threadJoin p tid = .ok (r, k')) :
    Move k e k'.entries := by
  rcases threadJoin_ok h with rfl | rfl | ⟨tp, hfind, hfree⟩
  · exact move_of_eq (.quiet e) hk
  · exact move_of_eq (.quiet e) ((entries_sleep hp _ _).trans hk)
  · exact freeproc_move hk hE (he.trans hfind) (findJoin_spec hfind).2 hfree

end

/-! ## Kills and faults -/

theorem entry_kill (pr : Proc) :
    Proc.entry { pr with
        killed := true
        state := if pr.state = .sleeping then .runnable else pr.state } =
      { pr.entry with killed := true } := by
  by_cases h : pr.state = .sleeping
  · simp [Proc.entry, Proc.KeepsFiles, h, ProcState.phase]
  · rw [if_neg h]
    rfl

theorem kill_move (k : Kernel) (p : Slot) (pid : Int) :
    Move k (.call p (.kill pid)) (k.kill pid).2.entries := by
  unfold kill
  split
  · exact .quiet _
  · rename_i q hfind
    refine move_of_eq (.strike _ q hfind) ?_
    rw [entries_modify, entry_kill]
    rfl

/-! ## Every step is a move -/

/-- The switch to a ready process changes no entry. -/
theorem switch_entries (hp : (k.proc p).state = .runnable) :
    (k.modify p fun pr => { pr with state := .running, chan := none, resume := .user }).entries =
      k.entries :=
  entries_modify_same
    (Proc.entry_congr (by simp [hp, ProcState.phase]) rfl rfl rfl rfl rfl rfl rfl rfl rfl rfl rfl)

/-- It does not matter to a search for exited slots which of the others run. -/
theorem find_switch {f : Proc → Proc} (hp : (k.proc p).state = .runnable)
    (hf : (f (k.proc p)).state = .running) (c : Proc → Bool)
    (hc : ∀ pr : Proc, pr.state ≠ .zombie → c pr = false) :
    (List.finRange nproc).find? (fun q => c ((k.modify p f).proc q)) =
      (List.finRange nproc).find? (fun q => c (k.proc q)) := by
  congr 1
  funext q
  by_cases hq : q = p
  · subst hq
    rw [modify_proc_same, hc _ (by simp [hf]), hc _ (by simp [hp])]
  · rw [modify_proc_ne hq]

theorem findZombie_switch (hp : (k.proc p).state = .runnable) :
    (k.modify p fun pr => { pr with state := .running, chan := none, resume := .user }).findZombie p =
      k.findZombie p := by
  unfold findZombie
  exact find_switch hp rfl (fun pr => decide (pr.parent = some p ∧ pr.state = .zombie))
    (by simp +contextual)

theorem waitReaps_switch (hp : (k.proc p).state = .runnable) (addr : Nat) :
    (k.modify p fun pr => { pr with state := .running, chan := none, resume := .user }).waitReaps p addr =
      k.waitReaps p addr := by
  rw [waitReaps, waitReaps, findZombie_switch hp]
  cases hz : k.findZombie p with
  | none => rw [Option.filter_none, Option.filter_none]
  | some pp =>
    have hne : pp ≠ p := fun heq => by
      have := (findZombie_spec hz).2
      rw [heq, hp] at this; cases this
    have hcopy : ∀ f : Proc → Proc, (f (k.proc p)).pagetable = (k.proc p).pagetable →
        ((k.modify p f).copyStatus p pp addr).toOption.any Prod.fst =
          (k.copyStatus p pp addr).toOption.any Prod.fst := by
      intro f hf
      unfold copyStatus
      by_cases haddr : addr = 0
      · simp [haddr, Except.toOption]
      · rw [if_neg haddr, if_neg haddr, modify_proc_same, hf, modify_proc_ne hne, modify_mem]
        cases (k.proc p).pagetable with
        | none => simp [Except.toOption]
        | some pt => simp [Except.toOption]
    rw [Option.filter_some, Option.filter_some, hcopy _ rfl]

theorem findJoin_switch (hp : (k.proc p).state = .runnable) (tid : Int) :
    (k.modify p fun pr => { pr with state := .running, chan := none, resume := .user }).findJoin p tid =
      k.findJoin p tid := by
  simp only [findJoin, isChildThread]
  refine find_switch hp rfl (fun pr => decide (decide (pr.parent = some p ∧ pr.tid = tid ∧
    pr.isThread = true) = true ∧ pr.state = .zombie)) ?_
  simp +contextual

theorem resume_move {r : Option Int} (hE : k.entries.WellGrouped) (hp : (k.proc p).state = .runnable)
    (h : k.resume p = .ok (r, k')) : Move k (.schedule p) k'.entries := by
  have hk := switch_entries hp
  simp only [resume] at h
  split at h
  · cases h
    exact move_of_eq (.quiet _) hk
  · cases h
    exact move_of_eq (.quiet _) hk
  · rename_i addr hres
    refine wait_move hk hE ?_ (by simp [ProcState.phase]) h
    simp only [reaps, hres]
    exact (waitReaps_switch hp addr).symm
  · rename_i tid hres
    refine threadJoin_move hk hE ?_ (by simp [ProcState.phase]) h
    simp only [reaps, hres]
    exact (findJoin_switch hp tid).symm

theorem syscall_move {c : Call} {r : Option Int} (hE : k.entries.WellGrouped)
    (hp : (k.proc p).state = .running) (h : k.syscall p c = .ok (r, k')) :
    Move k (.call p c) k'.entries := by
  have hp' : (k.proc p).state.phase = .active := by simp [hp, ProcState.phase]
  cases c with
  | fork => obtain ⟨v, hv⟩ := returns_ok h; exact fork_move hp' hv
  | exec path file argv => obtain ⟨v, hv⟩ := returns_ok h; exact move_of_eq (.quiet _) (exec_remaps hv).entries
  | sbrk n => obtain ⟨v, hv⟩ := returns_ok h; exact move_of_eq (.quiet _) (sbrk_remaps hv).entries
  | threadCreate start arg => obtain ⟨v, hv⟩ := returns_ok h; exact threadCreate_move hE hp' hv
  | threadExit => exact threadExit_move hE rfl hp (noReturn_ok h)
  | threadJoin tid => exact threadJoin_move rfl hE rfl hp' h
  | exit status => exact exit_move hE rfl hp (noReturn_ok h)
  | wait addr => exact wait_move rfl hE rfl hp' h
  | kill pid =>
    obtain ⟨-, hk'⟩ := Prod.mk.inj (Except.ok.inj h)
    exact hk' ▸ kill_move k p pid
  | «open» ip device rd wr => obtain ⟨v, hv⟩ := returns_ok h; exact move_of_eq (.quiet _) (sysOpen_entries hp' hv)
  | dup fd => obtain ⟨v, hv⟩ := returns_ok h; exact move_of_eq (.quiet _) (sysDup_entries hp' hv)
  | close fd => obtain ⟨v, hv⟩ := returns_ok h; exact move_of_eq (.quiet _) (sysClose_entries hp' hv)
  | pipe fdarray => obtain ⟨v, hv⟩ := returns_ok h; exact move_of_eq (.quiet _) (sysPipe_entries hp' hv)
  | chdir ip => obtain ⟨v, hv⟩ := returns_ok h; exact move_of_eq (.quiet _) (sysChdir_entries hp' hv)

/-- Every step of the system is a move. -/
theorem step_move {e : Event} {r : Option Int} (hE : k.entries.WellGrouped)
    (hen : k.enabled e = true) (h : k.step e = .ok (r, k')) : Move k e k'.entries := by
  cases e with
  | schedule p => exact resume_move hE (by simpa [enabled] using hen) h
  | yield p =>
    have hp : (k.proc p).state = .running := by simpa [enabled] using hen
    cases h
    exact move_of_eq (.quiet _) (entries_modify_same
      (Proc.entry_congr (by simp [hp, ProcState.phase]) rfl rfl rfl rfl rfl rfl rfl rfl rfl rfl rfl))
  | call p c =>
    have hp : (k.proc p).state = .running ∧ (k.proc p).killed = false := by simpa [enabled] using hen
    exact syscall_move hE hp.1 h
  | block p n =>
    have hp : (k.proc p).state = .running := by simpa [enabled] using hen
    cases h
    exact move_of_eq (.quiet _) (entries_sleep (by simp [hp, ProcState.phase]) _ _)
  | unblock n =>
    cases h
    exact move_of_eq (.quiet _) (entries_wakeup _ _ _)
  | fault p =>
    cases h
    refine move_of_eq (.strike _ p rfl) ?_
    rw [setkilled, entries_modify]
    rfl
  | die p =>
    have hp : (k.proc p).state = .running ∧ (k.proc p).killed = true := by simpa [enabled] using hen
    obtain ⟨k₁, hx, hr⟩ := Except.bind_ok_iff.1 h
    cases hr
    exact exit_move hE rfl hp.1 hx

end Kernel

end Xv6
