-- SUMMARY: The counts of open files and inodes are what the slots hold, in runs where threads leave nothing behind.
import Xv6Threads.Process.Handles
import Xv6Threads.System.Waiting

/-!
# References

`fork` and `thread_create` count a reference for every handle they copy. Only
the exit of a process drops them: `thread_exit` closes nothing, and the loop of
`freeproc` over a group empties the slots of its threads with their files and
directories still counted. `Balances` excludes both. What remains is an
invariant: nothing is owed between two calls, slots that are free or belong to
an exited process hold nothing, and no exited thread holds the writing end of a
pipe.
-/

namespace Xv6

variable {b : Boot} {k k' : Kernel} {e : Event} {r : Option Int} {p q : Slot} {x : Entry}

/-- The slot is free, or being set up, or its process has exited. -/
def Entry.Spent (x : Entry) : Prop :=
  x.phase = .unused ∨ x.phase = .used ∨ x.phase = .zombie ∧ x.isThread = false

namespace Kernel

open Desk

instance (k : Kernel) (q : Slot) : Decidable (k.Bare q) := inferInstanceAs (Decidable (_ ∧ _))

/-- `q` has the writing end of the pipe at `pg` open. -/
def Writes (k : Kernel) (q : Slot) (pg : Ppn) : Prop :=
  ∃ fd f, (k.proc q).ofile fd = some f ∧ (k.ftable f).type = .pipe pg ∧ (k.ftable f).writable = true

/-- No descriptor of `q` is the writing end of a pipe. -/
def Silent (k : Kernel) (q : Slot) : Prop :=
  ∀ fd f, (k.proc q).ofile fd = some f → (k.ftable f).writeEnd = none

instance (k : Kernel) (q : Slot) : Decidable (k.Silent q) :=
  inferInstanceAs (Decidable (∀ _ _, _ → _))

/-- A thread that exits has no writing end open, and the threads of a leader
that is reaped have no handle left. -/
structure Balances (k : Kernel) (e : Event) : Prop where
  leave : ∀ p ∈ e.exits, (k.proc p).isThread = true → k.Silent p
  release : ∀ L ∈ k.reaps e, ∀ q, q ≠ L → (k.proc q).groupLeader = some L → k.Bare q

instance (k : Kernel) (e : Event) : Decidable (k.Balances e) :=
  decidable_of_iff _ ⟨fun ⟨h₁, h₂⟩ => Balances.mk h₁ h₂, fun h => And.intro h.leave h.release⟩

structure Accounted (k : Kernel) : Prop where
  grouped : k.entries.WellGrouped
  owes : k.desk.Owes [] []
  bare : ∀ q, (k.entries q).Spent → k.Bare q
  silent : ∀ q, (k.entries q).phase = .zombie ∨ (k.entries q).phase = .ghost → k.Silent q

/-- What a step does to the file layer: nothing, or one slot changes its
handles that has not exited after it, or exits as a process. -/
structure Settles (k : Kernel) (e : Event) (k' : Kernel) : Prop where
  owes : k'.desk.Owes [] []
  bare : ∀ p, e.exits = some p → (k.proc p).isThread = false → k'.Bare p
  steady : k'.desk = k.desk ∨ ∃ p, Steady p k.desk k'.desk ∧
    ((k'.entries p).phase = .active ∨ e.exits = some p ∧ (k.proc p).isThread = false)

/-! ## What a step gives up -/

theorem not_spent_of_active (h : x.phase = .active) : ¬ x.Spent := by
  rintro (hu | hu | ⟨hu, -⟩) <;> rw [h] at hu <;> cases hu

/-- A slot that is free after a step, or whose process has exited, held nothing
before, unless it is the process that exits. -/
theorem Accounted.bare_of_spent (h : k.Accounted) (hen : k.enabled e = true) (hG : k.Balances e)
    (hkin : Kin k e q x) (hx : x.Spent) :
    k.Bare q ∨ x.phase = .zombie ∧ e.exits = some q ∧ (k.proc q).isThread = false := by
  have hspent : x.phase = (k.entries q).phase → x.isThread = (k.entries q).isThread → (k.entries q).Spent := by
    intro hph hth
    rw [Entry.Spent, hph, hth] at hx
    exact hx
  cases hkin with
  | kept hph _ hids => exact .inl (h.bare q (hspent hph hids.isThread))
  | exited he _ hph _ hids =>
    obtain hu | hu | ⟨-, hth⟩ := hx
    · rw [hph] at hu; cases hu
    · rw [hph] at hu; cases hu
    · exact .inr ⟨hph, he, hids.isThread.symm.trans hth⟩
  | adopted _ _ _ _ _ _ _ hph hids => exact .inl (h.bare q (hspent hph hids.isThread))
  | reaped _ _ _ _ _ hph =>
    obtain hu | hu | ⟨hu, -⟩ := hx <;> rw [hph] at hu <;> cases hu
  | freed hfrees _ =>
    obtain ⟨L, hr, hL⟩ := hfrees
    obtain ⟨-, -, hz, -⟩ := reaps_parent hen hr
    -- the one that is reaped is a process: a thread has a leader other than itself
    have hleader : (k.entries L).groupLeader = none ∨ (k.entries L).groupLeader = some L → k.Bare L := by
      intro hor
      refine h.bare L (.inr (.inr ⟨hz, Bool.eq_false_iff.2 fun hth => ?_⟩))
      obtain ⟨-, L', hne, hL'⟩ := h.grouped.thread L hth
      rcases hor with hnone | hself
      · rw [hnone] at hL'; cases hL'
      · rw [hself] at hL'; exact hne (Option.some.inj hL').symm
    obtain ⟨hnone, rfl⟩ | ⟨ms, hg, hq⟩ := hL
    · exact .inl (hleader (.inl hnone))
    · by_cases hqL : q = L
      · subst hqL
        exact .inl (hleader (.inr hg.leader.1))
      · exact .inl (hG.release L hr q hqL ((hg.mem_iff q).1 hq).1)
  | forked _ _ _ _ hph => exact absurd hx (not_spent_of_active hph)
  | created _ _ _ _ _ _ hph => exact absurd hx (not_spent_of_active hph)
  | failed hfind => exact .inl (h.bare q (.inl (findUnused_phase hfind)))
  | stranded _ _ _ _ hfind => exact .inl (h.bare q (.inl (findUnused_phase hfind)))

/-! ## One step -/

theorem Inherits.settles (h : k.Inherits k') (he : e.exits = none) : k.Settles e k' := by
  refine ⟨h.owes, fun p hp => ?_, ?_⟩
  · rw [he] at hp
    cases hp
  · rcases h.steady with hd | ⟨np, -, hS, hact⟩
    · exact .inl hd
    · exact .inr ⟨np, hS, .inl hact⟩

section

variable (hO : k.desk.Owes [] [])
include hO

theorem settles_of_eq (hd : k'.desk = k.desk) (he : ∀ p, e.exits = some p → (k.proc p).isThread = true) :
    k.Settles e k' := by
  refine ⟨hd ▸ hO, fun p hp hth => ?_, .inl hd⟩
  rw [he p hp] at hth
  cases hth

theorem Forgets.settles (h : k.Forgets k') (hgone : ∀ q, (k'.proc q).state = .unused → (k.proc q).cwd = none)
    (he : e.exits = none) : k.Settles e k' :=
  settles_of_eq hO (h.desk_eq hgone) fun p hp => by
    rw [he] at hp
    cases hp

theorem exits_settles (hen : k.enabled e = true) (h : k.step e = .ok (r, k')) (he : e.exits = some p) :
    k.Settles e k' := by
  rcases step_exit_cases h he with ⟨hthread, rfl⟩ | ⟨hprocess, status, hx⟩
  · refine settles_of_eq hO (threadExitThread_desk k p) fun q hq => ?_
    rw [he] at hq
    cases hq
    exact hthread
  · have hs : (k.proc p).state ≠ .sleeping := by simp [exits_running hen he]
    obtain ⟨hO', hS, hb⟩ := exitProcess_desk hs hO hx
    refine ⟨hO', fun q hq _ => ?_, .inr ⟨p, hS, .inr ⟨he, hprocess⟩⟩⟩
    rw [he] at hq
    cases hq
    exact hb

theorem syscall_settles {c : Call} (hbare : ∀ q, k.findUnused = some q → k.Bare q)
    (hgone : ∀ q, (k'.proc q).state = .unused → (k.proc q).cwd = none)
    (hen : k.enabled (.call p c) = true) (h : k.syscall p c = .ok (r, k')) : k.Settles (.call p c) k' := by
  have hp : (k.proc p).state = .running ∧ (k.proc p).killed = false := by simpa [enabled] using hen
  have hact : (k.proc p).state.phase = .active := by rw [hp.1]; rfl
  have hused : (k.proc p).state ≠ .unused := by simp [hp.1]
  -- the descriptor calls work on the caller, which goes on running
  have hown : ∀ {e : Event}, e.exits = none → k'.entries = k.entries →
      k'.desk.Owes [] [] ∧ Steady p k.desk k'.desk → k.Settles e k' := by
    intro e he hE hD
    refine ⟨hD.1, fun q hq => ?_, .inr ⟨p, hD.2, .inl ?_⟩⟩
    · rw [he] at hq
      cases hq
    · rw [hE]
      exact hact
  cases c with
  | fork =>
    obtain ⟨v, hv⟩ := returns_ok h
    exact (fork_desk hO hbare hv).settles rfl
  | exec path file argv =>
    obtain ⟨v, hv⟩ := returns_ok h
    exact settles_of_eq hO (exec_remaps hv).desk fun _ he => by cases he
  | sbrk n =>
    obtain ⟨v, hv⟩ := returns_ok h
    exact settles_of_eq hO (sbrk_remaps hv).desk fun _ he => by cases he
  | threadCreate start arg =>
    obtain ⟨v, hv⟩ := returns_ok h
    exact (threadCreate_desk hO hbare hv).settles rfl
  | threadExit => exact exits_settles hO hen (e := .call p .threadExit) h rfl
  | threadJoin tid => exact (threadJoin_forgets hused h).settles hO hgone rfl
  | exit status => exact exits_settles hO hen (e := .call p (.exit status)) h rfl
  | wait addr => exact (wait_forgets hused h).settles hO hgone rfl
  | kill pid =>
    obtain ⟨-, hk'⟩ := Prod.mk.inj (Except.ok.inj h)
    exact settles_of_eq hO (hk' ▸ kill_desk k pid) fun _ he => by cases he
  | «open» ip device rd wr =>
    obtain ⟨v, hv⟩ := returns_ok h
    exact hown rfl (sysOpen_entries hact hv) (sysOpen_desk hO hv)
  | dup fd =>
    obtain ⟨v, hv⟩ := returns_ok h
    exact hown rfl (sysDup_entries hact hv) (sysDup_desk hO hv)
  | close fd =>
    obtain ⟨v, hv⟩ := returns_ok h
    exact hown rfl (sysClose_entries hact hv) (sysClose_desk hO hv)
  | pipe fdarray =>
    obtain ⟨v, hv⟩ := returns_ok h
    exact hown rfl (sysPipe_entries hact hv) (sysPipe_desk hO hv)
  | chdir ip =>
    obtain ⟨v, hv⟩ := returns_ok h
    exact hown rfl (sysChdir_entries hact hv) (sysChdir_desk hO hv)

theorem step_settles (hbare : ∀ q, k.findUnused = some q → k.Bare q)
    (hgone : ∀ q, (k'.proc q).state = .unused → (k.proc q).cwd = none)
    (hen : k.enabled e = true) (h : k.step e = .ok (r, k')) : k.Settles e k' := by
  cases e with
  | schedule p => exact (resume_forgets (by simpa [enabled] using hen) h).settles hO hgone rfl
  | yield p =>
    cases h
    exact settles_of_eq hO (desk_modify fun _ => ⟨rfl, rfl⟩) fun _ he => by cases he
  | call p c => exact syscall_settles hO hbare hgone hen h
  | block p n =>
    cases h
    exact settles_of_eq hO (desk_modify fun _ => ⟨rfl, rfl⟩) fun _ he => by cases he
  | unblock n =>
    cases h
    exact settles_of_eq hO (desk_wakeup _ _ _) fun _ he => by cases he
  | fault p =>
    cases h
    exact settles_of_eq hO (desk_modify fun _ => ⟨rfl, rfl⟩) fun _ he => by cases he
  | die p => exact exits_settles hO hen h rfl

end

theorem bare_of_desk (hfiles : ∀ fd, k'.desk.ofile (q, fd) = k.desk.ofile (q, fd))
    (hcwd : k'.desk.cwd q = k.desk.cwd q) (h : k.Bare q) : k'.Bare q :=
  ⟨fun fd => (hfiles fd).trans (h.1 fd), hcwd.trans h.2⟩

/-- Slots other than the one that changes its handles keep theirs. -/
theorem Settles.bare_kept (h : k.Settles e k') (hb : k.Bare q) (hq : (k'.entries q).phase ≠ .active) :
    k'.Bare q := by
  rcases h.steady with hd | ⟨p, hS, hp⟩
  · exact bare_of_desk (fun fd => by rw [hd]) (by rw [hd]) hb
  · by_cases hqp : q = p
    · subst hqp
      rcases hp with hact | ⟨he, hth⟩
      · exact absurd hact hq
      · exact h.bare q he hth
    · exact bare_of_desk (hS.ofile q hqp) (hS.cwd q hqp) hb

theorem Settles.silent_kept (h : k.Settles e k') (hs : k.Silent q) (hq : (k'.entries q).phase ≠ .active) :
    k'.Silent q := by
  rcases h.steady with hd | ⟨p, hS, hp⟩
  · intro fd f hf
    have hf' : k.desk.ofile (q, fd) = some f := by rw [← hd]; exact hf
    have hft : k'.ftable = k.ftable := congrArg Desk.ftable hd
    rw [hft]
    exact hs fd f hf'
  · by_cases hqp : q = p
    · subst hqp
      rcases hp with hact | ⟨he, hth⟩
      · exact absurd hact hq
      · intro fd f hf
        rw [(h.bare q he hth).1 fd] at hf
        cases hf
    · intro fd f hf
      have hf' : k.desk.ofile (q, fd) = some f := by rw [← hS.ofile q hqp]; exact hf
      exact (hS.writeEnd q hqp fd f hf').trans (hs fd f hf')

theorem Accounted.step (h : k.Accounted) (hen : k.enabled e = true) (hG : k.Balances e)
    (hstep : k.step e = .ok (r, k')) : k'.Accounted := by
  have hm := step_move h.grouped hen hstep
  have hkin := fun q => hm.kin q
  have hsettles : k.Settles e k' := by
    refine step_settles h.owes (fun q hfind => h.bare q (.inl (findUnused_phase hfind))) (fun q hu => ?_) hen hstep
    have hph : (k'.entries q).phase = .unused := congrArg ProcState.phase hu
    rcases h.bare_of_spent hen hG (hkin q) (.inl hph) with hb | ⟨hz, -⟩
    · exact hb.2
    · rw [hph] at hz
      cases hz
  refine ⟨hm.wellGrouped h.grouped, hsettles.owes, fun q hq => ?_, fun q hq => ?_⟩
  · rcases h.bare_of_spent hen hG (hkin q) hq with hb | ⟨-, he, hth⟩
    · exact hsettles.bare_kept hb fun hact => not_spent_of_active hact hq
    · exact hsettles.bare q he hth
  · have hnot : (k'.entries q).phase ≠ .active := by
      rcases hq with hq | hq <;> rw [hq] <;> nofun
    have hkeep : (k'.entries q).phase = (k.entries q).phase → k'.Silent q := by
      intro hph
      exact hsettles.silent_kept (h.silent q (hph ▸ hq)) hnot
    have hother : (k'.entries q).phase = .unused ∨ (k'.entries q).phase = .used → k'.Silent q := by
      intro hph
      rcases hq with hq | hq <;> rw [hq] at hph <;> simp at hph
    cases hkin q with
    | kept hph => exact hkeep hph
    | exited he _ _ _ hids =>
      cases hth : (k.proc q).isThread with
      | true => exact hsettles.silent_kept (hG.leave q he hth) hnot
      | false =>
        intro fd f hf
        rw [(hsettles.bare q he hth).1 fd] at hf
        cases hf
    | adopted _ _ _ _ _ _ _ hph => exact hkeep hph
    | reaped _ _ hz => exact hsettles.silent_kept (h.silent q (.inl hz)) hnot
    | freed _ hph => exact hother (.inl hph)
    | forked _ _ _ _ hph => exact absurd hph hnot
    | created _ _ _ _ _ _ hph => exact absurd hph hnot
    | failed _ hph => exact hother (.inl hph)
    | stranded _ _ _ _ _ hph => exact hother (.inr hph)

end Kernel

/-! ## The first state -/

open Desk Weight

theorem Boot.procinit_owes (b : Boot) : b.procinit.desk.Owes [] [] where
  files f := by simp [Boot.procinit, Kernel.desk, Proc.zero, tally]
  inodes ip := by simp [Boot.procinit, Kernel.desk, Proc.zero, tally, File.inode]
  idle f _ := rfl
  writers pg := Nat.zero_le _
  order := List.Pairwise.nil

theorem Boot.main_accounted (h : b.main = .ok k) : k.Accounted := by
  have hgrouped := Boot.main_wellGrouped h
  obtain ⟨p, hzero, -, hp⟩ := Boot.main_entries h
  have hact : (k.entries p).phase = .active := by rw [hp]
  have howes : k.desk.Owes [] [] := by
    unfold Boot.main Kernel.userinit at h
    obtain ⟨⟨o, k₁⟩, halloc, h⟩ := Except.bind_ok_iff.1 h
    split at h
    · cases h
    rename_i np k₁' heq
    cases heq
    have hd₁ := Kernel.allocproc_some_desk halloc
    split at h
    · split at h
      · cases h
      · obtain ⟨⟨c, m', pt'⟩, -, h⟩ := Except.bind_ok_iff.1 h
        cases h
        obtain ⟨hO, -⟩ := (b.procinit_owes.idup b.root).enter (p := np) rfl
        rw [Kernel.desk_modify_cwd, (Kernel.desk_addRef _ _).1]
        · rw [← hd₁] at hO
          exact hO
        · exact fun _ => ⟨rfl, rfl⟩
    · cases h
  -- every other slot is zero
  have hother : ∀ q, (k.entries q).phase ≠ .active → k.proc q = .zero :=
    fun q hq => hzero q fun heq => hq (heq ▸ hact)
  refine ⟨hgrouped, howes, fun q hq => ?_, fun q hq => ?_⟩
  · rw [Kernel.Bare, hother q fun hact' => Kernel.not_spent_of_active hact' hq]
    exact ⟨fun _ => rfl, rfl⟩
  · rw [Kernel.Silent, hother q (by rcases hq with hq | hq <;> simp [hq])]
    intro fd f hf
    cases hf

theorem accounted_of_reaches (h : (system b).Reaches Kernel.Balances k) : k.Accounted := by
  refine h.invariant (P := Kernel.Accounted) (fun k hk => Boot.main_accounted hk) ?_
  rintro k e k' hk hG ⟨hen, r, hstep⟩
  exact hk.step hen hG hstep

/-! ## Whole runs -/

namespace Kernel

/-- Descriptors of slots in use that refer to `f`. -/
def fileRefs (k : Kernel) (f : FileIx) : Nat :=
  (Finset.univ.filter fun a : Slot × Fin nofile =>
    (k.proc a.1).state ≠ .unused ∧ (k.proc a.1).ofile a.2 = some f).card

/-- Slots in use whose current directory is `ip`. -/
def cwdRefs (k : Kernel) (ip : InodeIx) : Nat :=
  (Finset.univ.filter fun q => (k.proc q).state ≠ .unused ∧ (k.proc q).cwd = some ip).card

/-- Open files at inode `ip`. -/
def openRefs (k : Kernel) (ip : InodeIx) : Nat :=
  (Finset.univ.filter fun f => (k.ftable f).ref ≠ 0 ∧ (k.ftable f).inode = some ip).card

/-- Counts and holders agree, and a pipe is open for writing only as long as
somebody who has not been reaped holds its writing end. -/
structure Tallied (k : Kernel) : Prop where
  files : ∀ f, (k.ftable f).ref = k.fileRefs f
  inodes : ∀ ip, k.iref ip = k.cwdRefs ip + k.openRefs ip
  writers : ∀ pi ∈ k.pipes, (∀ q, k.Writes q pi.page → ¬ k.Unreaped q) → pi.writeopen = false

theorem Accounted.fileRefs_eq (h : k.Accounted) (f : FileIx) : k.fileRefs f = tally k.desk.ofile f := by
  rw [tally_eq_card, fileRefs]
  refine congrArg Finset.card (Finset.filter_congr fun a _ => ⟨fun ha => ha.2, fun ha => ⟨fun hu => ?_, ha⟩⟩)
  have hb := (h.bare a.1 (.inl (congrArg ProcState.phase hu))).1 a.2
  rw [desk_ofile, hb] at ha
  cases ha

theorem Accounted.cwdRefs_eq (h : k.Accounted) (ip : InodeIx) : k.cwdRefs ip = tally k.desk.cwd ip := by
  rw [tally_eq_card, cwdRefs]
  refine congrArg Finset.card (Finset.filter_congr fun q _ => ⟨fun hq => hq.2, fun hq => ⟨fun hu => ?_, hq⟩⟩)
  rw [desk_cwd, (h.bare q (.inl (congrArg ProcState.phase hu))).2] at hq
  cases hq

theorem Accounted.openRefs_eq (h : k.Accounted) (ip : InodeIx) :
    k.openRefs ip = tally (fun f => (k.desk.ftable f).inode) ip := by
  rw [tally_eq_card, openRefs]
  refine congrArg Finset.card (Finset.filter_congr fun f _ => ⟨fun hf => hf.2, fun hf => ⟨fun hr => ?_, hf⟩⟩)
  have htype : (k.ftable f).type = .none := h.owes.idle f hr
  simp [File.inode, htype] at hf

/-- Whoever keeps a pipe open for writing has not exited. -/
theorem Accounted.exists_writer (h : k.Accounted) {pi : Pipe} (hpi : pi ∈ k.pipes) (hw : pi.writeopen = true) :
    ∃ q, k.Writes q pi.page ∧ (k.entries q).phase = .active := by
  have hopen : 0 < k.desk.openWriters pi.page := List.countP_pos_iff.2 ⟨pi, hpi, by simpa using hw⟩
  obtain ⟨f, hf⟩ := exists_of_tally_pos (Nat.lt_of_lt_of_le hopen (h.owes.writers pi.page))
  have hend : (k.ftable f).type = .pipe pi.page ∧ (k.ftable f).writable = true := by
    rw [desk_ftable, File.writeEnd] at hf
    split at hf
    · rename_i pg htype
      split at hf
      · rename_i hwr
        exact ⟨htype.trans (congrArg FileType.pipe (Option.some.inj hf)), hwr⟩
      · cases hf
    · cases hf
  -- a file with a type is referred to by somebody
  have href : (k.ftable f).ref ≠ 0 := fun hr => by
    have htype := h.owes.idle f hr
    rw [desk_ftable, hend.1] at htype
    cases htype
  have hpos : 0 < tally k.desk.ofile f := by
    have hfiles := h.owes.files f
    simp only [desk_ftable, List.count_nil] at hfiles
    omega
  obtain ⟨⟨q, fd⟩, hq⟩ := exists_of_tally_pos hpos
  refine ⟨q, ⟨fd, f, hq, hend⟩, ?_⟩
  have hbare : ¬ (k.entries q).Spent := fun hs => by
    rw [desk_ofile, (h.bare q hs).1 fd] at hq
    cases hq
  have hsilent : ¬ ((k.entries q).phase = .zombie ∨ (k.entries q).phase = .ghost) := fun hs => by
    have hnone := h.silent q hs fd f hq
    rw [desk_ftable, hnone] at hf
    cases hf
  simp only [Entry.Spent] at hbare
  cases hph : (k.entries q).phase <;> simp_all

theorem Accounted.tallied (h : k.Accounted) : k.Tallied where
  files f := by
    have hf := h.owes.files f
    rw [List.count_nil, Nat.cast_zero, add_zero] at hf
    rw [h.fileRefs_eq f]
    exact hf
  inodes ip := by
    have hi := h.owes.inodes ip
    rw [List.count_nil, Nat.cast_zero, add_zero] at hi
    rw [h.cwdRefs_eq ip, h.openRefs_eq ip]
    exact hi
  writers pi hpi hnone := by
    refine Bool.eq_false_iff.2 fun hw => ?_
    obtain ⟨q, hq, hact⟩ := h.exists_writer hpi hw
    have hstate : (k.proc q).state.phase = .active := hact
    refine hnone q hq ⟨fun hg => ?_, fun hu => ?_⟩
    · rw [hg] at hstate
      cases hstate
    · rw [hu] at hstate
      cases hstate

end Kernel

/-- In every state of a run in which no thread exits with the writing end of a
pipe, and no leader is reaped whose threads have handles left. -/
theorem tallied_of_reaches (h : (system b).Reaches Kernel.Balances k) : k.Tallied :=
  (accounted_of_reaches h).tallied

/-- A child and its thread use a pipe and exit; the reading end stays with the
first process and with the exited thread. -/
theorem tallied_of_pipe : ∃ k, (system .standard).Reaches Kernel.Balances k ∧
    (k.pipes.map fun pi => (pi.readopen, pi.writeopen)) = [(true, false)] ∧
    (k.ftable ⟨0, by decide⟩).ref = 2 ∧ k.Tallied := by
  have hrun : (Boot.standard.run Kernel.Balances
      [.schedule ⟨0, by decide⟩, .call ⟨0, by decide⟩ (.pipe 0), .call ⟨0, by decide⟩ .fork,
        .call ⟨0, by decide⟩ (.close 1), .schedule ⟨1, by decide⟩,
        .call ⟨1, by decide⟩ (.threadCreate 0 0), .schedule ⟨2, by decide⟩,
        .call ⟨2, by decide⟩ (.close 1), .call ⟨2, by decide⟩ .threadExit,
        .call ⟨1, by decide⟩ (.exit 0)]).any
      (fun k => (k.pipes.map fun pi => (pi.readopen, pi.writeopen)) = [(true, false)] ∧
        (k.ftable ⟨0, by decide⟩).ref = 2) = true := by decide +kernel
  obtain ⟨k, hk, hc⟩ := exists_reaches_of_run hrun
  obtain ⟨hpipes, href⟩ := of_decide_eq_true hc
  exact ⟨k, hk, hpipes, href, tallied_of_reaches hk⟩

/-- A child creates a thread, and both are gone: the directory of the thread is
still counted. -/
theorem tallied_of_group : ¬ ∀ (b : Boot) (k : Kernel), Reachable b k → k.Tallied := by
  intro h
  have hrun : (Boot.standard.run anyStep
      [.schedule ⟨0, by decide⟩, .call ⟨0, by decide⟩ .fork, .schedule ⟨1, by decide⟩,
        .call ⟨1, by decide⟩ (.threadCreate 0 0), .schedule ⟨2, by decide⟩,
        .call ⟨2, by decide⟩ .threadExit, .call ⟨1, by decide⟩ (.threadJoin 1),
        .call ⟨1, by decide⟩ (.exit 0), .call ⟨0, by decide⟩ (.wait 0)]).any
      (fun k => k.iref Boot.standard.root ≠
        (k.cwdRefs Boot.standard.root + k.openRefs Boot.standard.root : Int)) = true := by decide +kernel
  obtain ⟨k, hk, hc⟩ := exists_reaches_of_run hrun
  exact of_decide_eq_true hc ((h _ k hk).inodes _)

end Xv6
