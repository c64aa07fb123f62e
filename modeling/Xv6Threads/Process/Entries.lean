-- SUMMARY: What the bookkeeping of slots depends on, and the calls that leave it alone.
import Mathlib.Logic.Function.Basic
import Xv6Threads.System.Step
import Xv6Threads.Process.Remaps

/-!
# Entries

The view of a slot that groups, parents, kills and reuse depend on. It forgets
the memory of a process, whether a live process is running, ready or asleep,
and the files of a process that still has a use for them. Most calls leave
every entry as it is; `Moves` describes the others.
-/

namespace Xv6

/-- How far a slot is in its life. -/
inductive Phase where
  | unused | used | active | zombie | ghost
  deriving DecidableEq, Repr

def ProcState.phase : ProcState → Phase
  | .unused => .unused
  | .used => .used
  | .sleeping => .active
  | .runnable => .active
  | .running => .active
  | .zombie => .zombie
  | .ghost => .ghost

theorem ProcState.phase_zombie {s : ProcState} : s.phase = .zombie ↔ s = .zombie := by
  cases s <;> simp [ProcState.phase]

theorem ProcState.phase_ghost {s : ProcState} : s.phase = .ghost ↔ s = .ghost := by
  cases s <;> simp [ProcState.phase]

/-- The bookkeeping view of a slot. -/
structure Entry where
  phase : Phase
  killed : Bool
  pid : Int
  parent : Option Slot
  isThread : Bool
  tid : Int
  groupLeader : Option Slot
  groupNext : Option Slot
  groupPrev : Option Slot
  numChildren : Int
  refCount : Int
  /-- kept for slots that are not in use -/
  chan : Option Chan
  /-- kept for slots that are not in use and for exited processes -/
  ofile : Fin nofile → Option FileIx
  /-- kept for slots that are not in use -/
  cwd : Option InodeIx

/-- All slots, by their entries. -/
abbrev Entries := Slot → Entry

/-- A slot whose open files are still to be looked at after its last run. -/
def Proc.KeepsFiles (pr : Proc) : Prop :=
  pr.state = .unused ∨ (pr.state = .zombie ∧ pr.isThread = false)

instance (pr : Proc) : Decidable pr.KeepsFiles := inferInstanceAs (Decidable (_ ∨ _))

def Proc.entry (pr : Proc) : Entry where
  phase := pr.state.phase
  killed := pr.killed
  pid := pr.pid
  parent := pr.parent
  isThread := pr.isThread
  tid := pr.tid
  groupLeader := pr.groupLeader
  groupNext := pr.groupNext
  groupPrev := pr.groupPrev
  numChildren := pr.numChildren
  refCount := pr.refCount
  chan := if pr.state = .unused then pr.chan else none
  ofile := if pr.KeepsFiles then pr.ofile else fun _ => none
  cwd := if pr.state = .unused then pr.cwd else none

/-- Two states of one live process have the same entry, whatever it sleeps on
and whatever files it has. -/
theorem Proc.entry_congr {pr pr' : Proc} (hpr : pr.state.phase = .active)
    (hpr' : pr'.state.phase = .active) (hk : pr'.killed = pr.killed) (hpid : pr'.pid = pr.pid)
    (hparent : pr'.parent = pr.parent) (hthread : pr'.isThread = pr.isThread)
    (htid : pr'.tid = pr.tid) (hleader : pr'.groupLeader = pr.groupLeader)
    (hnext : pr'.groupNext = pr.groupNext) (hprev : pr'.groupPrev = pr.groupPrev)
    (hnum : pr'.numChildren = pr.numChildren) (href : pr'.refCount = pr.refCount) :
    pr'.entry = pr.entry := by
  have hstate : ∀ s : ProcState, s.phase = .active → s ≠ .unused ∧ s ≠ .zombie := by
    intro s; cases s <;> simp [ProcState.phase]
  have h := hstate _ hpr
  have h' := hstate _ hpr'
  simp [Proc.entry, Proc.KeepsFiles, *]

/-- The process was woken, or nothing happened to it. -/
def Proc.Woken (pr pr' : Proc) : Prop :=
  pr' = pr ∨ pr.state = .sleeping ∧ pr' = { pr with state := .runnable }

theorem Proc.Woken.trans {pr pr' pr'' : Proc} (h : pr.Woken pr') (h' : pr'.Woken pr'') :
    pr.Woken pr'' := by
  rcases h with rfl | ⟨hs, rfl⟩
  · exact h'
  · rcases h' with rfl | ⟨hs', -⟩
    · exact .inr ⟨hs, rfl⟩
    · cases hs'

theorem Proc.Woken.awake {pr pr' : Proc} (h : pr.Woken pr') (hs : pr.state ≠ .sleeping) : pr' = pr :=
  h.resolve_right fun h => hs h.1

theorem Proc.Woken.withParent {pr pr' : Proc} (h : pr.Woken pr') (o : Option Slot) :
    Proc.Woken { pr with parent := o } { pr' with parent := o } := by
  rcases h with rfl | ⟨hs, rfl⟩
  · exact .inl rfl
  · exact .inr ⟨hs, rfl⟩

theorem Proc.Woken.parent_eq {pr pr' : Proc} (h : pr.Woken pr') : pr'.parent = pr.parent := by
  rcases h with rfl | ⟨-, rfl⟩ <;> rfl

namespace Kernel

variable {k k' : Kernel} {p q : Slot}

/-- The entries of all slots. -/
def entries (k : Kernel) : Entries := fun q => (k.proc q).entry

theorem entries_modify (k : Kernel) (p : Slot) (f : Proc → Proc) :
    (k.modify p f).entries = Function.update k.entries p (f (k.proc p)).entry := by
  funext q
  by_cases h : q = p
  · subst h; simp [entries]
  · simp [entries, modify_proc_ne h, h]

theorem entries_modify_same {f : Proc → Proc} (h : (f (k.proc p)).entry = (k.proc p).entry) :
    (k.modify p f).entries = k.entries := by
  rw [entries_modify, h]
  exact Function.update_eq_self p k.entries

/-- An entry does not show the memory of its slot. -/
@[simp] theorem entries_setTable (k : Kernel) (p : Slot) (pt : PageTable) :
    (k.setTable p pt).entries = k.entries :=
  entries_modify_same rfl

/-- Nor what only the tables of files, inodes and pages hold. -/
theorem entries_of_proc (h : k'.proc = k.proc) : k'.entries = k.entries := by
  funext q; simp [entries, h]

/-! ## Sleeping and waking -/

/-- From `k` to `k'` some sleepers were woken, and no slot changed otherwise.
What happened to files and pages is left open. -/
structure Wakes (k k' : Kernel) : Prop where
  slot : ∀ q, (k.proc q).Woken (k'.proc q)
  tramp : k'.tramp = k.tramp
  nextpid : k'.nextpid = k.nextpid
  initproc : k'.initproc = k.initproc

theorem Wakes.refl (k : Kernel) : k.Wakes k := ⟨fun _ => .inl rfl, rfl, rfl, rfl⟩

theorem Wakes.eq (h : k.Wakes k') (q : Slot) :
    k'.proc q = { k.proc q with state := (k'.proc q).state } := by
  rcases h.slot q with hq | ⟨-, hq⟩ <;> rw [hq]

theorem Wakes.awake (h : k.Wakes k') (hq : (k.proc q).state ≠ .sleeping) : k'.proc q = k.proc q :=
  (h.slot q).resolve_right fun hs => hq hs.1

theorem Wakes.entries_eq (h : k.Wakes k') : k'.entries = k.entries := by
  funext q
  simp only [entries]
  rcases h.slot q with hq | ⟨hs, hq⟩
  · rw [hq]
  · rw [hq]
    exact Proc.entry_congr (by simp [hs, ProcState.phase]) rfl rfl rfl rfl rfl rfl rfl rfl rfl rfl rfl

theorem wakes_wakeup (k : Kernel) (me : Option Slot) (chan : Chan) : k.Wakes (k.wakeup me chan) := by
  refine ⟨fun q => ?_, rfl, rfl, rfl⟩
  simp only [wakeup]
  split
  · rename_i h
    exact .inr ⟨h.2.1, rfl⟩
  · exact .inl rfl

theorem wakes_wakeParent (k : Kernel) (p : Slot) : k.Wakes (k.wakeParent p) := by
  unfold wakeParent
  split
  · exact .refl k
  · exact wakes_wakeup _ _ _

@[simp] theorem entries_wakeup (k : Kernel) (me : Option Slot) (chan : Chan) :
    (k.wakeup me chan).entries = k.entries :=
  (wakes_wakeup k me chan).entries_eq

theorem entries_sleep (hp : (k.proc p).state.phase = .active) (chan : Chan) (at_ : Resume) :
    (k.sleep p chan at_).entries = k.entries :=
  entries_modify_same (Proc.entry_congr hp rfl rfl rfl rfl rfl rfl rfl rfl rfl rfl rfl)

/-! ## Files -/

theorem filedup_proc {f : FileIx} (h : k.filedup f = .ok k') : k'.proc = k.proc := by
  unfold filedup at h
  split at h
  · cases h
  · cases h; rfl

theorem pipeclose_wakes {me : Slot} {pg : Ppn} {w : Bool} (h : k.pipeclose me pg w = .ok k') :
    k.Wakes k' := by
  have hw := wakes_wakeup k (some me) (if w then .pipeRead pg else .pipeWrite pg)
  simp only [pipeclose] at h
  split at h
  · cases h
    exact hw
  · split at h
    · obtain ⟨m, -, h⟩ := Except.bind_ok_iff.1 h
      cases h
      exact ⟨hw.slot, hw.tramp, hw.nextpid, hw.initproc⟩
    · cases h
      exact ⟨hw.slot, hw.tramp, hw.nextpid, hw.initproc⟩

theorem fileclose_wakes {me : Slot} {f : FileIx} (h : k.fileclose me f = .ok k') : k.Wakes k' := by
  simp only [fileclose] at h
  split at h
  · cases h
  · split at h
    · cases h
      exact ⟨fun _ => .inl rfl, rfl, rfl, rfl⟩
    · split at h
      · have hw := pipeclose_wakes h
        exact ⟨hw.slot, hw.tramp, hw.nextpid, hw.initproc⟩
      all_goals
        cases h
        exact ⟨fun _ => .inl rfl, rfl, rfl, rfl⟩

theorem fileclose_entries {me : Slot} {f : FileIx} (h : k.fileclose me f = .ok k') :
    k'.entries = k.entries :=
  (fileclose_wakes h).entries_eq

theorem entries_setFiles (files : Proc → Fin nofile → Option FileIx)
    (hp : (k.proc p).state.phase = .active) :
    (k.modify p fun pr => { pr with ofile := files pr }).entries = k.entries :=
  entries_modify_same (Proc.entry_congr hp hp rfl rfl rfl rfl rfl rfl rfl rfl rfl rfl)

theorem fdalloc_entries {f : FileIx} {fd : Option (Fin nofile)} (hp : (k.proc p).state.phase = .active)
    (h : k.fdalloc p f = (fd, k')) : k'.entries = k.entries := by
  unfold fdalloc at h
  split at h
  · cases h; rfl
  · rename_i i _
    cases h
    exact entries_setFiles (fun pr j => if j = i then some f else pr.ofile j) hp

theorem filealloc_proc {f : Option FileIx} (h : k.filealloc = (f, k')) : k'.proc = k.proc := by
  unfold filealloc at h
  split at h <;> (cases h; rfl)

theorem phase_of_entries (h : k'.entries = k.entries) (q : Slot) :
    (k'.proc q).state.phase = (k.proc q).state.phase :=
  congrArg Entry.phase (congrFun h q)

theorem clearFd_entries {fd : Fin nofile} (hp : (k.proc p).state.phase = .active) :
    (k.clearFd p fd).entries = k.entries :=
  entries_setFiles (fun pr i => if i = fd then none else pr.ofile i) hp

/-! ## Descriptor calls -/

theorem sysOpen_entries {ip : InodeIx} {device r w : Bool} {v : Int}
    (hp : (k.proc p).state.phase = .active) (h : k.sysOpen p ip device r w = .ok (v, k')) :
    k'.entries = k.entries := by
  simp only [sysOpen] at h
  split at h
  · rename_i k₁ halloc
    cases h
    exact (entries_of_proc (filealloc_proc halloc)).trans rfl
  · rename_i f k₁ halloc
    have h₁ : k₁.entries = k.entries := (entries_of_proc (filealloc_proc halloc)).trans rfl
    have hp₁ : (k₁.proc p).state.phase = .active := (phase_of_entries h₁ p).trans hp
    split at h
    · rename_i k₂ hfd
      obtain ⟨k₃, hclose, h⟩ := Except.bind_ok_iff.1 h
      cases h
      exact (fileclose_entries hclose).trans ((fdalloc_entries hp₁ hfd).trans h₁)
    · rename_i fd k₂ hfd
      cases h
      exact (fdalloc_entries hp₁ hfd).trans h₁

theorem sysDup_entries {fd v : Int} (hp : (k.proc p).state.phase = .active)
    (h : k.sysDup p fd = .ok (v, k')) : k'.entries = k.entries := by
  unfold sysDup at h
  split at h
  · cases h; rfl
  · split at h
    · rename_i k₁ hfd
      cases h
      exact fdalloc_entries hp hfd
    · rename_i fd' k₁ hfd
      obtain ⟨k₂, hdup, h⟩ := Except.bind_ok_iff.1 h
      cases h
      exact (entries_of_proc (filedup_proc hdup)).trans (fdalloc_entries hp hfd)

theorem sysClose_entries {fd v : Int} (hp : (k.proc p).state.phase = .active)
    (h : k.sysClose p fd = .ok (v, k')) : k'.entries = k.entries := by
  unfold sysClose at h
  split at h
  · cases h; rfl
  · obtain ⟨k₁, hclose, h⟩ := Except.bind_ok_iff.1 h
    cases h
    exact (fileclose_entries hclose).trans (clearFd_entries hp)

theorem pipealloc_entries {fs : Option (FileIx × FileIx)} (h : k.pipealloc p = .ok (fs, k')) :
    k'.entries = k.entries := by
  unfold pipealloc at h
  split at h
  · rename_i k₁ h₁
    cases h
    exact entries_of_proc (filealloc_proc h₁)
  rename_i f₀ k₁ h₁
  have he₁ : k₁.entries = k.entries := entries_of_proc (filealloc_proc h₁)
  split at h
  · rename_i k₂ h₂
    obtain ⟨k₃, hclose, h⟩ := Except.bind_ok_iff.1 h
    cases h
    exact (fileclose_entries hclose).trans ((entries_of_proc (filealloc_proc h₂)).trans he₁)
  rename_i f₁ k₂ h₂
  have he₂ : k₂.entries = k.entries := (entries_of_proc (filealloc_proc h₂)).trans he₁
  split at h
  · obtain ⟨k₃, hclose, h⟩ := Except.bind_ok_iff.1 h
    obtain ⟨k₄, hclose', h⟩ := Except.bind_ok_iff.1 h
    cases h
    exact (fileclose_entries hclose').trans ((fileclose_entries hclose).trans he₂)
  · cases h
    exact he₂

theorem undoPipe_entries {rf wf : FileIx} {v : Int} (h : k.undoPipe p rf wf = .ok (v, k')) :
    k'.entries = k.entries := by
  obtain ⟨k₁, hclose, h⟩ := Except.bind_ok_iff.1 h
  obtain ⟨k₂, hclose', h⟩ := Except.bind_ok_iff.1 h
  cases h
  exact (fileclose_entries hclose').trans (fileclose_entries hclose)

theorem sysPipe_entries {addr : Nat} {v : Int} (hp : (k.proc p).state.phase = .active)
    (h : k.sysPipe p addr = .ok (v, k')) : k'.entries = k.entries := by
  unfold sysPipe at h
  obtain ⟨⟨fs, k₁⟩, halloc, h⟩ := Except.bind_ok_iff.1 h
  have he₁ : k₁.entries = k.entries := pipealloc_entries halloc
  split at h
  · rename_i heq
    cases heq
    cases h
    exact he₁
  rename_i rf wf k₁' heq
  cases heq
  have hp₁ : (k₁.proc p).state.phase = .active := (phase_of_entries he₁ p).trans hp
  split at h
  · rename_i k₂ hfd
    exact (undoPipe_entries h).trans ((fdalloc_entries hp₁ hfd).trans he₁)
  rename_i fd₀ k₂ hfd
  have he₂ : k₂.entries = k.entries := (fdalloc_entries hp₁ hfd).trans he₁
  have hp₂ : (k₂.proc p).state.phase = .active := (phase_of_entries he₂ p).trans hp
  split at h
  · rename_i k₃ hfd'
    have he₃ : k₃.entries = k.entries := (fdalloc_entries hp₂ hfd').trans he₂
    have hp₃ : (k₃.proc p).state.phase = .active := (phase_of_entries he₃ p).trans hp
    exact (undoPipe_entries h).trans ((clearFd_entries hp₃).trans he₃)
  rename_i fd₁ k₃ hfd'
  have he₃ : k₃.entries = k.entries := (fdalloc_entries hp₂ hfd').trans he₂
  have hp₃ : (k₃.proc p).state.phase = .active := (phase_of_entries he₃ p).trans hp
  split at h
  · cases h
  split at h
  · cases h
    exact he₃
  · rename_i m _
    have hc : ({ k₃ with mem := m }.clearFd p fd₀).entries = k₃.entries :=
      (clearFd_entries hp₃).trans rfl
    have hpc := (phase_of_entries hc p).trans hp₃
    exact (undoPipe_entries h).trans ((clearFd_entries hpc).trans (hc.trans he₃))

theorem sysChdir_entries {ip : InodeIx} {v : Int} (hp : (k.proc p).state.phase = .active)
    (h : k.sysChdir p ip = .ok (v, k')) : k'.entries = k.entries := by
  unfold sysChdir at h
  split at h
  · cases h
  · rename_i old _
    cases h
    have hidup : ((k.idup ip).iput old).entries = k.entries := rfl
    rw [← hidup]
    exact entries_modify_same (Proc.entry_congr hp hp rfl rfl rfl rfl rfl rfl rfl rfl rfl rfl)

/-! ## Memory calls -/

theorem Remaps.entries (h : k.Remaps k') : k'.entries = k.entries := by
  funext q
  obtain ⟨pt, sz, tf, name, hq⟩ := h.slot q
  rw [Kernel.entries, hq]
  rfl

/-! ## Closing all files -/

private theorem closeFiles_loop {l : List (Fin nofile)} (hp : (k.proc p).state ≠ .sleeping)
    (h : l.foldlM (closeFd p) k = .ok k') :
    ∃ k₁ files, k.Wakes k₁ ∧ k' = k₁.modify p (fun pr => { pr with ofile := files }) ∧
      (∀ fd ∈ l, files fd = none) ∧ ∀ fd, (k.proc p).ofile fd = none → files fd = none := by
  induction l generalizing k with
  | nil =>
    rw [List.foldlM_nil, Except.pure_ok_iff] at h
    subst h
    refine ⟨k, (k.proc p).ofile, .refl k, ?_, by simp, fun _ h => h⟩
    rw [modify_eq_update, Function.update_eq_self]
  | cons fd l ih =>
    rw [List.foldlM_cons] at h
    obtain ⟨k₀, hbody, h⟩ := Except.bind_ok_iff.1 h
    unfold closeFd at hbody
    split at hbody
    · rename_i hnone
      cases hbody
      obtain ⟨k₁, files, hw, hk', hl, hkeep⟩ := ih hp h
      refine ⟨k₁, files, hw, hk', fun fd' hfd => ?_, hkeep⟩
      rcases List.mem_cons.1 hfd with rfl | hfd
      · exact hkeep _ hnone
      · exact hl fd' hfd
    · rename_i f hf
      obtain ⟨k₂, hclose, hbody⟩ := Except.bind_ok_iff.1 hbody
      cases hbody
      have hw₂ := fileclose_wakes hclose
      have hp₂ : k₂.proc p = k.proc p := hw₂.awake hp
      obtain ⟨k₁, files, hw, hk', hl, hkeep⟩ := ih (by simpa [hp₂] using hp) h
      -- the descriptor cleared here commutes with the wake-ups that follow
      have hp₁ := hw.awake (q := p) (by simpa [hp₂] using hp)
      refine ⟨{ k₁ with proc := Function.update k₁.proc p (k.proc p) }, files, ?_, ?_, ?_, ?_⟩
      · refine ⟨fun q => ?_, hw.tramp.trans hw₂.tramp, hw.nextpid.trans hw₂.nextpid,
          hw.initproc.trans hw₂.initproc⟩
        by_cases hq : q = p
        · subst hq; exact .inl (by simp)
        · have := hw.slot q
          rw [modify_proc_ne hq] at this
          simp only [Function.update_of_ne hq]
          rcases this with hs | ⟨hs, he⟩
          · rw [hs]
            exact hw₂.slot q
          · rcases hw₂.slot q with hq₂ | ⟨hs₂, hq₂⟩
            · exact .inr ⟨hq₂ ▸ hs, by rw [he, hq₂]⟩
            · rw [hq₂] at hs; cases hs
      · rw [hk']
        simp [modify_eq_update, hp₁, hp₂]
      · intro fd' hfd
        rcases List.mem_cons.1 hfd with rfl | hfd
        · exact hkeep _ (by simp)
        · exact hl fd' hfd
      · intro fd' hfd
        exact hkeep _ (by simp [hp₂, hfd])

/-- Closing all files of `p` wakes sleepers and empties the descriptors of `p`. -/
theorem closeFiles_ok (hp : (k.proc p).state ≠ .sleeping) (h : k.closeFiles p = .ok k') :
    ∃ k₁, k.Wakes k₁ ∧ k' = k₁.modify p (fun pr => { pr with ofile := fun _ => none }) := by
  obtain ⟨k₁, files, hw, hk', hl, -⟩ := closeFiles_loop hp h
  have hfiles : files = fun _ => none := funext fun fd => hl fd (List.mem_finRange fd)
  exact ⟨k₁, hw, hfiles ▸ hk'⟩

/-! ## Exit

What `exit` leaves in the slots, apart from the sleepers it wakes. -/

/-- The slots after process `p` has exited. -/
def exited (k : Kernel) (p : Slot) (status : Int) : Slot → Proc := fun q =>
  let pr := { k.proc q with
    parent := if (k.proc q).parent = some p then some k.initproc else (k.proc q).parent }
  if q = p then
    { pr with
      ofile := fun _ => none
      cwd := none
      pagetable := none
      sz := if pr.pagetable.isSome then 0 else pr.sz
      xstate := status
      state := .zombie }
  else pr

theorem dropCwd_proc (k : Kernel) (p : Slot) :
    (k.dropCwd p).proc = (k.modify p fun pr => { pr with cwd := none }).proc := by
  unfold dropCwd
  split
  · rename_i hnone
    funext q
    by_cases hq : q = p
    · subst hq
      simp only [modify_proc_same]
      rw [← hnone]
    · rw [modify_proc_ne hq]
  · rfl

theorem dropCwd_frame (k : Kernel) (p : Slot) : (k.dropCwd p).mem = k.mem ∧
    (k.dropCwd p).pipes = k.pipes ∧ (k.dropCwd p).tramp = k.tramp ∧
    (k.dropCwd p).nextpid = k.nextpid ∧ (k.dropCwd p).initproc = k.initproc := by
  unfold dropCwd
  split <;> exact ⟨rfl, rfl, rfl, rfl, rfl⟩

theorem reparent_frame (k : Kernel) (p : Slot) :
    (k.reparent p).mem = k.mem ∧ (k.reparent p).pipes = k.pipes := by
  unfold reparent
  dsimp only
  split <;> exact ⟨rfl, rfl⟩

theorem wakeParent_frame (k : Kernel) (p : Slot) :
    (k.wakeParent p).mem = k.mem ∧ (k.wakeParent p).pipes = k.pipes := by
  unfold wakeParent
  split <;> exact ⟨rfl, rfl⟩

/-- `reparent` changes parents and wakes. -/
theorem wakes_reparent (k : Kernel) (p : Slot) :
    Wakes { k with proc := fun q =>
      { k.proc q with
        parent := if (k.proc q).parent = some p then some k.initproc else (k.proc q).parent } }
      (k.reparent p) := by
  have hmap : (fun q => if (k.proc q).parent = some p then { k.proc q with parent := some k.initproc }
      else k.proc q) = fun q => { k.proc q with
        parent := if (k.proc q).parent = some p then some k.initproc else (k.proc q).parent } := by
    funext q
    split <;> rfl
  unfold reparent
  rw [hmap]
  dsimp only
  split
  · exact wakes_wakeup _ _ _
  · exact .refl _

theorem dropTable_ok (h : k.dropTable p = .ok k') :
    k'.proc = (k.modify p fun pr =>
      { pr with pagetable := none, sz := if pr.pagetable.isSome then 0 else pr.sz }).proc ∧
    k'.tramp = k.tramp ∧ k'.nextpid = k.nextpid ∧ k'.initproc = k.initproc ∧ k'.pipes = k.pipes ∧
    (((k.proc p).pagetable = none ∧ k'.mem = k.mem) ∨
      ∃ pt, (k.proc p).pagetable = some pt ∧
        procFreepagetable k.mem pt (k.proc p).sz = .ok k'.mem) := by
  unfold dropTable at h
  split at h
  · rename_i hnone
    cases h
    refine ⟨?_, rfl, rfl, rfl, rfl, .inl ⟨hnone, rfl⟩⟩
    funext q
    by_cases hq : q = p
    · subst hq
      simp [hnone]
      rw [← hnone]
    · rw [modify_proc_ne hq]
  · rename_i pt hpt
    obtain ⟨m, hm, h⟩ := Except.bind_ok_iff.1 h
    cases h
    refine ⟨?_, rfl, rfl, rfl, rfl, .inr ⟨pt, hpt, hm⟩⟩
    funext q
    by_cases hq : q = p
    · subst hq; simp [hpt]
    · simp [modify_proc_ne hq]

/-- `exit` closes the files of `p`, frees its table and marks it, and changes
no other slot beyond handing over children and waking sleepers. -/
theorem exitProcess_ok {status : Int} (hp : (k.proc p).state ≠ .sleeping)
    (h : k.exitProcess p status = .ok k') :
    Wakes { k with proc := k.exited p status } k' ∧
    ∃ k₁, k.closeFiles p = .ok k₁ ∧ k'.pipes = k₁.pipes ∧
      (((k.proc p).pagetable = none ∧ k'.mem = k₁.mem) ∨
        ∃ pt, (k.proc p).pagetable = some pt ∧
          procFreepagetable k₁.mem pt (k.proc p).sz = .ok k'.mem) := by
  obtain ⟨k₁, hclose, h⟩ := Except.bind_ok_iff.1 h
  obtain ⟨k₂, htable, h⟩ := Except.bind_ok_iff.1 h
  cases h
  obtain ⟨k₀, hw₀, rfl⟩ := closeFiles_ok hp hclose
  have hp₀ : k₀.proc p = k.proc p := hw₀.awake hp
  generalize hk₁ : (k₀.modify p fun pr => { pr with ofile := fun _ => none }) = k₁ at htable hclose ⊢
  have hk₁p : k₁.proc p = { k.proc p with ofile := fun _ => none } := by simp [← hk₁, hp₀]
  have hk₁q : ∀ q, q ≠ p → (k.proc q).Woken (k₁.proc q) := by
    intro q hq
    rw [← hk₁, modify_proc_ne hq]
    exact hw₀.slot q
  have hinit : k₁.initproc = k.initproc := by rw [← hk₁]; exact hw₀.initproc
  obtain ⟨hcmem, hcpipes, hctramp, hcpid, hcinit⟩ := dropCwd_frame k₁ p
  have hcproc := dropCwd_proc k₁ p
  generalize k₁.dropCwd p = kc at hcmem hcpipes hctramp hcpid hcinit hcproc htable
  obtain ⟨hrmem, hrpipes⟩ := reparent_frame kc p
  have hrw := wakes_reparent kc p
  generalize kc.reparent p = kr at hrmem hrpipes hrw htable
  have hkcp : kc.proc p = { k.proc p with ofile := fun _ => none, cwd := none } := by
    rw [hcproc, modify_proc_same, hk₁p]
  have hkrp : kr.proc p = { k.proc p with
      ofile := fun _ => none
      cwd := none
      parent := if (k.proc p).parent = some p then some k.initproc else (k.proc p).parent } := by
    rw [(hrw.slot p).awake (by simpa [hkcp] using hp)]
    simp [hkcp, hcinit, hinit]
  obtain ⟨htproc, httramp, htpid, htinit, htpipes, htmem⟩ := dropTable_ok htable
  obtain ⟨hwmem, hwpipes⟩ :=
    wakeParent_frame (k₂.modify p fun pr => { pr with xstate := status, state := .zombie }) p
  have hww := wakes_wakeParent (k₂.modify p fun pr => { pr with xstate := status, state := .zombie }) p
  refine ⟨⟨fun q => ?_, ?_, ?_, ?_⟩, k₁, hclose, ?_, ?_⟩
  · refine Proc.Woken.trans ?_ (hww.slot q)
    by_cases hq : q = p
    · subst hq
      refine .inl ?_
      simp [htproc, hkrp, exited]
    · rw [modify_proc_ne hq, htproc, modify_proc_ne hq]
      refine Proc.Woken.trans ?_ (hrw.slot q)
      have hkcq : kc.proc q = k₁.proc q := by rw [hcproc, modify_proc_ne hq]
      have hpar := (hk₁q q hq).parent_eq
      simp only [exited, if_neg hq, hkcq, hpar, hcinit, hinit]
      exact (hk₁q q hq).withParent _
  · rw [hww.tramp, modify_tramp, httramp, hrw.tramp]
    exact hctramp.trans (by rw [← hk₁]; exact hw₀.tramp)
  · rw [hww.nextpid, modify_nextpid, htpid, hrw.nextpid]
    exact hcpid.trans (by rw [← hk₁]; exact hw₀.nextpid)
  · rw [hww.initproc, modify_initproc, htinit, hrw.initproc]
    exact hcinit.trans hinit
  · rw [hwpipes, modify_pipes, htpipes, hrpipes, hcpipes]
  · rw [hwmem, modify_mem]
    rcases htmem with ⟨hnone, hm⟩ | ⟨pt, hpt, hm⟩
    · refine .inl ⟨?_, by rw [hm, hrmem, hcmem]⟩
      rwa [hkrp] at hnone
    · refine .inr ⟨pt, by rwa [hkrp] at hpt, ?_⟩
      rwa [hrmem, hcmem, hkrp] at hm

end Kernel

end Xv6
