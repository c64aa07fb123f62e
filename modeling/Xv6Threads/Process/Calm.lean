-- SUMMARY: Exit statuses, sleepers and process ids: what every step leaves alone, and who changes them.
import Xv6Threads.Process.Moves

/-!
# Calm steps

A step writes the exit status of the process that exits and of no other, puts
no process to sleep but the one that makes the call, and gives out at most one
process id. `Calm` is what the parts of a call have in common; `step_treads`
collects the result for every event.
-/

namespace Xv6

/-- The exit status is kept, and a process that is asleep was asleep before. -/
structure Proc.Calm (pr pr' : Proc) : Prop where
  xstate : pr'.xstate = pr.xstate
  asleep : pr'.state = .sleeping → pr.state = .sleeping ∧ pr'.resume = pr.resume ∧ pr'.chan = pr.chan

namespace Proc.Calm

variable {pr pr' pr'' : Proc}

theorem refl (pr : Proc) : pr.Calm pr := ⟨rfl, fun h => ⟨h, rfl, rfl⟩⟩

theorem trans (h : pr.Calm pr') (h' : pr'.Calm pr'') : pr.Calm pr'' where
  xstate := h'.xstate.trans h.xstate
  asleep hs := by
    obtain ⟨hs', hr', hc'⟩ := h'.asleep hs
    obtain ⟨hs, hr, hc⟩ := h.asleep hs'
    exact ⟨hs, hr'.trans hr, hc'.trans hc⟩

theorem of_woken (h : pr.Woken pr') : pr.Calm pr' := by
  rcases h with rfl | ⟨hs, rfl⟩
  · exact .refl _
  · exact ⟨rfl, nofun⟩

end Proc.Calm

namespace Kernel

variable {k k' k'' : Kernel} {p q np L : Slot}

/-- No status is written, nobody falls asleep and no process id is given out. -/
structure Calm (k k' : Kernel) : Prop where
  slot : ∀ q, (k.proc q).Calm (k'.proc q)
  pid : ∀ q, (k'.proc q).pid = (k.proc q).pid
  initproc : k'.initproc = k.initproc
  nextpid : k'.nextpid = k.nextpid

theorem Calm.refl (k : Kernel) : k.Calm k := ⟨fun _ => .refl _, fun _ => rfl, rfl, rfl⟩

theorem Calm.trans (h : k.Calm k') (h' : k'.Calm k'') : k.Calm k'' :=
  ⟨fun q => (h.slot q).trans (h'.slot q), fun q => (h'.pid q).trans (h.pid q),
    h'.initproc.trans h.initproc, h'.nextpid.trans h.nextpid⟩

theorem Wakes.calm (h : k.Wakes k') : k.Calm k' :=
  ⟨fun q => .of_woken (h.slot q), fun q => by rw [h.eq q], h.initproc, h.nextpid⟩

theorem calm_of_proc (h : k'.proc = k.proc) (hi : k'.initproc = k.initproc)
    (hn : k'.nextpid = k.nextpid) : k.Calm k' :=
  ⟨fun q => by rw [h]; exact .refl _, fun q => by rw [h], hi, hn⟩

theorem calm_modify {f : Proc → Proc} (h : (k.proc p).Calm (f (k.proc p)))
    (hpid : (f (k.proc p)).pid = (k.proc p).pid) : k.Calm (k.modify p f) := by
  refine ⟨fun q => ?_, fun q => ?_, rfl, rfl⟩
  all_goals by_cases hq : q = p
  · subst hq
    rwa [modify_proc_same]
  · rw [modify_proc_ne hq]
    exact .refl _
  · subst hq
    rwa [modify_proc_same]
  · rw [modify_proc_ne hq]

/-- A change of fields that say nothing about sleep, status or id. -/
theorem Calm.modify_same {f : Proc → Proc} (h : k.Calm k')
    (hf : ∀ pr, (f pr).xstate = pr.xstate ∧ (f pr).state = pr.state ∧ (f pr).resume = pr.resume ∧
      (f pr).chan = pr.chan ∧ (f pr).pid = pr.pid) : k.Calm (k'.modify p f) := by
  obtain ⟨hx, hs, hr, hc, hpid⟩ := hf (k'.proc p)
  exact h.trans (calm_modify ⟨hx, fun h => ⟨hs ▸ h, hr, hc⟩⟩ hpid)

theorem calm_modify_same {f : Proc → Proc}
    (hf : ∀ pr, (f pr).xstate = pr.xstate ∧ (f pr).state = pr.state ∧ (f pr).resume = pr.resume ∧
      (f pr).chan = pr.chan ∧ (f pr).pid = pr.pid) : k.Calm (k.modify p f) :=
  (Calm.refl k).modify_same hf

theorem slots_update {f : Slot → Proc} {pr : Proc} (h : (f p).Calm pr) (q : Slot) :
    (f q).Calm (Function.update f p pr q) := by
  by_cases hq : q = p
  · subst hq
    rwa [Function.update_self]
  · rw [Function.update_of_ne hq]
    exact .refl _

theorem pids_update {f : Slot → Proc} {pr : Proc} (h : pr.pid = (f p).pid) (q : Slot) :
    (Function.update f p pr q).pid = (f q).pid := by
  by_cases hq : q = p
  · subst hq
    rwa [Function.update_self]
  · rw [Function.update_of_ne hq]

theorem calm_setMem (k : Kernel) (m : Mem) : k.Calm { k with mem := m } := calm_of_proc rfl rfl rfl

theorem calm_setTable (k : Kernel) (m : Mem) (p : Slot) (pt : PageTable) :
    k.Calm ({ k with mem := m }.setTable p pt) :=
  (calm_setMem k m).trans (calm_modify_same fun _ => ⟨rfl, rfl, rfl, rfl, rfl⟩)

/-! ## Files -/

theorem filealloc_calm {f : Option FileIx} (h : k.filealloc = (f, k')) : k.Calm k' := by
  unfold filealloc at h
  split at h <;> (cases h; exact calm_of_proc rfl rfl rfl)

theorem filedup_calm {f : FileIx} (h : k.filedup f = .ok k') : k.Calm k' := by
  obtain ⟨ft, rfl⟩ := filedup_ok h
  exact calm_of_proc rfl rfl rfl

theorem fdalloc_calm {f : FileIx} {fd : Option (Fin nofile)} (h : k.fdalloc p f = (fd, k')) :
    k.Calm k' := by
  unfold fdalloc at h
  split at h
  · cases h
    exact .refl k
  · cases h
    exact calm_modify_same fun _ => ⟨rfl, rfl, rfl, rfl, rfl⟩

theorem clearFd_calm (k : Kernel) (p : Slot) (fd : Fin nofile) : k.Calm (k.clearFd p fd) :=
  calm_modify_same fun _ => ⟨rfl, rfl, rfl, rfl, rfl⟩

theorem sysOpen_calm {ip : InodeIx} {device r w : Bool} {v : Int}
    (h : k.sysOpen p ip device r w = .ok (v, k')) : k.Calm k' := by
  have hdup : k.Calm (k.idup ip) := calm_of_proc rfl rfl rfl
  simp only [sysOpen] at h
  split at h
  · rename_i k₁ halloc
    cases h
    exact (hdup.trans (filealloc_calm halloc)).trans (calm_of_proc rfl rfl rfl)
  · rename_i f k₁ halloc
    have h₁ := hdup.trans (filealloc_calm halloc)
    split at h
    · rename_i k₂ hfd
      obtain ⟨k₃, hclose, h⟩ := Except.bind_ok_iff.1 h
      cases h
      exact ((h₁.trans (fdalloc_calm hfd)).trans (fileclose_wakes hclose).calm).trans
        (calm_of_proc rfl rfl rfl)
    · rename_i fd k₂ hfd
      cases h
      exact (h₁.trans (fdalloc_calm hfd)).trans (calm_of_proc rfl rfl rfl)

theorem sysDup_calm {fd v : Int} (h : k.sysDup p fd = .ok (v, k')) : k.Calm k' := by
  unfold sysDup at h
  split at h
  · cases h
    exact .refl k
  · split at h
    · rename_i k₁ hfd
      cases h
      exact fdalloc_calm hfd
    · rename_i fd' k₁ hfd
      obtain ⟨k₂, hdup, h⟩ := Except.bind_ok_iff.1 h
      cases h
      exact (fdalloc_calm hfd).trans (filedup_calm hdup)

theorem sysClose_calm {fd v : Int} (h : k.sysClose p fd = .ok (v, k')) : k.Calm k' := by
  unfold sysClose at h
  split at h
  · cases h
    exact .refl k
  · obtain ⟨k₁, hclose, h⟩ := Except.bind_ok_iff.1 h
    cases h
    exact (clearFd_calm _ _ _).trans (fileclose_wakes hclose).calm

theorem pipealloc_calm {fs : Option (FileIx × FileIx)} (h : k.pipealloc p = .ok (fs, k')) :
    k.Calm k' := by
  unfold pipealloc at h
  split at h
  · rename_i k₁ h₁
    cases h
    exact filealloc_calm h₁
  rename_i f₀ k₁ h₁
  have hc₁ := filealloc_calm h₁
  split at h
  · rename_i k₂ h₂
    obtain ⟨k₃, hclose, h⟩ := Except.bind_ok_iff.1 h
    cases h
    exact (hc₁.trans (filealloc_calm h₂)).trans (fileclose_wakes hclose).calm
  rename_i f₁ k₂ h₂
  have hc₂ := hc₁.trans (filealloc_calm h₂)
  split at h
  · rename_i m _
    obtain ⟨k₃, hclose, h⟩ := Except.bind_ok_iff.1 h
    obtain ⟨k₄, hclose', h⟩ := Except.bind_ok_iff.1 h
    cases h
    exact ((hc₂.trans (calm_setMem k₂ m)).trans (fileclose_wakes hclose).calm).trans
      (fileclose_wakes hclose').calm
  · cases h
    exact hc₂.trans (calm_of_proc rfl rfl rfl)

theorem undoPipe_calm {rf wf : FileIx} {v : Int} (h : k.undoPipe p rf wf = .ok (v, k')) : k.Calm k' := by
  obtain ⟨k₁, hclose, h⟩ := Except.bind_ok_iff.1 h
  obtain ⟨k₂, hclose', h⟩ := Except.bind_ok_iff.1 h
  cases h
  exact (fileclose_wakes hclose).calm.trans (fileclose_wakes hclose').calm

theorem sysPipe_calm {addr : Nat} {v : Int} (h : k.sysPipe p addr = .ok (v, k')) : k.Calm k' := by
  unfold sysPipe at h
  obtain ⟨⟨fs, k₁⟩, halloc, h⟩ := Except.bind_ok_iff.1 h
  have hc₁ := pipealloc_calm halloc
  split at h
  · rename_i heq
    cases heq
    cases h
    exact hc₁
  rename_i rf wf k₁' heq
  cases heq
  split at h
  · rename_i k₂ hfd
    exact (hc₁.trans (fdalloc_calm hfd)).trans (undoPipe_calm h)
  rename_i fd₀ k₂ hfd
  have hc₂ := hc₁.trans (fdalloc_calm hfd)
  split at h
  · rename_i k₃ hfd'
    exact ((hc₂.trans (fdalloc_calm hfd')).trans (clearFd_calm _ _ _)).trans (undoPipe_calm h)
  rename_i fd₁ k₃ hfd'
  have hc₃ := hc₂.trans (fdalloc_calm hfd')
  split at h
  · cases h
  split at h
  · cases h
    exact hc₃.trans (calm_setMem _ _)
  · rename_i m _
    exact (((hc₃.trans (calm_setMem k₃ m)).trans (clearFd_calm _ _ _)).trans (clearFd_calm _ _ _)).trans
      (undoPipe_calm h)

theorem sysChdir_calm {ip : InodeIx} {v : Int} (h : k.sysChdir p ip = .ok (v, k')) : k.Calm k' := by
  unfold sysChdir at h
  split at h
  · cases h
  · rename_i old _
    cases h
    have hrefs : k.Calm ((k.idup ip).iput old) := calm_of_proc rfl rfl rfl
    exact hrefs.trans (calm_modify_same fun _ => ⟨rfl, rfl, rfl, rfl, rfl⟩)

/-! ## Memory -/

theorem Remaps.calm (h : k.Remaps k') : k.Calm k' := by
  refine ⟨fun q => ?_, fun q => ?_, by rw [h.rest], by rw [h.rest]⟩
  all_goals
    obtain ⟨pt, sz, tf, name, hq⟩ := h.slot q
    rw [hq]
  exact ⟨rfl, fun hs => ⟨hs, rfl, rfl⟩⟩

/-! ## Taking and releasing slots -/

/-- A slot in a state in which it does not sleep, with the status it had. -/
theorem Proc.calm_of_awake {pr pr' : Proc} (hx : pr'.xstate = pr.xstate) (hs : pr'.state ≠ .sleeping) :
    pr.Calm pr' :=
  ⟨hx, fun h => absurd h hs⟩

theorem freeSelf_calm (h : k.freeSelf p = .ok k') : k.Calm k' := by
  obtain ⟨m, -, rfl⟩ := freeSelf_ok h
  have hclear : (k.proc p).Calm (k.proc p).clear := Proc.calm_of_awake rfl (by simp [Proc.clear])
  exact ⟨slots_update hclear, pids_update rfl, rfl, rfl⟩

theorem freeMember_calm (h : k.freeMember q = .ok k') : k.Calm k' := by
  obtain ⟨m, m', -, -, rfl⟩ := freeMember_ok h
  have hrelease : (k.proc q).Calm (k.proc q).release := Proc.calm_of_awake rfl (by simp [Proc.release])
  exact ⟨slots_update hrelease, pids_update rfl, rfl, rfl⟩

theorem freeMembers_calm {n : Nat} {o : Option Slot} (h : freeMembers p n o k = .ok k') : k.Calm k' := by
  induction n generalizing o k with
  | zero => cases h
  | succ n ih =>
    cases o with
    | none => cases h
    | some q =>
      rw [freeMembers] at h
      split at h
      · cases h
        exact .refl _
      · obtain ⟨k₁, hfree, h⟩ := Except.bind_ok_iff.1 h
        exact (freeMember_calm hfree).trans (ih h)

theorem dropRef_calm (k : Kernel) (L : Slot) : k.Calm (k.dropRef L) := by
  refine calm_modify ?_ ?_
  · split
    · exact ⟨rfl, fun h => ⟨h, rfl, rfl⟩⟩
    · exact .refl _
  · split <;> rfl

theorem freeproc_calm (h : k.freeproc p = .ok k') : k.Calm k' := by
  unfold freeproc at h
  split at h
  · exact freeSelf_calm h
  · rename_i L _
    have hd := dropRef_calm k L
    dsimp only at h
    split at h
    · cases h
    split at h
    · cases h
      exact hd.trans (calm_modify (Proc.calm_of_awake rfl nofun) rfl)
    · obtain ⟨k₁, hmembers, h⟩ := Except.bind_ok_iff.1 h
      exact (hd.trans (freeMembers_calm hmembers)).trans (freeSelf_calm h)

/-- Calm, but for a process id that is given out when a slot is free. -/
structure Hires (k k' : Kernel) : Prop where
  slot : ∀ q, (k.proc q).Calm (k'.proc q)
  initproc : k'.initproc = k.initproc
  nextpid : (k'.nextpid = k.nextpid ∧ ∀ q, (k'.proc q).pid = (k.proc q).pid) ∨
    k'.nextpid = (k.nextpid + 1).bmod (2 ^ 32)

theorem hires_of_none (h : k.allocproc = .ok (none, k')) : k.Hires k' := by
  rcases allocproc_none h with ⟨-, rfl⟩ | ⟨p, m, -, -, rfl⟩
  · exact ⟨fun _ => .refl _, rfl, .inl ⟨rfl, fun _ => rfl⟩⟩
  · have hclear : (k.proc p).Calm ((k.proc p).claim k.nextpid).clear :=
      Proc.calm_of_awake rfl (by simp [Proc.clear])
    exact ⟨slots_update hclear, rfl, .inr rfl⟩

/-- A slot was found, and what follows is calm. -/
theorem hires_of_some (h : k.allocproc = .ok (some np, k')) (hc : k'.Calm k'') : k.Hires k'' := by
  obtain ⟨-, tf, m, pt, m', -, -, rfl⟩ := allocproc_some h
  have hclaim : (k.proc np).Calm { (k.proc np).claim k.nextpid with
      trapframe := some ⟨tf, .junk⟩, pagetable := some pt, resume := .user } :=
    Proc.calm_of_awake rfl (by simp [Proc.claim])
  exact ⟨fun q => (slots_update hclaim q).trans (hc.slot q), hc.initproc, .inr hc.nextpid⟩

theorem fork_hires {r : Int} (h : k.fork p = .ok (r, k')) : k.Hires k' := by
  rcases fork_ok h with halloc | ⟨np, k₁, old, new, m, new', halloc, -, -, hend⟩
  · exact hires_of_none halloc
  refine hires_of_some halloc ?_
  rcases hend with ⟨-, hfree⟩ | ⟨-, ntf, regs, ft, ir, files, cwd, name, -, rfl⟩
  · exact (calm_setTable k₁ m np new').trans (freeproc_calm hfree)
  · exact ⟨slots_update (Proc.calm_of_awake rfl nofun), pids_update rfl, rfl, rfl⟩

theorem enterGroup_calm (h : k.enterGroup L np = .ok k') : k.Calm k' := by
  simp only [enterGroup] at h
  split at h
  · cases h
  cases h
  refine .modify_same (.modify_same (.modify_same (.modify_same (.refl k) ?_) ?_) ?_) ?_
  all_goals exact fun _ => ⟨rfl, rfl, rfl, rfl, rfl⟩

theorem leaveGroup_calm (h : k.leaveGroup L np = .ok k') : k.Calm k' := by
  unfold leaveGroup at h
  split at h
  · cases h
    refine .modify_same (.modify_same (.modify_same (.refl k) ?_) ?_) ?_
    all_goals exact fun _ => ⟨rfl, rfl, rfl, rfl, rfl⟩
  · cases h

theorem foundGroup_calm (k : Kernel) (p : Slot) : k.Calm (k.foundGroup p) := by
  unfold foundGroup
  split
  · exact calm_modify_same fun _ => ⟨rfl, rfl, rfl, rfl, rfl⟩
  · exact .refl k

theorem startThread_calm {curr start arg : Nat} (h : k.startThread p np curr start arg = .ok k') :
    k.Calm k' := by
  obtain ⟨ntf, regs, ft, ir, files, cwd, -, rfl⟩ := startThread_ok h
  exact ⟨slots_update (Proc.calm_of_awake rfl nofun), pids_update rfl, rfl, rfl⟩

theorem threadCreate_hires {start arg : Nat} {r : Int} (h : k.threadCreate p start arg = .ok (r, k')) :
    k.Hires k' := by
  rcases threadCreate_ok h with halloc | ⟨np, k₁, k₂, pt, npt, c, m, npt', halloc, henter, -, -, -, hend⟩
  · exact hires_of_none halloc
  refine hires_of_some halloc (((foundGroup_calm k₁ p).trans (enterGroup_calm henter)).trans ?_)
  have hset := calm_setTable k₂ m np npt'
  rcases hend with ⟨m', -, hleave⟩ | ⟨stack, m', k₃, -, hloop, hstart⟩
  · exact (hset.trans (calm_setMem _ m')).trans (leaveGroup_calm hleave)
  · refine (hset.trans (calm_setMem _ (m'.memset stack 0))).trans ?_
    exact (ringLoop_remaps (fun _ _ _ => mapStack_remaps) hloop).calm.trans (startThread_calm hstart)

theorem Calm.hires (h : k.Calm k') : k.Hires k' := ⟨h.slot, h.initproc, .inl ⟨h.nextpid, h.pid⟩⟩

end Kernel

/-! ## Steps -/

/-- The process that asks for a new thread. -/
def Event.creates : Event → Option Slot
  | .call p (.threadCreate _ _) => some p
  | _ => none

/-- The status a process exits with. -/
def Event.status : Event → Int
  | .call _ (.exit status) => status
  | _ => -1

namespace Kernel

variable {k k' : Kernel} {p q : Slot} {e : Event} {r : Option Int}

/-- The `wait` or `thread_join` that an event carries out, in a new call or in
one that was asleep, and by whom. -/
def awaits (k : Kernel) : Event → Option (Slot × Resume)
  | .call p (.wait addr) => some (p, .wait addr)
  | .call p (.threadJoin tid) => some (p, .join tid)
  | .schedule p =>
    match (k.proc p).resume with
    | .wait addr => some (p, .wait addr)
    | .join tid => some (p, .join tid)
    | _ => none
  | _ => none

/-- Some slot is the child thread `tid` of `p`, in whatever state. -/
def hasThread (k : Kernel) (p : Slot) (tid : Int) : Bool :=
  (List.finRange nproc).any (k.isChildThread p tid)

/-- A `wait` or `thread_join` by `p` finds nothing to reap and goes to sleep. -/
def Blocks (k : Kernel) (p : Slot) : Resume → Prop
  | .wait _ => k.findZombie p = none ∧ k.hasKids p = true ∧ (k.proc p).killed = false
  | .join tid => k.findJoin p tid = none ∧ k.hasThread p tid = true ∧ (k.proc p).killed = false
  | _ => False

/-- `q` was put to sleep by event `e`. -/
inductive Dozes (k : Kernel) (e : Event) (q : Slot) (r : Option Int) (k' : Kernel) : Prop
  | block (n : Nat) : e = .block q n → (k'.proc q).resume = .call → Dozes k e q r k'
  | await : k.awaits e = some (q, (k'.proc q).resume) → (k'.proc q).chan = some (.proc q) →
      k.Blocks q (k'.proc q).resume → k'.entries = k.entries → r = none → Dozes k e q r k'

structure Treads (k : Kernel) (e : Event) (r : Option Int) (k' : Kernel) : Prop where
  initproc : k'.initproc = k.initproc
  xstate : ∀ q, e.exits ≠ some q → (k'.proc q).xstate = (k.proc q).xstate
  status : ∀ q, e.exits = some q →
    (k'.proc q).xstate = if (k.proc q).isThread then 0 else e.status
  asleep : ∀ q, (k'.proc q).state = .sleeping →
    ((k.proc q).state = .sleeping ∧ (k'.proc q).resume = (k.proc q).resume ∧
      (k'.proc q).chan = (k.proc q).chan) ∨ k.Dozes e q r k'
  nextpid : (k'.nextpid = k.nextpid ∧ ∀ q, (k'.proc q).pid = (k.proc q).pid) ∨
    k'.nextpid = (k.nextpid + 1).bmod (2 ^ 32)

theorem Hires.treads (h : k.Hires k') (he : e.exits = none) : k.Treads e r k' where
  initproc := h.initproc
  xstate q _ := (h.slot q).xstate
  status q hq := by rw [he] at hq; cases hq
  asleep q hq := .inl ((h.slot q).asleep hq)
  nextpid := h.nextpid

theorem Calm.treads (h : k.Calm k') (he : e.exits = none) : k.Treads e r k' := h.hires.treads he

/-- `p` goes to sleep in a state that is calm up to there. -/
theorem Calm.sleep_treads (h : k.Calm k') (he : e.exits = none) {chan : Chan} {at_ : Resume}
    (hd : k.Dozes e p r (k'.sleep p chan at_)) : k.Treads e r (k'.sleep p chan at_) where
  initproc := h.initproc
  xstate q _ := by
    unfold sleep
    rw [modify_proc]
    split <;> exact (h.slot q).xstate
  status q hq := by rw [he] at hq; cases hq
  asleep q hq := by
    by_cases hqp : q = p
    · subst hqp
      exact .inr hd
    · unfold sleep at hq ⊢
      rw [modify_proc_ne hqp] at hq ⊢
      exact .inl ((h.slot q).asleep hq)
  nextpid := by
    refine .inl ⟨h.nextpid, fun q => ?_⟩
    unfold sleep
    rw [modify_proc]
    split <;> exact h.pid q

/-- Falling asleep in a `wait` or `thread_join`. -/
theorem dozes_await {at_ : Resume} (he : k'.entries = k.entries) (hp : (k'.proc p).state.phase = .active)
    (ha : k.awaits e = some (p, at_)) (hb : k.Blocks p at_) :
    k.Dozes e p none (k'.sleep p (.proc p) at_) := by
  have hself : ((k'.sleep p (.proc p) at_).proc p).resume = at_ := by simp [sleep]
  exact .await (hself.symm ▸ ha) (by simp [sleep]) (hself.symm ▸ hb) ((entries_sleep hp _ _).trans he) rfl

theorem exitProcess_treads {status : Int} (hp : (k.proc p).state = .running)
    (hthread : (k.proc p).isThread = false) (he : e.exits = some p) (hs : e.status = status)
    (h : k.exitProcess p status = .ok k') : k.Treads e r k' := by
  obtain ⟨hw, -⟩ := exitProcess_ok (by simp [hp]) h
  have hc := hw.calm
  have hslot : ∀ q, q ≠ p → (k.proc q).Calm (k'.proc q) := by
    intro q hq
    refine Proc.Calm.trans ?_ (hc.slot q)
    simp only [exited, if_neg hq]
    exact ⟨rfl, fun h => ⟨h, rfl, rfl⟩⟩
  have hself : ∀ q, e.exits = some q → q = p := fun q hq => (Option.some.inj (he.symm.trans hq)).symm
  refine ⟨hc.initproc, fun q hq => ?_, fun q hq => ?_, fun q hq => ?_, .inl ⟨hc.nextpid, fun q => ?_⟩⟩
  · exact (hslot q fun heq => hq (heq ▸ he)).xstate
  · obtain rfl := hself q hq
    rw [(hc.slot q).xstate, hthread, hs]
    simp [exited]
  · by_cases hqp : q = p
    · subst hqp
      have := ((hc.slot q).asleep hq).1
      simp [exited] at this
    · exact .inl ((hslot q hqp).asleep hq)
  · rw [hc.pid q]
    simp only [exited]
    split <;> rfl

theorem threadExitThread_treads (hthread : (k.proc p).isThread = true) (he : e.exits = some p) :
    k.Treads e r (k.threadExitThread p) := by
  have hd := dropRef_calm k (k.leaderOf p)
  unfold threadExitThread
  dsimp only
  generalize k.dropRef (k.leaderOf p) = k₁ at hd
  have hw := wakes_wakeParent (k₁.modify p fun pr => { pr with xstate := 0, state := .zombie }) p
  have hc := hw.calm
  generalize (k₁.modify p fun pr => { pr with xstate := 0, state := .zombie }).wakeParent p = k' at hc
  have hslot : ∀ q, q ≠ p → (k.proc q).Calm (k'.proc q) := by
    intro q hq
    have := hc.slot q
    rw [modify_proc_ne hq] at this
    exact (hd.slot q).trans this
  have hself : ∀ q, e.exits = some q → q = p := fun q hq => (Option.some.inj (he.symm.trans hq)).symm
  refine ⟨hc.initproc.trans hd.initproc, fun q hq => ?_, fun q hq => ?_, fun q hq => ?_,
    .inl ⟨hc.nextpid.trans hd.nextpid, fun q => ?_⟩⟩
  · exact (hslot q fun heq => hq (heq ▸ he)).xstate
  · obtain rfl := hself q hq
    rw [(hc.slot q).xstate, hthread]
    simp
  · by_cases hqp : q = p
    · subst hqp
      have := ((hc.slot q).asleep hq).1
      simp at this
    · exact .inl ((hslot q hqp).asleep hq)
  · rw [hc.pid q, modify_proc]
    split
    · exact hd.pid q
    · exact hd.pid q

theorem exit_treads {status : Int} (hp : (k.proc p).state = .running) (he : e.exits = some p)
    (hs : e.status = status) (h : k.exit p status = .ok k') : k.Treads e r k' := by
  unfold exit at h
  split at h
  · rename_i hthread
    cases h
    exact threadExitThread_treads hthread he
  · rename_i hthread
    exact exitProcess_treads hp (by simpa using hthread) he hs h

theorem threadExit_treads (hp : (k.proc p).state = .running) (he : e.exits = some p)
    (hs : e.status = -1) (h : k.threadExit p = .ok k') : k.Treads e r k' := by
  unfold threadExit at h
  split at h
  · rename_i hthread
    cases h
    exact threadExitThread_treads hthread he
  · rename_i hthread
    exact exitProcess_treads hp (by simpa using hthread) he hs h

/-- A round of `wait` is calm, or it ends in sleep. -/
theorem wait_calm {addr : Nat} (h : k.wait p addr = .ok (r, k')) :
    k.Calm k' ∨ r = none ∧ k.Blocks p (.wait addr) ∧ k' = k.sleep p (.proc p) (.wait addr) := by
  unfold wait at h
  split at h
  · obtain ⟨⟨c, k₁⟩, hcopy, h⟩ := Except.bind_ok_iff.1 h
    obtain ⟨m, rfl, -, -, -⟩ := copyStatus_ok hcopy
    have hm := calm_setMem k m
    dsimp only at h
    split at h
    · cases h
      exact .inl hm
    · obtain ⟨k₂, hfree, h⟩ := Except.bind_ok_iff.1 h
      cases h
      exact .inl (hm.trans (freeproc_calm hfree))
  · rename_i hnone
    split at h
    · cases h
      exact .inl (.refl k)
    · rename_i hkids
      cases h
      exact .inr ⟨rfl, ⟨hnone, by simpa using hkids⟩, rfl⟩

/-- A round of `thread_join` is calm, or it ends in sleep. -/
theorem threadJoin_calm {tid : Int} (h : k.threadJoin p tid = .ok (r, k')) :
    k.Calm k' ∨ r = none ∧ k.Blocks p (.join tid) ∧ k' = k.sleep p (.proc p) (.join tid) := by
  unfold threadJoin at h
  split at h
  · obtain ⟨k₁, hfree, h⟩ := Except.bind_ok_iff.1 h
    cases h
    exact .inl (freeproc_calm hfree)
  · rename_i hnone
    split at h
    · cases h
      exact .inl (.refl k)
    · rename_i hkids
      cases h
      exact .inr ⟨rfl, ⟨hnone, by simpa [hasThread] using hkids⟩, rfl⟩

/-- Whether a call blocks does not depend on the switch to its process. -/
theorem blocks_switch (hp : (k.proc p).state = .runnable) {at_ : Resume}
    (h : (k.modify p fun pr => { pr with state := .running, chan := none, resume := .user }).Blocks p at_) :
    k.Blocks p at_ := by
  have hfind := findZombie_switch hp
  have hjoin := findJoin_switch hp
  have hproc : ∀ q, ((k.modify p fun pr => { pr with state := .running, chan := none, resume := .user }).proc q)
      = { k.proc q with
          state := if q = p then .running else (k.proc q).state
          chan := if q = p then none else (k.proc q).chan
          resume := if q = p then .user else (k.proc q).resume } := by
    intro q
    rw [modify_proc]
    split <;> rfl
  generalize (k.modify p fun pr => { pr with state := .running, chan := none, resume := .user }) = k₁
    at h hfind hjoin hproc
  cases at_ with
  | wait addr =>
    obtain ⟨hz, hkids, hkill⟩ := h
    refine ⟨hfind ▸ hz, ?_, by simpa [hproc] using hkill⟩
    simpa only [hasKids, hproc] using hkids
  | join tid =>
    obtain ⟨hz, hkids, hkill⟩ := h
    refine ⟨hjoin tid ▸ hz, ?_, by simpa [hproc] using hkill⟩
    have hthread : k₁.isChildThread p tid = k.isChildThread p tid := by
      funext q
      simp only [isChildThread, hproc]
    rwa [hasThread, hthread] at hkids
  | user => exact h
  | call => exact h

theorem resume_treads (hp : (k.proc p).state = .runnable) (h : k.resume p = .ok (r, k')) :
    k.Treads (.schedule p) r k' := by
  have hk : k.Calm (k.modify p fun pr => { pr with state := .running, chan := none, resume := .user }) :=
    calm_modify (Proc.calm_of_awake rfl nofun) rfl
  simp only [resume] at h
  split at h
  · cases h
    exact hk.treads rfl
  · cases h
    exact hk.treads rfl
  · rename_i addr hres
    rcases wait_calm h with hc | ⟨rfl, hb, rfl⟩
    · exact (hk.trans hc).treads rfl
    · exact hk.sleep_treads rfl (dozes_await (switch_entries hp) (by simp [ProcState.phase])
        (by simp [awaits, hres]) (blocks_switch hp hb))
  · rename_i tid hres
    rcases threadJoin_calm h with hc | ⟨rfl, hb, rfl⟩
    · exact (hk.trans hc).treads rfl
    · exact hk.sleep_treads rfl (dozes_await (switch_entries hp) (by simp [ProcState.phase])
        (by simp [awaits, hres]) (blocks_switch hp hb))

theorem kill_calm (k : Kernel) (pid : Int) : k.Calm (k.kill pid).2 := by
  unfold kill
  split
  · exact .refl k
  · rename_i p _
    have hcalm : (k.proc p).Calm { k.proc p with
        killed := true
        state := if (k.proc p).state = .sleeping then .runnable else (k.proc p).state } := by
      refine Proc.calm_of_awake rfl fun h => ?_
      dsimp only at h
      split at h
      · cases h
      · rename_i hs
        exact hs h
    refine calm_modify (f := fun pr => { pr with
      killed := true
      state := if pr.state = .sleeping then .runnable else pr.state }) hcalm rfl

theorem syscall_treads {c : Call} (hp : (k.proc p).state = .running) (h : k.syscall p c = .ok (r, k')) :
    k.Treads (.call p c) r k' := by
  cases c with
  | fork => obtain ⟨v, hv⟩ := returns_ok h; exact (fork_hires hv).treads rfl
  | exec path file argv => obtain ⟨v, hv⟩ := returns_ok h; exact (exec_remaps hv).calm.treads rfl
  | sbrk n => obtain ⟨v, hv⟩ := returns_ok h; exact (sbrk_remaps hv).calm.treads rfl
  | threadCreate start arg => obtain ⟨v, hv⟩ := returns_ok h; exact (threadCreate_hires hv).treads rfl
  | threadExit => exact threadExit_treads hp rfl rfl (noReturn_ok h)
  | threadJoin tid =>
    rcases threadJoin_calm h with hc | ⟨rfl, hb, rfl⟩
    · exact hc.treads rfl
    · exact (Calm.refl k).sleep_treads rfl (dozes_await rfl (by simp [hp, ProcState.phase]) rfl hb)
  | exit status => exact exit_treads hp rfl rfl (noReturn_ok h)
  | wait addr =>
    rcases wait_calm h with hc | ⟨rfl, hb, rfl⟩
    · exact hc.treads rfl
    · exact (Calm.refl k).sleep_treads rfl (dozes_await rfl (by simp [hp, ProcState.phase]) rfl hb)
  | kill pid =>
    obtain ⟨-, hk'⟩ := Prod.mk.inj (Except.ok.inj h)
    exact hk' ▸ (kill_calm k pid).treads rfl
  | «open» ip device rd wr => obtain ⟨v, hv⟩ := returns_ok h; exact (sysOpen_calm hv).treads rfl
  | dup fd => obtain ⟨v, hv⟩ := returns_ok h; exact (sysDup_calm hv).treads rfl
  | close fd => obtain ⟨v, hv⟩ := returns_ok h; exact (sysClose_calm hv).treads rfl
  | pipe fdarray => obtain ⟨v, hv⟩ := returns_ok h; exact (sysPipe_calm hv).treads rfl
  | chdir ip => obtain ⟨v, hv⟩ := returns_ok h; exact (sysChdir_calm hv).treads rfl

/-- What every step of the system does to statuses, sleepers and ids. -/
theorem step_treads (hen : k.enabled e = true) (h : k.step e = .ok (r, k')) : k.Treads e r k' := by
  cases e with
  | schedule p => exact resume_treads (by simpa [enabled] using hen) h
  | yield p =>
    cases h
    have hcalm : (k.proc p).Calm { k.proc p with state := .runnable } := Proc.calm_of_awake rfl (by simp)
    exact Calm.treads (calm_modify hcalm rfl) rfl
  | call p c =>
    have hp : (k.proc p).state = .running ∧ (k.proc p).killed = false := by simpa [enabled] using hen
    exact syscall_treads hp.1 h
  | block p n =>
    cases h
    exact (Calm.refl k).sleep_treads rfl (.block n rfl (by simp [sleep]))
  | unblock n =>
    cases h
    exact (wakes_wakeup _ _ _).calm.treads rfl
  | fault p =>
    cases h
    have hc : k.Calm (k.setkilled p) := calm_modify_same fun _ => ⟨rfl, rfl, rfl, rfl, rfl⟩
    exact hc.treads rfl
  | die p =>
    have hp : (k.proc p).state = .running ∧ (k.proc p).killed = true := by simpa [enabled] using hen
    obtain ⟨k₁, hx, hr⟩ := Except.bind_ok_iff.1 h
    cases hr
    exact exit_treads hp.1 rfl rfl hx

end Kernel

end Xv6
