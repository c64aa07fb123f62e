-- SUMMARY: Exited processes that nobody has reaped: which parts of a call leave them as they are.
import Xv6Threads.Process.Calm

/-!
# Zombies lie still

No call but `exit` and `thread_exit` makes a zombie, and `reparent` apart
nothing changes who is to reap one: its parent, its thread id and whether it is
a thread.
-/

namespace Xv6

/-- A slot that is a zombie was that zombie before. -/
def Proc.Still (pr pr' : Proc) : Prop :=
  pr'.state = .zombie →
    pr.state = .zombie ∧ pr'.parent = pr.parent ∧ pr'.tid = pr.tid ∧ pr'.isThread = pr.isThread

namespace Proc.Still

variable {pr pr' pr'' : Proc}

theorem refl (pr : Proc) : pr.Still pr := fun h => ⟨h, rfl, rfl, rfl⟩

theorem trans (h : pr.Still pr') (h' : pr'.Still pr'') : pr.Still pr'' := by
  intro hz
  obtain ⟨hz', hp', ht', hi'⟩ := h' hz
  obtain ⟨hz, hp, ht, hi⟩ := h hz'
  exact ⟨hz, hp'.trans hp, ht'.trans ht, hi'.trans hi⟩

theorem of_ne (h : pr'.state ≠ .zombie) : pr.Still pr' := fun hz => absurd hz h

/-- The entry of a slot says whether it is a zombie, and whose. -/
theorem of_entry (h : pr'.entry = pr.entry) : pr.Still pr' := by
  intro hz
  have hphase : pr'.state.phase = pr.state.phase := congrArg Entry.phase h
  refine ⟨ProcState.phase_zombie.1 ?_, congrArg Entry.parent h, congrArg Entry.tid h,
    congrArg Entry.isThread h⟩
  rw [← hphase, hz]
  rfl

end Proc.Still

namespace Kernel

variable {k k' k'' : Kernel} {p q np L : Slot}

/-- Every zombie was there before. -/
def Still (k k' : Kernel) : Prop := ∀ q, (k.proc q).Still (k'.proc q)

theorem Still.refl (k : Kernel) : k.Still k := fun _ => .refl _

theorem Still.trans (h : k.Still k') (h' : k'.Still k'') : k.Still k'' := fun q => (h q).trans (h' q)

theorem still_of_proc (h : k'.proc = k.proc) : k.Still k' := fun q => by rw [h]; exact .refl _

theorem still_of_entries (h : k'.entries = k.entries) : k.Still k' :=
  fun q => .of_entry (congrFun h q)

theorem still_modify {f : Proc → Proc} (h : (k.proc p).Still (f (k.proc p))) : k.Still (k.modify p f) := by
  intro q
  by_cases hq : q = p
  · subst hq
    rwa [modify_proc_same]
  · rw [modify_proc_ne hq]
    exact .refl _

theorem still_update {f : Slot → Proc} {pr : Proc} (h : (f p).Still pr) (q : Slot) :
    (f q).Still (Function.update f p pr q) := by
  by_cases hq : q = p
  · subst hq
    rwa [Function.update_self]
  · rw [Function.update_of_ne hq]
    exact .refl _

/-- A change of fields that do not say whose zombie a slot is. -/
theorem Still.modify_same {f : Proc → Proc} (h : k.Still k')
    (hf : ∀ pr, (f pr).state = pr.state ∧ (f pr).parent = pr.parent ∧ (f pr).tid = pr.tid ∧
      (f pr).isThread = pr.isThread) : k.Still (k'.modify p f) := by
  obtain ⟨hs, hp, ht, hi⟩ := hf (k'.proc p)
  exact h.trans (still_modify fun hz => ⟨hs ▸ hz, hp, ht, hi⟩)

theorem still_setMem (k : Kernel) (m : Mem) : k.Still { k with mem := m } := still_of_proc rfl

theorem still_setTable (k : Kernel) (m : Mem) (p : Slot) (pt : PageTable) :
    k.Still ({ k with mem := m }.setTable p pt) :=
  still_of_entries (entries_setTable _ p pt)

/-! ## Releasing slots -/

theorem freeSelf_still (h : k.freeSelf p = .ok k') : k.Still k' := by
  obtain ⟨m, -, rfl⟩ := freeSelf_ok h
  exact still_update (.of_ne (by simp [Proc.clear]))

theorem freeMember_still (h : k.freeMember q = .ok k') : k.Still k' := by
  obtain ⟨m, m', -, -, rfl⟩ := freeMember_ok h
  exact still_update (.of_ne (by simp [Proc.release]))

theorem freeMembers_still {n : Nat} {o : Option Slot} (h : freeMembers p n o k = .ok k') : k.Still k' := by
  induction n generalizing o k with
  | zero => cases h
  | succ n ih =>
    cases o with
    | none => cases h
    | some q =>
      rw [freeMembers] at h
      split at h
      · cases h
        exact .refl _
      · obtain ⟨k₁, hfree, h⟩ := Except.bind_ok_iff.1 h
        exact (freeMember_still hfree).trans (ih h)

theorem dropRef_still (k : Kernel) (L : Slot) : k.Still (k.dropRef L) := by
  refine still_modify ?_
  split
  · exact fun hz => ⟨hz, rfl, rfl, rfl⟩
  · exact .refl _

theorem freeproc_still (h : k.freeproc p = .ok k') : k.Still k' := by
  unfold freeproc at h
  split at h
  · exact freeSelf_still h
  · rename_i L _
    have hd := dropRef_still k L
    dsimp only at h
    split at h
    · cases h
    split at h
    · cases h
      exact hd.trans (still_modify (.of_ne nofun))
    · obtain ⟨k₁, hmembers, h⟩ := Except.bind_ok_iff.1 h
      exact (hd.trans (freeMembers_still hmembers)).trans (freeSelf_still h)

/-! ## Taking slots -/

theorem allocproc_none_still (h : k.allocproc = .ok (none, k')) : k.Still k' := by
  rcases allocproc_none h with ⟨-, rfl⟩ | ⟨p, m, -, -, rfl⟩
  · exact .refl _
  · exact still_update (.of_ne (by simp [Proc.clear]))

/-- The slot that was found is in use and has not exited. -/
theorem allocproc_some_still (h : k.allocproc = .ok (some np, k')) :
    k.Still k' ∧ (k'.proc np).state = .used := by
  obtain ⟨-, tf, m, pt, m', -, -, rfl⟩ := allocproc_some h
  exact ⟨still_update (.of_ne (by simp [Proc.claim])), by simp [Proc.claim]⟩

theorem fork_still {r : Int} (h : k.fork p = .ok (r, k')) : k.Still k' := by
  rcases fork_ok h with halloc | ⟨np, k₁, old, new, m, new', halloc, -, -, hend⟩
  · exact allocproc_none_still halloc
  refine (allocproc_some_still halloc).1.trans ?_
  rcases hend with ⟨-, hfree⟩ | ⟨-, ntf, regs, ft, ir, files, cwd, name, -, rfl⟩
  · exact (still_setTable k₁ m np new').trans (freeproc_still hfree)
  · exact still_update (.of_ne nofun)

theorem foundGroup_state (k : Kernel) (p q : Slot) :
    ((k.foundGroup p).proc q).state = (k.proc q).state := by
  unfold foundGroup
  split
  · rw [modify_proc]
    split <;> rfl
  · rfl

theorem foundGroup_still (k : Kernel) (p : Slot) : k.Still (k.foundGroup p) := by
  unfold foundGroup
  split
  · exact .modify_same (.refl k) fun _ => ⟨rfl, rfl, rfl, rfl⟩
  · exact .refl k

theorem enterGroup_still (hnp : (k.proc np).state ≠ .zombie) (h : k.enterGroup L np = .ok k') :
    k.Still k' := by
  simp only [enterGroup] at h
  split at h
  · cases h
  cases h
  refine .modify_same (.modify_same (.trans (.modify_same (.refl k) ?_) (still_modify ?_)) ?_) ?_
  · exact fun _ => ⟨rfl, rfl, rfl, rfl⟩
  · refine .of_ne ?_
    rw [modify_proc]
    split <;> exact hnp
  · exact fun _ => ⟨rfl, rfl, rfl, rfl⟩
  · exact fun _ => ⟨rfl, rfl, rfl, rfl⟩

theorem leaveGroup_still (h : k.leaveGroup L np = .ok k') : k.Still k' := by
  unfold leaveGroup at h
  split at h
  · cases h
    refine .modify_same (.modify_same (.modify_same (.refl k) ?_) ?_) ?_
    all_goals exact fun _ => ⟨rfl, rfl, rfl, rfl⟩
  · cases h

theorem threadCreate_still {start arg : Nat} {r : Int} (h : k.threadCreate p start arg = .ok (r, k')) :
    k.Still k' := by
  rcases threadCreate_ok h with halloc | ⟨np, k₁, k₂, pt, npt, c, m, npt', halloc, henter, -, -, -, hend⟩
  · exact allocproc_none_still halloc
  obtain ⟨hstill, hused⟩ := allocproc_some_still halloc
  have hnp : ((k₁.foundGroup p).proc np).state ≠ .zombie := by rw [foundGroup_state, hused]; nofun
  refine hstill.trans (((foundGroup_still k₁ p).trans (enterGroup_still hnp henter)).trans ?_)
  have hset := still_setTable k₂ m np npt'
  rcases hend with ⟨m', -, hleave⟩ | ⟨stack, m', k₃, -, hloop, hstart⟩
  · exact (hset.trans (still_setMem _ m')).trans (leaveGroup_still hleave)
  · have hloop := still_of_entries (ringLoop_remaps (fun _ _ _ => mapStack_remaps) hloop).entries
    obtain ⟨ntf, regs, ft, ir, files, cwd, -, rfl⟩ := startThread_ok hstart
    exact ((hset.trans (still_setMem _ (m'.memset stack 0))).trans hloop).trans (still_update (.of_ne nofun))

theorem kill_still (k : Kernel) (pid : Int) : k.Still (k.kill pid).2 := by
  unfold kill
  split
  · exact .refl k
  · rename_i p _
    have hstill : (k.proc p).Still { k.proc p with
        killed := true
        state := if (k.proc p).state = .sleeping then .runnable else (k.proc p).state } := by
      intro hz
      dsimp only at hz ⊢
      split at hz
      · cases hz
      · exact ⟨hz, rfl, rfl, rfl⟩
    exact still_modify (f := fun pr => { pr with
      killed := true
      state := if pr.state = .sleeping then .runnable else pr.state }) hstill

/-! ## Events -/

/-- The calls that neither exit nor reap keep every zombie. -/
theorem syscall_still {c : Call} {r : Option Int} (hp : (k.proc p).state.phase = .active)
    (hx : (Event.call p c).exits = none) (hw : k.awaits (.call p c) = none)
    (h : k.syscall p c = .ok (r, k')) : k.Still k' := by
  cases c with
  | fork => obtain ⟨v, hv⟩ := returns_ok h; exact fork_still hv
  | exec path file argv => obtain ⟨v, hv⟩ := returns_ok h; exact still_of_entries (exec_remaps hv).entries
  | sbrk n => obtain ⟨v, hv⟩ := returns_ok h; exact still_of_entries (sbrk_remaps hv).entries
  | threadCreate start arg => obtain ⟨v, hv⟩ := returns_ok h; exact threadCreate_still hv
  | threadExit => cases hx
  | threadJoin tid => cases hw
  | exit status => cases hx
  | wait addr => cases hw
  | kill pid =>
    obtain ⟨-, hk'⟩ := Prod.mk.inj (Except.ok.inj h)
    exact hk' ▸ kill_still k pid
  | «open» ip device rd wr => obtain ⟨v, hv⟩ := returns_ok h; exact still_of_entries (sysOpen_entries hp hv)
  | dup fd => obtain ⟨v, hv⟩ := returns_ok h; exact still_of_entries (sysDup_entries hp hv)
  | close fd => obtain ⟨v, hv⟩ := returns_ok h; exact still_of_entries (sysClose_entries hp hv)
  | pipe fdarray => obtain ⟨v, hv⟩ := returns_ok h; exact still_of_entries (sysPipe_entries hp hv)
  | chdir ip => obtain ⟨v, hv⟩ := returns_ok h; exact still_of_entries (sysChdir_entries hp hv)

end Kernel

end Xv6
