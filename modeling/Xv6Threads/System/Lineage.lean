-- SUMMARY: What a step does to the family of one slot: its parent, its phase and its ids.
import Xv6Threads.Process.Calm
import Xv6Threads.System.Transfers

/-!
# Lineage

`Kin k e c x` lists what event `e` can make of the family part of the entry of
slot `c`. It is read off `Move` once, and what concerns parents, children and
process ids is proved from it: who waits for whom, who may reap whom, and which
process a slot stands for.
-/

namespace Xv6

variable {k k' : Kernel} {e : Event} {E' : Entries} {p q c : Slot} {x : Entry}

/-- The ids of a slot are kept. -/
structure Entry.SameIds (x y : Entry) : Prop where
  isThread : y.isThread = x.isThread
  tid : y.tid = x.tid
  pid : y.pid = x.pid

theorem Entry.SameIds.refl (x : Entry) : x.SameIds x := ⟨rfl, rfl, rfl⟩

/-- From one state of a family to the next. -/
inductive Kin (k : Kernel) (e : Event) (c : Slot) (x : Entry) : Prop
  | kept : x.phase = (k.entries c).phase → x.parent = (k.entries c).parent →
      (k.entries c).SameIds x → Kin k e c x
  /-- the process in `c` exits -/
  | exited : e.exits = some c → (k.entries c).phase = .active → x.phase = .zombie →
      (x.parent = (k.entries c).parent ∨ (k.entries c).isThread = false ∧
        (k.entries c).parent = some c ∧ x.parent = some k.initproc) →
      (k.entries c).SameIds x → Kin k e c x
  /-- its parent exits -/
  | adopted (p : Slot) : e.exits = some p → p ≠ c → (k.entries p).phase = .active →
      (k.entries p).isThread = false → (k.entries c).parent = some p → x.parent = some k.initproc →
      x.phase = (k.entries c).phase → (k.entries c).SameIds x → Kin k e c x
  /-- it is reaped as a thread -/
  | reaped (L : Slot) : k.reaps e = some c → (k.entries c).phase = .zombie →
      (k.entries c).groupLeader = some L → L ≠ c → x.phase = .ghost →
      x.parent = (k.entries c).parent → (k.entries c).SameIds x → Kin k e c x
  /-- the slot is released -/
  | freed : k.Frees e c → x.phase = .unused → x.isThread = false → x.pid = (k.entries c).pid →
      Kin k e c x
  | forked (p : Slot) : e = .call p .fork → (k.entries p).phase = .active → k.findUnused = some c →
      x.phase = .active → x.parent = some p → x.isThread = (k.entries c).isThread →
      x.pid = k.nextpid → Kin k e c x
  | created (p : Slot) (start arg : Nat) : e = .call p (.threadCreate start arg) →
      (k.entries p).phase = .active → k.findUnused = some c → x.phase = .active →
      x.parent = some p → x.isThread = true → x.groupLeader = some (k.leaderOf p) →
      x.pid = k.nextpid → Kin k e c x
  /-- a slot was found, and given up again -/
  | failed : k.findUnused = some c → x.phase = .unused → x.isThread = false → x.pid = k.nextpid →
      Kin k e c x
  /-- a slot was found, and left behind -/
  | stranded (p : Slot) (start arg : Nat) : e = .call p (.threadCreate start arg) →
      k.findUnused = some c → x.phase = .used → x.isThread = (k.entries c).isThread →
      x.pid = k.nextpid → Kin k e c x

theorem Kin.of_eq (h : x = k.entries c) : Kin k e c x := by
  subst h
  exact .kept rfl rfl (.refl _)

theorem Kin.dropRef (k : Kernel) (e : Event) (c : Slot) : Kin k e c (k.entries c).dropRef := by
  unfold Entry.dropRef
  split
  · exact .kept rfl rfl ⟨rfl, rfl, rfl⟩
  · exact .of_eq rfl

theorem Kin.found (k : Kernel) (e : Event) (p c : Slot) : Kin k e c (k.entries.found p c) := by
  by_cases hc : c = p
  · subst hc
    unfold Entries.found
    split
    · rw [Function.update_self]
      exact .kept rfl rfl ⟨rfl, rfl, rfl⟩
    · exact .of_eq rfl
  · exact .of_eq (Entries.found_of_ne hc)

theorem Move.kin (hm : Move k e E') (c : Slot) : Kin k e c (E' c) := by
  cases hm with
  | quiet => exact .of_eq rfl
  | strike _ q _ =>
    by_cases hc : c = q
    · subst hc
      rw [Function.update_self]
      exact .kept rfl rfl ⟨rfl, rfl, rfl⟩
    · exact .of_eq (Function.update_of_ne hc _ _)
  | allocFail p np _ hfind =>
    by_cases hc : c = np
    · subst hc
      rw [Function.update_self]
      exact .failed hfind rfl rfl rfl
    · exact .of_eq (Function.update_of_ne hc _ _)
  | fork p np hp hfind =>
    by_cases hc : c = np
    · subst hc
      rw [Function.update_self]
      exact .forked p rfl hp hfind rfl rfl rfl rfl
    · exact .of_eq (Function.update_of_ne hc _ _)
  | create p np L start arg ms x hp hfind hL hg hx =>
    by_cases hc : c = np
    · subst hc
      have hself : (k.entries.found p).linkIn L c x c = x := by simp [Entries.linkIn]
      rw [hself, hx]
      exact .created p start arg rfl hp hfind rfl rfl rfl (congrArg some hL.symm) rfl
    · -- the links around the new thread change, nothing else
      have hkeep : (k.entries.found p).linkIn L np x c =
          { k.entries.found p c with
            groupPrev := ((k.entries.found p).linkIn L np x c).groupPrev
            groupNext := ((k.entries.found p).linkIn L np x c).groupNext
            numChildren := ((k.entries.found p).linkIn L np x c).numChildren
            refCount := ((k.entries.found p).linkIn L np x c).refCount } := by
        simp [Entries.linkIn, hc]
      rw [hkeep]
      by_cases hcp : c = p
      · subst hcp
        unfold Entries.found
        split
        · simp only [Function.update_self]
          exact .kept rfl rfl ⟨rfl, rfl, rfl⟩
        · exact .kept rfl rfl ⟨rfl, rfl, rfl⟩
      · rw [Entries.found_of_ne hcp]
        exact .kept rfl rfl ⟨rfl, rfl, rfl⟩
  | createBad p np L start arg x hp hfind hL hx =>
    by_cases hc : c = np
    · subst hc
      rw [Function.update_self, hx]
      exact .stranded p start arg rfl hfind rfl rfl rfl
    · rw [Function.update_of_ne hc]
      exact .found k _ p c
  | threadExit _ p L he hp _ _ hne =>
    by_cases hc : c = p
    · subst hc
      rw [Function.update_self]
      exact .exited he hp rfl (.inl rfl) ⟨rfl, rfl, rfl⟩
    · rw [Function.update_of_ne hc]
      by_cases hcL : c = L
      · subst hcL
        rw [Function.update_self]
        exact .dropRef k _ c
      · exact .of_eq (Function.update_of_ne hcL _ _)
  | processExit _ p he hp hthread =>
    by_cases hc : c = p
    · subst hc
      refine .exited he hp (by simp [Kernel.retire]) ?_ ⟨rfl, rfl, rfl⟩
      by_cases hpar : (k.entries c).parent = some c
      · exact .inr ⟨hthread, hpar, by simp [Kernel.retire, hpar]⟩
      · exact .inl (by simp [Kernel.retire, hpar])
    · by_cases hpar : (k.entries c).parent = some p
      · exact .adopted p he (Ne.symm hc) hp hthread hpar (by simp [Kernel.retire, hpar])
          (by simp [Kernel.retire, hc]) ⟨rfl, rfl, rfl⟩
      · exact .kept (by simp [Kernel.retire, hc]) (by simp [Kernel.retire, hpar]) ⟨rfl, rfl, rfl⟩
  | reapThread _ q L hr hz hL hne =>
    by_cases hc : c = q
    · subst hc
      rw [Function.update_self]
      exact .reaped L hr hz hL hne rfl rfl ⟨rfl, rfl, rfl⟩
    · rw [Function.update_of_ne hc]
      by_cases hcL : c = L
      · subst hcL
        rw [Function.update_self]
        exact .dropRef k _ c
      · exact .of_eq (Function.update_of_ne hcL _ _)
  | reapProcess _ q hr hz hL =>
    by_cases hc : c = q
    · subst hc
      rw [Function.update_self]
      exact .freed ⟨c, hr, .inl ⟨hL, rfl⟩⟩ rfl rfl rfl
    · exact .of_eq (Function.update_of_ne hc _ _)
  | reapGroup _ L ms chan files hr hz hg _ =>
    by_cases hcL : c = L
    · subst hcL
      exact .freed ⟨c, hr, .inr ⟨ms, hg, by simp⟩⟩ (by simp [Entries.disband, Entry.clear])
        (by simp [Entries.disband, Entry.clear]) (by simp [Entries.disband, Entry.clear])
    · by_cases hcm : c ∈ ms
      · exact .freed ⟨L, hr, .inr ⟨ms, hg, by simp [hcm]⟩⟩
          (by simp [Entries.disband, hcL, hcm, Entry.release])
          (by simp [Entries.disband, hcL, hcm, Entry.release])
          (by simp [Entries.disband, hcL, hcm, Entry.release])
      · exact .of_eq (by simp [Entries.disband, hcL, hcm])

/-! ## Who reaps -/

/-- Whoever reaps is the parent, and is about to run. -/
theorem Kernel.reaps_parent (hen : k.enabled e = true) (h : k.reaps e = some c) :
    ∃ p, (k.entries c).parent = some p ∧ (k.entries c).phase = .zombie ∧
      ((k.proc p).state = .runnable ∨ (k.proc p).state = .running) := by
  have hzombie : ∀ {p addr}, k.waitReaps p addr = some c →
      (k.entries c).parent = some p ∧ (k.entries c).phase = .zombie := by
    intro p addr hw
    obtain ⟨hfind, -⟩ := Option.filter_eq_some_iff.1 hw
    obtain ⟨hpar, hz⟩ := Kernel.findZombie_spec hfind
    exact ⟨hpar, congrArg ProcState.phase hz⟩
  have hjoin : ∀ {p tid}, k.findJoin p tid = some c →
      (k.entries c).parent = some p ∧ (k.entries c).phase = .zombie := by
    intro p tid hj
    obtain ⟨hthread, hz⟩ := Kernel.findJoin_spec hj
    simp only [Kernel.isChildThread, decide_eq_true_eq] at hthread
    exact ⟨hthread.1, congrArg ProcState.phase hz⟩
  cases e with
  | schedule p =>
    have hp : (k.proc p).state = .runnable := by simpa [Kernel.enabled] using hen
    simp only [Kernel.reaps] at h
    split at h
    · obtain ⟨hpar, hz⟩ := hzombie h
      exact ⟨p, hpar, hz, .inl hp⟩
    · obtain ⟨hpar, hz⟩ := hjoin h
      exact ⟨p, hpar, hz, .inl hp⟩
    · cases h
  | call p call =>
    have hp : (k.proc p).state = .running ∧ (k.proc p).killed = false := by
      simpa [Kernel.enabled] using hen
    cases call with
    | wait addr =>
      obtain ⟨hpar, hz⟩ := hzombie h
      exact ⟨p, hpar, hz, .inr hp.1⟩
    | threadJoin tid =>
      obtain ⟨hpar, hz⟩ := hjoin h
      exact ⟨p, hpar, hz, .inr hp.1⟩
    | _ => cases h
  | _ => cases h

/-- A leader is reaped only when all its threads have exited. -/
def Kernel.ReleasesLast (k : Kernel) (e : Event) : Prop :=
  ∀ L, k.reaps e = some L → ∀ q, (k.proc q).groupLeader = some L → (k.proc q).state.phase ≠ .active

instance (k : Kernel) (e : Event) : Decidable (k.ReleasesLast e) :=
  inferInstanceAs (Decidable (∀ _, _ → ∀ _, _ → _))

/-- An exit goes through `thread_exit` or through the exit of a process. -/
theorem Kernel.step_exit_cases {r : Option Int} (h : k.step e = .ok (r, k')) (he : e.exits = some q) :
    (k.proc q).isThread = true ∧ k' = k.threadExitThread q ∨
      (k.proc q).isThread = false ∧ ∃ status, k.exitProcess q status = .ok k' := by
  cases e with
  | call p call =>
    cases call with
    | exit status =>
      cases he
      obtain ⟨k₁, hx, hr⟩ := Except.bind_ok_iff.1 h
      cases hr
      exact exit_cases hx
    | threadExit =>
      cases he
      obtain ⟨k₁, hx, hr⟩ := Except.bind_ok_iff.1 h
      cases hr
      exact threadExit_cases hx
    | _ => cases he
  | die p =>
    cases he
    obtain ⟨k₁, hx, hr⟩ := Except.bind_ok_iff.1 h
    cases hr
    exact exit_cases hx
  | _ => cases he

/-- Who exits is a zombie then, and a process has given its children away. -/
theorem Kernel.step_exits {r : Option Int} (hen : k.enabled e = true) (h : k.step e = .ok (r, k'))
    (he : e.exits = some q) :
    (k'.entries q).phase = .zombie ∧ ((k.entries q).isThread = false → k'.entries = k.retire q) := by
  have hq := Kernel.exits_running hen he
  rcases Kernel.step_exit_cases h he with ⟨hthread, rfl⟩ | ⟨hprocess, status, hx⟩
  · refine ⟨?_, fun hp => ?_⟩
    · rw [Kernel.threadExitThread, (Kernel.wakes_wakeParent _ _).entries_eq, Kernel.entries_modify,
        Function.update_self]
      rfl
    · rw [show (k.entries q).isThread = true from hthread] at hp
      cases hp
  · have hretire : k'.entries = k.retire q := by
      rw [(Kernel.exitProcess_ok (by simp [hq]) hx).1.entries_eq,
        Kernel.entries_exited (by simp [hq, ProcState.phase]) hprocess]
    exact ⟨by simp [hretire, Kernel.retire], fun _ => hretire⟩

end Xv6
