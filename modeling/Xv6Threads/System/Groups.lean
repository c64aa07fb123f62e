-- SUMMARY: The process table is well grouped in every reachable state.
import Xv6Threads.Process.Moves

/-!
# Groups in every run

Every move keeps the table well grouped, so the rings are intact in every
state of every run, whatever the processes do.
-/

namespace Xv6

variable {b : Boot} {k k' : Kernel} {e : Event} {E' : Entries}

theorem Entry.dropRef_sameGroup (x : Entry) : Entries.SameGroup x x.dropRef := by
  unfold Entry.dropRef
  split
  · exact ⟨⟨.rfl, .rfl⟩, rfl, rfl, rfl, rfl⟩
  · exact .refl _

namespace Entries

variable {E : Entries} {L p : Slot} {ms : List Slot}

/-- Counting out a member and moving it from one state of exit to the next. -/
theorem WellGrouped.dropRef_update (h : E.WellGrouped) {ph : Phase} (hp : (E p).Enrolled) (hne : L ≠ p)
    (hph : ph ≠ .unused ∧ ph ≠ .used) :
    WellGrouped (Function.update (Function.update E L (E L).dropRef) p { E p with phase := ph }) := by
  refine (h.update_of_sameGroup (E L).dropRef_sameGroup).update_of_sameGroup ?_
  rw [Function.update_of_ne hne.symm]
  exact ⟨⟨⟨fun h => absurd h hph.1, fun h => absurd h hp.1⟩,
    ⟨fun h => absurd h hph.2, fun h => absurd h hp.2⟩⟩, rfl, rfl, rfl, rfl⟩

theorem WellGrouped.disband (h : E.WellGrouped) (hg : E.Group L ms) (chan : Slot → Option Chan)
    (files : Slot → Fin nofile → Option FileIx) : (E.disband L ms chan files).WellGrouped := by
  refine h.dissolve hg (fun q hq => ?_) fun q hq => ?_
  · by_cases hL : q = L
    · simp [Entries.disband, hL, Entry.clear]
    · have hms : q ∈ ms := (List.mem_cons.1 hq).resolve_left hL
      simp [Entries.disband, hL, hms, Entry.release]
  · simp only [List.mem_cons, not_or] at hq
    simp [Entries.disband, hq.1, hq.2]

end Entries

theorem Kernel.findUnused_phase {np : Slot} (h : k.findUnused = some np) :
    (k.entries np).phase = .unused := by
  simp [Kernel.entries, Proc.entry, Kernel.findUnused_unused h, ProcState.phase]

theorem Entry.enrolled_of_active {x : Entry} (h : x.phase = .active) : x.Enrolled := by
  simp [Entry.Enrolled, h]

theorem Entry.enrolled_of_zombie {x : Entry} (h : x.phase = .zombie) : x.Enrolled := by
  simp [Entry.Enrolled, h]

/-- Every move keeps the table well grouped. -/
theorem Move.wellGrouped (hm : Move k e E') (h : k.entries.WellGrouped) : E'.WellGrouped := by
  cases hm with
  | quiet => exact h
  | strike _ q _ => exact h.update_of_sameGroup ⟨⟨.rfl, .rfl⟩, rfl, rfl, rfl, rfl⟩
  | allocFail p np c hfind =>
    exact h.update_outside (.inl (h.idle np (Kernel.findUnused_phase hfind)).1) rfl (.inl rfl)
  | fork p np hp hfind =>
    have hidle := h.idle np (Kernel.findUnused_phase hfind)
    exact h.update_outside (.inl hidle.1) hidle.2 (.inl rfl)
  | create p np L start arg ms x hp hfind hL hg hx =>
    obtain ⟨hfound, -⟩ := Kernel.exists_found_group h hp
    have hnp : (k.entries.found p np).phase = .unused :=
      (Kernel.found_phase _ _ _).trans (Kernel.findUnused_phase hfind)
    exact (hfound.linkIn hg hnp (e := x) (by rw [hx]) (by rw [hx]) (by rw [hx]) (by rw [hx])
      (by rw [hx])).1
  | createBad p np L start arg x hp hfind hL hx =>
    subst hx
    obtain ⟨hfound, -⟩ := Kernel.exists_found_group h hp
    have hnp : (k.entries.found p np).phase = .unused :=
      (Kernel.found_phase _ _ _).trans (Kernel.findUnused_phase hfind)
    exact hfound.update_outside (.inl (hfound.idle np hnp).1)
      (h.idle np (Kernel.findUnused_phase hfind)).2 (.inr rfl)
  | threadExit _ p L _ hp _ _ hne =>
    exact h.dropRef_update (Entry.enrolled_of_active hp) hne (by simp)
  | processExit _ p _ hp hthread =>
    refine h.of_sameGroup fun q => ⟨?_, rfl, rfl, rfl, rfl⟩
    by_cases hq : q = p
    · subst hq
      simp [Kernel.retire, hp]
    · simp [Kernel.retire, hq]
  | reapThread _ q L _ hq _ hne =>
    exact h.dropRef_update (Entry.enrolled_of_zombie hq) hne (by simp)
  | reapProcess _ q _ hq hL => exact h.update_outside (.inl hL) rfl (.inl rfl)
  | reapGroup _ L ms chan files _ hq hg _ => exact h.disband hg chan files

/-- The entries of the first state: one process, alone. -/
theorem Boot.main_entries (h : b.main = .ok k) : ∃ p,
    (∀ q, q ≠ p → k.proc q = .zero) ∧ k.initproc = p ∧
      k.entries p = { Proc.zero.entry with phase := .active, pid := 1, chan := none, cwd := none } := by
  obtain ⟨p, k₁, pt, tf, f, m, b', m', pt', halloc, -, -, -, -, ir, regs, rfl⟩ := Kernel.userinit_ok h
  obtain ⟨hne, tf', pt'', hp⟩ := Kernel.allocproc_some_proc halloc
  refine ⟨p, fun q hq => ?_, rfl, ?_⟩
  · simp [hq, hne q hq, Boot.procinit]
  · simp only [Kernel.entries, Function.update_self, hp]
    simp [Boot.procinit, Proc.entry, Proc.claim, Proc.zero, Proc.KeepsFiles, ProcState.phase]

theorem Boot.main_wellGrouped (h : b.main = .ok k) : k.entries.WellGrouped := by
  obtain ⟨p, hne, -, hp⟩ := Boot.main_entries h
  have hzero : ∀ q, (k.entries q).groupLeader = none ∧ (k.entries q).isThread = false := by
    intro q
    by_cases hq : q = p
    · subst hq; simp [hp, Proc.zero, Proc.entry]
    · simp [Kernel.entries, hne q hq, Proc.zero, Proc.entry]
  refine ⟨fun q _ => hzero q, fun q L hL _ => ?_, fun q hq => ?_, fun q _ _ => .inl (hzero q).1⟩
  · rw [(hzero q).1] at hL; cases hL
  · rw [(hzero q).2] at hq; cases hq

/-- In every state of every run the table is well grouped. -/
theorem wellGrouped_of_reaches {G : Kernel → Event → Prop} (h : (system b).Reaches G k) :
    k.entries.WellGrouped := by
  refine h.invariant (P := fun k => k.entries.WellGrouped) (fun k hk => Boot.main_wellGrouped hk) ?_
  rintro k e k' hk - ⟨hen, r, hstep⟩
  exact (Kernel.step_move hk hen hstep).wellGrouped hk

end Xv6
