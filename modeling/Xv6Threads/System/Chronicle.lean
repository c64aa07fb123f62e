-- SUMMARY: A record of births, exits and reapings along a run, to tell apart the processes that use one slot.
import Xv6Threads.System.Rings
import Xv6Threads.System.Lineage

/-!
# Chronicle

A slot is used by one process after the other, and what `wait` and
`thread_join` return is said of processes, not of slots. The chronicle of a run
numbers the occupants of every slot: `births` counts how often a slot has been
taken, so a slot and its count name one process or thread for good. With that it
records who made whom and which value the call returned, whom an exit has handed
to init, who has exited with which status, and who has been reaped.
-/

namespace Xv6

structure Chronicle where
  births : Slot → Nat
  /-- who made the process or thread in a slot: caller, its birth, and the value
  that `fork` or `thread_create` returned to it -/
  origin : Slot → Option (Slot × Nat × Int)
  /-- children handed to init -/
  handed : List (Slot × Nat)
  /-- who has exited, and the status -/
  exits : List (Slot × Nat × Int)
  /-- threads for which a `thread_join` has returned -/
  joined : List (Slot × Nat)
  /-- the pids that `wait` has returned -/
  waited : List Int

def Chronicle.start : Chronicle := ⟨fun _ => 0, fun _ => none, [], [], [], []⟩

/-- The call asks for a new slot. -/
def Event.makes : Event → Option Slot
  | .call p .fork => some p
  | .call p (.threadCreate _ _) => some p
  | _ => none

/-- The status with which a process or thread exits. -/
def Kernel.lastWords (k : Kernel) (e : Event) (p : Slot) : Int :=
  if (k.proc p).isThread then 0 else e.status

namespace Kernel

/-- The thread for which a `thread_join` is about to return. -/
def joins (k : Kernel) (e : Event) : Option Slot :=
  match k.awaits e with
  | some (p, .join tid) => k.findJoin p tid
  | _ => none

/-- The child for which a `wait` is about to return. -/
def waitsFor (k : Kernel) (e : Event) : Option Slot :=
  match k.awaits e with
  | some (p, .wait addr) => k.waitReaps p addr
  | _ => none

/-- Write down what event `e` does at `k`. -/
def record (k : Kernel) (e : Event) (h : Chronicle) : Chronicle where
  births :=
    match e.makes, k.findUnused with
    | some _, some np => Function.update h.births np (h.births np + 1)
    | _, _ => h.births
  origin :=
    match e.makes, k.findUnused, k.step e with
    | some p, some np, .ok (some v, _) => Function.update h.origin np (some (p, h.births p, v))
    | _, _, _ => h.origin
  handed :=
    match e.exits with
    | none => h.handed
    | some p =>
      if (k.proc p).isThread then h.handed
      else (((List.finRange nproc).filter fun c => (k.proc c).parent = some p).map
        fun c => (c, h.births c)) ++ h.handed
  exits :=
    match e.exits with
    | none => h.exits
    | some p => (p, h.births p, k.lastWords e p) :: h.exits
  joined :=
    match k.joins e with
    | none => h.joined
    | some c => (c, h.births c) :: h.joined
  waited :=
    match k.waitsFor e with
    | none => h.waited
    | some c => (k.proc c).pid :: h.waited

end Kernel

/-- The kernel with its chronicle. -/
def chronicled (b : Boot) : Lts (Kernel × Chronicle) Event := (system b).withHistory .start Kernel.record

variable {b : Boot} {k k' : Kernel} {e : Event} {E' : Entries} {p q c L : Slot} {r : Option Int}
  {h : Chronicle}

/-! ## Births -/

theorem Kernel.record_births (h : Chronicle) (c : Slot) :
    (k.record e h).births c = if e.makes.isSome ∧ k.findUnused = some c then h.births c + 1 else h.births c := by
  unfold Kernel.record
  dsimp only
  cases e.makes with
  | none => simp
  | some p =>
    cases k.findUnused with
    | none => simp
    | some np =>
      by_cases hc : c = np
      · subst hc; simp
      · simp [hc, Ne.symm hc]

/-- The number of a slot in use does not change. -/
theorem Kernel.record_births_of_used (hc : (k.entries c).phase ≠ .unused) :
    (k.record e h).births c = h.births c := by
  rw [Kernel.record_births, if_neg]
  exact fun hn => hc (Kernel.findUnused_phase hn.2)

theorem Kernel.record_births_le (c : Slot) : h.births c ≤ (k.record e h).births c := by
  rw [Kernel.record_births]
  split <;> omega

theorem Kernel.record_origin_of_used (hc : (k.entries c).phase ≠ .unused) :
    (k.record e h).origin c = h.origin c := by
  unfold Kernel.record
  dsimp only
  cases e.makes with
  | none => rfl
  | some p =>
    cases hfind : k.findUnused with
    | none => rfl
    | some np =>
      have hne : c ≠ np := fun heq => hc (heq ▸ Kernel.findUnused_phase hfind)
      cases k.step e with
      | error _ => rfl
      | ok res =>
        obtain ⟨v, k'⟩ := res
        cases v with
        | none => rfl
        | some v => exact Function.update_of_ne hne _ _

theorem Kernel.record_origin_of_taken {v : Int} (hm : e.makes = some p) (hfind : k.findUnused = some c)
    (hstep : k.step e = .ok (some v, k')) : (k.record e h).origin c = some (p, h.births p, v) := by
  unfold Kernel.record
  simp [hm, hfind, hstep]

theorem Kernel.mem_record_handed {a : Slot × Nat} (ha : a ∈ h.handed) : a ∈ (k.record e h).handed := by
  unfold Kernel.record
  dsimp only
  split
  · exact ha
  · split
    · exact ha
    · exact List.mem_append_right _ ha

/-- A process that exits hands on every child it has. -/
theorem Kernel.record_handed_of_exit (he : e.exits = some p) (ht : (k.entries p).isThread = false)
    (hc : (k.entries c).parent = some p) : (c, h.births c) ∈ (k.record e h).handed := by
  have ht' : (k.proc p).isThread = false := ht
  have hc' : (k.proc c).parent = some p := hc
  unfold Kernel.record
  simp [he, ht', hc']

theorem Kernel.mem_record_exits {a : Slot × Nat × Int} (ha : a ∈ h.exits) : a ∈ (k.record e h).exits := by
  unfold Kernel.record
  dsimp only
  split
  · exact ha
  · exact List.mem_cons_of_mem _ ha

theorem Kernel.record_exits_of_exit (he : e.exits = some p) :
    (p, h.births p, k.lastWords e p) ∈ (k.record e h).exits := by
  unfold Kernel.record
  simp [he]

theorem Kernel.mem_record_joined {a : Slot × Nat} (ha : a ∈ (k.record e h).joined) :
    a ∈ h.joined ∨ ∃ c, k.joins e = some c ∧ a = (c, h.births c) := by
  unfold Kernel.record at ha
  dsimp only at ha
  split at ha
  · exact .inl ha
  · rename_i c hj
    rcases List.mem_cons.1 ha with rfl | ha
    · exact .inr ⟨c, hj, rfl⟩
    · exact .inl ha

/-! ## Groups stay together -/

/-- A slot in use keeps its leader, or its whole group is released. -/
theorem Move.leader_kept (hm : Move k e E') (hp : (k.entries p).groupLeader = some L)
    (hen : (k.entries p).Enrolled) :
    (E' p).groupLeader = some L ∨
      ∀ c, (k.entries c).groupLeader = some L → (k.entries c).Enrolled → (E' c).isThread = false := by
  have hne : ∀ {np}, k.findUnused = some np → p ≠ np :=
    fun hf heq => hen.1 (heq ▸ Kernel.findUnused_phase hf)
  have hfound : ∀ q, (k.entries.found q p).groupLeader = some L := by
    intro q
    by_cases hq : p = q
    · subst hq
      rw [Kernel.found_groupLeader]
      simp [Kernel.leaderOf, show (k.proc p).groupLeader = some L from hp]
    · rw [Entries.found_of_ne hq]
      exact hp
  have hdrop : ∀ {q L' : Slot} {x : Entry}, x.groupLeader = (k.entries q).groupLeader →
      (Function.update (Function.update k.entries L' (k.entries L').dropRef) q x p).groupLeader = some L := by
    intro q L' x hx
    by_cases hq : p = q
    · subst hq
      rw [Function.update_self, hx]
      exact hp
    · rw [Function.update_of_ne hq]
      by_cases hL : p = L'
      · subst hL
        rw [Function.update_self, ((k.entries p).dropRef_sameGroup).leader]
        exact hp
      · rw [Function.update_of_ne hL]
        exact hp
  cases hm with
  | quiet => exact .inl hp
  | strike _ q _ =>
    refine .inl ?_
    by_cases hq : p = q
    · subst hq
      rw [Function.update_self]
      exact hp
    · rw [Function.update_of_ne hq]
      exact hp
  | allocFail _ np _ hfind =>
    rw [Function.update_of_ne (hne hfind)]
    exact .inl hp
  | fork _ np _ hfind =>
    rw [Function.update_of_ne (hne hfind)]
    exact .inl hp
  | create q np _ start arg ms x _ hfind _ _ _ =>
    refine .inl ?_
    simpa [Entries.linkIn, hne hfind] using hfound q
  | createBad q np _ start arg x _ hfind _ _ =>
    rw [Function.update_of_ne (hne hfind)]
    exact .inl (hfound q)
  | threadExit _ q L' _ _ _ _ _ => exact .inl (hdrop rfl)
  | processExit _ q _ _ _ => exact .inl hp
  | reapThread _ q L' _ _ _ _ => exact .inl (hdrop rfl)
  | reapProcess _ q _ _ hq =>
    refine .inl ?_
    have hpq : p ≠ q := fun heq => by rw [heq, hq] at hp; cases hp
    rw [Function.update_of_ne hpq]
    exact hp
  | reapGroup _ L' ms chan files _ _ hg _ =>
    by_cases hmem : p ∈ L' :: ms
    · -- the group that is released is the one of `p`
      refine .inr fun c hc hcen => ?_
      obtain rfl : L' = L := Option.some.inj (((hg.mem_iff p).1 hmem).1.symm.trans hp)
      have hcmem := (hg.mem_iff c).2 ⟨hc, hcen⟩
      by_cases hcL : c = L'
      · simp [Entries.disband, hcL, Entry.clear]
      · simp [Entries.disband, hcL, (List.mem_cons.1 hcmem).resolve_left hcL, Entry.release]
    · refine .inl ?_
      simp only [List.mem_cons, not_or] at hmem
      simpa [Entries.disband, hmem.1, hmem.2] using hp

/-- A slot in use is not left behind later. -/
theorem Move.used_of_used (hm : Move k e E') (hu : (k.entries p).phase ≠ .unused)
    (hne : (k.entries p).phase ≠ .used) : (E' p).phase ≠ .used := by
  intro hused
  cases hm.kin p with
  | kept hph _ _ => exact hne (hph ▸ hused)
  | exited _ _ hph _ _ => rw [hph] at hused; cases hused
  | adopted _ _ _ _ _ _ _ hph _ => exact hne (hph ▸ hused)
  | reaped _ _ _ _ _ hph _ _ => rw [hph] at hused; cases hused
  | freed _ hph _ _ => rw [hph] at hused; cases hused
  | forked _ _ _ hfind _ _ _ _ => exact hu (Kernel.findUnused_phase hfind)
  | created _ _ _ _ _ hfind _ _ _ _ _ => exact hu (Kernel.findUnused_phase hfind)
  | failed hfind _ _ _ => exact hu (Kernel.findUnused_phase hfind)
  | stranded _ _ _ _ hfind _ _ _ => exact hu (Kernel.findUnused_phase hfind)

/-- Who has started a thread is in the group of the thread. -/
theorem Move.creator_leader {start arg : Nat} (hm : Move k e E') (he : e = .call p (.threadCreate start arg))
    (hne : p ≠ c) (hact : (E' c).phase = .active) (hfind : k.findUnused = some c) :
    (E' p).groupLeader = some (k.leaderOf p) := by
  have hc := Kernel.findUnused_phase hfind
  cases hm with
  | quiet => rw [hc] at hact; cases hact
  | strike _ q hq => subst he; cases hq
  | allocFail _ np _ hfind' =>
    obtain rfl := Option.some.inj (hfind'.symm.trans hfind)
    rw [Function.update_self] at hact
    cases hact
  | fork p' np _ hfind' => cases he
  | create p' np L start' arg' ms x hp hfind' hL hg hx =>
    cases he
    obtain rfl := Option.some.inj (hfind'.symm.trans hfind)
    simpa [Entries.linkIn, hne] using Kernel.found_groupLeader k p
  | createBad p' np L start' arg' x hp hfind' hL hx =>
    obtain rfl := Option.some.inj (hfind'.symm.trans hfind)
    rw [Function.update_self, hx] at hact
    cases hact
  | threadExit _ q L hq => subst he; cases hq
  | processExit _ q hq => subst he; cases hq
  | reapThread _ q L hr => subst he; cases hr
  | reapProcess _ q hr => subst he; cases hr
  | reapGroup _ L ms chan files hr => subst he; cases hr

/-! ## Concrete runs -/

/-- Boot, run and write down. -/
def Boot.recite (b : Boot) (G : Kernel → Event → Prop) [∀ k e, Decidable (G k e)] (es : List Event) :
    Option (Kernel × Chronicle) :=
  b.runWith Kernel.record (fun s => G s.1) .start es

/-- A run whose last state and chronicle pass a test. -/
theorem exists_reaches_of_recite {G : Kernel → Event → Prop} [∀ k e, Decidable (G k e)]
    {es : List Event} {c : Kernel × Chronicle → Bool} (hrun : (b.recite G es).any c = true) :
    ∃ s, (chronicled b).Reaches (fun s => G s.1) s ∧ c s = true :=
  exists_reaches_of_runWith hrun

end Xv6
