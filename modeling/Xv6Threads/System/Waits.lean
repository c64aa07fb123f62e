-- SUMMARY: What wait returns: the pid of an exited child that the caller has forked, once, with the status it exited with.
import Xv6Threads.System.Chronicle

/-!
# Waits

`wait` picks the first exited child by the address of its parent's slot. It
does not look at `is_thread`, so it also takes exited threads, and the children
of a thread keep the address of its slot when the thread exits. `Trusty` names
the steps where none of this happens; along them the chronicle says of every
child process who has forked it and with which status it has exited.
-/

namespace Xv6

variable {b : Boot} {k k' : Kernel} {e : Event} {E' : Entries} {p q c L : Slot} {r : Option Int}
  {h : Chronicle}

/-! ## The condition on steps -/

namespace Kernel

/-- The process that carries out a round of `wait`. -/
def waiter (k : Kernel) (e : Event) : Option Slot :=
  match k.awaits e with
  | some (p, .wait _) => some p
  | _ => none

/-- All children of `q` are threads. -/
def OnlyThreads (k : Kernel) (q : Slot) : Prop :=
  ∀ c, (k.proc c).parent = some q → (k.entries c).Enrolled → (k.proc c).isThread = true

instance (k : Kernel) (q : Slot) : Decidable (k.OnlyThreads q) :=
  inferInstanceAs (Decidable (∀ _, _ → _ → _))

/-- Before each exited thread that a `wait` of `p` could take there is an exited
process. -/
def TakesProcess (k : Kernel) (p : Slot) : Prop :=
  ∀ t, (k.proc t).parent = some p → (k.proc t).state = .zombie → (k.proc t).isThread = true →
    ∃ c, c < t ∧ (k.proc c).parent = some p ∧ (k.proc c).state = .zombie ∧ (k.proc c).isThread = false

instance (k : Kernel) (p : Slot) : Decidable (k.TakesProcess p) :=
  inferInstanceAs (Decidable (∀ _, _ → _ → _ → ∃ _, _ ∧ _))

/-- Steps that do not confuse children: no `wait` takes an exited thread; no
thread exits, and none is released while it runs, before its child processes
are gone; the pid counter has not reached the largest `int`. -/
structure Trusty (k : Kernel) (e : Event) : Prop where
  first : ∀ p, k.waiter e = some p → k.TakesProcess p
  leave : ∀ q, e.exits = some q → (k.proc q).isThread = true → k.OnlyThreads q
  release : ∀ L, k.reaps e = some L → ∀ q, (k.proc q).groupLeader = some L →
    (k.proc q).state.phase = .active → k.OnlyThreads q
  pids : k.nextpid < 2 ^ 31 - 1

instance (k : Kernel) (e : Event) : Decidable (k.Trusty e) :=
  decidable_of_iff
    ((∀ p, k.waiter e = some p → k.TakesProcess p) ∧
      (∀ q, e.exits = some q → (k.proc q).isThread = true → k.OnlyThreads q) ∧
      (∀ L, k.reaps e = some L → ∀ q, (k.proc q).groupLeader = some L →
        (k.proc q).state.phase = .active → k.OnlyThreads q) ∧
      k.nextpid < 2 ^ 31 - 1)
    ⟨fun ⟨h₁, h₂, h₃, h₄⟩ => ⟨h₁, h₂, h₃, h₄⟩, fun ⟨h₁, h₂, h₃, h₄⟩ => ⟨h₁, h₂, h₃, h₄⟩⟩

end Kernel

/-! ## What the calls return -/

/-- `fork` returns the pid of the child. -/
theorem Kernel.fork_result {v : Int} (h : k.fork p = .ok (v, k')) (hfind : k.findUnused = some c)
    (hact : (k'.entries c).phase = .active) : v = (k'.entries c).pid := by
  unfold Kernel.fork at h
  obtain ⟨⟨o, k₁⟩, halloc, h⟩ := Except.bind_ok_iff.1 h
  split at h
  · rename_i k₂ heq
    cases heq
    cases h
    rcases Kernel.allocproc_none halloc with ⟨hnone, -⟩ | ⟨np, m, hfind', -, rfl⟩
    · rw [hnone] at hfind
      cases hfind
    · obtain rfl := Option.some.inj (hfind'.symm.trans hfind)
      simp [Kernel.entries, Proc.entry, Proc.clear, ProcState.phase] at hact
  rename_i np k₂ heq
  cases heq
  obtain rfl : np = c := Option.some.inj ((Kernel.allocproc_some halloc).1.symm.trans hfind)
  split at h
  · obtain ⟨⟨copied, m, new⟩, -, h⟩ := Except.bind_ok_iff.1 h
    dsimp only at h
    split at h
    · obtain ⟨k₂, hfree, h⟩ := Except.bind_ok_iff.1 h
      cases h
      obtain ⟨-, tf, pt, hnp⟩ := Kernel.allocproc_some_proc halloc
      rw [Kernel.freeproc_of_ungrouped (by simp [Kernel.setTable, hnp, Proc.claim])] at hfree
      obtain ⟨m', -, rfl⟩ := Kernel.freeSelf_ok hfree
      simp [Kernel.entries, Proc.entry, Proc.clear, ProcState.phase] at hact
    · obtain ⟨k₂, -, h⟩ := Except.bind_ok_iff.1 h
      obtain ⟨k₃, -, h⟩ := Except.bind_ok_iff.1 h
      cases h
      rfl
  · cases h

/-- A round of `wait`, by a call or by a switch to a process that slept in it. -/
theorem Kernel.step_wait {addr : Nat} (hen : k.enabled e = true) (ha : k.awaits e = some (p, .wait addr))
    (hstep : k.step e = .ok (r, k')) :
    ∃ k₁ : Kernel, k₁.entries = k.entries ∧ k₁.findZombie p = k.findZombie p ∧
      k₁.waitReaps p addr = k.waitReaps p addr ∧ k₁.mem = k.mem ∧
      (∀ q, (k₁.proc q).pagetable = (k.proc q).pagetable ∧ (k₁.proc q).xstate = (k.proc q).xstate) ∧
      k₁.wait p addr = .ok (r, k') := by
  cases e with
  | call q call =>
    cases call with
    | wait a =>
      cases ha
      exact ⟨k, rfl, rfl, rfl, rfl, fun _ => ⟨rfl, rfl⟩, hstep⟩
    | _ => cases ha
  | schedule q =>
    have hq : (k.proc q).state = .runnable := by simpa [Kernel.enabled] using hen
    simp only [Kernel.awaits] at ha
    split at ha
    · rename_i hres
      cases ha
      simp only [Kernel.step, Kernel.resume, hres] at hstep
      refine ⟨_, Kernel.switch_entries hq, Kernel.findZombie_switch hq, Kernel.waitReaps_switch hq addr, rfl,
        fun c => ?_, hstep⟩
      rw [Kernel.modify_proc]
      split <;> exact ⟨rfl, rfl⟩
    · cases ha
    · cases ha
  | _ => cases ha

/-- A round of `wait` that returns has failed, or has reaped a child. -/
theorem Kernel.wait_returns {addr : Nat} {v : Int} (h : k.wait p addr = .ok (some v, k')) :
    v = -1 ∨ ∃ c, k.waitReaps p addr = some c := by
  unfold Kernel.wait at h
  split at h
  · rename_i c hfind
    obtain ⟨⟨copied, k₁⟩, hcopy, h⟩ := Except.bind_ok_iff.1 h
    dsimp only at h
    split at h
    · cases h
      exact .inl rfl
    · rename_i hcopied
      refine .inr ⟨c, ?_⟩
      simp only [Bool.not_eq_true', Bool.not_eq_false] at hcopied
      simp [Kernel.waitReaps, hfind, hcopy, Except.toOption, hcopied]
  · split at h
    · cases h
      exact .inl rfl
    · cases h

/-- A round of `wait` that reaps `c` writes the status of `c` and releases the slot. -/
theorem Kernel.wait_reaps {addr : Nat} (h : k.wait p addr = .ok (r, k'))
    (hw : k.waitReaps p addr = some c) :
    r = some (k.entries c).pid ∧ ∃ k₁ : Kernel, k₁.entries = k.entries ∧ k₁.freeproc c = .ok k' ∧
      (addr = 0 → k₁.mem = k.mem) ∧
      (addr ≠ 0 → ∃ pt, (k.proc p).pagetable = some pt ∧
        pt.copyout k.mem addr (intBytes (k.proc c).xstate) = (true, k₁.mem)) := by
  obtain ⟨hfind, hcopied⟩ := Option.filter_eq_some_iff.1 hw
  unfold Kernel.wait at h
  rw [hfind] at h
  obtain ⟨⟨copied, k₁⟩, hcopy, h⟩ := Except.bind_ok_iff.1 h
  obtain rfl : copied = true := by simpa [hcopy, Except.toOption] using hcopied
  obtain ⟨k₂, hfree, h⟩ := Except.bind_ok_iff.1 h
  cases h
  unfold Kernel.copyStatus at hcopy
  split at hcopy
  · rename_i hzero
    cases hcopy
    exact ⟨rfl, k, rfl, hfree, fun _ => rfl, fun hne => absurd hzero hne⟩
  · rename_i hne
    split at hcopy
    · cases hcopy
    · rename_i pt hpt
      generalize hout : pt.copyout k.mem addr (intBytes (k.proc c).xstate) = out at hcopy
      obtain ⟨copied, m⟩ := out
      cases hcopy
      exact ⟨rfl, { k with mem := m }, rfl, hfree, fun hzero => absurd hzero hne, fun _ => ⟨pt, hpt, hout⟩⟩

/-- The first exited child is a process if every exited thread has one before it. -/
theorem Kernel.findZombie_process (hG : k.TakesProcess p) (hfind : k.findZombie p = some c) :
    (k.proc c).isThread = false := by
  by_contra hthread
  obtain ⟨hpar, hz⟩ := Kernel.findZombie_spec hfind
  obtain ⟨c', hlt, hpar', hz', -⟩ := hG c hpar hz (by simpa using hthread)
  obtain ⟨-, as, bs, hsplit, hbefore⟩ := List.find?_eq_some_iff_append.1 hfind
  have hsorted : (as ++ c :: bs).Pairwise (· < ·) := hsplit ▸ List.pairwise_lt_finRange nproc
  have hmem : c' ∈ as ++ c :: bs := hsplit ▸ List.mem_finRange c'
  rcases List.mem_append.1 hmem with hin | hin
  · have := hbefore c' hin
    simp [hpar', hz'] at this
  · rcases List.mem_cons.1 hin with rfl | hin
    · exact lt_irrefl _ hlt
    · have := List.rel_of_pairwise_cons (List.pairwise_append.1 hsorted).2.1 hin
      exact lt_asymm hlt this

theorem Kernel.waitsFor_spec (hw : k.waitsFor e = some c) :
    ∃ p addr, k.awaits e = some (p, .wait addr) ∧ k.waitReaps p addr = some c ∧ k.waiter e = some p := by
  unfold Kernel.waitsFor at hw
  split at hw
  · rename_i p addr ha
    exact ⟨p, addr, ha, hw, by simp [Kernel.waiter, ha]⟩
  · cases hw

/-- On a trusty step `wait` takes a process, and its slot is free then. -/
theorem Kernel.Trusty.waits (hG : k.Trusty e) (hE : k.entries.WellGrouped) (hen : k.enabled e = true)
    (hstep : k.step e = .ok (r, k')) (hw : k.waitsFor e = some c) :
    (k.entries c).isThread = false ∧ (k.entries c).phase = .zombie ∧ (k'.entries c).phase = .unused := by
  obtain ⟨p, addr, ha, hreaps, hwaiter⟩ := Kernel.waitsFor_spec hw
  obtain ⟨hfind, -⟩ := Option.filter_eq_some_iff.1 hreaps
  have hprocess := Kernel.findZombie_process (hG.first p hwaiter) hfind
  have hz := (Kernel.findZombie_spec hfind).2
  obtain ⟨k₁, hk₁, hfind₁, hreaps₁, -, -, hwait⟩ := Kernel.step_wait hen ha hstep
  obtain ⟨-, k₂, hk₂, hfree, -, -⟩ := Kernel.wait_reaps hwait (hreaps₁.trans hreaps)
  have hk : k₂.entries = k.entries := hk₂.trans hk₁
  have hzombie : (k.entries c).phase = .zombie := congrArg ProcState.phase hz
  have hz₂ : (k₂.proc c).state = .zombie :=
    ProcState.phase_zombie.1 ((congrArg Entry.phase (congrFun hk c)).trans hzombie)
  refine ⟨hprocess, hzombie, ?_⟩
  rcases Kernel.freeproc_entries (hk ▸ hE) hz₂ hfree with ⟨-, hk'⟩ | ⟨L, hne, hL, -⟩ | ⟨ms, -, -, hk'⟩
  · rw [hk', Function.update_self]
    rfl
  · rw [hk] at hL
    rcases hE.process c hprocess (Entry.enrolled_of_zombie hzombie) with hn | hself
    · rw [hn] at hL
      cases hL
    · exact absurd (Option.some.inj (hL.symm.trans hself)) hne
  · rw [hk']
    simp [Entries.disband, Entry.clear]

/-! ## Process ids -/

/-- A step changes the pid of no slot but the one it takes. -/
theorem Kin.pid {x : Entry} (hx : Kin k e c x) :
    x.pid = (k.entries c).pid ∨ k.findUnused = some c ∧ x.pid = k.nextpid := by
  cases hx with
  | kept _ _ hids => exact .inl hids.pid
  | exited _ _ _ _ hids => exact .inl hids.pid
  | adopted _ _ _ _ _ _ _ _ hids => exact .inl hids.pid
  | reaped _ _ _ _ _ _ _ hids => exact .inl hids.pid
  | freed _ _ _ hpid => exact .inl hpid
  | forked _ _ _ hfind _ _ _ hpid => exact .inr ⟨hfind, hpid⟩
  | created _ _ _ _ _ hfind _ _ _ _ hpid => exact .inr ⟨hfind, hpid⟩
  | failed hfind _ _ hpid => exact .inr ⟨hfind, hpid⟩
  | stranded _ _ _ _ hfind _ _ hpid => exact .inr ⟨hfind, hpid⟩

/-- A slot that is in use was in use before, or has been taken. -/
theorem Kin.used {x : Entry} (hx : Kin k e c x) (hu : x.phase ≠ .unused) :
    (k.entries c).phase ≠ .unused ∧ x.pid = (k.entries c).pid ∨
      k.findUnused = some c ∧ x.pid = k.nextpid := by
  cases hx with
  | kept hph _ hids => exact .inl ⟨hph ▸ hu, hids.pid⟩
  | exited _ hact _ _ hids => exact .inl ⟨by rw [hact]; nofun, hids.pid⟩
  | adopted _ _ _ _ _ _ _ hph hids => exact .inl ⟨hph ▸ hu, hids.pid⟩
  | reaped _ _ hz _ _ _ _ hids => exact .inl ⟨by rw [hz]; nofun, hids.pid⟩
  | freed _ hph _ _ => exact absurd hph hu
  | forked _ _ _ hfind _ _ _ hpid => exact .inr ⟨hfind, hpid⟩
  | created _ _ _ _ _ hfind _ _ _ _ hpid => exact .inr ⟨hfind, hpid⟩
  | failed _ hph _ _ => exact absurd hph hu
  | stranded _ _ _ _ hfind _ _ hpid => exact .inr ⟨hfind, hpid⟩

/-- Pids of slots in use are distinct, below the counter, and have not been
returned by `wait` before. -/
structure Pids (k : Kernel) (h : Chronicle) : Prop where
  counter : 0 < k.nextpid
  below : ∀ c, (k.entries c).pid < k.nextpid
  pos : ∀ c, (k.entries c).phase ≠ .unused → 0 < (k.entries c).pid
  distinct : ∀ c c', (k.entries c).phase ≠ .unused → (k.entries c').phase ≠ .unused →
    (k.entries c).pid = (k.entries c').pid → c = c'
  old : ∀ v ∈ h.waited, v < k.nextpid
  fresh : ∀ c, (k.entries c).phase ≠ .unused → (k.entries c).pid ∉ h.waited

theorem Kernel.mem_record_waited {v : Int} (hv : v ∈ (k.record e h).waited) :
    v ∈ h.waited ∨ ∃ c, k.waitsFor e = some c ∧ v = (k.entries c).pid := by
  unfold Kernel.record at hv
  dsimp only at hv
  split at hv
  · exact .inl hv
  · rename_i c hw
    rcases List.mem_cons.1 hv with rfl | hv
    · exact .inr ⟨c, hw, rfl⟩
    · exact .inl hv

theorem Pids.step (hp : Pids k h) (hG : k.Trusty e) (hE : k.entries.WellGrouped)
    (hen : k.enabled e = true) (hstep : k.step e = .ok (r, k')) : Pids k' (k.record e h) := by
  have hkin := fun c => (Kernel.step_move hE hen hstep).kin c
  have hpos := hp.counter
  -- the counter does not wrap
  have hnext : k'.nextpid = k.nextpid ∧ (∀ q, (k'.entries q).pid = (k.entries q).pid) ∨
      k'.nextpid = k.nextpid + 1 := by
    rcases (Kernel.step_treads hen hstep).nextpid with hsame | hwrap
    · exact .inl hsame
    · have := hG.pids
      refine .inr (hwrap.trans (Int.bmod_eq_of_le ?_ ?_))
      · omega
      · omega
  have hle : k.nextpid ≤ k'.nextpid := by rcases hnext with ⟨h, -⟩ | h <;> omega
  -- a slot whose pid is new has made the counter go on
  have hnew : ∀ c, (k'.entries c).pid = k.nextpid → k'.nextpid = k.nextpid + 1 := by
    intro c hc
    rcases hnext with ⟨-, hsame⟩ | h
    · have := hp.below c
      rw [← hsame c] at this
      omega
    · exact h
  have hbelow : ∀ c, (k'.entries c).pid < k'.nextpid := by
    intro c
    rcases (hkin c).pid with hsame | ⟨-, hpid⟩
    · have := hp.below c
      omega
    · have := hnew c hpid
      omega
  refine ⟨by omega, hbelow, fun c hc => ?_, fun c c' hc hc' hpid => ?_, fun v hv => ?_, fun c hc hv => ?_⟩
  · rcases (hkin c).used hc with ⟨hu, hsame⟩ | ⟨-, hpid⟩
    · rw [hsame]
      exact hp.pos c hu
    · rw [hpid]
      exact hpos
  · rcases (hkin c).used hc with ⟨hu, hsame⟩ | ⟨hfind, hnewpid⟩ <;>
      rcases (hkin c').used hc' with ⟨hu', hsame'⟩ | ⟨hfind', hnewpid'⟩
    · exact hp.distinct c c' hu hu' (hsame ▸ hsame' ▸ hpid)
    · have := hp.below c
      omega
    · have := hp.below c'
      omega
    · exact Option.some.inj (hfind.symm.trans hfind')
  · rcases Kernel.mem_record_waited hv with hv | ⟨c, -, rfl⟩
    · exact (hp.old v hv).trans_le hle
    · exact (hp.below c).trans_le hle
  · rcases Kernel.mem_record_waited hv with hv | ⟨c', hw, heq⟩
    · rcases (hkin c).used hc with ⟨hu, hsame⟩ | ⟨-, hnewpid⟩
      · exact hp.fresh c hu (hsame ▸ hv)
      · have := hp.old _ hv
        omega
    · obtain ⟨-, hz, hfree⟩ := hG.waits hE hen hstep hw
      rcases (hkin c).used hc with ⟨hu, hsame⟩ | ⟨-, hnewpid⟩
      · obtain rfl := hp.distinct c c' hu (by rw [hz]; nofun) (hsame ▸ heq)
        exact hc hfree
      · have := hp.below c'
        omega

/-! ## Exits -/

theorem Kernel.mem_record_exits_iff {a : Slot × Nat × Int} :
    a ∈ (k.record e h).exits ↔
      a ∈ h.exits ∨ ∃ p, e.exits = some p ∧ a = (p, h.births p, k.lastWords e p) := by
  unfold Kernel.record
  dsimp only
  cases e.exits with
  | none => simp
  | some p =>
    simp only [List.mem_cons, Option.some.injEq, exists_eq_left']
    exact or_comm

/-- Who has exited does not run, and an exited process has left one status. -/
structure Exits (k : Kernel) (h : Chronicle) : Prop where
  ended : ∀ a ∈ h.exits, a.2.1 ≤ h.births a.1 ∧
    (a.2.1 = h.births a.1 → (k.entries a.1).phase ≠ .active)
  status : ∀ c, (k.entries c).phase = .zombie → (k.entries c).isThread = false →
    ∀ st, (c, h.births c, st) ∈ h.exits ↔ st = (k.proc c).xstate

theorem Exits.ended_step (hx : Exits k h) (hE : k.entries.WellGrouped) (hen : k.enabled e = true)
    (hstep : k.step e = .ok (r, k')) {a : Slot × Nat × Int} (ha : a ∈ (k.record e h).exits) :
    a.2.1 ≤ (k.record e h).births a.1 ∧
      (a.2.1 = (k.record e h).births a.1 → (k'.entries a.1).phase ≠ .active) := by
  rcases Kernel.mem_record_exits_iff.1 ha with hold | ⟨p, he, rfl⟩
  · obtain ⟨hle, hend⟩ := hx.ended a hold
    have hmono := Kernel.record_births_le (k := k) (e := e) (h := h) a.1
    refine ⟨hle.trans hmono, fun heq => ?_⟩
    have hsame : (k.record e h).births a.1 = h.births a.1 := by omega
    have hidle := hend (heq.trans hsame)
    -- a slot that is taken gets a new number
    have htaken : e.makes.isSome → k.findUnused ≠ some a.1 := by
      intro hm hfind
      rw [Kernel.record_births, if_pos ⟨hm, hfind⟩] at hsame
      omega
    cases (Kernel.step_move hE hen hstep).kin a.1 with
    | kept hph _ _ => rwa [hph]
    | exited _ _ hph _ _ => rw [hph]; nofun
    | adopted _ _ _ _ _ _ _ hph _ => rwa [hph]
    | reaped _ _ _ _ _ hph _ _ => rw [hph]; nofun
    | freed _ hph _ _ => rw [hph]; nofun
    | forked _ he _ hfind _ _ _ _ => exact absurd hfind (htaken (by rw [he]; rfl))
    | created _ _ _ he _ hfind _ _ _ _ _ => exact absurd hfind (htaken (by rw [he]; rfl))
    | failed _ hph _ _ => rw [hph]; nofun
    | stranded _ _ _ _ _ hph _ _ => rw [hph]; nofun
  · refine ⟨Kernel.record_births_le p, fun _ => ?_⟩
    rw [(Kernel.step_exits hen hstep he).1]
    nofun

theorem Exits.status_step (hx : Exits k h) (hE : k.entries.WellGrouped) (hen : k.enabled e = true)
    (hstep : k.step e = .ok (r, k')) (hz : (k'.entries c).phase = .zombie)
    (hc : (k'.entries c).isThread = false) (st : Int) :
    (c, (k.record e h).births c, st) ∈ (k.record e h).exits ↔ st = (k'.proc c).xstate := by
  have ht := Kernel.step_treads hen hstep
  -- a process that has exited before: nothing is added for it
  have hkept : (k.entries c).phase = .zombie → (k.entries c).isThread = false →
      ((c, (k.record e h).births c, st) ∈ (k.record e h).exits ↔ st = (k'.proc c).xstate) := by
    intro hph hthread
    have hne : e.exits ≠ some c := fun he => by
      have hrun : (k.entries c).phase = .active := congrArg ProcState.phase (Kernel.exits_running hen he)
      rw [hrun] at hph
      cases hph
    rw [Kernel.record_births_of_used (by rw [hph]; nofun), Kernel.mem_record_exits_iff, ht.xstate c hne,
      ← hx.status c hph hthread st]
    refine or_iff_left ?_
    rintro ⟨p, he, heq⟩
    exact hne (he.trans (congrArg some (congrArg Prod.fst heq).symm))
  cases (Kernel.step_move hE hen hstep).kin c with
  | kept hph _ hids => exact hkept (hph ▸ hz) (hids.isThread ▸ hc)
  | exited he hact _ _ hids =>
    have hthread : (k.proc c).isThread = false := hids.isThread.symm.trans hc
    rw [Kernel.record_births_of_used (by rw [hact]; nofun), Kernel.mem_record_exits_iff, ht.status c he]
    simp only [hthread, Bool.false_eq_true, if_false]
    constructor
    · rintro (hold | ⟨p, he', heq⟩)
      · exact absurd hact ((hx.ended _ hold).2 rfl)
      · obtain rfl : c = p := congrArg Prod.fst heq
        have hst : st = k.lastWords e c := congrArg (fun a => a.2.2) heq
        rw [hst, Kernel.lastWords, hthread]
        rfl
    · rintro rfl
      refine .inr ⟨c, he, ?_⟩
      rw [Kernel.lastWords, hthread]
      rfl
  | adopted _ _ _ _ _ _ _ hph hids => exact hkept (hph ▸ hz) (hids.isThread ▸ hc)
  | reaped _ _ _ _ _ hph _ _ => rw [hph] at hz; cases hz
  | freed _ hph _ _ => rw [hph] at hz; cases hz
  | forked _ _ _ _ hph _ _ _ => rw [hph] at hz; cases hz
  | created _ _ _ _ _ _ hph _ _ _ _ => rw [hph] at hz; cases hz
  | failed _ hph _ _ => rw [hph] at hz; cases hz
  | stranded _ _ _ _ _ hph _ _ => rw [hph] at hz; cases hz

/-! ## Children -/

/-- What the chronicle says of the processes in the table. -/
structure Families (k : Kernel) (h : Chronicle) : Prop where
  grouped : k.entries.WellGrouped
  pids : Pids k h
  exits : Exits k h
  root : (k.entries k.initproc).parent = none ∧ (k.entries k.initproc).isThread = false ∧
    (k.entries k.initproc).Enrolled
  child : ∀ c, c ≠ k.initproc → (k.entries c).isThread = false → (k.entries c).Enrolled →
    (∃ p, (k.entries c).parent = some p ∧ (k.entries p).phase = .active ∧
      h.origin c = some (p, h.births p, (k.entries c).pid)) ∨
    ((k.entries c).parent = some k.initproc ∧ (c, h.births c) ∈ h.handed)

/-- Init is never reaped. -/
theorem Families.root_step (hf : Families k h) (hen : k.enabled e = true)
    (hstep : k.step e = .ok (r, k')) :
    (k'.entries k.initproc).parent = none ∧ (k'.entries k.initproc).isThread = false ∧
      (k'.entries k.initproc).Enrolled := by
  obtain ⟨hpar, hthread, hin⟩ := hf.root
  have hreaps : k.reaps e ≠ some k.initproc := fun hr => by
    obtain ⟨p, hp, -⟩ := Kernel.reaps_parent hen hr
    rw [hpar] at hp
    cases hp
  have hfind : k.findUnused ≠ some k.initproc := fun hu => hin.1 (Kernel.findUnused_phase hu)
  cases (Kernel.step_move hf.grouped hen hstep).kin k.initproc with
  | kept hph hp hids => exact ⟨hp.trans hpar, hids.isThread.trans hthread, by rwa [Entry.Enrolled, hph]⟩
  | exited _ _ hph hp hids =>
    refine ⟨?_, hids.isThread.trans hthread, by simp [Entry.Enrolled, hph]⟩
    rcases hp with hp | ⟨-, hself, -⟩
    · exact hp.trans hpar
    · rw [hpar] at hself
      cases hself
  | adopted _ _ _ _ _ hp _ _ _ => rw [hpar] at hp; cases hp
  | reaped _ hr _ _ _ _ _ _ => exact absurd hr hreaps
  | freed hfrees _ _ _ =>
    obtain ⟨L, hr, hnone, rfl⟩ | ⟨L, hr, ms, hg, hmem⟩ := exists_or.1 (hfrees.imp fun _ => and_or_left.1)
    · exact absurd hr hreaps
    · have hL := ((hg.mem_iff _).1 hmem).1
      rcases hf.grouped.process _ hthread hin with hn | hself
      · rw [hn] at hL
        cases hL
      · rw [← Option.some.inj (hself.symm.trans hL)] at hr
        exact absurd hr hreaps
  | forked _ _ _ hu _ _ _ _ => exact absurd hu hfind
  | created _ _ _ _ _ hu _ _ _ _ _ => exact absurd hu hfind
  | failed hu _ _ _ => exact absurd hu hfind
  | stranded _ _ _ _ hu _ _ _ => exact absurd hu hfind

/-- A parent that runs goes on, or hands its child to init. -/
theorem Families.parent_step (hf : Families k h) (hG : k.Trusty e) (hen : k.enabled e = true)
    (hstep : k.step e = .ok (r, k')) (hact : (k.entries p).phase = .active)
    (hpar : (k.entries c).parent = some p) (hthread : (k.entries c).isThread = false)
    (hin : (k.entries c).Enrolled) :
    (k'.entries p).phase = .active ∨
      ((k'.entries c).parent = some k.initproc ∧ (c, h.births c) ∈ (k.record e h).handed) := by
  have hkids : ¬ k.OnlyThreads p := fun ho => by
    have hc : (k.entries c).isThread = true := ho c hpar hin
    rw [hthread] at hc
    cases hc
  have hfind : k.findUnused ≠ some p := fun hu => by rw [Kernel.findUnused_phase hu] at hact; cases hact
  cases (Kernel.step_move hf.grouped hen hstep).kin p with
  | kept hph _ _ => exact .inl (hph.trans hact)
  | exited he _ _ _ _ =>
    by_cases hp : (k.entries p).isThread = true
    · exact absurd (hG.leave p he hp) hkids
    · have hp' : (k.entries p).isThread = false := by simpa using hp
      refine .inr ⟨?_, Kernel.record_handed_of_exit he hp' hpar⟩
      rw [(Kernel.step_exits hen hstep he).2 hp']
      simp [Kernel.retire, hpar]
  | adopted _ _ _ _ _ _ _ hph _ => exact .inl (hph.trans hact)
  | reaped _ _ hz _ _ _ _ _ => rw [hz] at hact; cases hact
  | freed hfrees _ _ _ =>
    obtain ⟨L, hr, hsplit⟩ := hfrees
    obtain ⟨-, -, hz, -⟩ := Kernel.reaps_parent hen hr
    rcases hsplit with ⟨-, rfl⟩ | ⟨ms, hg, hmem⟩
    · rw [hz] at hact
      cases hact
    · exact absurd (hG.release L hr p ((hg.mem_iff p).1 hmem).1 hact) hkids
  | forked _ _ _ hu _ _ _ _ => exact absurd hu hfind
  | created _ _ _ _ _ hu _ _ _ _ _ => exact absurd hu hfind
  | failed hu _ _ _ => exact absurd hu hfind
  | stranded _ _ _ _ hu _ _ _ => exact absurd hu hfind

theorem Families.child_step (hf : Families k h) (hG : k.Trusty e) (hen : k.enabled e = true)
    (hstep : k.step e = .ok (r, k')) (hc : c ≠ k.initproc) (hthread : (k'.entries c).isThread = false)
    (hin : (k'.entries c).Enrolled) :
    (∃ p, (k'.entries c).parent = some p ∧ (k'.entries p).phase = .active ∧
      (k.record e h).origin c = some (p, (k.record e h).births p, (k'.entries c).pid)) ∨
    ((k'.entries c).parent = some k.initproc ∧ (c, (k.record e h).births c) ∈ (k.record e h).handed) := by
  have hkept : (k'.entries c).parent = (k.entries c).parent → (k.entries c).SameIds (k'.entries c) →
      (k.entries c).Enrolled →
      (∃ p, (k'.entries c).parent = some p ∧ (k'.entries p).phase = .active ∧
        (k.record e h).origin c = some (p, (k.record e h).births p, (k'.entries c).pid)) ∨
      ((k'.entries c).parent = some k.initproc ∧
        (c, (k.record e h).births c) ∈ (k.record e h).handed) := by
    intro hpar hids hin
    have hthread' : (k.entries c).isThread = false := hids.isThread.symm.trans hthread
    rw [Kernel.record_births_of_used hin.1, Kernel.record_origin_of_used hin.1]
    rcases hf.child c hc hthread' hin with ⟨p, hp, hact, horigin⟩ | ⟨hp, hhanded⟩
    · rcases hf.parent_step hG hen hstep hact hp hthread' hin with hact' | hinit
      · refine .inl ⟨p, hpar.trans hp, hact', ?_⟩
        rw [Kernel.record_births_of_used (by rw [hact]; nofun), hids.pid]
        exact horigin
      · exact .inr hinit
    · exact .inr ⟨hpar.trans hp, Kernel.mem_record_handed hhanded⟩
  have hadopted : ∀ p, e.exits = some p → (k.entries p).isThread = false →
      (k.entries c).parent = some p → (k.entries c).phase ≠ .unused →
      (k'.entries c).parent = some k.initproc →
      (k'.entries c).parent = some k.initproc ∧
        (c, (k.record e h).births c) ∈ (k.record e h).handed := by
    intro p he hp hpar hu hpar'
    rw [Kernel.record_births_of_used hu]
    exact ⟨hpar', Kernel.record_handed_of_exit he hp hpar⟩
  have hm := Kernel.step_move hf.grouped hen hstep
  cases hm.kin c with
  | kept hph hpar hids => exact hkept hpar hids (by rwa [Entry.Enrolled, hph] at hin)
  | exited he hact _ hpar hids =>
    rcases hpar with hpar | ⟨hp, hself, hpar⟩
    · exact hkept hpar hids (Entry.enrolled_of_active hact)
    · exact .inr (hadopted c he hp hself (by rw [hact]; nofun) hpar)
  | adopted p he _ _ hp hpar hpar' hph _ => exact .inr (hadopted p he hp hpar (hph ▸ hin.1) hpar')
  | reaped _ _ hz _ _ _ hpar hids => exact hkept hpar hids (Entry.enrolled_of_zombie hz)
  | freed _ hph _ _ => exact absurd hph hin.1
  | forked p he hact hfind hph hpar _ _ =>
    have hpc : p ≠ c := fun heq => by rw [heq, Kernel.findUnused_phase hfind] at hact; cases hact
    subst he
    obtain ⟨⟨v, k₁⟩, hv, hr⟩ := Except.bind_ok_iff.1 hstep
    cases hr
    refine .inl ⟨p, hpar, ?_, ?_⟩
    · -- the caller is left as it is
      cases hm.kin p with
      | kept hph _ _ => exact hph.trans hact
      | exited he => cases he
      | adopted _ he => cases he
      | reaped _ hr => cases hr
      | freed hfrees =>
        obtain ⟨_, hr, -⟩ := hfrees
        cases hr
      | forked _ _ _ _ hph => exact hph
      | created _ _ _ _ _ _ hph => exact hph
      | failed hfind' => exact absurd (Option.some.inj (hfind'.symm.trans hfind)) hpc
      | stranded _ _ _ he => cases he
    · rw [Kernel.record_births_of_used (by rw [hact]; nofun), Kernel.record_origin_of_taken rfl hfind hstep,
        Kernel.fork_result hv hfind hph]
  | created _ _ _ _ _ _ _ _ ht _ _ => rw [ht] at hthread; cases hthread
  | failed _ hph _ _ => exact absurd hph hin.1
  | stranded _ _ _ _ _ hph _ _ => exact absurd hph hin.2

theorem Families.step (hf : Families k h) (hG : k.Trusty e) (hen : k.enabled e = true)
    (hstep : k.step e = .ok (r, k')) : Families k' (k.record e h) := by
  have hinit := (Kernel.step_treads hen hstep).initproc
  refine ⟨(Kernel.step_move hf.grouped hen hstep).wellGrouped hf.grouped,
    hf.pids.step hG hf.grouped hen hstep,
    ⟨fun a ha => hf.exits.ended_step hf.grouped hen hstep ha,
      fun c hz hc st => hf.exits.status_step hf.grouped hen hstep hz hc st⟩, ?_, fun c hc hthread hin => ?_⟩
  · rw [hinit]
    exact hf.root_step hen hstep
  · rw [hinit] at hc ⊢
    exact hf.child_step hG hen hstep hc hthread hin

theorem Boot.main_nextpid (hk : b.main = .ok k) : k.nextpid = 2 := by
  obtain ⟨p, k₁, pt, tf, f, m, b', m', pt', halloc, -, -, -, -, ir, regs, rfl⟩ := Kernel.userinit_ok hk
  obtain ⟨-, tf, m, pt, m', -, -, rfl⟩ := Kernel.allocproc_some halloc
  rfl

theorem families_of_main (hk : b.main = .ok k) : Families k .start := by
  obtain ⟨p, hne, hinit, hp⟩ := Boot.main_entries hk
  have hidle : ∀ q, q ≠ p → (k.entries q).phase = .unused ∧ (k.entries q).pid = 0 := by
    intro q hq
    simp [Kernel.entries, hne q hq, Proc.zero, Proc.entry, ProcState.phase]
  have honly : ∀ q, (k.entries q).phase ≠ .unused → q = p :=
    fun q hq => by_contra fun h => hq (hidle q h).1
  have hnext : k.nextpid = 2 := Boot.main_nextpid hk
  have hpid : (k.entries p).pid = 1 := by simp [hp]
  have hact : (k.entries p).phase = .active := by simp [hp]
  refine ⟨Boot.main_wellGrouped hk, ⟨by omega, fun c => ?_, fun c hc => ?_, fun c c' hc hc' _ => ?_, fun _ hc => (by cases hc),
    fun c _ => List.not_mem_nil⟩, ⟨fun _ hc => (by cases hc), fun c hz => ?_⟩, ?_, fun c hc _ hin => ?_⟩
  · by_cases hc : c = p
    · subst hc
      omega
    · have := (hidle c hc).2
      omega
  · obtain rfl := honly c hc
    omega
  · exact (honly c hc).trans (honly c' hc').symm
  · obtain rfl := honly c (by simp [hz])
    rw [hact] at hz
    cases hz
  · rw [hinit]
    exact ⟨by simp [hp, Proc.zero, Proc.entry], by simp [hp, Proc.zero, Proc.entry],
      Entry.enrolled_of_active hact⟩
  · exact absurd ((honly c hin.1).trans hinit.symm) hc

theorem families_of_reaches (hk : (chronicled b).Reaches (fun s => s.1.Trusty) (k, h)) : Families k h := by
  refine hk.invariant (P := fun s => Families s.1 s.2) ?_ ?_
  · rintro ⟨k, h⟩ ⟨hinit, rfl⟩
    exact families_of_main hinit
  · rintro ⟨k, h⟩ e ⟨k', h'⟩ hf hG ⟨⟨hen, r, hstep⟩, rfl⟩
    exact hf.step hG hen hstep

/-! ## wait in every run -/

/-- A `wait(addr)` of `p` at `k` that returns `v` has reaped the process in `c`:
`p` itself has forked it, or it was handed to init; it has exited with status
`st`, which is the value copied out; and no `wait` has returned `v` before. -/
structure WaitsChild (k : Kernel) (h : Chronicle) (e : Event) (p : Slot) (addr : Nat) (v : Int)
    (k' : Kernel) (c : Slot) : Prop where
  isThread : (k.proc c).isThread = false
  pid : (k.proc c).pid = v
  child : h.origin c = some (p, h.births p, v) ∨ p = k.initproc ∧ (c, h.births c) ∈ h.handed
  status : ∃ st, (∀ st', (c, h.births c, st') ∈ h.exits ↔ st' = st) ∧
    ∃ k₁ : Kernel, k₁.freeproc c = .ok k' ∧ (addr = 0 → k₁.mem = k.mem) ∧
      (addr ≠ 0 → ∃ pt, (k.proc p).pagetable = some pt ∧
        pt.copyout k.mem addr (Kernel.intBytes st) = (true, k₁.mem))
  fresh : v ∉ h.waited
  recorded : v ∈ (k.record e h).waited

/-- In every run of trusty steps, whenever `wait` of `p` returns a pid, it has
reaped a child process of `p` that has exited, with its status, and for the
first time. -/
theorem waits_of_reaches (hk : (chronicled b).Reaches (fun s => s.1.Trusty) (k, h)) {addr : Nat} {v : Int}
    (hG : k.Trusty e) (hen : k.enabled e = true) (ha : k.awaits e = some (p, .wait addr))
    (hstep : k.step e = .ok (some v, k')) (hv : 0 ≤ v) : ∃ c, WaitsChild k h e p addr v k' c := by
  have hf := families_of_reaches hk
  obtain ⟨k₁, hk₁, hfind₁, hreaps₁, hmem, hsame, hwait⟩ := Kernel.step_wait hen ha hstep
  obtain ⟨c, hreaps⟩ : ∃ c, k.waitReaps p addr = some c := by
    rcases Kernel.wait_returns hwait with rfl | ⟨c, hreaps⟩
    · cases hv
    · exact ⟨c, hreaps₁.symm.trans hreaps⟩
  have hw : k.waitsFor e = some c := by simp [Kernel.waitsFor, ha, hreaps]
  obtain ⟨hprocess, hz, -⟩ := hG.waits hf.grouped hen hstep hw
  obtain ⟨hfind, -⟩ := Option.filter_eq_some_iff.1 hreaps
  have hpar : (k.entries c).parent = some p := (Kernel.findZombie_spec hfind).1
  obtain ⟨hpid, k₂, -, hfree, hzero, hcopy⟩ := Kernel.wait_reaps hwait (hreaps₁.trans hreaps)
  have hv' : (k.entries c).pid = v := by
    rw [← hk₁]
    exact (Option.some.inj hpid).symm
  rw [hmem, (hsame p).1, (hsame c).2] at hcopy
  rw [hmem] at hzero
  refine ⟨c, hprocess, hv', ?_, ⟨(k.proc c).xstate, hf.exits.status c hz hprocess, k₂, hfree, hzero, hcopy⟩,
    ?_, ?_⟩
  · have hc : c ≠ k.initproc := fun heq => by
      rw [heq, hf.root.1] at hpar
      cases hpar
    rcases hf.child c hc hprocess (Entry.enrolled_of_zombie hz) with ⟨p', hp', -, horigin⟩ | ⟨hp', hhanded⟩
    · obtain rfl := Option.some.inj (hp'.symm.trans hpar)
      rw [← hv']
      exact .inl horigin
    · exact .inr ⟨Option.some.inj (hpar.symm.trans hp'), hhanded⟩
  · rw [← hv']
    exact hf.pids.fresh c (by rw [hz]; nofun)
  · unfold Kernel.record
    simp only [hw, List.mem_cons]
    exact .inl hv'.symm

/-- A child that has exited with status 7 is reaped by its parent, which asks for the status. -/
theorem waits_of_parent : ∃ k h k', (chronicled .standard).Reaches (fun s => s.1.Trusty) (k, h) ∧
    ∃ c, WaitsChild k h (.call ⟨0, by decide⟩ (.wait 100)) ⟨0, by decide⟩ 100 2 k' c := by
  have hrun : (Boot.standard.recite Kernel.Trusty
      [.schedule ⟨0, by decide⟩, .call ⟨0, by decide⟩ .fork, .schedule ⟨1, by decide⟩,
        .call ⟨1, by decide⟩ (.exit 7)]).any
      (fun s => decide (s.1.Trusty (.call ⟨0, by decide⟩ (.wait 100))) &&
        s.1.enabled (.call ⟨0, by decide⟩ (.wait 100)) &&
        (s.1.step (.call ⟨0, by decide⟩ (.wait 100))).toOption.any fun a => a.1 = some 2) = true := by
    decide +kernel
  obtain ⟨⟨k, h⟩, hk, hc⟩ := exists_reaches_of_recite hrun
  obtain ⟨hc, hany⟩ := Bool.and_eq_true_iff.1 hc
  obtain ⟨hG, hen⟩ := Bool.and_eq_true_iff.1 hc
  obtain ⟨⟨r, k'⟩, hstep, hr⟩ := (Option.any_eq_true _ _).1 hany
  obtain rfl : r = some 2 := by simpa using hr
  exact ⟨k, h, k', hk, waits_of_reaches hk (of_decide_eq_true hG) hen rfl
    (Except.toOption_eq_some_iff.1 hstep) (by decide)⟩

/-- A thread exits, and `wait` of its creator returns its pid. -/
theorem waits_of_thread : ¬ ∀ (b : Boot) (k : Kernel) (h : Chronicle),
    (chronicled b).Reaches (fun s => anyStep s.1) (k, h) → ∀ e p addr v k', k.enabled e = true →
      k.awaits e = some (p, .wait addr) → k.step e = .ok (some v, k') → 0 ≤ v →
      ∃ c, WaitsChild k h e p addr v k' c := by
  intro hall
  have hrun : (Boot.standard.recite anyStep
      [.schedule ⟨0, by decide⟩, .call ⟨0, by decide⟩ (.threadCreate 0 0), .schedule ⟨1, by decide⟩,
        .call ⟨1, by decide⟩ .threadExit]).any
      (fun s => s.1.enabled (.call ⟨0, by decide⟩ (.wait 0)) &&
        ((s.1.step (.call ⟨0, by decide⟩ (.wait 0))).toOption.any fun a => a.1 = some 2) &&
        decide (∀ c, (s.1.proc c).pid = 2 → (s.1.proc c).isThread = true)) = true := by
    decide +kernel
  obtain ⟨⟨k, h⟩, hk, hc⟩ := exists_reaches_of_recite hrun
  obtain ⟨hc, hthread⟩ := Bool.and_eq_true_iff.1 hc
  obtain ⟨hen, hany⟩ := Bool.and_eq_true_iff.1 hc
  obtain ⟨⟨r, k'⟩, hstep, hr⟩ := (Option.any_eq_true _ _).1 hany
  obtain rfl : r = some 2 := by simpa using hr
  obtain ⟨c, hw⟩ := hall _ k h hk _ _ 0 2 k' hen rfl (Except.toOption_eq_some_iff.1 hstep) (by decide)
  have := of_decide_eq_true hthread c hw.pid
  rw [hw.isThread] at this
  cases this

end Xv6
