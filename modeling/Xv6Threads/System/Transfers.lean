-- SUMMARY: Every step moves pages in one of a few ways, and the rooms of the slots stay in order.
import Xv6Threads.Process.Sharing
import Xv6Threads.System.Groups

/-!
# Transfers

`Transfer` lists what a step can do to the rooms, the owned pages and the
counts, as `Move` lists what it can do to the entries. The properties of whole
runs follow from the two together. `Housed` is what the calls rely on: unused
slots hold no memory, exited processes have no table, and every table maps its
trapframe above the user pages.

Two calls work on every table of a group with an address that has to be page
aligned, and one of them frees pages once for every member. `Tidy` excludes
these.
-/

namespace Xv6

open PageTable

variable {k k' k₁ : Kernel} {e : Event} {E' : Entries} {p q : Slot}

namespace Kernel

/-- The sizes of a group stay page aligned, and memory is given back only by a
process that shares it with nobody. -/
def Tidy (k : Kernel) : Event → Prop
  | .call p (.sbrk n) =>
    (0 < n.toInt → (k.rooms p).size % pgSize = 0 ∨ k.Alone p) ∧ (n.toInt < 0 → k.Alone p)
  | .call p (.threadCreate _ _) => (k.rooms p).size % pgSize = 0
  | _ => True

/-- Who exits is running. -/
theorem exits_running (hen : k.enabled e = true) (h : e.exits = some p) :
    (k.proc p).state = .running := by
  cases e with
  | call q call =>
    have hq : (k.proc q).state = .running ∧ (k.proc q).killed = false := by
      simpa [enabled] using hen
    cases call with
    | exit status => cases h; exact hq.1
    | threadExit => cases h; exact hq.1
    | _ => cases h
  | die q =>
    have hq : (k.proc q).state = .running ∧ (k.proc q).killed = true := by
      simpa [enabled] using hen
    cases h
    exact hq.1
  | _ => cases h

/-- Slot `q` was emptied; it had no table left. -/
structure Clears (k : Kernel) (q : Slot) (k' : Kernel) : Prop where
  ungrouped : (k.entries q).groupLeader = none
  table : (k.rooms q).table = none
  rooms : k'.rooms = Function.update k.rooms q .empty
  kend : k'.mem.kend = k.mem.kend
  refcount : k'.mem.refcount = k.mem.refcount
  owned : ∀ w, k'.owned w = k.owned w

/-- A failed `fork` has lost pages. -/
structure Loses (k k' : Kernel) : Prop where
  rooms : k'.rooms = k.rooms
  kend : k'.mem.kend = k.mem.kend
  refcount : k'.mem.refcount = k.mem.refcount
  owned : ∀ w, k'.owned w ≤ k.owned w

/-- No page changed its owner, and nobody needs less room than before. -/
structure Rests (k k' : Kernel) : Prop extends k.Balanced k' where
  unused : ∀ q, (k'.entries q).phase = .unused → (k.entries q).phase = .unused
  zombie : ∀ q, (k'.entries q).phase = .zombie → (k'.entries q).isThread = false →
    (k.entries q).phase = .zombie ∧ (k.entries q).isThread = false

end Kernel

/-- What a step does to the pages. -/
inductive Transfer (k : Kernel) : Event → Kernel → Prop
  | rest {e : Event} {k' : Kernel} : k.Rests k' → Transfer k e k'
  | forkLost {p : Slot} {k' : Kernel} : k.Loses k' → Transfer k (.call p .fork) k'
  | fork {p np : Slot} {pt : PageTable} {tf : Ppn} {k' : Kernel} : k.Copies p np pt tf k' →
      Transfer k (.call p .fork) k'
  | execBad {p : Slot} {path : String} {img : Image} {argv : List (List UInt8)} {pt : PageTable}
      {k' : Kernel} : img.header = true → k.Scraps k' pt →
      Transfer k (.call p (.exec path (some img) argv)) k'
  | exec {p : Slot} {path : String} {img : Image} {argv : List (List UInt8)} {old pt : PageTable}
      {sz : Nat} {k' : Kernel} : img.header = true → (k.entries p).phase = .active →
      k.Replaces p k' old pt sz → Transfer k (.call p (.exec path (some img) argv)) k'
  | grow {p : Slot} {n : Int32} {l : List Slot} {pt pt' : PageTable} {lo hi : Nat} {k' : Kernel} :
      0 < n.toInt → (k.entries p).phase = .active → k.Team p l → p ∈ l → k'.entries = k.entries →
      k.Grows p l k' pt pt' lo hi → Transfer k (.call p (.sbrk n)) k'
  | shrink {p : Slot} {n : Int32} {pt pt' : PageTable} {lo hi : Nat} {k' : Kernel} :
      n.toInt < 0 → (k.entries p).phase = .active → k.Alone p → k.Shrinks p n.toInt k' pt pt' lo hi →
      Transfer k (.call p (.sbrk n)) k'
  | create {p np : Slot} {start arg : Nat} {l : List Slot} {pt npt : PageTable} {tf stack : Ppn} {v : Nat}
      {k' : Kernel} : (k.entries p).phase = .active → k.Team p l → p ∈ l →
      k.Spawns p l k' np pt npt tf stack v → Transfer k (.call p (.threadCreate start arg)) k'
  | createBad {p np : Slot} {start arg : Nat} {pt npt : PageTable} {tf : Ppn} {hi : Nat} {k' : Kernel} :
      (k.entries p).phase = .active → k.Strands p k' np pt npt tf hi →
      Transfer k (.call p (.threadCreate start arg)) k'
  | exit {e : Event} {p : Slot} {k' : Kernel} : e.exits = some p → (k.entries p).phase = .active →
      (k.entries p).isThread = false → k.Vacates p k' → Transfer k e k'
  | reapProcess {e : Event} {q : Slot} {k' : Kernel} : k.reaps e = some q → k.Clears q k' →
      Transfer k e k'
  | reapGroup {e : Event} {L : Slot} {ms : List Slot} {k' : Kernel} : k.reaps e = some L →
      k.Dissolves L ms k' → Transfer k e k'

/-! ## What a move does to one slot -/

/-- The slots that a step sets free: the one it reaps, and its group. -/
def Kernel.Frees (k : Kernel) (e : Event) (q : Slot) : Prop :=
  ∃ r, k.reaps e = some r ∧
    (((k.entries r).groupLeader = none ∧ q = r) ∨ ∃ ms, k.entries.Group r ms ∧ q ∈ r :: ms)

/-- From one phase of its life to the next. -/
inductive Shift (k : Kernel) (e : Event) (q : Slot) (x : Entry) : Prop
  | same : x.phase = (k.entries q).phase → x.isThread = (k.entries q).isThread →
      x.groupLeader.getD q = k.leaderOf q → Shift k e q x
  | taken : k.findUnused = some q → x.phase ≠ .zombie → x.phase ≠ .ghost → Shift k e q x
  | exited : e.exits = some q → x.phase = .zombie → x.isThread = (k.entries q).isThread →
      x.groupLeader.getD q = k.leaderOf q → Shift k e q x
  | reaped : (k.entries q).phase = .zombie → x.phase = .ghost → x.groupLeader.getD q = k.leaderOf q →
      Shift k e q x
  | freed : k.Frees e q → x.phase = .unused → Shift k e q x

theorem Shift.of_eq {x : Entry} (h : x = k.entries q) : Shift k e q x := by
  subst h
  exact .same rfl rfl rfl

theorem Shift.dropRef (k : Kernel) (e : Event) (q : Slot) : Shift k e q (k.entries q).dropRef := by
  unfold Entry.dropRef
  split <;> exact .same rfl rfl rfl

theorem Shift.found (k : Kernel) (e : Event) (p q : Slot) : Shift k e q (k.entries.found p q) := by
  by_cases hq : q = p
  · subst hq
    unfold Entries.found
    split
    · rename_i hnone
      have hL : k.leaderOf q = q := congrArg (Option.getD · q) hnone
      rw [Function.update_self]
      exact .same rfl rfl hL.symm
    · exact .of_eq rfl
  · exact .of_eq (Entries.found_of_ne hq)

theorem Move.shift (hm : Move k e E') (q : Slot) : Shift k e q (E' q) := by
  cases hm with
  | quiet => exact .of_eq rfl
  | strike _ x _ =>
    by_cases hq : q = x
    · subst hq
      rw [Function.update_self]
      exact .same rfl rfl rfl
    · exact .of_eq (Function.update_of_ne hq _ _)
  | allocFail p np c hfind =>
    by_cases hq : q = np
    · subst hq
      rw [Function.update_self]
      exact .taken hfind (by simp [Entry.clear]) (by simp [Entry.clear])
    · exact .of_eq (Function.update_of_ne hq _ _)
  | fork p np hp hfind =>
    by_cases hq : q = np
    · subst hq
      rw [Function.update_self]
      exact .taken hfind (by simp) (by simp)
    · exact .of_eq (Function.update_of_ne hq _ _)
  | create p np L start arg ms x hp hfind hL hg hx =>
    by_cases hq : q = np
    · subst hq
      have : (k.entries.found p).linkIn L q x q = x := by simp [Entries.linkIn]
      rw [this, hx]
      exact .taken hfind (by simp) (by simp)
    · -- the links around the new thread change, nothing else
      rw [Entries.linkIn, if_neg hq]
      cases Shift.found k (.call p (.threadCreate start arg)) p q with
      | same hph hth hL => exact .same hph hth hL
      | taken hfind' => exact absurd (Option.some.inj (hfind'.symm.trans hfind)) hq
      | exited he => cases he
      | reaped hz hph hL => exact .reaped hz hph hL
      | freed hf hph => exact .freed hf hph
  | createBad p np L start arg x hp hfind hL hx =>
    by_cases hq : q = np
    · subst hq
      rw [Function.update_self, hx]
      exact .taken hfind (by simp [Entry.claim]) (by simp [Entry.claim])
    · rw [Function.update_of_ne hq]
      exact Shift.found k _ p q
  | threadExit _ p L he hp _ _ hne =>
    by_cases hq : q = p
    · subst hq
      rw [Function.update_self]
      exact .exited he rfl rfl rfl
    · rw [Function.update_of_ne hq]
      by_cases hqL : q = L
      · subst hqL
        rw [Function.update_self]
        exact .dropRef k _ q
      · exact .of_eq (Function.update_of_ne hqL _ _)
  | processExit _ p he hp hthread =>
    by_cases hq : q = p
    · subst hq
      exact .exited he (by simp [Kernel.retire]) rfl rfl
    · exact .same (by simp [Kernel.retire, hq]) rfl rfl
  | reapThread _ x L _ hx _ hne =>
    by_cases hq : q = x
    · subst hq
      rw [Function.update_self]
      exact .reaped hx rfl rfl
    · rw [Function.update_of_ne hq]
      by_cases hqL : q = L
      · subst hqL
        rw [Function.update_self]
        exact .dropRef k _ q
      · exact .of_eq (Function.update_of_ne hqL _ _)
  | reapProcess _ x he hx hL =>
    by_cases hq : q = x
    · subst hq
      rw [Function.update_self]
      exact .freed ⟨q, he, .inl ⟨hL, rfl⟩⟩ rfl
    · exact .of_eq (Function.update_of_ne hq _ _)
  | reapGroup _ L ms chan files he hx hg _ =>
    by_cases hqL : q = L
    · subst hqL
      exact .freed ⟨q, he, .inr ⟨ms, hg, by simp⟩⟩ (by simp [Entries.disband, Entry.clear])
    · by_cases hqm : q ∈ ms
      · exact .freed ⟨L, he, .inr ⟨ms, hg, by simp [hqm]⟩⟩ (by simp [Entries.disband, hqL, hqm, Entry.release])
      · exact .of_eq (by simp [Entries.disband, hqL, hqm])

theorem Event.exits_of_reaps (h : k.reaps e = some q) : e.exits = none := by
  cases e with
  | call p c => cases c <;> first | rfl | cases h
  | die p => cases h
  | _ => rfl

/-! ## Housing -/

/-- The room of a slot suits the phase it is in. -/
structure Room.Fits (x : Entry) (r : Room) : Prop where
  vacant : x.phase = .unused → r = .empty
  bare : r.table = none → r.size = 0
  gone : x.phase = .zombie → x.isThread = false → r.table = none
  framed : ∀ pt, r.table = some pt → pt.Framed
  size_le : r.size ≤ trapframeVa

/-- The rooms are in order. -/
def Housed (k : Kernel) : Prop := ∀ q, (k.rooms q).Fits (k.entries q)

/-! ## Every step is a transfer -/

namespace Kernel

theorem rests_of_entries (hb : k.Balanced k') (he : k'.entries = k.entries) : k.Rests k' :=
  ⟨hb, fun q h => by rwa [he] at h, fun q h h' => by rw [he] at h h'; exact ⟨h, h'⟩⟩

/-- A balanced step leaves the phases alone, except that a thread may exit and
be reaped. -/
theorem rests_of_move (hm : Move k e k'.entries) (hb : k.Balanced k')
    (hr : ∀ r, k.reaps e = some r → ∃ L, L ≠ r ∧ (k.entries r).groupLeader = some L)
    (hx : ∀ q, e.exits = some q → (k.entries q).isThread = true) : k.Rests k' := by
  refine ⟨hb, fun q hq => ?_, fun q hq hthread => ?_⟩
  · cases hm.shift q with
    | same hph => exact hph.symm.trans hq
    | taken hfind => exact findUnused_phase hfind
    | exited _ hph => rw [hph] at hq; cases hq
    | reaped _ hph => rw [hph] at hq; cases hq
    | freed hf =>
      obtain ⟨r, hr', ⟨hnone, -⟩ | ⟨ms, hg, -⟩⟩ := hf
      all_goals obtain ⟨L, hne, hL⟩ := hr r hr'
      · rw [hnone] at hL; cases hL
      · rw [hg.leader.1] at hL
        exact absurd (Option.some.inj hL).symm hne
  · cases hm.shift q with
    | same hph hth => exact ⟨hph.symm.trans hq, hth.symm.trans hthread⟩
    | taken _ hz => exact absurd hq hz
    | exited he _ hth =>
      rw [hth, hx q he] at hthread
      cases hthread
    | reaped _ hph => rw [hph] at hq; cases hq
    | freed _ hph => rw [hph] at hq; cases hq

theorem Dissolves.congr {L : Slot} {ms : List Slot} (h : k₁.Dissolves L ms k') (hk : k₁.entries = k.entries)
    (hb : k.Balanced k₁) : k.Dissolves L ms k' where
  group := hk ▸ h.group
  bare := hb.rooms ▸ h.bare
  leader := h.leader
  member q hq := by rw [h.member q hq, hb.rooms]
  other q hq := by rw [h.other q hq, hb.rooms]
  kend := h.kend.trans hb.kend
  counts f := by rw [h.counts, hb.refcount, hb.rooms]
  owned f := by rw [h.owned, hb.owned]

theorem freeproc_transfer (hk : k₁.entries = k.entries) (hb : k.Balanced k₁) (hE : k.entries.WellGrouped)
    (hH : Housed k) (he : k.reaps e = some q) (hz : (k₁.proc q).state = .zombie)
    (h : k₁.freeproc q = .ok k') : Transfer k e k' := by
  have hm := freeproc_move hk hE he hz h
  have hphase : (k.entries q).phase = .zombie := by
    rw [← hk]
    simp [entries, Proc.entry, hz, ProcState.phase]
  have htable : (k₁.proc q).isThread = false → (k₁.proc q).pagetable = none := by
    intro hthread
    have hth : (k.entries q).isThread = false := by rw [← hk]; exact hthread
    have := (hH q).gone hphase hth
    rwa [← hb.rooms] at this
  have hleader : (k₁.proc q).groupLeader = (k.entries q).groupLeader := by rw [← hk]; rfl
  rcases freeproc_rooms (hk ▸ hE) hz htable h with
    ⟨hnone, hrooms, hkend, href, howned⟩ | ⟨L, hne, hL, hb'⟩ | ⟨ms, hd⟩
  · have hbare : (k.rooms q).table = none := by
      refine (hH q).gone hphase (Bool.eq_false_iff.2 fun hthread => ?_)
      obtain ⟨-, L, -, hL⟩ := hE.thread q hthread
      rw [← hleader, hnone] at hL
      cases hL
    refine .reapProcess he ⟨hleader ▸ hnone, hbare, by rw [hrooms, hb.rooms], hkend.trans hb.kend,
      href.trans hb.refcount, fun w => by rw [howned, hb.owned]⟩
  · refine .rest (rests_of_move hm (hb.trans hb') (fun r hr => ?_) fun x hx => ?_)
    · obtain rfl := Option.some.inj (he.symm.trans hr)
      exact ⟨L, hne, hleader ▸ hL⟩
    · rw [Event.exits_of_reaps he] at hx
      cases hx
  · exact .reapGroup he (hd.congr hk hb)

theorem wait_transfer {addr : Nat} {r : Option Int} (hk : k₁.entries = k.entries) (hb : k.Balanced k₁)
    (hE : k.entries.WellGrouped) (hH : Housed k) (he : k.reaps e = k₁.waitReaps p addr)
    (hp : (k₁.proc p).state.phase = .active) (h : k₁.wait p addr = .ok (r, k')) : Transfer k e k' := by
  rcases wait_ok h with rfl | rfl | ⟨pp, b, m, hfind, hcopy, hkend, hlist, href, hend⟩
  · exact .rest (rests_of_entries hb hk)
  · exact .rest (rests_of_entries (hb.trans (balanced_sleep _ _ _ _)) ((entries_sleep hp _ _).trans hk))
  have hmem : k₁.mem.SamePages m := ⟨hkend, hlist, href⟩
  rcases hend with rfl | ⟨rfl, hfree⟩
  · exact .rest (rests_of_entries (hb.trans (balanced_mem hmem)) hk)
  · have hreaps : k₁.waitReaps p addr = some pp := by
      simp [waitReaps, hfind, hcopy, Except.toOption]
    have hk₂ : entries { k₁ with mem := m } = k.entries := hk
    exact freeproc_transfer hk₂ (hb.trans (balanced_mem hmem)) hE hH (he.trans hreaps)
      (findZombie_spec hfind).2 hfree

theorem threadJoin_transfer {tid : Int} {r : Option Int} (hk : k₁.entries = k.entries) (hb : k.Balanced k₁)
    (hE : k.entries.WellGrouped) (hH : Housed k) (he : k.reaps e = k₁.findJoin p tid)
    (hp : (k₁.proc p).state.phase = .active) (h : k₁.threadJoin p tid = .ok (r, k')) : Transfer k e k' := by
  rcases threadJoin_ok h with rfl | rfl | ⟨tp, hfind, hfree⟩
  · exact .rest (rests_of_entries hb hk)
  · exact .rest (rests_of_entries (hb.trans (balanced_sleep _ _ _ _)) ((entries_sleep hp _ _).trans hk))
  · exact freeproc_transfer hk hb hE hH (he.trans hfind) (findJoin_spec hfind).2 hfree

theorem threadExitThread_balanced (k : Kernel) (p : Slot) : k.Balanced (k.threadExitThread p) := by
  have hdrop : k.Balanced (k.dropRef (k.leaderOf p)) := by
    refine balanced_modify ?_
    split <;> rfl
  exact (hdrop.trans (balanced_modify rfl)).trans (balanced_wakeParent _ _)

theorem exit_transfer (hE : k.entries.WellGrouped) (he : e.exits = some p) (hr : k.reaps e = none)
    (hp : (k.proc p).state = .running)
    (h : ((k.proc p).isThread = true ∧ k' = k.threadExitThread p) ∨
      ((k.proc p).isThread = false ∧ ∃ status, k.exitProcess p status = .ok k')) : Transfer k e k' := by
  rcases h with ⟨hthread, rfl⟩ | ⟨hthread, status, h⟩
  · refine .rest (rests_of_move (threadExitThread_move hE he hp hthread) (threadExitThread_balanced k p)
      (fun r hr' => ?_) fun q hq => ?_)
    · rw [hr] at hr'
      cases hr'
    · obtain rfl := Option.some.inj (he.symm.trans hq)
      exact hthread
  · have hactive : (k.entries p).phase = .active := by
      simp [entries, Proc.entry, hp, ProcState.phase]
    exact .exit he hactive hthread (exitProcess_rooms (by simp [hp]) h)

theorem exit_cases {status : Int} (h : k.exit p status = .ok k') :
    ((k.proc p).isThread = true ∧ k' = k.threadExitThread p) ∨
      ((k.proc p).isThread = false ∧ ∃ status, k.exitProcess p status = .ok k') := by
  unfold exit at h
  split at h
  · rename_i hthread
    cases h
    exact .inl ⟨hthread, rfl⟩
  · rename_i hthread
    exact .inr ⟨by simpa using hthread, status, h⟩

theorem threadExit_cases (h : k.threadExit p = .ok k') :
    ((k.proc p).isThread = true ∧ k' = k.threadExitThread p) ∨
      ((k.proc p).isThread = false ∧ ∃ status, k.exitProcess p status = .ok k') := by
  unfold threadExit at h
  split at h
  · rename_i hthread
    cases h
    exact .inl ⟨hthread, rfl⟩
  · rename_i hthread
    exact .inr ⟨by simpa using hthread, -1, h⟩

theorem kill_balanced (k : Kernel) (pid : Int) : k.Balanced (k.kill pid).2 := by
  unfold kill
  split
  · exact .refl k
  · dsimp only
    exact balanced_modify rfl

theorem resume_transfer {r : Option Int} (hE : k.entries.WellGrouped) (hH : Housed k)
    (hp : (k.proc p).state = .runnable) (h : k.resume p = .ok (r, k')) :
    Transfer k (.schedule p) k' := by
  have hk := switch_entries hp
  have hb : k.Balanced (k.modify p fun pr => { pr with state := .running, chan := none, resume := .user }) :=
    balanced_modify rfl
  simp only [resume] at h
  split at h
  · cases h
    exact .rest (rests_of_entries hb hk)
  · cases h
    exact .rest (rests_of_entries hb hk)
  · rename_i addr hres
    refine wait_transfer hk hb hE hH ?_ (by simp [ProcState.phase]) h
    simp only [reaps, hres]
    exact (waitReaps_switch hp addr).symm
  · rename_i tid hres
    refine threadJoin_transfer hk hb hE hH ?_ (by simp [ProcState.phase]) h
    simp only [reaps, hres]
    exact (findJoin_switch hp tid).symm

theorem sbrk_transfer {n : Int32} {r : Int} (hE : k.entries.WellGrouped) (hH : Housed k)
    (hp : (k.proc p).state.phase = .active) (ht : k.Tidy (.call p (.sbrk n)))
    (h : k.sbrk p n.toInt = .ok (r, k')) : Transfer k (.call p (.sbrk n)) k' := by
  obtain ⟨⟨r', k₁⟩, hgrow, h⟩ := Except.bind_ok_iff.1 h
  have hk' : k₁ = k' := by
    dsimp only at h
    split at h <;> (cases h; rfl)
  subst hk'
  obtain ⟨l, hteam⟩ := exists_team hE hp
  have hmem := hteam.mem hp
  rcases Int.lt_trichotomy n.toInt 0 with hn | hn | hn
  · obtain ⟨pt, pt', lo, hi, hs⟩ := growproc_shrinks hn hteam (ht.2 hn) (hH p).size_le hgrow
    exact .shrink hn hp (ht.2 hn) hs
  · rw [growproc, if_pos hn] at hgrow
    cases hgrow
    exact .rest (rests_of_entries (.refl k) rfl)
  · obtain ⟨pt, pt', lo, hi, hg⟩ := growproc_grows hn n.toInt_lt hteam hmem (hH p).framed (hH p).size_le (ht.1 hn) hgrow
    exact .grow hn hp hteam hmem (growproc_remaps hgrow).entries hg

theorem syscall_transfer {c : Call} {r : Option Int} (hE : k.entries.WellGrouped) (hH : Housed k)
    (hp : (k.proc p).state = .running) (ht : k.Tidy (.call p c)) (h : k.syscall p c = .ok (r, k')) :
    Transfer k (.call p c) k' := by
  have hp' : (k.proc p).state.phase = .active := by simp [hp, ProcState.phase]
  have hm := syscall_move hE hp h
  have hempty : ∀ q, (k.proc q).state = .unused → k.rooms q = .empty := fun q hq =>
    (hH q).vacant (by simp [entries, Proc.entry, hq, ProcState.phase])
  -- a balanced call that neither exits nor reaps
  have hrest : k.Balanced k' → k.reaps (.call p c) = none → (Event.call p c).exits = none →
      Transfer k (.call p c) k' := by
    intro hb hr hx
    refine .rest (rests_of_move hm hb (fun r' hr' => ?_) fun q hq => ?_)
    · rw [hr] at hr'
      cases hr'
    · rw [hx] at hq
      cases hq
  cases c with
  | fork =>
    obtain ⟨v, hv⟩ := returns_ok h
    rcases fork_rooms hv hempty (hH p).size_le (by simp [hp]) with
      hb | ⟨hrooms, hkend, href, lost, howned⟩ | ⟨np, pt, tf, hc⟩
    · exact hrest hb rfl rfl
    · exact .forkLost ⟨hrooms, hkend, href, fun w => by have := howned w; omega⟩
    · exact .fork hc
  | exec path file argv =>
    obtain ⟨v, hv⟩ := returns_ok h
    rcases exec_rooms hv with hb | ⟨⟨img, rfl, himg⟩, ⟨pt, hs⟩ | ⟨old, pt, sz, hr⟩⟩
    · exact hrest hb rfl rfl
    · exact .execBad himg hs
    · exact .exec himg hp' hr
  | sbrk n =>
    obtain ⟨v, hv⟩ := returns_ok h
    exact sbrk_transfer hE hH hp' ht hv
  | threadCreate start arg =>
    obtain ⟨v, hv⟩ := returns_ok h
    obtain ⟨l, hteam⟩ := exists_team hE hp'
    rcases threadCreate_rooms hE hp' hteam hempty (hH p).size_le ht hv with
      hb | ⟨np, pt, npt, tf, hi, hs⟩ | ⟨np, pt, npt, tf, stack, v, hs⟩
    · exact hrest hb rfl rfl
    · exact .createBad hp' hs
    · exact .create hp' hteam (hteam.mem hp') hs
  | threadExit => exact exit_transfer hE rfl rfl hp (threadExit_cases (noReturn_ok h))
  | threadJoin tid => exact threadJoin_transfer rfl (.refl k) hE hH rfl hp' h
  | exit status => exact exit_transfer hE rfl rfl hp (exit_cases (noReturn_ok h))
  | wait addr => exact wait_transfer rfl (.refl k) hE hH rfl hp' h
  | kill pid =>
    obtain ⟨-, hk'⟩ := Prod.mk.inj (Except.ok.inj h)
    exact hrest (hk' ▸ kill_balanced k pid) rfl rfl
  | «open» ip device rd wr => obtain ⟨v, hv⟩ := returns_ok h; exact hrest (sysOpen_balanced hv) rfl rfl
  | dup fd => obtain ⟨v, hv⟩ := returns_ok h; exact hrest (sysDup_balanced hv) rfl rfl
  | close fd => obtain ⟨v, hv⟩ := returns_ok h; exact hrest (sysClose_balanced hv) rfl rfl
  | pipe fdarray => obtain ⟨v, hv⟩ := returns_ok h; exact hrest (sysPipe_balanced hv) rfl rfl
  | chdir ip => obtain ⟨v, hv⟩ := returns_ok h; exact hrest (sysChdir_balanced hv) rfl rfl

/-- Every tidy step is a transfer. -/
theorem step_transfer {r : Option Int} (hE : k.entries.WellGrouped) (hH : Housed k) (ht : k.Tidy e)
    (hen : k.enabled e = true) (h : k.step e = .ok (r, k')) : Transfer k e k' := by
  have hm := step_move hE hen h
  cases e with
  | schedule p => exact resume_transfer hE hH (by simpa [enabled] using hen) h
  | call p c =>
    have hp : (k.proc p).state = .running ∧ (k.proc p).killed = false := by simpa [enabled] using hen
    exact syscall_transfer hE hH hp.1 ht h
  | die p =>
    have hp : (k.proc p).state = .running ∧ (k.proc p).killed = true := by simpa [enabled] using hen
    obtain ⟨k₁, hx, hr⟩ := Except.bind_ok_iff.1 h
    cases hr
    exact exit_transfer hE rfl rfl hp.1 (exit_cases hx)
  | yield p =>
    cases h
    exact .rest (rests_of_move hm (balanced_modify rfl) (by simp [reaps]) (by simp [Event.exits]))
  | block p n =>
    cases h
    exact .rest (rests_of_move hm (balanced_sleep _ _ _ _) (by simp [reaps]) (by simp [Event.exits]))
  | unblock n =>
    cases h
    exact .rest (rests_of_move hm (balanced_wakeup _ _ _) (by simp [reaps]) (by simp [Event.exits]))
  | fault p =>
    cases h
    exact .rest (rests_of_move hm (balanced_modify rfl) (by simp [reaps]) (by simp [Event.exits]))

end Kernel

/-! ## Housing is kept -/

section

variable {x x' : Entry} {r r' : Room} {pt pt' : PageTable}

theorem Room.fits_empty (x : Entry) : Room.empty.Fits x where
  vacant _ := rfl
  bare _ := rfl
  gone _ _ := rfl
  framed _ h := by cases h
  size_le := Nat.zero_le _

theorem Room.Fits.keep (h : r.Fits x) (hu : x'.phase = .unused → x.phase = .unused)
    (hz : x'.phase = .zombie → x'.isThread = false → x.phase = .zombie ∧ x.isThread = false) : r.Fits x' where
  vacant hx := h.vacant (hu hx)
  bare := h.bare
  gone hx ht := h.gone (hz hx ht).1 (hz hx ht).2
  framed := h.framed
  size_le := h.size_le

/-- A room with a table suits a slot that is in use and has not exited as a process. -/
theorem Room.fits_of_table (hpt : r.table = some pt) (hf : pt.Framed) (hsz : r.size ≤ trapframeVa)
    (hu : x.phase ≠ .unused) (hz : x.phase = .zombie → x.isThread = true) : r.Fits x where
  vacant hx := absurd hx hu
  bare h := by rw [hpt] at h; cases h
  gone hx ht := by rw [hz hx] at ht; cases ht
  framed _ h := by
    rw [hpt] at h
    cases h
    exact hf
  size_le := hsz

/-- One table takes the place of another. -/
theorem Room.Fits.refit (h : r.Fits x) (hpt : r.table = some pt) (hpt' : r'.table = some pt')
    (hf : pt'.Framed) (hsz : r'.size ≤ trapframeVa) : r'.Fits x := by
  refine Room.fits_of_table hpt' hf hsz (fun hu => ?_) fun hz => ?_
  · rw [h.vacant hu] at hpt
    cases hpt
  · by_contra hthread
    rw [h.gone hz (by simpa using hthread)] at hpt
    cases hpt

theorem Room.Fits.release (h : r.Fits x) : r.release = .empty := by
  cases ht : r.table with
  | none => simp [Room.release, ht, h.bare ht, Room.empty]
  | some pt => simp [Room.release, ht, Room.empty]

/-- A slot that is neither set free nor exits still suits its room. -/
theorem Move.fits (hm : Move k e E') (hf : ¬ k.Frees e q) (hx : e.exits ≠ some q)
    (h : r.Fits (k.entries q)) : r.Fits (E' q) := by
  cases hm.shift q with
  | same hph hth => exact h.keep (fun hu => hph ▸ hu) fun hz ht => ⟨hph ▸ hz, hth ▸ ht⟩
  | taken hfind =>
    rw [h.vacant (Kernel.findUnused_phase hfind)]
    exact Room.fits_empty _
  | exited he => exact absurd he hx
  | reaped _ hph => exact h.keep (fun hu => by rw [hph] at hu; cases hu) fun hz => by rw [hph] at hz; cases hz
  | freed hfr => exact absurd hfr hf

theorem Kernel.not_frees (h : k.reaps e = none) : ¬ k.Frees e q := by
  rintro ⟨r, hr, -⟩
  rw [h] at hr
  cases hr

end

theorem pagesBelow_le_of_size {sz : Nat} (h : pagesBelow sz ≤ userPages) : sz ≤ trapframeVa := by
  rw [trapframeVa_eq]
  exact pagesBelow_le_iff.1 h

theorem Room.Stacked.size_le {v : Nat} {stack : Ppn} {r r' : Room} {pt : PageTable}
    (h : Room.Stacked v stack r r') (hpt : r.table = some pt) (hf : pt.Framed) (hv : v ≤ userPages) :
    r'.size ≤ trapframeVa := by
  rw [h.size, trapframeVa_eq]
  refine Nat.mul_le_mul_right _ ?_
  rcases Nat.lt_or_eq_of_le hv with hlt | rfl
  · exact hlt
  · -- the trapframe is mapped at the first page above
    obtain ⟨pt₁, pt', hpt₁, -, -, hleaf⟩ := h.table
    obtain rfl := Option.some.inj (hpt.symm.trans hpt₁)
    rcases hleaf with ⟨hnone, -⟩ | ⟨-, hcov⟩
    · exact absurd hnone hf.trapframe
    · obtain ⟨e, he⟩ := Option.ne_none_iff_exists'.1 hf.trapframe
      exact absurd (covers_of_lookup he) hcov

/-- One room is exchanged. -/
theorem Housed.update {r : Room} (hrooms : k'.rooms = Function.update k.rooms p r) (hp : r.Fits (k'.entries p))
    (hother : ∀ q, q ≠ p → (k.rooms q).Fits (k'.entries q)) : Housed k' := by
  intro q
  rw [hrooms]
  by_cases hq : q = p
  · subst hq
    rw [Function.update_self]
    exact hp
  · rw [Function.update_of_ne hq]
    exact hother q hq

theorem Kernel.Grows.housed {l : List Slot} {pt pt' : PageTable} {lo hi : Nat} (h : k.Grows p l k' pt pt' lo hi)
    (hpl : p ∈ l) (hH : Housed k) (hbase : ∀ q, (k.rooms q).Fits (k'.entries q)) : Housed k' := by
  intro q
  have hb := hbase q
  have hsz : q ∈ l → (k'.rooms q).size ≤ trapframeVa := by
    intro hq
    rcases h.size with hs | ⟨sz, hsz, -, hs, -⟩
    · rw [hs]
      exact (hH q).size_le
    · rw [hs q hq]
      exact pagesBelow_le_of_size (by rw [hsz]; exact h.limit)
  by_cases hqp : q = p
  · subst hqp
    exact hb.refit h.table h.table' (h.outside.framed h.limit ((hH q).framed pt h.table)) (hsz hpl)
  by_cases hql : q ∈ l
  swap
  · rw [h.other q hql]
    exact hb
  rcases h.member q ⟨hql, hqp⟩ with heq | ⟨ptq, ptq', hptq, hptq', ha⟩
  · -- a member whose table stays: it has one, or its size stays too
    cases htable : (k.rooms q).table with
    | some ptq => exact hb.refit htable (heq.trans htable) ((hH q).framed ptq htable) (hsz hql)
    | none =>
      have hroom : k'.rooms q = k.rooms q := by
        have hsize : (k'.rooms q).size = (k.rooms q).size := by
          rcases h.size with hs | ⟨sz, -, hlt | hone, -, hall⟩
          · exact hs q
          · obtain ⟨ptq, hptq, -⟩ := hall q ⟨hql, hqp⟩ lo (Nat.le_refl _) hlt
            rw [heq, htable] at hptq
            cases hptq
          · rw [hone] at hql
            exact absurd (by simpa using hql) hqp
        have hframe := h.frame q
        cases h₁ : k'.rooms q
        cases h₂ : k.rooms q
        simp_all
      rw [hroom]
      exact hb
  · exact hb.refit hptq hptq' (ha.framed ((hH q).framed ptq hptq)) (hsz hql)

theorem Kernel.Spawns.housed {np : Slot} {l : List Slot} {pt npt : PageTable} {tf stack : Ppn} {v : Nat}
    (h : k.Spawns p l k' np pt npt tf stack v) (hH : Housed k) (hbase : ∀ q, (k.rooms q).Fits (k'.entries q)) :
    Housed k' := by
  have hv : v ≤ userPages := by
    have := pagesBelow_le_userPages (hH p).size_le
    rwa [h.size, pagesBelow_mul] at this
  intro q
  by_cases hqnp : q = np
  · subst hqnp
    obtain ⟨pt₁, pt', hpt₁, hpt', ha, -⟩ := h.newcomer.table
    obtain rfl := Option.some.inj hpt₁
    exact Room.fits_of_table hpt' (ha.framed h.hosts.framed) (h.newcomer.size_le rfl h.hosts.framed hv)
      (by simp [h.started]) (by simp [h.started])
  by_cases hql : q ∈ l
  · have hst := h.member q hql
    obtain ⟨pt₁, pt', hpt₁, hpt', ha, -⟩ := hst.table
    have hf := (hH q).framed pt₁ hpt₁
    exact (hbase q).refit hpt₁ hpt' (ha.framed hf) (hst.size_le hpt₁ hf hv)
  · rw [h.other q (by simp [hqnp, hql])]
    exact hbase q

theorem Kernel.Vacates.housed (h : k.Vacates p k') (hm : Move k e k'.entries) (he : e.exits = some p)
    (hp : (k.entries p).phase = .active) (hH : Housed k) : Housed k' := by
  have hfrees : ∀ q, ¬ k.Frees e q := by
    rintro q ⟨r, hr, -⟩
    rw [Event.exits_of_reaps hr] at he
    cases he
  refine .update h.rooms ?_ fun q hq => ?_
  · have hsize : (k.rooms p).dropTable.size = 0 := by
      cases htable : (k.rooms p).table with
      | none => simp [Room.dropTable, htable, (hH p).bare htable]
      | some pt => simp [Room.dropTable, htable]
    refine ⟨fun hu => ?_, fun _ => hsize, fun _ _ => rfl, fun pt hpt => ?_, hsize ▸ Nat.zero_le _⟩
    swap
    · cases hpt
    -- an exit does not make the slot unused
    cases hm.shift p with
    | same hph => rw [hph, hp] at hu; cases hu
    | taken hfind => rw [Kernel.findUnused_phase hfind] at hp; cases hp
    | exited _ hph => rw [hph] at hu; cases hu
    | reaped _ hph => rw [hph] at hu; cases hu
    | freed hf => exact absurd hf (hfrees p)
  · refine hm.fits (hfrees q) (fun hx => ?_) (hH q)
    exact hq (Option.some.inj (hx.symm.trans he))

theorem Kernel.Clears.housed (h : k.Clears p k') (hm : Move k e k'.entries) (hr : k.reaps e = some p) (hH : Housed k) :
    Housed k' := by
  refine .update h.rooms (Room.fits_empty _) fun q hq => ?_
  refine hm.fits ?_ (by simp [Event.exits_of_reaps hr]) (hH q)
  rintro ⟨r', hr', ⟨-, rfl⟩ | ⟨ms, hg, -⟩⟩
  all_goals obtain rfl := Option.some.inj (hr.symm.trans hr')
  · exact hq rfl
  · have hnone := h.ungrouped
    rw [hg.leader.1] at hnone
    cases hnone

theorem Kernel.Dissolves.housed {L : Slot} {ms : List Slot} (h : k.Dissolves L ms k') (hm : Move k e k'.entries)
    (hr : k.reaps e = some L) (hH : Housed k) : Housed k' := by
  intro q
  by_cases hqL : q = L
  · subst hqL
    rw [h.leader]
    exact Room.fits_empty _
  by_cases hqm : q ∈ ms
  · rw [h.member q hqm, (hH q).release]
    exact Room.fits_empty _
  · rw [h.other q (by simp [hqL, hqm])]
    refine hm.fits ?_ (by simp [Event.exits_of_reaps hr]) (hH q)
    rintro ⟨r', hr', ⟨hnone, -⟩ | ⟨ms', hg, hmem⟩⟩
    all_goals obtain rfl := Option.some.inj (hr.symm.trans hr')
    · rw [h.group.leader.1] at hnone
      cases hnone
    · rw [hg.unique h.group] at hmem
      simp [hqL, hqm] at hmem

/-- Every transfer leaves the rooms in order. -/
theorem Transfer.housed (ht : Transfer k e k') (hm : Move k e k'.entries) (hH : Housed k) : Housed k' := by
  -- slots that are left alone in a step without exits
  have hbase : k.reaps e = none → e.exits = none → ∀ q, (k.rooms q).Fits (k'.entries q) := by
    intro hr hx q
    exact hm.fits (Kernel.not_frees hr) (by simp [hx]) (hH q)
  cases ht with
  | rest h =>
    intro q
    rw [h.rooms]
    exact (hH q).keep (h.unused q) (h.zombie q)
  | forkLost h =>
    intro q
    rw [h.rooms]
    exact hbase rfl rfl q
  | @fork p np pt tf _ h =>
    refine .update h.rooms ?_ fun q _ => hbase rfl rfl q
    exact Room.fits_of_table rfl h.framed (hH p).size_le (by simp [h.started]) (by simp [h.started])
  | execBad _ h =>
    intro q
    rw [h.rooms]
    exact hbase rfl rfl q
  | @exec p _ _ _ _ _ _ _ _ _ h =>
    exact .update h.rooms ((hbase rfl rfl p).refit h.table rfl h.framed h.size) fun q _ => hbase rfl rfl q
  | grow _ _ _ hpl _ h => exact h.housed hpl hH (hbase rfl rfl)
  | @shrink p _ pt _ _ _ _ _ _ _ h =>
    refine .update h.rooms ((hbase rfl rfl p).refit h.table rfl (h.outside.framed ?_ ((hH p).framed pt h.table))
      ((Nat.min_le_left _ _).trans (hH p).size_le)) fun q _ => hbase rfl rfl q
    rw [h.stop]
    exact pagesBelow_le_userPages (hH p).size_le
  | create _ _ _ h => exact h.housed hH (hbase rfl rfl)
  | createBad _ h =>
    refine .update h.rooms ?_ fun q _ => hbase rfl rfl q
    exact Room.fits_of_table rfl h.hosts.framed (Nat.zero_le _) (by simp [h.left]) (by simp [h.left])
  | exit he hp _ h => exact h.housed hm he hp hH
  | reapProcess hr h => exact h.housed hm hr hH
  | reapGroup hr h => exact h.housed hm hr hH

/-! ## Runs -/

section

variable {b : Boot}

/-- The first process is alone, with one page if there was a place for it in
its table. -/
structure Begins (b : Boot) (k : Kernel) (p : Slot) (pt : PageTable) (tf f : Ppn) : Prop where
  phase : (k.entries p).phase = .active
  idle : ∀ q, q ≠ p → (k.entries q).phase = .unused
  rooms : k.rooms = Function.update (fun _ => .empty) p ⟨some pt, some tf, pgSize⟩
  framed : pt.Framed
  page : pt.leaf 0 = none ∨ ∃ perm, pt.leaf 0 = some ⟨f, perm⟩
  hollow : pt.Hollow pgSize
  kend : k.mem.kend = b.kend
  refcount : ∀ f, k.mem.refcount f = 0
  owned : ∀ w, k.owned w + w f = Weight.ofList w b.pool

theorem Boot.main_begins (h : b.main = .ok k) : ∃ p pt tf f, Begins b k p pt tf f := by
  obtain ⟨p, k₁, pt, tf, f, m, mapped, m', pt', halloc, hpt, htf, hk, hmap, ir, regs, hk'⟩ :=
    Kernel.userinit_ok h
  have hempty : ∀ q, b.procinit.rooms q = .empty := fun _ => rfl
  obtain ⟨pt₀, tf₀, hpt₀, hmoved⟩ := Kernel.allocproc_moved halloc (hempty p)
  obtain rfl : pt₀ = pt := Option.some.inj (hpt₀.symm.trans hpt)
  have hroom₁ : k₁.rooms p = ⟨some pt₀, some tf₀, 0⟩ := by rw [hmoved.rooms, Function.update_self]
  have hpage : tf.page = tf₀ := by
    have : (k₁.rooms p).frame = some tf.page := by
      simp [Kernel.rooms, Proc.room, htf]
    rw [hroom₁] at this
    exact (Option.some.inj this).symm
  have hrooms₁ : k.rooms = Function.update k₁.rooms p ⟨some pt', some tf₀, pgSize⟩ := by
    funext q
    by_cases hq : q = p
    · subst hq
      simp [hk', Kernel.rooms, Proc.room, hpage]
    · simp [hk', Kernel.rooms, hq]
  have hrooms : k.rooms = Function.update (fun _ => .empty) p ⟨some pt', some tf₀, pgSize⟩ := by
    rw [hrooms₁, hmoved.rooms, Function.update_idem]
    rfl
  have hmem : k.mem = m' := by rw [hk']
  have hpipes : k.pipes = k₁.pipes := by rw [hk']
  rw [← Nat.zero_mul pgSize] at hmap
  obtain ⟨-, hkeep, hpages, hout, hres⟩ := mappages_page hmap
  have hlim : 1 ≤ userPages ∧ 0 < userPages := by decide
  have hnone : pt₀.leaf 0 = none := hmoved.hollow 0 (Nat.zero_le _) hlim.2
  have hmem₁ : m'.kend = k₁.mem.kend ∧ m'.refcount = k₁.mem.refcount := by
    rw [hkeep.kend, hkeep.refcount, Mem.memset_kend, Mem.memset_refcount]
    exact ⟨Mem.kalloc_kend hk, Mem.kalloc_refcount hk⟩
  obtain ⟨p', hne, -, hp'⟩ := Boot.main_entries h
  have hpp : p = p' := by
    by_contra hpp
    have hzero := hne p hpp
    have : (k.rooms p).table = none := by rw [Kernel.rooms, hzero]; rfl
    rw [hrooms, Function.update_self] at this
    cases this
  subst hpp
  refine ⟨p, pt', tf₀, f, by rw [hp'], fun q hq => ?_, hrooms, hout.framed hlim.1 hmoved.framed, ?_,
    fun v hv hv' => ?_, ?_, fun x => ?_, fun w => ?_⟩
  · rw [Kernel.entries, hne q hq]
    rfl
  · rcases hres with ⟨-, -, hsome⟩ | ⟨-, -, hsame, -⟩
    · exact .inr ⟨_, hsome⟩
    · exact .inl (hsame.trans hnone)
  · have hv1 : 1 ≤ v := by
      simpa [pagesBelow, pgSize] using hv
    have := userPages_lt
    rw [hout v (by omega) (by omega)]
    exact hmoved.hollow v (Nat.zero_le _) hv'
  · rw [hmem, hmem₁.1, hmoved.kend]
    rfl
  · rw [hmem, hmem₁.2, hmoved.refcount]
    rfl
  · have h₁ := Kernel.owned_update hrooms₁ w
    have h₂ := hpages w
    have h₃ := Mem.weigh_kalloc hk w
    have h₄ := hmoved.owned w
    have hheld : Room.held w ⟨some pt', some tf₀, pgSize⟩ = w tf₀ + pt'.weigh w := Room.held_of_table rfl
    have hheld₁ : Room.held w ⟨some pt₀, some tf₀, 0⟩ = w tf₀ + pt₀.weigh w := Room.held_of_table rfl
    have hpool : b.procinit.owned w = Weight.ofList w b.pool := by
      have hrest : ∑ q, (b.procinit.rooms q).held w = 0 := by
        simp only [hempty, Room.held_empty, Finset.sum_const_zero]
      rw [Kernel.owned, hrest]
      rfl
    rw [Mem.weigh_memset] at h₂
    rw [hroom₁, hheld, hheld₁, hmem, Kernel.pipeWeight, Kernel.pipeWeight, hpipes] at h₁
    omega

theorem Boot.main_housed (h : b.main = .ok k) : Housed k := by
  obtain ⟨p, pt, tf, f, hb⟩ := Boot.main_begins h
  intro q
  rw [hb.rooms]
  by_cases hq : q = p
  · subst hq
    rw [Function.update_self]
    have hsize : pgSize ≤ trapframeVa := by decide
    exact Room.fits_of_table rfl hb.framed hsize (by simp [hb.phase]) (by simp [hb.phase])
  · rw [Function.update_of_ne hq]
    exact Room.fits_empty _

/-- In every tidy run the rooms are in order. -/
theorem housed_of_reaches {G : Kernel → Event → Prop} (hG : ∀ k e, G k e → k.Tidy e)
    (h : (system b).Reaches G k) : k.entries.WellGrouped ∧ Housed k := by
  refine h.invariant (P := fun k => k.entries.WellGrouped ∧ Housed k)
    (fun k hk => ⟨Boot.main_wellGrouped hk, Boot.main_housed hk⟩) ?_
  rintro k e k' ⟨hE, hH⟩ hg ⟨hen, r, hstep⟩
  have hm := Kernel.step_move hE hen hstep
  exact ⟨hm.wellGrouped hE, (Kernel.step_transfer hE hH (hG k e hg) hen hstep).housed hm hH⟩

end

end Xv6
