-- SUMMARY: In runs that resize no process, every page table agrees with its size and can be taken apart.
import Xv6Threads.Process.Loading
import Xv6Threads.System.Equipped
import Xv6Threads.System.Frames
import Xv6Threads.System.Range
import Xv6Threads.System.Stacks

/-!
# Removal

`proc_freepagetable` and its variant for threads panic on a table that does not
agree with the size it is freed with, and `kfree` panics on a page that is not
its own. `Removable` says that no slot holds such a table or such a page. The
calls that make and end processes and threads keep it; `sbrk` and `exec`, which
give a process another size, are left out here.
-/

namespace Xv6

open PageTable Weight

variable {b : Boot} {k k' : Kernel} {e : Event} {p q np L : Slot} {r : Option Int} {f : Ppn}
  {x : Entry} {room room' : Room}

/-! ## Tables stay sane -/

namespace PageTable

variable {m m' : Mem} {pt pt' src dest dest' : PageTable} {v n hi : Nat} {g : Nat → Option Pte}

/-- No entry but readable ones and those of the table before. -/
theorem Sane.of_entries (hs : pt.Sane)
    (h : ∀ v < vpnLimit, pt'.leaf v = pt.leaf v ∨
      v * pgSize < maxVa ∧ ∀ e, pt'.leaf v = some e → e.perm ≠ ⟨false, false, false, false⟩) : pt'.Sane := by
  refine ⟨fun v hv e he => ?_, fun v hv hva => ?_⟩
  · rcases h v hv with heq | ⟨-, hperm⟩
    · exact hs.proper v hv e (heq ▸ he)
    · exact hperm e he
  · rcases h v hv with heq | ⟨hlt, -⟩
    · rw [heq]
      exact hs.low v hv hva
    · exact absurd hlt (not_lt.2 hva)

theorem Sane.mappagesLoop {perm : Perm} {a : Nat} {pa : Ppn} {c : Bool} (hs : pt.Sane)
    (hperm : perm ≠ ⟨false, false, false, false⟩)
    (h : PageTable.mappagesLoop perm n m pt a pa = .ok (c, m', pt')) : pt'.Sane := by
  induction n generalizing m pt a pa with
  | zero =>
    cases h
    exact hs
  | succ n ih =>
    obtain ⟨⟨found, m₁, pt₁⟩, hwalk, h⟩ := Except.bind_ok_iff.1 h
    obtain ⟨hva, hext, hfound, -⟩ := walkAlloc_ok hwalk
    have hs₁ : pt₁.Sane := hs.of_entries fun u _ => .inl (hext.leaf u)
    cases found with
    | false =>
      cases h
      exact hs₁
    | true =>
      dsimp only [Bool.not_true] at h
      rw [if_neg (by simp)] at h
      split at h
      · cases h
      · refine ih (hs₁.of_entries fun u hu => ?_) h
        rw [setPte_leaf (hfound rfl) hva hu]
        split
        · rename_i heq
          refine .inr ⟨?_, fun e he => ?_⟩
          · rw [heq]
            exact (Nat.div_mul_le_self a pgSize).trans_lt hva
          · cases he
            exact hperm
        · exact .inl rfl

theorem Sane.mappages {va size : Nat} {pa : Ppn} {perm : Perm} {c : Bool} (hs : pt.Sane)
    (hperm : perm ≠ ⟨false, false, false, false⟩)
    (h : PageTable.mappages m pt va size pa perm = .ok (c, m', pt')) : pt'.Sane := by
  unfold PageTable.mappages at h
  split at h
  · cases h
  · exact hs.mappagesLoop hperm h

theorem Sane.copy (hsrc : src.Sane) (hs : pt.Sane)
    (h : uvmcopyLoop src n m pt v = .ok (true, m', pt')) : pt'.Sane := by
  induction n generalizing m pt v with
  | zero =>
    cases h
    exact hs
  | succ n ih =>
    rw [uvmcopyLoop] at h
    obtain ⟨o, hwalk, h⟩ := Except.bind_ok_iff.1 h
    obtain ⟨hva, hjoin, -⟩ := walk_ok hwalk
    split at h
    · cases h
    · cases h
    · rename_i pte
      split at h
      · obtain ⟨⟨m₁, pt₁⟩, -, h⟩ := Except.bind_ok_iff.1 h
        cases h
      · obtain ⟨⟨c, m₁, pt₁⟩, hmap, h⟩ := Except.bind_ok_iff.1 h
        cases c with
        | true => exact ih (hs.mappages (hsrc.proper v (lt_vpnLimit_of_lt_maxVa hva) pte hjoin.symm) hmap) h
        | false =>
          obtain ⟨m₂, -, h⟩ := Except.bind_ok_iff.1 h
          obtain ⟨⟨m₃, pt₃⟩, -, h⟩ := Except.bind_ok_iff.1 h
          cases h

theorem Sane.share (hsrc : src.Sane) (hs : dest.Sane) (h : SharesTo src m dest m' dest' hi) : dest'.Sane := by
  refine hs.of_entries fun u hu => ?_
  by_cases hlt : u < hi
  · obtain ⟨hva, hnone, hsome⟩ := h.inside u hlt
    cases he : src.leaf u with
    | none => exact .inl (hnone he)
    | some e =>
      refine .inr ⟨hva, fun e' he' => ?_⟩
      rw [(hsome e he).2] at he'
      cases he'
      exact hsrc.proper u hu e he
  · exact .inl (h.outside u hu (by omega))

/-- What weighs nothing page by page weighs nothing. -/
theorem weigh_eq_zero {w : Ppn → Nat} (h : ∀ f, w f ≠ 0 → pt.weigh (single f) = 0) : pt.weigh w = 0 := by
  have hpage : ∀ f, pt.StoredIn f → w f = 0 := fun f hf => by
    by_contra hne
    exact absurd hf.weigh_pos (by rw [h f hne]; omega)
  unfold weigh Table.weighWith
  refine Nat.add_eq_zero_iff.2 ⟨hpage _ (.inl rfl), Finset.sum_eq_zero fun i _ => ?_⟩
  cases hi : pt.entry i with
  | none => rfl
  | some mid =>
    refine Nat.add_eq_zero_iff.2 ⟨hpage _ (.inr ⟨i, mid, hi, .inl rfl⟩), Finset.sum_eq_zero fun j _ => ?_⟩
    cases hj : mid.entry j with
    | none => rfl
    | some leaves =>
      refine Nat.add_eq_zero_iff.2 ⟨hpage _ (.inr ⟨i, mid, hi, .inr ⟨j, leaves, hj, rfl⟩⟩), ?_⟩
      refine Finset.sum_eq_zero fun l _ => ?_
      cases leaves.entry l <;> rfl

theorem user_eq_zero {w : Ppn → Nat} (h : ∀ f, w f ≠ 0 → pt.user (single f) = 0) : pt.user w = 0 := by
  unfold user span
  refine Finset.sum_eq_zero fun v hv => ?_
  cases he : pt.leaf v with
  | none => rfl
  | some x =>
    by_contra hne
    have hpos := span_single_pos.2 ⟨v, x, Nat.zero_le _, (Finset.mem_Ico.1 hv).2, he, rfl⟩
    rw [show pt.span (single x.ppn) 0 userPages = 0 from h x.ppn hne] at hpos
    exact absurd hpos (Nat.lt_irrefl _)

end PageTable

/-! ## Slots that can be released -/

/-- The call may give a process another size. -/
def Event.resizes : Event → Bool
  | .call _ (.sbrk _) => true
  | .call _ (.exec _ _ _) => true
  | _ => false

/-- The step gives no process another size. -/
def Event.KeepsSize (e : Event) : Prop := e.resizes = false

instance (e : Event) : Decidable e.KeepsSize := inferInstanceAs (Decidable (_ = _))

/-- The table of a slot maps whole pages, all of them below its size. -/
structure Room.Removable (x : Entry) (r : Room) : Prop where
  aligned : r.size % pgSize = 0
  filled : x.Enrolled → r.table ≠ none → 0 < r.size
  hollow : x.Enrolled → ∀ pt, r.table = some pt → pt.Hollow r.size

/-- The members of a group have one size. -/
def Kernel.Level (k : Kernel) : Prop := ∀ q q', (k.entries q).Enrolled → (k.entries q').Enrolled →
  (k.rooms q).table ≠ none → (k.rooms q').table ≠ none → k.leaderOf q = k.leaderOf q' →
  (k.rooms q).size = (k.rooms q').size

/-- Every table is one that `uvmunmap` takes apart. -/
def Kernel.Sane (k : Kernel) : Prop := ∀ q pt, (k.rooms q).table = some pt → pt.Sane

/-- Every page of every slot is one that `kfree` accepts, and every table agrees
with its size. -/
structure Removable (k : Kernel) : Prop where
  room : ∀ q, (k.rooms q).Removable (k.entries q)
  level : k.Level
  sane : k.Sane
  own : ∀ f, ¬ k.mem.InRange f → k.owned (single f) = 0
  use : ∀ f, ¬ k.mem.InRange f → ∀ q, (k.rooms q).user (single f) = 0

theorem Room.removable_of_bare (h : room.table = none) (hsz : room.size = 0) (x : Entry) : room.Removable x where
  aligned := by rw [hsz]; rfl
  filled _ hne := absurd h hne
  hollow _ _ hpt := by rw [h] at hpt; cases hpt

namespace Kernel

/-- Who is in use after a step was in use before, in the same group, or is the
slot that the step has taken. -/
theorem enrolled_before (hm : Move k e k'.entries) (hen : k.enabled e = true)
    (hq : (k'.entries q).Enrolled) :
    k.findUnused = some q ∨ (k.entries q).Enrolled ∧ k'.leaderOf q = k.leaderOf q := by
  cases hm.shift q with
  | same hph _ hL => exact .inr ⟨⟨hph ▸ hq.1, hph ▸ hq.2⟩, hL⟩
  | taken hfind => exact .inl hfind
  | exited he _ _ hL =>
    have hrun := exits_running hen he
    exact .inr ⟨Entry.enrolled_of_active (by simp [entries, Proc.entry, hrun, ProcState.phase]), hL⟩
  | reaped hz _ hL => exact .inr ⟨Entry.enrolled_of_zombie hz, hL⟩
  | freed _ hph => exact absurd hph hq.1

theorem removable_keep (hm : Move k e k'.entries) (hen : k.enabled e = true) (hH : Housed k)
    (h : (k.rooms q).Removable (k.entries q)) : (k.rooms q).Removable (k'.entries q) := by
  have hbefore : (k'.entries q).Enrolled → (k.rooms q).table ≠ none → (k.entries q).Enrolled := by
    intro hq hne
    rcases enrolled_before hm hen hq with hfind | ⟨hold, -⟩
    · rw [(hH q).vacant (findUnused_phase hfind)] at hne
      exact absurd rfl hne
    · exact hold
  refine ⟨h.aligned, fun hq hne => h.filled (hbefore hq hne) hne, fun hq pt hpt => ?_⟩
  exact h.hollow (hbefore hq (by rw [hpt]; nofun)) pt hpt

/-- Slots that a step leaves alone or empties. -/
theorem level_keep (hm : Move k e k'.entries) (hen : k.enabled e = true) (hH : Housed k) (h : k.Level)
    (hrooms : ∀ q, (k'.rooms q).table = none ∨ k'.rooms q = k.rooms q) : k'.Level := by
  have hbefore : ∀ q, (k'.entries q).Enrolled → (k'.rooms q).table ≠ none →
      k'.rooms q = k.rooms q ∧ (k.entries q).Enrolled ∧ k'.leaderOf q = k.leaderOf q := by
    intro q hq hne
    have hsame := (hrooms q).resolve_left hne
    refine ⟨hsame, (enrolled_before hm hen hq).resolve_left fun hfind => ?_⟩
    rw [hsame, (hH q).vacant (findUnused_phase hfind)] at hne
    exact absurd rfl hne
  intro q q' hq hq' hne hne' hL
  obtain ⟨hroom, hold, hlead⟩ := hbefore q hq hne
  obtain ⟨hroom', hold', hlead'⟩ := hbefore q' hq' hne'
  rw [hlead, hlead'] at hL
  rw [hroom] at hne ⊢
  rw [hroom'] at hne' ⊢
  exact h q q' hold hold' hne hne' hL

/-! ## Calls that make tables -/

theorem Sane.of_rooms (hs : k.Sane) (h : k'.rooms = k.rooms) : k'.Sane := by
  intro q pt hpt
  rw [h] at hpt
  exact hs q pt hpt

theorem Sane.update (hs : k.Sane) (h : k'.rooms = Function.update k.rooms p room)
    (hroom : ∀ pt, room.table = some pt → pt.Sane) : k'.Sane := by
  intro q pt hpt
  rw [h] at hpt
  by_cases hq : q = p
  · subst hq
    rw [Function.update_self] at hpt
    exact hroom pt hpt
  · rw [Function.update_of_ne hq] at hpt
    exact hs q pt hpt

theorem Sane.setTable (hs : k.Sane) (m : Mem) (p : Slot) {pt : PageTable} (hpt : pt.Sane) :
    ({ k with mem := m }.setTable p pt).Sane := by
  have hroom : ∀ pt', ({ k.rooms p with table := some pt } : Room).table = some pt' → pt'.Sane := by
    rintro _ ⟨⟩
    exact hpt
  exact hs.update (rooms_modify { k with mem := m } p _) hroom

/-- A new slot has a sane table; one that is given up again has none. -/
theorem Sane.allocproc {o : Option Slot} (hs : k.Sane) (h : k.allocproc = .ok (o, k')) : k'.Sane := by
  cases o with
  | none =>
    rcases allocproc_none h with ⟨-, rfl⟩ | ⟨np, m, -, -, rfl⟩
    · exact hs
    · intro q pt hpt
      by_cases hq : q = np
      · subst hq
        simp [rooms, Proc.room, Proc.clear] at hpt
      · refine hs q pt ?_
        simpa [rooms, hq] using hpt
  | some np =>
    obtain ⟨-, tf, m, pt₀, m', -, hpt₀, rfl⟩ := allocproc_some h
    intro q pt hpt
    by_cases hq : q = np
    · subst hq
      simp only [rooms, Proc.room, Function.update_self, Option.some.injEq] at hpt
      exact hpt ▸ (procPagetable_built hpt₀).sane
    · refine hs q pt ?_
      simpa [rooms, hq] using hpt

theorem Sane.fork {v : Int} (hs : k.Sane) (h : k.fork p = .ok (v, k')) : k'.Sane := by
  rcases fork_ok h with h | ⟨np, k₁, old, new, m, new', halloc, hold, hnew, ⟨-, hfree⟩ | ⟨hcopy, hrest⟩⟩
  · exact hs.allocproc h
  · have hs₁ := hs.allocproc halloc
    obtain ⟨-, tf, pt, hnp⟩ := allocproc_some_proc halloc
    rw [freeproc_of_ungrouped (by simp [Kernel.setTable, hnp, Proc.claim])] at hfree
    -- the table that is left half-way goes with the slot
    intro q pt hpt
    rw [(freeSelf_rooms hfree).1] at hpt
    by_cases hq : q = np
    · subst hq
      rw [Function.update_self] at hpt
      cases hpt
    · rw [Function.update_of_ne hq] at hpt
      refine hs₁ q pt ?_
      simpa [rooms, Kernel.setTable, modify_proc_ne hq] using hpt
  · have hs₁ := hs.allocproc halloc
    obtain ⟨ntf, regs, ft, ir, files, cwd, name, -, rfl⟩ := hrest
    have hnew' : new'.Sane := (hs₁ p old hold).copy (hs₁ np new hnew) hcopy
    intro q pt hpt
    by_cases hq : q = np
    · subst hq
      simp only [rooms, Proc.room, Function.update_self, Option.some.injEq] at hpt
      exact hpt ▸ hnew'
    · refine hs₁ q pt ?_
      simpa [rooms, hq] using hpt

theorem Sane.mapStack {curr : Nat} {stack : Ppn} (hs : k.Sane) (h : mapStack curr stack k q = .ok k') :
    k'.Sane := by
  have hs₀ : (k.modify q fun pr => { pr with sz := curr + pgSize }).Sane :=
    hs.update (rooms_modify k q _) fun pt hpt => hs q pt hpt
  obtain ⟨⟨c, k₁⟩, hmap, h⟩ := Except.bind_ok_iff.1 h
  cases h
  unfold mapInto at hmap
  split at hmap
  · cases hmap
  · rename_i pt hpt
    obtain ⟨⟨c', m, pt'⟩, hpages, hmap⟩ := Except.bind_ok_iff.1 hmap
    cases hmap
    exact hs₀.setTable m q ((hs₀ q pt hpt).mappages (by decide) hpages)

theorem Sane.threadCreate {start arg : Nat} {v : Int} (hs : k.Sane)
    (h : k.threadCreate p start arg = .ok (v, k')) : k'.Sane := by
  rcases threadCreate_ok h with h | ⟨np, k₁, k₂, pt, npt, c, m, npt', halloc, henter, hpt, hnpt, hshare, hend⟩
  · exact hs.allocproc h
  have hs₂ : k₂.Sane := (hs.allocproc halloc).of_rooms
    ((balanced_foundGroup k₁ p).trans (enterGroup_balanced henter)).rooms
  obtain ⟨hi, hsh, -⟩ := uvmshare_ok hshare
  have hnpt' : npt'.Sane := (hs₂ p pt hpt).share (hs₂ np npt hnpt) hsh
  have hs₃ : ∀ m₀, Sane { { k₂ with mem := m }.setTable np npt' with mem := m₀ } := fun m₀ =>
    (hs₂.setTable m np hnpt').of_rooms (rooms_of_proc rfl)
  rcases hend with ⟨m', -, hleave⟩ | ⟨stack, m', k₃, -, hloop, hstart⟩
  · exact (hs₃ m').of_rooms (leaveGroup_balanced hleave).rooms
  · have hs₄ : k₃.Sane := ringLoop_invariant (P := Kernel.Sane) (fun k₅ q k₆ h₅ hbody => h₅.mapStack hbody) (hs₃ _) hloop
    exact hs₄.of_rooms (startThread_balanced hstart).rooms

end Kernel

/-! ## Every step -/

section

variable {l : List Slot} {pt npt : PageTable} {tf stack : Ppn} {v hi : Nat}

theorem Mem.inRange_congr {m m' : Mem} (h : m'.kend = m.kend) : m'.InRange f ↔ m.InRange f := by
  rw [InRange, InRange, h]

/-- The page of a new stack is mapped right above what was mapped. -/
theorem Room.removable_of_stacked (h : Room.Stacked v stack room room')
    (hhollow : ∀ pt, room.table = some pt → pt.Hollow (v * pgSize)) (x : Entry) : room'.Removable x := by
  obtain ⟨pt, pt', hpt, hpt', ha, -⟩ := h.table
  refine ⟨?_, fun _ _ => ?_, fun _ pt₁ hpt₁ u hu hu' => ?_⟩
  · rw [h.size]
    exact Nat.mul_mod_left _ _
  · rw [h.size]
    exact Nat.mul_pos (Nat.succ_pos v) (by decide)
  · obtain rfl := Option.some.inj (hpt'.symm.trans hpt₁)
    rw [h.size, pagesBelow_mul] at hu
    have hlim := userPages_lt
    rcases ha u (by omega) with heq | ⟨-, hlt, -⟩
    · rw [heq]
      exact hhollow pt hpt u (by rw [pagesBelow_mul]; omega) hu'
    · omega

theorem Kernel.Copies.removable (h : k.Copies p np pt tf k') (hm : Move k (.call p .fork) k'.entries)
    (hen : k.enabled (.call p .fork) = true) (hE : k.entries.WellGrouped) (hH : Housed k)
    (hp : (k.rooms p).table ≠ none) (hsane : k'.Sane) (hR : Removable k) : Removable k' := by
  have hrun : (k.proc p).state = .running ∧ (k.proc p).killed = false := by simpa [Kernel.enabled] using hen
  have hpen : (k.entries p).Enrolled :=
    Entry.enrolled_of_active (by simp [Kernel.entries, Proc.entry, hrun.1, ProcState.phase])
  have hnp := Kernel.findUnused_phase h.slot
  have hown : ∀ f, ¬ k.mem.InRange f → k.owned (single f) = 0 := hR.own
  have hself : k'.rooms np = ⟨some pt, some tf, (k.rooms p).size⟩ := by rw [h.rooms, Function.update_self]
  have hother : ∀ q, q ≠ np → k'.rooms q = k.rooms q := fun q hq => by rw [h.rooms, Function.update_of_ne hq]
  have hbefore : ∀ q, q ≠ np → (k'.entries q).Enrolled → (k.entries q).Enrolled ∧ k'.leaderOf q = k.leaderOf q :=
    fun q hq hqen => (Kernel.enrolled_before hm hen hqen).resolve_left fun hfind =>
      hq (Option.some.inj (hfind.symm.trans h.slot))
  have hLnp : k'.leaderOf np = np := Kernel.leaderOf_process (hm.wellGrouped hE)
    (Entry.enrolled_of_active h.started) (Kernel.forked_process hm hE h.slot h.started)
  have hapart : ∀ q, q ≠ np → (k'.entries q).Enrolled → k'.leaderOf q ≠ k'.leaderOf np := by
    intro q hq hqen
    obtain ⟨hold, hL⟩ := hbefore q hq hqen
    rw [hLnp, hL]
    exact Kernel.leaderOf_ne_unused hE hold hnp
  refine ⟨fun q => ?_, fun q q' hq hq' hne hne' hL => ?_, hsane, fun f hf => ?_, fun f hf q => ?_⟩
  · by_cases hqn : q = np
    · subst hqn
      rw [hself]
      refine ⟨(hR.room p).aligned, fun _ _ => (hR.room p).filled hpen hp, fun _ pt' hpt' => ?_⟩
      cases hpt'
      exact h.hollow
    · rw [hother q hqn]
      exact Kernel.removable_keep hm hen hH (hR.room q)
  · by_cases hqn : q = np
    · by_cases hqn' : q' = np
      · rw [hqn, hqn']
      · exact absurd (hqn ▸ hL).symm (hapart q' hqn' hq')
    · by_cases hqn' : q' = np
      · exact absurd (hqn' ▸ hL) (hapart q hqn hq)
      · obtain ⟨hold, hlead⟩ := hbefore q hqn hq
        obtain ⟨hold', hlead'⟩ := hbefore q' hqn' hq'
        rw [hlead, hlead'] at hL
        rw [hother q hqn] at hne ⊢
        rw [hother q' hqn'] at hne' ⊢
        exact hR.level q q' hold hold' hne hne' hL
  · rw [Mem.inRange_congr h.kend] at hf
    have := h.owned (single f)
    have := hown f hf
    omega
  · rw [Mem.inRange_congr h.kend] at hf
    by_cases hqn : q = np
    · subst hqn
      rw [hself, Room.user_of_table rfl]
      have := h.owned (single f)
      have := hown f hf
      omega
    · rw [hother q hqn]
      exact hR.use f hf q

theorem Kernel.Spawns.removable (h : k.Spawns p l k' np pt npt tf stack v) (hm : Move k e k'.entries)
    (hen : k.enabled e = true) (hE : k.entries.WellGrouped) (hH : Housed k)
    (hp : (k.entries p).phase = .active) (ht : k.Team p l) (hsane : k'.Sane) (hR : Removable k) : Removable k' := by
  have hpen := Entry.enrolled_of_active hp
  have hp' : (k.proc p).state.phase = .active := hp
  have hown : ∀ f, ¬ k.mem.InRange f → k.owned (single f) = 0 ∧ single f stack = 0 ∧ k'.owned (single f) = 0 := by
    intro f hf
    have := h.owned (single f)
    have := hR.own f hf
    omega
  have hv : v ≤ userPages := by
    have := pagesBelow_le_userPages (hH p).size_le
    rwa [h.size, pagesBelow_mul] at this
  have hbefore : ∀ q, q ≠ np → (k'.entries q).Enrolled → (k.entries q).Enrolled ∧ k'.leaderOf q = k.leaderOf q :=
    fun q hq hqen => (Kernel.enrolled_before hm hen hqen).resolve_left fun hfind =>
      hq (Option.some.inj (hfind.symm.trans h.slot))
  -- the members have the size of `p`
  have hmember : ∀ q ∈ l, ∀ ptq, (k.rooms q).table = some ptq → ptq.Hollow (v * pgSize) := by
    intro q hq ptq hptq
    have hqen : (k.entries q).Enrolled := by
      cases ht with
      | single =>
        obtain rfl : q = p := by simpa using hq
        exact hpen
      | group _ hg => exact ((hg.mem_iff q).1 hq).2
    have hsize := hR.level q p hqen hpen (by rw [hptq]; nofun) (by rw [h.table]; nofun) (ht.leaderOf_eq hq)
    rw [← h.size, ← hsize]
    exact (hR.room q).hollow hqen ptq hptq
  have hnew : ∀ pt', Room.table ⟨some npt, some tf, 0⟩ = some pt' → pt'.Hollow (v * pgSize) := by
    intro pt' hpt' u hu hu'
    cases hpt'
    rw [pagesBelow_mul] at hu
    exact h.hosts.hollow u hu hu'
  have hsize : ∀ q ∈ np :: l, (k'.rooms q).size = (v + 1) * pgSize := by
    intro q hq
    rcases List.mem_cons.1 hq with rfl | hq
    · exact h.newcomer.size
    · exact (h.member q hq).size
  have hlead : ∀ q, (k'.entries q).Enrolled → (q ∈ np :: l ↔ k'.leaderOf q = k.leaderOf p) := by
    intro q hqen
    by_cases hqn : q = np
    · subst hqn
      simp [h.leader]
    · obtain ⟨hold, hL⟩ := hbefore q hqn hqen
      rw [hL, List.mem_cons]
      exact ⟨fun hq => ht.leaderOf_eq (hq.resolve_left hqn), fun hL => .inr (ht.mem_of_leader hE hold hL)⟩
  refine ⟨fun q => ?_, fun q q' hq hq' hne hne' hL => ?_, hsane, fun f hf => ?_, fun f hf q => ?_⟩
  · by_cases hqn : q = np
    · subst hqn
      exact Room.removable_of_stacked h.newcomer hnew _
    · by_cases hql : q ∈ l
      · exact Room.removable_of_stacked (h.member q hql) (hmember q hql) _
      · rw [h.other q (by simp [hqn, hql])]
        exact Kernel.removable_keep hm hen hH (hR.room q)
  · by_cases hql : q ∈ np :: l
    · rw [hsize q hql, hsize q' ((hlead q' hq').2 (hL ▸ (hlead q hq).1 hql))]
    · have hql' : q' ∉ np :: l := fun hmem => hql ((hlead q hq).2 (hL.trans ((hlead q' hq').1 hmem)))
      obtain ⟨hold, hlq⟩ := hbefore q (fun heq => hql (by simp [heq])) hq
      obtain ⟨hold', hlq'⟩ := hbefore q' (fun heq => hql' (by simp [heq])) hq'
      rw [hlq, hlq'] at hL
      rw [h.other q hql] at hne ⊢
      rw [h.other q' hql'] at hne' ⊢
      exact hR.level q q' hold hold' hne hne' hL
  · rw [Mem.inRange_congr h.kend] at hf
    exact (hown f hf).2.2
  · rw [Mem.inRange_congr h.kend] at hf
    obtain ⟨-, hstack, -⟩ := hown f hf
    by_cases hqn : q = np
    · subst hqn
      have h₁ := (Kernel.user_of_stacked h.newcomer (single f)).2
      have h₂ := h.hosts.user_le hv (single f)
      have h₃ := hR.use f hf p
      rw [Room.user_of_table h.table] at h₃
      rw [Room.user_of_table (r := ⟨some npt, some tf, 0⟩) rfl] at h₁
      omega
    · by_cases hql : q ∈ l
      · have h₁ := (Kernel.user_of_stacked (h.member q hql) (single f)).2
        have h₂ := hR.use f hf q
        omega
      · rw [h.other q (by simp [hqn, hql])]
        exact hR.use f hf q

/-- Some slots are emptied; the others, and the pages that have an owner, stay. -/
theorem Removable.empty (hR : Removable k) (hm : Move k e k'.entries) (hen : k.enabled e = true) (hH : Housed k)
    (hrooms : ∀ q, (k'.rooms q).table = none ∧ (k'.rooms q).size = 0 ∨ k'.rooms q = k.rooms q)
    (hkend : k'.mem.kend = k.mem.kend) (hown : ∀ f, ¬ k.mem.InRange f → k'.owned (single f) = 0) : Removable k' := by
  refine ⟨fun q => ?_, Kernel.level_keep hm hen hH hR.level fun q => (hrooms q).imp_left And.left, fun q pt hpt => ?_,
    fun f hf => hown f (by rwa [Mem.inRange_congr hkend] at hf), fun f hf q => ?_⟩
  · rcases hrooms q with ⟨hnone, hsize⟩ | heq
    · exact Room.removable_of_bare hnone hsize _
    · rw [heq]
      exact Kernel.removable_keep hm hen hH (hR.room q)
  · rcases hrooms q with ⟨hnone, -⟩ | heq
    · rw [hnone] at hpt
      cases hpt
    · exact hR.sane q pt (heq ▸ hpt)
  · rw [Mem.inRange_congr hkend] at hf
    rcases hrooms q with ⟨hnone, -⟩ | heq
    · exact Room.user_of_none hnone
    · rw [heq]
      exact hR.use f hf q

theorem Transfer.removable (ht : Transfer k e k') (hs : e.KeepsSize) (hm : Move k e k'.entries)
    (hen : k.enabled e = true) (hE : k.entries.WellGrouped) (hH : Housed k)
    (hp : ∀ p c, e = .call p c → (k.rooms p).table ≠ none) (hsane : k'.Sane) (hR : Removable k) : Removable k' := by
  cases ht with
  | rest h =>
    refine hR.empty hm hen hH (fun q => .inr (congrFun h.rooms q)) h.kend fun f hf => ?_
    rw [h.owned]
    exact hR.own f hf
  | forkLost h =>
    refine hR.empty hm hen hH (fun q => .inr (congrFun h.rooms q)) h.kend fun f hf => ?_
    have := h.owned (single f)
    have := hR.own f hf
    omega
  | fork h => exact h.removable hm hen hE hH (hp _ _ rfl) hsane hR
  | execBad => cases hs
  | exec => cases hs
  | grow => cases hs
  | shrink => cases hs
  | create hact hteam _ h => exact h.removable hm hen hE hH hact hteam hsane hR
  | @createBad p np start arg pt npt tf hi _ _ h =>
    have hother : ∀ q, q ≠ np → k'.rooms q = k.rooms q := fun q hq => by rw [h.rooms, Function.update_of_ne hq]
    have hself : k'.rooms np = ⟨some npt, some tf, 0⟩ := by rw [h.rooms, Function.update_self]
    -- the slot that is left behind is in no group
    have hnp : ¬ (k'.entries np).Enrolled := fun hn => hn.2 h.left
    have hempty := (hH np).vacant (Kernel.findUnused_phase h.slot)
    have hne : ∀ q, (k'.entries q).Enrolled → q ≠ np := fun q hq heq => hnp (heq ▸ hq)
    have hbefore : ∀ q, (k'.entries q).Enrolled → (k.entries q).Enrolled ∧ k'.leaderOf q = k.leaderOf q :=
      fun q hq => (Kernel.enrolled_before hm hen hq).resolve_left fun hfind =>
        hne q hq (Option.some.inj (hfind.symm.trans h.slot))
    refine ⟨fun q => ?_, fun q q' hq hq' hn hn' hL => ?_, hsane, fun f hf => ?_, fun f hf q => ?_⟩
    · by_cases hq : q = np
      · subst hq
        rw [hself]
        exact ⟨rfl, fun hn => absurd hn hnp, fun hn => absurd hn hnp⟩
      · rw [hother q hq]
        exact Kernel.removable_keep hm hen hH (hR.room q)
    · obtain ⟨hold, hlq⟩ := hbefore q hq
      obtain ⟨hold', hlq'⟩ := hbefore q' hq'
      rw [hlq, hlq'] at hL
      rw [hother q (hne q hq)] at hn ⊢
      rw [hother q' (hne q' hq')] at hn' ⊢
      exact hR.level q q' hold hold' hn hn' hL
    · rw [Mem.inRange_congr h.kend] at hf
      rw [h.owned]
      exact hR.own f hf
    · rw [Mem.inRange_congr h.kend] at hf
      by_cases hq : q = np
      · subst hq
        rw [hself, Room.user_of_table rfl]
        have hhi := h.limit.trans (pagesBelow_le_userPages (hH p).size_le)
        have h₁ := h.hosts.user_le hhi (single f)
        have h₂ := hR.use f hf p
        rw [Room.user_of_table h.table] at h₂
        omega
      · rw [hother q hq]
        exact hR.use f hf q
  | @exit _ p _ he hact hthread h =>
    refine hR.empty hm hen hH (fun q => ?_) h.kend fun f hf => ?_
    · by_cases hq : q = p
      · subst hq
        rw [h.rooms, Function.update_self]
        refine .inl ⟨rfl, ?_⟩
        cases htable : (k.rooms q).table with
        | none => simp [Room.dropTable, htable, (hH q).bare htable]
        | some pt => simp [Room.dropTable, htable]
      · rw [h.rooms, Function.update_of_ne hq]
        exact .inr rfl
    · have h₁ := hR.own f hf
      have h₂ := freedBy_le true (k.mem.refcount f) ((k.rooms p).user (single f))
      rw [hR.use f hf p] at h₂
      rw [h.owned, hR.use f hf p]
      omega
  | @reapProcess _ r _ hr h =>
    refine hR.empty hm hen hH (fun q => ?_) h.kend fun f hf => by rw [h.owned]; exact hR.own f hf
    by_cases hq : q = r
    · subst hq
      rw [h.rooms, Function.update_self]
      exact .inl ⟨rfl, rfl⟩
    · rw [h.rooms, Function.update_of_ne hq]
      exact .inr rfl
  | @reapGroup _ L ms _ hr h =>
    refine hR.empty hm hen hH (fun q => ?_) h.kend fun f hf => by rw [h.owned]; exact hR.own f hf
    by_cases hqL : q = L
    · rw [hqL, h.leader]
      exact .inl ⟨rfl, rfl⟩
    by_cases hqm : q ∈ ms
    · rw [h.member q hqm, (hH q).release]
      exact .inl ⟨rfl, rfl⟩
    · exact .inr (h.other q (by simp [hqL, hqm]))

/-- The tables after a step are sane if those before it are. -/
theorem Transfer.sane (ht : Transfer k e k') (hs : e.KeepsSize) (hstep : k.step e = .ok (r, k')) (hsane : k.Sane) :
    k'.Sane := by
  have hcreate : ∀ {p start arg}, k.step (.call p (.threadCreate start arg)) = .ok (r, k') → k'.Sane := by
    intro p start arg h
    obtain ⟨v, hv⟩ := Kernel.returns_ok h
    exact hsane.threadCreate hv
  have hempty : ∀ {q}, k'.rooms = Function.update k.rooms q .empty → k'.Sane := fun h =>
    hsane.update h fun _ hpt => by cases hpt
  cases ht with
  | rest h => exact hsane.of_rooms h.rooms
  | forkLost h => exact hsane.of_rooms h.rooms
  | fork h =>
    obtain ⟨v, hv⟩ := Kernel.returns_ok hstep
    exact hsane.fork hv
  | execBad => cases hs
  | exec => cases hs
  | grow => cases hs
  | shrink => cases hs
  | create => exact hcreate hstep
  | createBad => exact hcreate hstep
  | exit _ _ _ h => exact hsane.update h.rooms fun _ hpt => by cases hpt
  | reapProcess _ h => exact hempty h.rooms
  | @reapGroup _ L ms _ _ h =>
    intro q pt hpt
    by_cases hqL : q = L
    · rw [hqL, h.leader] at hpt
      cases hpt
    by_cases hqm : q ∈ ms
    · rw [h.member q hqm] at hpt
      cases hpt
    · rw [h.other q (by simp [hqL, hqm])] at hpt
      exact hsane q pt hpt

end

/-! ## Runs -/

/-- The run resizes no process. -/
def Kernel.KeepsSize (_ : Kernel) (e : Event) : Prop := e.KeepsSize

instance (k : Kernel) (e : Event) : Decidable (k.KeepsSize e) := inferInstanceAs (Decidable e.KeepsSize)

theorem Boot.main_sane (h : b.main = .ok k) : k.Sane := by
  obtain ⟨p, k₁, pt, tf, f, m, c, m', pt', halloc, hpt, -, -, hmap, ir, regs, rfl⟩ := Kernel.userinit_ok h
  have hzero : b.procinit.Sane := fun q pt hpt => by cases hpt
  have hs₁ := hzero.allocproc halloc
  have hpt' : pt'.Sane := (hs₁ p pt hpt).mappages (by decide) hmap
  intro q pt₁ hpt₁
  by_cases hq : q = p
  · subst hq
    simp only [Kernel.rooms, Proc.room, Function.update_self, Option.some.injEq] at hpt₁
    exact hpt₁ ▸ hpt'
  · refine hs₁ q pt₁ ?_
    simpa [Kernel.rooms, hq] using hpt₁

theorem Boot.main_removable (h : b.main = .ok k) : Removable k := by
  obtain ⟨p, pt, tf, f₀, hb⟩ := Boot.main_begins h
  have hself : k.rooms p = ⟨some pt, some tf, pgSize⟩ := by rw [hb.rooms, Function.update_self]
  have hother : ∀ q, q ≠ p → k.rooms q = .empty := fun q hq => by rw [hb.rooms, Function.update_of_ne hq]
  have hfree : ∀ f, ¬ k.mem.InRange f → ofList (single f) b.pool = 0 := by
    intro f hf
    refine ofList_single_eq_zero.2 fun hmem => hf ?_
    rw [Mem.inRange_congr (m := b.procinit.mem) hb.kend]
    exact b.procinit_ranged f hmem
  have honly : ∀ q, (k.rooms q).table ≠ none → q = p := by
    intro q hne
    by_contra hq
    rw [hother q hq] at hne
    exact hne rfl
  refine ⟨fun q => ?_, fun q q' _ _ hne hne' _ => by rw [honly q hne, honly q' hne'], Boot.main_sane h,
    fun f hf => ?_, fun f hf q => ?_⟩
  · by_cases hq : q = p
    · subst hq
      rw [hself]
      refine ⟨Nat.mod_self pgSize, fun _ _ => (by decide : 0 < pgSize), fun _ pt' hpt' => ?_⟩
      cases hpt'
      exact hb.hollow
    · rw [hother q hq]
      exact Room.removable_of_bare rfl rfl _
  · have := hb.owned (single f)
    have := hfree f hf
    omega
  · by_cases hq : q = p
    · subst hq
      have h₁ := hb.user_le (single f)
      have h₂ := hb.owned (single f)
      have h₃ := hfree f hf
      rw [Room.user_of_table hb.table]
      omega
    · rw [hother q hq]
      rfl

/-- In every run that resizes no process every slot can be released. -/
theorem removable_of_reaches (h : (system b).Reaches Kernel.KeepsSize k) : Housed k ∧ Removable k := by
  refine (h.invariant (P := fun k => (k.entries.WellGrouped ∧ ∀ q, (k.proc q).Equipped) ∧ Housed k ∧ Removable k)
    (fun k hk => ⟨⟨Boot.main_wellGrouped hk, equipped_of_reachable (.init hk)⟩, Boot.main_housed hk,
      Boot.main_removable hk⟩) ?_).2
  rintro k e k' ⟨⟨hE, hq⟩, hH, hR⟩ hs ⟨hen, r, hstep⟩
  have hm := Kernel.step_move hE hen hstep
  have hkit : ∀ p c, e = .call p c → (k.rooms p).table ≠ none := by
    rintro p c rfl
    have hp : (k.proc p).state = .running ∧ (k.proc p).killed = false := by simpa [Kernel.enabled] using hen
    exact (hq p (by rw [hp.1]; rfl)).1
  have htidy : k.Tidy e := by
    cases e with
    | call p c =>
      cases c with
      | sbrk n => cases hs
      | threadCreate start arg => exact (hR.room p).aligned
      | _ => trivial
    | _ => trivial
  have ht := Kernel.step_transfer hE hH htidy hen hstep
  exact ⟨⟨hm.wellGrouped hE, fun q => Kernel.step_outfits hen hstep q (hq q)⟩, ht.housed hm hH,
    ht.removable hs hm hen hE hH hkit (ht.sane hs hstep hR.sane) hR⟩

end Xv6
