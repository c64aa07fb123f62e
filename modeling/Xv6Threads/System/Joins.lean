-- SUMMARY: Thread ids are distinct in a group, and thread_join returns once for each thread, to its creator or to init.
import Xv6Threads.System.Chronicle

/-!
# Joins

Thread ids come from a counter of the leader that a failing `thread_create`
rolls back. `Numbered` says that the counter is ahead of all ids given out, so
ids are distinct in a group. `Threads` relates the table to the chronicle of
the run: who created a thread, that an exited thread has run `thread_exit`, and
that a joined thread stays a ghost until its slot is released.
-/

namespace Xv6

variable {b : Boot} {k k' : Kernel} {e : Event} {E E' : Entries} {p q c L np : Slot} {r : Option Int}
  {h : Chronicle}

/-! ## Ids -/

/-- Only threads have an id, and the leader's counter is at least the id of
every thread of its group. Ids of one group are distinct. -/
structure Entries.Numbered (E : Entries) : Prop where
  counter : ∀ q, 0 ≤ (E q).numChildren
  zero : ∀ q, (E q).isThread = false → (E q).phase ≠ .used → (E q).tid = 0
  range : ∀ c L, (E c).isThread = true → (E c).groupLeader = some L →
    0 < (E c).tid ∧ (E c).tid ≤ (E L).numChildren
  distinct : ∀ c c', (E c).isThread = true → (E c').isThread = true →
    (E c).groupLeader = (E c').groupLeader → (E c).tid = (E c').tid → c = c'

namespace Entries.Numbered

/-- Ids, leaders and counters are kept, and no slot leaves state `USED`. -/
theorem congr (h : E.Numbered)
    (hs : ∀ q, (E' q).isThread = (E q).isThread ∧ (E' q).tid = (E q).tid ∧
      (E' q).groupLeader = (E q).groupLeader ∧ (E' q).numChildren = (E q).numChildren ∧
      ((E' q).phase ≠ .used → (E q).phase ≠ .used)) : E'.Numbered where
  counter q := by
    rw [(hs q).2.2.2.1]
    exact h.counter q
  zero q hq hu := by
    obtain ⟨ht, htid, -, -, hph⟩ := hs q
    rw [htid]
    exact h.zero q (ht ▸ hq) (hph hu)
  range c L hc hL := by
    obtain ⟨ht, htid, hlead, -, -⟩ := hs c
    obtain ⟨-, -, -, hnum, -⟩ := hs L
    rw [htid, hnum]
    exact h.range c L (ht ▸ hc) (hlead ▸ hL)
  distinct c c' hc hc' hL htid := by
    obtain ⟨ht, htid₁, hlead, -, -⟩ := hs c
    obtain ⟨ht', htid₂, hlead', -, -⟩ := hs c'
    rw [hlead, hlead'] at hL
    rw [htid₁, htid₂] at htid
    exact h.distinct c c' (ht ▸ hc) (ht' ▸ hc') hL htid

/-- A slot that leads no thread is given to a process. -/
theorem update (h : E.Numbered) {x : Entry} (hx : x.isThread = false)
    (htid : x.phase ≠ .used → x.tid = 0) (hnum : 0 ≤ x.numChildren)
    (hlead : ∀ c, (E c).isThread = true → (E c).groupLeader ≠ some p) :
    Numbered (Function.update E p x) := by
  have hne : ∀ c, (Function.update E p x c).isThread = true → c ≠ p := fun c hc heq => by
    rw [heq, Function.update_self, hx] at hc
    cases hc
  refine ⟨fun q => ?_, fun q hq hu => ?_, fun c L hc hL => ?_, fun c c' hc hc' hL ht => ?_⟩
  · by_cases hqp : q = p
    · subst hqp
      rwa [Function.update_self]
    · rw [Function.update_of_ne hqp]
      exact h.counter q
  · by_cases hqp : q = p
    · subst hqp
      rw [Function.update_self] at hu ⊢
      exact htid hu
    · rw [Function.update_of_ne hqp] at hq hu ⊢
      exact h.zero q hq hu
  · have hcp := hne c hc
    rw [Function.update_of_ne hcp] at hc hL ⊢
    have hLp : L ≠ p := fun heq => hlead c hc (heq ▸ hL)
    rw [Function.update_of_ne hLp]
    exact h.range c L hc hL
  · have hcp := hne c hc
    have hcp' := hne c' hc'
    rw [Function.update_of_ne hcp] at hc hL ht
    rw [Function.update_of_ne hcp'] at hc' hL ht
    exact h.distinct c c' hc hc' hL ht

end Entries.Numbered

/-- Threads have a leader that is on its own ring. -/
theorem Entries.WellGrouped.leader_enrolled (hE : E.WellGrouped) (hc : (E c).isThread = true)
    (hL : (E c).groupLeader = some L) : (E L).groupLeader = some L ∧ (E L).Enrolled := by
  obtain ⟨ms, hg⟩ := hE.group c L hL (hE.thread c hc).1
  exact hg.leader

theorem Entries.Numbered.found (h : E.Numbered) (hE : E.WellGrouped) : (E.found p).Numbered := by
  by_cases hnone : (E p).groupLeader = none
  · have hthread : (E p).isThread = false := by
      by_contra ht
      obtain ⟨-, L, -, hL⟩ := hE.thread p (by simpa using ht)
      rw [hnone] at hL
      cases hL
    unfold Entries.found
    rw [if_pos hnone]
    refine h.update hthread (h.zero p hthread) le_rfl fun c hc hL => ?_
    rw [(hE.leader_enrolled hc hL).1] at hnone
    cases hnone
  · unfold Entries.found
    rwa [if_neg hnone]

/-- A new thread gets the next id of its group. -/
theorem Entries.Numbered.linkIn (h : E.Numbered) (hE : E.WellGrouped) {ms : List Slot}
    (hg : E.Group L ms) (hnp : (E np).phase = .unused) {x : Entry} (hx : x.isThread = true)
    (hleader : x.groupLeader = some L) (htid : x.tid = (E L).numChildren + 1)
    (hnum : 0 ≤ x.numChildren) : (E.linkIn L np x).Numbered := by
  have hpos := h.counter L
  have hself : E.linkIn L np x np = x := by simp [Entries.linkIn]
  have hother : ∀ q, q ≠ np → (E.linkIn L np x q).isThread = (E q).isThread ∧
      (E.linkIn L np x q).tid = (E q).tid ∧ (E.linkIn L np x q).groupLeader = (E q).groupLeader ∧
      (E.linkIn L np x q).phase = (E q).phase ∧
      (E.linkIn L np x q).numChildren = if q = L then (E q).numChildren + 1 else (E q).numChildren := by
    intro q hq
    simp [Entries.linkIn, hq]
  have hLnp : L ≠ np := fun heq => hg.leader.2.1 (heq ▸ hnp)
  -- the ids given out before are at most the old counter
  have hold : ∀ c, c ≠ np → (E.linkIn L np x c).isThread = true →
      (E.linkIn L np x c).groupLeader = some L → (E.linkIn L np x c).tid ≤ (E L).numChildren := by
    intro c hc ht hL
    obtain ⟨hthread, htid', hlead, -, -⟩ := hother c hc
    rw [htid']
    exact (h.range c L (hthread ▸ ht) (hlead ▸ hL)).2
  refine ⟨fun q => ?_, fun q hq hu => ?_, fun c L' hc hL => ?_, fun c c' hc hc' hL ht => ?_⟩
  · by_cases hqnp : q = np
    · subst hqnp
      rwa [hself]
    · have := h.counter q
      rw [(hother q hqnp).2.2.2.2]
      split <;> omega
  · by_cases hqnp : q = np
    · subst hqnp
      rw [hself, hx] at hq
      cases hq
    · obtain ⟨hthread, htid', -, hph, -⟩ := hother q hqnp
      rw [htid']
      exact h.zero q (hthread ▸ hq) (hph ▸ hu)
  · by_cases hcnp : c = np
    · subst hcnp
      rw [hself] at hL ⊢
      obtain rfl : L = L' := Option.some.inj (hleader.symm.trans hL)
      rw [(hother L hLnp).2.2.2.2, if_pos rfl, htid]
      omega
    · obtain ⟨hthread, htid', hlead, -, -⟩ := hother c hcnp
      rw [hthread] at hc
      rw [hlead] at hL
      have hL'np : L' ≠ np := fun heq => (hE.leader_enrolled hc hL).2.1 (heq ▸ hnp)
      obtain ⟨hlo, hhi⟩ := h.range c L' hc hL
      rw [htid', (hother L' hL'np).2.2.2.2]
      split <;> omega
  · by_cases hcnp : c = np
    · by_cases hcnp' : c' = np
      · rw [hcnp, hcnp']
      · subst hcnp
        rw [hself] at hL ht
        have := hold c' hcnp' hc' (hL.symm.trans hleader)
        rw [← ht, htid] at this
        omega
    · by_cases hcnp' : c' = np
      · subst hcnp'
        rw [hself] at hL ht
        have := hold c hcnp hc (hL.trans hleader)
        rw [ht, htid] at this
        omega
      · obtain ⟨h₁, h₂, h₃, -, -⟩ := hother c hcnp
        obtain ⟨h₁', h₂', h₃', -, -⟩ := hother c' hcnp'
        rw [h₂, h₂'] at ht
        rw [h₃, h₃'] at hL
        exact h.distinct c c' (h₁ ▸ hc) (h₁' ▸ hc') hL ht

theorem Entries.Numbered.dropRef_update (h : E.Numbered) {ph : Phase} (hp : (E p).phase ≠ .used) :
    Numbered (Function.update (Function.update E L (E L).dropRef) p { E p with phase := ph }) := by
  refine h.congr fun q => ?_
  by_cases hqp : q = p
  · subst hqp
    rw [Function.update_self]
    exact ⟨rfl, rfl, rfl, rfl, fun _ => hp⟩
  · rw [Function.update_of_ne hqp]
    by_cases hqL : q = L
    · subst hqL
      rw [Function.update_self]
      unfold Entry.dropRef
      split <;> exact ⟨rfl, rfl, rfl, rfl, id⟩
    · rw [Function.update_of_ne hqL]
      exact ⟨rfl, rfl, rfl, rfl, id⟩

theorem Move.numbered (hm : Move k e E') (hE : k.entries.WellGrouped) (h : k.entries.Numbered) :
    E'.Numbered := by
  -- nobody's leader is a slot that is not in use
  have hidle : ∀ {np}, k.findUnused = some np → ∀ c, (k.entries c).isThread = true →
      (k.entries c).groupLeader ≠ some np :=
    fun hf c hc hL => (hE.leader_enrolled hc hL).2.1 (Kernel.findUnused_phase hf)
  have hblank : ∀ {np}, k.findUnused = some np → (k.entries np).isThread = false ∧ (k.entries np).tid = 0 := by
    intro np hf
    have hu := Kernel.findUnused_phase hf
    have ht := (hE.idle np hu).2
    exact ⟨ht, h.zero np ht (by simp [hu])⟩
  cases hm with
  | quiet => exact h
  | strike _ q _ =>
    refine h.congr fun q' => ?_
    by_cases hq : q' = q
    · subst hq
      rw [Function.update_self]
      exact ⟨rfl, rfl, rfl, rfl, id⟩
    · rw [Function.update_of_ne hq]
      exact ⟨rfl, rfl, rfl, rfl, id⟩
  | allocFail _ np _ hfind => exact h.update rfl (fun _ => rfl) le_rfl (hidle hfind)
  | fork _ np _ hfind =>
    exact h.update (hblank hfind).1 (fun _ => (hblank hfind).2) le_rfl (hidle hfind)
  | create p np L start arg ms x hp hfind hL hg hx =>
    subst hx
    obtain ⟨hfound, -⟩ := Kernel.exists_found_group hE hp
    exact (h.found hE).linkIn hfound hg ((Kernel.found_phase _ _ _).trans (Kernel.findUnused_phase hfind))
      rfl rfl rfl le_rfl
  | createBad p np L start arg x hp hfind hL hx =>
    subst hx
    refine (h.found hE).update (hblank hfind).1 (fun hu => absurd rfl hu) le_rfl fun c hc hcL => ?_
    obtain ⟨hfound, -⟩ := Kernel.exists_found_group hE hp
    exact (hfound.leader_enrolled hc hcL).2.1
      ((Kernel.found_phase _ _ _).trans (Kernel.findUnused_phase hfind))
  | threadExit _ p L _ hp _ _ _ => exact h.dropRef_update (by simp [hp])
  | processExit _ p _ hp _ =>
    refine h.congr fun q => ⟨rfl, rfl, rfl, rfl, fun hu => ?_⟩
    simp only [Kernel.retire] at hu
    split at hu
    · rename_i heq
      simp [heq, hp]
    · exact hu
  | reapThread _ q L _ hz _ _ => exact h.dropRef_update (by simp [hz])
  | reapProcess _ q _ _ hq =>
    refine h.update rfl (fun _ => rfl) le_rfl fun c hc hL => ?_
    rw [(hE.leader_enrolled hc hL).1] at hq
    cases hq
  | reapGroup _ L ms chan files _ _ hg _ =>
    have hin : ∀ q, q ∈ L :: ms → (k.entries.disband L ms chan files q).isThread = false ∧
        (k.entries.disband L ms chan files q).tid = 0 ∧
        (k.entries.disband L ms chan files q).numChildren = 0 := by
      intro q hq
      by_cases hqL : q = L
      · simp [Entries.disband, hqL, Entry.clear]
      · simp [Entries.disband, hqL, (List.mem_cons.1 hq).resolve_left hqL, Entry.release]
    have hout : ∀ q, q ∉ L :: ms → k.entries.disband L ms chan files q = k.entries q := by
      intro q hq
      simp only [List.mem_cons, not_or] at hq
      simp [Entries.disband, hq.1, hq.2]
    have hleft : ∀ q, (k.entries.disband L ms chan files q).isThread = true → q ∉ L :: ms :=
      fun q hq hmem => by rw [(hin q hmem).1] at hq; cases hq
    refine ⟨fun q => ?_, fun q hq hu => ?_, fun c L' hc hL => ?_, fun c c' hc hc' hL ht => ?_⟩
    · by_cases hmem : q ∈ L :: ms
      · rw [(hin q hmem).2.2]
      · rw [hout q hmem]
        exact h.counter q
    · by_cases hmem : q ∈ L :: ms
      · exact (hin q hmem).2.1
      · rw [hout q hmem] at hq hu ⊢
        exact h.zero q hq hu
    · have hcout := hleft c hc
      rw [hout c hcout] at hc hL ⊢
      -- the leader of a thread outside the ring is outside it too
      have hLout : L' ∉ L :: ms := fun hmem => by
        have hlead := ((hg.mem_iff L').1 hmem).1
        obtain ⟨hself, -⟩ := hE.leader_enrolled hc hL
        obtain rfl : L = L' := Option.some.inj (hlead.symm.trans hself)
        exact hcout ((hg.mem_iff c).2 ⟨hL, (hE.thread c hc).1⟩)
      rw [hout L' hLout]
      exact h.range c L' hc hL
    · have h₁ := hout c (hleft c hc)
      have h₂ := hout c' (hleft c' hc')
      rw [h₁] at hc hL ht
      rw [h₂] at hc' hL ht
      exact h.distinct c c' hc hc' hL ht

/-! ## What the calls return -/

/-- `thread_create` returns the id of the thread it has started. -/
theorem Kernel.threadCreate_result {start arg : Nat} {v : Int} (hE : k.entries.WellGrouped)
    (hp : (k.proc p).state.phase = .active) (h : k.threadCreate p start arg = .ok (v, k'))
    (hfind : k.findUnused = some c) (hact : (k'.entries c).phase = .active) : v = (k'.entries c).tid := by
  rcases Kernel.threadCreate_cases hE hp h with
    halloc | ⟨np, ms, k₁, k₂, pt, npt, cp, m, npt', halloc, hpnp, -, henter, -, hpt, hnpt, hshare, hend⟩
  · rcases Kernel.allocproc_none halloc with ⟨hnone, -⟩ | ⟨np, m, hfind', -, rfl⟩
    · rw [hnone] at hfind
      cases hfind
    · obtain rfl := Option.some.inj (hfind'.symm.trans hfind)
      simp [Kernel.entries, Proc.entry, Proc.clear, ProcState.phase] at hact
  have hleader : k₁.leaderOf p = k.leaderOf p := by
    simp [Kernel.leaderOf, (Kernel.allocproc_some_proc halloc).1 p hpnp]
  obtain rfl : np = c := Option.some.inj ((Kernel.allocproc_some halloc).1.symm.trans hfind)
  rcases hend with ⟨m', hk, -, hk'⟩ | ⟨stack, m', k₃, hk, hloop, -, hstart, -⟩
  · rw [hk', Function.update_self] at hact
    cases hact
  · unfold Kernel.threadCreate at h
    rw [halloc] at h
    simp only [bind, Except.bind, hleader, henter, hpt, hnpt, hshare, Kernel.setTable,
      Kernel.modify_mem, hk] at h
    simp only [Kernel.setTable] at hloop
    rw [hloop] at h
    simp only [hstart] at h
    cases h
    rfl

/-- A round of `thread_join` that returns has found nobody, or has reaped a thread. -/
theorem Kernel.threadJoin_returns {tid v : Int} (h : k.threadJoin p tid = .ok (some v, k')) :
    v = -1 ∨ ∃ c, k.findJoin p tid = some c ∧ v = (k.proc c).tid ∧ k.freeproc c = .ok k' := by
  unfold Kernel.threadJoin at h
  split at h
  · rename_i c hfind
    obtain ⟨k₁, hfree, h⟩ := Except.bind_ok_iff.1 h
    cases h
    exact .inr ⟨c, hfind, rfl, hfree⟩
  · split at h
    · cases h
      exact .inl rfl
    · cases h

/-- Reaping a thread changes its state and no other. -/
theorem Kernel.freeproc_thread (hc : (k.proc c).groupLeader = some L) (hne : L ≠ c)
    (h : k.freeproc c = .ok k') :
    (k'.proc c).state = .ghost ∧ ∀ q, q ≠ c → (k'.proc q).state = (k.proc q).state := by
  have hstate : ∀ q, ((k.dropRef L).proc q).state = (k.proc q).state := by
    intro q
    rw [Kernel.dropRef, Kernel.modify_proc]
    split
    · split <;> rfl
    · rfl
  unfold Kernel.freeproc at h
  rw [hc] at h
  dsimp only at h
  rw [if_neg fun hn => hne hn.1.symm, if_pos (Ne.symm hne)] at h
  cases h
  refine ⟨by simp, fun q hq => ?_⟩
  rw [Kernel.modify_proc_ne hq]
  exact hstate q

/-! ## The chronicle of threads -/

/-- What the chronicle says of the threads in the table. -/
structure Threads (k : Kernel) (h : Chronicle) : Prop where
  grouped : k.entries.WellGrouped
  stray : k.entries.Stray
  numbered : k.entries.Numbered
  origin : ∀ c, (k.entries c).isThread = true →
    (∃ p, (k.entries c).parent = some p ∧ h.origin c = some (p, h.births p, (k.entries c).tid) ∧
      (k.entries p).groupLeader = (k.entries c).groupLeader ∧ (k.entries p).Enrolled) ∨
    ((k.entries c).parent = some k.initproc ∧ (c, h.births c) ∈ h.handed)
  exited : ∀ c, (k.entries c).isThread = true →
    (k.entries c).phase = .zombie ∨ (k.entries c).phase = .ghost → (c, h.births c, 0) ∈ h.exits
  joined : ∀ a ∈ h.joined, a.2 ≤ h.births a.1 ∧
    (a.2 = h.births a.1 → (k.entries a.1).phase = .ghost ∨ (k.entries a.1).phase = .unused)
  once : h.joined.Nodup

/-- The thread that a `thread_join` is about to return for is a zombie. -/
theorem Kernel.joins_spec (h : k.joins e = some c) :
    ∃ p tid, k.awaits e = some (p, .join tid) ∧ k.findJoin p tid = some c ∧ k.reaps e = some c ∧
      (k.entries c).isThread = true ∧ (k.entries c).phase = .zombie := by
  unfold Kernel.joins at h
  split at h
  · rename_i p tid ha
    obtain ⟨hthread, hz⟩ := Kernel.findJoin_spec h
    simp only [Kernel.isChildThread, decide_eq_true_eq] at hthread
    refine ⟨p, tid, ha, h, ?_, hthread.2.2, congrArg ProcState.phase hz⟩
    cases e with
    | call q call =>
      cases call with
      | threadJoin t =>
        obtain ⟨rfl, hres⟩ := Prod.mk.inj (Option.some.inj ha)
        cases hres
        exact h
      | wait addr => cases ha
      | _ => cases ha
    | schedule q =>
      simp only [Kernel.awaits] at ha
      split at ha
      · cases ha
      · rename_i hres
        cases ha
        simp only [Kernel.reaps, hres]
        exact h
      · cases ha
    | _ => cases ha
  · cases h

/-- A round of `thread_join`, by a call or by a switch to a process that slept in it. -/
theorem Kernel.step_join {tid : Int} (hen : k.enabled e = true) (ha : k.awaits e = some (p, .join tid))
    (hstep : k.step e = .ok (r, k')) :
    ∃ k₁ : Kernel, k₁.entries = k.entries ∧ k₁.findJoin p tid = k.findJoin p tid ∧
      k₁.threadJoin p tid = .ok (r, k') := by
  cases e with
  | call q call =>
    cases call with
    | threadJoin t =>
      cases ha
      exact ⟨k, rfl, rfl, hstep⟩
    | _ => cases ha
  | schedule q =>
    have hq : (k.proc q).state = .runnable := by simpa [Kernel.enabled] using hen
    simp only [Kernel.awaits] at ha
    split at ha
    · cases ha
    · rename_i hres
      cases ha
      simp only [Kernel.step, Kernel.resume, hres] at hstep
      exact ⟨_, Kernel.switch_entries hq, Kernel.findJoin_switch hq tid, hstep⟩
    · cases ha
  | _ => cases ha

variable {h : Chronicle}

theorem Threads.origin_step (ht : Threads k h) (hen : k.enabled e = true) (hstep : k.step e = .ok (r, k'))
    (hc : (k'.entries c).isThread = true) :
    (∃ p, (k'.entries c).parent = some p ∧
      (k.record e h).origin c = some (p, (k.record e h).births p, (k'.entries c).tid) ∧
      (k'.entries p).groupLeader = (k'.entries c).groupLeader ∧ (k'.entries p).Enrolled) ∨
    ((k'.entries c).parent = some k.initproc ∧ (c, (k.record e h).births c) ∈ (k.record e h).handed) := by
  have hm := Kernel.step_move ht.grouped hen hstep
  have hE' := hm.wellGrouped ht.grouped
  have hidle : k.findUnused = some c → (k.entries c).isThread = false :=
    fun hf => (ht.grouped.idle c (Kernel.findUnused_phase hf)).2
  -- a thread that stays where it is: its creator and it stay in the group
  have hkept : (k'.entries c).parent = (k.entries c).parent → (k.entries c).SameIds (k'.entries c) →
      (∃ p, (k'.entries c).parent = some p ∧
        (k.record e h).origin c = some (p, (k.record e h).births p, (k'.entries c).tid) ∧
        (k'.entries p).groupLeader = (k'.entries c).groupLeader ∧ (k'.entries p).Enrolled) ∨
      ((k'.entries c).parent = some k.initproc ∧ (c, (k.record e h).births c) ∈ (k.record e h).handed) := by
    intro hpar hids
    have hthread : (k.entries c).isThread = true := hids.isThread ▸ hc
    obtain ⟨hcen, L, -, hL⟩ := ht.grouped.thread c hthread
    rw [Kernel.record_origin_of_used hcen.1, hpar, hids.tid, Kernel.record_births_of_used hcen.1]
    rcases ht.origin c hthread with ⟨p, hp, horigin, hlead, hpen⟩ | ⟨hp, hhanded⟩
    · refine .inl ⟨p, hp, ?_, ?_⟩
      · rw [Kernel.record_births_of_used hpen.1]
        exact horigin
      · rw [hL] at hlead
        have hpL : (k'.entries p).groupLeader = some L := by
          refine (hm.leader_kept hlead hpen).resolve_right fun hgone => ?_
          rw [hgone c hL hcen] at hc
          cases hc
        have hcL : (k'.entries c).groupLeader = some L := by
          refine (hm.leader_kept hL hcen).resolve_right fun hgone => ?_
          rw [hgone c hL hcen] at hc
          cases hc
        refine ⟨hpL.trans hcL.symm, fun hu => ?_, fun hu => ?_⟩
        · rw [(hE'.idle p hu).1] at hpL
          cases hpL
        · exact hm.used_of_used hpen.1 hpen.2 hu
    · exact .inr ⟨hp, Kernel.mem_record_handed hhanded⟩
  cases hm.kin c with
  | kept _ hpar hids => exact hkept hpar hids
  | exited _ _ _ hpar hids =>
    rcases hpar with hpar | ⟨hprocess, -, -⟩
    · exact hkept hpar hids
    · rw [hids.isThread, hprocess] at hc
      cases hc
  | adopted p he _ _ hp hpar hpar' _ hids =>
    have hcen := (ht.grouped.thread c (hids.isThread ▸ hc)).1
    rw [Kernel.record_births_of_used hcen.1]
    exact .inr ⟨hpar', Kernel.record_handed_of_exit he hp hpar⟩
  | reaped _ _ _ _ _ _ hpar hids => exact hkept hpar hids
  | freed _ _ hthread _ => rw [hthread] at hc; cases hc
  | forked _ _ _ hfind _ _ hthread _ => rw [hthread, hidle hfind] at hc; cases hc
  | created p start arg he hp hfind hact hpar _ hlead _ =>
    have hjoint := fun hpc => hm.creator_leader he hpc hact hfind
    subst he
    obtain ⟨⟨v, k₁⟩, hv, hr⟩ := Except.bind_ok_iff.1 hstep
    cases hr
    have hpc : p ≠ c := fun heq => by rw [heq, Kernel.findUnused_phase hfind] at hp; cases hp
    have hres := Kernel.threadCreate_result ht.grouped hp hv hfind hact
    have hpen : (k.entries p).Enrolled := Entry.enrolled_of_active hp
    refine .inl ⟨p, hpar, ?_, ?_, ?_⟩
    · rw [Kernel.record_births_of_used hpen.1, Kernel.record_origin_of_taken rfl hfind hstep, hres]
    · -- the creator is in the group it has founded or joined before
      rw [hlead]
      exact hjoint hpc
    · have hph := hjoint hpc
      refine ⟨fun hu => ?_, fun hu => hm.used_of_used hpen.1 hpen.2 hu⟩
      rw [(hE'.idle p hu).1] at hph
      cases hph
  | failed _ _ hthread _ => rw [hthread] at hc; cases hc
  | stranded _ _ _ _ hfind _ hthread _ => rw [hthread, hidle hfind] at hc; cases hc

theorem Threads.exited_step (ht : Threads k h) (hm : Move k e E') (hc : (E' c).isThread = true)
    (hgone : (E' c).phase = .zombie ∨ (E' c).phase = .ghost) :
    (c, (k.record e h).births c, 0) ∈ (k.record e h).exits := by
  have hkept : (k.entries c).isThread = true →
      (k.entries c).phase = .zombie ∨ (k.entries c).phase = .ghost →
      (c, (k.record e h).births c, 0) ∈ (k.record e h).exits := by
    intro hthread hph
    rw [Kernel.record_births_of_used (ht.grouped.thread c hthread).1.1]
    exact Kernel.mem_record_exits (ht.exited c hthread hph)
  cases hm.kin c with
  | kept hph _ hids => exact hkept (hids.isThread ▸ hc) (hph ▸ hgone)
  | exited he hact _ _ hids =>
    have hthread : (k.proc c).isThread = true := hids.isThread.symm.trans hc
    have hmem := Kernel.record_exits_of_exit (k := k) (h := h) he
    rw [Kernel.record_births_of_used (by rw [hact]; nofun)]
    simpa [Kernel.lastWords, hthread] using hmem
  | adopted _ _ _ _ _ _ _ hph hids => exact hkept (hids.isThread ▸ hc) (hph ▸ hgone)
  | reaped _ _ hz _ _ _ _ hids => exact hkept (hids.isThread ▸ hc) (.inl hz)
  | freed _ hph _ _ => rw [hph] at hgone; simp at hgone
  | forked _ _ _ _ hph _ _ _ => rw [hph] at hgone; simp at hgone
  | created _ _ _ _ _ _ hph _ _ _ _ => rw [hph] at hgone; simp at hgone
  | failed _ hph _ _ => rw [hph] at hgone; simp at hgone
  | stranded _ _ _ _ _ hph _ _ => rw [hph] at hgone; simp at hgone

/-- A slot that is given up stays so until it is taken again. -/
theorem Move.idle_of_births (hm : Move k e E') (hb : (k.record e h).births c = h.births c)
    (hc : (k.entries c).phase = .ghost ∨ (k.entries c).phase = .unused) :
    (E' c).phase = .ghost ∨ (E' c).phase = .unused := by
  have htaken : e.makes.isSome → k.findUnused ≠ some c := by
    intro hm hfind
    rw [Kernel.record_births, if_pos ⟨hm, hfind⟩] at hb
    omega
  cases hm.kin c with
  | kept hph _ _ => rwa [hph]
  | exited _ hact _ _ _ => rw [hact] at hc; simp at hc
  | adopted _ _ _ _ _ _ _ hph _ => rwa [hph]
  | reaped _ _ _ _ _ hph _ _ => exact .inl hph
  | freed _ hph _ _ => exact .inr hph
  | forked _ he _ hfind _ _ _ _ => exact absurd hfind (htaken (by rw [he]; rfl))
  | created _ _ _ he _ hfind _ _ _ _ _ => exact absurd hfind (htaken (by rw [he]; rfl))
  | failed _ hph _ _ => exact .inr hph
  | stranded _ _ _ he hfind _ _ _ => exact absurd hfind (htaken (by rw [he]; rfl))

/-- What a `thread_join` that is about to return does. -/
theorem Kernel.joins_step (hE : k.entries.WellGrouped) (hen : k.enabled e = true)
    (hstep : k.step e = .ok (r, k')) (hj : k.joins e = some c) :
    r = some (k.entries c).tid ∧ (k'.entries c).phase = .ghost ∧
      ∀ q, q ≠ c → (k'.entries q).phase = (k.entries q).phase := by
  obtain ⟨p, tid, ha, hfind, -, hthread, -⟩ := Kernel.joins_spec hj
  obtain ⟨k₁, hk₁, hfind₁, hjoin⟩ := Kernel.step_join hen ha hstep
  obtain ⟨-, L, hne, hL⟩ := hE.thread c hthread
  unfold Kernel.threadJoin at hjoin
  rw [show (List.finRange nproc).find? _ = some c from hfind₁.trans hfind] at hjoin
  obtain ⟨k₂, hfree, hres⟩ := Except.bind_ok_iff.1 hjoin
  cases hres
  have hslot := congrFun hk₁
  have hL₁ : (k₁.proc c).groupLeader = some L := (congrArg Entry.groupLeader (hslot c)).trans hL
  obtain ⟨hghost, hrest⟩ := Kernel.freeproc_thread hL₁ hne hfree
  refine ⟨congrArg some (congrArg Entry.tid (hslot c)), congrArg ProcState.phase hghost, fun q hq => ?_⟩
  exact (congrArg ProcState.phase (hrest q hq)).trans (congrArg Entry.phase (hslot q))

theorem Threads.joined_step (ht : Threads k h) (hen : k.enabled e = true)
    (hstep : k.step e = .ok (r, k')) {a : Slot × Nat} (ha : a ∈ (k.record e h).joined) :
    a.2 ≤ (k.record e h).births a.1 ∧
      (a.2 = (k.record e h).births a.1 →
        (k'.entries a.1).phase = .ghost ∨ (k'.entries a.1).phase = .unused) := by
  have hm := Kernel.step_move ht.grouped hen hstep
  rcases Kernel.mem_record_joined ha with hold | ⟨c, hj, rfl⟩
  · obtain ⟨hle, hidle⟩ := ht.joined a hold
    have hmono := Kernel.record_births_le (k := k) (e := e) (h := h) a.1
    refine ⟨hle.trans hmono, fun heq => ?_⟩
    have hsame : (k.record e h).births a.1 = h.births a.1 := by omega
    exact hm.idle_of_births hsame (hidle (heq.trans hsame))
  · obtain ⟨-, -, -, -, -, -, hz⟩ := Kernel.joins_spec hj
    obtain ⟨-, hghost, -⟩ := Kernel.joins_step ht.grouped hen hstep hj
    exact ⟨Kernel.record_births_le c, fun _ => .inl hghost⟩

/-- The thread a `thread_join` returns for has not been joined before. -/
theorem Threads.not_joined (ht : Threads k h) (hj : k.joins e = some c) : (c, h.births c) ∉ h.joined := by
  intro hmem
  obtain ⟨-, -, -, -, -, -, hz⟩ := Kernel.joins_spec hj
  have hidle := (ht.joined _ hmem).2 rfl
  rw [hz] at hidle
  simp at hidle

theorem Threads.step (ht : Threads k h) (hen : k.enabled e = true) (hstep : k.step e = .ok (r, k')) :
    Threads k' (k.record e h) := by
  have hm := Kernel.step_move ht.grouped hen hstep
  refine ⟨hm.wellGrouped ht.grouped, hm.stray ht.grouped ht.stray, hm.numbered ht.grouped ht.numbered,
    fun c hc => ?_, fun c hc hgone => ht.exited_step hm hc hgone, fun a ha => ht.joined_step hen hstep ha, ?_⟩
  · rw [(Kernel.step_treads hen hstep).initproc]
    exact ht.origin_step hen hstep hc
  · unfold Kernel.record
    dsimp only
    cases hj : k.joins e with
    | none => exact ht.once
    | some c => exact List.nodup_cons.2 ⟨ht.not_joined hj, ht.once⟩

theorem threads_of_main (hk : b.main = .ok k) : Threads k .start := by
  obtain ⟨p, hne, -, hp⟩ := Boot.main_entries hk
  have hzero : ∀ q, (k.entries q).isThread = false ∧ (k.entries q).tid = 0 ∧
      (k.entries q).numChildren = 0 ∧ (k.entries q).phase ≠ .used := by
    intro q
    by_cases hq : q = p
    · subst hq
      simp [hp, Proc.zero, Proc.entry]
    · simp [Kernel.entries, hne q hq, Proc.zero, Proc.entry, ProcState.phase]
  have hthread : ∀ q, (k.entries q).isThread ≠ true := fun q hq => by rw [(hzero q).1] at hq; cases hq
  exact {
    grouped := Boot.main_wellGrouped hk
    stray := fun q hu => absurd hu (hzero q).2.2.2
    numbered := {
      counter := fun q => (hzero q).2.2.1.ge
      zero := fun q _ _ => (hzero q).2.1
      range := fun c L hc => absurd hc (hthread c)
      distinct := fun c c' hc => absurd hc (hthread c) }
    origin := fun c hc => absurd hc (hthread c)
    exited := fun c hc => absurd hc (hthread c)
    joined := fun _ hc => by cases hc
    once := List.nodup_nil }

/-- In every run the chronicle is right about threads. -/
theorem threads_of_reaches {G : Kernel × Chronicle → Event → Prop}
    (hk : (chronicled b).Reaches G (k, h)) : Threads k h := by
  refine hk.invariant (P := fun s => Threads s.1 s.2) ?_ ?_
  · rintro ⟨k, h⟩ ⟨hinit, rfl⟩
    exact threads_of_main hinit
  · rintro ⟨k, h⟩ e ⟨k', h'⟩ ht - ⟨⟨hen, r, hstep⟩, rfl⟩
    exact ht.step hen hstep

/-! ## Ids and joins in every run -/

/-- A `thread_join` at `k` that returns `t` has reaped the thread in `c` and
nothing else: the thread has run `thread_exit`, and no call has returned for it
before. -/
structure JoinsThread (k : Kernel) (h : Chronicle) (e : Event) (t : Int) (k' : Kernel) (c : Slot) : Prop where
  only : ∀ q, (k.proc q).state = .zombie ∧ (k'.proc q).state = .ghost ↔ q = c
  isThread : (k.proc c).isThread = true
  tid : (k.proc c).tid = t
  exited : (c, h.births c, 0) ∈ h.exits
  fresh : (c, h.births c) ∉ h.joined
  recorded : (c, h.births c) ∈ (k.record e h).joined

theorem Threads.tids_nodup (ht : Threads k h) (hL : (k.proc L).groupLeader = some L) :
    ∃ ms, Circular k.next k.prev L ms ∧ (k.proc L).tid = 0 ∧
      ((L :: ms).map fun q => (k.proc q).tid).Nodup := by
  obtain ⟨ms, hg⟩ := ring_of_leader ht.grouped ht.stray hL
  have hprocess : (k.entries L).isThread = false := by
    by_contra hthread
    obtain ⟨-, L', hne, hL'⟩ := ht.grouped.thread L (by simpa using hthread)
    exact hne (Option.some.inj (hL'.symm.trans hL))
  have hzero : (k.entries L).tid = 0 := ht.numbered.zero L hprocess hg.leader.2.2
  have hmember : ∀ q ∈ ms, (k.entries q).isThread = true := by
    intro q hq
    obtain ⟨hlead, hen⟩ := (hg.mem_iff q).1 (List.mem_cons_of_mem _ hq)
    by_contra hthread
    rcases ht.grouped.process q (by simpa using hthread) hen with hn | hself
    · rw [hn] at hlead
      cases hlead
    · obtain rfl : q = L := Option.some.inj (hself.symm.trans hlead)
      exact hg.ring.head_notMem hq
  have hlead : ∀ q ∈ ms, (k.entries q).groupLeader = some L :=
    fun q hq => ((hg.mem_iff q).1 (List.mem_cons_of_mem _ hq)).1
  refine ⟨ms, hg.ring, hzero, List.nodup_cons.2 ⟨fun hmem => ?_, ?_⟩⟩
  · obtain ⟨q, hq, heq⟩ := List.mem_map.1 hmem
    have hpos := (ht.numbered.range q L (hmember q hq) (hlead q hq)).1
    have : (k.entries q).tid = 0 := heq.trans hzero
    omega
  · refine hg.ring.nodup.of_cons.map_on fun q hq q' hq' heq => ?_
    exact ht.numbered.distinct q q' (hmember q hq) (hmember q' hq')
      ((hlead q hq).trans (hlead q' hq').symm) heq

theorem Threads.joinsThread (ht : Threads k h) (hen : k.enabled e = true) (hj : k.joins e = some c)
    (hstep : k.step e = .ok (r, k')) : JoinsThread k h e (k.entries c).tid k' c := by
  obtain ⟨p, tid, -, -, -, hthread, hz⟩ := Kernel.joins_spec hj
  obtain ⟨-, hghost, hrest⟩ := Kernel.joins_step ht.grouped hen hstep hj
  refine ⟨fun q => ⟨fun hq => ?_, fun hq => ?_⟩, hthread, rfl, ht.exited c hthread (.inl hz),
    ht.not_joined hj, ?_⟩
  · by_contra hne
    have hsame : (k'.proc q).state.phase = (k.proc q).state.phase := hrest q hne
    rw [hq.1, hq.2] at hsame
    cases hsame
  · subst hq
    exact ⟨ProcState.phase_zombie.1 hz, ProcState.phase_ghost.1 hghost⟩
  · unfold Kernel.record
    simp [hj]

/-- In every state of every run the ids in a group are distinct, and the
leader's is 0. A `thread_join(t)` of `p` that returns `t` has reaped one thread,
that has exited and for which no call returns again: the one for which
`thread_create` of `p` itself has returned `t`, or one that was handed to init. -/
theorem joins_of_reaches {G : Kernel × Chronicle → Event → Prop}
    (hk : (chronicled b).Reaches G (k, h)) :
    (∀ L, (k.proc L).groupLeader = some L → ∃ ms, Circular k.next k.prev L ms ∧ (k.proc L).tid = 0 ∧
      ((L :: ms).map fun q => (k.proc q).tid).Nodup) ∧
    ∀ e p t k', k.enabled e = true → k.awaits e = some (p, .join t) → t ≠ -1 →
      k.step e = .ok (some t, k') →
      ∃ c, JoinsThread k h e t k' c ∧ (h.origin c = some (p, h.births p, t) ∨
        p = k.initproc ∧ (c, h.births c) ∈ h.handed) := by
  have ht := threads_of_reaches hk
  refine ⟨fun L hL => ht.tids_nodup hL, fun e p t k' hen ha hne hstep => ?_⟩
  obtain ⟨k₁, -, hfind₁, hjoin⟩ := Kernel.step_join hen ha hstep
  obtain ⟨c, hfind⟩ : ∃ c, k.findJoin p t = some c := by
    rcases Kernel.threadJoin_returns hjoin with heq | ⟨c, hfind, -, -⟩
    · exact absurd heq hne
    · exact ⟨c, hfind₁.symm.trans hfind⟩
  have hj : k.joins e = some c := by simp [Kernel.joins, ha, hfind]
  have htid : t = (k.entries c).tid := Option.some.inj (Kernel.joins_step ht.grouped hen hstep hj).1
  obtain ⟨hthread, -⟩ := Kernel.findJoin_spec hfind
  simp only [Kernel.isChildThread, decide_eq_true_eq] at hthread
  refine ⟨c, htid ▸ ht.joinsThread hen hj hstep, ?_⟩
  rcases ht.origin c hthread.2.2 with ⟨p', hp', horigin, -⟩ | ⟨hp', hhanded⟩
  · obtain rfl : p' = p := Option.some.inj (hp'.symm.trans hthread.1)
    rw [htid]
    exact .inl horigin
  · exact .inr ⟨Option.some.inj (hthread.1.symm.trans hp'), hhanded⟩

/-- A process joins the thread it has created. -/
theorem joins_of_creator : ∃ k h k', (chronicled .standard).Reaches (fun s => anyStep s.1) (k, h) ∧
    ∃ c, JoinsThread k h (.call ⟨0, by decide⟩ (.threadJoin 1)) 1 k' c ∧
      (h.origin c = some (⟨0, by decide⟩, h.births ⟨0, by decide⟩, 1) ∨
        ⟨0, by decide⟩ = k.initproc ∧ (c, h.births c) ∈ h.handed) := by
  have hrun : (Boot.standard.recite anyStep
      [.schedule ⟨0, by decide⟩, .call ⟨0, by decide⟩ (.threadCreate 0 0), .schedule ⟨1, by decide⟩,
        .call ⟨1, by decide⟩ .threadExit]).any
      (fun s => s.1.enabled (.call ⟨0, by decide⟩ (.threadJoin 1)) &&
        (s.1.step (.call ⟨0, by decide⟩ (.threadJoin 1))).toOption.any fun a => a.1 = some 1) = true := by
    decide +kernel
  obtain ⟨⟨k, h⟩, hk, hc⟩ := exists_reaches_of_recite hrun
  obtain ⟨hen, hany⟩ := Bool.and_eq_true_iff.1 hc
  obtain ⟨⟨r, k'⟩, hstep, hr⟩ := (Option.any_eq_true _ _).1 hany
  obtain rfl : r = some 1 := by simpa using hr
  exact ⟨k, h, k', hk, (joins_of_reaches hk).2 _ _ 1 k' hen rfl (by decide)
    (Except.toOption_eq_some_iff.1 hstep)⟩

/-- A process exits before its thread; init, that has created no thread, joins it. -/
theorem joins_of_init : ¬ ∀ (b : Boot) (k : Kernel) (h : Chronicle),
    (chronicled b).Reaches (fun s => s.1.ReleasesLast) (k, h) →
    (∀ L, (k.proc L).groupLeader = some L → ∃ ms, Circular k.next k.prev L ms ∧ (k.proc L).tid = 0 ∧
      ((L :: ms).map fun q => (k.proc q).tid).Nodup) ∧
    ∀ e p t k', k.enabled e = true → k.awaits e = some (p, .join t) → t ≠ -1 →
      k.step e = .ok (some t, k') →
      ∃ c, JoinsThread k h e t k' c ∧ h.origin c = some (p, h.births p, t) := by
  intro hall
  have hrun : (Boot.standard.recite Kernel.ReleasesLast
      [.schedule ⟨0, by decide⟩, .call ⟨0, by decide⟩ .fork, .schedule ⟨1, by decide⟩,
        .call ⟨1, by decide⟩ (.threadCreate 0 0), .schedule ⟨2, by decide⟩,
        .call ⟨1, by decide⟩ (.exit 0), .call ⟨2, by decide⟩ .threadExit]).any
      (fun s => s.1.enabled (.call ⟨0, by decide⟩ (.threadJoin 1)) &&
        ((s.1.step (.call ⟨0, by decide⟩ (.threadJoin 1))).toOption.any fun a => a.1 = some 1) &&
        decide (∀ c, s.2.origin c ≠ some (⟨0, by decide⟩, s.2.births ⟨0, by decide⟩, 1))) = true := by
    decide +kernel
  obtain ⟨⟨k, h⟩, hk, hc⟩ := exists_reaches_of_recite hrun
  obtain ⟨hc, hnone⟩ := Bool.and_eq_true_iff.1 hc
  obtain ⟨hen, hany⟩ := Bool.and_eq_true_iff.1 hc
  obtain ⟨⟨r, k'⟩, hstep, hr⟩ := (Option.any_eq_true _ _).1 hany
  obtain rfl : r = some 1 := by simpa using hr
  obtain ⟨c, -, horigin⟩ := (hall _ k h hk).2 _ _ 1 k' hen rfl (by decide)
    (Except.toOption_eq_some_iff.1 hstep)
  exact of_decide_eq_true hnone c horigin

end Xv6
