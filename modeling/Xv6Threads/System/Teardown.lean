-- SUMMARY: When reaping a leader takes no memory from a thread that has not exited, and a run in which it does.
import Xv6Threads.System.Chronicle
import Xv6Threads.System.Removal
import Xv6Threads.System.RefCount

/-!
# Releasing a group

`wait` releases the group of an exited leader when `ref_count` is zero, and
panics when it is not. The count is taken down twice for a thread that is
joined, so it says nothing about who still runs. What does decide is whether
every other member has exited: then the count is low enough, every table can be
given up, and nobody loses anything.
-/

namespace Xv6

open PageTable Weight

variable {b : Boot} {k k' k₁ : Kernel} {e : Event} {E E' : Entries} {p q np L : Slot} {r : Option Int}

/-! ## The count and the threads that run -/

theorem Entry.dropRef_refCount (x : Entry) (h : 0 ≤ x.refCount) :
    0 ≤ x.dropRef.refCount ∧ x.dropRef.refCount = max 0 (x.refCount - 1) := by
  unfold Entry.dropRef
  split
  · dsimp only
    omega
  · omega

namespace Entries

/-- The members of the group of `L` that have not exited, without `L`. -/
def busy (E : Entries) (L : Slot) : Finset Slot :=
  Finset.univ.filter fun q => q ≠ L ∧ (E q).groupLeader = some L ∧ (E q).phase = .active

theorem mem_busy : q ∈ E.busy L ↔ q ≠ L ∧ (E q).groupLeader = some L ∧ (E q).phase = .active := by
  simp [busy]

/-- No leader counts more than itself and the others that have not exited. -/
def Tallied (E : Entries) : Prop :=
  ∀ L, (E L).groupLeader = some L → 0 ≤ (E L).refCount ∧ (E L).refCount ≤ (E.busy L).card + 1

theorem busy_subset (h : ∀ q, q ≠ L → (E q).groupLeader = some L → (E q).phase = .active →
    (E' q).groupLeader = some L ∧ (E' q).phase = .active) : E.busy L ⊆ E'.busy L := by
  intro q hq
  obtain ⟨hne, hL, hact⟩ := mem_busy.1 hq
  exact mem_busy.2 ⟨hne, h q hne hL hact⟩

/-- Every leader is a new one, or counts what it counted and has lost nobody. -/
theorem Tallied.of_leaders (h : E.Tallied) (hE : ∀ L, (E' L).groupLeader = some L →
    (E' L).refCount = 1 ∨ (E L).groupLeader = some L ∧ (E' L).refCount = (E L).refCount ∧
      ∀ q, q ≠ L → (E q).groupLeader = some L → (E q).phase = .active →
        (E' q).groupLeader = some L ∧ (E' q).phase = .active) : E'.Tallied := by
  intro L hL
  rcases hE L hL with hone | ⟨hold, hcount, hkeep⟩
  · omega
  · obtain ⟨hpos, hle⟩ := h L hold
    have := Finset.card_le_card (busy_subset hkeep)
    omega

/-- A slot that is active in no group before and after does not count. -/
theorem Tallied.update_outside (h : E.Tallied) {x : Entry}
    (hold : (E p).groupLeader = none ∨ (E p).phase ≠ .active) (hself : x.groupLeader ≠ some p) :
    Tallied (Function.update E p x) := by
  refine h.of_leaders fun L hL => .inr ?_
  have hLp : L ≠ p := fun heq => by
    subst heq
    rw [Function.update_self] at hL
    exact hself hL
  rw [Function.update_of_ne hLp] at hL ⊢
  refine ⟨hL, rfl, fun q _ hq hact => ?_⟩
  have hqp : q ≠ p := fun heq => by
    subst heq
    rcases hold with hn | hn
    · rw [hn] at hq; cases hq
    · exact hn hact
  rw [Function.update_of_ne hqp]
  exact ⟨hq, hact⟩

theorem Tallied.found (h : E.Tallied) (p : Slot) : (E.found p).Tallied := by
  unfold Entries.found
  split
  · rename_i hnone
    refine h.of_leaders fun L hL => ?_
    by_cases hLp : L = p
    · subst hLp
      rw [Function.update_self]
      exact .inl rfl
    · rw [Function.update_of_ne hLp] at hL ⊢
      refine .inr ⟨hL, rfl, fun q _ hq hact => ?_⟩
      have hqp : q ≠ p := fun heq => by rw [heq, hnone] at hq; cases hq
      rw [Function.update_of_ne hqp]
      exact ⟨hq, hact⟩
  · exact h

/-- Linking in a thread counts it. -/
theorem Tallied.linkIn (h : E.Tallied) (hL : (E L).groupLeader = some L) {x : Entry}
    (hnp : (E np).groupLeader = none) (hx : x.groupLeader = some L ∧ x.phase = .active) :
    (E.linkIn L np x).Tallied := by
  have hLnp : L ≠ np := fun heq => by rw [heq, hnp] at hL; cases hL
  have hself : E.linkIn L np x np = x := by simp [Entries.linkIn]
  have hother : ∀ q, q ≠ np → (E.linkIn L np x q).groupLeader = (E q).groupLeader ∧
      (E.linkIn L np x q).phase = (E q).phase := fun q hq => by simp [Entries.linkIn, hq]
  have hkeep : ∀ q, (E q).groupLeader ≠ none → (E.linkIn L np x q).groupLeader = (E q).groupLeader ∧
      (E.linkIn L np x q).phase = (E q).phase := fun q hq => hother q fun heq => hq (heq ▸ hnp)
  intro L' hL'
  by_cases heq : L' = L
  · subst heq
    obtain ⟨hpos, hle⟩ := h L' hL
    have hcount : (E.linkIn L' np x L').refCount = (E L').refCount + 1 := by
      simp [Entries.linkIn, hLnp]
    have hsub : insert np (E.busy L') ⊆ (E.linkIn L' np x).busy L' := by
      refine Finset.insert_subset (mem_busy.2 ⟨hLnp.symm, by rw [hself]; exact hx⟩) (busy_subset fun q _ hq hact => ?_)
      obtain ⟨hlead, hph⟩ := hkeep q (by rw [hq]; exact Option.some_ne_none _)
      exact ⟨hlead.trans hq, hph.trans hact⟩
    have hnotin : np ∉ E.busy L' := by rw [mem_busy, hnp]; simp
    have hcard := Finset.card_le_card hsub
    rw [Finset.card_insert_of_notMem hnotin] at hcard
    omega
  · have hL'np : L' ≠ np := fun heq' => by
      subst heq'
      rw [hself, hx.1] at hL'
      exact heq (Option.some.inj hL').symm
    have hold : (E L').groupLeader = some L' := (hother L' hL'np).1 ▸ hL'
    have hcount : (E.linkIn L np x L').refCount = (E L').refCount := by simp [Entries.linkIn, hL'np, heq]
    obtain ⟨hpos, hle⟩ := h L' hold
    have hcard := Finset.card_le_card (busy_subset fun q (_ : q ≠ L') hq hact => by
      obtain ⟨hlead, hph⟩ := hkeep q (by rw [hq]; exact Option.some_ne_none _)
      exact ⟨hlead.trans hq, hph.trans hact⟩)
    omega

/-- Counting out a member, whether it has run until now or not. -/
theorem Tallied.dropRef (h : E.Tallied) {ph : Phase} (hpL : (E p).groupLeader = some L) (hne : L ≠ p) :
    Tallied (Function.update (Function.update E L (E L).dropRef) p { E p with phase := ph }) := by
  have hother : ∀ q, q ≠ p → (Function.update E L (E L).dropRef q).groupLeader = (E q).groupLeader ∧
      (Function.update E L (E L).dropRef q).phase = (E q).phase := by
    intro q _
    by_cases hq : q = L
    · subst hq
      rw [Function.update_self, Entry.dropRef]
      split <;> exact ⟨rfl, rfl⟩
    · rw [Function.update_of_ne hq]
      exact ⟨rfl, rfl⟩
  intro L' hL'
  have hL'p : L' ≠ p := fun heq => by
    subst heq
    rw [Function.update_self] at hL'
    exact hne (Option.some.inj (hpL.symm.trans hL'))
  rw [Function.update_of_ne hL'p, (hother L' hL'p).1] at hL'
  obtain ⟨hpos, hle⟩ := h L' hL'
  have hsub : (E.busy L').erase p ⊆ busy (Function.update (Function.update E L (E L).dropRef) p
      { E p with phase := ph }) L' := by
    intro q hq
    obtain ⟨hqp, hq⟩ := Finset.mem_erase.1 hq
    obtain ⟨hqL, hlead, hact⟩ := mem_busy.1 hq
    refine mem_busy.2 ⟨hqL, ?_⟩
    rw [Function.update_of_ne hqp, (hother q hqp).1, (hother q hqp).2]
    exact ⟨hlead, hact⟩
  have hcard := Finset.card_le_card hsub
  rw [Function.update_of_ne hL'p]
  by_cases heq : L' = L
  · subst heq
    have hpred := Finset.pred_card_le_card_erase (s := E.busy L') (a := p)
    obtain ⟨hpos', hdrop⟩ := (E L').dropRef_refCount hpos
    rw [Function.update_self]
    omega
  · -- `p` is in another group
    have hnotin : p ∉ E.busy L' := fun hmem =>
      heq (Option.some.inj ((mem_busy.1 hmem).2.1.symm.trans hpL))
    rw [Finset.erase_eq_of_notMem hnotin] at hcard
    rw [Function.update_of_ne heq]
    omega

end Entries

/-- Every move keeps the counts low enough. -/
theorem Move.tallied (hm : Move k e E') (hE : k.entries.WellGrouped) (h : k.entries.Tallied) : E'.Tallied := by
  have hunused : ∀ np, k.findUnused = some np → (k.entries np).groupLeader = none := fun np hnp =>
    (hE.idle np (Kernel.findUnused_phase hnp)).1
  have hpnp : ∀ {p np}, (k.entries p).phase = .active → k.findUnused = some np → np ≠ p := by
    rintro p np hp hfind rfl
    rw [Kernel.findUnused_phase hfind] at hp
    cases hp
  cases hm with
  | quiet => exact h
  | strike _ x _ =>
    have hsame : ∀ q, (Function.update k.entries x { k.entries x with killed := true } q).groupLeader =
        (k.entries q).groupLeader ∧
        (Function.update k.entries x { k.entries x with killed := true } q).phase = (k.entries q).phase ∧
        (Function.update k.entries x { k.entries x with killed := true } q).refCount = (k.entries q).refCount := by
      intro q
      by_cases hq : q = x
      · subst hq; simp
      · simp [hq]
    refine h.of_leaders fun L hL => .inr ⟨(hsame L).1 ▸ hL, (hsame L).2.2, fun q _ hq hact => ?_⟩
    rw [(hsame q).1, (hsame q).2.1]
    exact ⟨hq, hact⟩
  | allocFail p np c hfind => exact h.update_outside (.inl (hunused np hfind)) (by simp [Entry.clear])
  | fork p np hp hfind => exact h.update_outside (.inl (hunused np hfind)) (by simp [Entry.claim])
  | create p np L start arg ms x hp hfind hL hg hx =>
    refine (h.found p).linkIn hg.leader.1 ?_ ⟨by rw [hx], by rw [hx]⟩
    rw [Entries.found_of_ne (hpnp hp hfind)]
    exact hunused np hfind
  | createBad p np L start arg x hp hfind hL hx =>
    refine (h.found p).update_outside (.inl ?_) ?_
    · rw [Entries.found_of_ne (hpnp hp hfind)]
      exact hunused np hfind
    · rw [hx]
      intro heq
      obtain ⟨-, ms, hg⟩ := Kernel.exists_found_group hE hp
      rw [hL, Option.some.inj heq] at hg
      have hlead := hg.leader.1
      rw [Entries.found_of_ne (hpnp hp hfind), hunused np hfind] at hlead
      cases hlead
  | threadExit _ p L _ _ _ hpL hne => exact h.dropRef hpL hne
  | processExit _ p _ hp hthread =>
    refine h.of_leaders fun L hL => .inr ⟨hL, rfl, fun q hqL hq hact => ⟨hq, ?_⟩⟩
    -- `p` is no thread, so it is in the group of nobody else
    have hqp : q ≠ p := by
      rintro rfl
      rcases hE.process q hthread (Entry.enrolled_of_active hp) with hn | hself
      · rw [hn] at hq; cases hq
      · exact hqL (Option.some.inj (hself.symm.trans hq))
    simp [Kernel.retire, hqp, hact]
  | reapThread _ q L _ _ hqL hne => exact h.dropRef hqL hne
  | reapProcess _ q _ _ hL => exact h.update_outside (.inl hL) (by simp [Entry.clear])
  | reapGroup _ L ms chan files _ _ hg _ =>
    have hin : ∀ q, q ∈ L :: ms → (k.entries.disband L ms chan files q).groupLeader = none := by
      intro q hmem
      by_cases hqL : q = L
      · simp [Entries.disband, hqL, Entry.clear]
      · simp [Entries.disband, hqL, (List.mem_cons.1 hmem).resolve_left hqL, Entry.release]
    have hout : ∀ q, q ∉ L :: ms → k.entries.disband L ms chan files q = k.entries q := by
      intro q hmem
      simp only [List.mem_cons, not_or] at hmem
      simp [Entries.disband, hmem.1, hmem.2]
    refine h.of_leaders fun L' hL' => .inr ?_
    have hL'out : L' ∉ L :: ms := fun hmem => by rw [hin L' hmem] at hL'; cases hL'
    rw [hout L' hL'out] at hL' ⊢
    refine ⟨hL', rfl, fun q _ hq hact => ?_⟩
    -- members of another group stay
    have hqout : q ∉ L :: ms := fun hmem => by
      have hql := ((hg.mem_iff q).1 hmem).1
      rw [hq] at hql
      exact hL'out (by simp [Option.some.inj hql])
    rw [hout q hqout]
    exact ⟨hq, hact⟩

/-- In every state of every run no leader counts more than itself and the
members that have not exited. -/
theorem tallied_of_reachable (h : Reachable b k) : k.entries.Tallied := by
  refine (Lts.Reaches.invariant (P := fun k => k.entries.WellGrouped ∧ k.entries.Tallied) ?_ ?_ h).2
  · intro k hk
    refine ⟨Boot.main_wellGrouped hk, fun L hL => ?_⟩
    obtain ⟨p, hne, -, hp⟩ := Boot.main_entries hk
    by_cases hLp : L = p
    · subst hLp
      rw [hp] at hL
      simp [Proc.zero, Proc.entry] at hL
    · simp [Kernel.entries, hne L hLp, Proc.zero, Proc.entry] at hL
  · rintro k e k' ⟨hE, ht⟩ - ⟨hen, r, hstep⟩
    have hm := Kernel.step_move hE hen hstep
    exact ⟨hm.wellGrouped hE, hm.tallied hE ht⟩

/-! ## Releasing does not panic -/

/-- `kfree` takes every page of the slot back, and its table agrees with its size. -/
structure Room.Freeable (m : Mem) (r : Room) : Prop where
  frame : ∀ f, r.frame = some f → m.InRange f
  framed : ∀ pt, r.table = some pt → pt.Framed
  sane : ∀ pt, r.table = some pt → pt.Sane
  hollow : ∀ pt, r.table = some pt → pt.Hollow r.size
  filled : r.table ≠ none → 0 < r.size
  size_le : r.size ≤ trapframeVa
  table : ∀ pt, r.table = some pt → pt.weigh m.beyond = 0 ∧ pt.user m.beyond = 0

theorem Room.Freeable.congr {m m' : Mem} {room : Room} (h : room.Freeable m) (hm : m'.kend = m.kend) :
    room.Freeable m' where
  frame f hf := (Mem.inRange_congr hm).2 (h.frame f hf)
  framed := h.framed
  sane := h.sane
  hollow := h.hollow
  filled := h.filled
  size_le := h.size_le
  table := by
    rw [Mem.beyond_congr hm]
    exact h.table

theorem Removable.freeable (hR : Removable k) (hH : Housed k) (hq : (k.entries q).Enrolled) :
    (k.rooms q).Freeable k.mem := by
  have hheld : ∀ f, ¬ k.mem.InRange f → (k.rooms q).held (single f) = 0 := by
    intro f hf
    have h₁ := le_sum (fun q => (k.rooms q).held (single f)) q
    have h₂ := hR.own f hf
    unfold Kernel.owned at h₂
    omega
  have hbeyond : ∀ {f}, k.mem.beyond f ≠ 0 → ¬ k.mem.InRange f := fun hf hin => hf (Mem.beyond_eq_zero.2 hin)
  refine ⟨fun f hf => ?_, (hH q).framed, hR.sane q, (hR.room q).hollow hq, (hR.room q).filled hq, (hH q).size_le,
    fun pt hpt => ⟨weigh_eq_zero fun f hf => ?_, user_eq_zero fun f hf => ?_⟩⟩
  · by_contra hout
    have := hheld f hout
    rw [Room.held, hf, ofOption_some, single_self] at this
    omega
  · have := hheld f (hbeyond hf)
    rw [Room.held_of_table hpt] at this
    omega
  · have := hR.use f (hbeyond hf) q
    rwa [Room.user_of_table hpt] at this

namespace Kernel

theorem freeTrapframe_total {m : Mem} {pr : Proc} (h : pr.room.Freeable m) :
    ∃ m', freeTrapframe m pr = .ok m' ∧ m'.kend = m.kend := by
  unfold freeTrapframe
  split
  · rename_i tf htf
    have hin := h.frame tf.page (by simp [Proc.room, htf])
    exact ⟨_, Mem.kfree_of_inRange hin, rfl⟩
  · exact ⟨m, rfl, rfl⟩

theorem freeTableThread_total {m : Mem} {pr : Proc} (h : pr.room.Freeable m) :
    ∃ m', freeTableThread m pr = .ok m' ∧ m'.kend = m.kend := by
  unfold freeTableThread
  split
  · rename_i pt hpt
    obtain ⟨htable, huser⟩ := h.table pt hpt
    obtain ⟨m', hm'⟩ := procFreepagetableWith_total (h.framed pt hpt) (h.sane pt hpt)
      (h.hollow pt hpt) (h.filled (by simp [Proc.room, hpt])) h.size_le htable huser
    exact ⟨m', hm', (procFreepagetableThread_ok hm').2.2.2.kend⟩
  · exact ⟨m, rfl, rfl⟩

/-- The loop of `freeproc` goes once around the ring. -/
theorem freeMembers_total {ms : List Slot} {n : Nat} {o : Option Slot}
    (hf : Follows (fun q => (k.proc q).groupNext) o ms p) (hp : p ∉ ms) (hd : ms.Nodup) (hn : ms.length < n)
    (hq : ∀ q ∈ ms, (k.rooms q).Freeable k.mem) :
    ∃ k', freeMembers p n o k = .ok k' ∧ k'.mem.kend = k.mem.kend ∧ k'.proc p = k.proc p := by
  induction n generalizing k o ms with
  | zero => cases hn
  | succ n ih =>
    cases ms with
    | nil =>
      rw [show o = some p from hf, freeMembers, if_pos rfl]
      exact ⟨k, rfl, rfl, rfl⟩
    | cons x ms =>
      obtain ⟨hx, hd⟩ := List.nodup_cons.1 hd
      simp only [List.mem_cons, not_or] at hp
      have hfree := hq x (by simp)
      obtain ⟨m, hm, hkend⟩ := freeTrapframe_total hfree
      obtain ⟨m', hm', hkend'⟩ := freeTableThread_total (hfree.congr hkend)
      have hbody : k.freeMember x = .ok (modify { k with mem := m' } x Proc.release) :=
        Except.bind_ok_iff.2 ⟨m, hm, Except.bind_ok_iff.2 ⟨m', hm', rfl⟩⟩
      have hk : m'.kend = k.mem.kend := hkend'.trans hkend
      have hproc : ∀ y, y ≠ x → (modify { k with mem := m' } x Proc.release).proc y = k.proc y :=
        fun y hy => modify_proc_ne hy
      have hne : ∀ y ∈ ms, y ≠ x := fun y hy heq => hx (heq ▸ hy)
      obtain ⟨k', hrest, hk', hp'⟩ := ih (k := modify { k with mem := m' } x Proc.release)
        (hf.2.congr fun y hy => congrArg Proc.groupNext (hproc y (hne y hy))) hp.2 hd
        (Nat.lt_of_succ_lt_succ hn) (fun y hy => by
          rw [rooms, hproc y (hne y hy)]
          exact (hq y (List.mem_cons_of_mem x hy)).congr hk)
      refine ⟨k', ?_, hk'.trans hk, hp'.trans (hproc p hp.1)⟩
      rw [hf.1, freeMembers, if_neg (Ne.symm hp.1)]
      exact Except.bind_ok_iff.2 ⟨_, hbody, hrest⟩

theorem balanced_dropRef (k : Kernel) (L : Slot) : k.Balanced (k.dropRef L) := by
  refine balanced_modify ?_
  split <;> rfl

theorem dropRef_groupNext (k : Kernel) (L x : Slot) : ((k.dropRef L).proc x).groupNext = (k.proc x).groupNext := by
  rw [dropRef, modify_proc]
  split
  · split <;> rfl
  · rfl

/-- The slot of an exited process or thread can be released when every other
member of the group it leads has exited. -/
theorem freeproc_total (hE : k.entries.WellGrouped) (ht : k.entries.Tallied) (hH : Housed k) (hR : Removable k)
    (hz : (k.entries q).phase = .zombie)
    (hgone : ∀ x, x ≠ q → (k.entries x).groupLeader = some q → (k.entries x).phase ≠ .active) :
    ∃ k', k.freeproc q = .ok k' := by
  have hen := Entry.enrolled_of_zombie hz
  have hself : ∀ {k₁ : Kernel}, k₁.mem.kend = k.mem.kend → k₁.rooms q = k.rooms q → ∃ k', k₁.freeSelf q = .ok k' := by
    intro k₁ hkend hroom
    have hfree : (k₁.proc q).room.Freeable k₁.mem := by
      rw [show (k₁.proc q).room = k.rooms q from hroom]
      exact (hR.freeable hH hen).congr hkend
    obtain ⟨m, hm, -⟩ := freeTrapframe_total hfree
    exact ⟨_, Except.bind_ok_iff.2 ⟨m, hm, rfl⟩⟩
  cases hL : (k.proc q).groupLeader with
  | none =>
    rw [freeproc_of_ungrouped hL]
    exact hself rfl rfl
  | some L =>
    by_cases hqL : q = L
    swap
    · simp only [freeproc, hL, hqL, false_and, if_false, ne_eq, not_false_eq_true, if_true]
      exact ⟨_, rfl⟩
    subst hqL
    obtain ⟨ms, hg⟩ := hE.group_of_leader hL hen
    have hzero : ((k.dropRef q).proc q).refCount = 0 := by
      obtain ⟨hpos, hle⟩ := ht q hL
      have hbusy : k.entries.busy q = ∅ := by
        refine Finset.eq_empty_of_forall_notMem fun x hx => ?_
        obtain ⟨hne, hlead, hact⟩ := Entries.mem_busy.1 hx
        exact hgone x hne hlead hact
      rw [hbusy, Finset.card_empty] at hle
      have hdrop := ((k.entries q).dropRef_refCount hpos).2
      have hentry := congrArg Entry.refCount ((congrFun (entries_dropRef k q) q).trans (Function.update_self ..))
      have hval : ((k.dropRef q).proc q).refCount = (k.entries q).dropRef.refCount := hentry
      rw [hval, hdrop]
      omega
    -- the ring of the others, unchanged by the count
    have hb := balanced_dropRef k q
    have hfollow : Follows (fun x => ((k.dropRef q).proc x).groupNext) ((k.dropRef q).proc q).groupNext ms q := by
      rw [show (fun x => ((k.dropRef q).proc x).groupNext) = fun x => (k.entries x).groupNext from
        funext (dropRef_groupNext k q), dropRef_groupNext]
      exact hg.ring.follows
    have hlen : ms.length < nproc := by simpa using hg.ring.length_lt
    have hmember : ∀ x ∈ ms, ((k.dropRef q).rooms x).Freeable (k.dropRef q).mem := by
      intro x hx
      rw [hb.rooms]
      exact (hR.freeable hH ((hg.mem_iff x).1 (by simp [hx])).2).congr hb.kend
    obtain ⟨k₁, hloop, hkend, hproc⟩ := freeMembers_total hfollow hg.ring.head_notMem
      (List.nodup_cons.1 hg.ring.nodup).2 (n := nproc + 1) (by omega) hmember
    obtain ⟨k', hk'⟩ := hself (hkend.trans hb.kend) ((congrArg Proc.room hproc).trans (congrFun hb.rooms q))
    refine ⟨k', ?_⟩
    simp only [freeproc, hL, hzero, true_and, ne_eq, not_true_eq_false, if_false]
    exact Except.bind_ok_iff.2 ⟨k₁, hloop, hk'⟩

/-- A step that reaps `q` releases its slot and returns. -/
theorem step_of_reaps (hen : k.enabled e = true) (hr : k.reaps e = some q) :
    ∃ k₁ v, k₁.entries = k.entries ∧ k.Balanced k₁ ∧
      k.step e = (k₁.freeproc q).bind fun k' => .ok (some v, k') := by
  have hwait : ∀ {k₀ : Kernel} {p addr}, k₀.entries = k.entries → k.Balanced k₀ → k₀.waitReaps p addr = some q →
      ∃ k₁ v, k₁.entries = k.entries ∧ k.Balanced k₁ ∧
        k₀.wait p addr = (k₁.freeproc q).bind fun k' => .ok (some v, k') := by
    intro k₀ p addr hk₀ hb hw
    obtain ⟨hfind, hcopied⟩ := Option.filter_eq_some_iff.1 hw
    cases hcopy : k₀.copyStatus p q addr with
    | error _ => simp [hcopy, Except.toOption] at hcopied
    | ok res =>
      obtain ⟨copied, k₁⟩ := res
      obtain rfl : copied = true := by simpa [hcopy, Except.toOption] using hcopied
      obtain ⟨m, rfl, hkend, hfree, href⟩ := copyStatus_ok hcopy
      refine ⟨{ k₀ with mem := m }, (k₀.proc q).pid, hk₀, hb.trans (balanced_mem ⟨hkend, hfree, href⟩), ?_⟩
      unfold wait
      rw [hfind]
      dsimp only
      rw [hcopy]
      rfl
  have hjoin : ∀ {k₀ : Kernel} {p tid}, k₀.entries = k.entries → k.Balanced k₀ → k₀.findJoin p tid = some q →
      ∃ k₁ v, k₁.entries = k.entries ∧ k.Balanced k₁ ∧
        k₀.threadJoin p tid = (k₁.freeproc q).bind fun k' => .ok (some v, k') := by
    intro k₀ p tid hk₀ hb hw
    refine ⟨k₀, (k₀.proc q).tid, hk₀, hb, ?_⟩
    unfold findJoin at hw
    unfold threadJoin
    rw [hw]
    rfl
  cases e with
  | schedule p =>
    have hp : (k.proc p).state = .runnable := by simpa [enabled] using hen
    have hk := switch_entries hp
    have hb : k.Balanced (k.modify p fun pr => { pr with state := .running, chan := none, resume := .user }) :=
      balanced_modify rfl
    simp only [reaps] at hr
    split at hr
    · rename_i addr hres
      simp only [step, resume, hres]
      exact hwait hk hb ((waitReaps_switch hp addr).trans hr)
    · rename_i tid hres
      simp only [step, resume, hres]
      exact hjoin hk hb ((findJoin_switch hp tid).trans hr)
    · cases hr
  | call p c =>
    cases c with
    | wait addr => exact hwait rfl (.refl k) hr
    | threadJoin tid => exact hjoin rfl (.refl k) hr
    | _ => cases hr
  | _ => cases hr

/-! ## What a step takes from others -/

/-- Who had not exited and does not exit in the step, and is without its slot,
its page table or its trapframe after it. -/
def torn (k : Kernel) (e : Event) : List Slot :=
  match k.step e with
  | .error _ => []
  | .ok (_, k') => (List.finRange nproc).filter fun q => k.Alive q ∧ e.exits ≠ some q ∧
      ¬ (k'.Alive q ∧ (k'.proc q).pagetable.isSome ∧ (k'.proc q).trapframe.isSome)

/-- Reaping does not panic, and takes nothing from anybody who has not exited. -/
structure TearsDown (k : Kernel) (e : Event) : Prop where
  returns : ∀ q, k.reaps e = some q → ∃ v k', k.step e = .ok (v, k')
  safe : k.torn e = []

/-- Write down who was robbed. -/
def robs (k : Kernel) (e : Event) (h : List Slot) : List Slot := k.torn e ++ h

theorem mem_torn (h : k.step e = .ok (r, k')) : q ∈ k.torn e ↔ k.Alive q ∧ e.exits ≠ some q ∧
    ¬ (k'.Alive q ∧ (k'.proc q).pagetable.isSome ∧ (k'.proc q).trapframe.isSome) := by
  simp only [torn, h, List.mem_filter, List.mem_finRange, true_and, decide_eq_true_eq]

theorem reaps_zombie (hen : k.enabled e = true) (hr : k.reaps e = some q) : (k.entries q).phase = .zombie := by
  obtain ⟨p, -, hz, -⟩ := reaps_parent hen hr
  exact hz

/-- When everybody else in the group has exited, nobody is robbed. -/
theorem torn_of_releasesLast (hE : k.entries.WellGrouped) (hen : k.enabled e = true) (hG : k.ReleasesLast e)
    (hkit : ∀ r k', k.step e = .ok (r, k') → ∀ q, (k'.proc q).Equipped) : k.torn e = [] := by
  cases hstep : k.step e with
  | error _ => simp [torn, hstep]
  | ok res =>
    obtain ⟨r, k'⟩ := res
    have hm := step_move hE hen hstep
    refine List.eq_nil_iff_forall_not_mem.2 fun q hq => ?_
    obtain ⟨hact, hexit, hrobbed⟩ := (mem_torn hstep).1 hq
    have hactive : (k.entries q).phase = .active := hact
    cases hm.shift q with
    | same hph =>
      have hact' : k'.Alive q := hph.trans hactive
      obtain ⟨hpt, htf⟩ := hkit r k' hstep q hact'
      exact hrobbed ⟨hact', Option.isSome_iff_ne_none.2 hpt, Option.isSome_iff_ne_none.2 htf⟩
    | taken hfind =>
      rw [findUnused_phase hfind] at hactive
      cases hactive
    | exited he => exact hexit he
    | reaped hz =>
      rw [hz] at hactive
      cases hactive
    | freed hf =>
      obtain ⟨L, hr, ⟨-, rfl⟩ | ⟨ms, hg, hmem⟩⟩ := hf
      · rw [reaps_zombie hen hr] at hactive
        cases hactive
      · exact hG L hr q ((hg.mem_iff q).1 hmem).1 hactive

/-- A group that is released has lost every member. -/
theorem releasesLast_of_tearsDown (hE : k.entries.WellGrouped) (hen : k.enabled e = true) (h : k.TearsDown e) :
    k.ReleasesLast e := by
  intro L hr q hqL hact
  obtain ⟨v, k', hstep⟩ := h.returns L hr
  have hz := reaps_zombie hen hr
  have hactive : (k.entries q).phase = .active := hact
  obtain ⟨ms, hg⟩ := hE.group q L hqL (Entry.enrolled_of_active hactive)
  have hqmem : q ∈ L :: ms := (hg.mem_iff q).2 ⟨hqL, Entry.enrolled_of_active hactive⟩
  obtain ⟨k₁, w, hk₁, -, hstep₁⟩ := step_of_reaps hen hr
  rw [hstep₁] at hstep
  obtain ⟨k₂, hfree, heq⟩ := Except.bind_ok_iff.1 hstep
  cases heq
  have hz₁ : (k₁.proc L).state = .zombie :=
    ProcState.phase_zombie.1 ((congrArg Entry.phase (congrFun hk₁ L)).trans hz)
  have hunused : (k'.entries q).phase = .unused := by
    rcases freeproc_entries (hk₁ ▸ hE) hz₁ hfree with ⟨hnone, -⟩ | ⟨L', hne, hL', -⟩ | ⟨ms', hg', -, hk'⟩
    · rw [hk₁, hg.leader.1] at hnone
      cases hnone
    · rw [hk₁, hg.leader.1] at hL'
      exact absurd (Option.some.inj hL').symm hne
    · rw [hk₁] at hg'
      obtain rfl := hg.unique hg'
      rw [hk']
      by_cases hqL' : q = L
      · simp [Entries.disband, hqL', Entry.clear]
      · simp [Entries.disband, hqL', (List.mem_cons.1 hqmem).resolve_left hqL', Entry.release]
  have hmem : q ∈ k.torn e := by
    rw [mem_torn (hstep₁.trans hstep), Event.exits_of_reaps hr]
    refine ⟨hact, fun he => (by cases he), fun hwhole => ?_⟩
    have hact' : (k'.entries q).phase = .active := hwhole.1
    rw [hunused] at hact'
    cases hact'
  rw [h.safe] at hmem
  cases hmem

end Kernel

/-! ## Runs -/

theorem Removable.balanced (hR : Removable k) (hk : k₁.entries = k.entries) (hb : k.Balanced k₁) : Removable k₁ := by
  have hL : ∀ q, k₁.leaderOf q = k.leaderOf q := fun q => by
    have hq : (k₁.proc q).groupLeader = (k.proc q).groupLeader := congrArg Entry.groupLeader (congrFun hk q)
    rw [Kernel.leaderOf, Kernel.leaderOf, hq]
  refine ⟨fun q => ?_, fun q q' hq hq' hne hne' hlead => ?_, hR.sane.of_rooms hb.rooms, fun f hf => ?_, fun f hf q => ?_⟩
  · rw [hb.rooms, hk]
    exact hR.room q
  · rw [hb.rooms] at hne hne' ⊢
    rw [hk] at hq hq'
    rw [hL, hL] at hlead
    exact hR.level q q' hq hq' hne hne' hlead
  · rw [hb.owned]
    exact hR.own f (by rwa [Mem.inRange_congr hb.kend] at hf)
  · rw [hb.rooms]
    exact hR.use f (by rwa [Mem.inRange_congr hb.kend] at hf) q

theorem tearsDown_of_releasesLast (hk : (system b).Reaches Kernel.KeepsSize k) (hen : k.enabled e = true)
    (hG : k.ReleasesLast e) : k.TearsDown e := by
  have hany : Reachable b k := hk.mono fun _ _ _ => trivial
  have hE := wellGrouped_of_reaches hk
  obtain ⟨hH, hR⟩ := removable_of_reaches hk
  refine ⟨fun q hr => ?_, Kernel.torn_of_releasesLast hE hen hG fun r k' hstep =>
    equipped_of_reachable (.step hany trivial ⟨hen, r, hstep⟩)⟩
  obtain ⟨k₁, v, hk₁, hb, hstep⟩ := Kernel.step_of_reaps hen hr
  have hH₁ : Housed k₁ := fun x => by
    rw [hb.rooms, hk₁]
    exact hH x
  obtain ⟨k', hk'⟩ := Kernel.freeproc_total (q := q) (hk₁ ▸ hE) (hk₁ ▸ tallied_of_reachable hany) hH₁ (hR.balanced hk₁ hb)
    (by rw [hk₁]; exact Kernel.reaps_zombie hen hr) fun x _ hx => by
      rw [hk₁] at hx ⊢
      exact hG q hr x hx
  exact ⟨some v, k', by rw [hstep, hk']; rfl⟩

/-- Whatever processes and threads do except resize: reaping an exited process
or thread neither panics nor takes anything from somebody who has not exited if
and only if every other member of the group it leads has exited. In a run of
such steps nobody is ever robbed. -/
theorem group_released_iff (b : Boot) :
    (∀ k e, (system b).Reaches Kernel.KeepsSize k → k.enabled e = true →
      (k.TearsDown e ↔ k.ReleasesLast e)) ∧
    ∀ s, ((system b).withHistory [] Kernel.robs).Reaches (fun s e => s.1.KeepsSize e ∧ s.1.ReleasesLast e) s →
      s.2 = [] := by
  refine ⟨fun k e hk hen => ⟨Kernel.releasesLast_of_tearsDown (wellGrouped_of_reaches hk) hen,
    tearsDown_of_releasesLast hk hen⟩, fun s hs => ?_⟩
  refine (hs.invariant (P := fun s => (system b).Reaches Kernel.KeepsSize s.1 ∧ s.2 = []) ?_ ?_).2
  · rintro ⟨k, h⟩ ⟨hk, rfl⟩
    exact ⟨.init hk, rfl⟩
  rintro ⟨k, h⟩ e ⟨k', h'⟩ ⟨hk, rfl⟩ ⟨hs, hG⟩ ⟨⟨hen, r, hstep⟩, rfl⟩
  refine ⟨.step hk hs ⟨hen, r, hstep⟩, ?_⟩
  simp [Kernel.robs, (tearsDown_of_releasesLast hk hen hG).safe]

/-- A child and its thread exit, and the child is reaped with the thread. -/
theorem group_released_after_exits :
    (∃ k, (system .standard).Reaches Kernel.KeepsSize k ∧ k.reaps (.call ⟨0, by decide⟩ (.wait 0)) = some ⟨1, by decide⟩ ∧
      k.TearsDown (.call ⟨0, by decide⟩ (.wait 0))) ∧
    ∃ s, ((system .standard).withHistory [] Kernel.robs).Reaches (fun s e => s.1.KeepsSize e ∧ s.1.ReleasesLast e) s ∧
      ((s.1.proc ⟨1, by decide⟩).state = .unused ∧ (s.1.proc ⟨2, by decide⟩).state = .unused) ∧ s.2 = [] := by
  constructor
  · have hrun : (Boot.standard.run Kernel.KeepsSize
        [.schedule ⟨0, by decide⟩, .call ⟨0, by decide⟩ .fork, .schedule ⟨1, by decide⟩,
          .call ⟨1, by decide⟩ (.threadCreate 0 0), .schedule ⟨2, by decide⟩, .call ⟨2, by decide⟩ .threadExit,
          .call ⟨1, by decide⟩ (.exit 0)]).any
        (fun k => k.enabled (.call ⟨0, by decide⟩ (.wait 0)) = true ∧
          k.reaps (.call ⟨0, by decide⟩ (.wait 0)) = some ⟨1, by decide⟩ ∧
          k.ReleasesLast (.call ⟨0, by decide⟩ (.wait 0))) = true := by decide +kernel
    obtain ⟨k, hk, hc⟩ := exists_reaches_of_run hrun
    obtain ⟨hen, hr, hG⟩ := of_decide_eq_true hc
    exact ⟨k, hk, hr, ((group_released_iff .standard).1 k _ hk hen).2 hG⟩
  · have hrun : (Boot.standard.runWith Kernel.robs
        (fun s e => s.1.KeepsSize e ∧ s.1.ReleasesLast e) []
        [.schedule ⟨0, by decide⟩, .call ⟨0, by decide⟩ .fork, .schedule ⟨1, by decide⟩,
          .call ⟨1, by decide⟩ (.threadCreate 0 0), .schedule ⟨2, by decide⟩, .call ⟨2, by decide⟩ .threadExit,
          .call ⟨1, by decide⟩ (.exit 0), .call ⟨0, by decide⟩ (.wait 0)]).any
        (fun s => (s.1.proc ⟨1, by decide⟩).state = .unused ∧ (s.1.proc ⟨2, by decide⟩).state = .unused) = true := by
      decide +kernel
    obtain ⟨s, hs, hc⟩ := exists_reaches_of_runWith hrun
    exact ⟨s, hs, of_decide_eq_true hc, (group_released_iff .standard).2 s hs⟩

/-- A leader that exits before its thread: reaping panics. A leader that has
joined one thread and not the other: the other loses its slot while it runs. -/
theorem group_torn :
    (¬ ∀ (b : Boot) (k : Kernel) (e : Event), (system b).Reaches Kernel.KeepsSize k → k.enabled e = true →
      ∀ q, k.reaps e = some q → ∃ v k', k.step e = .ok (v, k')) ∧
    ¬ ∀ (b : Boot) (k : Kernel) (e : Event), (system b).Reaches Kernel.KeepsSize k → k.enabled e = true →
      k.torn e = [] := by
  constructor
  · intro h
    have hrun : (Boot.standard.run Kernel.KeepsSize
        [.schedule ⟨0, by decide⟩, .call ⟨0, by decide⟩ .fork, .schedule ⟨1, by decide⟩,
          .call ⟨1, by decide⟩ (.threadCreate 0 0), .call ⟨1, by decide⟩ (.exit 0)]).any
        (fun k => k.enabled (.call ⟨0, by decide⟩ (.wait 0)) = true ∧
          k.reaps (.call ⟨0, by decide⟩ (.wait 0)) = some ⟨1, by decide⟩ ∧
          (k.step (.call ⟨0, by decide⟩ (.wait 0))).toOption = none) = true := by decide +kernel
    obtain ⟨k, hk, hc⟩ := exists_reaches_of_run hrun
    obtain ⟨hen, hr, hstep⟩ := of_decide_eq_true hc
    obtain ⟨v, k', hok⟩ := h _ k _ hk hen _ hr
    rw [hok] at hstep
    cases hstep
  · intro h
    have hrun : (Boot.standard.run Kernel.KeepsSize
        [.schedule ⟨0, by decide⟩, .call ⟨0, by decide⟩ .fork, .schedule ⟨1, by decide⟩,
          .call ⟨1, by decide⟩ (.threadCreate 0 0), .call ⟨1, by decide⟩ (.threadCreate 0 0),
          .schedule ⟨2, by decide⟩, .call ⟨2, by decide⟩ .threadExit, .call ⟨1, by decide⟩ (.threadJoin 1),
          .schedule ⟨3, by decide⟩, .call ⟨1, by decide⟩ (.exit 0)]).any
        (fun k => k.enabled (.call ⟨0, by decide⟩ (.wait 0)) = true ∧
          k.torn (.call ⟨0, by decide⟩ (.wait 0)) ≠ []) = true := by decide +kernel
    obtain ⟨k, hk, hc⟩ := exists_reaches_of_run hrun
    obtain ⟨hen, htorn⟩ := of_decide_eq_true hc
    exact htorn (h _ k _ hk hen)

end Xv6
