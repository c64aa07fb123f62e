-- SUMMARY: In every state of every run the groups form rings, and every loop over a ring comes to its end.
import Xv6Threads.Memory.Halting
import Xv6Threads.System.Groups

/-!
# Rings

The loops over a group follow `group_next` until they are back at the leader.
A slot that a failed `thread_create` has left behind names a leader other than
itself, so every slot that is its own leader is on the ring it leads; with that
each of the loops visits every member once.
-/

namespace Xv6

variable {b : Boot} {k k' : Kernel} {e : Event} {E' : Entries} {p q np leader L : Slot} {l ms : List Slot}

/-! ## Slots left behind -/

/-- No slot left behind by a failed `thread_create` is its own leader. -/
def Entries.Stray (E : Entries) : Prop := ∀ q, (E q).phase = .used → (E q).groupLeader ≠ some q

theorem Entries.Stray.update {E : Entries} (h : E.Stray) {x : Entry}
    (hx : x.phase = .used → x.groupLeader ≠ some p) : Entries.Stray (Function.update E p x) := by
  intro q hq
  by_cases hqp : q = p
  · subst hqp
    rw [Function.update_self] at hq ⊢
    exact hx hq
  · rw [Function.update_of_ne hqp] at hq ⊢
    exact h q hq

theorem Entries.Stray.dropRef {E : Entries} (h : E.Stray) (L : Slot) :
    Entries.Stray (Function.update E L (E L).dropRef) :=
  have hs := (E L).dropRef_sameGroup
  h.update fun hq => by
    rw [hs.leader]
    exact h L (hs.phase.2.1 hq)

theorem Entries.Stray.found {E : Entries} (h : E.Stray) (hp : (E p).phase = .active) :
    (E.found p).Stray := by
  unfold Entries.found
  split
  · exact h.update fun hq => by rw [hp] at hq; cases hq
  · exact h

theorem Move.stray (hm : Move k e E') (hE : k.entries.WellGrouped) (h : k.entries.Stray) : E'.Stray := by
  cases hm with
  | quiet => exact h
  | strike _ q hq => exact h.update fun hu => h q hu
  | allocFail p np c hfind => exact h.update fun hu => by cases hu
  | fork p np hp hfind => exact h.update fun hu => by cases hu
  | create p np L start arg ms x hp hfind hL hg hx =>
    intro q hq
    by_cases hqnp : q = np
    · subst hqnp hx
      simp [Entries.linkIn] at hq
    · have hfound := h.found hp q
      simp only [Entries.linkIn, hqnp, if_false] at hq ⊢
      exact hfound hq
  | createBad p np L start arg x hp hfind hL hx =>
    -- the new slot was not in use, so it does not lead the group
    refine (h.found hp).update fun _ => ?_
    obtain ⟨-, ms, hg⟩ := Kernel.exists_found_group hE hp
    rw [hL] at hg
    have hne : L ≠ np := fun heq => by
      have hen := hg.leader.2.1
      rw [heq, Kernel.found_phase] at hen
      exact hen (Kernel.findUnused_phase hfind)
    subst hx
    exact fun heq => hne (Option.some.inj heq)
  | threadExit _ p L he hp ht hL hne => exact (h.dropRef L).update fun hu => by cases hu
  | processExit _ p he hp ht =>
    intro q hq
    simp only [Kernel.retire] at hq ⊢
    split at hq
    · cases hq
    · exact h q hq
  | reapThread _ q L hr hz hL hne => exact (h.dropRef L).update fun hu => by cases hu
  | reapProcess _ q hr hz hL => exact h.update fun hu => by cases hu
  | reapGroup _ L ms chan files hr hz hg href =>
    intro q hq
    simp only [Entries.disband] at hq ⊢
    split at hq
    · cases hq
    · split at hq
      · cases hq
      · rename_i hqL hqms
        rw [if_neg hqL, if_neg hqms]
        exact h q hq

theorem stray_of_reachable (h : Reachable b k) : k.entries.Stray := by
  refine (Lts.Reaches.invariant (P := fun k => k.entries.WellGrouped ∧ k.entries.Stray) ?_ ?_ h).2
  · intro k hk
    refine ⟨Boot.main_wellGrouped hk, fun q hq => ?_⟩
    obtain ⟨p, hne, -, hp⟩ := Boot.main_entries hk
    by_cases hqp : q = p
    · subst hqp; simp [hp, Proc.zero, Proc.entry]
    · simp [Kernel.entries, hne q hqp, Proc.zero, Proc.entry]
  · rintro k e k' ⟨hE, hs⟩ - ⟨hen, r, hstep⟩
    have hm := Kernel.step_move hE hen hstep
    exact ⟨hm.wellGrouped hE, hm.stray hE hs⟩

/-! ## Loops that come to their end -/

namespace Kernel

/-- The links that a loop over a group follows. -/
def next (k : Kernel) (q : Slot) : Option Slot := (k.proc q).groupNext

def prev (k : Kernel) (q : Slot) : Option Slot := (k.proc q).groupPrev

theorem next_of_entries (h : k'.entries = k.entries) : k'.next = k.next :=
  funext fun q => congrArg Entry.groupNext (congrFun h q)

/-- The links lead from `L` back to `L`. -/
def Closed (k : Kernel) (L : Slot) : Prop := ∃ l, Follows k.next (k.next L) l L ∧ l.length < nproc

/-- A loop over the group of `p` comes back to where it starts. -/
def Loops (k : Kernel) (p : Slot) : Prop := ∀ L, (k.entries p).groupLeader = some L → k.Closed L

theorem Loops.of_entries (h : k.Loops p) (he : k'.entries = k.entries) : k'.Loops p := by
  intro L hL
  rw [he] at hL
  unfold Closed
  rw [next_of_entries he]
  exact h L hL

theorem closed_of_ring (h : Circular k.next k.prev L l) : k.Closed L :=
  ⟨l, h.follows, by simpa using h.length_lt⟩

/-- A loop that keeps the links halts when they lead back to the leader. -/
theorem ringLoop_halts {body : Kernel → Slot → Except Panic Kernel} {n : Nat}
    (hbody : ∀ k q, Halts (body k q)) (hkeep : ∀ k q k', body k q = .ok k' → k'.next = k.next)
    (hf : Follows k.next (k.next q) l leader) (hn : l.length < n) :
    Halts (ringLoop leader body n q k) := by
  induction n generalizing k q l with
  | zero => cases hn
  | succ n ih =>
    rw [ringLoop]
    refine (hbody k q).bind fun k₁ hk₁ => ?_
    have hnext := hkeep k q k₁ hk₁
    rw [show (k₁.proc q).groupNext = k.next q from congrFun hnext q]
    cases l with
    | nil =>
      rw [show k.next q = some leader from hf]
      simp
    | cons x l =>
      rw [hf.1]
      dsimp only
      split
      · simp
      · have hrest := hf.2
        rw [← hnext] at hrest
        exact ih hrest (Nat.lt_of_succ_lt_succ hn)

theorem mapInto_halts (k : Kernel) (q : Slot) (va : Nat) (pa : Ppn) (perm : Perm) :
    Halts (k.mapInto q va pa perm) := by
  unfold mapInto
  split
  · simp
  · exact (PageTable.mappages_halts _ _ _ _ _ _).bind fun _ _ => Except.avoids_ok

theorem unmapFrom_halts (k : Kernel) (q : Slot) (va : Nat) : Halts (k.unmapFrom q va) := by
  unfold unmapFrom
  split
  · simp
  · exact (PageTable.uvmunmap_halts _ _ _ _ _).bind fun _ _ => Except.avoids_ok

theorem mapOther_halts (k : Kernel) (p q : Slot) (va : Nat) (pa : Ppn) : Halts (k.mapOther p q va pa) := by
  unfold mapOther
  split
  · exact mapInto_halts _ _ _ _ _
  · simp

theorem mapOther_next {va : Nat} {pa : Ppn} {c : Bool} (h : k.mapOther p q va pa = .ok (c, k')) :
    k'.next = k.next := by
  unfold mapOther at h
  split at h
  · exact next_of_entries (mapInto_remaps h).entries
  · cases h; rfl

theorem growMembers_halts {va : Nat} {pa : Ppn} {n : Nat} (hf : Follows k.next (k.next q) l leader)
    (hn : l.length < n) : Halts (growMembers p leader va pa n q k) := by
  induction n generalizing k q l with
  | zero => cases hn
  | succ n ih =>
    rw [growMembers]
    refine (mapOther_halts _ _ _ _ _).bind ?_
    rintro ⟨mapped, k₁⟩ hk₁
    dsimp only
    split
    · simp
    have hnext := mapOther_next hk₁
    rw [show (k₁.proc q).groupNext = k.next q from congrFun hnext q]
    cases l with
    | nil =>
      rw [show k.next q = some leader from hf]
      simp
    | cons x l =>
      rw [hf.1]
      dsimp only
      split
      · simp
      · have hrest := hf.2
        rw [← hnext] at hrest
        exact ih hrest (Nat.lt_of_succ_lt_succ hn)

theorem pteAddr_halts (pt : PageTable) (va : Nat) : Halts (pteAddr pt va) := by
  refine (PageTable.walk_halts pt va).bind fun r _ => ?_
  split <;> simp

theorem growGroup_halts {n va : Nat} (hf : Follows k.next (k.next leader) l leader)
    (hl : l.length < nproc) : Halts (growGroup p leader n va k) := by
  induction n generalizing k va with
  | zero => exact Except.avoids_ok
  | succ n ih =>
    rw [growGroup]
    split
    · simp
    · refine (pteAddr_halts _ _).bind fun pa _ => (growMembers_halts hf hl).bind ?_
      rintro ⟨mapped, k₁⟩ hk₁
      dsimp only
      split
      · simp
      · exact ih (by rwa [next_of_entries (growMembers_remaps hk₁).entries])

theorem shrinkGroup_halts {n va : Nat} (hf : Follows k.next (k.next leader) l leader)
    (hl : l.length < nproc) : Halts (shrinkGroup p leader n va k) := by
  induction n generalizing k va with
  | zero => exact Except.avoids_ok
  | succ n ih =>
    have hkeep : ∀ (k : Kernel) (q : Slot) (k' : Kernel),
        (if q ≠ p then k.unmapFrom q va else .ok k) = .ok k' → k'.next = k.next := by
      intro k q k' h
      split at h
      · exact next_of_entries (unmapFrom_remaps h).entries
      · cases h; rfl
    rw [shrinkGroup]
    refine (ringLoop_halts (fun k q => ?_) hkeep hf hl).bind fun k₁ hk₁ => ih ?_
    · split
      · exact unmapFrom_halts _ _ _
      · simp
    · rwa [ringLoop_invariant (P := fun k' => k'.next = k.next)
        (fun k₂ q k₃ hk₂ hbody => (hkeep k₂ q k₃ hbody).trans hk₂) rfl hk₁]

theorem setSize_halts {sz : Nat} (hp : k.Loops p) : Halts (k.setSize p sz) := by
  unfold setSize
  split
  · simp
  · rename_i L hL
    obtain ⟨l, hf, hl⟩ := hp L hL
    refine ringLoop_halts (fun k q => Except.avoids_ok) (fun k q k' h => ?_) hf hl
    cases h
    exact next_of_entries (entries_modify_same rfl)

theorem growOthers_halts {va sz : Nat} (hp : k.Loops p) : Halts (k.growOthers p va sz) := by
  unfold growOthers
  split
  · simp
  · rename_i L hL
    obtain ⟨l, hf, hl⟩ := hp L hL
    exact growGroup_halts hf hl

theorem shrinkOthers_halts {va sz : Nat} (hp : k.Loops p) : Halts (k.shrinkOthers p va sz) := by
  unfold shrinkOthers
  split
  · simp
  · rename_i L hL
    obtain ⟨l, hf, hl⟩ := hp L hL
    exact shrinkGroup_halts hf hl

theorem growproc_halts {n : Int} (hp : k.Loops p) : Halts (k.growproc p n) := by
  have hset : ∀ (m : Mem) (pt : PageTable), Loops ({ k with mem := m }.setTable p pt) p :=
    fun m pt => hp.of_entries ((entries_setTable _ _ _).trans rfl)
  unfold growproc
  dsimp only
  split
  · simp
  split
  · simp
  split
  · refine (PageTable.uvmalloc_halts _ _ _ _ _).bind fun ⟨newsz, m, pt⟩ _ => ?_
    dsimp only
    split
    · simp
    refine (growOthers_halts (hset m pt)).bind fun ⟨mapped, k₁⟩ hk₁ => ?_
    dsimp only
    split
    · simp
    · exact (setSize_halts ((hset m pt).of_entries (growOthers_remaps hk₁).entries)).bind fun _ _ => Except.avoids_ok
  · refine (PageTable.uvmdealloc_halts _ _ _ _).bind fun ⟨newsz, m, pt⟩ _ => ?_
    refine (shrinkOthers_halts (hset m pt)).bind fun k₁ hk₁ => ?_
    exact (setSize_halts ((hset m pt).of_entries (shrinkOthers_remaps hk₁).entries)).bind fun _ _ => Except.avoids_ok

theorem sbrk_halts {n : Int} (hp : k.Loops p) : Halts (k.sbrk p n) := by
  refine (growproc_halts hp).bind fun ⟨r, k₁⟩ _ => ?_
  dsimp only
  split <;> simp

theorem familyLoop_halts {pt : PageTable} {buf count n : Nat} {max : Int}
    (hf : Follows k.next (k.next q) l leader) (hn : l.length < n) :
    Halts (familyLoop pt leader buf max n (some q) count k) := by
  induction n generalizing k q l count with
  | zero => cases hn
  | succ n ih =>
    rw [familyLoop]
    split
    · simp
    split
    · simp
    split
    · simp
    · rename_i m _ hne
      cases l with
      | nil => exact absurd hf hne
      | cons x l =>
        rw [show (k.proc q).groupNext = some x from hf.1]
        exact ih (k := { k with mem := m }) hf.2 (Nat.lt_of_succ_lt_succ hn)

theorem getfamily_halts {buf : Nat} {max : Int} (hp : k.Closed (k.leaderOf p)) :
    Halts (k.getfamily p buf max) := by
  obtain ⟨l, hf, hl⟩ := hp
  unfold getfamily
  split
  · simp
  · exact familyLoop_halts hf hl

theorem statusLoop_halts {tid : Int} {n : Nat} (hf : Follows k.next (k.next q) l leader)
    (hn : l.length < n) : Halts (k.statusLoop leader tid n (some q)) := by
  induction n generalizing q l with
  | zero => cases hn
  | succ n ih =>
    rw [statusLoop]
    split
    · simp
    split
    · simp
    · rename_i hne
      cases l with
      | nil => exact absurd hf hne
      | cons x l =>
        rw [show (k.proc q).groupNext = some x from hf.1]
        exact ih hf.2 (Nat.lt_of_succ_lt_succ hn)

theorem getstatus_halts {tid : Int} (hp : k.Closed (k.leaderOf p)) : Halts (k.getstatus p tid) := by
  obtain ⟨l, hf, hl⟩ := hp
  exact statusLoop_halts hf hl

/-! ### freeproc -/

theorem freeTrapframe_halts (m : Mem) (pr : Proc) : Halts (freeTrapframe m pr) := by
  unfold freeTrapframe
  split
  · exact m.kfree_halts _
  · simp

theorem freeTableThread_halts (m : Mem) (pr : Proc) : Halts (freeTableThread m pr) := by
  unfold freeTableThread
  split
  · refine (PageTable.uvmunmap_halts _ _ _ _ _).bind fun _ _ => ?_
    refine (PageTable.uvmunmap_halts _ _ _ _ _).bind fun _ _ => ?_
    exact PageTable.uvmfreeSharedThread_halts _ _ _
  · simp

theorem freeSelf_halts (k : Kernel) (p : Slot) : Halts (k.freeSelf p) :=
  (freeTrapframe_halts _ _).bind fun _ _ => Except.avoids_ok

theorem freeMember_halts (k : Kernel) (q : Slot) : Halts (k.freeMember q) :=
  (freeTrapframe_halts _ _).bind fun _ _ => (freeTableThread_halts _ _).bind fun _ _ => Except.avoids_ok

/-- Releasing a member keeps the links of those still to be visited. -/
theorem freeMembers_halts {n : Nat} {o : Option Slot} (hf : Follows k.next o l p) (hd : l.Nodup)
    (hn : l.length < n) : Halts (freeMembers p n o k) := by
  induction n generalizing k o l with
  | zero => cases hn
  | succ n ih =>
    cases l with
    | nil =>
      rw [show o = some p from hf, freeMembers, if_pos rfl]
      simp
    | cons x l =>
      obtain ⟨hx, hd⟩ := List.nodup_cons.1 hd
      rw [hf.1, freeMembers]
      split
      · simp
      · refine (freeMember_halts k x).bind fun k₁ hk₁ => ih ?_ hd (Nat.lt_of_succ_lt_succ hn)
        obtain ⟨m, m', -, -, rfl⟩ := freeMember_ok hk₁
        refine hf.2.congr fun y hy => ?_
        have hyx : y ≠ x := fun heq => hx (heq ▸ hy)
        simp [next, hyx]

theorem freeproc_halts (hp : (k.entries p).groupLeader = some p → ∃ l, Circular k.next k.prev p l) :
    Halts (k.freeproc p) := by
  unfold freeproc
  split
  · exact freeSelf_halts k p
  rename_i L hL
  dsimp only
  split
  · simp
  split
  · simp
  rename_i hpL
  obtain rfl : p = L := not_not.1 hpL
  obtain ⟨l, hring⟩ := hp hL
  have hnext : (k.dropRef p).next = k.next := by
    funext q
    have := congrFun (entries_dropRef k p) q
    by_cases hq : q = p
    · subst hq
      rw [Function.update_self] at this
      exact (congrArg Entry.groupNext this).trans ((k.entries q).dropRef_sameGroup).next
    · rw [Function.update_of_ne hq] at this
      exact congrArg Entry.groupNext this
  have hf := hring.follows
  rw [← hnext] at hf
  have hlen : l.length < nproc := by simpa using hring.length_lt
  refine (freeMembers_halts hf (List.nodup_cons.1 hring.nodup).2 (by omega)).bind fun _ _ => ?_
  exact freeSelf_halts _ _

/-! ### thread_create -/

theorem procPagetable_halts (m : Mem) (tramp tf : Ppn) : Halts (procPagetable m tramp tf) := by
  unfold procPagetable
  split
  · simp
  refine (PageTable.mappages_halts _ _ _ _ _ _).bind fun ⟨mapped, m, pt⟩ _ => ?_
  dsimp only
  split
  · exact (PageTable.uvmfree_halts _ _ _).bind fun _ _ => Except.avoids_ok
  refine (PageTable.mappages_halts _ _ _ _ _ _).bind fun ⟨mapped, m, pt⟩ _ => ?_
  dsimp only
  split
  · refine (PageTable.uvmunmap_halts _ _ _ _ _).bind fun _ _ => ?_
    exact (PageTable.uvmfree_halts _ _ _).bind fun _ _ => Except.avoids_ok
  · simp

theorem allocproc_halts (k : Kernel) : Halts k.allocproc := by
  unfold allocproc
  split
  · simp
  dsimp only
  split
  · rw [freeproc_of_ungrouped (by simp [Proc.claim])]
    exact (freeSelf_halts _ _).bind fun _ _ => Except.avoids_ok
  · refine (procPagetable_halts _ _ _).bind ?_
    rintro ⟨pt, m⟩ -
    dsimp only
    split
    · rw [freeproc_of_ungrouped (by simp [Proc.claim])]
      exact (freeSelf_halts _ _).bind fun _ _ => Except.avoids_ok
    · simp

theorem enterGroup_halts (k : Kernel) (L np : Slot) : Halts (k.enterGroup L np) := by
  unfold enterGroup
  dsimp only
  split <;> simp

theorem leaveGroup_halts (k : Kernel) (L np : Slot) : Halts (k.leaveGroup L np) := by
  unfold leaveGroup
  split <;> simp

theorem dupFiles_halts (k : Kernel) (p np : Slot) : Halts (k.dupFiles p np) := by
  refine .foldlM (fun k i => ?_) _ _
  unfold dupFd
  split
  · simp
  · refine Except.Avoids.bind ?_ fun _ _ => Except.avoids_ok
    unfold filedup
    split <;> simp

theorem startThread_halts (k : Kernel) (p np : Slot) (curr start arg : Nat) :
    Halts (k.startThread p np curr start arg) := by
  unfold startThread
  split
  · refine (dupFiles_halts _ _ _).bind fun k₁ _ => Except.Avoids.bind ?_ fun _ _ => Except.avoids_ok
    unfold dupCwd
    split <;> simp
  · simp

/-- The ring with the new slot in it. -/
theorem linkIn_ring {E : Entries} (hE : E.WellGrouped) (hg : E.Group L ms) (hnp : (E np).phase = .unused)
    {x : Entry} (hleader : x.groupLeader = some L) (hprev : x.groupPrev = some L)
    (hnext : x.groupNext = (E L).groupNext) :
    Circular (fun q => (E.linkIn L np x q).groupNext) (fun q => (E.linkIn L np x q).groupPrev) L
      (np :: ms) := by
  have hring := (hE.linkIn hg hnp (e := { x with phase := .active, isThread := true }) rfl rfl
    hleader hprev hnext).2.ring
  refine hring.congr (fun q _ => ?_) (fun q _ => ?_)
  all_goals
    by_cases hq : q = np
    · simp [Entries.linkIn, hq]
    · simp [Entries.linkIn, hq]

theorem threadCreate_halts {start arg : Nat} (hE : k.entries.WellGrouped)
    (hp : (k.proc p).state.phase = .active) : Halts (k.threadCreate p start arg) := by
  unfold threadCreate
  refine (allocproc_halts k).bind fun ⟨o, k₁⟩ halloc => ?_
  split
  · simp
  rename_i np k₁' heq
  cases heq
  refine (enterGroup_halts _ _ _).bind fun k₂ henter => ?_
  obtain ⟨-, hnp, hleader, ms, hfound, hg, -, hE₂⟩ := enterGroup_joined hE hp halloc henter
  have hring : Circular k₂.next k₂.prev (k.leaderOf p) (np :: ms) := by
    have hjoin := linkIn_ring (x := k.joined p np) hfound hg ((found_phase _ _ _).trans hnp) rfl rfl rfl
    rw [← hE₂] at hjoin
    exact hjoin
  rw [hleader]
  split
  · refine (PageTable.uvmshare_halts _ _ _ _).bind fun ⟨c, m, npt⟩ _ => ?_
    dsimp only
    split
    · exact (leaveGroup_halts _ _ _).bind fun _ _ => Except.avoids_ok
    · rename_i stack m' _
      have hkeep : ∀ (k : Kernel) (q : Slot) (k' : Kernel),
          mapStack (k₂.proc p).sz stack k q = .ok k' → k'.next = k.next :=
        fun k q k' h => next_of_entries (mapStack_remaps h).entries
      refine (ringLoop_halts (l := np :: ms) (fun k q => ?_) hkeep ?_ (by simpa using hring.length_lt)).bind
        fun k₃ _ => (startThread_halts _ _ _ _ _ _).bind fun _ _ => Except.avoids_ok
      · exact (mapInto_halts _ _ _ _ _).bind fun _ _ => Except.avoids_ok
      · have hn : next { { k₂ with mem := m }.setTable np npt with mem := m'.memset stack 0 } = k₂.next :=
          next_of_entries ((entries_setTable { k₂ with mem := m } np npt).trans rfl)
        rw [hn]
        exact hring.follows
  · simp

end Kernel

/-! ## The rings of a run -/

/-- Every slot that leads a group is on a ring of slots in use that name it. -/
theorem ring_of_leader (hE : k.entries.WellGrouped) (hs : k.entries.Stray)
    (hL : (k.proc L).groupLeader = some L) : ∃ ms, k.entries.Group L ms := by
  refine hE.group_of_leader hL ⟨fun hu => ?_, fun hu => hs L hu hL⟩
  have hn := (hE.idle L hu).1
  rw [show (k.entries L).groupLeader = some L from hL] at hn
  cases hn

/-- In every state between two system calls each leader is on a ring of slots
in use, linked both ways, that all name it as their leader; every thread is on
the ring of its leader; and the loops over a group come to their end for every
process that can run and for every slot that is released. -/
theorem rings_of_reachable (h : Reachable b k) :
    (∀ L, (k.proc L).groupLeader = some L → ∃ ms, Circular k.next k.prev L ms ∧
      ∀ q ∈ L :: ms, (k.proc q).groupLeader = some L ∧ (k.proc q).state ≠ .unused) ∧
    (∀ q, (k.proc q).isThread = true → ∃ L ms, (k.proc q).groupLeader = some L ∧
      Circular k.next k.prev L ms ∧ q ∈ L :: ms) ∧
    (∀ p, (k.proc p).groupLeader ≠ none → (k.proc p).state.phase = .active →
      (∀ n, Halts (k.sbrk p n)) ∧ (∀ start arg, Halts (k.threadCreate p start arg)) ∧
      (∀ buf max, Halts (k.getfamily p buf max)) ∧ ∀ tid, Halts (k.getstatus p tid)) ∧
    ∀ q, Halts (k.freeproc q) := by
  have hE := wellGrouped_of_reaches h
  have hs := stray_of_reachable h
  have hused : ∀ q, (k.entries q).Enrolled → (k.proc q).state ≠ .unused :=
    fun q hen hu => hen.1 (congrArg ProcState.phase hu)
  refine ⟨fun L hL => ?_, fun q hq => ?_, fun p hp hactive => ?_, fun q => ?_⟩
  · obtain ⟨ms, hg⟩ := ring_of_leader hE hs hL
    refine ⟨ms, hg.ring, fun q hq => ?_⟩
    obtain ⟨hlead, hen⟩ := (hg.mem_iff q).1 hq
    exact ⟨hlead, hused q hen⟩
  · obtain ⟨hen, L, -, hL⟩ := hE.thread q hq
    obtain ⟨ms, hg⟩ := hE.group q L hL hen
    exact ⟨L, ms, hL, hg.ring, (hg.mem_iff q).2 ⟨hL, hen⟩⟩
  · obtain ⟨L, hL⟩ := Option.ne_none_iff_exists'.1 hp
    have hen : (k.entries p).Enrolled := Entry.enrolled_of_active hactive
    obtain ⟨ms, hg⟩ := hE.group p L hL hen
    have hclosed : k.Closed L := Kernel.closed_of_ring (k := k) hg.ring
    have hleader : k.leaderOf p = L := by simp [Kernel.leaderOf, hL]
    have hloops : k.Loops p := by
      intro L' hL'
      obtain rfl : L = L' := Option.some.inj (hL.symm.trans hL')
      exact hclosed
    rw [← hleader] at hclosed
    exact ⟨fun n => Kernel.sbrk_halts hloops, fun start arg => Kernel.threadCreate_halts hE hactive,
      fun buf max => Kernel.getfamily_halts hclosed, fun tid => Kernel.getstatus_halts hclosed⟩
  · refine Kernel.freeproc_halts fun hq => ?_
    obtain ⟨ms, hg⟩ := ring_of_leader hE hs hq
    exact ⟨ms, hg.ring⟩

/-- A process with two threads. -/
theorem rings_of_two_threads : ∃ k, Reachable .standard k ∧ (k.proc ⟨2, by decide⟩).isThread = true ∧
    ∃ L ms, (k.proc ⟨2, by decide⟩).groupLeader = some L ∧ Circular k.next k.prev L ms ∧
      ⟨2, by decide⟩ ∈ L :: ms := by
  have hrun : (Boot.standard.run anyStep
      [.schedule ⟨0, by decide⟩, .call ⟨0, by decide⟩ (.threadCreate 0 0), .schedule ⟨1, by decide⟩,
        .call ⟨1, by decide⟩ (.threadCreate 0 0)]).any
      (fun k => (k.proc ⟨2, by decide⟩).isThread) = true := by decide +kernel
  obtain ⟨k, hk, hc⟩ := exists_reaches_of_run hrun
  exact ⟨k, hk, hc, (rings_of_reachable hk).2.1 _ hc⟩

end Xv6
