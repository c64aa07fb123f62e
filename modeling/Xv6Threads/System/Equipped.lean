-- SUMMARY: Every process that can run has a page table and a trapframe, and a process in no group has no links.
import Xv6Threads.System.Transfers
import Xv6Threads.System.Rings

/-!
# What a process has

Two facts about every reachable state that the calls rely on without checking
them: a process that can run has a page table and a trapframe, and a slot that
names no leader has no link either.
-/

namespace Xv6

variable {b : Boot} {k k' k'' k₁ : Kernel} {e : Event} {E E' : Entries} {p q np L : Slot} {r : Option Int}

/-! ## Tables -/

/-- The slot has a page table and a trapframe. -/
def Proc.Kitted (pr : Proc) : Prop := pr.pagetable ≠ none ∧ pr.trapframe ≠ none

/-- If the process can run, it has both. -/
def Proc.Equipped (pr : Proc) : Prop := pr.state.phase = .active → pr.Kitted

namespace Kernel

/-- No slot loses its table or its trapframe. -/
def KeepsTables (k k' : Kernel) : Prop := ∀ q, (k.proc q).Kitted → (k'.proc q).Kitted

theorem KeepsTables.refl (k : Kernel) : k.KeepsTables k := fun _ h => h

theorem KeepsTables.trans (h : k.KeepsTables k') (h' : k'.KeepsTables k'') : k.KeepsTables k'' :=
  fun q hq => h' q (h q hq)

theorem keepsTables_modify {f : Proc → Proc} (h : (k.proc p).Kitted → (f (k.proc p)).Kitted) :
    k.KeepsTables (k.modify p f) := by
  intro q hq
  rw [modify_proc]
  split
  · rename_i heq
    subst heq
    exact h hq
  · exact hq

theorem keepsTables_setTable (k : Kernel) (m : Mem) (p : Slot) (pt : PageTable) :
    k.KeepsTables ({ k with mem := m }.setTable p pt) :=
  keepsTables_modify (k := { k with mem := m }) fun h => ⟨nofun, h.2⟩

theorem mapInto_keepsTables {va : Nat} {pa : Ppn} {perm : Perm} {c : Bool}
    (h : k.mapInto q va pa perm = .ok (c, k')) : k.KeepsTables k' := by
  unfold mapInto at h
  split at h
  · cases h
  · obtain ⟨⟨mapped, m, pt⟩, -, h⟩ := Except.bind_ok_iff.1 h
    cases h
    exact keepsTables_setTable _ _ _ _

theorem unmapFrom_keepsTables {va : Nat} (h : k.unmapFrom q va = .ok k') : k.KeepsTables k' := by
  unfold unmapFrom at h
  split at h
  · cases h
  · obtain ⟨⟨m, pt⟩, -, h⟩ := Except.bind_ok_iff.1 h
    cases h
    exact keepsTables_setTable _ _ _ _

theorem ringLoop_keepsTables {body : Kernel → Slot → Except Panic Kernel} {n : Nat}
    (hbody : ∀ k q k', body k q = .ok k' → k.KeepsTables k') (h : ringLoop L body n q k = .ok k') :
    k.KeepsTables k' :=
  ringLoop_invariant (P := fun k' => k.KeepsTables k') (fun k₁ q k₂ hk₁ h => hk₁.trans (hbody k₁ q k₂ h))
    (.refl k) h

theorem mapStack_keepsTables {curr : Nat} {stack : Ppn} (h : mapStack curr stack k q = .ok k') :
    k.KeepsTables k' := by
  obtain ⟨⟨c, k₁⟩, hmap, h⟩ := Except.bind_ok_iff.1 h
  cases h
  exact (keepsTables_modify id).trans (mapInto_keepsTables hmap)

theorem growMembers_keepsTables {va : Nat} {pa : Ppn} {n : Nat} {c : Bool}
    (h : growMembers p L va pa n q k = .ok (c, k')) : k.KeepsTables k' := by
  induction n generalizing k q with
  | zero => cases h
  | succ n ih =>
    rw [growMembers] at h
    obtain ⟨⟨mapped, k₁⟩, hmap, h⟩ := Except.bind_ok_iff.1 h
    have hk₁ : k.KeepsTables k₁ := by
      unfold mapOther at hmap
      split at hmap
      · exact mapInto_keepsTables hmap
      · cases hmap
        exact .refl k
    dsimp only at h
    split at h
    · cases h
      exact hk₁
    · split at h
      · cases h
      · split at h
        · cases h
          exact hk₁
        · exact hk₁.trans (ih h)

theorem growGroup_keepsTables {n va : Nat} {c : Bool} (h : growGroup p L n va k = .ok (c, k')) :
    k.KeepsTables k' := by
  induction n generalizing k va with
  | zero =>
    cases h
    exact .refl _
  | succ n ih =>
    rw [growGroup] at h
    split at h
    · cases h
    · obtain ⟨pa, -, h⟩ := Except.bind_ok_iff.1 h
      obtain ⟨⟨mapped, k₁⟩, hgrow, h⟩ := Except.bind_ok_iff.1 h
      have hk₁ := growMembers_keepsTables hgrow
      dsimp only at h
      split at h
      · cases h
        exact hk₁
      · exact hk₁.trans (ih h)

theorem shrinkGroup_keepsTables {n va : Nat} (h : shrinkGroup p L n va k = .ok k') : k.KeepsTables k' := by
  induction n generalizing k va with
  | zero =>
    cases h
    exact .refl _
  | succ n ih =>
    rw [shrinkGroup] at h
    obtain ⟨k₁, hloop, h⟩ := Except.bind_ok_iff.1 h
    refine (ringLoop_keepsTables (fun k₂ q k₃ hbody => ?_) hloop).trans (ih h)
    split at hbody
    · exact unmapFrom_keepsTables hbody
    · cases hbody
      exact .refl _

theorem setSize_keepsTables {sz : Nat} (h : k.setSize p sz = .ok k') : k.KeepsTables k' := by
  unfold setSize at h
  split at h
  · cases h
    exact keepsTables_modify id
  · refine ringLoop_keepsTables (fun k₂ q k₃ hbody => ?_) h
    cases hbody
    exact keepsTables_modify id

theorem growOthers_keepsTables {va sz : Nat} {c : Bool} (h : k.growOthers p va sz = .ok (c, k')) :
    k.KeepsTables k' := by
  unfold growOthers at h
  split at h
  · cases h
    exact .refl k
  · exact growGroup_keepsTables h

theorem shrinkOthers_keepsTables {va sz : Nat} (h : k.shrinkOthers p va sz = .ok k') : k.KeepsTables k' := by
  unfold shrinkOthers at h
  split at h
  · cases h
    exact .refl k
  · exact shrinkGroup_keepsTables h

theorem growproc_keepsTables {n v : Int} (h : k.growproc p n = .ok (v, k')) : k.KeepsTables k' := by
  simp only [growproc] at h
  split at h
  · cases h
    exact .refl k
  split at h
  · cases h
  split at h
  · obtain ⟨⟨newsz, m, pt⟩, -, h⟩ := Except.bind_ok_iff.1 h
    have hset := keepsTables_setTable k m p pt
    dsimp only at h
    split at h
    · cases h
      exact hset
    · obtain ⟨⟨mapped, k₁⟩, hgrow, h⟩ := Except.bind_ok_iff.1 h
      have hk₁ := hset.trans (growOthers_keepsTables hgrow)
      dsimp only at h
      split at h
      · cases h
        exact hk₁
      · obtain ⟨k₂, hsize, h⟩ := Except.bind_ok_iff.1 h
        cases h
        exact hk₁.trans (setSize_keepsTables hsize)
  · obtain ⟨⟨newsz, m, pt⟩, -, h⟩ := Except.bind_ok_iff.1 h
    obtain ⟨k₁, hshrink, h⟩ := Except.bind_ok_iff.1 h
    obtain ⟨k₂, hsize, h⟩ := Except.bind_ok_iff.1 h
    cases h
    exact ((keepsTables_setTable k m p pt).trans (shrinkOthers_keepsTables hshrink)).trans
      (setSize_keepsTables hsize)

theorem sbrk_keepsTables {n v : Int} (h : k.sbrk p n = .ok (v, k')) : k.KeepsTables k' := by
  unfold sbrk at h
  obtain ⟨⟨s, k₁⟩, hgrow, h⟩ := Except.bind_ok_iff.1 h
  have hk₁ := growproc_keepsTables hgrow
  dsimp only at h
  split at h <;> (cases h; exact hk₁)

theorem exec_keepsTables {path : String} {file : Option Image} {argv : List (List UInt8)} {v : Int}
    (h : k.exec p path file argv = .ok (v, k')) : k.KeepsTables k' := by
  have hbad : ∀ {m : Mem} {pt : PageTable} {sz : Nat}, k.execBad m pt sz = .ok (v, k') → k.KeepsTables k' := by
    intro m pt sz hb
    obtain ⟨m', -, hb⟩ := Except.bind_ok_iff.1 hb
    cases hb
    exact .refl k
  simp only [exec] at h
  split at h
  · cases h
    exact .refl k
  split at h
  · cases h
    exact .refl k
  split at h
  · obtain ⟨⟨pt, m⟩, -, h⟩ := Except.bind_ok_iff.1 h
    split at h
    · cases h
      exact .refl k
    obtain ⟨⟨loaded, sz, m₁, pt₁⟩, -, h⟩ := Except.bind_ok_iff.1 h
    dsimp only at h
    split at h
    · exact hbad h
    obtain ⟨⟨sp, sz₁, m₂, pt₂⟩, -, h⟩ := Except.bind_ok_iff.1 h
    split at h
    · exact hbad h
    · obtain ⟨m₃, -, h⟩ := Except.bind_ok_iff.1 h
      cases h
      exact keepsTables_modify (k := { k with mem := m₃ }) fun _ => ⟨Option.some_ne_none _, Option.some_ne_none _⟩
  · cases h

/-! ## Equipment -/

/-- A slot that had a table if it could run is still like that. -/
def Outfits (k k' : Kernel) : Prop := ∀ q, (k.proc q).Equipped → (k'.proc q).Equipped

theorem Outfits.refl (k : Kernel) : k.Outfits k := fun _ h => h

theorem Outfits.trans (h : k.Outfits k') (h' : k'.Outfits k'') : k.Outfits k'' := fun q hq => h' q (h q hq)

/-- Phases and tables are kept. -/
theorem outfits_of_entries (he : k'.entries = k.entries) (ht : k.KeepsTables k') : k.Outfits k' := by
  intro q hq hact
  have hphase : (k'.proc q).state.phase = (k.proc q).state.phase := congrArg Entry.phase (congrFun he q)
  exact ht q (hq (hphase ▸ hact))

theorem keepsTables_of_rooms (h : k'.rooms = k.rooms) : k.KeepsTables k' := by
  intro q hq
  have htable : (k'.proc q).pagetable = (k.proc q).pagetable := congrArg Room.table (congrFun h q)
  have hframe : (k'.proc q).trapframe.map Trapframe.page = (k.proc q).trapframe.map Trapframe.page :=
    congrArg Room.frame (congrFun h q)
  refine ⟨by rw [htable]; exact hq.1, fun hnone => hq.2 ?_⟩
  rw [hnone] at hframe
  exact Option.map_eq_none_iff.1 hframe.symm

theorem outfits_modify {f : Proc → Proc} (h : (k.proc p).Equipped → (f (k.proc p)).Equipped) :
    k.Outfits (k.modify p f) := by
  intro q hq
  rw [modify_proc]
  split
  · rename_i heq
    subst heq
    exact h hq
  · exact hq

theorem outfits_update {f : Slot → Proc} {pr : Proc} (h : (f p).Equipped → pr.Equipped) (q : Slot)
    (hq : (f q).Equipped) : (Function.update f p pr q).Equipped := by
  by_cases hqp : q = p
  · subst hqp
    rw [Function.update_self]
    exact h hq
  · rwa [Function.update_of_ne hqp]

theorem Wakes.outfits (h : k.Wakes k') : k.Outfits k' := by
  intro q hq
  rcases h.slot q with heq | ⟨hs, heq⟩
  · rwa [heq]
  · rw [heq]
    exact fun _ => hq (by rw [hs]; rfl)

theorem freeSelf_outfits (h : k.freeSelf p = .ok k') : k.Outfits k' := by
  obtain ⟨m, -, rfl⟩ := freeSelf_ok h
  exact outfits_update fun _ => nofun

theorem freeMembers_outfits {n : Nat} {o : Option Slot} (h : freeMembers p n o k = .ok k') : k.Outfits k' := by
  induction n generalizing o k with
  | zero => cases h
  | succ n ih =>
    cases o with
    | none => cases h
    | some q =>
      rw [freeMembers] at h
      split at h
      · cases h
        exact .refl _
      · obtain ⟨k₁, hfree, h⟩ := Except.bind_ok_iff.1 h
        refine Outfits.trans ?_ (ih h)
        obtain ⟨m, m', -, -, rfl⟩ := freeMember_ok hfree
        exact outfits_update fun _ hact => by cases hact

theorem dropRef_outfits (k : Kernel) (L : Slot) : k.Outfits (k.dropRef L) := by
  refine outfits_modify fun h => ?_
  split
  · exact h
  · exact h

theorem freeproc_outfits (h : k.freeproc p = .ok k') : k.Outfits k' := by
  unfold freeproc at h
  split at h
  · exact freeSelf_outfits h
  · rename_i L _
    have hd := dropRef_outfits k L
    dsimp only at h
    split at h
    · cases h
    split at h
    · cases h
      exact hd.trans (outfits_modify fun _ => nofun)
    · obtain ⟨k₁, hmembers, h⟩ := Except.bind_ok_iff.1 h
      exact (hd.trans (freeMembers_outfits hmembers)).trans (freeSelf_outfits h)

theorem allocproc_none_outfits (h : k.allocproc = .ok (none, k')) : k.Outfits k' := by
  rcases allocproc_none h with ⟨-, rfl⟩ | ⟨p, m, -, -, rfl⟩
  · exact .refl _
  · exact outfits_update fun _ => nofun

theorem allocproc_some_outfits (h : k.allocproc = .ok (some np, k')) :
    k.Outfits k' ∧ (k'.proc np).Kitted := by
  obtain ⟨-, tf, m, pt, m', -, -, rfl⟩ := allocproc_some h
  exact ⟨outfits_update fun _ => nofun, by simp [Proc.Kitted]⟩

theorem fork_outfits {v : Int} (h : k.fork p = .ok (v, k')) : k.Outfits k' := by
  rcases fork_ok h with halloc | ⟨np, k₁, old, new, m, new', halloc, -, -, hend⟩
  · exact allocproc_none_outfits halloc
  refine (allocproc_some_outfits halloc).1.trans ?_
  rcases hend with ⟨-, hfree⟩ | ⟨-, ntf, regs, ft, ir, files, cwd, name, -, rfl⟩
  · refine Outfits.trans ?_ (freeproc_outfits hfree)
    exact outfits_modify (k := { k₁ with mem := m }) fun h hact => ⟨nofun, (h hact).2⟩
  · exact outfits_update fun _ _ => ⟨nofun, nofun⟩

theorem foundGroup_outfits (k : Kernel) (p : Slot) :
    k.Outfits (k.foundGroup p) ∧ k.KeepsTables (k.foundGroup p) := by
  unfold foundGroup
  split
  · exact ⟨outfits_modify id, keepsTables_modify id⟩
  · exact ⟨.refl k, .refl k⟩

theorem enterGroup_outfits (h : k.enterGroup L np = .ok k') : k.Outfits k' ∧ k.KeepsTables k' := by
  simp only [enterGroup] at h
  split at h
  · cases h
  cases h
  exact ⟨(((outfits_modify id).trans (outfits_modify id)).trans (outfits_modify id)).trans (outfits_modify id),
    (((keepsTables_modify id).trans (keepsTables_modify id)).trans (keepsTables_modify id)).trans
      (keepsTables_modify id)⟩

theorem leaveGroup_outfits (h : k.leaveGroup L np = .ok k') : k.Outfits k' := by
  unfold leaveGroup at h
  split at h
  · cases h
    exact ((outfits_modify id).trans (outfits_modify id)).trans (outfits_modify id)
  · cases h

theorem outfits_setTable (k : Kernel) (m : Mem) (p : Slot) (pt : PageTable) :
    k.Outfits ({ k with mem := m }.setTable p pt) :=
  outfits_modify (k := { k with mem := m }) fun h hact => ⟨nofun, (h hact).2⟩

theorem threadCreate_outfits {start arg : Nat} {v : Int} (h : k.threadCreate p start arg = .ok (v, k')) :
    k.Outfits k' := by
  rcases threadCreate_ok h with halloc | ⟨np, k₁, k₂, pt, npt, c, m, npt', halloc, henter, -, -, -, hend⟩
  · exact allocproc_none_outfits halloc
  obtain ⟨hk₁, hnp⟩ := allocproc_some_outfits halloc
  have hk₂ := (hk₁.trans (foundGroup_outfits k₁ p).1).trans (enterGroup_outfits henter).1
  have hnp₂ := (enterGroup_outfits henter).2 np ((foundGroup_outfits k₁ p).2 np hnp)
  have hset := hk₂.trans (outfits_setTable k₂ m np npt')
  rcases hend with ⟨m', -, hleave⟩ | ⟨stack, m', k₃, -, hloop, hstart⟩
  · exact hset.trans (leaveGroup_outfits (k := { { k₂ with mem := m }.setTable np npt' with mem := m' }) hleave)
  · have htables := ringLoop_keepsTables (fun _ _ _ => mapStack_keepsTables) hloop
    have hk₃ := outfits_of_entries (ringLoop_remaps (fun _ _ _ => mapStack_remaps) hloop).entries htables
    obtain ⟨ntf, regs, ft, ir, files, cwd, -, rfl⟩ := startThread_ok hstart
    have hnp₃ := htables np (keepsTables_setTable k₂ m np npt' np hnp₂)
    exact (hset.trans hk₃).trans (outfits_update fun _ _ => ⟨hnp₃.1, nofun⟩)

theorem kill_outfits (k : Kernel) (pid : Int) : k.Outfits (k.kill pid).2 := by
  unfold kill
  split
  · exact .refl k
  · rename_i p _
    dsimp only
    refine outfits_modify fun h hact => h ?_
    by_cases hs : (k.proc p).state = .sleeping
    · rw [hs]
      rfl
    · rwa [if_neg hs] at hact

theorem threadExitThread_outfits (k : Kernel) (p : Slot) : k.Outfits (k.threadExitThread p) := by
  refine Outfits.trans ?_ (wakes_wakeParent _ _).outfits
  exact (dropRef_outfits k _).trans (outfits_modify fun _ => nofun)

theorem exitProcess_outfits {status : Int} (hp : (k.proc p).state = .running)
    (h : k.exitProcess p status = .ok k') : k.Outfits k' := by
  obtain ⟨hw, -⟩ := exitProcess_ok (by simp [hp]) h
  refine Outfits.trans (fun q hq => ?_) hw.outfits
  simp only [exited]
  split
  · intro hact
    cases hact
  · exact hq

theorem exits_outfits (hp : (k.proc p).state = .running)
    (h : ((k.proc p).isThread = true ∧ k' = k.threadExitThread p) ∨
      ((k.proc p).isThread = false ∧ ∃ status, k.exitProcess p status = .ok k')) : k.Outfits k' := by
  rcases h with ⟨-, rfl⟩ | ⟨-, status, h⟩
  · exact threadExitThread_outfits k p
  · exact exitProcess_outfits hp h

theorem sleep_outfits (hp : (k.proc p).state.phase = .active) (chan : Chan) (at_ : Resume) :
    k.Outfits (k.sleep p chan at_) :=
  outfits_modify fun h _ => h hp

theorem wait_outfits {addr : Nat} (hp : (k.proc p).state.phase = .active) (h : k.wait p addr = .ok (r, k')) :
    k.Outfits k' := by
  rcases wait_ok h with rfl | rfl | ⟨pp, c, m, -, -, -, -, -, rfl | ⟨-, hfree⟩⟩
  · exact .refl _
  · exact sleep_outfits hp _ _
  · exact .refl k
  · exact freeproc_outfits (k := { k with mem := m }) hfree

theorem threadJoin_outfits {tid : Int} (hp : (k.proc p).state.phase = .active)
    (h : k.threadJoin p tid = .ok (r, k')) : k.Outfits k' := by
  rcases threadJoin_ok h with rfl | rfl | ⟨tp, -, hfree⟩
  · exact .refl _
  · exact sleep_outfits hp _ _
  · exact freeproc_outfits hfree

theorem syscall_outfits {c : Call} (hp : (k.proc p).state = .running) (h : k.syscall p c = .ok (r, k')) :
    k.Outfits k' := by
  have hact : (k.proc p).state.phase = .active := by rw [hp]; rfl
  cases c with
  | fork => obtain ⟨v, hv⟩ := returns_ok h; exact fork_outfits hv
  | exec path file argv =>
    obtain ⟨v, hv⟩ := returns_ok h
    exact outfits_of_entries (exec_remaps hv).entries (exec_keepsTables hv)
  | sbrk n =>
    obtain ⟨v, hv⟩ := returns_ok h
    exact outfits_of_entries (sbrk_remaps hv).entries (sbrk_keepsTables hv)
  | threadCreate start arg => obtain ⟨v, hv⟩ := returns_ok h; exact threadCreate_outfits hv
  | threadExit => exact exits_outfits hp (threadExit_cases (noReturn_ok h))
  | threadJoin tid => exact threadJoin_outfits hact h
  | exit status => exact exits_outfits hp (exit_cases (noReturn_ok h))
  | wait addr => exact wait_outfits hact h
  | kill pid =>
    obtain ⟨-, hk'⟩ := Prod.mk.inj (Except.ok.inj h)
    exact hk' ▸ kill_outfits k pid
  | «open» ip device rd wr =>
    obtain ⟨v, hv⟩ := returns_ok h
    exact outfits_of_entries (sysOpen_entries hact hv) (keepsTables_of_rooms (sysOpen_balanced hv).rooms)
  | dup fd =>
    obtain ⟨v, hv⟩ := returns_ok h
    exact outfits_of_entries (sysDup_entries hact hv) (keepsTables_of_rooms (sysDup_balanced hv).rooms)
  | close fd =>
    obtain ⟨v, hv⟩ := returns_ok h
    exact outfits_of_entries (sysClose_entries hact hv) (keepsTables_of_rooms (sysClose_balanced hv).rooms)
  | pipe fdarray =>
    obtain ⟨v, hv⟩ := returns_ok h
    exact outfits_of_entries (sysPipe_entries hact hv) (keepsTables_of_rooms (sysPipe_balanced hv).rooms)
  | chdir ip =>
    obtain ⟨v, hv⟩ := returns_ok h
    exact outfits_of_entries (sysChdir_entries hact hv) (keepsTables_of_rooms (sysChdir_balanced hv).rooms)

theorem step_outfits (hen : k.enabled e = true) (h : k.step e = .ok (r, k')) : k.Outfits k' := by
  cases e with
  | schedule p =>
    have hp : (k.proc p).state = .runnable := of_decide_eq_true hen
    have hswitch : k.Outfits (k.modify p fun pr => { pr with state := .running, chan := none, resume := .user }) :=
      outfits_modify fun h _ => h (by rw [hp]; rfl)
    have hact : ((k.modify p fun pr =>
        { pr with state := .running, chan := none, resume := .user }).proc p).state.phase = .active := by
      rw [modify_proc_same]
      rfl
    unfold step resume at h
    dsimp only at h
    split at h
    · cases h
      exact hswitch
    · cases h
      exact hswitch
    · exact hswitch.trans (wait_outfits hact h)
    · exact hswitch.trans (threadJoin_outfits hact h)
  | yield p =>
    have hp : (k.proc p).state = .running := of_decide_eq_true hen
    cases h
    exact outfits_modify fun h _ => h (by rw [hp]; rfl)
  | call p c => exact syscall_outfits (of_decide_eq_true hen).1 h
  | block p n =>
    have hp : (k.proc p).state = .running := of_decide_eq_true hen
    cases h
    exact sleep_outfits (by rw [hp]; rfl) _ _
  | unblock n =>
    cases h
    exact (wakes_wakeup k none _).outfits
  | fault p =>
    cases h
    exact outfits_modify id
  | die p => exact exits_outfits (of_decide_eq_true hen).1 (exit_cases (noReturn_ok h))

end Kernel

/-- In every state of every run each process that can run has a page table and a
trapframe. -/
theorem equipped_of_reachable (h : Reachable b k) (q : Slot) : (k.proc q).Equipped := by
  revert q
  refine Lts.Reaches.invariant (P := fun k => ∀ q, (k.proc q).Equipped) ?_ ?_ h
  · intro k hk q
    obtain ⟨p, k₁, pt, tf, f, m, b', m', pt', halloc, -, -, -, -, ir, regs, rfl⟩ := Kernel.userinit_ok hk
    have hzero : (b.procinit.proc q).Equipped := fun hact => by cases hact
    exact Kernel.outfits_update (fun _ _ => ⟨by simp, by simp⟩) q ((Kernel.allocproc_some_outfits halloc).1 q hzero)
  · rintro k e k' hk - ⟨hen, r, hstep⟩ q
    exact Kernel.step_outfits hen hstep q (hk q)

/-! ## Links -/

/-- A slot that names no leader has no link. -/
def Entries.Unlinked (E : Entries) : Prop := ∀ q, (E q).groupLeader = none → (E q).groupNext = none

theorem Entries.Unlinked.update (h : E.Unlinked) {x : Entry} (hx : x.groupLeader = none → x.groupNext = none) :
    Entries.Unlinked (Function.update E q x) := by
  intro y hy
  by_cases hyq : y = q
  · subst hyq
    rw [Function.update_self] at hy ⊢
    exact hx hy
  · rw [Function.update_of_ne hyq] at hy ⊢
    exact h y hy

theorem Entries.Unlinked.dropRef (h : E.Unlinked) (L : Slot) :
    Entries.Unlinked (Function.update E L (E L).dropRef) := by
  refine h.update fun hx => ?_
  rw [(E L).dropRef_sameGroup.next]
  rw [(E L).dropRef_sameGroup.leader] at hx
  exact h L hx

theorem Entries.Unlinked.found (h : E.Unlinked) (p : Slot) : (E.found p).Unlinked := by
  unfold Entries.found
  split
  · exact h.update nofun
  · exact h

/-- Every move keeps it. -/
theorem Move.unlinked (hm : Move k e E') (h : k.entries.Unlinked) : E'.Unlinked := by
  cases hm with
  | quiet => exact h
  | strike _ q hq => exact h.update (h q)
  | allocFail p np c hfind => exact h.update fun _ => rfl
  | fork p np hp hfind => exact h.update fun _ => rfl
  | create p np L start arg ms x hp hfind hL hg hx =>
    intro q hq
    have hlead : (k.entries.found p L).groupLeader = some L := hg.leader.1
    simp only [Entries.linkIn] at hq ⊢
    split at hq
    · subst hx
      cases hq
    · rename_i hqnp
      by_cases hqL : q = L
      · subst hqL
        rw [hlead] at hq
        cases hq
      · rw [if_neg hqnp, if_neg hqL]
        exact h.found p q hq
  | createBad p np L start arg x hp hfind hL hx =>
    refine (h.found p).update fun hx' => ?_
    subst hx
    cases hx'
  | threadExit _ p L he hp ht hL hne =>
    refine (h.dropRef L).update fun hx => ?_
    exact h p hx
  | processExit _ p he hp ht => exact fun q hq => h q hq
  | reapThread _ q L hr hz hL hne =>
    refine (h.dropRef L).update fun hx => ?_
    exact h q hx
  | reapProcess _ q hr hz hL => exact h.update fun _ => rfl
  | reapGroup _ L ms chan files hr hz hg href =>
    intro q hq
    simp only [Entries.disband] at hq ⊢
    split
    · rfl
    · split
      · rfl
      · rename_i hqL hqms
        rw [if_neg hqL, if_neg hqms] at hq
        exact h q hq

theorem unlinked_of_reachable (h : Reachable b k) : k.entries.Unlinked := by
  refine (Lts.Reaches.invariant (P := fun k => k.entries.WellGrouped ∧ k.entries.Unlinked) ?_ ?_ h).2
  · intro k hk
    refine ⟨Boot.main_wellGrouped hk, fun q _ => ?_⟩
    obtain ⟨p, hne, -, hp⟩ := Boot.main_entries hk
    by_cases hqp : q = p
    · subst hqp; simp [hp, Proc.zero, Proc.entry]
    · simp [Kernel.entries, hne q hqp, Proc.zero, Proc.entry]
  · rintro k e k' ⟨hE, hu⟩ - ⟨hen, r, hstep⟩
    have hm := Kernel.step_move hE hen hstep
    exact ⟨hm.wellGrouped hE, hm.unlinked hu⟩

end Xv6
