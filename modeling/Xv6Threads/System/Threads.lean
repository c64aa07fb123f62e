-- SUMMARY: thread_create with memory at hand: when it builds the thread it promises.
import Xv6Threads.Process.Handles
import Xv6Threads.System.Joins
import Xv6Threads.System.Spawning

/-!
# What thread_create builds

With a slot and enough pages, `thread_create` can still go wrong: the stack is
mapped at the size of the caller, which has to be page aligned; every member of
the ring has to have a table, with that page free in it; and the new slot keeps
the descriptors that its last owner left where the caller has none.
-/

namespace Xv6

open PageTable

namespace Kernel

variable {k k' k'' : Kernel} {p q np L next : Slot} {l : List Slot} {v curr start arg : Nat} {b : Boot}

/-! ## Links and counters -/

/-- No slot changes but in its thread id, its links and its counters. -/
def OnlyGroup (k k' : Kernel) : Prop :=
  ∀ q, k'.proc q =
    { k.proc q with
      tid := (k'.proc q).tid
      groupLeader := (k'.proc q).groupLeader
      groupNext := (k'.proc q).groupNext
      groupPrev := (k'.proc q).groupPrev
      numChildren := (k'.proc q).numChildren
      refCount := (k'.proc q).refCount }

theorem OnlyGroup.refl (k : Kernel) : k.OnlyGroup k := fun _ => rfl

theorem OnlyGroup.trans (h : k.OnlyGroup k') (h' : k'.OnlyGroup k'') : k.OnlyGroup k'' := by
  intro q
  rw [h' q, h q]

theorem onlyGroup_modify {f : Proc → Proc}
    (hf : ∀ pr, f pr =
      { pr with
        tid := (f pr).tid
        groupLeader := (f pr).groupLeader
        groupNext := (f pr).groupNext
        groupPrev := (f pr).groupPrev
        numChildren := (f pr).numChildren
        refCount := (f pr).refCount }) : k.OnlyGroup (k.modify p f) := by
  intro q
  rw [modify_proc]
  split
  · exact hf _
  · rfl

theorem foundGroup_onlyGroup (k : Kernel) (p : Slot) : k.OnlyGroup (k.foundGroup p) := by
  unfold foundGroup
  split
  · exact onlyGroup_modify fun _ => rfl
  · exact .refl k

theorem enterGroup_onlyGroup (h : k.enterGroup L np = .ok k') : k.OnlyGroup k' := by
  simp only [enterGroup] at h
  split at h
  · cases h
  · cases h
    refine (((onlyGroup_modify fun _ => rfl).trans (onlyGroup_modify fun _ => rfl)).trans
      (onlyGroup_modify fun _ => rfl)).trans (onlyGroup_modify fun _ => rfl)

/-- A slot whose entry is as before is as before. -/
theorem OnlyGroup.proc_eq (h : k.OnlyGroup k') (he : k'.entries q = k.entries q) : k'.proc q = k.proc q := by
  have htid : (k'.proc q).tid = (k.proc q).tid := congrArg Entry.tid he
  have hleader : (k'.proc q).groupLeader = (k.proc q).groupLeader := congrArg Entry.groupLeader he
  have hnext : (k'.proc q).groupNext = (k.proc q).groupNext := congrArg Entry.groupNext he
  have hprev : (k'.proc q).groupPrev = (k.proc q).groupPrev := congrArg Entry.groupPrev he
  have hchildren : (k'.proc q).numChildren = (k.proc q).numChildren := congrArg Entry.numChildren he
  have hrefs : (k'.proc q).refCount = (k.proc q).refCount := congrArg Entry.refCount he
  rw [h q, htid, hleader, hnext, hprev, hchildren, hrefs]

theorem OnlyGroup.room (h : k.OnlyGroup k') (q : Slot) : (k'.proc q).room = (k.proc q).room := by
  rw [h q]
  rfl

theorem OnlyGroup.trapframe (h : k.OnlyGroup k') (q : Slot) : (k'.proc q).trapframe = (k.proc q).trapframe := by
  rw [h q]

theorem enterGroup_total (hne : np ≠ L) (hnext : (k.proc L).groupNext = some next) :
    ∃ k', k.enterGroup L np = .ok k' := by
  have hnx : ((k.modify L fun pr =>
      { pr with numChildren := pr.numChildren + 1, refCount := pr.refCount + 1 }).proc L).groupNext = some next := by
    rw [modify_proc_same]
    exact hnext
  unfold enterGroup
  dsimp only
  rw [modify_proc_ne hne.symm, hnx]
  exact ⟨_, rfl⟩

/-! ## Files -/

/-- Every open file of `p` has a reference. -/
def Dupable (k : Kernel) (p : Slot) : Prop := ∀ i f, (k.proc p).ofile i = some f → 1 ≤ (k.ftable f).ref

/-- The descriptors of `np` once those of `p` were copied into it. -/
def merged (k : Kernel) (p np : Slot) : Fin nofile → Option FileIx := fun i =>
  ((k.proc p).ofile i).or ((k.proc np).ofile i)

/-- One descriptor: the file has a reference, and gets one more. -/
theorem dupFd_ok {i : Fin nofile} (hne : p ≠ np) (h : dupFd p np k i = .ok k') :
    (∀ f, (k.proc p).ofile i = some f → 1 ≤ (k.ftable f).ref) ∧ (k'.proc p).ofile = (k.proc p).ofile ∧
      (∀ f, (k.ftable f).ref ≤ (k'.ftable f).ref ∧ (1 ≤ (k'.ftable f).ref → 1 ≤ (k.ftable f).ref)) ∧
      ∀ j, (k'.proc np).ofile j = if j = i then k.merged p np j else (k.proc np).ofile j := by
  unfold dupFd at h
  split at h
  · rename_i hnone
    cases h
    refine ⟨fun f hf => ?_, rfl, fun f => ⟨Int.le_refl _, id⟩, fun j => ?_⟩
    · rw [hnone] at hf
      cases hf
    · split
      · rename_i hj
        rw [hj, merged, hnone]
        rfl
      · rfl
  · rename_i f hf
    obtain ⟨k₁, hdup, h⟩ := Except.bind_ok_iff.1 h
    cases h
    unfold filedup at hdup
    split at hdup
    · cases hdup
    rename_i href
    cases hdup
    refine ⟨fun g hg => ?_, ?_, fun g => ?_, fun j => ?_⟩
    · rw [hf] at hg
      cases hg
      omega
    · rw [modify_proc_ne hne]
      rfl
    · by_cases hg : g = f
      · subst hg
        simp only [modify_ftable, modifyFile, if_true]
        omega
      · simp only [modify_ftable, modifyFile, hg, if_false]
        exact ⟨Int.le_refl _, id⟩
    · rw [modify_proc_same]
      dsimp only
      split
      · rename_i hj
        rw [hj, merged, hf]
        rfl
      · rfl

theorem dupFd_total {i : Fin nofile} (np : Slot) (h : ∀ f, (k.proc p).ofile i = some f → 1 ≤ (k.ftable f).ref) :
    ∃ k', dupFd p np k i = .ok k' := by
  unfold dupFd
  cases hf : (k.proc p).ofile i with
  | none => exact ⟨k, rfl⟩
  | some f =>
    have hdup : k.filedup f = .ok _ := if_neg (by have := h f hf; omega)
    exact ⟨_, Except.bind_ok_iff.2 ⟨_, hdup, rfl⟩⟩

theorem dupFds_total {is : List (Fin nofile)} (hne : p ≠ np)
    (h : ∀ i ∈ is, ∀ f, (k.proc p).ofile i = some f → 1 ≤ (k.ftable f).ref) :
    ∃ k', is.foldlM (dupFd p np) k = .ok k' := by
  induction is generalizing k with
  | nil => exact ⟨k, rfl⟩
  | cons i is ih =>
    obtain ⟨k₁, hone⟩ := dupFd_total np (h i (by simp))
    obtain ⟨-, hfiles, hrefs, -⟩ := dupFd_ok hne hone
    obtain ⟨k', hrest⟩ := ih (k := k₁) fun j hj f hf => by
      rw [hfiles] at hf
      exact (h j (List.mem_cons_of_mem _ hj) f hf).trans (hrefs f).1
    exact ⟨k', by rw [List.foldlM_cons]; exact Except.bind_ok_iff.2 ⟨k₁, hone, hrest⟩⟩

theorem dupFds_ok {is : List (Fin nofile)} (hne : p ≠ np) (h : is.foldlM (dupFd p np) k = .ok k') :
    (∀ i ∈ is, ∀ f, (k.proc p).ofile i = some f → 1 ≤ (k.ftable f).ref) ∧
      (k'.proc p).ofile = (k.proc p).ofile ∧
      ∀ j, (k'.proc np).ofile j = if j ∈ is then k.merged p np j else (k.proc np).ofile j := by
  induction is generalizing k with
  | nil =>
    cases h
    exact ⟨by simp, rfl, by simp⟩
  | cons i is ih =>
    rw [List.foldlM_cons] at h
    obtain ⟨k₁, hone, hrest⟩ := Except.bind_ok_iff.1 h
    obtain ⟨href, hfiles, hrefs, hnp⟩ := dupFd_ok hne hone
    obtain ⟨hrestrefs, hrestfiles, hrestnp⟩ := ih hrest
    refine ⟨fun j hj f hf => ?_, hrestfiles.trans hfiles, fun j => ?_⟩
    · rcases List.mem_cons.1 hj with rfl | hj
      · exact href f hf
      · exact (hrefs f).2 (hrestrefs j hj f (by rw [hfiles]; exact hf))
    · have hmerged : k₁.merged p np j = k.merged p np j := by
        rw [merged, hfiles, hnp j, merged]
        split
        · cases (k.proc p).ofile j <;> rfl
        · rfl
      rw [hrestnp j, hmerged, hnp j]
      by_cases hj : j ∈ is
      · simp [hj]
      · simp [hj]

theorem dupFiles_total (hne : p ≠ np) (h : k.Dupable p) : ∃ k', k.dupFiles p np = .ok k' :=
  dupFds_total hne fun i _ => h i

theorem dupFiles_merged (hne : p ≠ np) (h : k.dupFiles p np = .ok k') :
    k.Dupable p ∧ (k'.proc np).ofile = k.merged p np := by
  obtain ⟨hrefs, -, hnp⟩ := dupFds_ok hne h
  refine ⟨fun i => hrefs i (List.mem_finRange i), funext fun j => ?_⟩
  rw [hnp j, if_pos (List.mem_finRange j)]

theorem dupCwd_total {ip : InodeIx} (np : Slot) (h : (k.proc p).cwd = some ip) : ∃ k', k.dupCwd p np = .ok k' := by
  unfold dupCwd
  rw [h]
  exact ⟨_, rfl⟩

/-- The registers of a thread that starts at `start`, with its stack in the page at `curr`. -/
def threadRegs (regs : Regs) (curr start arg : Nat) : Regs :=
  { regs with epc := start, sp := curr + pgSize - 8, a0 := arg, ra := 0 }

/-- What the new thread gets from the slot of its creator. -/
structure Inherited (k : Kernel) (p np : Slot) (curr start arg : Nat) (k' : Kernel) : Prop where
  state : (k'.proc np).state = .runnable
  regs : ∃ tf ntf, (k.proc p).trapframe = some tf ∧ (k'.proc np).trapframe = some ntf ∧
    ntf.regs = threadRegs tf.regs curr start arg
  dupable : k.Dupable p
  ofile : (k'.proc np).ofile = k.merged p np
  cwd : ∃ ip, (k.proc p).cwd = some ip ∧ (k'.proc np).cwd = some ip

theorem startThread_inherited (hne : p ≠ np) (h : k.startThread p np curr start arg = .ok k') :
    k.Inherited p np curr start arg k' := by
  unfold startThread at h
  split at h
  · rename_i tf ntf htf hntf
    obtain ⟨k₁, hfiles, h⟩ := Except.bind_ok_iff.1 h
    obtain ⟨k₂, hcwd, h⟩ := Except.bind_ok_iff.1 h
    obtain ⟨hdup, hmerged⟩ := dupFiles_merged hne hfiles
    obtain ⟨ft, files, rfl⟩ := dupFiles_ok hfiles
    obtain ⟨ir, ip, hip, rfl⟩ := dupCwd_ok hcwd
    cases h
    simp only [Function.update_self, Function.update_of_ne hne, modify_proc_same, modify_proc_ne hne] at hip hmerged
    refine ⟨by simp, ⟨tf, { ntf with regs := threadRegs tf.regs curr start arg }, htf, by simp [threadRegs], rfl⟩,
      fun i f hf => ?_, ?_, ⟨ip, hip, by simp⟩⟩
    · exact hdup i f (by rw [modify_proc_ne hne]; exact hf)
    · simp only [modify_proc_same, Function.update_self]
      rw [hmerged]
      funext i
      simp only [merged, modify_proc_ne hne, modify_proc_same]
  · cases h

theorem startThread_total {tf ntf : Trapframe} {ip : InodeIx} (curr start arg : Nat) (hne : p ≠ np) (htf : (k.proc p).trapframe = some tf)
    (hntf : (k.proc np).trapframe = some ntf) (hdup : k.Dupable p) (hcwd : (k.proc p).cwd = some ip) :
    ∃ k', k.startThread p np curr start arg = .ok k' := by
  unfold startThread
  rw [htf, hntf]
  dsimp only
  obtain ⟨k₁, hfiles⟩ := dupFiles_total (k := k.modify np fun pr =>
    { pr with trapframe := some { ntf with regs := threadRegs tf.regs curr start arg } }) hne
    fun i f hf => hdup i f (by rw [modify_proc_ne hne] at hf; exact hf)
  obtain ⟨k₂, hcwd'⟩ := dupCwd_total (k := k₁) (p := p) np (show _ = some ip by
    obtain ⟨ft, files, rfl⟩ := dupFiles_ok hfiles
    dsimp only
    rw [Function.update_of_ne hne, modify_proc_ne hne]
    exact hcwd)
  exact ⟨_, Except.bind_ok_iff.2 ⟨k₁, hfiles, Except.bind_ok_iff.2 ⟨k₂, hcwd', rfl⟩⟩⟩

/-! ## The stack in every member -/

theorem mapStack_onlyMemory {stack : Ppn} (h : mapStack curr stack k q = .ok k') : k.OnlyMemory k' := by
  obtain ⟨⟨b, k₁⟩, hmap, h⟩ := Except.bind_ok_iff.1 h
  cases h
  exact (onlyMemory_modify fun _ => rfl).trans (mapInto_onlyMemory hmap)

theorem mapStacks_onlyMemory {stack : Ppn} (h : l.foldlM (mapStack curr stack) k = .ok k') : k.OnlyMemory k' :=
  Except.foldlM_invariant (P := k.OnlyMemory) (fun _ _ _ _ hk hbody => hk.trans (mapStack_onlyMemory hbody))
    (.refl k) h

theorem mapStack_total (stack : Ppn) {pt : PageTable} (hpt : (k.rooms q).table = some pt) (hleaf : pt.leaf v = none)
    (hva : v * pgSize < maxVa) (hmem : k.tableNeed q {v} ≤ k.mem.freelist.length) :
    ∃ k', mapStack (v * pgSize) stack k q = .ok k' ∧ k'.pte q v = some ⟨stack, permUser⟩ ∧
      k.mem.freelist.length ≤ k'.mem.freelist.length + k.tableNeed q {v} := by
  have hneed : k.tableNeed q {v} = pt.missing {v} := by rw [tableNeed, hpt]; rfl
  rw [hneed] at hmem ⊢
  obtain ⟨m, pt', hmap, htakes⟩ := mappages_total (m := k.mem) stack permUser hva (Finset.mem_singleton_self v) hmem
    hleaf
  have hpt' : ((k.modify q fun pr => { pr with sz := v * pgSize + pgSize }).proc q).pagetable = some pt := by
    rw [modify_proc_same]
    exact hpt
  have hinto : (k.modify q fun pr => { pr with sz := v * pgSize + pgSize }).mapInto q (v * pgSize) stack permUser =
      .ok (true, { k.modify q fun pr => { pr with sz := v * pgSize + pgSize } with mem := m }.setTable q pt') := by
    rw [mapInto, hpt']
    exact Except.bind_ok_iff.2 ⟨_, hmap, rfl⟩
  have hstack : mapStack (v * pgSize) stack k q = .ok _ := Except.bind_ok_iff.2 ⟨_, hinto, rfl⟩
  refine ⟨_, hstack, mapStack_maps hpt hmap hstack, ?_⟩
  have hused := htakes.used
  show k.mem.freelist.length ≤ m.freelist.length + pt.missing {v}
  omega

/-- With its page free in every member and enough memory, the stack is mapped everywhere. -/
theorem mapStacks_total (stack : Ppn) (hnodup : l.Nodup) (hva : v * pgSize < maxVa)
    (hroom : ∀ q ∈ l, ∃ pt, (k.rooms q).table = some pt ∧ pt.leaf v = none)
    (hmem : (l.map fun q => k.tableNeed q {v}).sum ≤ k.mem.freelist.length) :
    ∃ k', l.foldlM (mapStack (v * pgSize) stack) k = .ok k' ∧ ∀ q ∈ l, k'.pte q v = some ⟨stack, permUser⟩ := by
  induction l generalizing k with
  | nil => exact ⟨k, rfl, by simp⟩
  | cons q l ih =>
    obtain ⟨hq, hrestnodup⟩ := List.nodup_cons.1 hnodup
    rw [List.map_cons, List.sum_cons] at hmem
    obtain ⟨pt, hpt, hleaf⟩ := hroom q (by simp)
    obtain ⟨k₁, hone, hmapped, hlen⟩ := mapStack_total stack hpt hleaf hva (by omega)
    have houtside := (mapStack_stacks hone).outside
    have hsame : ∀ x ∈ l, k₁.rooms x = k.rooms x := fun x hx =>
      houtside x (by simpa using fun heq : x = q => hq (heq ▸ hx))
    have hneed : (l.map fun x => k₁.tableNeed x {v}) = l.map fun x => k.tableNeed x {v} :=
      List.map_congr_left fun x hx => by rw [tableNeed, tableNeed, hsame x hx]
    obtain ⟨k', hrest, hall⟩ := ih hrestnodup (fun x hx => by
      rw [hsame x hx]
      exact hroom x (List.mem_cons_of_mem _ hx)) (by rw [hneed]; omega)
    refine ⟨k', by rw [List.foldlM_cons]; exact Except.bind_ok_iff.2 ⟨k₁, hone, hrest⟩, fun x hx => ?_⟩
    rcases List.mem_cons.1 hx with rfl | hx
    · rw [pte, (mapStacks_ok hrestnodup hrest).outside x hq]
      exact hmapped
    · exact hall x hx

/-- The slots that are not in the list keep everything. -/
theorem mapStacks_proc {stack : Ppn} (h : l.foldlM (mapStack curr stack) k = .ok k') (hq : q ∉ l) :
    k'.proc q = k.proc q := by
  refine Except.foldlM_invariant (P := fun k' => k'.proc q = k.proc q) (fun x hx k₁ k₂ hk hbody => ?_) rfl h
  have hne : q ≠ x := fun heq => hq (heq ▸ hx)
  obtain ⟨⟨b, k₃⟩, hmap, hbody⟩ := Except.bind_ok_iff.1 hbody
  cases hbody
  unfold mapInto at hmap
  split at hmap
  · cases hmap
  · obtain ⟨⟨b', m, pt⟩, -, hmap⟩ := Except.bind_ok_iff.1 hmap
    cases hmap
    rw [setTable, modify_proc_ne hne]
    dsimp only
    rw [modify_proc_ne hne, hk]

/-! ## A thread that was started -/

theorem Inherited.congr {k₀ : Kernel} (h : k.Inherited p np curr start arg k')
    (htf : (k.proc p).trapframe = (k₀.proc p).trapframe) (hdesk : k.desk = k₀.desk) :
    k₀.Inherited p np curr start arg k' := by
  have hofile : ∀ q, (k.proc q).ofile = (k₀.proc q).ofile := fun q =>
    funext fun i => congrFun (congrArg Desk.ofile hdesk) (q, i)
  have hcwd : (k.proc p).cwd = (k₀.proc p).cwd := congrFun (congrArg Desk.cwd hdesk) p
  have hftable : k.ftable = k₀.ftable := congrArg Desk.ftable hdesk
  refine ⟨h.state, ?_, fun i f hf => ?_, ?_, ?_⟩
  · rw [← htf]
    exact h.regs
  · rw [← hftable]
    exact h.dupable i f (by rw [hofile]; exact hf)
  · rw [h.ofile]
    funext i
    simp only [merged, hofile]
  · rw [← hcwd]
    exact h.cwd

/-- A call that started a thread in slot `np`. The pages of `p` were shared into
the table `npt`, which became `npt'`, and then, in state `k₁`, the stack was
mapped into the members of the ring. -/
structure Starts (k : Kernel) (p : Slot) (l : List Slot) (np : Slot) (start arg : Nat) (r : Int) (k' : Kernel)
    (pt npt npt' : PageTable) (stack : Ppn) (ring : List Slot) (k₁ : Kernel) : Prop where
  fresh : np ∉ l
  around : ∀ q, q ∈ ring ↔ q ∈ np :: l
  nodup : ring.Nodup
  table : (k.rooms p).table = some pt
  framed : npt.Framed
  hollow : npt.Hollow 0
  shares : ∃ m m', SharesTo pt m npt m' npt' (pagesBelow (k.proc p).sz)
  newcomer : (k₁.rooms np).table = some npt'
  members : ∀ q, q ≠ np → k₁.rooms q = k.rooms q
  mapped : ∃ k₂, ring.foldlM (mapStack (k.proc p).sz stack) k₁ = .ok k₂ ∧ k'.rooms = k₂.rooms
  tid : (k'.proc np).tid = r
  count : r = (k.entries.found p (k.leaderOf p)).numChildren + 1
  inherited : k.Inherited p np (k.proc p).sz start arg k'
  others : ∀ q, q ∉ np :: l → k'.proc q = k.proc q

/-- The state in which the pages are shared: only `np` and links have changed. -/
structure Entered (k : Kernel) (p : Slot) (l : List Slot) (np : Slot) (k₂ : Kernel) (npt : PageTable) : Prop where
  table : (k₂.proc np).pagetable = some npt
  framed : npt.Framed
  hollow : npt.Hollow 0
  trapframe : (k₂.proc np).trapframe.isSome
  size : (k₂.proc np).sz = (k.proc np).sz
  rooms : ∀ q, q ≠ np → k₂.rooms q = k.rooms q
  trapframes : ∀ q, q ≠ np → (k₂.proc q).trapframe = (k.proc q).trapframe
  desk : k₂.desk = k.desk
  others : ∀ q, q ∉ np :: l → k₂.proc q = k.proc q

theorem enterGroup_entered {ms : List Slot} {k₁ k₂ : Kernel} (hpl : p ∈ k.leaderOf p :: ms)
    (hg : (k.entries.found p).Group (k.leaderOf p) ms) (halloc : k.allocproc = .ok (some np, k₁))
    (henter : (k₁.foundGroup p).enterGroup (k.leaderOf p) np = .ok k₂)
    (hE₂ : k₂.entries = (k.entries.found p).linkIn (k.leaderOf p) np (k.joined p np)) :
    ∃ npt, k.Entered p (k.leaderOf p :: ms) np k₂ npt := by
  have honly : k₁.OnlyGroup k₂ := (foundGroup_onlyGroup k₁ p).trans (enterGroup_onlyGroup henter)
  have hdesk : k₂.desk = k.desk := by
    rw [enterGroup_desk henter, foundGroup_desk, allocproc_some_desk halloc]
  have hne := (allocproc_some_proc halloc).1
  obtain ⟨-, tf, m, npt, m', -, hpt, hk₁⟩ := allocproc_some halloc
  have hfresh := procPagetable_some hpt
  have hroom := honly.room np
  refine ⟨npt, (congrArg Room.table hroom).trans (by simp [hk₁, Proc.room]), hfresh.framed, hfresh.hollow, ?_,
    (congrArg Room.size hroom).trans (by simp [hk₁, Proc.room, Proc.claim]), fun q hq => ?_, fun q hq => ?_, hdesk,
    fun q hq => ?_⟩
  · rw [honly.trapframe, hk₁]
    simp
  · exact (honly.room q).trans (by rw [hne q hq]; rfl)
  · rw [honly.trapframe, hne q hq]
  · simp only [List.mem_cons, not_or] at hq
    obtain ⟨next, hmem, hnext, -⟩ := hg.next_isSome
    have hqp : q ≠ p := fun heq => (by simp only [List.mem_cons] at hpl; subst heq; tauto)
    have hqnext : ¬ some next = some q := fun heq => by
      obtain rfl := Option.some.inj heq
      simp only [List.mem_cons] at hmem
      tauto
    have hentry : k₂.entries q = k.entries q := by
      rw [hE₂, Entries.linkIn, if_neg hq.1, hnext, if_neg hqnext, if_neg hq.2.1, if_neg hq.2.1, if_neg hq.2.1,
        Entries.found_of_ne hqp]
    have hsame : k₁.entries q = k.entries q := congrArg Proc.entry (hne q hq.1)
    exact (honly.proc_eq (hentry.trans hsame.symm)).trans (hne q hq.1)

/-- The ring of `p` once `np` was linked in. -/
theorem joined_ring {ms : List Slot} (hE : k.entries.WellGrouped) (hp : (k.proc p).state.phase = .active)
    (hg : (k.entries.found p).Group (k.leaderOf p) ms) (hphase : (k.entries np).phase = .unused)
    (hE' : k'.entries = (k.entries.found p).linkIn (k.leaderOf p) np (k.joined p np)) :
    Circular (fun q => (k'.proc q).groupNext) (fun q => (k'.proc q).groupPrev) (k.leaderOf p) (np :: ms) := by
  have hring := ((exists_found_group hE hp).1.linkIn hg ((found_phase _ _ _).trans hphase)
    (e := { k.joined p np with phase := .active, parent := some p, isThread := true }) rfl rfl rfl rfl rfl).2.ring
  have hsame : ∀ q, (k'.proc q).groupNext = (((k.entries.found p).linkIn (k.leaderOf p) np
      { k.joined p np with phase := .active, parent := some p, isThread := true }) q).groupNext ∧
      (k'.proc q).groupPrev = (((k.entries.found p).linkIn (k.leaderOf p) np
      { k.joined p np with phase := .active, parent := some p, isThread := true }) q).groupPrev := by
    intro q
    have hentry := congrFun hE' q
    by_cases hq : q = np
    · rw [Entries.linkIn, if_pos hq] at hentry
      rw [Entries.linkIn, if_pos hq]
      exact ⟨congrArg Entry.groupNext hentry, congrArg Entry.groupPrev hentry⟩
    · rw [Entries.linkIn, if_neg hq] at hentry
      rw [Entries.linkIn, if_neg hq]
      exact ⟨congrArg Entry.groupNext hentry, congrArg Entry.groupPrev hentry⟩
  rwa [funext fun q => (hsame q).1, funext fun q => (hsame q).2]

theorem startThread_proc (h : k.startThread p np curr start arg = .ok k') (hq : q ≠ np) : k'.proc q = k.proc q := by
  obtain ⟨ntf, regs, ft, ir, files, cwd, -, rfl⟩ := startThread_ok h
  exact Function.update_of_ne hq _ _

theorem threadCreate_starts {r : Int} (hE : k.entries.WellGrouped) (hp : (k.proc p).state.phase = .active)
    (ht : k.Team p l) (hfind : k.findUnused = some np) (h : k.threadCreate p start arg = .ok (r, k'))
    (hrun : (k'.proc np).state = .runnable) :
    ∃ pt npt npt' stack ring k₁, k.Starts p l np start arg r k' pt npt npt' stack ring k₁ := by
  have hact : (k'.entries np).phase = .active := congrArg ProcState.phase hrun
  have htid := threadCreate_result hE hp h hfind hact
  rcases threadCreate_cases hE hp h with
    hnone | ⟨np', ms, k₁, k₂, pt, npt₀, b, m, npt', halloc, hpnp, hg, henter, hE₂, hpt, hnpt, hshare, hend⟩
  · rw [(allocproc_none_undone hfind hnone).slot] at hrun
    cases hrun
  obtain rfl : np' = np := Option.some.inj ((allocproc_some halloc).1.symm.trans hfind)
  have hpl := ht.mem hp
  obtain rfl := ht.eq_found hg
  obtain ⟨npt, hent⟩ := enterGroup_entered hpl hg halloc henter hE₂
  obtain rfl : npt = npt₀ := Option.some.inj (hent.table.symm.trans hnpt)
  have hphase : (k.entries np').phase = .unused := congrArg ProcState.phase (findUnused_unused hfind)
  have hfresh : np' ∉ k.leaderOf p :: ms := fun hmem =>
    ((hg.mem_iff np').1 hmem).2.1 ((found_phase _ _ _).trans hphase)
  have hsz : (k₂.proc p).sz = (k.proc p).sz := congrArg Room.size (hent.rooms p hpnp)
  rw [hsz] at hshare hend
  rcases hend with ⟨m', -, -, hE'⟩ | ⟨stack, m', k₃, hk, hloop, hE₃, hstart, hE'⟩
  · rw [hE', Function.update_self] at hact
    cases hact
  generalize hk₄ : ({ { k₂ with mem := m }.setTable np' npt' with mem := m'.memset stack 0 } : Kernel) = k₄ at hloop
  have hproc₄ : ∀ q, q ≠ np' → k₄.proc q = k₂.proc q := fun q hq => by
    rw [← hk₄]
    show ({ k₂ with mem := m }.setTable np' npt').proc q = _
    rw [setTable, modify_proc_ne hq]
  have hrooms₄ : k₄.rooms = Function.update k₂.rooms np' { k₂.rooms np' with table := some npt' } := by
    rw [← hk₄]
    exact (rooms_of_proc rfl).trans (setTable_rooms k₂ m np' npt')
  have hdesk₄ : k₄.desk = k₂.desk := by
    rw [← hk₄]
    exact (remaps_setTable k₂ m np' npt').desk
  have hE₄ : k₄.entries = k₂.entries := by
    rw [← hk₄]
    exact (entries_setTable { k₂ with mem := m } np' npt').trans rfl
  -- the loop runs around the ring with the new thread in it
  have hring := joined_ring hE hp hg hphase (hE₄.trans hE₂)
  have hfold := ringLoop_foldlM (fun k₅ q k₆ hn hbody x =>
    (congrArg Entry.groupNext (congrFun (mapStack_remaps hbody).entries x)).trans (hn x))
    hring.follows hring.head_notMem (fun _ => rfl) hloop
  have hshared : SharesTo pt k₂.mem npt m npt' (pagesBelow (k.proc p).sz) := by
    obtain ⟨hi, hs, ⟨-, rfl⟩ | ⟨-, -, hnil⟩⟩ := uvmshare_ok hshare
    · exact hs
    · rw [(Mem.kalloc_some hk).1] at hnil
      cases hnil
  have hmem : ∀ q, q ∈ k.leaderOf p :: np' :: ms ↔ q ∈ np' :: k.leaderOf p :: ms := by
    intro q
    simp only [List.mem_cons]
    tauto
  have honly := mapStacks_onlyMemory hfold
  have hinherited := startThread_inherited hpnp hstart
  refine ⟨pt, npt, npt', stack, k.leaderOf p :: np' :: ms, k₄, hfresh, hmem, hring.nodup, ?_, hent.framed,
    hent.hollow, ⟨_, _, hshared⟩, ?_, fun q hq => ?_, ⟨k₃, hfold, (startThread_balanced hstart).rooms⟩, htid.symm, ?_, ?_,
    fun q hq => ?_⟩
  · rw [← hent.rooms p hpnp]
    exact hpt
  · rw [hrooms₄, Function.update_self]
  · rw [hrooms₄, Function.update_of_ne hq, hent.rooms q hq]
  · rw [htid, hE', Entries.linkIn, if_pos rfl]
    rfl
  · refine hinherited.congr ?_ ?_
    · rw [honly p, hproc₄ p hpnp, hent.trapframes p hpnp]
    · rw [(ringLoop_remaps (fun _ _ _ => mapStack_remaps) hloop).desk, hdesk₄, hent.desk]
  · have hq' : q ≠ np' ∧ q ∉ k.leaderOf p :: np' :: ms := ⟨fun heq => hq (by simp [heq]), fun h => hq ((hmem q).1 h)⟩
    rw [startThread_proc hstart hq'.1, mapStacks_proc hfold hq'.2, hproc₄ q hq'.1, hent.others q hq]

/-! ## With enough memory -/

/-- What `thread_create` by `p`, with team `l`, asks of the state, apart from
memory and a slot `np`. -/
structure CanSpawn (k : Kernel) (p : Slot) (l : List Slot) (np : Slot) : Prop where
  aligned : (k.proc p).sz % pgSize = 0
  fits : (k.proc p).sz < trapframeVa
  vacant : ∀ q ∈ l, ∃ pt, (k.proc q).pagetable = some pt ∧ pt.leaf ((k.proc p).sz / pgSize) = none
  trapframe : (k.proc p).trapframe ≠ none
  dupable : k.Dupable p
  bare : ∀ i, (k.proc p).ofile i = none → (k.proc np).ofile i = none
  cwd : (k.proc p).cwd ≠ none

theorem stackPages_aligned (v : Nat) : stackPages (v * pgSize) = {v} := by
  have hlast : pagesBelow (v * pgSize + pgSize) = v + 1 := by
    simp only [pagesBelow, pgSize]
    omega
  rw [stackPages, hlast, Nat.mul_div_cancel v (by decide), Nat.Ico_succ_singleton]

theorem sum_tableNeed {S : Finset Nat} (hnodup : l.Nodup) (hnp : np ∉ l) :
    (l.map fun q => k.tableNeed q S).sum = k.othersNeed np l S := by
  rw [← List.sum_toFinset _ hnodup, othersNeed, ← Finset.sum_filter]
  refine Finset.sum_congr (Finset.ext fun q => ?_) fun _ _ => rfl
  simp only [List.mem_toFinset, Finset.mem_filter, Finset.mem_univ, true_and]
  exact ⟨fun hq => ⟨hq, fun heq => hnp (heq ▸ hq)⟩, And.left⟩

theorem found_update {E : Entries} {e : Entry} (hp : p ≠ np) (hq : q ≠ np) :
    Entries.found (Function.update E np e) p q = E.found p q := by
  unfold Entries.found
  rw [Function.update_of_ne hp]
  split
  · by_cases hqp : q = p
    · rw [hqp, Function.update_self, Function.update_self]
    · rw [Function.update_of_ne hqp, Function.update_of_ne hqp, Function.update_of_ne hq]
  · rw [Function.update_of_ne hq]

/-- Four pages are enough to get to the point where the pages are shared. -/
structure Enters (k : Kernel) (p : Slot) (l : List Slot) (np : Slot) (k₁ k₂ : Kernel) (npt : PageTable)
    (ms : List Slot) : Prop where
  alloc : k.allocproc = .ok (some np, k₁)
  enter : (k₁.foundGroup p).enterGroup (k₁.leaderOf p) np = .ok k₂
  leader : k₁.leaderOf p = k.leaderOf p
  team : l = k.leaderOf p :: ms
  caller : p ≠ np
  fresh : np ∉ l
  ring : Circular (fun q => (k₂.proc q).groupNext) (fun q => (k₂.proc q).groupPrev) (k.leaderOf p) (np :: ms)
  entered : k.Entered p l np k₂ npt
  shape : SameShape blank npt
  drawn : k₂.mem.freelist <:+ k.mem.freelist
  taken : k₂.mem.freelist.length + 4 = k.mem.freelist.length

theorem threadCreate_enters (hE : k.entries.WellGrouped) (hp : (k.proc p).state.phase = .active) (ht : k.Team p l)
    (hfind : k.findUnused = some np) (hmem : 4 ≤ k.mem.freelist.length) :
    ∃ k₁ k₂ npt ms, k.Enters p l np k₁ k₂ npt ms := by
  obtain ⟨k₁, halloc⟩ := allocproc_total hfind hmem
  obtain ⟨hdraws, hlen, npt₀, hnpt₀, hshape⟩ := allocproc_draws halloc
  have hpl := ht.mem hp
  obtain ⟨hfound, ms, hg⟩ := exists_found_group hE hp
  obtain rfl := ht.eq_found hg
  have hphase : (k.entries np).phase = .unused := congrArg ProcState.phase (findUnused_unused hfind)
  have hfresh : np ∉ k.leaderOf p :: ms := fun hmem =>
    ((hg.mem_iff np).1 hmem).2.1 ((found_phase _ _ _).trans hphase)
  have hpnp : p ≠ np := fun heq => hfresh (heq ▸ hpl)
  have hleader : k₁.leaderOf p = k.leaderOf p := by
    rw [leaderOf, leaderOf, (allocproc_some_proc halloc).1 p hpnp]
  have hL : np ≠ k.leaderOf p := fun heq => hfresh (by simp [← heq])
  obtain ⟨next, -, hnext, -⟩ := hg.next_isSome
  have hnext₁ : ((k₁.foundGroup p).proc (k.leaderOf p)).groupNext = some next := by
    have hentry : (k₁.foundGroup p).entries (k.leaderOf p) = k.entries.found p (k.leaderOf p) := by
      rw [entries_foundGroup, allocproc_some_entries halloc, found_update hpnp hL.symm]
    exact (congrArg Entry.groupNext hentry).trans hnext
  obtain ⟨k₂, henter⟩ := enterGroup_total hL hnext₁
  rw [← hleader] at henter
  obtain ⟨-, -, -, ms', -, -, -, hE₂⟩ := enterGroup_joined hE hp halloc henter
  obtain ⟨npt, hent⟩ := enterGroup_entered hpl hg halloc (hleader ▸ henter) hE₂
  have hroom := ((foundGroup_onlyGroup k₁ p).trans (enterGroup_onlyGroup henter)).room np
  obtain rfl : npt = npt₀ := Option.some.inj (hent.table.symm.trans ((congrArg Room.table hroom).trans hnpt₀))
  have hmem₂ : k₂.mem = k₁.mem := by rw [enterGroup_mem henter, foundGroup_mem]
  exact ⟨k₁, k₂, npt, ms, halloc, henter, hleader, rfl, hpnp, hfresh, joined_ring hE hp hg hphase hE₂, hent, hshape,
    hmem₂ ▸ hdraws.freelist, hmem₂ ▸ hlen⟩

/-- The parts of a call that starts a thread. -/
theorem threadCreate_of_parts {k₁ k₂ k₃ : Kernel} {pt npt npt' : PageTable} {m m' : Mem} {c : Bool} {stack : Ppn}
    (halloc : k.allocproc = .ok (some np, k₁)) (henter : (k₁.foundGroup p).enterGroup L np = .ok k₂)
    (hleader : k₁.leaderOf p = L) (hpt : (k₂.proc p).pagetable = some pt) (hnpt : (k₂.proc np).pagetable = some npt)
    (hshare : uvmshare k₂.mem pt npt (k₂.proc p).sz = .ok (c, m, npt')) (hk : m.kalloc = (some stack, m'))
    (hloop : ringLoop L (mapStack (k₂.proc p).sz stack) nproc L
      { { k₂ with mem := m }.setTable np npt' with mem := m'.memset stack 0 } = .ok k₃)
    (hstart : k₃.startThread p np (k₂.proc p).sz start arg = .ok k') :
    k.threadCreate p start arg = .ok ((k'.proc np).tid, k') := by
  subst hleader
  unfold threadCreate
  refine Except.bind_ok_iff.2 ⟨_, halloc, Except.bind_ok_iff.2 ⟨k₂, henter, ?_⟩⟩
  rw [hpt, hnpt]
  refine Except.bind_ok_iff.2 ⟨_, hshare, ?_⟩
  dsimp only [setTable, modify_mem] at hloop ⊢
  rw [hk]
  exact Except.bind_ok_iff.2 ⟨k₃, hloop, Except.bind_ok_iff.2 ⟨k', hstart, rfl⟩⟩

section

variable {k₁ k₂ k₃ k₄ : Kernel} {npt npt' : PageTable} {ms : List Slot}

/-- The pages of the caller are shared, and enough is left for the stack. -/
theorem Enters.shares (he : k.Enters p l np k₁ k₂ npt ms) (hs : k.CanSpawn p l np) (hpl : p ∈ l)
    (hsz : (k.proc p).sz = v * pgSize) (hvuser : v < userPages)
    (hmem : 4 + blank.missing (k.mappedPages p ∪ {v}) ≤ k.mem.freelist.length) :
    ∃ pt m npt', (k₂.proc p).pagetable = some pt ∧ uvmshare k₂.mem pt npt (k₂.proc p).sz = .ok (true, m, npt') ∧
      npt'.leaf v = none ∧ m.freelist <:+ k.mem.freelist ∧
      m.freelist.length + 4 + blank.missing (k.mappedPages p ∪ {v}) =
        k.mem.freelist.length + npt'.missing (k.mappedPages p ∪ {v}) := by
  have hva : ∀ u, u ≤ v → u * pgSize < maxVa := fun u hu => by
    have : userPages * pgSize < maxVa := by decide
    exact (Nat.mul_le_mul_right _ (by omega)).trans_lt this
  have hbelow : pagesBelow (k.proc p).sz = v := by
    rw [hsz]
    simp only [pagesBelow, pgSize]
    omega
  obtain ⟨pt, hpt, -⟩ := hs.vacant p hpl
  have hptroom : (k₂.proc p).pagetable = some pt :=
    (congrArg Room.table (he.entered.rooms p he.caller)).trans hpt
  have hsz₂ : (k₂.proc p).sz = v * pgSize := (congrArg Room.size (he.entered.rooms p he.caller)).trans hsz
  have htaken := he.taken
  obtain ⟨m, npt', hloop, hsuffix, hlen⟩ := uvmshareLoop_total (m := k₂.mem) (v := 0) (n := v)
    (S := k.mappedPages p ∪ {v}) pt npt (fun u _ hu => hva u (by omega))
    (fun u _ hu hne => Finset.mem_union_left _ (by
      rw [mappedPages, Finset.mem_filter, Finset.mem_range, hbelow, pte, show (k.rooms p).table = some pt from hpt]
      exact ⟨by omega, Option.isSome_iff_ne_none.2 hne⟩))
    (fun u _ hu _ => he.entered.hollow u (Nat.zero_le _) (by omega))
    (by
      rw [he.shape.missing]
      omega)
  have hshare : uvmshare k₂.mem pt npt (k₂.proc p).sz = .ok (true, m, npt') := by
    rw [uvmshare, hsz₂, ← hsz, hbelow]
    exact hloop
  refine ⟨pt, m, npt', hptroom, hshare, ?_, hsuffix.trans he.drawn, ?_⟩
  · obtain ⟨hi, hshares, hhi⟩ := uvmshare_ok hshare
    have hhi' : hi ≤ v := by
      rw [hsz₂, ← hsz, hbelow] at hhi
      omega
    rw [hshares.outside v (lt_vpnLimit_of_lt_maxVa (hva v (Nat.le_refl v))) (by omega)]
    exact he.entered.hollow v (Nat.zero_le _) hvuser
  · rw [he.shape.missing] at hlen
    omega

/-- The stack is mapped in the whole ring, the new slot included. -/
theorem Enters.stacks (he : k.Enters p l np k₁ k₂ npt ms) (hs : k.CanSpawn p l np) (hsz : (k.proc p).sz = v * pgSize)
    (hva : v * pgSize < maxVa) (hleaf : npt'.leaf v = none)
    (hrooms : k₄.rooms = Function.update k₂.rooms np { k₂.rooms np with table := some npt' })
    (hentries : k₄.entries = k₂.entries)
    (hneed : npt'.missing {v} + k.othersNeed np l {v} ≤ k₄.mem.freelist.length) (stack : Ppn) :
    ∃ k₃, ringLoop (k.leaderOf p) (mapStack (v * pgSize) stack) nproc (k.leaderOf p) k₄ = .ok k₃ ∧
      (∀ q, (k₃.proc q).trapframe = (k₄.proc q).trapframe) ∧ k₃.desk = k₄.desk ∧
      ∀ q ∈ np :: l, k₃.pte q v = some ⟨stack, permUser⟩ := by
  obtain rfl := he.team
  have hvdiv : (k.proc p).sz / pgSize = v := by rw [hsz, Nat.mul_div_cancel v (by decide)]
  have hnp : (k₄.rooms np).table = some npt' := by rw [hrooms, Function.update_self]
  have hroom : ∀ q, q ≠ np → k₄.rooms q = k.rooms q := fun q hq => by
    rw [hrooms, Function.update_of_ne hq, he.entered.rooms q hq]
  have hring : Circular (fun q => (k₄.proc q).groupNext) (fun q => (k₄.proc q).groupPrev) (k.leaderOf p) (np :: ms) := by
    have hnext : ∀ q, (k₄.proc q).groupNext = (k₂.proc q).groupNext := fun q =>
      congrArg Entry.groupNext (congrFun hentries q)
    have hprev : ∀ q, (k₄.proc q).groupPrev = (k₂.proc q).groupPrev := fun q =>
      congrArg Entry.groupPrev (congrFun hentries q)
    simp only [hnext, hprev]
    exact he.ring
  -- what the members lack
  have hlack : ((k.leaderOf p :: np :: ms).map fun q => k₄.tableNeed q {v}).sum ≤ k₄.mem.freelist.length := by
    have hswap : ((k.leaderOf p :: np :: ms).map fun q => k₄.tableNeed q {v}).sum =
        k₄.tableNeed np {v} + ((k.leaderOf p :: ms).map fun q => k₄.tableNeed q {v}).sum := by
      simp only [List.map_cons, List.sum_cons]
      omega
    have hnodup : (k.leaderOf p :: ms).Nodup := by
      have := he.ring.nodup
      simp only [List.nodup_cons, List.mem_cons, not_or] at this ⊢
      exact ⟨this.1.2, this.2.2⟩
    have hmembers : ((k.leaderOf p :: ms).map fun q => k₄.tableNeed q {v}) =
        (k.leaderOf p :: ms).map fun q => k.tableNeed q {v} :=
      List.map_congr_left fun q hq => by
        rw [tableNeed, tableNeed, hroom q fun heq => he.fresh (heq ▸ hq)]
    have hnew : k₄.tableNeed np {v} = npt'.missing {v} := by
      rw [tableNeed, hnp]
      rfl
    rw [hswap, hmembers, sum_tableNeed hnodup he.fresh, hnew]
    exact hneed
  obtain ⟨k₃, hfold, hall⟩ := mapStacks_total stack he.ring.nodup hva (fun q hq => by
    by_cases hqnp : q = np
    · exact ⟨npt', by rw [hqnp]; exact hnp, hleaf⟩
    · obtain ⟨ptq, hptq, hleafq⟩ := hs.vacant q (by simpa [hqnp] using hq)
      rw [hvdiv] at hleafq
      exact ⟨ptq, by rw [hroom q hqnp]; exact hptq, hleafq⟩) hlack
  have hloop : ringLoop (k.leaderOf p) (mapStack (v * pgSize) stack) nproc (k.leaderOf p) k₄ = .ok k₃ := by
    refine ringLoop_of_foldlM (fun k₅ q k₆ hn hbody x =>
      (congrArg Entry.groupNext (congrFun (mapStack_remaps hbody).entries x)).trans (hn x))
      hring.follows hring.head_notMem (fun _ => rfl) ?_ hfold
    have := he.ring.nodup.length_le_card
    simp only [List.length_cons, Fintype.card_fin] at this ⊢
    omega
  exact ⟨k₃, hloop, fun q => by rw [mapStacks_onlyMemory hfold q], (ringLoop_remaps (fun _ _ _ => mapStack_remaps) hloop).desk,
    fun q hq => hall q (((List.Perm.swap _ _ _).mem_iff).1 hq)⟩

/-- The thread gets registers, descriptors and directory of the caller. -/
theorem Enters.starts (he : k.Enters p l np k₁ k₂ npt ms) (hs : k.CanSpawn p l np)
    (htf : ∀ q, (k₃.proc q).trapframe = (k₂.proc q).trapframe) (hdesk : k₃.desk = k₂.desk) (curr start arg : Nat) :
    ∃ k', k₃.startThread p np curr start arg = .ok k' := by
  have hdesk₃ : k₃.desk = k.desk := hdesk.trans he.entered.desk
  obtain ⟨tf, hptf⟩ := Option.ne_none_iff_exists'.1 hs.trapframe
  obtain ⟨ip, hip⟩ := Option.ne_none_iff_exists'.1 hs.cwd
  obtain ⟨ntf, hntf⟩ : ∃ ntf, (k₃.proc np).trapframe = some ntf := by
    rw [htf np]
    exact Option.isSome_iff_exists.1 he.entered.trapframe
  have hp : (k₃.proc p).trapframe = some tf := by rw [htf p, he.entered.trapframes p he.caller, hptf]
  refine startThread_total curr start arg he.caller hp hntf (fun i f hf => ?_)
    ((congrFun (congrArg Desk.cwd hdesk₃) p).trans hip)
  have hofile : (k₃.proc p).ofile i = (k.proc p).ofile i := congrFun (congrArg Desk.ofile hdesk₃) (p, i)
  have hftable : k₃.ftable = k.ftable := congrArg Desk.ftable hdesk₃
  rw [hftable]
  exact hs.dupable i f (hofile ▸ hf)

end

/-- With enough memory the thread is started, and its stack is mapped everywhere. -/
theorem threadCreate_total (start arg : Nat) (hE : k.entries.WellGrouped) (hp : (k.proc p).state.phase = .active) (ht : k.Team p l)
    (hfind : k.findUnused = some np) (hmem : k.createNeed p np l ≤ k.mem.freelist.length) (hs : k.CanSpawn p l np) :
    ∃ r k' stack, k.threadCreate p start arg = .ok (r, k') ∧ (k'.proc np).state = .runnable ∧
      stack ∈ k.mem.freelist ∧ ∀ q ∈ np :: l, k'.pte q ((k.proc p).sz / pgSize) = some ⟨stack, permUser⟩ := by
  obtain ⟨v, hsz⟩ : ∃ v, (k.proc p).sz = v * pgSize := ⟨_, (Nat.div_mul_cancel (Nat.dvd_of_mod_eq_zero hs.aligned)).symm⟩
  have hvdiv : (k.proc p).sz / pgSize = v := by rw [hsz, Nat.mul_div_cancel v (by decide)]
  have hvuser : v < userPages := by
    have := hs.fits
    rw [hsz, trapframeVa_eq] at this
    exact Nat.lt_of_mul_lt_mul_right this
  have hva : v * pgSize < maxVa := by
    have : userPages * pgSize < maxVa := by decide
    exact (Nat.mul_le_mul_right _ hvuser.le).trans_lt this
  rw [createNeed, hsz, stackPages_aligned] at hmem
  obtain ⟨k₁, k₂, npt, ms, he⟩ := threadCreate_enters hE hp ht hfind (by omega)
  obtain ⟨pt, m, npt', hpt, hshare, hleaf, hsuffix, hlen⟩ := he.shares hs (ht.mem hp) hsz hvuser (by omega)
  have hsz₂ : (k₂.proc p).sz = v * pgSize := (congrArg Room.size (he.entered.rooms p he.caller)).trans hsz
  obtain ⟨stack, m', hk⟩ := Mem.kalloc_of_pos (m := m) (by omega)
  have hfree := (Mem.kalloc_some hk).1
  have hlen' := (Mem.kalloc_draws hk 0).2
  have hstack : stack ∈ k.mem.freelist := hsuffix.subset (by rw [hfree]; exact List.mem_cons_self ..)
  generalize hk₄ : ({ { k₂ with mem := m }.setTable np npt' with mem := m'.memset stack 0 } : Kernel) = k₄
  have hrooms₄ : k₄.rooms = Function.update k₂.rooms np { k₂.rooms np with table := some npt' } := by
    rw [← hk₄]
    exact (rooms_of_proc rfl).trans (setTable_rooms k₂ m np npt')
  have hentries₄ : k₄.entries = k₂.entries := by
    rw [← hk₄]
    exact (entries_setTable { k₂ with mem := m } np npt').trans rfl
  have hdesk₄ : k₄.desk = k₂.desk := by
    rw [← hk₄]
    exact (remaps_setTable k₂ m np npt').desk
  have htf₄ : ∀ q, (k₄.proc q).trapframe = (k₂.proc q).trapframe := by
    intro q
    rw [← hk₄]
    show (({ k₂ with mem := m }.setTable np npt').proc q).trapframe = _
    by_cases hq : q = np
    · rw [hq, setTable, modify_proc_same]
    · rw [setTable, modify_proc_ne hq]
  have hmem₄ : k₄.mem.freelist.length = m'.freelist.length := by
    rw [← hk₄]
    rfl
  have hnew : npt'.missing {v} ≤ npt'.missing (k.mappedPages p ∪ {v}) := missing_mono Finset.subset_union_right npt'
  obtain ⟨k₃, hring, htf₃, hdesk₃, hall⟩ := he.stacks hs hsz hva hleaf hrooms₄ hentries₄ (by omega) stack
  obtain ⟨k', hstart⟩ := he.starts hs (fun q => (htf₃ q).trans (htf₄ q)) (hdesk₃.trans hdesk₄) (v * pgSize) start arg
  refine ⟨(k'.proc np).tid, k', stack, ?_, (startThread_inherited he.caller hstart).state, hstack, fun q hq => ?_⟩
  · rw [← hk₄, ← hsz₂] at hring
    rw [← hsz₂] at hstart
    exact threadCreate_of_parts he.alloc (he.leader ▸ he.enter) he.leader hpt he.entered.table hshare hk hring hstart
  · rw [hvdiv, pte, (startThread_balanced hstart).rooms]
    exact hall q hq

/-! ## The thread -/

/-- The virtual page that holds the initial stack pointer of a thread. -/
def spPage (sz : Nat) : Nat := (sz + pgSize - 8) / pgSize

/-- The call has built the thread `t` in slot `np`: its table maps the pages of
`p` below the old size and one stack page, that page is mapped in every member,
and registers, descriptors and directory are those of `p`. -/
structure Spawned (k : Kernel) (p : Slot) (l : List Slot) (np : Slot) (start arg : Nat) (t : Int) (k' : Kernel) :
    Prop where
  tid : 1 ≤ t ∧ (k'.proc np).tid = t
  state : (k'.proc np).state = .runnable
  stack : spPage (k.proc p).sz < userPages ∧
    ∃ f ∈ k.mem.freelist, ∀ q ∈ np :: l, k'.pte q (spPage (k.proc p).sz) = some ⟨f, permUser⟩
  shared : ∀ v < pagesBelow (k.proc p).sz, k'.pte np v = k.pte p v
  hollow : ∀ v, pagesBelow (k.proc p).sz ≤ v → v < userPages → v ≠ spPage (k.proc p).sz → k'.pte np v = none
  regs : ∃ tf ntf, (k.proc p).trapframe = some tf ∧ (k'.proc np).trapframe = some ntf ∧
    ntf.regs = threadRegs tf.regs (k.proc p).sz start arg
  ofile : (k'.proc np).ofile = (k.proc p).ofile
  cwd : (k'.proc np).cwd = (k.proc p).cwd
  others : ∀ q, q ∉ np :: l → k'.proc q = k.proc q

/-- The pages below the size of the caller, in the table of the new thread
before its stack is mapped. -/
theorem Starts.leaf_shared {r : Int} {pt npt npt' : PageTable} {stack : Ppn} {ring : List Slot} {k₁ : Kernel}
    (h : k.Starts p l np start arg r k' pt npt npt' stack ring k₁) {u : Nat} (hu : u < pagesBelow (k.proc p).sz)
    (huser : u < userPages) : npt'.leaf u = k.pte p u := by
  obtain ⟨m, m', hs⟩ := h.shares
  obtain ⟨-, hnone, hsome⟩ := hs.inside u hu
  rw [pte, h.table]
  show npt'.leaf u = pt.leaf u
  cases he : pt.leaf u with
  | none => rw [hnone he, h.hollow u (Nat.zero_le _) huser]
  | some e => exact (hsome e he).2

theorem Starts.leaf_hollow {r : Int} {pt npt npt' : PageTable} {stack : Ppn} {ring : List Slot} {k₁ : Kernel}
    (h : k.Starts p l np start arg r k' pt npt npt' stack ring k₁) {u : Nat} (hu : pagesBelow (k.proc p).sz ≤ u)
    (huser : u < userPages) : npt'.leaf u = none := by
  obtain ⟨m, m', hs⟩ := h.shares
  have hlim : userPages < vpnLimit := by decide
  rw [hs.outside u (by omega) (by omega)]
  exact h.hollow u (Nat.zero_le _) huser

theorem numChildren_nonneg (hk : Reachable b k) (q : Slot) : 0 ≤ (k.proc q).numChildren := by
  obtain ⟨h, hh⟩ := hk.exists_history Chronicle.start Kernel.record
  exact (threads_of_reaches hh).numbered.counter q

theorem Starts.tid_pos {r : Int} {pt npt npt' : PageTable} {stack : Ppn} {ring : List Slot} {k₁ : Kernel}
    (hk : Reachable b k) (h : k.Starts p l np start arg r k' pt npt npt' stack ring k₁) : 1 ≤ r := by
  have hcount : 0 ≤ (k.entries.found p (k.leaderOf p)).numChildren := by
    unfold Entries.found
    split
    · by_cases hp : k.leaderOf p = p
      · rw [hp, Function.update_self]
      · rw [Function.update_of_ne hp]
        exact numChildren_nonneg hk _
    · exact numChildren_nonneg hk _
  have := h.count
  omega

theorem spPage_aligned (v : Nat) : spPage (v * pgSize) = v := by
  simp only [spPage, pgSize]
  omega

/-- A started thread whose stack was mapped at an aligned address is as it should be. -/
theorem spawned_of_starts {r : Int} {pt npt npt' : PageTable} {stack f : Ppn} {ring : List Slot} {k₁ : Kernel}
    (hk : Reachable b k) (h : k.Starts p l np start arg r k' pt npt npt' stack ring k₁) (hs : k.CanSpawn p l np)
    (hf : f ∈ k.mem.freelist) (hstack : ∀ q ∈ np :: l, k'.pte q ((k.proc p).sz / pgSize) = some ⟨f, permUser⟩) :
    k.Spawned p l np start arg r k' := by
  obtain ⟨v, hsz⟩ : ∃ v, (k.proc p).sz = v * pgSize := ⟨_, (Nat.div_mul_cancel (Nat.dvd_of_mod_eq_zero hs.aligned)).symm⟩
  have hvuser : v < userPages := by
    have := hs.fits
    rw [hsz, trapframeVa_eq] at this
    exact Nat.lt_of_mul_lt_mul_right this
  have hbelow : pagesBelow (k.proc p).sz = v := by
    rw [hsz]
    simp only [pagesBelow, pgSize]
    omega
  have hpage : spPage (k.proc p).sz = v := by rw [hsz, spPage_aligned]
  rw [hsz, Nat.mul_div_cancel v (by decide)] at hstack
  obtain ⟨k₂, hfold, hrooms⟩ := h.mapped
  rw [hsz] at hfold
  obtain ⟨-, -, -, pt₁, pt₂, hpt₁, hpt₂, hadopts, -⟩ := (mapStacks_ok h.nodup hfold).inside np ((h.around np).2 (by simp))
  obtain rfl : pt₁ = npt' := Option.some.inj (hpt₁.symm.trans h.newcomer)
  have hpte : ∀ u, u < userPages → u ≠ v → k'.pte np u = pt₁.leaf u := by
    intro u hu hne
    have hlim : userPages < vpnLimit := by decide
    rw [pte, hrooms, hpt₂]
    rcases hadopts u (by omega) with heq | ⟨hlo, hhi, -⟩
    · exact heq
    · omega
  refine ⟨⟨h.tid_pos hk, h.tid⟩, h.inherited.state, ⟨hpage ▸ hvuser, f, hf, by rw [hpage]; exact hstack⟩,
    fun u hu => ?_, fun u hu huser hne => ?_, h.inherited.regs, ?_, ?_, h.others⟩
  · rw [hpte u (by omega) (by omega)]
    exact h.leaf_shared hu (by omega)
  · rw [hpte u huser (by omega)]
    exact h.leaf_hollow hu huser
  · rw [h.inherited.ofile]
    funext i
    rw [merged]
    cases hi : (k.proc p).ofile i with
    | none => exact hs.bare i hi
    | some f => rfl
  · obtain ⟨ip, hip, hip'⟩ := h.inherited.cwd
    rw [hip, hip']

/-- The round of the loop that maps the stack into one member. -/
theorem mapStacks_at {stack : Ppn} (hnodup : l.Nodup) (hq : q ∈ l) (h : l.foldlM (mapStack curr stack) k = .ok k') :
    ∃ k₁ k₂, mapStack curr stack k₁ q = .ok k₂ ∧ k₁.proc q = k.proc q ∧ k'.proc q = k₂.proc q := by
  induction l generalizing k with
  | nil => cases hq
  | cons x l ih =>
    obtain ⟨hx, hrestnodup⟩ := List.nodup_cons.1 hnodup
    rw [List.foldlM_cons] at h
    obtain ⟨k₁, hone, hrest⟩ := Except.bind_ok_iff.1 h
    rcases List.mem_cons.1 hq with rfl | hq'
    · exact ⟨k, k₁, hone, rfl, mapStacks_proc hrest hx⟩
    · have hne : q ∉ [x] := by simpa using fun heq : q = x => hx (heq ▸ hq')
      obtain ⟨k₂, k₃, hround, hbefore, hafter⟩ := ih hrestnodup hq' hrest
      have hfirst : [x].foldlM (mapStack curr stack) k = .ok k₁ := by
        rw [List.foldlM_cons]
        exact Except.bind_ok_iff.2 ⟨k₁, hone, rfl⟩
      exact ⟨k₂, k₃, hround, hbefore.trans (mapStacks_proc hfirst hne), hafter⟩

/-- The page at the address of the stack was free, and is mapped now unless nothing is. -/
theorem mapStack_first {stack : Ppn} (h : mapStack curr stack k q = .ok k') :
    ∃ pt, (k.rooms q).table = some pt ∧ pt.leaf (curr / pgSize) = none ∧
      ((∃ e, k'.pte q (curr / pgSize) = some e) ∨ ∀ u < vpnLimit, k'.pte q u = pt.leaf u) := by
  obtain ⟨⟨b, k₁⟩, hmap, h⟩ := Except.bind_ok_iff.1 h
  cases h
  unfold mapInto at hmap
  split at hmap
  · cases hmap
  rename_i pt hpt
  obtain ⟨⟨b', m, pt'⟩, hpages, hmap⟩ := Except.bind_ok_iff.1 hmap
  cases hmap
  rw [modify_proc_same] at hpt
  have hpte : ∀ u, ({ k.modify q fun pr => { pr with sz := curr + pgSize } with mem := m }.setTable q pt').pte q u =
      pt'.leaf u := fun u => by
    rw [pte, setTable_rooms, Function.update_self]
    rfl
  obtain ⟨hnone, hmapped⟩ := mappages_first hpages
  refine ⟨pt, hpt, hnone, ?_⟩
  simp only [hpte]
  exact hmapped

/-- A thread with a stack at an address that is not aligned is not what it should be. -/
theorem Starts.aligned {r t : Int} {pt npt npt' : PageTable} {stack : Ppn} {ring : List Slot} {k₁ : Kernel}
    (h : k.Starts p l np start arg r k' pt npt npt' stack ring k₁) (hs : k.Spawned p l np start arg t k') :
    (k.proc p).sz % pgSize = 0 := by
  by_contra hunaligned
  obtain ⟨k₂, hfold, hrooms⟩ := h.mapped
  obtain ⟨k₃, k₄, hround, hbefore, hafter⟩ := mapStacks_at h.nodup ((h.around np).2 (by simp)) hfold
  obtain ⟨pt₁, hpt₁, hfree, hmapped⟩ := mapStack_first hround
  obtain rfl : pt₁ = npt' := by
    have hroom : k₃.rooms np = k₁.rooms np := congrArg Proc.room hbefore
    rw [hroom, h.newcomer] at hpt₁
    exact (Option.some.inj hpt₁).symm
  have hpte : ∀ u, k'.pte np u = k₄.pte np u := fun u => by
    have hroom : k₂.rooms np = k₄.rooms np := congrArg Proc.room hafter
    rw [pte, pte, hrooms, hroom]
  -- the page that the size lies in is below the size
  have hin : (k.proc p).sz / pgSize < pagesBelow (k.proc p).sz := by
    simp only [pagesBelow, pgSize] at *
    omega
  have hpages : spPage (k.proc p).sz = (k.proc p).sz / pgSize ∨
      (spPage (k.proc p).sz = (k.proc p).sz / pgSize + 1 ∧ pagesBelow (k.proc p).sz ≤ spPage (k.proc p).sz) := by
    simp only [spPage, pagesBelow, pgSize] at *
    omega
  obtain ⟨huser, f, -, hstack⟩ := hs.stack
  have hnone : k'.pte np ((k.proc p).sz / pgSize) = none := by
    rw [hs.shared _ hin, ← h.leaf_shared hin (by omega), hfree]
  rcases hmapped with ⟨e, he⟩ | hsame
  · rw [hpte, he] at hnone
    cases hnone
  · have hlim : userPages < vpnLimit := by decide
    have hsome := hstack np (by simp)
    rcases hpages with hpage | ⟨-, hpage⟩
    · rw [hpage, hnone] at hsome
      cases hsome
    · rw [hpte, hsame _ (by omega), h.leaf_hollow hpage huser] at hsome
      cases hsome

/-- With memory and a slot, `thread_create` builds the thread if and only if the
stack can be mapped into every member, and the descriptors can be copied. -/
theorem threadCreate_spawned_iff (hk : Reachable b k) (hp : (k.proc p).state = .running) (ht : k.Team p l)
    (hfind : k.findUnused = some np) (hmem : k.createNeed p np l ≤ k.mem.freelist.length) :
    (∃ t k', k.threadCreate p start arg = .ok (t, k') ∧ k.Spawned p l np start arg t k') ↔ k.CanSpawn p l np := by
  have hE := wellGrouped_of_reaches hk
  have hact : (k.proc p).state.phase = .active := by rw [hp]; rfl
  constructor
  · rintro ⟨t, k', hcreate, hs⟩
    obtain ⟨pt, npt, npt', stack, ring, k₁, h⟩ := threadCreate_starts hE hact ht hfind hcreate hs.state
    have haligned := h.aligned hs
    obtain ⟨v, hsz⟩ : ∃ v, (k.proc p).sz = v * pgSize := ⟨_, (Nat.div_mul_cancel (Nat.dvd_of_mod_eq_zero haligned)).symm⟩
    refine ⟨haligned, ?_, fun q hq => ?_, ?_, h.inherited.dupable, fun i hi => ?_, ?_⟩
    · have huser := hs.stack.1
      rw [hsz, spPage_aligned] at huser
      rw [hsz, trapframeVa_eq]
      exact Nat.mul_lt_mul_of_pos_right huser (by decide)
    · obtain ⟨k₂, hfold, -⟩ := h.mapped
      obtain ⟨k₃, k₄, hround, hbefore, -⟩ := mapStacks_at h.nodup ((h.around q).2 (by simp [hq])) hfold
      obtain ⟨ptq, hptq, hfree, -⟩ := mapStack_first hround
      have hroom : k₃.rooms q = k.rooms q :=
        (congrArg Proc.room hbefore).trans (h.members q fun heq => h.fresh (heq ▸ hq))
      exact ⟨ptq, by rw [hroom] at hptq; exact hptq, hfree⟩
    · obtain ⟨tf, -, htf, -⟩ := h.inherited.regs
      simp [htf]
    · have hfiles := congrFun (h.inherited.ofile.symm.trans hs.ofile) i
      rw [merged, hi] at hfiles
      exact hfiles
    · obtain ⟨ip, hip, -⟩ := h.inherited.cwd
      simp [hip]
  · intro hs
    obtain ⟨t, k', f, hcreate, hrun, hf, hstack⟩ := threadCreate_total start arg hE hact ht hfind hmem hs
    obtain ⟨pt, npt, npt', stack, ring, k₁, h⟩ := threadCreate_starts hE hact ht hfind hcreate hrun
    exact ⟨t, k', hcreate, spawned_of_starts hk h hs hf hstack⟩

end Kernel

/-- The first process makes a thread. -/
theorem threadCreate_spawned_of_first : ∃ k : Kernel, Reachable .standard k ∧
    ∃ t k', k.threadCreate ⟨0, by decide⟩ 64 7 = .ok (t, k') ∧
      k.Spawned ⟨0, by decide⟩ [⟨0, by decide⟩] ⟨1, by decide⟩ 64 7 t k' := by
  have hrun : (Boot.standard.run anyStep [.schedule ⟨0, by decide⟩]).any
      (fun k => (k.proc ⟨0, by decide⟩).state = .running ∧ (k.proc ⟨0, by decide⟩).groupLeader = none ∧
        k.findUnused = some ⟨1, by decide⟩ ∧ 7 ≤ k.mem.freelist.length ∧
        k.createNeed ⟨0, by decide⟩ ⟨1, by decide⟩ [⟨0, by decide⟩] = 7 ∧ (k.proc ⟨0, by decide⟩).sz = 4096 ∧
        (k.proc ⟨0, by decide⟩).pagetable.map (fun pt => pt.leaf 1) = some none ∧
        (k.proc ⟨0, by decide⟩).trapframe.isSome ∧ (∀ i, (k.proc ⟨0, by decide⟩).ofile i = none) ∧
        (∀ i, (k.proc ⟨1, by decide⟩).ofile i = none) ∧ (k.proc ⟨0, by decide⟩).cwd.isSome) = true := by
    decide +kernel
  obtain ⟨k, hk, hc⟩ := exists_reaches_of_run hrun
  obtain ⟨hp, hL, hfind, hfree, hneed, hsz, hleaf, htf, hfiles, hleft, hcwd⟩ := of_decide_eq_true hc
  refine ⟨k, hk, (Kernel.threadCreate_spawned_iff hk hp (.single hL) hfind (hneed ▸ hfree)).2
    ⟨by rw [hsz]; decide, by rw [hsz]; decide, fun q hq => ?_, Option.isSome_iff_ne_none.1 htf, fun i f hf => ?_,
      fun i _ => hleft i, Option.isSome_iff_ne_none.1 hcwd⟩⟩
  · obtain rfl := List.mem_singleton.1 hq
    obtain ⟨pt, hpt, hnone⟩ := Option.map_eq_some_iff.1 hleaf
    exact ⟨pt, hpt, by rw [hsz]; exact hnone⟩
  · rw [hfiles i] at hf
    cases hf

/-- After `sbrk(100)` the size of the first process lies inside a page, and the
new thread has that page mapped already. -/
theorem threadCreate_spawned_of_unaligned : ¬ ∀ (b : Boot) (k : Kernel) (p np : Slot) (l : List Slot)
    (start arg : Nat), Reachable b k → (k.proc p).state = .running → k.Team p l → k.findUnused = some np →
    k.createNeed p np l ≤ k.mem.freelist.length →
    ∃ t k', k.threadCreate p start arg = .ok (t, k') ∧ k.Spawned p l np start arg t k' := by
  intro hall
  have hrun : (Boot.standard.run anyStep [.schedule ⟨0, by decide⟩, .call ⟨0, by decide⟩ (.sbrk 100)]).any
      (fun k => (k.proc ⟨0, by decide⟩).state = .running ∧ (k.proc ⟨0, by decide⟩).groupLeader = none ∧
        k.findUnused = some ⟨1, by decide⟩ ∧ 7 ≤ k.mem.freelist.length ∧
        k.createNeed ⟨0, by decide⟩ ⟨1, by decide⟩ [⟨0, by decide⟩] = 7 ∧
        (match k.threadCreate ⟨0, by decide⟩ 0 0 with | .ok _ => false | .error _ => true) = true) = true := by
    decide +kernel
  obtain ⟨k, hk, hc⟩ := exists_reaches_of_run hrun
  obtain ⟨hp, hL, hfind, hfree, hneed, hpanic⟩ := of_decide_eq_true hc
  obtain ⟨t, k', hcreate, -⟩ := hall _ k _ _ _ 0 0 hk hp (.single hL) hfind (hneed ▸ hfree)
  rw [hcreate] at hpanic
  cases hpanic

end Xv6
