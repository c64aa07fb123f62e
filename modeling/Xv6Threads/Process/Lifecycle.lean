-- SUMMARY: Slots of the process table: allocproc, freeproc, user page tables and userinit.
import Xv6Threads.Process.Proc

/-!
# Slots

How a slot of the process table is taken (`allocproc`), released (`freeproc`)
and given a user page table (`proc_pagetable` and its two inverses), and the
first process.
-/

namespace Xv6

/-- The permissions of the trampoline and of the trapframe page. -/
def permRX : Perm := ⟨true, false, true, false⟩
def permRW : Perm := ⟨true, true, false, false⟩
/-- `PTE_W | PTE_R | PTE_U`. -/
def permUser : Perm := ⟨true, true, false, true⟩
/-- `PTE_W`, as the extra permission given to `uvmalloc`. -/
def permW : Perm := ⟨false, true, false, false⟩

/-- `proc_pagetable`: a table with the trampoline and the trapframe `tf` only. -/
def procPagetable (m : Mem) (tramp tf : Ppn) : Except Panic (Option PageTable × Mem) :=
  match PageTable.uvmcreate m with
  | (none, m) => .ok (none, m)
  | (some pt, m) => do
    let (mapped, m, pt) ← PageTable.mappages m pt trampoline pgSize tramp permRX
    if !mapped then
      let m ← pt.uvmfree m 0
      .ok (none, m)
    else
      let (mapped, m, pt) ← PageTable.mappages m pt trapframeVa pgSize tf permRW
      if !mapped then
        let (m, pt) ← PageTable.uvmunmap m pt trampoline 1 false
        let m ← pt.uvmfree m 0
        .ok (none, m)
      else .ok (some pt, m)

/-- The common text of `proc_freepagetable` and `proc_freepagetable_thread`. -/
def procFreepagetableWith (free : Mem → PageTable → Nat → Except Panic Mem) (m : Mem)
    (pt : PageTable) (sz : Nat) : Except Panic Mem := do
  let (m, pt) ← PageTable.uvmunmap m pt trampoline 1 false
  let (m, pt) ← PageTable.uvmunmap m pt trapframeVa 1 false
  free m pt sz

def procFreepagetable := procFreepagetableWith PageTable.uvmfreeShared

/-- The variant for threads: user pages are dropped but never freed. -/
def procFreepagetableThread := procFreepagetableWith PageTable.uvmfreeSharedThread

/-- What the loop of `freeproc` stores into another member of the group. The
slot keeps its `parent`, `chan`, `killed`, `name`, `pid` and open files. -/
def Proc.release (pr : Proc) : Proc :=
  { pr with
    trapframe := none
    pagetable := none
    sz := if pr.pagetable.isSome then 0 else pr.sz
    groupLeader := none
    groupNext := none
    groupPrev := none
    isThread := false
    tid := 0
    cwd := none
    numChildren := 0
    refCount := 0
    state := .unused }

/-- What the end of `freeproc` stores into the slot itself. A page table that is
still there is forgotten, not freed; open files and `pid` stay. -/
def Proc.clear (pr : Proc) : Proc :=
  { pr with
    trapframe := none
    pagetable := none
    sz := 0
    groupLeader := none
    groupNext := none
    groupPrev := none
    isThread := false
    tid := 0
    state := .unused
    numChildren := 0
    refCount := 0
    cwd := none
    parent := none
    name := ""
    chan := none
    killed := false }

/-- What `allocproc` stores into a slot it has found. Of the previous occupant's
fields only the group links and counters are reset. -/
def Proc.claim (pr : Proc) (pid : Int) : Proc :=
  { pr with
    pid := pid
    state := .used
    groupLeader := none
    groupPrev := none
    groupNext := none
    numChildren := 0
    refCount := 0 }

namespace Kernel

/-- `allocpid`; `nextpid` is an `int` and wraps. -/
def allocpid (k : Kernel) : Int × Kernel :=
  (k.nextpid, { k with nextpid := (k.nextpid + 1).bmod (2 ^ 32) })

/-- `if (p->trapframe) kfree(p->trapframe)`. -/
def freeTrapframe (m : Mem) (pr : Proc) : Except Panic Mem :=
  match pr.trapframe with
  | some tf => m.kfree tf.page
  | none => .ok m

/-- `if (q->pagetable) proc_freepagetable_thread(q->pagetable, q->sz)`. -/
def freeTableThread (m : Mem) (pr : Proc) : Except Panic Mem :=
  match pr.pagetable with
  | some pt => procFreepagetableThread m pt pr.sz
  | none => .ok m

/-- The body of the loop of `freeproc` over the other members of a group. -/
def freeMember (k : Kernel) (q : Slot) : Except Panic Kernel := do
  let m ← freeTrapframe k.mem (k.proc q)
  let m ← freeTableThread m (k.proc q)
  .ok (Kernel.modify { k with mem := m } q Proc.release)

/-- The loop `while (q != p)` of `freeproc`. A ring that does not come back to
`p` makes it run forever. -/
def freeMembers (p : Slot) : Nat → Option Slot → Kernel → Except Panic Kernel
  | 0, _, _ => .error .spin
  | _ + 1, none, _ => nullDeref
  | n + 1, some q, k =>
    if q = p then .ok k
    else do
      let next := (k.proc q).groupNext
      let k ← k.freeMember q
      freeMembers p n next k

/-- The end of `freeproc`: the slot itself. -/
def freeSelf (k : Kernel) (p : Slot) : Except Panic Kernel := do
  let m ← freeTrapframe k.mem (k.proc p)
  .ok (Kernel.modify { k with mem := m } p Proc.clear)

/-- The decrement that `freeproc` and `thread_exit` share: not below zero. -/
def dropRef (k : Kernel) (leader : Slot) : Kernel :=
  k.modify leader fun pr => if 0 < pr.refCount then { pr with refCount := pr.refCount - 1 } else pr

/-- `freeproc`. -/
def freeproc (k : Kernel) (p : Slot) : Except Panic Kernel :=
  match (k.proc p).groupLeader with
  | none => k.freeSelf p
  | some leader =>
    let k := k.dropRef leader
    if p = leader ∧ (k.proc leader).refCount ≠ 0 then stop "freeproc: leader with ref_count > 0"
    else if p ≠ leader then
      -- a ghost, so that `thread_join` does not loop for ever
      .ok (k.modify p fun pr => { pr with state := .ghost })
    else do
      let k ← freeMembers p (nproc + 1) (k.proc p).groupNext k
      k.freeSelf p

/-- The first slot that is not in use. -/
def findUnused (k : Kernel) : Option Slot :=
  (List.finRange nproc).find? fun p => (k.proc p).state = .unused

def allocproc (k : Kernel) : Except Panic (Option Slot × Kernel) :=
  match k.findUnused with
  | none => .ok (none, k)
  | some p =>
    let (pid, k) := k.allocpid
    let k := k.modify p fun pr => pr.claim pid
    match k.mem.kalloc with
    | (none, m) => do
      let k ← freeproc ({ k with mem := m }.modify p fun pr => { pr with trapframe := none }) p
      .ok (none, k)
    | (some tf, m) => do
      let k := { k with mem := m }.modify p fun pr => { pr with trapframe := some ⟨tf, .junk⟩ }
      let (pt, m) ← procPagetable k.mem k.tramp tf
      let k := { k with mem := m }.modify p fun pr => { pr with pagetable := pt }
      if pt.isNone then
        let k ← k.freeproc p
        .ok (none, k)
      else .ok (some p, k.modify p fun pr => { pr with resume := .user })

/-- `userinit`, with the root directory at inode entry `root`. -/
def userinit (k : Kernel) (root : InodeIx) : Except Panic Kernel := do
  match ← k.allocproc with
  | (none, _) => nullDeref
  | (some p, k) =>
    match (k.proc p).pagetable, (k.proc p).trapframe with
    | some pt, some tf =>
      -- `uvmfirst`; its results are not tested
      match k.mem.kalloc with
      | (none, _) => nullDeref
      | (some mem, m) =>
        let (_, m, pt) ← PageTable.mappages (m.memset mem 0) pt 0 pgSize mem ⟨true, true, true, true⟩
        let tf := { tf with regs := { tf.regs with epc := 0, sp := pgSize } }
        .ok (({ k with mem := m, initproc := p }.idup root).modify p fun pr =>
          { pr with
            pagetable := some pt
            sz := pgSize
            trapframe := some tf
            name := "initcode"
            cwd := some root
            state := .runnable })
    | _, _ => nullDeref

/-! ## What taking and releasing a slot does -/

variable {k k' : Kernel} {p q : Slot}

theorem freeSelf_ok (h : k.freeSelf p = .ok k') :
    ∃ m, freeTrapframe k.mem (k.proc p) = .ok m ∧
      k' = { k with mem := m, proc := Function.update k.proc p (k.proc p).clear } := by
  obtain ⟨m, hm, h⟩ := Except.bind_ok_iff.1 h
  cases h
  exact ⟨m, hm, modify_eq_update⟩

theorem freeMember_ok (h : k.freeMember q = .ok k') :
    ∃ m m', freeTrapframe k.mem (k.proc q) = .ok m ∧ freeTableThread m (k.proc q) = .ok m' ∧
      k' = { k with mem := m', proc := Function.update k.proc q (k.proc q).release } := by
  obtain ⟨m, hm, h⟩ := Except.bind_ok_iff.1 h
  obtain ⟨m', hm', h⟩ := Except.bind_ok_iff.1 h
  cases h
  exact ⟨m, m', hm, hm', modify_eq_update⟩

theorem freeproc_of_ungrouped (hp : (k.proc p).groupLeader = none) : k.freeproc p = k.freeSelf p := by
  unfold freeproc
  rw [hp]

theorem findUnused_unused (h : k.findUnused = some p) : (k.proc p).state = .unused := by
  simpa using List.find?_some h

/-- `allocproc` returned a slot: its trapframe and its table are new. -/
theorem allocproc_some (h : k.allocproc = .ok (some p, k')) :
    k.findUnused = some p ∧ ∃ tf m pt m',
      k.mem.kalloc = (some tf, m) ∧ procPagetable m k.tramp tf = .ok (some pt, m') ∧
      k' = { k with
        mem := m'
        nextpid := (k.nextpid + 1).bmod (2 ^ 32)
        proc := Function.update k.proc p
          { (k.proc p).claim k.nextpid with
            trapframe := some ⟨tf, .junk⟩
            pagetable := some pt
            resume := .user } } := by
  unfold allocproc at h
  split at h
  · cases h
  rename_i p₀ hfind
  dsimp only [allocpid, modify_mem] at h
  split at h
  · obtain ⟨k₁, -, h⟩ := Except.bind_ok_iff.1 h
    cases h
  · rename_i tf m hk
    obtain ⟨⟨pt, m'⟩, hpt, h⟩ := Except.bind_ok_iff.1 h
    dsimp only at h
    split at h
    · obtain ⟨k₁, -, h⟩ := Except.bind_ok_iff.1 h
      cases h
    · rename_i hsome
      obtain ⟨pt, rfl⟩ := Option.ne_none_iff_exists'.1 (by simpa using hsome)
      cases h
      refine ⟨hfind, tf, m, pt, m', hk, hpt, ?_⟩
      simp [modify_eq_update, Proc.claim]

/-- The slots after `allocproc` returned one. -/
theorem allocproc_some_proc (h : k.allocproc = .ok (some p, k')) :
    (∀ q, q ≠ p → k'.proc q = k.proc q) ∧
      ∃ tf pt, k'.proc p =
        { (k.proc p).claim k.nextpid with
          trapframe := some ⟨tf, .junk⟩
          pagetable := some pt
          resume := .user } := by
  obtain ⟨-, tf, m, pt, m', -, -, rfl⟩ := allocproc_some h
  exact ⟨fun q hq => Function.update_of_ne hq _ _, tf, pt, Function.update_self _ _ _⟩

/-- `allocproc` returned nothing: every slot is in use, or the slot it found is
empty again. -/
theorem allocproc_none (h : k.allocproc = .ok (none, k')) :
    (k.findUnused = none ∧ k' = k) ∨
    ∃ p m, k.findUnused = some p ∧
      (k.mem.kalloc = (none, m) ∨
        ∃ tf m₁ m₂, k.mem.kalloc = (some tf, m₁) ∧
          procPagetable m₁ k.tramp tf = .ok (none, m₂) ∧ m₂.kfree tf = .ok m) ∧
      k' = { k with
        mem := m
        nextpid := (k.nextpid + 1).bmod (2 ^ 32)
        proc := Function.update k.proc p ((k.proc p).claim k.nextpid).clear } := by
  unfold allocproc at h
  split at h
  · rename_i hfind
    cases h
    exact .inl ⟨hfind, rfl⟩
  rename_i p₀ hfind
  refine .inr ?_
  dsimp only [allocpid, modify_mem] at h
  split at h
  · rename_i m hk
    obtain ⟨k₁, hfree, h⟩ := Except.bind_ok_iff.1 h
    cases h
    rw [freeproc_of_ungrouped (by simp [Proc.claim])] at hfree
    obtain ⟨m', hm', rfl⟩ := freeSelf_ok hfree
    obtain rfl : m = m' := by simpa [freeTrapframe] using hm'
    exact ⟨p₀, m, hfind, .inl hk, by simp [modify_eq_update, Proc.claim, Proc.clear]⟩
  · rename_i tf m₁ hk
    obtain ⟨⟨pt, m₂⟩, hpt, h⟩ := Except.bind_ok_iff.1 h
    dsimp only at h
    split at h
    · rename_i hnone
      obtain rfl : pt = none := by simpa using hnone
      obtain ⟨k₁, hfree, h⟩ := Except.bind_ok_iff.1 h
      cases h
      rw [freeproc_of_ungrouped (by simp [Proc.claim])] at hfree
      obtain ⟨m', hm', rfl⟩ := freeSelf_ok hfree
      have hkfree : m₂.kfree tf = .ok m' := by simpa [freeTrapframe] using hm'
      exact ⟨p₀, m', hfind, .inr ⟨tf, m₁, m₂, hk, hpt, hkfree⟩,
        by simp [modify_eq_update, Proc.claim, Proc.clear]⟩
    · cases h

end Kernel

end Xv6
