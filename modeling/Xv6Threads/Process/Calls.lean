-- SUMMARY: The process and thread system calls of proc.c, and the descriptor calls of sysfile.c.
import Xv6Threads.Process.Lifecycle

/-!
# System calls

`fork`, `growproc`, `thread_create`, `thread_exit`, `exit`, `wait`,
`thread_join` and `kill` of `proc.c`, run by the process in slot `p`, and the
descriptor part of `open`, `dup`, `close`, `pipe` and `chdir`. A call returns
the value that goes to `a0`; one that has to wait returns none and leaves the
caller asleep.
-/

namespace Xv6

namespace Kernel

/-- Store a page table back into a slot. -/
def setTable (k : Kernel) (p : Slot) (pt : PageTable) : Kernel :=
  k.modify p fun pr => { pr with pagetable := some pt }

/-- `if (p->ofile[i]) np->ofile[i] = filedup(p->ofile[i])`. -/
def dupFd (p np : Slot) (k : Kernel) (i : Fin nofile) : Except Panic Kernel :=
  match (k.proc p).ofile i with
  | none => .ok k
  | some f => do
    let k ← k.filedup f
    .ok (k.modify np fun pr => { pr with ofile := fun j => if j = i then some f else pr.ofile j })

/-- `filedup` of every open file of `p` into `np`; empty entries of `p` leave
what `np` has there. -/
def dupFiles (k : Kernel) (p np : Slot) : Except Panic Kernel :=
  (List.finRange nofile).foldlM (dupFd p np) k

/-- `np->cwd = idup(p->cwd)`. -/
def dupCwd (k : Kernel) (p np : Slot) : Except Panic Kernel :=
  match (k.proc p).cwd with
  | none => nullDeref
  | some ip => .ok ((k.idup ip).modify np fun pr => { pr with cwd := some ip })

/-! ## fork -/

def fork (k : Kernel) (p : Slot) : Except Panic (Int × Kernel) := do
  match ← k.allocproc with
  | (none, k) => .ok (-1, k)
  | (some np, k) =>
    match (k.proc p).pagetable, (k.proc np).pagetable, (k.proc p).trapframe, (k.proc np).trapframe with
    | some old, some new, some tf, some ntf =>
      let (copied, m, new) ← PageTable.uvmcopy k.mem old new (k.proc p).sz
      let k := { k with mem := m }.setTable np new
      if !copied then
        let k ← k.freeproc np
        .ok (-1, k)
      else
        let k := k.modify np fun pr =>
          { pr with
            sz := (k.proc p).sz
            trapframe := some { ntf with regs := { tf.regs with a0 := 0 } } }
        let k ← k.dupFiles p np
        let k ← k.dupCwd p np
        let k := k.modify np fun pr => { pr with name := (k.proc p).name, parent := some p, state := .runnable }
        .ok ((k.proc np).pid, k)
    | _, _, _, _ => nullDeref

/-! ## Loops over a group -/

/-- `q = leader; do { body; q = q->group_next; } while (q != leader)`. -/
def ringLoop (leader : Slot) (body : Kernel → Slot → Except Panic Kernel) :
    Nat → Slot → Kernel → Except Panic Kernel
  | 0, _, _ => .error .spin
  | n + 1, q, k => do
    let k ← body k q
    match (k.proc q).groupNext with
    | none => nullDeref
    | some q' => if q' = leader then .ok k else ringLoop leader body n q' k

/-- `mappages` of one page into the table of slot `q`; `false` is `-1`. -/
def mapInto (k : Kernel) (q : Slot) (va : Nat) (pa : Ppn) (perm : Perm) :
    Except Panic (Bool × Kernel) :=
  match (k.proc q).pagetable with
  | none => nullDeref
  | some pt => do
    let (mapped, m, pt) ← PageTable.mappages k.mem pt va pgSize pa perm
    .ok (mapped, { k with mem := m }.setTable q pt)

/-- `uvmunmap(q->pagetable, va, 1, 1)`. -/
def unmapFrom (k : Kernel) (q : Slot) (va : Nat) : Except Panic Kernel :=
  match (k.proc q).pagetable with
  | none => nullDeref
  | some pt => do
    let (m, pt) ← PageTable.uvmunmap k.mem pt va 1 true
    .ok ({ k with mem := m }.setTable q pt)

/-! ## sbrk -/

/-- `if (q != p) mappages(q->pagetable, va, PGSIZE, pa, ...)`. -/
def mapOther (k : Kernel) (p q : Slot) (va : Nat) (pa : Ppn) : Except Panic (Bool × Kernel) :=
  if q ≠ p then k.mapInto q va pa permUser else .ok (true, k)

/-- The inner loop of the growing half: map `pa` at `va` into every other
member. It stops with `false` at the first member that has no room. -/
def growMembers (p leader : Slot) (va : Nat) (pa : Ppn) :
    Nat → Slot → Kernel → Except Panic (Bool × Kernel)
  | 0, _, _ => .error .spin
  | n + 1, q, k => do
    let (mapped, k) ← k.mapOther p q va pa
    if !mapped then .ok (false, k)
    else
      match (k.proc q).groupNext with
      | none => nullDeref
      | some q' => if q' = leader then .ok (true, k) else growMembers p leader va pa n q' k

/-- `PTE2PA(*walk(pagetable, va, 0))`. -/
def pteAddr (pt : PageTable) (va : Nat) : Except Panic Ppn := do
  match ← pt.walk va with
  | none => nullDeref
  | some e => .ok (e.elim 0 Pte.ppn)

/-- The outer loop of the growing half, for `n` pages from `va` on. -/
def growGroup (p leader : Slot) : Nat → Nat → Kernel → Except Panic (Bool × Kernel)
  | 0, _, k => .ok (true, k)
  | n + 1, va, k =>
    match (k.proc p).pagetable with
    | none => nullDeref
    | some pt => do
      let pa ← pteAddr pt va
      let (mapped, k) ← growMembers p leader va pa nproc leader k
      if !mapped then .ok (false, k) else growGroup p leader n (va + pgSize) k

/-- The group part of the growing half: pages `va`, `va + PGSIZE`, ... below `sz`. -/
def growOthers (k : Kernel) (p : Slot) (va sz : Nat) : Except Panic (Bool × Kernel) :=
  match (k.proc p).groupLeader with
  | none => .ok (true, k)
  | some leader => growGroup p leader (pagesBelow (sz - va)) va k

/-- The loops of the shrinking half, for `n` pages from `va` on. -/
def shrinkGroup (p leader : Slot) : Nat → Nat → Kernel → Except Panic Kernel
  | 0, _, k => .ok k
  | n + 1, va, k => do
    let k ← ringLoop leader (fun k q => if q ≠ p then k.unmapFrom q va else .ok k) nproc leader k
    shrinkGroup p leader n (va + pgSize) k

/-- The group part of the shrinking half: pages `va`, `va + PGSIZE`, ... below `sz`. -/
def shrinkOthers (k : Kernel) (p : Slot) (va sz : Nat) : Except Panic Kernel :=
  match (k.proc p).groupLeader with
  | none => .ok k
  | some leader => shrinkGroup p leader (pagesBelow (sz - va)) va k

/-- The end of `growproc`: the new size goes to every member. -/
def setSize (k : Kernel) (p : Slot) (sz : Nat) : Except Panic Kernel :=
  match (k.proc p).groupLeader with
  | none => .ok (k.modify p fun pr => { pr with sz := sz })
  | some leader =>
    ringLoop leader (fun k q => .ok (k.modify q fun pr => { pr with sz := sz })) nproc leader k

/-- `growproc(n)`, with `n` a signed 32-bit amount; the sum `sz + n` is taken
on 64-bit words. -/
def growproc (k : Kernel) (p : Slot) (n : Int) : Except Panic (Int × Kernel) :=
  let cur := (k.proc p).sz
  if n = 0 then .ok (0, k)
  else
    match (k.proc p).pagetable with
    | none => nullDeref
    | some pt =>
      if 0 < n then do
        let (newsz, m, pt) ← PageTable.uvmalloc k.mem pt cur ((cur + n) % wordSize).toNat permW
        let k := { k with mem := m }.setTable p pt
        if newsz = 0 then .ok (-1, k)
        else
          let (mapped, k) ← k.growOthers p cur newsz
          if !mapped then .ok (-1, k)
          else
            let k ← k.setSize p newsz
            .ok (0, k)
      else do
        let (newsz, m, pt) ← PageTable.uvmdealloc k.mem pt cur ((cur + n) % wordSize).toNat
        let k := { k with mem := m }.setTable p pt
        let k ← k.shrinkOthers p newsz cur
        let k ← k.setSize p newsz
        .ok (0, k)

/-- `sys_sbrk`. -/
def sbrk (k : Kernel) (p : Slot) (n : Int) : Except Panic (Int × Kernel) := do
  let addr := (k.proc p).sz
  let (r, k) ← k.growproc p n
  if r < 0 then .ok (-1, k) else .ok (addr, k)

/-! ## thread_create -/

/-- The leader of the group `p` belongs to, or `p` itself. -/
def leaderOf (k : Kernel) (p : Slot) : Slot := (k.proc p).groupLeader.getD p

/-- The first thread of a process makes it the leader of a group of its own. -/
def foundGroup (k : Kernel) (p : Slot) : Kernel :=
  if (k.proc p).groupLeader = none then
    k.modify p fun pr =>
      { pr with
        groupLeader := some p
        groupNext := some p
        groupPrev := some p
        numChildren := 0
        refCount := 1 }
  else k

/-- Count `np` in and link it behind the leader. -/
def enterGroup (k : Kernel) (leader np : Slot) : Except Panic Kernel :=
  let k := k.modify leader fun pr =>
    { pr with numChildren := pr.numChildren + 1, refCount := pr.refCount + 1 }
  let k := k.modify np fun pr =>
    { pr with
      tid := (k.proc leader).numChildren
      groupLeader := some leader
      groupPrev := some leader
      groupNext := (k.proc leader).groupNext }
  match (k.proc leader).groupNext with
  | none => nullDeref
  | some next =>
    let k := k.modify next fun pr => { pr with groupPrev := some np }
    .ok (k.modify leader fun pr => { pr with groupNext := some np })

/-- The label `bad` of `thread_create`: unlink `np` and count it out. The slot
stays in state `USED` with everything it was given. -/
def leaveGroup (k : Kernel) (leader np : Slot) : Except Panic Kernel :=
  match (k.proc np).groupPrev, (k.proc np).groupNext with
  | some prev, some next =>
    let k := k.modify prev fun pr => { pr with groupNext := (k.proc np).groupNext }
    let k := k.modify next fun pr => { pr with groupPrev := (k.proc np).groupPrev }
    .ok (k.modify leader fun pr =>
      { pr with numChildren := pr.numChildren - 1, refCount := pr.refCount - 1 })
  | _, _ => nullDeref

/-- `q->sz = new_group_sz; mappages(q->pagetable, ...)`; the result of
`mappages` is not tested. -/
def mapStack (curr : Nat) (stack : Ppn) (k : Kernel) (q : Slot) : Except Panic Kernel := do
  let k := k.modify q fun pr => { pr with sz := curr + pgSize }
  let (_, k) ← k.mapInto q curr stack permUser
  .ok k

/-- The end of `thread_create`: registers, files, name, parent, state. -/
def startThread (k : Kernel) (p np : Slot) (curr start arg : Nat) : Except Panic Kernel :=
  match (k.proc p).trapframe, (k.proc np).trapframe with
  | some tf, some ntf => do
    let regs := { tf.regs with epc := start, sp := curr + pgSize - 8, a0 := arg, ra := 0 }
    let k := k.modify np fun pr => { pr with trapframe := some { ntf with regs := regs } }
    let k ← k.dupFiles p np
    let k ← k.dupCwd p np
    .ok (k.modify np fun pr =>
      { pr with isThread := true, name := "kthread", parent := some p, state := .runnable })
  | _, _ => nullDeref

/-- `thread_create(start_routine, arg)`. The result of `uvmshare` is not tested. -/
def threadCreate (k : Kernel) (p : Slot) (start arg : Nat) : Except Panic (Int × Kernel) := do
  match ← k.allocproc with
  | (none, k) => .ok (-1, k)
  | (some np, k) =>
    let leader := k.leaderOf p
    let k := k.foundGroup p
    let k ← k.enterGroup leader np
    let curr := (k.proc p).sz
    match (k.proc p).pagetable, (k.proc np).pagetable with
    | some pt, some npt =>
      let (_, m, npt) ← PageTable.uvmshare k.mem pt npt curr
      let k := { k with mem := m }.setTable np npt
      match k.mem.kalloc with
      | (none, m) =>
        let k ← { k with mem := m }.leaveGroup leader np
        .ok (-1, k)
      | (some stack, m) =>
        let k := { k with mem := m.memset stack 0 }
        let k ← ringLoop leader (mapStack curr stack) nproc leader k
        let k ← k.startThread p np curr start arg
        .ok ((k.proc np).tid, k)
    | _, _ => nullDeref

/-! ## Termination -/

/-- `if (p->parent) wakeup(p->parent)`. -/
def wakeParent (k : Kernel) (p : Slot) : Kernel :=
  match (k.proc p).parent with
  | none => k
  | some pp => k.wakeup (some p) (.proc pp)

/-- `thread_exit` by a thread, up to the switch to the scheduler. -/
def threadExitThread (k : Kernel) (p : Slot) : Kernel :=
  let k := k.dropRef (k.leaderOf p)
  let k := k.modify p fun pr => { pr with xstate := 0, state := .zombie }
  k.wakeParent p

/-- `reparent`: hand the children of `p` to init. -/
def reparent (k : Kernel) (p : Slot) : Kernel :=
  let orphans := (List.finRange nproc).any fun pp => (k.proc pp).parent = some p
  let k := { k with
    proc := fun pp =>
      if (k.proc pp).parent = some p then { k.proc pp with parent := some k.initproc }
      else k.proc pp }
  if orphans then k.wakeup (some p) (.proc k.initproc) else k

/-- `if (p->ofile[fd]) { fileclose(p->ofile[fd]); p->ofile[fd] = 0; }`. -/
def closeFd (p : Slot) (k : Kernel) (fd : Fin nofile) : Except Panic Kernel :=
  match (k.proc p).ofile fd with
  | none => .ok k
  | some f => do
    let k ← k.fileclose p f
    .ok (k.modify p fun pr => { pr with ofile := fun j => if j = fd then none else pr.ofile j })

/-- Close every open file of `p`. -/
def closeFiles (k : Kernel) (p : Slot) : Except Panic Kernel :=
  (List.finRange nofile).foldlM (closeFd p) k

/-- `if (p->cwd) iput(p->cwd); p->cwd = 0`. -/
def dropCwd (k : Kernel) (p : Slot) : Kernel :=
  match (k.proc p).cwd with
  | none => k
  | some ip => (k.iput ip).modify p fun pr => { pr with cwd := none }

/-- `if (p->pagetable) proc_freepagetable(p->pagetable, p->sz)`. -/
def dropTable (k : Kernel) (p : Slot) : Except Panic Kernel :=
  match (k.proc p).pagetable with
  | none => .ok k
  | some pt => do
    let m ← procFreepagetable k.mem pt (k.proc p).sz
    .ok ({ k with mem := m }.modify p fun pr => { pr with pagetable := none, sz := 0 })

/-- `exit` by a process that is not a thread, up to the switch to the scheduler. -/
def exitProcess (k : Kernel) (p : Slot) (status : Int) : Except Panic Kernel := do
  let k ← k.closeFiles p
  let k := k.dropCwd p
  let k := k.reparent p
  let k ← k.dropTable p
  let k := k.modify p fun pr => { pr with xstate := status, state := .zombie }
  .ok (k.wakeParent p)

def exit (k : Kernel) (p : Slot) (status : Int) : Except Panic Kernel :=
  if (k.proc p).isThread then .ok (k.threadExitThread p) else k.exitProcess p status

/-- `thread_exit`; a process that is not a thread exits with `-1`. -/
def threadExit (k : Kernel) (p : Slot) : Except Panic Kernel :=
  if (k.proc p).isThread then .ok (k.threadExitThread p) else k.exitProcess p (-1)

/-! ## Reaping -/

/-- The four bytes of an `int`. -/
def intBytes (n : Int) : List UInt8 :=
  let u := (n % 2 ^ 32).toNat
  [u, u / 2 ^ 8, u / 2 ^ 16, u / 2 ^ 24].map UInt8.ofNat

/-- The first exited child of `p`. -/
def findZombie (k : Kernel) (p : Slot) : Option Slot :=
  (List.finRange nproc).find? fun pp =>
    (k.proc pp).parent = some p ∧ (k.proc pp).state = .zombie

def hasKids (k : Kernel) (p : Slot) : Bool :=
  (List.finRange nproc).any fun pp => (k.proc pp).parent = some p

/-- `addr != 0 && copyout(p->pagetable, addr, &pp->xstate, ...) < 0`; `false` is
a failed copy. -/
def copyStatus (k : Kernel) (p pp : Slot) (addr : Nat) : Except Panic (Bool × Kernel) :=
  if addr = 0 then .ok (true, k)
  else
    match (k.proc p).pagetable with
    | none => nullDeref
    | some pt =>
      let (copied, m) := pt.copyout k.mem addr (intBytes (k.proc pp).xstate)
      .ok (copied, { k with mem := m })

/-- `wait(addr)`: one round of its loop, and the sleep at its end. -/
def wait (k : Kernel) (p : Slot) (addr : Nat) : Except Panic (Option Int × Kernel) :=
  match k.findZombie p with
  | some pp => do
    let (copied, k) ← k.copyStatus p pp addr
    if !copied then .ok (some (-1), k)
    else
      let pid := (k.proc pp).pid
      let k ← k.freeproc pp
      .ok (some pid, k)
  | none =>
    if !k.hasKids p || (k.proc p).killed then .ok (some (-1), k)
    else .ok (none, k.sleep p (.proc p) (.wait addr))

/-- The child thread `tid` of `p`, in any state. -/
def isChildThread (k : Kernel) (p : Slot) (tid : Int) (tp : Slot) : Bool :=
  (k.proc tp).parent = some p ∧ (k.proc tp).tid = tid ∧ (k.proc tp).isThread

/-- `thread_join(tid)`: one round of its loop, and the sleep at its end. -/
def threadJoin (k : Kernel) (p : Slot) (tid : Int) : Except Panic (Option Int × Kernel) :=
  match (List.finRange nproc).find? fun tp =>
      k.isChildThread p tid tp ∧ (k.proc tp).state = .zombie with
  | some tp => do
    let id := (k.proc tp).tid
    let k ← k.freeproc tp
    .ok (some id, k)
  | none =>
    if !(List.finRange nproc).any (k.isChildThread p tid) || (k.proc p).killed then
      .ok (some (-1), k)
    else .ok (none, k.sleep p (.proc p) (.join tid))

/-! ## kill -/

/-- The first slot with the given pid, in whatever state. -/
def findPid (k : Kernel) (pid : Int) : Option Slot :=
  (List.finRange nproc).find? fun p => (k.proc p).pid = pid

def kill (k : Kernel) (pid : Int) : Int × Kernel :=
  match k.findPid pid with
  | none => (-1, k)
  | some p =>
    (0, k.modify p fun pr =>
      { pr with
        killed := true
        state := if pr.state = .sleeping then .runnable else pr.state })

def setkilled (k : Kernel) (p : Slot) : Kernel :=
  k.modify p fun pr => { pr with killed := true }

/-! ## Looking at a group -/

/-- The loop of `getfamily` at member `o`, with `count` ids copied out. A null
member is read only after the place for its id has been found. -/
def familyLoop (pt : PageTable) (leader : Slot) (buf : Nat) (max : Int) :
    Nat → Option Slot → Nat → Kernel → Except Panic (Int × Kernel)
  | 0, _, _, _ => .error .spin
  | n + 1, o, count, k =>
    let va := (buf + count * 4) % wordSize
    if max ≤ count then .ok (count, k)
    else
      match o with
      | none => if (pt.walkaddr (pgRoundDown va)).isNone then .ok (-1, k) else nullDeref
      | some q =>
        match pt.copyout k.mem va (intBytes (k.proc q).tid) with
        | (false, m) => .ok (-1, { k with mem := m })
        | (true, m) =>
          if (k.proc q).groupNext = some leader then .ok (count + 1, { k with mem := m })
          else familyLoop pt leader buf max n (k.proc q).groupNext (count + 1) { k with mem := m }

/-- `getfamily(buf, max)`: copy out the ids of the group of `p`. -/
def getfamily (k : Kernel) (p : Slot) (buf : Nat) (max : Int) : Except Panic (Int × Kernel) :=
  match (k.proc p).pagetable with
  | none => nullDeref
  | some pt => familyLoop pt (k.leaderOf p) buf max nproc (some (k.leaderOf p)) 0 k

/-- The loop of `getstatus` at member `o`. -/
def statusLoop (k : Kernel) (leader : Slot) (tid : Int) : Nat → Option Slot → Except Panic Int
  | 0, _ => .error .spin
  | _ + 1, none => nullDeref
  | n + 1, some q =>
    if (k.proc q).tid = tid then .ok (k.proc q).state.code
    else if (k.proc q).groupNext = some leader then .ok (-1)
    else k.statusLoop leader tid n (k.proc q).groupNext

/-- `getstatus(tid)`: the state of a member of the group of `p`. -/
def getstatus (k : Kernel) (p : Slot) (tid : Int) : Except Panic Int :=
  k.statusLoop (k.leaderOf p) tid nproc (some (k.leaderOf p))

/-! ## Descriptors -/

/-- `open`, once the path has led to inode entry `ip`. -/
def sysOpen (k : Kernel) (p : Slot) (ip : InodeIx) (device readable writable : Bool) :
    Except Panic (Int × Kernel) :=
  let k := k.idup ip
  match k.filealloc with
  | (none, k) => .ok (-1, k.iput ip)
  | (some f, k) =>
    match k.fdalloc p f with
    | (none, k) => do
      let k ← k.fileclose p f
      .ok (-1, k.iput ip)
    | (some fd, k) =>
      .ok (fd, k.modifyFile f fun fl =>
        { fl with
          type := if device then .device ip else .inode ip
          readable := readable
          writable := writable })

/-- `argfd`. -/
def argfd (k : Kernel) (p : Slot) (fd : Int) : Option (Fin nofile × FileIx) :=
  if h : 0 ≤ fd ∧ fd.toNat < nofile then
    ((k.proc p).ofile ⟨fd.toNat, h.2⟩).map fun f => (⟨fd.toNat, h.2⟩, f)
  else none

def sysDup (k : Kernel) (p : Slot) (fd : Int) : Except Panic (Int × Kernel) :=
  match k.argfd p fd with
  | none => .ok (-1, k)
  | some (_, f) =>
    match k.fdalloc p f with
    | (none, k) => .ok (-1, k)
    | (some fd, k) => do
      let k ← k.filedup f
      .ok (fd, k)

def clearFd (k : Kernel) (p : Slot) (fd : Fin nofile) : Kernel :=
  k.modify p fun pr => { pr with ofile := fun i => if i = fd then none else pr.ofile i }

def sysClose (k : Kernel) (p : Slot) (fd : Int) : Except Panic (Int × Kernel) :=
  match k.argfd p fd with
  | none => .ok (-1, k)
  | some (fd, f) => do
    let k ← (k.clearFd p fd).fileclose p f
    .ok (0, k)

/-- `pipealloc`. -/
def pipealloc (k : Kernel) (p : Slot) : Except Panic (Option (FileIx × FileIx) × Kernel) :=
  match k.filealloc with
  | (none, k) => .ok (none, k)
  | (some f0, k) =>
    match k.filealloc with
    | (none, k) => do
      let k ← k.fileclose p f0
      .ok (none, k)
    | (some f1, k) =>
      match k.mem.kalloc with
      | (none, m) => do
        let k ← { k with mem := m }.fileclose p f0
        let k ← k.fileclose p f1
        .ok (none, k)
      | (some pg, m) =>
        let k := { k with mem := m, pipes := ⟨pg, true, true⟩ :: k.pipes }
        let k := k.modifyFile f0 fun fl => { fl with type := .pipe pg, readable := true, writable := false }
        let k := k.modifyFile f1 fun fl => { fl with type := .pipe pg, readable := false, writable := true }
        .ok (some (f0, f1), k)

/-- The end of a failed `sys_pipe`: close both files. -/
def undoPipe (k : Kernel) (p : Slot) (rf wf : FileIx) : Except Panic (Int × Kernel) := do
  let k ← k.fileclose p rf
  let k ← k.fileclose p wf
  .ok (-1, k)

/-- `copyout` of both descriptors. -/
def copyFds (m : Mem) (pt : PageTable) (fdarray : Nat) (fd0 fd1 : Fin nofile) : Bool × Mem :=
  match pt.copyout m fdarray (intBytes fd0) with
  | (false, m) => (false, m)
  | (true, m) => pt.copyout m (fdarray + 4) (intBytes fd1)

def sysPipe (k : Kernel) (p : Slot) (fdarray : Nat) : Except Panic (Int × Kernel) := do
  match ← k.pipealloc p with
  | (none, k) => .ok (-1, k)
  | (some (rf, wf), k) =>
    match k.fdalloc p rf with
    | (none, k) => k.undoPipe p rf wf
    | (some fd0, k) =>
      match k.fdalloc p wf with
      | (none, k) => (k.clearFd p fd0).undoPipe p rf wf
      | (some fd1, k) =>
        match (k.proc p).pagetable with
        | none => nullDeref
        | some pt =>
          match copyFds k.mem pt fdarray fd0 fd1 with
          | (true, m) => .ok (0, { k with mem := m })
          | (false, m) => ({ k with mem := m }.clearFd p fd0 |>.clearFd p fd1).undoPipe p rf wf

/-- `chdir`, once the path has led to directory `ip`. -/
def sysChdir (k : Kernel) (p : Slot) (ip : InodeIx) : Except Panic (Int × Kernel) :=
  match (k.proc p).cwd with
  | none => nullDeref
  | some old => .ok (0, ((k.idup ip).iput old).modify p fun pr => { pr with cwd := some ip })

/-! ## What a call does

The parts of a call that returned, one existential for each. -/

variable {k k' : Kernel} {p np q : Slot}

theorem filedup_ok {f : FileIx} (h : k.filedup f = .ok k') : ∃ ft, k' = { k with ftable := ft } := by
  unfold filedup at h
  split at h
  · cases h
  · cases h; exact ⟨_, rfl⟩

theorem dupFiles_ok (h : k.dupFiles p np = .ok k') :
    ∃ ft files, k' = { k with
      ftable := ft
      proc := Function.update k.proc np { k.proc np with ofile := files } } := by
  refine Except.foldlM_invariant (P := fun k' => ∃ ft files, k' = { k with
      ftable := ft
      proc := Function.update k.proc np { k.proc np with ofile := files } }) ?_ ?_ h
  · rintro i - k₁ k₂ ⟨ft, files, rfl⟩ hbody
    unfold dupFd at hbody
    split at hbody
    · cases hbody
      exact ⟨ft, files, rfl⟩
    · rename_i f _
      obtain ⟨k₃, hdup, hbody⟩ := Except.bind_ok_iff.1 hbody
      obtain ⟨ft', rfl⟩ := filedup_ok hdup
      cases hbody
      refine ⟨ft', fun j => if j = i then some f else files j, ?_⟩
      rw [modify_eq_update]
      simp only [Function.update_self, Function.update_idem]
  · exact ⟨k.ftable, (k.proc np).ofile, by simp⟩

theorem dupCwd_ok (h : k.dupCwd p np = .ok k') :
    ∃ ir ip, (k.proc p).cwd = some ip ∧ k' = { k with
      iref := ir
      proc := Function.update k.proc np { k.proc np with cwd := some ip } } := by
  unfold dupCwd at h
  split at h
  · cases h
  · rename_i ip hip
    cases h
    exact ⟨_, ip, hip, modify_eq_update⟩

/-- `fork` got no slot, failed to copy the memory, or made the child. -/
theorem fork_ok {r : Int} (h : k.fork p = .ok (r, k')) :
    k.allocproc = .ok (none, k') ∨
    ∃ np k₁ old new m new', k.allocproc = .ok (some np, k₁) ∧
      (k₁.proc p).pagetable = some old ∧ (k₁.proc np).pagetable = some new ∧
      ((PageTable.uvmcopy k₁.mem old new (k₁.proc p).sz = .ok (false, m, new') ∧
          freeproc ({ k₁ with mem := m }.setTable np new') np = .ok k') ∨
        (PageTable.uvmcopy k₁.mem old new (k₁.proc p).sz = .ok (true, m, new') ∧
          ∃ ntf regs ft ir files cwd name, (k₁.proc np).trapframe = some ntf ∧
            k' = { k₁ with
              mem := m
              ftable := ft
              iref := ir
              proc := Function.update k₁.proc np
                { k₁.proc np with
                  pagetable := some new'
                  sz := (k₁.proc p).sz
                  trapframe := some { ntf with regs := regs }
                  ofile := files
                  cwd := cwd
                  name := name
                  parent := some p
                  state := .runnable } })) := by
  unfold fork at h
  obtain ⟨⟨o, k₁⟩, halloc, h⟩ := Except.bind_ok_iff.1 h
  split at h
  · rename_i heq
    cases heq
    cases h
    exact .inl halloc
  rename_i np k₁' heq
  cases heq
  refine .inr ?_
  split at h
  · rename_i old new tf ntf hold hnew htf hntf
    obtain ⟨⟨copied, m, new'⟩, hcopy, h⟩ := Except.bind_ok_iff.1 h
    refine ⟨np, k₁, old, new, m, new', halloc, hold, hnew, ?_⟩
    cases copied with
    | false =>
      obtain ⟨k₂, hfree, h⟩ := Except.bind_ok_iff.1 h
      cases h
      exact .inl ⟨hcopy, hfree⟩
    | true =>
      obtain ⟨k₂, hdup, h⟩ := Except.bind_ok_iff.1 h
      obtain ⟨k₃, hcwd, h⟩ := Except.bind_ok_iff.1 h
      obtain ⟨ft, files, rfl⟩ := dupFiles_ok hdup
      obtain ⟨ir, ip, -, rfl⟩ := dupCwd_ok hcwd
      obtain ⟨-, h⟩ := Prod.mk.inj (Except.ok.inj h)
      refine .inr ⟨hcopy, ntf, { tf.regs with a0 := 0 }, ft, ir, files, some ip, (k₁.proc p).name,
        hntf, h.symm.trans ?_⟩
      by_cases hp : p = np
      · subst hp; simp [modify_eq_update, setTable]
      · simp [modify_eq_update, setTable, hp]
  · cases h

theorem startThread_ok {curr start arg : Nat} (h : k.startThread p np curr start arg = .ok k') :
    ∃ ntf regs ft ir files cwd, (k.proc np).trapframe = some ntf ∧
      k' = { k with
        ftable := ft
        iref := ir
        proc := Function.update k.proc np
          { k.proc np with
            trapframe := some { ntf with regs := regs }
            ofile := files
            cwd := cwd
            isThread := true
            name := "kthread"
            parent := some p
            state := .runnable } } := by
  unfold startThread at h
  split at h
  · rename_i tf ntf htf hntf
    obtain ⟨k₂, hdup, h⟩ := Except.bind_ok_iff.1 h
    obtain ⟨k₃, hcwd, h⟩ := Except.bind_ok_iff.1 h
    obtain ⟨ft, files, rfl⟩ := dupFiles_ok hdup
    obtain ⟨ir, ip, -, rfl⟩ := dupCwd_ok hcwd
    refine ⟨ntf, { tf.regs with epc := start, sp := curr + pgSize - 8, a0 := arg, ra := 0 }, ft, ir,
      files, some ip, hntf, (Except.ok.inj h).symm.trans ?_⟩
    simp [modify_eq_update]
  · cases h

/-- `thread_create` got no slot, got no page for the stack, or started the thread. -/
theorem threadCreate_ok {start arg : Nat} {r : Int} (h : k.threadCreate p start arg = .ok (r, k')) :
    k.allocproc = .ok (none, k') ∨
    ∃ np k₁ k₂ pt npt b m npt', k.allocproc = .ok (some np, k₁) ∧
      (k₁.foundGroup p).enterGroup (k₁.leaderOf p) np = .ok k₂ ∧
      (k₂.proc p).pagetable = some pt ∧ (k₂.proc np).pagetable = some npt ∧
      PageTable.uvmshare k₂.mem pt npt (k₂.proc p).sz = .ok (b, m, npt') ∧
      ((∃ m', m.kalloc = (none, m') ∧
          leaveGroup { { k₂ with mem := m }.setTable np npt' with mem := m' } (k₁.leaderOf p) np
            = .ok k') ∨
        ∃ stack m' k₃, m.kalloc = (some stack, m') ∧
          ringLoop (k₁.leaderOf p) (mapStack (k₂.proc p).sz stack) nproc (k₁.leaderOf p)
            { { k₂ with mem := m }.setTable np npt' with mem := m'.memset stack 0 } = .ok k₃ ∧
          k₃.startThread p np (k₂.proc p).sz start arg = .ok k') := by
  unfold threadCreate at h
  obtain ⟨⟨o, k₁⟩, halloc, h⟩ := Except.bind_ok_iff.1 h
  split at h
  · rename_i heq
    cases heq
    cases h
    exact .inl halloc
  rename_i np k₁' heq
  cases heq
  refine .inr ?_
  obtain ⟨k₂, henter, h⟩ := Except.bind_ok_iff.1 h
  split at h
  · rename_i pt npt hpt hnpt
    obtain ⟨⟨b, m, npt'⟩, hshare, h⟩ := Except.bind_ok_iff.1 h
    refine ⟨np, k₁, k₂, pt, npt, b, m, npt', halloc, henter, hpt, hnpt, hshare, ?_⟩
    dsimp only [setTable, modify_mem] at h
    split at h
    · rename_i m' hk
      obtain ⟨k₃, hleave, h⟩ := Except.bind_ok_iff.1 h
      cases h
      exact .inl ⟨m', hk, hleave⟩
    · rename_i stack m' hk
      obtain ⟨k₃, hloop, h⟩ := Except.bind_ok_iff.1 h
      obtain ⟨k₄, hstart, h⟩ := Except.bind_ok_iff.1 h
      cases h
      exact .inr ⟨stack, m', k₃, hk, hloop, hstart⟩
  · cases h

/-! Copying bytes out to user space touches the contents of pages only. -/

theorem copyoutLoop_frame {pt : PageTable} {fuel va : Nat} {src : List UInt8} {m m' : Mem} {b : Bool}
    (h : PageTable.copyoutLoop pt fuel m va src = (b, m')) :
    m'.kend = m.kend ∧ m'.freelist = m.freelist ∧ m'.refcount = m.refcount := by
  induction fuel generalizing m va src with
  | zero => cases h; exact ⟨rfl, rfl, rfl⟩
  | succ fuel ih =>
    rw [PageTable.copyoutLoop] at h
    split at h
    · cases h; exact ⟨rfl, rfl, rfl⟩
    · dsimp only at h
      split at h
      · cases h; exact ⟨rfl, rfl, rfl⟩
      · simpa using ih h

theorem copyout_frame {pt : PageTable} {va : Nat} {src : List UInt8} {m m' : Mem} {b : Bool}
    (h : pt.copyout m va src = (b, m')) :
    m'.kend = m.kend ∧ m'.freelist = m.freelist ∧ m'.refcount = m.refcount :=
  copyoutLoop_frame h

theorem copyStatus_ok {pp : Slot} {addr : Nat} {b : Bool} (h : k.copyStatus p pp addr = .ok (b, k')) :
    ∃ m, k' = { k with mem := m } ∧ m.kend = k.mem.kend ∧ m.freelist = k.mem.freelist ∧
      m.refcount = k.mem.refcount := by
  unfold copyStatus at h
  split at h
  · cases h
    exact ⟨k.mem, rfl, rfl, rfl, rfl⟩
  · split at h
    · cases h
    · rename_i pt hpt
      rcases hc : PageTable.copyout k.mem pt addr (intBytes (k.proc pp).xstate) with ⟨b', m⟩
      rw [hc] at h
      cases h
      exact ⟨m, rfl, copyout_frame hc⟩

/-- `wait` reaped a child, failed, or went to sleep. -/
theorem wait_ok {addr : Nat} {r : Option Int} (h : k.wait p addr = .ok (r, k')) :
    k' = k ∨ k' = k.sleep p (.proc p) (.wait addr) ∨
    ∃ pp b m, k.findZombie p = some pp ∧ k.copyStatus p pp addr = .ok (b, { k with mem := m }) ∧
      m.kend = k.mem.kend ∧ m.freelist = k.mem.freelist ∧ m.refcount = k.mem.refcount ∧
      (k' = { k with mem := m } ∨ b = true ∧ freeproc { k with mem := m } pp = .ok k') := by
  unfold wait at h
  split at h
  · rename_i pp hfind
    obtain ⟨⟨b, k₁⟩, hcopy, h⟩ := Except.bind_ok_iff.1 h
    obtain ⟨m, rfl, hkend, hfree, href⟩ := copyStatus_ok hcopy
    dsimp only at h
    refine .inr (.inr ⟨pp, b, m, hfind, hcopy, hkend, hfree, href, ?_⟩)
    split at h
    · cases h
      exact .inl rfl
    · rename_i hb
      obtain ⟨k₂, hfreeproc, h⟩ := Except.bind_ok_iff.1 h
      cases h
      exact .inr ⟨by simpa using hb, hfreeproc⟩
  · split at h
    · cases h
      exact .inl rfl
    · cases h
      exact .inr (.inl rfl)

theorem findZombie_spec {pp : Slot} (h : k.findZombie p = some pp) :
    (k.proc pp).parent = some p ∧ (k.proc pp).state = .zombie := by
  simpa using List.find?_some h

end Kernel

end Xv6
