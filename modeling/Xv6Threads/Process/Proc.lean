-- SUMMARY: The process table and the kernel state built on it, with sleep, wakeup and the open-file table.
import Mathlib.Logic.Function.Basic
import Xv6Threads.Memory.Vm

/-!
# Processes

`struct proc`, the tables of the kernel that system calls work on, and the
small operations on them: `wakeup`, `sleep`, `filedup`, `fileclose`.

System calls are run one at a time, so the spin locks do not appear here. A
process that has to wait inside a call keeps, in `resume`, what its kernel
stack would hold: the point at which the call continues when the scheduler
picks it again.
-/

namespace Xv6

/-- `NPROC`. -/
def nproc : Nat := 64
/-- `NOFILE`. -/
def nofile : Nat := 16
/-- `NFILE`. -/
def nfile : Nat := 100
/-- `NINODE`. -/
def ninode : Nat := 50

/-- A slot of the process table; `struct proc *` is `Option Slot`. -/
abbrev Slot := Fin nproc

instance : LawfulBEq Slot := inferInstance

/-- `struct file *`. -/
abbrev FileIx := Fin nfile
/-- `struct inode *`. -/
abbrev InodeIx := Fin ninode

inductive ProcState where
  | unused | used | sleeping | runnable | running | zombie | ghost
  deriving DecidableEq, Repr

/-- The value of the enumeration that `getstatus` returns. -/
def ProcState.code : ProcState → Int
  | .unused => 0
  | .used => 1
  | .sleeping => 2
  | .runnable => 3
  | .running => 4
  | .zombie => 5
  | .ghost => 6

/-- What a process can sleep on: `wait` and `thread_join` use the slot of the
caller, a pipe has a channel for each end. -/
inductive Chan where
  | proc (p : Slot)
  | pipeRead (pg : Ppn)
  | pipeWrite (pg : Ppn)
  | other (n : Nat)
  deriving DecidableEq, Repr

/-- Where the kernel thread of a process continues. -/
inductive Resume where
  | user
  | wait (addr : Nat)
  | join (tid : Int)
  | call
  deriving DecidableEq, Repr

/-- The saved user registers; `rest` holds the ones no kernel routine names. -/
structure Regs where
  epc : Nat
  sp : Nat
  ra : Nat
  a0 : Nat
  a1 : Nat
  rest : Nat → Nat

/-- A trapframe and the page it is stored in. -/
structure Trapframe where
  page : Ppn
  regs : Regs

/-- What `kalloc` leaves in a page: every byte is `5`. -/
def Regs.junk : Regs :=
  let j := 0x0505050505050505
  ⟨j, j, j, j, j, fun _ => j⟩

structure Proc where
  state : ProcState
  chan : Option Chan
  killed : Bool
  xstate : Int
  pid : Int
  parent : Option Slot
  sz : Nat
  pagetable : Option PageTable
  trapframe : Option Trapframe
  resume : Resume
  ofile : Fin nofile → Option FileIx
  cwd : Option InodeIx
  name : String
  isThread : Bool
  tid : Int
  groupLeader : Option Slot
  groupNext : Option Slot
  groupPrev : Option Slot
  numChildren : Int
  refCount : Int

/-- A slot as the loader leaves it: static memory is zero. -/
def Proc.zero : Proc where
  state := .unused
  chan := none
  killed := false
  xstate := 0
  pid := 0
  parent := none
  sz := 0
  pagetable := none
  trapframe := none
  resume := .user
  ofile := fun _ => none
  cwd := none
  name := ""
  isThread := false
  tid := 0
  groupLeader := none
  groupNext := none
  groupPrev := none
  numChildren := 0
  refCount := 0

inductive FileType where
  | none
  | pipe (pg : Ppn)
  | inode (ip : InodeIx)
  | device (ip : InodeIx)
  deriving DecidableEq, Repr

structure File where
  ref : Int
  type : FileType
  readable : Bool
  writable : Bool
  deriving DecidableEq, Repr

/-- A pipe and the page it is stored in. -/
structure Pipe where
  page : Ppn
  readopen : Bool
  writeopen : Bool
  deriving DecidableEq, Repr

/-- Close the writing or the reading end. -/
def Pipe.close (pi : Pipe) (writable : Bool) : Pipe :=
  if writable then { pi with writeopen := false } else { pi with readopen := false }

def Pipe.isClosed (pi : Pipe) : Bool := !pi.readopen && !pi.writeopen

/-- The state system calls work on. `tramp` is the page of the trampoline code,
`iref` the reference counts of the in-memory inodes. -/
structure Kernel where
  mem : Mem
  tramp : Ppn
  proc : Slot → Proc
  nextpid : Int
  initproc : Slot
  ftable : FileIx → File
  pipes : List Pipe
  iref : InodeIx → Int

namespace Kernel

/-- Update one slot. -/
def modify (k : Kernel) (p : Slot) (f : Proc → Proc) : Kernel :=
  { k with proc := fun q => if q = p then f (k.proc q) else k.proc q }

section Projections

variable (k : Kernel) (p q : Slot) (f : Proc → Proc)

@[simp] theorem modify_mem : (k.modify p f).mem = k.mem := rfl
@[simp] theorem modify_tramp : (k.modify p f).tramp = k.tramp := rfl
@[simp] theorem modify_nextpid : (k.modify p f).nextpid = k.nextpid := rfl
@[simp] theorem modify_initproc : (k.modify p f).initproc = k.initproc := rfl
@[simp] theorem modify_ftable : (k.modify p f).ftable = k.ftable := rfl
@[simp] theorem modify_pipes : (k.modify p f).pipes = k.pipes := rfl
@[simp] theorem modify_iref : (k.modify p f).iref = k.iref := rfl
@[simp] theorem modify_proc_same : (k.modify p f).proc p = f (k.proc p) := by simp [modify]

variable {k p q f}

theorem modify_proc_ne (h : q ≠ p) : (k.modify p f).proc q = k.proc q := by simp [modify, h]

theorem modify_proc : (k.modify p f).proc q = if q = p then f (k.proc q) else k.proc q := rfl

theorem modify_eq_update : k.modify p f = { k with proc := Function.update k.proc p (f (k.proc p)) } := by
  simp only [modify, mk.injEq, true_and, and_true]
  funext q
  by_cases h : q = p
  · subst h; simp
  · simp [h]

end Projections

/-- `wakeup(chan)` called by the process in slot `me`, which it skips. -/
def wakeup (k : Kernel) (me : Option Slot) (chan : Chan) : Kernel :=
  { k with
    proc := fun q =>
      if some q ≠ me ∧ (k.proc q).state = .sleeping ∧ (k.proc q).chan = some chan then
        { k.proc q with state := .runnable }
      else k.proc q }

/-- `sleep(chan, lk)`, up to the switch to the scheduler. -/
def sleep (k : Kernel) (p : Slot) (chan : Chan) (resume : Resume) : Kernel :=
  k.modify p fun pr => { pr with chan := some chan, state := .sleeping, resume := resume }

/-! ## Open files -/

def modifyFile (k : Kernel) (f : FileIx) (g : File → File) : Kernel :=
  { k with ftable := fun f' => if f' = f then g (k.ftable f') else k.ftable f' }

def idup (k : Kernel) (ip : InodeIx) : Kernel :=
  { k with iref := fun i => if i = ip then k.iref i + 1 else k.iref i }

/-- `iput`, as far as the reference is concerned. -/
def iput (k : Kernel) (ip : InodeIx) : Kernel :=
  { k with iref := fun i => if i = ip then k.iref i - 1 else k.iref i }

/-- `filealloc`: an entry that is not in use, with one reference. -/
def filealloc (k : Kernel) : Option FileIx × Kernel :=
  match (List.finRange nfile).find? fun f => (k.ftable f).ref = 0 with
  | none => (none, k)
  | some f => (some f, k.modifyFile f fun fl => { fl with ref := 1 })

def filedup (k : Kernel) (f : FileIx) : Except Panic Kernel :=
  if (k.ftable f).ref < 1 then stop "filedup"
  else .ok (k.modifyFile f fun fl => { fl with ref := fl.ref + 1 })

/-- `pipeclose`: the page is freed when both ends are closed. -/
def pipeclose (k : Kernel) (me : Slot) (pg : Ppn) (writable : Bool) : Except Panic Kernel :=
  let k := k.wakeup (some me) (if writable then .pipeRead pg else .pipeWrite pg)
  match k.pipes.find? fun pi => pi.page = pg with
  | none => .ok k
  | some pi =>
    if (pi.close writable).isClosed then do
      let m ← k.mem.kfree pg
      .ok { k with mem := m, pipes := k.pipes.eraseP fun pi => pi.page = pg }
    else .ok { k with pipes := k.pipes.map fun pi => if pi.page = pg then pi.close writable else pi }

def fileclose (k : Kernel) (me : Slot) (f : FileIx) : Except Panic Kernel :=
  let ff := k.ftable f
  if ff.ref < 1 then stop "fileclose"
  else if 0 < ff.ref - 1 then .ok (k.modifyFile f fun fl => { fl with ref := fl.ref - 1 })
  else
    let k := k.modifyFile f fun fl => { fl with ref := 0, type := .none }
    match ff.type with
    | .pipe pg => k.pipeclose me pg ff.writable
    | .inode ip => .ok (k.iput ip)
    | .device ip => .ok (k.iput ip)
    | .none => .ok k

/-- `fdalloc`: the first free descriptor of `p` is given `f`. -/
def fdalloc (k : Kernel) (p : Slot) (f : FileIx) : Option (Fin nofile) × Kernel :=
  match (List.finRange nofile).find? fun fd => (k.proc p).ofile fd = none with
  | none => (none, k)
  | some fd =>
    (some fd, k.modify p fun pr =>
      { pr with ofile := fun i => if i = fd then some f else pr.ofile i })

end Kernel

end Xv6
