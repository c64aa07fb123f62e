-- SUMMARY: The kernel as a transition system: boot, the events between system calls, and replay of concrete runs.
import Xv6Threads.Base.Transition
import Xv6Threads.Process.Exec

/-!
# The system

Processes run one system call at a time, in any order. An event is one
scheduling decision, one trap or one whole call; `step` says what it does, or
how the kernel stops. A run goes on as long as the kernel does not stop.

A process that has been killed makes no further call: `usertrap` sends it to
`exit(-1)`.
-/

namespace Xv6

/-- The calls a process can make. -/
inductive Call where
  | fork
  | exec (path : String) (file : Option Image) (argv : List (List UInt8))
  | sbrk (n : Int32)
  | threadCreate (start arg : Nat)
  | threadExit
  | threadJoin (tid : Int)
  | exit (status : Int)
  | wait (addr : Nat)
  | kill (pid : Int)
  | open (ip : InodeIx) (device readable writable : Bool)
  | dup (fd : Int)
  | close (fd : Int)
  | pipe (fdarray : Nat)
  | chdir (ip : InodeIx)
  deriving DecidableEq

/-- What happens between two observations of the system. -/
inductive Event where
  /-- the scheduler switches to `p` -/
  | schedule (p : Slot)
  /-- a timer interrupt takes the CPU from `p` -/
  | yield (p : Slot)
  | call (p : Slot) (c : Call)
  /-- `p` blocks in a call that is not modelled here (a read, a sleep) -/
  | block (p : Slot) (n : Nat)
  /-- such a block ends -/
  | unblock (n : Nat)
  /-- an unexpected trap from user space -/
  | fault (p : Slot)
  /-- `usertrap` finds `p` killed -/
  | die (p : Slot)
  deriving DecidableEq

namespace Kernel

/-- The result of a call that always returns. -/
def returns (r : Except Panic (Int × Kernel)) : Except Panic (Option Int × Kernel) := do
  let (v, k) ← r
  .ok (some v, k)

/-- The result of a call that never returns. -/
def noReturn (r : Except Panic Kernel) : Except Panic (Option Int × Kernel) := do
  let k ← r
  .ok (none, k)

theorem returns_ok {x : Except Panic (Int × Kernel)} {r : Option Int} {k' : Kernel}
    (h : returns x = .ok (r, k')) : ∃ v, x = .ok (v, k') := by
  obtain ⟨⟨v, k₁⟩, hx, hr⟩ := Except.bind_ok_iff.1 h
  cases hr
  exact ⟨v, hx⟩

theorem noReturn_ok {x : Except Panic Kernel} {r : Option Int} {k' : Kernel}
    (h : noReturn x = .ok (r, k')) : x = .ok k' := by
  obtain ⟨k₁, hx, hr⟩ := Except.bind_ok_iff.1 h
  cases hr
  exact hx

/-- `syscall`. -/
def syscall (k : Kernel) (p : Slot) : Call → Except Panic (Option Int × Kernel)
  | .fork => returns (k.fork p)
  | .exec path file argv => returns (k.exec p path file argv)
  | .sbrk n => returns (k.sbrk p n.toInt)
  | .threadCreate start arg => returns (k.threadCreate p start arg)
  | .threadExit => noReturn (k.threadExit p)
  | .threadJoin tid => k.threadJoin p tid
  | .exit status => noReturn (k.exit p status)
  | .wait addr => k.wait p addr
  | .kill pid => .ok ((k.kill pid).map some id)
  | .open ip device readable writable => returns (k.sysOpen p ip device readable writable)
  | .dup fd => returns (k.sysDup p fd)
  | .close fd => returns (k.sysClose p fd)
  | .pipe fdarray => returns (k.sysPipe p fdarray)
  | .chdir ip => returns (k.sysChdir p ip)

/-- The switch to `p`: it continues in user space, or in the call it sleeps in. -/
def resume (k : Kernel) (p : Slot) : Except Panic (Option Int × Kernel) :=
  let at_ := (k.proc p).resume
  let k := k.modify p fun pr => { pr with state := .running, chan := none, resume := .user }
  match at_ with
  | .user => .ok (none, k)
  | .call => .ok (none, k)
  | .wait addr => k.wait p addr
  | .join tid => k.threadJoin p tid

/-- When an event can happen. -/
def enabled (k : Kernel) : Event → Bool
  | .schedule p => (k.proc p).state = .runnable
  | .yield p => (k.proc p).state = .running
  | .call p _ => (k.proc p).state = .running ∧ (k.proc p).killed = false
  | .block p _ => (k.proc p).state = .running
  | .unblock _ => true
  | .fault p => (k.proc p).state = .running
  | .die p => (k.proc p).state = .running ∧ (k.proc p).killed = true

/-- What an event does. -/
def step (k : Kernel) : Event → Except Panic (Option Int × Kernel)
  | .schedule p => k.resume p
  | .yield p => .ok (none, k.modify p fun pr => { pr with state := .runnable })
  | .call p c => k.syscall p c
  | .block p n => .ok (none, k.sleep p (.other n) .call)
  | .unblock n => .ok (none, k.wakeup none (.other n))
  | .fault p => .ok (none, k.setkilled p)
  | .die p => noReturn (k.exit p (-1))

/-- The state after an event that happens. -/
def after (k : Kernel) (e : Event) : Option Kernel := if k.enabled e then (k.step e).toOption.map Prod.snd else none

end Kernel

/-! ## Boot -/

/-- What the boot sequence is given: `kend` is the first page after the kernel
image, `taken` the number of pages that `kvminit` (the kernel's page table and
the kernel stacks) and `virtio_disk_init` take before the first process is
made, `root` the inode entry of the root directory. -/
structure Boot where
  kend : Ppn
  taken : Nat
  tramp : Ppn
  root : InodeIx
  tramp_lt : tramp < kend
  kend_le : kend ≤ physTop

namespace Boot

variable (b : Boot)

/-- The pages kept by the kernel itself. -/
def kernelPages : List Ppn := (Mem.kinit b.kend).take b.taken

/-- The pages left for processes. -/
def pool : List Ppn := (Mem.kinit b.kend).drop b.taken

/-- The state in which `userinit` is called. -/
def procinit : Kernel where
  mem := { kend := b.kend, freelist := b.pool, refcount := fun _ => 0, data := fun _ _ => 0 }
  tramp := b.tramp
  proc := fun _ => .zero
  nextpid := 1
  initproc := ⟨0, by decide⟩
  ftable := fun _ => ⟨0, .none, false, false⟩
  pipes := []
  iref := fun _ => 0

/-- The state in which the scheduler starts. -/
def main : Except Panic Kernel := b.procinit.userinit b.root

end Boot

/-- The kernel as a transition system. -/
def system (b : Boot) : Lts Kernel Event where
  init k := b.main = .ok k
  step k e k' := k.enabled e = true ∧ ∃ r, k.step e = .ok (r, k')

/-- No condition on the steps. -/
def anyStep : Kernel → Event → Prop := fun _ _ => True

instance (k : Kernel) (e : Event) : Decidable (anyStep k e) := inferInstanceAs (Decidable True)

/-- Every state of every run. -/
def Reachable (b : Boot) (k : Kernel) : Prop := (system b).Reaches anyStep k

/-! ## Concrete runs -/

section

variable {b : Boot} {G : Kernel → Event → Prop} [∀ k e, Decidable (G k e)] {k k' : Kernel}
  {es : List Event}

theorem step_of_after {e : Event} (h : k.after e = some k') : (system b).step k e k' := by
  rw [Kernel.after] at h
  split_ifs at h with hen
  obtain ⟨⟨r, k₁⟩, hstep, rfl⟩ := Option.map_eq_some_iff.1 h
  exact ⟨hen, r, Except.toOption_eq_some_iff.1 hstep⟩

/-- Boot and run. -/
def Boot.run (b : Boot) (G : Kernel → Event → Prop) [∀ k e, Decidable (G k e)] (es : List Event) :
    Option Kernel :=
  b.main.toOption.bind fun k => Lts.replay Kernel.after G k es

theorem reaches_of_run (h : b.run G es = some k) : (system b).Reaches G k := by
  obtain ⟨k₀, hk₀, hrun⟩ := Option.bind_eq_some_iff.1 h
  exact .of_replay (fun _ _ _ => step_of_after) (.init (Except.toOption_eq_some_iff.1 hk₀)) hrun

/-- A run whose last state passes a test. -/
theorem exists_reaches_of_run {c : Kernel → Bool} (h : (b.run G es).any c = true) :
    ∃ k, (system b).Reaches G k ∧ c k = true := by
  obtain ⟨k, hk, hc⟩ := (Option.any_eq_true _ _).1 h
  exact ⟨k, reaches_of_run hk, hc⟩

end

section

variable {η : Type} {b : Boot} {record : Kernel → Event → η → η} {G : Kernel × η → Event → Prop}
  [∀ s e, Decidable (G s e)] {es : List Event}

/-- Boot and run, beside a history. -/
def Boot.runWith (b : Boot) (record : Kernel → Event → η → η) (G : Kernel × η → Event → Prop)
    [∀ s e, Decidable (G s e)] (h₀ : η) (es : List Event) : Option (Kernel × η) :=
  b.main.toOption.bind fun k => Lts.replay (Lts.recorded Kernel.after record) G (k, h₀) es

/-- A run whose last state and history pass a test. -/
theorem exists_reaches_of_runWith {h₀ : η} {c : Kernel × η → Bool} (hrun : (b.runWith record G h₀ es).any c = true) :
    ∃ s, ((system b).withHistory h₀ record).Reaches G s ∧ c s = true := by
  obtain ⟨s, hs, hc⟩ := (Option.any_eq_true _ _).1 hrun
  obtain ⟨k₀, hk₀, hrun⟩ := Option.bind_eq_some_iff.1 hs
  refine ⟨s, ?_, hc⟩
  exact .of_replay (fun _ _ _ => Lts.step_of_recorded fun _ _ _ => step_of_after)
    (.init ⟨Except.toOption_eq_some_iff.1 hk₀, rfl⟩) hrun

end

/-- Sizes as the linked kernel has them: the image ends at page `0x80022`, and
booting takes 139 pages before the first process is made. -/
def Boot.standard : Boot where
  kend := 0x80022
  taken := 139
  tramp := 0x80008
  root := ⟨0, by decide⟩
  tramp_lt := by decide
  kend_le := by decide

/-- A machine on which `n` pages are left for processes. -/
def Boot.tight (n : Fin 1000) : Boot where
  kend := physTop - (139 + n)
  taken := 139
  tramp := 0x80008
  root := ⟨0, by decide⟩
  tramp_lt := by
    have hn : (n : Nat) < 1000 := n.isLt
    change 0x80008 < 0x88000 - (139 + (n : Nat))
    omega
  kend_le := Nat.sub_le _ _

/-! ## The first state -/

theorem Kernel.userinit_ok {k k' : Kernel} {root : InodeIx} (h : k.userinit root = .ok k') :
    ∃ p k₁ pt tf f m b m' pt', k.allocproc = .ok (some p, k₁) ∧
      (k₁.proc p).pagetable = some pt ∧ (k₁.proc p).trapframe = some tf ∧
      k₁.mem.kalloc = (some f, m) ∧
      PageTable.mappages (m.memset f 0) pt 0 pgSize f ⟨true, true, true, true⟩ = .ok (b, m', pt') ∧
      ∃ ir regs, k' = { k₁ with
        mem := m'
        initproc := p
        iref := ir
        proc := Function.update k₁.proc p
          { k₁.proc p with
            pagetable := some pt'
            sz := pgSize
            trapframe := some { tf with regs := regs }
            name := "initcode"
            cwd := some root
            state := .runnable } } := by
  unfold userinit at h
  obtain ⟨⟨o, k₁⟩, halloc, h⟩ := Except.bind_ok_iff.1 h
  split at h
  · cases h
  rename_i p k₁' heq
  cases heq
  split at h
  · rename_i pt tf hpt htf
    split at h
    · cases h
    · rename_i f m hk
      obtain ⟨⟨b, m', pt'⟩, hmap, h⟩ := Except.bind_ok_iff.1 h
      refine ⟨p, k₁, pt, tf, f, m, b, m', pt', halloc, hpt, htf, hk, hmap, _,
        { tf.regs with epc := 0, sp := pgSize }, (Except.ok.inj h).symm.trans modify_eq_update⟩
  · cases h

end Xv6
