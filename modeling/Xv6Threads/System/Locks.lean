-- SUMMARY: Termination and reaping split at their lock operations: program counters, who holds which lock, and the interleaved machine.
import Xv6Threads.Process.Still

/-!
# Termination and reaping, section by section

`wait`, `thread_join`, `exit` and `thread_exit` run here as sequences of
sections between lock operations, and the sections of different processes
interleave freely. A process is at a program counter; which of `wait_lock` and
its own `p->lock` it holds can be read off it. The other calls are events of
`Kernel.step` as before.

`exit` and `thread_exit` take `p->lock` first and keep it until the switch to
the scheduler, which releases it. `wait` and `thread_join` scan the table with
`wait_lock` held, and take the lock of each child they look at.
-/

namespace Xv6

/-- The call a process waits in. -/
inductive Await where
  | wait (addr : Nat)
  | join (tid : Int)
  deriving DecidableEq

/-- What the kernel stack of the sleeper says. -/
def Await.resume : Await → Resume
  | .wait addr => .wait addr
  | .join tid => .join tid

/-- Where a process is. -/
inductive Pc where
  /-- outside the calls below -/
  | user
  /-- about to take `wait_lock` -/
  | enter (a : Await)
  /-- in the scan, at slot `i` -/
  | scan (a : Await) (i : Nat) (havekids : Bool)
  /-- in `sleep`, with both locks -/
  | doze (a : Await)
  /-- in `sleep`, after `release(lk)` -/
  | unlocked (a : Await)
  /-- switched away in `sleep` -/
  | asleep (a : Await)
  /-- in `exit`, before `reparent` -/
  | exit (status : Int)
  /-- in `reparent`, at slot `i` -/
  | reparent (status : Int) (i : Nat)
  /-- in `wakeup(target)` for the child in slot `i`, at slot `j` -/
  | handed (status : Int) (i : Nat) (target : Slot) (j : Nat)
  /-- in `exit`, after `reparent` -/
  | parted (status : Int)
  /-- in `thread_exit`, before it takes the lock of the leader -/
  | threadExit
  /-- marked `ZOMBIE`, about to take `wait_lock` -/
  | zombie
  /-- in `wakeup(p->parent)`, at slot `j` -/
  | waking (target : Slot) (j : Nat)
  /-- past the last release of `wait_lock` -/
  | gone
  /-- switched away for ever -/
  | left
  deriving DecidableEq

namespace Pc

/-- `wait_lock` is held. -/
def holdsWait : Pc → Bool
  | scan .. | doze _ | reparent .. | handed .. | waking .. => true
  | _ => false

/-- `p->lock` is held. -/
def holdsOwn : Pc → Bool
  | doze _ | unlocked _ | exit _ | reparent .. | handed .. | parted _ | threadExit | zombie | waking ..
  | gone => true
  | _ => false

/-- Inside the section of `exit` that runs `reparent`. -/
def inReparent : Pc → Bool
  | reparent .. | handed .. => true
  | _ => false

/-- `exit` or `thread_exit` has released `wait_lock` for the last time. -/
def isPast : Pc → Bool
  | gone | left => true
  | _ => false

/-- Neither asleep nor on the way there, nor done, nor with `wait_lock`. -/
def isPlain : Pc → Bool
  | user | enter _ | exit _ | parted _ | threadExit | zombie => true
  | _ => false

/-- Where a process goes on when the scheduler switches to it. -/
def resumed : Pc → Pc
  | asleep a => enter a
  | pc => pc

end Pc

/-- The kernel with the program counters of its processes. -/
structure Machine where
  k : Kernel
  pc : Slot → Pc

namespace Kernel

/-- `c` is a child that the call of `p` looks for. -/
def awaited (k : Kernel) (p : Slot) : Await → Slot → Bool
  | .wait _, c => (k.proc c).parent = some p
  | .join tid, c => k.isChildThread p tid c

/-- What `wait` or `thread_join` does with a zombie it has found. -/
def reap (k : Kernel) (p c : Slot) : Await → Except Panic Kernel
  | .wait addr => do
    let (copied, k) ← k.copyStatus p c addr
    if !copied then .ok k else k.freeproc c
  | .join _ => k.freeproc c

/-- The body of the loop of `wakeup` at slot `q`. -/
def wakeSlot (k : Kernel) (q : Slot) (chan : Chan) : Kernel :=
  k.modify q fun pr =>
    if pr.state = .sleeping ∧ pr.chan = some chan then { pr with state := .runnable } else pr

/-- `exit` up to `reparent`: files and directory. -/
def closeAll (k : Kernel) (p : Slot) : Except Panic Kernel := do
  let k ← k.closeFiles p
  .ok (k.dropCwd p)

/-- `exit` between its two sections of `wait_lock`. -/
def bury (k : Kernel) (p : Slot) (status : Int) : Except Panic Kernel := do
  let k ← k.dropTable p
  .ok (k.modify p fun pr => { pr with xstate := status, state := .zombie })

/-- `thread_exit` up to `wait_lock`. -/
def buryThread (k : Kernel) (p : Slot) : Kernel :=
  (k.dropRef (k.leaderOf p)).modify p fun pr => { pr with xstate := 0, state := .zombie }

end Kernel

/-- What one process does next, or the scheduler. -/
inductive Act where
  /-- an event of the kernel that is none of the following -/
  | event (e : Event)
  /-- the scheduler switches to `p` -/
  | schedule (p : Slot)
  /-- `p` calls `wait` or `thread_join` -/
  | await (p : Slot) (a : Await)
  /-- `p` calls `exit`, or `thread_exit` with status `-1` -/
  | exit (p : Slot) (status : Int)
  /-- `p` goes on to its next lock operation -/
  | advance (p : Slot)

/-- The process that brings an event about. -/
def Event.actor : Event → Option Slot
  | .schedule p | .yield p | .call p _ | .block p _ | .fault p | .die p => some p
  | .unblock _ => none

/-- Events that are taken whole: all but the calls that are split here. -/
def Event.isWhole : Event → Bool
  | .schedule _ | .die _ => false
  | .call _ .threadExit | .call _ (.threadJoin _) | .call _ (.exit _) | .call _ (.wait _) => false
  | _ => true

/-- Events that take `wait_lock` on the way. -/
def Event.takesWaitLock : Event → Bool
  | .call _ .fork => true
  | _ => false

namespace Machine

/-- Nobody holds `wait_lock`. -/
def waitFree (m : Machine) : Bool := decide (∀ p, (m.pc p).holdsWait = false)

/-- The process in slot `q` holds its own lock. -/
def locked (m : Machine) (q : Slot) : Bool := (m.pc q).holdsOwn

/-- `p` goes to `pc`, with kernel state `k`. -/
def goto (m : Machine) (p : Slot) (pc : Pc) (k : Kernel) : Machine :=
  ⟨k, Function.update m.pc p pc⟩

/-- One round of the scan of `wait` and `thread_join`, or its end. -/
def scanAt (m : Machine) (p : Slot) (a : Await) (i : Nat) (havekids : Bool) :
    Except Panic (Option Machine) :=
  if h : i < nproc then
    let c : Slot := ⟨i, h⟩
    if m.k.awaited p a c then
      if m.locked c then .ok none
      else if (m.k.proc c).state = .zombie then do
        let k ← m.k.reap p c a
        .ok (some (m.goto p .user k))
      else .ok (some (m.goto p (.scan a (i + 1) true) m.k))
    else .ok (some (m.goto p (.scan a (i + 1) havekids) m.k))
  else if !havekids || (m.k.proc p).killed then .ok (some (m.goto p .user m.k))
  else .ok (some (m.goto p (.doze a) m.k))

/-- One round of the loop of `wakeup(target)`, or its end. -/
def wakeAt (m : Machine) (p target : Slot) (j : Nat) (next done : Pc) : Option Machine :=
  if h : j < nproc then
    let q : Slot := ⟨j, h⟩
    if q = p then some (m.goto p next m.k)
    else if m.locked q then none
    else some (m.goto p next (m.k.wakeSlot q (.proc target)))
  else some (m.goto p done m.k)

/-- One round of the loop of `reparent`, or its end. -/
def reparentAt (m : Machine) (p : Slot) (status : Int) (i : Nat) : Machine :=
  if h : i < nproc then
    let c : Slot := ⟨i, h⟩
    if (m.k.proc c).parent = some p then
      m.goto p (.handed status i m.k.initproc 0)
        (m.k.modify c fun pr => { pr with parent := some m.k.initproc })
    else m.goto p (.reparent status (i + 1)) m.k
  else m.goto p (.parted status) m.k

/-- The next section of `p`; `none` while it spins for a lock. -/
def advance (m : Machine) (p : Slot) : Except Panic (Option Machine) :=
  match m.pc p with
  | .user | .asleep _ | .left => .ok none
  | .enter a =>
    -- a process that was preempted here has to be scheduled first
    .ok (if m.waitFree ∧ (m.k.proc p).state ≠ .runnable then some (m.goto p (.scan a 0 false) m.k)
      else none)
  | .scan a i havekids => m.scanAt p a i havekids
  | .doze a => .ok (some (m.goto p (.unlocked a) m.k))
  | .unlocked a => .ok (some (m.goto p (.asleep a) (m.k.sleep p (.proc p) a.resume)))
  | .exit status => .ok (if m.waitFree then some (m.goto p (.reparent status 0) m.k) else none)
  | .reparent status i => .ok (some (m.reparentAt p status i))
  | .handed status i target j =>
    .ok (m.wakeAt p target j (.handed status i target (j + 1)) (.reparent status (i + 1)))
  | .parted status => do
    let k ← m.k.bury p status
    .ok (some (m.goto p .zombie k))
  | .threadExit =>
    -- the lock of the leader is taken only when it is another slot
    .ok (if m.k.leaderOf p ≠ p ∧ m.locked (m.k.leaderOf p) then none
      else some (m.goto p .zombie (m.k.buryThread p)))
  | .zombie =>
    .ok (if m.waitFree then
        match (m.k.proc p).parent with
        | none => some (m.goto p .gone m.k)
        | some target => some (m.goto p (.waking target 0) m.k)
      else none)
  | .waking target j => .ok (m.wakeAt p target j (.waking target (j + 1)) .gone)
  | .gone => .ok (some (m.goto p .left m.k))

/-- The start of `exit` or `thread_exit`: `acquire(&p->lock)`, and what follows
up to the next lock. -/
def startExit (m : Machine) (p : Slot) (status : Int) : Except Panic Machine :=
  if (m.k.proc p).isThread then .ok (m.goto p .threadExit m.k)
  else do
    let k ← m.k.closeAll p
    .ok (m.goto p (.exit status) k)

/-- The switch to `p`. -/
def switchTo (m : Machine) (p : Slot) : Machine :=
  m.goto p (m.pc p).resumed
    (m.k.modify p fun pr => { pr with state := .running, chan := none, resume := .user })

/-- After an event: a slot that was given to a new process starts afresh. -/
def after (m : Machine) (k : Kernel) : Machine :=
  ⟨k, fun q =>
    if (m.k.proc q).state = .unused ∧ (k.proc q).state ≠ .unused then .user else m.pc q⟩

/-- When a process is where it can take part in an event: in user space, or,
for a timer interrupt, where it holds no lock in the kernel. -/
def mayStart (m : Machine) : Event → Bool
  | .yield p => decide (m.pc p = .user) || (match m.pc p with | .enter _ => true | _ => false)
  | e => e.actor.all fun p => decide (m.pc p = .user)

/-- What an event may not touch: the fields that `p->lock` protects, in a slot
whose lock is held. -/
def Respects (m : Machine) (k : Kernel) : Prop :=
  ∀ q, m.locked q = true →
    (k.proc q).state = (m.k.proc q).state ∧ (k.proc q).chan = (m.k.proc q).chan ∧
    (k.proc q).killed = (m.k.proc q).killed ∧ (k.proc q).xstate = (m.k.proc q).xstate ∧
    (k.proc q).pid = (m.k.proc q).pid

instance (m : Machine) (k : Kernel) : Decidable (m.Respects k) :=
  inferInstanceAs (Decidable (∀ _, _ → _))

/-- What an act does; `none` when it cannot happen now. -/
def act (m : Machine) : Act → Except Panic (Option Machine)
  | .event e =>
    if e.isWhole ∧ m.mayStart e ∧ m.k.enabled e ∧ (e.takesWaitLock → m.waitFree) then do
      let (_, k) ← m.k.step e
      .ok (if m.Respects k then some (m.after k) else none)
    else .ok none
  | .schedule p =>
    .ok (if (m.k.proc p).state = .runnable ∧ m.locked p = false then some (m.switchTo p) else none)
  | .await p a =>
    .ok (if (m.k.proc p).state = .running ∧ m.pc p = .user then some (m.goto p (.enter a) m.k) else none)
  | .exit p status =>
    if (m.k.proc p).state = .running ∧ m.pc p = .user then do
      let m ← m.startExit p status
      .ok (some m)
    else .ok none
  | .advance p => m.advance p

end Machine

/-- The kernel with its locks, as a transition system. -/
def machine (b : Boot) : Lts Machine Act where
  init m := b.main = .ok m.k ∧ ∀ p, m.pc p = .user
  step m a m' := m.act a = .ok (some m')

/-! ## Concrete runs -/

/-- The machine after an act that is taken. -/
def Machine.take (m : Machine) (x : Act) : Option Machine := (m.act x).toOption.join

/-- The machine after boot. -/
def Boot.machine (b : Boot) : Option Machine := b.main.toOption.map fun k => ⟨k, fun _ => .user⟩

theorem step_of_take {b : Boot} {m m' : Machine} {x : Act} (h : m.take x = some m') : (machine b).step m x m' :=
  Except.toOption_eq_some_iff.1 (Option.join_eq_some_iff.1 h)

/-- A run whose last state passes a test. -/
theorem exists_reaches_of_acts {b : Boot} {l : List Act} {c : Machine → Bool}
    (h : (b.machine.bind fun m => Lts.replay Machine.take (fun _ _ => True) m l).any c = true) :
    ∃ m, (machine b).Reaches (fun _ _ => True) m ∧ c m = true := by
  obtain ⟨m, hm, hc⟩ := (Option.any_eq_true _ _).1 h
  obtain ⟨m₀, hm₀, hrun⟩ := Option.bind_eq_some_iff.1 hm
  obtain ⟨k, hk, rfl⟩ := Option.map_eq_some_iff.1 hm₀
  refine ⟨m, ?_, hc⟩
  exact .of_replay (fun _ _ _ => step_of_take) (.init ⟨Except.toOption_eq_some_iff.1 hk, fun _ => rfl⟩) hrun

end Xv6
