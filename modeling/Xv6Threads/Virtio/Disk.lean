-- SUMMARY: The virtio disk: the driver between its sleep points, the interrupt handler, and the device.
import Mathlib.Logic.Function.Basic
import Xv6Threads.Base.Fifo
import Xv6Threads.Base.Transition

/-!
# The disk driver

Driver and device share three tables in memory: descriptors, the ring of
available chains, which the driver writes, and the ring of used chains, which
the device writes. Code of the driver runs under `vdisk_lock` from one sleep to
the next; the device takes its steps at any time. What the device does is taken
from the comments of the driver: it takes chains in the order of the ring, works
on them in any order, and sets the status to zero.
-/

namespace Xv6.Virtio

/-- `NUM`. -/
def num : Nat := 8
/-- `BSIZE`. -/
def bsize : Nat := 1024

/-- `VRING_DESC_F_NEXT`. -/
def fNext : UInt16 := 1
/-- `VRING_DESC_F_WRITE`. -/
def fWrite : UInt16 := 2

/-- `VIRTIO_BLK_T_IN`. -/
def blkIn : UInt32 := 0
/-- `VIRTIO_BLK_T_OUT`. -/
def blkOut : UInt32 := 1

/-- How the kernel or the device goes wrong: `panic`, a null pointer, a chain
that the device cannot read, or an endless chain. -/
inductive Fault where
  | panic (msg : String)
  | null
  | chain
  | depth
  deriving DecidableEq

/-- The addresses that descriptors hold; `β` names the buffers. -/
inductive Addr (β : Type) where
  | zero
  | op (i : Nat)
  | data (b : β)
  | status (i : Nat)

/-- `struct virtq_desc`. -/
structure Desc (β : Type) where
  addr : Addr β
  len : Nat
  flags : UInt16
  next : Nat

/-- `struct virtio_blk_req`. -/
structure BlkReq where
  type : UInt32
  reserved : UInt32
  sector : Nat

/-- An entry of `disk.info`. -/
structure Info (β : Type) where
  b : Option β
  status : UInt8

/-- `struct virtq_avail` or `struct virtq_used`, with the heads of chains. -/
structure Ring where
  ring : Nat → Nat
  idx : UInt16

/-- `struct disk`, with what its pointers point to. -/
structure Disk (β : Type) where
  desc : Nat → Desc β
  avail : Ring
  used : Ring
  free : Nat → Bool
  usedIdx : UInt16
  info : Nat → Info β
  ops : Nat → BlkReq

/-- The fields of `struct buf` that the driver uses. -/
structure Buf where
  blockno : UInt32
  data : Nat → UInt8
  disk : Bool

/-- Where `virtio_disk_rw` is, with `idx` once it has it. -/
inductive Phase where
  /-- in the loop around `alloc3_desc` -/
  | allocating
  /-- before `disk.avail->idx += 1` -/
  | publishing (i j k : Nat)
  /-- in the loop that waits for `b->disk` -/
  | submitted (i j k : Nat)
  deriving DecidableEq

/-- A call of `virtio_disk_rw`. What the buffer held and how long the record of
the device was when the call began is kept beside it. -/
structure Call (β : Type) where
  b : β
  write : Bool
  phase : Phase
  awake : Bool
  given : Nat → UInt8
  start : Nat

/-- A request that the device has carried out: what it has written to the disk,
or read from it. -/
structure Entry (β : Type) where
  b : β
  write : Bool
  sector : Nat
  data : Nat → UInt8

/-- Who holds `vdisk_lock` where a step ends. -/
inductive Holder (ι : Type) where
  | free
  | proc (p : ι)
  | handler
  deriving DecidableEq

/-- The kernel, the device and the disk. -/
structure State (ι β : Type) where
  disk : Disk β
  bufs : β → Buf
  call : ι → Option (Call β)
  lock : Holder ι
  /-- the device has raised an interrupt -/
  pending : Bool
  /-- the device's place in the ring of available chains -/
  last : UInt16
  /-- chains that the device works on, and those it has carried out -/
  fetched : List Nat
  performed : List Nat
  content : Nat → UInt8
  log : List (Entry β)

namespace State

variable {ι β : Type} [DecidableEq ι] [DecidableEq β]

/-! ## Descriptors -/

/-- `wakeup(&disk.free[0])`. -/
def wakeupFree (s : State ι β) : State ι β :=
  { s with call := fun p => (s.call p).map fun c => if c.phase = .allocating then { c with awake := true } else c }

/-- `wakeup(b)`. -/
def wakeupBuf (s : State ι β) (b : β) : State ι β :=
  { s with
    call := fun p => (s.call p).map fun c => if c.phase ≠ .allocating ∧ c.b = b then { c with awake := true } else c }

def setFree (s : State ι β) (i : Nat) (v : Bool) : State ι β :=
  { s with disk := { s.disk with free := Function.update s.disk.free i v } }

def setDesc (s : State ι β) (i : Nat) (d : Desc β) : State ι β :=
  { s with disk := { s.disk with desc := Function.update s.disk.desc i d } }

/-- `alloc_desc`. -/
def allocDesc (s : State ι β) : Option (Nat × State ι β) :=
  ((List.range num).find? s.disk.free).map fun i => (i, s.setFree i false)

/-- `free_desc`. -/
def freeDesc (s : State ι β) (i : Nat) : Except Fault (State ι β) :=
  if num ≤ i then .error (.panic "free_desc 1")
  else if s.disk.free i then .error (.panic "free_desc 2")
  else .ok ((s.setDesc i ⟨.zero, 0, 0, 0⟩).setFree i true).wakeupFree

/-- `free_chain`. -/
def freeChain : Nat → State ι β → Nat → Except Fault (State ι β)
  | 0, _, _ => .error .depth
  | n + 1, s, i => do
    let flag := (s.disk.desc i).flags
    let nxt := (s.disk.desc i).next
    let s ← s.freeDesc i
    if flag &&& fNext ≠ 0 then freeChain n s nxt else .ok s

/-- The loop of `alloc3_desc`, with the `n` descriptors that are missing. -/
def allocLoop : Nat → List Nat → State ι β → Except Fault (Option (List Nat) × State ι β)
  | 0, idx, s => .ok (some idx, s)
  | n + 1, idx, s =>
    match s.allocDesc with
    | some (i, s) => allocLoop n (idx ++ [i]) s
    | none => do
      let s ← idx.foldlM freeDesc s
      .ok (none, s)

/-- `alloc3_desc`. -/
def alloc3Desc (s : State ι β) : Except Fault (Option (List Nat) × State ι β) := allocLoop 3 [] s

/-! ## `virtio_disk_rw` -/

/-- `b->blockno * (BSIZE / 512)`, in 32 bits. -/
def sectorOf (blockno : UInt32) : Nat := (blockno * UInt32.ofNat (bsize / 512)).toNat

/-- The three descriptors, the request and the entry of the ring. -/
def format (s : State ι β) (c : Call β) (i j k : Nat) : State ι β :=
  let dataFlags := (if c.write then 0 else fWrite) ||| fNext
  { s with
    disk := { s.disk with
      ops := Function.update s.disk.ops i ⟨if c.write then blkOut else blkIn, 0, sectorOf (s.bufs c.b).blockno⟩
      desc := Function.update (Function.update (Function.update s.disk.desc
        i ⟨.op i, 16, fNext, j⟩)
        j ⟨.data c.b, bsize, dataFlags, k⟩)
        k ⟨.status i, 1, fWrite, 0⟩
      info := Function.update s.disk.info i ⟨some c.b, 0xff⟩
      avail := { s.disk.avail with
        ring := Function.update s.disk.avail.ring (s.disk.avail.idx.toNat % num) i } }
    bufs := Function.update s.bufs c.b { s.bufs c.b with disk := true } }

def setCall (s : State ι β) (p : ι) (c : Option (Call β)) : State ι β :=
  { s with call := Function.update s.call p c }

/-- The loop around `alloc3_desc`, once, and what follows it up to the barrier. -/
def allocate (s : State ι β) (p : ι) (c : Call β) : Except Fault (State ι β) := do
  match ← s.alloc3Desc with
  | (some [i, j, k], s) => .ok { (s.format c i j k).setCall p (some { c with phase := .publishing i j k }) with lock := .proc p }
  | (_, s) => .ok (s.setCall p (some { c with awake := false }))

/-- The loop that waits for the device, once, and the end of the function. -/
def await (s : State ι β) (p : ι) (c : Call β) (i j k : Nat) : Except Fault (State ι β) :=
  if (s.bufs c.b).disk then
    .ok { s.setCall p (some { c with phase := .submitted i j k, awake := false }) with lock := .free }
  else do
    let s := { s with
      disk := { s.disk with info := Function.update s.disk.info i { s.disk.info i with b := none } } }
    let s ← freeChain (num + 1) s i
    .ok { s.setCall p none with lock := .free }

/-- `disk.avail->idx += 1`. -/
def publish (s : State ι β) : State ι β :=
  { s with disk := { s.disk with avail := { s.disk.avail with idx := s.disk.avail.idx + 1 } } }

/-- The call of `p` goes on. -/
def run (s : State ι β) (p : ι) (c : Call β) : Except Fault (State ι β) :=
  match c.phase with
  | .allocating => s.allocate p c
  | .publishing i j k => s.publish.await p c i j k
  | .submitted i j k => s.await p c i j k

/-! ## `virtio_disk_intr` -/

/-- The loop of the handler, once. -/
def handle (s : State ι β) : Except Fault (State ι β) :=
  if s.disk.usedIdx = s.disk.used.idx then .ok { s with lock := .free }
  else
    let id := s.disk.used.ring (s.disk.usedIdx.toNat % num)
    if (s.disk.info id).status ≠ 0 then .error (.panic "virtio_disk_intr status")
    else
      match (s.disk.info id).b with
      | none => .error .null
      | some b =>
        let s := { s with bufs := Function.update s.bufs b { s.bufs b with disk := false } }
        let s := s.wakeupBuf b
        .ok { s with disk := { s.disk with usedIdx := s.disk.usedIdx + 1 } }

/-! ## The device -/

/-- `len` bytes of `data` are written from `sector` on. -/
def store (content : Nat → UInt8) (sector len : Nat) (data : Nat → UInt8) (n : Nat) : UInt8 :=
  if sector * 512 ≤ n ∧ n < sector * 512 + len then data (n - sector * 512) else content n

/-- `len` bytes from `sector` on are read into `data`. -/
def load (content : Nat → UInt8) (sector len : Nat) (data : Nat → UInt8) (n : Nat) : UInt8 :=
  if n < len then content (sector * 512 + n) else data n

/-- The device takes the next available chain. -/
def fetch (s : State ι β) : State ι β :=
  { s with
    fetched := s.fetched ++ [s.disk.avail.ring (s.last.toNat % num)]
    last := s.last + 1 }

/-- The status that the device writes. -/
def succeed (s : State ι β) (t : Nat) : State ι β :=
  { s with disk := { s.disk with info := Function.update s.disk.info t { s.disk.info t with status := 0 } } }

/-- The device carries out the request of the chain at `i`. -/
def perform (s : State ι β) (i : Nat) : Except Fault (State ι β) :=
  let d₀ := s.disk.desc i
  let d₁ := s.disk.desc d₀.next
  let d₂ := s.disk.desc d₁.next
  if d₀.flags &&& fNext = 0 ∨ d₁.flags &&& fNext = 0 ∨ d₂.flags &&& fWrite = 0 then .error .chain
  else
    match d₀.addr, d₁.addr, d₂.addr with
    | .op o, .data b, .status t =>
      let req := s.disk.ops o
      let s := { s with fetched := s.fetched.erase i, performed := s.performed ++ [i] }
      if req.type = blkOut ∧ d₁.flags &&& fWrite = 0 then
        let data := (s.bufs b).data
        .ok { s.succeed t with
          content := store s.content req.sector d₁.len data
          log := s.log ++ [⟨b, true, req.sector, data⟩] }
      else if req.type = blkIn ∧ d₁.flags &&& fWrite ≠ 0 then
        let data := load s.content req.sector d₁.len (s.bufs b).data
        .ok { s.succeed t with
          bufs := Function.update s.bufs b { s.bufs b with data := data }
          log := s.log ++ [⟨b, false, req.sector, data⟩] }
      else .error .chain
    | _, _, _ => .error .chain

/-- The device returns a chain, and raises an interrupt. -/
def post (s : State ι β) (i : Nat) : State ι β :=
  { s with
    performed := s.performed.erase i
    disk := { s.disk with
      used := ⟨Function.update s.disk.used.ring (s.disk.used.idx.toNat % num) i, s.disk.used.idx + 1⟩ }
    pending := true }

end State

/-! ## Steps -/

inductive Event (ι β : Type) where
  /-- `virtio_disk_rw`, by a process that has locked the buffer -/
  | call (p : ι) (b : β) (write : Bool)
  /-- a call goes on: it has been woken, or holds the lock -/
  | run (p : ι)
  /-- `kill` wakes a process, whatever it sleeps on -/
  | rouse (p : ι)
  /-- a buffer that no call uses gets another block or other data -/
  | edit (b : β) (blockno : UInt32) (data : Nat → UInt8)
  /-- `virtio_disk_intr` begins, and a round of its loop -/
  | interrupt
  | handle
  /-- the device -/
  | fetch
  | perform (i : Nat)
  | post (i : Nat)

namespace State

variable {ι β : Type} [DecidableEq ι] [DecidableEq β]

/-- A call uses the buffer. -/
def Busy (s : State ι β) (b : β) : Prop := ∃ p c, s.call p = some c ∧ c.b = b

/-- The step that an event is, with what goes wrong in it. -/
inductive Step : State ι β → Event ι β → Except Fault (State ι β) → Prop
  | call {s : State ι β} {p : ι} {b : β} {write : Bool} : s.call p = none → ¬ s.Busy b →
      Step s (.call p b write) (.ok (s.setCall p (some ⟨b, write, .allocating, true, (s.bufs b).data, s.log.length⟩)))
  | run {s : State ι β} {p : ι} {c : Call β} : s.call p = some c → c.awake = true → s.lock = .free →
      (∀ i j k, c.phase ≠ .publishing i j k) → Step s (.run p) (s.run p c)
  | resume {s : State ι β} {p : ι} {c : Call β} : s.call p = some c → s.lock = .proc p → Step s (.run p) (s.run p c)
  | rouse {s : State ι β} {p : ι} {c : Call β} : s.call p = some c →
      Step s (.rouse p) (.ok (s.setCall p (some { c with awake := true })))
  | edit {s : State ι β} {b : β} {blockno : UInt32} {data : Nat → UInt8} : ¬ s.Busy b →
      Step s (.edit b blockno data) (.ok { s with bufs := Function.update s.bufs b ⟨blockno, data, (s.bufs b).disk⟩ })
  | interrupt {s : State ι β} : s.pending = true → s.lock = .free →
      Step s .interrupt (.ok { s with pending := false, lock := .handler })
  | handle {s : State ι β} : s.lock = .handler → Step s .handle s.handle
  | fetch {s : State ι β} : s.last ≠ s.disk.avail.idx → Step s .fetch (.ok s.fetch)
  | perform {s : State ι β} {i : Nat} : i ∈ s.fetched → Step s (.perform i) (s.perform i)
  | post {s : State ι β} {i : Nat} : i ∈ s.performed → Step s (.post i) (.ok (s.post i))

end State

/-- The system after `virtio_disk_init`, with a disk that holds `content`. -/
def system (ι β : Type) [DecidableEq ι] [DecidableEq β] (content : Nat → UInt8) : Lts (State ι β) (Event ι β) where
  init s := (∀ i < num, s.disk.free i = true) ∧ s.disk.avail.idx = 0 ∧ s.disk.used.idx = 0 ∧ s.disk.usedIdx = 0 ∧
    s.last = 0 ∧ s.fetched = [] ∧ s.performed = [] ∧ (∀ p, s.call p = none) ∧ s.lock = .free ∧ s.pending = false ∧
    s.content = content ∧ s.log = []
  step s e s' := State.Step s e (.ok s')

end Xv6.Virtio
