-- SUMMARY: The user allocator of umalloc.c over bytes of memory, and the processes that call it.
import Xv6Threads.Base.Bytes
import Xv6Threads.Base.Transition
import Xv6Threads.Memory.Word

/-!
# malloc and free

The allocator keeps its free blocks in a ring of headers inside the blocks. A
header is 16 bytes, a pointer and a size in units of headers; block sizes are `uint`,
and what `morecore` asks the kernel for is an `int`. Addresses are natural numbers:
none the code computes in a state below reaches `2 ^ 64`.
-/

namespace Xv6

namespace Umalloc

/-- `p->s.ptr`. -/
def ptr (mem : Ram) (p : Nat) : Nat := Bytes.peek mem p 8

/-- `p->s.size`. -/
def size (mem : Ram) (p : Nat) : Nat := Bytes.peek mem (p + 8) 4

/-- `p->s.ptr = q`. -/
def setPtr (mem : Ram) (p q : Nat) : Ram := Bytes.poke mem p 8 q

/-- `p->s.size = n`, modulo `2 ^ 32`. -/
def setSize (mem : Ram) (p n : Nat) : Ram := Bytes.poke mem (p + 8) 4 n

/-- The memory of the process with its size, and the static `freep`. -/
structure Heap where
  mem : Ram
  sz : Nat
  freep : Nat

/-- `sys_sbrk`: the old size, or nothing for `-1`; and the new size. `grant` says whether
`growproc` finds the memory; it cannot grow a process beyond `TRAPFRAME`. -/
def sbrk (sz : Nat) (n : Int32) (grant : Bool) : Option Nat × Nat :=
  if n = 0 then (some sz, sz)
  else if 0 < n then
    if grant ∧ sz + n.toInt.toNat ≤ trapframeVa then (some sz, sz + n.toInt.toNat) else (none, sz)
  else if (-n.toInt).toNat ≤ sz then (some sz, sz - (-n.toInt).toNat)
  else (some sz, sz)

/-- The search loop of `free`. -/
def search (mem : Ram) (bp : Nat) : Nat → Nat → Option Nat
  | 0, _ => none
  | fuel + 1, p =>
    if p < bp ∧ bp < ptr mem p then some p
    else if ptr mem p ≤ p ∧ (p < bp ∨ bp < ptr mem p) then some p
    else search mem bp fuel (ptr mem p)

/-- Link `bp` to what comes behind `p`, or join it with that. -/
def joinNext (mem : Ram) (bp p : Nat) : Ram :=
  if bp + 16 * size mem bp = ptr mem p then
    let mem := setSize mem bp (size mem bp + size mem (ptr mem p))
    setPtr mem bp (ptr mem (ptr mem p))
  else setPtr mem bp (ptr mem p)

/-- Link `p` to `bp`, or join the two. -/
def joinPrev (mem : Ram) (bp p : Nat) : Ram :=
  if p + 16 * size mem p = bp then
    let mem := setSize mem p (size mem p + size mem bp)
    setPtr mem p (ptr mem bp)
  else setPtr mem p bp

/-- `free(ap)`. -/
def free (fuel : Nat) (h : Heap) (ap : Nat) : Option Heap :=
  let bp := ap - 16
  (search h.mem bp fuel h.freep).map fun p => { h with mem := joinPrev (joinNext h.mem bp p) bp p, freep := p }

/-- The argument of `sbrk` for `nu` units: `nu * sizeof(Header)` as an `int`. -/
def request (nu : Nat) : Int32 := .ofNat ((if nu < 4096 then 4096 else nu) * 16)

/-- `morecore(nu)`: `freep`, or `0`. -/
def morecore (fuel : Nat) (h : Heap) (nu : Nat) (grant : Bool) : Option (Nat × Heap) :=
  match sbrk h.sz (request nu) grant with
  | (none, _) => some (0, h)
  | (some p, sz) =>
    (free fuel { h with mem := setSize h.mem p (if nu < 4096 then 4096 else nu), sz := sz } (p + 16)).map
      fun h => (h.freep, h)

/-- `malloc` has found `p`, behind `prevp`: take all of the block, or its tail. -/
def take (nunits : Nat) (h : Heap) (p prevp : Nat) : Nat × Heap :=
  if size h.mem p = nunits then (p + 16, { h with mem := setPtr h.mem prevp (ptr h.mem p), freep := prevp })
  else
    let mem := setSize h.mem p (size h.mem p - nunits)
    let q := p + 16 * size mem p
    (q + 16, { h with mem := setSize mem q nunits, freep := prevp })

/-- The loop of `malloc`; `grants` are the kernel's answers to its calls of `sbrk`. -/
def mallocLoop (nunits : Nat) : Nat → List Bool → Heap → Nat → Nat → Option (Nat × Heap)
  | 0, _, _, _, _ => none
  | fuel + 1, grants, h, p, prevp =>
    if nunits ≤ size h.mem p then some (take nunits h p prevp)
    else if p = h.freep then
      match morecore fuel h nunits (grants.headD false) with
      | none => none
      | some (p, h) => if p = 0 then some (0, h) else mallocLoop nunits fuel grants.tail h (ptr h.mem p) p
    else mallocLoop nunits fuel grants h (ptr h.mem p) p

/-- `nunits` for a request of `nbytes`. -/
def units (nbytes : UInt32) : Nat := (nbytes.toNat + 16 - 1) / 16 + 1

/-- `malloc(nbytes)`, with `base` the address of the static header. -/
def malloc (base fuel : Nat) (grants : List Bool) (h : Heap) (nbytes : UInt32) : Option (Nat × Heap) :=
  if h.freep = 0 then
    let mem := setSize (setPtr h.mem base base) base 0
    mallocLoop (units nbytes) fuel grants { h with mem := mem, freep := base } (ptr mem base) base
  else mallocLoop (units nbytes) fuel grants h (ptr h.mem h.freep) h.freep

/-! ## Processes -/

/-- Where a program lies: the static header, and the end of the image, where the heap begins. -/
structure Image where
  base : Nat
  lo : Nat
  base_pos : 0 < base
  base_lt : base + 16 ≤ lo
  lo_le : lo ≤ trapframeVa

/-- A block in use: its header, and the bytes that were asked for. -/
structure Block where
  hdr : Nat
  nbytes : UInt32
  deriving DecidableEq

/-- What `malloc` returned. -/
def Block.ap (b : Block) : Nat := b.hdr + 16

/-- A process: its heap, and the blocks it has been given and has not freed. -/
structure Process where
  heap : Heap
  live : List Block

/-- What a program does with its blocks. -/
inductive Call where
  | malloc (nbytes : UInt32) (grants : List Bool)
  | free (b : Block)
  | write (a : Nat) (v : UInt8)

/-- One call, or a store into a block in use. -/
inductive Step (im : Image) : Process → Call → Process → Prop
  | fail {s : Process} {nbytes : UInt32} {grants : List Bool} {fuel : Nat} {h : Heap}
      (hrun : malloc im.base fuel grants s.heap nbytes = some (0, h)) :
      Step im s (.malloc nbytes grants) { s with heap := h }
  | malloc {s : Process} {nbytes : UInt32} {grants : List Bool} {fuel : Nat} {h : Heap} {b : Block}
      (hrun : malloc im.base fuel grants s.heap nbytes = some (b.ap, h)) (hbytes : b.nbytes = nbytes) :
      Step im s (.malloc nbytes grants) { heap := h, live := b :: s.live }
  | free {s : Process} {b : Block} {fuel : Nat} {h : Heap} (hlive : b ∈ s.live)
      (hrun : free fuel s.heap b.ap = some h) : Step im s (.free b) { heap := h, live := s.live.erase b }
  | write {s : Process} {b : Block} {a : Nat} (v : UInt8) (hlive : b ∈ s.live) (hlo : b.ap ≤ a)
      (hhi : a < b.ap + b.nbytes.toNat) :
      Step im s (.write a v) { s with heap := { s.heap with mem := Function.update s.heap.mem a v } }

/-- A process starts with any memory contents; its statics are zero. -/
def processes (im : Image) : Lts Process Call where
  init s := s.heap.freep = 0 ∧ s.heap.sz = im.lo ∧ s.live = []
  step := Step im

end Umalloc

end Xv6
