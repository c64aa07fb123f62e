-- SUMMARY: exec: loading a program image into a new table and committing to it.
import Xv6Threads.Process.Calls

/-!
# exec

The file is represented by what the reads of `exec` deliver: the header, each
program header (or a short read), and the bytes present for each segment. A
path that does not lead to a file is the absence of an image.
-/

namespace Xv6

/-- `MAXARG`. -/
def maxArg : Nat := 32

/-- A program header; `bytes` is what the file holds from `off` on. -/
structure Segment where
  load : Bool
  vaddr : Nat
  filesz : Nat
  memsz : Nat
  exec : Bool
  write : Bool
  bytes : List UInt8
  deriving DecidableEq, Repr

/-- A file as `exec` reads it. `header` says that a whole header with the right
magic number was read; a program header that could not be read is `none`. -/
structure Image where
  header : Bool
  entry : Nat
  phdrs : List (Option Segment)
  deriving DecidableEq, Repr

/-- `flags2perm`. -/
def Segment.perm (ph : Segment) : Perm := ⟨false, ph.write, ph.exec, false⟩

/-- The loop of `loadseg`, at offset `i` with `n` pages to go; `false` is `-1`. -/
def loadsegLoop (pt : PageTable) (va sz : Nat) (bytes : List UInt8) :
    Nat → Mem → Nat → Except Panic (Bool × Mem)
  | 0, m, _ => .ok (true, m)
  | n + 1, m, i =>
    match pt.walkaddr (va + i) with
    | none => stop "loadseg: address should exist"
    | some pa =>
      let chunk := (bytes.drop i).take (min (sz - i) pgSize)
      if chunk.length ≠ min (sz - i) pgSize then .ok (false, m.store pa 0 chunk)
      else loadsegLoop pt va sz bytes n (m.store pa 0 chunk) (i + pgSize)

/-- `loadseg`; the size is passed as a 32-bit word. -/
def loadseg (m : Mem) (pt : PageTable) (va filesz : Nat) (bytes : List UInt8) :
    Except Panic (Bool × Mem) :=
  let sz := filesz % 2 ^ 32
  loadsegLoop pt va sz bytes (pagesBelow sz) m 0

/-- The loop over the program headers. The result is the size reached and
whether every segment was loaded. -/
def loadSegments : List (Option Segment) → Mem → PageTable → Nat →
    Except Panic (Bool × Nat × Mem × PageTable)
  | [], m, pt, sz => .ok (true, sz, m, pt)
  | none :: _, m, pt, sz => .ok (false, sz, m, pt)
  | some ph :: phs, m, pt, sz =>
    if !ph.load then loadSegments phs m pt sz
    else if ph.memsz < ph.filesz then .ok (false, sz, m, pt)
    else if (ph.vaddr + ph.memsz) % wordSize < ph.vaddr then .ok (false, sz, m, pt)
    else if ph.vaddr % pgSize ≠ 0 then .ok (false, sz, m, pt)
    else do
      let (sz1, m, pt) ← PageTable.uvmalloc m pt sz ((ph.vaddr + ph.memsz) % wordSize) ph.perm
      if sz1 = 0 then .ok (false, sz, m, pt)
      else
        let (loaded, m) ← loadseg m pt ph.vaddr ph.filesz ph.bytes
        if !loaded then .ok (false, sz1, m, pt) else loadSegments phs m pt sz1

/-- `sp -= n; sp -= sp % 16` on 64-bit words. -/
def pushDown (sp n : Nat) : Nat :=
  let sp := (sp + (wordSize - n % wordSize)) % wordSize
  sp - sp % 16

/-- Push the argument strings. The result holds the stack pointer and the
addresses pushed, or nothing when they do not fit. -/
def pushArgs (pt : PageTable) (stackbase : Nat) :
    List (List UInt8) → Nat → Mem → Nat → List Nat → Option (Nat × List Nat) × Mem
  | [], _, m, sp, ustack => (some (sp, ustack), m)
  | arg :: args, argc, m, sp, ustack =>
    if maxArg ≤ argc then (none, m)
    else
      let sp := pushDown sp (arg.length + 1)
      if sp < stackbase then (none, m)
      else
        match pt.copyout m sp (arg ++ [0]) with
        | (false, m) => (none, m)
        | (true, m) => pushArgs pt stackbase args (argc + 1) m sp (ustack ++ [sp])

/-- The eight bytes of a word. -/
def wordBytes (n : Nat) : List UInt8 :=
  (List.range 8).map fun i => UInt8.ofNat (n / 2 ^ (8 * i) % 256)

/-- The guard page, the stack and the arguments, above an image of size `sz`.
The result is the size reached, the table, and the final stack pointer if all
went well. -/
def buildStack (m : Mem) (pt : PageTable) (sz : Nat) (argv : List (List UInt8)) :
    Except Panic (Option Nat × Nat × Mem × PageTable) := do
  let sz := pgRoundUp sz
  let (sz1, m, pt) ← PageTable.uvmalloc m pt sz (sz + 2 * pgSize) permW
  if sz1 = 0 then .ok (none, sz, m, pt)
  else
    let pt ← pt.uvmclear (sz1 - 2 * pgSize)
    let stackbase := sz1 - pgSize
    match pushArgs pt stackbase argv 0 m sz1 [] with
    | (none, m) => .ok (none, sz1, m, pt)
    | (some (sp, ustack), m) =>
      let sp := pushDown sp ((ustack.length + 1) * 8)
      if sp < stackbase then .ok (none, sz1, m, pt)
      else
        match pt.copyout m sp ((ustack ++ [0]).flatMap wordBytes) with
        | (false, m) => .ok (none, sz1, m, pt)
        | (true, m) => .ok (some sp, sz1, m, pt)

/-- The last element of a path, cut to the size of `p->name`. -/
def progName (path : String) : String :=
  String.ofList (((path.toList.splitOn '/').getLastD []).take 15)

namespace Kernel

/-- The label `bad` of `exec`. -/
def execBad (k : Kernel) (m : Mem) (pt : PageTable) (sz : Nat) : Except Panic (Int × Kernel) := do
  let m ← procFreepagetable m pt sz
  .ok (-1, { k with mem := m })

/-- `exec(path, argv)` by `p`, where the path leads to `file`. -/
def exec (k : Kernel) (p : Slot) (path : String) (file : Option Image) (argv : List (List UInt8)) :
    Except Panic (Int × Kernel) :=
  match file with
  | none => .ok (-1, k)
  | some img =>
    if !img.header then .ok (-1, k)
    else
      match (k.proc p).trapframe, (k.proc p).pagetable with
      | some tf, some oldpagetable => do
        match ← procPagetable k.mem k.tramp tf.page with
        | (none, m) => .ok (-1, { k with mem := m })
        | (some pt, m) =>
          let (loaded, sz, m, pt) ← loadSegments img.phdrs m pt 0
          if !loaded then k.execBad m pt sz
          else
            match ← buildStack m pt sz argv with
            | (none, sz, m, pt) => k.execBad m pt sz
            | (some sp, sz, m, pt) =>
              let oldsz := (k.proc p).sz
              let regs := { tf.regs with a1 := sp, epc := img.entry, sp := sp }
              let m ← procFreepagetable m oldpagetable oldsz
              .ok (argv.length, { k with mem := m }.modify p fun pr =>
                { pr with
                  name := progName path
                  pagetable := some pt
                  sz := sz
                  trapframe := some { tf with regs := regs } })
      | _, _ => nullDeref

end Kernel

end Xv6
