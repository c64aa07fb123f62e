-- SUMMARY: The block and inode layers of fs.c over the bytes of the disk: balloc, bmap, itrunc, readi and writei.
import Xv6Threads.Memory.Copyin

/-!
# Blocks and inodes

The file system as the code under a transaction sees it: the contents of every
block as `bread` delivers them, and the list of blocks handed to `log_write`. A
change to a buffer is seen by the next `bread`, whether it was logged or not.

Inodes and the free map are read from and written to the bytes of their blocks,
in the layout of `fs.h`. A locked inode is a copy in memory, which `iupdate`
writes back.
-/

namespace Xv6

/-! ## Format -/

/-- `BSIZE`. -/
def bsize : Nat := 1024
/-- `NDIRECT`. -/
def ndirect : Nat := 12
/-- `NINDIRECT`. -/
def nindirect : Nat := bsize / 4
/-- `MAXFILE`. -/
def maxFile : Nat := ndirect + nindirect
/-- `sizeof(struct dinode)`. -/
def dinodeSize : Nat := 64
/-- `IPB`. -/
def ipb : Nat := bsize / dinodeSize
/-- `BPB`. -/
def bpb : Nat := bsize * 8

/-- The bytes of a block. -/
abbrev Sector := Nat → UInt8

structure Superblock where
  size : Nat
  ninodes : Nat
  inodestart : Nat
  bmapstart : Nat
  deriving DecidableEq, Repr

/-- An inode on disk. -/
structure Dinode where
  type : Nat
  major : Nat
  minor : Nat
  nlink : Nat
  size : Nat
  addrs : Fin (ndirect + 1) → Nat
  deriving DecidableEq

namespace Dinode

/-- The inode at offset `o` of a block. -/
def load (s : Sector) (o : Nat) : Dinode where
  type := Bytes.peek s o 2
  major := Bytes.peek s (o + 2) 2
  minor := Bytes.peek s (o + 4) 2
  nlink := Bytes.peek s (o + 6) 2
  size := Bytes.peek s (o + 8) 4
  addrs i := Bytes.peek s (o + 12 + 4 * i) 4

/-- Put an inode at offset `o` of a block. -/
def store (s : Sector) (o : Nat) (d : Dinode) : Sector :=
  let s := Bytes.poke s o 2 d.type
  let s := Bytes.poke s (o + 2) 2 d.major
  let s := Bytes.poke s (o + 4) 2 d.minor
  let s := Bytes.poke s (o + 6) 2 d.nlink
  let s := Bytes.poke s (o + 8) 4 d.size
  Bytes.pokeArray s (o + 12) 4 (fun i => if h : i < ndirect + 1 then d.addrs ⟨i, h⟩ else 0) (ndirect + 1)

/-- An inode of zeros. -/
def zero : Dinode := ⟨0, 0, 0, 0, 0, fun _ => 0⟩

end Dinode

/-- A locked inode in memory. -/
structure Inode extends Dinode where
  inum : Nat
  deriving DecidableEq

/-- Entry `NDIRECT` of `addrs`: the indirect block. -/
def indirectIx : Fin (ndirect + 1) := ⟨ndirect, Nat.lt_succ_self _⟩

namespace Inode

def setAddr (ip : Inode) (i : Fin (ndirect + 1)) (a : Nat) : Inode :=
  { ip with addrs := Function.update ip.addrs i a }

end Inode

/-! ## Blocks -/

/-- The blocks as `bread` delivers them, and those passed to `log_write`. -/
structure Fs where
  sb : Superblock
  block : Nat → Sector
  logged : List Nat

namespace Fs

/-- `IBLOCK`. -/
def iblock (fs : Fs) (inum : Nat) : Nat := inum / ipb + fs.sb.inodestart
/-- `BBLOCK`. -/
def bblock (fs : Fs) (b : Nat) : Nat := b / bpb + fs.sb.bmapstart

/-- Change the data of a buffer. -/
def setBlock (fs : Fs) (b : Nat) (s : Sector) : Fs := { fs with block := Function.update fs.block b s }

/-- Change the data of a buffer and pass it to `log_write`. -/
def logWrite (fs : Fs) (b : Nat) (s : Sector) : Fs := { fs.setBlock b s with logged := fs.logged ++ [b] }

/-- The bit of block `b` in the free map. -/
def used (fs : Fs) (b : Nat) : Bool := Bytes.getBit (fs.block (fs.bblock b)) (b % bpb)

/-- `bzero`. -/
def bzero (fs : Fs) (b : Nat) : Fs := fs.logWrite b fun _ => 0

/-- `balloc`: the first block that is not in use, zeroed. The result `0` says
that there is none. -/
def balloc (fs : Fs) : Nat × Fs :=
  match (List.range fs.sb.size).find? fun b => !fs.used b with
  | none => (0, fs)
  | some b => (b, (fs.logWrite (fs.bblock b) (Bytes.setBit (fs.block (fs.bblock b)) (b % bpb))).bzero b)

def bfree (fs : Fs) (b : Nat) : Except Panic Fs :=
  if fs.used b then .ok (fs.logWrite (fs.bblock b) (Bytes.clearBit (fs.block (fs.bblock b)) (b % bpb)))
  else stop "freeing free block"

/-! ## Inodes -/

/-- Inode `inum` on disk. -/
def dinode (fs : Fs) (inum : Nat) : Dinode := .load (fs.block (fs.iblock inum)) (inum % ipb * dinodeSize)

/-- The locked inode: `ilock` copies it from disk. -/
def ilock (fs : Fs) (inum : Nat) : Except Panic Inode :=
  if (fs.dinode inum).type = 0 then stop "ilock: no type" else .ok { fs.dinode inum with inum := inum }

/-- Write inode `inum` on disk. -/
def putDinode (fs : Fs) (inum : Nat) (d : Dinode) : Fs :=
  fs.logWrite (fs.iblock inum) (d.store (fs.block (fs.iblock inum)) (inum % ipb * dinodeSize))

/-- `ialloc`: the first free inode gets the type. -/
def ialloc (fs : Fs) (type : Nat) : Option Nat × Fs :=
  match (List.range' 1 (fs.sb.ninodes - 1)).find? fun inum => (fs.dinode inum).type = 0 with
  | none => (none, fs)
  | some inum => (some inum, fs.putDinode inum { Dinode.zero with type := type })

def iupdate (fs : Fs) (ip : Inode) : Fs := fs.putDinode ip.inum ip.toDinode

/-- Entry `i` of an indirect block. -/
def entry (fs : Fs) (b i : Nat) : Nat := Bytes.peek (fs.block b) (4 * i) 4

/-- `addrs[i]`, allocated if necessary; `0` says that there is no block. -/
def demand (fs : Fs) (ip : Inode) (i : Fin (ndirect + 1)) : Nat × Inode × Fs :=
  if ip.addrs i = 0 then
    match fs.balloc with
    | (addr, fs) => if addr = 0 then (0, ip, fs) else (addr, ip.setAddr i addr, fs)
  else (ip.addrs i, ip, fs)

/-- `bmap`: the block of index `bn`, allocated if necessary; `0` says that there
is no block left. -/
def bmap (fs : Fs) (ip : Inode) (bn : Nat) : Except Panic (Nat × Inode × Fs) :=
  if h : bn < ndirect then .ok (fs.demand ip ⟨bn, Nat.lt_succ_of_lt h⟩)
  else if bn - ndirect < nindirect then
    match fs.demand ip indirectIx with
    | (ind, ip, fs) =>
      if ind = 0 then .ok (0, ip, fs)
      else if fs.entry ind (bn - ndirect) = 0 then
        match fs.balloc with
        | (addr, fs) =>
          if addr = 0 then .ok (0, ip, fs)
          else .ok (addr, ip, fs.logWrite ind (Bytes.poke (fs.block ind) (4 * (bn - ndirect)) 4 addr))
      else .ok (fs.entry ind (bn - ndirect), ip, fs)
  else stop "bmap: out of range"

/-- One round of the first loop of `itrunc`. -/
def truncDirect (s : Inode × Fs) (i : Fin (ndirect + 1)) : Except Panic (Inode × Fs) :=
  if s.1.addrs i = 0 then .ok s
  else do
    let fs ← s.2.bfree (s.1.addrs i)
    .ok (s.1.setAddr i 0, fs)

/-- One round of the second loop of `itrunc`, over the entries of block `ind`. -/
def truncEntry (ind : Nat) (fs : Fs) (j : Nat) : Except Panic Fs :=
  if fs.entry ind j = 0 then .ok fs else fs.bfree (fs.entry ind j)

def itrunc (fs : Fs) (ip : Inode) : Except Panic (Inode × Fs) := do
  let (ip, fs) ← ((List.finRange ndirect).map fun i => i.castSucc).foldlM truncDirect (ip, fs)
  let (ip, fs) ← (if ip.addrs indirectIx = 0 then .ok (ip, fs)
    else do
      let fs ← (List.range nindirect).foldlM (truncEntry (ip.addrs indirectIx)) fs
      let fs ← fs.bfree (ip.addrs indirectIx)
      .ok (ip.setAddr indirectIx 0, fs))
  let ip := { ip with size := 0 }
  .ok (ip, fs.iupdate ip)

end Fs

/-! ## Data -/

/-- Where `writei` takes its bytes from. -/
inductive Src where
  | kernel (bytes : Nat → UInt8)
  | user (m : Mem) (pt : PageTable) (va : Nat)

namespace Src

/-- The byte at offset `o`, if it can be read. -/
def byte : Src → Nat → Option UInt8
  | kernel bytes, o => some (bytes o)
  | user m pt va, o => pt.loadByte m (va + o)

/-- `either_copyin` of `len` bytes from offset `o`: what was copied, and whether
that is all. -/
def copyin : Src → Nat → Nat → List UInt8 × Bool
  | kernel bytes, o, len => ((List.range len).map fun i => bytes (o + i), true)
  | user m pt va, o, len => pt.copyin m (va + o) len

end Src

/-- Where `readi` puts its bytes. -/
inductive Dst where
  | kernel (buf : Nat → UInt8)
  | user (m : Mem) (pt : PageTable) (va : Nat)

/-- `either_copyout` to offset `o`; `false` is the result `-1`. -/
def Dst.copyout : Dst → Nat → List UInt8 → Bool × Dst
  | kernel buf, o, bytes => (true, kernel (Bytes.splice buf o bytes))
  | user m pt va, o, bytes =>
    match pt.copyout m (va + o) bytes with
    | (ok, m) => (ok, user m pt va)

namespace Fs

/-- The loop of `readi`; every round moves at least one byte. -/
def readiLoop (n : Nat) : Nat → Fs → Inode → Dst → Nat → Nat → Except Panic (Int × Inode × Fs × Dst)
  | 0, fs, ip, dst, _, tot => .ok (tot, ip, fs, dst)
  | fuel + 1, fs, ip, dst, off, tot =>
    if tot < n then do
      let (addr, ip, fs) ← fs.bmap ip (off / bsize)
      if addr = 0 then .ok (tot, ip, fs, dst)
      else
        let m := min (n - tot) (bsize - off % bsize)
        match dst.copyout tot ((List.range m).map fun i => fs.block addr (off % bsize + i)) with
        | (false, dst) => .ok (-1, ip, fs, dst)
        | (true, dst) => readiLoop n fuel fs ip dst (off + m) (tot + m)
    else .ok (tot, ip, fs, dst)

/-- `readi(ip, user_dst, dst, off, n)`. -/
def readi (fs : Fs) (ip : Inode) (dst : Dst) (off n : UInt32) : Except Panic (Int × Inode × Fs × Dst) :=
  if ip.size < off.toNat ∨ off + n < off then .ok (0, ip, fs, dst)
  else
    let n := if ip.size < (off + n).toNat then ip.size - off.toNat else n.toNat
    readiLoop n n fs ip dst off.toNat 0

/-- The loop of `writei`; every round moves at least one byte. The result is
`tot` and the new offset. -/
def writeiLoop (src : Src) (n : Nat) : Nat → Fs → Inode → Nat → Nat → Except Panic (Nat × Nat × Inode × Fs)
  | 0, fs, ip, off, tot => .ok (tot, off, ip, fs)
  | fuel + 1, fs, ip, off, tot =>
    if tot < n then do
      let (addr, ip, fs) ← fs.bmap ip (off / bsize)
      if addr = 0 then .ok (tot, off, ip, fs)
      else
        let m := min (n - tot) (bsize - off % bsize)
        match src.copyin tot m with
        | (bytes, false) => .ok (tot, off, ip, fs.setBlock addr (Bytes.splice (fs.block addr) (off % bsize) bytes))
        | (bytes, true) =>
          writeiLoop src n fuel (fs.logWrite addr (Bytes.splice (fs.block addr) (off % bsize) bytes)) ip (off + m)
            (tot + m)
    else .ok (tot, off, ip, fs)

/-- `writei(ip, user_src, src, off, n)`. -/
def writei (fs : Fs) (ip : Inode) (src : Src) (off n : UInt32) : Except Panic (Int × Inode × Fs) :=
  if ip.size < off.toNat ∨ off + n < off then .ok (-1, ip, fs)
  else if maxFile * bsize < (off + n).toNat then .ok (-1, ip, fs)
  else do
    let (tot, off, ip, fs) ← writeiLoop src n.toNat n.toNat fs ip off.toNat 0
    let ip := if ip.size < off then { ip with size := off } else ip
    .ok (tot, ip, fs.iupdate ip)

end Fs

end Xv6
