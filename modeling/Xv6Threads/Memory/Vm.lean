-- SUMMARY: The virtual-memory routines of vm.c: mapping, unmapping, growing, copying, sharing and freeing tables.
import Xv6Threads.Memory.PageTable

/-!
# Virtual memory

The routines of `vm.c` over one page table. Each takes the memory and the
tables it works on and returns them updated; a routine that can fail for lack
of memory says so in its result, one that can panic returns `Except`.
-/

namespace Xv6

/-- One page of `freewalk`: free the tables below, then the page itself. -/
def Table.sweep {α : Type} (below : Mem → α → Except Panic Mem) (m : Mem)
    (t : Table α) : Except Panic Mem := do
  let m ← (List.finRange 512).foldlM (fun m i =>
    match t.entry i with
    | none => .ok m
    | some sub => below m sub) m
  m.kfree t.page

namespace PageTable

/-- The loop of `mappages`, for `n` pages from address `a` on. -/
def mappagesLoop (perm : Perm) :
    Nat → Mem → PageTable → Nat → Ppn → Except Panic (Bool × Mem × PageTable)
  | 0, m, pt, _, _ => .ok (true, m, pt)
  | n + 1, m, pt, a, pa => do
    let (found, m, pt) ← walkAlloc m pt a
    if !found then .ok (false, m, pt)
    else
      match pt.lookup a with
      | some _ => stop "mappages: remap"
      | none => mappagesLoop perm n m (pt.setPte a (some ⟨pa, perm⟩)) (a + pgSize) (pa + 1)

/-- `mappages`; `false` is the result `-1`. An address that is not page aligned
makes the range `[va, va + size)` touch one page more, and that page is given
the next physical page. -/
def mappages (m : Mem) (pt : PageTable) (va size : Nat) (pa : Ppn) (perm : Perm) :
    Except Panic (Bool × Mem × PageTable) :=
  if size = 0 then stop "mappages: size"
  else
    let a := pgRoundDown va
    let last := pgRoundDown (va + size - 1)
    mappagesLoop perm ((last - a) / pgSize + 1) m pt a pa

/-- The loop of `uvmunmap`, for `n` pages from address `a` on. -/
def uvmunmapLoop (doFree : Bool) :
    Nat → Mem → PageTable → Nat → Except Panic (Mem × PageTable)
  | 0, m, pt, _ => .ok (m, pt)
  | n + 1, m, pt, a => do
    match ← pt.walk a with
    | none => stop "uvmunmap: walk"
    | some none => stop "uvmunmap: not mapped"
    | some (some pte) =>
      if pte.perm = ⟨false, false, false, false⟩ then stop "uvmunmap: not a leaf"
      else
        let m ← (if doFree then m.kfree pte.ppn else .ok m)
        uvmunmapLoop doFree n m (pt.setPte a none) (a + pgSize)

def uvmunmap (m : Mem) (pt : PageTable) (va npages : Nat) (doFree : Bool) :
    Except Panic (Mem × PageTable) :=
  if va % pgSize ≠ 0 then stop "uvmunmap: not aligned"
  else uvmunmapLoop doFree npages m pt va

/-- `uvmcreate`: an empty table. -/
def uvmcreate (m : Mem) : Option PageTable × Mem :=
  match m.kalloc with
  | (none, m) => (none, m)
  | (some f, m) => (some (.zeroed f), m.memset f 0)

/-- `uvmdealloc`; returns the new size. -/
def uvmdealloc (m : Mem) (pt : PageTable) (oldsz newsz : Nat) :
    Except Panic (Nat × Mem × PageTable) :=
  if oldsz ≤ newsz then .ok (oldsz, m, pt)
  else if pgRoundUp newsz < pgRoundUp oldsz then do
    let npages := (pgRoundUp oldsz - pgRoundUp newsz) / pgSize
    let (m, pt) ← uvmunmap m pt (pgRoundUp newsz) npages true
    .ok (newsz, m, pt)
  else .ok (newsz, m, pt)

/-- The loop of `uvmalloc`, for `n` pages from address `a` on. On a failure
`uvmdealloc` gives back what the loop has added since `oldsz`. -/
def uvmallocLoop (oldsz newsz : Nat) (perm : Perm) :
    Nat → Mem → PageTable → Nat → Except Panic (Nat × Mem × PageTable)
  | 0, m, pt, _ => .ok (newsz, m, pt)
  | n + 1, m, pt, a =>
    match m.kalloc with
    | (none, m) => do
      let (_, m, pt) ← uvmdealloc m pt a oldsz
      .ok (0, m, pt)
    | (some mem, m) => do
      let (mapped, m, pt) ← mappages (m.memset mem 0) pt a pgSize mem perm
      if mapped then uvmallocLoop oldsz newsz perm n m pt (a + pgSize)
      else
        let m ← m.kfree mem
        let (_, m, pt) ← uvmdealloc m pt a oldsz
        .ok (0, m, pt)

/-- `uvmalloc`; the result is the new size, or `0` on failure. `xperm` adds
`PTE_W` and `PTE_X`. -/
def uvmalloc (m : Mem) (pt : PageTable) (oldsz newsz : Nat) (xperm : Perm) :
    Except Panic (Nat × Mem × PageTable) :=
  if newsz < oldsz then .ok (oldsz, m, pt)
  else
    let oldsz := pgRoundUp oldsz
    uvmallocLoop oldsz newsz ⟨true, xperm.w, xperm.x, true⟩ (pagesBelow (newsz - oldsz)) m pt oldsz

/-- `freewalk`. A leaf that is still valid panics; every leaf the kernel
installs is readable, so none is taken for a lower-level table. -/
def freewalk (m : Mem) (pt : PageTable) : Except Panic Mem :=
  Table.sweep (Table.sweep (Table.sweep fun _ _ => stop "freewalk: leaf")) m pt

def uvmfree (m : Mem) (pt : PageTable) (sz : Nat) : Except Panic Mem := do
  let (m, pt) ← (if 0 < sz then uvmunmap m pt 0 (pgRoundUp sz / pgSize) true else .ok (m, pt))
  freewalk m pt

/-- The common text of `free_user_page` and `free_user_page_thread`: drop a
reference and unmap. Only with `release` is the page freed when the count
reaches zero. -/
def dropUserPage (release : Bool) (m : Mem) (pt : PageTable) (va : Nat) :
    Except Panic (Mem × PageTable) := do
  match ← pt.walk va with
  | none => .ok (m, pt)
  | some none => .ok (m, pt)
  | some (some pte) =>
    let m := m.krefDec pte.ppn
    let m ← (if release && m.refcount pte.ppn = 0 then m.kfree pte.ppn else .ok m)
    .ok (m, pt.setPte va none)

def freeUserPage := dropUserPage true

/-- The variant for threads: the page is never freed. -/
def freeUserPageThread := dropUserPage false

/-- The loop of `uvmfree_shared`, for `n` pages from address `a` on. -/
def dropUserPages (drop : Mem → PageTable → Nat → Except Panic (Mem × PageTable)) :
    Nat → Mem → PageTable → Nat → Except Panic (Mem × PageTable)
  | 0, m, pt, _ => .ok (m, pt)
  | n + 1, m, pt, a => do
    let (m, pt) ← drop m pt a
    dropUserPages drop n m pt (a + pgSize)

/-- The common text of `uvmfree_shared` and `uvmfree_shared_thread`. -/
def uvmfreeWith (drop : Mem → PageTable → Nat → Except Panic (Mem × PageTable)) (m : Mem)
    (pt : PageTable) (sz : Nat) : Except Panic Mem :=
  if sz = 0 then stop "uvmfree_shared: sz is 0"
  else do
    let (m, pt) ← dropUserPages drop (pagesBelow sz) m pt 0
    freewalk m pt

def uvmfreeShared := uvmfreeWith freeUserPage

def uvmfreeSharedThread := uvmfreeWith freeUserPageThread

/-- The loop of `uvmcopy`, at page `i` with `n` pages to go. On a failure the
`i` pages copied so far are unmapped and freed. -/
def uvmcopyLoop (old : PageTable) :
    Nat → Mem → PageTable → Nat → Except Panic (Bool × Mem × PageTable)
  | 0, m, new, _ => .ok (true, m, new)
  | n + 1, m, new, i => do
    match ← old.walk (i * pgSize) with
    | none => stop "uvmcopy: pte should exist"
    | some none => stop "uvmcopy: page not present"
    | some (some pte) =>
      match m.kalloc with
      | (none, m) => do
        let (m, new) ← uvmunmap m new 0 i true
        .ok (false, m, new)
      | (some mem, m) => do
        let (mapped, m, new) ← mappages (m.memmove mem pte.ppn) new (i * pgSize) pgSize mem pte.perm
        if mapped then uvmcopyLoop old n m new (i + 1)
        else
          let m ← m.kfree mem
          let (m, new) ← uvmunmap m new 0 i true
          .ok (false, m, new)

/-- `uvmcopy`; `false` is the result `-1`. -/
def uvmcopy (m : Mem) (old new : PageTable) (sz : Nat) : Except Panic (Bool × Mem × PageTable) :=
  uvmcopyLoop old (pagesBelow sz) m new 0

/-- The loop of `uvmshare`, at page `i` with `n` pages to go. -/
def uvmshareLoop (src : PageTable) :
    Nat → Mem → PageTable → Nat → Except Panic (Bool × Mem × PageTable)
  | 0, m, dest, _ => .ok (true, m, dest)
  | n + 1, m, dest, i => do
    match ← src.walk (i * pgSize) with
    | none => uvmshareLoop src n m dest (i + 1)
    | some none => uvmshareLoop src n m dest (i + 1)
    | some (some pte) =>
      let (mapped, m, dest) ← mappages m dest (i * pgSize) pgSize pte.ppn pte.perm
      if mapped then uvmshareLoop src n (m.krefInc pte.ppn) dest (i + 1)
      else .ok (false, m, dest)

/-- `uvmshare`; `false` is the result `-1`. -/
def uvmshare (m : Mem) (src dest : PageTable) (sz : Nat) :
    Except Panic (Bool × Mem × PageTable) :=
  uvmshareLoop src (pagesBelow sz) m dest 0

/-- `uvmclear`: take the page away from user code. -/
def uvmclear (pt : PageTable) (va : Nat) : Except Panic PageTable := do
  match ← pt.walk va with
  | none => stop "uvmclear"
  | some e => .ok (pt.setPte va (e.map fun pte => { pte with perm := { pte.perm with u := false } }))

def walkaddr (pt : PageTable) (va : Nat) : Option Ppn :=
  if maxVa ≤ va then none
  else (pt.lookup va).bind fun pte => if pte.perm.u then some pte.ppn else none

/-- The loop of `copyout`; every round moves at least one byte. -/
def copyoutLoop (pt : PageTable) : Nat → Mem → Nat → List UInt8 → Bool × Mem
  | 0, m, _, _ => (true, m)
  | fuel + 1, m, dstva, src =>
    if src = [] then (true, m)
    else
      let va0 := pgRoundDown dstva
      match pt.walkaddr va0 with
      | none => (false, m)
      | some pa0 =>
        let n := min (pgSize - (dstva - va0)) src.length
        copyoutLoop pt fuel (m.store pa0 (dstva - va0) (src.take n)) (va0 + pgSize) (src.drop n)

/-- `copyout`; `false` is the result `-1`. -/
def copyout (m : Mem) (pt : PageTable) (dstva : Nat) (src : List UInt8) : Bool × Mem :=
  copyoutLoop pt src.length m dstva src

end PageTable

end Xv6
