-- SUMMARY: The physical page allocator of kalloc.c: free list, reference counts and page contents.
import Xv6Threads.Base.Except
import Xv6Threads.Base.Weight
import Xv6Threads.Memory.Layout

/-!
# The page allocator

`kalloc.c` keeps the free pages in a linked list threaded through the pages
themselves and a table `refcount[]` indexed by page number. The list is kept
here as a list of page numbers, which is the same thing as long as no page is
on it twice.

`kalloc` and `kfree` never look at `refcount[]`, and nothing initialises an
entry when a page is handed out.
-/

namespace Xv6

/-- How the kernel stops. -/
inductive Panic where
  | panic (msg : String)
  | fault
  | spin
  deriving DecidableEq, Repr

/-- `panic(msg)`. -/
abbrev stop {α : Type} (msg : String) : Except Panic α := .error (.panic msg)

/-- A load or store through a null pointer. Page zero is not mapped in the
kernel's table, so `kerneltrap` panics. -/
abbrev nullDeref {α : Type} : Except Panic α := .error .fault

/-- Physical memory as the allocator sees it. `kend` is the first page after
the kernel image; `data` holds the bytes of pages that carry user memory. -/
structure Mem where
  kend : Ppn
  freelist : List Ppn
  refcount : Ppn → Int
  data : Ppn → Nat → UInt8

namespace Mem

/-- `memset` on a whole page. -/
def memset (m : Mem) (pa : Ppn) (b : UInt8) : Mem :=
  { m with data := fun f => if f = pa then fun _ => b else m.data f }

/-- `memmove` of a whole page. -/
def memmove (m : Mem) (dst src : Ppn) : Mem :=
  { m with data := fun f => if f = dst then m.data src else m.data f }

/-- Store `bytes` into page `pa` from offset `off` on. -/
def store (m : Mem) (pa : Ppn) (off : Nat) (bytes : List UInt8) : Mem :=
  { m with
    data := fun f o =>
      if f = pa ∧ off ≤ o then (bytes[o - off]?).getD (m.data f o) else m.data f o }

/-- The pages `kfree` accepts: not below `end`, below `PHYSTOP`. -/
def InRange (m : Mem) (pa : Ppn) : Prop := m.kend ≤ pa ∧ pa < physTop

instance (m : Mem) (pa : Ppn) : Decidable (m.InRange pa) :=
  inferInstanceAs (Decidable (_ ∧ _))

def kfree (m : Mem) (pa : Ppn) : Except Panic Mem :=
  if ¬ m.InRange pa then stop "kfree"
  else
    -- Fill with junk to catch dangling refs.
    let m := m.memset pa 1
    .ok { m with freelist := pa :: m.freelist }

def kalloc (m : Mem) : Option Ppn × Mem :=
  match m.freelist with
  | [] => (none, m)
  | r :: rest => (some r, { m with freelist := rest }.memset r 5)

def krefInc (m : Mem) (pa : Ppn) : Mem :=
  { m with refcount := fun f => if f = pa then m.refcount f + 1 else m.refcount f }

/-- `kref_dec`; the count it returns is `refcount pa` of the result. -/
def krefDec (m : Mem) (pa : Ppn) : Mem :=
  { m with refcount := fun f => if f = pa then m.refcount f - 1 else m.refcount f }

/-- The free list `freerange` leaves: the `n` pages from `lo` on are freed in
increasing order, each put at the head. -/
def freerange (lo : Ppn) : Nat → List Ppn
  | 0 => []
  | n + 1 => (lo + n) :: freerange lo n

/-- `kinit`: every page between the kernel image and `PHYSTOP`. -/
def kinit (kend : Ppn) : List Ppn := freerange kend (physTop - kend)

/-- The weight of the free list. -/
def weigh (m : Mem) (w : Ppn → Nat) : Nat := Weight.ofList w m.freelist

/-! ## Projections -/

section Projections

variable (m : Mem) (pa : Ppn) (b : UInt8) (off : Nat) (bytes : List UInt8)

@[simp] theorem memset_kend : (m.memset pa b).kend = m.kend := rfl
@[simp] theorem memset_freelist : (m.memset pa b).freelist = m.freelist := rfl
@[simp] theorem memset_refcount : (m.memset pa b).refcount = m.refcount := rfl
@[simp] theorem store_kend : (m.store pa off bytes).kend = m.kend := rfl
@[simp] theorem store_freelist : (m.store pa off bytes).freelist = m.freelist := rfl
@[simp] theorem store_refcount : (m.store pa off bytes).refcount = m.refcount := rfl
@[simp] theorem krefInc_freelist : (m.krefInc pa).freelist = m.freelist := rfl

end Projections

@[simp] theorem weigh_memset (m : Mem) (pa : Ppn) (b : UInt8) (w : Ppn → Nat) :
    (m.memset pa b).weigh w = m.weigh w := rfl
@[simp] theorem weigh_krefInc (m : Mem) (pa : Ppn) (w : Ppn → Nat) :
    (m.krefInc pa).weigh w = m.weigh w := rfl
@[simp] theorem weigh_krefDec (m : Mem) (pa : Ppn) (w : Ppn → Nat) :
    (m.krefDec pa).weigh w = m.weigh w := rfl

/-! ## What the allocator does -/

theorem kfree_ok {m m' : Mem} {pa : Ppn} (h : m.kfree pa = .ok m') :
    m.InRange pa ∧ m' = { m.memset pa 1 with freelist := pa :: m.freelist } := by
  unfold kfree at h
  split at h
  · cases h
  · rename_i hr
    cases h
    exact ⟨not_not.1 hr, rfl⟩

theorem kfree_of_inRange {m : Mem} {pa : Ppn} (h : m.InRange pa) :
    m.kfree pa = .ok { m.memset pa 1 with freelist := pa :: m.freelist } := by
  unfold kfree
  rw [if_neg (not_not.2 h)]
  rfl

theorem kalloc_none {m m' : Mem} (h : m.kalloc = (none, m')) : m.freelist = [] ∧ m' = m := by
  unfold kalloc at h
  split at h
  · rename_i hnil; cases h; exact ⟨hnil, rfl⟩
  · cases h

theorem kalloc_some {m m' : Mem} {r : Ppn} (h : m.kalloc = (some r, m')) :
    m.freelist = r :: m'.freelist ∧ m' = { m with freelist := m'.freelist }.memset r 5 := by
  unfold kalloc at h
  split at h
  · cases h
  · rename_i hcons; cases h; exact ⟨hcons, rfl⟩

theorem weigh_kalloc {m m' : Mem} {r : Ppn} (h : m.kalloc = (some r, m')) (w : Ppn → Nat) :
    w r + m'.weigh w = m.weigh w := by
  rw [weigh, weigh, (kalloc_some h).1, Weight.ofList_cons]

theorem weigh_kfree {m m' : Mem} {pa : Ppn} (h : m.kfree pa = .ok m') (w : Ppn → Nat) :
    m'.weigh w = w pa + m.weigh w := by
  rw [(kfree_ok h).2, weigh, weigh, Weight.ofList_cons]

theorem kalloc_refcount {m m' : Mem} {r : Option Ppn} (h : m.kalloc = (r, m')) :
    m'.refcount = m.refcount := by
  cases r with
  | none => rw [(kalloc_none h).2]
  | some r => rw [(kalloc_some h).2]; rfl

theorem kalloc_kend {m m' : Mem} {r : Option Ppn} (h : m.kalloc = (r, m')) :
    m'.kend = m.kend := by
  cases r with
  | none => rw [(kalloc_none h).2]
  | some r => rw [(kalloc_some h).2]; rfl

theorem kfree_refcount {m m' : Mem} {pa : Ppn} (h : m.kfree pa = .ok m') :
    m'.refcount = m.refcount := by
  rw [(kfree_ok h).2]; rfl

theorem kfree_kend {m m' : Mem} {pa : Ppn} (h : m.kfree pa = .ok m') : m'.kend = m.kend := by
  rw [(kfree_ok h).2]; rfl

theorem mem_freerange {lo n pa : Nat} : pa ∈ freerange lo n ↔ lo ≤ pa ∧ pa < lo + n := by
  induction n with
  | zero => simp only [freerange, List.not_mem_nil, false_iff]; omega
  | succ n ih => simp only [freerange, List.mem_cons, ih]; omega

end Mem

end Xv6
