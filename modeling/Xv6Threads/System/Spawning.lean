-- SUMMARY: thread_create: what it needs, when a failed call leaves nothing behind.
import Xv6Threads.Process.Supplies
import Xv6Threads.System.Growing
import Xv6Threads.System.Range

/-!
# thread_create and memory

`thread_create` takes pages in four places: four in `allocproc`, the table
pages that the new table lacks for the pages of the caller, one page for the
stack, and the table pages that a member lacks for the stack. Only the first of
these failures is undone. The results of `uvmshare` and of `mappages` are not
tested, and after `bad` the slot stays in state `USED` with all it was given.
-/

namespace Xv6

open PageTable

namespace Kernel

variable {k k' : Kernel} {p q np : Slot} {l : List Slot} {start arg : Nat} {b : Boot}

/-- The pages that hold a stack mapped at `sz`: one, or two if `sz` lies inside
a page. -/
def stackPages (sz : Nat) : Finset Nat := Finset.Ico (sz / pgSize) (pagesBelow (sz + pgSize))

/-- The pages that `thread_create` by `p`, with team `l`, takes for a thread in
slot `np`. -/
def createNeed (k : Kernel) (p np : Slot) (l : List Slot) : Nat :=
  4 + blank.missing (k.mappedPages p ∪ stackPages (k.proc p).sz) + 1 +
    k.othersNeed np l (stackPages (k.proc p).sz)

/-! ## A failed call -/

/-- The slot `np` is unused again, every other slot and the reference counts are
as before, and so are the free pages, up to their order. -/
structure Undone (k : Kernel) (np : Slot) (k' : Kernel) : Prop where
  slot : (k'.proc np).state = .unused
  others : ∀ q, q ≠ np → k'.proc q = k.proc q
  refcount : k'.mem.refcount = k.mem.refcount
  free : k'.mem.freelist.Perm k.mem.freelist
  files : k'.ftable = k.ftable ∧ k'.pipes = k.pipes ∧ k'.iref = k.iref

theorem allocproc_none_undone (hfind : k.findUnused = some np) (h : k.allocproc = .ok (none, k')) :
    k.Undone np k' := by
  rcases allocproc_none h with ⟨hnone, -⟩ | ⟨np', m, hfind', hm, rfl⟩
  · rw [hnone] at hfind
    cases hfind
  obtain rfl := Option.some.inj (hfind'.symm.trans hfind)
  refine ⟨?_, fun q hq => Function.update_of_ne hq _ _, ?_, ?_, rfl, rfl, rfl⟩
  · simp [Proc.clear]
  · rcases hm with hk | ⟨tf, m₁, m₂, hk, hpt, hfree⟩
    · exact Mem.kalloc_refcount hk
    · show m.refcount = _
      rw [Mem.kfree_refcount hfree, (procPagetable_none hpt fun _ => 0).refcount, Mem.kalloc_refcount hk]
  · refine Weight.perm_of_ofList fun w => ?_
    rcases hm with hk | ⟨tf, m₁, m₂, hk, hpt, hfree⟩
    · obtain ⟨-, rfl⟩ := Mem.kalloc_none hk
      rfl
    · have h₁ := Mem.weigh_kfree hfree w
      have h₂ := (procPagetable_none hpt w).weigh
      have h₃ := Mem.weigh_kalloc hk w
      show m.weigh w = k.mem.weigh w
      omega

/-- A call that has run out of memory is undone if and only if it ran out in
`allocproc`, which takes four pages. -/
theorem threadCreate_undone_iff (hk : Reachable b k) (hp : (k.proc p).state = .running) (_ht : k.Team p l)
    (hfind : k.findUnused = some np) :
    (k.mem.freelist.length < k.createNeed p np l →
      ∃ k', k.threadCreate p start arg = .ok (-1, k') ∧ k.Undone np k') ↔
    (k.createNeed p np l ≤ k.mem.freelist.length ∨ k.mem.freelist.length < 4) := by
  constructor
  · intro hundone
    rw [or_iff_not_imp_left, not_le]
    intro hshort
    by_contra hfour
    obtain ⟨k', hcreate, hslot⟩ := hundone hshort
    have hphase : (k'.entries np).phase = .unused := congrArg ProcState.phase hslot.slot
    obtain ⟨k₁, halloc⟩ := allocproc_total hfind (not_lt.1 hfour)
    rcases threadCreate_cases (wellGrouped_of_reaches hk) (by simp [hp, ProcState.phase]) hcreate with
      hnone | ⟨np', ms, k₁', k₂, pt, npt, c, m, npt', halloc', -, -, -, -, -, -, -, hend⟩
    · rw [halloc] at hnone
      cases hnone
    obtain rfl : np' = np := Option.some.inj ((allocproc_some halloc').1.symm.trans hfind)
    -- the slot is in use, whether the thread was started or not
    rcases hend with ⟨m', -, -, hE⟩ | ⟨stack, m', k₃, -, -, -, -, hE⟩
    · rw [hE, Function.update_self] at hphase
      cases hphase
    · rw [hE, Entries.linkIn, if_pos rfl] at hphase
      cases hphase
  · rintro (henough | hfour) hshort
    · omega
    · obtain ⟨⟨o, k'⟩, halloc, rfl⟩ := allocproc_short hfind (ranged_of_reaches hk) hfour
      refine ⟨k', ?_, allocproc_none_undone hfind halloc⟩
      rw [threadCreate, halloc]
      rfl

end Kernel

/-- With three free pages, `allocproc` gives up and nothing is changed. -/
theorem threadCreate_undone_of_three : ∃ (k : Kernel) (np : Slot), Reachable (Boot.tight 10) k ∧
    k.mem.freelist.length < k.createNeed ⟨0, by decide⟩ np [⟨0, by decide⟩] ∧
    ∃ k', k.threadCreate ⟨0, by decide⟩ 0 0 = .ok (-1, k') ∧ k.Undone np k' := by
  have hrun : ((Boot.tight 10).run anyStep [.schedule ⟨0, by decide⟩]).any
      (fun k => (k.proc ⟨0, by decide⟩).state = .running ∧ (k.proc ⟨0, by decide⟩).groupLeader = none ∧
        k.findUnused = some ⟨1, by decide⟩ ∧ k.mem.freelist.length = 3 ∧
        k.createNeed ⟨0, by decide⟩ ⟨1, by decide⟩ [⟨0, by decide⟩] = 7) = true := by
    decide +kernel
  obtain ⟨k, hk, hc⟩ := exists_reaches_of_run hrun
  obtain ⟨hp, hL, hfind, hfree, hneed⟩ := of_decide_eq_true hc
  have hshort : k.mem.freelist.length < k.createNeed ⟨0, by decide⟩ ⟨1, by decide⟩ [⟨0, by decide⟩] := by
    rw [hfree, hneed]
    decide
  exact ⟨k, _, hk, hshort, (Kernel.threadCreate_undone_iff hk hp (.single hL) hfind).2 (.inr (by omega)) hshort⟩

/-- With five free pages, `allocproc` succeeds and the page for the stack is missing. -/
theorem threadCreate_undone_of_five : ¬ ∀ (b : Boot) (k : Kernel) (p np : Slot) (l : List Slot) (start arg : Nat),
    Reachable b k → (k.proc p).state = .running → k.Team p l → k.findUnused = some np →
    k.mem.freelist.length < k.createNeed p np l →
    ∃ k', k.threadCreate p start arg = .ok (-1, k') ∧ k.Undone np k' := by
  intro hall
  have hrun : ((Boot.tight 12).run anyStep [.schedule ⟨0, by decide⟩]).any
      (fun k => (k.proc ⟨0, by decide⟩).state = .running ∧ (k.proc ⟨0, by decide⟩).groupLeader = none ∧
        k.findUnused = some ⟨1, by decide⟩ ∧ k.mem.freelist.length = 5 ∧
        k.createNeed ⟨0, by decide⟩ ⟨1, by decide⟩ [⟨0, by decide⟩] = 7 ∧
        (match k.threadCreate ⟨0, by decide⟩ 0 0 with
          | .ok (_, k') => decide ((k'.proc ⟨1, by decide⟩).state = .used)
          | .error _ => false) = true) = true := by
    decide +kernel
  obtain ⟨k, hk, hc⟩ := exists_reaches_of_run hrun
  obtain ⟨hp, hL, hfind, hfree, hneed, hused⟩ := of_decide_eq_true hc
  obtain ⟨k', hcreate, hundone⟩ := hall _ k _ _ _ 0 0 hk hp (.single hL) hfind (by rw [hfree, hneed]; decide)
  rw [hcreate] at hused
  exact absurd ((of_decide_eq_true hused).symm.trans hundone.slot) (by decide)

end Xv6
