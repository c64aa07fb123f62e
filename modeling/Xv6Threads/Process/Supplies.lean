-- SUMMARY: What allocproc takes from the free list: four pages, or nothing.
import Xv6Threads.Memory.Copying
import Xv6Threads.Memory.Range
import Xv6Threads.Process.Tables

/-!
# What a slot costs

`allocproc` takes one page for the trapframe and three for the table that maps
the trampoline and the trapframe. With fewer free pages it gives back what it
has taken, and the slot is unused again.
-/

namespace Xv6

open PageTable

variable {m m' : Mem} {pt pt' : PageTable} {tramp tf : Ppn} {S : Finset Nat} {v : Nat}

namespace PageTable

/-- Two tables lack the same table pages. -/
structure SameShape (pt pt' : PageTable) : Prop where
  mids : ∀ i, (pt'.entry i).isNone = (pt.entry i).isNone
  leaves : ∀ i j, ((pt'.entry i).bind fun mid => mid.entry j).isNone =
    ((pt.entry i).bind fun mid => mid.entry j).isNone

theorem SameShape.missing (h : SameShape pt pt') (S : Finset Nat) : pt'.missing S = pt.missing S :=
  missing_congr h.mids h.leaves S

theorem SameShape.trans {pt'' : PageTable} (h : SameShape pt pt') (h' : SameShape pt' pt'') : SameShape pt pt'' :=
  ⟨fun i => (h'.mids i).trans (h.mids i), fun i j => (h'.leaves i j).trans (h.leaves i j)⟩

theorem setPte_sameShape (pt : PageTable) (va : Nat) (x : Option Pte) : SameShape pt (pt.setPte va x) := by
  unfold setPte
  split
  · exact ⟨fun _ => rfl, fun _ _ => rfl⟩
  · rename_i mid hmid
    split
    · exact ⟨fun _ => rfl, fun _ _ => rfl⟩
    · rename_i leaves hleaves
      refine ⟨fun i => ?_, fun i j => ?_⟩
      · by_cases hi : i = px 2 va
        · simp [hi, hmid]
        · simp [Table.put_entry_ne _ hi]
      · by_cases hi : i = px 2 va
        · by_cases hj : j = px 1 va
          · simp [hi, hj, hmid, hleaves]
          · simp [hi, hmid, Table.put_entry_ne _ hj]
        · simp [Table.put_entry_ne _ hi]

/-- A table with nothing but the way to the trampoline. -/
def blank : PageTable :=
  (Table.zeroed 0).put (px 2 trampoline) (some ((Table.zeroed 0).put (px 1 trampoline) (some (.zeroed 0))))

/-- The table pages on the way to `va` are put into an empty table. -/
theorem walkAlloc_zeroed {f : Ppn} (h : walkAlloc m (.zeroed f) trampoline = .ok (true, m', pt')) :
    SameShape blank pt' := by
  obtain ⟨mid, m₁, leaves, hd₁, -, rfl⟩ := walkAlloc_found h
  obtain ⟨-, hsub⟩ := demand_used hd₁
  refine ⟨fun i => ?_, fun i j => ?_⟩
  · by_cases hi : i = px 2 trampoline
    · simp [hi, blank]
    · simp [blank, Table.put_entry_ne _ hi]
  · by_cases hi : i = px 2 trampoline
    · by_cases hj : j = px 1 trampoline
      · simp [hi, hj, blank]
      · have := hsub j
        simp only [hi, blank, Table.put_entry_same, Option.bind_some, Table.put_entry_ne _ hj, this]
        rfl
    · simp [blank, Table.put_entry_ne _ hi]

/-- A `walk` along table pages that are there takes nothing. -/
theorem walkAlloc_sameShape {va : Nat} (h : walkAlloc m pt va = .ok (true, m', pt'))
    (hthere : ((pt.entry (px 2 va)).bind fun mid => mid.entry (px 1 va)).isNone = false) : SameShape pt pt' := by
  obtain ⟨mid, m₁, leaves, hd₁, -, rfl⟩ := walkAlloc_found h
  obtain ⟨-, hsub⟩ := demand_used hd₁
  have hmid : (pt.entry (px 2 va)).isNone = false := by
    cases hi : pt.entry (px 2 va) with
    | none => simp [hi] at hthere
    | some mid => rfl
  refine ⟨fun i => ?_, fun i j => ?_⟩
  · by_cases hi : i = px 2 va
    · simp [hi, hmid]
    · simp [Table.put_entry_ne _ hi]
  · by_cases hi : i = px 2 va
    · by_cases hj : j = px 1 va
      · simp only [hi, hj, Table.put_entry_same, Option.bind_some, hthere]
        rfl
      · have := hsub j
        simp only [hi, Table.put_entry_same, Option.bind_some, Table.put_entry_ne _ hj, this]
    · simp [Table.put_entry_ne _ hi]

end PageTable

/-! ## proc_pagetable -/

theorem missing_zeroed (f : Ppn) : PageTable.missing (.zeroed f) {userPages + 1} = 2 := by
  simp [missing, missingMids, missingLeaves, Finset.filter_singleton]

theorem missing_blank : blank.missing {userPages + 1} = 0 ∧ blank.missing {userPages} = 0 := by
  have hsame₂ : px 2 (userPages * pgSize) = px 2 trampoline := by decide
  have hsame₁ : px 1 (userPages * pgSize) = px 1 trampoline := by decide
  constructor
  · simp [missing, missingMids, missingLeaves, ← trampoline_eq, blank, Finset.filter_singleton]
  · simp [missing, missingMids, missingLeaves, blank, hsame₂, hsame₁, Finset.filter_singleton]

/-- The trampoline is mapped into an empty table: two table pages. -/
theorem mappages_trampoline {f : Ppn} {pa : Ppn} {perm : Perm}
    (h : mappages m (.zeroed f) trampoline pgSize pa perm = .ok (true, m', pt)) :
    SameShape blank pt ∧ m'.freelist.length + 2 = m.freelist.length := by
  rw [trampoline_eq] at h
  obtain ⟨pt₀, hwalk, rfl⟩ := mappages_parts h
  have hused := (mappages_spends (Finset.mem_singleton_self _) h).used rfl
  rw [← trampoline_eq] at hwalk
  have hshape := (walkAlloc_zeroed hwalk).trans (setPte_sameShape _ ((userPages + 1) * pgSize) (some ⟨pa, perm⟩))
  rw [missing_zeroed, hshape.missing, missing_blank.1] at hused
  exact ⟨hshape, by omega⟩

/-- The trapframe is mapped below it: the table pages are there. -/
theorem mappages_trapframe {pa : Ppn} {perm : Perm} (hshape : SameShape blank pt)
    (h : mappages m pt trapframeVa pgSize pa perm = .ok (true, m', pt')) :
    SameShape blank pt' ∧ m'.freelist.length = m.freelist.length := by
  rw [trapframeVa_eq] at h
  obtain ⟨pt₀, hwalk, rfl⟩ := mappages_parts h
  have hused := (mappages_spends (Finset.mem_singleton_self _) h).used rfl
  have hthere : ((pt.entry (px 2 (userPages * pgSize))).bind fun mid =>
      mid.entry (px 1 (userPages * pgSize))).isNone = false := by
    rw [hshape.leaves]
    decide
  have hshape' := (hshape.trans (walkAlloc_sameShape hwalk hthere)).trans (setPte_sameShape _ (userPages * pgSize) (some ⟨pa, perm⟩))
  rw [hshape'.missing, hshape.missing, missing_blank.2] at hused
  exact ⟨hshape', by omega⟩

theorem uvmcreate_some (h : uvmcreate m = (some pt, m')) :
    ∃ f, pt = .zeroed f ∧ m.Draws m' ∧ m'.freelist.length + 1 = m.freelist.length := by
  unfold uvmcreate at h
  split at h
  · cases h
  · rename_i f m₁ hk
    cases h
    exact ⟨f, rfl, Mem.kalloc_draws hk 0⟩

/-- The table of a process takes three pages. -/
theorem procPagetable_takes (h : procPagetable m tramp tf = .ok (some pt, m')) :
    m.Draws m' ∧ m'.freelist.length + 3 = m.freelist.length ∧ SameShape blank pt := by
  unfold procPagetable at h
  split at h
  · cases h
  rename_i pt₀ m₀ hcreate
  obtain ⟨f, rfl, hdraws₀, hlen₀⟩ := uvmcreate_some hcreate
  obtain ⟨⟨b₁, m₁, pt₁⟩, hmap₁, h⟩ := Except.bind_ok_iff.1 h
  cases b₁ with
  | false =>
    obtain ⟨m₂, -, h⟩ := Except.bind_ok_iff.1 h
    cases h
  | true =>
    obtain ⟨⟨b₂, m₂, pt₂⟩, hmap₂, h⟩ := Except.bind_ok_iff.1 h
    cases b₂ with
    | false =>
      obtain ⟨⟨m₃, pt₃⟩, -, h⟩ := Except.bind_ok_iff.1 h
      obtain ⟨m₄, -, h⟩ := Except.bind_ok_iff.1 h
      cases h
    | true =>
      cases h
      obtain ⟨hshape₁, hlen₁⟩ := mappages_trampoline hmap₁
      obtain ⟨hshape₂, hlen₂⟩ := mappages_trapframe hshape₁ hmap₂
      exact ⟨(hdraws₀.trans (mappages_draws hmap₁)).trans (mappages_draws hmap₂), by omega, hshape₂⟩

/-- Three pages are enough for it. -/
theorem procPagetable_total (tramp tf : Ppn) (hmem : 3 ≤ m.freelist.length) :
    ∃ pt m', procPagetable m tramp tf = .ok (some pt, m') := by
  obtain ⟨f, m₀, hk⟩ := Mem.kalloc_of_pos (m := m) (by omega)
  have hlen₀ := (Mem.kalloc_draws hk 0).2
  have hcreate : uvmcreate m = (some (.zeroed f), m₀.memset f 0) := by rw [uvmcreate, hk]
  obtain ⟨m₁, pt₁, hmap₁, -⟩ := mappages_total (m := m₀.memset f 0) (S := {userPages + 1}) tramp permRX
    (by decide) (Finset.mem_singleton_self _) (by rw [missing_zeroed, Mem.memset_freelist]; omega)
    (show PageTable.leaf (.zeroed f) (userPages + 1) = none from rfl)
  have hfree : pt₁.leaf userPages = none := by
    have hout := (mappages_page hmap₁).2.2.2.1
    rw [hout userPages (by decide) (by omega)]
    rfl
  rw [← trampoline_eq] at hmap₁
  have hneed : pt₁.missing {userPages} = 0 := ((mappages_trampoline hmap₁).1.missing _).trans missing_blank.2
  obtain ⟨m₂, pt₂, hmap₂, -⟩ := mappages_total (m := m₁) (S := {userPages}) tf permRW (by decide)
    (Finset.mem_singleton_self _) (by rw [hneed]; exact Nat.zero_le _) hfree
  rw [← trapframeVa_eq] at hmap₂
  refine ⟨pt₂, m₂, ?_⟩
  rw [procPagetable, hcreate]
  exact Except.bind_ok_iff.2 ⟨_, hmap₁, Except.bind_ok_iff.2 ⟨_, hmap₂, rfl⟩⟩

/-- With less there is no table, and every page goes back. -/
theorem procPagetable_short (tramp tf : Ppn) (hrange : m.Ranged) (hmem : m.freelist.length < 3) :
    ∃ m', procPagetable m tramp tf = .ok (none, m') := by
  rcases hcreate : uvmcreate m with ⟨o, m₀⟩
  cases o with
  | none => exact ⟨m₀, by rw [procPagetable, hcreate]⟩
  | some pt₀ =>
    obtain ⟨hkend, -, hpages, hnone⟩ := uvmcreate_ok hcreate
    obtain ⟨f, rfl, -, hlen⟩ := uvmcreate_some hcreate
    obtain ⟨⟨found, m₁, pt₁⟩, hwalk⟩ := walkAlloc_returns m₀ (.zeroed f) (show trampoline < maxVa by decide)
    cases found with
    | true =>
      have hshape := walkAlloc_zeroed hwalk
      rw [trampoline_eq] at hwalk
      have hused := walkAlloc_used (Finset.mem_singleton_self _) hwalk
      rw [missing_zeroed, hshape.missing, missing_blank.1] at hused
      omega
    | false =>
      obtain ⟨-, hext, -, -⟩ := walkAlloc_ok hwalk
      have hmap : mappages m₀ (.zeroed f) trampoline pgSize tramp permRX = .ok (false, m₁, pt₁) := by
        rw [trampoline_eq] at hwalk ⊢
        rw [mappages_aligned, mappagesLoop, hwalk]
        rfl
      have hbeyond : m₁.beyond = m.beyond := Mem.beyond_congr (hext.keeps.kend.trans hkend)
      have hzero : pt₁.weigh m₁.beyond = 0 := by
        have h₁ := hext.pages m.beyond
        have h₂ := hpages m.beyond
        have h₃ := hrange.weigh
        rw [hbeyond]
        omega
      obtain ⟨m₂, hfree⟩ := freewalk_total (fun v _ => (hext.leaf v).trans (hnone v)) hzero
      have huvm : pt₁.uvmfree m₁ 0 = .ok m₂ := by
        rw [uvmfree, if_neg (Nat.lt_irrefl 0)]
        exact Except.bind_ok_iff.2 ⟨(m₁, pt₁), rfl, hfree⟩
      refine ⟨m₂, ?_⟩
      rw [procPagetable, hcreate]
      exact Except.bind_ok_iff.2 ⟨_, hmap, Except.bind_ok_iff.2 ⟨m₂, huvm, rfl⟩⟩

namespace Kernel

variable {k k' : Kernel} {p : Slot}

/-! ## allocproc -/

/-- A slot takes four pages. -/
theorem allocproc_draws (h : k.allocproc = .ok (some p, k')) :
    k.mem.Draws k'.mem ∧ k'.mem.freelist.length + 4 = k.mem.freelist.length ∧
      ∃ pt, (k'.proc p).pagetable = some pt ∧ SameShape blank pt := by
  obtain ⟨-, tf, m, pt, m', hk, hpt, rfl⟩ := allocproc_some h
  obtain ⟨hdraws, hlen, hshape⟩ := procPagetable_takes hpt
  have hlen₀ := (Mem.kalloc_draws hk 5).2
  exact ⟨(Mem.kalloc_draws' hk).trans hdraws, by dsimp only; omega, pt, by simp, hshape⟩

/-- Four pages are enough for it. -/
theorem allocproc_total (hfind : k.findUnused = some p) (hmem : 4 ≤ k.mem.freelist.length) :
    ∃ k', k.allocproc = .ok (some p, k') := by
  obtain ⟨tf, m₀, hk⟩ := Mem.kalloc_of_pos (m := k.mem) (by omega)
  have hlen := (Mem.kalloc_draws hk 5).2
  obtain ⟨pt, m₁, hpt⟩ := procPagetable_total k.tramp tf (m := m₀) (by omega)
  unfold allocproc
  rw [hfind]
  dsimp only [allocpid, modify_mem]
  rw [hk]
  exact ⟨_, Except.bind_ok_iff.2 ⟨_, hpt, rfl⟩⟩

theorem freeSelf_of_trapframe {m : Mem} (h : freeTrapframe k.mem (k.proc p) = .ok m) :
    (k.freeSelf p).Returns fun _ => True := ⟨_, Except.bind_ok_iff.2 ⟨m, h, rfl⟩, trivial⟩

/-- With less the slot is given up again. -/
theorem allocproc_short (hfind : k.findUnused = some p) (hrange : k.mem.Ranged) (hmem : k.mem.freelist.length < 4) :
    k.allocproc.Returns fun r => r.1 = none := by
  unfold allocproc
  rw [hfind]
  dsimp only [allocpid, modify_mem]
  rcases hk : k.mem.kalloc with ⟨o, m₀⟩
  have hrecycles := (Mem.Recycles.refl k.mem).kalloc hk
  cases o with
  | none =>
    refine Except.Returns.bind (P := fun _ => True) ?_ fun _ _ => ⟨_, rfl, rfl⟩
    rw [freeproc_of_ungrouped (by simp [Proc.claim])]
    exact freeSelf_of_trapframe (by rw [modify_proc_same]; rfl)
  | some tf =>
    have hlen := (Mem.kalloc_draws hk 5).2
    have htf : k.mem.InRange tf := hrange tf (by rw [(Mem.kalloc_some hk).1]; exact List.mem_cons_self ..)
    obtain ⟨m₁, hpt⟩ := procPagetable_short k.tramp tf (m := m₀) (hrange.of_recycles hrecycles) (by omega)
    have hkend : m₁.kend = k.mem.kend := ((procPagetable_none hpt (fun _ => 0)).kend).trans (Mem.kalloc_kend hk)
    have hfree := Mem.kfree_of_inRange (m := m₁) (show m₁.InRange tf by rw [Mem.InRange, hkend]; exact htf)
    refine Except.Returns.bind (P := fun r => r = (none, m₁)) ⟨_, hpt, rfl⟩ fun r hr => ?_
    rw [hr]
    refine Except.Returns.bind (P := fun _ => True) ?_ fun _ _ => ⟨_, rfl, rfl⟩
    rw [freeproc_of_ungrouped (by simp [Proc.claim])]
    exact freeSelf_of_trapframe (by simpa [freeTrapframe] using hfree)

end Kernel

end Xv6
