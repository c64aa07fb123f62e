-- SUMMARY: What thread_create takes from the free list before a thread has its stack, and when it is not enough.
import Xv6Threads.Process.Sharing
import Xv6Threads.Process.Supplies

/-!
# Shortage

`thread_create` takes four pages for the slot, the table pages that the new
table lacks for the pages of the caller, a page for the stack, and the table
pages that the leader and then the new thread lack for it. So the free list
before the call says where it runs out. It matters in two places: without a
page for the stack the slot is left behind in state `USED`, and without a table
page the thread runs without its stack.
-/

namespace Xv6

open PageTable

namespace Kernel

variable {k k' k₁ k₂ : Kernel} {p q np L : Slot} {v : Nat} {S : Finset Nat}

/-- The pages below its size that `p` maps. -/
def mappedPages (k : Kernel) (p : Slot) : Finset Nat :=
  (Finset.range (pagesBelow (k.proc p).sz)).filter fun v => (k.pte p v).isSome

/-- The table pages that slot `q` lacks for the virtual pages in `S`. -/
def tableNeed (k : Kernel) (q : Slot) (S : Finset Nat) : Nat := (k.rooms q).table.elim 0 fun pt => pt.missing S

/-- The pages that `thread_create` by `p` takes for a slot and to share the pages of `p`. -/
def shareNeed (k : Kernel) (p : Slot) : Nat := 4 + blank.missing (k.mappedPages p)

/-- The table pages that the new thread lacks for a stack at page `v` when the pages of `p` are shared. -/
def stackNeed (k : Kernel) (p : Slot) (v : Nat) : Nat :=
  blank.missing (k.mappedPages p ∪ {v}) - blank.missing (k.mappedPages p)

/-- There are pages for a slot, but when those of `p` are shared none is left for the stack. -/
def lacksStack (k : Kernel) (p : Slot) : Bool :=
  k.findUnused.isSome && decide (4 ≤ k.mem.freelist.length ∧ k.mem.freelist.length ≤ k.shareNeed p)

/-- There is a page for the stack, but when the leader has been served too few are
left for the table of the new thread. -/
def lacksTable (k : Kernel) (p : Slot) : Bool :=
  let v := (k.proc p).sz / pgSize
  k.findUnused.isSome && decide (k.shareNeed p < k.mem.freelist.length ∧ 0 < k.stackNeed p v ∧
    k.mem.freelist.length < k.shareNeed p + 1 + k.tableNeed (k.leaderOf p) {v} + k.stackNeed p v)

/-! ## Sharing -/

/-- Up to the sharing of its pages: what is left, and what the new table lacks then. -/
structure Shares (k : Kernel) (p : Slot) (ok : Bool) (m : Mem) (npt : PageTable) : Prop where
  enough : 4 ≤ k.mem.freelist.length
  left : ok = true → m.freelist.length + k.shareNeed p = k.mem.freelist.length
  lacks : ok = true → ∀ T, npt.missing T + blank.missing (k.mappedPages p) = blank.missing (k.mappedPages p ∪ T)
  short : ok = false → m.freelist = [] ∧ k.mem.freelist.length < k.shareNeed p

theorem shares_of_parts {pt npt npt' : PageTable} {m : Mem} {ok : Bool} (halloc : k.allocproc = .ok (some np, k₁))
    (hpnp : p ≠ np) (henter : (k₁.foundGroup p).enterGroup L np = .ok k₂) (hpt : (k₂.proc p).pagetable = some pt)
    (hnpt : (k₂.proc np).pagetable = some npt) (hshare : uvmshare k₂.mem pt npt (k₂.proc p).sz = .ok (ok, m, npt')) :
    k.Shares p ok m npt' := by
  obtain ⟨-, hlen, npt₀, hnpt₀, hshape⟩ := allocproc_draws halloc
  have hrooms := ((balanced_foundGroup k₁ p).trans (enterGroup_balanced henter)).rooms
  have hmem : k₂.mem = k₁.mem := by rw [enterGroup_mem henter, foundGroup_mem]
  have hcaller : k₂.rooms p = k.rooms p := by
    rw [hrooms]
    exact congrArg Proc.room ((allocproc_some_proc halloc).1 p hpnp)
  obtain rfl : npt₀ = npt :=
    Option.some.inj (hnpt₀.symm.trans ((congrArg Room.table (congrFun hrooms np)).symm.trans hnpt))
  have hpt' : (k.rooms p).table = some pt := (congrArg Room.table hcaller).symm.trans hpt
  have hsz : (k₂.proc p).sz = (k.proc p).sz := congrArg Room.size hcaller
  rw [hmem, hsz] at hshare
  have hmapped : ∀ {u}, u < pagesBelow (k.proc p).sz → pt.leaf u ≠ none → u ∈ k.mappedPages p := by
    intro u hu hne
    rw [mappedPages, Finset.mem_filter, Finset.mem_range, pte, hpt']
    exact ⟨hu, Option.isSome_iff_ne_none.2 hne⟩
  have hspends : ∀ T, Spends k₁.mem npt₀ ok m npt' (k.mappedPages p ∪ T) := fun T =>
    uvmshareLoop_spends (fun u _ hu hne => Finset.mem_union_left _ (hmapped (by omega) hne)) hshare
  have hone := hspends ∅
  rw [Finset.union_empty] at hone
  have hfull : ok = true → ∀ u ∈ k.mappedPages p, npt'.leaf u ≠ none := by
    rintro rfl u hu
    obtain ⟨hi, hshares, ⟨-, rfl⟩ | ⟨hf, -⟩⟩ := uvmshare_ok hshare
    · obtain ⟨hlt, hsome⟩ := Finset.mem_filter.1 hu
      obtain ⟨e, he⟩ := Option.isSome_iff_exists.1 hsome
      rw [pte, hpt'] at he
      rw [((hshares.inside u (Finset.mem_range.1 hlt)).2.2 e he).2]
      exact Option.some_ne_none e
    · cases hf
  have hleft : ok = true → m.freelist.length + k.shareNeed p = k.mem.freelist.length := by
    intro hok
    have hused := hone.used hok
    rw [missing_eq_zero (hfull hok), hshape.missing] at hused
    unfold shareNeed
    omega
  refine ⟨by omega, hleft, fun hok T => ?_, fun hok => ?_⟩
  · have hused := (hspends T).used hok
    rw [missing_union_of_leaf (hfull hok), hshape.missing] at hused
    have := hleft hok
    unfold shareNeed at this
    omega
  · obtain ⟨hnil, hlt⟩ := hone.short hok
    rw [hshape.missing] at hlt
    refine ⟨hnil, ?_⟩
    unfold shareNeed
    omega

/-- The free list before the call says whether it is empty when the stack is asked for. -/
theorem Shares.freelist_eq_nil_iff {ok : Bool} {m : Mem} {npt : PageTable} (h : k.Shares p ok m npt)
    (hfind : k.findUnused = some np) : m.freelist = [] ↔ k.lacksStack p = true := by
  have henough := h.enough
  rw [lacksStack, hfind, Option.isSome_some, Bool.true_and, decide_eq_true_eq]
  cases ok with
  | true =>
    have hleft := h.left rfl
    rw [← List.length_eq_zero_iff]
    omega
  | false =>
    obtain ⟨hnil, hlt⟩ := h.short rfl
    exact iff_of_true hnil ⟨henough, hlt.le⟩

/-! ## The stack -/

/-- A member is served: its table takes what it lacks, or all there is, and then
the stack is not mapped. -/
theorem mapStack_spends {stack : Ppn} (h : mapStack (v * pgSize) stack k q = .ok k') :
    ∃ ok, (ok = true → k'.mem.freelist.length + k.tableNeed q {v} = k.mem.freelist.length ∧
        k'.pte q v = some ⟨stack, permUser⟩) ∧
      (ok = false → k'.mem.freelist = [] ∧ k.mem.freelist.length < k.tableNeed q {v}) ∧
      v * pgSize < maxVa ∧ ∀ x, x ≠ q → k'.rooms x = k.rooms x := by
  have houtside := (mapStack_stacks h).outside
  obtain ⟨⟨ok, k₃⟩, hinto, h⟩ := Except.bind_ok_iff.1 h
  cases h
  obtain ⟨-, hva, pt₀, pt₁, -, hpt₁, hres⟩ := mapInto_ok hinto
  unfold mapInto at hinto
  split at hinto
  · cases hinto
  rename_i pt hpt
  obtain ⟨⟨ok', m, pt'⟩, hmap, hinto⟩ := Except.bind_ok_iff.1 hinto
  cases hinto
  have htable : (k.rooms q).table = some pt := by
    rw [modify_proc_same] at hpt
    exact hpt
  have hneed : k.tableNeed q {v} = pt.missing {v} := by rw [tableNeed, htable]; rfl
  have hspends := mappages_spends (Finset.mem_singleton_self v) hmap
  have hleaf : ok = true → pt₁.leaf v = some ⟨stack, permUser⟩ := by
    rintro rfl
    rcases hres with ⟨-, -, hsome⟩ | ⟨hf, -⟩
    · exact hsome
    · cases hf
  obtain rfl : pt' = pt₁ := by
    rw [setTable, rooms_modify, Function.update_self] at hpt₁
    exact Option.some.inj hpt₁
  rw [hneed]
  refine ⟨ok, fun hok => ⟨?_, ?_⟩, hspends.short, hva, fun x hx => houtside x (by simpa using hx)⟩
  · have hused := hspends.used hok
    have hzero : pt'.missing {v} = 0 := missing_eq_zero fun u hu => by
      rw [Finset.mem_singleton.1 hu, hleaf hok]
      exact Option.some_ne_none _
    rw [hzero] at hused
    exact hused
  · rw [pte, hpt₁]
    exact hleaf hok

/-- With pages left for the leader and for the new thread, the thread gets its stack. -/
theorem Shares.stack {ok : Bool} {m m' : Mem} {npt : PageTable} {stack : Ppn} {k₃ k₄ k₅ : Kernel}
    (h : k.Shares p ok m npt) (hfind : k.findUnused = some np) (hlacks : k.lacksTable p = false)
    (hsz : (k.proc p).sz = v * pgSize) (hk : m.kalloc = (some stack, m')) (hmem : k₃.mem = m'.memset stack 0)
    (hnp : (k₃.rooms np).table = some npt) (hne : np ≠ k.leaderOf p)
    (hroom : k₃.rooms (k.leaderOf p) = k.rooms (k.leaderOf p))
    (hleader : mapStack (v * pgSize) stack k₃ (k.leaderOf p) = .ok k₄)
    (hnew : mapStack (v * pgSize) stack k₄ np = .ok k₅) : k₅.pte np v = some ⟨stack, permUser⟩ ∧ v * pgSize < maxVa := by
  obtain ⟨okL, husedL, hshortL, -, hothers⟩ := mapStack_spends hleader
  obtain ⟨okN, hmapped, hshortN, hva, -⟩ := mapStack_spends hnew
  refine ⟨(hmapped ?_).2, hva⟩
  by_contra hnot
  have hlen₀ := (Mem.kalloc_draws hk 0).2
  cases ok with
  | false =>
    rw [(h.short rfl).1] at hlen₀
    cases hlen₀
  | true =>
    have hleft := h.left rfl
    have hown : k₄.tableNeed np {v} = k.stackNeed p v := by
      have hlackspages := h.lacks rfl {v}
      rw [tableNeed, hothers np hne, hnp, stackNeed, ← hlackspages, Nat.add_sub_cancel]
      rfl
    have hlead : k₃.tableNeed (k.leaderOf p) {v} = k.tableNeed (k.leaderOf p) {v} := by rw [tableNeed, tableNeed, hroom]
    have hlen : k₃.mem.freelist.length = m'.freelist.length := by rw [hmem, Mem.memset_freelist]
    have hshort := (hshortN (by simpa using hnot)).2
    rw [hown] at hshort
    rw [hlead] at husedL hshortL
    have htrue : k.lacksTable p = true := by
      rw [lacksTable, hfind, hsz, Nat.mul_div_cancel v (by decide), Option.isSome_some, Bool.true_and, decide_eq_true_eq]
      cases okL with
      | true =>
        have := (husedL rfl).1
        omega
      | false =>
        have := (hshortL rfl).2
        omega
    rw [hlacks] at htrue
    cases htrue

end Kernel

end Xv6
