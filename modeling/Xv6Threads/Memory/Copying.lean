-- SUMMARY: What the routines of vm.c leave of the contents of pages, and that uvmcopy copies.
import Xv6Threads.Memory.Supply

/-!
# The contents of pages

A routine that only takes pages leaves the contents of every page alone that is
not on the free list. With a free list that lists no page twice, the frames that
`uvmcopy` fills stay as they are until it returns.
-/

namespace Xv6

variable {m m' m'' : Mem} {f : Ppn}

theorem Mem.Draws.nodup (h : m.Draws m') (hm : m.freelist.Nodup) : m'.freelist.Nodup :=
  hm.sublist h.freelist.sublist

theorem Mem.Draws.notMem (h : m.Draws m') (hf : f ∉ m.freelist) : f ∉ m'.freelist := fun hmem =>
  hf (h.freelist.subset hmem)

theorem Mem.kalloc_draws' (h : m.kalloc = (some f, m')) : m.Draws m' := by
  have hd := (Mem.kalloc_draws h 5).1
  have hsame : m'.memset f 5 = m' := by
    rw [(Mem.kalloc_some h).2]
    simp only [Mem.memset, Mem.mk.injEq, true_and]
    funext g
    split <;> rfl
  rwa [hsame] at hd

namespace PageTable

variable {pt pt' : PageTable} {va n v : Nat}

theorem demand_draws {α : Type} {t : Table (Table α)} {i : Fin 512} {o : Option (Table α)}
    (h : t.demand m i = (o, m')) : m.Draws m' := by
  unfold Table.demand at h
  split at h
  · cases h
    exact .refl _
  · split at h
    · rename_i hk
      obtain ⟨-, rfl⟩ := Mem.kalloc_none hk
      cases h
      exact .refl _
    · rename_i f m₁ hk
      cases h
      exact (Mem.kalloc_draws hk 0).1

theorem walkAlloc_draws {b : Bool} (h : walkAlloc m pt va = .ok (b, m', pt')) : m.Draws m' := by
  unfold walkAlloc at h
  split at h
  · cases h
  · split at h
    · rename_i hd
      cases h
      exact demand_draws hd
    · rename_i mid m₁ hd
      split at h
      · rename_i hd'
        cases h
        exact (demand_draws hd).trans (demand_draws hd')
      · rename_i hd'
        cases h
        exact (demand_draws hd).trans (demand_draws hd')

theorem mappagesLoop_draws {perm : Perm} {pa : Ppn} {b : Bool} (h : mappagesLoop perm n m pt va pa = .ok (b, m', pt')) :
    m.Draws m' := by
  induction n generalizing m pt va pa with
  | zero =>
    cases h
    exact .refl _
  | succ n ih =>
    rw [mappagesLoop] at h
    obtain ⟨⟨found, m₁, pt₁⟩, hwalk, h⟩ := Except.bind_ok_iff.1 h
    have hd := walkAlloc_draws hwalk
    dsimp only at h
    split at h
    · cases h
      exact hd
    · split at h
      · cases h
      · exact hd.trans (ih h)

theorem mappages_draws {perm : Perm} {pa : Ppn} {size : Nat} {b : Bool}
    (h : mappages m pt va size pa perm = .ok (b, m', pt')) : m.Draws m' := by
  unfold mappages at h
  split at h
  · cases h
  · exact mappagesLoop_draws h

/-! ## uvmcopy -/

/-- The pages from `lo` up to `hi` of `new` are copies of those of `old`, in
pages that were free. -/
structure CopiesOf (old : PageTable) (m m' : Mem) (new : PageTable) (lo hi : Nat) : Prop where
  draws : m.Draws m'
  copy : ∀ u, lo ≤ u → u < hi → ∃ e f, old.leaf u = some e ∧ new.leaf u = some ⟨f, e.perm⟩ ∧ f ∈ m.freelist ∧
    f ∉ m'.freelist ∧ m'.data f = m.data e.ppn
  distinct : ∀ u u', lo ≤ u → u < hi → lo ≤ u' → u' < hi → ∀ e e', new.leaf u = some e → new.leaf u' = some e' →
    e.ppn = e'.ppn → u = u'

/-- One round of `uvmcopy` before the others. -/
theorem CopiesOf.cons {old new : PageTable} {e : Pte} {m₁ : Mem} {hi : Nat}
    (hold : ∀ u e, old.leaf u = some e → v ≤ u → u < hi → e.ppn ∉ m.freelist) (hlt : v < hi)
    (he : old.leaf v = some e) (hd : m.Draws m₁) (hf : f ∈ m.freelist) (hf₁ : f ∉ m₁.freelist)
    (hdata : m₁.data f = m.data e.ppn) (hleaf : new.leaf v = some ⟨f, e.perm⟩) (h : CopiesOf old m₁ m' new (v + 1) hi) :
    CopiesOf old m m' new v hi := by
  have hone : ∀ u, v ≤ u → u < hi → u ≠ v → v + 1 ≤ u := fun u hu _ hne => by omega
  have hfresh : ∀ u, v + 1 ≤ u → u < hi → ∀ e', new.leaf u = some e' → e'.ppn ≠ f := by
    intro u hu hu' e' he' heq
    obtain ⟨e₀, g, -, hg, hmem, -⟩ := h.copy u hu hu'
    rw [he'] at hg
    cases hg
    exact hf₁ (heq ▸ hmem)
  refine ⟨hd.trans h.draws, fun u hu hu' => ?_, fun u u' hu hu₁ hu' hu₁' x x' hx hx' heq => ?_⟩
  · by_cases hne : u = v
    · subst hne
      refine ⟨e, f, he, hleaf, hf, h.draws.notMem hf₁, ?_⟩
      rw [h.draws.data f hf₁, hdata]
    · obtain ⟨e', g, he', hg, hmem, hnot, hsame⟩ := h.copy u (hone u hu hu' hne) hu'
      refine ⟨e', g, he', hg, hd.freelist.subset hmem, hnot, ?_⟩
      rw [hsame, hd.data e'.ppn (hold u e' he' hu hu')]
  · by_cases hne : u = v
    · by_cases hne' : u' = v
      · rw [hne, hne']
      · rw [hne, hleaf] at hx
        cases hx
        exact absurd heq.symm (hfresh u' (hone u' hu' hu₁' hne') hu₁' x' hx')
    · by_cases hne' : u' = v
      · rw [hne', hleaf] at hx'
        cases hx'
        exact absurd heq (hfresh u (hone u hu hu₁ hne) hu₁ x hx)
      · exact h.distinct u u' (hone u hu hu₁ hne) hu₁ (hone u' hu' hu₁' hne') hu₁' x x' hx hx' heq

/-- The loop of `uvmcopy`, from page `v` on. -/
theorem uvmcopyLoop_copies {old : PageTable} (hm : m.freelist.Nodup)
    (hold : ∀ u e, old.leaf u = some e → v ≤ u → u < v + n → e.ppn ∉ m.freelist)
    (h : uvmcopyLoop old n m pt v = .ok (true, m', pt')) :
    CopiesOf old m m' pt' v (v + n) ∧ ∀ u < vpnLimit, ∀ e, pt.leaf u = some e → pt'.leaf u = some e := by
  induction n generalizing m pt v with
  | zero =>
    cases h
    exact ⟨⟨.refl _, fun u hu hu' => by omega, fun u u' hu hu' => by omega⟩, fun u _ e he => he⟩
  | succ n ih =>
    rw [uvmcopyLoop] at h
    obtain ⟨r, hwalk, hround⟩ := Except.bind_ok_iff.1 h
    clear h
    obtain ⟨-, hjoin, -⟩ := walk_ok hwalk
    split at hround
    · cases hround
    · cases hround
    rename_i e
    have he : old.leaf v = some e := hjoin.symm
    split at hround
    · obtain ⟨⟨m₂, pt₂⟩, -, h⟩ := Except.bind_ok_iff.1 hround
      cases h
    · rename_i f m₁ hk
      obtain ⟨⟨mapped, m₂, pt₂⟩, hmap, h⟩ := Except.bind_ok_iff.1 hround
      cases mapped with
      | false =>
        obtain ⟨m₃, -, h⟩ := Except.bind_ok_iff.1 h
        obtain ⟨⟨m₄, pt₄⟩, -, h⟩ := Except.bind_ok_iff.1 h
        cases h
      | true =>
        dsimp only at h
        rw [if_pos rfl] at h
        obtain ⟨hva, -, -, hout, ⟨-, -, hleaf⟩ | ⟨hf, -⟩⟩ := mappages_page hmap
        swap
        · cases hf
        -- the new frame is off the free list for good
        have hlist := (Mem.kalloc_some hk).1
        have hnodup : f ∉ m₁.freelist ∧ m₁.freelist.Nodup := by
          rw [hlist] at hm
          exact List.nodup_cons.1 hm
        have hmove : (m₁.memmove f e.ppn).Draws m₂ := mappages_draws hmap
        have hdraws : m.Draws m₂ := by
          have hkd := Mem.kalloc_draws' hk
          have hmoved : m.Draws (m₁.memmove f e.ppn) := by
            refine ⟨hkd.kend, hkd.refcount, hkd.freelist, fun g hg => ?_⟩
            have hne : g ≠ f := fun heq => hg (by rw [hlist, heq]; exact List.mem_cons_self ..)
            rw [← hkd.data g hg]
            exact if_neg hne
          exact hmoved.trans hmove
        have hdata : m₂.data f = m.data e.ppn := by
          have hsrc := hold v e he (Nat.le_refl v) (by omega)
          rw [hmove.data f hnodup.1, ← (Mem.kalloc_draws' hk).data e.ppn hsrc]
          exact if_pos rfl
        obtain ⟨hrest, hkept⟩ := ih (hdraws.nodup hm)
          (fun u e' he' hu hu' => hdraws.notMem (hold u e' he' (by omega) (by omega))) h
        have hfree : f ∈ m.freelist := by
          rw [hlist]
          exact List.mem_cons_self ..
        rw [show v + 1 + n = v + (n + 1) by omega] at hrest
        refine ⟨hrest.cons hold (by omega) he hdraws hfree (hmove.notMem hnodup.1) hdata
          (hkept v (lt_vpnLimit_of_lt_maxVa hva) _ hleaf), fun u hu e' he' => hkept u hu e' ?_⟩
        exact mappages_kept hmap hu he'

theorem uvmcopy_copies {old : PageTable} {sz : Nat} (hm : m.freelist.Nodup)
    (hold : ∀ u e, old.leaf u = some e → u < pagesBelow sz → e.ppn ∉ m.freelist)
    (h : uvmcopy m old pt sz = .ok (true, m', pt')) : CopiesOf old m m' pt' 0 (pagesBelow sz) := by
  have hloop := (uvmcopyLoop_copies hm (fun u e he _ hu => hold u e he (by omega)) h).1
  rwa [Nat.zero_add] at hloop

end PageTable

end Xv6
