-- SUMMARY: The address space that exec builds can be given up at every point at which it is not empty.
import Xv6Threads.Process.Discarding

/-!
# Loading

While `exec` builds a new address space, its table stays one that
`proc_freepagetable` accepts, with one exception: as long as the size is zero,
giving it up panics.
-/

namespace Xv6

open PageTable

variable {m₀ m m' : Mem} {pt pt' pt'' : PageTable} {sz sz' : Nat} {tramp tf : Ppn}

namespace PageTable

/-- Entries below the trapframe may be new or gone; every other one is as it was. -/
def Remodels (pt pt' : PageTable) : Prop :=
  ∀ v < vpnLimit, pt'.leaf v = pt.leaf v ∨ v < userPages ∧ ∀ e, pt'.leaf v = some e → e.perm.r = true

theorem Remodels.sane (h : pt.Remodels pt') (hs : pt.Sane) : pt'.Sane := by
  refine ⟨fun v hv e he => ?_, fun v hv hva => ?_⟩
  · rcases h v hv with heq | ⟨-, hread⟩
    · exact hs.proper v hv e (heq ▸ he)
    · intro hperm
      have := hread e he
      rw [hperm] at this
      cases this
  · rcases h v hv with heq | ⟨huser, -⟩
    · rw [heq]
      exact hs.low v hv hva
    · have hmax : maxVa = (userPages + 2) * pgSize := by decide
      rw [hmax] at hva
      have := Nat.le_of_mul_le_mul_right hva (show 0 < pgSize by decide)
      omega

end PageTable

theorem uvmalloc_remodels {newsz r : Nat} {xperm : Perm} (h : Space m₀ m pt sz)
    (hu : PageTable.uvmalloc m pt sz newsz xperm = .ok (r, m', pt')) : pt.Remodels pt' := by
  obtain ⟨hi, hm, -⟩ := uvmalloc_ok (h.size.trans (by decide)) hu
  have hhi := hm.le_userPages h.framed (pagesBelow_le_userPages h.size)
  intro v hv
  by_cases hin : pagesBelow sz ≤ v ∧ v < hi
  · obtain ⟨-, -, f, hf⟩ := hm.inside v hin.1 hin.2
    refine .inr ⟨by omega, fun e he => ?_⟩
    rw [hf] at he
    cases he
    rfl
  · exact .inl (hm.outside v hv (by omega))

/-! ## The new address space -/

/-- The pages of a new address space are accounted for, every page below its
size is mapped, and its table is one that can be taken apart. -/
structure Built (m₀ m : Mem) (pt : PageTable) (sz : Nat) : Prop extends Space m₀ m pt sz where
  full : ∀ v < pagesBelow sz, pt.leaf v ≠ none
  sane : pt.Sane

theorem Built.samePages (h : Built m₀ m pt sz) (hm : m.SamePages m') : Built m₀ m' pt sz :=
  ⟨h.toSpace.samePages hm, h.full, h.sane⟩

theorem Built.uvmalloc {newsz r : Nat} {xperm : Perm} (h : Built m₀ m pt sz)
    (hu : PageTable.uvmalloc m pt sz newsz xperm = .ok (r, m', pt')) : Built m₀ m' pt' (if r = 0 then sz else r) := by
  refine ⟨h.toSpace.uvmalloc hu, ?_, (uvmalloc_remodels h.toSpace hu).sane h.sane⟩
  obtain ⟨hi, hm, hend⟩ := uvmalloc_ok (h.size.trans (by decide)) hu
  have hhi := hm.le_userPages h.framed (pagesBelow_le_userPages h.size)
  have hlim := userPages_lt
  have hmono : ∀ {a c : Nat}, a ≤ c → pagesBelow a ≤ pagesBelow c := pagesBelow_mono
  have hbound : pagesBelow (if r = 0 then sz else r) ≤ hi := by
    rcases hend with ⟨hr, hhi⟩ | ⟨hr, hhi⟩
    · split
      · rw [hhi]
        exact Nat.le_max_left _ _
      · rw [hr, hhi]
        rcases Nat.le_total sz newsz with hle | hle
        · rw [Nat.max_eq_right hle, Nat.max_eq_right (hmono hle)]
        · rw [Nat.max_eq_left hle, Nat.max_eq_left (hmono hle)]
    · rw [if_pos hr, hhi]
  intro v hv
  by_cases hin : pagesBelow sz ≤ v
  · obtain ⟨-, -, f, hf⟩ := hm.inside v hin (by omega)
    rw [hf]
    nofun
  · rw [hm.outside v (by omega) (by omega)]
    exact h.full v (by omega)

theorem procPagetable_built (h : procPagetable m tramp tf = .ok (some pt, m')) : Built m m' pt 0 := by
  refine ⟨(procPagetable_some h).space, fun v hv => absurd hv (by simp [pagesBelow, pgSize]), ?_⟩
  unfold procPagetable at h
  split at h
  · cases h
  rename_i pt₀ m₀ hcreate
  obtain ⟨-, -, -, hnone⟩ := uvmcreate_ok hcreate
  obtain ⟨⟨b, m₁, pt₁⟩, hmap, h⟩ := Except.bind_ok_iff.1 h
  cases b with
  | false =>
    obtain ⟨m₂, -, h⟩ := Except.bind_ok_iff.1 h
    cases h
  | true =>
    obtain ⟨⟨b, m₂, pt₂⟩, hmap', h⟩ := Except.bind_ok_iff.1 h
    cases b with
    | false =>
      obtain ⟨⟨m₃, pt₃⟩, -, h⟩ := Except.bind_ok_iff.1 h
      obtain ⟨m₄, -, h⟩ := Except.bind_ok_iff.1 h
      cases h
    | true =>
      cases h
      rw [trampoline_eq] at hmap
      rw [trapframeVa_eq] at hmap'
      obtain ⟨-, -, -, hout, ⟨-, -, hsome⟩ | ⟨hf, -⟩⟩ := mappages_page hmap
      swap
      · cases hf
      obtain ⟨-, -, -, hout', ⟨-, -, hsome'⟩ | ⟨hf, -⟩⟩ := mappages_page hmap'
      swap
      · cases hf
      have hleaf : ∀ v < vpnLimit, v ≠ userPages → v ≠ userPages + 1 → pt.leaf v = none := by
        intro v hv hne hne'
        rw [hout' v hv (by omega), hout v hv (by omega), hnone]
      refine ⟨fun v hv e he => ?_, fun v hv hva => ?_⟩
      · by_cases htf : v = userPages
        · rw [htf, hsome'] at he
          cases he
          exact (by decide : permRW ≠ ⟨false, false, false, false⟩)
        · by_cases htr : v = userPages + 1
          · rw [htr, hout' _ (htr ▸ hv) (by omega), hsome] at he
            cases he
            exact (by decide : permRX ≠ ⟨false, false, false, false⟩)
          · rw [hleaf v hv htf htr] at he
            cases he
      · have hmax : maxVa = (userPages + 2) * pgSize := by decide
        rw [hmax] at hva
        have := Nat.le_of_mul_le_mul_right hva (show 0 < pgSize by decide)
        exact hleaf v hv (by omega) (by omega)

theorem Built.loadSegments {phs : List (Option Segment)} {b : Bool} (h : Built m₀ m pt sz)
    (hl : Xv6.loadSegments phs m pt sz = .ok (b, sz', m', pt')) : Built m₀ m' pt' sz' := by
  induction phs generalizing m pt sz with
  | nil =>
    cases hl
    exact h
  | cons o phs ih =>
    cases o with
    | none =>
      cases hl
      exact h
    | some ph =>
      rw [Xv6.loadSegments] at hl
      split at hl
      · exact ih h hl
      split at hl
      · cases hl
        exact h
      split at hl
      · cases hl
        exact h
      split at hl
      · cases hl
        exact h
      obtain ⟨⟨sz₁, m₁, pt₁⟩, halloc, hl⟩ := Except.bind_ok_iff.1 hl
      have hbuilt := h.uvmalloc halloc
      dsimp only at hl
      split at hl
      · rename_i hzero
        cases hl
        rwa [if_pos hzero] at hbuilt
      · rename_i hzero
        rw [if_neg hzero] at hbuilt
        obtain ⟨⟨b₁, m₂⟩, hload, hl⟩ := Except.bind_ok_iff.1 hl
        have hbuilt' := hbuilt.samePages (loadsegLoop_samePages hload)
        dsimp only at hl
        split at hl
        · cases hl
          exact hbuilt'
        · exact ih hbuilt' hl

theorem Space.roundUp (h : Space m₀ m pt sz) : Space m₀ m pt (pgRoundUp sz) := by
  have hround : pgRoundUp sz = pagesBelow sz * pgSize := pgRoundUp_of_le (h.size.trans (by decide))
  refine ⟨h.kend, h.refcount, h.pages, h.framed, ?_, ?_⟩
  · rw [hround, Hollow, pagesBelow_mul]
    exact h.hollow
  · rw [hround, trapframeVa_eq]
    exact Nat.mul_le_mul_right _ (pagesBelow_le_userPages h.size)

theorem Built.roundUp (h : Built m₀ m pt sz) : Built m₀ m pt (pgRoundUp sz) := by
  refine ⟨h.toSpace.roundUp, ?_, h.sane⟩
  rw [pgRoundUp_of_le (h.size.trans (by decide)), pagesBelow_mul]
  exact h.full

/-- What `uvmclear` does to the entries. -/
theorem uvmclear_leaf {va : Nat} (h : pt.uvmclear va = .ok pt') {v : Nat} (hv : v < vpnLimit) :
    pt'.leaf v = if v = va / pgSize then
      (pt.leaf v).map fun e => { e with perm := { e.perm with u := false } } else pt.leaf v := by
  unfold PageTable.uvmclear at h
  obtain ⟨r, hwalk, h⟩ := Except.bind_ok_iff.1 h
  obtain ⟨hva, hjoin, hcov⟩ := walk_ok hwalk
  split at h
  · cases h
  rename_i e
  cases h
  have hold : pt.leaf (va / pgSize) = e := by rw [← lookup_eq_leaf, ← hjoin]; rfl
  rw [setPte_leaf (hcov.1 rfl) hva hv]
  split
  · rename_i heq
    rw [heq, hold]
  · rfl

/-- Taking a page away from user code keeps a table sane: the page stays
readable to the kernel. -/
theorem uvmclear_sane {va : Nat} (h : pt.uvmclear va = .ok pt')
    (hread : ∀ e, pt.leaf (va / pgSize) = some e → e.perm.r = true) (hs : pt.Sane) : pt'.Sane := by
  refine ⟨fun v hv e he => ?_, fun v hv hva => ?_⟩
  · rw [uvmclear_leaf h hv] at he
    split at he
    · rename_i heq
      obtain ⟨e₀, he₀, rfl⟩ := Option.map_eq_some_iff.1 he
      have := hread e₀ (heq ▸ he₀)
      simp [this]
    · exact hs.proper v hv e he
  · rw [uvmclear_leaf h hv]
    split
    · rw [hs.low v hv hva]
      rfl
    · exact hs.low v hv hva

/-- Taking a page away from user code that the kernel still reads. -/
theorem Built.uvmclear {va : Nat} (h : Built m₀ m pt sz) (hc : pt.uvmclear va = .ok pt')
    (hread : ∀ e, pt.leaf (va / pgSize) = some e → e.perm.r = true) : Built m₀ m pt' sz := by
  refine ⟨h.toSpace.uvmclear hc, fun v hv => ?_, uvmclear_sane hc hread h.sane⟩
  have hlim := userPages_lt
  have hpages := pagesBelow_le_userPages h.size
  rw [uvmclear_leaf hc (by omega)]
  split
  · rw [ne_eq, Option.map_eq_none_iff]
    exact h.full v hv
  · exact h.full v hv

end Xv6
