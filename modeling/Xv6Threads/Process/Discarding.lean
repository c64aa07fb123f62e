-- SUMMARY: Giving up an address space: when proc_freepagetable succeeds, and which pages it writes to.
import Xv6Threads.Memory.Range
import Xv6Threads.Memory.Supply
import Xv6Threads.Process.Tables

/-!
# Discarding

`proc_freepagetable` panics on a table that does not agree with its size. On one
that does, it succeeds as soon as the pages come from the allocator, whatever
else is in memory; and it writes to no page but the ones it frees.
-/

namespace Xv6

/-! ## Which pages are written to -/

/-- Pages were put on the free list, and no other page was written to. -/
def Mem.Frees (m m' : Mem) : Prop :=
  ∃ l, m'.freelist = l ++ m.freelist ∧ ∀ f, f ∉ l → m'.data f = m.data f

namespace Mem.Frees

variable {m₀ m m' : Mem}

theorem refl (m : Mem) : m.Frees m := ⟨[], rfl, fun _ _ => rfl⟩

theorem kfree (h : m₀.Frees m) (pa : Ppn) : (m.kfree pa).Yields m₀.Frees := by
  intro m' hm'
  obtain ⟨-, rfl⟩ := kfree_ok hm'
  obtain ⟨l, hl, hdata⟩ := h
  refine ⟨pa :: l, by simp [hl], fun f hf => ?_⟩
  simp only [List.mem_cons, not_or] at hf
  simp only [memset, if_neg hf.1]
  exact hdata f hf.2

end Mem.Frees

/-! ## Memories that agree on counts -/

/-- The two memories accept the same pages and count the same references. -/
structure Mem.SameCounts (m m' : Mem) : Prop where
  kend : m'.kend = m.kend
  refcount : m'.refcount = m.refcount

namespace Mem.SameCounts

variable {m₁ m₂ : Mem}

theorem krefDec (h : m₁.SameCounts m₂) (pa : Ppn) : (m₁.krefDec pa).SameCounts (m₂.krefDec pa) :=
  ⟨h.kend, by simp only [Mem.krefDec, h.refcount]⟩

theorem kfree {m₁' : Mem} {pa : Ppn} (h : m₁.SameCounts m₂) (hk : m₁.kfree pa = .ok m₁') :
    (m₂.kfree pa).Returns m₁'.SameCounts := by
  obtain ⟨hin, rfl⟩ := kfree_ok hk
  have hin₂ : m₂.InRange pa := by
    rw [InRange, h.kend]
    exact hin
  exact ⟨_, kfree_of_inRange hin₂, h.kend, h.refcount⟩

end Mem.SameCounts

theorem Table.sweep_sameCounts {α : Type} {below : Mem → α → Except Panic Mem} {m₁ m₂ m₁' : Mem}
    (hb : ∀ {m₁ m₂ m₁' : Mem} {x}, m₁.SameCounts m₂ → below m₁ x = .ok m₁' → (below m₂ x).Returns m₁'.SameCounts)
    (h : m₁.SameCounts m₂) {t : Table α} (hs : t.sweep below m₁ = .ok m₁') :
    (t.sweep below m₂).Returns m₁'.SameCounts := by
  obtain ⟨m₃, hfold, hfree⟩ := Except.bind_ok_iff.1 hs
  refine Except.Returns.bind (Except.foldlM_follows (R := Mem.SameCounts) ?_ h hfold) fun m₄ h₄ => h₄.kfree hfree
  intro i m₁ m₂ m₁' h hi
  cases hentry : t.entry i with
  | none =>
    rw [hentry] at hi
    cases hi
    exact ⟨m₂, rfl, h⟩
  | some x =>
    rw [hentry] at hi
    exact hb h hi

namespace PageTable

variable {m₀ m m' m₁ m₂ m₁' : Mem} {pt pt' : PageTable} {v n sz : Nat} {release : Bool}

theorem freewalk_sameCounts (h : m₁.SameCounts m₂) (hw : freewalk m₁ pt = .ok m₁') :
    (freewalk m₂ pt).Returns m₁'.SameCounts := by
  refine Table.sweep_sameCounts (fun h₁ hw₁ => ?_) h hw
  refine Table.sweep_sameCounts (fun h₂ hw₂ => ?_) h₁ hw₁
  exact Table.sweep_sameCounts (fun _ hw₃ => by cases hw₃) h₂ hw₂

theorem dropUserPage_sameCounts {va : Nat} (h : m₁.SameCounts m₂)
    (hd : dropUserPage release m₁ pt va = .ok (m₁', pt')) :
    ∃ m₂', dropUserPage release m₂ pt va = .ok (m₂', pt') ∧ m₁'.SameCounts m₂' := by
  unfold dropUserPage at hd ⊢
  obtain ⟨r, hwalk, hd⟩ := Except.bind_ok_iff.1 hd
  rw [hwalk]
  match r, hd with
  | none, hd =>
    cases hd
    exact ⟨m₂, rfl, h⟩
  | some none, hd =>
    cases hd
    exact ⟨m₂, rfl, h⟩
  | some (some pte), hd =>
    obtain ⟨m₃, hm₃, hd⟩ := Except.bind_ok_iff.1 hd
    cases hd
    have hdec := h.krefDec pte.ppn
    have hret : (if release && (m₂.krefDec pte.ppn).refcount pte.ppn = 0 then (m₂.krefDec pte.ppn).kfree pte.ppn
        else .ok (m₂.krefDec pte.ppn)).Returns m₁'.SameCounts := by
      rw [hdec.refcount]
      split at hm₃
      · rename_i hc
        rw [if_pos hc]
        exact hdec.kfree hm₃
      · rename_i hc
        rw [if_neg hc]
        cases hm₃
        exact ⟨_, rfl, hdec⟩
    obtain ⟨m₄, hm₄, h₄⟩ := hret
    exact ⟨m₄, Except.bind_ok_iff.2 ⟨_, rfl, Except.bind_ok_iff.2 ⟨m₄, hm₄, rfl⟩⟩, h₄⟩

theorem dropUserPages_sameCounts {a : Nat} (h : m₁.SameCounts m₂)
    (hd : dropUserPages (dropUserPage release) n m₁ pt a = .ok (m₁', pt')) :
    ∃ m₂', dropUserPages (dropUserPage release) n m₂ pt a = .ok (m₂', pt') ∧ m₁'.SameCounts m₂' := by
  induction n generalizing m₁ m₂ pt a with
  | zero =>
    cases hd
    exact ⟨m₂, rfl, h⟩
  | succ n ih =>
    rw [dropUserPages] at hd
    obtain ⟨⟨m₃, pt₃⟩, hone, hd⟩ := Except.bind_ok_iff.1 hd
    obtain ⟨m₄, hone', h₄⟩ := dropUserPage_sameCounts h hone
    obtain ⟨m₅, hrest, h₅⟩ := ih h₄ hd
    exact ⟨m₅, Except.bind_ok_iff.2 ⟨_, hone', hrest⟩, h₅⟩

/-! ## Freeing and writing -/

theorem sweep_frees {α : Type} {below : Mem → α → Except Panic Mem}
    (hb : ∀ m x, m₀.Frees m → (below m x).Yields m₀.Frees) (h : m₀.Frees m) (t : Table α) :
    (Table.sweep below m t).Yields m₀.Frees := by
  refine Except.Yields.bind (P := m₀.Frees) ?_ fun m₁ h₁ => h₁.kfree _
  refine Except.Yields.foldlM (fun m₁ i h₁ => ?_) (List.finRange 512) h
  split
  · exact Except.yields_ok h₁
  · exact hb _ _ h₁

theorem freewalk_frees (h : m₀.Frees m) (pt : PageTable) : (freewalk m pt).Yields m₀.Frees := by
  unfold freewalk
  refine sweep_frees (fun m₁ mid h₁ => ?_) h pt
  refine sweep_frees (fun m₂ leaves h₂ => ?_) h₁ mid
  exact sweep_frees (fun _ _ _ => Except.yields_error) h₂ leaves

/-- Every entry is one that `uvmunmap` takes for a leaf, and none lies at or
above `MAXVA`. -/
structure Sane (pt : PageTable) : Prop where
  proper : ∀ v < vpnLimit, ∀ e, pt.leaf v = some e → e.perm ≠ ⟨false, false, false, false⟩
  low : ∀ v < vpnLimit, maxVa ≤ v * pgSize → pt.leaf v = none

/-- One entry that is not freed is taken out. -/
theorem uvmunmap_one_total {e : Pte} (m : Mem) (hva : v * pgSize < maxVa) (he : pt.leaf v = some e)
    (hperm : e.perm ≠ ⟨false, false, false, false⟩) : ∃ pt', uvmunmap m pt (v * pgSize) 1 false = .ok (m, pt') := by
  refine ⟨pt.setPte (v * pgSize) none, ?_⟩
  rw [uvmunmap, if_neg (by simp), uvmunmapLoop, walk_of_leaf hva he]
  show (if e.perm = _ then _ else _) = _
  rw [if_neg hperm]
  rfl

theorem dropUserPages_total (hva : ∀ u, v ≤ u → u < v + n → u * pgSize < maxVa)
    (hrange : ∀ u, v ≤ u → u < v + n → ∀ e, pt.leaf u = some e → m.InRange e.ppn) :
    ∃ m' pt', dropUserPages (dropUserPage release) n m pt (v * pgSize) = .ok (m', pt') := by
  induction n generalizing m pt v with
  | zero => exact ⟨m, pt, rfl⟩
  | succ n ih =>
    have hv := hva v (Nat.le_refl _) (by omega)
    obtain ⟨m₁, pt₁, hone⟩ : ∃ m₁ pt₁, dropUserPage release m pt (v * pgSize) = .ok (m₁, pt₁) := by
      unfold dropUserPage
      obtain ⟨r, hwalk⟩ : ∃ r, pt.walk (v * pgSize) = .ok r := ⟨_, if_neg (not_le.2 hv)⟩
      rw [hwalk]
      match r, (walk_ok hwalk).2.1 with
      | none, _ => exact ⟨m, pt, rfl⟩
      | some none, _ => exact ⟨m, pt, rfl⟩
      | some (some pte), hjoin =>
        have hin := hrange v (Nat.le_refl _) (by omega) pte hjoin.symm
        obtain ⟨m₁, hm₁⟩ : ∃ m₁, (if release && (m.krefDec pte.ppn).refcount pte.ppn = 0 then
            (m.krefDec pte.ppn).kfree pte.ppn else .ok (m.krefDec pte.ppn)) = .ok m₁ := by
          split
          · exact ⟨_, Mem.kfree_of_inRange (m := m.krefDec pte.ppn) hin⟩
          · exact ⟨_, rfl⟩
        exact ⟨m₁, _, Except.bind_ok_iff.2 ⟨_, rfl, Except.bind_ok_iff.2 ⟨m₁, hm₁, rfl⟩⟩⟩
    have hd := dropUserPage_ok hone
    obtain ⟨m₂, pt₂, hrest⟩ := @ih m₁ pt₁ (v + 1) (fun u hu hu' => hva u (by omega) (by omega))
      fun u hu hu' e he => by
        rw [hd.outside u (lt_vpnLimit_of_lt_maxVa (hva u (by omega) (by omega))) (by omega)] at he
        rw [Mem.InRange, hd.kend]
        exact hrange u (by omega) (by omega) e he
    rw [show (v + 1) * pgSize = v * pgSize + pgSize by ring] at hrest
    exact ⟨m₂, pt₂, Except.bind_ok_iff.2 ⟨_, hone, hrest⟩⟩

end PageTable

open PageTable

variable {m m' m₁ m₂ m₁' : Mem} {pt : PageTable} {sz : Nat} {release : Bool}

/-- Whether an address space can be given up depends on the counts only. -/
theorem procFreepagetableWith_sameCounts (h : m₁.SameCounts m₂)
    (hf : procFreepagetableWith (uvmfreeWith (dropUserPage release)) m₁ pt sz = .ok m₁') :
    (procFreepagetableWith (uvmfreeWith (dropUserPage release)) m₂ pt sz).Returns m₁'.SameCounts := by
  have hone : ∀ {pt pt' : PageTable} {va : Nat} {m₁ m₁' : Mem} (m₂ : Mem),
      uvmunmap m₁ pt va 1 false = .ok (m₁', pt') → uvmunmap m₂ pt va 1 false = .ok (m₂, pt') ∧ m₁' = m₁ := by
    intro pt pt' va m₁ m₁' m₂ hu
    unfold uvmunmap at hu ⊢
    split at hu
    · cases hu
    · rename_i hva
      rw [if_neg hva]
      rw [uvmunmapLoop] at hu ⊢
      obtain ⟨r, hwalk, hu⟩ := Except.bind_ok_iff.1 hu
      rw [hwalk]
      rcases r with _ | _ | pte
      · cases hu
      · cases hu
      · dsimp only at hu
        split at hu
        · cases hu
        · rename_i hperm
          cases hu
          refine ⟨?_, rfl⟩
          show (if pte.perm = _ then _ else _) = _
          rw [if_neg hperm]
          rfl
  obtain ⟨⟨m₃, pt₃⟩, hun, hrest⟩ := Except.bind_ok_iff.1 hf
  obtain ⟨⟨m₄, pt₄⟩, hun', hlast⟩ := Except.bind_ok_iff.1 hrest
  obtain ⟨hun₂, rfl⟩ := hone m₂ hun
  obtain ⟨hun₂', rfl⟩ := hone m₂ hun'
  dsimp only at hlast
  unfold uvmfreeWith at hlast
  split at hlast
  · cases hlast
  rename_i hsz
  obtain ⟨⟨m₅, pt₅⟩, hdrop, hfree⟩ := Except.bind_ok_iff.1 hlast
  obtain ⟨m₆, hdrop', h₆⟩ := dropUserPages_sameCounts h hdrop
  obtain ⟨m₇, hfree', h₇⟩ := freewalk_sameCounts h₆ hfree
  refine ⟨m₇, Except.bind_ok_iff.2 ⟨_, hun₂, Except.bind_ok_iff.2 ⟨_, hun₂', ?_⟩⟩, h₇⟩
  dsimp only
  rw [uvmfreeWith, if_neg hsz]
  exact Except.bind_ok_iff.2 ⟨_, hdrop', hfree'⟩

/-- A table that agrees with its size, made of pages of the allocator, can be
given up. -/
theorem procFreepagetableWith_total (hf : pt.Framed) (hs : pt.Sane) (hh : pt.Hollow sz) (hpos : 0 < sz)
    (hle : sz ≤ trapframeVa) (htable : pt.weigh m.beyond = 0) (huser : pt.user m.beyond = 0) :
    ∃ m', procFreepagetableWith (uvmfreeWith (dropUserPage release)) m pt sz = .ok m' := by
  have hlim : userPages + 1 < vpnLimit := by decide
  have hmax : maxVa = (userPages + 2) * pgSize := by decide
  have hpages := pagesBelow_le_userPages hle
  have hva : ∀ u < userPages + 2, u * pgSize < maxVa := fun u hu => by
    rw [hmax]
    exact Nat.mul_lt_mul_of_pos_right hu (by decide)
  obtain ⟨e, he⟩ := Option.ne_none_iff_exists'.1 hf.trampoline
  obtain ⟨e', he'⟩ := Option.ne_none_iff_exists'.1 hf.trapframe
  obtain ⟨pt₁, hun⟩ := uvmunmap_one_total m (hva _ (by omega)) he (hs.proper _ hlim e he)
  obtain ⟨-, -, -, hw₁, hout₁, -, hnone₁⟩ := uvmunmap_one hun
  have he₁ : pt₁.leaf userPages = some e' := by rw [hout₁ _ (by omega) (by omega), he']
  obtain ⟨pt₂, hun'⟩ := uvmunmap_one_total m (hva _ (by omega)) he₁ (hs.proper _ (by omega) e' he')
  obtain ⟨-, -, -, hw₂, hout₂, -, hnone₂⟩ := uvmunmap_one hun'
  have hsame : ∀ u < userPages, pt₂.leaf u = pt.leaf u := by
    intro u hu
    rw [hout₂ u (by omega) (by omega), hout₁ u (by omega) (by omega)]
  -- the user pages
  have hrange : ∀ u, 0 ≤ u → u < 0 + pagesBelow sz → ∀ x, pt₂.leaf u = some x → m.InRange x.ppn := by
    intro u _ hu x hx
    rw [hsame u (by omega)] at hx
    have hle : weighEntry m.beyond (pt.leaf u) ≤ pt.user m.beyond := weighEntry_le_span (Nat.zero_le _) (by omega)
    rw [hx, weighEntry_some, huser] at hle
    exact Mem.beyond_eq_zero.1 (Nat.le_zero.1 hle)
  obtain ⟨m₃, pt₃, hdrop⟩ := @dropUserPages_total m pt₂ 0 (pagesBelow sz) release (fun u _ hu => hva u (by omega)) hrange
  have hd := dropUserPages_ok hdrop
  -- nothing is left
  have hleft : ∀ u < vpnLimit, pt₃.leaf u = none := by
    intro u hu
    by_cases hlow : u < pagesBelow sz
    · exact (hd.inside u (Nat.zero_le _) (by omega)).2
    rw [hd.outside u hu (by omega)]
    by_cases huser : u < userPages
    · rw [hsame u huser]
      exact hh u (by omega) huser
    by_cases htf : u = userPages
    · rw [htf, hnone₂]
    rw [hout₂ u hu (by omega)]
    by_cases htr : u = userPages + 1
    · rw [htr, hnone₁]
    rw [hout₁ u hu (by omega)]
    refine hs.low u hu ?_
    rw [hmax]
    exact Nat.mul_le_mul_right _ (by omega)
  have htable₃ : pt₃.weigh m₃.beyond = 0 := by
    rw [Mem.beyond_congr hd.kend, hd.table, hw₂, hw₁, htable]
  obtain ⟨m₄, hfree⟩ := freewalk_total hleft htable₃
  rw [Nat.zero_mul] at hdrop
  rw [← trampoline_eq] at hun
  rw [← trapframeVa_eq] at hun'
  refine ⟨m₄, Except.bind_ok_iff.2 ⟨_, hun, Except.bind_ok_iff.2 ⟨_, hun', ?_⟩⟩⟩
  dsimp only
  rw [uvmfreeWith, if_neg (by omega)]
  exact Except.bind_ok_iff.2 ⟨_, hdrop, hfree⟩

end Xv6
