-- SUMMARY: What mapping, unmapping, growing, copying and sharing do to the entries of a table and to the free pages.
import Mathlib.Algebra.BigOperators.Intervals
import Xv6Threads.Memory.Vm

/-!
# Mapping

One specification for each routine of `vm.c` that installs or removes entries.
A routine is described by the virtual pages whose entries it changes
(`AgreeOutside`), by what it leaves there, and by one equation for every weight
that says where the physical pages went: to the free list, into the pages of
the table, or into its entries (`span`).
-/

namespace Xv6

/-- Virtual pages of user memory: those below `TRAPFRAME`. -/
def userPages : Nat := trapframeVa / pgSize

/-- Only the contents of pages differ. -/
structure Mem.SamePages (m m' : Mem) : Prop where
  kend : m'.kend = m.kend
  freelist : m'.freelist = m.freelist
  refcount : m'.refcount = m.refcount

theorem Mem.SamePages.weigh {m m' : Mem} (h : m.SamePages m') (w : Ppn → Nat) :
    m'.weigh w = m.weigh w := by
  rw [Mem.weigh, Mem.weigh, h.freelist]

namespace PageTable

/-- The weight of what an entry maps. -/
def weighEntry (w : Ppn → Nat) (e : Option Pte) : Nat := e.elim 0 fun pte => w pte.ppn

/-- The weight of what the virtual pages from `lo` up to `hi` map. -/
def span (w : Ppn → Nat) (pt : PageTable) (lo hi : Nat) : Nat :=
  ∑ v ∈ Finset.Ico lo hi, weighEntry w (pt.leaf v)

/-- The weight of the user pages a table maps. -/
def user (w : Ppn → Nat) (pt : PageTable) : Nat := pt.span w 0 userPages

/-- The entries outside a range of virtual pages are the same. -/
def AgreeOutside (pt pt' : PageTable) (lo hi : Nat) : Prop :=
  ∀ v < vpnLimit, ¬ (lo ≤ v ∧ v < hi) → pt'.leaf v = pt.leaf v

/-- Table pages may have moved from the free list into the table; counts and
the pages already installed stay. -/
structure Keeps (m : Mem) (pt : PageTable) (m' : Mem) (pt' : PageTable) : Prop where
  kend : m'.kend = m.kend
  refcount : m'.refcount = m.refcount
  covers : ∀ va, pt.Covers va → pt'.Covers va

variable {m m' m'' : Mem} {pt pt' pt'' : PageTable} {w : Ppn → Nat} {lo mid hi v n : Nat}

theorem Extends.keeps (h : Extends m pt m' pt') : Keeps m pt m' pt' :=
  ⟨h.kend, h.refcount, h.covers⟩

theorem Keeps.refl (m : Mem) (pt : PageTable) : Keeps m pt m pt := ⟨rfl, rfl, fun _ h => h⟩

theorem Keeps.trans (h : Keeps m pt m' pt') (h' : Keeps m' pt' m'' pt'') : Keeps m pt m'' pt'' :=
  ⟨h'.kend.trans h.kend, h'.refcount.trans h.refcount, fun va hc => h'.covers va (h.covers va hc)⟩

/-! ## Ranges of entries -/

@[simp] theorem weighEntry_none : weighEntry w none = 0 := rfl
@[simp] theorem weighEntry_some (e : Pte) : weighEntry w (some e) = w e.ppn := rfl

@[simp] theorem span_self : pt.span w lo lo = 0 := by simp [span]

theorem span_add (h : lo ≤ mid) (h' : mid ≤ hi) :
    pt.span w lo mid + pt.span w mid hi = pt.span w lo hi :=
  Finset.sum_Ico_consecutive _ h h'

theorem span_succ (h : lo ≤ hi) :
    pt.span w lo (hi + 1) = pt.span w lo hi + weighEntry w (pt.leaf hi) :=
  Finset.sum_Ico_succ_top h _

theorem span_head (h : lo < hi) :
    pt.span w lo hi = weighEntry w (pt.leaf lo) + pt.span w (lo + 1) hi :=
  Finset.sum_eq_sum_Ico_succ_bot h _

theorem span_congr_weight (h : ∀ v, lo ≤ v → v < hi → weighEntry w (pt'.leaf v) = weighEntry w (pt.leaf v)) :
    pt'.span w lo hi = pt.span w lo hi :=
  Finset.sum_congr rfl fun v hv => h v (Finset.mem_Ico.1 hv).1 (Finset.mem_Ico.1 hv).2

theorem span_congr (h : ∀ v, lo ≤ v → v < hi → pt'.leaf v = pt.leaf v) :
    pt'.span w lo hi = pt.span w lo hi :=
  span_congr_weight fun v hv hv' => by rw [h v hv hv']

theorem span_eq_zero (h : ∀ v, lo ≤ v → v < hi → pt.leaf v = none) : pt.span w lo hi = 0 := by
  refine Finset.sum_eq_zero fun v hv => ?_
  rw [h v (Finset.mem_Ico.1 hv).1 (Finset.mem_Ico.1 hv).2, weighEntry_none]

theorem span_le_span (h : ∀ v, lo ≤ v → v < hi → weighEntry w (pt'.leaf v) ≤ weighEntry w (pt.leaf v)) :
    pt'.span w lo hi ≤ pt.span w lo hi :=
  Finset.sum_le_sum fun v hv => h v (Finset.mem_Ico.1 hv).1 (Finset.mem_Ico.1 hv).2

theorem weighEntry_le_span (h : lo ≤ v) (h' : v < hi) :
    weighEntry w (pt.leaf v) ≤ pt.span w lo hi :=
  Finset.single_le_sum (f := fun v => weighEntry w (pt.leaf v)) (fun _ _ => Nat.zero_le _)
    (Finset.mem_Ico.2 ⟨h, h'⟩)

/-- A range that weighs something for one page maps that page. -/
theorem span_single_pos {f : Ppn} : 0 < pt.span (Weight.single f) lo hi ↔
    ∃ v e, lo ≤ v ∧ v < hi ∧ pt.leaf v = some e ∧ e.ppn = f := by
  constructor
  · intro h
    obtain ⟨v, hv, hpos⟩ := Finset.exists_ne_zero_of_sum_ne_zero (Nat.pos_iff_ne_zero.1 h)
    obtain ⟨hlo, hhi⟩ := Finset.mem_Ico.1 hv
    cases hl : pt.leaf v with
    | none => rw [hl] at hpos; exact absurd rfl hpos
    | some e =>
      refine ⟨v, e, hlo, hhi, hl, ?_⟩
      by_contra hne
      rw [hl, weighEntry_some, Weight.single_ne hne] at hpos
      exact hpos rfl
  · rintro ⟨v, e, hlo, hhi, hl, rfl⟩
    have hle : weighEntry (Weight.single e.ppn) (pt.leaf v) ≤ pt.span (Weight.single e.ppn) lo hi := weighEntry_le_span hlo hhi
    rw [hl, weighEntry_some, Weight.single_self] at hle
    exact hle

theorem userPages_lt : userPages < vpnLimit := by decide

/-- The user weight changes by what the changed range maps. -/
theorem AgreeOutside.user (h : AgreeOutside pt pt' lo hi) (hle : lo ≤ hi) (hhi : hi ≤ userPages) :
    pt'.user w + pt.span w lo hi = pt.user w + pt'.span w lo hi := by
  have hlimit := userPages_lt
  have hbelow : pt'.span w 0 lo = pt.span w 0 lo :=
    span_congr fun v _ hv => h v (by omega) (by omega)
  have habove : pt'.span w hi userPages = pt.span w hi userPages :=
    span_congr fun v hv hv' => h v (by omega) (by omega)
  have hsplit : ∀ q : PageTable, q.user w = q.span w 0 lo + q.span w lo hi + q.span w hi userPages := by
    intro q
    rw [PageTable.user, ← span_add (Nat.zero_le hi) hhi, ← span_add (Nat.zero_le lo) hle]
  rw [hsplit pt, hsplit pt', hbelow, habove]
  omega

theorem AgreeOutside.refl (pt : PageTable) (lo hi : Nat) : AgreeOutside pt pt lo hi := fun _ _ _ => rfl

theorem AgreeOutside.mono {lo' hi' : Nat} (h : AgreeOutside pt pt' lo hi) (hlo : lo' ≤ lo)
    (hhi : hi ≤ hi') : AgreeOutside pt pt' lo' hi' :=
  fun v hv hout => h v hv (by omega)

/-! ## mappages -/

theorem lt_vpnLimit_of_lt_maxVa (h : v * pgSize < maxVa) : v < vpnLimit := by
  simp only [maxVa, pgSize, vpnLimit] at *
  omega

theorem mul_pgSize_div (v : Nat) : v * pgSize / pgSize = v := Nat.mul_div_cancel _ (by decide)

/-- A page at an aligned address is one round of the loop. -/
theorem mappages_aligned (m : Mem) (pt : PageTable) (v : Nat) (pa : Ppn) (perm : Perm) :
    mappages m pt (v * pgSize) pgSize pa perm = mappagesLoop perm 1 m pt (v * pgSize) pa := by
  have hlast : pgRoundDown (v * pgSize + pgSize - 1) = v * pgSize := by
    simp only [pgRoundDown, pgSize]
    omega
  simp only [mappages, pgRoundDown_mul, hlast, Nat.sub_self, Nat.zero_div]
  rw [if_neg (by decide)]

/-- A page that is mapped at an aligned address changes one entry. When the
table pages it needs cannot be had, the free list is empty and no entry
changes. -/
theorem mappages_page {pa : Ppn} {perm : Perm} {b : Bool}
    (h : mappages m pt (v * pgSize) pgSize pa perm = .ok (b, m', pt')) :
    v * pgSize < maxVa ∧ Keeps m pt m' pt' ∧
      (∀ w, m'.weigh w + pt'.weigh w = m.weigh w + pt.weigh w) ∧
      AgreeOutside pt pt' v (v + 1) ∧
      ((b = true ∧ pt.leaf v = none ∧ pt'.leaf v = some ⟨pa, perm⟩) ∨
        (b = false ∧ m'.freelist = [] ∧ pt'.leaf v = pt.leaf v ∧ ¬ pt.Covers (v * pgSize))) := by
  rw [mappages_aligned, mappagesLoop] at h
  obtain ⟨⟨found, m₁, pt₁⟩, hwalk, h⟩ := Except.bind_ok_iff.1 h
  obtain ⟨hva, hext, hfound, hnot⟩ := walkAlloc_ok hwalk
  have hv := lt_vpnLimit_of_lt_maxVa hva
  dsimp only at h
  split at h
  · rename_i hf
    cases h
    exact ⟨hva, hext.keeps, hext.pages, fun u _ _ => hext.leaf u,
      .inr ⟨rfl, (hnot (by simpa using hf)).1, hext.leaf v, (hnot (by simpa using hf)).2⟩⟩
  · rename_i hf
    split at h
    · cases h
    · rename_i hlookup
      cases h
      have hcov := hfound (by simpa using hf)
      have hset : ∀ u < vpnLimit, (pt₁.setPte (v * pgSize) (some ⟨pa, perm⟩)).leaf u =
          if u = v then some ⟨pa, perm⟩ else pt.leaf u := by
        intro u hu
        rw [setPte_leaf hcov hva hu, mul_pgSize_div, hext.leaf]
      refine ⟨hva, ⟨hext.kend, hext.refcount, fun va hc => setPte_covers.2 (hext.covers va hc)⟩, ?_, ?_, ?_⟩
      · intro w
        rw [setPte_weigh, hext.pages]
      · intro u hu hout
        rw [hset u hu, if_neg (by omega)]
      · refine .inl ⟨rfl, ?_, by rw [hset v hv, if_pos rfl]⟩
        rw [← hext.leaf v]
        exact hlookup

/-- Whatever the address, entries that are there stay. -/
theorem mappagesLoop_kept {pa : Ppn} {perm : Perm} {a : Nat} {b : Bool} {e : Pte}
    (h : mappagesLoop perm n m pt a pa = .ok (b, m', pt')) (hv : v < vpnLimit) (he : pt.leaf v = some e) :
    pt'.leaf v = some e := by
  induction n generalizing m pt a pa with
  | zero =>
    cases h
    exact he
  | succ n ih =>
    rw [mappagesLoop] at h
    obtain ⟨⟨found, m₁, pt₁⟩, hwalk, h⟩ := Except.bind_ok_iff.1 h
    obtain ⟨ha, hext, hfound, -⟩ := walkAlloc_ok hwalk
    have he₁ : pt₁.leaf v = some e := (hext.leaf v).trans he
    dsimp only at h
    split at h
    · cases h
      exact he₁
    · rename_i hf
      split at h
      · cases h
      · rename_i hnone
        refine ih h ?_
        rw [setPte_leaf (hfound (by simpa using hf)) ha hv]
        split
        · rename_i hva
          rw [lookup_eq_leaf, ← hva, he₁] at hnone
          cases hnone
        · exact he₁

theorem mappages_kept {pa : Ppn} {perm : Perm} {va size : Nat} {b : Bool} {e : Pte}
    (h : mappages m pt va size pa perm = .ok (b, m', pt')) (hv : v < vpnLimit) (he : pt.leaf v = some e) :
    pt'.leaf v = some e := by
  unfold mappages at h
  split at h
  · cases h
  · exact mappagesLoop_kept h hv he

/-- Whatever the address, its page was free, and is mapped now or nothing is. -/
theorem mappages_first {pa : Ppn} {perm : Perm} {va : Nat} {b : Bool}
    (h : mappages m pt va pgSize pa perm = .ok (b, m', pt')) :
    pt.leaf (va / pgSize) = none ∧
      ((∃ e, pt'.leaf (va / pgSize) = some e) ∨ ∀ u < vpnLimit, pt'.leaf u = pt.leaf u) := by
  rw [mappages, if_neg (by decide)] at h
  obtain ⟨⟨found, m₁, pt₁⟩, hwalk, h⟩ := Except.bind_ok_iff.1 h
  obtain ⟨ha, hext, hfound, hnot⟩ := walkAlloc_ok hwalk
  have hdown : pgRoundDown va = va / pgSize * pgSize := rfl
  rw [hdown] at ha hfound hnot
  have hlim := lt_vpnLimit_of_lt_maxVa ha
  dsimp only at h
  split at h
  · rename_i hf
    cases h
    refine ⟨?_, .inr fun u _ => hext.leaf u⟩
    cases he : pt.leaf (va / pgSize) with
    | none => rfl
    | some e => exact absurd (covers_of_lookup he) (hnot (by simpa using hf)).2
  · rename_i hf
    split at h
    · cases h
    · rename_i hnone
      have hcov := hfound (by simpa using hf)
      rw [hdown] at hnone h
      refine ⟨(hext.leaf _).symm.trans hnone, .inl ⟨⟨pa, perm⟩, mappagesLoop_kept h hlim ?_⟩⟩
      rw [setPte_leaf hcov ha hlim, mul_pgSize_div, if_pos rfl]

/-! ## uvmunmap -/

/-- The pages from `lo` up to `hi`, all of them mapped, were unmapped and what
they mapped went to the free list. -/
structure Unmaps (m : Mem) (pt : PageTable) (m' : Mem) (pt' : PageTable) (lo hi : Nat) : Prop where
  keeps : Keeps m pt m' pt'
  pages : ∀ w, pt'.weigh w = pt.weigh w
  freed : ∀ w, m'.weigh w = m.weigh w + pt.span w lo hi
  outside : AgreeOutside pt pt' lo hi
  inside : ∀ v, lo ≤ v → v < hi → v * pgSize < maxVa ∧ pt.leaf v ≠ none ∧ pt'.leaf v = none

theorem Unmaps.refl (h : hi ≤ lo) : Unmaps m pt m pt lo hi :=
  ⟨.refl _ _, fun _ => rfl, fun w => by simp [span, Finset.Ico_eq_empty_of_le h], .refl _ _ _,
    fun v _ _ => by omega⟩

/-- One round of `uvmunmap`: the entry at `v` is removed. -/
theorem unmapPage_ok {pte : Pte} (hva : v * pgSize < maxVa) (hleaf : pt.leaf v = some pte) :
    Keeps m pt m (pt.setPte (v * pgSize) none) ∧
      (∀ w, (pt.setPte (v * pgSize) none).weigh w = pt.weigh w) ∧
      ∀ u < vpnLimit, (pt.setPte (v * pgSize) none).leaf u = if u = v then none else pt.leaf u := by
  refine ⟨⟨rfl, rfl, fun va hc => setPte_covers.2 hc⟩, fun w => setPte_weigh _ _ _ _, fun u hu => ?_⟩
  rw [setPte_leaf (covers_of_lookup hleaf) hva hu, mul_pgSize_div]

theorem uvmunmapLoop_free (h : uvmunmapLoop true n m pt (v * pgSize) = .ok (m', pt')) :
    Unmaps m pt m' pt' v (v + n) := by
  induction n generalizing m pt v with
  | zero =>
    cases h
    exact .refl (Nat.le_refl _)
  | succ n ih =>
    rw [uvmunmapLoop] at h
    obtain ⟨r, hwalk, h⟩ := Except.bind_ok_iff.1 h
    obtain ⟨hva, hjoin, -⟩ := walk_ok hwalk
    split at h
    · cases h
    · cases h
    rename_i pte
    split at h
    · cases h
    obtain ⟨m₁, hfree, h⟩ := Except.bind_ok_iff.1 h
    rw [if_pos rfl] at hfree
    have hleaf : pt.leaf v = some pte := hjoin.symm
    obtain ⟨hkeep, hpages, hset⟩ := unmapPage_ok (m := m) hva hleaf
    rw [show v * pgSize + pgSize = (v + 1) * pgSize by ring] at h
    have hrest := ih h
    have hspan : ∀ w, (pt.setPte (v * pgSize) none).span w (v + 1) (v + 1 + n) =
        pt.span w (v + 1) (v + 1 + n) := by
      intro w
      refine span_congr fun u hu hu' => ?_
      rw [hset u (lt_vpnLimit_of_lt_maxVa (hrest.inside u hu hu').1), if_neg (by omega)]
    refine ⟨⟨hrest.keeps.kend.trans (Mem.kfree_kend hfree),
      hrest.keeps.refcount.trans (Mem.kfree_refcount hfree),
      fun va hc => hrest.keeps.covers va (hkeep.covers va hc)⟩,
      fun w => (hrest.pages w).trans (hpages w), fun w => ?_, fun u hu hnot => ?_, fun u hu hu' => ?_⟩
    · rw [hrest.freed w, hspan, Mem.weigh_kfree hfree, span_head (by omega : v < v + (n + 1)), hleaf,
        weighEntry_some, show v + (n + 1) = v + 1 + n by omega]
      omega
    · rw [hrest.outside u hu (by omega), hset u hu, if_neg (by omega)]
    · by_cases hne : u = v
      · subst hne
        have hlim := lt_vpnLimit_of_lt_maxVa hva
        refine ⟨hva, by simp [hleaf], ?_⟩
        rw [hrest.outside u hlim (by omega), hset u hlim, if_pos rfl]
      · obtain ⟨hlt, hmapped, hnone⟩ := hrest.inside u (by omega) (by omega)
        refine ⟨hlt, ?_, hnone⟩
        rwa [hset u (lt_vpnLimit_of_lt_maxVa hlt), if_neg hne] at hmapped

theorem uvmunmap_free (h : uvmunmap m pt (v * pgSize) n true = .ok (m', pt')) :
    Unmaps m pt m' pt' v (v + n) := by
  unfold uvmunmap at h
  split at h
  · cases h
  · exact uvmunmapLoop_free h

/-- Removing one entry without freeing what it maps. -/
theorem uvmunmap_one (h : uvmunmap m pt (v * pgSize) 1 false = .ok (m', pt')) :
    v * pgSize < maxVa ∧ m' = m ∧ Keeps m pt m pt' ∧ (∀ w, pt'.weigh w = pt.weigh w) ∧
      AgreeOutside pt pt' v (v + 1) ∧ pt.leaf v ≠ none ∧ pt'.leaf v = none := by
  unfold uvmunmap at h
  split at h
  · cases h
  rw [uvmunmapLoop] at h
  obtain ⟨r, hwalk, h⟩ := Except.bind_ok_iff.1 h
  obtain ⟨hva, hjoin, -⟩ := walk_ok hwalk
  split at h
  · cases h
  · cases h
  rename_i pte
  split at h
  · cases h
  cases h
  have hleaf : pt.leaf v = some pte := hjoin.symm
  obtain ⟨hkeep, hpages, hset⟩ := unmapPage_ok (m := m) hva hleaf
  refine ⟨hva, rfl, hkeep, hpages, fun u hu hnot => ?_, by simp [hleaf], ?_⟩
  · rw [hset u hu, if_neg (by omega)]
  · rw [hset v (lt_vpnLimit_of_lt_maxVa hva), if_pos rfl]

theorem pagesBelow_mono {a b : Nat} (h : a ≤ b) : pagesBelow a ≤ pagesBelow b := by
  simp only [pagesBelow, pgSize]
  omega

/-- `uvmdealloc` unmaps and frees the pages of the part that is given up. -/
theorem uvmdealloc_ok {oldsz newsz r : Nat} (hold : oldsz ≤ maxVa)
    (h : uvmdealloc m pt oldsz newsz = .ok (r, m', pt')) :
    r = min oldsz newsz ∧ Unmaps m pt m' pt' (pagesBelow r) (pagesBelow oldsz) := by
  unfold uvmdealloc at h
  split at h
  · rename_i hle
    cases h
    exact ⟨by omega, .refl (Nat.le_refl _)⟩
  rename_i hlt
  rw [pgRoundUp_of_le hold, pgRoundUp_of_le (by omega : newsz ≤ maxVa)] at h
  have hpos : 0 < pgSize := by decide
  split at h
  · rename_i hpages
    have hlo : pagesBelow newsz < pagesBelow oldsz := Nat.lt_of_mul_lt_mul_right hpages
    rw [← Nat.sub_mul, Nat.mul_div_cancel _ hpos] at h
    obtain ⟨⟨m₁, pt₁⟩, hun, h⟩ := Except.bind_ok_iff.1 h
    cases h
    have hun := uvmunmap_free hun
    rw [Nat.add_sub_cancel' hlo.le] at hun
    exact ⟨by omega, hun⟩
  · rename_i hpages
    cases h
    exact ⟨by omega, .refl (Nat.le_of_mul_le_mul_right (not_lt.1 hpages) hpos)⟩

/-! ## uvmalloc and uvmcopy -/

/-- The pages from `lo` up to `hi`, none of them mapped before, map pages that
were taken from the free list. With `hi = lo` no entry changed. -/
structure Maps (perm : Nat → Perm) (m : Mem) (pt : PageTable) (m' : Mem) (pt' : PageTable)
    (lo hi : Nat) : Prop where
  keeps : Keeps m pt m' pt'
  taken : ∀ w, m'.weigh w + pt'.weigh w + pt'.span w lo hi = m.weigh w + pt.weigh w
  outside : AgreeOutside pt pt' lo hi
  inside : ∀ v, lo ≤ v → v < hi →
    v * pgSize < maxVa ∧ pt.leaf v = none ∧ ∃ f, pt'.leaf v = some ⟨f, perm v⟩

variable {perm : Nat → Perm}

theorem Maps.refl (m : Mem) (pt : PageTable) (lo : Nat) : Maps perm m pt m pt lo lo :=
  ⟨.refl _ _, fun w => by simp, .refl _ _ _, fun v _ _ => by omega⟩

/-- One more page is taken and mapped. -/
theorem Maps.extend {m₁ m₂ c : Mem} {f : Ppn} (h : Maps perm m pt m' pt' lo v) (hle : lo ≤ v)
    (hk : m'.kalloc = (some f, m₁)) (hc : m₁.SamePages c)
    (hmap : mappages c pt' (v * pgSize) pgSize f (perm v) = .ok (true, m₂, pt'')) :
    Maps perm m pt m₂ pt'' lo (v + 1) := by
  obtain ⟨hva, hkeep, hpages, hout, ⟨-, hnone, hsome⟩ | ⟨hf, -⟩⟩ := mappages_page hmap
  · have hlim := lt_vpnLimit_of_lt_maxVa hva
    refine ⟨⟨?_, ?_, fun va h' => hkeep.covers va (h.keeps.covers va h')⟩, fun w => ?_, fun u hu hnot => ?_,
      fun u hu hu' => ?_⟩
    · rw [hkeep.kend, hc.kend, Mem.kalloc_kend hk, h.keeps.kend]
    · rw [hkeep.refcount, hc.refcount, Mem.kalloc_refcount hk, h.keeps.refcount]
    · have hspan : pt''.span w lo v = pt'.span w lo v :=
        span_congr fun u _ hu => hout u (by omega) (by omega)
      have := hpages w
      have := hc.weigh w
      have := h.taken w
      have := Mem.weigh_kalloc hk w
      rw [span_succ hle, hspan, hsome, weighEntry_some]
      dsimp only
      omega
    · rw [hout u hu (by omega), h.outside u hu (by omega)]
    · by_cases hne : u = v
      · subst hne
        rw [h.outside u hlim (by omega)] at hnone
        exact ⟨hva, hnone, f, hsome⟩
      · obtain ⟨hlt, hold, g, hg⟩ := h.inside u hu (by omega)
        exact ⟨hlt, hold, g, by rw [hout u (lt_vpnLimit_of_lt_maxVa hlt) (by omega), hg]⟩
  · cases hf

/-- The page that was taken could not be mapped and is given back. -/
theorem Maps.giveBack {m₁ m₂ m₃ c : Mem} {f : Ppn} (h : Maps perm m pt m' pt' lo v)
    (hk : m'.kalloc = (some f, m₁)) (hc : m₁.SamePages c)
    (hmap : mappages c pt' (v * pgSize) pgSize f (perm v) = .ok (false, m₂, pt''))
    (hfree : m₂.kfree f = .ok m₃) :
    Maps perm m pt m₃ pt'' lo v := by
  obtain ⟨hva, hkeep, hpages, hout, ⟨hf, -⟩ | ⟨-, -, hsame, -⟩⟩ := mappages_page hmap
  · cases hf
  · have hall : ∀ u < vpnLimit, pt''.leaf u = pt'.leaf u := by
      intro u hu
      by_cases hne : u = v
      · rw [hne, hsame]
      · exact hout u hu (by omega)
    refine ⟨⟨?_, ?_, fun va h' => hkeep.covers va (h.keeps.covers va h')⟩, fun w => ?_, fun u hu hnot => ?_,
      fun u hu hu' => ?_⟩
    · rw [Mem.kfree_kend hfree, hkeep.kend, hc.kend, Mem.kalloc_kend hk, h.keeps.kend]
    · rw [Mem.kfree_refcount hfree, hkeep.refcount, hc.refcount, Mem.kalloc_refcount hk, h.keeps.refcount]
    · have hspan : pt''.span w lo v = pt'.span w lo v :=
        span_congr fun u _ hu => hall u (by have := lt_vpnLimit_of_lt_maxVa hva; omega)
      have := hpages w
      have := hc.weigh w
      have := h.taken w
      have := Mem.weigh_kalloc hk w
      rw [hspan, Mem.weigh_kfree hfree]
      omega
    · rw [hall u hu, h.outside u hu hnot]
    · obtain ⟨hlt, hold, g, hg⟩ := h.inside u hu hu'
      exact ⟨hlt, hold, g, by rw [hall u (lt_vpnLimit_of_lt_maxVa hlt), hg]⟩

/-- Everything that was mapped is unmapped and freed again. -/
theorem Maps.undo (h : Maps perm m pt m' pt' lo hi) (hun : Unmaps m' pt' m'' pt'' lo hi) :
    Maps perm m pt m'' pt'' lo lo := by
  refine ⟨h.keeps.trans hun.keeps, fun w => ?_, fun u hu hnot => ?_, fun u _ _ => by omega⟩
  · have := h.taken w
    have := hun.freed w
    rw [hun.pages, span_self]
    omega
  · by_cases hin : lo ≤ u ∧ u < hi
    · rw [(hun.inside u hin.1 hin.2).2.2, (h.inside u hin.1 hin.2).2.1]
    · rw [hun.outside u hu hin, h.outside u hu hin]

/-- A range that was mapped lies below the end of the address space. -/
theorem Maps.le_maxVa (h : Maps perm m pt m' pt' lo hi) (hlo : lo * pgSize ≤ maxVa) :
    hi * pgSize ≤ maxVa ∨ hi < lo := by
  rcases Nat.lt_trichotomy lo hi with hlt | rfl | hlt
  · obtain ⟨v, rfl⟩ : ∃ v, hi = v + 1 := ⟨hi - 1, by omega⟩
    have := (h.inside v (by omega) (by omega)).1
    simp only [maxVa, pgSize] at *
    omega
  · exact .inl hlo
  · exact .inr hlt

theorem uvmallocLoop_ok {p : Perm} {oldsz newsz r : Nat} {m₀ : Mem} {pt₀ : PageTable}
    (hold : oldsz = lo * pgSize) (hlo : oldsz ≤ maxVa) (hle : lo ≤ v)
    (hmaps : Maps (fun _ => p) m₀ pt₀ m pt lo v)
    (h : uvmallocLoop oldsz newsz p n m pt (v * pgSize) = .ok (r, m', pt')) :
    (r = newsz ∧ Maps (fun _ => p) m₀ pt₀ m' pt' lo (v + n)) ∨
      (r = 0 ∧ Maps (fun _ => p) m₀ pt₀ m' pt' lo lo) := by
  induction n generalizing m pt v with
  | zero =>
    cases h
    exact .inl ⟨rfl, hmaps⟩
  | succ n ih =>
    subst hold
    -- what the failing exits do
    have hundo : ∀ {m₁ pt₁ x m₂ pt₂}, Maps (fun _ => p) m₀ pt₀ m₁ pt₁ lo v →
        uvmdealloc m₁ pt₁ (v * pgSize) (lo * pgSize) = .ok (x, m₂, pt₂) →
        Maps (fun _ => p) m₀ pt₀ m₂ pt₂ lo lo := by
      intro m₁ pt₁ x m₂ pt₂ hm hd
      have hv : v * pgSize ≤ maxVa := (hm.le_maxVa hlo).resolve_right (by omega)
      obtain ⟨hr, hun⟩ := uvmdealloc_ok hv hd
      rw [Nat.min_eq_right (Nat.mul_le_mul_right _ hle)] at hr
      rw [hr, pagesBelow_mul, pagesBelow_mul] at hun
      exact hm.undo hun
    rw [uvmallocLoop] at h
    split at h
    · rename_i m₁ hk
      obtain ⟨-, rfl⟩ := Mem.kalloc_none hk
      obtain ⟨⟨x, m₂, pt₂⟩, hd, h⟩ := Except.bind_ok_iff.1 h
      cases h
      exact .inr ⟨rfl, hundo hmaps hd⟩
    · rename_i f m₁ hk
      have hsame : m₁.SamePages (m₁.memset f 0) := ⟨rfl, rfl, rfl⟩
      obtain ⟨⟨b, m₂, pt₂⟩, hmap, h⟩ := Except.bind_ok_iff.1 h
      cases b with
      | true =>
        dsimp only at h
        rw [if_pos rfl, show v * pgSize + pgSize = (v + 1) * pgSize by ring] at h
        have := ih (v := v + 1) (by omega) (hmaps.extend hle hk hsame hmap) h
        rwa [show v + 1 + n = v + (n + 1) by omega] at this
      | false =>
        obtain ⟨m₃, hfree, h⟩ := Except.bind_ok_iff.1 h
        obtain ⟨⟨x, m₄, pt₄⟩, hd, h⟩ := Except.bind_ok_iff.1 h
        cases h
        exact .inr ⟨rfl, hundo (hmaps.giveBack hk hsame hmap hfree) hd⟩

/-- `uvmalloc` maps fresh pages up to the new size, or changes no entry. -/
theorem uvmalloc_ok {oldsz newsz r : Nat} {xperm : Perm} (hold : oldsz ≤ maxVa)
    (h : uvmalloc m pt oldsz newsz xperm = .ok (r, m', pt')) :
    ∃ hi, Maps (fun _ => ⟨true, xperm.w, xperm.x, true⟩) m pt m' pt' (pagesBelow oldsz) hi ∧
      ((r = max oldsz newsz ∧ hi = max (pagesBelow oldsz) (pagesBelow newsz)) ∨
        (r = 0 ∧ hi = pagesBelow oldsz)) := by
  unfold uvmalloc at h
  split at h
  · rename_i hlt
    cases h
    have := pagesBelow_mono hlt.le
    exact ⟨pagesBelow oldsz, .refl _ _ _, .inl ⟨by omega, by omega⟩⟩
  · rename_i hle
    rw [pgRoundUp_of_le hold] at h
    have hmax : pagesBelow oldsz * pgSize ≤ maxVa := by
      simp only [pagesBelow, pgSize, maxVa] at *
      omega
    have hpages : pagesBelow oldsz + pagesBelow (newsz - pagesBelow oldsz * pgSize) =
        max (pagesBelow oldsz) (pagesBelow newsz) := by
      simp only [pagesBelow, pgSize] at *
      omega
    rcases uvmallocLoop_ok rfl hmax (Nat.le_refl _) (.refl _ _ _) h with ⟨hr, hm⟩ | ⟨hr, hm⟩
    · rw [hpages] at hm
      exact ⟨_, hm, .inl ⟨by omega, rfl⟩⟩
    · exact ⟨_, hm, .inr ⟨hr, rfl⟩⟩

/-- The permissions `uvmcopy` copies. -/
def permAt (pt : PageTable) (v : Nat) : Perm := (pt.leaf v).elim ⟨false, false, false, false⟩ Pte.perm

theorem uvmcopyLoop_ok {old : PageTable} {b : Bool} {m₀ : Mem} {pt₀ : PageTable}
    (hmaps : Maps old.permAt m₀ pt₀ m pt 0 v)
    (h : uvmcopyLoop old n m pt v = .ok (b, m', pt')) :
    (b = true ∧ Maps old.permAt m₀ pt₀ m' pt' 0 (v + n)) ∨
      (b = false ∧ Maps old.permAt m₀ pt₀ m' pt' 0 0) := by
  induction n generalizing m pt v with
  | zero =>
    cases h
    exact .inl ⟨rfl, hmaps⟩
  | succ n ih =>
    have hundo : ∀ {m₁ pt₁ m₂ pt₂}, Maps old.permAt m₀ pt₀ m₁ pt₁ 0 v →
        uvmunmap m₁ pt₁ 0 v true = .ok (m₂, pt₂) → Maps old.permAt m₀ pt₀ m₂ pt₂ 0 0 := by
      intro m₁ pt₁ m₂ pt₂ hm hu
      rw [show (0 : Nat) = 0 * pgSize by simp] at hu
      have hun := uvmunmap_free hu
      rw [Nat.zero_add] at hun
      exact hm.undo hun
    rw [uvmcopyLoop] at h
    obtain ⟨r, hwalk, hround⟩ := Except.bind_ok_iff.1 h
    clear h
    obtain ⟨-, hjoin, -⟩ := walk_ok hwalk
    split at hround
    · cases hround
    · cases hround
    rename_i pte
    have hperm : pte.perm = old.permAt v := by
      rw [permAt, show old.leaf v = some pte from hjoin.symm]
      rfl
    rw [hperm] at hround
    split at hround
    · rename_i m₁ hk
      obtain ⟨-, rfl⟩ := Mem.kalloc_none hk
      obtain ⟨⟨m₂, pt₂⟩, hu, h⟩ := Except.bind_ok_iff.1 hround
      cases h
      exact .inr ⟨rfl, hundo hmaps hu⟩
    · rename_i f m₁ hk
      have hsame : m₁.SamePages (m₁.memmove f pte.ppn) := ⟨rfl, rfl, rfl⟩
      obtain ⟨⟨b', m₂, pt₂⟩, hmap, h⟩ := Except.bind_ok_iff.1 hround
      cases b' with
      | true =>
        dsimp only at h
        rw [if_pos rfl] at h
        have := ih (hmaps.extend (Nat.zero_le _) hk hsame hmap) h
        rwa [show v + 1 + n = v + (n + 1) by omega] at this
      | false =>
        obtain ⟨m₃, hfree, h⟩ := Except.bind_ok_iff.1 h
        obtain ⟨⟨m₄, pt₄⟩, hu, h⟩ := Except.bind_ok_iff.1 h
        cases h
        exact .inr ⟨rfl, hundo (hmaps.giveBack hk hsame hmap hfree) hu⟩

/-- `uvmcopy` maps a fresh page for every page of the parent, or changes no
entry of the child. -/
theorem uvmcopy_ok {old : PageTable} {sz : Nat} {b : Bool}
    (h : uvmcopy m old pt sz = .ok (b, m', pt')) :
    ∃ hi, Maps old.permAt m pt m' pt' 0 hi ∧ ((b = true ∧ hi = pagesBelow sz) ∨ (b = false ∧ hi = 0)) := by
  rcases uvmcopyLoop_ok (.refl _ _ _) h with ⟨hb, hm⟩ | ⟨hb, hm⟩
  · exact ⟨_, hm, .inl ⟨hb, by omega⟩⟩
  · exact ⟨_, hm, .inr ⟨hb, rfl⟩⟩

/-! ## uvmshare -/

/-- The pages below `hi` of the destination map what the source maps there, and
each of them counts once more. -/
structure SharesTo (src : PageTable) (m : Mem) (dest : PageTable) (m' : Mem) (dest' : PageTable)
    (hi : Nat) : Prop where
  kend : m'.kend = m.kend
  covers : ∀ va, dest.Covers va → dest'.Covers va
  pages : ∀ w, m'.weigh w + dest'.weigh w = m.weigh w + dest.weigh w
  counts : ∀ f, m'.refcount f = m.refcount f + src.span (Weight.single f) 0 hi
  outside : AgreeOutside dest dest' 0 hi
  inside : ∀ v < hi, v * pgSize < maxVa ∧
    (src.leaf v = none → dest'.leaf v = dest.leaf v) ∧
    ∀ e, src.leaf v = some e → dest.leaf v = none ∧ dest'.leaf v = some e

variable {src dest dest' : PageTable}

/-- One round of `uvmshare` that maps the page at `v`. -/
theorem SharesTo.extend {e : Pte} {m₀ : Mem} {dest₀ : PageTable}
    (h : SharesTo src m₀ dest₀ m dest v) (he : src.leaf v = some e)
    (hmap : mappages m dest (v * pgSize) pgSize e.ppn e.perm = .ok (true, m', dest')) :
    SharesTo src m₀ dest₀ (m'.krefInc e.ppn) dest' (v + 1) := by
  obtain ⟨hva, hkeep, hpages, hout, ⟨-, hnone, hsome⟩ | ⟨hf, -⟩⟩ := mappages_page hmap
  · have hlim := lt_vpnLimit_of_lt_maxVa hva
    refine ⟨hkeep.kend.trans h.kend, fun va hc => hkeep.covers va (h.covers va hc), fun w => ?_,
      fun f => ?_, fun u hu hnot => ?_, fun u hu => ?_⟩
    · rw [Mem.weigh_krefInc, hpages, h.pages]
    · have hcount := h.counts f
      rw [span_succ (Nat.zero_le _), he, weighEntry_some, Mem.krefInc]
      dsimp only
      rw [hkeep.refcount, hcount]
      by_cases hf : f = e.ppn
      · rw [if_pos hf, hf, Weight.single_self]
        push_cast
        ring
      · rw [if_neg hf, Weight.single_ne (Ne.symm hf), Nat.add_zero]
    · rw [hout u hu (by omega), h.outside u hu (by omega)]
    · by_cases hne : u = v
      · subst hne
        refine ⟨hva, fun hn => (by rw [he] at hn; cases hn), fun e' he' => ?_⟩
        rw [he] at he'
        cases he'
        rw [h.outside u hlim (by omega)] at hnone
        exact ⟨hnone, hsome⟩
      · obtain ⟨hlt, hempty, hshared⟩ := h.inside u (by omega)
        rw [hout u (lt_vpnLimit_of_lt_maxVa hlt) (by omega)]
        exact ⟨hlt, hempty, hshared⟩
  · cases hf

/-- One round of `uvmshare` at a page that the source does not map. -/
theorem SharesTo.skip {m₀ : Mem} {dest₀ : PageTable} (h : SharesTo src m₀ dest₀ m dest v)
    (hva : v * pgSize < maxVa) (he : src.leaf v = none) : SharesTo src m₀ dest₀ m dest (v + 1) := by
  have hlim := lt_vpnLimit_of_lt_maxVa hva
  refine ⟨h.kend, h.covers, h.pages, fun f => ?_, h.outside.mono (Nat.le_refl _) (by omega), fun u hu => ?_⟩
  · rw [span_succ (Nat.zero_le _), he, weighEntry_none, Nat.add_zero]
    exact h.counts f
  · by_cases hne : u = v
    · subst hne
      refine ⟨hva, fun _ => h.outside u hlim (by omega), fun e he' => ?_⟩
      rw [he] at he'
      cases he'
    · exact h.inside u (by omega)

/-- The mapping of one page failed: the pages before it are shared. -/
theorem SharesTo.stop {m₀ : Mem} {dest₀ : PageTable} {pa : Ppn} {p : Perm}
    (h : SharesTo src m₀ dest₀ m dest v)
    (hmap : mappages m dest (v * pgSize) pgSize pa p = .ok (false, m', dest')) :
    SharesTo src m₀ dest₀ m' dest' v ∧ m'.freelist = [] := by
  obtain ⟨hva, hkeep, hpages, hout, ⟨hf, -⟩ | ⟨-, hnil, hsame, -⟩⟩ := mappages_page hmap
  · cases hf
  · have hall : ∀ u < vpnLimit, dest'.leaf u = dest.leaf u := by
      intro u hu
      by_cases hne : u = v
      · rw [hne, hsame]
      · exact hout u hu (by omega)
    refine ⟨⟨hkeep.kend.trans h.kend, fun va hc => hkeep.covers va (h.covers va hc),
      fun w => (hpages w).trans (h.pages w), fun f => by rw [hkeep.refcount, h.counts],
      fun u hu hnot => by rw [hall u hu, h.outside u hu hnot], fun u hu => ?_⟩, hnil⟩
    obtain ⟨hlt, hempty, hshared⟩ := h.inside u hu
    rw [hall u (lt_vpnLimit_of_lt_maxVa hlt)]
    exact ⟨hlt, hempty, hshared⟩

theorem uvmshareLoop_ok {b : Bool} {m₀ : Mem} {dest₀ : PageTable}
    (hshare : SharesTo src m₀ dest₀ m dest v)
    (h : uvmshareLoop src n m dest v = .ok (b, m', dest')) :
    ∃ hi, SharesTo src m₀ dest₀ m' dest' hi ∧
      ((b = true ∧ hi = v + n) ∨ (b = false ∧ hi < v + n ∧ m'.freelist = [])) := by
  induction n generalizing m dest v with
  | zero =>
    cases h
    exact ⟨v, hshare, .inl ⟨rfl, rfl⟩⟩
  | succ n ih =>
    rw [uvmshareLoop] at h
    obtain ⟨r, hwalk, hround⟩ := Except.bind_ok_iff.1 h
    clear h
    obtain ⟨hva, hjoin, -⟩ := walk_ok hwalk
    have hnext : v + 1 + n = v + (n + 1) := by omega
    split at hround
    · have := ih (hshare.skip hva hjoin.symm) hround
      rwa [hnext] at this
    · have := ih (hshare.skip hva hjoin.symm) hround
      rwa [hnext] at this
    rename_i e
    obtain ⟨⟨b', m₁, dest₁⟩, hmap, h⟩ := Except.bind_ok_iff.1 hround
    cases b' with
    | true =>
      have := ih (hshare.extend hjoin.symm hmap) h
      rwa [hnext] at this
    | false =>
      cases h
      obtain ⟨hstop, hnil⟩ := hshare.stop hmap
      exact ⟨v, hstop, .inr ⟨rfl, by omega, hnil⟩⟩

/-- `uvmshare` shares every page, or stops when no page is left for the table
of the destination. -/
theorem uvmshare_ok {sz : Nat} {b : Bool} (h : uvmshare m src dest sz = .ok (b, m', dest')) :
    ∃ hi, SharesTo src m dest m' dest' hi ∧
      ((b = true ∧ hi = pagesBelow sz) ∨ (b = false ∧ hi < pagesBelow sz ∧ m'.freelist = [])) := by
  have hstart : SharesTo src m dest m dest 0 :=
    ⟨rfl, fun _ hc => hc, fun _ => rfl, fun f => by simp, .refl _ _ _, fun u hu => by omega⟩
  obtain ⟨hi, hs, hb⟩ := uvmshareLoop_ok hstart h
  rw [Nat.zero_add] at hb
  exact ⟨hi, hs, hb⟩

end PageTable

end Xv6
