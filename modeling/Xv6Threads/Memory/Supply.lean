-- SUMMARY: How many free pages mapping takes, and that mapping and unmapping succeed when nothing is in the way.
import Xv6Threads.Memory.Mapping

/-!
# Supply

`missing pt S` counts the table pages that a table lacks for the virtual pages
in `S`. Mapping a page of `S` takes exactly the table pages that are missing
for it, so a free list that holds what is missing, and one page more for every
page to be mapped, is enough for the loops of `vm.c`.
-/

namespace Xv6

/-- Pages were taken from the head of the free list, and other pages were left
alone. -/
structure Mem.Draws (m m' : Mem) : Prop where
  kend : m'.kend = m.kend
  refcount : m'.refcount = m.refcount
  freelist : m'.freelist <:+ m.freelist
  data : ∀ f, f ∉ m.freelist → m'.data f = m.data f

namespace Mem

variable {m m' m'' : Mem} {f : Ppn} {w : Ppn → Nat}

theorem Draws.refl (m : Mem) : m.Draws m := ⟨rfl, rfl, List.suffix_refl _, fun _ _ => rfl⟩

theorem Draws.trans (h : m.Draws m') (h' : m'.Draws m'') : m.Draws m'' where
  kend := h'.kend.trans h.kend
  refcount := h'.refcount.trans h.refcount
  freelist := h'.freelist.trans h.freelist
  data f hf := (h'.data f fun hmem => hf (h.freelist.subset hmem)).trans (h.data f hf)

theorem Draws.weigh_le (h : m.Draws m') (w : Ppn → Nat) : m'.weigh w ≤ m.weigh w := by
  obtain ⟨l, hl⟩ := h.freelist
  rw [weigh, weigh, ← hl, Weight.ofList_append]
  omega

/-- `kalloc`, and whatever is then stored into the new page. -/
theorem kalloc_draws (h : m.kalloc = (some f, m')) (b : UInt8) :
    m.Draws (m'.memset f b) ∧ m'.freelist.length + 1 = m.freelist.length := by
  obtain ⟨hlist, hm'⟩ := kalloc_some h
  have hkend : (m'.memset f b).kend = m.kend := by rw [memset_kend, kalloc_kend h]
  have hcount : (m'.memset f b).refcount = m.refcount := by rw [memset_refcount, kalloc_refcount h]
  refine ⟨⟨hkend, hcount, ?_, fun g hg => ?_⟩, by rw [hlist]; rfl⟩
  · rw [hlist]
    exact List.suffix_cons _ _
  · have hne : g ≠ f := fun heq => hg (by rw [hlist, heq]; exact List.mem_cons_self ..)
    rw [hm']
    simp [memset, hne]

theorem kalloc_of_pos (h : 0 < m.freelist.length) : ∃ f m', m.kalloc = (some f, m') := by
  unfold kalloc
  cases hl : m.freelist with
  | nil => simp [hl] at h
  | cons r rest => exact ⟨_, _, rfl⟩

end Mem

namespace PageTable

/-! ## Missing table pages -/

/-- The level-1 and the level-0 pages that are missing for the virtual pages in `S`. -/
def missingMids (pt : PageTable) (S : Finset Nat) : Finset (Fin 512) :=
  (S.image fun v => px 2 (v * pgSize)).filter fun i => (pt.entry i).isNone

def missingLeaves (pt : PageTable) (S : Finset Nat) : Finset (Fin 512 × Fin 512) :=
  (S.image fun v => (px 2 (v * pgSize), px 1 (v * pgSize))).filter
    fun ij => ((pt.entry ij.1).bind fun mid => mid.entry ij.2).isNone

/-- How many table pages are missing for the virtual pages in `S`. -/
def missing (pt : PageTable) (S : Finset Nat) : Nat := (pt.missingMids S).card + (pt.missingLeaves S).card

variable {m m' : Mem} {pt pt' : PageTable} {S T : Finset Nat} {v n : Nat}

theorem missing_congr (h₂ : ∀ i, (pt'.entry i).isNone = (pt.entry i).isNone)
    (h₁ : ∀ i j, ((pt'.entry i).bind fun mid => mid.entry j).isNone =
      ((pt.entry i).bind fun mid => mid.entry j).isNone) (S : Finset Nat) : pt'.missing S = pt.missing S := by
  simp only [missing, missingMids, missingLeaves, h₂, h₁]

theorem missing_mono (h : S ⊆ T) (pt : PageTable) : pt.missing S ≤ pt.missing T :=
  Nat.add_le_add
    (Finset.card_le_card (Finset.filter_subset_filter _ (Finset.image_subset_image h)))
    (Finset.card_le_card (Finset.filter_subset_filter _ (Finset.image_subset_image h)))

/-- A store through the table changes no table page. -/
theorem missing_setPte (va : Nat) (x : Option Pte) (S : Finset Nat) : (pt.setPte va x).missing S = pt.missing S := by
  unfold setPte
  split
  · rfl
  · rename_i mid hmid
    split
    · rfl
    · rename_i leaves hleaves
      refine missing_congr (fun i => ?_) (fun i j => ?_) S
      · by_cases hi : i = px 2 va
        · simp [hi, hmid]
        · simp [Table.put_entry_ne _ hi]
      · by_cases hi : i = px 2 va
        · by_cases hj : j = px 1 va
          · simp [hi, hj, hmid, hleaves]
          · simp [hi, hmid, Table.put_entry_ne _ hj]
        · simp [Table.put_entry_ne _ hi]

/-- A level-0 page was put into the table, at the indices of `v`. -/
theorem missing_put {mid : Mid} {i : Fin 512} (j : Fin 512) (leaves : Leaves)
    (hmid : ∀ j', (mid.entry j').isNone = ((pt.entry i).bind fun mid => mid.entry j').isNone) :
    missingMids (pt.put i (some (mid.put j (some leaves)))) S = (pt.missingMids S).erase i ∧
      missingLeaves (pt.put i (some (mid.put j (some leaves)))) S = (pt.missingLeaves S).erase (i, j) := by
  constructor
  · ext i'
    by_cases hi : i' = i
    · simp [missingMids, hi]
    · simp [missingMids, hi, Table.put_entry_ne _ hi]
  · ext ⟨i', j'⟩
    by_cases hi : i' = i
    · subst hi
      by_cases hj : j' = j
      · simp [missingLeaves, hj]
      · have := hmid j'
        simp only [missingLeaves, Finset.mem_filter, Finset.mem_erase, Table.put_entry_same, Option.bind_some,
          Table.put_entry_ne _ hj, this]
        simp [hj]
    · simp [missingLeaves, hi, Table.put_entry_ne _ hi]

theorem card_erase {α : Type} [DecidableEq α] (s : Finset α) (a : α) :
    (s.erase a).card + (if a ∈ s then 1 else 0) = s.card := by
  split
  · rename_i h
    exact Finset.card_erase_add_one h
  · rename_i h
    rw [Finset.erase_eq_of_notMem h, Nat.add_zero]

/-- The table pages that `walk` takes from the free list for `v`. -/
def lacks (pt : PageTable) (v : Nat) : Nat :=
  (if (pt.entry (px 2 (v * pgSize))).isNone then 1 else 0) + (if (pt.level0 (v * pgSize)).isNone then 1 else 0)

theorem missing_put_of_mem {mid : Mid} (leaves : Leaves) (hv : v ∈ S)
    (hmid : ∀ j, (mid.entry j).isNone = ((pt.entry (px 2 (v * pgSize))).bind fun mid => mid.entry j).isNone) :
    missing (pt.put (px 2 (v * pgSize)) (some (mid.put (px 1 (v * pgSize)) (some leaves)))) S + pt.lacks v =
      pt.missing S := by
  obtain ⟨h₂, h₁⟩ := missing_put (S := S) (px 1 (v * pgSize)) leaves hmid
  have hc₂ := card_erase (pt.missingMids S) (px 2 (v * pgSize))
  have hc₁ := card_erase (pt.missingLeaves S) (px 2 (v * pgSize), px 1 (v * pgSize))
  have hm₂ : px 2 (v * pgSize) ∈ pt.missingMids S ↔ (pt.entry (px 2 (v * pgSize))).isNone := by
    simp only [missingMids, Finset.mem_filter, Finset.mem_image, and_iff_right_iff_imp]
    exact fun _ => ⟨v, hv, rfl⟩
  have hm₁ : (px 2 (v * pgSize), px 1 (v * pgSize)) ∈ pt.missingLeaves S ↔ (pt.level0 (v * pgSize)).isNone := by
    simp only [missingLeaves, Finset.mem_filter, Finset.mem_image, level0, and_iff_right_iff_imp]
    exact fun _ => ⟨v, hv, rfl⟩
  simp only [hm₂, hm₁] at hc₂ hc₁
  simp only [missing, lacks, h₂, h₁]
  omega

theorem lacks_le_missing (hv : v ∈ S) : pt.lacks v ≤ pt.missing S := by
  have hmid : ∀ j, ((⟨0, fun j => (pt.entry (px 2 (v * pgSize))).bind fun mid => mid.entry j⟩ : Mid).entry j).isNone =
      ((pt.entry (px 2 (v * pgSize))).bind fun mid => mid.entry j).isNone := fun _ => rfl
  have h := missing_put_of_mem (.zeroed 0) hv hmid
  omega

/-! ## Mapping -/

theorem demand_total {α : Type} {t : Table (Table α)} {i : Fin 512}
    (hmem : (if (t.entry i).isNone then 1 else 0) ≤ m.freelist.length) :
    ∃ sub m', t.demand m i = (some sub, m') ∧ m.Draws m' ∧
      m'.freelist.length + (if (t.entry i).isNone then 1 else 0) = m.freelist.length ∧
      ∀ j, (sub.entry j).isNone = ((t.entry i).bind fun sub => sub.entry j).isNone := by
  unfold Table.demand
  cases hi : t.entry i with
  | some sub => exact ⟨sub, m, rfl, .refl _, rfl, fun _ => rfl⟩
  | none =>
    rw [hi] at hmem
    obtain ⟨f, m₁, hk⟩ := Mem.kalloc_of_pos (m := m) (by simp at hmem; omega)
    obtain ⟨hdraws, hlen⟩ := Mem.kalloc_draws hk 0
    refine ⟨.zeroed f, m₁.memset f 0, ?_, hdraws, ?_, fun _ => rfl⟩
    · simp only [hk]
    · simpa using hlen

/-- What one level of `walk` has taken. -/
theorem demand_used {α : Type} {t : Table (Table α)} {i : Fin 512} {sub : Table α} (h : t.demand m i = (some sub, m')) :
    m'.freelist.length + (if (t.entry i).isNone then 1 else 0) = m.freelist.length ∧
      ∀ j, (sub.entry j).isNone = ((t.entry i).bind fun sub => sub.entry j).isNone := by
  unfold Table.demand at h
  cases hi : t.entry i with
  | some sub' =>
    rw [hi] at h
    cases h
    exact ⟨rfl, fun _ => rfl⟩
  | none =>
    rw [hi] at h
    dsimp only at h
    split at h
    · cases h
    · rename_i f m₁ hk
      cases h
      exact ⟨(Mem.kalloc_draws hk 0).2, fun _ => rfl⟩

/-- `walk` below `MAXVA` never stops the kernel. -/
theorem walkAlloc_returns (m : Mem) (pt : PageTable) {va : Nat} (hva : va < maxVa) :
    ∃ r, walkAlloc m pt va = .ok r := by
  unfold walkAlloc
  rw [if_neg (not_le.2 hva)]
  split
  · exact ⟨_, rfl⟩
  · split <;> exact ⟨_, rfl⟩

/-- The table after a `walk` that has found or built its entry. -/
theorem walkAlloc_found {va : Nat} (h : walkAlloc m pt va = .ok (true, m', pt')) :
    ∃ mid m₁ leaves, pt.demand m (px 2 va) = (some mid, m₁) ∧ mid.demand m₁ (px 1 va) = (some leaves, m') ∧
      pt' = pt.put (px 2 va) (some (mid.put (px 1 va) (some leaves))) := by
  unfold walkAlloc at h
  split at h
  · cases h
  · split at h
    · cases h
    · rename_i mid m₁ hd
      split at h
      · cases h
      · rename_i leaves m₂ hd'
        cases h
        exact ⟨mid, m₁, leaves, hd, hd', rfl⟩

/-- A `walk` that succeeds takes exactly what is missing for its page. -/
theorem walkAlloc_used (hv : v ∈ S) (h : walkAlloc m pt (v * pgSize) = .ok (true, m', pt')) :
    m'.freelist.length + pt.missing S = m.freelist.length + pt'.missing S := by
  obtain ⟨mid, m₁, leaves, hd₁, hd₂, rfl⟩ := walkAlloc_found h
  obtain ⟨hlen₁, hsub⟩ := demand_used hd₁
  obtain ⟨hlen₂, -⟩ := demand_used hd₂
  have hlevel : (pt.level0 (v * pgSize)).isNone = (mid.entry (px 1 (v * pgSize))).isNone := (hsub _).symm
  have hput := missing_put_of_mem leaves hv hsub
  rw [lacks, hlevel] at hput
  omega

/-- One level of `walk` that has found no page. -/
theorem demand_short {α : Type} {t : Table (Table α)} {i : Fin 512} (h : t.demand m i = (none, m')) :
    (t.entry i).isNone = true ∧ m'.freelist = [] ∧ m.freelist = [] := by
  unfold Table.demand at h
  cases hi : t.entry i with
  | some sub =>
    rw [hi] at h
    cases h
  | none =>
    rw [hi] at h
    dsimp only at h
    split at h
    · rename_i m₁ hk
      cases h
      obtain ⟨hnil, rfl⟩ := Mem.kalloc_none hk
      exact ⟨rfl, hnil, hnil⟩
    · cases h

/-- A `walk` that fails has emptied the free list, which held less than is missing. -/
theorem walkAlloc_short (hv : v ∈ S) (h : walkAlloc m pt (v * pgSize) = .ok (false, m', pt')) :
    m'.freelist = [] ∧ m.freelist.length < pt.missing S := by
  have hlacks : pt.lacks v ≤ pt.missing S := lacks_le_missing hv
  unfold walkAlloc at h
  split at h
  · cases h
  · split at h
    · rename_i m₁ hd
      cases h
      obtain ⟨hnone, hnil, hnil'⟩ := demand_short hd
      rw [lacks, if_pos hnone] at hlacks
      refine ⟨hnil, ?_⟩
      rw [hnil', List.length_nil]
      omega
    · rename_i mid m₁ hd
      obtain ⟨hlen, hsub⟩ := demand_used hd
      split at h
      · rename_i m₂ hd'
        cases h
        obtain ⟨hnone, hnil, hnil'⟩ := demand_short hd'
        have hlevel : (pt.level0 (v * pgSize)).isNone = true := (hsub _).symm.trans hnone
        rw [lacks, if_pos hlevel] at hlacks
        refine ⟨hnil, ?_⟩
        rw [hnil', List.length_nil] at hlen
        omega
      · cases h

/-- What the mapping of one page takes: all that is missing for it, or all there is. -/
structure Spends (m : Mem) (pt : PageTable) (ok : Bool) (m' : Mem) (pt' : PageTable) (S : Finset Nat) : Prop where
  used : ok = true → m'.freelist.length + pt.missing S = m.freelist.length + pt'.missing S
  short : ok = false → m'.freelist = [] ∧ m.freelist.length < pt.missing S

/-- `d` pages and the table pages that were missing in `S` were taken from the
free list, and the table has only grown. -/
structure Takes (m : Mem) (pt : PageTable) (m' : Mem) (pt' : PageTable) (S : Finset Nat) (d : Nat) : Prop where
  draws : m.Draws m'
  used : m'.freelist.length + d + pt.missing S = m.freelist.length + pt'.missing S
  tables : ∀ w, pt.weigh w ≤ pt'.weigh w

theorem Takes.refl (m : Mem) (pt : PageTable) (S : Finset Nat) : Takes m pt m pt S 0 :=
  ⟨.refl _, rfl, fun _ => Nat.le_refl _⟩

theorem Takes.trans {m'' : Mem} {pt'' : PageTable} {d e : Nat} (h : Takes m pt m' pt' S d)
    (h' : Takes m' pt' m'' pt'' S e) : Takes m pt m'' pt'' S (d + e) := by
  refine ⟨h.draws.trans h'.draws, ?_, fun w => (h.tables w).trans (h'.tables w)⟩
  have := h.used
  have := h'.used
  omega

/-- `walk` with `alloc` set finds or builds the entry, and takes what is missing. -/
theorem walkAlloc_total (hva : v * pgSize < maxVa) (hv : v ∈ S) (hmem : pt.missing S ≤ m.freelist.length) :
    ∃ m' pt', walkAlloc m pt (v * pgSize) = .ok (true, m', pt') ∧ m.Draws m' ∧
      m'.freelist.length + pt.missing S = m.freelist.length + pt'.missing S := by
  have hlacks : pt.lacks v ≤ pt.missing S := lacks_le_missing hv
  obtain ⟨mid, m₁, hd₁, hdraws₁, hlen₁, hsub⟩ := demand_total (m := m) (t := pt) (i := px 2 (v * pgSize)) (by
    rw [lacks] at hlacks
    omega)
  have hlevel : (pt.level0 (v * pgSize)).isNone = (mid.entry (px 1 (v * pgSize))).isNone := (hsub _).symm
  rw [lacks, hlevel] at hlacks
  obtain ⟨leaves, m₂, hd₂, hdraws₂, -, -⟩ := demand_total (m := m₁) (t := mid) (i := px 1 (v * pgSize)) (by
    omega)
  have hwalk : walkAlloc m pt (v * pgSize) =
      .ok (true, m₂, pt.put (px 2 (v * pgSize)) (some (mid.put (px 1 (v * pgSize)) (some leaves)))) := by
    rw [walkAlloc, if_neg (not_le.2 hva), hd₁]
    simp only [hd₂]
  exact ⟨m₂, _, hwalk, hdraws₁.trans hdraws₂, walkAlloc_used hv hwalk⟩

/-- One page at an aligned address that is free. -/
theorem mappages_total (pa : Ppn) (perm : Perm) (hva : v * pgSize < maxVa) (hv : v ∈ S)
    (hmem : pt.missing S ≤ m.freelist.length) (hleaf : pt.leaf v = none) :
    ∃ m' pt', mappages m pt (v * pgSize) pgSize pa perm = .ok (true, m', pt') ∧ Takes m pt m' pt' S 0 := by
  obtain ⟨m₁, pt₁, hwalk, hdraws, hlen⟩ := walkAlloc_total hva hv hmem
  obtain ⟨-, hext, -, -⟩ := walkAlloc_ok hwalk
  have hnone : pt₁.lookup (v * pgSize) = none := (hext.leaf v).trans hleaf
  refine ⟨m₁, pt₁.setPte (v * pgSize) (some ⟨pa, perm⟩), ?_, hdraws, ?_, fun w => ?_⟩
  · rw [mappages_aligned, mappagesLoop, hwalk]
    simp only [bind, Except.bind, hnone]
    rfl
  · rw [missing_setPte, Nat.add_zero, hlen]
  · have := hext.pages w
    have := hdraws.weigh_le w
    rw [setPte_weigh]
    omega

/-- A mapping that succeeds is a walk and a store. -/
theorem mappages_parts {pa : Ppn} {perm : Perm} (h : mappages m pt (v * pgSize) pgSize pa perm = .ok (true, m', pt')) :
    ∃ pt₁, walkAlloc m pt (v * pgSize) = .ok (true, m', pt₁) ∧ pt' = pt₁.setPte (v * pgSize) (some ⟨pa, perm⟩) := by
  rw [mappages_aligned, mappagesLoop] at h
  obtain ⟨⟨found, m₁, pt₁⟩, hwalk, h⟩ := Except.bind_ok_iff.1 h
  cases found with
  | false => cases h
  | true =>
    dsimp only at h
    rw [if_neg (by simp)] at h
    split at h
    · cases h
    · cases h
      exact ⟨pt₁, hwalk, rfl⟩

theorem mappages_spends {pa : Ppn} {perm : Perm} {ok : Bool} (hv : v ∈ S)
    (h : mappages m pt (v * pgSize) pgSize pa perm = .ok (ok, m', pt')) : Spends m pt ok m' pt' S := by
  cases ok with
  | true =>
    obtain ⟨pt₁, hwalk, rfl⟩ := mappages_parts h
    refine ⟨fun _ => ?_, fun hf => (by cases hf)⟩
    rw [missing_setPte]
    exact walkAlloc_used hv hwalk
  | false =>
    refine ⟨fun hf => (by cases hf), fun _ => ?_⟩
    rw [mappages_aligned, mappagesLoop] at h
    obtain ⟨⟨found, m₁, pt₁⟩, hwalk, h⟩ := Except.bind_ok_iff.1 h
    cases found with
    | false =>
      cases h
      exact walkAlloc_short hv hwalk
    | true =>
      dsimp only at h
      rw [if_neg (by simp)] at h
      split at h <;> cases h

/-- The loop of `uvmalloc` with all its pages free, and enough memory. -/
theorem uvmallocLoop_total (oldsz newsz : Nat) (perm : Perm) (hS : ∀ u, v ≤ u → u < v + n → u ∈ S)
    (hva : ∀ u, v ≤ u → u < v + n → u * pgSize < maxVa) (hleaf : ∀ u, v ≤ u → u < v + n → pt.leaf u = none)
    (hmem : n + pt.missing S ≤ m.freelist.length) :
    ∃ m' pt', uvmallocLoop oldsz newsz perm n m pt (v * pgSize) = .ok (newsz, m', pt') ∧ Takes m pt m' pt' S n := by
  induction n generalizing m pt v with
  | zero => exact ⟨m, pt, rfl, .refl _ _ _⟩
  | succ n ih =>
    obtain ⟨f, m₁, hk⟩ := Mem.kalloc_of_pos (m := m) (by omega)
    obtain ⟨hdraws, hlen⟩ := Mem.kalloc_draws hk 0
    obtain ⟨m₂, pt₂, hmap, htakes⟩ := mappages_total (m := m₁.memset f 0) f perm
      (hva v (Nat.le_refl _) (by omega)) (hS v (Nat.le_refl _) (by omega)) (by rw [Mem.memset_freelist]; omega)
      (hleaf v (Nat.le_refl _) (by omega))
    have hfirst : Takes m pt m₂ pt₂ S 1 := by
      refine ⟨hdraws.trans htakes.draws, ?_, htakes.tables⟩
      have := htakes.used
      rw [Mem.memset_freelist] at this
      omega
    have hout := (mappages_page hmap).2.2.2.1
    have hleaf₂ : ∀ u, v + 1 ≤ u → u < v + 1 + n → pt₂.leaf u = none := by
      intro u hu hu'
      have hlim := lt_vpnLimit_of_lt_maxVa (hva u (by omega) (by omega))
      rw [hout u hlim (by omega)]
      exact hleaf u (by omega) (by omega)
    have hmem₂ : n + pt₂.missing S ≤ m₂.freelist.length := by
      have := hfirst.used
      omega
    obtain ⟨m', pt', hrest, htakes'⟩ := ih (fun u hu hu' => hS u (by omega) (by omega))
      (fun u hu hu' => hva u (by omega) (by omega)) hleaf₂ hmem₂
    refine ⟨m', pt', ?_, Nat.add_comm n 1 ▸ hfirst.trans htakes'⟩
    rw [show (v + 1) * pgSize = v * pgSize + pgSize by ring] at hrest
    rw [uvmallocLoop, hk]
    show (mappages _ _ _ _ _ _ >>= _) = _
    rw [hmap]
    exact hrest

/-- `uvmalloc` with all its pages free and enough memory for them and for the
tables missing in a set that holds them. -/
theorem uvmalloc_within {oldsz newsz : Nat} (xperm : Perm) (hle : oldsz ≤ newsz) (hnew : newsz ≤ maxVa)
    (hS : ∀ u, pagesBelow oldsz ≤ u → u < pagesBelow newsz → u ∈ S)
    (hleaf : ∀ u, pagesBelow oldsz ≤ u → u < pagesBelow newsz → pt.leaf u = none)
    (hmem : (pagesBelow newsz - pagesBelow oldsz) + pt.missing S ≤ m.freelist.length) :
    ∃ m' pt', uvmalloc m pt oldsz newsz xperm = .ok (newsz, m', pt') ∧
      Takes m pt m' pt' S (pagesBelow newsz - pagesBelow oldsz) := by
  have hcount : pagesBelow (newsz - pagesBelow oldsz * pgSize) = pagesBelow newsz - pagesBelow oldsz := by
    simp only [pagesBelow, pgSize]
    omega
  have hva : ∀ u, u < pagesBelow newsz → u * pgSize < maxVa := by
    intro u hu
    simp only [pagesBelow, pgSize, maxVa] at *
    omega
  have hmono := pagesBelow_mono hle
  obtain ⟨m', pt', hloop, htakes⟩ := uvmallocLoop_total (v := pagesBelow oldsz) (pagesBelow oldsz * pgSize)
    newsz ⟨true, xperm.w, xperm.x, true⟩
    (fun u hu hu' => hS u hu (by omega)) (fun u hu hu' => hva u (by omega))
    (fun u hu hu' => hleaf u hu (by omega)) hmem
  refine ⟨m', pt', ?_, htakes⟩
  rw [uvmalloc, if_neg (by omega)]
  simp only [pgRoundUp_of_le (hle.trans hnew), hcount]
  exact hloop

theorem uvmalloc_total {oldsz newsz : Nat} (xperm : Perm) (hle : oldsz ≤ newsz) (hnew : newsz ≤ maxVa)
    (hleaf : ∀ u, pagesBelow oldsz ≤ u → u < pagesBelow newsz → pt.leaf u = none)
    (hmem : (pagesBelow newsz - pagesBelow oldsz) + pt.missing (Finset.Ico (pagesBelow oldsz) (pagesBelow newsz)) ≤
      m.freelist.length) :
    ∃ m' pt', uvmalloc m pt oldsz newsz xperm = .ok (newsz, m', pt') ∧
      Takes m pt m' pt' (Finset.Ico (pagesBelow oldsz) (pagesBelow newsz)) (pagesBelow newsz - pagesBelow oldsz) :=
  uvmalloc_within xperm hle hnew (fun _ hu hu' => Finset.mem_Ico.2 ⟨hu, hu'⟩) hleaf hmem

/-! ## Unmapping -/

/-- An entry that `uvmunmap` can remove and free: a leaf that maps a page of
the allocator. -/
def Removable (m : Mem) (e : Pte) : Prop := e.perm ≠ ⟨false, false, false, false⟩ ∧ m.InRange e.ppn

instance (m : Mem) (e : Pte) : Decidable (Removable m e) := inferInstanceAs (Decidable (_ ∧ _))

theorem Removable.congr {e : Pte} (h : Removable m e) (hk : m'.kend = m.kend) : Removable m' e := by
  refine ⟨h.1, ?_⟩
  rw [Mem.InRange, hk]
  exact h.2

theorem walk_of_leaf {e : Pte} (hva : v * pgSize < maxVa) (he : pt.leaf v = some e) :
    pt.walk (v * pgSize) = .ok (some (some e)) := by
  obtain ⟨leaves, hl⟩ := Option.isSome_iff_exists.1 (covers_of_lookup he)
  rw [leaf, lookup, hl] at he
  simp only [walk, if_neg (not_le.2 hva), hl]
  exact congrArg (fun x => Except.ok (some x)) he

theorem uvmunmapLoop_total
    (h : ∀ u, v ≤ u → u < v + n → u * pgSize < maxVa ∧ ∃ e, pt.leaf u = some e ∧ Removable m e) :
    ∃ m' pt', uvmunmapLoop true n m pt (v * pgSize) = .ok (m', pt') := by
  induction n generalizing m pt v with
  | zero => exact ⟨m, pt, rfl⟩
  | succ n ih =>
    obtain ⟨hva, e, he, hperm, hrange⟩ := h v (Nat.le_refl _) (by omega)
    have hwalk := walk_of_leaf hva he
    have hfree := Mem.kfree_of_inRange hrange
    obtain ⟨-, -, hset⟩ := unmapPage_ok (m := m) hva he
    have hkept : ∀ u, v + 1 ≤ u → u < v + 1 + n → u * pgSize < maxVa ∧
        ∃ e', (pt.setPte (v * pgSize) none).leaf u = some e' ∧
          Removable { m.memset e.ppn 1 with freelist := e.ppn :: m.freelist } e' := by
      intro u hu hu'
      obtain ⟨hlt, e', he', hrem⟩ := h u (by omega) (by omega)
      refine ⟨hlt, e', ?_, hrem.congr rfl⟩
      rw [hset u (lt_vpnLimit_of_lt_maxVa hlt), if_neg (by omega), he']
    obtain ⟨m', pt', hrest⟩ := ih hkept
    refine ⟨m', pt', ?_⟩
    rw [uvmunmapLoop, hwalk]
    show (if e.perm = _ then _ else _) = _
    rw [if_neg hperm, if_pos rfl, hfree]
    rw [show (v + 1) * pgSize = v * pgSize + pgSize by ring] at hrest
    exact hrest

/-- `uvmdealloc` with every page of the part that is given up in place. -/
theorem uvmdealloc_total {oldsz newsz : Nat} (hold : oldsz ≤ maxVa) (hle : newsz ≤ oldsz)
    (h : ∀ u, pagesBelow newsz ≤ u → u < pagesBelow oldsz → ∃ e, pt.leaf u = some e ∧ Removable m e) :
    ∃ m' pt', uvmdealloc m pt oldsz newsz = .ok (newsz, m', pt') := by
  have hva : ∀ u, u < pagesBelow oldsz → u * pgSize < maxVa := by
    intro u hu
    simp only [pagesBelow, pgSize, maxVa] at *
    omega
  unfold uvmdealloc
  split
  · rename_i hge
    obtain rfl : oldsz = newsz := by omega
    exact ⟨m, pt, rfl⟩
  rw [pgRoundUp_of_le hold, pgRoundUp_of_le (hle.trans hold)]
  split
  · rename_i hlt
    have hpages : pagesBelow newsz < pagesBelow oldsz := Nat.lt_of_mul_lt_mul_right hlt
    have hin : ∀ u, pagesBelow newsz ≤ u → u < pagesBelow newsz + (pagesBelow oldsz - pagesBelow newsz) →
        u * pgSize < maxVa ∧ ∃ e, pt.leaf u = some e ∧ Removable m e :=
      fun u hu hu' => ⟨hva u (by omega), h u hu (by omega)⟩
    obtain ⟨m', pt', hun⟩ := uvmunmapLoop_total hin
    have hun' : uvmunmap m pt (pagesBelow newsz * pgSize) (pagesBelow oldsz - pagesBelow newsz) true = .ok (m', pt') := by
      rw [uvmunmap, if_neg (by simp)]
      exact hun
    refine ⟨m', pt', ?_⟩
    simp only [← Nat.sub_mul, Nat.mul_div_cancel _ (show 0 < pgSize by decide), hun']
    rfl
  · exact ⟨m, pt, rfl⟩

/-! ## Sharing -/

/-- The loop of `uvmshare` with its pages free in the destination, and enough
memory for the table pages that the destination lacks. -/
theorem uvmshareLoop_total (src dest : PageTable) (hva : ∀ u, v ≤ u → u < v + n → u * pgSize < maxVa)
    (hS : ∀ u, v ≤ u → u < v + n → src.leaf u ≠ none → u ∈ S)
    (hleaf : ∀ u, v ≤ u → u < v + n → src.leaf u ≠ none → dest.leaf u = none)
    (hmem : dest.missing S ≤ m.freelist.length) :
    ∃ m' dest', uvmshareLoop src n m dest v = .ok (true, m', dest') ∧ m'.freelist <:+ m.freelist ∧
      m'.freelist.length + dest.missing S = m.freelist.length + dest'.missing S := by
  induction n generalizing m dest v with
  | zero => exact ⟨m, dest, rfl, List.suffix_refl _, rfl⟩
  | succ n ih =>
    have hv := hva v (Nat.le_refl _) (by omega)
    have hva' : ∀ u, v + 1 ≤ u → u < v + 1 + n → u * pgSize < maxVa := fun u hu hu' => hva u (by omega) (by omega)
    have hS' : ∀ u, v + 1 ≤ u → u < v + 1 + n → src.leaf u ≠ none → u ∈ S :=
      fun u hu hu' => hS u (by omega) (by omega)
    cases he : src.leaf v with
    | none =>
      obtain ⟨m', dest', hrest, hsuffix, hlen⟩ := ih dest hva' hS' (fun u hu hu' => hleaf u (by omega) (by omega)) hmem
      refine ⟨m', dest', ?_, hsuffix, hlen⟩
      rw [uvmshareLoop]
      obtain ⟨r, hwalk⟩ : ∃ r, src.walk (v * pgSize) = .ok r := ⟨_, if_neg (not_le.2 hv)⟩
      have hjoin : r.join = none := (walk_ok hwalk).2.1.trans he
      refine Except.bind_ok_iff.2 ⟨r, hwalk, ?_⟩
      rcases r with _ | _ | e
      · exact hrest
      · exact hrest
      · cases hjoin
    | some e =>
      have hsome : src.leaf v ≠ none := by simp [he]
      obtain ⟨m₁, dest₁, hmap, htakes⟩ := mappages_total (m := m) e.ppn e.perm hv
        (hS v (Nat.le_refl _) (by omega) hsome) hmem (hleaf v (Nat.le_refl _) (by omega) hsome)
      have hout := (mappages_page hmap).2.2.2.1
      have hused := htakes.used
      obtain ⟨m', dest', hrest, hsuffix, hlen⟩ := ih (m := m₁.krefInc e.ppn) dest₁ hva' hS'
        (fun u hu hu' hne => by
          rw [hout u (lt_vpnLimit_of_lt_maxVa (hva' u hu hu')) (by omega)]
          exact hleaf u (by omega) (by omega) hne)
        (by rw [Mem.krefInc_freelist]; omega)
      rw [Mem.krefInc_freelist] at hsuffix hlen
      refine ⟨m', dest', ?_, hsuffix.trans htakes.draws.freelist, by omega⟩
      rw [uvmshareLoop]
      exact Except.bind_ok_iff.2 ⟨_, walk_of_leaf hv he, Except.bind_ok_iff.2 ⟨_, hmap, hrest⟩⟩

/-- The loop of `uvmshare` takes what the destination lacks, or all there is. -/
theorem uvmshareLoop_spends {src dest dest' : PageTable} {ok : Bool}
    (hS : ∀ u, v ≤ u → u < v + n → src.leaf u ≠ none → u ∈ S)
    (h : uvmshareLoop src n m dest v = .ok (ok, m', dest')) : Spends m dest ok m' dest' S := by
  induction n generalizing m dest v with
  | zero =>
    cases h
    exact ⟨fun _ => rfl, fun hf => (by cases hf)⟩
  | succ n ih =>
    have hrest : ∀ u, v + 1 ≤ u → u < v + 1 + n → src.leaf u ≠ none → u ∈ S := fun u hu hu' => hS u (by omega) (by omega)
    rw [uvmshareLoop] at h
    obtain ⟨r, hwalk, h⟩ := Except.bind_ok_iff.1 h
    obtain ⟨-, hjoin, -⟩ := walk_ok hwalk
    rcases r with _ | _ | e
    · exact ih hrest h
    · exact ih hrest h
    · have hv : v ∈ S := hS v (Nat.le_refl v) (by omega) (by rw [leaf, ← hjoin]; simp)
      obtain ⟨⟨mapped, m₁, dest₁⟩, hmap, h⟩ := Except.bind_ok_iff.1 h
      have hone := mappages_spends hv hmap
      cases mapped with
      | false =>
        cases h
        exact hone
      | true =>
        have hused := hone.used rfl
        obtain ⟨hmore, hshort⟩ := ih hrest h
        rw [Mem.krefInc_freelist] at hmore hshort
        exact ⟨fun hok => by have := hmore hok; omega, fun hok => ⟨(hshort hok).1, by have := (hshort hok).2; omega⟩⟩

/-- No table page is missing for pages that are mapped. -/
theorem missing_union_of_leaf (hS : ∀ u ∈ S, pt.leaf u ≠ none) (T : Finset Nat) : pt.missing (S ∪ T) = pt.missing T := by
  have hcovers : ∀ u ∈ S, ∃ leaves, pt.level0 (u * pgSize) = some leaves := fun u hu =>
    Option.isSome_iff_exists.1 (covers_of_lookup (Option.ne_none_iff_exists'.1 (hS u hu)).choose_spec)
  have hmids : pt.missingMids (S ∪ T) = pt.missingMids T := by
    rw [missingMids, missingMids, Finset.image_union, Finset.filter_union, Finset.union_eq_right.2]
    intro i hi
    obtain ⟨hmem, hnone⟩ := Finset.mem_filter.1 hi
    obtain ⟨u, hu, rfl⟩ := Finset.mem_image.1 hmem
    obtain ⟨leaves, hl⟩ := hcovers u hu
    rw [level0, Option.isNone_iff_eq_none.1 hnone] at hl
    cases hl
  have hleaves : pt.missingLeaves (S ∪ T) = pt.missingLeaves T := by
    rw [missingLeaves, missingLeaves, Finset.image_union, Finset.filter_union, Finset.union_eq_right.2]
    intro ij hij
    obtain ⟨hmem, hnone⟩ := Finset.mem_filter.1 hij
    obtain ⟨u, hu, rfl⟩ := Finset.mem_image.1 hmem
    obtain ⟨leaves, hl⟩ := hcovers u hu
    rw [level0] at hl
    rw [hl] at hnone
    cases hnone
  rw [missing, missing, hmids, hleaves]

theorem missing_eq_zero (h : ∀ u ∈ S, pt.leaf u ≠ none) : pt.missing S = 0 := by
  rw [← Finset.union_empty S, missing_union_of_leaf h]
  rfl

end PageTable

end Xv6
