-- SUMMARY: Which programs exec can load: the size they reach and the memory they take.
import Xv6Threads.Process.Arguments
import Xv6Threads.Process.Supplies

/-!
# Fitting

Whether `exec` can load a program is decided by its program headers, by the
space its arguments take and by the number of free pages.
-/

namespace Xv6

open PageTable

variable {m₀ m m' : Mem} {pt pt' : PageTable} {sz sz' newsz top n v r : Nat} {S : Finset Nat}
  {phs : List (Option Segment)} {bytes : List UInt8} {xperm : Perm}

/-! ## Memory taken by uvmalloc -/

namespace PageTable

theorem mappages_used {pa : Ppn} {perm : Perm} (hv : v ∈ S)
    (h : mappages m pt (v * pgSize) pgSize pa perm = .ok (true, m', pt')) :
    m'.freelist.length + pt.missing S = m.freelist.length + pt'.missing S := by
  obtain ⟨pt₁, hwalk, rfl⟩ := mappages_parts h
  rw [missing_setPte]
  exact walkAlloc_used hv hwalk

theorem uvmallocLoop_used {oldsz : Nat} {perm : Perm} (hS : ∀ u, v ≤ u → u < v + n → u ∈ S)
    (h : uvmallocLoop oldsz newsz perm n m pt (v * pgSize) = .ok (r, m', pt')) (hr : r ≠ 0) :
    m'.freelist.length + n + pt.missing S = m.freelist.length + pt'.missing S := by
  induction n generalizing m pt v with
  | zero =>
    cases h
    rfl
  | succ n ih =>
    rw [uvmallocLoop] at h
    split at h
    · obtain ⟨x, -, h⟩ := Except.bind_ok_iff.1 h
      cases h
      exact absurd rfl hr
    · rename_i f m₁ hk
      obtain ⟨⟨mapped, m₂, pt₂⟩, hmap, h⟩ := Except.bind_ok_iff.1 h
      cases mapped with
      | false =>
        obtain ⟨m₃, -, h⟩ := Except.bind_ok_iff.1 h
        obtain ⟨x, -, h⟩ := Except.bind_ok_iff.1 h
        cases h
        exact absurd rfl hr
      | true =>
        have hnext : v * pgSize + pgSize = (v + 1) * pgSize := by ring
        have hfirst := mappages_used (hS v (Nat.le_refl _) (by omega)) hmap
        have hrest := ih (fun u hu hu' => hS u (by omega) (by omega)) (hnext ▸ h)
        have hlen := (Mem.kalloc_draws hk 0).2
        rw [Mem.memset_freelist] at hfirst
        omega

/-- A `uvmalloc` that succeeds takes a page for each page it adds, and the
table pages that were missing. -/
theorem uvmalloc_used (hS : ∀ u, pagesBelow sz ≤ u → u < pagesBelow (max sz newsz) → u ∈ S) (hsz : sz ≤ maxVa)
    (h : uvmalloc m pt sz newsz xperm = .ok (r, m', pt')) (hr : r ≠ 0) :
    m'.freelist.length + (pagesBelow (max sz newsz) - pagesBelow sz) + pt.missing S =
      m.freelist.length + pt'.missing S := by
  unfold uvmalloc at h
  split at h
  · rename_i hlt
    cases h
    rw [Nat.max_eq_left hlt.le, Nat.sub_self]
    rfl
  · rename_i hle
    have hmax : max sz newsz = newsz := Nat.max_eq_right (by omega)
    rw [hmax] at hS ⊢
    rw [pgRoundUp_of_le hsz] at h
    have hcount : pagesBelow (newsz - pagesBelow sz * pgSize) = pagesBelow newsz - pagesBelow sz := by
      simp only [pagesBelow, pgSize]
      omega
    have hmono : pagesBelow sz ≤ pagesBelow newsz := pagesBelow_mono (by omega)
    dsimp only at h
    rw [hcount] at h
    exact uvmallocLoop_used (fun u hu hu' => hS u hu (by omega)) h hr

theorem walkaddr_of_leaf {va : Nat} {e : Pte} (hva : va < maxVa) (he : pt.leaf (va / pgSize) = some e)
    (hu : e.perm.u = true) : pt.walkaddr va = some e.ppn := by
  rw [walkaddr, if_neg (not_le.2 hva), lookup_eq_leaf, he, Option.bind_some, if_pos hu]

/-- User code can reach every page below `sz`. -/
def Open (pt : PageTable) (sz : Nat) : Prop := ∀ v < pagesBelow sz, ∀ e, pt.leaf v = some e → e.perm.u = true

theorem Open.uvmalloc (ho : pt.Open sz) (hsz : sz ≤ trapframeVa) (hf : pt.Framed)
    (h : uvmalloc m pt sz newsz xperm = .ok (r, m', pt')) (hr : r ≠ 0) : pt'.Open r := by
  obtain ⟨hi, hm, ⟨hr, hhi⟩ | ⟨hzero, -⟩⟩ := uvmalloc_ok (hsz.trans (by decide)) h
  swap
  · exact absurd hzero hr
  have hlim := userPages_lt
  have hhi' := hm.le_userPages hf (pagesBelow_le_userPages hsz)
  have hpages : pagesBelow r ≤ hi := by
    rw [hr, hhi]
    rcases Nat.le_total sz newsz with hle | hle
    · rw [Nat.max_eq_right hle]
      exact Nat.le_max_right _ _
    · rw [Nat.max_eq_left hle]
      exact Nat.le_max_left _ _
  intro v hv e he
  by_cases hin : pagesBelow sz ≤ v
  · obtain ⟨-, -, f, hf⟩ := hm.inside v hin (by omega)
    rw [hf] at he
    cases he
    rfl
  · rw [hm.outside v (by omega) (by omega)] at he
    exact ho v (by omega) e he

end PageTable

/-- Enough memory for the pages up to the new size, and for the tables missing
in a set that holds them. -/
theorem Built.uvmalloc_total (h : Built m₀ m pt sz) (xperm : Perm) (htop : max sz newsz ≤ trapframeVa)
    (hS : ∀ u, pagesBelow sz ≤ u → u < pagesBelow (max sz newsz) → u ∈ S)
    (hmem : (pagesBelow (max sz newsz) - pagesBelow sz) + pt.missing S ≤ m.freelist.length) :
    ∃ m' pt', PageTable.uvmalloc m pt sz newsz xperm = .ok (max sz newsz, m', pt') := by
  by_cases hlt : newsz < sz
  · rw [Nat.max_eq_left hlt.le]
    exact ⟨m, pt, if_pos hlt⟩
  · have hle : sz ≤ newsz := by omega
    rw [Nat.max_eq_right hle] at hS hmem htop ⊢
    have hleaf : ∀ u, pagesBelow sz ≤ u → u < pagesBelow newsz → pt.leaf u = none := by
      intro u hu hu'
      have := pagesBelow_le_userPages htop
      exact h.hollow u hu (by omega)
    obtain ⟨m', pt', halloc, -⟩ := uvmalloc_within xperm hle (htop.trans (by decide)) hS hleaf hmem
    exact ⟨m', pt', halloc⟩

/-! ## loadseg -/

theorem loadsegLoop_total {va : Nat} (hwalk : ∀ u, v ≤ u → u < v + n → pt.walkaddr (va + u * pgSize) ≠ none)
    (hbytes : sz ≤ bytes.length) (m : Mem) :
    ∃ m', loadsegLoop pt va sz bytes n m (v * pgSize) = .ok (true, m') := by
  induction n generalizing v m with
  | zero => exact ⟨m, rfl⟩
  | succ n ih =>
    obtain ⟨pa, hpa⟩ := Option.ne_none_iff_exists'.1 (hwalk v (Nat.le_refl _) (by omega))
    have hlen : ((bytes.drop (v * pgSize)).take (min (sz - v * pgSize) pgSize)).length =
        min (sz - v * pgSize) pgSize := by
      rw [List.length_take, List.length_drop]
      omega
    obtain ⟨m', hrest⟩ := ih (v := v + 1) (fun u hu hu' => hwalk u (by omega) (by omega))
      (m.store pa 0 ((bytes.drop (v * pgSize)).take (min (sz - v * pgSize) pgSize)))
    refine ⟨m', ?_⟩
    have hnext : v * pgSize + pgSize = (v + 1) * pgSize := by ring
    rw [← hnext] at hrest
    generalize v * pgSize = i at hpa hlen hrest ⊢
    rw [loadsegLoop, hpa]
    dsimp only
    rw [if_neg (not_not.2 hlen)]
    exact hrest

/-- A segment that was loaded is in the file. -/
theorem loadsegLoop_found {va i : Nat} (h : loadsegLoop pt va sz bytes n m i = .ok (true, m'))
    (hsz : sz ≤ i + n * pgSize) : sz ≤ i ∨ sz ≤ bytes.length := by
  induction n generalizing m i with
  | zero => exact .inl (by omega)
  | succ n ih =>
    rw [loadsegLoop] at h
    split at h
    · cases h
    dsimp only at h
    split at h
    · cases h
    rename_i hlen
    rw [not_not, List.length_take, List.length_drop] at hlen
    have hnext : i + (n + 1) * pgSize = i + pgSize + n * pgSize := by ring
    rcases ih h (by omega) with hle | hle
    · omega
    · exact .inr hle

/-! ## Program headers -/

/-- The address range of a segment is given by 64-bit words. -/
def Segment.Words (ph : Segment) : Prop := ph.vaddr < wordSize ∧ ph.memsz < wordSize

instance (ph : Segment) : Decidable ph.Words := inferInstanceAs (Decidable (_ ∧ _))

/-- The address at which a segment ends. -/
def Segment.limit (ph : Segment) : Nat := (ph.vaddr + ph.memsz) % wordSize

/-- The size that loading the segments reaches from `sz` on, if every program
header can be read and passes its checks, something is mapped by then, and the
file holds the segment. -/
def extent : List (Option Segment) → Nat → Option Nat
  | [], sz => some sz
  | none :: _, _ => none
  | some ph :: phs, sz =>
    if !ph.load then extent phs sz
    else if ph.memsz < ph.filesz ∨ ph.limit < ph.vaddr ∨ ph.vaddr % pgSize ≠ 0 ∨ max sz ph.limit = 0 ∨
        ph.bytes.length < ph.filesz % 2 ^ 32 then none
    else extent phs (max sz ph.limit)

theorem le_extent (h : extent phs sz = some top) : sz ≤ top := by
  induction phs generalizing sz with
  | nil =>
    cases h
    rfl
  | cons o phs ih =>
    cases o with
    | none => cases h
    | some ph =>
      rw [extent] at h
      split at h
      · exact ih h
      · split at h
        · cases h
        · exact (Nat.le_max_left _ _).trans (ih h)

/-- What a load that went through has taken. -/
theorem loadSegments_found (hb : Built m₀ m pt sz) (h : loadSegments phs m pt sz = .ok (true, top, m', pt')) :
    extent phs sz = some top ∧ ∀ S : Finset Nat, (∀ u < pagesBelow top, u ∈ S) →
      m'.freelist.length + (pagesBelow top - pagesBelow sz) + pt.missing S =
        m.freelist.length + pt'.missing S := by
  induction phs generalizing m pt sz with
  | nil =>
    cases h
    exact ⟨rfl, fun S _ => by rw [Nat.sub_self]; rfl⟩
  | cons o phs ih =>
    cases o with
    | none => cases h
    | some ph =>
      rw [loadSegments] at h
      rw [extent]
      split at h
      · rename_i hload
        rw [if_pos hload]
        exact ih hb h
      rename_i hload
      rw [if_neg hload]
      split at h
      · cases h
      rename_i hsize
      split at h
      · cases h
      rename_i hwrap
      split at h
      · cases h
      rename_i halign
      obtain ⟨⟨sz₁, m₁, pt₁⟩, halloc, h⟩ := Except.bind_ok_iff.1 h
      have hbuilt := hb.uvmalloc halloc
      dsimp only at h
      split at h
      · cases h
      rename_i hzero
      rw [if_neg hzero] at hbuilt
      obtain ⟨⟨b₁, m₂⟩, hseg, h⟩ := Except.bind_ok_iff.1 h
      have hsame := loadsegLoop_samePages hseg
      have hbuilt' := hbuilt.samePages hsame
      dsimp only at h
      cases b₁ with
      | false => cases h
      | true =>
        obtain ⟨hext, hused⟩ := ih hbuilt' h
        have hsz₁ : sz₁ = max sz ph.limit := by
          obtain ⟨hi, -, ⟨hr, -⟩ | ⟨hr, -⟩⟩ := uvmalloc_ok (hb.size.trans (by decide)) halloc
          · exact hr
          · exact absurd hr hzero
        have hbytes : ph.filesz % 2 ^ 32 ≤ ph.bytes.length := by
          rcases loadsegLoop_found hseg (by simp only [pagesBelow, pgSize]; omega) with hle | hle
          · omega
          · exact hle
        rw [hsz₁] at hzero hext hused
        refine ⟨?_, fun S hS => ?_⟩
        · rw [if_neg]
          · exact hext
          · rintro (hbad | hbad | hbad | hbad | hbad)
            · exact hsize hbad
            · exact hwrap hbad
            · exact halign hbad
            · exact hzero hbad
            · omega
        · have hle := pagesBelow_mono (le_extent hext)
          have hle' : pagesBelow sz ≤ pagesBelow (max sz ph.limit) := pagesBelow_mono (Nat.le_max_left _ _)
          have hfirst := uvmalloc_used (S := S) (fun u _ hu => hS u (Nat.lt_of_lt_of_le hu hle))
            (hb.size.trans (by decide)) halloc (hsz₁ ▸ hzero)
          have hlen : m₂.freelist.length = m₁.freelist.length := by rw [hsame.freelist]
          have := hused S hS
          omega

/-- A program that reaches `top` is loaded if there is memory for its pages and
tables. -/
theorem loadSegments_total (hb : Built m₀ m pt sz) (ho : pt.Open sz) (hwords : ∀ ph, some ph ∈ phs → ph.Words)
    (hext : extent phs sz = some top) (htop : top ≤ trapframeVa) (hS : ∀ u < pagesBelow top, u ∈ S)
    (hmem : (pagesBelow top - pagesBelow sz) + pt.missing S ≤ m.freelist.length) :
    ∃ m' pt', loadSegments phs m pt sz = .ok (true, top, m', pt') := by
  induction phs generalizing m pt sz with
  | nil =>
    cases hext
    exact ⟨m, pt, rfl⟩
  | cons o phs ih =>
    have hwords' : ∀ ph, some ph ∈ phs → ph.Words := fun ph hph => hwords ph (List.mem_cons_of_mem _ hph)
    cases o with
    | none => cases hext
    | some ph =>
      rw [extent] at hext
      rw [loadSegments]
      split at hext
      · rename_i hload
        rw [if_pos hload]
        exact ih hb ho hwords' hext hmem
      rename_i hload
      split at hext
      · cases hext
      rename_i hchecks
      push Not at hchecks
      obtain ⟨hsize, hwrap, halign, hne, hbytes⟩ := hchecks
      have hle := le_extent hext
      have hpages := pagesBelow_mono hle
      have hpages' : pagesBelow sz ≤ pagesBelow (max sz ph.limit) := pagesBelow_mono (Nat.le_max_left _ _)
      obtain ⟨m₁, pt₁, halloc⟩ := hb.uvmalloc_total ph.perm (hle.trans htop)
        (fun u _ hu => hS u (Nat.lt_of_lt_of_le hu hpages)) (by omega)
      have hbuilt := hb.uvmalloc halloc
      rw [if_neg hne] at hbuilt
      have hopen := ho.uvmalloc hb.size hb.framed halloc hne
      have hused := uvmalloc_used (S := S) (fun u _ hu => hS u (Nat.lt_of_lt_of_le hu hpages))
        (hb.size.trans (by decide)) halloc hne
      -- every page of the segment is there
      have hlimit : ph.limit = ph.vaddr + ph.memsz := by
        obtain ⟨hv, hm⟩ := hwords ph (List.mem_cons_self ..)
        rw [Segment.limit] at hwrap ⊢
        by_cases hover : ph.vaddr + ph.memsz < wordSize
        · exact Nat.mod_eq_of_lt hover
        · rw [Nat.mod_eq_sub_mod (by omega), Nat.mod_eq_of_lt (by omega)] at hwrap
          omega
      have hwalk : ∀ u, 0 ≤ u → u < 0 + pagesBelow (ph.filesz % 2 ^ 32) →
          pt₁.walkaddr (ph.vaddr + u * pgSize) ≠ none := by
        intro u _ hu
        have hsmall : ph.filesz % 2 ^ 32 ≤ ph.filesz := Nat.mod_le _ _
        have hend : ph.vaddr + u * pgSize < ph.limit := by
          simp only [pagesBelow, pgSize] at hu ⊢
          omega
        have hmax : ph.vaddr + u * pgSize < maxVa := by
          have : trapframeVa ≤ maxVa := by decide
          have := Nat.le_max_right sz ph.limit
          omega
        have hpage : (ph.vaddr + u * pgSize) / pgSize < pagesBelow (max sz ph.limit) := by
          have := Nat.le_max_right sz ph.limit
          simp only [pagesBelow, pgSize] at hend ⊢
          omega
        obtain ⟨e, he⟩ := Option.ne_none_iff_exists'.1 (hbuilt.full _ hpage)
        rw [walkaddr_of_leaf hmax he (hopen _ hpage e he)]
        exact Option.some_ne_none _
      obtain ⟨m₂, hseg⟩ := loadsegLoop_total hwalk hbytes m₁
      have hsame := loadsegLoop_samePages hseg
      obtain ⟨m', pt', hrest⟩ := ih (hbuilt.samePages hsame) hopen hwords' hext (by
        rw [hsame.freelist]
        omega)
      refine ⟨m', pt', ?_⟩
      rw [if_neg hload, if_neg (by omega), if_neg (by rw [← Segment.limit]; omega), if_neg (not_not.2 halign)]
      refine Except.bind_ok_iff.2 ⟨_, halloc, ?_⟩
      dsimp only
      rw [if_neg hne]
      refine Except.bind_ok_iff.2 ⟨(true, m₂), ?_, hrest⟩
      rw [loadseg]
      simpa using hseg

end Xv6
