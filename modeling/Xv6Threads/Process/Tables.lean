-- SUMMARY: User page tables from proc_pagetable to proc_freepagetable, and the address space that exec builds.
import Xv6Threads.Memory.Release
import Xv6Threads.Process.Exec

/-!
# User tables

Every user table maps the trampoline and the trapframe above the user pages
(`Framed`). While `exec` builds a new address space, its pages are accounted
for (`Space`): they are on the free list, in the table or mapped by it.
-/

namespace Xv6

namespace PageTable

/-- The two pages that `proc_pagetable` maps are there. -/
structure Framed (pt : PageTable) : Prop where
  trapframe : pt.leaf userPages ≠ none
  trampoline : pt.leaf (userPages + 1) ≠ none

/-- No user page is mapped at or above `sz`. -/
def Hollow (pt : PageTable) (sz : Nat) : Prop :=
  ∀ v, pagesBelow sz ≤ v → v < userPages → pt.leaf v = none

variable {m m' : Mem} {pt pt' : PageTable} {lo hi v : Nat}

theorem trapframeVa_eq : trapframeVa = userPages * pgSize := by decide
theorem trampoline_eq : trampoline = (userPages + 1) * pgSize := by decide

theorem AgreeOutside.framed (h : AgreeOutside pt pt' lo hi) (hhi : hi ≤ userPages) (hf : pt.Framed) :
    pt'.Framed := by
  have hlim : userPages + 1 < vpnLimit := by decide
  refine ⟨?_, ?_⟩
  · rw [h _ (by omega) (by omega)]
    exact hf.trapframe
  · rw [h _ hlim (by omega)]
    exact hf.trampoline

/-- A range of new mappings stops below the trapframe. -/
theorem Maps.le_userPages {perm : Nat → Perm} (h : Maps perm m pt m' pt' lo hi) (hf : pt.Framed)
    (hlo : lo ≤ userPages) : hi ≤ userPages := by
  by_contra hlt
  exact hf.trapframe (h.inside userPages hlo (by omega)).2.1

theorem pagesBelow_le_iff {sz n : Nat} : pagesBelow sz ≤ n ↔ sz ≤ n * pgSize := by
  simp only [pagesBelow, pgSize]
  omega

/-! ## proc_pagetable -/

theorem uvmcreate_ok (h : uvmcreate m = (some pt, m')) :
    m'.kend = m.kend ∧ m'.refcount = m.refcount ∧ (∀ w, m'.weigh w + pt.weigh w = m.weigh w) ∧
      ∀ v, pt.leaf v = none := by
  unfold uvmcreate at h
  split at h
  · cases h
  · rename_i f m₁ hk
    cases h
    refine ⟨(Mem.memset_kend ..).trans (Mem.kalloc_kend hk),
      (Mem.memset_refcount ..).trans (Mem.kalloc_refcount hk), fun w => ?_, fun v => rfl⟩
    have hz : weigh w (.zeroed f) = w f := Table.weighWith_zeroed _ _ _
    rw [hz, Mem.weigh_memset, Nat.add_comm]
    exact Mem.weigh_kalloc hk w

theorem uvmcreate_none (h : uvmcreate m = (none, m')) : m.freelist = [] ∧ m' = m := by
  unfold uvmcreate at h
  split at h
  · rename_i hk
    cases h
    exact Mem.kalloc_none hk
  · cases h

/-- A table that is given up while it is being built. -/
theorem uvmfree_zero (h : pt.uvmfree m 0 = .ok m') : ∀ w, m.Gains w m' (pt.weigh w) := by
  unfold uvmfree at h
  rw [if_neg (Nat.lt_irrefl 0)] at h
  obtain ⟨⟨m₁, pt₁⟩, hsame, h⟩ := Except.bind_ok_iff.1 h
  cases hsame
  exact (freewalk_ok h).1

end PageTable

open PageTable

variable {m m' : Mem} {pt : PageTable} {tramp tf : Ppn}

/-- A new table: the trampoline, the trapframe and nothing else. -/
structure Fresh (m : Mem) (pt : PageTable) (m' : Mem) : Prop where
  kend : m'.kend = m.kend
  refcount : m'.refcount = m.refcount
  pages : ∀ w, m'.weigh w + pt.weigh w = m.weigh w
  framed : pt.Framed
  hollow : pt.Hollow 0

theorem procPagetable_some (h : procPagetable m tramp tf = .ok (some pt, m')) : Fresh m pt m' := by
  unfold procPagetable at h
  split at h
  · cases h
  rename_i pt₀ m₀ hcreate
  obtain ⟨hkend, href, hpages, hnone⟩ := uvmcreate_ok hcreate
  obtain ⟨⟨b, m₁, pt₁⟩, hmap, h⟩ := Except.bind_ok_iff.1 h
  cases b with
  | false =>
    obtain ⟨m₂, -, h⟩ := Except.bind_ok_iff.1 h
    cases h
  | true =>
    obtain ⟨⟨b, m₂, pt₂⟩, hmap', h⟩ := Except.bind_ok_iff.1 h
    cases b with
    | false =>
      obtain ⟨⟨m₃, pt₃⟩, -, h⟩ := Except.bind_ok_iff.1 h
      obtain ⟨m₄, -, h⟩ := Except.bind_ok_iff.1 h
      cases h
    | true =>
      cases h
      rw [trampoline_eq] at hmap
      rw [trapframeVa_eq] at hmap'
      obtain ⟨-, hkeep, hw, hout, ⟨-, -, hsome⟩ | ⟨hf, -⟩⟩ := mappages_page hmap
      swap
      · cases hf
      obtain ⟨-, hkeep', hw', hout', ⟨-, -, hsome'⟩ | ⟨hf, -⟩⟩ := mappages_page hmap'
      swap
      · cases hf
      have hlim : userPages + 1 < vpnLimit := by decide
      refine ⟨?_, ?_, fun w => ?_, ⟨by simp [hsome'], ?_⟩, fun v _ hv => ?_⟩
      · rw [hkeep'.kend, hkeep.kend, hkend]
      · rw [hkeep'.refcount, hkeep.refcount, href]
      · rw [hw', hw, hpages]
      · rw [hout' _ hlim (by omega), hsome]
        simp
      · rw [hout' v (by omega) (by omega), hout v (by omega) (by omega), hnone]

/-- Without a table every page is back on the free list. -/
theorem procPagetable_none (h : procPagetable m tramp tf = .ok (none, m')) :
    ∀ w, m.Gains w m' 0 := by
  unfold procPagetable at h
  split at h
  · rename_i hcreate
    obtain ⟨-, rfl⟩ := uvmcreate_none hcreate
    cases h
    exact fun w => ⟨rfl, rfl, rfl⟩
  rename_i pt₀ m₀ hcreate
  obtain ⟨hkend, href, hpages, -⟩ := uvmcreate_ok hcreate
  obtain ⟨⟨b, m₁, pt₁⟩, hmap, h⟩ := Except.bind_ok_iff.1 h
  rw [trampoline_eq] at hmap
  obtain ⟨-, hkeep, hw, -, -⟩ := mappages_page hmap
  cases b with
  | false =>
    obtain ⟨m₂, hfree, h⟩ := Except.bind_ok_iff.1 h
    cases h
    intro w
    have hg := uvmfree_zero hfree w
    refine ⟨?_, ?_, ?_⟩
    · rw [hg.kend, hkeep.kend, hkend]
    · rw [hg.refcount, hkeep.refcount, href]
    · rw [hg.weigh, hw, hpages, Nat.add_zero]
  | true =>
    obtain ⟨⟨b, m₂, pt₂⟩, hmap', h⟩ := Except.bind_ok_iff.1 h
    rw [trapframeVa_eq] at hmap'
    obtain ⟨-, hkeep', hw', -, -⟩ := mappages_page hmap'
    cases b with
    | true => cases h
    | false =>
      obtain ⟨⟨m₃, pt₃⟩, hun, h⟩ := Except.bind_ok_iff.1 h
      obtain ⟨m₄, hfree, h⟩ := Except.bind_ok_iff.1 h
      cases h
      rw [trampoline_eq] at hun
      obtain ⟨-, rfl, -, hw₃, -, -, -⟩ := uvmunmap_one hun
      intro w
      have hg := uvmfree_zero hfree w
      refine ⟨?_, ?_, ?_⟩
      · rw [hg.kend, hkeep'.kend, hkeep.kend, hkend]
      · rw [hg.refcount, hkeep'.refcount, hkeep.refcount, href]
      · rw [hg.weigh, hw₃, hw', hw, hpages, Nat.add_zero]

/-! ## proc_freepagetable -/

/-- `proc_freepagetable` and its variant for threads: the table was framed and
hollow above its size, its pages are freed and its user pages dropped. -/
theorem procFreepagetableWith_ok {release : Bool} {sz : Nat}
    (h : procFreepagetableWith (uvmfreeWith (dropUserPage release)) m pt sz = .ok m') :
    0 < sz ∧ pt.Framed ∧ pt.Hollow sz ∧ Discards release m pt m' := by
  obtain ⟨⟨m₁, pt₁⟩, hun, h⟩ := Except.bind_ok_iff.1 h
  obtain ⟨⟨m₂, pt₂⟩, hun', hfree⟩ := Except.bind_ok_iff.1 h
  rw [trampoline_eq] at hun
  rw [trapframeVa_eq] at hun'
  obtain ⟨-, rfl, -, hw, hout, hmapped, hnone⟩ := uvmunmap_one hun
  obtain ⟨-, rfl, -, hw', hout', hmapped', hnone'⟩ := uvmunmap_one hun'
  have hlim : userPages + 1 < vpnLimit := by decide
  have hmax : maxVa = (userPages + 2) * pgSize := by decide
  have hsame : ∀ v < userPages, pt₂.leaf v = pt.leaf v := by
    intro v hv
    rw [hout' v (by omega) (by omega), hout v (by omega) (by omega)]
  have huser : ∀ w, pt₂.user w = pt.user w := fun w => span_congr fun v _ hv => hsame v hv
  obtain ⟨hsz, hd, habove⟩ := uvmfreeWith_ok hfree (by
    intro v hv hva
    rw [hmax] at hva
    have hv' : v < userPages + 2 := Nat.lt_of_mul_lt_mul_right hva
    by_cases hne : v = userPages
    · rw [hne, hnone']
    · obtain rfl : v = userPages + 1 := by omega
      rw [hout' _ hlim (by omega), hnone])
  refine ⟨hsz, ⟨?_, hmapped⟩, fun v hv hv' => ?_, hd.kend, fun f => ?_, fun f => ?_, fun w => ?_⟩
  · rwa [hout _ (by omega) (by omega)] at hmapped'
  · rw [← hsame v hv']
    exact habove v hv (by omega)
  · rw [hd.counts, huser]
  · rw [hd.freed, huser, hw', hw]
  · have := hd.freed_le w
    rwa [huser, hw', hw] at this

theorem procFreepagetable_ok {sz : Nat} (h : procFreepagetable m pt sz = .ok m') :
    0 < sz ∧ pt.Framed ∧ pt.Hollow sz ∧ Discards true m pt m' :=
  procFreepagetableWith_ok h

theorem procFreepagetableThread_ok {sz : Nat} (h : procFreepagetableThread m pt sz = .ok m') :
    0 < sz ∧ pt.Framed ∧ pt.Hollow sz ∧ Discards false m pt m' :=
  procFreepagetableWith_ok h

/-! ## Building an address space -/

/-- The pages taken from `m₀` so far are in the table or mapped by it, below
the size reached. -/
structure Space (m₀ m : Mem) (pt : PageTable) (sz : Nat) : Prop where
  kend : m.kend = m₀.kend
  refcount : m.refcount = m₀.refcount
  pages : ∀ w, m.weigh w + pt.weigh w + pt.user w = m₀.weigh w
  framed : pt.Framed
  hollow : pt.Hollow sz
  size : sz ≤ trapframeVa

theorem Fresh.space (h : Fresh m pt m') : Space m m' pt 0 := by
  refine ⟨h.kend, h.refcount, fun w => ?_, h.framed, h.hollow, Nat.zero_le _⟩
  have huser : pt.user w = 0 := span_eq_zero fun v _ hv => h.hollow v (Nat.zero_le _) hv
  rw [huser, Nat.add_zero, h.pages]

section

variable {m₀ : Mem} {pt' : PageTable} {sz : Nat}

theorem Space.samePages (h : Space m₀ m pt sz) (hm : m.SamePages m') : Space m₀ m' pt sz :=
  ⟨hm.kend.trans h.kend, hm.refcount.trans h.refcount, fun w => by rw [hm.weigh, h.pages], h.framed,
    h.hollow, h.size⟩

theorem pagesBelow_le_userPages (h : sz ≤ trapframeVa) : pagesBelow sz ≤ userPages :=
  pagesBelow_le_iff.2 (h.trans (Nat.le_of_eq trapframeVa_eq))

/-- New mappings above the size reached. -/
theorem Space.maps {perm : Nat → Perm} {hi : Nat} (h : Space m₀ m pt sz)
    (hm : Maps perm m pt m' pt' (pagesBelow sz) hi) {sz' : Nat} (hle : pagesBelow sz ≤ hi)
    (hsz : pagesBelow sz' = hi) : Space m₀ m' pt' sz' := by
  have hlo := pagesBelow_le_userPages h.size
  have hhi := hm.le_userPages h.framed hlo
  have hlim := userPages_lt
  refine ⟨hm.keeps.kend.trans h.kend, hm.keeps.refcount.trans h.refcount, fun w => ?_,
    hm.outside.framed hhi h.framed, fun v hv hv' => ?_, ?_⟩
  · have hold : pt.span w (pagesBelow sz) hi = 0 :=
      span_eq_zero fun v hv hv' => (hm.inside v hv hv').2.1
    have huser := hm.outside.user hle hhi (w := w)
    have := hm.taken w
    have := h.pages w
    omega
  · rw [hm.outside v (by omega) (by omega)]
    exact h.hollow v (by omega) hv'
  · rw [trapframeVa_eq]
    exact pagesBelow_le_iff.1 (hsz ▸ hhi)

theorem Space.uvmalloc {newsz r : Nat} {xperm : Perm} (h : Space m₀ m pt sz)
    (hu : PageTable.uvmalloc m pt sz newsz xperm = .ok (r, m', pt')) :
    Space m₀ m' pt' (if r = 0 then sz else r) := by
  have hmax : sz ≤ maxVa := h.size.trans (by decide)
  obtain ⟨hi, hm, ⟨hr, hhi⟩ | ⟨hr, hhi⟩⟩ := uvmalloc_ok hmax hu
  · have hpages : pagesBelow r = hi := by
      rw [hr, hhi]
      rcases Nat.le_total sz newsz with hle | hle
      · rw [Nat.max_eq_right hle, Nat.max_eq_right (pagesBelow_mono hle)]
      · rw [Nat.max_eq_left hle, Nat.max_eq_left (pagesBelow_mono hle)]
    have hle : pagesBelow sz ≤ hi := by omega
    split
    · rename_i hzero
      have : sz = r := by omega
      exact h.maps hm hle (this ▸ hpages)
    · exact h.maps hm hle hpages
  · rw [if_pos hr]
    exact h.maps hm (Nat.le_of_eq hhi.symm) hhi.symm

theorem loadsegLoop_samePages {va n i : Nat} {bytes : List UInt8} {b : Bool}
    (h : loadsegLoop pt va sz bytes n m i = .ok (b, m')) : m.SamePages m' := by
  induction n generalizing m i with
  | zero =>
    cases h
    exact ⟨rfl, rfl, rfl⟩
  | succ n ih =>
    rw [loadsegLoop] at h
    split at h
    · cases h
    · dsimp only at h
      split at h
      · cases h
        exact ⟨rfl, rfl, rfl⟩
      · have := ih h
        exact ⟨this.kend, this.freelist, this.refcount⟩

theorem Space.loadSegments {phs : List (Option Segment)} {b : Bool} {sz' : Nat} (h : Space m₀ m pt sz)
    (hl : Xv6.loadSegments phs m pt sz = .ok (b, sz', m', pt')) : Space m₀ m' pt' sz' := by
  induction phs generalizing m pt sz with
  | nil =>
    cases hl
    exact h
  | cons o phs ih =>
    cases o with
    | none =>
      cases hl
      exact h
    | some ph =>
      rw [Xv6.loadSegments] at hl
      split at hl
      · exact ih h hl
      split at hl
      · cases hl
        exact h
      split at hl
      · cases hl
        exact h
      split at hl
      · cases hl
        exact h
      obtain ⟨⟨sz₁, m₁, pt₁⟩, halloc, hl⟩ := Except.bind_ok_iff.1 hl
      have hspace := h.uvmalloc halloc
      dsimp only at hl
      split at hl
      · rename_i hzero
        cases hl
        rwa [if_pos hzero] at hspace
      · rename_i hzero
        rw [if_neg hzero] at hspace
        obtain ⟨⟨b₁, m₂⟩, hload, hl⟩ := Except.bind_ok_iff.1 hl
        have hspace' := hspace.samePages (loadsegLoop_samePages hload)
        dsimp only at hl
        split at hl
        · cases hl
          exact hspace'
        · exact ih hspace' hl

theorem Space.uvmclear {va : Nat} (h : Space m₀ m pt sz) (hu : pt.uvmclear va = .ok pt') :
    Space m₀ m pt' sz := by
  unfold PageTable.uvmclear at hu
  obtain ⟨r, hwalk, hu⟩ := Except.bind_ok_iff.1 hu
  obtain ⟨hva, hjoin, hcov⟩ := walk_ok hwalk
  split at hu
  · cases hu
  rename_i e
  cases hu
  have hlim : userPages + 1 < vpnLimit := by decide
  have hold : pt.leaf (va / pgSize) = e := by rw [← lookup_eq_leaf, ← hjoin]; rfl
  -- an entry is taken away from user code, not removed
  have hleaf : ∀ v < vpnLimit,
      (pt.setPte va (e.map fun pte => { pte with perm := { pte.perm with u := false } })).leaf v =
        if v = va / pgSize then e.map (fun pte => { pte with perm := { pte.perm with u := false } })
        else pt.leaf v :=
    fun v hv => setPte_leaf (hcov.1 rfl) hva hv
  have hpages := fun w =>
    setPte_weigh pt va (e.map fun pte => { pte with perm := { pte.perm with u := false } }) w
  revert hleaf hpages
  generalize pt.setPte va _ = pt'
  intro hleaf hpages
  have hnone : ∀ v < vpnLimit, (pt'.leaf v = none ↔ pt.leaf v = none) := by
    intro v hv
    rw [hleaf v hv]
    split
    · rename_i hv'
      rw [hv', hold, Option.map_eq_none_iff]
    · rfl
  have huser : ∀ w, pt'.user w = pt.user w := by
    intro w
    refine span_congr_weight fun v _ hv => ?_
    rw [hleaf v (by omega)]
    split
    · rename_i hv'
      rw [hv', hold]
      cases e <;> rfl
    · rfl
  refine ⟨h.kend, h.refcount, fun w => by rw [hpages, huser, h.pages], ⟨?_, ?_⟩, fun v hv hv' => ?_, h.size⟩
  · rw [ne_eq, hnone _ (by omega)]
    exact h.framed.trapframe
  · rw [ne_eq, hnone _ hlim]
    exact h.framed.trampoline
  · rw [hnone v (by omega)]
    exact h.hollow v hv hv'

theorem copyout_samePages {va : Nat} {src : List UInt8} {b : Bool} (h : pt.copyout m va src = (b, m')) :
    m.SamePages m' :=
  have hf := Kernel.copyout_frame h
  ⟨hf.1, hf.2.1, hf.2.2⟩

theorem Mem.SamePages.trans {m'' : Mem} (h : m.SamePages m') (h' : m'.SamePages m'') : m.SamePages m'' :=
  ⟨h'.kend.trans h.kend, h'.freelist.trans h.freelist, h'.refcount.trans h.refcount⟩

theorem pushArgs_samePages {stackbase argc sp : Nat} {args : List (List UInt8)} {ustack : List Nat}
    {r : Option (Nat × List Nat)} (h : pushArgs pt stackbase args argc m sp ustack = (r, m')) :
    m.SamePages m' := by
  induction args generalizing argc m sp ustack with
  | nil =>
    cases h
    exact ⟨rfl, rfl, rfl⟩
  | cons arg args ih =>
    rw [pushArgs] at h
    split at h
    · cases h
      exact ⟨rfl, rfl, rfl⟩
    dsimp only at h
    split at h
    · cases h
      exact ⟨rfl, rfl, rfl⟩
    · split at h
      · rename_i hc
        cases h
        exact copyout_samePages hc
      · rename_i hc
        exact (copyout_samePages hc).trans (ih h)

theorem Space.buildStack {argv : List (List UInt8)} {o : Option Nat} {sz' : Nat} (h : Space m₀ m pt sz)
    (hb : Xv6.buildStack m pt sz argv = .ok (o, sz', m', pt')) : Space m₀ m' pt' sz' := by
  unfold Xv6.buildStack at hb
  have hround : pgRoundUp sz = pagesBelow sz * pgSize := pgRoundUp_of_le (h.size.trans (by decide))
  have hpages := pagesBelow_le_userPages h.size
  -- rounding the size up loses nothing
  have hstart : Space m₀ m pt (pgRoundUp sz) := by
    refine ⟨h.kend, h.refcount, h.pages, h.framed, ?_, ?_⟩
    · rw [hround, Hollow, pagesBelow_mul]
      exact h.hollow
    · rw [hround, trapframeVa_eq]
      exact Nat.mul_le_mul_right _ hpages
  obtain ⟨⟨sz₁, m₁, pt₁⟩, halloc, hb⟩ := Except.bind_ok_iff.1 hb
  have hspace := hstart.uvmalloc halloc
  dsimp only at hb
  split at hb
  · rename_i hzero
    cases hb
    rwa [if_pos hzero] at hspace
  · rename_i hzero
    rw [if_neg hzero] at hspace
    obtain ⟨pt₂, hclear, hb⟩ := Except.bind_ok_iff.1 hb
    have hspace' := hspace.uvmclear hclear
    split at hb
    · rename_i hpush
      cases hb
      exact hspace'.samePages (pushArgs_samePages hpush)
    · rename_i hpush
      have hpushed := hspace'.samePages (pushArgs_samePages hpush)
      split at hb
      · cases hb
        exact hpushed
      · split at hb <;> rename_i hc <;> cases hb <;> exact hpushed.samePages (copyout_samePages hc)

end

end Xv6
