-- SUMMARY: uvmalloc and uvmdealloc are inverse to each other, also when memory runs out on the way.
import Xv6Threads.Memory.Copying
import Xv6Threads.Memory.Range

/-!
# Growing and shrinking a table

`uvmalloc` maps fresh pages, cleared, from the rounded old size up to the
rounded new one. Wherever it runs out of memory it takes back what it has mapped;
only the table pages it has installed stay. `uvmdealloc` undoes a success.
-/

namespace Xv6

namespace PageTable

variable {p : Perm} {m₀ m m' m₁ m₂ : Mem} {pt₀ pt pt' pt₂ : PageTable} {f : Ppn} {lo hi n v : Nat}

/-- A table beside the allocator: no page occurs twice among the free pages and
the pages the table is stored in, and no free page is mapped. -/
structure Apart (m : Mem) (pt : PageTable) : Prop where
  ranged : m.Ranged
  once : ∀ f, m.weigh (Weight.single f) + pt.weigh (Weight.single f) ≤ 1
  frames : ∀ v < vpnLimit, ∀ e, pt.leaf v = some e → e.ppn ∉ m.freelist

/-- The pages from `lo` up to `hi`, none of them mapped before, map frames of
their own that were free, and every such frame is cleared. -/
structure Adds (p : Perm) (m : Mem) (pt : PageTable) (m' : Mem) (pt' : PageTable) (lo hi : Nat) : Prop where
  maps : Maps (fun _ => p) m pt m' pt' lo hi
  draws : m.Draws m'
  fresh : ∀ v e, lo ≤ v → v < hi → pt'.leaf v = some e →
    e.ppn ∈ m.freelist ∧ e.ppn ∉ m'.freelist ∧ m'.data e.ppn = fun _ => 0
  distinct : ∀ u v d e, lo ≤ u → u < hi → lo ≤ v → v < hi → pt'.leaf u = some d → pt'.leaf v = some e →
    d.ppn = e.ppn → u = v

theorem Adds.refl (p : Perm) (m : Mem) (pt : PageTable) (lo : Nat) : Adds p m pt m pt lo lo :=
  ⟨.refl _ _ _, .refl _, fun v _ _ _ => by omega, fun u _ _ _ _ _ => by omega⟩

/-- One round of `uvmalloc` that maps its page. -/
theorem Adds.extend (h : Adds p m₀ pt₀ m pt lo v) (hnodup : m₀.freelist.Nodup) (hle : lo ≤ v)
    (hk : m.kalloc = (some f, m₁))
    (hmap : mappages (m₁.memset f 0) pt (v * pgSize) pgSize f p = .ok (true, m₂, pt₂)) :
    Adds p m₀ pt₀ m₂ pt₂ lo (v + 1) := by
  have hsame : m₁.SamePages (m₁.memset f 0) := ⟨rfl, rfl, rfl⟩
  have hmaps := h.maps.extend hle hk hsame hmap
  obtain ⟨hva, -, -, hout, ⟨-, -, hleaf⟩ | ⟨hf, -⟩⟩ := mappages_page hmap
  swap
  · cases hf
  have hlim := lt_vpnLimit_of_lt_maxVa hva
  obtain ⟨hzero, -⟩ := Mem.kalloc_draws hk 0
  have hdraws := mappages_draws hmap
  have hlist := (Mem.kalloc_some hk).1
  have hgone : f ∉ m₁.freelist := by
    have hm := h.draws.nodup hnodup
    rw [hlist] at hm
    exact (List.nodup_cons.1 hm).1
  have hf : f ∈ m.freelist := by
    rw [hlist]
    exact List.mem_cons_self ..
  have hdata : m₂.data f = fun _ => 0 := by
    rw [hdraws.data f hgone]
    exact if_pos rfl
  -- the entries that were there before
  have hold : ∀ u e, lo ≤ u → u < v → pt₂.leaf u = some e → pt.leaf u = some e := by
    intro u e _ hu he
    rwa [hout u (by omega) (by omega)] at he
  refine ⟨hmaps, h.draws.trans (hzero.trans hdraws), fun u e hu hu' he => ?_,
    fun u u' d e hu hu₁ hu' hu₁' hd he heq => ?_⟩
  · rcases Nat.lt_succ_iff_lt_or_eq.1 hu' with hlt | rfl
    · obtain ⟨hmem, hnot, hsame⟩ := h.fresh u e hu hlt (hold u e hu hlt he)
      refine ⟨hmem, (hzero.trans hdraws).notMem hnot, ?_⟩
      rw [(hzero.trans hdraws).data _ hnot, hsame]
    · rw [hleaf] at he
      cases he
      exact ⟨h.draws.freelist.subset hf, hdraws.notMem hgone, hdata⟩
  · have hnew : ∀ w e, lo ≤ w → w < v → pt₂.leaf w = some e → e.ppn ≠ f := by
      intro w e hw hw' he heq
      exact (h.fresh w e hw hw' (hold w e hw hw' he)).2.1 (heq ▸ hf)
    rcases Nat.lt_succ_iff_lt_or_eq.1 hu₁ with hlt | rfl <;> rcases Nat.lt_succ_iff_lt_or_eq.1 hu₁' with hlt' | rfl
    · exact h.distinct u u' d e hu hlt hu' hlt' (hold u d hu hlt hd) (hold u' e hu' hlt' he) heq
    · rw [hleaf] at he
      cases he
      exact absurd heq (hnew u d hu hlt hd)
    · rw [hleaf] at hd
      cases hd
      exact absurd heq.symm (hnew u' e hu' hlt' he)
    · rfl

/-- A page at an aligned address below `MAXVA` that is free: `mappages` comes back. -/
theorem mappages_returns (m : Mem) (pa : Ppn) (p : Perm) (hva : v * pgSize < maxVa) (hleaf : pt.leaf v = none) :
    ∃ b m' pt', mappages m pt (v * pgSize) pgSize pa p = .ok (b, m', pt') := by
  obtain ⟨⟨found, m₁, pt₁⟩, hwalk⟩ := walkAlloc_returns m pt hva
  have hnone : pt₁.lookup (v * pgSize) = none := ((walkAlloc_ok hwalk).2.1.leaf v).trans hleaf
  rw [mappages_aligned, mappagesLoop]
  cases found with
  | false => exact ⟨false, m₁, pt₁, Except.bind_ok_iff.2 ⟨_, hwalk, rfl⟩⟩
  | true =>
    refine ⟨true, m₁, pt₁.setPte (v * pgSize) (some ⟨pa, p⟩), Except.bind_ok_iff.2 ⟨_, hwalk, ?_⟩⟩
    dsimp only
    rw [hnone]
    rfl

/-- What the loop has mapped can be unmapped and freed. -/
theorem Maps.removable (h : Maps (fun _ => p) m₀ pt₀ m pt lo hi) (hp : p ≠ ⟨false, false, false, false⟩)
    (hrange : ∀ v e, lo ≤ v → v < hi → pt.leaf v = some e → m.InRange e.ppn) (hlo : lo ≤ v) (hhi : v < hi) :
    ∃ e, pt.leaf v = some e ∧ Removable m e := by
  obtain ⟨-, -, f, hf⟩ := h.inside v hlo hhi
  exact ⟨_, hf, hp, hrange v _ hlo hhi hf⟩

theorem Adds.inRange (h : Adds p m₀ pt₀ m pt lo hi) (hr : m₀.Ranged) {m' : Mem} (hk : m'.kend = m.kend) (v : Nat)
    (e : Pte) (hlo : lo ≤ v) (hhi : v < hi) (he : pt.leaf v = some e) : m'.InRange e.ppn := by
  have := hr _ (h.fresh v e hlo hhi he).1
  rw [Mem.InRange, hk, h.draws.kend]
  exact this

/-- The way back: everything the loop has mapped is unmapped and freed. -/
theorem uvmdealloc_undo (h : Maps (fun _ => p) m₀ pt₀ m pt lo v) (hp : p ≠ ⟨false, false, false, false⟩)
    (hrange : ∀ u e, lo ≤ u → u < v → pt.leaf u = some e → m.InRange e.ppn) (hle : lo ≤ v)
    (hmax : v * pgSize ≤ maxVa) :
    ∃ m' pt', uvmdealloc m pt (v * pgSize) (lo * pgSize) = .ok (lo * pgSize, m', pt') ∧
      Unmaps m pt m' pt' lo v ∧ Maps (fun _ => p) m₀ pt₀ m' pt' lo lo := by
  have hsizes : lo * pgSize ≤ v * pgSize := Nat.mul_le_mul_right _ hle
  obtain ⟨m', pt', hd⟩ := uvmdealloc_total hmax hsizes fun u hu hu' => by
    rw [pagesBelow_mul] at hu hu'
    exact h.removable hp hrange hu hu'
  have hun := (uvmdealloc_ok hmax hd).2
  rw [pagesBelow_mul, pagesBelow_mul] at hun
  exact ⟨m', pt', hd, hun, h.undo hun⟩

/-- The loop of `uvmalloc` over free pages: it adds them all, or none. -/
theorem uvmallocLoop_adds (newsz : Nat) (hp : p ≠ ⟨false, false, false, false⟩) (hr : m₀.Ranged)
    (hnodup : m₀.freelist.Nodup) (hle : lo ≤ v) (hadds : Adds p m₀ pt₀ m pt lo v)
    (hva : ∀ u, v ≤ u → u < v + n → u * pgSize < maxVa) (hleaf : ∀ u, v ≤ u → u < v + n → pt.leaf u = none)
    (hmax : v * pgSize ≤ maxVa) :
    ∃ r m' pt', uvmallocLoop (lo * pgSize) newsz p n m pt (v * pgSize) = .ok (r, m', pt') ∧
      ((r = newsz ∧ Adds p m₀ pt₀ m' pt' lo (v + n)) ∨ (r = 0 ∧ Maps (fun _ => p) m₀ pt₀ m' pt' lo lo)) := by
  induction n generalizing m pt v with
  | zero => exact ⟨newsz, m, pt, rfl, .inl ⟨rfl, hadds⟩⟩
  | succ n ih =>
    have hlt := hva v (Nat.le_refl _) (by omega)
    rw [uvmallocLoop]
    cases hk : m.kalloc with | mk o m₁
    cases o with
    | none =>
      -- no frame
      obtain ⟨-, rfl⟩ := Mem.kalloc_none hk
      obtain ⟨m', pt', hd, -, hback⟩ := uvmdealloc_undo hadds.maps hp (hadds.inRange hr rfl) hle hmax
      exact ⟨0, m', pt', Except.bind_ok_iff.2 ⟨_, hd, rfl⟩, .inr ⟨rfl, hback⟩⟩
    | some f =>
      dsimp only
      obtain ⟨b, m₂, pt₂, hmap⟩ := mappages_returns (m₁.memset f 0) f p hlt (hleaf v (Nat.le_refl _) (by omega))
      obtain ⟨-, hkeep, -, hout, -⟩ := mappages_page hmap
      cases b with
      | true =>
        have hleaf₂ : ∀ u, v + 1 ≤ u → u < v + 1 + n → pt₂.leaf u = none := by
          intro u hu hu'
          rw [hout u (lt_vpnLimit_of_lt_maxVa (hva u (by omega) (by omega))) (by omega)]
          exact hleaf u (by omega) (by omega)
        have hmax₂ : (v + 1) * pgSize ≤ maxVa := by
          simp only [pgSize, maxVa] at hlt ⊢
          omega
        obtain ⟨r, m', pt', hrest, hres⟩ := ih (v := v + 1) (by omega) (hadds.extend hnodup hle hk hmap)
          (fun u hu hu' => hva u (by omega) (by omega)) hleaf₂ hmax₂
        rw [show v + 1 + n = v + (n + 1) by omega] at hres
        rw [show (v + 1) * pgSize = v * pgSize + pgSize by ring] at hrest
        exact ⟨r, m', pt', Except.bind_ok_iff.2 ⟨_, hmap, hrest⟩, hres⟩
      | false =>
        -- no page for the table: the frame goes back first
        have hf : m₂.InRange f := by
          have hmem : f ∈ m.freelist := by
            rw [(Mem.kalloc_some hk).1]
            exact List.mem_cons_self ..
          have := hr f (hadds.draws.freelist.subset hmem)
          rw [Mem.InRange, hkeep.kend, Mem.memset_kend, Mem.kalloc_kend hk, hadds.draws.kend]
          exact this
        have hfree := Mem.kfree_of_inRange hf
        have hcleared : m₁.SamePages (m₁.memset f 0) := ⟨rfl, rfl, rfl⟩
        have hmaps := hadds.maps.giveBack hk hcleared hmap hfree
        have hsame : ∀ u e, lo ≤ u → u < v → pt₂.leaf u = some e → pt.leaf u = some e := by
          intro u e _ hu he
          have := lt_vpnLimit_of_lt_maxVa hlt
          rwa [hout u (by omega) (by omega)] at he
        obtain ⟨m', pt', hd, -, hback⟩ := uvmdealloc_undo hmaps hp (fun u e hu hu' he =>
          hadds.inRange hr (hmaps.keeps.kend.trans hadds.draws.kend.symm) u e hu hu' (hsame u e hu hu' he)) hle hmax
        refine ⟨0, m', pt', ?_, .inr ⟨rfl, hback⟩⟩
        exact Except.bind_ok_iff.2 ⟨_, hmap, Except.bind_ok_iff.2 ⟨_, hfree, Except.bind_ok_iff.2 ⟨_, hd, rfl⟩⟩⟩

/-- `uvmalloc` over free pages. -/
theorem uvmalloc_adds {oldsz newsz : Nat} (xperm : Perm) (hr : m.Ranged) (hnodup : m.freelist.Nodup)
    (hle : oldsz ≤ newsz) (hnew : newsz ≤ maxVa)
    (hleaf : ∀ u, pagesBelow oldsz ≤ u → u < pagesBelow newsz → pt.leaf u = none) :
    ∃ r m' pt', uvmalloc m pt oldsz newsz xperm = .ok (r, m', pt') ∧
      ((r = newsz ∧ Adds ⟨true, xperm.w, xperm.x, true⟩ m pt m' pt' (pagesBelow oldsz) (pagesBelow newsz)) ∨
        (r = 0 ∧ Maps (fun _ => ⟨true, xperm.w, xperm.x, true⟩) m pt m' pt' (pagesBelow oldsz) (pagesBelow oldsz))) := by
  have hcount : pagesBelow oldsz + pagesBelow (newsz - pagesBelow oldsz * pgSize) = pagesBelow newsz := by
    simp only [pagesBelow, pgSize] at *
    omega
  have hva : ∀ u, u < pagesBelow newsz → u * pgSize < maxVa := by
    intro u hu
    simp only [pagesBelow, pgSize, maxVa] at *
    omega
  have hmax : pagesBelow oldsz * pgSize ≤ maxVa := by
    simp only [pagesBelow, pgSize, maxVa] at *
    omega
  obtain ⟨r, m', pt', hloop, hres⟩ := uvmallocLoop_adds (n := pagesBelow (newsz - pagesBelow oldsz * pgSize))
    newsz (by simp) hr hnodup (Nat.le_refl _)
    (Adds.refl ⟨true, xperm.w, xperm.x, true⟩ m pt (pagesBelow oldsz)) (fun u _ hu => hva u (by omega))
    (fun u hu hu' => hleaf u hu (by omega)) hmax
  rw [hcount] at hres
  refine ⟨r, m', pt', ?_, hres⟩
  rw [uvmalloc, if_neg (by omega), pgRoundUp_of_le (hle.trans hnew)]
  exact hloop

/-! ## The inverse -/

/-- Of the user pages exactly those below `hi` are mapped. -/
def MapsBelow (pt : PageTable) (hi : Nat) : Prop := ∀ v < userPages, (pt.leaf v).isSome ↔ v < hi

/-- A table that has grown from `lo` to `hi`: what it mapped is unchanged, and
the new pages map cleared frames of their own that were free. -/
structure Grown (m : Mem) (pt : PageTable) (m' : Mem) (pt' : PageTable) (lo hi : Nat) : Prop where
  below : pt'.MapsBelow hi
  old : AgreeOutside pt pt' lo hi
  contents : ∀ v < vpnLimit, ∀ e, pt.leaf v = some e → m'.data e.ppn = m.data e.ppn
  fresh : ∀ v e, lo ≤ v → v < hi → pt'.leaf v = some e →
    e.ppn ∈ m.freelist ∧ e.ppn ∉ m'.freelist ∧ ¬ pt'.StoredIn e.ppn ∧ m'.data e.ppn = fun _ => 0
  distinct : ∀ u v d e, lo ≤ u → u < hi → lo ≤ v → v < hi → pt'.leaf u = some d → pt'.leaf v = some e →
    d.ppn = e.ppn → u = v

/-- The bindings are the old ones; of the pages that were free, all that the
table is not stored in now are free again, and none is free twice. -/
structure Restored (m : Mem) (pt : PageTable) (m' : Mem) (pt' : PageTable) : Prop where
  bindings : ∀ v < vpnLimit, pt'.leaf v = pt.leaf v
  pages : ∀ w, m'.weigh w + pt'.weigh w = m.weigh w + pt.weigh w
  free : ∀ f ∈ m.freelist, f ∈ m'.freelist ∨ pt'.StoredIn f
  nodup : m'.freelist.Nodup

/-- The bindings are those of `pt`; the frames that the pages from `lo` up to `hi`
mapped are free now, and no other page is that was not before. -/
structure Shrunk (pt : PageTable) (m' : Mem) (pt' : PageTable) (m'' : Mem) (pt'' : PageTable) (lo hi : Nat) : Prop where
  bindings : ∀ v < vpnLimit, pt''.leaf v = pt.leaf v
  pages : ∀ w, pt''.weigh w = pt'.weigh w
  free : ∀ f, f ∈ m''.freelist ↔ f ∈ m'.freelist ∨ ∃ v e, lo ≤ v ∧ v < hi ∧ pt'.leaf v = some e ∧ e.ppn = f
  nodup : m''.freelist.Nodup

theorem Apart.nodup (h : Apart m pt) : m.freelist.Nodup := Weight.nodup_iff.2 fun f => by
  have := h.once f
  rw [Mem.weigh] at this
  omega

theorem Apart.grown (h : Apart m pt) (hbelow : pt.MapsBelow lo) (hle : lo ≤ hi)
    (hadds : Adds p m pt m' pt' lo hi) : Grown m pt m' pt' lo hi := by
  refine ⟨fun v hv => ?_, hadds.maps.outside, fun v hv e he => hadds.draws.data _ (h.frames v hv e he),
    fun v e hlo hlt he => ?_, hadds.distinct⟩
  · by_cases hin : lo ≤ v ∧ v < hi
    · obtain ⟨-, -, f, hf⟩ := hadds.maps.inside v hin.1 hin.2
      simp [hf, hin.2]
    · have hlim := userPages_lt
      rw [hadds.maps.outside v (by omega) hin, hbelow v hv]
      omega
  · obtain ⟨hmem, hnot, hzero⟩ := hadds.fresh v e hlo hlt he
    refine ⟨hmem, hnot, fun hst => ?_, hzero⟩
    -- the frame would be counted twice
    have htaken := hadds.maps.taken (Weight.single e.ppn)
    have hone := h.once e.ppn
    have hpos := hst.weigh_pos
    have hspan : 0 < pt'.span (Weight.single e.ppn) lo hi := span_single_pos.2 ⟨v, e, hlo, hlt, he, rfl⟩
    omega

theorem Apart.restored (h : Apart m pt) (hmaps : Maps (fun _ => p) m pt m' pt' lo lo) : Restored m pt m' pt' := by
  have hpages : ∀ w, m'.weigh w + pt'.weigh w = m.weigh w + pt.weigh w := by
    intro w
    have := hmaps.taken w
    rwa [span_self, Nat.add_zero] at this
  refine ⟨fun v hv => hmaps.outside v hv (by omega), hpages, fun f hf => ?_, Weight.nodup_iff.2 fun f => ?_⟩
  · by_contra hnot
    push Not at hnot
    have hfree : m'.weigh (Weight.single f) = 0 := Weight.ofList_single_eq_zero.2 hnot.1
    have htable : ¬ 0 < pt'.weigh (Weight.single f) := fun hpos => hnot.2 (storedIn_of_weigh_pos hpos)
    have hpos : 0 < m.weigh (Weight.single f) := Weight.ofList_single_pos.2 hf
    have := hpages (Weight.single f)
    omega
  · have := hpages (Weight.single f)
    have := h.once f
    show m'.weigh (Weight.single f) ≤ 1
    omega

/-- `uvmdealloc` after a success. -/
theorem Apart.shrunk {oldsz newsz : Nat} (h : Apart m pt) (hle : oldsz ≤ newsz) (hmax : newsz ≤ maxVa)
    (hp : p ≠ ⟨false, false, false, false⟩) (hadds : Adds p m pt m' pt' (pagesBelow oldsz) (pagesBelow newsz)) :
    ∃ m'' pt'', uvmdealloc m' pt' newsz oldsz = .ok (oldsz, m'', pt'') ∧
      Shrunk pt m' pt' m'' pt'' (pagesBelow oldsz) (pagesBelow newsz) := by
  obtain ⟨m'', pt'', hd⟩ := uvmdealloc_total hmax hle fun u hu hu' =>
    hadds.maps.removable hp (hadds.inRange h.ranged rfl) hu hu'
  have hun := (uvmdealloc_ok hmax hd).2
  have hundo := hadds.maps.undo hun
  have hfreed := fun f => hun.freed (Weight.single f)
  refine ⟨m'', pt'', hd, fun v hv => hundo.outside v hv (by omega), hun.pages, fun f => ?_, Weight.nodup_iff.2 fun f => ?_⟩
  · rw [← Weight.ofList_single_pos, ← Weight.ofList_single_pos, ← span_single_pos]
    have := hfreed f
    rw [Mem.weigh, Mem.weigh] at this
    omega
  · have hone := h.once f
    have htaken := hadds.maps.taken (Weight.single f)
    have := hfreed f
    show m''.weigh (Weight.single f) ≤ 1
    omega

/-- Growing and shrinking are inverse to each other, wherever memory runs out:
a success maps exactly the pages below the new size, to fresh frames, and
`uvmdealloc` undoes it; a failure leaves the bindings and gives every frame back. -/
theorem growing_and_shrinking {oldsz newsz : Nat} (xperm : Perm) (happart : Apart m pt)
    (hbelow : pt.MapsBelow (pagesBelow oldsz)) (hle : oldsz ≤ newsz) (hnew : newsz ≤ trapframeVa) :
    ∃ r m' pt', uvmalloc m pt oldsz newsz xperm = .ok (r, m', pt') ∧
      ((r = newsz ∧ Grown m pt m' pt' (pagesBelow oldsz) (pagesBelow newsz) ∧
          ∃ m'' pt'', uvmdealloc m' pt' newsz oldsz = .ok (oldsz, m'', pt'') ∧
            Shrunk pt m' pt' m'' pt'' (pagesBelow oldsz) (pagesBelow newsz)) ∨
        (r = 0 ∧ Restored m pt m' pt')) := by
  have hmax : newsz ≤ maxVa := hnew.trans (by decide)
  have huser : pagesBelow newsz ≤ userPages := by
    simp only [pagesBelow, userPages, trapframeVa, trampoline, maxVa, pgSize] at *
    omega
  have hmono := pagesBelow_mono hle
  obtain ⟨r, m', pt', hrun, hres⟩ := uvmalloc_adds xperm happart.ranged happart.nodup hle hmax fun u hu hu' => by
    have hnot : ¬ (pt.leaf u).isSome := fun hs => by
      have := (hbelow u (by omega)).1 hs
      omega
    simpa using hnot
  refine ⟨r, m', pt', hrun, ?_⟩
  rcases hres with ⟨hr, hadds⟩ | ⟨hr, hmaps⟩
  · exact .inl ⟨hr, happart.grown hbelow hmono hadds, happart.shrunk hle hmax (by simp) hadds⟩
  · exact .inr ⟨hr, happart.restored hmaps⟩

/-- Four free pages beside an empty table. -/
def spare : Mem := ⟨10, [11, 12, 13, 14], fun _ => 0, fun _ _ => 0⟩

theorem leaf_zeroed (f : Ppn) (v : Nat) : leaf (.zeroed f) v = none := rfl

theorem spare_apart : Apart spare (.zeroed 20) where
  ranged := by unfold Mem.Ranged; decide
  once f := by
    have hnodup : (20 :: spare.freelist).Nodup := by decide
    have hone := Weight.nodup_iff.1 hnodup f
    have hzero : weigh (Weight.single f) (.zeroed 20) = Weight.single f 20 := Table.weighWith_zeroed _ _ _
    rw [Weight.ofList_cons] at hone
    rw [hzero, Mem.weigh]
    omega
  frames v _ e he := by
    rw [leaf_zeroed] at he
    cases he

theorem growing_and_shrinking_spare : ∃ r m' pt', uvmalloc spare (.zeroed 20) 0 5000 ⟨false, true, false, false⟩ = .ok (r, m', pt') ∧
    ((r = 5000 ∧ Grown spare (.zeroed 20) m' pt' 0 2 ∧
        ∃ m'' pt'', uvmdealloc m' pt' 5000 0 = .ok (0, m'', pt'') ∧ Shrunk (.zeroed 20) m' pt' m'' pt'' 0 2) ∨
      (r = 0 ∧ Restored spare (.zeroed 20) m' pt')) :=
  growing_and_shrinking ⟨false, true, false, false⟩ spare_apart (fun v _ => by simp [leaf_zeroed, pagesBelow, pgSize])
    (by decide) (by decide)

end PageTable

end Xv6
