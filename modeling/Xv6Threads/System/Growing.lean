-- SUMMARY: sbrk with a positive amount: when every member of a group gets the new pages.
import Xv6Threads.System.Shrinking

/-!
# Growing a group

`uvmalloc` adds pages to the table of the caller from the rounded size on. For
the other members `growproc` starts at the size as it is: if that lies inside a
page, `mappages` finds the page mapped and panics. With an aligned size, or
without other members, the pages are found one after the other, and
`mappages` needs only the table pages that a member lacks.
-/

namespace Xv6

open PageTable

namespace Kernel

variable {k k' k'' : Kernel} {p q L : Slot} {l : List Slot} {n v va : Nat} {S : Finset Nat}

/-- The table pages that the members other than `p` lack. -/
def othersNeed (k : Kernel) (p : Slot) (l : List Slot) (S : Finset Nat) : Nat :=
  ∑ q, if q ∈ l ∧ q ≠ p then k.tableNeed q S else 0

/-- Table pages that the members of `l` lacked in `S` were taken from the free
list. -/
structure Equips (k : Kernel) (p : Slot) (l : List Slot) (S : Finset Nat) (k' : Kernel) : Prop where
  draws : k.mem.Draws k'.mem
  used : k'.mem.freelist.length + k.othersNeed p l S = k.mem.freelist.length + k'.othersNeed p l S

theorem Equips.refl (k : Kernel) : k.Equips p l S k := ⟨.refl _, rfl⟩

theorem Equips.trans (h : k.Equips p l S k') (h' : k'.Equips p l S k'') : k.Equips p l S k'' := by
  refine ⟨h.draws.trans h'.draws, ?_⟩
  have := h.used
  have := h'.used
  omega

/-! ## Mapping one page into every member -/

theorem mapInto_total {pt : PageTable} {pa : Ppn} {perm : Perm} (hpt : (k.rooms q).table = some pt)
    (hq : q ∈ l) (hqp : q ≠ p) (hva : v * pgSize < maxVa) (hv : v ∈ S)
    (hmem : k.othersNeed p l S ≤ k.mem.freelist.length) (hleaf : k.pte q v = none) :
    ∃ k', k.mapInto q (v * pgSize) pa perm = .ok (true, k') ∧ k.Equips p l S k' := by
  have hneed : k.tableNeed q S ≤ k.othersNeed p l S := by
    have := Weight.le_sum (fun q => if q ∈ l ∧ q ≠ p then k.tableNeed q S else 0) q
    rw [if_pos ⟨hq, hqp⟩] at this
    exact this
  have htable : k.tableNeed q S = pt.missing S := by rw [tableNeed, hpt]; rfl
  rw [pte, hpt] at hleaf
  obtain ⟨m, pt', hmap, htakes⟩ := mappages_total (m := k.mem) pa perm hva hv (by omega) hleaf
  refine ⟨{ k with mem := m }.setTable q pt', ?_, htakes.draws, ?_⟩
  · rw [mapInto, show (k.proc q).pagetable = some pt from hpt]
    show (mappages _ _ _ _ _ _ >>= _) = _
    rw [hmap]
    rfl
  · have hrooms := setTable_rooms k m q pt'
    have hchange := Weight.sum_change
      (g := fun x => if x ∈ l ∧ x ≠ p then ({ k with mem := m }.setTable q pt').tableNeed x S else 0)
      (h := fun x => if x ∈ l ∧ x ≠ p then k.tableNeed x S else 0) q fun x hx => by
        simp only [tableNeed, hrooms, Function.update_of_ne hx]
    have hnew : ({ k with mem := m }.setTable q pt').tableNeed q S = pt'.missing S := by
      rw [tableNeed, hrooms, Function.update_self]
      rfl
    simp only [hq, hqp, ne_eq, not_false_eq_true, and_self, if_true, hnew, htable] at hchange
    have hused := htakes.used
    have hm : ({ k with mem := m }.setTable q pt').mem = m := rfl
    rw [hm]
    simp only [othersNeed, ne_eq]
    omega

theorem mapOther_total (pa : Ppn) (hq : q ∈ l) (hva : v * pgSize < maxVa) (hv : v ∈ S)
    (hmem : k.othersNeed p l S ≤ k.mem.freelist.length)
    (hfree : q ≠ p → ∃ pt, (k.rooms q).table = some pt ∧ pt.leaf v = none) :
    ∃ k', k.mapOther p q (v * pgSize) pa = .ok (true, k') ∧ k.Equips p l S k' := by
  by_cases hqp : q = p
  · exact ⟨k, by rw [mapOther, if_neg (by simpa using hqp)], .refl k⟩
  · obtain ⟨pt, hpt, hleaf⟩ := hfree hqp
    rw [mapOther, if_pos hqp]
    exact mapInto_total hpt hq hqp hva hv hmem (by rw [pte, hpt]; exact hleaf)

/-- A page that is mapped already stops the kernel, whatever the offset of the
address in it. -/
theorem mapInto_remap {pa : Ppn} {perm : Perm} {e : Pte} {r : Bool × Kernel} (he : k.pte q (va / pgSize) = some e) :
    k.mapInto q va pa perm ≠ .ok r := by
  intro h
  obtain ⟨pt, hpt, he⟩ := Option.bind_eq_some_iff.1 he
  rw [mapInto, show (k.proc q).pagetable = some pt from hpt] at h
  obtain ⟨⟨b, m, pt'⟩, hmap, -⟩ := Except.bind_ok_iff.1 h
  rw [mappages, if_neg (by decide)] at hmap
  obtain ⟨⟨found, m₁, pt₁⟩, hwalk, hmap⟩ := Except.bind_ok_iff.1 hmap
  obtain ⟨-, hext, -, hnot⟩ := walkAlloc_ok hwalk
  have hlookup : pt.lookup (pgRoundDown va) = some e := he
  dsimp only at hmap
  split at hmap
  · rename_i hf
    exact (hnot (by simpa using hf)).2 (covers_of_lookup hlookup)
  · have hkept : pt₁.lookup (pgRoundDown va) = some e := (hext.leaf (va / pgSize)).trans he
    rw [hkept] at hmap
    cases hmap

section

variable {next : Slot → Option Slot} {ms : List Slot}

/-- The inner loop, with the page free in every other member. -/
theorem growMembers_total (pa : Ppn) (hfollow : Follows next (next q) ms L) (hnodup : (q :: ms).Nodup) (hL : L ∉ ms)
    (hnext : ∀ x, (k.proc x).groupNext = next x) (hsub : ∀ x ∈ q :: ms, x ∈ l) (hva : v * pgSize < maxVa) (hv : v ∈ S)
    (hmem : k.othersNeed p l S ≤ k.mem.freelist.length)
    (hfree : ∀ x ∈ q :: ms, x ≠ p → ∃ pt, (k.rooms x).table = some pt ∧ pt.leaf v = none) (hn : ms.length < n) :
    ∃ k', growMembers p L (v * pgSize) pa n q k = .ok (true, k') ∧ k.Equips p l S k' := by
  induction ms generalizing k q n with
  | nil =>
    obtain ⟨n, rfl⟩ : ∃ i, n = i + 1 := ⟨n - 1, by simp at hn; omega⟩
    obtain ⟨k₁, hmap, heq⟩ := mapOther_total pa (hsub q (by simp)) hva hv hmem (hfree q (by simp))
    refine ⟨k₁, ?_, heq⟩
    have hback : (k₁.proc q).groupNext = some L := ((mapOther_ok hmap).1.groupNext hnext q).trans hfollow
    refine Except.bind_ok_iff.2 ⟨_, hmap, ?_⟩
    simp only [hback, Bool.not_true, Bool.false_eq_true, if_false]
    exact if_pos trivial
  | cons y ms ih =>
    obtain ⟨n, rfl⟩ : ∃ i, n = i + 1 := ⟨n - 1, by simp at hn; omega⟩
    obtain ⟨k₁, hmap, heq⟩ := mapOther_total pa (hsub q (by simp)) hva hv hmem (hfree q (by simp))
    obtain ⟨hs, -⟩ := mapOther_ok hmap
    have hq : q ∉ y :: ms := (List.nodup_cons.1 hnodup).1
    have hmem₁ : k₁.othersNeed p l S ≤ k₁.mem.freelist.length := by
      have := heq.used
      omega
    obtain ⟨k', hrest, heq'⟩ := ih hfollow.2 (List.nodup_cons.1 hnodup).2
      (fun hmem => hL (List.mem_cons_of_mem _ hmem)) (hs.groupNext hnext)
      (fun x hx => hsub x (List.mem_cons_of_mem _ hx)) hmem₁
      (fun x hx hxp => by
        have hout : k₁.rooms x = k.rooms x := hs.outside x fun h => hq (by
          have : x = q := by simpa using h.1
          exact this ▸ hx)
        rw [hout]
        exact hfree x (List.mem_cons_of_mem _ hx) hxp)
      (by simpa using hn)
    refine ⟨k', ?_, heq.trans heq'⟩
    have hy : (k₁.proc q).groupNext = some y := (hs.groupNext hnext q).trans hfollow.1
    have hyL : y ≠ L := fun heq => hL (by simp [heq])
    refine Except.bind_ok_iff.2 ⟨_, hmap, ?_⟩
    simp only [hy, Bool.not_true, Bool.false_eq_true, if_false]
    exact (if_neg hyL).trans hrest

theorem pteAddr_of_leaf {pt : PageTable} {e : Pte} (hva : v * pgSize < maxVa) (he : pt.leaf v = some e) :
    pteAddr pt (v * pgSize) = .ok e.ppn := by
  rw [pteAddr, Except.bind_ok_iff]
  exact ⟨_, walk_of_leaf hva he, rfl⟩

/-- The outer loop, with the pages mapped in the caller and free in the others. -/
theorem growGroup_total {pt : PageTable} (hfollow : Follows next (next L) ms L) (hnodup : (L :: ms).Nodup)
    (hnext : ∀ x, (k.proc x).groupNext = next x) (hpt : (k.rooms p).table = some pt)
    (hleaf : ∀ u, v ≤ u → u < v + n → u * pgSize < maxVa ∧ u ∈ S ∧ ∃ f, pt.leaf u = some ⟨f, permUser⟩)
    (hmem : k.othersNeed p (L :: ms) S ≤ k.mem.freelist.length)
    (hfree : ∀ x ∈ L :: ms, x ≠ p → ∃ ptx, (k.rooms x).table = some ptx ∧
      ∀ u, v ≤ u → u < v + n → ptx.leaf u = none) :
    ∃ k', growGroup p L n (v * pgSize) k = .ok (true, k') ∧ k.Equips p (L :: ms) S k' := by
  induction n generalizing k v with
  | zero => exact ⟨k, rfl, .refl k⟩
  | succ n ih =>
    have hL : L ∉ ms := (List.nodup_cons.1 hnodup).1
    obtain ⟨hva, hv, f, hf⟩ := hleaf v (Nat.le_refl _) (by omega)
    have hlen : ms.length < nproc := by
      have := hnodup.length_le_card
      rw [List.length_cons] at this
      simpa using this
    obtain ⟨k₁, hround, heq⟩ := growMembers_total (p := p) f hfollow hnodup hL hnext (fun _ hx => hx) hva hv hmem
      (fun x hx hxp => by
        obtain ⟨ptx, hptx, hnone⟩ := hfree x hx hxp
        exact ⟨ptx, hptx, hnone v (Nat.le_refl _) (by omega)⟩) hlen
    obtain ⟨hs, -⟩ := growMembers_ok hfollow hnodup hL hnext hround
    have hpt₁ : (k₁.rooms p).table = some pt := by rw [hs.outside p fun hx => hx.2 rfl, hpt]
    have hmem₁ : k₁.othersNeed p (L :: ms) S ≤ k₁.mem.freelist.length := by
      have := heq.used
      omega
    have hfree₁ : ∀ x ∈ L :: ms, x ≠ p → ∃ ptx, (k₁.rooms x).table = some ptx ∧
        ∀ u, v + 1 ≤ u → u < v + 1 + n → ptx.leaf u = none := by
      intro x hx hxp
      obtain ⟨ptx, hptx, hnone⟩ := hfree x hx hxp
      rcases (hs.inside x ⟨hx, hxp⟩).table with hsame | ⟨pt₂, pt₃, h₂, h₃, ha⟩
      · exact ⟨ptx, hsame.trans hptx, fun u hu hu' => hnone u (by omega) (by omega)⟩
      · obtain rfl : ptx = pt₂ := Option.some.inj (hptx.symm.trans h₂)
        refine ⟨pt₃, h₃, fun u hu hu' => ?_⟩
        have hlim := lt_vpnLimit_of_lt_maxVa (hleaf u (by omega) (by omega)).1
        rcases ha u hlim with hsame | ⟨-, hlt, -⟩
        · exact hsame.trans (hnone u (by omega) (by omega))
        · omega
    obtain ⟨k', hrest, heq'⟩ := ih (v := v + 1) (hs.groupNext hnext) hpt₁
      (fun u hu hu' => hleaf u (by omega) (by omega)) hmem₁ hfree₁
    refine ⟨k', ?_, heq.trans heq'⟩
    rw [show (v + 1) * pgSize = v * pgSize + pgSize by ring] at hrest
    rw [growGroup, show (k.proc p).pagetable = some pt from hpt]
    show (pteAddr _ _ >>= _) = _
    rw [pteAddr_of_leaf hva hf]
    show (growMembers _ _ _ _ _ _ _ >>= _) = _
    rw [hround]
    exact hrest

/-! ## What a call that returns has found -/

omit next ms in
theorem mapOther_found {pa : Ppn} {b : Bool} (hqp : q ≠ p) (h : k.mapOther p q (v * pgSize) pa = .ok (b, k'))
    (hb : b = true) : k.pte q v = none := by
  rw [mapOther, if_pos hqp] at h
  obtain ⟨-, -, pt, pt', hpt, -, ⟨-, hnone, -⟩ | ⟨hf, -⟩⟩ := mapInto_ok h
  · rw [pte, hpt]
    exact hnone
  · rw [hb] at hf
    cases hf

/-- A round that maps the page into every other member found it free there. -/
theorem growMembers_found {pa : Ppn} (hfollow : Follows next (next q) ms L) (hnodup : (q :: ms).Nodup) (hL : L ∉ ms)
    (hnext : ∀ x, (k.proc x).groupNext = next x) (h : growMembers p L (v * pgSize) pa n q k = .ok (true, k')) :
    ∀ x ∈ q :: ms, x ≠ p → k.pte x v = none := by
  induction ms generalizing k q n with
  | nil =>
    cases n with
    | zero => cases h
    | succ n =>
      rw [growMembers] at h
      obtain ⟨⟨b, k₁⟩, hmap, h⟩ := Except.bind_ok_iff.1 h
      intro x hx hxp
      obtain rfl : x = q := by simpa using hx
      cases b with
      | false => simp at h
      | true => exact mapOther_found hxp hmap rfl
  | cons y ms ih =>
    cases n with
    | zero => cases h
    | succ n =>
      rw [growMembers] at h
      obtain ⟨⟨b, k₁⟩, hmap, h⟩ := Except.bind_ok_iff.1 h
      obtain rfl : b = true := by
        cases b with
        | false => simp at h
        | true => rfl
      obtain ⟨hs, -⟩ := mapOther_ok hmap
      have hy : (k₁.proc q).groupNext = some y := (hs.groupNext hnext q).trans hfollow.1
      have hyL : y ≠ L := fun heq => hL (by simp [heq])
      have hq : q ∉ y :: ms := (List.nodup_cons.1 hnodup).1
      have hrest : growMembers p L (v * pgSize) pa n y k₁ = .ok (true, k') := by
        simpa [hy, hyL] using h
      have hrest := ih hfollow.2 (List.nodup_cons.1 hnodup).2 (fun hmem => hL (List.mem_cons_of_mem _ hmem))
        (hs.groupNext hnext) hrest
      intro x hx hxp
      rcases List.mem_cons.1 hx with rfl | hx
      · exact mapOther_found hxp hmap rfl
      · have hout : k₁.rooms x = k.rooms x := hs.outside x fun h => hq (by
          have : x = q := by simpa using h.1
          exact this ▸ hx)
        have := hrest x hx hxp
        rwa [pte, hout] at this

/-- All rounds together. -/
theorem growGroup_found (hfollow : Follows next (next L) ms L) (hnodup : (L :: ms).Nodup)
    (hnext : ∀ x, (k.proc x).groupNext = next x) (hlim : v + n ≤ userPages)
    (h : growGroup p L n (v * pgSize) k = .ok (true, k')) :
    ∀ x ∈ L :: ms, x ≠ p → ∀ u, v ≤ u → u < v + n → k.pte x u = none := by
  induction n generalizing k v with
  | zero => exact fun x _ _ u hu hu' => by omega
  | succ n ih =>
    rw [growGroup] at h
    split at h
    · cases h
    obtain ⟨pa, -, h⟩ := Except.bind_ok_iff.1 h
    obtain ⟨⟨b, k₁⟩, hround, h⟩ := Except.bind_ok_iff.1 h
    obtain rfl : b = true := by
      cases b with
      | false => simp at h
      | true => rfl
    have hL : L ∉ ms := (List.nodup_cons.1 hnodup).1
    obtain ⟨hs, -⟩ := growMembers_ok hfollow hnodup hL hnext hround
    have hrest : growGroup p L n ((v + 1) * pgSize) k₁ = .ok (true, k') := by
      rw [show (v + 1) * pgSize = v * pgSize + pgSize by ring]
      simpa using h
    have hrest := ih (v := v + 1) (hs.groupNext hnext) (by omega) hrest
    intro x hx hxp u hu hu'
    by_cases huv : u = v
    · rw [huv]
      exact growMembers_found hfollow hnodup hL hnext hround x hx hxp
    · have hnone := hrest x hx hxp u (by omega) (by omega)
      have hulim : u < vpnLimit := by
        have := userPages_lt
        omega
      rcases (hs.inside x ⟨hx, hxp⟩).table with hsame | ⟨pt₁, pt₂, h₁, h₂, ha⟩
      · rwa [pte, hsame] at hnone
      · rw [pte, h₂] at hnone
        rw [pte, h₁]
        rcases ha u hulim with hsame | ⟨-, hlt, -⟩
        · exact hsame.symm.trans hnone
        · omega

/-- An address inside a page that the others have mapped stops the first round. -/
theorem growMembers_remap {pa : Ppn} {r : Bool × Kernel} (hfollow : Follows next (next q) ms L) (hL : L ∉ ms)
    (hnext : ∀ x, (k.proc x).groupNext = next x)
    (hmapped : ∀ x ∈ q :: ms, x ≠ p → ∃ e, k.pte x (va / pgSize) = some e) (hother : ∃ x ∈ q :: ms, x ≠ p) :
    growMembers p L va pa n q k ≠ .ok r := by
  intro h
  induction ms generalizing q n with
  | nil =>
    cases n with
    | zero => cases h
    | succ n =>
      rw [growMembers] at h
      obtain ⟨⟨b, k₁⟩, hmap, -⟩ := Except.bind_ok_iff.1 h
      obtain ⟨x, hx, hxp⟩ := hother
      obtain rfl : x = q := by simpa using hx
      rw [mapOther, if_pos hxp] at hmap
      obtain ⟨e, he⟩ := hmapped x hx hxp
      exact mapInto_remap he hmap
  | cons y ms ih =>
    cases n with
    | zero => cases h
    | succ n =>
      rw [growMembers] at h
      obtain ⟨⟨b, k₁⟩, hmap, h⟩ := Except.bind_ok_iff.1 h
      by_cases hqp : q = p
      · rw [mapOther, if_neg (by simpa using hqp)] at hmap
        cases hmap
        have hy : (k.proc q).groupNext = some y := (hnext q).trans hfollow.1
        have hyL : y ≠ L := fun heq => hL (by simp [heq])
        have hrest : growMembers p L va pa n y k = .ok r := by simpa [hy, hyL] using h
        refine ih hfollow.2 (fun hmem => hL (List.mem_cons_of_mem _ hmem))
          (fun x hx => hmapped x (List.mem_cons_of_mem _ hx)) ?_ hrest
        obtain ⟨x, hx, hxp⟩ := hother
        exact ⟨x, (List.mem_cons.1 hx).resolve_left fun heq => hxp (heq.trans hqp), hxp⟩
      · rw [mapOther, if_pos hqp] at hmap
        obtain ⟨e, he⟩ := hmapped q (by simp) hqp
        exact mapInto_remap he hmap

end

/-! ## Nothing else changes -/

/-- No slot changes but in its table and its size. -/
def OnlyMemory (k k' : Kernel) : Prop :=
  ∀ q, k'.proc q = { k.proc q with pagetable := (k'.proc q).pagetable, sz := (k'.proc q).sz }

theorem OnlyMemory.refl (k : Kernel) : k.OnlyMemory k := fun _ => rfl

theorem OnlyMemory.trans (h : k.OnlyMemory k') (h' : k'.OnlyMemory k'') : k.OnlyMemory k'' := by
  intro q
  rw [h' q, h q]

theorem onlyMemory_modify {f : Proc → Proc}
    (hf : ∀ pr, f pr = { pr with pagetable := (f pr).pagetable, sz := (f pr).sz }) : k.OnlyMemory (k.modify p f) := by
  intro q
  rw [modify_proc]
  split
  · exact hf _
  · rfl

theorem mapInto_onlyMemory {pa : Ppn} {perm : Perm} {b : Bool} (h : k.mapInto q va pa perm = .ok (b, k')) :
    k.OnlyMemory k' := by
  unfold mapInto at h
  split at h
  · cases h
  · obtain ⟨⟨mapped, m, pt⟩, -, h⟩ := Except.bind_ok_iff.1 h
    cases h
    exact onlyMemory_modify (k := { k with mem := m }) fun _ => rfl

theorem growMembers_onlyMemory {pa : Ppn} {b : Bool} (h : growMembers p L va pa n q k = .ok (b, k')) :
    k.OnlyMemory k' := by
  induction n generalizing k q with
  | zero => cases h
  | succ n ih =>
    rw [growMembers] at h
    obtain ⟨⟨mapped, k₁⟩, hmap, h⟩ := Except.bind_ok_iff.1 h
    have hk : k.OnlyMemory k₁ := by
      unfold mapOther at hmap
      split at hmap
      · exact mapInto_onlyMemory hmap
      · cases hmap
        exact .refl k
    dsimp only at h
    split at h
    · cases h
      exact hk
    · split at h
      · cases h
      · split at h
        · cases h
          exact hk
        · exact hk.trans (ih h)

theorem growGroup_onlyMemory {b : Bool} (h : growGroup p L n va k = .ok (b, k')) : k.OnlyMemory k' := by
  induction n generalizing k va with
  | zero =>
    cases h
    exact .refl _
  | succ n ih =>
    rw [growGroup] at h
    split at h
    · cases h
    obtain ⟨pa, -, h⟩ := Except.bind_ok_iff.1 h
    obtain ⟨⟨mapped, k₁⟩, hgrow, h⟩ := Except.bind_ok_iff.1 h
    have hk := growMembers_onlyMemory hgrow
    dsimp only at h
    split at h
    · cases h
      exact hk
    · exact hk.trans (ih h)

theorem growOthers_onlyMemory {sz : Nat} {b : Bool} (h : k.growOthers p va sz = .ok (b, k')) : k.OnlyMemory k' := by
  unfold growOthers at h
  split at h
  · cases h
    exact .refl _
  · exact growGroup_onlyMemory h

theorem setSize_onlyMemory {sz : Nat} (h : k.setSize p sz = .ok k') : k.OnlyMemory k' := by
  unfold setSize at h
  split at h
  · cases h
    exact onlyMemory_modify fun _ => rfl
  · refine ringLoop_invariant (P := fun k' => k.OnlyMemory k') (fun k₁ q k₂ hk hbody => ?_) (.refl k) h
    cases hbody
    exact hk.trans (onlyMemory_modify fun _ => rfl)

/-- A slot whose table and size are the same is the same. -/
theorem OnlyMemory.proc_eq (h : k.OnlyMemory k') (hq : k'.rooms q = k.rooms q) : k'.proc q = k.proc q := by
  have htable : (k'.proc q).pagetable = (k.proc q).pagetable := congrArg Room.table hq
  have hsize : (k'.proc q).sz = (k.proc q).sz := congrArg Room.size hq
  rw [h q, htable, hsize]

/-! ## The condition -/

/-- The pages that `n` more bytes add. -/
def newPages (k : Kernel) (p : Slot) (n : Nat) : Finset Nat :=
  Finset.Ico (pagesBelow (k.proc p).sz) (pagesBelow ((k.proc p).sz + n))

/-- The free pages that `n` more bytes take: the pages themselves, and the table
pages that the members lack. -/
def growNeed (k : Kernel) (p : Slot) (l : List Slot) (n : Nat) : Nat :=
  (k.newPages p n).card + k.tableNeed p (k.newPages p n) + k.othersNeed p l (k.newPages p n)

/-- The group has grown by `n` bytes: all members have the new size and map the
same page at every address below it, the pages that were there stay, and the
new ones come from the free list. -/
structure Grown (k : Kernel) (p : Slot) (l : List Slot) (n : Nat) (k' : Kernel) : Prop where
  size : ∀ q ∈ l, (k'.proc q).sz = (k.proc p).sz + n
  mapped : ∀ v < pagesBelow ((k.proc p).sz + n), ∃ f, ∀ q ∈ l, (k'.pte q v).map Pte.ppn = some f
  kept : ∀ q ∈ l, ∀ v < pagesBelow (k.proc p).sz, k'.pte q v = k.pte q v
  fresh : (k'.framesOf p (pagesBelow (k.proc p).sz) (pagesBelow ((k.proc p).sz + n)) ++ k'.mem.freelist).Subperm
    k.mem.freelist
  distinct : k.mem.freelist.Nodup →
    (k'.framesOf p (pagesBelow (k.proc p).sz) (pagesBelow ((k.proc p).sz + n))).Nodup
  others : ∀ q, q ∉ l → k'.proc q = k.proc q
  rest : k' = { k with mem := k'.mem, proc := k'.proc }
  counts : k'.mem.refcount = k.mem.refcount
  data : ∀ f, f ∉ k.mem.freelist → k'.mem.data f = k.mem.data f

/-- The new pages are free in the table of every member. -/
def RoomAbove (k : Kernel) (p : Slot) (l : List Slot) (n : Nat) : Prop :=
  ∀ q ∈ l, ∀ v ∈ k.newPages p n, k.pte q v = none

theorem grown_sz (hn : n < 2 ^ 31) (hlim : (k.proc p).sz ≤ trapframeVa) :
    (((k.proc p).sz + (n : Int)) % wordSize).toNat = (k.proc p).sz + n := by
  have hfit : trapframeVa + 2 ^ 31 < wordSize := by decide
  rw [Int.emod_eq_of_lt (by omega) (by omega)]
  omega

theorem pteAddr_total {pt : PageTable} {e : Pte} (hva : va < maxVa) (he : pt.leaf (va / pgSize) = some e) :
    ∃ pa, pteAddr pt va = .ok pa := by
  have hlookup : pt.lookup va = some e := (lookup_eq_leaf pt va).trans he
  obtain ⟨leaves, hl⟩ := Option.isSome_iff_exists.1 (covers_of_lookup hlookup)
  refine ⟨(leaves.entry (px 0 va)).elim 0 Pte.ppn, ?_⟩
  rw [pteAddr, Except.bind_ok_iff]
  refine ⟨some (leaves.entry (px 0 va)), ?_, rfl⟩
  rw [walk, if_neg (not_le.2 hva), hl]
  rfl

/-- In a ring of one the loops map nothing. -/
theorem growGroup_self {pt : PageTable} (hpt : (k.rooms p).table = some pt) (hnext : (k.proc p).groupNext = some p)
    (hleaf : ∀ i < n, va + i * pgSize < maxVa ∧ ∃ e, pt.leaf ((va + i * pgSize) / pgSize) = some e) :
    growGroup p p n va k = .ok (true, k) := by
  induction n generalizing va with
  | zero => rfl
  | succ n ih =>
    obtain ⟨hva, e, he⟩ := hleaf 0 (by omega)
    rw [Nat.zero_mul, Nat.add_zero] at hva he
    obtain ⟨pa, hpa⟩ := pteAddr_total hva he
    have hround : growMembers p p va pa nproc p k = .ok (true, k) := by
      show growMembers p p va pa (63 + 1) p k = _
      rw [growMembers, mapOther, if_neg (by simp), Except.bind_ok_iff]
      refine ⟨(true, k), rfl, ?_⟩
      simp only [hnext, Bool.not_true, Bool.false_eq_true, if_false]
      exact if_pos trivial
    rw [growGroup, show (k.proc p).pagetable = some pt from hpt]
    show (pteAddr _ _ >>= _) = _
    rw [hpa]
    show (growMembers _ _ _ _ _ _ _ >>= _) = _
    rw [hround]
    refine ih fun i hi => ?_
    have := hleaf (i + 1) (by omega)
    rwa [show va + (i + 1) * pgSize = va + pgSize + i * pgSize by ring] at this

/-- With an aligned size, or nobody else in the ring, the other members get the
pages of the caller. -/
theorem growOthers_total {pt : PageTable} (newsz : Nat) (ht : k.Team p l) (hpl : p ∈ l)
    (hpt : (k.rooms p).table = some pt)
    (haligned : (k.proc p).sz % pgSize = 0 ∨ ∀ q ∈ l, q = p) (hlim : newsz ≤ trapframeVa)
    (hlow : ∀ u < pagesBelow (k.proc p).sz, ∃ e, pt.leaf u = some e)
    (hleaf : ∀ u, pagesBelow (k.proc p).sz ≤ u → u < pagesBelow newsz → ∃ f, pt.leaf u = some ⟨f, permUser⟩)
    (hmem : k.othersNeed p l (Finset.Ico (pagesBelow (k.proc p).sz) (pagesBelow newsz)) ≤ k.mem.freelist.length)
    (hfree : ∀ x ∈ l, x ≠ p → ∃ ptx, (k.rooms x).table = some ptx ∧
      ∀ u, pagesBelow (k.proc p).sz ≤ u → u < pagesBelow newsz → ptx.leaf u = none) :
    ∃ k', k.growOthers p (k.proc p).sz newsz = .ok (true, k') ∧
      k.Equips p l (Finset.Ico (pagesBelow (k.proc p).sz) (pagesBelow newsz)) k' := by
  have hva : ∀ u, u < pagesBelow newsz → u * pgSize < maxVa := by
    intro u hu
    have : trapframeVa ≤ maxVa := by decide
    simp only [pagesBelow, pgSize, maxVa] at *
    omega
  have halone_iff := ht.alone_iff hpl
  unfold growOthers
  cases ht with
  | single hL =>
    rw [hL]
    exact ⟨k, rfl, .refl k⟩
  | @group L ms hL hg =>
    rw [hL]
    by_cases ha : ∀ q ∈ L :: ms, q = p
    · -- nobody to map for
      refine ⟨k, ?_, .refl k⟩
      obtain rfl : L = p := ha L (List.mem_cons_self ..)
      have hnext : (k.proc L).groupNext = some L := by
        rcases halone_iff.2 ha with hnone | ⟨-, hnext⟩
        · rw [hL] at hnone
          cases hnone
        · exact hnext
      refine growGroup_self hpt hnext fun i hi => ?_
      have hpage : ((k.proc L).sz + i * pgSize) / pgSize < pagesBelow newsz ∧
          (k.proc L).sz + i * pgSize < newsz := by
        simp only [pagesBelow, pgSize] at *
        omega
      refine ⟨hpage.2.trans_le (hlim.trans (by decide)), ?_⟩
      by_cases hu : ((k.proc L).sz + i * pgSize) / pgSize < pagesBelow (k.proc L).sz
      · exact hlow _ hu
      · obtain ⟨f, hf⟩ := hleaf _ (not_lt.1 hu) hpage.1
        exact ⟨_, hf⟩
    · have haligned := haligned.resolve_right ha
      have hsz : (k.proc p).sz = pagesBelow (k.proc p).sz * pgSize := by
        simp only [pagesBelow, pgSize] at *
        omega
      have hcount : pagesBelow (newsz - pagesBelow (k.proc p).sz * pgSize) =
          pagesBelow newsz - pagesBelow (k.proc p).sz := by
        simp only [pagesBelow, pgSize]
        omega
      obtain ⟨k', hgrow, heq⟩ := growGroup_total (p := p) (n := pagesBelow newsz - pagesBelow (k.proc p).sz)
        hg.ring.follows hg.ring.nodup (fun _ => rfl) hpt
        (fun u hu hu' => ⟨hva u (by omega), Finset.mem_Ico.2 ⟨hu, by omega⟩, hleaf u hu (by omega)⟩) hmem
        (fun x hx hxp => by
          obtain ⟨ptx, hptx, hnone⟩ := hfree x hx hxp
          exact ⟨ptx, hptx, fun u hu hu' => hnone u hu (by omega)⟩)
      refine ⟨k', ?_, heq⟩
      rw [← hcount, ← hsz] at hgrow
      exact hgrow

/-- A size inside a page stops the kernel if there is another member. -/
theorem growOthers_remap {newsz : Nat} {r : Bool × Kernel} (ht : k.Team p l)
    (hmapped : ∀ q ∈ l, ∃ e, k.pte q ((k.proc p).sz / pgSize) = some e) (hother : ∃ q ∈ l, q ≠ p)
    (hlt : (k.proc p).sz < newsz) : k.growOthers p (k.proc p).sz newsz ≠ .ok r := by
  intro h
  unfold growOthers at h
  cases ht with
  | single hL =>
    obtain ⟨q, hq, hqp⟩ := hother
    exact hqp (by simpa using hq)
  | @group L ms hL hg =>
    rw [hL] at h
    obtain ⟨i, hi⟩ : ∃ i, pagesBelow (newsz - (k.proc p).sz) = i + 1 := by
      refine ⟨pagesBelow (newsz - (k.proc p).sz) - 1, ?_⟩
      simp only [pagesBelow, pgSize]
      omega
    dsimp only at h
    rw [hi, growGroup] at h
    split at h
    · cases h
    obtain ⟨pa, -, h⟩ := Except.bind_ok_iff.1 h
    obtain ⟨r', hround, -⟩ := Except.bind_ok_iff.1 h
    exact growMembers_remap hg.ring.follows hg.ring.head_notMem (fun _ => rfl)
      (fun x hx _ => hmapped x hx) hother hround

/-- The three parts of a call that returns 0. -/
theorem growproc_parts {pt : PageTable} (hpt : (k.rooms p).table = some pt) (hn : 0 < n) (hn' : n < 2 ^ 31)
    (hlim : (k.proc p).sz ≤ trapframeVa) (h : k.growproc p n = .ok (0, k')) :
    ∃ m pt' k₂, uvmalloc k.mem pt (k.proc p).sz ((k.proc p).sz + n) permW = .ok ((k.proc p).sz + n, m, pt') ∧
      ({ k with mem := m }.setTable p pt').growOthers p (k.proc p).sz ((k.proc p).sz + n) = .ok (true, k₂) ∧
      k₂.setSize p ((k.proc p).sz + n) = .ok k' := by
  simp only [growproc, show (k.proc p).pagetable = some pt from hpt] at h
  rw [if_neg (by omega), if_pos (by omega), grown_sz hn' hlim] at h
  obtain ⟨⟨newsz, m, pt'⟩, halloc, h⟩ := Except.bind_ok_iff.1 h
  obtain ⟨hi, -, hres⟩ := uvmalloc_ok (hlim.trans (by decide)) halloc
  dsimp only at h
  split at h
  · cases h
  rename_i hnz
  obtain rfl : newsz = (k.proc p).sz + n := by
    rcases hres with ⟨hr, -⟩ | ⟨hr, -⟩
    · omega
    · exact absurd hr hnz
  obtain ⟨⟨b, k₂⟩, hothers, h⟩ := Except.bind_ok_iff.1 h
  cases b with
  | false => simp at h
  | true =>
    obtain ⟨k₃, hset, h⟩ := Except.bind_ok_iff.1 h
    cases h
    exact ⟨m, pt', k₂, halloc, hothers, hset⟩

/-- The table of the caller after `uvmalloc` is in place. -/
theorem setTable_team (m : Mem) (pt' : PageTable) (ht : k.Team p l) :
    ({ k with mem := m }.setTable p pt').Team p l := ht.congr (remaps_setTable k m p pt').entries

theorem setTable_pte (m : Mem) (pt' : PageTable) (hq : q ≠ p) (v : Nat) :
    ({ k with mem := m }.setTable p pt').pte q v = k.pte q v := by
  rw [pte, setTable_rooms, Function.update_of_ne hq, pte]

/-- A call that returns 0 has found an aligned size or no other member, and the
new pages free in every table. -/
theorem growproc_found (h : k.Agree p l) (hn : 0 < n) (hn' : n < 2 ^ 31) (hlim : (k.proc p).sz + n < trapframeVa)
    (hgrow : k.growproc p n = .ok (0, k')) :
    ((k.proc p).sz % pgSize = 0 ∨ ∀ q ∈ l, q = p) ∧ k.RoomAbove p l n := by
  obtain ⟨pt, hpt⟩ := h.table p h.caller
  obtain ⟨m, pt', k₂, halloc, hothers, -⟩ := growproc_parts hpt hn hn' h.limit hgrow
  obtain ⟨hi, hmaps, hres⟩ := uvmalloc_ok (h.limit.trans (by decide)) halloc
  have hmono := pagesBelow_mono (Nat.le_add_right (k.proc p).sz n)
  have hhi : hi = pagesBelow ((k.proc p).sz + n) := by
    rcases hres with ⟨-, hhi⟩ | ⟨hr, -⟩ <;> omega
  subst hhi
  have hsz₁ : (({ k with mem := m }.setTable p pt').proc p).sz = (k.proc p).sz := by simp [setTable]
  have halign : (k.proc p).sz % pgSize = 0 ∨ ∀ q ∈ l, q = p := by
    by_contra hcon
    obtain ⟨hsz, hother⟩ := not_or.1 hcon
    rw [← hsz₁] at hothers
    refine growOthers_remap (setTable_team m pt' h.team) (fun q hq => ?_) (by simpa using hother) (by rw [hsz₁]; omega) hothers
    -- the page that holds the end of the old memory
    have hlow : (k.proc p).sz / pgSize < pagesBelow (k.proc p).sz := by
      simp only [pagesBelow, pgSize] at *
      omega
    obtain ⟨e, he, -⟩ := h.maps q hq _ hlow
    rw [hsz₁]
    by_cases hqp : q = p
    · subst hqp
      refine ⟨e, ?_⟩
      rw [pte, setTable_rooms, Function.update_self]
      rw [pte, hpt] at he
      have hlt : (k.proc q).sz / pgSize < vpnLimit := by
        have := userPages_lt
        have : trapframeVa = userPages * pgSize := by decide
        simp only [pgSize] at *
        omega
      exact (hmaps.outside _ hlt (by omega)).trans he
    · exact ⟨e, (setTable_pte m pt' hqp _).trans he⟩
  refine ⟨halign, fun q hq v hv => ?_⟩
  obtain ⟨hv, hv'⟩ := Finset.mem_Ico.1 hv
  by_cases hqp : q = p
  · subst hqp
    rw [pte, hpt]
    exact (hmaps.inside v hv hv').2.1
  · have hne : ¬ ∀ q ∈ l, q = p := fun hall => hqp (hall q hq)
    have hsz := halign.resolve_right hne
    rw [← setTable_pte m pt' hqp v]
    unfold growOthers at hothers
    cases setTable_team m pt' h.team with
    | single => exact absurd (by simpa using hq) hqp
    | @group L ms hL hg =>
      rw [hL] at hothers
      have hstart : (k.proc p).sz = pagesBelow (k.proc p).sz * pgSize := by
        simp only [pagesBelow, pgSize] at *
        omega
      have hcount : pagesBelow ((k.proc p).sz + n - (k.proc p).sz) =
          pagesBelow ((k.proc p).sz + n) - pagesBelow (k.proc p).sz := by
        simp only [pagesBelow, pgSize] at *
        omega
      have hgroup : growGroup p L (pagesBelow ((k.proc p).sz + n) - pagesBelow (k.proc p).sz)
          (pagesBelow (k.proc p).sz * pgSize) ({ k with mem := m }.setTable p pt') = .ok (true, k₂) := by
        rw [← hstart, ← hcount]
        exact hothers
      refine growGroup_found hg.ring.follows hg.ring.nodup (fun _ => rfl) ?_ hgroup q hq hqp v hv ?_
      · have : trapframeVa = userPages * pgSize := by decide
        simp only [pagesBelow, pgSize] at *
        omega
      · omega

/-- With an aligned size or no other member, room in the tables and enough
memory, the call returns 0. -/
theorem growproc_total (h : k.Agree p l) (hn : 0 < n) (hn' : n < 2 ^ 31) (hlim : (k.proc p).sz + n < trapframeVa)
    (hmem : k.growNeed p l n ≤ k.mem.freelist.length)
    (halign : (k.proc p).sz % pgSize = 0 ∨ ∀ q ∈ l, q = p) (hroom : k.RoomAbove p l n) :
    ∃ pt m pt' k₂ k', (k.rooms p).table = some pt ∧
      uvmalloc k.mem pt (k.proc p).sz ((k.proc p).sz + n) permW = .ok ((k.proc p).sz + n, m, pt') ∧
      Takes k.mem pt m pt' (k.newPages p n) (k.newPages p n).card ∧
      ({ k with mem := m }.setTable p pt').growOthers p (k.proc p).sz ((k.proc p).sz + n) = .ok (true, k₂) ∧
      m.Draws k₂.mem ∧ k₂.setSize p ((k.proc p).sz + n) = .ok k' ∧ k.growproc p n = .ok (0, k') := by
  obtain ⟨pt, hpt⟩ := h.table p h.caller
  have hpte : ∀ v, k.pte p v = pt.leaf v := fun v => by rw [pte, hpt]; rfl
  have htable : k.tableNeed p (k.newPages p n) = pt.missing (k.newPages p n) := by rw [tableNeed, hpt]; rfl
  have hmono := pagesBelow_mono (Nat.le_add_right (k.proc p).sz n)
  have hcard : (k.newPages p n).card = pagesBelow ((k.proc p).sz + n) - pagesBelow (k.proc p).sz := Nat.card_Ico _ _
  rw [growNeed, htable] at hmem
  obtain ⟨m, pt', halloc, htakes⟩ := uvmalloc_total (m := k.mem) permW
    (Nat.le_add_right (k.proc p).sz n) (hlim.le.trans (by decide))
    (fun u hu hu' => (hpte u).symm.trans (hroom p h.caller u (Finset.mem_Ico.2 ⟨hu, hu'⟩)))
    (by rw [← hcard]; exact (Nat.le_add_right _ _).trans hmem)
  obtain ⟨hi, hmaps, hres⟩ := uvmalloc_ok (h.limit.trans (by decide)) halloc
  have hhi : hi = pagesBelow ((k.proc p).sz + n) := by
    rcases hres with ⟨-, hhi⟩ | ⟨hr, -⟩ <;> omega
  subst hhi
  have hsz₁ : (({ k with mem := m }.setTable p pt').proc p).sz = (k.proc p).sz := by simp [setTable]
  have hpt₁ : (({ k with mem := m }.setTable p pt').rooms p).table = some pt' := by
    rw [setTable_rooms, Function.update_self]
  -- what the others lack is what is left
  have hneed : ({ k with mem := m }.setTable p pt').othersNeed p l (k.newPages p n) = k.othersNeed p l (k.newPages p n) := by
    refine Finset.sum_congr rfl fun q _ => ?_
    by_cases hqp : q = p
    · simp [hqp]
    · simp only [tableNeed, setTable_rooms, Function.update_of_ne hqp]
  have hused := htakes.used
  have hothers := growOthers_total (k := { k with mem := m }.setTable p pt') ((k.proc p).sz + n)
    (setTable_team m pt' h.team) h.caller hpt₁ (by rw [hsz₁]; exact halign) hlim.le
    (fun u hu => by
      rw [hsz₁] at hu
      obtain ⟨e, he, -⟩ := h.maps p h.caller u hu
      have hlt : u < vpnLimit := by
        have := userPages_lt
        have : trapframeVa = userPages * pgSize := by decide
        simp only [pagesBelow, pgSize] at *
        omega
      exact ⟨e, (hmaps.outside u hlt (by omega)).trans ((hpte u).symm.trans he)⟩)
    (fun u hu hu' => by
      rw [hsz₁] at hu
      exact (hmaps.inside u hu hu').2.2)
    (by
      rw [hsz₁]
      show ({ k with mem := m }.setTable p pt').othersNeed p l (k.newPages p n) ≤ m.freelist.length
      rw [hneed]
      have : Finset.Ico (pagesBelow (k.proc p).sz) (pagesBelow ((k.proc p).sz + n)) = k.newPages p n := rfl
      rw [this] at hused
      omega)
    (fun x hx hxp => by
      obtain ⟨ptx, hptx⟩ := h.table x hx
      refine ⟨ptx, by rw [setTable_rooms, Function.update_of_ne hxp, hptx], fun u hu hu' => ?_⟩
      rw [hsz₁] at hu
      have := hroom x hx u (Finset.mem_Ico.2 ⟨hu, hu'⟩)
      rwa [pte, hptx] at this)
  obtain ⟨k₂, hgrow, heq⟩ := hothers
  rw [hsz₁] at hgrow
  obtain ⟨k', hset⟩ := setSize_total ((setTable_team m pt' h.team).congr (growOthers_remaps hgrow).entries) ((k.proc p).sz + n)
  refine ⟨pt, m, pt', k₂, k', hpt, halloc, hcard ▸ htakes, hgrow, heq.draws, hset, ?_⟩
  simp only [growproc, show (k.proc p).pagetable = some pt from hpt]
  rw [if_neg (by omega), if_pos (by omega), grown_sz hn' h.limit, halloc]
  show (if (k.proc p).sz + n = 0 then _ else _) = _
  rw [if_neg (by omega)]
  show (growOthers _ _ _ _ >>= _) = _
  rw [hgrow]
  show (setSize _ _ _ >>= _) = _
  rw [hset]
  rfl

/-- `n` more bytes for a group, if and only if the size is page aligned or there
is no other member, and no member has a page left where the new ones go. -/
theorem growproc_grown_iff (h : k.Agree p l) (hn : 0 < n) (hn' : n < 2 ^ 31) (hlim : (k.proc p).sz + n < trapframeVa)
    (hmem : k.growNeed p l n ≤ k.mem.freelist.length) :
    (∃ k', k.growproc p n = .ok (0, k') ∧ k.Grown p l n k') ↔
      ((k.proc p).sz % pgSize = 0 ∨ ∀ q ∈ l, q = p) ∧ k.RoomAbove p l n := by
  constructor
  · rintro ⟨k', hgrow, -⟩
    exact growproc_found h hn hn' hlim hgrow
  rintro ⟨halign, hroom⟩
  obtain ⟨pt, m, pt', k₂, k', hpt, halloc, htakes, hothers, hdraws, hset, hgrow⟩ :=
    growproc_total h hn hn' hlim hmem halign hroom
  refine ⟨k', hgrow, ?_⟩
  obtain ⟨hi, hmaps, hres⟩ := uvmalloc_ok (h.limit.trans (by decide)) halloc
  have hmono := pagesBelow_mono (Nat.le_add_right (k.proc p).sz n)
  have hhi : hi = pagesBelow ((k.proc p).sz + n) := by
    rcases hres with ⟨-, hhi⟩ | ⟨hr, -⟩ <;> omega
  subst hhi
  have hlim' : pagesBelow ((k.proc p).sz + n) ≤ userPages := pagesBelow_le_userPages hlim.le
  have huser := userPages_lt
  have hteam₁ := setTable_team m pt' h.team
  have hsz₁ : (({ k with mem := m }.setTable p pt').proc p).sz = (k.proc p).sz := by simp [setTable]
  have hpt₁ : (({ k with mem := m }.setTable p pt').rooms p).table = some pt' := by
    rw [setTable_rooms, Function.update_self]
  have halone : (({ k with mem := m }.setTable p pt').proc p).sz % pgSize = 0 ∨
      ({ k with mem := m }.setTable p pt').Alone p := by
    rw [hsz₁]
    exact halign.imp_right (hteam₁.alone_iff h.caller).2
  -- the three parts
  obtain ⟨hs, hall⟩ := growOthers_ok hteam₁ hpt₁ (congrArg pagesBelow hsz₁.symm) (max_eq_right hmono).symm hlim'
    (fun u hu hu' => (hmaps.inside u hu hu').2.2) halone (by rw [hsz₁]; exact hothers)
  obtain ⟨hrooms, hmem', -⟩ := setSize_rooms (hteam₁.congr hs.entries) hset
  have hsub : (k'.rooms p).table = some pt' := by
    rw [hrooms p, if_pos h.caller]
    show (k₂.rooms p).table = _
    rw [hs.outside p fun hx => hx.2 rfl, hpt₁]
  have hpte' : ∀ v, k'.pte p v = pt'.leaf v := fun v => by rw [pte, hsub]; rfl
  have hpte : ∀ v, k.pte p v = pt.leaf v := fun v => by rw [pte, hpt]; rfl
  have hkept : ∀ q ∈ l, ∀ v < pagesBelow (k.proc p).sz, k'.pte q v = k.pte q v := by
    intro q hq v hv
    by_cases hqp : q = p
    · rw [hqp, hpte', hpte]
      exact hmaps.outside v (by omega) (by omega)
    · have htab : (k'.rooms q).table = (k₂.rooms q).table := by rw [hrooms q, if_pos hq]
      have hroom₁ : ({ k with mem := m }.setTable p pt').rooms q = k.rooms q := by
        rw [setTable_rooms, Function.update_of_ne hqp]
      rw [pte, htab, pte]
      rcases (hs.inside q ⟨hq, hqp⟩).table with hsame | ⟨pt₁, pt₂, h₁, h₂, ha⟩
      · rw [hsame, hroom₁]
      · rw [hroom₁] at h₁
        rw [h₁, h₂]
        rcases ha v (by omega) with hsame | ⟨hge, -⟩
        · exact hsame
        · omega
  have hweight : ∀ w, Weight.ofList w (k'.framesOf p (pagesBelow (k.proc p).sz) (pagesBelow ((k.proc p).sz + n)) ++
      k'.mem.freelist) ≤ Weight.ofList w k.mem.freelist := by
    intro w
    have h₁ := hmaps.taken w
    have h₂ := htakes.tables w
    have h₃ := hdraws.weigh_le w
    rw [Weight.ofList_append, framesOf_weight hsub, hmem']
    simp only [Mem.weigh] at h₁ h₃
    omega
  have hfresh := Weight.subperm_of_ofList hweight
  have honly : k.OnlyMemory k' := by
    have h₁ : k.OnlyMemory ({ k with mem := m }.setTable p pt') :=
      onlyMemory_modify (k := { k with mem := m }) fun _ => rfl
    exact (h₁.trans (growOthers_onlyMemory hothers)).trans (setSize_onlyMemory hset)
  have hdraw : k.mem.Draws k'.mem := by
    rw [hmem']
    exact htakes.draws.trans hdraws
  refine ⟨fun q hq => ?_, fun v hv => ?_, hkept, hfresh, fun hnodup => ?_, fun q hq => ?_, (growproc_remaps hgrow).rest,
    hdraw.refcount, hdraw.data⟩
  · have := congrArg Room.size (hrooms q)
    rw [if_pos hq] at this
    exact this
  · by_cases hlow : v < pagesBelow (k.proc p).sz
    · obtain ⟨e, he, -⟩ := h.maps p h.caller v hlow
      refine ⟨e.ppn, fun q hq => ?_⟩
      obtain ⟨e', he', hp', -⟩ := h.maps q hq v hlow
      obtain rfl := Option.some.inj (he.symm.trans hp')
      rw [hkept q hq v hlow, he']
      rfl
    · obtain ⟨f, hf⟩ := (hmaps.inside v (not_lt.1 hlow) hv).2.2
      refine ⟨f, fun q hq => ?_⟩
      by_cases hqp : q = p
      · rw [hqp, hpte', hf]
        rfl
      · obtain ⟨ptq, hptq, hleaf⟩ := hall rfl q ⟨hq, hqp⟩ v (not_lt.1 hlow) hv
        have htab : (k'.rooms q).table = some ptq := by
          rw [hrooms q, if_pos hq]
          exact hptq
        rw [pte, htab]
        show (ptq.leaf v).map Pte.ppn = _
        rw [hleaf, hf]
        rfl
  · obtain ⟨l', hperm, hsublist⟩ := hfresh
    exact (List.nodup_append.1 (hperm.nodup_iff.1 (hsublist.nodup hnodup))).1
  · refine honly.proc_eq ?_
    have hqp : q ≠ p := fun heq => hq (heq ▸ h.caller)
    rw [hrooms q, if_neg hq, hs.outside q fun hx => hq hx.1, setTable_rooms, Function.update_of_ne hqp]

/-- A group of two. -/
theorem Team.eq_pair (h : k.Team p l) (hL : (k.proc p).groupLeader = some L) (hq : (k.proc L).groupNext = some q)
    (hback : (k.proc q).groupNext = some L) (hne : L ≠ q) : l = [L, q] := by
  cases h with
  | single hnone =>
    rw [hL] at hnone
    cases hnone
  | group hL' hg =>
    obtain rfl := Option.some.inj (hL.symm.trans hL')
    have hfollow : Follows (fun q => (k.entries q).groupNext) (k.entries L).groupNext [q] L := ⟨hq, hback⟩
    rw [hg.ring.follows.unique hfollow hg.ring.head_notMem (by simpa using hne)]

end Kernel

/-- A process and its thread get a page for 100 bytes more. -/
theorem growproc_grown_of_two : ∃ k : Kernel, Reachable .standard k ∧
    k.Agree ⟨1, by decide⟩ [⟨0, by decide⟩, ⟨1, by decide⟩] ∧
    ∃ k', k.growproc ⟨1, by decide⟩ (100 : Nat) = .ok (0, k') ∧
      k.Grown ⟨1, by decide⟩ [⟨0, by decide⟩, ⟨1, by decide⟩] 100 k' := by
  have hrun : (Boot.standard.run anyStep
      [.schedule ⟨0, by decide⟩, .call ⟨0, by decide⟩ (.threadCreate 0 0), .schedule ⟨1, by decide⟩]).any
      (fun k => k.agrees ⟨1, by decide⟩ ∧ (k.proc ⟨1, by decide⟩).groupLeader = some ⟨0, by decide⟩ ∧
        (k.proc ⟨0, by decide⟩).groupNext = some ⟨1, by decide⟩ ∧
        (k.proc ⟨1, by decide⟩).groupNext = some ⟨0, by decide⟩ ∧ (k.proc ⟨1, by decide⟩).sz = 8192 ∧
        k.growNeed ⟨1, by decide⟩ [⟨0, by decide⟩, ⟨1, by decide⟩] 100 ≤ k.mem.freelist.length ∧
        ∀ q ∈ [(⟨0, by decide⟩ : Slot), ⟨1, by decide⟩], ∀ v ∈ k.newPages ⟨1, by decide⟩ 100, k.pte q v = none)
      = true := by decide +kernel
  obtain ⟨k, hk, hc⟩ := exists_reaches_of_run hrun
  obtain ⟨hagrees, hL, hnext, hback, hsz, hmem, hroom⟩ := of_decide_eq_true hc
  obtain ⟨l, hag⟩ := Kernel.agree_of_agrees (wellGrouped_of_reaches hk) hagrees
  obtain rfl := hag.team.eq_pair hL hnext hback (by decide)
  refine ⟨k, hk, hag, (Kernel.growproc_grown_iff hag (by decide) (by decide) ?_ hmem).2 ⟨.inl ?_, hroom⟩⟩
  · rw [hsz]
    decide
  · rw [hsz]
    decide

/-- A process and its thread have a size that is not page aligned; 100 bytes more
stop the kernel in `mappages`. -/
theorem growproc_grown_of_unaligned : ¬ ∀ (b : Boot) (k : Kernel) (p : Slot) (l : List Slot) (n : Nat), Reachable b k →
    k.Agree p l → 0 < n → n < 2 ^ 31 → (k.proc p).sz + n < trapframeVa → k.growNeed p l n ≤ k.mem.freelist.length →
    ∃ k', k.growproc p n = .ok (0, k') ∧ k.Grown p l n k' := by
  intro hall
  have hrun : (Boot.standard.run anyStep
      [.schedule ⟨0, by decide⟩, .call ⟨0, by decide⟩ (.threadCreate 0 0), .call ⟨0, by decide⟩ (.sbrk 100)]).any
      (fun k => k.agrees ⟨0, by decide⟩ ∧ (k.proc ⟨0, by decide⟩).groupLeader = some ⟨0, by decide⟩ ∧
        (k.proc ⟨0, by decide⟩).groupNext = some ⟨1, by decide⟩ ∧
        (k.proc ⟨1, by decide⟩).groupNext = some ⟨0, by decide⟩ ∧ (k.proc ⟨0, by decide⟩).sz = 8292 ∧
        k.growNeed ⟨0, by decide⟩ [⟨0, by decide⟩, ⟨1, by decide⟩] 100 ≤ k.mem.freelist.length ∧
        (match k.growproc ⟨0, by decide⟩ (100 : Nat) with | .ok _ => false | .error _ => true) = true) = true := by
    decide +kernel
  obtain ⟨k, hk, hc⟩ := exists_reaches_of_run hrun
  obtain ⟨hagrees, hL, hnext, hback, hsz, hmem, hpanic⟩ := of_decide_eq_true hc
  obtain ⟨l, hag⟩ := Kernel.agree_of_agrees (wellGrouped_of_reaches hk) hagrees
  obtain rfl := hag.team.eq_pair hL hnext hback (by decide)
  obtain ⟨k', hgrow, -⟩ := hall _ k _ _ 100 hk hag (by decide) (by decide) (by rw [hsz]; decide) hmem
  rw [hgrow] at hpanic
  cases hpanic

end Xv6
