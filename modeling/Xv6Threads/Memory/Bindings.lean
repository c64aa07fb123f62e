-- SUMMARY: Page tables refine partial maps: what walk, mappages, uvmunmap and freewalk do to the bindings of a table.
import Xv6Threads.Memory.Supply
import Xv6Threads.Memory.Sv39

/-!
# Bindings

A table binds virtual pages to physical pages and flags. Its pages are the nodes
of a trie, so a store to an entry changes one binding, and a table page that
`walk` adds changes none.
-/

namespace Xv6

namespace Sv39

open Trie Weight

/-! ## Tables as tries -/

/-- The pages that the entries of a page point to. -/
def link (m : Mem) : Links Ppn (Fin 512) := fun f i =>
  if entry m f i &&& pteV ≠ 0 then some ((pte2pa (entry m f i)).toNat / pgSize) else none

/-- The indices of a virtual address. -/
def path (va : UInt64) (k : Nat) : Fin 512 := Xv6.px k va.toNat

/-- The valid entry at the end of a path. -/
def leafAt (m : Mem) (ix : Nat → Fin 512) (n : Nat) (p : Ppn) : Option UInt64 :=
  (find (link m) ix n p).bind fun q => if entry m q (ix 0) &&& pteV ≠ 0 then some (entry m q (ix 0)) else none

/-- No entry above the last level is marked as a leaf. -/
def Pointers (m : Mem) (n : Nat) (p : Ppn) : Prop :=
  ∀ f, Inner (link m) n p f → ∀ i, entry m f i &&& pteV ≠ 0 → entry m f i &&& (pteR ||| pteW ||| pteX) = 0

/-- The free pages lie in the range of the allocator, and no page occurs twice
among them and the pages of the trie. -/
structure Stocked (m : Mem) (n : Nat) (p : Ppn) : Prop where
  ranged : m.Ranged
  once : ∀ f, m.weigh (single f) + weigh (link m) (single f) n p ≤ 1

variable {m m' m₁ m₂ : Mem} {pagetable va a v : UInt64} {n : Nat} {p c d f q : Ppn} {i j : Fin 512} {ix : Nat → Fin 512}

theorem Stocked.distinct (h : Stocked m n p) : Distinct (link m) n p := fun f => by
  have := h.once f
  omega

theorem Stocked.not_free (h : Stocked m n p) (hf : Holds (link m) n p f) : f ∉ m.freelist := fun hmem => by
  have hfree : 0 < m.weigh (single f) := ofList_single_pos.2 hmem
  have htree := holds_iff.1 hf
  have := h.once f
  omega

theorem link_congr (h : m'.data f = m.data f) : link m' f = link m f := by
  funext i
  rw [link, link, entry_congr h]

theorem links_congr (h : ∀ f, Holds (link m) n p f → m'.data f = m.data f) :
    ∀ f, Inner (link m) n p f → link m' f = link m f := fun f hf => link_congr (h f hf.holds)

theorem leafAt_congr (h : ∀ f, Holds (link m) n p f → m'.data f = m.data f) : leafAt m' ix n p = leafAt m ix n p := by
  rw [leafAt, leafAt, find_congr (links_congr h)]
  refine Option.bind_congr fun q hq => ?_
  rw [entry_congr (h q (holds_of_find hq))]

theorem Pointers.congr (hp : Pointers m n p) (h : ∀ f, Inner (link m) n p f → m'.data f = m.data f) :
    Pointers m' n p := fun f hf i => by
  have hin := (Inner.congr fun f hf => link_congr (h f hf)).1 hf
  rw [entry_congr (h f hin)]
  exact hp f hin i

theorem leafAt_succ (h : link m p (ix (n + 1)) = some c) : leafAt m ix (n + 1) p = leafAt m ix n c := by
  rw [leafAt, find, h, Option.bind_some, leafAt]

theorem leafAt_none (h : link m p (ix (n + 1)) = none) : leafAt m ix (n + 1) p = none := by
  rw [leafAt, find, h]
  rfl

/-! ## walk -/

theorem frame_toNat (pte : UInt64) : (pte2pa pte).toNat = (pte2pa pte).toNat / pgSize * pgSize := by
  rw [pte2pa_toNat, Nat.mul_div_cancel _ (by decide)]

theorem link_some (h : entry m p i &&& pteV ≠ 0) : link m p i = some ((pte2pa (entry m p i)).toNat / pgSize) := if_pos h

theorem link_none (h : ¬ entry m p i &&& pteV ≠ 0) : link m p i = none := if_neg h

/-- `walk` without `alloc` follows the links, and changes nothing. -/
theorem walkFrom_find (m : Mem) (va : UInt64) (hn : n ≤ 2) (hp : pagetable.toNat = p * pgSize) :
    ∃ o, walkFrom false n m pagetable va = (o, m) ∧
      ((o = none ∧ find (link m) (path va) n p = none) ∨
        ∃ a q, o = some a ∧ a.toNat = q * pgSize + 8 * (path va 0) ∧ find (link m) (path va) n p = some q) := by
  induction n generalizing pagetable p with
  | zero => exact ⟨_, rfl, .inr ⟨_, p, rfl, slot_toNat hp (px_toNat 0 (by omega) va), rfl⟩⟩
  | succ n ih =>
    have hload : load m (pagetable + 8 * px (n + 1) va) = entry m p (path va (n + 1)) :=
      load_slot (slot_toNat hp (px_toNat (n + 1) hn va))
    simp only [walkFrom, hload, find]
    by_cases hv : entry m p (path va (n + 1)) &&& pteV ≠ 0
    · rw [if_pos hv, link_some hv, Option.bind_some]
      exact ih (by omega) (frame_toNat _)
    · rw [if_neg hv, link_none hv]
      exact ⟨none, rfl, .inl ⟨rfl, rfl⟩⟩

/-- Pages have moved from the free list into the trie, and no entry at the end of a path has changed. -/
structure Walked (m m' : Mem) (n : Nat) (p : Ppn) : Prop where
  kend : m'.kend = m.kend
  refcount : m'.refcount = m.refcount
  suffix : m'.freelist <:+ m.freelist
  pages : ∀ w, m'.weigh w + weigh (link m') w n p = m.weigh w + weigh (link m) w n p
  frame : ∀ f, f ∉ m.freelist → ¬ Holds (link m) n p f → m'.data f = m.data f
  leaves : ∀ ix, leafAt m' ix n p = leafAt m ix n p
  pointers : Pointers m n p → Pointers m' n p

theorem Walked.refl (m : Mem) (n : Nat) (p : Ppn) : Walked m m n p :=
  ⟨rfl, rfl, List.suffix_refl _, fun _ => rfl, fun _ _ _ => rfl, fun _ => rfl, id⟩

theorem Walked.stocked (h : Walked m m' n p) (hs : Stocked m n p) : Stocked m' n p := by
  refine ⟨fun f hf => ?_, fun f => ?_⟩
  · rw [Mem.InRange, h.kend]
    exact hs.ranged f (h.suffix.subset hf)
  · rw [h.pages]
    exact hs.once f

/-- One level of `walk` found or installed the page `c` at entry `i`. -/
structure Descends (m m₂ : Mem) (n : Nat) (p : Ppn) (i : Fin 512) (c : Ppn) : Prop where
  kend : m₂.kend = m.kend
  refcount : m₂.refcount = m.refcount
  suffix : m₂.freelist <:+ m.freelist
  pages : ∀ w, m₂.weigh w + weigh (link m₂) w n c = m.weigh w + (link m p i).elim 0 (weigh (link m) w n)
  frame : ∀ f, f ∉ m.freelist → f ≠ p → m₂.data f = m.data f
  leaves : ∀ ix, ix (n + 1) = i → leafAt m₂ ix n c = leafAt m ix (n + 1) p
  here : link m₂ p i = some c
  others : ∀ j, j ≠ i → entry m₂ p j = entry m p j
  pointers : Pointers m (n + 1) p → entry m₂ p i &&& (pteR ||| pteW ||| pteX) = 0 ∧ Pointers m₂ n c

section Lift

variable (hs : Stocked m (n + 1) p) (hd : Descends m m₂ n p i c) (h : Walked m₂ m' n c)

include hs hd

theorem Descends.root_apart : p ∉ m₂.freelist ∧ ¬ Holds (link m₂) n c p := by
  have hone := hs.once p
  have hsum := hd.pages (single p)
  have helim : (link m p i).elim 0 (weigh (link m) (single p) n) + 1 ≤ weigh (link m) (single p) (n + 1) p := by
    cases hl : link m p i with
    | none =>
      have := root_le_weigh (s := link m) (w := single p) (n := n + 1) (p := p)
      rw [single_self] at this
      exact this
    | some d =>
      have := child_le_weigh (w := single p) (n := n) hl
      rw [single_self] at this
      rw [Option.elim_some]
      omega
  refine ⟨fun hmem => ?_, fun hh => ?_⟩
  · have hpos : 0 < m₂.weigh (single p) := ofList_single_pos.2 hmem
    omega
  · have := holds_iff.1 hh
    omega

/-- What is below the other entries is apart from what is below `c`. -/
theorem Descends.child_apart (hj : j ≠ i) (hlink : link m p j = some d) (hf : Holds (link m) n d f) :
    f ∉ m.freelist ∧ f ≠ p ∧ f ∉ m₂.freelist ∧ ¬ Holds (link m₂) n c f := by
  have hone := hs.once f
  have hpos := holds_iff.1 hf
  have hsum := hd.pages (single f)
  have hne : f ≠ p := fun heq => hs.distinct.root_notin hlink (heq ▸ hf)
  have helim : (link m p i).elim 0 (weigh (link m) (single f) n) + weigh (link m) (single f) n d ≤
      weigh (link m) (single f) (n + 1) p := by
    cases hl : link m p i with
    | none =>
      have := child_le_weigh (w := single f) (n := n) hlink
      simp only [Option.elim_none]
      omega
    | some e => exact children_le_weigh (Ne.symm hj) hl hlink
  refine ⟨fun hmem => ?_, hne, fun hmem => ?_, fun hh => ?_⟩
  · have hfree : 0 < m.weigh (single f) := ofList_single_pos.2 hmem
    omega
  · have hfree : 0 < m₂.weigh (single f) := ofList_single_pos.2 hmem
    omega
  · have := holds_iff.1 hh
    omega

include h

theorem Descends.child_data (hj : j ≠ i) (hlink : link m p j = some d) :
    ∀ f, Holds (link m) n d f → m'.data f = m.data f := fun f hf => by
  obtain ⟨hfree, hne, hfree₂, hnot⟩ := hd.child_apart hs hj hlink hf
  rw [h.frame f hfree₂ hnot, hd.frame f hfree hne]

theorem Descends.link_here : link m' p i = some c := by
  obtain ⟨hfree, hnot⟩ := hd.root_apart hs
  rw [link_congr (h.frame p hfree hnot), hd.here]

theorem Descends.entry_other (hj : j ≠ i) : entry m' p j = entry m p j := by
  obtain ⟨hfree, hnot⟩ := hd.root_apart hs
  rw [entry_congr (h.frame p hfree hnot), hd.others j hj]

theorem Descends.link_other (hj : j ≠ i) : link m' p j = link m p j := by
  rw [link, link, hd.entry_other hs h hj]

/-- A level below the top of a trie. -/
theorem Descends.walked : Walked m m' (n + 1) p := by
  obtain ⟨hrootfree, hroot⟩ := hd.root_apart hs
  refine ⟨h.kend.trans hd.kend, h.refcount.trans hd.refcount, h.suffix.trans hd.suffix, fun w => ?_, fun f hf hnot => ?_,
    fun ix => ?_, fun hp => ?_⟩
  · have hchange := weigh_change (w := w) (n := n) (fun j hj => hd.link_other hs h hj) fun j hj d hlink =>
      weigh_congr (links_congr (hd.child_data hs h hj hlink))
    rw [hd.link_here hs h, Option.elim_some] at hchange
    have := h.pages w
    have := hd.pages w
    omega
  · have hne : f ≠ p := fun heq => hnot (heq ▸ .root)
    have hfree : m.weigh (single f) = 0 := ofList_single_eq_zero.2 hf
    have hbelow : (link m p i).elim 0 (weigh (link m) (single f) n) = 0 := by
      cases hl : link m p i with
      | none => rfl
      | some e => exact weigh_eq_zero fun he => hnot (.child hl he)
    have hsum := hd.pages (single f)
    have hnot₂ : ¬ Holds (link m₂) n c f := fun hh => by
      have := holds_iff.1 hh
      omega
    rw [h.frame f (fun hmem => hf (hd.suffix.subset hmem)) hnot₂, hd.frame f hf hne]
  · by_cases hi : ix (n + 1) = i
    · have hhere : link m' p (ix (n + 1)) = some c := hi ▸ hd.link_here hs h
      rw [leafAt_succ hhere, h.leaves, hd.leaves ix hi]
    · have hother := hd.link_other hs h hi
      cases hl : link m p (ix (n + 1)) with
      | none => rw [leafAt_none hl, leafAt_none (hother.trans hl)]
      | some d =>
        rw [leafAt_succ hl, leafAt_succ (hother.trans hl), leafAt_congr (hd.child_data hs h hi hl)]
  · obtain ⟨hflags, hc⟩ := hd.pointers hp
    rintro f (_ | ⟨hlink, hf⟩) j hv
    · by_cases hj : j = i
      · rwa [hj, entry_congr (h.frame p hrootfree hroot)]
      · rw [hd.entry_other hs h hj] at hv ⊢
        exact hp p .root j hv
    · rename_i e k
      by_cases hk : k = i
      · rw [hk, hd.link_here hs h] at hlink
        cases hlink
        exact h.pointers hc f hf j hv
      · rw [hd.link_other hs h hk] at hlink
        have hbelow : Pointers m n e := fun g hg => hp g (.child hlink hg)
        exact hbelow.congr (fun f hf => hd.child_data hs h hk hlink f hf.holds) f hf j hv

end Lift

theorem and_pointer (e : UInt64) : e &&& (pteR ||| pteW ||| pteX) = pteFlags e &&& (pteR ||| pteW ||| pteX) := by
  have hmask : (0x3FF : UInt64) &&& (pteR ||| pteW ||| pteX) = pteR ||| pteW ||| pteX := by decide
  rw [pteFlags, UInt64.and_assoc, hmask]

theorem frame_lt (h : m.InRange f) : (UInt64.ofNat (f * pgSize)).toNat = f * pgSize := by
  have hsize : UInt64.size = 2 ^ 64 := rfl
  have htop : physTop * pgSize < 2 ^ 64 := by decide
  exact UInt64.toNat_ofNat_of_lt' (hsize ▸ (Nat.mul_lt_mul_of_pos_right h.2 (by decide)).trans htop)

/-- A page that `kalloc` returned, cleared, and linked at an entry that was not valid. -/
theorem descends_alloc (hs : Stocked m (n + 1) p) (hv : ¬ entry m p i &&& pteV ≠ 0) (ha : a.toNat = p * pgSize + 8 * i)
    (hk : m.kalloc = (some f, m₁)) :
    Descends m (store (m₁.memset f 0) a (pa2pte (.ofNat (f * pgSize)) ||| pteV)) n p i f := by
  obtain ⟨hdraws, -⟩ := Mem.kalloc_draws hk 0
  have hmem : f ∈ m.freelist := by
    rw [(Mem.kalloc_some hk).1]
    exact List.mem_cons_self ..
  have hpfree : p ∉ m.freelist := hs.not_free .root
  have hfp : f ≠ p := fun heq => hpfree (heq ▸ hmem)
  have haddr := frame_lt (hs.ranged f hmem)
  have halign : (UInt64.ofNat (f * pgSize)).toNat % pgSize = 0 := by rw [haddr, Nat.mul_mod_left]
  have hflag : pteV.toNat < 2 ^ 10 := by decide
  generalize hm₂ : store (m₁.memset f 0) a (pa2pte (.ofNat (f * pgSize)) ||| pteV) = m₂
  have hentry : ∀ g j, entry m₂ g j =
      if g = p ∧ j = i then pa2pte (.ofNat (f * pgSize)) ||| pteV else entry (m₁.memset f 0) g j := by
    intro g j
    rw [← hm₂, entry_store ha]
  have hhere : entry m₂ p i = pa2pte (.ofNat (f * pgSize)) ||| pteV := by rw [hentry, if_pos ⟨rfl, rfl⟩]
  -- the new page is empty
  have hzero : ∀ j, entry m₂ f j = 0 := by
    intro j
    rw [hentry, if_neg (by simp [hfp]), entry_memset_zero]
  have hbare : ∀ j, link m₂ f j = none := fun j => link_none (by rw [hzero]; decide)
  have hvalid : entry m₂ p i &&& pteV ≠ 0 := by
    rw [hhere, valid_iff, entry_toNat _ _ hflag]
    have hone : pteV.toNat = 1 := rfl
    omega
  refine ⟨?_, ?_, ?_, fun w => ?_, fun g hg hgp => ?_, fun ix hix => ?_, ?_, fun j hj => ?_, fun hp => ⟨?_, ?_⟩⟩
  · rw [← hm₂, store_kend, hdraws.kend]
  · rw [← hm₂, store_refcount, hdraws.refcount]
  · rw [← hm₂, store_freelist]
    exact hdraws.freelist
  · rw [weigh_bare hbare, link_none hv, Option.elim_none, ← hm₂, weigh_store, Mem.weigh_memset]
    have := Mem.weigh_kalloc hk w
    omega
  · rw [← hm₂, store_data ha hgp, hdraws.data g hg]
  · have hlink : link m p (ix (n + 1)) = none := hix ▸ link_none hv
    rw [leafAt_none hlink]
    cases n with
    | zero =>
      have hnot : ¬ entry m₂ f (ix 0) &&& pteV ≠ 0 := by
        rw [hzero]
        decide
      rw [leafAt, find, Option.bind_some, if_neg hnot]
    | succ n => exact leafAt_none (hbare _)
  · rw [link_some hvalid, hhere, pte2pa_entry _ _ halign hflag, haddr, Nat.mul_div_cancel _ (by decide)]
  · rw [hentry, if_neg (by simp [hj])]
    exact entry_congr (hdraws.data p hpfree) j
  · rw [hhere, and_pointer, pteFlags_entry _ _ hflag]
    decide
  · rintro g (_ | ⟨hlink, -⟩) j hvj
    · rw [hzero] at hvj
      exact absurd hvj (by decide)
    · rw [hbare] at hlink
      cases hlink

theorem descends_link (hv : entry m p i &&& pteV ≠ 0) : Descends m m n p i ((pte2pa (entry m p i)).toNat / pgSize) := by
  have hlink := link_some hv
  refine ⟨rfl, rfl, List.suffix_refl _, fun w => ?_, fun _ _ _ => rfl, fun ix hix => ?_, hlink, fun _ _ => rfl, fun hp => ?_⟩
  · rw [hlink, Option.elim_some]
  · subst hix
    exact (leafAt_succ hlink).symm
  · exact ⟨hp p .root i hv, fun g hg => hp g (.child hlink hg)⟩

/-- `walk` with `alloc`: the address it returns is that of the entry. -/
theorem walkFrom_alloc {o : Option UInt64} (hn : n ≤ 2) (hp : pagetable.toNat = p * pgSize) (hs : Stocked m n p)
    (h : walkFrom true n m pagetable va = (o, m')) :
    Walked m m' n p ∧ (∀ j, 0 < n → j ≠ path va n → entry m' p j = entry m p j) ∧
      ∀ a, o = some a → ∃ q, a.toNat = q * pgSize + 8 * (path va 0) ∧ find (link m') (path va) n p = some q := by
  induction n generalizing m pagetable p with
  | zero =>
    cases h
    refine ⟨.refl _ _ _, fun _ _ _ => rfl, fun a ha => ⟨p, ?_, rfl⟩⟩
    cases ha
    exact slot_toNat hp (px_toNat 0 (by omega) va)
  | succ n ih =>
    have hslot : (pagetable + 8 * px (n + 1) va).toNat = p * pgSize + 8 * (path va (n + 1)) :=
      slot_toNat hp (px_toNat (n + 1) hn va)
    -- both ways down end in the same way
    have hdown : ∀ {m₂ c} {pt₂ : UInt64}, Descends m m₂ n p (path va (n + 1)) c → pt₂.toNat = c * pgSize →
        walkFrom true n m₂ pt₂ va = (o, m') → Walked m m' (n + 1) p ∧
          (∀ j, 0 < n + 1 → j ≠ path va (n + 1) → entry m' p j = entry m p j) ∧
          ∀ a, o = some a → ∃ q, a.toNat = q * pgSize + 8 * (path va 0) ∧ find (link m') (path va) (n + 1) p = some q := by
      intro m₂ c pt₂ hd hpt hrun
      have hs₂ : Stocked m₂ n c := by
        refine ⟨fun f hf => ?_, fun f => ?_⟩
        · rw [Mem.InRange, hd.kend]
          exact hs.ranged f (hd.suffix.subset hf)
        · have hone := hs.once f
          have hle : (link m p (path va (n + 1))).elim 0 (weigh (link m) (single f) n) ≤ weigh (link m) (single f) (n + 1) p := by
            cases hl : link m p (path va (n + 1)) with
            | none => exact Nat.zero_le _
            | some d => exact (Nat.le_add_left _ _).trans (child_le_weigh hl)
          rw [hd.pages]
          omega
      obtain ⟨hw, -, hfound⟩ := ih (by omega) hpt hs₂ hrun
      refine ⟨hd.walked hs hw, fun j _ hj => hd.entry_other hs hw hj, fun a ha => ?_⟩
      obtain ⟨q, hq, hfind⟩ := hfound a ha
      exact ⟨q, hq, by rw [find, hd.link_here hs hw, Option.bind_some, hfind]⟩
    simp only [walkFrom, load_slot hslot] at h
    by_cases hv : entry m p (path va (n + 1)) &&& pteV ≠ 0
    · rw [if_pos hv] at h
      exact hdown (descends_link hv) (frame_toNat _) h
    · rw [if_neg hv] at h
      simp only [Bool.not_true, Bool.false_eq_true, if_false] at h
      split at h
      · rename_i hk
        obtain ⟨-, rfl⟩ := Mem.kalloc_none hk
        cases h
        exact ⟨.refl _ _ _, fun _ _ _ => rfl, fun _ hf => by cases hf⟩
      · rename_i f m₁ hk
        have hmem : f ∈ m.freelist := by
          rw [(Mem.kalloc_some hk).1]
          exact List.mem_cons_self ..
        exact hdown (descends_alloc hs hv hslot hk) (frame_lt (hs.ranged f hmem)) h

/-! ## Bindings -/

/-- The physical page and the flags of an entry. -/
def decode (e : UInt64) : UInt64 × UInt64 := (pte2pa e, pteFlags e)

/-- What `walk` says a table binds an address to. -/
def binding (m : Mem) (pagetable va : UInt64) : Option (UInt64 × UInt64) :=
  match walk m pagetable va false with
  | .ok (some pte, _) => if load m pte &&& pteV ≠ 0 then some (decode (load m pte)) else none
  | _ => none

/-- The page of the root. -/
def root (pagetable : UInt64) : Ppn := pagetable.toNat / pgSize

/-- A well-formed table: a tree for the addresses below `MAXVA`, whose pages are pairwise distinct. -/
structure Tree (m : Mem) (pagetable : UInt64) : Prop where
  aligned : pagetable.toNat % pgSize = 0
  distinct : Distinct (link m) 2 (root pagetable)
  pointers : Pointers m 2 (root pagetable)
  below : ∀ i : Fin 512, 256 ≤ i.val → ¬ entry m (root pagetable) i &&& pteV ≠ 0

theorem Tree.root_toNat (h : Tree m pagetable) : pagetable.toNat = root pagetable * pgSize := by
  have := Nat.div_add_mod' pagetable.toNat pgSize
  rw [h.aligned, Nat.add_zero] at this
  exact this.symm

theorem walk_of_lt (m : Mem) (pagetable : UInt64) (b : Bool) (h : va.toNat < Xv6.maxVa) : walk m pagetable va b = .ok (walkFrom b 2 m pagetable va) := by
  refine if_neg fun hle => ?_
  rw [UInt64.le_iff_toNat_le, maxVa_toNat] at hle
  omega

theorem lt_of_walk {b : Bool} {r : Option UInt64 × Mem} (h : walk m pagetable va b = .ok r) :
    va.toNat < Xv6.maxVa ∧ walkFrom b 2 m pagetable va = r := by
  rw [walk] at h
  split at h
  · cases h
  · rename_i hlt
    rw [UInt64.le_iff_toNat_le, maxVa_toNat] at hlt
    cases h
    exact ⟨by omega, rfl⟩

theorem binding_eq (ht : Tree m pagetable) (hva : va.toNat < Xv6.maxVa) :
    binding m pagetable va = (leafAt m (path va) 2 (root pagetable)).map decode := by
  obtain ⟨o, hrun, ⟨rfl, hfind⟩ | ⟨a, q, rfl, ha, hfind⟩⟩ := walkFrom_find m va (Nat.le_refl 2) ht.root_toNat
  · rw [binding, walk_of_lt m pagetable false hva, hrun, leafAt, hfind]
    rfl
  · rw [binding, walk_of_lt m pagetable false hva, hrun, leafAt, hfind, Option.bind_some]
    dsimp only
    rw [load_slot ha]
    split <;> rfl

/-- Two addresses take the same path exactly if they lie in the same page. -/
theorem path_eq_iff {va va' : UInt64} (h : va.toNat < Xv6.maxVa) (h' : va'.toNat < Xv6.maxVa) :
    (∀ k ≤ 2, path va' k = path va k) ↔ va'.toNat / pgSize = va.toNat / pgSize := by
  constructor
  · intro hpath
    exact px_inj (vpn_lt_of_lt_maxVa h') (vpn_lt_of_lt_maxVa h) (hpath 2 (by omega)) (hpath 1 (by omega)) (hpath 0 (by omega))
  · intro hpage k _
    have hround : pgRoundDown va'.toNat = pgRoundDown va.toNat := by rw [pgRoundDown, pgRoundDown, hpage]
    rw [path, path, ← px_pgRoundDown, hround, px_pgRoundDown]

/-- A store to the entry at the end of a path touches none of the links. -/
theorem store_links (hdist : Distinct (link m) n p) (hq : find (link m) ix n p = some q)
    (ha : a.toNat = q * pgSize + 8 * (ix 0)) (v : UInt64) :
    ∀ f, Inner (link m) n p f → (store m a v).data f = m.data f := fun _ hf =>
  store_data ha fun heq => hdist.not_inner hq (heq ▸ hf)

theorem leafAt_store (hdist : Distinct (link m) n p) (hq : find (link m) ix n p = some q)
    (ha : a.toNat = q * pgSize + 8 * (ix 0)) (v : UInt64) (jx : Nat → Fin 512) :
    leafAt (store m a v) jx n p =
      if ∀ k ≤ n, jx k = ix k then (if v &&& pteV ≠ 0 then some v else none) else leafAt m jx n p := by
  rw [leafAt, find_congr fun f hf => link_congr (store_links hdist hq ha v f hf)]
  by_cases hsame : ∀ k ≤ n, jx k = ix k
  · have hstored : entry (store m a v) q (ix 0) = v := by rw [entry_store ha, if_pos ⟨rfl, rfl⟩]
    rw [if_pos hsame, find_path fun k _ hk => hsame k hk, hq, Option.bind_some, hsame 0 (Nat.zero_le _), hstored]
  · rw [if_neg hsame, leafAt]
    refine Option.bind_congr fun q' hq' => ?_
    have hne : ¬ (q' = q ∧ jx 0 = ix 0) := by
      rintro ⟨rfl, hzero⟩
      refine hsame fun k hk => ?_
      rcases Nat.eq_zero_or_pos k with rfl | hpos
      · exact hzero
      · exact hdist.find_inj hq' hq hpos hk
    rw [entry_store ha, if_neg hne]

section Store

variable (ht : Tree m pagetable) (hq : find (link m) (path va) 2 (root pagetable) = some q)
  (ha : a.toNat = q * pgSize + 8 * (path va 0))

include ht hq ha

theorem Tree.store (v : UInt64) : Tree (store m a v) pagetable := by
  have hdata := store_links ht.distinct hq ha v
  have hlinks : ∀ f, Inner (link m) 2 (root pagetable) f → link (Sv39.store m a v) f = link m f :=
    fun f hf => link_congr (hdata f hf)
  refine ⟨ht.aligned, fun f => ?_, ht.pointers.congr hdata, fun i hi => ?_⟩
  · rw [weigh_congr hlinks]
    exact ht.distinct f
  · rw [entry_congr (hdata _ .root)]
    exact ht.below i hi

theorem binding_store (hva : va.toNat < Xv6.maxVa) (v : UInt64) {va' : UInt64} (hva' : va'.toNat < Xv6.maxVa) :
    binding (store m a v) pagetable va' =
      if va'.toNat / pgSize = va.toNat / pgSize then (if v &&& pteV ≠ 0 then some (decode v) else none)
      else binding m pagetable va' := by
  rw [binding_eq (ht.store hq ha v) hva', leafAt_store ht.distinct hq ha, binding_eq ht hva']
  by_cases hpage : va'.toNat / pgSize = va.toNat / pgSize
  · rw [if_pos ((path_eq_iff hva hva').2 hpage), if_pos hpage]
    split <;> rfl
  · rw [if_neg fun hall => hpage ((path_eq_iff hva hva').1 hall), if_neg hpage]

theorem Stocked.store (hs : Stocked m 2 (root pagetable)) (v : UInt64) :
    Stocked (store m a v) 2 (root pagetable) := by
  have hdata := store_links ht.distinct hq ha v
  refine ⟨hs.ranged, fun f => ?_⟩
  rw [weigh_store, weigh_congr fun f hf => link_congr (hdata f hf)]
  exact hs.once f

end Store

/-! ## mappages -/

theorem path_two_lt (h : va.toNat < Xv6.maxVa) : (path va 2).val < 256 := by
  simp only [path, Xv6.px, Xv6.maxVa] at *
  omega

/-- `walk` with `alloc` changes no binding, and finds the entry of its address. -/
theorem walk_alloc {o : Option UInt64} (ht : Tree m pagetable) (hs : Stocked m 2 (root pagetable))
    (h : walk m pagetable va true = .ok (o, m₁)) :
    va.toNat < Xv6.maxVa ∧ Tree m₁ pagetable ∧ Stocked m₁ 2 (root pagetable) ∧
      (∀ va' : UInt64, va'.toNat < Xv6.maxVa → binding m₁ pagetable va' = binding m pagetable va') ∧
      ∀ pte, o = some pte →
        ∃ q, pte.toNat = q * pgSize + 8 * (path va 0) ∧ find (link m₁) (path va) 2 (root pagetable) = some q := by
  obtain ⟨hva, hrun⟩ := lt_of_walk h
  obtain ⟨hw, hothers, hfound⟩ := walkFrom_alloc (Nat.le_refl 2) ht.root_toNat hs hrun
  have hs₁ := hw.stocked hs
  have ht₁ : Tree m₁ pagetable := by
    refine ⟨ht.aligned, hs₁.distinct, hw.pointers ht.pointers, fun i hi => ?_⟩
    have hlt := path_two_lt hva
    rw [hothers i (by omega) fun heq => by rw [heq] at hi; omega]
    exact ht.below i hi
  refine ⟨hva, ht₁, hs₁, fun va' hva' => ?_, hfound⟩
  rw [binding_eq ht₁ hva', binding_eq ht hva', hw.leaves]

/-- The `k` pages from page `s` on, none of them bound before, are bound to
consecutive frames from `pa` on; no other binding has changed. -/
structure Binds (m m' : Mem) (pagetable : UInt64) (s k : Nat) (pa flags : UInt64) : Prop where
  fresh : ∀ va : UInt64, va.toNat < Xv6.maxVa → s ≤ va.toNat / pgSize → va.toNat / pgSize < s + k →
    binding m pagetable va = none
  inside : ∀ va : UInt64, va.toNat < Xv6.maxVa → s ≤ va.toNat / pgSize → va.toNat / pgSize < s + k →
    binding m' pagetable va = some (pa + .ofNat (va.toNat / pgSize - s) * Word.page, flags)
  outside : ∀ va : UInt64, va.toNat < Xv6.maxVa → ¬ (s ≤ va.toNat / pgSize ∧ va.toNat / pgSize < s + k) →
    binding m' pagetable va = binding m pagetable va

theorem Binds.nothing {s : Nat} {pa flags : UInt64}
    (h : ∀ va' : UInt64, va'.toNat < Xv6.maxVa → binding m' pagetable va' = binding m pagetable va') :
    Binds m m' pagetable s 0 pa flags :=
  ⟨fun _ _ _ _ => by omega, fun _ _ _ _ => by omega, fun va hva _ => h va hva⟩

/-- One page, and those after it. -/
theorem Binds.cons {s k : Nat} {pa flags : UInt64} (hnone : ∀ va : UInt64, va.toNat < Xv6.maxVa → va.toNat / pgSize = s →
      binding m pagetable va = none)
    (hone : ∀ va : UInt64, va.toNat < Xv6.maxVa → binding m₁ pagetable va =
      if va.toNat / pgSize = s then some (pa, flags) else binding m pagetable va)
    (h : Binds m₁ m' pagetable (s + 1) k (pa + Word.page) flags) : Binds m m' pagetable s (k + 1) pa flags := by
  refine ⟨fun va hva hlo hhi => ?_, fun va hva hlo hhi => ?_, fun va hva hout => ?_⟩
  · by_cases hs : va.toNat / pgSize = s
    · exact hnone va hva hs
    · have := h.fresh va hva (by omega) (by omega)
      rwa [hone va hva, if_neg hs] at this
  · by_cases hs : va.toNat / pgSize = s
    · rw [h.outside va hva (by omega), hone va hva, if_pos hs, hs, Nat.sub_self]
      have hzero : UInt64.ofNat 0 * Word.page = 0 := by decide
      rw [hzero, UInt64.add_zero]
    · rw [h.inside va hva (by omega) (by omega)]
      have hsplit : va.toNat / pgSize - s = va.toNat / pgSize - (s + 1) + 1 := by omega
      have hunit : UInt64.ofNat 1 = 1 := rfl
      rw [hsplit, UInt64.ofNat_add, hunit, UInt64.add_mul, UInt64.one_mul, UInt64.add_assoc,
        UInt64.add_comm Word.page]
  · rw [h.outside va hva (by omega), hone va hva, if_neg (by omega)]

/-- An address is bound exactly if the entry that `walk` finds is valid. -/
theorem binding_found {pte : UInt64} (ht : Tree m pagetable) (hva : va.toNat < Xv6.maxVa)
    (hpte : pte.toNat = q * pgSize + 8 * (path va 0)) (hfind : find (link m) (path va) 2 (root pagetable) = some q) :
    binding m pagetable va = if load m pte &&& pteV ≠ 0 then some (decode (load m pte)) else none := by
  rw [binding_eq ht hva, leafAt, hfind, Option.bind_some, load_slot hpte]
  split <;> rfl

/-- The other addresses of a page are bound as the page is. -/
theorem binding_page {va' : UInt64} (ht : Tree m pagetable) (hva : va.toNat < Xv6.maxVa) (hva' : va'.toNat < Xv6.maxVa)
    (h : va'.toNat / pgSize = va.toNat / pgSize) : binding m pagetable va' = binding m pagetable va := by
  have hpath := (path_eq_iff hva hva').2 h
  rw [binding_eq ht hva', binding_eq ht hva, leafAt, leafAt, find_path fun k _ hk => hpath k hk, hpath 0 (Nat.zero_le _)]

/-- One round of `mappages`: the page was not bound, and now is. -/
theorem mapPage {perm : Int32} {pa pte : UInt64} (ht : Tree m pagetable) (hs : Stocked m 2 (root pagetable))
    (hwalk : walk m pagetable a true = .ok (some pte, m₁)) (hfree : ¬ load m₁ pte &&& pteV ≠ 0)
    (hpa : pa.toNat % pgSize = 0) (hperm : (permBits perm ||| pteV).toNat < 2 ^ 10) :
    Tree (store m₁ pte (pa2pte pa ||| permBits perm ||| pteV)) pagetable ∧
      Stocked (store m₁ pte (pa2pte pa ||| permBits perm ||| pteV)) 2 (root pagetable) ∧
      (∀ va : UInt64, va.toNat < Xv6.maxVa → va.toNat / pgSize = a.toNat / pgSize → binding m pagetable va = none) ∧
      ∀ va : UInt64, va.toNat < Xv6.maxVa → binding (store m₁ pte (pa2pte pa ||| permBits perm ||| pteV)) pagetable va =
        if va.toNat / pgSize = a.toNat / pgSize then some (pa, permBits perm ||| pteV) else binding m pagetable va := by
  obtain ⟨hva, ht₁, hs₁, hsame, hfound⟩ := walk_alloc ht hs hwalk
  obtain ⟨q, hpte, hfind⟩ := hfound pte rfl
  have hentry : pa2pte pa ||| permBits perm ||| pteV = pa2pte pa ||| (permBits perm ||| pteV) := UInt64.or_assoc ..
  refine ⟨ht₁.store hfind hpte _, hs₁.store ht₁ hfind hpte _, fun va hva' heq => ?_, fun va hva' => ?_⟩
  · rw [← hsame va hva', binding_page ht₁ hva hva' heq, binding_found ht₁ hva hpte hfind, if_neg hfree]
  · rw [binding_store ht₁ hfind hpte hva _ hva', hsame va hva', if_pos (or_valid _), decode, hentry,
      pte2pa_entry _ _ hpa hperm, pteFlags_entry _ _ hperm]

theorem add_page {s : Nat} (hva : a.toNat < Xv6.maxVa) (ha : a.toNat = s * pgSize) :
    (a + Word.page).toNat = (s + 1) * pgSize := by
  rw [UInt64.toNat_add, Word.page_toNat, ha, Nat.add_mul, Nat.one_mul]
  refine Nat.mod_eq_of_lt ?_
  simp only [Xv6.maxVa, pgSize] at hva ha ⊢
  omega

theorem add_page_aligned {pa : UInt64} (hpa : pa.toNat % pgSize = 0) : (pa + Word.page).toNat % pgSize = 0 := by
  rw [UInt64.toNat_add, Word.page_toNat]
  simp only [pgSize] at hpa ⊢
  omega

theorem mappagesLoop_binds {perm : Int32} {last pa : UInt64} {fuel s l : Nat} {r : Int} (ht : Tree m pagetable)
    (hs : Stocked m 2 (root pagetable)) (ha : a.toNat = s * pgSize) (hlast : last.toNat = l * pgSize) (hle : s ≤ l)
    (hpa : pa.toNat % pgSize = 0) (hperm : (permBits perm ||| pteV).toNat < 2 ^ 10)
    (h : mappagesLoop perm last fuel m pagetable a pa = .ok (r, m')) :
    Tree m' pagetable ∧ Stocked m' 2 (root pagetable) ∧
      ∃ k, ((r = 0 ∧ k = l + 1 - s) ∨ (r = -1 ∧ k < l + 1 - s)) ∧
        Binds m m' pagetable s k pa (permBits perm ||| pteV) := by
  induction fuel generalizing m a pa s with
  | zero => cases h
  | succ fuel ih =>
    obtain ⟨⟨o, m₁⟩, hwalk, h⟩ := Except.bind_ok_iff.1 h
    obtain ⟨hva, ht₁, hs₁, hsame, -⟩ := walk_alloc ht hs hwalk
    cases o with
    | none =>
      cases h
      exact ⟨ht₁, hs₁, 0, .inr ⟨rfl, by omega⟩, .nothing hsame⟩
    | some pte =>
      dsimp only at h
      split at h
      · cases h
      rename_i hfree
      obtain ⟨ht₂, hs₂, hnone, hone⟩ := mapPage ht hs hwalk hfree hpa hperm
      rw [ha, Nat.mul_div_cancel _ (by decide)] at hnone hone
      split at h
      · rename_i heq
        cases h
        have hsl : s = l := by
          rw [heq, hlast] at ha
          exact (Nat.eq_of_mul_eq_mul_right (by decide) ha).symm
        exact ⟨ht₂, hs₂, 1, .inl ⟨rfl, by omega⟩, .cons hnone hone (.nothing fun _ _ => rfl)⟩
      · rename_i hne
        have hlt : s < l := by
          refine lt_of_le_of_ne hle fun heq => hne (UInt64.toNat_inj.1 ?_)
          rw [ha, hlast, heq]
        obtain ⟨ht', hs', k, hk, hbinds⟩ := ih ht₂ hs₂ (add_page hva ha) hlt (add_page_aligned hpa) h
        exact ⟨ht', hs', k + 1, by omega, .cons hnone hone hbinds⟩

/-- The loop over pages that are not bound comes back. -/
theorem mappagesLoop_returns {perm : Int32} {last pa : UInt64} {fuel s l : Nat} (ht : Tree m pagetable)
    (hs : Stocked m 2 (root pagetable)) (ha : a.toNat = s * pgSize) (hlast : last.toNat = l * pgSize) (hle : s ≤ l)
    (hmax : l * pgSize < Xv6.maxVa) (hfuel : l - s < fuel) (hpa : pa.toNat % pgSize = 0)
    (hperm : (permBits perm ||| pteV).toNat < 2 ^ 10)
    (hfree : ∀ va : UInt64, s ≤ va.toNat / pgSize → va.toNat / pgSize ≤ l → binding m pagetable va = none) :
    ∃ r m', mappagesLoop perm last fuel m pagetable a pa = .ok (r, m') := by
  induction fuel generalizing m a pa s with
  | zero => omega
  | succ fuel ih =>
    have hva : a.toNat < Xv6.maxVa := by
      rw [ha]
      exact (Nat.mul_le_mul_right _ hle).trans_lt hmax
    have hpage : a.toNat / pgSize = s := by rw [ha, Nat.mul_div_cancel _ (by decide)]
    have hwalk := walk_of_lt m pagetable true hva
    generalize walkFrom true 2 m pagetable a = res at hwalk
    obtain ⟨o, m₁⟩ := res
    rw [mappagesLoop]
    cases o with
    | none => exact ⟨-1, m₁, Except.bind_ok_iff.2 ⟨_, hwalk, rfl⟩⟩
    | some pte =>
      obtain ⟨-, ht₁, -, hsame, hfound⟩ := walk_alloc ht hs hwalk
      obtain ⟨q, hpte, hfind⟩ := hfound pte rfl
      have hinvalid : ¬ load m₁ pte &&& pteV ≠ 0 := fun hv => by
        have hbound := binding_found ht₁ hva hpte hfind
        rw [hsame a hva, hfree a (by omega) (by omega), if_pos hv] at hbound
        cases hbound
      obtain ⟨ht₂, hs₂, -, hone⟩ := mapPage ht hs hwalk hinvalid hpa hperm
      suffices hrest : ∃ r m', (if a = last then .ok (0, store m₁ pte (pa2pte pa ||| permBits perm ||| pteV)) else
          mappagesLoop perm last fuel (store m₁ pte (pa2pte pa ||| permBits perm ||| pteV)) pagetable (a + Word.page)
            (pa + Word.page) : Except Panic (Int × Mem)) = .ok (r, m') by
        obtain ⟨r, m', hrun⟩ := hrest
        refine ⟨r, m', Except.bind_ok_iff.2 ⟨_, hwalk, ?_⟩⟩
        dsimp only
        rw [if_neg hinvalid]
        exact hrun
      split
      · exact ⟨_, _, rfl⟩
      · rename_i hne
        have hlt : s < l := by
          refine lt_of_le_of_ne hle fun heq => hne (UInt64.toNat_inj.1 ?_)
          rw [ha, hlast, heq]
        refine ih ht₂ hs₂ (add_page hva ha) hlt (by omega) (add_page_aligned hpa) fun va hlo hhi => ?_
        have hva' : va.toNat < Xv6.maxVa := by
          simp only [Xv6.maxVa, pgSize] at *
          omega
        rw [hone va hva', hpage, if_neg (by omega)]
        exact hfree va (by omega) hhi

end Sv39

end Xv6
