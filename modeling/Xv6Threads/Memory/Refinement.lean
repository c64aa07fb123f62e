-- SUMMARY: uvmunmap removes bindings, freewalk frees a table without bindings, and tables refine partial maps.
import Xv6Threads.Memory.Bindings

/-!
# The refinement

The maps that tables stand for are removed from by `uvmunmap`, page by page; what
`freewalk` then gives back are the pages of the trie, each of them once.
-/

namespace Xv6

namespace Sv39

open Trie Weight

variable {m m' m₁ : Mem} {pagetable va a : UInt64} {n : Nat} {p c f q : Ppn} {i j : Fin 512} {ix : Nat → Fin 512}

/-! ## uvmunmap -/

section Congr

variable (ht : Tree m pagetable) (h : ∀ f, Holds (link m) 2 (root pagetable) f → m'.data f = m.data f)

include ht h

theorem Tree.congr : Tree m' pagetable := by
  refine ⟨ht.aligned, fun f => ?_, ht.pointers.congr fun f hf => h f hf.holds, fun i hi => ?_⟩
  · rw [weigh_congr (links_congr h)]
    exact ht.distinct f
  · rw [entry_congr (h _ .root)]
    exact ht.below i hi

theorem binding_congr (hva : va.toNat < Xv6.maxVa) : binding m' pagetable va = binding m pagetable va := by
  rw [binding_eq (ht.congr h) hva, binding_eq ht hva, leafAt_congr h]

end Congr

/-- `uvmunmap` can remove a binding: it is marked as a leaf, and a frame that is
to be freed belongs to the allocator and holds no part of the table. -/
def Unbindable (m : Mem) (pagetable : UInt64) (doFree : Bool) (e : UInt64 × UInt64) : Prop :=
  e.2 ≠ pteV ∧ (doFree = true → m.InRange (e.1.toNat / pgSize) ∧ ¬ Holds (link m) 2 (root pagetable) (e.1.toNat / pgSize))

/-- The `n` pages from page `s` on are bound no more; no other binding has changed. -/
def Unbinds (m m' : Mem) (pagetable : UInt64) (s n : Nat) : Prop :=
  ∀ va : UInt64, va.toNat < Xv6.maxVa → binding m' pagetable va =
    if s ≤ va.toNat / pgSize ∧ va.toNat / pgSize < s + n then none else binding m pagetable va

theorem uvmunmapLoop_unbinds {doFree : Bool} {bound : UInt64} {fuel s : Nat} (ht : Tree m pagetable)
    (ha : a.toNat = s * pgSize) (hbound : bound.toNat = (s + n) * pgSize) (hmax : (s + n) * pgSize ≤ Xv6.maxVa)
    (hfuel : n < fuel)
    (hpages : ∀ va : UInt64, s ≤ va.toNat / pgSize → va.toNat / pgSize < s + n →
      ∃ e, binding m pagetable va = some e ∧ Unbindable m pagetable doFree e) :
    ∃ m', uvmunmapLoop doFree bound fuel m pagetable a = .ok m' ∧ Tree m' pagetable ∧ Unbinds m m' pagetable s n := by
  induction fuel generalizing m a s n with
  | zero => omega
  | succ fuel ih =>
    rw [uvmunmapLoop]
    cases n with
    | zero =>
      have hdone : ¬ a < bound := by
        rw [UInt64.lt_iff_toNat_lt, ha, hbound, Nat.add_zero]
        exact Nat.lt_irrefl _
      rw [if_neg hdone]
      exact ⟨m, rfl, ht, fun va _ => (if_neg (by omega)).symm⟩
    | succ n =>
      have hmore : a < bound := by
        rw [UInt64.lt_iff_toNat_lt, ha, hbound]
        exact Nat.mul_lt_mul_of_pos_right (by omega) (by decide)
      have hva : a.toNat < Xv6.maxVa := by
        rw [UInt64.lt_iff_toNat_lt, hbound] at hmore
        omega
      have hpage : a.toNat / pgSize = s := by rw [ha, Nat.mul_div_cancel _ (by decide)]
      obtain ⟨e, he, hleaf, hframe⟩ := hpages a (by omega) (by omega)
      obtain ⟨o, hrun, ⟨rfl, hfind⟩ | ⟨pte, q, rfl, hpte, hfind⟩⟩ :=
        walkFrom_find m a (Nat.le_refl 2) ht.root_toNat
      · rw [binding_eq ht hva, leafAt, hfind] at he
        cases he
      have hwalk : walk m pagetable a false = .ok (some pte, m) := by rw [walk_of_lt m pagetable false hva, hrun]
      rw [binding_found ht hva hpte hfind] at he
      have hvalid : load m pte &&& pteV ≠ 0 := fun hv => by
        rw [if_neg (not_not.2 hv)] at he
        cases he
      rw [if_pos hvalid] at he
      cases he
      -- the frame is freed, and then the entry is cleared
      obtain ⟨m₁, hfree, hkend, hdata⟩ : ∃ m₁, (if doFree then m.kfree ((pte2pa (load m pte)).toNat / pgSize) else
          .ok m : Except Panic Mem) = .ok m₁ ∧ m₁.kend = m.kend ∧
            ∀ f, Holds (link m) 2 (root pagetable) f → m₁.data f = m.data f := by
        cases doFree with
        | false => exact ⟨m, rfl, rfl, fun _ _ => rfl⟩
        | true =>
          obtain ⟨hrange, hnot⟩ := hframe rfl
          refine ⟨_, Mem.kfree_of_inRange hrange, rfl, fun f hf => if_neg fun heq => hnot ?_⟩
          rw [heq] at hf
          exact hf
      have ht₁ := ht.congr hdata
      have hfind₁ : find (link m₁) (path a) 2 (root pagetable) = some q := (find_congr (links_congr hdata)).trans hfind
      have ht₂ := ht₁.store hfind₁ hpte 0
      have hstore : ∀ va : UInt64, va.toNat < Xv6.maxVa → binding (store m₁ pte 0) pagetable va =
          if va.toNat / pgSize = s then none else binding m pagetable va := by
        intro va hva'
        rw [binding_store ht₁ hfind₁ hpte hva 0 hva', hpage, binding_congr ht hdata hva']
        split
        · exact if_neg (by decide)
        · rfl
      have hholds : ∀ f, Holds (link (store m₁ pte 0)) 2 (root pagetable) f ↔ Holds (link m) 2 (root pagetable) f := by
        intro f
        rw [Holds.congr fun g hg => link_congr (store_links ht₁.distinct hfind₁ hpte 0 g hg), Holds.congr (links_congr hdata)]
      obtain ⟨m', hrest, ht', hunbinds⟩ := ih (n := n) ht₂ (add_page hva ha) (by rw [hbound]; congr 1; omega)
        (by rw [show s + 1 + n = s + (n + 1) by omega]; exact hmax) (by omega) fun va hlo hhi => by
          obtain ⟨e, he, hleaf, hframe⟩ := hpages va (by omega) (by omega)
          have hva' : va.toNat < Xv6.maxVa := by
            simp only [Xv6.maxVa, pgSize] at *
            omega
          refine ⟨e, ?_, hleaf, fun hfree => ?_⟩
          · rw [hstore va hva', if_neg (by omega), he]
          · obtain ⟨hrange, hnot⟩ := hframe hfree
            refine ⟨?_, fun hh => hnot ((hholds _).1 hh)⟩
            rw [Mem.InRange, store_kend, hkend]
            exact hrange
      refine ⟨m', ?_, ht', fun va hva' => ?_⟩
      · rw [if_pos hmore]
        refine Except.bind_ok_iff.2 ⟨_, hwalk, ?_⟩
        have hflags : ¬ pteFlags (load m pte) = pteV := hleaf
        dsimp only
        rw [if_neg hvalid, if_neg hflags]
        exact Except.bind_ok_iff.2 ⟨m₁, hfree, hrest⟩
      · rw [hunbinds va hva', hstore va hva']
        by_cases hs : va.toNat / pgSize = s
        · rw [if_neg (by omega), if_pos hs, if_pos (by omega)]
        · by_cases hin : s + 1 ≤ va.toNat / pgSize ∧ va.toNat / pgSize < s + 1 + n
          · rw [if_pos hin, if_pos (by omega)]
          · rw [if_neg hin, if_neg hs, if_neg (by omega)]

/-! ## freewalk -/

theorem slot_index (hp : pagetable.toNat = p * pgSize) (i : Fin 512) :
    (pagetable + 8 * UInt64.ofNat i).toNat = p * pgSize + 8 * i := by
  refine slot_toNat hp (UInt64.toNat_ofNat_of_lt' ?_)
  have hsize : UInt64.size = 2 ^ 64 := rfl
  omega

/-- The trie at a page was freed, page by page; nothing else was touched. -/
structure Sweeps (m m' : Mem) (n : Nat) (p : Ppn) : Prop where
  kend : m'.kend = m.kend
  freed : ∀ w, m'.weigh w = m.weigh w + weigh (link m) w n p
  frame : ∀ f, ¬ Holds (link m) n p f → m'.data f = m.data f

/-- A trie without leaves whose pages `kfree` accepts. -/
structure Bare (m : Mem) (n : Nat) (p : Ppn) : Prop where
  distinct : Distinct (link m) n p
  pointers : Pointers m n p
  leaves : ∀ ix, leafAt m ix n p = none
  ranged : ∀ f, Holds (link m) n p f → m.InRange f

theorem Bare.child (h : Bare m (n + 1) p) (hlink : link m p i = some c) : Bare m n c where
  distinct := h.distinct.child hlink
  pointers f hf := h.pointers f (.child hlink hf)
  leaves ix := by
    -- the path that enters at `i` and goes on as `ix`
    obtain ⟨jx, htop, hrest⟩ : ∃ jx : Nat → Fin 512, jx (n + 1) = i ∧ ∀ k ≤ n, ix k = jx k :=
      ⟨Function.update ix (n + 1) i, Function.update_self .., fun k hk => (Function.update_of_ne (by omega) ..).symm⟩
    have hpath := h.leaves jx
    rw [leafAt_succ (htop ▸ hlink)] at hpath
    rw [← hpath, leafAt, leafAt, find_path fun k _ hk => hrest k hk, hrest 0 (Nat.zero_le _)]
  ranged f hf := h.ranged f (.child hlink hf)

theorem Bare.congr (h : Bare m n p) (hkend : m'.kend = m.kend) (hdata : ∀ f, Holds (link m) n p f → m'.data f = m.data f) :
    Bare m' n p where
  distinct f := by
    rw [weigh_congr (links_congr hdata)]
    exact h.distinct f
  pointers := h.pointers.congr fun f hf => hdata f hf.holds
  leaves ix := by rw [leafAt_congr hdata, h.leaves]
  ranged f hf := by
    rw [Holds.congr (links_congr hdata)] at hf
    rw [Mem.InRange, hkend]
    exact h.ranged f hf

/-- The loop of `freewalk` over the entries in `l`, with what it does to a page below. -/
theorem freewalk_loop (below : Mem → UInt64 → Except Panic Mem) (hp : pagetable.toNat = p * pgSize)
    (hbare : Bare m (n + 1) p)
    (hbelow : ∀ (m₁ : Mem) (c : Ppn) (pt : UInt64), pt.toNat = c * pgSize → Bare m₁ n c →
      ∃ m₂, below m₁ pt = .ok m₂ ∧ Sweeps m₁ m₂ n c) (l : List (Fin 512)) (hl : l.Nodup) (hkend : m₁.kend = m.kend)
    (hhere : ∀ i ∈ l, entry m₁ p i = entry m p i)
    (hthere : ∀ i ∈ l, ∀ c, link m p i = some c → ∀ f, Holds (link m) n c f → m₁.data f = m.data f) :
    ∃ m₂, l.foldlM (freewalkEntry below pagetable) m₁ = .ok m₂ ∧ m₂.kend = m.kend ∧
      (∀ w, m₂.weigh w = m₁.weigh w + (l.map fun i => (link m p i).elim 0 (weigh (link m) w n)).sum) ∧
      ∀ f, f ≠ p → (∀ i ∈ l, ∀ c, link m p i = some c → ¬ Holds (link m) n c f) → m₂.data f = m₁.data f := by
  induction l generalizing m₁ with
  | nil => exact ⟨m₁, rfl, hkend, fun w => rfl, fun _ _ _ => rfl⟩
  | cons i l ih =>
    obtain ⟨hi, hl⟩ := List.nodup_cons.1 hl
    have hslot := slot_index hp i
    have hload : load m₁ (pagetable + 8 * UInt64.ofNat i) = entry m p i := by
      rw [load_slot hslot, hhere i (List.mem_cons_self ..)]
    rw [List.foldlM_cons]
    by_cases hv : entry m p i &&& pteV ≠ 0
    · have hlink := link_some hv
      generalize hc : (pte2pa (entry m p i)).toNat / pgSize = c at hlink
      have hframe : (pte2pa (entry m p i)).toNat = c * pgSize := hc ▸ frame_toNat _
      have hchild := hbare.child hlink
      have hsame := hthere i (List.mem_cons_self ..) c hlink
      obtain ⟨m₂, hrun, hsweep⟩ := hbelow m₁ c _ hframe (hchild.congr hkend hsame)
      have hweigh : ∀ w, weigh (link m₁) w n c = weigh (link m) w n c := fun w => weigh_congr (links_congr hsame)
      have hholds : ∀ f, Holds (link m₁) n c f ↔ Holds (link m) n c f := fun f => Holds.congr (links_congr hsame)
      have hp₂ : m₂.data p = m₁.data p :=
        hsweep.frame p fun hh => hbare.distinct.root_notin hlink ((hholds p).1 hh)
      generalize hm₃ : store m₂ (pagetable + 8 * UInt64.ofNat i) 0 = m₃
      have hentry₃ : ∀ j, j ≠ i → entry m₃ p j = entry m₁ p j := by
        intro j hj
        rw [← hm₃, entry_store hslot, if_neg (by simp [hj]), entry_congr hp₂]
      have hdata₃ : ∀ f, f ≠ p → ¬ Holds (link m) n c f → m₃.data f = m₁.data f := by
        intro f hf hnot
        rw [← hm₃, store_data hslot hf, hsweep.frame f fun hh => hnot ((hholds f).1 hh)]
      have hkend₃ : m₃.kend = m.kend := by rw [← hm₃, store_kend, hsweep.kend, hkend]
      obtain ⟨m', hrest, hkend', hfreed, hframe'⟩ := ih hl hkend₃
        (fun j hj => by
          rw [hentry₃ j fun heq => hi (heq ▸ hj)]
          exact hhere j (List.mem_cons_of_mem _ hj))
        fun j hj d hd f hf => by
          have hne : i ≠ j := fun heq => hi (heq ▸ hj)
          rw [hdata₃ f (fun heq => hbare.distinct.root_notin hd (heq ▸ hf))
            fun hh => hbare.distinct.apart hne hlink hd hh hf]
          exact hthere j (List.mem_cons_of_mem _ hj) d hd f hf
      refine ⟨m', ?_, hkend', fun w => ?_, fun f hf hnot => ?_⟩
      · refine Except.bind_ok_iff.2 ⟨m₃, ?_, hrest⟩
        rw [freewalkEntry, hload]
        rw [if_pos ⟨hv, hbare.pointers p .root i hv⟩]
        exact Except.bind_ok_iff.2 ⟨m₂, hrun, congrArg Except.ok hm₃⟩
      · rw [hfreed, ← hm₃, weigh_store, hsweep.freed, hweigh, List.map_cons, List.sum_cons, hlink, Option.elim_some,
          Nat.add_assoc]
      · rw [hframe' f hf fun j hj d hd => hnot j (List.mem_cons_of_mem _ hj) d hd,
          hdata₃ f hf (hnot i (List.mem_cons_self ..) c hlink)]
    · have hlink := link_none hv
      obtain ⟨m', hrest, hkend', hfreed, hframe'⟩ := ih hl hkend
        (fun j hj => hhere j (List.mem_cons_of_mem _ hj)) fun j hj => hthere j (List.mem_cons_of_mem _ hj)
      refine ⟨m', ?_, hkend', fun w => ?_, fun f hf hnot => hframe' f hf fun j hj => hnot j (List.mem_cons_of_mem _ hj)⟩
      · refine Except.bind_ok_iff.2 ⟨m₁, ?_, hrest⟩
        rw [freewalkEntry, hload]
        rw [if_neg fun h => hv h.1, if_neg hv]
      · rw [hfreed, List.map_cons, List.sum_cons, hlink, Option.elim_none, Nat.zero_add]

theorem freewalk_sweeps {fuel : Nat} (hfuel : n < fuel) (hp : pagetable.toNat = p * pgSize) (hbare : Bare m n p) :
    ∃ m', freewalk fuel m pagetable = .ok m' ∧ Sweeps m m' n p := by
  obtain ⟨fuel, rfl⟩ : ∃ k, fuel = k + 1 := ⟨fuel - 1, by omega⟩
  have hpage : pagetable.toNat / pgSize = p := by rw [hp, Nat.mul_div_cancel _ (by decide)]
  induction n generalizing fuel m pagetable p with
  | zero =>
    have hinvalid : ∀ i, ¬ entry m p i &&& pteV ≠ 0 := fun i hv => by
      have hnone := hbare.leaves fun _ => i
      rw [leafAt, find, Option.bind_some, if_pos hv] at hnone
      cases hnone
    have hloop : ∀ l : List (Fin 512), l.foldlM (freewalkEntry (freewalk fuel) pagetable) m = .ok m := by
      intro l
      induction l with
      | nil => rfl
      | cons i l ih =>
        rw [List.foldlM_cons]
        refine Except.bind_ok_iff.2 ⟨m, ?_, ih⟩
        rw [freewalkEntry, load_slot (slot_index hp i)]
        rw [if_neg fun h => hinvalid i h.1, if_neg (hinvalid i)]
    rw [freewalk, hpage]
    refine ⟨_, Except.bind_ok_iff.2 ⟨m, hloop _, Mem.kfree_of_inRange (hbare.ranged p .root)⟩, rfl, fun w => ?_,
      fun f hf => if_neg fun heq : f = p => hf (heq ▸ .root)⟩
    rw [Mem.weigh, Weight.ofList_cons, weigh]
    exact Nat.add_comm ..
  | succ n ih =>
    obtain ⟨fuel, rfl⟩ : ∃ k, fuel = k + 1 := ⟨fuel - 1, by omega⟩
    obtain ⟨m₂, hrun, hkend, hfreed, hframe⟩ := freewalk_loop (freewalk (fuel + 1)) hp hbare
      (fun m₁ c pt hpt hb => ih hpt hb fuel (by omega) (by rw [hpt, Nat.mul_div_cancel _ (by decide)]))
      (List.finRange 512) (List.nodup_finRange 512) (Eq.refl m.kend) (fun _ _ => rfl) fun _ _ _ _ _ _ => rfl
    have hrange : m₂.InRange p := by
      rw [Mem.InRange, hkend]
      exact hbare.ranged p .root
    rw [freewalk, hpage]
    refine ⟨_, Except.bind_ok_iff.2 ⟨m₂, hrun, Mem.kfree_of_inRange hrange⟩, hkend, fun w => ?_, fun f hf => ?_⟩
    · have := hfreed w
      rw [← Fin.sum_univ_def] at this
      rw [Mem.weigh, Weight.ofList_cons, weigh]
      rw [Mem.weigh] at this
      omega
    · have hne : f ≠ p := fun heq => hf (heq ▸ .root)
      rw [← hframe f hne fun i _ c hlink hh => hf (.child hlink hh)]
      exact if_neg hne

/-! ## Tables and maps -/

/-- Page `f` is one of the pages of the table. -/
def InTable (m : Mem) (pagetable : UInt64) (f : Ppn) : Prop := Holds (link m) 2 (root pagetable) f

/-- The number of pages that cover `size` bytes from `va` on. -/
def pageCount (va size : UInt64) : Nat := (va.toNat + size.toNat - 1) / pgSize + 1 - va.toNat / pgSize

/-- A table without bindings has no leaf at the end of any path. -/
theorem bare_of_unbound (ht : Tree m pagetable)
    (hnone : ∀ va : UInt64, va.toNat < Xv6.maxVa → binding m pagetable va = none)
    (hrange : ∀ f, InTable m pagetable f → m.InRange f) : Bare m 2 (root pagetable) := by
  refine ⟨ht.distinct, ht.pointers, fun ix => ?_, hrange⟩
  by_cases hlow : (ix 2).val < 256
  · -- the address whose indices these are
    have h1 := (ix 1).isLt
    have h0 := (ix 0).isLt
    have hsize : UInt64.size = 2 ^ 64 := rfl
    obtain ⟨va, hva⟩ : ∃ va : UInt64, va.toNat = ((ix 2 * 512 + ix 1) * 512 + ix 0) * pgSize :=
      ⟨.ofNat (((ix 2 * 512 + ix 1) * 512 + ix 0) * pgSize), UInt64.toNat_ofNat_of_lt' (by simp only [pgSize]; omega)⟩
    have hlt : va.toNat < Xv6.maxVa := by
      simp only [hva, pgSize, Xv6.maxVa]
      omega
    have hpath : ∀ k ≤ 2, ix k = path va k := by
      intro k hk
      apply Fin.ext
      simp only [path, Xv6.px, hva, pgSize]
      obtain rfl | rfl | rfl : k = 0 ∨ k = 1 ∨ k = 2 := by omega
      all_goals
        norm_num
        omega
    have hleaf := binding_eq ht hlt
    rw [hnone va hlt, eq_comm, Option.map_eq_none_iff] at hleaf
    rw [← hleaf, leafAt, leafAt, find_path fun k _ hk => hpath k hk, hpath 0 (Nat.zero_le _)]
  · exact leafAt_none (link_none (ht.below (ix 2) (by omega)))

theorem last_toNat {va size : UInt64} (hsize : 0 < size.toNat) (hwrap : va.toNat + size.toNat ≤ 2 ^ 64) :
    (Word.roundDown (va + size - 1)).toNat = (va.toNat + size.toNat - 1) / pgSize * pgSize := by
  have hone : (1 : UInt64).toNat = 1 := rfl
  have hlast : (va + size - 1).toNat = va.toNat + size.toNat - 1 := by
    rw [UInt64.toNat_sub, UInt64.toNat_add, hone]
    omega
  rw [Word.roundDown_toNat, hlast, pgRoundDown]

theorem flags_lt {perm : Int32} (h : (permBits perm).toNat < 2 ^ 10) : (permBits perm ||| pteV).toNat < 2 ^ 10 := by
  rw [UInt64.toNat_or]
  exact Nat.or_lt_two_pow h (by decide)

theorem mappages_binds {va size pa : UInt64} {perm : Int32} {r : Int} (ht : Tree m pagetable)
    (hs : Stocked m 2 (root pagetable)) (hpa : pa.toNat % pgSize = 0) (hwrap : va.toNat + size.toNat ≤ 2 ^ 64)
    (hperm : (permBits perm).toNat < 2 ^ 10) (h : mappages m pagetable va size pa perm = .ok (r, m')) :
    Tree m' pagetable ∧ Stocked m' 2 (root pagetable) ∧
      ∃ k, ((r = 0 ∧ k = pageCount va size) ∨ (r = -1 ∧ k < pageCount va size)) ∧
        Binds m m' pagetable (va.toNat / pgSize) k pa (permBits perm ||| pteV) := by
  rw [mappages] at h
  split at h
  · cases h
  rename_i hne
  have hsize : 0 < size.toNat := Nat.pos_of_ne_zero fun hzero => hne (UInt64.toNat_inj.1 hzero)
  have hle : va.toNat / pgSize ≤ (va.toNat + size.toNat - 1) / pgSize := Nat.div_le_div_right (by omega)
  exact mappagesLoop_binds ht hs (Word.roundDown_toNat va) (last_toNat hsize hwrap) hle hpa (flags_lt hperm) h

theorem mappages_returns {va size pa : UInt64} {perm : Int32} (ht : Tree m pagetable)
    (hs : Stocked m 2 (root pagetable)) (hpa : pa.toNat % pgSize = 0) (hsize : 0 < size.toNat)
    (hmax : va.toNat + size.toNat ≤ Xv6.maxVa) (hperm : (permBits perm).toNat < 2 ^ 10)
    (hfree : ∀ a : UInt64, va.toNat / pgSize ≤ a.toNat / pgSize → a.toNat / pgSize < va.toNat / pgSize + pageCount va size →
      binding m pagetable a = none) :
    ∃ r m', mappages m pagetable va size pa perm = .ok (r, m') := by
  have hlimit : Xv6.maxVa = rounds * pgSize - pgSize := by decide
  have hwrap : va.toNat + size.toNat ≤ 2 ^ 64 := hmax.trans (by decide)
  have hne : size ≠ 0 := fun hzero => by
    rw [hzero] at hsize
    exact absurd hsize (by decide)
  rw [mappages, if_neg hne]
  refine mappagesLoop_returns ht hs (Word.roundDown_toNat va) (last_toNat hsize hwrap)
    (Nat.div_le_div_right (by omega)) ?_ ?_ hpa (flags_lt hperm) fun a hlo hhi => hfree a hlo ?_
  · have := Nat.div_mul_le_self (va.toNat + size.toNat - 1) pgSize
    omega
  · simp only [rounds, Xv6.maxVa, pgSize] at *
    omega
  · rw [pageCount]
    omega

theorem uvmunmap_unbinds {va npages : UInt64} {doFree : Bool} (ht : Tree m pagetable) (hva : va.toNat % pgSize = 0)
    (hmax : va.toNat + npages.toNat * pgSize ≤ Xv6.maxVa)
    (hpages : ∀ a : UInt64, va.toNat / pgSize ≤ a.toNat / pgSize → a.toNat / pgSize < va.toNat / pgSize + npages.toNat →
      ∃ e, binding m pagetable a = some e ∧ Unbindable m pagetable doFree e) :
    ∃ m', uvmunmap m pagetable va npages doFree = .ok m' ∧ Tree m' pagetable ∧
      Unbinds m m' pagetable (va.toNat / pgSize) npages.toNat := by
  have halign : ¬ va % Word.page ≠ 0 := fun hne => hne (UInt64.toNat_inj.1 hva)
  have hstart : va.toNat = va.toNat / pgSize * pgSize := by
    have := Nat.div_add_mod' va.toNat pgSize
    omega
  have hbound : (va + npages * Word.page).toNat = (va.toNat / pgSize + npages.toNat) * pgSize := by
    have hword : Xv6.maxVa < 2 ^ 64 := by decide
    rw [UInt64.toNat_add, UInt64.toNat_mul, Word.page_toNat, Nat.add_mul, ← hstart,
      Nat.mod_eq_of_lt (show npages.toNat * pgSize < 2 ^ 64 by omega), Nat.mod_eq_of_lt (by omega)]
  rw [uvmunmap, if_neg halign]
  refine uvmunmapLoop_unbinds ht hstart hbound ?_ ?_ hpages
  · rw [Nat.add_mul, ← hstart]
    exact hmax
  · simp only [rounds, Xv6.maxVa, pgSize] at *
    omega

theorem freewalk_frees {fuel : Nat} (ht : Tree m pagetable)
    (hnone : ∀ va : UInt64, va.toNat < Xv6.maxVa → binding m pagetable va = none)
    (hrange : ∀ f, InTable m pagetable f → m.InRange f) (hfuel : 2 < fuel) :
    ∃ m', freewalk fuel m pagetable = .ok m' ∧
      (∀ f, InTable m pagetable f → m'.freelist.count f = m.freelist.count f + 1) ∧
      ∀ f, ¬ InTable m pagetable f → m'.freelist.count f = m.freelist.count f := by
  obtain ⟨m', hrun, hsweep⟩ := freewalk_sweeps hfuel ht.root_toNat (bare_of_unbound ht hnone hrange)
  have hcount : ∀ f, m'.freelist.count f = m.freelist.count f + weigh (link m) (single f) 2 (root pagetable) := by
    intro f
    have := hsweep.freed (single f)
    rwa [Mem.weigh, Mem.weigh, ofList_single, ofList_single] at this
  refine ⟨m', hrun, fun f hf => ?_, fun f hf => ?_⟩
  · have hpos := holds_iff.1 hf
    have hone := ht.distinct f
    rw [hcount]
    omega
  · rw [hcount, weigh_eq_zero hf, Nat.add_zero]

/-- Tables refine partial maps: `mappages` adds the bindings of consecutive pages,
or some of the first of them; `uvmunmap` removes what it is asked to remove;
and `freewalk` frees each page of a table without bindings once. -/
theorem tables_refine_maps (m : Mem) (pagetable : UInt64) (ht : Tree m pagetable) :
    (∀ (va size pa : UInt64) (perm : Int32), Stocked m 2 (root pagetable) → pa.toNat % pgSize = 0 →
      (permBits perm).toNat < 2 ^ 10 →
      (va.toNat + size.toNat ≤ 2 ^ 64 → ∀ r m', mappages m pagetable va size pa perm = .ok (r, m') →
        Tree m' pagetable ∧ Stocked m' 2 (root pagetable) ∧
          ∃ k, ((r = 0 ∧ k = pageCount va size) ∨ (r = -1 ∧ k < pageCount va size)) ∧
            Binds m m' pagetable (va.toNat / pgSize) k pa (permBits perm ||| pteV)) ∧
      (0 < size.toNat → va.toNat + size.toNat ≤ Xv6.maxVa →
        (∀ a : UInt64, va.toNat / pgSize ≤ a.toNat / pgSize →
          a.toNat / pgSize < va.toNat / pgSize + pageCount va size → binding m pagetable a = none) →
        ∃ r m', mappages m pagetable va size pa perm = .ok (r, m'))) ∧
    (∀ (va npages : UInt64) (doFree : Bool), va.toNat % pgSize = 0 → va.toNat + npages.toNat * pgSize ≤ Xv6.maxVa →
      (∀ a : UInt64, va.toNat / pgSize ≤ a.toNat / pgSize → a.toNat / pgSize < va.toNat / pgSize + npages.toNat →
        ∃ e, binding m pagetable a = some e ∧ Unbindable m pagetable doFree e) →
      ∃ m', uvmunmap m pagetable va npages doFree = .ok m' ∧ Tree m' pagetable ∧
        Unbinds m m' pagetable (va.toNat / pgSize) npages.toNat) ∧
    ((∀ va : UInt64, va.toNat < Xv6.maxVa → binding m pagetable va = none) →
      (∀ f, InTable m pagetable f → m.InRange f) → ∀ fuel, 2 < fuel →
      ∃ m', freewalk fuel m pagetable = .ok m' ∧
        (∀ f, InTable m pagetable f → m'.freelist.count f = m.freelist.count f + 1) ∧
        ∀ f, ¬ InTable m pagetable f → m'.freelist.count f = m.freelist.count f) := by
  refine ⟨fun va size pa perm hs hpa hperm => ⟨fun hwrap r m' h => mappages_binds ht hs hpa hwrap hperm h,
    fun hsize hmax hfree => mappages_returns ht hs hpa hsize hmax hperm hfree⟩,
    fun va npages doFree hva hmax hpages => uvmunmap_unbinds ht hva hmax hpages,
    fun hnone hrange fuel hfuel => freewalk_frees ht hnone hrange hfuel⟩

/-- Four free pages; every word of memory is zero. -/
def fresh : Mem := ⟨10, [11, 12, 13, 14], fun _ => 0, fun _ _ => 0⟩

theorem fresh_link (f : Ppn) (i : Fin 512) : link fresh f i = none := by
  refine link_none fun hv => hv ?_
  have hzero : entry fresh f i = 0 := by
    have hpeek : Bytes.peek (fresh.data f) (8 * i) 8 = 0 := Bytes.peek_zero
    rw [entry, hpeek]
    rfl
  rw [hzero]
  decide

theorem fresh_tree (h : pagetable.toNat % pgSize = 0) : Tree fresh pagetable := by
  refine ⟨h, fun f => ?_, ?_, fun i _ hv => ?_⟩
  · rw [weigh_bare (fresh_link _), single]
    split <;> omega
  · rintro f - i hv
    have hlink := link_some hv
    rw [fresh_link] at hlink
    cases hlink
  · have hlink := link_some hv
    rw [fresh_link] at hlink
    cases hlink

theorem fresh_stocked : Stocked fresh 2 20 := by
  refine ⟨by unfold Mem.Ranged; decide, fun f => ?_⟩
  have hnodup : (20 :: fresh.freelist).Nodup := by decide
  have hone := Weight.nodup_iff.1 hnodup f
  rw [Weight.ofList_cons] at hone
  rw [weigh_bare (fresh_link _), Mem.weigh]
  omega

/-- Two pages mapped in an empty table. -/
theorem tables_refine_maps_fresh : Tree fresh 0x14000 ∧ Stocked fresh 2 20 ∧
    (∀ r m', mappages fresh 0x14000 0x1800 0x1000 0x30000 6 = .ok (r, m') →
      Tree m' 0x14000 ∧ Stocked m' 2 20 ∧
        ∃ k, ((r = 0 ∧ k = 2) ∨ (r = -1 ∧ k < 2)) ∧ Binds fresh m' 0x14000 1 k 0x30000 7) :=
  ⟨fresh_tree rfl, fresh_stocked, fun r m' h =>
    ((tables_refine_maps fresh 0x14000 (fresh_tree rfl)).1 0x1800 0x1000 0x30000 6 fresh_stocked rfl (by decide)).1
      (by decide) r m' h⟩

/-- What the bounds are for. A range that wraps around is mapped as far as its last
byte says: the page at `0x2000` is left out. Bits of `perm` above the flags change
the frame. A page mapped without permissions cannot be unmapped. A frame that holds
a part of the table takes other bindings with it when it is freed. And `kfree` does
not accept a table outside the range of the allocator. -/
theorem tables_refine_maps_bounds : Tree fresh 0x14000 ∧ Stocked fresh 2 20 ∧ Tree fresh 0x5000 ∧
    (mappages fresh 0x14000 0x1fff 0xffffffffffffffff 0x30000 2).toOption.map (fun r => (r.1, binding r.2 0x14000 0x2000)) =
      some (0, none) ∧
    (mappages fresh 0x14000 0x1000 0x1000 0x30000 0x400).toOption.map (fun r => (r.1, binding r.2 0x14000 0x1000)) =
      some (0, some (0x31000, 1)) ∧
    (mappages fresh 0x14000 0x1000 0x1000 0x30000 0).toOption.map (fun r =>
      (binding r.2 0x14000 0x1000, (uvmunmap r.2 0x14000 0x1000 1 false).toOption.isSome)) =
      some (some (0x30000, 1), false) ∧
    ((mappages fresh 0x14000 0x1000 0x1000 0x30000 2).toOption.bind fun r =>
      (mappages r.2 0x14000 0x2000 0x1000 0xb000 2).toOption.bind fun r =>
        (uvmunmap r.2 0x14000 0x2000 1 true).toOption.map fun m =>
          (binding r.2 0x14000 0x1000, binding m 0x14000 0x1000)) = some (some (0x30000, 3), none) ∧
    (freewalk 3 fresh 0x5000).toOption.isSome = false := by
  refine ⟨fresh_tree rfl, fresh_stocked, fresh_tree rfl, ?_, ?_, ?_, ?_, ?_⟩ <;> decide +kernel

end Sv39

end Xv6
