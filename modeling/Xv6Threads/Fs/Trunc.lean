-- SUMMARY: Freeing blocks: bfree and the two loops of itrunc give back what an inode names and nothing else.
import Mathlib.Data.Set.Basic
import Xv6Threads.Fs.Contents

/-!
# Trunc

`bfree` stops the kernel when the block is free already. So `itrunc` relies on
the inode being sound: the blocks it names are in use and no two places name the
same one. The indirect block is read while its entries are freed, and is itself
freed last.
-/

namespace Xv6

/-- A locked inode as `itrunc` leaves it. -/
def Inode.emptied (ip : Inode) : Inode := { ip with size := 0, addrs := fun _ => 0 }

namespace Fs

variable {fs fs' fs'' : Fs} {b c : Nat} {d : Dinode} {ip : Inode} {S T : Set Nat}

/-! ## Frees -/

/-- The blocks in `S` are no longer in use; nothing else has changed in the free
map, in the data blocks or in the inodes. -/
structure Frees (fs : Fs) (S : Set Nat) (fs' : Fs) : Prop where
  sb : fs'.sb = fs.sb
  used : ∀ c, fs'.used c = true ↔ fs.used c = true ∧ c ∉ S
  data : ∀ c, fs.sb.datastart ≤ c → fs'.block c = fs.block c
  inodes : ∀ i < fs.sb.ninodes, fs'.dinode i = fs.dinode i

theorem Frees.refl (fs : Fs) : fs.Frees ∅ fs :=
  ⟨rfl, fun _ => ⟨fun h => ⟨h, Set.notMem_empty _⟩, And.left⟩, fun _ _ => rfl, fun _ _ => rfl⟩

theorem Frees.trans (h : fs.Frees S fs') (h' : fs'.Frees T fs'') : fs.Frees (S ∪ T) fs'' := by
  refine ⟨h'.sb.trans h.sb, fun c => ?_, fun c hc => ?_, fun i hi => ?_⟩
  · rw [h'.used, h.used, Set.mem_union, not_or, and_assoc]
  · rw [h'.data c (h.sb ▸ hc), h.data c hc]
  · rw [h'.inodes i (h.sb ▸ hi), h.inodes i hi]

theorem Frees.formatted (h : fs.Frees S fs') (hf : fs.Formatted) (hS : ∀ c ∈ S, fs.sb.datastart ≤ c) :
    fs'.Formatted := by
  refine ⟨h.sb ▸ hf.inodes, h.sb ▸ hf.maps, h.sb ▸ hf.size, fun c hc => ?_⟩
  rw [h.sb] at hc
  exact (h.used c).2 ⟨hf.metadata c hc, fun hmem => absurd (hS c hmem) (not_le.2 hc)⟩

theorem Frees.names (h : fs.Frees S fs') (hlow : fs.names d (.inl indirectIx) ≠ 0 → fs.sb.datastart ≤ d.addrs indirectIx)
    (p : Place) : fs'.names d p = fs.names d p :=
  names_congr (fun hne => h.data _ (hlow hne)) p

/-- An inode that names none of the freed blocks stays as it was. -/
theorem Frees.spares (h : fs.Frees S fs') (hs : fs.Sound d) (hout : ∀ p, fs.names d p ≠ 0 → fs.names d p ∉ S) :
    fs.Spares d fs' := by
  have hnames := h.names (hs.lower (.inl indirectIx))
  refine ⟨hnames, fun p hp => h.data _ (hs.lower p hp), hs.congr h.sb hnames fun p hp => ?_⟩
  exact (h.used _).2 ⟨hs.used p hp, hout p hp⟩

/-! ## bfree -/

/-- A data block in use can be freed. -/
theorem Formatted.bfree (hf : fs.Formatted) (hb : b < fs.sb.size) (hused : fs.used b = true) :
    ∃ fs', fs.bfree b = .ok fs' ∧ fs.Frees {b} fs' := by
  have hmap := bblock_lt hb
  have hmap' := fs.le_bblock b
  refine ⟨_, if_pos hused, rfl, fun c => ?_, fun c hc => logWrite_block_ne (by omega), fun i hi => ?_⟩
  · rw [used_logWrite_bblock (t := Bytes.clearBit) (g := fun _ => false)]
    · by_cases hcb : c = b <;> simp [hcb]
    · intro f i j
      rw [Bytes.getBit_clearBit]
      by_cases hji : j = i <;> simp [hji]
  · have hi' := hf.iblock_lt hi
    exact dinode_congr rfl (logWrite_block_ne (by omega))

/-- The blocks `f a` for `a` in `l`, where `0` is none. -/
def blocksOf {α : Type} (l : List α) (f : α → Nat) : Set Nat := {c | c ≠ 0 ∧ ∃ a ∈ l, f a = c}

/-- These blocks can be freed one after the other. -/
structure Freeable {α : Type} (fs : Fs) (l : List α) (f : α → Nat) : Prop where
  lower : ∀ a ∈ l, f a ≠ 0 → fs.sb.datastart ≤ f a
  upper : ∀ a ∈ l, f a ≠ 0 → f a < fs.sb.size
  used : ∀ a ∈ l, f a ≠ 0 → fs.used (f a) = true
  distinct : l.Pairwise fun a b => f a = f b → f a = 0

section Loops

variable {α : Type} {a : α} {l : List α} {f g : α → Nat}

theorem blocksOf_cons (a : α) (l : List α) (f : α → Nat) : blocksOf (a :: l) f = {c | c ≠ 0 ∧ f a = c} ∪ blocksOf l f := by
  ext c
  simp only [blocksOf, Set.mem_ofPred_eq, Set.mem_union, List.mem_cons, exists_eq_or_imp, and_or_left]

theorem blocksOf_congr (h : ∀ a ∈ l, g a = f a) : blocksOf l g = blocksOf l f := by
  ext c
  exact and_congr_right fun _ => exists_congr fun a => and_congr_right fun ha => by rw [h a ha]

theorem Freeable.congr (hb : fs.Freeable l f) (h : ∀ a ∈ l, g a = f a) : fs.Freeable l g := by
  refine ⟨fun a ha => ?_, fun a ha => ?_, fun a ha => ?_, hb.distinct.imp_of_mem fun {a b} ha hb' hab => ?_⟩
  · rw [h a ha]
    exact hb.lower a ha
  · rw [h a ha]
    exact hb.upper a ha
  · rw [h a ha]
    exact hb.used a ha
  · rwa [h a ha, h b hb']

/-- Freeing other blocks does no harm. -/
theorem Freeable.frees (h : fs.Freeable l f) (hS : fs.Frees S fs') (hout : ∀ a ∈ l, f a ≠ 0 → f a ∉ S) :
    fs'.Freeable l f := by
  refine ⟨fun a ha hne => ?_, fun a ha hne => ?_, fun a ha hne => ?_, h.distinct⟩
  · rw [hS.sb]
    exact h.lower a ha hne
  · rw [hS.sb]
    exact h.upper a ha hne
  · exact (hS.used _).2 ⟨h.used a ha hne, hout a ha hne⟩

theorem Freeable.formatted (h : fs.Freeable l f) (hS : fs.Frees (blocksOf l f) fs') (hf : fs.Formatted) : fs'.Formatted := by
  refine hS.formatted hf ?_
  rintro _ ⟨hne, a, ha, rfl⟩
  exact h.lower a ha hne

/-- One round of a loop: the next block is freed, if there is one. -/
theorem Freeable.round (h : fs.Freeable (a :: l) f) (hf : fs.Formatted) :
    ∃ fs', (if f a = 0 then .ok fs else fs.bfree (f a)) = .ok fs' ∧ fs.Frees {c | c ≠ 0 ∧ f a = c} fs' ∧
      fs'.Formatted ∧ fs'.Freeable l f := by
  have hhead := List.mem_cons_self (a := a) (l := l)
  have hrest : ∀ {fs'}, fs.Frees {c | c ≠ 0 ∧ f a = c} fs' → fs'.Formatted ∧ fs'.Freeable l f := by
    intro fs' hfrees
    have htail : fs.Freeable l f :=
      ⟨fun b hb => h.lower b (List.mem_cons_of_mem _ hb), fun b hb => h.upper b (List.mem_cons_of_mem _ hb),
        fun b hb => h.used b (List.mem_cons_of_mem _ hb), h.distinct.of_cons⟩
    refine ⟨hfrees.formatted hf ?_, htail.frees hfrees fun b hb hne hmem => ?_⟩
    · rintro _ ⟨hne, rfl⟩
      exact h.lower a hhead hne
    · have hsame : f a = f b := hmem.2
      exact hne (hsame ▸ List.rel_of_pairwise_cons h.distinct hb hsame)
  by_cases hzero : f a = 0
  · have hnone : {c | c ≠ 0 ∧ f a = c} = (∅ : Set Nat) := by
      ext c
      simp only [Set.mem_ofPred_eq, Set.mem_empty_iff_false, iff_false, not_and]
      exact fun hne heq => hne (heq ▸ hzero)
    have hfrees : fs.Frees {c | c ≠ 0 ∧ f a = c} fs := hnone ▸ Frees.refl fs
    exact ⟨fs, if_pos hzero, hfrees, hrest hfrees⟩
  · obtain ⟨fs', hrun, hfrees⟩ := hf.bfree (h.upper a hhead hzero) (h.used a hhead hzero)
    have hone : {c | c ≠ 0 ∧ f a = c} = {f a} := by
      ext c
      simp only [Set.mem_ofPred_eq, Set.mem_singleton_iff]
      exact ⟨fun hc => hc.2.symm, fun hc => ⟨hc ▸ hzero, hc.symm⟩⟩
    rw [← hone] at hfrees
    exact ⟨fs', (if_neg hzero).trans hrun, hfrees, hrest hfrees⟩

end Loops

/-! ## The loops of itrunc -/

/-- The addresses at the indices in `l` are cleared. -/
def cleared (ip : Inode) (l : List (Fin (ndirect + 1))) : Inode :=
  { ip with addrs := fun i => if i ∈ l then 0 else ip.addrs i }

theorem cleared_addrs (ip : Inode) (l : List (Fin (ndirect + 1))) (i : Fin (ndirect + 1)) :
    (cleared ip l).addrs i = if i ∈ l then 0 else ip.addrs i := rfl

theorem truncDirect_loop {l : List (Fin (ndirect + 1))} (hf : fs.Formatted) (h : fs.Freeable l ip.addrs) (hl : l.Nodup) :
    ∃ fs', l.foldlM truncDirect (ip, fs) = .ok (cleared ip l, fs') ∧ fs.Frees (blocksOf l ip.addrs) fs' := by
  induction l generalizing ip fs with
  | nil =>
    have hnone : blocksOf [] ip.addrs = ∅ := by simp [blocksOf]
    exact ⟨fs, rfl, hnone ▸ Frees.refl fs⟩
  | cons i l ih =>
    obtain ⟨hi, hl⟩ := List.nodup_cons.1 hl
    obtain ⟨fs₁, hrun, hfrees, hf₁, htail⟩ := h.round hf
    have hsame : ∀ j ∈ l, (ip.setAddr i 0).addrs j = ip.addrs j :=
      fun j hj => Function.update_of_ne (ne_of_mem_of_not_mem hj hi) ..
    have hround : truncDirect (ip, fs) i = .ok (ip.setAddr i 0, fs₁) := by
      rw [truncDirect]
      split
      · rename_i hzero
        obtain rfl : fs = fs₁ := Except.ok.inj ((if_pos hzero).symm.trans hrun)
        have hsame : ip.setAddr i 0 = ip := by
          rw [Inode.setAddr, ← show ip.addrs i = 0 from hzero, Function.update_eq_self]
        rw [hsame]
      · rename_i hne
        exact Except.bind_ok_iff.2 ⟨fs₁, (if_neg hne).symm.trans hrun, rfl⟩
    obtain ⟨fs', hloop, hfrees'⟩ := ih hf₁ (htail.congr hsame) hl
    have haddrs : (fun j => if j ∈ l then 0 else (ip.setAddr i 0).addrs j) = fun j => if j ∈ i :: l then 0 else ip.addrs j := by
      funext j
      by_cases hji : j = i
      · subst hji
        simp [Inode.setAddr]
      · simp [Inode.setAddr, hji]
    have hcleared : cleared (ip.setAddr i 0) l = cleared ip (i :: l) := congrArg (fun a => { ip with addrs := a }) haddrs
    rw [blocksOf_congr hsame] at hfrees'
    rw [List.foldlM_cons, hround, blocksOf_cons]
    exact ⟨fs', hcleared ▸ hloop, hfrees.trans hfrees'⟩

theorem truncEntry_loop {ind : Nat} {l : List Nat} (hf : fs.Formatted) (hind : fs.sb.datastart ≤ ind)
    (h : fs.Freeable l (fs.entry ind)) :
    ∃ fs', l.foldlM (truncEntry ind) fs = .ok fs' ∧ fs.Frees (blocksOf l (fs.entry ind)) fs' := by
  induction l generalizing fs with
  | nil =>
    have hnone : blocksOf [] (fs.entry ind) = ∅ := by simp [blocksOf]
    exact ⟨fs, rfl, hnone ▸ Frees.refl fs⟩
  | cons j l ih =>
    obtain ⟨fs₁, hrun, hfrees, hf₁, htail⟩ := h.round hf
    -- the indirect block is not touched
    have hsame : fs₁.entry ind = fs.entry ind := by
      funext i
      rw [entry, entry, hfrees.data ind hind]
    obtain ⟨fs', hloop, hfrees'⟩ := ih hf₁ (hfrees.sb ▸ hind) (hsame ▸ htail)
    rw [hsame] at hfrees'
    rw [List.foldlM_cons, blocksOf_cons]
    exact ⟨fs', Except.bind_ok_iff.2 ⟨fs₁, hrun, hloop⟩, hfrees.trans hfrees'⟩

/-! ## itrunc -/

/-- The blocks that an inode names. -/
def held (fs : Fs) (d : Dinode) : Set Nat := {c | c ≠ 0 ∧ ∃ p, fs.names d p = c}

theorem Sound.formatted_of_frees (hs : fs.Sound d) (hf : fs.Formatted) (h : fs.Frees (fs.held d) fs') : fs'.Formatted := by
  refine h.formatted hf ?_
  rintro _ ⟨hne, p, rfl⟩
  exact hs.lower p hne

/-- The direct blocks of an inode. -/
def directs : List (Fin (ndirect + 1)) := (List.finRange ndirect).map fun i => i.castSucc

theorem mem_directs {i : Fin (ndirect + 1)} : i ∈ directs ↔ i ≠ indirectIx := by
  rw [directs, List.mem_map]
  constructor
  · rintro ⟨j, -, rfl⟩ heq
    have hval : j.val = ndirect := congrArg Fin.val heq
    have := j.isLt
    omega
  · intro hne
    have hlt : i.val < ndirect := by
      have := i.isLt
      have hval : i.val ≠ ndirect := fun h => hne (Fin.ext h)
      omega
    exact ⟨⟨i.val, hlt⟩, List.mem_finRange _, rfl⟩

theorem directs_nodup : directs.Nodup := (List.nodup_finRange ndirect).map (Fin.castSucc_injective ndirect)

/-- The place of entry `j` of the indirect block. -/
def entryPlace (j : Nat) : Place := .inr ⟨j % nindirect, Nat.mod_lt _ (by decide)⟩

theorem names_entryPlace {j : Nat} (hne : d.addrs indirectIx ≠ 0) (hj : j < nindirect) :
    fs.names d (entryPlace j) = fs.entry (d.addrs indirectIx) j := by
  rw [entryPlace, names, if_neg hne]
  exact congrArg _ (Nat.mod_eq_of_lt hj)

theorem entryPlace_inj {j k : Nat} (hj : j < nindirect) (hk : k < nindirect) (h : entryPlace j = entryPlace k) : j = k := by
  have hmod := Fin.mk.inj (Sum.inr_injective h)
  rwa [Nat.mod_eq_of_lt hj, Nat.mod_eq_of_lt hk] at hmod

/-- What a sound inode names can be freed. -/
theorem Sound.freeable {α : Type} {l : List α} {f : α → Nat} {q : α → Place} (hs : fs.Sound d)
    (hq : ∀ a ∈ l, fs.names d (q a) = f a) (hinj : ∀ a ∈ l, ∀ b ∈ l, q a = q b → a = b) (hl : l.Nodup) :
    fs.Freeable l f := by
  refine ⟨fun a ha => ?_, fun a ha => ?_, fun a ha => ?_, List.Pairwise.imp_of_mem (fun {a b} ha hb hne heq => ?_) hl⟩
  · rw [← hq a ha]
    exact hs.lower _
  · rw [← hq a ha]
    exact hs.upper _
  · rw [← hq a ha]
    exact hs.used _
  · by_contra hzero
    rw [← hq a ha] at heq hzero
    rw [← hq b hb] at heq
    exact hne (hinj a ha b hb (hs.distinct _ _ heq hzero))

theorem held_of_direct (hzero : d.addrs indirectIx = 0) : blocksOf directs d.addrs = fs.held d := by
  ext c
  refine and_congr_right fun hc => ⟨?_, ?_⟩
  · rintro ⟨i, -, hi⟩
    exact ⟨.inl i, hi⟩
  · rintro ⟨i | j, hp⟩
    · have hne : i ≠ indirectIx := by
        rintro rfl
        exact hc (hp.symm.trans hzero)
      exact ⟨i, mem_directs.2 hne, hp⟩
    · rw [names, if_pos hzero] at hp
      exact absurd hp.symm hc

theorem held_of_indirect (hne : d.addrs indirectIx ≠ 0) : blocksOf directs d.addrs ∪
    (blocksOf (List.range nindirect) (fs.entry (d.addrs indirectIx)) ∪ {d.addrs indirectIx}) = fs.held d := by
  ext c
  constructor
  · rintro (⟨hc, i, -, hi⟩ | ⟨hc, j, hj, heq⟩ | rfl)
    · exact ⟨hc, .inl i, hi⟩
    · exact ⟨hc, _, (names_entryPlace hne (List.mem_range.1 hj)).trans heq⟩
    · exact ⟨hne, .inl indirectIx, rfl⟩
  · rintro ⟨hc, i | j, hp⟩
    · by_cases hi : i = indirectIx
      · exact .inr (.inr (hi ▸ hp.symm))
      · exact .inl ⟨hc, i, mem_directs.2 hi, hp⟩
    · exact .inr (.inl ⟨hc, j, List.mem_range.2 j.isLt, (if_neg hne).symm.trans hp⟩)

/-- After the direct blocks: the entries of the indirect block, and that block itself. -/
theorem Sound.freeIndirect (hs : fs.Sound d) (hne : d.addrs indirectIx ≠ 0) (hf' : fs'.Formatted)
    (hfrees : fs.Frees (blocksOf directs d.addrs) fs') :
    ∃ fs₂ fs₃, (List.range nindirect).foldlM (truncEntry (d.addrs indirectIx)) fs' = .ok fs₂ ∧
      fs₂.bfree (d.addrs indirectIx) = .ok fs₃ ∧
      fs'.Frees (blocksOf (List.range nindirect) (fs.entry (d.addrs indirectIx)) ∪ {d.addrs indirectIx}) fs₃ := by
  have hlow : fs.sb.datastart ≤ d.addrs indirectIx := hs.lower (.inl indirectIx) hne
  -- what the direct blocks do not share with the indirect one and its entries
  have hapart : ∀ q : Place, (∀ i ≠ indirectIx, q ≠ .inl i) → fs.names d q ≠ 0 →
      fs.names d q ∉ blocksOf directs d.addrs := by
    rintro q hq hzero ⟨-, i, hi, heq⟩
    exact hq i (mem_directs.1 hi) (hs.distinct _ (.inl i) heq.symm hzero)
  have hentry : fs'.entry (d.addrs indirectIx) = fs.entry (d.addrs indirectIx) := by
    funext j
    rw [entry, entry, hfrees.data _ hlow]
  have hentries : fs.Freeable (List.range nindirect) (fs.entry (d.addrs indirectIx)) :=
    hs.freeable (fun j hj => names_entryPlace hne (List.mem_range.1 hj))
      (fun j hj k hk => entryPlace_inj (List.mem_range.1 hj) (List.mem_range.1 hk)) List.nodup_range
  have hkept : fs'.Freeable (List.range nindirect) (fs'.entry (d.addrs indirectIx)) := by
    rw [hentry]
    refine hentries.frees hfrees fun j hj hzero => ?_
    rw [← names_entryPlace hne (List.mem_range.1 hj)] at hzero ⊢
    exact hapart _ (fun i _ => Sum.inr_ne_inl) hzero
  obtain ⟨fs₂, hrun, hfrees₂⟩ := truncEntry_loop hf' (hfrees.sb ▸ hlow) hkept
  have hf₂ := hkept.formatted hfrees₂ hf'
  rw [hentry] at hfrees₂
  -- the indirect block itself is still in use
  have hused : fs₂.used (d.addrs indirectIx) = true := by
    refine (hfrees₂.used _).2 ⟨(hfrees.used _).2 ⟨hs.used (.inl indirectIx) hne, ?_⟩, ?_⟩
    · exact hapart (.inl indirectIx) (fun i hi heq => hi (Sum.inl_injective heq).symm) hne
    · rintro ⟨-, j, hj, heq⟩
      rw [← names_entryPlace hne (List.mem_range.1 hj)] at heq
      cases hs.distinct _ (.inl indirectIx) heq (heq.symm ▸ hne)
  have hsize : d.addrs indirectIx < fs₂.sb.size := by
    rw [hfrees₂.sb, hfrees.sb]
    exact hs.upper (.inl indirectIx) hne
  obtain ⟨fs₃, hlast, hfrees₃⟩ := hf₂.bfree hsize hused
  exact ⟨fs₂, fs₃, hrun, hlast, hfrees₂.trans hfrees₃⟩

/-- `itrunc` frees what a sound inode names and writes the empty inode to disk. -/
theorem Formatted.itrunc (hf : fs.Formatted) (hs : fs.Sound ip.toDinode) :
    ∃ fs', fs.itrunc ip = .ok (ip.emptied, fs'.iupdate ip.emptied) ∧ fs.Frees (fs.held ip.toDinode) fs' := by
  have hdirect : fs.Freeable directs ip.addrs :=
    hs.freeable (q := .inl) (fun _ _ => rfl) (fun _ _ _ _ h => Sum.inl_injective h) directs_nodup
  obtain ⟨fs₁, hrun, hfrees⟩ := truncDirect_loop hf hdirect directs_nodup
  have hind : (cleared ip directs).addrs indirectIx = ip.addrs indirectIx := by
    have hnot : indirectIx ∉ directs := fun h => mem_directs.1 h rfl
    rw [cleared_addrs, if_neg hnot]
  rw [Fs.itrunc]
  by_cases hzero : ip.addrs indirectIx = 0
  · have haddrs : (cleared ip directs).addrs = fun _ => 0 := by
      funext i
      rw [cleared_addrs]
      split
      · rfl
      · rename_i hi
        rw [mem_directs, not_not] at hi
        rw [hi, hzero]
    have hempty : { cleared ip directs with size := 0 } = ip.emptied :=
      congrArg (fun a => ({ ip with size := 0, addrs := a } : Inode)) haddrs
    refine ⟨fs₁, Except.bind_ok_iff.2 ⟨_, hrun, Except.bind_ok_iff.2 ⟨(cleared ip directs, fs₁), ?_, ?_⟩⟩,
      held_of_direct hzero ▸ hfrees⟩
    · exact if_pos (hind.trans hzero)
    · rw [← hempty]
  · obtain ⟨fs₂, fs₃, hrun₂, hrun₃, hfrees₃⟩ :=
      hs.freeIndirect hzero (hdirect.formatted hfrees hf) hfrees
    have haddrs : ((cleared ip directs).setAddr indirectIx 0).addrs = fun _ => 0 := by
      funext i
      show Function.update (cleared ip directs).addrs indirectIx 0 i = 0
      by_cases hi : i = indirectIx
      · rw [hi, Function.update_self]
      · rw [Function.update_of_ne hi, cleared_addrs, if_pos (mem_directs.2 hi)]
    have hempty : { (cleared ip directs).setAddr indirectIx 0 with size := 0 } = ip.emptied :=
      congrArg (fun a => ({ ip with size := 0, addrs := a } : Inode)) haddrs
    refine ⟨fs₃, Except.bind_ok_iff.2 ⟨_, hrun, Except.bind_ok_iff.2
      ⟨((cleared ip directs).setAddr indirectIx 0, fs₃), ?_, ?_⟩⟩, held_of_indirect hzero ▸ hfrees.trans hfrees₃⟩
    · refine (if_neg (hind.symm ▸ hzero)).trans ?_
      rw [hind]
      exact Except.bind_ok_iff.2 ⟨fs₂, hrun₂, Except.bind_ok_iff.2 ⟨fs₃, hrun₃, rfl⟩⟩
    · rw [← hempty]

end Fs

end Xv6
