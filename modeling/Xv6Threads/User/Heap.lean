-- SUMMARY: malloc and free keep the heap in order, and blocks in use never overlap.
import Mathlib.Data.List.Perm.Basic
import Xv6Threads.User.FreeList

/-!
# The heap

`malloc` and `free` finish, and keep a sorted ring of free regions that no block in
use meets. `malloc` goes around the ring once, and again each time the kernel has
granted more memory. What it asks the kernel for is an `int`: a request for almost all of
the address space asks for something else.
-/

namespace Xv6

namespace Umalloc

/-! ## Fuel -/

section Fuel

variable {mem : Ram} {bp fuel fuel' p q prevp nunits base : Nat} {h : Heap} {grants : List Bool}

/-- More rounds do not change the result. -/
theorem search_mono (hrun : search mem bp fuel p = some q) (hle : fuel ≤ fuel') : search mem bp fuel' p = some q := by
  induction fuel generalizing fuel' p with
  | zero => cases hrun
  | succ fuel ih =>
    obtain ⟨fuel', rfl⟩ : ∃ n, fuel' = n + 1 := ⟨fuel' - 1, by omega⟩
    by_cases hstops : Stops mem bp p
    · rw [search_stops hstops] at hrun ⊢
      exact hrun
    · rw [search_goes hstops] at hrun ⊢
      exact ih hrun (by omega)

theorem free_mono {h' : Heap} {ap : Nat} (hrun : free fuel h ap = some h') (hle : fuel ≤ fuel') :
    free fuel' h ap = some h' := by
  obtain ⟨q, hq, rfl⟩ := Option.map_eq_some_iff.1 hrun
  rw [free, search_mono hq hle]
  rfl

theorem morecore_mono {r : Nat × Heap} {nu : Nat} {grant : Bool} (hrun : morecore fuel h nu grant = some r)
    (hle : fuel ≤ fuel') : morecore fuel' h nu grant = some r := by
  rw [morecore] at hrun ⊢
  cases hsbrk : sbrk h.sz (request nu) grant with
  | mk p sz =>
    rw [hsbrk] at hrun
    cases p with
    | none => exact hrun
    | some p =>
      obtain ⟨h', hfree, rfl⟩ := Option.map_eq_some_iff.1 hrun
      dsimp only
      rw [free_mono hfree hle]
      rfl

theorem mallocLoop_mono {r : Nat × Heap} (hrun : mallocLoop nunits fuel grants h p prevp = some r) (hle : fuel ≤ fuel') :
    mallocLoop nunits fuel' grants h p prevp = some r := by
  induction fuel generalizing fuel' grants h p prevp with
  | zero => cases hrun
  | succ fuel ih =>
    obtain ⟨fuel', rfl⟩ : ∃ n, fuel' = n + 1 := ⟨fuel' - 1, by omega⟩
    rw [mallocLoop] at hrun ⊢
    by_cases hfit : nunits ≤ size h.mem p
    · rwa [if_pos hfit] at hrun ⊢
    · rw [if_neg hfit] at hrun ⊢
      by_cases hround : p = h.freep
      · rw [if_pos hround] at hrun ⊢
        cases hmore : morecore fuel h nunits (grants.headD false) with
        | none =>
          rw [hmore] at hrun
          cases hrun
        | some m =>
          rw [hmore] at hrun
          rw [morecore_mono hmore (by omega)]
          dsimp only at hrun ⊢
          by_cases hzero : m.1 = 0
          · rwa [if_pos hzero] at hrun ⊢
          · rw [if_neg hzero] at hrun ⊢
            exact ih hrun (by omega)
      · rw [if_neg hround] at hrun ⊢
        exact ih hrun (by omega)

theorem malloc_mono {r : Nat × Heap} {nbytes : UInt32} (hrun : malloc base fuel grants h nbytes = some r)
    (hle : fuel ≤ fuel') : malloc base fuel' grants h nbytes = some r := by
  rw [malloc] at hrun ⊢
  split at hrun <;> rename_i hzero
  · rw [if_pos hzero]
    exact mallocLoop_mono hrun hle
  · rw [if_neg hzero]
    exact mallocLoop_mono hrun hle

/-- Two runs that finish give the same result. -/
theorem malloc_unique {r r' : Nat × Heap} {nbytes : UInt32} (hrun : malloc base fuel grants h nbytes = some r)
    (hrun' : malloc base fuel' grants h nbytes = some r') : r = r' :=
  Option.some.inj ((malloc_mono hrun (Nat.le_max_left fuel fuel')).symm.trans
    (malloc_mono hrun' (Nat.le_max_right fuel fuel')))

theorem free_unique {h₁ h₂ : Heap} {ap : Nat} (hrun : free fuel h ap = some h₁) (hrun' : free fuel' h ap = some h₂) :
    h₁ = h₂ :=
  Option.some.inj ((free_mono hrun (Nat.le_max_left fuel fuel')).symm.trans
    (free_mono hrun' (Nat.le_max_right fuel fuel')))

end Fuel

/-! ## What the kernel is asked for -/

/-- Up to here the request in bytes is a positive `int`. -/
theorem request_toInt {nu : Nat} (h : nu < 2 ^ 27) : (request nu).toInt = ((max nu 4096 * 16 : Nat) : Int) := by
  have hmax : (if nu < 4096 then 4096 else nu) = max nu 4096 := by
    split <;> omega
  rw [request, hmax]
  exact Int32.toInt_ofNat_of_lt (by omega)

theorem sbrk_request {nu : Nat} (h : nu < 2 ^ 27) (sz : Nat) (grant : Bool) : sbrk sz (request nu) grant =
    if grant ∧ sz + max nu 4096 * 16 ≤ trapframeVa then (some sz, sz + max nu 4096 * 16) else (none, sz) := by
  have hint := request_toInt h
  have hne : request nu ≠ 0 := by
    intro heq
    rw [heq, Int32.toInt_zero] at hint
    omega
  have hpos : 0 < request nu := by
    rw [Int32.lt_iff_toInt_lt, hint, Int32.toInt_zero]
    omega
  rw [sbrk, if_neg hne, if_pos hpos, hint, Int.toNat_natCast]

/-! ## A heap in order -/

/-- The ring, and where the heap lies. -/
structure Valid (im : Image) (h : Heap) (rs : List Region) : Prop where
  ring : Ring im h.mem h.sz rs
  freep : h.freep ∈ rs.map Region.addr
  lo_le : im.lo ≤ h.sz
  le_va : h.sz ≤ trapframeVa

/-- A later heap in order. -/
structure Grown (im : Image) (h : Heap) (rs : List Region) (h' : Heap) (rs' : List Region) : Prop where
  valid : Valid im h' rs'
  sz_le : h.sz ≤ h'.sz
  keeps : Keeps h.sz h.mem rs h'.mem rs'

/-- A later heap in order, with a block of `nunits` units at `q` taken out. -/
structure Given (im : Image) (nunits : Nat) (h : Heap) (rs : List Region) (q : Nat) (h' : Heap) (rs' : List Region) :
    Prop extends Grown im h rs h' rs' where
  le : im.lo ≤ q
  stop_le : q + 16 * nunits ≤ h'.sz
  size : size h'.mem q = nunits
  clear : Clear rs' q (q + 16 * nunits)
  outside : ∀ lo hi, lo < hi → hi ≤ h.sz → Clear rs lo hi → hi ≤ q ∨ q + 16 * nunits ≤ lo

variable {im : Image} {h h' h'' : Heap} {rs rs' rs'' : List Region} {nunits p q prevp : Nat} {grants : List Bool}

/-- What the loop of `malloc` comes back with: nothing, or a block. -/
def Answers (im : Image) (nunits : Nat) (h : Heap) (rs : List Region) (r : Nat × Heap) : Prop :=
  ∃ rs', r.1 = 0 ∧ Grown im h rs r.2 rs' ∨ ∃ q, r.1 = q + 16 ∧ Given im nunits h rs q r.2 rs'

namespace Grown

theorem refl (h : Valid im h' rs) : Grown im h' rs h' rs := ⟨h, Nat.le_refl _, .refl ..⟩

theorem trans (h₁ : Grown im h rs h' rs') (h₂ : Grown im h' rs' h'' rs'') : Grown im h rs h'' rs'' :=
  ⟨h₂.valid, h₁.sz_le.trans h₂.sz_le, h₁.keeps.trans h₂.keeps h₁.sz_le⟩

theorem given (h₁ : Grown im h rs h' rs') (h₂ : Given im nunits h' rs' q h'' rs'') : Given im nunits h rs q h'' rs'' where
  toGrown := h₁.trans h₂.toGrown
  le := h₂.le
  stop_le := h₂.stop_le
  size := h₂.size
  clear := h₂.clear
  outside lo hi hlt hhi hc := h₂.outside lo hi hlt (hhi.trans h₁.sz_le) (h₁.keeps.clear lo hi hlt hhi hc)

end Grown

namespace Valid

theorem freep_pos (h : Valid im h' rs) : 0 < h'.freep := by
  obtain ⟨r, hr, heq⟩ := List.mem_map.1 h.freep
  have hbase := im.base_pos
  have hlo := im.base_lt
  rw [← heq]
  rcases h.ring.within r hr with rfl | hw
  · exact hbase
  · omega

/-- Growing the heap: the fresh memory becomes a free block. -/
theorem morecore (hv : Valid im h rs) (hint : nunits < 2 ^ 27) (grant : Bool) :
    (∀ fuel, morecore fuel h nunits grant = some (0, h)) ∨
      ∃ fuel h' rs', Umalloc.morecore fuel h nunits grant = some (h'.freep, h') ∧ grant ∧ Grown im h rs h' rs' := by
  by_cases hgrant : grant ∧ h.sz + max nunits 4096 * 16 ≤ trapframeVa
  swap
  · refine .inl fun fuel => ?_
    rw [Umalloc.morecore, sbrk_request hint, if_neg hgrant]
  refine .inr ?_
  have hmax : (if nunits < 4096 then 4096 else nunits) = max nunits 4096 := by
    split <;> omega
  have hn : 0 < max nunits 4096 := by omega
  have hlt : max nunits 4096 < 2 ^ 32 := by omega
  generalize hnu : max nunits 4096 = nu at *
  have hout : ∀ i < h.sz, setSize h.mem h.sz nu i = h.mem i := fun i hi => setSize_outside (.inl hi)
  have hring : Ring im (setSize h.mem h.sz nu) h.sz rs := hv.ring.congr fun r hr i _ hi => hout i (by
    have := r.header_le
    have := hv.ring.stop_le hv.lo_le hr
    omega)
  have hend : Region.stop ⟨h.sz, nu, nu, Nat.le_refl _, hn⟩ ≤ h.sz + nu * 16 := by
    simp only [Region.stop]
    omega
  obtain ⟨fuel, h', rs', hrun, hsz, hring', hfreep, hkeeps⟩ := hring.exists_free
    (h := { h with mem := setSize h.mem h.sz nu, sz := h.sz + nu * 16 }) hv.freep hv.lo_le hend hv.lo_le (by omega)
    hgrant.2 (size_setSize_of_lt hlt) fun r hr => .inr (hv.ring.stop_le hv.lo_le hr)
  refine ⟨fuel, h', rs', ?_, hgrant.1, ⟨hsz ▸ hring', hfreep, ?_, ?_⟩, ?_, fun lo hi hlt hhi hc => ?_, fun i hi hc => ?_⟩
  · rw [Umalloc.morecore, sbrk_request hint, hnu, if_pos hgrant]
    dsimp only
    rw [hmax, hrun]
    rfl
  · rw [hsz]
    exact hv.lo_le.trans (Nat.le_add_right _ _)
  · rw [hsz]
    exact hgrant.2
  · rw [hsz]
    exact Nat.le_add_right _ _
  · exact (hkeeps h.sz).clear lo hi hlt hhi (List.forall_mem_cons.2 ⟨.inl hhi, hc⟩)
  · exact ((hkeeps h.sz).same i hi (List.forall_mem_cons.2 ⟨.inl hi, hc⟩)).trans (hout i hi)

end Valid

/-- The requests that `malloc` answers as it should: the units are an `int` in bytes, or there is a
large enough block already, or the kernel says no. -/
def Fits (nunits : Nat) (grant : Bool) (h : Heap) : Prop :=
  nunits < 2 ^ 27 ∨ (h.freep ≠ 0 ∧ ∃ k, nunits ≤ size h.mem ((ptr h.mem)^[k] h.freep)) ∨
    (sbrk h.sz (request nunits) grant).1 = none

/-! ## Once around the ring -/

/-- `malloc` takes the first block that is large enough, -/
theorem exists_sweep (grants : List Bool) {C : List Nat} (hlead : Leads (ptr h.mem) (prevp :: C) h.freep) (hnot : h.freep ∉ C)
    (hfit : ∃ q ∈ C ++ [h.freep], nunits ≤ size h.mem q) :
    ∃ fuel v, v ∈ prevp :: C ∧ nunits ≤ size h.mem (ptr h.mem v) ∧
      mallocLoop nunits fuel grants h (ptr h.mem prevp) prevp = some (take nunits h (ptr h.mem v) v) := by
  induction C generalizing prevp with
  | nil =>
    obtain ⟨q, hq, hfit⟩ := hfit
    obtain rfl : q = h.freep := by simpa using hq
    have hnext : ptr h.mem prevp = h.freep := hlead.1
    refine ⟨1, prevp, List.mem_cons_self .., hnext ▸ hfit, ?_⟩
    rw [mallocLoop, if_pos (hnext ▸ hfit)]
  | cons c C ih =>
    have hnext : ptr h.mem prevp = c := hlead.1
    by_cases hc : nunits ≤ size h.mem c
    · refine ⟨1, prevp, List.mem_cons_self .., hnext ▸ hc, ?_⟩
      rw [mallocLoop, if_pos (hnext ▸ hc)]
    · have hrest : ∃ q ∈ C ++ [h.freep], nunits ≤ size h.mem q := by
        obtain ⟨q, hq, hfit⟩ := hfit
        rcases List.mem_cons.1 hq with rfl | hq
        · exact absurd hfit hc
        · exact ⟨q, hq, hfit⟩
      obtain ⟨fuel, v, hv, hfit', hrun⟩ := ih hlead.2 (fun hm => hnot (List.mem_cons_of_mem _ hm)) hrest
      refine ⟨fuel + 1, v, List.mem_cons_of_mem _ hv, hfit', ?_⟩
      have hne : c ≠ h.freep := fun heq => hnot (heq ▸ List.mem_cons_self ..)
      rw [mallocLoop, hnext, if_neg hc, if_neg hne, hrun]

/-- and asks for more memory if there is none. -/
theorem sweep_none (grants : List Bool) {C : List Nat} (hlead : Leads (ptr h.mem) (prevp :: C) h.freep) (hnot : h.freep ∉ C)
    (hfit : ∀ q ∈ C ++ [h.freep], ¬ nunits ≤ size h.mem q) (fuel : Nat) :
    mallocLoop nunits (fuel + 1 + C.length) grants h (ptr h.mem prevp) prevp =
      match morecore fuel h nunits (grants.headD false) with
      | none => none
      | some (p, h) => if p = 0 then some (0, h) else mallocLoop nunits fuel grants.tail h (ptr h.mem p) p := by
  induction C generalizing prevp with
  | nil =>
    have hnext : ptr h.mem prevp = h.freep := hlead.1
    rw [List.length_nil, Nat.add_zero, mallocLoop, hnext, if_neg (hfit _ (by simp))]
    exact if_pos rfl
  | cons c C ih =>
    have hnext : ptr h.mem prevp = c := hlead.1
    have hne : c ≠ h.freep := fun heq => hnot (heq ▸ List.mem_cons_self ..)
    rw [List.length_cons, ← Nat.add_assoc, mallocLoop, hnext, if_neg (hfit c (by simp)), if_neg hne]
    exact ih hlead.2 (fun hm => hnot (List.mem_cons_of_mem _ hm)) fun q hq => hfit q (List.mem_cons_of_mem _ hq)

namespace Valid

/-- The ring as `malloc` walks it. -/
theorem exists_round (hv : Valid im h rs) : ∃ C, Leads (ptr h.mem) (h.freep :: C) h.freep ∧ h.freep ∉ C ∧
    ∀ q, q ∈ C ++ [h.freep] ↔ q ∈ rs.map Region.addr := by
  obtain ⟨A, B, hsplit⟩ := List.append_of_mem hv.freep
  have hlead := hv.ring.linked.leads
  have hhead : A.headD h.freep = im.base := by
    obtain ⟨bs, hbs⟩ := hv.ring.eq_cons
    rw [hbs] at hsplit
    cases A with
    | nil => exact (List.cons.inj hsplit).1.symm
    | cons a A => exact (List.cons.inj hsplit).1.symm
  have hnodup : (rs.map Region.addr).Nodup :=
    List.pairwise_map.2 (hv.ring.linked.sorted.imp fun hab => hab.addr_lt.ne)
  rw [hsplit] at hlead hnodup
  rw [← hhead] at hlead
  refine ⟨B ++ A, hlead.rotate, fun hm => ?_, fun q => ?_⟩
  · have hperm : (h.freep :: (A ++ B)).Nodup := List.perm_middle.nodup_iff.1 hnodup
    exact (List.nodup_cons.1 hperm).1 (by
      simp only [List.mem_append] at hm ⊢
      exact hm.symm)
  · rw [hsplit]
    simp only [List.mem_append, List.mem_cons, List.not_mem_nil, or_false]
    tauto

/-- A block that is large enough is taken. -/
theorem exists_given (hv : Valid im h rs) (grants : List Bool) (hpos : 0 < nunits) (hfit : ∃ r ∈ rs, nunits ≤ size h.mem r.addr) :
    ∃ fuel q h' rs', mallocLoop nunits fuel grants h (ptr h.mem h.freep) h.freep = some (q + 16, h') ∧
      Given im nunits h rs q h' rs' := by
  obtain ⟨C, hlead, hnot, hmem⟩ := hv.exists_round
  obtain ⟨r, hr, hfit⟩ := hfit
  obtain ⟨fuel, v, hC, hfit', hrun⟩ := exists_sweep grants hlead hnot
    ⟨r.addr, (hmem _).2 (List.mem_map_of_mem hr), hfit⟩
  have hvmem : v ∈ rs.map Region.addr := by
    refine (hmem v).1 ?_
    rcases List.mem_cons.1 hC with rfl | hC
    · simp
    · simp [hC]
  obtain ⟨q, h', rs', htake, htaken⟩ := hv.ring.exists_take hvmem hpos hfit'
  refine ⟨fuel, q, h', rs', hrun.trans (congrArg some htake), ⟨⟨?_, htaken.freep, ?_, ?_⟩, htaken.sz.ge, htaken.keeps _⟩,
    htaken.le, ?_, htaken.size, htaken.clear, fun lo hi hlt _ hc => htaken.outside lo hi hlt hc⟩
  · exact htaken.sz ▸ htaken.ring
  · exact htaken.sz ▸ hv.lo_le
  · exact htaken.sz ▸ hv.le_va
  · exact htaken.sz ▸ htaken.stop_le

/-- Once around the ring, `malloc` has its answer, or more memory. -/
theorem exists_pass (hv : Valid im h rs) (hpos : 0 < nunits) (hfits : Fits nunits (grants.headD false) h) :
    (∃ fuel r, mallocLoop nunits fuel grants h (ptr h.mem h.freep) h.freep = some r ∧ Answers im nunits h rs r) ∨
      grants.headD false ∧ nunits < 2 ^ 27 ∧ ∃ n fuel₀ h' rs', Grown im h rs h' rs' ∧ ∀ fuel, fuel₀ ≤ fuel →
        mallocLoop nunits (fuel + n) grants h (ptr h.mem h.freep) h.freep =
          mallocLoop nunits fuel grants.tail h' (ptr h'.mem h'.freep) h'.freep := by
  by_cases hfit : ∃ r ∈ rs, nunits ≤ size h.mem r.addr
  · obtain ⟨fuel, q, h', rs', hrun, hgiven⟩ := hv.exists_given grants hpos hfit
    exact .inl ⟨fuel, _, hrun, rs', .inr ⟨q, rfl, hgiven⟩⟩
  obtain ⟨C, hlead, hnot, hmem⟩ := hv.exists_round
  have hnone : ∀ q ∈ C ++ [h.freep], ¬ nunits ≤ size h.mem q := fun q hq hle => by
    obtain ⟨r, hr, rfl⟩ := List.mem_map.1 ((hmem q).1 hq)
    exact hfit ⟨r, hr, hle⟩
  have hsweep := fun fuel => sweep_none grants hlead hnot hnone fuel
  -- the answer if the kernel gives nothing
  have hzero : (∀ fuel, Umalloc.morecore fuel h nunits (grants.headD false) = some (0, h)) →
      ∃ fuel r, mallocLoop nunits fuel grants h (ptr h.mem h.freep) h.freep = some r ∧ Answers im nunits h rs r := by
    intro hmore
    refine ⟨0 + 1 + C.length, (0, h), ?_, rs, .inl ⟨rfl, .refl hv⟩⟩
    rw [hsweep, hmore]
    rfl
  rcases hfits with hint | ⟨-, k, hk⟩ | hfail
  · rcases hv.morecore hint (grants.headD false) with hmore | ⟨fuel₀, h', rs', hmore, hgrant, hgrown⟩
    · exact .inl (hzero hmore)
    · refine .inr ⟨hgrant, hint, 1 + C.length, fuel₀, h', rs', hgrown, fun fuel hle => ?_⟩
      rw [← Nat.add_assoc, hsweep, morecore_mono hmore hle]
      exact if_neg hgrown.valid.freep_pos.ne'
  · obtain ⟨r, hr, heq⟩ := List.mem_map.1 (hv.ring.iterate_mem hv.freep k)
    exact absurd ⟨r, hr, heq ▸ hk⟩ hfit
  · refine .inl (hzero fun fuel => ?_)
    rw [Umalloc.morecore]
    split
    · rfl
    · rename_i heq
      rw [heq] at hfail
      cases hfail

/-- `malloc` finishes with an answer. -/
theorem exists_mallocLoop (hv : Valid im h rs) (hpos : 0 < nunits) (hfits : Fits nunits (grants.headD false) h) :
    ∃ fuel r, mallocLoop nunits fuel grants h (ptr h.mem h.freep) h.freep = some r ∧ Answers im nunits h rs r := by
  induction grants generalizing h rs with
  | nil =>
    rcases hv.exists_pass hpos hfits with hdone | ⟨hgrant, -⟩
    · exact hdone
    · cases hgrant
  | cons grant grants ih =>
    rcases hv.exists_pass hpos hfits with hdone | ⟨-, hint, n, fuel₀, h', rs', hgrown, hrun⟩
    · exact hdone
    · -- another round, with one grant less
      obtain ⟨fuel, r, hrun', rs'', hr⟩ := ih hgrown.valid (.inl hint)
      refine ⟨max fuel fuel₀ + n, r, ?_, rs'', ?_⟩
      · rw [hrun _ (Nat.le_max_right ..)]
        exact mallocLoop_mono hrun' (Nat.le_max_left ..)
      · exact hr.imp (fun hr => ⟨hr.1, hgrown.trans hr.2⟩) fun ⟨q, hq, hgiven⟩ => ⟨q, hq, hgrown.given hgiven⟩

end Valid

/-! ## Blocks in use -/

theorem units_pos (nbytes : UInt32) : 0 < units nbytes := Nat.succ_pos _

theorem le_units (nbytes : UInt32) : 16 + nbytes.toNat ≤ 16 * units nbytes := by
  rw [units]
  omega

/-- The end of the units of a block. -/
def Block.stop (b : Block) : Nat := b.hdr + 16 * units b.nbytes

theorem Block.payload_le (b : Block) : b.ap + b.nbytes.toNat ≤ b.stop := by
  have := le_units b.nbytes
  simp only [Block.ap, Block.stop]
  omega

theorem Block.header_le (b : Block) : b.hdr + 16 ≤ b.stop := (Nat.le_add_right b.ap _).trans b.payload_le

/-- Two blocks that share no unit. -/
def Block.Apart (b c : Block) : Prop := b.stop ≤ c.hdr ∨ c.stop ≤ b.hdr

instance : Std.Symm Block.Apart := ⟨fun _ _ h => h.symm⟩

/-- The blocks in use: each in the heap, with its size in its header, apart from the free list and
from the others. -/
structure Live (im : Image) (h : Heap) (rs : List Region) (live : List Block) : Prop where
  sized : ∀ b ∈ live, size h.mem b.hdr = units b.nbytes
  le : ∀ b ∈ live, im.lo ≤ b.hdr
  stop_le : ∀ b ∈ live, b.stop ≤ h.sz
  clear : ∀ b ∈ live, Clear rs b.hdr b.stop
  apart : live.Pairwise Block.Apart

namespace Live

variable {live : List Block} {b c : Block} {i : Nat}

theorem grown (hl : Live im h rs live) (hg : Grown im h rs h' rs') : Live im h' rs' live where
  sized b hb := by
    refine (size_congr fun i hi hi' => hg.keeps.same i ?_ fun r hr => ?_).trans (hl.sized b hb)
    · have := b.header_le
      have := hl.stop_le b hb
      omega
    · have := b.header_le
      rcases hl.clear b hb r hr with hc | hc <;> omega
  le := hl.le
  stop_le b hb := (hl.stop_le b hb).trans hg.sz_le
  clear b hb := hg.keeps.clear _ _ (by have := b.header_le; omega) (hl.stop_le b hb) (hl.clear b hb)
  apart := hl.apart

theorem given (hl : Live im h rs live) (hg : Given im (units b.nbytes) h rs b.hdr h' rs') : Live im h' rs' (b :: live) := by
  have hl' := hl.grown hg.toGrown
  refine ⟨List.forall_mem_cons.2 ⟨hg.size, hl'.sized⟩, List.forall_mem_cons.2 ⟨hg.le, hl'.le⟩,
    List.forall_mem_cons.2 ⟨hg.stop_le, hl'.stop_le⟩, List.forall_mem_cons.2 ⟨hg.clear, hl'.clear⟩,
    List.pairwise_cons.2 ⟨fun c hc => ?_, hl'.apart⟩⟩
  exact (hg.outside _ _ (by have := c.header_le; omega) (hl.stop_le c hc) (hl.clear c hc)).symm

theorem apart_of_ne (hl : Live im h rs live) (hb : b ∈ live) (hc : c ∈ live) (hne : b ≠ c) : b.Apart c :=
  hl.apart.forall hb hc hne

/-- The blocks other than `b` do not meet it. -/
theorem apart_of_erase (hl : Live im h rs live) (hb : b ∈ live) (hc : c ∈ live.erase b) : b.Apart c ∧ c ∈ live := by
  have hne : ∀ d e : Block, d.Apart e → d ≠ e := by
    rintro d e hde rfl
    have := d.header_le
    rcases hde with hde | hde <;> omega
  have hnodup : live.Nodup := hl.apart.imp fun hde => hne _ _ hde
  obtain ⟨hcb, hmem⟩ := hnodup.mem_erase_iff.1 hc
  exact ⟨hl.apart_of_ne hb hmem hcb.symm, hmem⟩

/-- `free` of a block in use finishes. -/
theorem exists_free (hl : Live im h rs live) (hv : Valid im h rs) (hb : b ∈ live) :
    ∃ fuel h' rs', free fuel h b.ap = some h' ∧ Valid im h' rs' ∧ Live im h' rs' (live.erase b) := by
  obtain ⟨fuel, h', rs', hrun, hsz, hring, hfreep, hkeeps⟩ := hv.ring.exists_free
    (X := ⟨b.hdr, units b.nbytes, units b.nbytes, Nat.le_refl _, units_pos _⟩) hv.freep (hl.le b hb) (hl.stop_le b hb)
    hv.lo_le (Nat.le_refl _) hv.le_va (hl.sized b hb) (hl.clear b hb)
  have hclear : ∀ c ∈ live.erase b, ∀ lo hi, c.hdr ≤ lo → hi ≤ c.stop → lo < hi →
      Clear (⟨b.hdr, units b.nbytes, units b.nbytes, Nat.le_refl _, units_pos _⟩ :: rs) lo hi := by
    intro c hc lo hi hlo hhi hlt
    obtain ⟨hbc, hmem⟩ := hl.apart_of_erase hb hc
    refine List.forall_mem_cons.2 ⟨?_, fun r hr => ?_⟩
    · rcases hbc with hbc | hbc
      · exact .inr (hbc.trans hlo)
      · exact .inl (hhi.trans hbc)
    · rcases hl.clear c hmem r hr with hcr | hcr
      · exact .inl (hhi.trans hcr)
      · exact .inr (hcr.trans hlo)
  refine ⟨fuel, h', rs', hrun, ⟨hsz ▸ hring, hfreep, hsz ▸ hv.lo_le, hsz ▸ hv.le_va⟩, fun c hc => ?_, fun c hc => ?_,
    fun c hc => ?_, fun c hc => ?_, hl.apart.sublist List.erase_sublist⟩
  · refine (size_congr fun i hi hi' => (hkeeps (i + 1)).same i (Nat.lt_succ_self i) (hclear c hc i _ hi ?_ ?_)).trans
      (hl.sized c (List.mem_of_mem_erase hc))
    · have := c.header_le
      omega
    · omega
  · exact hl.le c (List.mem_of_mem_erase hc)
  · exact hsz ▸ hl.stop_le c (List.mem_of_mem_erase hc)
  · have hlt : c.hdr < c.stop := by
      have := c.header_le
      omega
    exact (hkeeps c.stop).clear _ _ hlt (Nat.le_refl _) (hclear c hc _ _ (Nat.le_refl _) (Nat.le_refl _) hlt)

/-- A store into a block in use. -/
theorem write (hl : Live im h rs live) (hv : Valid im h rs) (hb : b ∈ live) {a : Nat} (hlo : b.ap ≤ a)
    (hhi : a < b.ap + b.nbytes.toNat) (v : UInt8) :
    Valid im { h with mem := Function.update h.mem a v } rs ∧
      Live im { h with mem := Function.update h.mem a v } rs live := by
  have hend := b.payload_le
  have hap : b.hdr + 16 = b.ap := rfl
  refine ⟨⟨hv.ring.congr fun r hr i hi hi' => Function.update_of_ne ?_ .., hv.freep, hv.lo_le, hv.le_va⟩,
    fun c hc => ?_, hl.le, hl.stop_le, hl.clear, hl.apart⟩
  · rintro rfl
    have := r.header_le
    rcases hl.clear b hb r hr with hc | hc <;> omega
  · refine (size_congr fun i hi hi' => Function.update_of_ne ?_ ..).trans (hl.sized c hc)
    rintro rfl
    have := c.header_le
    by_cases hbc : b = c
    · subst hbc
      omega
    · rcases hl.apart_of_ne hb hc hbc with hc | hc <;> omega

end Live

/-! ## Processes -/

/-- The heap at the first `malloc`: the static header is alone in the ring. -/
def Image.start (im : Image) (h : Heap) : Heap :=
  { h with mem := setSize (setPtr h.mem im.base im.base) im.base 0, freep := im.base }

theorem valid_start (hsz : h.sz = im.lo) : Valid im (im.start h) [im.root] := by
  have hbase := im.base_lt
  have hlo := im.lo_le
  have hlt : im.base < 2 ^ 64 := by
    have hva : trapframeVa < 2 ^ 64 := by decide
    omega
  have hself : ptr (setSize (setPtr h.mem im.base im.base) im.base 0) im.base = im.base := by
    rw [ptr_setSize, ptr_setPtr hlt]
  refine ⟨⟨rfl, ⟨⟨hself, trivial⟩, ?_, List.pairwise_singleton ..⟩, ?_⟩, List.mem_singleton_self _, hsz.ge, hsz ▸ hlo⟩
  · exact List.forall_mem_singleton.2 (size_setSize_of_lt (by decide))
  · exact List.forall_mem_singleton.2 (.inl rfl)

/-- A process before its first `malloc`, or with its heap and its blocks in order. -/
def InOrder (im : Image) (s : Process) : Prop :=
  s.heap.freep = 0 ∧ s.heap.sz = im.lo ∧ s.live = [] ∨ ∃ rs, Valid im s.heap rs ∧ Live im s.heap rs s.live

/-- The condition on a call. -/
def Proper (s : Process) : Call → Prop
  | .malloc nbytes grants => Fits (units nbytes) (grants.headD false) s.heap
  | _ => True

variable {s s' : Process} {nbytes : UInt32}

/-- `malloc` finishes, and answers from a heap in order. -/
theorem InOrder.exists_malloc (hs : InOrder im s) (hfits : Fits (units nbytes) (grants.headD false) s.heap) :
    ∃ fuel r, malloc im.base fuel grants s.heap nbytes = some r ∧
      ∃ h rs, Live im h rs s.live ∧ Answers im (units nbytes) h rs r := by
  rcases hs with ⟨hzero, hsz, hlive⟩ | ⟨rs, hv, hl⟩
  · have hv : Valid im (im.start s.heap) [im.root] := valid_start hsz
    have hfits' : Fits (units nbytes) (grants.headD false) (im.start s.heap) := by
      rcases hfits with hint | ⟨hne, -⟩ | hfail
      · exact .inl hint
      · exact absurd hzero hne
      · exact .inr (.inr hfail)
    obtain ⟨fuel, r, hrun, hr⟩ := hv.exists_mallocLoop (units_pos nbytes) hfits'
    refine ⟨fuel, r, ?_, _, _, ?_, hr⟩
    · rw [malloc, if_pos hzero]
      exact hrun
    · rw [hlive]
      exact ⟨by simp, by simp, by simp, by simp, .nil⟩
  · obtain ⟨fuel, r, hrun, hr⟩ := hv.exists_mallocLoop (units_pos nbytes) hfits
    refine ⟨fuel, r, ?_, _, rs, hl, hr⟩
    rw [malloc, if_neg hv.freep_pos.ne', hrun]

theorem InOrder.of_live {b : Block} (hs : InOrder im s) (hb : b ∈ s.live) :
    ∃ rs, Valid im s.heap rs ∧ Live im s.heap rs s.live := by
  rcases hs with ⟨-, -, hlive⟩ | hs
  · rw [hlive] at hb
    cases hb
  · exact hs

/-- One call keeps the heap in order. -/
theorem InOrder.step {c : Call} (hs : InOrder im s) (hc : Proper s c) (hstep : (processes im).step s c s') :
    InOrder im s' := by
  cases hstep with
  | fail hrun =>
    obtain ⟨fuel, r, hrun', h, rs, hl, rs', hr⟩ := hs.exists_malloc hc
    obtain rfl := malloc_unique hrun hrun'
    rcases hr with ⟨-, hg⟩ | ⟨q, hq, -⟩
    · exact .inr ⟨rs', hg.valid, hl.grown hg⟩
    · cases hq
  | malloc hrun hbytes =>
    obtain ⟨fuel, r, hrun', h, rs, hl, rs', hr⟩ := hs.exists_malloc hc
    obtain rfl := malloc_unique hrun hrun'
    rcases hr with ⟨hzero, -⟩ | ⟨q, hq, hg⟩
    · cases hzero
    · obtain rfl := Nat.add_right_cancel hq
      subst hbytes
      exact .inr ⟨rs', hg.valid, hl.given hg⟩
  | free hlive hrun =>
    obtain ⟨rs, hv, hl⟩ := hs.of_live hlive
    obtain ⟨fuel, h', rs', hrun', hv', hl'⟩ := hl.exists_free hv hlive
    obtain rfl := free_unique hrun hrun'
    exact .inr ⟨rs', hv', hl'⟩
  | write v hlive hlo hhi =>
    obtain ⟨rs, hv, hl⟩ := hs.of_live hlive
    exact .inr ⟨rs, hl.write hv hlive hlo hhi v⟩

theorem inOrder_of_reaches (hr : (processes im).Reaches Proper s) : InOrder im s :=
  hr.invariant (fun _ hs => .inl hs) fun _ _ _ hs hc hstep => hs.step hc hstep

/-- What the allocator is for: each block in use lies in memory from `sbrk`, and meets no other block,
header included, and no header of the free list; the list is a sorted ring of blocks that neither meet nor
touch, the static header first; and every search comes to an end. -/
structure Sound (im : Image) (s : Process) : Prop where
  obtained : ∀ b ∈ s.live, im.lo ≤ b.ap ∧ b.ap + b.nbytes.toNat ≤ s.heap.sz
  apart : s.live.Pairwise fun b c => b.ap + b.nbytes.toNat ≤ c.hdr ∨ c.ap + c.nbytes.toNat ≤ b.hdr
  headers : ∀ b ∈ s.live, ∀ k, b.ap + b.nbytes.toNat ≤ (ptr s.heap.mem)^[k] s.heap.freep ∨
    (ptr s.heap.mem)^[k] s.heap.freep + 16 ≤ b.ap
  ring : s.heap.freep ≠ 0 → ∃ l, Leads (ptr s.heap.mem) (im.base :: l) im.base ∧ s.heap.freep ∈ im.base :: l ∧
    (im.base :: l).Pairwise fun p q => p + 16 ≤ q ∧ p + 16 * size s.heap.mem p < q
  free_ends : ∀ b ∈ s.live, ∃ fuel, (free fuel s.heap b.ap).isSome
  malloc_ends : ∀ nbytes grants, Proper s (.malloc nbytes grants) →
    ∃ fuel, (malloc im.base fuel grants s.heap nbytes).isSome

theorem Valid.sorted (hv : Valid im h rs) : ∃ l, Leads (ptr h.mem) (im.base :: l) im.base ∧ h.freep ∈ im.base :: l ∧
    (im.base :: l).Pairwise fun p q => p + 16 ≤ q ∧ p + 16 * size h.mem p < q := by
  obtain ⟨bs, hbs⟩ := hv.ring.eq_cons
  have hmap : rs.map Region.addr = im.base :: bs.map Region.addr := by rw [hbs]; rfl
  have hleads := hv.ring.linked.leads
  have hfreep := hv.freep
  rw [hmap] at hleads hfreep
  refine ⟨bs.map Region.addr, hleads, hfreep, ?_⟩
  rw [← hmap, List.pairwise_map]
  refine hv.ring.linked.sorted.imp_of_mem fun {a b} ha hb hab => ?_
  have hsize := hv.ring.linked.sized a ha
  have := a.header_le
  have := a.size_le
  have := hab.1
  have := hab.2
  exact ⟨by omega, by omega⟩

theorem InOrder.sound (hs : InOrder im s) : Sound im s := by
  refine ⟨fun b hb => ?_, ?_, fun b hb k => ?_, fun hne => ?_, fun b hb => ?_, fun nbytes grants hc => ?_⟩
  · obtain ⟨rs, -, hl⟩ := hs.of_live hb
    exact ⟨(hl.le b hb).trans (Nat.le_add_right _ _), b.payload_le.trans (hl.stop_le b hb)⟩
  · rcases hs with ⟨-, -, hlive⟩ | ⟨rs, -, hl⟩
    · rw [hlive]
      exact .nil
    · exact hl.apart.imp fun {b c} hbc => hbc.imp b.payload_le.trans c.payload_le.trans
  · obtain ⟨rs, hv, hl⟩ := hs.of_live hb
    obtain ⟨r, hr, heq⟩ := List.mem_map.1 (hv.ring.iterate_mem hv.freep k)
    rw [← heq]
    refine (hl.clear b hb r hr).imp b.payload_le.trans fun hle => ?_
    exact (r.header_le.trans hle).trans (Nat.le_add_right _ _)
  · rcases hs with ⟨hzero, -⟩ | ⟨rs, hv, -⟩
    · exact absurd hzero hne
    · exact hv.sorted
  · obtain ⟨rs, hv, hl⟩ := hs.of_live hb
    obtain ⟨fuel, h', rs', hrun, -⟩ := hl.exists_free hv hb
    exact ⟨fuel, by rw [hrun]; rfl⟩
  · obtain ⟨fuel, r, hrun, -⟩ := hs.exists_malloc hc
    exact ⟨fuel, by rw [hrun]; rfl⟩

/-- In every run whose requests are an `int` in bytes, or are met by a block that is there, or are
turned down, the heap is sound. -/
theorem blocks_of_reaches (im : Image) {s : Process} (hr : (processes im).Reaches Proper s) : Sound im s :=
  (inOrder_of_reaches hr).sound

/-- A small program. -/
def tiny : Image := ⟨0x1000, 0x2000, by decide, by decide, by decide⟩

/-- Its process before any call. -/
def fresh : Process := ⟨⟨fun _ => 0, 0x2000, 0⟩, []⟩

/-- Two blocks are handed out, and the first is given back. -/
theorem blocks_of_reaches_tiny : ∃ s, s.live.map Block.nbytes = [20] ∧ Sound tiny s := by
  have hruns : (malloc tiny.base 4 [true] fresh.heap 10).map (fun r =>
      (r.1, (malloc tiny.base 4 [] r.2 20).map fun r => (r.1, (free 4 r.2 0x11ff0).isSome))) =
        some (0x11ff0, some (0x11fc0, true)) := by decide +kernel
  obtain ⟨⟨r, h⟩, hrun, heq⟩ := Option.map_eq_some_iff.1 hruns
  obtain ⟨rfl, heq⟩ := Prod.mk.inj heq
  obtain ⟨⟨r, h'⟩, hrun', heq⟩ := Option.map_eq_some_iff.1 heq
  obtain ⟨rfl, hfree⟩ := Prod.mk.inj heq
  obtain ⟨h'', hfree⟩ := Option.isSome_iff_exists.1 hfree
  have hfirst : (processes tiny).step fresh (.malloc 10 [true]) ⟨h, [⟨0x11fe0, 10⟩]⟩ := Step.malloc hrun rfl
  have hsecond : (processes tiny).step ⟨h, [⟨0x11fe0, 10⟩]⟩ (.malloc 20 []) ⟨h', [⟨0x11fb0, 20⟩, ⟨0x11fe0, 10⟩]⟩ :=
    Step.malloc hrun' rfl
  have hthird : (processes tiny).step ⟨h', [⟨0x11fb0, 20⟩, ⟨0x11fe0, 10⟩]⟩ (.free ⟨0x11fe0, 10⟩) ⟨h'', [⟨0x11fb0, 20⟩]⟩ :=
    Step.free (List.mem_cons_of_mem _ (List.mem_singleton_self _)) hfree
  have hproper : ∀ (s : Process) grants, Proper s (.malloc 10 grants) ∧ Proper s (.malloc 20 grants) :=
    fun s grants => ⟨Or.inl (by decide), Or.inl (by decide)⟩
  have hreach : (processes tiny).Reaches Proper fresh := .init ⟨rfl, rfl, rfl⟩
  have hreach₂ := (hreach.step (hproper _ _).1 hfirst).step (hproper _ _).2 hsecond
  exact ⟨_, rfl, blocks_of_reaches tiny (hreach₂.step (e := .free ⟨0x11fe0, 10⟩) trivial hthird)⟩

/-- Two calls, of which the first asks for almost all of the address space: the kernel is asked for 16
bytes, and the second block lies within the first. -/
theorem blocks_overlap : ∃ s, (processes tiny).Reaches (fun _ _ => True) s ∧ s.heap.sz = 0x12010 ∧
    s.live = [⟨0x11ff0, 10⟩, ⟨0x2000, 0xffffffff⟩] ∧ ¬ Sound tiny s := by
  have hruns : (malloc tiny.base 4 [true] fresh.heap 0xffffffff).map (fun r =>
      (r.1, (malloc tiny.base 4 [true] r.2 10).map fun r => (r.1, r.2.sz))) =
        some (0x2010, some (0x12000, 0x12010)) := by decide +kernel
  obtain ⟨⟨r, h⟩, hrun, heq⟩ := Option.map_eq_some_iff.1 hruns
  obtain ⟨rfl, heq⟩ := Prod.mk.inj heq
  obtain ⟨⟨r, h'⟩, hrun', heq⟩ := Option.map_eq_some_iff.1 heq
  obtain ⟨rfl, hsz⟩ := Prod.mk.inj heq
  have hstep : (processes tiny).step fresh (.malloc 0xffffffff [true]) ⟨h, [⟨0x2000, 0xffffffff⟩]⟩ :=
    Step.malloc hrun rfl
  have hstep' : (processes tiny).step ⟨h, [⟨0x2000, 0xffffffff⟩]⟩ (.malloc 10 [true])
      ⟨h', [⟨0x11ff0, 10⟩, ⟨0x2000, 0xffffffff⟩]⟩ := Step.malloc hrun' rfl
  refine ⟨_, .step (.step (.init ⟨rfl, rfl, rfl⟩) trivial hstep) trivial hstep', hsz, rfl, fun hs => ?_⟩
  have hapart := (List.pairwise_cons.1 hs.apart).1 _ (List.mem_singleton_self _)
  revert hapart
  decide

end Umalloc

end Xv6
