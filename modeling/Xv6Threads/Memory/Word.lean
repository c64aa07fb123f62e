-- SUMMARY: copyout, copyin and copyinstr on 64-bit addresses and bytes of physical memory.
import Mathlib.Data.Nat.Bitwise
import Xv6Threads.Memory.Copyin

/-!
# Copies on words

The copies between user and kernel memory as the machine runs them: user addresses
and lengths are 64-bit words, and both sides are bytes of physical memory. They
are exact for any address: what lies in front of the first page that user code
cannot reach is copied, and nothing else is touched.
-/

namespace Xv6

/-- Physical memory, byte by byte. -/
abbrev Ram := Nat → UInt8

/-- `memmove`. -/
def Ram.memmove (ram : Ram) (dst src n : Nat) : Ram :=
  fun a => if dst ≤ a ∧ a < dst + n then ram (src + (a - dst)) else ram a

namespace Word

/-! ## The code -/

/-- `PGSIZE`. -/
def page : UInt64 := 4096

/-- `PGROUNDDOWN`. -/
def roundDown (a : UInt64) : UInt64 := a &&& ~~~(page - 1)

/-- `walkaddr`: the address of the page, or `0`. -/
def walkaddr (pt : PageTable) (va : UInt64) : Nat := (pt.walkaddr va.toNat).elim 0 (· * pgSize)

/-- The common loop of `copyout` and `copyin`, where `move ram pa b n` moves `n`
bytes between `pa` and the kernel address `b`; every round moves at least one byte. -/
def copyLoop (move : Ram → Nat → Nat → Nat → Ram) (pt : PageTable) : Nat → Ram → UInt64 → Nat → UInt64 → Int × Ram
  | 0, ram, _, _, _ => (0, ram)
  | fuel + 1, ram, va, b, len =>
    if 0 < len then
      let va0 := roundDown va
      let pa0 := walkaddr pt va0
      if pa0 = 0 then (-1, ram)
      else
        let n := page - (va - va0)
        let n := if len < n then len else n
        copyLoop move pt fuel (move ram (pa0 + (va - va0).toNat) b n.toNat) (va0 + page) (b + n.toNat) (len - n)
    else (0, ram)

/-- `copyout(pagetable, dstva, src, len)`. -/
def copyout (pt : PageTable) (ram : Ram) (dstva : UInt64) (src : Nat) (len : UInt64) : Int × Ram :=
  copyLoop (fun ram pa src n => ram.memmove pa src n) pt len.toNat ram dstva src len

/-- `copyin(pagetable, dst, srcva, len)`. -/
def copyin (pt : PageTable) (ram : Ram) (dst : Nat) (srcva len : UInt64) : Int × Ram :=
  copyLoop (fun ram pa dst n => ram.memmove dst pa n) pt len.toNat ram srcva dst len

/-- The inner loop of `copyinstr`, for `n` bytes from `p` on: `got_null`, the
memory, `dst` and `max`. -/
def copyinstrPage : Nat → Ram → Nat → Nat → UInt64 → Bool × Ram × Nat × UInt64
  | 0, ram, _, dst, max => (false, ram, dst, max)
  | n + 1, ram, p, dst, max =>
    if ram p = 0 then (true, Function.update ram dst 0, dst, max)
    else copyinstrPage n (Function.update ram dst (ram p)) (p + 1) (dst + 1) (max - 1)

/-- The outer loop of `copyinstr`; every round takes at least one byte. -/
def copyinstrLoop (pt : PageTable) : Nat → Ram → Nat → UInt64 → UInt64 → Int × Ram
  | 0, ram, _, _, _ => (-1, ram)
  | fuel + 1, ram, dst, srcva, max =>
    if 0 < max then
      let va0 := roundDown srcva
      let pa0 := walkaddr pt va0
      if pa0 = 0 then (-1, ram)
      else
        let n := page - (srcva - va0)
        let n := if max < n then max else n
        let s := copyinstrPage n.toNat ram (pa0 + (srcva - va0).toNat) dst max
        if s.1 then (0, s.2.1) else copyinstrLoop pt fuel s.2.1 s.2.2.1 (va0 + page) s.2.2.2
    else (-1, ram)

/-- `copyinstr(pagetable, dst, srcva, max)`. -/
def copyinstr (pt : PageTable) (ram : Ram) (dst : Nat) (srcva max : UInt64) : Int × Ram :=
  copyinstrLoop pt max.toNat ram dst srcva max

/-! ## Addresses -/

theorem page_toNat : page.toNat = pgSize := rfl

theorem roundDown_toNat (a : UInt64) : (roundDown a).toNat = pgRoundDown a.toNat := by
  have hmask : (~~~(page - 1)).toNat = (2 ^ 52 - 1) <<< 12 := by decide
  have hround : pgRoundDown a.toNat = a.toNat >>> 12 <<< 12 := by
    rw [Nat.shiftLeft_eq, Nat.shiftRight_eq_div_pow]
    rfl
  have hword := a.toNat_lt
  rw [roundDown, UInt64.toNat_and, hmask, hround]
  refine Nat.eq_of_testBit_eq fun i => ?_
  rw [Nat.testBit_and, Nat.testBit_shiftLeft, Nat.testBit_shiftLeft, Nat.testBit_shiftRight, Nat.testBit_two_pow_sub_one]
  by_cases hi : 12 ≤ i
  · rw [Nat.add_sub_cancel' hi]
    by_cases hhigh : i - 12 < 52
    · simp [hi, hhigh]
    · have hzero : a.toNat.testBit i = false :=
        Nat.testBit_lt_two_pow (hword.trans_le (Nat.pow_le_pow_right (by decide) (by omega)))
      simp [hzero]
  · simp [hi]

/-- A user page that user code may reach is mapped at this address. -/
def Accessible (pt : PageTable) (va : Nat) : Prop := va < maxVa ∧ ∃ e, pt.lookup va = some e ∧ e.perm.u = true

/-- The physical address of a user address. -/
def translate (pt : PageTable) (va : Nat) : Option Nat :=
  (pt.walkaddr (pgRoundDown va)).map fun f => f * pgSize + va % pgSize

variable {pt : PageTable} {ram ram' ram₁ : Ram} {va len : UInt64} {v n k buf size : Nat} {f : Ppn}

theorem round_add (v : Nat) : pgRoundDown v + v % pgSize = v := Nat.div_add_mod' v pgSize

theorem mod_lt (v : Nat) : v % pgSize < pgSize := Nat.mod_lt _ (by decide)

theorem accessible_iff : Accessible pt v ↔ ∃ f, pt.walkaddr (pgRoundDown v) = some f := by
  have hlook : pt.lookup (pgRoundDown v) = pt.lookup v := by
    simp only [PageTable.lookup, PageTable.level0, px_pgRoundDown]
  have hmax : maxVa ≤ pgRoundDown v ↔ maxVa ≤ v := by
    simp only [pgRoundDown, pgSize, maxVa]
    omega
  rw [PageTable.walkaddr, hlook]
  constructor
  · rintro ⟨hlt, e, he, hu⟩
    exact ⟨e.ppn, by rw [if_neg (by rw [hmax]; omega), he]; exact if_pos hu⟩
  · rintro ⟨f, hf⟩
    by_cases hge : maxVa ≤ pgRoundDown v
    · rw [if_pos hge] at hf
      cases hf
    · rw [if_neg hge] at hf
      obtain ⟨e, he, hu⟩ := Option.bind_eq_some_iff.1 hf
      refine ⟨by rw [hmax] at hge; omega, e, he, ?_⟩
      by_contra hnot
      rw [if_neg hnot] at hu
      cases hu

theorem translate_eq_some (h : pt.walkaddr (pgRoundDown v) = some f) : translate pt v = some (f * pgSize + v % pgSize) := by
  rw [translate, h]
  rfl

theorem accessible_iff_translate : Accessible pt v ↔ ∃ a, translate pt v = some a := by
  rw [accessible_iff]
  constructor
  · rintro ⟨f, hf⟩
    exact ⟨_, translate_eq_some hf⟩
  · rintro ⟨a, ha⟩
    obtain ⟨f, hf, -⟩ := Option.map_eq_some_iff.1 ha
    exact ⟨f, hf⟩

/-- The offset in the page. -/
theorem sub_roundDown (va : UInt64) : (va - roundDown va).toNat = va.toNat % pgSize := by
  have hround := round_add va.toNat
  rw [UInt64.toNat_sub_of_le _ _ (UInt64.le_iff_toNat_le.2 (by rw [roundDown_toNat]; omega)), roundDown_toNat]
  omega

/-- The bytes of one round. -/
theorem chunk_toNat (va len : UInt64) :
    (if len < page - (va - roundDown va) then len else page - (va - roundDown va)).toNat =
      min (pgSize - va.toNat % pgSize) len.toNat := by
  have hmod := mod_lt va.toNat
  have hn : (page - (va - roundDown va)).toNat = pgSize - va.toNat % pgSize := by
    rw [UInt64.toNat_sub_of_le _ _ (UInt64.le_iff_toNat_le.2 (by rw [sub_roundDown, page_toNat]; omega)), sub_roundDown,
      page_toNat]
  split
  · rename_i hlt
    rw [UInt64.lt_iff_toNat_lt, hn] at hlt
    omega
  · rename_i hge
    rw [UInt64.lt_iff_toNat_lt, hn] at hge
    rw [hn]
    omega

/-- A page that is there ends below `2 ^ 64`. -/
theorem next_toNat (h : pt.walkaddr (pgRoundDown va.toNat) = some f) :
    (roundDown va + page).toNat = pgRoundDown va.toNat + pgSize := by
  have hlt := (accessible_iff.2 ⟨f, h⟩).1
  have hround := round_add va.toNat
  have hmax : maxVa + pgSize < 2 ^ 64 := by decide
  rw [UInt64.toNat_add, roundDown_toNat, page_toNat, Nat.mod_eq_of_lt (by omega)]

theorem walkaddr_eq (va : UInt64) : walkaddr pt (roundDown va) = (pt.walkaddr (pgRoundDown va.toNat)).elim 0 (· * pgSize) := by
  rw [walkaddr, roundDown_toNat]

/-! ## What a copy does -/

/-- The frames are not page `0`, no two pages share one, and they are apart from a
buffer of `size` bytes. -/
structure Separate (pt : PageTable) (buf size : Nat) : Prop where
  nonzero : ∀ va, pt.walkaddr va ≠ some 0
  distinct : ∀ v v' f, pt.walkaddr v = some f → pt.walkaddr v' = some f → v / pgSize = v' / pgSize
  apart : ∀ v a, translate pt v = some a → a < buf ∨ buf + size ≤ a

/-- The first `k` of the `n` addresses from `v` on are those before the first that
user code cannot reach. -/
structure Prefix (pt : PageTable) (v n k : Nat) : Prop where
  le : k ≤ n
  before : ∀ i < k, Accessible pt (v + i)
  stop : k < n → ¬ Accessible pt (v + k)

/-- `k` bytes from `src` on are at the user addresses from `v` on; nothing else has changed. -/
structure CopiedOut (pt : PageTable) (ram : Ram) (v src k : Nat) (ram' : Ram) : Prop where
  there : ∀ i < k, ∀ a, translate pt (v + i) = some a → ram' a = ram (src + i)
  other : ∀ a, (∀ i < k, translate pt (v + i) ≠ some a) → ram' a = ram a

/-- `k` bytes from the user addresses from `v` on are at `dst`; nothing else has changed. -/
structure CopiedIn (pt : PageTable) (ram : Ram) (dst v k : Nat) (ram' : Ram) : Prop where
  there : ∀ i < k, ∀ a, translate pt (v + i) = some a → ram' (dst + i) = ram a
  other : ∀ a, a < dst ∨ dst + k ≤ a → ram' a = ram a

/-- Two user addresses with the same physical address are the same. -/
theorem Separate.translate_inj (h : Separate pt buf size) {v v' a : Nat} (ha : translate pt v = some a)
    (ha' : translate pt v' = some a) : v = v' := by
  obtain ⟨f, hf, rfl⟩ := Option.map_eq_some_iff.1 ha
  obtain ⟨f', hf', heq⟩ := Option.map_eq_some_iff.1 ha'
  have hlt := mod_lt v
  have hlt' := mod_lt v'
  have hpage : f' = f := by
    rw [pgSize] at *
    omega
  subst hpage
  have hmod : v' % pgSize = v % pgSize := Nat.add_left_cancel heq
  have hdiv := h.distinct _ _ _ hf hf'
  rw [pgRoundDown, pgRoundDown, Nat.mul_div_cancel _ (by decide), Nat.mul_div_cancel _ (by decide)] at hdiv
  rw [← Nat.div_add_mod v pgSize, ← Nat.div_add_mod v' pgSize, hdiv, hmod]

/-- The addresses of one round are next to each other in one frame. -/
theorem translate_chunk (h : pt.walkaddr (pgRoundDown v) = some f) {i : Nat} (hi : i < pgSize - v % pgSize) :
    translate pt (v + i) = some (f * pgSize + v % pgSize + i) := by
  have hsame : pgRoundDown (v + i) = pgRoundDown v ∧ (v + i) % pgSize = v % pgSize + i := by
    simp only [pgRoundDown, pgSize] at *
    omega
  rw [translate_eq_some (by rw [hsame.1, h]), hsame.2, Nat.add_assoc]

theorem Prefix.append (h : ∀ i < n, Accessible pt (v + i)) {m k : Nat} (hk : Prefix pt (v + n) m k) :
    Prefix pt v (n + m) (n + k) := by
  refine ⟨by have := hk.le; omega, fun i hi => ?_, fun hlt => ?_⟩
  · rcases Nat.lt_or_ge i n with hin | hin
    · exact h i hin
    · have := hk.before (i - n) (by omega)
      rwa [show v + n + (i - n) = v + i by omega] at this
  · have := hk.stop (by omega)
    rwa [Nat.add_assoc] at this

theorem CopiedOut.nil (pt : PageTable) (ram : Ram) (v src : Nat) : CopiedOut pt ram v src 0 ram :=
  ⟨fun _ hi => by omega, fun _ _ => rfl⟩

theorem CopiedIn.nil (pt : PageTable) (ram : Ram) (dst v : Nat) : CopiedIn pt ram dst v 0 ram :=
  ⟨fun _ hi => by omega, fun _ _ => rfl⟩

theorem CopiedOut.append {src : Nat} (hn : CopiedOut pt ram v src n ram₁)
    (hsep : Separate pt buf size) (hbuf : buf ≤ src) (hend : src + n + k ≤ buf + size)
    (hk : CopiedOut pt ram₁ (v + n) (src + n) k ram') : CopiedOut pt ram v src (n + k) ram' := by
  refine ⟨fun i hi a ha => ?_, fun a hother => ?_⟩
  · rcases Nat.lt_or_ge i n with hin | hin
    · rw [hk.other a fun j hj hja => ?_, hn.there i hin a ha]
      have := hsep.translate_inj ha hja
      omega
    · have hthere := hk.there (i - n) (by omega) a (by rw [show v + n + (i - n) = v + i by omega, ha])
      rw [hthere, show src + n + (i - n) = src + i by omega]
      -- the buffer was not written
      refine hn.other _ fun j hj hja => ?_
      have := hsep.apart _ _ hja
      omega
  · rw [hk.other a fun j hj => ?_, hn.other a fun j hj => hother j (by omega)]
    rw [Nat.add_assoc]
    exact hother (n + j) (by omega)

theorem CopiedIn.append {dst : Nat} (hn : CopiedIn pt ram dst v n ram₁)
    (hsep : Separate pt buf size) (hbuf : buf ≤ dst) (hend : dst + n + k ≤ buf + size)
    (hk : CopiedIn pt ram₁ (dst + n) (v + n) k ram') : CopiedIn pt ram dst v (n + k) ram' := by
  refine ⟨fun i hi a ha => ?_, fun a hother => ?_⟩
  · have hfar := hsep.apart _ _ ha
    rcases Nat.lt_or_ge i n with hin | hin
    · rw [hk.other _ (.inl (by omega)), hn.there i hin a ha]
    · have hthere := hk.there (i - n) (by omega) a (by rw [show v + n + (i - n) = v + i by omega, ha])
      rw [show dst + n + (i - n) = dst + i by omega] at hthere
      rw [hthere]
      exact hn.other a (by omega)
  · rw [hk.other a (by omega), hn.other a (by omega)]

/-! ## One round -/

theorem Separate.frame_pos (hsep : Separate pt buf size) (h : pt.walkaddr v = some f) : f * pgSize ≠ 0 := by
  have hne : f ≠ 0 := by
    rintro rfl
    exact hsep.nonzero v h
  exact Nat.mul_ne_zero hne (by decide)

theorem accessible_chunk (h : pt.walkaddr (pgRoundDown v) = some f) (hn : n ≤ pgSize - v % pgSize) {i : Nat} (hi : i < n) :
    Accessible pt (v + i) :=
  accessible_iff_translate.2 ⟨_, translate_chunk h (by omega)⟩

theorem copiedOut_chunk {src : Nat} (h : pt.walkaddr (pgRoundDown v) = some f) (hn : n ≤ pgSize - v % pgSize) :
    CopiedOut pt ram v src n (ram.memmove (f * pgSize + v % pgSize) src n) := by
  refine ⟨fun i hi a ha => ?_, fun a hother => if_neg fun hin => ?_⟩
  · rw [translate_chunk h (by omega)] at ha
    cases ha
    rw [Ram.memmove, if_pos (by omega), Nat.add_sub_cancel_left]
  · have := translate_chunk h (show a - (f * pgSize + v % pgSize) < pgSize - v % pgSize by omega)
    rw [Nat.add_sub_cancel' hin.1] at this
    exact hother _ (by omega) this

theorem copiedIn_chunk {dst : Nat} (h : pt.walkaddr (pgRoundDown v) = some f) (hn : n ≤ pgSize - v % pgSize) :
    CopiedIn pt ram dst v n (ram.memmove dst (f * pgSize + v % pgSize) n) := by
  refine ⟨fun i hi a ha => ?_, fun a hother => if_neg (by omega)⟩
  rw [translate_chunk h (by omega)] at ha
  cases ha
  rw [Ram.memmove, if_pos (by omega), Nat.add_sub_cancel_left]

/-- After a round that does not end the copy, the next page comes. -/
theorem next_eq (h : pt.walkaddr (pgRoundDown va.toNat) = some f) (hmore : pgSize - va.toNat % pgSize ≤ n) :
    (roundDown va + page).toNat = va.toNat + min (pgSize - va.toNat % pgSize) n := by
  have hround := round_add va.toNat
  have hmod := mod_lt va.toNat
  rw [next_toNat h]
  omega

theorem not_accessible_of_walkaddr (h : pt.walkaddr (pgRoundDown v) = none) : ¬ Accessible pt v := by
  rw [accessible_iff, h]
  rintro ⟨f, hf⟩
  cases hf

/-! ## copyout and copyin -/

/-- A loop that copies page by page copies up to the first page that is missing,
for any account `C` of what was copied that holds of one round and adds up. -/
theorem copyLoop_exact {move : Ram → Nat → Nat → Nat → Ram} {C : Ram → Nat → Nat → Nat → Ram → Prop}
    (hsep : Separate pt buf size) (hnil : ∀ ram v b, C ram v b 0 ram)
    (hround : ∀ ram v b n f, pt.walkaddr (pgRoundDown v) = some f → n ≤ pgSize - v % pgSize →
      C ram v b n (move ram (f * pgSize + v % pgSize) b n))
    (happend : ∀ ram v b n ram₁ k ram', C ram v b n ram₁ → buf ≤ b → b + n + k ≤ buf + size →
      C ram₁ (v + n) (b + n) k ram' → C ram v b (n + k) ram')
    {fuel : Nat} (ram : Ram) (va : UInt64) (b : Nat) (len : UInt64) (hbuf : buf ≤ b) (hend : b + len.toNat ≤ buf + size)
    (hfuel : len.toNat ≤ fuel) :
    ∃ k ram', copyLoop move pt fuel ram va b len = (if k = len.toNat then 0 else -1, ram') ∧
      Prefix pt va.toNat len.toNat k ∧ C ram va.toNat b k ram' := by
  have hnone : ∀ (ram : Ram) (va : UInt64) (b : Nat) (len : UInt64), len.toNat = 0 →
      ∃ k ram', ((0, ram) : Int × Ram) = (if k = len.toNat then 0 else -1, ram') ∧
        Prefix pt va.toNat len.toNat k ∧ C ram va.toNat b k ram' := fun ram va b len hlen =>
    ⟨0, ram, by rw [if_pos hlen.symm], ⟨Nat.zero_le _, fun _ hi => by omega, fun hlt => by omega⟩, hnil _ _ _⟩
  induction fuel generalizing ram va b len with
  | zero => exact hnone ram va b len (by omega)
  | succ fuel ih =>
    rw [copyLoop]
    by_cases hpos : 0 < len
    swap
    · rw [if_neg hpos]
      refine hnone ram va b len ?_
      rw [UInt64.lt_iff_toNat_lt, UInt64.toNat_zero] at hpos
      omega
    rw [if_pos hpos]
    rw [UInt64.lt_iff_toNat_lt, UInt64.toNat_zero] at hpos
    dsimp only
    rw [walkaddr_eq]
    cases hwalk : pt.walkaddr (pgRoundDown va.toNat) with
    | none =>
      have hmissing : (if (0 : Nat) = len.toNat then (0 : Int) else -1) = -1 := if_neg (by omega)
      exact ⟨0, ram, (if_pos rfl).trans (congrArg (·, ram) hmissing.symm),
        ⟨Nat.zero_le _, fun _ hi => by omega, fun _ => not_accessible_of_walkaddr hwalk⟩, hnil _ _ _⟩
    | some f =>
      show ∃ k ram', (if f * pgSize = 0 then _ else copyLoop move pt fuel (move ram (f * pgSize + _) b _) _ _ _) = _ ∧ _
      rw [if_neg (hsep.frame_pos hwalk), sub_roundDown]
      have hchunk := chunk_toNat va len
      generalize (if len < page - (va - roundDown va) then len else page - (va - roundDown va)) = w at hchunk ⊢
      have hmod := mod_lt va.toNat
      have hle : w.toNat ≤ pgSize - va.toNat % pgSize := by omega
      have hrest : (len - w).toNat = len.toNat - w.toNat :=
        UInt64.toNat_sub_of_le _ _ (UInt64.le_iff_toNat_le.2 (by omega))
      have hfirst := hround ram va.toNat b w.toNat f hwalk hle
      generalize move ram (f * pgSize + va.toNat % pgSize) b w.toNat = ram₁ at hfirst ⊢
      have hpages : ∀ i < w.toNat, Accessible pt (va.toNat + i) := fun i hi => accessible_chunk hwalk hle hi
      by_cases hlast : pgSize - va.toNat % pgSize ≤ len.toNat
      · -- the round ends at the end of the page
        obtain ⟨k, ram', hrun, hpre, hcopy⟩ := ih ram₁ (roundDown va + page) (b + w.toNat) (len - w) (by omega) (by omega)
          (by omega)
        rw [next_eq hwalk hlast, ← hchunk] at hpre hcopy
        have hsum : w.toNat + (len - w).toNat = len.toNat := by omega
        have hk := hpre.le
        refine ⟨w.toNat + k, ram', ?_, hsum ▸ hpre.append hpages, happend _ _ _ _ _ _ _ hfirst hbuf (by omega) hcopy⟩
        rw [hrun]
        exact congrArg (·, ram') (if_congr (by omega) rfl rfl)
      · -- the round ends the copy
        have hw : w.toNat = len.toNat := by omega
        have hdone : ¬ 0 < len - w := by
          rw [UInt64.lt_iff_toNat_lt, UInt64.toNat_zero]
          omega
        refine ⟨w.toNat, ram₁, ?_, hw ▸ ⟨Nat.le_refl _, hpages, fun hlt => absurd hlt (lt_irrefl _)⟩, hfirst⟩
        rw [if_pos hw]
        cases fuel with
        | zero => rfl
        | succ fuel => exact if_neg hdone

theorem copyout_exact (ram : Ram) (dstva : UInt64) (src : Nat) (len : UInt64) (hsep : Separate pt src len.toNat) :
    ∃ k ram', copyout pt ram dstva src len = (if k = len.toNat then 0 else -1, ram') ∧
      Prefix pt dstva.toNat len.toNat k ∧ CopiedOut pt ram dstva.toNat src k ram' :=
  copyLoop_exact (C := CopiedOut pt) hsep (CopiedOut.nil pt) (fun _ _ _ _ _ hf hn => copiedOut_chunk hf hn)
    (fun _ _ _ _ _ _ _ hn hbuf hend hk => hn.append hsep hbuf hend hk) ram dstva src len (Nat.le_refl _) (Nat.le_refl _)
    (Nat.le_refl _)

theorem copyin_exact (ram : Ram) (dst : Nat) (srcva len : UInt64) (hsep : Separate pt dst len.toNat) :
    ∃ k ram', copyin pt ram dst srcva len = (if k = len.toNat then 0 else -1, ram') ∧
      Prefix pt srcva.toNat len.toNat k ∧ CopiedIn pt ram dst srcva.toNat k ram' :=
  copyLoop_exact (C := fun ram v dst k ram' => CopiedIn pt ram dst v k ram') hsep (fun ram v dst => CopiedIn.nil pt ram dst v)
    (fun _ _ _ _ _ hf hn => copiedIn_chunk hf hn) (fun _ _ _ _ _ _ _ hn hbuf hend hk => hn.append hsep hbuf hend hk) ram
    srcva dst len (Nat.le_refl _) (Nat.le_refl _) (Nat.le_refl _)

/-! ## copyinstr -/

/-- The first zero byte of the string at `v` is byte `k`, and user code can reach all of it. -/
structure Ends (pt : PageTable) (ram : Ram) (v k : Nat) : Prop where
  access : ∀ i ≤ k, Accessible pt (v + i)
  nul : ∀ a, translate pt (v + k) = some a → ram a = 0
  before : ∀ i < k, ∀ a, translate pt (v + i) = some a → ram a ≠ 0

/-- One byte and the bytes after it. -/
theorem memmove_succ {dst p : Nat} (h : ∀ i < n + 1, p + i < dst ∨ dst + (n + 1) ≤ p + i) :
    Ram.memmove (Function.update ram dst (ram p)) (dst + 1) (p + 1) n = ram.memmove dst p (n + 1) := by
  funext a
  simp only [Ram.memmove]
  by_cases hfirst : a = dst
  · subst hfirst
    rw [if_neg (by omega), if_pos (by omega), Function.update_self, Nat.sub_self, Nat.add_zero]
  · by_cases hin : dst + 1 ≤ a ∧ a < dst + 1 + n
    · have hfar := h (a - dst) (by omega)
      rw [if_pos hin, if_pos (by omega), show p + 1 + (a - (dst + 1)) = p + (a - dst) by omega,
        Function.update_of_ne (by omega)]
    · rw [if_neg hin, if_neg (by omega), Function.update_of_ne hfirst]

/-- The inner loop stops behind the first zero byte, or it takes the whole page. -/
theorem copyinstrPage_eq (ram : Ram) (dst p : Nat) (lim : UInt64) (h : ∀ i < n, p + i < dst ∨ dst + n ≤ p + i) (hn : n ≤ lim.toNat) :
    (∃ z dst' lim', z < n ∧ ram (p + z) = 0 ∧ (∀ i < z, ram (p + i) ≠ 0) ∧
        copyinstrPage n ram p dst lim = (true, ram.memmove dst p (z + 1), dst', lim')) ∨
      ((∀ i < n, ram (p + i) ≠ 0) ∧ ∃ lim' : UInt64, lim'.toNat = lim.toNat - n ∧
        copyinstrPage n ram p dst lim = (false, ram.memmove dst p n, dst + n, lim')) := by
  induction n generalizing ram dst p lim with
  | zero =>
    refine .inr ⟨fun i hi => by omega, lim, rfl, ?_⟩
    have hsame : ram.memmove dst p 0 = ram := funext fun a => if_neg (by omega)
    rw [hsame]
    rfl
  | succ n ih =>
    rw [copyinstrPage]
    by_cases hzero : ram p = 0
    · rw [if_pos hzero]
      refine .inl ⟨0, dst, lim, Nat.succ_pos _, hzero, fun i hi => by omega, ?_⟩
      have hone : Function.update ram dst 0 = ram.memmove dst p 1 := by
        funext a
        rw [Ram.memmove]
        by_cases ha : a = dst
        · rw [ha, Function.update_self, if_pos (by omega), Nat.sub_self, Nat.add_zero, hzero]
        · rw [Function.update_of_ne ha, if_neg (by omega)]
      rw [hone]
    rw [if_neg hzero]
    have hsame : ∀ i < n, Function.update ram dst (ram p) (p + 1 + i) = ram (p + (i + 1)) := by
      intro i hi
      have hfar := h (i + 1) (by omega)
      rw [Function.update_of_ne (by omega), show p + 1 + i = p + (i + 1) by omega]
    have hlim : (lim - 1).toNat = lim.toNat - 1 := by
      have hone : (1 : UInt64).toNat = 1 := rfl
      rw [UInt64.toNat_sub_of_le _ _ (UInt64.le_iff_toNat_le.2 (by omega)), hone]
    have hnonzero : ∀ z, (∀ i < z, Function.update ram dst (ram p) (p + 1 + i) ≠ 0) → z ≤ n → ∀ i < z + 1, ram (p + i) ≠ 0 := by
      intro z hz hle i hi
      cases i with
      | zero => exact hzero
      | succ i =>
        rw [← hsame i (by omega)]
        exact hz i (by omega)
    rcases ih (Function.update ram dst (ram p)) (dst + 1) (p + 1) (lim - 1)
      (fun i hi => by have := h (i + 1) (by omega); omega) (by omega) with
      ⟨z, dst', lim', hz, hnul, hbefore, hrun⟩ | ⟨hall, lim', hlim', hrun⟩
    · refine .inl ⟨z + 1, dst', lim', by omega, ?_, hnonzero z hbefore hz.le, ?_⟩
      · rw [← hsame z hz]
        exact hnul
      · rw [hrun, memmove_succ fun i hi => ?_]
        have := h i (by omega)
        omega
    · refine .inr ⟨hnonzero n hall (Nat.le_refl _), lim', by omega, ?_⟩
      rw [hrun, memmove_succ h, Nat.add_right_comm, Nat.add_assoc]

/-- A string that goes on behind `n` bytes other than zero. -/
theorem Ends.append {dst : Nat} (hsep : Separate pt buf size) (hbuf : buf ≤ dst) (hend : dst + n ≤ buf + size)
    (hpages : ∀ i < n, Accessible pt (v + i)) (hnonzero : ∀ i < n, ∀ a, translate pt (v + i) = some a → ram a ≠ 0)
    (hn : CopiedIn pt ram dst v n ram₁) : Ends pt ram₁ (v + n) k ↔ Ends pt ram v (n + k) := by
  have hsame : ∀ w a, translate pt w = some a → ram₁ a = ram a := by
    intro w a ha
    have := hsep.apart _ _ ha
    exact hn.other a (by omega)
  constructor
  · rintro ⟨haccess, hnul, hbefore⟩
    refine ⟨fun i hi => ?_, fun a ha => ?_, fun i hi a ha => ?_⟩
    · rcases Nat.lt_or_ge i n with hin | hin
      · exact hpages i hin
      · have := haccess (i - n) (by omega)
        rwa [show v + n + (i - n) = v + i by omega] at this
    · rw [← hsame _ a ha]
      exact hnul a (by rwa [Nat.add_assoc])
    · rcases Nat.lt_or_ge i n with hin | hin
      · exact hnonzero i hin a ha
      · rw [← hsame _ a ha]
        exact hbefore (i - n) (by omega) a (by rwa [show v + n + (i - n) = v + i by omega])
  · rintro ⟨haccess, hnul, hbefore⟩
    refine ⟨fun i hi => ?_, fun a ha => ?_, fun i hi a ha => ?_⟩
    · rw [Nat.add_assoc]
      exact haccess (n + i) (by omega)
    · rw [Nat.add_assoc] at ha
      rw [hsame _ a ha]
      exact hnul a ha
    · rw [Nat.add_assoc] at ha
      rw [hsame _ a ha]
      exact hbefore (n + i) (by omega) a ha

/-- How `copyinstr` ends: with the string, or, if there is none, with some of the bytes before. -/
def Fetched (pt : PageTable) (ram : Ram) (dst v n : Nat) (r : Int) (ram' : Ram) : Prop :=
  (r = 0 ∧ ∃ k < n, Ends pt ram v k ∧ CopiedIn pt ram dst v (k + 1) ram') ∨
    (r = -1 ∧ (∀ k < n, ¬ Ends pt ram v k) ∧ ∃ k ≤ n, CopiedIn pt ram dst v k ram')

theorem Fetched.nothing (pt : PageTable) (ram : Ram) (dst : Nat) (h : ∀ k < n, ¬ Ends pt ram v k) :
    Fetched pt ram dst v n (-1) ram :=
  .inr ⟨rfl, h, 0, Nat.zero_le _, .nil _ _ _ _⟩

theorem copyinstrLoop_exact (fuel : Nat) (ram : Ram) (dst : Nat) (va lim : UInt64) (hsep : Separate pt buf size)
    (hbuf : buf ≤ dst) (hend : dst + lim.toNat ≤ buf + size) (hfuel : lim.toNat ≤ fuel) :
    ∃ r ram', copyinstrLoop pt fuel ram dst va lim = (r, ram') ∧ Fetched pt ram dst va.toNat lim.toNat r ram' := by
  induction fuel generalizing ram dst va lim with
  | zero => exact ⟨-1, ram, rfl, .nothing pt ram dst fun k hk => by omega⟩
  | succ fuel ih =>
    rw [copyinstrLoop]
    by_cases hpos : 0 < lim
    swap
    · rw [UInt64.lt_iff_toNat_lt, UInt64.toNat_zero] at hpos
      rw [if_neg (by rwa [UInt64.lt_iff_toNat_lt, UInt64.toNat_zero])]
      exact ⟨-1, ram, rfl, .nothing pt ram dst fun k hk => by omega⟩
    rw [if_pos hpos]
    rw [UInt64.lt_iff_toNat_lt, UInt64.toNat_zero] at hpos
    dsimp only
    rw [walkaddr_eq]
    cases hwalk : pt.walkaddr (pgRoundDown va.toNat) with
    | none =>
      exact ⟨-1, ram, if_pos rfl, .nothing pt ram dst fun k _ hends =>
        not_accessible_of_walkaddr hwalk (hends.access 0 (Nat.zero_le _))⟩
    | some f =>
      rw [Option.elim_some, if_neg (hsep.frame_pos hwalk), sub_roundDown]
      have hchunk := chunk_toNat va lim
      generalize (if lim < page - (va - roundDown va) then lim else page - (va - roundDown va)) = w at hchunk ⊢
      have hmod := mod_lt va.toNat
      have hle : w.toNat ≤ pgSize - va.toNat % pgSize := by omega
      have hpages : ∀ i < w.toNat, Accessible pt (va.toNat + i) := fun i hi => accessible_chunk hwalk hle hi
      have haddr : ∀ i < w.toNat, translate pt (va.toNat + i) = some (f * pgSize + va.toNat % pgSize + i) :=
        fun i hi => translate_chunk hwalk (by omega)
      have hapart : ∀ i < w.toNat, f * pgSize + va.toNat % pgSize + i < dst ∨
          dst + w.toNat ≤ f * pgSize + va.toNat % pgSize + i := by
        intro i hi
        rcases hsep.apart _ _ (haddr i hi) with hlow | hhigh
        · exact .inl (Nat.lt_of_lt_of_le hlow hbuf)
        · exact .inr (Nat.le_trans (show dst + w.toNat ≤ buf + size by omega) hhigh)
      rcases copyinstrPage_eq ram dst (f * pgSize + va.toNat % pgSize) lim hapart (by omega) with
        ⟨z, dst', lim', hz, hnul, hbefore, hrun⟩ | ⟨hall, lim', hlim', hrun⟩
      · rw [hrun]
        refine ⟨0, _, rfl, .inl ⟨rfl, z, by omega, ⟨fun i hi => hpages i (by omega), fun a ha => ?_, fun i hi a ha => ?_⟩,
          copiedIn_chunk hwalk (by omega)⟩⟩
        · rw [haddr z hz] at ha
          cases ha
          exact hnul
        · rw [haddr i (by omega)] at ha
          cases ha
          exact hbefore i hi
      · rw [hrun]
        have hfirst : CopiedIn pt ram dst va.toNat w.toNat (ram.memmove dst (f * pgSize + va.toNat % pgSize) w.toNat) :=
          copiedIn_chunk hwalk hle
        generalize ram.memmove dst (f * pgSize + va.toNat % pgSize) w.toNat = ram₁ at hfirst ⊢
        have hnonzero : ∀ i < w.toNat, ∀ a, translate pt (va.toNat + i) = some a → ram a ≠ 0 := by
          intro i hi a ha
          rw [haddr i hi] at ha
          cases ha
          exact hall i hi
        -- no string ends in this page
        have hnot : ∀ k < w.toNat, ¬ Ends pt ram va.toNat k := fun k hk hends =>
          hnonzero k hk _ (haddr k hk) (hends.nul _ (haddr k hk))
        by_cases hlast : pgSize - va.toNat % pgSize ≤ lim.toNat
        · obtain ⟨r, ram', hrest, hfetched⟩ := ih ram₁ (dst + w.toNat) (roundDown va + page) lim' (by omega) (by omega)
            (by omega)
          rw [next_eq hwalk hlast, ← hchunk] at hfetched
          have happend := fun k => Ends.append (k := k) hsep hbuf (by omega) hpages hnonzero hfirst
          refine ⟨r, ram', hrest, ?_⟩
          rcases hfetched with ⟨rfl, k, hk, hends, hcopy⟩ | ⟨rfl, hno, k, hk, hcopy⟩
          · exact .inl ⟨rfl, w.toNat + k, by omega, (happend k).1 hends, hfirst.append hsep hbuf (by omega) hcopy⟩
          · refine .inr ⟨rfl, fun j hj hends => ?_, w.toNat + k, by omega, hfirst.append hsep hbuf (by omega) hcopy⟩
            rcases Nat.lt_or_ge j w.toNat with hjw | hjw
            · exact hnot j hjw hends
            · refine hno (j - w.toNat) (by omega) ((happend _).2 ?_)
              rwa [Nat.add_sub_cancel' hjw]
        · have hdone : ¬ 0 < lim' := by
            rw [UInt64.lt_iff_toNat_lt, UInt64.toNat_zero]
            omega
          refine ⟨-1, ram₁, ?_, .inr ⟨rfl, fun k hk => hnot k (by omega), w.toNat, by omega, hfirst⟩⟩
          cases fuel with
          | zero => rfl
          | succ fuel => exact if_neg hdone

/-! ## Exactness -/

/-- Wild addresses: `copyout` and `copyin` succeed exactly if user code can reach
every byte, and copy what lies in front of the first it cannot; `copyinstr`
succeeds exactly if a string is there. -/
theorem copies_are_exact (ram : Ram) (va len : UInt64) (buf : Nat) (hsep : Separate pt buf len.toNat) :
    (∃ r k ram', copyout pt ram va buf len = (r, ram') ∧ (r = 0 ∨ r = -1) ∧
        (r = 0 ↔ ∀ i < len.toNat, Accessible pt (va.toNat + i)) ∧ Prefix pt va.toNat len.toNat k ∧
        CopiedOut pt ram va.toNat buf k ram') ∧
      (∃ r k ram', copyin pt ram buf va len = (r, ram') ∧ (r = 0 ∨ r = -1) ∧
        (r = 0 ↔ ∀ i < len.toNat, Accessible pt (va.toNat + i)) ∧ Prefix pt va.toNat len.toNat k ∧
        CopiedIn pt ram buf va.toNat k ram') ∧
      ∃ r ram', copyinstr pt ram buf va len = (r, ram') ∧ (r = 0 ∨ r = -1) ∧
        (r = 0 ↔ ∃ k < len.toNat, Ends pt ram va.toNat k) ∧ Fetched pt ram buf va.toNat len.toNat r ram' := by
  have hresult : ∀ {k}, Prefix pt va.toNat len.toNat k →
      ((if k = len.toNat then 0 else -1 : Int) = 0 ∨ (if k = len.toNat then 0 else -1 : Int) = -1) ∧
        ((if k = len.toNat then 0 else -1 : Int) = 0 ↔ ∀ i < len.toNat, Accessible pt (va.toNat + i)) := by
    intro k hpre
    by_cases hk : k = len.toNat
    · rw [if_pos hk]
      exact ⟨.inl rfl, fun _ => hk ▸ hpre.before, fun _ => rfl⟩
    · rw [if_neg hk]
      have hlt := lt_of_le_of_ne hpre.le hk
      exact ⟨.inr rfl, fun h => (by cases h), fun h => absurd (h k hlt) (hpre.stop hlt)⟩
  refine ⟨?_, ?_, ?_⟩
  · obtain ⟨k, ram', hrun, hpre, hcopy⟩ := copyout_exact ram va buf len hsep
    exact ⟨_, k, ram', hrun, (hresult hpre).1, (hresult hpre).2, hpre, hcopy⟩
  · obtain ⟨k, ram', hrun, hpre, hcopy⟩ := copyin_exact ram buf va len hsep
    exact ⟨_, k, ram', hrun, (hresult hpre).1, (hresult hpre).2, hpre, hcopy⟩
  · obtain ⟨r, ram', hrun, hfetched⟩ := copyinstrLoop_exact len.toNat ram buf va len hsep (Nat.le_refl _)
      (Nat.le_refl _) (Nat.le_refl _)
    refine ⟨r, ram', hrun, ?_, ?_, hfetched⟩
    · exact hfetched.imp (fun h => h.1) (fun h => h.1)
    · rcases hfetched with ⟨rfl, k, hk, hends, -⟩ | ⟨rfl, hno, -⟩
      · exact ⟨fun _ => ⟨k, hk, hends⟩, fun _ => rfl⟩
      · exact ⟨fun h => (by cases h), fun ⟨k, hk, hends⟩ => absurd hends (hno k hk)⟩

/-- A table that maps one page, at address `0`. -/
def lone : PageTable :=
  (Table.zeroed 1).put 0 (some ((Table.zeroed 2).put 0 (some ((Table.zeroed 3).put 0 (some ⟨5, ⟨true, true, false, true⟩⟩)))))

theorem lone_walkaddr (h : lone.walkaddr v = some f) : f = 5 ∧ v / pgSize = 0 := by
  rw [PageTable.walkaddr] at h
  split at h
  · cases h
  rename_i hlt
  obtain ⟨e, he, hu⟩ := Option.bind_eq_some_iff.1 h
  obtain ⟨leaves, hleaves, he⟩ := Option.bind_eq_some_iff.1 he
  obtain ⟨mid, hmid, hleaves⟩ := Option.bind_eq_some_iff.1 hleaves
  -- only the first entry of each page is valid
  have hentry : ∀ {α : Type} (g : Ppn) (x : α) (i : Fin 512) (y : α),
      ((Table.zeroed g).put 0 (some x)).entry i = some y → i = 0 ∧ y = x := by
    intro α g x i y hy
    by_cases hi : i = 0
    · subst hi
      rw [Table.put_entry_same] at hy
      exact ⟨rfl, (Option.some.inj hy).symm⟩
    · rw [Table.put_entry_ne _ hi] at hy
      cases hy
  obtain ⟨h2, rfl⟩ := hentry _ _ _ _ hmid
  obtain ⟨h1, rfl⟩ := hentry _ _ _ _ hleaves
  obtain ⟨h0, rfl⟩ := hentry _ _ _ _ he
  have hzero : v / pgSize = 0 / pgSize :=
    px_inj (vpn_lt_of_lt_maxVa (not_le.1 hlt)) (by decide) (h2.trans (by decide)) (h1.trans (by decide)) (h0.trans (by decide))
  exact ⟨(Option.some.inj hu).symm, hzero⟩

theorem lone_separate : Separate lone 0x9000 5000 := by
  refine ⟨fun v h => ?_, fun v v' f h h' => ?_, fun v a h => ?_⟩
  · cases (lone_walkaddr h).1
  · rw [(lone_walkaddr h).2, (lone_walkaddr h').2]
  · obtain ⟨f, hf, rfl⟩ := Option.map_eq_some_iff.1 h
    rw [(lone_walkaddr hf).1]
    have := mod_lt v
    simp only [pgSize] at *
    omega

/-- A copy that starts in the page and ends behind it, and a string that has no
end in the page. -/
theorem copies_are_exact_lone : Separate lone 0x9000 5000 ∧
    (∃ r k ram', copyout lone (fun _ => 7) 100 0x9000 5000 = (r, ram') ∧ (r = 0 ∨ r = -1) ∧
      (r = 0 ↔ ∀ i < 5000, Accessible lone (100 + i)) ∧ Prefix lone 100 5000 k ∧
      CopiedOut lone (fun _ => 7) 100 0x9000 k ram') ∧
    ∃ r ram', copyinstr lone (fun _ => 7) 0x9000 100 5000 = (r, ram') ∧ (r = 0 ∨ r = -1) ∧
      (r = 0 ↔ ∃ k < 5000, Ends lone (fun _ => 7) 100 k) ∧ Fetched lone (fun _ => 7) 0x9000 100 5000 r ram' :=
  ⟨lone_separate, (copies_are_exact (fun _ => 7) 100 5000 0x9000 lone_separate).1,
    (copies_are_exact (fun _ => 7) 100 5000 0x9000 lone_separate).2.2⟩

end Word

end Xv6
