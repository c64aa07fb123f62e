-- SUMMARY: copyout: one round at a time, in parts and byte by byte, and reading back what it wrote.
import Xv6Threads.Memory.Mapping

/-!
# copyout

`copyout` moves bytes page by page. Its rounds do not depend on how the bytes
were put together: copying one list after another is copying both at once. So
it does what writing the bytes one by one does.
-/

namespace Xv6

namespace Mem

variable {m : Mem} {pa : Ppn} {off : Nat}

theorem store_nil (m : Mem) (pa : Ppn) (off : Nat) : m.store pa off [] = m := by
  simp [store]

theorem store_append (m : Mem) (pa : Ppn) (off : Nat) (a b : List UInt8) :
    m.store pa off (a ++ b) = (m.store pa off a).store pa (off + a.length) b := by
  simp only [store, Mem.mk.injEq, true_and]
  funext f o
  by_cases hf : f = pa
  · by_cases hlow : off ≤ o
    · by_cases hin : o - off < a.length
      · have hnot : ¬ off + a.length ≤ o := by omega
        simp [hf, hlow, hnot, List.getElem?_append_left hin]
      · have hge : off + a.length ≤ o := by omega
        have hsub : o - off - a.length = o - (off + a.length) := by omega
        simp [hf, hlow, hge, List.getElem?_append_right (not_lt.1 hin), hsub, List.getElem?_eq_none (not_lt.1 hin)]
    · have hnot : ¬ off + a.length ≤ o := by omega
      simp [hlow, hnot]
  · simp [hf]

end Mem

namespace PageTable

variable {m m' : Mem} {pt : PageTable} {va fuel : Nat} {src : List UInt8}

/-- Enough rounds are enough. -/
theorem copyoutLoop_fuel (pt : PageTable) {fuel fuel' : Nat} (m : Mem) (va : Nat) (h : src.length ≤ fuel)
    (h' : src.length ≤ fuel') : copyoutLoop pt fuel m va src = copyoutLoop pt fuel' m va src := by
  induction fuel generalizing fuel' m va src with
  | zero =>
    obtain rfl : src = [] := List.eq_nil_of_length_eq_zero (by omega)
    cases fuel' with
    | zero => rfl
    | succ n => simp [copyoutLoop]
  | succ fuel ih =>
    cases fuel' with
    | zero =>
      obtain rfl : src = [] := List.eq_nil_of_length_eq_zero (by omega)
      simp [copyoutLoop]
    | succ fuel' =>
      rw [copyoutLoop, copyoutLoop]
      split
      · rfl
      · rename_i hne
        have hpos : 0 < src.length := List.length_pos_iff.2 hne
        dsimp only
        split
        · rfl
        · have hlt : va - pgRoundDown va < pgSize := by
            simp only [pgRoundDown, pgSize]
            omega
          refine ih _ _ ?_ ?_
          · rw [List.length_drop]
            omega
          · rw [List.length_drop]
            omega

@[simp] theorem copyout_nil (m : Mem) (pt : PageTable) (va : Nat) : pt.copyout m va [] = (true, m) := rfl

/-- The bytes that go into the first page. -/
def firstChunk (va : Nat) (src : List UInt8) : Nat := min (pgSize - va % pgSize) src.length

theorem firstChunk_pos (hne : src ≠ []) : 0 < firstChunk va src := by
  have hpos : 0 < src.length := List.length_pos_iff.2 hne
  have hlt : va % pgSize < pgSize := Nat.mod_lt _ (by decide)
  simp only [firstChunk]
  omega

/-- One round. -/
theorem copyout_round (m : Mem) (pt : PageTable) (va : Nat) (hne : src ≠ []) :
    pt.copyout m va src = match pt.walkaddr (pgRoundDown va) with
      | none => (false, m)
      | some pa => pt.copyout (m.store pa (va % pgSize) (src.take (firstChunk va src))) (pgRoundDown va + pgSize)
          (src.drop (firstChunk va src)) := by
  have hoff : va - pgRoundDown va = va % pgSize := by
    simp only [pgRoundDown, pgSize]
    omega
  obtain ⟨n, hn⟩ : ∃ n, src.length = n + 1 := ⟨src.length - 1, by have := List.length_pos_iff.2 hne; omega⟩
  have hpos : 0 < firstChunk va src := firstChunk_pos hne
  rw [copyout, hn, copyoutLoop, if_neg hne]
  dsimp only
  rw [hoff]
  cases pt.walkaddr (pgRoundDown va) with
  | none => rfl
  | some pa =>
    refine copyoutLoop_fuel pt _ _ ?_ (Nat.le_refl _)
    rw [List.length_drop]
    simp only [firstChunk] at hpos
    omega

/-- Copying one list after another is copying both at once. -/
theorem copyout_append (m : Mem) (pt : PageTable) (va : Nat) (a b : List UInt8) :
    pt.copyout m va (a ++ b) = match pt.copyout m va a with
      | (false, m') => (false, m')
      | (true, m') => pt.copyout m' (va + a.length) b := by
  induction hlen : a.length using Nat.strong_induction_on generalizing a m va with
  | _ n ih =>
    subst hlen
    by_cases hnil : a = []
    · subst hnil
      rfl
    have hpos := List.length_pos_iff.2 hnil
    have hmod : va % pgSize < pgSize := Nat.mod_lt _ (by decide)
    have hround : pgRoundDown va + va % pgSize = va := Nat.div_add_mod' va pgSize
    rw [copyout_round m pt va hnil, copyout_round m pt va (List.append_ne_nil_of_left_ne_nil hnil b)]
    cases hwalk : pt.walkaddr (pgRoundDown va) with
    | none => rfl
    | some pa =>
      dsimp only
      by_cases hlong : pgSize - va % pgSize < a.length
      · -- the first page is full of bytes of `a`
        have hchunk : firstChunk va a = pgSize - va % pgSize := by
          simp only [firstChunk]
          omega
        have hchunk' : firstChunk va (a ++ b) = pgSize - va % pgSize := by
          simp only [firstChunk, List.length_append]
          omega
        rw [hchunk, hchunk', List.take_append_of_le_length hlong.le, List.drop_append_of_le_length hlong.le,
          ih _ (by rw [List.length_drop]; omega) _ _ _ rfl]
        have hnext : pgRoundDown va + pgSize + (a.drop (pgSize - va % pgSize)).length = va + a.length := by
          rw [List.length_drop]
          omega
        rw [hnext]
      · -- `a` ends in the first page
        have hchunk : firstChunk va a = a.length := by
          simp only [firstChunk]
          omega
        rw [hchunk, List.take_length, List.drop_length, copyout_nil]
        dsimp only
        by_cases hb : b = []
        · subst hb
          rw [List.append_nil, hchunk, List.take_length, List.drop_length]
          rfl
        have hbpos := List.length_pos_iff.2 hb
        by_cases hend : a.length = pgSize - va % pgSize
        · have hchunk' : firstChunk va (a ++ b) = a.length := by
            simp only [firstChunk, List.length_append]
            omega
          rw [hchunk', List.take_left, List.drop_left, show pgRoundDown va + pgSize = va + a.length by omega]
        · have hsame : pgRoundDown (va + a.length) = pgRoundDown va ∧ (va + a.length) % pgSize = va % pgSize + a.length := by
            simp only [pgRoundDown, pgSize] at *
            omega
          have hchunk' : firstChunk va (a ++ b) = a.length + firstChunk (va + a.length) b := by
            simp only [firstChunk, List.length_append, hsame.2]
            omega
          rw [copyout_round _ pt (va + a.length) hb, hsame.1, hsame.2, hwalk]
          dsimp only
          rw [hchunk', List.take_length_add_append, List.drop_length_add_append, Mem.store_append]

/-! ## Byte by byte -/

/-- What `copyout` is for: the bytes of `src` go to the addresses from `va` on,
each into the user page mapped there, or one of the addresses has no such page. -/
def writeBytes (pt : PageTable) : Mem → Nat → List UInt8 → Option Mem
  | m, _, [] => some m
  | m, va, a :: src =>
    (pt.walkaddr (pgRoundDown va)).bind fun pa => pt.writeBytes (m.store pa (va % pgSize) [a]) (va + 1) src

theorem copyout_singleton (m : Mem) (pt : PageTable) (va : Nat) (a : UInt8) :
    pt.copyout m va [a] = match pt.walkaddr (pgRoundDown va) with
      | none => (false, m)
      | some pa => (true, m.store pa (va % pgSize) [a]) := by
  have hlt : va % pgSize < pgSize := Nat.mod_lt _ (by decide)
  have hchunk : firstChunk va [a] = 1 := by
    simp only [firstChunk, List.length_singleton]
    omega
  rw [copyout_round m pt va (List.cons_ne_nil _ _), hchunk]
  rfl

theorem copyout_cons (m : Mem) (pt : PageTable) (va : Nat) (a : UInt8) (src : List UInt8) :
    pt.copyout m va (a :: src) = match pt.walkaddr (pgRoundDown va) with
      | none => (false, m)
      | some pa => pt.copyout (m.store pa (va % pgSize) [a]) (va + 1) src := by
  rw [← List.singleton_append, copyout_append, copyout_singleton]
  cases pt.walkaddr (pgRoundDown va) with
  | none => rfl
  | some pa => rfl

/-- `copyout` succeeds exactly if every address can be written, and then it has
written the bytes and nothing else. -/
theorem copyout_eq_true_iff : pt.copyout m va src = (true, m') ↔ pt.writeBytes m va src = some m' := by
  induction src generalizing m va with
  | nil => simp [writeBytes]
  | cons a src ih =>
    rw [copyout_cons, writeBytes]
    cases pt.walkaddr (pgRoundDown va) with
    | none => simp
    | some pa => exact ih

theorem writeBytes_append (m : Mem) (pt : PageTable) (va : Nat) (a b : List UInt8) :
    pt.writeBytes m va (a ++ b) = (pt.writeBytes m va a).bind fun m' => pt.writeBytes m' (va + a.length) b := by
  induction a generalizing m va with
  | nil => rfl
  | cons x a ih =>
    rw [List.cons_append, writeBytes, writeBytes]
    cases pt.walkaddr (pgRoundDown va) with
    | none => rfl
    | some pa => simp only [Option.bind_some, ih, List.length_cons, Nat.add_assoc, Nat.add_comm 1]

/-- One of the `n` addresses from `va` on has no user page. -/
def Unwritable (pt : PageTable) (va n : Nat) : Prop := ∃ i < n, pt.walkaddr (pgRoundDown (va + i)) = none

theorem writeBytes_eq_none_iff : pt.writeBytes m va src = none ↔ pt.Unwritable va src.length := by
  induction src generalizing m va with
  | nil => simp [writeBytes, Unwritable]
  | cons a src ih =>
    rw [writeBytes]
    cases hwalk : pt.walkaddr (pgRoundDown va) with
    | none => exact ⟨fun _ => ⟨0, Nat.succ_pos _, hwalk⟩, fun _ => rfl⟩
    | some pa =>
      rw [Option.bind_some, ih]
      constructor
      · rintro ⟨i, hi, hnone⟩
        exact ⟨i + 1, Nat.succ_lt_succ hi, by rwa [Nat.add_right_comm va 1 i] at hnone⟩
      · rintro ⟨i, hi, hnone⟩
        cases i with
        | zero => rw [Nat.add_zero, hwalk] at hnone; cases hnone
        | succ i => exact ⟨i, Nat.lt_of_succ_lt_succ hi, by rwa [Nat.add_right_comm va 1 i]⟩

/-- The addresses written lie below `MAXVA`. -/
theorem writeBytes_le (h : pt.writeBytes m va src = some m') (hne : src ≠ []) : va + src.length ≤ maxVa := by
  induction src generalizing m va with
  | nil => exact absurd rfl hne
  | cons a src ih =>
    obtain ⟨pa, hpa, h⟩ := Option.bind_eq_some_iff.1 h
    have hlt : va < maxVa := by
      by_contra hge
      have hround : maxVa ≤ pgRoundDown va := by
        simp only [pgRoundDown, pgSize, maxVa] at *
        omega
      rw [walkaddr, if_pos hround] at hpa
      cases hpa
    cases src with
    | nil => exact hlt
    | cons x src =>
      have := ih h (List.cons_ne_nil _ _)
      simp only [List.length_cons] at *
      omega

/-! ## Reading -/

/-- The byte at address `va`, as user code reads it. -/
def loadByte (pt : PageTable) (m : Mem) (va : Nat) : Option UInt8 :=
  (pt.walkaddr (pgRoundDown va)).map fun pa => m.data pa (va % pgSize)

/-- The bytes from `va` on are those of `src`. -/
def Reads (pt : PageTable) (m : Mem) (va : Nat) (src : List UInt8) : Prop :=
  ∀ i (h : i < src.length), pt.loadByte m (va + i) = some src[i]

theorem reads_append {a c : List UInt8} :
    pt.Reads m va (a ++ c) ↔ pt.Reads m va a ∧ pt.Reads m (va + a.length) c := by
  constructor
  · intro h
    refine ⟨fun i hi => ?_, fun i hi => ?_⟩
    · rw [h i (by simp; omega), List.getElem_append_left hi]
    · rw [Nat.add_assoc, h (a.length + i) (by simpa using hi), List.getElem_append_right (Nat.le_add_right _ _)]
      simp
  · rintro ⟨ha, hc⟩ i hi
    by_cases hlt : i < a.length
    · rw [List.getElem_append_left hlt, ha i hlt]
    · obtain ⟨j, rfl⟩ := Nat.exists_eq_add_of_le (not_lt.1 hlt)
      have hj : j < c.length := by simpa using hi
      rw [List.getElem_append_right (Nat.le_add_right _ _), ← Nat.add_assoc, hc j hj]
      simp

/-- The `n` bytes from `va` on. -/
def loadBytes (pt : PageTable) (m : Mem) : Nat → Nat → Option (List UInt8)
  | _, 0 => some []
  | va, n + 1 => (pt.loadByte m va).bind fun a => (pt.loadBytes m (va + 1) n).map (a :: ·)

theorem Reads.loadBytes (h : pt.Reads m va src) : pt.loadBytes m va src.length = some src := by
  induction src generalizing va with
  | nil => rfl
  | cons a src ih =>
    have hfirst : pt.loadByte m va = some a := h 0 (Nat.succ_pos _)
    have hrest : pt.Reads m (va + 1) src := (reads_append (a := [a])).1 h |>.2
    rw [List.length_cons, PageTable.loadBytes, hfirst, Option.bind_some, ih hrest, Option.map_some]

/-! ### One page -/

section

variable {base : Nat} {f : Ppn}

/-- An address inside the page at `base`. -/
theorem round_of_page (hbase : base % pgSize = 0) (hlo : base ≤ va) (hhi : va < base + pgSize) :
    pgRoundDown va = base ∧ va % pgSize = va - base := by
  simp only [pgRoundDown, pgSize] at *
  omega

/-- A copy that stays inside one page. -/
theorem copyout_page (m : Mem) (hf : pt.walkaddr base = some f) (hbase : base % pgSize = 0) (hlo : base ≤ va)
    (hhi : va + src.length ≤ base + pgSize) : pt.copyout m va src = (true, m.store f (va - base) src) := by
  by_cases hne : src = []
  · subst hne
    rw [copyout_nil, Mem.store_nil]
  have hpos := List.length_pos_iff.2 hne
  obtain ⟨hround, hmod⟩ := round_of_page hbase hlo (show va < base + pgSize by omega)
  have hchunk : firstChunk va src = src.length := by
    simp only [firstChunk, hmod]
    omega
  rw [copyout_round m pt va hne, hround, hf, hchunk, List.take_length, List.drop_length, hmod]
  rfl

theorem loadByte_page (m : Mem) (hf : pt.walkaddr base = some f) (hbase : base % pgSize = 0) (hlo : base ≤ va)
    (hhi : va < base + pgSize) : pt.loadByte m va = some (m.data f (va - base)) := by
  obtain ⟨hround, hmod⟩ := round_of_page hbase hlo hhi
  rw [loadByte, hround, hmod, hf]
  rfl

/-- What was stored is read back. -/
theorem reads_store (m : Mem) (hf : pt.walkaddr base = some f) (hbase : base % pgSize = 0) (hlo : base ≤ va)
    (hhi : va + src.length ≤ base + pgSize) : pt.Reads (m.store f (va - base) src) va src := by
  intro i hi
  rw [loadByte_page _ hf hbase (by omega) (by omega)]
  have hoff : va + i - base - (va - base) = i := by omega
  simp only [Mem.store, true_and, if_pos (show va - base ≤ va + i - base by omega), hoff,
    List.getElem?_eq_getElem hi, Option.getD_some]

/-- Reading depends on the bytes read. -/
theorem Reads.congr (h : pt.Reads m va src) (hf : pt.walkaddr base = some f) (hbase : base % pgSize = 0)
    (hlo : base ≤ va) (hhi : va + src.length ≤ base + pgSize)
    (hsame : ∀ o, va - base ≤ o → m'.data f o = m.data f o) : pt.Reads m' va src := by
  intro i hi
  have hold := h i hi
  rw [loadByte_page _ hf hbase (by omega) (by omega)] at hold ⊢
  rw [hsame _ (by omega)]
  exact hold

end

end PageTable

end Xv6
