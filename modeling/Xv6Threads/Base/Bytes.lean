-- SUMMARY: Byte sequences as functions: little-endian fields, bit maps and copies into a range.
import Mathlib.Data.Nat.Bitwise
import Mathlib.Tactic.Ring

/-!
# Bytes

A piece of memory is a function from offsets to bytes. A field of `w` bytes is
read and written as a number, least significant byte first; a bit map is read
and written one bit at a time; and a list of bytes can be copied in.
-/

namespace Bytes

variable {f g : Nat → UInt8} {o w i j v : Nat}

/-! ## Fields -/

/-- The number in the `w` bytes from offset `o` on. -/
def peek (f : Nat → UInt8) (o : Nat) : Nat → Nat
  | 0 => 0
  | w + 1 => (f o).toNat + 256 * peek f (o + 1) w

/-- Write `v` to the `w` bytes from offset `o` on; higher bytes of `v` are lost. -/
def poke (f : Nat → UInt8) (o w v : Nat) : Nat → UInt8 :=
  fun i => if o ≤ i ∧ i < o + w then UInt8.ofNat (v / 256 ^ (i - o)) else f i

theorem peek_congr (h : ∀ i, o ≤ i → i < o + w → f i = g i) : peek f o w = peek g o w := by
  induction w generalizing o with
  | zero => rfl
  | succ w ih =>
    rw [peek, peek, h o (Nat.le_refl _) (by omega), ih fun i hi hi' => h i (by omega) (by omega)]

theorem peek_lt (f : Nat → UInt8) (o w : Nat) : peek f o w < 256 ^ w := by
  induction w generalizing o with
  | zero => simp [peek]
  | succ w ih =>
    have hbyte := (f o).toNat_lt
    have hrest := ih (o + 1)
    rw [peek, pow_succ]
    omega

theorem poke_outside (h : i < o ∨ o + w ≤ i) : poke f o w v i = f i := if_neg (by omega)

/-- A field that another one does not overlap. -/
theorem peek_poke_ne {o' w' : Nat} (h : o + w ≤ o' ∨ o' + w' ≤ o) : peek (poke f o w v) o' w' = peek f o' w' :=
  peek_congr fun _ hi hi' => poke_outside (by omega)

theorem peek_poke_same (f : Nat → UInt8) (o w v : Nat) : peek (poke f o w v) o w = v % 256 ^ w := by
  -- the bytes from `o + d` on hold what is left of `v` after `d` bytes
  have hgen : ∀ n d, d + n = w → peek (poke f o w v) (o + d) n = v / 256 ^ d % 256 ^ n := by
    intro n
    induction n with
    | zero => intro d _; simp [peek, Nat.mod_one]
    | succ n ih =>
      intro d hd
      have hhere : poke f o w v (o + d) = UInt8.ofNat (v / 256 ^ d) := by
        rw [poke, if_pos (by omega), Nat.add_sub_cancel_left]
      have hbyte : (UInt8.ofNat (v / 256 ^ d)).toNat = v / 256 ^ d % 256 := UInt8.toNat_ofNat'
      have hnext : v / 256 ^ (d + 1) = v / 256 ^ d / 256 := by rw [pow_succ, Nat.div_div_eq_div_mul]
      rw [peek, hhere, Nat.add_assoc, ih (d + 1) (by omega), hbyte, hnext, pow_succ' 256 n, Nat.mod_mul]
  simpa using hgen w 0 (Nat.zero_add w)

/-- Write the fields of an array, `w` bytes each, from offset `o` on. -/
def pokeArray (f : Nat → UInt8) (o w : Nat) (a : Nat → Nat) : Nat → Nat → UInt8
  | 0 => f
  | n + 1 => poke (pokeArray f o w a n) (o + w * n) w (a n)

theorem pokeArray_outside {a : Nat → Nat} {n : Nat} (h : i < o ∨ o + w * n ≤ i) : pokeArray f o w a n i = f i := by
  induction n with
  | zero => rfl
  | succ n ih =>
    rw [Nat.mul_succ] at h
    rw [pokeArray, poke_outside (by omega), ih (by omega)]

theorem peek_pokeArray {a : Nat → Nat} {n : Nat} (hj : j < n) :
    peek (pokeArray f o w a n) (o + w * j) w = a j % 256 ^ w := by
  induction n with
  | zero => cases hj
  | succ n ih =>
    rw [pokeArray]
    rcases Nat.lt_succ_iff_lt_or_eq.1 hj with hlt | rfl
    · have hle : w * (j + 1) ≤ w * n := Nat.mul_le_mul_left _ hlt
      rw [Nat.mul_succ] at hle
      rw [peek_poke_ne (by omega), ih hlt]
    · exact peek_poke_same _ _ _ _

theorem peek_zero : peek (fun _ => 0) o w = 0 := by
  induction w generalizing o with
  | zero => rfl
  | succ w ih => simp [peek, ih]

/-! ## Bit maps -/

/-- The mask of bit `i` within its byte. -/
def mask (i : Nat) : UInt8 := UInt8.ofNat (2 ^ (i % 8))

def getBit (f : Nat → UInt8) (i : Nat) : Bool := (f (i / 8) &&& mask i) ≠ 0

def setBit (f : Nat → UInt8) (i : Nat) : Nat → UInt8 :=
  fun n => if n = i / 8 then f n ||| mask i else f n

def clearBit (f : Nat → UInt8) (i : Nat) : Nat → UInt8 :=
  fun n => if n = i / 8 then f n &&& ~~~ mask i else f n

theorem mask_toNat (i : Nat) : (mask i).toNat = 2 ^ (i % 8) := by
  have hlt : i % 8 < 8 := Nat.mod_lt _ (by decide)
  have hpow : 2 ^ (i % 8) < 2 ^ 8 := Nat.pow_lt_pow_right (by decide) hlt
  rw [mask, UInt8.toNat_ofNat', Nat.mod_eq_of_lt hpow]

theorem getBit_eq (f : Nat → UInt8) (i : Nat) : getBit f i = (f (i / 8)).toNat.testBit (i % 8) := by
  have hzero : (f (i / 8) &&& mask i = 0) ↔ (f (i / 8)).toNat &&& 2 ^ (i % 8) = 0 := by
    rw [← mask_toNat, ← UInt8.toNat_and]
    exact UInt8.toNat_inj.symm
  have hpos : 0 < 2 ^ (i % 8) := Nat.two_pow_pos _
  rw [getBit, Bool.eq_iff_iff, decide_eq_true_eq, ne_eq, hzero, Nat.and_two_pow]
  cases (f (i / 8)).toNat.testBit (i % 8) <;> simp

theorem mod_ne_of_div_eq (h : i / 8 = j / 8) (hne : i ≠ j) : i % 8 ≠ j % 8 := by omega

theorem getBit_setBit (f : Nat → UInt8) (i j : Nat) : getBit (setBit f i) j = (decide (j = i) || getBit f j) := by
  rw [getBit_eq, getBit_eq, setBit]
  by_cases hbyte : j / 8 = i / 8
  · rw [if_pos hbyte, UInt8.toNat_or, Nat.testBit_or, mask_toNat, Nat.testBit_two_pow]
    by_cases hji : j = i
    · simp [hji]
    · have hmod := mod_ne_of_div_eq hbyte hji
      simp [hji, Ne.symm hmod]
  · rw [if_neg hbyte]
    have hji : j ≠ i := fun h => hbyte (by rw [h])
    simp [hji]

theorem getBit_clearBit (f : Nat → UInt8) (i j : Nat) :
    getBit (clearBit f i) j = (decide (j ≠ i) && getBit f j) := by
  rw [getBit_eq, getBit_eq, clearBit]
  by_cases hbyte : j / 8 = i / 8
  · have hlt : j % 8 < 8 := Nat.mod_lt _ (by decide)
    have hcompl : (~~~ mask i).toNat.testBit (j % 8) = !(mask i).toNat.testBit (j % 8) := by
      rw [← UInt8.toNat_toBitVec, ← UInt8.toNat_toBitVec, UInt8.toBitVec_not, ← BitVec.getLsbD, BitVec.getLsbD_not,
        ← BitVec.getLsbD]
      simp [hlt]
    rw [if_pos hbyte, UInt8.toNat_and, Nat.testBit_and, hcompl, mask_toNat, Nat.testBit_two_pow]
    by_cases hji : j = i
    · simp [hji]
    · have hmod := mod_ne_of_div_eq hbyte hji
      simp [hji, Ne.symm hmod]
  · rw [if_neg hbyte]
    have hji : j ≠ i := fun h => hbyte (by rw [h])
    simp [hji]

/-! ## Copies -/

/-- Copy a list of bytes to offset `o`. -/
def splice (f : Nat → UInt8) (o : Nat) (src : List UInt8) : Nat → UInt8 :=
  fun i => if o ≤ i then (src[i - o]?).getD (f i) else f i

@[simp] theorem splice_nil (f : Nat → UInt8) (o : Nat) : splice f o [] = f := by
  funext i
  simp [splice]

theorem splice_outside {src : List UInt8} (h : i < o ∨ o + src.length ≤ i) : splice f o src i = f i := by
  rw [splice]
  split
  · rw [List.getElem?_eq_none (by omega)]
    rfl
  · rfl

theorem splice_inside {src : List UInt8} (h : o ≤ i) (h' : i - o < src.length) : splice f o src i = src[i - o] := by
  rw [splice, if_pos h, List.getElem?_eq_getElem h']
  rfl

theorem splice_append (f : Nat → UInt8) (o : Nat) (a b : List UInt8) :
    splice f o (a ++ b) = splice (splice f o a) (o + a.length) b := by
  funext i
  by_cases hin : o ≤ i ∧ i < o + a.length
  · rw [splice_inside hin.1 (by simp; omega), splice_outside (.inl hin.2), splice_inside hin.1 (by omega),
      List.getElem_append_left (by omega)]
  · by_cases hin' : o + a.length ≤ i ∧ i < o + a.length + b.length
    · rw [splice_inside (by omega) (by simp; omega), splice_inside hin'.1 (by omega),
        List.getElem_append_right (by omega)]
      congr 1
      omega
    · rw [splice_outside (by simp; omega), splice_outside (by omega), splice_outside (by omega)]

/-- Replace the elements from `o` on by those of `src`. -/
def overwrite (l : List UInt8) (o : Nat) (src : List UInt8) : List UInt8 :=
  l.take o ++ src ++ l.drop (o + src.length)

theorem overwrite_getElem? {l src : List UInt8} (h : o ≤ l.length) (i : Nat) :
    (overwrite l o src)[i]? = if o ≤ i ∧ i < o + src.length then src[i - o]? else l[i]? := by
  have htake : (l.take o).length = o := by rw [List.length_take, Nat.min_eq_left h]
  rw [overwrite, List.append_assoc]
  by_cases hlow : i < o
  · rw [List.getElem?_append_left (by omega), List.getElem?_take_of_lt hlow, if_neg (by omega)]
  · rw [List.getElem?_append_right (by omega), htake]
    by_cases hin : i < o + src.length
    · rw [List.getElem?_append_left (by omega), if_pos (by omega)]
    · rw [List.getElem?_append_right (by omega), List.getElem?_drop, if_neg (by omega)]
      congr 1
      omega

/-! ## Partial sources -/

/-- Read `n` bytes from offset `o` on, from a source with gaps: the bytes up to
the first gap, and whether there was none. -/
def fetch (byte : Nat → Option UInt8) (o : Nat) : Nat → List UInt8 × Bool
  | 0 => ([], true)
  | n + 1 =>
    match byte o with
    | none => ([], false)
    | some a => ((a :: (fetch byte (o + 1) n).1), (fetch byte (o + 1) n).2)

variable {byte : Nat → Option UInt8} {n : Nat}

theorem fetch_append (byte : Nat → Option UInt8) (o a b : Nat) :
    fetch byte o (a + b) = if (fetch byte o a).2 then
      ((fetch byte o a).1 ++ (fetch byte (o + a) b).1, (fetch byte (o + a) b).2) else fetch byte o a := by
  induction a generalizing o with
  | zero => simp [fetch]
  | succ a ih =>
    rw [Nat.add_right_comm, fetch, fetch]
    cases byte o with
    | none => rfl
    | some x =>
      dsimp only
      rw [ih, show o + 1 + a = o + (a + 1) by omega]
      split <;> rfl

theorem fetch_congr {byte' : Nat → Option UInt8} {o' : Nat} (h : ∀ i < n, byte (o + i) = byte' (o' + i)) :
    fetch byte o n = fetch byte' o' n := by
  induction n generalizing o o' with
  | zero => rfl
  | succ n ih =>
    have hfirst : byte o = byte' o' := h 0 (Nat.succ_pos _)
    have hrest : fetch byte (o + 1) n = fetch byte' (o' + 1) n := ih fun i hi => by
      have := h (i + 1) (by omega)
      rwa [show o + 1 + i = o + (i + 1) by omega, show o' + 1 + i = o' + (i + 1) by omega]
    rw [fetch, fetch, hfirst, hrest]

theorem fetch_length_le (byte : Nat → Option UInt8) (o n : Nat) : (fetch byte o n).1.length ≤ n := by
  induction n generalizing o with
  | zero => simp [fetch]
  | succ n ih =>
    rw [fetch]
    split
    · simp
    · simpa using ih (o + 1)

/-- Without a gap every byte is there. -/
theorem fetch_true (h : (fetch byte o n).2 = true) : (fetch byte o n).1.length = n := by
  induction n generalizing o with
  | zero => simp [fetch]
  | succ n ih =>
    cases hbyte : byte o with
    | none => simp [fetch, hbyte] at h
    | some a =>
      have h' : (fetch byte (o + 1) n).2 = true := by simpa [fetch, hbyte] using h
      simp only [fetch, hbyte, List.length_cons, ih h']

/-- Each byte read is the one of the source. -/
theorem fetch_getElem (hi : i < (fetch byte o n).1.length) : byte (o + i) = some (fetch byte o n).1[i] := by
  induction n generalizing o i with
  | zero => simp [fetch] at hi
  | succ n ih =>
    cases hbyte : byte o with
    | none => simp [fetch, hbyte] at hi
    | some a =>
      cases i with
      | zero => simp [fetch, hbyte]
      | succ i =>
        have hi' : i < (fetch byte (o + 1) n).1.length := by simpa [fetch, hbyte] using hi
        have := ih hi'
        simp only [fetch, hbyte, List.getElem_cons_succ]
        rwa [show o + (i + 1) = o + 1 + i by omega]

/-- A gap ends the bytes that are read. -/
theorem fetch_false (h : (fetch byte o n).2 = false) :
    (fetch byte o n).1.length < n ∧ byte (o + (fetch byte o n).1.length) = none := by
  induction n generalizing o with
  | zero => simp [fetch] at h
  | succ n ih =>
    cases hbyte : byte o with
    | none => simp [fetch, hbyte]
    | some a =>
      have h' : (fetch byte (o + 1) n).2 = false := by simpa [fetch, hbyte] using h
      obtain ⟨hlt, hnone⟩ := ih h'
      simp only [fetch, hbyte, List.length_cons]
      refine ⟨by omega, ?_⟩
      rwa [show o + ((fetch byte (o + 1) n).1.length + 1) = o + 1 + (fetch byte (o + 1) n).1.length by omega]

/-- A source without gaps in the range. -/
theorem fetch_of_some {src : Nat → UInt8} (h : ∀ i < n, byte (o + i) = some (src i)) :
    fetch byte o n = ((List.range n).map src, true) := by
  induction n generalizing o src with
  | zero => rfl
  | succ n ih =>
    have hfirst : byte o = some (src 0) := h 0 (Nat.succ_pos _)
    have hstep : ∀ i < n, byte (o + 1 + i) = some (src (i + 1)) := fun i hi => by
      rw [show o + 1 + i = o + (i + 1) by omega]
      exact h (i + 1) (by omega)
    have hrest := ih hstep
    rw [fetch, hfirst, hrest, List.range_succ_eq_map, List.map_cons, List.map_map]
    rfl

end Bytes
