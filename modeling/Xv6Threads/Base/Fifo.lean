-- SUMMARY: Circular buffers with free-running counters: what they hold, and how the ends move.
import Mathlib.Data.List.Basic
import Mathlib.Data.Nat.ModEq
import Mathlib.Logic.Function.Basic

/-!
# Circular buffers

`n` cells and two counters that run modulo `m`, where `n` divides `m`: the
counters are never reset, and a cell is found by reducing a counter modulo `n`.
-/

namespace Fifo

variable {α : Type} {n m head tail : Nat} {cells : Nat → α}

/-- How far `tail` is ahead of `head`. -/
def between (m head tail : Nat) : Nat := (tail + m - head) % m

/-- What is in the buffer, the oldest first. -/
def contents (n m : Nat) (cells : Nat → α) (head tail : Nat) : List α :=
  (List.range (between m head tail)).map fun i => cells ((head + i) % n)

theorem contents_length : (contents n m cells head tail).length = between m head tail := by
  simp [contents]

theorem between_eq_zero (hh : head < m) (ht : tail < m) : between m head tail = 0 ↔ head = tail := by
  unfold between
  rcases Nat.lt_or_ge tail head with h | h
  · rw [Nat.mod_eq_of_lt (by omega)]
    omega
  · rw [show tail + m - head = (tail - head) + m by omega, Nat.add_mod_right, Nat.mod_eq_of_lt (by omega)]
    omega

/-- Where `tail` stands, from `head`. -/
theorem add_between (hh : head < m) (ht : tail < m) : (head + between m head tail) % m = tail := by
  unfold between
  rcases Nat.lt_or_ge tail head with h | h
  · rw [Nat.mod_eq_of_lt (a := tail + m - head) (by omega), show head + (tail + m - head) = tail + m by omega,
      Nat.add_mod_right, Nat.mod_eq_of_lt ht]
  · rw [show tail + m - head = (tail - head) + m by omega, Nat.add_mod_right,
      Nat.mod_eq_of_lt (a := tail - head) (by omega), show head + (tail - head) = tail by omega,
      Nat.mod_eq_of_lt ht]

theorem between_push (hh : head < m) (ht : tail < m) (hroom : between m head tail + 1 < m) :
    between m head ((tail + 1) % m) = between m head tail + 1 := by
  unfold between at hroom ⊢
  rcases Nat.lt_or_ge tail head with h | h
  · rw [Nat.mod_eq_of_lt (a := tail + m - head) (by omega)] at hroom ⊢
    rw [Nat.mod_eq_of_lt (a := tail + 1) (by omega), Nat.mod_eq_of_lt (by omega)]
    omega
  · rw [show tail + m - head = (tail - head) + m by omega, Nat.add_mod_right,
      Nat.mod_eq_of_lt (a := tail - head) (by omega)] at hroom ⊢
    rcases Nat.lt_or_ge (tail + 1) m with h' | h'
    · rw [Nat.mod_eq_of_lt h', show tail + 1 + m - head = (tail - head + 1) + m by omega, Nat.add_mod_right,
        Nat.mod_eq_of_lt (by omega)]
    · rw [show tail + 1 = m by omega, Nat.mod_self, Nat.mod_eq_of_lt (by omega)]
      omega

theorem between_pop (hh : head < m) (ht : tail < m) (hne : head ≠ tail) :
    between m ((head + 1) % m) tail + 1 = between m head tail := by
  unfold between
  rcases Nat.lt_or_ge tail head with h | h
  · rcases Nat.lt_or_ge (head + 1) m with h' | h'
    · rw [Nat.mod_eq_of_lt h', Nat.mod_eq_of_lt (by omega), Nat.mod_eq_of_lt (by omega)]
      omega
    · rw [show head + 1 = m by omega, Nat.mod_self, Nat.sub_zero, Nat.add_mod_right, Nat.mod_eq_of_lt ht,
        Nat.mod_eq_of_lt (by omega)]
      omega
  · rw [show tail + m - head = (tail - head) + m by omega, Nat.add_mod_right,
      Nat.mod_eq_of_lt (a := tail - head) (by omega), Nat.mod_eq_of_lt (a := head + 1) (by omega),
      show tail + m - (head + 1) = (tail - head - 1) + m by omega, Nat.add_mod_right,
      Nat.mod_eq_of_lt (by omega)]
    omega

/-- A counter may be reduced before a cell is looked up. -/
theorem index_mod (hn : n ∣ m) (i j : Nat) : (i % m + j) % n = (i + j) % n := by
  rw [Nat.add_mod (i % m), Nat.mod_mod_of_dvd _ hn, ← Nat.add_mod]

/-- Storing at the tail of a buffer that is not full. -/
theorem contents_push (hn : n ∣ m) (hnm : n < m) (hh : head < m) (ht : tail < m)
    (hroom : between m head tail < n) (x : α) :
    contents n m (Function.update cells (tail % n) x) head ((tail + 1) % m) =
      contents n m cells head tail ++ [x] := by
  unfold contents
  rw [between_push hh ht (by omega), List.range_succ, List.map_append]
  have htail : tail % n = (head + between m head tail) % n := by
    conv_lhs => rw [← add_between hh ht]
    rw [Nat.mod_mod_of_dvd _ hn]
  congr 1
  · refine List.map_congr_left fun i hi => Function.update_of_ne (fun heq => ?_) _ _
    -- two offsets below `n` do not meet
    have hi := List.mem_range.1 hi
    rw [htail] at heq
    have hmod : i % n = between m head tail % n := Nat.ModEq.add_left_cancel' head heq
    rw [Nat.mod_eq_of_lt (by omega), Nat.mod_eq_of_lt (by omega)] at hmod
    omega
  · simp [htail]

/-- The tail moves over a cell that has been stored before. -/
theorem contents_extend (hn : n ∣ m) (hnm : n < m) (hh : head < m) (ht : tail < m) (hroom : between m head tail < n) :
    contents n m cells head ((tail + 1) % m) = contents n m cells head tail ++ [cells (tail % n)] := by
  have hpush : contents n m (Function.update cells (tail % n) (cells (tail % n))) head ((tail + 1) % m) =
      contents n m cells head tail ++ [cells (tail % n)] := contents_push hn hnm hh ht hroom _
  rwa [Function.update_eq_self] at hpush

/-- A cell that is stored before the tail moves is not yet part of the contents. -/
theorem contents_update (hn : n ∣ m) (hnm : n < m) (hh : head < m) (ht : tail < m) (hroom : between m head tail < n)
    (x : α) : contents n m (Function.update cells (tail % n) x) head tail = contents n m cells head tail := by
  have hextend : contents n m (Function.update cells (tail % n) x) head ((tail + 1) % m) = _ :=
    contents_extend hn hnm hh ht hroom
  rw [contents_push hn hnm hh ht hroom, Function.update_self] at hextend
  exact (List.append_cancel_right hextend).symm

/-- Taking from the head of a buffer that is not empty. -/
theorem contents_pop (hn : n ∣ m) (hh : head < m) (ht : tail < m) (hne : head ≠ tail) :
    contents n m cells head tail = cells (head % n) :: contents n m cells ((head + 1) % m) tail := by
  unfold contents
  rw [← between_pop hh ht hne, List.range_succ_eq_map, List.map_cons, List.map_map, Nat.add_zero]
  congr 1
  refine List.map_congr_left fun i _ => ?_
  simp only [Function.comp, Nat.succ_eq_add_one]
  rw [index_mod hn, Nat.add_right_comm, Nat.add_assoc head i 1]

/-- A counter on the way divides the contents. -/
theorem contents_split (hn : n ∣ m) {mid : Nat} (hh : head < m) (hmid : mid < m)
    (hway : between m head mid + between m mid tail = between m head tail) :
    contents n m cells head tail = contents n m cells head mid ++ contents n m cells mid tail := by
  unfold contents
  rw [← hway, List.range_add, List.map_append, List.map_map]
  congr 1
  refine List.map_congr_left fun i _ => ?_
  have hpos : (head + between m head mid) % m = mid := add_between hh hmid
  simp only [Function.comp]
  rw [← Nat.add_assoc, ← index_mod hn, hpos]

theorem contents_eq_nil (hh : head < m) (ht : tail < m) : contents n m cells head tail = [] ↔ head = tail := by
  rw [← List.length_eq_zero_iff, contents_length, between_eq_zero hh ht]

end Fifo
