-- SUMMARY: copyin: what it has copied when it stops, and that it reads byte by byte.
import Xv6Threads.Base.Bytes
import Xv6Threads.Memory.Copyout

/-!
# copyin

`copyin` moves bytes from user memory page by page, and stops at the first page
that user code cannot reach. What it has copied by then stays copied.
-/

namespace Xv6

namespace PageTable

/-- The loop of `copyin`; every round moves at least one byte. The result is
what was copied and whether that is all. -/
def copyinLoop (pt : PageTable) (m : Mem) : Nat → Nat → Nat → List UInt8 × Bool
  | 0, _, _ => ([], true)
  | fuel + 1, srcva, len =>
    if len = 0 then ([], true)
    else
      let va0 := pgRoundDown srcva
      match pt.walkaddr va0 with
      | none => ([], false)
      | some pa0 =>
        let n := min (pgSize - (srcva - va0)) len
        let rest := copyinLoop pt m fuel (va0 + pgSize) (len - n)
        ((List.range n).map (fun i => m.data pa0 (srcva - va0 + i)) ++ rest.1, rest.2)

/-- `copyin`; `false` is the result `-1`. -/
def copyin (m : Mem) (pt : PageTable) (srcva len : Nat) : List UInt8 × Bool := copyinLoop pt m len srcva len

variable {m : Mem} {pt : PageTable} {va len : Nat}

/-- `copyin` reads the bytes up to the first address without a page. -/
theorem copyin_eq (m : Mem) (pt : PageTable) (va len : Nat) :
    pt.copyin m va len = Bytes.fetch (pt.loadByte m) va len := by
  have hloop : ∀ fuel va len, len ≤ fuel → copyinLoop pt m fuel va len = Bytes.fetch (pt.loadByte m) va len := by
    intro fuel
    induction fuel with
    | zero =>
      intro va len hle
      obtain rfl : len = 0 := by omega
      rfl
    | succ fuel ih =>
      intro va len hle
      rw [copyinLoop]
      by_cases hzero : len = 0
      · rw [if_pos hzero, hzero]
        rfl
      rw [if_neg hzero]
      dsimp only
      have hround : pgRoundDown va + va % pgSize = va := Nat.div_add_mod' va pgSize
      have hmod : va % pgSize < pgSize := Nat.mod_lt _ (by decide)
      have hoff : va - pgRoundDown va = va % pgSize := by omega
      rw [hoff]
      cases hwalk : pt.walkaddr (pgRoundDown va) with
      | none =>
        obtain ⟨l, rfl⟩ : ∃ l, len = l + 1 := ⟨len - 1, by omega⟩
        have hgap : pt.loadByte m va = none := by rw [loadByte, hwalk]; rfl
        simp [Bytes.fetch, hgap]
      | some pa =>
        dsimp only
        have hchunk : ∀ i < min (pgSize - va % pgSize) len,
            pt.loadByte m (va + i) = some (m.data pa (va % pgSize + i)) := by
          intro i hi
          have hsame : pgRoundDown (va + i) = pgRoundDown va ∧ (va + i) % pgSize = va % pgSize + i := by
            simp only [pgRoundDown, pgSize] at *
            omega
          rw [loadByte, hsame.1, hsame.2, hwalk]
          rfl
        have hsplit : len = min (pgSize - va % pgSize) len + (len - min (pgSize - va % pgSize) len) := by omega
        conv_rhs => rw [hsplit]
        rw [Bytes.fetch_append, Bytes.fetch_of_some hchunk]
        simp only [if_true]
        by_cases hlong : pgSize - va % pgSize ≤ len
        · have hnext : pgRoundDown va + pgSize = va + min (pgSize - va % pgSize) len := by omega
          rw [ih _ _ (by omega), hnext]
        · have hdone : len - min (pgSize - va % pgSize) len = 0 := by omega
          rw [hdone, ih _ _ (Nat.zero_le _)]
          rfl
  exact hloop len va len (Nat.le_refl _)

end PageTable

end Xv6
