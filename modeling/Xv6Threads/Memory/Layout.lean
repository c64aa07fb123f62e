-- SUMMARY: Address-space constants, page rounding and the three-level split of a virtual address.
import Mathlib.Data.Nat.Notation
import Mathlib.Tactic.Ring
import Mathlib.Tactic.NormNum

/-!
# Memory layout

The constants of `riscv.h` and `memlayout.h`. A virtual address is a 64-bit
word, kept here as a natural number; a physical page is named by its page
number `pa >> PGSHIFT`, so that every physical address handed around by the
kernel (always page aligned) is a `Ppn`.
-/

namespace Xv6

/-- Page numbers of physical memory. -/
abbrev Ppn := Nat

def pgSize : Nat := 4096

/-- One beyond the highest virtual address. -/
def maxVa : Nat := 2 ^ 38

def trampoline : Nat := maxVa - pgSize

/-- `TRAPFRAME`: the page below the trampoline, where a table maps the trapframe. -/
def trapframeVa : Nat := trampoline - pgSize

/-- `PHYSTOP >> PGSHIFT`, with `PHYSTOP = KERNBASE + 128 MB`. -/
def physTop : Ppn := 0x88000

/-- Words wrap at `2 ^ 64`. -/
def wordSize : Nat := 2 ^ 64

def pgRoundDown (a : Nat) : Nat := a / pgSize * pgSize

/-- `PGROUNDUP` on 64-bit words: the addition may wrap. -/
def pgRoundUp (sz : Nat) : Nat := (sz + (pgSize - 1)) % wordSize / pgSize * pgSize

/-- `PX(level, va)`: the nine index bits of `va` at a level of the table. -/
def px (level va : Nat) : Fin 512 :=
  ⟨va / 2 ^ (12 + 9 * level) % 512, Nat.mod_lt _ (by decide)⟩

/-- Pages covering the addresses below `sz`: rounds of `for (a = 0; a < sz; a += PGSIZE)`. -/
def pagesBelow (sz : Nat) : Nat := (sz + (pgSize - 1)) / pgSize

/-! ## Rounding -/

theorem pgRoundUp_of_le {sz : Nat} (h : sz ≤ maxVa) : pgRoundUp sz = pagesBelow sz * pgSize := by
  have hlt : sz + (pgSize - 1) < wordSize := by
    have : maxVa + pgSize < wordSize := by decide
    have : pgSize - 1 < pgSize := by decide
    omega
  rw [pgRoundUp, Nat.mod_eq_of_lt hlt, pagesBelow]

theorem pgRoundDown_mul (v : Nat) : pgRoundDown (v * pgSize) = v * pgSize := by
  rw [pgRoundDown, Nat.mul_div_cancel _ (by decide)]

theorem pagesBelow_mul (n : Nat) : pagesBelow (n * pgSize) = n := by
  simp only [pagesBelow, pgSize]
  omega

/-! ## The split of an address -/

theorem px_pgRoundDown (level va : Nat) : px level (pgRoundDown va) = px level va := by
  apply Fin.ext
  have hsplit : 2 ^ (12 + 9 * level) = pgSize * 2 ^ (9 * level) := by rw [pow_add]; rfl
  simp only [px, pgRoundDown, hsplit, ← Nat.div_div_eq_div_mul]
  rw [Nat.mul_div_cancel _ (by decide)]

/-- Virtual pages a three-level table can name: `maxVa` is one bit less. -/
def vpnLimit : Nat := 2 ^ 27

/-- The three indices name a page: two addresses with the same indices lie in
the same page. -/
theorem px_inj {va va' : Nat} (h : va / pgSize < vpnLimit) (h' : va' / pgSize < vpnLimit)
    (h2 : px 2 va = px 2 va') (h1 : px 1 va = px 1 va') (h0 : px 0 va = px 0 va') :
    va / pgSize = va' / pgSize := by
  simp only [px, Fin.mk.injEq, vpnLimit, pgSize] at *
  norm_num at *
  omega

theorem vpn_lt_of_lt_maxVa {va : Nat} (h : va < maxVa) : va / pgSize < vpnLimit := by
  simp only [maxVa, pgSize, vpnLimit] at *
  omega

end Xv6
