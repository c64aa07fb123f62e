-- SUMMARY: Page tables as the machine stores them: the routines of vm.c on words of physical memory.
import Xv6Threads.Base.Bytes
import Xv6Threads.Base.Trie
import Xv6Threads.Memory.Range
import Xv6Threads.Memory.Word

/-!
# Sv39

Table pages as they lie in memory: 512 words each, an entry that is a pointer or
a leaf only by the level at which `walk` meets it. `pagetable_t` is the physical
address of the root. In these words a table is a trie: the entries of its pages
are links, and a virtual address is a path.
-/

namespace Xv6

namespace Sv39

/-! ## The code -/

/-- Load the word at a physical address; words do not cross pages. -/
def load (m : Mem) (a : UInt64) : UInt64 :=
  .ofNat (Bytes.peek (m.data (a.toNat / pgSize)) (a.toNat % pgSize) 8)

def store (m : Mem) (a v : UInt64) : Mem :=
  { m with
    data := Function.update m.data (a.toNat / pgSize)
      (Bytes.poke (m.data (a.toNat / pgSize)) (a.toNat % pgSize) 8 v.toNat) }

def pteV : UInt64 := (1 : UInt64) <<< 0
def pteR : UInt64 := (1 : UInt64) <<< 1
def pteW : UInt64 := (1 : UInt64) <<< 2
def pteX : UInt64 := (1 : UInt64) <<< 3

def pa2pte (pa : UInt64) : UInt64 := (pa >>> 12) <<< 10
def pte2pa (pte : UInt64) : UInt64 := (pte >>> 10) <<< 12
def pteFlags (pte : UInt64) : UInt64 := pte &&& 0x3FF

/-- `PX(level, va)`. -/
def px (level : Nat) (va : UInt64) : UInt64 := (va >>> .ofNat (12 + 9 * level)) &&& 0x1FF

/-- `MAXVA`. -/
def maxVa : UInt64 := (1 : UInt64) <<< (9 + 9 + 9 + 12 - 1)

/-- The loop of `walk`, with `level` levels to go. -/
def walkFrom (alloc : Bool) : Nat → Mem → UInt64 → UInt64 → Option UInt64 × Mem
  | 0, m, pagetable, va => (some (pagetable + 8 * px 0 va), m)
  | level + 1, m, pagetable, va =>
    let pte := pagetable + 8 * px (level + 1) va
    if load m pte &&& pteV ≠ 0 then walkFrom alloc level m (pte2pa (load m pte)) va
    else if !alloc then (none, m)
    else
      match m.kalloc with
      | (none, m) => (none, m)
      | (some f, m) =>
        let pagetable : UInt64 := .ofNat (f * pgSize)
        walkFrom alloc level (store (m.memset f 0) pte (pa2pte pagetable ||| pteV)) pagetable va

/-- `walk(pagetable, va, alloc)`: the address of the entry, or null. -/
def walk (m : Mem) (pagetable va : UInt64) (alloc : Bool) : Except Panic (Option UInt64 × Mem) :=
  if maxVa ≤ va then stop "walk" else .ok (walkFrom alloc 2 m pagetable va)

/-- The conversion of `int perm` to `uint64`. -/
def permBits (perm : Int32) : UInt64 := perm.toInt64.toUInt64

/-- The loop of `mappages`, from page `a` on. -/
def mappagesLoop (perm : Int32) (last : UInt64) : Nat → Mem → UInt64 → UInt64 → UInt64 → Except Panic (Int × Mem)
  | 0, _, _, _, _ => .error .spin
  | fuel + 1, m, pagetable, a, pa => do
    match ← walk m pagetable a true with
    | (none, m) => .ok (-1, m)
    | (some pte, m) =>
      if load m pte &&& pteV ≠ 0 then stop "mappages: remap"
      else
        let m := store m pte (pa2pte pa ||| permBits perm ||| pteV)
        if a = last then .ok (0, m)
        else mappagesLoop perm last fuel m pagetable (a + Word.page) (pa + Word.page)

/-- Rounds after which `walk` has stopped the loops below: the pages below `MAXVA`, and one more. -/
def rounds : Nat := 2 ^ 26 + 1

def mappages (m : Mem) (pagetable va size pa : UInt64) (perm : Int32) : Except Panic (Int × Mem) :=
  if size = 0 then stop "mappages: size"
  else mappagesLoop perm (Word.roundDown (va + size - 1)) rounds m pagetable (Word.roundDown va) pa

/-- The loop of `uvmunmap`, from page `a` on. -/
def uvmunmapLoop (doFree : Bool) (bound : UInt64) : Nat → Mem → UInt64 → UInt64 → Except Panic Mem
  | 0, _, _, _ => .error .spin
  | fuel + 1, m, pagetable, a =>
    if a < bound then do
      match ← walk m pagetable a false with
      | (none, _) => stop "uvmunmap: walk"
      | (some pte, m) =>
        if load m pte &&& pteV = 0 then stop "uvmunmap: not mapped"
        else if pteFlags (load m pte) = pteV then stop "uvmunmap: not a leaf"
        else
          let m₁ ← (if doFree then m.kfree ((pte2pa (load m pte)).toNat / pgSize) else .ok m)
          uvmunmapLoop doFree bound fuel (store m₁ pte 0) pagetable (a + Word.page)
    else .ok m

def uvmunmap (m : Mem) (pagetable va npages : UInt64) (doFree : Bool) : Except Panic Mem :=
  if va % Word.page ≠ 0 then stop "uvmunmap: not aligned"
  else uvmunmapLoop doFree (va + npages * Word.page) rounds m pagetable va

/-- One round of `freewalk`, with `below` for the recursive call. -/
def freewalkEntry (below : Mem → UInt64 → Except Panic Mem) (pagetable : UInt64) (m : Mem) (i : Fin 512) :
    Except Panic Mem :=
  let pte := load m (pagetable + 8 * .ofNat i)
  if pte &&& pteV ≠ 0 ∧ pte &&& (pteR ||| pteW ||| pteX) = 0 then do
    -- this PTE points to a lower-level page table
    let m ← below m (pte2pa pte)
    .ok (store m (pagetable + 8 * .ofNat i) 0)
  else if pte &&& pteV ≠ 0 then stop "freewalk: leaf"
  else .ok m

/-- `freewalk`: one unit of fuel for each level of the recursion. -/
def freewalk : Nat → Mem → UInt64 → Except Panic Mem
  | 0, _, _ => .error .spin
  | fuel + 1, m, pagetable => do
    let m ← (List.finRange 512).foldlM (freewalkEntry (freewalk fuel) pagetable) m
    m.kfree (pagetable.toNat / pgSize)

/-! ## Words -/

theorem maxVa_toNat : maxVa.toNat = Xv6.maxVa := rfl

theorem px_toNat (level : Nat) (h : level ≤ 2) (va : UInt64) : (px level va).toNat = (Xv6.px level va.toNat).val := by
  have hmask : (0x1FF : UInt64).toNat = 2 ^ 9 - 1 := rfl
  have hshift : (UInt64.ofNat (12 + 9 * level)).toNat % 64 = 12 + 9 * level := by
    have hsize : UInt64.size = 2 ^ 64 := rfl
    rw [UInt64.toNat_ofNat_of_lt' (by omega)]
    omega
  rw [px, UInt64.toNat_and, hmask, Nat.and_two_pow_sub_one_eq_mod, UInt64.toNat_shiftRight, hshift,
    Nat.shiftRight_eq_div_pow]
  rfl

theorem pa2pte_toNat (pa : UInt64) : (pa2pte pa).toNat = pa.toNat / pgSize * 2 ^ 10 := by
  have hlt := pa.toNat_lt
  have hten : (10 : UInt64).toNat % 64 = 10 := rfl
  have htwelve : (12 : UInt64).toNat % 64 = 12 := rfl
  rw [pa2pte, UInt64.toNat_shiftLeft, UInt64.toNat_shiftRight, hten, htwelve, Nat.shiftRight_eq_div_pow,
    Nat.shiftLeft_eq, pgSize]
  omega

theorem pte2pa_toNat (pte : UInt64) : (pte2pa pte).toNat = pte.toNat / 2 ^ 10 % 2 ^ 52 * pgSize := by
  have hten : (10 : UInt64).toNat % 64 = 10 := rfl
  have htwelve : (12 : UInt64).toNat % 64 = 12 := rfl
  rw [pte2pa, UInt64.toNat_shiftLeft, UInt64.toNat_shiftRight, hten, htwelve, Nat.shiftRight_eq_div_pow,
    Nat.shiftLeft_eq, pgSize]
  omega

theorem pteFlags_toNat (pte : UInt64) : (pteFlags pte).toNat = pte.toNat % 2 ^ 10 := by
  have hmask : (0x3FF : UInt64).toNat = 2 ^ 10 - 1 := rfl
  rw [pteFlags, UInt64.toNat_and, hmask, Nat.and_two_pow_sub_one_eq_mod]

/-- An entry made of a page and flags. -/
theorem entry_toNat (pa flags : UInt64) (h : flags.toNat < 2 ^ 10) :
    (pa2pte pa ||| flags).toNat = pa.toNat / pgSize * 2 ^ 10 + flags.toNat := by
  rw [UInt64.toNat_or, pa2pte_toNat, Nat.mul_comm, ← Nat.two_pow_add_eq_or_of_lt h]

theorem pte2pa_entry (pa flags : UInt64) (hpa : pa.toNat % pgSize = 0) (h : flags.toNat < 2 ^ 10) :
    pte2pa (pa2pte pa ||| flags) = pa := by
  have hlt := pa.toNat_lt
  apply UInt64.toNat_inj.1
  rw [pte2pa_toNat, entry_toNat pa flags h]
  simp only [pgSize] at *
  omega

theorem pteFlags_entry (pa flags : UInt64) (h : flags.toNat < 2 ^ 10) : pteFlags (pa2pte pa ||| flags) = flags := by
  apply UInt64.toNat_inj.1
  rw [pteFlags_toNat, entry_toNat pa flags h]
  omega

/-- `PTE_V` is the lowest bit. -/
theorem valid_iff (e : UInt64) : e &&& pteV ≠ 0 ↔ e.toNat % 2 = 1 := by
  have hone : pteV.toNat = 2 ^ 1 - 1 := rfl
  have hzero : (e &&& pteV).toNat = e.toNat % 2 := by
    rw [UInt64.toNat_and, hone, Nat.and_two_pow_sub_one_eq_mod]
  rw [ne_eq, ← UInt64.toNat_inj, hzero, UInt64.toNat_zero]
  omega

theorem or_valid (e : UInt64) : (e ||| pteV) &&& pteV ≠ 0 := by
  have hone : pteV.toNat = 1 := rfl
  rw [valid_iff, UInt64.toNat_or, hone, Nat.mod_two_eq_one_iff_testBit_zero, Nat.testBit_or]
  simp

/-! ## Entries -/

/-- Entry `i` of the table page `f`. -/
def entry (m : Mem) (f : Ppn) (i : Fin 512) : UInt64 := .ofNat (Bytes.peek (m.data f) (8 * i) 8)

variable {m m' : Mem} {pagetable va a v : UInt64} {f g : Ppn} {i j : Fin 512}

/-- The address of an entry. -/
theorem slot_toNat (h : pagetable.toNat = f * pgSize) {x : UInt64} (hx : x.toNat = i) :
    (pagetable + 8 * x).toNat = f * pgSize + 8 * i := by
  have hlt := pagetable.toNat_lt
  have hi := i.isLt
  have height : (8 : UInt64).toNat = 8 := rfl
  rw [UInt64.toNat_add, UInt64.toNat_mul, hx, height, h]
  rw [h] at hlt
  simp only [pgSize] at *
  omega

theorem slot_div (i : Fin 512) : (f * pgSize + 8 * i) / pgSize = f ∧ (f * pgSize + 8 * i) % pgSize = 8 * i := by
  have hi : 8 * (i : Nat) < pgSize := by
    simp only [pgSize]
    omega
  constructor
  · rw [Nat.add_comm, Nat.add_mul_div_right _ _ (by decide), Nat.div_eq_of_lt hi, Nat.zero_add]
  · rw [Nat.add_comm, Nat.add_mul_mod_self_right, Nat.mod_eq_of_lt hi]

theorem load_slot (h : a.toNat = f * pgSize + 8 * i) : load m a = entry m f i := by
  obtain ⟨hdiv, hmod⟩ := slot_div (f := f) i
  rw [load, h, hdiv, hmod, entry]

theorem entry_congr (h : m'.data f = m.data f) (i : Fin 512) : entry m' f i = entry m f i := by
  rw [entry, entry, h]

theorem entry_store (h : a.toNat = f * pgSize + 8 * i) :
    entry (store m a v) g j = if g = f ∧ j = i then v else entry m g j := by
  obtain ⟨hdiv, hmod⟩ := slot_div (f := f) i
  simp only [entry, store, h, hdiv, hmod]
  by_cases hg : g = f
  · subst hg
    rw [Function.update_self]
    by_cases hj : j = i
    · rw [if_pos ⟨rfl, hj⟩, hj, Bytes.peek_poke_same]
      have hlt := v.toNat_lt
      rw [Nat.mod_eq_of_lt (by omega), UInt64.ofNat_toNat]
    · have hne : (j : Nat) ≠ i := fun heq => hj (Fin.ext heq)
      rw [if_neg (by simp [hj]), Bytes.peek_poke_ne (by omega)]
  · rw [Function.update_of_ne hg, if_neg (by simp [hg])]

theorem store_data (h : a.toNat = f * pgSize + 8 * i) (hg : g ≠ f) : (store m a v).data g = m.data g := by
  obtain ⟨hdiv, -⟩ := slot_div (f := f) i
  simp only [store, h, hdiv]
  exact Function.update_of_ne hg _ _

@[simp] theorem store_freelist : (store m a v).freelist = m.freelist := rfl
@[simp] theorem store_kend : (store m a v).kend = m.kend := rfl
@[simp] theorem store_refcount : (store m a v).refcount = m.refcount := rfl
@[simp] theorem weigh_store (w : Ppn → Nat) : (store m a v).weigh w = m.weigh w := rfl

theorem entry_memset_zero (m : Mem) (f : Ppn) (i : Fin 512) : entry (m.memset f 0) f i = 0 := by
  have hzero : (m.memset f 0).data f = fun _ => 0 := if_pos rfl
  rw [entry, hzero, Bytes.peek_zero]
  rfl

end Sv39

end Xv6
