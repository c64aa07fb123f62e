-- SUMMARY: Three-level page tables: entries, lookup, the walk that builds tables, and the pages a table is stored in.
import Xv6Threads.Memory.Kalloc

/-!
# Page tables

A page table is a tree of table pages, three levels deep, with 512 entries in
each page. The tree is kept as a value; every node carries the page it is
stored in, and `weigh` weighs these pages. No two slots of the process table
share a table page, so updating the tree of one slot is the same as writing to
its pages.

Leaves are named by virtual page number: `leaf pt v` is the entry at address
`v * PGSIZE`. An entry that is not valid is always zero in the source and is
`none` here.
-/

namespace Xv6

/-- The permission bits of an entry. -/
structure Perm where
  r : Bool
  w : Bool
  x : Bool
  u : Bool
  deriving DecidableEq, Repr

/-- A valid leaf entry. -/
structure Pte where
  ppn : Ppn
  perm : Perm
  deriving DecidableEq, Repr

/-- A page of 512 entries, stored in physical page `page`. -/
structure Table (α : Type) where
  page : Ppn
  entry : Fin 512 → Option α

instance someEntries : NeZero 512 := ⟨by decide⟩

namespace Table

variable {α : Type}

/-- A fresh table page, cleared by `memset`. -/
def zeroed (f : Ppn) : Table α := ⟨f, fun _ => none⟩

def put (t : Table α) (i : Fin 512) (x : Option α) : Table α :=
  { t with entry := fun j => if j = i then x else t.entry j }

@[simp] theorem put_page (t : Table α) (i : Fin 512) (x : Option α) :
    (t.put i x).page = t.page := rfl
@[simp] theorem put_entry_same (t : Table α) (i : Fin 512) (x : Option α) :
    (t.put i x).entry i = x := by simp [put]
theorem put_entry_ne (t : Table α) {i j : Fin 512} (h : j ≠ i) (x : Option α) :
    (t.put i x).entry j = t.entry j := by simp [put, h]
@[simp] theorem zeroed_entry (f : Ppn) (i : Fin 512) : (zeroed f : Table α).entry i = none := rfl
@[simp] theorem zeroed_page (f : Ppn) : (zeroed f : Table α).page = f := rfl

/-- Weight of a table page and of everything below it. -/
def weighWith (sub : α → Nat) (w : Ppn → Nat) (t : Table α) : Nat :=
  w t.page + ∑ i, (t.entry i).elim 0 sub

theorem weighWith_put (sub : α → Nat) (w : Ppn → Nat) (t : Table α) (i : Fin 512)
    (x : Option α) :
    (t.put i x).weighWith sub w + (t.entry i).elim 0 sub = t.weighWith sub w + x.elim 0 sub := by
  have hchange := Weight.sum_change (g := fun j => ((t.put i x).entry j).elim 0 sub)
    (h := fun j => (t.entry j).elim 0 sub) i (fun j hj => by simp only [put_entry_ne t hj])
  simp only [put_entry_same] at hchange
  simp only [weighWith, put_page]
  omega

theorem weighWith_zeroed (sub : α → Nat) (w : Ppn → Nat) (f : Ppn) :
    (zeroed f : Table α).weighWith sub w = w f := by
  simp [weighWith]

theorem le_weighWith {t : Table α} {i : Fin 512} {x : α} (sub : α → Nat) (w : Ppn → Nat)
    (h : t.entry i = some x) : sub x ≤ t.weighWith sub w := by
  have hle := Weight.le_sum (fun i => (t.entry i).elim 0 sub) i
  simp only [h, Option.elim_some] at hle
  unfold weighWith
  omega

end Table

/-- A level-0 page: its entries are leaves. -/
abbrev Leaves := Table Pte
/-- A level-1 page. -/
abbrev Mid := Table Leaves
/-- A whole table: `pagetable_t` is the page of its root. -/
abbrev PageTable := Table Mid

def Leaves.weigh (w : Ppn → Nat) (t : Leaves) : Nat := t.weighWith (fun _ => 0) w
def Mid.weigh (w : Ppn → Nat) (t : Mid) : Nat := t.weighWith (Leaves.weigh w) w

namespace PageTable

/-- The weight of the pages a table is stored in. -/
def weigh (w : Ppn → Nat) (pt : PageTable) : Nat := pt.weighWith (Mid.weigh w) w

/-- The level-0 page that covers `va`, if it exists. -/
def level0 (pt : PageTable) (va : Nat) : Option Leaves :=
  (pt.entry (px 2 va)).bind fun mid => mid.entry (px 1 va)

/-- The valid entry at `va`. -/
def lookup (pt : PageTable) (va : Nat) : Option Pte :=
  (pt.level0 va).bind fun leaves => leaves.entry (px 0 va)

/-- The valid entry of virtual page `v`. -/
def leaf (pt : PageTable) (v : Nat) : Option Pte := pt.lookup (v * pgSize)

/-- `walk(pagetable, va, 0)`: the address of the entry, or null when a table
page on the way is missing. -/
def walk (pt : PageTable) (va : Nat) : Except Panic (Option (Option Pte)) :=
  if maxVa ≤ va then stop "walk"
  else .ok ((pt.level0 va).map fun leaves => leaves.entry (px 0 va))

/-- Store through the address that `walk` returned for `va`. -/
def setPte (pt : PageTable) (va : Nat) (x : Option Pte) : PageTable :=
  match pt.entry (px 2 va) with
  | none => pt
  | some mid =>
    match mid.entry (px 1 va) with
    | none => pt
    | some leaves => pt.put (px 2 va) (some (mid.put (px 1 va) (some (leaves.put (px 0 va) x))))

/-! ## The pages of a table -/

/-- Page `f` holds a part of the table. -/
def StoredIn (pt : PageTable) (f : Ppn) : Prop :=
  pt.page = f ∨ ∃ i mid, pt.entry i = some mid ∧
    (mid.page = f ∨ ∃ j leaves, mid.entry j = some leaves ∧ leaves.page = f)

theorem StoredIn.weigh_pos {pt : PageTable} {f : Ppn} (h : pt.StoredIn f) : 0 < pt.weigh (Weight.single f) := by
  have hpage : ∀ {α : Type} (sub : α → Nat) (t : Table α), t.page = f → 0 < t.weighWith sub (Weight.single f) := by
    intro α sub t ht
    rw [Table.weighWith, ht, Weight.single_self]
    omega
  rcases h with h | ⟨i, mid, hmid, h | ⟨j, leaves, hleaves, h⟩⟩
  · exact hpage _ _ h
  · exact (hpage _ _ h).trans_le (Table.le_weighWith _ _ hmid)
  · exact (hpage _ _ h).trans_le ((Table.le_weighWith _ _ hleaves).trans (Table.le_weighWith _ _ hmid))

/-- A page that weighs something in a table holds a part of it. -/
theorem storedIn_of_weigh_pos {pt : PageTable} {f : Ppn} (h : 0 < pt.weigh (Weight.single f)) : pt.StoredIn f := by
  have hpage : ∀ {α : Type} {sub : α → Nat} {t : Table α}, 0 < t.weighWith sub (Weight.single f) →
      t.page = f ∨ ∃ i x, t.entry i = some x ∧ 0 < sub x := by
    intro α sub t ht
    by_contra hnot
    push Not at hnot
    have hzero : t.weighWith sub (Weight.single f) = 0 := by
      rw [Table.weighWith, Weight.single_ne hnot.1, Nat.zero_add]
      refine Finset.sum_eq_zero fun i _ => ?_
      cases hi : t.entry i with
      | none => rfl
      | some x => exact Nat.le_zero.1 (hnot.2 i x hi)
    omega
  rcases hpage h with h | ⟨i, mid, hi, h⟩
  · exact .inl h
  · rcases hpage h with h | ⟨j, leaves, hj, h⟩
    · exact .inr ⟨i, mid, hi, .inl h⟩
    · rcases hpage h with h | ⟨_, _, _, h⟩
      · exact .inr ⟨i, mid, hi, .inr ⟨j, leaves, hj, h⟩⟩
      · cases h

end PageTable

/-- One level of `walk` with `alloc` set: the table page at entry `i`, taken
from the free list and cleared when the entry is not valid. -/
def Table.demand {α : Type} (m : Mem) (t : Table (Table α)) (i : Fin 512) :
    Option (Table α) × Mem :=
  match t.entry i with
  | some sub => (some sub, m)
  | none =>
    match m.kalloc with
    | (none, m) => (none, m)
    | (some f, m) => (some (zeroed f), m.memset f 0)

/-- `walk(pagetable, va, 1)`; `false` is the null result. Table pages taken
before the failing allocation stay in the table. -/
def PageTable.walkAlloc (m : Mem) (pt : PageTable) (va : Nat) :
    Except Panic (Bool × Mem × PageTable) :=
  if maxVa ≤ va then stop "walk"
  else
    match pt.demand m (px 2 va) with
    | (none, m) => .ok (false, m, pt)
    | (some mid, m) =>
      match mid.demand m (px 1 va) with
      | (none, m) => .ok (false, m, pt.put (px 2 va) (some mid))
      | (some leaves, m) =>
        .ok (true, m, pt.put (px 2 va) (some (mid.put (px 1 va) (some leaves))))

/-! ## Lookup after a store -/

namespace PageTable

theorem lookup_eq_leaf (pt : PageTable) (va : Nat) : pt.lookup va = pt.leaf (va / pgSize) := by
  have h : va / pgSize * pgSize = pgRoundDown va := rfl
  simp only [leaf, lookup, level0, h, px_pgRoundDown]

/-- Table pages present at `va`. -/
def Covers (pt : PageTable) (va : Nat) : Prop := (pt.level0 va).isSome

theorem walk_ok {pt : PageTable} {va : Nat} {r : Option (Option Pte)} (h : pt.walk va = .ok r) :
    va < maxVa ∧ r.join = pt.lookup va ∧ (r.isSome ↔ pt.Covers va) := by
  unfold walk at h
  split at h
  · cases h
  · rename_i hva
    cases h
    refine ⟨not_le.1 hva, ?_, ?_⟩
    · cases hl : pt.level0 va <;> simp [lookup, hl]
    · simp [Covers]

theorem covers_of_lookup {pt : PageTable} {va : Nat} {e : Pte} (h : pt.lookup va = some e) :
    pt.Covers va := by
  unfold lookup at h
  obtain ⟨l, hl, -⟩ := Option.bind_eq_some_iff.1 h
  simp [Covers, hl]

theorem covers_cases {pt : PageTable} {va : Nat} (h : pt.Covers va) :
    ∃ mid leaves, pt.entry (px 2 va) = some mid ∧ mid.entry (px 1 va) = some leaves := by
  obtain ⟨leaves, hl⟩ := Option.isSome_iff_exists.1 h
  obtain ⟨mid, hmid, hleaves⟩ := Option.bind_eq_some_iff.1 hl
  exact ⟨mid, leaves, hmid, hleaves⟩

/-- The indices that `lookup` uses. -/
theorem lookup_put_put {pt : PageTable} {mid : Mid} {leaves : Leaves} {va va' : Nat} :
    lookup (pt.put (px 2 va) (some (mid.put (px 1 va) (some leaves)))) va' =
      if px 2 va' = px 2 va then
        if px 1 va' = px 1 va then leaves.entry (px 0 va')
        else (mid.entry (px 1 va')).bind fun l => l.entry (px 0 va')
      else pt.lookup va' := by
  by_cases h2 : px 2 va' = px 2 va
  · by_cases h1 : px 1 va' = px 1 va
    · simp [lookup, level0, h2, h1]
    · simp [lookup, level0, h2, h1, Table.put_entry_ne]
  · simp [lookup, level0, h2, Table.put_entry_ne]

/-- A store at a covered address changes the entry of its page and no other. -/
theorem setPte_leaf {pt : PageTable} {va v : Nat} {x : Option Pte} (hc : pt.Covers va)
    (hva : va < maxVa) (hv : v < vpnLimit) :
    (pt.setPte va x).leaf v = if v = va / pgSize then x else pt.leaf v := by
  obtain ⟨mid, leaves, hmid, hleaves⟩ := covers_cases hc
  have hdiv : v * pgSize / pgSize = v := Nat.mul_div_cancel _ (by decide)
  simp only [leaf, setPte, hmid, hleaves, lookup_put_put]
  by_cases hsame : v = va / pgSize
  · have hpx : ∀ level, px level (v * pgSize) = px level va := fun level => by
      rw [hsame]; exact px_pgRoundDown level va
    simp [hsame ▸ hpx 2, hsame ▸ hpx 1, hsame ▸ hpx 0, hsame]
  · rw [if_neg hsame]
    by_cases h2 : px 2 (v * pgSize) = px 2 va
    · by_cases h1 : px 1 (v * pgSize) = px 1 va
      · have h0 : px 0 (v * pgSize) ≠ px 0 va := by
          intro h0
          have hpage := px_inj (hdiv.symm ▸ hv) (vpn_lt_of_lt_maxVa hva) h2 h1 h0
          exact hsame (hdiv ▸ hpage)
        simp [h2, h1, lookup, level0, hmid, hleaves, Table.put_entry_ne, h0]
      · simp [h2, h1, lookup, level0, hmid]
    · simp [h2]

theorem setPte_weigh (pt : PageTable) (va : Nat) (x : Option Pte) (w : Ppn → Nat) :
    (pt.setPte va x).weigh w = pt.weigh w := by
  unfold setPte
  split
  · rfl
  · rename_i mid hmid
    split
    · rfl
    · rename_i leaves hleaves
      have hput := pt.weighWith_put (Mid.weigh w) w (px 2 va)
        (some (mid.put (px 1 va) (some (leaves.put (px 0 va) x))))
      have hmidput := mid.weighWith_put (Leaves.weigh w) w (px 1 va)
        (some (leaves.put (px 0 va) x))
      have hleavesput := leaves.weighWith_put (fun _ => 0) w (px 0 va) x
      rw [hmid] at hput
      rw [hleaves] at hmidput
      simp only [Option.elim_some, Mid.weigh, Leaves.weigh] at hput hmidput ⊢
      have hzero : ∀ o : Option Pte, (o.elim 0 fun _ => 0) = 0 := by
        intro o; cases o <;> rfl
      rw [hzero, hzero] at hleavesput
      simp only [weigh]
      omega

theorem setPte_covers {pt : PageTable} {va va' : Nat} {x : Option Pte} :
    (pt.setPte va x).Covers va' ↔ pt.Covers va' := by
  unfold setPte
  split
  · rfl
  · rename_i mid hmid
    split
    · rfl
    · rename_i leaves hleaves
      by_cases h2 : px 2 va' = px 2 va
      · by_cases h1 : px 1 va' = px 1 va
        · simp [Covers, level0, h2, h1, hmid, hleaves]
        · simp [Covers, level0, h2, h1, hmid, Table.put_entry_ne]
      · simp [Covers, level0, h2, Table.put_entry_ne]

end PageTable

/-! ## The walk that builds tables -/

/-- What happened to memory and a table when table pages moved from the free
list into the table: the pages are conserved and no entry changed. -/
structure PageTable.Extends (m : Mem) (pt : PageTable) (m' : Mem) (pt' : PageTable) : Prop where
  kend : m'.kend = m.kend
  refcount : m'.refcount = m.refcount
  pages : ∀ w, m'.weigh w + pt'.weigh w = m.weigh w + pt.weigh w
  leaf : ∀ v, pt'.leaf v = pt.leaf v
  covers : ∀ va, pt.Covers va → pt'.Covers va

namespace PageTable

theorem Extends.refl (m : Mem) (pt : PageTable) : Extends m pt m pt :=
  ⟨rfl, rfl, fun _ => rfl, fun _ => rfl, fun _ h => h⟩

theorem demand_none {α : Type} {m m' : Mem} {t : Table (Table α)} {i : Fin 512}
    (h : t.demand m i = (none, m')) : t.entry i = none ∧ m.freelist = [] ∧ m' = m := by
  unfold Table.demand at h
  split at h
  · cases h
  · rename_i hentry
    split at h
    · rename_i hk
      cases h
      exact ⟨hentry, (Mem.kalloc_none hk).1, (Mem.kalloc_none hk).2⟩
    · cases h

theorem demand_some {α : Type} {m m' : Mem} {t : Table (Table α)} {i : Fin 512}
    {sub : Table α} (h : t.demand m i = (some sub, m')) :
    (t.entry i = some sub ∧ m' = m) ∨
      (t.entry i = none ∧ ∃ f, sub = .zeroed f ∧ m'.kend = m.kend ∧
        m'.refcount = m.refcount ∧ ∀ w, w f + m'.weigh w = m.weigh w) := by
  unfold Table.demand at h
  split at h
  · rename_i hentry
    cases h
    exact .inl ⟨hentry, rfl⟩
  · rename_i hentry
    split at h
    · cases h
    · rename_i f m₁ hk
      cases h
      refine .inr ⟨hentry, f, rfl, ?_, ?_, ?_⟩
      · rw [Mem.memset_kend, Mem.kalloc_kend hk]
      · rw [Mem.memset_refcount, Mem.kalloc_refcount hk]
      · intro w
        rw [Mem.weigh_memset, Mem.weigh_kalloc hk]

/-- Installing a table page that was there, or a cleared one, changes no entry. -/
theorem leaf_put_mid {pt : PageTable} {i : Fin 512} {mid mid' : Mid}
    (hmid : pt.entry i = some mid ∨ (pt.entry i = none ∧ ∃ f, mid = .zeroed f))
    (hsub : ∀ j, mid'.entry j = mid.entry j ∨
      (mid.entry j = none ∧ ∃ f, mid'.entry j = some (.zeroed f))) (va : Nat) :
    lookup (pt.put i (some mid')) va = pt.lookup va := by
  by_cases hi : px 2 va = i
  · subst hi
    have hold : pt.level0 va = mid.entry (px 1 va) := by
      rcases hmid with h | ⟨h, f, rfl⟩ <;> simp [level0, h]
    have hnew : level0 (pt.put (px 2 va) (some mid')) va = mid'.entry (px 1 va) := by
      simp [level0]
    rw [lookup, lookup, hold, hnew]
    rcases hsub (px 1 va) with hj | ⟨hnone, f, hj⟩
    · rw [hj]
    · simp [hj, hnone]
  · simp [lookup, level0, Table.put_entry_ne, hi]

/-- The weight gained by a table when a page is installed at an entry. -/
theorem weigh_put_mid {pt : PageTable} {i : Fin 512} {mid mid' : Mid} {m m' m'' : Mem}
    {w : Ppn → Nat}
    (hmid : (pt.entry i = some mid ∧ m' = m) ∨
      (pt.entry i = none ∧ ∃ f, mid = .zeroed f ∧ w f + m'.weigh w = m.weigh w))
    (hsub : m''.weigh w + mid'.weigh w = m'.weigh w + mid.weigh w) :
    m''.weigh w + weigh w (pt.put i (some mid')) = m.weigh w + pt.weigh w := by
  have hput := pt.weighWith_put (Mid.weigh w) w i (some mid')
  simp only [Option.elim_some] at hput
  rcases hmid with ⟨h, rfl⟩ | ⟨h, f, rfl, hw⟩
  · rw [h, Option.elim_some] at hput
    simp only [weigh]
    omega
  · rw [h, Option.elim_none] at hput
    have hz : Mid.weigh w (.zeroed f) = w f := Table.weighWith_zeroed _ _ _
    simp only [weigh]
    omega

theorem walkAlloc_ok {m m' : Mem} {pt pt' : PageTable} {va : Nat} {b : Bool}
    (h : walkAlloc m pt va = .ok (b, m', pt')) :
    va < maxVa ∧ Extends m pt m' pt' ∧
      (b = true → pt'.Covers va) ∧ (b = false → m'.freelist = [] ∧ ¬ pt.Covers va) := by
  unfold walkAlloc at h
  split at h
  · cases h
  rename_i hva
  refine ⟨not_le.1 hva, ?_⟩
  split at h
  · -- no page for the level-1 table
    rename_i m₁ hd
    obtain ⟨hentry, hnil, rfl⟩ := demand_none hd
    cases h
    refine ⟨.refl _ _, by simp, fun _ => ⟨hnil, ?_⟩⟩
    simp [Covers, level0, hentry]
  · rename_i mid m₁ hd
    have hmid := demand_some hd
    have hmid' : pt.entry (px 2 va) = some mid ∨
        (pt.entry (px 2 va) = none ∧ ∃ f, mid = .zeroed f) := by
      rcases hmid with ⟨h, -⟩ | ⟨h, f, hf, -⟩
      · exact .inl h
      · exact .inr ⟨h, f, hf⟩
    have hweigh : ∀ w : Ppn → Nat, (pt.entry (px 2 va) = some mid ∧ m₁ = m) ∨
        (pt.entry (px 2 va) = none ∧ ∃ f, mid = .zeroed f ∧ w f + m₁.weigh w = m.weigh w) := by
      intro w
      rcases hmid with h | ⟨h, f, hf, -, -, hw⟩
      · exact .inl h
      · exact .inr ⟨h, f, hf, hw w⟩
    have hkr : m₁.kend = m.kend ∧ m₁.refcount = m.refcount := by
      rcases hmid with ⟨-, rfl⟩ | ⟨-, f, -, hk, hr, -⟩
      · exact ⟨rfl, rfl⟩
      · exact ⟨hk, hr⟩
    have hcov : ∀ va', pt.Covers va' → ∀ x, (∀ j, mid.entry j ≠ none → x.entry j ≠ none) →
        Covers (pt.put (px 2 va) (some x)) va' := by
      intro va' hc x hx
      obtain ⟨mid₀, leaves₀, h2, h1⟩ := covers_cases hc
      by_cases hi : px 2 va' = px 2 va
      · have hm : mid = mid₀ := by
          rcases hmid' with h | ⟨h, -⟩
          · rw [← hi, h2] at h; exact (Option.some.inj h).symm
          · rw [← hi, h2] at h; cases h
        have := hx (px 1 va') (by rw [hm, h1]; simp)
        simpa [Covers, level0, hi, Option.isSome_iff_ne_none] using this
      · simp [Covers, level0, Table.put_entry_ne, hi, h2, h1]
    split at h
    · -- the level-1 table stays installed, no page for the level-0 table
      rename_i m₂ hd'
      obtain ⟨hentry', hnil, rfl⟩ := demand_none hd'
      cases h
      refine ⟨⟨hkr.1, hkr.2, fun w => weigh_put_mid (hweigh w) rfl, ?_, ?_⟩, by simp, ?_⟩
      · exact fun v => leaf_put_mid hmid' (fun _ => .inl rfl) _
      · exact fun va' hc => hcov va' hc mid (fun _ h => h)
      · refine fun _ => ⟨hnil, ?_⟩
        rcases hmid' with h | ⟨h, -⟩
        · simp [Covers, level0, h, hentry']
        · simp [Covers, level0, h]
    · rename_i leaves m₂ hd'
      have hleaves := demand_some hd'
      obtain ⟨rfl, rfl, rfl⟩ : true = b ∧ m₂ = m' ∧ _ = pt' := by simpa using h
      clear h
      have hsub : ∀ w, m₂.weigh w + Mid.weigh w (mid.put (px 1 va) (some leaves)) =
          m₁.weigh w + Mid.weigh w mid := by
        intro w
        have hput := mid.weighWith_put (Leaves.weigh w) w (px 1 va) (some leaves)
        simp only [Option.elim_some] at hput
        rcases hleaves with ⟨h, rfl⟩ | ⟨h, f, rfl, -, -, hw⟩
        · rw [h, Option.elim_some] at hput
          simp only [Mid.weigh]
          omega
        · rw [h, Option.elim_none] at hput
          have hz : Leaves.weigh w (.zeroed f) = w f := Table.weighWith_zeroed _ _ _
          have := hw w
          simp only [Mid.weigh]
          omega
      refine ⟨⟨?_, ?_, fun w => weigh_put_mid (hweigh w) (hsub w), ?_, ?_⟩, ?_, by simp⟩
      · rcases hleaves with ⟨-, rfl⟩ | ⟨-, f, -, hk, -⟩
        · exact hkr.1
        · rw [hk, hkr.1]
      · rcases hleaves with ⟨-, rfl⟩ | ⟨-, f, -, -, hr, -⟩
        · exact hkr.2
        · rw [hr, hkr.2]
      · refine fun v => leaf_put_mid hmid' (fun j => ?_) _
        by_cases hj : j = px 1 va
        · subst hj
          rcases hleaves with ⟨h, -⟩ | ⟨h, f, rfl, -⟩
          · exact .inl (by rw [Table.put_entry_same, h])
          · exact .inr ⟨h, f, by rw [Table.put_entry_same]⟩
        · exact .inl (Table.put_entry_ne _ hj _)
      · refine fun va' hc => hcov va' hc _ (fun j hj => ?_)
        by_cases h : j = px 1 va
        · subst h; simp
        · rwa [Table.put_entry_ne _ h]
      · intro _
        simp [Covers, level0]

end PageTable

end Xv6
