-- SUMMARY: The range of the allocator: what the routines of vm.c put on the free list is a page that kfree accepts.
import Xv6Threads.Memory.Vm

/-!
# The range of the allocator

`kfree` stops the kernel unless the page lies between the end of the kernel
image and `PHYSTOP`. Whatever a routine frees has passed that test, so the free
list holds pages of that range only, however wrong the counts may be.
-/

namespace Xv6

namespace Mem

variable {m₀ m m' : Mem} {pa : Ppn} {o : Option Ppn}

/-- A page that is free afterwards was free before, or lies in the range. -/
structure Recycles (m m' : Mem) : Prop where
  kend : m'.kend = m.kend
  free : ∀ f ∈ m'.freelist, f ∈ m.freelist ∨ m.InRange f

theorem Recycles.refl (m : Mem) : m.Recycles m := ⟨rfl, fun _ => .inl⟩

/-- The free list stays as it is. -/
theorem Recycles.keep (h : m₀.Recycles m) (hkend : m'.kend = m.kend) (hfree : m'.freelist = m.freelist) :
    m₀.Recycles m' := ⟨hkend.trans h.kend, fun f hf => h.free f (hfree ▸ hf)⟩

theorem Recycles.memset (h : m₀.Recycles m) (pa : Ppn) (b : UInt8) : m₀.Recycles (m.memset pa b) := h.keep rfl rfl
theorem Recycles.memmove (h : m₀.Recycles m) (pa src : Ppn) : m₀.Recycles (m.memmove pa src) := h.keep rfl rfl
theorem Recycles.krefInc (h : m₀.Recycles m) (pa : Ppn) : m₀.Recycles (m.krefInc pa) := h.keep rfl rfl
theorem Recycles.krefDec (h : m₀.Recycles m) (pa : Ppn) : m₀.Recycles (m.krefDec pa) := h.keep rfl rfl

theorem Recycles.kalloc (h : m₀.Recycles m) (hk : m.kalloc = (o, m')) : m₀.Recycles m' := by
  cases o with
  | none => exact (kalloc_none hk).2 ▸ h
  | some r =>
    refine ⟨(kalloc_kend hk).trans h.kend, fun f hf => h.free f ?_⟩
    rw [(kalloc_some hk).1]
    exact List.mem_cons_of_mem r hf

theorem Recycles.kfree (h : m₀.Recycles m) (pa : Ppn) : (m.kfree pa).Yields m₀.Recycles := by
  intro m' hfree
  obtain ⟨hrange, rfl⟩ := kfree_ok hfree
  refine ⟨h.kend, fun f hf => ?_⟩
  rcases List.mem_cons.1 hf with rfl | hf
  · rw [InRange, h.kend] at hrange
    exact .inr hrange
  · exact h.free f hf

/-- Every page on the free list is one that `kfree` accepts. -/
def Ranged (m : Mem) : Prop := ∀ f ∈ m.freelist, m.InRange f

theorem Ranged.of_recycles (hr : m.Ranged) (h : m.Recycles m') : m'.Ranged := by
  intro f hf
  rw [InRange, h.kend]
  rcases h.free f hf with hf | hf
  · exact hr f hf
  · exact hf

end Mem

namespace PageTable

variable {m₀ m m' : Mem} {pt pt' : PageTable}

theorem demand_recycles {α : Type} {t : Table (Table α)} {i : Fin 512} {o : Option (Table α)}
    (h : m₀.Recycles m) (hd : t.demand m i = (o, m')) : m₀.Recycles m' := by
  unfold Table.demand at hd
  split at hd
  · cases hd
    exact h
  · split at hd
    · rename_i hk
      cases hd
      exact h.kalloc hk
    · rename_i hk
      cases hd
      exact (h.kalloc hk).memset _ _

theorem walkAlloc_recycles (h : m₀.Recycles m) (pt : PageTable) (va : Nat) :
    (walkAlloc m pt va).Yields fun r => m₀.Recycles r.2.1 := by
  unfold walkAlloc
  split
  · exact Except.yields_error
  · split
    · rename_i hd
      exact Except.yields_ok (demand_recycles h hd)
    · rename_i hd
      split
      · rename_i hd'
        exact Except.yields_ok (demand_recycles (demand_recycles h hd) hd')
      · rename_i hd'
        exact Except.yields_ok (demand_recycles (demand_recycles h hd) hd')

theorem mappagesLoop_recycles (perm : Perm) (n : Nat) (h : m₀.Recycles m) (pt : PageTable) (a : Nat) (pa : Ppn) :
    (mappagesLoop perm n m pt a pa).Yields fun r => m₀.Recycles r.2.1 := by
  induction n generalizing m pt a pa with
  | zero => exact Except.yields_ok h
  | succ n ih =>
    refine (walkAlloc_recycles h pt a).bind fun ⟨found, m₁, pt₁⟩ h₁ => ?_
    dsimp only
    split
    · exact Except.yields_ok h₁
    · split
      · exact Except.yields_error
      · exact ih h₁ _ _ _

theorem mappages_recycles (h : m₀.Recycles m) (pt : PageTable) (va size : Nat) (pa : Ppn) (perm : Perm) :
    (mappages m pt va size pa perm).Yields fun r => m₀.Recycles r.2.1 := by
  unfold mappages
  split
  · exact Except.yields_error
  · exact mappagesLoop_recycles _ _ h _ _ _

theorem uvmunmapLoop_recycles (doFree : Bool) (n : Nat) (h : m₀.Recycles m) (pt : PageTable) (a : Nat) :
    (uvmunmapLoop doFree n m pt a).Yields fun r => m₀.Recycles r.1 := by
  induction n generalizing m pt a with
  | zero => exact Except.yields_ok h
  | succ n ih =>
    refine Except.Yields.bind (P := fun _ => True) (fun _ _ => trivial) fun r _ => ?_
    split
    · exact Except.yields_error
    · exact Except.yields_error
    · split
      · exact Except.yields_error
      · refine Except.Yields.bind (P := m₀.Recycles) ?_ fun m₁ h₁ => ih h₁ _ _
        split
        · exact h.kfree _
        · exact Except.yields_ok h

theorem uvmunmap_recycles (h : m₀.Recycles m) (pt : PageTable) (va npages : Nat) (doFree : Bool) :
    (uvmunmap m pt va npages doFree).Yields fun r => m₀.Recycles r.1 := by
  unfold uvmunmap
  split
  · exact Except.yields_error
  · exact uvmunmapLoop_recycles _ _ h _ _

theorem uvmdealloc_recycles (h : m₀.Recycles m) (pt : PageTable) (oldsz newsz : Nat) :
    (uvmdealloc m pt oldsz newsz).Yields fun r => m₀.Recycles r.2.1 := by
  unfold uvmdealloc
  split
  · exact Except.yields_ok h
  · split
    · exact (uvmunmap_recycles h _ _ _ _).bind fun _ h₁ => Except.yields_ok h₁
    · exact Except.yields_ok h

theorem uvmallocLoop_recycles (oldsz newsz : Nat) (perm : Perm) (n : Nat) (h : m₀.Recycles m) (pt : PageTable)
    (a : Nat) : (uvmallocLoop oldsz newsz perm n m pt a).Yields fun r => m₀.Recycles r.2.1 := by
  induction n generalizing m pt a with
  | zero => exact Except.yields_ok h
  | succ n ih =>
    rw [uvmallocLoop]
    split
    · rename_i hk
      exact (uvmdealloc_recycles (h.kalloc hk) _ _ _).bind fun _ h₁ => Except.yields_ok h₁
    · rename_i hk
      refine (mappages_recycles ((h.kalloc hk).memset _ _) _ _ _ _ _).bind fun ⟨mapped, m₁, pt₁⟩ h₁ => ?_
      dsimp only
      split
      · exact ih h₁ _ _
      · refine (h₁.kfree _).bind fun m₂ h₂ => ?_
        exact (uvmdealloc_recycles h₂ _ _ _).bind fun _ h₃ => Except.yields_ok h₃

theorem uvmalloc_recycles (h : m₀.Recycles m) (pt : PageTable) (oldsz newsz : Nat) (xperm : Perm) :
    (uvmalloc m pt oldsz newsz xperm).Yields fun r => m₀.Recycles r.2.1 := by
  unfold uvmalloc
  split
  · exact Except.yields_ok h
  · exact uvmallocLoop_recycles _ _ _ _ h _ _

theorem sweep_recycles {α : Type} {below : Mem → α → Except Panic Mem}
    (hb : ∀ m x, m₀.Recycles m → (below m x).Yields m₀.Recycles) (h : m₀.Recycles m) (t : Table α) :
    (Table.sweep below m t).Yields m₀.Recycles := by
  refine Except.Yields.bind (P := m₀.Recycles) ?_ fun m₁ h₁ => h₁.kfree _
  refine Except.Yields.foldlM (fun m₁ i h₁ => ?_) (List.finRange 512) h
  split
  · exact Except.yields_ok h₁
  · exact hb _ _ h₁

theorem freewalk_recycles (h : m₀.Recycles m) (pt : PageTable) : (freewalk m pt).Yields m₀.Recycles := by
  unfold freewalk
  refine sweep_recycles (fun m₁ mid h₁ => ?_) h pt
  refine sweep_recycles (fun m₂ leaves h₂ => ?_) h₁ mid
  exact sweep_recycles (fun _ _ _ => Except.yields_error) h₂ leaves

theorem uvmfree_recycles (h : m₀.Recycles m) (pt : PageTable) (sz : Nat) :
    (pt.uvmfree m sz).Yields m₀.Recycles := by
  unfold uvmfree
  refine Except.Yields.bind (P := fun r => m₀.Recycles r.1) ?_ fun ⟨m₁, pt₁⟩ h₁ => freewalk_recycles (m := m₁) h₁ pt₁
  split
  · exact uvmunmap_recycles h _ _ _ _
  · exact Except.yields_ok h

theorem dropUserPage_recycles (release : Bool) (h : m₀.Recycles m) (pt : PageTable) (va : Nat) :
    (dropUserPage release m pt va).Yields fun r => m₀.Recycles r.1 := by
  refine Except.Yields.bind (P := fun _ => True) (fun _ _ => trivial) fun r _ => ?_
  split
  · exact Except.yields_ok h
  · exact Except.yields_ok h
  · refine Except.Yields.bind (P := m₀.Recycles) ?_ fun m₁ h₁ => Except.yields_ok h₁
    split
    · exact (h.krefDec _).kfree _
    · exact Except.yields_ok (h.krefDec _)

theorem uvmfreeWith_recycles (release : Bool) (h : m₀.Recycles m) (pt : PageTable) (sz : Nat) :
    (uvmfreeWith (dropUserPage release) m pt sz).Yields m₀.Recycles := by
  have hloop : ∀ n {m : Mem}, m₀.Recycles m → ∀ pt a,
      (dropUserPages (dropUserPage release) n m pt a).Yields fun r => m₀.Recycles r.1 := by
    intro n
    induction n with
    | zero => exact fun h _ _ => Except.yields_ok h
    | succ n ih => exact fun h _ _ => (dropUserPage_recycles release h _ _).bind fun r h₁ => ih h₁ _ _
  unfold uvmfreeWith
  split
  · exact Except.yields_error
  · exact (hloop _ h _ _).bind fun ⟨m₁, pt₁⟩ h₁ => freewalk_recycles (m := m₁) h₁ pt₁

theorem uvmcopyLoop_recycles (old : PageTable) (n : Nat) (h : m₀.Recycles m) (new : PageTable) (i : Nat) :
    (uvmcopyLoop old n m new i).Yields fun r => m₀.Recycles r.2.1 := by
  induction n generalizing m new i with
  | zero => exact Except.yields_ok h
  | succ n ih =>
    refine Except.Yields.bind (P := fun _ => True) (fun _ _ => trivial) fun r _ => ?_
    split
    · exact Except.yields_error
    · exact Except.yields_error
    · split
      · rename_i hk
        exact (uvmunmap_recycles (h.kalloc hk) _ _ _ _).bind fun _ h₁ => Except.yields_ok h₁
      · rename_i hk
        refine (mappages_recycles ((h.kalloc hk).memmove _ _) _ _ _ _ _).bind fun ⟨mapped, m₁, new₁⟩ h₁ => ?_
        dsimp only
        split
        · exact ih h₁ _ _
        · refine (h₁.kfree _).bind fun m₂ h₂ => ?_
          exact (uvmunmap_recycles h₂ _ _ _ _).bind fun _ h₃ => Except.yields_ok h₃

theorem uvmshareLoop_recycles (src : PageTable) (n : Nat) (h : m₀.Recycles m) (dest : PageTable) (i : Nat) :
    (uvmshareLoop src n m dest i).Yields fun r => m₀.Recycles r.2.1 := by
  induction n generalizing m dest i with
  | zero => exact Except.yields_ok h
  | succ n ih =>
    refine Except.Yields.bind (P := fun _ => True) (fun _ _ => trivial) fun r _ => ?_
    split
    · exact ih h _ _
    · exact ih h _ _
    · refine (mappages_recycles h _ _ _ _ _).bind fun ⟨mapped, m₁, dest₁⟩ h₁ => ?_
      dsimp only
      split
      · exact ih (h₁.krefInc _) _ _
      · exact Except.yields_ok h₁

/-! ## Giving a table back

`freewalk` cannot stop the kernel on a table without leaves whose pages came
from the allocator. -/

end PageTable

/-- The weight that counts the pages `kfree` refuses. -/
def Mem.beyond (m : Mem) (f : Ppn) : Nat := if m.InRange f then 0 else 1

theorem Mem.beyond_eq_zero {m : Mem} {f : Ppn} : m.beyond f = 0 ↔ m.InRange f := by
  unfold Mem.beyond
  split <;> simp_all

theorem Mem.beyond_congr {m m' : Mem} (h : m'.kend = m.kend) : m'.beyond = m.beyond := by
  funext f
  have hiff : m'.InRange f ↔ m.InRange f := by rw [InRange, InRange, h]
  simp only [beyond, hiff]

theorem Mem.Ranged.weigh {m : Mem} (h : m.Ranged) : m.weigh m.beyond = 0 := by
  have hlist : ∀ l : List Ppn, (∀ f ∈ l, m.InRange f) → Weight.ofList m.beyond l = 0 := by
    intro l hl
    induction l with
    | nil => rfl
    | cons f l ih =>
      rw [Weight.ofList_cons, Mem.beyond_eq_zero.2 (hl f (by simp)), ih fun g hg => hl g (by simp [hg])]
  exact hlist m.freelist h

theorem Table.sweep_total {α : Type} (below : Mem → α → Except Panic Mem) {m : Mem} {t : Table α}
    (hb : ∀ m₁ : Mem, m₁.kend = m.kend → ∀ i x, t.entry i = some x → ∃ m₂, below m₁ x = .ok m₂ ∧ m₂.kend = m.kend)
    (hpage : m.InRange t.page) : ∃ m', t.sweep below m = .ok m' ∧ m'.kend = m.kend := by
  refine Except.Returns.bind (P := fun m₁ => m₁.kend = m.kend) (Except.Returns.foldlM ?_ _ rfl) fun m₁ hm₁ => ?_
  · intro m₁ i hm₁
    cases hi : t.entry i with
    | none => exact ⟨m₁, rfl, hm₁⟩
    | some x => exact hb m₁ hm₁ i x hi
  · have hpage₁ : m₁.InRange t.page := by
      rw [Mem.InRange, hm₁]
      exact hpage
    exact ⟨_, Mem.kfree_of_inRange hpage₁, hm₁⟩

theorem Table.weighWith_eq_zero {α : Type} {sub : α → Nat} {w : Ppn → Nat} {t : Table α} (h : t.weighWith sub w = 0) :
    w t.page = 0 ∧ ∀ i x, t.entry i = some x → sub x = 0 := by
  obtain ⟨hpage, hsum⟩ := Nat.add_eq_zero_iff.1 h
  refine ⟨hpage, fun i x hi => ?_⟩
  have := Finset.sum_eq_zero_iff.1 hsum i (Finset.mem_univ i)
  rwa [hi] at this

namespace PageTable

/-- The page that three indices name. -/
theorem exists_leaf {pt : PageTable} {mid : Mid} {leaves : Leaves} {i j l : Fin 512} (hi : pt.entry i = some mid)
    (hj : mid.entry j = some leaves) : ∃ v < vpnLimit, pt.leaf v = leaves.entry l := by
  have hi' := i.isLt
  have hj' := j.isLt
  have hl' := l.isLt
  refine ⟨(i * 512 + j) * 512 + l, by unfold vpnLimit; omega, ?_⟩
  have h₂ : px 2 (((i * 512 + j) * 512 + l) * pgSize) = i := by
    apply Fin.ext
    simp only [px, pgSize]
    norm_num
    omega
  have h₁ : px 1 (((i * 512 + j) * 512 + l) * pgSize) = j := by
    apply Fin.ext
    simp only [px, pgSize]
    norm_num
    omega
  have h₀ : px 0 (((i * 512 + j) * 512 + l) * pgSize) = l := by
    apply Fin.ext
    simp only [px, pgSize]
    omega
  simp only [leaf, lookup, level0, h₂, h₁, h₀, hi, hj, Option.bind_some]

theorem freewalk_total {m : Mem} {pt : PageTable} (hleaf : ∀ v < vpnLimit, pt.leaf v = none)
    (hrange : pt.weigh m.beyond = 0) : ∃ m', freewalk m pt = .ok m' := by
  obtain ⟨hroot, hmids⟩ := Table.weighWith_eq_zero hrange
  have hroot : m.InRange pt.page := Mem.beyond_eq_zero.1 hroot
  have hkend : ∀ {m₁ : Mem} {f : Ppn}, m₁.kend = m.kend → m.beyond f = 0 → m₁.InRange f := by
    intro m₁ f hm₁ hf
    rw [Mem.InRange, hm₁]
    exact Mem.beyond_eq_zero.1 hf
  obtain ⟨m', hsweep, -⟩ := Table.sweep_total (Table.sweep (Table.sweep fun _ _ => stop "freewalk: leaf"))
    (fun m₁ hm₁ i mid hi => by
      obtain ⟨hpage, hleaves⟩ := Table.weighWith_eq_zero (hmids i mid hi)
      obtain ⟨m₂, hmid, hm₂⟩ := Table.sweep_total (Table.sweep fun _ _ => stop "freewalk: leaf")
        (fun m₂ hm₂ j leaves hj => by
          obtain ⟨hpage, -⟩ := Table.weighWith_eq_zero (hleaves j leaves hj)
          obtain ⟨m₃, hlast, hm₃⟩ := Table.sweep_total (fun _ _ => stop "freewalk: leaf")
            (fun m₃ hm₃ l e hl => by
              obtain ⟨v, hv, hvl⟩ := exists_leaf (l := l) hi hj
              rw [hleaf v hv, hl] at hvl
              cases hvl) (hkend (hm₂.trans hm₁) hpage)
          exact ⟨m₃, hlast, hm₃.trans hm₂⟩) (hkend hm₁ hpage)
      exact ⟨m₂, hmid, hm₂.trans hm₁⟩) hroot
  exact ⟨m', hsweep⟩

end PageTable

end Xv6
