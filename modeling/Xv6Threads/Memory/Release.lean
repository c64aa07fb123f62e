-- SUMMARY: What freeing a table does: the pages of the table, the user pages dropped from it, and when a user page is freed.
import Xv6Threads.Memory.Mapping

/-!
# Releasing a table

`freewalk` gives back the pages a table is stored in and insists that no entry
is left. The user pages are dropped before that: each loses one count, and only
`free_user_page` frees a page, when its count reaches zero. A page whose count
was zero all along is therefore not freed by anybody.
-/

namespace Xv6

variable {m m' : Mem} {w : Ppn → Nat}

/-- Pages of weight `n` came to the free list. -/
structure Mem.Gains (w : Ppn → Nat) (m m' : Mem) (n : Nat) : Prop where
  kend : m'.kend = m.kend
  refcount : m'.refcount = m.refcount
  weigh : m'.weigh w = m.weigh w + n

/-! ## freewalk -/

section Sweep

variable {α : Type} {below : Mem → α → Except Panic Mem} {t : Table α} {sub : α → Nat} {P : α → Prop}

theorem Table.sweep_loop {l : List (Fin 512)}
    (hbelow : ∀ m x m', below m x = .ok m' → m.Gains w m' (sub x) ∧ P x)
    (h : l.foldlM (fun m i => (match t.entry i with
      | none => .ok m
      | some x => below m x : Except Panic Mem)) m = .ok m') :
    m.Gains w m' (l.map fun i => (t.entry i).elim 0 sub).sum ∧
      ∀ i ∈ l, ∀ x, t.entry i = some x → P x := by
  induction l generalizing m with
  | nil =>
    rw [List.foldlM_nil, Except.pure_ok_iff] at h
    subst h
    exact ⟨⟨rfl, rfl, rfl⟩, by simp⟩
  | cons i l ih =>
    rw [List.foldlM_cons] at h
    obtain ⟨m₁, hone, h⟩ := Except.bind_ok_iff.1 h
    obtain ⟨hrest, hP⟩ := ih h
    have hfirst : m.Gains w m₁ ((t.entry i).elim 0 sub) ∧ ∀ x, t.entry i = some x → P x := by
      split at hone
      · rename_i hentry
        cases hone
        exact ⟨⟨rfl, rfl, by simp [hentry]⟩, by simp [hentry]⟩
      · rename_i x hentry
        obtain ⟨hg, hx⟩ := hbelow _ _ _ hone
        exact ⟨by simpa [hentry] using hg, by simpa [hentry] using hx⟩
    refine ⟨⟨hrest.kend.trans hfirst.1.kend, hrest.refcount.trans hfirst.1.refcount, ?_⟩, ?_⟩
    · rw [hrest.weigh, hfirst.1.weigh, List.map_cons, List.sum_cons, Nat.add_assoc]
    · intro j hj x hx
      rcases List.mem_cons.1 hj with rfl | hj
      · exact hfirst.2 x hx
      · exact hP j hj x hx

theorem Table.sweep_ok (hbelow : ∀ m x m', below m x = .ok m' → m.Gains w m' (sub x) ∧ P x)
    (h : t.sweep below m = .ok m') :
    m.Gains w m' (t.weighWith sub w) ∧ ∀ i x, t.entry i = some x → P x := by
  obtain ⟨m₁, hloop, hfree⟩ := Except.bind_ok_iff.1 h
  obtain ⟨hg, hP⟩ := Table.sweep_loop hbelow hloop
  refine ⟨⟨(Mem.kfree_kend hfree).trans hg.kend, (Mem.kfree_refcount hfree).trans hg.refcount, ?_⟩,
    fun i => hP i (List.mem_finRange i)⟩
  rw [Mem.weigh_kfree hfree, hg.weigh, Table.weighWith, Fin.sum_univ_def]
  omega

end Sweep

namespace PageTable

variable {pt pt' : PageTable} {v n lo hi : Nat} {release : Bool}

/-- `freewalk` frees the pages of a table in which no entry is left. -/
theorem freewalk_ok (h : freewalk m pt = .ok m') :
    (∀ w, m.Gains w m' (pt.weigh w)) ∧ ∀ v, pt.leaf v = none := by
  have hleaves : ∀ (w : Ppn → Nat) (m : Mem) (l : Leaves) (m' : Mem),
      Table.sweep (fun _ _ => stop "freewalk: leaf") m l = .ok m' →
      m.Gains w m' (l.weigh w) ∧ ∀ i, l.entry i = none := by
    intro w m l m' h
    have hleaf : ∀ (m : Mem) (e : Pte) (m' : Mem), (stop "freewalk: leaf" : Except Panic Mem) = .ok m' →
        m.Gains w m' ((fun _ => 0 : Pte → Nat) e) ∧ False := fun _ _ _ h => by cases h
    obtain ⟨hg, hnone⟩ := Table.sweep_ok hleaf h
    exact ⟨hg, fun i => Option.eq_none_iff_forall_ne_some.2 fun x hx => hnone i x hx⟩
  have hmid : ∀ (w : Ppn → Nat) (m : Mem) (t : Mid) (m' : Mem),
      Table.sweep (Table.sweep fun _ _ => stop "freewalk: leaf") m t = .ok m' →
      m.Gains w m' (t.weigh w) ∧ ∀ i l, t.entry i = some l → ∀ j, l.entry j = none :=
    fun w m t m' h => Table.sweep_ok (hleaves w) h
  have htop : ∀ w, m.Gains w m' (pt.weigh w) ∧
      ∀ i t, pt.entry i = some t → ∀ j l, t.entry j = some l → ∀ k, l.entry k = none :=
    fun w => Table.sweep_ok (hmid w) h
  refine ⟨fun w => (htop w).1, fun v => ?_⟩
  rw [leaf, lookup, Option.bind_eq_none_iff]
  intro l hl
  obtain ⟨t, ht, hl⟩ := Option.bind_eq_some_iff.1 hl
  exact (htop fun _ => 0).2 _ t ht _ l hl _

/-! ## Dropping user pages -/

/-- How often `f` is freed when `n` references to it are dropped: once, if the
count reaches zero on the way. -/
def freedBy (release : Bool) (count : Int) (n : Nat) : Nat :=
  if release = true ∧ 1 ≤ count ∧ count ≤ n then 1 else 0

theorem freedBy_add (release : Bool) (count : Int) (a b : Nat) (ha : a ≤ 1) :
    freedBy release count a + freedBy release (count - a) b = freedBy release count (a + b) := by
  cases release with
  | false => simp [freedBy]
  | true =>
    simp only [freedBy, true_and]
    rcases Nat.le_one_iff_eq_zero_or_eq_one.1 ha with rfl | rfl <;> split_ifs <;> omega

theorem freedBy_le (release : Bool) (count : Int) (n : Nat) : freedBy release count n ≤ n := by
  unfold freedBy
  split <;> omega

/-- The entries from `lo` up to `hi` were removed, and every page they mapped
lost a count for each of them. -/
structure Drops (release : Bool) (m : Mem) (pt : PageTable) (m' : Mem) (pt' : PageTable)
    (lo hi : Nat) : Prop where
  kend : m'.kend = m.kend
  table : ∀ w, pt'.weigh w = pt.weigh w
  counts : ∀ f, m'.refcount f = m.refcount f - pt.span (Weight.single f) lo hi
  freed : ∀ f, m'.weigh (Weight.single f) = m.weigh (Weight.single f) +
    freedBy release (m.refcount f) (pt.span (Weight.single f) lo hi)
  freed_le : ∀ w, m'.weigh w ≤ m.weigh w + pt.span w lo hi
  outside : AgreeOutside pt pt' lo hi
  inside : ∀ v, lo ≤ v → v < hi → v * pgSize < maxVa ∧ pt'.leaf v = none

theorem dropUserPage_ok (h : dropUserPage release m pt (v * pgSize) = .ok (m', pt')) :
    Drops release m pt m' pt' v (v + 1) := by
  unfold dropUserPage at h
  obtain ⟨r, hwalk, hround⟩ := Except.bind_ok_iff.1 h
  clear h
  obtain ⟨hva, hjoin, -⟩ := walk_ok hwalk
  have hspan : ∀ w, pt.span w v (v + 1) = weighEntry w (pt.leaf v) := by
    intro w
    rw [span_succ (Nat.le_refl _), span_self, Nat.zero_add]
  -- nothing is mapped at `v`
  have hnone : pt.leaf v = none → Drops release m pt m pt v (v + 1) := by
    intro hn
    have hzero : ∀ w, pt.span w v (v + 1) = 0 := fun w => by rw [hspan, hn, weighEntry_none]
    refine ⟨rfl, fun _ => rfl, fun f => by simp [hzero], fun f => ?_, fun w => by simp [hzero],
      .refl _ _ _, fun u hu hu' => ?_⟩
    · rw [hzero, freedBy, if_neg (by omega), Nat.add_zero]
    · obtain rfl : u = v := by omega
      exact ⟨hva, hn⟩
  split at hround
  · cases hround
    exact hnone hjoin.symm
  · cases hround
    exact hnone hjoin.symm
  rename_i pte
  obtain ⟨m₁, hfree, h⟩ := Except.bind_ok_iff.1 hround
  cases h
  have hleaf : pt.leaf v = some pte := hjoin.symm
  obtain ⟨-, hpages, hset⟩ := unmapPage_ok (m := m) hva hleaf
  have hcount : ∀ f, pt.span (Weight.single f) v (v + 1) = Weight.single f pte.ppn := fun f => by
    rw [hspan, hleaf, weighEntry_some]
  have hdec : ∀ f, (m.krefDec pte.ppn).refcount f = m.refcount f - Weight.single f pte.ppn := by
    intro f
    simp only [Mem.krefDec, Weight.single]
    by_cases hf : f = pte.ppn
    · simp [hf]
    · simp [hf, Ne.symm hf]
  have hm₁ : m'.kend = m.kend ∧ m'.refcount = (m.krefDec pte.ppn).refcount ∧
      ∀ w, m'.weigh w = m.weigh w + freedBy release (m.refcount pte.ppn) 1 * w pte.ppn := by
    split at hfree
    · rename_i hd
      have hd' : release = true ∧ m.refcount pte.ppn - 1 = 0 := by
        simpa [Mem.krefDec] using hd
      refine ⟨(Mem.kfree_kend hfree).trans rfl, Mem.kfree_refcount hfree, fun w => ?_⟩
      rw [Mem.weigh_kfree hfree, freedBy, if_pos ⟨hd'.1, by omega, by omega⟩, Mem.weigh_krefDec]
      omega
    · rename_i hd
      have hd' : release = true → ¬ m.refcount pte.ppn - 1 = 0 := by
        simpa [Mem.krefDec] using hd
      cases hfree
      refine ⟨rfl, rfl, fun w => ?_⟩
      rw [freedBy, if_neg (fun hc => hd' hc.1 (by omega)), Nat.zero_mul, Nat.add_zero, Mem.weigh_krefDec]
  refine ⟨hm₁.1, hpages, fun f => ?_, fun f => ?_, fun w => ?_, fun u hu hnot => ?_, fun u hu hu' => ?_⟩
  · rw [hm₁.2.1, hdec, hcount]
  · rw [hm₁.2.2, hcount]
    by_cases hf : pte.ppn = f
    · rw [hf, Weight.single_self, Nat.mul_one]
    · rw [Weight.single_ne hf, Nat.mul_zero]
      simp only [freedBy]
      rw [if_neg (by omega)]
  · rw [hm₁.2.2, hspan, hleaf, weighEntry_some]
    have := Nat.mul_le_mul_right (w pte.ppn) (freedBy_le release (m.refcount pte.ppn) 1)
    omega
  · rw [hset u hu, if_neg (by omega)]
  · obtain rfl : u = v := by omega
    exact ⟨hva, by rw [hset u (lt_vpnLimit_of_lt_maxVa hva), if_pos rfl]⟩

theorem weighEntry_single_le (f : Ppn) (e : Option Pte) : weighEntry (Weight.single f) e ≤ 1 := by
  cases e with
  | none => simp
  | some e =>
    rw [weighEntry_some, Weight.single]
    split <;> omega

theorem dropUserPages_ok (h : dropUserPages (dropUserPage release) n m pt (v * pgSize) = .ok (m', pt')) :
    Drops release m pt m' pt' v (v + n) := by
  induction n generalizing m pt v with
  | zero =>
    cases h
    refine ⟨rfl, fun _ => rfl, fun f => by simp, fun f => ?_, fun w => by simp, .refl _ _ _,
      fun u _ _ => by omega⟩
    rw [Nat.add_zero, span_self, freedBy, if_neg (by omega), Nat.add_zero]
  | succ n ih =>
    rw [dropUserPages] at h
    obtain ⟨⟨m₁, pt₁⟩, hone, h⟩ := Except.bind_ok_iff.1 h
    rw [show v * pgSize + pgSize = (v + 1) * pgSize by ring] at h
    have hfirst := dropUserPage_ok hone
    have hrest := ih h
    have hsplit : ∀ w, pt.span w v (v + (n + 1)) =
        weighEntry w (pt.leaf v) + pt₁.span w (v + 1) (v + 1 + n) := by
      intro w
      rw [span_head (by omega : v < v + (n + 1)), show v + (n + 1) = v + 1 + n by omega]
      refine congrArg _ (span_congr fun u hu hu' => ?_)
      exact (hfirst.outside u (lt_vpnLimit_of_lt_maxVa (hrest.inside u hu hu').1) (by omega)).symm
    have hone : ∀ w, pt.span w v (v + 1) = weighEntry w (pt.leaf v) := by
      intro w
      rw [span_succ (Nat.le_refl _), span_self, Nat.zero_add]
    refine ⟨hrest.kend.trans hfirst.kend, fun w => (hrest.table w).trans (hfirst.table w), fun f => ?_,
      fun f => ?_, fun w => ?_, fun u hu hnot => ?_, fun u hu hu' => ?_⟩
    · rw [hrest.counts, hfirst.counts, hsplit, hone]
      push_cast
      ring
    · rw [hrest.freed, hfirst.freed, hfirst.counts, hsplit, hone,
        ← freedBy_add _ _ _ _ (weighEntry_single_le f (pt.leaf v)), Nat.add_assoc]
    · have := hfirst.freed_le w
      have := hrest.freed_le w
      rw [hone] at *
      rw [hsplit]
      omega
    · rw [hrest.outside u hu (by omega), hfirst.outside u hu (by omega)]
    · by_cases hne : u = v
      · subst hne
        obtain ⟨hva, hn⟩ := hfirst.inside u (Nat.le_refl _) (by omega)
        exact ⟨hva, by rw [hrest.outside u (lt_vpnLimit_of_lt_maxVa hva) (by omega), hn]⟩
      · exact hrest.inside u (by omega) (by omega)

/-- The pages of a table went to the free list, and the user pages it mapped
were dropped. -/
structure Discards (release : Bool) (m : Mem) (pt : PageTable) (m' : Mem) : Prop where
  kend : m'.kend = m.kend
  counts : ∀ f, m'.refcount f = m.refcount f - pt.user (Weight.single f)
  freed : ∀ f, m'.weigh (Weight.single f) = m.weigh (Weight.single f) + pt.weigh (Weight.single f) +
    freedBy release (m.refcount f) (pt.user (Weight.single f))
  freed_le : ∀ w, m'.weigh w ≤ m.weigh w + pt.weigh w + pt.user w

/-- A table without the trapframe and the trampoline: every entry that is left
lies below the size, or freeing it panics. -/
theorem uvmfreeWith_ok {sz : Nat} (h : uvmfreeWith (dropUserPage release) m pt sz = .ok m')
    (hframe : ∀ v, userPages ≤ v → v * pgSize < maxVa → pt.leaf v = none) :
    0 < sz ∧ Discards release m pt m' ∧ ∀ v, pagesBelow sz ≤ v → v < vpnLimit → pt.leaf v = none := by
  unfold uvmfreeWith at h
  split at h
  · cases h
  rename_i hsz
  obtain ⟨⟨m₁, pt₁⟩, hdrop, hfree⟩ := Except.bind_ok_iff.1 h
  rw [show (0 : Nat) = 0 * pgSize by simp] at hdrop
  have hd := dropUserPages_ok hdrop
  rw [Nat.zero_add] at hd
  obtain ⟨hg, hnone⟩ := freewalk_ok hfree
  have habove : ∀ v, pagesBelow sz ≤ v → v < vpnLimit → pt.leaf v = none := by
    intro v hv hlim
    rw [← hd.outside v hlim (by omega)]
    exact hnone v
  -- what was dropped is what the table maps below the trapframe
  have hspan : ∀ w, pt.span w 0 (pagesBelow sz) = pt.user w := by
    intro w
    have hlim := userPages_lt
    rcases Nat.le_total (pagesBelow sz) userPages with hle | hle
    · have hrest : pt.span w (pagesBelow sz) userPages = 0 :=
        span_eq_zero fun v hv hv' => habove v hv (by omega)
      rw [PageTable.user, ← span_add (Nat.zero_le _) hle, hrest, Nat.add_zero]
    · have hrest : pt.span w userPages (pagesBelow sz) = 0 :=
        span_eq_zero fun v hv hv' => hframe v hv (hd.inside v (Nat.zero_le _) hv').1
      rw [PageTable.user, ← span_add (Nat.zero_le _) hle, hrest, Nat.add_zero]
  refine ⟨Nat.pos_of_ne_zero hsz, ⟨(hg fun _ => 0).kend.trans hd.kend, fun f => ?_, fun f => ?_, fun w => ?_⟩,
    habove⟩
  · rw [(hg fun _ => 0).refcount, hd.counts, hspan]
  · rw [(hg _).weigh, hd.freed, hd.table, hspan]
    omega
  · have := hd.freed_le w
    rw [hspan] at this
    rw [(hg w).weigh, hd.table]
    omega

end PageTable

end Xv6
