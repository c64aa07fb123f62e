-- SUMMARY: What sbrk and thread_create do to the tables of a thread group.
import Xv6Threads.Process.Holdings

/-!
# Sharing

The members of a group have tables of their own, and `growproc` and
`thread_create` bring them up to date one by one. `Adopts` says what that does
to one table: some of the entries of a range that were empty are now the given
ones. `Spreads` says it of all slots at once: a set of members adopts, the
other rooms stay, and every page keeps its owner.
-/

namespace Xv6

namespace PageTable

variable {pt pt' pt'' : PageTable} {g : Nat → Option Pte} {lo hi : Nat} {w : Ppn → Nat}

/-- Empty entries of a range may have been filled with those of `g`. -/
def Adopts (g : Nat → Option Pte) (lo hi : Nat) (pt pt' : PageTable) : Prop :=
  ∀ v < vpnLimit, pt'.leaf v = pt.leaf v ∨
    (lo ≤ v ∧ v < hi ∧ pt.leaf v = none ∧ pt'.leaf v = g v)

theorem Adopts.refl (pt : PageTable) : Adopts g lo hi pt pt := fun _ _ => .inl rfl

theorem Adopts.trans (h : Adopts g lo hi pt pt') (h' : Adopts g lo hi pt' pt'') :
    Adopts g lo hi pt pt'' := by
  intro v hv
  rcases h v hv with heq | ⟨hlo, hhi, hnone, hg⟩
  · rw [← heq]
    exact h' v hv
  · rcases h' v hv with heq' | ⟨-, -, hnone', hg'⟩
    · exact .inr ⟨hlo, hhi, hnone, heq'.trans hg⟩
    · exact .inr ⟨hlo, hhi, hnone, hg'⟩

theorem Adopts.mono {lo' hi' : Nat} {g' : Nat → Option Pte} (h : Adopts g lo hi pt pt') (hlo : lo' ≤ lo)
    (hhi : hi ≤ hi') (hg : ∀ v, lo ≤ v → v < hi → g v = g' v) : Adopts g' lo' hi' pt pt' := by
  intro v hv
  rcases h v hv with heq | ⟨hlo', hhi', hnone, heq⟩
  · exact .inl heq
  · exact .inr ⟨by omega, by omega, hnone, heq.trans (hg v hlo' hhi')⟩

theorem Adopts.framed (h : Adopts g lo hi pt pt') (hf : pt.Framed) : pt'.Framed := by
  have hlim : userPages + 1 < vpnLimit := by decide
  have hkeep : ∀ v < vpnLimit, pt.leaf v ≠ none → pt'.leaf v ≠ none := by
    intro v hv hne
    rcases h v hv with heq | ⟨-, -, hnone, -⟩
    · rwa [heq]
    · exact absurd hnone hne
  exact ⟨hkeep _ (by omega) hf.trapframe, hkeep _ hlim hf.trampoline⟩

/-- A range of entries weighs at most what it weighed and what was adopted. -/
theorem Adopts.user_le (h : Adopts g lo hi pt pt') (w : Ppn → Nat) :
    pt'.user w ≤ pt.user w + ∑ v ∈ Finset.Ico lo hi, weighEntry w (g v) := by
  have hlim := userPages_lt
  have hterm : ∀ v ∈ Finset.Ico 0 userPages, weighEntry w (pt'.leaf v) ≤
      weighEntry w (pt.leaf v) + if v ∈ Finset.Ico lo hi then weighEntry w (g v) else 0 := by
    intro v hv
    have hv := (Finset.mem_Ico.1 hv).2
    rcases h v (by omega) with heq | ⟨hlo, hhi, hnone, heq⟩
    · rw [heq]
      omega
    · rw [heq, hnone, weighEntry_none, if_pos (Finset.mem_Ico.2 ⟨hlo, hhi⟩)]
      omega
  have hsum := Finset.sum_le_sum hterm
  rw [Finset.sum_add_distrib] at hsum
  refine hsum.trans (Nat.add_le_add_left ?_ _)
  rw [← Finset.sum_filter]
  refine Finset.sum_le_sum_of_subset fun v hv => ?_
  exact (Finset.mem_filter.1 hv).2

theorem Adopts.le_user (h : Adopts g lo hi pt pt') (w : Ppn → Nat) : pt.user w ≤ pt'.user w := by
  have hlim := userPages_lt
  refine span_le_span fun v _ hv => ?_
  rcases h v (by omega) with heq | ⟨-, -, hnone, -⟩
  · rw [heq]
  · rw [hnone, weighEntry_none]
    exact Nat.zero_le _

end PageTable

/-- The table of a room adopts; nothing else of the room changes. -/
structure Room.Adopts (g : Nat → Option Pte) (lo hi : Nat) (r r' : Room) : Prop where
  frame : r'.frame = r.frame
  size : r'.size = r.size
  table : r'.table = r.table ∨
    ∃ pt pt', r.table = some pt ∧ r'.table = some pt' ∧ PageTable.Adopts g lo hi pt pt'

section

variable {r r' r'' : Room} {g : Nat → Option Pte} {lo hi : Nat}

theorem Room.Adopts.refl (r : Room) : Room.Adopts g lo hi r r := ⟨rfl, rfl, .inl rfl⟩

theorem Room.Adopts.trans (h : Room.Adopts g lo hi r r') (h' : Room.Adopts g lo hi r' r'') :
    Room.Adopts g lo hi r r'' := by
  refine ⟨h'.frame.trans h.frame, h'.size.trans h.size, ?_⟩
  rcases h.table with heq | ⟨pt, pt', hpt, hpt', ha⟩
  · rw [← heq]
    exact h'.table
  · rcases h'.table with heq' | ⟨pt₁, pt₂, hpt₁, hpt₂, ha'⟩
    · exact .inr ⟨pt, pt', hpt, heq'.trans hpt', ha⟩
    · obtain rfl : pt' = pt₁ := Option.some.inj (hpt'.symm.trans hpt₁)
      exact .inr ⟨pt, pt₂, hpt, hpt₂, ha.trans ha'⟩

theorem Room.Adopts.mono {lo' hi' : Nat} {g' : Nat → Option Pte} (h : Room.Adopts g lo hi r r')
    (hlo : lo' ≤ lo) (hhi : hi ≤ hi') (hg : ∀ v, lo ≤ v → v < hi → g v = g' v) :
    Room.Adopts g' lo' hi' r r' := by
  refine ⟨h.frame, h.size, h.table.imp_right ?_⟩
  rintro ⟨pt, pt', hpt, hpt', ha⟩
  exact ⟨pt, pt', hpt, hpt', ha.mono hlo hhi hg⟩

end

/-- The stack page `stack` was mapped at virtual page `v` of a room, unless the
table had no place for the entry and got none. -/
structure Room.Stacked (v : Nat) (stack : Ppn) (r r' : Room) : Prop where
  frame : r'.frame = r.frame
  size : r'.size = (v + 1) * pgSize
  limit : v * pgSize < maxVa
  table : ∃ pt pt', r.table = some pt ∧ r'.table = some pt' ∧
    PageTable.Adopts (fun _ => some ⟨stack, permUser⟩) v (v + 1) pt pt' ∧
    ((pt.leaf v = none ∧ pt'.leaf v = some ⟨stack, permUser⟩) ∨
      (pt'.leaf v = pt.leaf v ∧ ¬ pt.Covers (v * pgSize)))

namespace Kernel

open PageTable

variable {k k' k'' : Kernel} {p q L : Slot} {g : Nat → Option Pte} {lo hi v : Nat} {S : Slot → Prop}

/-- The slots in `S` adopt, the others stay; no page changes its owner. -/
structure Spreads (g : Nat → Option Pte) (lo hi : Nat) (S : Slot → Prop) (k k' : Kernel) : Prop where
  entries : k'.entries = k.entries
  kend : k'.mem.kend = k.mem.kend
  refcount : k'.mem.refcount = k.mem.refcount
  pipes : k'.pipes = k.pipes
  owned : ∀ w, k'.owned w = k.owned w
  inside : ∀ q, S q → Room.Adopts g lo hi (k.rooms q) (k'.rooms q)
  outside : ∀ q, ¬ S q → k'.rooms q = k.rooms q

theorem Spreads.refl (k : Kernel) : Spreads g lo hi S k k :=
  ⟨rfl, rfl, rfl, rfl, fun _ => rfl, fun _ _ => .refl _, fun _ _ => rfl⟩

theorem Spreads.trans (h : Spreads g lo hi S k k') (h' : Spreads g lo hi S k' k'') :
    Spreads g lo hi S k k'' :=
  ⟨h'.entries.trans h.entries, h'.kend.trans h.kend, h'.refcount.trans h.refcount, h'.pipes.trans h.pipes,
    fun w => (h'.owned w).trans (h.owned w), fun q hq => (h.inside q hq).trans (h'.inside q hq),
    fun q hq => (h'.outside q hq).trans (h.outside q hq)⟩

theorem Spreads.mono {lo' hi' : Nat} {g' : Nat → Option Pte} {S' : Slot → Prop} (h : Spreads g lo hi S k k')
    (hlo : lo' ≤ lo) (hhi : hi ≤ hi') (hg : ∀ v, lo ≤ v → v < hi → g v = g' v)
    (hS : ∀ q, S q → S' q) : Spreads g' lo' hi' S' k k' := by
  refine ⟨h.entries, h.kend, h.refcount, h.pipes, h.owned, fun q hq => ?_, fun q hq => h.outside q fun hs => hq (hS q hs)⟩
  by_cases hs : S q
  · exact (h.inside q hs).mono hlo hhi hg
  · rw [h.outside q hs]
    exact .refl _

theorem Spreads.size (h : Spreads g lo hi S k k') (q : Slot) : (k'.rooms q).size = (k.rooms q).size := by
  by_cases hs : S q
  · exact (h.inside q hs).size
  · rw [h.outside q hs]

/-- One page mapped into one member. -/
theorem mapInto_ok {pa : Ppn} {perm : Perm} {b : Bool}
    (h : k.mapInto q (v * pgSize) pa perm = .ok (b, k')) :
    Spreads (fun _ => some ⟨pa, perm⟩) v (v + 1) (· = q) k k' ∧ v * pgSize < maxVa ∧
      ∃ pt pt', (k.rooms q).table = some pt ∧ (k'.rooms q).table = some pt' ∧
        ((b = true ∧ pt.leaf v = none ∧ pt'.leaf v = some ⟨pa, perm⟩) ∨
          (b = false ∧ k'.mem.freelist = [] ∧ pt'.leaf v = pt.leaf v ∧ ¬ pt.Covers (v * pgSize))) := by
  have hentries := (mapInto_remaps h).entries
  unfold mapInto at h
  split at h
  · cases h
  rename_i pt hpt
  obtain ⟨⟨b', m, pt'⟩, hmap, h⟩ := Except.bind_ok_iff.1 h
  obtain ⟨rfl, hk'⟩ := Prod.mk.inj (Except.ok.inj h)
  obtain ⟨hva, hkeep, hpages, hout, hres⟩ := mappages_page hmap
  have hrooms : k'.rooms = Function.update k.rooms q { k.rooms q with table := some pt' } := by
    rw [← hk', setTable, rooms_modify]
    rfl
  have hmem : k'.mem = m := by rw [← hk']; rfl
  have hpipes : k'.pipes = k.pipes := by rw [← hk']; rfl
  have htable : (k.rooms q).table = some pt := hpt
  refine ⟨⟨hentries, by rw [hmem, hkeep.kend], by rw [hmem, hkeep.refcount], hpipes, fun w => ?_, ?_, fun x hx => ?_⟩, hva,
    pt, pt', htable, by rw [hrooms, Function.update_self], ?_⟩
  · have h₁ := owned_update hrooms w
    have h₂ := hpages w
    have hheld : Room.held w { k.rooms q with table := some pt' } =
        Weight.ofOption w (k.rooms q).frame + pt'.weigh w := Room.held_of_table rfl
    rw [hheld, Room.held_of_table htable, hmem, pipeWeight, pipeWeight, hpipes] at h₁
    omega
  · rintro x rfl
    rw [hrooms, Function.update_self]
    refine ⟨rfl, rfl, .inr ⟨pt, pt', htable, rfl, fun u hu => ?_⟩⟩
    by_cases hne : u = v
    · subst hne
      rcases hres with ⟨-, hnone, hsome⟩ | ⟨-, -, hsame, -⟩
      · exact .inr ⟨Nat.le_refl _, by omega, hnone, hsome⟩
      · exact .inl hsame
    · exact .inl (hout u hu (by omega))
  · rw [hrooms, Function.update_of_ne hx]
  · rwa [hmem]

/-! ## sbrk: growing -/

/-- A member of the group other than the caller. -/
def Other (p : Slot) (l : List Slot) (x : Slot) : Prop := x ∈ l ∧ x ≠ p

theorem mapOther_ok {pa : Ppn} {b : Bool} (h : k.mapOther p q (v * pgSize) pa = .ok (b, k')) :
    Spreads (fun _ => some ⟨pa, permUser⟩) v (v + 1) (Other p [q]) k k' ∧
      (b = true → q ≠ p → ∃ pt', (k'.rooms q).table = some pt' ∧ pt'.leaf v = some ⟨pa, permUser⟩) := by
  unfold mapOther at h
  split at h
  · rename_i hqp
    obtain ⟨hs, -, pt, pt', -, hpt', hres⟩ := mapInto_ok h
    refine ⟨hs.mono (Nat.le_refl _) (Nat.le_refl _) (fun _ _ _ => rfl) ?_, fun hb _ => ⟨pt', hpt', ?_⟩⟩
    · rintro x rfl
      exact ⟨by simp, hqp⟩
    · rcases hres with ⟨-, -, hsome⟩ | ⟨hf, -⟩
      · exact hsome
      · rw [hb] at hf
        cases hf
  · rename_i hqp
    cases h
    exact ⟨.refl k, fun _ hne => absurd hne hqp⟩

section

variable {next : Slot → Option Slot} {l : List Slot}

theorem Spreads.groupNext (h : Spreads g lo hi S k k') (hnext : ∀ x, (k.proc x).groupNext = next x)
    (x : Slot) : (k'.proc x).groupNext = next x :=
  (congrArg Entry.groupNext (congrFun h.entries x)).trans (hnext x)

/-- The inner loop of the growing half: one page for every member but the
caller, or for the members up to the first that has no room. -/
theorem growMembers_ok {pa : Ppn} {n : Nat} {b : Bool} (hfollow : Follows next (next q) l L)
    (hnodup : (q :: l).Nodup) (hL : L ∉ l) (hnext : ∀ x, (k.proc x).groupNext = next x)
    (h : growMembers p L (v * pgSize) pa n q k = .ok (b, k')) :
    Spreads (fun _ => some ⟨pa, permUser⟩) v (v + 1) (Other p (q :: l)) k k' ∧
      (b = true → ∀ x, Other p (q :: l) x → ∃ pt', (k'.rooms x).table = some pt' ∧
        pt'.leaf v = some ⟨pa, permUser⟩) := by
  induction l generalizing k q n with
  | nil =>
    cases n with
    | zero => cases h
    | succ n =>
      rw [growMembers] at h
      obtain ⟨⟨b', k₁⟩, hmap, h⟩ := Except.bind_ok_iff.1 h
      obtain ⟨hs, hone⟩ := mapOther_ok hmap
      have hback : (k₁.proc q).groupNext = some L := (hs.groupNext hnext q).trans hfollow
      dsimp only at h
      split at h
      · cases h
        exact ⟨hs, fun hb => by cases hb⟩
      · rename_i hb'
        rw [hback] at h
        dsimp only at h
        rw [if_pos rfl] at h
        cases h
        refine ⟨hs, fun _ x hx => ?_⟩
        obtain rfl : x = q := by simpa using hx.1
        exact hone (by simpa using hb') hx.2
  | cons y l ih =>
    cases n with
    | zero => cases h
    | succ n =>
      rw [growMembers] at h
      obtain ⟨⟨b', k₁⟩, hmap, h⟩ := Except.bind_ok_iff.1 h
      obtain ⟨hs, hone⟩ := mapOther_ok hmap
      have hs' : Spreads (fun _ => some ⟨pa, permUser⟩) v (v + 1) (Other p (q :: y :: l)) k k₁ := by
        refine hs.mono (Nat.le_refl _) (Nat.le_refl _) (fun _ _ _ => rfl) fun x hx => ⟨?_, hx.2⟩
        have : x = q := by simpa using hx.1
        simp [this]
      have hy : (k₁.proc q).groupNext = some y := (hs.groupNext hnext q).trans hfollow.1
      dsimp only at h
      split at h
      · cases h
        exact ⟨hs', fun hb => by cases hb⟩
      · rename_i hb'
        rw [hy] at h
        dsimp only at h
        have hyL : y ≠ L := fun heq => hL (by simp [heq])
        rw [if_neg hyL] at h
        have hq : q ∉ y :: l := (List.nodup_cons.1 hnodup).1
        obtain ⟨hrest, hall⟩ := ih hfollow.2 (List.nodup_cons.1 hnodup).2
          (fun hmem => hL (List.mem_cons_of_mem _ hmem)) (hs.groupNext hnext) h
        refine ⟨hs'.trans (hrest.mono (Nat.le_refl _) (Nat.le_refl _) (fun _ _ _ => rfl)
          fun x hx => ⟨List.mem_cons_of_mem _ hx.1, hx.2⟩), fun hb x hx => ?_⟩
        rcases List.mem_cons.1 hx.1 with rfl | hmem
        · -- the rest of the loop does not come back to `q`
          obtain ⟨pt', hpt', hleaf⟩ := hone (by simpa using hb') hx.2
          exact ⟨pt', by rw [hrest.outside x fun hout => hq hout.1, hpt'], hleaf⟩
        · exact hall hb x ⟨hmem, hx.2⟩

/-- The outer loop of the growing half, when the pages of the caller in the
range are mapped for reading and writing. -/
theorem growGroup_ok {pt : PageTable} {n : Nat} {b : Bool} (hfollow : Follows next (next L) l L)
    (hnodup : (L :: l).Nodup) (hnext : ∀ x, (k.proc x).groupNext = next x)
    (hpt : (k.rooms p).table = some pt)
    (hleaf : ∀ u, v ≤ u → u < v + n → ∃ f, pt.leaf u = some ⟨f, permUser⟩) (hlim : v + n ≤ userPages)
    (h : growGroup p L n (v * pgSize) k = .ok (b, k')) :
    Spreads pt.leaf v (v + n) (Other p (L :: l)) k k' ∧
      (b = true → ∀ x, Other p (L :: l) x → ∀ u, v ≤ u → u < v + n →
        ∃ pt', (k'.rooms x).table = some pt' ∧ pt'.leaf u = pt.leaf u) := by
  induction n generalizing k v with
  | zero =>
    cases h
    exact ⟨.refl _, fun _ x _ u hu hu' => by omega⟩
  | succ n ih =>
    obtain ⟨f, hf⟩ := hleaf v (Nat.le_refl _) (by omega)
    rw [growGroup, show (k.proc p).pagetable = some pt from hpt] at h
    obtain ⟨pa, hpa, h⟩ := Except.bind_ok_iff.1 h
    obtain ⟨⟨b', k₁⟩, hgrow, h⟩ := Except.bind_ok_iff.1 h
    -- the page found is the one mapped at `v`
    have hpa' : pa = f := by
      unfold pteAddr at hpa
      obtain ⟨r, hwalk, hpa⟩ := Except.bind_ok_iff.1 hpa
      obtain ⟨-, hjoin, -⟩ := walk_ok hwalk
      have hjoin' : r.join = some ⟨f, permUser⟩ := hjoin.trans hf
      split at hpa
      · cases hpa
      · rename_i e
        obtain rfl : e = some ⟨f, permUser⟩ := hjoin'
        cases hpa
        rfl
    subst hpa'
    have hL : L ∉ l := (List.nodup_cons.1 hnodup).1
    obtain ⟨hs, hall⟩ := growMembers_ok hfollow hnodup hL hnext hgrow
    have hs' : Spreads pt.leaf v (v + (n + 1)) (Other p (L :: l)) k k₁ := by
      refine hs.mono (Nat.le_refl _) (by omega) (fun u hu hu' => ?_) fun _ hx => hx
      obtain rfl : u = v := by omega
      exact hf.symm
    dsimp only at h
    split at h
    · cases h
      exact ⟨hs', fun hb => by cases hb⟩
    · rename_i hb'
      rw [show v * pgSize + pgSize = (v + 1) * pgSize by ring] at h
      have hpt₁ : (k₁.rooms p).table = some pt := by rw [hs.outside p fun hx => hx.2 rfl, hpt]
      obtain ⟨hrest, hrestall⟩ := ih (v := v + 1) (hs.groupNext hnext) hpt₁
        (fun u hu hu' => hleaf u (by omega) (by omega)) (by omega) h
      refine ⟨hs'.trans (hrest.mono (by omega) (by omega) (fun _ _ _ => rfl) fun _ hx => hx), ?_⟩
      intro hb x hx u hu hu'
      by_cases hne : u = v
      · subst hne
        obtain ⟨pt₁, hx₁, hleaf₁⟩ := hall (by simpa using hb') x hx
        have hva : u < vpnLimit := by
          have := userPages_lt
          omega
        rcases (hrest.inside x hx).table with heq | ⟨pt₂, pt₃, h₂, h₃, ha⟩
        · exact ⟨pt₁, heq.trans hx₁, hleaf₁.trans hf.symm⟩
        · obtain rfl : pt₁ = pt₂ := Option.some.inj (hx₁.symm.trans h₂)
          refine ⟨pt₃, h₃, ?_⟩
          rcases ha u hva with heq | ⟨hge, -, -, -⟩
          · rw [heq, hleaf₁, hf]
          · omega
      · exact hrestall hb x hx u (by omega) (by omega)

/-- A loop over a ring runs its body once for every member, in order. -/
theorem ringLoop_foldlM {body : Kernel → Slot → Except Panic Kernel} {n : Nat}
    (hbody : ∀ k q k', (∀ x, (k.proc x).groupNext = next x) → body k q = .ok k' →
      ∀ x, (k'.proc x).groupNext = next x)
    (hfollow : Follows next (next q) l L) (hL : L ∉ l) (hnext : ∀ x, (k.proc x).groupNext = next x)
    (h : ringLoop L body n q k = .ok k') : (q :: l).foldlM body k = .ok k' := by
  induction l generalizing k q n with
  | nil =>
    cases n with
    | zero => cases h
    | succ n =>
      rw [ringLoop] at h
      obtain ⟨k₁, hk₁, h⟩ := Except.bind_ok_iff.1 h
      rw [(hbody k q k₁ hnext hk₁ q).trans hfollow] at h
      dsimp only at h
      rw [if_pos rfl] at h
      cases h
      rw [List.foldlM_cons, Except.bind_ok_iff]
      exact ⟨k', hk₁, rfl⟩
  | cons y l ih =>
    cases n with
    | zero => cases h
    | succ n =>
      rw [ringLoop] at h
      obtain ⟨k₁, hk₁, h⟩ := Except.bind_ok_iff.1 h
      rw [(hbody k q k₁ hnext hk₁ q).trans hfollow.1] at h
      dsimp only at h
      have hyL : y ≠ L := fun heq => hL (by simp [heq])
      rw [if_neg hyL] at h
      rw [List.foldlM_cons, Except.bind_ok_iff]
      exact ⟨k₁, hk₁, ih hfollow.2 (fun hmem => hL (List.mem_cons_of_mem _ hmem))
        (hbody k q k₁ hnext hk₁) h⟩

/-- The other way round: the loop ends. -/
theorem ringLoop_of_foldlM {body : Kernel → Slot → Except Panic Kernel} {n : Nat}
    (hbody : ∀ k q k', (∀ x, (k.proc x).groupNext = next x) → body k q = .ok k' →
      ∀ x, (k'.proc x).groupNext = next x)
    (hfollow : Follows next (next q) l L) (hL : L ∉ l) (hnext : ∀ x, (k.proc x).groupNext = next x)
    (hn : l.length < n) (h : (q :: l).foldlM body k = .ok k') : ringLoop L body n q k = .ok k' := by
  induction l generalizing k q n with
  | nil =>
    obtain ⟨n, rfl⟩ : ∃ i, n = i + 1 := ⟨n - 1, by simp at hn; omega⟩
    rw [List.foldlM_cons, Except.bind_ok_iff] at h
    obtain ⟨k₁, hk₁, h⟩ := h
    rw [List.foldlM_nil, Except.pure_ok_iff] at h
    subst h
    rw [ringLoop, Except.bind_ok_iff]
    refine ⟨k₁, hk₁, ?_⟩
    rw [(hbody k q k₁ hnext hk₁ q).trans hfollow]
    exact if_pos rfl
  | cons y l ih =>
    obtain ⟨n, rfl⟩ : ∃ i, n = i + 1 := ⟨n - 1, by simp at hn; omega⟩
    rw [List.foldlM_cons, Except.bind_ok_iff] at h
    obtain ⟨k₁, hk₁, h⟩ := h
    rw [ringLoop, Except.bind_ok_iff]
    refine ⟨k₁, hk₁, ?_⟩
    rw [(hbody k q k₁ hnext hk₁ q).trans hfollow.1]
    have hyL : y ≠ L := fun heq => hL (by simp [heq])
    refine (if_neg hyL).trans ?_
    exact ih hfollow.2 (fun hmem => hL (List.mem_cons_of_mem _ hmem)) (hbody k q k₁ hnext hk₁)
      (by simpa using hn) h

end

/-! ## Teams -/

/-- The slots that share the memory of `p`: its group, or `p` alone. -/
inductive Team (k : Kernel) (p : Slot) : List Slot → Prop
  | single : (k.proc p).groupLeader = none → Team k p [p]
  | group {L : Slot} {ms : List Slot} : (k.proc p).groupLeader = some L → k.entries.Group L ms →
      Team k p (L :: ms)

variable {l : List Slot}

theorem exists_team (hE : k.entries.WellGrouped) (hp : (k.proc p).state.phase = .active) :
    ∃ l, k.Team p l := by
  cases hL : (k.proc p).groupLeader with
  | none => exact ⟨[p], .single hL⟩
  | some L =>
    have hen : (k.entries p).Enrolled := by
      have : (k.entries p).phase = .active := hp
      simp [Entry.Enrolled, this]
    obtain ⟨ms, hg⟩ := hE.group p L hL hen
    exact ⟨L :: ms, .group hL hg⟩

theorem Team.leaderOf_eq (h : k.Team p l) (hq : q ∈ l) : k.leaderOf q = k.leaderOf p := by
  cases h with
  | single hp =>
    obtain rfl : q = p := by simpa using hq
    rfl
  | group hp hg =>
    have hL : (k.proc q).groupLeader = _ := ((hg.mem_iff q).1 hq).1
    rw [leaderOf, leaderOf, hp, hL]
    rfl

/-- A slot that is not in use leads nobody. -/
theorem leaderOf_ne_unused {np : Slot} (hE : k.entries.WellGrouped) (hq : (k.entries q).Enrolled)
    (hnp : (k.entries np).phase = .unused) : k.leaderOf q ≠ np := by
  intro heq
  cases hL : (k.proc q).groupLeader with
  | none =>
    rw [leaderOf, hL, Option.getD_none] at heq
    subst heq
    exact hq.1 hnp
  | some L =>
    rw [leaderOf, hL, Option.getD_some] at heq
    subst heq
    obtain ⟨ms, hg⟩ := hE.group q L hL hq
    exact hg.leader.2.1 hnp

/-- Everybody in use with the same leader is in the team. -/
theorem Team.mem_of_leader (h : k.Team p l) (hE : k.entries.WellGrouped) (hq : (k.entries q).Enrolled)
    (hL : k.leaderOf q = k.leaderOf p) : q ∈ l := by
  cases hLq : (k.proc q).groupLeader with
  | none =>
    rw [leaderOf, hLq, Option.getD_none] at hL
    cases h with
    | single hnone =>
      rw [leaderOf, hnone, Option.getD_none] at hL
      simp [hL]
    | group hLp hg =>
      rw [leaderOf, hLp, Option.getD_some] at hL
      simp [hL]
  | some L =>
    rw [leaderOf, hLq, Option.getD_some] at hL
    obtain ⟨ms', hg'⟩ := hE.group q L hLq hq
    cases h with
    | single hnone =>
      rw [leaderOf, hnone, Option.getD_none] at hL
      subst hL
      have hself : (k.proc L).groupLeader = some L := hg'.leader.1
      rw [hnone] at hself
      cases hself
    | @group L' ms hLp hg =>
      rw [leaderOf, hLp, Option.getD_some] at hL
      subst hL
      exact (hg.mem_iff q).2 ⟨hLq, hq⟩

theorem Team.mem (h : k.Team p l) (hp : (k.proc p).state.phase = .active) : p ∈ l := by
  cases h with
  | single => simp
  | group hL hg =>
    refine (hg.mem_iff p).2 ⟨hL, ?_⟩
    have : (k.entries p).phase = .active := hp
    simp [Entry.Enrolled, this]

theorem Team.phase_ne_unused (h : k.Team p l) (hp : (k.proc p).state.phase = .active) (hq : q ∈ l) :
    (k.entries q).phase ≠ .unused := by
  cases h with
  | single =>
    obtain rfl : q = p := by simpa using hq
    have : (k.entries q).phase = .active := hp
    simp [this]
  | group _ hg => exact ((hg.mem_iff q).1 hq).2.1

theorem Team.congr (h : k.Team p l) (he : k'.entries = k.entries) : k'.Team p l := by
  have hL : (k'.proc p).groupLeader = (k.proc p).groupLeader :=
    congrArg Entry.groupLeader (congrFun he p)
  cases h with
  | single hp => exact .single (hL.trans hp)
  | group hp hg => exact .group (hL.trans hp) (he ▸ hg)

/-- `p` is in no group, or in one that has no other member. -/
def Alone (k : Kernel) (p : Slot) : Prop :=
  (k.proc p).groupLeader = none ∨ (k.proc p).groupLeader = some p ∧ (k.proc p).groupNext = some p

instance (k : Kernel) (p : Slot) : Decidable (k.Alone p) := inferInstanceAs (Decidable (_ ∨ _))

theorem Team.eq_of_alone (h : k.Team p l) (ha : k.Alone p) : l = [p] := by
  cases h with
  | single => rfl
  | group hp hg =>
    rcases ha with hn | ⟨hL, hnext⟩
    · rw [hp] at hn
      cases hn
    · obtain rfl := Option.some.inj (hp.symm.trans hL)
      have hnil : Follows (fun q => (k.entries q).groupNext) (k.entries _).groupNext [] _ := hnext
      rw [hg.ring.follows.unique hnil hg.ring.head_notMem (by simp)]

/-- The end of `growproc`: every member is given the new size. -/
theorem setSize_rooms {sz : Nat} (ht : k.Team p l) (h : k.setSize p sz = .ok k') :
    (∀ q, k'.rooms q = if q ∈ l then { k.rooms q with size := sz } else k.rooms q) ∧
      k'.mem = k.mem ∧ k'.pipes = k.pipes := by
  -- a loop that stores the size into the slots of a list
  have hloop : ∀ {l : List Slot} {k k' : Kernel},
      l.foldlM (fun (k : Kernel) q => (.ok (k.modify q fun pr => { pr with sz := sz }) : Except Panic Kernel)) k
        = .ok k' →
      (∀ q, k'.rooms q = if q ∈ l then { k.rooms q with size := sz } else k.rooms q) ∧
        k'.mem = k.mem ∧ k'.pipes = k.pipes := by
    intro l
    induction l with
    | nil =>
      intro k k' h
      rw [List.foldlM_nil, Except.pure_ok_iff] at h
      subst h
      exact ⟨fun q => by simp, rfl, rfl⟩
    | cons x l ih =>
      intro k k' h
      rw [List.foldlM_cons, Except.bind_ok_iff] at h
      obtain ⟨k₁, hk₁, h⟩ := h
      cases hk₁
      obtain ⟨hrooms, hmem, hpipes⟩ := ih h
      refine ⟨fun q => ?_, hmem, hpipes⟩
      rw [hrooms q, rooms_modify]
      by_cases hq : q = x
      · subst hq
        simp [rooms, Proc.room]
      · simp [hq]
  cases ht with
  | single hp =>
    unfold setSize at h
    rw [hp] at h
    refine hloop ?_
    rw [List.foldlM_cons, Except.bind_ok_iff]
    exact ⟨k', h, rfl⟩
  | group hp hg =>
    unfold setSize at h
    rw [hp] at h
    refine hloop (ringLoop_foldlM ?_ hg.ring.follows hg.ring.head_notMem (fun _ => rfl) h)
    intro k q k' hnext hbody x
    cases hbody
    rw [modify_proc]
    split <;> exact hnext x

theorem setSize_total (ht : k.Team p l) (sz : Nat) : ∃ k', k.setSize p sz = .ok k' := by
  have hfold : ∀ (l : List Slot) (k : Kernel), ∃ k',
      l.foldlM (fun (k : Kernel) q => (.ok (k.modify q fun pr => { pr with sz := sz }) : Except Panic Kernel)) k
        = .ok k' := by
    intro l
    induction l with
    | nil => exact fun k => ⟨k, rfl⟩
    | cons x l ih =>
      intro k
      obtain ⟨k', hk'⟩ := ih (k.modify x fun pr => { pr with sz := sz })
      exact ⟨k', by rw [List.foldlM_cons]; exact hk'⟩
  unfold setSize
  cases ht with
  | single hp =>
    rw [hp]
    exact ⟨_, rfl⟩
  | @group L ms hp hg =>
    rw [hp]
    obtain ⟨k', hk'⟩ := hfold (L :: ms) k
    refine ⟨k', ringLoop_of_foldlM ?_ hg.ring.follows hg.ring.head_notMem (fun _ => rfl) ?_ hk'⟩
    · intro k q k' hnext hbody x
      cases hbody
      rw [modify_proc]
      split <;> exact hnext x
    · simpa using hg.ring.length_lt

/-- A ring of one maps nothing for others. -/
theorem growGroup_alone {n va : Nat} {b : Bool} (hnext : (k.proc p).groupNext = some p)
    (h : growGroup p p n va k = .ok (b, k')) : k' = k := by
  induction n generalizing va with
  | zero =>
    cases h
    rfl
  | succ n ih =>
    rw [growGroup] at h
    split at h
    · cases h
    obtain ⟨pa, -, hround⟩ := Except.bind_ok_iff.1 h
    obtain ⟨⟨b', k₁⟩, hgrow, hrest⟩ := Except.bind_ok_iff.1 hround
    clear h hround
    have hk₁ : b' = true ∧ k₁ = k := by
      rw [show nproc = 63 + 1 from rfl, growMembers] at hgrow
      obtain ⟨⟨b'', k₂⟩, hmap, hgrow⟩ := Except.bind_ok_iff.1 hgrow
      rw [mapOther, if_neg (by simp)] at hmap
      cases hmap
      dsimp only at hgrow
      rw [hnext] at hgrow
      simpa [eq_comm] using hgrow
    obtain ⟨rfl, rfl⟩ := hk₁
    exact ih hrest

/-- The group part of the growing half. With a size that is not page aligned it
maps two pages for one, so that is allowed only when there is nobody to map
them for. -/
theorem growOthers_ok {pt : PageTable} {sz : Nat} {b : Bool} (ht : k.Team p l)
    (hpt : (k.rooms p).table = some pt) (hlo : lo = pagesBelow (k.proc p).sz)
    (hhi : hi = max lo (pagesBelow sz)) (hlim : hi ≤ userPages)
    (hleaf : ∀ u, lo ≤ u → u < hi → ∃ f, pt.leaf u = some ⟨f, permUser⟩)
    (haligned : (k.proc p).sz % pgSize = 0 ∨ k.Alone p)
    (h : k.growOthers p (k.proc p).sz sz = .ok (b, k')) :
    Spreads pt.leaf lo hi (Other p l) k k' ∧
      (b = true → ∀ x, Other p l x → ∀ u, lo ≤ u → u < hi →
        ∃ pt', (k'.rooms x).table = some pt' ∧ pt'.leaf u = pt.leaf u) := by
  have halone : l = [p] → k' = k → Spreads pt.leaf lo hi (Other p l) k k' ∧
      (b = true → ∀ x, Other p l x → ∀ u, lo ≤ u → u < hi →
        ∃ pt', (k'.rooms x).table = some pt' ∧ pt'.leaf u = pt.leaf u) := by
    rintro rfl rfl
    exact ⟨.refl _, fun _ x hx => absurd (by simpa using hx.1) hx.2⟩
  unfold growOthers at h
  cases ht with
  | single hp =>
    rw [hp] at h
    cases h
    exact halone rfl rfl
  | @group L ms hp hg =>
    rw [hp] at h
    by_cases ha : k.Alone p
    · -- the ring is `p` itself, and the loop maps nothing
      have hone := (Team.group hp hg).eq_of_alone ha
      obtain ⟨rfl, rfl⟩ : L = p ∧ ms = [] := by simpa using hone
      refine halone rfl ?_
      have hnext : (k.proc L).groupNext = some L := hg.ring.follows
      exact growGroup_alone hnext h
    · have hsz : (k.proc p).sz = lo * pgSize := by
        have := haligned.resolve_right ha
        rw [hlo]
        simp only [pagesBelow, pgSize] at *
        omega
      have hn : lo + pagesBelow (sz - lo * pgSize) = hi := by
        rw [hhi]
        simp only [pagesBelow, pgSize]
        omega
      rw [hsz] at h
      obtain ⟨hs, hall⟩ := growGroup_ok hg.ring.follows hg.ring.nodup (fun _ => rfl) hpt
        (fun u hu hu' => hleaf u hu (hn ▸ hu')) (hn ▸ hlim) h
      rw [hn] at hs hall
      exact ⟨hs, hall⟩

/-- `growproc` by `p` has mapped fresh pages from `lo` up to `hi`; the other
members have adopted some of them, and all of them if the size was changed. -/
structure Grows (k : Kernel) (p : Slot) (l : List Slot) (k' : Kernel) (pt pt' : PageTable)
    (lo hi : Nat) : Prop where
  table : (k.rooms p).table = some pt
  table' : (k'.rooms p).table = some pt'
  kend : k'.mem.kend = k.mem.kend
  refcount : k'.mem.refcount = k.mem.refcount
  owned : ∀ w, k'.owned w + pt'.span w lo hi = k.owned w
  start : lo = pagesBelow (k.rooms p).size
  le : lo ≤ hi
  limit : hi ≤ userPages
  outside : AgreeOutside pt pt' lo hi
  inside : ∀ v, lo ≤ v → v < hi → pt.leaf v = none ∧ ∃ f, pt'.leaf v = some ⟨f, permUser⟩
  frame : ∀ q, (k'.rooms q).frame = (k.rooms q).frame
  member : ∀ q, Other p l q → (k'.rooms q).table = (k.rooms q).table ∨
    ∃ ptq ptq', (k.rooms q).table = some ptq ∧ (k'.rooms q).table = some ptq' ∧
      Adopts pt'.leaf lo hi ptq ptq'
  other : ∀ q, q ∉ l → k'.rooms q = k.rooms q
  size : (∀ q, (k'.rooms q).size = (k.rooms q).size) ∨
    ∃ sz, pagesBelow sz = hi ∧ (lo < hi ∨ l = [p]) ∧ (∀ q ∈ l, (k'.rooms q).size = sz) ∧
      ∀ q, Other p l q → ∀ v, lo ≤ v → v < hi →
        ∃ ptq, (k'.rooms q).table = some ptq ∧ ptq.leaf v = pt'.leaf v

/-- The caller has its pages; nothing else has changed. -/
theorem grows_of_maps {pt pt' : PageTable} {m : Mem} (hpl : p ∈ l) (hpt : (k.rooms p).table = some pt)
    (hlo : lo = pagesBelow (k.rooms p).size) (hle : lo ≤ hi) (hlim : hi ≤ userPages)
    (hmaps : Maps (fun _ => permUser) k.mem pt m pt' lo hi) :
    k.Grows p l ({ k with mem := m }.setTable p pt') pt pt' lo hi := by
  have hrooms : ({ k with mem := m }.setTable p pt').rooms =
      Function.update k.rooms p { k.rooms p with table := some pt' } := by
    rw [setTable, rooms_modify]
    rfl
  refine ⟨hpt, ?_, hmaps.keeps.kend, hmaps.keeps.refcount, fun w => ?_, hlo, hle, hlim, hmaps.outside,
    fun v hv hv' => (hmaps.inside v hv hv').2, fun q => ?_, fun q hq => .inl ?_, fun q hq => ?_, .inl fun q => ?_⟩
  · rw [hrooms, Function.update_self]
  · have h₁ := owned_update hrooms w
    have h₂ := hmaps.taken w
    have hheld : Room.held w { k.rooms p with table := some pt' } =
        Weight.ofOption w (k.rooms p).frame + pt'.weigh w := Room.held_of_table rfl
    have hpipes : ({ k with mem := m }.setTable p pt').pipeWeight w = k.pipeWeight w := rfl
    have hmem : ({ k with mem := m }.setTable p pt').mem = m := rfl
    rw [hheld, Room.held_of_table hpt, hmem, hpipes] at h₁
    omega
  · rw [hrooms]
    by_cases hq : q = p
    · rw [hq, Function.update_self]
    · rw [Function.update_of_ne hq]
  · rw [hrooms, Function.update_of_ne hq.2]
  · have hqp : q ≠ p := fun heq => hq (heq ▸ hpl)
    rw [hrooms, Function.update_of_ne hqp]
  · rw [hrooms]
    by_cases hq : q = p
    · rw [hq, Function.update_self]
    · rw [Function.update_of_ne hq]

/-- The other members have adopted what they could. -/
theorem Grows.spread {pt pt' : PageTable} (h : k.Grows p l k₁ pt pt' lo hi) (hpl : p ∈ l)
    (hsame : ∀ q, q ≠ p → k₁.rooms q = k.rooms q) (hsize : ∀ q, (k₁.rooms q).size = (k.rooms q).size)
    (hs : Spreads pt'.leaf lo hi (Other p l) k₁ k₂) : k.Grows p l k₂ pt pt' lo hi := by
  have hp : k₂.rooms p = k₁.rooms p := hs.outside p fun hx => hx.2 rfl
  refine ⟨h.table, hp ▸ h.table', hs.kend.trans h.kend, hs.refcount.trans h.refcount, fun w => ?_, h.start, h.le,
    h.limit, h.outside, h.inside, fun q => ?_, fun q hq => ?_, fun q hq => ?_, .inl fun q => ?_⟩
  · rw [hs.owned, h.owned]
  · by_cases hq : Other p l q
    · rw [(hs.inside q hq).frame, h.frame]
    · rw [hs.outside q hq, h.frame]
  · have := (hs.inside q hq).table
    rwa [hsame q hq.2] at this
  · rw [hs.outside q fun hx => hq hx.1]
    exact hsame q fun heq => hq (heq ▸ hpl)
  · by_cases hq : Other p l q
    · rw [(hs.inside q hq).size, hsize]
    · rw [hs.outside q hq, hsize]

/-- All of them have adopted all pages, and get the new size. -/
theorem Grows.resize {pt pt' : PageTable} {sz : Nat} (h : k.Grows p l k₂ pt pt' lo hi) (ht : k₂.Team p l)
    (hset : k₂.setSize p sz = .ok k') (hpages : pagesBelow sz = hi) (hmore : lo < hi ∨ l = [p])
    (hall : ∀ q, Other p l q → ∀ v, lo ≤ v → v < hi → ∃ ptq, (k₂.rooms q).table = some ptq ∧ ptq.leaf v = pt'.leaf v) :
    k.Grows p l k' pt pt' lo hi := by
  obtain ⟨hrooms, hmem, hpipes⟩ := setSize_rooms ht hset
  have htable : ∀ q, (k'.rooms q).table = (k₂.rooms q).table := by
    intro q
    rw [hrooms]
    split <;> rfl
  have hframe : ∀ q, (k'.rooms q).frame = (k₂.rooms q).frame := by
    intro q
    rw [hrooms]
    split <;> rfl
  have howned : ∀ w, k'.owned w = k₂.owned w := by
    intro w
    simp only [Kernel.owned, pipeWeight, hmem, hpipes]
    have hheld : ∀ q, (k'.rooms q).held w = (k₂.rooms q).held w := fun q => by
      rw [Room.held, Room.held, htable, hframe]
    simp only [hheld]
  refine ⟨h.table, (htable p).trans h.table', hmem ▸ h.kend, hmem ▸ h.refcount, fun w => ?_, h.start, h.le, h.limit,
    h.outside, h.inside, fun q => (hframe q).trans (h.frame q), fun q hq => ?_, fun q hq => ?_,
    .inr ⟨sz, hpages, hmore, fun q hq => ?_, fun q hq v hv hv' => ?_⟩⟩
  · rw [howned, h.owned]
  · rw [htable]
    exact h.member q hq
  · rw [hrooms, if_neg hq]
    exact h.other q hq
  · rw [hrooms, if_pos hq]
  · rw [htable]
    exact hall q hq v hv hv'

theorem growproc_grows {n r : Int} (hn : 0 < n) (hn' : n < 2 ^ 31) (ht : k.Team p l) (hpl : p ∈ l)
    (hframed : ∀ pt, (k.rooms p).table = some pt → pt.Framed) (hsize : (k.rooms p).size ≤ trapframeVa)
    (haligned : (k.proc p).sz % pgSize = 0 ∨ k.Alone p) (h : k.growproc p n = .ok (r, k')) :
    ∃ pt pt' lo hi, k.Grows p l k' pt pt' lo hi := by
  simp only [growproc] at h
  rw [if_neg (by omega)] at h
  split at h
  · cases h
  rename_i pt hpt
  rw [if_pos hn] at h
  obtain ⟨⟨newsz, m, pt'⟩, halloc, h⟩ := Except.bind_ok_iff.1 h
  have htable : (k.rooms p).table = some pt := hpt
  have hsz : (k.proc p).sz ≤ trapframeVa := hsize
  obtain ⟨hi, hmaps, hres⟩ := uvmalloc_ok (hsz.trans (by decide)) halloc
  have hle : pagesBelow (k.proc p).sz ≤ hi := by
    rcases hres with ⟨-, hhi⟩ | ⟨-, hhi⟩ <;> omega
  have hlim : hi ≤ userPages := hmaps.le_userPages (hframed pt htable) (pagesBelow_le_userPages hsz)
  have hgrows : k.Grows p l ({ k with mem := m }.setTable p pt') pt pt' (pagesBelow (k.proc p).sz) hi :=
    grows_of_maps hpl htable rfl hle hlim hmaps
  have hrooms : ({ k with mem := m }.setTable p pt').rooms =
      Function.update k.rooms p { k.rooms p with table := some pt' } := by
    rw [setTable, rooms_modify]
    rfl
  have hentries : ({ k with mem := m }.setTable p pt').entries = k.entries := (entries_setTable _ _ _).trans rfl
  generalize { k with mem := m }.setTable p pt' = k₁ at h hgrows hrooms hentries
  have hsame : ∀ q, q ≠ p → k₁.rooms q = k.rooms q := fun q hq => by rw [hrooms, Function.update_of_ne hq]
  have hsize₁ : ∀ q, (k₁.rooms q).size = (k.rooms q).size := by
    intro q
    by_cases hq : q = p
    · rw [hq, hrooms, Function.update_self]
    · rw [hsame q hq]
  have hsz₁ : (k₁.proc p).sz = (k.proc p).sz := hsize₁ p
  dsimp only at h
  split at h
  · cases h
    exact ⟨pt, pt', _, hi, hgrows⟩
  rename_i hnz
  obtain ⟨⟨b, k₂⟩, hothers, h⟩ := Except.bind_ok_iff.1 h
  obtain ⟨hr, hhi⟩ := hres.resolve_right fun hzero => hnz hzero.1
  have hhi' : hi = max (pagesBelow (k.proc p).sz) (pagesBelow newsz) := by
    rw [hhi, hr]
    rcases Nat.le_total (k.proc p).sz (((k.proc p).sz + n) % wordSize).toNat with hle' | hle'
    · rw [Nat.max_eq_right hle']
    · rw [Nat.max_eq_left hle', Nat.max_self, Nat.max_eq_left (pagesBelow_mono hle')]
  have halone : (k₁.proc p).sz % pgSize = 0 ∨ k₁.Alone p := by
    rw [hsz₁]
    refine haligned.imp_right fun ha => ?_
    have he := congrFun hentries p
    have hL : (k₁.proc p).groupLeader = (k.proc p).groupLeader := congrArg Entry.groupLeader he
    have hN : (k₁.proc p).groupNext = (k.proc p).groupNext := congrArg Entry.groupNext he
    rw [Alone, hL, hN]
    exact ha
  rw [← hsz₁] at hothers
  obtain ⟨hs, hall⟩ := growOthers_ok (ht.congr hentries) hgrows.table' (hsz₁ ▸ rfl) hhi' hlim
    (fun u hu hu' => (hgrows.inside u hu hu').2) halone hothers
  have hgrows₂ := hgrows.spread hpl hsame hsize₁ hs
  dsimp only at h
  split at h
  · cases h
    exact ⟨pt, pt', _, hi, hgrows₂⟩
  · rename_i hb
    obtain ⟨k₃, hset, h⟩ := Except.bind_ok_iff.1 h
    cases h
    have hge : (k.proc p).sz ≤ newsz := by omega
    have hpages : pagesBelow newsz = hi := by
      have := pagesBelow_mono hge
      omega
    refine ⟨pt, pt', _, hi, hgrows₂.resize (ht.congr (hs.entries.trans hentries)) hset hpages ?_
      (hall (by simpa using hb))⟩
    -- an aligned size grows by a page at least
    refine haligned.imp (fun ha => ?_) fun ha => ht.eq_of_alone ha
    have hnewsz : newsz = (k.proc p).sz + n := by
      have hfit : trapframeVa + 2 ^ 31 < wordSize := by decide
      have hmod : ((k.proc p).sz + n) % wordSize = (k.proc p).sz + n := by
        refine Int.emod_eq_of_lt (by omega) ?_
        omega
      rw [hmod] at hr
      omega
    rw [← hpages]
    simp only [pagesBelow, pgSize] at *
    omega

/-! ## sbrk: shrinking -/

/-- The size that `p` has after giving back `-n` bytes. -/
def shrunk (k : Kernel) (p : Slot) (n : Int) : Nat :=
  min (k.rooms p).size (((k.rooms p).size + n) % wordSize).toNat

/-- `growproc` by a process that is alone has unmapped and freed the pages from
`lo` up to `hi`. -/
structure Shrinks (k : Kernel) (p : Slot) (n : Int) (k' : Kernel) (pt pt' : PageTable) (lo hi : Nat) :
    Prop where
  table : (k.rooms p).table = some pt
  start : lo = pagesBelow (k.shrunk p n)
  rooms : k'.rooms = Function.update k.rooms p { k.rooms p with table := some pt', size := k.shrunk p n }
  kend : k'.mem.kend = k.mem.kend
  refcount : k'.mem.refcount = k.mem.refcount
  owned : ∀ w, k'.owned w = k.owned w + pt.span w lo hi
  stop : hi = pagesBelow (k.rooms p).size
  outside : AgreeOutside pt pt' lo hi
  inside : ∀ v, lo ≤ v → v < hi → pt.leaf v ≠ none ∧ pt'.leaf v = none

theorem shrinkGroup_alone {n va : Nat} (hnext : (k.proc p).groupNext = some p)
    (h : shrinkGroup p p n va k = .ok k') : k' = k := by
  induction n generalizing va with
  | zero =>
    cases h
    rfl
  | succ n ih =>
    rw [shrinkGroup] at h
    obtain ⟨k₁, hloop, hrest⟩ := Except.bind_ok_iff.1 h
    clear h
    have hk₁ : k₁ = k := by
      have hfollow : Follows (fun x => (k.proc x).groupNext) (k.proc p).groupNext [] p := hnext
      have hfold := ringLoop_foldlM ?_ hfollow (by simp) (fun _ => rfl) hloop
      · rw [List.foldlM_cons, Except.bind_ok_iff] at hfold
        obtain ⟨k₂, hbody, hfold⟩ := hfold
        rw [if_neg (by simp)] at hbody
        cases hbody
        exact (Except.pure_ok_iff.1 hfold).symm
      · intro k₂ q k₃ hn hbody x
        split at hbody
        · exact (congrArg Entry.groupNext (congrFun (unmapFrom_remaps hbody).entries x)).trans (hn x)
        · cases hbody
          exact hn x
    subst hk₁
    exact ih hrest

theorem growproc_shrinks {n r : Int} (hn : n < 0) (ht : k.Team p l) (ha : k.Alone p)
    (hsize : (k.rooms p).size ≤ trapframeVa) (h : k.growproc p n = .ok (r, k')) :
    ∃ pt pt' lo hi, k.Shrinks p n k' pt pt' lo hi := by
  simp only [growproc] at h
  rw [if_neg (by omega)] at h
  split at h
  · cases h
  rename_i pt hpt
  rw [if_neg (by omega)] at h
  obtain ⟨⟨newsz, m, pt'⟩, hdealloc, h⟩ := Except.bind_ok_iff.1 h
  have htable : (k.rooms p).table = some pt := hpt
  have hsz : (k.proc p).sz ≤ trapframeVa := hsize
  obtain ⟨hr, hun⟩ := uvmdealloc_ok (hsz.trans (by decide)) hdealloc
  obtain rfl := ht.eq_of_alone ha
  generalize hk₁ : { k with mem := m }.setTable p pt' = k₁ at h
  have hrooms : k₁.rooms = Function.update k.rooms p { k.rooms p with table := some pt' } := by
    rw [← hk₁, setTable, rooms_modify]
    rfl
  have hmem : k₁.mem = m := by rw [← hk₁]; rfl
  have hpipes : k₁.pipes = k.pipes := by rw [← hk₁]; rfl
  have hentries : k₁.entries = k.entries := by rw [← hk₁]; exact (entries_setTable _ _ _).trans rfl
  obtain ⟨k₂, hshrink, h⟩ := Except.bind_ok_iff.1 h
  -- there is nobody else to unmap from
  have hk₂ : k₂ = k₁ := by
    have hL : (k₁.proc p).groupLeader = (k.proc p).groupLeader :=
      congrArg Entry.groupLeader (congrFun hentries p)
    have hN : (k₁.proc p).groupNext = (k.proc p).groupNext :=
      congrArg Entry.groupNext (congrFun hentries p)
    unfold shrinkOthers at hshrink
    rcases ha with hnone | ⟨hsome, hnext⟩
    · rw [hL, hnone] at hshrink
      cases hshrink
      rfl
    · rw [hL, hsome] at hshrink
      exact shrinkGroup_alone (hN.trans hnext) hshrink
  obtain ⟨k₃, hset, h⟩ := Except.bind_ok_iff.1 h
  cases h
  rw [hk₂] at hset
  obtain ⟨hrooms₃, hmem₃, hpipes₃⟩ := setSize_rooms (ht.congr hentries) hset
  have hrooms' : k'.rooms = Function.update k.rooms p { k.rooms p with table := some pt', size := newsz } := by
    funext q
    rw [hrooms₃, hrooms]
    by_cases hq : q = p
    · subst hq
      simp
    · simp [hq]
  obtain rfl : newsz = k.shrunk p n := hr
  refine ⟨pt, pt', _, _, htable, rfl, hrooms', ?_, ?_, fun w => ?_, rfl, hun.outside,
    fun v hv hv' => (hun.inside v hv hv').2⟩
  · rw [hmem₃, hmem, hun.keeps.kend]
  · rw [hmem₃, hmem, hun.keeps.refcount]
  · have h₁ := owned_update hrooms' w
    have h₂ := hun.freed w
    have h₃ := hun.pages w
    have hheld : Room.held w { k.rooms p with table := some pt', size := k.shrunk p n } =
        Weight.ofOption w (k.rooms p).frame + pt'.weigh w := Room.held_of_table rfl
    rw [hheld, Room.held_of_table htable, hmem₃, hmem, pipeWeight, pipeWeight, hpipes₃, hpipes] at h₁
    have hstop : pagesBelow (k.rooms p).size = pagesBelow (k.proc p).sz := rfl
    rw [hstop]
    omega

/-! ## thread_create -/

theorem balanced_foundGroup (k : Kernel) (p : Slot) : k.Balanced (k.foundGroup p) := by
  unfold foundGroup
  split
  · exact balanced_modify rfl
  · exact .refl k

theorem enterGroup_balanced {np : Slot} (h : k.enterGroup L np = .ok k') : k.Balanced k' := by
  simp only [enterGroup] at h
  split at h
  · cases h
  · cases h
    exact (((balanced_modify rfl).trans (balanced_modify rfl)).trans (balanced_modify rfl)).trans
      (balanced_modify rfl)

theorem leaveGroup_balanced {np : Slot} (h : k.leaveGroup L np = .ok k') : k.Balanced k' := by
  simp only [leaveGroup] at h
  split at h
  · cases h
    exact ((balanced_modify rfl).trans (balanced_modify rfl)).trans (balanced_modify rfl)
  · cases h

theorem foundGroup_mem (k : Kernel) (p : Slot) : (k.foundGroup p).mem = k.mem := by
  unfold foundGroup
  split <;> rfl

theorem enterGroup_mem {np : Slot} (h : k.enterGroup L np = .ok k') : k'.mem = k.mem := by
  simp only [enterGroup] at h
  split at h
  · cases h
  · cases h
    rfl

theorem leaveGroup_mem {np : Slot} (h : k.leaveGroup L np = .ok k') : k'.mem = k.mem := by
  simp only [leaveGroup] at h
  split at h
  · cases h
    rfl
  · cases h

theorem startThread_balanced {np : Slot} {curr start arg : Nat}
    (h : k.startThread p np curr start arg = .ok k') : k.Balanced k' := by
  obtain ⟨ntf, regs, ft, ir, files, cwd, hntf, hk'⟩ := startThread_ok h
  refine .of_samePages ?_ (by rw [hk']; exact ⟨rfl, rfl, rfl⟩) (by rw [hk'])
  funext q
  by_cases hq : q = np
  · subst hq
    simp [hk', rooms, Proc.room, hntf]
  · simp [hk', rooms, hq]

/-- The stack was mapped into the slots of `l`. -/
structure Stacks (v : Nat) (stack : Ppn) (l : List Slot) (k k' : Kernel) : Prop where
  entries : k'.entries = k.entries
  kend : k'.mem.kend = k.mem.kend
  refcount : k'.mem.refcount = k.mem.refcount
  owned : ∀ w, k'.owned w = k.owned w
  inside : ∀ q ∈ l, Room.Stacked v stack (k.rooms q) (k'.rooms q)
  outside : ∀ q, q ∉ l → k'.rooms q = k.rooms q

theorem mapStack_stacks {stack : Ppn} (h : mapStack (v * pgSize) stack k q = .ok k') :
    Stacks v stack [q] k k' := by
  have hentries := (mapStack_remaps h).entries
  obtain ⟨⟨b, k₁⟩, hmap, h⟩ := Except.bind_ok_iff.1 h
  cases h
  obtain ⟨hs, hva, pt, pt', hpt, hpt', hres⟩ := mapInto_ok hmap
  generalize hk₀ : (k.modify q fun pr => { pr with sz := v * pgSize + pgSize }) = k₀ at hs hpt
  have hrooms : k₀.rooms = Function.update k.rooms q { k.rooms q with size := (v + 1) * pgSize } := by
    rw [← hk₀, rooms_modify, Nat.add_mul, Nat.one_mul]
    rfl
  have howned : ∀ w, k₀.owned w = k.owned w := by
    intro w
    have h₁ := owned_update hrooms w
    have hheld : Room.held w { k.rooms q with size := (v + 1) * pgSize } = (k.rooms q).held w := rfl
    have hpw : k₀.pipeWeight w = k.pipeWeight w := by rw [← hk₀]; rfl
    have hmw : k₀.mem.weigh w = k.mem.weigh w := by rw [← hk₀]; rfl
    rw [hheld, hpw, hmw] at h₁
    omega
  have hmem : k₀.mem = k.mem := by rw [← hk₀]; rfl
  rw [hrooms, Function.update_self] at hpt
  refine ⟨hentries, by rw [hs.kend, hmem], by rw [hs.refcount, hmem], fun w => by rw [hs.owned, howned], ?_,
    fun x hx => ?_⟩
  · intro x hx
    obtain rfl : x = q := by simpa using hx
    have hin := hs.inside x rfl
    rw [hrooms, Function.update_self] at hin
    refine ⟨hin.frame, hin.size, hva, pt, pt', hpt, hpt', ?_, ?_⟩
    · rcases hin.table with heq | ⟨pt₁, pt₂, h₁, h₂, ha⟩
      · obtain rfl : pt' = pt := Option.some.inj (hpt'.symm.trans (heq.trans hpt))
        exact .refl _
      · obtain rfl := Option.some.inj (hpt.symm.trans h₁)
        obtain rfl := Option.some.inj (hpt'.symm.trans h₂)
        exact ha
    · rcases hres with ⟨-, hnone, hsome⟩ | ⟨-, -, hsame, hcov⟩
      · exact .inl ⟨hnone, hsome⟩
      · exact .inr ⟨hsame, hcov⟩
  · have hxq : x ≠ q := by simpa using hx
    rw [hs.outside x hxq, hrooms, Function.update_of_ne hxq]

theorem mapStacks_ok {stack : Ppn} (hnodup : l.Nodup)
    (h : l.foldlM (mapStack (v * pgSize) stack) k = .ok k') : Stacks v stack l k k' := by
  induction l generalizing k with
  | nil =>
    rw [List.foldlM_nil, Except.pure_ok_iff] at h
    subst h
    exact ⟨rfl, rfl, rfl, fun _ => rfl, by simp, fun _ _ => rfl⟩
  | cons q l ih =>
    rw [List.foldlM_cons, Except.bind_ok_iff] at h
    obtain ⟨k₁, hone, h⟩ := h
    have hfirst := mapStack_stacks hone
    have hrest := ih (List.nodup_cons.1 hnodup).2 h
    have hq : q ∉ l := (List.nodup_cons.1 hnodup).1
    refine ⟨hrest.entries.trans hfirst.entries, hrest.kend.trans hfirst.kend,
      hrest.refcount.trans hfirst.refcount, fun w => (hrest.owned w).trans (hfirst.owned w), fun x hx => ?_,
      fun x hx => ?_⟩
    · rcases List.mem_cons.1 hx with rfl | hx
      · rw [hrest.outside x hq]
        exact hfirst.inside x (by simp)
      · have hxq : x ∉ [q] := by
          simp only [List.mem_singleton]
          exact fun heq => hq (heq ▸ hx)
        have := hrest.inside x hx
        rwa [hfirst.outside x hxq] at this
    · simp only [List.mem_cons, not_or] at hx
      rw [hrest.outside x hx.2, hfirst.outside x (by simpa using hx.1)]

/-- The slot of a new thread before its stack is mapped: its table maps the
first `hi` pages of `pt` and no other user page. -/
structure Hosts (pt : PageTable) (hi : Nat) (npt : PageTable) : Prop where
  framed : npt.Framed
  shared : ∀ v < hi, npt.leaf v = pt.leaf v
  hollow : ∀ v, hi ≤ v → v < userPages → npt.leaf v = none

/-- `thread_create` by `p`, with team `l`, has given slot `np` the pages of `p`
and everybody a stack page. -/
structure Spawns (k : Kernel) (p : Slot) (l : List Slot) (k' : Kernel) (np : Slot) (pt npt : PageTable)
    (tf stack : Ppn) (v : Nat) : Prop where
  slot : k.findUnused = some np
  started : (k'.entries np).phase = .active
  leader : k'.leaderOf np = k.leaderOf p
  fresh : np ∉ l
  table : (k.rooms p).table = some pt
  size : (k.rooms p).size = v * pgSize
  kend : k'.mem.kend = k.mem.kend
  counts : ∀ f, k'.mem.refcount f = k.mem.refcount f + pt.span (Weight.single f) 0 v
  owned : ∀ w, k'.owned w + w stack = k.owned w
  hosts : Hosts pt v npt
  newcomer : Room.Stacked v stack ⟨some npt, some tf, 0⟩ (k'.rooms np)
  member : ∀ q ∈ l, Room.Stacked v stack (k.rooms q) (k'.rooms q)
  other : ∀ q, q ∉ np :: l → k'.rooms q = k.rooms q

/-- `thread_create` by `p` found no page for a stack: slot `np` keeps the pages
it was given, outside of any group. -/
structure Strands (k : Kernel) (p : Slot) (k' : Kernel) (np : Slot) (pt npt : PageTable) (tf : Ppn)
    (hi : Nat) : Prop where
  slot : k.findUnused = some np
  left : (k'.entries np).phase = .used
  leader : k'.leaderOf np = k.leaderOf p
  table : (k.rooms p).table = some pt
  limit : hi ≤ pagesBelow (k.rooms p).size
  kend : k'.mem.kend = k.mem.kend
  counts : ∀ f, k'.mem.refcount f = k.mem.refcount f + pt.span (Weight.single f) 0 hi
  owned : ∀ w, k'.owned w = k.owned w
  hosts : Hosts pt hi npt
  rooms : k'.rooms = Function.update k.rooms np ⟨some npt, some tf, 0⟩

theorem uvmshare_hosts {m m' : Mem} {pt npt npt' : PageTable} {sz : Nat} {b : Bool} (hf : npt.Framed)
    (hh : npt.Hollow 0) (hsz : sz ≤ trapframeVa) (h : uvmshare m pt npt sz = .ok (b, m', npt')) :
    ∃ hi, Hosts pt hi npt' ∧ hi ≤ pagesBelow sz ∧ m'.kend = m.kend ∧
      (∀ f, m'.refcount f = m.refcount f + pt.span (Weight.single f) 0 hi) ∧
      (∀ w, m'.weigh w + npt'.weigh w = m.weigh w + npt.weigh w) ∧
      ((b = true ∧ hi = pagesBelow sz) ∨ (b = false ∧ m'.freelist = [])) := by
  obtain ⟨hi, hs, hb⟩ := uvmshare_ok h
  have hle : hi ≤ pagesBelow sz := by rcases hb with ⟨-, h⟩ | ⟨-, h, -⟩ <;> omega
  have hlim := pagesBelow_le_userPages hsz
  have hu := userPages_lt
  refine ⟨hi, ⟨hs.outside.framed (hle.trans hlim) hf, fun v hv => ?_, fun v hv hv' => ?_⟩, hle, hs.kend, hs.counts,
    hs.pages, ?_⟩
  · obtain ⟨-, hnone, hsome⟩ := hs.inside v hv
    cases hl : pt.leaf v with
    | none => rw [hnone hl, hh v (Nat.zero_le _) (by omega)]
    | some e => exact (hsome e hl).2
  · rw [hs.outside v (by omega) (by omega)]
    exact hh v (Nat.zero_le _) hv'
  · exact hb.imp_right fun h => ⟨h.1, h.2.2⟩

/-- The group that `thread_create` works on is the team of the caller. -/
theorem Team.eq_found {ms : List Slot} (ht : k.Team p l)
    (hg : (k.entries.found p).Group (k.leaderOf p) ms) : l = k.leaderOf p :: ms := by
  cases ht with
  | single hp =>
    have hL : k.leaderOf p = p := by rw [leaderOf, hp]; rfl
    rw [hL] at hg ⊢
    have hnext : (k.entries.found p p).groupNext = some p := by
      rw [Entries.found, if_pos (show (k.entries p).groupLeader = none from hp), Function.update_self]
    have hnil : Follows (fun q => (k.entries.found p q).groupNext) (k.entries.found p p).groupNext [] p := hnext
    rw [hg.ring.follows.unique hnil hg.ring.head_notMem (by simp)]
  | @group L ms' hp hg' =>
    have hL : k.leaderOf p = L := by rw [leaderOf, hp]; rfl
    have hfound : k.entries.found p = k.entries := by
      rw [Entries.found, if_neg]
      rw [show (k.entries p).groupLeader = some L from hp]
      simp
    rw [hL, hfound] at hg
    rw [hL, hg'.unique hg]

theorem leaderOf_of_entry (h : (k.entries q).groupLeader = some L) : k.leaderOf q = L := by
  have hL : (k.proc q).groupLeader = some L := h
  rw [leaderOf, hL]
  rfl

/-- Slot `np` has been given the pages up to `hi` of the table `pt`, and memory
weighs `d` less. -/
structure Lodges (k : Kernel) (np : Slot) (pt npt : PageTable) (tf : Ppn) (hi : Nat) (d : (Ppn → Nat) → Nat)
    (k' : Kernel) : Prop where
  rooms : k'.rooms = Function.update k.rooms np ⟨some npt, some tf, 0⟩
  kend : k'.mem.kend = k.mem.kend
  counts : ∀ f, k'.mem.refcount f = k.mem.refcount f + pt.span (Weight.single f) 0 hi
  owned : ∀ w, k'.owned w + d w = k.owned w

theorem Moved.lodges {np : Slot} {pt npt npt' : PageTable} {tf : Ppn} {m m₀ : Mem} {d : (Ppn → Nat) → Nat}
    (hmoved : k.Moved np k₁ npt tf) (hb : k₁.Balanced k₂) (hkend : m₀.kend = k₂.mem.kend)
    (hcounts : ∀ f, m₀.refcount f = k₂.mem.refcount f + pt.span (Weight.single f) 0 hi)
    (hpages : ∀ w, m₀.weigh w + d w + npt'.weigh w = k₂.mem.weigh w + npt.weigh w) :
    k.Lodges np pt npt' tf hi d { { k₂ with mem := m }.setTable np npt' with mem := m₀ } := by
  have hrooms₂ : k₂.rooms = Function.update k.rooms np ⟨some npt, some tf, 0⟩ := by rw [hb.rooms, hmoved.rooms]
  have hroom₂ : k₂.rooms np = ⟨some npt, some tf, 0⟩ := by rw [hrooms₂, Function.update_self]
  have hst : Kernel.rooms { { k₂ with mem := m }.setTable np npt' with mem := m₀ } =
      Function.update k₂.rooms np ⟨some npt', some tf, 0⟩ := by
    have hset : ({ k₂ with mem := m }.setTable np npt').rooms =
        Function.update k₂.rooms np { k₂.rooms np with table := some npt' } := by
      rw [setTable, rooms_modify]
      rfl
    rw [hroom₂] at hset
    exact (rooms_of_proc rfl).trans hset
  have hheld : ∀ pt w, Room.held w ⟨some pt, some tf, 0⟩ = w tf + pt.weigh w := fun _ _ => Room.held_of_table rfl
  refine ⟨?_, hkend.trans (hb.kend.trans hmoved.kend), fun f => ?_, fun w => ?_⟩
  · rw [hst, hrooms₂, Function.update_idem]
  · rw [← hmoved.refcount, ← hb.refcount]
    exact hcounts f
  · have h₁ := owned_update hst w
    have h₂ := hpages w
    have h₃ := (hb.owned w).trans (hmoved.owned w)
    have hpw : Kernel.pipeWeight { { k₂ with mem := m }.setTable np npt' with mem := m₀ } w = k₂.pipeWeight w := rfl
    have hmem : ({ { k₂ with mem := m }.setTable np npt' with mem := m₀ } : Kernel).mem = m₀ := rfl
    rw [hroom₂, hheld, hheld, hpw, hmem] at h₁
    omega

/-- There is no page for the stack: the slot leaves the ring again. -/
theorem Lodges.strands {np : Slot} {pt npt : PageTable} {tf : Ppn} (h : k.Lodges np pt npt tf hi (fun _ => 0) k₂)
    (hfind : k.findUnused = some np) (htable : (k.rooms p).table = some pt) (hle : hi ≤ pagesBelow (k.rooms p).size)
    (hhosts : Hosts pt hi npt) (hleave : leaveGroup k₂ (k.leaderOf p) np = .ok k')
    (hE : k'.entries = Function.update (k.entries.found p) np (k.joined p np)) : k.Strands p k' np pt npt tf hi := by
  have hb := leaveGroup_balanced hleave
  have hnp : k'.entries np = k.joined p np := by rw [hE, Function.update_self]
  refine ⟨hfind, by rw [hnp]; rfl, leaderOf_of_entry (by rw [hnp]; rfl), htable, hle, hb.kend.trans h.kend, fun f => ?_,
    fun w => ?_, hhosts, hb.rooms.trans h.rooms⟩
  · rw [hb.refcount, h.counts]
  · rw [hb.owned]
    simpa using h.owned w

/-- The stack is mapped in the whole ring, the new thread included, and the thread starts. -/
theorem Lodges.spawns {np : Slot} {ms : List Slot} {pt npt : PageTable} {tf stack : Ppn} {start arg v : Nat}
    (h : k.Lodges np pt npt tf v (fun w => w stack) k₁) (hE : k.entries.WellGrouped)
    (hp : (k.proc p).state.phase = .active) (hg : (k.entries.found p).Group (k.leaderOf p) ms)
    (hfind : k.findUnused = some np) (htable : (k.rooms p).table = some pt) (hv : (k.rooms p).size = v * pgSize)
    (hhosts : Hosts pt v npt) (hE₁ : k₁.entries = (k.entries.found p).linkIn (k.leaderOf p) np (k.joined p np))
    (hloop : ringLoop (k.leaderOf p) (mapStack (v * pgSize) stack) nproc (k.leaderOf p) k₁ = .ok k₂)
    (hstart : k₂.startThread p np (v * pgSize) start arg = .ok k')
    (hE' : k'.entries = (k.entries.found p).linkIn (k.leaderOf p) np
      { k.joined p np with phase := .active, parent := some p, isThread := true }) :
    k.Spawns p (k.leaderOf p :: ms) k' np pt npt tf stack v := by
  have hphase : (k.entries np).phase = .unused := by
    simp [entries, Proc.entry, findUnused_unused hfind, ProcState.phase]
  have hnpring : np ∉ k.leaderOf p :: ms := fun hmem =>
    ((hg.mem_iff np).1 hmem).2.1 ((found_phase _ _ _).trans hphase)
  -- the ring with the new thread in it
  have hfound := (exists_found_group hE hp).1
  have hring := (hfound.linkIn hg ((found_phase _ _ _).trans hphase)
    (e := { k.joined p np with phase := .active, parent := some p, isThread := true })
    rfl rfl rfl rfl rfl).2
  have hnext : ∀ x, (k₁.proc x).groupNext = (((k.entries.found p).linkIn (k.leaderOf p) np
      { k.joined p np with phase := .active, parent := some p, isThread := true }) x).groupNext := by
    intro x
    have h₁ : (k₁.proc x).groupNext = (k₁.entries x).groupNext := rfl
    rw [h₁, hE₁]
    by_cases hx : x = np
    · simp [Entries.linkIn, hx]
    · simp [Entries.linkIn, hx]
  have hfold := ringLoop_foldlM (fun k₅ q k₆ hn hbody x =>
    (congrArg Entry.groupNext (congrFun (mapStack_remaps hbody).entries x)).trans (hn x))
    hring.ring.follows hring.ring.head_notMem hnext hloop
  have hs := mapStacks_ok hring.ring.nodup hfold
  have hb := startThread_balanced hstart
  have hother : ∀ q, q ≠ np → k₁.rooms q = k.rooms q := fun q hq => by rw [h.rooms, Function.update_of_ne hq]
  have hnp : k'.entries np = { k.joined p np with phase := .active, parent := some p, isThread := true } := by
    simp [hE', Entries.linkIn]
  refine ⟨hfind, by rw [hnp], leaderOf_of_entry (by rw [hnp]; rfl), hnpring, htable, hv, ?_, fun f => ?_,
    fun w => ?_, hhosts, ?_, fun q hq => ?_, fun q hq => ?_⟩
  · rw [hb.kend, hs.kend, h.kend]
  · rw [hb.refcount, hs.refcount, h.counts]
  · rw [hb.owned, hs.owned]
    exact h.owned w
  · have := hs.inside np (by simp)
    rwa [h.rooms, Function.update_self, ← hb.rooms] at this
  · have hqnp : q ≠ np := fun heq => hnpring (heq ▸ hq)
    have := hs.inside q (by
      rcases List.mem_cons.1 hq with rfl | hq
      · simp
      · simp [hq])
    rwa [hother q hqnp, ← hb.rooms] at this
  · simp only [List.mem_cons, not_or] at hq
    rw [hb.rooms, hs.outside q (by simp [hq]), hother q hq.1]

theorem threadCreate_rooms {start arg : Nat} {r : Int} (hE : k.entries.WellGrouped)
    (hp : (k.proc p).state.phase = .active) (ht : k.Team p l)
    (hempty : ∀ q, (k.proc q).state = .unused → k.rooms q = .empty)
    (hsize : (k.rooms p).size ≤ trapframeVa) (haligned : (k.rooms p).size % pgSize = 0)
    (h : k.threadCreate p start arg = .ok (r, k')) :
    k.Balanced k' ∨ (∃ np pt npt tf hi, k.Strands p k' np pt npt tf hi) ∨
      ∃ np pt npt tf stack v, k.Spawns p l k' np pt npt tf stack v := by
  rcases threadCreate_cases hE hp h with
    halloc | ⟨np, ms, k₁, k₂, pt, npt, b, m, npt', halloc, hpnp, hg, henter, hE₂, hpt, hnpt, hshare, hend⟩
  · exact .inl (allocproc_balanced halloc hempty)
  refine .inr ?_
  obtain rfl := ht.eq_found hg
  have hfind := (allocproc_some halloc).1
  obtain ⟨npt₀, tf, hnpt₀, hmoved⟩ := allocproc_moved halloc (hempty np (findUnused_unused hfind))
  have hb₂ : k₁.Balanced k₂ := (balanced_foundGroup k₁ p).trans (enterGroup_balanced henter)
  have hrooms₂ : k₂.rooms = Function.update k.rooms np ⟨some npt₀, some tf, 0⟩ := by rw [hb₂.rooms, hmoved.rooms]
  have hp₂ : k₂.rooms p = k.rooms p := by rw [hrooms₂, Function.update_of_ne hpnp]
  have htable : (k.rooms p).table = some pt := by rw [← hp₂]; exact hpt
  have hsz : (k₂.proc p).sz = (k.rooms p).size := congrArg Room.size hp₂
  obtain rfl : npt₀ = npt := by
    have hroom₂ : (k₂.rooms np).table = some npt₀ := by rw [hrooms₂, Function.update_self]
    exact Option.some.inj (hroom₂.symm.trans hnpt)
  rw [hsz] at hshare hend
  obtain ⟨hi, hhosts, hle, hkend, hcounts, hpages, hb⟩ :=
    uvmshare_hosts hmoved.framed hmoved.hollow hsize hshare
  rcases hend with ⟨m', hk, hleave, hE'⟩ | ⟨stack, m', k₃, hk, hloop, -, hstart, hE'⟩
  · obtain ⟨-, rfl⟩ := Mem.kalloc_none hk
    have hlodges : k.Lodges np pt npt' tf hi (fun _ => 0) { { k₂ with mem := m' }.setTable np npt' with mem := m' } :=
      hmoved.lodges hb₂ hkend hcounts hpages
    exact .inl ⟨np, pt, npt', tf, hi, hlodges.strands hfind htable hle hhosts hleave hE'⟩
  · -- a stack page was left, so everything was shared
    obtain rfl : hi = pagesBelow (k.rooms p).size := by
      rcases hb with ⟨-, h⟩ | ⟨-, hnil⟩
      · exact h
      · rw [(Mem.kalloc_some hk).1] at hnil
        cases hnil
    have hv : (k.rooms p).size = pagesBelow (k.rooms p).size * pgSize := by
      simp only [pagesBelow, pgSize] at *
      omega
    have hlodges : k.Lodges np pt npt' tf (pagesBelow (k.rooms p).size) (fun w => w stack)
        { { k₂ with mem := m }.setTable np npt' with mem := m'.memset stack 0 } := by
      refine hmoved.lodges hb₂ ((Mem.kalloc_kend hk).trans hkend) (fun f => ?_) fun w => ?_
      · rw [Mem.memset_refcount, Mem.kalloc_refcount hk, hcounts]
      · have hw := Mem.weigh_kalloc hk w
        have := hpages w
        rw [Mem.weigh_memset]
        omega
    have hE₄ : ({ { k₂ with mem := m }.setTable np npt' with mem := m'.memset stack 0 } : Kernel).entries =
        (k.entries.found p).linkIn (k.leaderOf p) np (k.joined p np) :=
      (entries_setTable { k₂ with mem := m } np npt').trans hE₂
    rw [hv] at hloop hstart
    exact .inr ⟨np, pt, npt', tf, stack, _, hlodges.spawns hE hp hg hfind htable hv hhosts hE₄ hloop hstart hE'⟩

end Kernel

end Xv6
