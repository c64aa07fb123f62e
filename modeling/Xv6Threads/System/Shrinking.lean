-- SUMMARY: sbrk with a negative amount: exactly for a process without threads does it give each page back once.
import Xv6Threads.Memory.Supply
import Xv6Threads.Process.Retains
import Xv6Threads.System.Groups

/-!
# Shrinking a group

The caller's table is shrunk by `uvmdealloc`, which rounds the sizes and frees
the pages. For every other member `growproc` then calls `uvmunmap`, from the
new size as it is, and with `do_free` set. So with another member in the ring
the call stops at a size that is not page aligned, and frees a page twice at a
size that is.
-/

namespace Xv6

open PageTable

namespace Kernel

variable {k k' : Kernel} {p q : Slot} {l : List Slot} {n va : Nat}

/-- The members of `l`, the team of `p`, have one size and map every page below
it, each of them the same pages. -/
structure Agree (k : Kernel) (p : Slot) (l : List Slot) : Prop where
  team : k.Team p l
  caller : p ∈ l
  limit : (k.proc p).sz ≤ trapframeVa
  table : ∀ q ∈ l, ∃ pt, (k.rooms q).table = some pt
  size : ∀ q ∈ l, (k.proc q).sz = (k.proc p).sz
  maps : ∀ q ∈ l, ∀ v < pagesBelow (k.proc p).sz, ∃ e, k.pte q v = some e ∧ k.pte p v = some e ∧ Removable k.mem e

/-- The pages that `p` maps from virtual page `lo` up to `hi`. -/
def framesOf (k : Kernel) (p : Slot) (lo hi : Nat) : List Ppn :=
  (List.range' lo (hi - lo)).filterMap fun v => (k.pte p v).map Pte.ppn

/-- `n` bytes were given back: the members have the new size, exactly the pages
between the sizes are unmapped, and each of them went to the free list once. -/
structure GivesBack (k : Kernel) (p : Slot) (l : List Slot) (n : Nat) (k' : Kernel) : Prop where
  size : ∀ q ∈ l, (k'.proc q).sz = (k.proc p).sz - n
  unmapped : ∀ q ∈ l, ∀ v, pagesBelow ((k.proc p).sz - n) ≤ v → v < pagesBelow (k.proc p).sz → k'.pte q v = none
  kept : ∀ q ∈ l, ∀ v < vpnLimit, ¬ (pagesBelow ((k.proc p).sz - n) ≤ v ∧ v < pagesBelow (k.proc p).sz) →
    k'.pte q v = k.pte q v
  freed : k'.mem.freelist.Perm
    (k.framesOf p (pagesBelow ((k.proc p).sz - n)) (pagesBelow (k.proc p).sz) ++ k.mem.freelist)
  others : ∀ q, q ∉ l → k'.rooms q = k.rooms q

/-! ## A caller without other members -/

theorem Team.alone_iff (h : k.Team p l) (hp : p ∈ l) : k.Alone p ↔ ∀ q ∈ l, q = p := by
  constructor
  · intro ha q hq
    rw [h.eq_of_alone ha] at hq
    simpa using hq
  · intro hall
    cases h with
    | single hL => exact .inl hL
    | @group L ms hL hg =>
      obtain rfl : L = p := hall L (List.mem_cons_self ..)
      have hnil : ms = [] := by
        rw [List.eq_nil_iff_forall_not_mem]
        intro q hq
        exact hg.ring.head_notMem (hall q (List.mem_cons_of_mem _ hq) ▸ hq)
      subst hnil
      exact .inr ⟨hL, hg.ring.follows⟩

/-- The weight of the pages a slot maps in a range. -/
theorem framesOf_weight {pt : PageTable} (hpt : (k.rooms p).table = some pt) (w : Ppn → Nat) (lo hi : Nat) :
    Weight.ofList w (k.framesOf p lo hi) = pt.span w lo hi := by
  obtain hle | ⟨d, rfl⟩ : hi ≤ lo ∨ ∃ d, hi = lo + d := by
    rcases Nat.le_total hi lo with h | h
    · exact .inl h
    · exact .inr ⟨hi - lo, by omega⟩
  · simp [framesOf, span, Nat.sub_eq_zero_of_le hle, Finset.Ico_eq_empty_of_le hle]
  rw [framesOf, Nat.add_sub_cancel_left]
  induction d generalizing lo with
  | zero => simp
  | succ d ih =>
    rw [List.range'_succ, span_head (by omega), show lo + (d + 1) = lo + 1 + d by omega, ← ih (lo + 1)]
    have hpte : k.pte p lo = pt.leaf lo := by rw [pte, hpt]; rfl
    cases he : pt.leaf lo with
    | none => simp [hpte, he]
    | some e => simp [hpte, he]

theorem shrinkOthers_alone (ha : k.Alone p) (va sz : Nat) : k.shrinkOthers p va sz = .ok k := by
  unfold shrinkOthers
  rcases ha with hL | ⟨hL, hnext⟩
  · rw [hL]
  · rw [hL]
    -- the ring is `p` itself
    have hloop : ∀ n va, shrinkGroup p p n va k = .ok k := by
      intro n
      induction n with
      | zero => exact fun _ => rfl
      | succ n ih =>
        intro va
        have hround : ringLoop p (fun k q => if q ≠ p then k.unmapFrom q va else .ok k) nproc p k = .ok k := by
          show ringLoop p _ (63 + 1) p k = _
          rw [ringLoop, if_neg (by simp), Except.bind_ok_iff]
          refine ⟨k, rfl, ?_⟩
          rw [hnext]
          exact if_pos rfl
        rw [shrinkGroup, hround]
        exact ih _
    exact hloop _ _

theorem shrunk_of_le (hle : n ≤ (k.proc p).sz) (hsz : (k.proc p).sz ≤ trapframeVa) :
    (((k.proc p).sz + (-(n : Int))) % wordSize).toNat = (k.proc p).sz - n := by
  have hfit : trapframeVa < wordSize := by decide
  rw [Int.emod_eq_of_lt (by omega) (by omega)]
  omega

theorem growproc_alone (h : k.Agree p l) (ha : k.Alone p) (hn : 0 < n) (hle : n ≤ (k.proc p).sz) :
    ∃ k' pt m pt', (k.rooms p).table = some pt ∧
      uvmdealloc k.mem pt (k.proc p).sz ((k.proc p).sz - n) = .ok ((k.proc p).sz - n, m, pt') ∧ k'.mem = m ∧
      k.growproc p (-n) = .ok (0, k') := by
  have hmax : (k.proc p).sz ≤ maxVa := h.limit.trans (by decide)
  obtain ⟨pt, hpt⟩ : ∃ pt, (k.proc p).pagetable = some pt := h.table p h.caller
  have hin : ∀ u, pagesBelow ((k.proc p).sz - n) ≤ u → u < pagesBelow (k.proc p).sz →
      ∃ e, pt.leaf u = some e ∧ Removable k.mem e := by
    intro u _ hu
    obtain ⟨e, he, -, hrem⟩ := h.maps p h.caller u hu
    rw [pte, show (k.rooms p).table = some pt from hpt] at he
    exact ⟨e, he, hrem⟩
  obtain ⟨m, pt', hdealloc⟩ := uvmdealloc_total hmax (Nat.sub_le _ n) hin
  have hentries := (remaps_setTable k m p pt').entries
  have halone : ({ k with mem := m }.setTable p pt').Alone p := by
    have hL : (({ k with mem := m }.setTable p pt').proc p).groupLeader = (k.proc p).groupLeader :=
      congrArg Entry.groupLeader (congrFun hentries p)
    have hN : (({ k with mem := m }.setTable p pt').proc p).groupNext = (k.proc p).groupNext :=
      congrArg Entry.groupNext (congrFun hentries p)
    rw [Alone, hL, hN]
    exact ha
  obtain ⟨k', hset⟩ := setSize_total (h.team.congr hentries) ((k.proc p).sz - n)
  refine ⟨k', pt, m, pt', hpt, hdealloc, (setSize_rooms (h.team.congr hentries) hset).2.1, ?_⟩
  simp only [growproc, hpt]
  rw [if_neg (by omega), if_neg (by omega), shrunk_of_le hle h.limit, hdealloc]
  show (shrinkOthers _ _ _ _ >>= _) = _
  rw [shrinkOthers_alone halone]
  show (setSize _ _ _ >>= _) = _
  rw [hset]
  rfl

/-! ## A caller with other members -/

/-- `uvmunmap` for one member frees one page. -/
theorem unmapFrom_length (h : k.unmapFrom q va = .ok k') :
    k'.mem.freelist.length = k.mem.freelist.length + 1 := by
  unfold unmapFrom at h
  split at h
  · cases h
  obtain ⟨⟨m, pt'⟩, hun, h⟩ := Except.bind_ok_iff.1 h
  cases h
  have hva : va % pgSize = 0 := by
    unfold uvmunmap at hun
    split at hun
    · cases hun
    · rename_i hmod
      simpa using hmod
  obtain ⟨v, rfl⟩ : ∃ v, va = v * pgSize := ⟨va / pgSize, (Nat.div_mul_cancel (Nat.dvd_of_mod_eq_zero hva)).symm⟩
  have hun := uvmunmap_free hun
  obtain ⟨-, hmapped, -⟩ := hun.inside v (Nat.le_refl _) (by omega)
  have hfreed := hun.freed fun _ => 1
  obtain ⟨e, he⟩ := Option.ne_none_iff_exists'.1 hmapped
  rw [span_succ (Nat.le_refl _), span_self, he, weighEntry_some, Mem.weigh, Mem.weigh, Weight.ofList_one,
    Weight.ofList_one, Nat.zero_add] at hfreed
  exact hfreed

/-- One round for every member frees a page for each of the others. -/
theorem unmapRound_length {ms : List Slot}
    (h : ms.foldlM (fun (k : Kernel) x => if x ≠ p then k.unmapFrom x va else .ok k) k = .ok k') :
    k.mem.freelist.length ≤ k'.mem.freelist.length ∧
      ((∃ q ∈ ms, q ≠ p) → k.mem.freelist.length < k'.mem.freelist.length) := by
  induction ms generalizing k with
  | nil =>
    rw [List.foldlM_nil, Except.pure_ok_iff] at h
    subst h
    exact ⟨Nat.le_refl _, by simp⟩
  | cons x ms ih =>
    rw [List.foldlM_cons, Except.bind_ok_iff] at h
    obtain ⟨k₁, hk₁, h⟩ := h
    obtain ⟨hle, hlt⟩ := ih h
    by_cases hx : x = p
    · rw [if_neg (by simpa using hx)] at hk₁
      cases hk₁
      refine ⟨hle, fun ⟨q, hq, hne⟩ => hlt ⟨q, ?_, hne⟩⟩
      exact (List.mem_cons.1 hq).resolve_left fun heq => hne (heq.trans hx)
    · rw [if_pos hx] at hk₁
      have := unmapFrom_length hk₁
      exact ⟨by omega, fun _ => by omega⟩

theorem unmapFor_groupNext {next : Slot → Option Slot} (hnext : ∀ x, (k.proc x).groupNext = next x)
    (h : (if q ≠ p then k.unmapFrom q va else .ok k) = .ok k') (x : Slot) : (k'.proc x).groupNext = next x := by
  split at h
  · exact (congrArg Entry.groupNext (congrFun (unmapFrom_remaps h).entries x)).trans (hnext x)
  · cases h
    exact hnext x

/-- The loops of the shrinking half free a page more than once if there is
another member. -/
theorem shrinkGroup_length {next : Slot → Option Slot} {L : Slot} {ms : List Slot} (hfollow : Follows next (next L) ms L)
    (hL : L ∉ ms) (hnext : ∀ x, (k.proc x).groupNext = next x) (h : shrinkGroup p L n va k = .ok k') :
    k.mem.freelist.length ≤ k'.mem.freelist.length ∧
      (0 < n → (∃ q ∈ L :: ms, q ≠ p) → k.mem.freelist.length < k'.mem.freelist.length) := by
  induction n generalizing k va with
  | zero =>
    cases h
    exact ⟨Nat.le_refl _, fun h => absurd h (Nat.lt_irrefl 0)⟩
  | succ n ih =>
    rw [shrinkGroup] at h
    obtain ⟨k₁, hloop, h⟩ := Except.bind_ok_iff.1 h
    have hbody : ∀ (k : Kernel) q k', (∀ x, (k.proc x).groupNext = next x) →
        (if q ≠ p then k.unmapFrom q va else .ok k) = .ok k' → ∀ x, (k'.proc x).groupNext = next x :=
      fun k q k' hn hb => unmapFor_groupNext hn hb
    have hround := unmapRound_length (ringLoop_foldlM hbody hfollow hL hnext hloop)
    have hnext₁ : ∀ x, (k₁.proc x).groupNext = next x :=
      ringLoop_invariant (P := fun k' => ∀ x, (k'.proc x).groupNext = next x)
        (fun k q k' hk hb => hbody k q k' hk hb) hnext hloop
    have hrest := (ih hnext₁ h).1
    exact ⟨hround.1.trans hrest, fun _ hq => Nat.lt_of_lt_of_le (hround.2 hq) hrest⟩

/-- `growproc` with other members in the ring leaves more on the free list than
the pages of the caller. -/
theorem growproc_length {pt : PageTable} {r : Int} (h : k.Agree p l) (hpt : (k.rooms p).table = some pt)
    (hq : ∃ q ∈ l, q ≠ p) (hn : 0 < n) (hle : n ≤ (k.proc p).sz) (hgrow : k.growproc p (-n) = .ok (r, k')) :
    k.mem.freelist.length + (pagesBelow (k.proc p).sz - pagesBelow ((k.proc p).sz - n)) < k'.mem.freelist.length := by
  have hpt' : (k.proc p).pagetable = some pt := hpt
  simp only [growproc, hpt'] at hgrow
  rw [if_neg (by omega), if_neg (by omega), shrunk_of_le hle h.limit] at hgrow
  obtain ⟨⟨newsz, m, pt'⟩, hdealloc, hgrow⟩ := Except.bind_ok_iff.1 hgrow
  obtain ⟨hnew, hun⟩ := uvmdealloc_ok (h.limit.trans (by decide)) hdealloc
  obtain rfl : newsz = (k.proc p).sz - n := by omega
  -- the pages of the caller
  have hm : m.freelist.length =
      k.mem.freelist.length + (pagesBelow (k.proc p).sz - pagesBelow ((k.proc p).sz - n)) := by
    have hfreed := hun.freed fun _ => 1
    have hspan : pt.span (fun _ => 1) (pagesBelow ((k.proc p).sz - n)) (pagesBelow (k.proc p).sz) =
        pagesBelow (k.proc p).sz - pagesBelow ((k.proc p).sz - n) := by
      rw [span, Finset.sum_congr rfl fun v hv => ?_, Finset.sum_const, Nat.card_Ico, smul_eq_mul, Nat.mul_one]
      obtain ⟨e, he⟩ := Option.ne_none_iff_exists'.1 (hun.inside v (Finset.mem_Ico.1 hv).1 (Finset.mem_Ico.1 hv).2).2.1
      rw [he, weighEntry_some]
    rwa [hspan, Mem.weigh, Mem.weigh, Weight.ofList_one, Weight.ofList_one] at hfreed
  have hentries := (remaps_setTable k m p pt').entries
  obtain ⟨k₂, hshrink, hgrow⟩ := Except.bind_ok_iff.1 hgrow
  obtain ⟨k₃, hset, hgrow⟩ := Except.bind_ok_iff.1 hgrow
  cases hgrow
  have hmem₃ : k'.mem = k₂.mem := (setSize_rooms ((h.team.congr hentries).congr (shrinkOthers_remaps hshrink).entries) hset).2.1
  rw [hmem₃, ← hm]
  obtain ⟨q, hq, hne⟩ := hq
  -- and one more for another member
  unfold shrinkOthers at hshrink
  cases h.team.congr hentries with
  | single hL => exact absurd (by simpa using hq) hne
  | @group L ms hL hg =>
    rw [hL] at hshrink
    have hlen := shrinkGroup_length hg.ring.follows hg.ring.head_notMem (fun _ => rfl) hshrink
    refine hlen.2 ?_ ⟨q, hq, hne⟩
    simp only [pagesBelow, pgSize]
    omega

/-! ## The condition -/

/-- `growproc(-n)` by a member gives `n` bytes back if and only if there is no
other member. -/
theorem growproc_givesBack_iff (h : k.Agree p l) (hn : 0 < n) (hle : n ≤ (k.proc p).sz) :
    (∃ k', k.growproc p (-n) = .ok (0, k') ∧ k.GivesBack p l n k') ↔ ∀ q ∈ l, q = p := by
  rw [← h.team.alone_iff h.caller]
  constructor
  · rintro ⟨k', hgrow, hback⟩
    rw [h.team.alone_iff h.caller]
    by_contra hother
    have hq : ∃ q ∈ l, q ≠ p := by simpa using hother
    obtain ⟨pt, hpt⟩ := h.table p h.caller
    have hlen := growproc_length h hpt hq hn hle hgrow
    have hfreed := hback.freed.length_eq
    have hframes : (k.framesOf p (pagesBelow ((k.proc p).sz - n)) (pagesBelow (k.proc p).sz)).length ≤
        pagesBelow (k.proc p).sz - pagesBelow ((k.proc p).sz - n) := by
      have := List.length_filterMap_le (fun v => (k.pte p v).map Pte.ppn)
        (List.range' (pagesBelow ((k.proc p).sz - n)) (pagesBelow (k.proc p).sz - pagesBelow ((k.proc p).sz - n)))
      simpa [framesOf] using this
    rw [List.length_append] at hfreed
    omega
  · intro ha
    obtain ⟨k', pt₀, m, pt₁, htable, hdealloc, hmem, hgrow⟩ := growproc_alone h ha hn hle
    have hun := (uvmdealloc_ok (h.limit.trans (by decide)) hdealloc).2
    refine ⟨k', hgrow, ?_⟩
    obtain rfl := h.team.eq_of_alone ha
    obtain ⟨pt, pt', lo, hi, hs⟩ := growproc_shrinks (by omega) h.team ha h.limit hgrow
    have hnew : k.shrunk p (-n) = (k.proc p).sz - n := by
      have hmin : k.shrunk p (-n) = min (k.proc p).sz ((((k.proc p).sz + (-(n : Int))) % wordSize).toNat) := rfl
      rw [hmin, shrunk_of_le hle h.limit]
      omega
    obtain rfl : lo = pagesBelow ((k.proc p).sz - n) := hnew ▸ hs.start
    obtain rfl : hi = pagesBelow (k.proc p).sz := hs.stop
    have hpte : ∀ v, k'.pte p v = pt'.leaf v := fun v => by
      rw [pte, hs.rooms, Function.update_self]
      rfl
    have hpte₀ : ∀ v, k.pte p v = pt.leaf v := fun v => by
      rw [pte, hs.table]
      rfl
    refine ⟨?_, ?_, ?_, ?_, fun q hq => ?_⟩
    · rintro q hq
      obtain rfl : q = p := by simpa using hq
      have := congrArg Room.size (congrFun hs.rooms q)
      rw [Function.update_self, hnew] at this
      exact this
    · rintro q hq v hv hv'
      obtain rfl : q = p := by simpa using hq
      rw [hpte]
      exact (hs.inside v hv hv').2
    · rintro q hq v hv hout
      obtain rfl : q = p := by simpa using hq
      rw [hpte, hpte₀]
      exact hs.outside v hv hout
    · refine Weight.perm_of_ofList fun w => ?_
      have hfreed := hun.freed w
      rw [Weight.ofList_append, framesOf_weight htable, hmem, Nat.add_comm]
      exact hfreed
    · rw [hs.rooms, Function.update_of_ne (by simpa using hq)]

/-! ## Reachable states -/

/-- A test for `Agree`, over all slots that name the leader of `p`. -/
def agrees (k : Kernel) (p : Slot) : Bool :=
  decide ((k.proc p).sz ≤ trapframeVa ∧ (k.proc p).state = .running ∧
    ∀ q, q = p ∨ ((k.proc p).groupLeader ≠ none ∧ (k.proc q).groupLeader = (k.proc p).groupLeader) →
      (k.rooms q).table.isSome ∧ (k.proc q).sz = (k.proc p).sz ∧
        ∀ v < pagesBelow (k.proc p).sz, ∃ e ∈ k.pte p v, k.pte q v = some e ∧ Removable k.mem e)

theorem agree_of_agrees (hE : k.entries.WellGrouped) (h : k.agrees p = true) : ∃ l, k.Agree p l := by
  obtain ⟨hlim, hrun, hall⟩ := of_decide_eq_true h
  have hp : (k.proc p).state.phase = .active := by rw [hrun]; rfl
  obtain ⟨l, ht⟩ := exists_team hE hp
  have hnear : ∀ q ∈ l, q = p ∨ ((k.proc p).groupLeader ≠ none ∧ (k.proc q).groupLeader = (k.proc p).groupLeader) := by
    intro q hq
    cases ht with
    | single => exact .inl (by simpa using hq)
    | group hL hg =>
      have hqL : (k.proc q).groupLeader = some _ := ((hg.mem_iff q).1 hq).1
      exact .inr ⟨by simp [hL], hqL.trans hL.symm⟩
  refine ⟨l, ht, ht.mem hp, hlim, fun q hq => Option.isSome_iff_exists.1 (hall q (hnear q hq)).1,
    fun q hq => (hall q (hnear q hq)).2.1, fun q hq v hv => ?_⟩
  obtain ⟨e, he, heq, hrem⟩ := (hall q (hnear q hq)).2.2 v hv
  exact ⟨e, heq, he, hrem⟩

end Kernel

/-- The first process gives back its page. -/
theorem growproc_givesBack_of_one : ∃ k : Kernel, Reachable .standard k ∧ k.Agree ⟨0, by decide⟩ [⟨0, by decide⟩] ∧
    ∃ k', k.growproc ⟨0, by decide⟩ (-(4096 : Nat)) = .ok (0, k') ∧ k.GivesBack ⟨0, by decide⟩ [⟨0, by decide⟩] 4096 k' := by
  have hrun : (Boot.standard.run anyStep [.schedule ⟨0, by decide⟩]).any
      (fun k => k.agrees ⟨0, by decide⟩ ∧ (k.proc ⟨0, by decide⟩).groupLeader = none ∧
        4096 ≤ (k.proc ⟨0, by decide⟩).sz) = true := by decide +kernel
  obtain ⟨k, hk, hc⟩ := exists_reaches_of_run hrun
  obtain ⟨hagrees, hL, hsz⟩ := of_decide_eq_true hc
  obtain ⟨l, hag⟩ := Kernel.agree_of_agrees (wellGrouped_of_reaches hk) hagrees
  obtain rfl := hag.team.eq_of_alone (.inl hL)
  exact ⟨k, hk, hag, (Kernel.growproc_givesBack_iff hag (by decide) hsz).2 (by simp)⟩

/-- A process with one thread gives back 100 bytes, and the kernel stops in
`uvmunmap`. -/
theorem growproc_givesBack_of_two : ¬ ∀ (b : Boot) (k : Kernel) (p : Slot) (l : List Slot) (n : Nat), Reachable b k →
    k.Agree p l → 0 < n → n ≤ (k.proc p).sz → ∃ k', k.growproc p (-n) = .ok (0, k') ∧ k.GivesBack p l n k' := by
  intro hall
  have hrun : (Boot.standard.run anyStep
      [.schedule ⟨0, by decide⟩, .call ⟨0, by decide⟩ (.threadCreate 0 0)]).any
      (fun k => k.agrees ⟨0, by decide⟩ ∧ 100 ≤ (k.proc ⟨0, by decide⟩).sz ∧
        (match k.growproc ⟨0, by decide⟩ (-(100 : Nat)) with | .ok _ => false | .error _ => true) = true) = true := by
    decide +kernel
  obtain ⟨k, hk, hc⟩ := exists_reaches_of_run hrun
  obtain ⟨hagrees, hsz, hpanic⟩ := of_decide_eq_true hc
  obtain ⟨l, hag⟩ := Kernel.agree_of_agrees (wellGrouped_of_reaches hk) hagrees
  obtain ⟨k', hgrow, -⟩ := hall _ k _ l 100 hk hag (by decide) hsz
  rw [hgrow] at hpanic
  cases hpanic

end Xv6
