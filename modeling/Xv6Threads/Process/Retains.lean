-- SUMMARY: What the calls keep of the pages that slots have mapped, and what sizes they leave.
import Xv6Threads.Process.Shortage

/-!
# Pages that stay

`mappages` never replaces an entry and `uvmunmap` removes the range it is given
only, whatever the alignment. So `sbrk` with a positive amount and
`thread_create` keep every mapping of every slot, and `sbrk` with a negative
amount keeps the pages below the new size. `KeepsPages S n` says this for the
slots in `S` and the pages below `n`.
-/

namespace Xv6

open PageTable

namespace Kernel

variable {k k' k'' : Kernel} {p q np L : Slot} {l : List Slot} {S : Slot → Prop} {n v : Nat}

/-- What the slots in `S` map below page `n` stays mapped. -/
def KeepsPages (S : Slot → Prop) (n : Nat) (k k' : Kernel) : Prop :=
  ∀ q, S q → ∀ v < n, ∀ e, k.pte q v = some e → k'.pte q v = some e

def KeepsSizes (S : Slot → Prop) (k k' : Kernel) : Prop := ∀ q, S q → (k'.proc q).sz = (k.proc q).sz

theorem KeepsPages.refl (k : Kernel) : KeepsPages S n k k := fun _ _ _ _ _ h => h

theorem KeepsPages.trans (h : KeepsPages S n k k') (h' : KeepsPages S n k' k'') : KeepsPages S n k k'' :=
  fun q hq v hv e he => h' q hq v hv e (h q hq v hv e he)

theorem KeepsPages.mono {T : Slot → Prop} {m : Nat} (h : KeepsPages S n k k') (hT : ∀ q, T q → S q)
    (hm : m ≤ n) : KeepsPages T m k k' :=
  fun q hq v hv e he => h q (hT q hq) v (Nat.lt_of_lt_of_le hv hm) e he

theorem KeepsSizes.refl (k : Kernel) : KeepsSizes S k k := fun _ _ => rfl

theorem KeepsSizes.trans (h : KeepsSizes S k k') (h' : KeepsSizes S k' k'') : KeepsSizes S k k'' :=
  fun q hq => (h' q hq).trans (h q hq)

theorem keepsPages_of_tables (h : ∀ q, S q → (k'.rooms q).table = (k.rooms q).table) :
    KeepsPages S n k k' := by
  intro q hq v _ e he
  rwa [pte, h q hq]

theorem keepsPages_of_rooms (h : ∀ q, S q → k'.rooms q = k.rooms q) : KeepsPages S n k k' :=
  keepsPages_of_tables fun q hq => by rw [h q hq]

theorem keepsSizes_of_rooms (h : ∀ q, S q → k'.rooms q = k.rooms q) : KeepsSizes S k k' :=
  fun q hq => congrArg Room.size (h q hq)

/-! ## One table -/

theorem setTable_rooms (k : Kernel) (m : Mem) (p : Slot) (pt : PageTable) :
    ({ k with mem := m }.setTable p pt).rooms =
      Function.update k.rooms p { k.rooms p with table := some pt } := by
  rw [setTable, rooms_modify]
  rfl

theorem setTable_keepsPages {m : Mem} {pt pt' : PageTable} (hpt : (k.proc q).pagetable = some pt)
    (h : ∀ v < n, ∀ e, pt.leaf v = some e → pt'.leaf v = some e) :
    KeepsPages S n k ({ k with mem := m }.setTable q pt') := by
  intro x _ v hv e he
  rw [pte, setTable_rooms]
  by_cases hx : x = q
  · subst hx
    rw [Function.update_self]
    rw [pte, show (k.rooms x).table = some pt from hpt] at he
    exact h v hv e he
  · rw [Function.update_of_ne hx]
    exact he

theorem setTable_keepsSizes (k : Kernel) (m : Mem) (p : Slot) (pt : PageTable) :
    KeepsSizes S k ({ k with mem := m }.setTable p pt) := by
  intro q _
  rw [setTable, modify_proc]
  split <;> rfl

theorem mapInto_keeps {va : Nat} {pa : Ppn} {perm : Perm} {c : Bool}
    (h : k.mapInto q va pa perm = .ok (c, k')) :
    KeepsPages S vpnLimit k k' ∧ KeepsSizes S k k' := by
  unfold mapInto at h
  split at h
  · cases h
  · rename_i pt hpt
    obtain ⟨⟨mapped, m, pt'⟩, hmap, h⟩ := Except.bind_ok_iff.1 h
    cases h
    exact ⟨setTable_keepsPages hpt fun v hv e he => mappages_kept hmap hv he, setTable_keepsSizes _ _ _ _⟩

/-- Unmapping one page keeps those below it. -/
theorem unmapFrom_keeps {va : Nat} (hlim : n ≤ vpnLimit) (hn : n * pgSize ≤ va) (h : k.unmapFrom q va = .ok k') :
    KeepsPages S n k k' ∧ KeepsSizes S k k' := by
  unfold unmapFrom at h
  split at h
  · cases h
  · rename_i pt hpt
    obtain ⟨⟨m, pt'⟩, hun, h⟩ := Except.bind_ok_iff.1 h
    cases h
    refine ⟨setTable_keepsPages hpt fun v hv e he => ?_, setTable_keepsSizes _ _ _ _⟩
    have hva : va % pgSize = 0 := by
      unfold uvmunmap at hun
      split at hun
      · cases hun
      · rename_i hmod
        simpa using hmod
    have hdiv : va = va / pgSize * pgSize := by
      simp only [pgSize] at *
      omega
    rw [hdiv] at hun
    rw [(uvmunmap_free hun).outside v (Nat.lt_of_lt_of_le hv hlim) fun hin => ?_]
    · exact he
    · have hle := Nat.mul_le_mul_right pgSize hin.1
      have hlt := Nat.mul_lt_mul_of_pos_right hv (show 0 < pgSize by decide)
      omega

/-! ## Loops over a group -/

theorem mapOther_keeps {va : Nat} {pa : Ppn} {c : Bool} (h : k.mapOther p q va pa = .ok (c, k')) :
    KeepsPages S vpnLimit k k' ∧ KeepsSizes S k k' := by
  unfold mapOther at h
  split at h
  · exact mapInto_keeps h
  · cases h
    exact ⟨.refl _, .refl _⟩

theorem growMembers_keeps {va : Nat} {pa : Ppn} {i : Nat} {c : Bool}
    (h : growMembers p L va pa i q k = .ok (c, k')) : KeepsPages S vpnLimit k k' ∧ KeepsSizes S k k' := by
  induction i generalizing k q with
  | zero => cases h
  | succ i ih =>
    rw [growMembers] at h
    obtain ⟨⟨mapped, k₁⟩, hmap, h⟩ := Except.bind_ok_iff.1 h
    have hk := mapOther_keeps (S := S) hmap
    dsimp only at h
    split at h
    · cases h
      exact hk
    · split at h
      · cases h
      · split at h
        · cases h
          exact hk
        · have hrest := ih h
          exact ⟨hk.1.trans hrest.1, hk.2.trans hrest.2⟩

theorem growGroup_keeps {va i : Nat} {c : Bool} (h : growGroup p L i va k = .ok (c, k')) :
    KeepsPages S vpnLimit k k' ∧ KeepsSizes S k k' := by
  induction i generalizing k va with
  | zero =>
    cases h
    exact ⟨.refl _, .refl _⟩
  | succ i ih =>
    rw [growGroup] at h
    split at h
    · cases h
    obtain ⟨pa, -, h⟩ := Except.bind_ok_iff.1 h
    obtain ⟨⟨mapped, k₁⟩, hgrow, h⟩ := Except.bind_ok_iff.1 h
    have hk := growMembers_keeps (S := S) hgrow
    dsimp only at h
    split at h
    · cases h
      exact hk
    · have hrest := ih h
      exact ⟨hk.1.trans hrest.1, hk.2.trans hrest.2⟩

theorem growOthers_keeps {va sz : Nat} {c : Bool} (h : k.growOthers p va sz = .ok (c, k')) :
    KeepsPages S vpnLimit k k' ∧ KeepsSizes S k k' := by
  unfold growOthers at h
  split at h
  · cases h
    exact ⟨.refl _, .refl _⟩
  · exact growGroup_keeps h

theorem shrinkGroup_keeps {va i : Nat} (hlim : n ≤ vpnLimit) (hn : n * pgSize ≤ va)
    (h : shrinkGroup p L i va k = .ok k') : KeepsPages S n k k' ∧ KeepsSizes S k k' := by
  induction i generalizing k va with
  | zero =>
    cases h
    exact ⟨.refl _, .refl _⟩
  | succ i ih =>
    rw [shrinkGroup] at h
    obtain ⟨k₁, hloop, h⟩ := Except.bind_ok_iff.1 h
    have hk : KeepsPages S n k k₁ ∧ KeepsSizes S k k₁ := by
      refine ringLoop_invariant (P := fun k' => KeepsPages S n k k' ∧ KeepsSizes S k k') ?_
        ⟨.refl k, .refl k⟩ hloop
      intro k₂ q k₃ hk₂ hbody
      split at hbody
      · have hone := unmapFrom_keeps (S := S) hlim hn hbody
        exact ⟨hk₂.1.trans hone.1, hk₂.2.trans hone.2⟩
      · cases hbody
        exact hk₂
    have hrest := ih (by omega) h
    exact ⟨hk.1.trans hrest.1, hk.2.trans hrest.2⟩

theorem shrinkOthers_keeps {va sz : Nat} (hlim : n ≤ vpnLimit) (hn : n * pgSize ≤ va)
    (h : k.shrinkOthers p va sz = .ok k') : KeepsPages S n k k' ∧ KeepsSizes S k k' := by
  unfold shrinkOthers at h
  split at h
  · cases h
    exact ⟨.refl _, .refl _⟩
  · exact shrinkGroup_keeps hlim hn h

theorem unmapFrom_outside {va : Nat} (h : k.unmapFrom p va = .ok k') (hq : q ≠ p) : k'.rooms q = k.rooms q := by
  unfold unmapFrom at h
  split at h
  · cases h
  · obtain ⟨⟨m, pt'⟩, -, h⟩ := Except.bind_ok_iff.1 h
    cases h
    rw [setTable_rooms, Function.update_of_ne hq]

/-- Only members of the group are unmapped from. -/
theorem shrinkGroup_outside {next : Slot → Option Slot} {ms : List Slot} {va i : Nat}
    (hfollow : Follows next (next L) ms L) (hL : L ∉ ms) (hnext : ∀ x, (k.proc x).groupNext = next x)
    (h : shrinkGroup p L i va k = .ok k') (hq : q ∉ L :: ms) : k'.rooms q = k.rooms q := by
  induction i generalizing k va with
  | zero =>
    cases h
    rfl
  | succ i ih =>
    rw [shrinkGroup] at h
    obtain ⟨k₁, hloop, h⟩ := Except.bind_ok_iff.1 h
    have hbody : ∀ {k k' : Kernel} {x : Slot}, (if x ≠ p then k.unmapFrom x va else .ok k) = .ok k' →
        k.Remaps k' := by
      intro k k' x hb
      split at hb
      · exact unmapFrom_remaps hb
      · cases hb
        exact .refl _
    have hkeep : ∀ {k k' : Kernel}, k.Remaps k' → (∀ x, (k.proc x).groupNext = next x) →
        ∀ x, (k'.proc x).groupNext = next x := fun hr hn x =>
      (congrArg Entry.groupNext (congrFun hr.entries x)).trans (hn x)
    have hfold := ringLoop_foldlM (fun _ _ _ hn hb => hkeep (hbody hb) hn) hfollow hL hnext hloop
    have hone : k₁.rooms q = k.rooms q := by
      refine Except.foldlM_invariant (P := fun k' => k'.rooms q = k.rooms q) ?_ rfl hfold
      intro x hx k₂ k₃ hk₂ hb
      split at hb
      · have hqx : q ≠ x := fun heq => hq (heq ▸ hx)
        rw [unmapFrom_outside hb hqx]
        exact hk₂
      · cases hb
        exact hk₂
    have hnext₁ := hkeep (ringLoop_remaps (fun _ _ _ hb => hbody hb) hloop) hnext
    rw [ih hnext₁ h, hone]

theorem shrinkOthers_outside {va sz : Nat} (ht : k.Team p l) (h : k.shrinkOthers p va sz = .ok k')
    (hq : q ∉ l) : k'.rooms q = k.rooms q := by
  unfold shrinkOthers at h
  cases ht with
  | single hp =>
    rw [hp] at h
    cases h
    rfl
  | group hp hg =>
    rw [hp] at h
    exact shrinkGroup_outside hg.ring.follows hg.ring.head_notMem (fun _ => rfl) h hq

/-! ## sbrk -/

/-- `setSize` writes the size of the members and nothing else. -/
theorem setSize_sizes {sz : Nat} (ht : k.Team p l) (h : k.setSize p sz = .ok k') :
    KeepsPages S n k k' ∧ ∀ q, (k'.proc q).sz = if q ∈ l then sz else (k.proc q).sz := by
  obtain ⟨hrooms, -, -⟩ := setSize_rooms ht h
  refine ⟨keepsPages_of_tables fun q _ => ?_, fun q => ?_⟩
  · rw [hrooms q]
    split <;> rfl
  · have hq := congrArg Room.size (hrooms q)
    split at hq
    · rename_i hmem
      rw [if_pos hmem]
      exact hq
    · rename_i hmem
      rw [if_neg hmem]
      exact hq

/-- What `sbrk` by `p` with team `l` has done: with result -1 no size changed,
otherwise all members have the new one. -/
structure Resizes (k : Kernel) (l : List Slot) (sz : Nat) (r : Int) (k' : Kernel) : Prop where
  failed : r < 0 → KeepsSizes (fun _ => True) k k'
  done : ¬ r < 0 → ∀ q, (k'.proc q).sz = if q ∈ l then sz else (k.proc q).sz

theorem growproc_pos {i r : Int} (hi : 0 < i) (hi' : i < 2 ^ 31) (ht : k.Team p l)
    (hsize : (k.proc p).sz ≤ maxVa) (h : k.growproc p i = .ok (r, k')) :
    KeepsPages (fun _ => True) vpnLimit k k' ∧ k.Resizes l ((k.proc p).sz + i.toNat) r k' ∧
      (¬ r < 0 → (k.proc p).sz + i.toNat ≤ maxVa) := by
  simp only [growproc] at h
  rw [if_neg (by omega)] at h
  split at h
  · cases h
  rename_i pt hpt
  rw [if_pos hi] at h
  obtain ⟨⟨newsz, m, pt'⟩, halloc, h⟩ := Except.bind_ok_iff.1 h
  obtain ⟨top, hmaps, hres⟩ := uvmalloc_ok hsize halloc
  have hfit : maxVa + 2 ^ 31 < wordSize := by decide
  have hsum : (((k.proc p).sz + i) % wordSize).toNat = (k.proc p).sz + i.toNat := by
    rw [Int.emod_eq_of_lt (by omega) (by omega)]
    omega
  rw [hsum] at hres
  have hpages : KeepsPages (fun _ => True) vpnLimit k ({ k with mem := m }.setTable p pt') := by
    refine setTable_keepsPages hpt fun v hv e he => ?_
    rw [hmaps.outside v hv fun hin => ?_]
    · exact he
    · rw [(hmaps.inside v hin.1 hin.2).2.1] at he
      cases he
  have hsizes : KeepsSizes (fun _ => True) k ({ k with mem := m }.setTable p pt') :=
    setTable_keepsSizes _ _ _ _
  have hentries : ({ k with mem := m }.setTable p pt').entries = k.entries :=
    (remaps_setTable k m p pt').entries
  generalize { k with mem := m }.setTable p pt' = k₁ at h hpages hsizes hentries
  dsimp only at h
  split at h
  · cases h
    exact ⟨hpages, ⟨fun _ => hsizes, fun hr => absurd (by decide) hr⟩, fun hr => absurd (by decide) hr⟩
  rename_i hnz
  obtain ⟨⟨mapped, k₂⟩, hothers, h⟩ := Except.bind_ok_iff.1 h
  obtain ⟨hpages₂, hsizes₂⟩ := growOthers_keeps (S := fun _ => True) hothers
  have hentries₂ := (growOthers_remaps hothers).entries
  dsimp only at h
  split at h
  · cases h
    exact ⟨hpages.trans hpages₂, ⟨fun _ => hsizes.trans hsizes₂, fun hr => absurd (by decide) hr⟩,
      fun hr => absurd (by decide) hr⟩
  · obtain ⟨k₃, hset, h⟩ := Except.bind_ok_iff.1 h
    cases h
    obtain ⟨hpages₃, hsizes₃⟩ := setSize_sizes (S := fun _ => True) (n := vpnLimit)
      (ht.congr (hentries₂.trans hentries)) hset
    obtain ⟨hnew, htop⟩ : newsz = (k.proc p).sz + i.toNat ∧ top = pagesBelow newsz := by
      rcases hres with ⟨hr, ht⟩ | ⟨hr, -⟩
      · have hnew := hr.trans (Nat.max_eq_right (Nat.le_add_right _ _))
        have hmono := pagesBelow_mono (Nat.le_add_right (k.proc p).sz i.toNat)
        exact ⟨hnew, by rw [hnew, ht, Nat.max_eq_right hmono]⟩
      · exact absurd hr hnz
    refine ⟨(hpages.trans hpages₂).trans hpages₃, ⟨fun hr => absurd hr (by decide), fun _ q => ?_⟩, fun _ => ?_⟩
    · rw [hsizes₃ q, hnew, hsizes₂ q trivial, hsizes q trivial]
    · -- the last page was mapped below the end of the address space
      rw [← hnew]
      have hlow : pagesBelow (k.proc p).sz * pgSize ≤ maxVa := by
        simp only [pagesBelow, pgSize, maxVa] at *
        omega
      have hle : newsz ≤ pagesBelow newsz * pgSize := by
        simp only [pagesBelow, pgSize]
        omega
      rcases hmaps.le_maxVa hlow with hmax | hlt
      · rw [htop] at hmax
        omega
      · have := pagesBelow_mono (show (k.proc p).sz ≤ newsz by omega)
        omega

theorem growproc_neg {i r : Int} (hi : i < 0) (ht : k.Team p l) (hpl : p ∈ l) (hsize : (k.proc p).sz ≤ maxVa)
    (h : k.growproc p i = .ok (r, k')) :
    r = 0 ∧ KeepsPages (fun _ => True) (k.shrunk p i / pgSize) k k' ∧ (∀ q, q ∉ l → k'.rooms q = k.rooms q) ∧
      ∀ q, (k'.proc q).sz = if q ∈ l then k.shrunk p i else (k.proc q).sz := by
  simp only [growproc] at h
  rw [if_neg (by omega)] at h
  split at h
  · cases h
  rename_i pt hpt
  rw [if_neg (by omega)] at h
  obtain ⟨⟨newsz, m, pt'⟩, hdealloc, h⟩ := Except.bind_ok_iff.1 h
  obtain ⟨hnew, hun⟩ := uvmdealloc_ok hsize hdealloc
  have hnew' : newsz = k.shrunk p i := hnew
  have hlim : newsz / pgSize ≤ vpnLimit := by
    have hle : newsz ≤ maxVa := by omega
    simp only [pgSize, vpnLimit, maxVa] at *
    omega
  have hlow : newsz / pgSize ≤ pagesBelow newsz := by
    simp only [pagesBelow, pgSize]
    omega
  have hpages : KeepsPages (fun _ => True) (newsz / pgSize) k ({ k with mem := m }.setTable p pt') := by
    refine setTable_keepsPages hpt fun v hv e he => ?_
    rw [hun.outside v (Nat.lt_of_lt_of_le hv hlim) fun hin => by omega]
    exact he
  have hsizes : KeepsSizes (fun _ => True) k ({ k with mem := m }.setTable p pt') :=
    setTable_keepsSizes _ _ _ _
  have hentries : ({ k with mem := m }.setTable p pt').entries = k.entries :=
    (remaps_setTable k m p pt').entries
  have hout : ∀ q, q ∉ l → ({ k with mem := m }.setTable p pt').rooms q = k.rooms q := fun q hq => by
    have hqp : q ≠ p := fun heq => hq (heq ▸ hpl)
    rw [setTable_rooms, Function.update_of_ne hqp]
  generalize { k with mem := m }.setTable p pt' = k₁ at h hpages hsizes hentries hout
  obtain ⟨k₂, hothers, h⟩ := Except.bind_ok_iff.1 h
  obtain ⟨hpages₂, hsizes₂⟩ := shrinkOthers_keeps (S := fun _ => True) hlim
    (Nat.div_mul_le_self newsz pgSize) hothers
  have hentries₂ := (shrinkOthers_remaps hothers).entries
  obtain ⟨k₃, hset, h⟩ := Except.bind_ok_iff.1 h
  cases h
  obtain ⟨hpages₃, hsizes₃⟩ := setSize_sizes (S := fun _ => True) (n := newsz / pgSize)
    (ht.congr (hentries₂.trans hentries)) hset
  rw [← hnew']
  refine ⟨rfl, (hpages.trans hpages₂).trans hpages₃, fun q hq => ?_, fun q => ?_⟩
  · have hset' := (setSize_rooms (ht.congr (hentries₂.trans hentries)) hset).1 q
    rw [hset', if_neg hq, shrinkOthers_outside (ht.congr hentries) hothers hq, hout q hq]
  · rw [hsizes₃ q, hsizes₂ q trivial, hsizes q trivial]

/-! ## thread_create -/

theorem mapStack_keeps {curr : Nat} {stack : Ppn} (h : mapStack curr stack k q = .ok k') :
    KeepsPages S vpnLimit k k' ∧
      ∀ x, (k'.proc x).sz = if x = q then curr + pgSize else (k.proc x).sz := by
  obtain ⟨⟨b, k₁⟩, hmap, h⟩ := Except.bind_ok_iff.1 h
  cases h
  obtain ⟨hpages, -⟩ := mapInto_keeps (S := S) hmap
  obtain ⟨-, hsizes⟩ := mapInto_keeps (S := fun _ => True) hmap
  refine ⟨KeepsPages.trans (keepsPages_of_tables fun x _ => ?_) hpages, fun x => ?_⟩
  · rw [rooms_modify]
    by_cases hx : x = q
    · subst hx
      rw [Function.update_self]
      rfl
    · rw [Function.update_of_ne hx]
  · rw [hsizes x trivial, modify_proc]
    split <;> rfl

theorem mapStacks_keeps {curr : Nat} {stack : Ppn} (h : l.foldlM (mapStack curr stack) k = .ok k') :
    KeepsPages S vpnLimit k k' ∧
      ∀ x, (k'.proc x).sz = if x ∈ l then curr + pgSize else (k.proc x).sz := by
  induction l generalizing k with
  | nil =>
    rw [List.foldlM_nil, Except.pure_ok_iff] at h
    subst h
    exact ⟨.refl _, fun x => by simp⟩
  | cons q l ih =>
    rw [List.foldlM_cons, Except.bind_ok_iff] at h
    obtain ⟨k₁, hone, h⟩ := h
    obtain ⟨hpages, hsizes⟩ := mapStack_keeps (S := S) hone
    obtain ⟨hpages', hsizes'⟩ := ih h
    refine ⟨hpages.trans hpages', fun x => ?_⟩
    rw [hsizes' x, hsizes x]
    by_cases hx : x = q
    · subst hx; simp
    · simp [hx]

/-- When the table has its page, the stack is mapped. -/
theorem mapStack_maps {stack : Ppn} {pt pt' : PageTable} {m : Mem} (hpt : (k.proc q).pagetable = some pt)
    (hmap : PageTable.mappages k.mem pt (v * pgSize) pgSize stack permUser = .ok (true, m, pt'))
    (h : mapStack (v * pgSize) stack k q = .ok k') : k'.pte q v = some ⟨stack, permUser⟩ := by
  obtain ⟨⟨b, k₁⟩, hinto, h⟩ := Except.bind_ok_iff.1 h
  cases h
  unfold mapInto at hinto
  have hpt' : ((k.modify q fun pr => { pr with sz := v * pgSize + pgSize }).proc q).pagetable = some pt := by
    rw [modify_proc_same]
    exact hpt
  rw [hpt'] at hinto
  dsimp only at hinto
  rw [show (k.modify q fun pr => { pr with sz := v * pgSize + pgSize }).mem = k.mem from rfl, hmap] at hinto
  obtain ⟨-, -, -, -, ⟨-, -, hsome⟩ | ⟨hf, -⟩⟩ := mappages_page hmap
  · cases hinto
    rw [pte, setTable_rooms, Function.update_self]
    exact hsome
  · cases hf

/-- A slot was found and has pages of its own; the other slots are left alone. -/
theorem allocproc_rooms {o : Option Slot} (h : k.allocproc = .ok (o, k')) (hq : k.findUnused ≠ some q) :
    k'.rooms q = k.rooms q := by
  have hupdate : ∀ {np : Slot} {m : Mem} {i : Int} {pr : Proc}, k.findUnused = some np →
      rooms { k with mem := m, nextpid := i, proc := Function.update k.proc np pr } q = k.rooms q := by
    intro np m i pr hfind
    have hne : q ≠ np := fun heq => hq (heq ▸ hfind)
    simp [rooms, hne]
  cases o with
  | none =>
    rcases allocproc_none h with ⟨-, rfl⟩ | ⟨np, m, hfind, -, rfl⟩
    · rfl
    · exact hupdate hfind
  | some np =>
    obtain ⟨hfind, tf, m, pt, m', -, -, rfl⟩ := allocproc_some h
    exact hupdate hfind

/-- What `thread_create` by `p` with team `l` has done: it made no thread, or
one in slot `np`, and all members have the new size. -/
structure Enrols (k : Kernel) (p : Slot) (l : List Slot) (np : Slot) (k' : Kernel) : Prop where
  slot : k.findUnused = some np
  pages : KeepsPages (· ≠ np) vpnLimit k k'
  size : ∀ q, (k'.proc q).sz = if q = np ∨ q ∈ l then (k.proc p).sz + pgSize else (k.proc q).sz
  entries : ∃ L x, k'.entries np = x ∧ x.phase = .active ∧ x.isThread = true ∧ x.groupLeader = some L ∧
    L = k.leaderOf p
  stack : (k.proc p).sz % pgSize = 0 → k.lacksTable p = false →
    (k.proc p).sz < maxVa ∧ ∃ f, k'.pte np ((k.proc p).sz / pgSize) = some ⟨f, permUser⟩

theorem threadCreate_keeps {start arg : Nat} {r : Int} (hE : k.entries.WellGrouped)
    (hp : (k.proc p).state.phase = .active) (ht : k.Team p l)
    (h : k.threadCreate p start arg = .ok (r, k')) :
    ((∀ q, k.findUnused ≠ some q → k'.rooms q = k.rooms q) ∧
      ∀ q, k.findUnused = some q → (k'.entries q).phase ≠ .active) ∨
    ∃ np, k.Enrols p l np k' := by
  rcases threadCreate_cases hE hp h with
    halloc | ⟨np, ms, k₁, k₂, pt, npt, b, m, npt', halloc, hpnp, hg, henter, hE₂, hpt, hnpt, hshare, hend⟩
  · refine .inl ⟨fun q hq => allocproc_rooms halloc hq, fun q hq hact => ?_⟩
    rcases allocproc_none halloc with ⟨hnone, -⟩ | ⟨np, m, hfind, -, rfl⟩
    · rw [hnone] at hq
      cases hq
    · obtain rfl := Option.some.inj (hfind.symm.trans hq)
      simp [entries, Proc.entry, Proc.clear, ProcState.phase] at hact
  obtain rfl := ht.eq_found hg
  have hfind := (allocproc_some halloc).1
  have hb₂ : k₁.Balanced k₂ := (balanced_foundGroup k₁ p).trans (enterGroup_balanced henter)
  have hrooms₂ : ∀ q, q ≠ np → k₂.rooms q = k.rooms q := by
    intro q hq
    rw [hb₂.rooms]
    exact allocproc_rooms halloc fun hq' => hq (Option.some.inj (hq'.symm.trans hfind))
  have hsz : (k₂.proc p).sz = (k.proc p).sz := congrArg Room.size (hrooms₂ p hpnp)
  have hstored : ∀ m₀ q, q ≠ np →
      rooms { { k₂ with mem := m }.setTable np npt' with mem := m₀ } q = k.rooms q := by
    intro m₀ q hq
    have hset := setTable_rooms k₂ m np npt'
    generalize { k₂ with mem := m }.setTable np npt' = k₃ at hset
    rw [show rooms { k₃ with mem := m₀ } = k₃.rooms from rfl, hset, Function.update_of_ne hq]
    exact hrooms₂ q hq
  rcases hend with ⟨m', hk, hleave, hE'⟩ | ⟨stack, m', k₃, hk, hloop, hE₃, hstart, hE'⟩
  · refine .inl ⟨fun q hq => ?_, fun q hq hact => ?_⟩
    · have hne : q ≠ np := fun heq => hq (heq ▸ hfind)
      rw [(leaveGroup_balanced hleave).rooms]
      exact hstored m' q hne
    · obtain rfl := Option.some.inj (hfind.symm.trans hq)
      rw [hE', Function.update_self] at hact
      cases hact
  refine .inr ⟨np, ?_⟩
  have hphase : (k.entries np).phase = .unused := congrArg ProcState.phase (findUnused_unused hfind)
  -- the ring with the new thread in it
  have hfound := (exists_found_group hE hp).1
  have hring := (hfound.linkIn hg ((found_phase _ _ _).trans hphase)
    (e := { k.joined p np with phase := .active, parent := some p, isThread := true })
    rfl rfl rfl rfl rfl).2
  have hst := hstored (m'.memset stack 0)
  generalize hk₄ : ({ { k₂ with mem := m }.setTable np npt' with mem := m'.memset stack 0 } : Kernel) = k₄
    at hst hloop
  have hE₄ : k₄.entries = k₂.entries := by
    rw [← hk₄]
    exact (entries_setTable { k₂ with mem := m } np npt').trans rfl
  have hnext : ∀ x, (k₄.proc x).groupNext = (((k.entries.found p).linkIn (k.leaderOf p) np
      { k.joined p np with phase := .active, parent := some p, isThread := true }) x).groupNext := by
    intro x
    have h₁ : (k₄.proc x).groupNext = (k₂.entries x).groupNext := congrArg Entry.groupNext (congrFun hE₄ x)
    rw [h₁, hE₂]
    by_cases hx : x = np
    · simp [Entries.linkIn, hx]
    · simp [Entries.linkIn, hx]
  have hfold := ringLoop_foldlM (fun k₅ q k₆ hn hbody x =>
    (congrArg Entry.groupNext (congrFun (mapStack_remaps hbody).entries x)).trans (hn x))
    hring.ring.follows hring.ring.head_notMem hnext hloop
  obtain ⟨hpages, hsizes⟩ := mapStacks_keeps (S := (· ≠ np)) hfold
  have hrooms' := (startThread_balanced hstart).rooms
  have hnpe : k'.entries np =
      { k.joined p np with phase := .active, parent := some p, isThread := true } := by
    simp [hE', Entries.linkIn]
  refine ⟨hfind, ?_, fun q => ?_, ⟨k.leaderOf p, _, hnpe, rfl, rfl, rfl, rfl⟩, fun haligned hlacks => ?_⟩
  · exact ((keepsPages_of_rooms hst).trans hpages).trans (keepsPages_of_rooms fun q _ => by rw [hrooms'])
  · have hq : (k'.proc q).sz = (k₃.proc q).sz := congrArg Room.size (congrFun hrooms' q)
    rw [hq, hsizes q, hsz]
    by_cases hqnp : q = np
    · simp [hqnp]
    · have hold : (k₄.proc q).sz = (k.proc q).sz := congrArg Room.size (hst q hqnp)
      rw [hold]
      simp [hqnp]
  · -- the leader comes first, then the new thread
    obtain ⟨v, hv⟩ : ∃ v, (k.proc p).sz = v * pgSize :=
      ⟨(k.proc p).sz / pgSize, (Nat.div_mul_cancel (Nat.dvd_of_mod_eq_zero haligned)).symm⟩
    rw [List.foldlM_cons, Except.bind_ok_iff] at hfold
    obtain ⟨k₅, hleader, hfold⟩ := hfold
    rw [List.foldlM_cons, Except.bind_ok_iff] at hfold
    obtain ⟨k₆, hnew, hfold⟩ := hfold
    have hsz' : (k₂.proc p).sz = v * pgSize := hsz.trans hv
    rw [hsz'] at hleader hnew
    have hshares := shares_of_parts halloc hpnp henter hpt hnpt hshare
    have hLnp : k.leaderOf p ≠ np := fun heq => hring.ring.head_notMem (by simp [heq])
    have htable : (k₄.rooms np).table = some npt' := by
      rw [← hk₄]
      exact congrArg Room.table ((congrFun (setTable_rooms k₂ m np npt') np).trans (Function.update_self ..))
    obtain ⟨hpte, hva⟩ := hshares.stack hfind hlacks hv hk (by rw [← hk₄]) htable hLnp.symm (hst _ hLnp) hleader hnew
    have hrest := (mapStacks_keeps (S := fun _ => True) hfold).1 np trivial v (lt_vpnLimit_of_lt_maxVa hva) _ hpte
    rw [hv, mul_pgSize_div]
    refine ⟨hva, stack, ?_⟩
    rw [pte, hrooms']
    exact hrest

/-! ## fork and exec -/

theorem fork_keeps {r : Int} (hp : (k.proc p).state.phase = .active) (h : k.fork p = .ok (r, k')) :
    (∀ q, k.findUnused ≠ some q → k'.rooms q = k.rooms q) ∧
      ∀ np, k.findUnused = some np → (k'.entries np).phase = .active → (k'.proc np).sz = (k.proc p).sz := by
  have hcleared : ∀ {pr : Proc}, pr.clear.entry.phase ≠ .active := by
    intro pr
    simp [Proc.clear, Proc.entry, ProcState.phase]
  rcases fork_ok h with halloc | ⟨np, k₁, old, new, m, new', halloc, -, -, hend⟩
  · refine ⟨fun q hq => allocproc_rooms halloc hq, fun np hfind hact => ?_⟩
    rcases allocproc_none halloc with ⟨hnone, -⟩ | ⟨np', m, hfind', -, rfl⟩
    · rw [hnone] at hfind
      cases hfind
    · obtain rfl := Option.some.inj (hfind'.symm.trans hfind)
      simp only [entries, Function.update_self] at hact
      exact absurd hact hcleared
  have hfind := (allocproc_some halloc).1
  have hproc := (allocproc_some_proc halloc).1
  have hpnp : p ≠ np := fun heq => by
    rw [heq, findUnused_unused hfind] at hp
    cases hp
  have hne : ∀ q, k.findUnused ≠ some q → q ≠ np := fun q hq heq => hq (heq ▸ hfind)
  rcases hend with ⟨-, hfree⟩ | ⟨-, ntf, regs, ft, ir, files, cwd, name, -, rfl⟩
  · obtain ⟨tf₀, pt₀, hnp⟩ := (allocproc_some_proc halloc).2
    have hfind' : ∀ np', k.findUnused = some np' → np' = np := fun np' h' => Option.some.inj (h'.symm.trans hfind)
    rw [freeproc_of_ungrouped (by simp [setTable, hnp, Proc.claim])] at hfree
    obtain ⟨m', -, rfl⟩ := freeSelf_ok hfree
    refine ⟨fun q hq => ?_, fun np' h' hact => ?_⟩
    · have hq' := hne q hq
      simp [rooms, hq', setTable, modify_proc_ne hq', hproc q hq']
    · obtain rfl := hfind' np' h'
      simp only [entries, Function.update_self] at hact
      exact absurd hact hcleared
  · refine ⟨fun q hq => ?_, fun np' h' _ => ?_⟩
    · have hq' := hne q hq
      simp [rooms, hq', hproc q hq']
    · obtain rfl := Option.some.inj (hfind.symm.trans h')
      simp [hproc p hpnp]

/-- A failed `exec` leaves the caller its memory. -/
theorem exec_failed {path : String} {file : Option Image} {argv : List (List UInt8)} {r : Int}
    (h : k.exec p path file argv = .ok (r, k')) (hr : r < 0) : k'.rooms = k.rooms := by
  have hbad : ∀ {m pt sz}, k.execBad m pt sz = .ok (r, k') → k'.rooms = k.rooms := by
    intro m pt sz hb
    obtain ⟨m', -, hb⟩ := Except.bind_ok_iff.1 hb
    cases hb
    rfl
  simp only [exec] at h
  split at h
  · cases h
    rfl
  split at h
  · cases h
    rfl
  split at h
  swap
  · cases h
  obtain ⟨⟨pt, m⟩, -, h⟩ := Except.bind_ok_iff.1 h
  split at h
  · cases h
    rfl
  obtain ⟨⟨loaded, sz, m₁, pt₁⟩, -, h⟩ := Except.bind_ok_iff.1 h
  dsimp only at h
  split at h
  · exact hbad h
  obtain ⟨⟨sp, sz₁, m₂, pt₂⟩, -, h⟩ := Except.bind_ok_iff.1 h
  split at h
  · exact hbad h
  · obtain ⟨m₃, -, h⟩ := Except.bind_ok_iff.1 h
    obtain ⟨rfl, -⟩ := Prod.mk.inj (Except.ok.inj h)
    omega

theorem exec_keeps {path : String} {file : Option Image} {argv : List (List UInt8)} {r : Int}
    (hsize : (k.proc p).sz ≤ maxVa) (h : k.exec p path file argv = .ok (r, k')) :
    (∀ q, q ≠ p → k'.rooms q = k.rooms q) ∧ (k'.proc p).sz ≤ maxVa := by
  rcases exec_rooms h with hb | ⟨-, ⟨pt, hs⟩ | ⟨old, pt, sz, hr⟩⟩
  · exact ⟨fun q _ => by rw [hb.rooms], (congrArg Room.size (congrFun hb.rooms p)).trans_le hsize⟩
  · exact ⟨fun q _ => by rw [hs.rooms], (congrArg Room.size (congrFun hs.rooms p)).trans_le hsize⟩
  · refine ⟨fun q hq => by rw [hr.rooms, Function.update_of_ne hq], ?_⟩
    have hsz : (k'.proc p).sz = sz := by
      have := congrArg Room.size (congrFun hr.rooms p)
      rwa [Function.update_self] at this
    rw [hsz]
    exact hr.size.trans (by decide)

/-! ## Releasing slots -/

/-- A slot keeps its memory, or is given up. -/
structure Spares (k k' : Kernel) : Prop where
  room : ∀ q, k'.rooms q = k.rooms q ∨ (k'.proc q).state = .unused
  unused : ∀ q, (k.proc q).state = .unused → (k'.proc q).state = .unused

theorem spares_of_rooms (h : k'.rooms = k.rooms)
    (hu : ∀ q, (k.proc q).state = .unused → (k'.proc q).state = .unused) : k.Spares k' :=
  ⟨fun q => .inl (by rw [h]), hu⟩

theorem Spares.refl (k : Kernel) : k.Spares k := spares_of_rooms rfl fun _ h => h

theorem Spares.trans (h : k.Spares k') (h' : k'.Spares k'') : k.Spares k'' where
  room q := by
    rcases h'.room q with hq' | hq'
    · rcases h.room q with hq | hq
      · exact .inl (hq'.trans hq)
      · exact .inr (h'.unused q hq)
    · exact .inr hq'
  unused q hq := h'.unused q (h.unused q hq)

theorem spares_update {m : Mem} {pr : Proc} (hs : pr.state = .unused) :
    k.Spares { k with mem := m, proc := Function.update k.proc p pr } := by
  refine ⟨fun q => ?_, fun q hq => ?_⟩
  · by_cases h : q = p
    · subst h
      exact .inr (by simpa using hs)
    · exact .inl (by simp [rooms, h])
  · by_cases h : q = p
    · subst h
      simpa using hs
    · simpa [h] using hq

theorem spares_modify {f : Proc → Proc} (hroom : (f (k.proc p)).room = (k.proc p).room)
    (hp : (k.proc p).state ≠ .unused) : k.Spares (k.modify p f) := by
  refine spares_of_rooms (rooms_modify_same hroom) fun q hq => ?_
  have hne : q ≠ p := fun heq => hp (heq ▸ hq)
  rwa [modify_proc_ne hne]

theorem freeMembers_spares {i : Nat} {o : Option Slot} (h : freeMembers p i o k = .ok k') : k.Spares k' := by
  induction i generalizing o k with
  | zero => cases h
  | succ i ih =>
    cases o with
    | none => cases h
    | some q =>
      rw [freeMembers] at h
      split at h
      · cases h
        exact .refl _
      · obtain ⟨k₁, hfree, h⟩ := Except.bind_ok_iff.1 h
        obtain ⟨m, m', -, -, rfl⟩ := freeMember_ok hfree
        exact (spares_update rfl).trans (ih h)

theorem dropRef_spares (k : Kernel) (L : Slot) : k.Spares (k.dropRef L) := by
  refine spares_of_rooms (rooms_modify_same ?_) fun q hq => ?_
  · split <;> rfl
  · rw [dropRef, modify_proc]
    split
    · split <;> exact hq
    · exact hq

theorem freeproc_spares (hp : (k.proc p).state = .zombie) (h : k.freeproc p = .ok k') : k.Spares k' := by
  unfold freeproc at h
  split at h
  · obtain ⟨m, -, rfl⟩ := freeSelf_ok h
    exact spares_update rfl
  · rename_i leader _
    have hdrop := dropRef_spares k leader
    have hstate : ((k.dropRef leader).proc p).state ≠ .unused := by
      rw [dropRef, modify_proc]
      split
      · split <;> simp [hp]
      · simp [hp]
    dsimp only at h
    split at h
    · cases h
    split at h
    · cases h
      exact hdrop.trans (spares_modify rfl hstate)
    · obtain ⟨k₁, hmem, h⟩ := Except.bind_ok_iff.1 h
      obtain ⟨m, -, rfl⟩ := freeSelf_ok h
      exact (hdrop.trans (freeMembers_spares hmem)).trans (spares_update rfl)

theorem wait_spares {addr : Nat} {r : Option Int} (hp : (k.proc p).state ≠ .unused)
    (h : k.wait p addr = .ok (r, k')) : k.Spares k' := by
  rcases wait_ok h with rfl | rfl | ⟨pp, b, m, hfind, -, -, -, -, hend⟩
  · exact .refl _
  · exact spares_modify rfl hp
  have hm : k.Spares { k with mem := m } := spares_of_rooms rfl fun _ hq => hq
  rcases hend with rfl | ⟨-, hfree⟩
  · exact hm
  · exact hm.trans (freeproc_spares (findZombie_spec hfind).2 hfree)

theorem threadJoin_spares {tid : Int} {r : Option Int} (hp : (k.proc p).state ≠ .unused)
    (h : k.threadJoin p tid = .ok (r, k')) : k.Spares k' := by
  rcases threadJoin_ok h with rfl | rfl | ⟨tp, hfind, hfree⟩
  · exact .refl _
  · exact spares_modify rfl hp
  · exact freeproc_spares (findJoin_spec hfind).2 hfree

theorem resume_spares {r : Option Int} (hp : (k.proc p).state = .runnable) (h : k.resume p = .ok (r, k')) :
    k.Spares k' := by
  have hk : k.Spares (k.modify p fun pr => { pr with state := .running, chan := none, resume := .user }) :=
    spares_modify rfl (by simp [hp])
  have hrun : ((k.modify p fun pr => { pr with state := .running, chan := none, resume := .user }).proc p).state ≠
      .unused := by simp
  simp only [resume] at h
  split at h
  · cases h
    exact hk
  · cases h
    exact hk
  · exact hk.trans (wait_spares hrun h)
  · exact hk.trans (threadJoin_spares hrun h)

end Kernel

end Xv6
