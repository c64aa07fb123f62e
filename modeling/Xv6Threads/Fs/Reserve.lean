-- SUMMARY: begin_op, end_op and log_write by any number of concurrent operations, and the room they find in the log.
import Mathlib.Algebra.BigOperators.Group.Finset.Basic
import Mathlib.Algebra.Order.BigOperators.Group.Finset
import Mathlib.Data.Finset.Card
import Mathlib.Data.Finset.Insert
import Xv6Threads.Base.Except
import Xv6Threads.Fs.Log

/-!
# Room in the log

File-system calls bracket their writes with `begin_op` and `end_op`.
`begin_op` admits a call only if `MAXOPBLOCKS` blocks for it and for every call
in progress still fit into `LOGSIZE`; `log_write` makes a test of its own, with
the size of the log on the disk, before it looks whether the block is in the
log already. The lock makes each of these steps atomic.
-/

namespace Xv6

/-- `MAXOPBLOCKS`. -/
def maxOpBlocks : Nat := 10

/-- `struct log` as far as it is not on the disk. Recorded beside it are the calls
in progress, with the blocks each of them has written, and the blocks that the
calls of this transaction have written, those that have ended included. -/
structure LogCalls (ι : Type) where
  lh : LogHeader
  outstanding : Int
  committing : Bool
  active : Finset ι
  blocks : ι → Finset BlockNo
  written : Finset BlockNo

inductive OpEvent (ι : Type) where
  | beginOp (p : ι)
  | logWrite (p : ι) (b : BlockNo)
  | endOp (p : ι)
  /-- `commit` returns, and `committing` is cleared -/
  | commit

namespace LogCalls

variable {ι : Type} [DecidableEq ι] (a : LogArea)

/-- What an event does: nothing yet if the caller has to sleep, a new state, or
a panic. -/
def step (s : LogCalls ι) : OpEvent ι → Except String (Option (LogCalls ι))
  | .beginOp p =>
    if s.committing then .ok none
    else if (logSize : Int) < rounds s.lh.n + (s.outstanding + 1) * maxOpBlocks then .ok none
    else .ok (some { s with
      outstanding := s.outstanding + 1
      active := insert p s.active
      blocks := Function.update s.blocks p ∅ })
  | .logWrite p b => do
    let lh ← a.logWrite s.outstanding s.lh b
    .ok (some { s with
      lh := lh
      blocks := Function.update s.blocks p (insert b (s.blocks p))
      written := insert b s.written })
  | .endOp p =>
    if s.committing then .error "log.committing"
    else .ok (some { s with
      outstanding := s.outstanding - 1
      committing := decide (s.outstanding - 1 = 0)
      active := s.active.erase p })
  | .commit =>
    if s.committing then .ok (some { s with lh := { s.lh with n := 0 }, committing := false, written := ∅ })
    else .ok none

/-- The calls keep to the rules: `begin_op` first, `end_op` last, and at most
`MAXOPBLOCKS` distinct blocks in between. -/
def Bracketed (s : LogCalls ι) : OpEvent ι → Prop
  | .beginOp p => p ∉ s.active
  | .logWrite p b => p ∈ s.active ∧ (insert b (s.blocks p)).card ≤ maxOpBlocks
  | .endOp p => p ∈ s.active
  | .commit => True

instance (s : LogCalls ι) : (e : OpEvent ι) → Decidable (s.Bracketed e)
  | .beginOp _ => inferInstanceAs (Decidable (_ ∉ _))
  | .logWrite _ _ => inferInstanceAs (Decidable (_ ∈ _ ∧ _ ≤ _))
  | .endOp _ => inferInstanceAs (Decidable (_ ∈ _))
  | .commit => inferInstanceAs (Decidable True)

/-- How many blocks the calls in progress may still write, if a call writes at most `m`. -/
def unused (m : Nat) (s : LogCalls ι) : Nat := ∑ p ∈ s.active, (m - (s.blocks p).card)

/-- The calls of the transaction have written `LOGSIZE - 1` distinct blocks, and
those in progress have at most one block left of what is reserved for them. -/
def UsedUp (s : LogCalls ι) : Prop := s.written.card = logSize - 1 ∧ s.unused maxOpBlocks ≤ 1

/-- No call writes after the transaction has used up what was reserved for it. -/
def Spares (s : LogCalls ι) : OpEvent ι → Prop
  | .logWrite _ _ => ¬ s.UsedUp
  | _ => True

/-- A call leaves at least one block of its reservation unused. -/
def Modest (s : LogCalls ι) : OpEvent ι → Prop
  | .logWrite p b => (insert b (s.blocks p)).card ≤ maxOpBlocks - 1
  | _ => True

instance (s : LogCalls ι) : (e : OpEvent ι) → Decidable (s.Spares e)
  | .logWrite _ _ => inferInstanceAs (Decidable (¬ (_ = _ ∧ _ ≤ _)))
  | .beginOp _ => inferInstanceAs (Decidable True)
  | .endOp _ => inferInstanceAs (Decidable True)
  | .commit => inferInstanceAs (Decidable True)

instance (s : LogCalls ι) : (e : OpEvent ι) → Decidable (s.Modest e)
  | .logWrite _ _ => inferInstanceAs (Decidable (_ ≤ _))
  | .beginOp _ => inferInstanceAs (Decidable True)
  | .endOp _ => inferInstanceAs (Decidable True)
  | .commit => inferInstanceAs (Decidable True)

/-- The reservation is sufficient: a well-bracketed event does not panic, the
log holds what it has room for, and nothing is outstanding while it commits. -/
structure Sufficient (G : LogCalls ι → OpEvent ι → Prop) (s : LogCalls ι) : Prop where
  runs : ∀ e, s.Bracketed e → G s e → ∃ o, s.step a e = .ok o
  room : rounds s.lh.n ≤ a.size - 1
  outstanding : 0 ≤ s.outstanding
  committing : s.committing = true → s.outstanding = 0

/-- A step that is taken, computed. -/
def next (s : LogCalls ι) (e : OpEvent ι) : Option (LogCalls ι) :=
  if s.Bracketed e then (s.step a e).toOption.join else none

end LogCalls

/-- The log of a file system: no call in progress, nothing in the log. -/
def logSystem (ι : Type) [DecidableEq ι] (a : LogArea) : Lts (LogCalls ι) (OpEvent ι) where
  init s := s.lh.n = 0 ∧ s.outstanding = 0 ∧ s.committing = false ∧ s.active = ∅ ∧ s.written = ∅
  step s e s' := s.Bracketed e ∧ s.step a e = .ok (some s')

/-- The log that `mkfs` lays out: `nlog = LOGSIZE` blocks, from block 2 on. -/
def LogArea.mkfs : LogArea := ⟨2, logSize⟩

namespace LogCalls

variable {ι : Type} [DecidableEq ι] {s s' : LogCalls ι} {e : OpEvent ι} {p : ι} {b : BlockNo} {m M : Nat}
  {G : LogCalls ι → OpEvent ι → Prop}

/-! ## Steps -/

theorem step_beginOp (h : s.step .mkfs (.beginOp p) = .ok (some s')) :
    s.committing = false ∧ rounds s.lh.n + (s.outstanding + 1) * maxOpBlocks ≤ logSize ∧
      s' = { s with
        outstanding := s.outstanding + 1
        active := insert p s.active
        blocks := Function.update s.blocks p ∅ } := by
  simp only [step] at h
  split_ifs at h with hc hroom
  · cases h
  · cases h
  · cases h
    exact ⟨by simpa using hc, Int.not_lt.1 hroom, rfl⟩

theorem step_logWrite (h : s.step .mkfs (.logWrite p b) = .ok (some s')) :
    ∃ lh, LogArea.mkfs.logWrite s.outstanding s.lh b = .ok lh ∧
      s' = { s with
        lh := lh
        blocks := Function.update s.blocks p (insert b (s.blocks p))
        written := insert b s.written } := by
  obtain ⟨lh, hwrite, h⟩ := Except.bind_ok_iff.1 h
  exact ⟨lh, hwrite, (Option.some.inj (Except.ok.inj h)).symm⟩

theorem step_endOp (h : s.step .mkfs (.endOp p) = .ok (some s')) :
    s' = { s with
      outstanding := s.outstanding - 1
      committing := decide (s.outstanding - 1 = 0)
      active := s.active.erase p } := by
  simp only [step] at h
  split_ifs at h
  cases h
  rfl

theorem step_commit (h : s.step .mkfs .commit = .ok (some s')) :
    s.committing = true ∧ s' = { s with lh := { s.lh with n := 0 }, committing := false, written := ∅ } := by
  simp only [step] at h
  split_ifs at h with hc
  · cases h
    exact ⟨hc, rfl⟩
  · cases h

/-! ## The log and the calls -/

/-- The log names what the calls of the transaction have written, and a
transaction without calls is committed at once. -/
structure Orderly (s : LogCalls ι) : Prop where
  fits : s.lh.Fits .mkfs
  counts : s.outstanding = s.active.card
  committing : s.committing = true → s.active = ∅
  idle : s.active = ∅ → s.committing = false → s.written = ∅
  names : ∀ b, b ∈ s.written ↔ s.lh.Names b
  own : ∀ p ∈ s.active, s.blocks p ⊆ s.written

omit [DecidableEq ι] in
/-- Absorption: the log has one entry for each block. -/
theorem Orderly.card (h : s.Orderly) : s.written.card = rounds s.lh.n := by
  have himage : s.written = (Finset.range (rounds s.lh.n)).image s.lh.block := by
    ext b
    rw [h.names b]
    simp [LogHeader.Names]
  rw [himage, Finset.card_image_of_injOn, Finset.card_range]
  intro i hi j hj heq
  exact h.fits.distinct i j (by simpa using hi) (by simpa using hj) heq

omit [DecidableEq ι] in
theorem Orderly.outstanding_pos (h : s.Orderly) (hp : p ∈ s.active) : 1 ≤ s.outstanding := by
  have hpos : 0 < s.active.card := Finset.card_pos.2 ⟨p, hp⟩
  have := h.counts
  omega

theorem Orderly.step (h : s.Orderly) (he : s.Bracketed e) (hstep : s.step .mkfs e = .ok (some s')) : s'.Orderly := by
  cases e with
  | beginOp p =>
    obtain ⟨hc, -, rfl⟩ := step_beginOp hstep
    refine ⟨h.fits, ?_, fun hc' => ?_, fun hempty => ?_, h.names, ?_⟩
    · simp only [Finset.card_insert_of_notMem he, h.counts]
      push_cast
      rfl
    · simp [hc] at hc'
    · exact absurd hempty (Finset.insert_ne_empty p _)
    · intro q hq
      by_cases hqp : q = p
      · subst hqp
        simp
      · simp only [Function.update_of_ne hqp]
        exact h.own q ((Finset.mem_insert.1 hq).resolve_left hqp)
  | logWrite p b =>
    obtain ⟨lh, hwrite, rfl⟩ := step_logWrite hstep
    obtain ⟨-, hnames⟩ := LogArea.logWrite_names hwrite h.fits
    refine ⟨LogArea.logWrite_fits hwrite h.fits, h.counts, h.committing, fun hempty => ?_, fun c => ?_, ?_⟩
    · have hp : p ∈ s.active := he.1
      simp only at hempty
      simp [hempty] at hp
    · rw [hnames c, ← h.names c, Finset.mem_insert, or_comm]
    · intro q hq
      by_cases hqp : q = p
      · subst hqp
        simp only [Function.update_self]
        exact Finset.insert_subset_insert b (h.own q hq)
      · simp only [Function.update_of_ne hqp]
        exact (h.own q hq).trans (Finset.subset_insert b _)
  | endOp p =>
    obtain rfl := step_endOp hstep
    have hpos := h.outstanding_pos he
    have hcard : (s.active.erase p).card = s.active.card - 1 := Finset.card_erase_of_mem he
    have hcounts : s.outstanding - 1 = ((s.active.erase p).card : Int) := by
      have := h.counts
      omega
    refine ⟨h.fits, hcounts, fun hc => ?_, fun hempty hc => ?_, h.names, ?_⟩
    · have hzero : s.outstanding - 1 = 0 := of_decide_eq_true hc
      have hnone : (s.active.erase p).card = 0 := by omega
      exact Finset.card_eq_zero.1 hnone
    · simp only at hempty hc
      rw [hcounts, hempty] at hc
      simp at hc
    · exact fun q hq => h.own q (Finset.mem_of_mem_erase hq)
  | commit =>
    obtain ⟨hc, rfl⟩ := step_commit hstep
    have hempty := h.committing hc
    refine ⟨LogHeader.fits_empty _, h.counts, fun hc' => by simp at hc', fun _ _ => rfl, fun b => ?_, ?_⟩
    · simp [LogHeader.Names, rounds_zero]
    · intro q hq
      simp [hempty] at hq

theorem Orderly.init (h : (logSystem ι .mkfs).init s) : s.Orderly := by
  obtain ⟨hn, ho, hc, ha, hw⟩ := h
  have hlh : s.lh = ⟨0, s.lh.block⟩ := by rw [← hn]
  refine ⟨hlh ▸ LogHeader.fits_empty _, by simp [ho, ha], fun _ => ha, fun _ _ => hw, fun b => ?_, ?_⟩
  · simp [hw, LogHeader.Names, hn, rounds_zero]
  · simp [ha]

theorem orderly_of_reaches (h : (logSystem ι .mkfs).Reaches G s) : s.Orderly := by
  refine h.invariant (P := Orderly) (fun _ => Orderly.init) ?_
  intro s₀ e s₁ hs₀ _ hstep
  exact hs₀.step hstep.1 hstep.2

/-! ## Reservations -/

omit [DecidableEq ι] in
theorem unused_le (m : Nat) (s : LogCalls ι) : s.unused m ≤ s.active.card * m := by
  have hsum : s.unused m ≤ s.active.card • m := Finset.sum_le_card_nsmul _ _ _ fun p _ => Nat.sub_le _ _
  exact hsum

theorem unused_split (m : Nat) (hp : p ∈ s.active) :
    s.unused m = (m - (s.blocks p).card) + ∑ q ∈ s.active.erase p, (m - (s.blocks q).card) :=
  (Finset.add_sum_erase _ _ hp).symm

/-- What the other calls may write is not changed by `p`. -/
theorem sum_update (S : Finset ι) (hp : p ∉ S) (B : Finset BlockNo) :
    ∑ q ∈ S, (m - (Function.update s.blocks p B q).card) = ∑ q ∈ S, (m - (s.blocks q).card) := by
  refine Finset.sum_congr rfl fun q hq => ?_
  have hne : q ≠ p := by
    rintro rfl
    exact hp hq
  rw [Function.update_of_ne hne]

/-- What has been written and what may still be written fit into `M` blocks. -/
def Reserved (m M : Nat) (s : LogCalls ι) : Prop := s.written.card + s.unused m ≤ M

/-- The test of `begin_op` keeps the reservations within the log. A transaction of
one call has a log of its own; in the others at least two calls leave what they
do not use of `MAXOPBLOCKS`. -/
theorem Reserved.beginOp (ho : s.Orderly) (hm : m ≤ maxOpBlocks) (hone : m ≤ M)
    (hmore : logSize ≤ M + 2 * (maxOpBlocks - m)) (hp : p ∉ s.active)
    (hstep : s.step .mkfs (.beginOp p) = .ok (some s')) : s'.Reserved m M := by
  obtain ⟨hc, htest, rfl⟩ := step_beginOp hstep
  have hunused : unused m { s with
      outstanding := s.outstanding + 1
      active := insert p s.active
      blocks := Function.update s.blocks p ∅ } = m + s.unused m := by
    simp only [unused, Finset.sum_insert hp, Function.update_self, Finset.card_empty, Nat.sub_zero, sum_update _ hp]
  simp only [Reserved, hunused]
  rcases Nat.eq_zero_or_pos s.active.card with hnone | hsome
  · have hempty := Finset.card_eq_zero.1 hnone
    have hle := unused_le m s
    simp only [ho.idle hempty hc, Finset.card_empty, hnone, Nat.zero_mul] at hle ⊢
    omega
  · have hle := unused_le m s
    have htest' : s.written.card + (s.active.card + 1) * maxOpBlocks ≤ logSize := by
      rw [ho.card]
      rw [ho.counts] at htest
      exact_mod_cast htest
    have hsplit : (s.active.card + 1) * maxOpBlocks = (s.active.card + 1) * m + (s.active.card + 1) * (maxOpBlocks - m) := by
      rw [← Nat.mul_add, Nat.add_sub_cancel' hm]
    have htwo : 2 * (maxOpBlocks - m) ≤ (s.active.card + 1) * (maxOpBlocks - m) :=
      Nat.mul_le_mul_right _ (by omega)
    have hsum : (s.active.card + 1) * m = s.active.card * m + m := Nat.succ_mul _ _
    omega

/-- A block that is new takes the place of one that was reserved for its call. -/
theorem Reserved.logWrite (h : s.Reserved m M) (ho : s.Orderly) (hp : p ∈ s.active)
    (hcap : (insert b (s.blocks p)).card ≤ m) (hstep : s.step .mkfs (.logWrite p b) = .ok (some s')) :
    s'.Reserved m M := by
  obtain ⟨lh, -, rfl⟩ := step_logWrite hstep
  have hafter := unused_split (s := { s with
    lh := lh
    blocks := Function.update s.blocks p (insert b (s.blocks p))
    written := insert b s.written }) m hp
  simp only [Function.update_self, sum_update _ (Finset.notMem_erase p s.active)] at hafter
  have hbefore := unused_split m hp
  unfold Reserved at h ⊢
  rw [hafter]
  by_cases hb : b ∈ s.written
  · have hle : (s.blocks p).card ≤ (insert b (s.blocks p)).card := Finset.card_le_card (Finset.subset_insert _ _)
    simp only [Finset.insert_eq_of_mem hb]
    omega
  · have hnew : b ∉ s.blocks p := fun hmem => hb (ho.own p hp hmem)
    rw [Finset.card_insert_of_notMem hnew] at hcap ⊢
    simp only [Finset.card_insert_of_notMem hb]
    omega

theorem Reserved.endOp (h : s.Reserved m M) (hstep : s.step .mkfs (.endOp p) = .ok (some s')) : s'.Reserved m M := by
  obtain rfl := step_endOp hstep
  have hle : ∑ q ∈ s.active.erase p, (m - (s.blocks q).card) ≤ s.unused m :=
    Finset.sum_le_sum_of_subset (Finset.erase_subset p s.active)
  unfold Reserved at h ⊢
  simp only [unused] at hle h ⊢
  omega

theorem Reserved.commit (ho : s.Orderly) (hstep : s.step .mkfs .commit = .ok (some s')) : s'.Reserved m M := by
  obtain ⟨hc, rfl⟩ := step_commit hstep
  simp [Reserved, unused, ho.committing hc]

/-- Calls of at most `m` blocks never have more than `M` blocks in the log. -/
theorem reserved_of_reaches (hm : m ≤ maxOpBlocks) (hone : m ≤ M) (hmore : logSize ≤ M + 2 * (maxOpBlocks - m))
    (hG : ∀ s p b, s.Bracketed (.logWrite p b) → G s (.logWrite p b) → (insert b (s.blocks p)).card ≤ m)
    (h : (logSystem ι .mkfs).Reaches G s) : s.Reserved m M := by
  have hboth : s.Orderly ∧ s.Reserved m M := by
    refine h.invariant (P := fun s => s.Orderly ∧ s.Reserved m M) ?_ ?_
    · intro s₀ hs₀
      refine ⟨Orderly.init hs₀, ?_⟩
      obtain ⟨-, -, -, ha, hw⟩ := hs₀
      simp [Reserved, unused, ha, hw]
    · rintro s₀ e s₁ ⟨ho, hr⟩ he ⟨hb, hstep⟩
      refine ⟨ho.step hb hstep, ?_⟩
      cases e with
      | beginOp p => exact Reserved.beginOp ho hm hone hmore hb hstep
      | logWrite p b => exact hr.logWrite ho hb.1 (hG _ _ _ hb he) hstep
      | endOp p => exact hr.endOp hstep
      | commit => exact Reserved.commit ho hstep
  exact hboth.2

theorem reserved (h : (logSystem ι .mkfs).Reaches G s) : s.Reserved maxOpBlocks logSize :=
  reserved_of_reaches (Nat.le_refl _) (by decide) (by decide) (fun _ _ _ hb _ => hb.2) h

/-! ## Panics -/

/-- When `log_write` stops the kernel. -/
theorem Orderly.logWrite_iff (h : s.Orderly) (hp : p ∈ s.active) :
    (∃ o, s.step .mkfs (.logWrite p b) = .ok o) ↔ s.written.card < logSize - 1 := by
  have hpos := h.outstanding_pos hp
  have htest : (logSize ≤ rounds s.lh.n ∨ LogArea.mkfs.size ≤ rounds s.lh.n + 1) ↔ ¬ s.written.card < logSize - 1 := by
    rw [h.card]
    simp only [LogArea.mkfs, logSize]
    omega
  by_cases hroom : s.written.card < logSize - 1
  · simp only [hroom, iff_true, LogCalls.step, LogArea.logWrite, if_neg (mt htest.1 (not_not.2 hroom)), if_neg (Int.not_lt.2 hpos)]
    split <;> exact ⟨_, rfl⟩
  · simp only [hroom, iff_false, LogCalls.step, LogArea.logWrite, if_pos (htest.2 hroom)]
    rintro ⟨o, ho⟩
    cases ho

/-- `log_write` stops the kernel when the transaction has used up its reservations,
and at no other time: two blocks that are still reserved have a place in the log. -/
theorem Orderly.logWrite_spares (h : s.Orderly) (hr : s.Reserved maxOpBlocks logSize) (hp : p ∈ s.active) :
    (∃ o, s.step .mkfs (.logWrite p b) = .ok o) ↔ ¬ s.UsedUp := by
  have hle : s.written.card ≤ logSize - 1 := by
    rw [h.card]
    rcases Nat.eq_zero_or_pos (rounds s.lh.n) with hzero | hpos
    · rw [hzero]
      exact Nat.zero_le _
    · have hcount := h.fits.count.2 hpos
      have hsize : LogArea.mkfs.size = logSize := rfl
      omega
  have hsize : logSize = 30 := rfl
  rw [h.logWrite_iff hp]
  unfold UsedUp
  unfold Reserved at hr
  omega

/-- No other event stops it. -/
theorem Orderly.runs (h : s.Orderly) (he : s.Bracketed e)
    (hwrite : ∀ p b, e = .logWrite p b → ∃ o, s.step .mkfs (.logWrite p b) = .ok o) : ∃ o, s.step .mkfs e = .ok o := by
  cases e with
  | beginOp p =>
    simp only [LogCalls.step]
    split_ifs <;> exact ⟨_, rfl⟩
  | logWrite p b => exact hwrite p b rfl
  | endOp p =>
    have hnot : s.committing = false := by
      by_contra hc
      have hp : p ∈ s.active := he
      simp [h.committing (by simpa using hc)] at hp
    simp [LogCalls.step, hnot]
  | commit =>
    simp only [LogCalls.step]
    split_ifs <;> exact ⟨_, rfl⟩

theorem Orderly.sufficient (h : s.Orderly)
    (hwrite : ∀ p b, s.Bracketed (.logWrite p b) → G s (.logWrite p b) → ∃ o, s.step .mkfs (.logWrite p b) = .ok o) :
    s.Sufficient .mkfs G where
  runs e he hG := h.runs he fun p b heq => hwrite p b (heq ▸ he) (heq ▸ hG)
  room := by
    rcases Nat.eq_zero_or_pos (rounds s.lh.n) with hzero | hpos
    · rw [hzero]
      exact Nat.zero_le _
    · have := h.fits.count.2 hpos
      omega
  outstanding := by
    rw [h.counts]
    exact Int.natCast_nonneg _
  committing hc := by
    rw [h.counts, h.committing hc]
    rfl

end LogCalls

/-- The reservation suffices in every run whose calls do not write once more after
they have used up what was reserved for their transaction. What the calls have
written, each block once, and what is reserved for those in progress always fit
into `LOGSIZE`; a `log_write` that comes after all of it is used stops the kernel. -/
theorem log_sufficient {ι : Type} [DecidableEq ι] {s : LogCalls ι} (h : (logSystem ι .mkfs).Reaches LogCalls.Spares s) :
    s.Sufficient .mkfs LogCalls.Spares ∧ rounds s.lh.n = s.written.card ∧
      s.written.card + s.unused maxOpBlocks ≤ logSize ∧
      ∀ p b, s.Bracketed (.logWrite p b) → s.UsedUp → ¬ ∃ o, s.step .mkfs (.logWrite p b) = .ok o := by
  have ho := LogCalls.orderly_of_reaches h
  have hr := LogCalls.reserved h
  refine ⟨ho.sufficient fun p b he hG => ?_, ho.card.symm, hr, fun p b he hused hok => ?_⟩
  · exact (ho.logWrite_spares hr he.1).2 hG
  · exact (ho.logWrite_spares hr he.1).1 hok hused

/-! ## Concrete runs -/

namespace LogCalls

theorem step_of_next {ι : Type} [DecidableEq ι] {s s' : LogCalls ι} {e : OpEvent ι} (h : s.next .mkfs e = some s') :
    (logSystem ι .mkfs).step s e s' := by
  rw [next] at h
  split_ifs at h with hb
  · refine ⟨hb, ?_⟩
    cases hstep : s.step .mkfs e with
    | error msg => simp [hstep, Except.toOption] at h
    | ok o =>
      have ho : o = some s' := by simpa [hstep, Except.toOption] using h
      rw [ho]

/-- After boot. -/
def boot : LogCalls (Fin 3) := ⟨⟨0, fun _ => 0⟩, 0, false, ∅, fun _ => ∅, ∅⟩

theorem reaches_boot (G : LogCalls (Fin 3) → OpEvent (Fin 3) → Prop) : (logSystem (Fin 3) .mkfs).Reaches G boot :=
  .init ⟨rfl, rfl, rfl, rfl, rfl⟩

/-- Block `50 + i`, by the call that writes its ten blocks from there. -/
def tenth (i : Nat) : OpEvent (Fin 3) := .logWrite (Fin.ofNat 3 (i / 10)) (UInt32.ofNat (50 + i))

end LogCalls

/-- Three calls at once write 28 blocks, and one of them a block that another has written. -/
theorem log_sufficient_of_three : ∃ s : LogCalls (Fin 3), (logSystem (Fin 3) .mkfs).Reaches LogCalls.Spares s ∧
    (rounds s.lh.n = 28 ∧ s.outstanding = 3) ∧ s.Sufficient .mkfs LogCalls.Spares := by
  have hrun : (Lts.replay (LogCalls.next .mkfs) LogCalls.Spares LogCalls.boot
      ([.beginOp 0, .beginOp 1, .beginOp 2] ++ (List.range 28).map LogCalls.tenth ++ [.logWrite 2 50])).any
      (fun s => decide (rounds s.lh.n = 28 ∧ s.outstanding = 3)) = true := by
    decide +kernel
  obtain ⟨s, hs, hc⟩ := (Option.any_eq_true _ _).1 hrun
  have hreach := Lts.Reaches.of_replay (fun _ _ _ => LogCalls.step_of_next) (LogCalls.reaches_boot _) hs
  exact ⟨s, hreach, of_decide_eq_true hc, (log_sufficient hreach).1⟩

/-- Three calls that write ten blocks each, all of them distinct: the last
`log_write` finds 29 blocks in the log and stops the kernel. -/
theorem log_full_with_three : ¬ ∀ s : LogCalls (Fin 3), (logSystem (Fin 3) .mkfs).Reaches (fun _ _ => True) s →
    s.Sufficient .mkfs fun _ _ => True := by
  intro h
  have hrun : (Lts.replay (LogCalls.next .mkfs) (fun _ _ => True) LogCalls.boot
      ([.beginOp 0, .beginOp 1, .beginOp 2] ++ (List.range 29).map LogCalls.tenth)).any
      (fun s => decide (s.Bracketed (.logWrite 2 79)) && (s.step .mkfs (.logWrite 2 79)).toOption.isNone) = true := by
    decide +kernel
  obtain ⟨s, hs, hc⟩ := (Option.any_eq_true _ _).1 hrun
  have hreach := Lts.Reaches.of_replay (fun _ _ _ => LogCalls.step_of_next) (LogCalls.reaches_boot _) hs
  obtain ⟨hb, hpanic⟩ := (Bool.and_eq_true _ _).mp hc
  obtain ⟨o, ho⟩ := (h s hreach).runs (.logWrite 2 79) (of_decide_eq_true hb) trivial
  rw [ho] at hpanic
  cases hpanic

/-- Calls that write at most `MAXOPBLOCKS - 1` blocks each never stop the kernel,
whatever their number and order: they never have more than 28 blocks in the log. -/
theorem modest_calls_fit {ι : Type} [DecidableEq ι] {s : LogCalls ι} (h : (logSystem ι .mkfs).Reaches LogCalls.Modest s) :
    s.Sufficient .mkfs LogCalls.Modest ∧ rounds s.lh.n + s.unused (maxOpBlocks - 1) ≤ logSize - 2 := by
  have ho := LogCalls.orderly_of_reaches h
  have hr : s.Reserved (maxOpBlocks - 1) (logSize - 2) :=
    LogCalls.reserved_of_reaches (by decide) (by decide) (by decide) (fun _ _ _ _ hG => hG) h
  refine ⟨ho.sufficient fun p b he _ => (ho.logWrite_iff he.1).2 ?_, ho.card ▸ hr⟩
  have hsize : logSize = 30 := rfl
  unfold LogCalls.Reserved at hr
  omega

/-- Three calls that write nine blocks each. -/
theorem modest_calls_fit_of_three : ∃ s : LogCalls (Fin 3), (logSystem (Fin 3) .mkfs).Reaches LogCalls.Modest s ∧
    rounds s.lh.n = 27 ∧ s.Sufficient .mkfs LogCalls.Modest := by
  have hrun : (Lts.replay (LogCalls.next .mkfs) LogCalls.Modest LogCalls.boot
      ([.beginOp 0, .beginOp 1, .beginOp 2] ++
        (List.range 27).map fun i => .logWrite (Fin.ofNat 3 (i / 9)) (UInt32.ofNat (50 + i)))).any
      (fun s => decide (rounds s.lh.n = 27)) = true := by
    decide +kernel
  obtain ⟨s, hs, hc⟩ := (Option.any_eq_true _ _).1 hrun
  have hreach := Lts.Reaches.of_replay (fun _ _ _ => LogCalls.step_of_next) (LogCalls.reaches_boot _) hs
  exact ⟨s, hreach, of_decide_eq_true hc, (modest_calls_fit hreach).1⟩

end Xv6
