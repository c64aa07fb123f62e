-- SUMMARY: A commit is atomic: whatever the crashes, recovery leaves all blocks of a transaction old or all new.
import Xv6Threads.Fs.Log

/-!
# Crashes

The redo invariant: as long as the header on the disk counts zero, the homes
have their old contents or their new ones; while it counts the transaction, the
log holds the new contents and each home is old or new. A crash keeps the disk,
so what is said of the disk survives it, and recovery is the second half of a
commit done again.
-/

namespace Xv6

namespace LogArea

variable {a : LogArea} {i j : Nat}

theorem slot_ne_start (hi : i < logSize) : a.slot i ≠ a.start := by
  intro h
  have hzero := congrArg UInt32.toNat (UInt32.add_eq_left.1 h)
  unfold logSize at hi
  simp at hzero
  omega

theorem slot_inj (hi : i < logSize) (hj : j < logSize) (h : a.slot i = a.slot j) : i = j := by
  have heq := congrArg UInt32.toNat ((UInt32.add_right_inj a.start).1 h)
  unfold logSize at hi hj
  simp at heq
  omega

theorem putHead_zero (lh : LogHeader) (b : Block) : putHead lh b 0 = lh.n := by simp [putHead]

/-- What `write_head` wrote is what `read_head` reads. -/
theorem getHead_putHead {lh : LogHeader} (lh' : LogHeader) {b : Block} (h : rounds lh.n ≤ logSize) :
    (getHead lh' (putHead lh b)).n = lh.n ∧
      ∀ i < rounds lh.n, (getHead lh' (putHead lh b)).block i = lh.block i := by
  have hn := putHead_zero lh b
  refine ⟨hn, fun i hi => ?_⟩
  unfold logSize at h
  have hin : i < rounds (putHead lh b 0) ∧ i + 1 < 256 := by
    rw [hn]
    omega
  have hget : (getHead lh' (putHead lh b)).block i = putHead lh b ⟨i + 1, hin.2⟩ := dif_pos hin
  have hput : putHead lh b ⟨i + 1, hin.2⟩ = lh.block (i + 1 - 1) := by
    rw [putHead, if_neg (by simp), if_pos (Nat.succ_le_of_lt hi)]
  rw [hget, hput, Nat.add_sub_cancel]

end LogArea

namespace Transaction

variable {a : LogArea} (t : Transaction a) {s : LogState} {d : BlockNo → Block} {i : Nat} {b : BlockNo}

/-! ## What the disk holds -/

/-- Blocks outside the transaction and the log are unchanged. -/
def Untouched (d : BlockNo → Block) : Prop := ∀ b, ¬ t.Home b → ¬ a.Holds b → d b = t.disk b

def Old (d : BlockNo → Block) : Prop := ∀ b, t.Home b → d b = t.disk b

def New (d : BlockNo → Block) : Prop := ∀ b, t.Home b → d b = t.new b

/-- The first `m` log blocks hold the new contents. -/
def Logged (m : Nat) (d : BlockNo → Block) : Prop := ∀ i < m, d (a.slot i) = t.new (t.lh.block i)

/-- The header on the disk names the transaction. -/
def Headed (d : BlockNo → Block) : Prop := ∃ b, d a.start = LogArea.putHead t.lh b

/-- The header counts the transaction and the log holds it. -/
structure Redo (d : BlockNo → Block) : Prop where
  headed : t.Headed d
  logged : t.Logged (rounds t.lh.n) d
  mixed : ∀ b, t.Home b → d b = t.disk b ∨ d b = t.new b

/-! ## Blocks of the transaction and of the log -/

theorem home_block (hi : i < rounds t.lh.n) : t.Home (t.lh.block i) := ⟨i, hi, rfl⟩

theorem not_holds (hb : t.Home b) : ¬ a.Holds b := by
  obtain ⟨i, hi, rfl⟩ := hb
  exact t.outside i hi

theorem holds_slot (hi : i < rounds t.lh.n) : a.Holds (a.slot i) := by
  have := t.fits.count.2 (by omega)
  exact .inr ⟨i, by omega, rfl⟩

theorem lt_logSize (hi : i < rounds t.lh.n) : i < logSize := by
  have := t.fits.count.1
  omega

theorem Untouched.update {x : Block} (h : t.Untouched d) (hb : t.Home b ∨ a.Holds b) :
    t.Untouched (Function.update d b x) := by
  intro c hc hc'
  have hne : c ≠ b := by
    rintro rfl
    exact hb.elim hc hc'
  rw [Function.update_of_ne hne]
  exact h c hc hc'

/-- A write to the log changes no home. -/
theorem update_home {x : Block} {c : BlockNo} (hb : a.Holds b) (hc : t.Home c) :
    Function.update d b x c = d c := by
  rw [Function.update_of_ne]
  rintro rfl
  exact t.not_holds hc hb

/-- A write to a home changes no block of the log. -/
theorem update_holds {x : Block} {c : BlockNo} (hb : t.Home b) (hc : a.Holds c) :
    Function.update d b x c = d c := by
  rw [Function.update_of_ne]
  rintro rfl
  exact t.not_holds hb hc

/-- Homes are installed one by one. -/
theorem Redo.install (h : t.Redo d) (hi : i < rounds t.lh.n) :
    t.Redo (Function.update d (t.lh.block i) (t.new (t.lh.block i))) := by
  have hhome := t.home_block hi
  refine ⟨?_, fun j hj => ?_, fun b hb => ?_⟩
  · obtain ⟨x, hx⟩ := h.headed
    exact ⟨x, by rw [t.update_holds hhome (.inl rfl), hx]⟩
  · rw [t.update_holds hhome (t.holds_slot hj)]
    exact h.logged j hj
  · by_cases hbi : b = t.lh.block i
    · subst hbi
      exact .inr (Function.update_self _ _ _)
    · rw [Function.update_of_ne hbi]
      exact h.mixed b hb

/-- The homes of the first `m` blocks are new. -/
def Installed (m : Nat) (d : BlockNo → Block) : Prop :=
  ∀ i < m, d (t.lh.block i) = t.new (t.lh.block i)

theorem Installed.install {m : Nat} (h : t.Installed m d) (hm : m < rounds t.lh.n) :
    t.Installed (m + 1) (Function.update d (t.lh.block m) (t.new (t.lh.block m))) := by
  intro j hj
  by_cases hjm : j = m
  · subst hjm
    exact Function.update_self _ _ _
  · have hne : t.lh.block j ≠ t.lh.block m := fun heq =>
      hjm (t.fits.distinct j m (by omega) hm heq)
    rw [Function.update_of_ne hne]
    exact h j (by omega)

theorem Installed.new {m : Nat} (h : t.Installed m d) (hm : rounds t.lh.n ≤ m) : t.New d := by
  rintro b ⟨i, hi, rfl⟩
  exact h i (by omega)

/-! ## What memory holds -/

/-- The new data are in the cache, and every other buffer has the data of its
block. -/
structure Buffered (s : LogState) : Prop where
  header : s.lh = t.lh
  home : ∀ b, t.Home b → s.cache b = some (t.new b)
  other : ∀ b, ¬ t.Home b → s.cache b = none ∨ s.cache b = some (s.disk b)

/-- Every buffer has the data of its block. -/
def Clean (s : LogState) : Prop := ∀ b, s.cache b = none ∨ s.cache b = some (s.disk b)

theorem bread_of_clean (h : s.cache b = none ∨ s.cache b = some (s.disk b)) : s.bread b = s.disk b := by
  unfold LogState.bread
  rcases h with h | h <;> rw [h] <;> rfl

theorem Buffered.bread_home (h : t.Buffered s) (hb : t.Home b) : s.bread b = t.new b := by
  rw [LogState.bread, h.home b hb]
  rfl

theorem Buffered.bwrite {x : Block} (h : t.Buffered s) (hb : t.Home b → x = t.new b) :
    t.Buffered (s.bwrite b x) := by
  refine ⟨h.header, fun c hc => ?_, fun c hc => ?_⟩
  · by_cases hcb : c = b
    · subst hcb
      simp [LogState.bwrite, hb hc]
    · simp only [LogState.bwrite, Function.update_of_ne hcb]
      exact h.home c hc
  · by_cases hcb : c = b
    · subst hcb
      simp [LogState.bwrite]
    · simp only [LogState.bwrite, Function.update_of_ne hcb]
      exact h.other c hc

theorem Clean.bwrite {x : Block} (h : Clean s) : Clean (s.bwrite b x) := by
  intro c
  by_cases hcb : c = b
  · subst hcb
    simp [LogState.bwrite]
  · simp only [LogState.bwrite, Function.update_of_ne hcb]
    exact h c

/-! ## The invariant -/

/-- The homes are all new or all old, as the header was written or not. -/
def Settled (c : Bool) (d : BlockNo → Block) : Prop := if c then t.New d else t.Old d

theorem Settled.update {x : Block} {c : Bool} (h : t.Settled c d) (hb : a.Holds b) :
    t.Settled c (Function.update d b x) := by
  cases c with
  | false =>
    intro e he
    rw [t.update_home hb he]
    exact h e he
  | true =>
    intro e he
    rw [t.update_home hb he]
    exact h e he

/-- What a crash finds: nothing to redo, or all of the transaction. -/
def Durable (c : Bool) (d : BlockNo → Block) : Prop :=
  (d a.start 0 = 0 ∧ t.Settled c d) ∨ (c = true ∧ t.Redo d)

/-- What holds at each position; `c` says whether the header has been written. -/
def At (c : Bool) (s : LogState) : Prop :=
  match s.pc with
  | .writeLog m => c = false ∧ t.Buffered s ∧ s.disk a.start 0 = 0 ∧ t.Old s.disk ∧
      t.Logged m s.disk ∧ m ≤ rounds t.lh.n
  | .writeHead => c = false ∧ t.Buffered s ∧ s.disk a.start 0 = 0 ∧ t.Old s.disk ∧
      t.Logged (rounds t.lh.n) s.disk
  | .installTrans m false => c = true ∧ t.Buffered s ∧ t.Redo s.disk ∧ t.Installed m s.disk
  | .installTrans m true => Clean s ∧
      ((c = true ∧ t.Redo s.disk ∧ t.Installed m s.disk ∧ s.lh.n = t.lh.n ∧
          ∀ i < rounds t.lh.n, s.lh.block i = t.lh.block i) ∨
        (s.lh.n = 0 ∧ s.disk a.start 0 = 0 ∧ t.Settled c s.disk))
  | .clearHead _ => s.lh.n = 0 ∧ t.Settled c s.disk ∧ t.Durable c s.disk
  | .readHead => Clean s ∧ t.Durable c s.disk
  | .committed => s.disk a.start 0 = 0 ∧ t.Settled c s.disk
  | .recovered => s.disk a.start 0 = 0 ∧ t.Settled c s.disk

theorem At.durable {c : Bool} (h : t.At c s) : t.Durable c s.disk := by
  unfold At at h
  split at h
  · obtain ⟨rfl, -, hz, hold, -⟩ := h
    exact .inl ⟨hz, hold⟩
  · obtain ⟨rfl, -, hz, hold, -⟩ := h
    exact .inl ⟨hz, hold⟩
  · obtain ⟨rfl, -, hr, -⟩ := h
    exact .inr ⟨rfl, hr⟩
  · rcases h.2 with ⟨rfl, hr, -⟩ | ⟨-, hz, hs⟩
    · exact .inr ⟨rfl, hr⟩
    · exact .inl ⟨hz, hs⟩
  · exact h.2.2
  · exact h.2
  · exact .inl h
  · exact .inl h

/-! ## One step -/

/-- The step that writes the header of the transaction. -/
def commits (s : LogState) (e : LogEvent) : Bool := decide (s.pc = .writeHead ∧ e = .tick)

theorem Untouched.next {c : Bool} (hu : t.Untouched s.disk) (h : t.At c s) :
    t.Untouched (a.next s).disk := by
  unfold At at h
  unfold LogArea.next
  split at h <;> rename_i heq <;> rw [heq] <;> dsimp only
  · rename_i m
    split
    · rename_i hm
      rw [h.2.1.header] at hm
      exact hu.update t (.inr (t.holds_slot hm))
    · exact hu
  · exact hu.update t (.inr (.inl rfl))
  · rename_i m
    split
    · rename_i hm
      rw [h.2.1.header] at hm
      refine hu.update t (.inl ?_)
      rw [h.2.1.header]
      exact t.home_block hm
    · exact hu
  · rename_i m
    split
    · rename_i hm
      rcases h.2 with ⟨-, -, -, hn, hblock⟩ | ⟨hn, -⟩
      · rw [hn] at hm
        refine hu.update t (.inl ?_)
        rw [hblock m hm]
        exact t.home_block hm
      · rw [hn, rounds_zero] at hm
        omega
    · exact hu
  · exact hu.update t (.inr (.inl rfl))
  · exact hu
  · exact hu
  · exact hu

theorem commits_of_ne (h : s.pc ≠ .writeHead) : commits s .tick = false := decide_eq_false fun hc => h hc.1

theorem next_writeLog {m : Nat} (heq : s.pc = .writeLog m) (hbuf : t.Buffered s) (hz : s.disk a.start 0 = 0)
    (hold : t.Old s.disk) (hlog : t.Logged m s.disk) (hm : m ≤ rounds t.lh.n) : t.At false (a.next s) := by
  by_cases hlt : m < rounds t.lh.n
  · have hnext : a.next s = { a.writeLogRound s m with pc := .writeLog (m + 1) } := by
      simp only [LogArea.next, heq, hbuf.header, if_pos hlt]
    have hholds := t.holds_slot hlt
    have hdata : s.bread (s.lh.block m) = t.new (t.lh.block m) := by
      rw [hbuf.header]
      exact hbuf.bread_home t (t.home_block hlt)
    rw [hnext]
    refine ⟨rfl, ?_, ?_, ?_, ?_, hlt⟩
    · have hb := hbuf.bwrite t (b := a.slot m) (x := s.bread (s.lh.block m))
        fun hhome => absurd hholds (t.not_holds hhome)
      exact ⟨hb.header, hb.home, hb.other⟩
    · have hne : a.start ≠ a.slot m := (LogArea.slot_ne_start (t.lt_logSize hlt)).symm
      have hd : (a.writeLogRound s m).disk a.start = s.disk a.start := Function.update_of_ne hne _ _
      rw [hd]
      exact hz
    · intro b hb
      have hd : (a.writeLogRound s m).disk b = s.disk b := t.update_home hholds hb
      rw [hd]
      exact hold b hb
    · intro i hi
      by_cases him : i = m
      · subst him
        exact (Function.update_self _ _ _).trans hdata
      · have hne : a.slot i ≠ a.slot m := fun heq' =>
          him (LogArea.slot_inj (t.lt_logSize (by omega)) (t.lt_logSize hlt) heq')
        have hd : (a.writeLogRound s m).disk (a.slot i) = s.disk (a.slot i) :=
          Function.update_of_ne hne _ _
        exact hd.trans (hlog i (by omega))
  · have hnext : a.next s = { s with pc := .writeHead } := by
      simp only [LogArea.next, heq, hbuf.header, if_neg hlt]
    have hm' : m = rounds t.lh.n := by omega
    rw [hnext]
    exact ⟨rfl, ⟨hbuf.header, hbuf.home, hbuf.other⟩, hz, hold, hm' ▸ hlog⟩

/-- The commit. -/
theorem next_writeHead (heq : s.pc = .writeHead) (hbuf : t.Buffered s) (hold : t.Old s.disk)
    (hlog : t.Logged (rounds t.lh.n) s.disk) : t.At true (a.next s) := by
  have hnext : a.next s = { a.writeHead s with pc := .installTrans 0 false } := by
    simp only [LogArea.next, heq]
  have hholds : a.Holds a.start := .inl rfl
  rw [hnext]
  refine ⟨rfl, ?_, ⟨⟨s.bread a.start, ?_⟩, fun i hi => ?_, fun b hb => ?_⟩, fun i hi => by omega⟩
  · have hb := hbuf.bwrite t (b := a.start) (x := LogArea.putHead s.lh (s.bread a.start))
      fun hhome => absurd hholds (t.not_holds hhome)
    exact ⟨hb.header, hb.home, hb.other⟩
  · rw [← hbuf.header]
    exact Function.update_self _ _ _
  · have hd : (a.writeHead s).disk (a.slot i) = s.disk (a.slot i) :=
      Function.update_of_ne (LogArea.slot_ne_start (t.lt_logSize hi)) _ _
    exact hd.trans (hlog i hi)
  · have hd : (a.writeHead s).disk b = s.disk b := t.update_home hholds hb
    exact .inl (hd.trans (hold b hb))

/-- A home block, in `commit`: its data come from the log block in the cache. -/
theorem next_install {m : Nat} (heq : s.pc = .installTrans m false) (hbuf : t.Buffered s) (hredo : t.Redo s.disk)
    (hins : t.Installed m s.disk) : t.At true (a.next s) := by
  by_cases hlt : m < rounds t.lh.n
  · have hnext : a.next s = { a.installRound s m with pc := .installTrans (m + 1) false } := by
      simp only [LogArea.next, heq, hbuf.header, if_pos hlt]
    have hdata : s.bread (a.slot m) = t.new (t.lh.block m) := by
      have hnot : ¬ t.Home (a.slot m) := fun hb => t.not_holds hb (t.holds_slot hlt)
      rw [bread_of_clean (hbuf.other _ hnot), hredo.logged m hlt]
    have hround : a.installRound s m = s.bwrite (t.lh.block m) (t.new (t.lh.block m)) := by
      rw [LogArea.installRound, hdata, hbuf.header]
    rw [hnext, hround]
    have hb := hbuf.bwrite t (b := t.lh.block m) (x := t.new (t.lh.block m)) fun _ => rfl
    exact ⟨rfl, ⟨hb.header, hb.home, hb.other⟩, hredo.install t hlt, hins.install t hlt⟩
  · have hnext : a.next s = { s with lh := { s.lh with n := 0 }, pc := .clearHead false } := by
      simp only [LogArea.next, heq, hbuf.header, if_neg hlt]
    rw [hnext]
    exact ⟨rfl, hins.new t (by omega), .inr ⟨rfl, hredo⟩⟩

/-- A home block, in recovery: the header that was read names it. -/
theorem next_redo {m : Nat} (heq : s.pc = .installTrans m true) (hclean : Clean s) (hredo : t.Redo s.disk)
    (hins : t.Installed m s.disk) (hn : s.lh.n = t.lh.n) (hblock : ∀ i < rounds t.lh.n, s.lh.block i = t.lh.block i) :
    t.At true (a.next s) := by
  by_cases hlt : m < rounds t.lh.n
  · have hnext : a.next s = { a.installRound s m with pc := .installTrans (m + 1) true } := by
      simp only [LogArea.next, heq, hn, if_pos hlt]
    have hdata : s.bread (a.slot m) = t.new (t.lh.block m) := by
      rw [bread_of_clean (hclean _), hredo.logged m hlt]
    have hround : a.installRound s m = s.bwrite (t.lh.block m) (t.new (t.lh.block m)) := by
      rw [LogArea.installRound, hdata, hblock m hlt]
    rw [hnext, hround]
    exact ⟨hclean.bwrite, .inl ⟨rfl, hredo.install t hlt, hins.install t hlt, hn, hblock⟩⟩
  · have hnext : a.next s = { s with lh := { s.lh with n := 0 }, pc := .clearHead true } := by
      simp only [LogArea.next, heq, hn, if_neg hlt]
    rw [hnext]
    exact ⟨rfl, hins.new t (by omega), .inr ⟨rfl, hredo⟩⟩

theorem next_clearHead {c recovering : Bool} (heq : s.pc = .clearHead recovering) (hn : s.lh.n = 0)
    (hs : t.Settled c s.disk) : t.At c (a.next s) := by
  have hholds : a.Holds a.start := .inl rfl
  have hzero : (a.writeHead s).disk a.start 0 = 0 := by
    have hd : (a.writeHead s).disk a.start = LogArea.putHead s.lh (s.bread a.start) :=
      Function.update_self _ _ _
    rw [hd, LogArea.putHead_zero, hn]
  have hsettled : t.Settled c (a.writeHead s).disk := hs.update t hholds
  cases recovering with
  | false =>
    have hnext : a.next s = { a.writeHead s with pc := .committed } := by
      simp only [LogArea.next, heq]
      rfl
    rw [hnext]
    exact ⟨hzero, hsettled⟩
  | true =>
    have hnext : a.next s = { a.writeHead s with pc := .recovered } := by
      simp only [LogArea.next, heq, if_true]
    rw [hnext]
    exact ⟨hzero, hsettled⟩

theorem next_readHead {c : Bool} (heq : s.pc = .readHead) (hclean : Clean s) (hd : t.Durable c s.disk) :
    t.At c (a.next s) := by
  have hnext : a.next s = { a.readHead s with pc := .installTrans 0 true } := by
    simp only [LogArea.next, heq]
  rw [hnext]
  refine ⟨hclean, ?_⟩
  have hlh : (a.readHead s).lh = LogArea.getHead s.lh (s.disk a.start) := by
    rw [LogArea.readHead, bread_of_clean (hclean _)]
  rcases hd with ⟨hz, hs⟩ | ⟨rfl, hredo⟩
  · refine .inr ⟨?_, hz, hs⟩
    rw [hlh]
    exact hz
  · obtain ⟨x, hx⟩ := hredo.headed
    have hget := LogArea.getHead_putHead s.lh (b := x) t.fits.count.1
    rw [← hx] at hget
    refine .inl ⟨rfl, hredo, fun i hi => by omega, ?_, fun i hi => ?_⟩
    · rw [hlh]
      exact hget.1
    · rw [hlh]
      exact hget.2 i hi

theorem At.next {c : Bool} (h : t.At c s) : t.At (c || commits s .tick) (a.next s) := by
  unfold At at h
  split at h <;> rename_i heq
  case h_2 =>
    obtain ⟨rfl, hbuf, -, hold, hlog⟩ := h
    rw [show (false || commits s .tick) = true by simp [commits, heq]]
    exact t.next_writeHead heq hbuf hold hlog
  all_goals rw [commits_of_ne (by simp [heq]), Bool.or_false]
  · obtain ⟨rfl, hbuf, hz, hold, hlog, hm⟩ := h
    exact t.next_writeLog heq hbuf hz hold hlog hm
  · obtain ⟨rfl, hbuf, hredo, hins⟩ := h
    exact t.next_install heq hbuf hredo hins
  · obtain ⟨hclean, ⟨rfl, hredo, hins, hn, hblock⟩ | ⟨hn, hz, hs⟩⟩ := h
    · exact t.next_redo heq hclean hredo hins hn hblock
    · -- nothing to redo
      have hnext : a.next s = { s with lh := { s.lh with n := 0 }, pc := .clearHead true } := by
        simp only [LogArea.next, heq, hn, rounds_zero, Nat.not_lt_zero, if_false]
      rw [hnext]
      exact ⟨rfl, hs, .inl ⟨hz, hs⟩⟩
  · exact t.next_clearHead heq h.1 h.2.1
  · exact t.next_readHead heq h.1 h.2
  · have hnext : a.next s = s := by simp only [LogArea.next, heq]
    rw [hnext, At, heq]
    exact h
  · have hnext : a.next s = s := by simp only [LogArea.next, heq]
    rw [hnext, At, heq]
    exact h

/-! ## Runs -/

/-- The machine with a record of whether the header of the transaction has been
written. -/
def traced : Lts (LogState × Bool) LogEvent :=
  t.machine.withHistory false fun s e c => c || commits s e

theorem at_start : t.At false t.start ∧ t.Untouched t.start.disk := by
  refine ⟨?_, fun _ _ _ => rfl⟩
  unfold At start
  split_ifs with hpos
  · refine ⟨rfl, ⟨rfl, fun b hb => ?_, fun b hb => t.other b fun i hi heq => hb ⟨i, hi, heq⟩⟩, t.clean,
      fun _ _ => rfl, fun i hi => by omega, Nat.zero_le _⟩
    obtain ⟨i, hi, rfl⟩ := hb
    obtain ⟨x, hx⟩ := Option.isSome_iff_exists.1 (t.data i hi)
    simp [new, hx]
  · exact ⟨t.clean, fun _ _ => rfl⟩

theorem at_of_reaches {s : LogState × Bool} (h : t.traced.Reaches (fun _ _ => True) s) :
    t.At s.2 s.1 ∧ t.Untouched s.1.disk := by
  refine h.invariant (P := fun s => t.At s.2 s.1 ∧ t.Untouched s.1.disk) ?_ ?_
  · rintro ⟨s, c⟩ ⟨hs, hc⟩
    obtain rfl : s = t.start := hs
    obtain rfl : c = false := hc
    exact t.at_start
  · rintro ⟨s, c⟩ e ⟨s', c'⟩ ⟨hat, hu⟩ - ⟨hs', hc'⟩
    dsimp only at hs' hc' hat hu ⊢
    subst hc'
    cases e with
    | tick =>
      obtain rfl : s' = a.next s := hs'
      exact ⟨hat.next t, hu.next t hat⟩
    | crash =>
      obtain rfl : s' = s.crash := hs'
      have hc : (c || commits s .crash) = c := by simp [commits]
      rw [hc]
      exact ⟨⟨fun _ => .inl rfl, hat.durable t⟩, hu⟩

/-- Whenever a recovery has completed, after any crashes: the homes of the
transaction are all old or all new, and new if its header had been written;
nothing else outside the log has changed, and the log is empty. -/
theorem commit_atomic {s : LogState} {c : Bool} (h : t.traced.Reaches (fun _ _ => True) (s, c))
    (hpc : s.pc = .recovered) :
    ((∀ b, t.Home b → s.disk b = t.disk b) ∨ (∀ b, t.Home b → s.disk b = t.new b)) ∧
      (c = true → ∀ b, t.Home b → s.disk b = t.new b) ∧
      (∀ b, ¬ t.Home b → ¬ a.Holds b → s.disk b = t.disk b) ∧ s.disk a.start 0 = 0 := by
  obtain ⟨hat, hu⟩ := t.at_of_reaches h
  dsimp only at hat hu
  rw [At, hpc] at hat
  obtain ⟨hz, hs⟩ := hat
  cases c with
  | false => exact ⟨.inl hs, Bool.noConfusion, hu, hz⟩
  | true => exact ⟨.inr hs, fun _ => hs, hu, hz⟩

/-- Left alone, a machine that has crashed recovers. -/
theorem recovery_completes (s : LogState) : ∃ n, (a.next^[n] s.crash).pc = .recovered := by
  -- the end of the loop, and the header
  have hend : ∀ tail (s : LogState), ¬ tail < rounds s.lh.n → s.pc = .installTrans tail true →
      ∃ n, (a.next^[n] s).pc = .recovered := by
    intro tail s hm hpc
    have hnext : a.next s = { s with lh := { s.lh with n := 0 }, pc := .clearHead true } := by
      simp only [LogArea.next, hpc, if_neg hm]
    refine ⟨2, ?_⟩
    rw [Function.iterate_succ_apply, hnext]
    rfl
  -- each round of the loop leaves one round less
  have hloop : ∀ m tail (s : LogState), rounds s.lh.n ≤ tail + m → s.pc = .installTrans tail true →
      ∃ n, (a.next^[n] s).pc = .recovered := by
    intro m
    induction m with
    | zero => exact fun tail s hm => hend tail s (by omega)
    | succ m ih =>
      intro tail s hm hpc
      by_cases hlt : tail < rounds s.lh.n
      · have hnext : a.next s = { a.installRound s tail with pc := .installTrans (tail + 1) true } := by
          simp only [LogArea.next, hpc, if_pos hlt]
        have hm' : rounds (a.next s).lh.n ≤ tail + 1 + m := by
          rw [hnext]
          have : (a.installRound s tail).lh = s.lh := rfl
          dsimp only
          rw [this]
          omega
        obtain ⟨n, hn⟩ := ih (tail + 1) (a.next s) hm' (by rw [hnext])
        exact ⟨n + 1, hn⟩
      · exact hend tail s hlt hpc
  obtain ⟨n, hn⟩ := hloop _ 0 (a.next s.crash) (Nat.le_add_left _ _) rfl
  exact ⟨n + 1, hn⟩

/-- Blocks 50 and 51, for a log of 31 blocks at block 2. -/
def small : Transaction ⟨2, 31⟩ where
  disk := fun _ _ => 0
  cache := fun b => if b = 50 then some fun _ => 1 else if b = 51 then some fun _ => 2 else none
  lh := ⟨2, fun i => if i = 0 then 50 else 51⟩
  fits := ⟨by decide, by decide, fun i j hi hj heq => by
    have h2 : rounds 2 = 2 := by decide
    dsimp only at hi hj heq
    split_ifs at heq
    · omega
    · exact absurd heq (by decide)
    · exact absurd heq (by decide)
    · omega⟩
  outside := by
    have hfst : ∀ j < 30, (50 : BlockNo) ≠ LogArea.slot ⟨2, 31⟩ j := by decide
    have hsnd : ∀ j < 30, (51 : BlockNo) ≠ LogArea.slot ⟨2, 31⟩ j := by decide
    rintro i - (h | ⟨j, hj, h⟩)
    · dsimp only at h
      split_ifs at h <;> exact absurd h (by decide)
    · dsimp only at h hj
      split_ifs at h
      · exact hfst j (by omega) h
      · exact hsnd j (by omega) h
  clean := rfl
  data := fun i _ => by
    by_cases hi : i = 0 <;> simp [hi]
  other := fun b hb => by
    have h2 : rounds 2 = 2 := by decide
    have hfst : b ≠ 50 := fun heq => hb 0 (by dsimp only; omega) heq.symm
    have hsnd : b ≠ 51 := fun heq => hb 1 (by dsimp only; omega) heq.symm
    exact .inl ((if_neg hfst).trans (if_neg hsnd))

/-- A tick of the small machine. -/
theorem small_tick {s : LogState} {c : Bool} (h : small.traced.Reaches (fun _ _ => True) (s, c)) :
    small.traced.Reaches (fun _ _ => True) (LogArea.next ⟨2, 31⟩ s, c || commits s .tick) :=
  .step (e := .tick) h trivial ⟨rfl, rfl⟩

/-- A crash of the small machine, and the header that is read after it. -/
theorem small_crash {s : LogState} {c : Bool} (h : small.traced.Reaches (fun _ _ => True) (s, c)) :
    small.traced.Reaches (fun _ _ => True) (LogArea.next ⟨2, 31⟩ s.crash, c || commits s .crash || commits s.crash .tick) :=
  small_tick (.step (e := .crash) h trivial ⟨rfl, rfl⟩)

/-- A crash between the two installs, another one at the same point of the recovery,
and a recovery. -/
theorem commit_atomic_small : ∃ s, small.traced.Reaches (fun _ _ => True) (s, true) ∧ s.pc = .recovered ∧
    ∀ b, small.Home b → s.disk b = small.new b := by
  have hhead := small_tick (small_tick (small_tick (small_tick (.init ⟨rfl, rfl⟩))))
  have hcrash : small.traced.Reaches (fun _ _ => True) (_, true) := small_crash (small_tick hhead)
  have hagain : small.traced.Reaches (fun _ _ => True) (_, true) := small_crash (small_tick hcrash)
  have hdone := small_tick (small_tick (small_tick (small_tick hagain)))
  exact ⟨_, hdone, rfl, (small.commit_atomic hdone rfl).2.1 rfl⟩

end Transaction

end Xv6
