-- SUMMARY: The redo log of log.c: transactions, commit and recovery, one disk write at a time.
import Mathlib.Logic.Function.Basic
import Mathlib.Tactic.NormNum
import Mathlib.Tactic.SplitIfs
import Xv6Threads.Base.Transition

/-!
# The log

`log.c` writes the modified blocks of a transaction to the log, then the
header, then the blocks to their homes, and clears the header. After a crash
`recover_from_log` reads the header and installs what it names.

A machine does these routines one `bwrite` at a time, so that a crash can
strike between any two of them. The disk writes a block atomically. A block is
an array of 32-bit words, of which the header uses the first `LOGSIZE + 1`.
-/

namespace Xv6

/-- `LOGSIZE`. -/
def logSize : Nat := 30

/-- The `BSIZE` bytes of a block, as words. -/
abbrev Block := Fin 256 → UInt32

instance someWords : NeZero 256 := ⟨by decide⟩

/-- Block numbers of the disk. -/
abbrev BlockNo := UInt32

/-- Rounds of `for (i = 0; i < n; i++)`, where `n` is a signed word. -/
def rounds (n : UInt32) : Nat := n.toInt32.toInt.toNat

/-- `struct logheader`. -/
structure LogHeader where
  n : UInt32
  block : Nat → BlockNo

/-- Where a machine stands. -/
inductive LogPc where
  /-- round `tail` of `write_log` -/
  | writeLog (tail : Nat)
  /-- the first `write_head` of `commit` -/
  | writeHead
  /-- round `tail` of `install_trans` -/
  | installTrans (tail : Nat) (recovering : Bool)
  /-- `log.lh.n = 0; write_head()` -/
  | clearHead (recovering : Bool)
  /-- `commit` has returned -/
  | committed
  /-- `read_head` of `recover_from_log` -/
  | readHead
  /-- `recover_from_log` has returned -/
  | recovered
  deriving DecidableEq

/-- The disk, the buffers that hold a copy of a block, the header in memory and
the position. -/
structure LogState where
  disk : BlockNo → Block
  cache : BlockNo → Option Block
  lh : LogHeader
  pc : LogPc

namespace LogState

/-- The data of the buffer that `bread` returns: the cached copy, or what is on
the disk. A copy that the cache drops again is not dirty, so neither that nor
the filling of a buffer is seen. -/
def bread (s : LogState) (b : BlockNo) : Block := (s.cache b).getD (s.disk b)

/-- Change the data of a buffer and `bwrite` it. -/
def bwrite (s : LogState) (b : BlockNo) (data : Block) : LogState :=
  { s with disk := Function.update s.disk b data, cache := Function.update s.cache b (some data) }

end LogState

/-- `log.start` and `log.size`. -/
structure LogArea where
  start : BlockNo
  size : Nat

namespace LogArea

variable (a : LogArea)

/-- `log.start + tail + 1`. -/
def slot (tail : Nat) : BlockNo := a.start + UInt32.ofNat (tail + 1)

/-- The header block and the log blocks. -/
def Holds (b : BlockNo) : Prop := b = a.start ∨ ∃ i, i + 1 < a.size ∧ b = a.slot i

/-- What `write_head` puts over the header block. -/
def putHead (lh : LogHeader) (b : Block) : Block := fun j =>
  if j.val = 0 then lh.n
  else if j.val ≤ rounds lh.n then lh.block (j.val - 1)
  else b j

/-- What `read_head` finds in the header block; entries past the count keep
what they have in memory. -/
def getHead (lh : LogHeader) (b : Block) : LogHeader where
  n := b 0
  block i := if h : i < rounds (b 0) ∧ i + 1 < 256 then b ⟨i + 1, h.2⟩ else lh.block i

/-- The body of the loop of `write_log`. -/
def writeLogRound (s : LogState) (tail : Nat) : LogState :=
  s.bwrite (a.slot tail) (s.bread (s.lh.block tail))

/-- The body of the loop of `install_trans`; unpinning the buffer is not seen. -/
def installRound (s : LogState) (tail : Nat) : LogState :=
  s.bwrite (s.lh.block tail) (s.bread (a.slot tail))

def writeHead (s : LogState) : LogState := s.bwrite a.start (putHead s.lh (s.bread a.start))

def readHead (s : LogState) : LogState := { s with lh := getHead s.lh (s.bread a.start) }

/-- One round of a loop, one header access, or the end of a loop. -/
def next (s : LogState) : LogState :=
  match s.pc with
  | .writeLog tail =>
    if tail < rounds s.lh.n then { a.writeLogRound s tail with pc := .writeLog (tail + 1) }
    else { s with pc := .writeHead }
  | .writeHead => { a.writeHead s with pc := .installTrans 0 false }
  | .installTrans tail recovering =>
    if tail < rounds s.lh.n then { a.installRound s tail with pc := .installTrans (tail + 1) recovering }
    else { s with lh := { s.lh with n := 0 }, pc := .clearHead recovering }
  | .clearHead recovering =>
    { a.writeHead s with pc := if recovering then .recovered else .committed }
  | .readHead => { a.readHead s with pc := .installTrans 0 true }
  | .committed => s
  | .recovered => s

/-- `log_write` for block `b`, up to the pin on its buffer: a block that is in
the header already is absorbed. -/
def logWrite (outstanding : Int) (lh : LogHeader) (b : BlockNo) : Except String LogHeader :=
  if logSize ≤ rounds lh.n ∨ a.size ≤ rounds lh.n + 1 then .error "too big a transaction"
  else if outstanding < 1 then .error "log_write outside of trans"
  else if (List.range (rounds lh.n)).any fun i => lh.block i = b then .ok lh
  else .ok ⟨lh.n + 1, fun i => if i = rounds lh.n then b else lh.block i⟩

end LogArea

/-- A crash: memory is lost, and the machine starts with `recover_from_log`. -/
def LogState.crash (s : LogState) : LogState :=
  { disk := s.disk, cache := fun _ => none, lh := ⟨0, fun _ => 0⟩, pc := .readHead }

/-- What can happen to a machine. -/
inductive LogEvent where
  | tick
  | crash
  deriving DecidableEq

/-- The header names distinct blocks, not more than the log holds. -/
structure LogHeader.Fits (a : LogArea) (lh : LogHeader) : Prop where
  nonneg : 0 ≤ lh.n.toInt32.toInt
  count : rounds lh.n ≤ logSize ∧ (0 < rounds lh.n → rounds lh.n < a.size)
  distinct : ∀ i j, i < rounds lh.n → j < rounds lh.n → lh.block i = lh.block j → i = j

/-- The log names this block. -/
def LogHeader.Names (lh : LogHeader) (n : BlockNo) : Prop := ∃ i, i < rounds lh.n ∧ lh.block i = n

instance (lh : LogHeader) (n : BlockNo) : Decidable (lh.Names n) :=
  inferInstanceAs (Decidable (∃ i, i < rounds lh.n ∧ lh.block i = n))

/-- A transaction that is about to be committed: the header in memory names
distinct blocks outside the log, and the new data are in the cache. Every other
buffer has the data of its block. -/
structure Transaction (a : LogArea) where
  disk : BlockNo → Block
  cache : BlockNo → Option Block
  lh : LogHeader
  fits : lh.Fits a
  outside : ∀ i, i < rounds lh.n → ¬ a.Holds (lh.block i)
  clean : disk a.start 0 = 0
  data : ∀ i, i < rounds lh.n → (cache (lh.block i)).isSome
  other : ∀ b, (∀ i, i < rounds lh.n → lh.block i ≠ b) → cache b = none ∨ cache b = some (disk b)

/-! ## log_write -/

theorem rounds_zero : rounds 0 = 0 := rfl

/-- Counting up a small count. -/
theorem rounds_succ {n : UInt32} (h : rounds n < logSize) (hn : 0 ≤ n.toInt32.toInt) :
    rounds (n + 1) = rounds n + 1 ∧ 0 ≤ (n + 1).toInt32.toInt := by
  have hint : ∀ m : UInt32, m.toInt32.toInt = m.toBitVec.toInt := fun _ => rfl
  unfold rounds logSize at *
  simp only [hint, UInt32.toBitVec_add, UInt32.toBitVec_one, BitVec.toInt_eq_toNat_cond,
    BitVec.toNat_add] at *
  norm_num at *
  split_ifs at * <;> omega

/-- `log_write` keeps the header distinct and within the log. -/
theorem LogArea.logWrite_fits {a : LogArea} {outstanding : Int} {lh lh' : LogHeader} {b : BlockNo}
    (h : a.logWrite outstanding lh b = .ok lh') (hf : lh.Fits a) : lh'.Fits a := by
  unfold logWrite at h
  split at h
  · cases h
  rename_i hroom
  split at h
  · cases h
  split at h
  · cases h
    exact hf
  rename_i hnew
  cases h
  obtain ⟨hsucc, hpos⟩ := rounds_succ (n := lh.n) (by omega) hf.nonneg
  have hfresh : ∀ i, i < rounds lh.n → lh.block i ≠ b := by
    simpa using hnew
  refine ⟨hpos, ⟨by dsimp only; omega, fun _ => by dsimp only; omega⟩, fun i j hi hj heq => ?_⟩
  dsimp only at hi hj heq
  rw [hsucc] at hi hj
  split at heq <;> split at heq
  · omega
  · exact absurd heq.symm (hfresh j (by omega))
  · exact absurd heq (hfresh i (by omega))
  · exact hf.distinct i j (by omega) (by omega) heq

theorem LogHeader.fits_empty {a : LogArea} (block : Nat → BlockNo) : (⟨0, block⟩ : LogHeader).Fits a :=
  ⟨Int.le_refl 0, ⟨Nat.zero_le _, fun h => absurd h (Nat.lt_irrefl 0)⟩, fun i _ hi => absurd hi (Nat.not_lt_zero i)⟩

/-- `log_write` adds its block to the header, unless it is there already. -/
theorem LogArea.logWrite_names {a : LogArea} {outstanding : Int} {lh lh' : LogHeader} {b : BlockNo}
    (h : a.logWrite outstanding lh b = .ok lh') (hf : lh.Fits a) :
    1 ≤ outstanding ∧ ∀ n, lh'.Names n ↔ lh.Names n ∨ n = b := by
  unfold logWrite at h
  split at h
  · cases h
  rename_i hroom
  split at h
  · cases h
  rename_i hout
  refine ⟨by omega, fun n => ?_⟩
  split at h
  · rename_i hold
    cases h
    have hb : lh.Names b := by simpa [LogHeader.Names] using hold
    exact ⟨.inl, fun h => h.elim id fun heq => heq ▸ hb⟩
  · cases h
    obtain ⟨hsucc, -⟩ := rounds_succ (n := lh.n) (by omega) hf.nonneg
    simp only [LogHeader.Names, hsucc]
    constructor
    · rintro ⟨i, hi, hn⟩
      split at hn
      · exact .inr hn.symm
      · exact .inl ⟨i, by omega, hn⟩
    · rintro (⟨i, hi, hn⟩ | rfl)
      · exact ⟨i, by omega, by rw [if_neg (by omega), hn]⟩
      · exact ⟨rounds lh.n, by omega, if_pos rfl⟩

namespace Transaction

variable {a : LogArea} (t : Transaction a)

/-- A block of the transaction. -/
def Home (b : BlockNo) : Prop := ∃ i, i < rounds t.lh.n ∧ t.lh.block i = b

/-- The new contents of a block of the transaction. -/
def new (b : BlockNo) : Block := (t.cache b).getD (t.disk b)

/-- `commit()`: an empty transaction is not written. -/
def start : LogState := ⟨t.disk, t.cache, t.lh, if 0 < rounds t.lh.n then .writeLog 0 else .committed⟩

/-- The machine that commits the transaction and crashes at will. -/
def machine : Lts LogState LogEvent where
  init s := s = t.start
  step s e s' := s' = match e with
    | .tick => a.next s
    | .crash => s.crash

end Transaction

end Xv6
