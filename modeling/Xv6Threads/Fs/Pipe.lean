-- SUMMARY: Pipes: pipewrite, piperead and pipeclose between their sleep points, and the FIFO they make.
import Mathlib.Data.List.Infix
import Xv6Threads.Base.Fifo
import Xv6Threads.Base.Transition

/-!
# Pipes

A pipe is a circular buffer with free-running 32-bit counters. `pipewrite` and
`piperead` run atomically from one sleep to the next, so any number of readers
and writers take turns at these points. The bytes that writers have put in and
readers have taken out are recorded beside the pipe.
-/

namespace Xv6

/-- `PIPESIZE`. -/
def pipeSize : Nat := 512

/-- `struct pipe`, with its buffer. -/
structure PipeData where
  data : Nat → UInt8
  nread : UInt32
  nwrite : UInt32
  readopen : Bool
  writeopen : Bool

namespace PipeData

/-- `pi->data[pi->nwrite++ % PIPESIZE] = ch`. -/
def put (pi : PipeData) (ch : UInt8) : PipeData :=
  { pi with
    data := Function.update pi.data (pi.nwrite.toNat % pipeSize) ch
    nwrite := pi.nwrite + 1 }

/-- `ch = pi->data[pi->nread++ % PIPESIZE]`. -/
def take (pi : PipeData) : UInt8 × PipeData :=
  (pi.data (pi.nread.toNat % pipeSize), { pi with nread := pi.nread + 1 })

/-- The bytes between the counters, the oldest first. -/
def buffered (pi : PipeData) : List UInt8 :=
  Fifo.contents pipeSize (2 ^ 32) pi.data pi.nread.toNat pi.nwrite.toNat

end PipeData

/-- How a run between two sleep points ends: the call returns, or sleeps in
round `i` of its loop. -/
inductive Pause where
  | returns (r : Int)
  | sleeps (i : Nat)
  deriving DecidableEq

/-- The loop of `pipewrite` in round `i`, with `rem` rounds left. `src i` is what
`copyin` gets from `addr + i`. The last part of the result is what was stored. -/
def pipewriteLoop (src : Nat → Option UInt8) (killed : Bool) :
    Nat → Nat → PipeData → Pause × PipeData × List UInt8
  | 0, i, pi => (.returns i, pi, [])
  | rem + 1, i, pi =>
    if pi.readopen = false ∨ killed then (.returns (-1), pi, [])
    else if pi.nwrite = pi.nread + UInt32.ofNat pipeSize then (.sleeps i, pi, [])
    else
      match src i with
      | none => (.returns i, pi, [])
      | some ch =>
        let (stop, pi, stored) := pipewriteLoop src killed rem (i + 1) (pi.put ch)
        (stop, pi, ch :: stored)

/-- The loop of `piperead` that copies. `dst i` says whether `copyout` to
`addr + i` succeeds; a byte for which it does not is gone. -/
def pipereadLoop (dst : Nat → Bool) : Nat → Nat → PipeData → Nat × PipeData × List UInt8
  | 0, i, pi => (i, pi, [])
  | rem + 1, i, pi =>
    if pi.nread = pi.nwrite then (i, pi, [])
    else
      let (ch, pi) := pi.take
      if dst i then
        let (r, pi, taken) := pipereadLoop dst rem (i + 1) pi
        (r, pi, ch :: taken)
      else (i, pi, [])

/-- Rounds of `for (i = 0; i < n; i++)`, from round `i` on. -/
def roundsFrom (n : Int32) (i : Nat) : Nat := (n.toInt - i).toNat

/-- `pipewrite` from its start (`i = 0`) or from the sleep in round `i`. -/
def pipewrite (src : Nat → Option UInt8) (killed : Bool) (n : Int32) (i : Nat) (pi : PipeData) :
    Pause × PipeData × List UInt8 :=
  pipewriteLoop src killed (roundsFrom n i) i pi

/-- `piperead` from its start or from a sleep: the loop that waits starts over. -/
def piperead (dst : Nat → Bool) (killed : Bool) (n : Int32) (pi : PipeData) : Pause × PipeData × List UInt8 :=
  if pi.nread = pi.nwrite ∧ pi.writeopen then
    if killed then (.returns (-1), pi, []) else (.sleeps 0, pi, [])
  else
    let (r, pi, taken) := pipereadLoop dst (roundsFrom n 0) 0 pi
    (.returns r, pi, taken)

/-! ## Readers and writers -/

/-- A call in the middle: it sleeps, or has been woken and waits for the lock. -/
structure PipeCall where
  /-- a `pipewrite` in round `i`, or a `piperead` -/
  round : Option Nat
  n : Int32
  awake : Bool

/-- A pipe and the processes that use it, and the bytes that went in and out. -/
structure PipeSystem (ι : Type) where
  pi : PipeData
  call : ι → Option PipeCall
  killed : ι → Bool
  accepted : List UInt8
  delivered : List UInt8

inductive PipeEvent (ι : Type) where
  | write (p : ι) (n : Int32) (src : Nat → Option UInt8)
  | read (p : ι) (n : Int32) (dst : Nat → Bool)
  /-- a call goes on, with the memory of its process as it is now -/
  | resume (p : ι) (src : Nat → Option UInt8) (dst : Nat → Bool)
  | close (writable : Bool)
  | kill (p : ι)

namespace PipeSystem

variable {ι : Type} [DecidableEq ι]

/-- `wakeup(&pi->nread)` for readers, `wakeup(&pi->nwrite)` for writers. -/
def wakeup (s : PipeSystem ι) (writers : Bool) : PipeSystem ι :=
  { s with
    call := fun p => (s.call p).map fun c => if c.round.isSome = writers then { c with awake := true } else c }

/-- A run of `pipewrite` by `p`. It ends with a wakeup of the readers unless it
returns `-1`. -/
def runWrite (s : PipeSystem ι) (p : ι) (n : Int32) (i : Nat) (src : Nat → Option UInt8) :
    Option Int × PipeSystem ι :=
  let (stop, pi, stored) := pipewrite src (s.killed p) n i s.pi
  let s := { s with pi := pi, call := Function.update s.call p none, accepted := s.accepted ++ stored }
  match stop with
  | .returns r => (some r, if r = -1 then s else s.wakeup false)
  | .sleeps i =>
    let s := s.wakeup false
    (none, { s with call := Function.update s.call p (some ⟨some i, n, false⟩) })

/-- A run of `piperead` by `p`. -/
def runRead (s : PipeSystem ι) (p : ι) (n : Int32) (dst : Nat → Bool) : Option Int × PipeSystem ι :=
  let (stop, pi, taken) := piperead dst (s.killed p) n s.pi
  let s := { s with pi := pi, call := Function.update s.call p none, delivered := s.delivered ++ taken }
  match stop with
  | .returns r => (some r, if r = -1 then s else s.wakeup true)
  | .sleeps _ => (none, { s with call := Function.update s.call p (some ⟨none, n, false⟩) })

/-- `pipeclose`. -/
def close (s : PipeSystem ι) (writable : Bool) : PipeSystem ι :=
  if writable then { s with pi := { s.pi with writeopen := false } }.wakeup false
  else { s with pi := { s.pi with readopen := false } }.wakeup true

/-- One event: the value a call returns with, if it returns, and the new state.
After both ends are closed the pipe is freed and nothing happens to it. -/
def step (s : PipeSystem ι) (e : PipeEvent ι) : Option (Option Int × PipeSystem ι) :=
  if s.pi.readopen = false ∧ s.pi.writeopen = false then none
  else
    match e with
    | .write p n src => if (s.call p).isSome then none else some (s.runWrite p n 0 src)
    | .read p n dst => if (s.call p).isSome then none else some (s.runRead p n dst)
    | .resume p src dst =>
      match s.call p with
      | some ⟨some i, n, true⟩ => some (s.runWrite p n i src)
      | some ⟨none, n, true⟩ => some (s.runRead p n dst)
      | _ => none
    | .close true => if s.pi.writeopen then some (none, s.close true) else none
    | .close false => if s.pi.readopen then some (none, s.close false) else none
    | .kill p =>
      -- `kill` wakes the victim, whatever it sleeps on
      some (none, { s with
        killed := Function.update s.killed p true
        call := Function.update s.call p ((s.call p).map fun c => { c with awake := true }) })

/-- The `piperead` that an event starts or goes on with: how much it asks for. -/
def reads (s : PipeSystem ι) : PipeEvent ι → Option Int32
  | .read _ n _ => some n
  | .resume p _ _ =>
    match s.call p with
    | some ⟨none, n, _⟩ => some n
    | _ => none
  | _ => none

end PipeSystem

/-- The memory a reader reads into is mapped. -/
def PipeEvent.ReadsMapped {ι : Type} : PipeEvent ι → Prop
  | .read _ _ dst => ∀ i, dst i = true
  | .resume _ _ dst => ∀ i, dst i = true
  | _ => True

/-- A pipe as `pipealloc` leaves it, with no calls in progress. -/
def pipeSystem (ι : Type) [DecidableEq ι] : Lts (PipeSystem ι) (PipeEvent ι) where
  init s := (s.pi.nread = 0 ∧ s.pi.nwrite = 0 ∧ s.pi.readopen = true ∧ s.pi.writeopen = true) ∧
    (∀ p, s.call p = none) ∧ s.accepted = [] ∧ s.delivered = []
  step s e s' := ∃ r, s.step e = some (r, s')

/-! ## The buffer -/

namespace PipeData

variable {pi : PipeData}

/-- No more bytes than there is room for. -/
def Fits (pi : PipeData) : Prop := Fifo.between (2 ^ 32) pi.nread.toNat pi.nwrite.toNat ≤ pipeSize

theorem toNat_lt (x : UInt32) : x.toNat < 2 ^ 32 := x.toNat_lt

theorem succ_toNat (x : UInt32) : (x + 1).toNat = (x.toNat + 1) % 2 ^ 32 := by
  rw [UInt32.toNat_add]
  rfl

theorem between_toNat (x y : UInt32) : Fifo.between (2 ^ 32) x.toNat y.toNat = (y - x).toNat := by
  unfold Fifo.between
  rw [UInt32.toNat_sub]
  congr 1
  have := toNat_lt x
  omega

/-- The test for a full buffer. -/
theorem full_iff : pi.nwrite = pi.nread + UInt32.ofNat pipeSize ↔
    Fifo.between (2 ^ 32) pi.nread.toNat pi.nwrite.toNat = pipeSize := by
  rw [between_toNat]
  constructor
  · intro h
    rw [h, UInt32.add_comm, UInt32.add_sub_cancel]
    rfl
  · intro h
    have hsub : pi.nwrite - pi.nread = UInt32.ofNat pipeSize := UInt32.toNat_inj.1 h
    rw [← hsub, UInt32.add_comm, UInt32.sub_add_cancel]

theorem put_buffered (hfits : pi.Fits) (hroom : pi.nwrite ≠ pi.nread + UInt32.ofNat pipeSize) (ch : UInt8) :
    (pi.put ch).Fits ∧ (pi.put ch).buffered = pi.buffered ++ [ch] := by
  have hlt : Fifo.between (2 ^ 32) pi.nread.toNat pi.nwrite.toNat < pipeSize :=
    lt_of_le_of_ne hfits fun h => hroom (full_iff.2 h)
  have hr := toNat_lt pi.nread
  have hw := toNat_lt pi.nwrite
  refine ⟨?_, ?_⟩
  · simp only [Fits, put, succ_toNat]
    rw [Fifo.between_push hr hw (by unfold pipeSize at hlt; omega)]
    exact hlt
  · simp only [buffered, put, succ_toNat]
    exact Fifo.contents_push (by decide) (by decide) hr hw hlt ch

theorem take_buffered (hfits : pi.Fits) (hne : pi.nread ≠ pi.nwrite) :
    pi.take.2.Fits ∧ pi.buffered = pi.take.1 :: pi.take.2.buffered := by
  have hr := toNat_lt pi.nread
  have hw := toNat_lt pi.nwrite
  have hne : pi.nread.toNat ≠ pi.nwrite.toNat := fun h => hne (UInt32.toNat_inj.1 h)
  refine ⟨?_, ?_⟩
  · have hpop := Fifo.between_pop hr hw hne
    simp only [Fits, take, succ_toNat] at hfits ⊢
    omega
  · simp only [buffered, take, succ_toNat]
    exact Fifo.contents_pop (by decide) hr hw hne

theorem buffered_eq_nil : pi.buffered = [] ↔ pi.nread = pi.nwrite := by
  rw [buffered, Fifo.contents_eq_nil (toNat_lt _) (toNat_lt _), UInt32.toNat_inj]

end PipeData

/-! ## The loops -/

variable {pi pi' : PipeData} {src : Nat → Option UInt8} {dst : Nat → Bool} {killed : Bool} {rem i r : Nat}
  {stop : Pause} {l : List UInt8}

/-- `pipewrite` appends what it stores, and touches neither the reading end nor
the flags. -/
theorem pipewriteLoop_spec (hfits : pi.Fits) (h : pipewriteLoop src killed rem i pi = (stop, pi', l)) :
    pi'.Fits ∧ pi'.buffered = pi.buffered ++ l := by
  induction rem generalizing i pi l with
  | zero =>
    cases h
    exact ⟨hfits, (List.append_nil _).symm⟩
  | succ rem ih =>
    rw [pipewriteLoop] at h
    split at h
    · cases h
      exact ⟨hfits, (List.append_nil _).symm⟩
    split at h
    · cases h
      exact ⟨hfits, (List.append_nil _).symm⟩
    rename_i hroom
    split at h
    · cases h
      exact ⟨hfits, (List.append_nil _).symm⟩
    · rename_i ch _
      obtain ⟨hfits', hput⟩ := PipeData.put_buffered hfits hroom ch
      rcases hloop : pipewriteLoop src killed rem (i + 1) (pi.put ch) with ⟨stop', pi₁, l'⟩
      rw [hloop] at h
      cases h
      obtain ⟨hfits₁, hl⟩ := ih hfits' hloop
      exact ⟨hfits₁, by rw [hl, hput, List.append_assoc, List.singleton_append]⟩

/-- `piperead` takes bytes from the front: as many as it returns, and at least
one if there is one and it was asked for any. -/
theorem pipereadLoop_spec (hdst : ∀ i, dst i = true) (hfits : pi.Fits)
    (h : pipereadLoop dst rem i pi = (r, pi', l)) :
    pi'.Fits ∧ pi.buffered = l ++ pi'.buffered ∧ r = i + l.length ∧ pi'.writeopen = pi.writeopen ∧
      (0 < rem → pi.buffered ≠ [] → l ≠ []) := by
  induction rem generalizing i pi l with
  | zero =>
    cases h
    exact ⟨hfits, (List.nil_append _).symm, (Nat.add_zero _).symm, rfl, fun h => absurd h (Nat.lt_irrefl 0)⟩
  | succ rem ih =>
    rw [pipereadLoop] at h
    split at h
    · rename_i hempty
      cases h
      exact ⟨hfits, (List.nil_append _).symm, (Nat.add_zero _).symm, rfl,
        fun _ hne => absurd (PipeData.buffered_eq_nil.2 hempty) hne⟩
    · rename_i hne
      obtain ⟨hfits', htake⟩ := PipeData.take_buffered hfits hne
      simp only [hdst, if_true] at h
      rcases hloop : pipereadLoop dst rem (i + 1) pi.take.2 with ⟨r', pi₁, l'⟩
      simp only [hloop] at h
      cases h
      obtain ⟨hfits₁, hl, hr, hopen, -⟩ := ih hfits' hloop
      refine ⟨hfits₁, by rw [htake, hl, List.cons_append], ?_, hopen.trans rfl, fun _ _ => List.cons_ne_nil _ _⟩
      rw [hr, List.length_cons]
      omega

/-- `piperead` takes bytes from the front, and returns `0` to a caller that
asked for some only when none are left and no writer is. -/
theorem piperead_spec {n : Int32} (hdst : ∀ i, dst i = true) (hfits : pi.Fits)
    (h : piperead dst killed n pi = (stop, pi', l)) :
    pi'.Fits ∧ pi.buffered = l ++ pi'.buffered ∧
      (0 < n.toInt → stop = .returns 0 → pi'.writeopen = false ∧ pi'.buffered = []) := by
  unfold piperead at h
  split at h
  · split at h <;> cases h <;> exact ⟨hfits, (List.nil_append _).symm, fun _ => nofun⟩
  · rename_i hwait
    rcases hloop : pipereadLoop dst (roundsFrom n 0) 0 pi with ⟨r, pi₁, l'⟩
    rw [hloop] at h
    cases h
    obtain ⟨hfits', hl, hr, hopen, hsome⟩ := pipereadLoop_spec hdst hfits hloop
    refine ⟨hfits', hl, fun hn hstop => ?_⟩
    have hnil : l = [] := by
      have hr0 : (r : Int) = 0 := by simpa using hstop
      exact List.length_eq_zero_iff.1 (by omega)
    have hempty : pi.buffered = [] := by
      by_contra hne
      exact hsome (by unfold roundsFrom; omega) hne hnil
    refine ⟨?_, ?_⟩
    · rw [hopen]
      simpa [PipeData.buffered_eq_nil.1 hempty] using hwait
    · rw [hnil, List.nil_append, hempty] at hl
      exact hl.symm

/-! ## Every run -/

namespace PipeSystem

variable {ι : Type} [DecidableEq ι] {s s' : PipeSystem ι} {e : PipeEvent ι} {p : ι} {n : Int32} {v : Option Int}

/-- What has gone in is what has come out and what is still there. -/
structure Lossless (s : PipeSystem ι) : Prop where
  fits : s.pi.Fits
  bytes : s.accepted = s.delivered ++ s.pi.buffered

theorem runWrite_lossless {i : Nat} (h : s.Lossless) (heq : s.runWrite p n i src = (v, s')) : s'.Lossless := by
  unfold runWrite at heq
  rcases hrun : pipewrite src (s.killed p) n i s.pi with ⟨stop, pi, l⟩
  obtain ⟨hfits, hl⟩ := pipewriteLoop_spec h.fits hrun
  have hnew : s.accepted ++ l = s.delivered ++ pi.buffered := by rw [hl, h.bytes, List.append_assoc]
  rw [hrun] at heq
  cases stop with
  | returns r =>
    obtain ⟨-, rfl⟩ := Prod.mk.inj heq
    split
    · exact ⟨hfits, hnew⟩
    · exact ⟨hfits, hnew⟩
  | sleeps i =>
    cases heq
    exact ⟨hfits, hnew⟩

theorem runRead_lossless (hdst : ∀ i, dst i = true) (h : s.Lossless) (heq : s.runRead p n dst = (v, s')) :
    s'.Lossless ∧ (0 < n.toInt → v = some 0 → s'.pi.writeopen = false ∧ s'.delivered = s'.accepted) := by
  unfold runRead at heq
  rcases hrun : piperead dst (s.killed p) n s.pi with ⟨stop, pi, l⟩
  obtain ⟨hfits, hl, hzero⟩ := piperead_spec hdst h.fits hrun
  have hnew : s.accepted = (s.delivered ++ l) ++ pi.buffered := by rw [h.bytes, hl, List.append_assoc]
  rw [hrun] at heq
  cases stop with
  | returns r =>
    obtain ⟨rfl, rfl⟩ := Prod.mk.inj heq
    have hend : 0 < n.toInt → some r = some (0 : Int) → pi.writeopen = false ∧ s.delivered ++ l = s.accepted := by
      intro hn hr
      obtain ⟨hopen, hempty⟩ := hzero hn (by rw [Option.some.inj hr])
      exact ⟨hopen, by rw [hnew, hempty, List.append_nil]⟩
    split
    · exact ⟨⟨hfits, hnew⟩, hend⟩
    · exact ⟨⟨hfits, hnew⟩, hend⟩
  | sleeps i =>
    cases heq
    exact ⟨⟨hfits, hnew⟩, fun _ => nofun⟩

/-- One event, and what a `piperead` that returns `0` means. -/
theorem step_lossless (h : s.Lossless) (hmapped : e.ReadsMapped) (heq : s.step e = some (v, s')) :
    s'.Lossless ∧ ∀ n, s.reads e = some n → 0 < n.toInt → v = some 0 →
      s'.pi.writeopen = false ∧ s'.delivered = s'.accepted := by
  unfold step at heq
  split at heq
  · cases heq
  cases e with
  | write p n src =>
    dsimp only at heq
    split at heq
    · cases heq
    · exact ⟨runWrite_lossless h (Option.some.inj heq), nofun⟩
  | read p n dst =>
    dsimp only at heq
    split at heq
    · cases heq
    · obtain ⟨hs', hzero⟩ := runRead_lossless hmapped h (Option.some.inj heq)
      refine ⟨hs', fun n' hn' => ?_⟩
      obtain rfl : n = n' := Option.some.inj hn'
      exact hzero
  | resume p src dst =>
    dsimp only at heq
    split at heq
    · rename_i hcall
      refine ⟨runWrite_lossless h (Option.some.inj heq), fun n' hn' => ?_⟩
      simp [reads, hcall] at hn'
    · rename_i n hcall
      obtain ⟨hs', hzero⟩ := runRead_lossless hmapped h (Option.some.inj heq)
      refine ⟨hs', fun n' hn' => ?_⟩
      obtain rfl : n = n' := by simpa [reads, hcall] using hn'
      exact hzero
    · cases heq
  | close writable =>
    refine ⟨?_, nofun⟩
    cases writable with
    | true =>
      dsimp only at heq
      split at heq
      · cases heq
        exact ⟨h.fits, h.bytes⟩
      · cases heq
    | false =>
      dsimp only at heq
      split at heq
      · cases heq
        exact ⟨h.fits, h.bytes⟩
      · cases heq
  | kill p =>
    cases heq
    exact ⟨⟨h.fits, h.bytes⟩, nofun⟩

theorem lossless_of_reaches (h : (pipeSystem ι).Reaches (fun _ e => e.ReadsMapped) s) : s.Lossless := by
  refine h.invariant (P := Lossless) (fun s₀ hs₀ => ?_) fun s₀ e s₁ hs₀ hmapped hstep => ?_
  · obtain ⟨⟨hr, hw, -⟩, -, ha, hd⟩ := hs₀
    have hempty : s₀.pi.buffered = [] := PipeData.buffered_eq_nil.2 (by rw [hr, hw])
    refine ⟨?_, by rw [ha, hd, hempty, List.append_nil]⟩
    rw [PipeData.Fits, hr, hw]
    decide
  · obtain ⟨v, hstep⟩ := hstep
    exact (step_lossless hs₀ hmapped hstep).1

end PipeSystem

/-- A pipe is a FIFO that loses nothing: the counters are never further apart
than the buffer is long, the bytes that came out and those that are in the
buffer are the bytes that went in, in order, and a `piperead` returns `0` only
when the writing end is closed and everything has come out. -/
theorem pipe_lossless {ι : Type} [DecidableEq ι] {s : PipeSystem ι}
    (h : (pipeSystem ι).Reaches (fun _ e => e.ReadsMapped) s) :
    (s.pi.nwrite - s.pi.nread).toNat ≤ pipeSize ∧
    s.accepted = s.delivered ++ s.pi.buffered ∧ s.delivered <+: s.accepted ∧
    ∀ e n v s', e.ReadsMapped → s.reads e = some n → 0 < n.toInt → s.step e = some (v, s') → v = some 0 →
      s'.pi.writeopen = false ∧ s'.delivered = s'.accepted := by
  have hs := PipeSystem.lossless_of_reaches h
  refine ⟨?_, hs.bytes, ⟨s.pi.buffered, hs.bytes.symm⟩, fun e n v s' hmapped hn hpos hstep hv => ?_⟩
  · rw [← PipeData.between_toNat]
    exact hs.fits
  · exact (PipeSystem.step_lossless hs hmapped hstep).2 n hn hpos hv

/-- A writer whose memory ends after three bytes, and a reader that takes two:
the third is in the buffer. -/
theorem pipe_lossless_of_three : ∃ s : PipeSystem Bool,
    (pipeSystem Bool).Reaches (fun _ e => e.ReadsMapped) s ∧
    (s.accepted = [97, 98, 99] ∧ s.delivered = [97, 98]) ∧ s.accepted = s.delivered ++ s.pi.buffered := by
  let s₀ : PipeSystem Bool := ⟨⟨fun _ => 5, 0, 0, true, true⟩, fun _ => none, fun _ => false, [], []⟩
  let src : Nat → Option UInt8 := fun i => if i < 3 then some (UInt8.ofNat (97 + i)) else none
  let es : List (PipeEvent Bool) := [.read true 2 fun _ => true, .write false 10 src, .resume true src fun _ => true]
  have hrun : (Lts.replay (fun s e => (PipeSystem.step s e).map Prod.snd) (fun _ _ => True) s₀ es).any
      (fun s => decide (s.accepted = [97, 98, 99] ∧ s.delivered = [97, 98])) = true := by
    decide +kernel
  obtain ⟨s, hs, hc⟩ := (Option.any_eq_true _ _).1 hrun
  have hreach : (pipeSystem Bool).Reaches (fun _ e => e.ReadsMapped) s := by
    refine .of_replay_mem (fun s e s' h => ?_) (fun _ e he _ => ?_)
      (.init ⟨⟨rfl, rfl, rfl, rfl⟩, fun _ => rfl, rfl, rfl⟩) hs
    · obtain ⟨⟨v, s₁⟩, hstep, rfl⟩ := Option.map_eq_some_iff.1 h
      exact ⟨v, hstep⟩
    simp only [es, List.mem_cons, List.not_mem_nil, or_false] at he
    rcases he with rfl | rfl | rfl
    · exact fun _ => rfl
    · trivial
    · exact fun _ => rfl
  exact ⟨s, hreach, of_decide_eq_true hc, (pipe_lossless hreach).2.1⟩

end Xv6
