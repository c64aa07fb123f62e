-- SUMMARY: The transmit side of the UART: uartputc, uartstart and the interrupt lose no character and forget no writer.
import Xv6Threads.Base.Fifo
import Xv6Threads.Base.Transition
import Mathlib.Tactic.Basic

/-!
# Output through the UART

Writers put characters into a circular buffer and sleep while it is full;
`uartstart` moves them to the device, from a writer or from the interrupt. The
device interrupts when it has emptied its register. `printf` and the echo write
to the register without the buffer and without its lock.
-/

namespace Xv6.Tty

/-- `UART_TX_BUF_SIZE`. -/
def uartTxBufSize : Nat := 32

/-- The transmit buffer and the device behind it. -/
structure Uart where
  buf : Nat → UInt8
  w : UInt64
  r : UInt64
  /-- `LSR_TX_IDLE` -/
  idle : Bool
  /-- an interrupt that has not been taken -/
  pending : Bool
  /-- what `uartstart` has written to `THR` -/
  sent : List UInt8

namespace Uart

/-- The device has emptied its register. -/
def ready (u : Uart) : Uart := { u with idle := true, pending := true }

/-- The end of a round of `uartstart`. -/
def send (u : Uart) : Uart :=
  { u with r := u.r + 1, idle := false, sent := u.sent ++ [u.buf (u.r.toNat % uartTxBufSize)] }

/-- `uartstart`, and whether it wakes the writers. The device gets ready for
another byte at most `n` times while it runs. -/
def uartstart : Nat → Uart → Uart × Bool
  | 0, u => if u.w = u.r then (u, false) else if ¬ u.idle then (u, false) else (u.send, true)
  | n + 1, u =>
    if u.w = u.r then (u, false)
    else if ¬ u.idle then (u, false)
    else ((uartstart n u.send.ready).1, true)

/-- `uartputc` has found room. -/
def store (u : Uart) (c : UInt8) : Uart :=
  { u with buf := Function.update u.buf (u.w.toNat % uartTxBufSize) c, w := u.w + 1 }

/-- What waits in the buffer. -/
def waiting (u : Uart) : List UInt8 := Fifo.contents uartTxBufSize (2 ^ 64) u.buf u.r.toNat u.w.toNat

end Uart

/-- A `uartputc` that sleeps, or has been woken. -/
structure PutCall where
  c : UInt8
  awake : Bool
  deriving DecidableEq

/-- The UART and the processes that write to it. What they have put is recorded. -/
structure Output (ι : Type) where
  uart : Uart
  call : ι → Option PutCall
  put : List UInt8

inductive OutputEvent (ι : Type) where
  | put (p : ι) (c : UInt8) (n : Nat)
  | resume (p : ι) (n : Nat)
  /-- `uartputc_sync` writes to `THR` -/
  | sync
  | ready
  | intr (n : Nat)
  /-- `kill` wakes a writer, which goes back to sleep if the buffer is still full -/
  | kill (p : ι)

namespace Output

variable {ι : Type} [DecidableEq ι]

/-- `wakeup(&uart_tx_r)`. -/
def wakeup (s : Output ι) : Output ι :=
  { s with call := fun p => (s.call p).map fun c => { c with awake := true } }

def start (s : Output ι) (n : Nat) : Output ι :=
  if (s.uart.uartstart n).2 then { s with uart := (s.uart.uartstart n).1 }.wakeup
  else { s with uart := (s.uart.uartstart n).1 }

/-- `uartputc` by `p`, from its start or from its sleep. -/
def uartputc (s : Output ι) (p : ι) (c : UInt8) (n : Nat) : Output ι :=
  if s.uart.w = s.uart.r + UInt64.ofNat uartTxBufSize then
    { s with call := Function.update s.call p (some ⟨c, false⟩) }
  else
    { uart := s.uart.store c, call := Function.update s.call p none, put := s.put ++ [c] : Output ι }.start n

def step (s : Output ι) : OutputEvent ι → Option (Output ι)
  | .put p c n => if (s.call p).isSome then none else some (s.uartputc p c n)
  | .resume p n =>
    match s.call p with
    | some ⟨c, true⟩ => some (s.uartputc p c n)
    | _ => none
  | .sync => some { s with uart := { s.uart with idle := false } }
  | .ready => if s.uart.idle then none else some { s with uart := s.uart.ready }
  | .intr n => if s.uart.pending then some ({ s with uart := { s.uart with pending := false } }.start n) else none
  | .kill p => some { s with call := Function.update s.call p ((s.call p).map fun c => { c with awake := true }) }

end Output

/-- The UART after `uartinit`. -/
def output (ι : Type) [DecidableEq ι] : Lts (Output ι) (OutputEvent ι) where
  init s := (s.uart.w = 0 ∧ s.uart.r = 0 ∧ s.uart.idle = true ∧ s.uart.sent = []) ∧ (∀ p, s.call p = none) ∧ s.put = []
  step s e s' := s.step e = some s'

/-! ## The buffer -/

namespace Uart

variable {u : Uart} {n : Nat}

theorem toNat_lt (x : UInt64) : x.toNat < 2 ^ 64 := x.toNat_lt

theorem toNat_succ (x : UInt64) : (x + 1).toNat = (x.toNat + 1) % 2 ^ 64 := by
  rw [UInt64.toNat_add]
  rfl

theorem between_toNat (x y : UInt64) : Fifo.between (2 ^ 64) x.toNat y.toNat = (y - x).toNat := by
  unfold Fifo.between
  rw [UInt64.toNat_sub]
  congr 1
  have := toNat_lt x
  omega

theorem waiting_eq_nil : u.waiting = [] ↔ u.r = u.w := by
  rw [waiting, Fifo.contents_eq_nil (toNat_lt _) (toNat_lt _), UInt64.toNat_inj]

theorem length_waiting : u.waiting.length = (u.w - u.r).toNat := by
  rw [waiting, Fifo.contents_length, between_toNat]

/-- The test for a full buffer. -/
theorem full_iff : u.w = u.r + UInt64.ofNat uartTxBufSize ↔ u.waiting.length = uartTxBufSize := by
  have hsize : (UInt64.ofNat uartTxBufSize).toNat = uartTxBufSize := rfl
  rw [length_waiting]
  constructor
  · intro h
    rw [h, UInt64.add_comm, UInt64.add_sub_cancel, hsize]
  · intro h
    have heq : u.w - u.r = UInt64.ofNat uartTxBufSize := UInt64.toNat_inj.1 (h.trans hsize.symm)
    rw [← heq, UInt64.add_comm, UInt64.sub_add_cancel]

theorem waiting_store (h : u.waiting.length < uartTxBufSize) (c : UInt8) : (u.store c).waiting = u.waiting ++ [c] := by
  rw [waiting, Fifo.contents_length] at h
  simp only [waiting, store, toNat_succ]
  exact Fifo.contents_push (by decide) (by decide) (toNat_lt _) (toNat_lt _) h c

theorem waiting_send (h : u.w ≠ u.r) : u.waiting = u.buf (u.r.toNat % uartTxBufSize) :: u.send.waiting := by
  have hne : u.r.toNat ≠ u.w.toNat := fun heq => h (UInt64.toNat_inj.1 heq).symm
  simp only [waiting, send, toNat_succ]
  exact Fifo.contents_pop (by decide) (toNat_lt _) (toNat_lt _) hne

theorem send_order (h : u.w ≠ u.r) : u.send.sent ++ u.send.waiting = u.sent ++ u.waiting := by
  rw [waiting_send h]
  simp [send]

/-- `uartstart` sends from the front, and stops at an empty buffer or a busy device. -/
theorem uartstart_spec (u : Uart) (n : Nat) :
    (u.uartstart n).1.sent ++ (u.uartstart n).1.waiting = u.sent ++ u.waiting ∧
      (u.uartstart n).1.waiting.length ≤ u.waiting.length ∧
      ((u.uartstart n).1.waiting ≠ [] → (u.uartstart n).1.idle = true → (u.uartstart n).1.pending = true) := by
  induction n generalizing u with
  | zero =>
    rw [uartstart]
    split_ifs with hempty hidle
    · exact ⟨rfl, Nat.le_refl _, fun hne => absurd (waiting_eq_nil.2 hempty.symm) hne⟩
    · refine ⟨send_order hempty, ?_, fun _ h => (by cases h)⟩
      rw [waiting_send hempty, List.length_cons]
      exact Nat.le_succ _
    · exact ⟨rfl, Nat.le_refl _, fun _ h => absurd h hidle⟩
  | succ n ih =>
    rw [uartstart]
    split_ifs with hempty hidle
    · exact ⟨rfl, Nat.le_refl _, fun hne => absurd (waiting_eq_nil.2 hempty.symm) hne⟩
    · obtain ⟨horder, hlength, hpending⟩ := ih u.send.ready
      refine ⟨horder.trans (send_order hempty), ?_, hpending⟩
      rw [waiting_send hempty, List.length_cons]
      exact Nat.le_succ_of_le hlength
    · exact ⟨rfl, Nat.le_refl _, fun _ h => absurd h hidle⟩

/-- A `uartstart` that wakes nobody does nothing. -/
theorem uartstart_quiet (h : (u.uartstart n).2 = false) : (u.uartstart n).1 = u := by
  cases n <;> rw [uartstart] at h ⊢ <;> split_ifs at h ⊢ <;> rfl

theorem uartstart_wakes (hne : u.waiting ≠ []) (hidle : u.idle = true) : (u.uartstart n).2 = true := by
  have hw : u.w ≠ u.r := fun heq => hne (waiting_eq_nil.2 heq.symm)
  cases n <;> rw [uartstart, if_neg hw, if_neg (not_not.2 hidle)]

end Uart

/-! ## Runs -/

namespace Output

variable {ι : Type} [DecidableEq ι] {s s' : Output ι} {p : ι} {e : OutputEvent ι}

structure Sound (s : Output ι) : Prop where
  order : s.put = s.uart.sent ++ s.uart.waiting
  fits : s.uart.waiting.length ≤ uartTxBufSize
  busy : s.uart.waiting ≠ [] → s.uart.idle = true → s.uart.pending = true
  asleep : ∀ p c, s.call p = some c → c.awake = false → s.uart.waiting.length = uartTxBufSize

omit [DecidableEq ι] in
theorem sound_start (horder : s.put = s.uart.sent ++ s.uart.waiting) (hfits : s.uart.waiting.length ≤ uartTxBufSize)
    (hasleep : ∀ p c, s.call p = some c → c.awake = false → s.uart.waiting.length = uartTxBufSize) (n : Nat) :
    (s.start n).Sound := by
  obtain ⟨hsent, hlength, hbusy⟩ := s.uart.uartstart_spec n
  have horder' : s.put = (s.uart.uartstart n).1.sent ++ (s.uart.uartstart n).1.waiting := horder.trans hsent.symm
  rw [start]
  split_ifs with hwakes
  · refine ⟨horder', Nat.le_trans hlength hfits, hbusy, ?_⟩
    intro p c hc hawake
    simp only [wakeup, Option.map_eq_some_iff] at hc
    obtain ⟨d, -, rfl⟩ := hc
    cases hawake
  · refine ⟨horder', Nat.le_trans hlength hfits, hbusy, ?_⟩
    have hsame := Uart.uartstart_quiet (Bool.eq_false_iff.2 hwakes)
    rw [hsame]
    exact hasleep

theorem Sound.uartputc (h : s.Sound) (p : ι) (c : UInt8) (n : Nat) : (s.uartputc p c n).Sound := by
  rw [Output.uartputc]
  split_ifs with hfull
  · refine ⟨h.order, h.fits, h.busy, ?_⟩
    intro q d hd hawake
    exact Uart.full_iff.1 hfull
  · have hne : s.uart.waiting.length ≠ uartTxBufSize := fun heq => hfull (Uart.full_iff.2 heq)
    have hroom : s.uart.waiting.length < uartTxBufSize := Nat.lt_of_le_of_ne h.fits hne
    have hstore := Uart.waiting_store hroom c
    apply sound_start
    · change s.put ++ [c] = s.uart.sent ++ (s.uart.store c).waiting
      rw [hstore, h.order, List.append_assoc]
    · change (s.uart.store c).waiting.length ≤ uartTxBufSize
      rw [hstore, List.length_append]
      exact hroom
    · -- nobody sleeps while there is room
      intro q d hd hawake
      by_cases hq : q = p
      · subst hq
        simp at hd
      · simp only [Function.update_of_ne hq] at hd
        exact absurd (h.asleep q d hd hawake) hne

theorem Sound.step (h : s.Sound) (hstep : s.step e = some s') : s'.Sound := by
  cases e with
  | put p c n =>
    rw [Output.step] at hstep
    split_ifs at hstep
    obtain rfl := Option.some.inj hstep
    exact h.uartputc p c n
  | resume p n =>
    cases hcall : s.call p with
    | none => simp [Output.step, hcall] at hstep
    | some d =>
      rcases d with ⟨c, awake⟩
      cases awake with
      | false => simp [Output.step, hcall] at hstep
      | true =>
        simp only [Output.step, hcall] at hstep
        obtain rfl := Option.some.inj hstep
        exact h.uartputc p c n
  | sync =>
    obtain rfl := Option.some.inj hstep
    exact ⟨h.order, h.fits, fun _ hidle => (by cases hidle), h.asleep⟩
  | ready =>
    rw [Output.step] at hstep
    split_ifs at hstep
    obtain rfl := Option.some.inj hstep
    exact ⟨h.order, h.fits, fun _ _ => rfl, h.asleep⟩
  | intr n =>
    rw [Output.step] at hstep
    split_ifs at hstep
    obtain rfl := Option.some.inj hstep
    exact sound_start (s := { s with uart := { s.uart with pending := false } }) h.order h.fits h.asleep n
  | kill p =>
    obtain rfl := Option.some.inj hstep
    refine ⟨h.order, h.fits, h.busy, ?_⟩
    intro q d hd hawake
    by_cases hq : q = p
    · subst hq
      simp only [Function.update_self, Option.map_eq_some_iff] at hd
      obtain ⟨c, -, rfl⟩ := hd
      cases hawake
    · simp only [Function.update_of_ne hq] at hd
      exact h.asleep q d hd hawake

theorem Sound.init (h : (output ι).init s) : s.Sound := by
  obtain ⟨⟨hw, hr, -, hsent⟩, hcall, hput⟩ := h
  have hwaiting : s.uart.waiting = [] := Uart.waiting_eq_nil.2 (hr.trans hw.symm)
  refine ⟨?_, ?_, fun hne => absurd hwaiting hne, ?_⟩
  · rw [hput, hsent, hwaiting]
    rfl
  · rw [hwaiting]
    exact Nat.zero_le _
  · intro p c hc
    rw [hcall p] at hc
    cases hc

theorem sound (h : (output ι).Reaches (fun _ _ => True) s) : s.Sound := by
  refine h.invariant (fun _ => Sound.init) ?_
  rintro s e s' hs - hstep
  exact hs.step hstep

end Output

section

variable {ι : Type} [DecidableEq ι] {s : Output ι} {p : ι} {c : PutCall}

/-- Whatever the interleaving of writers, interrupts, kills and writes without the buffer,
`uartstart` gives the device the characters that were put in, each once and in
order; the others wait in the buffer, which is not overrun. -/
theorem uart_in_order (h : (output ι).Reaches (fun _ _ => True) s) :
    s.put = s.uart.sent ++ s.uart.waiting ∧ s.uart.waiting.length ≤ uartTxBufSize :=
  ⟨(Output.sound h).order, (Output.sound h).fits⟩

/-- A writer that sleeps waits for a full buffer. Either the device is busy and
will interrupt, or its interrupt is pending and wakes the writer. -/
theorem writer_not_forgotten (h : (output ι).Reaches (fun _ _ => True) s) (hc : s.call p = some c)
    (hsleep : c.awake = false) :
    s.uart.waiting.length = uartTxBufSize ∧
      (s.uart.idle = false ∧ (∃ s', s.step .ready = some s') ∨
        ∀ n, ∃ s', s.step (.intr n) = some s' ∧ s'.call p = some { c with awake := true }) := by
  have hsound := Output.sound h
  have hfull := hsound.asleep p c hc hsleep
  refine ⟨hfull, ?_⟩
  cases hidle : s.uart.idle with
  | false =>
    refine .inl ⟨rfl, s.uart.ready |> fun u => { s with uart := u }, ?_⟩
    rw [Output.step, if_neg (by simp [hidle])]
  | true =>
    refine .inr fun n => ?_
    have hne : s.uart.waiting ≠ [] := by
      intro heq
      rw [heq] at hfull
      cases hfull
    have hpending := hsound.busy hne hidle
    refine ⟨_, by rw [Output.step, if_pos hpending], ?_⟩
    have hwakes : (({ s.uart with pending := false } : Uart).uartstart n).2 = true :=
      Uart.uartstart_wakes hne hidle
    rw [Output.start, if_pos hwakes]
    simp [Output.wakeup, hc]

end

/-! ## A full buffer -/

namespace Writing

/-- The UART at boot. -/
def booted : Output Unit := ⟨⟨fun _ => 0, 0, 0, true, false, []⟩, fun _ => none, []⟩

/-- After calls that write `n` characters. -/
def written : Nat → Output Unit
  | 0 => booted
  | n + 1 => ((written n).step (.put () 120 0)).getD (written n)

theorem reaches_written (n : Nat) : (output Unit).Reaches (fun _ _ => True) (written n) := by
  induction n with
  | zero => exact .init ⟨⟨rfl, rfl, rfl, rfl⟩, fun _ => rfl, rfl⟩
  | succ n ih =>
    rw [written]
    cases hstep : (written n).step (.put () 120 0) with
    | none => exact ih
    | some s => exact ih.step trivial hstep

/-- The device has the first character, the buffer 32, and the last call sleeps. -/
theorem uart_in_order_written : (written 34).put = (written 34).uart.sent ++ (written 34).uart.waiting :=
  (uart_in_order (reaches_written 34)).1

/-- The call that sleeps waits for a full buffer. -/
theorem writer_not_forgotten_written : (written 34).uart.waiting.length = 32 :=
  (writer_not_forgotten (p := ()) (c := ⟨120, false⟩) (reaches_written 34) (by decide +kernel) rfl).1

end Writing

end Xv6.Tty
