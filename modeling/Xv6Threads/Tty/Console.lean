-- SUMMARY: The console: consoleintr as a line editor over a circular buffer, and consoleread between its sleep points.
import Xv6Threads.Fs.Pipe

/-!
# The console

Three 32-bit counters run over one buffer: what is between `r` and `w` has been
committed and waits for readers, what is between `w` and `e` is still edited.
`Editing` is the same console without a buffer. What readers have taken and what
has been echoed is recorded beside the console.
-/

namespace Xv6.Tty

/-- `INPUT_BUF_SIZE`. -/
def inputBufSize : Nat := 128

/-- `BACKSPACE`, for `consputc`. -/
def backspace : Nat := 0x100

def ctrlD : UInt8 := 4
def newline : UInt8 := 10

/-- `cons`. -/
structure Cons where
  buf : Nat → UInt8
  r : UInt32
  w : UInt32
  e : UInt32

namespace Cons

/-- `cons.buf[i % INPUT_BUF_SIZE]`. -/
def cell (c : Cons) (i : UInt32) : UInt8 := c.buf (i.toNat % inputBufSize)

/-- The loop that kills a line, with at most `n` characters. The characters that
it echoes come with the result. -/
def killLine : Nat → Cons → Cons × List Nat
  | 0, c => (c, [])
  | n + 1, c =>
    if c.e ≠ c.w ∧ c.cell (c.e - 1) ≠ newline then
      let (c, echo) := killLine n { c with e := c.e - 1 }
      (c, backspace :: echo)
    else (c, [])

/-- `consoleintr`, with what it echoes and whether it wakes the readers. -/
def consoleintr (c : Cons) (ch : UInt8) : Cons × List Nat × Bool :=
  if ch = 16 then (c, [], false)
  else if ch = 21 then
    let (c, echo) := c.killLine (c.e - c.w).toNat
    (c, echo, false)
  else if ch = 8 ∨ ch = 127 then
    if c.e ≠ c.w then ({ c with e := c.e - 1 }, [backspace], false) else (c, [], false)
  else if ch ≠ 0 ∧ c.e - c.r < UInt32.ofNat inputBufSize then
    let ch := if ch = 13 then newline else ch
    let c := { c with buf := Function.update c.buf (c.e.toNat % inputBufSize) ch, e := c.e + 1 }
    if ch = newline ∨ ch = ctrlD ∨ c.e - c.r = UInt32.ofNat inputBufSize then ({ c with w := c.e }, [ch.toNat], true)
    else (c, [ch.toNat], false)
  else (c, [], false)

/-- The loop of `consoleread`, with `rem` bytes to go and `i` bytes copied. `dst i`
says whether `copyout` to the `i`-th byte succeeds. The last part of the result is
what has been taken out of the buffer for good. -/
def consoleread (dst : Nat → Bool) (killed : Bool) : Nat → Nat → Cons → Pause × Cons × List UInt8
  | 0, i, c => (.returns i, c, [])
  | rem + 1, i, c =>
    if c.r = c.w then
      if killed then (.returns (-1), c, []) else (.sleeps i, c, [])
    else
      let ch := c.cell c.r
      let c := { c with r := c.r + 1 }
      if ch = ctrlD then
        -- a ^D behind other bytes is left for the next call
        if 0 < i then (.returns i, { c with r := c.r - 1 }, []) else (.returns i, c, [ch])
      else if ¬ dst i then (.returns i, c, [ch])
      else if ch = newline then (.returns (i + 1), c, [ch])
      else
        let (stop, c, taken) := consoleread dst killed rem (i + 1) c
        (stop, c, ch :: taken)

end Cons

/-! ## Readers -/

/-- A `consoleread` of `n` bytes that has copied `i` of them and sleeps, or has
been woken. -/
structure ReadCall where
  n : Int32
  i : Nat
  awake : Bool

/-- The console and the processes that read from it. -/
structure System (ι : Type) where
  cons : Cons
  call : ι → Option ReadCall
  killed : ι → Bool
  taken : List UInt8
  echo : List Nat

inductive Event (ι : Type) where
  /-- `uartintr` has a character -/
  | key (ch : UInt8)
  | read (p : ι) (n : Int32) (dst : Nat → Bool)
  /-- a call goes on, with the memory of its process as it is now -/
  | resume (p : ι) (dst : Nat → Bool)
  | kill (p : ι)

namespace System

variable {ι : Type} [DecidableEq ι]

/-- `wakeup(&cons.r)`. -/
def wakeup (s : System ι) : System ι :=
  { s with call := fun p => (s.call p).map fun c => { c with awake := true } }

/-- `consoleread` by `p`, from its start or from its sleep. -/
def runRead (s : System ι) (p : ι) (n : Int32) (i : Nat) (dst : Nat → Bool) : Option Int × System ι :=
  let (stop, cons, taken) := Cons.consoleread dst (s.killed p) (roundsFrom n i) i s.cons
  let s := { s with cons := cons, taken := s.taken ++ taken }
  match stop with
  | .returns r => (some r, { s with call := Function.update s.call p none })
  | .sleeps i => (none, { s with call := Function.update s.call p (some ⟨n, i, false⟩) })

/-- One event: the value a call returns with, if it returns, and the new state. -/
def step (s : System ι) : Event ι → Option (Option Int × System ι)
  | .key ch =>
    let (cons, echo, wakes) := s.cons.consoleintr ch
    let s := { s with cons := cons, echo := s.echo ++ echo }
    some (none, if wakes then s.wakeup else s)
  | .read p n dst => if (s.call p).isSome then none else some (s.runRead p n 0 dst)
  | .resume p dst =>
    match s.call p with
    | some ⟨n, i, true⟩ => some (s.runRead p n i dst)
    | _ => none
  | .kill p =>
    some (none, { s with
      killed := Function.update s.killed p true
      call := Function.update s.call p ((s.call p).map fun c => { c with awake := true }) })

end System

/-- The console after `consoleinit`. -/
def console (ι : Type) [DecidableEq ι] : Lts (System ι) (Event ι) where
  init s := (s.cons.r = 0 ∧ s.cons.w = 0 ∧ s.cons.e = 0) ∧ (∀ p, s.call p = none) ∧ s.taken = [] ∧ s.echo = []
  step s e s' := ∃ r, s.step e = some (r, s')

/-! ## The console without a buffer -/

/-- What has been committed, and the line that is edited. -/
structure Editing where
  committed : List UInt8
  line : List UInt8
  deriving DecidableEq

namespace Editing

/-- A character arrives: what changes, and what is echoed. -/
def key (l : Editing) (ch : UInt8) : Editing × List Nat :=
  if ch = 16 then (l, [])
  else if ch = 21 then ({ l with line := [] }, List.replicate l.line.length backspace)
  else if ch = 8 ∨ ch = 127 then ({ l with line := l.line.dropLast }, if l.line = [] then [] else [backspace])
  else if ch = 0 ∨ inputBufSize ≤ l.committed.length + l.line.length then (l, [])
  else
    let ch := if ch = 13 then newline else ch
    let line := l.line ++ [ch]
    if ch = newline ∨ ch = ctrlD ∨ l.committed.length + line.length = inputBufSize then
      (⟨l.committed ++ line, []⟩, [ch.toNat])
    else (⟨l.committed, line⟩, [ch.toNat])

/-- A reader takes from what is committed: how it stops, what is left, and what it has taken. -/
def read (dst : Nat → Bool) (killed : Bool) : Nat → Nat → List UInt8 → Pause × List UInt8 × List UInt8
  | 0, i, l => (.returns i, l, [])
  | _ + 1, i, [] => (if killed then .returns (-1) else .sleeps i, [], [])
  | rem + 1, i, ch :: l =>
    if ch = ctrlD then if 0 < i then (.returns i, ch :: l, []) else (.returns i, l, [ch])
    else if ¬ dst i then (.returns i, l, [ch])
    else if ch = newline then (.returns (i + 1), l, [ch])
    else
      let (stop, l, taken) := read dst killed rem (i + 1) l
      (stop, l, ch :: taken)

end Editing

/-- What a terminal shows of the echo. -/
def shown (echo : List Nat) : List UInt8 :=
  echo.foldl (fun l x => if x = backspace then l.dropLast else l ++ [UInt8.ofNat x]) []

end Xv6.Tty
