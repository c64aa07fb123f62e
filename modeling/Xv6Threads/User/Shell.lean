-- SUMMARY: The shell's parser: the tokens of a line, the tree that parsecmd builds, and nulterminate.
import Mathlib.Logic.Function.Basic
import Xv6Threads.Base.Except

/-!
# The parser of the shell

`sh.c` reads a line and builds a tree of commands by recursive descent. A line
is its bytes without the final NUL; a pointer into it is a position. Words are
kept as the pair of pointers that `gettoken` hands out, and `nulterminate`
writes the NULs behind them when the tree is complete.
-/

namespace Xv6

/-- `O_RDONLY`. -/
def oRdonly : Nat := 0x000
/-- `O_WRONLY`. -/
def oWronly : Nat := 0x001
/-- `O_CREATE`. -/
def oCreate : Nat := 0x200
/-- `O_TRUNC`. -/
def oTrunc : Nat := 0x400

namespace Shell

/-- `MAXARGS`. -/
def maxArgs : Nat := 10

/-- How parsing fails: `panic` with a message. The recursion of the model is
bounded, and `depth` says that the bound was too small. -/
inductive Fault where
  | panic (msg : String)
  | depth
  deriving DecidableEq, Repr

/-- Parsed commands; `ω` is what stands for a word. -/
inductive Cmd (ω : Type) where
  | exec (argv : List ω)
  | redir (cmd : Cmd ω) (file : ω) (mode fd : Nat)
  | pipe (left right : Cmd ω)
  | list (left right : Cmd ω)
  | back (cmd : Cmd ω)
  deriving DecidableEq, Repr

/-- A word as `gettoken` returns it: it starts at `q` and ends before `eq`. -/
structure Word where
  q : Nat
  eq : Nat
  deriving DecidableEq, Repr

/-- What `gettoken` returns: the character of a symbol, `'+'` for `>>`, `'a'`
for a word, or zero. -/
inductive Tok where
  | eof | pipe | lparen | rparen | semi | amp | less | greater | append | word
  deriving DecidableEq, Repr

namespace Cmd

variable {ω υ : Type}

def map (f : ω → υ) : Cmd ω → Cmd υ
  | exec argv => exec (argv.map f)
  | redir c file mode fd => redir (c.map f) (f file) mode fd
  | pipe l r => pipe (l.map f) (r.map f)
  | list l r => list (l.map f) (r.map f)
  | back c => back (c.map f)

/-- `cmd->argv[argc] = q` on the `execcmd` that redirections have been put around. -/
def addArg : Cmd ω → ω → Cmd ω
  | exec argv, w => exec (argv ++ [w])
  | redir c file mode fd, w => redir (c.addArg w) file mode fd
  | c, _ => c

/-- The words of a tree. -/
def words : Cmd ω → List ω
  | exec argv => argv
  | redir c file _ _ => c.words ++ [file]
  | pipe l r => l.words ++ r.words
  | list l r => l.words ++ r.words
  | back c => c.words

end Cmd

/-! ## Tokens -/

/-- `" \t\r\n\v"`. -/
def whitespace : List UInt8 := [32, 9, 13, 10, 11]
/-- `"<|>&;()"`. -/
def symbols : List UInt8 := [60, 124, 62, 38, 59, 40, 41]

def isBlank (c : UInt8) : Bool := whitespace.contains c
/-- The characters of words. -/
def inWord (c : UInt8) : Bool := !whitespace.contains c && !symbols.contains c

/-- `*s`, with the NUL behind the line. -/
def char (line : List UInt8) (s : Nat) : UInt8 := line.getD s 0

/-- `while(s < es && p(*s)) s++`, with `n` for `es - s`. -/
def skip (p : UInt8 → Bool) (line : List UInt8) : Nat → Nat → Nat
  | 0, s => s
  | n + 1, s => if p (char line s) then skip p line n (s + 1) else s

variable (line : List UInt8)

def skipBlanks (s : Nat) : Nat := skip isBlank line (line.length - s) s

/-- The symbols of one character, except `>`. -/
def symbol (c : UInt8) : Option Tok :=
  if c = 124 then some .pipe
  else if c = 40 then some .lparen
  else if c = 41 then some .rparen
  else if c = 59 then some .semi
  else if c = 38 then some .amp
  else if c = 60 then some .less
  else none

/-- The token that starts at `s`, and where it ends. -/
def scan (s : Nat) : Tok × Nat :=
  if char line s = 0 then (.eof, s)
  else if char line s = 62 then
    if char line (s + 1) = 62 then (.append, s + 2) else (.greater, s + 1)
  else
    match symbol (char line s) with
    | some t => (t, s + 1)
    | none => (.word, skip inWord line (line.length - s) s)

/-- `gettoken`: the token, its `q` and `eq`, and the new `*ps`. -/
def gettoken (s : Nat) : Tok × Word × Nat :=
  let q := skipBlanks line s
  let (ret, eq) := scan line q
  (ret, ⟨q, eq⟩, skipBlanks line eq)

def peek (s : Nat) (toks : List UInt8) : Bool × Nat :=
  let s := skipBlanks line s
  (char line s != 0 && toks.contains (char line s), s)

/-! ## The parser -/

/-- The mode and the descriptor of a redirection. -/
def redirection : Tok → Option (Nat × Nat)
  | .less => some (oRdonly, 0)
  | .greater => some (oWronly + oCreate + oTrunc, 1)
  | .append => some (oWronly + oCreate, 1)
  | _ => none

/-- The loop of `parseredirs`. -/
def parseredirs : Nat → Cmd Word → Nat → Except Fault (Cmd Word × Nat)
  | 0, _, _ => .error .depth
  | n + 1, cmd, s =>
    match peek line s [60, 62] with
    | (false, s) => .ok (cmd, s)
    | (true, s) =>
      let (tok, _, s) := gettoken line s
      let (t, w, s) := gettoken line s
      if t ≠ .word then .error (.panic "missing file for redirection")
      else
        match redirection tok with
        | some (mode, fd) => parseredirs n (.redir cmd w mode fd) s
        | none => parseredirs n cmd s

/-- The loop of `parseexec`. -/
def parseargs : Nat → Cmd Word → Nat → Nat → Except Fault (Cmd Word × Nat)
  | 0, _, _, _ => .error .depth
  | n + 1, ret, argc, s =>
    match peek line s [124, 41, 38, 59] with
    | (true, s) => .ok (ret, s)
    | (false, s) =>
      let (tok, w, s) := gettoken line s
      if tok = .eof then .ok (ret, s)
      else if tok ≠ .word then .error (.panic "syntax")
      else if maxArgs ≤ argc + 1 then .error (.panic "too many args")
      else do
        let (ret, s) ← parseredirs line n (ret.addArg w) s
        parseargs n ret (argc + 1) s

/-- The loop of `parseline` that takes the `&`s. -/
def parseamps : Nat → Cmd Word → Nat → Except Fault (Cmd Word × Nat)
  | 0, _, _ => .error .depth
  | n + 1, cmd, s =>
    match peek line s [38] with
    | (false, s) => .ok (cmd, s)
    | (true, s) => parseamps n (.back cmd) (gettoken line s).2.2

mutual

def parseline : Nat → Nat → Except Fault (Cmd Word × Nat)
  | 0, _ => .error .depth
  | n + 1, s => do
    let (cmd, s) ← parsepipe n s
    let (cmd, s) ← parseamps line (line.length + 1) cmd s
    match peek line s [59] with
    | (false, s) => .ok (cmd, s)
    | (true, s) => do
      let (rest, s) ← parseline n (gettoken line s).2.2
      .ok (.list cmd rest, s)

def parsepipe : Nat → Nat → Except Fault (Cmd Word × Nat)
  | 0, _ => .error .depth
  | n + 1, s => do
    let (cmd, s) ← parseexec n s
    match peek line s [124] with
    | (false, s) => .ok (cmd, s)
    | (true, s) => do
      let (rest, s) ← parsepipe n (gettoken line s).2.2
      .ok (.pipe cmd rest, s)

def parseexec : Nat → Nat → Except Fault (Cmd Word × Nat)
  | 0, _ => .error .depth
  | n + 1, s =>
    match peek line s [40] with
    | (true, s) => parseblock n s
    | (false, s) => do
      let (ret, s) ← parseredirs line (line.length + 1) (.exec []) s
      parseargs line (line.length + 1) ret 0 s

def parseblock : Nat → Nat → Except Fault (Cmd Word × Nat)
  | 0, _ => .error .depth
  | n + 1, s =>
    match peek line s [40] with
    | (false, _) => .error (.panic "parseblock")
    | (true, s) => do
      let (cmd, s) ← parseline n (gettoken line s).2.2
      match peek line s [41] with
      | (false, _) => .error (.panic "syntax - missing )")
      | (true, s) => parseredirs line (line.length + 1) cmd (gettoken line s).2.2

end

/-- `parsecmd`, up to `nulterminate`. -/
def parsecmd : Except Fault (Cmd Word) := do
  let (cmd, s) ← parseline line (4 * line.length + 4) 0
  let (_, s) := peek line s []
  if s ≠ line.length then .error (.panic "syntax") else .ok cmd

/-- `nulterminate`: a NUL behind every word of the tree. -/
def nulterminate : Cmd Word → (Nat → UInt8) → Nat → UInt8
  | .exec argv, buf => argv.foldl (fun buf w => Function.update buf w.eq 0) buf
  | .redir c file _ _, buf => Function.update (nulterminate c buf) file.eq 0
  | .pipe l r, buf => nulterminate r (nulterminate l buf)
  | .list l r, buf => nulterminate r (nulterminate l buf)
  | .back c, buf => nulterminate c buf

end Shell

end Xv6
