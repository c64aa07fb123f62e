-- SUMMARY: Every tree that the shell can parse, written as a line, and parsed back.
import Xv6Threads.User.Parsing

/-!
# Trees written as lines

`print` writes a tree with a blank behind each token, and with parentheses
around whatever is not a simple command. `Printable` says which trees a line can
have: there are words, not too many, and the redirections are those of the
shell.
-/

namespace Xv6.Shell

variable {line l x : List UInt8} {ts us : List Lexeme} {argc : Nat} {nt : Nonterminal} {C D : Tree}

/-- The characters can stand as a word. -/
def IsText (x : List UInt8) : Prop := x ≠ [] ∧ ∀ c ∈ x, inWord c = true ∧ c ≠ 0

def Printable : Tree → Prop
  | .exec argv => argv.length < maxArgs ∧ ∀ x ∈ argv, IsText x
  | .redir c file mode fd => Printable c ∧ IsText file ∧ ∃ t, redirection t = some (mode, fd)
  | .pipe l r => Printable l ∧ Printable r
  | .list l r => Printable l ∧ Printable r
  | .back c => Printable c

/-! ## Printing -/

/-- The characters of a symbol. -/
def Tok.chars (t : Tok) : List UInt8 := if t = .append then [62, 62] else [t.code]

/-- The lexeme of a symbol. -/
def sign (t : Tok) : Lexeme := (t, t.chars)

/-- The symbol of a mode and a descriptor. -/
def operator (mode fd : Nat) : Tok := if fd = 0 then .less else if mode = oWronly + oCreate then .append else .greater

/-- The redirections around a tree. -/
def redirs : Tree → List Lexeme
  | .redir c file mode fd => redirs c ++ [sign (operator mode fd), (.word, file)]
  | _ => []

/-- The arguments of a simple command. -/
def arguments : Tree → List (List UInt8)
  | .exec argv => argv
  | .redir c _ _ _ => arguments c
  | _ => []

/-- The parentheses that stand before the redirections. -/
def group : Tree → List Lexeme
  | .exec _ => []
  | .redir c _ _ _ => group c
  | .pipe l r => sign .lparen ::
      ((group l ++ redirs l ++ (arguments l).map (Prod.mk .word)) ++ sign .pipe ::
        (group r ++ redirs r ++ (arguments r).map (Prod.mk .word)) ++ [sign .rparen])
  | .list l r => sign .lparen ::
      ((group l ++ redirs l ++ (arguments l).map (Prod.mk .word)) ++ sign .semi ::
        (group r ++ redirs r ++ (arguments r).map (Prod.mk .word)) ++ [sign .rparen])
  | .back c => sign .lparen ::
      ((group c ++ redirs c ++ (arguments c).map (Prod.mk .word)) ++ [sign .amp, sign .rparen])

/-- The tokens of a tree. -/
def tokens (C : Tree) : List Lexeme := group C ++ redirs C ++ (arguments C).map (Prod.mk .word)

/-- The bytes of tokens, with a blank behind each. -/
def spell (ts : List Lexeme) : List UInt8 := ts.flatMap fun x => x.2 ++ [32]

def print (C : Tree) : List UInt8 := spell (tokens C)

/-! ## What the tokens of a tree derive -/

theorem redirection_operator {mode fd : Nat} (h : ∃ t, redirection t = some (mode, fd)) :
    redirection (operator mode fd) = some (mode, fd) := by
  obtain ⟨t, ht⟩ := h
  cases t <;> cases ht <;> rfl

theorem Redirs.snoc {mode fd : Nat} {t : Tok} {x w : List UInt8} (h : Redirs ts C D) (ht : redirection t = some (mode, fd)) :
    Redirs (ts ++ [(t, x), (.word, w)]) C (.redir D w mode fd) := by
  induction h with
  | nil => exact .cons ht .nil
  | cons hmode _ ih => exact .cons hmode ih

theorem args_words {argv : List (List UInt8)} (h : argc + argv.length < maxArgs) (C : Tree) :
    Args (argv.map (Prod.mk .word)) argc C (argv.foldl Cmd.addArg C) := by
  induction argv generalizing argc C with
  | nil => exact .nil
  | cons w argv ih =>
    simp only [List.length_cons] at h
    have hrest := ih (show argc + 1 + argv.length < maxArgs by omega) (C.addArg w)
    exact .cons (by omega) .nil hrest

theorem foldl_addArg_redir {ω : Type} (argv : List ω) (c : Cmd ω) (file : ω) (mode fd : Nat) :
    argv.foldl Cmd.addArg (.redir c file mode fd) = .redir (argv.foldl Cmd.addArg c) file mode fd := by
  induction argv generalizing c with
  | nil => rfl
  | cons w argv ih => exact ih (c.addArg w)

theorem foldl_addArg_exec {ω : Type} (argv argv' : List ω) :
    argv'.foldl Cmd.addArg (.exec argv) = .exec (argv ++ argv') := by
  induction argv' generalizing argv with
  | nil => simp
  | cons w argv' ih => simp [Cmd.addArg, ih]

/-- A tree is a simple command with redirections, or a group with redirections. -/
inductive Parts (C : Tree) : Prop
  | simple {D : Tree} : group C = [] → (arguments C).length < maxArgs → Redirs (redirs C) (.exec []) D →
      (arguments C).foldl Cmd.addArg D = C → Parts C
  | group {ts : List Lexeme} {D : Tree} : arguments C = [] → group C = sign .lparen :: (ts ++ [sign .rparen]) →
      Derives .line ts D → Redirs (redirs C) D C → Parts C

theorem Parts.derives (h : Parts C) : Derives .exec (tokens C) C := by
  cases h with
  | @simple D hgroup hlen hredirs hfold =>
    have hargs := args_words (show 0 + (arguments C).length < maxArgs by simpa using hlen) D
    rw [hfold] at hargs
    simpa [tokens, hgroup] using Derives.exec hredirs hargs
  | group hargs hgroup hline hredirs =>
    have hblock := Derives.block (x := Tok.lparen.chars) (y := Tok.rparen.chars) hline hredirs
    simpa [tokens, hgroup, hargs, sign] using Derives.execBlock hblock

theorem Derives.toPipe (h : Derives .exec ts C) : Derives .line ts C := by
  simpa using Derives.line (Derives.pipe h) .nil

theorem parts_of_printable (h : Printable C) : Parts C := by
  induction C with
  | exec argv => exact .simple rfl h.1 .nil (foldl_addArg_exec [] argv)
  | redir c file mode fd ih =>
    obtain ⟨hc, -, hmode⟩ := h
    have hop := redirection_operator hmode
    cases ih hc with
    | simple hgroup hlen hredirs hfold =>
      refine .simple hgroup hlen (hredirs.snoc hop) ?_
      rw [arguments, foldl_addArg_redir, hfold]
    | group hargs hgroup hline hredirs => exact .group hargs hgroup hline (hredirs.snoc hop)
  | pipe l r ihl ihr =>
    have hl := (ihl h.1).derives
    have hr := (ihr h.2).derives
    have hline := Derives.line (Derives.pipes (x := Tok.pipe.chars) hl (.pipe hr)) .nil
    rw [List.append_nil] at hline
    exact .group rfl rfl hline .nil
  | list l r ihl ihr =>
    have hl := (ihl h.1).derives
    have hr := (ihr h.2).derives
    have hline := Derives.list (x := Tok.semi.chars) (.pipe hl) .nil hr.toPipe
    rw [List.append_nil] at hline
    exact .group rfl rfl hline .nil
  | back c ih =>
    have hc := (ih h).derives
    have hline := Derives.line (.pipe hc) (.cons (x := Tok.amp.chars) .nil)
    exact .group rfl (by simp [group, sign, tokens]) hline .nil

/-! ## What the bytes of a tree spell -/

/-- The characters are those of the token. -/
def Proper (x : Lexeme) : Prop := (x.1 = .word ∧ IsText x.2) ∨ (x.1 ≠ .eof ∧ x.1 ≠ .word ∧ x.2 = x.1.chars)

theorem proper_sign {t : Tok} (ht : t ≠ .eof) (ht' : t ≠ .word) : Proper (sign t) := .inr ⟨ht, ht', rfl⟩

theorem proper_word (h : IsText x) : Proper (.word, x) := .inl ⟨rfl, h⟩

theorem operator_cases (mode fd : Nat) : operator mode fd = .less ∨ operator mode fd = .append ∨ operator mode fd = .greater := by
  unfold operator
  split_ifs <;> simp

theorem proper_redirs (h : Printable C) : ∀ x ∈ redirs C, Proper x := by
  induction C with
  | redir c file mode fd ih =>
    simp only [redirs, List.mem_append, List.mem_cons, List.not_mem_nil, or_false]
    rintro x (hx | rfl | rfl)
    · exact ih h.1 x hx
    · rcases operator_cases mode fd with hop | hop | hop
      all_goals rw [hop]; exact proper_sign (by decide) (by decide)
    · exact proper_word h.2.1
  | exec | pipe | list | back => simp [redirs]

theorem proper_arguments (h : Printable C) : ∀ x ∈ (arguments C).map (Prod.mk Tok.word), Proper x := by
  induction C with
  | exec argv =>
    simp only [arguments, List.mem_map]
    rintro _ ⟨x, hx, rfl⟩
    exact proper_word (h.2 x hx)
  | redir c file mode fd ih => exact ih h.1
  | pipe | list | back => simp [arguments]

theorem mem_tokens {y : Lexeme} : y ∈ tokens C ↔ y ∈ group C ∨ y ∈ redirs C ∨ y ∈ (arguments C).map (Prod.mk .word) := by
  simp [tokens]

/-- It is enough to know the parentheses. -/
theorem proper_tokens_of (h : Printable C) (hg : ∀ x ∈ group C, Proper x) : ∀ x ∈ tokens C, Proper x := by
  intro x hx
  rcases mem_tokens.1 hx with hx | hx | hx
  · exact hg x hx
  · exact proper_redirs h x hx
  · exact proper_arguments h x hx

theorem proper_group (h : Printable C) : ∀ x ∈ group C, Proper x := by
  induction C with
  | exec => simp [group]
  | redir c file mode fd ih => exact ih h.1
  | pipe l r ihl ihr =>
    have hl := proper_tokens_of h.1 (ihl h.1)
    have hr := proper_tokens_of h.2 (ihr h.2)
    have hgroup : group (.pipe l r) = sign .lparen :: (tokens l ++ sign .pipe :: tokens r ++ [sign .rparen]) := rfl
    simp only [hgroup, List.mem_cons, List.mem_append, List.not_mem_nil, or_false]
    rintro x (rfl | (hx | rfl | hx) | rfl)
    · exact proper_sign (by decide) (by decide)
    · exact hl x hx
    · exact proper_sign (by decide) (by decide)
    · exact hr x hx
    · exact proper_sign (by decide) (by decide)
  | list l r ihl ihr =>
    have hl := proper_tokens_of h.1 (ihl h.1)
    have hr := proper_tokens_of h.2 (ihr h.2)
    have hgroup : group (.list l r) = sign .lparen :: (tokens l ++ sign .semi :: tokens r ++ [sign .rparen]) := rfl
    simp only [hgroup, List.mem_cons, List.mem_append, List.not_mem_nil, or_false]
    rintro x (rfl | (hx | rfl | hx) | rfl)
    · exact proper_sign (by decide) (by decide)
    · exact hl x hx
    · exact proper_sign (by decide) (by decide)
    · exact hr x hx
    · exact proper_sign (by decide) (by decide)
  | back c ih =>
    have hprint : Printable c := h
    have hc := proper_tokens_of hprint (ih hprint)
    have hgroup : group (.back c) = sign .lparen :: (tokens c ++ [sign .amp, sign .rparen]) := rfl
    simp only [hgroup, List.mem_cons, List.mem_append, List.not_mem_nil, or_false]
    rintro x (rfl | hx | rfl | rfl)
    · exact proper_sign (by decide) (by decide)
    · exact hc x hx
    · exact proper_sign (by decide) (by decide)
    · exact proper_sign (by decide) (by decide)

theorem proper_tokens (h : Printable C) : ∀ x ∈ tokens C, Proper x := proper_tokens_of h (proper_group h)

theorem spells_spell (h : ∀ x ∈ ts, Proper x) : Spells (spell ts) ts := by
  induction ts with
  | nil => exact .nil
  | cons y ts ih =>
    have hrest := ih fun x hx => h x (by simp [hx])
    have hblank : Spells (32 :: spell ts) ts := .blank rfl hrest
    have hspell : spell (y :: ts) = y.2 ++ 32 :: spell ts := by simp [spell]
    rw [hspell]
    obtain ⟨t, x⟩ := y
    rcases h (t, x) (by simp) with ⟨ht, htext⟩ | ⟨ht, ht', hx⟩
    · obtain rfl : t = .word := ht
      exact .word htext.1 (fun c hc => (htext.2 c hc).1) (by simp; rfl) hblank
    · obtain rfl : x = t.chars := hx
      cases t with
      | eof => exact absurd rfl ht
      | word => exact absurd rfl ht'
      | greater => exact .greater (by simp) hblank
      | append => exact .append hblank
      | pipe | lparen | rparen | semi | amp | less => exact .symbol rfl hblank

theorem spell_no_nul (h : ∀ x ∈ ts, Proper x) : 0 ∉ spell ts := by
  simp only [spell, List.mem_flatMap, not_exists, not_and]
  rintro ⟨t, x⟩ hx hzero
  simp only [List.mem_append, List.mem_singleton] at hzero
  rcases hzero with hzero | hzero
  · rcases h _ hx with ⟨-, htext⟩ | ⟨ht, ht', hchars⟩
    · exact (htext.2 0 hzero).2 rfl
    · obtain rfl : x = t.chars := hchars
      revert hzero
      cases t <;> simp_all [Tok.chars, Tok.code]
  · exact absurd hzero (by decide)

/-! ## The trees that have a line -/

/-- The arguments that a command has so far. -/
theorem arguments_addArg (C : Tree) (x : List UInt8) (h : group C = []) : arguments (C.addArg x) = arguments C ++ [x] := by
  induction C with
  | exec argv => rfl
  | redir c file mode fd ih => exact ih h
  | pipe | list | back => simp [group] at h

theorem group_addArg (C : Tree) (x : List UInt8) (h : group C = []) : group (C.addArg x) = [] := by
  induction C with
  | exec argv => rfl
  | redir c file mode fd ih => exact ih h
  | pipe | list | back => simp [group] at h

theorem printable_addArg (h : Printable C) (hx : IsText x) (hlen : (arguments C).length + 1 < maxArgs) :
    Printable (C.addArg x) := by
  induction C with
  | exec argv =>
    refine ⟨by simpa [arguments] using hlen, ?_⟩
    simp only [List.mem_append, List.mem_singleton]
    rintro y (hy | rfl)
    · exact h.2 y hy
    · exact hx
  | redir c file mode fd ih => exact ⟨ih h.1 hlen, h.2⟩
  | pipe | list | back => exact h

/-- The words of the tokens can stand as words. -/
def Wordy (ts : List Lexeme) : Prop := ∀ x, (Tok.word, x) ∈ ts → IsText x

theorem Wordy.left (h : Wordy (ts ++ us)) : Wordy ts := fun x hx => h x (List.mem_append_left us hx)
theorem Wordy.right (h : Wordy (ts ++ us)) : Wordy us := fun x hx => h x (List.mem_append_right ts hx)
theorem Wordy.tail {y : Lexeme} (h : Wordy (y :: ts)) : Wordy ts := fun x hx => h x (List.mem_cons_of_mem y hx)

theorem spells_wordy (h : Spells l ts) (hl : 0 ∉ l) : Wordy ts := by
  induction h with
  | nil => simp [Wordy]
  | blank _ _ ih => exact ih fun h => hl (by simp [h])
  | @symbol c t l ts hsym _ ih =>
    have hrest := ih fun h => hl (by simp [h])
    intro x hx
    rcases List.mem_cons.1 hx with heq | hx
    · cases heq
      exact absurd rfl (symbol_ne_eof hsym).2.1
    · exact hrest x hx
  | greater _ _ ih =>
    have hrest := ih fun h => hl (by simp [h])
    intro x hx
    exact hrest x (by simpa using hx)
  | append _ ih =>
    have hrest := ih fun h => hl (by simp [h])
    intro x hx
    exact hrest x (by simpa using hx)
  | @word w l ts hne hw _ _ ih =>
    have hrest := ih fun h => hl (by simp [h])
    intro x hx
    rcases List.mem_cons.1 hx with heq | hx
    · cases heq
      refine ⟨hne, fun c hc => ⟨hw c hc, ?_⟩⟩
      rintro rfl
      exact hl (by simp [hc])
    · exact hrest x hx

theorem printable_redirs (h : Redirs ts C D) (hC : Printable C) (hts : Wordy ts) :
    Printable D ∧ group D = group C ∧ arguments D = arguments C := by
  induction h with
  | nil => exact ⟨hC, rfl, rfl⟩
  | @cons t x w mode fd ts C D hmode _ ih =>
    have hw : IsText w := hts w (by simp)
    exact ih ⟨hC, hw, t, hmode⟩ hts.tail.tail

theorem printable_args (h : Args ts argc C D) (hC : Printable C) (hg : group C = []) (hargc : argc = (arguments C).length)
    (hts : Wordy ts) : Printable D := by
  induction h with
  | nil => exact hC
  | @cons w rs ts argc C D E hlt hredirs _ ih =>
    subst hargc
    have hadd := printable_addArg hC (hts w (by simp)) hlt
    obtain ⟨hD, hgD, haD⟩ := printable_redirs hredirs hadd hts.tail.left
    apply ih hD (hgD.trans (group_addArg C w hg)) ?_ hts.tail.right
    simp [haD, arguments_addArg C w hg]

theorem printable_amps (h : Amps ts C D) (hC : Printable C) : Printable D := by
  induction h with
  | nil => exact hC
  | cons _ ih => exact ih hC

theorem printable_derives (h : Derives nt ts C) (hts : Wordy ts) : Printable C := by
  induction h with
  | line _ hamps ih => exact printable_amps hamps (ih hts.left)
  | list _ hamps _ ih ih' => exact ⟨printable_amps hamps (ih hts.left.left), ih' hts.right.tail⟩
  | pipe _ ih => exact ih hts
  | pipes _ _ ih ih' => exact ⟨ih hts.left, ih' hts.right.tail⟩
  | exec hredirs hargs =>
    have hnone : Printable (.exec []) := ⟨by decide, by simp⟩
    obtain ⟨hC, hg, ha⟩ := printable_redirs hredirs hnone hts.left
    exact printable_args hargs hC hg (by simp [ha, arguments]) hts.right
  | execBlock _ ih => exact ih hts
  | block _ hredirs ih => exact (printable_redirs hredirs (ih hts.tail.left) hts.tail.right.tail).1

/-- Every printable tree is parsed back from its line, and no line has another tree. -/
theorem parsecmd_print :
    (∀ C : Tree, Printable C → ∃ c, parsecmd (print C) = .ok c ∧ c.map (text (print C)) = C) ∧
      ∀ (line : List UInt8) (c : Cmd Word), 0 ∉ line → parsecmd line = .ok c → Printable (c.map (text line)) := by
  constructor
  · intro C hC
    have hproper := proper_tokens hC
    have hline : 0 ∉ print C := spell_no_nul hproper
    have htokens : rest (print C) 0 = tokens C := (spells_iff hline).1 (spells_spell hproper)
    obtain ⟨c, hc, hstands⟩ := parsecmd_complete hline (htokens ▸ (parts_of_printable hC).derives.toPipe)
    exact ⟨c, hc, hstands.map⟩
  · intro line c hline hc
    obtain ⟨C, hstands, hderives⟩ := (parsecmd_sound hline).2 c hc
    have hspells : Spells line (rest line 0) := spells_rest hline (Nat.zero_le _)
    exact hstands.map ▸ printable_derives hderives (spells_wordy hspells hline)

/-- A pipe in a block, in the background. -/
theorem parsecmd_print_block :
    ∃ c, parsecmd (print (.back (.pipe (.exec [[108, 115]]) (.exec [[119, 99]])))) = .ok c ∧
      c.map (text (print (.back (.pipe (.exec [[108, 115]]) (.exec [[119, 99]]))))) =
        .back (.pipe (.exec [[108, 115]]) (.exec [[119, 99]])) :=
  parsecmd_print.1 _ ⟨⟨by decide, by simp [IsText, inWord, whitespace, symbols]⟩,
    ⟨by decide, by simp [IsText, inWord, whitespace, symbols]⟩⟩

end Xv6.Shell
