-- SUMMARY: The parser of the shell builds a tree exactly for the sentences of the grammar.
import Xv6Threads.User.Grammar

/-!
# Soundness and completeness of the parser

Soundness follows the fuel of the parser, completeness the derivation. Both
come with what the lookahead of each function may be: `follows` lists the
symbols behind a complete command, pipeline or line.
-/

namespace Xv6.Shell

variable {line : List UInt8} {n i s s' argc : Nat} {nt : Nonterminal} {ts us k : List Lexeme} {c : Cmd Word} {C D : Tree}

/-! ## Soundness -/

/-- The function that started at `s` has taken tokens that `R` relates to its tree. -/
def Parsed (line : List UInt8) (s : Nat) (R : List Lexeme → Tree → Prop) (r : Cmd Word × Nat) : Prop :=
  ∃ ts C, Reads line s ts r.2 ∧ Stands line r.1 C ∧ R ts C

theorem exists_redirection {t : Tok} (ht : t ≠ .eof) (h : [60, 62].contains t.code = true) :
    ∃ mode fd, redirection t = some (mode, fd) := by
  cases t <;> simp_all [Tok.code, redirection]

theorem parseredirs_sound (hline : 0 ∉ line) (hs : s ≤ line.length) (hn : line.length - s < n) (hc : Stands line c C) :
    (parseredirs line n c s).Settles .depth (Parsed line s fun ts D => Redirs ts C D) := by
  induction n generalizing s c C with
  | zero => exact absurd hn (Nat.not_lt_zero _)
  | succ n ih =>
    have hblanks := Reads.blanks hline hs
    simp only [parseredirs, peek_eq hline hs (show ∀ c ∈ [60, 62], c ∈ symbols by simp [symbols])]
    cases hstart : starts [60, 62] (rest line s) with
    | false => exact Except.settles_ok ⟨[], C, hblanks, hc, .nil⟩
    | true =>
      obtain ⟨t, v, s₁, hg, hcode, ht, hreads, hlt⟩ := gettoken_of_starts hline hs hstart
      obtain ⟨mode, fd, hmode⟩ := exists_redirection ht hcode
      simp only [hg]
      rcases gettoken_cases hline hreads.inside with ⟨w, s₂, hg, -, -⟩ | ⟨t', w, s₂, hg, -, hreads', hlt', hword⟩
      · simp only [hg]
        exact Except.settles_error (by decide)
      · simp only [hg]
        split_ifs with ht'
        · exact Except.settles_error (by decide)
        · have hw := hword (Decidable.not_not.1 ht')
          have hup := hreads'.inside
          simp only [hmode]
          apply (ih hreads'.inside (by omega) (hc.redir hw mode fd)).mono
          rintro r ⟨us, D, hr, hstands, hredirs⟩
          obtain rfl := Decidable.not_not.1 ht'
          exact ⟨_, D, (hreads.trans hreads').trans hr, hstands, .cons hmode hredirs⟩

theorem parseargs_sound (hline : 0 ∉ line) (hs : s ≤ line.length) (hn : line.length - s < n) (hc : Stands line c C) :
    (parseargs line n c argc s).Settles .depth (Parsed line s fun ts D => Args ts argc C D) := by
  induction n generalizing s c C argc with
  | zero => exact absurd hn (Nat.not_lt_zero _)
  | succ n ih =>
    have hblanks := Reads.blanks hline hs
    simp only [parseargs, peek_eq hline hs (show ∀ c ∈ [124, 41, 38, 59], c ∈ symbols by simp [symbols])]
    cases hstart : starts [124, 41, 38, 59] (rest line s) with
    | true => exact Except.settles_ok ⟨[], C, hblanks, hc, .nil⟩
    | false =>
      simp only [gettoken_skipBlanks]
      rcases gettoken_cases hline hs with ⟨w, s₁, hg, -, hend⟩ | ⟨t, w, s₁, hg, ht, hreads, hlt, hword⟩
      · simp only [hg, if_true]
        exact Except.settles_ok ⟨[], C, hend, hc, .nil⟩
      · simp only [hg, if_neg ht]
        split_ifs with ht' hargc
        · exact Except.settles_error (by decide)
        · exact Except.settles_error (by decide)
        · obtain rfl := Decidable.not_not.1 ht'
          have hup := hreads.inside
          refine (parseredirs_sound hline hreads.inside (by omega) (hc.addArg (hword rfl))).bind ?_
          rintro ⟨d, s₂⟩ ⟨rs, D, hr, hd, hredirs⟩
          have hle : s₁ ≤ s₂ := hr.le
          have hup' : s₂ ≤ line.length := hr.inside
          apply (ih hup' (by omega) hd).mono
          rintro r ⟨us, E, hr', hstands, hargs⟩
          exact ⟨_, E, (hreads.trans hr).trans hr', hstands, .cons (Nat.lt_of_not_le hargc) hredirs hargs⟩

/-- The only token of a code. -/
theorem tok_of_code {t t' : Tok} (ht : t ≠ .eof) (ht' : t' ≠ .word ∧ t' ≠ .greater ∧ t' ≠ .append)
    (h : [t'.code].contains t.code = true) (hne : t' ≠ .eof) : t = t' := by
  cases t <;> cases t' <;> simp_all [Tok.code]

theorem parseamps_sound (hline : 0 ∉ line) (hs : s ≤ line.length) (hn : line.length - s < n) (hc : Stands line c C) :
    (parseamps line n c s).Settles .depth (Parsed line s fun ts D => Amps ts C D) := by
  induction n generalizing s c C with
  | zero => exact absurd hn (Nat.not_lt_zero _)
  | succ n ih =>
    have hblanks := Reads.blanks hline hs
    simp only [parseamps, peek_eq hline hs (show ∀ c ∈ [38], c ∈ symbols by simp [symbols])]
    cases hstart : starts [38] (rest line s) with
    | false => exact Except.settles_ok ⟨[], C, hblanks, hc, .nil⟩
    | true =>
      obtain ⟨t, v, s₁, hg, hcode, ht, hreads, hlt⟩ := gettoken_of_starts hline hs hstart
      obtain rfl : t = .amp := tok_of_code ht (by decide) hcode (by decide)
      have hup := hreads.inside
      simp only [hg]
      apply (ih hreads.inside (by omega) hc.back).mono
      rintro r ⟨us, D, hr, hstands, hamps⟩
      exact ⟨_, D, hreads.trans hr, hstands, .cons hamps⟩

/-- The parsing function of a nonterminal. -/
def parse (line : List UInt8) : Nonterminal → Nat → Nat → Except Fault (Cmd Word × Nat)
  | .line => parseline line
  | .pipe => parsepipe line
  | .exec => parseexec line
  | .block => parseblock line

/-- How deep a function may recurse before it takes a token. -/
def Nonterminal.height : Nonterminal → Nat
  | .line => 4
  | .pipe => 3
  | .exec => 2
  | .block => 1

theorem parse_sound (hline : 0 ∉ line) (hs : s ≤ line.length) (hn : 4 * (line.length - s) + nt.height ≤ n) :
    (parse line nt n s).Settles .depth (Parsed line s (Derives nt)) := by
  induction n generalizing s nt with
  | zero => cases nt <;> exact absurd hn (by simp [Nonterminal.height])
  | succ n ih =>
    cases nt with
    | line =>
      simp only [Nonterminal.height] at hn
      simp only [parse, parseline]
      refine (@ih _ .pipe hs (by simp only [Nonterminal.height]; omega)).bind ?_
      rintro ⟨c, s₁⟩ ⟨ts, C, hreads, hc, hpipe⟩
      refine (parseamps_sound hline hreads.inside (by omega) hc).bind ?_
      rintro ⟨d, s₂⟩ ⟨us, D, hreads', hd, hamps⟩
      have hr := hreads.trans hreads'
      have hup : s₂ ≤ line.length := hr.inside
      simp only [peek_eq hline hup (show ∀ c ∈ [59], c ∈ symbols by simp [symbols])]
      cases hstart : starts [59] (rest line s₂) with
      | false =>
        have hblanks := hr.trans (Reads.blanks hline hup)
        exact Except.settles_ok ⟨_, D, hblanks, hd, by simpa using Derives.line hpipe hamps⟩
      | true =>
        obtain ⟨t, v, s₃, hg, hcode, ht, hsemi, hlt⟩ := gettoken_of_starts hline hup hstart
        obtain rfl : t = .semi := tok_of_code ht (by decide) hcode (by decide)
        have hle : s ≤ s₂ := hr.le
        have hup' := hsemi.inside
        simp only [hg]
        refine (@ih _ .line hup' (by simp only [Nonterminal.height]; omega)).bind ?_
        rintro ⟨e, s₄⟩ ⟨vs, E, hreads'', he, hrest⟩
        exact Except.settles_ok
          ⟨_, _, (hr.trans hsemi).trans hreads'', hd.list he, by simpa using Derives.list hpipe hamps hrest⟩
    | pipe =>
      simp only [Nonterminal.height] at hn
      simp only [parse, parsepipe]
      refine (@ih _ .exec hs (by simp only [Nonterminal.height]; omega)).bind ?_
      rintro ⟨c, s₁⟩ ⟨ts, C, hreads, hc, hexec⟩
      have hup : s₁ ≤ line.length := hreads.inside
      simp only [peek_eq hline hup (show ∀ c ∈ [124], c ∈ symbols by simp [symbols])]
      cases hstart : starts [124] (rest line s₁) with
      | false =>
        have hblanks := hreads.trans (Reads.blanks hline hup)
        exact Except.settles_ok ⟨_, C, hblanks, hc, by simpa using Derives.pipe hexec⟩
      | true =>
        obtain ⟨t, v, s₂, hg, hcode, ht, hbar, hlt⟩ := gettoken_of_starts hline hup hstart
        obtain rfl : t = .pipe := tok_of_code ht (by decide) hcode (by decide)
        have hle : s ≤ s₁ := hreads.le
        have hup' := hbar.inside
        simp only [hg]
        refine (@ih _ .pipe hup' (by simp only [Nonterminal.height]; omega)).bind ?_
        rintro ⟨d, s₃⟩ ⟨us, D, hreads', hd, hrest⟩
        exact Except.settles_ok
          ⟨_, _, (hreads.trans hbar).trans hreads', hc.pipe hd, by simpa using Derives.pipes hexec hrest⟩
    | exec =>
      simp only [Nonterminal.height] at hn
      simp only [parse, parseexec, peek_eq hline hs (show ∀ c ∈ [40], c ∈ symbols by simp [symbols])]
      have hblanks := Reads.blanks hline hs
      have hle := hblanks.le
      have hup := hblanks.inside
      cases hstart : starts [40] (rest line s) with
      | true =>
        apply (@ih _ .block hup (by simp only [Nonterminal.height]; omega)).mono
        rintro r ⟨ts, C, hreads, hc, hblock⟩
        exact ⟨_, C, hblanks.trans hreads, hc, .execBlock hblock⟩
      | false =>
        refine (parseredirs_sound hline hup (by omega) Stands.nil).bind ?_
        rintro ⟨c, s₁⟩ ⟨ts, C, hreads, hc, hredirs⟩
        apply (parseargs_sound hline hreads.inside (by omega) hc).mono
        rintro r ⟨us, D, hreads', hd, hargs⟩
        exact ⟨_, D, (hblanks.trans hreads).trans hreads', hd, .exec hredirs hargs⟩
    | block =>
      simp only [Nonterminal.height] at hn
      simp only [parse, parseblock, peek_eq hline hs (show ∀ c ∈ [40], c ∈ symbols by simp [symbols])]
      cases hstart : starts [40] (rest line s) with
      | false => exact Except.settles_error (by decide)
      | true =>
        obtain ⟨t, v, s₁, hg, hcode, ht, hopen, hlt⟩ := gettoken_of_starts hline hs hstart
        obtain rfl : t = .lparen := tok_of_code ht (by decide) hcode (by decide)
        have hup := hopen.inside
        simp only [hg]
        refine (@ih _ .line hup (by simp only [Nonterminal.height]; omega)).bind ?_
        rintro ⟨c, s₂⟩ ⟨ts, C, hreads, hc, hinner⟩
        have hup' : s₂ ≤ line.length := hreads.inside
        simp only [peek_eq hline hup' (show ∀ c ∈ [41], c ∈ symbols by simp [symbols])]
        cases hstart' : starts [41] (rest line s₂) with
        | false => exact Except.settles_error (by decide)
        | true =>
          obtain ⟨t, v', s₃, hg, hcode, ht, hclose, hlt'⟩ := gettoken_of_starts hline hup' hstart'
          obtain rfl : t = .rparen := tok_of_code ht (by decide) hcode (by decide)
          simp only [hg]
          apply (parseredirs_sound hline hclose.inside (by omega) hc).mono
          rintro r ⟨us, D, hreads', hd, hredirs⟩
          exact ⟨_, D, ((hopen.trans hreads).trans hclose).trans hreads', hd, by simpa using Derives.block hinner hredirs⟩

/-! ## Completeness -/

/-- The symbols that may stand behind what a nonterminal derives. -/
def Nonterminal.follows : Nonterminal → List UInt8
  | .line => [41]
  | .pipe => [41, 38, 59]
  | .exec => [124, 41, 38, 59]
  | .block => [124, 41, 38, 59]

/-- The tokens `k` begin with one of the symbols, or there are none. -/
def Ends (l : List UInt8) (k : List Lexeme) : Prop := k = [] ∨ starts l k = true

/-- The function that started at `s` has taken all tokens before `k`, and its tree stands for `C`. -/
def Finds (line : List UInt8) (s : Nat) (k : List Lexeme) (C : Tree) (r : Cmd Word × Nat) : Prop :=
  Stands line r.1 C ∧ s ≤ r.2 ∧ r.2 ≤ line.length ∧ rest line r.2 = k

theorem Ends.not_starts {l l' : List UInt8} (h : Ends l k) (hl : ∀ c ∈ l, c ∉ l') : starts l' k = false := by
  rcases h with rfl | h
  · rfl
  · cases k with
    | nil => rfl
    | cons x k =>
      simp only [starts_cons, List.contains_eq_mem, decide_eq_true_eq] at h
      simpa using hl _ h

theorem Ends.mono {l l' : List UInt8} (h : Ends l k) (hl : l ⊆ l') : Ends l' k := by
  refine h.imp_right fun h => ?_
  cases k with
  | nil => exact h
  | cons x k =>
    simp only [starts_cons, List.contains_eq_mem, decide_eq_true_eq] at h ⊢
    exact hl h

/-- `gettoken` takes the next token of the list. -/
theorem gettoken_of_rest {t : Tok} {x : List UInt8} (hline : 0 ∉ line) (hs : s ≤ line.length)
    (h : rest line s = (t, x) :: k) :
    ∃ w s', gettoken line s = (t, w, s') ∧ t ≠ .eof ∧ text line w = x ∧ s < s' ∧ s' ≤ line.length ∧
      rest line s' = k ∧ (t = .word → IsWord line w) := by
  rcases gettoken_cases hline hs with ⟨w, s', -, hnil, -⟩ | ⟨t', w, s', hg, ht, hreads, hlt, hword⟩
  · simp [hnil] at h
  · rw [hreads.rest] at h
    simp only [List.singleton_append, List.cons.injEq, Prod.mk.injEq] at h
    obtain ⟨⟨rfl, rfl⟩, rfl⟩ := h
    exact ⟨w, s', hg, ht, rfl, hlt, hreads.inside, rfl, hword⟩

theorem redirection_code {t : Tok} {m : Nat × Nat} (h : redirection t = some m) : [60, 62].contains t.code = true := by
  cases t <;> first | rfl | cases h

theorem parseredirs_complete (hline : 0 ∉ line) (h : Redirs ts C D) (hk : starts [60, 62] k = false) :
    ∀ {c n s}, s ≤ line.length → line.length - s < n → Stands line c C → rest line s = ts ++ k →
      (parseredirs line n c s).Returns (Finds line s k D) := by
  induction h with
  | @nil C =>
    intro c n s hs hn hc hrest
    obtain ⟨n, rfl⟩ : ∃ m, n = m + 1 := ⟨n - 1, by omega⟩
    rw [List.nil_append] at hrest
    have hblanks := Reads.blanks hline hs
    refine ⟨(c, skipBlanks line s), ?_, hc, hblanks.le, hblanks.inside, ?_⟩
    · simp [parseredirs, peek_eq hline hs (show ∀ c ∈ [60, 62], c ∈ symbols by simp [symbols]), hrest, hk]
    · exact (rest_skipBlanks hline hs).trans hrest
  | @cons t x v mode fd ts C D hmode _ ih =>
    intro c n s hs hn hc hrest
    obtain ⟨n, rfl⟩ : ∃ m, n = m + 1 := ⟨n - 1, by omega⟩
    have hstart : starts [60, 62] (rest line s) = true := by simpa [hrest] using redirection_code hmode
    obtain ⟨w, s₁, hg, -, -, hlt, hup, hrest', -⟩ := gettoken_of_rest hline hs hrest
    obtain ⟨w', s₂, hg', -, rfl, hlt', hup', hrest'', hword⟩ := gettoken_of_rest hline hup hrest'
    obtain ⟨r, hr, hstands, hle, hfound⟩ :=
      ih (n := n) hup' (by omega) (hc.redir (hword rfl) mode fd) hrest''
    refine ⟨r, ?_, hstands, by omega, hfound⟩
    simp only [parseredirs, peek_eq hline hs (show ∀ c ∈ [60, 62], c ∈ symbols by simp [symbols]), hstart, gettoken_skipBlanks,
      hg, hg', hmode]
    simpa using hr

theorem parseamps_complete (hline : 0 ∉ line) (h : Amps ts C D) (hk : starts [38] k = false) :
    ∀ {c n s}, s ≤ line.length → line.length - s < n → Stands line c C → rest line s = ts ++ k →
      (parseamps line n c s).Returns (Finds line s k D) := by
  induction h with
  | @nil C =>
    intro c n s hs hn hc hrest
    obtain ⟨n, rfl⟩ : ∃ m, n = m + 1 := ⟨n - 1, by omega⟩
    rw [List.nil_append] at hrest
    have hblanks := Reads.blanks hline hs
    refine ⟨(c, skipBlanks line s), ?_, hc, hblanks.le, hblanks.inside, ?_⟩
    · simp [parseamps, peek_eq hline hs (show ∀ c ∈ [38], c ∈ symbols by simp [symbols]), hrest, hk]
    · exact (rest_skipBlanks hline hs).trans hrest
  | @cons x ts C D _ ih =>
    intro c n s hs hn hc hrest
    obtain ⟨n, rfl⟩ : ∃ m, n = m + 1 := ⟨n - 1, by omega⟩
    have hstart : starts [38] (rest line s) = true := by simp [hrest, Tok.code]
    obtain ⟨w, s₁, hg, -, -, hlt, hup, hrest', -⟩ := gettoken_of_rest hline hs hrest
    obtain ⟨r, hr, hstands, hle, hfound⟩ := ih (n := n) hup (by omega) hc.back hrest'
    refine ⟨r, ?_, hstands, by omega, hfound⟩
    simp only [parseamps, peek_eq hline hs (show ∀ c ∈ [38], c ∈ symbols by simp [symbols]), hstart, gettoken_skipBlanks, hg]
    exact hr

/-- Arguments begin with a word, or what follows begins. -/
theorem Args.starts_append (h : Args ts argc C D) {l : List UInt8} (h0 : l.contains 0 = false) (hk : starts l k = false) :
    starts l (ts ++ k) = false := by
  cases h with
  | nil => exact hk
  | cons => exact h0

theorem parseargs_complete (hline : 0 ∉ line) (h : Args ts argc C D) (hk : Ends [124, 41, 38, 59] k) :
    ∀ {c n s}, s ≤ line.length → line.length - s < n → Stands line c C → rest line s = ts ++ k →
      (parseargs line n c argc s).Returns (Finds line s k D) := by
  induction h with
  | @nil argc C =>
    intro c n s hs hn hc hrest
    obtain ⟨n, rfl⟩ : ∃ m, n = m + 1 := ⟨n - 1, by omega⟩
    rw [List.nil_append] at hrest
    have hpeek := peek_eq hline hs (show ∀ c ∈ [124, 41, 38, 59], c ∈ symbols by simp [symbols])
    rcases hk with rfl | hk
    · rcases gettoken_cases hline hs with ⟨w, s', hg, -, hend⟩ | ⟨t, w, s', -, -, hreads, -, -⟩
      · have hnil : rest line s' = [] := by simpa [hrest] using hend.rest.symm
        refine ⟨(c, s'), ?_, hc, hend.le, hend.inside, hnil⟩
        simp [parseargs, hpeek, hrest, gettoken_skipBlanks, hg]
      · exact absurd (hrest.symm.trans hreads.rest) (by simp)
    · have hblanks := Reads.blanks hline hs
      refine ⟨(c, skipBlanks line s), ?_, hc, hblanks.le, hblanks.inside, (rest_skipBlanks hline hs).trans hrest⟩
      simp [parseargs, hpeek, hrest, hk]
  | @cons v rs ts argc C D E hargc hredirs hargs ih =>
    intro c n s hs hn hc hrest
    obtain ⟨n, rfl⟩ : ∃ m, n = m + 1 := ⟨n - 1, by omega⟩
    have hstart : starts [124, 41, 38, 59] (rest line s) = false := by simp [hrest, Tok.code]
    rw [List.cons_append, List.append_assoc] at hrest
    obtain ⟨w, s₁, hg, -, rfl, hlt, hup, hrest', hword⟩ := gettoken_of_rest hline hs hrest
    have hfollow : starts [60, 62] (ts ++ k) = false :=
      hargs.starts_append rfl (hk.not_starts (by simp))
    obtain ⟨⟨d, s₂⟩, hr, hd, hle, hup', hrest''⟩ :=
      parseredirs_complete hline hredirs hfollow (n := n) hup (by omega) (hc.addArg (hword rfl)) hrest'
    simp only at hd hle hup' hrest''
    obtain ⟨r, hr', hstands, hle', hfound⟩ := ih (n := n) hup' (by omega) hd hrest''
    refine ⟨r, ?_, hstands, by omega, hfound⟩
    simp only [parseargs, peek_eq hline hs (show ∀ c ∈ [124, 41, 38, 59], c ∈ symbols by simp [symbols]), hstart,
      gettoken_skipBlanks, hg]
    rw [if_neg (by decide), if_neg (by decide), if_neg (Nat.not_le.2 hargc)]
    exact Except.bind_ok_iff.2 ⟨_, hr, hr'⟩

/-- A pipeline may end where a run of `&` begins. -/
theorem Amps.ends_append (h : Amps ts C D) {l : List UInt8} (hl : 38 ∈ l) (hk : Ends l k) : Ends l (ts ++ k) := by
  cases h with
  | nil => exact hk
  | cons => exact .inr (by simpa [Tok.code] using hl)

/-- With enough fuel the parser of `nt` finds `C` wherever the tokens `ts` come next. -/
def Completes (line : List UInt8) (nt : Nonterminal) (ts : List Lexeme) (C : Tree) : Prop :=
  ∀ {n s : Nat} {k : List Lexeme}, s ≤ line.length → 4 * (line.length - s) + nt.height ≤ n → Ends nt.follows k →
    rest line s = ts ++ k → (parse line nt n s).Returns (Finds line s k C)

theorem completes_line (hline : 0 ∉ line) (hamps : Amps us C D) (ih : Completes line .pipe ts C) :
    Completes line .line (ts ++ us) D := by
  simp only [Completes, Nonterminal.height] at ih ⊢
  intro n s k hs hn hk hrest
  obtain ⟨n, rfl⟩ : ∃ m, n = m + 1 := ⟨n - 1, by omega⟩
  rw [List.append_assoc] at hrest
  have hfollow : Ends Nonterminal.pipe.follows (us ++ k) :=
    hamps.ends_append (by decide) (hk.mono (by decide))
  obtain ⟨⟨c, s₁⟩, hr, hc, hle, hup, hrest'⟩ := ih (n := n) hs (by omega) hfollow hrest
  simp only at hc hle hup hrest'
  obtain ⟨⟨d, s₂⟩, hr', hd, hle', hup', hrest''⟩ :=
    parseamps_complete hline hamps (hk.not_starts (by simp [Nonterminal.follows])) (n := line.length + 1) hup (by omega) hc hrest'
  simp only at hd hle' hup' hrest''
  have hblanks := Reads.blanks hline hup'
  have hstop : starts [59] k = false := hk.not_starts (by simp [Nonterminal.follows])
  refine ⟨(d, skipBlanks line s₂), ?_, hd, ?_, hblanks.inside, (rest_skipBlanks hline hup').trans hrest''⟩
  · simp only [parse, parseline]
    refine Except.bind_ok_iff.2 ⟨_, hr, Except.bind_ok_iff.2 ⟨_, hr', ?_⟩⟩
    simp [peek_eq hline hup' (show ∀ c ∈ [59], c ∈ symbols by simp [symbols]), hrest'', hstop]
  · exact Nat.le_trans (Nat.le_trans hle hle') hblanks.le

theorem completes_list (hline : 0 ∉ line) {vs : List Lexeme} {x : List UInt8} {E : Tree} (hamps : Amps us C D)
    (ih : Completes line .pipe ts C) (ih' : Completes line .line vs E) :
    Completes line .line (ts ++ us ++ (.semi, x) :: vs) (.list D E) := by
  simp only [Completes, Nonterminal.height] at ih ih' ⊢
  intro n s k hs hn hk hrest
  obtain ⟨n, rfl⟩ : ∃ m, n = m + 1 := ⟨n - 1, by omega⟩
  simp only [List.append_assoc, List.cons_append] at hrest
  have hsemi : Ends Nonterminal.pipe.follows ((.semi, x) :: (vs ++ k)) := .inr rfl
  obtain ⟨⟨c, s₁⟩, hr, hc, hle, hup, hrest'⟩ :=
    ih (n := n) hs (by omega) (hamps.ends_append (by decide) hsemi) hrest
  simp only at hc hle hup hrest'
  obtain ⟨⟨d, s₂⟩, hr', hd, hle', hup', hrest''⟩ :=
    parseamps_complete hline hamps rfl (n := line.length + 1) hup (by omega) hc hrest'
  simp only at hd hle' hup' hrest''
  obtain ⟨w, s₃, hg, -, -, hlt, hup₃, hrest₃, -⟩ := gettoken_of_rest hline hup' hrest''
  obtain ⟨⟨e, s₄⟩, hr₄, he, hle₄, hup₄, hrest₄⟩ := ih' (n := n) hup₃ (by omega) hk hrest₃
  simp only at he hle₄ hup₄ hrest₄
  refine ⟨(.list d e, s₄), ?_, hd.list he, by simp only; omega, hup₄, hrest₄⟩
  simp only [parse, parseline]
  refine Except.bind_ok_iff.2 ⟨_, hr, Except.bind_ok_iff.2 ⟨_, hr', ?_⟩⟩
  have hstart : starts [59] (rest line s₂) = true := by simp [hrest'', Tok.code]
  simp only [peek_eq hline hup' (show ∀ c ∈ [59], c ∈ symbols by simp [symbols]), hstart, gettoken_skipBlanks, hg]
  exact Except.bind_ok_iff.2 ⟨_, hr₄, rfl⟩

theorem completes_pipe (hline : 0 ∉ line) (ih : Completes line .exec ts C) : Completes line .pipe ts C := by
  simp only [Completes, Nonterminal.height] at ih ⊢
  intro n s k hs hn hk hrest
  obtain ⟨n, rfl⟩ : ∃ m, n = m + 1 := ⟨n - 1, by omega⟩
  obtain ⟨⟨c, s₁⟩, hr, hc, hle, hup, hrest'⟩ := ih (n := n) hs (by omega) (hk.mono (by decide)) hrest
  simp only at hc hle hup hrest'
  have hblanks := Reads.blanks hline hup
  have hstop : starts [124] k = false := hk.not_starts (by simp [Nonterminal.follows])
  refine ⟨(c, skipBlanks line s₁), ?_, hc, Nat.le_trans hle hblanks.le, hblanks.inside,
    (rest_skipBlanks hline hup).trans hrest'⟩
  simp only [parse, parsepipe]
  refine Except.bind_ok_iff.2 ⟨_, hr, ?_⟩
  simp [peek_eq hline hup (show ∀ c ∈ [124], c ∈ symbols by simp [symbols]), hrest', hstop]

theorem completes_pipes (hline : 0 ∉ line) {x : List UInt8} (ih : Completes line .exec ts C) (ih' : Completes line .pipe us D) :
    Completes line .pipe (ts ++ (.pipe, x) :: us) (.pipe C D) := by
  simp only [Completes, Nonterminal.height] at ih ih' ⊢
  intro n s k hs hn hk hrest
  obtain ⟨n, rfl⟩ : ∃ m, n = m + 1 := ⟨n - 1, by omega⟩
  simp only [List.append_assoc, List.cons_append] at hrest
  have hbar : Ends Nonterminal.exec.follows ((.pipe, x) :: (us ++ k)) := .inr rfl
  obtain ⟨⟨c, s₁⟩, hr, hc, hle, hup, hrest'⟩ := ih (n := n) hs (by omega) hbar hrest
  simp only at hc hle hup hrest'
  obtain ⟨w, s₂, hg, -, -, hlt, hup₂, hrest₂, -⟩ := gettoken_of_rest hline hup hrest'
  obtain ⟨⟨d, s₃⟩, hr₃, hd, hle₃, hup₃, hrest₃⟩ := ih' (n := n) hup₂ (by omega) hk hrest₂
  simp only at hd hle₃ hup₃ hrest₃
  refine ⟨(.pipe c d, s₃), ?_, hc.pipe hd, by simp only; omega, hup₃, hrest₃⟩
  simp only [parse, parsepipe]
  refine Except.bind_ok_iff.2 ⟨_, hr, ?_⟩
  have hstart : starts [124] (rest line s₁) = true := by simp [hrest', Tok.code]
  simp only [peek_eq hline hup (show ∀ c ∈ [124], c ∈ symbols by simp [symbols]), hstart, gettoken_skipBlanks, hg]
  exact Except.bind_ok_iff.2 ⟨_, hr₃, rfl⟩

theorem completes_exec (hline : 0 ∉ line) (hredirs : Redirs ts (.exec []) C) (hargs : Args us 0 C D) :
    Completes line .exec (ts ++ us) D := by
  simp only [Completes, Nonterminal.height]
  intro n s k hs hn hk hrest
  obtain ⟨n, rfl⟩ : ∃ m, n = m + 1 := ⟨n - 1, by omega⟩
  rw [List.append_assoc] at hrest
  have hblanks := Reads.blanks hline hs
  have hup := hblanks.inside
  have hopen : starts [40] (ts ++ (us ++ k)) = false := by
    cases hredirs with
    | nil => exact hargs.starts_append rfl (hk.not_starts (by simp [Nonterminal.follows]))
    | @cons t _ _ _ _ _ _ _ hmode => cases t <;> first | rfl | cases hmode
  obtain ⟨⟨c, s₁⟩, hr, hc, hle, hup₁, hrest₁⟩ :=
    parseredirs_complete hline hredirs (hargs.starts_append rfl (hk.not_starts (by simp [Nonterminal.follows]))) (n := line.length + 1)
      hup (by omega) Stands.nil ((rest_skipBlanks hline hs).trans hrest)
  simp only at hc hle hup₁ hrest₁
  obtain ⟨r, hr₂, hstands, hle₂, hfound⟩ :=
    parseargs_complete hline hargs hk (n := line.length + 1) hup₁ (by omega) hc hrest₁
  refine ⟨r, ?_, hstands, Nat.le_trans hblanks.le (Nat.le_trans hle hle₂), hfound⟩
  simp only [parse, parseexec, peek_eq hline hs (show ∀ c ∈ [40], c ∈ symbols by simp [symbols]), hrest, hopen]
  exact Except.bind_ok_iff.2 ⟨_, hr, hr₂⟩

theorem completes_execBlock (hline : 0 ∉ line) (hblock : Derives .block ts C) (ih : Completes line .block ts C) :
    Completes line .exec ts C := by
  simp only [Completes, Nonterminal.height] at ih ⊢
  intro n s k hs hn hk hrest
  obtain ⟨n, rfl⟩ : ∃ m, n = m + 1 := ⟨n - 1, by omega⟩
  have hblanks := Reads.blanks hline hs
  have hle := hblanks.le
  have hopen : starts [40] (rest line s) = true := by
    cases hblock
    simp [hrest, Tok.code]
  obtain ⟨r, hr, hstands, hle₁, hfound⟩ :=
    ih (n := n) hblanks.inside (by omega) hk ((rest_skipBlanks hline hs).trans hrest)
  refine ⟨r, ?_, hstands, Nat.le_trans hle hle₁, hfound⟩
  simp only [parse, parseexec, peek_eq hline hs (show ∀ c ∈ [40], c ∈ symbols by simp [symbols]), hopen]
  exact hr

theorem completes_block (hline : 0 ∉ line) {x y : List UInt8} (hredirs : Redirs us C D) (ih : Completes line .line ts C) :
    Completes line .block ((.lparen, x) :: (ts ++ (.rparen, y) :: us)) D := by
  simp only [Completes, Nonterminal.height] at ih ⊢
  intro n s k hs hn hk hrest
  obtain ⟨n, rfl⟩ : ∃ m, n = m + 1 := ⟨n - 1, by omega⟩
  have hopen : starts [40] (rest line s) = true := by simp [hrest, Tok.code]
  simp only [List.append_assoc, List.cons_append] at hrest
  obtain ⟨w, s₁, hg, -, -, hlt, hup₁, hrest₁, -⟩ := gettoken_of_rest hline hs hrest
  obtain ⟨⟨c, s₂⟩, hr, hc, hle₂, hup₂, hrest₂⟩ := ih (n := n) hup₁ (by omega) (.inr rfl) hrest₁
  simp only at hc hle₂ hup₂ hrest₂
  obtain ⟨w', s₃, hg₃, -, -, hlt₃, hup₃, hrest₃, -⟩ := gettoken_of_rest hline hup₂ hrest₂
  obtain ⟨r, hr₄, hstands, hle₄, hfound⟩ :=
    parseredirs_complete hline hredirs (hk.not_starts (by simp [Nonterminal.follows])) (n := line.length + 1) hup₃ (by omega) hc hrest₃
  refine ⟨r, ?_, hstands, by omega, hfound⟩
  simp only [parse, parseblock, peek_eq hline hs (show ∀ c ∈ [40], c ∈ symbols by simp [symbols]), hopen, gettoken_skipBlanks,
    hg]
  refine Except.bind_ok_iff.2 ⟨_, hr, ?_⟩
  have hclose : starts [41] (rest line s₂) = true := by simp [hrest₂, Tok.code]
  simp only [peek_eq hline hup₂ (show ∀ c ∈ [41], c ∈ symbols by simp [symbols]), hclose, gettoken_skipBlanks, hg₃]
  exact hr₄

theorem parse_complete (hline : 0 ∉ line) (h : Derives nt ts C) : Completes line nt ts C := by
  induction h with
  | line _ hamps ih => exact completes_line hline hamps ih
  | list _ hamps _ ih ih' => exact completes_list hline hamps ih ih'
  | pipe _ ih => exact completes_pipe hline ih
  | pipes _ _ ih ih' => exact completes_pipes hline ih ih'
  | exec hredirs hargs => exact completes_exec hline hredirs hargs
  | execBlock hblock ih => exact completes_execBlock hline hblock ih
  | block _ hredirs ih => exact completes_block hline hredirs ih

/-! ## Lines -/

theorem spells_iff (hline : 0 ∉ line) : Spells line ts ↔ rest line 0 = ts := by
  constructor
  · intro h
    exact rest_of_spells hline h 0 (Nat.zero_le _) rfl
  · rintro rfl
    exact spells_rest hline (Nat.zero_le _)

theorem parseline_sound (hline : 0 ∉ line) :
    (parseline line (4 * line.length + 4) 0).Settles .depth (Parsed line 0 (Derives .line)) := by
  have hbound : 4 * (line.length - 0) + Nonterminal.line.height ≤ 4 * line.length + 4 := Nat.le_refl _
  exact parse_sound hline (Nat.zero_le _) hbound

/-- A line that is parsed has no tokens left. -/
theorem parsecmd_sound (hline : 0 ∉ line) :
    (parsecmd line).Settles .depth fun c => ∃ C, Stands line c C ∧ Derives .line (rest line 0) C := by
  refine (parseline_sound hline).bind ?_
  rintro ⟨c, s⟩ ⟨ts, C, hreads, hc, hderives⟩
  have hup : s ≤ line.length := hreads.inside
  simp only [peek_eq hline hup (show ∀ c ∈ [], c ∈ symbols by simp)]
  split_ifs with hend
  · exact Except.settles_error (by decide)
  · have hnil := (rest_eq_nil_iff hline hup).2 (Decidable.not_not.1 hend)
    have hrest : rest line 0 = ts := by simpa [hnil] using hreads.rest
    exact Except.settles_ok ⟨C, hc, hrest ▸ hderives⟩

theorem parsecmd_complete (hline : 0 ∉ line) (h : Derives .line (rest line 0) C) :
    (parsecmd line).Returns fun c => Stands line c C := by
  obtain ⟨⟨c, s⟩, hr, hc, -, hup, hrest⟩ := parse_complete hline h (n := 4 * line.length + 4) (k := [])
    (Nat.zero_le _) (Nat.le_refl _) (.inl rfl) (List.append_nil _).symm
  simp only at hc hup hrest
  refine ⟨c, Except.bind_ok_iff.2 ⟨_, hr, ?_⟩, hc⟩
  simp [peek_eq hline hup (show ∀ c ∈ [], c ∈ symbols by simp), (rest_eq_nil_iff hline hup).1 hrest]

/-- The parser accepts a line if and only if its tokens are a sentence of the
grammar, and then builds the tree that the sentence derives; it panics on every
other line. -/
theorem parsecmd_iff (hline : 0 ∉ line) :
    (∀ C : Tree, (∃ c, parsecmd line = .ok c ∧ c.map (text line) = C) ↔ ∃ ts, Spells line ts ∧ Derives .line ts C) ∧
      ((∃ c, parsecmd line = .ok c) ∨ ∃ msg, parsecmd line = .error (.panic msg)) := by
  obtain ⟨havoids, hyields⟩ := parsecmd_sound hline
  refine ⟨fun C => ⟨?_, ?_⟩, ?_⟩
  · rintro ⟨c, hc, rfl⟩
    obtain ⟨C, hstands, hderives⟩ := hyields c hc
    exact ⟨_, spells_rest hline (Nat.zero_le _), hstands.map ▸ hderives⟩
  · rintro ⟨ts, hspells, hderives⟩
    obtain rfl := (spells_iff hline).1 hspells
    obtain ⟨c, hc, hstands⟩ := parsecmd_complete hline hderives
    exact ⟨c, hc, hstands.map⟩
  · cases hc : parsecmd line with
    | ok c => exact .inl ⟨c, rfl⟩
    | error e =>
      cases e with
      | panic msg => exact .inr ⟨msg, rfl⟩
      | depth => exact absurd hc havoids

/-- The line `ls>x`. -/
theorem parsecmd_redirection :
    parsecmd [108, 115, 62, 120] = .ok (.redir (.exec [⟨0, 2⟩]) ⟨3, 4⟩ 0x601 1) := by
  rw [parsecmd, parseline, parsepipe, parseexec]
  decide

/-- The line `ls>x` is a sentence of the grammar. -/
theorem parsecmd_iff_redirection :
    ∃ ts, Spells [108, 115, 62, 120] ts ∧ Derives .line ts (.redir (.exec [[108, 115]]) [120] 0x601 1) :=
  ((parsecmd_iff (by decide)).1 _).1 ⟨_, parsecmd_redirection, rfl⟩

/-! ## Termination of the words -/

theorem exec_nulterminate (argv : List Word) (buf : Nat → UInt8) :
    argv.foldl (fun buf w => Function.update buf w.eq 0) buf i = if ∃ w ∈ argv, w.eq = i then 0 else buf i := by
  induction argv generalizing buf with
  | nil => simp
  | cons w argv ih =>
    simp only [List.foldl_cons, ih, List.mem_cons, exists_eq_or_imp, Function.update_apply]
    by_cases hw : w.eq = i
    · simp [hw]
    · simp [hw, Ne.symm hw]

/-- `nulterminate` writes behind the words of the tree, and nowhere else. -/
theorem nulterminate_apply (c : Cmd Word) (buf : Nat → UInt8) :
    nulterminate c buf i = if ∃ w ∈ c.words, w.eq = i then 0 else buf i := by
  induction c generalizing buf with
  | exec argv => exact exec_nulterminate argv buf
  | redir c file mode fd ih =>
    simp only [nulterminate, Function.update_apply, ih, Cmd.words, List.mem_append, List.mem_singleton]
    by_cases hi : i = file.eq
    · simp [hi]
    · simp [hi, Ne.symm hi, or_and_right, exists_or]
  | pipe l r ihl ihr | list l r ihl ihr =>
    simp only [nulterminate, ihl, ihr, Cmd.words, List.mem_append]
    by_cases hr : ∃ w ∈ r.words, w.eq = i
    · simp [hr, or_and_right, exists_or]
    · simp [hr, or_and_right, exists_or]
  | back c ih => exact ih buf

/-- A C string: the characters `l` stand at `q`, and behind them the first NUL. -/
def IsCString (buf : Nat → UInt8) (q : Nat) (l : List UInt8) : Prop :=
  0 ∉ l ∧ (∀ i (hi : i < l.length), buf (q + i) = l[i]) ∧ buf (q + l.length) = 0

theorem IsWord.length_text {w : Word} (h : IsWord line w) : (text line w).length = w.eq - w.q := by
  have := h.lt
  have := h.inside
  simp [text]
  omega

/-- The NUL behind one word is in no other. -/
theorem IsWord.apart {v w : Word} (hv : IsWord line v) (hw : IsWord line w) (hle : w.q ≤ v.eq) : w.eq ≤ v.eq := by
  by_contra hlt
  have hin := hw.chars v.eq hle (Nat.lt_of_not_le hlt)
  have hup := hw.inside
  rcases hv.stop with hend | hstop
  · omega
  · simp [hin] at hstop

theorem nulterminate_word (hline : 0 ∉ line) (hwords : ∀ w ∈ c.words, IsWord line w) {w : Word} (hw : w ∈ c.words) :
    IsCString (nulterminate c (char line)) w.q (text line w) := by
  have hword := hwords w hw
  have hlen := hword.length_text
  have hlt := hword.lt
  have hup := hword.inside
  refine ⟨?_, ?_, ?_⟩
  · intro hzero
    exact hline (List.mem_of_mem_drop (List.mem_of_mem_take hzero))
  · intro i hi
    have hnone : ¬∃ v ∈ c.words, v.eq = w.q + i := by
      rintro ⟨v, hv, heq⟩
      have := (hwords v hv).apart hword (by omega)
      omega
    have hlt' : w.q + i < line.length := by omega
    have hget : char line (w.q + i) = (line)[w.q + i] := List.getD_eq_getElem _ _ hlt'
    rw [nulterminate_apply, if_neg hnone, hget]
    simp [text]
  · rw [nulterminate_apply, hlen, Nat.add_sub_cancel' (Nat.le_of_lt hlt), if_pos ⟨w, hw, rfl⟩]

/-- After `nulterminate` every word of the tree of a parsed line is a string:
the characters that the parser has taken for it and then a NUL, although the
NULs replace characters of the line that are next to other words. -/
theorem parsecmd_strings (hline : 0 ∉ line) (h : parsecmd line = .ok c) :
    (∀ w ∈ c.words, IsCString (nulterminate c (char line)) w.q (text line w)) ∧
      ∀ i, nulterminate c (char line) i ≠ char line i → i < line.length ∧ inWord (char line i) = false := by
  obtain ⟨C, hstands, -⟩ := (parsecmd_sound hline).2 c h
  refine ⟨fun w hw => nulterminate_word hline hstands.words hw, ?_⟩
  intro i hi
  rw [nulterminate_apply] at hi
  split_ifs at hi with hw
  · obtain ⟨w, hw, rfl⟩ := hw
    have hword := hstands.words w hw
    rcases hword.stop with hend | hstop
    · exact absurd ((char_eq_zero_iff hline).2 (Nat.le_of_eq hend.symm)).symm hi
    · refine ⟨Nat.lt_of_le_of_ne hword.inside ?_, hstop⟩
      intro hend
      exact hi ((char_eq_zero_iff hline).2 (Nat.le_of_eq hend.symm)).symm
  · exact absurd rfl hi

/-- The word `ls` of the line `ls>x`, which has no blank behind it. -/
theorem parsecmd_strings_redirection :
    IsCString (nulterminate (.redir (.exec [⟨0, 2⟩]) ⟨3, 4⟩ 0x601 1) (char [108, 115, 62, 120])) 0 [108, 115] :=
  (parsecmd_strings (by decide) parsecmd_redirection).1 ⟨0, 2⟩ (by simp [Cmd.words])

end Xv6.Shell
