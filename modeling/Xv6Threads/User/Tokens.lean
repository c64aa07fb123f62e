-- SUMMARY: What gettoken and peek see of a line, and the lexical grammar of the shell.
import Mathlib.Data.List.GetD
import Mathlib.Tactic.Basic
import Xv6Threads.User.Shell

/-!
# Tokens of the shell

`rest line s` lists the tokens from position `s` on. `gettoken` takes the first
of them and `peek` looks at it, so what follows about the parser speaks of
lists of tokens and not of positions. `Spells` says independently which bytes
make up which tokens.
-/

namespace Xv6.Shell

/-- A token with its characters. -/
abbrev Lexeme := Tok × List UInt8

variable {line : List UInt8} {p : UInt8 → Bool} {n s s' e : Nat} {t : Tok} {w : Word} {c : UInt8}

/-! ## Positions -/

theorem char_eq_zero_iff (hline : 0 ∉ line) : char line s = 0 ↔ line.length ≤ s := by
  constructor
  · intro h
    by_contra hlt
    have hlt : s < line.length := Nat.lt_of_not_le hlt
    have hget : char line s = (line)[s] := List.getD_eq_getElem _ _ hlt
    apply hline
    simp [← h, hget]
  · intro h
    exact List.getD_eq_default _ _ h

theorem char_of_drop {l : List UInt8} (h : line.drop s = c :: l) :
    char line s = c ∧ s < line.length ∧ line.drop (s + 1) = l := by
  have hlt : s < line.length := by
    by_contra hge
    simp [List.drop_eq_nil_of_le (Nat.le_of_not_lt hge)] at h
  simp only [List.drop_eq_getElem_cons hlt, List.cons.injEq] at h
  exact ⟨(List.getD_eq_getElem _ _ hlt).trans h.1, hlt, h.2⟩

/-! ## Skipping -/

theorem skip_of_not (h : p (char line s) = false) : skip p line n s = s := by
  cases n with
  | zero => rfl
  | succ n => simp [skip, h]

theorem le_skip (p : UInt8 → Bool) (line : List UInt8) (n s : Nat) : s ≤ skip p line n s := by
  induction n generalizing s with
  | zero => exact Nat.le_refl s
  | succ n ih =>
    simp only [skip]
    split
    · exact Nat.le_trans (Nat.le_succ s) (ih _)
    · exact Nat.le_refl s

theorem skip_le (p : UInt8 → Bool) (line : List UInt8) (n s : Nat) : skip p line n s ≤ s + n := by
  induction n generalizing s with
  | zero => exact Nat.le_refl s
  | succ n ih =>
    simp only [skip]
    split
    · have := ih (s + 1)
      omega
    · omega

theorem skip_passes {i : Nat} (h : s ≤ i) (hi : i < skip p line n s) : p (char line i) = true := by
  induction n generalizing s with
  | zero => exact absurd hi (Nat.not_lt.2 h)
  | succ n ih =>
    simp only [skip] at hi
    split at hi
    · rename_i hp
      rcases Nat.eq_or_lt_of_le h with rfl | hlt
      · exact hp
      · exact ih hlt hi
    · exact absurd hi (Nat.not_lt.2 h)

/-- The loop ends at the end of the line or where the class ends. -/
theorem skip_end (p : UInt8 → Bool) (hn : line.length ≤ s + n) :
    line.length ≤ skip p line n s ∨ p (char line (skip p line n s)) = false := by
  induction n generalizing s with
  | zero => exact .inl hn
  | succ n ih =>
    simp only [skip]
    split
    · apply ih
      omega
    · rename_i hp
      simpa using Or.inr hp

/-- A class without NUL stops at the end of the line at the latest. -/
theorem skip_stops (h : p 0 = false) : p (char line (skip p line (line.length - s) s)) = false := by
  rcases skip_end p (show line.length ≤ s + (line.length - s) by omega) with hend | hstop
  · have hzero : char line (skip p line (line.length - s) s) = 0 := List.getD_eq_default _ _ hend
    simp [hzero, h]
  · exact hstop

/-- A loop that still has rounds goes on from the next position. -/
theorem skip_next (hp : p (char line s) = true) (hs : s < line.length) :
    skip p line (line.length - s) s = skip p line (line.length - (s + 1)) (s + 1) := by
  obtain ⟨n, hn⟩ : ∃ n, line.length - s = n + 1 := ⟨line.length - s - 1, by omega⟩
  simp [hn, skip, hp, show line.length - (s + 1) = n by omega]

theorem le_skipBlanks (line : List UInt8) (s : Nat) : s ≤ skipBlanks line s := le_skip _ _ _ _

theorem skipBlanks_le (h : s ≤ line.length) : skipBlanks line s ≤ line.length := by
  have := skip_le isBlank line (line.length - s) s
  unfold skipBlanks
  omega

theorem skipBlanks_stops : isBlank (char line (skipBlanks line s)) = false := skip_stops rfl

theorem skipBlanks_of_not (h : isBlank (char line s) = false) : skipBlanks line s = s := skip_of_not h

theorem skipBlanks_skipBlanks : skipBlanks line (skipBlanks line s) = skipBlanks line s :=
  skipBlanks_of_not skipBlanks_stops

/-! ## One token -/

theorem symbol_ne_eof (h : symbol c = some t) : t ≠ .eof ∧ t ≠ .word ∧ t ≠ .greater ∧ t ≠ .append := by
  unfold symbol at h
  split_ifs at h <;> cases h <;> decide

theorem inWord_of_symbol_none (h : symbol c = none) (hg : c ≠ 62) (hblank : isBlank c = false) : inWord c = true := by
  have hsyms : c ∉ symbols := by
    unfold symbol at h
    split_ifs at h
    simp_all [symbols]
  have hblanks : c ∉ whitespace := by simpa [isBlank] using hblank
  simp [inWord, hsyms, hblanks]

/-- The token that starts at `s`: it is not empty unless the line has ended. -/
theorem scan_bounds (hline : 0 ∉ line) (hs : s ≤ line.length) (h : scan line s = (t, e))
    (hblank : isBlank (char line s) = false) :
    s ≤ e ∧ e ≤ line.length ∧ (t = .eof → s = line.length) ∧ (t ≠ .eof → s < e) := by
  have hin : ∀ {i}, char line i ≠ 0 → i < line.length := fun hi =>
    Nat.lt_of_not_le fun hle => hi ((char_eq_zero_iff hline).2 hle)
  unfold scan at h
  split_ifs at h with hz hg hg'
  · cases h
    have hend := (char_eq_zero_iff hline).1 hz
    exact ⟨Nat.le_refl s, hs, fun _ => by omega, fun hne => absurd rfl hne⟩
  · cases h
    have := hin (i := s + 1) (by simp [hg'])
    exact ⟨by omega, by omega, fun he => (by cases he), fun _ => by omega⟩
  · cases h
    have := hin hz
    exact ⟨by omega, by omega, fun he => (by cases he), fun _ => by omega⟩
  · have hlt := hin hz
    split at h
    · rename_i t' hsym
      cases h
      exact ⟨by omega, by omega, fun he => absurd he (symbol_ne_eof hsym).1, fun _ => by omega⟩
    · rename_i hsym
      cases h
      have hword := inWord_of_symbol_none hsym hg hblank
      have hnext := skip_next hword hlt
      have hle := le_skip inWord line (line.length - (s + 1)) (s + 1)
      have hup := skip_le inWord line (line.length - (s + 1)) (s + 1)
      exact ⟨by omega, by omega, fun he => (by cases he), fun _ => by omega⟩

/-- `gettoken` goes forward, and at the end of the line it stays there. -/
theorem gettoken_bounds (hline : 0 ∉ line) (hs : s ≤ line.length) (h : gettoken line s = (t, w, s')) :
    s ≤ s' ∧ s' ≤ line.length ∧ w.q = skipBlanks line s ∧ w.eq ≤ line.length ∧
      (t = .eof → s' = line.length) ∧ (t ≠ .eof → w.q < w.eq ∧ s < s') := by
  have hq := skipBlanks_le hs
  have hsq := le_skipBlanks line s
  unfold gettoken at h
  rcases hscan : scan line (skipBlanks line s) with ⟨t', e⟩
  obtain ⟨hle, hup, heof, hlt⟩ := scan_bounds hline hq hscan skipBlanks_stops
  simp only [hscan, Prod.mk.injEq] at h
  obtain ⟨rfl, rfl, rfl⟩ := h
  have hge := le_skipBlanks line e
  have hse := skipBlanks_le hup
  refine ⟨by omega, hse, rfl, hup, fun he => ?_, fun hne => ?_⟩
  · have := heof he
    omega
  · have := hlt hne
    exact ⟨this, by omega⟩

/-! ## The tokens of a line -/

/-- The characters of a word. -/
def text (line : List UInt8) (w : Word) : List UInt8 := (line.drop w.q).take (w.eq - w.q)

/-- At most `n` tokens, from position `s` on. -/
def lexemes (line : List UInt8) : Nat → Nat → List Lexeme
  | 0, _ => []
  | n + 1, s =>
    let (t, w, s) := gettoken line s
    if t = .eof then [] else (t, text line w) :: lexemes line n s

/-- The tokens from position `s` on. -/
def rest (line : List UInt8) (s : Nat) : List Lexeme := lexemes line (line.length - s) s

theorem lexemes_eq_rest (hline : 0 ∉ line) (hs : s ≤ line.length) (hn : line.length - s ≤ n) :
    lexemes line n s = rest line s := by
  have hmono : ∀ m n s, s ≤ line.length → line.length - s ≤ m → line.length - s ≤ n →
      lexemes line m s = lexemes line n s := by
    intro m
    induction m with
    | zero =>
      intro n s hs hm _
      -- at the end of the line there is no token
      cases n with
      | zero => rfl
      | succ n =>
        rcases hg : gettoken line s with ⟨t, w, s'⟩
        obtain ⟨-, hle, -, -, -, hne⟩ := gettoken_bounds hline hs hg
        have ht : t = .eof := by
          by_contra h
          have := (hne h).2
          omega
        simp [lexemes, hg, ht]
    | succ m ih =>
      intro n s hs hm hn
      rcases hg : gettoken line s with ⟨t, w, s'⟩
      obtain ⟨-, hle, -, -, -, hne⟩ := gettoken_bounds hline hs hg
      by_cases ht : t = .eof
      · cases n <;> simp [lexemes, hg, ht]
      · have hlt := (hne ht).2
        obtain ⟨n, rfl⟩ : ∃ i, n = i + 1 := ⟨n - 1, by omega⟩
        simp only [lexemes, hg, if_neg ht]
        congr 1
        exact ih n s' hle (by omega) (by omega)
  exact hmono _ _ s hs hn (Nat.le_refl _)

theorem rest_of_eof (hline : 0 ∉ line) (hs : s ≤ line.length) (h : gettoken line s = (.eof, w, s')) :
    rest line s = [] := by
  rw [← lexemes_eq_rest hline hs (Nat.le_succ _)]
  simp [lexemes, h]

theorem rest_of_token (hline : 0 ∉ line) (hs : s ≤ line.length) (h : gettoken line s = (t, w, s')) (ht : t ≠ .eof) :
    rest line s = (t, text line w) :: rest line s' := by
  obtain ⟨-, hle, -, -, -, hne⟩ := gettoken_bounds hline hs h
  have hlt := (hne ht).2
  rw [← lexemes_eq_rest hline hs (Nat.le_succ _)]
  simp only [lexemes, h, if_neg ht]
  congr 1
  exact lexemes_eq_rest hline hle (by omega)

theorem gettoken_skipBlanks : gettoken line (skipBlanks line s) = gettoken line s := by
  simp only [gettoken, skipBlanks_skipBlanks]

theorem rest_skipBlanks (hline : 0 ∉ line) (hs : s ≤ line.length) : rest line (skipBlanks line s) = rest line s := by
  have hle := skipBlanks_le hs
  rcases hg : gettoken line s with ⟨t, w, s'⟩
  have hg' : gettoken line (skipBlanks line s) = (t, w, s') := gettoken_skipBlanks.trans hg
  by_cases ht : t = .eof
  · subst ht
    exact (rest_of_eof hline hle hg').trans (rest_of_eof hline hs hg).symm
  · exact (rest_of_token hline hle hg' ht).trans (rest_of_token hline hs hg ht).symm

theorem rest_eq_nil_iff (hline : 0 ∉ line) (hs : s ≤ line.length) : rest line s = [] ↔ skipBlanks line s = line.length := by
  rcases hg : gettoken line s with ⟨t, w, s'⟩
  have hle := skipBlanks_le hs
  obtain ⟨-, -, hq, hup, -, hne⟩ := gettoken_bounds hline hs hg
  by_cases ht : t = .eof
  · subst ht
    refine iff_of_true (rest_of_eof hline hs hg) ?_
    unfold gettoken at hg
    rcases hscan : scan line (skipBlanks line s) with ⟨t', e⟩
    simp only [hscan, Prod.mk.injEq] at hg
    exact (scan_bounds hline hle hscan skipBlanks_stops).2.2.1 hg.1
  · have hlt := (hne ht).1
    refine iff_of_false ?_ (by omega)
    simp [rest_of_token hline hs hg ht]

/-! ## Looking ahead -/

/-- The character that `peek` sees; a word starts with none of `symbols`. -/
def Tok.code : Tok → UInt8
  | .pipe => 124
  | .lparen => 40
  | .rparen => 41
  | .semi => 59
  | .amp => 38
  | .less => 60
  | .greater => 62
  | .append => 62
  | .eof => 0
  | .word => 0

/-- The first token is one of those that `peek` was asked for. -/
def starts (l : List UInt8) (ts : List Lexeme) : Bool := ts.head?.any fun x => l.contains x.1.code

@[simp] theorem starts_nil (l : List UInt8) : starts l [] = false := rfl
@[simp] theorem starts_cons (l : List UInt8) (x : Lexeme) (ts : List Lexeme) :
    starts l (x :: ts) = l.contains x.1.code := rfl

theorem symbol_code (h : symbol c = some t) : t.code = c := by
  unfold symbol at h
  split_ifs at h with h₁ h₂ h₃ h₄ h₅ h₆ <;> cases h <;> simp_all [Tok.code]

theorem scan_code (hblank : isBlank (char line s) = false) (h : scan line s = (t, e)) :
    (t = .eof ∧ char line s = 0) ∨ (t = .word ∧ inWord (char line s) = true) ∨
      (t ≠ .eof ∧ t ≠ .word ∧ char line s = t.code) := by
  unfold scan at h
  split_ifs at h with hz hg hg'
  · cases h
    exact .inl ⟨rfl, hz⟩
  · cases h
    exact .inr (.inr ⟨by decide, by decide, hg⟩)
  · cases h
    exact .inr (.inr ⟨by decide, by decide, hg⟩)
  · split at h
    · rename_i t' hsym
      cases h
      exact .inr (.inr ⟨(symbol_ne_eof hsym).1, (symbol_ne_eof hsym).2.1, (symbol_code hsym).symm⟩)
    · rename_i hsym
      cases h
      exact .inr (.inl ⟨rfl, inWord_of_symbol_none hsym hg hblank⟩)

theorem peek_eq {l : List UInt8} (hline : 0 ∉ line) (hs : s ≤ line.length) (hl : ∀ c ∈ l, c ∈ symbols) :
    peek line s l = (starts l (rest line s), skipBlanks line s) := by
  have hzero : l.contains 0 = false := by
    simp only [List.contains_eq_mem, decide_eq_false_iff_not]
    intro h0
    exact absurd (hl 0 h0) (by decide)
  rcases hscan : scan line (skipBlanks line s) with ⟨t, e⟩
  have hg : gettoken line s = (t, ⟨skipBlanks line s, e⟩, skipBlanks line e) := by simp [gettoken, hscan]
  simp only [peek, Prod.mk.injEq, and_true]
  rcases scan_code skipBlanks_stops hscan with ⟨rfl, hc⟩ | ⟨rfl, hc⟩ | ⟨hne, hne', hc⟩
  · simp [rest_of_eof hline hs hg, hc]
  · simp only [rest_of_token hline hs hg (by decide), starts_cons, Tok.code, hzero, Bool.and_eq_false_iff]
    right
    simp only [List.contains_eq_mem, decide_eq_false_iff_not]
    intro hmem
    simp [inWord, hl _ hmem] at hc
  · have hcode : t.code ≠ 0 := by cases t <;> simp_all [Tok.code]
    simp [rest_of_token hline hs hg hne, hc, hcode]

/-! ## The lexical grammar -/

/-- The bytes spell the tokens: words and `>` are taken as long as they go. -/
inductive Spells : List UInt8 → List Lexeme → Prop
  | nil : Spells [] []
  | blank {c : UInt8} {l : List UInt8} {ts : List Lexeme} : isBlank c = true → Spells l ts → Spells (c :: l) ts
  | symbol {c : UInt8} {t : Tok} {l : List UInt8} {ts : List Lexeme} :
      symbol c = some t → Spells l ts → Spells (c :: l) ((t, [c]) :: ts)
  | greater {l : List UInt8} {ts : List Lexeme} :
      l.head? ≠ some 62 → Spells l ts → Spells (62 :: l) ((.greater, [62]) :: ts)
  | append {l : List UInt8} {ts : List Lexeme} : Spells l ts → Spells (62 :: 62 :: l) ((.append, [62, 62]) :: ts)
  | word {w l : List UInt8} {ts : List Lexeme} : w ≠ [] → (∀ c ∈ w, inWord c = true) →
      (∀ c, l.head? = some c → inWord c = false) → Spells l ts → Spells (w ++ l) ((.word, w) :: ts)

theorem symbol_not_blank (h : symbol c = some t) : isBlank c = false := by
  unfold symbol at h
  split_ifs at h with h₁ h₂ h₃ h₄ h₅ h₆ <;> subst c <;> rfl

theorem inWord_not_blank (h : inWord c = true) : isBlank c = false := by
  unfold isBlank
  simp only [inWord, Bool.and_eq_true, Bool.not_eq_true'] at h
  exact h.1

theorem inWord_not_symbol (h : inWord c = true) : c ∉ symbols := by
  intro hmem
  simp [inWord, hmem] at h

theorem symbol_eq_none_of_inWord (h : inWord c = true) : symbol c = none := by
  cases hsym : symbol c with
  | none => rfl
  | some t =>
    have hmem : c ∈ symbols := by
      unfold symbol at hsym
      split_ifs at hsym with h₁ h₂ h₃ h₄ h₅ h₆ <;> subst c <;> decide
    exact absurd hmem (inWord_not_symbol h)

theorem skip_run {w l : List UInt8} (hw : ∀ c ∈ w, p c = true) (hl : ∀ c, l.head? = some c → p c = false)
    (hdrop : line.drop s = w ++ l) : skip p line (line.length - s) s = s + w.length := by
  induction w generalizing s with
  | nil =>
    cases l with
    | nil =>
      have hlen : line.length ≤ s := by simpa using hdrop
      simp [show line.length - s = 0 by omega, skip]
    | cons c l =>
      obtain ⟨hc, -, -⟩ := char_of_drop hdrop
      exact skip_of_not (hc ▸ hl c rfl)
  | cons c w ih =>
    obtain ⟨hc, hlt, hdrop⟩ := char_of_drop hdrop
    have hnext := skip_next (p := p) (hc ▸ hw c (by simp)) hlt
    rw [hnext, ih (fun c hc => hw c (by simp [hc])) hdrop]
    simp
    omega

/-- The first token, when it starts right here. -/
theorem rest_of_scan (hline : 0 ∉ line) (hs : s ≤ line.length) (hblank : isBlank (char line s) = false)
    (hscan : scan line s = (t, e)) (ht : t ≠ .eof) :
    rest line s = (t, (line.drop s).take (e - s)) :: rest line e := by
  have hskip : skipBlanks line s = s := skipBlanks_of_not hblank
  have hg : gettoken line s = (t, ⟨s, e⟩, skipBlanks line e) := by simp [gettoken, hskip, hscan]
  have hup := (scan_bounds hline hs hscan hblank).2.1
  rw [rest_of_token hline hs hg ht, rest_skipBlanks hline hup]
  rfl

theorem rest_of_blank (hline : 0 ∉ line) (hs : s < line.length) (hblank : isBlank (char line s) = true) :
    rest line s = rest line (s + 1) := by
  have hskip : skipBlanks line s = skipBlanks line (s + 1) := skip_next hblank hs
  rw [← rest_skipBlanks hline (by omega), hskip, rest_skipBlanks hline hs]

theorem rest_of_spells (hline : 0 ∉ line) {l : List UInt8} {ts : List Lexeme} (h : Spells l ts) :
    ∀ s ≤ line.length, line.drop s = l → rest line s = ts := by
  induction h with
  | nil =>
    intro s hs hdrop
    have hlen : line.length ≤ s := by simpa using hdrop
    rw [rest_eq_nil_iff hline hs]
    have := le_skipBlanks line s
    have := skipBlanks_le hs
    omega
  | blank hblank _ ih =>
    intro s hs hdrop
    obtain ⟨rfl, hlt, hdrop⟩ := char_of_drop hdrop
    exact (rest_of_blank hline hlt hblank).trans (ih (s + 1) hlt hdrop)
  | @symbol c t l ts hsym _ ih =>
    intro s hs hdrop
    obtain ⟨hc, hlt, hnext⟩ := char_of_drop hdrop
    have hzero : c ≠ 0 := by
      rintro rfl
      cases hsym
    have hgreater : c ≠ 62 := by
      rintro rfl
      cases hsym
    have hscan : scan line s = (t, s + 1) := by simp [scan, hc, hzero, hgreater, hsym]
    rw [rest_of_scan hline hs (hc ▸ symbol_not_blank hsym) hscan (symbol_ne_eof hsym).1, ih (s + 1) hlt hnext, hdrop]
    simp
  | @greater l ts hhead _ ih =>
    intro s hs hdrop
    obtain ⟨hc, hlt, hnext⟩ := char_of_drop hdrop
    have hsecond : char line (s + 1) ≠ 62 := by
      intro h62
      cases l with
      | nil =>
        have hlen : line.length ≤ s + 1 := by simpa using hnext
        rw [(char_eq_zero_iff hline).2 hlen] at h62
        exact absurd h62 (by decide)
      | cons c l =>
        obtain ⟨rfl, -, -⟩ := char_of_drop hnext
        exact hhead (by simp [h62])
    have hscan : scan line s = (.greater, s + 1) := by simp [scan, hc, hsecond]
    rw [rest_of_scan hline hs (hc ▸ rfl) hscan (by decide), ih (s + 1) hlt hnext, hdrop]
    simp
  | append _ ih =>
    intro s hs hdrop
    obtain ⟨hc, hlt, hnext⟩ := char_of_drop hdrop
    obtain ⟨hc', hlt', hnext'⟩ := char_of_drop hnext
    have hscan : scan line s = (.append, s + 2) := by simp [scan, hc, hc']
    rw [rest_of_scan hline hs (hc ▸ rfl) hscan (by decide), ih (s + 2) hlt' hnext', hdrop]
    simp
  | @word w l ts hne hw hl _ ih =>
    intro s hs hdrop
    have hlen : w.length + l.length = line.length - s := by simpa using (congrArg List.length hdrop).symm
    have hskip := skip_run hw hl hdrop
    obtain ⟨c, w', rfl⟩ := List.exists_cons_of_ne_nil hne
    obtain ⟨hc, hlt, -⟩ := char_of_drop hdrop
    have hcw : inWord c = true := hw c (by simp)
    have hzero : c ≠ 0 := hc ▸ fun h => absurd ((char_eq_zero_iff hline).1 h) (by omega)
    have hgreater : c ≠ 62 := by
      rintro rfl
      cases hcw
    have hscan : scan line s = (.word, s + (c :: w').length) := by
      simp [scan, hc, hzero, hgreater, symbol_eq_none_of_inWord hcw, hskip]
    have hafter : line.drop (s + (c :: w').length) = l := by
      rw [← List.drop_drop, hdrop, List.drop_left]
    rw [rest_of_scan hline hs (hc ▸ inWord_not_blank hcw) hscan (by decide), ih _ (by omega) hafter, hdrop]
    simp

/-- Every line spells its tokens. -/
theorem spells_rest (hline : 0 ∉ line) (hs : s ≤ line.length) : Spells (line.drop s) (rest line s) := by
  obtain ⟨n, hn⟩ : ∃ n, n = line.length - s := ⟨_, rfl⟩
  induction n using Nat.strongRecOn generalizing s with
  | _ n ih =>
    rcases hdrop : line.drop s with _ | ⟨c, l⟩
    · have hlen : line.length ≤ s := by simpa using hdrop
      have hnil : rest line s = [] := by
        simp [rest, show line.length - s = 0 by omega, lexemes]
      rw [hnil]
      exact .nil
    obtain ⟨hc, hlt, hnext⟩ := char_of_drop hdrop
    have hstep : Spells l (rest line (s + 1)) := hnext ▸ ih _ (by omega) hlt rfl
    by_cases hb : isBlank c = true
    · rw [rest_of_blank hline hlt (hc ▸ hb)]
      exact .blank hb hstep
    have hblank : isBlank (char line s) = false := by simpa [hc] using hb
    have hzero : char line s ≠ 0 := fun h => absurd ((char_eq_zero_iff hline).1 h) (by omega)
    by_cases hgreater : c = 62
    · subst hgreater
      by_cases hsecond : char line (s + 1) = 62
      · have hscan : scan line s = (.append, s + 2) := by simp [scan, hc, hsecond]
        have hlt' : s + 1 < line.length := by
          by_contra hge
          rw [(char_eq_zero_iff hline).2 (by omega)] at hsecond
          exact absurd hsecond (by decide)
        obtain ⟨l', rfl⟩ : ∃ l', l = 62 :: l' := by
          have hget : char line (s + 1) = (line)[s + 1] := List.getD_eq_getElem _ _ hlt'
          refine ⟨line.drop (s + 2), ?_⟩
          rw [← hnext, List.drop_eq_getElem_cons hlt', ← hget, hsecond]
        obtain ⟨-, -, hnext'⟩ := char_of_drop hnext
        rw [rest_of_scan hline hs hblank hscan (by decide), hdrop]
        simpa using Spells.append (hnext' ▸ ih _ (by omega) hlt' rfl)
      · have hscan : scan line s = (.greater, s + 1) := by simp [scan, hc, hsecond]
        rw [rest_of_scan hline hs hblank hscan (by decide), hdrop]
        have hhead : l.head? ≠ some 62 := by
          intro hhead
          obtain ⟨l', rfl⟩ := List.head?_eq_some_iff.1 hhead
          exact hsecond (char_of_drop hnext).1
        simpa using Spells.greater hhead hstep
    cases hsym : symbol c with
    | some t =>
      have hscan : scan line s = (t, s + 1) := by simp [scan, hc, hgreater, hsym, hc ▸ hzero]
      rw [rest_of_scan hline hs hblank hscan (symbol_ne_eof hsym).1, hdrop]
      simpa using Spells.symbol hsym hstep
    | none =>
      have hcw : inWord c = true := inWord_of_symbol_none hsym hgreater (hc ▸ hblank)
      obtain ⟨e, he⟩ : ∃ e, e = skip inWord line (line.length - s) s := ⟨_, rfl⟩
      have hscan : scan line s = (.word, e) := by simp [scan, hc, hgreater, hsym, he, hc ▸ hzero]
      obtain ⟨-, hup, -, hgt⟩ := scan_bounds hline hs hscan hblank
      have hse : s < e := hgt (by decide)
      rw [rest_of_scan hline hs hblank hscan (by decide), ← hdrop]
      have hsplit : line.drop s = (line.drop s).take (e - s) ++ line.drop e := by
        conv_lhs => rw [← List.take_append_drop (e - s) (line.drop s)]
        rw [List.drop_drop, Nat.add_sub_cancel' (Nat.le_of_lt hse)]
      conv => arg 1; rw [hsplit]
      refine Spells.word ?_ ?_ ?_ (ih _ (by omega) hup rfl)
      · intro hnil
        have := congrArg List.length hnil
        simp at this
        omega
      · intro x hx
        obtain ⟨i, hi, rfl⟩ := List.mem_iff_getElem.1 hx
        simp only [List.length_take, List.length_drop] at hi
        have hpass : inWord (char line (s + i)) = true := skip_passes (Nat.le_add_right s i) (he ▸ (by omega : s + i < e))
        have hlt' : s + i < line.length := by omega
        have hget : char line (s + i) = (line)[s + i] := List.getD_eq_getElem _ _ hlt'
        simpa [← hget] using hpass
      · intro x hx
        obtain ⟨l', hl'⟩ := List.head?_eq_some_iff.1 hx
        obtain ⟨hcx, hlt', -⟩ := char_of_drop hl'
        rcases skip_end inWord (show line.length ≤ s + (line.length - s) by omega) with hend | hstop
        · omega
        · simpa [← he, hcx] using hstop

end Xv6.Shell
