-- SUMMARY: Runs of the console: kept characters reach the readers once and in order; no reader sleeps while a line waits.
import Xv6Threads.Tty.Lines

/-!
# Readers of the console

The interrupt handler and any number of readers run one after another, in any
order. `Sound` relates what the terminal shows to what readers have taken.
-/

namespace Xv6.Tty

variable {ι : Type} [DecidableEq ι] {s s' : System ι} {echo : List Nat} {l line taken : List UInt8} {dst : Nat → Bool}
  {killed : Bool} {rem i j : Nat} {ed : Editing} {r : Option Int} {e : Event ι} {p : ι} {n : Int32}

/-! ## Echo -/

theorem shown_char (echo : List Nat) (ch : UInt8) : shown (echo ++ [ch.toNat]) = shown echo ++ [ch] := by
  have hne : ch.toNat ≠ backspace := by
    have := ch.toNat_lt
    unfold backspace
    omega
  simp [shown, hne]

theorem shown_backspace (echo : List Nat) : shown (echo ++ [backspace]) = (shown echo).dropLast := by
  simp [shown]

/-- The echo of a killed line takes the line off the terminal. -/
theorem shown_killed (h : shown echo = l ++ line) : shown (echo ++ List.replicate line.length backspace) = l := by
  induction line using List.reverseRecOn generalizing echo with
  | nil => simpa using h
  | append_singleton line ch ih =>
    rw [List.length_append, List.length_singleton, Nat.add_comm, List.replicate_add, ← List.append_assoc]
    apply ih
    rw [List.replicate_one, shown_backspace, h, ← List.append_assoc, List.dropLast_concat]

/-! ## The line editor -/

namespace Editing

theorem shown_key (ed : Editing) (h : shown echo = taken ++ ed.committed ++ ed.line) (ch : UInt8) :
    shown (echo ++ (ed.key ch).2) = taken ++ (ed.key ch).1.committed ++ (ed.key ch).1.line := by
  by_cases hp : ch = 16
  · rw [key, if_pos hp]
    simpa using h
  by_cases hu : ch = 21
  · rw [key, if_neg hp, if_pos hu]
    simpa using shown_killed h
  by_cases hb : ch = 8 ∨ ch = 127
  · rw [key, if_neg hp, if_neg hu, if_pos hb]
    by_cases hline : ed.line = []
    · simpa [hline] using h
    · rw [if_neg hline, shown_backspace, h]
      exact List.dropLast_append_of_ne_nil hline
  by_cases hfull : ch = 0 ∨ inputBufSize ≤ ed.committed.length + ed.line.length
  · rw [key, if_neg hp, if_neg hu, if_neg hb, if_pos hfull]
    simpa using h
  simp only [key, if_neg hp, if_neg hu, if_neg hb, if_neg hfull]
  generalize (if ch = 13 then newline else ch) = x
  split_ifs
  · simp only [shown_char, h, List.append_assoc, List.append_nil]
  · simp only [shown_char, h, List.append_assoc]

/-- A reader takes from the front. -/
theorem read_append (dst : Nat → Bool) (killed : Bool) (rem i : Nat) (l : List UInt8) :
    (read dst killed rem i l).2.2 ++ (read dst killed rem i l).2.1 = l := by
  induction rem generalizing i l with
  | zero => rfl
  | succ rem ih =>
    cases l with
    | nil => rfl
    | cons ch l =>
      rw [read]
      by_cases hd : ch = ctrlD
      · rw [if_pos hd]
        split_ifs <;> rfl
      rw [if_neg hd]
      by_cases hdst : ¬ dst i
      · rw [if_pos hdst]
        rfl
      rw [if_neg hdst]
      by_cases hend : ch = newline
      · rw [if_pos hend]
        rfl
      rw [if_neg hend]
      exact congrArg (ch :: ·) (ih (i + 1) l)

/-- A reader that sleeps has taken all there is. -/
theorem read_sleeps (h : (read dst killed rem i l).1 = .sleeps j) : (read dst killed rem i l).2.1 = [] := by
  induction rem generalizing i l with
  | zero => cases h
  | succ rem ih =>
    cases l with
    | nil => rfl
    | cons ch l =>
      rw [read] at h ⊢
      split_ifs at h ⊢
      exact ih h

end Editing

/-! ## Runs -/

/-- What a call returns with, if it does. -/
def result : Pause → Option Int
  | .returns r => some r
  | .sleeps _ => none

namespace System

structure Sound (s : System ι) : Prop where
  good : s.cons.Good
  echoed : shown s.echo = s.taken ++ s.cons.committed ++ s.cons.line
  asleep : ∀ p c, s.call p = some c → c.awake = false → s.cons.committed = []

theorem Sound.runRead (h : s.Sound) : (s.runRead p n i dst).2.Sound := by
  obtain ⟨stop, c', taken, heq, hgood, hline, hread⟩ :=
    Cons.consoleread_spec h.good dst (s.killed p) (roundsFrom n i) i
  have happend : taken ++ c'.committed = s.cons.committed := by
    have := Editing.read_append dst (s.killed p) (roundsFrom n i) i s.cons.committed
    rwa [hread] at this
  have hechoed : shown s.echo = s.taken ++ taken ++ c'.committed ++ c'.line := by
    rw [h.echoed, hline, ← happend]
    simp
  have hothers : ∀ q c, s.call q = some c → c.awake = false → c'.committed = [] := by
    intro q c hc hawake
    exact (List.append_eq_nil_iff.1 (happend.trans (h.asleep q c hc hawake))).2
  simp only [System.runRead, heq]
  cases stop with
  | returns r =>
    refine ⟨hgood, hechoed, ?_⟩
    intro q c hc hawake
    by_cases hq : q = p
    · subst hq
      simp at hc
    · simp only [Function.update_of_ne hq] at hc
      exact hothers q c hc hawake
  | sleeps j =>
    refine ⟨hgood, hechoed, ?_⟩
    intro q c hc hawake
    by_cases hq : q = p
    · have hempty := Editing.read_sleeps (congrArg Prod.fst hread)
      rwa [hread] at hempty
    · simp only [Function.update_of_ne hq] at hc
      exact hothers q c hc hawake

omit [DecidableEq ι] in
theorem Sound.wakeup (hgood : s.cons.Good) (hechoed : shown s.echo = s.taken ++ s.cons.committed ++ s.cons.line) :
    s.wakeup.Sound := by
  refine ⟨hgood, hechoed, ?_⟩
  intro p c hc hawake
  simp only [System.wakeup, Option.map_eq_some_iff] at hc
  obtain ⟨d, -, rfl⟩ := hc
  cases hawake

/-- A character has been handled, but for the wakeup. -/
def typed (s : System ι) (ch : UInt8) : System ι :=
  { s with cons := (s.cons.consoleintr ch).1, echo := s.echo ++ (s.cons.consoleintr ch).2.1 }

theorem step_key (s : System ι) (ch : UInt8) :
    s.step (.key ch) = some (none, if (s.cons.consoleintr ch).2.2 then (s.typed ch).wakeup else s.typed ch) := rfl

theorem Sound.key (h : s.Sound) (ch : UInt8) (hstep : s.step (.key ch) = some (r, s')) : s'.Sound := by
  obtain ⟨hgood, hkey⟩ := Cons.consoleintr_spec h.good ch
  have hshown := Editing.shown_key s.cons.editing h.echoed ch
  rw [← hkey] at hshown
  rw [step_key] at hstep
  obtain ⟨-, rfl⟩ := Prod.mk.inj (Option.some.inj hstep)
  cases hwakes : (s.cons.consoleintr ch).2.2 with
  | true =>
    rw [if_pos rfl]
    exact Sound.wakeup (s := s.typed ch) hgood hshown
  | false =>
    rw [if_neg Bool.false_ne_true]
    obtain ⟨hr, hw⟩ := Cons.consoleintr_quiet hwakes
    refine ⟨hgood, hshown, ?_⟩
    intro p c hc hawake
    have hempty := Cons.committed_eq_nil.1 (h.asleep p c hc hawake)
    exact Cons.committed_eq_nil.2 (hr.trans (hempty.trans hw.symm))

theorem Sound.step (h : s.Sound) (hstep : s.step e = some (r, s')) : s'.Sound := by
  cases e with
  | key ch => exact h.key ch hstep
  | read p n dst =>
    rw [System.step] at hstep
    split_ifs at hstep
    have hs' : s' = (s.runRead p n 0 dst).2 := by rw [Option.some.inj hstep]
    rw [hs']
    exact h.runRead
  | resume p dst =>
    cases hcall : s.call p with
    | none => simp [System.step, hcall] at hstep
    | some c =>
      rcases c with ⟨n, i, awake⟩
      cases awake with
      | false => simp [System.step, hcall] at hstep
      | true =>
        simp only [System.step, hcall] at hstep
        have hs' : s' = (s.runRead p n i dst).2 := by rw [Option.some.inj hstep]
        rw [hs']
        exact h.runRead
  | kill p =>
    obtain ⟨-, rfl⟩ := Prod.mk.inj (Option.some.inj hstep)
    refine ⟨h.good, h.echoed, ?_⟩
    intro q c hc hawake
    by_cases hq : q = p
    · subst hq
      simp only [Function.update_self, Option.map_eq_some_iff] at hc
      obtain ⟨d, -, rfl⟩ := hc
      cases hawake
    · simp only [Function.update_of_ne hq] at hc
      exact h.asleep q c hc hawake

theorem Sound.init (h : (console ι).init s) : s.Sound := by
  obtain ⟨⟨hr, hw, he⟩, hcall, htaken, hecho⟩ := h
  have hcom : s.cons.committed = [] := Cons.committed_eq_nil.2 (hr.trans hw.symm)
  have hline : s.cons.line = [] := Cons.line_eq_nil.2 (hw.trans he.symm)
  refine ⟨⟨?_, ?_, fun _ => hline, by simp [hline]⟩, ?_, ?_⟩
  · rw [hr, hw, he]
    rfl
  · simp [hcom, hline]
  · simp [hecho, htaken, hcom, hline, shown]
  · exact fun _ _ _ _ => hcom

theorem sound (h : (console ι).Reaches (fun _ _ => True) s) : s.Sound := by
  refine h.invariant (fun _ => Sound.init) ?_
  rintro s e s' hs - ⟨r, hstep⟩
  exact hs.step hstep

end System

/-- Under any interleaving of typing, reads and kills, the terminal shows what
readers have taken, then what waits for them, then the line that is edited:
nothing that was echoed and kept is lost, taken twice or taken out of order. A
character that finds the buffer full is dropped without an echo, and one whose
copy to the reader fails counts as taken. What waits fits the buffer, an ended
line does not stay in the editor, and a reader sleeps only while nothing waits. -/
theorem console_faithful (h : (console ι).Reaches (fun _ _ => True) s) :
    shown s.echo = s.taken ++ s.cons.committed ++ s.cons.line ∧
      s.cons.committed.length + s.cons.line.length ≤ inputBufSize ∧ newline ∉ s.cons.line ∧
      ∀ p c, s.call p = some c → c.awake = false → s.cons.committed = [] := by
  have hsound := System.sound h
  exact ⟨hsound.echoed, hsound.good.fits, hsound.good.newline, hsound.asleep⟩

/-- From every state that is reached, a character does to the console what it does
to the line editor, and `consoleread` takes what the reader of the editor takes,
stops where that one stops, and leaves the edited line alone. -/
theorem console_refines (h : (console ι).Reaches (fun _ _ => True) s) :
    (∀ ch, ∃ s', s.step (.key ch) = some (none, s') ∧ s'.cons.editing = (s.cons.editing.key ch).1 ∧
        s'.echo = s.echo ++ (s.cons.editing.key ch).2 ∧ s'.taken = s.taken) ∧
      ∀ p n i dst, ∃ stop left taken,
        Editing.read dst (s.killed p) (roundsFrom n i) i s.cons.committed = (stop, left, taken) ∧
          (s.runRead p n i dst).1 = result stop ∧ (s.runRead p n i dst).2.cons.editing = ⟨left, s.cons.line⟩ ∧
          (s.runRead p n i dst).2.taken = s.taken ++ taken ∧ (s.runRead p n i dst).2.echo = s.echo := by
  have hgood := (System.sound h).good
  constructor
  · intro ch
    obtain ⟨-, hkey⟩ := Cons.consoleintr_spec hgood ch
    refine ⟨_, System.step_key s ch, ?_⟩
    rw [← hkey]
    split_ifs <;> exact ⟨rfl, rfl, rfl⟩
  · intro p n i dst
    obtain ⟨stop, c', taken, heq, -, hline, hread⟩ :=
      Cons.consoleread_spec hgood dst (s.killed p) (roundsFrom n i) i
    refine ⟨stop, c'.committed, taken, hread, ?_⟩
    have hediting : c'.editing = ⟨c'.committed, s.cons.line⟩ := by rw [Cons.editing, hline]
    simp only [System.runRead, heq]
    cases stop <;> exact ⟨rfl, hediting, rfl, rfl⟩

/-! ## A typed line -/

namespace Typing

/-- The console at boot. -/
def booted : System Unit := ⟨⟨fun _ => 0, 0, 0, 0⟩, fun _ => none, fun _ => false, [], []⟩

/-- The characters `h`, `i`, a delete and the end of the line. -/
def keys : List (Event Unit) := [.key 104, .key 105, .key 127, .key 10]

def full : System Unit := keys.foldl (fun s e => ((s.step e).getD (none, s)).2) booted

theorem reaches_full : (console Unit).Reaches (fun _ _ => True) full := by
  have hbooted : (console Unit).Reaches (fun _ _ => True) booted :=
    .init ⟨⟨rfl, rfl, rfl⟩, fun _ => rfl, rfl, rfl⟩
  have hstep : ∀ (s : System Unit) ch, (console Unit).Reaches (fun _ _ => True) s →
      (console Unit).Reaches (fun _ _ => True) ((s.step (.key ch)).getD (none, s)).2 := by
    intro s ch hs
    refine hs.step (e := .key ch) trivial ⟨none, ?_⟩
    rw [System.step_key]
    rfl
  exact hstep _ _ (hstep _ _ (hstep _ _ (hstep _ _ hbooted)))

/-- `h` and the end of the line wait for readers. -/
theorem console_faithful_full : [104, 10] = full.taken ++ full.cons.committed ++ full.cons.line :=
  (console_faithful reaches_full).1

/-- A reader gets both. -/
theorem console_refines_full :
    (full.runRead () 8 0 fun _ => true).1 = some 2 ∧ (full.runRead () 8 0 fun _ => true).2.taken = [104, 10] := by
  obtain ⟨stop, left, taken, hread, hresult, -, htaken, -⟩ := (console_refines reaches_full).2 () 8 0 fun _ => true
  have hline : Editing.read (fun _ => true) (full.killed ()) (roundsFrom 8 0) 0 full.cons.committed =
      (.returns 2, [], [104, 10]) := by decide
  obtain ⟨rfl, -, rfl⟩ := Prod.mk.inj (hread.symm.trans hline) |>.imp id Prod.mk.inj
  exact ⟨hresult, htaken⟩

end Typing

end Xv6.Tty
