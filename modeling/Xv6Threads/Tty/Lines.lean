-- SUMMARY: The console refines a line editor, and readers get what has been typed, line by line.
import Xv6Threads.Tty.Console

/-!
# The console as a line editor

`Cons.editing` forgets the buffer. Under `Cons.Good`, which every operation
keeps, `consoleintr` and `consoleread` are the operations of `Editing`. What has
been echoed is what readers have taken, what waits for them and what is edited.
-/

namespace Xv6.Tty

variable {c c' : Cons} {ch : UInt8} {dst : Nat → Bool} {killed : Bool} {rem i n : Nat} {l l' taken : List UInt8}
  {stop : Pause}

/-! ## Counters -/

theorem between_pred {x y : UInt32} (h : y ≠ x) :
    Fifo.between (2 ^ 32) x.toNat (y - 1).toNat + 1 = Fifo.between (2 ^ 32) x.toNat y.toNat := by
  rw [PipeData.between_toNat, PipeData.between_toNat]
  have hne : y - x ≠ 0 := by
    intro heq
    apply h
    rw [← UInt32.sub_add_cancel y x, heq, UInt32.zero_add]
  have hpos : 1 ≤ (y - x).toNat := by
    rcases Nat.eq_zero_or_pos (y - x).toNat with hz | hp
    · exact absurd (UInt32.toNat_inj.1 hz) hne
    · exact hp
  have hcomm : y - 1 - x = y - x - 1 := by
    simp only [UInt32.sub_eq_add_neg]
    rw [UInt32.add_assoc, UInt32.add_comm (-1), ← UInt32.add_assoc]
  have hle : (1 : UInt32) ≤ y - x := UInt32.le_iff_toNat_le.2 hpos
  rw [hcomm, UInt32.toNat_sub_of_le _ _ hle]
  have : (1 : UInt32).toNat = 1 := rfl
  omega

theorem pred_succ (x : UInt32) : x - 1 + 1 = x := UInt32.sub_add_cancel x 1

namespace Cons

/-- What has been committed and not yet read. -/
def committed (c : Cons) : List UInt8 := Fifo.contents inputBufSize (2 ^ 32) c.buf c.r.toNat c.w.toNat

/-- What is still edited. -/
def line (c : Cons) : List UInt8 := Fifo.contents inputBufSize (2 ^ 32) c.buf c.w.toNat c.e.toNat

def editing (c : Cons) : Editing := ⟨c.committed, c.line⟩

/-- The counters are in order, the buffer is not overrun, a full buffer has been
committed, and the line that is edited has no end. -/
structure Good (c : Cons) : Prop where
  way : Fifo.between (2 ^ 32) c.r.toNat c.w.toNat + Fifo.between (2 ^ 32) c.w.toNat c.e.toNat =
    Fifo.between (2 ^ 32) c.r.toNat c.e.toNat
  fits : c.committed.length + c.line.length ≤ inputBufSize
  full : c.committed.length + c.line.length = inputBufSize → c.line = []
  newline : newline ∉ c.line

theorem length_committed : c.committed.length = Fifo.between (2 ^ 32) c.r.toNat c.w.toNat := Fifo.contents_length

theorem length_line : c.line.length = Fifo.between (2 ^ 32) c.w.toNat c.e.toNat := Fifo.contents_length

theorem committed_eq_nil : c.committed = [] ↔ c.r = c.w := by
  rw [committed, Fifo.contents_eq_nil (PipeData.toNat_lt _) (PipeData.toNat_lt _), UInt32.toNat_inj]

theorem line_eq_nil : c.line = [] ↔ c.w = c.e := by
  rw [line, Fifo.contents_eq_nil (PipeData.toNat_lt _) (PipeData.toNat_lt _), UInt32.toNat_inj]

/-- Both parts together. -/
theorem Good.split (h : c.Good) :
    Fifo.contents inputBufSize (2 ^ 32) c.buf c.r.toNat c.e.toNat = c.committed ++ c.line :=
  Fifo.contents_split (by decide) (PipeData.toNat_lt _) (PipeData.toNat_lt _) h.way

theorem Good.length (h : c.Good) : Fifo.between (2 ^ 32) c.r.toNat c.e.toNat = c.committed.length + c.line.length := by
  rw [length_committed, length_line, h.way]

/-! ## Editing -/

/-- `cons.e--`. -/
def erase (c : Cons) : Cons := { c with e := c.e - 1 }

theorem line_erase (h : c.Good) (hne : c.e ≠ c.w) : c.line = c.erase.line ++ [c.cell (c.e - 1)] := by
  have hpred := between_pred hne
  have hroom : Fifo.between (2 ^ 32) c.w.toNat (c.e - 1).toNat < inputBufSize := by
    have hfits := h.fits
    rw [length_line] at hfits
    omega
  have hextend : Fifo.contents inputBufSize (2 ^ 32) c.buf c.w.toNat (((c.e - 1).toNat + 1) % 2 ^ 32) = _ :=
    Fifo.contents_extend (by decide) (by decide) (PipeData.toNat_lt _) (PipeData.toNat_lt _) hroom
  rw [← PipeData.succ_toNat, pred_succ] at hextend
  exact hextend

theorem good_erase (h : c.Good) (hne : c.e ≠ c.w) : c.erase.Good ∧ c.erase.line = c.line.dropLast := by
  have hline := line_erase h hne
  have hlen : c.line.length = c.erase.line.length + 1 := by rw [hline]; simp
  have hner : c.e ≠ c.r := by
    intro heq
    have hz : Fifo.between (2 ^ 32) c.r.toNat c.e.toNat = 0 :=
      (Fifo.between_eq_zero (PipeData.toNat_lt _) (PipeData.toNat_lt _)).2 (by rw [heq])
    rw [h.length] at hz
    omega
  refine ⟨⟨?_, ?_, ?_, ?_⟩, ?_⟩
  · have hw := between_pred hne
    have hr := between_pred hner
    have hway := h.way
    simp only [erase]
    omega
  · have hfits := h.fits
    have hcom : c.erase.committed = c.committed := rfl
    rw [hcom]
    omega
  · have hfits := h.fits
    have hcom : c.erase.committed = c.committed := rfl
    rw [hcom]
    omega
  · intro hmem
    exact h.newline (hline ▸ List.mem_append_left _ hmem)
  · rw [hline, List.dropLast_concat]

theorem killLine_spec (h : c.Good) (hn : n = c.line.length) :
    (c.killLine n).1.Good ∧ (c.killLine n).1.editing = ⟨c.committed, []⟩ ∧
      (c.killLine n).2 = List.replicate n backspace := by
  induction n generalizing c with
  | zero =>
    have hnil : c.line = [] := List.length_eq_zero_iff.1 hn.symm
    exact ⟨h, by simp [killLine, editing, hnil], rfl⟩
  | succ n ih =>
    have hne : c.e ≠ c.w := by
      intro heq
      have hnil := line_eq_nil.2 heq.symm
      simp [hnil] at hn
    have hline := line_erase h hne
    have hcell : c.cell (c.e - 1) ≠ Tty.newline := by
      intro heq
      apply h.newline
      rw [hline, heq]
      simp
    obtain ⟨hgood, hdrop⟩ := good_erase h hne
    have hlen : n = c.erase.line.length := by
      rw [hdrop, List.length_dropLast, ← hn]
      rfl
    obtain ⟨hgood', hedit, hecho⟩ := ih hgood hlen
    have hstep : c.killLine (n + 1) = ((c.erase.killLine n).1, backspace :: (c.erase.killLine n).2) := by
      rw [killLine, if_pos ⟨hne, hcell⟩]
      rfl
    rw [hstep]
    exact ⟨hgood', hedit, by rw [hecho, List.replicate_succ]⟩

/-- A character is stored. -/
def store (c : Cons) (ch : UInt8) : Cons :=
  { c with buf := Function.update c.buf (c.e.toNat % inputBufSize) ch, e := c.e + 1 }

theorem store_spec (h : c.Good) (hroom : c.committed.length + c.line.length < inputBufSize) (ch : UInt8) :
    (c.store ch).committed = c.committed ∧ (c.store ch).line = c.line ++ [ch] ∧
      Fifo.between (2 ^ 32) c.r.toNat c.w.toNat + Fifo.between (2 ^ 32) c.w.toNat (c.store ch).e.toNat =
        Fifo.between (2 ^ 32) c.r.toNat (c.store ch).e.toNat := by
  have hlen := h.length
  have hpushr : Fifo.between (2 ^ 32) c.r.toNat (c.store ch).e.toNat = Fifo.between (2 ^ 32) c.r.toNat c.e.toNat + 1 := by
    simp only [store, PipeData.succ_toNat]
    apply Fifo.between_push (PipeData.toNat_lt _) (PipeData.toNat_lt _)
    unfold inputBufSize at hroom
    omega
  have hpushw : Fifo.between (2 ^ 32) c.w.toNat (c.store ch).e.toNat = Fifo.between (2 ^ 32) c.w.toNat c.e.toNat + 1 := by
    simp only [store, PipeData.succ_toNat]
    apply Fifo.between_push (PipeData.toNat_lt _) (PipeData.toNat_lt _)
    have := h.way
    unfold inputBufSize at hroom
    omega
  have hway : Fifo.between (2 ^ 32) c.r.toNat c.w.toNat + Fifo.between (2 ^ 32) c.w.toNat (c.store ch).e.toNat =
      Fifo.between (2 ^ 32) c.r.toNat (c.store ch).e.toNat := by
    rw [hpushr, hpushw, ← h.way, Nat.add_assoc]
  have hall : Fifo.contents inputBufSize (2 ^ 32) (c.store ch).buf c.r.toNat (c.store ch).e.toNat =
      (c.committed ++ c.line) ++ [ch] := by
    rw [← h.split]
    simp only [store, PipeData.succ_toNat]
    exact Fifo.contents_push (by decide) (by decide) (PipeData.toNat_lt _) (PipeData.toNat_lt _) (by rw [hlen]; exact hroom) ch
  have hsplit : Fifo.contents inputBufSize (2 ^ 32) (c.store ch).buf c.r.toNat (c.store ch).e.toNat =
      (c.store ch).committed ++ (c.store ch).line :=
    Fifo.contents_split (by decide) (PipeData.toNat_lt _) (PipeData.toNat_lt _) hway
  have hcom : (c.store ch).committed.length = c.committed.length := by
    rw [length_committed, length_committed]
    rfl
  rw [hsplit, List.append_assoc] at hall
  obtain ⟨hc, hl⟩ := List.append_inj hall hcom
  exact ⟨hc, hl, hway⟩

theorem toNat_size : (UInt32.ofNat inputBufSize).toNat = inputBufSize := rfl

theorem room_iff (h : c.Good) : c.e - c.r < UInt32.ofNat inputBufSize ↔ c.committed.length + c.line.length < inputBufSize := by
  rw [← h.length, PipeData.between_toNat, UInt32.lt_iff_toNat_lt, toNat_size]

theorem store_full (h : c.Good) (hroom : c.committed.length + c.line.length < inputBufSize) (ch : UInt8) :
    (c.store ch).e - (c.store ch).r = UInt32.ofNat inputBufSize ↔ c.committed.length + (c.line ++ [ch]).length = inputBufSize := by
  obtain ⟨hcom, hline, hway⟩ := store_spec h hroom ch
  have hlen : ((c.store ch).e - (c.store ch).r).toNat = c.committed.length + (c.line ++ [ch]).length := by
    rw [← PipeData.between_toNat, ← hline, length_line, length_committed]
    exact hway.symm
  rw [← hlen, ← UInt32.toNat_inj, toNat_size]

/-- `cons.w = cons.e`. -/
def commit (c : Cons) : Cons := { c with w := c.e }

theorem commit_spec (hway : Fifo.between (2 ^ 32) c.r.toNat c.w.toNat + Fifo.between (2 ^ 32) c.w.toNat c.e.toNat =
      Fifo.between (2 ^ 32) c.r.toNat c.e.toNat) (hfits : c.committed.length + c.line.length ≤ inputBufSize) :
    c.commit.Good ∧ c.commit.editing = ⟨c.committed ++ c.line, []⟩ := by
  have hr : c.commit.r = c.r := rfl
  have hw : c.commit.w = c.e := rfl
  have he : c.commit.e = c.e := rfl
  have hcom : c.commit.committed = c.committed ++ c.line := by
    rw [committed, hr, hw]
    exact Fifo.contents_split (by decide) (PipeData.toNat_lt _) (PipeData.toNat_lt _) hway
  have hline : c.commit.line = [] := line_eq_nil.2 (hw.trans he.symm)
  have hzero : Fifo.between (2 ^ 32) c.e.toNat c.e.toNat = 0 :=
    (Fifo.between_eq_zero (PipeData.toNat_lt _) (PipeData.toNat_lt _)).2 rfl
  refine ⟨⟨?_, ?_, fun _ => hline, by simp [hline]⟩, by rw [editing, hcom, hline]⟩
  · rw [hr, hw, he, hzero, Nat.add_zero]
  · rw [hcom, hline, List.length_append, List.length_nil, Nat.add_zero]
    exact hfits

/-- A character that is stored, and committed if it ends the line or fills the buffer. -/
theorem store_commit (h : c.Good) (hroom : c.committed.length + c.line.length < inputBufSize) (ch : UInt8) :
    (if ch = Tty.newline ∨ ch = ctrlD ∨ (c.store ch).e - (c.store ch).r = UInt32.ofNat inputBufSize then
        (c.store ch).commit.Good ∧ (c.store ch).commit.editing = ⟨c.committed ++ (c.line ++ [ch]), []⟩
      else (c.store ch).Good ∧ (c.store ch).editing = ⟨c.committed, c.line ++ [ch]⟩) := by
  obtain ⟨hcom, hline, hway⟩ := store_spec h hroom ch
  have hfull := store_full h hroom ch
  have hlen : (c.line ++ [ch]).length = c.line.length + 1 := by simp
  split_ifs with hend
  · have hcommit := commit_spec (c := c.store ch) hway (by rw [hcom, hline]; omega)
    rwa [hcom, hline] at hcommit
  · obtain ⟨hne, -, hnot⟩ : ch ≠ Tty.newline ∧ ch ≠ ctrlD ∧ ¬ _ := ⟨fun h => hend (.inl h), fun h => hend (.inr (.inl h)),
      fun h => hend (.inr (.inr h))⟩
    refine ⟨⟨hway, ?_, ?_, ?_⟩, by rw [editing, hcom, hline]⟩
    · rw [hcom, hline]
      omega
    · rw [hcom, hline]
      exact fun heq => absurd (hfull.2 heq) hnot
    · rw [hline]
      simpa [hne.symm] using h.newline

/-- `consoleintr` is a step of the line editor. -/
theorem consoleintr_spec (h : c.Good) (ch : UInt8) :
    (c.consoleintr ch).1.Good ∧ ((c.consoleintr ch).1.editing, (c.consoleintr ch).2.1) = c.editing.key ch := by
  by_cases hp : ch = 16
  · rw [consoleintr, Editing.key, if_pos hp, if_pos hp]
    exact ⟨h, rfl⟩
  by_cases hu : ch = 21
  · have hn : (c.e - c.w).toNat = c.line.length := by rw [length_line, PipeData.between_toNat]
    obtain ⟨hgood, hedit, hecho⟩ := killLine_spec h hn
    simp only [consoleintr, Editing.key, if_neg hp, if_pos hu]
    exact ⟨hgood, Prod.ext hedit (by rw [hecho, hn]; rfl)⟩
  by_cases hb : ch = 8 ∨ ch = 127
  · simp only [consoleintr, Editing.key, if_neg hp, if_neg hu, if_pos hb]
    by_cases hne : c.e ≠ c.w
    · obtain ⟨hgood, hline⟩ := good_erase h hne
      have hnil : c.editing.line ≠ [] := fun heq => hne (line_eq_nil.1 heq).symm
      rw [if_pos hne, if_neg hnil]
      have hedit : c.erase.editing = ⟨c.committed, c.line.dropLast⟩ := by
        rw [editing, hline]
        rfl
      exact ⟨hgood, Prod.ext hedit rfl⟩
    · have hnil : c.line = [] := line_eq_nil.2 (Decidable.not_not.1 hne).symm
      rw [if_neg hne]
      exact ⟨h, by simp [editing, hnil]⟩
  by_cases hroom : ch = 0 ∨ inputBufSize ≤ c.committed.length + c.line.length
  · have hfull : ¬(ch ≠ 0 ∧ c.e - c.r < UInt32.ofNat inputBufSize) := by
      rw [room_iff h]
      rintro ⟨hne, hlt⟩
      rcases hroom with rfl | hle
      · exact hne rfl
      · omega
    have hkey : c.editing.key ch = (c.editing, []) := by
      rw [Editing.key, if_neg hp, if_neg hu, if_neg hb]
      exact if_pos hroom
    rw [hkey, consoleintr, if_neg hp, if_neg hu, if_neg hb, if_neg hfull]
    exact ⟨h, rfl⟩
  · obtain ⟨hne, hlt⟩ := not_or.1 hroom
    have hlt : c.committed.length + c.line.length < inputBufSize := Nat.lt_of_not_le hlt
    have hcommit := store_commit h hlt (if ch = 13 then Tty.newline else ch)
    have hfull := store_full h hlt (if ch = 13 then Tty.newline else ch)
    have hkey : c.editing.key ch = if (if ch = 13 then Tty.newline else ch) = Tty.newline ∨
          (if ch = 13 then Tty.newline else ch) = ctrlD ∨
          c.committed.length + (c.line ++ [if ch = 13 then Tty.newline else ch]).length = inputBufSize then
        (⟨c.committed ++ (c.line ++ [if ch = 13 then Tty.newline else ch]), []⟩, [(if ch = 13 then Tty.newline else ch).toNat])
      else (⟨c.committed, c.line ++ [if ch = 13 then Tty.newline else ch]⟩, [(if ch = 13 then Tty.newline else ch).toNat]) := by
      rw [Editing.key, if_neg hp, if_neg hu, if_neg hb]
      exact if_neg hroom
    rw [hkey, consoleintr, if_neg hp, if_neg hu, if_neg hb, if_pos ⟨hne, (room_iff h).2 hlt⟩]
    generalize (if ch = 13 then Tty.newline else ch) = x at hcommit hfull ⊢
    by_cases hend : x = Tty.newline ∨ x = ctrlD ∨ (c.store x).e - (c.store x).r = UInt32.ofNat inputBufSize
    · have hend' : x = Tty.newline ∨ x = ctrlD ∨ c.committed.length + (c.line ++ [x]).length = inputBufSize := by
        rwa [hfull] at hend
      rw [if_pos hend] at hcommit
      rw [if_pos hend']
      rw [if_pos (show x = Tty.newline ∨ x = ctrlD ∨ c.e + 1 - c.r = UInt32.ofNat inputBufSize from hend)]
      exact ⟨hcommit.1, Prod.ext hcommit.2 rfl⟩
    · have hend' : ¬(x = Tty.newline ∨ x = ctrlD ∨ c.committed.length + (c.line ++ [x]).length = inputBufSize) := by
        rwa [hfull] at hend
      rw [if_neg hend] at hcommit
      rw [if_neg hend']
      rw [if_neg (show ¬(x = Tty.newline ∨ x = ctrlD ∨ c.e + 1 - c.r = UInt32.ofNat inputBufSize) from hend)]
      exact ⟨hcommit.1, Prod.ext hcommit.2 rfl⟩

/-! ## Reading -/

/-- `cons.r++`. -/
def take (c : Cons) : Cons := { c with r := c.r + 1 }

theorem take_spec (h : c.Good) (hne : c.r ≠ c.w) : c.take.Good ∧ c.committed = c.cell c.r :: c.take.committed := by
  have hr : c.take.r = c.r + 1 := rfl
  have hw : c.take.w = c.w := rfl
  have he : c.take.e = c.e := rfl
  have hline : c.take.line = c.line := rfl
  have hnat : c.r.toNat ≠ c.w.toNat := fun heq => hne (UInt32.toNat_inj.1 heq)
  have hcom : c.committed = c.cell c.r :: c.take.committed := by
    rw [committed, committed, hr, hw, PipeData.succ_toNat]
    exact Fifo.contents_pop (by decide) (PipeData.toNat_lt _) (PipeData.toNat_lt _) hnat
  have hlen : c.committed.length = c.take.committed.length + 1 := by rw [hcom, List.length_cons]
  have hner : c.r.toNat ≠ c.e.toNat := by
    intro heq
    have hz := (Fifo.between_eq_zero (PipeData.toNat_lt c.r) (PipeData.toNat_lt c.e)).2 heq
    rw [h.length] at hz
    omega
  have hpopw := Fifo.between_pop (PipeData.toNat_lt c.r) (PipeData.toNat_lt c.w) hnat
  have hpope := Fifo.between_pop (PipeData.toNat_lt c.r) (PipeData.toNat_lt c.e) hner
  have hway := h.way
  have hfits := h.fits
  refine ⟨⟨?_, ?_, ?_, h.newline⟩, hcom⟩
  · rw [hr, hw, he, PipeData.succ_toNat]
    omega
  · rw [hline]
    omega
  · rw [hline]
    omega

/-- A round of the loop that finds a character. -/
theorem consoleread_succ (hne : c.r ≠ c.w) :
    consoleread dst killed (rem + 1) i c =
      if c.cell c.r = ctrlD then if 0 < i then (.returns i, c, []) else (.returns i, c.take, [c.cell c.r])
      else if ¬ dst i then (.returns i, c.take, [c.cell c.r])
      else if c.cell c.r = Tty.newline then (.returns (i + 1), c.take, [c.cell c.r])
      else ((consoleread dst killed rem (i + 1) c.take).1, (consoleread dst killed rem (i + 1) c.take).2.1,
        c.cell c.r :: (consoleread dst killed rem (i + 1) c.take).2.2) := by
  have hback : ({ c.take with r := c.take.r - 1 } : Cons) = c := by
    rw [show c.take.r - 1 = c.r from UInt32.add_sub_cancel c.r 1]
    rfl
  have hround : consoleread dst killed (rem + 1) i c =
      if c.cell c.r = ctrlD then
        if 0 < i then (.returns i, { c.take with r := c.take.r - 1 }, []) else (.returns i, c.take, [c.cell c.r])
      else if ¬ dst i then (.returns i, c.take, [c.cell c.r])
      else if c.cell c.r = Tty.newline then (.returns (i + 1), c.take, [c.cell c.r])
      else ((consoleread dst killed rem (i + 1) c.take).1, (consoleread dst killed rem (i + 1) c.take).2.1,
        c.cell c.r :: (consoleread dst killed rem (i + 1) c.take).2.2) := by
    rw [consoleread, if_neg hne]
    rfl
  rw [hround, hback]

/-- `consoleread` takes from what is committed, and leaves the line alone. -/
theorem consoleread_spec (h : c.Good) (dst : Nat → Bool) (killed : Bool) (rem i : Nat) :
    ∃ stop c' taken, consoleread dst killed rem i c = (stop, c', taken) ∧ c'.Good ∧ c'.line = c.line ∧
      Editing.read dst killed rem i c.committed = (stop, c'.committed, taken) := by
  induction rem generalizing i c with
  | zero => exact ⟨_, _, _, rfl, h, rfl, rfl⟩
  | succ rem ih =>
    by_cases hr : c.r = c.w
    · have hnil : c.committed = [] := committed_eq_nil.2 hr
      rw [consoleread, if_pos hr, hnil, Editing.read]
      cases killed with
      | false => exact ⟨_, c, _, rfl, h, rfl, by rw [hnil]; rfl⟩
      | true => exact ⟨_, c, _, rfl, h, rfl, by rw [hnil]; rfl⟩
    · obtain ⟨hgood, hcom⟩ := take_spec h hr
      have hline : c.take.line = c.line := rfl
      rw [consoleread_succ hr, hcom, Editing.read]
      by_cases hd : c.cell c.r = ctrlD
      · rw [if_pos hd, if_pos hd]
        by_cases hi : 0 < i
        · rw [if_pos hi, if_pos hi]
          exact ⟨_, c, _, rfl, h, rfl, by rw [hcom]⟩
        · rw [if_neg hi, if_neg hi]
          exact ⟨_, c.take, _, rfl, hgood, hline, rfl⟩
      rw [if_neg hd, if_neg hd]
      by_cases hdst : ¬ dst i
      · rw [if_pos hdst, if_pos hdst]
        exact ⟨_, c.take, _, rfl, hgood, hline, rfl⟩
      rw [if_neg hdst, if_neg hdst]
      by_cases hend : c.cell c.r = Tty.newline
      · rw [if_pos hend, if_pos hend]
        exact ⟨_, c.take, _, rfl, hgood, hline, rfl⟩
      rw [if_neg hend, if_neg hend]
      obtain ⟨stop, c', taken, heq, hgood', hline', hread⟩ := ih hgood (i + 1)
      rw [heq, hread]
      exact ⟨stop, c', _, rfl, hgood', hline'.trans hline, rfl⟩

/-! ## Wakeups -/

theorem killLine_counters : (c.killLine n).1.r = c.r ∧ (c.killLine n).1.w = c.w := by
  induction n generalizing c with
  | zero => exact ⟨rfl, rfl⟩
  | succ n ih =>
    rw [killLine]
    split_ifs with hne
    · exact ih (c := c.erase)
    · exact ⟨rfl, rfl⟩

/-- A character that wakes no reader commits nothing. -/
theorem consoleintr_quiet (h : (c.consoleintr ch).2.2 = false) :
    (c.consoleintr ch).1.r = c.r ∧ (c.consoleintr ch).1.w = c.w := by
  by_cases hp : ch = 16
  · rw [consoleintr, if_pos hp]
    exact ⟨rfl, rfl⟩
  by_cases hu : ch = 21
  · simp only [consoleintr, if_neg hp, if_pos hu]
    exact killLine_counters
  by_cases hb : ch = 8 ∨ ch = 127
  · simp only [consoleintr, if_neg hp, if_neg hu, if_pos hb]
    split_ifs <;> exact ⟨rfl, rfl⟩
  simp only [consoleintr, if_neg hp, if_neg hu, if_neg hb] at h ⊢
  split_ifs at h ⊢ <;> exact ⟨rfl, rfl⟩

end Cons

end Xv6.Tty
