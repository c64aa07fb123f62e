-- SUMMARY: Coherence of the buffer cache over every disciplined run.
import Xv6Threads.Fs.Bcache

/-!
# Coherence of the buffer cache

The number of references of a buffer is the number of processes inside a call
with it, plus one for its lock and one for the pin of the log. What holds of
the data follows from this: a buffer with data that are not on the disk is
locked or pinned, so it is not recycled.
-/

namespace Xv6

/-! ## References -/

namespace Bio

variable {ι : Type} [Fintype ι] [DecidableEq ι] {a : LogArea} {s s' : Bio ι} {η η' : BioNotes} {b : BufId} {p : ι}

/-- How many processes are inside a call with this buffer. -/
def inside (s : Bio ι) (b : BufId) : Nat := Weight.tally (fun p => (s.calls p).map BufCall.buf) b

/-- Inside a call, the lock, and the pin of the log: these are the references. -/
def references (s : Bio ι) (η : BioNotes) (b : BufId) : Nat :=
  s.inside b + (if (s.buf b).lock = none then 0 else 1) + (if η.pinned b then 1 else 0)

/-- The state of the cache, whatever the devices are. -/
structure Kept (a : LogArea) (s : Bio ι) (η : BioNotes) : Prop where
  listed : s.cache.Listed
  refs : ∀ b, (s.buf b).refcnt = s.references η b
  unique : ∀ b b', (s.buf b).dev ≠ 0 → (s.buf b).dev = (s.buf b').dev → (s.buf b).blockno = (s.buf b').blockno → b = b'
  used : ∀ b, 0 < (s.buf b).refcnt → (s.buf b).dev ≠ 0
  asked : ∀ p dev n b, s.calls p = some (.bread dev n b) → (s.buf b).dev = dev ∧ (s.buf b).blockno = n
  fits : s.lh.Fits a
  named : ∀ b, η.pinned b → s.lh.Names (s.buf b).blockno

theorem inside_setCall (s : Bio ι) (p : ι) (o : Option BufCall) (b : BufId) :
    (s.setCall p o).inside b + Weight.ofOption (Weight.single b) ((s.calls p).map BufCall.buf) =
      s.inside b + Weight.ofOption (Weight.single b) (o.map BufCall.buf) := by
  have hcalls : (fun q => ((s.setCall p o).calls q).map BufCall.buf) =
      Function.update (fun q => (s.calls q).map BufCall.buf) p (o.map BufCall.buf) := by
    funext q
    by_cases hq : q = p
    · subst hq
      simp [setCall]
    · simp [setCall, hq]
  rw [inside, hcalls]
  exact Weight.tally_update _ p _ b

omit [DecidableEq ι] in
/-- A process inside a call has a reference. -/
theorem Kept.inside_pos {c : BufCall} (h : s.Kept a η) (hp : s.calls p = some c) : 0 < (s.buf c.buf).refcnt := by
  have hin : 0 < s.inside c.buf := Weight.tally_pos (i := p) (by simp [hp])
  rw [h.refs, references]
  omega

omit [DecidableEq ι] in
/-- A buffer without references is not locked, not pinned, and nobody waits for it. -/
theorem Kept.free (h : s.Kept a η) (hb : (s.buf b).refcnt = 0) :
    s.inside b = 0 ∧ (s.buf b).lock = none ∧ η.pinned b = false := by
  have hrefs := h.refs b
  rw [hb, references] at hrefs
  refine ⟨by omega, ?_, ?_⟩
  · by_contra hlock
    rw [if_neg hlock] at hrefs
    omega
  · by_contra hpin
    have hpin : η.pinned b = true := by simpa using hpin
    rw [if_pos hpin] at hrefs
    omega

omit [DecidableEq ι] in
/-- A step that touches one buffer. -/
theorem Kept.change (h : s.Kept a η) (b : BufId) (hlisted : s'.cache.Listed)
    (hbuf : ∀ b', b' ≠ b → s'.buf b' = s.buf b')
    (hrest : ∀ b', b' ≠ b → s'.references η' b' = s.references η b')
    (hrefs : (s'.buf b).refcnt = s'.references η' b)
    (hunique : ∀ b', b' ≠ b → (s'.buf b).dev ≠ 0 → (s'.buf b).dev = (s.buf b').dev →
      (s'.buf b).blockno ≠ (s.buf b').blockno)
    (hused : 0 < (s'.buf b).refcnt → (s'.buf b).dev ≠ 0)
    (hasked : ∀ p dev n b', s'.calls p = some (.bread dev n b') →
      (s'.buf b').dev = dev ∧ (s'.buf b').blockno = n)
    (hfits : s'.lh.Fits a) (hnamed : ∀ b, η'.pinned b → s'.lh.Names (s'.buf b).blockno) : s'.Kept a η' := by
  refine ⟨hlisted, fun b' => ?_, fun b₁ b₂ hdev heq hn => ?_, fun b' hpos => ?_, hasked, hfits, hnamed⟩
  · by_cases hb : b' = b
    · rw [hb, hrefs]
    · rw [hbuf b' hb, hrest b' hb, h.refs b']
  · by_cases hb₁ : b₁ = b
    · by_cases hb₂ : b₂ = b
      · rw [hb₁, hb₂]
      · subst hb₁
        rw [hbuf b₂ hb₂] at heq hn
        exact absurd hn (hunique b₂ hb₂ hdev heq)
    · rw [hbuf b₁ hb₁] at hdev heq hn
      by_cases hb₂ : b₂ = b
      · subst hb₂
        exact absurd hn.symm (hunique b₁ hb₁ (heq ▸ hdev) heq.symm)
      · rw [hbuf b₂ hb₂] at heq hn
        exact h.unique b₁ b₂ hdev heq hn
  · by_cases hb : b' = b
    · rw [hb] at hpos ⊢
      exact hused hpos
    · rw [hbuf b' hb] at hpos ⊢
      exact h.used b' hpos

omit [DecidableEq ι] in
/-- A step that keeps the block of every buffer, and the list. -/
theorem Kept.adjust (h : s.Kept a η) (b : BufId) (hlisted : s'.cache.Listed)
    (hbuf : ∀ b', b' ≠ b → s'.buf b' = s.buf b')
    (htag : (s'.buf b).dev = (s.buf b).dev ∧ (s'.buf b).blockno = (s.buf b).blockno)
    (hrest : ∀ b', b' ≠ b → s'.references η' b' = s.references η b')
    (hrefs : (s'.buf b).refcnt = s'.references η' b)
    (hused : 0 < (s'.buf b).refcnt → 0 < (s.buf b).refcnt ∨ (s.buf b).dev ≠ 0)
    (hasked : ∀ p dev n b', s'.calls p = some (.bread dev n b') →
      (s.buf b').dev = dev ∧ (s.buf b').blockno = n)
    (hfits : s'.lh.Fits a) (hnamed : ∀ b, η'.pinned b → s'.lh.Names (s.buf b).blockno) : s'.Kept a η' := by
  have htags : ∀ b', (s'.buf b').dev = (s.buf b').dev ∧ (s'.buf b').blockno = (s.buf b').blockno := by
    intro b'
    by_cases hb : b' = b
    · rwa [hb]
    · simp [hbuf b' hb]
  refine h.change b hlisted hbuf hrest hrefs ?_ ?_ ?_ hfits ?_
  · intro b' hb hdev heq hn
    rw [htag.1] at hdev heq
    rw [htag.2] at hn
    exact hb (h.unique b b' hdev heq hn).symm
  · intro hpos
    rw [htag.1]
    exact (hused hpos).elim (h.used b) id
  · intro p dev n b' hp
    rw [(htags b').1, (htags b').2]
    exact hasked p dev n b' hp
  · intro b' hpin
    rw [(htags b').2]
    exact hnamed b' hpin

omit [Fintype ι] [DecidableEq ι] in
@[simp] theorem setBuf_self (s : Bio ι) (b : BufId) (x : Buf ι) : (s.setBuf b x).buf b = x :=
  Function.update_self ..

omit [Fintype ι] [DecidableEq ι] in
theorem setBuf_ne (s : Bio ι) {b b' : BufId} (x : Buf ι) (h : b' ≠ b) : (s.setBuf b x).buf b' = s.buf b' :=
  Function.update_of_ne h _ _

omit [Fintype ι] in
@[simp] theorem setCall_buf (s : Bio ι) (p : ι) (o : Option BufCall) (b : BufId) : (s.setCall p o).buf b = s.buf b := rfl

omit [Fintype ι] [DecidableEq ι] in
theorem unreference_buf (s : Bio ι) (b b' : BufId) :
    ({ s with cache := s.cache.unreference b } : Bio ι).buf b' =
      (s.setBuf b { s.buf b with refcnt := (s.buf b).refcnt - 1 }).buf b' := by
  simp only [Bio.buf, Bcache.unreference]
  split <;> rfl

theorem inside_setCall_ne {o : Option BufCall} {b b' : BufId} (hb : b' ≠ b)
    (ho : ∀ c ∈ o, BufCall.buf c = b) (hp : ∀ c ∈ s.calls p, BufCall.buf c = b) :
    (s.setCall p o).inside b' = s.inside b' := by
  have hzero : ∀ o : Option BufCall, (∀ c ∈ o, BufCall.buf c = b) →
      Weight.ofOption (Weight.single b') (o.map BufCall.buf) = 0 := by
    intro o ho
    cases o with
    | none => rfl
    | some c =>
      have hc := ho c rfl
      exact Weight.single_ne (by rw [hc]; exact Ne.symm hb)
  have h := inside_setCall s p o b'
  rw [hzero o ho, hzero _ hp] at h
  simpa using h

theorem inside_enter {c : BufCall} (hp : s.calls p = none) :
    (s.setCall p (some c)).inside c.buf = s.inside c.buf + 1 := by
  have h := inside_setCall s p (some c) c.buf
  simpa [hp] using h

theorem inside_leave {c : BufCall} (hp : s.calls p = some c) :
    (s.setCall p none).inside c.buf + 1 = s.inside c.buf := by
  have h := inside_setCall s p none c.buf
  simpa [hp] using h

omit [Fintype ι] in
theorem asked_setCall {o : Option BufCall} {q : ι} {c : BufCall} (h : (s.setCall p o).calls q = some c) :
    (q = p ∧ o = some c) ∨ (q ≠ p ∧ s.calls q = some c) := by
  by_cases hq : q = p
  · subst hq
    exact .inl ⟨rfl, by simpa [setCall] using h⟩
  · exact .inr ⟨hq, by simpa [setCall, hq] using h⟩

/-! ## What each event does to them -/

theorem Kept.bread {dev : UInt32} {n : BlockNo} {cache : Bcache ι} (h : s.Kept a η) (hp : s.calls p = none)
    (hdev : dev ≠ 0) (hget : s.cache.bget dev n = .ok (b, cache)) :
    ({ s with cache := cache }.setCall p (some (.bread dev n b))).Kept a η := by
  set s₁ : Bio ι := { s with cache := cache } with hs₁
  have hlisted : s₁.cache.Listed := by
    obtain ⟨-, -, rfl⟩ | ⟨-, -, rfl⟩ := h.listed.bget_cases hget
    · exact h.listed
    · exact h.listed
  have hin : ∀ b', s₁.inside b' = s.inside b' := fun _ => rfl
  have hrest : ∀ b', b' ≠ b → s₁.buf b' = s.buf b' →
      (s₁.setCall p (some (.bread dev n b))).references η b' = s.references η b' := by
    intro b' hb hbuf
    have hin' := inside_setCall_ne (s := s₁) (p := p) (o := some (.bread dev n b)) hb (by simp [BufCall.buf])
      (by simp [hs₁, hp])
    rw [references, references, hin', setCall_buf, hbuf, hin]
  have henter : (s₁.setCall p (some (.bread dev n b))).inside b = s.inside b + 1 :=
    inside_enter (c := .bread dev n b) hp
  obtain ⟨hd, hn, rfl⟩ | ⟨hmiss, hfree, rfl⟩ := h.listed.bget_cases hget
  · have hother : ∀ b', b' ≠ b → s₁.buf b' = s.buf b' := fun b' hb => Function.update_of_ne hb _ _
    have hself : s₁.buf b = { s.buf b with refcnt := (s.buf b).refcnt + 1 } :=
      Function.update_self ..
    refine h.adjust b hlisted (fun b' hb => hother b' hb) ?_ (fun b' hb => hrest b' hb (hother b' hb)) ?_ ?_ ?_
      h.fits h.named
    · rw [setCall_buf, hself]
      exact ⟨rfl, rfl⟩
    · rw [references, henter, setCall_buf, hself]
      have := h.refs b
      rw [references] at this
      simp only
      omega
    · exact fun _ => .inr (hd ▸ hdev)
    · intro q dev' n' b' hq
      rcases asked_setCall hq with ⟨-, heq⟩ | ⟨-, hq⟩
      · cases heq
        exact ⟨hd, hn⟩
      · exact h.asked q dev' n' b' hq
  · have hother : ∀ b', b' ≠ b → s₁.buf b' = s.buf b' := fun b' hb => Function.update_of_ne hb _ _
    have hself : s₁.buf b = { s.buf b with dev := dev, blockno := n, valid := false, refcnt := 1 } :=
      Function.update_self ..
    obtain ⟨hnone, hlock, hpin⟩ := h.free hfree
    refine h.change b hlisted (fun b' hb => hother b' hb) (fun b' hb => hrest b' hb (hother b' hb)) ?_ ?_ ?_ ?_
      h.fits ?_
    · rw [references, henter, setCall_buf, hself]
      simp [hnone, hlock, hpin]
    · intro b' hb _ hdev' hn'
      rw [setCall_buf, hself] at hdev' hn'
      exact hmiss b' hdev'.symm hn'.symm
    · intro _
      rw [setCall_buf, hself]
      exact hdev
    · intro q dev' n' b' hq
      rw [setCall_buf]
      rcases asked_setCall hq with ⟨-, heq⟩ | ⟨-, hq⟩
      · cases heq
        rw [hself]
        exact ⟨rfl, rfl⟩
      · -- nobody else waits for the recycled buffer
        have hb : b' ≠ b := by
          rintro rfl
          exact Nat.ne_of_gt (h.inside_pos hq) hfree
        rw [hother b' hb]
        exact h.asked q dev' n' b' hq
    · intro b' hpin'
      have hb : b' ≠ b := by
        rintro rfl
        simp [hpin] at hpin'
      rw [setCall_buf, hother b' hb]
      exact h.named b' hpin'

theorem Kept.acquired {dev : UInt32} {n : BlockNo} {data : Block} (h : s.Kept a η)
    (hp : s.calls p = some (.bread dev n b)) (hlock : (s.buf b).lock = none) :
    ((s.setBuf b { s.buf b with lock := some p, valid := true, data := data }).setCall p none).Kept a η := by
  set s₁ := s.setBuf b { s.buf b with lock := some p, valid := true, data := data } with hs₁
  have hother : ∀ b', b' ≠ b → s₁.buf b' = s.buf b' := fun b' hb => setBuf_ne s _ hb
  have hself : s₁.buf b = { s.buf b with lock := some p, valid := true, data := data } := setBuf_self ..
  have hleave : (s₁.setCall p none).inside b + 1 = s.inside b := inside_leave (c := .bread dev n b) hp
  refine h.adjust b h.listed (fun b' hb => hother b' hb) ?_ (fun b' hb => ?_) ?_ ?_ ?_ h.fits h.named
  · rw [setCall_buf, hself]
    exact ⟨rfl, rfl⟩
  · have hin : (s₁.setCall p none).inside b' = s₁.inside b' :=
      inside_setCall_ne hb (by simp) (by simp [hs₁, setBuf, hp, BufCall.buf])
    rw [references, references, hin, setCall_buf, hother b' hb]
    rfl
  · -- the place in the call becomes the lock
    have hrefs := h.refs b
    rw [references, if_pos hlock] at hrefs
    rw [references, setCall_buf, hself]
    simp only [reduceCtorEq, if_false]
    omega
  · rw [setCall_buf, hself]
    exact .inl
  · intro q dev' n' b' hq
    rcases asked_setCall hq with ⟨-, heq⟩ | ⟨-, hq⟩
    · cases heq
    · exact h.asked q dev' n' b' hq

omit [DecidableEq ι] in
/-- Data, the disk and the counters of the log are not looked at. -/
theorem Kept.congr (h : s.Kept a η) (hlinks : s'.cache.links = s.cache.links) (hcalls : s'.calls = s.calls)
    (hbuf : ∀ b, (s'.buf b).dev = (s.buf b).dev ∧ (s'.buf b).blockno = (s.buf b).blockno ∧
      (s'.buf b).lock = (s.buf b).lock ∧ (s'.buf b).refcnt = (s.buf b).refcnt)
    (hpin : η'.pinned = η.pinned) (hfits : s'.lh.Fits a)
    (hnamed : ∀ b, η.pinned b → s'.lh.Names (s.buf b).blockno) : s'.Kept a η' := by
  constructor
  · obtain ⟨l, hring, hall⟩ := h.listed
    exact ⟨l, hlinks ▸ hring, hall⟩
  · intro b
    obtain ⟨-, -, hlock, hcnt⟩ := hbuf b
    rw [hcnt, h.refs, references, references, inside, inside, hcalls, hlock, hpin]
  · intro b b' hdev heq hn
    rw [(hbuf b).1] at hdev heq
    rw [(hbuf b').1] at heq
    rw [(hbuf b).2.1, (hbuf b').2.1] at hn
    exact h.unique b b' hdev heq hn
  · intro b hpos
    obtain ⟨hdev, -, -, hcnt⟩ := hbuf b
    rw [hdev]
    exact h.used b (hcnt ▸ hpos)
  · intro p dev n b hp
    rw [(hbuf b).1, (hbuf b).2.1]
    exact h.asked p dev n b (hcalls ▸ hp)
  · exact hfits
  · intro b hb
    rw [(hbuf b).2.1]
    exact hnamed b (hpin ▸ hb)

omit [DecidableEq ι] in
theorem Kept.pin {lh : LogHeader} (h : s.Kept a η) (hlock : (s.buf b).lock = some p)
    (hnew : ¬ s.lh.Names (s.buf b).blockno) (hfits : lh.Fits a)
    (hnames : ∀ n, lh.Names n ↔ s.lh.Names n ∨ n = (s.buf b).blockno)
    (hpin : η'.pinned = Function.update η.pinned b true) :
    ({ s with lh := lh }.setBuf b { s.buf b with refcnt := (s.buf b).refcnt + 1 }).Kept a η' := by
  set s₁ := ({ s with lh := lh }.setBuf b { s.buf b with refcnt := (s.buf b).refcnt + 1 }) with hs₁
  have hother : ∀ b', b' ≠ b → s₁.buf b' = s.buf b' := fun b' hb => setBuf_ne _ _ hb
  have hself : s₁.buf b = { s.buf b with refcnt := (s.buf b).refcnt + 1 } := setBuf_self ..
  have hfree : η.pinned b = false := Bool.eq_false_iff.2 fun hb => hnew (h.named b hb)
  have hrefs := h.refs b
  rw [references, hlock, hfree] at hrefs
  refine h.adjust b h.listed hother ?_ (fun b' hb => ?_) ?_ ?_ (fun q dev n b' hq => h.asked q dev n b' hq) hfits ?_
  · rw [hself]
    exact ⟨rfl, rfl⟩
  · rw [references, references, hother b' hb, hpin, Function.update_of_ne hb]
    rfl
  · rw [references, hself, hpin, Function.update_self]
    have hin : s₁.inside b = s.inside b := rfl
    simp only [hlock, hin] at hrefs ⊢
    simp at hrefs ⊢
    omega
  · exact fun _ => .inl (by simp at hrefs; omega)
  · intro b' hb'
    rw [hpin] at hb'
    by_cases hb : b' = b
    · exact (hnames _).2 (.inr (by rw [hb]))
    · rw [Function.update_of_ne hb] at hb'
      exact (hnames _).2 (.inl (h.named b' hb'))

omit [DecidableEq ι] in
theorem Kept.bunpin (h : s.Kept a η) (hb : η.pinned b = true)
    (hpin : η'.pinned = Function.update η.pinned b false) :
    (s.setBuf b { s.buf b with refcnt := (s.buf b).refcnt - 1 }).Kept a η' := by
  set s₁ := s.setBuf b { s.buf b with refcnt := (s.buf b).refcnt - 1 } with hs₁
  have hother : ∀ b', b' ≠ b → s₁.buf b' = s.buf b' := fun b' hb => setBuf_ne _ _ hb
  have hself : s₁.buf b = { s.buf b with refcnt := (s.buf b).refcnt - 1 } := setBuf_self ..
  have hrefs := h.refs b
  rw [references, if_pos hb] at hrefs
  refine h.adjust b h.listed hother ?_ (fun b' hb => ?_) ?_ ?_ (fun q dev n b' hq => h.asked q dev n b' hq) h.fits ?_
  · rw [hself]
    exact ⟨rfl, rfl⟩
  · rw [references, references, hother b' hb, hpin, Function.update_of_ne hb]
    rfl
  · rw [references, hself, hpin, Function.update_self]
    have hin : s₁.inside b = s.inside b := rfl
    simp only [hin, Bool.false_eq_true, if_false]
    omega
  · exact fun _ => .inl (by omega)
  · intro b' hb'
    rw [hpin] at hb'
    by_cases hbb : b' = b
    · exact h.named b' (hbb ▸ hb)
    · rw [Function.update_of_ne hbb] at hb'
      exact h.named b' hb'

theorem Kept.brelse (h : s.Kept a η) (hp : s.calls p = none) (hlock : (s.buf b).lock = some p) :
    ((s.setBuf b { s.buf b with lock := none }).setCall p (some (.brelse b))).Kept a η := by
  set s₁ := s.setBuf b { s.buf b with lock := none } with hs₁
  have hother : ∀ b', b' ≠ b → s₁.buf b' = s.buf b' := fun b' hb => setBuf_ne _ _ hb
  have hself : s₁.buf b = { s.buf b with lock := none } := setBuf_self ..
  have henter : (s₁.setCall p (some (.brelse b))).inside b = s.inside b + 1 := inside_enter (c := .brelse b) hp
  refine h.adjust b h.listed hother ?_ (fun b' hb => ?_) ?_ ?_ ?_ h.fits h.named
  · rw [setCall_buf, hself]
    exact ⟨rfl, rfl⟩
  · have hin : (s₁.setCall p (some (.brelse b))).inside b' = s₁.inside b' :=
      inside_setCall_ne hb (by simp [BufCall.buf]) (by simp [hs₁, setBuf, hp])
    rw [references, references, hin, setCall_buf, hother b' hb]
    rfl
  · -- the lock becomes the place in the call
    have hrefs := h.refs b
    rw [references, hlock] at hrefs
    rw [references, henter, setCall_buf, hself]
    simp at hrefs ⊢
    omega
  · rw [setCall_buf, hself]
    exact .inl
  · intro q dev' n' b' hq
    rcases asked_setCall hq with ⟨-, heq⟩ | ⟨-, hq⟩
    · cases heq
    · exact h.asked q dev' n' b' hq

theorem Kept.released (h : s.Kept a η) (hp : s.calls p = some (.brelse b)) :
    ({ s with cache := s.cache.unreference b }.setCall p none).Kept a η := by
  set s₁ : Bio ι := { s with cache := s.cache.unreference b } with hs₁
  have hother : ∀ b', b' ≠ b → s₁.buf b' = s.buf b' :=
    fun b' hb => (unreference_buf s b b').trans (setBuf_ne _ _ hb)
  have hself : s₁.buf b = { s.buf b with refcnt := (s.buf b).refcnt - 1 } :=
    (unreference_buf s b b).trans (setBuf_self ..)
  have hleave : (s₁.setCall p none).inside b + 1 = s.inside b := inside_leave (c := .brelse b) hp
  refine h.adjust b (h.listed.unreference b) hother ?_ (fun b' hb => ?_) ?_ ?_ ?_ h.fits h.named
  · rw [setCall_buf, hself]
    exact ⟨rfl, rfl⟩
  · have hin : (s₁.setCall p none).inside b' = s₁.inside b' :=
      inside_setCall_ne hb (by simp) (by simp [hs₁, hp, BufCall.buf])
    rw [references, references, hin, setCall_buf, hother b' hb]
    rfl
  · have hrefs := h.refs b
    rw [references] at hrefs
    rw [references, setCall_buf, hself]
    simp only
    omega
  · exact fun _ => .inl (h.inside_pos hp)
  · intro q dev' n' b' hq
    rcases asked_setCall hq with ⟨-, heq⟩ | ⟨-, hq⟩
    · cases heq
    · exact h.asked q dev' n' b' hq

/-! ## Inversion -/

section
omit [Fintype ι]

theorem step_bread {dev : UInt32} {n : BlockNo} (h : s.step a (.bread p dev n) = .ok (some s')) :
    ∃ b cache, s.cache.bget dev n = .ok (b, cache) ∧
      s' = { s with cache := cache }.setCall p (some (.bread dev n b)) := by
  obtain ⟨⟨b, cache⟩, hget, h⟩ := Except.bind_ok_iff.1 h
  cases h
  exact ⟨b, cache, hget, rfl⟩

theorem step_acquired (h : s.step a (.acquired p) = .ok (some s')) :
    ∃ dev n b, s.calls p = some (.bread dev n b) ∧ (s.buf b).lock = none ∧
      s' = (s.setBuf b { s.buf b with
        lock := some p, valid := true,
        data := if (s.buf b).valid then (s.buf b).data else s.disk (s.buf b).blockno }).setCall p none := by
  simp only [step] at h
  split at h
  · rename_i dev n b hp
    split at h
    · rename_i hlock
      cases h
      exact ⟨dev, n, b, hp, hlock, rfl⟩
    · cases h
  · cases h

theorem step_bwrite (h : s.step a (.bwrite p b) = .ok (some s')) :
    (s.buf b).lock = some p ∧
      s' = { s with disk := Function.update s.disk (s.buf b).blockno (s.buf b).data } := by
  simp only [step] at h
  split at h
  · cases h
  · rename_i hlock
    cases h
    exact ⟨not_not.1 hlock, rfl⟩

theorem step_logWrite (h : s.step a (.logWrite p b) = .ok (some s')) :
    ∃ lh, a.logWrite s.outstanding s.lh (s.buf b).blockno = .ok lh ∧
      ((s.lh.Names (s.buf b).blockno ∧ s' = { s with lh := lh }) ∨
        (¬ s.lh.Names (s.buf b).blockno ∧
          s' = { s with lh := lh }.setBuf b { s.buf b with refcnt := (s.buf b).refcnt + 1 })) := by
  obtain ⟨lh, hlh, h⟩ := Except.bind_ok_iff.1 h
  refine ⟨lh, hlh, ?_⟩
  split at h
  · rename_i hold
    cases h
    exact .inl ⟨hold, rfl⟩
  · rename_i hnew
    cases h
    exact .inr ⟨hnew, rfl⟩

theorem step_brelse (h : s.step a (.brelse p b) = .ok (some s')) :
    (s.buf b).lock = some p ∧ s' = (s.setBuf b { s.buf b with lock := none }).setCall p (some (.brelse b)) := by
  simp only [step] at h
  split at h
  · cases h
  · rename_i hlock
    cases h
    exact ⟨not_not.1 hlock, rfl⟩

theorem step_released (h : s.step a (.released p) = .ok (some s')) :
    ∃ b, s.calls p = some (.brelse b) ∧ s' = { s with cache := s.cache.unreference b }.setCall p none := by
  simp only [step] at h
  split at h
  · rename_i b hp
    cases h
    exact ⟨b, hp, rfl⟩
  · cases h

theorem step_beginOp (h : s.step a .beginOp = .ok (some s')) :
    s.committing = false ∧ s' = { s with outstanding := s.outstanding + 1 } := by
  simp only [step] at h
  split at h
  · cases h
  rename_i hidle
  split at h
  · cases h
  · cases h
    exact ⟨by simpa using hidle, rfl⟩

theorem step_endOp (h : s.step a .endOp = .ok (some s')) :
    s.committing = false ∧
      s' = { s with outstanding := s.outstanding - 1, committing := decide (s.outstanding - 1 = 0) } := by
  simp only [step] at h
  split at h
  · cases h
  · rename_i hidle
    cases h
    exact ⟨by simpa using hidle, rfl⟩

theorem step_committed (h : s.step a .committed = .ok (some s')) :
    s' = { s with lh := { s.lh with n := 0 }, committing := false } := by
  simp only [step] at h
  split at h
  · cases h
    rfl
  · cases h

end

theorem Kept.step {e : BioEvent ι} (h : s.Kept a η) (hd : s.Disciplined η e)
    (hstep : s.step a e = .ok (some s')) : s'.Kept a (s.note η e) := by
  cases e with
  | bread p dev n =>
    obtain ⟨b, cache, hget, rfl⟩ := step_bread hstep
    exact h.bread hd.1 hd.2.1 hget
  | acquired p =>
    obtain ⟨dev, n, b, hp, hlock, rfl⟩ := step_acquired hstep
    exact h.acquired hp hlock
  | modify p b data =>
    cases hstep
    refine h.congr rfl rfl (fun b' => ?_) rfl h.fits h.named
    by_cases hb : b' = b
    · rw [hb, setBuf_self]
      exact ⟨rfl, rfl, rfl, rfl⟩
    · rw [setBuf_ne _ _ hb]
      exact ⟨rfl, rfl, rfl, rfl⟩
  | bwrite p b =>
    obtain ⟨-, rfl⟩ := step_bwrite hstep
    exact h.congr rfl rfl (fun _ => ⟨rfl, rfl, rfl, rfl⟩) rfl h.fits h.named
  | logWrite p b =>
    obtain ⟨lh, hlh, hcases⟩ := step_logWrite hstep
    have hfits := LogArea.logWrite_fits hlh h.fits
    obtain ⟨-, hnames⟩ := LogArea.logWrite_names hlh h.fits
    rcases hcases with ⟨hold, rfl⟩ | ⟨hnew, rfl⟩
    · refine h.congr rfl rfl (fun _ => ⟨rfl, rfl, rfl, rfl⟩) ?_ hfits fun b' hb' => ?_
      · simp [note, hold]
      · exact (hnames _).2 (.inl (h.named b' hb'))
    · refine h.pin hd.2 hnew hfits hnames ?_
      simp [note, hnew]
  | bunpin b =>
    cases hstep
    exact h.bunpin hd.2.1 rfl
  | brelse p b =>
    obtain ⟨hlock, rfl⟩ := step_brelse hstep
    exact h.brelse hd.1 hlock
  | released p =>
    obtain ⟨b, hp, rfl⟩ := step_released hstep
    exact h.released hp
  | beginOp =>
    obtain ⟨-, rfl⟩ := step_beginOp hstep
    exact h.congr rfl rfl (fun _ => ⟨rfl, rfl, rfl, rfl⟩) rfl h.fits h.named
  | endOp =>
    obtain ⟨-, rfl⟩ := step_endOp hstep
    exact h.congr rfl rfl (fun _ => ⟨rfl, rfl, rfl, rfl⟩) rfl h.fits h.named
  | committed =>
    obtain rfl := step_committed hstep
    refine h.congr rfl rfl (fun _ => ⟨rfl, rfl, rfl, rfl⟩) rfl ?_ fun b hb => ?_
    · exact LogHeader.fits_empty _
    · rw [hd b] at hb
      cases hb

/-! ## Data -/

/-- The buffers of one device agree with what was last stored. A block whose
data are not on the disk has a buffer that cannot be recycled. -/
structure Coherent (d : UInt32) (s : Bio ι) (η : BioNotes) : Prop where
  dev : ∀ b, (s.buf b).dev ≠ 0 → (s.buf b).dev = d
  data : ∀ b, (s.buf b).valid → (s.buf b).dev ≠ 0 ∧ (s.buf b).data = η.stored (s.buf b).blockno
  disk : ∀ n, s.disk n = η.stored n ∨ ∃ b, η.unsaved b ∧ (s.buf b).blockno = n
  unsaved : ∀ b, η.unsaved b → (s.buf b).valid ∧ (η.pinned b ∨ η.touched b)
  touched : ∀ b, η.touched b → (s.buf b).lock ≠ none
  locked : ∀ b, (s.buf b).lock ≠ none → (s.buf b).valid
  logged : ∀ n, s.committing = false → s.lh.Names n → ∃ b, η.pinned b ∧ (s.buf b).blockno = n
  idle : s.committing → s.outstanding = 0

variable {d : UInt32}

omit [DecidableEq ι] in
theorem Kept.locked_dev (h : s.Kept a η) (hb : (s.buf b).lock ≠ none) : (s.buf b).dev ≠ 0 := by
  refine h.used b ?_
  rw [h.refs, references, if_neg hb]
  omega

omit [DecidableEq ι] in
theorem Kept.pinned_dev (h : s.Kept a η) (hb : η.pinned b) : (s.buf b).dev ≠ 0 := by
  refine h.used b ?_
  rw [h.refs, references, if_pos hb]
  omega

omit [DecidableEq ι] in
/-- A block has at most one buffer on the device. -/
theorem Coherent.same {b b' : BufId} (hc : s.Coherent d η) (h : s.Kept a η) (hb : (s.buf b).dev ≠ 0)
    (hb' : (s.buf b').dev ≠ 0) (hn : (s.buf b).blockno = (s.buf b').blockno) : b = b' :=
  h.unique b b' hb ((hc.dev b hb).trans (hc.dev b' hb').symm) hn

omit [DecidableEq ι] in
/-- A buffer without references has nothing that is not on the disk. -/
theorem Coherent.free (hc : s.Coherent d η) (h : s.Kept a η) (hb : (s.buf b).refcnt = 0) :
    η.touched b = false ∧ η.unsaved b = false := by
  obtain ⟨-, hlock, hpin⟩ := h.free hb
  have htouched : η.touched b = false := Bool.eq_false_iff.2 fun ht => hc.touched b ht hlock
  refine ⟨htouched, Bool.eq_false_iff.2 fun hu => ?_⟩
  rcases (hc.unsaved b hu).2 with hp | ht
  · rw [hpin] at hp
    cases hp
  · rw [htouched] at ht
    cases ht

omit [Fintype ι] [DecidableEq ι] in
/-- A step that keeps buffers, apart from their reference counts, and changes
what is known about them. -/
theorem Coherent.renote (hc : s.Coherent d η)
    (hbuf : ∀ b, (s'.buf b).dev = (s.buf b).dev ∧ (s'.buf b).blockno = (s.buf b).blockno ∧
      (s'.buf b).lock = (s.buf b).lock ∧ (s'.buf b).valid = (s.buf b).valid ∧ (s'.buf b).data = (s.buf b).data)
    (hstored : η'.stored = η.stored)
    (hdisk : ∀ n, s'.disk n = η.stored n ∨ ∃ b, η'.unsaved b ∧ (s.buf b).blockno = n)
    (hunsaved : ∀ b, η'.unsaved b → η.unsaved b ∧ (η'.pinned b ∨ η'.touched b))
    (htouched : ∀ b, η'.touched b → η.touched b)
    (hlogged : ∀ n, s'.committing = false → s'.lh.Names n → ∃ b, η'.pinned b ∧ (s.buf b).blockno = n)
    (hidle : s'.committing → s'.outstanding = 0) : s'.Coherent d η' := by
  have hdev : ∀ b, (s'.buf b).dev = (s.buf b).dev := fun b => (hbuf b).1
  have hno : ∀ b, (s'.buf b).blockno = (s.buf b).blockno := fun b => (hbuf b).2.1
  have hlock : ∀ b, (s'.buf b).lock = (s.buf b).lock := fun b => (hbuf b).2.2.1
  have hvalid : ∀ b, (s'.buf b).valid = (s.buf b).valid := fun b => (hbuf b).2.2.2.1
  have hdata : ∀ b, (s'.buf b).data = (s.buf b).data := fun b => (hbuf b).2.2.2.2
  refine ⟨?_, ?_, ?_, ?_, ?_, ?_, ?_, hidle⟩ <;> simp only [hdev, hno, hlock, hvalid, hdata, hstored]
  · exact hc.dev
  · exact hc.data
  · exact hdisk
  · exact fun b hu => ⟨(hc.unsaved b (hunsaved b hu).1).1, (hunsaved b hu).2⟩
  · exact fun b ht => hc.touched b (htouched b ht)
  · exact hc.locked
  · exact hlogged

omit [Fintype ι] [DecidableEq ι] in
/-- A step after which buffers differ only in their reference counts. -/
theorem Coherent.congr (hc : s.Coherent d η) (hdisk : s'.disk = s.disk) (hlh : s'.lh = s.lh)
    (hbuf : ∀ b, (s'.buf b).dev = (s.buf b).dev ∧ (s'.buf b).blockno = (s.buf b).blockno ∧
      (s'.buf b).lock = (s.buf b).lock ∧ (s'.buf b).valid = (s.buf b).valid ∧ (s'.buf b).data = (s.buf b).data)
    (hcommit : s'.committing = false → s.committing = false)
    (hidle : s'.committing → s'.outstanding = 0) : s'.Coherent d η := by
  refine hc.renote hbuf rfl ?_ (fun b hu => ⟨hu, (hc.unsaved b hu).2⟩) (fun _ => id) ?_ hidle
  · rw [hdisk]
    exact hc.disk
  · rw [hlh]
    exact fun n h => hc.logged n (hcommit h)

theorem Coherent.bread {n : BlockNo} {cache : Bcache ι} (hc : s.Coherent d η) (h : s.Kept a η)
    (hget : s.cache.bget d n = .ok (b, cache)) :
    ({ s with cache := cache }.setCall p (some (.bread d n b))).Coherent d η := by
  obtain ⟨-, -, rfl⟩ | ⟨-, hfree, rfl⟩ := h.listed.bget_cases hget
  · refine hc.congr rfl rfl (fun b' => ?_) id hc.idle
    by_cases hb : b' = b
    · rw [hb]
      simp [setCall, Bcache.set, Bio.buf]
    · simp [setCall, Bcache.set, Bio.buf, hb]
  · -- the recycled buffer held nothing that was not on the disk
    obtain ⟨-, hlock, hpin⟩ := h.free hfree
    obtain ⟨htouched, hunsaved⟩ := hc.free h hfree
    set s₁ : Bio ι := { s with
      cache := s.cache.set b { s.cache.buf b with dev := d, blockno := n, valid := false, refcnt := 1 } } with hs₁
    have hother : ∀ b', b' ≠ b → s₁.buf b' = s.buf b' := fun b' hb => Function.update_of_ne hb _ _
    have hself : s₁.buf b = { s.buf b with dev := d, blockno := n, valid := false, refcnt := 1 } :=
      Function.update_self ..
    have hne : ∀ b' : BufId, ∀ f : BufId → Bool, f b = false → f b' = true → b' ≠ b := by
      rintro b' f hf hb' rfl
      rw [hf] at hb'
      cases hb'
    refine ⟨?_, ?_, ?_, ?_, ?_, ?_, ?_, hc.idle⟩ <;> simp only [setCall_buf]
    · intro b' hdev
      by_cases hb : b' = b
      · rw [hb, hself]
      · rw [hother b' hb] at hdev ⊢
        exact hc.dev b' hdev
    · intro b' hvalid
      by_cases hb : b' = b
      · rw [hb, hself] at hvalid
        cases hvalid
      · rw [hother b' hb] at hvalid ⊢
        exact hc.data b' hvalid
    · intro m
      rcases hc.disk m with heq | ⟨b', hu, hm⟩
      · exact .inl heq
      · exact .inr ⟨b', hu, by rw [hother b' (hne b' _ hunsaved hu), hm]⟩
    · intro b' hu
      rw [hother b' (hne b' _ hunsaved hu)]
      exact hc.unsaved b' hu
    · intro b' ht
      rw [hother b' (hne b' _ htouched ht)]
      exact hc.touched b' ht
    · intro b' hl
      have hb : b' ≠ b := by
        rintro rfl
        rw [hself] at hl
        exact hl hlock
      rw [hother b' hb] at hl ⊢
      exact hc.locked b' hl
    · intro m hcommit hm
      obtain ⟨b', hp, hn⟩ := hc.logged m hcommit hm
      exact ⟨b', hp, by rw [hother b' (hne b' _ hpin hp), hn]⟩

omit [DecidableEq ι] in
/-- A buffer that was not filled yet gets from the disk what was last stored. -/
theorem Coherent.fill (hc : s.Coherent d η) (h : s.Kept a η) (hb : (s.buf b).dev ≠ 0) :
    (if (s.buf b).valid then (s.buf b).data else s.disk (s.buf b).blockno) = η.stored (s.buf b).blockno := by
  split
  · rename_i hvalid
    exact (hc.data b hvalid).2
  · rename_i hvalid
    rcases hc.disk (s.buf b).blockno with heq | ⟨b', hu, hn⟩
    · exact heq
    · -- only the buffer itself could have newer data
      obtain ⟨hvalid', -⟩ := hc.unsaved b' hu
      obtain rfl := hc.same h (hc.data b' hvalid').1 hb hn
      exact absurd hvalid' hvalid

theorem Coherent.acquired {dev : UInt32} {n : BlockNo} (hc : s.Coherent d η) (h : s.Kept a η)
    (hp : s.calls p = some (.bread dev n b)) :
    ((s.setBuf b { s.buf b with
      lock := some p, valid := true,
      data := if (s.buf b).valid then (s.buf b).data else s.disk (s.buf b).blockno }).setCall p none).Coherent d η := by
  have hdev : (s.buf b).dev ≠ 0 := h.used b (h.inside_pos hp)
  have hfill := hc.fill h hdev
  set s₁ := s.setBuf b { s.buf b with
    lock := some p, valid := true,
    data := if (s.buf b).valid then (s.buf b).data else s.disk (s.buf b).blockno } with hs₁
  have hother : ∀ b', b' ≠ b → s₁.buf b' = s.buf b' := fun b' hb => setBuf_ne _ _ hb
  have hself : s₁.buf b = { s.buf b with
    lock := some p, valid := true,
    data := if (s.buf b).valid then (s.buf b).data else s.disk (s.buf b).blockno } := setBuf_self ..
  have hno : ∀ b', (s₁.buf b').blockno = (s.buf b').blockno := by
    intro b'
    by_cases hb : b' = b
    · rw [hb, hself]
    · rw [hother b' hb]
  have hvalid : ∀ b', (s.buf b').valid → (s₁.buf b').valid := by
    intro b' hv
    by_cases hb : b' = b
    · rw [hb, hself]
    · rwa [hother b' hb]
  refine ⟨?_, ?_, ?_, ?_, ?_, ?_, ?_, hc.idle⟩ <;> simp only [setCall_buf, hno]
  · intro b' hd
    by_cases hb : b' = b
    · rw [hb, hself]
      exact hc.dev b hdev
    · rw [hother b' hb] at hd ⊢
      exact hc.dev b' hd
  · intro b' hv
    by_cases hb : b' = b
    · rw [hb, hself]
      exact ⟨hdev, hfill⟩
    · rw [hother b' hb] at hv ⊢
      exact hc.data b' hv
  · exact hc.disk
  · exact fun b' hu => ⟨hvalid b' (hc.unsaved b' hu).1, (hc.unsaved b' hu).2⟩
  · intro b' ht
    by_cases hb : b' = b
    · rw [hb, hself]
      simp
    · rw [hother b' hb]
      exact hc.touched b' ht
  · intro b' hl
    by_cases hb : b' = b
    · rw [hb, hself]
    · rw [hother b' hb] at hl ⊢
      exact hc.locked b' hl
  · exact hc.logged

omit [DecidableEq ι] in
theorem Coherent.modify {data : Block} (hc : s.Coherent d η) (h : s.Kept a η) (hlock : (s.buf b).lock = some p) :
    (s.setBuf b { s.buf b with data := data }).Coherent d (s.note η (.modify p b data)) := by
  have hdev : (s.buf b).dev ≠ 0 := h.locked_dev (by simp [hlock])
  have hvalid : (s.buf b).valid := hc.locked b (by simp [hlock])
  set s₁ := s.setBuf b { s.buf b with data := data } with hs₁
  have hother : ∀ b', b' ≠ b → s₁.buf b' = s.buf b' := fun b' hb => setBuf_ne _ _ hb
  have hself : s₁.buf b = { s.buf b with data := data } := setBuf_self ..
  have htags : ∀ b', (s₁.buf b').dev = (s.buf b').dev ∧ (s₁.buf b').blockno = (s.buf b').blockno ∧
      (s₁.buf b').lock = (s.buf b').lock ∧ (s₁.buf b').valid = (s.buf b').valid := by
    intro b'
    by_cases hb : b' = b
    · rw [hb, hself]
      exact ⟨rfl, rfl, rfl, rfl⟩
    · rw [hother b' hb]
      exact ⟨rfl, rfl, rfl, rfl⟩
  refine ⟨?_, ?_, ?_, ?_, ?_, ?_, ?_, hc.idle⟩ <;>
    simp only [fun b' => (htags b').1, fun b' => (htags b').2.1, fun b' => (htags b').2.2.1,
      fun b' => (htags b').2.2.2, note]
  · exact hc.dev
  · intro b' hv
    by_cases hb : b' = b
    · rw [hb, hself, Function.update_self]
      exact ⟨hdev, rfl⟩
    · -- another buffer is that of another block
      have hn : (s.buf b').blockno ≠ (s.buf b).blockno := fun heq => hb (hc.same h (hc.data b' hv).1 hdev heq)
      rw [hother b' hb, Function.update_of_ne hn]
      exact hc.data b' hv
  · intro n
    by_cases hn : n = (s.buf b).blockno
    · exact .inr ⟨b, by simp, hn.symm⟩
    · rw [Function.update_of_ne hn]
      refine (hc.disk n).imp_right ?_
      rintro ⟨b', hu, hb'⟩
      refine ⟨b', ?_, hb'⟩
      by_cases hb : b' = b
      · simp [hb]
      · rwa [Function.update_of_ne hb]
  · intro b' hu
    by_cases hb : b' = b
    · exact ⟨hb ▸ hvalid, .inr (by simp [hb])⟩
    · rw [Function.update_of_ne hb] at hu ⊢
      exact hc.unsaved b' hu
  · intro b' ht
    by_cases hb : b' = b
    · simp [hb, hlock]
    · rw [Function.update_of_ne hb] at ht
      exact hc.touched b' ht
  · exact hc.locked
  · exact hc.logged

omit [Fintype ι] [DecidableEq ι] in
theorem Coherent.bwrite (hc : s.Coherent d η) (hlock : (s.buf b).lock = some p) :
    ({ s with disk := Function.update s.disk (s.buf b).blockno (s.buf b).data } : Bio ι).Coherent d
      (s.note η (.bwrite p b)) := by
  have hvalid : (s.buf b).valid := hc.locked b (by simp [hlock])
  refine hc.renote (fun _ => ⟨rfl, rfl, rfl, rfl, rfl⟩) rfl (fun n => ?_) (fun b' hu => ?_) (fun b' ht => ?_)
    hc.logged hc.idle
  · by_cases hn : n = (s.buf b).blockno
    · left
      simp only [hn, Function.update_self]
      exact (hc.data b hvalid).2
    · simp only [Function.update_of_ne hn]
      refine (hc.disk n).imp_right ?_
      rintro ⟨b', hu, hb'⟩
      have hb : b' ≠ b := fun heq => hn (by rw [← hb', heq])
      exact ⟨b', by simpa [note, hb] using hu, hb'⟩
  · by_cases hb : b' = b
    · simp [note, hb] at hu
    · simp only [note, Function.update_of_ne hb] at hu ⊢
      exact ⟨hu, (hc.unsaved b' hu).2⟩
  · by_cases hb : b' = b
    · simp [note, hb] at ht
    · simpa [note, hb] using ht

omit [Fintype ι] in
theorem Coherent.unlock (hc : s.Coherent d η) (hb : η.touched b = false) :
    ((s.setBuf b { s.buf b with lock := none }).setCall p (some (.brelse b))).Coherent d η := by
  set s₁ := s.setBuf b { s.buf b with lock := none } with hs₁
  have hother : ∀ b', b' ≠ b → s₁.buf b' = s.buf b' := fun b' hb => setBuf_ne _ _ hb
  have hself : s₁.buf b = { s.buf b with lock := none } := setBuf_self ..
  have htags : ∀ b', (s₁.buf b').dev = (s.buf b').dev ∧ (s₁.buf b').blockno = (s.buf b').blockno ∧
      (s₁.buf b').valid = (s.buf b').valid ∧ (s₁.buf b').data = (s.buf b').data := by
    intro b'
    by_cases hb : b' = b
    · rw [hb, hself]
      exact ⟨rfl, rfl, rfl, rfl⟩
    · rw [hother b' hb]
      exact ⟨rfl, rfl, rfl, rfl⟩
  refine ⟨?_, ?_, ?_, ?_, ?_, ?_, ?_, hc.idle⟩ <;>
    simp only [setCall_buf, fun b' => (htags b').1, fun b' => (htags b').2.1, fun b' => (htags b').2.2.1,
      fun b' => (htags b').2.2.2]
  · exact hc.dev
  · exact hc.data
  · exact hc.disk
  · exact hc.unsaved
  · intro b' ht
    have hne : b' ≠ b := by
      rintro rfl
      rw [hb] at ht
      cases ht
    rw [hother b' hne]
    exact hc.touched b' ht
  · intro b' hl
    have hne : b' ≠ b := by
      rintro rfl
      rw [hself] at hl
      exact hl rfl
    rw [hother b' hne] at hl
    exact hc.locked b' hl
  · exact hc.logged

omit [DecidableEq ι] in
/-- `log_write` leaves the buffer pinned, also if the block was in the log
already. -/
theorem Coherent.logWrite {lh : LogHeader} (hc : s.Coherent d η) (h : s.Kept a η)
    (hlock : (s.buf b).lock = some p) (hlh : a.logWrite s.outstanding s.lh (s.buf b).blockno = .ok lh)
    (hs' : s'.lh = lh ∧ s'.disk = s.disk ∧ s'.committing = s.committing ∧ s'.outstanding = s.outstanding)
    (hbuf : ∀ b, (s'.buf b).dev = (s.buf b).dev ∧ (s'.buf b).blockno = (s.buf b).blockno ∧
      (s'.buf b).lock = (s.buf b).lock ∧ (s'.buf b).valid = (s.buf b).valid ∧ (s'.buf b).data = (s.buf b).data) :
    s'.Coherent d (s.note η (.logWrite p b)) := by
  obtain ⟨rfl, hdisk, hcommit, hout⟩ := hs'
  obtain ⟨hpos, hnames⟩ := LogArea.logWrite_names hlh h.fits
  have hactive : s.committing = false := by
    by_contra hne
    have := hc.idle (by simpa using hne)
    omega
  have hpin : (s.note η (.logWrite p b)).pinned b = true := by
    by_cases hold : s.lh.Names (s.buf b).blockno
    · obtain ⟨b', hp, hn⟩ := hc.logged _ hactive hold
      obtain rfl := hc.same h (h.pinned_dev hp) (h.locked_dev (by simp [hlock])) hn
      simpa [note, hold] using hp
    · simp [note, hold]
  have hmore : ∀ b', η.pinned b' = true → (s.note η (.logWrite p b)).pinned b' = true := by
    intro b' hp
    by_cases hb : b' = b
    · rwa [hb]
    · simp only [note]
      split
      · exact hp
      · rwa [Function.update_of_ne hb]
  refine hc.renote hbuf rfl (fun n => ?_) (fun b' hu => ⟨hu, ?_⟩) (fun b' ht => ?_) (fun n _ hn => ?_) ?_
  · rw [hdisk]
    exact hc.disk n
  · by_cases hb : b' = b
    · exact .inl (hb ▸ hpin)
    · refine (hc.unsaved b' hu).2.imp (hmore b') fun ht => ?_
      simpa [note, hb] using ht
  · by_cases hb : b' = b
    · simp [note, hb] at ht
    · simpa [note, hb] using ht
  · rcases (hnames n).1 hn with hold | rfl
    · obtain ⟨b', hp, hn⟩ := hc.logged n hactive hold
      exact ⟨b', hmore b' hp, hn⟩
    · exact ⟨b, hpin, rfl⟩
  · rw [hcommit, hactive]
    simp

theorem Coherent.step {e : BioEvent ι} (hc : s.Coherent d η) (h : s.Kept a η) (hd : s.Disciplined η e)
    (hdev : OnDevice d e) (hstep : s.step a e = .ok (some s')) : s'.Coherent d (s.note η e) := by
  cases e with
  | bread p dev n =>
    obtain ⟨b, cache, hget, rfl⟩ := step_bread hstep
    obtain rfl : dev = d := hdev
    exact hc.bread h hget
  | acquired p =>
    obtain ⟨dev, n, b, hp, -, rfl⟩ := step_acquired hstep
    exact hc.acquired h hp
  | modify p b data =>
    cases hstep
    exact hc.modify h hd.2
  | bwrite p b =>
    obtain ⟨hlock, rfl⟩ := step_bwrite hstep
    exact hc.bwrite hlock
  | logWrite p b =>
    obtain ⟨lh, hlh, ⟨-, rfl⟩ | ⟨-, rfl⟩⟩ := step_logWrite hstep
    · exact hc.logWrite h hd.2 hlh ⟨rfl, rfl, rfl, rfl⟩ fun _ => ⟨rfl, rfl, rfl, rfl, rfl⟩
    · refine hc.logWrite h hd.2 hlh ⟨rfl, rfl, rfl, rfl⟩ fun b' => ?_
      by_cases hb : b' = b
      · rw [hb, setBuf_self]
        exact ⟨rfl, rfl, rfl, rfl, rfl⟩
      · rw [setBuf_ne _ _ hb]
        exact ⟨rfl, rfl, rfl, rfl, rfl⟩
  | bunpin b =>
    cases hstep
    obtain ⟨hcommit, -, hsaved⟩ := hd
    refine hc.renote (fun b' => ?_) rfl hc.disk (fun b' hu => ⟨hu, ?_⟩) (fun _ => id) (fun n h => ?_) hc.idle
    · by_cases hb : b' = b
      · rw [hb, setBuf_self]
        exact ⟨rfl, rfl, rfl, rfl, rfl⟩
      · rw [setBuf_ne _ _ hb]
        exact ⟨rfl, rfl, rfl, rfl, rfl⟩
    · have hb : b' ≠ b := by
        rintro rfl
        have hu : η.unsaved b' = true := hu
        rw [hsaved] at hu
        cases hu
      simpa [note, hb] using (hc.unsaved b' hu).2
    · have h : s.committing = false := h
      rw [hcommit] at h
      cases h
  | brelse p b =>
    obtain ⟨hlock, rfl⟩ := step_brelse hstep
    exact hc.unlock hd.2
  | released p =>
    obtain ⟨b, -, rfl⟩ := step_released hstep
    refine hc.congr rfl rfl (fun b' => ?_) id hc.idle
    rw [setCall_buf, unreference_buf]
    by_cases hb : b' = b
    · rw [hb, setBuf_self]
      exact ⟨rfl, rfl, rfl, rfl, rfl⟩
    · rw [setBuf_ne _ _ hb]
      exact ⟨rfl, rfl, rfl, rfl, rfl⟩
  | beginOp =>
    obtain ⟨hidle, rfl⟩ := step_beginOp hstep
    exact hc.congr rfl rfl (fun _ => ⟨rfl, rfl, rfl, rfl, rfl⟩) id fun h => by simp [hidle] at h
  | endOp =>
    obtain ⟨hidle, rfl⟩ := step_endOp hstep
    exact hc.congr rfl rfl (fun _ => ⟨rfl, rfl, rfl, rfl, rfl⟩) (fun _ => hidle) of_decide_eq_true
  | committed =>
    obtain rfl := step_committed hstep
    refine hc.renote (fun _ => ⟨rfl, rfl, rfl, rfl, rfl⟩) rfl hc.disk (fun b hu => ⟨hu, (hc.unsaved b hu).2⟩)
      (fun _ => id) (fun n _ hn => ?_) fun h => by simp at h
    obtain ⟨i, hi, -⟩ := hn
    exact absurd hi (Nat.not_lt_zero i)

/-! ## Every run -/

/-- The block that a buffer is for. -/
def tag (s : Bio ι) (b : BufId) : UInt32 × BlockNo := ((s.buf b).dev, (s.buf b).blockno)

/-- The cache as a data structure: no block has two buffers, the list holds
every buffer once and can be followed both ways, `bget` gets a buffer for any
block while one has no references, and only such a buffer is given away. -/
structure Intact (a : LogArea) (s : Bio ι) : Prop where
  unique : ∀ b b', (s.buf b).dev ≠ 0 → s.tag b = s.tag b' → b = b'
  once : ∃ l, s.cache.links.Ring none l ∧ ∀ b, l.count (some b) = 1
  inverse : ∀ x, s.cache.links.prev (s.cache.links.next x) = x ∧ s.cache.links.next (s.cache.links.prev x) = x
  bget : ∀ dev n, (∃ b, (s.buf b).refcnt = 0) → ∃ b c, s.cache.bget dev n = .ok (b, c) ∧
    (c.buf b).dev = dev ∧ (c.buf b).blockno = n
  recycled : ∀ e s' b, s.step a e = .ok (some s') →
    s'.tag b ≠ s.tag b ∨ ((s.buf b).valid ∧ (s'.buf b).valid = false) → (s.buf b).refcnt = 0

/-- `bread` returns, once the lock is free, a locked buffer with the data last
stored for the block it was called for. -/
def Returns (a : LogArea) (s : Bio ι) (η : BioNotes) : Prop :=
  ∀ p dev n b, s.calls p = some (.bread dev n b) → (s.buf b).lock = none →
    ∃ s', s.step a (.acquired p) = .ok (some s') ∧ s'.tag b = (dev, n) ∧ (s'.buf b).lock = some p ∧
      (s'.buf b).data = η.stored n

/-- Every buffer is still for its block, with its data. -/
def Stays (s s' : Bio ι) : Prop := ∀ b, s'.tag b = s.tag b ∧ ((s.buf b).valid → (s'.buf b).valid)

omit [Fintype ι] [DecidableEq ι] in
theorem stays_setBuf {x : Buf ι} (hdev : x.dev = (s.buf b).dev) (hn : x.blockno = (s.buf b).blockno)
    (hvalid : (s.buf b).valid → x.valid) : s.Stays (s.setBuf b x) := by
  intro b'
  by_cases hb : b' = b
  · subst hb
    simpa [tag, hdev, hn] using hvalid
  · simp [tag, setBuf_ne s x hb]

theorem Kept.recycled {e : BioEvent ι} (h : s.Kept a η) (hstep : s.step a e = .ok (some s'))
    (hchange : s'.tag b ≠ s.tag b ∨ ((s.buf b).valid ∧ (s'.buf b).valid = false)) : (s.buf b).refcnt = 0 := by
  have hstays : s.Stays s' → (s.buf b).refcnt = 0 := by
    intro hs
    rcases hchange with htag | ⟨hvalid, hvalid'⟩
    · exact absurd (hs b).1 htag
    · have := (hs b).2 hvalid
      rw [hvalid'] at this
      cases this
  have hrefl : s.Stays s := fun b => ⟨rfl, id⟩
  cases e with
  | bread p dev n =>
    obtain ⟨b₁, cache, hget, rfl⟩ := step_bread hstep
    obtain ⟨-, -, rfl⟩ | ⟨-, hfree, rfl⟩ := h.listed.bget_cases hget
    · exact hstays (stays_setBuf (x := { s.buf b₁ with refcnt := (s.buf b₁).refcnt + 1 }) rfl rfl id)
    · by_cases hb : b = b₁
      · rw [hb]
        exact hfree
      · have hother := setBuf_ne s { s.buf b₁ with dev := dev, blockno := n, valid := false, refcnt := 1 } hb
        rcases hchange with htag | ⟨hvalid, hvalid'⟩
        · exact absurd (congrArg (fun x : Buf ι => (x.dev, x.blockno)) hother) htag
        · have hvalid' : (s.buf b).valid = false := (congrArg Buf.valid hother).symm.trans hvalid'
          rw [hvalid'] at hvalid
          cases hvalid
  | acquired p =>
    obtain ⟨-, -, b₁, -, -, rfl⟩ := step_acquired hstep
    refine hstays (stays_setBuf (b := b₁) (x := { s.buf b₁ with lock := some p, valid := true, data := _ }) rfl rfl ?_)
    exact fun _ => rfl
  | modify p b₁ data =>
    cases hstep
    exact hstays (stays_setBuf rfl rfl id)
  | bwrite p b₁ =>
    obtain ⟨-, rfl⟩ := step_bwrite hstep
    exact hstays hrefl
  | logWrite p b₁ =>
    obtain ⟨lh, -, ⟨-, rfl⟩ | ⟨-, rfl⟩⟩ := step_logWrite hstep
    · exact hstays hrefl
    · exact hstays (stays_setBuf (x := { s.buf b₁ with refcnt := (s.buf b₁).refcnt + 1 }) rfl rfl id)
  | bunpin b₁ =>
    cases hstep
    exact hstays (stays_setBuf rfl rfl id)
  | brelse p b₁ =>
    obtain ⟨-, rfl⟩ := step_brelse hstep
    exact hstays (stays_setBuf (x := { s.buf b₁ with lock := none }) rfl rfl id)
  | released p =>
    obtain ⟨b₁, -, rfl⟩ := step_released hstep
    refine hstays fun b' => ?_
    rw [tag, setCall_buf, unreference_buf]
    exact stays_setBuf (x := { s.buf b₁ with refcnt := (s.buf b₁).refcnt - 1 }) rfl rfl id b'
  | beginOp =>
    obtain ⟨-, rfl⟩ := step_beginOp hstep
    exact hstays hrefl
  | endOp =>
    obtain ⟨-, rfl⟩ := step_endOp hstep
    exact hstays hrefl
  | committed =>
    obtain rfl := step_committed hstep
    exact hstays hrefl

theorem Kept.intact (h : s.Kept a η) : s.Intact a := by
  obtain ⟨l, hring, hall⟩ := h.listed
  have hnodup : (none :: l).Nodup := hring.nodup
  have hmem : ∀ x, x ∈ none :: l := by
    rintro (_ | b)
    · exact List.mem_cons_self ..
    · exact List.mem_cons_of_mem _ (hall b)
  refine ⟨fun b b' hdev htag => ?_, ⟨l, hring, fun b => ?_⟩, fun x => ?_, fun dev n hfree => ?_, ?_⟩
  · obtain ⟨hd, hn⟩ := Prod.mk.inj htag
    exact h.unique b b' hdev hd hn
  · exact List.count_eq_one_of_mem (List.nodup_cons.1 hnodup).2 (hall b)
  · exact ⟨hring.prev_next (hmem x), hring.next_prev (hmem x)⟩
  · obtain ⟨⟨b, c⟩, hget⟩ := h.listed.bget_ok hfree
    refine ⟨b, c, hget, ?_⟩
    obtain ⟨hd, hn, rfl⟩ | ⟨-, -, rfl⟩ := h.listed.bget_cases hget
    · simp [Bcache.set, hd, hn]
    · simp [Bcache.set]
  · intro e s' b hstep hchange
    exact h.recycled hstep hchange

theorem Coherent.returns (hc : s.Coherent d η) (h : s.Kept a η) : s.Returns a η := by
  intro p dev n b hp hlock
  obtain ⟨hdev, hn⟩ := h.asked p dev n b hp
  have hfill := hc.fill h (h.used b (h.inside_pos hp))
  have hstep : s.step a (.acquired p) = .ok (some ((s.setBuf b { s.buf b with
      lock := some p, valid := true,
      data := if (s.buf b).valid then (s.buf b).data else s.disk (s.buf b).blockno }).setCall p none)) := by
    simp only [Bio.step, hp, hlock, if_true]
  refine ⟨_, hstep, ?_, ?_, ?_⟩
  · simp [tag, hdev, hn]
  · simp
  · simpa [hn] using hfill

end Bio

section

variable {ι : Type} [Fintype ι] [DecidableEq ι] {a : LogArea} {disk : BlockNo → Block} {s : Bio ι} {η : BioNotes}

theorem bioSystem_init (h : (bioSystem ι a disk).init s) (d : UInt32) :
    s.Kept a (.start disk) ∧ s.Coherent d (.start disk) := by
  obtain ⟨block, rfl⟩ := h
  constructor
  · refine ⟨Bcache.binit_listed, fun b => ?_, fun b b' hdev => absurd rfl hdev, fun b hpos => absurd hpos (by simp [Bcache.binit]),
      fun _ _ _ _ hc => (by cases hc), LogHeader.fits_empty _, fun _ hp => by cases hp⟩
    simp [Bio.references, Bio.inside, Weight.tally, Bcache.binit, BioNotes.start]
  · refine ⟨fun b hdev => absurd rfl hdev, fun _ hv => (by cases hv), fun n => .inl rfl, fun _ hu => (by cases hu),
      fun _ ht => (by cases ht), fun b hl => absurd rfl hl, ?_, fun hc => by cases hc⟩
    rintro n - ⟨i, hi, -⟩
    exact absurd hi (Nat.not_lt_zero i)

/-- In every disciplined run the cache is intact, and if the blocks are those of
one device then `bread` returns what was last stored. -/
theorem buffer_cache_coherent
    (h : (bioHistory ι a disk).Reaches (fun s e => s.1.Disciplined s.2 e) (s, η)) :
    s.Intact a ∧
      ∀ d, (bioHistory ι a disk).Reaches (fun s e => s.1.Disciplined s.2 e ∧ Bio.OnDevice d e) (s, η) →
        s.Returns a η := by
  constructor
  · have hkept : (s, η).1.Kept a (s, η).2 := by
      refine Lts.Reaches.invariant (P := fun s => s.1.Kept a s.2) ?_ ?_ h
      · rintro ⟨s, η⟩ ⟨hs, rfl⟩
        exact (bioSystem_init hs 0).1
      · rintro ⟨s, η⟩ e ⟨s', η'⟩ hk hd ⟨hstep, rfl⟩
        exact hk.step hd hstep
    exact hkept.intact
  · intro d h
    have hboth : (s, η).1.Kept a (s, η).2 ∧ (s, η).1.Coherent d (s, η).2 := by
      refine Lts.Reaches.invariant (P := fun s => s.1.Kept a s.2 ∧ s.1.Coherent d s.2) ?_ ?_ h
      · rintro ⟨s, η⟩ ⟨hs, rfl⟩
        exact bioSystem_init hs d
      · rintro ⟨s, η⟩ e ⟨s', η'⟩ ⟨hk, hc⟩ ⟨hd, hdev⟩ ⟨hstep, rfl⟩
        exact ⟨hk.step hd hstep, hc.step hk hd hdev hstep⟩
    exact hboth.2.returns hboth.1

omit [Fintype ι] in
theorem bioHistory_step {s s' : Bio ι × BioNotes} {e : BioEvent ι} (h : Bio.next a s e = some s') :
    (bioHistory ι a disk).step s e s' := by
  obtain ⟨s₁, hs₁, rfl⟩ := Option.map_eq_some_iff.1 h
  exact ⟨Except.toOption_eq_some_iff.1 (Option.join_eq_some_iff.1 hs₁), rfl⟩

end

local instance : NeZero nbuf := ⟨by decide⟩

/-- A block is logged, written to its home and unpinned, and another process
waits in `bread` for it. -/
theorem buffer_cache_coherent_of_commit : ∃ (s : Bio (Fin 2)) (η : BioNotes),
    (bioHistory (Fin 2) .mkfs fun _ _ => 0).Reaches (fun s e => s.1.Disciplined s.2 e) (s, η) ∧
      (η.stored 50 0 = 7 ∧ (s.calls 1).map BufCall.buf = some 0 ∧ η.pinned 0 = false) ∧ s.Intact .mkfs ∧ s.Returns .mkfs η := by
  have hrun : (Lts.replay (Bio.next .mkfs) (fun s e => s.1.Disciplined s.2 e ∧ Bio.OnDevice 1 e)
      ((⟨.binit, fun _ _ => 0, ⟨0, fun _ => 0⟩, 0, false, fun _ => none⟩, .start fun _ _ => 0) : Bio (Fin 2) × BioNotes)
      [.beginOp, .bread 0 1 50, .acquired 0, .modify 0 0 (fun _ => 7), .logWrite 0 0, .brelse 0 0, .released 0,
        .endOp, .bread 0 1 50, .acquired 0, .bwrite 0 0, .bunpin 0, .bread 1 1 50, .brelse 0 0, .released 0,
        .committed]).any
      (fun s => decide (s.2.stored 50 0 = 7 ∧ (s.1.calls 1).map BufCall.buf = some 0 ∧ s.2.pinned 0 = false)) = true := by
    decide +kernel
  obtain ⟨⟨s, η⟩, hs, hc⟩ := (Option.any_eq_true _ _).1 hrun
  have hreach := Lts.Reaches.of_replay (M := bioHistory (Fin 2) .mkfs fun _ _ => 0) (fun _ _ _ => bioHistory_step)
    (.init ⟨⟨_, rfl⟩, rfl⟩) hs
  obtain ⟨hintact, hreturns⟩ := buffer_cache_coherent (hreach.mono fun _ _ h => h.1)
  exact ⟨s, η, hreach.mono fun _ _ h => h.1, of_decide_eq_true hc, hintact, hreturns 1 hreach⟩

end Xv6
