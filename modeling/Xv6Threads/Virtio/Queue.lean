-- SUMMARY: The invariant of the virtio disk: whose descriptors, which chains the device has, and what each call may rely on.
import Xv6Threads.Virtio.Chains

/-!
# The invariant of the disk driver

`Owned` says whose the descriptors are and needs no more than the calls.
`Served` says how far the device is with a call: its chain is not yet published,
or the device has been asked, or has answered, or the handler has seen the
answer. `Invariant` puts the parts together.
-/

namespace Xv6.Virtio

variable {ι β : Type} {s s' : State ι β} {p q : ι} {c c' : Call β} {i j k n : Nat} {free free' : Nat → Bool}
  {call call' : ι → Option (Call β)}

/-! ## Descriptors -/

/-- The descriptors that a call has. -/
def Phase.Has : Phase → Nat → Prop
  | .allocating, _ => False
  | .publishing i j k, n => n = i ∨ n = j ∨ n = k
  | .submitted i j k, n => n = i ∨ n = j ∨ n = k

/-- The three are different. -/
def Phase.Distinct : Phase → Prop
  | .allocating => True
  | .publishing i j k => i ≠ j ∧ i ≠ k ∧ j ≠ k
  | .submitted i j k => i ≠ j ∧ i ≠ k ∧ j ≠ k

/-- Every descriptor is free or belongs to one call, and whoever sleeps for
descriptors sleeps because there are too few. -/
structure Owned (free : Nat → Bool) (call : ι → Option (Call β)) : Prop where
  distinct : ∀ p c, call p = some c → c.phase.Distinct
  used : ∀ p c n, call p = some c → c.phase.Has n → n < num ∧ free n = false
  apart : ∀ p q c c' n, call p = some c → call q = some c' → c.phase.Has n → c'.phase.Has n → p = q
  cover : ∀ n < num, free n = false → ∃ p c, call p = some c ∧ c.phase.Has n
  scarce : ∀ p c, call p = some c → c.phase = .allocating → c.awake = false → Scarce free

theorem Owned.rouse (h : Owned free call) (hr : Roused call call') : Owned free call' := by
  constructor
  · intro p c hc
    obtain ⟨c₀, hc₀, hcont⟩ := hr.before hc
    exact hcont.phase ▸ h.distinct p c₀ hc₀
  · intro p c n hc hn
    obtain ⟨c₀, hc₀, hcont⟩ := hr.before hc
    exact h.used p c₀ n hc₀ (hcont.phase ▸ hn)
  · intro p q c c' n hc hc' hn hn'
    obtain ⟨c₀, hc₀, hcont⟩ := hr.before hc
    obtain ⟨c₁, hc₁, hcont'⟩ := hr.before hc'
    exact h.apart p q c₀ c₁ n hc₀ hc₁ (hcont.phase ▸ hn) (hcont'.phase ▸ hn')
  · intro n hn hfree
    obtain ⟨p, c, hc, hhas⟩ := h.cover n hn hfree
    obtain ⟨c', hc', hcont⟩ := hr.after hc
    exact ⟨p, c', hc', hcont.phase ▸ hhas⟩
  · intro p c hc hph hsleep
    obtain ⟨c₀, hc₀, hcont⟩ := hr.before hc
    exact h.scarce p c₀ hc₀ (hcont.phase ▸ hph) (hcont.sleeps hsleep)

theorem Scarce.mono (h : Scarce free) (hf : ∀ n, free' n = true → free n = true) : Scarce free' :=
  fun i j k hi hj hk h₁ h₂ h₃ => h i j k hi hj hk (hf i h₁) (hf j h₂) (hf k h₃)

/-- `p` has the descriptor `n`. -/
def HasAt (call : ι → Option (Call β)) (p : ι) (n : Nat) : Prop := ∃ c, call p = some c ∧ c.phase.Has n

/-- The call of `p` begins, goes on or ends: what it had before is free or is
still its own, and what it has now it had before or was free. -/
theorem Owned.replace (h : Owned free call) (hothers : ∀ q, q ≠ p → call' q = call q)
    (hfree : ∀ n, free' n = true ↔ (free n = true ∨ HasAt call p n) ∧ ¬ HasAt call' p n)
    (hnew : ∀ n, HasAt call' p n → n < num ∧ (free n = true ∨ HasAt call p n))
    (hdist : ∀ c, call' p = some c → c.phase.Distinct)
    (hscarce : ∀ q c, call' q = some c → c.phase = .allocating → c.awake = false → Scarce free') : Owned free' call' := by
  have hfalse : ∀ n, free' n = false ↔ ¬((free n = true ∨ HasAt call p n) ∧ ¬ HasAt call' p n) := by
    intro n
    rw [← hfree n, Bool.not_eq_true]
  constructor
  · intro q c hc
    by_cases hq : q = p
    · subst hq
      exact hdist c hc
    · exact h.distinct q c (hothers q hq ▸ hc)
  · intro q c n hc hn
    by_cases hq : q = p
    · subst hq
      exact ⟨(hnew n ⟨c, hc, hn⟩).1, (hfalse n).2 fun hcon => hcon.2 ⟨c, hc, hn⟩⟩
    · rw [hothers q hq] at hc
      obtain ⟨hlt, hf⟩ := h.used q c n hc hn
      refine ⟨hlt, (hfalse n).2 ?_⟩
      rintro ⟨hf' | ⟨d, hd, hn'⟩, -⟩
      · simp [hf] at hf'
      · exact hq (h.apart q p c d n hc hd hn hn')
  · -- what is new for `p` was not another call's
    have hmine : ∀ q c n, q ≠ p → call q = some c → c.phase.Has n → ¬ HasAt call' p n := by
      intro q c n hq hc hn hp
      rcases (hnew n hp).2 with hf | ⟨d, hd, hn'⟩
      · simp [(h.used q c n hc hn).2] at hf
      · exact hq (h.apart q p c d n hc hd hn hn')
    intro q r c d n hc hd hn hn'
    by_cases hq : q = p
    · by_cases hr : r = p
      · exact hq.trans hr.symm
      · exact absurd ⟨c, hq ▸ hc, hn⟩ (hmine r d n hr (hothers r hr ▸ hd) hn')
    · by_cases hr : r = p
      · exact absurd ⟨d, hr ▸ hd, hn'⟩ (hmine q c n hq (hothers q hq ▸ hc) hn)
      · exact h.apart q r c d n (hothers q hq ▸ hc) (hothers r hr ▸ hd) hn hn'
  · intro n hn hf
    by_cases hp : HasAt call' p n
    · exact ⟨p, hp⟩
    · have hnot : ¬(free n = true ∨ HasAt call p n) := fun hcon => (hfalse n).1 hf ⟨hcon, hp⟩
      obtain ⟨hf', hnot⟩ := not_or.1 hnot
      obtain ⟨q, c, hc, hn'⟩ := h.cover n hn (by simpa using hf')
      have hq : q ≠ p := by
        rintro rfl
        exact hnot ⟨c, hc, hn'⟩
      exact ⟨q, c, (hothers q hq).trans hc, hn'⟩
  · exact hscarce

section

variable [DecidableEq ι]

theorem update_others {o : Option (Call β)} (q : ι) (hq : q ≠ p) : Function.update call p o q = call q :=
  Function.update_of_ne hq ..

/-- The call of `p` goes on with the descriptors that it had. -/
theorem Owned.update (h : Owned free call) (hc : call p = some c) (hhas : ∀ n, c'.phase.Has n ↔ c.phase.Has n)
    (hdist : c.phase.Distinct → c'.phase.Distinct)
    (hsleep : c'.phase = .allocating → c'.awake = false → Scarce free) :
    Owned free (Function.update call p (some c')) := by
  have hsame : ∀ n, HasAt (Function.update call p (some c')) p n ↔ HasAt call p n := by
    intro n
    simp [HasAt, hc, hhas n]
  refine h.replace update_others ?_ ?_ ?_ ?_
  · intro n
    rw [hsame n]
    constructor
    · intro hf
      refine ⟨.inl hf, ?_⟩
      rintro ⟨d, hd, hn⟩
      simp [(h.used p d n hd hn).2] at hf
    · rintro ⟨hf | hhas, hnot⟩
      · exact hf
      · exact absurd hhas hnot
  · rintro n hn
    obtain ⟨d, hd, hn'⟩ := (hsame n).1 hn
    exact ⟨(h.used p d n hd hn').1, .inr ⟨d, hd, hn'⟩⟩
  · intro d hd
    rw [Function.update_self] at hd
    obtain rfl := Option.some.inj hd
    exact hdist (h.distinct p c hc)
  · intro q d hd hph hasleep
    by_cases hq : q = p
    · subst hq
      rw [Function.update_self] at hd
      obtain rfl := Option.some.inj hd
      exact hsleep hph hasleep
    · exact h.scarce q d ((update_others q hq).symm.trans hd) hph hasleep

/-- A call without descriptors is added. -/
theorem Owned.add (h : Owned free call) (hp : call p = none) (hc : c.phase = .allocating) (hawake : c.awake = true) :
    Owned free (Function.update call p (some c)) := by
  have hnone : ∀ n, ¬ HasAt (Function.update call p (some c)) p n := by
    intro n
    simp [HasAt, hc, Phase.Has]
  have hbefore : ∀ n, ¬ HasAt call p n := by simp [HasAt, hp]
  refine h.replace update_others ?_ ?_ ?_ ?_
  · intro n
    simp [hnone n, hbefore n]
  · intro n hn
    exact absurd hn (hnone n)
  · intro d hd
    rw [Function.update_self] at hd
    obtain rfl := Option.some.inj hd
    simp [hc, Phase.Distinct]
  · intro q d hd hph hasleep
    by_cases hq : q = p
    · subst hq
      rw [Function.update_self] at hd
      obtain rfl := Option.some.inj hd
      simp [hawake] at hasleep
    · exact h.scarce q d ((update_others q hq).symm.trans hd) hph hasleep

/-- A call takes three free descriptors. -/
theorem Owned.take (h : Owned free call) (hc : call p = some c) (hph : c.phase = .allocating)
    (hlt : i < num ∧ j < num ∧ k < num) (hne : i ≠ j ∧ i ≠ k ∧ j ≠ k)
    (hfree : free i = true ∧ free j = true ∧ free k = true) (hc' : c'.phase = .publishing i j k)
    (hfree' : ∀ n, free' n = true ↔ free n = true ∧ n ≠ i ∧ n ≠ j ∧ n ≠ k) :
    Owned free' (Function.update call p (some c')) := by
  have hhas : ∀ n, HasAt (Function.update call p (some c')) p n ↔ n = i ∨ n = j ∨ n = k := by
    intro n
    simp [HasAt, hc', Phase.Has]
  have hnone : ∀ n, ¬ HasAt call p n := by
    intro n
    simp [HasAt, hc, hph, Phase.Has]
  refine h.replace update_others ?_ ?_ ?_ ?_
  · intro n
    simp [hfree' n, hhas n, hnone n]
  · intro n hn
    rcases (hhas n).1 hn with rfl | rfl | rfl
    · exact ⟨hlt.1, .inl hfree.1⟩
    · exact ⟨hlt.2.1, .inl hfree.2.1⟩
    · exact ⟨hlt.2.2, .inl hfree.2.2⟩
  · intro d hd
    rw [Function.update_self] at hd
    obtain rfl := Option.some.inj hd
    simpa [hc', Phase.Distinct] using hne
  · intro q d hd hph' hasleep
    by_cases hq : q = p
    · subst hq
      rw [Function.update_self] at hd
      obtain rfl := Option.some.inj hd
      simp [hc'] at hph'
    · exact (h.scarce q d ((update_others q hq).symm.trans hd) hph' hasleep).mono fun n hn => ((hfree' n).1 hn).1

/-- A call gives its descriptors back and ends; nobody sleeps for descriptors. -/
theorem Owned.give (h : Owned free call) (hc : call p = some c) (hfree : ∀ n, free' n = true ↔ free n = true ∨ c.phase.Has n)
    (hawake : ∀ q d, call q = some d → d.phase = .allocating → d.awake = true) :
    Owned free' (Function.update call p none) := by
  have hnone : ∀ n, ¬ HasAt (Function.update call p none) p n := by
    intro n
    simp [HasAt]
  have hbefore : ∀ n, HasAt call p n ↔ c.phase.Has n := by simp [HasAt, hc]
  refine h.replace update_others ?_ ?_ ?_ ?_
  · intro n
    simp [hfree n, hnone n, hbefore n]
  · intro n hn
    exact absurd hn (hnone n)
  · intro d hd
    simp at hd
  · intro q d hd hph hasleep
    by_cases hq : q = p
    · subst hq
      simp at hd
    · simp [hawake q d ((update_others q hq).symm.trans hd) hph] at hasleep

end

/-! ## Chains in the rings -/

namespace State

/-- Chains that the device has not yet fetched. -/
def available (s : State ι β) : List Nat :=
  Fifo.contents num (2 ^ 16) s.disk.avail.ring s.last.toNat s.disk.avail.idx.toNat

/-- Chains that the device has returned and the handler has not yet seen. -/
def returned (s : State ι β) : List Nat :=
  Fifo.contents num (2 ^ 16) s.disk.used.ring s.disk.usedIdx.toNat s.disk.used.idx.toNat

/-- Chains that the device has yet to carry out. -/
def asked (s : State ι β) : List Nat := s.available ++ s.fetched

/-- Chains that the device has carried out. -/
def answered (s : State ι β) : List Nat := s.performed ++ s.returned

/-- What the device has done with the buffer of a call since the call began. -/
def entries [DecidableEq β] (s : State ι β) (c : Call β) : List (Entry β) := (s.log.drop c.start).filter fun e => e.b = c.b

end State

/-! ## Calls -/

/-- The chain of `c` is set up for the device. -/
structure Formatted (s : State ι β) (c : Call β) (i j k : Nat) : Prop where
  first : s.disk.desc i = ⟨.op i, 16, fNext, j⟩
  second : s.disk.desc j = ⟨.data c.b, bsize, (if c.write then 0 else fWrite) ||| fNext, k⟩
  third : s.disk.desc k = ⟨.status i, 1, fWrite, 0⟩
  op : s.disk.ops i = ⟨if c.write then blkOut else blkIn, 0, State.sectorOf (s.bufs c.b).blockno⟩
  info : (s.disk.info i).b = some c.b

variable [DecidableEq β]

/-- The device has done nothing for the call. -/
def Untouched (s : State ι β) (c : Call β) : Prop := s.entries c = [] ∧ (s.bufs c.b).data = c.given

/-- The device has done once what the call asks for. -/
def Answered (s : State ι β) (c : Call β) : Prop :=
  s.entries c = [⟨c.b, c.write, State.sectorOf (s.bufs c.b).blockno, (s.bufs c.b).data⟩] ∧
    (c.write = true → (s.bufs c.b).data = c.given)

/-- How far the device is with a call. -/
inductive Served (s : State ι β) (c : Call β) : Prop
  | allocating : c.phase = .allocating → Untouched s c → Served s c
  | publishing {i j k : Nat} : c.phase = .publishing i j k → Formatted s c i j k → (s.bufs c.b).disk = true →
      i ∉ s.asked → i ∉ s.answered → Untouched s c → Served s c
  | asked {i j k : Nat} : c.phase = .submitted i j k → Formatted s c i j k → (s.bufs c.b).disk = true →
      i ∈ s.asked → Untouched s c → Served s c
  | answered {i j k : Nat} : c.phase = .submitted i j k → Formatted s c i j k → (s.bufs c.b).disk = true →
      i ∈ s.answered → (s.disk.info i).status = 0 → Answered s c → Served s c
  | done {i j k : Nat} : c.phase = .submitted i j k → Formatted s c i j k → (s.bufs c.b).disk = false →
      c.awake = true → i ∉ s.asked → i ∉ s.answered → Answered s c → Served s c

/-- What the call `c` relies on is the same in `s'`. -/
structure Same (s s' : State ι β) (c : Call β) : Prop where
  buf : s'.bufs c.b = s.bufs c.b
  disk : ∀ n, c.phase.Has n → s'.disk.desc n = s.disk.desc n ∧ s'.disk.ops n = s.disk.ops n ∧ s'.disk.info n = s.disk.info n
  queue : ∀ n, c.phase.Has n → (n ∈ s'.asked ↔ n ∈ s.asked) ∧ (n ∈ s'.answered ↔ n ∈ s.answered)
  entries : s'.entries c = s.entries c

theorem Formatted.congr (h : Formatted s c i j k) (hs : Same s s' c) (hc : Continues c c')
    (hhas : ∀ n, c.phase.Has n ↔ n = i ∨ n = j ∨ n = k) : Formatted s' c' i j k := by
  obtain ⟨hdi, hoi, hii⟩ := hs.disk i ((hhas i).2 (.inl rfl))
  obtain ⟨hdj, -, -⟩ := hs.disk j ((hhas j).2 (.inr (.inl rfl)))
  obtain ⟨hdk, -, -⟩ := hs.disk k ((hhas k).2 (.inr (.inr rfl)))
  constructor
  · exact hdi.trans h.first
  · rw [hdj, h.second, hc.b, hc.write]
  · exact hdk.trans h.third
  · rw [hoi, h.op, hc.b, hc.write, hs.buf]
  · rw [hii, h.info, hc.b]

theorem Untouched.congr (h : Untouched s c) (hs : Same s s' c) (hc : Continues c c') : Untouched s' c' := by
  have hentries : s'.entries c' = s'.entries c := by simp [State.entries, hc.b, hc.start]
  refine ⟨(hentries.trans hs.entries).trans h.1, ?_⟩
  rw [hc.b, hc.given, hs.buf, h.2]

theorem Answered.congr (h : Answered s c) (hs : Same s s' c) (hc : Continues c c') : Answered s' c' := by
  have hentries : s'.entries c' = s'.entries c := by simp [State.entries, hc.b, hc.start]
  refine ⟨?_, ?_⟩
  · rw [hentries, hs.entries, h.1, hc.b, hc.write, hs.buf]
  · rw [hc.b, hc.given, hc.write, hs.buf]
    exact h.2

/-- A step that does not touch what a call relies on leaves the call where it is. -/
theorem Served.congr (h : Served s c) (hs : Same s s' c) (hc : Continues c c') : Served s' c' := by
  cases h with
  | allocating hph hun => exact .allocating (hc.phase.trans hph) (hun.congr hs hc)
  | @publishing i j k hph hf hdisk hask hans hun =>
    have hhas : ∀ n, c.phase.Has n ↔ n = i ∨ n = j ∨ n = k := by simp [hph, Phase.Has]
    obtain ⟨hask', hans'⟩ := hs.queue i ((hhas i).2 (.inl rfl))
    exact .publishing (hc.phase.trans hph) (hf.congr hs hc hhas) (by rw [hc.b, hs.buf, hdisk]) (mt hask'.1 hask)
      (mt hans'.1 hans) (hun.congr hs hc)
  | @asked i j k hph hf hdisk hask hun =>
    have hhas : ∀ n, c.phase.Has n ↔ n = i ∨ n = j ∨ n = k := by simp [hph, Phase.Has]
    obtain ⟨hask', -⟩ := hs.queue i ((hhas i).2 (.inl rfl))
    exact .asked (hc.phase.trans hph) (hf.congr hs hc hhas) (by rw [hc.b, hs.buf, hdisk]) (hask'.2 hask) (hun.congr hs hc)
  | @answered i j k hph hf hdisk hans hst hdone =>
    have hhas : ∀ n, c.phase.Has n ↔ n = i ∨ n = j ∨ n = k := by simp [hph, Phase.Has]
    obtain ⟨-, hans'⟩ := hs.queue i ((hhas i).2 (.inl rfl))
    obtain ⟨-, -, hii⟩ := hs.disk i ((hhas i).2 (.inl rfl))
    exact .answered (hc.phase.trans hph) (hf.congr hs hc hhas) (by rw [hc.b, hs.buf, hdisk]) (hans'.2 hans)
      (by rw [hii, hst]) (hdone.congr hs hc)
  | @done i j k hph hf hdisk hawake hask hans hdone =>
    have hhas : ∀ n, c.phase.Has n ↔ n = i ∨ n = j ∨ n = k := by simp [hph, Phase.Has]
    obtain ⟨hask', hans'⟩ := hs.queue i ((hhas i).2 (.inl rfl))
    have hawake' : c'.awake = true := by
      by_contra hne
      simp [hc.sleeps (by simpa using hne)] at hawake
    exact .done (hc.phase.trans hph) (hf.congr hs hc hhas) (by rw [hc.b, hs.buf, hdisk]) hawake' (mt hask'.1 hask)
      (mt hans'.1 hans) (hdone.congr hs hc)

/-! ## The record of the device -/

/-- What a request does to the disk. -/
def Entry.apply (m : Nat → UInt8) (e : Entry β) : Nat → UInt8 :=
  if e.write then State.store m e.sector bsize e.data else m

/-- Every request in the record has read what the requests before it had left. -/
def Consistent : (Nat → UInt8) → List (Entry β) → Prop
  | _, [] => True
  | m, e :: es => (e.write = false → ∀ n < bsize, e.data n = m (e.sector * 512 + n)) ∧ Consistent (e.apply m) es

omit [DecidableEq β] in
theorem Consistent.append {m : Nat → UInt8} {es : List (Entry β)} {e : Entry β} (h : Consistent m es)
    (he : e.write = false → ∀ n < bsize, e.data n = es.foldl Entry.apply m (e.sector * 512 + n)) :
    Consistent m (es ++ [e]) := by
  induction es generalizing m with
  | nil => exact ⟨he, trivial⟩
  | cons e' es ih => exact ⟨h.1, ih h.2 he⟩

/-! ## Everything together -/

structure Invariant (m : Nat → UInt8) (s : State ι β) : Prop where
  owned : Owned s.disk.free s.call
  buffers : ∀ p q c c', s.call p = some c → s.call q = some c' → c.b = c'.b → p = q
  served : ∀ p c, s.call p = some c → Served s c
  start : ∀ p c, s.call p = some c → c.start ≤ s.log.length
  nodup : (s.asked ++ s.answered).Nodup
  heads : ∀ i ∈ s.asked ++ s.answered, ∃ p c j k, s.call p = some c ∧ c.phase = .submitted i j k
  publishing : ∀ p c i j k, s.call p = some c → c.phase = .publishing i j k → s.lock = .proc p
  holder : ∀ p, s.lock = .proc p → ∃ c i j k, s.call p = some c ∧ c.phase = .publishing i j k ∧
    s.disk.avail.ring (s.disk.avail.idx.toNat % num) = i
  noticed : s.disk.usedIdx ≠ s.disk.used.idx → s.pending = true ∨ s.lock = .handler
  consistent : Consistent m s.log
  content : s.content = s.log.foldl Entry.apply m

end Xv6.Virtio
