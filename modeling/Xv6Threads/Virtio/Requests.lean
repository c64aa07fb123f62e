-- SUMMARY: Every step of the driver, the handler and the device keeps the invariant, and none of them goes wrong.
import Mathlib.Data.List.Nodup
import Mathlib.Data.Fintype.Card
import Mathlib.Tactic.Tauto
import Xv6Threads.Virtio.Queue

/-!
# Steps of the disk

One lemma for each step of the system. The steps that can go wrong are shown to
end in a state, in which the invariant holds.
-/

namespace Xv6.Virtio

variable {ι β : Type} [DecidableEq β] {s s' : State ι β} {p q : ι} {c c' : Call β} {i j k n : Nat}
  {m : Nat → UInt8} {call' : ι → Option (Call β)} {b : β}

/-! ## Counting -/

theorem length_le_of_nodup {l : List Nat} (h : l.Nodup) (hlt : ∀ x ∈ l, x < n) : l.length ≤ n := by
  have hsub : l ⊆ List.range n := fun x hx => List.mem_range.2 (hlt x hx)
  simpa using (List.subperm_of_subset h hsub).length_le

theorem toNat_succ (x : UInt16) : (x + 1).toNat = (x.toNat + 1) % 2 ^ 16 := by
  rw [UInt16.toNat_add]
  rfl

theorem toNat_lt (x : UInt16) : x.toNat < 2 ^ 16 := x.toNat_lt

namespace Invariant

theorem lt_num (h : Invariant m s) (hi : i ∈ s.asked ++ s.answered) : i < num := by
  obtain ⟨p, c, j, k, hc, hph⟩ := h.heads i hi
  exact (h.owned.used p c i hc (by simp [hph, Phase.Has])).1

theorem length_le (h : Invariant m s) : (s.asked ++ s.answered).length ≤ num :=
  length_le_of_nodup h.nodup fun _ => h.lt_num

/-- A chain that the device does not have leaves room in the rings. -/
theorem length_lt (h : Invariant m s) (hi : i < num) (hnot : i ∉ s.asked ++ s.answered) :
    (s.asked ++ s.answered).length < num := by
  have hnodup : (i :: (s.asked ++ s.answered)).Nodup := List.nodup_cons.2 ⟨hnot, h.nodup⟩
  apply length_le_of_nodup hnodup
  intro x hx
  rcases List.mem_cons.1 hx with rfl | hx
  · exact hi
  · exact h.lt_num hx

theorem disjoint (h : Invariant m s) (hi : i ∈ s.asked) : i ∉ s.answered :=
  fun hi' => (List.nodup_append.1 h.nodup).2.2 i hi i hi' rfl

/-- A chain that the device has yet to carry out. -/
theorem of_asked (h : Invariant m s) (hi : i ∈ s.asked) :
    ∃ p c j k, s.call p = some c ∧ c.phase = .submitted i j k ∧ Formatted s c i j k ∧ (s.bufs c.b).disk = true ∧
      Untouched s c := by
  obtain ⟨p, c, j, k, hc, hph⟩ := h.heads i (List.mem_append_left _ hi)
  refine ⟨p, c, j, k, hc, hph, ?_⟩
  cases h.served p c hc with
  | allocating hph' => simp [hph] at hph'
  | publishing hph' => simp [hph] at hph'
  | asked hph' hf hdisk _ hun =>
    obtain ⟨rfl, rfl, rfl⟩ := Phase.submitted.inj (hph.symm.trans hph')
    exact ⟨hf, hdisk, hun⟩
  | answered hph' _ _ hans =>
    obtain ⟨rfl, rfl, rfl⟩ := Phase.submitted.inj (hph.symm.trans hph')
    exact absurd hans (h.disjoint hi)
  | done hph' _ _ _ hask =>
    obtain ⟨rfl, rfl, rfl⟩ := Phase.submitted.inj (hph.symm.trans hph')
    exact absurd hi hask

/-- A chain that the device has carried out. -/
theorem of_answered (h : Invariant m s) (hi : i ∈ s.answered) :
    ∃ p c j k, s.call p = some c ∧ c.phase = .submitted i j k ∧ Formatted s c i j k ∧ (s.bufs c.b).disk = true ∧
      (s.disk.info i).status = 0 ∧ Answered s c := by
  obtain ⟨p, c, j, k, hc, hph⟩ := h.heads i (List.mem_append_right _ hi)
  refine ⟨p, c, j, k, hc, hph, ?_⟩
  cases h.served p c hc with
  | allocating hph' => simp [hph] at hph'
  | publishing hph' => simp [hph] at hph'
  | asked hph' _ _ hask =>
    obtain ⟨rfl, rfl, rfl⟩ := Phase.submitted.inj (hph.symm.trans hph')
    exact absurd hi (h.disjoint hask)
  | answered hph' hf hdisk _ hst hdone =>
    obtain ⟨rfl, rfl, rfl⟩ := Phase.submitted.inj (hph.symm.trans hph')
    exact ⟨hf, hdisk, hst, hdone⟩
  | done hph' _ _ _ _ hans =>
    obtain ⟨rfl, rfl, rfl⟩ := Phase.submitted.inj (hph.symm.trans hph')
    exact absurd hi hans

end Invariant

/-! ## Calls -/

theorem Same.of_eq (hb : s'.bufs c.b = s.bufs c.b) (hd : s'.disk = s.disk) (hl : s'.last = s.last)
    (hf : s'.fetched = s.fetched) (hp : s'.performed = s.performed) (hlog : s'.log = s.log) : Same s s' c := by
  have hask : s'.asked = s.asked := by simp [State.asked, State.available, hd, hl, hf]
  have hans : s'.answered = s.answered := by simp [State.answered, State.returned, hd, hp]
  exact ⟨hb, fun n _ => by simp [hd], fun n _ => by simp [hask, hans], by simp [State.entries, hlog]⟩

/-- Calls are woken. -/
theorem Invariant.rouse (h : Invariant m s) (hr : Roused s.call call') : Invariant m { s with call := call' } where
  owned := h.owned.rouse hr
  buffers p q c c' hc hc' hb := by
    obtain ⟨c₀, hc₀, hcont⟩ := hr.before hc
    obtain ⟨c₁, hc₁, hcont'⟩ := hr.before hc'
    exact h.buffers p q c₀ c₁ hc₀ hc₁ (by rw [← hcont.b, ← hcont'.b, hb])
  served p c hc := by
    obtain ⟨c₀, hc₀, hcont⟩ := hr.before hc
    exact (h.served p c₀ hc₀).congr (.of_eq rfl rfl rfl rfl rfl rfl) hcont
  start p c hc := by
    obtain ⟨c₀, hc₀, hcont⟩ := hr.before hc
    exact hcont.start ▸ h.start p c₀ hc₀
  nodup := h.nodup
  heads i hi := by
    obtain ⟨p, c, j, k, hc, hph⟩ := h.heads i hi
    obtain ⟨c', hc', hcont⟩ := hr.after hc
    exact ⟨p, c', j, k, hc', hcont.phase.trans hph⟩
  publishing p c i j k hc hph := by
    obtain ⟨c₀, hc₀, hcont⟩ := hr.before hc
    exact h.publishing p c₀ i j k hc₀ (hcont.phase ▸ hph)
  holder p hp := by
    obtain ⟨c, i, j, k, hc, hph, hring⟩ := h.holder p hp
    obtain ⟨c', hc', hcont⟩ := hr.after hc
    exact ⟨c', i, j, k, hc', hcont.phase.trans hph, hring⟩
  noticed := h.noticed
  consistent := h.consistent
  content := h.content

/-- A buffer that no call uses is changed. -/
theorem Invariant.edit (h : Invariant m s) (hb : ¬ s.Busy b) (buf : Buf) :
    Invariant m { s with bufs := Function.update s.bufs b buf } where
  owned := h.owned
  buffers := h.buffers
  served p c hc := by
    have hne : c.b ≠ b := fun heq => hb ⟨p, c, hc, heq⟩
    exact (h.served p c hc).congr (.of_eq (Function.update_of_ne hne ..) rfl rfl rfl rfl rfl) (.refl c)
  start := h.start
  nodup := h.nodup
  heads := h.heads
  publishing := h.publishing
  holder := h.holder
  noticed := h.noticed
  consistent := h.consistent
  content := h.content

/-! ## The interrupt handler -/

/-- With the lock free no call is publishing. -/
theorem Invariant.not_publishing (h : Invariant m s) (hlock : ∀ p, s.lock ≠ .proc p) (hc : s.call p = some c) :
    c.phase ≠ .publishing i j k := fun hph => hlock p (h.publishing p c i j k hc hph)

theorem Invariant.interrupt (h : Invariant m s) (hlock : s.lock = .free) :
    Invariant m { s with pending := false, lock := .handler } where
  owned := h.owned
  buffers := h.buffers
  served p c hc := (h.served p c hc).congr (.of_eq rfl rfl rfl rfl rfl rfl) (.refl c)
  start := h.start
  nodup := h.nodup
  heads := h.heads
  publishing p c i j k hc hph := absurd hph (h.not_publishing (by simp [hlock]) hc)
  holder p hp := by cases hp
  noticed _ := .inr rfl
  consistent := h.consistent
  content := h.content

theorem Invariant.leave (h : Invariant m s) (hlock : s.lock = .handler) (hend : s.disk.usedIdx = s.disk.used.idx) :
    Invariant m { s with lock := .free } where
  owned := h.owned
  buffers := h.buffers
  served p c hc := (h.served p c hc).congr (.of_eq rfl rfl rfl rfl rfl rfl) (.refl c)
  start := h.start
  nodup := h.nodup
  heads := h.heads
  publishing p c i j k hc hph := absurd hph (h.not_publishing (by simp [hlock]) hc)
  holder p hp := by cases hp
  noticed hne := absurd hend hne
  consistent := h.consistent
  content := h.content

theorem wakeupBuf_call (hc : s.call p = some c) (hph : c.phase ≠ .allocating) (hb : c.b = b) :
    (s.wakeupBuf b).call p = some { c with awake := true } := by
  simp [State.wakeupBuf, hc, hph, hb]

/-- The handler has seen that the device is done with `b`. -/
def State.see (s : State ι β) (b : β) : State ι β :=
  { s with
    bufs := Function.update s.bufs b { s.bufs b with disk := false }
    call := (s.wakeupBuf b).call
    disk := { s.disk with usedIdx := s.disk.usedIdx + 1 } }

theorem Invariant.see (h : Invariant m s) (hlock : s.lock = .handler)
    (hpop : s.returned = i :: (s.see b).returned) (hc : s.call p = some c) (hph : c.phase = .submitted i j k)
    (hb : c.b = b) (hf : Formatted s c i j k) (hans : Answered s c) : Invariant m (s.see b) := by
  subst hb
  have hr : Roused s.call (s.see c.b).call := roused_wakeupBuf s c.b
  have hanswered : s.answered = s.performed ++ i :: (s.see c.b).returned := by rw [State.answered, hpop]
  have hanswered' : (s.see c.b).answered = s.performed ++ (s.see c.b).returned := rfl
  have hnodup : (s.asked ++ (s.performed ++ i :: (s.see c.b).returned)).Nodup := hanswered ▸ h.nodup
  have hperm : (s.asked ++ (s.performed ++ i :: (s.see c.b).returned)).Perm
      (i :: (s.asked ++ (s.performed ++ (s.see c.b).returned))) := by
    rw [← List.append_assoc, ← List.append_assoc]
    exact List.perm_middle
  have hnodup' := List.nodup_cons.1 (hperm.nodup_iff.1 hnodup)
  have hi : i ∉ s.asked ++ (s.see c.b).answered := hnodup'.1
  constructor
  · exact h.owned.rouse hr
  · intro q r d e hd he hde
    obtain ⟨d₀, hd₀, hcont⟩ := hr.before hd
    obtain ⟨e₀, he₀, hcont'⟩ := hr.before he
    exact h.buffers q r d₀ e₀ hd₀ he₀ (by rw [← hcont.b, ← hcont'.b, hde])
  · intro q d hd
    obtain ⟨d₀, hd₀, hcont⟩ := hr.before hd
    by_cases hq : q = p
    · subst hq
      obtain rfl : c = d₀ := Option.some.inj (hc.symm.trans hd₀)
      have hwake : (s.see c.b).call q = some { c with awake := true } := wakeupBuf_call hc (by simp [hph]) rfl
      obtain rfl : { c with awake := true } = d := Option.some.inj (hwake.symm.trans hd)
      refine .done hph ?_ ?_ rfl ?_ ?_ ?_
      · exact ⟨hf.first, hf.second, hf.third, by simpa [State.see] using hf.op, hf.info⟩
      · simp [State.see]
      · exact fun hmem => hi (List.mem_append_left _ hmem)
      · exact fun hmem => hi (List.mem_append_right _ hmem)
      · have hentries : (s.see c.b).entries { c with awake := true } = s.entries c := rfl
        exact ⟨by rw [hentries, hans.1]; simp [State.see], by simpa [State.see] using hans.2⟩
    · have hne : d₀.b ≠ c.b := fun heq => hq (h.buffers q p d₀ c hd₀ hc heq)
      refine (h.served q d₀ hd₀).congr ⟨Function.update_of_ne hne .., fun n _ => ⟨rfl, rfl, rfl⟩, ?_, rfl⟩ hcont
      intro n hn
      have hni : n ≠ i := by
        rintro rfl
        exact hq (h.owned.apart q p d₀ c n hd₀ hc hn (by simp [hph, Phase.Has]))
      exact ⟨Iff.rfl, by simp [hanswered, hanswered', hni]⟩
  · intro q d hd
    obtain ⟨d₀, hd₀, hcont⟩ := hr.before hd
    exact hcont.start ▸ h.start q d₀ hd₀
  · exact hnodup'.2
  · intro x hx
    have hx' : x ∈ s.asked ++ s.answered := by
      rw [hanswered]
      exact hperm.mem_iff.2 (List.mem_cons_of_mem i hx)
    obtain ⟨q, d, j, k, hd, hph⟩ := h.heads x hx'
    obtain ⟨d', hd', hcont⟩ := hr.after hd
    exact ⟨q, d', j, k, hd', hcont.phase.trans hph⟩
  · intro q d i j k hd hph
    obtain ⟨d₀, hd₀, hcont⟩ := hr.before hd
    exact absurd (hcont.phase ▸ hph) (h.not_publishing (by simp [hlock]) hd₀)
  · intro q hq
    simp [State.see, hlock] at hq
  · exact fun _ => .inr hlock
  · exact h.consistent
  · exact h.content

theorem Invariant.handle (h : Invariant m s) (hlock : s.lock = .handler) :
    ∃ s', s.handle = .ok s' ∧ Invariant m s' := by
  by_cases hend : s.disk.usedIdx = s.disk.used.idx
  · exact ⟨_, if_pos hend, h.leave hlock hend⟩
  · -- the chain that the handler sees next
    have hne : s.disk.usedIdx.toNat ≠ s.disk.used.idx.toNat := fun heq => hend (UInt16.toNat_inj.1 heq)
    obtain ⟨id, hid⟩ : ∃ id, id = s.disk.used.ring (s.disk.usedIdx.toNat % num) := ⟨_, rfl⟩
    have hpop : s.returned = id :: Fifo.contents num (2 ^ 16) s.disk.used.ring
        ((s.disk.usedIdx.toNat + 1) % 2 ^ 16) s.disk.used.idx.toNat :=
      hid ▸ Fifo.contents_pop (by decide) (toNat_lt _) (toNat_lt _) hne
    have hmem : id ∈ s.answered := by simp [State.answered, hpop]
    obtain ⟨p, c, j, k, hc, hph, hf, hdisk, hst, hans⟩ := h.of_answered hmem
    refine ⟨s.see c.b, ?_, h.see hlock ?_ hc hph rfl hf hans⟩
    · simp only [State.handle, if_neg hend, ← hid, hst, hf.info]
      rfl
    · rw [hpop]
      simp only [State.see, State.returned, toNat_succ]

/-! ## The device -/

/-- Chains move inside the queues. -/
theorem Invariant.move (h : Invariant m s) (hcall : s'.call = s.call) (hbufs : s'.bufs = s.bufs) (hlock : s'.lock = s.lock)
    (hlog : s'.log = s.log) (hcontent : s'.content = s.content) (havail : s'.disk.avail = s.disk.avail)
    (hdisk : s'.disk.free = s.disk.free ∧ s'.disk.desc = s.disk.desc ∧ s'.disk.ops = s.disk.ops ∧ s'.disk.info = s.disk.info)
    (hask : s'.asked.Perm s.asked) (hans : s'.answered.Perm s.answered)
    (hnoticed : s'.disk.usedIdx ≠ s'.disk.used.idx → s'.pending = true ∨ s'.lock = .handler) : Invariant m s' := by
  obtain ⟨hfree, hdesc, hops, hinfo⟩ := hdisk
  have hperm := hask.append hans
  constructor
  · rw [hfree, hcall]
    exact h.owned
  · rw [hcall]
    exact h.buffers
  · intro p c hc
    rw [hcall] at hc
    refine (h.served p c hc).congr ⟨by rw [hbufs], ?_, ?_, by rw [State.entries, State.entries, hlog]⟩ (.refl c)
    · intro n _
      rw [hdesc, hops, hinfo]
      exact ⟨rfl, rfl, rfl⟩
    · intro n _
      exact ⟨hask.mem_iff, hans.mem_iff⟩
  · rw [hcall, hlog]
    exact h.start
  · exact hperm.nodup_iff.2 h.nodup
  · intro i hi
    rw [hcall]
    exact h.heads i (hperm.mem_iff.1 hi)
  · rw [hcall, hlock]
    exact h.publishing
  · rw [hlock, hcall, havail]
    exact h.holder
  · exact hnoticed
  · rw [hlog]
    exact h.consistent
  · rw [hcontent, hlog]
    exact h.content

theorem Invariant.fetch (h : Invariant m s) (hne : s.last ≠ s.disk.avail.idx) : Invariant m s.fetch := by
  have hne' : s.last.toNat ≠ s.disk.avail.idx.toNat := fun heq => hne (UInt16.toNat_inj.1 heq)
  have hpop : s.available = s.disk.avail.ring (s.last.toNat % num) :: s.fetch.available := by
    have hpop' : Fifo.contents num (2 ^ 16) s.disk.avail.ring s.last.toNat s.disk.avail.idx.toNat = _ :=
      Fifo.contents_pop (by decide) (toNat_lt _) (toNat_lt _) hne'
    simpa [State.available, State.fetch, toNat_succ] using hpop'
  refine h.move rfl rfl rfl rfl rfl rfl ⟨rfl, rfl, rfl, rfl⟩ ?_ (.refl _) h.noticed
  have hask : s.fetch.asked = (s.fetch.available ++ s.fetched) ++ [s.disk.avail.ring (s.last.toNat % num)] :=
    (List.append_assoc ..).symm
  rw [hask, State.asked, hpop]
  exact List.perm_append_singleton _ _

theorem Invariant.post (h : Invariant m s) (hi : i ∈ s.performed) : Invariant m (s.post i) := by
  have hroom : s.returned.length < num := by
    have hlen := h.length_le
    have hpos := List.length_pos_of_mem hi
    simp only [State.answered, List.length_append] at hlen
    omega
  have hpush : (s.post i).returned = s.returned ++ [i] := by
    have hroom' : Fifo.between (2 ^ 16) s.disk.usedIdx.toNat s.disk.used.idx.toNat < num := by
      simpa [State.returned, Fifo.contents_length] using hroom
    have hpush' : Fifo.contents num (2 ^ 16) (Function.update s.disk.used.ring (s.disk.used.idx.toNat % num) i)
        s.disk.usedIdx.toNat ((s.disk.used.idx.toNat + 1) % 2 ^ 16) = _ :=
      Fifo.contents_push (by decide) (by decide) (toNat_lt _) (toNat_lt _) hroom' i
    simpa [State.returned, State.post, toNat_succ] using hpush'
  refine h.move rfl rfl rfl rfl rfl rfl ⟨rfl, rfl, rfl, rfl⟩ (.refl _) ?_ (fun _ => .inl rfl)
  have hans : (s.post i).answered = (s.performed.erase i ++ s.returned) ++ [i] := by
    rw [State.answered, hpush, List.append_assoc]
    rfl
  rw [hans, State.answered]
  exact (List.perm_append_singleton _ _).trans ((List.perm_cons_erase hi).symm.append_right s.returned)

/-- The device has carried out a request. -/
def State.carry (s : State ι β) (i : Nat) (e : Entry β) : State ι β :=
  { s with
    fetched := s.fetched.erase i
    performed := s.performed ++ [i]
    disk := { s.disk with info := Function.update s.disk.info i { s.disk.info i with status := 0 } }
    bufs := Function.update s.bufs e.b { s.bufs e.b with data := e.data }
    content := e.apply s.content
    log := s.log ++ [e] }

theorem entries_carry {e : Entry β} (hstart : c.start ≤ s.log.length) :
    (s.carry i e).entries c = s.entries c ++ if e.b = c.b then [e] else [] := by
  simp only [State.entries, State.carry]
  rw [List.drop_append_of_le_length hstart, List.filter_append]
  congr 1
  by_cases he : e.b = c.b <;> simp [he]

theorem carry_perm {e : Entry β} (hi : i ∈ s.fetched) :
    ((s.carry i e).asked ++ (s.carry i e).answered).Perm (s.asked ++ s.answered) := by
  have hask : (s.carry i e).asked = s.available ++ s.fetched.erase i := rfl
  have hans : (s.carry i e).answered = (s.performed ++ [i]) ++ s.returned := rfl
  have hpos : 0 < s.fetched.count i := List.count_pos_iff.2 hi
  rw [hask, hans, State.asked, State.answered, List.perm_iff_count]
  intro x
  by_cases hx : x = i
  · subst hx
    simp only [List.count_append, List.count_erase_self, List.count_singleton_self]
    omega
  · simp only [List.count_append, List.count_erase_of_ne hx, List.count_singleton, beq_iff_eq, Ne.symm hx, if_false]
    omega

theorem Invariant.carry (h : Invariant m s) (hi : i ∈ s.fetched) (hc : s.call p = some c)
    (hph : c.phase = .submitted i j k) (hf : Formatted s c i j k) (hdisk : (s.bufs c.b).disk = true)
    (hun : Untouched s c) {data : Nat → UInt8} (hwrite : c.write = true → data = (s.bufs c.b).data)
    (hread : c.write = false → ∀ n < bsize, data n = s.content (State.sectorOf (s.bufs c.b).blockno * 512 + n)) :
    Invariant m (s.carry i ⟨c.b, c.write, State.sectorOf (s.bufs c.b).blockno, data⟩) := by
  obtain ⟨e, he⟩ : ∃ e : Entry β, e = ⟨c.b, c.write, State.sectorOf (s.bufs c.b).blockno, data⟩ := ⟨_, rfl⟩
  rw [← he]
  have heb : e.b = c.b := by rw [he]
  have hperm : ((s.carry i e).asked ++ (s.carry i e).answered).Perm (s.asked ++ s.answered) := carry_perm hi
  have hhas : c.phase.Has i := by simp [hph, Phase.Has]
  constructor
  · exact h.owned
  · exact h.buffers
  · intro q d hd
    have hstart := h.start q d hd
    by_cases hq : q = p
    · subst hq
      obtain rfl : c = d := Option.some.inj (hc.symm.trans hd)
      have hbuf : (s.carry i e).bufs c.b = { s.bufs c.b with data := data } := by simp [State.carry, he]
      refine .answered hph ⟨hf.first, hf.second, hf.third, ?_, ?_⟩ ?_ ?_ ?_ ⟨?_, ?_⟩
      · rw [hbuf]
        exact hf.op
      · simpa [State.carry] using hf.info
      · rw [hbuf]
        exact hdisk
      · simp [State.carry, State.answered]
      · simp [State.carry]
      · rw [entries_carry hstart, hun.1, if_pos heb, hbuf, he]
        rfl
      · intro hw
        rw [hbuf]
        exact (hwrite hw).trans hun.2
    · have hne : d.b ≠ c.b := fun heq => hq (h.buffers q p d c hd hc heq)
      have hni : ∀ n, d.phase.Has n → n ≠ i := by
        rintro n hn rfl
        exact hq (h.owned.apart q p d c n hd hc hn hhas)
      refine (h.served q d hd).congr ⟨?_, ?_, ?_, ?_⟩ (.refl d)
      · exact Function.update_of_ne (heb ▸ hne) ..
      · intro n hn
        exact ⟨rfl, rfl, Function.update_of_ne (hni n hn) ..⟩
      · intro n hn
        have hne := hni n hn
        simp [State.carry, State.asked, State.available, State.answered, State.returned, hne, List.mem_erase_of_ne hne]
      · rw [entries_carry hstart, if_neg (heb ▸ hne.symm), List.append_nil]
  · intro q d hd
    have hlen : (s.carry i e).log.length = s.log.length + 1 := by simp [State.carry]
    exact hlen ▸ Nat.le_succ_of_le (h.start q d hd)
  · exact hperm.nodup_iff.2 h.nodup
  · exact fun x hx => h.heads x (hperm.mem_iff.1 hx)
  · exact h.publishing
  · exact h.holder
  · exact h.noticed
  · apply h.consistent.append
    intro hw
    rw [← h.content]
    subst he
    exact hread hw
  · simp only [State.carry, List.foldl_append, List.foldl_cons, List.foldl_nil]
    rw [h.content]

theorem Invariant.perform (h : Invariant m s) (hi : i ∈ s.fetched) : ∃ s', s.perform i = .ok s' ∧ Invariant m s' := by
  obtain ⟨p, c, j, k, hc, hph, hf, hdisk, hun⟩ := h.of_asked (List.mem_append_right _ hi)
  cases hw : c.write with
  | true =>
    have hstep := h.carry hi hc hph hf hdisk hun (fun _ => rfl) (by simp [hw])
    rw [hw] at hstep
    refine ⟨_, ?_, hstep⟩
    simp only [State.perform, hf.first, hf.second, hf.third, hf.op, hw]
    rw [if_neg (by decide), if_pos ⟨rfl, by decide⟩]
    simp [State.carry, State.succeed, Entry.apply]
  | false =>
    obtain ⟨data, hdata⟩ : ∃ data, data = State.load s.content (State.sectorOf (s.bufs c.b).blockno) bsize (s.bufs c.b).data :=
      ⟨_, rfl⟩
    have hread : ∀ n < bsize, data n = s.content (State.sectorOf (s.bufs c.b).blockno * 512 + n) := by
      intro n hn
      rw [hdata, State.load, if_pos hn]
    have hstep := h.carry hi hc hph hf hdisk hun (by simp [hw]) (fun _ => hread)
    rw [hw] at hstep
    refine ⟨_, ?_, hstep⟩
    simp only [State.perform, hf.first, hf.second, hf.third, hf.op, hw]
    rw [if_neg (by decide), if_neg (by decide), if_pos ⟨rfl, by decide⟩]
    simp [State.carry, State.succeed, Entry.apply, hdata]

end Xv6.Virtio
