-- SUMMARY: The calls of virtio_disk_rw keep the invariant, and what follows for every run of the disk.
import Xv6Threads.Virtio.Requests

/-!
# Runs of the disk

The steps of a call are changes of one call, in which the other calls keep what
they rely on (`Invariant.turn`). Together with the steps of the handler and the
device they give the invariant in every state that is reached.
-/

namespace Xv6.Virtio

variable {ι β : Type} [DecidableEq ι] [DecidableEq β] {s s' : State ι β} {p q : ι} {c c' : Call β} {i j k n : Nat}
  {m : Nat → UInt8} {call₁ : ι → Option (Call β)} {o : Option (Call β)} {b : β}

omit [DecidableEq β] in
theorem roused_update (hc : s.call p = some c) : Roused s.call (Function.update s.call p (some { c with awake := true })) := by
  intro q
  by_cases hq : q = p
  · subst hq
    exact .inr ⟨c, hc, Function.update_self ..⟩
  · exact .inl (Function.update_of_ne hq ..)

/-- A call begins. -/
theorem Invariant.call (h : Invariant m s) (hp : s.call p = none) (hb : ¬ s.Busy b) (write : Bool) :
    Invariant m (s.setCall p (some ⟨b, write, .allocating, true, (s.bufs b).data, s.log.length⟩)) := by
  have hback : ∀ {q d}, (s.setCall p (some ⟨b, write, .allocating, true, (s.bufs b).data, s.log.length⟩)).call q = some d →
      (q = p ∧ d = ⟨b, write, .allocating, true, (s.bufs b).data, s.log.length⟩) ∨ (q ≠ p ∧ s.call q = some d) := by
    intro q d hd
    by_cases hq : q = p
    · subst hq
      simp only [State.setCall, Function.update_self] at hd
      exact .inl ⟨rfl, (Option.some.inj hd).symm⟩
    · exact .inr ⟨hq, (Function.update_of_ne hq ..).symm.trans hd⟩
  have hkeep : ∀ {q d}, s.call q = some d →
      (s.setCall p (some ⟨b, write, .allocating, true, (s.bufs b).data, s.log.length⟩)).call q = some d := by
    intro q d hd
    have hq : q ≠ p := by
      rintro rfl
      simp [hp] at hd
    exact (Function.update_of_ne hq ..).trans hd
  constructor
  · exact h.owned.add hp rfl rfl
  · intro q r d e hd he hde
    rcases hback hd with ⟨rfl, rfl⟩ | ⟨hq, hd₀⟩
    · rcases hback he with ⟨rfl, rfl⟩ | ⟨hr, he₀⟩
      · rfl
      · exact absurd ⟨r, e, he₀, hde.symm⟩ hb
    · rcases hback he with ⟨rfl, rfl⟩ | ⟨hr, he₀⟩
      · exact absurd ⟨q, d, hd₀, hde⟩ hb
      · exact h.buffers q r d e hd₀ he₀ hde
  · intro q d hd
    rcases hback hd with ⟨rfl, rfl⟩ | ⟨hq, hd⟩
    · exact .allocating rfl ⟨by simp [State.entries, State.setCall], rfl⟩
    · exact (h.served q d hd).congr (.of_eq rfl rfl rfl rfl rfl rfl) (.refl d)
  · intro q d hd
    rcases hback hd with ⟨rfl, rfl⟩ | ⟨hq, hd⟩
    · exact Nat.le_refl _
    · exact h.start q d hd
  · exact h.nodup
  · intro i hi
    obtain ⟨q, d, j, k, hd, hph⟩ := h.heads i hi
    exact ⟨q, d, j, k, hkeep hd, hph⟩
  · intro q d i j k hd hph
    rcases hback hd with ⟨rfl, rfl⟩ | ⟨hq, hd⟩
    · simp at hph
    · exact h.publishing q d i j k hd hph
  · intro q hq
    obtain ⟨d, i, j, k, hd, hph, hring⟩ := h.holder q hq
    exact ⟨d, i, j, k, hkeep hd, hph, hring⟩
  · exact h.noticed
  · exact h.consistent
  · exact h.content


/-! ## One call goes on -/

/-- The call of `p` goes on or ends while the lock is its own. -/
theorem Invariant.turn (h : Invariant m s) (hc : s.call p = some c) (hlock : s.lock = .free ∨ s.lock = .proc p)
    (hr : Roused s.call call₁) (hcall : s'.call = Function.update call₁ p o)
    (howned : Owned s'.disk.free s'.call) (hlog : s'.log = s.log) (hcontent : s'.content = s.content)
    (hmine : ∀ c', o = some c' → c'.b = c.b ∧ c'.start = c.start ∧ Served s' c')
    (hothers : ∀ q d, q ≠ p → s.call q = some d → Same s s' d)
    (hnodup : (s'.asked ++ s'.answered).Nodup)
    (hheads : ∀ i ∈ s'.asked ++ s'.answered, (i ∈ s.asked ++ s.answered ∧ ¬ c.phase.Has i) ∨
      ∃ c' j k, o = some c' ∧ c'.phase = .submitted i j k)
    (hpub : ∀ c' i j k, o = some c' → c'.phase = .publishing i j k → s'.lock = .proc p)
    (hholder : ∀ q, s'.lock = .proc q → q = p ∧ ∃ c' i j k, o = some c' ∧ c'.phase = .publishing i j k ∧
      s'.disk.avail.ring (s'.disk.avail.idx.toNat % num) = i)
    (hnoticed : s'.pending = s.pending ∧ s'.disk.usedIdx = s.disk.usedIdx ∧ s'.disk.used = s.disk.used) :
    Invariant m s' := by
  have hback : ∀ {q d}, s'.call q = some d →
      (q = p ∧ o = some d) ∨ (q ≠ p ∧ ∃ d₀, s.call q = some d₀ ∧ Continues d₀ d) := by
    intro q d hd
    rw [hcall] at hd
    by_cases hq : q = p
    · subst hq
      rw [Function.update_self] at hd
      exact .inl ⟨rfl, hd⟩
    · exact .inr ⟨hq, hr.before ((Function.update_of_ne hq ..).symm.trans hd)⟩
  have hfree : ∀ {q d i j k}, q ≠ p → s.call q = some d → d.phase ≠ .publishing i j k := by
    intro q d i j k hq hd hph
    have hproc := h.publishing q d i j k hd hph
    rcases hlock with hlock | hlock
    · simp [hproc] at hlock
    · exact hq (Holder.proc.inj (hproc.symm.trans hlock))
  constructor
  · exact howned
  · intro q r d e hd he hde
    rcases hback hd with ⟨rfl, ho⟩ | ⟨hq, d₀, hd₀, hcont⟩
    · rcases hback he with ⟨rfl, ho'⟩ | ⟨hr', e₀, he₀, hcont'⟩
      · rfl
      · exact h.buffers q r c e₀ hc he₀ (by rw [← (hmine d ho).1, hde, hcont'.b])
    · rcases hback he with ⟨rfl, ho'⟩ | ⟨hr', e₀, he₀, hcont'⟩
      · exact h.buffers q r d₀ c hd₀ hc (by rw [← (hmine e ho').1, ← hde, hcont.b])
      · exact h.buffers q r d₀ e₀ hd₀ he₀ (by rw [← hcont.b, hde, hcont'.b])
  · intro q d hd
    rcases hback hd with ⟨rfl, ho⟩ | ⟨hq, d₀, hd₀, hcont⟩
    · exact (hmine d ho).2.2
    · exact (h.served q d₀ hd₀).congr (hothers q d₀ hq hd₀) hcont
  · intro q d hd
    rw [hlog]
    rcases hback hd with ⟨rfl, ho⟩ | ⟨hq, d₀, hd₀, hcont⟩
    · exact (hmine d ho).2.1 ▸ h.start q c hc
    · exact hcont.start ▸ h.start q d₀ hd₀
  · exact hnodup
  · intro i hi
    rcases hheads i hi with ⟨hi', hnot⟩ | ⟨c', j, k, ho, hph⟩
    · obtain ⟨q, d, j, k, hd, hph⟩ := h.heads i hi'
      have hq : q ≠ p := by
        rintro rfl
        obtain rfl : c = d := Option.some.inj (hc.symm.trans hd)
        exact hnot (by simp [hph, Phase.Has])
      obtain ⟨d', hd', hcont⟩ := hr.after hd
      refine ⟨q, d', j, k, ?_, hcont.phase.trans hph⟩
      rw [hcall]
      exact (Function.update_of_ne hq ..).trans hd'
    · refine ⟨p, c', j, k, ?_, hph⟩
      rw [hcall, Function.update_self, ho]
  · intro q d i j k hd hph
    rcases hback hd with ⟨rfl, ho⟩ | ⟨hq, d₀, hd₀, hcont⟩
    · exact hpub d i j k ho hph
    · exact absurd (hcont.phase ▸ hph) (hfree hq hd₀)
  · intro q hq
    obtain ⟨rfl, c', i, j, k, ho, hph, hring⟩ := hholder q hq
    refine ⟨c', i, j, k, ?_, hph, hring⟩
    rw [hcall, Function.update_self, ho]
  · rw [hnoticed.1, hnoticed.2.1, hnoticed.2.2]
    intro hne
    rcases h.noticed hne with hp | hhandler
    · exact .inl hp
    · rcases hlock with hlock | hlock <;> simp [hlock] at hhandler
  · rw [hlog]
    exact h.consistent
  · rw [hcontent, hlog]
    exact h.content

omit [DecidableEq ι] in
/-- The descriptors of a call that the device does not have are not in the queues. -/
theorem Invariant.queued (h : Invariant m s) (hc : s.call p = some c) (hn : n ∈ s.asked ++ s.answered)
    (hhas : c.phase.Has n) : ∃ j k, c.phase = .submitted n j k := by
  obtain ⟨q, d, j, k, hd, hph⟩ := h.heads n hn
  obtain rfl := h.owned.apart p q c d n hc hd hhas (by simp [hph, Phase.Has])
  obtain rfl : c = d := Option.some.inj (hc.symm.trans hd)
  exact ⟨j, k, hph⟩

omit [DecidableEq ι] in
theorem Same.of_rest (h : State.Rest s s') (hdesc : ∀ n, c.phase.Has n → s'.disk.desc n = s.disk.desc n) :
    Same s s' c := by
  have hask : s'.asked = s.asked := by simp [State.asked, State.available, h.avail, h.last, h.fetched]
  have hans : s'.answered = s.answered := by simp [State.answered, State.returned, h.used, h.usedIdx, h.performed]
  exact ⟨by rw [h.bufs], fun n hn => ⟨hdesc n hn, by rw [h.ops], by rw [h.info]⟩, fun n _ => by simp [hask, hans],
    by simp [State.entries, h.log]⟩

/-! ### Descriptors are taken -/

/-- There are too few descriptors, and the call goes to sleep. -/
theorem Invariant.wait (h : Invariant m s) (hc : s.call p = some c) (hph : c.phase = .allocating) (hlock : s.lock = .free)
    (hscarce : Scarce s.disk.free) (hs' : State.GivesUp s s') :
    Invariant m (s'.setCall p (some { c with awake := false })) := by
  have hun : Untouched s c := by
    cases h.served p c hc with
    | allocating _ hun => exact hun
    | publishing hph' => simp [hph] at hph'
    | asked hph' => simp [hph] at hph'
    | answered hph' => simp [hph] at hph'
    | done hph' => simp [hph] at hph'
  have hnone : ∀ n, ¬ c.phase.Has n := by
    intro n hn
    simp [hph, Phase.Has] at hn
  have hask : s'.asked = s.asked := by simp [State.asked, State.available, hs'.avail, hs'.last, hs'.fetched]
  have hans : s'.answered = s.answered := by simp [State.answered, State.returned, hs'.used, hs'.usedIdx, hs'.performed]
  have hqueue : (s'.setCall p (some { c with awake := false })).asked ++
      (s'.setCall p (some { c with awake := false })).answered = s.asked ++ s.answered := by
    rw [← hask, ← hans]
    rfl
  obtain ⟨c₁, hc₁, hcont⟩ := hs'.call.after hc
  have howned : Owned s.disk.free (Function.update s'.call p (some { c with awake := false })) :=
    (h.owned.rouse hs'.call).update hc₁ (by simp [hcont.phase]) (by simp [hcont.phase]) (fun _ _ => hscarce)
  refine h.turn hc (.inl hlock) hs'.call rfl (hs'.free ▸ howned) hs'.log hs'.content ?_ ?_ ?_ ?_ ?_ ?_
    ⟨hs'.pending, hs'.usedIdx, hs'.used⟩
  · intro c' hc'
    obtain rfl := Option.some.inj hc'
    have hentries : (s'.setCall p (some { c with awake := false })).entries { c with awake := false } = s.entries c := by
      simp [State.entries, State.setCall, hs'.log]
    exact ⟨rfl, rfl, .allocating hph ⟨hentries.trans hun.1, by simpa [State.setCall, hs'.bufs] using hun.2⟩⟩
  · intro q d hq hd
    have hsame : Same s s' d := Same.of_rest hs'.toRest fun n hn => hs'.desc n (h.owned.used q d n hd hn).2
    exact ⟨hsame.buf, hsame.disk, hsame.queue, hsame.entries⟩
  · rw [hqueue]
    exact h.nodup
  · intro x hx
    rw [hqueue] at hx
    exact .inl ⟨hx, hnone x⟩
  · intro c' i j k hc' hph'
    obtain rfl := Option.some.inj hc'
    simp [hph] at hph'
  · intro q hq
    simp [State.setCall, hs'.lock, hlock] at hq

/-- The state after a call has set up its chain. -/
def State.prepared (s : State ι β) (p : ι) (c : Call β) (i j k : Nat) : State ι β :=
  { ((((s.setFree i false).setFree j false).setFree k false).format c i j k).setCall p
      (some { c with phase := .publishing i j k }) with lock := .proc p }

theorem prepared_queue (h : Invariant m s) (hi : i < num) (hnot : i ∉ s.asked ++ s.answered) :
    (s.prepared p c i j k).asked = s.asked ∧ (s.prepared p c i j k).answered = s.answered := by
  refine ⟨?_, rfl⟩
  have hroom : Fifo.between (2 ^ 16) s.last.toNat s.disk.avail.idx.toNat < num := by
    have hlen := h.length_lt hi hnot
    simp only [State.asked, State.available, List.length_append, Fifo.contents_length] at hlen
    omega
  have havail : (s.prepared p c i j k).available = s.available :=
    Fifo.contents_update (by decide) (by decide) (toNat_lt _) (toNat_lt _) hroom i
  rw [State.asked, State.asked, havail]
  rfl

theorem Invariant.prepare (h : Invariant m s) (hc : s.call p = some c) (hph : c.phase = .allocating) (hlock : s.lock = .free)
    (hs' : State.Takes s i j k s') : Invariant m (s.prepared p c i j k) := by
  obtain ⟨hlt, ⟨hij, hik, hjk⟩, hfree, -⟩ := hs'
  have hun : Untouched s c := by
    cases h.served p c hc with
    | allocating _ hun => exact hun
    | publishing hph' => simp [hph] at hph'
    | asked hph' => simp [hph] at hph'
    | answered hph' => simp [hph] at hph'
    | done hph' => simp [hph] at hph'
  -- a free descriptor is no one's
  have hnot : i ∉ s.asked ++ s.answered := by
    intro hi
    obtain ⟨q, d, j, k, hd, hph⟩ := h.heads i hi
    have hf := (h.owned.used q d i hd (by simp [hph, Phase.Has])).2
    simp [hfree.1] at hf
  have hothers : ∀ q d n, s.call q = some d → d.phase.Has n → n ≠ i ∧ n ≠ j ∧ n ≠ k := by
    intro q d n hd hn
    have hf := (h.owned.used q d n hd hn).2
    refine ⟨?_, ?_, ?_⟩
    · rintro rfl
      simp [hfree.1] at hf
    · rintro rfl
      simp [hfree.2.1] at hf
    · rintro rfl
      simp [hfree.2.2] at hf
  obtain ⟨hask, hans⟩ := prepared_queue (p := p) (c := c) (j := j) (k := k) h hlt.1 hnot
  have hbuf : (s.prepared p c i j k).bufs c.b = { s.bufs c.b with disk := true } := Function.update_self ..
  refine h.turn hc (.inl hlock) (Roused.refl _) rfl ?_ rfl rfl ?_ ?_ ?_ ?_ ?_ ?_ ⟨rfl, rfl, rfl⟩
  · refine h.owned.take hc hph hlt ⟨hij, hik, hjk⟩ hfree rfl fun n => ?_
    simp only [State.prepared, State.setCall, State.format, State.setFree, Function.update_apply]
    by_cases hni : n = i <;> by_cases hnj : n = j <;> by_cases hnk : n = k <;> simp [hni, hnj, hnk]
  · intro c' hc'
    obtain rfl := Option.some.inj hc'
    refine ⟨rfl, rfl, .publishing rfl ⟨?_, ?_, ?_, ?_, ?_⟩ ?_ ?_ ?_ ⟨?_, ?_⟩⟩
    · simp [State.prepared, State.setCall, State.format, Function.update_of_ne hij, Function.update_of_ne hik]
    · simp [State.prepared, State.setCall, State.format, Function.update_of_ne hjk]
    · simp [State.prepared, State.setCall, State.format]
    · rw [hbuf]
      simp [State.prepared, State.setCall, State.format, State.setFree]
    · simp [State.prepared, State.setCall, State.format]
    · rw [hbuf]
    · rw [hask]
      exact fun hmem => hnot (List.mem_append_left _ hmem)
    · rw [hans]
      exact fun hmem => hnot (List.mem_append_right _ hmem)
    · exact hun.1
    · rw [hbuf]
      exact hun.2
  · intro q d hq hd
    have hne : d.b ≠ c.b := fun heq => hq (h.buffers q p d c hd hc heq)
    refine ⟨Function.update_of_ne hne .., ?_, ?_, rfl⟩
    · intro n hn
      obtain ⟨hni, hnj, hnk⟩ := hothers q d n hd hn
      simp [State.prepared, State.setCall, State.format, State.setFree, Function.update_of_ne hni, Function.update_of_ne hnj,
        Function.update_of_ne hnk]
    · intro n _
      rw [hask, hans]
      exact ⟨Iff.rfl, Iff.rfl⟩
  · rw [hask, hans]
    exact h.nodup
  · intro x hx
    rw [hask, hans] at hx
    exact .inl ⟨hx, by simp [hph, Phase.Has]⟩
  · intro c' i' j' k' hc' _
    rfl
  · intro q hq
    obtain rfl : p = q := Holder.proc.inj hq
    exact ⟨rfl, _, i, j, k, rfl, rfl, Function.update_self ..⟩

theorem Invariant.allocate (h : Invariant m s) (hc : s.call p = some c) (hph : c.phase = .allocating)
    (hlock : s.lock = .free) : ∃ s', s.allocate p c = .ok s' ∧ Invariant m s' := by
  rcases State.alloc3Desc_cases s with ⟨i, j, k, s', halloc, htakes⟩ | ⟨s', halloc, hscarce, hgives⟩
  · refine ⟨_, ?_, h.prepare hc hph hlock htakes⟩
    simp [State.allocate, halloc, htakes.eq, State.prepared, bind, Except.bind]
  · refine ⟨_, ?_, h.wait hc hph hlock hscarce hgives⟩
    simp [State.allocate, halloc, bind, Except.bind]

/-! ### The device is told, and waited for -/

/-- The call has told the device and goes to sleep. -/
def State.told (s : State ι β) (p : ι) (c : Call β) (i j k : Nat) : State ι β :=
  { s.publish.setCall p (some { c with phase := .submitted i j k, awake := false }) with lock := .free }

theorem Invariant.tell (h : Invariant m s) (hc : s.call p = some c) (hph : c.phase = .publishing i j k) :
    ∃ s', s.publish.await p c i j k = .ok s' ∧ Invariant m s' := by
  obtain ⟨hf, hdisk, hask, hans, hun⟩ : Formatted s c i j k ∧ (s.bufs c.b).disk = true ∧ i ∉ s.asked ∧ i ∉ s.answered ∧
      Untouched s c := by
    cases h.served p c hc with
    | allocating hph' => simp [hph] at hph'
    | publishing hph' hf hdisk hask hans hun =>
      obtain ⟨rfl, rfl, rfl⟩ := Phase.publishing.inj (hph.symm.trans hph')
      exact ⟨hf, hdisk, hask, hans, hun⟩
    | asked hph' => simp [hph] at hph'
    | answered hph' => simp [hph] at hph'
    | done hph' => simp [hph] at hph'
  have hnot : i ∉ s.asked ++ s.answered := fun hmem => (List.mem_append.1 hmem).elim hask hans
  have hlock := h.publishing p c i j k hc hph
  have hring : s.disk.avail.ring (s.disk.avail.idx.toNat % num) = i := by
    obtain ⟨c', i', j', k', hc', hph', hring⟩ := h.holder p hlock
    obtain rfl : c = c' := Option.some.inj (hc.symm.trans hc')
    obtain ⟨rfl, -, -⟩ := Phase.publishing.inj (hph.symm.trans hph')
    exact hring
  have hroom : Fifo.between (2 ^ 16) s.last.toNat s.disk.avail.idx.toNat < num := by
    have hlen := h.length_lt (h.owned.used p c i hc (by simp [hph, Phase.Has])).1 hnot
    simp only [State.asked, State.available, List.length_append, Fifo.contents_length] at hlen
    omega
  have havail : (s.told p c i j k).available = s.available ++ [i] := by
    have hextend : Fifo.contents num (2 ^ 16) s.disk.avail.ring s.last.toNat ((s.disk.avail.idx.toNat + 1) % 2 ^ 16) = _ :=
      Fifo.contents_extend (by decide) (by decide) (toNat_lt _) (toNat_lt _) hroom
    rw [hring] at hextend
    simpa [State.available, State.told, State.publish, State.setCall, toNat_succ] using hextend
  have hask' : (s.told p c i j k).asked = s.available ++ [i] ++ s.fetched := by
    rw [State.asked, havail]
    rfl
  have hans' : (s.told p c i j k).answered = s.answered := rfl
  have hperm : ((s.told p c i j k).asked ++ (s.told p c i j k).answered).Perm (i :: (s.asked ++ s.answered)) := by
    rw [hask', hans', State.asked]
    simp only [List.append_assoc, List.singleton_append]
    exact List.perm_middle
  refine ⟨s.told p c i j k, if_pos hdisk, ?_⟩
  have howned : Owned s.disk.free (Function.update s.call p (some { c with phase := .submitted i j k, awake := false })) :=
    h.owned.update hc (by simp [hph, Phase.Has]) (by simp [hph, Phase.Distinct]) (by simp)
  refine h.turn hc (.inr hlock) (Roused.refl _) rfl howned rfl rfl ?_ ?_ ?_ ?_ ?_ ?_ ⟨rfl, rfl, rfl⟩
  · intro c' hc'
    obtain rfl := Option.some.inj hc'
    refine ⟨rfl, rfl, .asked rfl ⟨hf.first, hf.second, hf.third, hf.op, hf.info⟩ hdisk ?_ hun⟩
    simp [hask']
  · intro q d hq hd
    refine ⟨rfl, fun n _ => ⟨rfl, rfl, rfl⟩, ?_, rfl⟩
    intro n hn
    have hne : n ≠ i := by
      rintro rfl
      exact hq (h.owned.apart q p d c n hd hc hn (by simp [hph, Phase.Has]))
    rw [hask', hans', State.asked]
    simp [hne]
  · exact hperm.nodup_iff.2 (List.nodup_cons.2 ⟨hnot, h.nodup⟩)
  · intro x hx
    rcases List.mem_cons.1 (hperm.mem_iff.1 hx) with rfl | hx
    · exact .inr ⟨_, j, k, rfl, rfl⟩
    · refine .inl ⟨hx, fun hhas => ?_⟩
      obtain ⟨j', k', hph'⟩ := h.queued hc hx hhas
      simp [hph] at hph'
  · intro c' i' j' k' hc' hph'
    obtain rfl := Option.some.inj hc'
    cases hph'
  · intro q hq
    cases hq

/-- The call sleeps on, or goes back to sleep. -/
theorem Invariant.sleep (h : Invariant m s) (hc : s.call p = some c) (hph : c.phase = .submitted i j k)
    (hlock : s.lock = .free) (hdisk : (s.bufs c.b).disk = true) :
    Invariant m { s.setCall p (some { c with phase := .submitted i j k, awake := false }) with lock := .free } := by
  have howned : Owned s.disk.free (Function.update s.call p (some { c with phase := .submitted i j k, awake := false })) :=
    h.owned.update hc (by simp [hph]) (by simp [hph]) (by simp)
  refine h.turn hc (.inl hlock) (Roused.refl _) rfl howned rfl rfl ?_ ?_ h.nodup ?_ ?_ ?_ ⟨rfl, rfl, rfl⟩
  · intro c' hc'
    obtain rfl := Option.some.inj hc'
    refine ⟨rfl, rfl, ?_⟩
    cases h.served p c hc with
    | allocating hph' => simp [hph] at hph'
    | publishing hph' => simp [hph] at hph'
    | asked hph' hf _ hask hun =>
      obtain ⟨rfl, rfl, rfl⟩ := Phase.submitted.inj (hph.symm.trans hph')
      exact .asked rfl ⟨hf.first, hf.second, hf.third, hf.op, hf.info⟩ hdisk hask hun
    | answered hph' hf _ hans hst hdone =>
      obtain ⟨rfl, rfl, rfl⟩ := Phase.submitted.inj (hph.symm.trans hph')
      exact .answered rfl ⟨hf.first, hf.second, hf.third, hf.op, hf.info⟩ hdisk hans hst hdone
    | done _ _ hdisk' => simp [hdisk] at hdisk'
  · intro q d hq hd
    exact .of_eq rfl rfl rfl rfl rfl rfl
  · intro x hx
    by_cases hhas : c.phase.Has x
    · obtain ⟨j', k', hph'⟩ := h.queued hc hx hhas
      obtain ⟨rfl, rfl, rfl⟩ := Phase.submitted.inj (hph.symm.trans hph')
      exact .inr ⟨_, j, k, rfl, rfl⟩
    · exact .inl ⟨hx, hhas⟩
  · intro c' i' j' k' hc' hph'
    obtain rfl := Option.some.inj hc'
    cases hph'
  · intro q hq
    cases hq

/-! ### The end -/

omit [DecidableEq β] [DecidableEq ι] in
/-- After a descriptor has been freed nobody sleeps for descriptors. -/
theorem release_awake (hc : (s.release i).call q = some c) (hph : c.phase = .allocating) : c.awake = true := by
  simp only [State.release, State.wakeupFree, State.setFree, State.setDesc] at hc
  obtain ⟨d, hd, rfl⟩ := Option.map_eq_some_iff.1 hc
  by_cases hd' : d.phase = .allocating
  · simp [hd']
  · rw [if_neg hd'] at hph
    exact absurd hph hd'

/-- `disk.info[i].b = 0`. -/
def State.forget (s : State ι β) (i : Nat) : State ι β :=
  { s with disk := { s.disk with info := Function.update s.disk.info i { s.disk.info i with b := none } } }

/-- The call has given its chain back and returned. -/
def State.ended (s : State ι β) (p : ι) (i j k : Nat) : State ι β :=
  { ((((s.forget i).release i).release j).release k).setCall p none with lock := .free }

theorem Invariant.finish (h : Invariant m s) (hc : s.call p = some c) (hph : c.phase = .submitted i j k)
    (hlock : s.lock = .free) (hdisk : (s.bufs c.b).disk = false) :
    s.await p c i j k = .ok (s.ended p i j k) ∧ Invariant m (s.ended p i j k) := by
  obtain ⟨hf, hask, hans⟩ : Formatted s c i j k ∧ i ∉ s.asked ∧ i ∉ s.answered := by
    cases h.served p c hc with
    | allocating hph' => simp [hph] at hph'
    | publishing hph' => simp [hph] at hph'
    | asked _ _ hdisk' => simp [hdisk] at hdisk'
    | answered _ _ hdisk' => simp [hdisk] at hdisk'
    | done hph' hf _ _ hask hans =>
      obtain ⟨rfl, rfl, rfl⟩ := Phase.submitted.inj (hph.symm.trans hph')
      exact ⟨hf, hask, hans⟩
  have hnot : i ∉ s.asked ++ s.answered := fun hmem => (List.mem_append.1 hmem).elim hask hans
  have hhas : ∀ n, c.phase.Has n ↔ n = i ∨ n = j ∨ n = k := by simp [hph, Phase.Has]
  obtain ⟨hij, hik, hjk⟩ : i ≠ j ∧ i ≠ k ∧ j ≠ k := by simpa [hph, Phase.Distinct] using h.owned.distinct p c hc
  obtain ⟨hi, hfi⟩ := h.owned.used p c i hc ((hhas i).2 (.inl rfl))
  obtain ⟨hj, hfj⟩ := h.owned.used p c j hc ((hhas j).2 (.inr (.inl rfl)))
  obtain ⟨hk, hfk⟩ := h.owned.used p c k hc ((hhas k).2 (.inr (.inr rfl)))
  have hchain : State.freeChain (num + 1) (s.forget i) i = .ok ((((s.forget i).release i).release j).release k) := by
    refine State.freeChain_eq hi hj hk hij hik hjk hfi hfj hfk ?_ ?_ ?_
    · simp only [State.forget, hf.first]
      exact ⟨by decide, trivial⟩
    · simp only [State.forget, hf.second]
      refine ⟨?_, trivial⟩
      cases c.write <;> decide
    · simp only [State.forget, hf.third]
      decide
  have hr : Roused s.call ((((s.forget i).release i).release j).release k).call :=
    ((State.roused_release (s.forget i) i).trans (State.roused_release _ j)).trans (State.roused_release _ k)
  obtain ⟨c₁, hc₁, hcont⟩ := hr.after hc
  have howned : Owned (s.ended p i j k).disk.free (s.ended p i j k).call := by
    refine (h.owned.rouse hr).give hc₁ (fun n => ?_) fun q d hd hph => release_awake hd hph
    rw [hcont.phase, hhas n]
    simp only [State.ended, State.setCall, State.release_free, State.forget, Function.update_apply]
    by_cases hni : n = i <;> by_cases hnj : n = j <;> by_cases hnk : n = k <;> simp [hni, hnj, hnk]
  have hqueue : (s.ended p i j k).asked ++ (s.ended p i j k).answered = s.asked ++ s.answered := rfl
  refine ⟨?_, h.turn hc (.inl hlock) hr rfl howned rfl rfl ?_ ?_ (hqueue ▸ h.nodup) ?_ ?_ ?_ ⟨rfl, rfl, rfl⟩⟩
  · have hif : ¬(s.bufs c.b).disk = true := by simp [hdisk]
    rw [State.await, if_neg hif]
    exact Except.bind_ok_iff.2 ⟨_, hchain, rfl⟩
  · intro c' hc'
    cases hc'
  · intro q d hq hd
    refine ⟨rfl, ?_, fun n _ => ⟨Iff.rfl, Iff.rfl⟩, rfl⟩
    intro n hn
    have hnot : ¬ c.phase.Has n := fun hn' => hq (h.owned.apart q p d c n hd hc hn hn')
    rw [hhas n, not_or, not_or] at hnot
    obtain ⟨hni, hnj, hnk⟩ := hnot
    simp [State.ended, State.setCall, State.forget, State.release, State.setFree, State.setDesc, State.wakeupFree,
      Function.update_of_ne hni, Function.update_of_ne hnj, Function.update_of_ne hnk]
  · intro x hx
    rw [hqueue] at hx
    refine .inl ⟨hx, fun hhas' => ?_⟩
    obtain ⟨j', k', hph'⟩ := h.queued hc hx hhas'
    obtain ⟨rfl, -, -⟩ := Phase.submitted.inj (hph.symm.trans hph')
    exact hnot hx
  · intro c' i' j' k' hc'
    cases hc'
  · intro q hq
    cases hq

/-! ## Every step -/

/-- No step goes wrong, and the invariant is kept. -/
theorem Invariant.step (h : Invariant m s) {e : Event ι β} {r : Except Fault (State ι β)} (hstep : State.Step s e r) :
    ∃ s', r = .ok s' ∧ Invariant m s' := by
  cases hstep with
  | call hp hb => exact ⟨_, rfl, h.call hp hb _⟩
  | @run p c hc _ hlock hnot =>
    cases hph : c.phase with
    | allocating =>
      simp only [State.run, hph]
      exact h.allocate hc hph hlock
    | publishing i j k => exact absurd hph (hnot i j k)
    | submitted i j k =>
      simp only [State.run, hph]
      cases hdisk : (s.bufs c.b).disk with
      | true => exact ⟨_, if_pos hdisk, h.sleep hc hph hlock hdisk⟩
      | false => exact ⟨_, h.finish hc hph hlock hdisk⟩
  | @resume p c hc hlock =>
    obtain ⟨c', i, j, k, hc', hph, -⟩ := h.holder p hlock
    obtain rfl : c = c' := Option.some.inj (hc.symm.trans hc')
    simp only [State.run, hph]
    exact h.tell hc hph
  | rouse hc => exact ⟨_, rfl, h.rouse (roused_update hc)⟩
  | edit hb => exact ⟨_, rfl, h.edit hb _⟩
  | interrupt _ hlock => exact ⟨_, rfl, h.interrupt hlock⟩
  | handle hlock => exact h.handle hlock
  | fetch hne => exact ⟨_, rfl, h.fetch hne⟩
  | perform hi => exact h.perform hi
  | post hi => exact ⟨_, rfl, h.post hi⟩

theorem Invariant.init (hinit : (system ι β m).init s) : Invariant m s := by
  obtain ⟨hfree, hidx, hused, husedIdx, hlast, hfetched, hperformed, hcall, hlock, -, hcontent, hlog⟩ := hinit
  have hempty : s.asked ++ s.answered = [] := by
    simp [State.asked, State.answered, State.available, State.returned, Fifo.contents, Fifo.between, hidx, hused, husedIdx,
      hlast, hfetched, hperformed]
  have hnone : ∀ {p : ι} {c : Call β}, s.call p ≠ some c := by simp [hcall]
  constructor
  · refine ⟨fun p c hc => absurd hc hnone, fun p c n hc => absurd hc hnone, fun p q c c' n hc => absurd hc hnone, ?_,
      fun p c hc => absurd hc hnone⟩
    intro n hn hf
    simp [hfree n hn] at hf
  · exact fun p q c c' hc => absurd hc hnone
  · exact fun p c hc => absurd hc hnone
  · exact fun p c hc => absurd hc hnone
  · simp [hempty]
  · simp [hempty]
  · exact fun p c i j k hc => absurd hc hnone
  · intro p hp
    simp [hlock] at hp
  · simp [hused, husedIdx]
  · simp [hlog, Consistent]
  · simp [hcontent, hlog]

theorem invariant (h : (system ι β m).Reaches (fun _ _ => True) s) : Invariant m s := by
  refine h.invariant (fun s => Invariant.init) ?_
  intro s e s' hinv _ hstep
  obtain ⟨s₁, hok, hinv'⟩ := hinv.step hstep
  obtain rfl := Except.ok.inj hok
  exact hinv'

end Xv6.Virtio
