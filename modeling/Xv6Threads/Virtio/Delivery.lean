-- SUMMARY: Safety of the virtio disk: no fault, each request carried out once, and no completion lost.
import Xv6Threads.Virtio.Runs

/-!
# What the disk driver guarantees

Three consequences of the invariant for every interleaving of processes, handler
and device: nothing goes wrong, `virtio_disk_rw` returns when the device has
carried out its request exactly once, and a call that sleeps is never forgotten.
-/

namespace Xv6.Virtio

variable {ι β : Type} [DecidableEq ι] [DecidableEq β] {s s' : State ι β} {p q : ι} {c c' : Call β} {i j k n : Nat}
  {m : Nat → UInt8}

/-! ## No fault -/

/-- The driver does not panic, follows no null pointer and gives the device only
chains that it can read; every descriptor is free or in the chain of exactly one
call. -/
theorem driver_safe (h : (system ι β m).Reaches (fun _ _ => True) s) :
    (∀ e r, State.Step s e r → ∃ s', r = .ok s') ∧
      (∀ n < num, s.disk.free n = true ↔ ¬ ∃ p, HasAt s.call p n) ∧
      ∀ p q n, HasAt s.call p n → HasAt s.call q n → p = q := by
  have hinv := invariant h
  refine ⟨?_, ?_, ?_⟩
  · intro e r hstep
    obtain ⟨s', hr, -⟩ := hinv.step hstep
    exact ⟨s', hr⟩
  · intro n hn
    constructor
    · rintro hf ⟨p, c, hc, hhas⟩
      simp [(hinv.owned.used p c n hc hhas).2] at hf
    · intro hnone
      by_contra hf
      exact hnone (hinv.owned.cover n hn (by simpa using hf))
  · rintro p q n ⟨c, hc, hn⟩ ⟨c', hc', hn'⟩
    exact hinv.owned.apart p q c c' n hc hc' hn hn'

/-! ## Each request once -/

omit [DecidableEq β] in
theorem call_setCall (o : Option (Call β)) : (s.setCall p o).call p = o := Function.update_self ..

/-- A call runs with the lock. -/
theorem run_cases {r : Except Fault (State ι β)} (hstep : State.Step s (.run p) r) : ∃ c, s.call p = some c ∧
    ((s.lock = .free ∧ ∀ i j k, c.phase ≠ .publishing i j k) ∨ s.lock = .proc p) ∧ r = s.run p c := by
  cases hstep with
  | @run p c hc _ hlock hnot => exact ⟨c, hc, .inl ⟨hlock, hnot⟩, rfl⟩
  | @resume p c hc hlock => exact ⟨c, hc, .inr hlock, rfl⟩

/-- A call that returns was waiting, and the handler had cleared `b->disk`. -/
theorem Invariant.of_return (h : Invariant m s) (hc : s.call p = some c) (hstep : State.Step s (.run p) (.ok s'))
    (hret : s'.call p = none) : ∃ i j k, c.phase = .submitted i j k ∧ (s.bufs c.b).disk = false ∧ s' = s.ended p i j k := by
  obtain ⟨c', hc', hlock, hrun⟩ := run_cases hstep
  obtain rfl : c = c' := Option.some.inj (hc.symm.trans hc')
  replace hrun := hrun.symm
  cases hph : c.phase with
  | allocating =>
    simp only [State.run, hph] at hrun
    rcases State.alloc3Desc_cases s with ⟨i, j, k, s₁, halloc, -⟩ | ⟨s₁, halloc, -, -⟩
    · simp only [State.allocate, halloc, bind, Except.bind, Except.ok.injEq] at hrun
      subst hrun
      exact absurd ((call_setCall _).symm.trans hret) (by simp)
    · simp only [State.allocate, halloc, bind, Except.bind, Except.ok.injEq] at hrun
      subst hrun
      exact absurd ((call_setCall _).symm.trans hret) (by simp)
  | publishing i j k =>
    simp only [State.run, hph] at hrun
    have hdisk : (s.bufs c.b).disk = true := by
      cases h.served p c hc with
      | publishing _ _ hdisk => exact hdisk
      | allocating hph' => simp [hph] at hph'
      | asked hph' => simp [hph] at hph'
      | answered hph' => simp [hph] at hph'
      | done hph' => simp [hph] at hph'
    have hawait : s.publish.await p c i j k = .ok (s.told p c i j k) := if_pos hdisk
    obtain rfl := Except.ok.inj (hawait.symm.trans hrun)
    exact absurd ((call_setCall _).symm.trans hret) (by simp)
  | submitted i j k =>
    simp only [State.run, hph] at hrun
    have hfree : s.lock = .free := by
      rcases hlock with ⟨hfree, -⟩ | hproc
      · exact hfree
      · obtain ⟨c', i', j', k', hc', hph', -⟩ := h.holder p hproc
        obtain rfl : c = c' := Option.some.inj (hc.symm.trans hc')
        simp [hph] at hph'
    cases hdisk : (s.bufs c.b).disk with
    | false =>
      obtain rfl := Except.ok.inj ((h.finish hc hph hfree hdisk).1.symm.trans hrun)
      exact ⟨i, j, k, rfl, rfl, rfl⟩
    | true =>
      rw [State.await, if_pos hdisk] at hrun
      obtain rfl := Except.ok.inj hrun
      exact absurd ((call_setCall _).symm.trans hret) (by simp)

/-- When `virtio_disk_rw` returns, the device has carried out exactly one request
for its buffer since the call began: for the block of the buffer, and with the
data that the buffer holds now. A write had that data when it was called; a read
has what the requests before it had left on the disk. -/
theorem returns_after_one_request (h : (system ι β m).Reaches (fun _ _ => True) s) (hc : s.call p = some c)
    (hstep : State.Step s (.run p) (.ok s')) (hret : s'.call p = none) :
    s'.entries c = [⟨c.b, c.write, State.sectorOf (s'.bufs c.b).blockno, (s'.bufs c.b).data⟩] ∧
      (c.write = true → (s'.bufs c.b).data = c.given) ∧
      Consistent m s'.log ∧ s'.content = s'.log.foldl Entry.apply m := by
  have hinv := invariant h
  obtain ⟨i, j, k, hph, hdisk, rfl⟩ := hinv.of_return hc hstep hret
  have hdone : Answered s c := by
    cases hinv.served p c hc with
    | allocating hph' => simp [hph] at hph'
    | publishing hph' => simp [hph] at hph'
    | asked _ _ hdisk' => simp [hdisk] at hdisk'
    | answered _ _ hdisk' => simp [hdisk] at hdisk'
    | done _ _ _ _ _ _ hdone => exact hdone
  exact ⟨hdone.1, hdone.2, hinv.consistent, hinv.content⟩

/-! ## No call is forgotten -/

/-- The steps that bring some request on. -/
def Useful (s : State ι β) : Event ι β → Prop
  | .call _ _ _ => False
  | .rouse _ => False
  | .edit _ _ _ => False
  | .run p => ∀ c, s.call p = some c → c.phase ≠ .allocating
  | _ => True

theorem Invariant.useful_of_submitted (h : Invariant m s) (hc : s.call p = some c) (hph : c.phase = .submitted i j k)
    (hlock : s.lock = .free) : ∃ e r, Useful s e ∧ State.Step s e r := by
  cases h.served p c hc with
  | allocating hph' => simp [hph] at hph'
  | publishing hph' => simp [hph] at hph'
  | @asked i' _ _ _ _ _ hask _ =>
    rcases List.mem_append.1 hask with hmem | hmem
    · refine ⟨.fetch, _, trivial, .fetch fun heq => ?_⟩
      rw [State.available, heq, (Fifo.contents_eq_nil (toNat_lt _) (toNat_lt _)).2 rfl] at hmem
      cases hmem
    · exact ⟨.perform i', _, trivial, .perform hmem⟩
  | @answered i' _ _ _ _ _ hans _ _ =>
    rcases List.mem_append.1 hans with hmem | hmem
    · exact ⟨.post i', _, trivial, .post hmem⟩
    · have hne : s.disk.usedIdx ≠ s.disk.used.idx := by
        intro heq
        rw [State.returned, heq, (Fifo.contents_eq_nil (toNat_lt _) (toNat_lt _)).2 rfl] at hmem
        cases hmem
      rcases h.noticed hne with hpending | hhandler
      · exact ⟨.interrupt, _, trivial, .interrupt hpending hlock⟩
      · simp [hlock] at hhandler
  | done _ _ _ hawake =>
    refine ⟨.run p, _, ?_, .run hc hawake hlock (by simp [hph])⟩
    intro d hd
    obtain rfl : c = d := Option.some.inj (hc.symm.trans hd)
    simp [hph]

/-- As long as a call sleeps, the device, the handler or a call that has its
descriptors can go on: no completion and no wakeup is lost. -/
theorem sleeper_not_forgotten (h : (system ι β m).Reaches (fun _ _ => True) s) (hc : s.call p = some c)
    (hsleep : c.awake = false) : ∃ e s', Useful s e ∧ State.Step s e (.ok s') := by
  have hinv := invariant h
  have huseful : ∃ e r, Useful s e ∧ State.Step s e r := by
    cases hlock : s.lock with
    | handler => exact ⟨.handle, _, trivial, .handle hlock⟩
    | proc q =>
      obtain ⟨d, i, j, k, hd, hph, -⟩ := hinv.holder q hlock
      refine ⟨.run q, _, ?_, .resume hd hlock⟩
      intro d' hd'
      obtain rfl : d = d' := Option.some.inj (hd.symm.trans hd')
      simp [hph]
    | free =>
      cases hph : c.phase with
      | publishing i j k => exact absurd hph (hinv.not_publishing (by simp [hlock]) hc)
      | submitted i j k => exact hinv.useful_of_submitted hc hph hlock
      | allocating =>
        -- a descriptor that is missing belongs to a call that waits for the device
        have hscarce := hinv.owned.scarce p c hc hph hsleep
        obtain ⟨n, hn, hf⟩ : ∃ n < num, s.disk.free n = false := by
          by_contra hall
          have hfree : ∀ n < num, s.disk.free n = true := by
            intro n hn
            by_contra hf
            exact hall ⟨n, hn, by simpa using hf⟩
          have := hscarce 0 1 2 (by decide) (by decide) (by decide) (hfree 0 (by decide)) (hfree 1 (by decide))
            (hfree 2 (by decide))
          omega
        obtain ⟨q, d, hd, hhas⟩ := hinv.owned.cover n hn hf
        cases hph' : d.phase with
        | allocating => simp [hph', Phase.Has] at hhas
        | publishing i j k => exact absurd hph' (hinv.not_publishing (by simp [hlock]) hd)
        | submitted i j k => exact hinv.useful_of_submitted hd hph' hlock
  obtain ⟨e, r, huse, hstep⟩ := huseful
  obtain ⟨s', rfl, -⟩ := hinv.step hstep
  exact ⟨e, s', huse, hstep⟩

/-! ## One read

A system with one process and one buffer, in which the process reads block 1. -/

namespace Read

/-- After `virtio_disk_init`. -/
def idle : State Unit Unit where
  disk := {
    desc := fun _ => ⟨.zero, 0, 0, 0⟩
    avail := ⟨fun _ => 0, 0⟩
    used := ⟨fun _ => 0, 0⟩
    free := fun _ => true
    usedIdx := 0
    info := fun _ => ⟨none, 0⟩
    ops := fun _ => ⟨0, 0, 0⟩ }
  bufs := fun _ => ⟨1, fun _ => 7, false⟩
  call := fun _ => none
  lock := .free
  pending := false
  last := 0
  fetched := []
  performed := []
  content := fun _ => 5
  log := []

/-- The call, in a phase. -/
def read (phase : Phase) (awake : Bool) : Call Unit := ⟨(), false, phase, awake, fun _ => 7, 0⟩

def called : State Unit Unit := idle.setCall () (some (read .allocating true))
def prepared : State Unit Unit := called.prepared () (read .allocating true) 0 1 2
def told : State Unit Unit := prepared.told () (read (.publishing 0 1 2) true) 0 1 2
def carried : State Unit Unit :=
  told.fetch.carry 0 ⟨(), false, 2, State.load told.fetch.content 2 bsize (told.fetch.bufs ()).data⟩
def posted : State Unit Unit := carried.post 0
def interrupted : State Unit Unit := { posted with pending := false, lock := .handler }
def seen : State Unit Unit := interrupted.see ()
def left : State Unit Unit := { seen with lock := .free }
def returned : State Unit Unit := left.ended () 0 1 2

theorem reaches_told : (system Unit Unit fun _ => 5).Reaches (fun _ _ => True) told := by
  have hidle : (system Unit Unit fun _ => 5).Reaches (fun _ _ => True) idle :=
    .init ⟨fun _ _ => rfl, rfl, rfl, rfl, rfl, rfl, rfl, fun _ => rfl, rfl, rfl, rfl, rfl⟩
  have hbusy : ¬ idle.Busy () := by
    rintro ⟨p, c, hc, -⟩
    cases hc
  have hcalled : State.Step idle (.call () () false) (.ok called) := .call rfl hbusy
  have hprepared : State.Step called (.run ()) (.ok prepared) :=
    .run (c := read .allocating true) rfl rfl rfl fun _ _ _ h => (by cases h)
  have htold : State.Step prepared (.run ()) (.ok told) := .resume (c := read (.publishing 0 1 2) true) rfl rfl
  exact ((hidle.step trivial hcalled).step trivial hprepared).step trivial htold

theorem reaches_left : (system Unit Unit fun _ => 5).Reaches (fun _ _ => True) left := by
  have hfetch : State.Step told .fetch (.ok told.fetch) := .fetch (by decide)
  have hcarried : State.Step told.fetch (.perform 0) (.ok carried) := .perform (by decide)
  have hposted : State.Step carried (.post 0) (.ok posted) := .post (by decide)
  have hinterrupted : State.Step posted .interrupt (.ok interrupted) := .interrupt rfl rfl
  have hseen : State.Step interrupted .handle (.ok seen) := .handle rfl
  have hleft : State.Step seen .handle (.ok left) := .handle rfl
  exact (((((reaches_told.step trivial hfetch).step trivial hcarried).step trivial hposted).step trivial
    hinterrupted).step trivial hseen).step trivial hleft

theorem step_returned : State.Step left (.run ()) (.ok returned) :=
  .run (c := read (.submitted 0 1 2) true) rfl rfl rfl fun _ _ _ h => (by cases h)

/-- While the device has the read, the last descriptor is free, and no call has it. -/
theorem driver_safe_told : told.disk.free 7 = true ∧ ¬ ∃ p, HasAt told.call p 7 :=
  ⟨rfl, ((driver_safe reaches_told).2.1 7 (by decide)).1 rfl⟩

/-- The read returns with what is on the disk. -/
theorem read_returns :
    returned.entries (read (.submitted 0 1 2) true) = [⟨(), false, 2, (returned.bufs ()).data⟩] ∧
      Consistent (fun _ => 5) returned.log :=
  have h := returns_after_one_request (c := read (.submitted 0 1 2) true) reaches_left rfl step_returned rfl
  ⟨h.1, h.2.2.1⟩

/-- The sleeping read is not forgotten. -/
theorem read_not_forgotten : ∃ e s', Useful told e ∧ State.Step told e (.ok s') :=
  sleeper_not_forgotten (p := ()) (c := read (.submitted 0 1 2) false) reaches_told rfl rfl

end Read

end Xv6.Virtio
