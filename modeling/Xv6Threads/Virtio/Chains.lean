-- SUMMARY: What alloc3_desc and free_chain do, and who owns which descriptor.
import Mathlib.Data.List.Basic
import Xv6Threads.Base.Except
import Xv6Threads.Virtio.Disk

/-!
# Chains of descriptors

`alloc3_desc` takes three free descriptors or gives back what it has taken, and
`free_chain` frees the three of a call. Every descriptor is free or in the chain
of one call.
-/

namespace Xv6.Virtio

variable {ι β : Type} {s s' : State ι β} {p q : ι} {c c' : Call β} {i j k n : Nat}

/-! ## Calls that are woken -/

/-- Some calls have been woken, and nothing else has happened to any. -/
def Roused (call call' : ι → Option (Call β)) : Prop :=
  ∀ p, call' p = call p ∨ ∃ c, call p = some c ∧ call' p = some { c with awake := true }

theorem Roused.refl (call : ι → Option (Call β)) : Roused call call := fun _ => .inl rfl

theorem Roused.trans {call₁ call₂ call₃ : ι → Option (Call β)} (h : Roused call₁ call₂) (h' : Roused call₂ call₃) :
    Roused call₁ call₃ := by
  intro p
  rcases h p with h₁ | ⟨c, hc, h₁⟩
  · rcases h' p with h₂ | ⟨c, hc, h₂⟩
    · exact .inl (h₂.trans h₁)
    · exact .inr ⟨c, h₁ ▸ hc, h₂⟩
  · rcases h' p with h₂ | ⟨c', hc', h₂⟩
    · exact .inr ⟨c, hc, h₂.trans h₁⟩
    · obtain rfl : { c with awake := true } = c' := Option.some.inj (h₁.symm.trans hc')
      exact .inr ⟨c, hc, h₂⟩

theorem roused_wakeupFree (s : State ι β) : Roused s.call s.wakeupFree.call := by
  intro p
  simp only [State.wakeupFree]
  cases hp : s.call p with
  | none => exact .inl rfl
  | some c =>
    by_cases hc : c.phase = .allocating
    · exact .inr ⟨c, rfl, by simp [hc]⟩
    · exact .inl (by simp [hc])

theorem roused_wakeupBuf [DecidableEq β] (s : State ι β) (b : β) : Roused s.call (s.wakeupBuf b).call := by
  intro p
  simp only [State.wakeupBuf]
  cases hp : s.call p with
  | none => exact .inl rfl
  | some c =>
    by_cases hc : c.phase ≠ .allocating ∧ c.b = b
    · exact .inr ⟨c, rfl, by simp [hc]⟩
    · exact .inl (by simp [hc])

/-- `c'` is the call `c`, perhaps woken. -/
structure Continues (c c' : Call β) : Prop where
  b : c'.b = c.b
  write : c'.write = c.write
  phase : c'.phase = c.phase
  given : c'.given = c.given
  start : c'.start = c.start
  sleeps : c'.awake = false → c.awake = false

theorem Continues.refl (c : Call β) : Continues c c := ⟨rfl, rfl, rfl, rfl, rfl, id⟩

theorem Continues.wake (c : Call β) : Continues c { c with awake := true } :=
  ⟨rfl, rfl, rfl, rfl, rfl, fun h => (by cases h)⟩

/-- A call after the wakeup was there before. -/
theorem Roused.before {call call' : ι → Option (Call β)} (h : Roused call call') (hc : call' p = some c') :
    ∃ c, call p = some c ∧ Continues c c' := by
  rcases h p with hp | ⟨c, hp, hp'⟩
  · exact ⟨c', hp ▸ hc, .refl c'⟩
  · obtain rfl : { c with awake := true } = c' := Option.some.inj (hp'.symm.trans hc)
    exact ⟨c, hp, .wake c⟩

/-- A call before the wakeup is still there. -/
theorem Roused.after {call call' : ι → Option (Call β)} (h : Roused call call') (hc : call p = some c) :
    ∃ c', call' p = some c' ∧ Continues c c' := by
  rcases h p with hp | ⟨c₁, hp, hp'⟩
  · exact ⟨c, hp.trans hc, .refl c⟩
  · obtain rfl : c₁ = c := Option.some.inj (hp.symm.trans hc)
    exact ⟨_, hp', .wake c₁⟩

/-- Fewer than three descriptors are free. -/
def Scarce (free : Nat → Bool) : Prop :=
  ∀ i j k, i < num → j < num → k < num → free i = true → free j = true → free k = true → i = j ∨ i = k ∨ j = k

/-! ## Freeing -/

namespace State

/-- What `free_desc` does to a descriptor that is in use. -/
def release (s : State ι β) (i : Nat) : State ι β := ((s.setDesc i ⟨.zero, 0, 0, 0⟩).setFree i true).wakeupFree

theorem freeDesc_eq (hi : i < num) (hfree : s.disk.free i = false) : s.freeDesc i = .ok (s.release i) := by
  simp [freeDesc, Nat.not_le.2 hi, hfree, release]

@[simp] theorem release_free : (s.release i).disk.free = Function.update s.disk.free i true := rfl
@[simp] theorem release_desc : (s.release i).disk.desc = Function.update s.disk.desc i ⟨.zero, 0, 0, 0⟩ := rfl

/-- The parts of the state that neither allocation nor freeing looks at. -/
structure Rest (s s' : State ι β) : Prop where
  bufs : s'.bufs = s.bufs
  lock : s'.lock = s.lock
  pending : s'.pending = s.pending
  last : s'.last = s.last
  fetched : s'.fetched = s.fetched
  performed : s'.performed = s.performed
  content : s'.content = s.content
  log : s'.log = s.log
  avail : s'.disk.avail = s.disk.avail
  used : s'.disk.used = s.disk.used
  usedIdx : s'.disk.usedIdx = s.disk.usedIdx
  info : s'.disk.info = s.disk.info
  ops : s'.disk.ops = s.disk.ops

theorem Rest.refl (s : State ι β) : Rest s s := ⟨rfl, rfl, rfl, rfl, rfl, rfl, rfl, rfl, rfl, rfl, rfl, rfl, rfl⟩

theorem Rest.release (h : Rest s s') (i : Nat) : Rest s (s'.release i) :=
  ⟨h.bufs, h.lock, h.pending, h.last, h.fetched, h.performed, h.content, h.log, h.avail, h.used, h.usedIdx, h.info, h.ops⟩

theorem Rest.setFree (h : Rest s s') (i : Nat) (v : Bool) : Rest s (s'.setFree i v) :=
  ⟨h.bufs, h.lock, h.pending, h.last, h.fetched, h.performed, h.content, h.log, h.avail, h.used, h.usedIdx, h.info, h.ops⟩

theorem roused_release (s : State ι β) (i : Nat) : Roused s.call (s.release i).call :=
  roused_wakeupFree ((s.setDesc i ⟨.zero, 0, 0, 0⟩).setFree i true)

theorem freeChain_succ (n : Nat) (s : State ι β) (i : Nat) :
    freeChain (n + 1) s i = s.freeDesc i >>= fun s' =>
      if (s.disk.desc i).flags &&& fNext ≠ 0 then freeChain n s' (s.disk.desc i).next else .ok s' := rfl

/-- Three descriptors linked to a chain are freed. -/
theorem freeChain_eq (hi : i < num) (hj : j < num) (hk : k < num) (hij : i ≠ j) (hik : i ≠ k) (hjk : j ≠ k)
    (hfi : s.disk.free i = false) (hfj : s.disk.free j = false) (hfk : s.disk.free k = false)
    (hdi : (s.disk.desc i).flags &&& fNext ≠ 0 ∧ (s.disk.desc i).next = j)
    (hdj : (s.disk.desc j).flags &&& fNext ≠ 0 ∧ (s.disk.desc j).next = k)
    (hdk : (s.disk.desc k).flags &&& fNext = 0) :
    freeChain (n + 3) s i = .ok (((s.release i).release j).release k) := by
  have hj' : (s.release i).disk.free j = false := by simp [Function.update_of_ne hij.symm, hfj]
  have hk' : ((s.release i).release j).disk.free k = false := by
    simp [Function.update_of_ne hik.symm, Function.update_of_ne hjk.symm, hfk]
  have hdj' : (s.release i).disk.desc j = s.disk.desc j := by simp [Function.update_of_ne hij.symm]
  have hdk' : ((s.release i).release j).disk.desc k = s.disk.desc k := by
    simp [Function.update_of_ne hik.symm, Function.update_of_ne hjk.symm]
  have hthird : freeChain (n + 1) ((s.release i).release j) k = .ok (((s.release i).release j).release k) := by
    simp [freeChain, freeDesc_eq hk hk', hdk', hdk, bind, Except.bind]
  have hsecond : freeChain (n + 2) (s.release i) j = .ok (((s.release i).release j).release k) := by
    rw [freeChain_succ, freeDesc_eq hj hj']
    simp [hdj', hdj, hthird, bind, Except.bind]
  rw [freeChain_succ, freeDesc_eq hi hfi]
  simp [hdi, hsecond, bind, Except.bind]

/-! ## Allocating -/

theorem allocDesc_some (h : s.allocDesc = some (i, s')) : i < num ∧ s.disk.free i = true ∧ s' = s.setFree i false := by
  obtain ⟨i', hfind, heq⟩ := Option.map_eq_some_iff.1 h
  obtain ⟨rfl, rfl⟩ := Prod.mk.inj heq
  exact ⟨List.mem_range.1 (List.mem_of_find?_eq_some hfind), List.find?_some hfind, rfl⟩

theorem allocDesc_none (h : s.allocDesc = none) : ∀ i < num, s.disk.free i = false := by
  intro i hi
  have hfind := List.find?_eq_none.1 (Option.map_eq_none_iff.1 h) i (List.mem_range.2 hi)
  simpa using hfind

/-- What an attempt that gives up has done: descriptors that are free have been
written, and calls that wait for descriptors have been woken. -/
structure GivesUp (s s' : State ι β) : Prop extends Rest s s' where
  free : s'.disk.free = s.disk.free
  desc : ∀ i, s.disk.free i = false → s'.disk.desc i = s.disk.desc i
  call : Roused s.call s'.call

/-- What an attempt that succeeds has done. -/
structure Takes (s : State ι β) (i j k : Nat) (s' : State ι β) : Prop where
  lt : i < num ∧ j < num ∧ k < num
  ne : i ≠ j ∧ i ≠ k ∧ j ≠ k
  free : s.disk.free i = true ∧ s.disk.free j = true ∧ s.disk.free k = true
  eq : s' = ((s.setFree i false).setFree j false).setFree k false

theorem alloc3Desc_cases (s : State ι β) :
    (∃ i j k s', s.alloc3Desc = .ok (some [i, j, k], s') ∧ Takes s i j k s') ∨
      ∃ s', s.alloc3Desc = .ok (none, s') ∧ Scarce s.disk.free ∧ GivesUp s s' := by
  unfold alloc3Desc
  cases hi : s.allocDesc with
  | none =>
    right
    refine ⟨s, by simp [allocLoop, hi, pure, Except.pure, bind, Except.bind], ?_, Rest.refl s, rfl, fun _ _ => rfl, Roused.refl _⟩
    intro i _ _ hi' _ _ hfree
    simp [allocDesc_none hi i hi'] at hfree
  | some r =>
    obtain ⟨i, s₁⟩ := r
    obtain ⟨hilt, hifree, rfl⟩ := allocDesc_some hi
    have hi₁ : (s.setFree i false).disk.free i = false := by simp [setFree]
    cases hj : (s.setFree i false).allocDesc with
    | none =>
      have hnone := allocDesc_none hj
      right
      refine ⟨(s.setFree i false).release i, ?_, ?_, ((Rest.refl s).setFree i false).release i, ?_, ?_, ?_⟩
      · simp [allocLoop, hi, hj, freeDesc_eq hilt hi₁, pure, Except.pure, bind, Except.bind]
      · have honly : ∀ n < num, s.disk.free n = true → n = i := by
          intro n hn hfree
          by_contra hne
          have := hnone n hn
          simp [setFree, Function.update_of_ne hne, hfree] at this
        intro a b _ ha hb _ hfa hfb _
        exact .inl ((honly a ha hfa).trans (honly b hb hfb).symm)
      · simp [setFree, hifree]
      · intro n hn
        have hne : n ≠ i := by
          rintro rfl
          simp [hifree] at hn
        simp [setFree, Function.update_of_ne hne]
      · exact roused_release (s.setFree i false) i
    | some r =>
      obtain ⟨j, s₂⟩ := r
      obtain ⟨hjlt, hjfree, rfl⟩ := allocDesc_some hj
      have hji : j ≠ i := by
        rintro rfl
        simp [hi₁] at hjfree
      have hjfree' : s.disk.free j = true := by simpa [setFree, Function.update_of_ne hji] using hjfree
      have hi₂ : ((s.setFree i false).setFree j false).disk.free i = false := by simp [setFree, Function.update_of_ne hji.symm]
      have hj₂ : (((s.setFree i false).setFree j false).release i).disk.free j = false := by
        simp [setFree, Function.update_of_ne hji]
      cases hk : ((s.setFree i false).setFree j false).allocDesc with
      | none =>
        have hnone := allocDesc_none hk
        right
        refine ⟨(((s.setFree i false).setFree j false).release i).release j, ?_, ?_,
          ((((Rest.refl s).setFree i false).setFree j false).release i).release j, ?_, ?_, ?_⟩
        · simp [allocLoop, hi, hj, hk, freeDesc_eq hilt hi₂, freeDesc_eq hjlt hj₂, pure, Except.pure, bind, Except.bind]
        · have honly : ∀ n < num, s.disk.free n = true → n = i ∨ n = j := by
            intro n hn hfree
            by_contra hne
            obtain ⟨hne, hne'⟩ := not_or.1 hne
            have := hnone n hn
            simp [setFree, Function.update_of_ne hne, Function.update_of_ne hne', hfree] at this
          intro a b d ha hb hd hfa hfb hfd
          have := honly a ha hfa
          have := honly b hb hfb
          have := honly d hd hfd
          omega
        · funext n
          by_cases hnj : n = j
          · simp [hnj, hjfree']
          · by_cases hni : n = i
            · simp [setFree, hni, hifree, Function.update_of_ne hji.symm]
            · simp [setFree, Function.update_of_ne hnj, Function.update_of_ne hni]
        · intro n hn
          have hne : n ≠ i := by
            rintro rfl
            simp [hifree] at hn
          have hne' : n ≠ j := by
            rintro rfl
            simp [hjfree'] at hn
          simp [setFree, Function.update_of_ne hne, Function.update_of_ne hne']
        · exact (roused_release ((s.setFree i false).setFree j false) i).trans (roused_release _ j)
      | some r =>
        obtain ⟨k, s₃⟩ := r
        obtain ⟨hklt, hkfree, rfl⟩ := allocDesc_some hk
        have hkj : k ≠ j := by
          rintro rfl
          simp [setFree] at hkfree
        have hki : k ≠ i := by
          rintro rfl
          simp [hi₂] at hkfree
        have hkfree' : s.disk.free k = true := by
          simpa [setFree, Function.update_of_ne hkj, Function.update_of_ne hki] using hkfree
        left
        refine ⟨i, j, k, _, by simp [allocLoop, hi, hj, hk], ⟨hilt, hjlt, hklt⟩, ⟨hji.symm, hki.symm, hkj.symm⟩,
          ⟨hifree, hjfree', hkfree'⟩, rfl⟩

end State

end Xv6.Virtio
