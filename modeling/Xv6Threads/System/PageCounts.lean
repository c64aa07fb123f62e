-- SUMMARY: The reference counts of user pages: always below the number of slots that map the page.
import Xv6Threads.System.Frames

/-!
# Page reference counts

A page that is handed out keeps the count it has, which is zero at boot, and
only sharing counts up. So the count of a user page starts one too low and
stays too low: a page mapped by one slot has count zero, and a page shared with
one thread has count one.
-/

namespace Xv6

open PageTable Weight

variable {b : Boot} {k : Kernel} {q : Slot} {f : Ppn}

namespace Kernel

open Classical in
/-- The slots in use that map page `f`. -/
noncomputable def mappers (k : Kernel) (f : Ppn) : Finset Slot :=
  Finset.univ.filter fun q => (k.proc q).state ≠ .unused ∧ k.MapsUser q f

/-- The counts are what the design asks for. -/
structure CountsRight (k : Kernel) : Prop where
  mapped : ∀ f, (k.mappers f).Nonempty → k.mem.refcount f = (k.mappers f).card
  free : ∀ f ∈ k.mem.freelist, k.mem.refcount f = 0

theorem mem_mappers : q ∈ k.mappers f ↔ (k.proc q).state ≠ .unused ∧ k.MapsUser q f := by
  simp [mappers]

theorem mappers_eq_users (hH : Housed k) (f : Ppn) : k.mappers f = k.ledger.users f := by
  ext q
  rw [mem_mappers, Ledger.mem_users, mapsUser_iff]
  refine ⟨fun h => h.2, fun h => ⟨fun hu => ?_, h⟩⟩
  have hphase : (k.entries q).phase = .unused := by simp [entries, Proc.entry, hu, ProcState.phase]
  simp only [ledger, (hH q).vacant hphase, Room.user_empty] at h
  exact Nat.lt_irrefl _ h

/-- A live slot that maps a page shows that its count is wrong. -/
theorem refcount_lt (hH : Housed k) (hs : k.ledger.Sound) (hq : k.Live q) (hf : k.MapsUser q f) :
    k.mem.refcount f < (k.mappers f).card := by
  have hused : k.mem.refcount f + 1 ≤ (k.ledger.users f).card := hs.short.used q f hq (mapsUser_iff.1 hf)
  rw [mappers_eq_users hH]
  omega

theorem not_countsRight (hq : k.Live q) (hf : k.MapsUser q f) (hlt : k.mem.refcount f < (k.mappers f).card) :
    ¬ k.CountsRight := by
  intro h
  rw [h.mapped f ⟨q, mem_mappers.2 ⟨hq.1, hf⟩⟩] at hlt
  exact Int.lt_irrefl _ hlt

end Kernel

/-- In no state of a guarded run, the first one included, are the counts right
while a live slot maps a user page. -/
theorem refcount_never_right (h : (system b).Reaches Kernel.FrameGuard k) (hq : k.Live q)
    (hf : k.MapsUser q f) : k.mem.refcount f < (k.mappers f).card ∧ ¬ k.CountsRight := by
  have hH := (housed_of_reaches (fun _ _ hG => Kernel.FrameGuard.tidy hG) h).2
  have hlt := Kernel.refcount_lt hH (sound_of_reaches h) hq hf
  exact ⟨hlt, Kernel.not_countsRight hq hf hlt⟩

/-- The table of a slot maps its first page. -/
theorem Kernel.exists_mapsUser (h : (((k.proc q).pagetable.bind fun pt => pt.leaf 0).isSome) = true) :
    ∃ f, k.MapsUser q f := by
  obtain ⟨x, hx⟩ := Option.isSome_iff_exists.1 h
  obtain ⟨pt, hpt, hleaf⟩ := Option.bind_eq_some_iff.1 hx
  exact ⟨x.ppn, pt, 0, x, hpt, by decide, hleaf, rfl⟩

/-- A process with a thread. -/
theorem refcount_never_right_of_two : ∃ k f, (system .standard).Reaches Kernel.FrameGuard k ∧
    k.Live ⟨1, by decide⟩ ∧ k.MapsUser ⟨1, by decide⟩ f ∧ k.mem.refcount f < (k.mappers f).card ∧
    ¬ k.CountsRight := by
  have hrun : (Boot.standard.run Kernel.Gentle
      [.schedule ⟨0, by decide⟩, .call ⟨0, by decide⟩ (.threadCreate 0 0)]).any
      (fun k => k.Live ⟨1, by decide⟩ ∧
        (((k.proc ⟨1, by decide⟩).pagetable.bind fun pt => pt.leaf 0).isSome) = true) = true := by
    decide +kernel
  obtain ⟨k, hk, hc⟩ := exists_reaches_of_run hrun
  obtain ⟨hlive, hmap⟩ := of_decide_eq_true hc
  obtain ⟨f, hf⟩ := Kernel.exists_mapsUser hmap
  have hk' := hk.mono fun _ _ => Kernel.frameGuard_of_gentle
  exact ⟨k, f, hk', hlive, hf, refcount_never_right hk' hlive hf⟩

/-- The first process maps a page that has count zero. -/
theorem refcount_wrong_at_boot : ¬ ∀ (b : Boot) (k : Kernel), Reachable b k → k.CountsRight := by
  intro h
  have hrun : (Boot.standard.run Kernel.Gentle []).any
      (fun k => k.Live ⟨0, by decide⟩ ∧
        (((k.proc ⟨0, by decide⟩).pagetable.bind fun pt => pt.leaf 0).isSome) = true) = true := by
    decide +kernel
  obtain ⟨k, hk, hc⟩ := exists_reaches_of_run hrun
  obtain ⟨hlive, hmap⟩ := of_decide_eq_true hc
  obtain ⟨f, hf⟩ := Kernel.exists_mapsUser hmap
  have hk' := hk.mono fun _ _ => Kernel.frameGuard_of_gentle
  have hH := (housed_of_reaches (fun _ _ hG => Kernel.FrameGuard.tidy hG) hk').2
  have hlt := Kernel.refcount_lt hH (sound_of_reaches hk') hlive hf
  exact Kernel.not_countsRight hlive hf hlt (h _ k (hk.mono fun _ _ _ => trivial))

end Xv6
