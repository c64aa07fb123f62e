-- SUMMARY: fork: what a child gets, and what a failed call leaves behind.
import Xv6Threads.System.Frames
import Xv6Threads.System.Threads

/-!
# fork

A call that runs out of memory in `uvmcopy` gives the copied pages back, but
`freeproc` drops the new table without freeing the pages it is made of. A call
that succeeds copies into whatever the slot holds: a descriptor that its last
owner left stays where the caller has none.
-/

namespace Xv6

open PageTable

variable {k k' : Kernel} {p q np : Slot} {b : Boot}

namespace Kernel

/-! ## A failed call -/

/-- The pages that `fork` by `p` takes: four in `allocproc`, one for every page
of the caller, and the table pages for them. -/
def forkNeed (k : Kernel) (p : Slot) : Nat :=
  4 + pagesBelow (k.proc p).sz + blank.missing (Finset.range (pagesBelow (k.proc p).sz))

/-- What `allocproc` gives to a slot is taken from the free list. -/
theorem allocproc_weigh {k₁ : Kernel} {npt : PageTable} (h : k.allocproc = .ok (some np, k₁))
    (hnpt : (k₁.proc np).pagetable = some npt) :
    ∃ tf, (k₁.proc np).trapframe = some tf ∧ ∀ w, k₁.mem.weigh w + npt.weigh w + w tf.page = k.mem.weigh w := by
  obtain ⟨-, tf, m, pt, m', hk, hpt, rfl⟩ := allocproc_some h
  obtain rfl : pt = npt := by simpa using hnpt
  refine ⟨⟨tf, .junk⟩, by simp, fun w => ?_⟩
  have h₁ := Mem.weigh_kalloc hk w
  have h₂ := (procPagetable_some hpt).pages w
  dsimp only
  omega

/-- A child that could not be given its memory takes the pages of its table with it. -/
theorem fork_lost {k₁ : Kernel} {old new new' : PageTable} {m : Mem} {sz : Nat}
    (halloc : k.allocproc = .ok (some np, k₁)) (hnew : (k₁.proc np).pagetable = some new)
    (hcopy : uvmcopy k₁.mem old new sz = .ok (false, m, new'))
    (hfree : freeproc ({ k₁ with mem := m }.setTable np new') np = .ok k') :
    (k'.proc np).state = .unused ∧ ∀ w, k'.mem.weigh w + new'.weigh w = k.mem.weigh w := by
  obtain ⟨tf, htf, hweigh⟩ := allocproc_weigh halloc hnew
  obtain ⟨hi, hmaps, ⟨hb, -⟩ | ⟨-, rfl⟩⟩ := uvmcopy_ok hcopy
  · cases hb
  have hungrouped : (({ k₁ with mem := m }.setTable np new').proc np).groupLeader = none := by
    obtain ⟨-, tf', m', pt', m'', -, -, rfl⟩ := allocproc_some halloc
    simp [setTable, Proc.claim]
  rw [freeproc_of_ungrouped hungrouped, freeSelf, setTable, modify_proc_same, freeTrapframe] at hfree
  dsimp only at hfree
  rw [htf] at hfree
  obtain ⟨m', hkfree, hfree⟩ := Except.bind_ok_iff.1 hfree
  cases hfree
  refine ⟨by rw [modify_proc_same]; rfl, fun w => ?_⟩
  have h₁ := Mem.weigh_kfree hkfree w
  have h₂ := hmaps.taken w
  have h₄ := hweigh w
  rw [span_self] at h₂
  show m'.weigh w + new'.weigh w = _
  have h₃ : (modify { k₁ with mem := m } np fun pr => { pr with pagetable := some new' }).mem.weigh w = m.weigh w := rfl
  omega

/-- A call that has run out of memory is undone if and only if it ran out in
`allocproc`, which takes four pages. -/
theorem fork_undone_iff (hk : Reachable b k) (_hp : (k.proc p).state = .running) (hfind : k.findUnused = some np) :
    (k.mem.freelist.length < k.forkNeed p → ∃ k', k.fork p = .ok (-1, k') ∧ k.Undone np k') ↔
    (k.forkNeed p ≤ k.mem.freelist.length ∨ k.mem.freelist.length < 4) := by
  constructor
  · intro hundone
    rw [or_iff_not_imp_left, not_le]
    intro hshort
    by_contra hfour
    obtain ⟨k', hfork, hslot⟩ := hundone hshort
    obtain ⟨k₁, halloc⟩ := allocproc_total hfind (not_lt.1 hfour)
    rcases fork_ok hfork with hnone | ⟨np', k₁', old, new, m, new', halloc', -, hnew, hend⟩
    · rw [halloc] at hnone
      cases hnone
    obtain rfl : np' = np := Option.some.inj ((allocproc_some halloc').1.symm.trans hfind)
    rcases hend with ⟨hcopy, hfree⟩ | ⟨-, ntf, regs, ft, ir, files, cwd, name, -, rfl⟩
    · -- the root of the new table is gone
      have hlost := (fork_lost halloc' hnew hcopy hfree).2 fun _ => 1
      have hsame : k'.mem.weigh (fun _ => 1) = k.mem.weigh fun _ => 1 := Weight.ofList_perm hslot.free _
      have hroot : 0 < new'.weigh fun _ => 1 := Nat.add_pos_left Nat.one_pos _
      omega
    · have hstate := hslot.slot
      simp at hstate
  · rintro (henough | hfour) hshort
    · omega
    · obtain ⟨⟨o, k'⟩, halloc, rfl⟩ := allocproc_short hfind (ranged_of_reaches hk) hfour
      refine ⟨k', ?_, allocproc_none_undone hfind halloc⟩
      rw [fork, halloc]
      rfl

end Kernel

/-- With three free pages, `allocproc` gives up and nothing is changed. -/
theorem fork_undone_of_three : ∃ (k : Kernel) (np : Slot), Reachable (Boot.tight 10) k ∧
    k.mem.freelist.length < k.forkNeed ⟨0, by decide⟩ ∧
    ∃ k', k.fork ⟨0, by decide⟩ = .ok (-1, k') ∧ k.Undone np k' := by
  have hrun : ((Boot.tight 10).run anyStep [.schedule ⟨0, by decide⟩]).any
      (fun k => (k.proc ⟨0, by decide⟩).state = .running ∧ k.findUnused = some ⟨1, by decide⟩ ∧
        k.mem.freelist.length = 3 ∧ k.forkNeed ⟨0, by decide⟩ = 7) = true := by
    decide +kernel
  obtain ⟨k, hk, hc⟩ := exists_reaches_of_run hrun
  obtain ⟨hp, hfind, hfree, hneed⟩ := of_decide_eq_true hc
  have hshort : k.mem.freelist.length < k.forkNeed ⟨0, by decide⟩ := by
    rw [hfree, hneed]
    decide
  exact ⟨k, _, hk, hshort, (Kernel.fork_undone_iff hk hp hfind).2 (.inr (by omega)) hshort⟩

/-- With five free pages, the child gets a table but no place for the entry of
its only page; three pages are lost. -/
theorem fork_undone_of_five : ¬ ∀ (b : Boot) (k : Kernel) (p np : Slot), Reachable b k →
    (k.proc p).state = .running → k.findUnused = some np → k.mem.freelist.length < k.forkNeed p →
    ∃ k', k.fork p = .ok (-1, k') ∧ k.Undone np k' := by
  intro hall
  have hrun : ((Boot.tight 12).run anyStep [.schedule ⟨0, by decide⟩]).any
      (fun k => (k.proc ⟨0, by decide⟩).state = .running ∧ k.findUnused = some ⟨1, by decide⟩ ∧
        k.mem.freelist.length = 5 ∧ k.forkNeed ⟨0, by decide⟩ = 7 ∧
        (match k.fork ⟨0, by decide⟩ with
          | .ok (_, k') => decide (k'.mem.freelist.length < 5)
          | .error _ => false) = true) = true := by
    decide +kernel
  obtain ⟨k, hk, hc⟩ := exists_reaches_of_run hrun
  obtain ⟨hp, hfind, hfree, hneed, hlost⟩ := of_decide_eq_true hc
  obtain ⟨k', hfork, hundone⟩ := hall _ k _ _ hk hp hfind (by rw [hfree, hneed]; decide)
  rw [hfork] at hlost
  have hlen := hundone.free.length_eq
  have hless : k'.mem.freelist.length < 5 := of_decide_eq_true hlost
  omega

namespace Kernel

/-! ## A child -/

/-- What `fork` gives to the slot `np`, in the table `new`. -/
structure Begets (k : Kernel) (p np : Slot) (r : Int) (k' : Kernel) (old new : PageTable) : Prop where
  pid : (k'.proc np).pid = r
  table : (k.proc p).pagetable = some old
  child : (k'.proc np).pagetable = some new
  size : (k'.proc np).sz = (k.proc p).sz
  copied : ∃ m fresh, k.mem.Draws m ∧ fresh.Framed ∧ fresh.Hollow 0 ∧
    uvmcopy m old fresh (k.proc p).sz = .ok (true, k'.mem, new)
  regs : ∃ tf ntf, (k.proc p).trapframe = some tf ∧ (k'.proc np).trapframe = some ntf ∧
    ntf.regs = { tf.regs with a0 := 0 }
  ofile : (k'.proc np).ofile = k.merged p np
  cwd : ∃ ip, (k.proc p).cwd = some ip ∧ (k'.proc np).cwd = some ip
  group : (k'.proc np).groupLeader = none
  isThread : (k'.proc np).isThread = (k.proc np).isThread
  killed : (k'.proc np).killed = (k.proc np).killed
  parent : (k'.proc np).parent = some p
  others : ∀ q, q ≠ np → k'.proc q = k.proc q

theorem fork_begets {r : Int} (hfind : k.findUnused = some np) (hne : p ≠ np) (h : k.fork p = .ok (r, k'))
    (hr : r ≠ -1) : ∃ old new, k.Begets p np r k' old new := by
  unfold fork at h
  obtain ⟨⟨o, k₁⟩, halloc, h⟩ := Except.bind_ok_iff.1 h
  split at h
  · rename_i heq
    cases heq
    cases h
    exact absurd rfl hr
  rename_i np' k₁' heq
  cases heq
  obtain rfl : np' = np := Option.some.inj ((allocproc_some halloc).1.symm.trans hfind)
  have hdraws := (allocproc_draws halloc).1
  split at h
  · rename_i old new tf ntf hold hnew htf hntf
    obtain ⟨⟨copied, m, new'⟩, hcopy, h⟩ := Except.bind_ok_iff.1 h
    cases copied with
    | false =>
      obtain ⟨k₂, hfree, h⟩ := Except.bind_ok_iff.1 h
      cases h
      exact absurd rfl hr
    | true =>
      obtain ⟨k₂, hfiles, h⟩ := Except.bind_ok_iff.1 h
      obtain ⟨k₃, hcwd, h⟩ := Except.bind_ok_iff.1 h
      obtain ⟨-, hmerged⟩ := dupFiles_merged hne hfiles
      obtain ⟨ft, files, rfl⟩ := dupFiles_ok hfiles
      obtain ⟨ir, ip, hip, rfl⟩ := dupCwd_ok hcwd
      obtain ⟨rfl, rfl⟩ := Prod.mk.inj (Except.ok.inj h)
      obtain ⟨-, tf₀, m₀, fresh, m₁, -, hfresh, rfl⟩ := allocproc_some halloc
      obtain rfl : fresh = new := by simpa using hnew
      have hframe := procPagetable_some hfresh
      simp only [setTable, Function.update_self, Function.update_of_ne hne, modify_proc_same,
        modify_proc_ne hne] at hip hmerged hold htf hcopy
      refine ⟨old, new', ?_, hold, ?_, ?_, ⟨m₁, fresh, hdraws, hframe.framed, hframe.hollow, hcopy⟩, ?_, ?_,
        ⟨ip, hip, ?_⟩, ?_, ?_, ?_, ?_, fun q hq => ?_⟩
      · simp
      · simp [setTable]
      · simp [setTable, modify_proc_ne hne, hne]
      · exact ⟨tf, { ntf with regs := { tf.regs with a0 := 0 } }, htf, by simp, rfl⟩
      · funext i
        simp [setTable, hmerged, merged, modify_proc_ne hne, hne, Proc.claim]
      · simp
      · simp [setTable, Proc.claim]
      · simp [setTable, Proc.claim]
      · simp [setTable, Proc.claim]
      · simp
      · simp [setTable, modify_proc_ne hq, hq]
  · cases h

/-- The child in slot `np` is a copy of `p`: every page, in a frame of its own,
the registers but `a0`, the descriptors and the directory; it is in no group and
not killed, and nothing else has changed. -/
structure Forked (k : Kernel) (p np : Slot) (r : Int) (k' : Kernel) : Prop where
  pid : (k'.proc np).pid = r
  size : (k'.proc np).sz = (k.proc p).sz
  pages : ∀ v < pagesBelow (k.proc p).sz, ∃ e f, k.pte p v = some e ∧ k'.pte np v = some ⟨f, e.perm⟩ ∧
    k'.mem.data f = k.mem.data e.ppn
  hollow : ∀ v, pagesBelow (k.proc p).sz ≤ v → v < userPages → k'.pte np v = none
  apart : ∀ v < pagesBelow (k.proc p).sz, ∀ e, k'.pte np v = some e →
    (∀ u < pagesBelow (k.proc p).sz, ∀ e', k'.pte np u = some e' → e.ppn = e'.ppn → v = u) ∧
    ∀ q, q ≠ np → k'.Live q → ¬ k'.MapsUser q e.ppn
  regs : ∃ tf ntf, (k.proc p).trapframe = some tf ∧ (k'.proc np).trapframe = some ntf ∧
    ntf.regs = { tf.regs with a0 := 0 }
  ofile : (k'.proc np).ofile = (k.proc p).ofile
  cwd : (k'.proc np).cwd = (k.proc p).cwd
  group : (k'.proc np).groupLeader = none ∧ (k'.proc np).isThread = false
  killed : (k'.proc np).killed = false
  parent : (k'.proc np).parent = some p
  others : ∀ q, q ≠ np → k'.proc q = k.proc q
  memory : ∀ q, k.Live q → ∀ f, k.MapsUser q f → k'.mem.data f = k.mem.data f

/-- The memory of a child, when no free page is in use. -/
theorem Begets.copies {r : Int} {old new : PageTable} (h : k.Begets p np r k' old new) (hsafe : k.FrameSafe)
    (hlive : k.Live p) : k.mem.Draws k'.mem ∧ pagesBelow (k.proc p).sz ≤ userPages ∧
      (∃ m, k.mem.Draws m ∧ CopiesOf old m k'.mem new 0 (pagesBelow (k.proc p).sz)) ∧
      ∀ v, pagesBelow (k.proc p).sz ≤ v → v < userPages → new.leaf v = none := by
  obtain ⟨m, fresh, hdraws, hframed, hhollow, hcopy⟩ := h.copied
  obtain ⟨hi, hmaps, ⟨-, rfl⟩ | ⟨hb, -⟩⟩ := uvmcopy_ok hcopy
  swap
  · cases hb
  -- the page of the trapframe was not copied over
  have hbelow : pagesBelow (k.proc p).sz ≤ userPages := by
    by_contra hlt
    exact hframed.trapframe (hmaps.inside userPages (Nat.zero_le _) (by omega)).2.1
  have hcopies := uvmcopy_copies (hdraws.nodup hsafe.nodup) (fun u e he hu => hdraws.notMem fun hmem =>
    (hsafe.unused e.ppn hmem p hlive).1 ⟨old, u, e, h.table, by omega, he, rfl⟩) hcopy
  have hlim : userPages < vpnLimit := by decide
  refine ⟨hdraws.trans hcopies.draws, hbelow, ⟨m, hdraws, hcopies⟩, fun v hv hv' => ?_⟩
  rw [hmaps.outside v (by omega) (by omega)]
  exact hhollow v (Nat.zero_le _) hv'

/-- With no free page in use, a child is what it should be if and only if its
slot holds no descriptor where the caller has none, and no mark of a kill. -/
theorem fork_forked_iff {r : Int} (hk : Reachable b k) (hp : (k.proc p).state = .running) (hsafe : k.FrameSafe)
    (hfind : k.findUnused = some np) (h : k.fork p = .ok (r, k')) (hr : r ≠ -1) :
    k.Forked p np r k' ↔
      (∀ i, (k.proc p).ofile i = none → (k.proc np).ofile i = none) ∧ (k.proc np).killed = false := by
  have hunused := findUnused_unused hfind
  have hne : p ≠ np := fun heq => by
    rw [heq, hunused] at hp
    cases hp
  have hlive : k.Live p := by
    rw [Live, hp]
    decide
  obtain ⟨old, new, hb⟩ := fork_begets hfind hne h hr
  constructor
  · intro hf
    refine ⟨fun i hi => ?_, hb.killed.symm.trans hf.killed⟩
    have hfiles := congrFun (hb.ofile.symm.trans hf.ofile) i
    rw [merged, hi] at hfiles
    exact hfiles
  · rintro ⟨hbare, hkilled⟩
    obtain ⟨hdraws, hbelow, ⟨m, hm, hcopies⟩, hhollow⟩ := hb.copies hsafe hlive
    have hpte : ∀ v, k'.pte np v = new.leaf v := fun v => by
      rw [pte, show (k'.rooms np).table = some new from hb.child]
      rfl
    have hpte₀ : ∀ v, k.pte p v = old.leaf v := fun v => by
      rw [pte, show (k.rooms p).table = some old from hb.table]
      rfl
    have hkept : ∀ q, k.Live q → ∀ f, k.MapsUser q f → f ∉ k.mem.freelist := fun q hq f hmap hmem =>
      (hsafe.unused f hmem q hq).1 hmap
    refine ⟨hb.pid, hb.size, fun v hv => ?_, fun v hv hv' => ?_, fun v hv e he => ⟨fun u hu e' he' heq => ?_, ?_⟩,
      hb.regs, ?_, ?_, ⟨hb.group, ?_⟩, hb.killed.trans hkilled, hb.parent, hb.others, fun q hq f hmap => ?_⟩
    · obtain ⟨e, f, he, hf, -, -, hdata⟩ := hcopies.copy v (Nat.zero_le _) hv
      refine ⟨e, f, by rw [hpte₀, he], by rw [hpte, hf], ?_⟩
      rw [hdata, hm.data e.ppn (hkept p hlive e.ppn ⟨old, v, e, hb.table, by omega, he, rfl⟩)]
    · rw [hpte]
      exact hhollow v hv hv'
    · rw [hpte] at he he'
      exact hcopies.distinct v u (Nat.zero_le _) hv (Nat.zero_le _) hu e e' he he' heq
    · rw [hpte] at he
      obtain ⟨e₀, f, -, hf, hmem, -⟩ := hcopies.copy v (Nat.zero_le _) hv
      rw [he] at hf
      cases hf
      rintro q hq hql ⟨pt, u, x, hpt, hu, hx, rfl⟩
      rw [Live, hb.others q hq] at hql
      rw [hb.others q hq] at hpt
      exact hkept q hql x.ppn ⟨pt, u, x, hpt, hu, hx, rfl⟩ (hm.freelist.subset hmem)
    · rw [hb.ofile]
      funext i
      rw [merged]
      cases hi : (k.proc p).ofile i with
      | none => exact hbare i hi
      | some f => rfl
    · obtain ⟨ip, hip, hip'⟩ := hb.cwd
      rw [hip, hip']
    · rw [hb.isThread]
      exact ((wellGrouped_of_reaches hk).idle np (congrArg ProcState.phase hunused)).2
    · exact hdraws.data f (hkept q hq f hmap)

end Kernel

/-- The first process forks. -/
theorem fork_forked_of_first : ∃ (k k' : Kernel) (r : Int), Reachable .standard k ∧
    k.fork ⟨0, by decide⟩ = .ok (r, k') ∧ r ≠ -1 ∧ k.Forked ⟨0, by decide⟩ ⟨1, by decide⟩ r k' := by
  have hrun : (Boot.standard.run Kernel.Gentle [.schedule ⟨0, by decide⟩]).any
      (fun k => (k.proc ⟨0, by decide⟩).state = .running ∧ k.findUnused = some ⟨1, by decide⟩ ∧
        (∀ i, (k.proc ⟨1, by decide⟩).ofile i = none) ∧ (k.proc ⟨1, by decide⟩).killed = false ∧
        (match k.fork ⟨0, by decide⟩ with | .ok (r, _) => decide (r ≠ -1) | .error _ => false) = true) = true := by
    decide +kernel
  obtain ⟨k, hk, hc⟩ := exists_reaches_of_run hrun
  obtain ⟨hp, hfind, hfiles, hkilled, hr⟩ := of_decide_eq_true hc
  have hreach : Reachable .standard k := hk.mono fun _ _ _ => trivial
  have hsafe := Kernel.frameSafe_of_ledger (sound_of_reaches (hk.mono fun _ _ => Kernel.frameGuard_of_gentle)).safe
  cases hfork : k.fork ⟨0, by decide⟩ with
  | error e =>
    rw [hfork] at hr
    cases hr
  | ok x =>
    obtain ⟨r, k'⟩ := x
    rw [hfork] at hr
    have hr := of_decide_eq_true hr
    exact ⟨k, k', r, hreach, hfork, hr,
      (Kernel.fork_forked_iff hreach hp hsafe hfind hfork hr).2 ⟨fun i _ => hfiles i, hkilled⟩⟩

/-- A thread with an open file is gone with its leader. The first process has
closed the file; its second child, in the slot of the thread, has it open. -/
theorem fork_forked_of_leftover : ¬ ∀ (b : Boot) (k k' : Kernel) (p np : Slot) (r : Int), Reachable b k →
    (k.proc p).state = .running → k.findUnused = some np → k.fork p = .ok (r, k') → r ≠ -1 →
    k.Forked p np r k' := by
  intro hall
  have hrun : (Boot.standard.run anyStep
      [.schedule ⟨0, by decide⟩, .call ⟨0, by decide⟩ (.open ⟨0, by decide⟩ false true false),
        .call ⟨0, by decide⟩ .fork, .schedule ⟨1, by decide⟩, .call ⟨1, by decide⟩ (.threadCreate 0 0),
        .schedule ⟨2, by decide⟩, .call ⟨2, by decide⟩ .threadExit, .call ⟨1, by decide⟩ (.exit 0),
        .call ⟨0, by decide⟩ (.wait 0), .call ⟨0, by decide⟩ (.close 0), .call ⟨0, by decide⟩ .fork]).any
      (fun k => (k.proc ⟨0, by decide⟩).state = .running ∧ k.findUnused = some ⟨2, by decide⟩ ∧
        (match k.fork ⟨0, by decide⟩ with
          | .ok (r, k') => decide (r ≠ -1 ∧ (k'.proc ⟨2, by decide⟩).ofile ⟨0, by decide⟩ ≠
              (k.proc ⟨0, by decide⟩).ofile ⟨0, by decide⟩)
          | .error _ => false) = true) = true := by
    decide +kernel
  obtain ⟨k, hk, hc⟩ := exists_reaches_of_run hrun
  obtain ⟨hp, hfind, hr⟩ := of_decide_eq_true hc
  cases hfork : k.fork ⟨0, by decide⟩ with
  | error e =>
    rw [hfork] at hr
    cases hr
  | ok x =>
    obtain ⟨r, k'⟩ := x
    rw [hfork] at hr
    obtain ⟨hr, hfile⟩ := of_decide_eq_true hr
    exact hfile (congrFun (hall _ k k' _ _ r hk hp hfind hfork hr).ofile _)

end Xv6
