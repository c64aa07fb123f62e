-- SUMMARY: What fork, exec, exit and reaping do to the rooms of the slots and to the pages they hold.
import Xv6Threads.Process.Moves
import Xv6Threads.Process.Rooms

/-!
# Holdings

One specification for each call that gives a slot its memory or takes it away.
Two ways of losing pages show here already: a failed `fork` forgets the table
of the child, and a table that is freed returns a user page only when the
count of the page was exactly right.
-/

namespace Xv6

open PageTable

namespace Kernel

variable {k k' : Kernel} {p q np : Slot} {w : Ppn → Nat}

/-! ## Taking a slot -/

/-- A slot that was empty has been given a trapframe and an empty table. -/
structure Moved (k : Kernel) (np : Slot) (k' : Kernel) (pt : PageTable) (tf : Ppn) : Prop where
  rooms : k'.rooms = Function.update k.rooms np ⟨some pt, some tf, 0⟩
  kend : k'.mem.kend = k.mem.kend
  refcount : k'.mem.refcount = k.mem.refcount
  pipes : k'.pipes = k.pipes
  owned : ∀ w, k'.owned w = k.owned w
  framed : pt.Framed
  hollow : pt.Hollow 0

theorem allocproc_moved (h : k.allocproc = .ok (some np, k')) (hempty : k.rooms np = .empty) :
    ∃ pt tf, (k'.proc np).pagetable = some pt ∧ k.Moved np k' pt tf := by
  obtain ⟨-, tf, m, pt, m', hk, hpt, hk'⟩ := allocproc_some h
  have hfresh := procPagetable_some hpt
  have hsize : (k.proc np).sz = 0 := congrArg Room.size hempty
  have hrooms : k'.rooms = Function.update k.rooms np ⟨some pt, some tf, 0⟩ := by
    funext q
    by_cases hq : q = np
    · subst hq
      simp [hk', rooms, Proc.room, Proc.claim, hsize]
    · simp [hk', rooms, hq]
  have hmem : k'.mem = m' := by rw [hk']
  have hpipes : k'.pipes = k.pipes := by rw [hk']
  refine ⟨pt, tf, by simp [hk'], hrooms, ?_, ?_, hpipes, fun w => ?_, hfresh.framed, hfresh.hollow⟩
  · rw [hmem, hfresh.kend, Mem.kalloc_kend hk]
  · rw [hmem, hfresh.refcount, Mem.kalloc_refcount hk]
  · have howned := owned_update hrooms w
    have := Mem.weigh_kalloc hk w
    have := hfresh.pages w
    rw [hempty, Room.held_empty, hmem] at howned
    simp only [Room.held, Weight.ofOption_some, Option.elim_some, pipeWeight, hpipes] at howned
    omega

theorem allocproc_balanced (h : k.allocproc = .ok (none, k'))
    (hempty : ∀ q, (k.proc q).state = .unused → k.rooms q = .empty) : k.Balanced k' := by
  rcases allocproc_none h with ⟨-, rfl⟩ | ⟨p, m, hfind, hmem, rfl⟩
  · exact .refl _
  have hp := hempty p (findUnused_unused hfind)
  -- the slot is as empty as before
  have hrooms : rooms { k with
      mem := m
      nextpid := (k.nextpid + 1).bmod (2 ^ 32)
      proc := Function.update k.proc p ((k.proc p).claim k.nextpid).clear } = k.rooms := by
    funext q
    by_cases hq : q = p
    · subst hq
      rw [hp]
      simp [rooms, Proc.room, Proc.clear, Room.empty]
    · simp [rooms, hq]
  rcases hmem with hk | ⟨tf, m₁, m₂, hk, hpt, hfree⟩
  · obtain ⟨-, rfl⟩ := Mem.kalloc_none hk
    exact .of_exchange hrooms rfl rfl fun _ => rfl
  · have hg := procPagetable_none hpt
    refine .of_exchange hrooms ?_ ?_ fun w => ?_
    · exact (Mem.kfree_kend hfree).trans ((hg fun _ => 0).kend.trans (Mem.kalloc_kend hk))
    · exact (Mem.kfree_refcount hfree).trans ((hg fun _ => 0).refcount.trans (Mem.kalloc_refcount hk))
    · have := Mem.weigh_kfree hfree w
      have := (hg w).weigh
      have := Mem.weigh_kalloc hk w
      simp only [pipeWeight]
      omega

/-! ## Giving up a slot -/

theorem freeTrapframe_ok {m m' : Mem} {pr : Proc} (h : freeTrapframe m pr = .ok m') (w : Ppn → Nat) :
    m.Gains w m' (Weight.ofOption w pr.room.frame) := by
  unfold freeTrapframe at h
  split at h
  · rename_i tf htf
    refine ⟨Mem.kfree_kend h, Mem.kfree_refcount h, ?_⟩
    rw [Mem.weigh_kfree h]
    simp [Proc.room, htf, Nat.add_comm]
  · rename_i htf
    cases h
    exact ⟨rfl, rfl, by simp [Proc.room, htf]⟩

/-- The end of `freeproc` frees the trapframe; a table that is still there is
forgotten with its pages. -/
theorem freeSelf_rooms (h : k.freeSelf p = .ok k') :
    k'.rooms = Function.update k.rooms p .empty ∧ k'.mem.kend = k.mem.kend ∧
      k'.mem.refcount = k.mem.refcount ∧ k'.pipes = k.pipes ∧
      ∀ w, k'.owned w + (k.rooms p).table.elim 0 (PageTable.weigh w) = k.owned w := by
  obtain ⟨m, hm, hk'⟩ := freeSelf_ok h
  have hg := freeTrapframe_ok hm
  have hrooms : k'.rooms = Function.update k.rooms p .empty := by
    funext q
    by_cases hq : q = p
    · subst hq
      simp [hk', rooms, Proc.room, Proc.clear, Room.empty]
    · simp [hk', rooms, hq]
  have hmem : k'.mem = m := by rw [hk']
  have hpipes : k'.pipes = k.pipes := by rw [hk']
  refine ⟨hrooms, hmem ▸ (hg fun _ => 0).kend, hmem ▸ (hg fun _ => 0).refcount, hpipes, fun w => ?_⟩
  have howned := owned_update hrooms w
  have hw := (hg w).weigh
  have hheld : (k.rooms p).held w = Weight.ofOption w (k.proc p).room.frame +
      (k.rooms p).table.elim 0 (PageTable.weigh w) := rfl
  rw [Room.held_empty, hmem, hheld, pipeWeight, pipeWeight, hpipes] at howned
  omega

/-! ## fork -/

/-- Slot `np` was given a copy of the memory of `p`. -/
structure Copies (k : Kernel) (p np : Slot) (pt : PageTable) (tf : Ppn) (k' : Kernel) : Prop where
  slot : k.findUnused = some np
  started : (k'.entries np).phase = .active
  rooms : k'.rooms = Function.update k.rooms np ⟨some pt, some tf, (k.rooms p).size⟩
  kend : k'.mem.kend = k.mem.kend
  refcount : k'.mem.refcount = k.mem.refcount
  framed : pt.Framed
  hollow : pt.Hollow (k.rooms p).size
  owned : ∀ w, k'.owned w + pt.user w = k.owned w

/-- `fork` got no slot, lost the pages of a table it could not fill, or gave
the child a copy of every page. -/
theorem fork_rooms {r : Int} (h : k.fork p = .ok (r, k'))
    (hempty : ∀ q, (k.proc q).state = .unused → k.rooms q = .empty)
    (hsize : (k.proc p).sz ≤ trapframeVa) (hp : (k.proc p).state ≠ .unused) :
    k.Balanced k' ∨
    (k'.rooms = k.rooms ∧ k'.mem.kend = k.mem.kend ∧ k'.mem.refcount = k.mem.refcount ∧
      ∃ lost : (Ppn → Nat) → Nat, ∀ w, k'.owned w + lost w = k.owned w) ∨
    ∃ np pt tf, k.Copies p np pt tf k' := by
  rcases fork_ok h with h | ⟨np, k₁, old, new, m, new', halloc, hold, hnew, hcopy⟩
  · exact .inl (allocproc_balanced h hempty)
  refine .inr ?_
  have hfind := (allocproc_some halloc).1
  have hnp := findUnused_unused hfind
  have hnpempty := hempty np hnp
  obtain ⟨pt, tf, hpt, hmoved⟩ := allocproc_moved halloc hnpempty
  obtain rfl : pt = new := Option.some.inj (hpt.symm.trans hnew)
  have hk₁p : k₁.proc p = k.proc p :=
    (allocproc_some_proc halloc).1 p fun heq => hp (heq ▸ hnp)
  rw [hk₁p] at hcopy
  have hroom : k₁.rooms np = ⟨some pt, some tf, 0⟩ := by rw [hmoved.rooms, Function.update_self]
  have hframe : (k₁.proc np).room.frame = some tf := congrArg Room.frame hroom
  have hpages := pagesBelow_le_userPages hsize
  have hlim := userPages_lt
  rcases hcopy with ⟨hcopy, hfree⟩ | ⟨hcopy, ntf, regs, ft, ir, files, cwd, name, hntf, hk'⟩
  · -- the child is given up
    obtain ⟨hi, hmaps, ⟨hb, -⟩ | ⟨-, rfl⟩⟩ := uvmcopy_ok hcopy
    · cases hb
    refine .inl ?_
    have hungrouped : (({ k₁ with mem := m }.setTable np new').proc np).groupLeader = none := by
      obtain ⟨-, tf', m', pt', m'', -, -, rfl⟩ := allocproc_some halloc
      simp [setTable, Proc.claim]
    rw [freeproc_of_ungrouped hungrouped] at hfree
    have hset : rooms ({ k₁ with mem := m }.setTable np new') =
        Function.update k₁.rooms np { k₁.rooms np with table := some new' } := by
      rw [setTable, rooms_modify]
      rfl
    have hmem : ({ k₁ with mem := m }.setTable np new').mem = m := rfl
    have hpipes : ({ k₁ with mem := m }.setTable np new').pipes = k₁.pipes := rfl
    generalize { k₁ with mem := m }.setTable np new' = k₂ at hfree hset hmem hpipes
    obtain ⟨hrooms, hkend, href, -, howned⟩ := freeSelf_rooms hfree
    refine ⟨?_, ?_, ?_, fun w => new'.weigh w, fun w => ?_⟩
    · rw [hrooms, hset, hmoved.rooms, Function.update_idem, Function.update_idem, ← hnpempty,
        Function.update_eq_self]
    · rw [hkend, hmem, hmaps.keeps.kend, hmoved.kend]
    · rw [href, hmem, hmaps.keeps.refcount, hmoved.refcount]
    · have h₁ := howned w
      have h₂ := owned_update hset w
      have h₃ := hmaps.taken w
      have h₄ := hmoved.owned w
      rw [hset, Function.update_self] at h₁
      rw [hroom, hmem, pipeWeight, pipeWeight, hpipes] at h₂
      simp only [Room.held, Option.elim_some] at h₁ h₂
      rw [span_self] at h₃
      dsimp only
      omega
  · -- the child has its copy
    obtain ⟨hi, hmaps, ⟨-, rfl⟩ | ⟨hb, -⟩⟩ := uvmcopy_ok hcopy
    swap
    · cases hb
    have hntf' : ntf.page = tf := by simpa [Proc.room, hntf] using hframe
    have hrooms : k'.rooms = Function.update k₁.rooms np ⟨some new', some tf, (k.proc p).sz⟩ := by
      funext q
      by_cases hq : q = np
      · subst hq
        simp [hk', rooms, Proc.room, hntf']
      · simp [hk', rooms, hq]
    have hmem : k'.mem = m := by rw [hk']
    have hpipes : k'.pipes = k₁.pipes := by rw [hk']
    refine .inr ⟨np, new', tf, hfind, ?_, ?_, ?_, ?_, hmaps.outside.framed hpages hmoved.framed,
      fun v hv hv' => ?_, fun w => ?_⟩
    · simp [hk', entries, Proc.entry, ProcState.phase]
    · rw [hrooms, hmoved.rooms, Function.update_idem]
      rfl
    · rw [hmem, hmaps.keeps.kend, hmoved.kend]
    · rw [hmem, hmaps.keeps.refcount, hmoved.refcount]
    · have hv₀ : pagesBelow (k.proc p).sz ≤ v := hv
      rw [hmaps.outside v (by omega) (by omega)]
      exact hmoved.hollow v (Nat.zero_le _) hv'
    · have h₂ := owned_update hrooms w
      have h₃ := hmaps.taken w
      have h₄ := hmoved.owned w
      have huser := hmaps.outside.user (Nat.zero_le _) hpages (w := w)
      have hzero : pt.user w = 0 := span_eq_zero fun v _ hv => hmoved.hollow v (Nat.zero_le _) hv
      have hspan : pt.span w 0 (pagesBelow (k.proc p).sz) = 0 :=
        span_eq_zero fun v _ hv => hmoved.hollow v (Nat.zero_le _) (by omega)
      rw [hroom, hmem, pipeWeight, pipeWeight, hpipes] at h₂
      simp only [Room.held, Option.elim_some] at h₂
      omega

/-! ## exec -/

open Weight in
/-- A new table was built and given up: its user pages lose a count they never
had, and are lost unless that count happens to be one. -/
structure Scraps (k : Kernel) (k' : Kernel) (pt : PageTable) : Prop where
  rooms : k'.rooms = k.rooms
  kend : k'.mem.kend = k.mem.kend
  counts : ∀ f, k'.mem.refcount f = k.mem.refcount f - pt.user (single f)
  taken : ∀ f, pt.user (single f) ≤ k.owned (single f)
  owned : ∀ f, k'.owned (single f) + pt.user (single f) =
    k.owned (single f) + freedBy true (k.mem.refcount f) (pt.user (single f))

open Weight in
/-- The memory of `p` was replaced by a new table; the old one was freed. -/
structure Replaces (k : Kernel) (p : Slot) (k' : Kernel) (old pt : PageTable) (sz : Nat) : Prop where
  table : (k.rooms p).table = some old
  rooms : k'.rooms = Function.update k.rooms p { k.rooms p with table := some pt, size := sz }
  kend : k'.mem.kend = k.mem.kend
  counts : ∀ f, k'.mem.refcount f = k.mem.refcount f - old.user (single f)
  taken : ∀ f, pt.user (single f) ≤ k.owned (single f)
  owned : ∀ f, k'.owned (single f) + pt.user (single f) =
    k.owned (single f) + freedBy true (k.mem.refcount f) (old.user (single f))
  framed : pt.Framed
  hollow : pt.Hollow sz
  size : sz ≤ trapframeVa

theorem weigh_le_owned (k : Kernel) (w : Ppn → Nat) : k.mem.weigh w ≤ k.owned w := by
  unfold owned
  omega

theorem execBad_scraps {m : Mem} {pt : PageTable} {sz : Nat} {r : Int} (hs : Space k.mem m pt sz)
    (h : k.execBad m pt sz = .ok (r, k')) : k.Scraps k' pt := by
  obtain ⟨m', hfree, h⟩ := Except.bind_ok_iff.1 h
  cases h
  obtain ⟨-, -, -, hd⟩ := procFreepagetable_ok hfree
  refine ⟨rfl, hd.kend.trans hs.kend, fun f => ?_, fun f => ?_, fun f => ?_⟩
  · rw [← hs.refcount]
    exact hd.counts f
  · have := hs.pages (Weight.single f)
    have := k.weigh_le_owned (Weight.single f)
    omega
  · have h₁ := hd.freed f
    have h₂ := hs.pages (Weight.single f)
    rw [hs.refcount] at h₁
    have hrooms : rooms { k with mem := m' } = k.rooms := rfl
    simp only [owned, hrooms, pipeWeight]
    omega

theorem exec_rooms {path : String} {file : Option Image} {argv : List (List UInt8)} {r : Int}
    (h : k.exec p path file argv = .ok (r, k')) :
    k.Balanced k' ∨ (∃ img, file = some img ∧ img.header = true) ∧
      ((∃ pt, k.Scraps k' pt) ∨ ∃ old pt sz, k.Replaces p k' old pt sz) := by
  simp only [exec] at h
  split at h
  · cases h
    exact .inl (.refl _)
  rename_i img
  split at h
  · cases h
    exact .inl (.refl _)
  rename_i hheader
  split at h
  swap
  · cases h
  rename_i tf old htf hold
  obtain ⟨⟨pt, m⟩, hpt, h⟩ := Except.bind_ok_iff.1 h
  split at h
  · rename_i m₀ heq
    cases heq
    cases h
    have hg := procPagetable_none hpt
    refine .inl (.of_exchange rfl (hg fun _ => 0).kend (hg fun _ => 0).refcount fun w => ?_)
    exact congrArg (· + k.pipeWeight w) (hg w).weigh
  rename_i pt₀ m₀ heq
  cases heq
  refine .inr ⟨⟨img, rfl, by simpa using hheader⟩, ?_⟩
  have hstart := (procPagetable_some hpt).space
  obtain ⟨⟨loaded, sz, m₁, pt₁⟩, hload, h⟩ := Except.bind_ok_iff.1 h
  have hloaded := hstart.loadSegments hload
  dsimp only at h
  split at h
  · exact .inl ⟨pt₁, execBad_scraps hloaded h⟩
  obtain ⟨⟨sp, sz₁, m₂, pt₂⟩, hstack, h⟩ := Except.bind_ok_iff.1 h
  have hbuilt := hloaded.buildStack hstack
  split at h
  · rename_i heq
    cases heq
    exact .inl ⟨_, execBad_scraps hbuilt h⟩
  rename_i sp' sz' m' pt' heq
  cases heq
  refine .inr ?_
  obtain ⟨m₃, hfree, h⟩ := Except.bind_ok_iff.1 h
  obtain ⟨-, -, -, hd⟩ := procFreepagetable_ok hfree
  obtain ⟨-, hk'⟩ := Prod.mk.inj (Except.ok.inj h)
  have hrooms : k'.rooms = Function.update k.rooms p { k.rooms p with table := some pt₂, size := sz₁ } := by
    have hroom : { k.rooms p with table := some pt₂, size := sz₁ } = Room.mk (some pt₂) (some tf.page) sz₁ := by
      simp [rooms, Proc.room, htf]
    rw [← hk', rooms_modify, hroom]
    rfl
  have hmem : k'.mem = m₃ := by rw [← hk']; rfl
  have hpipes : k'.pipes = k.pipes := by rw [← hk']; rfl
  refine ⟨old, pt₂, sz₁, hold, hrooms, ?_, fun f => ?_, fun f => ?_, fun f => ?_, hbuilt.framed, hbuilt.hollow,
    hbuilt.size⟩
  · rw [hmem, hd.kend, hbuilt.kend]
  · rw [hmem, hd.counts, hbuilt.refcount]
  · have := hbuilt.pages (Weight.single f)
    have := k.weigh_le_owned (Weight.single f)
    omega
  · have h₁ := hd.freed f
    have h₂ := hbuilt.pages (Weight.single f)
    have h₃ := owned_update hrooms (Weight.single f)
    have htable : (k.rooms p).table = some old := hold
    rw [hbuilt.refcount] at h₁
    rw [hmem, pipeWeight, pipeWeight, hpipes] at h₃
    simp only [Room.held, htable, Option.elim_some] at h₃
    omega

/-! ## exit -/

open Weight in
/-- The table of `p` was freed and its user pages dropped. -/
structure Vacates (k : Kernel) (p : Slot) (k' : Kernel) : Prop where
  rooms : k'.rooms = Function.update k.rooms p (k.rooms p).dropTable
  kend : k'.mem.kend = k.mem.kend
  counts : ∀ f, k'.mem.refcount f = k.mem.refcount f - (k.rooms p).user (single f)
  owned : ∀ f, k'.owned (single f) =
    k.owned (single f) + freedBy true (k.mem.refcount f) ((k.rooms p).user (single f))

theorem exitProcess_rooms {status : Int} (hp : (k.proc p).state ≠ .sleeping)
    (h : k.exitProcess p status = .ok k') : k.Vacates p k' := by
  obtain ⟨hwakes, k₁, hclose, hpipes, hmem⟩ := exitProcess_ok hp h
  have hb := closeFiles_balanced hclose
  have hrooms : k'.rooms = Function.update k.rooms p (k.rooms p).dropTable := by
    rw [hwakes.rooms_eq]
    funext q
    by_cases hq : q = p
    · subst hq
      simp only [rooms, exited, Proc.room, if_pos, Function.update_self]
      rfl
    · simp only [rooms, exited, Proc.room, if_neg hq, Function.update_of_ne hq]
  have hrooms₁ : k'.rooms = Function.update k₁.rooms p (k.rooms p).dropTable := by
    rw [hrooms, hb.rooms]
  have hdrop : ∀ w, (k.rooms p).dropTable.held w = Weight.ofOption w (k.rooms p).frame :=
    fun w => Room.held_of_none rfl
  have howned := fun f => owned_update hrooms₁ (Weight.single f)
  rcases hmem with ⟨hnone, hm⟩ | ⟨pt, hpt, hfree⟩
  · -- no table is left
    have hroom : (k.rooms p).table = none := hnone
    have huser : ∀ w, (k.rooms p).user w = 0 := fun w => Room.user_of_none hroom
    refine ⟨hrooms, by rw [hm, hb.kend], fun f => by rw [hm, hb.refcount, huser]; simp, fun f => ?_⟩
    have h₁ := howned f
    have h₂ := hb.owned (Weight.single f)
    have h₃ : freedBy true (k.mem.refcount f) 0 = 0 := Nat.le_zero.1 (freedBy_le _ _ _)
    rw [hm, pipeWeight, pipeWeight, hpipes, hb.rooms, hdrop, Room.held_of_none hroom] at h₁
    rw [huser, h₃]
    omega
  · have hroom : (k.rooms p).table = some pt := hpt
    obtain ⟨-, -, -, hd⟩ := procFreepagetable_ok hfree
    have huser : ∀ w, (k.rooms p).user w = pt.user w := fun w => Room.user_of_table hroom
    refine ⟨hrooms, by rw [hd.kend, hb.kend], fun f => by rw [hd.counts, hb.refcount, huser], fun f => ?_⟩
    have h₁ := howned f
    have h₂ := hb.owned (Weight.single f)
    have h₃ := hd.freed f
    rw [hb.refcount] at h₃
    rw [pipeWeight, pipeWeight, hpipes, hb.rooms, hdrop, Room.held_of_table hroom] at h₁
    rw [huser]
    omega

/-! ## Reaping -/

open Weight in
/-- The loop of `freeproc` empties the rooms of the members; their user pages
are dropped and never freed. -/
theorem freeMembers_rooms {n : Nat} {o : Option Slot} (h : freeMembers p n o k = .ok k') :
    ∃ ms, p ∉ ms ∧ ms.Nodup ∧ Follows (fun q => (k.entries q).groupNext) o ms p ∧
      (∀ q, k'.rooms q = if q ∈ ms then (k.rooms q).release else k.rooms q) ∧
      k'.mem.kend = k.mem.kend ∧ k'.pipes = k.pipes ∧
      (∀ f, k'.mem.refcount f = k.mem.refcount f - ofList (fun q => (k.rooms q).user (single f)) ms) ∧
      ∀ f, k'.owned (single f) = k.owned (single f) := by
  induction n generalizing o k with
  | zero => cases h
  | succ n ih =>
    cases o with
    | none => cases h
    | some q =>
      rw [freeMembers] at h
      split at h
      · rename_i heq
        cases h
        exact ⟨[], by simp, by simp, by rw [heq]; rfl, fun _ => by simp, rfl, rfl, fun f => by simp, fun f => rfl⟩
      rename_i hqp
      obtain ⟨k₁, hfree, h⟩ := Except.bind_ok_iff.1 h
      obtain ⟨m, m', hm, hm', hk₁⟩ := freeMember_ok hfree
      obtain ⟨ms, hp, hnodup, hfollow, hrooms, hkend, hpipes, hcounts, howned⟩ := ih h
      -- the member just released has lost its link, so it is not met again
      have hq : q ∉ ms := fun hmem =>
        hfollow.next_ne_none hmem (by simp [hk₁, entries, Proc.entry, Proc.release])
      have hrooms₁ : k₁.rooms = Function.update k.rooms q (k.rooms q).release := by
        funext x
        by_cases hx : x = q
        · subst hx
          simp only [hk₁, rooms, Proc.room, Proc.release, Function.update_self, Option.map_none]
          rfl
        · simp only [hk₁, rooms, Function.update_of_ne hx]
      have hmem₁ : k₁.mem = m' := by rw [hk₁]
      have hpipes₁ : k₁.pipes = k.pipes := by rw [hk₁]
      have htf := freeTrapframe_ok hm
      -- what the release of the table does
      have htable : m'.kend = m.kend ∧
          (∀ f, m'.refcount f = m.refcount f - (k.rooms q).user (single f)) ∧
          ∀ f, m'.weigh (single f) = m.weigh (single f) +
            (k.rooms q).table.elim 0 (PageTable.weigh (single f)) := by
        have hr : (k.rooms q).table = (k.proc q).pagetable := rfl
        unfold freeTableThread at hm'
        split at hm'
        · rename_i pt hpt
          obtain ⟨-, -, -, hd⟩ := procFreepagetableThread_ok hm'
          refine ⟨hd.kend, fun f => ?_, fun f => ?_⟩
          · rw [hd.counts, Room.user_of_table (hr.trans hpt)]
          · rw [hd.freed, freedBy, if_neg fun hfree => absurd hfree.1 Bool.false_ne_true, hr, hpt, Option.elim_some, Nat.add_zero]
        · rename_i hpt
          cases hm'
          refine ⟨rfl, fun f => ?_, fun f => ?_⟩
          · rw [Room.user_of_none (hr.trans hpt)]
            simp
          · rw [hr, hpt, Option.elim_none, Nat.add_zero]
      have hother : ∀ x ∈ ms, k₁.rooms x = k.rooms x := by
        intro x hx
        have hxq : x ≠ q := fun heq => hq (heq ▸ hx)
        rw [hrooms₁, Function.update_of_ne hxq]
      refine ⟨q :: ms, by simp [Ne.symm hqp, hp], List.nodup_cons.2 ⟨hq, hnodup⟩, ⟨rfl, ?_⟩, fun x => ?_, ?_, ?_,
        fun f => ?_, fun f => ?_⟩
      · refine hfollow.congr fun x hx => ?_
        have hxq : x ≠ q := fun heq => hq (heq ▸ hx)
        simp [hk₁, entries, hxq]
      · rw [hrooms x]
        by_cases hxq : x = q
        · subst hxq
          simp [hq, hrooms₁]
        · by_cases hxm : x ∈ ms
          · rw [if_pos hxm, if_pos (List.mem_cons_of_mem _ hxm), hother x hxm]
          · rw [if_neg hxm, if_neg (by simp [hxq, hxm]), hrooms₁, Function.update_of_ne hxq]
      · rw [hkend, hmem₁, htable.1, (htf fun _ => 0).kend]
      · rw [hpipes, hpipes₁]
      · have hsum : ofList (fun x => (k₁.rooms x).user (single f)) ms =
            ofList (fun x => (k.rooms x).user (single f)) ms := by
          unfold ofList
          exact congrArg List.sum (List.map_congr_left fun x hx => by rw [hother x hx])
        rw [hcounts, hmem₁, htable.2.1, (htf fun _ => 0).refcount, hsum, ofList_cons]
        push_cast
        ring
      · have h₁ := owned_update hrooms₁ (single f)
        have h₂ := htable.2.2 f
        have h₃ := (htf (single f)).weigh
        have hheld : (k.rooms q).held (single f) = ofOption (single f) (k.proc q).room.frame +
            (k.rooms q).table.elim 0 (PageTable.weigh (single f)) := rfl
        have hnone : (k.rooms q).release.held (single f) = 0 := Room.held_of_none rfl
        rw [hheld, hnone, hmem₁, pipeWeight, pipeWeight, hpipes₁] at h₁
        rw [howned]
        omega

open Weight in
/-- The rooms of a group were emptied: the leader `L` had no table left, the
user pages of the members `ms` were dropped. -/
structure Dissolves (k : Kernel) (L : Slot) (ms : List Slot) (k' : Kernel) : Prop where
  group : k.entries.Group L ms
  bare : (k.rooms L).table = none
  leader : k'.rooms L = .empty
  member : ∀ q ∈ ms, k'.rooms q = (k.rooms q).release
  other : ∀ q, q ∉ L :: ms → k'.rooms q = k.rooms q
  kend : k'.mem.kend = k.mem.kend
  counts : ∀ f, k'.mem.refcount f =
    k.mem.refcount f - ofList (fun q => (k.rooms q).user (single f)) ms
  owned : ∀ f, k'.owned (single f) = k.owned (single f)

/-- A process without a group gives its trapframe back, a thread keeps all it
has, a leader takes its whole group with it. -/
theorem freeproc_rooms (hE : k.entries.WellGrouped) (hz : (k.proc q).state = .zombie)
    (htable : (k.proc q).isThread = false → (k.proc q).pagetable = none) (h : k.freeproc q = .ok k') :
    ((k.proc q).groupLeader = none ∧ k'.rooms = Function.update k.rooms q .empty ∧
      k'.mem.kend = k.mem.kend ∧ k'.mem.refcount = k.mem.refcount ∧ ∀ w, k'.owned w = k.owned w) ∨
    (∃ L, L ≠ q ∧ (k.proc q).groupLeader = some L ∧ k.Balanced k') ∨
    (∃ ms, k.Dissolves q ms k') := by
  have hen : (k.entries q).Enrolled := by
    simp [Entry.Enrolled, entries, Proc.entry, hz, ProcState.phase]
  -- a process, a leader included, has no table after its exit
  have hnone : (∀ L, (k.proc q).groupLeader = some L → L = q) → (k.rooms q).table = none := by
    intro hleader
    refine htable (Bool.eq_false_iff.2 fun hthread => ?_)
    obtain ⟨-, L, hne, hL⟩ := hE.thread q hthread
    exact hne (hleader L hL)
  have hself : ∀ {k₁ : Kernel}, (k₁.rooms q).table = none → k₁.freeSelf q = .ok k' →
      k'.rooms = Function.update k₁.rooms q .empty ∧ k'.mem.kend = k₁.mem.kend ∧
      k'.mem.refcount = k₁.mem.refcount ∧ ∀ w, k'.owned w = k₁.owned w := by
    intro k₁ hn hfree
    obtain ⟨hrooms, hkend, href, -, howned⟩ := freeSelf_rooms hfree
    refine ⟨hrooms, hkend, href, fun w => ?_⟩
    have := howned w
    rwa [hn, Option.elim_none, Nat.add_zero] at this
  cases hL : (k.proc q).groupLeader with
  | none =>
    rw [freeproc_of_ungrouped hL] at h
    exact .inl ⟨rfl, hself (hnone fun L hL' => by rw [hL] at hL'; cases hL') h⟩
  | some L =>
    simp only [freeproc, hL] at h
    have hdrop : k.Balanced (k.dropRef L) := by
      refine balanced_modify ?_
      split <;> rfl
    split at h
    · cases h
    split at h
    · rename_i hne
      cases h
      exact .inr (.inl ⟨L, Ne.symm hne, rfl, hdrop.trans (balanced_modify rfl)⟩)
    · rename_i hne
      obtain rfl : q = L := not_not.1 hne
      refine .inr (.inr ?_)
      obtain ⟨k₁, hfree, h⟩ := Except.bind_ok_iff.1 h
      obtain ⟨ms', hq, -, hfollow, hrooms, hkend, -, hcounts, howned⟩ := freeMembers_rooms hfree
      obtain ⟨ms, hg⟩ := hE.group_of_leader hL hen
      have hnext : ∀ x, ((k.dropRef q).entries x).groupNext = (k.entries x).groupNext := by
        intro x
        rw [entries_dropRef]
        by_cases hx : x = q
        · subst hx
          simp only [Function.update_self, Entry.dropRef]
          split <;> rfl
        · rw [Function.update_of_ne hx]
      have hstart : ((k.dropRef q).proc q).groupNext = (k.entries q).groupNext := hnext q
      rw [hstart] at hfollow
      have hms : ms' = ms :=
        (hfollow.congr fun x _ => (hnext x).symm).unique hg.ring.follows hq hg.ring.head_notMem
      subst hms
      have hqbare := hnone fun L hL' => by rw [hL] at hL'; exact (Option.some.inj hL').symm
      have hqempty : (k₁.rooms q).table = none := by
        rw [hrooms, if_neg hq, hdrop.rooms]
        exact hqbare
      obtain ⟨hrooms', hkend', href', howned'⟩ := hself hqempty h
      refine ⟨ms', hg, hqbare, by rw [hrooms', Function.update_self], fun x hx => ?_, fun x hx => ?_, ?_, fun f => ?_,
        fun f => ?_⟩
      · have hxq : x ≠ q := fun heq => hq (heq ▸ hx)
        rw [hrooms', Function.update_of_ne hxq, hrooms, if_pos hx, hdrop.rooms]
      · simp only [List.mem_cons, not_or] at hx
        rw [hrooms', Function.update_of_ne hx.1, hrooms, if_neg hx.2, hdrop.rooms]
      · rw [hkend', hkend, hdrop.kend]
      · rw [href', hcounts, hdrop.refcount, hdrop.rooms]
      · rw [howned', howned, hdrop.owned]

end Kernel

end Xv6
