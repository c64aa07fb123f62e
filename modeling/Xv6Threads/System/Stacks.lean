-- SUMMARY: The stacks of running threads stay mapped and apart from each other and from the heap, unless sbrk cuts them off.
import Xv6Threads.Process.Retains
import Xv6Threads.System.Lineage

/-!
# Thread stacks

`thread_create` and `sbrk` take addresses from one counter, the size that all
members of a group have in common. A `Layout` records what was handed out: the
ranges returned by `sbrk` and not given back, and the page and frame of the
stack of each thread. Everything recorded lies below the size, so what is handed
out next is apart from it.

`sbrk` with a negative amount moves the counter down without looking at stacks.
`SparesStacks` excludes that it gets below the end of the stack of a thread that
has not exited, and that `thread_create` starts a thread without a stack.
-/

namespace Xv6

variable {b : Boot} {k k' : Kernel} {e : Event} {r : Option Int} {p q np : Slot} {h : Layout}

/-- What the members of a group have been given, by the slot of the leader, and
the stacks of threads, by the slot of the thread. -/
structure Layout where
  heap : Slot → List (Nat × Nat)
  stack : Slot → Option (Nat × Ppn)

namespace Layout

def start : Layout := ⟨fun _ => [], fun _ => none⟩

def setHeap (h : Layout) (L : Slot) (l : List (Nat × Nat)) : Layout :=
  { h with heap := Function.update h.heap L l }

def setStack (h : Layout) (q : Slot) (o : Option (Nat × Ppn)) : Layout :=
  { h with stack := Function.update h.stack q o }

@[simp] theorem setStack_heap (h : Layout) (q : Slot) (o : Option (Nat × Ppn)) : (h.setStack q o).heap = h.heap := rfl
@[simp] theorem setHeap_same (h : Layout) (L : Slot) (l : List (Nat × Nat)) : (h.setHeap L l).heap L = l := by
  simp [setHeap]
theorem setHeap_ne {L L' : Slot} (hne : L' ≠ L) (h : Layout) (l : List (Nat × Nat)) :
    (h.setHeap L l).heap L' = h.heap L' := by simp [setHeap, hne]

end Layout

namespace Kernel

/-- The process or thread in the slot has not exited. -/
def Alive (k : Kernel) (q : Slot) : Prop := (k.proc q).state.phase = .active

instance (k : Kernel) (q : Slot) : Decidable (k.Alive q) := inferInstanceAs (Decidable (_ = _))

def AliveThread (k : Kernel) (q : Slot) : Prop := k.Alive q ∧ (k.proc q).isThread = true

instance (k : Kernel) (q : Slot) : Decidable (k.AliveThread q) := inferInstanceAs (Decidable (_ ∧ _))

/-- Record what the calls hand out and take back. -/
def arrange (k : Kernel) (e : Event) (h : Layout) : Layout :=
  match e, k.step e with
  | .call p (.sbrk n), .ok (some v, k') =>
    let L := k.leaderOf p
    if v < 0 then h
    else if 0 < n.toInt then
      h.setHeap L ((v.toNat, v.toNat + n.toInt.toNat) :: h.heap L)
    else
      h.setHeap L ((h.heap L).map fun a => (a.1, min a.2 (k'.proc p).sz))
  | .call p (.threadCreate _ _), .ok (_, k') =>
    match k.findUnused with
    | some np =>
      if k'.Alive np then
        h.setStack np ((k'.pte np ((k.proc p).sz / pgSize)).map fun pte => ((k.proc p).sz, pte.ppn))
      else h
    | none => h
  | .call _ .fork, _ =>
    match k.findUnused with
    | some np => h.setHeap np []
    | none => h
  | .call p (.exec _ _ _), .ok (some v, _) =>
    if v < 0 then h else h.setHeap (k.leaderOf p) []
  | _, _ => h

/-- No stack of a thread that has not exited is cut off, a new thread gets its
stack, and nobody who shares memory runs another program. -/
def SparesCall (k : Kernel) (h : Layout) : Event → Prop
  | .call p (.sbrk n) => n.toInt < 0 → ∀ q, k.AliveThread q → k.leaderOf q = k.leaderOf p →
    ∀ a ∈ h.stack q, a.1 + pgSize ≤ k.shrunk p n.toInt
  | .call p (.threadCreate _ _) => (k.proc p).sz % pgSize = 0 ∧ k.lacksTable p = false
  | .call p (.exec _ _ _) => (k.proc p).isThread = false ∧
    ∀ q, q ≠ p → k.Alive q → k.leaderOf q ≠ k.leaderOf p
  | _ => True

instance (k : Kernel) (h : Layout) (e : Event) : Decidable (k.SparesCall h e) := by
  cases e with
  | call p c => cases c <;> (dsimp only [SparesCall]; infer_instance)
  | _ => exact .isTrue trivial

/-- And a group is released only when its threads have exited. -/
structure SparesStacks (s : Kernel × Layout) (e : Event) : Prop where
  call : s.1.SparesCall s.2 e
  release : s.1.ReleasesLast e

instance (s : Kernel × Layout) (e : Event) : Decidable (SparesStacks s e) :=
  decidable_of_iff _ ⟨fun ⟨h₁, h₂⟩ => SparesStacks.mk h₁ h₂, fun h => And.intro h.call h.release⟩

/-- Everything handed out lies below the size, and stacks lie apart. -/
structure Stacked (k : Kernel) (h : Layout) : Prop where
  grouped : k.entries.WellGrouped
  level : ∀ p q, k.Alive p → k.Alive q → k.leaderOf p = k.leaderOf q → (k.proc p).sz = (k.proc q).sz
  limit : ∀ p, k.Alive p → (k.proc p).sz ≤ maxVa
  heap : ∀ p, k.Alive p → ∀ a ∈ h.heap (k.leaderOf p), a.2 ≤ (k.proc p).sz
  stack : ∀ q, k.AliveThread q → ∃ va f, h.stack q = some (va, f) ∧ va % pgSize = 0 ∧
    va + pgSize ≤ (k.proc q).sz ∧ k.pte q (va / pgSize) = some ⟨f, permUser⟩
  apart : ∀ q q' va f va' f', k.AliveThread q → k.AliveThread q' → q ≠ q' → k.leaderOf q = k.leaderOf q' →
    h.stack q = some (va, f) → h.stack q' = some (va', f') → va + pgSize ≤ va' ∨ va' + pgSize ≤ va
  clear : ∀ q va f, k.AliveThread q → h.stack q = some (va, f) → ∀ a ∈ h.heap (k.leaderOf q),
    va + pgSize ≤ a.1 ∨ a.2 ≤ va

/-! ## Who is there -/

/-- Whoever has not exited after a step was there before, in the same group, or
is the child or the thread that the step has made. -/
theorem live_cases (hm : Move k e k'.entries) (hq : k'.Alive q) :
    (k.Alive q ∧ k'.leaderOf q = k.leaderOf q ∧ (k'.proc q).isThread = (k.proc q).isThread) ∨
    k.findUnused = some q ∧ ((∃ p, e = .call p .fork) ∨ ∃ p start arg, e = .call p (.threadCreate start arg)) := by
  have hact : (k'.entries q).phase = .active := hq
  cases hm.shift q with
  | same hph hth hL => exact .inl ⟨hph.symm.trans hact, hL, hth⟩
  | taken hfind =>
    refine .inr ⟨hfind, ?_⟩
    have hunused := findUnused_phase hfind
    cases hm.kin q with
    | kept hph => rw [hph, hunused] at hact; cases hact
    | exited _ _ hph => rw [hph] at hact; cases hact
    | adopted _ _ _ _ _ _ _ hph => rw [hph, hunused] at hact; cases hact
    | reaped _ _ _ _ _ hph => rw [hph] at hact; cases hact
    | freed _ hph => rw [hph] at hact; cases hact
    | forked p he => exact .inl ⟨p, he⟩
    | created p start arg he => exact .inr ⟨p, start, arg, he⟩
    | failed _ hph => rw [hph] at hact; cases hact
    | stranded _ _ _ _ _ hph => rw [hph] at hact; cases hact
  | exited _ hph => rw [hph] at hact; cases hact
  | reaped _ hph => rw [hph] at hact; cases hact
  | freed _ hph => rw [hph] at hact; cases hact

theorem Alive.enrolled (hq : k.Alive q) : (k.entries q).Enrolled := Entry.enrolled_of_active hq

theorem leaderOf_process (hE : k.entries.WellGrouped) (hq : (k.entries q).Enrolled)
    (hth : (k.proc q).isThread = false) : k.leaderOf q = q := by
  rcases hE.process q hth hq with hnone | hself
  · rw [leaderOf, show (k.proc q).groupLeader = none from hnone]
    rfl
  · rw [leaderOf, show (k.proc q).groupLeader = some q from hself]
    rfl

/-- The child of a `fork` is no thread. -/
theorem forked_process (hm : Move k (.call p .fork) k'.entries) (hE : k.entries.WellGrouped)
    (hfind : k.findUnused = some np) (hact : k'.Alive np) : (k'.proc np).isThread = false := by
  have hunused := findUnused_phase hfind
  have hphase : (k'.entries np).phase = .active := hact
  cases hm.kin np with
  | kept hph => rw [hph, hunused] at hphase; cases hphase
  | exited _ _ hph => rw [hph] at hphase; cases hphase
  | adopted _ _ _ _ _ _ _ hph => rw [hph, hunused] at hphase; cases hphase
  | reaped _ _ _ _ _ hph => rw [hph] at hphase; cases hphase
  | freed _ hph => rw [hph] at hphase; cases hphase
  | forked _ _ _ _ _ _ hth => exact hth.trans (hE.idle np hunused).2
  | created _ _ _ he => cases he
  | failed _ hph => rw [hph] at hphase; cases hphase
  | stranded _ _ _ _ _ hph => rw [hph] at hphase; cases hphase

/-- The team of a process is everybody with the same leader. -/
theorem Team.mem_iff_leader {l : List Slot} (hE : k.entries.WellGrouped) (ht : k.Team p l) (hq : k.Alive q) :
    q ∈ l ↔ k.leaderOf q = k.leaderOf p :=
  ⟨fun hmem => ht.leaderOf_eq hmem, fun hL => ht.mem_of_leader hE hq.enrolled hL⟩

/-! ## What each kind of step keeps -/

theorem Stacked.page_lt (hs : k.Stacked h) {va : Nat} (hq : k.Alive q) (hva : va + pgSize ≤ (k.proc q).sz) :
    va / pgSize < vpnLimit := by
  have hlimit := hs.limit q hq
  simp only [pgSize, vpnLimit, maxVa] at *
  omega

/-- Nothing is handed out or taken back. -/
theorem Stacked.keep (hs : k.Stacked h) (hE : k'.entries.WellGrouped)
    (hlive : ∀ q, k'.Alive q → k.Alive q ∧ k'.leaderOf q = k.leaderOf q ∧
      (k'.proc q).isThread = (k.proc q).isThread)
    (hsize : KeepsSizes (fun q => k.Alive q ∧ k'.Alive q) k k')
    (hpages : KeepsPages (fun q => k.Alive q ∧ k'.Alive q) vpnLimit k k') : k'.Stacked h := by
  have hthread : ∀ q, k'.AliveThread q → k.AliveThread q := fun q hq =>
    ⟨(hlive q hq.1).1, (hlive q hq.1).2.2.symm.trans hq.2⟩
  have hsz : ∀ q, k'.Alive q → (k'.proc q).sz = (k.proc q).sz := fun q hq => hsize q ⟨(hlive q hq).1, hq⟩
  refine ⟨hE, fun p q hp hq hL => ?_, fun p hp => ?_, fun p hp a ha => ?_, fun q hq => ?_, ?_, ?_⟩
  · rw [hsz p hp, hsz q hq]
    rw [(hlive p hp).2.1, (hlive q hq).2.1] at hL
    exact hs.level p q (hlive p hp).1 (hlive q hq).1 hL
  · rw [hsz p hp]
    exact hs.limit p (hlive p hp).1
  · rw [hsz p hp]
    rw [(hlive p hp).2.1] at ha
    exact hs.heap p (hlive p hp).1 a ha
  · obtain ⟨va, f, hst, hal, hle, hpte⟩ := hs.stack q (hthread q hq)
    refine ⟨va, f, hst, hal, by rw [hsz q hq.1]; exact hle, ?_⟩
    exact hpages q ⟨(hlive q hq.1).1, hq.1⟩ _ (hs.page_lt (hlive q hq.1).1 hle) _ hpte
  · intro q q' va f va' f' hq hq' hne hL
    rw [(hlive q hq.1).2.1, (hlive q' hq'.1).2.1] at hL
    exact hs.apart q q' va f va' f' (hthread q hq) (hthread q' hq') hne hL
  · intro q va f hq hst a ha
    rw [(hlive q hq.1).2.1] at ha
    exact hs.clear q va f (hthread q hq) hst a ha

/-- The members of a group get a new size, and their ranges are `l`. -/
theorem Stacked.resize (hs : k.Stacked h) (hent : k'.entries = k.entries) {s : Nat}
    {l : List (Nat × Nat)}
    (hsize : ∀ q, k.Alive q → (k'.proc q).sz = if k.leaderOf q = k.leaderOf p then s else (k.proc q).sz)
    (hlim : s ≤ maxVa) (hheap : ∀ a ∈ l, a.2 ≤ s)
    (hstack : ∀ q va f, k.AliveThread q → k.leaderOf q = k.leaderOf p → h.stack q = some (va, f) →
      va + pgSize ≤ s ∧ ∀ a ∈ l, va + pgSize ≤ a.1 ∨ a.2 ≤ va)
    (hpages : ∀ q va f, k.AliveThread q → h.stack q = some (va, f) → ∀ e, k.pte q (va / pgSize) = some e →
      k'.pte q (va / pgSize) = some e) : k'.Stacked (h.setHeap (k.leaderOf p) l) := by
  have hlive : ∀ q, k'.Alive q ↔ k.Alive q := fun q => by
    rw [show k'.Alive q ↔ (k'.entries q).phase = .active from Iff.rfl, hent]
    rfl
  have hleader : ∀ q, k'.leaderOf q = k.leaderOf q := fun q => by
    have hL : (k'.proc q).groupLeader = (k.proc q).groupLeader := congrArg Entry.groupLeader (congrFun hent q)
    rw [leaderOf, leaderOf, hL]
  have hthread : ∀ q, k'.AliveThread q → k.AliveThread q := fun q hq =>
    ⟨(hlive q).1 hq.1, (congrArg Entry.isThread (congrFun hent q)).symm.trans hq.2⟩
  refine ⟨hent ▸ hs.grouped, fun x y hx hy hL => ?_, fun x hx => ?_, fun x hx a ha => ?_, fun x hx => ?_,
    ?_, ?_⟩
  · rw [hleader, hleader] at hL
    rw [hsize x ((hlive x).1 hx), hsize y ((hlive y).1 hy), hL,
      hs.level x y ((hlive x).1 hx) ((hlive y).1 hy) hL]
  · rw [hsize x ((hlive x).1 hx)]
    split
    · exact hlim
    · exact hs.limit x ((hlive x).1 hx)
  · rw [hleader] at ha
    rw [hsize x ((hlive x).1 hx)]
    split
    · rename_i hL
      rw [hL, Layout.setHeap_same] at ha
      exact hheap a ha
    · rename_i hL
      rw [Layout.setHeap_ne hL] at ha
      exact hs.heap x ((hlive x).1 hx) a ha
  · obtain ⟨va, f, hst, hal, hle, hpte⟩ := hs.stack x (hthread x hx)
    refine ⟨va, f, hst, hal, ?_, hpages x va f (hthread x hx) hst _ hpte⟩
    rw [hsize x ((hlive x).1 hx.1)]
    split
    · rename_i hL
      exact (hstack x va f (hthread x hx) hL hst).1
    · exact hle
  · intro x y va f va' f' hx hy hne hL hst hst'
    rw [hleader, hleader] at hL
    exact hs.apart x y va f va' f' (hthread x hx) (hthread y hy) hne hL hst hst'
  · intro x va f hx hst a ha
    rw [hleader] at ha
    by_cases hL : k.leaderOf x = k.leaderOf p
    · rw [hL, Layout.setHeap_same] at ha
      exact (hstack x va f (hthread x hx) hL hst).2 a ha
    · rw [Layout.setHeap_ne hL] at ha
      exact hs.clear x va f (hthread x hx) hst a ha

/-- A slot `np` comes to life as a process of its own, with nothing handed out. -/
theorem Stacked.fork (hs : k.Stacked h) (hE : k'.entries.WellGrouped) (hp : k.Alive p)
    (hfind : k.findUnused = some np)
    (hlive : ∀ q, k'.Alive q → q ≠ np → k.Alive q ∧ k'.leaderOf q = k.leaderOf q ∧
      (k'.proc q).isThread = (k.proc q).isThread)
    (hrooms : ∀ q, q ≠ np → k'.rooms q = k.rooms q)
    (hnew : k'.Alive np → k'.leaderOf np = np ∧ (k'.proc np).isThread = false ∧ (k'.proc np).sz = (k.proc p).sz) :
    k'.Stacked (h.setHeap np []) := by
  have hunused := findUnused_phase hfind
  have hsz : ∀ q, q ≠ np → (k'.proc q).sz = (k.proc q).sz := fun q hq => congrArg Room.size (hrooms q hq)
  have hne : ∀ q, k'.AliveThread q → q ≠ np := fun q hq heq => by
    subst heq
    have := hq.2
    rw [(hnew hq.1).2.1] at this
    cases this
  have hthread : ∀ q, k'.AliveThread q → k.AliveThread q := fun q hq =>
    ⟨(hlive q hq.1 (hne q hq)).1, (hlive q hq.1 (hne q hq)).2.2.symm.trans hq.2⟩
  have hleader : ∀ q, k'.Alive q → q ≠ np → k'.leaderOf q ≠ np := fun q hq hqn => by
    rw [(hlive q hq hqn).2.1]
    exact leaderOf_ne_unused hs.grouped (hlive q hq hqn).1.enrolled hunused
  refine ⟨hE, fun x y hx hy hL => ?_, fun x hx => ?_, fun x hx a ha => ?_, fun x hx => ?_, ?_, ?_⟩
  · by_cases hxn : x = np
    · by_cases hyn : y = np
      · rw [hxn, hyn]
      · rw [hxn] at hx
        rw [hxn, (hnew hx).1] at hL
        exact absurd hL.symm (hleader y hy hyn)
    · by_cases hyn : y = np
      · rw [hyn] at hy
        rw [hyn, (hnew hy).1] at hL
        exact absurd hL (hleader x hx hxn)
      · rw [(hlive x hx hxn).2.1, (hlive y hy hyn).2.1] at hL
        rw [hsz x hxn, hsz y hyn]
        exact hs.level x y (hlive x hx hxn).1 (hlive y hy hyn).1 hL
  · by_cases hxn : x = np
    · rw [hxn] at hx ⊢
      rw [(hnew hx).2.2]
      exact hs.limit p hp
    · rw [hsz x hxn]
      exact hs.limit x (hlive x hx hxn).1
  · by_cases hxn : x = np
    · rw [hxn] at hx
      rw [hxn, (hnew hx).1, Layout.setHeap_same] at ha
      cases ha
    · rw [Layout.setHeap_ne (hleader x hx hxn), (hlive x hx hxn).2.1] at ha
      rw [hsz x hxn]
      exact hs.heap x (hlive x hx hxn).1 a ha
  · obtain ⟨va, f, hst, hal, hle, hpte⟩ := hs.stack x (hthread x hx)
    refine ⟨va, f, hst, hal, by rw [hsz x (hne x hx)]; exact hle, ?_⟩
    rw [pte, hrooms x (hne x hx)]
    exact hpte
  · intro x y va f va' f' hx hy hxy hL
    rw [(hlive x hx.1 (hne x hx)).2.1, (hlive y hy.1 (hne y hy)).2.1] at hL
    exact hs.apart x y va f va' f' (hthread x hx) (hthread y hy) hxy hL
  · intro x va f hx hst a ha
    rw [Layout.setHeap_ne (hleader x hx.1 (hne x hx)), (hlive x hx.1 (hne x hx)).2.1] at ha
    exact hs.clear x va f (hthread x hx) hst a ha

/-- A thread `np` is made, with a stack at the size of its group. -/
theorem Stacked.create {l : List Slot} (hs : k.Stacked h) (hE : k'.entries.WellGrouped) (hp : k.Alive p)
    (ht : k.Team p l) (hen : k.Enrols p l np k') (haligned : (k.proc p).sz % pgSize = 0)
    (htable : k.lacksTable p = false)
    (halive : ∀ q, k'.Alive q → q ≠ np → k.Alive q ∧ k'.leaderOf q = k.leaderOf q ∧
      (k'.proc q).isThread = (k.proc q).isThread) :
    k'.Stacked (h.setStack np ((k'.pte np ((k.proc p).sz / pgSize)).map fun pte => ((k.proc p).sz, pte.ppn))) := by
  obtain ⟨hva, f, hpte⟩ := hen.stack haligned htable
  have hleaderNp : k'.leaderOf np = k.leaderOf p := by
    obtain ⟨L, x, hx, -, -, hL, rfl⟩ := hen.entries
    exact leaderOf_of_entry (by rw [hx]; exact hL)
  rw [hpte, Option.map_some]
  dsimp only
  have hself : (h.setStack np (some ((k.proc p).sz, f))).stack np = some ((k.proc p).sz, f) := by
    simp [Layout.setStack]
  have hother : ∀ q, q ≠ np → (h.setStack np (some ((k.proc p).sz, f))).stack q = h.stack q := fun q hq => by
    simp [Layout.setStack, hq]
  -- sizes, by group
  have hsize : ∀ q, k'.Alive q → (k'.proc q).sz =
      if k'.leaderOf q = k.leaderOf p then (k.proc p).sz + pgSize else (k.proc q).sz := by
    intro q hq
    rw [hen.size q]
    by_cases hqn : q = np
    · rw [if_pos (.inl hqn), hqn, hleaderNp, if_pos rfl]
    · obtain ⟨hq', hL, -⟩ := halive q hq hqn
      rw [hL]
      simp only [hqn, false_or, ht.mem_iff_leader hs.grouped hq']
  have hgroup : ∀ q, k.Alive q → k.leaderOf q = k.leaderOf p → (k.proc q).sz = (k.proc p).sz :=
    fun q hq hL => hs.level q p hq hp hL
  have hlimit : (k.proc p).sz + pgSize ≤ maxVa := by
    simp only [pgSize, maxVa] at *
    omega
  have hthread : ∀ q, k'.AliveThread q → q ≠ np → k.AliveThread q := fun q hq hqn =>
    ⟨(halive q hq.1 hqn).1, (halive q hq.1 hqn).2.2.symm.trans hq.2⟩
  -- the old stacks end below the new one
  have hbelow : ∀ q va g, k'.AliveThread q → q ≠ np → k'.leaderOf q = k.leaderOf p →
      h.stack q = some (va, g) → va + pgSize ≤ (k.proc p).sz := by
    intro q va g hq hqn hL hst
    obtain ⟨va', g', hst', -, hle, -⟩ := hs.stack q (hthread q hq hqn)
    rw [hst] at hst'
    cases hst'
    rw [(halive q hq.1 hqn).2.1] at hL
    rw [← hgroup q (halive q hq.1 hqn).1 hL]
    exact hle
  refine ⟨hE, fun x y hx hy hL => ?_, fun x hx => ?_, fun x hx a ha => ?_, fun x hx => ?_, ?_, ?_⟩
  · rw [hsize x hx, hsize y hy, hL]
    split
    · rfl
    · rename_i hLy
      have hxn : x ≠ np := fun heq => hLy (by rw [← hL, heq, hleaderNp])
      have hyn : y ≠ np := fun heq => hLy (by rw [heq, hleaderNp])
      rw [(halive x hx hxn).2.1, (halive y hy hyn).2.1] at hL
      exact hs.level x y (halive x hx hxn).1 (halive y hy hyn).1 hL
  · rw [hsize x hx]
    split
    · exact hlimit
    · rename_i hLx
      have hxn : x ≠ np := fun heq => hLx (by rw [heq, hleaderNp])
      exact hs.limit x (halive x hx hxn).1
  · rw [Layout.setStack_heap] at ha
    rw [hsize x hx]
    split
    · rename_i hLx
      rw [hLx] at ha
      have := hs.heap p hp a ha
      omega
    · rename_i hLx
      have hxn : x ≠ np := fun heq => hLx (by rw [heq, hleaderNp])
      rw [(halive x hx hxn).2.1] at ha
      exact hs.heap x (halive x hx hxn).1 a ha
  · by_cases hxn : x = np
    · subst hxn
      refine ⟨_, f, hself, haligned, ?_, hpte⟩
      rw [hsize x hx.1, if_pos hleaderNp]
    · obtain ⟨va, g, hst, hal, hle, hpte'⟩ := hs.stack x (hthread x hx hxn)
      have hx' := (halive x hx.1 hxn).1
      refine ⟨va, g, (hother x hxn).trans hst, hal, ?_, hen.pages x hxn _ (hs.page_lt hx' hle) _ hpte'⟩
      rw [hen.size x]
      split
      · rename_i hmem
        have hL := (ht.mem_iff_leader hs.grouped hx').1 (hmem.resolve_left hxn)
        rw [← hgroup x hx' hL]
        omega
      · exact hle
  · intro x y va g va' g' hx hy hne hL hst hst'
    by_cases hxn : x = np
    · have hyn : y ≠ np := fun heq => hne (hxn.trans heq.symm)
      rw [hxn, hself] at hst
      rw [hother y hyn] at hst'
      cases hst
      rw [hxn, hleaderNp] at hL
      exact .inr (hbelow y va' g' hy hyn hL.symm hst')
    · rw [hother x hxn] at hst
      by_cases hyn : y = np
      · rw [hyn, hself] at hst'
        cases hst'
        rw [hyn, hleaderNp] at hL
        exact .inl (hbelow x va g hx hxn hL hst)
      · rw [hother y hyn] at hst'
        rw [(halive x hx.1 hxn).2.1, (halive y hy.1 hyn).2.1] at hL
        exact hs.apart x y va g va' g' (hthread x hx hxn) (hthread y hy hyn) hne hL hst hst'
  · intro x va g hx hst a ha
    rw [Layout.setStack_heap] at ha
    by_cases hxn : x = np
    · rw [hxn, hself] at hst
      cases hst
      rw [hxn, hleaderNp] at ha
      exact .inr (hs.heap p hp a ha)
    · rw [hother x hxn] at hst
      rw [(halive x hx.1 hxn).2.1] at ha
      exact hs.clear x va g (hthread x hx hxn) hst a ha

/-! ## One step -/

theorem alive_of_running (h : (k.proc p).state = .running) : k.Alive p := by
  rw [Alive, h]
  rfl

theorem Alive.ne_unused (h : k.Alive q) : (k.proc q).state ≠ .unused := fun hu => by
  rw [Alive, hu] at h
  cases h

theorem Alive.not_found (h : k.Alive q) : k.findUnused ≠ some q := fun hfind =>
  h.ne_unused (findUnused_unused hfind)

/-- The memory of a slot changes in `sbrk`, `thread_create` and `exec` only, and
when the slot exits or is given up. -/
theorem step_rooms (hen : k.enabled e = true) (hstep : k.step e = .ok (r, k'))
    (he : ∀ p c, e = .call p c → (∀ n, c ≠ .sbrk n) ∧ (∀ start arg, c ≠ .threadCreate start arg) ∧
      ∀ path file argv, c ≠ .exec path file argv)
    (hq : k.Alive q) (hq' : k'.Alive q) : k'.rooms q = k.rooms q := by
  have hspares : k.Spares k' → k'.rooms q = k.rooms q := fun hs =>
    (hs.room q).resolve_right hq'.ne_unused
  have hexits : ∀ {x}, e.exits = some x → k'.rooms q = k.rooms q := by
    intro x hx
    rcases step_exit_cases hstep hx with ⟨-, rfl⟩ | ⟨-, status, hexit⟩
    · exact congrFun (threadExitThread_balanced k x).rooms q
    · have hne : q ≠ x := fun heq => by
        have hz := (step_exits hen hstep hx).1
        rw [← heq] at hz
        have hact : (k'.entries q).phase = .active := hq'
        rw [hz] at hact
        cases hact
      rw [(exitProcess_rooms (by simp [exits_running hen hx]) hexit).rooms, Function.update_of_ne hne]
  cases e with
  | schedule p => exact hspares (resume_spares (by simpa [enabled] using hen) hstep)
  | yield p =>
    cases hstep
    exact congrFun (rooms_modify_same rfl) q
  | block p n =>
    cases hstep
    exact congrFun (balanced_sleep _ _ _ _).rooms q
  | unblock n =>
    cases hstep
    exact congrFun (balanced_wakeup _ _ _).rooms q
  | fault p =>
    cases hstep
    exact congrFun (rooms_modify_same rfl) q
  | die p => exact hexits rfl
  | call p c =>
    have hp : (k.proc p).state = .running ∧ (k.proc p).killed = false := by simpa [enabled] using hen
    have hused : (k.proc p).state ≠ .unused := by simp [hp.1]
    cases c with
    | fork =>
      obtain ⟨v, hv⟩ := returns_ok hstep
      exact (fork_keeps (alive_of_running hp.1) hv).1 q hq.not_found
    | exec path file argv => exact absurd rfl ((he _ _ rfl).2.2 path file argv)
    | sbrk n => exact absurd rfl ((he _ _ rfl).1 n)
    | threadCreate start arg => exact absurd rfl ((he _ _ rfl).2.1 start arg)
    | threadExit => exact hexits rfl
    | threadJoin tid => exact hspares (threadJoin_spares hused hstep)
    | exit status => exact hexits rfl
    | wait addr => exact hspares (wait_spares hused hstep)
    | kill pid =>
      obtain ⟨-, hk'⟩ := Prod.mk.inj (Except.ok.inj hstep)
      rw [← hk']
      exact congrFun (kill_balanced k pid).rooms q
    | «open» ip device rd wr => obtain ⟨v, hv⟩ := returns_ok hstep; exact congrFun (sysOpen_balanced hv).rooms q
    | dup fd => obtain ⟨v, hv⟩ := returns_ok hstep; exact congrFun (sysDup_balanced hv).rooms q
    | close fd => obtain ⟨v, hv⟩ := returns_ok hstep; exact congrFun (sysClose_balanced hv).rooms q
    | pipe fdarray => obtain ⟨v, hv⟩ := returns_ok hstep; exact congrFun (sysPipe_balanced hv).rooms q
    | chdir ip => obtain ⟨v, hv⟩ := returns_ok hstep; exact congrFun (sysChdir_balanced hv).rooms q

theorem sbrk_result {i v : Int} (h : k.sbrk p i = .ok (v, k')) :
    ∃ v', k.growproc p i = .ok (v', k') ∧ (v' < 0 ∧ v = -1 ∨ ¬ v' < 0 ∧ v = (k.proc p).sz) := by
  obtain ⟨⟨v', k₁⟩, hgrow, h⟩ := Except.bind_ok_iff.1 h
  dsimp only at h
  split at h
  · rename_i hneg
    cases h
    exact ⟨v', hgrow, .inl ⟨hneg, rfl⟩⟩
  · rename_i hneg
    cases h
    exact ⟨v', hgrow, .inr ⟨hneg, rfl⟩⟩

theorem arrange_sbrk {n : Int32} {v : Int} (hstep : k.sbrk p n.toInt = .ok (v, k')) :
    k.arrange (.call p (.sbrk n)) h =
      if v < 0 then h
      else if 0 < n.toInt then
        h.setHeap (k.leaderOf p) ((v.toNat, v.toNat + n.toInt.toNat) :: h.heap (k.leaderOf p))
      else
        h.setHeap (k.leaderOf p) ((h.heap (k.leaderOf p)).map fun a => (a.1, min a.2 (k'.proc p).sz)) := by
  have hres : k.step (.call p (.sbrk n)) = .ok (some v, k') := by
    simp [step, syscall, returns, hstep, bind, Except.bind]
  simp only [arrange, hres]

/-- Sizes by membership are sizes by leader. -/
theorem Stacked.sizes {l : List Slot} {sz : Nat} (hs : k.Stacked h) (ht : k.Team p l)
    (hsz : ∀ q, (k'.proc q).sz = if q ∈ l then sz else (k.proc q).sz) (q : Slot) (hq : k.Alive q) :
    (k'.proc q).sz = if k.leaderOf q = k.leaderOf p then sz else (k.proc q).sz := by
  rw [hsz q]
  simp only [ht.mem_iff_leader hs.grouped hq]

/-- Nothing on the heap is above the size. -/
theorem Stacked.cut (hs : k.Stacked h) (hp : k.Alive p) :
    h.setHeap (k.leaderOf p) ((h.heap (k.leaderOf p)).map fun a => (a.1, min a.2 (k.proc p).sz)) = h := by
  have hmap : ((h.heap (k.leaderOf p)).map fun a => (a.1, min a.2 (k.proc p).sz)) = h.heap (k.leaderOf p) := by
    rw [List.map_congr_left (g := id) fun a ha => ?_]
    · exact List.map_id _
    · rw [Nat.min_eq_left (hs.heap p hp a ha)]
      rfl
  rw [hmap, Layout.setHeap, Function.update_eq_self]

/-- Memory is given back, above the stacks of the group. -/
theorem Stacked.shrink {l : List Slot} {n : Int32} {v : Int} (hs : k.Stacked h) (hp : k.Alive p) (ht : k.Team p l)
    (hn : n.toInt < 0) (hG : SparesStacks (k, h) (.call p (.sbrk n))) (hgrow : k.growproc p n.toInt = .ok (v, k')) :
    k'.Stacked (h.setHeap (k.leaderOf p) ((h.heap (k.leaderOf p)).map fun a => (a.1, min a.2 (k'.proc p).sz))) := by
  have hmem := ht.mem hp
  obtain ⟨-, hpages, hout, hsz⟩ := growproc_neg hn ht hmem (hs.limit p hp) hgrow
  have hpsz : (k'.proc p).sz = k.shrunk p n.toInt := by rw [hsz p, if_pos hmem]
  rw [hpsz]
  refine hs.resize (growproc_remaps hgrow).entries (hs.sizes ht hsz) ?_ ?_ ?_ ?_
  · exact (Nat.min_le_left _ _).trans (hs.limit p hp)
  · intro a ha
    obtain ⟨a', -, rfl⟩ := List.mem_map.1 ha
    exact Nat.min_le_right _ _
  · intro q va f hq hL hst
    refine ⟨hG.call hn q hq hL (va, f) hst, fun a ha => ?_⟩
    obtain ⟨a', ha', rfl⟩ := List.mem_map.1 ha
    dsimp only
    have := hs.clear q va f hq hst a' (hL ▸ ha')
    omega
  · intro q va f hq hst e he
    by_cases hq' : q ∈ l
    · have hL := (ht.mem_iff_leader hs.grouped hq.1).1 hq'
      have hle := hG.call hn q hq hL (va, f) hst
      refine hpages q trivial _ ?_ e he
      simp only [pgSize] at *
      omega
    · rw [pte, hout q hq']
      exact he

/-- The new range starts at the old size, above every stack. -/
theorem Stacked.grow {l : List Slot} {n : Int32} {v : Int} (hs : k.Stacked h) (hp : k.Alive p) (ht : k.Team p l)
    (hn : 0 < n.toInt) (hgrow : k.growproc p n.toInt = .ok (v, k')) (hv : ¬ v < 0) :
    k'.Stacked (h.setHeap (k.leaderOf p)
      (((k.proc p).sz, (k.proc p).sz + n.toInt.toNat) :: h.heap (k.leaderOf p))) := by
  obtain ⟨hpages, hsz, hlim⟩ := growproc_pos hn n.toInt_lt ht (hs.limit p hp) hgrow
  have hstack : ∀ q va f, k.AliveThread q → h.stack q = some (va, f) → va + pgSize ≤ (k.proc q).sz := by
    intro q va f hq hst
    obtain ⟨va', f', hst', -, hle, -⟩ := hs.stack q hq
    rw [hst] at hst'
    cases hst'
    exact hle
  refine hs.resize (growproc_remaps hgrow).entries (hs.sizes ht (hsz.done hv)) (hlim hv) ?_ ?_ ?_
  · intro a ha
    rcases List.mem_cons.1 ha with rfl | ha
    · exact Nat.le_refl _
    · have := hs.heap p hp a ha
      omega
  · intro q va f hq hL hst
    have hle := hstack q va f hq hst
    rw [hs.level q p hq.1 hp hL] at hle
    refine ⟨by omega, fun a ha => ?_⟩
    rcases List.mem_cons.1 ha with rfl | ha
    · dsimp only
      omega
    · exact hs.clear q va f hq hst a (hL ▸ ha)
  · intro q va f hq hst e he
    exact hpages q trivial _ (hs.page_lt hq.1 (hstack q va f hq hst)) e he

theorem Stacked.sbrk {n : Int32} {v : Int} (hs : k.Stacked h) (hp : k.Alive p)
    (hG : SparesStacks (k, h) (.call p (.sbrk n))) (hstep : k.sbrk p n.toInt = .ok (v, k')) :
    k'.Stacked (k.arrange (.call p (.sbrk n)) h) := by
  obtain ⟨v', hgrow, hv⟩ := sbrk_result hstep
  obtain ⟨l, ht⟩ := exists_team hs.grouped hp
  rw [arrange_sbrk hstep]
  rcases hv with ⟨hneg, rfl⟩ | ⟨hpos, rfl⟩
  · -- only a call for more memory fails
    rw [if_pos (by decide)]
    rcases Int.lt_trichotomy n.toInt 0 with hn | hn | hn
    · obtain ⟨rfl, -⟩ := growproc_neg hn ht (ht.mem hp) (hs.limit p hp) hgrow
      exact absurd hneg (by decide)
    · rw [growproc, if_pos hn] at hgrow
      cases hgrow
      exact absurd hneg (by decide)
    · obtain ⟨hpages, hsz, -⟩ := growproc_pos hn n.toInt_lt ht (hs.limit p hp) hgrow
      have hent := (growproc_remaps hgrow).entries
      have hself : ∀ q, k'.Alive q → k.Alive q ∧ k'.leaderOf q = k.leaderOf q ∧
          (k'.proc q).isThread = (k.proc q).isThread := by
        intro q hq
        have hL : (k'.proc q).groupLeader = (k.proc q).groupLeader := congrArg Entry.groupLeader (congrFun hent q)
        refine ⟨(congrArg Entry.phase (congrFun hent q)).symm.trans hq, ?_, congrArg Entry.isThread (congrFun hent q)⟩
        rw [leaderOf, leaderOf, hL]
      exact hs.keep (hent ▸ hs.grouped) hself (fun q _ => hsz.failed hneg q trivial)
        (hpages.mono (fun _ _ => trivial) (Nat.le_refl _))
  · rw [if_neg (by omega)]
    rcases Int.lt_trichotomy n.toInt 0 with hn | hn | hn
    · rw [if_neg (by omega)]
      exact hs.shrink hp ht hn hG hgrow
    · rw [growproc, if_pos hn] at hgrow
      cases hgrow
      rw [if_neg (by omega), hs.cut hp]
      exact hs
    · rw [if_pos hn]
      exact hs.grow hp ht hn hgrow hpos

theorem Stacked.threadCreate {start arg : Nat} {v : Int} (hs : k.Stacked h) (hp : k.Alive p)
    (hm : Move k (.call p (.threadCreate start arg)) k'.entries)
    (hG : SparesStacks (k, h) (.call p (.threadCreate start arg)))
    (hstep : k.threadCreate p start arg = .ok (v, k')) :
    k'.Stacked (k.arrange (.call p (.threadCreate start arg)) h) := by
  have hres : k.step (.call p (.threadCreate start arg)) = .ok (some v, k') := by
    simp [step, syscall, returns, hstep, bind, Except.bind]
  obtain ⟨l, ht⟩ := exists_team hs.grouped hp
  rcases threadCreate_keeps hs.grouped hp ht hstep with ⟨hrooms, hdead⟩ | ⟨np, hen⟩
  · have harrange : k.arrange (.call p (.threadCreate start arg)) h = h := by
      simp only [arrange, hres]
      split
      · rename_i np hfind
        exact if_neg (hdead np hfind)
      · rfl
    rw [harrange]
    refine hs.keep (hm.wellGrouped hs.grouped) (fun q hq => ?_) ?_ ?_
    · exact (live_cases hm hq).resolve_right fun hfind => hdead q hfind.1 hq
    · exact keepsSizes_of_rooms fun q hq => hrooms q hq.1.not_found
    · exact keepsPages_of_rooms fun q hq => hrooms q hq.1.not_found
  · obtain ⟨haligned, htable⟩ := hG.call
    have hact : k'.Alive np := by
      obtain ⟨L, x, hx, hph, -⟩ := hen.entries
      rw [show k'.Alive np ↔ (k'.entries np).phase = .active from Iff.rfl, hx]
      exact hph
    have harrange : k.arrange (.call p (.threadCreate start arg)) h =
        h.setStack np ((k'.pte np ((k.proc p).sz / pgSize)).map fun pte => ((k.proc p).sz, pte.ppn)) := by
      simp only [arrange, hres, hen.slot, if_pos hact]
    rw [harrange]
    refine hs.create (hm.wellGrouped hs.grouped) hp ht hen haligned htable fun q hq hqn => ?_
    exact (live_cases hm hq).resolve_right fun hfind => hqn (Option.some.inj (hfind.1.symm.trans hen.slot))

theorem Stacked.exec {path : String} {file : Option Image} {argv : List (List UInt8)} {v : Int}
    (hs : k.Stacked h) (hp : k.Alive p) (hG : SparesStacks (k, h) (.call p (.exec path file argv)))
    (hstep : k.exec p path file argv = .ok (v, k')) :
    k'.Stacked (k.arrange (.call p (.exec path file argv)) h) := by
  have hres : k.step (.call p (.exec path file argv)) = .ok (some v, k') := by
    simp [step, syscall, returns, hstep, bind, Except.bind]
  have hent := (exec_remaps hstep).entries
  obtain ⟨hprocess, halone⟩ := hG.call
  obtain ⟨hrooms, hlim⟩ := exec_keeps (hs.limit p hp) hstep
  have hself : ∀ q, k'.Alive q → k.Alive q ∧ k'.leaderOf q = k.leaderOf q ∧
      (k'.proc q).isThread = (k.proc q).isThread := by
    intro q hq
    have hL : (k'.proc q).groupLeader = (k.proc q).groupLeader := congrArg Entry.groupLeader (congrFun hent q)
    refine ⟨(congrArg Entry.phase (congrFun hent q)).symm.trans hq, ?_, congrArg Entry.isThread (congrFun hent q)⟩
    rw [leaderOf, leaderOf, hL]
  by_cases hv : v < 0
  · have harrange : k.arrange (.call p (.exec path file argv)) h = h := by simp only [arrange, hres, if_pos hv]
    rw [harrange]
    have hsame := exec_failed hstep hv
    exact hs.keep (hent ▸ hs.grouped) hself (keepsSizes_of_rooms fun q _ => by rw [hsame])
      (keepsPages_of_rooms fun q _ => by rw [hsame])
  · have harrange : k.arrange (.call p (.exec path file argv)) h = h.setHeap (k.leaderOf p) [] := by
      simp only [arrange, hres, if_neg hv]
    rw [harrange]
    have hother : ∀ q, k.AliveThread q → q ≠ p := fun q hq heq => by
      have := hq.2
      rw [heq, hprocess] at this
      cases this
    refine hs.resize hent (s := (k'.proc p).sz) (fun q hq => ?_) hlim (fun _ hr => by cases hr) (fun q va f hq hL _ => ?_)
      fun q va f hq _ e he => ?_
    · by_cases hqp : q = p
      · rw [hqp, if_pos rfl]
      · rw [if_neg (halone q hqp hq)]
        exact congrArg Room.size (hrooms q hqp)
    · exact absurd hL (halone q (hother q hq) hq.1)
    · rw [pte, hrooms q (hother q hq)]
      exact he

theorem Stacked.step (hs : k.Stacked h) (hen : k.enabled e = true) (hG : SparesStacks (k, h) e)
    (hstep : k.step e = .ok (r, k')) : k'.Stacked (k.arrange e h) := by
  have hm := step_move hs.grouped hen hstep
  have hE := hm.wellGrouped hs.grouped
  -- a step that is none of the memory calls and starts nobody
  have hkeep : (∀ p c, e = .call p c → (∀ n, c ≠ .sbrk n) ∧ (∀ start arg, c ≠ .threadCreate start arg) ∧
      ∀ path file argv, c ≠ .exec path file argv) → (∀ p, e ≠ .call p .fork) → k.arrange e h = h →
      k'.Stacked (k.arrange e h) := by
    intro hcalls hfork harrange
    rw [harrange]
    refine hs.keep hE (fun q hq => ?_) ?_ ?_
    · refine (live_cases hm hq).resolve_right ?_
      rintro ⟨-, ⟨p, rfl⟩ | ⟨p, start, arg, rfl⟩⟩
      · exact hfork p rfl
      · exact (hcalls p _ rfl).2.1 start arg rfl
    · exact keepsSizes_of_rooms fun q hq => step_rooms hen hstep hcalls hq.1 hq.2
    · exact keepsPages_of_rooms fun q hq => step_rooms hen hstep hcalls hq.1 hq.2
  cases e with
  | call p c =>
    have hrun : (k.proc p).state = .running ∧ (k.proc p).killed = false := by simpa [enabled] using hen
    have hp := alive_of_running hrun.1
    cases c with
    | sbrk n =>
      obtain ⟨v, hv⟩ := returns_ok hstep
      exact hs.sbrk hp hG hv
    | threadCreate start arg =>
      obtain ⟨v, hv⟩ := returns_ok hstep
      exact hs.threadCreate hp hm hG hv
    | exec path file argv =>
      obtain ⟨v, hv⟩ := returns_ok hstep
      exact hs.exec hp hG hv
    | fork =>
      obtain ⟨v, hv⟩ := returns_ok hstep
      obtain ⟨hrooms, hsize⟩ := fork_keeps hp hv
      cases hfind : k.findUnused with
      | none =>
        have harrange : k.arrange (.call p .fork) h = h := by simp only [arrange, hfind]
        rw [harrange]
        refine hs.keep hE (fun q hq => (live_cases hm hq).resolve_right fun hq' => ?_) ?_ ?_
        · rw [hfind] at hq'
          cases hq'.1
        · exact keepsSizes_of_rooms fun q hq => hrooms q hq.1.not_found
        · exact keepsPages_of_rooms fun q hq => hrooms q hq.1.not_found
      | some np =>
        have harrange : k.arrange (.call p .fork) h = h.setHeap np [] := by simp only [arrange, hfind]
        rw [harrange]
        refine hs.fork hE hp hfind (fun q hq hqn => ?_) (fun q hq => ?_) fun hact => ?_
        · exact (live_cases hm hq).resolve_right fun hq' => hqn (Option.some.inj (hq'.1.symm.trans hfind))
        · exact hrooms q fun hq' => hq (Option.some.inj (hq'.symm.trans hfind))
        · have hprocess := forked_process hm hs.grouped hfind hact
          exact ⟨leaderOf_process hE hact.enrolled hprocess, hprocess, hsize np hfind hact⟩
    | _ =>
      refine hkeep (fun p' c' hc => ?_) (fun _ hc => by cases hc) rfl
      cases hc
      exact ⟨fun _ hc => (by cases hc), fun _ _ hc => (by cases hc), fun _ _ _ hc => (by cases hc)⟩
  | _ => exact hkeep (fun _ _ hc => by cases hc) (fun _ hc => by cases hc) rfl

/-- A thread goes on until it exits, and its stack stays where it is. -/
theorem Stacked.stays (hs : k.Stacked h) (hen : k.enabled e = true) (hG : SparesStacks (k, h) e)
    (hstep : k.step e = .ok (r, k')) (hq : k.AliveThread q) (he : e.exits ≠ some q) :
    k'.AliveThread q ∧ (k.arrange e h).stack q = h.stack q := by
  have hm := step_move hs.grouped hen hstep
  have hact : (k.entries q).phase = .active := hq.1
  have hfound : k.findUnused ≠ some q := hq.1.not_found
  constructor
  · have hsame : (k'.entries q).phase = (k.entries q).phase → (k.entries q).SameIds (k'.entries q) →
        k'.AliveThread q := fun hph hids => ⟨hph.trans hact, hids.isThread.trans hq.2⟩
    cases hm.kin q with
    | kept hph _ hids => exact hsame hph hids
    | exited hx => exact absurd hx he
    | adopted _ _ _ _ _ _ _ hph hids => exact hsame hph hids
    | reaped _ _ hz => rw [hact] at hz; cases hz
    | freed hfrees =>
      obtain ⟨L, hr, ⟨-, rfl⟩ | ⟨ms, hg, hmem⟩⟩ := hfrees
      · obtain ⟨-, -, hz, -⟩ := reaps_parent hen hr
        rw [hact] at hz
        cases hz
      · exact absurd hact (hG.release L hr q ((hg.mem_iff q).1 hmem).1)
    | forked _ _ _ hfind => exact absurd hfind hfound
    | created _ _ _ _ _ hfind => exact absurd hfind hfound
    | failed hfind => exact absurd hfind hfound
    | stranded _ _ _ _ hfind => exact absurd hfind hfound
  · unfold arrange
    split
    · dsimp only
      split
      · rfl
      · split <;> rfl
    · split
      · rename_i np hfind
        have hne : q ≠ np := fun heq => hfound (heq ▸ hfind)
        split
        · simp [Layout.setStack, hne]
        · rfl
      · rfl
    · split <;> rfl
    · split <;> rfl
    · rfl

end Kernel

/-! ## Whole runs -/

/-- The system with the layout of its groups. -/
def arranged (b : Boot) : Lts (Kernel × Layout) Event := (system b).withHistory .start Kernel.arrange

theorem Boot.main_size (hmain : b.main = .ok k) : (k.proc k.initproc).sz = pgSize := by
  obtain ⟨p, k₁, pt, tf, f, m, b', m', pt', -, -, -, -, -, ir, regs, rfl⟩ := Kernel.userinit_ok hmain
  simp

theorem Boot.main_stacked (hmain : b.main = .ok k) : k.Stacked .start := by
  obtain ⟨p, hzero, rfl, hp⟩ := Boot.main_entries hmain
  have halive : ∀ q, k.Alive q → q = k.initproc := by
    intro q hq
    by_contra hne
    rw [Kernel.Alive, hzero q hne] at hq
    cases hq
  have hthread : ∀ q, ¬ k.AliveThread q := fun q hq => by
    have hth : (k.entries k.initproc).isThread = true := halive q hq.1 ▸ hq.2
    rw [hp] at hth
    cases hth
  refine ⟨Boot.main_wellGrouped hmain, fun x y hx hy _ => ?_, fun x hx => ?_, fun x _ a ha => ?_,
    fun x hx => absurd hx (hthread x), fun x _ _ _ _ _ hx => absurd hx (hthread x),
    fun x _ _ hx => absurd hx (hthread x)⟩
  · rw [halive x hx, halive y hy]
  · rw [halive x hx, Boot.main_size hmain]
    decide
  · cases ha

theorem stacked_of_reaches (hk : (arranged b).Reaches Kernel.SparesStacks (k, h)) : k.Stacked h := by
  refine hk.invariant (P := fun s => s.1.Stacked s.2) ?_ ?_
  · rintro ⟨k, h⟩ ⟨hmain, rfl⟩
    exact Boot.main_stacked hmain
  · rintro ⟨k, h⟩ e ⟨k', h'⟩ hs hG ⟨⟨hen, r, hstep⟩, rfl⟩
    exact hs.step hen hG hstep

/-- The stack of every thread that has not exited is mapped where it was put,
apart from the other stacks and from the ranges of `sbrk`. -/
def Kernel.PrivateStacks (k : Kernel) (h : Layout) : Prop :=
  ∀ q, k.AliveThread q → ∃ va f, h.stack q = some (va, f) ∧ va % pgSize = 0 ∧
    k.pte q (va / pgSize) = some ⟨f, permUser⟩ ∧
    (∀ q' va' f', q' ≠ q → k.AliveThread q' → k.leaderOf q' = k.leaderOf q → h.stack q' = some (va', f') →
      va + pgSize ≤ va' ∨ va' + pgSize ≤ va) ∧
    ∀ a ∈ h.heap (k.leaderOf q), va + pgSize ≤ a.1 ∨ a.2 ≤ va

/-- In every state of a run that cuts off no stack, stacks are private, and a
thread keeps its stack until it exits. -/
theorem stacks_of_reaches (hk : (arranged b).Reaches Kernel.SparesStacks (k, h)) :
    k.PrivateStacks h ∧
    ∀ e r k', k.enabled e = true → Kernel.SparesStacks (k, h) e → k.step e = .ok (r, k') →
      ∀ q, k.AliveThread q → e.exits ≠ some q →
        k'.AliveThread q ∧ (k.arrange e h).stack q = h.stack q := by
  have hs := stacked_of_reaches hk
  refine ⟨fun q hq => ?_, fun e r k' hen hG hstep q hq he => hs.stays hen hG hstep hq he⟩
  obtain ⟨va, f, hst, hal, -, hpte⟩ := hs.stack q hq
  refine ⟨va, f, hst, hal, hpte, fun q' va' f' hne hq' hL hst' => ?_, hs.clear q va f hq hst⟩
  exact hs.apart q q' va f va' f' hq hq' hne.symm hL.symm hst hst'

/-- Two threads, with memory taken and given back between and after them. -/
theorem stacks_of_two : ∃ k h, (arranged .standard).Reaches Kernel.SparesStacks (k, h) ∧
    k.AliveThread ⟨1, by decide⟩ ∧ k.AliveThread ⟨2, by decide⟩ ∧
    h.heap ⟨0, by decide⟩ = [(16384, 20480), (8192, 12288)] ∧ k.PrivateStacks h := by
  have hrun : (Boot.standard.runWith Kernel.arrange Kernel.SparesStacks .start
        [.schedule ⟨0, by decide⟩, .call ⟨0, by decide⟩ (.threadCreate 0 0), .call ⟨0, by decide⟩ (.sbrk 4096),
          .schedule ⟨1, by decide⟩, .call ⟨1, by decide⟩ (.threadCreate 0 0),
          .call ⟨0, by decide⟩ (.sbrk 8192), .call ⟨1, by decide⟩ (.sbrk (-4096))]).any
      (fun s => s.1.AliveThread ⟨1, by decide⟩ ∧ s.1.AliveThread ⟨2, by decide⟩ ∧
        s.2.heap ⟨0, by decide⟩ = [(16384, 20480), (8192, 12288)]) = true := by decide +kernel
  obtain ⟨⟨k, h⟩, hk, hc⟩ := exists_reaches_of_runWith hrun
  obtain ⟨h₁, h₂, hheap⟩ := of_decide_eq_true hc
  exact ⟨k, h, hk, h₁, h₂, hheap, (stacks_of_reaches hk).1⟩

/-- A thread is made, and the page of its stack is given back. -/
theorem stacks_of_shrink : ¬ ∀ (b : Boot) (k : Kernel) (h : Layout),
    (arranged b).Reaches (fun s => anyStep s.1) (k, h) → k.PrivateStacks h := by
  intro hall
  have hrun : (Boot.standard.runWith Kernel.arrange (fun s => anyStep s.1) .start
        [.schedule ⟨0, by decide⟩, .call ⟨0, by decide⟩ (.threadCreate 0 0),
          .call ⟨0, by decide⟩ (.sbrk (-4096))]).any
      (fun s => s.1.AliveThread ⟨1, by decide⟩ ∧
        ∀ a ∈ s.2.stack ⟨1, by decide⟩, s.1.pte ⟨1, by decide⟩ (a.1 / pgSize) = none) = true := by decide +kernel
  obtain ⟨⟨k, h⟩, hk, hc⟩ := exists_reaches_of_runWith hrun
  obtain ⟨hthread, hnone⟩ := of_decide_eq_true hc
  obtain ⟨va, f, hst, -, hpte, -⟩ := hall _ k h hk _ hthread
  have := hnone (va, f) hst
  dsimp only at this
  rw [this] at hpte
  cases hpte

end Xv6
