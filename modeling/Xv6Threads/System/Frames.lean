-- SUMMARY: Frame safety: which runs never free a page that a live process still uses, and one that does.
import Xv6Threads.Base.Ledger
import Xv6Threads.System.Transfers

/-!
# Frame safety

The free list, the tables, the trapframes and the pipes own pages; user tables
use them. In these terms the kernel is a ledger, and each transfer is a safe
operation on it, as long as a page is freed only when no other live slot maps
it. `FrameGuard` says so of the steps that free user pages: `exit`, `exec` and
a shrinking `sbrk`.
-/

namespace Xv6

open PageTable Weight

variable {k k' : Kernel} {e : Event} {p q np : Slot} {f : Ppn}

namespace Kernel

/-! ## The property -/

/-- In use and not exited. -/
def Live (k : Kernel) (q : Slot) : Prop :=
  (k.proc q).state ≠ .unused ∧ (k.proc q).state ≠ .zombie ∧ (k.proc q).state ≠ .ghost

instance (k : Kernel) (q : Slot) : Decidable (k.Live q) := inferInstanceAs (Decidable (_ ∧ _))

/-- Slot `q` maps page `f` as a user page. -/
def MapsUser (k : Kernel) (q : Slot) (f : Ppn) : Prop :=
  ∃ pt v x, (k.proc q).pagetable = some pt ∧ v < userPages ∧ pt.leaf v = some x ∧ x.ppn = f

/-- Page `f` holds a part of the table of slot `q`. -/
def StoresTable (k : Kernel) (q : Slot) (f : Ppn) : Prop :=
  ∃ pt, (k.proc q).pagetable = some pt ∧ pt.StoredIn f

/-- Page `f` is the trapframe of slot `q`. -/
def HasTrapframe (k : Kernel) (q : Slot) (f : Ppn) : Prop :=
  (k.proc q).trapframe.map Trapframe.page = some f

/-- No page is on the free list twice or while a live slot uses it, and groups
do not share user pages. -/
structure FrameSafe (k : Kernel) : Prop where
  nodup : k.mem.freelist.Nodup
  unused : ∀ f ∈ k.mem.freelist, ∀ q, k.Live q →
    ¬ k.MapsUser q f ∧ ¬ k.StoresTable q f ∧ ¬ k.HasTrapframe q f
  apart : ∀ q q', k.Live q → k.Live q' → k.leaderOf q ≠ k.leaderOf q' →
    ∀ f, ¬ (k.MapsUser q f ∧ k.MapsUser q' f)

/-- No live slot but `p` maps page `f`. -/
def Spared (k : Kernel) (p : Slot) (f : Ppn) : Prop := ∀ q, q ≠ p → k.Live q → ¬ k.MapsUser q f

/-- A user page is freed only when no other live slot maps it. -/
structure FrameGuard (k : Kernel) (e : Event) : Prop where
  tidy : k.Tidy e
  sbrk : ∀ p n, e = .call p (.sbrk n) → n.toInt < 0 → ∀ pt v x, (k.proc p).pagetable = some pt →
    pagesBelow (k.shrunk p n.toInt) ≤ v → v < pagesBelow (k.proc p).sz → pt.leaf v = some x →
    k.Spared p x.ppn
  exec : ∀ p path img argv, e = .call p (.exec path (some img) argv) → img.header = true →
    ∀ f, k.MapsUser p f → k.mem.refcount f = 1 → k.Spared p f
  exit : ∀ p, e.exits = some p → (k.proc p).isThread = false →
    ∀ f, k.MapsUser p f → k.mem.refcount f = 1 → k.Spared p f

theorem live_iff : k.Live q ↔ (k.entries q).phase = .active ∨ (k.entries q).phase = .used := by
  simp only [Live, entries, Proc.entry]
  cases (k.proc q).state <;> simp [ProcState.phase]

theorem mapsUser_iff : k.MapsUser q f ↔ 0 < (k.rooms q).user (single f) := by
  have hr : (k.rooms q).table = (k.proc q).pagetable := rfl
  cases hpt : (k.proc q).pagetable with
  | none =>
    rw [Room.user_of_none (hr.trans hpt)]
    simp [MapsUser, hpt]
  | some pt =>
    rw [Room.user_of_table (hr.trans hpt), PageTable.user, span_single_pos]
    constructor
    · rintro ⟨pt', v, x, hpt', hv, hx, hf⟩
      obtain rfl := Option.some.inj (hpt.symm.trans hpt')
      exact ⟨v, x, Nat.zero_le _, hv, hx, hf⟩
    · rintro ⟨v, x, -, hv, hx, hf⟩
      exact ⟨pt, v, x, hpt, hv, hx, hf⟩

/-! ## The ledger of the kernel -/

/-- Who owns and who uses the pages. -/
def ledger (k : Kernel) : Ledger Slot Ppn Slot where
  own f := k.owned (single f)
  use q f := (k.rooms q).user (single f)
  count := k.mem.refcount
  live := k.Live
  key := k.leaderOf

theorem Spared.use_eq_zero (h : k.Spared p f) (hne : q ≠ p) (hq : k.Live q) :
    (k.rooms q).user (single f) = 0 := by
  by_contra hpos
  exact h q hne hq (mapsUser_iff.2 (Nat.pos_of_ne_zero hpos))

/-- A safe ledger makes a safe kernel. -/
theorem frameSafe_of_ledger (h : k.ledger.Safe) : k.FrameSafe := by
  have hfree : ∀ f, k.mem.weigh (single f) ≤ k.owned (single f) := fun f => k.weigh_le_owned _
  have hheld : ∀ q f, f ∈ k.mem.freelist → (k.rooms q).held (single f) = 0 := by
    intro q f hf
    have h₁ : k.owned (single f) ≤ 1 := h.own_le f
    have h₂ : 0 < k.mem.weigh (single f) := ofList_single_pos.2 hf
    have h₃ := le_sum (fun q => (k.rooms q).held (single f)) q
    unfold owned at h₁
    omega
  refine ⟨nodup_iff.2 fun f => (hfree f).trans (h.own_le f), fun f hf q hq => ⟨fun hm => ?_, ?_, ?_⟩, ?_⟩
  · have h₁ : k.owned (single f) + (k.rooms q).user (single f) ≤ 1 := h.apart q f hq
    have h₂ : 0 < k.mem.weigh (single f) := ofList_single_pos.2 hf
    have h₃ := hfree f
    have h₄ := mapsUser_iff.1 hm
    omega
  · rintro ⟨pt, hpt, hst⟩
    have h₁ := hheld q f hf
    rw [Room.held_of_table (show (k.rooms q).table = some pt from hpt)] at h₁
    have h₂ := hst.weigh_pos
    omega
  · intro htf
    have h₁ := hheld q f hf
    rw [Room.held, show (k.rooms q).frame = some f from htf, ofOption_some, single_self] at h₁
    omega
  · rintro q q' hq hq' hne f ⟨hm, hm'⟩
    exact hne (h.shared q q' f hq hq' (mapsUser_iff.1 hm) (mapsUser_iff.1 hm'))

/-- Live slots were live before, in the same group, or are new and empty. -/
theorem ledger_settled (hm : Move k e k'.entries) (hH : Housed k) : k.ledger.Settled k'.ledger := by
  intro q hq
  have hlive : (k'.entries q).phase = .active ∨ (k'.entries q).phase = .used := live_iff.1 hq
  cases hm.shift q with
  | same hph _ hL => exact .inl ⟨live_iff.2 (by rwa [hph] at hlive), hL⟩
  | taken hfind =>
    refine .inr fun f => ?_
    have hempty := (hH q).vacant (findUnused_phase hfind)
    simp only [ledger, hempty, Room.user_empty]
  | exited _ hph => simp [hph] at hlive
  | reaped _ hph => simp [hph] at hlive
  | freed _ hph => simp [hph] at hlive

/-! ## Transfers as operations on the ledger -/

section

variable {pt pt' npt : PageTable} {l : List Slot} {lo hi v : Nat} {w : Ppn → Nat}

/-- A new thread maps what its creator maps below `hi`. -/
theorem Hosts.user (h : Hosts pt hi npt) (hhi : hi ≤ userPages) (w : Ppn → Nat) :
    npt.user w = pt.span w 0 hi := by
  rw [PageTable.user, ← span_add (Nat.zero_le hi) hhi, span_eq_zero fun v hv hv' => h.hollow v hv hv',
    Nat.add_zero]
  exact span_congr fun v _ hv => h.shared v hv

theorem Hosts.user_le (h : Hosts pt hi npt) (hhi : hi ≤ userPages) (w : Ppn → Nat) :
    npt.user w ≤ pt.user w := by
  rw [h.user hhi, PageTable.user, ← span_add (Nat.zero_le hi) hhi]
  exact Nat.le_add_right _ _

/-- Mapping a stack adds at most the stack page. -/
theorem user_of_stacked {r r' : Room} {stack : Ppn} (h : Room.Stacked v stack r r') (w : Ppn → Nat) :
    r.user w ≤ r'.user w ∧ r'.user w ≤ r.user w + w stack := by
  obtain ⟨pt, pt', hpt, hpt', ha, -⟩ := h.table
  rw [Room.user_of_table hpt, Room.user_of_table hpt']
  refine ⟨ha.le_user w, (ha.user_le w).trans (Nat.add_le_add_left ?_ _)⟩
  simp

/-- A grown group has at most the new pages of the caller. -/
theorem Grows.use (h : k.Grows p l k' pt pt' lo hi) (hq : q ∈ l) (w : Ppn → Nat) :
    (k.rooms q).user w ≤ (k'.rooms q).user w ∧
      (k'.rooms q).user w ≤ (k.rooms q).user w + pt'.span w lo hi := by
  by_cases hqp : q = p
  · subst hqp
    have hold : pt.span w lo hi = 0 := span_eq_zero fun v hv hv' => (h.inside v hv hv').1
    have huser := h.outside.user (w := w) h.le h.limit
    rw [Room.user_of_table h.table, Room.user_of_table h.table']
    omega
  · rcases h.member q ⟨hq, hqp⟩ with heq | ⟨ptq, ptq', hptq, hptq', ha⟩
    · have : (k'.rooms q).user w = (k.rooms q).user w := by rw [Room.user, Room.user, heq]
      omega
    · rw [Room.user_of_table hptq, Room.user_of_table hptq']
      exact ⟨ha.le_user w, ha.user_le w⟩

end

/-- A count that frees a page mapped once is one. -/
theorem count_of_freedBy {c : Int} {n : Nat} (h : 0 < freedBy true c n) (hn : n ≤ 1) : c = 1 ∧ n = 1 := by
  unfold freedBy at h
  split at h
  · omega
  · exact absurd h (Nat.lt_irrefl _)

theorem le_of_freedBy {c : Int} {n : Nat} (h : 0 < freedBy true c n) : c ≤ n := by
  unfold freedBy at h
  split at h
  · omega
  · exact absurd h (Nat.lt_irrefl _)

/-- The slot of a running process stays live unless it exits. -/
theorem live_of_active (hm : Move k e k'.entries) (hr : k.reaps e = none) (hx : e.exits = none)
    (hp : (k.entries p).phase = .active) : k'.Live p := by
  rw [live_iff]
  cases hm.shift p with
  | same hph => exact .inl (hph.trans hp)
  | taken hfind => rw [findUnused_phase hfind] at hp; cases hp
  | exited he => rw [hx] at he; cases he
  | reaped hz => rw [hp] at hz; cases hz
  | freed hf => exact absurd hf (not_frees hr)

/-- A member of a group stays in it when nobody is reaped. -/
theorem leaderOf_of_enrolled (hm : Move k e k'.entries) (hr : k.reaps e = none)
    (hq : (k.entries q).phase ≠ .unused) : k'.leaderOf q = k.leaderOf q := by
  cases hm.shift q with
  | same _ _ hL => exact hL
  | taken hfind => exact absurd (findUnused_phase hfind) hq
  | exited _ _ _ hL => exact hL
  | reaped _ _ hL => exact hL
  | freed hf => exact absurd hf (not_frees hr)

theorem Vacates.retire (h : k.Vacates p k') (hs : k.ledger.Settled k'.ledger) (hsafe : k.ledger.Safe)
    (hp : k.Live p) (hguard : ∀ f, k.MapsUser p f → k.mem.refcount f = 1 → k.Spared p f) :
    k.ledger.Retire p (fun f => (k.rooms p).user (single f))
      (fun f => freedBy true (k.mem.refcount f) ((k.rooms p).user (single f))) k'.ledger where
  settled := hs
  live := hp
  own := h.owned
  le f := freedBy_le _ _ _
  use f := by
    have hnone : (k'.rooms p).user (single f) = 0 := by
      rw [h.rooms, Function.update_self]
      exact Room.user_of_none rfl
    simp only [ledger, hnone, Nat.zero_add]
  outside x hx := by simp only [ledger, h.rooms, Function.update_of_ne hx]
  alone f hf x hx hlive := by
    have hone : k.owned (single f) + (k.rooms p).user (single f) ≤ 1 := hsafe.apart p f hp
    obtain ⟨hc, hn⟩ := count_of_freedBy hf (by omega)
    exact (hguard f (mapsUser_iff.2 (by omega)) hc).use_eq_zero hx hlive
  count f := by
    refine .inl ⟨?_, fun hf => ?_⟩
    · simp only [ledger, h.counts]
      omega
    · have := le_of_freedBy hf
      simp only [ledger, h.counts]
      omega

section

variable {pt pt' npt old : PageTable} {l ms : List Slot} {L : Slot} {lo hi v sz : Nat} {tf stack : Ppn} {n : Int}

theorem Copies.hire (h : k.Copies p np pt tf k') (hs : k.ledger.Settled k'.ledger) (hH : Housed k) :
    k.ledger.Hire (· = np) (fun f => pt.user (single f)) k'.ledger where
  settled := hs
  own f := h.owned (single f)
  inside q hq f := by
    subst hq
    have hempty := (hH q).vacant (findUnused_phase h.slot)
    have huser : (k'.rooms q).user (single f) = pt.user (single f) := by
      rw [h.rooms, Function.update_self]
      exact Room.user_of_table rfl
    simp only [ledger, hempty, huser, Room.user_empty]
    omega
  outside q hq := by simp only [ledger, h.rooms, Function.update_of_ne hq]
  count := h.refcount
  together q q' hq hq' := by rw [hq, hq']

theorem Grows.hire (h : k.Grows p l k' pt pt' lo hi) (hs : k.ledger.Settled k'.ledger) (ht : k.Team p l)
    (he : k'.entries = k.entries) :
    k.ledger.Hire (· ∈ l) (fun f => pt'.span (single f) lo hi) k'.ledger where
  settled := hs
  own f := h.owned (single f)
  inside q hq f := h.use hq (single f)
  outside q hq := by simp only [ledger, h.other q hq]
  count := h.refcount
  together q q' hq hq' := by
    have hL : ∀ x, k'.leaderOf x = k.leaderOf x := fun x =>
      congrArg (fun y : Entry => y.groupLeader.getD x) (congrFun he x)
    exact (hL q).trans ((ht.leaderOf_eq hq).trans ((ht.leaderOf_eq hq').symm.trans (hL q').symm))

theorem Shrinks.retire (h : k.Shrinks p n k' pt pt' lo hi) (hs : k.ledger.Settled k'.ledger)
    (hH : Housed k) (hp : k.Live p)
    (hguard : ∀ v x, lo ≤ v → v < hi → pt.leaf v = some x → k.Spared p x.ppn) :
    k.ledger.Retire p (fun f => pt.span (single f) lo hi) (fun f => pt.span (single f) lo hi) k'.ledger where
  settled := hs
  live := hp
  own f := h.owned (single f)
  le f := Nat.le_refl _
  use f := by
    have hle : lo ≤ hi := by
      rw [h.start, h.stop]
      exact pagesBelow_mono (Nat.min_le_left _ _)
    have hlim : hi ≤ userPages := by
      rw [h.stop]
      exact pagesBelow_le_userPages (hH p).size_le
    have hnew : pt'.span (single f) lo hi = 0 := span_eq_zero fun v hv hv' => (h.inside v hv hv').2
    have huser := h.outside.user (w := single f) hle hlim
    have hp' : (k'.rooms p).user (single f) = pt'.user (single f) := by
      rw [h.rooms, Function.update_self]
      exact Room.user_of_table rfl
    simp only [ledger, hp', Room.user_of_table h.table]
    omega
  outside x hx := by simp only [ledger, h.rooms, Function.update_of_ne hx]
  alone f hf x hx hlive := by
    obtain ⟨v, y, hlo, hhi, hy, rfl⟩ := span_single_pos.1 hf
    exact (hguard v y hlo hhi hy).use_eq_zero hx hlive
  count f := .inr ⟨by simp only [ledger, h.refcount]; exact Int.le_refl _, rfl⟩

theorem Dissolves.dismiss (h : k.Dissolves L ms k') (hs : k.ledger.Settled k'.ledger) :
    k.ledger.Dismiss ms.toFinset k'.ledger where
  settled := hs
  own := funext h.owned
  inside q hq f := by
    have hnone : (k'.rooms q).table = none := by
      rw [h.member q (List.mem_toFinset.1 hq)]
      rfl
    exact Room.user_of_none hnone
  outside q hq := by
    have hqms : q ∉ ms := fun hmem => hq (List.mem_toFinset.2 hmem)
    by_cases hqL : q = L
    · subst hqL
      simp only [ledger, h.leader, Room.user_empty, Room.user_of_none h.bare]
    · simp only [ledger, h.other q (by simp [hqL, hqms])]
  count f := by
    have hsum : ofList (fun q => (k.rooms q).user (single f)) ms =
        ∑ q ∈ ms.toFinset, (k.rooms q).user (single f) :=
      (List.sum_toFinset _ (List.nodup_cons.1 h.group.ring.nodup).2).symm
    simp only [ledger, h.counts, hsum]
    push_cast
    rfl

theorem Strands.lend (h : k.Strands p k' np pt npt tf hi) (hm : k.ledger.Settled k'.ledger) (hH : Housed k)
    (hp : k.Live p) (hp' : k'.Live p) (hkey : k'.leaderOf p = k.leaderOf p) :
    k.ledger.Lend p np k'.ledger where
  settled := hm
  own := funext fun f => h.owned (single f)
  lender := ⟨hp, hp'⟩
  fresh f := by
    have hempty := (hH np).vacant (findUnused_phase h.slot)
    simp only [ledger, hempty, Room.user_empty]
  taker f := by
    have hlim := h.limit.trans (pagesBelow_le_userPages (hH p).size_le)
    have huser : (k'.rooms np).user (single f) = npt.user (single f) := by
      rw [h.rooms, Function.update_self]
      exact Room.user_of_table rfl
    simp only [ledger, huser, Room.user_of_table h.table]
    exact h.hosts.user_le hlim _
  outside x hx := by simp only [ledger, h.rooms, Function.update_of_ne hx]
  count f := by
    have hlim := h.limit.trans (pagesBelow_le_userPages (hH p).size_le)
    have huser : (k'.rooms np).user (single f) = npt.user (single f) := by
      rw [h.rooms, Function.update_self]
      exact Room.user_of_table rfl
    simp only [ledger, huser, h.counts, h.hosts.user hlim]
  together := h.leader.trans hkey.symm

/-- `thread_create` lends the pages of the caller, and then the group takes the
stack. -/
theorem Spawns.sound (h : k.Spawns p l k' np pt npt tf stack v) (hs : k.ledger.Settled k'.ledger)
    (hH : Housed k) (hp : k.Live p) (hp' : k'.Live p)
    (hkey : ∀ q ∈ l, k'.leaderOf q = k.leaderOf p) (hpl : p ∈ l) (hsound : k.ledger.Sound) :
    k'.ledger.Sound := by
  have hv : v ≤ userPages := by
    have := pagesBelow_le_userPages (hH p).size_le
    rwa [h.size, pagesBelow_mul] at this
  have hempty := (hH np).vacant (findUnused_phase h.slot)
  -- the ledger when the pages have been lent
  let A : Ledger Slot Ppn Slot :=
    { k'.ledger with
      own := k.ledger.own
      use := Function.update k.ledger.use np fun f => npt.user (single f) }
  have hlend : k.ledger.Lend p np A := by
    refine ⟨fun q hq => hs q hq, rfl, ⟨hp, hp'⟩, fun f => ?_, fun f => ?_, fun x hx => ?_, fun f => ?_, ?_⟩
    · simp only [ledger, hempty, Room.user_empty]
    · simp only [A, Function.update_self, ledger, Room.user_of_table h.table]
      exact h.hosts.user_le hv _
    · simp only [A, Function.update_of_ne hx]
    · simp only [A, Function.update_self, ledger, h.counts, h.hosts.user hv]
    · exact h.leader.trans (hkey p hpl).symm
  refine (hsound.lend hlend).hire (S := (· ∈ np :: l)) (t := fun f => single f stack) ?_
  have hkey' : ∀ q ∈ np :: l, k'.leaderOf q = k.leaderOf p := by
    intro q hq
    rcases List.mem_cons.1 hq with rfl | hq
    · exact h.leader
    · exact hkey q hq
  refine ⟨fun q hq => .inl ⟨hq, rfl⟩, fun f => h.owned (single f), fun q hq f => ?_, fun q hq => ?_, rfl,
    fun q q' hq hq' => (hkey' q hq).trans (hkey' q' hq').symm⟩
  · rcases List.mem_cons.1 hq with rfl | hq
    · have := user_of_stacked h.newcomer (single f)
      rw [Room.user_of_table (r := ⟨some npt, some tf, 0⟩) rfl] at this
      simpa only [A, Function.update_self, ledger] using this
    · have hqnp : q ≠ np := fun heq => h.fresh (heq ▸ hq)
      have := user_of_stacked (h.member q hq) (single f)
      simpa only [A, Function.update_of_ne hqnp, ledger] using this
  · have hqnp : q ≠ np := fun heq => hq (by simp [heq])
    simp only [A, Function.update_of_ne hqnp, ledger, h.other q hq]

/-- `exec` takes the new pages before it gives up the old ones. -/
theorem Replaces.sound (h : k.Replaces p k' old pt sz) (hs : k.ledger.Settled k'.ledger)
    (hp : k.Live p) (hp' : k'.Live p)
    (hguard : ∀ f, k.MapsUser p f → k.mem.refcount f = 1 → k.Spared p f) (hsound : k.ledger.Sound) :
    k'.ledger.Sound := by
  let A : Ledger Slot Ppn Slot :=
    { k'.ledger with
      own := fun f => k.owned (single f) - pt.user (single f)
      use := Function.update k.ledger.use p fun f => old.user (single f) + pt.user (single f)
      count := k.mem.refcount }
  have hold : ∀ f, (k.rooms p).user (single f) = old.user (single f) := fun f => Room.user_of_table h.table
  have hnew : ∀ f, (k'.rooms p).user (single f) = pt.user (single f) := by
    intro f
    rw [h.rooms, Function.update_self]
    exact Room.user_of_table rfl
  have hhire : k.ledger.Hire (· = p) (fun f => pt.user (single f)) A := by
    refine ⟨fun q hq => hs q hq, fun f => ?_, fun q hq f => ?_, fun q hq => ?_, rfl,
      fun q q' hq hq' => by rw [hq, hq']⟩
    · have := h.taken f
      simp only [A, ledger]
      omega
    · subst hq
      simp only [A, Function.update_self, ledger, hold]
      omega
    · simp only [A, Function.update_of_ne hq]
  have hsafe := hsound.safe
  refine (hsound.hire hhire).retire (q := p) (t := fun f => old.user (single f))
    (r := fun f => freedBy true (k.mem.refcount f) (old.user (single f)))
    ⟨fun q hq => .inl ⟨hq, rfl⟩, hp', fun f => ?_, fun f => freedBy_le _ _ _, fun f => ?_, fun x hx => ?_, ?_, ?_⟩
  · have h₁ := h.owned f
    have h₂ := h.taken f
    simp only [A, ledger]
    omega
  · simp only [A, Function.update_self, ledger, hnew]
    omega
  · simp only [A, Function.update_of_ne hx, ledger, h.rooms]
  · intro f hf x hx hlive
    have hone : k.owned (single f) + (k.rooms p).user (single f) ≤ 1 := hsafe.apart p f hp
    rw [hold] at hone
    obtain ⟨hc, hn⟩ := count_of_freedBy hf (by omega)
    simp only [A, Function.update_of_ne hx]
    rcases hs x hlive with ⟨hlive', -⟩ | hzero
    · exact (hguard f (mapsUser_iff.2 (by rw [hold]; omega)) hc).use_eq_zero hx hlive'
    · exact hzero f
  · intro f
    refine .inl ⟨?_, fun hf => ?_⟩
    · simp only [A, ledger, h.counts]
      omega
    · have := le_of_freedBy hf
      simp only [ledger, h.counts]
      omega

end

end Kernel

open Kernel in
/-- A guarded step keeps the ledger sound. -/
theorem Transfer.sound (ht : Transfer k e k') (hm : Move k e k'.entries)
    (hH : Housed k) (hG : k.FrameGuard e) (h : k.ledger.Sound) : k'.ledger.Sound := by
  have hs := ledger_settled hm hH
  have hlive : ∀ {p}, (k.entries p).phase = .active → k.Live p := fun hp => live_iff.2 (.inl hp)
  cases ht with
  | rest hr =>
    refine h.lose ⟨hs, fun f => ?_, ?_, fun f => ?_⟩
    · simp only [ledger, hr.owned]
      exact Nat.le_refl _
    · simp only [ledger, hr.rooms]
    · simp only [ledger, hr.refcount]
      exact Int.le_refl _
  | forkLost hl =>
    refine h.lose ⟨hs, fun f => hl.owned _, ?_, fun f => ?_⟩
    · simp only [ledger, hl.rooms]
    · simp only [ledger, hl.refcount]
      exact Int.le_refl _
  | fork hc => exact h.hire (hc.hire hs hH)
  | @execBad _ _ _ _ pt _ _ hsc =>
    refine h.lose ⟨hs, fun f => ?_, ?_, fun f => ?_⟩
    · have h₁ := hsc.owned f
      have h₂ := freedBy_le true (k.mem.refcount f) (pt.user (single f))
      simp only [ledger]
      omega
    · simp only [ledger, hsc.rooms]
    · simp only [ledger, hsc.counts]
      omega
  | @exec p path img argv old pt sz _ himg hp hr =>
    exact hr.sound hs (hlive hp) (live_of_active hm rfl rfl hp) (hG.exec p path img argv rfl himg) h
  | grow _ _ hteam _ he hg => exact h.hire (hg.hire hs hteam he)
  | @shrink p n pt pt' lo hi _ hn hp _ hsh =>
    refine h.retire (hsh.retire hs hH (hlive hp) fun v x hlo hhi hx => ?_)
    rw [hsh.start] at hlo
    rw [hsh.stop] at hhi
    exact hG.sbrk p n rfl hn pt v x hsh.table hlo hhi hx
  | create hp hteam hpl hsp =>
    refine hsp.sound hs hH (hlive hp) (live_of_active hm rfl rfl hp) (fun q hq => ?_) hpl h
    rw [leaderOf_of_enrolled hm rfl (hteam.phase_ne_unused hp hq), hteam.leaderOf_eq hq]
  | createBad hp hst =>
    exact h.lend (hst.lend hs hH (hlive hp) (live_of_active hm rfl rfl hp)
      (leaderOf_of_enrolled hm rfl (by simp [hp])))
  | exit he hp hthread hv => exact h.retire (hv.retire hs h.safe (hlive hp) (hG.exit _ he hthread))
  | @reapProcess _ q _ _ hc =>
    refine h.lose ⟨hs, fun f => ?_, ?_, fun f => ?_⟩
    · simp only [ledger, hc.owned]
      exact Nat.le_refl _
    · funext x f
      by_cases hx : x = q
      · subst hx
        simp only [ledger, hc.rooms, Function.update_self, Room.user_empty, Room.user_of_none hc.table]
      · simp only [ledger, hc.rooms, Function.update_of_ne hx]
    · simp only [ledger, hc.refcount]
      exact Int.le_refl _
  | reapGroup _ hd => exact h.dismiss (hd.dismiss hs)

/-! ## Runs -/

section

variable {b : Boot} {pt : PageTable} {tf : Ppn}

theorem Mem.freerange_single_le (f lo n : Nat) : ofList (single f) (Mem.freerange lo n) ≤ 1 := by
  refine nodup_iff.1 ?_ f
  have hlt : ∀ n (x : Nat), x ∈ Mem.freerange lo n → x < lo + n := by
    intro n
    induction n with
    | zero => simp [Mem.freerange]
    | succ n ih =>
      intro x hx
      rcases List.mem_cons.1 hx with hx | hx
      · omega
      · have := ih x hx
        omega
  induction n with
  | zero => simp [Mem.freerange]
  | succ n ih => exact List.nodup_cons.2 ⟨fun hmem => Nat.lt_irrefl _ (hlt n _ hmem), ih⟩

theorem Boot.pool_single_le (b : Boot) (f : Ppn) : ofList (single f) b.pool ≤ 1 := by
  have hsplit := ofList_append (single f) b.kernelPages b.pool
  have hall : b.kernelPages ++ b.pool = Mem.kinit b.kend := List.take_append_drop _ _
  have := Mem.freerange_single_le f b.kend (physTop - b.kend)
  rw [hall, Mem.kinit] at hsplit
  omega

theorem Begins.table (h : Begins b k p pt tf f) : (k.rooms p).table = some pt := by
  rw [h.rooms, Function.update_self]

/-- The first process maps at most its one page. -/
theorem Begins.user_le (h : Begins b k p pt tf f) (w : Ppn → Nat) : pt.user w ≤ w f := by
  have hone : 1 ≤ userPages := by decide
  have hpages : pagesBelow pgSize = 1 := by decide
  rw [PageTable.user, ← span_add (Nat.zero_le 1) hone,
    span_eq_zero fun v hv hv' => h.hollow v (hpages.trans_le hv) hv', span_succ (Nat.le_refl 0), span_self]
  rcases h.page with hnone | ⟨perm, hsome⟩
  · rw [hnone, weighEntry_none]
    omega
  · rw [hsome, weighEntry_some]
    dsimp only
    omega

theorem Boot.main_sound (h : b.main = .ok k) : k.ledger.Sound := by
  obtain ⟨p, pt, tf, f₀, hb⟩ := Boot.main_begins h
  have hother : ∀ q, q ≠ p → ∀ f, k.ledger.use q f = 0 := by
    intro q hq f
    simp only [Kernel.ledger, hb.rooms, Function.update_of_ne hq, Room.user_empty]
  have huser : ∀ f, k.ledger.use p f ≤ single f f₀ := by
    intro f
    simp only [Kernel.ledger, Room.user_of_table hb.table]
    exact hb.user_le _
  have hown : ∀ f, k.ledger.own f + single f f₀ ≤ 1 := fun f =>
    (hb.owned (single f)).trans_le (b.pool_single_le f)
  have hcount : ∀ f, k.ledger.count f = 0 := hb.refcount
  refine ⟨⟨fun f => ?_, fun q f _ => ?_, fun q q' f _ _ hq hq' => ?_⟩, fun f _ => ?_, fun q f _ hq => ?_⟩
  · have := hown f
    omega
  · have := hown f
    by_cases hqp : q = p
    · have := huser f
      rw [hqp]
      omega
    · rw [hother q hqp]
      omega
  · have hqp : ∀ x, 0 < k.ledger.use x f → x = p := by
      intro x hx
      by_contra hne
      rw [hother x hne] at hx
      exact Nat.lt_irrefl _ hx
    rw [hqp q hq, hqp q' hq']
  · rw [hcount]
    exact Int.natCast_nonneg _
  · rw [hcount]
    have : q ∈ k.ledger.users f := Ledger.mem_users.2 hq
    have := Finset.card_pos.2 ⟨q, this⟩
    omega

/-- In every guarded run the ledger is sound. -/
theorem sound_of_reaches (h : (system b).Reaches Kernel.FrameGuard k) : k.ledger.Sound := by
  have hinv := h.invariant (P := fun k => (k.entries.WellGrouped ∧ Housed k) ∧ k.ledger.Sound)
    (fun k hk => ⟨⟨Boot.main_wellGrouped hk, Boot.main_housed hk⟩, Boot.main_sound hk⟩) ?_
  · exact hinv.2
  · rintro k e k' ⟨⟨hE, hH⟩, hs⟩ hg ⟨hen, r, hstep⟩
    have hm := Kernel.step_move hE hen hstep
    have ht := Kernel.step_transfer hE hH hg.tidy hen hstep
    exact ⟨⟨hm.wellGrouped hE, ht.housed hm hH⟩, ht.sound hm hH hg hs⟩

/-- In every run that frees a user page only when no other live slot maps it,
frames are safe. -/
theorem frames_safe (h : (system b).Reaches Kernel.FrameGuard k) : k.FrameSafe :=
  Kernel.frameSafe_of_ledger (sound_of_reaches h).safe

end

/-- Steps that free no user page. -/
def Kernel.Gentle (k : Kernel) : Event → Prop
  | .call p (.sbrk n) => 0 < n.toInt ∧ (k.rooms p).size % pgSize = 0
  | .call p (.threadCreate _ _) => (k.rooms p).size % pgSize = 0
  | .call _ (.exec _ _ _) => False
  | e => e.exits = none

instance (k : Kernel) (e : Event) : Decidable (k.Gentle e) := by
  unfold Kernel.Gentle
  split <;> infer_instance

theorem Kernel.frameGuard_of_gentle (h : k.Gentle e) : k.FrameGuard e := by
  have hexits : ∀ p, e.exits = some p → False := by
    intro p hp
    cases e with
    | call q c =>
      cases c with
      | exit status => cases h
      | threadExit => cases h
      | _ => cases hp
    | die q => cases h
    | _ => cases hp
  refine ⟨?_, ?_, ?_, fun p hp => (hexits p hp).elim⟩
  · cases e with
    | call q c =>
      cases c with
      | sbrk n => exact ⟨fun _ => .inl h.2, fun hn => by have := h.1; omega⟩
      | threadCreate start arg => exact h
      | _ => trivial
    | _ => trivial
  · rintro p n rfl hn
    have := h.1
    omega
  · rintro p path img argv rfl
    exact h.elim

/-- Gentle steps, exits of threads, and exits of processes whose threads have all exited. -/
def Kernel.Careful (k : Kernel) (e : Event) : Prop :=
  match e.exits with
  | some p => (k.proc p).isThread = true ∨ ∀ q, q ≠ p → k.Live q → k.leaderOf q ≠ k.leaderOf p
  | none => k.Gentle e

instance (k : Kernel) (e : Event) : Decidable (k.Careful e) := by
  unfold Kernel.Careful
  split <;> infer_instance

/-- Where frames are safe, nobody else maps the pages of such a process. -/
theorem Kernel.frameGuard_of_careful (hsafe : k.FrameSafe) (hen : k.enabled e = true) (h : k.Careful e) :
    k.FrameGuard e := by
  cases hexits : e.exits with
  | none =>
    rw [Careful, hexits] at h
    exact frameGuard_of_gentle h
  | some p =>
    rw [Careful, hexits] at h
    have hrunning := exits_running hen hexits
    have hp : k.Live p := by simp [Live, hrunning]
    refine ⟨?_, ?_, ?_, fun q hq hthread f hf _ x hne hx hmaps => ?_⟩
    · cases e with
      | call q c =>
        cases c with
        | exit status => trivial
        | threadExit => trivial
        | _ => cases hexits
      | _ => trivial
    · rintro q n rfl
      cases hexits
    · rintro q path img argv rfl
      cases hexits
    · obtain rfl : p = q := Option.some.inj (hexits.symm.trans hq)
      rcases h with ht | hothers
      · rw [hthread] at ht
        cases ht
      · exact hsafe.apart x p hx hp (hothers x hne hx) f ⟨hmaps, hf⟩

/-- Careful runs are guarded: each exit finds the frames safe. -/
theorem reaches_frameGuard (h : (system b).Reaches Kernel.Careful k) : (system b).Reaches Kernel.FrameGuard k := by
  induction h with
  | init hinit => exact .init hinit
  | step _ hcareful hstep ih =>
    have hsafe := Kernel.frameSafe_of_ledger (sound_of_reaches ih).safe
    exact ih.step (Kernel.frameGuard_of_careful hsafe hstep.1 hcareful) hstep

/-- A process with a thread, and a child of it: the thread of the child exits, and
then the child does and gives its pages back. -/
theorem frames_safe_of_three : ∃ (k k' : Kernel) (f : Pte), (system .standard).Reaches Kernel.FrameGuard k' ∧ k'.FrameSafe ∧
    k.after (.call ⟨2, by decide⟩ (.exit 0)) = some k' ∧ k.pte ⟨2, by decide⟩ 0 = some f ∧ f.ppn ∈ k'.mem.freelist ∧
    k'.Live ⟨0, by decide⟩ ∧ k'.Live ⟨1, by decide⟩ := by
  have hrun : (Boot.standard.run Kernel.Careful
      [.schedule ⟨0, by decide⟩, .call ⟨0, by decide⟩ (.threadCreate 0 0),
        .call ⟨0, by decide⟩ (.sbrk 4096), .call ⟨0, by decide⟩ .fork, .schedule ⟨2, by decide⟩,
        .call ⟨2, by decide⟩ (.threadCreate 0 0), .schedule ⟨3, by decide⟩, .call ⟨3, by decide⟩ .threadExit]).any
      (fun k => decide (k.Careful (.call ⟨2, by decide⟩ (.exit 0))) &&
        (k.after (.call ⟨2, by decide⟩ (.exit 0))).any fun k' =>
          ((k.pte ⟨2, by decide⟩ 0).any fun f => decide (f.ppn ∈ k'.mem.freelist)) &&
            decide (k'.Live ⟨0, by decide⟩ ∧ k'.Live ⟨1, by decide⟩)) = true := by decide +kernel
  obtain ⟨k, hk, hc⟩ := exists_reaches_of_run hrun
  obtain ⟨hcareful, hany⟩ := Bool.and_eq_true_iff.1 hc
  obtain ⟨k', hafter, hany⟩ := (Option.any_eq_true _ _).1 hany
  obtain ⟨hany, hlive⟩ := Bool.and_eq_true_iff.1 hany
  obtain ⟨f, hf, hfree⟩ := (Option.any_eq_true _ _).1 hany
  have hk' := reaches_frameGuard (hk.step (of_decide_eq_true hcareful) (step_of_after hafter))
  exact ⟨k, k', f, hk', frames_safe hk', hafter, hf, of_decide_eq_true hfree, of_decide_eq_true hlive⟩

/-- A process with a thread gives a page back: it is freed once for each of
them. -/
theorem frame_freed_twice : ¬ ∀ (b : Boot) (k : Kernel), Reachable b k → k.FrameSafe := by
  intro h
  have hrun : (Boot.standard.run anyStep
      [.schedule ⟨0, by decide⟩, .call ⟨0, by decide⟩ (.threadCreate 0 0),
        .call ⟨0, by decide⟩ (.sbrk (-4096))]).any
      (fun k => k.mem.freelist.head? = k.mem.freelist.tail.head? ∧ k.mem.freelist ≠ []) = true := by
    decide +kernel
  obtain ⟨k, hk, hc⟩ := exists_reaches_of_run hrun
  obtain ⟨hhead, hne⟩ : k.mem.freelist.head? = k.mem.freelist.tail.head? ∧ k.mem.freelist ≠ [] := by
    simpa using hc
  have hnodup := (h _ k hk).nodup
  cases hl : k.mem.freelist with
  | nil => exact hne hl
  | cons a l =>
    rw [hl] at hhead hnodup
    have hmem : a ∈ l := List.mem_of_head? hhead.symm
    exact (List.nodup_cons.1 hnodup).1 hmem

end Xv6
