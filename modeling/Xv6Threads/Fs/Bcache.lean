-- SUMMARY: The buffer cache of bio.c with its LRU list, reference counts and pins, used by any number of processes.
import Xv6Threads.Base.Except
import Xv6Threads.Base.Links
import Xv6Threads.Base.Weight
import Xv6Threads.Fs.Reserve

/-!
# The buffer cache

`bread` finds the buffer of a block or recycles the least recently used one
that has no references; `brelse` moves a buffer without references to the front
of the list. `log_write` pins a buffer by one more reference until its
transaction is on the disk.

`bget` counts the new reference under `bcache.lock` and then waits for the lock
of the buffer, and `brelse` gives up that lock before it takes `bcache.lock`. At
these two points other processes run.
-/

namespace Xv6

/-- `NBUF`. -/
def nbuf : Nat := maxOpBlocks * 3

/-- A buffer of the array `bcache.buf`. -/
abbrev BufId := Fin nbuf

/-- `struct buf`, apart from the links. A reference is a process or the log, so
the count stays small. -/
structure Buf (ι : Type) where
  valid : Bool
  dev : UInt32
  blockno : BlockNo
  /-- who has the sleep lock -/
  lock : Option ι
  refcnt : Nat
  data : Block

/-- `bcache`. The node `none` of the list is `bcache.head`. -/
structure Bcache (ι : Type) where
  buf : BufId → Buf ι
  links : Links (Option BufId)

namespace Bcache

variable {ι : Type}

/-- `binit`, over zeroed memory. -/
def binit : Bcache ι where
  buf _ := ⟨false, 0, 0, none, 0, fun _ => 0⟩
  links := (List.finRange nbuf).foldl (fun L b => L.linkBehind none (some b)) ⟨fun _ => none, fun _ => none⟩

def set (c : Bcache ι) (b : BufId) (x : Buf ι) : Bcache ι := { c with buf := Function.update c.buf b x }

/-- `for (b = succ(head); b != &head; b = succ(b)) if (test(b)) ...`. -/
def find (c : Bcache ι) (succ : Option BufId → Option BufId) (test : Buf ι → Bool) :
    Except String (Option BufId) :=
  match Links.search succ none (fun o => o.elim false (fun b => test (c.buf b))) (nbuf + 1) (succ none) with
  | none => .error "the list has no end"
  | some o => .ok o.join

/-- `bget` up to the wait for the lock of the buffer. -/
def bget (c : Bcache ι) (dev : UInt32) (blockno : BlockNo) : Except String (BufId × Bcache ι) := do
  match ← c.find c.links.next (fun x => x.dev = dev && x.blockno = blockno) with
  | some b => .ok (b, c.set b { c.buf b with refcnt := (c.buf b).refcnt + 1 })
  | none =>
    match ← c.find c.links.prev (fun x => x.refcnt = 0) with
    | some b => .ok (b, c.set b { c.buf b with dev := dev, blockno := blockno, valid := false, refcnt := 1 })
    | none => .error "bget: no buffers"

/-- The end of `brelse`, after the lock of the buffer is free. -/
def unreference (c : Bcache ι) (b : BufId) : Bcache ι :=
  let refcnt := (c.buf b).refcnt - 1
  let c := c.set b { c.buf b with refcnt := refcnt }
  if refcnt = 0 then { c with links := (c.links.unlink (some b)).linkBehind none (some b) } else c

end Bcache

/-- A process inside `bread`, or inside `brelse`. -/
inductive BufCall where
  | bread (dev : UInt32) (blockno : BlockNo) (b : BufId)
  | brelse (b : BufId)

def BufCall.buf : BufCall → BufId
  | .bread _ _ b => b
  | .brelse b => b

/-- The cache, the disk behind it, the log in memory, and the calls in
progress. The disk has one number for a block, on whatever device. -/
structure Bio (ι : Type) where
  cache : Bcache ι
  disk : BlockNo → Block
  lh : LogHeader
  outstanding : Int
  committing : Bool
  calls : ι → Option BufCall

inductive BioEvent (ι : Type) where
  /-- `bget`, up to `acquiresleep` -/
  | bread (p : ι) (dev : UInt32) (blockno : BlockNo)
  /-- `acquiresleep` returns, and then `bread` -/
  | acquired (p : ι)
  /-- `p` stores into the data of a buffer -/
  | modify (p : ι) (b : BufId) (data : Block)
  | bwrite (p : ι) (b : BufId)
  | logWrite (p : ι) (b : BufId)
  | bunpin (b : BufId)
  /-- `brelse`, up to `releasesleep` -/
  | brelse (p : ι) (b : BufId)
  /-- the rest of `brelse` -/
  | released (p : ι)
  | beginOp
  | endOp
  /-- `commit` is through with `install_trans`: `log.lh.n = 0`, `log.committing = 0` -/
  | committed

namespace Bio

variable {ι : Type} [DecidableEq ι] (a : LogArea)

abbrev buf (s : Bio ι) (b : BufId) : Buf ι := s.cache.buf b

def setBuf (s : Bio ι) (b : BufId) (x : Buf ι) : Bio ι := { s with cache := s.cache.set b x }

def setCall (s : Bio ι) (p : ι) (o : Option BufCall) : Bio ι := { s with calls := Function.update s.calls p o }

/-- What an event does: nothing yet if it has to wait, a new state, or a panic. -/
def step (s : Bio ι) : BioEvent ι → Except String (Option (Bio ι))
  | .bread p dev blockno => do
    let (b, cache) ← s.cache.bget dev blockno
    .ok (some ({ s with cache := cache }.setCall p (some (.bread dev blockno b))))
  | .acquired p =>
    match s.calls p with
    | some (.bread _ _ b) =>
      if (s.buf b).lock = none then
        let data := if (s.buf b).valid then (s.buf b).data else s.disk (s.buf b).blockno
        .ok (some ((s.setBuf b { s.buf b with lock := some p, valid := true, data := data }).setCall p none))
      else .ok none
    | _ => .ok none
  | .modify _ b data => .ok (some (s.setBuf b { s.buf b with data := data }))
  | .bwrite p b =>
    if (s.buf b).lock ≠ some p then .error "bwrite"
    else .ok (some { s with disk := Function.update s.disk (s.buf b).blockno (s.buf b).data })
  | .logWrite _ b => do
    let lh ← a.logWrite s.outstanding s.lh (s.buf b).blockno
    if s.lh.Names (s.buf b).blockno then .ok (some { s with lh := lh })
    else .ok (some ({ s with lh := lh }.setBuf b { s.buf b with refcnt := (s.buf b).refcnt + 1 }))
  | .bunpin b => .ok (some (s.setBuf b { s.buf b with refcnt := (s.buf b).refcnt - 1 }))
  | .brelse p b =>
    if (s.buf b).lock ≠ some p then .error "brelse"
    else .ok (some ((s.setBuf b { s.buf b with lock := none }).setCall p (some (.brelse b))))
  | .released p =>
    match s.calls p with
    | some (.brelse b) => .ok (some ({ s with cache := s.cache.unreference b }.setCall p none))
    | _ => .ok none
  | .beginOp =>
    if s.committing then .ok none
    else if (logSize : Int) < rounds s.lh.n + (s.outstanding + 1) * maxOpBlocks then .ok none
    else .ok (some { s with outstanding := s.outstanding + 1 })
  | .endOp =>
    if s.committing then .error "log.committing"
    else .ok (some { s with
      outstanding := s.outstanding - 1
      committing := decide (s.outstanding - 1 = 0) })
  | .committed =>
    if s.committing then .ok (some { s with lh := { s.lh with n := 0 }, committing := false })
    else .ok none

end Bio

/-- The cache over a disk, from `binit` on. -/
def bioSystem (ι : Type) [DecidableEq ι] (a : LogArea) (disk : BlockNo → Block) : Lts (Bio ι) (BioEvent ι) where
  init s := ∃ block, s = ⟨.binit, disk, ⟨0, block⟩, 0, false, fun _ => none⟩
  step s e s' := s.step a e = .ok (some s')

/-! ## What the holders have done -/

/-- The data last stored for every block, and for every buffer: does the log
pin it, has it been modified since the last `bwrite` or `log_write`, has it
been modified since the last `bwrite`. -/
structure BioNotes where
  stored : BlockNo → Block
  pinned : BufId → Bool
  touched : BufId → Bool
  unsaved : BufId → Bool

namespace Bio

variable {ι : Type} (s : Bio ι)

/-- The notes after an event in state `s`. -/
def note (η : BioNotes) : BioEvent ι → BioNotes
  | .modify _ b data =>
    { η with
      stored := Function.update η.stored (s.buf b).blockno data
      touched := Function.update η.touched b true
      unsaved := Function.update η.unsaved b true }
  | .bwrite _ b =>
    { η with
      touched := Function.update η.touched b false
      unsaved := Function.update η.unsaved b false }
  | .logWrite _ b =>
    { η with
      touched := Function.update η.touched b false
      pinned := if s.lh.Names (s.buf b).blockno then η.pinned else Function.update η.pinned b true }
  | .bunpin b => { η with pinned := Function.update η.pinned b false }
  | _ => η

/-- The calls keep to the rules of bio.c and log.c: a process is inside one call
at a time, only the holder changes and logs the data, what was modified is
written or logged before `brelse`, and the log unpins a buffer while it
commits, after a `bwrite`, and ends the commit with no buffer pinned. -/
def Disciplined (η : BioNotes) : BioEvent ι → Prop
  | .bread p dev _ => s.calls p = none ∧ dev ≠ 0 ∧ ∃ b, (s.buf b).refcnt = 0
  | .modify p b _ => s.calls p = none ∧ (s.buf b).lock = some p
  | .bwrite p _ => s.calls p = none
  | .logWrite p b => s.calls p = none ∧ (s.buf b).lock = some p
  | .bunpin b => s.committing ∧ η.pinned b ∧ η.unsaved b = false
  | .brelse p b => s.calls p = none ∧ η.touched b = false
  | .committed => ∀ b, η.pinned b = false
  | .acquired _ | .released _ | .beginOp | .endOp => True

instance (η : BioNotes) [DecidableEq ι] : (e : BioEvent ι) → Decidable (s.Disciplined η e)
  | .bread .. => inferInstanceAs (Decidable (_ = none ∧ _ ≠ _ ∧ ∃ b, (s.buf b).refcnt = 0))
  | .modify .. | .logWrite .. => inferInstanceAs (Decidable (_ = none ∧ _ = some _))
  | .bwrite .. => inferInstanceAs (Decidable (_ = none))
  | .bunpin _ => inferInstanceAs (Decidable (_ ∧ _ ∧ _ = false))
  | .brelse .. => inferInstanceAs (Decidable (_ = none ∧ _ = false))
  | .committed => inferInstanceAs (Decidable (∀ b, η.pinned b = false))
  | .acquired _ | .released _ | .beginOp | .endOp => inferInstanceAs (Decidable True)

/-- All blocks are blocks of this device. -/
def OnDevice (d : UInt32) : BioEvent ι → Prop
  | .bread _ dev _ => dev = d
  | _ => True

instance (d : UInt32) : (e : BioEvent ι) → Decidable (OnDevice d e)
  | .bread .. => inferInstanceAs (Decidable (_ = d))
  | .acquired _ | .modify .. | .bwrite .. | .logWrite .. | .bunpin _ | .brelse .. | .released _
  | .beginOp | .endOp | .committed => inferInstanceAs (Decidable True)

end Bio

/-- Before the first event: nothing is pinned or modified. -/
def BioNotes.start (disk : BlockNo → Block) : BioNotes := ⟨disk, fun _ => false, fun _ => false, fun _ => false⟩

/-- One step of a run with its notes, computed. -/
def Bio.next {ι : Type} [DecidableEq ι] (a : LogArea) (s : Bio ι × BioNotes) (e : BioEvent ι) : Option (Bio ι × BioNotes) :=
  (s.1.step a e).toOption.join.map fun s' => (s', s.1.note s.2 e)

/-- The runs of the cache with their notes. -/
def bioHistory (ι : Type) [DecidableEq ι] (a : LogArea) (disk : BlockNo → Block) :
    Lts (Bio ι × BioNotes) (BioEvent ι) :=
  (bioSystem ι a disk).withHistory (.start disk) fun s e η => s.note η e

/-! ## Lookup -/

namespace Bcache

variable {ι : Type} {c c' : Bcache ι} {b : BufId} {dev : UInt32} {n : BlockNo} {test : Buf ι → Bool}

/-- The list of the cache holds every buffer. -/
def Listed (c : Bcache ι) : Prop := ∃ l, c.links.Ring none l ∧ ∀ b, some b ∈ l

/-- The result of a loop over the list. -/
def Found (c : Bcache ι) (test : Buf ι → Bool) : Option BufId → Prop
  | some b => test (c.buf b)
  | none => ∀ b, test (c.buf b) = false

theorem find_of_search {succ : Option BufId → Option BufId} {l : List (Option BufId)}
    (hall : ∀ b, some b ∈ l)
    (hsearch : ∀ p, Links.search succ none p (nbuf + 1) (succ none) = some (l.find? p)) :
    ∃ o, c.find succ test = .ok o ∧ c.Found test o := by
  simp only [find, hsearch]
  refine ⟨_, rfl, ?_⟩
  generalize hfind : l.find? _ = o
  match o with
  | none =>
    intro b
    have := List.find?_eq_none.1 hfind _ (hall b)
    simpa using this
  | some none =>
    have := List.find?_some hfind
    simp at this
  | some (some b) =>
    have := List.find?_some hfind
    exact this

theorem Listed.length_lt {l : List (Option BufId)} (h : c.links.Ring none l) : l.length < nbuf + 1 := by
  simpa using Circular.length_lt h

theorem Listed.find_next (h : c.Listed) (test : Buf ι → Bool) : ∃ o, c.find c.links.next test = .ok o ∧ c.Found test o := by
  obtain ⟨l, hring, hall⟩ := h
  exact find_of_search hall fun p => hring.search_next (Listed.length_lt hring)

theorem Listed.find_prev (h : c.Listed) (test : Buf ι → Bool) : ∃ o, c.find c.links.prev test = .ok o ∧ c.Found test o := by
  obtain ⟨l, hring, hall⟩ := h
  exact find_of_search (l := l.reverse) (by simpa using hall) fun p => hring.search_prev (Listed.length_lt hring)

/-- `bget` finds the block, or recycles a buffer without references. -/
theorem Listed.bget_cases (h : c.Listed) (hget : c.bget dev n = .ok (b, c')) :
    ((c.buf b).dev = dev ∧ (c.buf b).blockno = n ∧
      c' = c.set b { c.buf b with refcnt := (c.buf b).refcnt + 1 }) ∨
    ((∀ b', (c.buf b').dev = dev → (c.buf b').blockno ≠ n) ∧ (c.buf b).refcnt = 0 ∧
      c' = c.set b { c.buf b with dev := dev, blockno := n, valid := false, refcnt := 1 }) := by
  obtain ⟨o, hnext, hfound⟩ := h.find_next fun x => x.dev = dev && x.blockno = n
  rw [bget, hnext] at hget
  cases o with
  | some b₁ =>
    obtain ⟨rfl, rfl⟩ := Prod.mk.inj (Except.ok.inj hget)
    simp only [Found, Bool.and_eq_true, decide_eq_true_eq] at hfound
    exact .inl ⟨hfound.1, hfound.2, rfl⟩
  | none =>
    obtain ⟨o, hprev, hfree⟩ := h.find_prev fun x => x.refcnt = 0
    have hget : (c.find c.links.prev (fun x => x.refcnt = 0) >>= _) = _ := hget
    rw [hprev] at hget
    cases o with
    | none => cases hget
    | some b₁ =>
      obtain ⟨rfl, rfl⟩ := Prod.mk.inj (Except.ok.inj hget)
      refine .inr ⟨fun b' hdev hn => ?_, by simpa [Found] using hfree, rfl⟩
      have := hfound b'
      simp [hdev, hn] at this

/-- `bget` does not panic while a buffer has no references. -/
theorem Listed.bget_ok (h : c.Listed) (hfree : ∃ b, (c.buf b).refcnt = 0) : ∃ r, c.bget dev n = .ok r := by
  obtain ⟨o, hnext, -⟩ := h.find_next fun x => x.dev = dev && x.blockno = n
  rw [bget, hnext]
  cases o with
  | some b₁ => exact ⟨_, rfl⟩
  | none =>
    obtain ⟨o, hprev, hnone⟩ := h.find_prev fun x => x.refcnt = 0
    show ∃ r, (c.find c.links.prev (fun x => x.refcnt = 0) >>= _) = _
    rw [hprev]
    cases o with
    | some b₁ => exact ⟨_, rfl⟩
    | none =>
      obtain ⟨b, hb⟩ := hfree
      have := hnone b
      simp [hb] at this

theorem binit_listed : (binit : Bcache ι).Listed := by
  -- every round of the loop puts one more buffer behind the head
  have hloop : ∀ (bs : List BufId) (L : Links (Option BufId)) (l : List (Option BufId)),
      bs.Nodup → L.Ring none l → (∀ b ∈ bs, some b ∉ l) →
      ∃ l', (bs.foldl (fun L b => L.linkBehind none (some b)) L).Ring none l' ∧
        (∀ b ∈ bs, some b ∈ l') ∧ ∀ x ∈ l, x ∈ l' := by
    intro bs
    induction bs with
    | nil => exact fun L l _ hring _ => ⟨l, hring, by simp, fun x hx => hx⟩
    | cons b bs ih =>
      intro L l hnodup hring hnew
      rw [List.nodup_cons] at hnodup
      have hb : some b ∉ none :: l := by simpa using hnew b (by simp)
      obtain ⟨l', hring', hmem, hold⟩ := ih (L.linkBehind none (some b)) (some b :: l) hnodup.2
        (hring.linkBehind hb) fun b' hb' => by
          have hne : b' ≠ b := fun heq => hnodup.1 (heq ▸ hb')
          simpa [hne] using hnew b' (List.mem_cons_of_mem _ hb')
      refine ⟨l', hring', fun b' hb' => ?_, fun x hx => hold x (List.mem_cons_of_mem _ hx)⟩
      rcases List.mem_cons.1 hb' with rfl | hb'
      · exact hold _ (by simp)
      · exact hmem b' hb'
  obtain ⟨l, hring, hmem, -⟩ := hloop (List.finRange nbuf) ⟨fun _ => none, fun _ => none⟩ []
    (List.nodup_finRange _) (Links.Ring.empty rfl rfl) (by simp)
  exact ⟨l, hring, fun b => hmem b (List.mem_finRange b)⟩

theorem Listed.unreference (h : c.Listed) (b : BufId) : (c.unreference b).Listed := by
  obtain ⟨l, hring, hall⟩ := h
  simp only [Bcache.unreference]
  split
  · obtain ⟨l', hring', hmem⟩ := hring.moveFront (hall b)
    exact ⟨l', hring', fun b' => (hmem _).2 (hall b')⟩
  · exact ⟨l, hring, hall⟩

end Bcache

end Xv6
