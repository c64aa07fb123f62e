-- SUMMARY: No wakeup is lost between termination and reaping, in any interleaving of the lock-protected sections.
import Xv6Threads.System.Locks

/-!
# No lost wakeup

A process that sleeps in `wait` or `thread_join` has scanned the table with
`wait_lock` held and kept it until its own lock was taken, so a child that has
not been seen as a zombie has its `wakeup` still to come. `Heard` is the
invariant: an exited child that is done with `wait_lock` and a parent that has
made up its mind to sleep never go together, but for a child just handed to
init, whose `wakeup(initproc)` is on its way.
-/

namespace Xv6

namespace Machine

variable {m m' : Machine} {p q c P : Slot} {a : Await}

/-- `P` has made up its mind to sleep, and `c` is among the slots it has seen. -/
def Committed (m : Machine) (P : Slot) (a : Await) (c : Slot) : Prop :=
  match m.pc P with
  | .scan a' i _ => a' = a ∧ c.val < i
  | .doze a' | .unlocked a' => a' = a
  | .asleep a' => a' = a ∧ (m.k.proc P).state = .sleeping
  | _ => False

/-- `P` sleeps, or will as soon as it gives up its lock. -/
def Resting (m : Machine) (P : Slot) : Prop :=
  match m.pc P with
  | .unlocked _ => True
  | .asleep _ => (m.k.proc P).state = .sleeping
  | _ => False

/-- A `wakeup` of `P` for a child handed over by `reparent` has not got to `P` yet. -/
def Pending (m : Machine) (P : Slot) : Prop :=
  ∃ q status i j, m.pc q = .handed status i P j ∧ j ≤ P.val

/-- `c` has exited, is done with `wait_lock`, and `P` waits for it in call `a`. -/
structure Overdue (m : Machine) (c P : Slot) (a : Await) : Prop where
  zombie : (m.k.proc c).state = .zombie
  past : (m.pc c).isPast = true
  awaited : m.k.awaited P a c = true

/-- `P` sleeps in a `wait` or `thread_join` that is to return `c`, which has
exited and is past its `wakeup`. -/
def LostWakeup (m : Machine) (c P : Slot) : Prop :=
  ∃ a, m.Overdue c P a ∧ m.pc P = .asleep a ∧ (m.k.proc P).state = .sleeping

structure Heard (m : Machine) : Prop where
  alone : ∀ p q, (m.pc p).holdsWait = true → (m.pc q).holdsWait = true → p = q
  chan : ∀ p a, m.pc p = .asleep a → (m.k.proc p).state = .sleeping →
    (m.k.proc p).chan = some (.proc p)
  target : ∀ c t j, m.pc c = .waking t j → (m.k.proc c).state = .zombie → (m.k.proc c).parent = some t
  woken : ∀ c t j, m.pc c = .waking t j → t.val < j → ¬ m.Resting t
  heard : ∀ c P a, m.Overdue c P a → m.Committed P a c → m.Pending P

/-! ## One step -/

/-- What a step by `o` leaves of the others. -/
structure Spares (m : Machine) (o : Option Slot) (m' : Machine) : Prop where
  pc : ∀ q, some q ≠ o → m'.pc q = m.pc q ∨ m'.pc q = .user ∧ (m.pc q).holdsOwn = false
  sleeping : ∀ q, some q ≠ o → (m'.k.proc q).state = .sleeping →
    (m.k.proc q).state = .sleeping ∧ (m'.k.proc q).chan = (m.k.proc q).chan
  still : ∀ q, some q ≠ o → (m.k.proc q).Still (m'.k.proc q)

/-- What a step by `p` owes for its own slot. -/
structure Owes (m : Machine) (p : Slot) (m' : Machine) : Prop where
  wait : (m'.pc p).holdsWait = true → (m.pc p).holdsWait = true ∨ m.waitFree = true
  chan : ∀ a, m'.pc p = .asleep a → (m'.k.proc p).state = .sleeping →
    (m'.k.proc p).chan = some (.proc p)
  target : ∀ t j, m'.pc p = .waking t j → (m'.k.proc p).state = .zombie →
    (m'.k.proc p).parent = some t
  woken : ∀ t j, m'.pc p = .waking t j → t.val < j → ¬ m'.Resting t
  resting : m'.Resting p → m.Resting p ∨ (m.pc p).holdsWait = true
  overdue : ∀ P a, m'.Overdue p P a → m'.Committed P a p → m'.Pending P
  committed : ∀ c a, m.Overdue c p a → m'.Committed p a c → m.Committed p a c
  pending : ∀ status i P j, m.pc p = .handed status i P j → j ≤ P.val →
    m'.Pending P ∨ ∀ a c, ¬ m'.Committed P a c

theorem awaited_parent {k : Kernel} (h : k.awaited P a c = true) : (k.proc c).parent = some P := by
  cases a with
  | wait addr => simpa [Kernel.awaited] using h
  | join tid =>
    have hthread : (k.proc c).parent = some P ∧ (k.proc c).tid = tid ∧ (k.proc c).isThread = true := by
      simpa [Kernel.awaited, Kernel.isChildThread] using h
    exact hthread.1

theorem awaited_congr {k k' : Kernel} (hparent : (k'.proc c).parent = (k.proc c).parent)
    (htid : (k'.proc c).tid = (k.proc c).tid) (hthread : (k'.proc c).isThread = (k.proc c).isThread)
    (h : k'.awaited P a c = true) : k.awaited P a c = true := by
  cases a with
  | wait addr => simpa only [Kernel.awaited, hparent] using h
  | join tid => simpa only [Kernel.awaited, Kernel.isChildThread, hparent, htid, hthread] using h

theorem waitFree_iff : m.waitFree = true ↔ ∀ p, (m.pc p).holdsWait = false := by
  simp [waitFree]

namespace Spares

variable {o : Option Slot} (h : m.Spares o m') (hq : some q ≠ o)
include h hq

theorem pc_eq {pc : Pc} (hpc : m'.pc q = pc) (hne : pc ≠ .user) : m.pc q = pc := by
  rcases h.pc q hq with heq | ⟨heq, -⟩
  · exact heq.symm.trans hpc
  · exact absurd (hpc.symm.trans heq) hne

theorem holdsWait (hw : (m'.pc q).holdsWait = true) : (m.pc q).holdsWait = true := by
  rcases h.pc q hq with heq | ⟨heq, -⟩
  · rwa [heq] at hw
  · rw [heq] at hw
    cases hw

theorem resting (hr : m'.Resting q) : m.Resting q := by
  unfold Resting at hr ⊢
  rcases h.pc q hq with heq | ⟨heq, -⟩
  · rw [heq] at hr
    split at hr
    · trivial
    · exact (h.sleeping q hq hr).1
    · exact hr
  · rw [heq] at hr
    exact hr.elim

theorem committed (hc : m'.Committed q a c) : m.Committed q a c := by
  unfold Committed at hc ⊢
  rcases h.pc q hq with heq | ⟨heq, -⟩
  · rw [heq] at hc
    split at hc
    · exact hc
    · exact hc
    · exact hc
    · exact ⟨hc.1, (h.sleeping q hq hc.2).1⟩
    · exact hc
  · rw [heq] at hc
    exact hc.elim

theorem overdue (ho : m'.Overdue q P a) : m.Overdue q P a := by
  obtain ⟨hz, hparent, htid, hthread⟩ := h.still q hq ho.zombie
  refine ⟨hz, ?_, ?_⟩
  · rcases h.pc q hq with heq | ⟨heq, -⟩
    · exact heq ▸ ho.past
    · have hpast := ho.past
      rw [heq] at hpast
      cases hpast
  · exact awaited_congr hparent htid hthread ho.awaited

end Spares

/-- A step that leaves the others alone and pays for its own slot keeps the
invariant. -/
theorem Heard.keep {o : Option Slot} (h : m.Heard) (hs : m.Spares o m')
    (ho : ∀ p, o = some p → m.Owes p m') : m'.Heard where
  alone p q hp hq := by
    -- of two holders at most one is new, and then nobody held the lock before
    by_cases hpo : some p = o
    · by_cases hqo : some q = o
      · exact Option.some.inj (hpo.trans hqo.symm)
      · rcases (ho p hpo.symm).wait hp with hw | hfree
        · exact h.alone p q hw (hs.holdsWait hqo hq)
        · have hq := hs.holdsWait hqo hq
          rw [waitFree_iff.1 hfree q] at hq
          cases hq
    · by_cases hqo : some q = o
      · rcases (ho q hqo.symm).wait hq with hw | hfree
        · exact h.alone p q (hs.holdsWait hpo hp) hw
        · have hp := hs.holdsWait hpo hp
          rw [waitFree_iff.1 hfree p] at hp
          cases hp
      · exact h.alone p q (hs.holdsWait hpo hp) (hs.holdsWait hqo hq)
  chan p a hpc hsl := by
    by_cases hpo : some p = o
    · exact (ho p hpo.symm).chan a hpc hsl
    · obtain ⟨hsl, hchan⟩ := hs.sleeping p hpo hsl
      rw [hchan]
      exact h.chan p a (hs.pc_eq hpo hpc nofun) hsl
  target c t j hpc hz := by
    by_cases hco : some c = o
    · exact (ho c hco.symm).target t j hpc hz
    · obtain ⟨hz, hparent, -⟩ := hs.still c hco hz
      rw [hparent]
      exact h.target c t j (hs.pc_eq hco hpc nofun) hz
  woken c t j hpc ht hr := by
    by_cases hco : some c = o
    · exact (ho c hco.symm).woken t j hpc ht hr
    · have hpc := hs.pc_eq hco hpc nofun
      by_cases hto : some t = o
      · rcases (ho t hto.symm).resting hr with hr | hw
        · exact h.woken c t j hpc ht hr
        · have hct : c = t := h.alone c t (by simp [hpc, Pc.holdsWait]) hw
          exact hco (hct ▸ hto)
      · exact h.woken c t j hpc ht (hs.resting hto hr)
  heard c P a hod hc := by
    by_cases hco : some c = o
    · exact (ho c hco.symm).overdue P a (by simpa using hod) hc
    have hod₀ := hs.overdue hco hod
    have hc₀ : m.Committed P a c := by
      by_cases hPo : some P = o
      · exact (ho P hPo.symm).committed c a hod₀ hc
      · exact hs.committed hPo hc
    obtain ⟨q, status, i, j, hq, hj⟩ := h.heard c P a hod₀ hc₀
    by_cases hqo : some q = o
    · exact ((ho q hqo.symm).pending status i P j hq hj).resolve_right fun hno => hno a c hc
    · rcases hs.pc q hqo with heq | ⟨-, hown⟩
      · exact ⟨q, status, i, j, heq.trans hq, hj⟩
      · simp [hq, Pc.holdsOwn] at hown

/-! ## The kinds of steps -/

variable {k : Kernel} {pc : Pc}

theorem spares_goto (hcalm : ∀ q, q ≠ p → (m.k.proc q).Calm (k.proc q))
    (hstill : ∀ q, q ≠ p → (m.k.proc q).Still (k.proc q)) : m.Spares (some p) (m.goto p pc k) where
  pc q hq := .inl (Function.update_of_ne (fun heq => hq (congrArg some heq)) _ _)
  sleeping q hq hsl := by
    obtain ⟨hsl, -, hchan⟩ := (hcalm q fun heq => hq (congrArg some heq)).asleep hsl
    exact ⟨hsl, hchan⟩
  still q hq := hstill q fun heq => hq (congrArg some heq)

theorem spares_goto_of_eq (h : ∀ q, q ≠ p → k.proc q = m.k.proc q) : m.Spares (some p) (m.goto p pc k) :=
  spares_goto (fun q hq => h q hq ▸ .refl _) (fun q hq => h q hq ▸ .refl _)

@[simp] theorem goto_pc_self : (m.goto p pc k).pc p = pc := Function.update_self _ _ _

@[simp] theorem goto_k : (m.goto p pc k).k = k := rfl

/-- A step to a place where nothing is asked. -/
theorem Owes.plain (hpc : (m'.pc p).isPlain = true) (hnot : (m.pc p).inReparent = false ∨
    ∃ status i, m.pc p = .reparent status i) : m.Owes p m' where
  wait hw := by cases h : m'.pc p <;> simp [h, Pc.isPlain, Pc.holdsWait] at hpc hw
  chan a ha := by simp [ha, Pc.isPlain] at hpc
  target t j ht := by simp [ht, Pc.isPlain] at hpc
  woken t j ht := by simp [ht, Pc.isPlain] at hpc
  resting hr := by cases h : m'.pc p <;> simp [h, Pc.isPlain, Resting] at hpc hr
  overdue P a ho := by
    have hpast := ho.past
    cases h : m'.pc p <;> simp [h, Pc.isPlain, Pc.isPast] at hpc hpast
  committed c a _ hc := by cases h : m'.pc p <;> simp [h, Pc.isPlain, Committed] at hpc hc
  pending status i P j hp := by
    rcases hnot with hnot | ⟨status', i', hnot⟩
    · simp [hp, Pc.inReparent] at hnot
    · rw [hp] at hnot
      cases hnot

/-- `p` goes on in a scan, or from it to `sleep`. -/
theorem Owes.scan (hw : (m.pc p).holdsWait = true ∨ m.waitFree = true)
    (hpc : (∃ a i kids, pc = .scan a i kids) ∨ ∃ a, pc = .doze a)
    (hnot : (m.pc p).inReparent = false)
    (hc : ∀ c a, m.Overdue c p a → (m.goto p pc k).Committed p a c → m.Committed p a c) :
    m.Owes p (m.goto p pc k) where
  wait _ := hw
  chan a ha := by rcases hpc with ⟨a, i, kids, rfl⟩ | ⟨a, rfl⟩ <;> simp at ha
  target t j ht := by rcases hpc with ⟨a, i, kids, rfl⟩ | ⟨a, rfl⟩ <;> simp at ht
  woken t j ht := by rcases hpc with ⟨a, i, kids, rfl⟩ | ⟨a, rfl⟩ <;> simp at ht
  resting hr := by rcases hpc with ⟨a, i, kids, rfl⟩ | ⟨a, rfl⟩ <;> simp [Resting] at hr
  overdue P a ho := by
    have hpast := ho.past
    rcases hpc with ⟨a, i, kids, rfl⟩ | ⟨a, rfl⟩ <;> simp [Pc.isPast] at hpast
  committed := hc
  pending status i P j hp := by simp [hp, Pc.inReparent] at hnot

/-- Inside `sleep`: `p` had made up its mind before. -/
theorem Owes.rest (hpc : (pc = .unlocked a ∧ m.pc p = .doze a) ∨ (pc = .asleep a ∧ m.pc p = .unlocked a))
    (hchan : pc = .asleep a → (k.proc p).chan = some (.proc p)) : m.Owes p (m.goto p pc k) where
  wait hw := by rcases hpc with ⟨rfl, -⟩ | ⟨rfl, -⟩ <;> simp [Pc.holdsWait] at hw
  chan a' ha _ := by
    rcases hpc with ⟨rfl, -⟩ | ⟨rfl, -⟩
    · simp at ha
    · exact hchan rfl
  target t j ht := by rcases hpc with ⟨rfl, -⟩ | ⟨rfl, -⟩ <;> simp at ht
  woken t j ht := by rcases hpc with ⟨rfl, -⟩ | ⟨rfl, -⟩ <;> simp at ht
  resting _ := by
    rcases hpc with ⟨-, hm⟩ | ⟨-, hm⟩
    · exact .inr (by simp [hm, Pc.holdsWait])
    · exact .inl (by simp [Resting, hm])
  overdue P a' ho := by
    have hpast := ho.past
    rcases hpc with ⟨rfl, -⟩ | ⟨rfl, -⟩ <;> simp [Pc.isPast] at hpast
  committed c a' _ hc := by
    rcases hpc with ⟨rfl, hm⟩ | ⟨rfl, hm⟩
    · simpa [Committed, hm] using hc
    · simp only [Committed, goto_pc_self] at hc
      simpa [Committed, hm] using hc.1
  pending status i P j hp := by rcases hpc with ⟨-, hm⟩ | ⟨-, hm⟩ <;> simp [hm] at hp

/-- `p` goes on in `reparent`. -/
theorem Owes.reparent {status : Int} {i : Nat} (hw : (m.pc p).holdsWait = true ∨ m.waitFree = true)
    (hdone : ∀ status i P j, m.pc p = .handed status i P j → P.val < j) :
    m.Owes p (m.goto p (.reparent status i) k) where
  wait _ := hw
  chan a ha := by simp at ha
  target t j ht := by simp at ht
  woken t j ht := by simp at ht
  resting hr := by simp [Resting] at hr
  overdue P a ho := by simpa [Pc.isPast] using ho.past
  committed c a _ hc := by simp [Committed] at hc
  pending status i P j hp hj := absurd (hdone status i P j hp) (Nat.not_lt.2 hj)

theorem Committed.cases (h : m.Committed P a c) : (m.pc P).holdsWait = true ∨ m.Resting P := by
  unfold Committed at h
  split at h
  · rename_i hpc
    exact .inl (by simp [hpc, Pc.holdsWait])
  · rename_i hpc
    exact .inl (by simp [hpc, Pc.holdsWait])
  · rename_i hpc
    exact .inr (by simp [Resting, hpc])
  · rename_i hpc
    exact .inr (by simpa [Resting, hpc] using h.2)
  · exact h.elim

/-! ## Waking -/

theorem wakeSlot_proc_ne {chan : Chan} (h : q ≠ c) : (k.wakeSlot c chan).proc q = k.proc q :=
  Kernel.modify_proc_ne h

theorem wakeSlot_woken (k : Kernel) (c : Slot) (chan : Chan) (q : Slot) :
    (k.proc q).Woken ((k.wakeSlot c chan).proc q) := by
  by_cases hq : q = c
  · subst hq
    unfold Kernel.wakeSlot
    rw [Kernel.modify_proc_same]
    split
    · rename_i hs
      exact .inr ⟨hs.1, rfl⟩
    · exact .inl rfl
  · exact .inl (wakeSlot_proc_ne hq)

theorem still_of_woken {pr pr' : Proc} (h : pr.Woken pr') : pr.Still pr' := by
  rcases h with rfl | ⟨-, rfl⟩
  · exact .refl _
  · exact .of_ne nofun

theorem spares_wake {chan : Chan} : m.Spares (some p) (m.goto p pc (m.k.wakeSlot c chan)) :=
  spares_goto (fun q _ => .of_woken (wakeSlot_woken _ _ _ q)) (fun q _ => still_of_woken (wakeSlot_woken _ _ _ q))

/-- Whoever sleeps in `wait` is woken when the loop gets to its slot: its lock
is free, so it is not on the way to sleep. -/
theorem Heard.not_resting (h : m.Heard) (hq : q ≠ p) (hfree : m.locked q = false) :
    ¬ (m.goto p pc (m.k.wakeSlot q (.proc q))).Resting q := by
  have hpc : (m.goto p pc (m.k.wakeSlot q (.proc q))).pc q = m.pc q := Function.update_of_ne hq _ _
  unfold Resting
  rw [hpc]
  cases hmq : m.pc q with
  | unlocked a => simp [locked, hmq, Pc.holdsOwn] at hfree
  | asleep a =>
    intro hs
    have hs₀ : (m.k.proc q).state = .sleeping := by
      rcases wakeSlot_woken m.k q (.proc q) q with heq | ⟨hs₀, -⟩
      · rw [goto_k, heq] at hs
        exact hs
      · exact hs₀
    simp [Kernel.wakeSlot, hs₀, h.chan q a hmq hs₀] at hs
  | _ => exact id

/-- The loop of `wakeup`: it ends, or visits one slot. -/
theorem Heard.wakeAt {t : Slot} {j : Nat} {next done : Pc} (h : m.Heard)
    (heq : m.wakeAt p t j next done = some m') :
    (nproc ≤ j ∧ m' = m.goto p done m.k) ∨
    ∃ k, m' = m.goto p next k ∧ k.proc p = m.k.proc p ∧ m.Spares (some p) m' ∧
      (t.val = j → t ≠ p → ¬ m'.Resting t) := by
  unfold Machine.wakeAt at heq
  split at heq
  · rename_i hj
    refine .inr ?_
    dsimp only at heq
    split at heq
    · rename_i hqp
      obtain rfl := Option.some.inj heq
      refine ⟨m.k, rfl, rfl, spares_goto_of_eq fun _ _ => rfl, fun ht htp => ?_⟩
      exact absurd (Fin.ext ht : t = ⟨j, hj⟩) fun htj => htp (htj.trans hqp)
    · rename_i hqp
      split at heq
      · cases heq
      · rename_i hfree
        obtain rfl := Option.some.inj heq
        refine ⟨_, rfl, wakeSlot_proc_ne (Ne.symm hqp), spares_wake, fun ht htp => ?_⟩
        obtain rfl : t = ⟨j, hj⟩ := Fin.ext ht
        exact h.not_resting htp (by simpa using hfree)
  · rename_i hj
    exact .inl ⟨Nat.not_lt.1 hj, (Option.some.inj heq).symm⟩

/-- Another process is not committed to sleep while `p` holds `wait_lock`,
unless it rests. -/
theorem Heard.resting_of_committed (h : m.Heard) (hw : (m.pc p).holdsWait = true) (hP : P ≠ p)
    (hs : m.Spares (some p) m') (hc : m'.Committed P a c) : m'.Resting P := by
  refine hc.cases.resolve_left fun hw' => ?_
  exact hP (h.alone P p (hs.holdsWait (by simpa using hP) hw') hw)

/-- `wakeup(initproc)` in `reparent`, at the next slot. -/
theorem Owes.handed {status : Int} {i j : Nat} {t : Slot} (h : m.Heard) (hpc : m.pc p = .handed status i t j)
    (hm' : m' = m.goto p (.handed status i t (j + 1)) k) (hs : m.Spares (some p) m')
    (hwoken : t.val = j → t ≠ p → ¬ m'.Resting t) : m.Owes p m' := by
  have hself : m'.pc p = .handed status i t (j + 1) := by rw [hm', goto_pc_self]
  have hw : (m.pc p).holdsWait = true := by simp [hpc, Pc.holdsWait]
  refine ⟨fun _ => .inl hw, fun a ha => ?_, fun t j ht => ?_, fun t j ht => ?_, fun hr => ?_, fun P a ho => ?_,
    fun c a _ hc => ?_, fun status' i' P j' hp hj => ?_⟩
  · simp [hself] at ha
  · simp [hself] at ht
  · simp [hself] at ht
  · simp [Resting, hself] at hr
  · simpa [hself, Pc.isPast] using ho.past
  · simp [Committed, hself] at hc
  · rw [hpc] at hp
    cases hp
    -- either `P` is still to come, or it has just been woken
    by_cases hPj : t.val = j
    · refine .inr fun a c hc => ?_
      by_cases hPp : t = p
      · subst hPp
        simp [Committed, hself] at hc
      · exact hwoken hPj hPp (h.resting_of_committed hw hPp hs hc)
    · exact .inl ⟨p, status, i, j + 1, hself, by omega⟩

/-- `wakeup(p->parent)`, at the next slot. -/
theorem Owes.waking {j : Nat} {t : Slot} (h : m.Heard) (hpc : m.pc p = .waking t j)
    (hm' : m' = m.goto p (.waking t (j + 1)) k) (hk : k.proc p = m.k.proc p) (hs : m.Spares (some p) m')
    (hwoken : t.val = j → t ≠ p → ¬ m'.Resting t) : m.Owes p m' := by
  have hself : m'.pc p = .waking t (j + 1) := by rw [hm', goto_pc_self]
  have hkp : m'.k.proc p = m.k.proc p := by rw [hm', goto_k, hk]
  refine ⟨fun _ => .inl (by simp [hpc, Pc.holdsWait]), fun a ha => ?_, fun t' j' ht hz => ?_,
    fun t' j' ht hj hr => ?_, fun hr => ?_, fun P a ho => ?_, fun c a _ hc => ?_, fun status i P j' hp => ?_⟩
  · simp [hself] at ha
  · rw [hself] at ht
    cases ht
    rw [hkp] at hz ⊢
    exact h.target p t j hpc hz
  · rw [hself] at ht
    cases ht
    by_cases htp : t = p
    · subst htp
      simp [Resting, hself] at hr
    · by_cases htj : t.val = j
      · exact hwoken htj htp hr
      · exact h.woken p t j hpc (by omega) (hs.resting (by simpa using htp) hr)
  · simp [Resting, hself] at hr
  · simpa [hself, Pc.isPast] using ho.past
  · simp [Committed, hself] at hc
  · rw [hpc] at hp
    cases hp

/-- The first section of `wakeup(p->parent)`. -/
theorem Owes.tell {t : Slot} (hpc : m.pc p = .zombie) (hfree : m.waitFree = true)
    (ht : (m.k.proc p).parent = some t) : m.Owes p (m.goto p (.waking t 0) m.k) where
  wait _ := .inr hfree
  chan a ha := by simp at ha
  target t' j hj _ := by
    obtain ⟨rfl, -⟩ : t = t' ∧ 0 = j := by simpa using hj
    exact ht
  woken t' j hj := by
    obtain ⟨-, rfl⟩ : t = t' ∧ 0 = j := by simpa using hj
    omega
  resting hr := by simp [Resting] at hr
  overdue P a ho := by simpa [Pc.isPast] using ho.past
  committed c a _ hc := by simp [Committed] at hc
  pending status i P j hp := by simp [hpc] at hp

/-- `p` is done with `wait_lock`, or has been for some time. -/
theorem Owes.past (hpc : pc.isPast = true) (hnot : (m.pc p).inReparent = false)
    (ho : ∀ P a, P ≠ p → (m.goto p pc m.k).Overdue p P a → (m.goto p pc m.k).Committed P a p →
      (m.goto p pc m.k).Pending P) : m.Owes p (m.goto p pc m.k) where
  wait hw := by cases pc <;> simp [Pc.isPast, Pc.holdsWait] at hpc hw
  chan a ha := by cases pc <;> simp [Pc.isPast] at hpc ha
  target t j ht := by cases pc <;> simp [Pc.isPast] at hpc ht
  woken t j ht := by cases pc <;> simp [Pc.isPast] at hpc ht
  resting hr := by cases pc <;> simp [Pc.isPast, Resting] at hpc hr
  overdue P a hod hc := by
    refine ho P a (fun hP => ?_) hod hc
    subst hP
    cases pc <;> simp [Pc.isPast, Committed] at hpc hc
  committed c a _ hc := by cases pc <;> simp [Pc.isPast, Committed] at hpc hc
  pending status i P j hp := by simp [hp, Pc.inReparent] at hnot

/-! ## The sections of a process -/

/-- A child is handed to init. If init sleeps and the child is a zombie, the
`wakeup` that follows is pending. -/
theorem Heard.hand {status : Int} {i : Nat} {t : Slot} (h : m.Heard) (hpc : m.pc p = .reparent status i)
    (hk : k = m.k.modify c fun pr => { pr with parent := some t }) :
    (m.goto p (.handed status i t 0) k).Heard := by
  have hw : (m.pc p).holdsWait = true := by simp [hpc, Pc.holdsWait]
  have hpcs : ∀ q, q ≠ p → (m.goto p (.handed status i t 0) k).pc q = m.pc q :=
    fun q hq => Function.update_of_ne hq _ _
  have hstate : ∀ q, (k.proc q).state = (m.k.proc q).state ∧ (k.proc q).chan = (m.k.proc q).chan := by
    intro q
    rw [hk, Kernel.modify_proc]
    split <;> exact ⟨rfl, rfl⟩
  -- nobody else has `wait_lock`
  have hsole : ∀ q, ((m.goto p (.handed status i t 0) k).pc q).holdsWait = true → q = p := by
    intro q hq
    by_contra hne
    rw [hpcs q hne] at hq
    exact hne (h.alone q p hq hw)
  refine ⟨fun p' q' hp hq => (hsole p' hp).trans (hsole q' hq).symm, fun q a hq hs => ?_,
    fun c' t' j hc' => ?_, fun c' t' j hc' => ?_, fun c' P a hod hc => ?_⟩
  · have hne : q ≠ p := by rintro rfl; simp at hq
    rw [hpcs q hne] at hq
    rw [goto_k, (hstate q).1] at hs
    rw [goto_k, (hstate q).2]
    exact h.chan q a hq hs
  · obtain rfl := hsole c' (by simp [hc', Pc.holdsWait])
    simp at hc'
  · obtain rfl := hsole c' (by simp [hc', Pc.holdsWait])
    simp at hc'
  · have hP : P ≠ p := by
      rintro rfl
      simp [Committed] at hc
    have hc'p : c' ≠ p := by
      rintro rfl
      simpa [Pc.isPast] using hod.past
    by_cases hcc : c' = c
    · -- the child itself: its parent is now `t`
      subst hcc
      have hparent : (k.proc c').parent = some t := by rw [hk, Kernel.modify_proc_same]
      obtain rfl : t = P := Option.some.inj (hparent.symm.trans (awaited_parent hod.awaited))
      exact ⟨p, status, i, 0, by simp, Nat.zero_le _⟩
    · have hproc : k.proc c' = m.k.proc c' := by rw [hk, Kernel.modify_proc_ne hcc]
      have hod₀ : m.Overdue c' P a := by
        refine ⟨hproc ▸ hod.zombie, hpcs c' hc'p ▸ hod.past, ?_⟩
        exact awaited_congr (congrArg Proc.parent hproc) (congrArg Proc.tid hproc)
          (congrArg Proc.isThread hproc) hod.awaited
      have hc₀ : m.Committed P a c' := by
        simpa only [Committed, hpcs P hP, goto_k, (hstate P).1] using hc
      obtain ⟨q, status', i', j, hq, -⟩ := h.heard c' P a hod₀ hc₀
      obtain rfl : q = p := h.alone q p (by simp [hq, Pc.holdsWait]) hw
      rw [hpc] at hq
      cases hq

theorem reap_calm (h : m.k.reap p c a = .ok k) : m.k.Calm k ∧ m.k.Still k := by
  cases a with
  | wait addr =>
    obtain ⟨⟨copied, k₁⟩, hcopy, h⟩ := Except.bind_ok_iff.1 h
    obtain ⟨mem, rfl, -⟩ := Kernel.copyStatus_ok hcopy
    dsimp only at h
    split at h
    · cases h
      exact ⟨Kernel.calm_setMem _ _, Kernel.still_setMem _ _⟩
    · exact ⟨(Kernel.calm_setMem _ mem).trans (Kernel.freeproc_calm h),
        (Kernel.still_setMem _ mem).trans (Kernel.freeproc_still h)⟩
  | join tid => exact ⟨Kernel.freeproc_calm h, Kernel.freeproc_still h⟩

/-- The scan: the slot it passes is no zombie to be reaped. -/
theorem Heard.scanAt {i : Nat} {kids : Bool} (h : m.Heard) (hpc : m.pc p = .scan a i kids)
    (heq : m.scanAt p a i kids = .ok (some m')) : m'.Heard := by
  have hw : (m.pc p).holdsWait = true := by simp [hpc, Pc.holdsWait]
  have hin : (m.pc p).inReparent = false := by simp [hpc, Pc.inReparent]
  have hsame : ∀ pc, m.Spares (some p) (m.goto p pc m.k) := fun pc => spares_goto_of_eq fun _ _ => rfl
  have hquit : (m.goto p .user m.k).Heard :=
    h.keep (hsame _) fun p' hp => by cases hp; exact .plain (by simp [Pc.isPlain]) (.inl hin)
  -- passing slot `i`, which is not both awaited and a zombie
  have hpass : ∀ kids', (∀ c a', c.val = i → a' = a → ¬ m.Overdue c p a') →
      (m.goto p (.scan a (i + 1) kids') m.k).Heard := by
    intro kids' hnot
    refine h.keep (hsame _) fun p' hp => ?_
    cases hp
    refine .scan (.inl hw) (.inl ⟨_, _, _, rfl⟩) hin fun c a' hod hc => ?_
    obtain ⟨rfl, hlt⟩ : a = a' ∧ c.val < i + 1 := by simpa [Committed] using hc
    have hne : c.val ≠ i := fun hci => hnot c a hci rfl hod
    exact (by simpa [Committed, hpc] using (by omega : c.val < i))
  unfold Machine.scanAt at heq
  split at heq
  · rename_i hi
    dsimp only at heq
    split at heq
    · split at heq
      · cases heq
      split at heq
      · obtain ⟨k, hreap, heq⟩ := Except.bind_ok_iff.1 heq
        obtain rfl := Option.some.inj (Except.ok.inj heq)
        obtain ⟨hcalm, hstill⟩ := reap_calm hreap
        exact h.keep (spares_goto (fun q _ => hcalm.slot q) fun q _ => hstill q) fun p' hp => by
          cases hp; exact .plain (by simp [Pc.isPlain]) (.inl hin)
      · rename_i hz
        obtain rfl := Option.some.inj (Except.ok.inj heq)
        refine hpass true fun c a' hci _ hod => hz ?_
        obtain rfl : c = ⟨i, hi⟩ := Fin.ext hci
        exact hod.zombie
    · rename_i haw
      obtain rfl := Option.some.inj (Except.ok.inj heq)
      refine hpass kids fun c a' hci ha hod => haw ?_
      obtain rfl : c = ⟨i, hi⟩ := Fin.ext hci
      exact ha ▸ hod.awaited
  · rename_i hi
    split at heq
    · obtain rfl := Option.some.inj (Except.ok.inj heq)
      exact hquit
    · obtain rfl := Option.some.inj (Except.ok.inj heq)
      refine h.keep (hsame _) fun p' hp => ?_
      cases hp
      refine .scan (.inl hw) (.inr ⟨_, rfl⟩) hin fun c a' hod hc => ?_
      obtain rfl : a = a' := by simpa [Committed] using hc
      exact (by simpa [Committed, hpc] using c.isLt.trans_le (Nat.not_lt.1 hi))

theorem bury_calm {status : Int} (h : m.k.bury p status = .ok k) :
    ∀ q, q ≠ p → k.proc q = m.k.proc q := by
  obtain ⟨k₁, htable, h⟩ := Except.bind_ok_iff.1 h
  cases h
  obtain ⟨hproc, -⟩ := Kernel.dropTable_ok htable
  intro q hq
  rw [Kernel.modify_proc_ne hq, hproc, Kernel.modify_proc_ne hq]

theorem buryThread_proc_ne (k : Kernel) (hq : q ≠ p) :
    (k.buryThread p).proc q = (k.dropRef (k.leaderOf p)).proc q :=
  Kernel.modify_proc_ne hq

/-- One section of `p` keeps the invariant. -/
theorem Heard.advance (h : m.Heard) (heq : m.advance p = .ok (some m')) : m'.Heard := by
  have hsame : ∀ pc, m.Spares (some p) (m.goto p pc m.k) := fun pc => spares_goto_of_eq fun _ _ => rfl
  unfold Machine.advance at heq
  split at heq
  · cases heq
  · cases heq
  · cases heq
  · rename_i a hpc
    split at heq
    · rename_i hfree
      obtain rfl := Option.some.inj (Except.ok.inj heq)
      refine h.keep (hsame _) fun p' hp => ?_
      cases hp
      refine .scan (.inr hfree.1) (.inl ⟨_, _, _, rfl⟩) (by simp [hpc, Pc.inReparent]) fun c a' _ hc => ?_
      simp [Committed] at hc
    · cases heq
  · rename_i a i kids hpc
    exact h.scanAt hpc heq
  · rename_i a hpc
    obtain rfl := Option.some.inj (Except.ok.inj heq)
    exact h.keep (hsame _) fun p' hp => by cases hp; exact .rest (.inl ⟨rfl, hpc⟩) nofun
  · rename_i a hpc
    obtain rfl := Option.some.inj (Except.ok.inj heq)
    refine h.keep (spares_goto_of_eq fun q hq => Kernel.modify_proc_ne hq) fun p' hp => ?_
    cases hp
    exact .rest (.inr ⟨rfl, hpc⟩) fun _ => by simp [Kernel.sleep]
  · rename_i status hpc
    split at heq
    · rename_i hfree
      obtain rfl := Option.some.inj (Except.ok.inj heq)
      exact h.keep (hsame _) fun p' hp => by cases hp; exact .reparent (.inr hfree) (by simp [hpc])
    · cases heq
  · rename_i status i hpc
    obtain rfl := Option.some.inj (Except.ok.inj heq)
    unfold Machine.reparentAt
    split
    · dsimp only
      split
      · exact h.hand hpc rfl
      · exact h.keep (hsame _) fun p' hp => by
          cases hp; exact .reparent (.inl (by simp [hpc, Pc.holdsWait])) (by simp [hpc])
    · exact h.keep (hsame _) fun p' hp => by
        cases hp; exact .plain (by simp [Pc.isPlain]) (.inr ⟨_, _, hpc⟩)
  · rename_i status i t j hpc
    rcases h.wakeAt (Except.ok.inj heq) with ⟨hj, rfl⟩ | ⟨k, hm', -, hs, hwoken⟩
    · refine h.keep (hsame _) fun p' hp => ?_
      cases hp
      refine .reparent (.inl (by simp [hpc, Pc.holdsWait])) fun status' i' P j' hp' => ?_
      rw [hpc] at hp'
      cases hp'
      exact t.isLt.trans_le hj
    · exact h.keep hs fun p' hp => by cases hp; exact .handed h hpc hm' hs hwoken
  · rename_i status hpc
    obtain ⟨k, hbury, heq⟩ := Except.bind_ok_iff.1 heq
    obtain rfl := Option.some.inj (Except.ok.inj heq)
    exact h.keep (spares_goto_of_eq (bury_calm hbury)) fun p' hp => by
      cases hp; exact .plain (by simp [Pc.isPlain]) (.inl (by simp [hpc, Pc.inReparent]))
  · rename_i hpc
    split at heq
    · cases heq
    · obtain rfl := Option.some.inj (Except.ok.inj heq)
      refine h.keep (spares_goto (fun q hq => ?_) fun q hq => ?_) fun p' hp => by
        cases hp; exact .plain (by simp [Pc.isPlain]) (.inl (by simp [hpc, Pc.inReparent]))
      · rw [buryThread_proc_ne _ hq]
        exact (Kernel.dropRef_calm _ _).slot q
      · rw [buryThread_proc_ne _ hq]
        exact Kernel.dropRef_still _ _ q
  · rename_i hpc
    have hin : (m.pc p).inReparent = false := by simp [hpc, Pc.inReparent]
    split at heq
    · rename_i hfree
      split at heq
      · rename_i hparent
        obtain rfl := Option.some.inj (Except.ok.inj heq)
        refine h.keep (hsame _) fun p' hp => ?_
        cases hp
        -- nobody waits for a process without a parent
        refine .past rfl hin fun P a _ hod => ?_
        have := awaited_parent hod.awaited
        rw [goto_k, hparent] at this
        cases this
      · rename_i t hparent
        obtain rfl := Option.some.inj (Except.ok.inj heq)
        exact h.keep (hsame _) fun p' hp => by cases hp; exact .tell hpc hfree hparent
    · cases heq
  · rename_i t j hpc
    rcases h.wakeAt (Except.ok.inj heq) with ⟨hj, rfl⟩ | ⟨k, hm', hk, hs, hwoken⟩
    · refine h.keep (hsame _) fun p' hp => ?_
      cases hp
      -- the parent was woken, and could not go back to sleep without `wait_lock`
      refine .past rfl (by simp [hpc, Pc.inReparent]) fun P a hP hod hc => ?_
      have hparent := h.target p t j hpc hod.zombie
      obtain rfl : t = P := Option.some.inj (hparent.symm.trans (awaited_parent hod.awaited))
      have hr := h.resting_of_committed (by simp [hpc, Pc.holdsWait]) hP (hsame _) hc
      exact absurd ((hsame _).resting (by simpa using hP) hr) (h.woken p t j hpc (t.isLt.trans_le hj))
    · exact h.keep hs fun p' hp => by cases hp; exact .waking h hpc hm' hk hs hwoken
  · rename_i hpc
    obtain rfl := Option.some.inj (Except.ok.inj heq)
    refine h.keep (hsame _) fun p' hp => ?_
    cases hp
    refine .past rfl (by simp [hpc, Pc.inReparent]) fun P a hP hod hc => ?_
    have hs := hsame .left
    obtain ⟨q, status, i, j, hq, hj⟩ := h.heard p P a ⟨hod.zombie, by simp [hpc, Pc.isPast], hod.awaited⟩
      (hs.committed (by simpa using hP) hc)
    have hqp : q ≠ p := by rintro rfl; simp [hpc] at hq
    exact ⟨q, status, i, j, (Function.update_of_ne hqp _ _).trans hq, hj⟩

/-! ## Everything else -/

theorem whole_still {e : Event} {r : Option Int} (hw : e.isWhole = true) (hen : m.k.enabled e = true)
    (h : m.k.step e = .ok (r, k)) : m.k.Still k := by
  cases e with
  | schedule p => cases hw
  | yield p =>
    cases h
    exact Kernel.still_modify (.of_ne (by simp))
  | call p c =>
    have hp : (m.k.proc p).state = .running ∧ (m.k.proc p).killed = false := by
      simpa [Kernel.enabled] using hen
    have hactive : (m.k.proc p).state.phase = .active := by simp [hp.1, ProcState.phase]
    refine Kernel.syscall_still hactive ?_ ?_ h
    all_goals cases c <;> first | rfl | cases hw
  | block p n =>
    cases h
    exact Kernel.still_modify (.of_ne (by simp))
  | unblock n =>
    cases h
    exact Kernel.still_of_entries (Kernel.entries_wakeup _ _ _)
  | fault p =>
    cases h
    exact .modify_same (.refl _) fun _ => ⟨rfl, rfl, rfl, rfl⟩
  | die p => cases hw

/-- An event puts nobody to sleep but the process that brings it about. -/
theorem whole_sleeping {e : Event} {r : Option Int} (hw : e.isWhole = true) (hen : m.k.enabled e = true)
    (h : m.k.step e = .ok (r, k)) (hq : some q ≠ e.actor) (hs : (k.proc q).state = .sleeping) :
    (m.k.proc q).state = .sleeping ∧ (k.proc q).chan = (m.k.proc q).chan := by
  rcases (Kernel.step_treads hen h).asleep q hs with ⟨hs, -, hchan⟩ | hdoze
  · exact ⟨hs, hchan⟩
  · cases hdoze with
    | block n he => exact absurd (by rw [he]; rfl) hq
    | await ha =>
      cases e with
      | schedule p => cases hw
      | call p c => cases c <;> first | cases ha | cases hw
      | _ => cases ha

theorem Heard.event {e : Event} {r : Option Int} (h : m.Heard) (hw : e.isWhole = true)
    (hstart : m.mayStart e = true) (hen : m.k.enabled e = true) (hstep : m.k.step e = .ok (r, k))
    (hresp : m.Respects k) : (m.after k).Heard := by
  have hpcs : ∀ q, (m.after k).pc q = m.pc q ∨ (m.after k).pc q = .user ∧ (m.pc q).holdsOwn = false := by
    intro q
    simp only [after]
    split
    · rename_i hnew
      refine .inr ⟨rfl, ?_⟩
      by_contra hown
      have := (hresp q (by simpa [locked] using hown)).1
      exact hnew.2 (this.trans hnew.1)
    · exact .inl rfl
  have hs : m.Spares e.actor (m.after k) :=
    ⟨fun q _ => hpcs q, fun q hq => whole_sleeping hw hen hstep hq, fun q _ => whole_still hw hen hstep q⟩
  refine h.keep hs fun p hp => ?_
  -- the process that brings the event about is at a plain place, before and after
  have hplain : (m.pc p).isPlain = true ∧ (m.pc p).inReparent = false := by
    cases e with
    | yield p' =>
      cases hp
      cases hpc : m.pc p <;> simp [mayStart, hpc, Pc.isPlain, Pc.inReparent] at hstart ⊢
    | unblock n => cases hp
    | _ =>
      cases hp
      have hpc : m.pc p = .user := by simpa [mayStart, Event.actor] using hstart
      simp [hpc, Pc.isPlain, Pc.inReparent]
  refine .plain ?_ (.inl hplain.2)
  rcases hpcs p with heq | ⟨heq, -⟩
  · rw [heq]
    exact hplain.1
  · rw [heq]
    rfl

theorem Heard.startExit {status : Int} (h : m.Heard) (hp : (m.k.proc p).state = .running)
    (hpc : m.pc p = .user) (heq : m.startExit p status = .ok m') : m'.Heard := by
  have hin : (m.pc p).inReparent = false := by simp [hpc, Pc.inReparent]
  unfold Machine.startExit at heq
  split at heq
  · cases heq
    exact h.keep (spares_goto_of_eq fun _ _ => rfl) fun p' hp => by
      cases hp; exact .plain (by simp [Pc.isPlain]) (.inl hin)
  · obtain ⟨k, hclose, heq⟩ := Except.bind_ok_iff.1 heq
    cases heq
    obtain ⟨k₁, hfiles, hclose⟩ := Except.bind_ok_iff.1 hclose
    cases hclose
    obtain ⟨k₀, hwakes, rfl⟩ := Kernel.closeFiles_ok (by simp [hp]) hfiles
    have hproc : ∀ q, q ≠ p → (Kernel.dropCwd (k₀.modify p fun pr => { pr with ofile := fun _ => none }) p).proc q =
        k₀.proc q := fun q hq => by
      rw [Kernel.dropCwd_proc, Kernel.modify_proc_ne hq, Kernel.modify_proc_ne hq]
    refine h.keep (spares_goto (fun q hq => ?_) fun q hq => ?_) fun p' hp => by
      cases hp; exact .plain (by simp [Pc.isPlain]) (.inl hin)
    · rw [hproc q hq]
      exact .of_woken (hwakes.slot q)
    · rw [hproc q hq]
      exact still_of_woken (hwakes.slot q)

theorem Heard.switchTo (h : m.Heard) (hfree : m.locked p = false) : (m.switchTo p).Heard := by
  have hs : m.Spares (some p) (m.switchTo p) := spares_goto_of_eq fun q hq => Kernel.modify_proc_ne hq
  have hrun : ((m.switchTo p).k.proc p).state = .running := by simp [Machine.switchTo]
  have hself : (m.switchTo p).pc p = (m.pc p).resumed := by simp [Machine.switchTo]
  have hin : (m.pc p).inReparent = false := by
    cases hpc : m.pc p <;> simp [locked, hpc, Pc.holdsOwn, Pc.inReparent] at hfree ⊢
  refine h.keep hs fun p' hp' => ?_
  cases hp'
  refine ⟨fun hw => .inl ?_, fun a ha hsl => ?_, fun t j ht hz => ?_, fun t j ht => ?_, fun hr => ?_,
    fun P a ho => ?_, fun c a _ hc => ?_, fun status i P j hp => ?_⟩
  · cases hpc : m.pc p <;> simp [hself, hpc, Pc.resumed, Pc.holdsWait] at hw ⊢
  · rw [hrun] at hsl
    cases hsl
  · rw [hrun] at hz
    cases hz
  · cases hpc : m.pc p <;> simp [hself, hpc, Pc.resumed, locked, Pc.holdsOwn] at ht hfree
  · cases hpc : m.pc p <;> simp [Resting, hself, hpc, Pc.resumed, locked, Pc.holdsOwn] at hr hfree
  · have hz := ho.zombie
    rw [hrun] at hz
    cases hz
  · cases hpc : m.pc p <;> simp [Committed, hself, hpc, Pc.resumed, locked, Pc.holdsOwn] at hc hfree ⊢
    exact hc
  · simp [hp, Pc.inReparent] at hin

/-- Every act keeps the invariant. -/
theorem Heard.act {x : Act} (h : m.Heard) (heq : m.act x = .ok (some m')) : m'.Heard := by
  cases x with
  | event e =>
    simp only [Machine.act] at heq
    split at heq
    · rename_i hcond
      obtain ⟨⟨r, k⟩, hstep, heq⟩ := Except.bind_ok_iff.1 heq
      dsimp only at heq
      split at heq
      · rename_i hresp
        cases heq
        exact h.event hcond.1 hcond.2.1 hcond.2.2.1 hstep hresp
      · cases heq
    · cases heq
  | schedule p =>
    simp only [Machine.act] at heq
    split at heq
    · rename_i hcond
      cases heq
      exact h.switchTo hcond.2
    · cases heq
  | await p a =>
    simp only [Machine.act] at heq
    split at heq
    · rename_i hcond
      cases heq
      exact h.keep (spares_goto_of_eq fun _ _ => rfl) fun p' hp => by
        cases hp; exact .plain (by simp [Pc.isPlain]) (.inl (by simp [hcond.2, Pc.inReparent]))
    · cases heq
  | exit p status =>
    simp only [Machine.act] at heq
    split at heq
    · rename_i hcond
      obtain ⟨m₁, hstart, heq⟩ := Except.bind_ok_iff.1 heq
      cases heq
      exact h.startExit hcond.1 hcond.2 hstart
    · cases heq
  | advance p => exact h.advance heq

/-! ## Every run -/

theorem heard_of_user (h : ∀ p, m.pc p = .user) : m.Heard where
  alone p q hp := by simp [h, Pc.holdsWait] at hp
  chan p a hp := by simp [h] at hp
  target c t j hc := by simp [h] at hc
  woken c t j hc := by simp [h] at hc
  heard c P a ho := by simpa [h, Pc.isPast] using ho.past

theorem heard_of_reaches {b : Boot} {G : Machine → Act → Prop} (h : (machine b).Reaches G m) : m.Heard := by
  refine h.invariant (P := Heard) (fun m₀ hm₀ => ?_) fun m₀ x m₁ hm₀ _ hstep => ?_
  · exact heard_of_user hm₀.2
  · exact hm₀.act hstep

/-- Some process is inside the section of `exit` that runs `reparent`. -/
def Reparenting (m : Machine) : Prop := ∃ q, (m.pc q).inReparent = true

/-- While `c` is overdue and `P` asleep, a `wakeup` of `P` is on its way. -/
theorem LostWakeup.pending (hm : m.Heard) (h : m.LostWakeup c P) : m.Pending P := by
  obtain ⟨a, hod, hpc, hs⟩ := h
  exact hm.heard c P a hod (by simp [Committed, hpc, hs])

theorem Pending.reparenting (h : m.Pending P) : m.Reparenting := by
  obtain ⟨q, status, i, j, hq, -⟩ := h
  exact ⟨q, by simp [hq, Pc.inReparent]⟩

end Machine

/-- The machine seen at the granularity of its lock-protected sections: the one
in which `exit` hands its children to init and wakes init is a single step,
whatever other processes do meanwhile. -/
def sectionMachine (b : Boot) : Lts Machine Unit := (machine b).sections Machine.Reparenting

/-- No wakeup is lost: no process sleeps in a `wait` or `thread_join` while a
child it is to return has exited and is past its last release of `wait_lock`. -/
theorem no_lost_wakeup {b : Boot} {m : Machine} (h : (sectionMachine b).Reaches (fun _ _ => True) m) :
    ∀ c P, ¬ m.LostWakeup c P := by
  obtain ⟨hreach, hout⟩ := h.of_sections
  intro c P hlost
  exact hout (hlost.pending (Machine.heard_of_reaches hreach)).reparenting

/-- Init waits, its child exits: the child is past its wakeup, and init is
ready to run. -/
theorem no_lost_wakeup_of_wait : ∃ m : Machine, (sectionMachine .standard).Reaches (fun _ _ => True) m ∧
    (m.Overdue ⟨1, by decide⟩ ⟨0, by decide⟩ (.wait 0) ∧
      m.pc ⟨0, by decide⟩ = .asleep (.wait 0)) ∧
    ∀ c P, ¬ m.LostWakeup c P := by
  let init : Slot := ⟨0, by decide⟩
  let child : Slot := ⟨1, by decide⟩
  obtain ⟨m, hm, hc⟩ := exists_reaches_of_acts (b := .standard)
    (l := [.schedule init, .event (.call init .fork), .schedule child, .await init (.wait 0)] ++
      List.replicate 68 (.advance init) ++ [.exit child 0] ++ List.replicate 134 (.advance child))
    (c := fun m => decide (((m.k.proc child).state = .zombie ∧ (m.pc child).isPast = true ∧
      m.k.awaited init (.wait 0) child = true) ∧ m.pc init = .asleep (.wait 0) ∧
      ∀ q, (m.pc q).inReparent = false))
    (by decide +kernel)
  obtain ⟨⟨hz, hpast, haw⟩, hpc, hout⟩ := of_decide_eq_true hc
  have hreach : (sectionMachine .standard).Reaches (fun _ _ => True) m := by
    refine hm.to_sections (fun m₀ hm₀ hin => ?_) fun hin => ?_
    · obtain ⟨q, hq⟩ := hin
      simp [hm₀.2 q, Pc.inReparent] at hq
    · obtain ⟨q, hq⟩ := hin
      simp [hout q] at hq
  exact ⟨m, hreach, ⟨⟨hz, hpast, haw⟩, hpc⟩, no_lost_wakeup hreach⟩

end Xv6
