-- SUMMARY: getfamily and getstatus: what they return for a member of a group and for a process in no group.
import Xv6Threads.Memory.Copyout
import Xv6Threads.System.Equipped
import Xv6Threads.System.Joins

/-!
# Family queries

`getfamily` and `getstatus` walk the ring from the leader on. For a caller in a
group the walk visits every member once. A process that never made a thread has
no ring: its `group_next` is null, and the walk goes through it as soon as it
has to look at a second member.
-/

namespace Xv6

open PageTable

variable {b : Boot} {k k' : Kernel} {p q L : Slot} {l ms : List Slot}

@[simp] theorem Kernel.length_intBytes (n : Int) : (Kernel.intBytes n).length = 4 := rfl

namespace Kernel

/-- The ids of the slots in `l`, as they are stored. -/
def tidBytes (k : Kernel) (l : List Slot) : List UInt8 := l.flatMap fun q => intBytes (k.proc q).tid

theorem tidBytes_cons (k : Kernel) (q : Slot) (l : List Slot) :
    k.tidBytes (q :: l) = intBytes (k.proc q).tid ++ k.tidBytes l := rfl

/-- `getfamily(buf, n)` returns, and if there is room for the ids of the first
`n` members of `l` at `buf`, it returns their number and has written just them. -/
def FamilyExact (k : Kernel) (p : Slot) (l : List Slot) (buf : UInt64) (n : Int) : Prop :=
  ∃ pt r k', (k.proc p).pagetable = some pt ∧ k.getfamily p buf.toNat n = .ok (r, k') ∧
    ∀ m, pt.writeBytes k.mem buf.toNat (k.tidBytes (l.take n.toNat)) = some m →
      r = min (max 0 n) l.length ∧ k' = { k with mem := m }

/-- `getstatus(tid)` returns the state of the only member of `l` with that id,
or `-1` if there is none. -/
def StatusExact (k : Kernel) (p : Slot) (l : List Slot) (tid : Int) : Prop :=
  ∃ r, k.getstatus p tid = .ok r ∧
    ((∃ q ∈ l, (k.proc q).tid = tid ∧ r = (k.proc q).state.code ∧ ∀ x ∈ l, (k.proc x).tid = tid → x = q) ∨
      r = -1 ∧ ∀ q ∈ l, (k.proc q).tid ≠ tid)

/-! ## Walking a ring -/

/-- The first element of a range of addresses that can be written. -/
theorem address_of_writeBytes {pt : PageTable} {m m' : Mem} {va : Nat} {src : List UInt8}
    (h : pt.writeBytes m va src = some m') (hne : src ≠ []) : va % wordSize = va := by
  have hle := writeBytes_le h hne
  have hlt : maxVa < wordSize := by decide
  exact Nat.mod_eq_of_lt (by omega)

/-- The loop of `getfamily` at member `q`, with the members `ms` still ahead. -/
theorem familyLoop_exact {pt : PageTable} {buf count fuel : Nat} {n : Int} (hf : Follows k.next (k.next q) ms L)
    (hL : L ∉ ms) (hfuel : ms.length < fuel) :
    ∃ r k', familyLoop pt L buf n fuel (some q) count k = .ok (r, k') ∧
      ∀ m, pt.writeBytes k.mem (buf + count * 4) (k.tidBytes ((q :: ms).take (n - count).toNat)) = some m →
        r = count + min (n - count).toNat (ms.length + 1) ∧ k' = { k with mem := m } := by
  induction fuel generalizing k q ms count with
  | zero => cases hfuel
  | succ fuel ih =>
    rw [familyLoop]
    by_cases hmax : n ≤ count
    · rw [if_pos hmax]
      have hzero : (n - count).toNat = 0 := by omega
      refine ⟨_, _, rfl, fun m hm => ?_⟩
      rw [hzero] at hm ⊢
      obtain rfl : k.mem = m := Option.some.inj hm
      exact ⟨by simp, rfl⟩
    rw [if_neg hmax]
    obtain ⟨j, hj⟩ : ∃ j, (n - count).toNat = j + 1 := ⟨(n - count).toNat - 1, by omega⟩
    -- what the whole range says about the address of this element
    have hhead : ∀ m, pt.writeBytes k.mem (buf + count * 4) (k.tidBytes ((q :: ms).take (n - count).toNat)) = some m →
        ∃ m₁, pt.copyout k.mem ((buf + count * 4) % wordSize) (intBytes (k.proc q).tid) = (true, m₁) ∧
          pt.writeBytes m₁ (buf + (count + 1) * 4) (k.tidBytes (ms.take j)) = some m := by
      intro m hm
      rw [hj, List.take_succ_cons, tidBytes_cons, writeBytes_append] at hm
      obtain ⟨m₁, hm₁, hm⟩ := Option.bind_eq_some_iff.1 hm
      refine ⟨m₁, ?_, ?_⟩
      · rw [address_of_writeBytes hm₁ (by simp [intBytes])]
        exact copyout_eq_true_iff.2 hm₁
      · rwa [length_intBytes, show buf + count * 4 + 4 = buf + (count + 1) * 4 by omega] at hm
    cases hcopy : pt.copyout k.mem ((buf + count * 4) % wordSize) (intBytes (k.proc q).tid) with
    | mk ok m₁ =>
      cases ok with
      | false =>
        refine ⟨_, _, rfl, fun m hm => ?_⟩
        obtain ⟨m₂, hm₂, -⟩ := hhead m hm
        rw [hcopy] at hm₂
        cases hm₂
      | true =>
        dsimp only
        cases ms with
        | nil =>
          rw [if_pos (show (k.proc q).groupNext = some L from hf)]
          refine ⟨_, _, rfl, fun m hm => ?_⟩
          obtain ⟨m₂, hm₂, hrest⟩ := hhead m hm
          obtain rfl : m₁ = m₂ := congrArg Prod.snd (hcopy.symm.trans hm₂)
          obtain rfl : m₁ = m := Option.some.inj (by simpa [tidBytes, writeBytes] using hrest)
          exact ⟨by rw [hj]; simp, rfl⟩
        | cons x ms =>
          have hx : (k.proc q).groupNext = some x := hf.1
          rw [hx, if_neg fun heq => hL (by simp [Option.some.inj heq])]
          obtain ⟨r, k', hrun, hexact⟩ := @ih { k with mem := m₁ } x ms (count + 1) hf.2
            (fun hmem => hL (List.mem_cons_of_mem _ hmem)) (Nat.lt_of_succ_lt_succ hfuel)
          refine ⟨r, k', hrun, fun m hm => ?_⟩
          obtain ⟨m₂, hm₂, hrest⟩ := hhead m hm
          obtain rfl : m₁ = m₂ := congrArg Prod.snd (hcopy.symm.trans hm₂)
          have hleft : (n - ((count + 1 : Nat) : Int)).toNat = j := by omega
          rw [hleft] at hexact
          obtain ⟨hr, hk'⟩ := hexact m hrest
          refine ⟨?_, hk'⟩
          rw [hr, hj, List.length_cons]
          push_cast
          omega

/-- The loop of `getstatus` at member `q`, with the members `ms` still ahead. -/
theorem statusLoop_exact {fuel : Nat} (tid : Int) (hf : Follows k.next (k.next q) ms L) (hL : L ∉ ms)
    (hfuel : ms.length < fuel) :
    ∃ r, k.statusLoop L tid fuel (some q) = .ok r ∧
      ((∃ x ∈ q :: ms, (k.proc x).tid = tid ∧ r = (k.proc x).state.code) ∨
        r = -1 ∧ ∀ x ∈ q :: ms, (k.proc x).tid ≠ tid) := by
  induction fuel generalizing q ms with
  | zero => cases hfuel
  | succ fuel ih =>
    rw [statusLoop]
    by_cases htid : (k.proc q).tid = tid
    · rw [if_pos htid]
      exact ⟨_, rfl, .inl ⟨q, by simp, htid, rfl⟩⟩
    rw [if_neg htid]
    cases ms with
    | nil =>
      rw [if_pos (show (k.proc q).groupNext = some L from hf)]
      exact ⟨_, rfl, .inr ⟨rfl, by simpa using htid⟩⟩
    | cons x ms =>
      have hx : (k.proc q).groupNext = some x := hf.1
      rw [hx, if_neg fun heq => hL (by simp [Option.some.inj heq])]
      obtain ⟨r, hrun, hr⟩ := ih hf.2 (fun hmem => hL (List.mem_cons_of_mem _ hmem))
        (Nat.lt_of_succ_lt_succ hfuel)
      refine ⟨r, hrun, hr.imp ?_ ?_⟩
      · rintro ⟨y, hy, hcode⟩
        exact ⟨y, List.mem_cons_of_mem _ hy, hcode⟩
      · rintro ⟨hr, hall⟩
        exact ⟨hr, List.forall_mem_cons.2 ⟨htid, hall⟩⟩

/-! ## Callers in a group -/

section

variable {ms : List Slot}

theorem leaderOf_of_leader (hL : (k.proc p).groupLeader = some L) : k.leaderOf p = L := by
  rw [leaderOf, hL]
  rfl

theorem getfamily_of_group {pt : PageTable} (hpt : (k.proc p).pagetable = some pt)
    (hL : (k.proc p).groupLeader = some L) (hg : k.entries.Group L ms) (buf : UInt64) (n : Int) :
    k.FamilyExact p (L :: ms) buf n := by
  obtain ⟨r, k', hrun, hexact⟩ := @familyLoop_exact k L L ms pt buf.toNat 0 _ n
    hg.ring.follows hg.ring.head_notMem (by simpa using hg.ring.length_lt)
  refine ⟨pt, r, k', hpt, ?_, fun m hm => ?_⟩
  · rw [getfamily, hpt, leaderOf_of_leader hL]
    exact hrun
  · obtain ⟨hr, hk'⟩ := hexact m (by simpa using hm)
    refine ⟨?_, hk'⟩
    rw [hr, List.length_cons]
    omega

theorem getstatus_of_group (hk : Reachable b k) (hL : (k.proc p).groupLeader = some L)
    (hg : k.entries.Group L ms) (tid : Int) : k.StatusExact p (L :: ms) tid := by
  obtain ⟨h, hh⟩ := hk.exists_history Chronicle.start Kernel.record
  obtain ⟨ms', hring, -, hnodup⟩ := (threads_of_reaches hh).tids_nodup hg.leader.1
  obtain rfl : ms = ms' := hg.ring.follows.unique hring.follows hg.ring.head_notMem hring.head_notMem
  obtain ⟨r, hrun, hr⟩ := statusLoop_exact (k := k) tid hg.ring.follows hg.ring.head_notMem
    (by simpa using hg.ring.length_lt)
  refine ⟨r, by rw [getstatus, leaderOf_of_leader hL]; exact hrun, hr.imp ?_ id⟩
  rintro ⟨q, hq, htid, hcode⟩
  exact ⟨q, hq, htid, hcode, fun x hx hx' =>
    List.inj_on_of_nodup_map hnodup hx hq (hx'.trans htid.symm)⟩

end

/-! ## Callers in no group -/

theorem familyExact_single_iff {pt : PageTable} (hpt : (k.proc p).pagetable = some pt)
    (hL : (k.proc p).groupLeader = none) (hnext : (k.proc p).groupNext = none) (buf : UInt64) (n : Int) :
    k.FamilyExact p [p] buf n ↔ n ≤ 1 ∨ pt.Unwritable buf.toNat 4 := by
  have hself : k.leaderOf p = p := by
    rw [leaderOf, hL]
    rfl
  have hbuf : buf.toNat % wordSize = buf.toNat := Nat.mod_eq_of_lt buf.toNat_lt
  have hbytes : k.tidBytes [p] = intBytes (k.proc p).tid := List.append_nil _
  have hfuel : nproc = 62 + 1 + 1 := rfl
  have hrun : k.getfamily p buf.toNat n = familyLoop pt p buf.toNat n (62 + 1 + 1) (some p) 0 k := by
    rw [getfamily, hpt, hself, hfuel]
  by_cases hzero : n ≤ 0
  · -- nothing is asked for
    refine iff_of_true ⟨pt, 0, k, hpt, ?_, fun m hm => ?_⟩ (.inl (by omega))
    · rw [hrun, familyLoop, if_pos (by simpa using hzero)]
      rfl
    · rw [Int.toNat_of_nonpos hzero] at hm
      obtain rfl : k.mem = m := Option.some.inj hm
      exact ⟨by simp [max_eq_left hzero], rfl⟩
  have htake : [p].take n.toNat = [p] := List.take_of_length_le (by simp; omega)
  rw [← length_intBytes (k.proc p).tid, ← writeBytes_eq_none_iff (m := k.mem)]
  have hfirst : ∀ ok m, pt.copyout k.mem buf.toNat (intBytes (k.proc p).tid) = (ok, m) → k.getfamily p buf.toNat n =
      if ok then familyLoop pt p buf.toNat n (62 + 1) none 1 { k with mem := m }
      else .ok (-1, { k with mem := m }) := by
    intro ok m hcopy
    refine hrun.trans ?_
    rw [familyLoop]
    refine (if_neg (by simpa using hzero)).trans ?_
    simp only [Nat.zero_mul, Nat.add_zero, hbuf, hnext, hcopy]
    cases ok <;> rfl
  cases hcopy : pt.copyout k.mem buf.toNat (intBytes (k.proc p).tid) with
  | mk ok m₁ =>
    have hfirst := hfirst ok m₁ hcopy
    cases ok with
    | false =>
      have hnone : pt.writeBytes k.mem buf.toNat (intBytes (k.proc p).tid) = none := by
        by_contra hsome
        obtain ⟨m, hm⟩ := Option.ne_none_iff_exists'.1 hsome
        rw [← copyout_eq_true_iff, hcopy] at hm
        cases hm
      refine iff_of_true ⟨pt, _, _, hpt, hfirst, fun m hm => ?_⟩ (.inr hnone)
      rw [htake, hbytes, hnone] at hm
      cases hm
    | true =>
      have hsome := copyout_eq_true_iff.1 hcopy
      simp only [hsome, reduceCtorEq, or_false]
      rw [if_pos rfl] at hfirst
      constructor
      · -- with two asked for the walk goes through the null link, or fails to write there
        rintro ⟨pt', r, k', hpt', hok, hexact⟩
        obtain rfl : pt = pt' := Option.some.inj (hpt.symm.trans hpt')
        by_contra hn
        obtain ⟨hr, -⟩ := hexact m₁ (by rw [htake, hbytes, hsome])
        rw [hfirst, familyLoop, if_neg (by push_cast; omega)] at hok
        split at hok
        · cases hok
          simp at hr
          omega
        · cases hok
      · intro hn
        obtain rfl : n = 1 := by omega
        refine ⟨pt, 1, { k with mem := m₁ }, hpt, ?_, fun m hm => ?_⟩
        · rw [hfirst, familyLoop, if_pos (by simp)]
          rfl
        · rw [htake, hbytes, hsome] at hm
          obtain rfl := Option.some.inj hm
          exact ⟨by simp, rfl⟩

theorem statusExact_single_iff (hL : (k.proc p).groupLeader = none) (hnext : (k.proc p).groupNext = none)
    (tid : Int) : k.StatusExact p [p] tid ↔ tid = (k.proc p).tid := by
  have hself : k.leaderOf p = p := by
    rw [leaderOf, hL]
    rfl
  have hrun : k.getstatus p tid = if (k.proc p).tid = tid then .ok (k.proc p).state.code else nullDeref := by
    rw [getstatus, hself, show nproc = 62 + 1 + 1 from rfl, statusLoop, hnext]
    by_cases htid : (k.proc p).tid = tid
    · rw [if_pos htid, if_pos htid]
    · rw [if_neg htid, if_neg htid]
      rfl
  constructor
  · rintro ⟨r, hok, -⟩
    by_contra hne
    rw [hrun, if_neg (Ne.symm hne)] at hok
    cases hok
  · rintro rfl
    exact ⟨_, by rw [hrun, if_pos rfl], .inl ⟨p, by simp, rfl, rfl, fun x hx _ => by simpa using hx⟩⟩

/-! ## Every caller -/

/-- For every caller in a group both queries are exact. A process in no group is
answered only if it asks for itself: `getfamily` for at most one id, or at a
buffer that cannot be written, and `getstatus` for its own. -/
theorem family_exact_iff (hk : Reachable b k) (hp : (k.proc p).state = .running) (ht : k.Team p l)
    (buf : UInt64) (n tid : Int) :
    (k.FamilyExact p l buf n ↔ (k.proc p).groupLeader ≠ none ∨ n ≤ 1 ∨
      ∃ pt, (k.proc p).pagetable = some pt ∧ pt.Unwritable buf.toNat 4) ∧
    (k.StatusExact p l tid ↔ (k.proc p).groupLeader ≠ none ∨ tid = (k.proc p).tid) := by
  obtain ⟨pt, hpt⟩ := Option.ne_none_iff_exists'.1 (equipped_of_reachable hk p (by rw [hp]; rfl)).1
  cases ht with
  | single hL =>
    have hnext : (k.proc p).groupNext = none := unlinked_of_reachable hk p hL
    refine ⟨(familyExact_single_iff hpt hL hnext buf n).trans ?_, (statusExact_single_iff hL hnext tid).trans ?_⟩
    · simp [hL, hpt]
    · simp [hL]
  | group hL hg =>
    exact ⟨iff_of_true (getfamily_of_group hpt hL hg buf n) (.inl (by simp [hL])),
      iff_of_true (getstatus_of_group hk hL hg tid) (.inl (by simp [hL]))⟩

end Kernel

/-- The first process has made a thread, and asks for both. -/
theorem family_exact_of_leader : ∃ k : Kernel, ∃ l, Reachable .standard k ∧ k.Team ⟨0, by decide⟩ l ∧
    (k.proc ⟨1, by decide⟩).isThread = true ∧ k.FamilyExact ⟨0, by decide⟩ l 0 2 ∧ k.StatusExact ⟨0, by decide⟩ l 1 := by
  have hrun : (Boot.standard.run anyStep
      [.schedule ⟨0, by decide⟩, .call ⟨0, by decide⟩ (.threadCreate 0 0)]).any
      (fun k => (k.proc ⟨0, by decide⟩).state = .running ∧ (k.proc ⟨0, by decide⟩).groupLeader ≠ none ∧
        (k.proc ⟨1, by decide⟩).isThread = true) = true := by decide +kernel
  obtain ⟨k, hk, hc⟩ := exists_reaches_of_run hrun
  obtain ⟨hp, hL, hthread⟩ := of_decide_eq_true hc
  obtain ⟨l, ht⟩ := Kernel.exists_team (p := ⟨0, by decide⟩) (wellGrouped_of_reaches hk) (by rw [hp]; rfl)
  obtain ⟨hfamily, hstatus⟩ := Kernel.family_exact_iff hk hp ht 0 2 1
  exact ⟨k, l, hk, ht, hthread, hfamily.2 (.inl hL), hstatus.2 (.inl hL)⟩

/-- The first process, before it has made a thread, asks for two ids. -/
theorem family_exact_of_single : ¬ ∀ (b : Boot) (k : Kernel) (p : Slot) (l : List Slot) (buf : UInt64) (n tid : Int),
    Reachable b k → (k.proc p).state = .running → k.Team p l →
      k.FamilyExact p l buf n ∧ k.StatusExact p l tid := by
  intro hall
  have hrun : (Boot.standard.run anyStep [.schedule ⟨0, by decide⟩]).any
      (fun k => (k.proc ⟨0, by decide⟩).state = .running ∧ (k.proc ⟨0, by decide⟩).groupLeader = none ∧
        (match k.getfamily ⟨0, by decide⟩ 0 2 with | .ok _ => false | .error _ => true) = true) = true := by
    decide +kernel
  obtain ⟨k, hk, hc⟩ := exists_reaches_of_run hrun
  obtain ⟨hp, hL, hpanic⟩ := of_decide_eq_true hc
  obtain ⟨pt, r, k', -, hok, -⟩ := (hall _ k _ _ 0 2 0 hk hp (.single hL)).1
  rw [show (0 : UInt64).toNat = 0 from rfl] at hok
  rw [hok] at hpanic
  cases hpanic

end Xv6
