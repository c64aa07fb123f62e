-- SUMMARY: The calls that work on memory leave everything else in the table alone.
import Xv6Threads.Process.Exec

/-!
# Calls that remap

`sbrk`, `exec` and the loops over a group in `thread_create` write page tables,
sizes, trap frames and names of slots, and memory. `Remaps` says so once, for
whatever is to be kept: states and links, open files, exit statuses.
-/

namespace Xv6

namespace Kernel

variable {k k' k'' : Kernel} {p q : Slot}

/-- Nothing changes but memory, page tables, sizes, trap frames and names. -/
structure Remaps (k k' : Kernel) : Prop where
  slot : ∀ q, ∃ pt sz tf name,
    k'.proc q = { k.proc q with pagetable := pt, sz := sz, trapframe := tf, name := name }
  rest : k' = { k with mem := k'.mem, proc := k'.proc }

theorem Remaps.refl (k : Kernel) : k.Remaps k := ⟨fun _ => ⟨_, _, _, _, rfl⟩, rfl⟩

theorem Remaps.trans (h : k.Remaps k') (h' : k'.Remaps k'') : k.Remaps k'' where
  slot q := by
    obtain ⟨pt, sz, tf, name, hq⟩ := h.slot q
    obtain ⟨pt', sz', tf', name', hq'⟩ := h'.slot q
    exact ⟨pt', sz', tf', name', by rw [hq', hq]⟩
  rest := by
    rw [h'.rest, h.rest]

theorem remaps_setMem (k : Kernel) (m : Mem) : k.Remaps { k with mem := m } :=
  ⟨fun _ => ⟨_, _, _, _, rfl⟩, rfl⟩

theorem remaps_modify {f : Proc → Proc}
    (hf : ∀ pr, ∃ pt sz tf name,
      f pr = { pr with pagetable := pt, sz := sz, trapframe := tf, name := name }) :
    k.Remaps (k.modify p f) := by
  refine ⟨fun q => ?_, rfl⟩
  rw [modify_proc]
  split
  · exact hf _
  · exact ⟨_, _, _, _, rfl⟩

theorem remaps_setTable (k : Kernel) (m : Mem) (p : Slot) (pt : PageTable) :
    k.Remaps ({ k with mem := m }.setTable p pt) :=
  (remaps_setMem k m).trans (remaps_modify fun _ => ⟨_, _, _, _, rfl⟩)

theorem mapInto_remaps {va : Nat} {pa : Ppn} {perm : Perm} {c : Bool}
    (h : k.mapInto q va pa perm = .ok (c, k')) : k.Remaps k' := by
  unfold mapInto at h
  split at h
  · cases h
  · obtain ⟨⟨mapped, m, pt⟩, -, h⟩ := Except.bind_ok_iff.1 h
    cases h
    exact remaps_setTable _ _ _ _

theorem unmapFrom_remaps {va : Nat} (h : k.unmapFrom q va = .ok k') : k.Remaps k' := by
  unfold unmapFrom at h
  split at h
  · cases h
  · obtain ⟨⟨m, pt⟩, -, h⟩ := Except.bind_ok_iff.1 h
    cases h
    exact remaps_setTable _ _ _ _

/-! ## Loops over a group -/

/-- A property kept by the body of a loop over a group is kept by the loop. -/
theorem ringLoop_invariant {P : Kernel → Prop} {leader : Slot}
    {body : Kernel → Slot → Except Panic Kernel}
    (hbody : ∀ k q k', P k → body k q = .ok k' → P k') {n : Nat} (hk : P k)
    (h : ringLoop leader body n q k = .ok k') : P k' := by
  induction n generalizing k q with
  | zero => cases h
  | succ n ih =>
    rw [ringLoop] at h
    obtain ⟨k₁, hk₁, h⟩ := Except.bind_ok_iff.1 h
    have hP : P k₁ := hbody k q k₁ hk hk₁
    split at h
    · cases h
    · split at h
      · cases h
        exact hP
      · exact ih hP h

theorem ringLoop_remaps {leader : Slot} {body : Kernel → Slot → Except Panic Kernel} {n : Nat}
    (hbody : ∀ k q k', body k q = .ok k' → k.Remaps k') (h : ringLoop leader body n q k = .ok k') :
    k.Remaps k' :=
  ringLoop_invariant (P := fun k' => k.Remaps k') (fun k₁ q k₂ hk₁ h => hk₁.trans (hbody k₁ q k₂ h))
    (.refl k) h

theorem mapOther_remaps {va : Nat} {pa : Ppn} {c : Bool} (h : k.mapOther p q va pa = .ok (c, k')) :
    k.Remaps k' := by
  unfold mapOther at h
  split at h
  · exact mapInto_remaps h
  · cases h
    exact .refl k

theorem mapStack_remaps {curr : Nat} {stack : Ppn} (h : mapStack curr stack k q = .ok k') :
    k.Remaps k' := by
  obtain ⟨⟨c, k₁⟩, hmap, h⟩ := Except.bind_ok_iff.1 h
  cases h
  exact Remaps.trans (remaps_modify fun _ => ⟨_, _, _, _, rfl⟩) (mapInto_remaps hmap)

theorem growMembers_remaps {leader : Slot} {va : Nat} {pa : Ppn} {n : Nat} {c : Bool}
    (h : growMembers p leader va pa n q k = .ok (c, k')) : k.Remaps k' := by
  induction n generalizing k q with
  | zero => cases h
  | succ n ih =>
    rw [growMembers] at h
    obtain ⟨⟨mapped, k₁⟩, hmap, h⟩ := Except.bind_ok_iff.1 h
    have hr := mapOther_remaps hmap
    dsimp only at h
    split at h
    · cases h
      exact hr
    · split at h
      · cases h
      · split at h
        · cases h
          exact hr
        · exact hr.trans (ih h)

theorem growGroup_remaps {leader : Slot} {n va : Nat} {c : Bool}
    (h : growGroup p leader n va k = .ok (c, k')) : k.Remaps k' := by
  induction n generalizing k va with
  | zero =>
    cases h
    exact .refl _
  | succ n ih =>
    rw [growGroup] at h
    split at h
    · cases h
    · obtain ⟨pa, -, h⟩ := Except.bind_ok_iff.1 h
      obtain ⟨⟨mapped, k₁⟩, hgrow, h⟩ := Except.bind_ok_iff.1 h
      have hr := growMembers_remaps hgrow
      dsimp only at h
      split at h
      · cases h
        exact hr
      · exact hr.trans (ih h)

theorem shrinkGroup_remaps {leader : Slot} {n va : Nat} (h : shrinkGroup p leader n va k = .ok k') :
    k.Remaps k' := by
  induction n generalizing k va with
  | zero =>
    cases h
    exact .refl _
  | succ n ih =>
    rw [shrinkGroup] at h
    obtain ⟨k₁, hloop, h⟩ := Except.bind_ok_iff.1 h
    refine (ringLoop_remaps (fun k₂ q k₃ hbody => ?_) hloop).trans (ih h)
    split at hbody
    · exact unmapFrom_remaps hbody
    · cases hbody
      exact .refl _

theorem setSize_remaps {sz : Nat} (h : k.setSize p sz = .ok k') : k.Remaps k' := by
  unfold setSize at h
  split at h
  · cases h
    exact remaps_modify fun _ => ⟨_, _, _, _, rfl⟩
  · refine ringLoop_remaps (fun k₂ q k₃ hbody => ?_) h
    cases hbody
    exact remaps_modify fun _ => ⟨_, _, _, _, rfl⟩

theorem growOthers_remaps {va sz : Nat} {c : Bool} (h : k.growOthers p va sz = .ok (c, k')) :
    k.Remaps k' := by
  unfold growOthers at h
  split at h
  · cases h
    exact .refl k
  · exact growGroup_remaps h

theorem shrinkOthers_remaps {va sz : Nat} (h : k.shrinkOthers p va sz = .ok k') : k.Remaps k' := by
  unfold shrinkOthers at h
  split at h
  · cases h
    exact .refl k
  · exact shrinkGroup_remaps h

/-! ## sbrk and exec -/

theorem growproc_remaps {n v : Int} (h : k.growproc p n = .ok (v, k')) : k.Remaps k' := by
  simp only [growproc] at h
  split at h
  · cases h
    exact .refl k
  split at h
  · cases h
  split at h
  · obtain ⟨⟨newsz, m, pt⟩, -, h⟩ := Except.bind_ok_iff.1 h
    have hr := remaps_setTable k m p pt
    dsimp only at h
    split at h
    · cases h
      exact hr
    · obtain ⟨⟨mapped, k₁⟩, hgrow, h⟩ := Except.bind_ok_iff.1 h
      have hr₁ := hr.trans (growOthers_remaps hgrow)
      dsimp only at h
      split at h
      · cases h
        exact hr₁
      · obtain ⟨k₂, hset, h⟩ := Except.bind_ok_iff.1 h
        cases h
        exact hr₁.trans (setSize_remaps hset)
  · obtain ⟨⟨newsz, m, pt⟩, -, h⟩ := Except.bind_ok_iff.1 h
    obtain ⟨k₁, hshrink, h⟩ := Except.bind_ok_iff.1 h
    obtain ⟨k₂, hset, h⟩ := Except.bind_ok_iff.1 h
    cases h
    exact ((remaps_setTable k m p pt).trans (shrinkOthers_remaps hshrink)).trans (setSize_remaps hset)

theorem sbrk_remaps {n v : Int} (h : k.sbrk p n = .ok (v, k')) : k.Remaps k' := by
  unfold sbrk at h
  obtain ⟨⟨r, k₁⟩, hgrow, h⟩ := Except.bind_ok_iff.1 h
  have hr := growproc_remaps hgrow
  dsimp only at h
  split at h <;> (cases h; exact hr)

theorem exec_remaps {path : String} {file : Option Image} {argv : List (List UInt8)} {v : Int}
    (h : k.exec p path file argv = .ok (v, k')) : k.Remaps k' := by
  have hbad : ∀ {m : Mem} {pt : PageTable} {sz : Nat}, k.execBad m pt sz = .ok (v, k') →
      k.Remaps k' := by
    intro m pt sz hb
    obtain ⟨m', -, hb⟩ := Except.bind_ok_iff.1 hb
    cases hb
    exact remaps_setMem _ _
  simp only [exec] at h
  split at h
  · cases h
    exact .refl k
  split at h
  · cases h
    exact .refl k
  split at h
  · obtain ⟨⟨pt, m⟩, -, h⟩ := Except.bind_ok_iff.1 h
    split at h
    · cases h
      exact remaps_setMem _ _
    obtain ⟨⟨loaded, sz, m₁, pt₁⟩, -, h⟩ := Except.bind_ok_iff.1 h
    dsimp only at h
    split at h
    · exact hbad h
    obtain ⟨⟨sp, sz₁, m₂, pt₂⟩, -, h⟩ := Except.bind_ok_iff.1 h
    split at h
    · exact hbad h
    · obtain ⟨m₃, -, h⟩ := Except.bind_ok_iff.1 h
      cases h
      exact (remaps_setMem k m₃).trans (remaps_modify fun _ => ⟨_, _, _, _, rfl⟩)
  · cases h

end Kernel

end Xv6
