-- SUMMARY: The virtual-memory routines come back: none of their loops runs for ever.
import Xv6Threads.Base.Except
import Xv6Threads.Memory.Vm

/-!
# Routines that come back

`Halts` says of a computation that it returns or panics. The loops of `vm.c`
count pages, so each of its routines halts whatever it is given.
-/

namespace Xv6

/-- The computation returns or stops with a panic. -/
abbrev Halts {α : Type} (x : Except Panic α) : Prop := x.Avoids .spin

@[simp] theorem halts_stop {α : Type} (msg : String) : Halts (stop msg : Except Panic α) := nofun

@[simp] theorem halts_nullDeref {α : Type} : Halts (nullDeref : Except Panic α) := nofun

theorem Mem.kfree_halts (m : Mem) (pa : Ppn) : Halts (m.kfree pa) := by
  unfold kfree
  split <;> simp

namespace PageTable

theorem walk_halts (pt : PageTable) (va : Nat) : Halts (pt.walk va) := by
  unfold walk
  split <;> simp

theorem walkAlloc_halts (m : Mem) (pt : PageTable) (va : Nat) : Halts (walkAlloc m pt va) := by
  unfold walkAlloc
  repeat' split
  all_goals simp

theorem mappagesLoop_halts (perm : Perm) (n : Nat) (m : Mem) (pt : PageTable) (a : Nat) (pa : Ppn) :
    Halts (mappagesLoop perm n m pt a pa) := by
  induction n generalizing m pt a pa with
  | zero => exact Except.avoids_ok
  | succ n ih =>
    refine (walkAlloc_halts m pt a).bind fun ⟨found, m', pt'⟩ _ => ?_
    dsimp only
    split
    · simp
    · split
      · simp
      · exact ih _ _ _ _

theorem mappages_halts (m : Mem) (pt : PageTable) (va size : Nat) (pa : Ppn) (perm : Perm) :
    Halts (mappages m pt va size pa perm) := by
  unfold mappages
  split
  · simp
  · exact mappagesLoop_halts _ _ _ _ _ _

theorem uvmunmapLoop_halts (doFree : Bool) (n : Nat) (m : Mem) (pt : PageTable) (a : Nat) :
    Halts (uvmunmapLoop doFree n m pt a) := by
  induction n generalizing m pt a with
  | zero => exact Except.avoids_ok
  | succ n ih =>
    refine (walk_halts pt a).bind fun r _ => ?_
    split
    · simp
    · simp
    · split
      · simp
      · refine Except.Avoids.bind ?_ fun m' _ => ih _ _ _
        split
        · exact m.kfree_halts _
        · simp

theorem uvmunmap_halts (m : Mem) (pt : PageTable) (va npages : Nat) (doFree : Bool) :
    Halts (uvmunmap m pt va npages doFree) := by
  unfold uvmunmap
  split
  · simp
  · exact uvmunmapLoop_halts _ _ _ _ _

theorem uvmdealloc_halts (m : Mem) (pt : PageTable) (oldsz newsz : Nat) :
    Halts (uvmdealloc m pt oldsz newsz) := by
  unfold uvmdealloc
  split
  · simp
  · split
    · exact (uvmunmap_halts _ _ _ _ _).bind fun _ _ => Except.avoids_ok
    · simp

theorem uvmallocLoop_halts (oldsz newsz : Nat) (perm : Perm) (n : Nat) (m : Mem) (pt : PageTable)
    (a : Nat) : Halts (uvmallocLoop oldsz newsz perm n m pt a) := by
  induction n generalizing m pt a with
  | zero => exact Except.avoids_ok
  | succ n ih =>
    rw [uvmallocLoop]
    split
    · exact (uvmdealloc_halts _ _ _ _).bind fun _ _ => Except.avoids_ok
    · refine (mappages_halts _ _ _ _ _ _).bind fun ⟨mapped, m', pt'⟩ _ => ?_
      dsimp only
      split
      · exact ih _ _ _
      · refine (Mem.kfree_halts _ _).bind fun _ _ => ?_
        exact (uvmdealloc_halts _ _ _ _).bind fun _ _ => Except.avoids_ok

theorem uvmalloc_halts (m : Mem) (pt : PageTable) (oldsz newsz : Nat) (xperm : Perm) :
    Halts (uvmalloc m pt oldsz newsz xperm) := by
  unfold uvmalloc
  split
  · simp
  · exact uvmallocLoop_halts _ _ _ _ _ _ _

theorem sweep_halts {α : Type} {below : Mem → α → Except Panic Mem} (h : ∀ m x, Halts (below m x))
    (m : Mem) (t : Table α) : Halts (Table.sweep below m t) := by
  refine Except.Avoids.bind (.foldlM (fun m i => ?_) _ _) fun _ _ => Mem.kfree_halts _ _
  split
  · simp
  · exact h _ _

theorem freewalk_halts (m : Mem) (pt : PageTable) : Halts (freewalk m pt) :=
  sweep_halts (sweep_halts (sweep_halts fun _ _ => halts_stop _)) m pt

theorem uvmfree_halts (m : Mem) (pt : PageTable) (sz : Nat) : Halts (pt.uvmfree m sz) := by
  refine Except.Avoids.bind ?_ fun _ _ => freewalk_halts _ _
  split
  · exact uvmunmap_halts _ _ _ _ _
  · simp

theorem dropUserPage_halts (release : Bool) (m : Mem) (pt : PageTable) (va : Nat) :
    Halts (dropUserPage release m pt va) := by
  refine (walk_halts pt va).bind fun r _ => ?_
  split
  · simp
  · simp
  · refine Except.Avoids.bind ?_ fun _ _ => Except.avoids_ok
    split
    · exact Mem.kfree_halts _ _
    · simp

theorem dropUserPages_halts {drop : Mem → PageTable → Nat → Except Panic (Mem × PageTable)}
    (h : ∀ m pt a, Halts (drop m pt a)) (n : Nat) (m : Mem) (pt : PageTable) (a : Nat) :
    Halts (dropUserPages drop n m pt a) := by
  induction n generalizing m pt a with
  | zero => exact Except.avoids_ok
  | succ n ih => exact (h m pt a).bind fun _ _ => ih _ _ _

theorem uvmfreeSharedThread_halts (m : Mem) (pt : PageTable) (sz : Nat) :
    Halts (uvmfreeSharedThread m pt sz) := by
  unfold uvmfreeSharedThread uvmfreeWith
  split
  · simp
  · exact (dropUserPages_halts (dropUserPage_halts false) _ _ _ _).bind fun _ _ => freewalk_halts _ _

theorem uvmshareLoop_halts (src : PageTable) (n : Nat) (m : Mem) (dest : PageTable) (i : Nat) :
    Halts (uvmshareLoop src n m dest i) := by
  induction n generalizing m dest i with
  | zero => exact Except.avoids_ok
  | succ n ih =>
    refine (walk_halts src _).bind fun r _ => ?_
    split
    · exact ih _ _ _
    · exact ih _ _ _
    · refine (mappages_halts _ _ _ _ _ _).bind fun ⟨mapped, m', pt'⟩ _ => ?_
      dsimp only
      split
      · exact ih _ _ _
      · simp

theorem uvmshare_halts (m : Mem) (src dest : PageTable) (sz : Nat) : Halts (uvmshare m src dest sz) :=
  uvmshareLoop_halts _ _ _ _ _

end PageTable

end Xv6
