-- SUMMARY: The memory of the slots, the pages the kernel owns, and the calls after which every page is where it was.
import Xv6Threads.Process.Entries
import Xv6Threads.Process.Tables

/-!
# Rooms

The part of a slot that holds pages: its table, its trapframe and its size.
`owned` weighs every page that has one owner: the pages on the free list, the
tables and trapframes of all slots and the buffers of pipes. User pages are
not owned: several tables may map one of them.

A call that keeps `Balanced` moves pages between owners at most.
-/

namespace Xv6

/-- The memory of a slot. -/
structure Room where
  table : Option PageTable
  frame : Option Ppn
  size : Nat

/-- No table and no trapframe. -/
def Room.empty : Room := ⟨none, none, 0⟩

/-- The weight of the pages a slot owns. -/
def Room.held (w : Ppn → Nat) (r : Room) : Nat :=
  Weight.ofOption w r.frame + r.table.elim 0 (PageTable.weigh w)

/-- The weight of the user pages a slot maps. -/
def Room.user (w : Ppn → Nat) (r : Room) : Nat := r.table.elim 0 (PageTable.user w)

@[simp] theorem Room.held_empty (w : Ppn → Nat) : Room.empty.held w = 0 := rfl
@[simp] theorem Room.user_empty (w : Ppn → Nat) : Room.empty.user w = 0 := rfl

section

variable {r : Room} {pt : PageTable} {w : Ppn → Nat}

theorem Room.user_of_table (h : r.table = some pt) : r.user w = pt.user w := by
  rw [Room.user, h, Option.elim_some]

theorem Room.user_of_none (h : r.table = none) : r.user w = 0 := by
  rw [Room.user, h, Option.elim_none]

theorem Room.held_of_table (h : r.table = some pt) :
    r.held w = Weight.ofOption w r.frame + pt.weigh w := by
  rw [Room.held, h, Option.elim_some]

theorem Room.held_of_none (h : r.table = none) : r.held w = Weight.ofOption w r.frame := by
  rw [Room.held, h, Option.elim_none, Nat.add_zero]

end

/-- The room without its table. -/
def Room.dropTable (r : Room) : Room := ⟨none, r.frame, if r.table.isSome then 0 else r.size⟩

/-- The room without its table and its trapframe. -/
def Room.release (r : Room) : Room := ⟨none, none, if r.table.isSome then 0 else r.size⟩

def Proc.room (pr : Proc) : Room := ⟨pr.pagetable, pr.trapframe.map Trapframe.page, pr.sz⟩

theorem Proc.Woken.room_eq {pr pr' : Proc} (h : pr.Woken pr') : pr'.room = pr.room := by
  rcases h with rfl | ⟨-, rfl⟩ <;> rfl

namespace Kernel

variable {k k' k'' : Kernel} {p q : Slot} {w : Ppn → Nat}

def rooms (k : Kernel) : Slot → Room := fun q => (k.proc q).room

/-- The entry of virtual page `v` in the table of slot `q`. -/
def pte (k : Kernel) (q : Slot) (v : Nat) : Option Pte := (k.rooms q).table.bind fun pt => pt.leaf v

/-- The weight of the pages of pipes. -/
def pipeWeight (k : Kernel) (w : Ppn → Nat) : Nat := Weight.ofList w (k.pipes.map Pipe.page)

/-- The weight of all pages that have an owner. -/
def owned (k : Kernel) (w : Ppn → Nat) : Nat :=
  k.mem.weigh w + ∑ q, (k.rooms q).held w + k.pipeWeight w

theorem rooms_modify (k : Kernel) (p : Slot) (f : Proc → Proc) :
    (k.modify p f).rooms = Function.update k.rooms p (f (k.proc p)).room := by
  funext q
  by_cases h : q = p
  · subst h; simp [rooms]
  · simp [rooms, modify_proc_ne h, h]

theorem rooms_modify_same {f : Proc → Proc} (h : (f (k.proc p)).room = (k.proc p).room) :
    (k.modify p f).rooms = k.rooms := by
  rw [rooms_modify, h]
  exact Function.update_eq_self p k.rooms

theorem rooms_of_proc (h : k'.proc = k.proc) : k'.rooms = k.rooms := by
  funext q; simp [rooms, h]

theorem Wakes.rooms_eq (h : k.Wakes k') : k'.rooms = k.rooms :=
  funext fun q => (h.slot q).room_eq

/-- One room changed: what it gains, somebody else has lost. -/
theorem owned_update {r : Room} (h : k'.rooms = Function.update k.rooms p r) (w : Ppn → Nat) :
    k'.owned w + ((k.rooms p).held w + k.mem.weigh w + k.pipeWeight w) =
      k.owned w + (r.held w + k'.mem.weigh w + k'.pipeWeight w) := by
  have hchange := Weight.sum_change (g := fun q => (k'.rooms q).held w)
    (h := fun q => (k.rooms q).held w) p (fun q hq => by simp only [h, Function.update_of_ne hq])
  simp only [h, Function.update_self] at hchange
  simp only [owned, h]
  omega

/-! ## Balanced calls -/

/-- No room changed and no page was lost or doubled. -/
structure Balanced (k k' : Kernel) : Prop where
  rooms : k'.rooms = k.rooms
  kend : k'.mem.kend = k.mem.kend
  refcount : k'.mem.refcount = k.mem.refcount
  owned : ∀ w, k'.owned w = k.owned w

theorem Balanced.refl (k : Kernel) : k.Balanced k := ⟨rfl, rfl, rfl, fun _ => rfl⟩

theorem Balanced.trans (h : k.Balanced k') (h' : k'.Balanced k'') : k.Balanced k'' :=
  ⟨h'.rooms.trans h.rooms, h'.kend.trans h.kend, h'.refcount.trans h.refcount,
    fun w => (h'.owned w).trans (h.owned w)⟩

/-- The free list and the pipes exchange pages. -/
theorem Balanced.of_exchange (hrooms : k'.rooms = k.rooms) (hkend : k'.mem.kend = k.mem.kend)
    (href : k'.mem.refcount = k.mem.refcount)
    (hw : ∀ w, k'.mem.weigh w + k'.pipeWeight w = k.mem.weigh w + k.pipeWeight w) : k.Balanced k' := by
  refine ⟨hrooms, hkend, href, fun w => ?_⟩
  have := hw w
  simp only [Kernel.owned, hrooms]
  omega

theorem Balanced.of_samePages (hrooms : k'.rooms = k.rooms) (hmem : k.mem.SamePages k'.mem)
    (hpipes : k'.pipes = k.pipes) : k.Balanced k' :=
  .of_exchange hrooms hmem.kend hmem.refcount fun w => by
    rw [hmem.weigh, pipeWeight, pipeWeight, hpipes]

theorem Balanced.of_proc (hproc : k'.proc = k.proc) (hmem : k'.mem = k.mem) (hpipes : k'.pipes = k.pipes) :
    k.Balanced k' :=
  .of_samePages (rooms_of_proc hproc) (by rw [hmem]; exact ⟨rfl, rfl, rfl⟩) hpipes

theorem balanced_modify {f : Proc → Proc} (h : (f (k.proc p)).room = (k.proc p).room) :
    k.Balanced (k.modify p f) :=
  .of_samePages (rooms_modify_same h) ⟨rfl, rfl, rfl⟩ rfl

theorem balanced_mem {m : Mem} (h : k.mem.SamePages m) : k.Balanced { k with mem := m } :=
  .of_samePages rfl h rfl

theorem balanced_wakeup (k : Kernel) (me : Option Slot) (chan : Chan) : k.Balanced (k.wakeup me chan) :=
  .of_samePages (wakes_wakeup k me chan).rooms_eq ⟨rfl, rfl, rfl⟩ rfl

theorem balanced_wakeParent (k : Kernel) (p : Slot) : k.Balanced (k.wakeParent p) := by
  unfold wakeParent
  split
  · exact .refl k
  · exact balanced_wakeup _ _ _

theorem balanced_sleep (k : Kernel) (p : Slot) (chan : Chan) (at_ : Resume) :
    k.Balanced (k.sleep p chan at_) :=
  balanced_modify rfl

/-! ## Files -/

theorem filedup_balanced {f : FileIx} (h : k.filedup f = .ok k') : k.Balanced k' := by
  obtain ⟨ft, rfl⟩ := filedup_ok h
  exact .of_proc rfl rfl rfl

/-- Closing an end of a pipe keeps its page or frees it. -/
theorem pipeclose_balanced {me : Slot} {pg : Ppn} {writable : Bool}
    (h : k.pipeclose me pg writable = .ok k') : k.Balanced k' := by
  have hw := balanced_wakeup k (some me) (if writable then .pipeRead pg else .pipeWrite pg)
  simp only [pipeclose] at h
  generalize k.wakeup (some me) (if writable then .pipeRead pg else .pipeWrite pg) = k₁ at h hw
  split at h
  · cases h
    exact hw
  · rename_i pi hfind
    refine hw.trans ?_
    split at h
    · obtain ⟨m, hfree, h⟩ := Except.bind_ok_iff.1 h
      cases h
      refine .of_exchange rfl (Mem.kfree_kend hfree) (Mem.kfree_refcount hfree) fun w => ?_
      -- the pipe found is the one erased
      have hpg : pi.page = pg := by simpa using List.find?_some hfind
      have herase : Weight.ofList w (k₁.pipes.map Pipe.page) =
          w pg + Weight.ofList w ((k₁.pipes.eraseP fun pi => pi.page = pg).map Pipe.page) := by
        obtain ⟨as, bs, hsplit, hbefore⟩ := (List.find?_eq_some_iff_append.1 hfind).2
        have has : ∀ b ∈ as, ¬ (decide (b.page = pg)) = true := by
          intro b hb
          simpa using hbefore b hb
        rw [hsplit, List.eraseP_append_right _ has]
        simp [hpg]
        omega
      have := Mem.weigh_kfree hfree w
      simp only [pipeWeight]
      omega
    · cases h
      refine .of_exchange rfl rfl rfl fun w => ?_
      have hpages : ((k₁.pipes.map fun pi => if pi.page = pg then pi.close writable else pi).map Pipe.page)
          = k₁.pipes.map Pipe.page := by
        rw [List.map_map]
        refine List.map_congr_left fun pi _ => ?_
        simp only [Function.comp, Pipe.close]
        split <;> [skip; rfl]
        split <;> rfl
      simp only [pipeWeight, hpages]

theorem fileclose_balanced {me : Slot} {f : FileIx} (h : k.fileclose me f = .ok k') : k.Balanced k' := by
  simp only [fileclose] at h
  split at h
  · cases h
  · split at h
    · cases h
      exact .of_proc rfl rfl rfl
    · split at h
      · refine Balanced.trans ?_ (pipeclose_balanced h)
        exact .of_proc rfl rfl rfl
      all_goals
        cases h
        exact .of_proc rfl rfl rfl

theorem fdalloc_balanced {f : FileIx} {fd : Option (Fin nofile)} (h : k.fdalloc p f = (fd, k')) :
    k.Balanced k' := by
  unfold fdalloc at h
  split at h
  · cases h
    exact .refl _
  · cases h
    exact balanced_modify rfl

theorem filealloc_balanced {f : Option FileIx} (h : k.filealloc = (f, k')) : k.Balanced k' := by
  unfold filealloc at h
  split at h <;> (cases h; exact .of_proc rfl rfl rfl)

theorem balanced_clearFd (k : Kernel) (p : Slot) (fd : Fin nofile) : k.Balanced (k.clearFd p fd) :=
  balanced_modify rfl

theorem closeFiles_balanced (h : k.closeFiles p = .ok k') : k.Balanced k' := by
  refine Except.foldlM_invariant (P := fun k' => k.Balanced k') ?_ (.refl k) h
  intro fd _ k₁ k₂ hb hbody
  unfold closeFd at hbody
  split at hbody
  · cases hbody
    exact hb
  · obtain ⟨k₃, hclose, hbody⟩ := Except.bind_ok_iff.1 hbody
    cases hbody
    exact (hb.trans (fileclose_balanced hclose)).trans (balanced_modify rfl)

/-! ## Descriptor calls -/

theorem sysOpen_balanced {ip : InodeIx} {device r w : Bool} {v : Int}
    (h : k.sysOpen p ip device r w = .ok (v, k')) : k.Balanced k' := by
  simp only [sysOpen] at h
  have hdup : k.Balanced (k.idup ip) := .of_proc rfl rfl rfl
  split at h
  · rename_i k₁ halloc
    cases h
    exact (hdup.trans (filealloc_balanced halloc)).trans (.of_proc rfl rfl rfl)
  · rename_i f k₁ halloc
    have h₁ := hdup.trans (filealloc_balanced halloc)
    split at h
    · rename_i k₂ hfd
      obtain ⟨k₃, hclose, h⟩ := Except.bind_ok_iff.1 h
      cases h
      exact ((h₁.trans (fdalloc_balanced hfd)).trans (fileclose_balanced hclose)).trans (.of_proc rfl rfl rfl)
    · rename_i fd k₂ hfd
      cases h
      exact (h₁.trans (fdalloc_balanced hfd)).trans (.of_proc rfl rfl rfl)

theorem sysDup_balanced {fd v : Int} (h : k.sysDup p fd = .ok (v, k')) : k.Balanced k' := by
  unfold sysDup at h
  split at h
  · cases h
    exact .refl _
  · split at h
    · rename_i hfd
      cases h
      exact fdalloc_balanced hfd
    · rename_i hfd
      obtain ⟨k₂, hdup, h⟩ := Except.bind_ok_iff.1 h
      cases h
      exact (fdalloc_balanced hfd).trans (filedup_balanced hdup)

theorem sysClose_balanced {fd v : Int} (h : k.sysClose p fd = .ok (v, k')) : k.Balanced k' := by
  unfold sysClose at h
  split at h
  · cases h
    exact .refl _
  · obtain ⟨k₁, hclose, h⟩ := Except.bind_ok_iff.1 h
    cases h
    exact (balanced_clearFd _ _ _).trans (fileclose_balanced hclose)

theorem pipealloc_balanced {fs : Option (FileIx × FileIx)} (h : k.pipealloc p = .ok (fs, k')) :
    k.Balanced k' := by
  unfold pipealloc at h
  split at h
  · rename_i h₁
    cases h
    exact filealloc_balanced h₁
  rename_i f₀ k₁ h₁
  have hb₁ := filealloc_balanced h₁
  split at h
  · rename_i k₂ h₂
    obtain ⟨k₃, hclose, h⟩ := Except.bind_ok_iff.1 h
    cases h
    exact (hb₁.trans (filealloc_balanced h₂)).trans (fileclose_balanced hclose)
  rename_i f₁ k₂ h₂
  have hb₂ := hb₁.trans (filealloc_balanced h₂)
  split at h
  · rename_i m hk
    obtain ⟨k₃, hclose, h⟩ := Except.bind_ok_iff.1 h
    obtain ⟨k₄, hclose', h⟩ := Except.bind_ok_iff.1 h
    cases h
    obtain ⟨-, rfl⟩ := Mem.kalloc_none hk
    exact (hb₂.trans (fileclose_balanced hclose)).trans (fileclose_balanced hclose')
  · rename_i pg m hk
    cases h
    refine hb₂.trans (.of_exchange rfl (Mem.kalloc_kend hk) (Mem.kalloc_refcount hk) fun w => ?_)
    have := Mem.weigh_kalloc hk w
    simp only [pipeWeight, modifyFile, List.map_cons, Weight.ofList_cons]
    omega

theorem undoPipe_balanced {rf wf : FileIx} {v : Int} (h : k.undoPipe p rf wf = .ok (v, k')) :
    k.Balanced k' := by
  obtain ⟨k₁, hclose, h⟩ := Except.bind_ok_iff.1 h
  obtain ⟨k₂, hclose', h⟩ := Except.bind_ok_iff.1 h
  cases h
  exact (fileclose_balanced hclose).trans (fileclose_balanced hclose')

theorem copyFds_samePages {pt : PageTable} {addr : Nat} {fd₀ fd₁ : Fin nofile} {m m' : Mem} {b : Bool}
    (h : copyFds m pt addr fd₀ fd₁ = (b, m')) : m.SamePages m' := by
  unfold copyFds at h
  split at h
  · rename_i hc
    cases h
    exact copyout_samePages hc
  · rename_i hc
    exact (copyout_samePages hc).trans (copyout_samePages h)

theorem sysPipe_balanced {addr : Nat} {v : Int} (h : k.sysPipe p addr = .ok (v, k')) : k.Balanced k' := by
  unfold sysPipe at h
  obtain ⟨⟨fs, k₁⟩, halloc, h⟩ := Except.bind_ok_iff.1 h
  have hb₁ := pipealloc_balanced halloc
  split at h
  · rename_i heq
    cases heq
    cases h
    exact hb₁
  rename_i rf wf k₁' heq
  cases heq
  split at h
  · rename_i hfd
    exact (hb₁.trans (fdalloc_balanced hfd)).trans (undoPipe_balanced h)
  rename_i fd₀ k₂ hfd
  have hb₂ := hb₁.trans (fdalloc_balanced hfd)
  split at h
  · rename_i hfd'
    exact ((hb₂.trans (fdalloc_balanced hfd')).trans (balanced_clearFd _ _ _)).trans (undoPipe_balanced h)
  rename_i fd₁ k₃ hfd'
  have hb₃ := hb₂.trans (fdalloc_balanced hfd')
  split at h
  · cases h
  split at h
  · rename_i hc
    cases h
    exact hb₃.trans (balanced_mem (copyFds_samePages hc))
  · rename_i hc
    exact (((hb₃.trans (balanced_mem (copyFds_samePages hc))).trans (balanced_clearFd _ _ _)).trans
      (balanced_clearFd _ _ _)).trans (undoPipe_balanced h)

theorem sysChdir_balanced {ip : InodeIx} {v : Int} (h : k.sysChdir p ip = .ok (v, k')) : k.Balanced k' := by
  unfold sysChdir at h
  split at h
  · cases h
  · rename_i old _
    cases h
    have hiref : k.Balanced ((k.idup ip).iput old) := .of_proc rfl rfl rfl
    exact hiref.trans (balanced_modify rfl)

end Kernel

end Xv6
