-- SUMMARY: In every reachable state the free list holds pages that kfree accepts.
import Xv6Threads.Memory.Range
import Xv6Threads.Process.Sharing

/-!
# The range of the allocator, over whole runs

No call puts a page on the free list except through `kfree`. So in every state
of every run `kfree` takes back what `kalloc` has just given.
-/

namespace Xv6

open PageTable

variable {m₀ m m' : Mem} {k k' : Kernel} {p q np L : Slot}

/-! ## Tables of a process -/

theorem procPagetable_recycles (h : m₀.Recycles m) (tramp tf : Ppn) :
    (procPagetable m tramp tf).Yields fun r => m₀.Recycles r.2 := by
  unfold procPagetable
  rcases hc : PageTable.uvmcreate m with ⟨o, m₁⟩
  have h₁ : m₀.Recycles m₁ := by
    unfold uvmcreate at hc
    split at hc
    · rename_i hk
      cases hc
      exact h.kalloc hk
    · rename_i hk
      cases hc
      exact (h.kalloc hk).memset _ _
  cases o with
  | none => exact Except.yields_ok h₁
  | some pt =>
    refine (mappages_recycles h₁ _ _ _ _ _).bind fun ⟨mapped, m₂, pt₂⟩ h₂ => ?_
    dsimp only
    split
    · exact (uvmfree_recycles h₂ _ _).bind fun _ h₃ => Except.yields_ok h₃
    · refine (mappages_recycles h₂ _ _ _ _ _).bind fun ⟨mapped, m₃, pt₃⟩ h₃ => ?_
      dsimp only
      split
      · refine (uvmunmap_recycles h₃ _ _ _ _).bind fun ⟨m₄, pt₄⟩ h₄ => ?_
        exact (uvmfree_recycles (m := m₄) h₄ _ _).bind fun _ h₅ => Except.yields_ok h₅
      · exact Except.yields_ok h₃

theorem procFreepagetableWith_recycles (release : Bool) (h : m₀.Recycles m) (pt : PageTable) (sz : Nat) :
    (procFreepagetableWith (uvmfreeWith (dropUserPage release)) m pt sz).Yields m₀.Recycles := by
  refine (uvmunmap_recycles h _ _ _ _).bind fun ⟨m₁, pt₁⟩ h₁ => ?_
  refine (uvmunmap_recycles (m := m₁) h₁ _ _ _ _).bind fun ⟨m₂, pt₂⟩ h₂ => ?_
  exact uvmfreeWith_recycles release (m := m₂) h₂ _ _

namespace Kernel

/-! ## Slots -/

theorem freeTrapframe_recycles (h : m₀.Recycles m) (pr : Proc) : (freeTrapframe m pr).Yields m₀.Recycles := by
  unfold freeTrapframe
  split
  · exact h.kfree _
  · exact Except.yields_ok h

theorem freeMember_recycles (h : m₀.Recycles k.mem) (q : Slot) :
    (k.freeMember q).Yields fun k' => m₀.Recycles k'.mem := by
  refine (freeTrapframe_recycles h _).bind fun m₁ h₁ => ?_
  refine Except.Yields.bind (P := m₀.Recycles) ?_ fun m₂ h₂ => Except.yields_ok h₂
  unfold freeTableThread
  split
  · exact procFreepagetableWith_recycles false h₁ _ _
  · exact Except.yields_ok h₁

theorem freeMembers_recycles (p : Slot) (n : Nat) (o : Option Slot) (h : m₀.Recycles k.mem) :
    (freeMembers p n o k).Yields fun k' => m₀.Recycles k'.mem := by
  induction n generalizing o k with
  | zero => exact Except.yields_error
  | succ n ih =>
    cases o with
    | none => exact Except.yields_error
    | some q =>
      rw [freeMembers]
      split
      · exact Except.yields_ok h
      · exact (freeMember_recycles h q).bind fun k₁ h₁ => ih _ h₁

theorem freeSelf_recycles (h : m₀.Recycles k.mem) (p : Slot) :
    (k.freeSelf p).Yields fun k' => m₀.Recycles k'.mem :=
  (freeTrapframe_recycles h _).bind fun _ h₁ => Except.yields_ok h₁

theorem freeproc_recycles (h : m₀.Recycles k.mem) (p : Slot) :
    (k.freeproc p).Yields fun k' => m₀.Recycles k'.mem := by
  unfold freeproc
  split
  · exact freeSelf_recycles h p
  · rename_i L hL
    have hdrop : m₀.Recycles (k.dropRef L).mem := h
    dsimp only
    split
    · exact Except.yields_error
    · split
      · exact Except.yields_ok hdrop
      · exact (freeMembers_recycles p _ _ hdrop).bind fun k₁ h₁ => freeSelf_recycles h₁ p

theorem allocproc_recycles (h : m₀.Recycles k.mem) : (k.allocproc).Yields fun r => m₀.Recycles r.2.mem := by
  rintro ⟨o, k'⟩ halloc
  cases o with
  | none =>
    rcases allocproc_none halloc with ⟨-, rfl⟩ | ⟨p, m, -, hk | ⟨tf, m₁, m₂, hk, hpt, hfree⟩, rfl⟩
    · exact h
    · exact h.kalloc hk
    · exact (procPagetable_recycles (h.kalloc hk) _ _ _ hpt).kfree tf _ hfree
  | some p =>
    obtain ⟨-, tf, m, pt, m', hk, hpt, rfl⟩ := allocproc_some halloc
    exact procPagetable_recycles (h.kalloc hk) _ _ _ hpt

theorem userinit_recycles (h : m₀.Recycles k.mem) (root : InodeIx) :
    (k.userinit root).Yields fun k' => m₀.Recycles k'.mem := by
  intro k' hinit
  obtain ⟨p, k₁, pt, tf, f, m, b, m', pt', halloc, -, -, hk, hmap, ir, regs, rfl⟩ := userinit_ok hinit
  have h₁ := (allocproc_recycles h _ halloc).kalloc hk
  exact mappages_recycles (h₁.memset f 0) _ _ _ _ _ _ hmap

theorem fork_recycles (h : m₀.Recycles k.mem) (p : Slot) : (k.fork p).Yields fun r => m₀.Recycles r.2.mem := by
  rintro ⟨r, k'⟩ hfork
  rcases fork_ok hfork with halloc | ⟨np, k₁, old, new, m, new', halloc, -, -, ⟨hcopy, hfree⟩ | ⟨hcopy, hrest⟩⟩
  · exact allocproc_recycles h _ halloc
  · have h₂ := uvmcopyLoop_recycles _ _ (allocproc_recycles h _ halloc) _ _ _ hcopy
    exact freeproc_recycles h₂ np _ hfree
  · have h₂ := uvmcopyLoop_recycles _ _ (allocproc_recycles h _ halloc) _ _ _ hcopy
    obtain ⟨ntf, regs, ft, ir, files, cwd, name, -, rfl⟩ := hrest
    exact h₂

/-! ## Groups -/

theorem mapInto_recycles (h : m₀.Recycles k.mem) (q : Slot) (va : Nat) (pa : Ppn) (perm : Perm) :
    (k.mapInto q va pa perm).Yields fun r => m₀.Recycles r.2.mem := by
  unfold mapInto
  split
  · exact Except.yields_error
  · exact (mappages_recycles h _ _ _ _ _).bind fun _ h₁ => Except.yields_ok h₁

theorem unmapFrom_recycles (h : m₀.Recycles k.mem) (q : Slot) (va : Nat) :
    (k.unmapFrom q va).Yields fun k' => m₀.Recycles k'.mem := by
  unfold unmapFrom
  split
  · exact Except.yields_error
  · exact (uvmunmap_recycles h _ _ _ _).bind fun _ h₁ => Except.yields_ok h₁

theorem ringLoop_recycles {body : Kernel → Slot → Except Panic Kernel}
    (hb : ∀ k q, m₀.Recycles k.mem → (body k q).Yields fun k' => m₀.Recycles k'.mem) (n : Nat) (q : Slot)
    (h : m₀.Recycles k.mem) : (ringLoop L body n q k).Yields fun k' => m₀.Recycles k'.mem := by
  induction n generalizing k q with
  | zero => exact Except.yields_error
  | succ n ih =>
    refine (hb k q h).bind fun k₁ h₁ => ?_
    split
    · exact Except.yields_error
    · split
      · exact Except.yields_ok h₁
      · exact ih _ h₁

theorem growMembers_recycles (p L : Slot) (va : Nat) (pa : Ppn) (n : Nat) (q : Slot) (h : m₀.Recycles k.mem) :
    (growMembers p L va pa n q k).Yields fun r => m₀.Recycles r.2.mem := by
  induction n generalizing k q with
  | zero => exact Except.yields_error
  | succ n ih =>
    refine Except.Yields.bind (P := fun r => m₀.Recycles r.2.mem) ?_ fun ⟨mapped, k₁⟩ h₁ => ?_
    · unfold mapOther
      split
      · exact mapInto_recycles h _ _ _ _
      · exact Except.yields_ok h
    · dsimp only
      split
      · exact Except.yields_ok h₁
      · split
        · exact Except.yields_error
        · split
          · exact Except.yields_ok h₁
          · exact ih _ h₁

theorem growGroup_recycles (p L : Slot) (n va : Nat) (h : m₀.Recycles k.mem) :
    (growGroup p L n va k).Yields fun r => m₀.Recycles r.2.mem := by
  induction n generalizing k va with
  | zero => exact Except.yields_ok h
  | succ n ih =>
    rw [growGroup]
    split
    · exact Except.yields_error
    · refine Except.Yields.bind (P := fun _ => True) (fun _ _ => trivial) fun pa _ => ?_
      refine (growMembers_recycles p L va pa nproc L h).bind ?_
      rintro ⟨mapped, k₁⟩ h₁
      dsimp only
      split
      · exact Except.yields_ok h₁
      · exact ih _ h₁

theorem shrinkGroup_recycles (p L : Slot) (n va : Nat) (h : m₀.Recycles k.mem) :
    (shrinkGroup p L n va k).Yields fun k' => m₀.Recycles k'.mem := by
  induction n generalizing k va with
  | zero => exact Except.yields_ok h
  | succ n ih =>
    refine (ringLoop_recycles (fun k₁ q h₁ => ?_) nproc L h).bind fun k₁ h₁ => ih _ h₁
    split
    · exact unmapFrom_recycles h₁ q va
    · exact Except.yields_ok h₁

theorem setSize_recycles (h : m₀.Recycles k.mem) (p : Slot) (sz : Nat) :
    (k.setSize p sz).Yields fun k' => m₀.Recycles k'.mem := by
  unfold setSize
  split
  · exact Except.yields_ok h
  · refine ringLoop_recycles (fun k₁ q h₁ => ?_) nproc _ h
    exact Except.yields_ok h₁

theorem growproc_recycles (h : m₀.Recycles k.mem) (p : Slot) (n : Int) :
    (k.growproc p n).Yields fun r => m₀.Recycles r.2.mem := by
  unfold growproc
  dsimp only
  split
  · exact Except.yields_ok h
  · split
    · exact Except.yields_error
    · split
      · refine (uvmalloc_recycles h _ _ _ _).bind fun ⟨newsz, m₁, pt₁⟩ h₁ => ?_
        dsimp only
        split
        · exact Except.yields_ok h₁
        · refine Except.Yields.bind (P := fun r => m₀.Recycles r.2.mem) ?_ fun ⟨mapped, k₂⟩ h₂ => ?_
          · unfold growOthers
            split
            · exact Except.yields_ok h₁
            · exact growGroup_recycles _ _ _ _ h₁
          · dsimp only
            split
            · exact Except.yields_ok h₂
            · exact (setSize_recycles h₂ _ _).bind fun _ h₃ => Except.yields_ok h₃
      · refine (uvmdealloc_recycles h _ _ _).bind fun ⟨newsz, m₁, pt₁⟩ h₁ => ?_
        refine Except.Yields.bind (P := fun k' => m₀.Recycles k'.mem) ?_ fun k₂ h₂ => ?_
        · unfold shrinkOthers
          split
          · exact Except.yields_ok h₁
          · exact shrinkGroup_recycles _ _ _ _ h₁
        · exact (setSize_recycles h₂ _ _).bind fun _ h₃ => Except.yields_ok h₃

theorem sbrk_recycles (h : m₀.Recycles k.mem) (p : Slot) (n : Int) :
    (k.sbrk p n).Yields fun r => m₀.Recycles r.2.mem := by
  refine (growproc_recycles h p n).bind fun ⟨r, k₁⟩ h₁ => ?_
  dsimp only
  split <;> exact Except.yields_ok h₁

theorem mapStack_recycles (curr : Nat) (stack : Ppn) (h : m₀.Recycles k.mem) (q : Slot) :
    (mapStack curr stack k q).Yields fun k' => m₀.Recycles k'.mem := by
  have hsize : m₀.Recycles (k.modify q fun pr => { pr with sz := curr + pgSize }).mem := h
  exact (mapInto_recycles hsize q curr stack permUser).bind fun _ h₁ => Except.yields_ok h₁

theorem threadCreate_recycles (h : m₀.Recycles k.mem) (p : Slot) (start arg : Nat) :
    (k.threadCreate p start arg).Yields fun r => m₀.Recycles r.2.mem := by
  rintro ⟨r, k'⟩ hcreate
  rcases threadCreate_ok hcreate with halloc | ⟨np, k₁, k₂, pt, npt, b, m, npt', halloc, henter, -, -, hshare, hend⟩
  · exact allocproc_recycles h _ halloc
  have h₂ : m₀.Recycles k₂.mem := by
    rw [enterGroup_mem henter, foundGroup_mem]
    exact allocproc_recycles h _ halloc
  have h₃ := uvmshareLoop_recycles _ _ h₂ _ _ _ hshare
  rcases hend with ⟨m', hk, hleave⟩ | ⟨stack, m', k₃, hk, hloop, hstart⟩
  · show m₀.Recycles k'.mem
    rw [leaveGroup_mem hleave]
    exact h₃.kalloc hk
  · have hloop := ringLoop_recycles (fun _ q h₁ => mapStack_recycles (k₂.proc p).sz stack h₁ q) nproc _
      ((h₃.kalloc hk).memset stack 0) _ hloop
    obtain ⟨ntf, regs, ft, ir, files, cwd, -, rfl⟩ := startThread_ok hstart
    exact hloop

/-! ## Files -/

theorem pipeclose_recycles (h : m₀.Recycles k.mem) (p : Slot) (pg : Ppn) (w : Bool) :
    (k.pipeclose p pg w).Yields fun k' => m₀.Recycles k'.mem := by
  have hwake : m₀.Recycles (k.wakeup (some p) (if w then .pipeRead pg else .pipeWrite pg)).mem := h
  unfold pipeclose
  dsimp only
  split
  · exact Except.yields_ok hwake
  · split
    · exact (hwake.kfree pg).bind fun _ h₁ => Except.yields_ok h₁
    · exact Except.yields_ok hwake

theorem fileclose_recycles (h : m₀.Recycles k.mem) (p : Slot) (f : FileIx) :
    (k.fileclose p f).Yields fun k' => m₀.Recycles k'.mem := by
  unfold fileclose
  dsimp only
  split
  · exact Except.yields_error
  · split
    · exact Except.yields_ok h
    · have hcleared : m₀.Recycles (k.modifyFile f fun fl => { fl with ref := 0, type := .none }).mem := h
      split
      · exact pipeclose_recycles hcleared p _ _
      · exact Except.yields_ok h
      · exact Except.yields_ok h
      · exact Except.yields_ok h

theorem closeFiles_recycles (h : m₀.Recycles k.mem) (p : Slot) :
    (k.closeFiles p).Yields fun k' => m₀.Recycles k'.mem := by
  refine Except.Yields.foldlM (fun k₁ fd h₁ => ?_) (List.finRange nofile) h
  unfold closeFd
  split
  · exact Except.yields_ok h₁
  · exact (fileclose_recycles h₁ p _).bind fun _ h₂ => Except.yields_ok h₂

theorem filealloc_mem {o : Option FileIx} (h : k.filealloc = (o, k')) : k'.mem = k.mem := by
  unfold filealloc at h
  split at h
  · cases h
    rfl
  · cases h
    rfl

theorem fdalloc_mem {f : FileIx} {o : Option (Fin nofile)} (h : k.fdalloc p f = (o, k')) : k'.mem = k.mem := by
  unfold fdalloc at h
  split at h
  · cases h
    rfl
  · cases h
    rfl

theorem sysOpen_recycles (h : m₀.Recycles k.mem) (p : Slot) (ip : InodeIx) (device rd wr : Bool) :
    (k.sysOpen p ip device rd wr).Yields fun r => m₀.Recycles r.2.mem := by
  unfold sysOpen
  dsimp only
  split
  · rename_i hf
    have h₁ : m₀.Recycles _ := (filealloc_mem hf).symm ▸ h
    exact Except.yields_ok h₁
  · rename_i f k₁ hf
    have h₁ : m₀.Recycles k₁.mem := (filealloc_mem hf).symm ▸ h
    split
    · rename_i k₂ hfd
      have h₂ : m₀.Recycles k₂.mem := (fdalloc_mem hfd).symm ▸ h₁
      exact (fileclose_recycles h₂ p f).bind fun _ h₃ => Except.yields_ok h₃
    · rename_i fd k₂ hfd
      have h₂ : m₀.Recycles k₂.mem := (fdalloc_mem hfd).symm ▸ h₁
      exact Except.yields_ok h₂

theorem sysDup_recycles (h : m₀.Recycles k.mem) (p : Slot) (fd : Int) :
    (k.sysDup p fd).Yields fun r => m₀.Recycles r.2.mem := by
  unfold sysDup
  split
  · exact Except.yields_ok h
  · split
    · rename_i k₁ hfd
      have h₁ : m₀.Recycles k₁.mem := (fdalloc_mem hfd).symm ▸ h
      exact Except.yields_ok h₁
    · rename_i fd' k₁ hfd
      have h₁ : m₀.Recycles k₁.mem := (fdalloc_mem hfd).symm ▸ h
      refine Except.Yields.bind (P := fun k' => m₀.Recycles k'.mem) ?_ fun _ h₂ => Except.yields_ok h₂
      intro k₂ hdup
      obtain ⟨ft, rfl⟩ := filedup_ok hdup
      exact h₁

theorem sysClose_recycles (h : m₀.Recycles k.mem) (p : Slot) (fd : Int) :
    (k.sysClose p fd).Yields fun r => m₀.Recycles r.2.mem := by
  unfold sysClose
  split
  · exact Except.yields_ok h
  · rename_i fd' f hfd
    have h₁ : m₀.Recycles (k.clearFd p fd').mem := h
    exact (fileclose_recycles h₁ p f).bind fun _ h₂ => Except.yields_ok h₂

theorem pipealloc_recycles (h : m₀.Recycles k.mem) (p : Slot) :
    (k.pipealloc p).Yields fun r => m₀.Recycles r.2.mem := by
  unfold pipealloc
  split
  · rename_i k₁ hf
    have h₁ : m₀.Recycles k₁.mem := (filealloc_mem hf).symm ▸ h
    exact Except.yields_ok h₁
  · rename_i f₀ k₁ hf
    have h₁ : m₀.Recycles k₁.mem := (filealloc_mem hf).symm ▸ h
    split
    · rename_i k₂ hf'
      have h₂ : m₀.Recycles k₂.mem := (filealloc_mem hf').symm ▸ h₁
      exact (fileclose_recycles h₂ p f₀).bind fun _ h₃ => Except.yields_ok h₃
    · rename_i f₁ k₂ hf'
      have h₂ : m₀.Recycles k₂.mem := (filealloc_mem hf').symm ▸ h₁
      split
      · rename_i m hk
        have h₃ : m₀.Recycles ({ k₂ with mem := m } : Kernel).mem := h₂.kalloc hk
        refine (fileclose_recycles h₃ p f₀).bind fun k₄ h₄ => ?_
        exact (fileclose_recycles h₄ p f₁).bind fun _ h₅ => Except.yields_ok h₅
      · rename_i pg m hk
        exact Except.yields_ok (h₂.kalloc hk)

theorem undoPipe_recycles (h : m₀.Recycles k.mem) (p : Slot) (rf wf : FileIx) :
    (k.undoPipe p rf wf).Yields fun r => m₀.Recycles r.2.mem := by
  refine (fileclose_recycles h p rf).bind fun k₁ h₁ => ?_
  exact (fileclose_recycles h₁ p wf).bind fun _ h₂ => Except.yields_ok h₂

theorem sysPipe_recycles (h : m₀.Recycles k.mem) (p : Slot) (addr : Nat) :
    (k.sysPipe p addr).Yields fun r => m₀.Recycles r.2.mem := by
  refine (pipealloc_recycles h p).bind fun ⟨o, k₁⟩ h₁ => ?_
  cases o with
  | none => exact Except.yields_ok h₁
  | some files =>
    obtain ⟨rf, wf⟩ := files
    dsimp only
    split
    · rename_i k₂ hfd
      have h₂ : m₀.Recycles k₂.mem := (fdalloc_mem hfd).symm ▸ h₁
      exact undoPipe_recycles h₂ p rf wf
    · rename_i fd₀ k₂ hfd
      have h₂ : m₀.Recycles k₂.mem := (fdalloc_mem hfd).symm ▸ h₁
      split
      · rename_i k₃ hfd'
        have h₃ : m₀.Recycles (k₃.clearFd p fd₀).mem := by
          show m₀.Recycles k₃.mem
          exact (fdalloc_mem hfd').symm ▸ h₂
        exact undoPipe_recycles h₃ p rf wf
      · rename_i fd₁ k₃ hfd'
        have h₃ : m₀.Recycles k₃.mem := (fdalloc_mem hfd').symm ▸ h₂
        split
        · exact Except.yields_error
        · split
          · rename_i m hc
            have hsame := copyFds_samePages hc
            exact Except.yields_ok (h₃.keep hsame.kend hsame.freelist)
          · rename_i m hc
            have hsame := copyFds_samePages hc
            have h₄ : m₀.Recycles ((({ k₃ with mem := m } : Kernel).clearFd p fd₀).clearFd p fd₁).mem :=
              h₃.keep hsame.kend hsame.freelist
            exact undoPipe_recycles h₄ p rf wf

theorem sysChdir_recycles (h : m₀.Recycles k.mem) (p : Slot) (ip : InodeIx) :
    (k.sysChdir p ip).Yields fun r => m₀.Recycles r.2.mem := by
  unfold sysChdir
  split
  · exact Except.yields_error
  · exact Except.yields_ok h

/-! ## The end of a process -/

theorem exitProcess_recycles (h : m₀.Recycles k.mem) (p : Slot) (status : Int) :
    (k.exitProcess p status).Yields fun k' => m₀.Recycles k'.mem := by
  refine (closeFiles_recycles h p).bind fun k₁ h₁ => ?_
  have h₂ : m₀.Recycles ((k₁.dropCwd p).reparent p).mem := by
    rw [(reparent_frame _ _).1, (dropCwd_frame _ _).1]
    exact h₁
  refine Except.Yields.bind (P := fun k' => m₀.Recycles k'.mem) ?_ fun k₃ h₃ => Except.yields_ok ?_
  · unfold dropTable
    split
    · exact Except.yields_ok h₂
    · exact (procFreepagetableWith_recycles true h₂ _ _).bind fun _ h₃ => Except.yields_ok h₃
  · rw [(wakeParent_frame _ _).1]
    exact h₃

theorem threadExitThread_mem (k : Kernel) (p : Slot) : (k.threadExitThread p).mem = k.mem := by
  unfold threadExitThread
  rw [(wakeParent_frame _ _).1]
  rfl

theorem exit_recycles (h : m₀.Recycles k.mem) (p : Slot) (status : Int) :
    (k.exit p status).Yields fun k' => m₀.Recycles k'.mem := by
  unfold exit
  split
  · refine Except.yields_ok ?_
    rw [threadExitThread_mem]
    exact h
  · exact exitProcess_recycles h p status

theorem threadExit_recycles (h : m₀.Recycles k.mem) (p : Slot) :
    (k.threadExit p).Yields fun k' => m₀.Recycles k'.mem := exit_recycles h p (-1)

theorem wait_recycles (h : m₀.Recycles k.mem) (p : Slot) (addr : Nat) :
    (k.wait p addr).Yields fun r => m₀.Recycles r.2.mem := by
  rintro ⟨r, k'⟩ hwait
  rcases wait_ok hwait with rfl | rfl | ⟨pp, b, m, -, -, hkend, hfree, -, rfl | ⟨-, hfp⟩⟩
  · exact h
  · exact h
  · exact h.keep hkend hfree
  · exact freeproc_recycles (h.keep hkend hfree) pp _ hfp

theorem threadJoin_recycles (h : m₀.Recycles k.mem) (p : Slot) (tid : Int) :
    (k.threadJoin p tid).Yields fun r => m₀.Recycles r.2.mem := by
  rintro ⟨r, k'⟩ hjoin
  rcases threadJoin_ok hjoin with rfl | rfl | ⟨tp, -, hfp⟩
  · exact h
  · exact h
  · exact freeproc_recycles h tp _ hfp

end Kernel

/-! ## exec -/

theorem loadSegments_recycles (phs : List (Option Segment)) (h : m₀.Recycles m) (pt : PageTable) (sz : Nat) :
    (loadSegments phs m pt sz).Yields fun r => m₀.Recycles r.2.2.1 := by
  induction phs generalizing m pt sz with
  | nil => exact Except.yields_ok h
  | cons o phs ih =>
    cases o with
    | none => exact Except.yields_ok h
    | some ph =>
      rw [loadSegments]
      split
      · exact ih h _ _
      · split
        · exact Except.yields_ok h
        · split
          · exact Except.yields_ok h
          · split
            · exact Except.yields_ok h
            · refine (uvmalloc_recycles h _ _ _ _).bind ?_
              rintro ⟨sz₁, m₁, pt₁⟩ h₁
              dsimp only
              split
              · exact Except.yields_ok h₁
              · refine Except.Yields.bind (P := fun r => m₀.Recycles r.2) ?_ ?_
                · rintro ⟨b, m₂⟩ hload
                  have hsame := loadsegLoop_samePages hload
                  exact h₁.keep hsame.kend hsame.freelist
                · rintro ⟨loaded, m₂⟩ h₂
                  dsimp only
                  split
                  · exact Except.yields_ok h₂
                  · exact ih h₂ _ _

theorem buildStack_recycles (h : m₀.Recycles m) (pt : PageTable) (sz : Nat) (argv : List (List UInt8)) :
    (buildStack m pt sz argv).Yields fun r => m₀.Recycles r.2.2.1 := by
  refine (uvmalloc_recycles h _ _ _ _).bind fun ⟨sz₁, m₁, pt₁⟩ h₁ => ?_
  dsimp only
  split
  · exact Except.yields_ok h₁
  · refine Except.Yields.bind (P := fun _ => True) (fun _ _ => trivial) fun pt₂ _ => ?_
    split
    · rename_i m₂ hp
      have hsame := pushArgs_samePages hp
      exact Except.yields_ok (h₁.keep hsame.kend hsame.freelist)
    · rename_i sp ustack m₂ hp
      have hsame := pushArgs_samePages hp
      have h₂ := h₁.keep hsame.kend hsame.freelist
      split
      · exact Except.yields_ok h₂
      · split
        · rename_i m₃ hc
          have hsame' := copyout_samePages hc
          exact Except.yields_ok (h₂.keep hsame'.kend hsame'.freelist)
        · rename_i m₃ hc
          have hsame' := copyout_samePages hc
          exact Except.yields_ok (h₂.keep hsame'.kend hsame'.freelist)

namespace Kernel

theorem exec_recycles (h : m₀.Recycles k.mem) (p : Slot) (path : String) (file : Option Image)
    (argv : List (List UInt8)) : (k.exec p path file argv).Yields fun r => m₀.Recycles r.2.mem := by
  have hbad : ∀ {m : Mem}, m₀.Recycles m → ∀ pt sz, (k.execBad m pt sz).Yields fun r => m₀.Recycles r.2.mem :=
    fun h₁ pt sz => (procFreepagetableWith_recycles true h₁ pt sz).bind fun _ h₂ => Except.yields_ok h₂
  unfold exec
  split
  · exact Except.yields_ok h
  · split
    · exact Except.yields_ok h
    · split
      · refine (procPagetable_recycles h _ _).bind fun ⟨o, m₁⟩ h₁ => ?_
        cases o with
        | none => exact Except.yields_ok h₁
        | some pt =>
          refine (loadSegments_recycles _ (m := m₁) h₁ _ _).bind fun ⟨loaded, sz, m₂, pt₂⟩ h₂ => ?_
          dsimp only
          split
          · exact hbad h₂ _ _
          · refine (buildStack_recycles (m := m₂) h₂ _ _ _).bind fun ⟨o, sz₃, m₃, pt₃⟩ h₃ => ?_
            cases o with
            | none => exact hbad (m := m₃) h₃ _ _
            | some sp =>
              exact (procFreepagetableWith_recycles true (m := m₃) h₃ _ _).bind fun _ h₄ => Except.yields_ok h₄
      · exact Except.yields_error

/-! ## Every step -/

theorem returns_recycles {x : Except Panic (Int × Kernel)} (h : x.Yields fun r => m₀.Recycles r.2.mem) :
    (returns x).Yields fun r => m₀.Recycles r.2.mem := h.bind fun _ h₁ => Except.yields_ok h₁

theorem noReturn_recycles {x : Except Panic Kernel} (h : x.Yields fun k' => m₀.Recycles k'.mem) :
    (noReturn x).Yields fun r => m₀.Recycles r.2.mem := h.bind fun _ h₁ => Except.yields_ok h₁

theorem kill_mem (k : Kernel) (pid : Int) : (k.kill pid).2.mem = k.mem := by
  unfold kill
  split <;> rfl

theorem syscall_recycles (h : m₀.Recycles k.mem) (p : Slot) (c : Call) :
    (k.syscall p c).Yields fun r => m₀.Recycles r.2.mem := by
  cases c with
  | fork => exact returns_recycles (fork_recycles h p)
  | exec path file argv => exact returns_recycles (exec_recycles h p path file argv)
  | sbrk n => exact returns_recycles (sbrk_recycles h p _)
  | threadCreate start arg => exact returns_recycles (threadCreate_recycles h p start arg)
  | threadExit => exact noReturn_recycles (threadExit_recycles h p)
  | threadJoin tid => exact threadJoin_recycles h p tid
  | exit status => exact noReturn_recycles (exit_recycles h p status)
  | wait addr => exact wait_recycles h p addr
  | kill pid =>
    refine Except.yields_ok ?_
    show m₀.Recycles (k.kill pid).2.mem
    rw [kill_mem]
    exact h
  | «open» ip device rd wr => exact returns_recycles (sysOpen_recycles h p ip device rd wr)
  | dup fd => exact returns_recycles (sysDup_recycles h p fd)
  | close fd => exact returns_recycles (sysClose_recycles h p fd)
  | pipe fdarray => exact returns_recycles (sysPipe_recycles h p fdarray)
  | chdir ip => exact returns_recycles (sysChdir_recycles h p ip)

theorem step_recycles (h : m₀.Recycles k.mem) (e : Event) : (k.step e).Yields fun r => m₀.Recycles r.2.mem := by
  cases e with
  | schedule p =>
    have hswitch : m₀.Recycles (k.modify p fun pr =>
      { pr with state := .running, chan := none, resume := .user }).mem := h
    unfold step resume
    dsimp only
    split
    · exact Except.yields_ok h
    · exact Except.yields_ok h
    · exact wait_recycles hswitch p _
    · exact threadJoin_recycles hswitch p _
  | yield p => exact Except.yields_ok h
  | call p c => exact syscall_recycles h p c
  | block p n => exact Except.yields_ok h
  | unblock n => exact Except.yields_ok h
  | fault p => exact Except.yields_ok h
  | die p => exact noReturn_recycles (exit_recycles h p _)

end Kernel

theorem Boot.procinit_ranged (b : Boot) : b.procinit.mem.Ranged := by
  intro f hf
  have hin : f ∈ Mem.kinit b.kend := List.mem_of_mem_drop hf
  obtain ⟨hlo, hhi⟩ := Mem.mem_freerange.1 hin
  rw [Nat.add_sub_cancel' b.kend_le] at hhi
  exact ⟨hlo, hhi⟩

/-- Whatever the calls and their order, the free list stays within the range. -/
theorem ranged_of_reaches {b : Boot} {k : Kernel} (h : Reachable b k) : k.mem.Ranged := by
  refine Lts.Reaches.invariant (P := fun k => k.mem.Ranged) ?_ ?_ h
  · intro k hk
    exact b.procinit_ranged.of_recycles (Kernel.userinit_recycles (.refl _) b.root k hk)
  · rintro k e k' hr - ⟨-, r, hstep⟩
    exact hr.of_recycles (Kernel.step_recycles (.refl _) e _ hstep)

end Xv6
