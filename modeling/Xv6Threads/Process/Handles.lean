-- SUMMARY: What the calls do to open files, current directories and pipes.
import Xv6Threads.Process.Files
import Xv6Threads.Process.Calm

/-!
# Handles

The file layer of a kernel state is its `desk`. The calls on memory, groups and
states leave it alone; each descriptor call starts and ends with nothing owed;
`fork` and `thread_create` copy the handles of the caller, and the exit of a
process drops all it has.
-/

namespace Xv6

namespace Kernel

variable {k k' : Kernel} {p q np L : Slot}

/-- The file layer. -/
def desk (k : Kernel) : Desk where
  ofile a := (k.proc a.1).ofile a.2
  cwd q := (k.proc q).cwd
  ftable := k.ftable
  pipes := k.pipes
  iref := k.iref

@[simp] theorem desk_ofile (k : Kernel) (q : Slot) (fd : Fin nofile) :
    k.desk.ofile (q, fd) = (k.proc q).ofile fd := rfl
@[simp] theorem desk_cwd (k : Kernel) (q : Slot) : k.desk.cwd q = (k.proc q).cwd := rfl
@[simp] theorem desk_ftable (k : Kernel) : k.desk.ftable = k.ftable := rfl
@[simp] theorem desk_pipes (k : Kernel) : k.desk.pipes = k.pipes := rfl

theorem desk_congr (hs : ∀ q, (k'.proc q).ofile = (k.proc q).ofile ∧ (k'.proc q).cwd = (k.proc q).cwd)
    (hf : k'.ftable = k.ftable) (hp : k'.pipes = k.pipes) (hi : k'.iref = k.iref) : k'.desk = k.desk := by
  unfold desk
  simp only [Desk.mk.injEq]
  exact ⟨funext fun a => congrFun (hs a.1).1 a.2, funext fun q => (hs q).2, hf, hp, hi⟩

theorem desk_modify {f : Proc → Proc} (hf : ∀ pr, (f pr).ofile = pr.ofile ∧ (f pr).cwd = pr.cwd) :
    (k.modify p f).desk = k.desk := by
  refine desk_congr (fun q => ?_) rfl rfl rfl
  rw [modify_proc]
  split
  · exact hf _
  · exact ⟨rfl, rfl⟩

/-- One slot changes, and keeps its handles. -/
theorem desk_update {m : Mem} {n : Int} (pr : Proc) (ho : pr.ofile = (k.proc p).ofile)
    (hc : pr.cwd = (k.proc p).cwd) :
    desk { k with mem := m, nextpid := n, proc := Function.update k.proc p pr } = k.desk := by
  refine desk_congr (fun q => ?_) rfl rfl rfl
  by_cases hq : q = p
  · subst hq
    simp only [Function.update_self]
    exact ⟨ho, hc⟩
  · simp only [Function.update_of_ne hq, and_self]

theorem Remaps.desk (h : k.Remaps k') : k'.desk = k.desk := by
  refine desk_congr (fun q => ?_) (by rw [h.rest]) (by rw [h.rest]) (by rw [h.rest])
  obtain ⟨pt, sz, tf, name, hq⟩ := h.slot q
  rw [hq]
  exact ⟨rfl, rfl⟩

theorem desk_wakeup (k : Kernel) (me : Option Slot) (chan : Chan) : (k.wakeup me chan).desk = k.desk := by
  refine desk_congr (fun q => ?_) rfl rfl rfl
  simp only [wakeup]
  split <;> exact ⟨rfl, rfl⟩

theorem desk_wakeParent (k : Kernel) (p : Slot) : (k.wakeParent p).desk = k.desk := by
  unfold wakeParent
  split
  · rfl
  · exact desk_wakeup _ _ _

theorem desk_modifyFile (k : Kernel) (f : FileIx) (g : File → File) :
    (k.modifyFile f g).desk = k.desk.setFile f (g (k.desk.ftable f)) := by
  unfold modifyFile desk Desk.setFile
  simp only [Desk.mk.injEq, true_and, and_true]
  funext f'
  by_cases hf : f' = f
  · subst hf; simp
  · simp [hf]

theorem desk_addRef (k : Kernel) (ip : InodeIx) :
    (k.idup ip).desk = k.desk.addRef ip 1 ∧ (k.iput ip).desk = k.desk.addRef ip (-1) := by
  constructor
  all_goals
    unfold desk Desk.addRef
    simp only [idup, iput, Desk.mk.injEq, true_and]
    funext i
    by_cases hi : i = ip
    · subst hi; simp [Int.sub_eq_add_neg]
    · simp [hi]

theorem desk_setFd (k : Kernel) (p : Slot) (fd : Fin nofile) (o : Option FileIx) :
    (k.modify p fun pr => { pr with ofile := fun i => if i = fd then o else pr.ofile i }).desk =
      k.desk.setFd p fd o := by
  unfold desk Desk.setFd
  simp only [Desk.mk.injEq, modify_ftable, modify_pipes, modify_iref, and_true]
  constructor
  · funext ⟨q, i⟩
    simp only [modify_proc]
    by_cases hq : q = p
    · subst hq
      by_cases hi : i = fd
      · subst hi; simp
      · simp [hi, Function.update]
    · simp [hq, Function.update]
  · funext q
    simp only [modify_proc]
    split <;> rfl

theorem desk_modify_cwd {f : Proc → Proc} {o : Option InodeIx}
    (hf : ∀ pr, (f pr).ofile = pr.ofile ∧ (f pr).cwd = o) : (k.modify p f).desk = k.desk.setCwd p o := by
  unfold desk Desk.setCwd
  simp only [Desk.mk.injEq, modify_ftable, modify_pipes, modify_iref, and_true]
  constructor
  · funext ⟨q, i⟩
    simp only [modify_proc]
    split
    · rw [(hf _).1]
    · rfl
  · funext q
    by_cases hq : q = p
    · subst hq; simp [(hf _).2]
    · simp [modify_proc, hq]

theorem desk_setCwd (k : Kernel) (p : Slot) (o : Option InodeIx) :
    (k.modify p fun pr => { pr with cwd := o }).desk = k.desk.setCwd p o :=
  desk_modify_cwd fun _ => ⟨rfl, rfl⟩

/-! ## Files -/

theorem pipeclose_desk {pg : Ppn} {w : Bool} (h : k.pipeclose p pg w = .ok k') :
    k'.desk = k.desk.pipeclose pg w := by
  have hdesk := desk_wakeup k (some p) (if w then .pipeRead pg else .pipeWrite pg)
  unfold pipeclose at h
  dsimp only at h
  generalize hk₁ : k.wakeup (some p) (if w then .pipeRead pg else .pipeWrite pg) = k₁ at h hdesk
  have hpipes : k₁.pipes = k.pipes := by rw [← hk₁]; rfl
  rw [← hdesk]
  unfold Desk.pipeclose
  rw [desk_pipes]
  cases hfind : k₁.pipes.find? fun pi => pi.page = pg with
  | none =>
    rw [hfind] at h
    cases h
    rfl
  | some pi =>
    rw [hfind] at h
    dsimp only at h ⊢
    by_cases hclosed : (pi.close w).isClosed
    · rw [if_pos hclosed] at h ⊢
      obtain ⟨m, -, h⟩ := Except.bind_ok_iff.1 h
      cases h
      rfl
    · rw [if_neg hclosed] at h ⊢
      cases h
      rfl

theorem fileclose_desk {f : FileIx} (h : k.fileclose p f = .ok k') : k'.desk = k.desk.fileclose f := by
  simp only [fileclose] at h
  unfold Desk.fileclose
  rw [show k.desk.ftable f = k.ftable f from rfl]
  dsimp only
  split at h
  · cases h
  split at h
  · rename_i hpos
    cases h
    rw [if_pos hpos]
    exact desk_modifyFile _ _ _
  · rename_i hpos
    rw [if_neg hpos]
    have hset := desk_modifyFile k f fun fl => { fl with ref := 0, type := .none }
    generalize (k.modifyFile f fun fl => { fl with ref := 0, type := .none }) = k₁ at h hset
    cases htype : (k.ftable f).type with
    | pipe pg =>
      rw [htype] at h
      rw [pipeclose_desk h, hset]
      rfl
    | inode ip =>
      rw [htype] at h
      cases h
      rw [(desk_addRef _ _).2, hset]
      rfl
    | device ip =>
      rw [htype] at h
      cases h
      rw [(desk_addRef _ _).2, hset]
      rfl
    | none =>
      rw [htype] at h
      cases h
      rw [hset]
      rfl

theorem filealloc_desk {o : Option FileIx} (h : k.filealloc = (o, k')) :
    (o = none ∧ k' = k) ∨
      ∃ f, o = some f ∧ (k.desk.ftable f).ref = 0 ∧
        k'.desk = k.desk.setFile f { k.desk.ftable f with ref := (k.desk.ftable f).ref + 1 } := by
  unfold filealloc at h
  split at h
  · cases h
    exact .inl ⟨rfl, rfl⟩
  · rename_i f hfind
    cases h
    have href : (k.desk.ftable f).ref = 0 := by simpa using List.find?_some hfind
    refine .inr ⟨f, rfl, href, ?_⟩
    rw [desk_modifyFile, href]
    rfl

theorem fdalloc_desk {f : FileIx} {o : Option (Fin nofile)} (h : k.fdalloc p f = (o, k')) :
    (o = none ∧ k' = k) ∨
      ∃ fd, o = some fd ∧ k.desk.ofile (p, fd) = none ∧ k'.desk = k.desk.setFd p fd (some f) := by
  unfold fdalloc at h
  split at h
  · cases h
    exact .inl ⟨rfl, rfl⟩
  · rename_i fd hfind
    cases h
    exact .inr ⟨fd, rfl, by simpa using List.find?_some hfind, desk_setFd _ _ _ _⟩

theorem filedup_desk {f : FileIx} (h : k.filedup f = .ok k') :
    k'.desk = k.desk.setFile f { k.desk.ftable f with ref := (k.desk.ftable f).ref + 1 } := by
  unfold filedup at h
  split at h
  · cases h
  · cases h
    exact desk_modifyFile _ _ _

/-! ## Descriptor calls -/

open Desk

theorem sysOpen_desk {ip : InodeIx} {device r w : Bool} {v : Int} (hO : k.desk.Owes [] [])
    (h : k.sysOpen p ip device r w = .ok (v, k')) : k'.desk.Owes [] [] ∧ Steady p k.desk k'.desk := by
  simp only [sysOpen] at h
  have hO₁ := hO.idup ip
  have hS₁ := Steady.addRef k.desk p ip 1
  rw [← (desk_addRef k ip).1] at hO₁ hS₁
  generalize hk₁ : k.idup ip = k₁ at h hO₁ hS₁
  -- the reference to the inode goes back
  have hput : ∀ {k₂ : Kernel}, k₂.desk.Owes [] [ip] → Steady p k.desk k₂.desk →
      (k₂.iput ip).desk.Owes [] [] ∧ Steady p k.desk (k₂.iput ip).desk := by
    intro k₂ hO₂ hS₂
    rw [(desk_addRef k₂ ip).2]
    exact ⟨hO₂.iput, hS₂.trans (.addRef _ _ _ _)⟩
  generalize hfa : k₁.filealloc = fa at h
  obtain ⟨o, k₂⟩ := fa
  rcases filealloc_desk hfa with ⟨rfl, rfl⟩ | ⟨f, rfl, href, hD₂⟩
  · cases h
    exact hput hO₁ hS₁
  obtain ⟨hO₂, hS₂⟩ := hO₁.filedup (p := p) f
  rw [← hD₂] at hO₂ hS₂
  have hfree := hO₁.unheld href
  dsimp only at h
  generalize hfd : k₂.fdalloc p f = fa at h
  obtain ⟨o, k₃⟩ := fa
  rcases fdalloc_desk hfd with ⟨rfl, rfl⟩ | ⟨fd, rfl, hnone, hD₃⟩
  · obtain ⟨k₄, hclose, h⟩ := Except.bind_ok_iff.1 h
    cases h
    obtain ⟨hO₄, hS₄⟩ := hO₂.fileclose (p := p)
    rw [← fileclose_desk hclose] at hO₄ hS₄
    exact hput hO₄ ((hS₁.trans hS₂).trans hS₄)
  · cases h
    obtain ⟨hO₃, hS₃⟩ := hO₂.store hnone
    have hfile : k₃.desk.ftable f = { k₁.desk.ftable f with ref := 1 } := by
      have hr : (k₁.ftable f).ref = 0 := href
      rw [hD₃, hD₂]
      simp [Desk.setFile, Desk.setFd, hr]
    rw [← hD₃] at hO₃ hS₃
    rw [desk_modifyFile]
    refine ⟨hO₃.setInode ?_ ?_ ?_ ?_, ((hS₁.trans hS₂).trans hS₃).trans (.setFile fun q hq i hi => ?_)⟩
    · rw [hfile]
      exact hO₁.idle f href
    · rw [hfile]
      exact one_ne_zero
    · cases device <;> rfl
    · rfl
    · rw [hS₃.ofile q hq, hS₂.ofile q hq] at hi
      exact hfree.1 _ hi

theorem argfd_spec {fd : Int} {i : Fin nofile} {f : FileIx} (h : k.argfd p fd = some (i, f)) :
    k.desk.ofile (p, i) = some f := by
  unfold argfd at h
  split at h
  · obtain ⟨g, hg, heq⟩ := Option.map_eq_some_iff.1 h
    cases heq
    exact hg
  · cases h

theorem sysDup_desk {fd v : Int} (hO : k.desk.Owes [] []) (h : k.sysDup p fd = .ok (v, k')) :
    k'.desk.Owes [] [] ∧ Steady p k.desk k'.desk := by
  unfold sysDup at h
  split at h
  · cases h
    exact ⟨hO, .refl _ _⟩
  rename_i i f _
  generalize hfd : k.fdalloc p f = fa at h
  obtain ⟨o, k₁⟩ := fa
  rcases fdalloc_desk hfd with ⟨rfl, rfl⟩ | ⟨fd', rfl, hnone, hD₁⟩
  · cases h
    exact ⟨hO, .refl _ _⟩
  · obtain ⟨k₂, hdup, h⟩ := Except.bind_ok_iff.1 h
    cases h
    -- the entry is filled before the reference is counted
    have hD₂ : k'.desk = (k.desk.setFile f { k.desk.ftable f with ref := (k.desk.ftable f).ref + 1 }).setFd p
        fd' (some f) := by
      rw [filedup_desk hdup, hD₁]
      rfl
    rw [hD₂]
    obtain ⟨hO₁, hS₁⟩ := hO.filedup (p := p) f
    obtain ⟨hO₂, hS₂⟩ := hO₁.store hnone
    exact ⟨hO₂, hS₁.trans hS₂⟩

theorem sysClose_desk {fd v : Int} (hO : k.desk.Owes [] []) (h : k.sysClose p fd = .ok (v, k')) :
    k'.desk.Owes [] [] ∧ Steady p k.desk k'.desk := by
  unfold sysClose at h
  split at h
  · cases h
    exact ⟨hO, .refl _ _⟩
  rename_i i f harg
  obtain ⟨k₁, hclose, h⟩ := Except.bind_ok_iff.1 h
  cases h
  rw [fileclose_desk hclose, clearFd, desk_setFd]
  obtain ⟨hO₁, hS₁⟩ := hO.take (argfd_spec harg)
  obtain ⟨hO₂, hS₂⟩ := hO₁.fileclose (p := p)
  exact ⟨hO₂, hS₁.trans hS₂⟩

theorem sysChdir_desk {ip : InodeIx} {v : Int} (hO : k.desk.Owes [] [])
    (h : k.sysChdir p ip = .ok (v, k')) : k'.desk.Owes [] [] ∧ Steady p k.desk k'.desk := by
  unfold sysChdir at h
  split at h
  · cases h
  rename_i old hold
  cases h
  have hO₁ := hO.idup ip
  obtain ⟨hO₂, hS₂⟩ := hO₁.leave (p := p) (show (k.idup ip).desk.cwd p = some old from hold)
  have hO₃ := hO₂.iput
  obtain ⟨hO₄, hS₄⟩ := hO₃.enter (p := p) (by simp [Desk.setCwd, Desk.addRef])
  have hdesk : (((k.idup ip).iput old).modify p fun pr => { pr with cwd := some ip }).desk =
      ((((k.desk.addRef ip 1).setCwd p none).addRef old (-1)).setCwd p (some ip)) := by
    rw [desk_setCwd, (desk_addRef _ _).2, (desk_addRef _ _).1]
    simp [Desk.setCwd, Desk.addRef]
  rw [hdesk]
  exact ⟨hO₄, ((Steady.addRef _ _ _ _).trans hS₂).trans ((Steady.addRef _ _ _ _).trans hS₄)⟩

theorem undoPipe_desk {D : Desk} {rf wf : FileIx} {v : Int} (hO : k.desk.Owes [rf, wf] [])
    (hS : Steady p D k.desk) (h : k.undoPipe p rf wf = .ok (v, k')) :
    k'.desk.Owes [] [] ∧ Steady p D k'.desk := by
  obtain ⟨k₁, h₁, h⟩ := Except.bind_ok_iff.1 h
  obtain ⟨k₂, h₂, h⟩ := Except.bind_ok_iff.1 h
  cases h
  rw [fileclose_desk h₂, fileclose_desk h₁]
  obtain ⟨hO₁, hS₁⟩ := hO.fileclose (p := p)
  obtain ⟨hO₂, hS₂⟩ := hO₁.fileclose (p := p)
  exact ⟨hO₂, (hS.trans hS₁).trans hS₂⟩

/-- The files of a new pipe are in the hand of the call. -/
theorem pipealloc_desk {o : Option (FileIx × FileIx)} (hO : k.desk.Owes [] [])
    (h : k.pipealloc p = .ok (o, k')) :
    Steady p k.desk k'.desk ∧
      ((o = none ∧ k'.desk.Owes [] []) ∨ ∃ f₀ f₁, o = some (f₀, f₁) ∧ k'.desk.Owes [f₀, f₁] []) := by
  unfold pipealloc at h
  generalize hfa : k.filealloc = fa at h
  obtain ⟨o₀, k₁⟩ := fa
  rcases filealloc_desk hfa with ⟨rfl, rfl⟩ | ⟨f₀, rfl, href₀, hD₁⟩
  · cases h
    exact ⟨.refl _ _, .inl ⟨rfl, hO⟩⟩
  obtain ⟨hO₁, hS₁⟩ := hO.filedup (p := p) f₀
  have hfree₀ := hO.unheld href₀
  have hidle₀ := hO.idle f₀ href₀
  have hfile₀ : k₁.desk.ftable f₀ = { k.desk.ftable f₀ with ref := 1 } := by
    have hr : (k.ftable f₀).ref = 0 := href₀
    rw [hD₁]
    simp [Desk.setFile, hr]
  rw [← hD₁] at hO₁ hS₁
  dsimp only at h
  generalize hfb : k₁.filealloc = fb at h
  obtain ⟨o₁, k₂⟩ := fb
  rcases filealloc_desk hfb with ⟨rfl, rfl⟩ | ⟨f₁, rfl, href₁, hD₂⟩
  · obtain ⟨k₃, hclose, h⟩ := Except.bind_ok_iff.1 h
    cases h
    obtain ⟨hO₃, hS₃⟩ := hO₁.fileclose (p := p)
    rw [← fileclose_desk hclose] at hO₃ hS₃
    exact ⟨hS₁.trans hS₃, .inl ⟨rfl, hO₃⟩⟩
  obtain ⟨hO₂, hS₂⟩ := hO₁.filedup (p := p) f₁
  have hfree₁ := hO₁.unheld href₁
  have hidle₁ := hO₁.idle f₁ href₁
  have hne : f₀ ≠ f₁ := fun heq => hfree₁.2 (by simp [heq])
  have hfile₁ : k₂.desk.ftable f₁ = { k₁.desk.ftable f₁ with ref := 1 } := by
    have hr : (k₁.ftable f₁).ref = 0 := href₁
    rw [hD₂]
    simp [Desk.setFile, hr]
  have hkeep₀ : k₂.desk.ftable f₀ = k₁.desk.ftable f₀ := by
    rw [hD₂]
    simp [Desk.setFile, hne]
  rw [← hD₂] at hO₂ hS₂
  have hO₂' := hO₂.perm (List.Perm.swap f₀ f₁ [])
  dsimp only at h
  split at h
  · rename_i m _
    obtain ⟨k₃, hc₀, h⟩ := Except.bind_ok_iff.1 h
    obtain ⟨k₄, hc₁, h⟩ := Except.bind_ok_iff.1 h
    cases h
    obtain ⟨hO₃, hS₃⟩ := hO₂'.fileclose (p := p)
    have hD₃ : k₃.desk = k₂.desk.fileclose f₀ := (fileclose_desk hc₀).trans rfl
    rw [← hD₃] at hO₃ hS₃
    obtain ⟨hO₄, hS₄⟩ := hO₃.fileclose (p := p)
    rw [← fileclose_desk hc₁] at hO₄ hS₄
    exact ⟨((hS₁.trans hS₂).trans hS₃).trans hS₄, .inl ⟨rfl, hO₄⟩⟩
  · rename_i pg m _
    cases h
    have hO₃ := hO₂'.openPipe pg hne (by rw [hkeep₀, hfile₀]; exact hidle₀)
      (by rw [hfile₁]; exact hidle₁) (by rw [hkeep₀, hfile₀]; exact one_ne_zero)
      (by rw [hfile₁]; exact one_ne_zero)
    have hother : ∀ q fd, k₂.desk.ofile (q, fd) ≠ some f₀ ∧ k₂.desk.ofile (q, fd) ≠ some f₁ := by
      intro q fd
      rw [hD₂]
      refine ⟨fun hf => ?_, fun hf => hfree₁.1 (q, fd) hf⟩
      have hf' : k₁.desk.ofile (q, fd) = some f₀ := hf
      rw [hD₁] at hf'
      exact hfree₀.1 (q, fd) hf'
    rw [desk_modifyFile, desk_modifyFile]
    have hft : ({ k₂ with mem := m, pipes := ⟨pg, true, true⟩ :: k₂.pipes } : Kernel).desk =
        { k₂.desk with pipes := ⟨pg, true, true⟩ :: k₂.desk.pipes } := rfl
    rw [hft]
    have hf₁ : (({ k₂.desk with pipes := ⟨pg, true, true⟩ :: k₂.desk.pipes } : Desk).setFile f₀
        { k₂.desk.ftable f₀ with type := .pipe pg, readable := true, writable := false }).ftable f₁ =
        k₂.desk.ftable f₁ := by
      simp [Desk.setFile, Ne.symm hne]
    have hS₃ : Steady p k₂.desk ((({ k₂.desk with pipes := ⟨pg, true, true⟩ :: k₂.desk.pipes } : Desk).setFile
        f₀ { k₂.desk.ftable f₀ with type := .pipe pg, readable := true, writable := false }).setFile f₁
        { k₂.desk.ftable f₁ with type := .pipe pg, readable := false, writable := true }) := by
      have hopen : Steady p k₂.desk { k₂.desk with pipes := ⟨pg, true, true⟩ :: k₂.desk.pipes } :=
        ⟨fun _ _ _ => rfl, fun _ _ _ _ _ => rfl, fun _ _ => rfl⟩
      refine hopen.trans ?_
      exact Steady.trans (.setFile fun q _ fd => (hother q fd).1) (.setFile fun q _ fd => (hother q fd).2)
    refine ⟨(hS₁.trans hS₂).trans ?_, .inr ⟨f₀, f₁, rfl, ?_⟩⟩
    · rw [hf₁]
      exact hS₃
    · rw [hf₁]
      exact hO₃

theorem sysPipe_desk {addr : Nat} {v : Int} (hO : k.desk.Owes [] []) (h : k.sysPipe p addr = .ok (v, k')) :
    k'.desk.Owes [] [] ∧ Steady p k.desk k'.desk := by
  unfold sysPipe at h
  obtain ⟨⟨o, k₁⟩, halloc, h⟩ := Except.bind_ok_iff.1 h
  obtain ⟨hS₁, ⟨rfl, hO₁⟩ | ⟨rf, wf, rfl, hO₁⟩⟩ := pipealloc_desk hO halloc
  · cases h
    exact ⟨hO₁, hS₁⟩
  dsimp only at h
  generalize hfd : k₁.fdalloc p rf = fa at h
  obtain ⟨o, k₂⟩ := fa
  rcases fdalloc_desk hfd with ⟨rfl, rfl⟩ | ⟨fd₀, rfl, hnone₀, hD₂⟩
  · exact undoPipe_desk hO₁ hS₁ h
  obtain ⟨hO₂, hS₂⟩ := hO₁.store hnone₀
  have hfd₀ : k₂.desk.ofile (p, fd₀) = some rf := by
    rw [hD₂]
    simp [Desk.setFd]
  rw [← hD₂] at hO₂ hS₂
  dsimp only at h
  generalize hfd' : k₂.fdalloc p wf = fa at h
  obtain ⟨o, k₃⟩ := fa
  rcases fdalloc_desk hfd' with ⟨rfl, rfl⟩ | ⟨fd₁, rfl, hnone₁, hD₃⟩
  · obtain ⟨hO₃, hS₃⟩ := hO₂.take hfd₀
    rw [← desk_setFd] at hO₃ hS₃
    exact undoPipe_desk hO₃ ((hS₁.trans hS₂).trans hS₃) h
  obtain ⟨hO₃, hS₃⟩ := hO₂.store hnone₁
  have hne : fd₁ ≠ fd₀ := fun heq => by
    rw [heq, hfd₀] at hnone₁
    cases hnone₁
  have hfd₁ : k₃.desk.ofile (p, fd₁) = some wf := by
    rw [hD₃]
    simp [Desk.setFd]
  have hfd₀' : k₃.desk.ofile (p, fd₀) = some rf := by
    rw [hD₃, Desk.setFd]
    simp only
    rw [Function.update_of_ne (by simp [Ne.symm hne])]
    exact hfd₀
  rw [← hD₃] at hO₃ hS₃
  dsimp only at h
  split at h
  · cases h
  split at h
  · cases h
    exact ⟨hO₃, (hS₁.trans hS₂).trans hS₃⟩
  · rename_i m _
    obtain ⟨hO₄, hS₄⟩ := hO₃.take hfd₀'
    have hfd₁' : (k₃.desk.setFd p fd₀ none).ofile (p, fd₁) = some wf := by
      rw [Desk.setFd]
      simp only
      rw [Function.update_of_ne (by simp [hne])]
      exact hfd₁
    obtain ⟨hO₅, hS₅⟩ := hO₄.take hfd₁'
    have hdesk : (({ k₃ with mem := m }.clearFd p fd₀).clearFd p fd₁).desk =
        (k₃.desk.setFd p fd₀ none).setFd p fd₁ none := by
      rw [clearFd, desk_setFd, clearFd, desk_setFd]
      rfl
    rw [← hdesk] at hO₅ hS₅
    exact undoPipe_desk (hO₅.perm (List.Perm.swap rf wf [])) (((hS₁.trans hS₂).trans hS₃).trans (hS₄.trans hS₅)) h

/-! ## Copies -/

/-- `filedup` of the files of `p` into the empty entries of `np`. -/
theorem dupFds_desk {l : List (Fin nofile)} (hl : l.Nodup) (hnone : ∀ i ∈ l, k.desk.ofile (np, i) = none)
    (hO : k.desk.Owes [] []) (h : l.foldlM (dupFd p np) k = .ok k') :
    k'.desk.Owes [] [] ∧ Steady np k.desk k'.desk := by
  induction l generalizing k with
  | nil =>
    rw [List.foldlM_nil, Except.pure_ok_iff] at h
    subst h
    exact ⟨hO, .refl _ _⟩
  | cons i l ih =>
    rw [List.foldlM_cons] at h
    obtain ⟨k₁, hbody, h⟩ := Except.bind_ok_iff.1 h
    obtain ⟨hi, hl⟩ := List.nodup_cons.1 hl
    unfold dupFd at hbody
    split at hbody
    · cases hbody
      exact ih hl (fun j hj => hnone j (by simp [hj])) hO h
    · rename_i f _
      obtain ⟨k₂, hdup, hbody⟩ := Except.bind_ok_iff.1 hbody
      cases hbody
      obtain ⟨hO₁, hS₁⟩ := hO.filedup (p := np) f
      have hempty : (k.desk.setFile f { k.desk.ftable f with ref := (k.desk.ftable f).ref + 1 }).ofile (np, i) =
        none := hnone i (by simp)
      obtain ⟨hO₂, hS₂⟩ := hO₁.store hempty
      rw [← filedup_desk hdup, ← desk_setFd] at hO₂ hS₂
      rw [← filedup_desk hdup] at hS₁
      have hrest : ∀ j ∈ l, (k₂.modify np fun pr =>
          { pr with ofile := fun j => if j = i then some f else pr.ofile j }).desk.ofile (np, j) = none := by
        intro j hj
        have hj' : j ≠ i := fun heq => hi (heq ▸ hj)
        rw [desk_setFd, Desk.setFd]
        simp only
        rw [Function.update_of_ne (by simp [hj']), filedup_desk hdup]
        exact hnone j (by simp [hj])
      obtain ⟨hO₃, hS₃⟩ := ih hl hrest hO₂ h
      exact ⟨hO₃, (hS₁.trans hS₂).trans hS₃⟩

theorem dupFiles_desk (hnone : ∀ i, k.desk.ofile (np, i) = none) (hO : k.desk.Owes [] [])
    (h : k.dupFiles p np = .ok k') : k'.desk.Owes [] [] ∧ Steady np k.desk k'.desk :=
  dupFds_desk (List.nodup_finRange nofile) (fun i _ => hnone i) hO h

theorem dupCwd_desk (hnone : k.desk.cwd np = none) (hO : k.desk.Owes [] []) (h : k.dupCwd p np = .ok k') :
    k'.desk.Owes [] [] ∧ Steady np k.desk k'.desk := by
  unfold dupCwd at h
  split at h
  · cases h
  · rename_i ip _
    cases h
    obtain ⟨hO₁, hS₁⟩ := (hO.idup ip).enter (p := np) hnone
    rw [desk_setCwd, (desk_addRef _ _).1]
    exact ⟨hO₁, (Steady.addRef _ _ _ _).trans hS₁⟩

/-- Files and directory of `p` are copied to a slot that has none. -/
theorem dupHandles_desk {k₁ k₂ : Kernel} (hbare : (∀ i, k.desk.ofile (np, i) = none) ∧ k.desk.cwd np = none)
    (hO : k.desk.Owes [] []) (h₁ : k.dupFiles p np = .ok k₁) (h₂ : k₁.dupCwd p np = .ok k₂) :
    k₂.desk.Owes [] [] ∧ Steady np k.desk k₂.desk := by
  obtain ⟨hO₁, hS₁⟩ := dupFiles_desk hbare.1 hO h₁
  have hcwd : k₁.desk.cwd np = none := by
    obtain ⟨ft, files, rfl⟩ := dupFiles_ok h₁
    have hnone : (k.proc np).cwd = none := hbare.2
    simp [hnone]
  obtain ⟨hO₂, hS₂⟩ := dupCwd_desk hcwd hO₁ h₂
  exact ⟨hO₂, hS₁.trans hS₂⟩

/-! ## Releasing slots -/

/-- Handles stay, but for current directories of slots that are given up. -/
structure Forgets (k k' : Kernel) : Prop where
  desk : ∃ cwd, k'.desk = { k.desk with cwd := cwd }
  cwd : ∀ q, (k'.proc q).cwd = (k.proc q).cwd ∨ (k'.proc q).cwd = none ∧ (k'.proc q).state = .unused
  unused : ∀ q, (k.proc q).state = .unused → (k'.proc q).state = .unused

theorem Forgets.refl (k : Kernel) : k.Forgets k := ⟨⟨_, rfl⟩, fun _ => .inl rfl, fun _ h => h⟩

theorem Forgets.trans {k'' : Kernel} (h : k.Forgets k') (h' : k'.Forgets k'') : k.Forgets k'' where
  desk := by
    obtain ⟨cwd, hd⟩ := h.desk
    obtain ⟨cwd', hd'⟩ := h'.desk
    exact ⟨cwd', by rw [hd', hd]⟩
  cwd q := by
    rcases h'.cwd q with hq' | hq'
    · rcases h.cwd q with hq | ⟨hq, hu⟩
      · exact .inl (hq'.trans hq)
      · exact .inr ⟨hq'.trans hq, h'.unused q hu⟩
    · exact .inr hq'
  unused q hu := h'.unused q (h.unused q hu)

/-- If the slots given up have no directory, nothing changes. -/
theorem Forgets.desk_eq (h : k.Forgets k') (hc : ∀ q, (k'.proc q).state = .unused → (k.proc q).cwd = none) :
    k'.desk = k.desk := by
  obtain ⟨cwd, hd⟩ := h.desk
  rw [hd]
  suffices hcwd : cwd = k.desk.cwd by rw [hcwd]
  funext q
  have hq : (k'.proc q).cwd = cwd q := congrFun (congrArg Desk.cwd hd) q
  rcases h.cwd q with hsame | ⟨hnone, hu⟩
  · exact hq.symm.trans hsame
  · exact hq.symm.trans (hnone.trans (hc q hu).symm)

/-- One slot is given up with its files. -/
theorem forgets_update {m : Mem} (pr : Proc) (ho : pr.ofile = (k.proc p).ofile) (hc : pr.cwd = none)
    (hs : pr.state = .unused) : k.Forgets { k with mem := m, proc := Function.update k.proc p pr } := by
  refine ⟨⟨Function.update k.desk.cwd p none, ?_⟩, fun q => ?_, fun q hu => ?_⟩
  · simp only [desk, Desk.mk.injEq, and_true]
    constructor
    · funext ⟨q, i⟩
      by_cases hq : q = p
      · subst hq; simp [ho]
      · simp [hq]
    · funext q
      by_cases hq : q = p
      · subst hq; simp [hc]
      · simp [hq]
  · by_cases hq : q = p
    · subst hq
      simp only [Function.update_self]
      exact .inr ⟨hc, hs⟩
    · simp only [Function.update_of_ne hq, true_or]
  · by_cases hq : q = p
    · subst hq
      simpa only [Function.update_self] using hs
    · simpa only [Function.update_of_ne hq] using hu

theorem freeMembers_forgets {n : Nat} {o : Option Slot} (h : freeMembers p n o k = .ok k') : k.Forgets k' := by
  induction n generalizing o k with
  | zero => cases h
  | succ n ih =>
    cases o with
    | none => cases h
    | some q =>
      rw [freeMembers] at h
      split at h
      · cases h
        exact .refl _
      · obtain ⟨k₁, hfree, h⟩ := Except.bind_ok_iff.1 h
        obtain ⟨m, m', -, -, rfl⟩ := freeMember_ok hfree
        exact (forgets_update (k.proc q).release rfl rfl rfl).trans (ih h)

theorem dropRef_forgets (k : Kernel) (L : Slot) : k.Forgets (k.dropRef L) := by
  have hsame : ∀ q, ((k.dropRef L).proc q).cwd = (k.proc q).cwd ∧
      ((k.dropRef L).proc q).state = (k.proc q).state := by
    intro q
    rw [dropRef, modify_proc]
    split
    · split <;> exact ⟨rfl, rfl⟩
    · exact ⟨rfl, rfl⟩
  refine ⟨⟨k.desk.cwd, desk_modify fun pr => ?_⟩, fun q => .inl (hsame q).1, fun q hu => (hsame q).2.trans hu⟩
  split <;> exact ⟨rfl, rfl⟩

theorem freeproc_forgets (hp : (k.proc p).state ≠ .unused) (h : k.freeproc p = .ok k') : k.Forgets k' := by
  unfold freeproc at h
  split at h
  · obtain ⟨m, -, rfl⟩ := freeSelf_ok h
    exact forgets_update _ rfl rfl rfl
  · rename_i leader _
    have hdrop := dropRef_forgets k leader
    dsimp only at h
    split at h
    · cases h
    split at h
    · cases h
      refine hdrop.trans ⟨⟨_, desk_modify fun _ => ⟨rfl, rfl⟩⟩, fun q => .inl ?_, fun q hu => ?_⟩
      · rw [modify_proc]
        split <;> rfl
      · have hqp : q ≠ p := fun heq => hp ?_
        · rwa [modify_proc_ne hqp]
        · rw [← heq]
          rw [dropRef, modify_proc] at hu
          split at hu
          · split at hu <;> exact hu
          · exact hu
    · obtain ⟨k₁, hmem, h⟩ := Except.bind_ok_iff.1 h
      obtain ⟨m, -, rfl⟩ := freeSelf_ok h
      exact (hdrop.trans (freeMembers_forgets hmem)).trans (forgets_update _ rfl rfl rfl)

/-! ## Reaping -/

theorem forgets_modify {f : Proc → Proc} (hf : ∀ pr, (f pr).ofile = pr.ofile ∧ (f pr).cwd = pr.cwd)
    (hp : (k.proc p).state ≠ .unused) : k.Forgets (k.modify p f) := by
  refine ⟨⟨_, desk_modify hf⟩, fun q => .inl ?_, fun q hu => ?_⟩
  · exact congrFun (congrArg Desk.cwd (desk_modify hf)) q
  · have hq : q ≠ p := fun heq => hp (heq ▸ hu)
    rwa [modify_proc_ne hq]

theorem wait_forgets {addr : Nat} {r : Option Int} (hp : (k.proc p).state ≠ .unused)
    (h : k.wait p addr = .ok (r, k')) : k.Forgets k' := by
  unfold wait at h
  split at h
  · rename_i pp hfind
    obtain ⟨⟨c, k₁⟩, hcopy, h⟩ := Except.bind_ok_iff.1 h
    obtain ⟨m, rfl, -, -, -⟩ := copyStatus_ok hcopy
    have hm : k.Forgets { k with mem := m } := ⟨⟨_, rfl⟩, fun _ => .inl rfl, fun _ hu => hu⟩
    dsimp only at h
    split at h
    · cases h
      exact hm
    · obtain ⟨k₂, hfree, h⟩ := Except.bind_ok_iff.1 h
      cases h
      have hz : (k.proc pp).state ≠ .unused := by simp [(findZombie_spec hfind).2]
      exact hm.trans (freeproc_forgets hz hfree)
  · split at h
    · cases h
      exact .refl k
    · cases h
      exact forgets_modify (fun _ => ⟨rfl, rfl⟩) hp

theorem threadJoin_forgets {tid : Int} {r : Option Int} (hp : (k.proc p).state ≠ .unused)
    (h : k.threadJoin p tid = .ok (r, k')) : k.Forgets k' := by
  rcases threadJoin_ok h with rfl | rfl | ⟨tp, hfind, hfree⟩
  · exact .refl _
  · exact forgets_modify (fun _ => ⟨rfl, rfl⟩) hp
  · have hz : (k.proc tp).state ≠ .unused := by simp [(findJoin_spec hfind).2]
    exact freeproc_forgets hz hfree

theorem resume_forgets {r : Option Int} (hp : (k.proc p).state = .runnable) (h : k.resume p = .ok (r, k')) :
    k.Forgets k' := by
  have hk : k.Forgets (k.modify p fun pr => { pr with state := .running, chan := none, resume := .user }) :=
    forgets_modify (fun _ => ⟨rfl, rfl⟩) (by simp [hp])
  have hrun : ((k.modify p fun pr => { pr with state := .running, chan := none, resume := .user }).proc p).state ≠
      .unused := by simp
  simp only [resume] at h
  split at h
  · cases h
    exact hk
  · cases h
    exact hk
  · exact hk.trans (wait_forgets hrun h)
  · exact hk.trans (threadJoin_forgets hrun h)

theorem kill_desk (k : Kernel) (pid : Int) : (k.kill pid).2.desk = k.desk := by
  unfold kill
  split
  · rfl
  · dsimp only
    rw [desk_modify]
    exact fun _ => ⟨rfl, rfl⟩

/-! ## Exit -/

theorem closeFiles_desk (hO : k.desk.Owes [] []) (h : k.closeFiles p = .ok k') :
    k'.desk.Owes [] [] ∧ Steady p k.desk k'.desk := by
  refine Except.foldlM_invariant (P := fun k' => k'.desk.Owes [] [] ∧ Steady p k.desk k'.desk) ?_
    ⟨hO, .refl _ _⟩ h
  rintro fd - k₁ k₂ ⟨hO₁, hS₁⟩ hbody
  unfold closeFd at hbody
  split at hbody
  · cases hbody
    exact ⟨hO₁, hS₁⟩
  · rename_i f hf
    obtain ⟨k₃, hclose, hbody⟩ := Except.bind_ok_iff.1 hbody
    cases hbody
    rw [desk_setFd, fileclose_desk hclose, fileclose_setFd]
    obtain ⟨hO₂, hS₂⟩ := hO₁.take hf
    obtain ⟨hO₃, hS₃⟩ := hO₂.fileclose (p := p)
    exact ⟨hO₃, hS₁.trans (hS₂.trans hS₃)⟩

theorem dropCwd_desk (hO : k.desk.Owes [] []) :
    (k.dropCwd p).desk.Owes [] [] ∧ Steady p k.desk (k.dropCwd p).desk := by
  unfold dropCwd
  split
  · exact ⟨hO, .refl _ _⟩
  · rename_i ip hip
    obtain ⟨hO₁, hS₁⟩ := hO.leave hip
    rw [desk_setCwd, (desk_addRef _ _).2]
    exact ⟨hO₁.iput, hS₁.trans (.addRef _ _ _ _)⟩

theorem reparent_desk (k : Kernel) (p : Slot) : (k.reparent p).desk = k.desk := by
  unfold reparent
  dsimp only
  split
  · rw [desk_wakeup]
    refine desk_congr (fun q => ?_) rfl rfl rfl
    dsimp only
    split <;> exact ⟨rfl, rfl⟩
  · refine desk_congr (fun q => ?_) rfl rfl rfl
    dsimp only
    split <;> exact ⟨rfl, rfl⟩

theorem dropTable_desk (h : k.dropTable p = .ok k') : k'.desk = k.desk := by
  unfold dropTable at h
  split at h
  · cases h
    rfl
  · obtain ⟨m, -, h⟩ := Except.bind_ok_iff.1 h
    cases h
    rw [desk_modify]
    · rfl
    · exact fun _ => ⟨rfl, rfl⟩

/-- No file is open and there is no current directory. -/
def Bare (k : Kernel) (q : Slot) : Prop := (∀ fd, (k.proc q).ofile fd = none) ∧ (k.proc q).cwd = none

theorem exitProcess_desk {status : Int} (hp : (k.proc p).state ≠ .sleeping) (hO : k.desk.Owes [] [])
    (h : k.exitProcess p status = .ok k') :
    k'.desk.Owes [] [] ∧ Steady p k.desk k'.desk ∧ k'.Bare p := by
  have hbare : k'.Bare p := by
    have hw := (exitProcess_ok hp h).1
    have hself := hw.eq p
    rw [Bare, hself]
    simp [exited]
  obtain ⟨k₁, hclose, h⟩ := Except.bind_ok_iff.1 h
  obtain ⟨k₂, htable, h⟩ := Except.bind_ok_iff.1 h
  cases h
  obtain ⟨hO₁, hS₁⟩ := closeFiles_desk hO hclose
  obtain ⟨hO₂, hS₂⟩ := dropCwd_desk (p := p) hO₁
  have hdesk : ((k₂.modify p fun pr => { pr with xstate := status, state := .zombie }).wakeParent p).desk =
      (k₁.dropCwd p).desk := by
    rw [desk_wakeParent, desk_modify, dropTable_desk htable, reparent_desk]
    exact fun _ => ⟨rfl, rfl⟩
  rw [hdesk]
  exact ⟨hO₂, hS₁.trans hS₂, hbare⟩

theorem threadExitThread_desk (k : Kernel) (p : Slot) : (k.threadExitThread p).desk = k.desk := by
  unfold threadExitThread
  rw [desk_wakeParent, desk_modify, dropRef, desk_modify]
  · intro pr
    split <;> exact ⟨rfl, rfl⟩
  · exact fun _ => ⟨rfl, rfl⟩

/-! ## New slots -/

theorem allocproc_none_desk (hbare : ∀ q, k.findUnused = some q → k.Bare q)
    (h : k.allocproc = .ok (none, k')) : k'.desk = k.desk := by
  rcases allocproc_none h with ⟨-, rfl⟩ | ⟨q, m, hfind, -, rfl⟩
  · rfl
  · exact desk_update _ rfl (hbare q hfind).2.symm

theorem allocproc_some_desk (h : k.allocproc = .ok (some np, k')) : k'.desk = k.desk := by
  obtain ⟨-, tf, m, pt, m', -, -, rfl⟩ := allocproc_some h
  exact desk_update _ rfl rfl

/-- A new slot gets copies of handles, or nothing changes. -/
structure Inherits (k k' : Kernel) : Prop where
  owes : k'.desk.Owes [] []
  steady : k'.desk = k.desk ∨
    ∃ np, k.findUnused = some np ∧ Steady np k.desk k'.desk ∧ (k'.entries np).phase = .active

theorem inherits_of_eq (hO : k.desk.Owes [] []) (hd : k'.desk = k.desk) : k.Inherits k' :=
  ⟨hd ▸ hO, .inl hd⟩

theorem fork_desk {r : Int} (hO : k.desk.Owes [] []) (hbare : ∀ q, k.findUnused = some q → k.Bare q)
    (h : k.fork p = .ok (r, k')) : k.Inherits k' := by
  unfold fork at h
  obtain ⟨⟨o, k₁⟩, halloc, h⟩ := Except.bind_ok_iff.1 h
  split at h
  · rename_i k₂ heq
    cases heq
    cases h
    exact inherits_of_eq hO (allocproc_none_desk hbare halloc)
  rename_i np k₂ heq
  cases heq
  have hfind := (allocproc_some halloc).1
  have hd₁ := allocproc_some_desk halloc
  obtain ⟨-, tf₀, pt₀, hnp⟩ := allocproc_some_proc halloc
  have hb := hbare np hfind
  split at h
  · rename_i old new tf ntf _ _ _ _
    obtain ⟨⟨copied, m, new'⟩, -, h⟩ := Except.bind_ok_iff.1 h
    have hset : ({ k₁ with mem := m }.setTable np new').desk = k.desk :=
      (remaps_setTable k₁ m np new').desk.trans hd₁
    dsimp only at h
    split at h
    · obtain ⟨k₂, hfree, h⟩ := Except.bind_ok_iff.1 h
      cases h
      rw [freeproc_of_ungrouped (by simp [setTable, hnp, Proc.claim])] at hfree
      obtain ⟨m', -, rfl⟩ := freeSelf_ok hfree
      have hcwd : (({ k₁ with mem := m }.setTable np new').proc np).cwd = none := by
        simpa [setTable, hnp, Proc.claim] using hb.2
      refine inherits_of_eq hO (Eq.trans ?_ hset)
      generalize { k₁ with mem := m }.setTable np new' = k₂ at hcwd
      exact desk_update _ rfl hcwd.symm
    · obtain ⟨k₂, hfiles, h⟩ := Except.bind_ok_iff.1 h
      obtain ⟨k₃, hcwd, h⟩ := Except.bind_ok_iff.1 h
      cases h
      generalize hk₀ : (Kernel.modify ({ k₁ with mem := m }.setTable np new') np _) = k₀ at hfiles
      have hd₀ : k₀.desk = k.desk := by
        rw [← hk₀, desk_modify, hset]
        exact fun _ => ⟨rfl, rfl⟩
      obtain ⟨hO₃, hS₃⟩ := dupHandles_desk (hd₀ ▸ hb) (hd₀ ▸ hO) hfiles hcwd
      have hd₄ : (k₃.modify np fun pr => { pr with
          name := (k₃.proc p).name, parent := some p, state := .runnable }).desk = k₃.desk :=
        desk_modify fun _ => ⟨rfl, rfl⟩
      refine ⟨hd₄ ▸ hO₃, .inr ⟨np, hfind, ?_, ?_⟩⟩
      · rw [hd₄, ← hd₀]
        exact hS₃
      · simp [entries, Proc.entry, ProcState.phase]
  · cases h

theorem enterGroup_desk (h : k.enterGroup L np = .ok k') : k'.desk = k.desk := by
  simp only [enterGroup] at h
  split at h
  · cases h
  cases h
  rw [desk_modify, desk_modify, desk_modify, desk_modify]
  all_goals exact fun _ => ⟨rfl, rfl⟩

theorem leaveGroup_desk (h : k.leaveGroup L np = .ok k') : k'.desk = k.desk := by
  unfold leaveGroup at h
  split at h
  · cases h
    rw [desk_modify, desk_modify, desk_modify]
    all_goals exact fun _ => ⟨rfl, rfl⟩
  · cases h

theorem foundGroup_desk (k : Kernel) (p : Slot) : (k.foundGroup p).desk = k.desk := by
  unfold foundGroup
  split
  · rw [desk_modify]
    exact fun _ => ⟨rfl, rfl⟩
  · rfl

theorem startThread_desk {curr start arg : Nat} (hO : k.desk.Owes [] []) (hbare : k.Bare np)
    (h : k.startThread p np curr start arg = .ok k') :
    k'.desk.Owes [] [] ∧ Steady np k.desk k'.desk ∧ (k'.entries np).phase = .active := by
  unfold startThread at h
  split at h
  · rename_i tf ntf _ _
    obtain ⟨k₁, hfiles, h⟩ := Except.bind_ok_iff.1 h
    obtain ⟨k₂, hcwd, h⟩ := Except.bind_ok_iff.1 h
    cases h
    generalize hk₀ : (k.modify np fun pr => { pr with trapframe := some { ntf with regs := _ } }) = k₀ at hfiles
    have hd₀ : k₀.desk = k.desk := by
      rw [← hk₀, desk_modify]
      exact fun _ => ⟨rfl, rfl⟩
    have hb₀ : (∀ i, k₀.desk.ofile (np, i) = none) ∧ k₀.desk.cwd np = none := hd₀ ▸ hbare
    obtain ⟨hO₃, hS₃⟩ := dupHandles_desk hb₀ (hd₀ ▸ hO) hfiles hcwd
    have hd₄ : (k₂.modify np fun pr => { pr with
        isThread := true, name := "kthread", parent := some p, state := .runnable }).desk = k₂.desk :=
      desk_modify fun _ => ⟨rfl, rfl⟩
    refine ⟨hd₄ ▸ hO₃, ?_, ?_⟩
    · rw [hd₄, ← hd₀]
      exact hS₃
    · simp [entries, Proc.entry, ProcState.phase]
  · cases h

theorem threadCreate_desk {start arg : Nat} {r : Int} (hO : k.desk.Owes [] [])
    (hbare : ∀ q, k.findUnused = some q → k.Bare q) (h : k.threadCreate p start arg = .ok (r, k')) :
    k.Inherits k' := by
  rcases threadCreate_ok h with halloc | ⟨np, k₁, k₂, pt, npt, c, m, npt', halloc, henter, -, -, -, hend⟩
  · exact inherits_of_eq hO (allocproc_none_desk hbare halloc)
  have hd₂ : k₂.desk = k.desk := by
    rw [enterGroup_desk henter, foundGroup_desk, allocproc_some_desk halloc]
  have hset : ∀ m', desk { { k₂ with mem := m }.setTable np npt' with mem := m' } = k.desk :=
    fun m' => (remaps_setTable k₂ m np npt').desk.trans hd₂
  rcases hend with ⟨m', -, hleave⟩ | ⟨stack, m', k₃, -, hloop, hstart⟩
  · exact inherits_of_eq hO ((leaveGroup_desk hleave).trans (hset m'))
  · have hd₃ : k₃.desk = k.desk :=
      (ringLoop_remaps (fun _ _ _ => mapStack_remaps) hloop).desk.trans (hset _)
    have hfind := (allocproc_some halloc).1
    have hb : k₃.Bare np := by
      have := hbare np hfind
      exact ⟨fun fd => (congrFun (congrArg Desk.ofile hd₃) (np, fd)).trans (this.1 fd),
        (congrFun (congrArg Desk.cwd hd₃) np).trans this.2⟩
    obtain ⟨hO₄, hS₄, hact⟩ := startThread_desk (hd₃ ▸ hO) hb hstart
    exact ⟨hO₄, .inr ⟨np, hfind, hd₃ ▸ hS₄, hact⟩⟩

end Kernel

end Xv6
