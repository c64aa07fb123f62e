-- SUMMARY: The file layer on its own: open files, current directories, inode references and pipes, and who owes what.
import Xv6Threads.Base.Weight
import Xv6Threads.Process.Proc

/-!
# The file layer

`Desk` is the part of the state that the descriptor calls work on. Within a
call a reference may be in nobody's table: taken and not stored yet, or removed
and not dropped yet. `Owes D fs is` says that the counts of `D` are right when
the references `fs` to files and `is` to inodes are in the hands of the running
call. Every operation takes references into the hand or puts them down, and at
the end of a call the hand is empty.
-/

namespace Xv6

open Weight

/-- The inode that an open file refers to. -/
def File.inode (fl : File) : Option InodeIx :=
  match fl.type with
  | .inode ip => some ip
  | .device ip => some ip
  | _ => none

/-- The pipe whose writing end the file is. -/
def File.writeEnd (fl : File) : Option Ppn :=
  match fl.type with
  | .pipe pg => if fl.writable then some pg else none
  | _ => none

theorem File.writeEnd_of_inode {fl : File} {ip : InodeIx} (h : fl.inode = some ip) : fl.writeEnd = none := by
  unfold File.inode at h
  unfold File.writeEnd
  split at h <;> simp_all

structure Desk where
  ofile : Slot × Fin nofile → Option FileIx
  cwd : Slot → Option InodeIx
  ftable : FileIx → File
  pipes : List Pipe
  iref : InodeIx → Int

namespace Desk

variable {D D' D'' : Desk} {p q : Slot} {fd : Fin nofile} {f : FileIx} {ip : InodeIx} {fs : List FileIx}
  {is : List InodeIx}

/-! ## Operations -/

def setFile (D : Desk) (f : FileIx) (fl : File) : Desk := { D with ftable := Function.update D.ftable f fl }

def setFd (D : Desk) (p : Slot) (fd : Fin nofile) (o : Option FileIx) : Desk :=
  { D with ofile := Function.update D.ofile (p, fd) o }

def setCwd (D : Desk) (p : Slot) (o : Option InodeIx) : Desk :=
  { D with cwd := Function.update D.cwd p o }

def addRef (D : Desk) (ip : InodeIx) (n : Int) : Desk :=
  { D with iref := Function.update D.iref ip (D.iref ip + n) }

def pipeclose (D : Desk) (pg : Ppn) (writable : Bool) : Desk :=
  match D.pipes.find? fun pi => pi.page = pg with
  | none => D
  | some pi =>
    if (pi.close writable).isClosed then { D with pipes := D.pipes.eraseP fun pi => pi.page = pg }
    else { D with pipes := D.pipes.map fun pi => if pi.page = pg then pi.close writable else pi }

def fileclose (D : Desk) (f : FileIx) : Desk :=
  let ff := D.ftable f
  if 0 < ff.ref - 1 then D.setFile f { ff with ref := ff.ref - 1 }
  else
    let D := D.setFile f { ff with ref := 0, type := .none }
    match ff.type with
    | .pipe pg => D.pipeclose pg ff.writable
    | .inode ip => D.addRef ip (-1)
    | .device ip => D.addRef ip (-1)
    | .none => D

/-! ## What is owed -/

/-- Pipes at page `pg` whose writing end is open. -/
def openWriters (D : Desk) (pg : Ppn) : Nat := D.pipes.countP fun pi => pi.page = pg ∧ pi.writeopen

/-- A pipe at the page of an older one has been closed no further than it. -/
def Ordered (l : List Pipe) : Prop :=
  l.Pairwise fun new old => new.page = old.page → old.writeopen = true → new.writeopen = true

structure Owes (D : Desk) (fs : List FileIx) (is : List InodeIx) : Prop where
  files : ∀ f, (D.ftable f).ref = tally D.ofile f + fs.count f
  inodes : ∀ ip, D.iref ip = tally D.cwd ip + tally (fun f => (D.ftable f).inode) ip + is.count ip
  idle : ∀ f, (D.ftable f).ref = 0 → (D.ftable f).type = .none
  writers : ∀ pg, D.openWriters pg ≤ tally (fun f => (D.ftable f).writeEnd) pg
  order : Ordered D.pipes

/-- The descriptors of other slots than `p` are kept, and the files they refer
to stay writing ends or not. -/
structure Steady (p : Slot) (D D' : Desk) : Prop where
  ofile : ∀ q, q ≠ p → ∀ fd, D'.ofile (q, fd) = D.ofile (q, fd)
  writeEnd : ∀ q, q ≠ p → ∀ fd f, D.ofile (q, fd) = some f →
    (D'.ftable f).writeEnd = (D.ftable f).writeEnd
  cwd : ∀ q, q ≠ p → D'.cwd q = D.cwd q

theorem Steady.refl (p : Slot) (D : Desk) : Steady p D D :=
  ⟨fun _ _ _ => rfl, fun _ _ _ _ _ => rfl, fun _ _ => rfl⟩

theorem Steady.trans (h : Steady p D D') (h' : Steady p D' D'') : Steady p D D'' where
  ofile q hq fd := (h'.ofile q hq fd).trans (h.ofile q hq fd)
  writeEnd q hq fd f hf :=
    (h'.writeEnd q hq fd f ((h.ofile q hq fd).trans hf)).trans (h.writeEnd q hq fd f hf)
  cwd q hq := (h'.cwd q hq).trans (h.cwd q hq)

theorem Owes.perm {fs' : List FileIx} (h : D.Owes fs is) (hp : fs.Perm fs') : D.Owes fs' is :=
  ⟨fun f => by rw [h.files f, hp.count_eq], h.inodes, h.idle, h.writers, h.order⟩

/-! ## Descriptors -/

/-- A reference is put down in an empty entry. -/
theorem Owes.store (h : D.Owes (f :: fs) is) (hfd : D.ofile (p, fd) = none) :
    (D.setFd p fd (some f)).Owes fs is ∧ Steady p D (D.setFd p fd (some f)) := by
  refine ⟨⟨fun g => ?_, h.inodes, h.idle, h.writers, h.order⟩, fun q hq i => ?_, fun _ _ _ _ _ => rfl,
    fun _ _ => rfl⟩
  · have hfile := h.files g
    have hcount := tally_store (u := f) hfd g fs
    simp only [setFd]
    omega
  · simp [setFd, Function.update, hq]

/-- An entry is cleared and its reference taken. -/
theorem Owes.take (h : D.Owes fs is) (hfd : D.ofile (p, fd) = some f) :
    (D.setFd p fd none).Owes (f :: fs) is ∧ Steady p D (D.setFd p fd none) := by
  refine ⟨⟨fun g => ?_, h.inodes, h.idle, h.writers, h.order⟩, fun q hq i => ?_, fun _ _ _ _ _ => rfl,
    fun _ _ => rfl⟩
  · have hfile := h.files g
    have hcount := tally_take hfd g fs
    simp only [setFd]
    omega
  · simp [setFd, Function.update, hq]

/-! ## Current directories -/

theorem Owes.idup (h : D.Owes fs is) (ip : InodeIx) : (D.addRef ip 1).Owes fs (ip :: is) := by
  refine ⟨h.files, fun i => ?_, h.idle, h.writers, h.order⟩
  have hinode := h.inodes i
  simp only [addRef, count_cons]
  by_cases hi : i = ip
  · subst hi
    rw [Function.update_self, single_self]
    omega
  · rw [Function.update_of_ne hi, single_ne (Ne.symm hi)]
    omega

theorem Owes.iput (h : D.Owes fs (ip :: is)) : (D.addRef ip (-1)).Owes fs is := by
  refine ⟨h.files, fun i => ?_, h.idle, h.writers, h.order⟩
  have hinode := h.inodes i
  rw [count_cons] at hinode
  simp only [addRef]
  by_cases hi : i = ip
  · subst hi
    rw [Function.update_self]
    rw [single_self] at hinode
    omega
  · rw [Function.update_of_ne hi]
    rw [single_ne (Ne.symm hi)] at hinode
    omega

theorem Steady.addRef (D : Desk) (p : Slot) (ip : InodeIx) (n : Int) : Steady p D (D.addRef ip n) :=
  ⟨fun _ _ _ => rfl, fun _ _ _ _ _ => rfl, fun _ _ => rfl⟩

theorem Owes.enter (h : D.Owes fs (ip :: is)) (hp : D.cwd p = none) :
    (D.setCwd p (some ip)).Owes fs is ∧ Steady p D (D.setCwd p (some ip)) := by
  refine ⟨⟨h.files, fun i => ?_, h.idle, h.writers, h.order⟩, fun _ _ _ => rfl, fun _ _ _ _ _ => rfl,
    fun q hq => Function.update_of_ne hq _ _⟩
  have hinode := h.inodes i
  have hcount := tally_store (u := ip) hp i is
  simp only [setCwd]
  omega

theorem Owes.leave (h : D.Owes fs is) (hp : D.cwd p = some ip) :
    (D.setCwd p none).Owes fs (ip :: is) ∧ Steady p D (D.setCwd p none) := by
  refine ⟨⟨h.files, fun i => ?_, h.idle, h.writers, h.order⟩, fun _ _ _ => rfl, fun _ _ _ _ _ => rfl,
    fun q hq => Function.update_of_ne hq _ _⟩
  have hinode := h.inodes i
  have hcount := tally_take hp i is
  simp only [setCwd]
  omega

/-! ## Files -/

/-- A file gets one reference more. -/
theorem Owes.filedup (h : D.Owes fs is) (f : FileIx) :
    (D.setFile f { D.ftable f with ref := (D.ftable f).ref + 1 }).Owes (f :: fs) is ∧
      Steady p D (D.setFile f { D.ftable f with ref := (D.ftable f).ref + 1 }) := by
  have hsame : ∀ g, ((D.setFile f { D.ftable f with ref := (D.ftable f).ref + 1 }).ftable g) =
      { D.ftable g with ref := (D.ftable g).ref + single g f } := by
    intro g
    by_cases hg : g = f
    · subst hg
      simp [setFile]
    · simp [setFile, hg, single_ne (Ne.symm hg)]
  refine ⟨⟨fun g => ?_, fun i => ?_, fun g hg => ?_, fun pg => ?_, h.order⟩, fun _ _ _ => rfl,
    fun q _ i g _ => by rw [hsame]; rfl, fun _ _ => rfl⟩
  · have hfile := h.files g
    rw [hsame, count_cons]
    simp only [setFile]
    omega
  · simp only [hsame]
    exact h.inodes i
  · have hfile := h.files g
    rw [hsame] at hg ⊢
    exact h.idle g (by simp only at hg; omega)
  · simp only [hsame]
    exact h.writers pg

/-- A file that is not in use is nobody's. -/
theorem Owes.unheld (h : D.Owes fs is) (hf : (D.ftable f).ref = 0) :
    (∀ a, D.ofile a ≠ some f) ∧ f ∉ fs := by
  have hfile := h.files f
  refine ⟨fun a ha => ?_, fun hmem => ?_⟩
  · have := tally_pos ha
    omega
  · have := List.count_pos_iff.2 hmem
    omega

/-- A file with references that has no type yet becomes one of the inode that
the call holds. -/
theorem Owes.setInode (h : D.Owes fs (ip :: is)) (hf : (D.ftable f).type = .none)
    (href : (D.ftable f).ref ≠ 0) {fl : File} (hfl : fl.inode = some ip) (hfr : fl.ref = (D.ftable f).ref) :
    (D.setFile f fl).Owes fs is := by
  have hend := File.writeEnd_of_inode hfl
  refine ⟨fun g => ?_, fun i => ?_, fun g hg => ?_, fun pg => ?_, h.order⟩
  · have hfile := h.files g
    simp only [setFile]
    by_cases hg : g = f
    · subst hg
      rw [Function.update_self, hfr]
      exact hfile
    · rw [Function.update_of_ne hg]
      exact hfile
  · have hinode := h.inodes i
    have hcount := tally_store (x := fun f => (D.ftable f).inode) (i := f) (u := ip)
      (by simp [File.inode, hf]) i is
    have heq : (fun g => ((D.setFile f fl).ftable g).inode) =
        Function.update (fun g => (D.ftable g).inode) f (some ip) := by
      funext g
      by_cases hg : g = f
      · subst hg
        simp [setFile, hfl]
      · simp [setFile, hg]
    rw [heq]
    simp only [setFile]
    omega
  · simp only [setFile] at hg ⊢
    by_cases hgf : g = f
    · subst hgf
      rw [Function.update_self, hfr] at hg
      exact absurd hg href
    · rw [Function.update_of_ne hgf] at hg ⊢
      exact h.idle g hg
  · have heq : (fun g => ((D.setFile f fl).ftable g).writeEnd) = fun g => (D.ftable g).writeEnd := by
      funext g
      by_cases hg : g = f
      · subst hg
        simp only [setFile, Function.update_self, hend]
        simp [File.writeEnd, hf]
      · simp [setFile, hg]
    rw [heq]
    exact h.writers pg

/-- Two files without a type become the ends of a new pipe. -/
theorem Owes.openPipe {f₀ f₁ : FileIx} (pg : Ppn) (h : D.Owes fs is) (hne : f₀ ≠ f₁)
    (h₀ : (D.ftable f₀).type = .none) (h₁ : (D.ftable f₁).type = .none)
    (hr₀ : (D.ftable f₀).ref ≠ 0) (hr₁ : (D.ftable f₁).ref ≠ 0) :
    ((({ D with pipes := ⟨pg, true, true⟩ :: D.pipes } : Desk).setFile f₀
      { D.ftable f₀ with type := .pipe pg, readable := true, writable := false }).setFile f₁
      { D.ftable f₁ with type := .pipe pg, readable := false, writable := true }).Owes fs is := by
  have hother : ∀ g, g ≠ f₀ → g ≠ f₁ → Function.update (Function.update D.ftable f₀
      { D.ftable f₀ with type := .pipe pg, readable := true, writable := false }) f₁
      { D.ftable f₁ with type := .pipe pg, readable := false, writable := true } g = D.ftable g := by
    intro g hg₀ hg₁
    rw [Function.update_of_ne hg₁, Function.update_of_ne hg₀]
  refine ⟨fun g => ?_, fun i => ?_, fun g hg => ?_, fun pg' => ?_, ?_⟩
  · have hfile := h.files g
    simp only [setFile]
    by_cases hg₁ : g = f₁
    · subst hg₁
      rw [Function.update_self]
      exact hfile
    · by_cases hg₀ : g = f₀
      · subst hg₀
        rw [Function.update_of_ne hg₁, Function.update_self]
        exact hfile
      · rw [hother g hg₀ hg₁]
        exact hfile
  · have hinode := h.inodes i
    simp only [setFile]
    have heq : (fun g => (Function.update (Function.update D.ftable f₀
        { D.ftable f₀ with type := .pipe pg, readable := true, writable := false }) f₁
        { D.ftable f₁ with type := .pipe pg, readable := false, writable := true } g).inode) =
        fun g => (D.ftable g).inode := by
      funext g
      by_cases hg₁ : g = f₁
      · subst hg₁
        simp [File.inode, h₁]
      · by_cases hg₀ : g = f₀
        · subst hg₀
          simp [File.inode, h₀, hne]
        · rw [hother g hg₀ hg₁]
    rw [heq]
    exact hinode
  · simp only [setFile] at hg ⊢
    by_cases hg₁ : g = f₁
    · subst hg₁
      rw [Function.update_self] at hg
      exact absurd hg hr₁
    · by_cases hg₀ : g = f₀
      · subst hg₀
        rw [Function.update_of_ne hg₁, Function.update_self] at hg
        exact absurd hg hr₀
      · rw [hother g hg₀ hg₁] at hg ⊢
        exact h.idle g hg
  · have hw := h.writers pg'
    have hcount := tally_store (x := fun f => (D.ftable f).writeEnd) (i := f₁) (u := pg)
      (by simp [File.writeEnd, h₁]) pg' []
    have heq : (fun g => (Function.update (Function.update D.ftable f₀
        { D.ftable f₀ with type := .pipe pg, readable := true, writable := false }) f₁
        { D.ftable f₁ with type := .pipe pg, readable := false, writable := true } g).writeEnd) =
        Function.update (fun g => (D.ftable g).writeEnd) f₁ (some pg) := by
      funext g
      by_cases hg₁ : g = f₁
      · subst hg₁
        simp [File.writeEnd]
      · by_cases hg₀ : g = f₀
        · subst hg₀
          simp [File.writeEnd, h₀, hne]
        · rw [hother g hg₀ hg₁, Function.update_of_ne hg₁]
    simp only [setFile, openWriters, List.countP_cons] at hw ⊢
    rw [heq]
    rw [count_cons, List.count_nil, single] at hcount
    by_cases hpg : pg = pg'
    · simp only [hpg, if_true] at hcount ⊢
      simp only [true_and, decide_true, if_true]
      omega
    · simp only [hpg, if_false] at hcount ⊢
      simp only [false_and, decide_false]
      simpa using hw.trans (by omega)
  · exact List.pairwise_cons.2 ⟨fun _ _ _ _ => rfl, h.order⟩

/-- The file that changes is nobody else's. -/
theorem Steady.setFile {fl : File} (h : ∀ q, q ≠ p → ∀ fd, D.ofile (q, fd) ≠ some f) :
    Steady p D (D.setFile f fl) := by
  refine ⟨fun _ _ _ => rfl, fun q hq fd g hg => ?_, fun _ _ => rfl⟩
  have hgf : g ≠ f := fun heq => h q hq fd (heq ▸ hg)
  simp only [Desk.setFile]
  rw [Function.update_of_ne hgf]

/-! ## Closing -/

/-- Closing an end of the pipe at `pg` opens no writing end, and closes one if
it was the writing end. -/
theorem openWriters_pipeclose (hord : Ordered D.pipes) (pg : Ppn) (w : Bool) :
    Ordered (D.pipeclose pg w).pipes ∧
      (∀ pg', (D.pipeclose pg w).openWriters pg' ≤ D.openWriters pg') ∧
      (w = true → (D.pipeclose pg w).openWriters pg ≤ D.openWriters pg - 1) := by
  unfold pipeclose
  split
  · rename_i hnone
    refine ⟨hord, fun _ => le_rfl, fun _ => ?_⟩
    have hzero : D.openWriters pg = 0 := by
      refine List.countP_eq_zero.2 fun pi hpi hpg => ?_
      have := List.find?_eq_none.1 hnone pi hpi
      simp_all
    omega
  · rename_i pi hfind
    obtain ⟨hpi, as, bs, hsplit, hbefore⟩ := List.find?_eq_some_iff_append.1 hfind
    have hpage : pi.page = pg := by simpa using hpi
    split
    · -- the pipe is taken off the list
      have herase : D.pipes.eraseP (fun pi => pi.page = pg) = as ++ bs := by
        rw [hsplit, List.eraseP_append_right _ (by simpa using hbefore)]
        simp [hpage]
      rw [herase]
      have hold : ∀ pg', D.openWriters pg' = as.countP (fun pi => pi.page = pg' ∧ pi.writeopen) +
          (bs.countP (fun pi => pi.page = pg' ∧ pi.writeopen) +
            if decide (pi.page = pg' ∧ pi.writeopen) then 1 else 0) := by
        intro pg'
        rw [openWriters, hsplit, List.countP_append, List.countP_cons]
      have hnew : ∀ pg', openWriters { D with pipes := as ++ bs } pg' =
          as.countP (fun pi => pi.page = pg' ∧ pi.writeopen) +
            bs.countP (fun pi => pi.page = pg' ∧ pi.writeopen) := fun pg' => List.countP_append
      refine ⟨?_, fun pg' => ?_, fun _ => ?_⟩
      · exact List.Pairwise.sublist (by rw [hsplit]; simp) hord
      · rw [hold, hnew]
        omega
      · have has : as.countP (fun pi => pi.page = pg ∧ pi.writeopen) = 0 := by
          refine List.countP_eq_zero.2 fun x hx hxpg => ?_
          have := hbefore x hx
          simp_all
        rw [hold, hnew, has]
        by_cases hopen : pi.writeopen = true
        · simp [hpage, hopen]
        · -- the older ones at this page are closed for writing too
          have hbs : bs.countP (fun pi => pi.page = pg ∧ pi.writeopen) = 0 := by
            refine List.countP_eq_zero.2 fun x hx hxpg => hopen ?_
            obtain ⟨hxp, hxo⟩ : x.page = pg ∧ x.writeopen = true := by simpa using hxpg
            have hrel := (List.pairwise_append.1 (hsplit ▸ hord)).2.1
            exact List.rel_of_pairwise_cons hrel hx (hpage.trans hxp.symm) hxo
          rw [hbs]
          omega
    · refine ⟨?_, fun pg' => ?_, fun hw => ?_⟩
      · refine List.pairwise_map.2 (hord.imp fun {a b} hab => ?_)
        by_cases ha : a.page = pg <;> by_cases hb : b.page = pg <;>
          cases w <;> simp_all [Pipe.close]
      · simp only [openWriters, List.countP_map]
        refine List.countP_mono_left fun x _ hx => ?_
        by_cases hxp : x.page = pg <;> cases w <;> simp_all [Pipe.close]
      · subst hw
        have hzero : (D.pipes.map fun pi => if pi.page = pg then pi.close true else pi).countP
            (fun pi => pi.page = pg ∧ pi.writeopen) = 0 := by
          rw [List.countP_map]
          refine List.countP_eq_zero.2 fun x _ hx => ?_
          by_cases hxp : x.page = pg <;> simp_all [Pipe.close]
        simp only [openWriters, hzero]
        omega

theorem pipeclose_frame (D : Desk) (pg : Ppn) (w : Bool) :
    (D.pipeclose pg w).ofile = D.ofile ∧ (D.pipeclose pg w).cwd = D.cwd ∧
      (D.pipeclose pg w).ftable = D.ftable ∧ (D.pipeclose pg w).iref = D.iref := by
  unfold pipeclose
  split
  · exact ⟨rfl, rfl, rfl, rfl⟩
  · split <;> exact ⟨rfl, rfl, rfl, rfl⟩

/-- A file loses one of several references. -/
theorem Owes.dropRef (h : D.Owes (f :: fs) is) (hf : 0 < (D.ftable f).ref - 1) :
    (D.setFile f { D.ftable f with ref := (D.ftable f).ref - 1 }).Owes fs is := by
  have hsame : ∀ g, ((D.setFile f { D.ftable f with ref := (D.ftable f).ref - 1 }).ftable g) =
      { D.ftable g with ref := (D.ftable g).ref - single g f } := by
    intro g
    by_cases hg : g = f
    · subst hg
      simp [setFile]
    · simp [setFile, hg, single_ne (Ne.symm hg)]
  refine ⟨fun g => ?_, fun i => ?_, fun g hg => ?_, fun pg => ?_, h.order⟩
  · have hfile := h.files g
    rw [count_cons] at hfile
    rw [hsame]
    simp only [setFile]
    omega
  · simp only [hsame]
    exact h.inodes i
  · rw [hsame] at hg ⊢
    refine h.idle g ?_
    by_cases hgf : g = f
    · subst hgf
      simp only [single_self] at hg
      omega
    · simp only [single_ne (Ne.symm hgf)] at hg
      simpa using hg
  · simp only [hsame]
    exact h.writers pg

/-- The last reference to a file is dropped: its inode is in the hand of the
call, and its writing end counts no more. -/
theorem Owes.lastRef (h : D.Owes (f :: fs) is) (hf : (D.ftable f).ref = 1) {D₁ : Desk}
    (hD₁ : D₁ = D.setFile f { D.ftable f with ref := 0, type := .none }) :
    (∀ a, D.ofile a ≠ some f) ∧
    (∀ g, (D₁.ftable g).ref = tally D₁.ofile g + fs.count g) ∧
    (∀ g, (D₁.ftable g).ref = 0 → (D₁.ftable g).type = .none) ∧
    (∀ i, tally (fun g => (D₁.ftable g).inode) i + ofOption (single i) (D.ftable f).inode =
      tally (fun g => (D.ftable g).inode) i) ∧
    (∀ pg, tally (fun g => (D₁.ftable g).writeEnd) pg + ofOption (single pg) (D.ftable f).writeEnd =
      tally (fun g => (D.ftable g).writeEnd) pg) := by
  subst hD₁
  have hself := h.files f
  rw [count_cons, single_self] at hself
  refine ⟨fun a ha => ?_, fun g => ?_, fun g hg => ?_, fun i => ?_, fun pg => ?_⟩
  · have := tally_pos ha
    omega
  · have hfile := h.files g
    rw [count_cons] at hfile
    simp only [setFile]
    by_cases hg : g = f
    · subst hg
      rw [Function.update_self]
      dsimp only
      omega
    · rw [Function.update_of_ne hg]
      rw [single_ne (Ne.symm hg)] at hfile
      omega
  · simp only [setFile] at hg ⊢
    by_cases hgf : g = f
    · subst hgf
      simp
    · rw [Function.update_of_ne hgf] at hg ⊢
      exact h.idle g hg
  · have hcount := tally_update (fun g => (D.ftable g).inode) f none i
    have heq : (fun g => ((D.setFile f { D.ftable f with ref := 0, type := .none }).ftable g).inode) =
        Function.update (fun g => (D.ftable g).inode) f none := by
      funext g
      by_cases hg : g = f
      · subst hg
        simp [setFile, File.inode]
      · simp [setFile, hg]
    rw [heq]
    simpa using hcount
  · have hcount := tally_update (fun g => (D.ftable g).writeEnd) f none pg
    have heq : (fun g => ((D.setFile f { D.ftable f with ref := 0, type := .none }).ftable g).writeEnd) =
        Function.update (fun g => (D.ftable g).writeEnd) f none := by
      funext g
      by_cases hg : g = f
      · subst hg
        simp [setFile, File.writeEnd]
      · simp [setFile, hg]
    rw [heq]
    simpa using hcount

/-- Clearing a descriptor can wait until the file is closed. -/
theorem fileclose_setFd (D : Desk) (f : FileIx) (p : Slot) (fd : Fin nofile) :
    (D.fileclose f).setFd p fd none = (D.setFd p fd none).fileclose f := by
  have hpipe : ∀ (D : Desk) pg w, (D.pipeclose pg w).setFd p fd none = (D.setFd p fd none).pipeclose pg w := by
    intro D pg w
    unfold pipeclose
    rw [show (D.setFd p fd none).pipes = D.pipes from rfl]
    split
    · rfl
    · split <;> rfl
  unfold Desk.fileclose
  rw [show (D.setFd p fd none).ftable f = D.ftable f from rfl]
  dsimp only
  split
  · rfl
  · split
    · exact hpipe _ _ _
    · rfl
    · rfl
    · rfl

/-- `fileclose` puts a reference down. -/
theorem Owes.fileclose (h : D.Owes (f :: fs) is) :
    (D.fileclose f).Owes fs is ∧ Steady p D (D.fileclose f) := by
  have hself := h.files f
  rw [count_cons, single_self] at hself
  unfold Desk.fileclose
  dsimp only
  split
  · rename_i hpos
    refine ⟨h.dropRef hpos, fun _ _ _ => rfl, fun q _ fd g _ => ?_, fun _ _ => rfl⟩
    simp only [setFile]
    by_cases hg : g = f
    · subst hg
      rw [Function.update_self]
      rfl
    · rw [Function.update_of_ne hg]
  · rename_i hpos
    have hone : (D.ftable f).ref = 1 := by omega
    obtain ⟨hheld, hfiles, hidle, hinode, hend⟩ := h.lastRef hone rfl
    generalize hD₁ : D.setFile f { D.ftable f with ref := 0, type := .none } = D₁ at hfiles hidle hinode hend
    have hof : D₁.ofile = D.ofile := by rw [← hD₁]; rfl
    have hcwd : D₁.cwd = D.cwd := by rw [← hD₁]; rfl
    have hiref : D₁.iref = D.iref := by rw [← hD₁]; rfl
    have hpipes : D₁.pipes = D.pipes := by rw [← hD₁]; rfl
    have hopen : ∀ pg, D₁.openWriters pg = D.openWriters pg := fun pg => by rw [openWriters, hpipes]; rfl
    have hsteady : Steady p D D₁ := by
      refine ⟨fun _ _ _ => by rw [hof], fun q _ fd g hg => ?_, fun _ _ => by rw [hcwd]⟩
      have hgf : g ≠ f := fun heq => hheld _ (heq ▸ hg)
      rw [← hD₁]
      simp only [setFile]
      rw [Function.update_of_ne hgf]
    -- without an inode nothing is owed for it
    have hnone : (D.ftable f).inode = none → ∀ i,
        D₁.iref i = tally D₁.cwd i + tally (fun g => (D₁.ftable g).inode) i + is.count i := by
      intro hn i
      have hold := h.inodes i
      have hsum := hinode i
      rw [hn, ofOption_none] at hsum
      rw [hiref, hcwd]
      omega
    have hsome : ∀ ip, (D.ftable f).inode = some ip → D₁.Owes fs (ip :: is) := by
      intro ip hip
      have hw := File.writeEnd_of_inode hip
      refine ⟨hfiles, fun i => ?_, hidle, fun pg => ?_, hpipes ▸ h.order⟩
      · have hold := h.inodes i
        have hsum := hinode i
        rw [hip, ofOption_some] at hsum
        rw [hiref, hcwd, count_cons]
        omega
      · have hwr := h.writers pg
        have hsum := hend pg
        rw [hw, ofOption_none] at hsum
        rw [hopen]
        omega
    split
    · rename_i pg htype
      obtain ⟨hord, hle, hless⟩ := openWriters_pipeclose (D := D₁) (hpipes ▸ h.order) pg (D.ftable f).writable
      obtain ⟨hpof, hpcwd, hpft, hpiref⟩ := pipeclose_frame D₁ pg (D.ftable f).writable
      refine ⟨⟨by rw [hpft, hpof]; exact hfiles, ?_, by rw [hpft]; exact hidle, fun pg' => ?_, hord⟩,
        hsteady.trans ⟨fun _ _ _ => by rw [hpof], fun _ _ _ _ _ => by rw [hpft], fun _ _ => by rw [hpcwd]⟩⟩
      · rw [hpiref, hpcwd, hpft]
        exact hnone (by simp [File.inode, htype])
      · have hwr := h.writers pg'
        have hsum := hend pg'
        have hle' := hle pg'
        rw [hopen] at hle'
        rw [hpft]
        by_cases hw : (D.ftable f).writable = true
        · have hwe : (D.ftable f).writeEnd = some pg := by simp [File.writeEnd, htype, hw]
          rw [hwe, ofOption_some] at hsum
          by_cases hpg : pg = pg'
          · subst hpg
            have hless' := hless hw
            rw [hopen] at hless'
            rw [single_self] at hsum
            omega
          · rw [single_ne hpg] at hsum
            omega
        · have hwe : (D.ftable f).writeEnd = none := by simp [File.writeEnd, htype, hw]
          rw [hwe, ofOption_none] at hsum
          omega
    · rename_i ip htype
      exact ⟨(hsome ip (by simp [File.inode, htype])).iput, hsteady.trans (.addRef _ _ _ _)⟩
    · rename_i ip htype
      exact ⟨(hsome ip (by simp [File.inode, htype])).iput, hsteady.trans (.addRef _ _ _ _)⟩
    · rename_i htype
      refine ⟨⟨hfiles, hnone (by simp [File.inode, htype]), hidle, fun pg => ?_, hpipes ▸ h.order⟩, hsteady⟩
      have hwr := h.writers pg
      have hsum := hend pg
      have hwe : (D.ftable f).writeEnd = none := by simp [File.writeEnd, htype]
      rw [hwe, ofOption_none] at hsum
      rw [hopen]
      omega

end Desk

end Xv6
