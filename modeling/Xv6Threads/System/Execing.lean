-- SUMMARY: exec: the arguments the new program finds, and what a failed call leaves behind.
import Xv6Threads.Process.Fitting
import Xv6Threads.System.Equipped
import Xv6Threads.System.Frames
import Xv6Threads.System.Range

/-!
# exec

The two ends of `exec`. When it succeeds, the new program finds its arguments
on the stack. When it fails, the label `bad` gives up what was built so far:
before the new table is there nothing is left behind; after that either the
size is still zero and giving the table up panics, or the pages of the image
are dropped by count, and pages that were never shared have none.
-/

namespace Xv6

open PageTable

variable {b : Boot} {k k' : Kernel} {p : Slot} {path : String} {img : Image} {file : Option Image}
  {argv : List (List UInt8)} {r : Int} {f : Ppn}

/-! ## Pages of a table -/

namespace Kernel

/-! ## The stages of exec -/

/-- The program is loaded into the table `pt` of size `sz`. -/
structure Loaded (k : Kernel) (p : Slot) (img : Image) (m : Mem) (pt : PageTable) (sz : Nat) : Prop where
  header : img.header = true
  kitted : (k.proc p).Kitted
  built : ∃ tf m₀ pt₀, (k.proc p).trapframe = some tf ∧ procPagetable k.mem k.tramp tf.page = .ok (some pt₀, m₀) ∧
    loadSegments img.phdrs m₀ pt₀ 0 = .ok (true, sz, m, pt)

theorem Loaded.space {m : Mem} {pt : PageTable} {sz : Nat} (h : k.Loaded p img m pt sz) : Built k.mem m pt sz := by
  obtain ⟨tf, m₀, pt₀, -, hcreate, hload⟩ := h.built
  exact (procPagetable_built hcreate).loadSegments hload

/-- What is left to do once the program is loaded. -/
theorem Loaded.exec_eq {m : Mem} {pt : PageTable} {sz : Nat} (h : k.Loaded p img m pt sz) (path : String)
    (argv : List (List UInt8)) : ∃ tf old, (k.proc p).trapframe = some tf ∧ (k.proc p).pagetable = some old ∧
      k.exec p path (some img) argv = (do
        match ← buildStack m pt sz argv with
        | (none, sz, m, pt) => k.execBad m pt sz
        | (some sp, sz, m, pt) =>
          let m ← procFreepagetable m old (k.proc p).sz
          .ok (argv.length, { k with mem := m }.modify p fun pr =>
            { pr with
              name := progName path
              pagetable := some pt
              sz := sz
              trapframe := some { tf with regs := { tf.regs with a1 := sp, epc := img.entry, sp := sp } } })) := by
  obtain ⟨tf, m₀, pt₀, htf, hcreate, hload⟩ := h.built
  obtain ⟨old, hold⟩ := Option.ne_none_iff_exists'.1 h.kitted.1
  refine ⟨tf, old, htf, hold, ?_⟩
  unfold exec
  dsimp only
  rw [h.header]
  simp only [Bool.not_true, Bool.false_eq_true, if_false]
  rw [htf, hold]
  dsimp only
  rw [hcreate]
  show (loadSegments _ _ _ _ >>= _) = _
  rw [hload]
  rfl

/-- A call that returns `argc` has loaded the program, pushed the arguments and
given up the old address space. -/
theorem exec_commits (h : k.exec p path file argv = .ok (r, k')) (hr : 0 ≤ r) :
    ∃ img m pt sz tf old sp top m₁ pt₁ m₂, file = some img ∧ k.Loaded p img m pt sz ∧
      (k.proc p).trapframe = some tf ∧ (k.proc p).pagetable = some old ∧
      buildStack m pt sz argv = .ok (some sp, top, m₁, pt₁) ∧
      procFreepagetable m₁ old (k.proc p).sz = .ok m₂ ∧ r = argv.length ∧
      k' = { k with mem := m₂ }.modify p fun pr =>
        { pr with
          name := progName path
          pagetable := some pt₁
          sz := top
          trapframe := some { tf with regs := { tf.regs with a1 := sp, epc := img.entry, sp := sp } } } := by
  have hbad : ∀ {m : Mem} {pt : PageTable} {sz : Nat}, k.execBad m pt sz = .ok (r, k') → False := by
    intro m pt sz hb
    obtain ⟨m', -, hb⟩ := Except.bind_ok_iff.1 hb
    cases hb
    cases hr
  simp only [exec] at h
  split at h
  · cases h
    cases hr
  rename_i img
  split at h
  · cases h
    cases hr
  rename_i hheader
  split at h
  · rename_i tf old htf hold
    obtain ⟨⟨o, m₀⟩, hcreate, h⟩ := Except.bind_ok_iff.1 h
    split at h
    · cases h
      cases hr
    rename_i pt₀ m₀' heq
    cases heq
    obtain ⟨⟨loaded, sz, m, pt⟩, hload, h⟩ := Except.bind_ok_iff.1 h
    dsimp only at h
    split at h
    · exact (hbad h).elim
    rename_i hloaded
    obtain rfl : loaded = true := by simpa using hloaded
    obtain ⟨⟨sp, top, m₁, pt₁⟩, hstack, h⟩ := Except.bind_ok_iff.1 h
    split at h
    · exact (hbad h).elim
    · rename_i sp top m₁ pt₁ heq
      cases heq
      obtain ⟨m₂, hfree, h⟩ := Except.bind_ok_iff.1 h
      obtain ⟨rfl, rfl⟩ := Prod.mk.inj (Except.ok.inj h)
      exact ⟨img, m, pt, sz, tf, old, sp, top, m₁, pt₁, m₂, rfl,
        ⟨by simpa using hheader, ⟨by simp [hold], by simp [htf]⟩, tf, m₀, pt₀, htf, hcreate, hload⟩, htf, hold,
        hstack, hfree, rfl, rfl⟩
  · cases h

/-- The program is loaded, and the guard page and the stack page below `top` are
mapped: `exec` goes on to the arguments. -/
structure Reserved (k : Kernel) (p : Slot) (img : Image) (m : Mem) (pt : PageTable) (sz top : Nat) (m₁ : Mem)
    (pt₁ : PageTable) : Prop extends k.Loaded p img m pt sz where
  pages : PageTable.uvmalloc m pt (pgRoundUp sz) (pgRoundUp sz + 2 * pgSize) permW = .ok (top, m₁, pt₁)
  top_ne : top ≠ 0

/-! ## Arguments -/

/-- What the program started by `exec` finds: `argc` strings, their addresses
from the stack pointer on with a zero behind them, all inside the stack page. -/
structure Passes (k' : Kernel) (p : Slot) (argv : List (List UInt8)) (r : Int) (pt : PageTable) (tf : Trapframe)
    (ptrs : List Nat) : Prop where
  count : r = argv.length
  table : (k'.proc p).pagetable = some pt
  frame : (k'.proc p).trapframe = some tf
  a1 : tf.regs.a1 = tf.regs.sp
  aligned : tf.regs.sp % 16 = 0
  above : (k'.proc p).sz - pgSize ≤ tf.regs.sp
  laid : Laid pt k'.mem (k'.proc p).sz tf.regs.sp argv ptrs
  words : ∀ i (h : i < (ptrs ++ [0]).length), pt.loadWord k'.mem (tf.regs.sp + i * 8) = some (ptrs ++ [0])[i]

/-- The stack page comes from the free list. -/
theorem mem_freelist_of_built {m : Mem} {pt : PageTable} {sz : Nat} (h : Built k.mem m pt sz)
    (hf : 0 < pt.user (Weight.single f)) : f ∈ k.mem.freelist := by
  have hpages := h.pages (Weight.single f)
  exact Weight.ofList_single_pos.1 (show 0 < k.mem.weigh (Weight.single f) by omega)

/-- `exec` with the inode of the file: `namei` takes a reference to it, and both
the label `bad` and the end of loading give it back. -/
def execAt (k : Kernel) (p : Slot) (path : String) (file : Option (InodeIx × Image)) (argv : List (List UInt8)) :
    Except Panic (Int × Kernel) :=
  match file with
  | none => .ok (-1, k)
  | some (ip, img) =>
    let k := k.idup ip
    if !img.header then .ok (-1, k.iput ip)
    else
      match (k.proc p).trapframe, (k.proc p).pagetable with
      | some tf, some oldpagetable => do
        match ← procPagetable k.mem k.tramp tf.page with
        | (none, m) => .ok (-1, { k with mem := m }.iput ip)
        | (some pt, m) =>
          let (loaded, sz, m, pt) ← loadSegments img.phdrs m pt 0
          if !loaded then
            let (r, k) ← k.execBad m pt sz
            .ok (r, k.iput ip)
          else
            let k := k.iput ip
            match ← buildStack m pt sz argv with
            | (none, sz, m, pt) => k.execBad m pt sz
            | (some sp, sz, m, pt) =>
              let oldsz := (k.proc p).sz
              let regs := { tf.regs with a1 := sp, epc := img.entry, sp := sp }
              let m ← procFreepagetable m oldpagetable oldsz
              .ok (argv.length, { k with mem := m }.modify p fun pr =>
                { pr with
                  name := progName path
                  pagetable := some pt
                  sz := sz
                  trapframe := some { tf with regs := regs } })
      | _, _ => nullDeref

theorem iput_idup (k : Kernel) (ip : InodeIx) : (k.idup ip).iput ip = k := by
  have hiref : (fun i => if i = ip then (k.idup ip).iref i - 1 else (k.idup ip).iref i) = k.iref := by
    funext i
    simp only [idup]
    split <;> omega
  rw [iput, hiref]
  rfl

/-- The reference makes no difference to the rest of the call, and is given back
on every way out. -/
theorem execAt_eq (k : Kernel) (p : Slot) (path : String) (file : Option (InodeIx × Image))
    (argv : List (List UInt8)) : k.execAt p path file argv = k.exec p path (file.map Prod.snd) argv := by
  match file with
  | none => rfl
  | some (ip, img) =>
    have hmem : ∀ m : Mem, Kernel.iput { k.idup ip with mem := m } ip = { k with mem := m } := fun m =>
      iput_idup { k with mem := m } ip
    simp only [execAt, exec, Option.map_some, iput_idup]
    split
    · rfl
    show (match (k.proc p).trapframe, (k.proc p).pagetable with | some tf, some old => _ | _, _ => _) = _
    cases (k.proc p).trapframe with
    | none => rfl
    | some tf =>
      cases (k.proc p).pagetable with
      | none => rfl
      | some old =>
        refine bind_congr fun ⟨o, m⟩ => ?_
        cases o with
        | none => exact congrArg (fun x => Except.ok (-1, x)) (hmem m)
        | some pt =>
          refine bind_congr fun ⟨loaded, sz, m₁, pt₁⟩ => ?_
          dsimp only
          split
          · simp only [execBad]
            cases procFreepagetable m₁ pt₁ sz with
            | error e => rfl
            | ok m₂ => exact congrArg (fun x => Except.ok (-1, x)) (hmem m₂)
          · rfl

/-- The call does not panic, and if it fails, nothing has changed and every page
it took is back on the free list. -/
def Harmless (k : Kernel) (p : Slot) (path : String) (file : Option (InodeIx × Image)) (argv : List (List UInt8)) :
    Prop :=
  ∃ r k', k.execAt p path file argv = .ok (r, k') ∧
    (r = -1 → k'.proc = k.proc ∧ k'.iref = k.iref ∧ k'.mem.freelist.Perm k.mem.freelist)

/-- The size of an address space with an image of size `sz`, a guard page and a
stack page. -/
def stackTop (sz : Nat) : Nat := (pagesBelow sz + 2) * pgSize

/-- The pages `exec` takes for an address space of size `top`: three for an empty
table, the user pages, and the table pages that an empty table lacks for them. -/
def execNeed (top : Nat) : Nat := 3 + pagesBelow top + blank.missing (Finset.range (pagesBelow top))

/-- The image can be loaded below the trapframe, there is memory for it, the
arguments fit into the stack page, and the caller's address space can be given
up. -/
structure Completes (k : Kernel) (p : Slot) (img : Image) (argv : List (List UInt8)) : Prop where
  reaches : ∃ sz, extent img.phdrs 0 = some sz ∧ stackTop sz ≤ trapframeVa ∧
    execNeed (stackTop sz) ≤ k.mem.freelist.length
  arguments : argSpace argv ≤ pgSize
  gives : ∃ old m, (k.proc p).pagetable = some old ∧ procFreepagetable k.mem old (k.proc p).sz = .ok m

/-- The call fails before it has a table, or not at all. -/
def ExecSafe (k : Kernel) (p : Slot) (file : Option (InodeIx × Image)) (argv : List (List UInt8)) : Prop :=
  file = none ∨ ∃ ip img, file = some (ip, img) ∧
    (img.header = false ∨ k.mem.freelist.length < 3 ∨ k.Completes p img argv)

theorem stackTop_eq {sz : Nat} (h : sz ≤ trapframeVa) : pgRoundUp sz + 2 * pgSize = stackTop sz := by
  rw [stackTop, pgRoundUp_of_le (h.trans (by decide))]
  ring

theorem pagesBelow_stackTop (sz : Nat) : pagesBelow (stackTop sz) = pagesBelow sz + 2 := pagesBelow_mul _

theorem le_stackTop (sz : Nat) : sz ≤ stackTop sz := by
  simp only [stackTop, pagesBelow, pgSize]
  omega

end Kernel

/-- What `exec` has built when the stack or the arguments do not fit. -/
theorem Built.buildStack_none {m₀ m m' : Mem} {pt pt' : PageTable} {sz sz' : Nat} (h : Built m₀ m pt sz)
    (hlen : ∀ a ∈ argv, a.length < pgSize) (hargc : argv.length < maxArg)
    (hs : buildStack m pt sz argv = .ok (none, sz', m', pt')) : Built m₀ m' pt' sz' := by
  have hstages := hs
  rw [buildStack_eq] at hstages
  obtain ⟨⟨top, m₁, pt₁⟩, halloc, hstages⟩ := Except.bind_ok_iff.1 hstages
  have hgrown := h.roundUp.uvmalloc halloc
  dsimp only at hstages
  split at hstages
  · rename_i hzero
    cases hstages
    rwa [if_pos hzero] at hgrown
  · rename_i hne
    obtain ⟨f, m₂, pt₂, hspec, -, -, -, hbuilt, -⟩ := buildStack_spec h halloc hne hlen hargc
    obtain ⟨-, hrest⟩ := Prod.mk.inj (Except.ok.inj (hspec.symm.trans hs))
    cases hrest
    exact hbuilt

namespace Kernel

/-- What a call that returns has done: committed; or failed without a table, with
every page back; or given up the new address space it was building. -/
theorem exec_result (hlen : ∀ a ∈ argv, a.length < pgSize) (hargc : argv.length < maxArg)
    (h : k.exec p path (some img) argv = .ok (r, k')) (hheader : img.header = true) :
    0 ≤ r ∨ (∃ tf m, (k.proc p).trapframe = some tf ∧ procPagetable k.mem k.tramp tf.page = .ok (none, m)) ∨
      ∃ m pt sz m', Built k.mem m pt sz ∧ procFreepagetable m pt sz = .ok m' ∧ r = -1 ∧ k' = { k with mem := m' } := by
  have hbad : ∀ {m : Mem} {pt : PageTable} {sz : Nat}, Built k.mem m pt sz → k.execBad m pt sz = .ok (r, k') →
      ∃ m pt sz m', Built k.mem m pt sz ∧ procFreepagetable m pt sz = .ok m' ∧ r = -1 ∧ k' = { k with mem := m' } := by
    intro m pt sz hbuilt hb
    obtain ⟨m', hfree, hb⟩ := Except.bind_ok_iff.1 hb
    cases hb
    exact ⟨m, pt, sz, m', hbuilt, hfree, rfl, rfl⟩
  simp only [exec, hheader, Bool.not_true, Bool.false_eq_true, if_false] at h
  split at h
  swap
  · cases h
  rename_i tf old htf hold
  obtain ⟨⟨o, m₀⟩, hcreate, h⟩ := Except.bind_ok_iff.1 h
  split at h
  · rename_i heq
    cases heq
    exact .inr (.inl ⟨tf, m₀, htf, hcreate⟩)
  rename_i pt₀ m₀' heq
  cases heq
  obtain ⟨⟨loaded, sz, m, pt⟩, hload, h⟩ := Except.bind_ok_iff.1 h
  have hbuilt := (procPagetable_built hcreate).loadSegments hload
  dsimp only at h
  split at h
  · exact .inr (.inr (hbad hbuilt h))
  obtain ⟨⟨sp, top, m₁, pt₁⟩, hstack, h⟩ := Except.bind_ok_iff.1 h
  split at h
  · rename_i heq
    cases heq
    exact .inr (.inr (hbad (hbuilt.buildStack_none hlen hargc hstack) h))
  · obtain ⟨m₂, -, h⟩ := Except.bind_ok_iff.1 h
    obtain ⟨rfl, -⟩ := Prod.mk.inj (Except.ok.inj h)
    exact .inl (Int.natCast_nonneg _)

/-- Pages of the new image that were never counted are lost with it. -/
theorem discard_loses {m m' : Mem} {pt : PageTable} {sz : Nat} (hclean : ∀ f ∈ k.mem.freelist, k.mem.refcount f ≤ 0)
    (hb : Built k.mem m pt sz) (h : procFreepagetable m pt sz = .ok m') : ¬ m'.freelist.Perm k.mem.freelist := by
  intro hperm
  obtain ⟨hpos, -, -, hd⟩ := procFreepagetable_ok h
  have hfirst : 0 < pagesBelow sz := by
    simp only [pagesBelow, pgSize]
    omega
  obtain ⟨e, he⟩ := Option.ne_none_iff_exists'.1 (hb.full 0 hfirst)
  have huser : 0 < pt.user (Weight.single e.ppn) := by
    have hle : weighEntry (Weight.single e.ppn) (pt.leaf 0) ≤ pt.user (Weight.single e.ppn) :=
      weighEntry_le_span (Nat.le_refl _) (by decide)
    rw [he, weighEntry_some, Weight.single_self] at hle
    exact hle
  have hzero := hclean _ (mem_freelist_of_built hb huser)
  have hnot : freedBy true (m.refcount e.ppn) (pt.user (Weight.single e.ppn)) = 0 := by
    rw [freedBy, if_neg]
    rw [hb.refcount]
    omega
  have hfreed := hd.freed e.ppn
  have hpages := hb.pages (Weight.single e.ppn)
  have hsame : m'.weigh (Weight.single e.ppn) = k.mem.weigh (Weight.single e.ppn) := Weight.ofList_perm hperm _
  omega

/-- With enough memory and arguments that fit, the new address space is built. -/
theorem Completes.loaded (h : k.Completes p img argv) (hheader : img.header = true) (hkit : (k.proc p).Kitted)
    (hlen : ∀ a ∈ argv, a.length < pgSize) (hargc : argv.length < maxArg)
    (hwords : ∀ ph, some ph ∈ img.phdrs → ph.Words) :
    ∃ m pt sz sp top m' pt', k.Loaded p img m pt sz ∧ buildStack m pt sz argv = .ok (some sp, top, m', pt') ∧
      Built k.mem m' pt' top := by
  obtain ⟨sz, hext, htop, hmem⟩ := h.reaches
  obtain ⟨tf, htf⟩ := Option.ne_none_iff_exists'.1 hkit.2
  have hsz := (le_stackTop sz).trans htop
  rw [execNeed, pagesBelow_stackTop] at hmem
  obtain ⟨pt₀, m₀, hcreate⟩ := procPagetable_total (m := k.mem) k.tramp tf.page (by omega)
  obtain ⟨-, hlen₀, hshape⟩ := procPagetable_takes hcreate
  rw [← hshape.missing] at hmem
  have hbuilt₀ := procPagetable_built hcreate
  have hzero : pagesBelow 0 = 0 := rfl
  -- the segments
  have hS : ∀ u < pagesBelow sz, u ∈ Finset.range (pagesBelow sz + 2) := fun u hu => Finset.mem_range.2 (by omega)
  obtain ⟨m, pt, hload⟩ := loadSegments_total hbuilt₀ (fun v hv => absurd hv (by simp [hzero])) hwords hext hsz hS
    (by rw [hzero]; omega)
  have hbuilt := hbuilt₀.loadSegments hload
  have hused := (loadSegments_found hbuilt₀ hload).2 _ hS
  have hloaded : k.Loaded p img m pt sz := ⟨hheader, hkit, tf, m₀, pt₀, htf, hcreate, hload⟩
  -- the guard page and the stack
  have hround : pgRoundUp sz = pagesBelow sz * pgSize := pgRoundUp_of_le (hsz.trans (by decide))
  have hmax : max (pgRoundUp sz) (pgRoundUp sz + 2 * pgSize) = stackTop sz := by
    rw [Nat.max_eq_right (Nat.le_add_right _ _), stackTop_eq hsz]
  have hpages : pagesBelow (max (pgRoundUp sz) (pgRoundUp sz + 2 * pgSize)) = pagesBelow sz + 2 := by
    rw [hmax, pagesBelow_stackTop]
  have hpages' : pagesBelow (pgRoundUp sz) = pagesBelow sz := by rw [hround, pagesBelow_mul]
  have hbelow : max (pgRoundUp sz) (pgRoundUp sz + 2 * pgSize) ≤ trapframeVa := hmax ▸ htop
  obtain ⟨m₁, pt₁, halloc⟩ := hbuilt.roundUp.uvmalloc_total permW hbelow (fun u _ hu => Finset.mem_range.2 (hpages ▸ hu)) (by
      rw [hpages, hpages']
      omega)
  have hne : max (pgRoundUp sz) (pgRoundUp sz + 2 * pgSize) ≠ 0 := by
    rw [hmax, stackTop]
    exact Nat.mul_ne_zero (by omega) (by decide)
  obtain ⟨f, m', pt', hspec, -, -, -, hbuilt', -⟩ := buildStack_spec hbuilt halloc hne hlen hargc
  rw [if_pos h.arguments] at hspec
  exact ⟨m, pt, sz, _, _, m', pt', hloaded, hspec, hbuilt'⟩

/-- A call that has committed has found what it needed. -/
theorem completes_of_commits (hlen : ∀ a ∈ argv, a.length < pgSize) (hargc : argv.length < maxArg)
    (h : k.exec p path (some img) argv = .ok (r, k')) (hr : 0 ≤ r) : k.Completes p img argv := by
  obtain ⟨img', m, pt, sz, tf, old, sp, top, m₁, pt₁, m₂, himg, hload, -, hold, hstack, hfree, -, -⟩ := exec_commits h hr
  cases himg
  have hbuilt := hload.space
  obtain ⟨tf', m₀, pt₀, -, hcreate, hsegs⟩ := hload.built
  have hbuilt₀ := procPagetable_built hcreate
  obtain ⟨hext, hused⟩ := loadSegments_found hbuilt₀ hsegs
  have hstages := hstack
  rw [buildStack_eq] at hstages
  obtain ⟨⟨top', m', pt'⟩, halloc, hstages⟩ := Except.bind_ok_iff.1 hstages
  dsimp only at hstages
  split at hstages
  · cases hstages
  rename_i hne
  obtain ⟨f, m₃, pt₃, hspec, -, -, -, hbuilt', -⟩ := buildStack_spec hbuilt halloc hne hlen hargc
  obtain ⟨hsp, hrest⟩ := Prod.mk.inj (Except.ok.inj (hspec.symm.trans hstack))
  cases hrest
  have hgrown := hbuilt.roundUp.uvmalloc halloc
  rw [if_neg hne] at hgrown
  have hmax : max (pgRoundUp sz) (pgRoundUp sz + 2 * pgSize) = stackTop sz := by
    rw [Nat.max_eq_right (Nat.le_add_right _ _), stackTop_eq hbuilt.size]
  obtain rfl : top = stackTop sz := by
    obtain ⟨hi, -, ⟨htop, -⟩ | ⟨htop, -⟩⟩ := uvmalloc_ok (hbuilt.roundUp.size.trans (by decide)) halloc
    · exact htop.trans hmax
    · exact absurd htop hne
  refine ⟨⟨sz, hext, hbuilt'.size, ?_⟩, ?_, ⟨old, ?_⟩⟩
  · -- three pages for the table, then the segments, then the stack
    rw [execNeed, pagesBelow_stackTop]
    obtain ⟨-, hlen₀, hshape⟩ := procPagetable_takes hcreate
    have hfirst := hused (Finset.range (pagesBelow sz + 2)) fun u hu => Finset.mem_range.2 (by omega)
    have hsecond := uvmalloc_used (S := Finset.range (pagesBelow sz + 2)) (fun u _ hu => Finset.mem_range.2 (by
      rwa [hmax, pagesBelow_stackTop] at hu)) (hbuilt.roundUp.size.trans (by decide)) halloc hne
    rw [hmax, pagesBelow_stackTop, pgRoundUp_of_le (hbuilt.size.trans (by decide)), pagesBelow_mul] at hsecond
    have hfull : pt'.missing (Finset.range (pagesBelow sz + 2)) = 0 := missing_eq_zero fun u hu => by
      refine hgrown.full u ?_
      rw [pagesBelow_stackTop]
      exact Finset.mem_range.1 hu
    have hzero : pagesBelow 0 = 0 := rfl
    rw [← hshape.missing]
    omega
  · by_contra hlarge
    rw [if_neg hlarge] at hsp
    cases hsp
  · have hsame : m₁.SameCounts k.mem := ⟨hbuilt'.kend.symm, hbuilt'.refcount.symm⟩
    obtain ⟨m₄, hm₄, -⟩ := procFreepagetableWith_sameCounts hsame hfree
    exact ⟨m₄, hold, hm₄⟩

/-- Without a table every page goes back. -/
theorem perm_of_procPagetable_none {m m' : Mem} {tramp tf : Ppn} (h : procPagetable m tramp tf = .ok (none, m')) :
    m'.freelist.Perm m.freelist :=
  Weight.perm_of_ofList fun w => (procPagetable_none h w).weigh

/-- `exec` is harmless if it fails before it has a table or does not fail at all;
and as long as no free page carries a count, it is harmless in no other case. -/
theorem exec_harmless_iff {file : Option (InodeIx × Image)} (hk : Reachable b k) (hp : (k.proc p).state = .running)
    (hargc : argv.length < maxArg) (hlen : ∀ a ∈ argv, a.length < pgSize)
    (hwords : ∀ ip img ph, file = some (ip, img) → some ph ∈ img.phdrs → ph.Words) :
    (k.ExecSafe p file argv → k.Harmless p path file argv) ∧
      ((∀ f ∈ k.mem.freelist, k.mem.refcount f ≤ 0) → k.Harmless p path file argv → k.ExecSafe p file argv) := by
  have hrange : k.mem.Ranged := ranged_of_reaches hk
  have hkit : (k.proc p).Kitted := equipped_of_reachable hk p (by rw [hp]; rfl)
  obtain ⟨tf, htf⟩ := Option.ne_none_iff_exists'.1 hkit.2
  obtain ⟨old, hold⟩ := Option.ne_none_iff_exists'.1 hkit.1
  have hidle : ∀ {m : Mem}, m.freelist.Perm k.mem.freelist → k.execAt p path file argv = .ok (-1, { k with mem := m }) →
      k.Harmless p path file argv := fun hperm h => ⟨-1, _, h, fun _ => ⟨rfl, rfl, hperm⟩⟩
  constructor
  · rintro (rfl | ⟨ip, img, rfl, hcase⟩)
    · exact hidle (m := k.mem) (.refl _) rfl
    cases hheader : img.header with
    | false =>
      refine hidle (m := k.mem) (.refl _) ?_
      rw [execAt_eq]
      simp [exec, hheader]
    | true =>
      rcases hcase with hfalse | hshort | hcomplete
      · rw [hheader] at hfalse
        cases hfalse
      · obtain ⟨m, hnone⟩ := procPagetable_short k.tramp tf.page hrange hshort
        refine hidle (perm_of_procPagetable_none hnone) ?_
        rw [execAt_eq]
        simp only [exec, Option.map_some, hheader, Bool.not_true, Bool.false_eq_true, if_false, htf, hold]
        exact Except.bind_ok_iff.2 ⟨_, hnone, rfl⟩
      · obtain ⟨m, pt, sz, sp, top, m', pt', hload, hstack, hbuilt⟩ :=
          hcomplete.loaded hheader hkit hlen hargc fun ph => hwords ip img ph rfl
        obtain ⟨tf', old', -, hold', hexec⟩ := hload.exec_eq path argv
        obtain ⟨old'', m₁, hold'', hfree⟩ := hcomplete.gives
        obtain rfl : old'' = old' := Option.some.inj (hold''.symm.trans hold')
        have hsame : k.mem.SameCounts m' := ⟨hbuilt.kend, hbuilt.refcount⟩
        obtain ⟨m₂, hfree', -⟩ := procFreepagetableWith_sameCounts hsame hfree
        have hrun := hexec.trans (Except.bind_ok_iff.2 ⟨_, hstack, Except.bind_ok_iff.2 ⟨m₂, hfree', rfl⟩⟩)
        refine ⟨_, _, (execAt_eq ..).trans hrun, fun hr => ?_⟩
        omega
  · rintro hclean ⟨r, k', h, hfail⟩
    rw [execAt_eq] at h
    rcases file with _ | ⟨ip, img⟩
    · exact .inl rfl
    · refine .inr ⟨ip, img, rfl, ?_⟩
      cases hheader : img.header with
      | false => exact .inl rfl
      | true =>
        refine .inr ?_
        rcases exec_result hlen hargc h hheader with hr | ⟨tf', m, htf', hnone⟩ | ⟨m, pt, sz, m', hbuilt, hfree, hr, rfl⟩
        · exact .inr (completes_of_commits hlen hargc h hr)
        · refine .inl (Nat.lt_of_not_le fun hthree => ?_)
          obtain ⟨pt, m', hsome⟩ := procPagetable_total (m := k.mem) k.tramp tf'.page hthree
          rw [hnone] at hsome
          cases hsome
        · exact absurd (hfail hr).2.2 (discard_loses hclean hbuilt hfree)

end Kernel

/-- A program of one page. -/
def Image.small : Image where
  header := true
  entry := 0
  phdrs := [some ⟨true, 0, 3, 4096, true, false, [1, 2, 3]⟩]

/-- The first process starts a program for which there is memory. -/
theorem exec_harmless_of_small : ∃ k : Kernel, Reachable (.tight 100) k ∧
    k.ExecSafe ⟨0, by decide⟩ (some (⟨0, by decide⟩, .small)) [[104, 105], [33]] ∧
      k.Harmless ⟨0, by decide⟩ "/echo" (some (⟨0, by decide⟩, .small)) [[104, 105], [33]] := by
  have hrun : ((Boot.tight 100).run anyStep [.schedule ⟨0, by decide⟩]).any
      (fun k => (k.proc ⟨0, by decide⟩).state = .running ∧ Kernel.execNeed (Kernel.stackTop 4096) ≤ k.mem.freelist.length ∧
        (k.proc ⟨0, by decide⟩).pagetable.any (fun old =>
          (procFreepagetable k.mem old (k.proc ⟨0, by decide⟩).sz).toBool) = true) = true := by
    decide +kernel
  obtain ⟨k, hk, hc⟩ := exists_reaches_of_run hrun
  obtain ⟨hp, hmem, hfree⟩ := of_decide_eq_true hc
  have hgives : ∃ old m, (k.proc ⟨0, by decide⟩).pagetable = some old ∧
      procFreepagetable k.mem old (k.proc ⟨0, by decide⟩).sz = .ok m := by
    cases hold : (k.proc ⟨0, by decide⟩).pagetable with
    | none =>
      rw [hold] at hfree
      cases hfree
    | some old =>
      rw [hold, Option.any_some] at hfree
      cases hm : procFreepagetable k.mem old (k.proc ⟨0, by decide⟩).sz with
      | error e =>
        rw [hm] at hfree
        cases hfree
      | ok m => exact ⟨old, m, rfl, hm⟩
  have hsafe : k.ExecSafe ⟨0, by decide⟩ (some (⟨0, by decide⟩, .small)) [[104, 105], [33]] :=
    .inr ⟨_, _, rfl, .inr (.inr ⟨⟨4096, by decide, by decide, hmem⟩, by decide, hgives⟩)⟩
  have hwords : ∀ (ip : InodeIx) (img : Image) (ph : Segment),
      some ((⟨0, by decide⟩, .small) : InodeIx × Image) = some (ip, img) → some ph ∈ img.phdrs → ph.Words := by
    rintro ip img ph himg hph
    cases himg
    obtain rfl : ph = ⟨true, 0, 3, 4096, true, false, [1, 2, 3]⟩ := by simpa [Image.small] using hph
    decide
  exact ⟨k, hk, hsafe, (Kernel.exec_harmless_iff hk hp (by decide) (by decide) hwords).1 hsafe⟩

/-- A file whose first program header cannot be read: there is a table by then,
but nothing in it, and giving it up panics. -/
theorem exec_harmless_of_short : ¬ ∀ (b : Boot) (k : Kernel) (p : Slot) (path : String)
    (file : Option (InodeIx × Image)) (argv : List (List UInt8)), Reachable b k → (k.proc p).state = .running →
      argv.length < maxArg → (∀ a ∈ argv, a.length < pgSize) → k.Harmless p path file argv := by
  intro hall
  have hrun : ((Boot.tight 100).run anyStep [.schedule ⟨0, by decide⟩]).any
      (fun k => (k.proc ⟨0, by decide⟩).state = .running ∧
        (match k.execAt ⟨0, by decide⟩ "/sh" (some (⟨0, by decide⟩, ⟨true, 0, [none]⟩)) [] with
          | .ok _ => false
          | .error e => decide (e = .panic "uvmfree_shared: sz is 0")) = true) = true := by
    decide +kernel
  obtain ⟨k, hk, hc⟩ := exists_reaches_of_run hrun
  obtain ⟨hp, hexec⟩ := of_decide_eq_true hc
  obtain ⟨r, k', h, -⟩ := hall _ k ⟨0, by decide⟩ "/sh" (some (⟨0, by decide⟩, ⟨true, 0, [none]⟩)) [] hk hp
    (by decide) (by decide)
  rw [h] at hexec
  cases hexec

end Xv6
