-- SUMMARY: Where exec puts the arguments on the new stack, and what the new program reads there.
import Xv6Threads.Memory.Copyout
import Xv6Threads.Process.Loading

/-!
# Arguments

`exec` pushes the argument strings and then the array of their addresses onto
the stack page of the new address space. Every push starts at a multiple of 16,
so the place of each string is a matter of lengths alone. They fit if and only
if the lengths, each rounded up to 16, sum to at most a page.
-/

namespace Xv6

open PageTable

variable {m₀ m m' m₁ : Mem} {pt pt' pt₁ : PageTable} {f : Ppn} {base sp sz argc : Nat} {args argv : List (List UInt8)}

/-! ## The layout -/

/-- `n` rounded up to a multiple of 16. -/
def up16 (n : Nat) : Nat := (n + 15) / 16 * 16

theorem le_up16 (n : Nat) : n ≤ up16 n := by
  unfold up16
  omega

theorem up16_mod (n : Nat) : up16 n % 16 = 0 := by
  unfold up16
  omega

/-- The bytes the strings take on the stack. -/
def stringSpace (args : List (List UInt8)) : Nat := (args.map fun a => up16 (a.length + 1)).sum

theorem stringSpace_cons (a : List UInt8) (args : List (List UInt8)) :
    stringSpace (a :: args) = up16 (a.length + 1) + stringSpace args := rfl

theorem stringSpace_mod (args : List (List UInt8)) : stringSpace args % 16 = 0 := by
  induction args with
  | nil => rfl
  | cons a args ih =>
    have := up16_mod (a.length + 1)
    rw [stringSpace_cons]
    omega

/-- The bytes the strings and the array of their addresses take. -/
def argSpace (argv : List (List UInt8)) : Nat := stringSpace argv + up16 ((argv.length + 1) * 8)

/-- The addresses of the strings below `sp`. -/
def places (sp : Nat) : List (List UInt8) → List Nat
  | [] => []
  | a :: args => (sp - up16 (a.length + 1)) :: places (sp - up16 (a.length + 1)) args

theorem length_places (sp : Nat) (args : List (List UInt8)) : (places sp args).length = args.length := by
  induction args generalizing sp with
  | nil => rfl
  | cons a args ih => simp [places, ih]

/-- Every string lies between the end of the strings and `sp`. -/
theorem places_between (hle : stringSpace args ≤ sp) {x : Nat × List UInt8} (hx : x ∈ (places sp args).zip args) :
    sp - stringSpace args ≤ x.1 ∧ x.1 + (x.2.length + 1) ≤ sp := by
  induction args generalizing sp with
  | nil => cases hx
  | cons a args ih =>
    rw [stringSpace_cons] at hle ⊢
    have := le_up16 (a.length + 1)
    rcases List.mem_cons.1 hx with rfl | hx
    · dsimp only
      omega
    · have hrest : stringSpace args ≤ sp - up16 (a.length + 1) := by omega
      have := ih hrest hx
      omega

/-- No two strings overlap: each lies below the one before. -/
theorem places_apart (hle : stringSpace args ≤ sp) :
    ((places sp args).zip args).Pairwise fun x y => y.1 + (y.2.length + 1) ≤ x.1 := by
  induction args generalizing sp with
  | nil => exact .nil
  | cons a args ih =>
    rw [stringSpace_cons] at hle
    refine .cons (fun y hy => ?_) (ih (by omega))
    exact (places_between (by omega) hy).2

/-! ## Pushing -/

theorem pushDown_eq {n : Nat} (h16 : sp % 16 = 0) (hle : n ≤ sp) (hlt : sp < wordSize) :
    pushDown sp n = sp - up16 n := by
  have hn : n % wordSize = n := Nat.mod_eq_of_lt (by omega)
  have hsub : (sp + (wordSize - n)) % wordSize = sp - n := by
    rw [show sp + (wordSize - n) = sp - n + wordSize by omega, Nat.add_mod_right]
    exact Nat.mod_eq_of_lt (by omega)
  simp only [pushDown, hn, hsub, up16]
  omega

/-- The page for the stack of the new program. -/
structure StackPage (pt : PageTable) (base : Nat) (f : Ppn) : Prop where
  mapped : pt.walkaddr base = some f
  aligned : base % pgSize = 0
  above : pgSize ≤ base
  below : base + pgSize ≤ maxVa

theorem StackPage.lt_wordSize (h : StackPage pt base f) (hsp : sp ≤ base + pgSize) : sp < wordSize := by
  have := h.below
  have : maxVa < wordSize := by decide
  omega

/-- The strings are pushed if they fit. Nothing is written outside the page, or
at or above the stack pointer. -/
theorem pushArgs_spec (hpage : StackPage pt base f) (hlo : base ≤ sp) (hhi : sp ≤ base + pgSize) (h16 : sp % 16 = 0)
    (hlen : ∀ a ∈ args, a.length < pgSize) (hargc : argc + args.length ≤ maxArg) (m : Mem) (ustack : List Nat) :
    ∃ m', pushArgs pt base args argc m sp ustack =
        (if base + stringSpace args ≤ sp then some (sp - stringSpace args, ustack ++ places sp args) else none, m') ∧
      (∀ g o, g ≠ f ∨ sp ≤ base + o → m'.data g o = m.data g o) ∧
      (base + stringSpace args ≤ sp →
        List.Forall₂ (fun a ptr => pt.Reads m' ptr (a ++ [0])) args (places sp args)) := by
  induction args generalizing sp argc m ustack with
  | nil =>
    refine ⟨m, ?_, fun _ _ _ => rfl, fun _ => .nil⟩
    rw [pushArgs, if_pos (by simpa [stringSpace] using hlo)]
    simp [stringSpace, places]
  | cons a args ih =>
    have hshort := hlen a (by simp)
    have hroom := le_up16 (a.length + 1)
    have hup := up16_mod (a.length + 1)
    have habove := hpage.above
    have hnot : ¬ maxArg ≤ argc := by
      simp only [List.length_cons] at hargc
      omega
    have hdown : pushDown sp (a.length + 1) = sp - up16 (a.length + 1) :=
      pushDown_eq h16 (by omega) (hpage.lt_wordSize hhi)
    rw [pushArgs, if_neg hnot, hdown, stringSpace_cons]
    dsimp only
    by_cases hbelow : sp - up16 (a.length + 1) < base
    · refine ⟨m, ?_, fun _ _ _ => rfl, fun hfit => ?_⟩
      · rw [if_pos hbelow, if_neg (by omega)]
      · omega
    rw [if_neg hbelow, copyout_page m hpage.mapped hpage.aligned (by omega) (by simp; omega)]
    dsimp only
    have hend : sp - up16 (a.length + 1) + (a ++ [0]).length ≤ sp := by
      simp only [List.length_append, List.length_singleton]
      omega
    obtain ⟨m', hpush, hkeep, hread⟩ := @ih (sp - up16 (a.length + 1)) (argc + 1) (by omega) (by omega)
      (by omega) (fun x hx => hlen x (List.mem_cons_of_mem _ hx)) (by simp only [List.length_cons] at hargc; omega)
      (m.store f (sp - up16 (a.length + 1) - base) (a ++ [0])) (ustack ++ [sp - up16 (a.length + 1)])
    refine ⟨m', ?_, fun g o hout => ?_, fun hfit => ?_⟩
    · rw [hpush]
      by_cases hfit : base + (up16 (a.length + 1) + stringSpace args) ≤ sp
      · rw [if_pos hfit, if_pos (by omega), places, Nat.sub_sub, List.append_assoc, List.singleton_append]
      · rw [if_neg hfit, if_neg (by omega)]
    · rw [hkeep g o (hout.imp_right fun hge => by omega)]
      simp only [Mem.store]
      split
      · rename_i hin
        have hge := hout.resolve_left (not_not.2 hin.1)
        rw [List.getElem?_eq_none (by omega)]
        rfl
      · rfl
    · -- the strings pushed later lie below this one
      refine .cons ?_ (hread (by omega))
      refine (reads_store m hpage.mapped hpage.aligned (by omega) (by omega)).congr hpage.mapped hpage.aligned
        (by omega) (by omega) fun o ho => ?_
      exact hkeep f o (.inr (by omega))

/-! ## Words -/

theorem length_wordBytes (n : Nat) : (wordBytes n).length = 8 := by simp [wordBytes]

theorem length_flatMap_wordBytes (ns : List Nat) : (ns.flatMap wordBytes).length = ns.length * 8 := by
  induction ns with
  | nil => rfl
  | cons n ns ih => simp only [List.flatMap_cons, List.length_append, ih, length_wordBytes, List.length_cons]; omega

/-- The number stored in some bytes, the lowest one first. -/
def wordOfBytes (bytes : List UInt8) : Nat := bytes.foldr (fun a n => a.toNat + 256 * n) 0

theorem wordOfBytes_wordBytes {n : Nat} (h : n < wordSize) : wordOfBytes (wordBytes n) = n := by
  have hmod : ∀ x : Nat, x % 256 % 2 ^ 8 = x % 256 := fun x => by omega
  simp only [wordOfBytes, wordBytes, List.range_succ, List.range_zero, List.nil_append, List.cons_append,
    List.map_cons, List.map_nil, List.foldr_cons, List.foldr_nil, UInt8.toNat_ofNat', hmod]
  simp only [wordSize] at h
  norm_num at h ⊢
  omega

/-- The word at address `va`, as user code reads it. -/
def PageTable.loadWord (pt : PageTable) (m : Mem) (va : Nat) : Option Nat :=
  (pt.loadBytes m va 8).map wordOfBytes

theorem loadWord_of_reads {va n : Nat} (h : pt.Reads m va (wordBytes n)) (hn : n < wordSize) :
    pt.loadWord m va = some n := by
  have hbytes := h.loadBytes
  rw [length_wordBytes] at hbytes
  rw [PageTable.loadWord, hbytes, Option.map_some, wordOfBytes_wordBytes hn]

/-- Words one after the other. -/
theorem loadWord_of_flatMap {va i : Nat} {ns : List Nat} (h : pt.Reads m va (ns.flatMap wordBytes))
    (hns : ∀ n ∈ ns, n < wordSize) (hi : i < ns.length) : pt.loadWord m (va + i * 8) = some ns[i] := by
  induction ns generalizing va i with
  | nil => cases hi
  | cons n ns ih =>
    rw [List.flatMap_cons, reads_append, length_wordBytes] at h
    cases i with
    | zero =>
      rw [Nat.zero_mul, Nat.add_zero]
      exact loadWord_of_reads h.1 (hns n (by simp))
    | succ i =>
      have := ih h.2 (fun x hx => hns x (by simp [hx])) (Nat.lt_of_succ_lt_succ hi)
      rw [show va + (i + 1) * 8 = va + 8 + i * 8 by omega, this]
      rfl

/-! ## The stack of the new program -/

/-- What the new program finds below `top`: at `sp` the addresses of the strings
and a zero, and at each address its string. -/
structure Laid (pt : PageTable) (m : Mem) (top sp : Nat) (argv : List (List UInt8)) (ptrs : List Nat) : Prop where
  strings : List.Forall₂ (fun a ptr => pt.Reads m ptr (a ++ [0])) argv ptrs
  array : pt.Reads m sp ((ptrs ++ [0]).flatMap wordBytes)
  fits : sp + (argv.length + 1) * 8 ≤ top
  below : ∀ x ∈ ptrs.zip argv, sp + (argv.length + 1) * 8 ≤ x.1
  inside : ∀ x ∈ ptrs.zip argv, x.1 + (x.2.length + 1) ≤ top
  apart : (ptrs.zip argv).Pairwise fun x y => y.1 + (y.2.length + 1) ≤ x.1

namespace Laid

variable {top : Nat} {ptrs : List Nat}

theorem length_eq (h : Laid pt m top sp argv ptrs) : ptrs.length = argv.length := h.strings.length_eq.symm

theorem lt_top (h : Laid pt m top sp argv ptrs) {n : Nat} (hn : n ∈ ptrs) : n < top := by
  obtain ⟨j, hj, rfl⟩ := List.getElem_of_mem hn
  have hj' : j < argv.length := h.length_eq ▸ hj
  have hmem : (ptrs[j], argv[j]) ∈ ptrs.zip argv := by
    rw [← List.getElem_zip (h := by simp [hj, hj'])]
    exact List.getElem_mem _
  have := h.inside _ hmem
  dsimp only at this
  omega

/-- The words from the stack pointer on. -/
theorem words (h : Laid pt m top sp argv ptrs) (htop : top ≤ maxVa) {i : Nat} (hi : i < (ptrs ++ [0]).length) :
    pt.loadWord m (sp + i * 8) = some (ptrs ++ [0])[i] := by
  refine loadWord_of_flatMap h.array (fun n hn => ?_) hi
  rcases List.mem_append.1 hn with hn | hn
  · have := h.lt_top hn
    have : maxVa < wordSize := by decide
    omega
  · rw [List.mem_singleton.1 hn]
    decide

/-- What the new program reads depends on its stack page only. -/
theorem congr (h : Laid pt m (base + pgSize) sp argv ptrs) (hpage : StackPage pt base f)
    (hdata : m'.data f = m.data f) (hsp : base ≤ sp) : Laid pt m' (base + pgSize) sp argv ptrs := by
  have hlength : ((ptrs ++ [0]).flatMap wordBytes).length = (argv.length + 1) * 8 := by
    rw [length_flatMap_wordBytes, List.length_append, h.length_eq, List.length_singleton]
  have hfits := h.fits
  refine ⟨?_, ?_, h.fits, h.below, h.inside, h.apart⟩
  · have hforall := h.strings
    rw [List.forall₂_iff_zip] at hforall ⊢
    refine ⟨hforall.1, fun {a ptr} hmem => ?_⟩
    have hmem' : (ptr, a) ∈ ptrs.zip argv := by
      rw [← List.zip_swap]
      exact List.mem_map.2 ⟨_, hmem, rfl⟩
    have hin := h.inside _ hmem'
    have hlow := h.below _ hmem'
    dsimp only at hin hlow
    exact (hforall.2 hmem).congr hpage.mapped hpage.aligned (by omega) (by simp; omega) fun o _ => congrFun hdata o
  · exact h.array.congr hpage.mapped hpage.aligned hsp (by rw [hlength]; omega) fun o _ => congrFun hdata o

end Laid

/-- The part of `buildStack` after the pages are there: the final stack pointer,
if all went well. -/
def pushAll (pt : PageTable) (base top : Nat) (argv : List (List UInt8)) (m : Mem) : Option Nat × Mem :=
  match pushArgs pt base argv 0 m top [] with
  | (none, m) => (none, m)
  | (some (sp, ustack), m) =>
    let sp := pushDown sp ((ustack.length + 1) * 8)
    if sp < base then (none, m)
    else
      match pt.copyout m sp ((ustack ++ [0]).flatMap wordBytes) with
      | (false, m) => (none, m)
      | (true, m) => (some sp, m)

theorem buildStack_eq (m : Mem) (pt : PageTable) (sz : Nat) (argv : List (List UInt8)) :
    buildStack m pt sz argv = (do
      let (sz₁, m, pt) ← PageTable.uvmalloc m pt (pgRoundUp sz) (pgRoundUp sz + 2 * pgSize) permW
      if sz₁ = 0 then .ok (none, pgRoundUp sz, m, pt)
      else
        let pt ← pt.uvmclear (sz₁ - 2 * pgSize)
        let (sp, m) := pushAll pt (sz₁ - pgSize) sz₁ argv m
        .ok (sp, sz₁, m, pt)) := by
  unfold buildStack
  refine bind_congr fun ⟨sz₁, m, pt⟩ => ?_
  dsimp only
  split
  · rfl
  refine bind_congr fun pt => ?_
  unfold pushAll
  rcases pushArgs pt (sz₁ - pgSize) argv 0 m sz₁ [] with ⟨_ | ⟨sp, ustack⟩, m⟩
  · rfl
  · dsimp only
    split
    · rfl
    · generalize pt.copyout m (pushDown sp ((ustack.length + 1) * 8)) ((ustack ++ [0]).flatMap wordBytes) = r
      rcases r with ⟨_ | _, m⟩
      · rfl
      · rfl

/-- Pushing changes the contents of pages only. -/
theorem pushAll_samePages {top : Nat} {o : Option Nat} (h : pushAll pt base top argv m = (o, m')) :
    m.SamePages m' := by
  unfold pushAll at h
  split at h
  · rename_i hargs
    cases h
    exact pushArgs_samePages hargs
  · rename_i hargs
    have hsame := pushArgs_samePages hargs
    dsimp only at h
    split at h
    · cases h
      exact hsame
    · split at h
      · rename_i hc
        cases h
        exact hsame.trans (copyout_samePages hc)
      · rename_i hc
        cases h
        exact hsame.trans (copyout_samePages hc)

theorem pushAll_spec (hpage : StackPage pt base f) (hlen : ∀ a ∈ argv, a.length < pgSize)
    (hargc : argv.length < maxArg) (m : Mem) :
    ∃ m', pushAll pt base (base + pgSize) argv m =
        (if argSpace argv ≤ pgSize then some (base + pgSize - argSpace argv) else none, m') ∧
      (∀ g, g ≠ f → m'.data g = m.data g) ∧
      (argSpace argv ≤ pgSize →
        Laid pt m' (base + pgSize) (base + pgSize - argSpace argv) argv (places (base + pgSize) argv)) := by
  have habove := hpage.above
  have haligned : (base + pgSize) % 16 = 0 := by
    have := hpage.aligned
    simp only [pgSize] at this ⊢
    omega
  have hstrings := stringSpace_mod argv
  have hroom := le_up16 ((argv.length + 1) * 8)
  have hword := up16_mod ((argv.length + 1) * 8)
  obtain ⟨m₁, hpush, hkeep, hread⟩ := @pushArgs_spec _ _ _ _ 0 _ hpage (Nat.le_add_right _ _) (Nat.le_refl _)
    haligned hlen (by omega) m []
  have hframe : ∀ g, g ≠ f → m₁.data g = m.data g := fun g hg => funext fun o => hkeep g o (.inl hg)
  rw [pushAll, hpush]
  by_cases hfit : base + stringSpace argv ≤ base + pgSize
  swap
  · refine ⟨m₁, ?_, hframe, fun hle => ?_⟩
    · rw [if_neg hfit, if_neg (by rw [argSpace]; omega)]
    · rw [argSpace] at hle
      omega
  have hmax : argv.length < 32 := hargc
  have hlarge : 264 ≤ pgSize := by decide
  rw [if_pos hfit]
  dsimp only
  rw [List.nil_append, length_places]
  have hdown : pushDown (base + pgSize - stringSpace argv) ((argv.length + 1) * 8) =
      base + pgSize - argSpace argv := by
    rw [pushDown_eq (by omega) (by omega) (hpage.lt_wordSize (by omega)), argSpace, Nat.sub_sub]
  rw [hdown]
  by_cases hall : argSpace argv ≤ pgSize
  swap
  · refine ⟨m₁, ?_, hframe, fun hle => absurd hle hall⟩
    rw [if_pos (by omega), if_neg hall]
  have hsum : argSpace argv = stringSpace argv + up16 ((argv.length + 1) * 8) := rfl
  have hlength : ((places (base + pgSize) argv ++ [0]).flatMap wordBytes).length = (argv.length + 1) * 8 := by
    rw [length_flatMap_wordBytes, List.length_append, length_places, List.length_singleton]
  have htop : base + pgSize - argSpace argv + (argv.length + 1) * 8 ≤ base + pgSize - stringSpace argv := by omega
  rw [if_neg (by omega), copyout_page m₁ hpage.mapped hpage.aligned (by omega) (by rw [hlength]; omega), if_pos hall]
  dsimp only
  have hstored := reads_store m₁ hpage.mapped hpage.aligned
    (show base ≤ base + pgSize - argSpace argv by omega)
    (show base + pgSize - argSpace argv + ((places (base + pgSize) argv ++ [0]).flatMap wordBytes).length ≤
      base + pgSize by rw [hlength]; omega)
  have hptr : ∀ x ∈ (places (base + pgSize) argv).zip argv,
      base + pgSize - stringSpace argv ≤ x.1 ∧ x.1 + (x.2.length + 1) ≤ base + pgSize :=
    fun x hx => places_between (by omega) hx
  refine ⟨_, rfl, fun g hg => ?_, fun _ => ⟨?_, hstored, by omega, fun x hx => ?_, fun x hx => (hptr x hx).2, ?_⟩⟩
  · rw [← hframe g hg]
    funext o
    simp only [Mem.store, if_neg (fun hc : g = f ∧ _ => hg hc.1)]
  · -- the array lies below the strings
    have hboth : ∀ (a : List UInt8) (ptr : Nat), (ptr, a) ∈ (places (base + pgSize) argv).zip argv →
        pt.Reads m₁ ptr (a ++ [0]) →
        pt.Reads (m₁.store f (base + pgSize - argSpace argv - base)
          ((places (base + pgSize) argv ++ [0]).flatMap wordBytes)) ptr (a ++ [0]) := by
      intro a ptr hmem hr
      have hb := hptr _ hmem
      dsimp only at hb
      refine hr.congr hpage.mapped hpage.aligned (by omega) (by simp; omega) fun o ho => ?_
      simp only [Mem.store, true_and]
      split
      · rw [List.getElem?_eq_none (by rw [hlength]; omega)]
        rfl
      · rfl
    have hforall := hread hfit
    rw [List.forall₂_iff_zip] at hforall ⊢
    refine ⟨hforall.1, fun hmem => hboth _ _ ?_ (hforall.2 hmem)⟩
    rw [← List.zip_swap]
    exact List.mem_map.2 ⟨_, hmem, rfl⟩
  · have := (hptr x hx).1
    omega
  · exact places_apart (by omega)

/-- The guard page and the stack page are there; then the arguments go onto the
stack page if they fit, and nothing is written to any other page. -/
theorem buildStack_spec {sz₁ : Nat} (h : Built m₀ m pt sz)
    (halloc : PageTable.uvmalloc m pt (pgRoundUp sz) (pgRoundUp sz + 2 * pgSize) permW = .ok (sz₁, m₁, pt₁))
    (hne : sz₁ ≠ 0) (hlen : ∀ a ∈ argv, a.length < pgSize) (hargc : argv.length < maxArg) :
    ∃ f m' pt', buildStack m pt sz argv =
        .ok (if argSpace argv ≤ pgSize then some (sz₁ - argSpace argv) else none, sz₁, m', pt') ∧
      StackPage pt' (sz₁ - pgSize) f ∧ (∀ g, g ≠ f → m'.data g = m₁.data g) ∧
      (argSpace argv ≤ pgSize → Laid pt' m' sz₁ (sz₁ - argSpace argv) argv (places sz₁ argv)) ∧
      Built m₀ m' pt' sz₁ ∧ 0 < pt'.user (Weight.single f) := by
  have hround : pgRoundUp sz = pagesBelow sz * pgSize := pgRoundUp_of_le (h.size.trans (by decide))
  have hstart := h.roundUp
  have hspace := hstart.uvmalloc halloc
  rw [if_neg hne] at hspace
  obtain ⟨hi, hm, ⟨hr, hhi⟩ | ⟨hzero, -⟩⟩ := uvmalloc_ok (hstart.size.trans (by decide)) halloc
  swap
  · exact absurd hzero hne
  have hsz₁ : sz₁ = (pagesBelow sz + 2) * pgSize := by
    rw [hr, hround, Nat.add_mul, Nat.max_eq_right (Nat.le_add_right _ _)]
  have hhi₂ : hi = pagesBelow sz + 2 := by
    rw [hhi, hround, ← Nat.add_mul, pagesBelow_mul, pagesBelow_mul]
    omega
  rw [hround, pagesBelow_mul, hhi₂] at hm
  have hlimit : pagesBelow sz + 2 ≤ userPages := hm.le_userPages h.framed (pagesBelow_le_userPages h.size)
  have hv : pagesBelow sz + 1 < vpnLimit := lt_of_lt_of_le (by omega) userPages_lt.le
  obtain ⟨hguardva, -, g, hguard⟩ := hm.inside (pagesBelow sz) (Nat.le_refl _) (by omega)
  obtain ⟨hstackva, -, f, hstack⟩ := hm.inside (pagesBelow sz + 1) (by omega) (by omega)
  -- the guard page is taken away from user code
  have hguardaddr : sz₁ - 2 * pgSize = pagesBelow sz * pgSize := by
    rw [hsz₁, Nat.add_mul, Nat.add_sub_cancel]
  obtain ⟨pt₂, hclear⟩ : ∃ pt₂, pt₁.uvmclear (sz₁ - 2 * pgSize) = .ok pt₂ := by
    rw [hguardaddr]
    exact ⟨_, Except.bind_ok_iff.2 ⟨_, walk_of_leaf hguardva hguard, rfl⟩⟩
  have hdiv : (sz₁ - 2 * pgSize) / pgSize = pagesBelow sz := by
    rw [hguardaddr, Nat.mul_div_cancel _ (by decide)]
  have hspace₂ : Built m₀ m₁ pt₂ sz₁ := by
    refine hspace.uvmclear hclear fun e he => ?_
    rw [hdiv, hguard] at he
    cases he
    rfl
  have hstack₂ : pt₂.leaf (pagesBelow sz + 1) = some ⟨f, ⟨true, permW.w, permW.x, true⟩⟩ := by
    rw [uvmclear_leaf hclear hv, if_neg (by omega), hstack]
  have hbase : sz₁ - pgSize = (pagesBelow sz + 1) * pgSize := by
    rw [hsz₁, Nat.add_mul, Nat.add_mul]
    omega
  have htop : sz₁ - pgSize + pgSize = sz₁ := by
    rw [hbase, hsz₁]
    ring
  have hpage : StackPage pt₂ (sz₁ - pgSize) f := by
    refine ⟨?_, ?_, ?_, ?_⟩
    · rw [hbase, walkaddr, if_neg (not_le.2 hstackva), lookup_eq_leaf, Nat.mul_div_cancel _ (by decide), hstack₂]
      rfl
    · rw [hbase]
      exact Nat.mul_mod_left _ _
    · rw [hbase]
      exact Nat.le_mul_of_pos_left _ (by omega)
    · rw [htop]
      exact hspace.size.trans (by decide)
  obtain ⟨m', hpush, hframe, hlaid⟩ := pushAll_spec hpage hlen hargc m₁
  rw [htop] at hpush hlaid
  refine ⟨f, m', pt₂, ?_, hpage, hframe, hlaid, hspace₂.samePages (pushAll_samePages hpush), ?_⟩
  · rw [buildStack_eq]
    refine Except.bind_ok_iff.2 ⟨_, halloc, ?_⟩
    dsimp only
    rw [if_neg hne]
    refine Except.bind_ok_iff.2 ⟨_, hclear, ?_⟩
    rw [hpush]
  · have hle : weighEntry (Weight.single f) (pt₂.leaf (pagesBelow sz + 1)) ≤ pt₂.user (Weight.single f) :=
      weighEntry_le_span (Nat.zero_le _) (by omega)
    rw [hstack₂, weighEntry_some, Weight.single_self] at hle
    exact hle

end Xv6
