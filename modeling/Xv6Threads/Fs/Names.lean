-- SUMMARY: Names in directories and paths: strncmp, strncpy and skipelem agree on what a name is.
import Mathlib.Data.List.TakeWhile
import Xv6Threads.Base.Bytes

/-!
# Names

A name in a directory has `DIRSIZ` bytes; a shorter one ends with a zero byte, a
name of that length has no terminator. What `namecmp` compares, what `strncpy`
stores and what `skipelem` delivers is in each case the name up to its first zero
byte, cut to `DIRSIZ` bytes.
-/

namespace Xv6

/-- `DIRSIZ`. -/
def dirsiz : Nat := 14

/-- The character `/`. -/
def slash : UInt8 := 47

/-! ## Strings -/

/-- `strncmp`, from index `i` on. -/
def strncmp (p q : Nat → UInt8) (i : Nat) : Nat → Int
  | 0 => 0
  | n + 1 => if p i ≠ 0 ∧ p i = q i then strncmp p q (i + 1) n else (p i).toNat - (q i).toNat

/-- The second loop of `strncpy`. -/
def strnzero (s : Nat → UInt8) (i : Nat) : Nat → Nat → UInt8
  | 0 => s
  | n + 1 => strnzero (Function.update s i 0) (i + 1) n

/-- `strncpy`, from index `i` on. -/
def strncpy (s t : Nat → UInt8) (i : Nat) : Nat → Nat → UInt8
  | 0 => s
  | n + 1 =>
    if t i = 0 then strnzero (Function.update s i (t i)) (i + 1) n
    else strncpy (Function.update s i (t i)) t (i + 1) n

def namecmp (s t : Nat → UInt8) : Int := strncmp s t 0 dirsiz

/-- `skipelem(path, name)`, for the bytes of `path` before its terminator. The
result is the rest of the path, and `name` with the element in it. -/
def skipelem (path : List UInt8) (name : Nat → UInt8) : Option (List UInt8 × (Nat → UInt8)) :=
  let path := path.dropWhile (· = slash)
  if path = [] then none
  else
    let s := path.takeWhile (· ≠ slash)
    let name := if dirsiz ≤ s.length then Bytes.splice name 0 (s.take dirsiz)
      else Function.update (Bytes.splice name 0 s) s.length 0
    some ((path.dropWhile (· ≠ slash)).dropWhile (· = slash), name)

/-! ## Keys -/

/-- The bytes before the first zero, at most `n`. -/
def cstr (p : Nat → UInt8) (i : Nat) : Nat → List UInt8
  | 0 => []
  | n + 1 => if p i = 0 then [] else p i :: cstr p (i + 1) n

/-- What counts of a name. -/
def key (name : Nat → UInt8) : List UInt8 := cstr name 0 dirsiz

variable {p q s t : Nat → UInt8} {i n : Nat}

theorem cstr_congr (h : ∀ j, i ≤ j → j < i + n → p j = q j) : cstr p i n = cstr q i n := by
  induction n generalizing i with
  | zero => rfl
  | succ n ih => rw [cstr, cstr, h i (by omega) (by omega), ih fun j hj hj' => h j (by omega) (by omega)]

/-- `strncmp` finds two names equal exactly if they are the same up to the first zero. -/
theorem strncmp_eq_zero_iff : strncmp p q i n = 0 ↔ cstr p i n = cstr q i n := by
  induction n generalizing i with
  | zero => exact ⟨fun _ => rfl, fun _ => rfl⟩
  | succ n ih =>
    rw [strncmp, cstr, cstr]
    by_cases hp : p i = 0
    · rw [if_neg fun h => h.1 hp, if_pos hp, hp]
      by_cases hq : q i = 0
      · rw [if_pos hq, hq]
        exact ⟨fun _ => rfl, fun _ => rfl⟩
      · have : (q i).toNat ≠ 0 := fun h => hq (UInt8.toNat_inj.1 h)
        rw [if_neg hq]
        refine ⟨fun h => ?_, fun h => (by cases h)⟩
        simp at h
        omega
    · rw [if_neg hp]
      by_cases hpq : p i = q i
      · rw [if_pos ⟨hp, hpq⟩, ih, if_neg (hpq ▸ hp), hpq, List.cons.injEq]
        exact ⟨fun h => ⟨rfl, h⟩, fun h => h.2⟩
      · have : (p i).toNat ≠ (q i).toNat := fun h => hpq (UInt8.toNat_inj.1 h)
        rw [if_neg fun h => hpq h.2]
        refine ⟨fun h => absurd h (by omega), fun h => ?_⟩
        split at h
        · cases h
        · exact absurd (List.cons.inj h).1 hpq

theorem namecmp_eq_zero_iff : namecmp s t = 0 ↔ key s = key t := strncmp_eq_zero_iff

theorem strnzero_below {j : Nat} (h : j < i) : strnzero s i n j = s j := by
  induction n generalizing s i with
  | zero => rfl
  | succ n ih => rw [strnzero, ih (by omega), Function.update_of_ne (by omega)]

theorem strncpy_below {j : Nat} (h : j < i) : strncpy s t i n j = s j := by
  induction n generalizing s i with
  | zero => rfl
  | succ n ih =>
    rw [strncpy]
    split
    · rw [strnzero_below (by omega), Function.update_of_ne (by omega)]
    · rw [ih (by omega), Function.update_of_ne (by omega)]

/-- What `strncpy` stores is the name it was given, whatever was there. -/
theorem cstr_strncpy (s t : Nat → UInt8) (i n : Nat) : cstr (strncpy s t i n) i n = cstr t i n := by
  induction n generalizing s i with
  | zero => rfl
  | succ n ih =>
    rw [strncpy, cstr, cstr]
    by_cases ht : t i = 0
    · rw [if_pos ht, strnzero_below (by omega), Function.update_self, if_pos ht, if_pos ht]
    · rw [if_neg ht, strncpy_below (by omega), Function.update_self, if_neg ht, if_neg ht, ih]

theorem key_strncpy (s t : Nat → UInt8) : key (strncpy s t 0 dirsiz) = key t := cstr_strncpy s t 0 dirsiz

/-! ## Elements of a path -/

/-- The nonempty parts between slashes. -/
def elements (path : List UInt8) : List (List UInt8) := (path.splitOn slash).filter (· ≠ [])

theorem elements_nil : elements [] = [] := rfl

theorem elements_slash (path : List UInt8) : elements (slash :: path) = elements path := by
  rw [elements, elements, show slash :: path = [] ++ slash :: path from rfl,
    List.splitOn_append_cons_self_of_not_mem List.not_mem_nil]
  exact List.filter_cons_of_neg (by simp)

theorem elements_dropWhile (path : List UInt8) : elements (path.dropWhile (· = slash)) = elements path := by
  induction path with
  | nil => rfl
  | cons c path ih =>
    by_cases hc : c = slash
    · rw [List.dropWhile_cons_of_pos (by simpa using hc), ih, hc, elements_slash]
    · rw [List.dropWhile_cons_of_neg (by simpa using hc)]

/-- The element before the first slash. -/
theorem elements_cons {c : UInt8} (l : List UInt8) (hc : c ≠ slash) :
    elements (c :: l) = (c :: l).takeWhile (· ≠ slash) :: elements ((c :: l).dropWhile (· ≠ slash)) := by
  have hne : (c :: l).takeWhile (· ≠ slash) ≠ [] := by
    rw [List.takeWhile_cons_of_pos (by simpa using hc)]
    exact List.cons_ne_nil _ _
  generalize c :: l = path at *
  have hnot : slash ∉ path.takeWhile (· ≠ slash) := fun hmem => by simpa using List.mem_takeWhile_imp hmem
  have hpath : path = path.takeWhile (· ≠ slash) ++ path.dropWhile (· ≠ slash) := List.takeWhile_append_dropWhile.symm
  cases hrest : path.dropWhile (· ≠ slash) with
  | nil =>
    rw [hrest, List.append_nil] at hpath
    rw [elements_nil, elements]
    nth_rewrite 1 [hpath]
    rw [List.splitOn_eq_singleton hnot]
    exact List.filter_cons_of_pos (by simpa using hne)
  | cons d rest =>
    obtain rfl : d = slash := by
      have := List.head?_dropWhile_not (· ≠ slash) path
      rw [hrest] at this
      simpa using this
    rw [hrest] at hpath
    rw [elements_slash, elements]
    nth_rewrite 1 [hpath]
    rw [List.splitOn_append_cons_self_of_not_mem hnot]
    exact List.filter_cons_of_pos (by simpa using hne)

theorem elements_eq_nil_iff {path : List UInt8} :
    elements (path.dropWhile (· = slash)) = [] ↔ path.dropWhile (· = slash) = [] := by
  constructor
  · intro h
    have hhead := List.head?_dropWhile_not (· = slash) path
    generalize path.dropWhile (· = slash) = l at *
    cases l with
    | nil => rfl
    | cons c l =>
      rw [elements_cons l (by simpa using hhead)] at h
      cases h
  · intro h
    rw [h, elements_nil]

/-- A list of bytes other than zero, with a zero after it if it is short. -/
theorem cstr_of_list {e : List UInt8} (hne : (0 : UInt8) ∉ e) (h : ∀ j (hj : j < e.length), j < n → p (i + j) = e[j])
    (hend : e.length < n → p (i + e.length) = 0) : cstr p i n = e.take n := by
  induction n generalizing i e with
  | zero => rfl
  | succ n ih =>
    rw [cstr]
    cases e with
    | nil =>
      have hzero : p i = 0 := hend (Nat.succ_pos _)
      rw [if_pos hzero, List.take_nil]
    | cons c e =>
      have hc : p i = c := h 0 (Nat.succ_pos _) (Nat.succ_pos _)
      rw [List.mem_cons, not_or] at hne
      rw [hc, if_neg fun hzero => hne.1 hzero.symm, List.take_succ_cons]
      refine congrArg (c :: ·) (ih hne.2 (fun j hj hjn => ?_) fun hlen => ?_)
      · have := h (j + 1) (by simpa using hj) (by omega)
        rwa [show i + (j + 1) = i + 1 + j by omega] at this
      · have := hend (by simpa using hlen)
        rwa [List.length_cons, show i + (e.length + 1) = i + 1 + e.length by omega] at this

/-- The buffer `name` after `skipelem` has put an element into it. -/
theorem key_element (name : Nat → UInt8) {e : List UInt8} (hne : (0 : UInt8) ∉ e) :
    key (if dirsiz ≤ e.length then Bytes.splice name 0 (e.take dirsiz)
      else Function.update (Bytes.splice name 0 e) e.length 0) = e.take dirsiz := by
  by_cases hlong : dirsiz ≤ e.length
  · rw [if_pos hlong]
    refine cstr_of_list hne (fun j hj hjn => ?_) fun hlen => by omega
    rw [Nat.zero_add, Bytes.splice_inside (Nat.zero_le _) (by rw [List.length_take]; omega), List.getElem_take]
    rfl
  · rw [if_neg hlong]
    refine cstr_of_list hne (fun j hj hjn => ?_) fun _ => ?_
    · rw [Nat.zero_add, Function.update_of_ne (by omega), Bytes.splice_inside (Nat.zero_le _) hj]
      rfl
    · rw [Nat.zero_add, Function.update_self]

/-- `skipelem` delivers the elements of a path one after the other, each cut to
`DIRSIZ` bytes, whatever the buffer held before. -/
theorem skipelem_elements (path : List UInt8) (name : Nat → UInt8) (hpath : (0 : UInt8) ∉ path) :
    (skipelem path name = none ∧ elements path = []) ∨
      ∃ e rest name', skipelem path name = some (rest, name') ∧ elements path = e :: elements rest ∧
        key name' = e.take dirsiz ∧ (0 : UInt8) ∉ rest ∧ rest.length < path.length ∧ (rest = [] ↔ elements rest = []) := by
  have hstart := elements_dropWhile path
  have hsub : ∀ c ∈ path.dropWhile (· = slash), c ∈ path := fun c hc => (List.dropWhile_sublist _).subset hc
  have hlen : (path.dropWhile (· = slash)).length ≤ path.length := (List.dropWhile_sublist _).length_le
  have hhead := List.head?_dropWhile_not (· = slash) path
  rw [skipelem]
  generalize path.dropWhile (· = slash) = l at *
  cases l with
  | nil => exact .inl ⟨if_pos rfl, hstart.symm⟩
  | cons c l =>
    have hc : c ≠ slash := by simpa using hhead
    have hzero : ∀ {l' : List UInt8}, l'.Sublist (c :: l) → (0 : UInt8) ∉ l' := fun hl hmem => hpath (hsub 0 (hl.subset hmem))
    have hrest := elements_dropWhile ((c :: l).dropWhile (· ≠ slash))
    refine .inr ⟨(c :: l).takeWhile (· ≠ slash), _, _, if_neg (List.cons_ne_nil _ _), ?_, ?_, ?_, ?_, ?_⟩
    · rw [← hstart, elements_cons l hc, hrest]
    · exact key_element name (hzero (List.takeWhile_sublist _))
    · exact hzero ((List.dropWhile_sublist _).trans (List.dropWhile_sublist _))
    · have hfirst : ((c :: l).dropWhile (· ≠ slash)).length ≤ l.length := by
        rw [List.dropWhile_cons_of_pos (by simpa using hc)]
        exact List.length_dropWhile_le _ _
      have hsecond := List.length_dropWhile_le (· = slash) ((c :: l).dropWhile (· ≠ slash))
      rw [List.length_cons] at hlen
      omega
    · exact elements_eq_nil_iff.symm

/-- What the loop `while((path = skipelem(path, name)) != 0)` of `namex` sees in `name`. -/
def pathKeys : Nat → List UInt8 → (Nat → UInt8) → List (List UInt8)
  | 0, _, _ => []
  | fuel + 1, path, name =>
    match skipelem path name with
    | none => []
    | some (rest, name) => key name :: pathKeys fuel rest name

theorem pathKeys_eq {fuel : Nat} {path : List UInt8} (name : Nat → UInt8) (hpath : (0 : UInt8) ∉ path) (hfuel : path.length < fuel) :
    pathKeys fuel path name = (elements path).map (List.take dirsiz) := by
  induction fuel generalizing path name with
  | zero => omega
  | succ fuel ih =>
    rw [pathKeys]
    rcases skipelem_elements path name hpath with ⟨hnone, helems⟩ | ⟨e, rest, name', hsome, helems, hkey, hrest, hlen, -⟩
    · rw [hnone, helems]
      rfl
    · rw [hsome, helems]
      show key name' :: pathKeys fuel rest name' = _
      rw [ih name' hrest (by omega), hkey]
      rfl

end Xv6
