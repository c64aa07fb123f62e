-- SUMMARY: The free list of the user allocator: a sorted ring of regions, and what its operations do to it.
import Xv6Threads.User.Umalloc
import Xv6Threads.Base.Path

/-!
# The free list

A free block is a region of the heap: its header, the size the header gives, and how far
it extends. Sizes are `uint`, so a block joined from very large ones extends further than
its header says. The regions of the ring are in order of their addresses, and the static
header comes first, as a region of size zero.
-/

namespace Xv6

namespace Umalloc

variable {mem mem' : Ram} {p q n i lo hi top : Nat}

/-! ## Headers -/

theorem setPtr_outside (h : i < p ∨ p + 16 ≤ i) : setPtr mem p q i = mem i := Bytes.poke_outside (by omega)

theorem setSize_outside (h : i < p ∨ p + 16 ≤ i) : setSize mem p n i = mem i := Bytes.poke_outside (by omega)

theorem ptr_congr (h : ∀ i, p ≤ i → i < p + 16 → mem' i = mem i) : ptr mem' p = ptr mem p :=
  Bytes.peek_congr fun i hi hi' => h i hi (by omega)

theorem size_congr (h : ∀ i, p ≤ i → i < p + 16 → mem' i = mem i) : size mem' p = size mem p :=
  Bytes.peek_congr fun i hi hi' => h i (by omega) (by omega)

theorem ptr_setPtr (hq : q < 2 ^ 64) : ptr (setPtr mem p q) p = q := by
  rw [ptr, setPtr, Bytes.peek_poke_same]
  exact Nat.mod_eq_of_lt hq

@[simp] theorem size_setPtr (mem : Ram) (p q : Nat) : size (setPtr mem p q) p = size mem p :=
  Bytes.peek_poke_ne (.inl (Nat.le_refl _))

@[simp] theorem ptr_setSize (mem : Ram) (p n : Nat) : ptr (setSize mem p n) p = ptr mem p :=
  Bytes.peek_poke_ne (.inr (Nat.le_refl _))

theorem size_setSize (mem : Ram) (p n : Nat) : size (setSize mem p n) p = n % 2 ^ 32 := Bytes.peek_poke_same ..

theorem size_setSize_of_lt (hn : n < 2 ^ 32) : size (setSize mem p n) p = n := by
  rw [size_setSize, Nat.mod_eq_of_lt hn]

theorem size_lt (mem : Ram) (p : Nat) : size mem p < 2 ^ 32 := Bytes.peek_lt ..

/-! ## Regions -/

/-- A part of the heap that starts with a header. -/
structure Region where
  addr : Nat
  size : Nat
  ext : Nat
  le : size ≤ ext
  pos : 0 < ext

namespace Region

/-- The end of the region. -/
def stop (r : Region) : Nat := r.addr + 16 * r.ext

theorem header_le (r : Region) : r.addr + 16 ≤ r.stop := by
  have := r.pos
  simp only [stop]
  omega

theorem size_le (r : Region) : r.addr + 16 * r.size ≤ r.stop := by
  have := r.le
  simp only [stop]
  omega

/-- One region ends before the next begins, and does not seem to touch it. -/
def Below (a b : Region) : Prop := a.stop ≤ b.addr ∧ a.addr + 16 * a.size ≠ b.addr

theorem Below.trans {a b c : Region} (h : a.Below b) (h' : b.Below c) : a.Below c := by
  have := a.size_le
  have := b.header_le
  have := h.1
  have := h'.1
  exact ⟨by omega, by omega⟩

theorem Below.addr_lt {a b : Region} (h : a.Below b) : a.addr < b.addr := by
  have := a.header_le
  have := h.1
  omega

/-- Two regions in a row. -/
def join (a b : Region) : Region where
  addr := a.addr
  size := (a.size + b.size) % 2 ^ 32
  ext := a.ext + b.ext
  le := (Nat.mod_le _ _).trans (Nat.add_le_add a.le b.le)
  pos := Nat.add_pos_left a.pos _

end Region

/-- No region of `rs` meets the addresses from `lo` to `hi`. -/
def Clear (rs : List Region) (lo hi : Nat) : Prop := ∀ r ∈ rs, hi ≤ r.addr ∨ r.stop ≤ lo

theorem Clear.mono {rs rs' : List Region} (h : Clear rs lo hi) (hsub : ∀ r ∈ rs', r ∈ rs) : Clear rs' lo hi :=
  fun r hr => h r (hsub r hr)

/-- The regions of `rs'` lie within those of `rs`. -/
def Covers (rs rs' : List Region) : Prop := ∀ lo hi, lo < hi → Clear rs lo hi → Clear rs' lo hi

namespace Covers

variable {rs rs' : List Region} {r : Region}

theorem le_addr (h : Covers rs rs') (hle : ∀ q ∈ rs, n ≤ q.addr) (hr : r ∈ rs') : n ≤ r.addr := by
  by_cases hn : n = 0
  · omega
  · have := r.header_le
    rcases h 0 n (by omega) (fun q hq => .inl (hle q hq)) r hr with hc | hc <;> omega

theorem stop_le (h : Covers rs rs') (hle : ∀ q ∈ rs, q.stop ≤ n) (hr : r ∈ rs') : r.stop ≤ n := by
  have := r.header_le
  rcases h n (n + r.addr + 1) (by omega) (fun q hq => .inr (hle q hq)) r hr with hc | hc <;> omega

end Covers

/-- A sorted list of regions, linked by their headers and leading to `e`. -/
structure Linked (mem : Ram) (rs : List Region) (e : Nat) : Prop where
  leads : Leads (ptr mem) (rs.map Region.addr) e
  sized : ∀ r ∈ rs, size mem r.addr = r.size
  sorted : rs.Pairwise Region.Below

namespace Linked

variable {rs A B : List Region} {r P X : Region} {e : Nat}

theorem congr (h : Linked mem rs e) (hmem : ∀ r ∈ rs, ∀ i, r.addr ≤ i → i < r.addr + 16 → mem' i = mem i) :
    Linked mem' rs e where
  leads := h.leads.congr fun a ha => by
    obtain ⟨r, hr, rfl⟩ := List.mem_map.1 ha
    exact ptr_congr (hmem r hr)
  sized r hr := (size_congr (hmem r hr)).trans (h.sized r hr)
  sorted := h.sorted

theorem append : Linked mem (A ++ B) e ↔ Linked mem A ((B.map Region.addr).headD e) ∧ Linked mem B e ∧
    ∀ a ∈ A, ∀ b ∈ B, a.Below b := by
  constructor
  · intro h
    have hleads := h.leads
    rw [List.map_append, Leads.append] at hleads
    obtain ⟨hA, hB, hAB⟩ := List.pairwise_append.1 h.sorted
    exact ⟨⟨hleads.1, fun r hr => h.sized r (List.mem_append_left _ hr), hA⟩,
      ⟨hleads.2, fun r hr => h.sized r (List.mem_append_right _ hr), hB⟩, hAB⟩
  · rintro ⟨hA, hB, hAB⟩
    refine ⟨?_, fun r hr => ?_, List.pairwise_append.2 ⟨hA.sorted, hB.sorted, hAB⟩⟩
    · rw [List.map_append, Leads.append]
      exact ⟨hA.leads, hB.leads⟩
    · rcases List.mem_append.1 hr with hr | hr
      · exact hA.sized r hr
      · exact hB.sized r hr

theorem cons : Linked mem (X :: B) e ↔ ptr mem X.addr = (B.map Region.addr).headD e ∧
    size mem X.addr = X.size ∧ (∀ b ∈ B, X.Below b) ∧ Linked mem B e := by
  constructor
  · intro h
    obtain ⟨hX, hB⟩ := List.pairwise_cons.1 h.sorted
    exact ⟨h.leads.1, h.sized X (List.mem_cons_self ..), hX,
      ⟨h.leads.2, fun r hr => h.sized r (List.mem_cons_of_mem _ hr), hB⟩⟩
  · rintro ⟨hptr, hsize, hX, hB⟩
    exact ⟨⟨hptr, hB.leads⟩, List.forall_mem_cons.2 ⟨hsize, hB.sized⟩, List.pairwise_cons.2 ⟨hX, hB.sorted⟩⟩

end Linked

/-! ## The search of `free` -/

/-- The loop ends at `p`. -/
def Stops (mem : Ram) (bp p : Nat) : Prop :=
  p < bp ∧ bp < ptr mem p ∨ ptr mem p ≤ p ∧ (p < bp ∨ bp < ptr mem p)

theorem search_stops {bp fuel : Nat} (h : Stops mem bp p) : search mem bp (fuel + 1) p = some p := by
  rw [search]
  by_cases hin : p < bp ∧ bp < ptr mem p
  · rw [if_pos hin]
  · rw [if_neg hin, if_pos (h.resolve_left hin)]

theorem search_goes {bp fuel : Nat} (h : ¬ Stops mem bp p) :
    search mem bp (fuel + 1) p = search mem bp fuel (ptr mem p) := by
  rw [search, if_neg fun hin => h (.inl hin), if_neg fun hin => h (.inr hin)]

/-! ## Joining -/

/-- Link the block at `x` to `y`, or join it with the block there. -/
def join (mem : Ram) (x y : Nat) : Ram :=
  if x + 16 * size mem x = y then
    let mem := setSize mem x (size mem x + size mem y)
    setPtr mem x (ptr mem y)
  else setPtr mem x y

theorem joinPrev_eq (mem : Ram) (bp p : Nat) : joinPrev mem bp p = join mem p bp := rfl

theorem joinNext_eq {bp : Nat} (h : p + 16 ≤ bp) : joinNext mem bp p = join mem bp (ptr mem p) := by
  have hptr : ∀ n, ptr (setSize mem bp n) p = ptr mem p := fun n =>
    ptr_congr fun i _ hi => setSize_outside (.inl (by omega))
  simp only [joinNext, join, hptr]

theorem join_outside {x y : Nat} (h : i < x ∨ x + 16 ≤ i) : join mem x y i = mem i := by
  rw [join]
  split
  · exact (setPtr_outside h).trans (setSize_outside h)
  · exact setPtr_outside h

/-- A block in front of a linked list becomes its first element, or part of it. -/
theorem linked_join {Q : List Region} {X : Region} {e : Nat} (h : Linked mem Q e)
    (hsize : size mem X.addr = X.size) (hbelow : ∀ q ∈ Q, X.stop ≤ q.addr) (he : e < 2 ^ 64)
    (hnil : Q = [] → X.addr + 16 * X.size ≠ e) (hlt : ∀ q ∈ Q, q.addr < 2 ^ 64) :
    ∃ X' Q', Linked (join mem X.addr ((Q.map Region.addr).headD e)) (X' :: Q') e ∧ X'.addr = X.addr ∧
      (∀ q ∈ Q', q ∈ Q) ∧ (X.addr + 16 * X.size ≠ (Q.map Region.addr).headD e → X' = X) ∧
      Covers (X :: Q) (X' :: Q') := by
  have hkeep : ∀ q ∈ Q, ∀ y i, q.addr ≤ i → i < q.addr + 16 → join mem X.addr y i = mem i :=
    fun q hq y i hi _ => join_outside (.inr (by have := hbelow q hq; have := X.header_le; omega))
  have hnext : (Q.map Region.addr).headD e < 2 ^ 64 := by
    cases Q with
    | nil => exact he
    | cons N Q => exact hlt N (List.mem_cons_self ..)
  by_cases htouch : X.addr + 16 * X.size = (Q.map Region.addr).headD e
  · -- the next block begins where this one ends
    cases Q with
    | nil => exact absurd htouch (hnil rfl)
    | cons N Q =>
      obtain ⟨hN, hNsize, hNbelow, hQ⟩ := Linked.cons.1 h
      have hXN : X.stop ≤ N.addr := hbelow N (List.mem_cons_self ..)
      have hXle := X.le
      have hNle := N.le
      have hsplit : (Q.map Region.addr).headD e < 2 ^ 64 := by
        cases Q with
        | nil => exact he
        | cons b Q => exact hlt b (by simp)
      rw [List.map_cons, List.headD_cons] at htouch ⊢
      have hptr : ∀ n, ptr (setSize mem X.addr n) N.addr = ptr mem N.addr := fun n =>
        ptr_congr fun i hi _ => setSize_outside (.inr (by have := X.header_le; omega))
      have hjoin : join mem X.addr N.addr =
          setPtr (setSize mem X.addr (X.size + N.size)) X.addr ((Q.map Region.addr).headD e) := by
        rw [join, if_pos (by rw [hsize]; exact htouch), hsize, hNsize]
        dsimp only
        rw [hptr, hN]
      refine ⟨X.join N, Q, Linked.cons.2 ⟨?_, ?_, ?_, hQ.congr fun r hr i hi hi' => ?_⟩, rfl,
        fun q hq => List.mem_cons_of_mem _ hq, fun hne => absurd htouch hne, fun lo hi hlt hc => ?_⟩
      · rw [hjoin]
        exact ptr_setPtr hsplit
      · rw [hjoin]
        exact (size_setPtr ..).trans (size_setSize ..)
      · intro b hb
        have hNb := hNbelow b hb
        have hmod : (X.size + N.size) % 2 ^ 32 ≤ X.size + N.size := Nat.mod_le ..
        simp only [Region.Below, Region.join, Region.stop] at hNb hXN ⊢
        omega
      · exact hkeep r (List.mem_cons_of_mem _ hr) _ i hi hi'
      · refine List.forall_mem_cons.2 ⟨?_, hc.mono fun q hq => by simp [hq]⟩
        have hcX := hc X (by simp)
        have hcN := hc N (by simp)
        simp only [Region.join, Region.stop] at hcX hcN hXN ⊢
        omega
  · have hjoin : join mem X.addr ((Q.map Region.addr).headD e) = setPtr mem X.addr ((Q.map Region.addr).headD e) := by
      rw [join, if_neg (by rw [hsize]; exact htouch)]
    refine ⟨X, Q, Linked.cons.2 ⟨?_, ?_, ?_, h.congr fun r hr i hi hi' => hkeep r hr _ i hi hi'⟩, rfl,
      fun q hq => hq, fun _ => rfl, fun lo hi _ hc => hc⟩
    · rw [hjoin]
      exact ptr_setPtr hnext
    · rwa [hjoin, size_setPtr]
    · cases Q with
      | nil => simp
      | cons N Q =>
        have hX : X.Below N := ⟨hbelow N (List.mem_cons_self ..), htouch⟩
        exact List.forall_mem_cons.2 ⟨hX, fun b hb => hX.trans ((Linked.cons.1 h).2.2.1 b hb)⟩

/-- `free` links a block in between `P` and what comes behind. -/
theorem linked_free {B : List Region} {P X : Region} {e : Nat} (h : Linked mem (P :: B) e) (hP : P.stop ≤ X.addr)
    (hB : ∀ b ∈ B, X.stop ≤ b.addr) (hsize : size mem X.addr = X.size) (he : e < X.addr)
    (hlt : X.addr < 2 ^ 64) (hBlt : ∀ b ∈ B, b.addr < 2 ^ 64) :
    ∃ P' B', Linked (joinPrev (joinNext mem X.addr P.addr) X.addr P.addr) (P' :: B') e ∧ P'.addr = P.addr ∧
      (∀ q ∈ B', q.addr = X.addr ∨ q ∈ B) ∧ (P.addr + 16 * P.size ≠ X.addr → P' = P) ∧
      Covers (P :: X :: B) (P' :: B') := by
  have hPX := P.header_le
  have hXX := X.header_le
  obtain ⟨hptr, hPsize, hPbelow, hBlinked⟩ := Linked.cons.1 h
  -- the block and what comes behind it
  obtain ⟨X', Q, hX', haddr, hsub, -, hcover⟩ := linked_join hBlinked hsize hB (by omega) (by omega) hBlt
  rw [← hptr, ← joinNext_eq (by omega)] at hX'
  have hPsize' : size (joinNext mem X.addr P.addr) P.addr = P.size := by
    refine (size_congr fun i _ hi => ?_).trans hPsize
    rw [joinNext_eq (by omega)]
    exact join_outside (.inl (by omega))
  -- `P` and all that
  have hPX' : ∀ q ∈ X' :: Q, P.stop ≤ q.addr := fun q hq =>
    hcover.le_addr (List.forall_mem_cons.2 ⟨hP, fun b hb => by have := hB b hb; omega⟩) hq
  obtain ⟨P', B', hP', haddr', hsub', hroot, hcover'⟩ := linked_join hX' hPsize' hPX' (by omega) (by simp)
    (List.forall_mem_cons.2 ⟨by omega, fun q hq => hBlt q (hsub q hq)⟩)
  rw [List.map_cons, List.headD_cons, haddr] at hP' hroot
  refine ⟨P', B', hP', haddr', fun q hq => ?_, hroot, fun lo hi hlt hc => hcover' lo hi hlt ?_⟩
  · rcases List.mem_cons.1 (hsub' q hq) with rfl | hq
    · exact .inl haddr
    · exact .inr (hsub q hq)
  · exact List.forall_mem_cons.2 ⟨hc P (by simp), hcover lo hi hlt (hc.mono fun q hq => by simp [hq])⟩

theorem free_outside {X P : Region} (hP : P.stop ≤ X.addr) (hX : i < X.addr ∨ X.stop ≤ i) (hP' : i < P.addr ∨ P.stop ≤ i) :
    joinPrev (joinNext mem X.addr P.addr) X.addr P.addr i = mem i := by
  have hPX := P.header_le
  have hXX := X.header_le
  rw [joinPrev_eq, joinNext_eq (by omega)]
  exact (join_outside (by omega)).trans (join_outside (by omega))

/-! ## The ring -/

/-- The static header. -/
def Image.root (im : Image) : Region := ⟨im.base, 0, 1, Nat.zero_le _, Nat.one_pos⟩

/-- The regions of the free list, below `top`. -/
structure Ring (im : Image) (mem : Ram) (top : Nat) (rs : List Region) : Prop where
  root : rs.head? = some im.root
  linked : Linked mem rs im.base
  within : ∀ r ∈ rs, r = im.root ∨ im.lo ≤ r.addr ∧ r.stop ≤ top

/-- What becomes of memory when the free list changes from `rs` to `rs'`: addresses below
`top` that were in no region are in none, and have kept their contents. -/
structure Keeps (top : Nat) (mem : Ram) (rs : List Region) (mem' : Ram) (rs' : List Region) : Prop where
  clear : ∀ lo hi, lo < hi → hi ≤ top → Clear rs lo hi → Clear rs' lo hi
  same : ∀ i < top, Clear rs i (i + 1) → mem' i = mem i

namespace Keeps

variable {rs rs' rs'' : List Region} {mem'' : Ram} {top' : Nat}

theorem refl (top : Nat) (mem : Ram) (rs : List Region) : Keeps top mem rs mem rs := ⟨fun _ _ _ _ h => h, fun _ _ _ => rfl⟩

theorem trans (h : Keeps top mem rs mem' rs') (h' : Keeps top' mem' rs' mem'' rs'') (htop : top ≤ top') :
    Keeps top mem rs mem'' rs'' where
  clear lo hi hlt hhi hc := h'.clear lo hi hlt (hhi.trans htop) (h.clear lo hi hlt hhi hc)
  same i hi hc := (h'.same i (by omega) (h.clear i (i + 1) (Nat.lt_succ_self i) hi hc)).trans (h.same i hi hc)

end Keeps

namespace Ring

variable {im : Image} {rs A B : List Region} {r P X : Region} {x : Nat}

theorem eq_cons (h : Ring im mem top rs) : ∃ bs, rs = im.root :: bs := by
  cases rs with
  | nil => cases h.root
  | cons r bs => exact ⟨bs, by rw [Option.some.inj h.root]⟩

theorem congr (h : Ring im mem top rs) (hmem : ∀ r ∈ rs, ∀ i, r.addr ≤ i → i < r.addr + 16 → mem' i = mem i) :
    Ring im mem' top rs := ⟨h.root, h.linked.congr hmem, h.within⟩

theorem addr_lt (h : Ring im mem top rs) (htop : top ≤ trapframeVa) (hr : r ∈ rs) : r.addr < 2 ^ 64 := by
  have hva : trapframeVa < 2 ^ 64 := by decide
  rcases h.within r hr with rfl | hw
  · have hbase := im.base_lt
    have hlo := im.lo_le
    simp only [Image.root]
    omega
  · have := r.header_le
    omega

/-- A free region divides the ring into what lies below and what lies above. -/
theorem exists_before (h : Ring im mem top rs) (hlo : im.lo ≤ X.addr) (hclear : Clear rs X.addr X.stop) :
    ∃ A P B, rs = A ++ P :: B ∧ P.stop ≤ X.addr ∧ ∀ b ∈ B, X.stop ≤ b.addr := by
  obtain ⟨bs, rfl⟩ := h.eq_cons
  have hroot : im.root.stop ≤ X.addr := im.base_lt.trans hlo
  have hsorted := h.linked.sorted
  clear h
  generalize im.root = r at *
  induction bs generalizing r with
  | nil => exact ⟨[], r, [], rfl, hroot, by simp⟩
  | cons s bs ih =>
    obtain ⟨hr, hrest⟩ := List.pairwise_cons.1 hsorted
    rcases hclear s (by simp) with habove | hbelow
    · refine ⟨[], r, s :: bs, rfl, hroot, List.forall_mem_cons.2 ⟨habove, fun b hb => ?_⟩⟩
      have hsb := (List.rel_of_pairwise_cons hrest hb).1
      have := s.header_le
      omega
    · obtain ⟨A, P, B, heq, hP, hB⟩ := ih s (hclear.mono fun q hq => List.mem_cons_of_mem _ hq) hbelow hrest
      exact ⟨r :: A, P, B, by rw [heq]; rfl, hP, hB⟩

/-- The walk around the ring. -/
theorem iterate_mem (h : Ring im mem top rs) (hx : x ∈ rs.map Region.addr) (k : Nat) :
    (ptr mem)^[k] x ∈ rs.map Region.addr := by
  obtain ⟨bs, rfl⟩ := h.eq_cons
  exact h.linked.leads.iterate_mem hx k

theorem exists_iterate (h : Ring im mem top rs) {y : Nat} (hx : x ∈ rs.map Region.addr) (hy : y ∈ rs.map Region.addr) :
    ∃ k, (ptr mem)^[k] x = y := by
  obtain ⟨bs, rfl⟩ := h.eq_cons
  exact h.linked.leads.exists_iterate hx hy

/-! ## Searching -/

/-- The loop ends at the last region below the block, -/
theorem stops_before (h : Ring im mem top (A ++ P :: B)) (hP : P.stop ≤ X.addr) (hB : ∀ b ∈ B, X.stop ≤ b.addr) :
    Stops mem X.addr P.addr := by
  have hPX := P.header_le
  have hX := X.header_le
  have hptr := (Linked.cons.1 (Linked.append.1 h.linked).2.1).1
  cases B with
  | nil =>
    have hbase : im.base ≤ P.addr := by
      rcases h.within P (by simp) with rfl | hw
      · exact Nat.le_refl _
      · have := im.base_lt
        omega
    rw [List.map_nil, List.headD_nil] at hptr
    exact .inr ⟨hptr ▸ hbase, .inl (by omega)⟩
  | cons N B =>
    have hN := hB N (List.mem_cons_self ..)
    rw [List.map_cons, List.headD_cons] at hptr
    exact .inl ⟨by omega, by omega⟩

/-- and nowhere else. -/
theorem eq_of_stops (h : Ring im mem top (A ++ P :: B)) (hP : P.stop ≤ X.addr) (hB : ∀ b ∈ B, X.stop ≤ b.addr)
    (hlo : im.lo ≤ X.addr) (hx : x ∈ (A ++ P :: B).map Region.addr) (hstops : Stops mem X.addr x) : x = P.addr := by
  obtain ⟨r, hr, rfl⟩ := List.mem_map.1 hx
  have hPX := P.header_le
  have hX := X.header_le
  have hbase : im.base + 16 ≤ X.addr := im.base_lt.trans hlo
  have hsorted := h.linked.sorted
  -- what lies below the block is no higher than `P`
  have hlast : r.addr < X.addr → r.addr ≤ P.addr := by
    intro hlt
    rcases List.mem_append.1 hr with hA | hr
    · exact (Region.Below.addr_lt ((List.pairwise_append.1 hsorted).2.2 r hA P (by simp))).le
    · rcases List.mem_cons.1 hr with rfl | hb
      · exact Nat.le_refl _
      · have := hB r hb
        omega
  obtain ⟨C, D, hsplit⟩ := List.append_of_mem hr
  have hmem : P ∈ C ++ r :: D := hsplit ▸ List.mem_append_right _ (List.mem_cons_self ..)
  rw [hsplit] at hsorted
  have hleft : ∀ c ∈ C, c.addr < r.addr := fun c hc =>
    Region.Below.addr_lt ((List.pairwise_append.1 hsorted).2.2 c hc r (by simp))
  have hlinked := h.linked
  rw [hsplit] at hlinked
  obtain ⟨hptr, -, hright, -⟩ := Linked.cons.1 (Linked.append.1 hlinked).2.1
  cases D with
  | nil =>
    -- `r` is the last region
    rw [List.map_nil, List.headD_nil] at hptr
    have hlow : r.addr < X.addr := by
      rcases hstops with hs | hs <;> omega
    rcases List.mem_append.1 hmem with hC | hr'
    · have := hleft P hC
      have := hlast hlow
      omega
    · rw [List.mem_singleton.1 hr']
  | cons N D =>
    rw [List.map_cons, List.headD_cons] at hptr
    have hN := Region.Below.addr_lt (hright N (List.mem_cons_self ..))
    have hND : ∀ d ∈ D, N.addr < d.addr := fun d hd =>
      Region.Below.addr_lt (List.rel_of_pairwise_cons (List.pairwise_append.1 hsorted).2.1.of_cons hd)
    have hin : r.addr < X.addr ∧ X.addr < N.addr := by
      rcases hstops with hs | hs <;> omega
    have hle := hlast hin.1
    rcases List.mem_append.1 hmem with hC | hr'
    · have := hleft P hC
      omega
    · rcases List.mem_cons.1 hr' with rfl | hD
      · rfl
      · rcases List.mem_cons.1 hD with rfl | hd
        · omega
        · have := hND P hd
          omega

/-- The search finds the last region below a free block from anywhere in the ring. -/
theorem exists_search (h : Ring im mem top (A ++ P :: B)) (hP : P.stop ≤ X.addr) (hB : ∀ b ∈ B, X.stop ≤ b.addr)
    (hlo : im.lo ≤ X.addr) (hx : x ∈ (A ++ P :: B).map Region.addr) :
    ∃ fuel, search mem X.addr fuel x = some P.addr := by
  obtain ⟨k, hk⟩ := h.exists_iterate hx (y := P.addr) (List.mem_map_of_mem (by simp))
  induction k generalizing x with
  | zero =>
    obtain rfl : x = P.addr := hk
    exact ⟨1, search_stops (h.stops_before hP hB)⟩
  | succ k ih =>
    by_cases hstops : Stops mem X.addr x
    · obtain rfl := h.eq_of_stops hP hB hlo hx hstops
      exact ⟨1, search_stops hstops⟩
    · obtain ⟨fuel, hrun⟩ := ih (h.iterate_mem hx 1) hk
      exact ⟨fuel + 1, (search_goes hstops).trans hrun⟩

/-! ## Freeing -/

theorem stop_le (h : Ring im mem top rs) (hlo : im.lo ≤ top) (hr : r ∈ rs) : r.stop ≤ top := by
  rcases h.within r hr with rfl | hw
  · exact im.base_lt.trans hlo
  · exact hw.2

/-- Only the static header seems to have no size behind it, so nothing is joined to it. -/
theorem root_ne (hlo : im.lo ≤ X.addr) : im.root.addr + 16 * im.root.size ≠ X.addr := by
  have := im.base_lt
  simp only [Image.root]
  omega

/-- `free` puts a region into the ring, joined with its neighbours where they touch. -/
theorem insert {top' : Nat} (h : Ring im mem top (A ++ P :: B)) (hP : P.stop ≤ X.addr) (hB : ∀ b ∈ B, X.stop ≤ b.addr)
    (hlo : im.lo ≤ X.addr) (hhi : X.stop ≤ top') (hbot : im.lo ≤ top) (htop : top ≤ top') (hva : top' ≤ trapframeVa)
    (hsize : size mem X.addr = X.size) :
    ∃ rs', Ring im (joinPrev (joinNext mem X.addr P.addr) X.addr P.addr) top' rs' ∧ P.addr ∈ rs'.map Region.addr ∧
      ∀ top, Keeps top mem (X :: (A ++ P :: B)) (joinPrev (joinNext mem X.addr P.addr) X.addr P.addr) rs' := by
  have hbase := im.base_lt
  have hXX := X.header_le
  have hva' : trapframeVa < 2 ^ 64 := by decide
  obtain ⟨hA, hPB, hAPB⟩ := Linked.append.1 h.linked
  obtain ⟨P', B', hP', haddr, hsub, hroot, hcover⟩ := linked_free hPB hP hB hsize (by omega) (by omega)
    fun q hq => h.addr_lt (htop.trans hva) (by simp [hq])
  refine ⟨A ++ P' :: B', ⟨?_, Linked.append.2 ⟨?_, hP', ?_⟩, fun r hr => ?_⟩,
    List.mem_map.2 ⟨P', by simp, haddr⟩, fun top => ⟨fun lo hi hlt _ hc => ?_, fun i _ hc => ?_⟩⟩
  · cases A with
    | nil =>
      obtain rfl : P = im.root := Option.some.inj h.root
      rw [hroot (root_ne hlo)]
      rfl
    | cons a A => exact h.root
  · rw [List.map_cons, List.headD_cons, haddr]
    refine hA.congr fun a ha i hi hi' => free_outside hP ?_ ?_ <;>
    · have := a.header_le
      have := P.header_le
      have := (hAPB a ha P (List.mem_cons_self ..)).1
      omega
  · intro a ha b hb
    have haP : a.Below P' := by
      have := hAPB a ha P (List.mem_cons_self ..)
      rwa [Region.Below, ← haddr] at this
    rcases List.mem_cons.1 hb with rfl | hb
    · exact haP
    · exact haP.trans ((Linked.cons.1 hP').2.2.1 b hb)
  · have hold : ∀ q ∈ A ++ P :: B, q.stop ≤ top' := fun q hq => (h.stop_le hbot hq).trans htop
    have hstop : ∀ q ∈ P' :: B', q.stop ≤ top' := fun q hq => hcover.stop_le (List.forall_mem_cons.2
      ⟨hold P (by simp), List.forall_mem_cons.2 ⟨hhi, fun b hb => hold b (by simp [hb])⟩⟩) hq
    rcases List.mem_append.1 hr with hr | hr
    · exact (h.within r (List.mem_append_left _ hr)).imp_right fun hw => ⟨hw.1, hw.2.trans htop⟩
    · rcases List.mem_cons.1 hr with rfl | hr'
      · rcases h.within P (by simp) with rfl | hw
        · exact .inl (hroot (root_ne hlo))
        · exact .inr ⟨haddr ▸ hw.1, hstop _ hr⟩
      · rcases hsub r hr' with heq | hB'
        · exact .inr ⟨heq ▸ hlo, hstop _ hr⟩
        · exact (h.within r (by simp [hB'])).imp_right fun hw => ⟨hw.1, hw.2.trans htop⟩
  · intro r hr
    rcases List.mem_append.1 hr with hr | hr
    · exact hc r (by simp [hr])
    · exact hcover lo hi hlt (hc.mono fun q hq => by
        simp only [List.mem_cons, List.mem_append] at hq ⊢
        tauto) r hr
  · exact free_outside hP (hc X (by simp)) (hc P (by simp))

/-- `free` of a free region finishes and leaves a ring with that region in it. -/
theorem exists_free {h : Heap} {top' : Nat} (hr : Ring im h.mem top rs) (hfreep : h.freep ∈ rs.map Region.addr)
    (hlo : im.lo ≤ X.addr) (hhi : X.stop ≤ top') (hbot : im.lo ≤ top) (htop : top ≤ top') (hva : top' ≤ trapframeVa)
    (hsize : size h.mem X.addr = X.size) (hclear : Clear rs X.addr X.stop) :
    ∃ fuel h' rs', free fuel h (X.addr + 16) = some h' ∧ h'.sz = h.sz ∧ Ring im h'.mem top' rs' ∧
      h'.freep ∈ rs'.map Region.addr ∧ ∀ top, Keeps top h.mem (X :: rs) h'.mem rs' := by
  obtain ⟨A, P, B, rfl, hP, hB⟩ := hr.exists_before hlo hclear
  obtain ⟨fuel, hrun⟩ := hr.exists_search hP hB hlo hfreep
  obtain ⟨rs', hr', hmem, hkeeps⟩ := hr.insert hP hB hlo hhi hbot htop hva hsize
  generalize hmem' : joinPrev (joinNext h.mem X.addr P.addr) X.addr P.addr = mem' at *
  refine ⟨fuel, { h with mem := mem', freep := P.addr }, rs', ?_, rfl, hr', hmem, hkeeps⟩
  rw [free, Nat.add_sub_cancel, hrun, ← hmem']
  rfl

/-! ## Taking -/

/-- A region that is not the static header, with the one in front of it. -/
theorem split_prev (h : Ring im mem top rs) (hp : p ∈ rs.map Region.addr) (hne : ptr mem p ≠ im.base) :
    ∃ A V P B, rs = A ++ V :: P :: B ∧ V.addr = p ∧ P.addr = ptr mem p ∧ P ≠ im.root := by
  obtain ⟨A, B, hsplit, -⟩ := h.linked.leads.split_succ hp rfl hne
  obtain ⟨A', rest, rfl, rfl, hrest⟩ := List.map_eq_append_iff.1 hsplit
  obtain ⟨V, rest, rfl, rfl, hrest⟩ := List.map_eq_cons_iff.1 hrest
  obtain ⟨P, B', rfl, hP, rfl⟩ := List.map_eq_cons_iff.1 hrest
  exact ⟨A', V, P, B', rfl, rfl, hP, by rintro rfl; exact hne hP.symm⟩

/-- Take a region out. -/
theorem remove {V : Region} (h : Ring im mem top (A ++ V :: P :: B)) :
    Ring im (setPtr mem V.addr (ptr mem P.addr)) top (A ++ V :: B) := by
  obtain ⟨hA, hVPB, hAV⟩ := Linked.append.1 h.linked
  obtain ⟨hptr, hsize, hbelow, hPB⟩ := Linked.cons.1 hVPB
  obtain ⟨hPptr, -, hPbelow, hB⟩ := Linked.cons.1 hPB
  have hVstop := V.header_le
  have hnext : ptr mem P.addr < 2 ^ 64 := Bytes.peek_lt ..
  refine ⟨?_, Linked.append.2 ⟨?_, Linked.cons.2 ⟨?_, ?_, ?_, ?_⟩, ?_⟩, fun r hr => h.within r ?_⟩
  · cases A with
    | nil => exact h.root
    | cons a A => exact h.root
  · refine hA.congr fun a ha i hi hi' => setPtr_outside (.inl ?_)
    have := a.header_le
    have := (hAV a ha V (List.mem_cons_self ..)).1
    omega
  · rw [ptr_setPtr hnext, hPptr]
  · rwa [size_setPtr]
  · exact fun b hb => hbelow b (List.mem_cons_of_mem _ hb)
  · refine hB.congr fun b hb i hi _ => setPtr_outside (.inr ?_)
    have := (hbelow b (List.mem_cons_of_mem _ hb)).1
    omega
  · intro a ha b hb
    rcases List.mem_cons.1 hb with rfl | hb
    · exact hAV a ha b (by simp)
    · exact hAV a ha b (by simp [hb])
  · rcases List.mem_append.1 hr with hr | hr
    · simp [hr]
    · rcases List.mem_cons.1 hr with rfl | hr <;> simp [*]

/-- Take the tail of a region. -/
theorem shrink {Q : Region} (h : Ring im mem top (A ++ P :: B)) (hne : P ≠ im.root) (haddr : Q.addr = P.addr)
    (hstop : Q.stop ≤ P.stop) (hlt : Q.addr + 16 * Q.size < P.stop) (hptr : ptr mem' P.addr = ptr mem P.addr)
    (hsize : size mem' P.addr = Q.size) (hsame : ∀ i, i < P.addr ∨ P.stop ≤ i → mem' i = mem i) :
    Ring im mem' top (A ++ Q :: B) := by
  obtain ⟨hA, hPB, hAP⟩ := Linked.append.1 h.linked
  obtain ⟨hPptr, -, hbelow, hB⟩ := Linked.cons.1 hPB
  have hQB : ∀ b ∈ B, Q.Below b := fun b hb => by
    have := (hbelow b hb).1
    exact ⟨by omega, by omega⟩
  refine ⟨?_, Linked.append.2 ⟨?_, Linked.cons.2 ⟨?_, ?_, hQB, ?_⟩, ?_⟩, fun r hr => ?_⟩
  · cases A with
    | nil => exact absurd (Option.some.inj h.root) hne
    | cons a A => exact h.root
  · rw [List.map_cons, List.headD_cons, haddr]
    refine hA.congr fun a ha i hi hi' => hsame i (.inl ?_)
    have := a.header_le
    have := (hAP a ha P (List.mem_cons_self ..)).1
    omega
  · rw [haddr, hptr, hPptr]
  · rw [haddr, hsize]
  · refine hB.congr fun b hb i hi _ => hsame i (.inr ?_)
    have := (hbelow b hb).1
    omega
  · intro a ha b hb
    rcases List.mem_cons.1 hb with rfl | hb
    · have := hAP a ha P (List.mem_cons_self ..)
      rwa [Region.Below, ← haddr] at this
    · exact hAP a ha b (List.mem_cons_of_mem _ hb)
  · rcases List.mem_append.1 hr with hr | hr
    · exact h.within r (List.mem_append_left _ hr)
    · rcases List.mem_cons.1 hr with rfl | hr
      · have hw := (h.within P (by simp)).resolve_left hne
        exact .inr ⟨haddr ▸ hw.1, hstop.trans hw.2⟩
      · exact h.within r (by simp [hr])

/-- What `take` leaves: a block of `nunits` units that was in the ring before and is not
any more. -/
structure Taken (im : Image) (top nunits : Nat) (h : Heap) (rs : List Region) (q : Nat) (h' : Heap)
    (rs' : List Region) : Prop where
  sz : h'.sz = h.sz
  ring : Ring im h'.mem top rs'
  freep : h'.freep ∈ rs'.map Region.addr
  le : im.lo ≤ q
  stop_le : q + 16 * nunits ≤ top
  size : size h'.mem q = nunits
  clear : Clear rs' q (q + 16 * nunits)
  outside : ∀ lo hi, lo < hi → Clear rs lo hi → hi ≤ q ∨ q + 16 * nunits ≤ lo
  keeps : ∀ top, Keeps top h.mem rs h'.mem rs'

/-- A block of just the right size. -/
theorem taken_all {h : Heap} {V : Region} (hr : Ring im h.mem top (A ++ V :: P :: B)) (hne : P ≠ im.root) :
    Taken im top P.size h (A ++ V :: P :: B) P.addr
      { h with mem := setPtr h.mem V.addr (ptr h.mem P.addr), freep := V.addr } (A ++ V :: B) := by
  obtain ⟨-, hVPB, hAV⟩ := Linked.append.1 hr.linked
  obtain ⟨-, -, hVbelow, hPB⟩ := Linked.cons.1 hVPB
  obtain ⟨-, hPsize, hPbelow, -⟩ := Linked.cons.1 hPB
  have hVP : V.stop ≤ P.addr := (hVbelow P (List.mem_cons_self ..)).1
  have hPend := P.size_le
  have hw := (hr.within P (by simp)).resolve_left hne
  refine ⟨rfl, hr.remove, List.mem_map.2 ⟨V, by simp, rfl⟩, hw.1, hPend.trans hw.2, ?_, fun r hmem => ?_,
    fun lo hi _ hc => ?_, fun top => ⟨fun lo hi _ _ hc r hmem => hc r ?_, fun i _ hc => ?_⟩⟩
  · refine (size_congr fun i hi _ => setPtr_outside (.inr ?_)).trans hPsize
    have := V.header_le
    omega
  · rcases List.mem_append.1 hmem with hA | hmem
    · exact .inr (hAV r hA P (by simp)).1
    · rcases List.mem_cons.1 hmem with rfl | hB
      · exact .inr hVP
      · exact .inl (hPend.trans (hPbelow r hB).1)
  · exact (hc P (by simp)).imp_right hPend.trans
  · rcases List.mem_append.1 hmem with hA | hmem
    · simp [hA]
    · rcases List.mem_cons.1 hmem with rfl | hB <;> simp [*]
  · have := V.header_le
    have := hc V (by simp)
    exact setPtr_outside (by omega)

/-- A block that is larger: its tail is cut off. -/
theorem taken_tail {h : Heap} {nunits prevp : Nat} (hr : Ring im h.mem top (A ++ P :: B)) (hne : P ≠ im.root)
    (hprev : prevp ∈ (A ++ P :: B).map Region.addr) (hpos : 0 < nunits) (hlt : nunits < P.size) :
    ∃ Q, Taken im top nunits h (A ++ P :: B) (P.addr + 16 * (P.size - nunits))
      { h with
        mem := setSize (setSize h.mem P.addr (P.size - nunits)) (P.addr + 16 * (P.size - nunits)) nunits
        freep := prevp } (A ++ Q :: B) := by
  obtain ⟨-, hPB, hAP⟩ := Linked.append.1 hr.linked
  obtain ⟨-, hPsize, hPbelow, -⟩ := Linked.cons.1 hPB
  have hPend := P.size_le
  have hw := (hr.within P (by simp)).resolve_left hne
  have h32 : P.size < 2 ^ 32 := hPsize ▸ size_lt ..
  obtain ⟨k, hk⟩ : ∃ k, P.size = nunits + (k + 1) := ⟨P.size - nunits - 1, by omega⟩
  rw [hk, Nat.add_sub_cancel_left]
  have hQ : P.addr + 16 * (k + 1) + 16 * nunits ≤ P.stop := by omega
  generalize hq : P.addr + 16 * (k + 1) = q at *
  generalize hmem' : setSize (setSize h.mem P.addr (k + 1)) q nunits = mem'
  have hsame : ∀ i, i < P.addr ∨ P.stop ≤ i → mem' i = h.mem i := fun i hi => by
    rw [← hmem']
    exact (setSize_outside (by omega)).trans (setSize_outside (by omega))
  have hhead : ∀ i, P.addr ≤ i → i < P.addr + 16 → mem' i = setSize h.mem P.addr (k + 1) i := fun i _ hi => by
    rw [← hmem']
    exact setSize_outside (.inl (by omega))
  have hring : Ring im mem' top (A ++ ⟨P.addr, k + 1, k + 1, Nat.le_refl _, Nat.succ_pos _⟩ :: B) :=
    hr.shrink hne rfl (by simp only [Region.stop] at hQ ⊢; omega) (by dsimp only; omega)
      ((ptr_congr hhead).trans (ptr_setSize ..)) ((size_congr hhead).trans (size_setSize_of_lt (by omega))) hsame
  refine ⟨_, rfl, hring, ?_, by omega, by omega, ?_, fun r hmem => ?_, fun lo hi hlt hc => ?_,
    fun top => ⟨fun lo hi hlt _ hc r hmem => ?_, fun i _ hc => hsame i (hc P (by simp))⟩⟩
  · simpa using hprev
  · rw [← hmem']
    exact size_setSize_of_lt (by omega)
  · rcases List.mem_append.1 hmem with hA | hmem
    · exact .inr ((hAP r hA P (by simp)).1.trans (by omega))
    · rcases List.mem_cons.1 hmem with rfl | hB
      · exact .inr (by simp only [Region.stop]; omega)
      · exact .inl (hQ.trans (hPbelow r hB).1)
  · have := hc P (by simp)
    omega
  · rcases List.mem_append.1 hmem with hA | hmem
    · exact hc r (by simp [hA])
    · rcases List.mem_cons.1 hmem with rfl | hB
      · have := hc P (by simp)
        simp only [Region.stop] at this hQ ⊢
        omega
      · exact hc r (by simp [hB])

/-- `take` of a block that is large enough. -/
theorem exists_take {h : Heap} {prevp nunits : Nat} (hr : Ring im h.mem top rs) (hprev : prevp ∈ rs.map Region.addr)
    (hpos : 0 < nunits) (hfit : nunits ≤ size h.mem (ptr h.mem prevp)) :
    ∃ q h' rs', take nunits h (ptr h.mem prevp) prevp = (q + 16, h') ∧ Taken im top nunits h rs q h' rs' := by
  have hbase : size h.mem im.base = 0 := by
    obtain ⟨bs, rfl⟩ := hr.eq_cons
    exact hr.linked.sized im.root (List.mem_cons_self ..)
  obtain ⟨A, V, P, B, rfl, rfl, hP, hne⟩ := hr.split_prev hprev (by rintro heq; rw [heq, hbase] at hfit; omega)
  have hsize : size h.mem P.addr = P.size := hr.linked.sized P (by simp)
  rw [← hP, hsize] at hfit
  rw [← hP, take, hsize]
  by_cases heq : P.size = nunits
  · subst heq
    rw [if_pos rfl]
    exact ⟨P.addr, _, _, rfl, hr.taken_all hne⟩
  · rw [if_neg heq]
    have h32 : P.size < 2 ^ 32 := hsize ▸ size_lt ..
    have hcons : A ++ V :: P :: B = A ++ [V] ++ P :: B := by simp
    rw [hcons] at hr hprev ⊢
    obtain ⟨Q, hQ⟩ := hr.taken_tail hne hprev hpos (by omega)
    refine ⟨_, _, _, ?_, hQ⟩
    dsimp only
    rw [size_setSize_of_lt (by omega)]

end Ring

end Umalloc

end Xv6
