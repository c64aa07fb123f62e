-- SUMMARY: Clean disks: over every run of inode calls a data block is in use exactly if one place of one inode names it.
import Xv6Threads.Base.Transition
import Xv6Threads.Fs.Trunc

/-!
# Clean disks

On a clean disk every inode is consistent, no block is in two files, the free
map marks a data block only if an inode names it, and free inodes name none.
Every call on an inode keeps the disk clean: no block is lost, none is given to
two files, and `bfree` never meets a free block.

Whoever changes a locked inode writes it back before the lock is released, so
each call starts from the inode on disk.
-/

namespace Xv6

theorem Dinode.load_words (s : Sector) (o : Nat) : (Dinode.load s o).Words :=
  ⟨Bytes.peek_lt .., Bytes.peek_lt .., Bytes.peek_lt .., Bytes.peek_lt .., Bytes.peek_lt .., fun _ => Bytes.peek_lt ..⟩

namespace Fs

/-! ## Calls -/

/-- Inode `inum`, as `ilock` has it in memory. -/
def inode (fs : Fs) (inum : Nat) : Inode := { fs.dinode inum with inum := inum }

/-- What is done to a locked inode. -/
inductive InodeOp
  | writei (src : Src) (off n : UInt32)
  | itrunc
  /-- `create`, `sys_link` and `sys_unlink` set fields and call `iupdate`. -/
  | iupdate (major minor nlink : UInt16)
  /-- The last reference to an inode without links goes. -/
  | iput

inductive InodeCall
  | ialloc (type : UInt16)
  | locked (inum : Nat) (op : InodeOp)

namespace InodeOp

def run (fs : Fs) (ip : Inode) : InodeOp → Except Panic Fs
  | writei src off n => (fs.writei ip src off n).map fun r => r.2.2
  | itrunc => (fs.itrunc ip).map Prod.snd
  | iupdate major minor nlink =>
    .ok (fs.iupdate { ip with major := major.toNat, minor := minor.toNat, nlink := nlink.toNat })
  | iput => (fs.itrunc ip).map fun r => r.2.iupdate { r.1 with type := 0 }

end InodeOp

namespace InodeCall

def run (fs : Fs) : InodeCall → Except Panic Fs
  | ialloc type => .ok (fs.ialloc type.toNat).2
  | locked inum op => do
    let ip ← fs.ilock inum
    op.run fs ip

/-- The call writes to inode `i`. -/
def On (fs : Fs) (i : Nat) : InodeCall → Prop
  | ialloc type => (fs.ialloc type.toNat).1 = some i
  | locked inum _ => inum = i

end InodeCall

/-- Only inodes that are allocated are locked. -/
def Allocated (fs : Fs) : InodeCall → Prop
  | .ialloc _ => True
  | .locked inum _ => inum < fs.sb.ninodes ∧ (fs.dinode inum).type ≠ 0

instance (fs : Fs) (c : InodeCall) : Decidable (fs.Allocated c) :=
  match c with
  | .ialloc _ => inferInstanceAs (Decidable True)
  | .locked _ _ => inferInstanceAs (Decidable (_ ∧ _))

/-- The disk under calls on its inodes. -/
def inodeSystem (fs₀ : Fs) : Lts Fs InodeCall where
  init fs := fs = fs₀
  step fs c fs' := c.run fs = .ok fs'

/-! ## Clean -/

structure Clean (fs : Fs) : Prop where
  formatted : fs.Formatted
  consistent : ∀ i < fs.sb.ninodes, fs.Consistent (fs.inode i)
  apart : ∀ i < fs.sb.ninodes, ∀ j < fs.sb.ninodes, i ≠ j → fs.Apart (fs.dinode i) (fs.dinode j)
  spare : ∀ i < fs.sb.ninodes, (fs.dinode i).type = 0 → ∀ p, fs.names (fs.dinode i) p = 0
  named : ∀ c, fs.sb.datastart ≤ c → c < fs.sb.size → fs.used c = true →
    ∃ i < fs.sb.ninodes, ∃ p, fs.names (fs.dinode i) p = c

/-- Inode `inum` has become `d`: what it names in addition was free, and what is
newly marked as used it names. -/
structure Changes (fs : Fs) (inum : Nat) (d : Dinode) (fs' : Fs) : Prop where
  sb : fs'.sb = fs.sb
  formatted : fs'.Formatted
  here : fs'.dinode inum = d
  consistent : fs'.Consistent { d with inum := inum }
  spare : d.type = 0 → ∀ p, fs'.names d p = 0
  others : ∀ j < fs.sb.ninodes, j ≠ inum → fs'.dinode j = fs.dinode j ∧ fs.Spares (fs.dinode j) fs'
  fresh : ∀ p, fs'.names d p ≠ 0 → fs'.names d p ∈ fs.held (fs.dinode inum) ∨ fs.used (fs'.names d p) = false
  used : ∀ c < fs.sb.size, fs'.used c = true →
    fs.used c = true ∧ c ∉ fs.held (fs.dinode inum) ∨ ∃ p, fs'.names d p = c

variable {fs fs' fs'' : Fs} {inum i j n off t : Nat} {d d' : Dinode} {ip ip' : Inode} {src : Src}

/-- Data blocks come after the superblock. -/
theorem ne_zero_of_le {c : Nat} (h : fs.sb.datastart ≤ c) : c ≠ 0 := by
  have := Nat.zero_lt_of_lt (Nat.lt_of_lt_of_le (Nat.lt_succ_self _) h)
  omega

theorem sound_of_names (h : ∀ p, fs.names d p = 0) : fs.Sound d :=
  ⟨fun p hp => absurd (h p) hp, fun p hp => absurd (h p) hp, fun p hp => absurd (h p) hp, fun p _ _ hp => absurd (h p) hp⟩

theorem Clean.sound (h : fs.Clean) (hi : i < fs.sb.ninodes) : fs.Sound (fs.dinode i) := (h.consistent i hi).sound

theorem Changes.clean (h : fs.Clean) (hi : inum < fs.sb.ninodes) (hch : fs.Changes inum d fs') : fs'.Clean := by
  have hone : ∀ j < fs.sb.ninodes, j ≠ inum → ∀ p q, fs'.names d p = fs'.names (fs.dinode j) q → fs'.names d p = 0 := by
    intro j hj hne p q heq
    by_contra hzero
    obtain ⟨-, hsp⟩ := hch.others j hj hne
    rw [hsp.names] at heq
    rcases hch.fresh p hzero with ⟨-, r, hr⟩ | hfree
    · have := h.apart inum hi j hj hne.symm r q (hr.trans heq)
      exact hzero (hr.symm.trans this)
    · rw [heq, (h.sound hj).used q (heq ▸ hzero)] at hfree
      cases hfree
  refine ⟨hch.formatted, fun i hi' => ?_, fun i hi' j hj hne p q heq => ?_, fun i hi' htype p => ?_, fun c hlow hup hused => ?_⟩
  · rw [hch.sb] at hi'
    by_cases hii : i = inum
    · subst hii
      rw [inode, hch.here]
      exact hch.consistent
    · obtain ⟨hsame, hsp⟩ := hch.others i hi' hii
      have hc := h.consistent i hi'
      rw [inode, hsame]
      refine ⟨hsp.sound, hc.size, fun bn hbn => ?_, hch.sb ▸ hc.inum⟩
      rw [hsp.names]
      exact hc.full bn hbn
  · rw [hch.sb] at hi' hj
    by_cases hii : i = inum
    · subst hii
      rw [hch.here] at heq ⊢
      rw [(hch.others j hj hne.symm).1] at heq
      exact hone j hj hne.symm p q heq
    · obtain ⟨hsame, hsp⟩ := hch.others i hi' hii
      rw [hsame] at heq ⊢
      by_cases hji : j = inum
      · subst hji
        rw [hch.here] at heq
        rw [heq]
        exact hone i hi' hii q p heq.symm
      · obtain ⟨hsame', hsp'⟩ := hch.others j hj hji
        rw [hsame', hsp.names, hsp'.names] at heq
        rw [hsp.names]
        exact h.apart i hi' j hj hne p q heq
  · rw [hch.sb] at hi'
    by_cases hii : i = inum
    · subst hii
      rw [hch.here] at htype ⊢
      exact hch.spare htype p
    · obtain ⟨hsame, hsp⟩ := hch.others i hi' hii
      rw [hsame] at htype ⊢
      rw [hsp.names]
      exact h.spare i hi' htype p
  · rw [hch.sb] at hlow hup ⊢
    rcases hch.used c hup hused with ⟨hold, hout⟩ | ⟨p, hp⟩
    · obtain ⟨i, hi', p, hp⟩ := h.named c hlow hup hold
      have hii : i ≠ inum := by
        rintro rfl
        exact hout ⟨ne_zero_of_le hlow, p, hp⟩
      obtain ⟨hsame, hsp⟩ := hch.others i hi' hii
      exact ⟨i, hi', p, by rw [hsame, hsp.names, hp]⟩
    · exact ⟨inum, hi, p, by rw [hch.here, hp]⟩

/-! ## What each operation changes -/

theorem Spares.notes (h : fs.Spares d fs') (hn : fs'.Notes inum d' fs'') (hsb : fs'.sb = fs.sb) (hs : fs.Sound d) :
    fs.Spares d fs'' := by
  have hnames : ∀ p, fs''.names d p = fs.names d p := fun p => (hn.names h.sound p).trans (h.names p)
  refine ⟨hnames, fun p hp => ?_, hn.sound h.sound⟩
  rw [hn.data _ (hsb ▸ hs.lower p hp), h.data p hp]

theorem Notes.spares (h : fs.Notes inum d' fs') (hs : fs.Sound d) : fs.Spares d fs' :=
  ⟨h.names hs, fun p hp => h.data _ (hs.lower p hp), h.sound hs⟩

/-- Written twice, as `iput` does. -/
theorem Notes.again (h : fs.Notes inum d fs') (h' : fs'.Notes inum d' fs'') : fs.Notes inum d' fs'' := by
  refine ⟨h'.sb.trans h.sb, fun b => (h'.used b).trans (h.used b), fun c hc => ?_, fun i hi hne => ?_, h'.here⟩
  · rw [h'.data c (h.sb ▸ hc), h.data c hc]
  · rw [h'.others i (h.sb ▸ hi) hne, h.others i hi hne]

/-- Fields other than the size and the addresses are set. -/
theorem Clean.fields (h : fs.Clean) (hi : inum < fs.sb.ninodes) (hw : d.Words) (hn : fs.Notes inum d fs')
    (haddrs : d.addrs = (fs.dinode inum).addrs) (hsize : d.size = (fs.dinode inum).size)
    (htype : d.type = 0 → (fs.dinode inum).type = 0) : fs.Changes inum d fs' := by
  have hc := h.consistent inum hi
  have hs := h.sound hi
  have hnames : ∀ p, fs'.names d p = fs.names (fs.dinode inum) p := by
    intro p
    rw [names_addrs haddrs, hn.names hs]
  refine ⟨hn.sb, hn.formatted h.formatted, hn.here hw, ⟨(hn.sound hs).addrs haddrs, ?_, fun bn hbn => ?_, hn.sb ▸ hi⟩,
    fun hzero p => ?_, fun j hj hne => ⟨hn.others j hj hne, hn.spares (h.sound hj)⟩, fun p hp => ?_, fun c hc hused => ?_⟩
  · exact hsize ▸ hc.size
  · rw [hnames]
    exact hc.full bn (hsize ▸ hbn)
  · rw [hnames]
    exact h.spare inum hi (htype hzero) p
  · exact .inl ⟨hp, p, (hnames p).symm⟩
  · rw [hn.used] at hused
    by_cases hin : c ∈ fs.held (fs.dinode inum)
    · obtain ⟨-, p, hp⟩ := hin
      exact .inr ⟨p, (hnames p).trans hp⟩
    · exact .inl ⟨hused, hin⟩

/-- The inode no longer names anything, and what it named is free. -/
theorem Clean.empties (h : fs.Clean) (hi : inum < fs.sb.ninodes) (hfrees : fs.Frees (fs.held (fs.dinode inum)) fs')
    (hn : fs'.Notes inum d fs'') (hw : d.Words) (haddrs : d.addrs = fun _ => 0) (hsize : d.size = 0) :
    fs.Changes inum d fs'' := by
  have hf := (h.sound hi).formatted_of_frees h.formatted hfrees
  have hnames : ∀ p, fs''.names d p = 0 := by
    rintro (i | j)
    · exact congrFun haddrs i
    · exact if_pos (congrFun haddrs indirectIx)
  have hsb := hn.sb.trans hfrees.sb
  refine ⟨hsb, hn.formatted hf, hn.here hw, ⟨sound_of_names hnames, ?_, fun bn hbn => ?_, hsb ▸ hi⟩, fun _ => hnames,
    fun j hj hne => ⟨?_, ?_⟩, fun p hp => ?_, fun c hc hused => ?_⟩
  · exact hsize ▸ Nat.zero_le _
  · exact absurd (hsize ▸ hbn) (Nat.not_lt_zero _)
  · rw [hn.others j (hfrees.sb ▸ hj) hne, hfrees.inodes j hj]
  · have hs := h.sound hj
    refine (hfrees.spares hs ?_).notes hn hfrees.sb hs
    rintro p hp ⟨-, q, hq⟩
    have := h.apart inum hi j hj hne.symm q p hq
    exact hp (hq.symm.trans this)
  · exact absurd (hnames p) hp
  · rw [hn.used] at hused
    exact .inl ((hfrees.used c).1 hused)

theorem Works.reach_eq (h : fs.Works ip fs' ip') (n : Nat) :
    ip'.reach n = { ip with size := max ip.size n, addrs := ip'.addrs } := by
  obtain ⟨a, rfl⟩ := h.inode
  rw [Inode.reach]
  split
  · rename_i hlt
    rw [Nat.max_eq_right (show ip.size ≤ n from Nat.le_of_lt hlt)]
  · rename_i hle
    rw [Nat.max_eq_left (show n ≤ ip.size from not_lt.1 hle)]

/-- What a sound inode has in `addrs` fits into the words on disk. -/
theorem Sound.addrs_lt (hs : fs.Sound d) (hf : fs.Formatted) (i : Fin (ndirect + 1)) : d.addrs i < 2 ^ 32 := by
  by_cases hzero : d.addrs i = 0
  · rw [hzero]
    exact Nat.two_pow_pos 32
  · exact Nat.lt_of_lt_of_le (hs.upper (.inl i) hzero) hf.size

/-- What `writei` has done when it writes the inode back. -/
theorem Clean.filled {k : Nat} (h : fs.Clean) (hi : inum < fs.sb.ninodes)
    (hfilled : fs.Filled (fs.inode inum) src off (t + k) fs' ip') (hoff : off ≤ (fs.dinode inum).size)
    (hlim : off + t ≤ maxFile * bsize) (htype : (fs.dinode inum).type ≠ 0) :
    fs.Changes inum (ip'.reach (off + t)).toDinode (fs'.iupdate (ip'.reach (off + t))) := by
  have hc := h.consistent inum hi
  have hnotes := hfilled.notes hc (off + t)
  obtain ⟨hform, hcons⟩ := hfilled.consistent hc (Nat.le_add_right t k) hoff hlim
  have haddrs : (ip'.reach (off + t)).addrs = ip'.addrs := Inode.reach_addrs _ _
  have hnames : ∀ p, (fs'.iupdate (ip'.reach (off + t))).names (ip'.reach (off + t)).toDinode p = fs'.names ip'.toDinode p := by
    intro p
    rw [names_addrs haddrs, hnotes.names hfilled.sound]
  have hreach := hfilled.toWorks.reach_eq (off + t)
  have hsame : ip'.reach (off + t) = { (ip'.reach (off + t)).toDinode with inum := inum } := by rw [hreach]; rfl
  have hw : (ip'.reach (off + t)).toDinode.Words := by
    have hold := Dinode.load_words (fs.block (fs.iblock inum)) (inum % ipb * dinodeSize)
    have hsize := hc.size
    have hmax : maxFile * bsize < 2 ^ 32 := by decide
    rw [hreach]
    exact ⟨hold.type, hold.major, hold.minor, hold.nlink,
      Nat.lt_of_le_of_lt (Nat.max_le.2 ⟨hsize, hlim⟩) hmax, hfilled.sound.addrs_lt hfilled.formatted⟩
  refine ⟨hnotes.sb.trans hfilled.sb, hform, hnotes.here hw, hsame ▸ hcons, fun hzero => ?_, fun j hj hne => ⟨?_, ?_⟩,
    fun p hp => ?_, fun c hc hused => ?_⟩
  · rw [hreach] at hzero
    exact absurd hzero htype
  · rw [hnotes.others j (hfilled.sb ▸ hj) hne, hfilled.inodes j hj]
  · exact (hfilled.toWorks.spares (h.sound hj) (h.apart inum hi j hj hne.symm)).notes hnotes hfilled.sb (h.sound hj)
  · rw [hnames] at hp ⊢
    by_cases hold : fs'.names ip'.toDinode p = fs.names (fs.dinode inum) p
    · exact .inl ⟨hp, p, hold.symm⟩
    · exact .inr (hfilled.fresh p hold)
  · rw [hnotes.used] at hused
    rcases hfilled.owned c hc hused with hold | ⟨p, hp, -⟩
    · by_cases hin : c ∈ fs.held (fs.dinode inum)
      · obtain ⟨hne, p, hp⟩ := hin
        have hkeep := hfilled.keep p (show fs.names (fs.dinode inum) p ≠ 0 from hp.symm ▸ hne)
        exact .inr ⟨p, (hnames p).trans (hkeep.trans hp)⟩
      · exact .inl ⟨hold, hin⟩
    · exact .inr ⟨p, (hnames p).trans hp⟩

/-- `itrunc`, and `iput` after it. -/
theorem Clean.itrunc (h : fs.Clean) (hi : inum < fs.sb.ninodes) (type : Nat) (htype : type < 2 ^ 16) :
    ∃ fs', fs.itrunc (fs.inode inum) = .ok ((fs.inode inum).emptied, fs') ∧
      fs.Changes inum { (fs.inode inum).emptied.toDinode with type := (fs.dinode inum).type } fs' ∧
      fs.Changes inum { (fs.inode inum).emptied.toDinode with type := type }
        (fs'.iupdate { (fs.inode inum).emptied with type := type }) := by
  have hs : fs.Sound (fs.inode inum).toDinode := h.sound hi
  obtain ⟨fs₁, hrun, hfrees⟩ := h.formatted.itrunc hs
  have hold := Dinode.load_words (fs.block (fs.iblock inum)) (inum % ipb * dinodeSize)
  have hf₁ := hs.formatted_of_frees h.formatted hfrees
  have hin : inum < fs₁.sb.ninodes := hfrees.sb ▸ hi
  have hn := hf₁.putDinode hin (fs.inode inum).emptied.toDinode
  have hn' := hn.again ((hn.formatted hf₁).putDinode (hn.sb ▸ hin) { (fs.inode inum).emptied.toDinode with type := type })
  refine ⟨_, hrun, h.empties hi hfrees hn ?_ rfl rfl, h.empties hi hfrees hn' ?_ rfl rfl⟩
  · exact ⟨hold.type, hold.major, hold.minor, hold.nlink, Nat.two_pow_pos 32, fun _ => Nat.two_pow_pos 32⟩
  · exact ⟨htype, hold.major, hold.minor, hold.nlink, Nat.two_pow_pos 32, fun _ => Nat.two_pow_pos 32⟩

/-- `ialloc` takes a free inode, if there is one. -/
theorem Clean.ialloc (h : fs.Clean) (type : Nat) (htype : type < 2 ^ 16) :
    fs.ialloc type = (none, fs) ∨ ∃ inum < fs.sb.ninodes, (fs.dinode inum).type = 0 ∧
      (fs.ialloc type).1 = some inum ∧ fs.Changes inum { Dinode.zero with type := type } (fs.ialloc type).2 := by
  rw [Fs.ialloc]
  cases hfind : (List.range' 1 (fs.sb.ninodes - 1)).find? fun inum => (fs.dinode inum).type = 0 with
  | none => exact .inl rfl
  | some inum =>
    have hfree : (fs.dinode inum).type = 0 := by simpa using List.find?_some hfind
    have hi : inum < fs.sb.ninodes := by
      have := List.mem_range'_1.1 (List.mem_of_find?_eq_some hfind)
      omega
    -- a free inode names no block, so nothing has to be freed
    have hnone : fs.held (fs.dinode inum) = ∅ := by
      ext c
      refine iff_of_false ?_ (Set.notMem_empty c)
      rintro ⟨hne, p, hp⟩
      exact hne (hp.symm.trans (h.spare inum hi hfree p))
    have hw : ({ Dinode.zero with type := type } : Dinode).Words :=
      ⟨htype, Nat.two_pow_pos 16, Nat.two_pow_pos 16, Nat.two_pow_pos 16, Nat.two_pow_pos 32, fun _ => Nat.two_pow_pos 32⟩
    exact .inr ⟨inum, hi, hfree, rfl, h.empties hi (hnone ▸ Frees.refl fs) (h.formatted.putDinode hi _) hw rfl rfl⟩

/-! ## Runs -/

/-- Another file: its inode and its contents are as they were. -/
theorem Changes.contents (hch : fs.Changes inum d fs') (h : fs.Clean) (hj : j < fs.sb.ninodes) (hne : j ≠ inum) :
    fs'.dinode j = fs.dinode j ∧ fs'.contents (fs'.dinode j) = fs.contents (fs.dinode j) := by
  obtain ⟨hsame, hsp⟩ := hch.others j hj hne
  refine ⟨hsame, ?_⟩
  rw [hsame]
  refine List.map_congr_left fun i hi => ?_
  have hthere := (h.consistent j hj).full_at (List.mem_range.1 hi)
  rw [byteAt, byteAt, hsp.names, hsp.data _ hthere]

/-- Every call that an allocated inode permits succeeds and changes one inode at most. -/
theorem Clean.run (h : fs.Clean) {c : InodeCall} (hc : fs.Allocated c) :
    ∃ fs', c.run fs = .ok fs' ∧ (fs' = fs ∨ ∃ i < fs.sb.ninodes, c.On fs i ∧ ∃ d, fs.Changes i d fs') := by
  cases c with
  | ialloc type =>
    refine ⟨_, rfl, ?_⟩
    rcases h.ialloc type.toNat type.toNat_lt with hnone | ⟨i, hi, -, hres, hch⟩
    · exact .inl (congrArg Prod.snd hnone)
    · exact .inr ⟨i, hi, hres, _, hch⟩
  | locked inum op =>
    obtain ⟨hi, htype⟩ := hc
    have hlock : fs.ilock inum = .ok (fs.inode inum) := if_neg htype
    have hold := Dinode.load_words (fs.block (fs.iblock inum)) (inum % ipb * dinodeSize)
    have hrun : InodeCall.run fs (.locked inum op) = op.run fs (fs.inode inum) := by
      rw [InodeCall.run, hlock]
      rfl
    rw [hrun]
    cases op with
    | writei src off n =>
      by_cases hacc : Accepts (fs.inode inum) off n
      · obtain ⟨t, k, fs₁, ip₁, hwrite, hfilled, -, ht, -⟩ := writei_accepts src h.formatted (h.sound hi) hacc
        obtain ⟨hoff, hlim⟩ := hacc
        have hch := h.filled hi hfilled hoff (by omega) htype
        exact ⟨_, by rw [InodeOp.run, hwrite]; rfl, .inr ⟨inum, hi, rfl, _, hch⟩⟩
      · exact ⟨fs, by rw [InodeOp.run, writei_rejects fs src hacc]; rfl, .inl rfl⟩
    | itrunc =>
      obtain ⟨fs₁, htrunc, hch, -⟩ := h.itrunc hi 0 (by decide)
      exact ⟨fs₁, by rw [InodeOp.run, htrunc]; rfl, .inr ⟨inum, hi, rfl, _, hch⟩⟩
    | iupdate major minor nlink =>
      refine ⟨_, rfl, .inr ⟨inum, hi, rfl, _, h.fields hi ?_ (h.formatted.putDinode hi _) rfl rfl id⟩⟩
      exact ⟨hold.type, major.toNat_lt, minor.toNat_lt, nlink.toNat_lt, hold.size, hold.addrs⟩
    | iput =>
      obtain ⟨fs₁, htrunc, -, hch⟩ := h.itrunc hi 0 (by decide)
      exact ⟨_, by rw [InodeOp.run, htrunc]; rfl, .inr ⟨inum, hi, rfl, _, hch⟩⟩

/-- Every call keeps the disk clean. -/
theorem clean_of_reaches {fs₀ : Fs} (hc : fs₀.Clean) (h : (inodeSystem fs₀).Reaches Allocated fs) : fs.Clean := by
  refine h.invariant (fun fs hfs => hfs ▸ hc) fun fs c fs' hclean hG hstep => ?_
  obtain ⟨fs'', hrun, hch⟩ := hclean.run hG
  obtain rfl : fs'' = fs' := Except.ok.inj (hrun.symm.trans hstep)
  rcases hch with rfl | ⟨i, hi, -, d, hch⟩
  · exact hclean
  · exact hch.clean hclean hi

/-- In every run from a clean disk a data block is in use exactly if one place of
one inode names it, and the next call succeeds and leaves other files alone. -/
theorem free_map_exact {fs₀ : Fs} (hc : fs₀.Clean) (h : (inodeSystem fs₀).Reaches Allocated fs) :
    (∀ c, fs.sb.datastart ≤ c → c < fs.sb.size →
      (fs.used c = true ↔ ∃! x : Nat × Place, x.1 < fs.sb.ninodes ∧ fs.names (fs.dinode x.1) x.2 = c)) ∧
    ∀ c, fs.Allocated c → ∃ fs', c.run fs = .ok fs' ∧ ∀ j < fs.sb.ninodes, ¬ c.On fs j →
      fs'.dinode j = fs.dinode j ∧ fs'.contents (fs'.dinode j) = fs.contents (fs.dinode j) := by
  have hclean := clean_of_reaches hc h
  refine ⟨fun c hlow hup => ⟨fun hused => ?_, ?_⟩, fun c hG => ?_⟩
  · have hne := ne_zero_of_le hlow
    obtain ⟨i, hi, p, hp⟩ := hclean.named c hlow hup hused
    refine ⟨(i, p), ⟨hi, hp⟩, ?_⟩
    rintro ⟨j, q⟩ ⟨hj, hq⟩
    have hij : j = i := by
      by_contra hji
      exact hne (hq.symm.trans (hclean.apart j hj i hi hji q p (hq.trans hp.symm)))
    subst hij
    have hqp : q = p := (hclean.sound hi).distinct q p (hq.trans hp.symm) (hq.symm ▸ hne)
    rw [hqp]
  · rintro ⟨⟨i, p⟩, ⟨hi, hp⟩, -⟩
    exact hp ▸ (hclean.sound hi).used p (hp.symm ▸ ne_zero_of_le hlow)
  · obtain ⟨fs', hrun, hch⟩ := hclean.run hG
    refine ⟨fs', hrun, fun j hj hon => ?_⟩
    rcases hch with rfl | ⟨i, hi, hi', d, hch⟩
    · exact ⟨rfl, rfl⟩
    · refine hch.contents hclean hj ?_
      rintro rfl
      exact hon hi'

/-! ## A new disk -/

/-- A disk of 64 blocks with no files: data blocks start at 5. -/
def blank : Fs where
  sb := ⟨64, 16, 2, 4⟩
  block b := if b = 4 then fun i => if i = 0 then 31 else 0 else fun _ => 0
  logged := []

theorem blank_dinode (hi : i < 16) : blank.dinode i = Dinode.zero := by
  have hne : blank.iblock i ≠ 4 := by
    simp only [iblock, blank, ipb, bsize, dinodeSize]
    omega
  have hzero : blank.block (blank.iblock i) = fun _ => 0 := if_neg hne
  rw [dinode, hzero, Dinode.load]
  simp only [Bytes.peek_zero]
  rfl

theorem blank_clean : blank.Clean := by
  have hfree : ∀ c, 5 ≤ c → c < 64 → blank.used c = false := by decide +kernel
  have hnames : ∀ i < 16, ∀ p, blank.names (blank.dinode i) p = 0 := by
    intro i hi p
    rw [blank_dinode hi]
    cases p <;> rfl
  refine ⟨⟨by decide, by decide, by decide, by decide +kernel⟩, fun i hi => ?_, fun i hi j _ _ p q _ => hnames i hi p,
    fun i hi _ => hnames i hi, fun c hlow hup hused => ?_⟩
  · refine ⟨sound_of_names (hnames i hi), ?_, fun bn hbn => ?_, hi⟩
    · rw [inode, blank_dinode hi]
      exact Nat.zero_le _
    · rw [inode, blank_dinode hi] at hbn
      exact absurd hbn (Nat.not_lt_zero _)
  · rw [hfree c hlow hup] at hused
    cases hused

/-- A call, if the kernel does not stop. -/
def next (fs : Fs) (c : InodeCall) : Option Fs := (c.run fs).toOption

theorem run_of_next {c : InodeCall} (h : fs.next c = some fs') : c.run fs = .ok fs' := by
  cases hrun : c.run fs with
  | error msg => simp [next, hrun, Except.toOption] at h
  | ok fs₁ => simpa [next, hrun, Except.toOption] using h

/-- A file is made and written: it names the first data block, and it can be truncated. -/
theorem free_map_exact_blank : ∃ fs, (inodeSystem blank).Reaches Allocated fs ∧ fs.used 5 = true ∧
    (∃! x : Nat × Place, x.1 < fs.sb.ninodes ∧ fs.names (fs.dinode x.1) x.2 = 5) ∧
    ∃ fs', (InodeCall.locked 1 .itrunc).run fs = .ok fs' := by
  have hrun : (Lts.replay next Allocated blank [.ialloc 2, .locked 1 (.writei (.kernel fun _ => 1) 0 10)]).any
      (fun fs => decide (fs.sb = blank.sb ∧ (fs.dinode 1).type ≠ 0 ∧ fs.block 4 0 = 63)) = true := by
    decide +kernel
  obtain ⟨fs, hs, hc⟩ := (Option.any_eq_true _ _).1 hrun
  obtain ⟨hsb, htype, hbyte⟩ := of_decide_eq_true hc
  have hreach := Lts.Reaches.of_replay (M := inodeSystem blank) (fun _ _ _ => run_of_next) (.init rfl) hs
  have hused : fs.used 5 = true := by
    have hblock : fs.bblock 5 = 4 := bblock_congr hsb 5
    rw [used, hblock, Bytes.getBit_eq, show 5 % bpb / 8 = 0 from rfl, hbyte]
    decide
  have hstart : fs.sb.datastart ≤ 5 := by rw [hsb]; decide
  have hsize : 5 < fs.sb.size := by rw [hsb]; decide
  have hone : 1 < fs.sb.ninodes := by rw [hsb]; decide
  obtain ⟨hmap, hcalls⟩ := free_map_exact blank_clean hreach
  obtain ⟨fs', hrun', -⟩ := hcalls (.locked 1 .itrunc) ⟨hone, htype⟩
  exact ⟨fs, hreach, hused, (hmap 5 hstart hsize).1 hused, fs', hrun'⟩

end Fs

end Xv6
