-- SUMMARY: What the block layer keeps: layout, the free map, and the blocks that an inode holds.
import Xv6Threads.Fs.Inode

/-!
# Blocks of an inode

An inode holds the blocks named in `addrs` and in its indirect block. On a sound
file system they are pairwise distinct data blocks that the free map marks as
used; so what `balloc` returns is held by no inode, and `bmap` adds to what an
inode holds without touching what any other inode holds.
-/

namespace Xv6

/-! ## Inodes in their blocks -/

namespace Dinode

/-- The fields fit into the bytes they have on disk. -/
structure Words (d : Dinode) : Prop where
  type : d.type < 2 ^ 16
  major : d.major < 2 ^ 16
  minor : d.minor < 2 ^ 16
  nlink : d.nlink < 2 ^ 16
  size : d.size < 2 ^ 32
  addrs : ∀ i, d.addrs i < 2 ^ 32

theorem load_congr {s s' : Sector} {o : Nat} (h : ∀ i, o ≤ i → i < o + dinodeSize → s' i = s i) : load s' o = load s o := by
  have hfield : ∀ {a w : Nat}, o ≤ a → a + w ≤ o + dinodeSize → Bytes.peek s' a w = Bytes.peek s a w :=
    fun ha hw => Bytes.peek_congr fun i hi hi' => h i (by omega) (by omega)
  have haddrs : (fun i : Fin (ndirect + 1) => Bytes.peek s' (o + 12 + 4 * i) 4) =
      fun i : Fin (ndirect + 1) => Bytes.peek s (o + 12 + 4 * i) 4 := by
    funext i
    have := i.isLt
    refine hfield (by omega) ?_
    simp only [ndirect, dinodeSize] at *
    omega
  rw [load, load, haddrs, hfield (by omega) (by simp [dinodeSize]), hfield (by omega) (by simp [dinodeSize]),
    hfield (by omega) (by simp [dinodeSize]), hfield (by omega) (by simp [dinodeSize]),
    hfield (by omega) (by simp [dinodeSize])]

theorem store_outside {s : Sector} {o i : Nat} (d : Dinode) (h : i < o ∨ o + dinodeSize ≤ i) : store s o d i = s i := by
  simp only [dinodeSize] at h
  rw [store, Bytes.pokeArray_outside (by simp only [ndirect]; omega), Bytes.poke_outside (by omega),
    Bytes.poke_outside (by omega), Bytes.poke_outside (by omega), Bytes.poke_outside (by omega),
    Bytes.poke_outside (by omega)]

/-- What was stored is loaded again. -/
theorem load_store {d : Dinode} (h : d.Words) (s : Sector) (o : Nat) : load (store s o d) o = d := by
  have hbefore : ∀ {f : Sector} {a : Nat → Nat} {p w : Nat}, p + w ≤ o + 12 →
      Bytes.peek (Bytes.pokeArray f (o + 12) 4 a (ndirect + 1)) p w = Bytes.peek f p w :=
    fun hp => Bytes.peek_congr fun i hi hi' => Bytes.pokeArray_outside (by omega)
  have haddrs : (fun i : Fin (ndirect + 1) => Bytes.peek (store s o d) (o + 12 + 4 * i) 4) = d.addrs := by
    funext i
    rw [store, Bytes.peek_pokeArray i.isLt, dif_pos i.isLt]
    exact Nat.mod_eq_of_lt (h.addrs i)
  have htype : Bytes.peek (store s o d) o 2 = d.type := by
    rw [store, hbefore (by omega), Bytes.peek_poke_ne (by omega), Bytes.peek_poke_ne (by omega), Bytes.peek_poke_ne (by omega),
      Bytes.peek_poke_ne (by omega), Bytes.peek_poke_same]
    exact Nat.mod_eq_of_lt h.type
  have hmajor : Bytes.peek (store s o d) (o + 2) 2 = d.major := by
    rw [store, hbefore (by omega), Bytes.peek_poke_ne (by omega), Bytes.peek_poke_ne (by omega), Bytes.peek_poke_ne (by omega),
      Bytes.peek_poke_same]
    exact Nat.mod_eq_of_lt h.major
  have hminor : Bytes.peek (store s o d) (o + 4) 2 = d.minor := by
    rw [store, hbefore (by omega), Bytes.peek_poke_ne (by omega), Bytes.peek_poke_ne (by omega), Bytes.peek_poke_same]
    exact Nat.mod_eq_of_lt h.minor
  have hnlink : Bytes.peek (store s o d) (o + 6) 2 = d.nlink := by
    rw [store, hbefore (by omega), Bytes.peek_poke_ne (by omega), Bytes.peek_poke_same]
    exact Nat.mod_eq_of_lt h.nlink
  have hsize : Bytes.peek (store s o d) (o + 8) 4 = d.size := by
    rw [store, hbefore (by omega), Bytes.peek_poke_same]
    exact Nat.mod_eq_of_lt h.size
  rw [load, haddrs, htype, hmajor, hminor, hnlink, hsize]

end Dinode

/-- The first data block: the free map ends before it. -/
def Superblock.datastart (sb : Superblock) : Nat := sb.bmapstart + sb.size / bpb + 1

namespace Fs

variable {fs fs' fs'' : Fs} {b c i inum : Nat} {s : Sector} {d : Dinode}

/-! ## Layout -/

/-- The inode blocks end before the free map and the free map before the end of
the disk, block numbers are words, and the free map marks every block before the
data blocks as used. -/
structure Formatted (fs : Fs) : Prop where
  inodes : fs.sb.inodestart + fs.sb.ninodes / ipb < fs.sb.bmapstart
  maps : fs.sb.datastart ≤ fs.sb.size
  size : fs.sb.size ≤ 2 ^ 32
  metadata : ∀ b < fs.sb.datastart, fs.used b = true

theorem bblock_lt (hb : b < fs.sb.size) : fs.bblock b < fs.sb.datastart := by
  have : b / bpb ≤ fs.sb.size / bpb := Nat.div_le_div_right hb.le
  simp only [bblock, Superblock.datastart]
  omega

theorem le_bblock (fs : Fs) (b : Nat) : fs.sb.bmapstart ≤ fs.bblock b := Nat.le_add_left _ _

theorem Formatted.iblock_lt (h : fs.Formatted) (hi : inum < fs.sb.ninodes) : fs.iblock inum < fs.sb.bmapstart := by
  have : inum / ipb ≤ fs.sb.ninodes / ipb := Nat.div_le_div_right hi.le
  have := h.inodes
  simp only [iblock]
  omega

@[simp] theorem logWrite_sb : (fs.logWrite b s).sb = fs.sb := rfl
@[simp] theorem logWrite_logged : (fs.logWrite b s).logged = fs.logged ++ [b] := rfl
@[simp] theorem logWrite_block_same : (fs.logWrite b s).block b = s := Function.update_self ..

theorem setBlock_block_ne (h : c ≠ b) : (fs.setBlock b s).block c = fs.block c := Function.update_of_ne h ..
theorem logWrite_block_ne (h : c ≠ b) : (fs.logWrite b s).block c = fs.block c := Function.update_of_ne h ..

theorem bblock_congr (h : fs'.sb = fs.sb) (b : Nat) : fs'.bblock b = fs.bblock b := by rw [bblock, bblock, h]
theorem iblock_congr (h : fs'.sb = fs.sb) (i : Nat) : fs'.iblock i = fs.iblock i := by rw [iblock, iblock, h]

theorem used_congr (hsb : fs'.sb = fs.sb) (h : fs'.block (fs.bblock b) = fs.block (fs.bblock b)) :
    fs'.used b = fs.used b := by
  rw [used, used, bblock_congr hsb, h]

theorem dinode_congr (hsb : fs'.sb = fs.sb) (h : fs'.block (fs.iblock i) = fs.block (fs.iblock i)) :
    fs'.dinode i = fs.dinode i := by
  rw [dinode, dinode, iblock_congr hsb, h]

/-! ## balloc -/

/-- Block `b` was free and is now in use, with zeros in it; nothing else has
changed in the data blocks, in the rest of the free map or in the inodes. -/
structure Fresh (fs : Fs) (b : Nat) (fs' : Fs) : Prop where
  sb : fs'.sb = fs.sb
  lower : fs.sb.datastart ≤ b
  upper : b < fs.sb.size
  free : fs.used b = false
  used : ∀ c < fs.sb.size, fs'.used c = (decide (c = b) || fs.used c)
  data : ∀ c, fs.sb.datastart ≤ c → c ≠ b → fs'.block c = fs.block c
  zero : fs'.block b = fun _ => 0
  inodes : ∀ i < fs.sb.ninodes, fs'.dinode i = fs.dinode i
  logged : fs'.logged = fs.logged ++ [fs.bblock b, b]

/-- A change to the map at block `b` only. -/
theorem used_logWrite_bblock {t : Sector → Nat → Sector} {g : Bool → Bool}
    (ht : ∀ f i j, Bytes.getBit (t f i) j = if j = i then g (Bytes.getBit f j) else Bytes.getBit f j) (b c : Nat) :
    (fs.logWrite (fs.bblock b) (t (fs.block (fs.bblock b)) (b % bpb))).used c =
      if c = b then g (fs.used c) else fs.used c := by
  rw [used, used, bblock_congr logWrite_sb]
  by_cases hblock : fs.bblock c = fs.bblock b
  · have hdiv : c / bpb = b / bpb := Nat.add_right_cancel hblock
    rw [hblock, logWrite_block_same, ht]
    by_cases hcb : c = b
    · rw [if_pos hcb, if_pos (by rw [hcb])]
    · rw [if_neg hcb, if_neg]
      intro hmod
      exact hcb (by rw [← Nat.div_add_mod c bpb, ← Nat.div_add_mod b bpb, hdiv, hmod])
  · rw [logWrite_block_ne hblock, if_neg fun hcb => hblock (by rw [hcb])]

theorem Formatted.balloc (h : fs.Formatted) :
    (∃ b fs', fs.balloc = (b, fs') ∧ fs.Fresh b fs') ∨ (fs.balloc = (0, fs) ∧ ∀ c < fs.sb.size, fs.used c = true) := by
  unfold Fs.balloc
  cases hfind : (List.range fs.sb.size).find? fun b => !fs.used b with
  | none =>
    refine .inr ⟨rfl, fun c hc => ?_⟩
    have := List.find?_eq_none.1 hfind c (List.mem_range.2 hc)
    simpa using this
  | some b =>
    have hfree : fs.used b = false := by simpa using List.find?_some hfind
    have hb : b < fs.sb.size := List.mem_range.1 (List.mem_of_find?_eq_some hfind)
    have hlow : fs.sb.datastart ≤ b := by
      by_contra hlt
      rw [h.metadata b (by omega)] at hfree
      cases hfree
    have hmap := bblock_lt hb
    have hmap' := fs.le_bblock b
    refine .inl ⟨b, _, rfl, rfl, hlow, hb, hfree, fun c hc => ?_, fun c hc hne => ?_, ?_, fun i hi => ?_, ?_⟩
    · have hcmap := bblock_lt hc
      rw [bzero, used_congr logWrite_sb, used_logWrite_bblock (t := Bytes.setBit) (g := fun _ => true)]
      · by_cases hcb : c = b <;> simp [hcb]
      · intro f i j
        rw [Bytes.getBit_setBit]
        by_cases hji : j = i <;> simp [hji]
      · rw [bblock_congr logWrite_sb, logWrite_block_ne (by omega)]
    · rw [bzero, logWrite_block_ne hne, logWrite_block_ne (by omega)]
    · exact logWrite_block_same
    · have hi' := h.iblock_lt hi
      refine dinode_congr rfl ?_
      have hdata : fs.sb.bmapstart ≤ fs.sb.datastart := (Nat.le_add_right _ _).trans (Nat.le_succ _)
      rw [bzero, logWrite_block_ne (by omega), logWrite_block_ne (by omega)]
    · simp [bzero]

theorem Fresh.formatted (h : fs.Fresh b fs') (hf : fs.Formatted) : fs'.Formatted := by
  refine ⟨h.sb ▸ hf.inodes, h.sb ▸ hf.maps, h.sb ▸ hf.size, fun c hc => ?_⟩
  rw [h.sb] at hc
  rw [h.used c (Nat.lt_of_lt_of_le hc hf.maps), hf.metadata c hc, Bool.or_true]

/-! ## Changes to one data block -/

/-- At most data block `c` has changed. -/
structure Patch (fs : Fs) (c : Nat) (fs' : Fs) : Prop where
  sb : fs'.sb = fs.sb
  lower : fs.sb.datastart ≤ c
  other : ∀ b, b ≠ c → fs'.block b = fs.block b

theorem patch_setBlock (hc : fs.sb.datastart ≤ c) (s : Sector) : fs.Patch c (fs.setBlock c s) :=
  ⟨rfl, hc, fun _ => setBlock_block_ne⟩

theorem patch_logWrite (hc : fs.sb.datastart ≤ c) (s : Sector) : fs.Patch c (fs.logWrite c s) :=
  ⟨rfl, hc, fun _ => logWrite_block_ne⟩

theorem Patch.used (h : fs.Patch c fs') (hb : b < fs.sb.size) : fs'.used b = fs.used b := by
  have hmap := bblock_lt hb
  have hlow := h.lower
  exact used_congr h.sb (h.other _ (by omega))

theorem Patch.dinode (h : fs.Patch c fs') (hf : fs.Formatted) (hi : i < fs.sb.ninodes) : fs'.dinode i = fs.dinode i := by
  have hblock := hf.iblock_lt hi
  have hlow := h.lower
  have hdata : fs.sb.bmapstart ≤ fs.sb.datastart := (Nat.le_add_right _ _).trans (Nat.le_succ _)
  exact dinode_congr h.sb (h.other _ (by omega))

theorem Patch.formatted (h : fs.Patch c fs') (hf : fs.Formatted) : fs'.Formatted := by
  refine ⟨h.sb ▸ hf.inodes, h.sb ▸ hf.maps, h.sb ▸ hf.size, fun b hb => ?_⟩
  rw [h.sb] at hb
  rw [h.used (Nat.lt_of_lt_of_le hb hf.maps)]
  exact hf.metadata b hb

/-! ## The blocks of an inode -/

/-- The places at which an inode names a block: `addrs`, and the entries of the
indirect block. -/
abbrev Place : Type := Fin (ndirect + 1) ⊕ Fin nindirect

/-- The block named at a place; `0` is none. -/
def names (fs : Fs) (d : Dinode) : Place → Nat
  | .inl i => d.addrs i
  | .inr j => if d.addrs indirectIx = 0 then 0 else fs.entry (d.addrs indirectIx) j

/-- The place of the block with index `bn`. -/
def place (bn : Nat) : Place :=
  if h : bn < ndirect then .inl ⟨bn, Nat.lt_succ_of_lt h⟩
  else .inr ⟨(bn - ndirect) % nindirect, Nat.mod_lt _ (by decide)⟩

theorem place_ne (bn : Nat) : place bn ≠ .inl indirectIx := by
  unfold place
  split
  · rename_i h
    intro heq
    have := Fin.mk.inj (Sum.inl.inj heq)
    omega
  · nofun

theorem place_inj {bn bn' : Nat} (h : bn < maxFile) (h' : bn' < maxFile) (heq : place bn = place bn') : bn = bn' := by
  have hmod : ∀ {n : Nat}, n < maxFile → ¬ n < ndirect → (n - ndirect) % nindirect = n - ndirect := by
    intro n hn hnd
    refine Nat.mod_eq_of_lt ?_
    simp only [maxFile] at hn
    omega
  unfold place at heq
  split at heq <;> split at heq
  · exact Fin.mk.inj (Sum.inl.inj heq)
  · cases heq
  · cases heq
  · rename_i hd hd'
    have := Fin.mk.inj (Sum.inr.inj heq)
    rw [hmod h hd, hmod h' hd'] at this
    omega

/-- The blocks an inode names are pairwise distinct data blocks in use. -/
structure Sound (fs : Fs) (d : Dinode) : Prop where
  lower : ∀ p, fs.names d p ≠ 0 → fs.sb.datastart ≤ fs.names d p
  upper : ∀ p, fs.names d p ≠ 0 → fs.names d p < fs.sb.size
  used : ∀ p, fs.names d p ≠ 0 → fs.used (fs.names d p) = true
  distinct : ∀ p q, fs.names d p = fs.names d q → fs.names d p ≠ 0 → p = q

/-- No block is named by both. -/
def Apart (fs : Fs) (d d' : Dinode) : Prop := ∀ p q, fs.names d p = fs.names d' q → fs.names d p = 0

theorem names_congr (hind : d.addrs indirectIx ≠ 0 → fs'.block (d.addrs indirectIx) = fs.block (d.addrs indirectIx))
    (p : Place) : fs'.names d p = fs.names d p := by
  cases p with
  | inl i => rfl
  | inr j =>
    simp only [names]
    split
    · rfl
    · rename_i hne
      rw [entry, entry, hind hne]

theorem Patch.names (h : fs.Patch c fs') (hne : d.addrs indirectIx ≠ c) (p : Place) : fs'.names d p = fs.names d p :=
  names_congr (fun _ => h.other _ hne) p

/-- An inode stays sound as long as it names the same blocks and they stay in use. -/
theorem Sound.congr (hs : fs.Sound d) (hsb : fs'.sb = fs.sb) (hnames : ∀ p, fs'.names d p = fs.names d p)
    (hused : ∀ p, fs.names d p ≠ 0 → fs'.used (fs.names d p) = true) : fs'.Sound d := by
  refine ⟨fun p hp => ?_, fun p hp => ?_, fun p hp => ?_, fun p q heq hp => ?_⟩
  · rw [hnames] at hp ⊢
    rw [hsb]
    exact hs.lower p hp
  · rw [hnames] at hp ⊢
    rw [hsb]
    exact hs.upper p hp
  · rw [hnames] at hp ⊢
    exact hused p hp
  · rw [hnames] at hp
    rw [hnames, hnames] at heq
    exact hs.distinct p q heq hp

theorem Patch.sound (h : fs.Patch c fs') (hne : d.addrs indirectIx ≠ c) (hs : fs.Sound d) : fs'.Sound d :=
  hs.congr h.sb (h.names hne) fun p hp => by rw [h.used (hs.upper p hp), hs.used p hp]

/-- A block that holds data is not the indirect block. -/
theorem Sound.ind_ne (hs : fs.Sound d) {bn : Nat} (hne : fs.names d (place bn) ≠ 0) :
    d.addrs indirectIx ≠ fs.names d (place bn) := by
  intro heq
  exact place_ne bn (hs.distinct _ (.inl indirectIx) heq.symm hne)

/-! ## Work on one inode -/

/-- The inode names what it named before, and perhaps blocks that were free. The
blocks of other inodes hold what they held. -/
structure Works (fs : Fs) (ip : Inode) (fs' : Fs) (ip' : Inode) : Prop where
  sb : fs'.sb = fs.sb
  inode : ∃ a, ip' = { ip with addrs := a }
  formatted : fs'.Formatted
  sound : fs'.Sound ip'.toDinode
  keep : ∀ p, fs.names ip.toDinode p ≠ 0 → fs'.names ip'.toDinode p = fs.names ip.toDinode p
  fresh : ∀ p, fs'.names ip'.toDinode p ≠ fs.names ip.toDinode p → fs.used (fs'.names ip'.toDinode p) = false
  used : ∀ c < fs.sb.size, fs.used c = true → fs'.used c = true
  owned : ∀ c < fs.sb.size, fs'.used c = true → fs.used c = true ∨ ∃ p, fs'.names ip'.toDinode p = c ∧ c ≠ 0
  data : ∀ c, fs.sb.datastart ≤ c → c < fs.sb.size → fs.used c = true → (∀ p, fs.names ip.toDinode p ≠ c) →
    fs'.block c = fs.block c
  inodes : ∀ i < fs.sb.ninodes, fs'.dinode i = fs.dinode i

/-- As before, and the data blocks of the inode hold what they held as well. -/
structure Grows (fs : Fs) (ip : Inode) (fs' : Fs) (ip' : Inode) : Prop extends Works fs ip fs' ip' where
  own : ∀ p, fs.names ip.toDinode p ≠ 0 → p ≠ .inl indirectIx →
    fs'.block (fs.names ip.toDinode p) = fs.block (fs.names ip.toDinode p)

variable {ip ip' ip'' : Inode}

theorem Grows.refl (hf : fs.Formatted) (hs : fs.Sound ip.toDinode) : fs.Grows ip fs ip :=
  ⟨⟨rfl, ⟨ip.addrs, rfl⟩, hf, hs, fun _ _ => rfl, fun _ h => absurd rfl h, fun _ _ h => h, fun _ _ h => .inl h,
    fun _ _ _ _ _ => rfl, fun _ _ => rfl⟩, fun _ _ _ => rfl⟩

/-- A place that has changed names a block that was free before both steps. -/
theorem Works.fresh_trans (h : fs.Works ip fs' ip') (h' : fs'.Works ip' fs'' ip'') (p : Place)
    (hp : fs''.names ip''.toDinode p ≠ fs.names ip.toDinode p) : fs.used (fs''.names ip''.toDinode p) = false := by
  by_cases hsame : fs''.names ip''.toDinode p = fs'.names ip'.toDinode p
  · rw [hsame] at hp ⊢
    exact h.fresh p hp
  · have hnew := h'.fresh p hsame
    by_contra hused
    rw [Bool.not_eq_false] at hused
    have hzero : fs''.names ip''.toDinode p ≠ 0 := by
      intro hzero
      rw [hzero] at hnew
      have hmeta := h.formatted.metadata 0 (Nat.succ_pos _)
      rw [hmeta] at hnew
      cases hnew
    have hup := h'.sound.upper p hzero
    rw [h'.sb, h.sb] at hup
    rw [h.used _ hup hused] at hnew
    cases hnew

theorem Works.trans (h : fs.Works ip fs' ip') (h' : fs'.Works ip' fs'' ip'') : fs.Works ip fs'' ip'' := by
  have hkeep : ∀ p, fs'.names ip'.toDinode p ≠ 0 →
      fs''.names ip''.toDinode p = fs'.names ip'.toDinode p := h'.keep
  refine ⟨h'.sb.trans h.sb, ?_, h'.formatted, h'.sound, fun p hp => ?_, h.fresh_trans h', fun c hc hu => ?_,
    fun c hc hu => ?_, fun c hlo hhi hu hne => ?_, fun i hi => ?_⟩
  · obtain ⟨a, rfl⟩ := h.inode
    obtain ⟨a', rfl⟩ := h'.inode
    exact ⟨a', rfl⟩
  · rw [hkeep p (by rw [h.keep p hp]; exact hp), h.keep p hp]
  · exact h'.used c (h.sb ▸ hc) (h.used c hc hu)
  · rcases h'.owned c (h.sb ▸ hc) hu with hu' | hp
    · rcases h.owned c hc hu' with hu'' | ⟨p, hp, hzero⟩
      · exact .inl hu''
      · exact .inr ⟨p, (hkeep p (hp ▸ hzero)).trans hp, hzero⟩
    · exact .inr hp
  · have hne' : ∀ p, fs'.names ip'.toDinode p ≠ c := by
      intro p heq
      by_cases hsame : fs'.names ip'.toDinode p = fs.names ip.toDinode p
      · exact hne p (hsame.symm.trans heq)
      · have := h.fresh p hsame
        rw [heq, hu] at this
        cases this
    rw [h'.data c (h.sb ▸ hlo) (h.sb ▸ hhi) (h.used c hhi hu) hne', h.data c hlo hhi hu hne]
  · rw [h'.inodes i (h.sb ▸ hi), h.inodes i hi]

theorem Grows.trans (h : fs.Grows ip fs' ip') (h' : fs'.Grows ip' fs'' ip'') : fs.Grows ip fs'' ip'' := by
  refine ⟨h.toWorks.trans h'.toWorks, fun p hp hne => ?_⟩
  have hkeep := h.keep p hp
  have hown := h'.own p (by rw [hkeep]; exact hp) hne
  rw [hkeep] at hown
  rw [hown, h.own p hp hne]

/-- A change to a data block of the inode. -/
theorem Patch.works {bn : Nat} (h : fs.Patch (fs.names ip.toDinode (place bn)) fs') (hf : fs.Formatted)
    (hs : fs.Sound ip.toDinode) (hne : fs.names ip.toDinode (place bn) ≠ 0) : fs.Works ip fs' ip := by
  have hind := hs.ind_ne hne
  have hnames := h.names hind
  refine ⟨h.sb, ⟨_, rfl⟩, h.formatted hf, h.sound hind hs, fun p _ => hnames p, fun p hp => absurd (hnames p) hp,
    fun c hc hu => ?_, fun c hc hu => ?_, fun c _ _ _ hother => ?_, fun i hi => h.dinode hf hi⟩
  · rwa [h.used hc]
  · rw [h.used hc] at hu
    exact .inl hu
  · exact h.other c fun heq => hother _ heq.symm

/-- A free block was put at a place that was empty. -/
theorem grows_add (p₀ : Place) (hs : fs.Sound ip.toDinode) (hsb : fs'.sb = fs.sb)
    (hinode : ∃ a, ip' = { ip with addrs := a }) (hf : fs'.Formatted)
    (hnames : ∀ p, fs'.names ip'.toDinode p = if p = p₀ then b else fs.names ip.toDinode p)
    (hempty : fs.names ip.toDinode p₀ = 0) (hlow : fs.sb.datastart ≤ b) (hup : b < fs.sb.size)
    (hfree : fs.used b = false) (hused : ∀ c < fs.sb.size, fs'.used c = (decide (c = b) || fs.used c))
    (hdata : ∀ c, fs.sb.datastart ≤ c → c < fs.sb.size → fs.used c = true → c ≠ ip.addrs indirectIx →
      fs'.block c = fs.block c) (hinodes : ∀ i < fs.sb.ninodes, fs'.dinode i = fs.dinode i) :
    fs.Grows ip fs' ip' := by
  have hpos : b ≠ 0 := by
    have : 0 < fs.sb.datastart := Nat.succ_pos _
    omega
  have hother : ∀ p, fs.names ip.toDinode p ≠ b := by
    intro p heq
    have := hs.used p (by rw [heq]; exact hpos)
    rw [heq, hfree] at this
    cases this
  refine ⟨⟨hsb, hinode, hf, ⟨fun p hp => ?_, fun p hp => ?_, fun p hp => ?_, fun p q heq hp => ?_⟩, fun p hp => ?_,
    fun p hp => ?_, fun c hc hu => ?_, fun c hc hu => ?_,
    fun c hlo hhi hu hne => hdata c hlo hhi hu fun heq => hne (.inl indirectIx) heq.symm, hinodes⟩,
    fun p hp hne => hdata _ (hs.lower p hp) (hs.upper p hp) (hs.used p hp) fun heq =>
      hne (hs.distinct p (.inl indirectIx) heq hp)⟩
  · rw [hnames] at hp ⊢
    rw [hsb]
    split at hp
    · rwa [if_pos ‹_›]
    · rw [if_neg ‹_›]
      exact hs.lower p hp
  · rw [hnames] at hp ⊢
    rw [hsb]
    split at hp
    · rwa [if_pos ‹_›]
    · rw [if_neg ‹_›]
      exact hs.upper p hp
  · rw [hnames] at hp ⊢
    split at hp
    · rw [if_pos ‹_›, hused b hup]
      simp
    · rw [if_neg ‹_›, hused _ (hs.upper p hp), hs.used p hp, Bool.or_true]
  · rw [hnames] at hp
    rw [hnames, hnames] at heq
    by_cases hpp : p = p₀
    · by_cases hqp : q = p₀
      · rw [hpp, hqp]
      · rw [if_pos hpp, if_neg hqp] at heq
        exact absurd heq.symm (hother q)
    · rw [if_neg hpp] at heq hp
      by_cases hqp : q = p₀
      · rw [if_pos hqp] at heq
        exact absurd heq (hother p)
      · rw [if_neg hqp] at heq
        exact hs.distinct p q heq hp
  · rw [hnames, if_neg]
    rintro rfl
    exact hp hempty
  · rw [hnames] at hp ⊢
    by_cases hpp : p = p₀
    · rwa [if_pos hpp]
    · rw [if_neg hpp] at hp
      exact absurd rfl hp
  · rw [hused c hc, hu, Bool.or_true]
  · rw [hused c hc, Bool.or_eq_true, decide_eq_true_eq] at hu
    rcases hu with rfl | hu
    · exact .inr ⟨p₀, by rw [hnames, if_pos rfl], hpos⟩
    · exact .inl hu

/-- A fresh block in `addrs`. -/
theorem Fresh.grows_direct {j : Fin (ndirect + 1)} (h : fs.Fresh b fs') (hf : fs.Formatted) (hs : fs.Sound ip.toDinode)
    (hzero : ip.addrs j = 0) : fs.Grows ip fs' (ip.setAddr j b) := by
  have hpos : b ≠ 0 := by
    have := h.lower
    have : 0 < fs.sb.datastart := Nat.succ_pos _
    omega
  refine grows_add (.inl j) hs h.sb ⟨_, rfl⟩ (h.formatted hf) (fun p => ?_) hzero h.lower h.upper h.free h.used
    (fun c hlo _ hu _ => h.data c hlo ?_) h.inodes
  · cases p with
    | inl i =>
      by_cases hij : i = j
      · simp [names, Inode.setAddr, hij]
      · simp [names, Inode.setAddr, hij]
    | inr l =>
      rw [if_neg nofun]
      by_cases hind : indirectIx = j
      · -- the new block is the indirect block: its entries are zero
        subst hind
        have hnew : (ip.setAddr indirectIx b).addrs indirectIx = b := by simp [Inode.setAddr]
        simp only [names]
        rw [hnew, if_neg hpos, if_pos hzero, entry, h.zero, Bytes.peek_zero]
      · have hsame : (ip.setAddr j b).addrs indirectIx = ip.addrs indirectIx := Function.update_of_ne hind ..
        simp only [names]
        rw [hsame]
        split
        · rfl
        · rename_i hne
          have hused : fs.used (ip.addrs indirectIx) = true := hs.used (.inl indirectIx) hne
          have hlow : fs.sb.datastart ≤ ip.addrs indirectIx := hs.lower (.inl indirectIx) hne
          have hne' : ip.addrs indirectIx ≠ b := by
            intro heq
            rw [heq, h.free] at hused
            cases hused
          rw [entry, entry, h.data _ hlow hne']
  · rintro rfl
    rw [h.free] at hu
    cases hu

/-- A fresh block in the indirect block. -/
theorem Fresh.grows_entry {j : Fin nindirect} (h : fs.Fresh b fs') (hf : fs.Formatted) (hs : fs.Sound ip.toDinode)
    (hind : ip.addrs indirectIx ≠ 0) (hzero : fs.entry (ip.addrs indirectIx) j = 0) :
    fs.Grows ip (fs'.logWrite (ip.addrs indirectIx) (Bytes.poke (fs'.block (ip.addrs indirectIx)) (4 * j) 4 b)) ip := by
  have hused : fs.used (ip.addrs indirectIx) = true := hs.used (.inl indirectIx) hind
  have hlow : fs.sb.datastart ≤ ip.addrs indirectIx := hs.lower (.inl indirectIx) hind
  have hne : ip.addrs indirectIx ≠ b := by
    intro heq
    rw [heq, h.free] at hused
    cases hused
  have hsame := h.data _ hlow hne
  have hpatch := patch_logWrite (h.sb ▸ hlow) (Bytes.poke (fs'.block (ip.addrs indirectIx)) (4 * j) 4 b)
  have hform := h.formatted hf
  have hsize : ∀ {c : Nat}, c < fs.sb.size → c < fs'.sb.size := fun hc => h.sb ▸ hc
  refine grows_add (.inr j) hs h.sb ⟨_, rfl⟩ (hpatch.formatted hform) (fun p => ?_) ?_ h.lower h.upper h.free
    (fun c hc => ?_) (fun c hlo _ hu hcne => ?_) (fun i hi => ?_)
  · cases p with
    | inl i =>
      rw [if_neg nofun]
      rfl
    | inr l =>
      simp only [names, if_neg hind]
      rw [entry, logWrite_block_same, hsame]
      by_cases hlj : l = j
      · subst hlj
        rw [if_pos rfl, Bytes.peek_poke_same]
        exact Nat.mod_eq_of_lt (Nat.lt_of_lt_of_le h.upper hf.size)
      · have hval : (l : Nat) ≠ j := fun heq => hlj (Fin.ext heq)
        rw [if_neg (by simpa using hlj), Bytes.peek_poke_ne (by omega)]
        rfl
  · simp only [names, if_neg hind]
    exact hzero
  · rw [hpatch.used (hsize hc), h.used c hc]
  · have hcb : c ≠ b := by
      rintro rfl
      rw [h.free] at hu
      cases hu
    rw [hpatch.other c hcne, h.data c hlo hcb]
  · rw [hpatch.dinode hform (h.sb ▸ hi), h.inodes i hi]

/-- `addrs[j]` is there, or was allocated, or the disk is full. -/
theorem Formatted.demand (hf : fs.Formatted) (hs : fs.Sound ip.toDinode) (j : Fin (ndirect + 1)) :
    (∃ a ip' fs', fs.demand ip j = (a, ip', fs') ∧ fs.Grows ip fs' ip' ∧ a ≠ 0 ∧ ip'.addrs j = a) ∨
      (fs.demand ip j = (0, ip, fs) ∧ ip.addrs j = 0 ∧ ∀ c < fs.sb.size, fs.used c = true) := by
  unfold Fs.demand
  split
  · rename_i hzero
    rcases hf.balloc with ⟨b, fs', hb, hfresh⟩ | ⟨hb, hfull⟩
    · have hpos : b ≠ 0 := by
        have := hfresh.lower
        have : 0 < fs.sb.datastart := Nat.succ_pos _
        omega
      rw [hb]
      dsimp only
      rw [if_neg hpos]
      exact .inl ⟨b, _, fs', rfl, hfresh.grows_direct hf hs hzero, hpos, Function.update_self ..⟩
    · rw [hb]
      exact .inr ⟨rfl, hzero, hfull⟩
  · rename_i hne
    exact .inl ⟨_, _, _, rfl, .refl hf hs, hne, rfl⟩

/-- `bmap` delivers the block of index `bn`, which was there or was free, or the
disk is full and there is none. -/
theorem Formatted.bmap (hf : fs.Formatted) (hs : fs.Sound ip.toDinode) {bn : Nat} (hbn : bn < maxFile) :
    ∃ a ip' fs', fs.bmap ip bn = .ok (a, ip', fs') ∧ fs.Grows ip fs' ip' ∧ fs'.names ip'.toDinode (place bn) = a ∧
      (a = 0 → ∀ c < fs'.sb.size, fs'.used c = true) := by
  by_cases hdirect : bn < ndirect
  · have hplace : place bn = .inl ⟨bn, Nat.lt_succ_of_lt hdirect⟩ := dif_pos hdirect
    rw [Fs.bmap, dif_pos hdirect, hplace]
    rcases hf.demand hs ⟨bn, Nat.lt_succ_of_lt hdirect⟩ with ⟨a, ip', fs', hd, hgrows, hne, ha⟩ | ⟨hd, hzero, hfull⟩
    · rw [hd]
      exact ⟨a, ip', fs', rfl, hgrows, ha, fun h => absurd h hne⟩
    · rw [hd]
      exact ⟨0, ip, fs, rfl, .refl hf hs, hzero, fun _ => hfull⟩
  · have hentry : bn - ndirect < nindirect := by
      simp only [maxFile] at hbn
      omega
    have hplace : place bn = .inr ⟨bn - ndirect, hentry⟩ := by
      rw [place, dif_neg hdirect]
      exact congrArg Sum.inr (Fin.ext (Nat.mod_eq_of_lt hentry))
    rw [Fs.bmap, dif_neg hdirect, if_pos hentry, hplace]
    rcases hf.demand hs indirectIx with ⟨ind, ip₁, fs₁, hd, hgrows, hne, hind⟩ | ⟨hd, hzero, hfull⟩
    swap
    · rw [hd]
      dsimp only
      rw [if_pos rfl]
      exact ⟨0, ip, fs, rfl, .refl hf hs, if_pos hzero, fun _ => hfull⟩
    rw [hd]
    dsimp only
    rw [if_neg hne]
    subst hind
    by_cases hzero : fs₁.entry (ip₁.addrs indirectIx) (bn - ndirect) = 0
    swap
    · rw [if_neg hzero]
      exact ⟨_, ip₁, fs₁, rfl, hgrows, if_neg hne, fun h => absurd h hzero⟩
    rw [if_pos hzero]
    rcases hgrows.formatted.balloc with ⟨b, fs₂, hb, hfresh⟩ | ⟨hb, hfull⟩
    · have hpos : b ≠ 0 := by
        have := hfresh.lower
        have : 0 < fs₁.sb.datastart := Nat.succ_pos _
        omega
      have hgrows' := hfresh.grows_entry (j := ⟨bn - ndirect, hentry⟩) hgrows.formatted hgrows.sound hne hzero
      rw [hb]
      dsimp only
      rw [if_neg hpos]
      refine ⟨b, ip₁, _, rfl, hgrows.trans hgrows', ?_, fun h => absurd h hpos⟩
      simp only [names, if_neg hne]
      rw [entry, logWrite_block_same, Bytes.peek_poke_same]
      exact Nat.mod_eq_of_lt (Nat.lt_of_lt_of_le hfresh.upper hgrows.formatted.size)
    · rw [hb]
      dsimp only
      rw [if_pos rfl]
      refine ⟨0, ip₁, fs₁, rfl, hgrows, ?_, fun _ => hfull⟩
      simp only [names, if_neg hne]
      exact hzero

/-- A block that is there is left alone. -/
theorem bmap_of_names {bn : Nat} (hbn : bn < maxFile) (hne : fs.names ip.toDinode (place bn) ≠ 0) :
    fs.bmap ip bn = .ok (fs.names ip.toDinode (place bn), ip, fs) := by
  by_cases hdirect : bn < ndirect
  · have hplace : place bn = .inl ⟨bn, Nat.lt_succ_of_lt hdirect⟩ := dif_pos hdirect
    rw [hplace] at hne ⊢
    have hne' : ip.addrs ⟨bn, Nat.lt_succ_of_lt hdirect⟩ ≠ 0 := hne
    rw [Fs.bmap, dif_pos hdirect, Fs.demand, if_neg hne']
    rfl
  · have hentry : bn - ndirect < nindirect := by
      simp only [maxFile] at hbn
      omega
    have hplace : place bn = .inr ⟨bn - ndirect, hentry⟩ := by
      rw [place, dif_neg hdirect]
      exact congrArg Sum.inr (Fin.ext (Nat.mod_eq_of_lt hentry))
    rw [hplace] at hne ⊢
    have hind : ip.addrs indirectIx ≠ 0 := by
      intro hzero
      exact hne (if_pos hzero)
    simp only [names, if_neg hind] at hne ⊢
    rw [Fs.bmap, dif_neg hdirect, if_pos hentry, Fs.demand, if_neg hind]
    dsimp only
    rw [if_neg hind, if_neg hne]

/-! ## Inodes on disk -/

/-- Inode `inum` was written to disk as `d`; nothing else has changed. -/
structure Notes (fs : Fs) (inum : Nat) (d : Dinode) (fs' : Fs) : Prop where
  sb : fs'.sb = fs.sb
  used : ∀ b, fs'.used b = fs.used b
  data : ∀ c, fs.sb.datastart ≤ c → fs'.block c = fs.block c
  others : ∀ i < fs.sb.ninodes, i ≠ inum → fs'.dinode i = fs.dinode i
  here : d.Words → fs'.dinode inum = d

theorem Formatted.putDinode (hf : fs.Formatted) (hi : inum < fs.sb.ninodes) (d : Dinode) :
    fs.Notes inum d (fs.putDinode inum d) := by
  have hblock := hf.iblock_lt hi
  have hdata : fs.sb.bmapstart ≤ fs.sb.datastart := (Nat.le_add_right _ _).trans (Nat.le_succ _)
  refine ⟨rfl, fun b => ?_, fun c hc => ?_, fun i hi' hne => ?_, fun hw => ?_⟩
  · have := fs.le_bblock b
    exact used_congr rfl (logWrite_block_ne (by omega))
  · exact logWrite_block_ne (by omega)
  · by_cases hsame : fs.iblock i = fs.iblock inum
    · -- another inode of the same block
      have hdiv : i / ipb = inum / ipb := Nat.add_right_cancel hsame
      have hmod : i % ipb ≠ inum % ipb := by
        intro hmod
        exact hne (by rw [← Nat.div_add_mod i ipb, ← Nat.div_add_mod inum ipb, hdiv, hmod])
      have hnew : (fs.putDinode inum d).dinode i =
          .load (d.store (fs.block (fs.iblock inum)) (inum % ipb * dinodeSize)) (i % ipb * dinodeSize) := by
        rw [dinode, iblock_congr (show (fs.putDinode inum d).sb = fs.sb from rfl), hsame, Fs.putDinode, logWrite_block_same]
      rw [hnew, dinode, hsame]
      refine Dinode.load_congr fun o ho ho' => Dinode.store_outside d ?_
      rw [show dinodeSize = 64 from rfl] at *
      omega
    · exact dinode_congr rfl (logWrite_block_ne hsame)
  · rw [dinode, iblock_congr (show (fs.putDinode inum d).sb = fs.sb from rfl), Fs.putDinode, logWrite_block_same,
      Dinode.load_store hw]

theorem Notes.formatted {d' : Dinode} (h : fs.Notes inum d' fs') (hf : fs.Formatted) : fs'.Formatted := by
  refine ⟨h.sb ▸ hf.inodes, h.sb ▸ hf.maps, h.sb ▸ hf.size, fun b hb => ?_⟩
  rw [h.used]
  exact hf.metadata b (h.sb ▸ hb)

theorem Notes.names {d' : Dinode} (h : fs.Notes inum d' fs') (hs : fs.Sound d) (p : Place) :
    fs'.names d p = fs.names d p :=
  names_congr (fun hne => h.data _ (hs.lower (.inl indirectIx) hne)) p

theorem Notes.sound {d' : Dinode} (h : fs.Notes inum d' fs') (hs : fs.Sound d) : fs'.Sound d :=
  hs.congr h.sb (h.names hs) fun p hp => by rw [h.used, hs.used p hp]

/-! ## Other inodes -/

/-- Work on one inode leaves what another one names, and what is in there. -/
structure Spares (fs : Fs) (d : Dinode) (fs' : Fs) : Prop where
  names : ∀ p, fs'.names d p = fs.names d p
  data : ∀ p, fs.names d p ≠ 0 → fs'.block (fs.names d p) = fs.block (fs.names d p)
  sound : fs'.Sound d

theorem Works.spares (h : fs.Works ip fs' ip') (hs : fs.Sound d) (ha : fs.Apart ip.toDinode d) : fs.Spares d fs' := by
  have hblock : ∀ p, fs.names d p ≠ 0 → fs'.block (fs.names d p) = fs.block (fs.names d p) := by
    intro p hp
    refine h.data _ (hs.lower p hp) (hs.upper p hp) (hs.used p hp) fun q heq => hp ?_
    rw [← heq]
    exact ha q p heq
  have hnames : ∀ p, fs'.names d p = fs.names d p := names_congr fun hne => hblock (.inl indirectIx) hne
  exact ⟨hnames, hblock, hs.congr h.sb hnames fun p hp => h.used _ (hs.upper p hp) (hs.used p hp)⟩

end Fs

end Xv6
