-- SUMMARY: Directories: dirlookup, dirlink and unlink work on a directory as on a finite map.
import Xv6Threads.Base.Slots
import Xv6Threads.Fs.Contents
import Xv6Threads.Fs.Names

/-!
# Directories

A directory is a file of entries, each with an inode number and a name; the
number `0` marks a free entry. `dirlink` takes the first free entry or adds one
at the end, `unlink` clears an entry. No name is there twice, so the entries are a
finite map from names to inode numbers.
-/

namespace Xv6

/-- `T_DIR`. -/
def tDir : Nat := 1
/-- `sizeof(struct dirent)`. -/
def direntSize : Nat := 16

/-- The bytes of a buffer in the kernel. -/
def Dst.bytes : Dst → Nat → UInt8
  | kernel buf => buf
  | user .. => fun _ => 0

/-! ## The code -/

namespace Dirent

/-- `de.inum`. -/
def inum (de : Nat → UInt8) : Nat := Bytes.peek de 0 2

/-- `de.name`. -/
def name (de : Nat → UInt8) : Nat → UInt8 := fun i => de (2 + i)

/-- `strncpy(de.name, name, DIRSIZ)` and `de.inum = inum`. -/
def fill (de name : Nat → UInt8) (inum : Nat) : Nat → UInt8 :=
  Bytes.poke (fun i => if i < 2 then de i else strncpy (Dirent.name de) name 0 dirsiz (i - 2)) 0 2 inum

end Dirent

/-- The string with these bytes. -/
def ofBytes (l : List UInt8) : Nat → UInt8 := fun i => l.getD i 0

namespace Fs

/-- The loop of `dirlookup`. The buffer `de` is on the stack; its first contents
are never read. -/
def dirlookupLoop (name : Nat → UInt8) : Nat → Fs → Inode → Nat → Except Panic (Option (Nat × Nat) × Inode × Fs)
  | 0, fs, dp, _ => .ok (none, dp, fs)
  | fuel + 1, fs, dp, off =>
    if off < dp.size then do
      let (r, dp, fs, de) ← fs.readi dp (.kernel fun _ => 0) (UInt32.ofNat off) (UInt32.ofNat direntSize)
      if r ≠ direntSize then stop "dirlookup read"
      else if Dirent.inum de.bytes = 0 then dirlookupLoop name fuel fs dp (off + direntSize)
      else if namecmp name (Dirent.name de.bytes) = 0 then .ok (some (Dirent.inum de.bytes, off), dp, fs)
      else dirlookupLoop name fuel fs dp (off + direntSize)
    else .ok (none, dp, fs)

/-- `dirlookup(dp, name, poff)`: the number of the inode and the offset of the entry. -/
def dirlookup (fs : Fs) (dp : Inode) (name : Nat → UInt8) : Except Panic (Option (Nat × Nat) × Inode × Fs) :=
  if dp.type ≠ tDir then stop "dirlookup not DIR"
  else dirlookupLoop name (dp.size / direntSize + 1) fs dp 0

/-- The loop of `dirlink`: the offset of the first free entry, or of the end, and
the buffer `de`. -/
def dirlinkLoop : Nat → Fs → Inode → (Nat → UInt8) → Nat → Except Panic (Nat × (Nat → UInt8) × Inode × Fs)
  | 0, fs, dp, de, off => .ok (off, de, dp, fs)
  | fuel + 1, fs, dp, de, off =>
    if off < dp.size then do
      let (r, dp, fs, de) ← fs.readi dp (.kernel de) (UInt32.ofNat off) (UInt32.ofNat direntSize)
      if r ≠ direntSize then stop "dirlink read"
      else if Dirent.inum de.bytes = 0 then .ok (off, de.bytes, dp, fs)
      else dirlinkLoop fuel fs dp de.bytes (off + direntSize)
    else .ok (off, de, dp, fs)

def dirlink (fs : Fs) (dp : Inode) (name : Nat → UInt8) (inum : Nat) : Except Panic (Int × Inode × Fs) := do
  let (found, dp, fs) ← fs.dirlookup dp name
  if found.isSome then .ok (-1, dp, fs)
  else
    let (off, de, dp, fs) ← dirlinkLoop (dp.size / direntSize + 1) fs dp (fun _ => 0) 0
    let (r, dp, fs) ← fs.writei dp (.kernel (Dirent.fill de name inum)) (UInt32.ofNat off) (UInt32.ofNat direntSize)
    if r ≠ direntSize then .ok (-1, dp, fs) else .ok (0, dp, fs)

/-- What `sys_unlink` does to the directory `dp`. Whether the inode found there may
go is for `held` to say: it may not if it is a directory with entries. -/
def unlinkEntry (held : Nat → Bool) (fs : Fs) (dp : Inode) (name : Nat → UInt8) : Except Panic (Int × Inode × Fs) :=
  if namecmp name (ofBytes [46]) = 0 ∨ namecmp name (ofBytes [46, 46]) = 0 then .ok (-1, dp, fs)
  else do
    let (found, dp, fs) ← fs.dirlookup dp name
    match found with
    | none => .ok (-1, dp, fs)
    | some (inum, off) =>
      if held inum then .ok (-1, dp, fs)
      else do
        let (r, dp, fs) ← fs.writei dp (.kernel fun _ => 0) (UInt32.ofNat off) (UInt32.ofNat direntSize)
        if r ≠ direntSize then stop "unlink: writei" else .ok (0, dp, fs)

end Fs

/-! ## Entries -/

namespace Dirent

variable {de de' : Nat → UInt8}

/-- What an entry binds: a name to an inode number, or nothing. -/
def binding (de : Nat → UInt8) : Option (List UInt8 × Nat) :=
  if inum de = 0 then none else some (key (name de), inum de)

theorem inum_congr (h : ∀ i < direntSize, de i = de' i) : inum de = inum de' :=
  Bytes.peek_congr fun i _ hi => h i (by
    rw [direntSize]
    omega)

theorem key_congr (h : ∀ i < direntSize, de i = de' i) : key (name de) = key (name de') :=
  cstr_congr fun i _ hi => h (2 + i) (by
    rw [direntSize]
    rw [dirsiz] at hi
    omega)

theorem binding_congr (h : ∀ i < direntSize, de i = de' i) : binding de = binding de' := by
  rw [binding, binding, inum_congr h, key_congr h]

theorem inum_fill (de name : Nat → UInt8) {i : Nat} (hi : i < 2 ^ 16) : inum (fill de name i) = i := by
  rw [inum, fill, Bytes.peek_poke_same]
  exact Nat.mod_eq_of_lt hi

theorem key_fill (de t : Nat → UInt8) (i : Nat) : key (name (fill de t i)) = key t := by
  rw [← key_strncpy (name de) t]
  refine cstr_congr fun j _ _ => ?_
  rw [name, fill, Bytes.poke_outside (by omega), if_neg (by omega), Nat.add_sub_cancel_left]

theorem binding_fill (de t : Nat → UInt8) {i : Nat} (hi : i < 2 ^ 16) (hpos : 0 < i) :
    binding (fill de t i) = some (key t, i) := by
  rw [binding, inum_fill de t hi, if_neg (by omega), key_fill]

theorem binding_zero : binding (fun _ => 0) = none := if_pos Bytes.peek_zero

end Dirent

namespace Fs

variable {fs fs' : Fs} {dp dp' : Inode} {name : Nat → UInt8} {k off inum : Nat}

/-- The bytes of entry `k`. -/
def direntAt (fs : Fs) (d : Dinode) (k : Nat) : Nat → UInt8 := fun i => fs.byteAt d (direntSize * k + i)

/-- The entries, as slots. -/
def slotAt (fs : Fs) (d : Dinode) (k : Nat) : Option (List UInt8 × Nat) := Dirent.binding (fs.direntAt d k)

/-- The number of entries. -/
def slots (d : Dinode) : Nat := d.size / direntSize

/-- A directory as a map: from a name to the inode number and the offset of the entry. -/
def dir (fs : Fs) (d : Dinode) : List UInt8 → Option (Nat × Nat) :=
  (Option.map fun p => (p.1, direntSize * p.2)) ∘ Slots.get (fs.slotAt d) (slots d)

/-- What holds of a directory: it is a consistent file of whole entries, and no
name is there twice. -/
structure IsDir (fs : Fs) (dp : Inode) : Prop where
  formatted : fs.Formatted
  consistent : fs.Consistent dp
  type : dp.type = tDir
  whole : direntSize ∣ dp.size
  unique : Slots.Unique (fs.slotAt dp.toDinode) (slots dp.toDinode)

theorem IsDir.size_eq (h : fs.IsDir dp) : dp.size = direntSize * slots dp.toDinode := (Nat.mul_div_cancel' h.whole).symm

theorem IsDir.lt_iff (h : fs.IsDir dp) : direntSize * k < dp.size ↔ k < slots dp.toDinode := by
  rw [h.size_eq]
  exact Nat.mul_lt_mul_left (by decide)

/-- The offset of an entry is a word. -/
theorem IsDir.toNat_offset (h : fs.IsDir dp) (hk : k ≤ slots dp.toDinode) :
    (UInt32.ofNat (direntSize * k)).toNat = direntSize * k := by
  have hmax : maxFile * bsize < UInt32.size := by decide
  have hsize := h.consistent.size
  have hle : direntSize * k ≤ direntSize * slots dp.toDinode := Nat.mul_le_mul_left _ hk
  rw [← h.size_eq] at hle
  exact UInt32.toNat_ofNat_of_lt' (by omega)

theorem IsDir.readi (h : fs.IsDir dp) (hk : k < slots dp.toDinode) (buf : Nat → UInt8) :
    ∃ de, fs.readi dp (.kernel buf) (UInt32.ofNat (direntSize * k)) (UInt32.ofNat direntSize) =
      .ok (direntSize, dp, fs, .kernel de) ∧ ∀ i < direntSize, de i = fs.direntAt dp.toDinode k i := by
  have hoff := h.toNat_offset hk.le
  have hlen : (UInt32.ofNat direntSize).toNat = direntSize := rfl
  have hend : direntSize * k + direntSize ≤ dp.size := by
    rw [h.size_eq, ← Nat.mul_succ]
    exact Nat.mul_le_mul_left _ hk
  have hmax : maxFile * bsize < 2 ^ 32 := by decide
  have hsize := h.consistent.size
  have hread := (readsArray_iff h.consistent).2 (show (UInt32.ofNat (direntSize * k)).toNat +
    (UInt32.ofNat direntSize).toNat < 2 ^ 32 ∨ _ from .inl (by omega)) (.kernel buf) _ rfl
  rw [hoff, hlen, contents_slice, Nat.min_eq_left (by omega), List.length_map, List.length_range] at hread
  refine ⟨_, hread, fun i hi => ?_⟩
  rw [Bytes.splice_inside (Nat.zero_le _) (by simpa using hi), List.getElem_map, List.getElem_range]
  rfl

/-! ## dirlookup -/

/-- What an entry in use binds. -/
theorem slotAt_of_inum (h : Dirent.inum (fs.direntAt dp.toDinode k) ≠ 0) : fs.slotAt dp.toDinode k =
    some (key (Dirent.name (fs.direntAt dp.toDinode k)), Dirent.inum (fs.direntAt dp.toDinode k)) := if_neg h

theorem dir_eq_none_iff {a : List UInt8} :
    fs.dir dp.toDinode a = none ↔ ∀ j < slots dp.toDinode, ∀ v, fs.slotAt dp.toDinode j ≠ some (a, v) :=
  Option.map_eq_none_iff.trans Slots.get_eq_none_iff

theorem IsDir.dir_eq_some (h : fs.IsDir dp) {a : List UInt8} (hk : k < slots dp.toDinode)
    (hslot : fs.slotAt dp.toDinode k = some (a, inum)) : fs.dir dp.toDinode a = some (inum, direntSize * k) :=
  Option.map_eq_some_iff.2 ⟨_, h.unique.get_eq_some_iff.2 ⟨hk, hslot⟩, rfl⟩

theorem IsDir.dirlookupLoop (h : fs.IsDir dp) (name : Nat → UInt8) {fuel : Nat} (hfuel : slots dp.toDinode ≤ k + fuel)
    (hk : k ≤ slots dp.toDinode) (hbefore : ∀ j < k, ∀ v, fs.slotAt dp.toDinode j ≠ some (key name, v)) :
    dirlookupLoop name fuel fs dp (direntSize * k) = .ok (fs.dir dp.toDinode (key name), dp, fs) := by
  induction fuel generalizing k with
  | zero => rw [Fs.dirlookupLoop, dir_eq_none_iff.2 fun j hj => hbefore j (by omega)]
  | succ fuel ih =>
    rw [Fs.dirlookupLoop]
    by_cases hmore : k < slots dp.toDinode
    swap
    · rw [if_neg (fun hlt => hmore (h.lt_iff.1 hlt)), dir_eq_none_iff.2 fun j hj => hbefore j (by omega)]
    rw [if_pos (h.lt_iff.2 hmore)]
    obtain ⟨de, hread, hde⟩ := h.readi hmore fun _ => 0
    rw [hread]
    show (if (direntSize : Int) ≠ direntSize then stop "dirlookup read" else _) = _
    rw [if_neg (by simp)]
    show (if Dirent.inum de = 0 then _ else if namecmp name (Dirent.name de) = 0 then
      Except.ok (some (Dirent.inum de, direntSize * k), dp, fs) else _) = _
    rw [Dirent.inum_congr hde]
    -- an entry that does not match
    have hnext (hnot : ∀ v, fs.slotAt dp.toDinode k ≠ some (key name, v)) :
        Fs.dirlookupLoop name fuel fs dp (direntSize * k + direntSize) =
          .ok (fs.dir dp.toDinode (key name), dp, fs) := by
      have hbefore' : ∀ j < k + 1, ∀ v, fs.slotAt dp.toDinode j ≠ some (key name, v) := by
        intro j hj
        rcases Nat.lt_succ_iff_lt_or_eq.1 hj with hj | rfl
        · exact hbefore j hj
        · exact hnot
      rw [← Nat.mul_succ]
      exact ih (by omega) hmore hbefore'
    by_cases hfree : Dirent.inum (fs.direntAt dp.toDinode k) = 0
    · rw [if_pos hfree]
      refine hnext fun v hslot => ?_
      rw [slotAt, Dirent.binding, if_pos hfree] at hslot
      cases hslot
    rw [if_neg hfree]
    have hslot := slotAt_of_inum hfree
    have hcmp : namecmp name (Dirent.name de) = 0 ↔ key name = key (Dirent.name (fs.direntAt dp.toDinode k)) := by
      rw [namecmp_eq_zero_iff, Dirent.key_congr hde]
    by_cases hkey : key name = key (Dirent.name (fs.direntAt dp.toDinode k))
    · rw [← hkey] at hslot
      rw [if_pos (hcmp.2 hkey), h.dir_eq_some hmore hslot]
    · rw [if_neg (hcmp.not.2 hkey)]
      refine hnext fun v hmatch => hkey ?_
      rw [hslot] at hmatch
      exact (Prod.mk.inj (Option.some.inj hmatch)).1.symm

/-- `dirlookup` looks a name up in the map, and changes nothing. -/
theorem IsDir.dirlookup (h : fs.IsDir dp) (name : Nat → UInt8) :
    fs.dirlookup dp name = .ok (fs.dir dp.toDinode (key name), dp, fs) := by
  rw [Fs.dirlookup, if_neg (by rw [h.type]; decide)]
  exact h.dirlookupLoop name (k := 0) (by rw [slots]; omega) (Nat.zero_le _) fun j hj => absurd hj (Nat.not_lt_zero j)

/-! ## Writing an entry -/

/-- The block for an entry at offset `off` is there, or can be allocated. -/
def HasBlock (fs : Fs) (dp : Inode) (off : Nat) : Prop :=
  off + direntSize ≤ maxFile * bsize ∧ ∃ a dp' fs', fs.bmap dp (off / bsize) = .ok (a, dp', fs') ∧ a ≠ 0

/-- The directory holds what it held, except for the entry at `k`. -/
structure Sets (fs : Fs) (dp : Inode) (k : Nat) (de : Nat → UInt8) (fs' : Fs) (dp' : Inode) : Prop where
  size : slots dp'.toDinode = max (slots dp.toDinode) (k + 1)
  here : fs'.slotAt dp'.toDinode k = Dirent.binding de
  others : ∀ j < slots dp.toDinode, j ≠ k → fs'.slotAt dp'.toDinode j = fs.slotAt dp.toDinode j

/-- Every entry is what it was. -/
structure Same (fs : Fs) (dp : Inode) (fs' : Fs) (dp' : Inode) : Prop where
  size : slots dp'.toDinode = slots dp.toDinode
  same : ∀ j < slots dp.toDinode, fs'.slotAt dp'.toDinode j = fs.slotAt dp.toDinode j

/-- The slots after `t` bytes were written at entry `k`. -/
theorem IsDir.slotAt_filled {t : Nat} {fs₁ : Fs} {dp₁ : Inode} {src : Src} (h : fs.IsDir dp)
    (hfilled : fs.Filled dp src (direntSize * k) t fs₁ dp₁) (hk : k ≤ slots dp.toDinode) (ht : t ≤ direntSize)
    (hlim : direntSize * k + t ≤ maxFile * bsize) {j : Nat} (hj : j < slots dp.toDinode) (hne : j ≠ k ∨ t = 0) :
    (fs₁.iupdate (dp₁.reach (direntSize * k + t))).slotAt (dp₁.reach (direntSize * k + t)).toDinode j =
      fs.slotAt dp.toDinode j := by
  have hend : direntSize * j + direntSize ≤ dp.size := by
    rw [h.size_eq, ← Nat.mul_succ]
    exact Nat.mul_le_mul_left _ hj
  have hoff : direntSize * k ≤ dp.size := by
    rw [h.size_eq]
    exact Nat.mul_le_mul_left _ hk
  refine Dirent.binding_congr fun i hi => ?_
  have hbyte := hfilled.byteAt_iupdate (k := 0) h.consistent hoff hlim (show direntSize * j + i < _ by omega)
  rw [if_neg] at hbyte
  · exact Option.some.inj hbyte
  · rw [direntSize] at *
    omega

/-- What a write of one entry comes to: it takes place as a whole, or there is no block for it. -/
structure Writes (fs : Fs) (dp : Inode) (k : Nat) (de : Nat → UInt8) (r : Int) (fs' : Fs) (dp' : Inode) : Prop where
  formatted : fs'.Formatted
  consistent : fs'.Consistent dp'
  type : dp'.type = dp.type
  whole : direntSize ∣ dp'.size
  result : r = direntSize ↔ fs.HasBlock dp (direntSize * k)
  sets : r = direntSize → fs.Sets dp k de fs' dp'
  same : r ≠ direntSize → fs.Same dp fs' dp'

theorem Works.reach_type {fs₁ : Fs} {dp₁ : Inode} (h : fs.Works dp fs₁ dp₁) (n : Nat) : (dp₁.reach n).type = dp.type := by
  obtain ⟨a, rfl⟩ := h.inode
  rw [Inode.reach]
  split <;> rfl

theorem IsDir.writei (h : fs.IsDir dp) (hk : k ≤ slots dp.toDinode) (de : Nat → UInt8) :
    ∃ r dp' fs', fs.writei dp (.kernel de) (UInt32.ofNat (direntSize * k)) (UInt32.ofNat direntSize) = .ok (r, dp', fs') ∧
      fs.Writes dp k de r fs' dp' := by
  have htoNat := h.toNat_offset hk
  have hlen : (UInt32.ofNat direntSize).toNat = direntSize := rfl
  have hsize := h.size_eq
  have hoff : direntSize * k ≤ dp.size := by
    rw [hsize]
    exact Nat.mul_le_mul_left _ hk
  by_cases hlim : direntSize * k + direntSize ≤ maxFile * bsize
  swap
  · have hrej : ¬ Accepts dp (UInt32.ofNat (direntSize * k)) (UInt32.ofNat direntSize) := by
      rintro ⟨-, hle⟩
      rw [htoNat, hlen] at hle
      exact hlim hle
    exact ⟨-1, dp, fs, writei_rejects fs _ hrej, h.formatted, h.consistent, rfl, h.whole,
      ⟨fun hr => (by cases hr), fun hblock => absurd hblock.1 hlim⟩, fun hr => (by cases hr), fun _ => ⟨rfl, fun _ _ => rfl⟩⟩
  have hacc : Accepts dp (UInt32.ofNat (direntSize * k)) (UInt32.ofNat direntSize) := by
    rw [Accepts, htoNat, hlen]
    exact ⟨hoff, hlim⟩
  have hbn : direntSize * k / bsize < maxFile := div_lt_maxFile (by
    rw [direntSize] at *
    omega)
  obtain ⟨a, dp₁, fs₁, hmap, hgrows, ha, hfull⟩ := h.formatted.bmap h.consistent.sound hbn
  have hgrown : fs.Filled dp (.kernel de) (direntSize * k) 0 fs₁ dp₁ :=
    (Filled.refl h.formatted h.consistent.sound).grow hgrows
  have hblock : fs.HasBlock dp (direntSize * k) ↔ a ≠ 0 := by
    refine ⟨?_, fun hne => ⟨hlim, a, dp₁, fs₁, hmap, hne⟩⟩
    rintro ⟨_, b, dp₂, fs₂, hmap', hb⟩
    rw [hmap] at hmap'
    cases hmap'
    exact hb
  by_cases hzero : a = 0
  · have hloop : writeiLoop (.kernel de) (UInt32.ofNat direntSize).toNat (UInt32.ofNat direntSize).toNat fs dp
        (UInt32.ofNat (direntSize * k)).toNat 0 = .ok (0, (UInt32.ofNat (direntSize * k)).toNat + 0, dp₁, fs₁) := by
      rw [htoNat]
      show writeiLoop (.kernel de) 16 (15 + 1) fs dp (direntSize * k) 0 = _
      rw [writeiLoop, if_pos (by decide), hmap]
      show (if a = 0 then _ else _) = _
      rw [if_pos hzero, Nat.add_zero]
    have hwrite := writei_of_loop hacc hloop
    rw [htoNat] at hwrite
    obtain ⟨hform, hcons⟩ := hgrown.consistent h.consistent le_rfl hoff (by omega)
    have hkeep : (dp₁.reach (direntSize * k + 0)).size = dp.size := by
      rw [hgrown.reach_size]
      exact Nat.max_eq_left hoff
    refine ⟨_, _, _, hwrite, hform, hcons, hgrown.reach_type _, hkeep ▸ h.whole,
      ⟨fun hr => (by cases hr), fun hb => absurd hzero (hblock.1 hb)⟩, fun hr => (by cases hr), fun _ => ⟨?_, fun j hj => ?_⟩⟩
    · rw [slots, hkeep, slots]
    · exact h.slotAt_filled hgrown hk (Nat.zero_le _) (by omega) hj (.inr rfl)
  · generalize hbytes : ((List.range direntSize).map fun i => de (0 + i)) = bytes
    have hcount : bytes.length = direntSize := by rw [← hbytes, List.length_map, List.length_range]
    have hmin : min (direntSize - 0) (bsize - direntSize * k % bsize) = direntSize := by
      rw [direntSize, bsize]
      omega
    have hroom : direntSize * k % bsize + direntSize ≤ bsize := by
      rw [direntSize, bsize]
      omega
    have hpos : 0 < direntSize := by decide
    have hwritten : fs.Filled dp (.kernel de) (direntSize * k) (0 + bytes.length)
        (fs₁.logWrite a (Bytes.splice (fs₁.block a) (direntSize * k % bsize) bytes)) dp₁ := by
      subst ha
      refine hgrown.write (by omega) hzero (by rw [hcount]; exact hroom) (fun i hi => ?_) rfl rfl
      subst hbytes
      simp [Src.byte]
    have hloop : writeiLoop (.kernel de) (UInt32.ofNat direntSize).toNat (UInt32.ofNat direntSize).toNat fs dp
        (UInt32.ofNat (direntSize * k)).toNat 0 = .ok (direntSize, (UInt32.ofNat (direntSize * k)).toNat + direntSize, dp₁,
          fs₁.logWrite a (Bytes.splice (fs₁.block a) (direntSize * k % bsize) bytes)) := by
      rw [htoNat]
      show writeiLoop (.kernel de) direntSize (14 + 1 + 1) fs dp (direntSize * k) 0 = _
      rw [writeiLoop, if_pos hpos, hmap]
      show (if a = 0 then _ else _) = _
      rw [if_neg hzero, hmin]
      show writeiLoop (.kernel de) direntSize (14 + 1) _ dp₁ (direntSize * k + direntSize) (0 + direntSize) = _
      rw [writeiLoop, if_neg (by decide), Nat.zero_add, hbytes]
    have hwrite := writei_of_loop hacc hloop
    rw [htoNat] at hwrite
    rw [hcount, Nat.zero_add] at hwritten
    generalize fs₁.logWrite a _ = fs₂ at hwritten hwrite
    obtain ⟨hform, hcons⟩ := hwritten.consistent h.consistent le_rfl hoff hlim
    have hgrow : (dp₁.reach (direntSize * k + direntSize)).size = direntSize * max (slots dp.toDinode) (k + 1) := by
      rw [hwritten.reach_size, hsize, ← Nat.mul_succ, Nat.mul_max_mul_left]
    refine ⟨_, _, _, hwrite, hform, hcons, hwritten.reach_type _, ⟨_, hgrow⟩, ⟨fun _ => hblock.2 hzero, fun _ => rfl⟩,
      fun _ => ⟨?_, ?_, fun j hj hne => ?_⟩, fun hr => absurd rfl hr⟩
    · rw [slots, hgrow, Nat.mul_div_cancel_left _ hpos]
    · refine Dirent.binding_congr fun i hi => ?_
      have hbyte := hwritten.byteAt_iupdate (k := 0) h.consistent hoff hlim (lt_max_of_lt_right (Nat.add_lt_add_left hi _))
      rw [if_pos ⟨Nat.le_add_right _ _, Nat.add_lt_add_left hi _⟩, Nat.add_sub_cancel_left] at hbyte
      exact Option.some.inj hbyte
    · exact h.slotAt_filled hwritten hk (Nat.le_refl _) hlim hj (.inl hne)

/-! ## dirlink -/

theorem IsDir.dirlinkLoop (h : fs.IsDir dp) (de : Nat → UInt8) {fuel : Nat} (hfuel : slots dp.toDinode ≤ k + fuel)
    (hk : k ≤ slots dp.toDinode) (hbefore : ∀ j < k, fs.slotAt dp.toDinode j ≠ none) :
    ∃ m de', dirlinkLoop fuel fs dp de (direntSize * k) = .ok (direntSize * m, de', dp, fs) ∧ m ≤ slots dp.toDinode ∧
      (m < slots dp.toDinode → fs.slotAt dp.toDinode m = none) ∧ ∀ j < m, fs.slotAt dp.toDinode j ≠ none := by
  induction fuel generalizing k de with
  | zero => exact ⟨k, de, rfl, hk, fun hlt => by omega, hbefore⟩
  | succ fuel ih =>
    rw [Fs.dirlinkLoop]
    by_cases hmore : k < slots dp.toDinode
    swap
    · rw [if_neg (fun hlt => hmore (h.lt_iff.1 hlt))]
      exact ⟨k, de, rfl, hk, fun hlt => absurd hlt hmore, hbefore⟩
    rw [if_pos (h.lt_iff.2 hmore)]
    obtain ⟨de', hread, hde⟩ := h.readi hmore de
    rw [hread]
    show ∃ m de'', (if (direntSize : Int) ≠ direntSize then stop "dirlink read" else if Dirent.inum de' = 0 then
      Except.ok (direntSize * k, de', dp, fs) else Fs.dirlinkLoop fuel fs dp de' (direntSize * k + direntSize)) = _ ∧ _
    rw [if_neg (by simp), Dirent.inum_congr hde]
    by_cases hfree : Dirent.inum (fs.direntAt dp.toDinode k) = 0
    · rw [if_pos hfree]
      exact ⟨k, de', rfl, hk, fun _ => if_pos hfree, hbefore⟩
    · rw [if_neg hfree, ← Nat.mul_succ]
      refine ih de' (by omega) hmore fun j hj => ?_
      rcases Nat.lt_succ_iff_lt_or_eq.1 hj with hj | rfl
      · exact hbefore j hj
      · rw [slotAt_of_inum hfree]
        exact Option.some_ne_none _

/-- There is a free entry, or a block for one more. -/
def HasRoom (fs : Fs) (dp : Inode) : Prop :=
  (∃ k < slots dp.toDinode, fs.slotAt dp.toDinode k = none) ∨ fs.HasBlock dp dp.size

theorem IsDir.hasBlock (h : fs.IsDir dp) (hk : k < slots dp.toDinode) : fs.HasBlock dp (direntSize * k) := by
  have hsize := h.consistent.size
  have hend : direntSize * k + direntSize ≤ dp.size := by
    rw [h.size_eq, ← Nat.mul_succ]
    exact Nat.mul_le_mul_left _ hk
  have hthere := h.consistent.full_at (h.lt_iff.2 hk)
  have hpos : 0 < direntSize := by decide
  exact ⟨by omega, _, _, _, bmap_of_names (div_lt_maxFile (by omega)) hthere, hthere⟩

/-- The first free entry has a block exactly if there is room. -/
theorem IsDir.hasRoom_iff (h : fs.IsDir dp) (hk : k ≤ slots dp.toDinode)
    (hfree : k < slots dp.toDinode → fs.slotAt dp.toDinode k = none)
    (hbefore : ∀ j < k, fs.slotAt dp.toDinode j ≠ none) : fs.HasRoom dp ↔ fs.HasBlock dp (direntSize * k) := by
  rcases Nat.lt_or_ge k (slots dp.toDinode) with hlt | hge
  · exact ⟨fun _ => h.hasBlock hlt, fun _ => .inl ⟨k, hlt, hfree hlt⟩⟩
  · obtain rfl : k = slots dp.toDinode := by omega
    rw [HasRoom, ← h.size_eq]
    exact or_iff_right fun ⟨j, hj, hnone⟩ => hbefore j hj hnone

theorem Same.isDir {de : Nat → UInt8} {r : Int} (hsame : fs.Same dp fs' dp') (h : fs.IsDir dp)
    (hw : fs.Writes dp k de r fs' dp') : fs'.IsDir dp' ∧ fs'.dir dp'.toDinode = fs.dir dp.toDinode := by
  have hu : Slots.Unique (fs'.slotAt dp'.toDinode) (slots dp'.toDinode) := by
    rw [hsame.size]
    exact h.unique.congr hsame.same
  refine ⟨⟨hw.formatted, hw.consistent, hw.type.trans h.type, hw.whole, hu⟩, funext fun a => ?_⟩
  refine congrArg (Option.map fun p => (p.1, direntSize * p.2)) (Slots.get_eq_of_iff hu h.unique fun v j => ?_)
  rw [hsame.size]
  exact and_congr_right fun hj => by rw [hsame.same j hj]

/-- Filling the first free entry. -/
theorem Sets.filled {de : Nat → UInt8} {a : List UInt8} (hsets : fs.Sets dp k de fs' dp') (hk : k ≤ slots dp.toDinode)
    (hfree : k < slots dp.toDinode → fs.slotAt dp.toDinode k = none) (hde : Dirent.binding de = some (a, inum)) :
    Slots.Filled (fs.slotAt dp.toDinode) (slots dp.toDinode) k a inum (fs'.slotAt dp'.toDinode) (slots dp'.toDinode) :=
  ⟨hsets.size, hk, hfree, hsets.here.trans hde, hsets.others⟩

/-- `dirlink` adds a binding exactly if the name is not there and there is room;
else it changes no binding. -/
structure Links (fs : Fs) (dp : Inode) (a : List UInt8) (inum : Nat) (r : Int) (fs' : Fs) (dp' : Inode) : Prop where
  isDir : fs'.IsDir dp'
  result : r = 0 ∨ r = -1
  zero : r = 0 ↔ fs.dir dp.toDinode a = none ∧ fs.HasRoom dp
  adds : r = 0 → ∃ off, fs'.dir dp'.toDinode = Function.update (fs.dir dp.toDinode) a (some (inum, off))
  keeps : r = -1 → fs'.dir dp'.toDinode = fs.dir dp.toDinode

theorem IsDir.dirlink (h : fs.IsDir dp) (name : Nat → UInt8) (hpos : 0 < inum) (hword : inum < 2 ^ 16) :
    ∃ r dp' fs', fs.dirlink dp name inum = .ok (r, dp', fs') ∧ fs.Links dp (key name) inum r fs' dp' := by
  rw [Fs.dirlink, h.dirlookup name]
  show ∃ r dp' fs', (if (fs.dir dp.toDinode (key name)).isSome then Except.ok (-1, dp, fs) else _) = _ ∧ _
  cases hdir : fs.dir dp.toDinode (key name) with
  | some p =>
    refine ⟨-1, dp, fs, if_pos rfl, h, .inr rfl, ⟨fun hr => (by cases hr), fun hnone => ?_⟩, fun hr => (by cases hr), fun _ => rfl⟩
    rw [hdir] at hnone
    cases hnone.1
  | none =>
    rw [if_neg (by simp)]
    obtain ⟨m, de, hloop, hm, hfree, hbefore⟩ := h.dirlinkLoop (fun _ => 0) (k := 0)
      (show slots dp.toDinode ≤ 0 + (dp.size / direntSize + 1) by rw [slots]; omega) (Nat.zero_le _)
      fun j hj => absurd hj (Nat.not_lt_zero j)
    obtain ⟨r, dp', fs', hwrite, hw⟩ := h.writei hm (Dirent.fill de name inum)
    have hroom := (h.hasRoom_iff hm hfree hbefore).trans hw.result.symm
    rw [Nat.mul_zero] at hloop
    rw [hloop]
    show ∃ r dp' fs', (fs.writei dp (.kernel (Dirent.fill de name inum)) (UInt32.ofNat (direntSize * m))
      (UInt32.ofNat direntSize) >>= fun x => if x.1 ≠ direntSize then .ok (-1, x.2.1, x.2.2) else .ok (0, x.2.1, x.2.2)) = _ ∧ _
    rw [hwrite]
    by_cases hr : r = direntSize
    · have hget : Slots.get (fs.slotAt dp.toDinode) (slots dp.toDinode) (key name) = none := Option.map_eq_none_iff.1 hdir
      have hfilled := (hw.sets hr).filled hm hfree (Dirent.binding_fill de name hword hpos)
      refine ⟨0, dp', fs', if_neg (fun hne => hne hr), ⟨hw.formatted, hw.consistent, hw.type.trans h.type, hw.whole,
        hfilled.unique h.unique hget⟩, .inl rfl, ⟨fun _ => ⟨hdir, hroom.2 hr⟩, fun _ => rfl⟩, fun _ => ⟨direntSize * m, ?_⟩,
        fun hbad => (by cases hbad)⟩
      rw [dir, hfilled.get h.unique hget, Function.comp_update]
      rfl
    · obtain ⟨hisdir, hsame⟩ := (hw.same hr).isDir h hw
      exact ⟨-1, dp', fs', if_pos hr, hisdir, .inr rfl, ⟨fun hbad => (by cases hbad), fun hyes => absurd (hroom.1 hyes.2) hr⟩,
        fun hbad => (by cases hbad), fun _ => hsame⟩

/-! ## unlink -/

/-- `unlink` removes a binding, or changes none. -/
structure Unlinks (fs : Fs) (dp : Inode) (a : List UInt8) (r : Int) (fs' : Fs) (dp' : Inode) : Prop where
  isDir : fs'.IsDir dp'
  result : r = 0 ∨ r = -1
  bound : r = 0 → fs.dir dp.toDinode a ≠ none
  removes : r = 0 → fs'.dir dp'.toDinode = Function.update (fs.dir dp.toDinode) a none
  keeps : r = -1 → fs'.dir dp'.toDinode = fs.dir dp.toDinode

theorem IsDir.unlinks_none (h : fs.IsDir dp) (a : List UInt8) : fs.Unlinks dp a (-1) fs dp :=
  ⟨h, .inr rfl, fun hr => (by cases hr), fun hr => (by cases hr), fun _ => rfl⟩

theorem IsDir.unlinkEntry (h : fs.IsDir dp) (held : Nat → Bool) (name : Nat → UInt8) :
    ∃ r dp' fs', fs.unlinkEntry held dp name = .ok (r, dp', fs') ∧ fs.Unlinks dp (key name) r fs' dp' := by
  rw [Fs.unlinkEntry]
  by_cases hdots : namecmp name (ofBytes [46]) = 0 ∨ namecmp name (ofBytes [46, 46]) = 0
  · exact ⟨-1, dp, fs, if_pos hdots, h.unlinks_none _⟩
  rw [if_neg hdots, h.dirlookup name]
  cases hdir : fs.dir dp.toDinode (key name) with
  | none => exact ⟨-1, dp, fs, rfl, h.unlinks_none _⟩
  | some p =>
    obtain ⟨⟨inum, k⟩, hget, rfl⟩ := Option.map_eq_some_iff.1 hdir
    obtain ⟨hk, hslot⟩ := Slots.slot_of_get hget
    by_cases hheld : held inum = true
    · exact ⟨-1, dp, fs, if_pos hheld, h.unlinks_none _⟩
    obtain ⟨r, dp', fs', hwrite, hw⟩ := h.writei hk.le fun _ => 0
    have hr : r = direntSize := hw.result.2 (h.hasBlock hk)
    have hsets := hw.sets hr
    have hsize : slots dp'.toDinode = slots dp.toDinode := by
      rw [hsets.size]
      exact Nat.max_eq_left hk
    have herase := Slots.erase h.unique hget (hsets.here.trans Dirent.binding_zero) hsets.others
    rw [← hsize] at herase
    refine ⟨0, dp', fs', ?_, ⟨hw.formatted, hw.consistent, hw.type.trans h.type, hw.whole, herase.1⟩, .inl rfl,
      fun _ hnone => (by rw [hdir] at hnone; cases hnone), fun _ => ?_, fun hbad => (by cases hbad)⟩
    · show (if held inum then _ else fs.writei dp (.kernel fun _ => 0) (UInt32.ofNat (direntSize * k))
        (UInt32.ofNat direntSize) >>= fun x => if x.1 ≠ direntSize then stop "unlink: writei" else .ok (0, x.2.1, x.2.2)) = _
      rw [if_neg hheld, hwrite]
      exact if_neg fun hne => hne hr
    · rw [dir, herase.2, hsize, Function.comp_update]
      rfl

/-! ## Runs -/

/-- The directories that arise from `.` and `..` by `dirlink` and `unlink`, while
other code changes what it likes as long as the bytes of the directory stay. -/
inductive Made : Fs → Inode → Prop where
  | start {fs : Fs} {dp : Inode} {i j : Nat} (formatted : fs.Formatted) (consistent : fs.Consistent dp) (type : dp.type = tDir)
    (whole : direntSize ∣ dp.size) (dot : fs.slotAt dp.toDinode 0 = some ([46], i))
    (dotdot : fs.slotAt dp.toDinode 1 = some ([46, 46], j))
    (rest : ∀ k, 2 ≤ k → k < slots dp.toDinode → fs.slotAt dp.toDinode k = none) : Made fs dp
  | link {fs fs' : Fs} {dp dp' : Inode} {name : Nat → UInt8} {inum : Nat} {r : Int} (made : Made fs dp) (pos : 0 < inum)
    (word : inum < 2 ^ 16) (run : fs.dirlink dp name inum = .ok (r, dp', fs')) : Made fs' dp'
  | unlink {fs fs' : Fs} {dp dp' : Inode} {name : Nat → UInt8} {held : Nat → Bool} {r : Int} (made : Made fs dp)
    (run : fs.unlinkEntry held dp name = .ok (r, dp', fs')) : Made fs' dp'
  | other {fs fs' : Fs} {dp dp' : Inode} (made : Made fs dp) (formatted : fs'.Formatted) (consistent : fs'.Consistent dp')
    (type : dp'.type = dp.type) (contents : fs'.contents dp'.toDinode = fs.contents dp.toDinode) : Made fs' dp'

/-- The entries depend on the contents only. -/
theorem slotAt_of_contents {d d' : Dinode} (h : fs'.contents d' = fs.contents d) (hwhole : direntSize ∣ d.size)
    (hk : k < slots d) : fs'.slotAt d' k = fs.slotAt d k := by
  have hsize : d'.size = d.size := by rw [← contents_length fs' d', h, contents_length]
  have hend : direntSize * k + direntSize ≤ d.size := by
    rw [← Nat.mul_div_cancel' hwhole, ← Nat.mul_succ]
    exact Nat.mul_le_mul_left _ hk
  refine Dirent.binding_congr fun i hi => ?_
  have hbyte := congrArg (·[direntSize * k + i]?) h
  have hin : direntSize * k + i < d.size := by omega
  simp only [contents_getElem?, hsize, if_pos hin] at hbyte
  exact Option.some.inj hbyte

/-- Two entries `.` and `..` do not clash. -/
theorem unique_of_dots {d : Dinode} {i j k l v w : Nat} {a : List UInt8} (hdot : fs.slotAt d 0 = some ([46], i))
    (hdotdot : fs.slotAt d 1 = some ([46, 46], j)) (hrest : ∀ k, 2 ≤ k → k < slots d → fs.slotAt d k = none)
    (hk : k < slots d) (hl : l < slots d) (hslot : fs.slotAt d k = some (a, v)) (hslot' : fs.slotAt d l = some (a, w)) :
    k = l := by
  have hlow : ∀ m v, m < slots d → fs.slotAt d m = some (a, v) → (m = 0 ∧ a = [46]) ∨ (m = 1 ∧ a = [46, 46]) := by
    intro m v hm hs
    match m with
    | 0 => exact .inl ⟨rfl, (Prod.mk.inj (Option.some.inj (hs.symm.trans hdot))).1⟩
    | 1 => exact .inr ⟨rfl, (Prod.mk.inj (Option.some.inj (hs.symm.trans hdotdot))).1⟩
    | m + 2 =>
      rw [hrest (m + 2) (by omega) hm] at hs
      cases hs
  rcases hlow k v hk hslot with ⟨rfl, ha⟩ | ⟨rfl, ha⟩
  · rcases hlow l w hl hslot' with ⟨rfl, -⟩ | ⟨rfl, ha'⟩
    · rfl
    · exact absurd (ha.symm.trans ha') (by decide)
  · rcases hlow l w hl hslot' with ⟨rfl, ha'⟩ | ⟨rfl, -⟩
    · exact absurd (ha.symm.trans ha') (by decide)
    · rfl

theorem Made.isDir (h : Made fs dp) : fs.IsDir dp := by
  induction h with
  | start hf hc htype hwhole hdot hdotdot hrest =>
    refine ⟨hf, hc, htype, hwhole, fun k l a v w hk hl hslot hslot' => ?_⟩
    exact unique_of_dots hdot hdotdot hrest hk hl hslot hslot'
  | link made pos word run ih =>
    obtain ⟨r, dp', fs', hrun, hlinks⟩ := ih.dirlink _ pos word
    rw [run] at hrun
    cases hrun
    exact hlinks.isDir
  | unlink made run ih =>
    obtain ⟨r, dp', fs', hrun, hunlinks⟩ := ih.unlinkEntry _ _
    rw [run] at hrun
    cases hrun
    exact hunlinks.isDir
  | @other fs fs' dp dp' made formatted consistent type contents ih =>
    have hsize : dp'.size = dp.size := by rw [← contents_length fs' dp'.toDinode, contents, contents_length]
    refine ⟨formatted, consistent, type.trans ih.type, hsize ▸ ih.whole, ?_⟩
    rw [slots, hsize]
    exact ih.unique.congr fun k hk => slotAt_of_contents contents ih.whole hk

/-- Directories are finite maps. -/
theorem directories_are_maps (h : Made fs dp) :
    Slots.Unique (fs.slotAt dp.toDinode) (slots dp.toDinode) ∧
      (∀ name, fs.dirlookup dp name = .ok (fs.dir dp.toDinode (key name), dp, fs)) ∧
      (∀ name inum, 0 < inum → inum < 2 ^ 16 →
        ∃ r dp' fs', fs.dirlink dp name inum = .ok (r, dp', fs') ∧ fs.Links dp (key name) inum r fs' dp') ∧
      (∀ held name, ∃ r dp' fs', fs.unlinkEntry held dp name = .ok (r, dp', fs') ∧ fs.Unlinks dp (key name) r fs' dp') ∧
      ∀ path, (0 : UInt8) ∉ path → ∀ name,
        pathKeys (path.length + 1) path name = (elements path).map (List.take dirsiz) :=
  ⟨h.isDir.unique, h.isDir.dirlookup, fun name _ hpos hword => h.isDir.dirlink name hpos hword, h.isDir.unlinkEntry,
    fun _ hpath name => pathKeys_eq name hpath (Nat.lt_succ_self _)⟩

/-- A directory with nothing but `.` and `..` on the small disk. -/
def smallTree : Fs := small.setBlock 46 fun i => if i = 0 ∨ i = 16 then 1 else if i = 2 ∨ i = 18 ∨ i = 19 then 46 else 0

def smallRoot : Inode := { smallFile with type := tDir, size := 32, inum := 1 }

theorem smallTree_patch : small.Patch 46 smallTree := patch_setBlock (by decide) _

theorem smallRoot_consistent : smallTree.Consistent smallRoot := by
  have hind : smallFile.addrs indirectIx ≠ 46 := by decide
  have hsound := smallTree_patch.sound hind smallFile_consistent.sound
  refine ⟨hsound.addrs rfl, by decide, fun bn hbn => ?_, by decide⟩
  obtain rfl : bn = 0 := by
    simp only [bsize, smallRoot] at hbn
    omega
  decide

theorem smallRoot_made : Made smallTree smallRoot :=
  .start (i := 1) (j := 1) (smallTree_patch.formatted small_formatted) smallRoot_consistent rfl (by decide) (by decide +kernel)
    (by decide +kernel) fun k hlo hhi => by
      have : slots smallRoot.toDinode = 2 := by decide
      omega

/-- A name of more than `DIRSIZ` bytes in that directory. -/
theorem directories_are_maps_small : Made smallTree smallRoot ∧ ∃ r dp' fs',
    smallTree.dirlink smallRoot (fun _ => 97) 5 = .ok (r, dp', fs') ∧
      smallTree.Links smallRoot (List.replicate 14 97) 5 r fs' dp' :=
  ⟨smallRoot_made, (directories_are_maps smallRoot_made).2.2.1 (fun _ => 97) 5 (by decide) (by decide)⟩

end Fs

end Xv6
