-- SUMMARY: Files as byte arrays: what readi delivers and what writei replaces, with copies that fail half way.
import Xv6Threads.Fs.Blocks

/-!
# Contents

The contents of a file are the bytes of its blocks up to its size. `writei`
replaces a range of them and `readi` delivers a range. When the source ends in
unmapped memory, `writei` stops with the block it was filling: what was copied
into the buffer by then stays there, although it is not counted.
-/

namespace Xv6

/-- `either_copyin` reads up to the first byte that cannot be read. -/
theorem Src.copyin_eq (src : Src) (o len : Nat) : src.copyin o len = Bytes.fetch src.byte o len := by
  cases src with
  | kernel bytes => exact (Bytes.fetch_of_some fun _ _ => rfl).symm
  | user m pt va =>
    refine (PageTable.copyin_eq m pt (va + o) len).trans (Bytes.fetch_congr fun i _ => ?_)
    rw [Src.byte, Nat.add_assoc]

/-- The inode as `writei` leaves it, when it stops at `off`. -/
def Inode.reach (ip : Inode) (off : Nat) : Inode := if ip.size < off then { ip with size := off } else ip

namespace Inode

variable {ip : Inode} {off : Nat}

theorem reach_size (ip : Inode) (off : Nat) : (ip.reach off).size = max ip.size off := by
  rw [reach]
  split
  · rename_i h
    exact (Nat.max_eq_right h.le).symm
  · rename_i h
    exact (Nat.max_eq_left (not_lt.1 h)).symm

theorem reach_inum (ip : Inode) (off : Nat) : (ip.reach off).inum = ip.inum := by
  rw [reach]
  split <;> rfl

theorem reach_addrs (ip : Inode) (off : Nat) : (ip.reach off).addrs = ip.addrs := by
  rw [reach]
  split <;> rfl

end Inode

namespace Fs

variable {fs fs' fs'' : Fs} {ip ip' ip'' : Inode} {src : Src} {off n t bn : Nat} {d : Dinode}

/-! ## The bytes of a file -/

/-- Byte `i` of a file. -/
def byteAt (fs : Fs) (d : Dinode) (i : Nat) : UInt8 := fs.block (fs.names d (place (i / bsize))) (i % bsize)

def contents (fs : Fs) (d : Dinode) : List UInt8 := (List.range d.size).map (fs.byteAt d)

/-- The blocks of the inode are sound, and every block below its size is there. -/
structure Consistent (fs : Fs) (ip : Inode) : Prop where
  sound : fs.Sound ip.toDinode
  size : ip.size ≤ maxFile * bsize
  full : ∀ bn, bn * bsize < ip.size → fs.names ip.toDinode (place bn) ≠ 0
  inum : ip.inum < fs.sb.ninodes

theorem div_lt_maxFile {i : Nat} (h : i < maxFile * bsize) : i / bsize < maxFile := Nat.div_lt_of_lt_mul (by
  rwa [Nat.mul_comm] at h)

theorem Consistent.full_at (h : fs.Consistent ip) {i : Nat} (hi : i < ip.size) :
    fs.names ip.toDinode (place (i / bsize)) ≠ 0 :=
  h.full _ (Nat.lt_of_le_of_lt (Nat.div_mul_le_self i bsize) hi)

/-- Growing changes no byte that was there. -/
theorem Grows.byteAt (h : fs.Grows ip fs' ip') {i : Nat} (hi : fs.names ip.toDinode (place (i / bsize)) ≠ 0) :
    fs'.byteAt ip'.toDinode i = fs.byteAt ip.toDinode i := by
  rw [Fs.byteAt, Fs.byteAt, h.keep _ hi, h.own _ hi (place_ne _)]

/-! ## Filling a file -/

/-- The `t` bytes from `off` on are those of the source; every other byte that
was there is as it was. -/
structure Filled (fs : Fs) (ip : Inode) (src : Src) (off t : Nat) (fs' : Fs) (ip' : Inode) : Prop extends
    Works fs ip fs' ip' where
  there : ∀ i, off ≤ i → i < off + t → fs'.names ip'.toDinode (place (i / bsize)) ≠ 0
  inside : ∀ i, off ≤ i → i < off + t → src.byte (i - off) = some (fs'.byteAt ip'.toDinode i)
  outside : ∀ i, i < maxFile * bsize → i < off ∨ off + t ≤ i → fs.names ip.toDinode (place (i / bsize)) ≠ 0 →
    fs'.byteAt ip'.toDinode i = fs.byteAt ip.toDinode i

theorem Filled.refl (hf : fs.Formatted) (hs : fs.Sound ip.toDinode) : fs.Filled ip src off 0 fs ip :=
  ⟨(Grows.refl hf hs).toWorks, fun i _ _ => by omega, fun i _ _ => by omega, fun _ _ _ _ => rfl⟩

theorem Filled.grow (h : fs.Filled ip src off t fs' ip') (hg : fs'.Grows ip' fs'' ip'') :
    fs.Filled ip src off t fs'' ip'' := by
  refine ⟨h.toWorks.trans hg.toWorks, fun i hlo hhi => ?_, fun i hlo hhi => ?_, fun i hi hout hne => ?_⟩
  · rw [hg.keep _ (h.there i hlo hhi)]
    exact h.there i hlo hhi
  · rw [hg.byteAt (h.there i hlo hhi)]
    exact h.inside i hlo hhi
  · have hne' : fs'.names ip'.toDinode (place (i / bsize)) ≠ 0 := by rwa [h.keep _ hne]
    rw [hg.byteAt hne', h.outside i hi hout hne]

/-- Bytes are copied into the block that comes next. -/
theorem Filled.write {bytes : List UInt8} (h : fs.Filled ip src off t fs' ip') (hlim : off + t < maxFile * bsize)
    (hne : fs'.names ip'.toDinode (place ((off + t) / bsize)) ≠ 0)
    (hlen : (off + t) % bsize + bytes.length ≤ bsize)
    (hsrc : ∀ i (hi : i < bytes.length), src.byte (t + i) = some bytes[i])
    (hsb : fs''.sb = fs'.sb) (hblock : fs''.block = Function.update fs'.block
      (fs'.names ip'.toDinode (place ((off + t) / bsize)))
      (Bytes.splice (fs'.block (fs'.names ip'.toDinode (place ((off + t) / bsize)))) ((off + t) % bsize) bytes)) :
    fs.Filled ip src off (t + bytes.length) fs'' ip' := by
  have hpatch : fs'.Patch (fs'.names ip'.toDinode (place ((off + t) / bsize))) fs'' :=
    ⟨hsb, h.sound.lower _ hne, fun b hb => by rw [hblock, Function.update_of_ne hb]⟩
  have hworks := hpatch.works h.formatted h.sound hne
  have hnames := hpatch.names (h.sound.ind_ne hne)
  have hdivmod := Nat.div_add_mod (off + t) bsize
  -- bytes of other blocks
  have hfar : ∀ i, i < maxFile * bsize → i / bsize ≠ (off + t) / bsize →
      fs'.names ip'.toDinode (place (i / bsize)) ≠ 0 → fs''.byteAt ip'.toDinode i = fs'.byteAt ip'.toDinode i := by
    intro i hi hdiv hthere
    rw [Fs.byteAt, Fs.byteAt, hnames, hpatch.other]
    intro heq
    have := h.sound.distinct _ _ heq hthere
    exact hdiv (place_inj (div_lt_maxFile hi) (div_lt_maxFile hlim) this)
  -- bytes of the same block
  have hnear : ∀ i, i / bsize = (off + t) / bsize → fs''.byteAt ip'.toDinode i =
      Bytes.splice (fs'.block (fs'.names ip'.toDinode (place ((off + t) / bsize)))) ((off + t) % bsize) bytes
        (i % bsize) := by
    intro i hdiv
    rw [Fs.byteAt, hnames, hblock, hdiv, Function.update_self]
  have hold : ∀ i, i < maxFile * bsize → i < off + t ∨ off + t + bytes.length ≤ i →
      fs'.names ip'.toDinode (place (i / bsize)) ≠ 0 → fs''.byteAt ip'.toDinode i = fs'.byteAt ip'.toDinode i := by
    intro i hi hout hthere
    by_cases hdiv : i / bsize = (off + t) / bsize
    · have hmod := Nat.div_add_mod i bsize
      rw [hdiv] at hmod
      rw [hnear i hdiv, Bytes.splice_outside (by omega), Fs.byteAt, hdiv]
    · exact hfar i hi hdiv hthere
  have hnew : ∀ i, off + t ≤ i → i < off + t + bytes.length →
      i / bsize = (off + t) / bsize ∧ i % bsize = (off + t) % bsize + (i - (off + t)) := by
    intro i hlo hhi
    have hbs : bsize = 1024 := rfl
    rw [hbs] at hlen ⊢
    omega
  refine ⟨h.toWorks.trans hworks, fun i hlo hhi => ?_, fun i hlo hhi => ?_, fun i hi hout hne' => ?_⟩
  · rw [hnames]
    by_cases hlt : i < off + t
    · exact h.there i hlo hlt
    · rw [(hnew i (by omega) (by omega)).1]
      exact hne
  · by_cases hlt : i < off + t
    · rw [hold i (by omega) (.inl hlt) (h.there i hlo hlt)]
      exact h.inside i hlo hlt
    · obtain ⟨hdiv, hmod⟩ := hnew i (by omega) (by omega)
      have hidx : i - (off + t) < bytes.length := by omega
      have hbyte := hsrc (i - (off + t)) hidx
      rw [show t + (i - (off + t)) = i - off by omega] at hbyte
      have hinside : Bytes.splice (fs'.block (fs'.names ip'.toDinode (place ((off + t) / bsize)))) ((off + t) % bsize)
          bytes (i % bsize) = bytes[i - (off + t)] := by
        rw [Bytes.splice_inside (by omega) (by omega)]
        congr 1
        omega
      rw [hbyte, hnear i hdiv, hinside]
  · have hthere : fs'.names ip'.toDinode (place (i / bsize)) ≠ 0 := by rwa [h.keep _ hne']
    rw [hold i hi (by omega) hthere, h.outside i hi (by omega) hne']

/-- How the loop of `writei` ends after `t` bytes: all are written; or there is no
block for the next one; or the source cannot be read, and `k` bytes of the next
block have been copied by then. -/
inductive Ends (src : Src) (off n : Nat) (fs' : Fs) (ip' : Inode) (t k : Nat) : Prop where
  | done (all : t = n) (none : k = 0)
  | full (more : t < n) (none : k = 0) (missing : fs'.names ip'.toDinode (place ((off + t) / bsize)) = 0)
    (used : ∀ c < fs'.sb.size, fs'.used c = true)
  | torn (more : t < n) (gap : (src.copyin 0 n).2 = false) (read : (src.copyin 0 n).1.length = t + k)
    (short : (off + t) % bsize + k < bsize) (aligned : t = 0 ∨ (off + t) % bsize = 0)

/-- A read that fails after `t` bytes fails in any longer read as well. -/
theorem copyin_gap {m : Nat} (hread : (src.copyin 0 t).2 = true) (hgap : (src.copyin t m).2 = false) (hle : t + m ≤ n) :
    (src.copyin 0 n).2 = false ∧ (src.copyin 0 n).1.length = t + (src.copyin t m).1.length := by
  simp only [Src.copyin_eq] at *
  have hsplit : n = t + (m + (n - t - m)) := by omega
  have hlen := Bytes.fetch_true hread
  have htail : Bytes.fetch src.byte t (m + (n - t - m)) = Bytes.fetch src.byte t m := by
    rw [Bytes.fetch_append, if_neg (by simp [hgap])]
  rw [hsplit, Bytes.fetch_append, if_pos hread, Nat.zero_add, htail]
  exact ⟨hgap, by rw [List.length_append, hlen]⟩

theorem copyin_more {m : Nat} (hread : (src.copyin 0 t).2 = true) (hmore : (src.copyin t m).2 = true) :
    (src.copyin 0 (t + m)).2 = true := by
  simp only [Src.copyin_eq] at *
  rw [Bytes.fetch_append, if_pos hread, Nat.zero_add]
  exact hmore

theorem writeiLoop_ends {fuel : Nat} (hlim : off + n ≤ maxFile * bsize) (hfuel : n - t ≤ fuel)
    (h : fs.Filled ip src off t fs' ip') (ht : t ≤ n) (hread : (src.copyin 0 t).2 = true)
    (halign : t = 0 ∨ t = n ∨ (off + t) % bsize = 0) :
    ∃ t' k fs'' ip'', writeiLoop src n fuel fs' ip' (off + t) t = .ok (t', off + t', ip'', fs'') ∧
      fs.Filled ip src off (t' + k) fs'' ip'' ∧ (src.copyin 0 t').2 = true ∧ t' ≤ n ∧ Ends src off n fs'' ip'' t' k := by
  induction fuel generalizing fs' ip' t with
  | zero => exact ⟨t, 0, fs', ip', rfl, h, hread, ht, .done (by omega) rfl⟩
  | succ fuel ih =>
    rw [writeiLoop]
    by_cases hmore : t < n
    swap
    · rw [if_neg hmore]
      exact ⟨t, 0, fs', ip', rfl, h, hread, ht, .done (by omega) rfl⟩
    rw [if_pos hmore]
    have hbn : (off + t) / bsize < maxFile := div_lt_maxFile (by omega)
    obtain ⟨a, ip₁, fs₁, hmap, hgrows, ha, hfull⟩ := h.formatted.bmap h.sound hbn
    rw [hmap]
    show ∃ t' k fs'' ip'', (if a = 0 then _ else _) = _ ∧ _
    have hgrown := h.grow hgrows
    by_cases hzero : a = 0
    · rw [if_pos hzero]
      exact ⟨t, 0, fs₁, ip₁, rfl, hgrown, hread, ht, .full hmore rfl (ha.trans hzero) (hfull hzero)⟩
    rw [if_neg hzero]
    subst ha
    have hbs : 0 < bsize := by decide
    have hmod := Nat.mod_lt (off + t) hbs
    have hsrc : ∀ i (hi : i < (src.copyin t (min (n - t) (bsize - (off + t) % bsize))).1.length),
        src.byte (t + i) = some (src.copyin t (min (n - t) (bsize - (off + t) % bsize))).1[i] := by
      simp only [Src.copyin_eq]
      exact fun i hi => Bytes.fetch_getElem hi
    have hshort : (src.copyin t (min (n - t) (bsize - (off + t) % bsize))).1.length ≤
        min (n - t) (bsize - (off + t) % bsize) := by
      rw [Src.copyin_eq]
      exact Bytes.fetch_length_le _ _ _
    rcases hcopy : src.copyin t (min (n - t) (bsize - (off + t) % bsize)) with ⟨bytes, ok⟩
    rw [hcopy] at hsrc hshort
    dsimp only at hsrc hshort ⊢
    cases ok with
    | false =>
      have hgap : (src.copyin t (min (n - t) (bsize - (off + t) % bsize))).2 = false := by rw [hcopy]
      obtain ⟨hgap', hlen⟩ := copyin_gap (n := n) hread hgap (by omega)
      have hless : bytes.length < min (n - t) (bsize - (off + t) % bsize) := by
        have := (Bytes.fetch_false (by rw [← Src.copyin_eq]; exact hgap)).1
        rwa [← Src.copyin_eq, hcopy] at this
      rw [hcopy] at hlen
      refine ⟨t, bytes.length, _, ip₁, rfl, hgrown.write (by omega) hzero (by omega) hsrc rfl rfl, hread, ht,
        .torn hmore hgap' hlen (by omega) (by omega)⟩
    | true =>
      have hall : bytes.length = min (n - t) (bsize - (off + t) % bsize) := by
        have := Bytes.fetch_true (show (Bytes.fetch src.byte t (min (n - t) (bsize - (off + t) % bsize))).2 = true by
          rw [← Src.copyin_eq, hcopy])
        rwa [← Src.copyin_eq, hcopy] at this
      have hread' : (src.copyin 0 (t + min (n - t) (bsize - (off + t) % bsize))).2 = true :=
        copyin_more hread (by rw [hcopy])
      have hfilled : fs.Filled ip src off (t + bytes.length) (fs₁.logWrite _ _) ip₁ :=
        hgrown.write (by omega) hzero (by omega) hsrc rfl rfl
      rw [hall] at hfilled
      have halign' : t + min (n - t) (bsize - (off + t) % bsize) = n ∨
          (off + (t + min (n - t) (bsize - (off + t) % bsize))) % bsize = 0 := by
        by_cases hlast : n - t ≤ bsize - (off + t) % bsize
        · exact .inl (by omega)
        · refine .inr ?_
          rw [Nat.min_eq_right (by omega), ← Nat.add_assoc, Nat.add_mod]
          rw [show bsize = 1024 from rfl] at *
          omega
      exact Nat.add_assoc off t _ ▸ ih (by omega) hfilled (by omega) hread' (.inr halign')

/-! ## writei -/

/-- The range that `writei` accepts. -/
def Accepts (ip : Inode) (off n : UInt32) : Prop :=
  off.toNat ≤ ip.size ∧ off.toNat + n.toNat ≤ maxFile * bsize

instance (ip : Inode) (off n : UInt32) : Decidable (Accepts ip off n) := inferInstanceAs (Decidable (_ ∧ _))

theorem add_lt_iff (off n : UInt32) : off + n < off ↔ 2 ^ 32 ≤ off.toNat + n.toNat := by
  have hoff := off.toNat_lt
  have hn := n.toNat_lt
  rw [UInt32.lt_iff_toNat_lt, UInt32.toNat_add]
  omega

theorem toNat_add_of_lt {off n : UInt32} (h : off.toNat + n.toNat < 2 ^ 32) : (off + n).toNat = off.toNat + n.toNat := by
  rw [UInt32.toNat_add, Nat.mod_eq_of_lt h]

variable {o m : UInt32}

theorem writei_rejects (fs : Fs) (src : Src) (h : ¬ Accepts ip o m) : fs.writei ip src o m = .ok (-1, ip, fs) := by
  have hmax : maxFile * bsize < 2 ^ 32 := by decide
  rw [writei]
  by_cases hfirst : ip.size < o.toNat ∨ o + m < o
  · rw [if_pos hfirst]
  rw [if_neg hfirst, if_pos]
  rw [not_or, add_lt_iff] at hfirst
  rw [toNat_add_of_lt (by omega)]
  rw [Accepts] at h
  omega

theorem writei_of_loop {src : Src} {t : Nat} {fs₁ : Fs} {ip₁ : Inode} (h : Accepts ip o m)
    (hloop : writeiLoop src m.toNat m.toNat fs ip o.toNat 0 = .ok (t, o.toNat + t, ip₁, fs₁)) :
    fs.writei ip src o m = .ok (t, ip₁.reach (o.toNat + t), fs₁.iupdate (ip₁.reach (o.toNat + t))) := by
  have hmax : maxFile * bsize < 2 ^ 32 := by decide
  obtain ⟨hle, hlim⟩ := h
  rw [writei, if_neg, if_neg]
  · exact Except.bind_ok_iff.2 ⟨_, hloop, rfl⟩
  · rw [toNat_add_of_lt (by omega)]
    omega
  · rw [not_or, add_lt_iff]
    omega

theorem writei_accepts (src : Src) (hf : fs.Formatted) (hs : fs.Sound ip.toDinode) (h : Accepts ip o m) :
    ∃ (t k : Nat) (fs₁ : Fs) (ip₁ : Inode),
      fs.writei ip src o m = .ok (t, ip₁.reach (o.toNat + t), fs₁.iupdate (ip₁.reach (o.toNat + t))) ∧
      fs.Filled ip src o.toNat (t + k) fs₁ ip₁ ∧ (src.copyin 0 t).2 = true ∧ t ≤ m.toNat ∧
      Ends src o.toNat m.toNat fs₁ ip₁ t k := by
  have hstart : (src.copyin 0 0).2 = true := by
    rw [Src.copyin_eq]
    rfl
  obtain ⟨t, k, fs₁, ip₁, hloop, hfilled, hread, ht, hends⟩ := writeiLoop_ends h.2
    (show m.toNat - 0 ≤ m.toNat by omega) (Filled.refl hf hs) (Nat.zero_le _) hstart (.inl rfl)
  exact ⟨t, k, fs₁, ip₁, writei_of_loop h hloop, hfilled, hread, ht, hends⟩

/-- What a write of `t` bytes to a byte array does, and that it leaves every
other file alone. -/
structure Replaced (fs : Fs) (ip : Inode) (src : Src) (off t : Nat) (fs' : Fs) (ip' : Inode) : Prop where
  size : ip'.size = max ip.size (off + t)
  contents : ∃ bytes, src.copyin 0 t = (bytes, true) ∧
    fs'.contents ip'.toDinode = Bytes.overwrite (fs.contents ip.toDinode) off bytes
  others : ∀ jp : Inode, jp.inum ≠ ip.inum → fs.Consistent jp → fs.Apart ip.toDinode jp.toDinode →
    fs'.contents jp.toDinode = fs.contents jp.toDinode ∧ fs'.dinode jp.inum = fs.dinode jp.inum

/-- `writei` treats the file as an array of bytes. -/
def WritesArray (fs : Fs) (ip : Inode) (src : Src) (off n : UInt32) : Prop :=
  ∃ r ip' fs', fs.writei ip src off n = .ok (r, ip', fs') ∧ (r = -1 → ip' = ip ∧ fs' = fs) ∧
    (0 ≤ r → fs.Replaced ip src off.toNat r.toNat fs' ip')

/-- The bytes that can be read before the first gap of the source. -/
def readable (src : Src) (n : UInt32) : Nat := (src.copyin 0 n.toNat).1.length

/-- The source has a gap in the range; and in the block in which the gap comes,
a byte before the gap and below the old size differs from what the file has. -/
def Torn (fs : Fs) (ip : Inode) (src : Src) (off n : UInt32) : Prop :=
  Accepts ip off n ∧ (src.copyin 0 n.toNat).2 = false ∧
    ∃ i, off.toNat ≤ i ∧ (off.toNat + readable src n) / bsize * bsize ≤ i ∧ i < off.toNat + readable src n ∧
      i < ip.size ∧ src.byte (i - off.toNat) ≠ some (fs.byteAt ip.toDinode i)

/-- The contents after the write, with what was copied but not counted. -/
theorem Filled.byteAt_reach {k : Nat} (hc : fs.Consistent ip) (h : fs.Filled ip src off (t + k) fs' ip')
    (hnotes : fs'.Notes ip.inum d fs'') (hoff : off ≤ ip.size) (hlim : off + t ≤ maxFile * bsize) {i : Nat}
    (hi : i < max ip.size (off + t)) :
    some (fs''.byteAt ip'.toDinode i) =
      if off ≤ i ∧ i < off + (t + k) then src.byte (i - off) else some (fs.byteAt ip.toDinode i) := by
  have hthere : fs'.names ip'.toDinode (place (i / bsize)) ≠ 0 := by
    by_cases hin : off ≤ i ∧ i < off + (t + k)
    · exact h.there i hin.1 hin.2
    · have hfull := hc.full_at (show i < ip.size by omega)
      rwa [h.keep _ hfull]
  have hsame : fs''.byteAt ip'.toDinode i = fs'.byteAt ip'.toDinode i := by
    rw [Fs.byteAt, Fs.byteAt, hnotes.names h.sound, hnotes.data _ (h.sound.lower _ hthere)]
  rw [hsame]
  split
  · rename_i hin
    exact (h.inside i hin.1 hin.2).symm
  · rename_i hout
    have hsize := hc.size
    rw [h.outside i (by omega) (by omega) (hc.full_at (by omega))]

theorem contents_length (fs : Fs) (d : Dinode) : (fs.contents d).length = d.size := by simp [contents]

theorem contents_getElem? (fs : Fs) (d : Dinode) (i : Nat) :
    (fs.contents d)[i]? = if i < d.size then some (fs.byteAt d i) else none := by
  rw [contents, List.getElem?_map]
  split
  · rename_i hi
    rw [List.getElem?_range hi]
    rfl
  · rename_i hi
    rw [List.getElem?_eq_none (by simpa using hi)]
    rfl

/-- Which blocks an inode names depends on `addrs` only. -/
theorem names_addrs {d' : Dinode} (h : d'.addrs = d.addrs) (p : Place) : fs.names d' p = fs.names d p := by
  cases p <;> simp only [names, h]

theorem byteAt_addrs {d' : Dinode} (h : d'.addrs = d.addrs) (i : Nat) : fs.byteAt d' i = fs.byteAt d i := by
  rw [byteAt, byteAt, names_addrs h]

theorem Sound.addrs {d' : Dinode} (hs : fs.Sound d) (h : d'.addrs = d.addrs) : fs.Sound d' := by
  refine ⟨fun p hp => ?_, fun p hp => ?_, fun p hp => ?_, fun p q heq hp => ?_⟩
  · rw [names_addrs h] at hp ⊢
    exact hs.lower p hp
  · rw [names_addrs h] at hp ⊢
    exact hs.upper p hp
  · rw [names_addrs h] at hp ⊢
    exact hs.used p hp
  · rw [names_addrs h] at hp
    rw [names_addrs h, names_addrs h] at heq
    exact hs.distinct p q heq hp

/-- The inode is written back with its new size. -/
theorem Filled.notes (hc : fs.Consistent ip) (h : fs.Filled ip src off t fs' ip') (n : Nat) :
    fs'.Notes ip.inum (ip'.reach n).toDinode (fs'.iupdate (ip'.reach n)) := by
  obtain ⟨a, hip'⟩ := h.inode
  have hinum : (ip'.reach n).inum = ip.inum := by rw [Inode.reach_inum, hip']
  have hin : ip.inum < fs'.sb.ninodes := h.sb ▸ hc.inum
  rw [iupdate, hinum]
  exact h.formatted.putDinode hin _

theorem Filled.reach_size (h : fs.Filled ip src off t fs' ip') (n : Nat) : (ip'.reach n).size = max ip.size n := by
  obtain ⟨a, hip'⟩ := h.inode
  rw [Inode.reach_size, hip']

/-- The bytes of the file after that. -/
theorem Filled.byteAt_iupdate {k : Nat} (hc : fs.Consistent ip) (h : fs.Filled ip src off (t + k) fs' ip')
    (hoff : off ≤ ip.size) (hlim : off + t ≤ maxFile * bsize) {i : Nat} (hi : i < max ip.size (off + t)) :
    some ((fs'.iupdate (ip'.reach (off + t))).byteAt (ip'.reach (off + t)).toDinode i) =
      if off ≤ i ∧ i < off + (t + k) then src.byte (i - off) else some (fs.byteAt ip.toDinode i) := by
  rw [byteAt_addrs (Inode.reach_addrs _ _)]
  exact h.byteAt_reach hc (h.notes hc _) hoff hlim hi

/-- The inode stays consistent when it is written back with its new size. -/
theorem Filled.consistent {n : Nat} (hc : fs.Consistent ip) (h : fs.Filled ip src off t fs' ip') (hle : n ≤ t)
    (hoff : off ≤ ip.size) (hlim : off + n ≤ maxFile * bsize) : (fs'.iupdate (ip'.reach (off + n))).Formatted ∧
      (fs'.iupdate (ip'.reach (off + n))).Consistent (ip'.reach (off + n)) := by
  have hsize := h.reach_size (off + n)
  have haddrs : (ip'.reach (off + n)).addrs = ip'.addrs := Inode.reach_addrs _ _
  have hnotes := h.notes hc (off + n)
  have hbound := hc.size
  refine ⟨hnotes.formatted h.formatted, (hnotes.sound h.sound).addrs haddrs, by omega, fun bn hbn => ?_, ?_⟩
  · rw [names_addrs haddrs, hnotes.names h.sound]
    rw [hsize] at hbn
    by_cases hold : bn * bsize < ip.size
    · rw [h.keep _ (hc.full bn hold)]
      exact hc.full bn hold
    · have := h.there (bn * bsize) (by omega) (by omega)
      rwa [Nat.mul_div_cancel _ (show 0 < bsize by decide)] at this
  · obtain ⟨a, hip'⟩ := h.inode
    rw [hnotes.sb, h.sb, Inode.reach_inum, hip']
    exact hc.inum

/-- The contents after a write, byte by byte. -/
theorem contents_eq_overwrite_iff (fs fs' : Fs) {bytes : List UInt8} {d' : Dinode} (hoff : off ≤ d.size) (hlen : bytes.length = t)
    (hsize : d'.size = max d.size (off + t)) :
    fs'.contents d' = Bytes.overwrite (fs.contents d) off bytes ↔
      ∀ i < d'.size, some (fs'.byteAt d' i) = if off ≤ i ∧ i < off + t then bytes[i - off]? else some (fs.byteAt d i) := by
  have hoff' : off ≤ (fs.contents d).length := by rwa [contents_length]
  subst hlen
  constructor
  · intro h i hi
    have hget := congrArg (·[i]?) h
    simp only [contents_getElem?, Bytes.overwrite_getElem? hoff', if_pos hi] at hget
    rw [hget]
    split
    · rfl
    · rw [if_pos (by omega)]
  · intro h
    refine List.ext_getElem? fun i => ?_
    rw [contents_getElem?, Bytes.overwrite_getElem? hoff', contents_getElem?]
    by_cases hi : i < d'.size
    · rw [if_pos hi, h i hi]
      split
      · rfl
      · rw [if_pos (by omega)]
    · rw [if_neg hi]
      split
      · rename_i hin
        omega
      · rw [if_neg (by omega)]

/-- A shorter read that succeeds is a part of a longer one. -/
theorem copyin_le {k : Nat} (hread : (src.copyin 0 k).2 = true) (hle : k ≤ n) : k ≤ (src.copyin 0 n).1.length := by
  simp only [Src.copyin_eq] at *
  have hlen := Bytes.fetch_true hread
  rw [show n = k + (n - k) by omega, Bytes.fetch_append, if_pos hread, List.length_append, hlen]
  omega

/-- Other files: their blocks are not touched, and neither is their inode. -/
theorem Works.contents (h : fs.Works ip fs' ip') (hnotes : fs'.Notes ip.inum d fs'') {jp : Inode}
    (hne : jp.inum ≠ ip.inum) (hj : fs.Consistent jp) (ha : fs.Apart ip.toDinode jp.toDinode) :
    fs''.contents jp.toDinode = fs.contents jp.toDinode ∧ fs''.dinode jp.inum = fs.dinode jp.inum := by
  have hsp := h.spares hj.sound ha
  constructor
  · refine List.map_congr_left fun i hi => ?_
    have hthere := hj.full_at (List.mem_range.1 hi)
    rw [Fs.byteAt, Fs.byteAt, hnotes.names hsp.sound, hsp.names]
    have hlow := hj.sound.lower _ hthere
    rw [hnotes.data _ (h.sb ▸ hlow), hsp.data _ hthere]
  · rw [hnotes.others _ (h.sb ▸ hj.inum) hne, h.inodes _ hj.inum]

/-- Where the copy stopped half way, if the source has a gap in a block of the
old file. -/
theorem Ends.torn_of (hc : fs.Consistent ip) (hf : fs.Filled ip src o.toNat (t + n) fs' ip')
    (hread : (src.copyin 0 t).2 = true) (hle : t ≤ m.toNat) (h : Ends src o.toNat m.toNat fs' ip' t n)
    (hgap : (src.copyin 0 m.toNat).2 = false) {i : Nat} (hlo : o.toNat ≤ i)
    (hblock : (o.toNat + readable src m) / bsize * bsize ≤ i) (hhi : i < o.toNat + readable src m) (hi : i < ip.size) :
    o.toNat + t ≤ i ∧ i < o.toNat + (t + n) := by
  cases h with
  | done all none =>
    rw [← all, hread] at hgap
    cases hgap
  | full more none missing used =>
    -- the block is below the old size, so it is there
    have hprefix : t ≤ readable src m := copyin_le hread hle
    have hbelow : (o.toNat + t) / bsize * bsize ≤ i :=
      (Nat.mul_le_mul_right _ (Nat.div_le_div_right (by omega))).trans hblock
    have hthere := hc.full _ (Nat.lt_of_le_of_lt hbelow hi)
    rw [hf.keep _ hthere] at missing
    exact absurd missing hthere
  | torn more gap read short aligned =>
    have hread' : readable src m = t + n := read
    rw [hread'] at hblock hhi
    refine ⟨?_, hhi⟩
    rw [show bsize = 1024 from rfl] at *
    omega

/-- `writei` treats the file as an array unless the copy ends in the middle of a
block of the old file and has changed something there. -/
theorem writesArray_iff (hf : fs.Formatted) (hc : fs.Consistent ip) :
    fs.WritesArray ip src o m ↔ ¬ fs.Torn ip src o m := by
  by_cases hacc : Accepts ip o m
  swap
  · have hrun := writei_rejects fs src hacc
    refine ⟨fun _ h => hacc h.1, fun _ => ⟨-1, ip, fs, hrun, fun _ => ⟨rfl, rfl⟩, fun h => ?_⟩⟩
    omega
  obtain ⟨t, k, fs₁, ip₁, hrun, hfilled, hread, ht, hends⟩ := writei_accepts src hf hc.sound hacc
  obtain ⟨hoff, hlim⟩ := hacc
  have hsize := hfilled.reach_size (o.toNat + t)
  have hnotes := hfilled.notes hc (o.toNat + t)
  have hbyte : ∀ i < max ip.size (o.toNat + t),
      some ((fs₁.iupdate (ip₁.reach (o.toNat + t))).byteAt (ip₁.reach (o.toNat + t)).toDinode i) =
        if o.toNat ≤ i ∧ i < o.toNat + (t + k) then src.byte (i - o.toNat) else some (fs.byteAt ip.toDinode i) :=
    fun i hi => hfilled.byteAt_iupdate hc hoff (by omega) hi
  have hbytes : (src.copyin 0 t).1.length = t := by
    rw [Src.copyin_eq] at hread ⊢
    exact Bytes.fetch_true hread
  have hcontents := contents_eq_overwrite_iff fs (fs₁.iupdate (ip₁.reach (o.toNat + t))) hoff hbytes hsize
  constructor
  · rintro ⟨r, ip', fs', hrun', -, hdone⟩ ⟨-, hgap, i, hlo, hblock, hhi, hi, hdiff⟩
    rw [hrun] at hrun'
    cases hrun'
    obtain ⟨bytes, hcopy, heq⟩ := (hdone (Int.natCast_nonneg _)).contents
    rw [Int.toNat_natCast] at hcopy
    obtain rfl : (src.copyin 0 t).1 = bytes := by rw [hcopy]
    obtain ⟨hlow, hhigh⟩ := Ends.torn_of hc hfilled hread ht hends hgap hlo hblock hhi hi
    have hnew := hcontents.1 heq i (by rw [hsize]; omega)
    rw [hbyte i (by omega), if_pos (by omega), if_neg (by omega)] at hnew
    exact hdiff hnew
  · intro hclean
    refine ⟨t, _, _, hrun, fun h => by omega, fun _ => ?_⟩
    rw [Int.toNat_natCast]
    refine ⟨hsize, ⟨(src.copyin 0 t).1, by rw [← hread], hcontents.2 fun i hi => ?_⟩,
      fun jp hne hj ha => hfilled.toWorks.contents hnotes hne hj ha⟩
    rw [hsize] at hi
    rw [hbyte i hi]
    by_cases hin : o.toNat ≤ i ∧ i < o.toNat + t
    · rw [if_pos (by omega), if_pos hin]
      have hidx : i - o.toNat < (src.copyin 0 t).1.length := by omega
      rw [List.getElem?_eq_getElem hidx]
      simp only [Src.copyin_eq] at hidx ⊢
      have := Bytes.fetch_getElem hidx
      rwa [Nat.zero_add] at this
    · rw [if_neg hin]
      split
      · -- bytes that were copied but not counted
        rename_i hcopied
        by_contra hdiff
        refine hclean ⟨⟨hoff, hlim⟩, ?_⟩
        cases hends with
        | done all none => omega
        | full more none missing used => omega
        | torn more gap read short aligned =>
          have hread' : readable src m = t + k := read
          refine ⟨gap, i, by omega, ?_, by omega, by omega, hdiff⟩
          rw [hread']
          rw [show bsize = 1024 from rfl] at *
          omega
      · rfl

end Fs

/-! ## readi -/

namespace Dst

/-- What `either_copyout` is for: the bytes go to the destination from offset `o`
on, or one of them has no place there. -/
def write : Dst → Nat → List UInt8 → Option Dst
  | kernel buf, o, bytes => some (kernel (Bytes.splice buf o bytes))
  | user m pt va, o, bytes => (pt.writeBytes m (va + o) bytes).map fun m => user m pt va

variable {dst dst' : Dst} {off : Nat} {bytes : List UInt8}

theorem copyout_of_write (h : dst.write off bytes = some dst') : dst.copyout off bytes = (true, dst') := by
  cases dst with
  | kernel buf => exact congrArg (Prod.mk true) (Option.some.inj h)
  | user m pt va =>
    obtain ⟨m', hm', rfl⟩ := Option.map_eq_some_iff.1 h
    rw [copyout, PageTable.copyout_eq_true_iff.2 hm']

theorem write_append (dst : Dst) (off : Nat) (a b : List UInt8) :
    dst.write off (a ++ b) = (dst.write off a).bind fun d => d.write (off + a.length) b := by
  cases dst with
  | kernel buf => exact congrArg (fun f => some (kernel f)) (Bytes.splice_append buf off a b)
  | user m pt va =>
    simp only [write]
    rw [PageTable.writeBytes_append]
    cases pt.writeBytes m (va + off) a with
    | none => rfl
    | some m' => simp [Nat.add_assoc]

theorem write_nil (dst : Dst) (off : Nat) : dst.write off [] = some dst := by
  cases dst with
  | kernel buf => rw [write, Bytes.splice_nil]
  | user m pt va => rfl

end Dst

namespace Fs

variable {fs : Fs} {ip : Inode} {off n t : Nat} {o m : UInt32} {dst dst' : Dst}

/-- The loop of `readi` delivers byte by byte what the file holds. -/
theorem readiLoop_eq (off : Nat) {fuel : Nat} (hc : fs.Consistent ip) (hle : off + n ≤ ip.size) (ht : t ≤ n) (hfuel : n - t ≤ fuel)
    (h : dst.write t ((List.range (n - t)).map fun i => fs.byteAt ip.toDinode (off + t + i)) = some dst') :
    readiLoop n fuel fs ip dst (off + t) t = .ok (n, ip, fs, dst') := by
  induction fuel generalizing t dst with
  | zero =>
    obtain rfl : t = n := by omega
    rw [Nat.sub_self, List.range_zero, List.map_nil, Dst.write_nil] at h
    cases h
    rfl
  | succ fuel ih =>
    rw [readiLoop]
    by_cases hmore : t < n
    swap
    · obtain rfl : t = n := by omega
      rw [Nat.sub_self, List.range_zero, List.map_nil, Dst.write_nil] at h
      cases h
      rw [if_neg hmore]
    have hsize := hc.size
    have hbn : (off + t) / bsize < maxFile := div_lt_maxFile (by omega)
    have hthere := hc.full_at (show off + t < ip.size by omega)
    have hmod := Nat.mod_lt (off + t) (show 0 < bsize by decide)
    rw [if_pos hmore, bmap_of_names hbn hthere]
    show (if fs.names ip.toDinode (place ((off + t) / bsize)) = 0 then _ else _) = _
    rw [if_neg hthere]
    generalize hchunk : min (n - t) (bsize - (off + t) % bsize) = c
    -- the bytes of this round, and the rest
    have hhere : ((List.range c).map fun i =>
        fs.block (fs.names ip.toDinode (place ((off + t) / bsize))) ((off + t) % bsize + i)) =
        (List.range c).map fun i => fs.byteAt ip.toDinode (off + t + i) := by
      refine List.map_congr_left fun i hi => ?_
      have hi := List.mem_range.1 hi
      have hsame : (off + t + i) / bsize = (off + t) / bsize ∧ (off + t + i) % bsize = (off + t) % bsize + i := by
        rw [show bsize = 1024 from rfl] at *
        omega
      rw [byteAt, hsame.1, hsame.2]
    have hsplit : (List.range (n - t)).map (fun i => fs.byteAt ip.toDinode (off + t + i)) =
        ((List.range c).map fun i => fs.byteAt ip.toDinode (off + t + i)) ++
          (List.range (n - (t + c))).map fun i => fs.byteAt ip.toDinode (off + (t + c) + i) := by
      rw [show n - t = c + (n - (t + c)) by omega, List.range_add, List.map_append, List.map_map]
      congr 1
      refine List.map_congr_left fun i _ => ?_
      show fs.byteAt ip.toDinode (off + t + (c + i)) = _
      congr 1
      omega
    rw [hsplit, Dst.write_append, List.length_map, List.length_range] at h
    obtain ⟨dst₁, hfirst, hrest⟩ := Option.bind_eq_some_iff.1 h
    rw [hhere, Dst.copyout_of_write hfirst]
    dsimp only
    rw [Nat.add_assoc]
    exact ih (by omega) (by omega) hrest

/-- `readi` delivers a range of the bytes of the file to a destination that can
take them. -/
def ReadsArray (fs : Fs) (ip : Inode) (off n : UInt32) : Prop :=
  ∀ dst dst', dst.write 0 (((fs.contents ip.toDinode).drop off.toNat).take n.toNat) = some dst' →
    fs.readi ip dst off n =
      .ok ((((fs.contents ip.toDinode).drop off.toNat).take n.toNat).length, ip, fs, dst')

/-- A range of the bytes of a file. -/
theorem contents_slice (fs : Fs) (d : Dinode) (o n : Nat) : ((fs.contents d).drop o).take n =
    (List.range (min n (d.size - o))).map fun i => fs.byteAt d (o + i) := by
  refine List.ext_getElem (by simp [contents_length]) fun i hi hi' => ?_
  rw [List.getElem_take, List.getElem_drop]
  simp [contents]

/-- `readi` treats the file as an array unless `off + n` overflows. -/
theorem readsArray_iff (hc : fs.Consistent ip) :
    fs.ReadsArray ip o m ↔ o.toNat + m.toNat < 2 ^ 32 ∨ ip.size ≤ o.toNat := by
  have hlen : (((fs.contents ip.toDinode).drop o.toNat).take m.toNat).length = min m.toNat (ip.size - o.toNat) := by
    rw [List.length_take, List.length_drop, contents_length]
  have hempty : ip.size ≤ o.toNat → ((fs.contents ip.toDinode).drop o.toNat).take m.toNat = [] := by
    intro h
    rw [List.drop_eq_nil_of_le (by rwa [contents_length]), List.take_nil]
  have hsize := hc.size
  have hmax : maxFile * bsize < 2 ^ 32 := by decide
  have hm := m.toNat_lt
  constructor
  · intro h
    by_contra hnot
    rw [not_or, not_lt, not_le] at hnot
    have hrun := h (.kernel fun _ => 0) _ rfl
    rw [readi, if_pos (.inr ((add_lt_iff o m).2 hnot.1)), hlen] at hrun
    have hzero := (Prod.mk.inj (Except.ok.inj hrun)).1
    omega
  · intro hcond dst dst' hw
    rw [readi]
    by_cases hfirst : ip.size < o.toNat ∨ o + m < o
    · have hnil := hempty (by
        rw [add_lt_iff] at hfirst
        omega)
      rw [hnil, Dst.write_nil] at hw
      cases hw
      rw [if_pos hfirst, hnil]
      rfl
    · rw [if_neg hfirst]
      rw [not_or, add_lt_iff] at hfirst
      have hclip : (if ip.size < (o + m).toNat then ip.size - o.toNat else m.toNat) =
          min m.toNat (ip.size - o.toNat) := by
        rw [toNat_add_of_lt (by omega)]
        split <;> omega
      dsimp only
      rw [hclip, hlen]
      rw [contents_slice] at hw
      exact readiLoop_eq o.toNat hc (by omega) (Nat.zero_le _) (by omega) hw

/-- Files are arrays of bytes: for `writei` exactly unless a copy breaks off
inside a block of the old file, for `readi` exactly unless `off + n` overflows. -/
theorem files_are_arrays (src : Src) (hf : fs.Formatted) (hc : fs.Consistent ip) :
    (fs.WritesArray ip src o m ↔ ¬ fs.Torn ip src o m) ∧
      (fs.ReadsArray ip o m ↔ o.toNat + m.toNat < 2 ^ 32 ∨ ip.size ≤ o.toNat) :=
  ⟨writesArray_iff hf hc, readsArray_iff hc⟩

/-- A disk of the size that `mkfs` uses, with one data block in use. -/
def small : Fs where
  sb := ⟨2000, 200, 32, 45⟩
  block b := if b = 45 then fun i => if i < 5 then 255 else if i = 5 then 127 else 0 else fun _ => 0
  logged := []

/-- A file of one block on that disk. -/
def smallFile : Inode := ⟨⟨2, 0, 0, 1, 1024, fun i => if i = 0 then 46 else 0⟩, 2⟩

theorem small_formatted : small.Formatted := ⟨by decide, by decide, by decide, by decide +kernel⟩

theorem smallFile_names (p : Place) : small.names smallFile.toDinode p = if p = .inl 0 then 46 else 0 := by
  cases p with
  | inl i =>
    by_cases hi : i = 0 <;> simp [names, smallFile, hi]
  | inr j =>
    have hind : indirectIx ≠ 0 := by decide
    simp [names, smallFile, hind]

theorem smallFile_consistent : small.Consistent smallFile := by
  have hone : ∀ p, small.names smallFile.toDinode p ≠ 0 → p = .inl 0 ∧ small.names smallFile.toDinode p = 46 := by
    intro p hp
    rw [smallFile_names] at hp ⊢
    split at hp
    · rename_i h
      exact ⟨h, if_pos h⟩
    · exact absurd rfl hp
  refine ⟨⟨fun p hp => ?_, fun p hp => ?_, fun p hp => ?_, fun p q heq hp => ?_⟩, by decide, fun bn hbn => ?_, by decide⟩
  · rw [(hone p hp).2]
    decide
  · rw [(hone p hp).2]
    decide
  · rw [(hone p hp).2]
    decide +kernel
  · rw [(hone p hp).1, (hone q (heq ▸ hp)).1]
  · obtain rfl : bn = 0 := by
      simp only [bsize, smallFile] at hbn
      omega
    decide

/-- A write from the kernel. -/
theorem files_are_arrays_small : small.Formatted ∧ small.Consistent smallFile ∧
    small.WritesArray smallFile (.kernel fun _ => 1) 1000 10 ∧ small.ReadsArray smallFile 1000 10 :=
  ⟨small_formatted, smallFile_consistent,
    (files_are_arrays _ small_formatted smallFile_consistent).1.2 fun h => (by cases h.2.1),
    (files_are_arrays (.kernel fun _ => 1) small_formatted smallFile_consistent).2.2 (.inl (by decide))⟩

/-- Memory in which user code can reach one page, full of ones. -/
def onePage : PageTable :=
  (Table.zeroed 1).put 0 (some ((Table.zeroed 2).put 0 (some ((Table.zeroed 3).put 0 (some ⟨5, ⟨true, true, false, true⟩⟩)))))

/-- A source of which only the first 96 bytes can be read. -/
def cutSrc : Src := .user { kend := 0, freelist := [], refcount := fun _ => 0, data := fun _ _ => 1 } onePage 4000

/-- A write that returns `0` and has changed the file. -/
theorem files_are_arrays_cut : ¬ ∀ (fs : Fs) (ip : Inode) (src : Src) (off n : UInt32), fs.Formatted →
    fs.Consistent ip → fs.WritesArray ip src off n ∧ fs.ReadsArray ip off n := by
  intro hall
  have hwrites := (hall small smallFile cutSrc 0 1024 small_formatted smallFile_consistent).1
  refine (writesArray_iff small_formatted smallFile_consistent).1 hwrites ⟨by decide, by decide +kernel, 0, ?_⟩
  have hreadable : readable cutSrc 1024 = 96 := by decide +kernel
  rw [hreadable]
  exact ⟨by decide, by decide, by decide, by decide, by decide +kernel⟩

end Fs

end Xv6
