-- SUMMARY: filewrite: each of its transactions fits into the log, and the offset counts what was written.
import Mathlib.Data.Finset.Card
import Xv6Threads.Fs.Contents
import Xv6Threads.Fs.Reserve

/-!
# filewrite

`filewrite` cuts a write into transactions of at most three blocks of data. One
of them touches the data blocks, the indirect block, the block of the free map
and the block of the inode; how many that are does not depend on what the inode
looks like.
-/

namespace Xv6

namespace Fs

/-! ## The code -/

/-- The most bytes that one transaction of `filewrite` writes. -/
def writeMax : Nat := (maxOpBlocks - 1 - 1 - 2) / 2 * bsize

/-- One transaction: what `writei` returned, and the blocks passed to `log_write`. -/
structure Section where
  r : Int
  logged : List Nat
  deriving DecidableEq, Repr

/-- The loop of `filewrite` on an inode. The source at byte `i` is `src i`, and
`others i` is what other processes make of the blocks and of the inode before the
transaction for byte `i`; the inode is not locked then. -/
def filewriteLoop (src : Nat → Src) (others : Nat → Fs → Inode → (Nat → Sector) × Inode) (n : Int) :
    Nat → Nat → UInt32 → Fs → Inode → Except Panic (Nat × UInt32 × List Section)
  | 0, i, off, _, _ => .ok (i, off, [])
  | fuel + 1, i, off, fs, ip =>
    if i < n then do
      let n1 := min (n - i).toNat writeMax
      let (block, ip) := others i fs ip
      let (r, ip, fs) ← Fs.writei { fs with block := block, logged := [] } ip (src i) off (UInt32.ofNat n1)
      let off := if 0 < r then off + UInt32.ofNat r.toNat else off
      if r ≠ n1 then .ok (i, off, [⟨r, fs.logged⟩])
      else do
        let (i, off, rest) ← filewriteLoop src others n fuel (i + r.toNat) off fs ip
        .ok (i, off, ⟨r, fs.logged⟩ :: rest)
    else .ok (i, off, [])

/-- `filewrite(f, addr, n)` on an inode that `f` may write to. The result is what
it returns, the new `f->off`, and its transactions. -/
def filewrite (src : Nat → Src) (others : Nat → Fs → Inode → (Nat → Sector) × Inode) (n : Int) (off : UInt32) (fs : Fs)
    (ip : Inode) : Except Panic (Int × UInt32 × List Section) := do
  let (i, off, sections) ← filewriteLoop src others n n.toNat 0 off fs ip
  .ok (if i = n then n else -1, off, sections)

variable {fs fs' : Fs} {ip ip' : Inode} {src : Src} {b bn off n t : Nat}

/-! ## Blocks touched by bmap -/

/-- Blocks were logged: the free map, the indirect block, and those in `l`. -/
structure Touches (fs : Fs) (ip : Inode) (fs' : Fs) (ip' : Inode) (l : List Nat) : Prop where
  sb : fs'.sb = fs.sb
  inum : ip'.inum = ip.inum
  indirect : ip.addrs indirectIx ≠ 0 → ip'.addrs indirectIx = ip.addrs indirectIx
  logged : ∀ b ∈ fs'.logged, b ∈ fs.logged ∨ b = fs.sb.bmapstart ∨ (b = ip'.addrs indirectIx ∧ b ≠ 0) ∨ b ∈ l

theorem Touches.refl (fs : Fs) (ip : Inode) (l : List Nat) : fs.Touches ip fs ip l :=
  ⟨rfl, rfl, fun _ => rfl, fun _ => .inl⟩

theorem Touches.trans {fs'' : Fs} {ip'' : Inode} {l l' : List Nat} (h : fs.Touches ip fs' ip' l)
    (h' : fs'.Touches ip' fs'' ip'' l') : fs.Touches ip fs'' ip'' (l ++ l') := by
  refine ⟨h'.sb.trans h.sb, h'.inum.trans h.inum, fun hne => ?_, fun b hb => ?_⟩
  · rw [h'.indirect (by rw [h.indirect hne]; exact hne), h.indirect hne]
  · rcases h'.logged b hb with hb | hb | hb | hb
    · rcases h.logged b hb with hb | hb | ⟨hb, hne⟩ | hb
      · exact .inl hb
      · exact .inr (.inl hb)
      · exact .inr (.inr (.inl ⟨by rw [h'.indirect (hb ▸ hne), hb], hne⟩))
      · exact .inr (.inr (.inr (List.mem_append_left _ hb)))
    · rw [h.sb] at hb
      exact .inr (.inl hb)
    · exact .inr (.inr (.inl hb))
    · exact .inr (.inr (.inr (List.mem_append_right _ hb)))

/-- A block of `l` is written. -/
theorem Touches.write {l : List Nat} (h : fs.Touches ip fs' ip' l) (hb : b ∈ l) (s : Sector) :
    fs.Touches ip (fs'.logWrite b s) ip' l := by
  refine ⟨h.sb, h.inum, h.indirect, fun c hc => ?_⟩
  rw [logWrite_logged] at hc
  rcases List.mem_append.1 hc with hc | hc
  · exact h.logged c hc
  · rw [List.mem_singleton.1 hc]
    exact .inr (.inr (.inr hb))

/-- `balloc` logs the free map and the block it returns. -/
theorem balloc_logged (hsize : fs.sb.size ≤ bpb) :
    fs.balloc.2.sb = fs.sb ∧ ∀ c ∈ fs.balloc.2.logged, c ∈ fs.logged ∨ c = fs.sb.bmapstart ∨ c = fs.balloc.1 := by
  unfold Fs.balloc
  split
  · exact ⟨rfl, fun c hc => .inl hc⟩
  · rename_i b hfind
    have hb : b < fs.sb.size := List.mem_range.1 (List.mem_of_find?_eq_some hfind)
    have hmap : fs.bblock b = fs.sb.bmapstart := by
      rw [bblock, Nat.div_eq_of_lt (by omega), Nat.zero_add]
    refine ⟨rfl, fun c hc => ?_⟩
    simp only [bzero, logWrite_logged, hmap, List.mem_append, List.mem_singleton] at hc
    rcases hc with (hc | hc) | hc
    · exact .inl hc
    · exact .inr (.inl hc)
    · exact .inr (.inr hc)

/-- `addrs[i]` other than the indirect block. -/
theorem demand_touches (ip : Inode) (hsize : fs.sb.size ≤ bpb) (j : Fin (ndirect + 1)) :
    fs.Touches ip (fs.demand ip j).2.2 (fs.demand ip j).2.1 [(fs.demand ip j).1] ∧
      ((fs.demand ip j).1 ≠ 0 → (fs.demand ip j).2.1.addrs j = (fs.demand ip j).1) := by
  unfold Fs.demand
  split
  · rename_i hzero
    obtain ⟨hsb, hlogged⟩ := balloc_logged hsize
    rcases hall : fs.balloc with ⟨a, fs₁⟩
    rw [hall] at hsb hlogged
    have hlog : ∀ c ∈ fs₁.logged, c ∈ fs.logged ∨ c = fs.sb.bmapstart ∨ (c = ip.addrs indirectIx ∧ c ≠ 0) ∨ c ∈ [a] := by
      intro c hc
      rcases hlogged c hc with hc | hc | hc
      · exact .inl hc
      · exact .inr (.inl hc)
      · exact .inr (.inr (.inr (by simpa using hc)))
    dsimp only
    split
    · rename_i ha
      subst ha
      exact ⟨⟨hsb, rfl, fun _ => rfl, hlog⟩, fun h => absurd rfl h⟩
    · rename_i ha
      refine ⟨⟨hsb, rfl, fun hne => ?_, fun c hc => ?_⟩, fun _ => Function.update_self ..⟩
      · refine Function.update_of_ne ?_ ..
        rintro rfl
        exact hne hzero
      · rcases hlogged c hc with hc | hc | hc
        · exact .inl hc
        · exact .inr (.inl hc)
        · exact .inr (.inr (.inr (by simpa using hc)))
  · exact ⟨.refl _ _ _, fun _ => rfl⟩

/-- `bmap` logs the free map, the indirect block and the block it returns. -/
theorem bmap_touches (ip : Inode) (hsize : fs.sb.size ≤ bpb) (hbn : bn < maxFile) :
    ∃ a ip' fs', fs.bmap ip bn = .ok (a, ip', fs') ∧ fs.Touches ip fs' ip' [a] := by
  by_cases hdirect : bn < ndirect
  · exact ⟨_, _, _, by rw [bmap, dif_pos hdirect], (demand_touches ip hsize _).1⟩
  · have hentry : bn - ndirect < nindirect := by
      simp only [maxFile] at hbn
      omega
    rw [bmap, dif_neg hdirect, if_pos hentry]
    obtain ⟨hfirst, hind⟩ := demand_touches ip hsize indirectIx
    rcases hd : fs.demand ip indirectIx with ⟨ind, ip₁, fs₁⟩
    rw [hd] at hfirst hind
    dsimp only at hfirst hind ⊢
    by_cases hzero : ind = 0
    · rw [if_pos hzero]
      subst hzero
      exact ⟨0, ip₁, fs₁, rfl, hfirst⟩
    rw [if_neg hzero]
    obtain rfl := hind hzero
    -- the block returned by the first step is the indirect block
    have hfirst' : fs.Touches ip fs₁ ip₁ [] := by
      refine ⟨hfirst.sb, hfirst.inum, hfirst.indirect, fun c hc => ?_⟩
      rcases hfirst.logged c hc with hc | hc | hc | hc
      · exact .inl hc
      · exact .inr (.inl hc)
      · exact .inr (.inr (.inl hc))
      · exact .inr (.inr (.inl ⟨by simpa using hc, by rw [List.mem_singleton.1 hc]; exact hzero⟩))
    by_cases hthere : fs₁.entry (ip₁.addrs indirectIx) (bn - ndirect) = 0
    swap
    · rw [if_neg hthere]
      exact ⟨_, ip₁, fs₁, rfl, hfirst'.trans (.refl _ _ _)⟩
    rw [if_pos hthere]
    obtain ⟨hsb, hlogged⟩ := balloc_logged (hfirst.sb ▸ hsize)
    rcases hall : fs₁.balloc with ⟨a, fs₂⟩
    rw [hall] at hsb hlogged
    dsimp only at hsb hlogged ⊢
    have hsecond : fs₁.Touches ip₁ fs₂ ip₁ [a] := by
      refine ⟨hsb, rfl, fun _ => rfl, fun c hc => ?_⟩
      rcases hlogged c hc with hc | hc | hc
      · exact .inl hc
      · exact .inr (.inl hc)
      · exact .inr (.inr (.inr (by simpa using hc)))
    by_cases ha : a = 0
    · rw [if_pos ha]
      subst ha
      exact ⟨0, ip₁, fs₂, rfl, hfirst'.trans hsecond⟩
    · rw [if_neg ha]
      refine ⟨a, ip₁, _, rfl, hfirst'.trans ⟨hsecond.sb, rfl, fun _ => rfl, fun c hc => ?_⟩⟩
      rw [logWrite_logged] at hc
      rcases List.mem_append.1 hc with hc | hc
      · exact hsecond.logged c hc
      · exact .inr (.inr (.inl ⟨List.mem_singleton.1 hc, by rw [List.mem_singleton.1 hc]; exact hzero⟩))

/-! ## Blocks touched by writei -/

/-- The number of blocks that hold the bytes from `off` to `off + n`. -/
def span (off n : Nat) : Nat := if n = 0 then 0 else (off % bsize + n + (bsize - 1)) / bsize

theorem one_le_span (h : 0 < n) : 1 ≤ span off n := by
  rw [span, if_neg (by omega), show bsize = 1024 from rfl]
  omega

/-- The bytes up to the end of a block, and the rest. -/
theorem span_step (h : 0 < n) :
    1 + span (off + min n (bsize - off % bsize)) (n - min n (bsize - off % bsize)) ≤ span off n := by
  simp only [span, show bsize = 1024 from rfl]
  split <;> split <;> omega

theorem span_le (off : Nat) (h : n ≤ writeMax) : span off n ≤ 4 := by
  have hmax : writeMax = 3072 := rfl
  rw [span, show bsize = 1024 from rfl]
  split <;> omega

theorem writeiLoop_touches {fuel : Nat} (src : Src) (ip : Inode) (hsize : fs.sb.size ≤ bpb) (hlim : off + (n - t) ≤ maxFile * bsize)
    (ht : t ≤ n) : ∃ t' fs' ip' l, writeiLoop src n fuel fs ip off t = .ok (t', off + (t' - t), ip', fs') ∧
      t ≤ t' ∧ t' ≤ n ∧ fs.Touches ip fs' ip' l ∧ l.length ≤ span off (n - t) := by
  induction fuel generalizing fs ip off t with
  | zero => exact ⟨t, fs, ip, [], by rw [writeiLoop, Nat.sub_self]; rfl, Nat.le_refl _, ht, .refl _ _ _, Nat.zero_le _⟩
  | succ fuel ih =>
    rw [writeiLoop]
    by_cases hmore : t < n
    swap
    · rw [if_neg hmore]
      exact ⟨t, fs, ip, [], by rw [Nat.sub_self]; rfl, Nat.le_refl _, ht, .refl _ _ _, Nat.zero_le _⟩
    rw [if_pos hmore]
    have hbn : off / bsize < maxFile := Nat.div_lt_of_lt_mul (by rw [Nat.mul_comm]; omega)
    obtain ⟨a, ip₁, fs₁, hmap, htouch⟩ := bmap_touches ip hsize hbn
    have hone : [a].length ≤ span off (n - t) := one_le_span (by omega)
    have hstep : 1 + span _ _ ≤ span off (n - t) := span_step (by omega)
    rw [hmap]
    show ∃ t' fs' ip' l, (if a = 0 then _ else _) = _ ∧ _
    by_cases hzero : a = 0
    · rw [if_pos hzero]
      exact ⟨t, fs₁, ip₁, [a], by rw [Nat.sub_self]; rfl, Nat.le_refl _, ht, htouch, hone⟩
    rw [if_neg hzero]
    generalize hm : min (n - t) (bsize - off % bsize) = m at hstep ⊢
    rcases hcopy : src.copyin t m with ⟨bytes, ok⟩
    cases ok with
    | false =>
      refine ⟨t, fs₁.setBlock a (Bytes.splice (fs₁.block a) (off % bsize) bytes), ip₁, [a], ?_, Nat.le_refl _, ht,
        ⟨htouch.sb, htouch.inum, htouch.indirect, htouch.logged⟩, hone⟩
      rw [Nat.sub_self]
      rfl
    | true =>
      have hwrite := htouch.write (List.mem_singleton_self a) (Bytes.splice (fs₁.block a) (off % bsize) bytes)
      obtain ⟨t', fs', ip', l, hrun, hle, hle', htouch', hlen⟩ := ih ip₁ (hwrite.sb ▸ hsize)
        (show off + m + (n - (t + m)) ≤ maxFile * bsize by omega) (show t + m ≤ n by omega)
      refine ⟨t', fs', ip', a :: l, ?_, by omega, hle', hwrite.trans htouch', ?_⟩
      · dsimp only
        rw [hrun, show off + m + (t' - (t + m)) = off + (t' - t) by omega]
      · rw [List.length_cons]
        rw [Nat.sub_add_eq] at hlen
        omega

/-- What `writei` returns, and the blocks it logs: data blocks, the free map, the
indirect block and the block of the inode. -/
theorem writei_touches (fs : Fs) (ip : Inode) (src : Src) (o m : UInt32) (hsize : fs.sb.size ≤ bpb) : ∃ r ip' fs',
    fs.writei ip src o m = .ok (r, ip', fs') ∧ fs'.sb = fs.sb ∧ -1 ≤ r ∧ r ≤ m.toNat ∧
      (0 < r → o.toNat + r.toNat < 2 ^ 32) ∧
      ∃ l : List Nat, l.length ≤ span o.toNat m.toNat + 3 ∧ ∀ b ∈ fs'.logged, b ∈ fs.logged ∨ b ∈ l := by
  have hreject : ∃ r ip' fs', (.ok (-1, ip, fs) : Except Panic (Int × Inode × Fs)) = .ok (r, ip', fs') ∧ fs'.sb = fs.sb ∧
      -1 ≤ r ∧ r ≤ m.toNat ∧ (0 < r → o.toNat + r.toNat < 2 ^ 32) ∧
      ∃ l : List Nat, l.length ≤ span o.toNat m.toNat + 3 ∧ ∀ b ∈ fs'.logged, b ∈ fs.logged ∨ b ∈ l :=
    ⟨-1, ip, fs, rfl, rfl, by omega, by omega, by omega, [], Nat.zero_le _, fun _ => .inl⟩
  rw [writei]
  by_cases hfirst : ip.size < o.toNat ∨ o + m < o
  · rw [if_pos hfirst]
    exact hreject
  rw [if_neg hfirst]
  by_cases hsecond : maxFile * bsize < (o + m).toNat
  · rw [if_pos hsecond]
    exact hreject
  rw [if_neg hsecond]
  have hmax : maxFile * bsize < 2 ^ 32 := by decide
  rw [not_or, add_lt_iff] at hfirst
  rw [toNat_add_of_lt (by omega)] at hsecond
  obtain ⟨t, fs₁, ip₁, l, hrun, -, ht, htouch, hlen⟩ := writeiLoop_touches src ip hsize
    (show o.toNat + (m.toNat - 0) ≤ maxFile * bsize by omega) (Nat.zero_le _)
  rw [hrun]
  refine ⟨t, ip₁.reach (o.toNat + (t - 0)), _, rfl, htouch.sb, by omega, by omega, by omega,
    fs.sb.bmapstart :: ip₁.addrs indirectIx :: fs₁.iblock ip₁.inum :: l, ?_, fun b hb => ?_⟩
  · simp only [List.length_cons]
    rw [Nat.sub_zero] at hlen
    omega
  · have hinode : fs₁.iblock (ip₁.reach (o.toNat + (t - 0))).inum = fs₁.iblock ip₁.inum := by rw [Inode.reach_inum]
    simp only [List.mem_cons]
    rcases List.mem_append.1 hb with hb | hb
    · rcases htouch.logged b hb with hb | hb | hb | hb
      · exact .inl hb
      · exact .inr (.inl hb)
      · exact .inr (.inr (.inl hb.1))
      · exact .inr (.inr (.inr (.inr hb)))
    · exact .inr (.inr (.inr (.inl ((List.mem_singleton.1 hb).trans hinode))))

/-! ## filewrite -/

/-- The number of bytes that a transaction wrote. -/
def Section.written (s : Section) : Nat := s.r.toNat

/-- The number of bytes that transactions wrote. -/
def written (l : List Section) : Nat := (l.map Section.written).sum

theorem written_cons (s : Section) (l : List Section) : written (s :: l) = s.r.toNat + written l := rfl

variable {srcs : Nat → Src} {others : Nat → Fs → Inode → (Nat → Sector) × Inode} {len : Int}

theorem filewriteLoop_fits {fuel i : Nat} (off : UInt32) (ip : Inode) (hsize : fs.sb.size ≤ bpb) :
    ∃ i' off' l, filewriteLoop srcs others len fuel i off fs ip = .ok (i', off', l) ∧
      off'.toNat = off.toNat + written l ∧ (∀ s ∈ l, s.logged.toFinset.card ≤ maxOpBlocks) ∧
      ((i' : Int) = len ↔ i + written l = len) := by
  induction fuel generalizing i off fs ip with
  | zero => exact ⟨i, off, [], rfl, rfl, fun s hs => absurd hs List.not_mem_nil, Iff.rfl⟩
  | succ fuel ih =>
    rw [filewriteLoop]
    by_cases hmore : (i : Int) < len
    swap
    · rw [if_neg hmore]
      exact ⟨i, off, [], rfl, rfl, fun s hs => absurd hs List.not_mem_nil, Iff.rfl⟩
    rw [if_pos hmore]
    rcases others i fs ip with ⟨block, ip₀⟩
    have hmax : writeMax = 3072 := rfl
    have hword : UInt32.size = 2 ^ 32 := rfl
    generalize hn1 : min (len - i).toNat writeMax = n1
    have htoNat : (UInt32.ofNat n1).toNat = n1 := UInt32.toNat_ofNat_of_lt' (by omega)
    obtain ⟨r, ip₁, fs₁, hrun, hsb, hlow, hhigh, hwrap, blocks, hlen, hlog⟩ :=
      writei_touches ⟨fs.sb, block, []⟩ ip₀ (srcs i) off (UInt32.ofNat n1) hsize
    rw [htoNat] at hhigh hlen
    -- four data blocks, and three others
    have hcard : fs₁.logged.toFinset.card ≤ maxOpBlocks := by
      have hsub : fs₁.logged.toFinset ⊆ blocks.toFinset := by
        intro b hb
        rw [List.mem_toFinset] at hb ⊢
        exact (hlog b hb).resolve_left List.not_mem_nil
      have hspan := span_le off.toNat (show n1 ≤ writeMax by omega)
      have hle := (Finset.card_le_card hsub).trans (List.toFinset_card_le blocks)
      have hten : maxOpBlocks = 10 := rfl
      omega
    have hoff : (if 0 < r then off + UInt32.ofNat r.toNat else off).toNat = off.toNat + r.toNat := by
      split
      · rename_i hpos
        have := hwrap hpos
        rw [UInt32.toNat_add, UInt32.toNat_ofNat_of_lt' (by omega), Nat.mod_eq_of_lt this]
      · omega
    dsimp only
    rw [hrun]
    show ∃ i' off' l, (if r ≠ n1 then _ else _) = _ ∧ _
    by_cases hshort : r ≠ n1
    · rw [if_pos hshort]
      refine ⟨i, _, [⟨r, fs₁.logged⟩], rfl, ?_, ?_, ?_⟩
      · rw [hoff]
        rfl
      · intro s hs
        rw [List.mem_singleton.1 hs]
        exact hcard
      · rw [written_cons]
        show _ ↔ (i : Int) + (r.toNat + 0 : Nat) = len
        omega
    · rw [if_neg hshort]
      obtain ⟨i', off', l, hrest, hadvance, hcards, hall⟩ := ih (i := i + r.toNat)
        (if 0 < r then off + UInt32.ofNat r.toNat else off) ip₁ (hsb ▸ hsize)
      rw [hrest]
      refine ⟨i', off', ⟨r, fs₁.logged⟩ :: l, rfl, ?_, ?_, ?_⟩
      · rw [hadvance, hoff, written_cons, Nat.add_assoc]
      · intro s hs
        rcases List.mem_cons.1 hs with rfl | hs
        · exact hcard
        · exact hcards s hs
      · rw [hall, written_cons]
        show (i + r.toNat : Nat) + (written l : Int) = len ↔ (i : Int) + (r.toNat + written l : Nat) = len
        omega

/-- A write to a file: every transaction logs at most `MAXOPBLOCKS` blocks, the
offset counts the bytes written, and the result says whether these are all. -/
theorem filewrite_fits (srcs : Nat → Src) (others : Nat → Fs → Inode → (Nat → Sector) × Inode) (ip : Inode)
    (off : UInt32) (len : Int) (hsize : fs.sb.size ≤ bpb) :
    ∃ ret off' sections, filewrite srcs others len off fs ip = .ok (ret, off', sections) ∧
      (∀ s ∈ sections, s.logged.toFinset.card ≤ maxOpBlocks) ∧ off'.toNat = off.toNat + written sections ∧
      ret = if written sections = len then len else -1 := by
  obtain ⟨i, off', l, hrun, hoff, hcards, hall⟩ := filewriteLoop_fits (i := 0) off ip hsize
  refine ⟨if i = len then len else -1, off', l, ?_, hcards, hoff, ?_⟩
  · exact Except.bind_ok_iff.2 ⟨_, hrun, rfl⟩
  · refine if_congr ?_ rfl rfl
    rw [hall]
    omega

/-- A write of `5000` bytes from the middle of a block on, which takes two transactions. -/
theorem filewrite_fits_small : small.sb.size ≤ bpb ∧
    ∃ ret off' sections, filewrite (fun _ => .kernel fun _ => 1) (fun _ fs ip => (fs.block, ip)) 5000 1000 small smallFile =
        .ok (ret, off', sections) ∧ (∀ s ∈ sections, s.logged.toFinset.card ≤ maxOpBlocks) ∧
      off'.toNat = 1000 + written sections ∧ ret = if written sections = (5000 : Int) then 5000 else -1 :=
  ⟨by decide, filewrite_fits _ _ _ _ _ (by decide)⟩

end Fs

end Xv6
