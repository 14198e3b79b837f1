/-
  Reading a file (fs/minix1/inode.c: inode_read).

  * `Fs.zoneOf`: the zone that `bmap` finds for a file block, the same in every state with the same
    blocks;
  * `readLoop_spec`: a request that ends inside the file is copied block by block;
  * `inodeRead_iff`: a request that goes past the end of the file is cut to what is left of it before
    the end of the block is looked at, so a read returns the slice exactly when the request ends
    inside the file or the file inside the block.
-/
import Rdix.Fs.Lookup

namespace Rdix.Fs

open ByteMem Function

/-- `memcpy(buf, b_data + off, size)` from a block. -/
def blockBytes (b : Bytes) (off size : ℕ) : C (ℕ → BitVec 8) :=
  if off + size ≤ blockSize then .ok fun k => b (off + k) else .error (.wild "b_data")

/-- The size of one copy: what is left of the file, of the block or of the request. -/
def copySize (fsize pos offset len : ℕ) : ℕ :=
  if fsize - pos < len then fsize - pos
  else if blockSize - offset % blockSize < len then blockSize - offset % blockSize
  else len

/-- One turn of the loop of `inode_read`: the buffer and the number of bytes copied. -/
def readTurn (i : ℕ) (s : Fs) (buf : ℕ → BitVec 8) (len ptr total_size offset : ℕ) :
    C (Fs × (ℕ → BitVec 8) × ℕ) := do
  let (s, block) ← s.bmap i (offset / blockSize : ℕ) false
  cassert (block ≠ 0) "block"
  let s := s.bread block
  let size := copySize (s.field i .size) (ptr + total_size) offset len
  let bytes ← blockBytes (s.cache.data block) (offset % blockSize) size
  return (s.brelse block, copyBytes buf total_size bytes size, size)

/-- The loop of `inode_read`; every turn copies at least one byte. -/
def readLoop (i : ℕ) : ℕ → Fs → (ℕ → BitVec 8) → ℕ → ℕ → ℕ → ℕ → C (Fs × (ℕ → BitVec 8) × ℕ)
  | 0, s, buf, len, ptr, total_size, _ =>
    if len ≠ 0 ∧ ptr + total_size < s.field i .size then .error .loop else return (s, buf, total_size)
  | n + 1, s, buf, len, ptr, total_size, offset =>
    if len ≠ 0 ∧ ptr + total_size < s.field i .size then do
      let (s, buf, size) ← readTurn i s buf len ptr total_size offset
      readLoop i n s buf (len - size) ptr (total_size + size) ((offset / blockSize + 1) * blockSize)
    else return (s, buf, total_size)

/-- `len` is a `u32`, `offset` an `int` that is not negative; the second component is the buffer. -/
def inodeRead (s : Fs) (i : ℕ) (buf : ℕ → BitVec 8) (len offset : ℕ) :
    C (Fs × (ℕ → BitVec 8) × ℤ) := do
  cassert (ISFILE (s.field i .mode) ∨ ISDIR (s.field i .mode))
    "ISFILE(inode->desc->mode) || ISDIR(inode->desc->mode)"
  if s.field i .size ≤ offset then return (s, buf, EOF)
  else
    let (s, buf, total_size) ← readLoop i len s buf len offset 0 offset
    return (s, buf, total_size)

/-! ## The blocks of a file -/

section Blocks
variable {A : Type} {balloc : A → C (A × ℕ)} {e e' : Env A} {array : U16Ptr}
  {level index block divider buf : ℕ} {buf_1 buf_2 : Option ℕ}

/-- What the loop of `bmap` finds when it creates nothing, from what is read. -/
def lookZone (get : U16Ptr → ℕ → C ℕ) : ℕ → U16Ptr → ℕ → ℕ → ℕ → C ℕ
  | 0, array, index, _, _ => get array index
  | level + 1, array, index, block, divider => do
    let v ← get array index
    if v = 0 then return 0
    else
      let blk ← get array (block / divider % 2 ^ 16)
      lookZone get level ⟨blk, 0⟩ (block / divider % 2 ^ 16) (block % divider) (divider / zonesIdxPerBlock)

theorem ensureZone_read : ensureZone balloc false e array index buf =
    (e.get array index).map fun v => (e, v) := by
  unfold ensureZone
  cases hv : e.get array index with
  | error x => rfl
  | ok v =>
    simp only [ok_bind, Bool.false_eq_true, and_false, if_false, pure_eq_ok, hv]
    rfl

theorem get_congr (h : e'.cache.data = e.cache.data) : e'.get = e.get := by
  funext array index
  rw [Env.get, Env.get, Cache.word, Cache.word, h]

theorem bmapReckon_value :
    (bmapReckon balloc false level e array index block divider buf buf_1 buf_2).map Prod.snd =
      lookZone e.get level array index block divider := by
  induction level generalizing e array index block divider buf buf_1 buf_2 with
  | zero =>
    unfold bmapReckon lookZone
    rw [ensureZone_read]
    cases e.get array index <;> rfl
  | succ level ih =>
    unfold bmapReckon lookZone
    rw [ensureZone_read]
    cases e.get array index with
    | error x => rfl
    | ok v =>
      by_cases h0 : v = 0
      · subst h0
        rfl
      -- a held block changes nothing that is read
      have hbread : ∀ blk, ({ e with cache := e.cache.bread blk } : Env A).get = e.get :=
        fun blk => get_congr rfl
      simp only [Except.map, ok_bind, if_neg h0]
      cases e.get array (block / divider % 2 ^ 16) with
      | error x => rfl
      | ok blk =>
        simp only [ok_bind]
        rw [← hbread blk]
        by_cases hl : level = 1
        · rw [if_pos hl]
          exact ih
        · rw [if_neg hl]
          exact ih

/-- **Without `create` the zone that `bmap` finds depends on the blocks only.** -/
theorem bmap_value_congr {zones : ℕ} {inode : MInode} {n : ℤ} (h : e'.cache.data = e.cache.data) :
    (Rdix.bmap balloc zones e' inode n false).map Prod.snd =
      (Rdix.bmap balloc zones e inode n false).map Prod.snd := by
  have hget := get_congr h
  unfold Rdix.bmap
  by_cases hn : 0 ≤ n ∧ n < zones
  · simp only [cassert_pos hn, ok_bind]
    by_cases h7 : n.toNat < 7
    · rw [if_pos h7, if_pos h7, bmapReckon_value, bmapReckon_value, hget]
    rw [if_neg h7, if_neg h7]
    by_cases h1 : n.toNat - 7 < 7 + zonesIdxPerBlock
    · rw [if_pos h1, if_pos h1, bmapReckon_value, bmapReckon_value, hget]
    rw [if_neg h1, if_neg h1]
    by_cases h2 : n.toNat - 7 - (7 + zonesIdxPerBlock) <
        zonesIdxPerBlock * zonesIdxPerBlock + 7 + zonesIdxPerBlock
    · rw [cassert_pos h2, ok_bind, ok_bind, bmapReckon_value, bmapReckon_value, hget]
    · rw [cassert_neg h2, error_bind, error_bind]
  · rw [cassert_neg hn, error_bind, error_bind]

end Blocks

variable {s s' t : Fs} {i : ℕ} {buf : ℕ → BitVec 8} {len offset ptr total_size : ℕ}

/-- The zone that `bmap` finds for a file block without `create`; 0 if there is none. -/
def zoneOf (s : Fs) (i block : ℕ) : ℕ :=
  match (s.bmap i block false).map Prod.snd with
  | .ok z => z
  | .error _ => 0

/-- Byte `k` of the file. -/
def fileByte (s : Fs) (i k : ℕ) : BitVec 8 := s.cache.data (s.zoneOf i (k / blockSize)) (k % blockSize)

theorem zoneOf_congr (hd : t.cache.data = s.cache.data) (hz : t.sb.zones = s.sb.zones)
    (hi : t.inode = s.inode) (block : ℕ) : t.zoneOf i block = s.zoneOf i block := by
  have hvalue (s : Fs) : (s.bmap i block false).map Prod.snd =
      (Rdix.bmap balloc s.sb.zones s.env (s.inode i) block false).map Prod.snd := by
    unfold Fs.bmap
    cases Rdix.bmap balloc s.sb.zones s.env (s.inode i) block false <;> rfl
  have henv : t.env.cache.data = s.env.cache.data := hd
  unfold zoneOf
  rw [hvalue, hvalue, hz, hi, bmap_value_congr henv]

theorem Touched.zoneOf (h : s.Touched t) (block : ℕ) : t.zoneOf i block = s.zoneOf i block :=
  zoneOf_congr h.data (by rw [h.sb]) h.inode block

theorem Touched.fileByte (h : s.Touched t) (k : ℕ) : t.fileByte i k = s.fileByte i k := by
  unfold Fs.fileByte
  rw [h.zoneOf, h.data]

/-- A block that is mapped is found. -/
theorem bmap_zoneOf {block : ℕ} (h : s.zoneOf i block ≠ 0) :
    ∃ t, s.bmap i block false = .ok (t, s.zoneOf i block) ∧ s.Touched t := by
  unfold Fs.zoneOf at h ⊢
  cases hb : s.bmap i block false with
  | error e =>
    rw [hb] at h
    exact absurd rfl h
  | ok r =>
    obtain ⟨t, z⟩ := r
    exact ⟨t, rfl, bmap_touched hb⟩

/-! ## One copy -/

/-- A copy of `size` bytes from position `pos` of a file with the block at hand. -/
theorem readTurn_eq (hmap : s.zoneOf i (offset / blockSize) ≠ 0) :
    ∃ t, s.Touched t ∧ readTurn i s buf len ptr total_size offset =
      let size := copySize (s.field i .size) (ptr + total_size) offset len
      if offset % blockSize + size ≤ blockSize then
        .ok (t, copyBytes buf total_size (fun k => s.cache.data (s.zoneOf i (offset / blockSize))
          (offset % blockSize + k)) size, size)
      else .error (.wild "b_data") := by
  obtain ⟨t, hb, ht⟩ := bmap_zoneOf hmap
  have ht' := ht.bread (s.zoneOf i (offset / blockSize))
  refine ⟨(t.bread (s.zoneOf i (offset / blockSize))).brelse (s.zoneOf i (offset / blockSize)),
    ht'.brelse _, ?_⟩
  unfold readTurn blockBytes
  rw [hb, ok_bind]
  dsimp only
  rw [cassert_pos hmap, ok_bind, ht'.field, ht'.data]
  split_ifs <;> rfl

/-- The buffer with bytes `total_size` to `total_size + n` of the request filled from the file. -/
def filled (s : Fs) (i : ℕ) (buf : ℕ → BitVec 8) (ptr total_size n : ℕ) : ℕ → BitVec 8 :=
  fun k => if total_size ≤ k ∧ k < total_size + n then s.fileByte i (ptr + k) else buf k

/-- A copy inside one block fills the buffer from the file. -/
theorem copyBytes_filled {size : ℕ} (hfit : (ptr + total_size) % blockSize + size ≤ blockSize) :
    copyBytes buf total_size (fun k => s.cache.data (s.zoneOf i ((ptr + total_size) / blockSize))
      ((ptr + total_size) % blockSize + k)) size = s.filled i buf ptr total_size size := by
  funext k
  unfold copyBytes filled fileByte
  split_ifs with h
  · obtain ⟨j, rfl⟩ := Nat.exists_eq_add_of_le h.1
    have hdiv : (ptr + (total_size + j)) / blockSize = (ptr + total_size) / blockSize := by
      norm_num at hfit ⊢
      omega
    have hmod : (ptr + (total_size + j)) % blockSize = (ptr + total_size) % blockSize + j := by
      norm_num at hfit ⊢
      omega
    rw [hdiv, hmod, Nat.add_sub_cancel_left]
  · rfl

theorem filled_filled (m n : ℕ) : s.filled i (s.filled i buf ptr total_size m) ptr (total_size + m) n =
    s.filled i buf ptr total_size (m + n) := by
  funext k
  unfold filled
  split_ifs <;> first | rfl | omega

theorem Touched.filled (h : s.Touched t) (ptr total_size n : ℕ) :
    t.filled i buf ptr total_size n = s.filled i buf ptr total_size n := by
  funext k
  unfold Fs.filled
  rw [h.fileByte]

theorem readLoop_done (n : ℕ) (h : ¬ (len ≠ 0 ∧ ptr + total_size < s.field i .size)) :
    readLoop i n s buf len ptr total_size offset = .ok (s, buf, total_size) := by
  cases n <;> exact if_neg h

theorem readLoop_zero (n : ℕ) : readLoop i n s buf 0 ptr total_size offset = .ok (s, buf, total_size) :=
  readLoop_done n fun h => h.1 rfl

/-- **A request that ends inside the file is copied.** -/
theorem readLoop_spec {n : ℕ} (hfuel : len ≤ n) (hlen : ptr + total_size + len ≤ s.field i .size)
    (hmap : ∀ k, ptr + total_size ≤ k → k < ptr + total_size + len → s.zoneOf i (k / blockSize) ≠ 0) :
    ∃ t, s.Touched t ∧ readLoop i n s buf len ptr total_size (ptr + total_size) =
      .ok (t, s.filled i buf ptr total_size len, total_size + len) := by
  have hdone : s.filled i buf ptr total_size 0 = buf := by
    funext k
    exact if_neg (by omega)
  induction n generalizing s buf len total_size with
  | zero =>
    obtain rfl : len = 0 := Nat.le_zero.1 hfuel
    exact ⟨s, .refl s, by rw [readLoop_zero, hdone, Nat.add_zero]⟩
  | succ n ih =>
    by_cases h0 : len = 0
    · subst h0
      exact ⟨s, .refl s, by rw [readLoop_zero, hdone, Nat.add_zero]⟩
    have hcond : len ≠ 0 ∧ ptr + total_size < s.field i .size := ⟨h0, by omega⟩
    have hzone := hmap (ptr + total_size) le_rfl (by omega)
    obtain ⟨t, ht, hturn⟩ := @readTurn_eq s i buf len (ptr + total_size) ptr total_size hzone
    generalize hsize : copySize (s.field i .size) (ptr + total_size) (ptr + total_size) len = size at hturn
    have hpos : (ptr + total_size) % blockSize < blockSize := Nat.mod_lt _ (by decide)
    -- the copy ends with the request or with the block
    have hcases : size = len ∧ (ptr + total_size) % blockSize + size ≤ blockSize ∨
        size < len ∧ (ptr + total_size) % blockSize + size = blockSize ∧ 0 < size := by
      unfold copySize at hsize
      rw [if_neg (by omega)] at hsize
      split_ifs at hsize <;> omega
    have hfit : (ptr + total_size) % blockSize + size ≤ blockSize := by omega
    rw [if_pos hfit, copyBytes_filled hfit] at hturn
    have hrun : readLoop i (n + 1) s buf len ptr total_size (ptr + total_size) =
        readLoop i n t (s.filled i buf ptr total_size size) (len - size) ptr (total_size + size)
          (((ptr + total_size) / blockSize + 1) * blockSize) := by
      rw [readLoop, if_pos hcond, hturn]
      rfl
    rcases hcases with ⟨rfl, -⟩ | ⟨hlt, hend, h1⟩
    · exact ⟨t, ht, by rw [hrun, Nat.sub_self, readLoop_zero]⟩
    · have hnext : ((ptr + total_size) / blockSize + 1) * blockSize = ptr + (total_size + size) := by
        have := Nat.div_add_mod (ptr + total_size) blockSize
        rw [Nat.mul_comm] at this
        rw [Nat.add_mul]
        omega
      obtain ⟨t', ht', he⟩ := @ih t (s.filled i buf ptr total_size size) (len - size) (total_size + size)
        (by omega) (by rw [ht.field]; omega)
        (fun k h1 h2 => by rw [ht.zoneOf]; exact hmap k (by omega) (by omega))
        (by funext k; exact if_neg (by omega))
      refine ⟨t', ht.trans ht', ?_⟩
      rw [hrun, hnext, he, ht.filled, filled_filled, Nat.add_sub_cancel' hlt.le, Nat.add_assoc,
        Nat.add_sub_cancel' hlt.le]

/-- **A request that goes past the end of the file** is cut to what is left of the file, which is then
    copied from the first block. -/
theorem readLoop_past (hlen : s.field i .size - offset < len) (hoff : offset < s.field i .size)
    (hmap : s.zoneOf i (offset / blockSize) ≠ 0) :
    ∃ t, s.Touched t ∧ readLoop i len s buf len offset 0 offset =
      if offset % blockSize + (s.field i .size - offset) ≤ blockSize then
        .ok (t, s.filled i buf offset 0 (s.field i .size - offset), s.field i .size - offset)
      else .error (.wild "b_data") := by
  obtain ⟨n, rfl⟩ : ∃ n, len = n + 1 := ⟨len - 1, by omega⟩
  obtain ⟨t, ht, hturn⟩ := @readTurn_eq s i buf (n + 1) offset offset 0 hmap
  have hsize : copySize (s.field i .size) (offset + 0) offset (n + 1) = s.field i .size - offset := if_pos hlen
  refine ⟨t, ht, ?_⟩
  rw [readLoop, if_pos ⟨n.succ_ne_zero, hoff⟩, hturn, hsize]
  dsimp only
  by_cases hfit : offset % blockSize + (s.field i .size - offset) ≤ blockSize
  · rw [if_pos hfit, if_pos hfit, ok_bind]
    have hcopy := @copyBytes_filled s i buf offset 0 _ hfit
    rw [Nat.add_zero] at hcopy
    dsimp only
    rw [hcopy, readLoop_done n (by rw [ht.field]; omega), Nat.zero_add]
  · rw [if_neg hfit, if_neg hfit, error_bind]

/-- The read returns the slice of the file that was asked for, cut at the end of the file. -/
def ReadsSlice (s : Fs) (i : ℕ) (buf : ℕ → BitVec 8) (len offset : ℕ) : Prop :=
  ∃ t, s.Touched t ∧ s.inodeRead i buf len offset =
    .ok (t, fun k => if k < min len (s.field i .size - offset) then s.fileByte i (offset + k) else buf k,
      (min len (s.field i .size - offset) : ℕ))

/-- **A read returns the requested slice if and only if the request ends inside the file, or the file
    inside the block of the offset.** -/
theorem inodeRead_iff (hmode : ISFILE (s.field i .mode) ∨ ISDIR (s.field i .mode))
    (hoff : offset < s.field i .size)
    (hmap : ∀ block, block * blockSize < s.field i .size → s.zoneOf i block ≠ 0) :
    s.ReadsSlice i buf len offset ↔
      len ≤ s.field i .size - offset ∨ s.field i .size - offset ≤ blockSize - offset % blockSize := by
  have hrun : s.inodeRead i buf len offset =
      (readLoop i len s buf len offset 0 offset >>= fun r => .ok (r.1, r.2.1, (r.2.2 : ℤ))) := by
    rw [inodeRead, cassert_pos hmode, ok_bind, if_neg (by omega)]
    rfl
  have hslice (n : ℕ) : s.filled i buf offset 0 n =
      fun k => if k < n then s.fileByte i (offset + k) else buf k := by
    funext k
    simp only [filled, Nat.zero_le, Nat.zero_add, true_and]
  have hpos : offset % blockSize < blockSize := Nat.mod_lt _ (by decide)
  by_cases hlen : len ≤ s.field i .size - offset
  · refine ⟨fun _ => Or.inl hlen, fun _ => ?_⟩
    obtain ⟨t, ht, he⟩ := @readLoop_spec s i buf len offset 0 len le_rfl (by omega) fun k _ hk =>
      hmap _ ((Nat.div_mul_le_self k _).trans_lt (by omega))
    rw [Nat.add_zero, Nat.zero_add] at he
    exact ⟨t, ht, by rw [hrun, he, min_eq_left hlen, hslice, ok_bind]⟩
  · have hblock : offset / blockSize * blockSize < s.field i .size :=
      lt_of_le_of_lt (Nat.div_mul_le_self _ _) hoff
    obtain ⟨t, ht, he⟩ := @readLoop_past s i buf len offset (by omega) hoff (hmap _ hblock)
    have hmin : min len (s.field i .size - offset) = s.field i .size - offset := min_eq_right (by omega)
    constructor
    · rintro ⟨t', -, h⟩
      by_contra hc
      rw [hrun, he, if_neg (by omega), error_bind] at h
      cases h
    · intro h
      refine ⟨t, ht, ?_⟩
      rw [hrun, he, if_pos (by omega), hmin, hslice, ok_bind]

/-- A file of 1500 bytes in the zones 5 and 6; its inode is the first of block 2. -/
def pairFs : Fs :=
  let data (n : ℕ) : Bytes :=
    if n = 2 then listBytes [0xa4, 0x81, 0, 0, 0xdc, 0x05, 0, 0, 0, 0, 0, 0, 0, 1, 5, 0, 6, 0]
    else fun k => BitVec.ofNat 8 (n + k)
  { env :=
      { cache := ⟨data, data, fun _ => false, fun n => if n = 2 then 1 else 0⟩
        alloc := ⟨32, 64, 5, [], []⟩ }
    inode := fun i => if i = 0 then ⟨1, 1, 1, 2, 0⟩ else ⟨EOF, 0, 0, 0, 0⟩
    imapsDisk := []
    zmapsDisk := [] }

theorem pairFs_file : ISFILE (pairFs.field 0 .mode) ∧ pairFs.field 0 .size = 1500 ∧
    pairFs.zoneOf 0 0 = 5 ∧ pairFs.zoneOf 0 1 = 6 := by decide

theorem pairFs_mapped (block : ℕ) (h : block * blockSize < pairFs.field 0 .size) :
    pairFs.zoneOf 0 block ≠ 0 := by
  obtain ⟨-, hsize, h0, h1⟩ := pairFs_file
  rw [hsize] at h
  rcases (by norm_num at h; omega : block = 0 ∨ block = 1) with rfl | rfl
  · rw [h0]
    decide
  · rw [h1]
    decide

/-- 600 bytes from byte 1000 of that file. -/
theorem inodeRead_pair : pairFs.ReadsSlice 0 (BitVec.ofNat 8) 600 1000 ↔
    600 ≤ pairFs.field 0 .size - 1000 ∨ pairFs.field 0 .size - 1000 ≤ blockSize - 1000 % blockSize := by
  refine inodeRead_iff (Or.inl pairFs_file.1) ?_ pairFs_mapped
  rw [pairFs_file.2.1]
  decide

/-- That request is copied as 500 bytes from byte 1000 of the first block, of which 476 lie behind it. -/
theorem inodeRead_behind : ISFILE (pairFs.field 0 .mode) ∧
    (∀ block, block * blockSize < pairFs.field 0 .size → pairFs.zoneOf 0 block ≠ 0) ∧
    1000 < pairFs.field 0 .size ∧
    pairFs.inodeRead 0 (fun _ => 0#8) 600 1000 = .error (.wild "b_data") ∧
    ¬ pairFs.ReadsSlice 0 (fun _ => 0#8) 600 1000 := by
  obtain ⟨hfile, hsize, h0, -⟩ := pairFs_file
  have hrun : pairFs.inodeRead 0 (fun _ => 0#8) 600 1000 = .error (.wild "b_data") := by
    obtain ⟨t, -, he⟩ := @readLoop_past pairFs 0 (fun _ => 0#8) 600 1000 (by rw [hsize]; decide)
      (by rw [hsize]; decide) (pairFs_mapped 0 (by rw [hsize]; decide))
    rw [inodeRead, cassert_pos (Or.inl hfile), ok_bind, if_neg (by rw [hsize]; decide), he, hsize]
    rfl
  refine ⟨hfile, pairFs_mapped, by rw [hsize]; decide, hrun, ?_⟩
  rintro ⟨t, -, h⟩
  rw [hrun] at h
  cases h

end Rdix.Fs
