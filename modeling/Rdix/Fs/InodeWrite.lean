/-
  Writing a file (fs/minix1/inode.c: inode_write).

  * `BlockMap`: what the loop needs of `bmap`: distinct file blocks have distinct zones, a new zone
    is cleared, and nothing else is touched but the blocks in which the map is kept;
  * `BlockMap.turn`: one turn stores its part of the bytes;
  * `inodeWrite_stores`: a write stores exactly the given bytes, over every such block map;
  * `directMap`: the block map of the source is one for the seven direct blocks.
-/
import Rdix.Fs.Truncate
import Rdix.Fs.Zones

namespace Rdix

open ByteMem Function

/-! ## The code, over a block map -/

/-- `bread`, `memcpy(b_data + pos, buf, size)`, `b_dirty = true` and `brelse`. -/
def Fs.storeBytes (s : Fs) (block pos : ℕ) (buf : ℕ → BitVec 8) (size : ℕ) : Fs :=
  (((s.bread block).mapCache fun c =>
    { c with data := update c.data block (Fs.copyBytes (c.data block) pos buf size) }).mark block).brelse block

section StoreBytes
variable (s : Fs) (block pos : ℕ) (buf : ℕ → BitVec 8) (size : ℕ)

theorem Fs.storeBytes_data : (s.storeBytes block pos buf size).cache.data =
    update s.cache.data block (Fs.copyBytes (s.cache.data block) pos buf size) := by
  rw [Fs.storeBytes, Fs.brelse_data]
  rfl

theorem Fs.storeBytes_sb : (s.storeBytes block pos buf size).sb = s.sb := by
  simp [Fs.storeBytes, Fs.brelse, Fs.mark, Fs.bread]

theorem Fs.storeBytes_inode : (s.storeBytes block pos buf size).inode = s.inode := by
  simp [Fs.storeBytes, Fs.brelse, Fs.mark, Fs.bread]

end StoreBytes

/-- The loop of `inode_write`; `bm` is `bmap(inode, block, true)`. -/
def writeLoopWith (bm : Fs → ℕ → C (Fs × ℕ)) :
    ℕ → Fs → (ℕ → BitVec 8) → ℕ → ℕ → C (Fs × ℕ)
  | _, s, _, 0, _ => return (s, 0)
  | 0, _, _, _ + 1, _ => .error .loop
  | n + 1, s, buf, len + 1, offset => do
    let (s, block) ← bm s (offset / blockSize)
    let pos := offset % blockSize
    let size := if blockSize - pos < len + 1 then blockSize - pos else len + 1
    writeLoopWith bm n (s.storeBytes block pos buf size) (fun k => buf (k + size)) (len + 1 - size)
      ((offset / blockSize + 1) * blockSize)

/-- `inode_write` over a block map. -/
def inodeWriteWith (bm : Fs → ℕ → C (Fs × ℕ)) (s : Fs) (i : ℕ) (buf : ℕ → BitVec 8)
    (len offset : ℕ) : C (Fs × ℕ) := do
  cassert (¬ ISDIR (s.field i .mode)) "!ISDIR(inode->desc->mode)"
  let last := u32 (len + offset)
  let s := if s.field i .size < last then s.setField i .size last else s
  writeLoopWith bm len s buf len offset

theorem writeLoop_eq (i n : ℕ) (s : Fs) (buf : ℕ → BitVec 8) (len offset : ℕ) :
    Fs.writeLoop i n s buf len offset =
      writeLoopWith (fun s n => s.bmap i n true) n s buf len offset := by
  induction n generalizing s buf len offset with
  | zero => cases len <;> rfl
  | succ n ih =>
    cases len with
    | zero => rfl
    | succ len =>
      rw [Fs.writeLoop, writeLoopWith]
      simp only [ih]
      rfl

/-- `inode_write` with the block map of the source. -/
theorem inodeWrite_eq (s : Fs) (i : ℕ) (buf : ℕ → BitVec 8) (len offset : ℕ) :
    s.inodeWrite i buf len offset = inodeWriteWith (fun s n => s.bmap i n true) s i buf len offset := by
  simp only [Fs.inodeWrite, inodeWriteWith, writeLoop_eq]

/-! ## What a block map promises -/

/-- What a call for file block `n` has done that returned the zone `z`. -/
structure MapCall (zone : Fs → ℕ → ℕ) (kept : Fs → Set ℕ) (i n : ℕ) (s s' : Fs) (z : ℕ) : Prop where
  ne : z ≠ 0
  found : zone s' n = z
  old : zone s n ≠ 0 → z = zone s n
  others : ∀ m ≠ n, zone s' m = zone s m
  fresh : zone s n = 0 → s'.cache.data z = fun _ => 0#8
  frame : ∀ b, b ∉ kept s' → zone s n ≠ 0 ∨ b ≠ z → s'.cache.data b = s.cache.data b
  grows : kept s ⊆ kept s'
  inode : s'.inode = s.inode
  size : s'.field i .size = s.field i .size

/-- A block map for inode `i`: `zone` is the zone of a file block, 0 if there is none, and `kept` are
    the blocks that hold the inode and the map itself. -/
structure BlockMap (i : ℕ) where
  bmap : Fs → ℕ → C (Fs × ℕ)
  zone : Fs → ℕ → ℕ
  kept : Fs → Set ℕ
  Inv : Fs → Prop
  limit : ℕ
  limit_lt : limit * blockSize < 2 ^ 31
  buf_mem : ∀ s, Inv s → (s.inode i).buf ∈ kept s
  apart : ∀ s n, Inv s → n < limit → zone s n ≠ 0 → zone s n ∉ kept s
  inj : ∀ s n m, Inv s → n < limit → m < limit → zone s n ≠ 0 → zone s n = zone s m → n = m
  call : ∀ s n s' z, Inv s → n < limit → bmap s n = .ok (s', z) →
    Inv s' ∧ MapCall zone kept i n s s' z
  /-- the map does not depend on the size of the file -/
  resize : ∀ s v, Inv s → Inv (s.setField i .size v) ∧ zone (s.setField i .size v) = zone s ∧
    kept (s.setField i .size v) = kept s
  /-- nor on the data of the file -/
  store : ∀ s s' n d, Inv s → n < limit → zone s n ≠ 0 →
    s'.cache.data = update s.cache.data (zone s n) d → s'.sb = s.sb → s'.inode = s.inode →
    Inv s' ∧ zone s' = zone s ∧ kept s' = kept s

namespace BlockMap

variable {i : ℕ} (M : BlockMap i)

/-- Byte `k` of the file; what is not mapped reads as 0. -/
def byte (s : Fs) (k : ℕ) : BitVec 8 :=
  if M.zone s (k / blockSize) = 0 then 0#8 else s.cache.data (M.zone s (k / blockSize)) (k % blockSize)

/-- The bytes from `offset` to `offset + len` are those of `buf`, in mapped blocks, and nothing else
    has changed but what the map keeps for itself. -/
structure Put (s s' : Fs) (buf : ℕ → BitVec 8) (len offset : ℕ) : Prop where
  inv : M.Inv s'
  bytes : ∀ k < M.limit * blockSize, M.byte s' k =
    if offset ≤ k ∧ k < offset + len then buf (k - offset) else M.byte s k
  mapped : ∀ k, offset ≤ k → k < offset + len → M.zone s' (k / blockSize) ≠ 0
  keep : ∀ n, M.zone s n ≠ 0 → M.zone s' n = M.zone s n
  frame : ∀ b, b ∉ M.kept s' →
    (∀ k, offset ≤ k → k < offset + len → M.zone s' (k / blockSize) ≠ b) →
    s'.cache.data b = s.cache.data b
  grows : M.kept s ⊆ M.kept s'
  inode : s'.inode = s.inode
  size : s'.field i .size = s.field i .size

section Put
variable {M} {s s₁ s₂ : Fs} {buf : ℕ → BitVec 8} {m n offset : ℕ}

theorem Put.refl (h : M.Inv s) : M.Put s s buf 0 offset where
  inv := h
  bytes k _ := (if_neg (by omega)).symm
  mapped k h1 h2 := by omega
  keep _ _ := rfl
  frame _ _ _ := rfl
  grows := subset_rfl
  inode := rfl
  size := rfl

/-- Two adjacent ranges. -/
theorem Put.trans (h : M.Put s s₁ buf m offset)
    (h' : M.Put s₁ s₂ (fun k => buf (k + m)) n (offset + m)) : M.Put s s₂ buf (m + n) offset where
  inv := h'.inv
  bytes k hk := by
    rw [h'.bytes k hk, h.bytes k hk]
    by_cases h1 : offset + m ≤ k ∧ k < offset + m + n
    · rw [if_pos h1, if_pos (by omega)]
      congr 1
      omega
    · rw [if_neg h1]
      by_cases h2 : offset ≤ k ∧ k < offset + m
      · rw [if_pos h2, if_pos (by omega)]
      · rw [if_neg h2, if_neg (by omega)]
  mapped k h1 h2 := by
    by_cases h3 : k < offset + m
    · have h0 := h.mapped k h1 h3
      rw [h'.keep _ h0]
      exact h0
    · exact h'.mapped k (by omega) (by omega)
  keep b h0 := by
    have h1 := h.keep b h0
    rw [h'.keep b (h1 ▸ h0), h1]
  frame b hb hk := by
    have hb₁ : b ∉ M.kept s₁ := fun h1 => hb (h'.grows h1)
    rw [h'.frame b hb fun k h1 h2 => hk k (by omega) (by omega)]
    refine h.frame b hb₁ fun k h1 h2 => ?_
    rw [← h'.keep _ (h.mapped k h1 h2)]
    exact hk k h1 (by omega)
  grows := h.grows.trans h'.grows
  inode := h'.inode.trans h.inode
  size := h'.size.trans h.size

/-- The bytes that a copy leaves alone and those it writes. -/
theorem copyBytes_apply (b : Bytes) (pos : ℕ) (buf : ℕ → BitVec 8) (size k : ℕ) :
    Fs.copyBytes b pos buf size k = if pos ≤ k ∧ k < pos + size then buf (k - pos) else b k := rfl

/-- **One turn stores its part of the bytes.** -/
theorem turn {z size : ℕ} (hI : M.Inv s) (hn : offset / blockSize < M.limit)
    (hc : M.bmap s (offset / blockSize) = .ok (s₁, z)) (hpos : 0 < size)
    (hfit : offset % blockSize + size ≤ blockSize) :
    M.Put s (s₁.storeBytes z (offset % blockSize) buf size) buf size offset := by
  obtain ⟨hI₁, h⟩ := M.call s _ s₁ z hI hn hc
  obtain ⟨d, hd⟩ : ∃ d, d = Fs.copyBytes (s₁.cache.data z) (offset % blockSize) buf size := ⟨_, rfl⟩
  have hdata : (s₁.storeBytes z (offset % blockSize) buf size).cache.data = update s₁.cache.data z d := by
    rw [hd, Fs.storeBytes_data]
  have hz : M.zone s₁ (offset / blockSize) ≠ 0 := by
    rw [h.found]
    exact h.ne
  have hz' := M.apart s₁ _ hI₁ hn hz
  rw [h.found] at hz'
  obtain ⟨hI₂, hzone, hkept⟩ := M.store s₁ (s₁.storeBytes z (offset % blockSize) buf size) _ d hI₁ hn hz
    (by rw [hdata, h.found]) (Fs.storeBytes_sb ..) (Fs.storeBytes_inode ..)
  -- the range lies in one file block
  have hrange (k : ℕ) (h1 : offset ≤ k) (h2 : k < offset + size) : k / blockSize = offset / blockSize := by
    norm_num at hfit ⊢
    omega
  constructor
  · exact hI₂
  · intro k hk
    have hkn : k / blockSize < M.limit := Nat.div_lt_of_lt_mul (by rwa [Nat.mul_comm])
    unfold byte
    rw [hzone, hdata]
    by_cases hb : k / blockSize = offset / blockSize
    · rw [hb, h.found, if_neg h.ne, update_self, hd, copyBytes_apply]
      have hin : (offset % blockSize ≤ k % blockSize ∧ k % blockSize < offset % blockSize + size) ↔
          offset ≤ k ∧ k < offset + size := by
        norm_num at hb hfit ⊢
        omega
      by_cases hr : offset ≤ k ∧ k < offset + size
      · rw [if_pos hr, if_pos (hin.2 hr)]
        congr 1
        norm_num at hb ⊢
        omega
      · rw [if_neg hr, if_neg fun h' => hr (hin.1 h')]
        by_cases h0 : M.zone s (offset / blockSize) = 0
        · rw [if_pos h0, h.fresh h0]
        · rw [if_neg h0, ← h.old h0, h.frame z hz' (Or.inl h0)]
    · have hr : ¬ (offset ≤ k ∧ k < offset + size) := fun h' => hb (hrange k h'.1 h'.2)
      rw [if_neg hr, h.others _ hb]
      by_cases h0 : M.zone s (k / blockSize) = 0
      · rw [if_pos h0, if_pos h0]
      · have h1 : M.zone s₁ (k / blockSize) ≠ 0 := by rwa [h.others _ hb]
        have hne : M.zone s (k / blockSize) ≠ z := by
          intro he
          refine hb (M.inj s₁ _ _ hI₁ hkn hn h1 ?_)
          rw [h.others _ hb, h.found, he]
        have hout := M.apart s₁ _ hI₁ hkn h1
        rw [h.others _ hb] at hout
        rw [if_neg h0, if_neg h0, update_of_ne hne, h.frame _ hout (Or.inr hne)]
  · intro k h1 h2
    rw [hzone, hrange k h1 h2]
    exact hz
  · intro n h0
    rw [hzone]
    by_cases hb : n = offset / blockSize
    · subst hb
      rw [h.found, h.old h0]
    · exact h.others n hb
  · intro b hb hk
    rw [hkept] at hb
    have hbz : b ≠ z := by
      intro he
      refine hk offset le_rfl (by omega) ?_
      rw [hzone, h.found, he]
    rw [hdata, update_of_ne hbz]
    exact h.frame b hb (Or.inr hbz)
  · rw [hkept]
    exact h.grows
  · rw [Fs.storeBytes_inode]
    exact h.inode
  · rw [← h.size, Fs.field, Fs.field, Fs.storeBytes_inode]
    have hbuf : (s₁.inode i).buf ≠ z := by
      rintro rfl
      exact hz' (M.buf_mem s₁ hI₁)
    have hfield : ((s₁.storeBytes z (offset % blockSize) buf size).cache.data (s₁.inode i).buf) =
        s₁.cache.data (s₁.inode i).buf := by
      rw [hdata, update_of_ne hbuf]
    exact congrArg (load · 4 _) hfield

/-- The errors of the block map. -/
def Fails (h : Halt) : Prop := ∃ s n, M.Inv s ∧ n < M.limit ∧ M.bmap s n = .error h

/-- **The loop of `inode_write`.** -/
theorem loop {fuel len : ℕ} (hfuel : len ≤ fuel) (hI : M.Inv s)
    (hlen : offset + len ≤ M.limit * blockSize) :
    Ends (writeLoopWith M.bmap fuel s buf len offset) (fun r => M.Put s r.1 buf len offset) M.Fails := by
  induction fuel generalizing s buf len offset with
  | zero =>
    obtain rfl : len = 0 := Nat.le_zero.1 hfuel
    exact (ends_ok _).2 (.refl hI)
  | succ fuel ih =>
    cases len with
    | zero => exact (ends_ok _).2 (.refl hI)
    | succ len =>
      have hpos : offset % blockSize < blockSize := Nat.mod_lt _ (by decide)
      have hn : offset / blockSize < M.limit :=
        Nat.div_lt_of_lt_mul (by rw [Nat.mul_comm]; omega)
      rw [writeLoopWith]
      cases hc : M.bmap s (offset / blockSize) with
      | error e => exact (ends_error e).2 ⟨s, _, hI, hn, hc⟩
      | ok r =>
        obtain ⟨s₁, z⟩ := r
        rw [ok_bind]
        dsimp only
        generalize hsize : (if blockSize - offset % blockSize < len + 1 then blockSize - offset % blockSize
          else len + 1) = size
        have hcases : size = len + 1 ∧ offset % blockSize + size ≤ blockSize ∨
            size < len + 1 ∧ offset % blockSize + size = blockSize ∧ 0 < size := by
          split_ifs at hsize <;> omega
        have hput : M.Put s (s₁.storeBytes z (offset % blockSize) buf size) buf size offset :=
          turn hI hn hc (by omega) (by omega)
        rcases hcases with ⟨rfl, -⟩ | ⟨hlt, hend, -⟩
        · -- the last turn
          rw [Nat.sub_self]
          cases fuel <;> exact (ends_ok _).2 hput
        · have hnext : (offset / blockSize + 1) * blockSize = offset + size := by
            have := Nat.div_add_mod offset blockSize
            rw [Nat.mul_comm] at this
            rw [Nat.add_mul]
            omega
          rw [hnext]
          refine (ih (by omega) hput.inv (by omega)).imp fun r hr => ?_
          have := hput.trans hr
          rwa [Nat.add_sub_cancel' hlt.le] at this

end Put

/-- What a write has done: the bytes from `offset` to `offset + len` are those of `buf`, every other
    byte of the file is as before, or 0 in a new block, the data of no other zone have changed, and the
    size is that of the longer of both. -/
structure Stored (s s' : Fs) (buf : ℕ → BitVec 8) (len offset : ℕ) : Prop where
  bytes : ∀ k < M.limit * blockSize, M.byte s' k =
    if offset ≤ k ∧ k < offset + len then buf (k - offset) else M.byte s k
  mapped : ∀ k, offset ≤ k → k < offset + len → M.zone s' (k / blockSize) ≠ 0
  keep : ∀ n, M.zone s n ≠ 0 → M.zone s' n = M.zone s n
  frame : ∀ b, b ∉ M.kept s' →
    (∀ k, offset ≤ k → k < offset + len → M.zone s' (k / blockSize) ≠ b) →
    s'.cache.data b = s.cache.data b
  size : s'.field i .size = max (s.field i .size) (offset + len)

section Stores
variable {M} {s : Fs} {buf : ℕ → BitVec 8} {len offset last : ℕ}

/-- The state in which the loop starts: only the size may have grown. -/
theorem resized (hI : M.Inv s) (hlast : last < 2 ^ 32) :
    ∃ s₀, (if s.field i .size < last then s.setField i .size last else s) = s₀ ∧ M.Inv s₀ ∧
      M.zone s₀ = M.zone s ∧ M.kept s₀ = M.kept s ∧ s₀.field i .size = max (s.field i .size) last ∧
      ∀ b ∉ M.kept s, s₀.cache.data b = s.cache.data b := by
  by_cases h : s.field i .size < last
  · obtain ⟨hI₀, hzone, hkept⟩ := M.resize s last hI
    refine ⟨_, if_pos h, hI₀, hzone, hkept, ?_, fun b hb => ?_⟩
    · rw [Fs.field_setField, max_eq_right h.le]
      exact Nat.mod_eq_of_lt hlast
    · have hne : b ≠ (s.inode i).buf := by
        rintro rfl
        exact hb (M.buf_mem s hI)
      exact update_of_ne hne ..
  · exact ⟨_, if_neg h, hI, rfl, rfl, (max_eq_left (not_lt.1 h)).symm, fun _ _ => rfl⟩

/-- **`inode_write`.** -/
theorem write (hI : M.Inv s) (hmode : ISFILE (s.field i .mode))
    (hlen : offset + len ≤ M.limit * blockSize) :
    Ends (inodeWriteWith M.bmap s i buf len offset) (fun r => M.Stored s r.1 buf len offset) M.Fails := by
  have hdir : ¬ ISDIR (s.field i .mode) := by
    intro h
    exact absurd (hmode.symm.trans h) (by decide)
  have hlimit := M.limit_lt
  have hlast : u32 (len + offset) = offset + len := by
    rw [Nat.add_comm]
    exact u32_of_lt (by omega)
  unfold inodeWriteWith
  rw [cassert_pos hdir, ok_bind, hlast]
  obtain ⟨s₀, hs₀, hI₀, hzone, hkept, hsize, hdata⟩ := @resized i M s (offset + len) hI (by omega)
  dsimp only
  rw [hs₀]
  refine (loop le_rfl hI₀ hlen).imp fun r hr => ⟨fun k hk => ?_, hr.mapped, ?_, fun b hb hk => ?_, ?_⟩
  · have hbyte : M.byte s₀ k = M.byte s k := by
      have hkn : k / blockSize < M.limit := Nat.div_lt_of_lt_mul (by rwa [Nat.mul_comm])
      unfold byte
      rw [hzone]
      by_cases h0 : M.zone s (k / blockSize) = 0
      · rw [if_pos h0, if_pos h0]
      · rw [if_neg h0, if_neg h0, hdata _ (M.apart s _ hI hkn h0)]
    rw [hr.bytes k hk, hbyte]
  · rw [← hzone]
    exact hr.keep
  · rw [hr.frame b hb hk]
    refine hdata b fun h => hb (hr.grows ?_)
    rwa [hkept]
  · rw [hr.size, hsize]

end Stores

end BlockMap

/-- **A write to a regular file stores exactly the given bytes**, for every block map, or halts where
    the block map does. -/
theorem inodeWrite_stores {i : ℕ} (M : BlockMap i) {s : Fs} (buf : ℕ → BitVec 8) {len offset : ℕ}
    (hI : M.Inv s) (hmode : ISFILE (s.field i .mode)) (hlen : offset + len ≤ M.limit * blockSize) :
    (∃ s' r, inodeWriteWith M.bmap s i buf len offset = .ok (s', r) ∧ M.Stored s s' buf len offset) ∨
    ∃ h, M.Fails h ∧ inodeWriteWith M.bmap s i buf len offset = .error h := by
  have hends : Ends (inodeWriteWith M.bmap s i buf len offset)
      (fun r => M.Stored s r.1 buf len offset) M.Fails := BlockMap.write hI hmode hlen
  cases he : inodeWriteWith M.bmap s i buf len offset with
  | ok r => exact Or.inl ⟨r.1, r.2, rfl, hends.value r he⟩
  | error h => exact Or.inr ⟨h, hends.halt h he, rfl⟩

/-! ## The direct blocks -/

/-- What the block map of the source needs for the direct blocks: the inode stands before the data
    zones, and its zones are distinct data zones in use. -/
structure DirectInv (i : ℕ) (s : Fs) : Prop where
  slot : (s.inode i).slot < blockInodes
  zmap : s.sb.ZmapOk
  zones : 7 ≤ s.sb.zones
  buf : (s.inode i).buf < s.sb.firstdatazone
  used : ∀ n < 7, s.cache.top (s.inode i) n ≠ 0 →
    s.sb.firstdatazone ≤ s.cache.top (s.inode i) n ∧ s.sb.zoneUsed (s.cache.top (s.inode i) n) = true
  distinct : ∀ n < 7, ∀ m < 7, s.cache.top (s.inode i) n ≠ 0 →
    s.cache.top (s.inode i) n = s.cache.top (s.inode i) m → n = m

section Direct
variable {s s' : Fs} {i n z : ℕ}

/-- The invariant reads the zones and the bitmap only. -/
theorem DirectInv.congr (h : DirectInv i s) (hsb : s'.sb = s.sb) (hi : s'.inode = s.inode)
    (htop : s'.cache.top (s.inode i) = s.cache.top (s.inode i)) : DirectInv i s' := by
  obtain ⟨h1, h2, h3, h4, h5, h6⟩ := h
  refine ⟨by rwa [hi], by rwa [hsb], by rwa [hsb], by rwa [hi, hsb], ?_, ?_⟩
  · rw [hi, hsb, htop]
    exact h5
  · rw [hi, htop]
    exact h6

/-- Zone `z` has been taken for the direct block `n`. -/
structure ZoneTaken (s : Fs) (i n z : ℕ) (s' : Fs) : Prop where
  first : s.sb.firstdatazone ≤ z
  lt : z < s.sb.zones
  pos : s.sb.zonePos z < blockBits * s.sb.zmaps.length
  free : s.sb.zoneUsed z = false
  sb : s'.sb = s.sb.putZone z true
  inode : s'.inode = s.inode
  data : s'.cache.data = update (update s.cache.data (s.inode i).buf
    (setU16 (s.cache.data (s.inode i).buf) ((s.inode i).slot * 16 + 7 + n) z)) z fun _ => 0#8

section Ensure
variable {A : Type} {balloc : A → C (A × ℕ)} {e e' : Env A} {array : U16Ptr} {index buf v : ℕ}

theorem ensureZone_old (hv : e.get array index = .ok v) (h0 : v ≠ 0) :
    ensureZone balloc true e array index buf = .ok (e, v) := by
  simp [ensureZone, hv, h0]

theorem ensureZone_new (h0 : e.get array index = .ok 0)
    (hc : createZone balloc e array index buf = .ok e') (hv : e'.get array index = .ok v) :
    ensureZone balloc true e array index buf = .ok (e', v) := by
  simp [ensureZone, h0, hc, hv]

theorem ensureZone_full {h : Halt} (h0 : e.get array index = .ok 0)
    (hc : createZone balloc e array index buf = .error h) :
    ensureZone balloc true e array index buf = .error h := by
  simp [ensureZone, h0, hc]

/-- A new zone: its number is written into the array, and it is cleared. -/
theorem createZone_ok {a : A} {z : ℕ} (hb : balloc e.alloc = .ok (a, z)) (hz : z < 2 ^ 16) :
    ∃ c, createZone balloc e array index buf = .ok ⟨c, a⟩ ∧
      c.data = update (update e.cache.data array.blk
        (setU16 (e.cache.data array.blk) (array.off + index) z)) z fun _ => 0#8 := by
  have htmp : (e.cache.setWord array.blk (array.off + index) z).word array.blk (array.off + index) = z := by
    rw [Cache.word_setWord, if_pos ⟨rfl, rfl⟩, Nat.mod_eq_of_lt hz]
  refine ⟨_, by rw [createZone, hb]; rfl, ?_⟩
  rw [htmp, Cache.mark_data, Cache.brelse_data]
  rfl

end Ensure

/-- A call for a direct block finds its zone, or takes a new one, or finds the disk full. -/
theorem bmap_direct (h : DirectInv i s) (hn : n < 7) :
    (s.cache.top (s.inode i) n ≠ 0 ∧ s.bmap i n true = .ok (s, s.cache.top (s.inode i) n)) ∨
    (s.cache.top (s.inode i) n = 0 ∧
      ((∃ s' z, s.bmap i n true = .ok (s', z) ∧ ZoneTaken s i n z s') ∨
        (∀ z, s.sb.zoneUsed z = true) ∧ s.bmap i n true = .error diskFull)) := by
  obtain ⟨hslot, hzmap, hzones, hbuf, -, -⟩ := h
  have hassert : (0 : ℤ) ≤ n ∧ (n : ℤ) < s.sb.zones := by omega
  have hoff : (s.inode i).zone.off + n < zonesIdxPerBlock := by
    norm_num [MInode.zone] at hslot ⊢
    omega
  have hget (e : Env Super) : e.get (s.inode i).zone n = .ok (e.cache.top (s.inode i) n) := if_pos hoff
  have hrun : s.bmap i n true = (ensureZone balloc true s.env (s.inode i).zone n (s.inode i).buf >>=
      fun r => .ok ({ s with env := r.1 }, r.2)) := by
    unfold Fs.bmap Rdix.bmap
    simp only [cassert_pos hassert, ok_bind, Int.toNat_natCast, if_pos hn, bmapReckon, pure_eq_ok,
      bind_assoc]
    rfl
  rw [hrun]
  by_cases h0 : s.cache.top (s.inode i) n = 0
  · refine Or.inr ⟨h0, ?_⟩
    have hget0 : s.env.get (s.inode i).zone n = .ok 0 := (hget s.env).trans (congrArg _ h0)
    rcases balloc_spec hzmap with ⟨z, h1, h2, h3, h4, he⟩ | ⟨hall, he⟩
    · left
      have hz16 : z < 2 ^ 16 := h2.trans hzmap.zones_u16
      obtain ⟨c, hc, hd⟩ := @createZone_ok _ balloc s.env (s.inode i).zone n (s.inode i).buf _ z he hz16
      have hdata : ({ s with env := ⟨c, s.sb.putZone z true⟩ } : Fs).cache.data = update (update
          s.cache.data (s.inode i).buf (setU16 (s.cache.data (s.inode i).buf)
            ((s.inode i).slot * 16 + 7 + n) z)) z fun _ => 0#8 := hd
      have htop : c.top (s.inode i) n = z := by
        have hne : (s.inode i).buf ≠ z := by omega
        have hword : c.data (s.inode i).buf = setU16 (s.cache.data (s.inode i).buf)
            ((s.inode i).slot * 16 + 7 + n) z := by
          rw [hd, update_of_ne hne]
          exact update_self ..
        unfold Cache.top Cache.word MInode.zone
        dsimp only
        rw [hword, getU16_setU16, if_pos rfl, Nat.mod_eq_of_lt hz16]
      refine ⟨{ s with env := ⟨c, s.sb.putZone z true⟩ }, z, ?_, h1, h2, h3, h4, rfl, rfl, hdata⟩
      rw [ensureZone_new hget0 hc ((hget _).trans (congrArg _ htop))]
      rfl
    · right
      have hc : createZone balloc s.env (s.inode i).zone n (s.inode i).buf = .error diskFull := by
        have he' : balloc s.env.alloc = .error diskFull := he
        rw [createZone, he']
        rfl
      refine ⟨hall, ?_⟩
      rw [ensureZone_full hget0 hc]
      rfl
  · exact Or.inl ⟨h0, by rw [ensureZone_old (hget s.env) h0]; rfl⟩

/-- The zones after a new one has been taken: only the entry of block `n` has changed. -/
theorem ZoneTaken.top (h : ZoneTaken s i n z s') (hI : DirectInv i s) (m : ℕ) :
    s'.cache.top (s.inode i) m = if m = n then z else s.cache.top (s.inode i) m := by
  have hne : (s.inode i).buf ≠ z := by
    have := hI.buf
    have := h.first
    omega
  have hword : s'.cache.data (s.inode i).buf = setU16 (s.cache.data (s.inode i).buf)
      ((s.inode i).slot * 16 + 7 + n) z := by
    rw [h.data, update_of_ne hne, update_self]
  have hz : z < 2 ^ 16 := h.lt.trans hI.zmap.zones_u16
  unfold Cache.top Cache.word MInode.zone
  dsimp only
  rw [hword, getU16_setU16, Nat.mod_eq_of_lt hz]
  by_cases hm : m = n
  · rw [if_pos hm, if_pos (by rw [hm])]
  · rw [if_neg hm, if_neg (by omega)]

theorem ZoneTaken.inv (h : ZoneTaken s i n z s') (hI : DirectInv i s) : DirectInv i s' := by
  have hinode : s'.inode i = s.inode i := by rw [h.inode]
  have hfresh (m : ℕ) (hm : m < 7) (h0 : s.cache.top (s.inode i) m ≠ 0) : s.cache.top (s.inode i) m ≠ z := by
    rintro rfl
    have := (hI.used m hm h0).2
    rw [h.free] at this
    cases this
  refine ⟨?_, ?_, ?_, ?_, fun m hm h0 => ?_, fun m hm k hk h0 he => ?_⟩
  · rw [hinode]
    exact hI.slot
  · rw [h.sb]
    exact hI.zmap.putZone h.first h.lt h.pos
  · rw [h.sb]
    exact hI.zones
  · rw [hinode, h.sb]
    exact hI.buf
  · rw [hinode, h.top hI] at h0 ⊢
    rw [h.sb, zoneUsed_putZone h.pos]
    split_ifs at h0 ⊢ with hmn hpos hpos
    · exact ⟨h.first, rfl⟩
    · exact absurd rfl hpos
    · exact ⟨(hI.used m hm h0).1, rfl⟩
    · exact hI.used m hm h0
  · rw [hinode, h.top hI] at h0 he
    rw [h.top hI] at he
    split_ifs at h0 he with h1 h2 h2
    · rw [h1, h2]
    · exact absurd he.symm (hfresh k hk (he ▸ h0))
    · exact absurd he (hfresh m hm h0)
    · exact hI.distinct m hm k hk h0 he

theorem ZoneTaken.mapCall (h : ZoneTaken s i n z s') (hI : DirectInv i s) (hn : n < 7)
    (h0 : s.cache.top (s.inode i) n = 0) :
    MapCall (fun s => s.cache.top (s.inode i)) (fun s => {(s.inode i).buf}) i n s s' z := by
  have hinode : s'.inode i = s.inode i := by rw [h.inode]
  have hne : (s.inode i).buf ≠ z := by
    have := hI.buf
    have := h.first
    omega
  constructor
  · have := hI.zmap.first_pos
    have := h.first
    omega
  · rw [hinode, h.top hI, if_pos rfl]
  · exact fun h' => absurd h0 h'
  · intro m hm
    rw [hinode, h.top hI, if_neg hm]
  · intro _
    rw [h.data, update_self]
  · rintro b hb (h' | h')
    · exact absurd h0 h'
    · have hb' : b ≠ (s.inode i).buf := by
        rw [← hinode]
        exact hb
      rw [h.data, update_of_ne h', update_of_ne hb']
  · rw [hinode]
  · exact h.inode
  · -- the size stands before the zones
    unfold Fs.field Cache.get
    rw [hinode, h.data, update_of_ne hne, update_self]
    exact load_store_of_disjoint (Or.inl (by simp only [DField.off, DField.width]; omega))

end Direct

/-- **The block map of the source, for the direct blocks of inode `i`.** -/
def directMap (i : ℕ) : BlockMap i where
  bmap s n := s.bmap i n true
  zone s := s.cache.top (s.inode i)
  kept s := {(s.inode i).buf}
  Inv := DirectInv i
  limit := 7
  limit_lt := by decide
  buf_mem _ _ := rfl
  apart s n h hn h0 := by
    have h1 := (h.used n hn h0).1
    have h2 := h.buf
    rw [Set.mem_singleton_iff]
    omega
  inj s n m h hn hm := h.distinct n hn m hm
  call s n s' z h hn hc := by
    rcases bmap_direct h hn with ⟨h0, he⟩ | ⟨h0, ⟨s₁, z₁, he, ht⟩ | ⟨-, he⟩⟩
    · rw [he] at hc
      cases hc
      exact ⟨h, h0, rfl, fun _ => rfl, fun _ _ => rfl, fun h' => absurd h' h0, fun _ _ _ => rfl,
        subset_rfl, rfl, rfl⟩
    · rw [he] at hc
      cases hc
      exact ⟨ht.inv h, ht.mapCall h hn h0⟩
    · rw [he] at hc
      cases hc
  resize s v h := by
    have htop : (s.setField i .size v).cache.top (s.inode i) = s.cache.top (s.inode i) :=
      funext fun m => Fs.top_setSize s m v
    exact ⟨h.congr rfl rfl htop, htop, rfl⟩
  store s s' n d h hn h0 hd hsb hi := by
    have hne : (s.inode i).buf ≠ s.cache.top (s.inode i) n := by
      have h1 := (h.used n hn h0).1
      have h2 := h.buf
      omega
    have htop : s'.cache.top (s.inode i) = s.cache.top (s.inode i) := by
      funext m
      unfold Cache.top Cache.word MInode.zone
      rw [hd, update_of_ne hne]
    refine ⟨h.congr hsb hi htop, ?_, ?_⟩
    · rw [hi, htop]
    · rw [hi]

/-- A write to the first seven blocks of a file, with the block map of the source: it stores the given
    bytes, or the disk is full. -/
theorem inodeWrite_direct {s : Fs} {i : ℕ} {buf : ℕ → BitVec 8} {len offset : ℕ} (hI : DirectInv i s)
    (hmode : ISFILE (s.field i .mode)) (hlen : offset + len ≤ 7 * blockSize) :
    Ends (s.inodeWrite i buf len offset) (fun r => (directMap i).Stored s r.1 buf len offset)
      (· = diskFull) := by
  rw [inodeWrite_eq]
  have h : Ends (inodeWriteWith (directMap i).bmap s i buf len offset)
      (fun r => (directMap i).Stored s r.1 buf len offset) (directMap i).Fails :=
    BlockMap.write (M := directMap i) hI hmode hlen
  refine ⟨h.value, fun e he => ?_⟩
  obtain ⟨t, n, ht, hn, hc⟩ := h.halt e he
  have hc' : t.bmap i n true = .error e := hc
  rcases bmap_direct ht hn with ⟨-, hd⟩ | ⟨-, ⟨t', z, hd, -⟩ | ⟨-, hd⟩⟩
  · rw [hd] at hc'
    cases hc'
  · rw [hd] at hc'
    cases hc'
  · rw [hd] at hc'
    exact (Except.error.inj hc').symm

/-- An empty file on a device of ten blocks with the zones 3 to 9, all free. -/
def emptyFs : Fs where
  env :=
    { cache := ⟨fun b => wordBytes fun w => if b = 2 ∧ w = 0 then 0o100644 else 0, fun b =>
        wordBytes fun w => if b = 2 ∧ w = 0 then 0o100644 else 0, fun _ => false, fun _ => 0⟩
      alloc := freshSb }
  inode := fun i => if i = 0 then ⟨1, 1, 1, 2, 0⟩ else ⟨EOF, 0, 0, 0, 0⟩
  imapsDisk := []
  zmapsDisk := []

theorem emptyFs_top (n : ℕ) : emptyFs.cache.top (emptyFs.inode 0) n = 0 := by
  refine (getU16_wordBytes _ _).trans ?_
  have hoff : (emptyFs.inode 0).zone = ⟨2, 7⟩ := rfl
  rw [hoff, if_neg fun h => absurd h.2 (by dsimp only; omega)]
  rfl

theorem emptyFs_inv : DirectInv 0 emptyFs where
  slot := by decide
  zmap := freshSb_ok
  zones := by decide
  buf := by decide
  used n _ h0 := absurd (emptyFs_top n) h0
  distinct n _ m _ h0 := absurd (emptyFs_top n) h0

/-- 1500 bytes at byte 1000 of that file. -/
theorem inodeWrite_empty :
    (∃ s' r, inodeWriteWith (directMap 0).bmap emptyFs 0 (BitVec.ofNat 8) 1500 1000 = .ok (s', r) ∧
      (directMap 0).Stored emptyFs s' (BitVec.ofNat 8) 1500 1000) ∨
    ∃ h, (directMap 0).Fails h ∧
      inodeWriteWith (directMap 0).bmap emptyFs 0 (BitVec.ofNat 8) 1500 1000 = .error h := by
  refine inodeWrite_stores (directMap 0) (BitVec.ofNat 8) emptyFs_inv ?_ (by decide)
  decide

end Rdix
