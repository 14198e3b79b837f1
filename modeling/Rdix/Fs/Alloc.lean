/-
  Zone and inode bitmaps (fs/minix1/bmap.c: balloc, bfree, ialloc, ifree).

  The bitmap of a device is a row of blocks.  `mapBit` and `mapPut` read and write a
  position of the row; `mapAlloc_spec` says that allocation takes the first clear
  position, and `mapFree_same`, `mapFree_split` what a release does when it looks for
  the number in the block that holds its bit, and when it looks in a later one.
-/
import Rdix.Kernel.Bitmap

namespace Rdix

/-- `BLOCK_SIZE`. -/
abbrev blockSize : ℕ := 1024

/-- `BLOCK_BITS`: the number of blocks that one bitmap block covers. -/
abbrev blockBits : ℕ := blockSize * 8

/-- The part of `buffer_t` a bitmap block uses. -/
structure Buf where
  b_data : Bytes
  b_dirty : Bool

/-- `super_block_t` with the fields of its `d_super_block`.  `read_super` fills exactly the first
    `imap_blocks` entries of `imaps` and the first `zmap_blocks` of `zmaps`. -/
structure Super where
  inodes : ℕ
  zones : ℕ
  firstdatazone : ℕ
  imaps : List Buf
  zmaps : List Buf

def Super.imap_blocks (sb : Super) : ℕ := sb.imaps.length

def Super.zmap_blocks (sb : Super) : ℕ := sb.zmaps.length

/-- The loop of `balloc` and `ialloc` from bitmap block `i` on: the new blocks and the number
    found, or nothing if `block_nr` stays `EOF`. -/
def mapAlloc (offset : ℕ → ℕ) (limit : ℕ) (exp : String) : ℕ → List Buf → C (Option (List Buf × ℕ))
  | _, [] => return none
  | i, buf :: rest => do
    let (map, nr) ← bitmapScan ⟨buf.b_data, blockSize, offset i⟩ 1
    if nr = EOF then
      return (← mapAlloc offset limit exp (i + 1) rest).map fun r => (buf :: r.1, r.2)
    else
      cassert (nr < limit) exp
      return some (⟨map.start, true⟩ :: rest, nr.toNat)

/-- The body of `bfree` and `ifree`. -/
def mapFree (offset : ℕ → ℕ) (limit : ℕ) (exp exp' : String) (maps : List Buf) (nr : ℕ) :
    C (List Buf) := do
  cassert (nr < limit) exp
  let bmap_nr := nr / blockBits
  let buf ← deref "buf" maps[bmap_nr]?
  let map : Bitmap := ⟨buf.b_data, blockSize, offset bmap_nr⟩
  cassert ((← bitmapTest map nr) = true) exp'
  let (map, _) ← bitmapSet map nr false
  return maps.set bmap_nr ⟨map.start, true⟩

/-- `BLOCK_BITS * i + sb->desc->firstdatazone - 1`, as a `u32`. -/
def Super.zoneOffset (sb : Super) (i : ℕ) : ℕ :=
  u32 (blockBits * i + sb.firstdatazone + (2 ^ 32 - 1))

def balloc (sb : Super) : C (Super × ℕ) := do
  match ← mapAlloc sb.zoneOffset sb.zones "block_nr < sb->desc->zones" 0 sb.zmaps with
  | none => .error (.assert "block_nr != EOF")
  | some (maps, nr) => return ({ sb with zmaps := maps }, nr)

def bfree (sb : Super) (block_nr : ℕ) : C Super := do
  let maps ← mapFree sb.zoneOffset sb.zones "block_nr < sb->desc->zones"
    "bitmap_test(&map, block_nr)" sb.zmaps block_nr
  return { sb with zmaps := maps }

/-- `none` is `EOF`: no inode is free. -/
def ialloc (sb : Super) : C (Option (Super × ℕ)) := do
  let r ← mapAlloc (blockBits * ·) sb.inodes "inode_nr < sb->desc->inodes" 0 sb.imaps
  return r.map fun (maps, nr) => ({ sb with imaps := maps }, nr)

def ifree (sb : Super) (inode_nr : ℕ) : C Super := do
  let maps ← mapFree (blockBits * ·) sb.inodes "inode_nr < sb->desc->inodes"
    "bitmap_test(&map, inode_nr)" sb.imaps inode_nr
  return { sb with imaps := maps }

/-! ## Positions in a row of bitmap blocks -/

/-- The bitmap of one block, as `bitmap_scan` and `bitmap_set` see it. -/
def Buf.map (b : Buf) : Bitmap := ⟨b.b_data, blockSize, 0⟩

/-- Bit `p` of a row of blocks; what lies behind the row counts as used. -/
def mapBit (maps : List Buf) (p : ℕ) : Bool :=
  match maps[p / blockBits]? with
  | some b => b.map.bit (p % blockBits)
  | none => true

/-- The row with bit `p` set to `s` and the block of that bit dirty. -/
def mapPut (maps : List Buf) (p : ℕ) (s : Bool) : List Buf :=
  maps.modify (p / blockBits) fun b => ⟨(b.map.put (p % blockBits) s).start, true⟩

@[simp] theorem mapPut_length (maps : List Buf) (p : ℕ) (s : Bool) :
    (mapPut maps p s).length = maps.length := by simp [mapPut]

theorem mapBit_put {maps : List Buf} {p : ℕ} (hp : p < blockBits * maps.length) (s : Bool)
    (q : ℕ) : mapBit (mapPut maps p s) q = if q = p then s else mapBit maps q := by
  have hlen : p / blockBits < maps.length := Nat.div_lt_of_lt_mul hp
  unfold mapBit mapPut
  rw [List.getElem?_modify]
  by_cases hb : p / blockBits = q / blockBits
  · obtain ⟨b, hmb⟩ : ∃ b, maps[q / blockBits]? = some b :=
      ⟨_, List.getElem?_eq_getElem (hb ▸ hlen)⟩
    simp only [hmb, if_pos hb, Option.map_eq_map, Option.map_some]
    rw [show Buf.map ⟨(b.map.put (p % blockBits) s).start, true⟩ = b.map.put (p % blockBits) s
      from rfl, Bitmap.bit_put]
    by_cases h : q = p
    · simp [h]
    · rw [if_neg h, if_neg]
      intro h'
      exact h (by rw [← Nat.div_add_mod q blockBits, ← Nat.div_add_mod p blockBits, h', hb])
  · rw [if_neg (by rintro rfl; exact hb rfl)]
    cases maps[q / blockBits]? <;> simp [hb]

/-- The contents of a row of blocks, without the dirty flags. -/
def mapData (maps : List Buf) : List Bytes := maps.map Buf.b_data

theorem mapData_put_put {maps : List Buf} {p : ℕ} (h : mapBit maps p = false) :
    mapData (mapPut (mapPut maps p true) p false) = mapData maps := by
  unfold mapData mapPut
  refine List.ext_getElem? fun i => ?_
  simp only [List.getElem?_map, List.getElem?_modify]
  by_cases hi : p / blockBits = i
  · subst hi
    unfold mapBit at h
    cases hb : maps[p / blockBits]? with
    | none => simp
    | some b =>
      rw [hb] at h
      have := Bitmap.put_put_false b.map h
      simp only [Option.map_eq_map, Option.map_some, if_true, Option.some.injEq]
      exact congrArg Bitmap.start this
  · simp only [if_neg hi]
    cases maps[i]? <;> rfl

/-! ## Allocation takes the first clear position -/

section Alloc
variable {offset : ℕ → ℕ} {limit : ℕ} {exp exp' : String}

/-- The offsets of the blocks from `i` on continue the numbering at `c`. -/
def Numbered (offset : ℕ → ℕ) (c i n : ℕ) : Prop := ∀ k < n, offset (i + k) = c + blockBits * k

theorem Numbered.tail {c i n : ℕ} (h : Numbered offset c i (n + 1)) :
    Numbered offset (c + blockBits) (i + 1) n := fun k hk => by
  rw [show i + 1 + k = i + (k + 1) by omega, h (k + 1) (by omega)]; ring

theorem mapBit_cons_zero {b : Buf} {rest : List Buf} {p : ℕ} (hp : p < blockBits) :
    mapBit (b :: rest) p = b.map.bit p := by
  simp [mapBit, Nat.div_eq_of_lt hp, Nat.mod_eq_of_lt hp]

theorem mapBit_cons_succ {b : Buf} {rest : List Buf} {p : ℕ} (hp : blockBits ≤ p) :
    mapBit (b :: rest) p = mapBit rest (p - blockBits) := by
  obtain ⟨q, rfl⟩ := Nat.exists_eq_add_of_le hp
  have h1 : (blockBits + q) / blockBits = q / blockBits + 1 := Nat.add_div_left q (by decide)
  have h2 : (blockBits + q) % blockBits = q % blockBits := Nat.add_mod_left blockBits q
  simp [mapBit, h1, h2]

theorem mapPut_cons_zero {b : Buf} {rest : List Buf} {p : ℕ} (hp : p < blockBits) (s : Bool) :
    mapPut (b :: rest) p s = ⟨(b.map.put p s).start, true⟩ :: rest := by
  simp [mapPut, Nat.div_eq_of_lt hp, Nat.mod_eq_of_lt hp]

theorem mapPut_cons_succ {b : Buf} {rest : List Buf} {p : ℕ} (hp : blockBits ≤ p) (s : Bool) :
    mapPut (b :: rest) p s = b :: mapPut rest (p - blockBits) s := by
  obtain ⟨q, rfl⟩ := Nat.exists_eq_add_of_le hp
  have h1 : (blockBits + q) / blockBits = q / blockBits + 1 := Nat.add_div_left q (by decide)
  have h2 : (blockBits + q) % blockBits = q % blockBits := Nat.add_mod_left blockBits q
  simp [mapPut, h1, h2]

/-- A scan for one clear bit in one block. -/
theorem blockScan_spec (b : Buf) {o : ℕ} (ho : o + blockBits < 2 ^ 31) :
    (∃ t < blockBits, b.map.bit t = false ∧ (∀ q < t, b.map.bit q = true) ∧
      bitmapScan ⟨b.b_data, blockSize, o⟩ 1 =
        .ok (⟨(b.map.put t true).start, blockSize, o⟩, (o + t : ℕ))) ∨
    ((∀ q < blockBits, b.map.bit q = true) ∧
      bitmapScan ⟨b.b_data, blockSize, o⟩ 1 = .ok (⟨b.b_data, blockSize, o⟩, EOF)) := by
  rcases @bitmapScan_spec ⟨b.b_data, blockSize, o⟩ 1 ho le_rfl with
    ⟨t, ht, hn, he⟩ | ⟨hn, he⟩
  · refine Or.inl ⟨t, ht.1, ht.2 t le_rfl (by omega), fun q hq => ?_, he⟩
    by_contra hb
    refine hn q hq ⟨by have := ht.1; omega, fun i h1 h2 => ?_⟩
    rw [show i = q by omega]
    exact Bool.not_eq_true _ ▸ hb
  · refine Or.inr ⟨fun q hq => ?_, he⟩
    by_contra hb
    refine hn q ⟨hq, fun i h1 h2 => ?_⟩
    rw [show i = q by omega]
    exact Bool.not_eq_true _ ▸ hb

/-- **Allocation finds the first clear position of the row**, and fails if its number is not below
    the limit. -/
theorem mapAlloc_cases : ∀ (maps : List Buf) (c i : ℕ), Numbered offset c i maps.length →
    c + blockBits * maps.length < 2 ^ 31 →
    (∃ p < blockBits * maps.length, mapBit maps p = false ∧ (∀ q < p, mapBit maps q = true) ∧
      mapAlloc offset limit exp i maps =
        if c + p < limit then .ok (some (mapPut maps p true, c + p)) else .error (.assert exp)) ∨
    ((∀ p < blockBits * maps.length, mapBit maps p = true) ∧
      mapAlloc offset limit exp i maps = .ok none)
  | [], c, i, _, _ => Or.inr ⟨fun p hp => by simp at hp, rfl⟩
  | b :: rest, c, i, hn, hc => by
    have hlen : blockBits * (b :: rest).length = blockBits + blockBits * rest.length := by
      simp only [List.length_cons]; ring
    rw [hlen] at hc ⊢
    have ho : offset i = c := by simpa using hn 0 (by simp)
    unfold mapAlloc
    rw [ho]
    rcases blockScan_spec b (o := c) (by omega) with ⟨t, ht, hb, hfst, he⟩ | ⟨hall, he⟩
    · refine Or.inl ⟨t, by omega, by rw [mapBit_cons_zero ht, hb], fun q hq => ?_, ?_⟩
      · rw [mapBit_cons_zero (by omega), hfst q hq]
      · have hne : ¬ ((c + t : ℕ) : ℤ) = EOF := fun h => by simp only [EOF] at h; omega
        rw [he]
        simp only [ok_bind, if_neg hne, pure_eq_ok, Int.toNat_natCast, mapPut_cons_zero ht]
        by_cases hlt : c + t < limit
        · rw [if_pos hlt, cassert_pos (by exact_mod_cast hlt), ok_bind]
        · rw [if_neg hlt, cassert_neg (by exact_mod_cast hlt), error_bind]
    · rw [he]
      simp only [ok_bind, if_true]
      rcases mapAlloc_cases rest (c + blockBits) (i + 1) hn.tail (by omega) with
        ⟨p, hp, hb, hfst, he'⟩ | ⟨hall', he'⟩
      · refine Or.inl ⟨blockBits + p, by omega, ?_, fun q hq => ?_, ?_⟩
        · rw [mapBit_cons_succ (by omega), Nat.add_sub_cancel_left]; exact hb
        · rcases Nat.lt_or_ge q blockBits with h | h
          · rw [mapBit_cons_zero h, hall q h]
          · rw [mapBit_cons_succ h, hfst _ (by omega)]
        · rw [he', mapPut_cons_succ (by omega), Nat.add_sub_cancel_left, ← Nat.add_assoc]
          split_ifs <;> rfl
      · refine Or.inr ⟨fun p hp => ?_, by rw [he']; simp⟩
        rcases Nat.lt_or_ge p blockBits with h | h
        · rw [mapBit_cons_zero h, hall p h]
        · rw [mapBit_cons_succ h, hall' _ (by omega)]

/-- Allocation where every clear position has a number below the limit. -/
theorem mapAlloc_spec (maps : List Buf) (c i : ℕ) (hn : Numbered offset c i maps.length)
    (hc : c + blockBits * maps.length < 2 ^ 31)
    (hlim : ∀ p < blockBits * maps.length, mapBit maps p = false → c + p < limit) :
    (∃ p < blockBits * maps.length, mapBit maps p = false ∧ (∀ q < p, mapBit maps q = true) ∧
      mapAlloc offset limit exp i maps = .ok (some (mapPut maps p true, c + p))) ∨
    ((∀ p < blockBits * maps.length, mapBit maps p = true) ∧
      mapAlloc offset limit exp i maps = .ok none) := by
  rcases @mapAlloc_cases offset limit exp maps c i hn hc with
    ⟨p, hp, hb, hfst, he⟩ | hfull
  · rw [if_pos (hlim p hp hb)] at he
    exact Or.inl ⟨p, hp, hb, hfst, he⟩
  · exact Or.inr hfull

/-! ## Release looks in the block `nr / BLOCK_BITS` -/

variable {maps : List Buf} {c nr : ℕ}

/-- A number whose bit is set in the block that the release looks at. -/
theorem mapFree_block {b : Buf} {p : ℕ} (hlim : nr < limit) (hb : maps[nr / blockBits]? = some b)
    (hnr : nr = offset (nr / blockBits) + p) (hp : p < blockBits)
    (hf : offset (nr / blockBits) + blockBits < 2 ^ 31) (hset : b.map.bit p = true) :
    mapFree offset limit exp exp' maps nr =
      .ok (maps.set (nr / blockBits) ⟨(b.map.put p false).start, true⟩) := by
  set m : Bitmap := ⟨b.b_data, blockSize, offset (nr / blockBits)⟩ with hm
  have hfits : m.Fits := hf
  have hbit : m.bit p = true := hset
  have htest : bitmapTest m nr = .ok true := by
    conv_lhs => rw [hnr]
    rw [bitmapTest_eq hfits hp, hbit]
  have hput : bitmapSet m nr false = .ok (m.put p false, 0) := by
    conv_lhs => rw [hnr]
    rw [bitmapSet_eq hfits hp, hbit]
    rfl
  unfold mapFree
  rw [cassert_pos hlim]
  simp only [ok_bind, hb, deref_some, ← hm, htest, cassert_pos, hput, pure_eq_ok]
  rfl

/-- A number whose bit is set, in the block that holds it: exactly that bit is cleared. -/
theorem mapFree_same (hn : Numbered offset c 0 maps.length)
    (hc : c + blockBits * maps.length < 2 ^ 31) (hlim : nr < limit) (hnr : c ≤ nr)
    (hin : nr - c < blockBits * maps.length) (hblk : nr / blockBits = (nr - c) / blockBits)
    (hset : mapBit maps (nr - c) = true) :
    mapFree offset limit exp exp' maps nr = .ok (mapPut maps (nr - c) false) := by
  have hi : (nr - c) / blockBits < maps.length := Nat.div_lt_of_lt_mul hin
  have hoff : offset (nr / blockBits) = c + blockBits * (nr / blockBits) := by
    rw [hblk]
    simpa using hn _ hi
  have hle : blockBits * ((nr - c) / blockBits) + blockBits ≤ blockBits * maps.length := by
    have := Nat.mul_le_mul_left blockBits hi
    rwa [Nat.mul_succ] at this
  obtain ⟨b, hb⟩ : ∃ b, maps[nr / blockBits]? = some b := ⟨_, List.getElem?_eq_getElem (hblk ▸ hi)⟩
  -- inside the block the number stands at its position modulo the block size
  have hpos : nr = offset (nr / blockBits) + (nr - c) % blockBits := by
    rw [hoff, hblk]
    have := Nat.div_add_mod (nr - c) blockBits
    omega
  have hbit : b.map.bit ((nr - c) % blockBits) = true := by
    rw [mapBit, ← hblk, hb] at hset
    exact hset
  rw [mapFree_block hlim hb hpos (Nat.mod_lt _ (by decide)) (by rw [hoff, hblk]; omega) hbit, mapPut,
    List.modify_eq_set_getElem?, ← hblk, hb]
  rfl

/-- A number whose bit lies in an earlier block than the one the release looks at: its
    assertion fails. -/
theorem mapFree_split (hn : Numbered offset c 0 maps.length) (hlim : nr < limit)
    (hnr : c ≤ nr) (hlen : nr / blockBits < maps.length)
    (hblk : nr / blockBits ≠ (nr - c) / blockBits) :
    mapFree offset limit exp exp' maps nr = .error (.assert "idx >= map->offset") := by
  have hoff : offset (nr / blockBits) = c + blockBits * (nr / blockBits) := by
    simpa using hn _ hlen
  have hlt : (nr - c) / blockBits < nr / blockBits :=
    lt_of_le_of_ne (Nat.div_le_div_right (Nat.sub_le _ _)) (Ne.symm hblk)
  have hbelow : nr < offset (nr / blockBits) := by
    rw [hoff]
    have := Nat.lt_mul_of_div_lt hlt (show 0 < blockBits by decide)
    rw [Nat.mul_comm] at this
    omega
  unfold mapFree
  rw [cassert_pos hlim]
  simp only [ok_bind, List.getElem?_eq_getElem hlen, deref_some]
  rw [bitmapTest_below hbelow]
  rfl

end Alloc

end Rdix
