/-
  Inodes in memory (fs/minix1/inode.c: iget, iput, inode_write, inode_truncate).

  The state is the mounted device as one task sees it, with nobody else running.  A pointer to an
  `m_inode` is its index in `inode_table`; `count` is a `u32`, and there is no room for 2^32
  references.  The bitmap blocks are the superblock's, which never releases them, so they stand
  outside the cache.
-/
import Rdix.Fs.Bmap

namespace Rdix

open ByteMem Function

/-- The mounted device; `imapsDisk` and `zmapsDisk` are what it holds in the blocks of the bitmaps. -/
structure Fs where
  env : Env Super
  inode : ℕ → MInode
  imapsDisk : List Bytes
  zmapsDisk : List Bytes

/-! ## The fields of `d_inode` -/

/-- `zone` has nine entries. -/
instance zoneNonempty : NeZero 9 := ⟨by decide⟩

inductive DField where
  | mode
  | uid
  | size
  | gid
  | nlinks
  | zone (k : Fin 9)

/-- The width of a field in bytes. -/
def DField.width : DField → ℕ
  | mode | uid | zone _ => 2
  | size => 4
  | gid | nlinks => 1

/-- Where a field stands in the 32 bytes of `d_inode`; `mtime` stands at 8. -/
def DField.off : DField → ℕ
  | mode => 0
  | uid => 2
  | size => 4
  | gid => 12
  | nlinks => 13
  | zone k => 14 + 2 * k

/-- `ISDIR`. -/
def ISDIR (mode : ℕ) : Prop := mode &&& 0o170000 = 0o040000

/-- `ISFILE`. -/
def ISFILE (mode : ℕ) : Prop := mode &&& 0o170000 = 0o100000

instance (mode : ℕ) : Decidable (ISDIR mode) := inferInstanceAs (Decidable (_ = _))

instance (mode : ℕ) : Decidable (ISFILE mode) := inferInstanceAs (Decidable (_ = _))

/-- The number in `w` bytes of block `n`. -/
def Cache.get (c : Cache) (n w off : ℕ) : ℕ := load (c.data n) w off

/-- Block `n` with `v` in `w` bytes. -/
def Cache.put (c : Cache) (n w off v : ℕ) : Cache :=
  { c with data := update c.data n (store (c.data n) w off v) }

/-- All buffers are written back. -/
def Cache.sync (c : Cache) : Cache :=
  { c with disk := fun n => if c.dirty n then c.data n else c.disk n, dirty := fun _ => false }

namespace Fs

def cache (s : Fs) : Cache := s.env.cache

/-- The superblock. -/
def sb (s : Fs) : Super := s.env.alloc

def mapCache (s : Fs) (f : Cache → Cache) : Fs := { s with env := { s.env with cache := f s.env.cache } }

def setSb (s : Fs) (sb : Super) : Fs := { s with env := { s.env with alloc := sb } }

def setInode (s : Fs) (i : ℕ) (e : MInode) : Fs := { s with inode := update s.inode i e }

@[simp] theorem mapCache_cache (s : Fs) (f : Cache → Cache) : (s.mapCache f).cache = f s.cache := rfl

@[simp] theorem mapCache_sb (s : Fs) (f : Cache → Cache) : (s.mapCache f).sb = s.sb := rfl

@[simp] theorem mapCache_inode (s : Fs) (f : Cache → Cache) : (s.mapCache f).inode = s.inode := rfl

@[simp] theorem setSb_cache (s : Fs) (sb : Super) : (s.setSb sb).cache = s.cache := rfl

@[simp] theorem setSb_sb (s : Fs) (sb : Super) : (s.setSb sb).sb = sb := rfl

@[simp] theorem setSb_inode (s : Fs) (sb : Super) : (s.setSb sb).inode = s.inode := rfl

/-- `bread(dev, n)`. -/
def bread (s : Fs) (n : ℕ) : Fs := s.mapCache (·.bread n)

def brelse (s : Fs) (n : ℕ) : Fs := s.mapCache (·.brelse n)

theorem brelse_data (s : Fs) (n : ℕ) : (s.brelse n).cache.data = s.cache.data := by
  rw [brelse, mapCache_cache, Cache.brelse_data]

@[simp] theorem brelse_sb (s : Fs) (n : ℕ) : (s.brelse n).sb = s.sb := by
  rw [brelse, mapCache_sb]

@[simp] theorem brelse_inode (s : Fs) (n : ℕ) : (s.brelse n).inode = s.inode := by
  rw [brelse, mapCache_inode]

/-- `brelse` of a pointer that may be `NULL`. -/
def brelse? (s : Fs) (b : Option ℕ) : Fs := s.mapCache (·.brelse? b)

/-- `b_dirty = true`. -/
def mark (s : Fs) (n : ℕ) : Fs := s.mapCache (·.mark n)

/-- A field of `inode->desc`. -/
def field (s : Fs) (i : ℕ) (f : DField) : ℕ :=
  s.cache.get (s.inode i).buf f.width ((s.inode i).slot * 32 + f.off)

def setField (s : Fs) (i : ℕ) (f : DField) (v : ℕ) : Fs :=
  s.mapCache (·.put (s.inode i).buf f.width ((s.inode i).slot * 32 + f.off) v)

/-- `inode->buf->b_dirty = true`. -/
def markInode (s : Fs) (i : ℕ) : Fs := s.mark (s.inode i).buf

/-- `bmap(inode, block, create)`. -/
def bmap (s : Fs) (i : ℕ) (block : ℤ) (create : Bool) : C (Fs × ℕ) := do
  let (e, z) ← Rdix.bmap balloc s.sb.zones s.env (s.inode i) block create
  return ({ s with env := e }, z)

def bfree (s : Fs) (z : ℕ) : C Fs := do return s.setSb (← Rdix.bfree s.sb z)

/-- `none` is `EOF`. -/
def ialloc (s : Fs) : C (Fs × Option ℕ) := do
  match ← Rdix.ialloc s.sb with
  | none => return (s, none)
  | some (sb, nr) => return (s.setSb sb, some nr)

def ifree (s : Fs) (nr : ℕ) : C Fs := do return s.setSb (← Rdix.ifree s.sb nr)

/-- `sync_dev`. -/
def syncDev (s : Fs) : Fs :=
  let written (maps : List Buf) (disk : List Bytes) : List Bytes :=
    List.zipWith (fun buf d => if buf.b_dirty then buf.b_data else d) maps disk
  let clean (maps : List Buf) : List Buf := maps.map fun buf => { buf with b_dirty := false }
  { (s.mapCache Cache.sync).setSb { s.sb with imaps := clean s.sb.imaps, zmaps := clean s.sb.zmaps } with
    imapsDisk := written s.sb.imaps s.imapsDisk
    zmapsDisk := written s.sb.zmaps s.zmapsDisk }

/-! ## The inode table -/

def findInode (s : Fs) (dev : ℤ) (nr : ℕ) : Option ℕ :=
  (List.range inodeNr).find? fun i => (s.inode i).dev = dev ∧ (s.inode i).nr = nr

def getFreeInode (s : Fs) : C ℕ :=
  match (List.range inodeNr).find? fun i => (s.inode i).dev = EOF with
  | some i => return i
  | none => throw (.panic "no more inode!!!")

/-- `inode_block`. -/
def inodeBlock (s : Fs) (nr : ℕ) : ℕ := 2 + s.sb.imap_blocks + s.sb.zmap_blocks + (nr - 1) / blockInodes

/-- The superblock of the device has been read. -/
def iget (s : Fs) (dev : ℤ) (nr : ℕ) : C (Fs × ℕ) := do
  cassert (0 < nr) "nr > 0"
  match s.findInode dev nr with
  | some i => return (s.setInode i { s.inode i with count := (s.inode i).count + 1 }, i)
  | none => do
    cassert (nr ≤ s.sb.inodes) "nr <= sb->desc->inodes"
    let i ← s.getFreeInode
    let block := s.inodeBlock nr
    return ((s.bread block).setInode i ⟨dev, nr, 1, block, (nr - 1) % blockInodes⟩, i)

def iput (s : Fs) (i : ℕ) : C Fs := do
  let inode := s.inode i
  cassert (0 < inode.count) "inode->count > 0"
  if 1 < inode.count then return s.setInode i { inode with count := inode.count - 1 }
  else return (s.brelse inode.buf).setInode i { inode with count := 0, dev := EOF }

/-- One reference less, or the entry is given back. -/
theorem iput_cases {s s' : Fs} {i : ℕ} (h : s.iput i = .ok s') : 0 < (s.inode i).count ∧
    (1 < (s.inode i).count ∧
      s' = s.setInode i { s.inode i with count := (s.inode i).count - 1 } ∨
    ¬ 1 < (s.inode i).count ∧
      s' = (s.brelse (s.inode i).buf).setInode i { s.inode i with count := 0, dev := EOF }) := by
  obtain ⟨hc, h⟩ := cassert_bind_eq_ok.1 h
  refine ⟨hc, ?_⟩
  split_ifs at h with h1
  · exact Or.inl ⟨h1, (Except.ok.inj h).symm⟩
  · exact Or.inr ⟨h1, (Except.ok.inj h).symm⟩

/-- `iput` of a pointer that may be `NULL`. -/
def iput? (s : Fs) (i : Option ℕ) : C Fs := do s.iput (← deref "inode" i)

/-! ## Truncation -/

/-- `inode_bfree`; the first argument is `level`. -/
def inodeBfree : ℕ → Fs → U16Ptr → ℕ → C Fs
  | 0, s, array, index => do
    let v ← s.env.get array index
    if v = 0 then return s else s.bfree v
  | level + 1, s, array, index => do
    let v ← s.env.get array index
    if v = 0 then return s
    else
      let s ← (List.range zonesIdxPerBlock).foldlM (fun s i => inodeBfree level s ⟨v, 0⟩ i) (s.bread v)
      let s := s.brelse v
      s.bfree (← s.env.get array index)

/-- The turns of `inode_truncate`: `index` of `zone` is released, at `level`, and set to 0. -/
def truncateZone (s : Fs) (i : ℕ) (index : Fin 9) (level : ℕ) : C Fs := do
  let s ← inodeBfree level s (s.inode i).zone index
  return s.setField i (.zone index) 0

def inodeTruncate (s : Fs) (i : ℕ) : C Fs :=
  if ¬ ISFILE (s.field i .mode) ∧ ¬ ISDIR (s.field i .mode) then return s
  else do
    let s ← (List.finRange 7).foldlM (fun s k => s.truncateZone i (k.castLE (by decide)) 0) s
    let s ← s.truncateZone i 7 1
    let s ← s.truncateZone i 8 2
    return (s.setField i .size 0).markInode i

/-! ## Writing -/

/-- `memcpy(b + off, buf, size)` inside a block. -/
def copyBytes (b : Bytes) (off : ℕ) (buf : ℕ → BitVec 8) (size : ℕ) : Bytes :=
  fun k => if off ≤ k ∧ k < off + size then buf (k - off) else b k

/-- The loop of `inode_write`; every turn writes at least one byte. -/
def writeLoop (i : ℕ) : ℕ → Fs → (ℕ → BitVec 8) → ℕ → ℕ → C (Fs × ℕ)
  | _, s, _, 0, _ => return (s, 0)
  | 0, _, _, _ + 1, _ => .error .loop
  | n + 1, s, buf, len + 1, offset => do
    let (s, block) ← s.bmap i (offset / blockSize : ℕ) true
    let pos := offset % blockSize
    let size := if blockSize - pos < len + 1 then blockSize - pos else len + 1
    let s := ((s.bread block).mapCache fun c =>
      { c with data := update c.data block (copyBytes (c.data block) pos buf size) }).mark block
    writeLoop i n (s.brelse block) (fun k => buf (k + size)) (len + 1 - size)
      ((offset / blockSize + 1) * blockSize)

/-- `len` is a `u32`, `offset` an `int` that is not negative. -/
def inodeWrite (s : Fs) (i : ℕ) (buf : ℕ → BitVec 8) (len offset : ℕ) : C (Fs × ℕ) := do
  cassert (¬ ISDIR (s.field i .mode)) "!ISDIR(inode->desc->mode)"
  let last := u32 (len + offset)
  let s := if s.field i .size < last then s.setField i .size last else s
  writeLoop i len s buf len offset

end Fs

end Rdix
