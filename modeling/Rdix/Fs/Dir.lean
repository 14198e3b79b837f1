/-
  Directories and paths (fs/minix1/namei.c: _match .. filename).

  A `char *` into a path is the rest of the path from there on; a `dir_entry *` is a block and the
  number of the entry in it.  `find_entry` and `add_entry` count the entries of the whole directory,
  but look at `dentry[i]` in the block: from the 65th entry on they read behind the block.
-/
import Rdix.Fs.Inode

namespace Rdix

open ByteMem Function

/-! ## Path strings -/

/-- A character of a string. -/
abbrev Chr := { b : BitVec 8 // b ≠ 0#8 }

/-- The characters of a NUL-terminated string. -/
abbrev CStr := List Chr

/-- `IS_SEPARATOR`: a slash or a backslash. -/
def isSeparator (ch : Chr) : Bool := ch.val = 0x2f#8 ∨ ch.val = 0x5c#8

/-- `next_name`; `none` is `NULL`. -/
def nextName : CStr → Option CStr
  | [] => none
  | c :: cs =>
    let path := if isSeparator c then cs else c :: cs
    some (path.dropWhile fun ch => !isSeparator ch).tail

/-- The loop of `filename`, with its variables; `next` gets shorter. -/
def lastName : ℕ → CStr → CStr → CStr
  | 0, prev, _ => prev
  | _ + 1, prev, [] => prev
  | n + 1, _, c :: cs => lastName n (c :: cs) ((nextName (c :: cs)).getD [])

/-- `filename`; `none` is `NULL`. -/
def filename (path : CStr) : C (Option CStr) := do
  let next ← deref "next" (nextName path)
  match lastName next.length path next with
  | [] => return none
  | c :: cs =>
    let prev := if isSeparator c then cs else c :: cs
    return if prev = [] then none else some prev

/-- `vaild_file_name`. -/
def vaildFileName (fname : CStr) : Bool := fname.all fun ch => !isSeparator ch

/-- `_match` of a name with the entry name at `off`. -/
def entryMatch (b : Bytes) : CStr → ℕ → C Bool
  | [], off => if off < blockSize then return b off = 0#8 else throw (.wild "entry_name")
  | c :: cs, off =>
    if off < blockSize then
      if b off ≠ 0#8 ∧ c.val = b off then entryMatch b cs (off + 1)
      else return b off = 0#8 ∧ isSeparator c
    else throw (.wild "entry_name")

/-- `strncpy(b + off, src, count)`: at most `count - 1` characters and a NUL. -/
def strncpy (b : Bytes) (off : ℕ) : CStr → ℕ → Bytes
  | c :: cs, count + 2 => strncpy (update b off c.val) (off + 1) cs (count + 1)
  | _, _ => update b off 0#8

/-! ## Directory entries -/

/-- `BLOCK_DENTRYS`. -/
abbrev blockDentrys : ℕ := 64

/-- `NAME_LEN`. -/
abbrev nameLen : ℕ := 14

namespace Fs

/-- `dentry[i].inode` in the buffer of block `b`. -/
def dentry (s : Fs) (b i : ℕ) : C ℕ :=
  if i < blockDentrys then return s.cache.get b 2 (16 * i) else throw (.wild "dentry")

/-- `res->inode = nr`, stored as a `u16`. -/
def setDentry (s : Fs) (res : ℕ × ℕ) (nr : ℕ) : Fs := s.mapCache (·.put res.1 2 (16 * res.2) nr)

/-- `strncpy(dentry[i].name, name, NAME_LEN)` in the buffer of block `b`. -/
def setName (s : Fs) (b i : ℕ) (name : CStr) : C Fs :=
  if i < blockDentrys then
    return s.mapCache fun c =>
      { c with data := update c.data b (strncpy (c.data b) (16 * i + 2) name nameLen) }
  else throw (.wild "dentry")

/-- The variables of the loop of `find_entry`. -/
structure FindVars where
  zone_idx : ℕ
  block : ℕ
  buf : Option ℕ

/-- The first `if` of the loop: the next block of the directory. -/
def nextZone (s : Fs) (i : ℕ) (v : FindVars) : C (Fs × FindVars) :=
  if (v.zone_idx + 1) * blockDentrys ≤ i then do
    cassert (v.zone_idx + 1 < 7) "++zone_idx < 7"
    cassert (v.buf ≠ none) "buf"
    return (s.brelse? v.buf, ⟨v.zone_idx + 1, 0, none⟩)
  else return (s, v)

/-- The second one: `block` is looked up if it is 0. -/
def zoneBlock (s : Fs) (dir i block : ℕ) : C (Fs × ℕ) :=
  if block = 0 then s.bmap dir (i / blockDentrys : ℕ) false else return (s, block)

/-- The third one: `buf` is read if it is `NULL`. -/
def readOnce (s : Fs) (block : ℕ) : Option ℕ → Fs × ℕ
  | none => (s.bread block, block)
  | some buf => (s, buf)

/-- Entry `i` of the buffer is in use, and its name matches. -/
def hit (s : Fs) (buf i : ℕ) (name : CStr) : C Bool := do
  let nr ← s.dentry buf i
  if nr = 0 then return false else entryMatch (s.cache.data buf) name (16 * i + 2)

/-- The loop of `find_entry` from `i` on; the first argument is the number of entries left. -/
def findLoop (dir : ℕ) (name : CStr) : ℕ → ℕ → Fs → FindVars → C (Fs × Option (ℕ × ℕ))
  | 0, _, s, _ => return (s, none)
  | n + 1, i, s, v => do
    let (s, v) ← s.nextZone i v
    let (s, block) ← s.zoneBlock dir i v.block
    cassert (block ≠ 0) "block"
    let (s, buf) := s.readOnce block v.buf
    let found ← s.hit buf i name
    if found then return (s, some (buf, i))
    else findLoop dir name n (i + 1) s ⟨v.zone_idx, block, some buf⟩

/-- `find_entry`: `*res`, whose block is the buffer that is returned; `none` is `NULL`. -/
def findEntry (s : Fs) (dir : ℕ) (name : Option CStr) : C (Fs × Option (ℕ × ℕ)) := do
  cassert (ISDIR (s.field dir .mode)) "ISDIR(dir->desc->mode)"
  match name with
  | none => return (s, none)
  | some name => findLoop dir name (s.field dir .size / 16) 0 s ⟨0, 0, none⟩

/-- The variables of the loop of `add_entry`. -/
structure AddVars where
  bf : Option ℕ
  zone_idx : ℕ
  block : ℕ

/-- What the loop of `add_entry` ends with. -/
structure AddRes where
  s : Fs
  i : ℕ
  bf : Option ℕ
  res : Option (ℕ × ℕ)

/-- The third `if` of the loop: the next block of the directory. -/
def addZone (s : Fs) (dir entry_cnt i : ℕ) (v : AddVars) : C (Fs × AddVars) :=
  if v.zone_idx ≤ i / zonesIdxPerBlock then do
    let (s, block) ← s.bmap dir (i / zonesIdxPerBlock : ℕ) (i = entry_cnt)
    return (s.bread block, ⟨some block, v.zone_idx + 1, block⟩)
  else return (s, v)

/-- The loop of `add_entry` from `i` on; the first argument is the number of turns left. -/
def addLoop (dir entry_cnt : ℕ) : ℕ → ℕ → Fs → AddVars → C AddRes
  | 0, i, s, v => return ⟨s, i, v.bf, none⟩
  | n + 1, i, s, v => do
    let (s, v) ← (s.brelse? v.bf).addZone dir entry_cnt i v
    cassert (v.block ≠ 0) "block"
    let b ← deref "dentry" v.bf
    let nr ← s.dentry b (i % zonesIdxPerBlock)
    if nr = 0 then return ⟨s, i, v.bf, some (b, i)⟩
    else addLoop dir entry_cnt n (i + 1) s v

/-- `add_entry`: the buffer that is returned, and `*res`. -/
def addEntry (s : Fs) (dir : ℕ) (name : Option CStr) : C (Fs × ℕ × Option (ℕ × ℕ)) := do
  cassert (ISDIR (s.field dir .mode)) "ISDIR(dir->desc->mode)"
  let fname ← deref "fname" name
  cassert (vaildFileName fname = true) "vaild_file_name(name)"
  let (s, found) ← s.findEntry dir name
  match found with
  | some (b, i) => return (s, b, some (b, i))
  | none => do
    let entry_cnt := s.field dir .size / 16
    let r ← addLoop dir entry_cnt (entry_cnt + 1) 0 s ⟨none, 0, 0⟩
    let b ← deref "bf" r.bf
    let s ← r.s.setName b (r.i % zonesIdxPerBlock) fname
    return (((s.mark b).setField dir .size ((r.i + 1) * 16)).markInode dir, b, r.res)

/-! ## Resolution -/

end Fs

/-- The fields of `TCB_t` that the system calls on paths use. -/
structure FsTask where
  i_root : ℕ
  i_pwd : ℕ
  uid : ℕ
  gid : ℕ
  umask : ℕ

namespace Fs

/-- The loop of `_namei` from `node` and `ptr` on; `ptr` gets shorter. -/
def nameiLoop (dorc : Bool) : ℕ → Fs → ℕ → CStr → C (Fs × Option ℕ)
  | _, s, node, [] => return (s, some node)
  | 0, _, _, _ :: _ => throw .loop
  | n + 1, s, node, c :: cs => do
    cassert (ISDIR (s.field node .mode)) "ISDIR(node->desc->mode)"
    let (s, bf) ← s.findEntry node (some (c :: cs))
    let ptr := (nextName (c :: cs)).getD []
    if ptr = [] ∧ dorc = false then return (s, some node)
    else
      match bf with
      | none => return (← s.iput node, none)
      | some (b, i) => do
        let dev := (s.inode node).dev
        let s ← s.iput node
        let nr ← s.dentry b i
        let (s, node) ← s.iget dev nr
        nameiLoop dorc n (s.brelse b) node ptr

/-- `++node->count`. -/
def incCount (s : Fs) (i : ℕ) : Fs :=
  s.setInode i { s.inode i with count := (s.inode i).count + 1 }

/-- `_namei`; `none` is `NULL`. -/
def _namei (s : Fs) (task : FsTask) (pathname : CStr) (dorc : Bool) : C (Fs × Option ℕ) :=
  match pathname with
  | [] => return (s, none)
  | c :: cs =>
    if isSeparator c then nameiLoop dorc cs.length (s.incCount task.i_root) task.i_root cs
    else nameiLoop dorc (cs.length + 1) (s.incCount task.i_pwd) task.i_pwd (c :: cs)

def namei (s : Fs) (task : FsTask) (pathname : CStr) : C (Fs × Option ℕ) := s._namei task pathname true

end Fs

end Rdix
