/-
  System calls on paths (fs/minix1/namei.c: sys_mkdir .. inode_open, sys_chdir).

  One task runs, and nobody else.
-/
import Rdix.Fs.Dir

namespace Rdix

open ByteMem Function

/-- `O_CREAT`, `O_TRUNC` and `O_ACCMODE`. -/
abbrev oCreat : ℕ := 0o100

abbrev oTrunc : ℕ := 0o1000

abbrev oAccmode : ℕ := 0o3

/-- `IFREG`, `IFDIR` and `ISVTX`. -/
abbrev ifreg : ℕ := 0o100000

abbrev ifdir : ℕ := 0o040000

abbrev isvtx : ℕ := 0o1000

/-- `mode & 0777 & ~umask`. -/
def permBits (mode umask : ℕ) : ℕ := mode &&& 0o777 &&& (0xFFFF - umask)

namespace Fs

/-- `res->inode` for a pointer that may be `NULL`. -/
def setRes (s : Fs) (res : Option (ℕ × ℕ)) (nr : ℕ) : C Fs := do
  return s.setDentry (← deref "res" res) nr

/-- `res->inode = ialloc(dir->dev)`, then `iget(dir->dev, res->inode)`; `EOF` is stored as 65535. -/
def newInode (s : Fs) (dir : ℕ) (res : Option (ℕ × ℕ)) : C (Fs × ℕ) := do
  let (s, nr) ← s.ialloc
  let s ← s.setRes res (nr.getD 0xFFFF)
  let (b, i) ← deref "res" res
  let nr ← s.dentry b i
  s.iget (s.inode dir).dev nr

/-- The entries of a new directory. -/
def dotEntries (s : Fs) (b nr parent : ℕ) : Fs :=
  let dots (c : Cache) (i : ℕ) (n : ℕ) : Cache :=
    { c with data := update c.data b (fun k =>
      if 16 * i + 2 ≤ k ∧ k < 16 * i + 2 + n then 0x2e#8
      else if k = 16 * i + 2 + n then 0#8 else c.data b k) }
  let s := s.mapCache fun c => dots c 0 1
  let s := s.setDentry (b, 0) nr
  let s := s.mapCache fun c => dots c 1 2
  s.setDentry (b, 1) parent

def sysMkdir (s : Fs) (task : FsTask) (pathname : CStr) (mode : ℕ) : C (Fs × ℤ) := do
  let childname ← filename pathname
  let (s, dir) ← s._namei task pathname false
  match dir with
  | none => throw (.panic "path not exist\n")
  | some dir => do
    cassert (ISDIR (s.field dir .mode)) "ISDIR(dir->desc->mode)"
    let (s, found) ← s.findEntry dir childname
    match found with
    | some _ => throw (.panic "file or directory is existing\n")
    | none => do
      let (s, bf, res) ← s.addEntry dir childname
      let (s, childnode) ← s.newInode dir res
      let s := (s.mark bf).markInode childnode
      let s := s.setField childnode .gid task.gid
      let s := s.setField childnode .uid task.uid
      let s := s.setField childnode .mode (permBits mode task.umask ||| ifdir)
      let s := s.setField childnode .size 32
      let s := s.setField childnode .nlinks 2
      let s := s.markInode dir
      let s := s.setField dir .nlinks (s.field dir .nlinks + 1)
      let s := s.brelse bf
      let (s, block) ← s.bmap childnode 0 true
      let s := (s.bread block).mark block
      let s := s.dotEntries block (s.inode childnode).nr (s.inode dir).nr
      let s ← s.iput dir
      let s ← s.iput childnode
      return (s.syncDev.brelse block, 0)

/-! ## Removing a directory -/

/-- The first `if` in the loop of `dir_is_empty`: the next block. -/
def emptyZone (s : Fs) (dir i zone_cnt : ℕ) (bf : Option ℕ) : C (Fs × ℕ × Option ℕ) :=
  if zone_cnt * blockDentrys ≤ i then do
    let (s, block) ← s.bmap dir zone_cnt false
    return ((s.brelse? bf).bread block, zone_cnt + 1, some block)
  else return (s, zone_cnt, bf)

/-- The loop of `dir_is_empty` from `i` on: the number of entries in use, and the last buffer. -/
def emptyLoop (dir : ℕ) : ℕ → ℕ → Fs → ℕ → Option ℕ → ℕ → C (Fs × Option ℕ × ℕ)
  | 0, _, s, _, bf, count => return (s, bf, count)
  | n + 1, i, s, zone_cnt, bf, count => do
    let (s, zone_cnt, bf) ← s.emptyZone dir i zone_cnt bf
    let b ← deref "entry" bf
    let nr ← s.dentry b (i % blockDentrys)
    if nr ≠ 0 then emptyLoop dir n (i + 1) s zone_cnt bf (count + 1)
    else if i = 0 ∨ i = 1 then throw (.panic "bad directory\n")
    else emptyLoop dir n (i + 1) s zone_cnt bf count

def dirIsEmpty (s : Fs) (dir : ℕ) : C (Fs × Bool) := do
  cassert (ISDIR (s.field dir .mode)) "ISDIR(dir->desc->mode)"
  let entries := s.field dir .size / 16
  if entries < 2 ∨ s.field dir (.zone 0) = 0 then throw (.panic "bad directory\n")
  else do
    let (s, bf, count) ← emptyLoop dir entries 0 s 0 none 0
    let b ← deref "bf" bf
    return (s.brelse b, count = 2)

/-- `sys_rmdir` behind its first two tests, for the entry it has found. -/
def rmdirEntry (s : Fs) (task : FsTask) (dir : ℕ) (res : ℕ × ℕ) : C (Fs × ℤ) := do
  let nr ← s.dentry res.1 res.2
  let (s, node) ← s.iget (s.inode dir).dev nr
  if ¬ ISDIR (s.field node .mode) then return (s, EOF)
  else if s.field dir .mode &&& isvtx ≠ 0 ∧ task.uid ≠ s.field node .uid then return (s, EOF)
  else if (s.inode dir).dev ≠ (s.inode node).dev ∨ 1 < (s.inode node).count then return (s, EOF)
  else do
    let (s, empty) ← s.dirIsEmpty node
    if empty = false then return (s, EOF)
    else do
      cassert (s.field node .nlinks = 2) "node->desc->nlinks == 2"
      let s ← s.inodeTruncate node
      let s ← s.ifree (s.inode node).nr
      let s := (s.setField node .nlinks 0).markInode node
      let s := s.setInode node { s.inode node with nr := 0 }
      let s := (s.setField dir .nlinks (s.field dir .nlinks + 255)).markInode dir
      cassert (2 ≤ s.field dir .nlinks) "dir->desc->nlinks >= 2"
      let s := (s.setDentry res 0).mark res.1
      let s ← s.iput dir
      let s ← s.iput node
      return (s.brelse res.1, 0)

def sysRmdir (s : Fs) (task : FsTask) (pathname : CStr) : C (Fs × ℤ) := do
  let childname ← filename pathname
  let (s, dir) ← s._namei task pathname false
  -- a path with a last component goes to `rollback`
  if childname ≠ none then
    match dir with
    | none => return (s, EOF)
    | some dir => return (← s.iput dir, EOF)
  else
    match dir with
    | none => return (s, EOF)
    | some dir => do
      let (s, bf) ← s.findEntry dir childname
      match bf with
      | none => return (s, EOF)
      | some res => s.rmdirEntry task dir res

/-! ## Links -/

/-- `rollback` of `sys_link` and `sys_unlink`. -/
def rollback (s : Fs) (buf inode dir : Option ℕ) (ret : ℤ) : C (Fs × ℤ) := do
  let s := s.brelse? buf
  let s ← s.iput? inode
  let s ← s.iput? dir
  return (s, ret)

def sysLink (s : Fs) (task : FsTask) (oldname newname : CStr) : C (Fs × ℤ) := do
  let (s, inode) ← s.namei task oldname
  match inode with
  | none => s.rollback none none none EOF
  | some inode =>
    if ISDIR (s.field inode .mode) then s.rollback none inode none EOF
    else do
      let fname ← filename newname
      let (s, dir) ← s._namei task newname false
      match dir with
      | none => s.rollback none inode none EOF
      | some dir =>
        if fname = none then s.rollback none inode dir EOF
        else if (s.inode dir).dev ≠ (s.inode inode).dev then s.rollback none inode dir EOF
        else do
          let (s, found) ← s.findEntry dir fname
          match found with
          | some (buf, _) => s.rollback buf inode dir EOF
          | none => do
            let (s, buf, entry) ← s.addEntry dir fname
            let s ← s.setRes entry (s.inode inode).nr
            let s := s.mark buf
            let s := (s.setField inode .nlinks (s.field inode .nlinks + 1)).markInode inode
            s.rollback buf inode dir 0

/-- The last `if` of `sys_unlink`: a file without links is freed. -/
def freeUnlinked (s : Fs) (inode : ℕ) : C Fs :=
  if s.field inode .nlinks = 0 then do
    let s ← s.inodeTruncate inode
    s.ifree (s.inode inode).nr
  else return s

/-- `sys_unlink` from the entry it has found on. -/
def unlinkEntry (s : Fs) (task : FsTask) (dir : ℕ) (entry : ℕ × ℕ) : C (Fs × ℤ) := do
  let nr ← s.dentry entry.1 entry.2
  let (s, inode) ← s.iget (s.inode dir).dev nr
  if ISDIR (s.field inode .mode) then s.rollback entry.1 inode dir EOF
  else if s.field inode .mode &&& isvtx ≠ 0 ∧ task.uid ≠ s.field inode .uid then
    s.rollback entry.1 inode dir EOF
  else if s.field inode .nlinks = 0 then throw (.panic "deleting non exists file (%04x:%d)\n")
  else do
    let s := (s.setDentry entry 0).mark entry.1
    let s := (s.setField inode .nlinks (s.field inode .nlinks + 255)).markInode inode
    let s ← s.freeUnlinked inode
    s.rollback entry.1 inode dir 0

def sysUnlink (s : Fs) (task : FsTask) (pathname : CStr) : C (Fs × ℤ) := do
  let (s, dir) ← s._namei task pathname false
  match dir with
  | none => s.rollback none none none EOF
  | some dir => do
    let fname ← filename pathname
    let (s, buf) ← s.findEntry dir fname
    match buf with
    | none => s.rollback none none dir EOF
    | some entry => s.unlinkEntry task dir entry

/-! ## Opening -/

/-- `rollback` of `inode_open`. -/
def openRollback (s : Fs) (buf dir inode : Option ℕ) : C (Fs × Option ℕ) := do
  let s := s.brelse? buf
  let s ← s.iput? dir
  match inode with
  | none => return (s, none)
  | some inode => return (← s.iput inode, none)

/-- `if (flag & O_TRUNC)`. -/
def openTruncate (s : Fs) (flag inode : ℕ) : C Fs :=
  if flag &&& oTrunc ≠ 0 then s.inodeTruncate inode else return s

/-- `makeup` of `inode_open`. -/
def openMakeup (s : Fs) (flag : ℕ) (buf dir inode : ℕ) : C (Fs × Option ℕ) :=
  if ISDIR (s.field inode .mode) ∧ flag &&& oAccmode ≠ 0 then s.openRollback buf dir inode
  else do
    let s ← s.openTruncate flag inode
    let s ← (s.brelse buf).iput dir
    return (s, some inode)

/-- `inode_open` for a file that does not exist: the buffer and the new inode. -/
def openCreate (s : Fs) (task : FsTask) (dir : ℕ) (fname : Option CStr) (mode : ℕ) :
    C (Fs × ℕ × ℕ) := do
  let (s, buf, entry) ← s.addEntry dir fname
  let (s, inode) ← s.newInode dir entry
  let s := (s.mark buf).setField inode .uid task.uid
  let s := s.setField inode .gid task.gid
  let s := s.setField inode .mode (permBits mode task.umask ||| ifreg)
  let s := s.setField inode .size 0
  let s := s.setField inode .nlinks 1
  return (s.markInode inode, buf, inode)

def inodeOpen (s : Fs) (task : FsTask) (pathname : CStr) (flag mode : ℕ) : C (Fs × Option ℕ) := do
  let fname ← filename pathname
  let (s, dir) ← s._namei task pathname false
  match dir with
  | none => s.openRollback none none none
  | some dir =>
    if fname = none then return (s, some dir)
    else do
      let (s, buf) ← s.findEntry dir fname
      match buf with
      | some (b, i) => do
        let nr ← s.dentry b i
        let (s, inode) ← s.iget (s.inode dir).dev nr
        s.openMakeup flag b dir inode
      | none =>
        if flag &&& oCreat = 0 then s.openRollback none dir none
        else do
          let (s, buf, inode) ← s.openCreate task dir fname mode
          s.openMakeup flag buf dir inode

end Fs

end Rdix
