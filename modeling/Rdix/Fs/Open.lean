/-
  Descriptors (fs/minix1/file.c: sys_open, sys_create, sys_close, sys_lseek).

  `malloc` is not part of these functions: the address that it returns for a new `file_t` is an
  argument.
-/
import Rdix.Fs.Namei
import Rdix.Fs.File

namespace Rdix

open Function

/-- `O_APPEND`. -/
abbrev oAppend : ℕ := 0o2000

/-- `whence_t`. -/
abbrev seekSet : ℤ := 1

abbrev seekCur : ℤ := 2

abbrev seekEnd : ℤ := 3

namespace TaskFiles

/-- The loop of `sys_open`: the first descriptor from 3 on that is not in use. -/
def freeFd (t : TaskFiles) : Option ℕ :=
  (List.range' 3 (taskFileNr - 3)).find? fun fd => (t.files fd).isNone

/-- Descriptor `fd` with the file at `p`. -/
def setFile (t : TaskFiles) (fd p : ℕ) (file : File) : TaskFiles :=
  { t with files := update t.files fd (some p), file := update t.file p file }

/-- `file->offset`; the field holds its bits. -/
def pos (t : TaskFiles) (p : ℕ) : ℤ := i32 (t.file p).offset

end TaskFiles

def sysOpen (t : TaskFiles) (task : FsTask) (p : ℕ) (filename : CStr) (flags mode : ℕ) :
    C (TaskFiles × ℤ) := do
  let (fs, inode) ← t.fs.inodeOpen task filename flags mode
  match inode with
  | none => return (t.setFs fs, EOF)
  | some inode =>
    match t.freeFd with
    | none => return (t.setFs (← fs.iput inode), EOF)
    | some fd =>
      let offset := if flags &&& oAppend ≠ 0 then fs.field inode .size else 0
      return ((t.setFs fs).setFile fd p ⟨inode, flags, offset⟩, fd)

def sysCreate (t : TaskFiles) (task : FsTask) (p : ℕ) (filename : CStr) (mode : ℕ) :
    C (TaskFiles × ℤ) :=
  sysOpen t task p filename (oCreat ||| oTrunc) mode

def sysClose (t : TaskFiles) (fd : ℤ) : C TaskFiles := do
  cassert (fd < taskFileNr ∧ 2 < fd) "fd < TASK_FILE_NR && fd > 2"
  match t.files fd.toNat with
  | none => return t
  | some p => do
    let fs ← t.fs.iput (t.file p).inode
    return { t.setFs fs with files := update t.files fd.toNat none }

/-- `file->offset` is set to `n`, whose bits are stored, and returned. -/
def TaskFiles.seekTo (t : TaskFiles) (p : ℕ) (n : ℤ) : TaskFiles × ℤ :=
  (t.seek p (toU32 n), i32 (toU32 n))

def sysLseek (t : TaskFiles) (fd offset whence : ℤ) : C (TaskFiles × ℤ) := do
  cassert (fd < taskFileNr) "fd < TASK_FILE_NR"
  let p ← t.get fd
  if whence = seekSet then do
    cassert (0 ≤ offset) "offset >= 0"
    return t.seekTo p offset
  else if whence = seekCur then do
    cassert (0 ≤ i32 (toU32 (t.pos p + offset))) "file->offset + offset >= 0"
    return t.seekTo p (t.pos p + offset)
  else if whence = seekEnd then do
    -- `size` is unsigned, and so is the sum
    let size : ℤ := (t.fs.field (t.file p).inode .size : ℕ)
    cassert (0 ≤ toU32 (size + offset)) "file->inode->desc->size + offset >= 0"
    return t.seekTo p (size + offset)
  else throw (.panic "whence not defined !!!")

end Rdix
