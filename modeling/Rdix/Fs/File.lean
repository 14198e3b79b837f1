/-
  Reading and writing through a descriptor (fs/minix1/file.c: sys_read, sys_write).

  * `inodeWrite_len`: `inode_write` returns the length it has counted down to 0;
  * `sysWrite_file`: so `sys_write` of a file returns 0 and leaves the offset where it was;
  * `writeLaw_iff`: a sequence of writes appends exactly when it writes nothing.
-/
import Rdix.Fs.InodeRead
import Rdix.Fs.InodeWrite

namespace Rdix

open ByteMem Function

/-- `TASK_FILE_NR`. -/
abbrev taskFileNr : ℕ := 32

/-- `stdin`, `stdout` and `stderr`. -/
abbrev stdin : ℤ := 0

abbrev stdout : ℤ := 1

abbrev stderr : ℤ := 2

/-- `O_RDONLY` and `O_WRONLY`. -/
abbrev oRdonly : ℕ := 0o0

abbrev oWronly : ℕ := 0o1

/-- `file_t`; `inode` points into the inode table, and `offset` holds the bits of an `idx_t`. -/
structure File where
  inode : ℕ
  flags : ℕ
  offset : ℕ

/-- The file system and the open files of a task: `files` are its descriptors, `file` what they
    point to. -/
structure TaskFiles where
  fs : Fs
  files : ℕ → Option ℕ
  file : ℕ → File

/-- `device_read` of the keyboard and `device_write` of the console. -/
structure StdDevices where
  read : Fs → (ℕ → BitVec 8) → ℤ → C (Fs × (ℕ → BitVec 8) × ℤ)
  write : Fs → (ℕ → BitVec 8) → ℤ → C (Fs × ℤ)

namespace TaskFiles

/-- `task->files[fd]`, which is asserted not to be `NULL`. -/
def get (t : TaskFiles) (fd : ℤ) : C ℕ :=
  if 0 ≤ fd ∧ fd < taskFileNr then
    match t.files fd.toNat with
    | some p => .ok p
    | none => .error (.assert "file")
  else .error (.wild "task->files")

def setFs (t : TaskFiles) (fs : Fs) : TaskFiles := { t with fs := fs }

/-- `file->offset = offset`. -/
def seek (t : TaskFiles) (p offset : ℕ) : TaskFiles :=
  { t with file := update t.file p { t.file p with offset := offset } }

/-- `len` bytes have been read or written; `EOF` moves nothing. -/
def advance (t : TaskFiles) (p : ℕ) (len : ℤ) : TaskFiles :=
  if len ≠ EOF then t.seek p ((t.file p).offset + len).toNat else t

end TaskFiles

/-- An `int` passed as a `u32`. -/
def toU32 (n : ℤ) : ℕ := (n % 2 ^ 32).toNat

def sysRead (dev : StdDevices) (t : TaskFiles) (fd : ℤ) (buf : ℕ → BitVec 8) (count : ℤ) :
    C (TaskFiles × (ℕ → BitVec 8) × ℤ) :=
  if fd = stdin then do
    let (fs, buf, n) ← dev.read t.fs buf count
    return (t.setFs fs, buf, n)
  else do
    let p ← t.get fd
    let file := t.file p
    if file.flags &&& oAccmode = oWronly then return (t, buf, EOF)
    else
      let (fs, buf, len) ← t.fs.inodeRead file.inode buf (toU32 count) file.offset
      return ((t.setFs fs).advance p len, buf, len)

def sysWrite (dev : StdDevices) (t : TaskFiles) (fd : ℤ) (buf : ℕ → BitVec 8) (count : ℤ) :
    C (TaskFiles × ℤ) :=
  if fd = stdout ∨ fd = stderr then do
    let (fs, n) ← dev.write t.fs buf count
    return (t.setFs fs, n)
  else do
    let p ← t.get fd
    let file := t.file p
    if file.flags &&& oAccmode = oRdonly then return (t, EOF)
    else
      let (fs, len) ← t.fs.inodeWrite file.inode buf (toU32 count) file.offset
      return ((t.setFs fs).advance p len, len)

/-! ## Sequences of calls -/

/-- The calls `sys_write(fd, buf, n)` for the pairs of a list: each returns its `n` and advances the
    offset by it, and `t'` is the state after them. -/
def WritesTo (dev : StdDevices) (fd : ℤ) (p : ℕ) :
    TaskFiles → List ((ℕ → BitVec 8) × ℕ) → TaskFiles → Prop
  | t, [], t' => t' = t
  | t, (buf, n) :: ws, t' => ∃ t₁, sysWrite dev t fd buf n = .ok (t₁, n) ∧
    (t₁.file p).offset = (t.file p).offset + n ∧ WritesTo dev fd p t₁ ws t'

/-- The bytes that calls `sys_read(fd, buf, m)` for the members of a list return. -/
def readAll (dev : StdDevices) (fd : ℤ) : TaskFiles → List ℕ → C (List (BitVec 8))
  | _, [] => return []
  | t, m :: ms => do
    let (t, buf, n) ← sysRead dev t fd (fun _ => 0#8) m
    let rest ← readAll dev fd t ms
    return (List.range n.toNat).map buf ++ rest

/-- The buffers one after the other. -/
def written (ws : List ((ℕ → BitVec 8) × ℕ)) : List (BitVec 8) :=
  ws.flatMap fun w => (List.range w.2).map w.1

/-- What a sequence of writes promises: each call returns its count and advances the offset by it, the
    file then holds the buffers from the first offset on, and reading from there, through any
    descriptor that may read and in any pieces, returns them. -/
def WriteLaw (dev : StdDevices) (t : TaskFiles) (fd : ℤ) (p : ℕ) (ws : List ((ℕ → BitVec 8) × ℕ)) :
    Prop :=
  ∃ t', WritesTo dev fd p t ws t' ∧
    (∀ j b, (written ws)[j]? = some b → t'.fs.fileByte (t.file p).inode ((t.file p).offset + j) = b) ∧
    ∀ fd' p' ms, fd' ≠ stdin → t'.get fd' = .ok p' → (t'.file p').flags &&& oAccmode ≠ oWronly →
      (t'.file p').inode = (t.file p).inode → ms.sum = (written ws).length →
      readAll dev fd' (t'.seek p' (t.file p).offset) ms = .ok (written ws)

/-! ## The value that `inode_write` returns -/

/-- **The loop returns the length it has counted down.** -/
theorem writeLoop_len {i n : ℕ} {s s' : Fs} {buf : ℕ → BitVec 8} {len offset r : ℕ}
    (h : Fs.writeLoop i n s buf len offset = .ok (s', r)) : r = 0 := by
  induction n generalizing s buf len offset with
  | zero =>
    cases len with
    | zero => cases h; rfl
    | succ len => cases h
  | succ n ih =>
    cases len with
    | zero => cases h; rfl
    | succ len =>
      obtain ⟨⟨s₁, block⟩, -, h⟩ := bind_eq_ok.1 h
      exact ih h

theorem inodeWrite_len {i : ℕ} {s s' : Fs} {buf : ℕ → BitVec 8} {len offset r : ℕ}
    (h : s.inodeWrite i buf len offset = .ok (s', r)) : r = 0 := by
  obtain ⟨-, h⟩ := cassert_bind_eq_ok.1 h
  exact writeLoop_len h

section Calls
variable {dev : StdDevices} {t t' : TaskFiles} {fd : ℤ} {p : ℕ} {buf : ℕ → BitVec 8} {count n : ℤ}
  {ws : List ((ℕ → BitVec 8) × ℕ)}

@[simp] theorem TaskFiles.advance_zero (t : TaskFiles) (p : ℕ) : t.advance p 0 = t := by
  unfold TaskFiles.advance TaskFiles.seek
  rw [if_pos (by decide), Int.add_zero, Int.toNat_natCast, update_eq_self]

@[simp] theorem TaskFiles.advance_eof (t : TaskFiles) (p : ℕ) : t.advance p EOF = t := if_neg fun h => h rfl

/-- **A write to a file returns 0, and the descriptors stay as they are.** -/
theorem sysWrite_file (hstd : fd ≠ stdout ∧ fd ≠ stderr) (hfd : t.get fd = .ok p)
    (hflags : (t.file p).flags &&& oAccmode ≠ oRdonly)
    (h : sysWrite dev t fd buf count = .ok (t', n)) : n = 0 ∧ ∃ fs, t' = t.setFs fs := by
  unfold sysWrite at h
  rw [if_neg (by tauto), hfd, ok_bind] at h
  dsimp only at h
  rw [if_neg hflags] at h
  obtain ⟨⟨fs, len⟩, hw, h⟩ := bind_eq_ok.1 h
  obtain rfl := inodeWrite_len hw
  dsimp only at h
  rw [Nat.cast_zero, TaskFiles.advance_zero] at h
  cases h
  exact ⟨rfl, fs, rfl⟩

/-- A sequence of writes that keeps its promise writes nothing. -/
theorem WritesTo.zero (hstd : fd ≠ stdout ∧ fd ≠ stderr) (hfd : t.get fd = .ok p)
    (hflags : (t.file p).flags &&& oAccmode ≠ oRdonly) (h : WritesTo dev fd p t ws t') :
    ∀ w ∈ ws, w.2 = 0 := by
  induction ws generalizing t with
  | nil => simp
  | cons w ws ih =>
    obtain ⟨t₁, hw, -, h⟩ := h
    obtain ⟨h0, fs, rfl⟩ := sysWrite_file hstd hfd hflags hw
    intro w' hw'
    rcases List.mem_cons.1 hw' with rfl | hw'
    · exact_mod_cast h0
    · exact ih (t := t.setFs fs) hfd hflags h w' hw'

/-- A write of no bytes changes at most the size of the file. -/
theorem inodeWrite_zero {s : Fs} {i offset : ℕ} (hmode : ISFILE (s.field i .mode)) :
    ∃ s', s.inodeWrite i buf 0 offset = .ok (s', 0) ∧ s'.field i .mode = s.field i .mode := by
  have hdir : ¬ ISDIR (s.field i .mode) := by
    intro h
    exact absurd (hmode.symm.trans h) (by decide)
  have hloop (s : Fs) : Fs.writeLoop i 0 s buf 0 offset = .ok (s, 0) := rfl
  unfold Fs.inodeWrite
  rw [cassert_pos hdir, ok_bind]
  dsimp only
  rw [hloop]
  split_ifs
  · refine ⟨_, rfl, ?_⟩
    have hd : (s.setField i .size (u32 (0 + offset))).cache.data (s.inode i).buf =
        store (s.cache.data (s.inode i).buf) 4 ((s.inode i).slot * 32 + 4) (u32 (0 + offset)) :=
      update_self ..
    have hfield : (s.setField i .size (u32 (0 + offset))).field i .mode =
        load ((s.setField i .size (u32 (0 + offset))).cache.data (s.inode i).buf) 2
          ((s.inode i).slot * 32 + 0) := rfl
    rw [hfield, hd]
    exact load_store_of_disjoint (Or.inl (by omega))
  · exact ⟨s, rfl, rfl⟩

/-- Writes of no bytes keep their promise. -/
theorem writesTo_of_zero (hstd : fd ≠ stdout ∧ fd ≠ stderr) (hfd : t.get fd = .ok p)
    (hflags : (t.file p).flags &&& oAccmode ≠ oRdonly)
    (hmode : ISFILE (t.fs.field (t.file p).inode .mode)) (hws : ∀ w ∈ ws, w.2 = 0) :
    ∃ fs, WritesTo dev fd p t ws (t.setFs fs) ∧ ISFILE (fs.field (t.file p).inode .mode) := by
  induction ws generalizing t with
  | nil => exact ⟨t.fs, rfl, hmode⟩
  | cons w ws ih =>
    obtain ⟨buf, n⟩ := w
    obtain rfl : n = 0 := hws _ List.mem_cons_self
    obtain ⟨fs₁, hw, hmode₁⟩ := @inodeWrite_zero buf _ _ (t.file p).offset hmode
    have hcall : sysWrite dev t fd buf ((0 : ℕ) : ℤ) = .ok (t.setFs fs₁, 0) := by
      have hlen : toU32 ((0 : ℕ) : ℤ) = 0 := rfl
      unfold sysWrite
      rw [if_neg (by tauto), hfd, ok_bind]
      dsimp only
      rw [if_neg hflags, hlen, hw, ok_bind]
      dsimp only
      rw [Nat.cast_zero, TaskFiles.advance_zero]
      rfl
    obtain ⟨fs, hws', hmode'⟩ := @ih (t.setFs fs₁) hfd hflags (by rw [← hmode₁] at hmode; exact hmode)
      fun w hw => hws w (List.mem_cons_of_mem _ hw)
    exact ⟨fs, ⟨t.setFs fs₁, hcall, rfl, hws'⟩, hmode'⟩

/-- Reads of no bytes return none. -/
theorem readAll_zero {ms : List ℕ} (hstd : fd ≠ stdin) (hfd : t.get fd = .ok p)
    (hflags : (t.file p).flags &&& oAccmode ≠ oWronly)
    (hmode : ISFILE (t.fs.field (t.file p).inode .mode)) (hms : ∀ m ∈ ms, m = 0) :
    readAll dev fd t ms = .ok [] := by
  induction ms generalizing t with
  | nil => rfl
  | cons m ms ih =>
    obtain rfl := hms _ List.mem_cons_self
    have hread (buf : ℕ → BitVec 8) : ∃ len : ℤ, (len = 0 ∨ len = EOF) ∧
        t.fs.inodeRead (t.file p).inode buf 0 (t.file p).offset = .ok (t.fs, buf, len) := by
      unfold Fs.inodeRead
      rw [cassert_pos (Or.inl hmode), ok_bind]
      split_ifs
      · exact ⟨EOF, Or.inr rfl, rfl⟩
      · exact ⟨0, Or.inl rfl, by rw [Fs.readLoop_zero]; rfl⟩
    obtain ⟨len, hlen, hr⟩ := hread fun _ => 0#8
    have hadv : t.advance p len = t := by
      rcases hlen with rfl | rfl
      · exact t.advance_zero p
      · exact t.advance_eof p
    have hcall : sysRead dev t fd (fun _ => 0#8) ((0 : ℕ) : ℤ) = .ok (t, fun _ => 0#8, len) := by
      have hcount : toU32 ((0 : ℕ) : ℤ) = 0 := rfl
      have hfs : t.setFs t.fs = t := rfl
      unfold sysRead
      rw [if_neg hstd, hfd, ok_bind]
      dsimp only
      rw [if_neg hflags, hcount, hr, ok_bind]
      dsimp only
      rw [hfs, hadv]
      rfl
    have hnone : (List.range len.toNat).map (fun _ : ℕ => 0#8) = [] := by
      rcases hlen with rfl | rfl <;> rfl
    rw [readAll, hcall, ok_bind]
    dsimp only
    rw [ih hfd hflags hmode fun m hm => hms m (List.mem_cons_of_mem _ hm), hnone]
    rfl

/-- **A sequence of writes keeps its promise if and only if all of them are of no bytes.** -/
theorem writeLaw_iff (hstd : fd ≠ stdout ∧ fd ≠ stderr) (hfd : t.get fd = .ok p)
    (hflags : (t.file p).flags &&& oAccmode ≠ oRdonly)
    (hmode : ISFILE (t.fs.field (t.file p).inode .mode)) :
    WriteLaw dev t fd p ws ↔ ∀ w ∈ ws, w.2 = 0 := by
  constructor
  · rintro ⟨t', h, -⟩
    exact h.zero hstd hfd hflags
  · intro hws
    have hnone : written ws = [] := by
      refine List.flatMap_eq_nil_iff.2 fun w hw => ?_
      rw [hws w hw]
      rfl
    obtain ⟨fs, hw, hmode'⟩ := @writesTo_of_zero dev t fd p ws hstd hfd hflags hmode hws
    refine ⟨t.setFs fs, hw, fun j b hj => ?_, fun fd' p' ms hfd' hp' hflags' hi hsum => ?_⟩
    · rw [hnone] at hj
      cases hj
    · rw [hnone] at hsum ⊢
      have hseek : ((t.setFs fs).seek p' (t.file p).offset).file p' =
          { t.file p' with offset := (t.file p).offset } := update_self ..
      have hms : ∀ m ∈ ms, m = 0 := fun m hm => List.sum_eq_zero_iff.1 hsum m hm
      refine readAll_zero hfd' (t := (t.setFs fs).seek p' (t.file p).offset) hp' ?_ ?_ hms
      · rw [hseek]
        exact hflags'
      · rw [hseek]
        have hi' : (t.file p').inode = (t.file p).inode := hi
        dsimp only
        rw [hi']
        exact hmode'

end Calls

/-- The file of `pairFs`, open for reading and writing as descriptor 3. -/
def pairFiles : TaskFiles :=
  ⟨Fs.pairFs, fun fd => if fd = 3 then some 0 else none, fun _ => ⟨0, 0o2, 0⟩⟩

/-- Devices that read and write nothing. -/
def idleDevices : StdDevices := ⟨fun fs buf _ => .ok (fs, buf, 0), fun fs _ _ => .ok (fs, 0)⟩

/-- One byte written to that file. -/
theorem writeLaw_pair : WriteLaw idleDevices pairFiles 3 0 [(fun _ => 0x61#8, 1)] ↔
    ∀ w ∈ [((fun _ => 0x61#8 : ℕ → BitVec 8), 1)], w.2 = 0 := by
  refine writeLaw_iff (by decide) rfl (by decide) ?_
  exact Fs.pairFs_file.1

/-- The byte is stored, and `sys_write` returns 0 and leaves the offset at 0. -/
theorem sysWrite_returns_zero : ISFILE (pairFiles.fs.field 0 .mode) ∧
    (∃ t, sysWrite idleDevices pairFiles 3 (fun _ => 0x61#8) 1 = .ok (t, 0) ∧
      t.fs.cache.data 5 0 = 0x61#8 ∧ (t.file 0).offset = 0) ∧
    ¬ WriteLaw idleDevices pairFiles 3 0 [(fun _ => 0x61#8, 1)] := by
  refine ⟨Fs.pairFs_file.1, ?_, ?_⟩
  · have hrun : (do
        let (t, n) ← sysWrite idleDevices pairFiles 3 (fun _ => 0x61#8) 1
        cassert (n = 0 ∧ t.fs.cache.data 5 0 = 0x61#8 ∧ (t.file 0).offset = 0) "written"
        return () : C Unit).isOk = true := by decide +kernel
    obtain ⟨a, hrun⟩ := ok_of_isOk hrun
    obtain ⟨⟨t, n⟩, hw, hrun⟩ := bind_eq_ok.1 hrun
    obtain ⟨⟨h0, hbyte, hoff⟩, -⟩ := cassert_bind_eq_ok.1 hrun
    exact ⟨t, by rw [hw, h0], hbyte, hoff⟩
  · rintro ⟨t', h, -⟩
    have := h.zero (by decide) rfl (by decide) _ List.mem_cons_self
    cases this

end Rdix
