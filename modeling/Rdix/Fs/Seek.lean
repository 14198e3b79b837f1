/-
  File offsets over whole runs (fs/minix1/file.c: sys_open, sys_lseek, sys_read, sys_write).

  * `readLoop_end`: a read that returns ends below the last block that `bmap` takes;
  * `offsets_nonneg`: no offset is negative in a run whose steps meet `SeekKept`;
  * `lseek_negative`: the assertion of `SEEK_END` is about an unsigned sum, and never fails.
-/
import Rdix.Lib.Run
import Rdix.Fs.Open

namespace Rdix

open Function Transition

/-! ## Runs -/

/-- The calls on descriptors; `other` is what happens to the file system in between. -/
inductive SeekOp where
  | open (task : FsTask) (p : ℕ) (filename : CStr) (flags mode : ℕ)
  | lseek (fd offset whence : ℤ)
  | read (fd : ℤ) (buf : ℕ → BitVec 8) (count : ℤ)
  | write (fd : ℤ) (buf : ℕ → BitVec 8) (count : ℤ)
  | other (fs : Fs)

/-- No offset of an open file is negative. -/
def TaskFiles.Forward (t : TaskFiles) : Prop := ∀ fd p, t.files fd = some p → 0 ≤ t.pos p

/-- `p` is not a file that a descriptor holds. -/
def TaskFiles.Fresh (t : TaskFiles) (p : ℕ) : Prop := ∀ fd, t.files fd ≠ some p

/-- The runs of a task that starts without files.  A run is followed up to the first negative offset;
    `zones` is a `u16`, and the offset of `sys_lseek` an `int`. -/
def seekSys (dev : StdDevices) : Sys TaskFiles SeekOp where
  init t := ∀ fd, t.files fd = none
  step t op t' := t.Forward ∧ t.fs.sb.zones < 2 ^ 16 ∧ match op with
    | .open task p filename flags mode =>
      t.Fresh p ∧ ∃ fd, sysOpen t task p filename flags mode = .ok (t', fd)
    | .lseek fd offset whence =>
      -2 ^ 31 ≤ offset ∧ offset < 2 ^ 31 ∧ ∃ r, sysLseek t fd offset whence = .ok (t', r)
    | .read fd buf count => ∃ buf' n, sysRead dev t fd buf count = .ok (t', buf', n)
    | .write fd buf count => ∃ n, sysWrite dev t fd buf count = .ok (t', n)
    | .other fs => t' = t.setFs fs

/-- A file that is opened with `O_APPEND` is shorter than 2^31 bytes, and a seek from the end does not
    go in front of the file. -/
def SeekKept (t : TaskFiles) : SeekOp → Prop
  | .open task _ filename flags mode => ∀ fs i,
    t.fs.inodeOpen task filename flags mode = .ok (fs, some i) → flags &&& oAppend ≠ 0 →
      fs.field i .size < 2 ^ 31
  | .lseek fd offset whence => ∀ p, t.get fd = .ok p → whence = seekEnd →
    ((t.fs.field (t.file p).inode .size : ℕ) + offset) % 2 ^ 32 < 2 ^ 31
  | _ => True

/-! ## Reading -/

namespace Fs

variable {s s' : Fs} {i n : ℕ} {buf buf' : ℕ → BitVec 8} {len ptr total_size offset size r : ℕ}

theorem bmap_lt {block z : ℕ} {create : Bool} (h : s.bmap i block create = .ok (s', z)) :
    block < s.sb.zones := by
  obtain ⟨⟨e, z'⟩, he, -⟩ := bind_eq_ok.1 h
  obtain ⟨⟨-, hlt⟩, -⟩ := cassert_bind_eq_ok.1 he
  exact_mod_cast hlt

/-- A turn that returns stays inside a block below `zones`. -/
theorem readTurn_end (h : readTurn i s buf len ptr total_size offset = .ok (s', buf', size)) :
    s.Touched s' ∧ offset / blockSize < s.sb.zones ∧ offset % blockSize + size ≤ blockSize := by
  obtain ⟨⟨s₁, block⟩, hb, h⟩ := bind_eq_ok.1 h
  obtain ⟨-, h⟩ := cassert_bind_eq_ok.1 h
  obtain ⟨bytes, hbytes, h⟩ := bind_eq_ok.1 h
  cases h
  refine ⟨((bmap_touched hb).bread block).brelse block, bmap_lt hb, ?_⟩
  unfold blockBytes at hbytes
  by_contra hgt
  rw [if_neg hgt] at hbytes
  cases hbytes

/-- **A read ends where it started, or below the last block that `bmap` takes.** -/
theorem readLoop_end (h : readLoop i n s buf len ptr total_size offset = .ok (s', buf', r))
    (hp : ptr + total_size ≤ offset) : ptr + r ≤ max offset (s.sb.zones * blockSize) := by
  induction n generalizing s buf len total_size offset with
  | zero =>
    unfold readLoop at h
    split_ifs at h
    cases h
    exact hp.trans (le_max_left _ _)
  | succ n ih =>
    unfold readLoop at h
    split_ifs at h
    · obtain ⟨⟨s₁, buf₁, size⟩, ht, h⟩ := bind_eq_ok.1 h
      obtain ⟨htouch, hlt, hsize⟩ := readTurn_end ht
      have hdiv := Nat.div_add_mod offset blockSize
      -- the next block starts where this turn stays below
      have hnext : (offset / blockSize + 1) * blockSize ≤ s.sb.zones * blockSize :=
        Nat.mul_le_mul_right _ hlt
      have hend := ih h (by rw [Nat.add_mul, Nat.mul_comm, Nat.one_mul]; omega)
      rw [htouch.sb, max_eq_right hnext] at hend
      exact hend.trans (le_max_right _ _)
    · cases h
      exact hp.trans (le_max_left _ _)

theorem inodeRead_end {len' : ℤ} (h : s.inodeRead i buf len offset = .ok (s', buf', len'))
    (hlen : len' ≠ EOF) : 0 ≤ len' ∧ offset + len' ≤ max offset (s.sb.zones * blockSize) := by
  obtain ⟨-, h⟩ := cassert_bind_eq_ok.1 h
  split_ifs at h
  · cases h
    exact absurd rfl hlen
  · obtain ⟨⟨s₁, buf₁, r⟩, hr, h⟩ := bind_eq_ok.1 h
    cases h
    exact ⟨Int.natCast_nonneg r, by exact_mod_cast readLoop_end hr le_rfl⟩

end Fs

/-! ## Offsets -/

/-- The bits of every offset are those of a number below 2^31. -/
def TaskFiles.Below (t : TaskFiles) : Prop := ∀ fd p, t.files fd = some p → (t.file p).offset < 2 ^ 31

section Offsets
variable {dev : StdDevices} {t t' : TaskFiles} {p n : ℕ} {fd : ℤ} {buf buf' : ℕ → BitVec 8}

theorem TaskFiles.Below.forward (h : t.Below) : t.Forward := by
  intro fd p hp
  rw [TaskFiles.pos, i32_of_lt (h fd p hp)]
  exact Int.natCast_nonneg _

theorem TaskFiles.Below.seek (h : t.Below) (hn : n < 2 ^ 31) : (t.seek p n).Below := by
  intro fd q hq
  unfold TaskFiles.seek
  dsimp only
  by_cases hqp : q = p
  · rw [hqp, update_self]
    exact hn
  · rw [update_of_ne hqp]
    exact h fd q hq

theorem TaskFiles.Below.setFile {k : ℕ} {file : File} (h : t.Below) (hp : t.Fresh p)
    (hn : file.offset < 2 ^ 31) : (t.setFile k p file).Below := by
  intro fd q hq
  unfold TaskFiles.setFile at hq ⊢
  dsimp only at hq ⊢
  by_cases hk : fd = k
  · rw [hk, update_self] at hq
    cases hq
    rw [update_self]
    exact hn
  · rw [update_of_ne hk] at hq
    have hqp : q ≠ p := by
      rintro rfl
      exact hp fd hq
    rw [update_of_ne hqp]
    exact h fd q hq

theorem toU32_of_nonneg {n : ℤ} (h0 : 0 ≤ n) (hn : n < 2 ^ 31) : toU32 n < 2 ^ 31 := by
  unfold toU32
  omega

/-- A position that a passed assertion calls not negative. -/
theorem toU32_of_i32 {n : ℤ} (h : 0 ≤ i32 (toU32 n)) : toU32 n < 2 ^ 31 := by
  unfold i32 toU32 at *
  split_ifs at h with hlt
  · exact hlt
  · omega

theorem TaskFiles.get_files (h : t.get fd = .ok p) : t.files fd.toNat = some p := by
  unfold TaskFiles.get at h
  split_ifs at h
  cases hf : t.files fd.toNat with
  | none =>
    rw [hf] at h
    cases h
  | some q =>
    rw [hf] at h
    cases h
    rfl

/-- **`sys_lseek` keeps the offsets** if a seek from the end does not go in front of the file. -/
theorem TaskFiles.Below.sysLseek {offset whence r : ℤ} (h : t.Below) (ho : offset < 2 ^ 31)
    (hend : ∀ p, t.get fd = .ok p → whence = seekEnd →
      ((t.fs.field (t.file p).inode .size : ℕ) + offset) % 2 ^ 32 < 2 ^ 31)
    (hs : sysLseek t fd offset whence = .ok (t', r)) : t'.Below := by
  obtain ⟨-, hs⟩ := cassert_bind_eq_ok.1 hs
  obtain ⟨p, hp, hs⟩ := bind_eq_ok.1 hs
  split_ifs at hs with hset hcur hfrom
  · obtain ⟨h0, hs⟩ := cassert_bind_eq_ok.1 hs
    cases hs
    exact h.seek (toU32_of_nonneg h0 ho)
  · obtain ⟨h0, hs⟩ := cassert_bind_eq_ok.1 hs
    cases hs
    exact h.seek (toU32_of_i32 h0)
  · obtain ⟨-, hs⟩ := cassert_bind_eq_ok.1 hs
    cases hs
    have hlt := hend p hp hfrom
    exact h.seek (by unfold toU32; omega)

/-- A seek from the end goes to the sum of the size and the offset, as an `int`. -/
theorem sysLseek_end {offset r : ℤ} (hp : t.get fd = .ok p)
    (hs : sysLseek t fd offset seekEnd = .ok (t', r)) :
    r = i32 (toU32 ((t.fs.field (t.file p).inode .size : ℕ) + offset)) ∧ t'.pos p = r := by
  obtain ⟨-, hs⟩ := cassert_bind_eq_ok.1 hs
  obtain ⟨q, hq, hs⟩ := bind_eq_ok.1 hs
  rw [hp] at hq
  cases hq
  rw [if_neg (by decide), if_neg (by decide), if_pos rfl] at hs
  obtain ⟨-, hs⟩ := cassert_bind_eq_ok.1 hs
  cases hs
  refine ⟨rfl, ?_⟩
  unfold TaskFiles.pos TaskFiles.seek
  dsimp only
  rw [update_self]

/-- **`sys_read` moves an offset by what it has read**, which stays inside the blocks below `zones`. -/
theorem TaskFiles.Below.sysRead {count len : ℤ} (h : t.Below) (hz : t.fs.sb.zones < 2 ^ 16)
    (hs : sysRead dev t fd buf count = .ok (t', buf', len)) : t'.Below := by
  unfold Rdix.sysRead at hs
  split_ifs at hs with hstd
  · obtain ⟨⟨fs, buf₁, n⟩, -, hs⟩ := bind_eq_ok.1 hs
    cases hs
    exact h
  · obtain ⟨p, hp, hs⟩ := bind_eq_ok.1 hs
    dsimp only at hs
    split_ifs at hs with hflags
    · cases hs
      exact h
    · obtain ⟨⟨fs, buf₁, n⟩, hr, hs⟩ := bind_eq_ok.1 hs
      cases hs
      have hoff := h _ p (TaskFiles.get_files hp)
      by_cases he : n = EOF
      · rw [he, TaskFiles.advance_eof]
        exact h
      · obtain ⟨h0, hend⟩ := Fs.inodeRead_end hr he
        have hmax : max (t.file p).offset (t.fs.sb.zones * blockSize) < 2 ^ 31 := by
          refine max_lt hoff ?_
          norm_num
          omega
        unfold TaskFiles.advance
        rw [if_pos he]
        exact TaskFiles.Below.seek (t := t.setFs fs) h (by
          show ((t.file p).offset + n).toNat < 2 ^ 31
          omega)

/-- **`sys_write` moves no offset.** -/
theorem TaskFiles.Below.sysWrite {count len : ℤ} (h : t.Below)
    (hs : sysWrite dev t fd buf count = .ok (t', len)) : t'.Below := by
  unfold Rdix.sysWrite at hs
  split_ifs at hs with hstd
  · obtain ⟨⟨fs, n⟩, -, hs⟩ := bind_eq_ok.1 hs
    cases hs
    exact h
  · obtain ⟨p, hp, hs⟩ := bind_eq_ok.1 hs
    dsimp only at hs
    split_ifs at hs with hflags
    · cases hs
      exact h
    · obtain ⟨⟨fs, n⟩, hw, hs⟩ := bind_eq_ok.1 hs
      cases hs
      obtain rfl := inodeWrite_len hw
      dsimp only
      rw [Nat.cast_zero, TaskFiles.advance_zero]
      exact h

/-- **`sys_open` starts at the beginning, or at the end of a file opened with `O_APPEND`.** -/
theorem TaskFiles.Below.sysOpen {task : FsTask} {filename : CStr} {flags mode : ℕ} {r : ℤ}
    (h : t.Below) (hp : t.Fresh p)
    (hend : ∀ fs i, t.fs.inodeOpen task filename flags mode = .ok (fs, some i) →
      flags &&& oAppend ≠ 0 → fs.field i .size < 2 ^ 31)
    (hs : sysOpen t task p filename flags mode = .ok (t', r)) : t'.Below := by
  obtain ⟨⟨fs, inode⟩, ho, hs⟩ := bind_eq_ok.1 hs
  cases inode with
  | none =>
    cases hs
    exact h
  | some inode =>
    dsimp only at hs
    cases hfd : t.freeFd with
    | none =>
      rw [hfd] at hs
      obtain ⟨fs', -, hs⟩ := bind_eq_ok.1 hs
      cases hs
      exact h
    | some fd =>
      rw [hfd] at hs
      cases hs
      refine TaskFiles.Below.setFile (t := t.setFs fs) h hp ?_
      show (if flags &&& oAppend ≠ 0 then fs.field inode .size else 0) < 2 ^ 31
      split_ifs with happend
      · exact hend fs inode ho happend
      · norm_num

theorem below_step {op : SeekOp} (h : t.Below) (hc : SeekKept t op) (hs : (seekSys dev).step t op t') :
    t'.Below := by
  obtain ⟨-, hz, hs⟩ := hs
  cases op with
  | «open» task p filename flags mode =>
    obtain ⟨hp, fd, hs⟩ := hs
    exact h.sysOpen hp hc hs
  | lseek fd offset whence =>
    obtain ⟨-, ho, r, hs⟩ := hs
    exact h.sysLseek ho hc hs
  | read fd buf count =>
    obtain ⟨buf', n, hs⟩ := hs
    exact h.sysRead hz hs
  | write fd buf count =>
    obtain ⟨n, hs⟩ := hs
    exact h.sysWrite hs
  | other fs =>
    rw [show t' = t.setFs fs from hs]
    exact h

theorem below_init (h : (seekSys dev).init t) : t.Below := by
  intro fd p hp
  rw [h fd] at hp
  cases hp

/-- **No file offset is negative in a run whose steps meet the condition.** -/
theorem offsets_nonneg (h : ((seekSys dev).restrict SeekKept).Reach t) :
    ∀ fd p, t.files fd = some p → 0 ≤ t.pos p := by
  have hinit (t : TaskFiles) (ht : ((seekSys dev).restrict SeekKept).init t) : t.Below := @below_init dev t ht
  exact (h.invariant hinit fun t op t' hb hst => below_step hb hst.1 hst.2).forward

end Offsets

theorem chrF_ne : 0x66#8 ≠ 0#8 := by decide

/-- The name `f`. -/
def fileF : CStr := [⟨0x66#8, chrF_ne⟩]

/-- A task without files, on the device with the empty file `/f`. -/
def noFiles : TaskFiles := ⟨Fs.smallFs 1, fun _ => none, fun _ => ⟨0, 0, 0⟩⟩

/-- `/f` is opened, and the file is sought from its end. -/
theorem seek_run (offset : ℤ) (hrun : (do
      let r ← sysOpen noFiles ⟨0, 0, 0, 0, 0⟩ 0 fileF 0o2 0
      let r' ← sysLseek r.1 3 offset seekEnd
      cassert (r.1.fs.sb.zones < 2 ^ 16 ∧ r.1.get 3 = .ok 0 ∧
        r.1.fs.field (r.1.file 0).inode .size = 0 ∧ r'.1.files 3 = some 0) "sought"
      return () : C Unit).isOk = true) (hlo : -2 ^ 31 ≤ offset) (hhi : offset < 2 ^ 31) :
    ∃ t t', ((seekSys idleDevices).restrict SeekKept).Reach t ∧
      (seekSys idleDevices).step t (.lseek 3 offset seekEnd) t' ∧
      (0 ≤ offset → SeekKept t (.lseek 3 offset seekEnd)) ∧
      sysLseek t 3 offset seekEnd = .ok (t', offset) ∧ t'.files 3 = some 0 ∧ t'.pos 0 = offset := by
  obtain ⟨a, hrun⟩ := ok_of_isOk hrun
  obtain ⟨⟨t, fd⟩, hopen, hrun⟩ := bind_eq_ok.1 hrun
  obtain ⟨⟨t', r⟩, hseek, hrun⟩ := bind_eq_ok.1 hrun
  obtain ⟨⟨hz, hget, hsize, hfile⟩, -⟩ := cassert_bind_eq_ok.1 hrun
  have hinit : noFiles.Below := @below_init idleDevices noFiles fun _ => rfl
  have hkept : SeekKept noFiles (.open ⟨0, 0, 0, 0, 0⟩ 0 fileF 0o2 0) :=
    fun fs i _ happend => absurd rfl happend
  have hstep : (seekSys idleDevices).step noFiles (.open ⟨0, 0, 0, 0, 0⟩ 0 fileF 0o2 0) t :=
    ⟨hinit.forward, by decide, fun fd => by simp [noFiles], fd, hopen⟩
  have hforward : t.Forward := (below_step hinit hkept hstep).forward
  obtain ⟨hr, hpos⟩ := sysLseek_end hget hseek
  have hoffset : i32 (toU32 (((0 : ℕ) : ℤ) + offset)) = offset := by
    unfold i32 toU32
    split_ifs <;> omega
  rw [hsize, hoffset] at hr
  rw [hr] at hpos
  refine ⟨t, t', .step (.init fun _ => rfl) ⟨hkept, hstep⟩, ⟨hforward, hz, hlo, hhi, r, hseek⟩,
    fun h0 p hp _ => ?_, hr ▸ hseek, hfile, hpos⟩
  rw [hget] at hp
  cases hp
  rw [hsize]
  omega

/-- The file is sought at its end. -/
theorem offsets_nonneg_end : ∃ t : TaskFiles, ((seekSys idleDevices).restrict SeekKept).Reach t ∧
    t.files 3 = some 0 ∧ 0 ≤ t.pos 0 := by
  obtain ⟨t, t', hreach, hstep, hkept, -, hfile, -⟩ := seek_run 0 (by decide +kernel) (by norm_num)
    (by norm_num)
  have hreach' := Sys.Reach.step hreach ⟨hkept le_rfl, hstep⟩
  exact ⟨t', hreach', hfile, offsets_nonneg hreach' 3 0 hfile⟩

/-- `sys_lseek(fd, -1, SEEK_END)` in an empty file passes its assertion and leaves the offset -1. -/
theorem lseek_negative : ∃ t t' : TaskFiles, (seekSys idleDevices).Reach t ∧
    sysLseek t 3 (-1) seekEnd = .ok (t', -1) ∧ (seekSys idleDevices).Reach t' ∧
    t'.files 3 = some 0 ∧ t'.pos 0 = -1 := by
  obtain ⟨t, t', hreach, hstep, -, hseek, hfile, hpos⟩ := seek_run (-1) (by decide +kernel)
    (by norm_num) (by norm_num)
  have hreach := hreach.of_restrict
  exact ⟨t, t', hreach, hseek, .step hreach hstep, hfile, hpos⟩

end Rdix
