/-
  Descriptors over files (fs/minix1/file.c: sys_read, sys_write, sys_lseek).

  Each descriptor points to an open file with an offset of its own; several may point to one, and several
  open files may be on one inode.

  * `descSys`: the calls of a task through its descriptors, and what else happens to the files;
  * `OpenStore`, `openSys`: a store of files with open files;
  * `descriptors_refine`: a run of the task is one of this store, in which a write leaves the offset alone;
  * `descriptors_read_back`: what is written through one descriptor is read through another.
-/
import Rdix.Fs.Files
import Rdix.Fs.Open

namespace Rdix

open FileStore Transition Function

/-- What happens: calls of a task, and what others do with the files. -/
inductive DescEvent where
  | write (fd : ℤ) (buf : ℕ → BitVec 8) (len : ℕ) (n : ℤ)
  | read (fd : ℤ) (buf : ℕ → BitVec 8) (len : ℕ) (out : ℕ → BitVec 8) (n : ℤ)
  | seek (fd offset whence n : ℤ)
  | file (a : Event ℕ (BitVec 8))

/-- The files `I` are reached through descriptors, and keep to their direct blocks. -/
def DescStep (I : Set ℕ) (dev : StdDevices) (t : TaskFiles) : DescEvent → TaskFiles → Prop
  | .write fd buf len n, t' => (fd ≠ stdout ∧ fd ≠ stderr) ∧ len < 2 ^ 31 ∧
    (∀ p, t.get fd = .ok p → (t.file p).inode ∈ I ∧ (t.file p).offset + len ≤ directBytes) ∧
    sysWrite dev t fd buf len = .ok (t', n)
  | .read fd buf len out n, t' => fd ≠ stdin ∧ len < 2 ^ 31 ∧
    (∀ p, t.get fd = .ok p → (t.file p).inode ∈ I) ∧ sysRead dev t fd buf len = .ok (t', out, n)
  | .seek fd offset whence n, t' =>
    (∀ p, t.get fd = .ok p → (t.file p).inode ∈ I) ∧ sysLseek t fd offset whence = .ok (t', n)
  | .file a, t' => ∃ fs, FileStep I t.fs a fs ∧ t' = t.setFs fs

/-! ## Open files -/

/-- A store of files, and the open files of a task. -/
structure OpenStore where
  contents : ℕ → Contents (BitVec 8)
  files : ℕ → Option ℕ
  file : ℕ → File

namespace OpenStore

/-- The contents behind an open file. -/
def behind (s : OpenStore) (p : ℕ) : Contents (BitVec 8) := s.contents (s.file p).inode

def move (s : OpenStore) (p offset : ℕ) : OpenStore :=
  { s with file := update s.file p { s.file p with offset := offset } }

/-- Where a seek goes to: from the beginning, from where it is, or from the end. -/
def target (s : OpenStore) (p : ℕ) (offset whence : ℤ) : ℤ :=
  if whence = seekSet then offset
  else if whence = seekCur then i32 (s.file p).offset + offset
  else (s.behind p).size + offset

end OpenStore

/-- A step of the store: a read moves the offset on, a write does not. -/
def OpenStep (s : OpenStore) : DescEvent → OpenStore → Prop
  | .write fd buf len n, s' => ∃ p, s.files fd.toNat = some p ∧
    if (s.file p).flags &&& oAccmode = oRdonly then n = EOF ∧ s' = s
    else n = 0 ∧ s' = { s with
      contents := update s.contents (s.file p).inode ((s.behind p).write buf len (s.file p).offset) }
  | .read fd buf len out n, s' => ∃ p, s.files fd.toNat = some p ∧
    if (s.file p).flags &&& oAccmode = oWronly then n = EOF ∧ out = buf ∧ s' = s
    else (s.behind p).Reads buf len (s.file p).offset out n ∧
      s' = if n = EOF then s else s.move p ((s.file p).offset + n.toNat)
  | .seek fd offset whence n, s' => ∃ p, s.files fd.toNat = some p ∧
    n = i32 (toU32 (s.target p offset whence)) ∧ s' = s.move p (toU32 (s.target p offset whence))
  | .file a, s' => ∃ c, StoreStep 0#8 s.contents a c ∧ s' = { s with contents := c }

def descSys (I : Set ℕ) (dev : StdDevices) : Sys TaskFiles DescEvent where
  init t := (fileSys I).init t.fs
  step := DescStep I dev

/-- The task has what the store has. -/
structure OpenModels (I : Set ℕ) (t : TaskFiles) (s : OpenStore) : Prop where
  fs : Models I t.fs s.contents
  files : t.files = s.files
  file : t.file = s.file

section Steps
variable {I : Set ℕ} {dev : StdDevices} {t t' : TaskFiles} {s : OpenStore} {fd n : ℤ} {p len : ℕ}
  {buf out : ℕ → BitVec 8} {a : DescEvent}

theorem get_files (h : t.get fd = .ok p) : t.files fd.toNat = some p := by
  unfold TaskFiles.get at h
  split_ifs at h
  cases hp : t.files fd.toNat with
  | none =>
    rw [hp] at h
    cases h
  | some q =>
    rw [hp] at h
    cases h
    rfl

theorem toU32_natCast (h : len < 2 ^ 31) : toU32 (len : ℤ) = len := by
  unfold toU32
  omega

theorem sysWrite_ok {fs : Fs} {r : ℕ} (hstd : fd ≠ stdout ∧ fd ≠ stderr) (hp : t.get fd = .ok p)
    (hflags : (t.file p).flags &&& oAccmode ≠ oRdonly) (hlen : len < 2 ^ 31)
    (hw : t.fs.inodeWrite (t.file p).inode buf len (t.file p).offset = .ok (fs, r)) :
    sysWrite dev t fd buf len = .ok (t.setFs fs, 0) := by
  obtain rfl := inodeWrite_len hw
  rw [sysWrite, if_neg (by tauto), hp, ok_bind]
  dsimp only
  rw [if_neg hflags, toU32_natCast hlen, hw, ok_bind]
  dsimp only
  rw [Nat.cast_zero, TaskFiles.advance_zero]
  rfl

/-- What a write through a descriptor does to the files. -/
theorem descStep_write (h : DescStep I dev t (.write fd buf len n) t') (hp : t.get fd = .ok p)
    (hflags : (t.file p).flags &&& oAccmode ≠ oRdonly) :
    ∃ fs, t' = t.setFs fs ∧ n = 0 ∧
      FileStep I t.fs (.write (t.file p).inode buf len (t.file p).offset) fs := by
  obtain ⟨hstd, hlen, hin, hr⟩ := h
  obtain ⟨hi, hfit⟩ := hin p hp
  rw [sysWrite, if_neg (by tauto), hp, ok_bind] at hr
  dsimp only at hr
  rw [if_neg hflags] at hr
  obtain ⟨⟨fs, r⟩, hw, hr⟩ := bind_eq_ok.1 hr
  obtain rfl := inodeWrite_len hw
  dsimp only at hr
  rw [Nat.cast_zero, TaskFiles.advance_zero] at hr
  cases hr
  rw [toU32_natCast hlen] at hw
  exact ⟨fs, rfl, rfl, hi, hfit, 0, hw⟩

theorem sysRead_ok {fs : Fs} (hstd : fd ≠ stdin) (hp : t.get fd = .ok p)
    (hflags : (t.file p).flags &&& oAccmode ≠ oWronly) (hlen : len < 2 ^ 31)
    (hr : t.fs.inodeRead (t.file p).inode buf len (t.file p).offset = .ok (fs, out, n)) :
    sysRead dev t fd buf len = .ok ((t.setFs fs).advance p n, out, n) := by
  rw [sysRead, if_neg hstd, hp, ok_bind]
  dsimp only
  rw [if_neg hflags, toU32_natCast hlen, hr]
  rfl

theorem OpenModels.behind (h : OpenModels I t s) (hi : (t.file p).inode ∈ I) :
    s.behind p = t.fs.contents (t.file p).inode := by
  rw [OpenStore.behind, ← h.file, h.fs.contents _ hi]

/-- The offset of an open file is set. -/
theorem OpenModels.seek (h : OpenModels I t s) (p offset : ℕ) : OpenModels I (t.seek p offset) (s.move p offset) := by
  refine ⟨h.fs, h.files, ?_⟩
  show update t.file p { t.file p with offset := offset } = _
  rw [h.file]
  rfl

theorem OpenModels.write (h : OpenModels I t s) (hstep : DescStep I dev t (.write fd buf len n) t') :
    ∃ s', OpenStep s (.write fd buf len n) s' ∧ OpenModels I t' s' := by
  obtain ⟨hstd, -, -, hr⟩ := id hstep
  rw [sysWrite, if_neg (by tauto)] at hr
  obtain ⟨p, hp, hr⟩ := bind_eq_ok.1 hr
  have hfiles : s.files fd.toNat = some p := h.files ▸ get_files hp
  dsimp only at hr
  by_cases hflags : (t.file p).flags &&& oAccmode = oRdonly
  · rw [if_pos hflags] at hr
    cases hr
    rw [h.file] at hflags
    exact ⟨s, ⟨p, hfiles, (if_pos hflags).mpr ⟨rfl, rfl⟩⟩, h⟩
  · obtain ⟨fs, rfl, rfl, hw⟩ := descStep_write hstep hp hflags
    obtain ⟨c, rfl, hm⟩ := h.fs.step hw
    rw [h.file] at hflags
    refine ⟨_, ⟨p, hfiles, (if_neg hflags).mpr ⟨rfl, rfl⟩⟩, ?_, h.files, h.file⟩
    rw [OpenStore.behind, ← h.file]
    exact hm

theorem OpenModels.read (h : OpenModels I t s) (hstep : DescStep I dev t (.read fd buf len out n) t') :
    ∃ s', OpenStep s (.read fd buf len out n) s' ∧ OpenModels I t' s' := by
  obtain ⟨hstd, hlen, hin, hr⟩ := hstep
  rw [sysRead, if_neg hstd] at hr
  obtain ⟨p, hp, hr⟩ := bind_eq_ok.1 hr
  have hi := hin p hp
  have hfiles : s.files fd.toNat = some p := h.files ▸ get_files hp
  dsimp only at hr
  split_ifs at hr with hflags
  · cases hr
    rw [h.file] at hflags
    exact ⟨s, ⟨p, hfiles, (if_pos hflags).mpr ⟨rfl, rfl, rfl⟩⟩, h⟩
  · obtain ⟨⟨fs, buf', len'⟩, hread, hr⟩ := bind_eq_ok.1 hr
    rw [toU32_natCast hlen] at hread
    obtain ⟨c, ⟨rfl, hreads⟩, hm⟩ := h.fs.step (a := .read _ buf len _ buf' len') ⟨hi, hread⟩
    cases hr
    rw [h.file] at hflags hreads
    refine ⟨_, ⟨p, hfiles, (if_neg hflags).mpr ⟨hreads, rfl⟩⟩, ?_⟩
    have hfs : OpenModels I (t.setFs fs) s := ⟨hm, h.files, h.file⟩
    by_cases hn : len' = EOF
    · rw [if_pos hn, hn, TaskFiles.advance_eof]
      exact hfs
    · rw [if_neg hn, TaskFiles.advance, if_pos hn]
      have hpos : 0 ≤ len' := by
        unfold Contents.Reads at hreads
        split_ifs at hreads
        · exact absurd hreads.2 hn
        · exact hreads.2 ▸ Int.natCast_nonneg _
      have hmove : (((t.setFs fs).file p).offset + len').toNat = (s.file p).offset + len'.toNat := by
        have hoffset : ((t.setFs fs).file p).offset = (s.file p).offset := congrArg File.offset (congrFun h.file p)
        omega
      rw [hmove]
      exact hfs.seek _ _

theorem OpenModels.lseek {offset whence : ℤ} (h : OpenModels I t s)
    (hstep : DescStep I dev t (.seek fd offset whence n) t') :
    ∃ s', OpenStep s (.seek fd offset whence n) s' ∧ OpenModels I t' s' := by
  obtain ⟨hin, hr⟩ := hstep
  obtain ⟨-, hr⟩ := cassert_bind_eq_ok.1 hr
  obtain ⟨p, hp, hr⟩ := bind_eq_ok.1 hr
  have hfiles : s.files fd.toNat = some p := h.files ▸ get_files hp
  have hsize : ((s.behind p).size : ℤ) = (t.fs.field (t.file p).inode .size : ℕ) := by
    rw [h.behind (hin p hp)]
    rfl
  have hseek : ∀ m, m = s.target p offset whence → (t.seekTo p m) = (t', n) →
      ∃ s', OpenStep s (.seek fd offset whence n) s' ∧ OpenModels I t' s' := by
    rintro m rfl hm
    cases hm
    exact ⟨_, ⟨p, hfiles, rfl, rfl⟩, h.seek _ _⟩
  split_ifs at hr with hset hcur hend
  · obtain ⟨-, hr⟩ := cassert_bind_eq_ok.1 hr
    refine hseek offset ?_ (Except.ok.inj hr)
    rw [OpenStore.target, if_pos hset]
  · obtain ⟨-, hr⟩ := cassert_bind_eq_ok.1 hr
    refine hseek _ ?_ (Except.ok.inj hr)
    rw [OpenStore.target, if_neg hset, if_pos hcur, TaskFiles.pos, h.file]
  · obtain ⟨-, hr⟩ := cassert_bind_eq_ok.1 hr
    refine hseek _ ?_ (Except.ok.inj hr)
    rw [OpenStore.target, if_neg hset, if_neg hcur, hsize]

/-- **A step of the task is one of the store.** -/
theorem OpenModels.step (h : OpenModels I t s) (hstep : DescStep I dev t a t') :
    ∃ s', OpenStep s a s' ∧ OpenModels I t' s' := by
  cases a with
  | write fd buf len n => exact h.write hstep
  | read fd buf len out n => exact h.read hstep
  | seek fd offset whence n => exact h.lseek hstep
  | file a =>
    obtain ⟨fs, hfs, rfl⟩ := hstep
    obtain ⟨c, hc, hm⟩ := h.fs.step hfs
    exact ⟨_, ⟨c, hc, rfl⟩, hm, h.files, h.file⟩

end Steps

/-! ## The runs -/

section Runs
variable {I : Set ℕ} {dev : StdDevices} {t t₁ t₂ t₃ : TaskFiles} {s : OpenStore} {as : List DescEvent}

/-- The store that a task begins with. -/
def TaskFiles.store (t : TaskFiles) : OpenStore := ⟨t.fs.contents, t.files, t.file⟩

theorem openModels_store (ht : (descSys I dev).init t) : OpenModels I t t.store :=
  ⟨⟨ht.1, ht.2, fun _ _ => rfl⟩, rfl, rfl⟩

/-- A call that leaves the bytes of file `i` from `offset` to `offset + len` alone. -/
def DescSpares (i len offset : ℕ) (t : TaskFiles) : DescEvent → Prop
  | .write fd _ len' _ => ∀ p, t.files fd.toNat = some p → (t.file p).inode = i →
    (t.file p).offset + len' ≤ offset ∨ offset + len ≤ (t.file p).offset
  | .file a => a.Spares i len offset
  | .read .. | .seek .. => True

/-- A call does to the files what a call on one of them does, or nothing. -/
theorem DescStep.file {a : DescEvent} (h : DescStep I dev t a t₁) : t₁.fs = t.fs ∨
    ∃ b, FileStep I t.fs b t₁.fs ∧ ∀ i len offset, DescSpares i len offset t a → b.Spares i len offset := by
  cases a with
  | write fd buf len n =>
    obtain ⟨hstd, -, -, hr⟩ := id h
    rw [sysWrite, if_neg (by tauto)] at hr
    obtain ⟨p, hp, hr⟩ := bind_eq_ok.1 hr
    dsimp only at hr
    by_cases hflags : (t.file p).flags &&& oAccmode = oRdonly
    · rw [if_pos hflags] at hr
      cases hr
      exact Or.inl rfl
    · obtain ⟨fs, rfl, -, hw⟩ := descStep_write h hp hflags
      exact Or.inr ⟨_, hw, fun i len offset ha => ha p (get_files hp)⟩
  | read fd buf len out n =>
    obtain ⟨hstd, hlen, hin, hr⟩ := h
    rw [sysRead, if_neg hstd] at hr
    obtain ⟨p, hp, hr⟩ := bind_eq_ok.1 hr
    dsimp only at hr
    split_ifs at hr with hflags
    · cases hr
      exact Or.inl rfl
    · obtain ⟨⟨fs, buf', len'⟩, hread, hr⟩ := bind_eq_ok.1 hr
      cases hr
      rw [toU32_natCast hlen] at hread
      have hfs : ((t.setFs fs).advance p len').fs = fs := by
        unfold TaskFiles.advance
        split_ifs <;> rfl
      refine Or.inr ⟨.read (t.file p).inode buf len (t.file p).offset buf' len', ?_, fun _ _ _ _ => trivial⟩
      rw [hfs]
      exact ⟨hin p hp, hread⟩
  | seek fd offset whence n =>
    obtain ⟨-, hr⟩ := h
    obtain ⟨-, hr⟩ := cassert_bind_eq_ok.1 hr
    obtain ⟨p, -, hr⟩ := bind_eq_ok.1 hr
    have hseek : ∀ m, t.seekTo p m = (t₁, n) → t₁.fs = t.fs := by
      intro m hm
      cases hm
      rfl
    split_ifs at hr
    · exact Or.inl (hseek _ (Except.ok.inj (cassert_bind_eq_ok.1 hr).2))
    · exact Or.inl (hseek _ (Except.ok.inj (cassert_bind_eq_ok.1 hr).2))
    · exact Or.inl (hseek _ (Except.ok.inj (cassert_bind_eq_ok.1 hr).2))
  | file a =>
    obtain ⟨fs, hfs, rfl⟩ := h
    exact Or.inr ⟨a, hfs, fun _ _ _ ha => ha⟩

/-- The task goes with a store in which file `i` holds some bytes, and these have zones. -/
def HoldsAt (I : Set ℕ) (i : ℕ) (buf : ℕ → BitVec 8) (len offset : ℕ) (t : TaskFiles) : Prop :=
  ∃ s, OpenModels I t s ∧ (s.contents i).Holds buf len offset ∧ Mapped i len offset t.fs

theorem HoldsAt.step {i len offset : ℕ} {buf : ℕ → BitVec 8} {a : DescEvent} (hi : i ∈ I)
    (hfit : offset + len ≤ directBytes) (h : HoldsAt I i buf len offset t)
    (hstep : ((descSys I dev).restrict (DescSpares i len offset)).step t a t₁) :
    HoldsAt I i buf len offset t₁ := by
  obtain ⟨s, hm, hs, hmap⟩ := h
  obtain ⟨ha, hstep⟩ := hstep
  have hmap' : Mapped i len offset t₁.fs := by
    obtain he | ⟨b, hb, hspares⟩ := hstep.file
    · rwa [he]
    · exact hmap.step hm.fs hi hfit (hspares i len offset ha) hb
  obtain ⟨s', hs', hm'⟩ := hm.step hstep
  refine ⟨s', hm', ?_, hmap'⟩
  cases a with
  | write fd buf' len' n =>
    obtain ⟨p, hp, hs'⟩ := hs'
    by_cases hflags : (s.file p).flags &&& oAccmode = oRdonly
    · exact ((if_pos hflags).mp hs').2 ▸ hs
    · obtain ⟨-, rfl⟩ := (if_neg hflags).mp hs'
      have hapart := ha p (hm.files ▸ hp)
      rw [hm.file] at hapart
      by_cases hi : (s.file p).inode = i
      · subst hi
        show Contents.Holds (update s.contents _ _ _) _ _ _
        rw [update_self]
        exact hs.write (hapart rfl)
      · show Contents.Holds (update s.contents _ _ _) _ _ _
        rwa [update_of_ne (Ne.symm hi)]
  | read fd buf' len' out n =>
    obtain ⟨p, -, hs'⟩ := hs'
    by_cases hflags : (s.file p).flags &&& oAccmode = oWronly
    · exact ((if_pos hflags).mp hs').2.2 ▸ hs
    · obtain ⟨-, rfl⟩ := (if_neg hflags).mp hs'
      by_cases hn : n = EOF
      · rwa [if_pos hn]
      · rwa [if_neg hn]
  | seek fd o whence n =>
    obtain ⟨p, -, -, rfl⟩ := hs'
    exact hs
  | file a =>
    obtain ⟨c, hc, rfl⟩ := hs'
    exact StoreStep.holds hc hs ha

/-- **What is written through one descriptor is read through another** that is at the same place of the file,
    whatever is called in between that spares these bytes: the call returns, with the full length. -/
theorem descriptors_read_back {fd fd' n : ℤ} {buf : ℕ → BitVec 8} {len p q : ℕ}
    (ht : (descSys I dev).init t) (hlen : 0 < len) (hp : t.get fd = .ok p)
    (hflags : (t.file p).flags &&& oAccmode ≠ oRdonly)
    (hw : DescStep I dev t (.write fd buf len n) t₁)
    (hrun : ((descSys I dev).restrict (DescSpares (t.file p).inode len (t.file p).offset)).Run t₁ as t₂)
    (hstd : fd' ≠ stdin) (hq : t₂.get fd' = .ok q) (hflags' : (t₂.file q).flags &&& oAccmode ≠ oWronly)
    (hsame : (t₂.file q).inode = (t.file p).inode ∧ (t₂.file q).offset = (t.file p).offset)
    (buf' : ℕ → BitVec 8) :
    ∃ t₃ out, sysRead dev t₂ fd' buf' len = .ok (t₃, out, len) ∧ ∀ k < len, out k = buf k := by
  obtain ⟨hi, hfit⟩ := hw.2.2.1 p hp
  obtain ⟨s₁, ⟨p', hp', hs₁⟩, hm₁⟩ := (openModels_store ht).step hw
  obtain rfl : p' = p := Option.some.inj (hp'.symm.trans (get_files hp))
  obtain ⟨-, rfl⟩ := (if_neg hflags).mp hs₁
  have hstart : HoldsAt I (t.file p').inode buf len (t.file p').offset t₁ := by
    refine ⟨_, hm₁, ?_, ?_⟩
    · show Contents.Holds (update t.fs.contents (t.file p').inode _ _) _ _ _
      rw [update_self]
      exact Contents.holds_write _ _ _ _
    · obtain ⟨fs, rfl, -, hwrite⟩ := descStep_write hw hp hflags
      exact mapped_write (openModels_store ht).fs hwrite
  obtain ⟨s₂, hm₂, hholds, hmap⟩ :=
    hrun.invariant (I := HoldsAt I _ buf len _) (fun _ _ _ => HoldsAt.step hi hfit) hstart
  obtain ⟨fs, out, hread, hout⟩ := hm₂.fs.read_back hi hmap hholds hlen buf'
  rw [← hsame.1, ← hsame.2] at hread
  exact ⟨_, out, sysRead_ok hstd hq hflags' hw.2.1 hread, hout⟩

/-- Descriptors 3 and 5 are on file 0, each with an open file of its own, and 4 is on file 1. -/
def twoTask : TaskFiles :=
  ⟨twoFs, fun fd => if fd = 3 then some 0 else if fd = 4 then some 1 else if fd = 5 then some 2 else none,
    fun p => if p = 1 then ⟨1, 2, 8⟩ else ⟨0, 2, 2⟩⟩

theorem twoTask_inode (p : ℕ) : (twoTask.file p).inode ∈ ({0, 1} : Set ℕ) := by
  show (if p = 1 then (⟨1, 2, 8⟩ : File) else ⟨0, 2, 2⟩).inode ∈ _
  split_ifs
  · exact Or.inr rfl
  · exact Or.inl rfl

theorem twoTask_fits (p : ℕ) {len : ℕ} (hlen : len ≤ 16) : (twoTask.file p).offset + len ≤ directBytes := by
  show (if p = 1 then (⟨1, 2, 8⟩ : File) else ⟨0, 2, 2⟩).offset + len ≤ 7 * 1024
  split_ifs
  · show 8 + len ≤ _
    omega
  · show 2 + len ≤ _
    omega

theorem twoTask_init : (descSys {0, 1} idleDevices).init twoTask := twoFs_init

/-- What the three calls of the task do. -/
theorem twoTask_calls : ∃ (s₁ s₂ s₃ : Fs) (out : ℕ → BitVec 8) (n : ℤ),
    DescStep {0, 1} idleDevices twoTask (.write 3 (fun _ => 7#8) 4 0) (twoTask.setFs s₁) ∧
    DescStep {0, 1} idleDevices (twoTask.setFs s₁) (.write 4 (fun _ => 8#8) 9 0) (twoTask.setFs s₂) ∧
    DescStep {0, 1} idleDevices (twoTask.setFs s₂) (.read 5 (fun _ => 0#8) 4 out n)
      ((twoTask.setFs s₃).advance 2 n) := by
  obtain ⟨s₁, s₂, s₃, r₁, r₂, out, n, h₁, h₂, h₃⟩ : ∃ s₁ s₂ s₃ r₁ r₂ out n,
      twoFs.inodeWrite 0 (fun _ => 7#8) 4 2 = .ok (s₁, r₁) ∧
      s₁.inodeWrite 1 (fun _ => 8#8) 9 8 = .ok (s₂, r₂) ∧
      s₂.inodeRead 0 (fun _ => 0#8) 4 2 = .ok (s₃, out, n) := ⟨_, _, _, _, _, _, _, rfl, rfl, rfl⟩
  refine ⟨s₁, s₂, s₃, out, n, ⟨by decide, by decide, fun p _ => ⟨twoTask_inode p, twoTask_fits p (by decide)⟩, ?_⟩,
    ⟨by decide, by decide, fun p _ => ⟨twoTask_inode p, twoTask_fits p (by decide)⟩, ?_⟩,
    ⟨by decide, by decide, fun p _ => twoTask_inode p, ?_⟩⟩
  · exact sysWrite_ok (p := 0) (by decide) rfl (by decide) (by decide) h₁
  · exact sysWrite_ok (p := 1) (by decide) rfl (by decide : (twoTask.file 1).flags &&& oAccmode ≠ oRdonly)
      (by decide) h₂
  · exact sysRead_ok (p := 2) (by decide) rfl (by decide : (twoTask.file 2).flags &&& oAccmode ≠ oWronly)
      (by decide) h₃

/-- A file is read through descriptor 5 that has been written through descriptor 3. -/
theorem descriptors_read_back_two : ∃ (t₁ t₂ t₃ : TaskFiles) (out : ℕ → BitVec 8),
    DescStep {0, 1} idleDevices twoTask (.write 3 (fun _ => 7#8) 4 0) t₁ ∧
    DescStep {0, 1} idleDevices t₁ (.write 4 (fun _ => 8#8) 9 0) t₂ ∧
    sysRead idleDevices t₂ 5 (fun _ => 0#8) 4 = .ok (t₃, out, 4) ∧ ∀ k < 4, out k = 7#8 := by
  obtain ⟨s₁, s₂, -, -, -, h₁, h₂, -⟩ := twoTask_calls
  have hspares : DescSpares 0 4 2 (twoTask.setFs s₁) (.write 4 (fun _ => 8#8) 9 0) := by
    intro p hp hi
    obtain rfl : p = 1 := (Option.some.inj hp).symm
    exact absurd hi (by decide : (twoTask.file 1).inode ≠ 0)
  have hrun : ((descSys {0, 1} idleDevices).restrict (DescSpares 0 4 2)).Run (twoTask.setFs s₁)
      [.write 4 (fun _ => 8#8) 9 0] (twoTask.setFs s₂) := .single ⟨hspares, h₂⟩
  obtain ⟨t₃, out, h₃, hout⟩ := descriptors_read_back (p := 0) (q := 2) twoTask_init (by decide)
    rfl (by decide) h₁ hrun (by decide : (5 : ℤ) ≠ stdin) rfl
    (by decide : (twoTask.file 2).flags &&& oAccmode ≠ oWronly) ⟨rfl, rfl⟩ fun _ => 0#8
  exact ⟨_, _, t₃, out, h₁, h₂, h₃, hout⟩

end Runs

end Rdix
