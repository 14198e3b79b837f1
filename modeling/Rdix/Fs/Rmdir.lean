/-
  Removing a directory (fs/minix1/namei.c: sys_rmdir).

  A path with a last component goes to `rollback` at once, and one without has nothing to remove: the
  test of `childname` is the wrong way round.

  * `nameiLoop_same`, `sysRmdir_eof`: every call that returns gives `EOF`, and has written no block;
  * `rmdir_right_iff`: so it does what it should exactly for the paths that name no directory that
    can be removed.
-/
import Rdix.Fs.BmapApart
import Rdix.Fs.FindEntry
import Rdix.Fs.Resolve
import Rdix.Fs.Zones

namespace Rdix

open ByteMem Function

namespace Fs

/-! ## Directories that can be removed -/

/-- Inode `m` as it stands in the inode table. -/
def nodeInode (s : Fs) (m : ℕ) : MInode := ⟨EOF, m, 0, s.inodeBlock m, (m - 1) % blockInodes⟩

/-- Entry `j` of the directory with inode `m`, if it is in use: its name and its inode. -/
def nodeEntry (s : Fs) (m j : ℕ) : Option (List (BitVec 8) × ℕ) :=
  let b := s.cache.data (s.cache.zoneAt (s.nodeInode m) (.ofBlock (j / blockDentrys)))
  if slotNr b (j % blockDentrys) = 0 then none
  else some (entryName b (16 * (j % blockDentrys) + 2), slotNr b (j % blockDentrys))

/-- Inode `m` is the entry `name` of the directory with inode `k`, and the task may remove it: it is an
    empty directory other than the root that nobody uses, and passes the sticky check. -/
structure Removable (s : Fs) (task : FsTask) (k : ℕ) (name : CStr) (m : ℕ) : Prop where
  entry : s.Entry k name m
  parent : m ≠ k
  number : m ≤ s.sb.inodes
  dir : ISDIR (s.nodeField m .mode)
  root : m ≠ (s.inode task.i_root).nr
  empty : ∀ j < s.nodeField m .size / 16, ∀ e, s.nodeEntry m j = some e → e.1 = [0x2e#8] ∨ e.1 = [0x2e#8, 0x2e#8]
  unused : ∀ i, (s.inode i).dev ≠ EOF → (s.inode i).nr ≠ m
  sticky : ¬ (s.nodeField k .mode &&& isvtx ≠ 0 ∧ task.uid ≠ s.nodeField m .uid)

/-- The path leads to the directory with inode `k`, and `name` is left of it. -/
def LeadsTo (s : Fs) (task : FsTask) (path : CStr) (k : ℕ) (name : CStr) : Prop :=
  filename path = .ok (some name) ∧ ∃ r, StopsAt s (s.inode task.i_root).nr (s.inode task.i_pwd).nr path k r

/-- The path names a directory that can be removed. -/
def NamesRemovable (s : Fs) (task : FsTask) (path : CStr) : Prop :=
  ∃ k name m, s.LeadsTo task path k name ∧ s.Removable task k name m

/-- The directory has been removed: its entry, its inode and its zones are given back, and its parent
    has a link less. -/
structure Removed (s : Fs) (k : ℕ) (name : CStr) (m : ℕ) (s' : Fs) : Prop where
  entry : ∀ n, ¬ s'.Entry k name n
  inode : mapBit s'.sb.imaps m = false
  zones : ∀ p : Place, p.Valid → s.cache.zoneAt (s.nodeInode m) p ≠ 0 →
    s'.sb.zoneUsed (s.cache.zoneAt (s.nodeInode m) p) = false
  nlinks : s'.nodeField k .nlinks + 1 = s.nodeField k .nlinks

/-- The call removes what can be removed and only that, and a failed call changes nothing. -/
structure RmdirRight (s : Fs) (task : FsTask) (path : CStr) : Prop where
  zero_iff : (∃ s', s.sysRmdir task path = .ok (s', 0)) ↔ s.NamesRemovable task path
  removed : ∀ s', s.sysRmdir task path = .ok (s', 0) →
    ∃ k name m, s.LeadsTo task path k name ∧ s.Removed k name m s'
  kept : ∀ s', s.sysRmdir task path = .ok (s', EOF) → s'.cache.data = s.cache.data ∧ s'.sb = s.sb

/-! ## The call -/

variable {s s' : Fs} {task : FsTask} {path : CStr}

/-- The resolution of a path writes no block. -/
theorem nameiLoop_same {dorc : Bool} {n node : ℕ} {ptr : CStr} {o : Option ℕ}
    (h : nameiLoop dorc n s node ptr = .ok (s', o)) : s.SameData s' := by
  induction n generalizing s node ptr with
  | zero =>
    cases ptr with
    | nil =>
      cases h
      exact .refl _
    | cons c cs => cases h
  | succ n ih =>
    cases ptr with
    | nil =>
      cases h
      exact .refl _
    | cons c cs =>
      obtain ⟨-, h⟩ := cassert_bind_eq_ok.1 h
      obtain ⟨⟨s₁, bf⟩, h₁, h⟩ := bind_eq_ok.1 h
      have hs₁ : s.SameData s₁ := (findEntry_touched h₁).same
      dsimp only at h
      split_ifs at h
      · cases h
        exact hs₁
      cases bf with
      | none =>
        obtain ⟨s₂, h₂, h⟩ := bind_eq_ok.1 h
        cases h
        exact hs₁.trans (iput_same h₂)
      | some p =>
        obtain ⟨s₂, h₂, h⟩ := bind_eq_ok.1 h
        obtain ⟨nr, -, h⟩ := bind_eq_ok.1 h
        obtain ⟨⟨s₃, k⟩, h₃, h⟩ := bind_eq_ok.1 h
        have hs₃ := (hs₁.trans (iput_same h₂)).trans (iget_same h₃)
        exact (hs₃.trans ((Touched.refl s₃).brelse p.1).same).trans (ih h)

theorem _namei_same {dorc : Bool} {o : Option ℕ} (h : s._namei task path dorc = .ok (s', o)) :
    s.SameData s' := by
  have hinc : ∀ i, s.SameData (s.incCount i) := fun i => ⟨rfl, rfl⟩
  cases path with
  | nil =>
    cases h
    exact .refl _
  | cons c cs =>
    unfold _namei at h
    dsimp only at h
    split_ifs at h
    · exact (hinc _).trans (nameiLoop_same h)
    · exact (hinc _).trans (nameiLoop_same h)

/-- **Every call that returns gives `EOF`**, and has written nothing. -/
theorem sysRmdir_eof {r : ℤ} (h : s.sysRmdir task path = .ok (s', r)) : r = EOF ∧ s.SameData s' := by
  obtain ⟨childname, -, h⟩ := bind_eq_ok.1 h
  obtain ⟨⟨s₁, dir⟩, h₁, h⟩ := bind_eq_ok.1 h
  have hs₁ := _namei_same h₁
  dsimp only at h
  by_cases hchild : childname ≠ none
  · rw [if_pos hchild] at h
    cases dir with
    | none =>
      cases h
      exact ⟨rfl, hs₁⟩
    | some dir =>
      obtain ⟨s₂, h₂, h⟩ := bind_eq_ok.1 h
      cases h
      exact ⟨rfl, hs₁.trans (iput_same h₂)⟩
  · -- without a last component `find_entry` has no name to look for
    obtain rfl := not_not.1 hchild
    rw [if_neg hchild] at h
    cases dir with
    | none =>
      cases h
      exact ⟨rfl, hs₁⟩
    | some dir =>
      obtain ⟨⟨s₂, bf⟩, h₂, h⟩ := bind_eq_ok.1 h
      obtain ⟨-, h₂⟩ := cassert_bind_eq_ok.1 h₂
      cases h₂
      cases h
      exact ⟨rfl, hs₁⟩

/-- **`sys_rmdir` does what it should exactly if the path names no directory that can be removed.** -/
theorem rmdir_right_iff : s.RmdirRight task path ↔ ¬ s.NamesRemovable task path := by
  have hnever : ∀ s', s.sysRmdir task path ≠ .ok (s', 0) := by
    intro s' h
    have hr := (sysRmdir_eof h).1
    simp [EOF] at hr
  constructor
  · intro h hnames
    obtain ⟨s', hs'⟩ := h.zero_iff.2 hnames
    exact hnever s' hs'
  · intro hnames
    refine ⟨⟨fun h => ?_, fun h => absurd h hnames⟩, fun s' h => absurd h (hnever s'), fun s' h => ?_⟩
    · obtain ⟨s', hs'⟩ := h
      exact absurd hs' (hnever s')
    · have hs := (sysRmdir_eof h).2
      exact ⟨hs.data, hs.sb⟩

end Fs

open Fs

/-- The directory `a` is empty. -/
theorem smallFs_removable : (smallFs 3).Removable smallTask.task 1 pathA 2 where
  entry := by
    refine ⟨by decide +kernel, by decide, by decide +kernel, 2, ?_, by decide +kernel⟩
    have hscan : ((smallFs 3).scan ((smallFs 3).nodeField 1 (.zone 0)) pathA
        ((smallFs 3).nodeField 1 .size / 16) 0 >>= fun o => cassert (o = some 2) "found").isOk = true := by
      decide +kernel
    obtain ⟨a, h⟩ := ok_of_isOk hscan
    obtain ⟨o, ho, h⟩ := bind_eq_ok.1 h
    unfold cassert at h
    split_ifs at h with heq
    rw [ho, heq]
  parent := by decide
  number := by decide
  dir := by decide +kernel
  root := by decide
  empty := by
    have hsize : (smallFs 3).nodeField 2 .size / 16 = 2 := by decide +kernel
    have hzero : (smallFs 3).nodeEntry 2 0 = some ([0x2e#8], 2) := by decide +kernel
    have hone : (smallFs 3).nodeEntry 2 1 = some ([0x2e#8, 0x2e#8], 1) := by decide +kernel
    intro j hj e he
    rw [hsize] at hj
    interval_cases j
    · rw [hzero] at he
      cases he
      exact Or.inl rfl
    · rw [hone] at he
      cases he
      exact Or.inr rfl
  unused := by
    intro i hi
    have h0 : i = 0 := by
      by_contra hne
      exact hi (by simp [smallFs, hne])
    rw [h0]
    decide
  sticky := by decide +kernel

/-- **`rmdir("a")` returns `EOF`**, although `a` is empty and nobody uses it. -/
theorem rmdir_refuses : smallTask.Mounted 1 {0} ∧ SoundTree smallTask.fs smallTask.root ∧
    smallTask.fs.NamesRemovable smallTask.task pathA ∧
    ∃ s', smallTask.fs.sysRmdir smallTask.task pathA = .ok (s', EOF) := by
  have hrun : (do
      let r ← smallTask.fs.sysRmdir smallTask.task pathA
      cassert (r.2 = EOF) "refused"
      return () : C Unit).isOk = true := by decide +kernel
  obtain ⟨a, hrun⟩ := ok_of_isOk hrun
  obtain ⟨⟨s', r⟩, hr, hrun⟩ := bind_eq_ok.1 hrun
  obtain ⟨rfl, -⟩ := cassert_bind_eq_ok.1 hrun
  have hname : (filename pathA >>= fun o => cassert (o = some pathA) "name").isOk = true := by decide +kernel
  obtain ⟨b, hname⟩ := ok_of_isOk hname
  obtain ⟨o, ho, hname⟩ := bind_eq_ok.1 hname
  unfold cassert at hname
  split_ifs at hname with heq
  refine ⟨smallTask_mounted, smallFs_sound, ⟨1, pathA, 2, ⟨heq ▸ ho, pathA, ?_⟩, smallFs_removable⟩, s', hr⟩
  exact stopsAt_cons.2 (.last (by decide))

end Rdix
