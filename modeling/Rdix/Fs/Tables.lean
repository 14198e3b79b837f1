/-
  The inode and the superblock table, with any number of tasks (fs/minix1/inode.c: iget, iput;
  fs/minix1/super.c: read_super, get_super).

  A step is what one task does up to the next `bread` or `brelse`, where another may run.  A buffer
  is the block that `bread` has read into it.  `refs` and `got` are not in the source: who holds a
  reference to an entry of the inode table, and the superblocks that `get_super` has returned to a
  task.

  * `InodeOk`, `SuperOk`: the invariant of an entry, as long as no task finds an entry that another
    one fills or gives back;
  * `tables_usable`: then every entry that a task holds is filled;
  * `tables_half_done`: without the condition it is not.
-/
import Rdix.Lib.Run
import Rdix.Fs.Block

namespace Rdix

open Function Transition

/-! ## Data -/

/-- The fields of `d_super_block` that the tables use. -/
structure DSuper where
  inodes : ℕ
  imap_blocks : ℕ
  zmap_blocks : ℕ
  magic : ℕ

/-- `m_inode` in the table, for devices `D`; `dev` is `none` for `EOF`, `desc` is the block it
    points into and the place there. -/
structure InodeEntry (D : Type) where
  dev : Option D
  nr : ℤ
  count : ℕ
  buf : Option (D × ℕ)
  desc : Option ((D × ℕ) × ℕ)

/-- `super_block_t` in the table. -/
structure SuperEntry (D : Type) where
  dev : Option D
  buf : Option (D × ℕ)
  desc : Option (D × ℕ)
  imaps : List (Option (D × ℕ))
  zmaps : List (Option (D × ℕ))

/-- The calls of `bread` in `read_super`. -/
inductive SuperRead where
  | desc
  | imap (i idx : ℕ)
  | zmap (i idx : ℕ)

/-- Where a task is. -/
inductive TabPc (D : Type) where
  /-- in its own code -/
  | out
  /-- in `read_super`, for `iget(dev, nr)` or for a call of `get_super` -/
  | super (dev : D) (j : ℕ) (st : SuperRead) (nr : Option ℤ)
  /-- in the `bread` of `iget` -/
  | iget (i : ℕ) (blk : D × ℕ)
  /-- in the `brelse` of `iput` -/
  | iput (i : ℕ)

/-- The tables and the tasks. -/
structure Tables (T D : Type) where
  inode : ℕ → InodeEntry D
  super : ℕ → SuperEntry D
  pc : T → TabPc D
  refs : ℕ → List T
  got : T → List ℕ

/-- `SUPER_NR`. -/
abbrev superNr : ℕ := 32

/-- `inode_block`. -/
def inodeBlock (desc : DSuper) (nr : ℤ) : ℕ :=
  2 + desc.imap_blocks + desc.zmap_blocks + (nr - 1).toNat / blockInodes

namespace Tables

variable {T D : Type}

/-! ## The functions -/

section Lookup
variable [DecidableEq D]

def findInode (s : Tables T D) (dev : D) (nr : ℤ) : Option ℕ :=
  (List.range inodeNr).find? fun i => (s.inode i).dev = some dev ∧ (s.inode i).nr = nr

def getFreeInode (s : Tables T D) : C ℕ :=
  match (List.range inodeNr).find? fun i => (s.inode i).dev = none with
  | some i => return i
  | none => throw (.panic "no more inode!!!")

/-- The loop of `get_super`. -/
def findSuper (s : Tables T D) (dev : D) : Option ℕ :=
  (List.range superNr).find? fun j => (s.super j).dev = some dev

def getFreeSuper (s : Tables T D) : C ℕ :=
  match (List.range superNr).find? fun j => (s.super j).dev = none with
  | some j => return j
  | none => throw (.panic "no more super block!!!")

end Lookup

/-- Change an entry of the inode table. -/
def setInode (s : Tables T D) (i : ℕ) (f : InodeEntry D → InodeEntry D) : Tables T D :=
  { s with inode := update s.inode i (f (s.inode i)) }

/-- Change an entry of the superblock table. -/
def setSuper (s : Tables T D) (j : ℕ) (f : SuperEntry D → SuperEntry D) : Tables T D :=
  { s with super := update s.super j (f (s.super j)) }

variable [DecidableEq T]

/-- A task goes on at `pc`. -/
def goto (s : Tables T D) (t : T) (pc : TabPc D) : Tables T D := { s with pc := update s.pc t pc }

/-- `iget` returns entry `i`. -/
def hold (s : Tables T D) (t : T) (i : ℕ) : Tables T D :=
  { s with refs := update s.refs i (t :: s.refs i) }.goto t .out

variable [DecidableEq D] (disk : D × ℕ → DSuper)

/-- `iget` from behind `get_super` to `bread`. -/
def igetSuper (s : Tables T D) (t : T) (dev : D) (nr : ℤ) (j : ℕ) : C (Tables T D) := do
  let desc ← deref "sb->desc" (s.super j).desc
  cassert (nr ≤ (disk desc).inodes) "nr <= sb->desc->inodes"
  let i ← s.getFreeInode
  let s := s.setInode i fun e => { e with dev := some dev, nr := nr, count := 1 }
  return s.goto t (.iget i (dev, inodeBlock (disk desc) nr))

/-- `get_super` returns entry `j`, to `iget` or to a task. -/
def superDone (s : Tables T D) (t : T) (dev : D) (j : ℕ) (nr : Option ℤ) : C (Tables T D) :=
  let s := { s with got := update s.got t (j :: s.got t) }
  match nr with
  | some nr => s.igetSuper disk t dev nr j
  | none => return s.goto t .out

/-- The second loop of `read_super`, from `i` on. -/
def readZmap (s : Tables T D) (t : T) (dev : D) (j i idx : ℕ) (nr : Option ℤ) :
    C (Tables T D) := do
  let desc ← deref "sb->desc" (s.super j).desc
  if i < (disk desc).zmap_blocks then
    cassert (i < 8) "i < ZMAP_NR"
    return s.goto t (.super dev j (.zmap i idx) nr)
  else s.superDone disk t dev j nr

/-- The first loop of `read_super`, from `i` on. -/
def readImap (s : Tables T D) (t : T) (dev : D) (j i idx : ℕ) (nr : Option ℤ) :
    C (Tables T D) := do
  let desc ← deref "sb->desc" (s.super j).desc
  if i < (disk desc).imap_blocks then
    cassert (i < 8) "i < IMAP_NR"
    return s.goto t (.super dev j (.imap i idx) nr)
  else s.readZmap disk t dev j 0 idx nr

/-- `read_super` behind one of its calls of `bread`. -/
def superRead (s : Tables T D) (t : T) (dev : D) (j : ℕ) (nr : Option ℤ) :
    SuperRead → C (Tables T D)
  | .desc => do
    let s := s.setSuper j fun sb => { sb with buf := some (dev, 1), desc := some (dev, 1) }
    cassert ((disk (dev, 1)).magic = 0x137F) "sb->desc->magic == MINIX1_MAGIC"
    let s := s.setSuper j fun sb =>
      { sb with imaps := List.replicate 8 none, zmaps := List.replicate 8 none }
    s.readImap disk t dev j 0 2 nr
  | .imap i idx =>
    (s.setSuper j fun sb => { sb with imaps := sb.imaps.set i (some (dev, idx)) }).readImap disk t dev j
      (i + 1) (idx + 1) nr
  | .zmap i idx =>
    (s.setSuper j fun sb => { sb with zmaps := sb.zmaps.set i (some (dev, idx)) }).readZmap disk t dev j
      (i + 1) (idx + 1) nr

/-- `get_super`, called by `iget(dev, nr)` or by a task. -/
def getSuper (s : Tables T D) (t : T) (dev : D) (nr : Option ℤ) : C (Tables T D) :=
  match s.findSuper dev with
  | some j => s.superDone disk t dev j nr
  | none => do
    let j ← s.getFreeSuper
    return (s.setSuper j fun sb => { sb with dev := some dev }).goto t (.super dev j .desc nr)

def iget (s : Tables T D) (t : T) (dev : D) (nr : ℤ) : C (Tables T D) := do
  cassert (0 < nr) "nr > 0"
  match s.findInode dev nr with
  | some i => return (s.setInode i fun e => { e with count := u32 (e.count + 1) }).hold t i
  | none => s.getSuper disk t dev (some nr)

omit [DecidableEq D] in
/-- `iget` behind `bread`. -/
def igetRead (s : Tables T D) (t : T) (i : ℕ) (blk : D × ℕ) : Tables T D :=
  (s.setInode i fun e =>
    { e with buf := some blk, desc := some (blk, (e.nr - 1).toNat % blockInodes) }).hold t i

omit [DecidableEq D] in
/-- `iput`, up to its `brelse`. -/
def iput (s : Tables T D) (t : T) (i : ℕ) : C (Tables T D) := do
  cassert (0 < (s.inode i).count) "inode->count > 0"
  let s := { s with refs := update s.refs i ((s.refs i).erase t) }
  if 1 < (s.inode i).count then return s.setInode i fun e => { e with count := e.count - 1 }
  else return s.goto t (.iput i)

omit [DecidableEq D] in
/-- `iput` behind `brelse`. -/
def iputDone (s : Tables T D) (t : T) (i : ℕ) : Tables T D :=
  (s.setInode i fun e => { e with count := 0, dev := none }).goto t .out

end Tables

/-! ## Steps -/

inductive TabAct (T D : Type) where
  | iget (t : T) (dev : D) (nr : ℤ)
  | getSuper (t : T) (dev : D)
  | iput (t : T) (i : ℕ)
  /-- the task goes on behind `bread` or `brelse` -/
  | run (t : T)

variable {T D : Type} [DecidableEq T] [DecidableEq D]

/-- The steps of the tasks; one that halts the kernel is none. -/
inductive TabStep (disk : D × ℕ → DSuper) (s : Tables T D) : TabAct T D → Tables T D → Prop where
  | iget {t dev nr s'} : s.pc t = .out → s.iget disk t dev nr = .ok s' →
      TabStep disk s (.iget t dev nr) s'
  | getSuper {t dev s'} : s.pc t = .out → s.getSuper disk t dev none = .ok s' →
      TabStep disk s (.getSuper t dev) s'
  | iput {t i s'} : s.pc t = .out → t ∈ s.refs i → s.iput t i = .ok s' → TabStep disk s (.iput t i) s'
  | superRead {t dev j st nr s'} : s.pc t = .super dev j st nr →
      s.superRead disk t dev j nr st = .ok s' → TabStep disk s (.run t) s'
  | igetRead {t i blk} : s.pc t = .iget i blk → TabStep disk s (.run t) (s.igetRead t i blk)
  | iputDone {t i} : s.pc t = .iput i → TabStep disk s (.run t) (s.iputDone t i)

/-- Any number of tasks, from `inode_init` and `super_init` on. -/
def tabSys (T D : Type) [DecidableEq T] [DecidableEq D] (disk : D × ℕ → DSuper) :
    Sys (Tables T D) (TabAct T D) where
  init s := (∀ i, (s.inode i).dev = none) ∧
    (∀ j, (s.super j).dev = none ∧ (s.super j).desc = none ∧ (s.super j).buf = none) ∧
    (∀ t, s.pc t = .out) ∧ (∀ i, s.refs i = []) ∧ ∀ t, s.got t = []
  step := TabStep disk

/-! ## The entries of the inode table -/

/-- The entry that a task fills or gives back. -/
def TabPc.inode {D : Type} : TabPc D → Option ℕ
  | .iget i _ => some i
  | .iput i => some i
  | _ => none

/-- The entry of the superblock table that a task fills. -/
def TabPc.reads {D : Type} : TabPc D → Option ℕ
  | .super _ j _ _ => some j
  | _ => none

theorem TabPc.reads_eq {D : Type} {pc : TabPc D} {j : ℕ} (h : pc.reads = some j) :
    ∃ d st nr, pc = .super d j st nr := by
  cases pc with
  | super d j' st nr =>
    cases h
    exact ⟨d, st, nr, rfl⟩
  | out => cases h
  | iget _ _ => cases h
  | iput _ => cases h

namespace Tables

variable {T D : Type} (disk : D × ℕ → DSuper) {s s' : Tables T D} {i j : ℕ}

/-- `desc` and `buf` are those of the block of the entry's own inode. -/
def Filled (e : InodeEntry D) : Prop := ∃ d, e.dev = some d ∧
  e.buf = some (d, inodeBlock (disk (d, 1)) e.nr) ∧
  e.desc = some ((d, inodeBlock (disk (d, 1)) e.nr), (e.nr - 1).toNat % blockInodes)

/-- Entry `i` of the inode table: while one task fills it or gives it back, no one holds it. -/
structure InodeOk (s : Tables T D) (i : ℕ) : Prop where
  free : (s.inode i).dev = none → s.refs i = [] ∧ ∀ t, (s.pc t).inode ≠ some i
  busy : ∀ t, (s.pc t).inode = some i → s.refs i = [] ∧ ∀ t', (s.pc t').inode = some i → t' = t
  fill : ∀ t blk, s.pc t = .iget i blk → (s.inode i).count = 1 ∧
    ∃ d, (s.inode i).dev = some d ∧ blk = (d, inodeBlock (disk (d, 1)) (s.inode i).nr)
  count : (∀ t, (s.pc t).inode ≠ some i) → (s.inode i).dev ≠ none →
    Filled disk (s.inode i) ∧ (s.inode i).count = (s.refs i).length

/-- What the other tasks do to other entries. -/
theorem InodeOk.frame (h : InodeOk disk s i) (he : s'.inode i = s.inode i) (hr : s'.refs i = s.refs i)
    (hpc : ∀ t, s'.pc t ≠ s.pc t → (s.pc t).inode ≠ some i ∧ (s'.pc t).inode ≠ some i) :
    InodeOk disk s' i := by
  have hnew : ∀ t, (s'.pc t).inode = some i → s'.pc t = s.pc t :=
    fun t ht => by_contra fun hne => (hpc t hne).2 ht
  have hold : ∀ t, (s.pc t).inode = some i → s'.pc t = s.pc t :=
    fun t ht => by_contra fun hne => (hpc t hne).1 ht
  constructor
  · intro hd
    rw [he] at hd
    obtain ⟨hrefs, hno⟩ := h.free hd
    refine ⟨hr.trans hrefs, fun t ht => ?_⟩
    exact hno t (hnew t ht ▸ ht)
  · intro t ht
    obtain ⟨hrefs, hone⟩ := h.busy t (hnew t ht ▸ ht)
    exact ⟨hr.trans hrefs, fun t' ht' => hone t' (hnew t' ht' ▸ ht')⟩
  · intro t blk ht
    have hs : s'.pc t = s.pc t := hnew t (by rw [ht]; rfl)
    rw [he]
    exact h.fill t blk (hs ▸ ht)
  · intro hno hd
    rw [he] at hd ⊢
    rw [hr]
    exact h.count (fun t ht => hno t (hold t ht ▸ ht)) hd

/-! ## The entries of the superblock table -/

/-- The entries `lo ≤ k < hi` of `maps` are the blocks behind `idx`. -/
def MapsRead (maps : List (Option (D × ℕ))) (d : D) (idx n : ℕ) : Prop :=
  maps.length = 8 ∧ ∀ k < n, maps[k]? = some (some (d, idx + k))

/-- `desc` and all bitmap buffers are set. -/
def Complete (sb : SuperEntry D) : Prop := ∃ d, sb.dev = some d ∧ sb.buf = some (d, 1) ∧
  sb.desc = some (d, 1) ∧ MapsRead sb.imaps d 2 (disk (d, 1)).imap_blocks ∧
  MapsRead sb.zmaps d (2 + (disk (d, 1)).imap_blocks) (disk (d, 1)).zmap_blocks

/-- How far `read_super` has come. -/
def ReadUpTo (sb : SuperEntry D) (d : D) : SuperRead → Prop
  | .desc => True
  | .imap i idx => sb.buf = some (d, 1) ∧ sb.desc = some (d, 1) ∧ i < 8 ∧ idx = 2 + i ∧
    i < (disk (d, 1)).imap_blocks ∧ MapsRead sb.imaps d 2 i ∧ sb.zmaps.length = 8
  | .zmap i idx => sb.buf = some (d, 1) ∧ sb.desc = some (d, 1) ∧ i < 8 ∧
    idx = 2 + (disk (d, 1)).imap_blocks + i ∧ i < (disk (d, 1)).zmap_blocks ∧
    MapsRead sb.imaps d 2 (disk (d, 1)).imap_blocks ∧
    MapsRead sb.zmaps d (2 + (disk (d, 1)).imap_blocks) i

/-- Entry `j` of the superblock table: while a task fills it, no task has been given it. -/
structure SuperOk (s : Tables T D) (j : ℕ) : Prop where
  reads : ∀ t d st nr, s.pc t = .super d j st nr → (s.super j).dev = some d ∧
    ReadUpTo disk (s.super j) d st ∧ (∀ t', (s.pc t').reads = some j → t' = t) ∧ ∀ t', j ∉ s.got t'
  complete : (∀ t, (s.pc t).reads ≠ some j) → (s.super j).dev ≠ none → Complete disk (s.super j)
  got : ∀ t, j ∈ s.got t → (s.super j).dev ≠ none

theorem SuperOk.frame (h : SuperOk disk s j) (he : s'.super j = s.super j)
    (hg : ∀ t, j ∈ s'.got t ↔ j ∈ s.got t)
    (hpc : ∀ t, s'.pc t ≠ s.pc t → (s.pc t).reads ≠ some j ∧ (s'.pc t).reads ≠ some j) :
    SuperOk disk s' j := by
  have hnew : ∀ t, (s'.pc t).reads = some j → s'.pc t = s.pc t :=
    fun t ht => by_contra fun hne => (hpc t hne).2 ht
  have hold : ∀ t, (s.pc t).reads = some j → s'.pc t = s.pc t :=
    fun t ht => by_contra fun hne => (hpc t hne).1 ht
  constructor
  · intro t d st nr ht
    have hs : s'.pc t = s.pc t := hnew t (by rw [ht]; rfl)
    obtain ⟨hd, hr, hone, hno⟩ := h.reads t d st nr (hs ▸ ht)
    rw [he]
    refine ⟨hd, hr, fun t' ht' => hone t' (hnew t' ht' ▸ ht'), fun t' ht' => ?_⟩
    exact hno t' ((hg t').1 ht')
  · intro hno hd
    rw [he] at hd ⊢
    exact h.complete (fun t ht => hno t (hold t ht ▸ ht)) hd
  · intro t ht
    rw [he]
    exact h.got t ((hg t).1 ht)

/-- A superblock that no task fills, and that has been given out, is complete. -/
theorem SuperOk.got_complete (h : SuperOk disk s j) {t : T} (ht : j ∈ s.got t) :
    Complete disk (s.super j) := by
  refine h.complete (fun t' ht' => ?_) (h.got t ht)
  obtain ⟨d, st, nr, hpc⟩ := TabPc.reads_eq ht'
  exact (h.reads t' d st nr hpc).2.2.2 t ht

/-- The invariant of both tables. -/
structure TabInv (s : Tables T D) : Prop where
  inode : ∀ i, InodeOk disk s i
  super : ∀ j, SuperOk disk s j

variable {disk} {t : T} {d : D} {nr : ℤ} {onr : Option ℤ} {st st' : SuperRead} {blk : D × ℕ}

theorem setInode_inode_of_ne {f : InodeEntry D → InodeEntry D} {k : ℕ} (h : k ≠ i) :
    (s.setInode i f).inode k = s.inode k := update_of_ne h ..

theorem setSuper_super_of_ne {f : SuperEntry D → SuperEntry D} {k : ℕ} (h : k ≠ j) :
    (s.setSuper j f).super k = s.super k := update_of_ne h ..

theorem setSuper_self {f : SuperEntry D → SuperEntry D} : (s.setSuper j f).super j = f (s.super j) :=
  update_self ..

theorem setSuper_setSuper {f g : SuperEntry D → SuperEntry D} :
    (s.setSuper j f).setSuper j g = s.setSuper j fun sb => g (f sb) := by
  simp only [Tables.setSuper, update_self, update_idem]

theorem MapsRead.succ {maps : List (Option (D × ℕ))} {idx n : ℕ} (h : MapsRead maps d idx n)
    (hn : n < 8) : MapsRead (maps.set n (some (d, idx + n))) d idx (n + 1) := by
  refine ⟨by rw [List.length_set, h.1], fun k hk => ?_⟩
  by_cases hkn : k = n
  · rw [hkn, List.getElem?_set_self (h.1.symm ▸ hn)]
  · rw [List.getElem?_set_ne (Ne.symm hkn)]
    exact h.2 k (by omega)

theorem getFreeInode_ok (h : s.getFreeInode = .ok i) : (s.inode i).dev = none := by
  unfold getFreeInode at h
  split at h
  · rename_i k hk
    cases h
    have hp := List.find?_some hk
    exact of_decide_eq_true hp
  · cases h

theorem getFreeSuper_ok (h : s.getFreeSuper = .ok j) : (s.super j).dev = none := by
  unfold getFreeSuper at h
  split at h
  · rename_i k hk
    cases h
    have hp := List.find?_some hk
    exact of_decide_eq_true hp
  · cases h

theorem findInode_some [DecidableEq D] (h : s.findInode d nr = some i) :
    (s.inode i).dev = some d ∧ (s.inode i).nr = nr := by
  have hp := List.find?_some h
  exact of_decide_eq_true hp

theorem findSuper_some [DecidableEq D] (h : s.findSuper d = some j) : (s.super j).dev = some d := by
  have hp := List.find?_some h
  exact of_decide_eq_true hp

/-- The task that is busy with an entry is the only one. -/
theorem InodeOk.others (h : InodeOk disk s i) (ht : (s.pc t).inode = some i) (u : T) (hu : u ≠ t) :
    (s.pc u).inode ≠ some i := fun he => hu ((h.busy t ht).2 u he)

variable [DecidableEq T]

theorem goto_self {pc : TabPc D} : (s.goto t pc).pc t = pc := update_self ..

theorem goto_eq_self {pc : TabPc D} (h : s.pc t = pc) : s.goto t pc = s := by
  rw [goto, ← h, update_eq_self]

theorem goto_of_ne {pc : TabPc D} {u : T} (h : u ≠ t) : (s.goto t pc).pc u = s.pc u := update_of_ne h ..

/-- A task that goes on does nothing to the entries that it neither leaves nor enters. -/
theorem goto_pc {pc : TabPc D} {P : TabPc D → Prop} (hold : P (s.pc t)) (hnew : P pc) (u : T)
    (hu : (s.goto t pc).pc u ≠ s.pc u) : P (s.pc u) ∧ P ((s.goto t pc).pc u) := by
  by_cases h : u = t
  · rw [h, goto_self]
    exact ⟨hold, hnew⟩
  · exact absurd (goto_of_ne h) hu

/-- The steps that touch one superblock. -/
theorem TabInv.setSuper (h : TabInv disk s) {f : SuperEntry D → SuperEntry D} {pc : TabPc D}
    (hi : (s.pc t).inode = none) (hi' : pc.inode = none) (hr : ∀ k ≠ j, (s.pc t).reads ≠ some k)
    (hr' : ∀ k ≠ j, pc.reads ≠ some k) (hj : SuperOk disk ((s.setSuper j f).goto t pc) j) :
    TabInv disk ((s.setSuper j f).goto t pc) := by
  constructor
  · intro i
    refine (h.inode i).frame disk rfl rfl (goto_pc (s := s.setSuper j f) (P := (·.inode ≠ some i)) ?_ ?_)
    · exact fun he => by rw [show (s.setSuper j f).pc t = s.pc t from rfl, hi] at he; cases he
    · exact fun he => by rw [hi'] at he; cases he
  · intro k
    by_cases hk : k = j
    · rw [hk]
      exact hj
    · refine (h.super k).frame disk (setSuper_super_of_ne hk) (fun _ => Iff.rfl)
        (goto_pc (s := s.setSuper j f) (P := (·.reads ≠ some k)) (hr k hk) (hr' k hk))

/-- A task is the only one that reads superblock `j`, and goes on to the next `bread`. -/
theorem TabInv.reading (h : TabInv disk s) (hi : (s.pc t).inode = none)
    (hr : ∀ k ≠ j, (s.pc t).reads ≠ some k) (hone : ∀ u, (s.pc u).reads = some j → u = t)
    (hno : ∀ u, j ∉ s.got u) {f : SuperEntry D → SuperEntry D} (hd : (f (s.super j)).dev = some d)
    (hf : ReadUpTo disk (f (s.super j)) d st') :
    TabInv disk ((s.setSuper j f).goto t (.super d j st' onr)) := by
  have hs : ((s.setSuper j f).goto t (.super d j st' onr)).super j = f (s.super j) := setSuper_self
  have hother : ∀ u, (((s.setSuper j f).goto t (.super d j st' onr)).pc u).reads = some j → u = t := by
    intro u hu
    by_contra hut
    rw [goto_of_ne hut] at hu
    exact hut (hone u hu)
  refine h.setSuper hi rfl hr (fun k hk he => hk (Option.some.inj he).symm) ?_
  constructor
  · intro u d' st'' nr' hu
    have hut := hother u (by rw [hu]; rfl)
    subst hut
    rw [goto_self] at hu
    cases hu
    rw [hs]
    exact ⟨hd, hf, hother, hno⟩
  · intro hnone
    exact absurd (by rw [goto_self]; rfl) (hnone t)
  · intro u hu
    exact absurd hu (hno u)

theorem TabInv.progress (h : TabInv disk s) (hpc : s.pc t = .super d j st onr)
    {f : SuperEntry D → SuperEntry D} (hd : (f (s.super j)).dev = some d)
    (hf : ReadUpTo disk (f (s.super j)) d st') :
    TabInv disk ((s.setSuper j f).goto t (.super d j st' onr)) := by
  obtain ⟨-, -, hone, hno⟩ := (h.super j).reads t d st onr hpc
  refine h.reading (by rw [hpc]; rfl) (fun k hk he => ?_) hone hno hd hf
  rw [hpc] at he
  exact hk (Option.some.inj he).symm

/-- A free entry of the superblock table is taken. -/
theorem TabInv.takeSuper (h : TabInv disk s) (hpc : s.pc t = .out) (hfree : (s.super j).dev = none) :
    TabInv disk ((s.setSuper j fun sb => { sb with dev := some d }).goto t (.super d j .desc onr)) := by
  refine h.reading (by rw [hpc]; rfl) (fun k _ he => ?_) (fun u hu => ?_) (fun u hu => ?_) rfl trivial
  · rw [hpc] at he
    cases he
  · obtain ⟨d', st', nr', hpu⟩ := TabPc.reads_eq hu
    have hd := ((h.super j).reads u d' st' nr' hpu).1
    rw [hfree] at hd
    cases hd
  · exact (h.super j).got u hu hfree

/-- `read_super` has read all its blocks. -/
theorem TabInv.finished (h : TabInv disk s) (hpc : s.pc t = .super d j st onr)
    {f : SuperEntry D → SuperEntry D} (hf : Complete disk (f (s.super j))) :
    TabInv disk ((s.setSuper j f).goto t .out) := by
  obtain ⟨-, -, hone, hno⟩ := (h.super j).reads t d st onr hpc
  have hne : ∀ k ≠ j, (TabPc.super d j st onr).reads ≠ some k := fun k hk he => hk (Option.some.inj he).symm
  have hnot : ∀ u, (((s.setSuper j f).goto t .out).pc u).reads ≠ some j := by
    intro u hu
    by_cases hut : u = t
    · rw [hut, goto_self] at hu
      cases hu
    · rw [goto_of_ne hut] at hu
      exact hut (hone u hu)
  refine h.setSuper (by rw [hpc]; rfl) rfl (by rw [hpc]; exact hne) (fun k _ he => nomatch he) ?_
  constructor
  · intro u d' st'' nr' hu
    exact absurd (by rw [hu]; rfl) (hnot u)
  · intro _ _
    have hs : ((s.setSuper j f).goto t .out).super j = f (s.super j) := setSuper_self
    rw [hs]
    exact hf
  · intro u hu
    exact absurd hu (hno u)

/-- `get_super` returns a complete superblock. -/
theorem TabInv.give (h : TabInv disk s) (hd : (s.super j).dev ≠ none)
    (hno : ∀ u, (s.pc u).reads ≠ some j) :
    TabInv disk { s with got := update s.got t (j :: s.got t) } := by
  constructor
  · intro i
    exact (h.inode i).frame disk rfl rfl fun u hu => absurd rfl hu
  · intro k
    by_cases hk : k = j
    · subst hk
      constructor
      · intro u d' st' nr' hu
        exact absurd (by rw [show s.pc u = _ from hu]; rfl) (hno u)
      · exact (h.super k).complete
      · exact fun _ _ => hd
    · refine (h.super k).frame disk rfl (fun u => ?_) fun u hu => absurd rfl hu
      show k ∈ update s.got t (j :: s.got t) u ↔ _
      by_cases hut : u = t
      · rw [hut, update_self, List.mem_cons, or_iff_right hk]
      · rw [update_of_ne hut]

/-- Task `t` changes entry `i` of the inode table to `e`, with the holders `l`, and goes on at `pc`. -/
structure Moves (s s' : Tables T D) (t : T) (i : ℕ) (e : InodeEntry D) (l : List T) (pc : TabPc D) :
    Prop where
  inode : s'.inode = update s.inode i e
  refs : s'.refs = update s.refs i l
  pc : s'.pc = update s.pc t pc
  super : s'.super = s.super
  got : s'.got = s.got

variable {e : InodeEntry D} {l : List T} {pc : TabPc D}

/-- What a step does to an entry that no other task is busy with. -/
theorem Moves.inodeOk (m : Moves s s' t i e l pc) (hno : ∀ u ≠ t, (s.pc u).inode ≠ some i)
    (hfree : e.dev = none → l = [] ∧ pc.inode ≠ some i) (hbusy : pc.inode = some i → l = [])
    (hfill : ∀ blk, pc = .iget i blk → e.count = 1 ∧
      ∃ d, e.dev = some d ∧ blk = (d, inodeBlock (disk (d, 1)) e.nr))
    (hcount : pc.inode ≠ some i → e.dev ≠ none → Filled disk e ∧ e.count = l.length) :
    InodeOk disk s' i := by
  have hself : s'.pc t = pc := by rw [m.pc, update_self]
  have he : s'.inode i = e := by rw [m.inode, update_self]
  have hl : s'.refs i = l := by rw [m.refs, update_self]
  have honly : ∀ u, (s'.pc u).inode = some i → u = t := by
    intro u hu
    by_contra hut
    rw [m.pc, update_of_ne hut] at hu
    exact hno u hut hu
  constructor
  · intro hd
    rw [he] at hd
    obtain ⟨hnil, hpc⟩ := hfree hd
    refine ⟨hl.trans hnil, fun u hu => ?_⟩
    rw [honly u hu, hself] at hu
    exact hpc hu
  · intro u hu
    have hut := honly u hu
    rw [hut, hself] at hu
    exact ⟨hl.trans (hbusy hu), fun u' hu' => (honly u' hu').trans hut.symm⟩
  · intro u blk hu
    have hut := honly u (by rw [hu]; rfl)
    rw [hut, hself] at hu
    rw [he]
    exact hfill blk hu
  · intro hnone hd
    rw [he] at hd ⊢
    rw [hl]
    exact hcount (hself ▸ hnone t) hd

/-- Such a step keeps the invariant of everything else. -/
theorem Moves.tabInv (m : Moves s s' t i e l pc) (h : TabInv disk s)
    (hr : (s.pc t).reads = none ∧ pc.reads = none)
    (hi : ∀ k ≠ i, (s.pc t).inode ≠ some k ∧ pc.inode ≠ some k) (hj : InodeOk disk s' i) :
    TabInv disk s' := by
  have hself : s'.pc t = pc := by rw [m.pc, update_self]
  have ht : ∀ u, s'.pc u ≠ s.pc u → u = t := by
    intro u hu
    by_contra hut
    exact hu (by rw [m.pc, update_of_ne hut])
  constructor
  · intro k
    by_cases hk : k = i
    · rw [hk]
      exact hj
    refine (h.inode k).frame disk ?_ ?_ fun u hu => ?_
    · rw [m.inode, update_of_ne hk]
    · rw [m.refs, update_of_ne hk]
    · rw [ht u hu, hself]
      exact hi k hk
  · intro k
    refine (h.super k).frame disk (by rw [m.super]) (fun u => by rw [m.got]) fun u hu => ?_
    rw [ht u hu, hself, hr.1, hr.2]
    exact ⟨nofun, nofun⟩

/-- `iget` finds an entry that no task fills or gives back. -/
theorem TabInv.found (h : TabInv disk s) (hpc : s.pc t = .out) (hd : (s.inode i).dev ≠ none)
    (hno : ∀ u, (s.pc u).inode ≠ some i) (hc : (s.inode i).count + 1 < 2 ^ 32) :
    TabInv disk ((s.setInode i fun e => { e with count := u32 (e.count + 1) }).hold t i) := by
  obtain ⟨hfill, hcount⟩ := (h.inode i).count hno hd
  have m : Moves s ((s.setInode i fun e => { e with count := u32 (e.count + 1) }).hold t i) t i
      { s.inode i with count := u32 ((s.inode i).count + 1) } (t :: s.refs i) .out :=
    ⟨rfl, rfl, rfl, rfl, rfl⟩
  refine m.tabInv h (by rw [hpc]; exact ⟨rfl, rfl⟩) (by rw [hpc]; exact fun _ _ => ⟨nofun, nofun⟩) ?_
  refine m.inodeOk (fun u _ => hno u) (fun hn => absurd hn hd) nofun nofun fun _ _ => ⟨hfill, ?_⟩
  show u32 ((s.inode i).count + 1) = (s.refs i).length + 1
  rw [u32_of_lt hc, hcount]

/-- `iget` takes a free entry. -/
theorem TabInv.takeInode (h : TabInv disk s) (hpc : s.pc t = .out) (hfree : (s.inode i).dev = none) :
    TabInv disk ((s.setInode i fun e => { e with dev := some d, nr := nr, count := 1 }).goto t
      (.iget i (d, inodeBlock (disk (d, 1)) nr))) := by
  obtain ⟨hrefs, hno⟩ := (h.inode i).free hfree
  have m : Moves s ((s.setInode i fun e => { e with dev := some d, nr := nr, count := 1 }).goto t
      (.iget i (d, inodeBlock (disk (d, 1)) nr))) t i
      { s.inode i with dev := some d, nr := nr, count := 1 } (s.refs i)
      (.iget i (d, inodeBlock (disk (d, 1)) nr)) :=
    ⟨rfl, (update_eq_self i s.refs).symm, rfl, rfl, rfl⟩
  refine m.tabInv h (by rw [hpc]; exact ⟨rfl, rfl⟩) (fun k hk => ?_) ?_
  · rw [hpc]
    exact ⟨nofun, fun he => hk (Option.some.inj he).symm⟩
  refine m.inodeOk (fun u _ => hno u) nofun (fun _ => hrefs) (fun blk hb => ?_) fun hn => absurd rfl hn
  cases hb
  exact ⟨rfl, d, rfl, rfl⟩

/-- `iget` has read the inode. -/
theorem TabInv.igetRead (h : TabInv disk s) (hpc : s.pc t = .iget i blk) :
    TabInv disk (s.igetRead t i blk) := by
  have hin : (s.pc t).inode = some i := by rw [hpc]; rfl
  obtain ⟨hcount, d, hd, rfl⟩ := (h.inode i).fill t blk hpc
  obtain ⟨hrefs, -⟩ := (h.inode i).busy t hin
  have m : Moves s (s.igetRead t i (d, inodeBlock (disk (d, 1)) (s.inode i).nr)) t i
      { s.inode i with
        buf := some (d, inodeBlock (disk (d, 1)) (s.inode i).nr)
        desc := some ((d, inodeBlock (disk (d, 1)) (s.inode i).nr),
          ((s.inode i).nr - 1).toNat % blockInodes) } (t :: s.refs i) .out :=
    ⟨rfl, rfl, rfl, rfl, rfl⟩
  refine m.tabInv h (by rw [hpc]; exact ⟨rfl, rfl⟩) (fun k hk => ?_) ?_
  · rw [hin]
    exact ⟨fun he => hk (Option.some.inj he).symm, nofun⟩
  refine m.inodeOk ((h.inode i).others hin) (fun hn => ?_) nofun nofun fun _ _ => ⟨⟨d, hd, rfl, rfl⟩, ?_⟩
  · rw [show (s.inode i).dev = none from hn] at hd
    cases hd
  · rw [hrefs]
    exact hcount

/-- `iput` of a reference. -/
theorem TabInv.iput (h : TabInv disk s) (hpc : s.pc t = .out) (ht : t ∈ s.refs i)
    (hs : s.iput t i = .ok s') : TabInv disk s' := by
  have hd : (s.inode i).dev ≠ none := by
    intro hn
    rw [((h.inode i).free hn).1] at ht
    cases ht
  have hno : ∀ u, (s.pc u).inode ≠ some i := by
    intro u hu
    rw [((h.inode i).busy u hu).1] at ht
    cases ht
  obtain ⟨hfill, hcount⟩ := (h.inode i).count hno hd
  have hlen := List.length_erase_of_mem ht
  obtain ⟨-, hs⟩ := cassert_bind_eq_ok.1 hs
  replace hs : (if 1 < (s.inode i).count then _ else _) = _ := hs
  by_cases h1 : 1 < (s.inode i).count
  · rw [if_pos h1] at hs
    cases hs
    have m : Moves s (Tables.setInode { s with refs := update s.refs i ((s.refs i).erase t) } i
        fun e => { e with count := e.count - 1 }) t i
        { s.inode i with count := (s.inode i).count - 1 } ((s.refs i).erase t) .out :=
      ⟨rfl, rfl, by rw [← hpc, update_eq_self]; rfl, rfl, rfl⟩
    refine m.tabInv h (by rw [hpc]; exact ⟨rfl, rfl⟩) (by rw [hpc]; exact fun _ _ => ⟨nofun, nofun⟩) ?_
    refine m.inodeOk (fun u _ => hno u) (fun hn => absurd hn hd) nofun nofun fun _ _ => ⟨hfill, ?_⟩
    rw [hlen, ← hcount]
  · rw [if_neg h1] at hs
    cases hs
    have m : Moves s ({ s with refs := update s.refs i ((s.refs i).erase t) }.goto t (.iput i)) t i
        (s.inode i) ((s.refs i).erase t) (.iput i) :=
      ⟨(update_eq_self i s.inode).symm, rfl, rfl, rfl, rfl⟩
    refine m.tabInv h (by rw [hpc]; exact ⟨rfl, rfl⟩) (fun k hk => ?_) ?_
    · rw [hpc]
      exact ⟨nofun, fun he => hk (Option.some.inj he).symm⟩
    refine m.inodeOk (fun u _ => hno u) (fun hn => absurd hn hd) (fun _ => ?_) nofun fun hn => absurd rfl hn
    exact List.length_eq_zero_iff.1 (by omega)

/-- The last `iput` frees the entry. -/
theorem TabInv.iputDone (h : TabInv disk s) (hpc : s.pc t = .iput i) :
    TabInv disk (s.iputDone t i) := by
  have hin : (s.pc t).inode = some i := by rw [hpc]; rfl
  have m : Moves s (s.iputDone t i) t i { s.inode i with count := 0, dev := none } (s.refs i) .out :=
    ⟨rfl, (update_eq_self i s.refs).symm, rfl, rfl, rfl⟩
  refine m.tabInv h (by rw [hpc]; exact ⟨rfl, rfl⟩) (fun k hk => ?_) ?_
  · rw [hin]
    exact ⟨fun he => hk (Option.some.inj he).symm, nofun⟩
  refine m.inodeOk ((h.inode i).others hin) (fun _ => ⟨((h.inode i).busy t hin).1, nofun⟩) nofun nofun
    fun _ hn => absurd rfl hn

/-! ## `get_super` and `iget` -/

theorem TabInv.igetSuper (h : TabInv disk s) (hpc : s.pc t = .out)
    (hdesc : (s.super j).desc = some (d, 1)) (hs : s.igetSuper disk t d nr j = .ok s') :
    TabInv disk s' := by
  unfold Tables.igetSuper at hs
  rw [hdesc, deref_some, ok_bind] at hs
  obtain ⟨-, hs⟩ := cassert_bind_eq_ok.1 hs
  obtain ⟨i, hi, hs⟩ := bind_eq_ok.1 hs
  cases hs
  exact h.takeInode hpc (getFreeInode_ok hi)

theorem TabInv.superDone (h : TabInv disk s) (hpc : s.pc t = .out) (hdev : (s.super j).dev = some d)
    (hno : ∀ u, (s.pc u).reads ≠ some j) (hs : s.superDone disk t d j onr = .ok s') :
    TabInv disk s' := by
  have hne : (s.super j).dev ≠ none := by
    rw [hdev]
    nofun
  have hgive := h.give (t := t) hne hno
  obtain ⟨d', hd', -, hdesc, -⟩ := (h.super j).complete hno hne
  rw [hdev] at hd'
  cases hd'
  cases onr with
  | some nr => exact hgive.igetSuper hpc hdesc hs
  | none =>
    cases hs
    rw [goto_eq_self (by exact hpc)]
    exact hgive

/-- Where a task has been makes no difference once `get_super` returns. -/
theorem superDone_goto (pc : TabPc D) :
    (s.goto t pc).superDone disk t d j onr = s.superDone disk t d j onr := by
  cases onr with
  | none => simp only [Tables.superDone, goto, update_idem]
  | some nr =>
    simp only [Tables.superDone, Tables.igetSuper, Tables.setInode, goto, update_idem]
    rfl

/-- All bitmap blocks have been read: `get_super` returns. -/
theorem TabInv.readDone (h : TabInv disk s) (hpc : s.pc t = .super d j st onr)
    {f : SuperEntry D → SuperEntry D} (hf : Complete disk (f (s.super j)))
    (hd : (f (s.super j)).dev = some d) (hs : (s.setSuper j f).superDone disk t d j onr = .ok s') :
    TabInv disk s' := by
  obtain ⟨-, -, hone, -⟩ := (h.super j).reads t d st onr hpc
  rw [← superDone_goto .out] at hs
  refine (h.finished hpc hf).superDone goto_self ?_ (fun u hu => ?_) hs
  · show ((s.setSuper j f).super j).dev = some d
    rw [setSuper_self, hd]
  · by_cases hut : u = t
    · rw [hut, goto_self] at hu
      cases hu
    · rw [goto_of_ne hut] at hu
      exact hut (hone u hu)

/-- What `read_super` has read when it comes to the second loop. -/
structure ReadDesc (e : SuperEntry D) (d : D) : Prop where
  dev : e.dev = some d
  buf : e.buf = some (d, 1)
  desc : e.desc = some (d, 1)

theorem TabInv.readZmap (h : TabInv disk s) (hpc : s.pc t = .super d j st onr)
    {f : SuperEntry D → SuperEntry D} (hf : ReadDesc (f (s.super j)) d) {k idx : ℕ}
    (hk : k ≤ (disk (d, 1)).zmap_blocks) (hidx : idx = 2 + (disk (d, 1)).imap_blocks + k)
    (hi : MapsRead (f (s.super j)).imaps d 2 (disk (d, 1)).imap_blocks)
    (hz : MapsRead (f (s.super j)).zmaps d (2 + (disk (d, 1)).imap_blocks) k)
    (hs : (s.setSuper j f).readZmap disk t d j k idx onr = .ok s') : TabInv disk s' := by
  unfold Tables.readZmap at hs
  rw [setSuper_self, hf.desc, deref_some, ok_bind] at hs
  by_cases hlt : k < (disk (d, 1)).zmap_blocks
  · rw [if_pos hlt] at hs
    obtain ⟨h8, hs⟩ := cassert_bind_eq_ok.1 hs
    cases hs
    exact h.progress hpc hf.dev ⟨hf.buf, hf.desc, h8, hidx, hlt, hi, hz⟩
  · rw [if_neg hlt] at hs
    have hkn : k = (disk (d, 1)).zmap_blocks := le_antisymm hk (not_lt.1 hlt)
    exact h.readDone hpc ⟨d, hf.dev, hf.buf, hf.desc, hi, hkn ▸ hz⟩ hf.dev hs

theorem TabInv.readImap (h : TabInv disk s) (hpc : s.pc t = .super d j st onr)
    {f : SuperEntry D → SuperEntry D} (hf : ReadDesc (f (s.super j)) d) {k idx : ℕ}
    (hk : k ≤ (disk (d, 1)).imap_blocks) (hidx : idx = 2 + k)
    (hi : MapsRead (f (s.super j)).imaps d 2 k) (hz : (f (s.super j)).zmaps.length = 8)
    (hs : (s.setSuper j f).readImap disk t d j k idx onr = .ok s') : TabInv disk s' := by
  unfold Tables.readImap at hs
  rw [setSuper_self, hf.desc, deref_some, ok_bind] at hs
  by_cases hlt : k < (disk (d, 1)).imap_blocks
  · rw [if_pos hlt] at hs
    obtain ⟨h8, hs⟩ := cassert_bind_eq_ok.1 hs
    cases hs
    exact h.progress hpc hf.dev ⟨hf.buf, hf.desc, h8, hidx, hlt, hi, hz⟩
  · rw [if_neg hlt] at hs
    have hkn : k = (disk (d, 1)).imap_blocks := le_antisymm hk (not_lt.1 hlt)
    refine h.readZmap hpc hf (Nat.zero_le _) (by omega) (hkn ▸ hi) ⟨hz, fun k hk => ?_⟩ hs
    exact absurd hk (Nat.not_lt_zero k)

/-- A turn of `read_super`. -/
theorem TabInv.superRead (h : TabInv disk s) (hpc : s.pc t = .super d j st onr)
    (hs : s.superRead disk t d j onr st = .ok s') : TabInv disk s' := by
  obtain ⟨hdev, hread, -, -⟩ := (h.super j).reads t d st onr hpc
  cases st with
  | desc =>
    obtain ⟨-, hs⟩ := cassert_bind_eq_ok.1 hs
    rw [setSuper_setSuper] at hs
    refine h.readImap hpc ⟨hdev, rfl, rfl⟩ (Nat.zero_le _) rfl ⟨rfl, fun k hk => ?_⟩ rfl hs
    exact absurd hk (Nat.not_lt_zero k)
  | imap k idx =>
    obtain ⟨hbuf, hdesc, h8, hidx, hlt, hi, hz⟩ := hread
    refine h.readImap hpc ⟨hdev, hbuf, hdesc⟩ hlt (by rw [hidx]; omega) ?_ hz hs
    rw [hidx]
    exact hi.succ h8
  | zmap k idx =>
    obtain ⟨hbuf, hdesc, h8, hidx, hlt, hi, hz⟩ := hread
    refine h.readZmap hpc ⟨hdev, hbuf, hdesc⟩ hlt (by rw [hidx]; omega) hi ?_ hs
    rw [hidx]
    exact hz.succ h8

variable [DecidableEq D]

/-- `get_super`, if no task fills the superblock that it finds. -/
theorem TabInv.getSuper (h : TabInv disk s) (hpc : s.pc t = .out)
    (hno : ∀ j, s.findSuper d = some j → ∀ u, (s.pc u).reads ≠ some j)
    (hs : s.getSuper disk t d onr = .ok s') : TabInv disk s' := by
  unfold Tables.getSuper at hs
  cases hf : s.findSuper d with
  | some j =>
    rw [hf] at hs
    exact h.superDone hpc (findSuper_some hf) (hno j hf) hs
  | none =>
    rw [hf] at hs
    obtain ⟨j, hj, hs⟩ := bind_eq_ok.1 hs
    cases hs
    exact h.takeSuper hpc (getFreeSuper_ok hj)

end Tables

open Tables

/-- The task finds no entry that another one fills or gives back, and the `u32` count of what it finds
    has room for one more. -/
def Settled {T D : Type} [DecidableEq D] (s : Tables T D) : TabAct T D → Prop
  | .iget _ dev nr =>
    (∀ i, s.findInode dev nr = some i →
      (∀ u, (s.pc u).inode ≠ some i) ∧ (s.inode i).count + 1 < 2 ^ 32) ∧
    (s.findInode dev nr = none → ∀ j, s.findSuper dev = some j → ∀ u, (s.pc u).reads ≠ some j)
  | .getSuper _ dev => ∀ j, s.findSuper dev = some j → ∀ u, (s.pc u).reads ≠ some j
  | .iput _ _ | .run _ => True

variable {T D : Type} [DecidableEq T] [DecidableEq D] {disk : D × ℕ → DSuper} {s s' : Tables T D}
  {a : TabAct T D}

/-- **A step keeps both tables**, if it finds no half-done entry. -/
theorem TabStep.tabInv (h : TabInv disk s) (hc : Settled s a) (hs : TabStep disk s a s') :
    TabInv disk s' := by
  cases hs with
  | iget hpc hs =>
    obtain ⟨hfound, hsuper⟩ := hc
    obtain ⟨-, hs⟩ := cassert_bind_eq_ok.1 hs
    split at hs
    · rename_i i hi
      cases hs
      obtain ⟨hno, hcount⟩ := hfound i hi
      refine h.found hpc (fun hn => ?_) hno hcount
      rw [(findInode_some hi).1] at hn
      cases hn
    · rename_i hi
      exact h.getSuper hpc (hsuper hi) hs
  | getSuper hpc hs => exact h.getSuper hpc hc hs
  | iput hpc ht hs => exact h.iput hpc ht hs
  | superRead hpc hs => exact h.superRead hpc hs
  | igetRead hpc => exact h.igetRead hpc
  | iputDone hpc => exact h.iputDone hpc

theorem tabInv_reach (h : ((tabSys T D disk).restrict Settled).Reach s) : TabInv disk s := by
  refine h.invariant (fun s hs => ?_) fun s a s' hI ⟨hc, hstep⟩ => TabStep.tabInv hI hc hstep
  obtain ⟨hdev, hsup, hpc, hrefs, hgot⟩ := hs
  constructor
  · intro i
    constructor
    · refine fun _ => ⟨hrefs i, fun t ht => ?_⟩
      rw [hpc] at ht
      cases ht
    · intro t ht
      rw [hpc] at ht
      cases ht
    · intro t blk ht
      rw [hpc] at ht
      cases ht
    · exact fun _ hn => absurd (hdev i) hn
  · intro j
    constructor
    · intro t d st nr ht
      rw [hpc] at ht
      cases ht
    · exact fun _ hn => absurd (hsup j).1 hn
    · intro t ht
      rw [hgot] at ht
      cases ht

/-- **The tables publish only usable entries** in every run whose steps find no half-done entry: what
    a task holds has `desc` and `buf` set to the block of its own inode, so is not marked free, and
    every superblock that `get_super` has returned has `desc` and all bitmap buffers set. -/
theorem tables_usable (h : ((tabSys T D disk).restrict Settled).Reach s) :
    (∀ i, ∀ t ∈ s.refs i, Filled disk (s.inode i)) ∧
    (∀ i, (s.inode i).dev = none → s.refs i = []) ∧
    ∀ t, ∀ j ∈ s.got t, Complete disk (s.super j) := by
  have H := tabInv_reach h
  refine ⟨fun i t ht => ?_, fun i hi => ((H.inode i).free hi).1, fun t j hj => (H.super j).got_complete disk hj⟩
  refine ((H.inode i).count (fun u hu => ?_) fun hn => ?_).1
  · rw [((H.inode i).busy u hu).1] at ht
    cases ht
  · rw [((H.inode i).free hn).1] at ht
    cases ht

/-- Empty tables, two tasks and one device, whose superblock has one inode. -/
def emptyTables : Tables (Fin 2) Unit where
  inode _ := ⟨none, 0, 0, none, none⟩
  super _ := ⟨none, none, none, [], []⟩
  pc _ := .out
  refs _ := []
  got _ := []

def oneInode : Unit × ℕ → DSuper := fun _ => ⟨1, 0, 0, 0x137F⟩

theorem init_emptyTables : (tabSys (Fin 2) Unit oneInode).init emptyTables :=
  ⟨fun _ => rfl, fun _ => ⟨rfl, rfl, rfl⟩, fun _ => rfl, fun _ => rfl, fun _ => rfl⟩

theorem reach_tab (h : (tabSys T D disk).Reach s) (a : TabAct T D) (hs : TabStep disk s a s') :
    (tabSys T D disk).Reach s' := h.step hs

theorem reach_settled (h : ((tabSys T D disk).restrict Settled).Reach s) (a : TabAct T D)
    (hc : Settled s a) (hs : TabStep disk s a s') : ((tabSys T D disk).restrict Settled).Reach s' :=
  h.step ⟨hc, hs⟩

/-- One task reads an inode. -/
theorem tables_usable_iget : ∃ s : Tables (Fin 2) Unit, s.refs 0 = [0] ∧ Filled oneInode (s.inode 0) := by
  have hfresh : Settled emptyTables (.iget 0 () 1) := by
    refine ⟨fun i hi => ?_, fun _ j hj => ?_⟩
    · cases (show none = some i from hi)
    · cases (show none = some j from hj)
  have h₀ : ((tabSys (Fin 2) Unit oneInode).restrict Settled).Reach emptyTables := .init init_emptyTables
  have h₁ := reach_settled h₀ (.iget 0 () 1) hfresh (.iget rfl rfl)
  have h₂ := reach_settled h₁ (.run 0) trivial (.superRead rfl rfl)
  have h₃ := reach_settled h₂ (.run 0) trivial (.igetRead rfl)
  exact ⟨_, rfl, (tables_usable h₃).1 0 0 (List.mem_singleton.2 rfl)⟩

/-- Half-done entries are found: a task is given a superblock that is not read yet, another one an
    inode that is not read yet, and a third one holds an inode that is marked free. -/
theorem tables_half_done :
    (∃ s t j, (tabSys (Fin 2) Unit oneInode).Reach s ∧ j ∈ s.got t ∧ ¬ Complete oneInode (s.super j)) ∧
    (∃ s t i, (tabSys (Fin 2) Unit oneInode).Reach s ∧ t ∈ s.refs i ∧ ¬ Filled oneInode (s.inode i)) ∧
    ∃ s i, (tabSys (Fin 2) Unit oneInode).Reach s ∧ (s.inode i).dev = none ∧ s.refs i ≠ [] := by
  have h₀ : (tabSys (Fin 2) Unit oneInode).Reach emptyTables := .init init_emptyTables
  have h₁ := reach_tab h₀ (.iget 0 () 1) (.iget rfl rfl)
  have h₂ := reach_tab h₁ (.run 0) (.superRead rfl rfl)
  refine ⟨?_, ?_, ?_⟩
  · have h := reach_tab h₁ (.getSuper 1 ()) (.getSuper rfl rfl)
    refine ⟨_, 1, 0, h, List.mem_singleton.2 rfl, ?_⟩
    rintro ⟨d, -, hb, -⟩
    cases hb
  · have h := reach_tab h₂ (.iget 1 () 1) (.iget rfl rfl)
    refine ⟨_, 1, 0, h, List.mem_singleton.2 rfl, ?_⟩
    rintro ⟨d, -, hb, -⟩
    cases hb
  · have h₃ := reach_tab h₂ (.run 0) (.igetRead rfl)
    have h₄ := reach_tab h₃ (.iput 0 0) (.iput rfl (List.mem_singleton.2 rfl) rfl)
    have h₅ := reach_tab h₄ (.iget 1 () 1) (.iget rfl rfl)
    have h₆ := reach_tab h₅ (.run 0) (.iputDone rfl)
    exact ⟨_, 0, h₆, rfl, List.cons_ne_nil _ _⟩

end Rdix
