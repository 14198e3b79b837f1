/-
  The inode table under sequential use (fs/minix1/inode.c: get_free_inode, find_inode, inode_block,
  iget, iput), with inodes of any number of devices and with its `u32` counts.

  A run is any order of `iget` and of `iput` of an inode that was got and not yet put as often.

  * `iget_fs`, `iput_fs`: on one device, with fewer than 2^32 references, these are `Fs.iget` and
    `Fs.iput`;
  * `TableInv`: the slots, their counts and their buffers agree with the references held;
  * `inode_table`: the table is consistent in every run, as long as no inode has 2^32 references.
-/
import Rdix.Lib.Run
import Rdix.Fs.Inode

namespace Rdix

open Transition Function

/-- The inode table, with the superblocks and the buffers of the devices. -/
structure InodeTable where
  sb : ℤ → Super
  cache : ℤ → Cache
  inode : ℕ → MInode

namespace InodeTable

def setInode (s : InodeTable) (i : ℕ) (e : MInode) : InodeTable := { s with inode := update s.inode i e }

def mapCache (s : InodeTable) (dev : ℤ) (f : Cache → Cache) : InodeTable :=
  { s with cache := update s.cache dev (f (s.cache dev)) }

def findInode (s : InodeTable) (dev : ℤ) (nr : ℕ) : Option ℕ :=
  (List.range inodeNr).find? fun i => (s.inode i).dev = dev ∧ (s.inode i).nr = nr

def getFreeInode (s : InodeTable) : C ℕ :=
  match (List.range inodeNr).find? fun i => (s.inode i).dev = EOF with
  | some i => return i
  | none => throw (.panic "no more inode!!!")

/-- `inode_block(get_super(dev), nr)`. -/
def inodeBlock (s : InodeTable) (dev : ℤ) (nr : ℕ) : ℕ :=
  2 + (s.sb dev).imap_blocks + (s.sb dev).zmap_blocks + (nr - 1) / blockInodes

/-- The superblock of the device has been read. -/
def iget (s : InodeTable) (dev : ℤ) (nr : ℕ) : C (InodeTable × ℕ) := do
  cassert (0 < nr) "nr > 0"
  match s.findInode dev nr with
  | some i => return (s.setInode i { s.inode i with count := u32 ((s.inode i).count + 1) }, i)
  | none => do
    cassert (nr ≤ (s.sb dev).inodes) "nr <= sb->desc->inodes"
    let i ← s.getFreeInode
    let block := s.inodeBlock dev nr
    return ((s.mapCache dev (·.bread block)).setInode i ⟨dev, nr, 1, block, (nr - 1) % blockInodes⟩, i)

def iput (s : InodeTable) (i : ℕ) : C InodeTable := do
  let inode := s.inode i
  cassert (0 < inode.count) "inode->count > 0"
  if 1 < inode.count then return s.setInode i { inode with count := inode.count - 1 }
  else return (s.mapCache inode.dev (·.brelse inode.buf)).setInode i { inode with count := 0, dev := EOF }

/-- Slot `i` holds inode `nr` of device `dev`. -/
structure Live (s : InodeTable) (i : ℕ) (dev : ℤ) (nr : ℕ) : Prop where
  lt : i < inodeNr
  ne_eof : dev ≠ EOF
  dev_eq : (s.inode i).dev = dev
  nr_eq : (s.inode i).nr = nr

/-- The slots whose descriptor is in block `b` of device `dev`. -/
def users (s : InodeTable) (dev : ℤ) (b : ℕ) : ℕ :=
  ((Finset.range inodeNr).filter fun i => (s.inode i).dev = dev ∧ (s.inode i).buf = b).card

/-- After `inode_init`; `b_count` is a `u8`. -/
structure Empty (s : InodeTable) : Prop where
  free : ∀ i, (s.inode i).dev = EOF
  b_count : ∀ dev b, (s.cache dev).count b < 256

end InodeTable

/-! ## One device -/

section OneDevice
variable (s : InodeTable) (dev : ℤ) (imapsDisk zmapsDisk : List Bytes)

/-- The table as a task sees it that uses device `dev` only. -/
def InodeTable.fs : Fs := ⟨⟨s.cache dev, s.sb dev⟩, s.inode, imapsDisk, zmapsDisk⟩

/-- On one device `iget` is that of `Fs`. -/
theorem iget_fs (nr : ℕ) (hcount : ∀ i, (s.inode i).count + 1 < 2 ^ 32) :
    (s.iget dev nr).map (fun r => (r.1.fs dev imapsDisk zmapsDisk, r.2)) =
      (s.fs dev imapsDisk zmapsDisk).iget dev nr := by
  have hfind : (s.fs dev imapsDisk zmapsDisk).findInode dev nr = s.findInode dev nr := rfl
  have hfree : (s.fs dev imapsDisk zmapsDisk).getFreeInode = s.getFreeInode := rfl
  have hsb : (s.fs dev imapsDisk zmapsDisk).sb = s.sb dev := rfl
  unfold InodeTable.iget Fs.iget
  rw [hfind, hfree, hsb]
  by_cases hnr : 0 < nr
  · rw [cassert_pos hnr, ok_bind, ok_bind]
    cases s.findInode dev nr with
    | some i =>
      have hu : u32 ((s.inode i).count + 1) = (s.inode i).count + 1 := Nat.mod_eq_of_lt (hcount i)
      dsimp only
      rw [hu]
      rfl
    | none =>
      dsimp only
      by_cases hle : nr ≤ (s.sb dev).inodes
      · rw [cassert_pos hle, ok_bind, ok_bind]
        cases s.getFreeInode with
        | error e => rfl
        | ok i =>
          rw [ok_bind, ok_bind]
          simp only [InodeTable.fs, InodeTable.setInode, InodeTable.mapCache, Except.map, pure_eq_ok,
            update_self]
          rfl
      · rw [cassert_neg hle]
        rfl
  · rw [cassert_neg hnr]
    rfl

/-- On one device `iput` is that of `Fs`. -/
theorem iput_fs (i : ℕ) (hdev : (s.inode i).dev = dev) :
    (s.iput i).map (·.fs dev imapsDisk zmapsDisk) = (s.fs dev imapsDisk zmapsDisk).iput i := by
  subst hdev
  have hinode : (s.fs (s.inode i).dev imapsDisk zmapsDisk).inode = s.inode := rfl
  unfold InodeTable.iput Fs.iput
  rw [hinode]
  dsimp only
  by_cases h0 : 0 < (s.inode i).count
  · rw [cassert_pos h0, ok_bind, ok_bind]
    split_ifs with h1
    · rfl
    · simp only [InodeTable.fs, InodeTable.setInode, InodeTable.mapCache, Except.map, pure_eq_ok,
        update_self]
      rfl
  · rw [cassert_neg h0]
    rfl

end OneDevice

/-! ## Runs -/

/-- A reference that a caller holds: the inode and the pointer that `iget` returned. -/
structure Ref where
  dev : ℤ
  nr : ℕ
  ptr : ℕ
deriving DecidableEq

/-- The inode of a reference. -/
def Ref.key (f : Ref) : ℤ × ℕ := (f.dev, f.nr)

/-- The table and the references got and not yet put. -/
structure TableRun where
  table : InodeTable
  held : Multiset Ref

inductive TableOp where
  | iget (dev : ℤ) (nr : ℕ)
  | iput (f : Ref)

namespace TableRun

/-- The inodes in use, each as often as it is referenced. -/
def keys (r : TableRun) : Multiset (ℤ × ℕ) := r.held.map Ref.key

/-- The outstanding references to inode `nr` of `dev`. -/
def refs (r : TableRun) (dev : ℤ) (nr : ℕ) : ℕ := r.keys.count (dev, nr)

/-- The inode exists, and with it at most 64 are live. -/
structure MayGet (r : TableRun) (dev : ℤ) (nr : ℕ) : Prop where
  dev_ne : dev ≠ EOF
  pos : 1 ≤ nr
  le : nr ≤ (r.table.sb dev).inodes
  room : ((dev, nr) ::ₘ r.keys).toFinset.card ≤ inodeNr

end TableRun

/-- The runs from the empty table `t₀`. -/
def tableSys (t₀ : InodeTable) : Sys TableRun TableOp where
  init r := t₀.Empty ∧ r = ⟨t₀, 0⟩
  step r op r' := match op with
    | .iget dev nr => r.MayGet dev nr ∧
        ∃ t i, r.table.iget dev nr = .ok (t, i) ∧ r' = ⟨t, ⟨dev, nr, i⟩ ::ₘ r.held⟩
    | .iput f => f ∈ r.held ∧ ∃ t, r.table.iput f.ptr = .ok t ∧ r' = ⟨t, r.held.erase f⟩

/-- The count of the inode has room. -/
def Counted (r : TableRun) : TableOp → Prop
  | .iget dev nr => r.refs dev nr + 1 < 2 ^ 32
  | .iput _ => True

/-- A slot that holds inode `nr` of `dev`, to which there are `n` references. -/
structure SlotInv (t₀ : InodeTable) (dev : ℤ) (nr : ℕ) (e : MInode) (n : ℕ) : Prop where
  held : 0 < n
  count : e.count = n
  pos : 1 ≤ nr
  buf : e.buf = 2 + (t₀.sb dev).imap_blocks + (t₀.sb dev).zmap_blocks + (nr - 1) / 32
  slot : e.slot = (nr - 1) % 32

/-- **The table agrees with the references held.** -/
structure TableInv (t₀ : InodeTable) (r : TableRun) : Prop where
  sb : r.table.sb = t₀.sb
  live : ∀ f ∈ r.held, r.table.Live f.ptr f.dev f.nr
  one : ∀ i j dev nr, r.table.Live i dev nr → r.table.Live j dev nr → i = j
  slot : ∀ i dev nr, r.table.Live i dev nr → SlotInv t₀ dev nr (r.table.inode i) (r.refs dev nr)
  b_count : ∀ dev b, dev ≠ EOF →
    (r.table.cache dev).count b = ((t₀.cache dev).count b + r.table.users dev b) % 256

/-- What `iget(dev, nr)` does when it returns `i` and leaves the table `t`. -/
structure TableRun.Gets (r : TableRun) (dev : ℤ) (nr : ℕ) (t : InodeTable) (i : ℕ) : Prop where
  live : t.Live i dev nr
  count : (t.inode i).count = r.refs dev nr + 1
  same : 0 < r.refs dev nr → r.table.Live i dev nr ∧ t.cache = r.table.cache
  fresh : r.refs dev nr = 0 → (r.table.inode i).dev = EOF ∧
    t.cache = update r.table.cache dev ((r.table.cache dev).bread (r.table.inodeBlock dev nr))
  other : ∀ j ≠ i, t.inode j = r.table.inode j

/-- What `iput` of the reference `f` does when it leaves the table `t`. -/
structure TableRun.Puts (r : TableRun) (f : Ref) (t : InodeTable) : Prop where
  kept : 1 < r.refs f.dev f.nr → t.Live f.ptr f.dev f.nr ∧
    (t.inode f.ptr).count = r.refs f.dev f.nr - 1 ∧ t.cache = r.table.cache
  released : r.refs f.dev f.nr = 1 → (t.inode f.ptr).dev = EOF ∧ (t.inode f.ptr).count = 0 ∧
    t.cache = update r.table.cache f.dev
      ((r.table.cache f.dev).brelse (r.table.inodeBlock f.dev f.nr))
  freed : (t.inode f.ptr).dev = EOF ↔ (t.inode f.ptr).count = 0
  other : ∀ j ≠ f.ptr, t.inode j = r.table.inode j

section Table
variable {s t : InodeTable} {t₀ : InodeTable} {r : TableRun} {e : MInode} {f : Ref} {dev : ℤ} {nr i j : ℕ}

namespace InodeTable

theorem Live.of_eq (h : s.Live i dev nr) (he : t.inode i = s.inode i) : t.Live i dev nr := by
  refine ⟨h.lt, h.ne_eof, ?_, ?_⟩
  · rw [he]
    exact h.dev_eq
  · rw [he]
    exact h.nr_eq

theorem setInode_inode_of_ne (hj : j ≠ i) : (s.setInode i e).inode j = s.inode j := update_of_ne hj _ _

theorem setInode_inode_self : (s.setInode i e).inode i = e := update_self _ _ _

theorem live_setInode_of_ne (hj : j ≠ i) : (s.setInode i e).Live j dev nr ↔ s.Live j dev nr := by
  constructor
  · intro h
    exact h.of_eq (setInode_inode_of_ne hj).symm
  · intro h
    exact h.of_eq (setInode_inode_of_ne hj)

/-- A slot holds one inode. -/
theorem Live.unique {dev' : ℤ} {nr' : ℕ} (h : s.Live i dev nr) (h' : s.Live i dev' nr') :
    dev' = dev ∧ nr' = nr := ⟨h'.dev_eq.symm.trans h.dev_eq, h'.nr_eq.symm.trans h.nr_eq⟩

/-- The users of a block when slot `i` changes: without the old entry, with the new one. -/
theorem users_setInode (hi : i < inodeNr) (dev : ℤ) (b : ℕ) : (s.setInode i e).users dev b +
    (if (s.inode i).dev = dev ∧ (s.inode i).buf = b then 1 else 0) =
      s.users dev b + if e.dev = dev ∧ e.buf = b then 1 else 0 := by
  have hi' : i ∈ Finset.range inodeNr := Finset.mem_range.2 hi
  have hrest : ∀ k ∈ (Finset.range inodeNr).erase i,
      (if ((s.setInode i e).inode k).dev = dev ∧ ((s.setInode i e).inode k).buf = b then 1 else 0) =
        if (s.inode k).dev = dev ∧ (s.inode k).buf = b then 1 else 0 := by
    intro k hk
    rw [setInode_inode_of_ne (Finset.ne_of_mem_erase hk)]
  have hold := Finset.add_sum_erase _
    (fun k => if (s.inode k).dev = dev ∧ (s.inode k).buf = b then 1 else 0) hi'
  have hnew := Finset.add_sum_erase _ (fun k => if ((s.setInode i e).inode k).dev = dev ∧
    ((s.setInode i e).inode k).buf = b then 1 else 0) hi'
  rw [Finset.sum_congr rfl hrest] at hnew
  rw [setInode_inode_self] at hnew
  unfold users
  rw [Finset.card_filter, Finset.card_filter, ← hold, ← hnew]
  omega

end InodeTable

/-! ### References -/

namespace TableRun

theorem refs_pos : 0 < r.refs dev nr ↔ ∃ f ∈ r.held, f.key = (dev, nr) := by
  rw [refs, Multiset.count_pos, keys, Multiset.mem_map]

theorem refs_cons_self : refs ⟨t, f ::ₘ r.held⟩ f.dev f.nr = r.refs f.dev f.nr + 1 := by
  rw [refs, keys, Multiset.map_cons]
  exact Multiset.count_cons_self _ _

theorem refs_cons_of_ne (h : (dev, nr) ≠ f.key) : refs ⟨t, f ::ₘ r.held⟩ dev nr = r.refs dev nr := by
  rw [refs, keys, Multiset.map_cons]
  exact Multiset.count_cons_of_ne h _

theorem refs_erase_self (hf : f ∈ r.held) : refs ⟨t, r.held.erase f⟩ f.dev f.nr = r.refs f.dev f.nr - 1 := by
  rw [refs, keys, Multiset.map_erase_of_mem _ _ hf]
  exact Multiset.count_erase_self _ _

theorem refs_erase_of_ne (hf : f ∈ r.held) (h : (dev, nr) ≠ f.key) :
    refs ⟨t, r.held.erase f⟩ dev nr = r.refs dev nr := by
  rw [refs, keys, Multiset.map_erase_of_mem _ _ hf]
  exact Multiset.count_erase_of_ne h _

end TableRun

/-! ### What a call does to the invariant -/

namespace TableInv

/-- A slot that holds an inode goes on holding it. -/
theorem setLive (h : TableInv t₀ r) (hi : r.table.Live i dev nr) {held' : Multiset Ref}
    (hdev : e.dev = dev) (hnr : e.nr = nr) (hbuf : e.buf = (r.table.inode i).buf)
    (hslot : SlotInv t₀ dev nr e (TableRun.refs ⟨r.table.setInode i e, held'⟩ dev nr))
    (hrefs : ∀ dev' nr', (dev', nr') ≠ (dev, nr) →
      TableRun.refs ⟨r.table.setInode i e, held'⟩ dev' nr' = r.refs dev' nr')
    (hheld : ∀ f ∈ held', f ∈ r.held ∨ f = ⟨dev, nr, i⟩) :
    TableInv t₀ ⟨r.table.setInode i e, held'⟩ := by
  have hlive : ∀ j dev' nr', (r.table.setInode i e).Live j dev' nr' ↔ r.table.Live j dev' nr' := by
    intro j dev' nr'
    by_cases hj : j = i
    · rw [hj]
      constructor
      · rintro ⟨hlt, hne, hd, hn⟩
        rw [InodeTable.setInode_inode_self] at hd hn
        exact ⟨hlt, hne, (hi.dev_eq.trans hdev.symm).trans hd, (hi.nr_eq.trans hnr.symm).trans hn⟩
      · intro hl
        obtain ⟨rfl, rfl⟩ := hi.unique hl
        refine ⟨hl.lt, hl.ne_eof, ?_, ?_⟩
        · rw [InodeTable.setInode_inode_self, hdev]
        · rw [InodeTable.setInode_inode_self, hnr]
    · exact InodeTable.live_setInode_of_ne hj
  refine ⟨h.sb, fun f hf => (hlive _ _ _).2 ?_, fun j k dev' nr' hj hk => ?_, fun j dev' nr' hj => ?_,
    fun dev' b hne => ?_⟩
  · rcases hheld f hf with hf | rfl
    · exact h.live f hf
    · exact hi
  · exact h.one j k dev' nr' ((hlive _ _ _).1 hj) ((hlive _ _ _).1 hk)
  · have hl := (hlive _ _ _).1 hj
    show SlotInv t₀ dev' nr' ((r.table.setInode i e).inode j) _
    by_cases hji : j = i
    · subst hji
      obtain ⟨rfl, rfl⟩ := hi.unique hl
      rw [InodeTable.setInode_inode_self]
      exact hslot
    · have hkey : (dev', nr') ≠ (dev, nr) := by
        rintro ⟨⟩
        exact hji (h.one j i _ _ hl hi)
      rw [InodeTable.setInode_inode_of_ne hji, hrefs dev' nr' hkey]
      exact h.slot j dev' nr' hl
  · have hu := InodeTable.users_setInode (s := r.table) (e := e) hi.lt dev' b
    rw [hdev, hbuf, hi.dev_eq] at hu
    have hu : (r.table.setInode i e).users dev' b = r.table.users dev' b := by omega
    show (r.table.cache dev').count b = (_ + (r.table.setInode i e).users dev' b) % 256
    rw [hu]
    exact h.b_count dev' b hne

/-- A free slot takes an inode that nobody holds. -/
theorem setNew (h : TableInv t₀ r) (hg : r.MayGet dev nr) (h0 : r.refs dev nr = 0) (hi : i < inodeNr)
    (hfree : (r.table.inode i).dev = EOF) :
    TableInv t₀ ⟨(r.table.mapCache dev (·.bread (r.table.inodeBlock dev nr))).setInode i
      ⟨dev, nr, 1, r.table.inodeBlock dev nr, (nr - 1) % blockInodes⟩, ⟨dev, nr, i⟩ ::ₘ r.held⟩ := by
  generalize hs : r.table.mapCache dev (·.bread (r.table.inodeBlock dev nr)) = s
  have hinode : s.inode = r.table.inode := by rw [← hs]; rfl
  have hcache : s.cache = update r.table.cache dev
      ((r.table.cache dev).bread (r.table.inodeBlock dev nr)) := by rw [← hs]; rfl
  have hsb : s.sb = r.table.sb := by rw [← hs]; rfl
  have hnone : ∀ j, ¬ r.table.Live j dev nr := by
    intro j hj
    have := (h.slot j dev nr hj).held
    omega
  -- slot `i` holds the new inode, and the other slots what they held
  have hnew : ∀ {dev' nr'}, (s.setInode i ⟨dev, nr, 1, r.table.inodeBlock dev nr,
      (nr - 1) % blockInodes⟩).Live i dev' nr' → dev' = dev ∧ nr' = nr := by
    rintro dev' nr' ⟨-, -, hd, hn⟩
    rw [InodeTable.setInode_inode_self] at hd hn
    exact ⟨hd.symm, hn.symm⟩
  have hold : ∀ {j dev' nr'}, j ≠ i → (s.setInode i ⟨dev, nr, 1, r.table.inodeBlock dev nr,
      (nr - 1) % blockInodes⟩).Live j dev' nr' → r.table.Live j dev' nr' := by
    intro j dev' nr' hj hl
    exact ((InodeTable.live_setInode_of_ne hj).1 hl).of_eq (by rw [hinode])
  refine ⟨hsb.trans h.sb, fun f hf => ?_, fun j k dev' nr' hj hk => ?_, fun j dev' nr' hj => ?_,
    fun dev' b hne => ?_⟩
  · rcases Multiset.mem_cons.1 hf with rfl | hf
    · refine ⟨hi, hg.dev_ne, ?_, ?_⟩
      · rw [InodeTable.setInode_inode_self]
      · rw [InodeTable.setInode_inode_self]
    · have hl := h.live f hf
      have hne : f.ptr ≠ i := by
        rintro rfl
        exact hl.ne_eof (hl.dev_eq.symm.trans hfree)
      exact (InodeTable.live_setInode_of_ne hne).2 (hl.of_eq (by rw [hinode]))
  · by_cases hji : j = i
    · by_cases hki : k = i
      · rw [hji, hki]
      · subst hji
        obtain ⟨rfl, rfl⟩ := hnew hj
        exact absurd (hold hki hk) (hnone k)
    · by_cases hki : k = i
      · subst hki
        obtain ⟨rfl, rfl⟩ := hnew hk
        exact absurd (hold hji hj) (hnone j)
      · exact h.one j k dev' nr' (hold hji hj) (hold hki hk)
  · show SlotInv t₀ dev' nr' ((s.setInode i _).inode j) _
    by_cases hji : j = i
    · subst hji
      obtain ⟨rfl, rfl⟩ := hnew hj
      have hone : TableRun.refs ⟨s.setInode j ⟨dev', nr', 1, r.table.inodeBlock dev' nr',
          (nr' - 1) % blockInodes⟩, ⟨dev', nr', j⟩ ::ₘ r.held⟩ dev' nr' = 1 := by
        rw [TableRun.refs_cons_self (f := ⟨dev', nr', j⟩), h0]
      rw [InodeTable.setInode_inode_self, hone]
      refine ⟨Nat.one_pos, rfl, hg.pos, ?_, rfl⟩
      show r.table.inodeBlock dev' nr' = _
      rw [InodeTable.inodeBlock, h.sb]
    · have hl := hold hji hj
      have hkey : (dev', nr') ≠ (dev, nr) := by
        rintro ⟨⟩
        exact hnone j hl
      rw [InodeTable.setInode_inode_of_ne hji, hinode, TableRun.refs_cons_of_ne hkey]
      exact h.slot j dev' nr' hl
  · have hu := InodeTable.users_setInode (s := s) (e := ⟨dev, nr, 1, r.table.inodeBlock dev nr,
      (nr - 1) % blockInodes⟩) hi dev' b
    have hc := h.b_count dev' b hne
    have hs' : s.users dev' b = r.table.users dev' b := by unfold InodeTable.users; rw [hinode]
    rw [hinode, hfree, if_neg (fun hd => hne hd.1.symm), hs', Nat.add_zero] at hu
    show (s.cache dev').count b = (_ + (s.setInode i _).users dev' b) % 256
    rw [hu, hcache]
    by_cases hd : dev' = dev
    · subst hd
      rw [update_self]
      show update (r.table.cache dev').count _ _ b = _
      by_cases hb : b = r.table.inodeBlock dev' nr
      · rw [hb, update_self, if_pos ⟨rfl, rfl⟩, ← hb, hc]
        omega
      · rw [update_of_ne hb, if_neg (fun hd => hb hd.2.symm)]
        exact hc
    · rw [update_of_ne hd, if_neg (fun h => hd h.1.symm)]
      exact hc

/-- The last reference releases the slot and its buffer. -/
theorem setFree (h : TableInv t₀ r) (hf : f ∈ r.held) (h1 : r.refs f.dev f.nr = 1) :
    TableInv t₀ ⟨(r.table.mapCache f.dev (·.brelse (r.table.inode f.ptr).buf)).setInode f.ptr
      { r.table.inode f.ptr with count := 0, dev := EOF }, r.held.erase f⟩ := by
  have hi := h.live f hf
  generalize hs : r.table.mapCache f.dev (·.brelse (r.table.inode f.ptr).buf) = s
  have hinode : s.inode = r.table.inode := by rw [← hs]; rfl
  have hcache : s.cache = update r.table.cache f.dev
      ((r.table.cache f.dev).brelse (r.table.inode f.ptr).buf) := by rw [← hs]; rfl
  have hsb : s.sb = r.table.sb := by rw [← hs]; rfl
  have hne : ∀ {e : MInode} {j dev' nr'}, e.dev = EOF → (s.setInode f.ptr e).Live j dev' nr' → j ≠ f.ptr := by
    rintro e j dev' nr' he hl rfl
    have hd := hl.dev_eq
    rw [InodeTable.setInode_inode_self] at hd
    exact hl.ne_eof (hd.symm.trans he)
  have hold : ∀ {e : MInode} {j dev' nr'}, j ≠ f.ptr → (s.setInode f.ptr e).Live j dev' nr' →
      r.table.Live j dev' nr' := by
    intro e j dev' nr' hj hl
    exact ((InodeTable.live_setInode_of_ne hj).1 hl).of_eq (by rw [hinode])
  have hkey : ∀ {j dev' nr'}, j ≠ f.ptr → r.table.Live j dev' nr' → (dev', nr') ≠ f.key := by
    rintro j dev' nr' hj hl ⟨⟩
    exact hj (h.one j f.ptr _ _ hl hi)
  refine ⟨hsb.trans h.sb, fun g hg => ?_, fun j k dev' nr' hj hk => ?_, fun j dev' nr' hj => ?_,
    fun dev' b hdev => ?_⟩
  · -- the other references are to other inodes
    have hl := h.live g (Multiset.mem_of_mem_erase hg)
    have hpos : g.key = f.key → False := by
      intro hk
      have hr := TableRun.refs_erase_self (t := s) hf
      rw [h1] at hr
      have hp : 0 < TableRun.refs ⟨s, r.held.erase f⟩ f.dev f.nr := TableRun.refs_pos.2 ⟨g, hg, hk⟩
      omega
    have hptr : g.ptr ≠ f.ptr := by
      intro he
      rw [he] at hl
      obtain ⟨hd, hn⟩ := hi.unique hl
      exact hpos (Prod.ext hd hn)
    exact (InodeTable.live_setInode_of_ne hptr).2 (hl.of_eq (by rw [hinode]))
  · exact h.one j k dev' nr' (hold (hne rfl hj) hj) (hold (hne rfl hk) hk)
  · have hji := hne rfl hj
    have hl := hold hji hj
    show SlotInv t₀ dev' nr' ((s.setInode f.ptr _).inode j) _
    rw [InodeTable.setInode_inode_of_ne hji, hinode, TableRun.refs_erase_of_ne hf (hkey hji hl)]
    exact h.slot j dev' nr' hl
  · have hu := InodeTable.users_setInode (s := s) (e := { r.table.inode f.ptr with
      count := 0, dev := EOF }) hi.lt dev' b
    have hc := h.b_count dev' b hdev
    have hs' : s.users dev' b = r.table.users dev' b := by unfold InodeTable.users; rw [hinode]
    rw [if_neg (fun hd : EOF = dev' ∧ _ => hdev hd.1.symm), hs', hinode, hi.dev_eq, Nat.add_zero] at hu
    show (s.cache dev').count b = (_ + (s.setInode f.ptr _).users dev' b) % 256
    rw [hcache]
    by_cases hd : dev' = f.dev
    · subst hd
      rw [update_self, Cache.brelse_count]
      by_cases hb : b = (r.table.inode f.ptr).buf
      · rw [if_pos ⟨rfl, hb.symm⟩] at hu
        rw [← hb, update_self, hc, ← hu]
        omega
      · rw [if_neg (fun hd => hb hd.2.symm)] at hu
        rw [update_of_ne hb, hc, ← hu]
        rfl
    · rw [if_neg (fun h => hd h.1.symm)] at hu
      rw [update_of_ne hd, hc, ← hu]
      rfl

/-! ### The calls -/

theorem find (h : TableInv t₀ r) (hdev : dev ≠ EOF) :
    (∃ i, r.table.findInode dev nr = some i ∧ r.table.Live i dev nr) ∨
      (r.table.findInode dev nr = none ∧ r.refs dev nr = 0) := by
  cases hf : r.table.findInode dev nr with
  | some i =>
    have hp := List.find?_some hf
    have hp := of_decide_eq_true hp
    have hi := List.mem_range.1 (List.mem_of_find?_eq_some hf)
    exact Or.inl ⟨i, rfl, hi, hdev, hp.1, hp.2⟩
  | none =>
    refine Or.inr ⟨rfl, Nat.eq_zero_of_not_pos fun hpos => ?_⟩
    obtain ⟨f, hmem, hkey⟩ := TableRun.refs_pos.1 hpos
    cases hkey
    have hl := h.live f hmem
    have hno := List.find?_eq_none.1 hf f.ptr (List.mem_range.2 hl.lt)
    exact hno (decide_eq_true ⟨hl.dev_eq, hl.nr_eq⟩)

/-- If a further inode may be live, a slot is free: the live ones are those of different inodes. -/
theorem free (h : TableInv t₀ r) (hg : r.MayGet dev nr) (h0 : r.refs dev nr = 0) :
    ∃ i, r.table.getFreeInode = .ok i ∧ i < inodeNr ∧ (r.table.inode i).dev = EOF := by
  unfold InodeTable.getFreeInode
  cases hf : (List.range inodeNr).find? fun i => (r.table.inode i).dev = EOF with
  | some i =>
    have hp := List.find?_some hf
    exact ⟨i, rfl, List.mem_range.1 (List.mem_of_find?_eq_some hf), of_decide_eq_true hp⟩
  | none =>
    exfalso
    have hlive : ∀ i ∈ Finset.range inodeNr, r.table.Live i (r.table.inode i).dev (r.table.inode i).nr := by
      intro i hi
      have hi := Finset.mem_range.1 hi
      have hno := List.find?_eq_none.1 hf i (List.mem_range.2 hi)
      exact ⟨hi, fun he => hno (decide_eq_true he), rfl, rfl⟩
    have hmaps : Set.MapsTo (fun i => ((r.table.inode i).dev, (r.table.inode i).nr))
        (Finset.range inodeNr) r.keys.toFinset := by
      intro i hi
      have hpos := (h.slot i _ _ (hlive i hi)).held
      exact Multiset.mem_toFinset.2 (Multiset.count_pos.1 hpos)
    have hinj : Set.InjOn (fun i => ((r.table.inode i).dev, (r.table.inode i).nr))
        (Finset.range inodeNr) := by
      intro i hi j hj hij
      obtain ⟨hd, hn⟩ := Prod.mk.injEq .. ▸ hij
      exact h.one i j _ _ (hlive i hi) (hd ▸ hn ▸ hlive j hj)
    have hcard := Finset.card_le_card_of_injOn _ hmaps hinj
    have hnot : (dev, nr) ∉ r.keys.toFinset := by
      intro hmem
      have hp := Multiset.count_pos.2 (Multiset.mem_toFinset.1 hmem)
      exact absurd h0 (Nat.ne_of_gt hp)
    have hroom := hg.room
    rw [Multiset.toFinset_cons, Finset.card_insert_of_notMem hnot] at hroom
    rw [Finset.card_range] at hcard
    omega

theorem inodeBlock_eq (h : TableInv t₀ r) (hl : r.table.Live i dev nr) : r.table.inodeBlock dev nr =
    (r.table.inode i).buf := by
  rw [(h.slot i dev nr hl).buf, InodeTable.inodeBlock, h.sb]

/-- **`iget` returns the slot of the inode**, and `TableInv` holds with one reference more. -/
theorem iget (h : TableInv t₀ r) (hg : r.MayGet dev nr) (hc : r.refs dev nr + 1 < 2 ^ 32) :
    ∃ t i, r.table.iget dev nr = .ok (t, i) ∧ r.Gets dev nr t i ∧
      TableInv t₀ ⟨t, ⟨dev, nr, i⟩ ::ₘ r.held⟩ := by
  unfold InodeTable.iget
  rw [cassert_pos (show 0 < nr from hg.pos), ok_bind]
  rcases h.find hg.dev_ne with ⟨i, hf, hl⟩ | ⟨hf, h0⟩
  · rw [hf]
    have hs := h.slot i dev nr hl
    have hcount : u32 ((r.table.inode i).count + 1) = r.refs dev nr + 1 := by
      rw [hs.count]
      exact Nat.mod_eq_of_lt hc
    refine ⟨_, i, rfl, ⟨⟨hl.lt, hl.ne_eof, ?_, ?_⟩, ?_, fun _ => ⟨hl, rfl⟩, fun h0 => ?_, fun j hj => ?_⟩, ?_⟩
    · rw [InodeTable.setInode_inode_self]
      exact hl.dev_eq
    · rw [InodeTable.setInode_inode_self]
      exact hl.nr_eq
    · rw [InodeTable.setInode_inode_self]
      exact hcount
    · have := hs.held
      omega
    · exact InodeTable.setInode_inode_of_ne hj
    · refine h.setLive hl hl.dev_eq hl.nr_eq rfl ?_ (fun dev' nr' hne => TableRun.refs_cons_of_ne hne) ?_
      · rw [TableRun.refs_cons_self (f := ⟨dev, nr, i⟩)]
        exact ⟨Nat.succ_pos _, hcount, hs.pos, hs.buf, hs.slot⟩
      · intro f hf
        rcases Multiset.mem_cons.1 hf with rfl | hf
        · exact Or.inr rfl
        · exact Or.inl hf
  · rw [hf]
    obtain ⟨i, hfree, hi, heof⟩ := h.free hg h0
    have hnew := h.setNew hg h0 hi heof
    refine ⟨_, i, by rw [cassert_pos hg.le, hfree]; rfl, ⟨hnew.live _ (Multiset.mem_cons_self _ _), ?_,
      fun hp => ?_, fun _ => ⟨heof, rfl⟩, fun j hj => ?_⟩, hnew⟩
    · rw [InodeTable.setInode_inode_self, h0]
    · omega
    · exact InodeTable.setInode_inode_of_ne hj

/-- **`iput` drops one reference**, and releases slot and buffer with the last. -/
theorem iput (h : TableInv t₀ r) (hf : f ∈ r.held) :
    ∃ t, r.table.iput f.ptr = .ok t ∧ r.Puts f t ∧ TableInv t₀ ⟨t, r.held.erase f⟩ := by
  have hl := h.live f hf
  have hs := h.slot _ _ _ hl
  have hpos := hs.held
  have hcount := hs.count
  unfold InodeTable.iput
  simp only [hcount, cassert_pos hpos, ok_bind]
  by_cases h1 : 1 < r.refs f.dev f.nr
  · rw [if_pos h1]
    refine ⟨_, rfl, ⟨fun _ => ⟨⟨hl.lt, hl.ne_eof, ?_, ?_⟩, ?_, rfl⟩, fun h1' => ?_, ?_, fun j hj => ?_⟩, ?_⟩
    · rw [InodeTable.setInode_inode_self]
      exact hl.dev_eq
    · rw [InodeTable.setInode_inode_self]
      exact hl.nr_eq
    · rw [InodeTable.setInode_inode_self]
    · omega
    · rw [InodeTable.setInode_inode_self]
      refine iff_of_false (fun he => hl.ne_eof (hl.dev_eq.symm.trans he)) ?_
      show ¬ r.refs f.dev f.nr - 1 = 0
      omega
    · exact InodeTable.setInode_inode_of_ne hj
    · refine h.setLive hl hl.dev_eq hl.nr_eq rfl ?_
        (fun dev' nr' hne => TableRun.refs_erase_of_ne hf hne) (fun g hg => Or.inl (Multiset.mem_of_mem_erase hg))
      rw [TableRun.refs_erase_self hf]
      exact ⟨by omega, rfl, hs.pos, hs.buf, hs.slot⟩
  · rw [if_neg h1, hl.dev_eq]
    have hone : r.refs f.dev f.nr = 1 := by omega
    refine ⟨_, rfl, ⟨fun h1' => absurd h1' h1, fun _ => ⟨?_, ?_, ?_⟩, ?_, fun j hj => ?_⟩,
      h.setFree hf hone⟩
    · rw [InodeTable.setInode_inode_self]
    · rw [InodeTable.setInode_inode_self]
    · rw [h.inodeBlock_eq hl]
      rfl
    · rw [InodeTable.setInode_inode_self]
      exact iff_of_true rfl rfl
    · exact InodeTable.setInode_inode_of_ne hj

/-- Distinct inodes have distinct records. -/
theorem record_ne (h : TableInv t₀ r) {dev' : ℤ} {nr' : ℕ} (hi : r.table.Live i dev nr)
    (hj : r.table.Live j dev' nr') (hne : (dev, nr) ≠ (dev', nr')) :
    ((r.table.inode i).dev, (r.table.inode i).buf, (r.table.inode i).slot) ≠
      ((r.table.inode j).dev, (r.table.inode j).buf, (r.table.inode j).slot) := by
  intro he
  obtain ⟨hd, hbs⟩ := Prod.mk.injEq .. ▸ he
  obtain ⟨hb, hs⟩ := Prod.mk.injEq .. ▸ hbs
  have hi' := h.slot i dev nr hi
  have hj' := h.slot j dev' nr' hj
  have hdd : dev = dev' := hi.dev_eq.symm.trans (hd.trans hj.dev_eq)
  subst hdd
  rw [hi'.buf, hj'.buf] at hb
  rw [hi'.slot, hj'.slot] at hs
  have hip := hi'.pos
  have hjp := hj'.pos
  exact hne (Prod.ext rfl (show nr = nr' by omega))

end TableInv

end Table

/-! ## The table in runs -/

section Runs
variable {t₀ : InodeTable} {r : TableRun}

/-- A run with fewer than 2^32 references to each inode keeps the invariant. -/
theorem tableInv_of_reach (h : ((tableSys t₀).restrict Counted).Reach r) : TableInv t₀ r := by
  refine h.invariant ?_ ?_
  · rintro r ⟨he, rfl⟩
    have hno : ∀ {i dev nr}, ¬ t₀.Live i dev nr := fun hl => hl.ne_eof (hl.dev_eq.symm.trans (he.free _))
    refine ⟨rfl, fun f hf => absurd hf (Multiset.notMem_zero f), fun i j dev nr hi => absurd hi hno,
      fun i dev nr hi => absurd hi hno, fun dev b hne => ?_⟩
    have hu : t₀.users dev b = 0 := by
      refine Finset.card_eq_zero.2 (Finset.filter_eq_empty_iff.2 ?_)
      rintro i - ⟨hd, -⟩
      exact hne (hd.symm.trans (he.free i))
    rw [hu, Nat.add_zero, Nat.mod_eq_of_lt (he.b_count dev b)]
  · rintro r op r' hr ⟨hc, hs⟩
    cases op with
    | iget dev nr =>
      obtain ⟨hg, t, i, hi, rfl⟩ := hs
      obtain ⟨t', i', hi', -, hr'⟩ := hr.iget hg hc
      cases hi.symm.trans hi'
      exact hr'
    | iput f =>
      obtain ⟨hf, t, ht, rfl⟩ := hs
      obtain ⟨t', ht', -, hr'⟩ := hr.iput hf
      cases ht.symm.trans ht'
      exact hr'

/-- **In every run with fewer than 2^32 references to each inode the table is consistent**: one slot
    for each inode in use, with its count, its record and its buffer; `iget` returns this slot, and
    `iput` releases slot and buffer with the last reference. -/
theorem inode_table (h : ((tableSys t₀).restrict Counted).Reach r) :
    TableInv t₀ r ∧
    (∀ i j dev nr dev' nr', r.table.Live i dev nr → r.table.Live j dev' nr' → (dev, nr) ≠ (dev', nr') →
      ((r.table.inode i).dev, (r.table.inode i).buf, (r.table.inode i).slot) ≠
        ((r.table.inode j).dev, (r.table.inode j).buf, (r.table.inode j).slot)) ∧
    (∀ dev nr, r.MayGet dev nr → r.refs dev nr + 1 < 2 ^ 32 →
      ∃ t i, r.table.iget dev nr = .ok (t, i) ∧ r.Gets dev nr t i) ∧
    ∀ f ∈ r.held, ∃ t, r.table.iput f.ptr = .ok t ∧ r.Puts f t := by
  have hinv := tableInv_of_reach h
  refine ⟨hinv, fun i j dev nr dev' nr' hi hj hne => hinv.record_ne hi hj hne,
    fun dev nr hg hc => ?_, fun f hf => ?_⟩
  · obtain ⟨t, i, hi, hgets, -⟩ := hinv.iget hg hc
    exact ⟨t, i, hi, hgets⟩
  · obtain ⟨t, ht, hputs, -⟩ := hinv.iput hf
    exact ⟨t, ht, hputs⟩

/-- An empty table, and devices with one inode. -/
def bareTable : InodeTable where
  sb _ := ⟨1, 0, 0, [], []⟩
  cache _ := ⟨fun _ _ => 0#8, fun _ _ => 0#8, fun _ => false, fun _ => 0⟩
  inode _ := ⟨EOF, 0, 0, 0, 0⟩

theorem bareTable_empty : bareTable.Empty := ⟨fun _ => rfl, fun _ _ => Nat.zero_lt_succ 255⟩

/-- Inode 1 of device 0 has been got `n` times, and never put. -/
structure Got (r : TableRun) (n : ℕ) : Prop where
  sb : r.table.sb = bareTable.sb
  held : r.held = Multiset.replicate n ⟨0, 1, 0⟩
  inode : r.table.inode 0 = ⟨0, 1, u32 n, 2, 0⟩

theorem Got.keys {n : ℕ} (h : Got r n) : r.keys = Multiset.replicate n (0, 1) := by
  rw [TableRun.keys, h.held, Multiset.map_replicate]
  rfl

theorem Got.refs {n : ℕ} (h : Got r n) : r.refs 0 1 = n := by
  rw [TableRun.refs, h.keys, Multiset.count_replicate_self]

theorem mayGet_replicate {n : ℕ} (hsb : r.table.sb = bareTable.sb)
    (hkeys : r.keys = Multiset.replicate n (0, 1)) : r.MayGet 0 1 := by
  refine ⟨by decide, le_rfl, ?_, ?_⟩
  · rw [hsb]
    exact le_rfl
  · rw [hkeys, ← Multiset.replicate_succ, Multiset.toFinset_replicate, if_neg n.succ_ne_zero]
    decide

theorem Got.mayGet {n : ℕ} (h : Got r n) : r.MayGet 0 1 := mayGet_replicate h.sb h.keys

/-- The first `iget` takes slot 0. -/
theorem got_one : ∃ r, ((tableSys bareTable).restrict Counted).Reach r ∧ Got r 1 := by
  have h₀ : ((tableSys bareTable).restrict Counted).Reach ⟨bareTable, 0⟩ := .init ⟨bareTable_empty, rfl⟩
  have hg : TableRun.MayGet ⟨bareTable, 0⟩ 0 1 := mayGet_replicate (n := 0) rfl rfl
  exact ⟨_, h₀.step (a := .iget 0 1) ⟨(by norm_num : 0 + 1 < 2 ^ 32), hg, _, _, rfl, rfl⟩,
    rfl, rfl, rfl⟩

/-- Every other `iget` finds the slot. -/
theorem Got.more {n : ℕ} (hr : (tableSys bareTable).Reach r) (h : Got r n) :
    ∃ r', (tableSys bareTable).Reach r' ∧ Got r' (n + 1) := by
  have hfind : r.table.findInode 0 1 = some 0 := by
    unfold InodeTable.findInode
    rw [show List.range inodeNr = 0 :: (List.range' 1 63) from rfl, List.find?_cons_of_pos]
    rw [h.inode]
    rfl
  have higet : r.table.iget 0 1 = .ok (r.table.setInode 0
      { r.table.inode 0 with count := u32 ((r.table.inode 0).count + 1) }, 0) := by
    unfold InodeTable.iget
    rw [cassert_pos Nat.one_pos, ok_bind, hfind]
    rfl
  refine ⟨_, hr.step (a := .iget 0 1) ⟨h.mayGet, _, _, higet, rfl⟩, h.sb, ?_, ?_⟩
  · rw [h.held]
    rfl
  · rw [InodeTable.setInode_inode_self, h.inode]
    simp [u32]

theorem got {n : ℕ} (hn : 1 ≤ n) : ∃ r, (tableSys bareTable).Reach r ∧ Got r n := by
  induction n, hn using Nat.le_induction with
  | base =>
    obtain ⟨r, hr, h⟩ := got_one
    exact ⟨r, hr.of_restrict, h⟩
  | succ n _ ih =>
    obtain ⟨r, hr, h⟩ := ih
    exact h.more hr

/-- One inode has been got once. -/
theorem inode_table_one : ∃ r : TableRun, r.refs 0 1 = 1 ∧ TableInv bareTable r := by
  obtain ⟨r, hr, h⟩ := got_one
  exact ⟨r, h.refs, (inode_table hr).1⟩

/-- **With 2^32 references to an inode its count is 0.** -/
theorem inode_count_wraps : ∃ r : TableRun, (tableSys bareTable).Reach r ∧ r.refs 0 1 = 2 ^ 32 ∧
    r.table.Live 0 0 1 ∧ (r.table.inode 0).count = 0 := by
  obtain ⟨r, hr, h⟩ := got (n := 2 ^ 32) (by norm_num)
  refine ⟨r, hr, h.refs, ⟨by decide, by decide, ?_, ?_⟩, ?_⟩
  · rw [h.inode]
  · rw [h.inode]
  · rw [h.inode]
    exact Nat.mod_self _

end Runs

end Rdix
