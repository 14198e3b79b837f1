/-
  Directories among files (fs/minix1/namei.c: find_entry, add_entry, and what sys_link, sys_unlink and
  the others do with them).

  * `Fs.enter`, `Fs.remove`, `Fs.lookUp`: what the system calls do in the directory of a path;
  * `Contents.table`: the slots that the bytes of a directory stand for;
  * `volSys`: these and the calls on files, and `namesSys`: a store of files some of which hold a table;
  * `volume_refines`: a run of the volume is one of that store;
  * `directory_map`: between entries that leave no name behind a free slot, a directory is a map.
-/
import Rdix.Fs.AddEntry
import Rdix.Fs.Files
import Rdix.Lib.SlotTable

namespace Rdix

open ByteMem Function Transition FileStore Fs

/-! ## The code -/

namespace Fs

/-- What `sys_link`, `sys_mkdir` and `inode_open` do in a directory: `add_entry` and `entry->inode = nr`,
    if the name is not found. -/
def enter (s : Fs) (dir : ℕ) (name : CStr) (nr : ℕ) : C (Fs × Bool) := do
  let (s, buf) ← s.findEntry dir (some name)
  match buf with
  | some (b, _) => return (s.brelse b, false)
  | none => do
    let (s, b, entry) ← s.addEntry dir (some name)
    let entry ← deref "entry" entry
    return (((s.setDentry entry nr).mark b).brelse b, true)

/-- What `sys_unlink` does in a directory: `entry->inode = 0`, if the name is found. -/
def remove (s : Fs) (dir : ℕ) (name : CStr) : C (Fs × Bool) := do
  let (s, buf) ← s.findEntry dir (some name)
  match buf with
  | none => return (s, false)
  | some (b, i) => return (((s.setDentry (b, i) 0).mark b).brelse b, true)

/-- What `_namei` does in a directory: `dentry->inode`, if the name is found. -/
def lookUp (s : Fs) (dir : ℕ) (name : CStr) : C (Fs × Option ℕ) := do
  let (s, bf) ← s.findEntry dir (some name)
  match bf with
  | none => return (s, none)
  | some (b, i) => do
    let nr ← s.dentry b i
    return (s.brelse b, some nr)

end Fs

/-- What happens: calls on files, and in directories. -/
inductive VolEvent where
  | file (a : Event ℕ (BitVec 8))
  | find (d : ℕ) (name : CStr) (nr : Option ℕ)
  | enter (d : ℕ) (name : CStr) (nr : ℕ) (done : Bool)
  | remove (d : ℕ) (name : CStr) (done : Bool)

/-- The files `I` are written, read and emptied; some of them are the directories `D`. -/
def VolStep (I D : Set ℕ) (s : Fs) : VolEvent → Fs → Prop
  | .file a, s' => FileStep I s a s' ∧ ∀ d ∈ D, a ≠ .empty d
  | .find d name nr, s' => d ∈ D ∧ s.lookUp d name = .ok (s', nr)
  | .enter d name nr done, s' => d ∈ D ∧ 0 < nr ∧ nr < 2 ^ 16 ∧ s.enter d name nr = .ok (s', done)
  | .remove d name done, s' => d ∈ D ∧ s.remove d name = .ok (s', done)

/-! ## What a directory says -/

/-- A name as it stands on the disk. -/
abbrev Name := List (BitVec 8)

/-- Entry `j` in the bytes of a directory. -/
def Contents.entry (c : Contents (BitVec 8)) (j : ℕ) : Option (Name × ℕ) :=
  if slotNr c.byte j = 0 then none else some (entryName c.byte (16 * j + 2), slotNr c.byte j)

/-- The entries in the bytes of a directory. -/
def Contents.table (c : Contents (BitVec 8)) : SlotTable.Table Name ℕ :=
  (List.range (c.size / 16)).map (Contents.entry c)

/-- A name that ends inside its entry and has no separator. -/
def Plain (k : Name) : Prop := k.length < nameLen ∧ ∀ x ∈ k, x ≠ 0x2f#8 ∧ x ≠ 0x5c#8

/-- A directory of whole entries, which are all in its first block. -/
structure DirOk (s : Fs) (d : ℕ) : Prop where
  mode : ISDIR (s.field d .mode)
  zone : s.directZone d 0 ≠ 0
  whole : 16 ∣ s.field d .size
  size : s.entryCnt d ≤ blockDentrys
  names : ∀ k ∈ SlotTable.keys (Contents.table (s.contents d)), Plain k

section Contents
variable {I : Set ℕ} {s s' : Fs} {d i j n z : ℕ} {name : CStr}

theorem entryCnt_eq (s : Fs) (d : ℕ) : (s.contents d).size / 16 = s.entryCnt d := rfl

/-- The first block of a directory. -/
theorem contents_byte (h0 : s.directZone d 0 ≠ 0) {k : ℕ} (hk : k < blockSize) :
    (s.contents d).byte k = s.cache.data (s.directZone d 0) k := by
  have hk' : k < directBytes := hk.trans (by decide)
  have hdiv : k / blockSize = 0 := Nat.div_eq_of_lt hk
  show (if k < directBytes then (if s.directZone d (k / blockSize) = 0 then _ else
    s.cache.data (s.directZone d (k / blockSize)) (k % blockSize)) else _) = _
  rw [if_pos hk', hdiv, if_neg h0, Nat.mod_eq_of_lt hk]

theorem contents_entry (h0 : s.directZone d 0 ≠ 0) (hj : j < blockDentrys) :
    Contents.entry (s.contents d) j = if slotNr (s.cache.data (s.directZone d 0)) j = 0 then none
      else some (entryName (s.cache.data (s.directZone d 0)) (16 * j + 2),
        slotNr (s.cache.data (s.directZone d 0)) j) := by
  have hj' : j < 64 := hj
  have hnr : slotNr (s.contents d).byte j = slotNr (s.cache.data (s.directZone d 0)) j :=
    load_congr fun k hk => contents_byte h0 (by norm_num; omega)
  have hname : entryName (s.contents d).byte (16 * j + 2) =
      entryName (s.cache.data (s.directZone d 0)) (16 * j + 2) :=
    bytesFrom_congr fun k hk => contents_byte h0 (by norm_num at hk ⊢; omega)
  rw [Contents.entry, hnr, hname]

theorem SameFile.dirOk (h : SameFile d s s') (hd : DirOk s d) : DirOk s' d := by
  refine ⟨?_, ?_, ?_, ?_, ?_⟩
  · rw [h.field]
    exact hd.mode
  · rw [h.zone (by decide)]
    exact hd.zone
  · rw [h.field]
    exact hd.whole
  · rw [entryCnt, h.field]
    exact hd.size
  · rw [h.contents]
    exact hd.names

end Contents

/-! ## Looking up -/

section LookUp
variable {I : Set ℕ} {s t : Fs} {d i j n : ℕ} {name : CStr} {e : ℕ × ℕ}

/-- Some of the entries of a directory. -/
def entriesFrom (s : Fs) (d i n : ℕ) : SlotTable.Table Name ℕ :=
  (List.range' i n).map (Contents.entry (s.contents d))

theorem table_eq (s : Fs) (d : ℕ) : Contents.table (s.contents d) = entriesFrom s d 0 (s.entryCnt d) := by
  rw [Contents.table, List.range_eq_range']
  rfl

theorem entriesFrom_succ (s : Fs) (d i n : ℕ) :
    entriesFrom s d i (n + 1) = Contents.entry (s.contents d) i :: entriesFrom s d (i + 1) n := by
  rw [entriesFrom, List.range'_succ, List.map_cons]
  rfl

/-- What is looked for is the first entry of the table. -/
structure Found (s : Fs) (d i n : ℕ) (name : CStr) (e : ℕ × ℕ) : Prop where
  block : e.1 = s.directZone d 0
  ge : i ≤ e.2
  lt : e.2 < i + n
  value : SlotTable.find (component name) (entriesFrom s d i n) = some (slotNr (s.cache.data e.1) e.2)
  remove : SlotTable.remove (component name) (entriesFrom s d i n) =
    (entriesFrom s d i n).set (e.2 - i) none

theorem lookFrom_table (h : FilesInv I s) (hd : d ∈ I) (h0 : s.directZone d 0 ≠ 0)
    (hn : i + n ≤ blockDentrys) :
    (s.lookFrom d name n i = none → SlotTable.find (component name) (entriesFrom s d i n) = none) ∧
      ∀ e, s.lookFrom d name n i = some e → Found s d i n name e := by
  induction n generalizing i with
  | zero => exact ⟨fun _ => rfl, by simp [lookFrom]⟩
  | succ n ih =>
    have hi : i < blockDentrys := by omega
    obtain ⟨hnone, hsome⟩ := ih (i := i + 1) (by omega)
    have hblock : s.entryBlock d i = s.directZone d 0 := by
      rw [entryBlock_first hi, h.zoneOf hd (by decide)]
    have hhits : s.Hits d name i ↔ Named (s.cache.data (s.directZone d 0)) name i := by
      rw [Hits, hblock, Nat.mod_eq_of_lt hi]
    rw [lookFrom, hblock, Nat.mod_eq_of_lt hi, entriesFrom_succ, contents_entry h0 hi]
    by_cases hslot : slotNr (s.cache.data (s.directZone d 0)) i = 0
    · rw [if_neg fun hh => (hhits.1 hh).1 hslot, if_pos hslot]
      refine ⟨hnone, fun e he => ?_⟩
      obtain ⟨hb, hge, hlt, hvalue, hremove⟩ := hsome e he
      refine ⟨hb, by omega, by omega, ?_, ?_⟩
      · rw [entriesFrom_succ, contents_entry h0 hi, if_pos hslot]
        exact hvalue
      · rw [entriesFrom_succ, contents_entry h0 hi, if_pos hslot,
          show e.2 - i = (e.2 - (i + 1)) + 1 by omega, List.set_cons_succ, ← hremove]
        rfl
    · rw [if_neg hslot]
      by_cases hname : entryName (s.cache.data (s.directZone d 0)) (16 * i + 2) = component name
      · rw [if_pos (hhits.2 ⟨hslot, hname⟩)]
        refine ⟨fun he => absurd he (Option.some_ne_none _), fun e he => ?_⟩
        obtain rfl := Option.some.inj he
        refine ⟨rfl, le_rfl, Nat.lt_add_of_pos_right (Nat.succ_pos n), ?_, ?_⟩
        · rw [entriesFrom_succ, contents_entry h0 hi, if_neg hslot, hname]
          exact if_pos rfl
        · rw [entriesFrom_succ, contents_entry h0 hi, if_neg hslot, hname, Nat.sub_self, List.set_cons_zero]
          exact if_pos rfl
      · rw [if_neg fun hh => hname (hhits.1 hh).2]
        refine ⟨fun he => ?_, fun e he => ?_⟩
        · exact (if_neg hname).trans (hnone he)
        · obtain ⟨hb, hge, hlt, hvalue, hremove⟩ := hsome e he
          refine ⟨hb, by omega, by omega, ?_, ?_⟩
          · rw [entriesFrom_succ, contents_entry h0 hi, if_neg hslot]
            exact (if_neg hname).trans hvalue
          · rw [entriesFrom_succ, contents_entry h0 hi, if_neg hslot,
              show e.2 - i = (e.2 - (i + 1)) + 1 by omega, List.set_cons_succ, ← hremove]
            exact if_neg hname

theorem DirOk.plain (hok : DirOk s d) (hj : j < s.entryCnt d)
    (hslot : slotNr (s.cache.data (s.directZone d 0)) j ≠ 0) :
    Plain (entryName (s.cache.data (s.directZone d 0)) (16 * j + 2)) := by
  refine hok.names _ (SlotTable.mem_keys.2 ⟨slotNr (s.cache.data (s.directZone d 0)) j, ?_⟩)
  refine List.mem_map.2 ⟨j, List.mem_range.2 hj, ?_⟩
  rw [contents_entry hok.zone (hj.trans_le hok.size), if_neg hslot]

/-- **`find_entry` finds the first entry with the name.** -/
theorem FilesInv.findEntry (h : FilesInv I s) (hd : d ∈ I) (hok : DirOk s d) (name : CStr) :
    ∃ t, s.findEntry d (some name) = .ok (t, s.lookup d name) := by
  have hzone : s.zoneOf d 0 = s.directZone d 0 := h.zoneOf hd (by decide)
  have hmap : ∀ k, k * blockDentrys < s.entryCnt d → s.zoneOf d k ≠ 0 := by
    intro k hk
    have hsize := hok.size
    obtain rfl : k = 0 := by
      norm_num at hk hsize
      omega
    rw [hzone]
    exact hok.zone
  refine (findEntry_right hok.mode hmap).2 fun j hj _ => ⟨hj.trans_le hok.size, fun hslot => ?_⟩
  rw [hzone] at hslot ⊢
  obtain ⟨hlen, hsep⟩ := hok.plain hj hslot
  exact entryMatch_right (hj.trans_le hok.size) hsep (Or.inl hlen) hslot

/-- What `find_entry` finds in the table. -/
theorem FilesInv.lookup (h : FilesInv I s) (hd : d ∈ I) (hok : DirOk s d) (name : CStr) :
    (s.lookup d name = none → SlotTable.find (component name) (Contents.table (s.contents d)) = none) ∧
      ∀ e, s.lookup d name = some e → Found s d 0 (s.entryCnt d) name e := by
  rw [table_eq]
  exact lookFrom_table h hd hok.zone (by rw [Nat.zero_add]; exact hok.size)

/-- A name that is not in the table is not found. -/
theorem FilesInv.lookup_none (h : FilesInv I s) (hd : d ∈ I) (hok : DirOk s d)
    (hnone : SlotTable.find (component name) (Contents.table (s.contents d)) = none) :
    s.lookup d name = none := by
  cases he : s.lookup d name with
  | none => rfl
  | some e =>
    obtain ⟨-, -, -, hvalue, -⟩ := (h.lookup hd hok name).2 e he
    rw [← table_eq, hnone] at hvalue
    cases hvalue

theorem FilesInv.lookUp (h : FilesInv I s) (hd : d ∈ I) (hok : DirOk s d) {r : Fs × Option ℕ}
    (hr : s.lookUp d name = .ok r) :
    s.Touched r.1 ∧ r.2 = SlotTable.find (component name) (Contents.table (s.contents d)) := by
  obtain ⟨t, hfind⟩ := h.findEntry hd hok name
  have ht := findEntry_touched hfind
  obtain ⟨hnone, hsome⟩ := h.lookup hd hok name
  rw [Fs.lookUp, hfind, ok_bind] at hr
  cases he : s.lookup d name with
  | none =>
    rw [he] at hr
    cases hr
    exact ⟨ht, (hnone he).symm⟩
  | some e =>
    obtain ⟨hblock, -, hlt, hvalue, -⟩ := hsome e he
    rw [Nat.zero_add] at hlt
    rw [he] at hr
    obtain ⟨nr, hnr, hr⟩ := bind_eq_ok.1 hr
    cases hr
    rw [ht.dentry, dentry, if_pos (hlt.trans_le hok.size)] at hnr
    cases hnr
    exact ⟨ht.brelse _, by rw [table_eq, hvalue]; rfl⟩

end LookUp

/-! ## Entering and removing -/

section Change
variable {I : Set ℕ} {s s' t u : Fs} {d i j n nr z : ℕ} {name : CStr}

theorem directZone_congr (hinode : s'.inode = s.inode)
    (hd : s'.cache.data (s.inode d).buf = s.cache.data (s.inode d).buf) (n : ℕ) :
    s'.directZone d n = s.directZone d n := by
  rw [directZone_load, directZone_load, hinode, hd]

/-- An entry is stored in the first block of a directory. -/
theorem FilesInv.storeEntry (h : FilesInv I s) (s' : Fs) (hd : d ∈ I) (h0 : s.directZone d 0 ≠ 0) {b : Bytes}
    (hb : s'.cache.data = update s.cache.data (s.directZone d 0) b) (hsb : s'.sb = s.sb)
    (hinode : s'.inode = s.inode) :
    FilesInv I s' ∧ (∀ j ∈ I, j ≠ d → SameFile j s s') ∧ s'.directZone d 0 = s.directZone d 0 ∧
      ∀ f, s'.field d f = s.field d f := by
  obtain ⟨h', hsame⟩ := h.storeData hd (by decide) h0 hb hsb hinode
  have hne : (s.inode d).buf ≠ s.directZone d 0 := by
    have hfirst := ((h.direct d hd).used 0 (by decide) h0).1
    have hbuf := (h.direct d hd).buf
    change s.sb.firstdatazone ≤ s.directZone d 0 at hfirst
    omega
  have hbuf : s'.cache.data (s.inode d).buf = s.cache.data (s.inode d).buf := by rw [hb, update_of_ne hne]
  exact ⟨h', hsame, directZone_congr hinode hbuf 0, fun f => field_of_data hinode hbuf⟩

/-- `add_entry` in a directory that has a block. -/
theorem addEntry_at (h : DirectInv d s) (hdir : ISDIR (s.field d .mode)) (hname : vaildFileName name = true)
    (h0 : s.zoneOf d 0 ≠ 0) (hfind : s.findEntry d (some name) = .ok (t, none)) (hi : s.FreeAt d i) :
    ∃ u, s.Touched u ∧ s.addEntry d (some name) =
      .ok (u.named d (s.zoneOf d 0) i name, s.zoneOf d 0, some (s.zoneOf d 0, i)) := by
  have hcnt := cnt_le ((findEntry_none h hdir fun _ => h0).1 ⟨t, hfind⟩)
  have hroom : s.entryCnt d + 1 ≤ zonesIdxPerBlock := by
    norm_num at hcnt ⊢
    omega
  have ht := findEntry_touched hfind
  have hcnt' : t.entryCnt d = s.entryCnt d := congrArg (· / 16) (ht.field d .size)
  have h0' : t.zoneOf d 0 ≠ 0 := by rwa [ht.zoneOf]
  obtain ⟨u, hu, hloop⟩ := addLoop_first (n := t.entryCnt d)
    (bmap_first (ht.inv h) h0' (0 = t.entryCnt d)) h0' (by rwa [hcnt'])
  obtain ⟨hadd, -⟩ := addEntry_tail hdir hname hfind hloop
  rw [ht.data, ht.zoneOf, hcnt'] at hadd
  exact ⟨u, ht.trans hu, hadd i ((freeAt_block h0).1 hi) hroom⟩

/-- **The new entry is stored**, and no other file changes. -/
theorem FilesInv.named (h : FilesInv I u) (i : ℕ) (name : CStr) (nr : ℕ) (hd : d ∈ I)
    (h0 : u.directZone d 0 ≠ 0) (hi : i < blockDentrys) :
    FilesInv I ((u.named d (u.directZone d 0) i name).setDentry (u.directZone d 0, i) nr) ∧
      16 ∣ ((u.named d (u.directZone d 0) i name).setDentry (u.directZone d 0, i) nr).field d .size ∧
      ∀ j ∈ I, j ≠ d →
        SameFile j u ((u.named d (u.directZone d 0) i name).setDentry (u.directZone d 0, i) nr) := by
  let s₁ := (u.mapCache fun c => { c with
    data := update c.data (u.directZone d 0)
      (strncpy (c.data (u.directZone d 0)) (16 * i + 2) name nameLen) }).mark (u.directZone d 0)
  obtain ⟨h₁, hsame₁, hzone₁, -⟩ := h.storeEntry s₁ hd h0 rfl rfl rfl
  obtain ⟨h₂, hsame₂⟩ := h₁.setSize hd ((i + 1) * 16)
  let s₃ := (s₁.setField d .size ((i + 1) * 16)).markInode d
  have hmark : ∀ j, SameFile j (s₁.setField d .size ((i + 1) * 16)) s₃ := fun j => .of_data rfl rfl rfl rfl
  have h₃ : FilesInv I s₃ := h₂.same rfl fun j _ => hmark j
  have hzone₃ : s₃.directZone d 0 = u.directZone d 0 :=
    ((hmark d).zone (by decide)).trans ((Fs.top_setSize s₁ 0 ((i + 1) * 16)).trans hzone₁)
  obtain ⟨h₄, hsame₄, -, hfield₄⟩ := h₃.storeEntry ((u.named d (u.directZone d 0) i name).setDentry
    (u.directZone d 0, i) nr) hd (by rwa [hzone₃]) (by rw [hzone₃]; rfl) rfl rfl
  have hsize : s₃.field d .size = (i + 1) * 16 := by
    rw [(hmark d).field, Fs.field_setField, DField.width]
    norm_num at hi
    omega
  refine ⟨h₄, ?_, fun j hj hne =>
    (((hsame₁ j hj hne).trans (hsame₂ j hj hne)).trans (hmark j)).trans (hsame₄ j hj hne)⟩
  rw [hfield₄, hsize]
  exact Dvd.intro_left _ rfl

theorem DirOk.size_le (hok : DirOk s d) : s.field d .size ≤ directBytes := by
  have hcnt : s.field d .size / 16 ≤ 64 := hok.size
  show s.field d .size ≤ 7 * 1024
  omega

/-- A directory has another table, and the other files are as they were. -/
structure DirChanged (I : Set ℕ) (d : ℕ) (s s' : Fs) (table : SlotTable.Table Name ℕ) : Prop where
  inv : FilesInv I s'
  ok : DirOk s' d
  same : ∀ j ∈ I, j ≠ d → SameFile j s s'
  table : Contents.table (s'.contents d) = table

/-- Only the table of inodes and the blocks count. -/
theorem DirChanged.of_data {table : SlotTable.Table Name ℕ} (h : DirChanged I d s t table)
    (hd : s'.cache.data = t.cache.data) (hinode : s'.inode = t.inode) (hsb : s'.sb = t.sb) :
    DirChanged I d s s' table := by
  have hsame : ∀ j, SameFile j t s' := fun j =>
    .of_data hd (by rw [hinode]) (by rw [hinode]) (by rw [hinode])
  refine ⟨h.inv.same hsb fun j _ => hsame j, (hsame d).dirOk h.ok,
    fun j hj hne => (h.same j hj hne).trans (hsame j), ?_⟩
  rw [(hsame d).contents, h.table]

/-- Where the new entry goes. -/
theorem free_enter (hok : DirOk s d) (hzone : s.zoneOf d 0 = s.directZone d 0) (hi : s.FreeAt d i) (k : Name) :
    SlotTable.enter k nr (Contents.table (s.contents d)) =
      (List.range i).map (Contents.entry (s.contents d)) ++ [some (k, nr)] := by
  unfold FreeAt at hi
  rw [hzone, if_neg hok.zone] at hi
  obtain ⟨hlt, hle, hfree, hused⟩ := hi
  have hlen : (Contents.table (s.contents d)).length = s.entryCnt d := by
    rw [Contents.table, List.length_map, List.length_range]
    rfl
  have hentry : ∀ j, ∀ h : j < (Contents.table (s.contents d)).length,
      (Contents.table (s.contents d))[j] = Contents.entry (s.contents d) j := by
    intro j h
    simp only [Contents.table, List.getElem_map, List.getElem_range]
  rw [SlotTable.enter_eq_take (i := i) (hle.trans hlen.ge) (fun h => ?_) fun j h hj => ?_]
  · rw [Contents.table, ← List.map_take, List.take_range, entryCnt_eq, min_eq_left hle]
  · rw [hentry i h, contents_entry hok.zone hlt, if_pos hfree]
  · rw [hentry j h, contents_entry hok.zone (hj.trans hlt), if_neg (hused j hj)]
    exact Option.some_ne_none _

/-- **The table after `add_entry`.** -/
theorem Fs.Added.changed (ha : Added s d z i name nr t) (hok : DirOk s d) (hzone : s.zoneOf d 0 = s.directZone d 0)
    (hi : s.FreeAt d i) (hname : vaildFileName name = true) (hnr : 0 < nr) (hnr' : nr < 2 ^ 16)
    (hinv : FilesInv I t) (hwhole : 16 ∣ t.field d .size) (hd : d ∈ I)
    (hsame : ∀ j ∈ I, j ≠ d → SameFile j s t) :
    DirChanged I d s t (SlotTable.enter (kept name) nr (Contents.table (s.contents d))) := by
  obtain ⟨-, hdir, rfl, hpos, hlt, hcnt, b, hb, hold⟩ := ha
  rw [hinv.zoneOf hd (by decide)] at hpos hb
  have htable : Contents.table (t.contents d) =
      SlotTable.enter (kept name) nr (Contents.table (s.contents d)) := by
    rw [free_enter hok hzone hi, Contents.table, entryCnt_eq, hcnt, List.range_succ, List.map_append,
      List.map_singleton, contents_entry hpos hlt, hb, slotNr_newBlock, if_pos rfl, Nat.mod_eq_of_lt hnr',
      if_neg hnr.ne', entryName_newBlock hname, if_pos rfl]
    congr 1
    refine List.map_congr_left fun j hj => ?_
    have hji : j < i := List.mem_range.1 hj
    rw [contents_entry hpos (hji.trans hlt), contents_entry hok.zone (hji.trans hlt), hb, slotNr_newBlock,
      if_neg hji.ne, entryName_newBlock hname, if_neg hji.ne, hold (Nat.ne_zero_of_lt hji), hzone]
  refine ⟨hinv, ⟨hdir, hpos, hwhole, ?_, ?_⟩, hsame, htable⟩
  · rw [hcnt]
    exact hlt
  · rw [htable]
    intro k hk
    rcases SlotTable.keys_enter_subset hk with rfl | hk
    · refine ⟨?_, fun x hx => (kept_valid hname x hx).2⟩
      rw [kept_length]
      exact Nat.lt_of_le_of_lt (min_le_left ..) (by decide)
    · exact hok.names k hk

/-- **Entering a name.** -/
theorem FilesInv.enter (h : FilesInv I s) (hd : d ∈ I) (hok : DirOk s d) (hnr : 0 < nr) (hnr' : nr < 2 ^ 16)
    {r : Fs × Bool} (hr : s.enter d name nr = .ok r) :
    r.2 = true ∧ SlotTable.find (component name) (Contents.table (s.contents d)) = none ∧
        vaildFileName name = true ∧
        DirChanged I d s r.1 (SlotTable.enter (kept name) nr (Contents.table (s.contents d))) ∨
      r.2 = false ∧ SlotTable.find (component name) (Contents.table (s.contents d)) ≠ none ∧
        s.Touched r.1 := by
  obtain ⟨t, hfind⟩ := h.findEntry hd hok name
  have ht := findEntry_touched hfind
  obtain ⟨hnone, hsome⟩ := h.lookup hd hok name
  rw [Fs.enter, hfind, ok_bind] at hr
  cases he : s.lookup d name with
  | some e =>
    obtain ⟨-, -, -, hvalue, -⟩ := hsome e he
    rw [he] at hr
    cases hr
    refine Or.inr ⟨rfl, ?_, ht.brelse _⟩
    rw [table_eq, hvalue]
    exact Option.some_ne_none _
  | none =>
    rw [he] at hr hfind
    obtain ⟨⟨v, b, entry⟩, hadd, hr⟩ := bind_eq_ok.1 hr
    obtain ⟨e, hentry, hr⟩ := bind_eq_ok.1 hr
    cases hr
    obtain rfl : entry = some e := by
      cases entry with
      | none => cases hentry
      | some e' =>
        cases hentry
        rfl
    have hvalid : vaildFileName name = true := by
      obtain ⟨-, hadd⟩ := cassert_bind_eq_ok.1 hadd
      exact (cassert_bind_eq_ok.1 hadd).1
    -- the name is looked for once more
    have hsame : ∀ j, SameFile j s t := ht.file
    have htI : FilesInv I t := h.same ht.sb fun j _ => hsame j
    have htok : DirOk t d := (hsame d).dirOk hok
    have hzone : t.zoneOf d 0 = t.directZone d 0 := htI.zoneOf hd (by decide)
    have hzone0 : t.zoneOf d 0 ≠ 0 := hzone ▸ htok.zone
    obtain ⟨t', hfind'⟩ := htI.findEntry hd htok name
    rw [htI.lookup_none hd htok (by rw [(hsame d).contents, hnone he])] at hfind'
    have hI := htI.direct d hd
    obtain ⟨hspec, hfree⟩ := addEntry_spec hI htok.mode hvalid (fun _ => hzone0) hfind'
    obtain ⟨i, hi⟩ := hfree v b e hadd
    obtain ⟨u, hu, hadd'⟩ := addEntry_at hI htok.mode hvalid hzone0 hfind' hi
    obtain ⟨u', z, hadd'', hadded⟩ := hspec i hi
    rw [hadd'] at hadd hadd''
    cases hadd''
    cases hadd
    have huI : FilesInv I u := htI.same hu.sb fun j _ => hu.file j
    have huzone : t.zoneOf d 0 = u.directZone d 0 := hzone.trans ((hu.file d).zone (by decide)).symm
    obtain ⟨hnamed, hwhole, hothers⟩ :=
      huI.named i name nr hd (huzone ▸ hzone0) (hadded nr).lt
    rw [← huzone] at hnamed hwhole hothers
    have hchanged := (hadded nr).changed htok hzone hi hvalid hnr hnr' hnamed hwhole hd fun j hj hne =>
      (hu.file j).trans (hothers j hj hne)
    have hs : DirChanged I d s ((u.named d (t.zoneOf d 0) i name).setDentry (t.zoneOf d 0, i) nr)
        (SlotTable.enter (kept name) nr (Contents.table (s.contents d))) :=
      ⟨hchanged.inv, hchanged.ok, fun j hj hne => (hsame j).trans (hchanged.same j hj hne),
        by rw [hchanged.table, (hsame d).contents]⟩
    exact Or.inl ⟨rfl, hnone he, hvalid, hs.of_data (brelse_data _ _) (brelse_inode _ _) (brelse_sb _ _)⟩

/-- **The inode of an entry is set to 0**: its slot becomes free. -/
theorem FilesInv.freeEntry (h : FilesInv I t) (hd : d ∈ I) (hok : DirOk t d) :
    DirChanged I d t (t.setDentry (t.directZone d 0, j) 0) ((Contents.table (t.contents d)).set j none) := by
  obtain ⟨hinv, hsame, hzone, hfield⟩ := h.storeEntry (t.setDentry (t.directZone d 0, j) 0) hd hok.zone rfl rfl rfl
  have hcnt : (t.setDentry (t.directZone d 0, j) 0).entryCnt d = t.entryCnt d := by
    rw [entryCnt, entryCnt, hfield]
  have hpos : (t.setDentry (t.directZone d 0, j) 0).directZone d 0 ≠ 0 := by
    rw [hzone]
    exact hok.zone
  have hslot : ∀ m, slotNr ((t.setDentry (t.directZone d 0, j) 0).cache.data (t.directZone d 0)) m =
      if m = j then 0 else slotNr (t.cache.data (t.directZone d 0)) m := by
    intro m
    rw [slotNr_setDentry]
    simp only [true_and, Nat.zero_mod]
  have hname : ∀ m, entryName ((t.setDentry (t.directZone d 0, j) 0).cache.data (t.directZone d 0))
      (16 * m + 2) = entryName (t.cache.data (t.directZone d 0)) (16 * m + 2) := by
    intro m
    have hdata : (t.setDentry (t.directZone d 0, j) 0).cache.data (t.directZone d 0) =
        store (t.cache.data (t.directZone d 0)) 2 (16 * j) 0 := update_self ..
    rw [hdata]
    refine bytesFrom_congr fun k hk => store_of_notMem ?_
    norm_num at hk
    omega
  have htable : Contents.table ((t.setDentry (t.directZone d 0, j) 0).contents d) =
      (Contents.table (t.contents d)).set j none := by
    rw [Contents.table, Contents.table, entryCnt_eq, entryCnt_eq, hcnt]
    refine List.ext_getElem (by simp) fun m hm _ => ?_
    have hm' : m < t.entryCnt d := by simpa using hm
    have hm64 : m < blockDentrys := hm'.trans_le hok.size
    rw [List.getElem_set]
    simp only [List.getElem_map, List.getElem_range]
    rw [contents_entry hpos hm64, contents_entry hok.zone hm64, hzone, hslot, hname]
    by_cases hmj : j = m
    · rw [if_pos hmj, if_pos hmj.symm, if_pos rfl]
    · rw [if_neg hmj, if_neg (Ne.symm hmj)]
  refine ⟨hinv, ⟨?_, hpos, ?_, ?_, ?_⟩, hsame, htable⟩
  · rw [hfield]
    exact hok.mode
  · rw [hfield]
    exact hok.whole
  · rw [hcnt]
    exact hok.size
  · rw [htable]
    intro k hk
    obtain ⟨v, hv⟩ := SlotTable.mem_keys.1 hk
    rcases List.mem_or_eq_of_mem_set hv with hv | hv
    · exact hok.names k (SlotTable.mem_keys.2 ⟨v, hv⟩)
    · cases hv

/-- **Removing a name.** -/
theorem FilesInv.remove (h : FilesInv I s) (hd : d ∈ I) (hok : DirOk s d) {r : Fs × Bool}
    (hr : s.remove d name = .ok r) :
    r.2 = true ∧ SlotTable.find (component name) (Contents.table (s.contents d)) ≠ none ∧
        DirChanged I d s r.1 (SlotTable.remove (component name) (Contents.table (s.contents d))) ∨
      r.2 = false ∧ SlotTable.find (component name) (Contents.table (s.contents d)) = none ∧
        s.Touched r.1 := by
  obtain ⟨t, hfind⟩ := h.findEntry hd hok name
  have ht := findEntry_touched hfind
  obtain ⟨hnone, hsome⟩ := h.lookup hd hok name
  rw [Fs.remove, hfind, ok_bind] at hr
  cases he : s.lookup d name with
  | none =>
    rw [he] at hr
    cases hr
    exact Or.inr ⟨rfl, hnone he, ht⟩
  | some e =>
    obtain ⟨z, j⟩ := e
    obtain ⟨rfl, -, -, hvalue, hremove⟩ := hsome _ he
    rw [he] at hr
    cases hr
    have htI : FilesInv I t := h.same ht.sb fun j _ => ht.file j
    have hzone : t.directZone d 0 = s.directZone d 0 := (ht.file d).zone (by decide)
    have hfree := htI.freeEntry (j := j) hd ((ht.file d).dirOk hok)
    rw [hzone, (ht.file d).contents, table_eq] at hfree
    rw [Nat.sub_zero] at hremove
    rw [← hremove, ← table_eq] at hfree
    have hchanged : DirChanged I d s (t.setDentry (s.directZone d 0, j) 0)
        (SlotTable.remove (component name) (Contents.table (s.contents d))) :=
      ⟨hfree.inv, hfree.ok, fun k hk hne => (ht.file k).trans (hfree.same k hk hne), hfree.table⟩
    refine Or.inl ⟨rfl, ?_, hchanged.of_data (brelse_data _ _) (brelse_inode _ _) (brelse_sb _ _)⟩
    rw [table_eq, hvalue]
    exact Option.some_ne_none _

end Change

/-! ## The runs -/

section Runs
variable {I D : Set ℕ} {s s' s₁ s₂ : Fs} {c c' : ℕ → Contents (BitVec 8)} {d : ℕ} {a : VolEvent}
  {as : List VolEvent} {name : CStr}

/-- The files and directories of a volume. -/
def volSys (I D : Set ℕ) : Sys Fs VolEvent where
  init s := (fileSys I).init s ∧ D ⊆ I ∧ ∀ d ∈ D, DirOk s d
  step := VolStep I D

/-- A directory `d` of the store gets another table. -/
def Retabled (c : ℕ → Contents (BitVec 8)) (d : ℕ)
    (f : SlotTable.Table Name ℕ → SlotTable.Table Name ℕ) (c' : ℕ → Contents (BitVec 8)) : Prop :=
  Contents.table (c' d) = f (Contents.table (c d)) ∧ ∀ j ≠ d, c' j = c j

/-- A step of a store of files whose directories are tables: a name that is entered has no separator, and is
    cut off behind 13 characters. -/
def NamesStep (D : Set ℕ) (c : ℕ → Contents (BitVec 8)) : VolEvent → (ℕ → Contents (BitVec 8)) → Prop
  | .file a, c' => StoreStep 0#8 c a c' ∧ ∀ d ∈ D, c' d = c d
  | .find d name nr, c' => c' = c ∧ nr = SlotTable.find (component name) (Contents.table (c d))
  | .enter d name nr done, c' =>
    if SlotTable.find (component name) (Contents.table (c d)) = none then
      done = true ∧ vaildFileName name = true ∧ Retabled c d (SlotTable.enter (kept name) nr) c'
    else done = false ∧ c' = c
  | .remove d name done, c' =>
    if SlotTable.find (component name) (Contents.table (c d)) = none then done = false ∧ c' = c
    else done = true ∧ Retabled c d (SlotTable.remove (component name)) c'

/-- The volume holds what the store does. -/
structure VolModels (I D : Set ℕ) (s : Fs) (c : ℕ → Contents (BitVec 8)) : Prop where
  files : Models I s c
  dirs : ∀ d ∈ D, DirOk s d

/-- A call on files leaves a directory alone. -/
theorem FileStep.dir {a : Event ℕ (BitVec 8)} (h : FilesInv I s) (hsmall : ∀ i ∈ I, s.field i .size ≤ directBytes)
    (hstep : FileStep I s a s') (hd : d ∈ I) (hok : DirOk s d) (ha : a ≠ .empty d) : SameFile d s s' := by
  cases a with
  | write i buf len offset =>
    obtain ⟨hi, hlen, r, hw⟩ := hstep
    have hdi : d ≠ i := by
      rintro rfl
      exact (cassert_bind_eq_ok.1 hw).1 hok.mode
    exact (h.write hi hlen hw).2.2 d hd hdi
  | read i buf len offset out n => exact (h.read hstep.1 (hsmall i hstep.1) hstep.2).1.file d
  | empty i =>
    have hdi : d ≠ i := by
      rintro rfl
      exact ha rfl
    exact (h.truncate hstep.1 hstep.2).2.2 d hd hdi
  | other => exact (h.other hstep).2 d hd

/-- A directory of the volume has another table. -/
theorem VolModels.changed (h : VolModels I D s c) (hD : D ⊆ I) (hd : d ∈ D)
    {f : SlotTable.Table Name ℕ → SlotTable.Table Name ℕ}
    (hc : DirChanged I d s s' (f (Contents.table (s.contents d)))) :
    ∃ c', Retabled c d f c' ∧ VolModels I D s' c' := by
  have hfiles : Models I s' (update c d (s'.contents d)) := h.files.changed hc.inv rfl hc.ok.size_le hc.same
  refine ⟨update c d (s'.contents d), ⟨?_, fun j hj => update_of_ne hj ..⟩, hfiles, fun j hj => ?_⟩
  · rw [update_self, hc.table, h.files.contents d (hD hd)]
  · by_cases hjd : j = d
    · subst hjd
      exact hc.ok
    · exact (hc.same j (hD hj) hjd).dirOk (h.dirs j hj)

/-- Nothing has changed. -/
theorem VolModels.touched (h : VolModels I D s c) (ht : s.Touched s') : VolModels I D s' c :=
  ⟨h.files.same (h.files.inv.same ht.sb fun j _ => ht.file j) fun j _ => ht.file j,
    fun j hj => (ht.file j).dirOk (h.dirs j hj)⟩

/-- **A step of the volume is one of the store.** -/
theorem VolModels.step (h : VolModels I D s c) (hD : D ⊆ I) (hstep : VolStep I D s a s') :
    ∃ c', NamesStep D c a c' ∧ VolModels I D s' c' := by
  cases a with
  | file a =>
    obtain ⟨hstep, ha⟩ := hstep
    obtain ⟨c', hc', hm⟩ := h.files.step hstep
    have hsame : ∀ d ∈ D, SameFile d s s' := fun d hd =>
      hstep.dir h.files.inv h.files.small (hD hd) (h.dirs d hd) (ha d hd)
    refine ⟨c', ⟨hc', fun d hd => ?_⟩, hm, fun d hd => (hsame d hd).dirOk (h.dirs d hd)⟩
    rw [← hm.contents d (hD hd), (hsame d hd).contents, h.files.contents d (hD hd)]
  | find d name nr =>
    obtain ⟨hd, hr⟩ := hstep
    obtain ⟨ht, hnr⟩ := h.files.inv.lookUp (hD hd) (h.dirs d hd) hr
    exact ⟨c, ⟨rfl, h.files.contents d (hD hd) ▸ hnr⟩, h.touched ht⟩
  | enter d name nr done =>
    obtain ⟨hd, hnr, hnr', hr⟩ := hstep
    have hcontents := h.files.contents d (hD hd)
    rcases h.files.inv.enter (hD hd) (h.dirs d hd) hnr hnr' hr with
      ⟨hdone, hnone, hvalid, hc⟩ | ⟨hdone, hsome, ht⟩
    · obtain ⟨c', hc', hm⟩ := h.changed hD hd hc
      refine ⟨c', ?_, hm⟩
      rw [hcontents] at hnone
      show if _ then _ else _
      rw [if_pos hnone]
      exact ⟨hdone, hvalid, hc'⟩
    · refine ⟨c, ?_, h.touched ht⟩
      rw [hcontents] at hsome
      show if _ then _ else _
      rw [if_neg hsome]
      exact ⟨hdone, rfl⟩
  | remove d name done =>
    obtain ⟨hd, hr⟩ := hstep
    have hcontents := h.files.contents d (hD hd)
    rcases h.files.inv.remove (hD hd) (h.dirs d hd) hr with ⟨hdone, hsome, hc⟩ | ⟨hdone, hnone, ht⟩
    · obtain ⟨c', hc', hm⟩ := h.changed hD hd hc
      refine ⟨c', ?_, hm⟩
      rw [hcontents] at hsome
      show if _ then _ else _
      rw [if_neg hsome]
      exact ⟨hdone, hc'⟩
    · refine ⟨c, ?_, h.touched ht⟩
      rw [hcontents] at hnone
      show if _ then _ else _
      rw [if_pos hnone]
      exact ⟨hdone, rfl⟩

/-- What an event does to the names of a directory. -/
def VolEvent.op (d : ℕ) : VolEvent → SlotTable.Op Name ℕ
  | .enter e name nr true => if e = d then .enter (component name) nr else .keep
  | .remove e name true => if e = d then .remove (component name) else .keep
  | _ => .keep

/-- What is entered into `d` is at most 13 characters long, and no name stands behind a free slot. -/
def Orderly (d : ℕ) (s : Fs) : VolEvent → Prop
  | .enter e name _ _ => e = d → name.length < nameLen ∧ SlotTable.Tight (Contents.table (s.contents d))
  | _ => True

theorem kept_component (hvalid : vaildFileName name = true) (hshort : name.length < nameLen) :
    kept name = component name := by
  rw [component_of_valid hvalid, kept_eq_iff.2 hshort]

/-- **An orderly step does to the table what it should do to a map.** -/
theorem NamesStep.table (h : NamesStep D c a c') (hd : d ∈ D) (hc : c d = s.contents d) (ho : Orderly d s a) :
    Contents.table (c' d) = (a.op d).run (Contents.table (c d)) ∧ (a.op d).Fits (Contents.table (c d)) := by
  cases a with
  | file a => exact ⟨congrArg Contents.table (h.2 d hd), trivial⟩
  | find e name nr => exact ⟨by rw [h.1]; rfl, trivial⟩
  | enter e name nr done =>
    change if _ then _ else _ at h
    split_ifs at h with hnone
    · obtain ⟨rfl, hvalid, htable, hothers⟩ := h
      by_cases hed : e = d
      · subst hed
        obtain ⟨hshort, htight⟩ := ho rfl
        rw [VolEvent.op, if_pos rfl, htable, kept_component hvalid hshort]
        rw [← hc] at htight
        exact ⟨rfl, hnone, htight⟩
      · rw [VolEvent.op, if_neg hed, hothers d (Ne.symm hed)]
        exact ⟨rfl, trivial⟩
    · obtain ⟨rfl, rfl⟩ := h
      exact ⟨rfl, trivial⟩
  | remove e name done =>
    change if _ then _ else _ at h
    split_ifs at h with hnone
    · obtain ⟨rfl, rfl⟩ := h
      exact ⟨rfl, trivial⟩
    · obtain ⟨rfl, htable, hothers⟩ := h
      by_cases hed : e = d
      · subst hed
        rw [VolEvent.op, if_pos rfl, htable]
        exact ⟨rfl, trivial⟩
      · rw [VolEvent.op, if_neg hed, hothers d (Ne.symm hed)]
        exact ⟨rfl, trivial⟩

/-- The names of a directory are apart, and say what a map does. -/
structure Maps (I D : Set ℕ) (d : ℕ) (s : Fs) (m : Name → Option ℕ) : Prop where
  models : VolModels I D s s.contents
  nodup : (SlotTable.keys (Contents.table (s.contents d))).Nodup
  find : (fun k => SlotTable.find k (Contents.table (s.contents d))) = m

theorem Maps.step {m : Name → Option ℕ} (h : Maps I D d s m) (hD : D ⊆ I) (hd : d ∈ D) (ho : Orderly d s a)
    (hstep : VolStep I D s a s') : Maps I D d s' ((a.op d).apply m) := by
  obtain ⟨c', hc', hm⟩ := h.models.step hD hstep
  obtain ⟨htable, hfits⟩ := hc'.table hd rfl ho
  obtain ⟨hnodup, hfind⟩ := SlotTable.find_run h.nodup hfits
  rw [← htable, ← hm.files.contents d (hD hd)] at hnodup hfind
  refine ⟨⟨⟨hm.files.inv, hm.files.small, fun _ _ => rfl⟩, hm.dirs⟩, hnodup, ?_⟩
  rw [hfind, h.find]

/-- **An orderly run** does to the names what a map does. -/
theorem Maps.run (hs : (volSys I D).init s) (hd : d ∈ D)
    (hnodup : (SlotTable.keys (Contents.table (s.contents d))).Nodup)
    (hrun : ((volSys I D).restrict (Orderly d)).Run s as s') :
    Maps I D d s' (as.foldl (fun m a => (a.op d).apply m)
      fun k => SlotTable.find k (Contents.table (s.contents d))) := by
  obtain ⟨hfiles, hD, hdirs⟩ := hs
  have hstep : ∀ t a u m, Maps I D d t m → True → ((volSys I D).restrict (Orderly d)).step t a u →
      Maps I D d u ((a.op d).apply m) := fun t a u m h _ hs => h.step hD hd hs.1 hs.2
  exact hrun.foldl (P := fun _ => True) hstep (fun _ _ => trivial)
    ⟨⟨⟨hfiles.1, hfiles.2, fun _ _ => rfl⟩, hdirs⟩, hnodup, rfl⟩

end Runs

end Rdix
