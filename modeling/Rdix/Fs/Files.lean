/-
  Files that are written, read and emptied in any order (fs/minix1/inode.c: inode_write, inode_read,
  inode_truncate).

  Several inodes are held at the same time, and may stand in one block; their files lie in the direct
  blocks.

  * `fileSys`: the calls on the files, between them what other calls do to the device;
  * `FilesInv`: the zones of the files are apart, and in use;
  * `filesMap`: the block map of one file, which leaves the contents of the others alone;
  * `files_refine`: a run is a run of a store of files;
  * `written_read_back`: what has been written is read until it is written again.
-/
import Rdix.Fs.InodeRead
import Rdix.Fs.InodeWrite
import Rdix.Fs.Lookup
import Rdix.Lib.FileStore

namespace Rdix

open ByteMem Function Transition FileStore

/-! ## The runs -/

/-- The bytes of the direct blocks. -/
abbrev directBytes : ℕ := 7 * blockSize

/-- The zone of a direct block. -/
def Fs.directZone (s : Fs) (i n : ℕ) : ℕ := s.cache.top (s.inode i) n

/-- What a file holds. -/
def Fs.contents (s : Fs) (i : ℕ) : Contents (BitVec 8) where
  size := s.field i .size
  byte k := if k < directBytes then (directMap i).byte s k else 0#8

/-- A call on one of the files `I`, or something else that happens to the device: blocks are held and
    released, buffers are written back, inodes are looked up and released. -/
def FileStep (I : Set ℕ) (s : Fs) : Event ℕ (BitVec 8) → Fs → Prop
  | .write i buf len offset, s' => i ∈ I ∧ offset + len ≤ directBytes ∧
    ∃ r, s.inodeWrite i buf len offset = .ok (s', r)
  | .read i buf len offset out n, s' => i ∈ I ∧ s.inodeRead i buf len offset = .ok (s', out, n)
  | .empty i, s' => i ∈ I ∧ s.inodeTruncate i = .ok s'
  | .other, s' => s.Touched s' ∨ s' = s.syncDev ∨ (∃ dev nr i, s.iget dev nr = .ok (s', i)) ∨
    ∃ i, (i ∈ I → 1 < (s.inode i).count) ∧ s.iput i = .ok s'

/-- The zones of the files are zones in use, and no two files share one. -/
structure FilesInv (I : Set ℕ) (s : Fs) : Prop where
  direct : ∀ i ∈ I, DirectInv i s
  inside : ∀ i ∈ I, ∀ n < 7, s.directZone i n ≠ 0 → s.directZone i n < s.sb.zones ∧
    s.sb.zonePos (s.directZone i n) < blockBits * s.sb.zmaps.length
  apart : ∀ i ∈ I, ∀ j ∈ I, i ≠ j → ∀ n < 7, ∀ m < 7, s.directZone i n ≠ 0 →
    s.directZone i n ≠ s.directZone j m
  slots : ∀ i ∈ I, ∀ j ∈ I, i ≠ j → (s.inode i).buf = (s.inode j).buf →
    (s.inode i).slot ≠ (s.inode j).slot
  mode : ∀ i ∈ I, ISFILE (s.field i .mode) ∨ ISDIR (s.field i .mode)
  indirect : ∀ i ∈ I, s.directZone i 7 = 0 ∧ s.directZone i 8 = 0
  dev : ∀ i ∈ I, (s.inode i).dev ≠ EOF

/-- The calls on the files `I`, from a state where they are apart and none is longer than its direct
    blocks. -/
def fileSys (I : Set ℕ) : Sys Fs (Event ℕ (BitVec 8)) where
  init s := FilesInv I s ∧ ∀ i ∈ I, s.field i .size ≤ directBytes
  step := FileStep I

/-! ## One file -/

/-- The inode `j` stands where it stood, and what it says and its data have not changed. -/
structure SameFile (j : ℕ) (s s' : Fs) : Prop where
  buf : (s'.inode j).buf = (s.inode j).buf
  slot : (s'.inode j).slot = (s.inode j).slot
  dev : (s'.inode j).dev = (s.inode j).dev
  desc : ∀ k < 32, s'.cache.data (s.inode j).buf ((s.inode j).slot * 32 + k) =
    s.cache.data (s.inode j).buf ((s.inode j).slot * 32 + k)
  blocks : ∀ n < 7, s.directZone j n ≠ 0 →
    s'.cache.data (s.directZone j n) = s.cache.data (s.directZone j n)

section SameFile
variable {s s' s'' : Fs} {i j n z : ℕ}

theorem Fs.directZone_load (s : Fs) (i n : ℕ) :
    s.directZone i n = load (s.cache.data (s.inode i).buf) 2 ((s.inode i).slot * 32 + (14 + 2 * n)) := by
  unfold Fs.directZone Cache.top Cache.word getU16 MInode.zone
  congr 1
  ring

theorem SameFile.zone (h : SameFile j s s') (hn : n < 9) : s'.directZone j n = s.directZone j n := by
  rw [Fs.directZone_load, Fs.directZone_load, h.buf, h.slot]
  refine load_congr fun k hk => ?_
  rw [Nat.add_assoc]
  exact h.desc _ (by omega)

theorem SameFile.field (h : SameFile j s s') (f : DField) : s'.field j f = s.field j f := by
  unfold Fs.field Cache.get
  rw [h.buf, h.slot]
  refine load_congr fun k hk => ?_
  rw [Nat.add_assoc]
  have hend : f.off + f.width ≤ 32 := by
    cases f with
    | zone k =>
      have := k.isLt
      simp only [DField.off, DField.width]
      omega
    | _ => decide
  exact h.desc _ (by omega)

theorem SameFile.contents (h : SameFile j s s') : s'.contents j = s.contents j := by
  unfold Fs.contents
  rw [h.field]
  congr 1
  funext k
  split_ifs with hk
  · have hn : k / blockSize < 7 := Nat.div_lt_of_lt_mul (by omega)
    have hzone : s'.directZone j (k / blockSize) = s.directZone j (k / blockSize) := h.zone (by omega)
    show (if s'.directZone j (k / blockSize) = 0 then _ else s'.cache.data (s'.directZone j _) _) =
      if s.directZone j (k / blockSize) = 0 then _ else s.cache.data (s.directZone j _) _
    rw [hzone]
    split_ifs with h0
    · rfl
    · rw [h.blocks _ hn h0]
  · rfl

theorem SameFile.refl (j : ℕ) (s : Fs) : SameFile j s s := ⟨rfl, rfl, rfl, fun _ _ => rfl, fun _ _ _ => rfl⟩

theorem SameFile.trans (h : SameFile j s s') (h' : SameFile j s' s'') : SameFile j s s'' := by
  refine ⟨h'.buf.trans h.buf, h'.slot.trans h.slot, h'.dev.trans h.dev, fun k hk => ?_, fun n hn h0 => ?_⟩
  · have hdesc := h'.desc k hk
    rw [h.buf, h.slot] at hdesc
    rw [hdesc, h.desc k hk]
  · have hblocks := h'.blocks n hn
    rw [h.zone (by omega)] at hblocks
    rw [hblocks h0, h.blocks n hn h0]

/-- Only the table of inodes and the blocks count. -/
theorem SameFile.of_data (hd : s'.cache.data = s.cache.data) (hbuf : (s'.inode j).buf = (s.inode j).buf)
    (hslot : (s'.inode j).slot = (s.inode j).slot) (hdev : (s'.inode j).dev = (s.inode j).dev) :
    SameFile j s s' :=
  ⟨hbuf, hslot, hdev, fun _ _ => by rw [hd], fun _ _ _ => by rw [hd]⟩

end SameFile

/-! ## The invariant -/

/-- The superblock is well formed, and only bits of its zones have changed. -/
structure SameSuper (sb sb' : Super) : Prop where
  ok : sb'.ZmapOk
  first : sb'.firstdatazone = sb.firstdatazone
  zones : sb'.zones = sb.zones
  length : sb'.zmaps.length = sb.zmaps.length

section FilesInv
variable {I : Set ℕ} {s s' : Fs} {i j n z : ℕ}

theorem FilesInv.inj (h : FilesInv I s) (hi : i ∈ I) (hj : j ∈ I) (hn : n < 7) {m : ℕ} (hm : m < 7)
    (h0 : s.directZone i n ≠ 0) (he : s.directZone i n = s.directZone j m) : i = j ∧ n = m := by
  by_cases hij : i = j
  · subst hij
    exact ⟨rfl, (h.direct i hi).distinct n hn m hm h0 he⟩
  · exact absurd he (h.apart i hi j hj hij n hn m hm h0)

/-- **The zone of one block is another one**, which no file has, or none. -/
theorem FilesInv.rezone (h : FilesInv I s) (hsb : SameSuper s.sb s'.sb)
    (hinode : ∀ j ∈ I, (s'.inode j).buf = (s.inode j).buf ∧ (s'.inode j).slot = (s.inode j).slot ∧
      (s'.inode j).dev = (s.inode j).dev)
    (hmode : ∀ j ∈ I, s'.field j .mode = s.field j .mode)
    (hzone : ∀ j ∈ I, ∀ m < 9, s'.directZone j m = if j = i ∧ m = n then z else s.directZone j m)
    (hz : z ≠ 0 → n < 7 ∧ s.sb.firstdatazone ≤ z ∧ z < s.sb.zones ∧
      s.sb.zonePos z < blockBits * s.sb.zmaps.length)
    (hnew : z ≠ 0 → ∀ j ∈ I, ∀ m < 7, ¬ (j = i ∧ m = n) → s.directZone j m ≠ z)
    (hused : ∀ j ∈ I, ∀ m < 7, s'.directZone j m ≠ 0 → s'.sb.zoneUsed (s'.directZone j m) = true) :
    FilesInv I s' := by
  have hpos : ∀ z, s'.sb.zonePos z = s.sb.zonePos z := fun z => by rw [Super.zonePos, Super.zonePos, hsb.first]
  have hinj : ∀ j ∈ I, ∀ k ∈ I, ∀ m < 7, ∀ l < 7, s'.directZone j m ≠ 0 →
      s'.directZone j m = s'.directZone k l → j = k ∧ m = l := by
    intro j hj k hk m hm l hl h0 he
    rw [hzone j hj m (by omega)] at h0 he
    rw [hzone k hk l (by omega)] at he
    split_ifs at h0 he with h1 h2 h2
    · exact ⟨h1.1.trans h2.1.symm, h1.2.trans h2.2.symm⟩
    · exact absurd he.symm (hnew h0 k hk l hl h2)
    · exact absurd he (hnew (he ▸ h0) j hj m hm h1)
    · exact h.inj hj hk hm hl h0 he
  refine ⟨fun j hj => ⟨?_, hsb.ok, ?_, ?_, fun m hm h0 => ⟨?_, hused j hj m hm h0⟩, ?_⟩, fun j hj m hm h0 => ?_,
    fun j hj k hk hne m hm l hl h0 he => hne (hinj j hj k hk m hm l hl h0 he).1, fun j hj k hk hne hbuf => ?_,
    fun j hj => ?_, fun j hj => ?_, fun j hj => ?_⟩
  · rw [(hinode j hj).2.1]
    exact (h.direct j hj).slot
  · rw [hsb.zones]
    exact (h.direct j hj).zones
  · rw [(hinode j hj).1, hsb.first]
    exact (h.direct j hj).buf
  · change s'.directZone j m ≠ 0 at h0
    show s'.sb.firstdatazone ≤ s'.directZone j m
    rw [hzone j hj m (by omega)] at h0 ⊢
    rw [hsb.first]
    split_ifs at h0 ⊢
    · exact (hz h0).2.1
    · exact ((h.direct j hj).used m hm h0).1
  · exact fun m hm l hl h0 he => (hinj j hj j hj m hm l hl h0 he).2
  · rw [hpos, hsb.zones, hsb.length]
    rw [hzone j hj m (by omega)] at h0 ⊢
    split_ifs at h0 ⊢
    · exact (hz h0).2.2
    · exact h.inside j hj m hm h0
  · rw [(hinode j hj).1, (hinode k hk).1] at hbuf
    rw [(hinode j hj).2.1, (hinode k hk).2.1]
    exact h.slots j hj k hk hne hbuf
  · rw [hmode j hj]
    exact h.mode j hj
  · rw [hzone j hj 7 (by omega), hzone j hj 8 (by omega), (h.indirect j hj).1, (h.indirect j hj).2]
    constructor
    · split_ifs with h7
      · by_contra h0
        have := (hz h0).1
        omega
      · rfl
    · split_ifs with h8
      · by_contra h0
        have := (hz h0).1
        omega
      · rfl
  · rw [(hinode j hj).2.2]
    exact h.dev j hj

/-- The zones are where they were. -/
theorem FilesInv.congr (h : FilesInv I s) (hsb : SameSuper s.sb s'.sb)
    (hused : ∀ z, s'.sb.zoneUsed z = s.sb.zoneUsed z)
    (hinode : ∀ j ∈ I, (s'.inode j).buf = (s.inode j).buf ∧ (s'.inode j).slot = (s.inode j).slot ∧
      (s'.inode j).dev = (s.inode j).dev)
    (hmode : ∀ j ∈ I, s'.field j .mode = s.field j .mode)
    (hzone : ∀ j ∈ I, ∀ m < 9, s'.directZone j m = s.directZone j m) : FilesInv I s' := by
  rcases I.eq_empty_or_nonempty with rfl | ⟨i, hi⟩
  · constructor <;> simp
  refine h.rezone (i := i) (n := 0) (z := s.directZone i 0) hsb hinode hmode (fun j hj m hm => ?_)
    (fun h0 => ⟨by omega, ((h.direct i hi).used 0 (by omega) h0).1, h.inside i hi 0 (by omega) h0⟩)
    (fun h0 j hj m hm hne he => ?_) fun j hj m hm h0 => ?_
  · rw [hzone j hj m hm]
    split_ifs with h1
    · rw [h1.1, h1.2]
    · rfl
  · obtain ⟨rfl, rfl⟩ := h.inj hi hj (by omega) hm h0 he.symm
    exact hne ⟨rfl, rfl⟩
  · rw [hzone j hj m (by omega)] at h0 ⊢
    rw [hused]
    exact ((h.direct j hj).used m hm h0).2

/-- Nothing has happened to the files. -/
theorem FilesInv.same (h : FilesInv I s) (hsb : s'.sb = s.sb) (hsame : ∀ j ∈ I, SameFile j s s') :
    FilesInv I s' := by
  rcases I.eq_empty_or_nonempty with rfl | ⟨i, hi⟩
  · constructor <;> simp
  exact h.congr ⟨hsb ▸ (h.direct i hi).zmap, by rw [hsb], by rw [hsb], by rw [hsb]⟩ (fun z => by rw [hsb])
    (fun j hj => ⟨(hsame j hj).buf, (hsame j hj).slot, (hsame j hj).dev⟩)
    (fun j hj => (hsame j hj).field .mode) fun j hj m hm => (hsame j hj).zone hm

end FilesInv

/-! ## What other calls do -/

section Other
variable {I : Set ℕ} {s s' : Fs} {i j nr : ℕ} {dev : ℤ}

theorem Fs.Touched.file (h : s.Touched s') (j : ℕ) : SameFile j s s' :=
  .of_data h.data (by rw [h.inode]) (by rw [h.inode]) (by rw [h.inode])

/-- The dirty flags of the bitmaps do not count. -/
theorem mapBit_clean (maps : List Buf) (p : ℕ) :
    mapBit (maps.map fun buf => { buf with b_dirty := false }) p = mapBit maps p := by
  unfold mapBit
  rw [List.getElem?_map]
  cases maps[p / blockBits]? <;> rfl

theorem FilesInv.syncDev (h : FilesInv I s) : FilesInv I s.syncDev := by
  have hzmaps : s.syncDev.sb.zmaps = s.sb.zmaps.map fun buf => { buf with b_dirty := false } := rfl
  have hbit : ∀ p, mapBit s.syncDev.sb.zmaps p = mapBit s.sb.zmaps p := fun p => by
    rw [hzmaps, mapBit_clean]
  have hlen : s.syncDev.sb.zmaps.length = s.sb.zmaps.length := by rw [hzmaps, List.length_map]
  rcases I.eq_empty_or_nonempty with rfl | ⟨i, hi⟩
  · constructor <;> simp
  have hok := (h.direct i hi).zmap
  refine h.congr ⟨⟨?_, hok.first_pos, hok.first_u16, hok.zones_u16, ?_, fun p hp hge => ?_⟩, rfl, rfl, hlen⟩
    (fun z => hbit _) (fun j hj => ⟨rfl, rfl, rfl⟩) (fun j hj => rfl) fun j hj m hm => rfl
  · rw [Super.zmap_blocks, hlen]
    exact hok.nr
  · rw [hbit]
    exact hok.bit_zero
  · rw [Super.zmap_blocks, hlen] at hp
    rw [hbit]
    exact hok.past_last p hp hge

/-- `iget` counts a reference, or takes an entry that is free. -/
theorem iget_file (h : s.iget dev nr = .ok (s', i)) (hdev : (s.inode j).dev ≠ EOF) : SameFile j s s' := by
  unfold Fs.iget at h
  obtain ⟨-, h⟩ := cassert_bind_eq_ok.1 h
  split at h
  · rename_i k hfind
    cases h
    have hsame : ∀ f : MInode → ℤ, (∀ e : MInode, ∀ n, f { e with count := n } = f e) →
        f ((s.setInode i { s.inode i with count := (s.inode i).count + 1 }).inode j) = f (s.inode j) := by
      intro f hf
      by_cases hj : j = i
      · subst hj
        exact (congrArg f (update_self ..)).trans (hf _ _)
      · exact congrArg f (update_of_ne hj ..)
    exact .of_data rfl (Int.ofNat.inj (hsame (fun e => e.buf) fun _ _ => rfl))
      (Int.ofNat.inj (hsame (fun e => e.slot) fun _ _ => rfl)) (hsame MInode.dev fun _ _ => rfl)
  · obtain ⟨-, h⟩ := cassert_bind_eq_ok.1 h
    obtain ⟨k, hk, h⟩ := bind_eq_ok.1 h
    cases h
    have hne : j ≠ i := by
      rintro rfl
      unfold Fs.getFreeInode at hk
      split at hk
      · rename_i hfind
        cases hk
        exact hdev (of_decide_eq_true (List.find?_some (p := fun i => decide ((s.inode i).dev = EOF)) hfind))
      · cases hk
    have hinode : ((s.bread (s.inodeBlock nr)).setInode i
        ⟨dev, nr, 1, s.inodeBlock nr, (nr - 1) % blockInodes⟩).inode j = s.inode j := update_of_ne hne ..
    exact .of_data rfl (by rw [hinode]) (by rw [hinode]) (by rw [hinode])

/-- `iput` takes a reference back, or the inode itself if it was the last. -/
theorem iput_file (h : s.iput i = .ok s') (hcount : j = i → 1 < (s.inode i).count) : SameFile j s s' := by
  obtain ⟨-, ⟨h1, rfl⟩ | ⟨h1, rfl⟩⟩ := Fs.iput_cases h
  · by_cases hj : j = i
    · subst hj
      have hinode : (s.setInode j { s.inode j with count := (s.inode j).count - 1 }).inode j =
          { s.inode j with count := (s.inode j).count - 1 } := update_self ..
      exact .of_data rfl (by rw [hinode]) (by rw [hinode]) (by rw [hinode])
    · have hinode : (s.setInode i { s.inode i with count := (s.inode i).count - 1 }).inode j = s.inode j :=
        update_of_ne hj ..
      exact .of_data rfl (by rw [hinode]) (by rw [hinode]) (by rw [hinode])
  · have hinode : ((s.brelse (s.inode i).buf).setInode i { s.inode i with count := 0, dev := EOF }).inode j =
        s.inode j := by
      refine (update_of_ne (fun hj => h1 (hcount hj)) ..).trans ?_
      rw [Fs.brelse_inode]
    have hdata : ((s.brelse (s.inode i).buf).setInode i { s.inode i with count := 0, dev := EOF }).cache.data =
        s.cache.data := Fs.brelse_data s _
    exact .of_data hdata (by rw [hinode]) (by rw [hinode]) (by rw [hinode])

/-- **What other calls do leaves the files alone.** -/
theorem FilesInv.other (h : FilesInv I s) (hstep : FileStep I s .other s') :
    FilesInv I s' ∧ ∀ j ∈ I, SameFile j s s' := by
  rcases hstep with ht | rfl | ⟨dev, nr, i, hi⟩ | ⟨i, hcount, hi⟩
  · exact ⟨h.same ht.sb fun j _ => ht.file j, fun j _ => ht.file j⟩
  · exact ⟨h.syncDev, fun j _ => .of_data rfl rfl rfl rfl⟩
  · have hsame : ∀ j ∈ I, SameFile j s s' := fun j hj => iget_file hi (h.dev j hj)
    exact ⟨h.same (Fs.iget_same hi).sb hsame, hsame⟩
  · have hsame : ∀ j ∈ I, SameFile j s s' := fun j hj => iput_file hi fun he => hcount (he ▸ hj)
    exact ⟨h.same (Fs.iput_same hi).sb hsame, hsame⟩

end Other

/-! ## Writing -/

section Write
variable {I : Set ℕ} {s s' : Fs} {i j n z : ℕ}

/-- Another inode of the block is written to. -/
theorem FilesInv.store_inode (h : FilesInv I s) (hi : i ∈ I) (hj : j ∈ I) (hne : j ≠ i)
    (hinode : s'.inode = s.inode) {w off v : ℕ} (hoff : off + w ≤ 32)
    (hd : s'.cache.data = update s.cache.data (s.inode i).buf
      (store (s.cache.data (s.inode i).buf) w ((s.inode i).slot * 32 + off) v)) : SameFile j s s' := by
  refine ⟨by rw [hinode], by rw [hinode], by rw [hinode], fun k hk => ?_, fun m hm h0 => ?_⟩
  · rw [hd]
    by_cases hbuf : (s.inode j).buf = (s.inode i).buf
    · have hslot := h.slots j hj i hi hne hbuf
      rw [hbuf, update_self, store_of_notMem (by omega)]
    · rw [update_of_ne hbuf]
  · have hfirst := ((h.direct j hj).used m hm h0).1
    have hbuf := (h.direct i hi).buf
    have hzone : s.directZone j m ≠ (s.inode i).buf := by
      change s.sb.firstdatazone ≤ s.directZone j m at hfirst
      omega
    rw [hd, update_of_ne hzone]

/-- A block that the file does not have is written to. -/
theorem sameFile_update (hinode : s'.inode = s.inode) {d : Bytes}
    (hd : s'.cache.data = update s.cache.data z d) (hbuf : (s.inode j).buf ≠ z)
    (hzone : ∀ m < 7, s.directZone j m ≠ 0 → s.directZone j m ≠ z) : SameFile j s s' := by
  refine ⟨by rw [hinode], by rw [hinode], by rw [hinode], fun k hk => ?_, fun m hm h0 => ?_⟩
  · rw [hd, update_of_ne hbuf]
  · rw [hd, update_of_ne (hzone m hm h0)]

/-- A zone is taken for a block of another file. -/
theorem ZoneTaken.file (ht : ZoneTaken s i n z s') (h : FilesInv I s) (hi : i ∈ I) (hj : j ∈ I)
    (hne : j ≠ i) (hn : n < 7) : SameFile j s s' := by
  let mid := s.mapCache (·.put (s.inode i).buf 2 ((s.inode i).slot * 32 + (14 + 2 * n)) z)
  have hmid : SameFile j s mid := h.store_inode hi hj hne rfl (by omega) rfl
  have hfirst := ht.first
  have hdata : s'.cache.data = update mid.cache.data z fun _ => 0#8 := by
    have hoff : (s.inode i).slot * 32 + (14 + 2 * n) = 2 * ((s.inode i).slot * 16 + 7 + n) := by ring
    have hput : mid.cache.data = update s.cache.data (s.inode i).buf
        (setU16 (s.cache.data (s.inode i).buf) ((s.inode i).slot * 16 + 7 + n) z) := by
      rw [setU16, ← hoff]
      rfl
    rw [ht.data, hput]
  refine hmid.trans (sameFile_update ht.inode hdata ?_ fun m hm h0 => ?_)
  · have hbuf := (h.direct j hj).buf
    show (s.inode j).buf ≠ z
    omega
  · rw [hmid.zone (by omega)] at h0 ⊢
    rintro rfl
    have hused := ((h.direct j hj).used m hm h0).2
    change s.sb.zoneUsed (s.directZone j m) = true at hused
    rw [ht.free] at hused
    cases hused

theorem ZoneTaken.mode (ht : ZoneTaken s i n z s') (hI : DirectInv i s) :
    s'.field i .mode = s.field i .mode := by
  have hne : (s.inode i).buf ≠ z := by
    have := hI.buf
    have := ht.first
    omega
  unfold Fs.field Cache.get
  rw [ht.inode, ht.data, update_of_ne hne, update_self]
  exact load_store_of_disjoint (Or.inl (by simp only [DField.off, DField.width]; omega))

/-- **A zone is taken for a block of a file.** -/
theorem ZoneTaken.files (ht : ZoneTaken s i n z s') (h : FilesInv I s) (hi : i ∈ I) (hn : n < 7) :
    FilesInv I s' := by
  have hI := h.direct i hi
  have hzone : ∀ j ∈ I, ∀ m < 9, s'.directZone j m = if j = i ∧ m = n then z else s.directZone j m := by
    intro j hj m hm
    by_cases hji : j = i
    · subst hji
      have htop := ht.top hI m
      rw [Fs.directZone, ht.inode, htop]
      simp only [true_and]
      rfl
    · rw [if_neg fun hc => hji hc.1]
      exact (ht.file h hi hj hji hn).zone hm
  have hfree : ∀ j ∈ I, ∀ m < 7, s.directZone j m ≠ 0 → s.directZone j m ≠ z := by
    intro j hj m hm h0 he
    have hused := ((h.direct j hj).used m hm h0).2
    change s.sb.zoneUsed (s.directZone j m) = true at hused
    rw [he, ht.free] at hused
    cases hused
  have hlen : s'.sb.zmaps.length = s.sb.zmaps.length := by
    rw [ht.sb]
    exact mapPut_length ..
  refine h.rezone ⟨ht.sb ▸ hI.zmap.putZone ht.first ht.lt ht.pos, by rw [ht.sb]; rfl, by rw [ht.sb]; rfl, hlen⟩
    (fun j _ => by rw [ht.inode]; exact ⟨rfl, rfl, rfl⟩) (fun j hj => ?_) hzone
    (fun _ => ⟨hn, ht.first, ht.lt, ht.pos⟩) (fun h0 j hj m hm hne he => ?_) fun j hj m hm h0 => ?_
  · by_cases hji : j = i
    · subst hji
      exact ht.mode hI
    · exact (ht.file h hi hj hji hn).field .mode
  · exact hfree j hj m hm (he ▸ h0) he
  · rw [hzone j hj m (by omega)] at h0 ⊢
    rw [ht.sb, zoneUsed_putZone ht.pos]
    split_ifs at h0 ⊢ with h1 h2 h2
    · rfl
    · exact absurd rfl h2
    · rfl
    · exact ((h.direct j hj).used m hm h0).2

theorem Fs.mode_setSize (s : Fs) (i v : ℕ) : (s.setField i .size v).field i .mode = s.field i .mode := by
  have hd : (s.setField i .size v).cache.data (s.inode i).buf =
      store (s.cache.data (s.inode i).buf) 4 ((s.inode i).slot * 32 + 4) v := update_self ..
  show load ((s.setField i .size v).cache.data (s.inode i).buf) 2 ((s.inode i).slot * 32 + 0) = _
  rw [hd]
  exact load_store_of_disjoint (Or.inl (by omega))

/-- The size of a file changes. -/
theorem FilesInv.setSize (h : FilesInv I s) (hi : i ∈ I) (v : ℕ) :
    FilesInv I (s.setField i .size v) ∧ ∀ j ∈ I, j ≠ i → SameFile j s (s.setField i .size v) := by
  have hsame : ∀ j ∈ I, j ≠ i → SameFile j s (s.setField i .size v) := fun j hj hne =>
    h.store_inode hi hj hne rfl (by decide : DField.size.off + DField.size.width ≤ 32) rfl
  refine ⟨h.congr ⟨(h.direct i hi).zmap, rfl, rfl, rfl⟩ (fun _ => rfl) (fun _ _ => ⟨rfl, rfl, rfl⟩)
    (fun j hj => ?_) fun j hj m hm => ?_, hsame⟩
  · by_cases hji : j = i
    · subst hji
      exact s.mode_setSize j v
    · exact (hsame j hj hji).field .mode
  · by_cases hji : j = i
    · subst hji
      exact Fs.top_setSize s m v
    · exact (hsame j hj hji).zone hm

/-- The data of a block of a file change. -/
theorem FilesInv.storeData (h : FilesInv I s) (hi : i ∈ I) (hn : n < 7) (h0 : s.directZone i n ≠ 0)
    {d : Bytes} (hd : s'.cache.data = update s.cache.data (s.directZone i n) d) (hsb : s'.sb = s.sb)
    (hinode : s'.inode = s.inode) : FilesInv I s' ∧ ∀ j ∈ I, j ≠ i → SameFile j s s' := by
  have hbuf : ∀ j ∈ I, (s.inode j).buf ≠ s.directZone i n := by
    intro j hj
    have hfirst := ((h.direct i hi).used n hn h0).1
    have hlt := (h.direct j hj).buf
    change s.sb.firstdatazone ≤ s.directZone i n at hfirst
    omega
  have hdesc : ∀ j ∈ I, s'.cache.data (s.inode j).buf = s.cache.data (s.inode j).buf := fun j hj => by
    rw [hd, update_of_ne (hbuf j hj)]
  refine ⟨h.congr ⟨hsb ▸ (h.direct i hi).zmap, by rw [hsb], by rw [hsb], by rw [hsb]⟩ (fun _ => by rw [hsb])
    (fun j _ => by rw [hinode]; exact ⟨rfl, rfl, rfl⟩) (fun j hj => ?_) (fun j hj m hm => ?_),
    fun j hj hne => sameFile_update hinode hd (hbuf j hj) fun m hm h1 he =>
      h.apart j hj i hi hne m hm n hn h1 he⟩
  · unfold Fs.field Cache.get
    rw [hinode, hdesc j hj]
  · rw [Fs.directZone_load, Fs.directZone_load, hinode, hdesc j hj]

theorem directBytes_lt : directBytes < 2 ^ 31 := by decide

/-- **The block map of the file `i`, which leaves the others as they were in `s₀`.** -/
def filesMap (I : Set ℕ) (i : ℕ) (s₀ : Fs) : BlockMap i where
  bmap s n := s.bmap i n true
  zone s := s.cache.top (s.inode i)
  kept s := {(s.inode i).buf}
  Inv s := i ∈ I ∧ FilesInv I s ∧ ∀ j ∈ I, j ≠ i → SameFile j s₀ s
  limit := 7
  limit_lt := directBytes_lt
  buf_mem _ _ := rfl
  apart s n h := (directMap i).apart s n (h.2.1.direct i h.1)
  inj s n m h := (directMap i).inj s n m (h.2.1.direct i h.1)
  call s n s' z h hn hc := by
    obtain ⟨hi, hI, hothers⟩ := h
    refine ⟨?_, ((directMap i).call s n s' z (hI.direct i hi) hn hc).2⟩
    rcases bmap_direct (hI.direct i hi) hn with ⟨-, he⟩ | ⟨-, ⟨s₁, z₁, he, ht⟩ | ⟨-, he⟩⟩
    · rw [he] at hc
      cases hc
      exact ⟨hi, hI, hothers⟩
    · rw [he] at hc
      cases hc
      exact ⟨hi, ht.files hI hi hn, fun j hj hne => (hothers j hj hne).trans (ht.file hI hi hj hne hn)⟩
    · rw [he] at hc
      cases hc
  resize s v h := by
    obtain ⟨hi, hI, hothers⟩ := h
    obtain ⟨hI', hsame⟩ := hI.setSize hi v
    exact ⟨⟨hi, hI', fun j hj hne => (hothers j hj hne).trans (hsame j hj hne)⟩,
      ((directMap i).resize s v (hI.direct i hi)).2⟩
  store s s' n d h hn h0 hd hsb hinode := by
    obtain ⟨hi, hI, hothers⟩ := h
    obtain ⟨hI', hsame⟩ := hI.storeData hi hn h0 hd hsb hinode
    exact ⟨⟨hi, hI', fun j hj hne => (hothers j hj hne).trans (hsame j hj hne)⟩,
      ((directMap i).store s s' n d (hI.direct i hi) hn h0 hd hsb hinode).2⟩

/-- A write keeps the invariant of the block map. -/
theorem BlockMap.write_inv {M : BlockMap i} {buf : ℕ → BitVec 8} {len offset : ℕ} (hI : M.Inv s)
    (hlen : offset + len ≤ M.limit * blockSize) {r : Fs × ℕ}
    (hw : inodeWriteWith M.bmap s i buf len offset = .ok r) : M.Inv r.1 := by
  obtain ⟨-, hw⟩ := cassert_bind_eq_ok.1 hw
  have hlimit := M.limit_lt
  have hlast : u32 (len + offset) < 2 ^ 32 := Nat.mod_lt _ (by norm_num)
  obtain ⟨s₀, hs₀, hI₀, -⟩ := BlockMap.resized (M := M) hI hlast
  dsimp only at hw
  rw [hs₀] at hw
  exact ((BlockMap.loop le_rfl hI₀ hlen).value r hw).inv

/-- **A write changes the file that is written**, and no other. -/
theorem FilesInv.write (h : FilesInv I s) (hi : i ∈ I) {buf : ℕ → BitVec 8} {len offset r : ℕ}
    (hlen : offset + len ≤ directBytes) (hw : s.inodeWrite i buf len offset = .ok (s', r)) :
    FilesInv I s' ∧ (directMap i).Stored s s' buf len offset ∧ ∀ j ∈ I, j ≠ i → SameFile j s s' := by
  have hmode := (h.mode i hi).resolve_right (cassert_bind_eq_ok.1 hw).1
  rw [inodeWrite_eq] at hw
  have hinv : (filesMap I i s).Inv s := ⟨hi, h, fun j _ _ => .refl j s⟩
  obtain ⟨-, h', hothers⟩ := BlockMap.write_inv hinv hlen hw
  exact ⟨h', (BlockMap.write (M := directMap i) (h.direct i hi) hmode hlen).value _ hw, hothers⟩

theorem BlockMap.Stored.contents {buf : ℕ → BitVec 8} {len offset : ℕ} (hlen : offset + len ≤ directBytes)
    (h : (directMap i).Stored s s' buf len offset) : s'.contents i = (s.contents i).write buf len offset := by
  unfold Fs.contents Contents.write
  rw [h.size]
  congr 1
  funext k
  split_ifs with hk hin hin
  · rw [h.bytes k hk, if_pos hin]
  · rw [h.bytes k hk, if_neg hin]
    exact (if_pos hk).symm
  · omega
  · exact (if_neg hk).symm

end Write

/-! ## Emptying -/

section Empty
variable {I : Set ℕ} {s s' s'' : Fs} {i j : ℕ}

/-- A release that returns clears the bit of the zone. -/
theorem bfree_put {sb sb' : Super} (h : sb.ZmapOk) {z : ℕ} (hfirst : sb.firstdatazone ≤ z) (hz : z < sb.zones)
    (hin : sb.zonePos z < blockBits * sb.zmaps.length) (hused : sb.zoneUsed z = true)
    (hf : bfree sb z = .ok sb') : sb' = sb.putZone z false := by
  by_cases hs : sb.SameBlock z
  · rw [(bfree_iff h hfirst hz hin hused).2 hs] at hf
    exact (Except.ok.inj hf).symm
  · obtain ⟨e, he⟩ := bfree_error h hfirst hz hs
    rw [he] at hf
    cases hf

/-- The zone of a direct block is released, if there is one. -/
theorem FilesInv.inodeBfree (h : FilesInv I s) (hi : i ∈ I) {k : Fin 9} {level : ℕ}
    (hlevel : k.val < 7 → level = 0) (hf : Fs.inodeBfree level s (s.inode i).zone k = .ok s') :
    s.directZone i k = 0 ∧ s' = s ∨
      s.directZone i k ≠ 0 ∧ k.val < 7 ∧ s' = s.setSb (s.sb.putZone (s.directZone i k) false) := by
  have hslot := (h.direct i hi).slot
  have hoff : (s.inode i).zone.off + k < zonesIdxPerBlock := by
    have hk := k.isLt
    norm_num [MInode.zone] at hslot ⊢
    omega
  have hget : s.env.get (s.inode i).zone k = .ok (s.directZone i k) := if_pos hoff
  by_cases h0 : s.directZone i k = 0
  · refine Or.inl ⟨h0, ?_⟩
    cases level with
    | zero =>
      rw [Fs.inodeBfree, hget, ok_bind, if_pos h0] at hf
      exact (Except.ok.inj hf).symm
    | succ level =>
      rw [Fs.inodeBfree, hget, ok_bind, if_pos h0] at hf
      exact (Except.ok.inj hf).symm
  · have hk : k.val < 7 := by
      by_contra hge
      have hlt := k.isLt
      have h78 : k.val = 7 ∨ k.val = 8 := by omega
      rcases h78 with hk | hk
      · rw [hk] at h0
        exact h0 (h.indirect i hi).1
      · rw [hk] at h0
        exact h0 (h.indirect i hi).2
    obtain rfl := hlevel hk
    rw [Fs.inodeBfree, hget, ok_bind, if_neg h0] at hf
    obtain ⟨sb, hsb, hf⟩ := bind_eq_ok.1 hf
    obtain ⟨hz, hin⟩ := h.inside i hi k hk h0
    obtain ⟨hfirst, hused⟩ := (h.direct i hi).used k hk h0
    rw [bfree_put (h.direct i hi).zmap hfirst hz hin hused hsb] at hf
    exact Or.inr ⟨h0, hk, (Except.ok.inj hf).symm⟩

/-- Some zones of the file `i` have been released; the other files are as they were. -/
structure Emptied (I : Set ℕ) (i : ℕ) (s s' : Fs) : Prop where
  inv : FilesInv I s'
  same : ∀ j ∈ I, j ≠ i → SameFile j s s'
  zero : ∀ m < 9, s.directZone i m = 0 → s'.directZone i m = 0

theorem Emptied.trans (h : Emptied I i s s') (h' : Emptied I i s' s'') : Emptied I i s s'' :=
  ⟨h'.inv, fun j hj hne => (h.same j hj hne).trans (h'.same j hj hne), fun m hm h0 => h'.zero m hm (h.zero m hm h0)⟩

/-- **One zone is released and forgotten.** -/
theorem FilesInv.truncateZone (h : FilesInv I s) (hi : i ∈ I) {k : Fin 9} {level : ℕ}
    (hlevel : k.val < 7 → level = 0) (ht : s.truncateZone i k level = .ok s') :
    Emptied I i s s' ∧ s'.directZone i k = 0 := by
  obtain ⟨t, hf, ht⟩ := bind_eq_ok.1 ht
  obtain rfl : t.setField i (.zone k) 0 = s' := Except.ok.inj ht
  have hbfree := h.inodeBfree hi hlevel hf
  have hinode : t.inode = s.inode := by rcases hbfree with ⟨-, rfl⟩ | ⟨-, -, rfl⟩ <;> rfl
  have hcache : t.cache = s.cache := by rcases hbfree with ⟨-, rfl⟩ | ⟨-, -, rfl⟩ <;> rfl
  have hdata : (t.setField i (.zone k) 0).cache.data = update s.cache.data (s.inode i).buf
      (store (s.cache.data (s.inode i).buf) 2 ((s.inode i).slot * 32 + (14 + 2 * k)) 0) := by
    rw [← hinode, ← hcache]
    rfl
  have hk := k.isLt
  have hsame : ∀ j ∈ I, j ≠ i → SameFile j s (t.setField i (.zone k) 0) := fun j hj hne =>
    h.store_inode hi hj hne hinode (by omega) hdata
  have hzonei : ∀ m, (t.setField i (.zone k) 0).directZone i m = if m = k then 0 else s.directZone i m := by
    intro m
    have htop := t.top_setField (i := i) k m
    rw [hcache, hinode] at htop
    refine Eq.trans ?_ htop
    rw [← hinode]
    rfl
  have hzone : ∀ j ∈ I, ∀ m < 9, (t.setField i (.zone k) 0).directZone j m =
      if j = i ∧ m = k.val then 0 else s.directZone j m := by
    intro j hj m hm
    by_cases hji : j = i
    · subst hji
      rw [hzonei]
      simp only [true_and]
    · rw [if_neg fun hc => hji hc.1]
      exact (hsame j hj hji).zone hm
  have hsb : SameSuper s.sb t.sb ∧ ∀ z, (s.directZone i k ≠ 0 → s.sb.zonePos z ≠ s.sb.zonePos (s.directZone i k)) →
      t.sb.zoneUsed z = s.sb.zoneUsed z := by
    have hok := (h.direct i hi).zmap
    rcases hbfree with ⟨-, rfl⟩ | ⟨h0, hk7, rfl⟩
    · exact ⟨⟨hok, rfl, rfl, rfl⟩, fun z _ => rfl⟩
    · obtain ⟨hz, hin⟩ := h.inside i hi k hk7 h0
      have hfirst := ((h.direct i hi).used k hk7 h0).1
      refine ⟨⟨hok.putZone hfirst hz hin, rfl, rfl, mapPut_length ..⟩, fun z hne => ?_⟩
      rw [Fs.setSb_sb, zoneUsed_putZone hin, if_neg (hne h0)]
  refine ⟨⟨h.rezone (i := i) (n := k) (z := 0) hsb.1 (fun j _ => by
      show (t.inode j).buf = _ ∧ (t.inode j).slot = _ ∧ (t.inode j).dev = _
      rw [hinode]
      exact ⟨rfl, rfl, rfl⟩) (fun j hj => ?_) hzone (fun h0 => absurd rfl h0) (fun h0 => absurd rfl h0)
      fun j hj m hm h0 => ?_, hsame, fun m hm h0 => ?_⟩, ?_⟩
  · by_cases hji : j = i
    · subst hji
      unfold Fs.field Cache.get
      rw [show (t.setField j (.zone k) 0).inode = s.inode from hinode, hdata, update_self]
      exact load_store_of_disjoint (Or.inl (by simp only [DField.off, DField.width]; omega))
    · exact (hsame j hj hji).field .mode
  · rw [hzone j hj m (by omega)] at h0 ⊢
    split_ifs at h0 ⊢ with hji
    · exact absurd rfl h0
    · refine (hsb.2 _ fun h1 he => hji ?_).trans ((h.direct j hj).used m hm h0).2
      have hk7 : k.val < 7 := by
        rcases hbfree with ⟨hzero, -⟩ | ⟨-, hk7, -⟩
        · exact absurd hzero h1
        · exact hk7
      exact h.inj hj hi hm hk7 h0 (zonePos_inj ((h.direct j hj).used m hm h0).1
        ((h.direct i hi).used k hk7 h1).1 he)
  · rw [hzonei]
    split_ifs
    · rfl
    · exact h0
  · rw [hzonei, if_pos rfl]

theorem FilesInv.truncateZones (h : FilesInv I s) (hi : i ∈ I) {l : List (Fin 7)}
    (hf : l.foldlM (fun s k => s.truncateZone i (k.castLE (by decide)) 0) s = .ok s') :
    Emptied I i s s' ∧ ∀ k ∈ l, s'.directZone i k = 0 := by
  induction l generalizing s with
  | nil =>
    cases hf
    exact ⟨⟨h, fun j _ _ => .refl j _, fun _ _ h0 => h0⟩, by simp⟩
  | cons k l ih =>
    rw [List.foldlM_cons] at hf
    obtain ⟨t, ht, hf⟩ := bind_eq_ok.1 hf
    obtain ⟨he, hk⟩ := h.truncateZone hi (fun _ => rfl) ht
    obtain ⟨he', hl⟩ := ih he.inv hf
    refine ⟨he.trans he', fun m hm => ?_⟩
    rcases List.mem_cons.1 hm with rfl | hm
    · exact he'.zero m (by omega) hk
    · exact hl m hm

/-- **A truncation empties the file**, and leaves the others alone. -/
theorem FilesInv.truncate (h : FilesInv I s) (hi : i ∈ I) (ht : s.inodeTruncate i = .ok s') :
    FilesInv I s' ∧ s'.contents i = ⟨0, fun _ => 0#8⟩ ∧ ∀ j ∈ I, j ≠ i → SameFile j s s' := by
  have hmode : ¬ (¬ ISFILE (s.field i .mode) ∧ ¬ ISDIR (s.field i .mode)) := fun hc => (h.mode i hi).elim hc.1 hc.2
  unfold Fs.inodeTruncate at ht
  rw [if_neg hmode] at ht
  obtain ⟨s₁, h₁, ht⟩ := bind_eq_ok.1 ht
  obtain ⟨s₂, h₂, ht⟩ := bind_eq_ok.1 ht
  obtain ⟨s₃, h₃, ht⟩ := bind_eq_ok.1 ht
  cases ht
  obtain ⟨he₁, hz₁⟩ := h.truncateZones hi h₁
  obtain ⟨he₂, -⟩ := he₁.inv.truncateZone hi (fun h7 => absurd h7 (by decide)) h₂
  obtain ⟨he₃, -⟩ := he₂.inv.truncateZone hi (fun h7 => absurd h7 (by decide)) h₃
  have hall := (he₁.trans he₂).trans he₃
  obtain ⟨hinv, hsame⟩ := hall.inv.setSize hi 0
  have hmark : ∀ j, SameFile j (s₃.setField i .size 0) ((s₃.setField i .size 0).markInode i) := fun j =>
    .of_data rfl rfl rfl rfl
  refine ⟨hinv.same rfl fun j _ => hmark j, ?_, fun j hj hne => ?_⟩
  · rw [(hmark i).contents]
    unfold Fs.contents
    rw [Fs.field_setField]
    congr 1
    funext k
    split_ifs with hk
    · have hn : k / blockSize < 7 := Nat.div_lt_of_lt_mul (by omega)
      have hzero : (s₃.setField i .size 0).directZone i (k / blockSize) = 0 := by
        have hz := hz₁ ⟨k / blockSize, hn⟩ (List.mem_finRange _)
        have hz₃ := he₃.zero _ (by omega) (he₂.zero _ (by omega) hz)
        exact (Fs.top_setSize s₃ _ 0).trans hz₃
      exact if_pos hzero
    · rfl
  · exact ((hall.same j hj hne).trans (hsame j hj hne)).trans (hmark j)

end Empty

/-! ## Reading -/

section Read
variable {I : Set ℕ} {s s' t : Fs} {i : ℕ} {buf out : ℕ → BitVec 8} {len len' offset ptr total_size : ℕ}

/-- The zone that `bmap` finds for a direct block. -/
theorem FilesInv.zoneOf (h : FilesInv I s) (hi : i ∈ I) {n : ℕ} (hn : n < 7) :
    s.zoneOf i n = s.directZone i n := by
  have hslot := (h.direct i hi).slot
  have hzones := (h.direct i hi).zones
  have hoff : (s.inode i).zone.off + n < zonesIdxPerBlock := by
    norm_num [MInode.zone] at hslot ⊢
    omega
  have hget : s.env.get (s.inode i).zone n = .ok (s.directZone i n) := if_pos hoff
  have hassert : (0 : ℤ) ≤ n ∧ (n : ℤ) < s.sb.zones := by omega
  unfold Fs.zoneOf Fs.bmap Rdix.bmap
  rw [cassert_pos hassert, ok_bind]
  simp only [Int.toNat_natCast, if_pos hn, bmapReckon, Fs.ensureZone_read, hget]
  rfl

/-- The bytes of a file that are mapped are what it holds. -/
theorem FilesInv.fileByte (h : FilesInv I s) (hi : i ∈ I) {k : ℕ} (hk : k < directBytes)
    (hmap : s.zoneOf i (k / blockSize) ≠ 0) : s.fileByte i k = (s.contents i).byte k := by
  have hn : k / blockSize < 7 := Nat.div_lt_of_lt_mul (by omega)
  rw [h.zoneOf hi hn] at hmap
  unfold Fs.fileByte Fs.contents
  rw [h.zoneOf hi hn]
  dsimp only
  rw [if_pos hk]
  exact (if_neg hmap).symm

/-- A copy that returns has found its block. -/
theorem readTurn_mapped {r : Fs × (ℕ → BitVec 8) × ℕ}
    (h : Fs.readTurn i s buf len ptr total_size offset = .ok r) : s.zoneOf i (offset / blockSize) ≠ 0 := by
  unfold Fs.readTurn at h
  obtain ⟨⟨t, z⟩, hb, h⟩ := bind_eq_ok.1 h
  obtain ⟨hz, -⟩ := cassert_bind_eq_ok.1 h
  unfold Fs.zoneOf
  rw [hb]
  exact hz

theorem Fs.filled_none (s : Fs) (i : ℕ) (buf : ℕ → BitVec 8) (ptr total_size : ℕ) :
    s.filled i buf ptr total_size 0 = buf := by
  funext k
  exact if_neg (by omega)

/-- **A request that ends inside the file and returns has copied the bytes**, all of them mapped. -/
theorem readLoop_returned {n : ℕ} (hlen : ptr + total_size + len ≤ s.field i .size)
    (hrun : Fs.readLoop i n s buf len ptr total_size (ptr + total_size) = .ok (s', out, len')) :
    s.Touched s' ∧ out = s.filled i buf ptr total_size len ∧ len' = total_size + len ∧
      ∀ k, ptr + total_size ≤ k → k < ptr + total_size + len → s.zoneOf i (k / blockSize) ≠ 0 := by
  induction n generalizing s buf len total_size with
  | zero =>
    unfold Fs.readLoop at hrun
    split_ifs at hrun with hc
    cases hrun
    obtain rfl : len = 0 := by omega
    exact ⟨.refl _, (Fs.filled_none ..).symm, rfl, fun k h1 h2 => by omega⟩
  | succ n ih =>
    unfold Fs.readLoop at hrun
    split_ifs at hrun with hc
    · obtain ⟨⟨t, buf₁, size⟩, hturn, hrun⟩ := bind_eq_ok.1 hrun
      have hzone := readTurn_mapped hturn
      obtain ⟨t', ht, he⟩ := @Fs.readTurn_eq s i buf len (ptr + total_size) ptr
        total_size hzone
      rw [he] at hturn
      dsimp only at hturn hrun
      have hpos : (ptr + total_size) % blockSize < blockSize := Nat.mod_lt _ (by decide)
      generalize hsize : Fs.copySize (s.field i .size) (ptr + total_size) (ptr + total_size) len = m at hturn
      have hcases : m = len ∧ (ptr + total_size) % blockSize + m ≤ blockSize ∨
          m < len ∧ (ptr + total_size) % blockSize + m = blockSize ∧ 0 < m := by
        unfold Fs.copySize at hsize
        rw [if_neg (by omega)] at hsize
        split_ifs at hsize <;> omega
      have hfit : (ptr + total_size) % blockSize + m ≤ blockSize := by omega
      rw [if_pos hfit, Fs.copyBytes_filled hfit] at hturn
      cases hturn
      have hfirst : ∀ k, ptr + total_size ≤ k → k < ptr + total_size + size →
          s.zoneOf i (k / blockSize) ≠ 0 := by
        intro k h1 h2
        have hdiv : k / blockSize = (ptr + total_size) / blockSize := by
          norm_num at hfit ⊢
          omega
        rwa [hdiv]
      rcases hcases with ⟨rfl, -⟩ | ⟨hlt, hend, -⟩
      · rw [Nat.sub_self, Fs.readLoop_zero] at hrun
        cases hrun
        exact ⟨ht, rfl, rfl, hfirst⟩
      · have hnext : ((ptr + total_size) / blockSize + 1) * blockSize = ptr + (total_size + size) := by
          have hdm := Nat.div_add_mod (ptr + total_size) blockSize
          rw [Nat.mul_comm] at hdm
          rw [Nat.add_mul]
          omega
        rw [hnext] at hrun
        obtain ⟨ht', rfl, rfl, hmap⟩ := ih (by rw [ht.field]; omega) hrun
        refine ⟨ht.trans ht', ?_, by omega, fun k h1 h2 => ?_⟩
        · rw [ht.filled, Fs.filled_filled, Nat.add_sub_cancel' hlt.le]
        · by_cases hk : k < ptr + total_size + size
          · exact hfirst k h1 hk
          · rw [← ht.zoneOf]
            exact hmap k (by omega) (by omega)
    · cases hrun
      obtain rfl : len = 0 := by omega
      exact ⟨.refl _, (Fs.filled_none ..).symm, rfl, fun k h1 h2 => by omega⟩

/-- **A read that returns gives what the file holds**, and changes nothing. -/
theorem FilesInv.read (h : FilesInv I s) (hi : i ∈ I) (hsize : s.field i .size ≤ directBytes) {n : ℤ}
    (hr : s.inodeRead i buf len offset = .ok (s', out, n)) :
    s.Touched s' ∧ (s.contents i).Reads buf len offset out n := by
  obtain ⟨-, hr⟩ := cassert_bind_eq_ok.1 hr
  have hcontents : (s.contents i).size = s.field i .size := rfl
  unfold Contents.Reads
  rw [hcontents]
  split_ifs at hr ⊢ with hoff
  · cases hr
    exact ⟨.refl _, rfl, rfl⟩
  · obtain ⟨⟨t, buf', total⟩, hloop, hr⟩ := bind_eq_ok.1 hr
    cases hr
    -- the bytes are those of the contents, once they are known to be mapped
    have hslice : ∀ m, offset + m ≤ s.field i .size →
        (∀ k, offset ≤ k → k < offset + m → s.zoneOf i (k / blockSize) ≠ 0) →
        m = min len (s.field i .size - offset) →
        s.filled i buf offset 0 m = (s.contents i).slice buf len offset := by
      intro m hm hmap hmin
      funext k
      unfold Fs.filled Contents.slice
      rw [hcontents, ← hmin, Nat.zero_add]
      by_cases hk : k < m
      · rw [if_pos ⟨Nat.zero_le k, hk⟩, if_pos hk, h.fileByte hi (by omega) (hmap _ (by omega) (by omega))]
      · rw [if_neg fun hc => hk hc.2, if_neg hk]
    by_cases hlen : len ≤ s.field i .size - offset
    · obtain ⟨ht, rfl, rfl, hmap⟩ := @readLoop_returned s s' i buf out len total offset 0 len
        (by omega) hloop
      rw [Nat.add_zero] at hmap
      exact ⟨ht, hslice len (by omega) hmap (min_eq_left hlen).symm, by rw [Nat.zero_add, min_eq_left hlen]⟩
    · have hmapped : s.zoneOf i (offset / blockSize) ≠ 0 := by
        obtain ⟨m, rfl⟩ : ∃ m, len = m + 1 := ⟨len - 1, by omega⟩
        unfold Fs.readLoop at hloop
        rw [if_pos ⟨m.succ_ne_zero, by omega⟩] at hloop
        obtain ⟨r, hturn, -⟩ := bind_eq_ok.1 hloop
        exact readTurn_mapped hturn
      obtain ⟨t', ht, he⟩ := @Fs.readLoop_past s i buf len offset (by omega) (by omega) hmapped
      rw [he] at hloop
      split_ifs at hloop with hfit
      cases hloop
      have hmin : min len (s.field i .size - offset) = s.field i .size - offset := min_eq_right (by omega)
      refine ⟨ht, hslice _ (by omega) (fun k h1 h2 => ?_) hmin.symm, by rw [hmin]⟩
      have hdiv : k / blockSize = offset / blockSize := by
        have hmod : offset % blockSize < blockSize := Nat.mod_lt _ (by decide)
        norm_num at hfit hmod ⊢
        omega
      rwa [hdiv]

end Read

/-! ## The runs refine the store -/

section Refine
variable {I : Set ℕ} {s s' s₁ s₂ s₃ : Fs} {c c' : ℕ → Contents (BitVec 8)} {i : ℕ} {a : Event ℕ (BitVec 8)}
  {as : List (Event ℕ (BitVec 8))}

/-- The files `I` hold what the store does. -/
structure Models (I : Set ℕ) (s : Fs) (c : ℕ → Contents (BitVec 8)) : Prop where
  inv : FilesInv I s
  small : ∀ i ∈ I, s.field i .size ≤ directBytes
  contents : ∀ i ∈ I, s.contents i = c i

/-- One file is changed. -/
theorem Models.changed (h : Models I s c) (hinv : FilesInv I s') {d : Contents (BitVec 8)}
    (hd : s'.contents i = d) (hsize : d.size ≤ directBytes) (hothers : ∀ j ∈ I, j ≠ i → SameFile j s s') :
    Models I s' (update c i d) := by
  refine ⟨hinv, fun j hj => ?_, fun j hj => ?_⟩
  · by_cases hji : j = i
    · subst hji
      exact (congrArg Contents.size hd).le.trans hsize
    · rw [(hothers j hj hji).field]
      exact h.small j hj
  · by_cases hji : j = i
    · subst hji
      rw [update_self, hd]
    · rw [update_of_ne hji, (hothers j hj hji).contents, h.contents j hj]

/-- No file is changed. -/
theorem Models.same (h : Models I s c) (hinv : FilesInv I s') (hsame : ∀ j ∈ I, SameFile j s s') :
    Models I s' c := by
  refine ⟨hinv, fun j hj => ?_, fun j hj => ?_⟩
  · rw [(hsame j hj).field]
    exact h.small j hj
  · rw [(hsame j hj).contents, h.contents j hj]

/-- **A call on the files is one on the store.** -/
theorem Models.step (h : Models I s c) (hstep : FileStep I s a s') :
    ∃ c', StoreStep 0#8 c a c' ∧ Models I s' c' := by
  cases a with
  | write i buf len offset =>
    obtain ⟨hi, hlen, r, hw⟩ := hstep
    obtain ⟨hinv, hstored, hothers⟩ := h.inv.write hi hlen hw
    have hcontents := hstored.contents hlen
    rw [h.contents i hi] at hcontents
    have hsmall : (c i).size ≤ directBytes := h.contents i hi ▸ h.small i hi
    exact ⟨_, rfl, h.changed hinv hcontents (max_le hsmall hlen) hothers⟩
  | read i buf len offset out n =>
    obtain ⟨hi, hr⟩ := hstep
    obtain ⟨ht, hreads⟩ := h.inv.read hi (h.small i hi) hr
    exact ⟨c, ⟨rfl, h.contents i hi ▸ hreads⟩,
      h.same (h.inv.same ht.sb fun j _ => ht.file j) fun j _ => ht.file j⟩
  | empty i =>
    obtain ⟨hi, ht⟩ := hstep
    obtain ⟨hinv, hcontents, hothers⟩ := h.inv.truncate hi ht
    exact ⟨_, rfl, h.changed hinv hcontents (Nat.zero_le _) hothers⟩
  | other =>
    obtain ⟨hinv, hsame⟩ := h.inv.other hstep
    exact ⟨c, rfl, h.same hinv hsame⟩

/-- The bytes of file `i` from `offset` on have their zones. -/
def Mapped (i len offset : ℕ) (s : Fs) : Prop :=
  ∀ k, offset ≤ k → k < offset + len → s.directZone i (k / blockSize) ≠ 0

theorem block_lt_seven {n m : ℕ} (hn : n * blockSize < m) (hm : m ≤ directBytes) : n < 7 := by
  have hn' : n * 1024 < m := hn
  have hm' : m ≤ 7168 := hm
  omega

theorem Mapped.of_same {j len offset : ℕ} (h : Mapped j len offset s) (hfit : offset + len ≤ directBytes)
    (hsame : SameFile j s s') : Mapped j len offset s' := by
  intro k h1 h2
  have hlt : k / blockSize < 7 :=
    block_lt_seven ((Nat.div_mul_le_self k blockSize).trans_lt (show k < offset + len from h2)) hfit
  rw [hsame.zone (by omega)]
  exact h k h1 h2

/-- **Zones stay**, but for those of a file that is emptied. -/
theorem Mapped.step {j len offset : ℕ} (h : Mapped j len offset s) (hm : Models I s c) (hj : j ∈ I)
    (hfit : offset + len ≤ directBytes) (ha : a.Spares j len offset) (hstep : FileStep I s a s') :
    Mapped j len offset s' := by
  cases a with
  | write i buf len' offset' =>
    obtain ⟨hi, hlen, r, hw⟩ := hstep
    obtain ⟨-, hstored, hothers⟩ := hm.inv.write hi hlen hw
    by_cases hji : j = i
    · subst hji
      intro k h1 h2
      have hzone := h k h1 h2
      rw [show s'.directZone j _ = s.directZone j _ from hstored.keep _ hzone]
      exact hzone
    · exact h.of_same hfit (hothers j hj hji)
  | read i buf len' offset' out n =>
    obtain ⟨hi, hr⟩ := hstep
    obtain ⟨ht, -⟩ := hm.inv.read hi (hm.small i hi) hr
    exact h.of_same hfit (ht.file j)
  | empty i =>
    obtain ⟨hi, ht⟩ := hstep
    obtain ⟨-, -, hothers⟩ := hm.inv.truncate hi ht
    exact h.of_same hfit (hothers j hj fun he => ha he.symm)
  | other =>
    obtain ⟨-, hsame⟩ := hm.inv.other hstep
    exact h.of_same hfit (hsame j hj)

/-- What a write has put into a file has zones. -/
theorem mapped_write {buf : ℕ → BitVec 8} {len offset : ℕ} (hm : Models I s c)
    (hw : FileStep I s (.write i buf len offset) s') : Mapped i len offset s' := by
  obtain ⟨hi, hfit, r, hw⟩ := hw
  exact (hm.inv.write hi hfit hw).2.1.mapped

/-- A read inside a file returns, where its bytes have zones. -/
theorem FilesInv.read_mapped {len offset : ℕ} (h : FilesInv I s) (hi : i ∈ I)
    (hsmall : s.field i .size ≤ directBytes) (hmap : Mapped i len offset s) (buf : ℕ → BitVec 8)
    (hlen : 0 < len) (hend : offset + len ≤ s.field i .size) :
    ∃ t, s.inodeRead i buf len offset = .ok (t, (s.contents i).slice buf len offset, len) := by
  have hzone : ∀ k, offset + 0 ≤ k → k < offset + 0 + len → s.zoneOf i (k / blockSize) ≠ 0 := by
    intro k h1 h2
    have hlt : k / blockSize < 7 :=
      block_lt_seven ((Nat.div_mul_le_self k blockSize).trans_lt (show k < _ by omega)) hsmall
    rw [h.zoneOf hi hlt]
    exact hmap k h1 h2
  obtain ⟨t, -, he⟩ := @Fs.readLoop_spec s i buf len offset 0 len le_rfl (by omega) hzone
  have hrun : s.inodeRead i buf len offset = .ok (t, s.filled i buf offset 0 len, (len : ℤ)) := by
    rw [Fs.inodeRead, cassert_pos (h.mode i hi), ok_bind, if_neg (by omega)]
    rw [Nat.add_zero, Nat.zero_add] at he
    rw [he]
    rfl
  obtain ⟨-, hreads⟩ := h.read hi hsmall hrun
  have hcontents : ¬ (s.contents i).size ≤ offset := by
    show ¬ s.field i .size ≤ offset
    omega
  unfold Contents.Reads at hreads
  rw [if_neg hcontents] at hreads
  exact ⟨t, hreads.1 ▸ hrun⟩

/-- Bytes that the store holds and that have zones are read. -/
theorem Models.read_back {buf : ℕ → BitVec 8} {len offset : ℕ} (h : Models I s c) (hi : i ∈ I)
    (hmap : Mapped i len offset s) (hholds : (c i).Holds buf len offset) (hlen : 0 < len)
    (buf' : ℕ → BitVec 8) : ∃ t out, s.inodeRead i buf' len offset = .ok (t, out, len) ∧
      ∀ k < len, out k = buf k := by
  rw [← h.contents i hi] at hholds
  obtain ⟨t, ht⟩ := h.inv.read_mapped hi (h.small i hi) hmap buf' hlen hholds.size
  obtain ⟨-, hreads⟩ := h.inv.read hi (h.small i hi) ht
  exact ⟨t, _, ht, (hholds.reads hlen hreads).2⟩

/-- **What has been written is read back**, until it is written again or the file is emptied: the read
    returns, with the full length. -/
theorem written_read_back {buf : ℕ → BitVec 8} {len offset : ℕ} (hs : (fileSys I).init s)
    (hlen : 0 < len) (hw : FileStep I s (.write i buf len offset) s₁) (hrun : (fileSys I).Run s₁ as s₂)
    (has : ∀ a ∈ as, a.Spares i len offset) (buf' : ℕ → BitVec 8) :
    ∃ s₃ out, s₂.inodeRead i buf' len offset = .ok (s₃, out, len) ∧ ∀ k < len, out k = buf k := by
  obtain ⟨hi, hfit, -⟩ := id hw
  have hm : Models I s s.contents := ⟨hs.1, hs.2, fun _ _ => rfl⟩
  obtain ⟨c₁, rfl, h₁⟩ := hm.step hw
  have hkeep : ∃ c₂, Models I s₂ c₂ ∧ (c₂ i).Holds buf len offset ∧ Mapped i len offset s₂ := by
    clear hs
    induction hrun with
    | nil =>
      refine ⟨_, h₁, ?_, mapped_write hm hw⟩
      rw [update_self]
      exact (s.contents i).holds_write buf len offset
    | step _ hstep ih =>
      obtain ⟨c, hc, hholds, hmap⟩ := ih fun a ha => has a (List.mem_append_left _ ha)
      have ha := has _ (List.mem_append_right _ List.mem_cons_self)
      obtain ⟨c', hc', hm'⟩ := hc.step hstep
      exact ⟨c', hm', hc'.holds hholds ha, hmap.step hc hi hfit ha hstep⟩
  obtain ⟨c₂, h₂, hholds, hmap⟩ := hkeep
  exact h₂.read_back hi hmap hholds hlen buf'

/-! ## Files without holes -/

/-- Each block of a file up to its end has a zone. -/
def Dense (I : Set ℕ) (s : Fs) : Prop :=
  ∀ i ∈ I, ∀ n, n * blockSize < s.field i .size → s.directZone i n ≠ 0

/-- A write begins no later than the end of the file. -/
def Adjoins (s : Fs) : Event ℕ (BitVec 8) → Prop
  | .write i _ _ offset => offset ≤ s.field i .size
  | _ => True

theorem Dense.of_same (h : Dense I s) (hsmall : ∀ i ∈ I, s.field i .size ≤ directBytes) {j : ℕ}
    (hj : j ∈ I) (hsame : SameFile j s s') {n : ℕ} (hn : n * blockSize < s'.field j .size) :
    s'.directZone j n ≠ 0 := by
  rw [hsame.field] at hn
  have hlt := block_lt_seven hn (hsmall j hj)
  rw [hsame.zone (by omega)]
  exact h j hj n hn

theorem Dense.step (h : Dense I s) (hm : Models I s c) (ha : Adjoins s a) (hstep : FileStep I s a s') :
    Dense I s' := by
  cases a with
  | write i buf len offset =>
    obtain ⟨hi, hlen, r, hw⟩ := hstep
    obtain ⟨-, hstored, hothers⟩ := hm.inv.write hi hlen hw
    intro j hj n hn
    by_cases hji : j = i
    · subst hji
      rw [hstored.size] at hn
      by_cases hold : n * blockSize < s.field j .size
      · have hzone := h j hj n hold
        rw [show s'.directZone j n = s.directZone j n from hstored.keep n hzone]
        exact hzone
      · -- the block lies in what is written
        have hbegin : offset ≤ s.field j .size := ha
        have hin := hstored.mapped (n * blockSize) (by omega) (by omega)
        rwa [Nat.mul_div_cancel n (by decide)] at hin
    · exact h.of_same hm.small hj (hothers j hj hji) hn
  | read i buf len offset out n =>
    obtain ⟨hi, hr⟩ := hstep
    obtain ⟨ht, -⟩ := hm.inv.read hi (hm.small i hi) hr
    exact fun j hj n hn => h.of_same hm.small hj (ht.file j) hn
  | empty i =>
    obtain ⟨hi, ht⟩ := hstep
    obtain ⟨-, hcontents, hothers⟩ := hm.inv.truncate hi ht
    intro j hj n hn
    by_cases hji : j = i
    · subst hji
      have hsize : s'.field j .size = 0 := congrArg Contents.size hcontents
      omega
    · exact h.of_same hm.small hj (hothers j hj hji) hn
  | other =>
    obtain ⟨-, hsame⟩ := hm.inv.other hstep
    exact fun j hj n hn => h.of_same hm.small hj (hsame j hj) hn

/-- A read inside a file without holes returns. -/
theorem FilesInv.read_dense (h : FilesInv I s) (hi : i ∈ I)
    (hd : ∀ n, n * blockSize < s.field i .size → s.directZone i n ≠ 0)
    (hsmall : s.field i .size ≤ directBytes) (buf : ℕ → BitVec 8) {len offset : ℕ} (hlen : 0 < len)
    (hend : offset + len ≤ s.field i .size) :
    ∃ t, s.inodeRead i buf len offset = .ok (t, (s.contents i).slice buf len offset, len) :=
  h.read_mapped hi hsmall (fun k _ hk => hd _ ((Nat.div_mul_le_self k _).trans_lt (by omega))) buf hlen hend

/-- **Where no write leaves a hole, every read inside a file returns**, with what the file holds. -/
theorem reads_return (hs : (fileSys I).init s) (hd : Dense I s)
    (hrun : ((fileSys I).restrict Adjoins).Run s as s') (hi : i ∈ I) (buf : ℕ → BitVec 8) {len offset : ℕ}
    (hlen : 0 < len) (hend : offset + len ≤ s'.field i .size) :
    ∃ t, s'.inodeRead i buf len offset = .ok (t, (s'.contents i).slice buf len offset, len) := by
  have hkeep : (∃ c, Models I s' c) ∧ Dense I s' := by
    refine hrun.invariant (I := fun s => (∃ c, Models I s c) ∧ Dense I s) (fun t a u ht hstep => ?_)
      ⟨⟨s.contents, hs.1, hs.2, fun _ _ => rfl⟩, hd⟩
    obtain ⟨⟨c, hm⟩, hd⟩ := ht
    obtain ⟨c', -, hm'⟩ := hm.step hstep.2
    exact ⟨⟨c', hm'⟩, hd.step hm hstep.1 hstep.2⟩
  obtain ⟨⟨c, hm⟩, hd'⟩ := hkeep
  exact hm.inv.read_dense hi (hd' i hi) (hm.small i hi) buf hlen hend

/-- Two files of ten bytes, in the zones 5 and 6; their inodes are the first two of block 2. -/
def twoFs : Fs :=
  let word (w : ℕ) : ℕ :=
    if w = 0 ∨ w = 16 then 0o100644 else if w = 2 ∨ w = 18 then 10 else if w = 7 then 5
    else if w = 23 then 6 else 0
  let data (b : ℕ) : Bytes := wordBytes fun w => if b = 2 then word w else 0
  { env :=
      { cache := ⟨data, data, fun _ => false, fun _ => 0⟩
        alloc := ⟨32, 10, 3, [], [⟨fun _ => 255#8, false⟩]⟩ }
    inode := fun i => if i < 2 then ⟨1, i + 1, 1, 2, i⟩ else ⟨EOF, 0, 0, 0, 0⟩
    imapsDisk := []
    zmapsDisk := [] }

theorem twoFs_used (p : ℕ) : mapBit twoFs.sb.zmaps p = true := by
  unfold mapBit
  have hzmaps : twoFs.sb.zmaps = [⟨fun _ => 255#8, false⟩] := rfl
  rw [hzmaps]
  rcases Nat.eq_zero_or_pos (p / blockBits) with h0 | hpos
  · have hbit : ∀ j < 8, (255#8).getLsbD j = true := by decide
    rw [h0]
    exact hbit _ (Nat.mod_lt _ (by decide))
  · rw [List.getElem?_eq_none (Nat.succ_le_of_lt hpos)]

/-- Two files with the inodes and the bitmap of `twoFs`, each with one block. -/
theorem filesInv_two (hinode : s.inode = twoFs.inode) (hsb : s.sb = twoFs.sb)
    (hzones : ∀ i < 2, ∀ n < 9, s.directZone i n = if n = 0 then 5 + i else 0)
    (hmode : ∀ i < 2, ISFILE (s.field i .mode) ∨ ISDIR (s.field i .mode)) : FilesInv {0, 1} s := by
  have hzmap : twoFs.sb.ZmapOk :=
    ⟨by decide, by decide, by decide, by decide, twoFs_used 0, fun p _ _ => twoFs_used p⟩
  have hlt : ∀ i ∈ ({0, 1} : Set ℕ), i < 2 := by
    rintro i (rfl | rfl) <;> decide
  have hzone : ∀ i ∈ ({0, 1} : Set ℕ), ∀ n < 7, s.directZone i n ≠ 0 →
      n = 0 ∧ s.directZone i n = 5 + i := by
    intro i hi n hn h0
    rw [hzones i (hlt i hi) n (by omega)] at h0 ⊢
    split_ifs at h0 ⊢ with hn0
    · exact ⟨hn0, rfl⟩
    · exact absurd rfl h0
  have hdesc : ∀ i < 2, (twoFs.inode i).slot = i ∧ (twoFs.inode i).buf = 2 ∧ (twoFs.inode i).dev = 1 := by
    decide
  have hused : ∀ p, mapBit s.sb.zmaps p = true := by
    rw [hsb]
    exact twoFs_used
  refine ⟨fun i hi => ⟨?_, hsb ▸ hzmap, ?_, ?_, fun n hn h0 => ⟨?_, hused _⟩, fun n hn m hm h0 he => ?_⟩,
    fun i hi n hn h0 => ?_, fun i hi j hj hne n hn m hm h0 he => ?_, fun i hi j hj hne _ => ?_,
    fun i hi => hmode i (hlt i hi), fun i hi => ?_, fun i hi => ?_⟩
  · rw [hinode, (hdesc i (hlt i hi)).1]
    exact (hlt i hi).trans (by decide)
  · rw [hsb]
    decide
  · rw [hinode, hsb, (hdesc i (hlt i hi)).2.1]
    decide
  · have hz := (hzone i hi n hn h0).2
    rw [hsb]
    show 3 ≤ s.directZone i n
    omega
  · exact (hzone i hi n hn h0).1.trans (hzone i hi m hm fun h1 => h0 (he.trans h1)).1.symm
  · have hi2 := hlt i hi
    rw [(hzone i hi n hn h0).2, hsb]
    constructor
    · show 5 + i < 10
      omega
    · show 5 + i - 2 < 8192 * 1
      omega
  · have hi' := (hzone i hi n hn h0).2
    have hj' := (hzone j hj m hm (he ▸ h0)).2
    omega
  · rwa [hinode, (hdesc i (hlt i hi)).1, (hdesc j (hlt j hj)).1]
  · rw [hzones i (hlt i hi) 7 (by omega), hzones i (hlt i hi) 8 (by omega)]
    exact ⟨rfl, rfl⟩
  · rw [hinode, (hdesc i (hlt i hi)).2.2]
    decide

theorem twoFs_inv : FilesInv {0, 1} twoFs := by
  have hmode : ∀ i < 2, ISFILE (twoFs.field i .mode) := by decide
  exact filesInv_two rfl rfl (by decide) fun i hi => Or.inl (hmode i hi)

theorem twoFs_init : (fileSys {0, 1}).init twoFs := by
  refine ⟨twoFs_inv, ?_⟩
  rintro i (rfl | rfl) <;> decide

/-- A read after both writes. -/
theorem written_read_back_two : ∃ (s₁ s₂ s₃ : Fs) (r₁ r₂ : ℕ) (out : ℕ → BitVec 8),
    twoFs.inodeWrite 0 (fun _ => 7#8) 4 2 = .ok (s₁, r₁) ∧
    s₁.inodeWrite 1 (fun _ => 8#8) 9 8 = .ok (s₂, r₂) ∧
    s₂.inodeRead 0 (fun _ => 0#8) 4 2 = .ok (s₃, out, 4) ∧ ∀ k < 4, out k = 7#8 := by
  obtain ⟨s₁, s₂, r₁, r₂, h₁, h₂⟩ : ∃ s₁ s₂ r₁ r₂, twoFs.inodeWrite 0 (fun _ => 7#8) 4 2 = .ok (s₁, r₁) ∧
      s₁.inodeWrite 1 (fun _ => 8#8) 9 8 = .ok (s₂, r₂) := ⟨_, _, _, _, rfl, rfl⟩
  have hrun : (fileSys {0, 1}).Run s₁ [.write 1 (fun _ => 8#8) 9 8] s₂ :=
    .single ⟨Or.inr rfl, by decide, r₂, h₂⟩
  obtain ⟨s₃, out, h₃, hout⟩ := written_read_back twoFs_init (i := 0) (by decide : 0 < 4)
    ⟨Or.inl rfl, by decide, r₁, h₁⟩ hrun (by simp [Event.Spares]) fun _ => 0#8
  exact ⟨s₁, s₂, s₃, r₁, r₂, out, h₁, h₂, h₃, hout⟩

/-- A read of the file that has been written at its end. -/
theorem reads_return_two : ∃ (s₁ t : Fs) (r : ℕ), twoFs.inodeWrite 1 (fun _ => 8#8) 9 8 = .ok (s₁, r) ∧
    s₁.inodeRead 1 (fun _ => 0#8) 16 1 = .ok (t, (s₁.contents 1).slice (fun _ => 0#8) 16 1, 16) := by
  obtain ⟨s₁, r, h₁, hsize⟩ : ∃ s₁ r, twoFs.inodeWrite 1 (fun _ => 8#8) 9 8 = .ok (s₁, r) ∧
      s₁.field 1 .size = 17 := ⟨_, _, rfl, rfl⟩
  have hdense : Dense {0, 1} twoFs := by
    have hsize : ∀ i < 2, twoFs.field i .size = 10 ∧ twoFs.directZone i 0 ≠ 0 := by decide
    have hzone : ∀ i ∈ ({0, 1} : Set ℕ), twoFs.field i .size = 10 ∧ twoFs.directZone i 0 ≠ 0 := by
      rintro i (rfl | rfl)
      · exact hsize 0 (by decide)
      · exact hsize 1 (by decide)
    intro i hi n hn
    rw [(hzone i hi).1] at hn
    obtain rfl : n = 0 := by
      have hn' : n * 1024 < 10 := hn
      omega
    exact (hzone i hi).2
  have hrun : ((fileSys {0, 1}).restrict Adjoins).Run twoFs [.write 1 (fun _ => 8#8) 9 8] s₁ :=
    .single ⟨(by decide : 8 ≤ twoFs.field 1 .size), Or.inr rfl, by decide, r, h₁⟩
  obtain ⟨t, ht⟩ := reads_return twoFs_init hdense hrun (i := 1) (Or.inr rfl) (fun _ => 0#8)
    (by decide : 0 < 16) (hsize.ge : 1 + 16 ≤ _)
  exact ⟨s₁, t, r, h₁, ht⟩

end Refine

end Rdix
