/-
  Directories as data (fs/minix1/namei.c: find_entry, _namei).

  * `scan`: `find_entry` compares the first 64 entries of the first block with a name, and
    `findEntry_eq_ok` says so;
  * `nodeField`: a field of an inode by its number; `Slots` says that the inode table agrees;
  * `Walk`: the path leads from one inode number to another;
  * `nameiLoop_walk`, `nameiLoop_of_walk`: `_namei` goes where `Walk` leads.
-/
import Rdix.Fs.Refs

namespace Rdix.Fs

open ByteMem Function

variable {s s' : Fs} {i dir : ℕ} {name : CStr}

/-! ## One directory -/

/-- The entries of block `b` from `i` on, compared with `name`; the first argument is the number of
    entries left. -/
def scan (s : Fs) (b : ℕ) (name : CStr) : ℕ → ℕ → C (Option ℕ)
  | 0, _ => return none
  | n + 1, i => do
    let found ← s.hit b i name
    if found then return some i else scan s b name n (i + 1)

theorem scan_congr (h : s'.cache.data = s.cache.data) (b : ℕ) (name : CStr) (n i : ℕ) :
    s'.scan b name n i = s.scan b name n i := by
  have hh : ∀ i, s'.hit b i name = s.hit b i name := by
    intro i
    unfold hit Fs.dentry Cache.get
    rw [h]
  induction n generalizing i with
  | zero => rfl
  | succ n ih =>
    unfold scan
    simp only [hh, ih]

@[simp] theorem scan_bread (s : Fs) (z b : ℕ) (name : CStr) (n i : ℕ) :
    (s.bread z).scan b name n i = s.scan b name n i := by
  have h : (s.bread z).cache.data = s.cache.data := rfl
  exact scan_congr h b name n i

/-- Nothing is found if no entry matches. -/
theorem scan_eq_none {z n : ℕ} : s.scan z name n i = .ok none ↔
    ∀ j, i ≤ j → j < i + n → s.hit z j name = .ok false := by
  induction n generalizing i with
  | zero =>
    constructor
    · intro _ j h1 h2
      omega
    · intro _
      rfl
  | succ n ih =>
    constructor
    · intro h
      obtain ⟨found, hf, h⟩ := bind_eq_ok.1 h
      cases found with
      | true => cases h
      | false =>
        intro j h1 h2
        rcases Nat.eq_or_lt_of_le h1 with rfl | h1
        · exact hf
        · exact ih.1 h j h1 (by omega)
    · intro h
      rw [scan, h i le_rfl (by omega), ok_bind, if_neg Bool.false_ne_true]
      exact ih.2 fun j h1 h2 => h j (by omega) (by omega)

/-- The first entry that matches is found. -/
theorem scan_eq_some {z n k : ℕ} : s.scan z name n i = .ok (some k) ↔
    i ≤ k ∧ k < i + n ∧ s.hit z k name = .ok true ∧ ∀ j, i ≤ j → j < k → s.hit z j name = .ok false := by
  induction n generalizing i with
  | zero =>
    constructor
    · intro h
      cases h
    · rintro ⟨h1, h2, -⟩
      omega
  | succ n ih =>
    constructor
    · intro h
      obtain ⟨found, hf, h⟩ := bind_eq_ok.1 h
      cases found with
      | true =>
        cases h
        exact ⟨le_rfl, by omega, hf, fun j h1 h2 => by omega⟩
      | false =>
        obtain ⟨h1, h2, h3, h4⟩ := ih.1 h
        refine ⟨by omega, by omega, h3, fun j hj hk => ?_⟩
        rcases Nat.eq_or_lt_of_le hj with rfl | hj
        · exact hf
        · exact h4 j hj hk
    · rintro ⟨h1, h2, h3, h4⟩
      rcases Nat.eq_or_lt_of_le h1 with rfl | h1
      · rw [scan, h3, ok_bind, if_pos rfl]
        rfl
      · rw [scan, h4 i le_rfl h1, ok_bind, if_neg Bool.false_ne_true]
        exact ih.2 ⟨h1, by omega, h3, fun j hj hk => h4 j (by omega) hk⟩

/-- Behind the first block `find_entry` reads outside its buffer. -/
theorem hit_behind {b i : ℕ} (h : blockDentrys ≤ i) : s.hit b i name = .error (.wild "dentry") := by
  unfold hit Fs.dentry
  rw [if_neg (by omega)]
  rfl

/-- In the first block nothing is read again. -/
theorem findLoop_eq_ok {n z : ℕ} {o : Option (ℕ × ℕ)} (hz : z ≠ 0) (hi : i ≤ blockDentrys) :
    findLoop dir name n i s ⟨0, z, some z⟩ = .ok (s', o) ↔
      ∃ r, s.scan z name n i = .ok r ∧ s' = s ∧ o = r.map (z, ·) := by
  induction n generalizing i with
  | zero =>
    constructor
    · intro h
      cases h
      exact ⟨none, rfl, rfl, rfl⟩
    · rintro ⟨r, hr, rfl, rfl⟩
      cases hr
      rfl
  | succ n ih =>
    unfold findLoop scan
    by_cases h64 : i = blockDentrys
    · -- the first entry of the second block
      rw [hit_behind h64.ge]
      constructor
      · intro h
        obtain ⟨⟨s₁, v₁⟩, -, h⟩ := bind_eq_ok.1 h
        obtain ⟨⟨s₂, block⟩, -, h⟩ := bind_eq_ok.1 h
        obtain ⟨-, h⟩ := cassert_bind_eq_ok.1 h
        obtain ⟨found, hf, -⟩ := bind_eq_ok.1 h
        rw [hit_behind h64.ge] at hf
        cases hf
      · rintro ⟨r, hr, -⟩
        cases hr
    · have hlt : i < blockDentrys := lt_of_le_of_ne hi h64
      have h₁ : s.nextZone i ⟨0, z, some z⟩ = .ok (s, ⟨0, z, some z⟩) := if_neg (by simpa using hlt)
      have h₂ : s.zoneBlock dir i z = .ok (s, z) := if_neg hz
      rw [h₁, ok_bind]
      dsimp only
      rw [h₂, ok_bind]
      dsimp only
      rw [cassert_pos hz, ok_bind]
      show (s.hit z i name >>= _) = _ ↔ _
      cases s.hit z i name with
      | error e =>
        constructor
        · intro h
          cases h
        · rintro ⟨r, hr, -⟩
          cases hr
      | ok found =>
        cases found with
        | true =>
          constructor
          · intro h
            cases h
            exact ⟨some i, rfl, rfl, rfl⟩
          · rintro ⟨r, hr, rfl, rfl⟩
            cases hr
            rfl
        | false => exact ih hlt

/-- Without `create` the first block of an inode is its first zone, and nothing happens. -/
theorem bmap_zero {z : ℕ} : s.bmap i ((0 : ℕ) : ℤ) false = .ok (s', z) ↔
    0 < s.sb.zones ∧ (s.inode i).slot * 16 + 7 < zonesIdxPerBlock ∧ s' = s ∧ z = s.field i (.zone 0) := by
  have hw : s.cache.word (s.inode i).buf ((s.inode i).slot * 16 + 7 + 0) = s.field i (.zone 0) := by
    unfold Cache.word getU16 Fs.field Cache.get DField.width DField.off
    congr 1
    simp only [Fin.val_zero]
    ring
  have hrun : s.bmap i ((0 : ℕ) : ℤ) false = do
      cassert (0 ≤ ((0 : ℕ) : ℤ) ∧ ((0 : ℕ) : ℤ) < s.sb.zones) "block >= 0 && block < sb->desc->zones"
      let v ← s.env.get (s.inode i).zone 0
      let v ← s.env.get (s.inode i).zone 0
      return (s, v) := by
    unfold Fs.bmap Rdix.bmap bmapReckon ensureZone
    simp [bind_assoc]
    rfl
  have hget : ∀ v, s.env.get (s.inode i).zone 0 = .ok v ↔
      (s.inode i).slot * 16 + 7 < zonesIdxPerBlock ∧ v = s.field i (.zone 0) := by
    intro v
    unfold Env.get MInode.zone
    dsimp only
    split_ifs with h
    · rw [show s.env.cache = s.cache from rfl, hw]
      constructor
      · intro hv
        exact ⟨h, (Except.ok.inj hv).symm⟩
      · rintro ⟨-, rfl⟩
        rfl
    · constructor
      · intro hv
        cases hv
      · rintro ⟨hv, -⟩
        exact absurd hv h
  rw [hrun, cassert_bind_eq_ok]
  constructor
  · rintro ⟨hz, h⟩
    obtain ⟨v₁, -, h⟩ := bind_eq_ok.1 h
    obtain ⟨v₂, hv, h⟩ := bind_eq_ok.1 h
    cases h
    exact ⟨by omega, ((hget _).1 hv).1, rfl, ((hget _).1 hv).2⟩
  · rintro ⟨hz, hs, rfl, rfl⟩
    refine ⟨by omega, ?_⟩
    rw [(hget _).2 ⟨hs, rfl⟩]
    rfl

/-- The first turn of `find_entry` reads the first block. -/
theorem findLoop_first {n z : ℕ} (hb : s.bmap dir ((0 : ℕ) : ℤ) false = .ok (s, z)) (hz : z ≠ 0) :
    findLoop dir name (n + 1) 0 s ⟨0, 0, none⟩ =
      findLoop dir name (n + 1) 0 (s.bread z) ⟨0, z, some z⟩ := by
  have h₁ : s.zoneBlock dir 0 0 = .ok (s, z) := hb
  have h₂ : (s.bread z).zoneBlock dir 0 z = .ok (s.bread z, z) := if_neg hz
  unfold findLoop
  rw [show s.nextZone 0 ⟨0, 0, none⟩ = .ok (s, ⟨0, 0, none⟩) from rfl,
    show (s.bread z).nextZone 0 ⟨0, z, some z⟩ = .ok (s.bread z, ⟨0, z, some z⟩) from rfl, ok_bind, ok_bind]
  dsimp only
  rw [h₁, h₂]
  rfl

/-- **`find_entry` as data**: an empty directory is not read; of another one the first block is
    held once more, and its first 64 entries are compared. -/
theorem findEntry_eq_ok {o : Option (ℕ × ℕ)} : s.findEntry dir (some name) = .ok (s', o) ↔
    ISDIR (s.field dir .mode) ∧
      (s.field dir .size / 16 = 0 ∧ s' = s ∧ o = none ∨
        0 < s.field dir .size / 16 ∧ 0 < s.sb.zones ∧ (s.inode dir).slot * 16 + 7 < zonesIdxPerBlock ∧
          s.field dir (.zone 0) ≠ 0 ∧ s' = s.bread (s.field dir (.zone 0)) ∧
          ∃ r, s.scan (s.field dir (.zone 0)) name (s.field dir .size / 16) 0 = .ok r ∧
            o = r.map (s.field dir (.zone 0), ·)) := by
  unfold findEntry
  rw [cassert_bind_eq_ok]
  refine and_congr_right fun _ => ?_
  dsimp only
  cases hn : s.field dir .size / 16 with
  | zero =>
    constructor
    · intro h
      cases h
      exact Or.inl ⟨rfl, rfl, rfl⟩
    · rintro (⟨-, rfl, rfl⟩ | ⟨h, -⟩)
      · rfl
      · exact absurd h (lt_irrefl 0)
  | succ n =>
    constructor
    · intro h
      have hf := h
      obtain ⟨⟨s₁, v₁⟩, h₁, h⟩ := bind_eq_ok.1 h
      cases h₁
      obtain ⟨⟨s₂, z⟩, hb, h⟩ := bind_eq_ok.1 h
      obtain ⟨hz, -⟩ := cassert_bind_eq_ok.1 h
      obtain ⟨hpos, hslot, rfl, rfl⟩ := bmap_zero.1 hb
      rw [findLoop_first hb hz] at hf
      obtain ⟨r, hr, hs, ho⟩ := (findLoop_eq_ok hz (Nat.zero_le _)).1 hf
      rw [scan_bread] at hr
      exact Or.inr ⟨n.succ_pos, hpos, hslot, hz, hs, r, hr, ho⟩
    · rintro (⟨h, -⟩ | ⟨-, hpos, hslot, hz, rfl, r, hr, rfl⟩)
      · exact absurd h n.succ_ne_zero
      · rw [findLoop_first (bmap_zero.2 ⟨hpos, hslot, rfl, rfl⟩) hz]
        refine (findLoop_eq_ok hz (Nat.zero_le _)).2 ⟨r, ?_, rfl, rfl⟩
        rw [scan_bread]
        exact hr

/-! ## Inodes by number -/

/-- A field of inode `n` on the device. -/
def nodeField (s : Fs) (n : ℕ) (f : DField) : ℕ :=
  s.cache.get (s.inodeBlock n) f.width ((n - 1) % blockInodes * 32 + f.off)

/-- The entries of the inode table in use are what `iget` makes of their numbers, and no two of them
    have the same. -/
structure Slots (s : Fs) (dev : ℤ) : Prop where
  lt : ∀ i, (s.inode i).dev ≠ EOF → i < inodeNr
  dev : ∀ i, (s.inode i).dev ≠ EOF → (s.inode i).dev = dev
  pos : ∀ i, (s.inode i).dev ≠ EOF → 0 < (s.inode i).nr
  le : ∀ i, (s.inode i).dev ≠ EOF → (s.inode i).nr ≤ s.sb.inodes
  buf : ∀ i, (s.inode i).dev ≠ EOF → (s.inode i).buf = s.inodeBlock (s.inode i).nr
  slot : ∀ i, (s.inode i).dev ≠ EOF → (s.inode i).slot = ((s.inode i).nr - 1) % blockInodes
  inj : ∀ i j, (s.inode i).dev ≠ EOF → (s.inode j).dev ≠ EOF → (s.inode i).nr = (s.inode j).nr → i = j

variable {dev : ℤ}

theorem Slots.field (h : s.Slots dev) (hi : (s.inode i).dev ≠ EOF) (f : DField) :
    s.field i f = s.nodeField (s.inode i).nr f := by
  unfold Fs.field nodeField
  rw [h.buf i hi, h.slot i hi]

/-- The same blocks and the same superblock. -/
structure SameData (s s' : Fs) : Prop where
  data : s'.cache.data = s.cache.data
  sb : s'.sb = s.sb

theorem SameData.refl (s : Fs) : s.SameData s := ⟨rfl, rfl⟩

theorem SameData.trans {s'' : Fs} (h : s.SameData s') (h' : s'.SameData s'') : s.SameData s'' :=
  ⟨h'.data.trans h.data, h'.sb.trans h.sb⟩

theorem SameData.symm (h : s.SameData s') : s'.SameData s := ⟨h.data.symm, h.sb.symm⟩

theorem Touched.same (h : s.Touched s') : s.SameData s' := ⟨h.data, h.sb⟩

theorem SameData.inodeBlock (h : s.SameData s') (n : ℕ) : s'.inodeBlock n = s.inodeBlock n := by
  unfold Fs.inodeBlock
  rw [h.sb]

theorem SameData.nodeField (h : s.SameData s') (n : ℕ) (f : DField) :
    s'.nodeField n f = s.nodeField n f := by
  unfold Fs.nodeField Cache.get
  rw [h.inodeBlock, h.data]

theorem iget_same {nr : ℕ} (h : s.iget dev nr = .ok (s', i)) : s.SameData s' := by
  obtain ⟨-, h⟩ := cassert_bind_eq_ok.1 h
  cases hf : s.findInode dev nr with
  | some k =>
    rw [hf] at h
    cases h
    exact ⟨rfl, rfl⟩
  | none =>
    rw [hf] at h
    obtain ⟨-, h⟩ := cassert_bind_eq_ok.1 h
    obtain ⟨k, hk, h⟩ := bind_eq_ok.1 h
    cases h
    exact ⟨rfl, rfl⟩

theorem iput_same (h : s.iput i = .ok s') : s.SameData s' := by
  obtain ⟨-, ⟨-, rfl⟩ | ⟨-, rfl⟩⟩ := iput_cases h
  · exact ⟨rfl, rfl⟩
  · exact ⟨brelse_data s (s.inode i).buf, brelse_sb s (s.inode i).buf⟩

/-- The inode table reads the place of the inodes only. -/
theorem Slots.congr (h : s.Slots dev) (hb : ∀ n, s'.inodeBlock n = s.inodeBlock n)
    (hn : s'.sb.inodes = s.sb.inodes) (hi : s'.inode = s.inode) : s'.Slots dev := by
  constructor
  · rw [hi]
    exact h.lt
  · rw [hi]
    exact h.dev
  · rw [hi]
    exact h.pos
  · rw [hi, hn]
    exact h.le
  · intro i hd
    rw [hi] at hd ⊢
    exact (h.buf i hd).trans (hb _).symm
  · rw [hi]
    exact h.slot
  · rw [hi]
    exact h.inj

theorem Slots.of_inode (h : s.Slots dev) (hsb : s'.sb = s.sb) (hi : s'.inode = s.inode) :
    s'.Slots dev :=
  h.congr (fun n => by rw [Fs.inodeBlock, hsb, Fs.inodeBlock]) (by rw [hsb]) hi

/-- An entry changes and keeps its inode, or is given up, or is filled with an inode that no other
    entry has. -/
theorem Slots.setInode (h : s.Slots dev) {e : MInode} (hlt : e.dev ≠ EOF → i < inodeNr)
    (hdev : e.dev ≠ EOF → e.dev = dev ∧ 0 < e.nr ∧ e.nr ≤ s.sb.inodes ∧ e.buf = s.inodeBlock e.nr ∧
      e.slot = (e.nr - 1) % blockInodes)
    (hnr : e.dev ≠ EOF → ∀ j ≠ i, (s.inode j).dev ≠ EOF → (s.inode j).nr ≠ e.nr) :
    (s.setInode i e).Slots dev := by
  have hcase : ∀ j, (s.setInode i e).inode j = if j = i then e else s.inode j := by
    intro j
    exact update_apply s.inode i e j
  constructor
  · intro j hj
    rw [hcase] at hj
    split_ifs at hj with hji
    · exact hji ▸ hlt hj
    · exact h.lt j hj
  · intro j hj
    rw [hcase] at hj ⊢
    split_ifs at hj ⊢
    · exact (hdev hj).1
    · exact h.dev j hj
  · intro j hj
    rw [hcase] at hj ⊢
    split_ifs at hj ⊢
    · exact (hdev hj).2.1
    · exact h.pos j hj
  · intro j hj
    rw [hcase] at hj ⊢
    split_ifs at hj ⊢
    · exact (hdev hj).2.2.1
    · exact h.le j hj
  · intro j hj
    rw [hcase] at hj ⊢
    split_ifs at hj ⊢
    · exact (hdev hj).2.2.2.1
    · exact h.buf j hj
  · intro j hj
    rw [hcase] at hj ⊢
    split_ifs at hj ⊢
    · exact (hdev hj).2.2.2.2
    · exact h.slot j hj
  · intro j k hj hk hn
    rw [hcase] at hj hk
    rw [hcase j, hcase k] at hn
    split_ifs at hj hk hn with h₁ h₂ h₂
    · rw [h₁, h₂]
    · exact absurd hn.symm (hnr hj k h₂ hk)
    · exact absurd hn (hnr hk j h₁ hj)
    · exact h.inj j k hj hk hn

theorem getFreeInode_lt (h : s.getFreeInode = .ok i) : i < inodeNr := by
  unfold getFreeInode at h
  split at h
  · rename_i k hk
    cases h
    exact List.mem_range.1 (List.mem_of_find?_eq_some hk)
  · cases h

/-- `iget` returns the entry of the inode. -/
theorem Slots.iget (h : s.Slots dev) (hdev : dev ≠ EOF) {nr : ℕ} (hs : s.iget dev nr = .ok (s', i)) :
    s'.Slots dev ∧ (s'.inode i).nr = nr ∧ (s'.inode i).dev = dev ∧ ∀ j ≠ i, s'.inode j = s.inode j := by
  obtain ⟨hpos, hs⟩ := cassert_bind_eq_ok.1 hs
  cases hf : s.findInode dev nr with
  | some k =>
    rw [hf] at hs
    cases hs
    obtain ⟨hd, hn⟩ := findInode_dev hf
    have hk : (s.inode i).dev ≠ EOF := hd ▸ hdev
    refine ⟨h.setInode (fun _ => h.lt i hk)
      (fun _ => ⟨h.dev i hk, h.pos i hk, h.le i hk, h.buf i hk, h.slot i hk⟩)
      (fun _ j hj hjd he => hj (h.inj j i hjd hk he)), ?_, ?_, fun j hj => update_of_ne hj _ _⟩
    · show (update s.inode i _ i).nr = nr
      rw [update_self]
      exact hn
    · show (update s.inode i _ i).dev = dev
      rw [update_self]
      exact hd
  | none =>
    rw [hf] at hs
    obtain ⟨hle, hs⟩ := cassert_bind_eq_ok.1 hs
    obtain ⟨k, hk, hs⟩ := bind_eq_ok.1 hs
    cases hs
    have hb : (s.bread (s.inodeBlock nr)).Slots dev := h.of_inode rfl rfl
    refine ⟨hb.setInode (fun _ => getFreeInode_lt hk) (fun _ => ⟨rfl, hpos, hle, rfl, rfl⟩) ?_, ?_, ?_,
      fun j hj => update_of_ne hj _ _⟩
    · intro _ j hj hjd he
      have hno := List.find?_eq_none.1 hf j (List.mem_range.2 (h.lt j hjd))
      exact hno (decide_eq_true ⟨h.dev j hjd, he⟩)
    · show (update s.inode i _ i).nr = nr
      rw [update_self]
    · show (update s.inode i _ i).dev = dev
      rw [update_self]

theorem Slots.iput (h : s.Slots dev) (hs : s.iput i = .ok s') :
    s'.Slots dev ∧ ∀ j ≠ i, s'.inode j = s.inode j := by
  obtain ⟨-, ⟨-, rfl⟩ | ⟨-, rfl⟩⟩ := iput_cases hs
  · exact ⟨h.setInode (h.lt i) (fun hd => ⟨h.dev i hd, h.pos i hd, h.le i hd, h.buf i hd, h.slot i hd⟩)
      (fun hd j hj hjd he => hj (h.inj j i hjd hd he)), fun j hj => update_of_ne hj _ _⟩
  · have hb : (s.brelse (s.inode i).buf).Slots dev := h.of_inode (brelse_sb ..) (brelse_inode ..)
    exact ⟨hb.setInode (fun hd => absurd rfl hd) (fun hd => absurd rfl hd) (fun hd => absurd rfl hd),
      fun j hj => update_of_ne hj _ _⟩

theorem Slots.incCount (h : s.Slots dev) (hi : (s.inode i).dev ≠ EOF) : (s.incCount i).Slots dev :=
  h.setInode (fun _ => h.lt i hi) (fun _ => ⟨h.dev i hi, h.pos i hi, h.le i hi, h.buf i hi, h.slot i hi⟩)
    (fun _ j hj hjd he => hj (h.inj j i hjd hi he))

/-! ## Paths -/

/-- What is found is an entry of the first block in use, whose name matches. -/
theorem scan_some {b n k : ℕ} (h : s.scan b name n i = .ok (some k)) :
    k < i + n ∧ k < blockDentrys ∧ s.cache.get b 2 (16 * k) ≠ 0 ∧
      entryMatch (s.cache.data b) name (16 * k + 2) = .ok true := by
  induction n generalizing i with
  | zero => cases h
  | succ n ih =>
    obtain ⟨found, hf, h⟩ := bind_eq_ok.1 h
    cases found with
    | false =>
      obtain ⟨hlt, hk⟩ := ih h
      exact ⟨by omega, hk⟩
    | true =>
      cases h
      obtain ⟨nr, hd, hm⟩ := bind_eq_ok.1 hf
      unfold Fs.dentry at hd
      split_ifs at hd with hlt
      cases hd
      split_ifs at hm with h0
      · cases hm
      · exact ⟨by omega, hlt, h0, hm⟩

/-- The entry that `name` finds in the directory with inode `n` is one of inode `m`. -/
structure Entry (s : Fs) (n : ℕ) (name : CStr) (m : ℕ) : Prop where
  dir : ISDIR (s.nodeField n .mode)
  zones : 0 < s.sb.zones
  zone : s.nodeField n (.zone 0) ≠ 0
  found : ∃ i, s.scan (s.nodeField n (.zone 0)) name (s.nodeField n .size / 16) 0 = .ok (some i) ∧
    s.cache.get (s.nodeField n (.zone 0)) 2 (16 * i) = m

/-- The path `ptr` leads from inode `n` to inode `m`. -/
inductive Walk (s : Fs) : ℕ → CStr → ℕ → Prop where
  | nil (n : ℕ) : Walk s n [] n
  | cons {n k m : ℕ} {c : Chr} {cs : CStr} : Entry s n (c :: cs) k → k ≤ s.sb.inodes →
      Walk s k ((nextName (c :: cs)).getD []) m → Walk s n (c :: cs) m

section Same
variable {n m k : ℕ} {ptr : CStr}

theorem Entry.of_same (h : s.SameData s') (he : s.Entry n name m) : s'.Entry n name m := by
  obtain ⟨i, hs, hm⟩ := he.found
  refine ⟨h.nodeField n _ ▸ he.dir, h.sb ▸ he.zones, h.nodeField n _ ▸ he.zone, i, ?_, ?_⟩
  · rw [h.nodeField, h.nodeField, scan_congr h.data]
    exact hs
  · rw [h.nodeField]
    unfold Cache.get at hm ⊢
    rw [h.data]
    exact hm

theorem Walk.of_same (h : s.SameData s') (hw : s.Walk n ptr m) : s'.Walk n ptr m := by
  induction hw with
  | nil n => exact .nil n
  | cons he hk _ ih => exact .cons (he.of_same h) (h.sb ▸ hk) ih

theorem Entry.unique (h : s.Entry n name m) (h' : s.Entry n name k) : m = k := by
  obtain ⟨i, hi, rfl⟩ := h.found
  obtain ⟨j, hj, rfl⟩ := h'.found
  rw [hi] at hj
  cases hj
  rfl

theorem Walk.unique (h : s.Walk n ptr m) (h' : s.Walk n ptr k) : m = k := by
  induction h with
  | nil n =>
    cases h'
    rfl
  | cons he _ _ ih =>
    cases h' with
    | cons he' _ hw' =>
      cases he.unique he'
      exact ih hw'

end Same

/-- `find_entry` in a directory that is in memory. -/
theorem Slots.findEntry (h : s.Slots dev) (hi : (s.inode dir).dev ≠ EOF) {b k : ℕ} :
    s.findEntry dir (some name) = .ok (s', some (b, k)) ↔
      b = s.field dir (.zone 0) ∧ s' = s.bread b ∧ ISDIR (s.field dir .mode) ∧ 0 < s.sb.zones ∧
        s.field dir (.zone 0) ≠ 0 ∧
        s.scan (s.field dir (.zone 0)) name (s.field dir .size / 16) 0 = .ok (some k) := by
  rw [findEntry_eq_ok]
  constructor
  · rintro ⟨hd, ⟨-, -, ho⟩ | ⟨-, hz, -, hz0, hs, r, hr, ho⟩⟩
    · cases ho
    · cases r with
      | none => cases ho
      | some r =>
        cases ho
        exact ⟨rfl, hs, hd, hz, hz0, hr⟩
  · rintro ⟨rfl, hs, hd, hz, hz0, hr⟩
    have hpos : 0 < s.field dir .size / 16 := by
      by_contra h0
      rw [Nat.eq_zero_of_not_pos h0] at hr
      cases hr
    have hslot : (s.inode dir).slot * 16 + 7 < zonesIdxPerBlock := by
      have h1 := h.slot dir hi
      have h2 : ((s.inode dir).nr - 1) % 32 < 32 := Nat.mod_lt _ (by omega)
      have h3 : zonesIdxPerBlock = 512 := rfl
      have h4 : blockInodes = 32 := rfl
      rw [h4] at h1
      omega
    exact ⟨hd, Or.inr ⟨hpos, hz, hslot, hz0, hs, some k, hr, rfl⟩⟩

/-- The entry that it finds. -/
theorem Slots.entry (h : s.Slots dev) (hi : (s.inode dir).dev ≠ EOF) {b k : ℕ}
    (hf : s.findEntry dir (some name) = .ok (s', some (b, k))) :
    s.Entry (s.inode dir).nr name (s.cache.get b 2 (16 * k)) := by
  obtain ⟨rfl, -, hd, hz, hz0, hr⟩ := (h.findEntry hi).1 hf
  rw [h.field hi] at hd hz0 hr ⊢
  rw [h.field hi] at hr
  exact ⟨hd, hz, hz0, k, hr, rfl⟩

/-- One turn of `_namei`: it stops at the last component, or nothing is found, or it goes on from the
    inode of the entry. -/
theorem Slots.nameiLoop_cons {dorc : Bool} {N node : ℕ} {c : Chr} {cs : CStr} {o : Option ℕ}
    (hdev : dev ≠ EOF) (h : s.Slots dev) (hn : (s.inode node).dev ≠ EOF)
    (hs : nameiLoop dorc (N + 1) s node (c :: cs) = .ok (s', o)) :
    ((nextName (c :: cs)).getD [] = [] ∧ dorc = false) ∧ o = some node ∧ s.Touched s' ∨
      o = none ∧ (∀ m, ¬ s.Entry (s.inode node).nr (c :: cs) m) ∧ s.SameData s' ∧ s'.Slots dev ∨
        ∃ t node', s.SameData t ∧ t.Slots dev ∧ (t.inode node').dev ≠ EOF ∧
          s.Entry (s.inode node).nr (c :: cs) (t.inode node').nr ∧
          nameiLoop dorc N t node' ((nextName (c :: cs)).getD []) = .ok (s', o) := by
  obtain ⟨-, hs⟩ := cassert_bind_eq_ok.1 hs
  obtain ⟨⟨s₁, bf⟩, h₁, hs⟩ := bind_eq_ok.1 hs
  have ht := findEntry_touched h₁
  have hS₁ : s₁.Slots dev := h.of_inode ht.sb ht.inode
  dsimp only at hs
  by_cases hlast : (nextName (c :: cs)).getD [] = [] ∧ dorc = false
  · rw [if_pos hlast] at hs
    cases hs
    exact Or.inl ⟨hlast, rfl, ht⟩
  rw [if_neg hlast] at hs
  cases bf with
  | none =>
    obtain ⟨s₂, h₂, hs⟩ := bind_eq_ok.1 hs
    cases hs
    refine Or.inr (Or.inl ⟨rfl, fun m he => ?_, ht.same.trans (iput_same h₂), (hS₁.iput h₂).1⟩)
    obtain ⟨j, hj, -⟩ := he.found
    have hf : s.findEntry node (some (c :: cs)) =
        .ok (s.bread (s.field node (.zone 0)), some (s.field node (.zone 0), j)) := by
      refine (h.findEntry hn).2 ⟨rfl, rfl, ?_⟩
      rw [h.field hn, h.field hn, h.field hn]
      exact ⟨he.dir, he.zones, he.zone, hj⟩
    rw [hf] at h₁
    cases h₁
  | some p =>
    obtain ⟨b, j⟩ := p
    obtain ⟨s₂, h₂, hs⟩ := bind_eq_ok.1 hs
    obtain ⟨nr, h₃, hs⟩ := bind_eq_ok.1 hs
    obtain ⟨⟨s₃, node'⟩, h₄, hs⟩ := bind_eq_ok.1 hs
    obtain ⟨hS₂, -⟩ := hS₁.iput h₂
    rw [hS₁.dev node (ht.inode ▸ hn)] at h₄
    obtain ⟨hS₃, hnr₃, hd₃, -⟩ := hS₂.iget hdev h₄
    have hsame₂ : s.SameData s₂ := ht.same.trans (iput_same h₂)
    have hsame : s.SameData (s₃.brelse b) :=
      (hsame₂.trans (iget_same h₄)).trans ((Touched.refl s₃).brelse b).same
    have hentry : nr = s.cache.get b 2 (16 * j) := by
      unfold Fs.dentry at h₃
      split_ifs at h₃
      cases h₃
      unfold Cache.get
      rw [hsame₂.data]
    have hS' : (s₃.brelse b).Slots dev := hS₃.of_inode (brelse_sb ..) (brelse_inode ..)
    refine Or.inr (Or.inr ⟨s₃.brelse b, node', hsame, hS', ?_, ?_, hs⟩)
    · rw [brelse_inode, hd₃]
      exact hdev
    · rw [brelse_inode, hnr₃, hentry]
      exact h.entry hn h₁

/-- `_namei` goes where the path leads, or nowhere, and it leaves the blocks alone. -/
theorem Slots.nameiLoop_walk {N node : ℕ} {ptr : CStr} {o : Option ℕ} (hdev : dev ≠ EOF) (h : s.Slots dev)
    (hn : (s.inode node).dev ≠ EOF) (hs : nameiLoop true N s node ptr = .ok (s', o)) :
    s.SameData s' ∧ s'.Slots dev ∧
      (∀ k, o = some k → s.Walk (s.inode node).nr ptr (s'.inode k).nr ∧ (s'.inode k).dev ≠ EOF) ∧
      (o = none → ∀ m, ¬ s.Walk (s.inode node).nr ptr m) := by
  induction N generalizing s node ptr with
  | zero =>
    cases ptr with
    | nil =>
      cases hs
      refine ⟨.refl _, h, fun k hk => ?_, fun ho => nomatch ho⟩
      cases hk
      exact ⟨.nil _, hn⟩
    | cons c cs => cases hs
  | succ N ih =>
    cases ptr with
    | nil =>
      cases hs
      refine ⟨.refl _, h, fun k hk => ?_, fun ho => nomatch ho⟩
      cases hk
      exact ⟨.nil _, hn⟩
    | cons c cs =>
      rcases h.nameiLoop_cons hdev hn hs with
        ⟨⟨-, hd⟩, -⟩ | ⟨rfl, hno, hsame, hS⟩ | ⟨t, node', hsame, hS, hd, he, ht⟩
      · cases hd
      · refine ⟨hsame, hS, fun k hk => (nomatch hk), fun _ m hw => ?_⟩
        cases hw with
        | cons he => exact hno _ he
      · obtain ⟨hsame', hS', hsome, hnone⟩ := ih hS hd ht
        have hle : (t.inode node').nr ≤ s.sb.inodes := hsame.sb ▸ hS.le node' hd
        refine ⟨hsame.trans hsame', hS', fun k hk => ?_, fun ho m hw => ?_⟩
        · obtain ⟨hw, hd'⟩ := hsome k hk
          exact ⟨.cons he hle (hw.of_same hsame.symm), hd'⟩
        · cases hw with
          | cons he' _ hw =>
            cases he.unique he'
            exact hnone ho m (hw.of_same hsame)

/-- The references that stay keep their inodes. -/
theorem Ledger.iget_nr {l : Multiset ℕ} (h : s.Ledger l) {nr j : ℕ}
    (hs : s.iget dev nr = .ok (s', i)) (hj : j ∈ l) : (s'.inode j).nr = (s.inode j).nr := by
  obtain ⟨-, hs⟩ := cassert_bind_eq_ok.1 hs
  cases hf : s.findInode dev nr with
  | some k =>
    rw [hf] at hs
    cases hs
    show (update s.inode i _ j).nr = _
    rw [update_apply]
    split_ifs with hji
    · rw [hji]
    · rfl
  | none =>
    rw [hf] at hs
    obtain ⟨-, hs⟩ := cassert_bind_eq_ok.1 hs
    obtain ⟨k, hk, hs⟩ := bind_eq_ok.1 hs
    cases hs
    have hji : j ≠ i := fun he => (h.free i).1 (getFreeInode_dev hk) (he ▸ hj)
    show (update s.inode i _ j).nr = _
    rw [update_of_ne hji]

theorem iput_nr (h : s.iput i = .ok s') (j : ℕ) : (s'.inode j).nr = (s.inode j).nr := by
  have hnr : ∀ (e : MInode), e.nr = (s.inode i).nr → (update s.inode i e j).nr = (s.inode j).nr := by
    intro e he
    rw [update_apply]
    split_ifs with hj
    · rw [he, hj]
    · rfl
  obtain ⟨-, ⟨-, rfl⟩ | ⟨-, rfl⟩⟩ := iput_cases h
  · exact hnr _ rfl
  · exact hnr _ rfl

theorem nameiLoop_nr {dorc : Bool} {N node : ℕ} {ptr : CStr} {o : Option ℕ} {l : Multiset ℕ} {j : ℕ}
    (h : s.Ledger (node ::ₘ l)) (hj : j ∈ l) (hs : nameiLoop dorc N s node ptr = .ok (s', o)) :
    (s'.inode j).nr = (s.inode j).nr := by
  induction N generalizing s node ptr with
  | zero =>
    cases ptr with
    | nil =>
      cases hs
      rfl
    | cons c cs => cases hs
  | succ N ih =>
    cases ptr with
    | nil =>
      cases hs
      rfl
    | cons c cs =>
      obtain ⟨-, hs⟩ := cassert_bind_eq_ok.1 hs
      obtain ⟨⟨s₁, bf⟩, h₁, hs⟩ := bind_eq_ok.1 hs
      have hi₁ := (findEntry_touched h₁).inode
      have hl₁ : s₁.Ledger (node ::ₘ l) := h.of_inode hi₁
      dsimp only at hs
      split_ifs at hs
      · cases hs
        rw [hi₁]
      cases bf with
      | none =>
        obtain ⟨s₂, h₂, hs⟩ := bind_eq_ok.1 hs
        cases hs
        rw [iput_nr h₂, hi₁]
      | some p =>
        obtain ⟨s₂, h₂, hs⟩ := bind_eq_ok.1 hs
        obtain ⟨nr, -, hs⟩ := bind_eq_ok.1 hs
        obtain ⟨⟨s₃, k⟩, h₃, hs⟩ := bind_eq_ok.1 hs
        have hd : (s₁.inode node).dev ≠ EOF := hl₁.dev (Multiset.mem_cons_self node l)
        have hl₂ : s₂.Ledger l := hl₁.iput h₂
        have hb : (s₃.brelse p.1).Ledger (k ::ₘ l) := (hl₂.iget hd h₃).of_inode (brelse_inode ..)
        rw [ih hb hs, brelse_inode, hl₂.iget_nr h₃ hj, iput_nr h₂, hi₁]

@[simp] theorem incCount_nr (s : Fs) (i j : ℕ) : ((s.incCount i).inode j).nr = (s.inode j).nr := by
  show (update s.inode i _ j).nr = _
  rw [update_apply]
  split_ifs with h
  · rw [h]
  · rfl

theorem nextName_length (c : Chr) (cs : CStr) : ((nextName (c :: cs)).getD []).length ≤ cs.length := by
  have hdrop : ((cs.dropWhile fun ch => !isSeparator ch).tail).length ≤ cs.length := by
    rw [List.length_tail]
    exact (Nat.sub_le _ _).trans (List.length_dropWhile_le _ _)
  unfold nextName
  by_cases hc : isSeparator c = true
  · simpa [hc] using hdrop
  · simpa [hc, List.dropWhile_cons] using hdrop

theorem iput_ok (h : 0 < (s.inode i).count) : ∃ s', s.iput i = .ok s' := by
  unfold Fs.iput
  dsimp only
  rw [cassert_pos h, ok_bind]
  split_ifs
  · exact ⟨_, rfl⟩
  · exact ⟨_, rfl⟩

/-- With a free entry left, `iget` returns. -/
theorem iget_ok {nr : ℕ} (hpos : 0 < nr) (hle : nr ≤ s.sb.inodes)
    (hfree : ∃ j < inodeNr, (s.inode j).dev = EOF) : ∃ s' i, s.iget dev nr = .ok (s', i) := by
  unfold Fs.iget
  rw [cassert_pos hpos, ok_bind]
  cases s.findInode dev nr with
  | some k => exact ⟨_, _, rfl⟩
  | none =>
    dsimp only
    obtain ⟨j, hj, hd⟩ := hfree
    have hget : ∃ k, s.getFreeInode = .ok k := by
      unfold getFreeInode
      cases hf : (List.range inodeNr).find? fun i => (s.inode i).dev = EOF with
      | some k => exact ⟨k, rfl⟩
      | none => exact absurd (decide_eq_true hd) (List.find?_eq_none.1 hf j (List.mem_range.2 hj))
    obtain ⟨k, hk⟩ := hget
    rw [cassert_pos hle, ok_bind, hk]
    exact ⟨_, _, rfl⟩

/-- **One turn of `_namei` goes on from the inode of the entry**, if the inode table has an entry left. -/
theorem nameiLoop_turn {dorc : Bool} {N node k : ℕ} {c : Chr} {cs : CStr} {l : Multiset ℕ} (hdev : dev ≠ EOF)
    (h : s.Slots dev) (hl : s.Ledger (node ::ₘ l)) (hfree : ∃ j < inodeNr, j ∉ l)
    (he : s.Entry (s.inode node).nr (c :: cs) k) (hk : k ≤ s.sb.inodes)
    (hgo : ¬ ((nextName (c :: cs)).getD [] = [] ∧ dorc = false)) :
    ∃ t node', s.SameData t ∧ t.Slots dev ∧ t.Ledger (node' ::ₘ l) ∧ (t.inode node').nr = k ∧
      nameiLoop dorc (N + 1) s node (c :: cs) = nameiLoop dorc N t node' ((nextName (c :: cs)).getD []) := by
  have hn : (s.inode node).dev ≠ EOF := hl.dev (Multiset.mem_cons_self node l)
  obtain ⟨j, hj, hkj⟩ := he.found
  set z := s.field node (.zone 0) with hz
  have hzn : z = s.nodeField (s.inode node).nr (.zone 0) := h.field hn _
  have h₁ : s.findEntry node (some (c :: cs)) = .ok (s.bread z, some (z, j)) := by
    refine (h.findEntry hn).2 ⟨rfl, rfl, ?_, he.zones, ?_, ?_⟩
    · rw [h.field hn]
      exact he.dir
    · rw [← hz, hzn]
      exact he.zone
    · rw [← hz, hzn, h.field hn]
      exact hj
  obtain ⟨-, hj64, hne, -⟩ := scan_some hj
  have hl₁ : (s.bread z).Ledger (node ::ₘ l) := hl.of_inode rfl
  have hS₁ : (s.bread z).Slots dev := h.of_inode rfl rfl
  have hc : 0 < ((s.bread z).inode node).count := by
    rw [hl₁.count, Multiset.count_cons_self]
    omega
  obtain ⟨s₂, h₂⟩ := iput_ok hc
  have hl₂ : s₂.Ledger l := hl₁.iput h₂
  obtain ⟨hS₂, -⟩ := hS₁.iput h₂
  have hsame₂ : s.SameData s₂ := ((Touched.refl s).bread z).same.trans (iput_same h₂)
  obtain ⟨f, hf, hfl⟩ := hfree
  obtain ⟨s₃, node', h₄⟩ : ∃ s₃ node', s₂.iget dev k = .ok (s₃, node') := by
    refine iget_ok (Nat.pos_of_ne_zero ?_) (hsame₂.sb ▸ hk) ⟨f, hf, (hl₂.free f).2 hfl⟩
    rw [← hkj]
    exact hne
  obtain ⟨hS₃, hnr₃, hd₃, -⟩ := hS₂.iget hdev h₄
  have hl₃ : s₃.Ledger (node' ::ₘ l) := hl₂.iget hdev h₄
  have hsame : s.SameData (s₃.brelse z) :=
    (hsame₂.trans (iget_same h₄)).trans ((Touched.refl s₃).brelse z).same
  refine ⟨s₃.brelse z, node', hsame, hS₃.of_inode (brelse_sb ..) (brelse_inode ..),
    hl₃.of_inode (brelse_inode ..), by rw [brelse_inode, hnr₃], ?_⟩
  have hdentry : s₂.dentry z j = .ok k := by
    unfold Fs.dentry
    rw [if_pos hj64, ← hkj, ← hzn]
    unfold Cache.get
    rw [hsame₂.data]
    rfl
  conv_lhs => unfold nameiLoop
  rw [cassert_pos ((h.field hn _).symm ▸ he.dir), ok_bind, h₁, ok_bind]
  dsimp only
  rw [if_neg hgo, h₂, ok_bind, hdentry, ok_bind,
    show ((s.bread z).inode node).dev = dev from h.dev node hn, h₄, ok_bind]

/-- **Where the path leads, `_namei` goes**, if the inode table has an entry left. -/
theorem nameiLoop_of_walk {N node m : ℕ} {ptr : CStr} {l : Multiset ℕ} (hdev : dev ≠ EOF)
    (h : s.Slots dev) (hl : s.Ledger (node ::ₘ l)) (hfree : ∃ j < inodeNr, j ∉ l)
    (hw : s.Walk (s.inode node).nr ptr m) (hN : ptr.length ≤ N) :
    ∃ s' k, nameiLoop true N s node ptr = .ok (s', some k) ∧ (s'.inode k).nr = m := by
  induction N generalizing s node ptr with
  | zero =>
    obtain rfl := List.length_eq_zero_iff.1 (Nat.le_zero.1 hN)
    cases hw
    exact ⟨s, node, rfl, rfl⟩
  | succ N ih =>
    cases hw with
    | nil => exact ⟨s, node, rfl, rfl⟩
    | @cons _ k _ c cs he hk hw =>
      obtain ⟨t, node', hsame, hS, hL, rfl, hturn⟩ :=
        nameiLoop_turn (N := N) hdev h hl hfree he hk fun hlast => Bool.false_ne_true hlast.2.symm
      have hlen : ((nextName (c :: cs)).getD []).length ≤ N :=
        (nextName_length c cs).trans (Nat.le_of_succ_le_succ hN)
      rw [hturn]
      exact ih hS hL (hw.of_same hsame) hlen

/-! ## A small device -/

/-- The bytes of a list, and then zeros. -/
def listBytes (l : List ℕ) : Bytes := fun i => BitVec.ofNat 8 (l.getD i 0)

/-- The block of a directory with these entries; inode numbers below 256. -/
def dirBytes (l : List (ℕ × List ℕ)) : Bytes :=
  listBytes (l.flatMap fun e => e.1 :: 0 :: e.2 ++ List.replicate (14 - e.2.length) 0)

/-- `/`, `/a` (a directory, inode 2) and `/f` (an empty file, inode 3); the root is held `count` times. -/
def smallFs (count : ℕ) : Fs :=
  let data (n : ℕ) : Bytes :=
    if n = 4 then
      listBytes ([0xed, 0x41, 0, 0, 64, 0, 0, 0, 0, 0, 0, 0, 0, 3, 5] ++ List.replicate 17 0 ++
        [0xed, 0x41, 0, 0, 32, 0, 0, 0, 0, 0, 0, 0, 0, 2, 6] ++ List.replicate 17 0 ++
        [0xa4, 0x81, 0, 0, 0, 0, 0, 0, 0, 0, 0, 0, 0, 1])
    else if n = 5 then dirBytes [(1, [0x2e]), (1, [0x2e, 0x2e]), (2, [0x61]), (3, [0x66])]
    else if n = 6 then dirBytes [(2, [0x2e]), (1, [0x2e, 0x2e])]
    else fun _ => 0#8
  { env :=
      { cache := ⟨data, data, fun _ => false, fun n => if n = 4 then 1 else 0⟩
        alloc := ⟨32, 64, 5, [⟨listBytes [15], false⟩], [⟨listBytes [7], false⟩]⟩ }
    inode := fun i => if i = 0 then ⟨1, 1, count, 4, 0⟩ else ⟨EOF, 0, 0, 0, 0⟩
    imapsDisk := [listBytes [15]]
    zmapsDisk := [listBytes [7]] }

end Rdix.Fs
