/-
  Adding an entry to a directory (fs/minix1/namei.c: add_entry; kernel/string.c: strncpy).

  * `newBlock`: the block with the new entry; `strncpy` keeps 13 characters of the name;
  * `FreeAt`: where the loop of `add_entry` stops with a free entry;
  * `addEntry_spec`: what is in the directory afterwards;
  * `addEntry_iff`: every other entry stays exactly if the free one lies behind all entries in use;
  * `addEntry_found_iff`: the entry is found again exactly if the name has at most 13 characters.
-/
import Rdix.Fs.FindEntry
import Rdix.Fs.InodeWrite

namespace Rdix.Fs

open ByteMem Function

/-! ## The entries of a directory -/

section Entries
variable (s : Fs) (dir : ℕ)

/-- Entry `j` of a directory, if it is in use: its name and its inode. -/
def entryAt (j : ℕ) : Option (List (BitVec 8) × ℕ) :=
  let b := s.cache.data (s.entryBlock dir j)
  if slotNr b (j % blockDentrys) = 0 then none
  else some (entryName b (16 * (j % blockDentrys) + 2), slotNr b (j % blockDentrys))

/-- The entries in use. -/
def liveList : List (List (BitVec 8) × ℕ) := (List.range (s.entryCnt dir)).filterMap (s.entryAt dir)

/-- The loop of `add_entry` stops at entry `i`, and the entry is free: the first one of the first
    block, which may be the one behind the last; the block may be new. -/
def FreeAt (i : ℕ) : Prop :=
  if s.zoneOf dir 0 = 0 then i = 0 ∧ ∃ z, s.sb.zoneUsed z = false
  else i < blockDentrys ∧ i ≤ s.entryCnt dir ∧ slotNr (s.cache.data (s.zoneOf dir 0)) i = 0 ∧
    ∀ j < i, slotNr (s.cache.data (s.zoneOf dir 0)) j ≠ 0

end Entries

/-! ## The bytes of a new entry -/

/-- Block `b` with `name` and `nr` in entry `i`. -/
def newBlock (b : Bytes) (i : ℕ) (name : CStr) (nr : ℕ) : Bytes :=
  store (strncpy b (16 * i + 2) name nameLen) 2 (16 * i) nr

/-- What `strncpy` keeps of a name. -/
def kept (name : CStr) : List (BitVec 8) := (name.take 13).map Subtype.val

section Bytes
variable {b b' : Bytes} {name : CStr} {off n k i j nr : ℕ}

theorem strncpy_outside (h : k < off ∨ off + (name.take n).length < k) :
    strncpy b off name (n + 1) k = b k := by
  induction name generalizing b off n with
  | nil =>
    rw [List.take_nil, List.length_nil] at h
    exact update_of_ne (by omega) ..
  | cons c cs ih =>
    cases n with
    | zero =>
      rw [List.take_zero, List.length_nil] at h
      exact update_of_ne (by omega) ..
    | succ n =>
      rw [List.take_succ_cons, List.length_cons] at h
      rw [strncpy, ih (by omega), update_of_ne (by omega)]

theorem strncpy_spells : Spells (strncpy b off name (n + 1)) off ((name.take n).map Subtype.val) := by
  induction name generalizing b off n with
  | nil =>
    rw [List.take_nil]
    trivial
  | cons c cs ih =>
    cases n with
    | zero => trivial
    | succ n =>
      refine ⟨?_, ih⟩
      rw [strncpy, strncpy_outside (Or.inl (Nat.lt_succ_self off)), update_self]

theorem strncpy_end : strncpy b off name (n + 1) (off + (name.take n).length) = 0#8 := by
  induction name generalizing b off n with
  | nil =>
    rw [List.take_nil]
    exact update_self ..
  | cons c cs ih =>
    cases n with
    | zero => exact update_self ..
    | succ n =>
      rw [strncpy, List.take_succ_cons, List.length_cons,
        show off + ((cs.take n).length + 1) = off + 1 + (cs.take n).length by omega]
      exact ih

theorem Spells.congr {w : List (BitVec 8)} (h : Spells b off w)
    (hb : ∀ k < w.length, b' (off + k) = b (off + k)) : Spells b' off w := by
  induction w generalizing off with
  | nil => trivial
  | cons x w ih =>
    obtain ⟨hx, h⟩ := h
    rw [List.length_cons] at hb
    refine ⟨(hb 0 (Nat.succ_pos _)).trans hx, ih h fun k hk => ?_⟩
    rw [show off + 1 + k = off + (k + 1) by omega]
    exact hb (k + 1) (Nat.succ_lt_succ hk)

theorem bytesFrom_congr (h : ∀ k < n, b' (off + k) = b (off + k)) :
    bytesFrom b' n off = bytesFrom b n off := by
  induction n generalizing off with
  | zero => rfl
  | succ n ih =>
    have h0 : b' off = b off := h 0 (Nat.succ_pos n)
    rw [bytesFrom, bytesFrom, h0, ih]
    intro k hk
    rw [show off + 1 + k = off + (k + 1) by omega]
    exact h (k + 1) (Nat.succ_lt_succ hk)

/-! ### `_match` and names of at most 13 characters -/

theorem component_of_valid (h : vaildFileName name = true) : component name = name.map Subtype.val := by
  unfold component
  rw [List.takeWhile_eq_self_iff.2 fun c hc => List.all_eq_true.1 h c hc]

/-- **`_match` is right about a name that is shorter than what is read**, whatever the entry is. -/
theorem entryMatch_short (h : vaildFileName name = true) (hn : name.length < n)
    (hin : off + name.length < blockSize) :
    entryMatch b name off = .ok (bytesFrom b n off = name.map Subtype.val) := by
  induction name generalizing off n with
  | nil =>
    cases n with
    | zero => cases hn
    | succ n =>
      rw [List.length_nil, Nat.add_zero] at hin
      rw [entryMatch, if_pos hin, bytesFrom]
      by_cases hb : b off = 0#8
      · simp [hb]
      · simp [hb]
  | cons c cs ih =>
    cases n with
    | zero => cases hn
    | succ n =>
      rw [List.length_cons] at hn hin
      have hvalid : isSeparator c = false ∧ vaildFileName cs = true := by
        simpa [vaildFileName] using h
      rw [entryMatch, if_pos (by omega), bytesFrom]
      by_cases hb : b off = 0#8
      · simp [hb, hvalid.1]
      · by_cases hc : c.val = b off
        · rw [if_pos ⟨hb, hc⟩, if_neg hb, ih hvalid.2 (Nat.lt_of_succ_lt_succ hn) (by omega)]
          simp [hc]
        · rw [if_neg fun hh => hc hh.2, if_neg hb]
          have hne : b off ≠ c.val := Ne.symm hc
          simp [hb, hne]

/-- `_match` of such a name reads no byte behind the entry. -/
theorem entryMatch_congr (h : vaildFileName name = true) (hn : name.length < nameLen) (hi : i < blockDentrys)
    (hb : ∀ k < nameLen, b' (16 * i + 2 + k) = b (16 * i + 2 + k)) :
    entryMatch b' name (16 * i + 2) = entryMatch b name (16 * i + 2) := by
  have hin : 16 * i + 2 + name.length < blockSize := by
    norm_num at hi hn ⊢
    omega
  rw [entryMatch_short h hn hin, entryMatch_short h hn hin, bytesFrom_congr hb]

/-! ### The new entry -/

theorem kept_length : (kept name).length = min 13 name.length := by
  rw [kept, List.length_map, List.length_take]

theorem kept_eq_iff : kept name = name.map Subtype.val ↔ name.length < nameLen := by
  have hlen : (kept name).length = min 13 name.length := kept_length
  constructor
  · intro h
    rw [h, List.length_map] at hlen
    norm_num
    omega
  · intro h
    rw [kept, List.take_of_length_le (Nat.le_of_lt_succ h)]

theorem kept_valid (h : vaildFileName name = true) :
    ∀ x ∈ kept name, x ≠ 0#8 ∧ x ≠ 0x2f#8 ∧ x ≠ 0x5c#8 := by
  intro x hx
  obtain ⟨c, hc, rfl⟩ := List.mem_map.1 hx
  have hsep : (!isSeparator c) = true := List.all_eq_true.1 h c (List.mem_of_mem_take hc)
  refine ⟨c.2, ?_⟩
  simpa [isSeparator] using hsep

/-- Only entry `i` changes. -/
theorem newBlock_outside (h : k < 16 * i ∨ 16 * i + 16 ≤ k) : newBlock b i name nr k = b k := by
  have hlen : (name.take 13).length ≤ 13 := List.length_take_le ..
  unfold newBlock
  rw [store_of_notMem (by omega), strncpy_outside (by omega)]

theorem newBlock_name (h : 16 * i + 2 ≤ k) :
    newBlock b i name nr k = strncpy b (16 * i + 2) name nameLen k := store_of_notMem (Or.inr h)

theorem newBlock_spells : Spells (newBlock b i name nr) (16 * i + 2) (kept name) :=
  strncpy_spells.congr fun k _ => newBlock_name (Nat.le_add_right _ k)

theorem newBlock_end : newBlock b i name nr (16 * i + 2 + (kept name).length) = 0#8 := by
  rw [newBlock_name (Nat.le_add_right _ _), kept, List.length_map]
  exact strncpy_end

theorem slotNr_newBlock : slotNr (newBlock b i name nr) j = if j = i then nr % 2 ^ 16 else slotNr b j := by
  by_cases h : j = i
  · rw [h, if_pos rfl]
    exact load_store
  · rw [if_neg h]
    exact load_congr fun k hk => newBlock_outside (by omega)

theorem entryName_newBlock (hvalid : vaildFileName name = true) :
    entryName (newBlock b i name nr) (16 * j + 2) =
      if j = i then kept name else entryName b (16 * j + 2) := by
  by_cases h : j = i
  · rw [h, if_pos rfl]
    refine bytesFrom_of_spells newBlock_spells (fun x hx => (kept_valid hvalid x hx).1) newBlock_end ?_
    rw [kept_length]
    exact (min_le_left ..).trans (Nat.le_succ 13)
  · rw [if_neg h]
    exact bytesFrom_congr fun k hk => newBlock_outside (by norm_num at hk; omega)

/-- The new entry matches its name if all of it has been kept. -/
theorem entryMatch_new (hvalid : vaildFileName name = true) (hi : i < blockDentrys) :
    entryMatch (newBlock b i name nr) name (16 * i + 2) = .ok (name.length < nameLen) := by
  have hlen : (kept name).length ≤ 13 := by
    rw [kept_length]
    exact min_le_left ..
  rw [entryMatch_name newBlock_spells (kept_valid hvalid) newBlock_end, component_of_valid hvalid]
  · simp only [kept_eq_iff]
  · norm_num at hi ⊢
    omega

end Bytes

/-! ## The first block of a directory -/

section Blocks
variable {s s₁ : Fs} {dir n : ℕ}

theorem zoneOf_direct (h : DirectInv dir s) (hn : n < 7) : s.zoneOf dir n = s.cache.top (s.inode dir) n := by
  have hassert : (0 : ℤ) ≤ n ∧ (n : ℤ) < s.sb.zones := by
    have := h.zones
    omega
  have hoff : (s.inode dir).zone.off + n < zonesIdxPerBlock := by
    have := h.slot
    norm_num [MInode.zone] at this ⊢
    omega
  have hvalue : (s.bmap dir n false).map Prod.snd =
      (Rdix.bmap balloc s.sb.zones s.env (s.inode dir) n false).map Prod.snd := by
    unfold Fs.bmap
    cases Rdix.bmap balloc s.sb.zones s.env (s.inode dir) n false <;> rfl
  have hget : s.env.get (s.inode dir).zone n = .ok (s.cache.top (s.inode dir) n) := if_pos hoff
  unfold zoneOf
  rw [hvalue, Rdix.bmap, cassert_pos hassert, ok_bind]
  dsimp only
  rw [Int.toNat_natCast, if_pos hn, bmapReckon_value, lookZone, hget]

/-- The first block is found, whether it may be created or not. -/
theorem bmap_first (h : DirectInv dir s) (h0 : s.zoneOf dir 0 ≠ 0) (create : Bool) :
    s.bmap dir ((0 : ℕ) : ℤ) create = .ok (s, s.zoneOf dir 0) := by
  have htop : s.zoneOf dir 0 = s.cache.top (s.inode dir) 0 := zoneOf_direct h (by decide)
  cases create with
  | true =>
    rw [htop] at h0 ⊢
    rcases bmap_direct h (by decide : 0 < 7) with ⟨-, hb⟩ | ⟨h', -⟩
    · exact hb
    · exact absurd h' h0
  | false =>
    refine bmap_zero.2 ⟨?_, ?_, rfl, ?_⟩
    · have := h.zones
      omega
    · have := h.slot
      norm_num at this ⊢
      omega
    · rw [htop]
      exact (Fs.field_zone s dir 0).symm

theorem entryBlock_first {j : ℕ} (hj : j < blockDentrys) : s.entryBlock dir j = s.zoneOf dir 0 := by
  rw [entryBlock, Nat.div_eq_of_lt hj]

theorem entryAt_first {j : ℕ} (hj : j < blockDentrys) : s.entryAt dir j =
    if slotNr (s.cache.data (s.zoneOf dir 0)) j = 0 then none
    else some (entryName (s.cache.data (s.zoneOf dir 0)) (16 * j + 2),
      slotNr (s.cache.data (s.zoneOf dir 0)) j) := by
  unfold entryAt
  rw [entryBlock_first hj, Nat.mod_eq_of_lt hj]

/-- **`find_entry` finds nothing** if the directory ends in its first block and no entry in use
    matches. -/
theorem findEntry_none {name : CStr} (h : DirectInv dir s) (hdir : ISDIR (s.field dir .mode))
    (h0 : 0 < s.entryCnt dir → s.zoneOf dir 0 ≠ 0) :
    (∃ t, s.findEntry dir (some name) = .ok (t, none)) ↔
      ∀ j < s.entryCnt dir, s.hit (s.zoneOf dir 0) j name = .ok false := by
  have hzone : s.zoneOf dir 0 = s.field dir (.zone 0) :=
    (zoneOf_direct h (by decide)).trans (Fs.field_zone s dir 0).symm
  constructor
  · rintro ⟨t, hf⟩ j hj
    obtain ⟨-, ⟨he, -⟩ | ⟨-, -, -, -, -, r, hr, ho⟩⟩ := findEntry_eq_ok.1 hf
    · exact absurd hj (by rw [entryCnt, he]; exact Nat.not_lt_zero j)
    · cases r with
      | some k => cases ho
      | none =>
        rw [hzone]
        exact scan_eq_none.1 hr j (Nat.zero_le j) (by rwa [Nat.zero_add])
  · intro hall
    rcases Nat.eq_zero_or_pos (s.entryCnt dir) with hc | hc
    · exact ⟨s, findEntry_eq_ok.2 ⟨hdir, Or.inl ⟨hc, rfl, rfl⟩⟩⟩
    · have hb := bmap_zero.1 (bmap_first h (h0 hc) false)
      refine ⟨_, findEntry_eq_ok.2 ⟨hdir, Or.inr ⟨hc, hb.1, hb.2.1, ?_, rfl, none, ?_, rfl⟩⟩⟩
      · rw [← hzone]
        exact h0 hc
      · rw [← hzone]
        exact scan_eq_none.2 fun j _ hj => hall j (by rwa [Nat.zero_add] at hj)

end Blocks

/-! ## The loop of `add_entry` -/

/-- The first of `n` entries from `i` on that is free. -/
def freeSlot (b : Bytes) : ℕ → ℕ → C (Option ℕ)
  | 0, _ => return none
  | n + 1, i =>
    if i < blockDentrys then if slotNr b i = 0 then return some i else freeSlot b n (i + 1)
    else throw (.wild "dentry")

section Loop
variable {s s₁ t : Fs} {dir cnt n i k z : ℕ} {b : Bytes} {name : CStr}

theorem freeSlot_some : freeSlot b n i = .ok (some k) ↔
    i ≤ k ∧ k < i + n ∧ k < blockDentrys ∧ slotNr b k = 0 ∧ ∀ j, i ≤ j → j < k → slotNr b j ≠ 0 := by
  induction n generalizing i with
  | zero =>
    constructor
    · intro h
      cases h
    · rintro ⟨h1, h2, -⟩
      omega
  | succ n ih =>
    unfold freeSlot
    split_ifs with hi h0
    · constructor
      · intro h
        cases h
        exact ⟨le_rfl, by omega, hi, h0, fun j h1 h2 => by omega⟩
      · rintro ⟨h1, -, -, -, h5⟩
        rcases Nat.eq_or_lt_of_le h1 with rfl | h1
        · rfl
        · exact absurd h0 (h5 i le_rfl h1)
    · rw [ih]
      constructor
      · rintro ⟨h1, h2, h3, h4, h5⟩
        refine ⟨by omega, by omega, h3, h4, fun j hj hk => ?_⟩
        rcases Nat.eq_or_lt_of_le hj with rfl | hj
        · exact h0
        · exact h5 j hj hk
      · rintro ⟨h1, h2, h3, h4, h5⟩
        have hne : i ≠ k := by
          rintro rfl
          exact h0 h4
        exact ⟨by omega, by omega, h3, h4, fun j hj hk => h5 j (by omega) hk⟩
    · constructor
      · intro h
        cases h
      · rintro ⟨h1, -, h3, -⟩
        omega

/-- The turns in a block that has been read look for a free entry; the block is released in each. -/
theorem addLoop_eq (hz : z ≠ 0) (hn : i + n ≤ zonesIdxPerBlock) : ∃ t, s.Touched t ∧
    addLoop dir cnt n i s ⟨some z, 1, z⟩ =
      (freeSlot (s.cache.data z) n i).map fun r => ⟨t, r.getD (i + n), some z, r.map (z, ·)⟩ := by
  induction n generalizing i s with
  | zero => exact ⟨s, .refl s, rfl⟩
  | succ n ih =>
    have hlt : i < zonesIdxPerBlock := by omega
    have hzone : (s.brelse? (some z)).addZone dir cnt i ⟨some z, 1, z⟩ = .ok (s.brelse z, ⟨some z, 1, z⟩) := by
      unfold addZone
      rw [Nat.div_eq_of_lt hlt, if_neg (Nat.not_succ_le_zero 0)]
      rfl
    have ht : s.Touched (s.brelse z) := (Touched.refl s).brelse z
    obtain ⟨u, hu, he⟩ := ih (i := i + 1) (s := s.brelse z) (by omega)
    rw [ht.data] at he
    unfold addLoop freeSlot
    rw [hzone, ok_bind]
    dsimp only
    rw [cassert_pos hz, ok_bind, deref, ok_bind, Nat.mod_eq_of_lt hlt, ht.dentry]
    unfold Fs.dentry
    by_cases hi : i < blockDentrys
    · rw [if_pos hi, if_pos hi, pure_eq_ok, ok_bind]
      by_cases h0 : slotNr (s.cache.data z) i = 0
      · rw [if_pos h0]
        exact ⟨s.brelse z, ht, if_pos h0⟩
      · rw [if_neg h0, show i + (n + 1) = i + 1 + n by omega]
        exact ⟨u, ht.trans hu, (if_neg h0).trans he⟩
    · rw [if_neg hi, if_neg hi]
      exact ⟨s, .refl s, rfl⟩

/-- The first turn reads the first block, which may be created. -/
theorem addLoop_first (hb : s.bmap dir ((0 : ℕ) : ℤ) (0 = cnt) = .ok (s₁, z)) (hz : z ≠ 0)
    (hn : n + 1 ≤ zonesIdxPerBlock) : ∃ t, s₁.Touched t ∧ addLoop dir cnt (n + 1) 0 s ⟨none, 0, 0⟩ =
      (freeSlot (s₁.cache.data z) (n + 1) 0).map fun r => ⟨t, r.getD (n + 1), some z, r.map (z, ·)⟩ := by
  have hzone : (s.brelse? none).addZone dir cnt 0 ⟨none, 0, 0⟩ =
      .ok (s₁.bread z, ⟨some z, 1, z⟩) := by
    have hb' : (s.brelse? none).bmap dir ((0 / zonesIdxPerBlock : ℕ) : ℤ) (0 = cnt) = .ok (s₁, z) := hb
    unfold addZone
    rw [if_pos (Nat.zero_le _), hb']
    rfl
  have ht : s₁.Touched (s₁.bread z) := (Touched.refl s₁).bread z
  obtain ⟨u, hu, he⟩ := @addLoop_eq (s₁.bread z) dir cnt n 1 z hz (by omega)
  rw [ht.data] at he
  unfold addLoop freeSlot
  rw [hzone, ok_bind]
  dsimp only
  rw [cassert_pos hz, ok_bind, deref, ok_bind, Nat.zero_mod, ht.dentry]
  unfold Fs.dentry
  rw [if_pos (by decide), if_pos (by decide), pure_eq_ok, ok_bind]
  by_cases h0 : slotNr (s₁.cache.data z) 0 = 0
  · rw [if_pos h0]
    exact ⟨s₁.bread z, ht, if_pos h0⟩
  · rw [if_neg h0, show n + 1 = 1 + n by omega]
    exact ⟨u, ht.trans hu, (if_neg h0).trans he⟩

end Loop

/-! ## What is added -/

/-- The state behind the loop of `add_entry`: entry `i` of block `z` has its name, and the directory
    ends behind it. -/
def named (s : Fs) (dir z i : ℕ) (name : CStr) : Fs :=
  (((s.mapCache fun c =>
    { c with data := update c.data z (strncpy (c.data z) (16 * i + 2) name nameLen) }).mark z).setField dir
      .size ((i + 1) * 16)).markInode dir

/-- Entry `i` of a directory, in its first block `z`, is the new one, and the last. -/
structure Added (s : Fs) (dir z i : ℕ) (name : CStr) (nr : ℕ) (t : Fs) : Prop where
  inv : DirectInv dir t
  mode : ISDIR (t.field dir .mode)
  zone : t.zoneOf dir 0 = z
  pos : z ≠ 0
  lt : i < blockDentrys
  cnt : t.entryCnt dir = i + 1
  block : ∃ b, t.cache.data z = newBlock b i name nr ∧ (i ≠ 0 → b = s.cache.data (s.zoneOf dir 0))

section Added
variable {s t u : Fs} {dir z i nr : ℕ} {name : CStr} {f : DField}

theorem field_of_data (hi : t.inode = s.inode)
    (hd : t.cache.data (s.inode i).buf = s.cache.data (s.inode i).buf) : t.field i f = s.field i f := by
  unfold Fs.field Cache.get
  rw [hi, hd]

/-- The name, the size and the inode are stored in a block and an inode block that differ. -/
theorem named_added (h : DirectInv dir t) (hdir : ISDIR (t.field dir .mode))
    (htop : t.cache.top (t.inode dir) 0 = z) (hz : z ≠ 0) (hi : i < blockDentrys)
    (hb : i ≠ 0 → t.cache.data z = s.cache.data (s.zoneOf dir 0)) :
    Added s dir z i name nr ((t.named dir z i name).setDentry (z, i) nr) := by
  have hne : z ≠ (t.inode dir).buf := by
    have h1 := (h.used 0 (by decide) (htop ▸ hz)).1
    have h2 := h.buf
    omega
  have hsize (v : ℕ) : (t.setField dir .size v).cache.data (t.inode dir).buf =
      store (t.cache.data (t.inode dir).buf) 4 ((t.inode dir).slot * 32 + 4) v := update_self ..
  have hnamed : (t.named dir z i name).cache.data (t.inode dir).buf =
      (t.setField dir .size ((i + 1) * 16)).cache.data (t.inode dir).buf := by
    rw [hsize]
    refine (update_self ..).trans ?_
    exact congrArg (fun b => store b 4 _ _) (update_of_ne hne.symm ..)
  have hbuf : ((t.named dir z i name).setDentry (z, i) nr).cache.data (t.inode dir).buf =
      (t.setField dir .size ((i + 1) * 16)).cache.data (t.inode dir).buf :=
    (update_of_ne hne.symm ..).trans hnamed
  have hdata : ((t.named dir z i name).setDentry (z, i) nr).cache.data z =
      newBlock (t.cache.data z) i name nr := by
    refine (update_self ..).trans ?_
    have hname : (t.named dir z i name).cache.data z = strncpy (t.cache.data z) (16 * i + 2) name nameLen :=
      (update_of_ne hne ..).trans (update_self ..)
    exact congrArg (fun b => store b 2 _ _) hname
  have htop' : ((t.named dir z i name).setDentry (z, i) nr).cache.top (t.inode dir) =
      t.cache.top (t.inode dir) := by
    ext m
    refine Eq.trans ?_ (Fs.top_setSize t m ((i + 1) * 16))
    unfold Cache.top Cache.word MInode.zone
    rw [hbuf]
  have hinv : DirectInv dir ((t.named dir z i name).setDentry (z, i) nr) := h.congr rfl rfl htop'
  have hfield (f : DField) : ((t.named dir z i name).setDentry (z, i) nr).field dir f =
      (t.setField dir .size ((i + 1) * 16)).field dir f := field_of_data (i := dir) rfl hbuf
  refine ⟨hinv, ?_, ?_, hz, hi, ?_, t.cache.data z, hdata, hb⟩
  · -- the mode stands before the size
    have hmode : ((t.named dir z i name).setDentry (z, i) nr).field dir .mode = t.field dir .mode := by
      rw [hfield]
      unfold Fs.field Cache.get
      have hinode : (t.setField dir .size ((i + 1) * 16)).inode = t.inode := rfl
      rw [hinode, hsize]
      exact load_store_of_disjoint (Or.inl (by simp only [DField.off, DField.width]; omega))
    rwa [hmode]
  · rw [zoneOf_direct hinv (by decide)]
    exact (congrFun htop' 0).trans htop
  · have hcnt : ((t.named dir z i name).setDentry (z, i) nr).field dir .size = (i + 1) * 16 := by
      rw [hfield, Fs.field_setField, DField.width]
      norm_num at hi
      omega
    rw [entryCnt, hcnt, Nat.mul_div_cancel _ (by decide)]

/-- The code behind the loop. -/
theorem addEntry_tail {b : Bytes} {n : ℕ} (hdir : ISDIR (s.field dir .mode))
    (hname : vaildFileName name = true) (hfind : s.findEntry dir (some name) = .ok (t, none))
    (hloop : addLoop dir (t.entryCnt dir) (t.entryCnt dir + 1) 0 t ⟨none, 0, 0⟩ =
      (freeSlot b n 0).map fun r => ⟨u, r.getD n, some z, r.map (z, ·)⟩) :
    (∀ i, freeSlot b n 0 = .ok (some i) → n ≤ zonesIdxPerBlock →
      s.addEntry dir (some name) = .ok (u.named dir z i name, z, some (z, i))) ∧
    ∀ v e k, s.addEntry dir (some name) = .ok (v, k, some e) → ∃ i, freeSlot b n 0 = .ok (some i) := by
  have hrun : s.addEntry dir (some name) = (do
      let r ← (freeSlot b n 0).map fun r => (⟨u, r.getD n, some z, r.map (z, ·)⟩ : AddRes)
      let k ← deref "bf" r.bf
      let v ← r.s.setName k (r.i % zonesIdxPerBlock) name
      return (((v.mark k).setField dir .size ((r.i + 1) * 16)).markInode dir, k, r.res)) := by
    unfold addEntry
    rw [cassert_pos hdir, ok_bind, deref, ok_bind, cassert_pos hname, ok_bind, hfind, ok_bind]
    dsimp only
    rw [← hloop]
    rfl
  rw [hrun]
  constructor
  · intro i hi hn
    obtain ⟨-, hlt, h64, -⟩ := freeSlot_some.1 hi
    rw [hi]
    dsimp only [Except.map, Option.getD, Option.map, deref]
    rw [ok_bind]
    dsimp only
    rw [ok_bind, Nat.mod_eq_of_lt (by omega), setName, if_pos h64]
    rfl
  · intro v e k h
    cases hf : freeSlot b n 0 with
    | error x =>
      rw [hf] at h
      cases h
    | ok r =>
      cases r with
      | some i => exact ⟨i, rfl⟩
      | none =>
        rw [hf] at h
        obtain ⟨r, hr, h⟩ := bind_eq_ok.1 h
        cases hr
        obtain ⟨k', -, h⟩ := bind_eq_ok.1 h
        obtain ⟨v', -, h⟩ := bind_eq_ok.1 h
        cases h

theorem Touched.inv (h : s.Touched t) (hI : DirectInv dir s) : DirectInv dir t := by
  refine hI.congr h.sb h.inode ?_
  unfold Cache.top Cache.word
  rw [h.data]

/-- A new zone leaves the mode alone. -/
theorem taken_mode {n : ℕ} (h : ZoneTaken s dir n z t) (hI : DirectInv dir s) :
    t.field dir .mode = s.field dir .mode := by
  have hne : (s.inode dir).buf ≠ z := by
    have := hI.buf
    have := h.first
    omega
  unfold Fs.field Cache.get
  rw [h.inode, h.data, update_of_ne hne, update_self]
  exact load_store_of_disjoint (Or.inl (by simp only [DField.off, DField.width]; omega))

/-- A directory in which `find_entry` finds nothing ends in its first block. -/
theorem cnt_le (hhit : ∀ j < s.entryCnt dir, s.hit z j name = .ok false) : s.entryCnt dir ≤ blockDentrys := by
  by_contra hlt
  have h64 := hhit blockDentrys (not_le.1 hlt)
  rw [hit_behind le_rfl] at h64
  cases h64

/-- A free entry behind which the directory may end, in a block that there is. -/
theorem freeAt_block {i : ℕ} (h0 : s.zoneOf dir 0 ≠ 0) : s.FreeAt dir i ↔
    freeSlot (s.cache.data (s.zoneOf dir 0)) (s.entryCnt dir + 1) 0 = .ok (some i) := by
  rw [freeSlot_some, FreeAt, if_neg h0]
  constructor
  · rintro ⟨h1, h2, h3, h4⟩
    exact ⟨Nat.zero_le i, by omega, h1, h3, fun j _ hj => h4 j hj⟩
  · rintro ⟨-, h2, h1, h3, h4⟩
    exact ⟨h1, by omega, h3, fun j hj => h4 j (Nat.zero_le j) hj⟩

/-- **`add_entry` for a name that is not found**: where it stops with a free entry, the entry is added
    and becomes the last; it returns an entry nowhere else. -/
theorem addEntry_spec (h : DirectInv dir s) (hdir : ISDIR (s.field dir .mode))
    (hname : vaildFileName name = true) (h0 : 0 < s.entryCnt dir → s.zoneOf dir 0 ≠ 0)
    (hfind : s.findEntry dir (some name) = .ok (t, none)) :
    (∀ i, s.FreeAt dir i → ∃ u z, s.addEntry dir (some name) = .ok (u, z, some (z, i)) ∧
      ∀ nr, Added s dir z i name nr (u.setDentry (z, i) nr)) ∧
    ∀ u b e, s.addEntry dir (some name) = .ok (u, b, some e) → ∃ i, s.FreeAt dir i := by
  have hcnt : s.entryCnt dir ≤ blockDentrys := cnt_le ((findEntry_none h hdir h0).1 ⟨t, hfind⟩)
  have ht : s.Touched t := findEntry_touched hfind
  have hI : DirectInv dir t := ht.inv h
  have hzone : t.zoneOf dir 0 = s.zoneOf dir 0 := ht.zoneOf 0
  have hcnt' : t.entryCnt dir = s.entryCnt dir := congrArg (· / 16) (ht.field dir .size)
  by_cases hz : s.zoneOf dir 0 = 0
  · -- there is no block, and no entry
    have hempty : t.entryCnt dir = 0 := by
      rw [hcnt']
      exact Nat.eq_zero_of_not_pos fun hpos => h0 hpos hz
    have htop : t.cache.top (t.inode dir) 0 = 0 := by
      rw [← zoneOf_direct hI (by decide), hzone, hz]
    rcases bmap_direct hI (by decide : 0 < 7) with ⟨htop', -⟩ | ⟨-, ⟨v, z, hb, hv⟩ | ⟨hall, hb⟩⟩
    · exact absurd htop htop'
    · have hb' : t.bmap dir ((0 : ℕ) : ℤ) (0 = t.entryCnt dir) = .ok (v, z) := by
        rw [decide_eq_true hempty.symm]
        exact hb
      have hzpos : z ≠ 0 := by
        have := hI.zmap.first_pos
        have := hv.first
        omega
      obtain ⟨u, hu, hloop⟩ := addLoop_first (n := t.entryCnt dir) hb' hzpos (by rw [hempty]; decide)
      obtain ⟨hadd, -⟩ := addEntry_tail hdir hname hfind hloop
      have hzero : v.cache.data z = fun _ => 0#8 := by
        rw [hv.data, update_self]
      have hfree : freeSlot (v.cache.data z) (t.entryCnt dir + 1) 0 = .ok (some 0) := by
        rw [hempty, hzero]
        rfl
      refine ⟨fun i hi => ?_, fun _ _ _ _ => ⟨0, ?_⟩⟩
      · rw [FreeAt, if_pos hz] at hi
        obtain ⟨rfl, -⟩ := hi
        refine ⟨_, z, hadd 0 hfree (by rw [hempty]; decide), fun nr => ?_⟩
        have hv0 : v.cache.top (v.inode dir) 0 = z := by
          rw [hv.inode, hv.top hI, if_pos rfl]
        refine named_added (hu.inv (hv.inv hI)) ?_ ?_ hzpos (by decide) fun h => absurd rfl h
        · rw [hu.field, taken_mode hv hI, ht.field]
          exact hdir
        · rw [hu.inode]
          unfold Cache.top Cache.word
          rw [hu.data]
          exact hv0
      · rw [FreeAt, if_pos hz]
        exact ⟨rfl, z, by rw [← ht.sb]; exact hv.free⟩
    · refine ⟨fun i hi => ?_, fun u b e he => ?_⟩
      · rw [FreeAt, if_pos hz] at hi
        obtain ⟨-, z, hfree⟩ := hi
        rw [← ht.sb, hall z] at hfree
        cases hfree
      · -- the block cannot be created
        have hfull : addLoop dir (t.entryCnt dir) (t.entryCnt dir + 1) 0 t ⟨none, 0, 0⟩ = .error diskFull := by
          have hb' : (t.brelse? none).bmap dir ((0 / zonesIdxPerBlock : ℕ) : ℤ) (0 = t.entryCnt dir) =
              .error diskFull := by
            rw [decide_eq_true hempty.symm]
            exact hb
          unfold addLoop addZone
          rw [if_pos (Nat.zero_le _), hb']
          rfl
        have hrun : s.addEntry dir (some name) = .error diskFull := by
          unfold addEntry
          rw [cassert_pos hdir, ok_bind, deref, ok_bind, cassert_pos hname, ok_bind, hfind, ok_bind]
          dsimp only
          rw [show t.field dir .size / 16 = t.entryCnt dir from rfl, hfull]
          rfl
        rw [hrun] at he
        cases he
  · have hz' : t.zoneOf dir 0 ≠ 0 := by rwa [hzone]
    obtain ⟨u, hu, hloop⟩ := addLoop_first (n := t.entryCnt dir) (bmap_first hI hz' (0 = t.entryCnt dir)) hz'
      (by rw [hcnt']; norm_num at hcnt ⊢; omega)
    obtain ⟨hadd, hinv⟩ := addEntry_tail hdir hname hfind hloop
    rw [ht.data, hzone, hcnt'] at hadd hinv
    refine ⟨fun i hi => ?_, fun v b e he => ?_⟩
    · have hlt : i < blockDentrys := by
        rw [FreeAt, if_neg hz] at hi
        exact hi.1
      refine ⟨_, _, hadd i ((freeAt_block hz).1 hi) (by norm_num at hcnt ⊢; omega), fun nr => ?_⟩
      have hus : s.Touched u := ht.trans hu
      refine named_added (hus.inv h) (by rwa [hus.field]) ?_ hz hlt fun _ => by rw [hus.data]
      rw [← zoneOf_direct (hus.inv h) (by decide), hus.zoneOf]
    · obtain ⟨i, hi⟩ := hinv v e b he
      exact ⟨i, (freeAt_block hz).2 hi⟩

end Added

/-! ## Finding it again -/

section Again
variable {s t : Fs} {dir z i k n nr : ℕ} {name : CStr}

/-- `find_entry` finds the first entry that matches. -/
theorem findEntry_some (h : DirectInv dir s) (hdir : ISDIR (s.field dir .mode)) (h0 : s.zoneOf dir 0 ≠ 0) :
    (∃ t, s.findEntry dir (some name) = .ok (t, some (s.zoneOf dir 0, k))) ↔
      k < s.entryCnt dir ∧ s.hit (s.zoneOf dir 0) k name = .ok true ∧
        ∀ j < k, s.hit (s.zoneOf dir 0) j name = .ok false := by
  have hzone : s.zoneOf dir 0 = s.field dir (.zone 0) :=
    (zoneOf_direct h (by decide)).trans (Fs.field_zone s dir 0).symm
  constructor
  · rintro ⟨t, hf⟩
    obtain ⟨-, ⟨-, -, ho⟩ | ⟨-, -, -, -, -, r, hr, ho⟩⟩ := findEntry_eq_ok.1 hf
    · cases ho
    · cases r with
      | none => cases ho
      | some k' =>
        obtain rfl : k = k' := congrArg Prod.snd (Option.some.inj ho)
        rw [hzone]
        obtain ⟨-, h2, h3, h4⟩ := scan_eq_some.1 hr
        exact ⟨by rwa [Nat.zero_add] at h2, h3, fun j hj => h4 j (Nat.zero_le j) hj⟩
  · rintro ⟨hk, hhit, hbefore⟩
    have hb := bmap_zero.1 (bmap_first h h0 false)
    refine ⟨_, findEntry_eq_ok.2 ⟨hdir, Or.inr ⟨Nat.zero_lt_of_lt hk, hb.1, hb.2.1, ?_, rfl, some k, ?_, ?_⟩⟩⟩
    · rwa [← hzone]
    · rw [← hzone]
      exact scan_eq_some.2 ⟨Nat.zero_le k, by rwa [Nat.zero_add], hhit, fun j _ hj => hbefore j hj⟩
    · rw [← hzone]
      rfl

/-- A name that is found is not added. -/
theorem addEntry_of_found {e : ℕ × ℕ} (hdir : ISDIR (s.field dir .mode)) (hname : vaildFileName name = true)
    (hfind : s.findEntry dir (some name) = .ok (t, some e)) :
    s.addEntry dir (some name) = .ok (t, e.1, some e) := by
  unfold addEntry
  rw [cassert_pos hdir, ok_bind, deref, ok_bind, cassert_pos hname, ok_bind, hfind, ok_bind]
  rfl

/-- The new entry is found if its name has been kept. -/
theorem Added.find_iff (h : Added s dir z i name nr t) (hname : vaildFileName name = true) (hnr : 0 < nr)
    (hnr' : nr < 2 ^ 16) (hhit : ∀ j < s.entryCnt dir, s.hit (s.zoneOf dir 0) j name = .ok false)
    (hi : i ≤ s.entryCnt dir) :
    (∃ u, t.findEntry dir (some name) = .ok (u, some (z, i))) ↔ name.length < nameLen := by
  obtain ⟨hinv, hdir, rfl, hpos, hlt, hcnt, b, hb, hold⟩ := h
  have hslot : slotNr (t.cache.data (t.zoneOf dir 0)) i ≠ 0 := by
    rw [hb, slotNr_newBlock, if_pos rfl, Nat.mod_eq_of_lt hnr']
    exact hnr.ne'
  have hnew : t.hit (t.zoneOf dir 0) i name = .ok (name.length < nameLen) := by
    rw [hit_eq hlt, if_neg hslot, hb, entryMatch_new hname hlt]
  rw [findEntry_some hinv hdir hpos, hnew]
  constructor
  · rintro ⟨-, h, -⟩
    exact of_decide_eq_true (Except.ok.inj h)
  · intro hlen
    refine ⟨by omega, congrArg _ (decide_eq_true hlen), fun j hj => ?_⟩
    have hj64 : j < blockDentrys := hj.trans hlt
    rw [← hhit j (hj.trans_le hi), hit_eq hj64, hit_eq hj64, hb, slotNr_newBlock, if_neg hj.ne,
      hold (Nat.ne_zero_of_lt hj), entryMatch_congr hname hlen hj64]
    intro k hk
    refine newBlock_outside (Or.inl ?_)
    norm_num at hk
    omega

/-- After `add_entry` and the caller's `res->inode = nr`, `find_entry` and `add_entry` find the entry. -/
def FoundAgain (s : Fs) (dir : ℕ) (name : CStr) (nr : ℕ) : Prop :=
  ∃ t b e, s.addEntry dir (some name) = .ok (t, b, some e) ∧
    (∃ u, (t.setDentry e nr).findEntry dir (some name) = .ok (u, some e)) ∧
    ∃ u, (t.setDentry e nr).addEntry dir (some name) = .ok (u, e.1, some e)

theorem FreeAt.le (hi : s.FreeAt dir i) : i ≤ s.entryCnt dir := by
  unfold FreeAt at hi
  split_ifs at hi
  · exact hi.1.le.trans (Nat.zero_le _)
  · exact hi.2.1

/-- **What is added is found again, and not added twice**, exactly if the name has at most 13
    characters. -/
theorem addEntry_found_iff (h : DirectInv dir s) (hdir : ISDIR (s.field dir .mode))
    (h0 : 0 < s.entryCnt dir → s.zoneOf dir 0 ≠ 0) (hroom : ∃ i, s.FreeAt dir i)
    (hname : vaildFileName name = true) (hfind : ∃ t, s.findEntry dir (some name) = .ok (t, none))
    (hnr : 0 < nr) (hnr' : nr < 2 ^ 16) : s.FoundAgain dir name nr ↔ name.length < nameLen := by
  have hhit := (findEntry_none h hdir h0).1 hfind
  obtain ⟨t, hfind⟩ := hfind
  obtain ⟨i, hi⟩ := hroom
  obtain ⟨u, z, hadd, hadded⟩ := (addEntry_spec h hdir hname h0 hfind).1 i hi
  have hiff := (hadded nr).find_iff hname hnr hnr' hhit hi.le
  constructor
  · rintro ⟨u', b, e, hadd', hfound, -⟩
    rw [hadd] at hadd'
    cases hadd'
    exact hiff.1 hfound
  · intro hlen
    obtain ⟨v, hv⟩ := hiff.2 hlen
    exact ⟨u, z, (z, i), hadd, ⟨v, hv⟩, v, addEntry_of_found (hadded nr).mode hname hv⟩

end Again

/-! ## The other entries -/

section Others
variable {s t : Fs} {dir z i j k nr : ℕ} {name : CStr}

/-- After `add_entry` and the caller's `res->inode = nr`, the entries in use are those before and the
    new one. -/
def AddsExactly (s : Fs) (dir : ℕ) (name : CStr) (nr : ℕ) : Prop :=
  ∃ t b e, s.addEntry dir (some name) = .ok (t, b, some e) ∧
    ((t.setDentry e nr).liveList dir).Perm ((name.map Subtype.val, nr) :: s.liveList dir)

/-- The name is kept, all entries are in the first block, and the first free one lies behind all that
    are in use. -/
structure Fits (s : Fs) (dir : ℕ) (name : CStr) : Prop where
  short : name.length < nameLen
  cnt : s.entryCnt dir ≤ blockDentrys
  room : ∃ i, s.FreeAt dir i ∧ ∀ j, i ≤ j → j < s.entryCnt dir → s.entryAt dir j = none

/-- The entries afterwards: those before the new one, and the new one. -/
theorem Added.liveList (h : Added s dir z i name nr t) (hname : vaildFileName name = true) (hnr : 0 < nr)
    (hnr' : nr < 2 ^ 16) :
    t.liveList dir = (List.range i).filterMap (s.entryAt dir) ++ [(kept name, nr)] := by
  obtain ⟨-, -, rfl, -, hlt, hcnt, b, hb, hold⟩ := h
  have hnew : t.entryAt dir i = some (kept name, nr) := by
    rw [entryAt_first hlt, hb, slotNr_newBlock, if_pos rfl, Nat.mod_eq_of_lt hnr', if_neg hnr.ne',
      entryName_newBlock hname, if_pos rfl]
  have hothers : ∀ j ∈ List.range i, t.entryAt dir j = s.entryAt dir j := by
    intro j hj
    have hji : j < i := List.mem_range.1 hj
    have hj64 : j < blockDentrys := hji.trans hlt
    rw [entryAt_first hj64, entryAt_first hj64, hb, slotNr_newBlock, if_neg hji.ne,
      entryName_newBlock hname, if_neg hji.ne, hold (Nat.ne_zero_of_lt hji)]
  rw [Fs.liveList, hcnt, List.range_succ, List.filterMap_append, List.filterMap_congr hothers]
  simp [hnew]

/-- The entries before are those up to the new one and those behind. -/
theorem liveList_split (hi : i ≤ s.entryCnt dir) : s.liveList dir =
    (List.range i).filterMap (s.entryAt dir) ++
      ((List.range (s.entryCnt dir - i)).map (i + ·)).filterMap (s.entryAt dir) := by
  obtain ⟨n, hn⟩ := Nat.exists_eq_add_of_le hi
  rw [liveList, hn, Nat.add_sub_cancel_left, List.range_add, List.filterMap_append]

theorem behind_nil_iff : ((List.range (s.entryCnt dir - i)).map (i + ·)).filterMap (s.entryAt dir) = [] ↔
    ∀ j, i ≤ j → j < s.entryCnt dir → s.entryAt dir j = none := by
  rw [List.filterMap_eq_nil_iff]
  constructor
  · intro h j hi hj
    refine h j (List.mem_map.2 ⟨j - i, List.mem_range.2 (by omega), by omega⟩)
  · intro h a ha
    obtain ⟨m, hm, rfl⟩ := List.mem_map.1 ha
    have := List.mem_range.1 hm
    exact h _ (Nat.le_add_right i m) (by omega)

/-- The number of entries in use grows by one only where a free one is taken. -/
theorem perm_iff {A R : List (List (BitVec 8) × ℕ)} {x y : List (BitVec 8) × ℕ} :
    (A ++ [x]).Perm (y :: (A ++ R)) ↔ x = y ∧ R = [] := by
  constructor
  · intro h
    have hlen := h.length_eq
    simp only [List.length_append, List.length_cons, List.length_nil] at hlen
    obtain rfl : R = [] := List.length_eq_zero_iff.1 (by omega)
    rw [List.append_nil] at h
    have h' : (A ++ [x]).Perm (A ++ [y]) := h.trans (List.perm_append_singleton y A).symm
    have hxy : [x].Perm [y] := (List.perm_append_left_iff A).1 h'
    exact ⟨List.singleton_perm_singleton.1 hxy, rfl⟩
  · rintro ⟨rfl, rfl⟩
    rw [List.append_nil]
    exact List.perm_append_singleton x A

theorem slotNr_setDentry (c j : ℕ) : slotNr ((t.setDentry (z, k) nr).cache.data c) j =
    if c = z ∧ j = k then nr % 2 ^ 16 else slotNr (t.cache.data c) j := by
  by_cases hc : c = z
  · subst hc
    have hd : (t.setDentry (c, k) nr).cache.data c = store (t.cache.data c) 2 (16 * k) nr := update_self ..
    rw [hd]
    by_cases hj : j = k
    · rw [if_pos ⟨rfl, hj⟩, hj]
      exact load_store
    · rw [if_neg fun h => hj h.2]
      exact load_store_of_disjoint (by omega)
  · rw [if_neg fun h => hc h.1]
    have hd : (t.setDentry (z, k) nr).cache.data c = t.cache.data c := update_of_ne hc ..
    rw [hd]

/-- Storing an inode in an entry in use adds none. -/
theorem liveList_length (h : DirectInv dir s) (hcnt : s.entryCnt dir ≤ 7 * blockDentrys)
    (hz : s.zoneOf dir 0 ≠ 0) (hused : slotNr (s.cache.data (s.zoneOf dir 0)) k ≠ 0) (hnr : 0 < nr)
    (hnr' : nr < 2 ^ 16) :
    ((s.setDentry (s.zoneOf dir 0, k) nr).liveList dir).length = (s.liveList dir).length := by
  have hne : (s.inode dir).buf ≠ s.zoneOf dir 0 := by
    rw [zoneOf_direct h (by decide)] at hz ⊢
    have h1 := (h.used 0 (by decide) hz).1
    have h2 := h.buf
    omega
  have hbuf : (s.setDentry (s.zoneOf dir 0, k) nr).cache.data (s.inode dir).buf =
      s.cache.data (s.inode dir).buf := update_of_ne hne ..
  have hinode : (s.setDentry (s.zoneOf dir 0, k) nr).inode = s.inode := rfl
  have htop : (s.setDentry (s.zoneOf dir 0, k) nr).cache.top (s.inode dir) = s.cache.top (s.inode dir) := by
    ext m
    unfold Cache.top Cache.word MInode.zone
    rw [hbuf]
  have hinv : DirectInv dir (s.setDentry (s.zoneOf dir 0, k) nr) := h.congr rfl hinode htop
  have hsame : (s.setDentry (s.zoneOf dir 0, k) nr).entryCnt dir = s.entryCnt dir :=
    congrArg (· / 16) (field_of_data hinode hbuf)
  have hzone (n : ℕ) (hn : n < 7) : (s.setDentry (s.zoneOf dir 0, k) nr).zoneOf dir n = s.zoneOf dir n := by
    rw [zoneOf_direct hinv hn, zoneOf_direct h hn, hinode, htop]
  rw [liveList, liveList, List.length_filterMap_eq_countP, List.length_filterMap_eq_countP, hsame]
  refine List.countP_congr fun j hj => ?_
  have hj7 : j / blockDentrys < 7 :=
    Nat.div_lt_of_lt_mul (by have := List.mem_range.1 hj; rw [Nat.mul_comm]; omega)
  have hblock : (s.setDentry (s.zoneOf dir 0, k) nr).entryBlock dir j = s.entryBlock dir j := hzone _ hj7
  have hfree : slotNr ((s.setDentry (s.zoneOf dir 0, k) nr).cache.data (s.entryBlock dir j))
      (j % blockDentrys) = 0 ↔ slotNr (s.cache.data (s.entryBlock dir j)) (j % blockDentrys) = 0 := by
    rw [slotNr_setDentry]
    split_ifs with he
    · rw [Nat.mod_eq_of_lt hnr', he.1, he.2]
      exact iff_of_false hnr.ne' hused
    · exact Iff.rfl
  unfold entryAt
  dsimp only
  rw [hblock]
  by_cases hnow : slotNr (s.cache.data (s.entryBlock dir j)) (j % blockDentrys) = 0
  · rw [if_pos hnow, if_pos (hfree.2 hnow)]
  · rw [if_neg hnow, if_neg fun h => hnow (hfree.1 h)]
    exact Iff.rfl

theorem Touched.liveList (h : s.Touched t) : t.liveList dir = s.liveList dir := by
  have hat : t.entryAt dir = s.entryAt dir := by
    ext1 j
    unfold entryAt entryBlock
    rw [h.zoneOf, h.data]
  rw [Fs.liveList, Fs.liveList, entryCnt, entryCnt, h.field, hat]

/-- **`add_entry` keeps every other entry**, and adds the new one, exactly if the name has at most 13
    characters, all entries are in the first block, and the first free one lies behind all in use. -/
theorem addEntry_iff (h : DirectInv dir s) (hdir : ISDIR (s.field dir .mode))
    (hcnt : s.entryCnt dir ≤ 7 * blockDentrys)
    (hmap : ∀ k, k * blockDentrys < s.entryCnt dir → s.zoneOf dir k ≠ 0) (hname : vaildFileName name = true)
    (habsent : ∀ j < s.entryCnt dir, ¬ s.Hits dir name j) (hnr : 0 < nr) (hnr' : nr < 2 ^ 16) :
    s.AddsExactly dir name nr ↔ s.Fits dir name := by
  have h0 : 0 < s.entryCnt dir → s.zoneOf dir 0 ≠ 0 := fun hpos => hmap 0 (by omega)
  constructor
  · rintro ⟨t, b, e, hadd, hperm⟩
    have hfind : ∃ t₁ o, s.findEntry dir (some name) = .ok (t₁, o) := by
      obtain ⟨-, hadd⟩ := cassert_bind_eq_ok.1 hadd
      obtain ⟨-, -, hadd⟩ := bind_eq_ok.1 hadd
      obtain ⟨-, hadd⟩ := cassert_bind_eq_ok.1 hadd
      obtain ⟨⟨t₁, o⟩, hf, -⟩ := bind_eq_ok.1 hadd
      exact ⟨t₁, o, hf⟩
    obtain ⟨t₁, o, hfind⟩ := hfind
    cases o with
    | none =>
      obtain ⟨hspec, hfree⟩ := addEntry_spec h hdir hname h0 hfind
      obtain ⟨i, hi⟩ := hfree t b e hadd
      obtain ⟨u, z, hadd', hadded⟩ := hspec i hi
      rw [hadd'] at hadd
      cases hadd
      rw [(hadded nr).liveList hname hnr hnr', liveList_split hi.le, perm_iff, behind_nil_iff] at hperm
      exact ⟨kept_eq_iff.1 (congrArg Prod.fst hperm.1), cnt_le ((findEntry_none h hdir h0).1 ⟨t₁, hfind⟩),
        i, hi, hperm.2⟩
    | some e' =>
      -- a wrong entry was taken for the one sought, and is overwritten
      exfalso
      rw [addEntry_of_found hdir hname hfind] at hadd
      cases hadd
      have ht := findEntry_touched hfind
      have hpos : 0 < s.entryCnt dir ∧ e.1 = s.zoneOf dir 0 := by
        obtain ⟨-, ⟨-, -, ho⟩ | ⟨hpos, -, -, -, -, r, -, ho⟩⟩ := findEntry_eq_ok.1 hfind
        · cases ho
        · cases r with
          | none => cases ho
          | some k =>
            obtain rfl := Option.some.inj ho
            exact ⟨hpos, ((zoneOf_direct h (by decide)).trans (Fs.field_zone s dir 0).symm).symm⟩
      obtain ⟨z, k⟩ := e
      obtain ⟨hpos, rfl⟩ := hpos
      have hz := h0 hpos
      obtain ⟨hk, hhit, -⟩ := (findEntry_some h hdir hz).1 ⟨t, hfind⟩
      have hused : slotNr (s.cache.data (s.zoneOf dir 0)) k ≠ 0 := by
        intro hfree
        by_cases hk64 : k < blockDentrys
        · rw [hit_eq hk64, if_pos hfree] at hhit
          cases hhit
        · rw [hit_behind (not_lt.1 hk64)] at hhit
          cases hhit
      have hlen := hperm.length_eq
      have hcnt' : t.entryCnt dir = s.entryCnt dir := congrArg (· / 16) (ht.field dir .size)
      have hsame : ((t.setDentry (t.zoneOf dir 0, k) nr).liveList dir).length = (t.liveList dir).length := by
        refine liveList_length (ht.inv h) (by rwa [hcnt']) ?_ ?_ hnr hnr'
        · rwa [ht.zoneOf]
        · rwa [ht.zoneOf, ht.data]
      rw [ht.zoneOf, ht.liveList] at hsame
      rw [List.length_cons] at hlen
      omega
  · rintro ⟨hshort, hcnt64, i, hi, hbehind⟩
    have hhit : ∀ j < s.entryCnt dir, s.hit (s.zoneOf dir 0) j name = .ok false := by
      intro j hj
      have hj64 : j < blockDentrys := hj.trans_le hcnt64
      have hno := habsent j hj
      unfold Hits Named at hno
      rw [entryBlock_first hj64, Nat.mod_eq_of_lt hj64] at hno
      rw [hit_eq hj64]
      split_ifs with hfree
      · rfl
      · rw [entryMatch_short hname hshort (by norm_num at hj64 hshort ⊢; omega),
          ← component_of_valid hname]
        exact congrArg _ (decide_eq_false fun heq => hno ⟨hfree, heq⟩)
    obtain ⟨t, hfind⟩ := (findEntry_none h hdir h0).2 hhit
    obtain ⟨u, z, hadd, hadded⟩ := (addEntry_spec h hdir hname h0 hfind).1 i hi
    refine ⟨u, z, (z, i), hadd, ?_⟩
    rw [(hadded nr).liveList hname hnr hnr', liveList_split hi.le, perm_iff, behind_nil_iff]
    exact ⟨Prod.ext (kept_eq_iff.2 hshort) rfl, hbehind⟩

end Others

/-! ## Directories of one block -/

/-- The inode of a directory of `size` bytes in zone 3. -/
def dirWord (size w : ℕ) : ℕ := if w = 0 then 0o40755 else if w = 2 then size else if w = 7 then 3 else 0

/-- A directory of `size` bytes in zone 3, which holds `first`, on a device of ten blocks. -/
def oneZoneFs (size : ℕ) (first : Bytes) : Fs :=
  let data (n : ℕ) : Bytes := if n = 2 then wordBytes (dirWord size) else if n = 3 then first else fun _ => 0#8
  { env := { cache := ⟨data, data, fun _ => false, fun _ => 0⟩, alloc := freshSb.putZone 3 true }
    inode := fun i => if i = 0 then ⟨1, 1, 1, 2, 0⟩ else ⟨EOF, 0, 0, 0, 0⟩
    imapsDisk := []
    zmapsDisk := [] }

section Small
variable (size : ℕ) (first : Bytes)

theorem oneZoneFs_top {n : ℕ} (hn : n < 7) :
    (oneZoneFs size first).cache.top ((oneZoneFs size first).inode 0) n = if n = 0 then 3 else 0 := by
  refine (getU16_wordBytes (dirWord size) (7 + n)).trans ?_
  unfold dirWord
  rw [if_neg (by omega), if_neg (by omega)]
  split_ifs <;> first | rfl | omega

theorem oneZoneFs_inv : DirectInv 0 (oneZoneFs size first) where
  slot := Nat.succ_pos 31
  zmap := freshSb_ok.putZone (le_refl 3) (by decide) (by decide)
  zones := (by decide : 7 ≤ 10)
  buf := Nat.lt_succ_self 2
  used n hn h0 := by
    rw [oneZoneFs_top size first hn] at h0 ⊢
    split_ifs at h0 ⊢
    · exact ⟨le_refl 3, (by decide : (freshSb.putZone 3 true).zoneUsed 3 = true)⟩
    · exact absurd rfl h0
  distinct n hn m hm h0 he := by
    rw [oneZoneFs_top size first hn] at h0 he
    rw [oneZoneFs_top size first hm] at he
    have hn0 : n = 0 := by
      by_contra h
      exact h0 (if_neg h)
    have hm0 : m = 0 := by
      by_contra h
      rw [if_neg h] at he
      exact h0 he
    rw [hn0, hm0]

theorem oneZoneFs_zone : (oneZoneFs size first).zoneOf 0 0 = 3 :=
  (zoneOf_direct (oneZoneFs_inv size first) (by decide)).trans (oneZoneFs_top size first (by decide))

end Small

/-- One entry `b` and behind it nothing. -/
def oneEntryFs : Fs := oneZoneFs 16 (dirBytes [(3, [0x62])])

/-- A free entry and behind it the entry `b`. -/
def holeFs : Fs := oneZoneFs 32 (dirBytes [(0, []), (3, [0x62])])

/-- `a` is added to the first of these directories. -/
theorem addEntry_keeps : oneEntryFs.AddsExactly 0 [chrA] 4 ↔ oneEntryFs.Fits 0 [chrA] := by
  refine addEntry_iff (oneZoneFs_inv ..) (by decide) (by decide) (fun k hk => ?_) (by decide) (fun j hj => ?_)
    (by decide) (by decide)
  · have hcnt : oneEntryFs.entryCnt 0 = 1 := by decide
    rw [hcnt] at hk
    obtain rfl : k = 0 := by norm_num at hk; omega
    rw [show oneEntryFs.zoneOf 0 0 = 3 from oneZoneFs_zone ..]
    decide
  · have hcnt : oneEntryFs.entryCnt 0 = 1 := by decide
    rw [hcnt] at hj
    obtain rfl : j = 0 := by omega
    decide +kernel

/-- In the second one the entry `b` lies behind the end of the directory after `a` has been added. -/
theorem addEntry_hides : DirectInv 0 holeFs ∧ ISDIR (holeFs.field 0 .mode) ∧ holeFs.entryCnt 0 = 2 ∧
    (∀ j < 2, ¬ holeFs.Hits 0 [chrA] j) ∧ ¬ holeFs.AddsExactly 0 [chrA] 4 := by
  refine ⟨oneZoneFs_inv .., by decide, by decide, by decide +kernel, ?_⟩
  rintro ⟨t, b, e, hadd, hperm⟩
  have hrun : (do
      let r ← holeFs.addEntry 0 (some [chrA])
      cassert (r.2.2 = some (3, 0) ∧
        ((r.1.setDentry (3, 0) 4).liveList 0).length = (holeFs.liveList 0).length) "kept"
      return () : C Unit).isOk = true := by decide +kernel
  obtain ⟨a, hrun⟩ := ok_of_isOk hrun
  rw [hadd] at hrun
  obtain ⟨⟨ho, hlen⟩, -⟩ := cassert_bind_eq_ok.1 hrun
  cases ho
  have hone := hperm.length_eq
  rw [hlen, List.length_cons] at hone
  omega

/-- `a` is found again in the first directory. -/
theorem addEntry_found : oneEntryFs.FoundAgain 0 [chrA] 4 ↔ [chrA].length < nameLen := by
  refine addEntry_found_iff (oneZoneFs_inv ..) (by decide) (fun _ => ?_) ⟨1, ?_⟩ (by decide) ?_ (by decide)
    (by decide)
  · rw [show oneEntryFs.zoneOf 0 0 = 3 from oneZoneFs_zone ..]
    decide
  · rw [FreeAt, show oneEntryFs.zoneOf 0 0 = 3 from oneZoneFs_zone .., if_neg (by decide)]
    decide +kernel
  · have hrun : (do
        let r ← oneEntryFs.findEntry 0 (some [chrA])
        cassert (r.2 = none) "found"
        return () : C Unit).isOk = true := by decide +kernel
    obtain ⟨a, hrun⟩ := ok_of_isOk hrun
    obtain ⟨⟨t, o⟩, hf, hrun⟩ := bind_eq_ok.1 hrun
    obtain ⟨rfl, -⟩ := cassert_bind_eq_ok.1 hrun
    exact ⟨t, hf⟩

/-- A name of 14 letters is not, and a second entry is added. -/
theorem addEntry_lost : DirectInv 0 oneEntryFs ∧ (∃ t, oneEntryFs.findEntry 0 (some (List.replicate 14 chrA)) =
      .ok (t, none)) ∧ ¬ oneEntryFs.FoundAgain 0 (List.replicate 14 chrA) 4 ∧
    ∃ t u, oneEntryFs.addEntry 0 (some (List.replicate 14 chrA)) = .ok (t, 3, some (3, 1)) ∧
      (t.setDentry (3, 1) 4).addEntry 0 (some (List.replicate 14 chrA)) = .ok (u, 3, some (3, 2)) := by
  have hrun : (do
      let r ← oneEntryFs.findEntry 0 (some (List.replicate 14 chrA))
      let a ← oneEntryFs.addEntry 0 (some (List.replicate 14 chrA))
      let a' ← (a.1.setDentry (3, 1) 4).addEntry 0 (some (List.replicate 14 chrA))
      cassert (r.2 = none ∧ a.2 = (3, some (3, 1)) ∧ a'.2 = (3, some (3, 2))) "added twice"
      return () : C Unit).isOk = true := by decide +kernel
  obtain ⟨a, hrun⟩ := ok_of_isOk hrun
  obtain ⟨⟨t₀, o⟩, hf, hrun⟩ := bind_eq_ok.1 hrun
  obtain ⟨⟨t, e⟩, hadd, hrun⟩ := bind_eq_ok.1 hrun
  obtain ⟨⟨u, e'⟩, hadd', hrun⟩ := bind_eq_ok.1 hrun
  obtain ⟨⟨rfl, rfl, rfl⟩, -⟩ := cassert_bind_eq_ok.1 hrun
  refine ⟨oneZoneFs_inv .., ⟨t₀, hf⟩, ?_, t, u, hadd, hadd'⟩
  rintro ⟨t', b, e, h, -, u', h'⟩
  rw [hadd] at h
  cases h
  rw [hadd'] at h'
  cases h'

end Rdix.Fs
