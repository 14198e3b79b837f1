/-
  The test for an empty directory (fs/minix1/namei.c: dir_is_empty).

  * `entryNr`: the inode of an entry, wherever its block is;
  * `bmap_near`: a direct block that is mapped is found without a change;
  * `Counting`: where the loop is at entry `i`: which block is held, and that it is the only one;
  * `emptyLoop_count`: the loop counts the entries in use;
  * `dirIsEmpty_right`: the answer is right, and every `b_count` is what it was.
-/
import Rdix.Fs.FindEntry

namespace Rdix.Fs

open ByteMem Function

/-! ## Entries -/

/-- The inode of entry `j` of a directory, 0 if the entry is free. -/
def entryNr (s : Fs) (dir j : ℕ) : ℕ := slotNr (s.cache.data (s.entryBlock dir j)) (j % blockDentrys)

/-- The references when a block is held besides. -/
def heldCount (count : ℕ → ℕ) : Option ℕ → ℕ → ℕ
  | none => count
  | some b => update count b ((count b + 1) % 256)

section Blocks
variable {s s' : Fs} {dir i b : ℕ} {bf : Option ℕ}

theorem bread_heldCount (h : s'.cache.count = s.cache.count) (b : ℕ) :
    (s'.bread b).cache.count = heldCount s.cache.count (some b) := by
  rw [bread, mapCache_cache]
  show update s'.cache.count b ((s'.cache.count b + 1) % 256) = _
  rw [h]
  rfl

/-- The block that was held is released. -/
theorem brelse_heldCount {b : ℕ} (hcount : ∀ n, s.cache.count n < 256)
    (h : s'.cache.count = heldCount s.cache.count (some b)) :
    (s'.brelse b).cache.count = s.cache.count := by
  have hb := hcount b
  rw [brelse, mapCache_cache, Cache.brelse_count, h, heldCount, update_self, update_idem]
  refine update_eq_self_iff.2 ?_
  omega

theorem brelse?_heldCount (hcount : ∀ n, s.cache.count n < 256)
    (h : s'.cache.count = heldCount s.cache.count bf) : (s'.brelse? bf).cache.count = s.cache.count := by
  cases bf with
  | none => exact h
  | some b =>
    rw [show s'.brelse? (some b) = s'.brelse b from rfl]
    exact brelse_heldCount hcount h

/-- **A direct block that is mapped** is found, and nothing happens. -/
theorem bmap_near {k : ℕ} (hk : k < 7) (h : s.zoneOf dir k ≠ 0) :
    s.bmap dir k false = .ok (s, s.zoneOf dir k) := by
  obtain ⟨t, hb, -⟩ := bmap_zoneOf h
  rw [hb]
  obtain ⟨⟨e, z⟩, he, ht⟩ := bind_eq_ok.1 hb
  cases ht
  obtain ⟨-, he⟩ := cassert_bind_eq_ok.1 he
  dsimp only at he
  rw [Int.toNat_natCast, if_pos hk, bmapReckon] at he
  obtain ⟨⟨e', v⟩, he', hr⟩ := bind_eq_ok.1 he
  obtain ⟨rfl, -⟩ := ensureZone_false he'
  cases hr
  rfl

theorem Touched.entryNr (h : s.Touched s') (j : ℕ) : s'.entryNr dir j = s.entryNr dir j := by
  unfold Fs.entryNr entryBlock
  rw [h.zoneOf, h.data]

end Blocks

/-! ## The loop -/

/-- Before entry `i`: the block of the last entry is held, and no other one besides those that were
    held before. -/
structure Counting (s : Fs) (dir i : ℕ) (s' : Fs) (zone_cnt : ℕ) (bf : Option ℕ) : Prop where
  touched : s.Touched s'
  zones : zone_cnt = (i + 63) / blockDentrys
  buffer : bf = if i = 0 then none else some (s.entryBlock dir (i - 1))
  count : s'.cache.count = heldCount s.cache.count bf

section Loop
variable {s s' : Fs} {dir i n zone_cnt cnt : ℕ} {bf : Option ℕ}

/-- **The next block** is read where an entry is its first one; the block of the entry is then held. -/
theorem Counting.next (h : Counting s dir i s' zone_cnt bf) (hcount : ∀ n, s.cache.count n < 256)
    (hi : i < 448) (hmap : s.zoneOf dir (i / blockDentrys) ≠ 0) :
    ∃ t, s'.emptyZone dir i zone_cnt bf = .ok (t, i / blockDentrys + 1, some (s.entryBlock dir i)) ∧
      Counting s dir (i + 1) t (i / blockDentrys + 1) (some (s.entryBlock dir i)) := by
  have hzone_cnt : i / blockDentrys + 1 = (i + 1 + 63) / blockDentrys := by
    norm_num
    omega
  unfold emptyZone
  by_cases hfirst : zone_cnt * blockDentrys ≤ i
  · have hz : zone_cnt = i / blockDentrys := by
      have := h.zones
      norm_num at this hfirst ⊢
      omega
    have hk : i / blockDentrys < 7 := by
      norm_num
      omega
    have hb : s'.bmap dir (i / blockDentrys : ℕ) false = .ok (s', s.entryBlock dir i) := by
      rw [← h.touched.zoneOf (i := dir)] at hmap
      rw [bmap_near hk hmap, h.touched.zoneOf]
      rfl
    refine ⟨(s'.brelse? bf).bread (s.entryBlock dir i), ?_, ?_, hzone_cnt, ?_, ?_⟩
    · rw [if_pos hfirst, hz, hb]
      rfl
    · exact (h.touched.brelse? bf).bread _
    · rw [if_neg (Nat.succ_ne_zero i), Nat.add_sub_cancel]
    · exact bread_heldCount (brelse?_heldCount hcount h.count) _
  · have hi0 : i ≠ 0 := by
      rintro rfl
      exact hfirst (by rw [h.zones]; decide)
    have hz : zone_cnt = i / blockDentrys + 1 ∧ (i - 1) / blockDentrys = i / blockDentrys := by
      have := h.zones
      norm_num at this hfirst ⊢
      omega
    have hbf : bf = some (s.entryBlock dir i) := by
      rw [h.buffer, if_neg hi0, entryBlock, entryBlock, hz.2]
    refine ⟨s', ?_, h.touched, hzone_cnt, ?_, hbf ▸ h.count⟩
    · rw [if_neg hfirst, hz.1, hbf]
      rfl
    · rw [if_neg (Nat.succ_ne_zero i), Nat.add_sub_cancel]

/-- The entries in use among the `n` from `i` on. -/
def liveCount (s : Fs) (dir i n : ℕ) : ℕ := (List.range' i n).countP fun j => s.entryNr dir j ≠ 0

theorem liveCount_succ : s.liveCount dir i (n + 1) =
    (if s.entryNr dir i ≠ 0 then 1 else 0) + s.liveCount dir (i + 1) n := by
  rw [liveCount, List.range'_succ, List.countP_cons, Nat.add_comm]
  simp [liveCount]

theorem liveCount_eq_zero (s : Fs) (dir i n : ℕ) : s.liveCount dir i n = 0 ↔ ∀ j, i ≤ j → j < i + n → s.entryNr dir j = 0 := by
  rw [liveCount, List.countP_eq_zero]
  simp only [List.mem_range'_1, decide_not, Bool.not_eq_true', decide_eq_false_iff_not, not_not, and_imp]

/-- **The loop counts the entries in use**, and looks at each of them in its own block. -/
theorem emptyLoop_count (n cnt : ℕ) (h : Counting s dir i s' zone_cnt bf)
    (hcount : ∀ n, s.cache.count n < 256)
    (hin : i + n ≤ 448) (hmap : ∀ k, k * blockDentrys < i + n → s.zoneOf dir k ≠ 0)
    (hfirst : ∀ j < 2, s.entryNr dir j ≠ 0) :
    ∃ t zone_cnt' bf', emptyLoop dir n i s' zone_cnt bf cnt = .ok (t, bf', cnt + s.liveCount dir i n) ∧
      Counting s dir (i + n) t zone_cnt' bf' := by
  induction n generalizing i s' zone_cnt bf cnt with
  | zero => exact ⟨s', zone_cnt, bf, rfl, h⟩
  | succ n ih =>
    have hhere : s.zoneOf dir (i / blockDentrys) ≠ 0 :=
      hmap _ ((Nat.div_mul_le_self i blockDentrys).trans_lt (by omega))
    obtain ⟨t, ht, h'⟩ := h.next hcount (by omega) hhere
    have hread : t.dentry (s.entryBlock dir i) (i % blockDentrys) = .ok (s.entryNr dir i) := by
      rw [Fs.dentry, if_pos (Nat.mod_lt i (by norm_num))]
      show Except.ok (load (t.cache.data (s.entryBlock dir i)) 2 (16 * (i % blockDentrys))) = _
      rw [h'.touched.data]
      rfl
    have hturn (c : ℕ) := ih c h' (by omega) fun k hk => hmap k (by omega)
    have hsum : i + (n + 1) = i + 1 + n := by omega
    rw [emptyLoop, ht, ok_bind]
    dsimp only
    rw [deref_some, ok_bind, hread, ok_bind, liveCount_succ, hsum]
    by_cases h0 : s.entryNr dir i ≠ 0
    · rw [if_pos h0, if_pos h0, ← Nat.add_assoc]
      exact hturn (cnt + 1)
    · have hi : ¬ (i = 0 ∨ i = 1) := fun hi => h0 (hfirst i (by omega))
      rw [if_neg h0, if_neg h0, if_neg hi, Nat.zero_add]
      exact hturn cnt

end Loop

/-- **The answer is right**: `dir_is_empty` says whether all entries from the third on are free.  It
    reads each entry in the block that it holds, and leaves every `b_count` and every block alone. -/
theorem dirIsEmpty_right {s : Fs} {dir : ℕ} (hdir : ISDIR (s.field dir .mode))
    (hcnt : 2 ≤ s.entryCnt dir) (hdirect : s.entryCnt dir ≤ 448)
    (hmap : ∀ k, k * blockDentrys < s.entryCnt dir → s.zoneOf dir k ≠ 0)
    (hcount : ∀ n, s.cache.count n < 256) (hfirst : ∀ j < 2, s.entryNr dir j ≠ 0) :
    ∃ s' empty, s.dirIsEmpty dir = .ok (s', empty) ∧
      (empty = true ↔ ∀ j, 2 ≤ j → j < s.entryCnt dir → s.entryNr dir j = 0) ∧
      s'.cache.count = s.cache.count ∧ s.Touched s' := by
  have h0 := hmap 0 (by omega)
  have hzone : s.field dir (.zone 0) ≠ 0 := by
    obtain ⟨t, hb, -⟩ := bmap_zoneOf h0
    obtain ⟨-, -, -, hz⟩ := bmap_zero.1 hb
    rwa [hz] at h0
  have hstart : Counting s dir 0 s 0 none := ⟨.refl s, rfl, rfl, rfl⟩
  obtain ⟨t, zone_cnt, bf, hloop, h⟩ := emptyLoop_count (s.entryCnt dir) 0 hstart hcount (by omega)
    (by simpa using hmap) hfirst
  obtain ⟨n, hn⟩ : ∃ n, s.entryCnt dir = n + 2 := ⟨s.entryCnt dir - 2, by omega⟩
  have hlive : s.liveCount dir 0 (s.entryCnt dir) = 2 + s.liveCount dir 2 n := by
    rw [hn, liveCount_succ, liveCount_succ, if_pos (hfirst 0 (by decide)), if_pos (hfirst 1 (by decide)), ← Nat.add_assoc]
  have hbf := h.buffer
  rw [if_neg (by omega)] at hbf
  subst hbf
  refine ⟨t.brelse (s.entryBlock dir (0 + s.entryCnt dir - 1)),
    decide (0 + s.liveCount dir 0 (s.entryCnt dir) = 2), ?_, ?_, ?_, ?_⟩
  · rw [dirIsEmpty, cassert_pos hdir, ok_bind]
    dsimp only
    rw [show s.field dir .size / 16 = s.entryCnt dir from rfl,
      if_neg (not_or.2 ⟨Nat.not_lt.2 hcnt, hzone⟩), hloop]
    rfl
  · rw [decide_eq_true_iff, hlive]
    have hzero := liveCount_eq_zero s dir 2 n
    constructor
    · intro heq j h2 hj
      exact hzero.1 (by omega) j h2 (by omega)
    · intro hall
      have := hzero.2 fun j h2 hj => hall j h2 (by omega)
      omega
  · exact brelse_heldCount hcount h.count
  · exact h.touched.brelse _

/-- Sixty-six entries in two blocks, all free but the first two. -/
def emptyDirFs : Fs := dirFs 1056 (dirBytes [(1, [0x2e]), (1, [0x2e, 0x2e])]) fun _ => 0#8

/-- They are an empty directory. -/
theorem dirIsEmpty_right_two_blocks : ∃ s' empty, emptyDirFs.dirIsEmpty 0 = .ok (s', empty) ∧
    (empty = true ↔ ∀ j, 2 ≤ j → j < emptyDirFs.entryCnt 0 → emptyDirFs.entryNr 0 j = 0) ∧
    s'.cache.count = emptyDirFs.cache.count ∧ emptyDirFs.Touched s' := by
  have hcnt : emptyDirFs.entryCnt 0 = 66 := by decide
  refine dirIsEmpty_right (by decide) (by omega) (by omega) (fun k hk => ?_) (fun n => ?_) fun j hj => ?_
  · rw [hcnt] at hk
    have hk2 : k < 2 := by
      norm_num at hk
      omega
    interval_cases k <;> decide
  · show (if n = 4 then 1 else 0) < 256
    split_ifs <;> decide
  · interval_cases j <;> decide +kernel

end Rdix.Fs
