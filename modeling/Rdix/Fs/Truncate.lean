/-
  What a truncation releases (fs/minix1/inode.c: inode_bfree, inode_truncate).

  * `Place.Under`: the subtree of the zone tree at a place;
  * `Released`: exactly the zones at some places have been given back;
  * `inodeBfree_spec`: a call on a place releases its subtree, by induction on the level;
  * `inodeTruncate_exact`: a truncation releases the zones of the tree and nothing else.
-/
import Rdix.Fs.Inode
import Rdix.Fs.BmapApart
import Rdix.Lib.Loop

namespace Rdix

open ByteMem Function

/-! ## Subtrees -/

namespace Place

/-- Entry `j` of the index block at a place. -/
def child : Place → ℕ → Place
  | top i, j => if i = 7 then ind j else dbl j
  | dbl q, j => leaf q j
  | p, _ => p

/-- How many levels of index blocks there are at a place: the `level` of `inode_bfree`. -/
def level : Place → ℕ
  | top i => i - 6
  | dbl _ => 1
  | ind _ | leaf _ _ => 0

/-- A place and the places of the index blocks it lies in. -/
def path : Place → List Place
  | top i => [top i]
  | ind j => [ind j, top 7]
  | dbl q => [dbl q, top 8]
  | leaf q j => [leaf q j, dbl q, top 8]

/-- `q` is `p` or lies in the index block at `p`, directly or not. -/
def Under (p q : Place) : Prop := p ∈ q.path

variable {p q r : Place} {j j' l : ℕ}

theorem under_self (p : Place) : p.Under p := by
  cases p <;> simp [Under, path]

theorem index_of_level (hp : p.Valid) (h : p.level = l + 1) : p.Index := by
  cases p with
  | top i => simp only [level, Valid, Index] at h hp ⊢; omega
  | ind => cases h
  | dbl q => trivial
  | leaf => cases h

theorem child_valid (hp : p.Valid) (hi : p.Index) (hj : j < zonesIdxPerBlock) : (p.child j).Valid := by
  cases p with
  | top i => rcases hi with rfl | rfl <;> exact hj
  | ind => cases hi
  | dbl q => exact ⟨hp, hj⟩
  | leaf => cases hi

theorem child_level (hi : p.Index) (h : p.level = l + 1) : (p.child j).level = l := by
  cases p with
  | top i => rcases hi with rfl | rfl <;> cases h <;> rfl
  | ind => cases hi
  | dbl q => cases h; rfl
  | leaf => cases hi

theorem child_parent (hi : p.Index) : (p.child j).parent = some p ∧ (p.child j).idx = j := by
  cases p with
  | top i => rcases hi with rfl | rfl <;> exact ⟨rfl, rfl⟩
  | ind => cases hi
  | dbl q => exact ⟨rfl, rfl⟩
  | leaf => cases hi

/-- A place without entries is alone in its subtree. -/
theorem under_iff_of_level (h : p.level = 0) : p.Under q ↔ q = p := by
  cases p <;> cases q <;> simp [Under, path, level] at h ⊢ <;> omega

/-- Below an index block there are its own place and what is below its entries. -/
theorem under_iff (hi : p.Index) (hq : q.Valid) :
    p.Under q ↔ q = p ∨ ∃ j < zonesIdxPerBlock, (p.child j).Under q := by
  cases p with
  | top i => rcases hi with rfl | rfl <;> cases q <;> simp_all [Under, path, child, Valid, eq_comm]
  | ind => cases hi
  | dbl q' => cases q <;> simp_all [Under, path, child, Valid, eq_comm]
  | leaf => cases hi

/-- The subtrees of two entries have nothing in common. -/
theorem under_child_inj (hi : p.Index) (h : (p.child j).Under q) (h' : (p.child j').Under q) :
    j = j' := by
  cases p with
  | top i => rcases hi with rfl | rfl <;> cases q <;> simp_all [Under, path, child]
  | ind => cases hi
  | dbl q' => cases q <;> simp_all [Under, path, child]
  | leaf => cases hi

/-- An index block does not lie in itself. -/
theorem not_under_child (hi : p.Index) : ¬ (p.child j).Under p := by
  cases p with
  | top i => rcases hi with rfl | rfl <;> simp [Under, path, child]
  | ind => cases hi
  | dbl q' => simp [Under, path, child]
  | leaf => cases hi

end Place

/-! ## Zones given back -/

/-- Zone `z` is marked in the first block of the zone bitmap. -/
def Super.Marked (sb : Super) (z : ℕ) : Prop :=
  0 < sb.zmaps.length ∧ ∃ p < blockBits, sb.zoneOffset 0 + p = z ∧ mapBit sb.zmaps p = true

/-- The superblock with the bit of zone `z` clear. -/
def Super.unmark (sb : Super) (z : ℕ) : Super :=
  { sb with zmaps := mapPut sb.zmaps (z - sb.zoneOffset 0) false }

/-- **`bfree` of a marked zone that one bitmap block covers.** -/
theorem bfree_marked {sb : Super} {z : ℕ} (h : sb.Marked z) (hz : z < sb.zones)
    (hc : z < blockBits) : bfree sb z = .ok (sb.unmark z) := by
  obtain ⟨hlen, p, hp, hpz, hbit⟩ := h
  have h0 : z / blockBits = 0 := Nat.div_eq_of_lt hc
  obtain ⟨b, hb⟩ : ∃ b, sb.zmaps[0]? = some b := ⟨_, List.getElem?_eq_getElem hlen⟩
  have hset : b.map.bit p = true := by
    rw [mapBit, Nat.div_eq_of_lt hp, hb, Nat.mod_eq_of_lt hp] at hbit
    exact hbit
  have hf : sb.zoneOffset 0 + blockBits < 2 ^ 31 := by
    norm_num at hc ⊢
    omega
  rw [bfree, mapFree_block hz (h0 ▸ hb) (h0 ▸ hpz.symm) hp (h0 ▸ hf) hset, ok_bind, pure_eq_ok,
    Super.unmark, mapPut, ← hpz, Nat.add_sub_cancel_left, Nat.div_eq_of_lt hp, Nat.mod_eq_of_lt hp,
    List.modify_eq_set_getElem?, hb, hpz, h0]
  rfl

/-- The zones `f q` at the places `q` of `S` have been given back, and all references with them. -/
structure Released (f : Place → ℕ) (S : Set Place) (s s' : Fs) : Prop where
  bits : ∀ p, mapBit s'.sb.zmaps p = true ↔ mapBit s.sb.zmaps p = true ∧
    ∀ q ∈ S, f q ≠ 0 → s.sb.zoneOffset 0 + p ≠ f q
  length : s'.sb.zmaps.length = s.sb.zmaps.length
  sb : ∃ maps, s'.sb = { s.sb with zmaps := maps }
  count : s'.cache.count = s.cache.count
  inode : s'.inode = s.inode

section Released
variable {f : Place → ℕ} {S S' : Set Place} {s s' s'' : Fs} {q : Place} {z : ℕ}

theorem Released.offset (h : Released f S s s') (k : ℕ) : s'.sb.zoneOffset k = s.sb.zoneOffset k := by
  obtain ⟨maps, hsb⟩ := h.sb
  simp only [Super.zoneOffset, hsb]

theorem Released.zones (h : Released f S s s') : s'.sb.zones = s.sb.zones := by
  obtain ⟨maps, hsb⟩ := h.sb
  rw [hsb]

/-- Nothing happened to the bitmap and the references. -/
theorem Released.nothing (hS : ∀ q ∈ S, f q = 0) (hsb : s'.sb = s.sb)
    (hcount : s'.cache.count = s.cache.count) (hinode : s'.inode = s.inode) : Released f S s s' := by
  refine ⟨fun p => ?_, by rw [hsb], ⟨_, hsb⟩, hcount, hinode⟩
  rw [hsb]
  exact ⟨fun h => ⟨h, fun q hq h0 => absurd (hS q hq) h0⟩, fun h => h.1⟩

theorem Released.trans (h : Released f S s s') (h' : Released f S' s' s'') :
    Released f (S ∪ S') s s'' := by
  refine ⟨fun p => ?_, h'.length.trans h.length, ?_, h'.count.trans h.count, h'.inode.trans h.inode⟩
  · rw [h'.bits, h.bits, h.offset]
    constructor
    · rintro ⟨⟨hb, h1⟩, h2⟩
      refine ⟨hb, fun q hq => ?_⟩
      rcases hq with hq | hq
      · exact h1 q hq
      · exact h2 q hq
    · rintro ⟨hb, h1⟩
      exact ⟨⟨hb, fun q hq => h1 q (Or.inl hq)⟩, fun q hq => h1 q (Or.inr hq)⟩
  · obtain ⟨maps, hsb⟩ := h.sb
    obtain ⟨maps', hsb'⟩ := h'.sb
    exact ⟨maps', by rw [hsb', hsb]⟩

theorem Released.congr (h : Released f S s s') (hS : ∀ q, q ∈ S ↔ q ∈ S') : Released f S' s s' := by
  rwa [show S' = S from Set.ext fun q => (hS q).symm]

/-- A zone that is at none of the places stays marked. -/
theorem Released.marked (h : Released f S s s') (hz : s.sb.Marked z)
    (hne : ∀ q ∈ S, f q ≠ 0 → f q ≠ z) : s'.sb.Marked z := by
  obtain ⟨hlen, p, hp, rfl, hbit⟩ := hz
  refine ⟨h.length ▸ hlen, p, hp, by rw [h.offset], (h.bits p).2 ⟨hbit, fun q hq h0 => ?_⟩⟩
  exact (hne q hq h0).symm

/-- Only the superblock, the inode and the references count. -/
theorem Released.frame {t t' : Fs} (h : Released f S t t') (hs : s.sb = t.sb) (hs' : s'.sb = t'.sb)
    (hi : s.inode = t.inode) (hi' : s'.inode = t'.inode) (hc : s'.cache.count = s.cache.count) :
    Released f S s s' := by
  refine ⟨fun p => ?_, ?_, ?_, hc, hi'.trans (h.inode.trans hi.symm)⟩
  · rw [hs, hs']
    exact h.bits p
  · rw [hs, hs']
    exact h.length
  · rw [hs, hs']
    exact h.sb

/-- A block that was held meanwhile is released. -/
theorem Released.around (h : Released f S (s.bread z) s') (hc : s.cache.count z < 256) :
    Released f S s (s'.brelse z) := by
  have hcount : s'.cache.count = update s.cache.count z ((s.cache.count z + 1) % 256) := h.count
  have hback : ((s.cache.count z + 1) % 256 + 255) % 256 = s.cache.count z := by omega
  unfold Fs.bread at h
  unfold Fs.brelse
  refine h.frame (Fs.mapCache_sb ..).symm (Fs.mapCache_sb ..) (Fs.mapCache_inode ..).symm
    (Fs.mapCache_inode ..) ?_
  rw [Fs.mapCache_cache, Cache.brelse_count, hcount, update_self, update_idem, hback, update_eq_self]

/-- One zone is given back. -/
theorem Fs.bfree_released (hm : s.sb.Marked (f q)) (h0 : f q ≠ 0) (hz : f q < s.sb.zones)
    (hc : f q < blockBits) :
    ∃ s', s.bfree (f q) = .ok s' ∧ Released f {q} s s' ∧ s'.cache = s.cache := by
  refine ⟨s.setSb (s.sb.unmark (f q)), ?_, ⟨fun p => ?_, ?_, ?_, ?_, ?_⟩, Fs.setSb_cache ..⟩
  · rw [Fs.bfree, bfree_marked hm hz hc, ok_bind, pure_eq_ok]
  · obtain ⟨hlen, p', hp', he, -⟩ := hm
    have hin : p' < blockBits * s.sb.zmaps.length := lt_of_lt_of_le hp' (Nat.le_mul_of_pos_right _ hlen)
    rw [Fs.setSb_sb, Super.unmark, ← he, Nat.add_sub_cancel_left, mapBit_put hin]
    simp only [Set.mem_singleton_iff, forall_eq, ne_eq, ← he, Nat.add_right_inj]
    constructor
    · intro hb
      split_ifs at hb with hpp
      exact ⟨hb, fun _ => hpp⟩
    · rintro ⟨hb, hne⟩
      rw [if_neg (hne (he ▸ h0)), hb]
  · rw [Fs.setSb_sb, Super.unmark, mapPut_length]
  · exact ⟨_, Fs.setSb_sb ..⟩
  · rw [Fs.setSb_cache]
  · rw [Fs.setSb_inode]

end Released

/-! ## A subtree is given back -/

/-- What a truncation relies on: `f` gives the zones of a tree whose index blocks are on the
    device, no zone occurs twice, and one bitmap block covers them all. -/
structure TreeOf (f : Place → ℕ) (s : Fs) : Prop where
  entry : ∀ r : Place, r.Valid → r.Index → f r ≠ 0 → ∀ j < zonesIdxPerBlock,
    s.cache.word (f r) j = f (r.child j)
  hole : ∀ r : Place, r.Valid → r.Index → f r = 0 → ∀ j < zonesIdxPerBlock, f (r.child j) = 0
  distinct : ∀ p q : Place, p.Valid → q.Valid → f p ≠ 0 → f p = f q → p = q
  zones : ∀ p : Place, p.Valid → f p ≠ 0 → f p < s.sb.zones
  covered : ∀ p : Place, p.Valid → f p ≠ 0 → f p < blockBits

section Bfree
variable {f : Place → ℕ} {s s' : Fs} {p : Place} {array : U16Ptr} {index level : ℕ}

/-- The places of a subtree. -/
def Place.below (p : Place) : Set Place := {q | q.Valid ∧ p.Under q}

theorem TreeOf.congr (H : TreeOf f s) (hd : s'.cache.data = s.cache.data)
    (hz : s'.sb.zones = s.sb.zones) : TreeOf f s' := by
  refine ⟨fun r hr hi h0 j hj => ?_, H.hole, H.distinct, hz ▸ H.zones, H.covered⟩
  rw [Cache.word, hd]
  exact H.entry r hr hi h0 j hj

/-- Below a hole there are only holes. -/
theorem TreeOf.below_zero (H : TreeOf f s) (hp : p.Valid) (hl : p.level = level) (h0 : f p = 0) :
    ∀ q ∈ p.below, f q = 0 := by
  rintro q ⟨hq, hu⟩
  induction level generalizing p with
  | zero => rw [(Place.under_iff_of_level hl).1 hu, h0]
  | succ level ih =>
    have hi := Place.index_of_level hp hl
    rcases (Place.under_iff hi hq).1 hu with rfl | ⟨j, hj, hu⟩
    · exact h0
    · exact ih (Place.child_valid hp hi hj) (Place.child_level hi hl) (H.hole p hp hi h0 j hj) hu

/-- The places below the first `k` entries of the index block at a place. -/
def Place.first (p : Place) (k : ℕ) : Set Place := {q | q.Valid ∧ ∃ j < k, (p.child j).Under q}

theorem Place.first_succ (p : Place) (k : ℕ) : p.first (k + 1) = p.first k ∪ (p.child k).below := by
  ext q
  constructor
  · rintro ⟨hq, j, hj, hu⟩
    rcases Nat.lt_succ_iff_lt_or_eq.1 hj with hj | rfl
    · exact Or.inl ⟨hq, j, hj, hu⟩
    · exact Or.inr ⟨hq, hu⟩
  · rintro (⟨hq, j, hj, hu⟩ | ⟨hq, hu⟩)
    · exact ⟨hq, j, by omega, hu⟩
    · exact ⟨hq, k, Nat.lt_succ_self k, hu⟩

theorem Place.below_eq_first (hp : p.Valid) (hi : p.Index) :
    p.below = p.first zonesIdxPerBlock ∪ {p} := by
  ext q
  constructor
  · rintro ⟨hq, hu⟩
    rcases (under_iff hi hq).1 hu with rfl | hu
    · exact Or.inr rfl
    · exact Or.inl ⟨hq, hu⟩
  · rintro (⟨hq, hu⟩ | rfl)
    · exact ⟨hq, (under_iff hi hq).2 (Or.inr hu)⟩
    · exact ⟨hp, under_self q⟩

theorem Place.below_of_level (hp : p.Valid) (hl : p.level = 0) : p.below = {p} := by
  ext q
  constructor
  · rintro ⟨-, hu⟩
    exact (under_iff_of_level hl).1 hu
  · rintro rfl
    exact ⟨hp, under_self q⟩

/-- The zone number at a place is read in every state with these data. -/
theorem Fs.get_of_word {z : ℕ} (hb : array.off + index < zonesIdxPerBlock)
    (hword : s.cache.word array.blk (array.off + index) = z) (hd : s'.cache.data = s.cache.data) :
    s'.env.get array index = .ok z := by
  have hw : s'.cache.word = s.cache.word := by
    funext b w
    rw [Cache.word, hd, Cache.word]
  rw [Env.get, if_pos hb, ← hword, ← hw]
  rfl

/-- **`inode_bfree` of a place gives back its subtree.** -/
theorem inodeBfree_spec (H : TreeOf f s) (hcount : ∀ n, s.cache.count n < 256) (hp : p.Valid)
    (hl : p.level = level) (hb : array.off + index < zonesIdxPerBlock)
    (hword : s.cache.word array.blk (array.off + index) = f p)
    (hm : ∀ q ∈ p.below, f q ≠ 0 → s.sb.Marked (f q)) :
    ∃ s', Fs.inodeBfree level s array index = .ok s' ∧ Released f p.below s s' ∧
      s'.cache.data = s.cache.data := by
  induction level generalizing s p array index with
  | zero =>
    rw [Fs.inodeBfree, Fs.get_of_word hb hword rfl, ok_bind]
    by_cases h0 : f p = 0
    · rw [if_pos h0]
      exact ⟨s, rfl, .nothing (H.below_zero hp hl h0) rfl rfl rfl, rfl⟩
    · rw [if_neg h0, Place.below_of_level hp hl]
      obtain ⟨s', he, hr, hc⟩ := Fs.bfree_released (hm p ⟨hp, p.under_self⟩ h0) h0 (H.zones p hp h0)
        (H.covered p hp h0)
      exact ⟨s', he, hr, by rw [hc]⟩
  | succ level ih =>
    rw [Fs.inodeBfree, Fs.get_of_word hb hword rfl, ok_bind]
    by_cases h0 : f p = 0
    · rw [if_pos h0]
      exact ⟨s, rfl, .nothing (H.below_zero hp hl h0) rfl rfl rfl, rfl⟩
    have hi := Place.index_of_level hp hl
    have hsub : p.below = p.first zonesIdxPerBlock ∪ {p} := Place.below_eq_first hp hi
    -- the loop, after `k` turns
    let I (k : ℕ) (t : Fs) : Prop :=
      Released f (p.first k) (s.bread (f p)) t ∧ t.cache.data = s.cache.data
    have hstart : I 0 (s.bread (f p)) := by
      refine ⟨.nothing ?_ rfl rfl rfl, rfl⟩
      rintro q ⟨-, j, hj, -⟩
      cases hj
    obtain ⟨t, he, ht, hd⟩ := Loop.foldlM_range_ok (n := zonesIdxPerBlock) I hstart fun k hk t ht => by
      obtain ⟨ht, hd⟩ := ht
      have hbread : ∀ n, t.cache.count n < 256 := by
        intro n
        rw [ht.count]
        show update s.cache.count (f p) ((s.cache.count (f p) + 1) % 256) n < 256
        by_cases hn : n = f p
        · rw [hn, update_self]; omega
        · rw [update_of_ne hn]; exact hcount n
      -- what lies below entry `k` has not been given back yet
      have hmark : ∀ q ∈ (p.child k).below, f q ≠ 0 → t.sb.Marked (f q) := by
        rintro q ⟨hq, hu⟩ hq0
        refine ht.marked (hm q ⟨hq, (Place.under_iff hi hq).2 (Or.inr ⟨k, hk, hu⟩)⟩ hq0) ?_
        rintro q' ⟨hq', j, hj, hu'⟩ hq0' hqq
        obtain rfl := H.distinct _ _ hq' hq hq0' hqq
        have := Place.under_child_inj hi hu' hu
        omega
      have hword' : t.cache.word (f p) (0 + k) = f (p.child k) := by
        rw [Nat.zero_add, Cache.word, hd]
        exact H.entry p hp hi h0 k hk
      obtain ⟨t', he', ht', hd'⟩ := @ih t (p.child k) ⟨f p, 0⟩ k (H.congr hd ht.zones) hbread
        (Place.child_valid hp hi hk) (Place.child_level hi hl) (by rwa [Nat.zero_add]) hword' hmark
      exact ⟨t', he', Place.first_succ p k ▸ ht.trans ht', hd'.trans hd⟩
    have hr : Released f (p.first zonesIdxPerBlock) s (t.brelse (f p)) := ht.around (hcount (f p))
    have hdr : (t.brelse (f p)).cache.data = s.cache.data := (Fs.brelse_data ..).trans hd
    have hlast : (t.brelse (f p)).sb.Marked (f p) := by
      refine hr.marked (hm p ⟨hp, p.under_self⟩ h0) ?_
      rintro q ⟨hq, j, -, hu⟩ hq0 hqp
      obtain rfl := H.distinct _ _ hq hp hq0 hqp
      exact Place.not_under_child hi hu
    obtain ⟨s', he', hr', hc'⟩ := Fs.bfree_released hlast h0 (hr.zones ▸ H.zones p hp h0)
      (H.covered p hp h0)
    refine ⟨s', ?_, hsub ▸ hr.trans hr', by rw [hc', hdr]⟩
    rw [if_neg h0, he, ok_bind]
    dsimp only
    rw [Fs.get_of_word hb hword hdr, ok_bind, he']

end Bfree

/-! ## Truncation -/

/-- The zone tree of an inode is well formed: no zone occurs twice, and each is a zone of the device
    that is marked in the first block of the zone bitmap. -/
structure Fs.ZoneTree (s : Fs) (i : ℕ) : Prop where
  distinct : ∀ p q : Place, p.Valid → q.Valid → s.cache.zoneAt (s.inode i) p ≠ 0 →
    s.cache.zoneAt (s.inode i) p = s.cache.zoneAt (s.inode i) q → p = q
  zones : ∀ p : Place, p.Valid → s.cache.zoneAt (s.inode i) p ≠ 0 →
    s.cache.zoneAt (s.inode i) p < s.sb.zones
  covered : ∀ p : Place, p.Valid → s.cache.zoneAt (s.inode i) p ≠ 0 →
    s.cache.zoneAt (s.inode i) p < blockBits
  marked : ∀ p : Place, p.Valid → s.cache.zoneAt (s.inode i) p ≠ 0 →
    s.sb.Marked (s.cache.zoneAt (s.inode i) p)

/-- What a truncation has done. -/
structure Fs.Truncated (s s' : Fs) (i : ℕ) : Prop where
  /-- the bits of the zones of the tree are clear, and no other bit has changed -/
  bits : ∀ p, mapBit s'.sb.zmaps p = true ↔ mapBit s.sb.zmaps p = true ∧
    ∀ q : Place, q.Valid → s.cache.zoneAt (s.inode i) q ≠ 0 →
      s.sb.zoneOffset 0 + p ≠ s.cache.zoneAt (s.inode i) q
  zone : ∀ k : Fin 9, s'.field i (.zone k) = 0
  size : s'.field i .size = 0
  count : s'.cache.count = s.cache.count
  inode : s'.inode = s.inode
  data : ∀ b ≠ (s.inode i).buf, s'.cache.data b = s.cache.data b

section Truncate
variable {s t : Fs} {i : ℕ}

theorem Fs.field_zone (s : Fs) (i : ℕ) (k : Fin 9) :
    s.field i (.zone k) = s.cache.top (s.inode i) k := by
  have he : (s.inode i).slot * 32 + (14 + 2 * (k : ℕ)) = 2 * ((s.inode i).slot * 16 + 7 + k) := by ring
  unfold Fs.field Cache.get Cache.top Cache.word getU16
  rw [DField.off, DField.width, he]
  rfl

theorem Fs.ZoneTree.child (s : Fs) {r : Place} (hi : r.Index) (j : ℕ) :
    s.cache.zoneAt (s.inode i) (r.child j) = s.cache.entry (s.cache.zoneAt (s.inode i) r) j := by
  obtain ⟨hpar, hidx⟩ := @Place.child_parent r j hi
  rw [zoneAt_child hpar, hidx]

/-- The buffer of the inode is no index block: its own entry there would occur twice. -/
theorem Fs.ZoneTree.index_ne_buf (H : s.ZoneTree i) (hslot : (s.inode i).slot < blockInodes)
    {r : Place} (hr : r.Valid) (hi : r.Index) (h0 : s.cache.zoneAt (s.inode i) r ≠ 0) :
    s.cache.zoneAt (s.inode i) r ≠ (s.inode i).buf := by
  intro hbuf
  -- the entry of `zone` that the block hangs below
  obtain ⟨m, hm, hm0⟩ : ∃ m < 9, s.cache.zoneAt (s.inode i) (.top m) ≠ 0 := by
    cases r with
    | top m => exact ⟨m, hr, h0⟩
    | ind => cases hi
    | dbl q =>
      refine ⟨8, by decide, fun h8 => h0 ?_⟩
      rw [zoneAt_child (r := .top 8) rfl, h8]
      rfl
    | leaf => cases hi
  have hj : (s.inode i).slot * 16 + 7 + m < zonesIdxPerBlock := by
    norm_num at hslot ⊢
    omega
  have htwice : s.cache.zoneAt (s.inode i) (r.child ((s.inode i).slot * 16 + 7 + m)) =
      s.cache.zoneAt (s.inode i) (.top m) := by
    rw [Fs.ZoneTree.child s hi, Cache.entry, if_neg h0, hbuf]
    rfl
  have heq := H.distinct _ _ (Place.child_valid hr hi hj) (show (Place.top m).Valid from hm)
    (htwice ▸ hm0) htwice
  have hpar := (Place.child_parent (j := (s.inode i).slot * 16 + 7 + m) hi).1
  rw [heq] at hpar
  cases hpar

/-- The truncation before entry `k` of `zone`. -/
structure TruncInv (s : Fs) (i k : ℕ) (t : Fs) : Prop where
  released : Released (s.cache.zoneAt (s.inode i))
    {q | q.Valid ∧ ∃ m < k, (Place.top m).Under q} s t
  data : ∀ b ≠ (s.inode i).buf, t.cache.data b = s.cache.data b
  top : ∀ m < 9, t.cache.top (s.inode i) m = if m < k then 0 else s.cache.top (s.inode i) m

theorem TruncInv.treeOf {k : ℕ} (H : s.ZoneTree i) (hslot : (s.inode i).slot < blockInodes)
    (h : TruncInv s i k t) : TreeOf (s.cache.zoneAt (s.inode i)) t := by
  refine ⟨fun r hr hi h0 j _ => ?_, fun r hr hi h0 j _ => ?_, H.distinct, ?_, H.covered⟩
  · rw [Fs.ZoneTree.child s hi, Cache.entry, if_neg h0, Cache.word,
      h.data _ (H.index_ne_buf hslot hr hi h0), Cache.word]
  · rw [Fs.ZoneTree.child s hi, h0]
    rfl
  · rw [h.released.zones]
    exact H.zones

theorem Place.under_top_inj {m n : ℕ} {q : Place} (h : (Place.top m).Under q)
    (h' : (Place.top n).Under q) : m = n := by
  cases q <;> simp_all [Under, path]

theorem Released.same {f : Place → ℕ} {S : Set Place} {s s' t : Fs} (h : Released f S s s')
    (hsb : t.sb = s'.sb) (hcount : t.cache.count = s'.cache.count) (hinode : t.inode = s'.inode) :
    Released f S s t :=
  ⟨by rw [hsb]; exact h.bits, by rw [hsb]; exact h.length, by rw [hsb]; exact h.sb,
    hcount.trans h.count, hinode.trans h.inode⟩

/-- The bytes of the inode's block after a store to a field, as words of `zone`. -/
theorem Fs.top_setField (t : Fs) (k : Fin 9) (m : ℕ) :
    (t.setField i (.zone k) 0).cache.top (t.inode i) m =
      if m = k then 0 else t.cache.top (t.inode i) m := by
  have he : (t.inode i).slot * 32 + (14 + 2 * (k : ℕ)) = 2 * ((t.inode i).slot * 16 + 7 + k) := by ring
  have hd : (t.setField i (.zone k) 0).cache.data (t.inode i).buf =
      setU16 (t.cache.data (t.inode i).buf) ((t.inode i).slot * 16 + 7 + k) 0 := by
    rw [setU16, ← he]
    exact update_self ..
  unfold Cache.top Cache.word MInode.zone
  rw [hd, getU16_setU16]
  by_cases hm : m = k
  · rw [if_pos (by rw [hm]), if_pos hm]
    rfl
  · rw [if_neg (by simpa using hm), if_neg hm]

theorem Fs.field_setField (t : Fs) (f : DField) (v : ℕ) :
    (t.setField i f v).field i f = v % 256 ^ f.width := by
  have hd : (t.setField i f v).cache.data (t.inode i).buf =
      store (t.cache.data (t.inode i).buf) f.width ((t.inode i).slot * 32 + f.off) v := update_self ..
  have hfield : (t.setField i f v).field i f = load ((t.setField i f v).cache.data (t.inode i).buf)
      f.width ((t.inode i).slot * 32 + f.off) := rfl
  rw [hfield, hd, load_store]

/-- The size stands before `zone`. -/
theorem Fs.top_setSize (t : Fs) (m v : ℕ) :
    (t.setField i .size v).cache.top (t.inode i) m = t.cache.top (t.inode i) m := by
  have hd : (t.setField i .size v).cache.data (t.inode i).buf =
      store (t.cache.data (t.inode i).buf) 4 ((t.inode i).slot * 32 + 4) v := update_self ..
  unfold Cache.top Cache.word MInode.zone getU16
  rw [hd]
  exact load_store_of_disjoint (Or.inr (by dsimp only; omega))

/-- One entry of `zone` is released and set to 0. -/
theorem TruncInv.step {k : Fin 9} (H : s.ZoneTree i) (hslot : (s.inode i).slot < blockInodes)
    (hcount : ∀ n, s.cache.count n < 256) (h : TruncInv s i k t) :
    ∃ t', t.truncateZone i k (Place.top k).level = .ok t' ∧ TruncInv s i (k + 1) t' := by
  have hinode : t.inode i = s.inode i := by rw [h.released.inode]
  have hk : (Place.top k).Valid := k.isLt
  have hb : (s.inode i).zone.off + k < zonesIdxPerBlock := by
    have := k.isLt
    norm_num [MInode.zone] at hslot ⊢
    omega
  have hword : t.cache.word (s.inode i).zone.blk ((s.inode i).zone.off + k) =
      s.cache.zoneAt (s.inode i) (.top k) := by
    have := h.top k k.isLt
    rwa [if_neg (lt_irrefl _)] at this
  have hmark : ∀ q ∈ (Place.top k).below, s.cache.zoneAt (s.inode i) q ≠ 0 →
      t.sb.Marked (s.cache.zoneAt (s.inode i) q) := by
    rintro q ⟨hq, hu⟩ h0
    refine h.released.marked (H.marked q hq h0) ?_
    rintro q' ⟨hq', m, hm, hu'⟩ h0' he
    obtain rfl := H.distinct _ _ hq' hq h0' he
    have := Place.under_top_inj hu' hu
    omega
  obtain ⟨t₁, he, hr, hd⟩ := inodeBfree_spec (h.treeOf H hslot) (by rw [h.released.count]; exact hcount)
    hk rfl hb hword hmark
  have hinode₁ : t₁.inode i = s.inode i := by rw [hr.inode, hinode]
  refine ⟨t₁.setField i (.zone k) 0, ?_, ⟨?_, fun b hb => ?_, fun m hm => ?_⟩⟩
  · rw [Fs.truncateZone, hinode, he]
    rfl
  · refine ((h.released.trans hr).same (t := t₁.setField i (.zone k) 0) rfl rfl rfl).congr fun q => ?_
    constructor
    · rintro (⟨hq, m, hm, hu⟩ | ⟨hq, hu⟩)
      · exact ⟨hq, m, by omega, hu⟩
      · exact ⟨hq, k, Nat.lt_succ_self _, hu⟩
    · rintro ⟨hq, m, hm, hu⟩
      rcases Nat.lt_succ_iff_lt_or_eq.1 hm with hm | rfl
      · exact Or.inl ⟨hq, m, hm, hu⟩
      · exact Or.inr ⟨hq, hu⟩
  · rw [← h.data b hb, ← hd]
    exact update_of_ne (by rwa [hinode₁]) ..
  · have htop : t₁.cache.top (s.inode i) m = t.cache.top (s.inode i) m := by
      rw [Cache.top, Cache.word, hd]
      rfl
    rw [← hinode₁, Fs.top_setField, hinode₁, htop, h.top m hm]
    split_ifs <;> omega

/-- **A truncation releases exactly the zones of the tree**, and empties the inode. -/
theorem inodeTruncate_exact (hmode : ISFILE (s.field i .mode) ∨ ISDIR (s.field i .mode))
    (hslot : (s.inode i).slot < blockInodes) (hcount : ∀ n, s.cache.count n < 256)
    (H : s.ZoneTree i) : ∃ s', s.inodeTruncate i = .ok s' ∧ s.Truncated s' i := by
  have hstart : TruncInv s i 0 s := by
    refine ⟨.nothing ?_ rfl rfl rfl, fun _ _ => rfl, fun m _ => (if_neg (Nat.not_lt_zero m)).symm⟩
    rintro q ⟨-, m, hm, -⟩
    cases hm
  have hdirect (k : ℕ) (hk : k < (List.finRange 7).length) (t : Fs) (ht : TruncInv s i k t) :
      ∃ t', t.truncateZone i (((List.finRange 7).get ⟨k, hk⟩).castLE (by decide)) 0 = .ok t' ∧
        TruncInv s i (k + 1) t' := by
    have hk7 : k < 7 := by simpa using hk
    obtain ⟨t', he, ht'⟩ := TruncInv.step (k := ⟨k, by omega⟩) H hslot hcount ht
    have hget : ((List.finRange 7).get ⟨k, hk⟩).castLE (by decide) = (⟨k, by omega⟩ : Fin 9) := by
      ext
      simp
    have hlevel : (Place.top k).level = 0 := Nat.sub_eq_zero_of_le (by omega)
    exact ⟨t', by rwa [hget, ← hlevel], ht'⟩
  obtain ⟨t₇, he₇, h₇⟩ := Loop.foldlM_ok (l := List.finRange 7)
    (f := fun t k => t.truncateZone i (k.castLE (by decide)) 0) (TruncInv s i) hstart hdirect
  rw [List.length_finRange] at h₇
  obtain ⟨t₈, he₈, h₈⟩ := TruncInv.step (k := 7) H hslot hcount h₇
  obtain ⟨t₉, he₉, h₉⟩ := TruncInv.step (k := 8) H hslot hcount h₈
  have hinode : t₉.inode i = s.inode i := by rw [h₉.released.inode]
  refine ⟨(t₉.setField i .size 0).markInode i, ?_, ⟨fun p => ?_, fun k => ?_, ?_, h₉.released.count,
    h₉.released.inode, fun b hb => ?_⟩⟩
  · have he₈' : t₇.truncateZone i 7 1 = .ok t₈ := he₈
    have he₉' : t₈.truncateZone i 8 2 = .ok t₉ := he₉
    rw [Fs.inodeTruncate, if_neg (by tauto), he₇, ok_bind, he₈', ok_bind, he₉']
    rfl
  · refine (h₉.released.bits p).trans (and_congr_right fun _ => forall_congr' fun q => ?_)
    constructor
    · intro h hq h0
      refine h ⟨hq, ?_⟩ h0
      cases q with
      | top m => exact ⟨m, hq, Place.under_self _⟩
      | ind => exact ⟨7, by decide, by simp [Place.Under, Place.path]⟩
      | dbl | leaf => exact ⟨8, by decide, by simp [Place.Under, Place.path]⟩
    · rintro h ⟨hq, -⟩ h0
      exact h hq h0
  · rw [Fs.field_zone]
    refine (Fs.top_setSize t₉ k 0).trans ?_
    rw [hinode, h₉.top k k.isLt]
    exact if_pos k.isLt
  · exact Fs.field_setField t₉ .size 0
  · rw [← h₉.data b hb]
    exact update_of_ne (by rwa [hinode]) ..

/-- The words of a file system with one file: its inode is the first of block 2, and it has a direct
    block, one below the indirect block 6, and one below the index block 9 of block 8. -/
def fileWord : ℕ → ℕ → ℕ
  | 2, w => if w = 0 then 0o100644 else if w = 7 then 5 else if w = 14 then 6 else if w = 15 then 8 else 0
  | 6, w => if w = 3 then 7 else 0
  | 8, w => if w = 2 then 9 else 0
  | 9, w => if w = 1 then 10 else 0
  | _, _ => 0

/-- That file system; all its zones are marked. -/
def fileFs : Fs where
  env :=
    { cache := ⟨fun b => wordBytes (fileWord b), fun b => wordBytes (fileWord b), fun _ => false,
        fun b => if b = 2 then 1 else 0⟩
      alloc := ⟨32, 20, 3, [], [⟨fun _ => 255#8, false⟩]⟩ }
  inode := fun i => if i = 0 then ⟨1, 1, 1, 2, 0⟩ else ⟨EOF, 0, 0, 0, 0⟩
  imapsDisk := []
  zmapsDisk := []

theorem fileFs_word (b w : ℕ) : fileFs.cache.word b w = fileWord b w := by
  refine (getU16_wordBytes _ w).trans (Nat.mod_eq_of_lt ?_)
  unfold fileWord
  split <;> try omega
  all_goals split_ifs <;> omega

theorem fileFs_zoneAt (p : Place) : fileFs.cache.zoneAt (fileFs.inode 0) p = match p with
    | .top i => fileWord 2 (7 + i)
    | .ind j => if j = 3 then 7 else 0
    | .dbl q => if q = 2 then 9 else 0
    | .leaf q j => if q = 2 ∧ j = 1 then 10 else 0 := by
  have htop (i : ℕ) : fileFs.cache.top (fileFs.inode 0) i = fileWord 2 (7 + i) := by
    have hoff : (fileFs.inode 0).zone = ⟨2, 7⟩ := rfl
    rw [Cache.top, hoff, fileFs_word]
  have hdbl (q : ℕ) : fileFs.cache.entry (fileFs.cache.top (fileFs.inode 0) 8) q =
      if q = 2 then 9 else 0 := by
    rw [htop, Cache.entry, if_neg (by decide)]
    exact fileFs_word 8 q
  cases p with
  | top i => exact htop i
  | ind j =>
    rw [Cache.zoneAt, htop, Cache.entry, if_neg (by decide)]
    exact fileFs_word 6 j
  | dbl q => exact hdbl q
  | leaf q j =>
    rw [Cache.zoneAt, hdbl]
    by_cases hq : q = 2
    · rw [if_pos hq, Cache.entry, if_neg (by decide), fileFs_word]
      simp [fileWord, hq]
    · rw [if_neg hq, Cache.entry, if_pos rfl]
      exact (if_neg fun h => hq h.1).symm

/-- Zone numbers of the tree are those from 5 to 10. -/
theorem fileFs_range (p : Place) : fileFs.cache.zoneAt (fileFs.inode 0) p = 0 ∨
    5 ≤ fileFs.cache.zoneAt (fileFs.inode 0) p ∧ fileFs.cache.zoneAt (fileFs.inode 0) p ≤ 10 := by
  rw [fileFs_zoneAt]
  cases p with
  | top i => simp only [fileWord]; split_ifs <;> omega
  | ind | dbl | leaf => dsimp only; split_ifs <;> omega

theorem fileFs_tree : fileFs.ZoneTree 0 := by
  refine ⟨fun p q hp hq h0 h => ?_, fun p _ h0 => ?_, fun p _ h0 => ?_, fun p _ h0 => ?_⟩
  · rw [fileFs_zoneAt] at h h0
    rw [fileFs_zoneAt] at h
    cases p <;> cases q <;> simp only [fileWord, Place.Valid] at h h0 hp hq <;> grind
  · have := (fileFs_range p).resolve_left h0
    show _ < 20
    omega
  · have := (fileFs_range p).resolve_left h0
    norm_num
    omega
  · have := (fileFs_range p).resolve_left h0
    refine ⟨by decide, fileFs.cache.zoneAt (fileFs.inode 0) p - 2, by norm_num; omega, ?_, ?_⟩
    · have h2 : fileFs.sb.zoneOffset 0 = 2 := by decide
      omega
    · have hlt : fileFs.cache.zoneAt (fileFs.inode 0) p - 2 < blockBits := by norm_num; omega
      rw [show fileFs.sb.zmaps = [⟨fun _ => 255#8, false⟩] from rfl, mapBit_cons_zero hlt]
      have h8 : (fileFs.cache.zoneAt (fileFs.inode 0) p - 2) % 8 < 8 := Nat.mod_lt _ (by decide)
      simp only [Buf.map, Bitmap.bit]
      interval_cases (fileFs.cache.zoneAt (fileFs.inode 0) p - 2) % 8 <;> decide

/-- The truncation of that file. -/
theorem truncate_file : ∃ s', fileFs.inodeTruncate 0 = .ok s' ∧ fileFs.Truncated s' 0 := by
  refine inodeTruncate_exact (Or.inl ?_) (by decide) (fun n => ?_) fileFs_tree
  · decide
  · show (if n = 2 then 1 else 0) < 256
    split_ifs <;> omega

end Truncate

end Rdix
