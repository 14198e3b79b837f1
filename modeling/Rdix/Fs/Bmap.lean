/-
  The block map of an inode (fs/minix1/bmap.c: bmap).

  `bmapReckon` is the loop of the source, one turn for each level, with its shared
  variables as arguments.  It reads `array[index]` for the next level after `index` has
  already been set for that level, so an index block is looked for at the position that
  belongs to the level below it.  `bmap_apart_iff` says for which file blocks the block
  map is right all the same.
-/
import Rdix.Fs.Block

namespace Rdix

/-- `m_inode`: the buffer that holds its `d_inode`, the slot there, and what the inode table keeps. -/
structure MInode where
  dev : ℤ
  nr : ℕ
  count : ℕ
  buf : ℕ
  slot : ℕ

/-- A `u16 *`: a block and a word of it. -/
structure U16Ptr where
  blk : ℕ
  off : ℕ

/-- `inode->desc->zone`: a `d_inode` has 16 words, of which `zone` is the eighth to the last. -/
def MInode.zone (inode : MInode) : U16Ptr := ⟨inode.buf, inode.slot * 16 + 7⟩

/-- `ZONES_IDX_PER_BLOCK`. -/
abbrev zonesIdxPerBlock : ℕ := blockSize / 2

/-- The blocks of the file system and the state of the allocator. -/
structure Env (A : Type) where
  cache : Cache
  alloc : A

variable {A : Type}

/-- `array[index]`, inside the block that `array` points into. -/
def Env.get (e : Env A) (array : U16Ptr) (index : ℕ) : C ℕ :=
  if array.off + index < zonesIdxPerBlock then .ok (e.cache.word array.blk (array.off + index))
  else .error (.wild "array")

/-- The body of `if (!array[index] && create)`: a zone is allocated and cleared. -/
def createZone (balloc : A → C (A × ℕ)) (e : Env A) (array : U16Ptr) (index buf : ℕ) :
    C (Env A) := do
  let (alloc, z) ← balloc e.alloc
  let cache := e.cache.setWord array.blk (array.off + index) z
  let tmp := cache.word array.blk (array.off + index)
  let cache := ((((cache.bread tmp).zero tmp).mark tmp).brelse tmp).mark buf
  return ⟨cache, alloc⟩

/-- The first half of a turn: `array[index]`, created if it is missing and `create` is set. -/
def ensureZone (balloc : A → C (A × ℕ)) (create : Bool) (e : Env A) (array : U16Ptr)
    (index buf : ℕ) : C (Env A × ℕ) := do
  let v ← e.get array index
  let e ← if v = 0 ∧ create then createZone balloc e array index buf else pure e
  let v ← e.get array index
  return (e, v)

/-- The references that a return gives back. -/
def Env.release (e : Env A) (buf_1 buf_2 : Option ℕ) : Env A :=
  { e with cache := (e.cache.brelse? buf_1).brelse? buf_2 }

/-- The loop at `reckon`. -/
def bmapReckon (balloc : A → C (A × ℕ)) (create : Bool) :
    ℕ → Env A → U16Ptr → ℕ → ℕ → ℕ → ℕ → Option ℕ → Option ℕ → C (Env A × ℕ)
  | 0, e, array, index, _, _, buf, buf_1, buf_2 => do
    let (e, v) ← ensureZone balloc create e array index buf
    return (e.release buf_1 buf_2, v)
  | level + 1, e, array, index, block, divider, buf, buf_1, buf_2 => do
    let (e, v) ← ensureZone balloc create e array index buf
    if v = 0 then return (e.release buf_1 buf_2, v)
    -- `index` is set for the next level before the index block of this level is read
    let index := block / divider % 2 ^ 16
    let block := block % divider
    let divider := divider / zonesIdxPerBlock
    let blk ← e.get array index
    let e : Env A := { e with cache := e.cache.bread blk }
    if level = 1 then bmapReckon balloc create level e ⟨blk, 0⟩ index block divider blk buf_1 (some blk)
    else bmapReckon balloc create level e ⟨blk, 0⟩ index block divider blk (some blk) buf_2

/-- `zones` is `sb->desc->zones`. -/
def bmap (balloc : A → C (A × ℕ)) (zones : ℕ) (e : Env A) (inode : MInode) (block : ℤ)
    (create : Bool) : C (Env A × ℕ) := do
  cassert (0 ≤ block ∧ block < zones) "block >= 0 && block < sb->desc->zones"
  let block := block.toNat
  let array := inode.zone
  if block < 7 then
    bmapReckon balloc create 0 e array block block 1 inode.buf none none
  else
    let block := block - 7
    if block < 7 + zonesIdxPerBlock then
      bmapReckon balloc create 1 e array 7 block 1 inode.buf none none
    else
      let block := block - (7 + zonesIdxPerBlock)
      cassert (block < zonesIdxPerBlock * zonesIdxPerBlock + 7 + zonesIdxPerBlock)
        "block < ZONES_IDX_PER_BLOCK * ZONES_IDX_PER_BLOCK + 7 + ZONES_IDX_PER_BLOCK"
      bmapReckon balloc create 2 e array 8 block zonesIdxPerBlock inode.buf none none

/-! ## The zone tree of an inode, as the format lays it out -/

/-- A place of the tree that holds a zone number: an entry of `zone`, of the indirect block, of the
    double indirect block, or of an index block below that. -/
inductive Place where
  | top (i : ℕ)
  | ind (j : ℕ)
  | dbl (q : ℕ)
  | leaf (q j : ℕ)
deriving DecidableEq

/-- The places that exist. -/
def Place.Valid : Place → Prop
  | top i => i < 9
  | ind j | dbl j => j < zonesIdxPerBlock
  | leaf q j => q < zonesIdxPerBlock ∧ j < zonesIdxPerBlock

instance : ∀ p : Place, Decidable p.Valid
  | .top _ | .ind _ | .dbl _ => inferInstanceAs (Decidable (_ < _))
  | .leaf _ _ => inferInstanceAs (Decidable (_ ∧ _))

/-- The places of index blocks. -/
def Place.Index : Place → Prop
  | top i => i = 7 ∨ i = 8
  | dbl _ => True
  | ind _ | leaf _ _ => False

instance : ∀ p : Place, Decidable p.Index
  | .top _ => inferInstanceAs (Decidable (_ ∨ _))
  | .dbl _ => inferInstanceAs (Decidable True)
  | .ind _ | .leaf _ _ => inferInstanceAs (Decidable False)

/-- The place of the index block that a place lies in. -/
def Place.parent : Place → Option Place
  | top _ => none
  | ind _ => some (top 7)
  | dbl _ => some (top 8)
  | leaf q _ => some (dbl q)

/-- The entry of that block, or of `zone`. -/
def Place.idx : Place → ℕ
  | top i | ind i | dbl i | leaf _ i => i

/-- Entry `j` of the index block `parent`, 0 if there is no such block. -/
def Cache.entry (c : Cache) (parent j : ℕ) : ℕ := if parent = 0 then 0 else c.word parent j

/-- `inode->desc->zone[i]`. -/
def Cache.top (c : Cache) (inode : MInode) (i : ℕ) : ℕ :=
  c.word inode.zone.blk (inode.zone.off + i)

/-- The zone number at a place, 0 if there is none. -/
def Cache.zoneAt (c : Cache) (inode : MInode) : Place → ℕ
  | .top i => c.top inode i
  | .ind j => c.entry (c.top inode 7) j
  | .dbl q => c.entry (c.top inode 8) q
  | .leaf q j => c.entry (c.entry (c.top inode 8) q) j

/-- `z` is an index block of the inode. -/
def Cache.IndexZone (c : Cache) (inode : MInode) (z : ℕ) : Prop :=
  ∃ p : Place, p.Valid ∧ p.Index ∧ z ≠ 0 ∧ c.zoneAt inode p = z

/-- `z` is a data block of the file. -/
def Cache.DataZone (c : Cache) (inode : MInode) (z : ℕ) : Prop :=
  ∃ p : Place, p.Valid ∧ ¬ p.Index ∧ z ≠ 0 ∧ c.zoneAt inode p = z

/-- A well-formed inode: the zones of its tree are pairwise distinct and allocated, and its own
    buffer is allocated and no zone of it. -/
structure WellFormed (used : Set ℕ) (c : Cache) (inode : MInode) : Prop where
  slot : inode.slot < 32
  buf : inode.buf ∈ used
  buf_ne : ∀ p : Place, p.Valid → c.zoneAt inode p ≠ inode.buf ∨ c.zoneAt inode p = 0
  distinct : ∀ p q : Place, p.Valid → q.Valid → c.zoneAt inode p ≠ 0 →
    c.zoneAt inode p = c.zoneAt inode q → p = q
  alloc : ∀ p : Place, p.Valid → c.zoneAt inode p ≠ 0 → c.zoneAt inode p ∈ used

/-- What `bmap` relies on: an allocator hands out zones that are not in use, or halts because there
    is none. -/
structure AllocOk (balloc : A → C (A × ℕ)) (used : A → Set ℕ) : Prop where
  fresh : ∀ a a' z, balloc a = .ok (a', z) → z ∉ used a ∧ used a' = insert z (used a)
  range : ∀ a a' z, balloc a = .ok (a', z) → 0 < z ∧ z < 2 ^ 16
  full : ∀ a h, balloc a = .error h → h = .assert "block_nr != EOF"

/-! ## Writing one entry of the tree -/

theorem Place.eq_of_parent {p q : Place} (hp : p.parent = q.parent) (hi : p.idx = q.idx) :
    p = q := by
  cases p <;> cases q <;> simp_all [Place.parent, Place.idx]

theorem Place.parent_valid {p r : Place} (hp : p.Valid) (h : p.parent = some r) :
    r.Valid ∧ r.Index := by
  cases p <;> simp only [Place.parent, Option.some.injEq, reduceCtorEq] at h <;> subst h
  · simp [Place.Valid, Place.Index]
  · simp [Place.Valid, Place.Index]
  · exact ⟨hp.1, trivial⟩

theorem Place.parent_ne {p r : Place} (h : p.parent = some r) : p ≠ r := by
  rintro rfl
  cases p <;> simp [Place.parent] at h

theorem zoneAt_top {c : Cache} {inode : MInode} {p : Place} (h : p.parent = none) :
    c.zoneAt inode p = c.word inode.buf (inode.zone.off + p.idx) := by
  cases p <;> simp only [Place.parent, reduceCtorEq] at h
  rfl

theorem zoneAt_child {c : Cache} {inode : MInode} {p r : Place} (h : p.parent = some r) :
    c.zoneAt inode p = c.entry (c.zoneAt inode r) p.idx := by
  cases p <;> simp only [Place.parent, Option.some.injEq, reduceCtorEq] at h <;> subst h <;> rfl

theorem zoneAt_congr {c c' : Cache} (inode : MInode) (h : c'.data = c.data) (p : Place) :
    c'.zoneAt inode p = c.zoneAt inode p := by
  have hw : c'.word = c.word := by funext b w; rw [Cache.word, h, Cache.word]
  cases p <;> simp only [Cache.zoneAt, Cache.top, Cache.entry, hw] <;> rfl

theorem WellFormed.congr {used : Set ℕ} {c c' : Cache} {inode : MInode}
    (H : WellFormed used c inode) (h : c'.data = c.data) : WellFormed used c' inode := by
  have hz := zoneAt_congr inode h
  refine ⟨H.slot, H.buf, fun p hp => ?_, fun p q hp hq => ?_, fun p hp => ?_⟩
  · rw [hz]; exact H.buf_ne p hp
  · rw [hz, hz]; exact H.distinct p q hp hq
  · rw [hz]; exact H.alloc p hp

/-- A place that lies in a block: the block exists, and the place is its word `w`. -/
inductive Slot (c : Cache) (inode : MInode) : Place → ℕ → ℕ → Prop where
  | top {p} : p.parent = none → Slot c inode p inode.buf (inode.zone.off + p.idx)
  | child {p r} : p.parent = some r → c.zoneAt inode r ≠ 0 →
      Slot c inode p (c.zoneAt inode r) p.idx

section Write
variable {used : Set ℕ} {c c' : Cache} {inode : MInode} {p q : Place} {b w z : ℕ}

theorem Slot.zoneAt (h : Slot c inode p b w) : c.zoneAt inode p = c.word b w := by
  cases h with
  | top h => exact zoneAt_top h
  | child h h0 => rw [zoneAt_child h]; exact if_neg h0

theorem Slot.mem_used (h : Slot c inode p b w) (H : WellFormed used c inode) (hp : p.Valid) :
    b ∈ used := by
  cases h with
  | top h => exact H.buf
  | child h h0 => exact H.alloc _ (Place.parent_valid hp h).1 h0

/-- No two places lie in one word. -/
theorem Slot.inj (h : Slot c inode p b w) (h' : Slot c inode q b w) (H : WellFormed used c inode)
    (hp : p.Valid) (hq : q.Valid) : p = q := by
  generalize hb : b = b' at h'
  generalize hw : w = w' at h'
  cases h with
  | top h1 =>
    cases h' with
    | top h2 => exact Place.eq_of_parent (h1.trans h2.symm) (by omega)
    | child h2 h0 =>
      exact absurd hb.symm ((H.buf_ne _ (Place.parent_valid hq h2).1).resolve_right h0)
  | child h1 h0 =>
    cases h' with
    | top h2 => exact absurd hb ((H.buf_ne _ (Place.parent_valid hp h1).1).resolve_right h0)
    | child h2 h0' =>
      obtain rfl := H.distinct _ _ (Place.parent_valid hp h1).1 (Place.parent_valid hq h2).1 h0 hb
      exact Place.eq_of_parent (h1.trans h2.symm) hw

/-- A data block holds no place. -/
theorem Slot.not_data (h : Slot c inode p b w) (H : WellFormed used c inode) (hp : p.Valid) :
    ¬ c.DataZone inode b := by
  rintro ⟨r, hr, hri, hb0, hb⟩
  generalize hb' : b = b' at h
  cases h with
  | top h1 => exact absurd (hb.trans hb') ((H.buf_ne r hr).resolve_right (hb ▸ hb0))
  | child h1 h0 =>
    obtain ⟨hv, hi⟩ := Place.parent_valid hp h1
    exact hri (H.distinct r _ hr hv (hb ▸ hb0) (hb.trans hb') ▸ hi)

/-- The zone `z`, cleared, is written into the word `w` of block `b`. -/
def Written (c c' : Cache) (b w z : ℕ) : Prop :=
  ∀ m j, c'.word m j = if m = z then 0 else if m = b ∧ j = w then z else c.word m j

theorem Written.entry_new (h : Written c c' b w z) (j : ℕ) : c'.entry z j = 0 := by
  unfold Cache.entry
  split_ifs
  · rfl
  · rw [h, if_pos rfl]

section
variable (H : WellFormed used c inode) (hp : p.Valid) (hs : Slot c inode p b w)
  (h0 : c.zoneAt inode p = 0) (hz : z ∉ used) (h : Written c c' b w z)
include H hp hs hz h

/-- The words of the tree after the write: only the word of `p` has changed. -/
theorem Written.word_slot {b' w' : ℕ} (hq : q.Valid) (hs' : Slot c inode q b' w') :
    c'.word b' w' = if q = p then z else c.zoneAt inode q := by
  have hne : b' ≠ z := fun he => hz (he ▸ hs'.mem_used H hq)
  rw [h, if_neg hne, ← hs'.zoneAt]
  by_cases hqp : q = p
  · subst hqp
    have : b' = b ∧ w' = w := by
      cases hs with
      | top h1 => cases hs' with
        | top => exact ⟨rfl, rfl⟩
        | child h2 => rw [h1] at h2; cases h2
      | child h1 => cases hs' with
        | top h2 => rw [h1] at h2; cases h2
        | child h2 => rw [h1] at h2; cases h2; exact ⟨rfl, rfl⟩
    rw [if_pos this, if_pos rfl]
  · rw [if_neg hqp, if_neg]
    rintro ⟨rfl, rfl⟩
    exact hqp (hs'.inj hs H hq hp)

include h0

/-- **Writing a fresh zone into an empty place changes that place only.** -/
theorem zoneAt_written (hq : q.Valid) :
    c'.zoneAt inode q = if q = p then z else c.zoneAt inode q := by
  -- a place below one for which it holds
  have hchild : ∀ q r : Place, q.Valid → q.parent = some r →
      c'.zoneAt inode r = (if r = p then z else c.zoneAt inode r) →
      c'.zoneAt inode q = if q = p then z else c.zoneAt inode q := by
    intro q r hq hr ih
    rw [zoneAt_child hr, ih]
    by_cases hrp : r = p
    · subst hrp
      rw [if_pos rfl, h.entry_new, if_neg (Place.parent_ne hr), zoneAt_child hr, h0]
      rfl
    · rw [if_neg hrp]
      by_cases hr0 : c.zoneAt inode r = 0
      · have hqp : q ≠ p := by
          rintro rfl
          cases hs with
          | top h1 => rw [h1] at hr; cases hr
          | child h1 h2 => rw [h1] at hr; cases hr; exact h2 hr0
        rw [if_neg hqp, zoneAt_child hr, hr0]
        rfl
      · rw [Cache.entry, if_neg hr0]
        exact h.word_slot H hp hs hz hq (.child hr hr0)
  have htop : ∀ q : Place, q.Valid → q.parent = none →
      c'.zoneAt inode q = if q = p then z else c.zoneAt inode q := by
    intro q hq hn
    rw [zoneAt_top hn]
    exact h.word_slot H hp hs hz hq (.top hn)
  cases q with
  | top i => exact htop _ hq rfl
  | ind j => exact hchild _ _ hq rfl (htop (.top 7) (by simp [Place.Valid]) rfl)
  | dbl j => exact hchild _ _ hq rfl (htop (.top 8) (by simp [Place.Valid]) rfl)
  | leaf i j =>
    exact hchild _ _ hq rfl (hchild (.dbl i) _ hq.1 rfl (htop (.top 8) (by simp [Place.Valid]) rfl))

/-- The tree stays well formed. -/
theorem WellFormed.written (hz0 : z ≠ 0) : WellFormed (insert z used) c' inode := by
  have hzone := fun {q : Place} (hq : q.Valid) => zoneAt_written H hp hs h0 hz h hq
  have hold : ∀ q : Place, q.Valid → c.zoneAt inode q ≠ z := fun q hq he =>
    hz (he ▸ H.alloc q hq (he ▸ hz0))
  refine ⟨H.slot, Or.inr H.buf, fun q hq => ?_, fun q r hq hr hq0 he => ?_, fun q hq hq0 => ?_⟩
  · rw [hzone hq]
    split_ifs
    · exact Or.inl fun he => hz (he ▸ H.buf)
    · exact H.buf_ne q hq
  · rw [hzone hq] at he hq0
    rw [hzone hr] at he
    by_cases hqp : q = p <;> by_cases hrp : r = p
    · rw [hqp, hrp]
    · rw [if_pos hqp, if_neg hrp] at he; exact absurd he.symm (hold r hr)
    · rw [if_neg hqp, if_pos hrp] at he; exact absurd he (hold q hq)
    · rw [if_neg hqp] at he hq0; rw [if_neg hrp] at he; exact H.distinct q r hq hr hq0 he
  · rw [hzone hq] at hq0 ⊢
    split_ifs at hq0 ⊢
    · exact Or.inl rfl
    · exact Or.inr (H.alloc q hq hq0)

end

end Write

end Rdix
