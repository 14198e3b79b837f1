/-
  Which file blocks the block map keeps apart (fs/minix1/bmap.c: bmap).

  * `Grows` is what a call may do to a well-formed inode: it adds zones, and changes neither
    the zones that are there nor the data of the file;
  * `bmap_spec`: for the blocks whose positions on all levels agree (`GoodBlock`) a call
    does that and returns the zone of the place that the format gives to the block;
  * `bmap_apart_iff`: for every other block it does not.
-/
import Rdix.Fs.Bmap

namespace Rdix

variable {A : Type}

/-- How a call ends when no zone is free. -/
abbrev diskFull : Halt := .assert "block_nr != EOF"

/-! ## What one turn of the loop does -/

/-- The inode stays well formed and only gains zones, and no data block of the file changes. -/
structure Grows (used : A → Set ℕ) (inode : MInode) (e e' : Env A) : Prop where
  wf : WellFormed (used e'.alloc) e'.cache inode
  keep : ∀ q : Place, q.Valid → e.cache.zoneAt inode q ≠ 0 →
    e'.cache.zoneAt inode q = e.cache.zoneAt inode q
  data : ∀ z, e.cache.DataZone inode z → e'.cache.data z = e.cache.data z

section Turn
variable {used : A → Set ℕ} {inode : MInode} {e e' e'' : Env A}

theorem Grows.refl (H : WellFormed (used e.alloc) e.cache inode) : Grows used inode e e :=
  ⟨H, fun _ _ _ => rfl, fun _ _ => rfl⟩

theorem Grows.dataZone (h : Grows used inode e e') {z : ℕ} (hz : e.cache.DataZone inode z) :
    e'.cache.DataZone inode z := by
  obtain ⟨p, hp, hi, h0, rfl⟩ := hz
  exact ⟨p, hp, hi, h0, h.keep p hp h0⟩

theorem Grows.trans (h : Grows used inode e e') (h' : Grows used inode e' e'') :
    Grows used inode e e'' where
  wf := h'.wf
  keep q hq h0 := by
    have h1 := h.keep q hq h0
    rw [h'.keep q hq (h1 ▸ h0), h1]
  data z hz := (h'.data z (h.dataZone hz)).trans (h.data z hz)

/-- Taking and giving back references does not count. -/
theorem Grows.congr (h : Grows used inode e e') (ha : e''.alloc = e'.alloc)
    (hd : e''.cache.data = e'.cache.data) : Grows used inode e e'' where
  wf := ha ▸ h.wf.congr hd
  keep q hq h0 := (zoneAt_congr inode hd q).trans (h.keep q hq h0)
  data z hz := (congrFun hd z).trans (h.data z hz)

/-- A place that lies in a block stays there. -/
theorem Slot.grows {p : Place} {b w : ℕ} (hs : Slot e.cache inode p b w) (hp : p.Valid)
    (h : Grows used inode e e') : Slot e'.cache inode p b w := by
  cases hs with
  | top h1 => exact .top h1
  | child h1 h0 =>
    have hk := h.keep _ (Place.parent_valid hp h1).1 h0
    rw [← hk]
    exact .child h1 (hk ▸ h0)

section
variable {balloc : A → C (A × ℕ)} (hA : AllocOk balloc used) (create : Bool) {p : Place}
  {array : U16Ptr} {index : ℕ} (buf : ℕ)

theorem Env.get_slot (hs : Slot e.cache inode p array.blk (array.off + index))
    (hb : array.off + index < zonesIdxPerBlock) :
    e.get array index = .ok (e.cache.zoneAt inode p) := by
  rw [Env.get, if_pos hb, hs.zoneAt]

include hA

/-- `createZone` at an empty place of the tree writes a fresh zone there and clears it. -/
theorem createZone_spec (H : WellFormed (used e.alloc) e.cache inode) (hp : p.Valid)
    (hs : Slot e.cache inode p array.blk (array.off + index)) (h0 : e.cache.zoneAt inode p = 0) :
    createZone balloc e array index buf = .error diskFull ∨
    ∃ e', createZone balloc e array index buf = .ok e' ∧ Grows used inode e e' ∧
      e'.cache.zoneAt inode p ≠ 0 := by
  cases hba : balloc e.alloc with
  | error h => exact Or.inl (by rw [createZone, hba, hA.full _ _ hba]; rfl)
  | ok r =>
    obtain ⟨a, z⟩ := r
    obtain ⟨hz, hu⟩ := hA.fresh _ _ _ hba
    obtain ⟨hz0, hz16⟩ := hA.range _ _ _ hba
    have hne : z ≠ array.blk := fun h => hz (h ▸ hs.mem_used H hp)
    refine Or.inr ⟨_, by rw [createZone, hba]; rfl, ?_⟩
    have htmp : (e.cache.setWord array.blk (array.off + index) z).word array.blk
        (array.off + index) = z := by
      rw [Cache.word_setWord, if_pos ⟨rfl, rfl⟩, Nat.mod_eq_of_lt hz16]
    -- only the entry and the zone itself are written
    have hw : Written e.cache (((((e.cache.setWord array.blk (array.off + index) z).bread z).zero
        z).mark z).brelse z |>.mark buf) array.blk (array.off + index) z := by
      intro m j
      have hd : ∀ c : Cache, ((c.mark z).brelse z |>.mark buf).word m j = c.word m j := fun c => by
        simp [Cache.word]
      rw [hd, Cache.word_zero]
      by_cases hm : m = z
      · rw [if_pos hm, if_pos hm]
      · rw [if_neg hm, if_neg hm]
        exact (Cache.word_setWord ..).trans (by rw [Nat.mod_eq_of_lt hz16])
    have hzone := fun {q : Place} (hq : q.Valid) => zoneAt_written H hp hs h0 hz hw hq
    simp only [htmp]
    refine ⟨⟨hu ▸ H.written hp hs h0 hz hw (by omega), fun q hq hq0 => ?_, fun d hd => ?_⟩, ?_⟩
    · rw [hzone hq, if_neg]
      rintro rfl
      exact hq0 h0
    · have hdb : d ≠ array.blk := by
        rintro rfl
        exact hs.not_data H hp hd
      have hdz : d ≠ z := by
        obtain ⟨q, hq, -, hd0, rfl⟩ := hd
        rintro rfl
        exact hz (H.alloc q hq hd0)
      simp [Cache.zero, Cache.setWord, hdb, hdz]
    · rw [hzone hp, if_pos rfl]
      omega

/-- The first half of a turn, at a place of the tree. -/
theorem ensureZone_spec (H : WellFormed (used e.alloc) e.cache inode) (hp : p.Valid)
    (hs : Slot e.cache inode p array.blk (array.off + index))
    (hb : array.off + index < zonesIdxPerBlock) :
    (create = true ∧ ensureZone balloc create e array index buf = .error diskFull) ∨
    ∃ e', ensureZone balloc create e array index buf = .ok (e', e'.cache.zoneAt inode p) ∧
      Grows used inode e e' ∧ (create = true → e'.cache.zoneAt inode p ≠ 0) := by
  unfold ensureZone
  simp only [Env.get_slot hs hb, ok_bind]
  by_cases h : e.cache.zoneAt inode p = 0 ∧ create = true
  · rw [if_pos h]
    rcases createZone_spec hA buf H hp hs h.1 with he | ⟨e', he, hg, h0⟩
    · exact Or.inl ⟨h.2, by rw [he]; rfl⟩
    · exact Or.inr ⟨e', by simp [he, Env.get_slot (hs.grows hp hg) hb], hg, fun _ => h0⟩
  · rw [if_neg h]
    exact Or.inr ⟨e, by simp [Env.get_slot hs hb], .refl H, fun hc h0 => h ⟨h0, hc⟩⟩

end

end Turn

/-! ## The blocks for which the positions agree -/

/-- The loop, entered at the place `r` with position `i`, ends at the place `p` and finds position
    `i` on each level. -/
def Path (i : ℕ) : ℕ → Place → ℕ → ℕ → Place → Prop
  | 0, r, _, _, p => p = r
  | level + 1, r, block, divider, p => block / divider % 2 ^ 16 = i ∧ ∃ r' : Place,
    r'.Valid ∧ r'.parent = some r ∧ r'.idx = i ∧
      Path i level r' (block % divider) (divider / zonesIdxPerBlock) p

/-- Below a missing index block there is nothing. -/
theorem Path.zoneAt_zero {c : Cache} {inode : MInode} {i level : ℕ} {r p : Place}
    {block divider : ℕ} (h : Path i level r block divider p) (h0 : c.zoneAt inode r = 0) :
    c.zoneAt inode p = 0 := by
  induction level generalizing r block divider with
  | zero =>
    obtain rfl := h
    exact h0
  | succ level ih =>
    obtain ⟨-, r', -, hr, -, h⟩ := h
    refine ih h ?_
    rw [zoneAt_child hr, h0]
    rfl

/-- The place that the format gives to a file block. -/
def Place.ofBlock (n : ℕ) : Place :=
  if n < 7 then .top n
  else if n < 526 then .ind (n - 7)
  else .leaf ((n - 526) / zonesIdxPerBlock) ((n - 526) % zonesIdxPerBlock)

/-- The blocks whose positions on all levels agree. -/
def GoodBlock (n : ℕ) : Prop := n < 7 ∨ n = 14 ∨ n = 4630

instance (n : ℕ) : Decidable (GoodBlock n) := inferInstanceAs (Decidable (_ ∨ _))

theorem GoodBlock.valid {n : ℕ} (h : GoodBlock n) :
    (Place.ofBlock n).Valid ∧ ¬ (Place.ofBlock n).Index := by
  rcases h with h | rfl | rfl
  · rw [Place.ofBlock, if_pos h]
    simp only [Place.Valid, Place.Index]
    omega
  · decide
  · decide

theorem GoodBlock.inj {n m : ℕ} (hn : GoodBlock n) (hm : GoodBlock m)
    (h : Place.ofBlock n = Place.ofBlock m) : n = m := by
  rcases hn with hn | rfl | rfl <;> rcases hm with hm | rfl | rfl <;>
    simp_all [Place.ofBlock]

section Loop
variable {used : A → Set ℕ} {inode : MInode} {balloc : A → C (A × ℕ)} (hA : AllocOk balloc used)
include hA

/-- **The loop along a path.** -/
theorem bmapReckon_spec {create : Bool} {level : ℕ} {e : Env A} {a : U16Ptr}
    {index block divider buf : ℕ} {buf_1 buf_2 : Option ℕ} {r p : Place}
    (H : WellFormed (used e.alloc) e.cache inode) (hr : r.Valid)
    (hs : Slot e.cache inode r a.blk (a.off + index))
    (hb : a.off + index < zonesIdxPerBlock) (hi : index < zonesIdxPerBlock)
    (h : Path index level r block divider p) :
    (create = true ∧
      bmapReckon balloc create level e a index block divider buf buf_1 buf_2 =
        .error diskFull) ∨
    ∃ e', bmapReckon balloc create level e a index block divider buf buf_1 buf_2 =
        .ok (e', e'.cache.zoneAt inode p) ∧
      Grows used inode e e' ∧ (create = true → e'.cache.zoneAt inode p ≠ 0) := by
  -- a return only gives references back
  have hret : ∀ e₁ : Env A, Grows used inode e e₁ →
      Grows used inode e (e₁.release buf_1 buf_2) ∧
      ∀ q, (e₁.release buf_1 buf_2).cache.zoneAt inode q = e₁.cache.zoneAt inode q := fun e₁ hg =>
    ⟨hg.congr rfl (by simp [Env.release]), zoneAt_congr inode (by simp [Env.release])⟩
  induction level generalizing e a block divider buf buf_1 buf_2 r with
  | zero =>
    obtain rfl := h
    rcases ensureZone_spec hA create buf H hr hs hb with ⟨hc, he⟩ | ⟨e₁, he, hg, h0⟩
    · exact Or.inl ⟨hc, by rw [bmapReckon, he]; rfl⟩
    · refine Or.inr ⟨e₁.release buf_1 buf_2, ?_, (hret e₁ hg).1, ?_⟩
      · simp only [bmapReckon, he, ok_bind, pure_eq_ok, (hret e₁ hg).2]
      · simpa only [(hret e₁ hg).2] using h0
  | succ level ih =>
    rcases ensureZone_spec hA create buf H hr hs hb with ⟨hc, he⟩ | ⟨e₁, he, hg, h0⟩
    · exact Or.inl ⟨hc, by rw [bmapReckon, he]; rfl⟩
    simp only [bmapReckon, he, ok_bind]
    by_cases hv : e₁.cache.zoneAt inode r = 0
    · -- a missing index block: nothing is mapped below it
      have hc : create ≠ true := fun hc => h0 hc hv
      refine Or.inr ⟨e₁.release buf_1 buf_2, ?_, (hret e₁ hg).1, fun h => absurd h hc⟩
      rw [if_pos hv, (hret e₁ hg).2, h.zoneAt_zero hv, hv]
      rfl
    obtain ⟨hidx, r', hr', hpar, hri, hpath⟩ := h
    have hs₁ := hs.grows hr hg
    simp only [if_neg hv, hidx, Env.get_slot hs₁ hb, ok_bind]
    -- the block that is read is the index block at `r`
    generalize hblk : e₁.cache.zoneAt inode r = blk at hv
    have hg₂ : Grows used inode e { e₁ with cache := e₁.cache.bread blk } := hg.congr rfl rfl
    have hz : (e₁.cache.bread blk).zoneAt inode r = blk := (zoneAt_congr inode rfl r).trans hblk
    have hs₂ : Slot (e₁.cache.bread blk) inode r' blk (0 + index) := by
      have := @Slot.child (e₁.cache.bread blk) inode _ _ hpar (by rwa [hz])
      rwa [hz, hri, ← Nat.zero_add index] at this
    have hb₂ : 0 + index < zonesIdxPerBlock := by rwa [Nat.zero_add]
    split_ifs
    all_goals
      refine (ih (a := ⟨blk, 0⟩) (e := { e₁ with cache := e₁.cache.bread blk }) hg₂.wf hr' hs₂ hb₂
        hpath fun e₂ hg' => ⟨hg'.congr rfl (by simp [Env.release]),
          zoneAt_congr inode (by simp [Env.release])⟩).imp id ?_
      rintro ⟨e', he', hg', h0'⟩
      exact ⟨e', he', hg₂.trans hg', h0'⟩

/-- **A call for a good block maps it at its place**, or finds the disk full. -/
theorem bmap_spec (create : Bool) {zones n : ℕ} {e : Env A}
    (H : WellFormed (used e.alloc) e.cache inode) (hn : GoodBlock n) (hz : n < zones) :
    (create = true ∧ bmap balloc zones e inode n create = .error diskFull) ∨
    ∃ e', bmap balloc zones e inode n create = .ok (e', e'.cache.zoneAt inode (.ofBlock n)) ∧
      Grows used inode e e' ∧ (create = true → e'.cache.zoneAt inode (.ofBlock n) ≠ 0) := by
  have hassert : (0 : ℤ) ≤ n ∧ (n : ℤ) < zones := by omega
  have hslot := H.slot
  have htop : ∀ i, i < 9 → Slot e.cache inode (.top i) inode.zone.blk (inode.zone.off + i) ∧
      inode.zone.off + i < zonesIdxPerBlock := fun i hi =>
    ⟨.top rfl, by simp only [MInode.zone, zonesIdxPerBlock, blockSize]; omega⟩
  unfold bmap
  simp only [cassert_pos hassert, ok_bind, Int.toNat_natCast]
  rcases hn with hn | rfl | rfl
  · rw [if_pos hn]
    obtain ⟨hs, hb⟩ := htop n (by omega)
    exact bmapReckon_spec hA H (show Place.Valid (.top n) from (by omega : n < 9)) hs hb
      (by simp only [zonesIdxPerBlock, blockSize]; omega) (by simp [Path, Place.ofBlock, hn])
  · obtain ⟨hs, hb⟩ := htop 7 (by omega)
    exact bmapReckon_spec hA H (by decide) hs hb (by decide)
      ⟨by decide, .ind 7, by decide, rfl, rfl, rfl⟩
  · obtain ⟨hs, hb⟩ := htop 8 (by omega)
    exact bmapReckon_spec hA H (by decide) hs hb (by decide)
      ⟨by decide, .dbl 8, by decide, rfl, rfl, by decide, .leaf 8 8, by decide, rfl, rfl, rfl⟩

end Loop

/-! ## Two file blocks -/

/-- The call returns, or finds the disk full, and changes no data block of the file. -/
def Harmless (balloc : A → C (A × ℕ)) (zones : ℕ) (inode : MInode) (e : Env A) (n : ℕ)
    (create : Bool) : Prop :=
  Ends (bmap balloc zones e inode n create)
    (fun r => ∀ z, e.cache.DataZone inode z → r.1.cache.data z = e.cache.data z)
    fun h => create = true ∧ h = diskFull

/-- What the block map promises for the file blocks `n` and `m`, mapped in this order. -/
structure MapsApart (balloc : A → C (A × ℕ)) (zones : ℕ) (inode : MInode) (e : Env A) (n m : ℕ) :
    Prop where
  first : Harmless balloc zones inode e n true
  second : ∀ e₁ z₁, bmap balloc zones e inode n true = .ok (e₁, z₁) →
    Harmless balloc zones inode e₁ m true
  apart : ∀ e₁ z₁ e₂ z₂, bmap balloc zones e inode n true = .ok (e₁, z₁) →
    bmap balloc zones e₁ inode m true = .ok (e₂, z₂) →
    z₁ ≠ 0 ∧ z₂ ≠ 0 ∧ z₁ ≠ z₂ ∧ ¬ e₂.cache.IndexZone inode z₁ ∧ ¬ e₂.cache.IndexZone inode z₂
  again : ∀ e₁ z₁ e₂ z₂, bmap balloc zones e inode n true = .ok (e₁, z₁) →
    bmap balloc zones e₁ inode m true = .ok (e₂, z₂) →
    (Harmless balloc zones inode e₂ n false ∧ ∃ e₃, bmap balloc zones e₂ inode n false = .ok (e₃, z₁)) ∧
    (Harmless balloc zones inode e₂ m false ∧ ∃ e₃, bmap balloc zones e₂ inode m false = .ok (e₃, z₂))

/-- The promise, for every allocator and every well-formed inode. -/
def Apart (n m : ℕ) : Prop :=
  ∀ (A : Type) (balloc : A → C (A × ℕ)) (used : A → Set ℕ), AllocOk balloc used →
    ∀ zones < 2 ^ 16, n < zones → m < zones → ∀ (e : Env A) (inode : MInode),
      WellFormed (used e.alloc) e.cache inode → MapsApart balloc zones inode e n m

section Good
variable {used : A → Set ℕ} {inode : MInode} {balloc : A → C (A × ℕ)} {zones n m : ℕ} {e : Env A}

/-- The zone of a good block is no index block. -/
theorem GoodBlock.not_index (hn : GoodBlock n) (H : WellFormed (used e.alloc) e.cache inode)
    (h0 : e.cache.zoneAt inode (.ofBlock n) ≠ 0) :
    ¬ e.cache.IndexZone inode (e.cache.zoneAt inode (.ofBlock n)) := by
  rintro ⟨p, hp, hi, -, hz⟩
  exact hn.valid.2 (H.distinct p _ hp hn.valid.1 (hz ▸ h0) hz ▸ hi)

variable (hA : AllocOk balloc used)
include hA

theorem GoodBlock.harmless {create : Bool} (hn : GoodBlock n) (hz : n < zones)
    (H : WellFormed (used e.alloc) e.cache inode) : Harmless balloc zones inode e n create := by
  unfold Harmless
  rcases bmap_spec hA create H hn hz with ⟨hc, he⟩ | ⟨e', he, hg, -⟩
  · rw [he, ends_error]; exact ⟨hc, rfl⟩
  · rw [he, ends_ok]; exact hg.data

/-- A block that is mapped is found again. -/
theorem GoodBlock.again (hn : GoodBlock n) (hz : n < zones)
    (H : WellFormed (used e.alloc) e.cache inode) (h0 : e.cache.zoneAt inode (.ofBlock n) ≠ 0) :
    ∃ e', bmap balloc zones e inode n false = .ok (e', e.cache.zoneAt inode (.ofBlock n)) := by
  rcases bmap_spec hA false H hn hz with ⟨hc, -⟩ | ⟨e', he, hg, -⟩
  · cases hc
  · exact ⟨e', by rw [he, hg.keep _ hn.valid.1 h0]⟩

/-- Good blocks are kept apart. -/
theorem GoodBlock.mapsApart (hn : GoodBlock n) (hm : GoodBlock m) (hnm : n ≠ m) (hnz : n < zones)
    (hmz : m < zones) (H : WellFormed (used e.alloc) e.cache inode) :
    MapsApart balloc zones inode e n m := by
  -- what the two calls have done
  have hcalls : ∀ {e₁ z₁ e₂ z₂}, bmap balloc zones e inode n true = .ok (e₁, z₁) →
      bmap balloc zones e₁ inode m true = .ok (e₂, z₂) →
      WellFormed (used e₂.alloc) e₂.cache inode ∧ z₁ ≠ 0 ∧ z₂ ≠ 0 ∧
        e₂.cache.zoneAt inode (.ofBlock n) = z₁ ∧ e₂.cache.zoneAt inode (.ofBlock m) = z₂ := by
    intro e₁ z₁ e₂ z₂ h₁ h₂
    rcases bmap_spec hA true H hn hnz with ⟨-, he⟩ | ⟨e', he, hg₁, h0₁⟩
    · rw [h₁] at he; cases he
    rw [h₁] at he; cases he
    rcases bmap_spec hA true hg₁.wf hm hmz with ⟨-, he⟩ | ⟨e', he, hg₂, h0₂⟩
    · rw [h₂] at he; cases he
    rw [h₂] at he; cases he
    exact ⟨hg₂.wf, h0₁ rfl, h0₂ rfl, hg₂.keep _ hn.valid.1 (h0₁ rfl), rfl⟩
  constructor
  · exact hn.harmless hA hnz H
  · intro e₁ z₁ h₁
    rcases bmap_spec hA true H hn hnz with ⟨-, he⟩ | ⟨e', he, hg₁, -⟩
    · rw [h₁] at he; cases he
    · rw [h₁] at he; cases he
      exact hm.harmless hA hmz hg₁.wf
  · intro e₁ z₁ e₂ z₂ h₁ h₂
    obtain ⟨H₂, h0₁, h0₂, rfl, rfl⟩ := hcalls h₁ h₂
    refine ⟨h0₁, h0₂, fun he => hnm ?_, hn.not_index H₂ h0₁, hm.not_index H₂ h0₂⟩
    exact hn.inj hm (H₂.distinct _ _ hn.valid.1 hm.valid.1 h0₁ he)
  · intro e₁ z₁ e₂ z₂ h₁ h₂
    obtain ⟨H₂, h0₁, h0₂, rfl, rfl⟩ := hcalls h₁ h₂
    exact ⟨⟨hn.harmless hA hnz H₂, hn.again hA hnz H₂ h0₁⟩,
      ⟨hm.harmless hA hmz H₂, hm.again hA hmz H₂ h0₂⟩⟩

end Good

/-! ## The other blocks -/

/-- A block with the 16-bit words `f`. -/
def wordBytes (f : ℕ → ℕ) : Bytes := fun i => BitVec.ofNat 8 (f (i / 2) / 256 ^ (i % 2))

theorem getU16_wordBytes (f : ℕ → ℕ) (i : ℕ) : getU16 (wordBytes f) i = f i % 2 ^ 16 := by
  have h1 : 2 * i / 2 = i ∧ 2 * i % 2 = 0 ∧ (2 * i + 1) / 2 = i ∧ (2 * i + 1) % 2 = 1 := by omega
  simp only [getU16, ByteMem.load, wordBytes, h1, BitVec.toNat_ofNat, pow_zero, pow_one, Nat.div_one]
  omega

/-- An allocator that hands out the zones in order. -/
def nextFree (a : ℕ) : C (ℕ × ℕ) := if 0 < a ∧ a < 2 ^ 16 then .ok (a + 1, a) else .error diskFull

theorem nextFree_ok : AllocOk nextFree Set.Iio where
  fresh a a' z h := by
    unfold nextFree at h
    split_ifs at h
    cases h
    refine ⟨lt_irrefl a, Set.ext fun b => ?_⟩
    simp only [Set.mem_Iio, Set.mem_insert_iff]
    omega
  range a a' z h := by
    unfold nextFree at h
    split_ifs at h with hc
    cases h
    exact hc
  full a h he := by
    unfold nextFree at he
    split_ifs at he
    cases he
    rfl

/-- The words of a file system in which a read of the wrong index block ends in zone 17, the
    indirect block of the inode: the inode's `zone` is in block 5 from word 503 on, 10 to 16 are
    its direct blocks, `z8` its double indirect block, and `fill` is what the direct blocks hold. -/
def trapWord (fill z8 : ℕ) : ℕ → ℕ → ℕ
  | 5, w => if w = 510 then 17 else if w = 511 then z8 else if 503 ≤ w ∧ w < 510 then w - 493 else 0
  | 0, _ | 9, _ | 19, _ => 17
  | 17, w => if w = 7 then 19 else 0
  | 18, w => if w = 8 then 8 else 0
  | b, _ => if 10 ≤ b ∧ b ≤ 16 then fill else 0

/-- That file system; the zones from 20 on are free. -/
def trap (fill z8 : ℕ) : Env ℕ where
  cache := ⟨fun b => wordBytes (trapWord fill z8 b), fun b => wordBytes (trapWord fill z8 b),
    fun _ => false, fun _ => 0⟩
  alloc := 20

/-- The last inode of block 5. -/
def trapInode : MInode := ⟨1, 32, 1, 5, 31⟩

section Trap
variable {fill z8 : ℕ}

theorem trap_word (hf : fill < 2 ^ 16) (h8 : z8 < 2 ^ 16) :
    (trap fill z8).cache.word = trapWord fill z8 := by
  ext b w
  refine (getU16_wordBytes _ w).trans (Nat.mod_eq_of_lt ?_)
  unfold trapWord
  split <;> try omega
  all_goals split_ifs <;> omega

/-- The zones of its tree. -/
theorem trap_zoneAt (hf : fill < 2 ^ 16) (h8 : z8 = 0 ∨ z8 = 18) {p : Place} (hp : p.Valid) :
    (trap fill z8).cache.zoneAt trapInode p = match p with
      | .top i => if i = 8 then z8 else 10 + i
      | .ind j => if j = 7 then 19 else 0
      | .dbl q => if z8 = 18 ∧ q = 8 then 8 else 0
      | .leaf _ _ => 0 := by
  have hw := trap_word hf (show z8 < 2 ^ 16 by omega)
  have htop : ∀ i, i < 9 → (trap fill z8).cache.top trapInode i = if i = 8 then z8 else 10 + i := by
    intro i hi
    have : trapInode.zone.blk = 5 ∧ trapInode.zone.off = 503 := ⟨rfl, rfl⟩
    simp only [Cache.top, hw, this, trapWord]
    split_ifs <;> omega
  have hdbl : ∀ q, (trap fill z8).cache.entry z8 q = if z8 = 18 ∧ q = 8 then 8 else 0 := by
    intro q
    rcases h8 with rfl | rfl
    · rfl
    · simp [Cache.entry, hw, trapWord]
  cases p with
  | top i => exact htop i hp
  | ind j => simp [Cache.zoneAt, htop, Cache.entry, hw, trapWord]
  | dbl q => simp [Cache.zoneAt, htop, hdbl]
  | leaf q j =>
    simp only [Cache.zoneAt, htop, hdbl, if_true, show (8 : ℕ) < 9 by decide]
    split_ifs
    · simp [Cache.entry, hw, trapWord]
    · rfl

theorem trap_wellFormed (hf : fill < 2 ^ 16) (h8 : z8 = 0 ∨ z8 = 18) :
    WellFormed (Set.Iio (trap fill z8).alloc) (trap fill z8).cache trapInode where
  slot := by decide
  buf := show 5 < 20 by decide
  buf_ne p hp := by
    rw [trap_zoneAt hf h8 hp]
    have : trapInode.buf = 5 := rfl
    cases p <;> simp only [this] <;> grind
  distinct p q hp hq h0 h := by
    rw [trap_zoneAt hf h8 hp] at h h0
    rw [trap_zoneAt hf h8 hq] at h
    cases p <;> cases q <;> simp only [Place.Valid] at hp hq h h0 <;> grind
  alloc p hp h0 := by
    rw [trap_zoneAt hf h8 hp] at h0 ⊢
    have : (trap fill z8).alloc = 20 := rfl
    simp only [Set.mem_Iio, this]
    cases p <;> simp only [Place.Valid] at hp h0 ⊢ <;> grind

end Trap

section Walk
variable {balloc : A → C (A × ℕ)} {create : Bool} {e : Env A} {W : ℕ → ℕ → ℕ} {array : U16Ptr}
  {level index block divider buf : ℕ} {buf_1 buf_2 : Option ℕ}

theorem Env.get_word (he : e.cache.word = W) (hb : array.off + index < zonesIdxPerBlock) :
    e.get array index = .ok (W array.blk (array.off + index)) := by
  rw [Env.get, if_pos hb, he]

theorem ensureZone_word (he : e.cache.word = W) (hb : array.off + index < zonesIdxPerBlock)
    (hv : W array.blk (array.off + index) ≠ 0) : ensureZone balloc create e array index buf =
      .ok (e, W array.blk (array.off + index)) := by
  simp [ensureZone, Env.get_word he hb, hv]

/-- The call returns `z` and has changed no word. -/
def Finds (W : ℕ → ℕ → ℕ) (a : A) (x : C (Env A × ℕ)) (z : ℕ) : Prop :=
  ∃ e, x = .ok (e, z) ∧ e.cache.word = W ∧ e.alloc = a

/-- The last turn, at a word that is not 0. -/
theorem bmapReckon_last {z : ℕ} (he : e.cache.word = W) (hb : array.off + index < zonesIdxPerBlock)
    (hz : W array.blk (array.off + index) = z) (h0 : z ≠ 0) :
    Finds W e.alloc (bmapReckon balloc create 0 e array index block divider buf buf_1 buf_2) z := by
  subst hz
  refine ⟨e.release buf_1 buf_2, by rw [bmapReckon, ensureZone_word he hb h0]; rfl, ?_, rfl⟩
  rw [← he]
  ext b w
  simp [Env.release, Cache.word]

/-- A turn above the last, at a word that is not 0: the next index block is found at the position
    `i` of the next level. -/
theorem bmapReckon_turn {i blk z : ℕ} (he : e.cache.word = W)
    (hb : array.off + index < zonesIdxPerBlock) (hv : W array.blk (array.off + index) ≠ 0)
    (hi : block / divider % 2 ^ 16 = i) (hb' : array.off + i < zonesIdxPerBlock)
    (hblk : W array.blk (array.off + i) = blk)
    (h : ∀ e' buf_1' buf_2', e'.cache.word = W → e'.alloc = e.alloc →
      Finds W e'.alloc (bmapReckon balloc create level e' ⟨blk, 0⟩ i (block % divider)
        (divider / zonesIdxPerBlock) blk buf_1' buf_2') z) :
    Finds W e.alloc
      (bmapReckon balloc create (level + 1) e array index block divider buf buf_1 buf_2) z := by
  simp only [bmapReckon, ensureZone_word he hb hv, ok_bind, if_neg hv, hi, Env.get_word he hb', hblk]
  split_ifs
  · exact h { e with cache := e.cache.bread blk } _ _ he rfl
  · exact h { e with cache := e.cache.bread blk } _ _ he rfl

/-- A position past the end of the block that `array` points into. -/
theorem bmapReckon_wild {i : ℕ} (he : e.cache.word = W)
    (hb : array.off + index < zonesIdxPerBlock) (hv : W array.blk (array.off + index) ≠ 0)
    (hi : block / divider % 2 ^ 16 = i) (hb' : ¬ array.off + i < zonesIdxPerBlock) :
    bmapReckon balloc create (level + 1) e array index block divider buf buf_1 buf_2 =
      .error (.wild "array") := by
  simp only [bmapReckon, ensureZone_word he hb hv, ok_bind, if_neg hv, hi]
  rw [Env.get, if_neg hb']
  rfl

end Walk

/-- What the first call does in the trap: it leaves the buffer, or it returns the indirect block. -/
def Caught (fill z8 n : ℕ) : Prop :=
  bmap nextFree 65535 (trap fill z8) trapInode n true = .error (.wild "array") ∨
  Finds (trapWord fill z8) 20 (bmap nextFree 65535 (trap fill z8) trapInode n true) 17

section Caught
variable {n : ℕ}

/-- A block of the first level: the index block is read from `zone[n - 7]`. -/
theorem caught_single (h7 : 7 ≤ n) (h526 : n < 526) (h14 : n ≠ 14) : Caught 17 0 n := by
  have hw := @trap_word 17 0 (by decide) (by decide)
  have hassert : (0 : ℤ) ≤ n ∧ (n : ℤ) < (65535 : ℕ) := by omega
  unfold Caught bmap
  simp only [cassert_pos hassert, ok_bind, Int.toNat_natCast, if_neg (show ¬ n < 7 by omega)]
  rw [if_pos (show n - 7 < 7 + zonesIdxPerBlock by simp only [zonesIdxPerBlock, blockSize]; omega)]
  have hv : trapWord 17 0 5 (503 + 7) ≠ 0 := by decide
  have hi : (n - 7) / 1 % 2 ^ 16 = n - 7 := by omega
  by_cases hb' : n - 7 < 9
  · right
    refine bmapReckon_turn hw (show 503 + 7 < 512 by decide) hv hi (show 503 + (n - 7) < 512 by omega)
      rfl fun e₁ _ _ hw₁ _ => bmapReckon_last hw₁ (show 0 + (n - 7) < 512 by omega) ?_ (by decide)
    rcases (by omega : n - 7 < 7 ∨ n - 7 = 8) with h | h
    · interval_cases n - 7 <;> rfl
    · rw [h]; rfl
  · left
    exact bmapReckon_wild hw (show 503 + 7 < 512 by decide) hv hi (show ¬ 503 + (n - 7) < 512 by omega)

/-- A block of the second level: the index blocks are read from `zone[q]` and from its entry `r`. -/
theorem caught_double (h526 : 526 ≤ n) (hlt : n < 65535) (h4630 : n ≠ 4630) : Caught 9 18 n := by
  have hw := @trap_word 9 18 (by decide) (by decide)
  have hassert : (0 : ℤ) ≤ n ∧ (n : ℤ) < (65535 : ℕ) := by omega
  unfold Caught bmap
  simp only [cassert_pos hassert, ok_bind, Int.toNat_natCast, if_neg (show ¬ n < 7 by omega)]
  rw [if_neg (show ¬ n - 7 < 7 + zonesIdxPerBlock by simp only [zonesIdxPerBlock, blockSize]; omega)]
  rw [cassert_pos (show n - 7 - (7 + zonesIdxPerBlock) < zonesIdxPerBlock * zonesIdxPerBlock + 7 +
    zonesIdxPerBlock by simp only [zonesIdxPerBlock, blockSize]; omega), ok_bind,
    show n - 7 - (7 + zonesIdxPerBlock) = n - 526 by simp only [zonesIdxPerBlock, blockSize]; omega]
  have hv : trapWord 9 18 5 (503 + 8) ≠ 0 := by decide
  obtain ⟨q, hq⟩ : ∃ q, (n - 526) / 512 = q := ⟨_, rfl⟩
  obtain ⟨r, hr⟩ : ∃ r, (n - 526) % 512 = r := ⟨_, rfl⟩
  have hi : (n - 526) / zonesIdxPerBlock % 2 ^ 16 = q := by
    simp only [zonesIdxPerBlock, blockSize]
    omega
  have hr' : (n - 526) % zonesIdxPerBlock / (zonesIdxPerBlock / zonesIdxPerBlock) % 2 ^ 16 = r := by
    simp only [zonesIdxPerBlock, blockSize]
    omega
  by_cases hb' : q < 9
  · right
    -- the block `x` that is taken for the double indirect block, and its entry `r`
    obtain ⟨x, hx⟩ : ∃ x, trapWord 9 18 5 (503 + q) = x := ⟨_, rfl⟩
    have hwords : trapWord 9 18 x (0 + q) ≠ 0 ∧ trapWord 9 18 (trapWord 9 18 x (0 + r)) (0 + r) = 17 := by
      have h8 : q = 8 → r ≠ 8 := by omega
      rw [Nat.zero_add, Nat.zero_add]
      rcases (by omega : q < 7 ∨ q = 7 ∨ q = 8) with h | h | h
      · obtain rfl : x = 10 + q := by
          rw [← hx]
          interval_cases q <;> rfl
        have hf : ∀ w, trapWord 9 18 (10 + q) w = 9 := fun w => by interval_cases q <;> rfl
        rw [hf, hf]
        exact ⟨by decide, rfl⟩
      · subst h
        obtain rfl : x = 17 := hx.symm.trans rfl
        refine ⟨by decide, ?_⟩
        by_cases h7 : r = 7
        · subst h7; rfl
        · rw [show trapWord 9 18 17 r = 0 from if_neg h7]
          rfl
      · subst h
        obtain rfl : x = 18 := hx.symm.trans rfl
        refine ⟨by decide, ?_⟩
        rw [show trapWord 9 18 18 r = 0 from if_neg (h8 rfl)]
        rfl
    refine bmapReckon_turn hw (show 503 + 8 < 512 by decide) hv hi (show 503 + q < 512 by omega) hx
      fun e₁ _ _ hw₁ _ => ?_
    refine bmapReckon_turn hw₁ (show 0 + q < 512 by omega) hwords.1 hr' (show 0 + r < 512 by omega)
      rfl fun e₂ _ _ hw₂ _ => ?_
    exact bmapReckon_last hw₂ (show 0 + r < 512 by omega) hwords.2 (by decide)
  · left
    exact bmapReckon_wild hw (show 503 + 8 < 512 by decide) hv hi (show ¬ 503 + q < 512 by omega)

end Caught

/-! ## No second call helps -/

/-- The entry of the indirect block is still there, and `k` zones are free. -/
structure Trapped (k : ℕ) (e : Env ℕ) : Prop where
  low : 5 < e.alloc
  free : e.alloc + k ≤ 2 ^ 16
  word : e.cache.word 5 510 = 17

section Trapped
variable {k : ℕ} {e : Env ℕ} {array : U16Ptr} {index block divider buf : ℕ} {create : Bool}

theorem Env.get_ends (e : Env ℕ) (array : U16Ptr) (index : ℕ) :
    Ends (e.get array index) (fun v => e.cache.word array.blk (array.off + index) = v)
      (· ≠ diskFull) := by
  unfold Env.get
  split_ifs <;> simp

/-- Only words that are 0 are written, and zones that are free. -/
theorem Trapped.createZone (h : Trapped (k + 1) e)
    (h0 : e.cache.word array.blk (array.off + index) = 0) :
    Ends (createZone nextFree e array index buf) (Trapped k) (· ≠ diskFull) := by
  have h1 := h.low
  have h2 := h.free
  have hz : nextFree e.alloc = .ok (e.alloc + 1, e.alloc) := if_pos (by omega)
  have htmp : (e.cache.setWord array.blk (array.off + index) e.alloc).word array.blk
      (array.off + index) = e.alloc := by
    rw [Cache.word_setWord, if_pos ⟨rfl, rfl⟩, Nat.mod_eq_of_lt (by omega)]
  simp only [Rdix.createZone, hz, ok_bind, htmp, pure_eq_ok, ends_ok]
  refine ⟨by simp only; omega, by simp only; omega, ?_⟩
  have hd : ∀ c : Cache, ((c.mark e.alloc).brelse e.alloc |>.mark buf).word 5 510 = c.word 5 510 :=
    fun c => by simp [Cache.word]
  have hne : ¬ (5 = array.blk ∧ 510 = array.off + index) := by
    rintro ⟨h5, h510⟩
    rw [← h5, ← h510, h.word] at h0
    cases h0
  refine (hd _).trans ?_
  rw [Cache.word_zero, if_neg (by omega)]
  exact (Cache.word_setWord ..).trans (by rw [if_neg hne, h.word])

theorem Trapped.ensureZone (h : Trapped (k + 1) e) :
    Ends (ensureZone nextFree create e array index buf) (fun r => Trapped k r.1) (· ≠ diskFull) := by
  have hlast : ∀ e', Trapped k e' → Ends (do let v ← e'.get array index; return (e', v))
      (fun r => Trapped k r.1) (· ≠ diskFull) := by
    intro e' he'
    refine (e'.get_ends array index).bind fun v _ => ?_
    exact (ends_ok _).2 he'
  refine (e.get_ends array index).bind fun v hv => ?_
  dsimp only
  split_ifs with hc
  · exact (h.createZone (hv.trans hc.1)).bind hlast
  · exact hlast e ⟨h.low, by have := h.free; omega, h.word⟩

theorem Trapped.release (h : Trapped k e) (buf_1 buf_2 : Option ℕ) :
    Trapped k (e.release buf_1 buf_2) :=
  ⟨h.low, h.free, by simpa [Env.release, Cache.word] using h.word⟩

theorem Trapped.bmapReckon {level : ℕ} {buf_1 buf_2 : Option ℕ} (h : Trapped (level + 1) e) :
    Ends (bmapReckon nextFree create level e array index block divider buf buf_1 buf_2)
      (fun r => Trapped 0 r.1) (· ≠ diskFull) := by
  induction level generalizing e array index block divider buf buf_1 buf_2 with
  | zero =>
    exact h.ensureZone.bind fun r hr => (ends_ok _).2 (hr.release _ _)
  | succ level ih =>
    refine h.ensureZone.bind ?_
    rintro ⟨e', v⟩ hr
    dsimp only at hr ⊢
    split_ifs
    · exact (ends_ok _).2 (Trapped.release ⟨hr.low, by have := hr.free; omega, hr.word⟩ _ _)
    all_goals
      refine (e'.get_ends _ _).bind fun blk _ => ih ?_
      exact ⟨hr.low, hr.free, hr.word⟩

theorem Trapped.bmap (h : Trapped 3 e) (create : Bool) (zones : ℕ) (inode : MInode) (m : ℤ) :
    Ends (bmap nextFree zones e inode m create) (fun r => Trapped 0 r.1) (· ≠ diskFull) := by
  have hk : ∀ k ≤ 3, Trapped k e := fun k hk => ⟨h.low, by have := h.free; omega, h.word⟩
  refine Ends.cassert_bind (fun _ => by simp) fun _ => ?_
  dsimp only
  split_ifs
  · exact (hk 1 (by omega)).bmapReckon
  · exact (hk 2 (by omega)).bmapReckon
  · exact Ends.cassert_bind (fun _ => by simp) fun _ => (hk 3 le_rfl).bmapReckon

end Trapped

/-- A bad block breaks the promise, whatever the other block is. -/
theorem not_apart {n m : ℕ} (hn : n < 65535) (hm : m < 65535) (hbad : ¬ GoodBlock n) :
    ¬ Apart n m := by
  intro h
  obtain ⟨fill, z8, hf, h8, hc⟩ : ∃ fill z8, fill < 2 ^ 16 ∧ (z8 = 0 ∨ z8 = 18) ∧
      Caught fill z8 n := by
    simp only [GoodBlock, not_or] at hbad
    rcases Nat.lt_or_ge n 526 with h526 | h526
    · exact ⟨17, 0, by decide, Or.inl rfl, caught_single (by omega) h526 hbad.2.1⟩
    · exact ⟨9, 18, by decide, Or.inr rfl, caught_double h526 hn hbad.2.2⟩
  have H := h ℕ nextFree Set.Iio nextFree_ok 65535 (by decide) hn hm (trap fill z8) trapInode
    (trap_wellFormed hf h8)
  rcases hc with hc | ⟨e₁, h₁, hw, ha⟩
  · cases (H.first.halt _ hc).2
  -- zone 17 is returned, and the second call leaves it the indirect block
  have h510 : e₁.cache.word 5 510 = 17 := by rw [hw]; rfl
  have hT : Trapped 3 e₁ := ⟨by omega, by omega, h510⟩
  have h2 := hT.bmap true 65535 trapInode m
  cases h₂ : bmap nextFree 65535 e₁ trapInode m true with
  | error x => exact h2.halt x h₂ ((H.second _ _ h₁).halt x h₂).2
  | ok r =>
    obtain ⟨-, -, -, hi, -⟩ := H.apart _ _ _ _ h₁ h₂
    exact hi ⟨.top 7, by decide, by decide, by decide, (h2.value r h₂).word⟩

/-- **The block map keeps two file blocks apart if and only if both are good.** -/
theorem bmap_apart_iff {n m : ℕ} (hnm : n ≠ m) (hn : n < 65535) (hm : m < 65535) :
    Apart n m ∧ Apart m n ↔ GoodBlock n ∧ GoodBlock m := by
  constructor
  · rintro ⟨h, h'⟩
    refine ⟨?_, ?_⟩
    · by_contra hbad
      exact not_apart hn hm hbad h
    · by_contra hbad
      exact not_apart hm hn hbad h'
  · rintro ⟨hg, hg'⟩
    exact ⟨fun A balloc used hA zones _ hnz hmz e inode H => hg.mapsApart hA hg' hnm hnz hmz H,
      fun A balloc used hA zones _ hmz hnz e inode H => hg'.mapsApart hA hg hnm.symm hmz hnz H⟩

/-- The last direct block and the one indirect block that is found. -/
theorem bmap_apart_6_14 : Apart 6 14 ∧ Apart 14 6 ↔ GoodBlock 6 ∧ GoodBlock 14 :=
  bmap_apart_iff (by decide) (by decide) (by decide)

/-- Block 7 of a file whose first block 10 holds zeros: the zone number of the new block is
    written into that first block. -/
theorem bmap_writes_data : WellFormed (Set.Iio (trap 0 18).alloc) (trap 0 18).cache trapInode ∧
    (trap 0 18).cache.DataZone trapInode 10 ∧
    ∃ e, bmap nextFree 65535 (trap 0 18) trapInode 7 true = .ok (e, 20) ∧
      getU16 ((trap 0 18).cache.data 10) 0 = 0 ∧ getU16 (e.cache.data 10) 0 = 20 := by
  refine ⟨trap_wellFormed (by decide) (Or.inr rfl), ⟨.top 0, by decide, by decide, by decide, rfl⟩, ?_⟩
  exact ⟨_, rfl, rfl, rfl⟩

end Rdix
