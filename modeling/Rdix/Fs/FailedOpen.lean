/-
  Opens that fail (fs/minix1/file.c: sys_open; fs/minix1/namei.c: inode_open).

  `inode_open` creates or truncates the file before `sys_open` looks for a descriptor.

  * `inodeBfree_data`, `inodeTruncate_top`: what a truncation does to the blocks, of any inode;
  * `openCreate_imaps`: a created file has taken a bit of the inode bitmap;
  * `failed_open_iff`: a failed open leaves everything as it was unless no descriptor is free and the
    open creates a file or truncates one that is not empty.
-/
import Rdix.Fs.Imap
import Rdix.Fs.Open
import Rdix.Fs.Resolve
import Rdix.Fs.Truncate

namespace Rdix

open ByteMem Function

/-! ## What leaves the inode bitmap alone -/

section Alloc
variable {A : Type} {balloc : A → C (A × ℕ)} {R : A → A → Prop}

theorem createZone_alloc (hb : ∀ a a' z, balloc a = .ok (a', z) → R a a') {e e' : Env A} {array : U16Ptr}
    {index buf : ℕ} (h : createZone balloc e array index buf = .ok e') : R e.alloc e'.alloc := by
  obtain ⟨⟨a, z⟩, ha, h⟩ := bind_eq_ok.1 h
  obtain rfl := Except.ok.inj h
  exact hb _ _ z ha

theorem ensureZone_alloc (hr : ∀ a, R a a) (hb : ∀ a a' z, balloc a = .ok (a', z) → R a a') {create : Bool}
    {e e' : Env A} {array : U16Ptr} {index buf v : ℕ}
    (h : ensureZone balloc create e array index buf = .ok (e', v)) : R e.alloc e'.alloc := by
  obtain ⟨v₁, -, h⟩ := bind_eq_ok.1 h
  dsimp only at h
  split_ifs at h
  · obtain ⟨e₁, he, h⟩ := bind_eq_ok.1 h
    obtain ⟨v₂, -, h⟩ := bind_eq_ok.1 h
    cases h
    exact createZone_alloc hb he
  · obtain ⟨e₁, he, h⟩ := bind_eq_ok.1 h
    obtain ⟨v₂, -, h⟩ := bind_eq_ok.1 h
    cases he
    cases h
    exact hr _

theorem bmapReckon_alloc (hr : ∀ a, R a a) (ht : ∀ a b c, R a b → R b c → R a c)
    (hb : ∀ a a' z, balloc a = .ok (a', z) → R a a') {create : Bool} {level : ℕ} {e e' : Env A}
    {array : U16Ptr} {index block divider buf z : ℕ} {buf_1 buf_2 : Option ℕ}
    (h : bmapReckon balloc create level e array index block divider buf buf_1 buf_2 = .ok (e', z)) :
    R e.alloc e'.alloc := by
  induction level generalizing e array index block divider buf buf_1 buf_2 with
  | zero =>
    obtain ⟨⟨e₁, v⟩, h₁, h⟩ := bind_eq_ok.1 h
    cases h
    have h₁' := ensureZone_alloc hr hb h₁
    exact h₁'
  | succ level ih =>
    obtain ⟨⟨e₁, v⟩, h₁, h⟩ := bind_eq_ok.1 h
    have h₁' := ensureZone_alloc hr hb h₁
    dsimp only at h
    by_cases hv : v = 0
    · rw [if_pos hv] at h
      cases h
      exact h₁'
    rw [if_neg hv] at h
    obtain ⟨blk, -, h⟩ := bind_eq_ok.1 h
    split_ifs at h
    · have hrest := ih h
      exact ht _ _ _ h₁' hrest
    · have hrest := ih h
      exact ht _ _ _ h₁' hrest

/-- What every allocation does to the allocator, `bmap` does. -/
theorem bmap_alloc (hr : ∀ a, R a a) (ht : ∀ a b c, R a b → R b c → R a c)
    (hb : ∀ a a' z, balloc a = .ok (a', z) → R a a') {create : Bool} {zones z : ℕ} {e e' : Env A}
    {inode : MInode} {block : ℤ} (h : bmap balloc zones e inode block create = .ok (e', z)) :
    R e.alloc e'.alloc := by
  obtain ⟨-, h⟩ := cassert_bind_eq_ok.1 h
  dsimp only at h
  split_ifs at h
  · exact bmapReckon_alloc hr ht hb h
  · exact bmapReckon_alloc hr ht hb h
  · obtain ⟨-, h⟩ := cassert_bind_eq_ok.1 h
    exact bmapReckon_alloc hr ht hb h

end Alloc

/-- The same inode bitmap, and the same place for the inodes. -/
structure Super.SameInodes (sb sb' : Super) : Prop where
  imaps : sb'.imaps = sb.imaps
  inodes : sb'.inodes = sb.inodes
  zmap_blocks : sb'.zmaps.length = sb.zmaps.length

namespace Super

theorem SameInodes.refl (sb : Super) : sb.SameInodes sb := ⟨rfl, rfl, rfl⟩

theorem SameInodes.trans {sb sb' sb'' : Super} (h : sb.SameInodes sb') (h' : sb'.SameInodes sb'') :
    sb.SameInodes sb'' :=
  ⟨h'.imaps.trans h.imaps, h'.inodes.trans h.inodes, h'.zmap_blocks.trans h.zmap_blocks⟩

theorem SameInodes.of_eq {sb sb' : Super} (h : sb' = sb) : sb.SameInodes sb' := h ▸ .refl sb'

end Super

theorem mapAlloc_length {offset : ℕ → ℕ} {limit : ℕ} {exp : String} {maps : List Buf} {i : ℕ}
    {r : List Buf × ℕ} (h : mapAlloc offset limit exp i maps = .ok (some r)) : r.1.length = maps.length := by
  induction maps generalizing i r with
  | nil => cases h
  | cons buf rest ih =>
    obtain ⟨⟨map, nr⟩, -, h⟩ := bind_eq_ok.1 h
    dsimp only at h
    split_ifs at h
    · obtain ⟨o, ho, h⟩ := bind_eq_ok.1 h
      obtain ⟨q, rfl, hq⟩ := Option.map_eq_some_iff.1 (Except.ok.inj h)
      rw [← hq]
      exact congrArg (· + 1) (ih ho)
    · obtain ⟨-, h⟩ := cassert_bind_eq_ok.1 h
      cases h
      rfl

theorem balloc_inodes {sb sb' : Super} {z : ℕ} (h : balloc sb = .ok (sb', z)) : sb.SameInodes sb' := by
  obtain ⟨o, ho, h⟩ := bind_eq_ok.1 h
  cases o with
  | none => cases h
  | some r =>
    cases h
    exact ⟨rfl, rfl, mapAlloc_length ho⟩

theorem bfree_inodes {sb sb' : Super} {z : ℕ} (h : bfree sb z = .ok sb') : sb.SameInodes sb' := by
  obtain ⟨maps, hm, h⟩ := bind_eq_ok.1 h
  cases h
  refine ⟨rfl, rfl, ?_⟩
  obtain ⟨-, hm⟩ := cassert_bind_eq_ok.1 hm
  obtain ⟨buf, -, hm⟩ := bind_eq_ok.1 hm
  obtain ⟨b, -, hm⟩ := bind_eq_ok.1 hm
  obtain ⟨-, hm⟩ := cassert_bind_eq_ok.1 hm
  obtain ⟨r, -, hm⟩ := bind_eq_ok.1 hm
  cases hm
  exact List.length_set

namespace Fs

variable {s s' t : Fs} {i dir : ℕ}

theorem bmap_inodes {block : ℤ} {create : Bool} {z : ℕ} (h : s.bmap i block create = .ok (s', z)) :
    s.sb.SameInodes s'.sb := by
  obtain ⟨⟨e, z'⟩, he, h⟩ := bind_eq_ok.1 h
  cases h
  exact bmap_alloc Super.SameInodes.refl (fun _ _ _ h h' => h.trans h') (fun _ _ _ h => balloc_inodes h) he

theorem addZone_inodes {entry_cnt : ℕ} {v v' : AddVars} (h : s.addZone dir entry_cnt i v = .ok (s', v')) :
    s.sb.SameInodes s'.sb := by
  unfold addZone at h
  split_ifs at h
  · obtain ⟨⟨s₁, block⟩, h₁, h⟩ := bind_eq_ok.1 h
    cases h
    have hs₁ := bmap_inodes h₁
    exact hs₁
  · cases h
    exact .refl _

theorem addLoop_inodes {entry_cnt n : ℕ} {v : AddVars} {r : AddRes}
    (h : addLoop dir entry_cnt n i s v = .ok r) : s.sb.SameInodes r.s.sb := by
  induction n generalizing i s v with
  | zero =>
    cases h
    exact .refl _
  | succ n ih =>
    obtain ⟨⟨s₁, v₁⟩, h₁, h⟩ := bind_eq_ok.1 h
    obtain ⟨-, h⟩ := cassert_bind_eq_ok.1 h
    obtain ⟨b, -, h⟩ := bind_eq_ok.1 h
    obtain ⟨nr, -, h⟩ := bind_eq_ok.1 h
    have hs₁ : (s.brelse? v.bf).sb.SameInodes s₁.sb := addZone_inodes h₁
    have hsb : (s.brelse? v.bf).sb = s.sb := rfl
    rw [hsb] at hs₁
    by_cases hnr : nr = 0
    · rw [if_pos hnr] at h
      cases h
      exact hs₁
    · rw [if_neg hnr] at h
      exact hs₁.trans (ih h)

theorem addEntry_inodes {name : Option CStr} {b : ℕ} {res : Option (ℕ × ℕ)}
    (h : s.addEntry dir name = .ok (s', b, res)) : s.sb.SameInodes s'.sb := by
  obtain ⟨-, h⟩ := cassert_bind_eq_ok.1 h
  obtain ⟨fname, -, h⟩ := bind_eq_ok.1 h
  obtain ⟨-, h⟩ := cassert_bind_eq_ok.1 h
  obtain ⟨⟨s₁, found⟩, h₁, h⟩ := bind_eq_ok.1 h
  have hs₁ : s.sb.SameInodes s₁.sb := .of_eq (findEntry_touched h₁).sb
  cases found with
  | some p =>
    cases h
    exact hs₁
  | none =>
    obtain ⟨r, hr, h⟩ := bind_eq_ok.1 h
    obtain ⟨b', -, h⟩ := bind_eq_ok.1 h
    obtain ⟨s₂, h₂, h⟩ := bind_eq_ok.1 h
    cases h
    have hs₂ : s₂.sb = r.s.sb := by
      unfold setName at h₂
      split_ifs at h₂
      cases h₂
      rfl
    exact (hs₁.trans (addLoop_inodes hr)).trans (.of_eq hs₂)

/-! ## Truncation of any inode -/

/-- What `inode_bfree` leaves alone. -/
structure Freed (s s' : Fs) : Prop where
  data : s'.cache.data = s.cache.data
  inode : s'.inode = s.inode
  sb : s.sb.SameInodes s'.sb

theorem Freed.refl (s : Fs) : s.Freed s := ⟨rfl, rfl, .refl _⟩

theorem Freed.trans {s'' : Fs} (h : s.Freed s') (h' : s'.Freed s'') : s.Freed s'' :=
  ⟨h'.data.trans h.data, h'.inode.trans h.inode, h.sb.trans h'.sb⟩

theorem bfree_freed {z : ℕ} (h : s.bfree z = .ok s') : s.Freed s' := by
  obtain ⟨sb, hb, h⟩ := bind_eq_ok.1 h
  cases h
  exact ⟨rfl, rfl, bfree_inodes hb⟩

theorem foldlM_freed {α : Type} {f : Fs → α → C Fs} (hf : ∀ s a s', f s a = .ok s' → s.Freed s')
    (as : List α) {s s' : Fs} (h : as.foldlM f s = .ok s') : s.Freed s' := by
  induction as generalizing s with
  | nil =>
    cases h
    exact .refl _
  | cons a as ih =>
    rw [List.foldlM_cons] at h
    obtain ⟨s₁, h₁, h⟩ := bind_eq_ok.1 h
    exact (hf _ _ _ h₁).trans (ih h)

/-- A release of zones writes no block. -/
theorem inodeBfree_freed {level : ℕ} {array : U16Ptr} {index : ℕ}
    (h : inodeBfree level s array index = .ok s') : s.Freed s' := by
  induction level generalizing s s' array index with
  | zero =>
    obtain ⟨v, -, h⟩ := bind_eq_ok.1 h
    split_ifs at h
    · cases h
      exact .refl _
    · exact bfree_freed h
  | succ level ih =>
    obtain ⟨v, -, h⟩ := bind_eq_ok.1 h
    split_ifs at h
    · cases h
      exact .refl _
    obtain ⟨s₁, h₁, h⟩ := bind_eq_ok.1 h
    obtain ⟨v', -, h⟩ := bind_eq_ok.1 h
    have hs₁ : (s.bread v).Freed s₁ := foldlM_freed (fun s k s' hs => ih hs) _ h₁
    have hr : s.Freed (s.bread v) := ⟨rfl, rfl, .refl _⟩
    have hb : s₁.Freed (s₁.brelse v) := ⟨brelse_data .., mapCache_inode .., .refl _⟩
    exact ((hr.trans hs₁).trans hb).trans (bfree_freed h)

/-- Zones of inode `i` become 0, and those that are stay so. -/
structure Cleared (s s' : Fs) (i : ℕ) : Prop where
  inode : s'.inode = s.inode
  sb : s.sb.SameInodes s'.sb
  zero : ∀ m, s.cache.top (s.inode i) m = 0 → s'.cache.top (s.inode i) m = 0

theorem Cleared.refl (s : Fs) (i : ℕ) : s.Cleared s i := ⟨rfl, .refl _, fun _ h => h⟩

theorem Cleared.trans {s'' : Fs} (h : s.Cleared s' i) (h' : s'.Cleared s'' i) : s.Cleared s'' i := by
  refine ⟨h'.inode.trans h.inode, h.sb.trans h'.sb, fun m hm => ?_⟩
  have hz := h'.zero m
  rw [h.inode] at hz
  exact hz (h.zero m hm)

theorem truncateZone_cleared {k : Fin 9} {level : ℕ} (h : s.truncateZone i k level = .ok s') :
    s.Cleared s' i ∧ s'.cache.top (s.inode i) k = 0 := by
  obtain ⟨t, ht, h⟩ := bind_eq_ok.1 h
  cases h
  have hf := inodeBfree_freed ht
  have htop : ∀ m, (t.setField i (.zone k) 0).cache.top (s.inode i) m =
      if m = k then 0 else s.cache.top (s.inode i) m := by
    intro m
    have hm := top_setField (i := i) t k m
    rw [hf.inode] at hm
    rw [hm]
    unfold Cache.top Cache.word
    rw [hf.data]
  refine ⟨⟨hf.inode, hf.sb, fun m hm => ?_⟩, ?_⟩
  · rw [htop, hm, ite_self]
  · rw [htop, if_pos rfl]

theorem truncateZones_cleared {ks : List (Fin 7)} (h : ks.foldlM (fun s k => s.truncateZone i
    (k.castLE (by decide)) 0) s = .ok s') :
    s.Cleared s' i ∧ ∀ k ∈ ks, s'.cache.top (s.inode i) k = 0 := by
  induction ks generalizing s with
  | nil =>
    cases h
    exact ⟨.refl _ _, fun k hk => absurd hk List.not_mem_nil⟩
  | cons k ks ih =>
    rw [List.foldlM_cons] at h
    obtain ⟨s₁, h₁, h⟩ := bind_eq_ok.1 h
    obtain ⟨hc, hk⟩ := truncateZone_cleared h₁
    obtain ⟨hc', hks⟩ := ih h
    rw [hc.inode] at hks
    refine ⟨hc.trans hc', fun j hj => ?_⟩
    rcases List.mem_cons.1 hj with rfl | hj
    · have hz := hc'.zero j
      rw [hc.inode] at hz
      exact hz hk
    · exact hks j hj

/-- **A truncation that returns has emptied the inode.** -/
theorem inodeTruncate_empty (hmode : ISFILE (s.field i .mode) ∨ ISDIR (s.field i .mode))
    (h : s.inodeTruncate i = .ok s') : s.sb.SameInodes s'.sb ∧ s'.inode = s.inode ∧
      (∀ k : Fin 9, s'.field i (.zone k) = 0) ∧ s'.field i .size = 0 := by
  unfold inodeTruncate at h
  rw [if_neg (by tauto)] at h
  obtain ⟨s₁, h₁, h⟩ := bind_eq_ok.1 h
  obtain ⟨s₂, h₂, h⟩ := bind_eq_ok.1 h
  obtain ⟨s₃, h₃, h⟩ := bind_eq_ok.1 h
  cases h
  obtain ⟨hc₁, hz₁⟩ := truncateZones_cleared h₁
  obtain ⟨hc₂, hz₂⟩ := truncateZone_cleared h₂
  obtain ⟨hc₃, hz₃⟩ := truncateZone_cleared h₃
  have hc := (hc₁.trans hc₂).trans hc₃
  have hi₂ : s₂.inode = s.inode := hc₂.inode.trans hc₁.inode
  rw [hi₂] at hz₃
  rw [hc₁.inode] at hz₂
  -- each of the nine zones is set to 0 in its turn, and stays so
  have htop : ∀ k : Fin 9, s₃.cache.top (s.inode i) k = 0 := by
    intro k
    have hk := k.isLt
    have hz₂' := hc₃.zero k
    rw [hi₂] at hz₂'
    rcases Nat.lt_or_ge k 7 with h7 | h7
    · have hz₁' := hc₂.zero k
      rw [hc₁.inode] at hz₁'
      exact hz₂' (hz₁' (hz₁ ⟨k, h7⟩ (List.mem_finRange _)))
    · rcases Nat.lt_or_ge k 8 with h8 | h8
      · have : k = 7 := Fin.ext (by show (k : ℕ) = 7; omega)
        rw [this] at hz₂' ⊢
        exact hz₂' hz₂
      · have : k = 8 := Fin.ext (by show (k : ℕ) = 8; omega)
        rw [this]
        exact hz₃
  refine ⟨hc.sb, hc.inode, fun k => ?_, ?_⟩
  · rw [field_zone]
    have hs := top_setSize (i := i) s₃ k 0
    rw [hc.inode] at hs
    have hi : ((s₃.setField i .size 0).markInode i).inode = s.inode := hc.inode
    rw [hi]
    exact hs.trans (htop k)
  · exact field_setField s₃ .size 0

/-- The value that a field has is stored. -/
theorem setField_same {f : DField} {v : ℕ} (h : s.field i f = v) :
    (s.setField i f v).cache.data = s.cache.data := by
  show update s.cache.data (s.inode i).buf _ = _
  rw [← h]
  unfold field Cache.get
  have hs : store (s.cache.data (s.inode i).buf) f.width ((s.inode i).slot * 32 + f.off)
    (load (s.cache.data (s.inode i).buf) f.width ((s.inode i).slot * 32 + f.off)) =
      s.cache.data (s.inode i).buf := store_load
  show update s.cache.data (s.inode i).buf (store (s.cache.data (s.inode i).buf) _ _ _) = _
  rw [hs, update_eq_self]

/-- Nothing is released for a zone that is 0. -/
theorem inodeBfree_zero {level : ℕ} {array : U16Ptr} {index : ℕ}
    (h0 : s.cache.word array.blk (array.off + index) = 0) (h : inodeBfree level s array index = .ok s') :
    s' = s := by
  have hget : ∀ v, s.env.get array index = .ok v → v = 0 := by
    intro v hv
    unfold Env.get at hv
    split_ifs at hv
    cases hv
    exact h0
  cases level with
  | zero =>
    obtain ⟨v, hv, h⟩ := bind_eq_ok.1 h
    rw [if_pos (hget v hv)] at h
    cases h
    rfl
  | succ level =>
    obtain ⟨v, hv, h⟩ := bind_eq_ok.1 h
    rw [if_pos (hget v hv)] at h
    cases h
    rfl

/-- The same blocks and the same inodes in memory. -/
structure Alike (s s' : Fs) : Prop where
  same : s.SameData s'
  inode : s'.inode = s.inode

theorem Alike.trans {s'' : Fs} (h : s.Alike s') (h' : s'.Alike s'') : s.Alike s'' :=
  ⟨h.same.trans h'.same, h'.inode.trans h.inode⟩

theorem Alike.field (h : s.Alike s') (i : ℕ) (f : DField) : s'.field i f = s.field i f := by
  unfold Fs.field Cache.get
  rw [h.same.data, h.inode]

theorem truncateZone_zero {k : Fin 9} {level : ℕ} (h0 : s.field i (.zone k) = 0)
    (h : s.truncateZone i k level = .ok s') : s.Alike s' := by
  obtain ⟨t, ht, h⟩ := bind_eq_ok.1 h
  cases h
  rw [field_zone] at h0
  obtain rfl := inodeBfree_zero h0 ht
  exact ⟨⟨setField_same ((field_zone t i k).trans h0), rfl⟩, rfl⟩

theorem truncateZones_zero {ks : List (Fin 7)} (h0 : ∀ k, s.field i (.zone k) = 0)
    (h : ks.foldlM (fun s k => s.truncateZone i (k.castLE (by decide)) 0) s = .ok s') : s.Alike s' := by
  induction ks generalizing s with
  | nil =>
    cases h
    exact ⟨.refl _, rfl⟩
  | cons k ks ih =>
    rw [List.foldlM_cons] at h
    obtain ⟨s₁, h₁, h⟩ := bind_eq_ok.1 h
    have ha := truncateZone_zero (h0 _) h₁
    refine ha.trans (ih (fun k => ?_) h)
    rw [ha.field]
    exact h0 k

/-- **The truncation of an empty inode changes nothing.** -/
theorem inodeTruncate_same (h0 : ∀ k, s.field i (.zone k) = 0) (hsize : s.field i .size = 0)
    (h : s.inodeTruncate i = .ok s') : s.SameData s' := by
  unfold inodeTruncate at h
  split_ifs at h
  · cases h
    exact .refl _
  obtain ⟨s₁, h₁, h⟩ := bind_eq_ok.1 h
  obtain ⟨s₂, h₂, h⟩ := bind_eq_ok.1 h
  obtain ⟨s₃, h₃, h⟩ := bind_eq_ok.1 h
  cases h
  have ha₁ := truncateZones_zero h0 h₁
  have ha₂ := ha₁.trans (truncateZone_zero ((ha₁.field i _).trans (h0 7)) h₂)
  have ha₃ := ha₂.trans (truncateZone_zero ((ha₂.field i _).trans (h0 8)) h₃)
  exact ha₃.same.trans ⟨setField_same ((ha₃.field i _).trans hsize), rfl⟩

/-! ## The new inode -/

/-- The bits are those of the data. -/
theorem mapBit_data {maps maps' : List Buf} (h : mapData maps' = mapData maps) (p : ℕ) :
    mapBit maps' p = mapBit maps p := by
  have hd : maps'[p / blockBits]?.map Buf.b_data = maps[p / blockBits]?.map Buf.b_data := by
    rw [← List.getElem?_map, ← List.getElem?_map]
    exact congrArg (·[p / blockBits]?) h
  unfold mapBit
  cases hb' : maps'[p / blockBits]? with
  | none =>
    rw [hb', Option.map_none] at hd
    rw [Option.map_eq_none_iff.1 hd.symm]
  | some b' =>
    rw [hb', Option.map_some] at hd
    obtain ⟨b, hb, hbb⟩ := Option.map_eq_some_iff.1 hd.symm
    rw [hb]
    dsimp only
    rw [Buf.map, Buf.map, hbb]

/-- A bit is taken. -/
theorem ialloc_imaps {sb sb' : Super} {nr : ℕ} (hmaps : sb.imaps.length ≤ 8)
    (h : Rdix.ialloc sb = .ok (some (sb', nr))) : mapData sb'.imaps ≠ mapData sb.imaps := by
  have hn : Numbered (blockBits * ·) 0 0 sb.imaps.length := fun k _ => by simp
  have hc : 0 + blockBits * sb.imaps.length < 2 ^ 31 := by
    simp only [blockBits, blockSize]
    omega
  obtain ⟨o, ho, h⟩ := bind_eq_ok.1 h
  rcases @mapAlloc_cases _ sb.inodes "inode_nr < sb->desc->inodes" sb.imaps 0 0 hn hc with
    ⟨p, hp, hb, -, he⟩ | ⟨-, he⟩
  · rw [he] at ho
    split_ifs at ho
    cases ho
    cases h
    intro hd
    have hbit := mapBit_put hp true p
    rw [if_pos rfl] at hbit
    have hsame : mapBit (mapPut sb.imaps p true) p = mapBit sb.imaps p := mapBit_data hd p
    rw [hbit, hb] at hsame
    cases hsame
  · rw [he] at ho
    cases ho
    cases h

/-- Without a free inode every bit is set. -/
theorem ialloc_none {sb : Super} (hmaps : sb.imaps.length ≤ 8) (h : Rdix.ialloc sb = .ok none) (p : ℕ) :
    mapBit sb.imaps p = true := by
  have hn : Numbered (blockBits * ·) 0 0 sb.imaps.length := fun k _ => by simp
  have hc : 0 + blockBits * sb.imaps.length < 2 ^ 31 := by
    simp only [blockBits, blockSize]
    omega
  obtain ⟨o, ho, h⟩ := bind_eq_ok.1 h
  rcases @mapAlloc_cases _ sb.inodes "inode_nr < sb->desc->inodes" sb.imaps 0 0 hn hc with
    ⟨q, -, -, -, he⟩ | ⟨hall, -⟩
  · rw [he] at ho
    split_ifs at ho
    cases ho
    cases h
  · by_contra hf
    have hf : mapBit sb.imaps p = false := by simpa using hf
    rw [hall p (lt_of_mapBit hf)] at hf
    cases hf

/-- What `ialloc` returns for none, stored in an entry, is not the number of an inode: there are fewer
    inodes, or one of them is free. -/
def Numbers (s : Fs) : Prop := s.sb.inodes < 0xFFFF ∨ ∃ nr, mapBit s.sb.imaps nr = false

theorem newInode_imaps {dev : ℤ} {res : Option (ℕ × ℕ)} (hS : s.Slots dev) (hdev : dev ≠ EOF)
    (hd : (s.inode dir).dev ≠ EOF) (hmaps : s.sb.imaps.length ≤ 8) (hnum : s.Numbers)
    (h : s.newInode dir res = .ok (s', i)) : mapData s'.sb.imaps ≠ mapData s.sb.imaps := by
  obtain ⟨⟨s₁, nr⟩, h₁, h⟩ := bind_eq_ok.1 h
  obtain ⟨s₂, h₂, h⟩ := bind_eq_ok.1 h
  obtain ⟨p, hp, h⟩ := bind_eq_ok.1 h
  obtain ⟨nr', hnr', h⟩ := bind_eq_ok.1 h
  obtain ⟨p', hp', h₂⟩ := bind_eq_ok.1 h₂
  cases hp.symm.trans hp'
  cases h₂
  have hs' : s'.sb = s₁.sb := (iget_same h).sb
  obtain ⟨o, ho, h₁⟩ := bind_eq_ok.1 h₁
  cases o with
  | some r =>
    cases h₁
    rw [hs']
    exact ialloc_imaps hmaps ho
  | none =>
    cases h₁
    exfalso
    have hnr : nr' = 0xFFFF := by
      unfold dentry at hnr'
      split_ifs at hnr'
      cases hnr'
      show load (update s.cache.data p.1 _ p.1) 2 (16 * p.2) = _
      rw [update_self]
      exact load_store
    have hS₂ : (s.setDentry p 0xFFFF).Slots dev := hS.of_inode rfl rfl
    have hdir : ((s.setDentry p 0xFFFF).inode dir).dev = dev := hS.dev dir hd
    change (s.setDentry p 0xFFFF).iget ((s.setDentry p 0xFFFF).inode dir).dev nr' = _ at h
    rw [hdir] at h
    obtain ⟨hS', hn, hd', -⟩ := hS₂.iget hdev h
    have hle := hS'.le i (hd' ▸ hdev)
    rw [hn, hnr, hs'] at hle
    rcases hnum with hlt | ⟨q, hq⟩
    · exact absurd hle (Nat.not_le.2 hlt)
    · rw [ialloc_none hmaps ho q] at hq
      cases hq

/-- A field that stands elsewhere. -/
theorem field_setField_apart {f g : DField} {v : ℕ}
    (h : f.off + f.width ≤ g.off ∨ g.off + g.width ≤ f.off) : (s.setField i g v).field i f = s.field i f := by
  have hd : (s.setField i g v).cache.data (s.inode i).buf =
      store (s.cache.data (s.inode i).buf) g.width ((s.inode i).slot * 32 + g.off) v := update_self ..
  show load ((s.setField i g v).cache.data (s.inode i).buf) f.width ((s.inode i).slot * 32 + f.off) = _
  rw [hd]
  exact load_store_of_disjoint (by omega)

/-- A created file is not a directory. -/
theorem not_isdir_created (mode umask : ℕ) : ¬ ISDIR ((permBits mode umask ||| ifreg) % 256 ^ 2) := by
  have hp : permBits mode umask &&& 0o170000 = 0 := by
    unfold permBits
    rw [Nat.and_assoc, Nat.and_comm (0xFFFF - umask), ← Nat.and_assoc, Nat.and_assoc mode]
    simp
  have h16 : (permBits mode umask ||| ifreg) % 256 ^ 2 = (permBits mode umask ||| ifreg) &&& 0xFFFF :=
    (Nat.and_two_pow_sub_one_eq_mod _ 16).symm
  unfold ISDIR
  rw [h16, Nat.and_assoc, show (0xFFFF &&& 0o170000 : ℕ) = 0o170000 from rfl, Nat.and_or_distrib_right, hp]
  decide

theorem Slots.of_same_inodes {dev : ℤ} (h : s.Slots dev) (hsb : s.sb.SameInodes s'.sb)
    (hi : s'.inode = s.inode) : s'.Slots dev := by
  refine h.congr (fun n => ?_) hsb.inodes hi
  unfold Fs.inodeBlock Super.imap_blocks Super.zmap_blocks
  rw [hsb.imaps, hsb.zmap_blocks]

/-- **The creation of a file has taken an inode**, and made it a file. -/
theorem openCreate_imaps {task : FsTask} {fname : Option CStr} {mode buf : ℕ} {dev : ℤ}
    (hS : s.Slots dev) (hdev : dev ≠ EOF) (hd : (s.inode dir).dev ≠ EOF) (hmaps : s.sb.imaps.length ≤ 8)
    (hnum : s.Numbers) (h : s.openCreate task dir fname mode = .ok (s', buf, i)) :
    mapData s'.sb.imaps ≠ mapData s.sb.imaps ∧ ¬ ISDIR (s'.field i .mode) := by
  obtain ⟨⟨s₁, b, res⟩, h₁, h⟩ := bind_eq_ok.1 h
  obtain ⟨⟨s₂, k⟩, h₂, h⟩ := bind_eq_ok.1 h
  cases h
  have hsb := addEntry_inodes h₁
  have hinode := addEntry_inode h₁
  have hS₁ : s₁.Slots dev := hS.of_same_inodes hsb hinode
  have hnum₁ : s₁.Numbers := by
    unfold Numbers
    rw [hsb.imaps, hsb.inodes]
    exact hnum
  have himaps := newInode_imaps hS₁ hdev (hinode ▸ hd) (hsb.imaps ▸ hmaps) hnum₁ h₂
  rw [hsb.imaps] at himaps
  refine ⟨himaps, ?_⟩
  -- the mode stands apart from the fields that are set after it
  generalize ((s₂.mark buf).setField i .uid task.uid).setField i .gid task.gid = t
  have hlinks := field_setField_apart (i := i)
    (s := (t.setField i .mode (permBits mode task.umask ||| ifreg)).setField i .size 0) (f := .mode)
    (g := .nlinks) (v := 1) (Or.inl (by decide))
  have hsize := field_setField_apart (i := i) (s := t.setField i .mode (permBits mode task.umask ||| ifreg))
    (f := .mode) (g := .size) (v := 0) (Or.inl (by decide))
  have hmode := field_setField (i := i) t .mode (permBits mode task.umask ||| ifreg)
  have hfield := (hlinks.trans hsize).trans hmode
  intro hdir
  exact not_isdir_created mode task.umask ((congrArg ISDIR hfield).mp hdir)

/-! ## Paths -/

/-- `_namei(path, false)` goes to the directory of the last component. -/
theorem Slots.namei_stops {dev : ℤ} {task : FsTask} {path : CStr} {d : ℕ} (hdev : dev ≠ EOF)
    (hS : s.Slots dev) (hroot : (s.inode task.i_root).dev ≠ EOF) (hpwd : (s.inode task.i_pwd).dev ≠ EOF)
    (h : s._namei task path false = .ok (s', some d)) :
    s.SameData s' ∧ s'.Slots dev ∧ (s'.inode d).dev ≠ EOF ∧
      ∃ r, StopsAt s (s.inode task.i_root).nr (s.inode task.i_pwd).nr path (s'.inode d).nr r := by
  cases path with
  | nil => cases h
  | cons c cs =>
    have hinc : ∀ k, s.SameData (s.incCount k) := fun k => ⟨rfl, rfl⟩
    have hat : ∀ k, ((s.incCount k).inode k).dev = (s.inode k).dev := by
      intro k
      show (update s.inode k _ k).dev = _
      rw [update_self]
    have hnr : ∀ k, ((s.incCount k).inode k).nr = (s.inode k).nr := by
      intro k
      show (update s.inode k _ k).nr = _
      rw [update_self]
    unfold _namei at h
    dsimp only at h
    split_ifs at h with hc
    · obtain ⟨hsame, hS', hd, r, hr, -⟩ :=
        (hS.incCount hroot).nameiLoop_stops hdev ((hat _).symm ▸ hroot) h
      rw [hnr] at hr
      refine ⟨(hinc _).trans hsame, hS', hd, r, stopsAt_cons.2 ?_⟩
      rw [if_pos hc]
      exact hr.of_same (hinc _).symm
    · obtain ⟨hsame, hS', hd, r, hr, -⟩ :=
        (hS.incCount hpwd).nameiLoop_stops hdev ((hat _).symm ▸ hpwd) h
      rw [hnr] at hr
      refine ⟨(hinc _).trans hsame, hS', hd, r, stopsAt_cons.2 ?_⟩
      rw [if_neg hc]
      exact hr.of_same (hinc _).symm

/-- What `find_entry` finds in a directory is the entry, and it finds nothing if there is none. -/
theorem Slots.findEntry_cases {dev : ℤ} {d : ℕ} {name : CStr} {o : Option (ℕ × ℕ)} (hS : s.Slots dev)
    (hd : (s.inode d).dev ≠ EOF) (h : s.findEntry d (some name) = .ok (s', o)) :
    (o = none ∧ ∀ m, ¬ s.Entry (s.inode d).nr name m) ∨
      ∃ b j m, o = some (b, j) ∧ s.Entry (s.inode d).nr name m ∧ s'.dentry b j = .ok m := by
  have hmeans : ∀ m, s.Entry (s.inode d).nr name m → ∃ b j, o = some (b, j) ∧ s'.dentry b j = .ok m := by
    intro m he
    have hmean : s.Means d (some name) m := (ChdirState.means_iff (.refl s) hS hd).2 he
    obtain ⟨t, b, j, ht, hm⟩ := hmean
    cases h.symm.trans ht
    exact ⟨b, j, rfl, hm⟩
  cases o with
  | none =>
    refine Or.inl ⟨rfl, fun m he => ?_⟩
    obtain ⟨b, j, hb, -⟩ := hmeans m he
    cases hb
  | some p =>
    have he := hS.entry hd h
    obtain ⟨b, j, hb, hm⟩ := hmeans _ he
    exact Or.inr ⟨b, j, _, hb, he, hm⟩

end Fs

/-! ## Failed opens -/

/-- Blocks, bitmaps and descriptors are as they were. -/
structure TaskFiles.Unchanged (t t' : TaskFiles) : Prop where
  data : t'.fs.cache.data = t.fs.cache.data
  imaps : mapData t'.fs.sb.imaps = mapData t.fs.sb.imaps
  zmaps : mapData t'.fs.sb.zmaps = mapData t.fs.sb.zmaps
  files : t'.files = t.files
  file : t'.file = t.file

/-- The file with inode `m` is not empty, and an open with `flags` truncates it. -/
structure Fs.Truncates (s : Fs) (flags m : ℕ) : Prop where
  trunc : flags &&& oTrunc ≠ 0
  allowed : ¬ (ISDIR (s.nodeField m .mode) ∧ flags &&& oAccmode ≠ 0)
  kind : ISFILE (s.nodeField m .mode) ∨ ISDIR (s.nodeField m .mode)
  full : s.nodeField m .size ≠ 0 ∨ ∃ k, s.nodeField m (.zone k) ≠ 0

/-- An open creates the file that the path names, or truncates it. -/
def Fs.Modifies (s : Fs) (task : FsTask) (path : CStr) (flags : ℕ) : Prop :=
  ∃ k r name, StopsAt s (s.inode task.i_root).nr (s.inode task.i_pwd).nr path k r ∧
    filename path = .ok (some name) ∧
      (((∀ m, ¬ s.Entry k name m) ∧ flags &&& oCreat ≠ 0) ∨ ∃ m, s.Entry k name m ∧ s.Truncates flags m)

namespace Fs

variable {s s' t : Fs} {i d : ℕ} {dev : ℤ} {flag : ℕ}

theorem Truncates.of_same {m : ℕ} (h : s.SameData s') : s'.Truncates flag m ↔ s.Truncates flag m := by
  have key : ∀ {s s' : Fs}, s.SameData s' → s.Truncates flag m → s'.Truncates flag m := by
    rintro s s' h ⟨h₁, h₂, h₃, h₄⟩
    constructor
    · exact h₁
    · rw [h.nodeField]
      exact h₂
    · rw [h.nodeField]
      exact h₃
    · simp only [h.nodeField]
      exact h₄
  exact ⟨key h.symm, key h⟩

theorem openRollback_same {buf dir inode o : Option ℕ} (h : s.openRollback buf dir inode = .ok (s', o)) :
    o = none ∧ s.SameData s' := by
  obtain ⟨s₁, h₁, h⟩ := bind_eq_ok.1 h
  obtain ⟨k, -, h₁⟩ := bind_eq_ok.1 h₁
  have hs₁ : s.SameData s₁ := ((Touched.refl s).brelse? buf).same.trans (iput_same h₁)
  cases inode with
  | none =>
    cases h
    exact ⟨rfl, hs₁⟩
  | some j =>
    obtain ⟨s₂, h₂, h⟩ := bind_eq_ok.1 h
    cases h
    exact ⟨rfl, hs₁.trans (iput_same h₂)⟩

/-- The truncation of an open leaves the blocks alone exactly if it does not truncate the file. -/
theorem openTruncate_cases {m : ℕ} (hS : s.Slots dev) (hi : (s.inode i).dev ≠ EOF) (hm : (s.inode i).nr = m)
    (hallowed : ¬ (ISDIR (s.field i .mode) ∧ flag &&& oAccmode ≠ 0))
    (h : s.openTruncate flag i = .ok s') :
    (s.Truncates flag m ∧ s'.cache.data ≠ s.cache.data) ∨ (¬ s.Truncates flag m ∧ s.SameData s') := by
  subst hm
  have hfield := hS.field hi
  unfold openTruncate at h
  by_cases htrunc : flag &&& oTrunc ≠ 0
  · rw [if_pos htrunc] at h
    by_cases hkind : ISFILE (s.field i .mode) ∨ ISDIR (s.field i .mode)
    · by_cases hempty : (∀ k, s.field i (.zone k) = 0) ∧ s.field i .size = 0
      · refine Or.inr ⟨fun ht => ?_, inodeTruncate_same hempty.1 hempty.2 h⟩
        rcases ht.full with hfull | ⟨k, hk⟩
        · exact hfull ((hfield _).symm.trans hempty.2)
        · exact hk ((hfield _).symm.trans (hempty.1 k))
      · refine Or.inl ⟨⟨htrunc, ?_, ?_, ?_⟩, fun hd => hempty ?_⟩
        · rw [← hfield]
          exact hallowed
        · rw [← hfield]
          exact hkind
        · simp only [← hfield]
          by_contra hno
          obtain ⟨hsize, hzones⟩ := not_or.1 hno
          exact hempty ⟨fun k => by_contra fun hk => hzones ⟨k, hk⟩, not_not.1 hsize⟩
        · obtain ⟨-, hinode, hzone, hsize⟩ := inodeTruncate_empty hkind h
          have hsame : ∀ f, s'.field i f = s.field i f := by
            intro f
            unfold Fs.field Cache.get
            rw [hd, hinode]
          exact ⟨fun k => (hsame _).symm.trans (hzone k), (hsame _).symm.trans hsize⟩
    · refine Or.inr ⟨fun ht => hkind ?_, ?_⟩
      · rw [hfield]
        exact ht.kind
      · unfold inodeTruncate at h
        rw [if_pos (not_or.1 hkind)] at h
        cases h
        exact .refl _
  · rw [if_neg htrunc] at h
    cases h
    exact Or.inr ⟨fun ht => htrunc ht.trunc, .refl _⟩

/-- `makeup` for a file that exists. -/
theorem openMakeup_found {m buf : ℕ} {o : Option ℕ} (hS : s.Slots dev) (hi : (s.inode i).dev ≠ EOF)
    (hm : (s.inode i).nr = m) (h : s.openMakeup flag buf d i = .ok (s', o)) :
    (s.Truncates flag m ∧ o ≠ none ∧ s'.cache.data ≠ s.cache.data) ∨ (¬ s.Truncates flag m ∧ s.SameData s') := by
  unfold openMakeup at h
  by_cases hdir : ISDIR (s.field i .mode) ∧ flag &&& oAccmode ≠ 0
  · rw [if_pos hdir] at h
    refine Or.inr ⟨fun ht => ht.allowed ?_, (openRollback_same h).2⟩
    rw [← hm, ← hS.field hi]
    exact hdir
  · rw [if_neg hdir] at h
    obtain ⟨s₁, h₁, h⟩ := bind_eq_ok.1 h
    obtain ⟨s₂, h₂, h⟩ := bind_eq_ok.1 h
    cases h
    have hs₂ : s₁.SameData s' := ((Touched.refl s₁).brelse buf).same.trans (iput_same h₂)
    rcases openTruncate_cases hS hi hm hdir h₁ with ⟨ht, hd⟩ | ⟨ht, hd⟩
    · refine Or.inl ⟨ht, Option.some_ne_none _, ?_⟩
      rw [hs₂.data]
      exact hd
    · exact Or.inr ⟨ht, hd.trans hs₂⟩

/-- `makeup` for a file that has been created: it is no directory, and its inode stays taken. -/
theorem openMakeup_created {buf : ℕ} {o : Option ℕ} (hdir : ¬ ISDIR (s.field i .mode))
    (h : s.openMakeup flag buf d i = .ok (s', o)) : o ≠ none ∧ s'.sb.imaps = s.sb.imaps := by
  unfold openMakeup at h
  rw [if_neg fun hd => hdir hd.1] at h
  obtain ⟨s₁, h₁, h⟩ := bind_eq_ok.1 h
  obtain ⟨s₂, h₂, h⟩ := bind_eq_ok.1 h
  cases h
  refine ⟨Option.some_ne_none _, ?_⟩
  have hs₁ : s₁.sb.imaps = s.sb.imaps := by
    unfold openTruncate at h₁
    split_ifs at h₁
    · by_cases hkind : ISFILE (s.field i .mode) ∨ ISDIR (s.field i .mode)
      · exact (inodeTruncate_empty hkind h₁).1.imaps
      · unfold inodeTruncate at h₁
        rw [if_pos (not_or.1 hkind)] at h₁
        cases h₁
        rfl
    · cases h₁
      rfl
  have hs₂ : s'.sb = s₁.sb := (iput_same h₂).sb.trans (brelse_sb ..)
  rw [hs₂, hs₁]

/-- **`inode_open` changes blocks or bitmaps exactly if it creates or truncates**, and then it does not
    fail. -/
theorem inodeOpen_effect {task : FsTask} {path : CStr} {mode : ℕ} {o : Option ℕ} (hdev : dev ≠ EOF)
    (hS : s.Slots dev) (hroot : (s.inode task.i_root).dev ≠ EOF) (hpwd : (s.inode task.i_pwd).dev ≠ EOF)
    (hmaps : s.sb.imaps.length ≤ 8) (hnum : s.Numbers)
    (h : s.inodeOpen task path flag mode = .ok (s', o)) :
    (¬ s.Modifies task path flag ∧ s.SameData s') ∨ (s.Modifies task path flag ∧ o ≠ none ∧
      (s'.cache.data ≠ s.cache.data ∨ mapData s'.sb.imaps ≠ mapData s.sb.imaps)) := by
  obtain ⟨fname, hfname, h⟩ := bind_eq_ok.1 h
  obtain ⟨⟨s₁, dir⟩, h₁, h⟩ := bind_eq_ok.1 h
  cases dir with
  | none =>
    obtain ⟨s₂, h₂, -⟩ := bind_eq_ok.1 h
    obtain ⟨k, hk, -⟩ := bind_eq_ok.1 h₂
    cases hk
  | some d =>
    obtain ⟨hs₁, hS₁, hd₁, r, hstop⟩ := hS.namei_stops hdev hroot hpwd h₁
    dsimp only at h
    cases fname with
    | none =>
      rw [if_pos rfl] at h
      cases h
      refine Or.inl ⟨?_, hs₁⟩
      rintro ⟨k, r', name, -, hname, -⟩
      cases hfname.symm.trans hname
    | some name =>
      rw [if_neg (Option.some_ne_none name)] at h
      obtain ⟨⟨s₂, found⟩, h₂, h⟩ := bind_eq_ok.1 h
      have ht := findEntry_touched h₂
      have hs₂ : s.SameData s₂ := hs₁.trans ht.same
      have hS₂ : s₂.Slots dev := hS₁.of_inode ht.sb ht.inode
      -- what the path names
      have hmod : s.Modifies task path flag ↔ ((∀ m, ¬ s₁.Entry (s₁.inode d).nr name m) ∧ flag &&& oCreat ≠ 0) ∨
          ∃ m, s₁.Entry (s₁.inode d).nr name m ∧ s.Truncates flag m := by
        have hentry : ∀ m, s₁.Entry (s₁.inode d).nr name m ↔ s.Entry (s₁.inode d).nr name m :=
          fun m => ⟨fun he => he.of_same hs₁.symm, fun he => he.of_same hs₁⟩
        simp only [hentry]
        constructor
        · rintro ⟨k, r', name', hk, hname, hcase⟩
          obtain ⟨rfl, rfl⟩ := hstop.unique hk
          cases hfname.symm.trans hname
          exact hcase
        · intro hcase
          exact ⟨_, r, name, hstop, hfname, hcase⟩
      rcases hS₁.findEntry_cases hd₁ h₂ with ⟨rfl, hno⟩ | ⟨b, j, m, rfl, he, hm⟩
      · dsimp only at h
        by_cases hc : flag &&& oCreat = 0
        · rw [if_pos hc] at h
          refine Or.inl ⟨?_, hs₂.trans (openRollback_same h).2⟩
          rw [hmod]
          rintro (⟨-, hc'⟩ | ⟨m, he, -⟩)
          · exact hc' hc
          · exact hno m he
        · rw [if_neg hc] at h
          obtain ⟨⟨s₃, buf, inode⟩, h₃, h⟩ := bind_eq_ok.1 h
          have hd₂ : (s₂.inode d).dev ≠ EOF := by
            rw [ht.inode]
            exact hd₁
          have hnum₂ : s₂.Numbers := by
            unfold Numbers
            rw [hs₂.sb]
            exact hnum
          obtain ⟨himaps, hdir⟩ := openCreate_imaps hS₂ hdev hd₂ (hs₂.sb ▸ hmaps) hnum₂ h₃
          obtain ⟨ho, hkeep⟩ := openMakeup_created hdir h
          refine Or.inr ⟨hmod.2 (Or.inl ⟨hno, hc⟩), ho, Or.inr ?_⟩
          rw [hkeep, ← hs₂.sb]
          exact himaps
      · obtain ⟨nr, hnr, hrest⟩ := bind_eq_ok.1 h
        obtain ⟨⟨s₃, inode⟩, h₃, h₄⟩ := bind_eq_ok.1 hrest
        cases hm.symm.trans hnr
        have hdir : (s₂.inode d).dev = dev := hS₂.dev d (by rw [ht.inode]; exact hd₁)
        rw [hdir] at h₃
        obtain ⟨hS₃, hn₃, hd₃, -⟩ := hS₂.iget hdev h₃
        have hs₃ : s.SameData s₃ := hs₂.trans (iget_same h₃)
        have hiff : s.Modifies task path flag ↔ s.Truncates flag m := by
          rw [hmod]
          constructor
          · rintro (⟨hno, -⟩ | ⟨m', he', ht'⟩)
            · exact absurd he (hno m)
            · rw [he.unique he']
              exact ht'
          · intro ht'
            exact Or.inr ⟨m, he, ht'⟩
        rw [hiff, ← Truncates.of_same hs₃]
        rcases openMakeup_found hS₃ (hd₃ ▸ hdev) hn₃ h₄ with ⟨ht', ho, hd⟩ | ⟨ht', hd⟩
        · exact Or.inr ⟨ht', ho, Or.inl (hs₃.data ▸ hd)⟩
        · exact Or.inl ⟨ht', hs₃.trans hd⟩

end Fs

/-- **A failed open has no effect exactly if a descriptor is free, or the open neither creates nor
    truncates.** -/
theorem failed_open_iff {t t' : TaskFiles} {task : FsTask} {p : ℕ} {path : CStr} {flags mode : ℕ} {dev : ℤ}
    (hdev : dev ≠ EOF) (hS : t.fs.Slots dev) (hroot : (t.fs.inode task.i_root).dev ≠ EOF)
    (hpwd : (t.fs.inode task.i_pwd).dev ≠ EOF) (hmaps : t.fs.sb.imap_blocks ≤ 8) (hnum : t.fs.Numbers)
    (h : sysOpen t task p path flags mode = .ok (t', EOF)) :
    t.Unchanged t' ↔ t.freeFd ≠ none ∨ ¬ t.fs.Modifies task path flags := by
  obtain ⟨⟨fs, inode⟩, h₁, h⟩ := bind_eq_ok.1 h
  have heff := Fs.inodeOpen_effect hdev hS hroot hpwd hmaps hnum h₁
  have hquiet : ∀ {fs' : Fs}, t.fs.SameData fs' → t.Unchanged (t.setFs fs') := by
    intro fs' hs
    refine ⟨hs.data, ?_, ?_, rfl, rfl⟩
    · show mapData fs'.sb.imaps = _
      rw [hs.sb]
    · show mapData fs'.sb.zmaps = _
      rw [hs.sb]
  cases inode with
  | none =>
    cases h
    obtain ⟨hmod, hs⟩ := heff.resolve_right fun hm => hm.2.1 rfl
    exact iff_of_true (hquiet hs) (Or.inr hmod)
  | some inode =>
    dsimp only at h
    cases hfd : t.freeFd with
    | some fd =>
      rw [hfd] at h
      exfalso
      have hr := congrArg Prod.snd (Except.ok.inj h)
      simp only [EOF] at hr
      omega
    | none =>
      rw [hfd] at h
      obtain ⟨fs', h₂, h⟩ := bind_eq_ok.1 h
      cases h
      have hs' := Fs.iput_same h₂
      rcases heff with ⟨hmod, hs⟩ | ⟨hmod, -, hch⟩
      · exact iff_of_true (hquiet (hs.trans hs')) (Or.inr hmod)
      · refine iff_of_false (fun hu => ?_) (by simpa using hmod)
        rcases hch with hch | hch
        · exact hch (hs'.data.symm.trans hu.data)
        · refine hch ?_
          have himaps := hu.imaps
          change mapData fs'.sb.imaps = _ at himaps
          rw [hs'.sb] at himaps
          exact himaps

theorem chrG_ne : 0x67#8 ≠ 0#8 := by decide

/-- The name `g`, which no file has. -/
def fileG : CStr := [⟨0x67#8, chrG_ne⟩]

/-- A task whose descriptors are all in use. -/
def fullTask : TaskFiles := ⟨Fs.smallFs 3, fun fd => some fd, fun _ => ⟨0, 0, 0⟩⟩

/-- `g` is looked for and not created. -/
theorem failed_open_missing : ∃ t', sysOpen fullTask smallTask.task 0 fileG 0 0 = .ok (t', EOF) ∧
    (fullTask.Unchanged t' ↔ fullTask.freeFd ≠ none ∨ ¬ fullTask.fs.Modifies smallTask.task fileG 0) := by
  have hrun : (do
      let r ← sysOpen fullTask smallTask.task 0 fileG 0 0
      cassert (r.2 = EOF) "failed"
      return () : C Unit).isOk = true := by decide +kernel
  obtain ⟨a, hrun⟩ := ok_of_isOk hrun
  obtain ⟨⟨t', r⟩, hopen, hrun⟩ := bind_eq_ok.1 hrun
  obtain ⟨rfl, -⟩ := cassert_bind_eq_ok.1 hrun
  have hslots : fullTask.fs.Slots 1 := smallFs_slots
  exact ⟨t', hopen, failed_open_iff (by decide) hslots (by decide) (by decide) (by decide)
    (Or.inl (by decide)) hopen⟩

/-- **`g` is created, and the open fails**: the inode stays taken. -/
theorem failed_open_creates : ∃ t', fullTask.fs.Slots 1 ∧
    sysOpen fullTask smallTask.task 0 fileG oCreat 0o644 = .ok (t', EOF) ∧ ¬ fullTask.Unchanged t' := by
  have hrun : (do
      let r ← sysOpen fullTask smallTask.task 0 fileG oCreat 0o644
      cassert (r.2 = EOF ∧ mapBit r.1.fs.sb.imaps 4 = true) "failed"
      return () : C Unit).isOk = true := by decide +kernel
  obtain ⟨a, hrun⟩ := ok_of_isOk hrun
  obtain ⟨⟨t', r⟩, hopen, hrun⟩ := bind_eq_ok.1 hrun
  obtain ⟨⟨rfl, hbit⟩, -⟩ := cassert_bind_eq_ok.1 hrun
  refine ⟨t', smallFs_slots, hopen, fun hu => ?_⟩
  have hold : mapBit fullTask.fs.sb.imaps 4 = false := by decide +kernel
  rw [← Fs.mapBit_data hu.imaps, hbit] at hold
  cases hold

end Rdix
