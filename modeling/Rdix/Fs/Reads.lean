/-
  What only reads (fs/minix1/namei.c: find_entry; fs/minix1/bmap.c: bmap without create).

  * `Cache.Touch`: some blocks are held or released, and nothing else happens to the cache;
  * `Touched`: the same of the mounted device;
  * `findEntry_touched`, `bmap_touched`: looking for an entry or a block does no more.
-/
import Rdix.Fs.Namei

namespace Rdix

open ByteMem Function

/-- Blocks are held and released. -/
inductive Cache.Touch (c : Cache) : Cache → Prop where
  | refl : Cache.Touch c c
  | bread {c' : Cache} (n : ℕ) : Cache.Touch c c' → Cache.Touch c (c'.bread n)
  | brelse {c' : Cache} (n : ℕ) : Cache.Touch c c' → Cache.Touch c (c'.brelse n)

namespace Cache

variable {c c' c'' : Cache}

theorem Touch.trans (h : c.Touch c') (h' : c'.Touch c'') : c.Touch c'' := by
  induction h' with
  | refl => exact h
  | bread n _ ih => exact ih.bread n
  | brelse n _ ih => exact ih.brelse n

theorem Touch.brelse? (h : c.Touch c') (b : Option ℕ) : c.Touch (c'.brelse? b) := by
  cases b with
  | none => exact h
  | some n => exact h.brelse n

theorem Touch.data (h : c.Touch c') : c'.data = c.data := by
  induction h with
  | refl => rfl
  | bread n _ ih => rw [bread_data, ih]
  | brelse n _ ih => rw [brelse_data, ih]

end Cache

theorem ensureZone_false {A : Type} {balloc : A → C (A × ℕ)} {e e' : Env A} {array : U16Ptr}
    {index buf v : ℕ} (h : ensureZone balloc false e array index buf = .ok (e', v)) :
    e' = e ∧ e.get array index = .ok v := by
  obtain ⟨v₁, -, h⟩ := bind_eq_ok.1 h
  rw [if_neg (by simp)] at h
  obtain ⟨e₁, he, h⟩ := bind_eq_ok.1 h
  cases he
  obtain ⟨v₂, hv, h⟩ := bind_eq_ok.1 h
  cases h
  exact ⟨rfl, hv⟩

/-- Without `create` the loop of `bmap` only holds and releases index blocks. -/
theorem bmapReckon_touch {A : Type} {balloc : A → C (A × ℕ)} {level : ℕ} {e e' : Env A}
    {array : U16Ptr} {index block divider buf z : ℕ} {buf_1 buf_2 : Option ℕ}
    (h : bmapReckon balloc false level e array index block divider buf buf_1 buf_2 = .ok (e', z)) :
    e.cache.Touch e'.cache ∧ e'.alloc = e.alloc := by
  induction level generalizing e array index block divider buf buf_1 buf_2 with
  | zero =>
    obtain ⟨⟨e₁, v⟩, h₁, hr⟩ := bind_eq_ok.1 h
    obtain ⟨rfl, -⟩ := ensureZone_false h₁
    cases hr
    exact ⟨(Cache.Touch.refl.brelse? buf_1).brelse? buf_2, rfl⟩
  | succ level ih =>
    obtain ⟨⟨e₁, v⟩, h₁, hr⟩ := bind_eq_ok.1 h
    obtain ⟨rfl, -⟩ := ensureZone_false h₁
    dsimp only at hr
    by_cases hv : v = 0
    · rw [if_pos hv] at hr
      cases hr
      exact ⟨(Cache.Touch.refl.brelse? buf_1).brelse? buf_2, rfl⟩
    rw [if_neg hv] at hr
    obtain ⟨blk, -, hr⟩ := bind_eq_ok.1 hr
    have hread : e₁.cache.Touch (e₁.cache.bread blk) := Cache.Touch.refl.bread blk
    by_cases hl : level = 1
    · rw [if_pos hl] at hr
      obtain ⟨ht, ha⟩ := ih hr
      exact ⟨hread.trans ht, ha⟩
    · rw [if_neg hl] at hr
      obtain ⟨ht, ha⟩ := ih hr
      exact ⟨hread.trans ht, ha⟩

namespace Fs

/-- Blocks of the device are held and released. -/
structure Touched (s s' : Fs) : Prop where
  cache : s.cache.Touch s'.cache
  sb : s'.sb = s.sb
  inode : s'.inode = s.inode
  imapsDisk : s'.imapsDisk = s.imapsDisk
  zmapsDisk : s'.zmapsDisk = s.zmapsDisk

variable {s s' s'' : Fs} {i dir : ℕ}

theorem Touched.refl (s : Fs) : s.Touched s := ⟨.refl, rfl, rfl, rfl, rfl⟩

theorem Touched.trans (h : s.Touched s') (h' : s'.Touched s'') : s.Touched s'' :=
  ⟨h.cache.trans h'.cache, h'.sb.trans h.sb, h'.inode.trans h.inode,
    h'.imapsDisk.trans h.imapsDisk, h'.zmapsDisk.trans h.zmapsDisk⟩

theorem Touched.mapCache (h : s.Touched s') {f : Cache → Cache} (hf : s.cache.Touch (f s'.cache)) :
    s.Touched (s'.mapCache f) :=
  ⟨hf, h.sb, h.inode, h.imapsDisk, h.zmapsDisk⟩

theorem Touched.bread (h : s.Touched s') (n : ℕ) : s.Touched (s'.bread n) :=
  h.mapCache (h.cache.bread n)

theorem Touched.brelse (h : s.Touched s') (n : ℕ) : s.Touched (s'.brelse n) :=
  h.mapCache (h.cache.brelse n)

theorem Touched.brelse? (h : s.Touched s') (b : Option ℕ) : s.Touched (s'.brelse? b) :=
  h.mapCache (h.cache.brelse? b)

theorem Touched.data (h : s.Touched s') : s'.cache.data = s.cache.data := h.cache.data

theorem Touched.field (h : s.Touched s') (i : ℕ) (f : DField) : s'.field i f = s.field i f := by
  unfold Fs.field Cache.get
  rw [h.data, h.inode]

theorem Touched.dentry (h : s.Touched s') (b i : ℕ) : s'.dentry b i = s.dentry b i := by
  unfold Fs.dentry Cache.get
  rw [h.data]

theorem bmap_touched {block : ℤ} {z : ℕ} (h : s.bmap i block false = .ok (s', z)) :
    s.Touched s' := by
  obtain ⟨⟨e, z'⟩, he, h⟩ := bind_eq_ok.1 h
  cases h
  suffices hs : s.env.cache.Touch e.cache ∧ e.alloc = s.env.alloc from ⟨hs.1, hs.2, rfl, rfl, rfl⟩
  obtain ⟨-, he⟩ := cassert_bind_eq_ok.1 he
  dsimp only at he
  split_ifs at he
  · exact bmapReckon_touch he
  · exact bmapReckon_touch he
  · obtain ⟨-, he⟩ := cassert_bind_eq_ok.1 he
    exact bmapReckon_touch he

theorem nextZone_touched {v v' : FindVars} (h : s.nextZone i v = .ok (s', v')) : s.Touched s' := by
  unfold nextZone at h
  split_ifs at h
  · obtain ⟨-, h⟩ := cassert_bind_eq_ok.1 h
    obtain ⟨-, h⟩ := cassert_bind_eq_ok.1 h
    cases h
    exact (Touched.refl s).brelse? v.buf
  · cases h
    exact Touched.refl s

theorem zoneBlock_touched {block z : ℕ} (h : s.zoneBlock dir i block = .ok (s', z)) :
    s.Touched s' := by
  unfold zoneBlock at h
  split_ifs at h
  · exact bmap_touched h
  · cases h
    exact Touched.refl s

theorem readOnce_touched (s : Fs) (block : ℕ) (buf : Option ℕ) : s.Touched (s.readOnce block buf).1 := by
  cases buf with
  | none => exact (Touched.refl s).bread block
  | some b => exact Touched.refl s

/-- The loop of `find_entry` only reads; what it finds is an entry in use. -/
theorem findLoop_touched {name : CStr} {n : ℕ} {v : FindVars} {o : Option (ℕ × ℕ)}
    (h : findLoop dir name n i s v = .ok (s', o)) : s.Touched s' := by
  induction n generalizing i s v with
  | zero =>
    cases h
    exact Touched.refl _
  | succ n ih =>
    obtain ⟨⟨s₁, v₁⟩, h₁, h⟩ := bind_eq_ok.1 h
    obtain ⟨⟨s₂, block⟩, h₂, h⟩ := bind_eq_ok.1 h
    obtain ⟨-, h⟩ := cassert_bind_eq_ok.1 h
    have ht := ((nextZone_touched h₁).trans (zoneBlock_touched h₂)).trans
      (readOnce_touched s₂ block v₁.buf)
    obtain ⟨found, -, h⟩ := bind_eq_ok.1 h
    cases found with
    | true =>
      cases h
      exact ht
    | false => exact ht.trans (ih h)

theorem findEntry_touched {name : Option CStr} {o : Option (ℕ × ℕ)}
    (h : s.findEntry dir name = .ok (s', o)) : s.Touched s' := by
  obtain ⟨-, h⟩ := cassert_bind_eq_ok.1 h
  cases name with
  | none =>
    cases h
    exact Touched.refl s
  | some name => exact findLoop_touched h

end Fs

end Rdix
