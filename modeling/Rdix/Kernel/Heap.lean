/-
  The kernel heap over any sequence of calls (kernel/malloc.c).

  * `Core` ties the memory words to a `Layout`: the descriptors of each pool, the spare
    ones, and the free blocks of each bucket;
  * one lemma for each piece of the code says how it moves the layout;
  * `malloc_spec`, `freeS_spec`: what a call does to the layout and to the live blocks.
-/
import Rdix.Kernel.Malloc

namespace Rdix

open ByteMem Linked

/-! ## Pages, sizes and blocks -/

/-- The page of an address. -/
def pageOf (a : ℕ) : ℕ := a / pageSize * pageSize

/-- The blocks that a page is split into. -/
def blocksOf (pg size : ℕ) : List ℕ := (List.range (pageSize / size)).map fun k => pg + k * size

theorem bucketSize_spec {i : ℕ} (hi : i < 9) :
    16 ∣ bucketSize i ∧ bucketSize i ∣ pageSize ∧ 0 < bucketSize i := by
  have h : ∀ i < 9, bucketSize i % 16 = 0 ∧ pageSize % bucketSize i = 0 ∧ 0 < bucketSize i := by decide
  obtain ⟨h1, h2, h3⟩ := h i hi
  exact ⟨Nat.dvd_of_mod_eq_zero h1, Nat.dvd_of_mod_eq_zero h2, h3⟩

theorem bucketFor_spec {n i : ℕ} (h : bucketFor n = some i) : i < 9 ∧ n ≤ bucketSize i := by
  obtain ⟨hi, hn, -⟩ := List.findIdx?_eq_some_iff_getElem.1 h
  refine ⟨hi, ?_⟩
  rw [bucketSize, List.getD_eq_getElem _ _ hi]
  simpa using hn

theorem bucketFor_le {n : ℕ} (h : n ≤ pageSize) : ∃ i, bucketFor n = some i := by
  cases hf : bucketFor n with
  | some i => exact ⟨i, rfl⟩
  | none =>
    have := List.findIdx?_eq_none_iff.1 hf 4096 (by decide)
    simp only [decide_eq_false_iff_not] at this
    exact absurd h this

section Block
variable {pg size x a : ℕ} (hs : size ∣ pageSize) (h0 : 0 < size)
include hs h0

theorem mem_blocksOf (hpg : pg % pageSize = 0) :
    x ∈ blocksOf pg size ↔ x % size = 0 ∧ pageOf x = pg := by
  obtain ⟨c, hc⟩ := hs
  have hdiv : pageSize / size = c := by rw [hc]; exact Nat.mul_div_cancel_left _ h0
  obtain ⟨q, rfl⟩ := Nat.dvd_of_mod_eq_zero hpg
  simp only [blocksOf, List.mem_map, List.mem_range, hdiv, pageOf]
  constructor
  · rintro ⟨k, hk, rfl⟩
    have hlt : k * size < pageSize := by
      rw [hc, Nat.mul_comm size c]
      exact Nat.mul_lt_mul_of_pos_right hk h0
    refine ⟨?_, ?_⟩
    · rw [hc, Nat.mul_assoc, Nat.mul_comm k size, ← Nat.mul_add]
      exact Nat.mul_mod_right _ _
    · rw [Nat.mul_add_div (by decide), Nat.div_eq_of_lt hlt, Nat.add_zero, Nat.mul_comm]
  · rintro ⟨h1, h2⟩
    obtain ⟨y, rfl⟩ := Nat.dvd_of_mod_eq_zero h1
    have h3 : size * y / pageSize = q :=
      Nat.eq_of_mul_eq_mul_right (by decide : 0 < pageSize) (h2.trans (Nat.mul_comm _ _))
    have h4 : y / c = q := by
      rw [← h3, hc, Nat.mul_div_mul_left _ _ h0]
    refine ⟨y % c, Nat.mod_lt _ (Nat.pos_of_ne_zero ?_), ?_⟩
    · rintro rfl
      simp at hc
    · rw [hc, Nat.mul_assoc, ← h4, Nat.mul_comm (y % c), ← Nat.mul_add, Nat.div_add_mod]

omit hs in
theorem blocksOf_nodup : (blocksOf pg size).Nodup := by
  refine List.nodup_range.map fun k j h => ?_
  have : k * size = j * size := by simpa using h
  exact Nat.eq_of_mul_eq_mul_right h0 this

/-- An address in a block has the block's page, and the block is where it is rounded down to. -/
theorem in_block (hx : x % size = 0) (h1 : x ≤ a) (h2 : a < x + size) :
    a / size * size = x ∧ pageOf a = pageOf x := by
  obtain ⟨y, rfl⟩ := Nat.dvd_of_mod_eq_zero hx
  have hd : a / size = y := by
    refine Nat.div_eq_of_lt_le ?_ ?_
    · rwa [Nat.mul_comm]
    · rw [Nat.add_mul, one_mul, Nat.mul_comm y]; exact h2
  refine ⟨by rw [hd, Nat.mul_comm], ?_⟩
  obtain ⟨c, hc⟩ := hs
  unfold pageOf
  rw [hc, ← Nat.div_div_eq_div_mul, hd, ← Nat.div_div_eq_div_mul, Nat.mul_div_cancel_left _ h0]

end Block

/-! ## Linking the pieces of a page -/

section Link
variable {size : ℕ} (h16 : 16 ∣ size)
include h16

theorem linkPieces_spec (n : ℕ) (mem : Bytes) {p : ℕ} (hp : p % 16 = 0)
    (hlt : p + n * size < 2 ^ 32) (h0 : 0 < size) :
    ∃ mem', linkPieces size (n + 1) mem p = (mem', p + n * size) ∧
      (∀ k < n, fld mem' .next_desc (p + k * size) = p + (k + 1) * size) ∧
      (∀ f e, e % 16 = 0 → (∀ k < n, e = p + k * size → f ≠ .next_desc) →
        fld mem' f e = fld mem f e) ∧
      ∀ a, (∀ k < n, a / 16 * 16 ≠ p + k * size) → mem' a = mem a := by
  induction n generalizing mem p with
  | zero =>
    refine ⟨mem, by simp [linkPieces], fun k hk => absurd hk (Nat.not_lt_zero k), ?_, ?_⟩
    · intros; rfl
    · intros; rfl
  | succ n ih =>
    have hp' : (p + size) % 16 = 0 := by omega
    have hstep : ∀ k, p + size + k * size = p + (k + 1) * size := fun k => by ring
    obtain ⟨mem', he, hl, hf, hb⟩ := ih (setFld mem .next_desc p (p + size)) hp' (by
      rw [hstep]; exact hlt)
    have hpk : ∀ k, p ≠ p + size + k * size := fun k => by omega
    refine ⟨mem', ?_, fun k hk => ?_, fun f e he' hne => ?_, fun a ha => ?_⟩
    · rw [linkPieces, he, hstep]
    · cases k with
      | zero =>
        have hlt' : p + size < 2 ^ 32 := lt_of_le_of_lt (by rw [← hstep]; omega) hlt
        rw [Nat.zero_mul, Nat.add_zero, hf _ _ hp fun k _ h => absurd h (hpk k),
          fld_setFld hp hp, if_pos ⟨rfl, rfl⟩]
        exact (Nat.mod_eq_of_lt hlt').trans (by ring)
      | succ k =>
        have := hl k (by omega)
        rwa [hstep, hstep] at this
    · rw [hf f e he' fun k hk h => hne (k + 1) (by omega) (by rw [h, hstep]), fld_setFld hp he',
        if_neg]
      rintro ⟨rfl, rfl⟩
      exact hne 0 (Nat.succ_pos n) (by simp) rfl
    · rw [hb a fun k hk => by rw [hstep]; exact ha (k + 1) (by omega)]
      exact setFld_of_ne hp (by simpa using ha 0 (Nat.succ_pos n))

/-- **A page that is linked up to a chain is the chain of its blocks, with that chain behind.** -/
theorem linkPage_spec (hs : size ∣ pageSize) (h0 : 0 < size) (mem : Bytes) {pg : ℕ}
    (hpg : pg % pageSize = 0) (hpg0 : pg ≠ 0) (hlt : pg + pageSize ≤ 2 ^ 32) {v : ℕ}
    (hv : v < 2 ^ 32) :
    ∃ mem' last, linkPieces size (pageSize / size) mem pg = (mem', last) ∧
      (∀ f e, e % 16 = 0 → (pageOf e = pg → f ≠ .next_desc) →
        fld (setFld mem' .next_desc last v) f e = fld mem f e) ∧
      (∀ a, pageOf a ≠ pg → setFld mem' .next_desc last v a = mem a) ∧
      ∀ l, Chain 0 (fld mem .next_desc) v l → (∀ x ∈ l, x % 16 = 0 ∧ pageOf x ≠ pg) →
        Chain 0 (fld (setFld mem' .next_desc last v) .next_desc) pg (blocksOf pg size ++ l) := by
  obtain ⟨c, hc⟩ := hs
  have hdiv : pageSize / size = c := by rw [hc]; exact Nat.mul_div_cancel_left _ h0
  obtain ⟨n, rfl⟩ : ∃ n, c = n + 1 := Nat.exists_eq_succ_of_ne_zero (by rintro rfl; simp at hc)
  have hp16 : pg % 16 = 0 := by
    have : pg % 4096 = 0 := hpg
    omega
  have hmul : (n + 1) * size = pageSize := by rw [hc, Nat.mul_comm]
  -- the pieces lie in the page
  have hpiece : ∀ k ≤ n, pg + k * size ∈ blocksOf pg size := fun k hk =>
    List.mem_map.2 ⟨k, List.mem_range.2 (by rw [hdiv]; omega), rfl⟩
  have hin : ∀ k ≤ n, (pg + k * size) % 16 = 0 ∧ pageOf (pg + k * size) = pg := fun k hk => by
    refine ⟨?_, ((mem_blocksOf ⟨_, hc⟩ h0 hpg).1 (hpiece k hk)).2⟩
    obtain ⟨y, rfl⟩ := h16
    rw [show pg + k * (16 * y) = pg + 16 * (k * y) by ring]
    omega
  have hn : n * size < pageSize := by rw [← hmul]; exact Nat.mul_lt_mul_of_pos_right (by omega) h0
  obtain ⟨mem', he, hl, hf, hb⟩ := linkPieces_spec h16 n mem hp16 (by omega) h0
  rw [hdiv]
  refine ⟨mem', _, he, fun f e he' hne => ?_, fun a ha => ?_, fun l hch hl' => ?_⟩
  · rw [fld_setFld (hin n le_rfl).1 he', if_neg, hf f e he']
    · rintro k hk rfl
      exact hne (hin k hk.le).2
    · rintro ⟨rfl, rfl⟩
      exact hne (hin n le_rfl).2 rfl
  · -- an address and the record it lies in are in one page
    have hrec : pageOf (a / 16 * 16) = pageOf a := by
      unfold pageOf
      simp only [pageSize]
      omega
    rw [setFld_of_ne (hin n le_rfl).1, hb a]
    · intro k hk h
      exact ha (by rw [← hrec, h, (hin k hk.le).2])
    · intro h
      exact ha (by rw [← hrec, h, (hin n le_rfl).2])
  · have hold : ∀ e, e % 16 = 0 → pageOf e ≠ pg →
        fld (setFld mem' .next_desc (pg + n * size) v) .next_desc e = fld mem .next_desc e := by
      intro e he' hne
      rw [fld_setFld (hin n le_rfl).1 he', if_neg, hf _ e he']
      · rintro k hk rfl
        exact absurd (hin k hk.le).2 hne
      · rintro ⟨rfl, -⟩
        exact hne (hin n le_rfl).2
    have hlast : fld (setFld mem' .next_desc (pg + n * size) v) .next_desc (pg + n * size) = v := by
      rw [fld_setFld (hin n le_rfl).1 (hin n le_rfl).1, if_pos ⟨rfl, rfl⟩]
      exact Nat.mod_eq_of_lt hv
    generalize hM : setFld mem' .next_desc (pg + n * size) v = M at hold hlast
    have hback : Chain 0 (fld M .next_desc) (fld M .next_desc (pg + n * size)) l := by
      rw [hlast]
      exact hch.congr fun x hx => hold x (hl' x hx).1 (hl' x hx).2
    have hstep : ∀ k < n, fld M .next_desc (pg + k * size) = pg + (k + 1) * size := by
      intro k hk
      have hne : pg + k * size ≠ pg + n * size := fun h =>
        absurd (Nat.eq_of_mul_eq_mul_right h0 (Nat.add_left_cancel h)) hk.ne
      rw [← hM, fld_setFld (hin n le_rfl).1 (hin k hk.le).1, if_neg fun h => hne h.1]
      exact hl k hk
    have hne0 : ∀ k ≤ n, pg + k * size ≠ 0 := fun k _ => by omega
    have hch' := @Chain.of_links ℕ 0 (fld M .next_desc) l (fun k => pg + k * size) n hne0 hstep hback
    simpa only [blocksOf, hdiv, Nat.zero_mul, Nat.add_zero] using hch'

end Link

/-! ## The layout of a heap -/

/-- What the memory of a heap is used for: the descriptors of each pool, the spare descriptors, and
    the free blocks of each bucket. -/
structure Layout where
  pool : ℕ → List ℕ
  spare : List ℕ
  free : ℕ → List ℕ

def Layout.Desc (L : Layout) (d : ℕ) : Prop := d ∈ L.spare ∨ ∃ i < 9, d ∈ L.pool i

/-- The live blocks in a page; a live block is its address and the size that was asked for. -/
def liveOn (live : List (ℕ × ℕ)) (pg : ℕ) : List ℕ :=
  (live.map Prod.fst).filter fun p => pageOf p = pg

/-- The bucket of the descriptor `d` in pool `i`: its page is its own, and the blocks of the page are
    the free ones and the live ones. -/
structure BucketOk (mem : Bytes) (used : Set ℕ) (live : List (ℕ × ℕ)) (L : Layout) (i d : ℕ) :
    Prop where
  page_mod : fld mem .page d % pageSize = 0
  page_ne : fld mem .page d ≠ 0
  page_used : fld mem .page d ∈ used
  page_desc : ∀ e, L.Desc e → pageOf e ≠ fld mem .page d
  page_inj : ∀ j < 9, ∀ e ∈ L.pool j, fld mem .page e = fld mem .page d → e = d
  free : Chain 0 (fld mem .next_desc) (fld mem .freeptr d) (L.free d)
  perm : (L.free d ++ liveOn live (fld mem .page d)).Perm
    (blocksOf (fld mem .page d) (bucketSize i))
  refcnt : fld mem .refcnt d = (liveOn live (fld mem .page d)).length

/-- The words of a heap, laid out as `L` says. -/
structure Core (mem : Bytes) (first : ℕ → ℕ) (fbd : ℕ) (used : Set ℕ) (live : List (ℕ × ℕ))
    (L : Layout) : Prop where
  pool : ∀ i < 9, Chain 0 (fld mem .next_desc) (first i) (L.pool i)
  spare : Chain 0 (fld mem .next_desc) fbd L.spare
  disj : ∀ i < 9, ∀ d ∈ L.pool i, d ∉ L.spare ∧ ∀ j < 9, d ∈ L.pool j → i = j
  desc : ∀ d, L.Desc d → d % 16 = 0 ∧ d < 2 ^ 32 ∧ pageOf d ∈ used
  bucket : ∀ i < 9, ∀ d ∈ L.pool i, BucketOk mem used live L i d
  owned : ∀ b ∈ live, ∃ i, bucketFor b.2 = some i ∧ ∃ d ∈ L.pool i, pageOf b.1 = fld mem .page d
  nodup : (live.map Prod.fst).Nodup

/-- No byte of a live block is changed, and each bucket keeps its page. -/
structure Kept (live : List (ℕ × ℕ)) (L : Layout) (mem mem' : Bytes) : Prop where
  bytes : ∀ b ∈ live, ∀ i, bucketFor b.2 = some i → ∀ a, b.1 ≤ a → a < b.1 + bucketSize i →
    mem' a = mem a
  page : ∀ j < 9, ∀ e ∈ L.pool j, fld mem' .page e = fld mem .page e

theorem mem_liveOn {live : List (ℕ × ℕ)} {pg p : ℕ} :
    p ∈ liveOn live pg ↔ p ∈ live.map Prod.fst ∧ pageOf p = pg := by
  simp only [liveOn, List.mem_filter, decide_eq_true_eq]

theorem liveOn_cons_pos {live : List (ℕ × ℕ)} {pg p n : ℕ} (h : pageOf p = pg) :
    liveOn ((p, n) :: live) pg = p :: liveOn live pg := by
  rw [liveOn, List.map_cons, List.filter_cons_of_pos (by simpa using h)]
  rfl

theorem liveOn_cons_neg {live : List (ℕ × ℕ)} {pg p n : ℕ} (h : pageOf p ≠ pg) :
    liveOn ((p, n) :: live) pg = liveOn live pg := by
  rw [liveOn, List.map_cons, List.filter_cons_of_neg (by simpa using h)]
  rfl

/-- The live blocks without the one at `p`. -/
def dropLive (live : List (ℕ × ℕ)) (p : ℕ) : List (ℕ × ℕ) := live.filter fun b => b.1 ≠ p

theorem map_dropLive (live : List (ℕ × ℕ)) (p : ℕ) :
    (dropLive live p).map Prod.fst = (live.map Prod.fst).filter (· ≠ p) := by
  rw [List.filter_map]
  rfl

theorem liveOn_dropLive (live : List (ℕ × ℕ)) (p pg : ℕ) :
    liveOn (dropLive live p) pg = (liveOn live pg).filter (· ≠ p) := by
  rw [liveOn, map_dropLive, liveOn, List.filter_comm]

theorem liveOn_dropLive_of_ne {live : List (ℕ × ℕ)} {p pg : ℕ} (h : pageOf p ≠ pg) :
    liveOn (dropLive live p) pg = liveOn live pg := by
  rw [liveOn_dropLive, List.filter_eq_self]
  intro x hx
  rw [decide_eq_true_eq]
  rintro rfl
  exact h (mem_liveOn.1 hx).2

theorem perm_liveOn_dropLive {live : List (ℕ × ℕ)} {p pg : ℕ} (hnd : (live.map Prod.fst).Nodup)
    (hp : p ∈ liveOn live pg) : (p :: liveOn (dropLive live p) pg).Perm (liveOn live pg) := by
  have hnd' : (liveOn live pg).Nodup := hnd.filter _
  have h : (liveOn live pg).filter (· ≠ p) = (liveOn live pg).erase p := by
    rw [hnd'.erase_eq_filter]
    exact List.filter_congr fun x _ => by rw [decide_not]; rfl
  rw [liveOn_dropLive, h]
  exact (List.perm_cons_erase hp).symm

theorem pageOf_record (a : ℕ) : pageOf (a / 16 * 16) = pageOf a := by
  unfold pageOf
  simp only [pageSize]
  omega

/-- The head of a chain of addresses is an address. -/
theorem head_lt {next : ℕ → ℕ} {a : ℕ} {l : List ℕ} (h : Chain 0 next a l)
    (hl : ∀ x ∈ l, x < 2 ^ 32) : a < 2 ^ 32 := by
  cases h with
  | nil => exact Nat.two_pow_pos 32
  | cons => exact hl a List.mem_cons_self

section Bucket
variable {P : Type} {mem mem' : Bytes} {first : ℕ → ℕ} {fbd : ℕ} {used : Set ℕ} {live : List (ℕ × ℕ)}
  {L : Layout} {i d e x p n a : ℕ}

theorem BucketOk.mem_blocks (B : BucketOk mem used live L i d) (hi : i < 9) :
    x ∈ blocksOf (fld mem .page d) (bucketSize i) ↔
      x % bucketSize i = 0 ∧ pageOf x = fld mem .page d := by
  obtain ⟨-, hs, h0⟩ := bucketSize_spec hi
  exact mem_blocksOf hs h0 B.page_mod

theorem BucketOk.nodup (B : BucketOk mem used live L i d) (hi : i < 9) :
    (L.free d ++ liveOn live (fld mem .page d)).Nodup :=
  B.perm.nodup_iff.2 (blocksOf_nodup (bucketSize_spec hi).2.2)

/-- A block, free or live, is a multiple of its size in the bucket's page. -/
theorem BucketOk.block (B : BucketOk mem used live L i d) (hi : i < 9)
    (hx : x ∈ L.free d ∨ x ∈ liveOn live (fld mem .page d)) :
    x % bucketSize i = 0 ∧ x % 16 = 0 ∧ pageOf x = fld mem .page d := by
  have h := (B.mem_blocks hi).1 (B.perm.mem_iff.1 (List.mem_append.2 hx))
  exact ⟨h.1, Nat.mod_eq_zero_of_dvd ((bucketSize_spec hi).1.trans (Nat.dvd_of_mod_eq_zero h.1)), h.2⟩

theorem BucketOk.count (B : BucketOk mem used live L i d) :
    (L.free d).length + (liveOn live (fld mem .page d)).length = pageSize / bucketSize i := by
  have := B.perm.length_eq
  simpa [blocksOf] using this

/-- A bucket is kept where its descriptor, its free chain and its page are left alone. -/
theorem BucketOk.congr {used' : Set ℕ} {live' : List (ℕ × ℕ)} {L' : Layout}
    (B : BucketOk mem used live L i d) (hf : ∀ f, f ≠ .next_desc → fld mem' f d = fld mem f d)
    (hused : fld mem .page d ∈ used') (hdesc : ∀ e, L'.Desc e → pageOf e ≠ fld mem .page d)
    (hinj : ∀ j < 9, ∀ e ∈ L'.pool j, fld mem' .page e = fld mem .page d → e = d)
    (hfree : L'.free d = L.free d)
    (hnext : ∀ x ∈ L.free d, fld mem' .next_desc x = fld mem .next_desc x)
    (hlive : liveOn live' (fld mem .page d) = liveOn live (fld mem .page d)) :
    BucketOk mem' used' live' L' i d := by
  have hp := hf .page (by simp)
  refine ⟨?_, ?_, ?_, ?_, ?_, ?_, ?_, ?_⟩
  · rw [hp]; exact B.page_mod
  · rw [hp]; exact B.page_ne
  · rw [hp]; exact hused
  · rw [hp]; exact hdesc
  · rw [hp]; exact hinj
  · rw [hf _ (by simp), hfree]; exact B.free.congr hnext
  · rw [hp, hfree, hlive]; exact B.perm
  · rw [hp, hf _ (by simp), hlive]; exact B.refcnt

section
variable (H : Core mem first fbd used live L)
include H

/-- A live block lies in the page of a bucket of its size. -/
theorem Core.live_block {b : ℕ × ℕ} (hb : b ∈ live) (hi : bucketFor b.2 = some i) :
    ∃ d ∈ L.pool i, b.1 ∈ liveOn live (fld mem .page d) := by
  obtain ⟨j, hj, d, hd, hp⟩ := H.owned b hb
  rw [hi] at hj
  cases hj
  exact ⟨d, hd, mem_liveOn.2 ⟨List.mem_map_of_mem hb, hp⟩⟩

/-- An address in a live block lies in no descriptor and in no free block. -/
theorem Core.live_addr {b : ℕ × ℕ} (hb : b ∈ live) (hi : bucketFor b.2 = some i) (h1 : b.1 ≤ a)
    (h2 : a < b.1 + bucketSize i) : (∀ e, L.Desc e → a / 16 * 16 ≠ e) ∧ pageOf a ∈ used ∧
      ∀ j < 9, ∀ e ∈ L.pool j, ∀ x, x ∈ L.free e ∨ x ∈ liveOn live (fld mem .page e) →
        x ≠ b.1 → a / 16 * 16 ≠ x := by
  obtain ⟨hi9, -⟩ := bucketFor_spec hi
  obtain ⟨h16, hs, h0⟩ := bucketSize_spec hi9
  obtain ⟨d, hd, hbl⟩ := H.live_block hb hi
  have B := H.bucket i hi9 d hd
  obtain ⟨hb0, -, hbp⟩ := B.block hi9 (Or.inr hbl)
  obtain ⟨ha, hap⟩ := in_block hs h0 hb0 h1 h2
  refine ⟨?_, by rw [hap, hbp]; exact B.page_used, ?_⟩
  · rintro e he rfl
    exact B.page_desc _ he (by rw [pageOf_record, hap, hbp])
  · rintro j hj e he x hx hne rfl
    have B' := H.bucket j hj e he
    obtain ⟨hx0, -, hxp⟩ := B'.block hj hx
    obtain rfl : d = e := by
      refine B'.page_inj i hi9 d hd ?_
      rw [← hbp, ← hxp, pageOf_record, hap]
    obtain rfl := (H.disj i hi9 d hd).2 j hj he
    -- the record is a multiple of the size, so it is the block itself
    have hle : a / 16 * 16 ≤ a := Nat.div_mul_le_self a 16
    have hge : b.1 ≤ a / 16 * 16 := by
      obtain ⟨y, hy⟩ := h16.trans (Nat.dvd_of_mod_eq_zero hb0)
      omega
    obtain ⟨hr, -⟩ := in_block hs h0 hb0 hge (hle.trans_lt h2)
    rw [Nat.div_mul_cancel (Nat.dvd_of_mod_eq_zero hx0)] at hr
    exact hne hr

theorem Core.desc_of_pool (hi : i < 9) (hd : d ∈ L.pool i) :
    L.Desc d ∧ d % 16 = 0 ∧ pageOf d ∈ used :=
  have h := H.desc d (Or.inr ⟨i, hi, hd⟩)
  ⟨Or.inr ⟨i, hi, hd⟩, h.1, h.2.2⟩

/-- Only the descriptors and the links of the free blocks matter. -/
theorem Core.congr {used' : Set ℕ} (hdesc : ∀ e, L.Desc e → ∀ f, fld mem' f e = fld mem f e)
    (hfree : ∀ i < 9, ∀ d ∈ L.pool i, ∀ x ∈ L.free d, fld mem' .next_desc x = fld mem .next_desc x)
    (hused : used ⊆ used') : Core mem' first fbd used' live L where
  pool i hi := (H.pool i hi).congr fun x hx => hdesc x (Or.inr ⟨i, hi, hx⟩) _
  spare := H.spare.congr fun x hx => hdesc x (Or.inl hx) _
  disj := H.disj
  desc d hd :=
    have h := H.desc d hd
    ⟨h.1, h.2.1, hused h.2.2⟩
  bucket i hi d hd := by
    have B := H.bucket i hi d hd
    refine B.congr (fun f _ => hdesc d (Or.inr ⟨i, hi, hd⟩) f) (hused B.page_used) B.page_desc ?_ rfl
      (hfree i hi d hd) rfl
    intro j hj e he
    rw [hdesc e (Or.inr ⟨j, hj, he⟩)]
    exact B.page_inj j hj e he
  owned b hb := by
    obtain ⟨i, hi, d, hd, hp⟩ := H.owned b hb
    exact ⟨i, hi, d, hd, by rw [hdesc d (Or.inr ⟨i, (bucketFor_spec hi).1, hd⟩)]; exact hp⟩
  nodup := H.nodup

/-- What a caller writes into its live block changes no word of the heap. -/
theorem Core.write {b : ℕ × ℕ} (hb : b ∈ live) (hi : bucketFor b.2 = some i) (h1 : b.1 ≤ a)
    (h2 : a < b.1 + bucketSize i) (v : BitVec 8) :
    Core (Function.update mem a v) first fbd used live L ∧
      ∀ e, L.Desc e → ∀ f, fld (Function.update mem a v) f e = fld mem f e := by
  obtain ⟨hd, -, hf⟩ := H.live_addr hb hi h1 h2
  have hrec : ∀ e f, e % 16 = 0 → a / 16 * 16 ≠ e → fld (Function.update mem a v) f e = fld mem f e := by
    intro e f he hne
    refine load_congr fun k hk => Function.update_of_ne ?_ _ _
    have hw : k + f.off < 16 := by
      revert hk
      cases f <;> simp only [Field.width, Field.off] <;> omega
    omega
  have hdesc : ∀ e, L.Desc e → ∀ f, fld (Function.update mem a v) f e = fld mem f e := fun e he f =>
    hrec e f (H.desc e he).1 (hd e he)
  refine ⟨H.congr hdesc (fun j hj d hd' x hx => ?_) le_rfl, hdesc⟩
  have B := H.bucket j hj d hd'
  refine hrec x _ (B.block hj (Or.inl hx)).2.1 (hf j hj d hd' x (Or.inl hx) ?_)
  -- a free block is not live
  rintro rfl
  have hnd := List.nodup_append.1 (B.nodup hj)
  refine hnd.2.2 _ hx _ (mem_liveOn.2 ⟨List.mem_map_of_mem hb, (B.block hj (Or.inl hx)).2.2⟩) rfl

/-! ### A block is handed out -/

theorem Core.take (hn : bucketFor n = some i) (hd : d ∈ L.pool i) (hne : fld mem .freeptr d ≠ 0)
    (hp : fld mem .freeptr d = p)
    (hmem : mem' = setFld (setFld mem .freeptr d (fld mem .next_desc p)) .refcnt d
      (fld (setFld mem .freeptr d (fld mem .next_desc p)) .refcnt d + 1)) :
    ∃ rest, L.free d = p :: rest ∧
      Core mem' first fbd used ((p, n) :: live) { L with free := Function.update L.free d rest } ∧
      Kept live L mem mem' := by
  obtain ⟨hi, -⟩ := bucketFor_spec hn
  have B := H.bucket i hi d hd
  obtain ⟨hdesc, hd16, -⟩ := H.desc_of_pool hi hd
  obtain ⟨rest, hfree⟩ : ∃ rest, L.free d = p :: rest := by
    have h := B.free
    cases hl : L.free d with
    | nil => rw [hl, chain_nil_iff] at h; exact absurd h hne
    | cons x rest =>
      rw [hl, chain_cons_iff] at h
      exact ⟨rest, by rw [← h.1, hp]⟩
  have hch := B.free
  rw [hfree, chain_cons_iff, hp] at hch
  obtain ⟨-, hp0, hrest⟩ := hch
  have hpb := B.block hi (Or.inl (hfree ▸ List.mem_cons_self))
  have hcount := B.count
  have hnd := B.nodup hi
  rw [hfree] at hcount hnd
  have hlen : (liveOn live (fld mem .page d)).length + 1 < 65536 := by
    have : pageSize / bucketSize i ≤ pageSize := Nat.div_le_self _ _
    simp only [List.length_cons, pageSize] at hcount this
    omega
  -- the fields afterwards
  have hfld : ∀ g e, e % 16 = 0 → fld mem' g e =
      if e = d ∧ g = .refcnt then (liveOn live (fld mem .page d)).length + 1
      else if e = d ∧ g = .freeptr then fld mem .next_desc p else fld mem g e := by
    intro g e he
    rw [hmem, fld_setFld hd16 he, fld_setFld hd16 hd16, fld_setFld hd16 he]
    simp only [reduceCtorEq, and_false, if_false, B.refcnt]
    split_ifs
    · exact Nat.mod_eq_of_lt hlen
    · exact Nat.mod_eq_of_lt fld_lt
    · rfl
  have hnext : ∀ e, e % 16 = 0 → fld mem' .next_desc e = fld mem .next_desc e := fun e he => by
    rw [hfld _ _ he]; simp
  have hpage : ∀ e, e % 16 = 0 → fld mem' .page e = fld mem .page e := fun e he => by
    rw [hfld _ _ he]; simp
  have hpnot : p ∉ live.map Prod.fst := fun hmem' => by
    have := (List.nodup_append.1 hnd).2.2 p List.mem_cons_self p (mem_liveOn.2 ⟨hmem', hpb.2.2⟩)
    exact this rfl
  refine ⟨rest, hfree, ⟨fun j hj => ?_, ?_, H.disj, H.desc, fun j hj e he => ?_, ?_, ?_⟩, ?_,
    fun j hj e he => hpage e (H.desc_of_pool hj he).2.1⟩
  · exact (H.pool j hj).congr fun x hx => hnext x (H.desc_of_pool hj hx).2.1
  · exact H.spare.congr fun x hx => hnext x (H.desc x (Or.inl hx)).1
  · have B' := H.bucket j hj e he
    have he16 := (H.desc_of_pool hj he).2.1
    have hinj : ∀ k < 9, ∀ e' ∈ L.pool k, fld mem' .page e' = fld mem .page e → e' = e := by
      intro k hk e' he'
      rw [hpage e' (H.desc_of_pool hk he').2.1]
      exact B'.page_inj k hk e' he'
    by_cases hed : e = d
    · subst hed
      obtain rfl := (H.disj i hi e hd).2 j hj he
      have hp := hpage e he16
      refine ⟨?_, ?_, ?_, ?_, ?_, ?_, ?_, ?_⟩
      · rw [hp]; exact B.page_mod
      · rw [hp]; exact B.page_ne
      · rw [hp]; exact B.page_used
      · rw [hp]; exact B.page_desc
      · rw [hp]; exact hinj
      · simp only [Function.update_self]
        rw [hfld _ _ he16, if_neg (by simp), if_pos ⟨rfl, rfl⟩]
        refine hrest.congr fun x hx => hnext x ?_
        exact (B.block hi (Or.inl (hfree ▸ List.mem_cons_of_mem _ hx))).2.1
      · simp only [Function.update_self]
        rw [hp, liveOn_cons_pos hpb.2.2]
        have := B.perm
        rw [hfree] at this
        exact List.perm_middle.trans this
      · rw [hfld _ _ he16, hp, if_pos ⟨rfl, rfl⟩, liveOn_cons_pos hpb.2.2]
        rfl
    · refine B'.congr (fun f _ => ?_) B'.page_used B'.page_desc hinj (Function.update_of_ne hed ..)
        (fun x hx => hnext x (B'.block hj (Or.inl hx)).2.1) (liveOn_cons_neg fun h => ?_)
      · rw [hfld _ _ he16, if_neg fun h => hed h.1, if_neg fun h => hed h.1]
      · exact hed (B.page_inj j hj e he (h.symm.trans hpb.2.2))
  · intro b hb
    rcases List.mem_cons.1 hb with rfl | hb
    · exact ⟨i, hn, d, hd, by rw [hpage d hd16]; exact hpb.2.2⟩
    · obtain ⟨j, hj, e, he, hbe⟩ := H.owned b hb
      exact ⟨j, hj, e, he, by rw [hpage e (H.desc_of_pool (bucketFor_spec hj).1 he).2.1]; exact hbe⟩
  · rw [List.map_cons, List.nodup_cons]
    exact ⟨hpnot, H.nodup⟩
  · intro b hb j hj a h1 h2
    have hne' := (H.live_addr hb hj h1 h2).1 d hdesc
    rw [hmem, setFld_of_ne hd16 hne', setFld_of_ne hd16 hne']

/-! ### A block is given back -/

theorem Core.put (hn : bucketFor n = some i) (hb : (p, n) ∈ live) (hd : d ∈ L.pool i)
    (hpg : pageOf p = fld mem .page d) {h : Heap P} (hh : h.mem = mem) :
    Core (putBlock h d p).mem first fbd used (dropLive live p)
        { L with free := Function.update L.free d (p :: L.free d) } ∧
      Kept (dropLive live p) L mem (putBlock h d p).mem := by
  subst hh
  obtain ⟨hi, -⟩ := bucketFor_spec hn
  have B := H.bucket i hi d hd
  obtain ⟨hdesc, hd16, -⟩ := H.desc_of_pool hi hd
  have hpl : p ∈ liveOn live (fld h.mem .page d) := mem_liveOn.2 ⟨List.mem_map_of_mem hb, hpg⟩
  obtain ⟨-, hp16, -⟩ := B.block hi (Or.inr hpl)
  have hpd : ∀ e, L.Desc e → e ≠ p := by
    rintro e he rfl
    exact B.page_desc e he hpg
  have hp0 : p ≠ 0 := by
    rintro rfl
    exact B.page_ne (hpg.symm.trans (by simp [pageOf]))
  have hp32 : p < 2 ^ 32 := by
    have h1 := @fld_lt h.mem .page d
    have h2 := B.page_mod
    rw [← hpg] at h1 h2
    simp only [pageOf, pageSize] at h1 h2
    omega
  have hperm := perm_liveOn_dropLive H.nodup hpl
  have hlen := hperm.length_eq
  have hcount := B.count
  have hsmall : pageSize / bucketSize i ≤ pageSize := Nat.div_le_self _ _
  simp only [List.length_cons, pageSize] at hlen hcount hsmall
  -- the fields afterwards
  have hfld : ∀ g e, e % 16 = 0 → fld (putBlock h d p).mem g e =
      if e = d ∧ g = .refcnt then (liveOn (dropLive live p) (fld h.mem .page d)).length
      else if e = d ∧ g = .freeptr then p
      else if e = p ∧ g = .next_desc then fld h.mem .freeptr d else fld h.mem g e := by
    intro g e he
    have hdp := hpd d hdesc
    simp only [putBlock, fld_setFld hd16 he, fld_setFld hd16 hd16, fld_setFld hp16 he,
      fld_setFld hp16 hd16, reduceCtorEq, and_false, if_false, B.refcnt, hdp]
    split_ifs
    · simp only [Field.width]
      omega
    · exact Nat.mod_eq_of_lt hp32
    · exact Nat.mod_eq_of_lt fld_lt
    · rfl
  have hnext : ∀ e, e % 16 = 0 → e ≠ p → fld (putBlock h d p).mem .next_desc e =
      fld h.mem .next_desc e := fun e he hep => by
    rw [hfld _ _ he, if_neg (by simp), if_neg (by simp), if_neg fun h => hep h.1]
  have hpage : ∀ e, e % 16 = 0 → fld (putBlock h d p).mem .page e = fld h.mem .page e :=
    fun e he => by rw [hfld _ _ he]; simp
  -- `p` is on no free chain
  have hpfree : ∀ j < 9, ∀ e ∈ L.pool j, p ∉ L.free e := by
    intro j hj e he hpe
    have B' := H.bucket j hj e he
    obtain ⟨-, -, hpe'⟩ := B'.block hj (Or.inl hpe)
    exact (List.nodup_append.1 (B'.nodup hj)).2.2 p hpe p
      (mem_liveOn.2 ⟨List.mem_map_of_mem hb, hpe'⟩) rfl
  refine ⟨⟨fun j hj => ?_, ?_, H.disj, H.desc, fun j hj e he => ?_, ?_, ?_⟩, ?_,
    fun j hj e he => hpage e (H.desc_of_pool hj he).2.1⟩
  · exact (H.pool j hj).congr fun x hx =>
      hnext x (H.desc_of_pool hj hx).2.1 (hpd x (H.desc_of_pool hj hx).1)
  · exact H.spare.congr fun x hx => hnext x (H.desc x (Or.inl hx)).1 (hpd x (Or.inl hx))
  · have B' := H.bucket j hj e he
    have he16 := (H.desc_of_pool hj he).2.1
    have hinj : ∀ k < 9, ∀ e' ∈ L.pool k, fld (putBlock h d p).mem .page e' = fld h.mem .page e →
        e' = e := by
      intro k hk e' he'
      rw [hpage e' (H.desc_of_pool hk he').2.1]
      exact B'.page_inj k hk e' he'
    have hchain : ∀ x ∈ L.free e, fld (putBlock h d p).mem .next_desc x = fld h.mem .next_desc x := by
      intro x hx
      refine hnext x (B'.block hj (Or.inl hx)).2.1 ?_
      rintro rfl
      exact hpfree j hj e he hx
    by_cases hed : e = d
    · subst hed
      obtain rfl := (H.disj i hi e hd).2 j hj he
      have hp := hpage e he16
      refine ⟨?_, ?_, ?_, ?_, ?_, ?_, ?_, ?_⟩
      · rw [hp]; exact B.page_mod
      · rw [hp]; exact B.page_ne
      · rw [hp]; exact B.page_used
      · rw [hp]; exact B.page_desc
      · rw [hp]; exact hinj
      · simp only [Function.update_self]
        rw [hfld _ _ he16, if_neg (by simp), if_pos ⟨rfl, rfl⟩]
        refine B.free.push hp0 ?_ hchain
        rw [hfld _ _ hp16, if_neg (by simp), if_neg (by simp), if_pos ⟨rfl, rfl⟩]
      · simp only [Function.update_self]
        rw [hp, List.cons_append]
        exact List.perm_middle.symm.trans ((hperm.append_left _).trans B.perm)
      · rw [hfld _ _ he16, hp, if_pos ⟨rfl, rfl⟩]
    · have hpne : pageOf p ≠ fld h.mem .page e := fun h' =>
        hed (B.page_inj j hj e he (h'.symm.trans hpg))
      refine B'.congr (fun f hf => ?_) B'.page_used B'.page_desc hinj (Function.update_of_ne hed ..)
        hchain (liveOn_dropLive_of_ne hpne)
      rw [hfld _ _ he16, if_neg fun h => hed h.1, if_neg fun h => hed h.1, if_neg fun h => hf h.2]
  · intro b hb'
    obtain ⟨j, hj, e, he, hbe⟩ := H.owned b (List.mem_of_mem_filter hb')
    exact ⟨j, hj, e, he, by rw [hpage e (H.desc_of_pool (bucketFor_spec hj).1 he).2.1]; exact hbe⟩
  · rw [map_dropLive]
    exact H.nodup.filter _
  · intro b hb' j hj a h1 h2
    obtain ⟨hb1, hb2⟩ := List.mem_filter.1 hb'
    obtain ⟨hne, -, hblk⟩ := H.live_addr hb1 hj h1 h2
    have hne' := hne d hdesc
    have hnp : a / 16 * 16 ≠ p := hblk i hi d hd p (Or.inr hpl) fun h => by simp [h] at hb2
    simp only [putBlock]
    rw [setFld_of_ne hd16 hne', setFld_of_ne hd16 hne', setFld_of_ne hp16 hnp]

/-! ### A bucket is dropped -/

/-- The memory and the first descriptor of the pool after `d`, which stands behind the descriptors
    `l₁`, is unlinked and put in front of the spare descriptors. -/
theorem Core.drop (hi : i < 9) {l₁ l₂ : List ℕ} (hsplit : L.pool i = l₁ ++ d :: l₂)
    (hlive : liveOn live (fld mem .page d) = []) {mem₁ : Bytes} {first' : ℕ → ℕ}
    (hcase : (l₁ = [] ∧ mem₁ = mem ∧
        first' = Function.update first i (fld mem .next_desc d)) ∨
      ∃ l prev, l₁ = l ++ [prev] ∧ first' = first ∧
        mem₁ = setFld mem .next_desc prev (fld mem .next_desc d)) :
    Core (setFld mem₁ .next_desc d fbd) first' d (used \ {fld mem .page d}) live
        { L with pool := Function.update L.pool i (l₁ ++ l₂), spare := d :: L.spare } ∧
      Kept live L mem (setFld mem₁ .next_desc d fbd) := by
  have hd : d ∈ L.pool i := by simp [hsplit]
  have B := H.bucket i hi d hd
  obtain ⟨hdesc, hd16, hdused⟩ := H.desc_of_pool hi hd
  obtain ⟨hdspare, hdpool⟩ := H.disj i hi d hd
  have hpool := H.pool i hi
  have hnd := hpool.nodup
  rw [hsplit] at hpool hnd
  have hd0 : d ≠ 0 := hpool.ne_nil (by simp)
  have hdl : d ∉ l₁ ++ l₂ := (List.nodup_middle.1 hnd).notMem
  have hfbd := head_lt H.spare fun x hx => (H.desc x (Or.inl hx)).2.1
  -- only the links of `d` and of the descriptor before it are written
  have hfld : ∀ g e, e % 16 = 0 → (g = .next_desc → e ≠ d ∧ e ∉ l₁.getLast?) →
      fld (setFld mem₁ .next_desc d fbd) g e = fld mem g e := by
    intro g e he hne
    rw [fld_setFld hd16 he, if_neg fun h => (hne h.2).1 h.1]
    rcases hcase with ⟨-, rfl, -⟩ | ⟨l, prev, rfl, -, rfl⟩
    · rfl
    · have hprev : prev % 16 = 0 := (H.desc_of_pool hi (by simp [hsplit])).2.1
      rw [fld_setFld hprev he, if_neg]
      rintro ⟨rfl, rfl⟩
      exact (hne rfl).2 (by simp)
  have hpage : ∀ e, e % 16 = 0 → fld (setFld mem₁ .next_desc d fbd) .page e = fld mem .page e :=
    fun e he => hfld _ e he (by simp)
  have hnext_d : fld (setFld mem₁ .next_desc d fbd) .next_desc d = fbd :=
    setFld_next_self hd16 hfbd
  have hlast : ∀ e ∈ l₁.getLast?, e ∈ L.pool i := fun e he => by
    rw [hsplit]
    exact List.mem_append_left _ (List.mem_of_getLast? he)
  have hmem : ∀ j < 9, ∀ e ∈ Function.update L.pool i (l₁ ++ l₂) j, e ∈ L.pool j ∧ e ≠ d := by
    intro j hj e he
    by_cases hji : j = i
    · subst hji
      rw [Function.update_self] at he
      refine ⟨?_, fun h => hdl (h ▸ he)⟩
      rw [hsplit]
      rcases List.mem_append.1 he with h | h
      · exact List.mem_append_left _ h
      · exact List.mem_append_right _ (List.mem_cons_of_mem d h)
    · rw [Function.update_of_ne hji] at he
      refine ⟨he, fun h => hji ?_⟩
      exact (hdpool j hj (h ▸ he)).symm
  have hdesc' : ∀ e, (∃ j < 9, e ∈ Function.update L.pool i (l₁ ++ l₂) j) ∨ e ∈ d :: L.spare →
      L.Desc e := by
    rintro e (⟨j, hj, he⟩ | he)
    · exact Or.inr ⟨j, hj, (hmem j hj e he).1⟩
    · rcases List.mem_cons.1 he with rfl | he
      · exact hdesc
      · exact Or.inl he
  refine ⟨⟨fun j hj => ?_, ?_, fun j hj e he => ?_, fun e he => ?_, fun j hj e he => ?_, ?_,
    H.nodup⟩, ?_, fun j hj e he => hpage e (H.desc_of_pool hj he).2.1⟩
  · by_cases hji : j = i
    · subst hji
      simp only [Function.update_self]
      rcases hcase with ⟨rfl, rfl, rfl⟩ | ⟨l, prev, rfl, rfl, rfl⟩
      · rw [Function.update_self]
        obtain ⟨hfd, -, hch⟩ := chain_cons_iff.1 hpool
        rw [hfd] at hch
        refine hch.congr fun x hx => ?_
        refine hfld _ x (H.desc_of_pool hi (by simp [hsplit, hx])).2.1 fun _ => ⟨?_, by simp⟩
        rintro rfl
        exact hdl hx
      · have hmid : l ++ [prev] ++ d :: l₂ = l ++ prev :: d :: l₂ := by simp
        rw [hmid] at hpool
        have hal : ∀ x ∈ l ++ prev :: d :: l₂, x % 16 = 0 := fun x hx =>
          (H.desc_of_pool hi (by rw [hsplit, hmid]; exact hx)).2.1
        have hun : Chain 0 (fld (setFld mem .next_desc prev (fld mem .next_desc d)) .next_desc)
            (first' j) (l ++ prev :: l₂) := by
          exact hpool.unlink (setFld_next_self (hal prev (by simp)) fld_lt) fun x hx hne =>
            setFld_next_ne (hal prev (by simp)) (hal x hx) hne
        rw [List.append_assoc, List.singleton_append]
        refine hun.congr fun x hx => ?_
        rw [fld_setFld hd16 (hal x ?_), if_neg]
        · rintro ⟨rfl, -⟩
          exact hdl (by simpa using hx)
        · exact List.Sublist.subset (((List.sublist_cons_self d l₂).cons_cons prev).append_left l) hx
    · simp only [Function.update_of_ne hji]
      have hfj : first' j = first j := by
        rcases hcase with ⟨-, -, rfl⟩ | ⟨-, -, -, rfl, -⟩
        · exact Function.update_of_ne hji ..
        · rfl
      rw [hfj]
      refine (H.pool j hj).congr fun x hx => hfld _ x (H.desc_of_pool hj hx).2.1 fun _ => ⟨?_, ?_⟩
      · rintro rfl
        exact hji (hdpool j hj hx).symm
      · intro hl
        exact hji ((H.disj i hi x (hlast x hl)).2 j hj hx).symm
  · refine H.spare.push hd0 hnext_d fun x hx => hfld _ x (H.desc x (Or.inl hx)).1 fun _ => ⟨?_, ?_⟩
    · rintro rfl
      exact hdspare hx
    · intro hl
      exact (H.disj i hi x (hlast x hl)).1 hx
  · obtain ⟨he1, he2⟩ := hmem j hj e he
    obtain ⟨hes, hej⟩ := H.disj j hj e he1
    exact ⟨by simp [he2, hes], fun k hk hek => hej k hk (hmem k hk e hek).1⟩
  · have he' := hdesc' e he.symm
    obtain ⟨h1, h2, h3⟩ := H.desc e he'
    exact ⟨h1, h2, h3, B.page_desc e he'⟩
  · obtain ⟨he1, he2⟩ := hmem j hj e he
    have B' := H.bucket j hj e he1
    have he16 := (H.desc_of_pool hj he1).2.1
    refine B'.congr (fun f hf => hfld f e he16 fun h => absurd h hf) ⟨B'.page_used, ?_⟩
      (fun x hx => B'.page_desc x (hdesc' x hx.symm)) (fun k hk x hx => ?_) rfl (fun x hx => ?_) rfl
    · intro h
      exact he2 (B.page_inj j hj e he1 h)
    · have hx1 := (hmem k hk x hx).1
      rw [hpage x (H.desc_of_pool hk hx1).2.1]
      exact B'.page_inj k hk x hx1
    · -- free blocks are no descriptors
      obtain ⟨-, hx16, hxp⟩ := B'.block hj (Or.inl hx)
      refine hfld _ x hx16 fun _ => ⟨?_, fun hl => ?_⟩
      · rintro rfl
        exact B'.page_desc x hdesc hxp
      · exact B'.page_desc x (Or.inr ⟨i, hi, hlast x hl⟩) hxp
  · intro b hb
    obtain ⟨j, hj, e, he, hbe⟩ := H.owned b hb
    have hj9 := (bucketFor_spec hj).1
    have hed : e ≠ d := by
      rintro rfl
      have : b.1 ∈ liveOn live (fld mem .page e) := mem_liveOn.2 ⟨List.mem_map_of_mem hb, hbe⟩
      rw [hlive] at this
      cases this
    refine ⟨j, hj, e, ?_, by rw [hpage e (H.desc_of_pool hj9 he).2.1]; exact hbe⟩
    by_cases hji : j = i
    · subst hji
      rw [hsplit] at he
      show e ∈ Function.update L.pool j (l₁ ++ l₂) j
      rw [Function.update_self]
      rcases List.mem_append.1 he with he | he
      · exact List.mem_append_left _ he
      · exact List.mem_append_right _ ((List.mem_cons.1 he).resolve_left hed)
    · simpa only [Function.update_of_ne hji] using he
  · intro b hb j hj a h1 h2
    obtain ⟨hne, -⟩ := H.live_addr hb hj h1 h2
    rw [setFld_of_ne hd16 (hne d hdesc)]
    rcases hcase with ⟨-, rfl, -⟩ | ⟨l, prev, rfl, -, rfl⟩
    · rfl
    · obtain ⟨hprev, hprev16, -⟩ := H.desc_of_pool hi (hlast prev (by simp))
      exact setFld_of_ne hprev16 (hne prev hprev)

/-! ### A page comes in -/

section Page
variable {pg : ℕ} (hpg : pg % pageSize = 0) (hpg0 : pg ≠ 0) (hlt : pg + pageSize ≤ 2 ^ 32)
  (hfresh : pg ∉ used)
include hpg hpg0 hlt hfresh

/-- The page becomes descriptors. -/
theorem Core.addDescs : ∃ mem' last, linkPieces descSize (pageSize / descSize) mem pg = (mem', last) ∧
    Core (setFld mem' .next_desc last fbd) first pg (insert pg used) live
      { L with spare := blocksOf pg descSize ++ L.spare } ∧
    Kept live L mem (setFld mem' .next_desc last fbd) := by
  have hfbd := head_lt H.spare fun x hx => (H.desc x (Or.inl hx)).2.1
  obtain ⟨mem', last, he, hold, hbyte, hch⟩ := @linkPage_spec 16 (by decide) (by decide)
    (by decide) mem pg hpg hpg0 hlt fbd hfbd
  have hne : ∀ x, pageOf x ∈ used → pageOf x ≠ pg := fun x hx h => hfresh (h ▸ hx)
  have H' : Core (setFld mem' .next_desc last fbd) first fbd (insert pg used) live L := by
    refine H.congr (fun e he' f => ?_) (fun i hi d hd x hx => ?_) (Set.subset_insert pg used)
    · obtain ⟨h1, -, h2⟩ := H.desc e he'
      exact hold f e h1 fun h => absurd h (hne e h2)
    · have B := H.bucket i hi d hd
      obtain ⟨-, h1, h2⟩ := B.block hi (Or.inl hx)
      exact hold _ x h1 fun h => absurd h (hne x (h2 ▸ B.page_used))
  have hnew : ∀ x ∈ blocksOf pg 16, x % 16 = 0 ∧ pageOf x = pg := fun x hx =>
    (mem_blocksOf (by decide) (by decide) hpg).1 hx
  refine ⟨mem', last, he, ⟨H'.pool, ?_, fun i hi d hd => ⟨fun h => ?_, (H.disj i hi d hd).2⟩,
    fun e he' => ?_, fun i hi d hd => ?_, H'.owned, H.nodup⟩, ?_,
    fun i hi d hd => hold _ d (H.desc_of_pool hi hd).2.1 (by simp)⟩
  · exact hch _ H.spare fun x hx => ⟨(H.desc x (Or.inl hx)).1, hne x (H.desc x (Or.inl hx)).2.2⟩
  · rcases List.mem_append.1 h with h | h
    · exact hne d (H.desc_of_pool hi hd).2.2 (hnew d h).2
    · exact (H.disj i hi d hd).1 h
  · rcases he' with he' | he'
    · rcases List.mem_append.1 he' with he' | he'
      · obtain ⟨h1, h2⟩ := hnew e he'
        refine ⟨h1, ?_, Or.inl h2⟩
        simp only [pageOf, pageSize] at h2 hlt
        omega
      · exact H'.desc e (Or.inl he')
    · exact H'.desc e (Or.inr he')
  · have B' := H'.bucket i hi d hd
    have B := H.bucket i hi d hd
    have hp := hold .page d (H.desc_of_pool hi hd).2.1 (by simp)
    refine B'.congr (fun _ _ => rfl) B'.page_used (fun e he' => ?_) B'.page_inj rfl (fun _ _ => rfl) rfl
    rcases he' with he' | he'
    · rcases List.mem_append.1 he' with he' | he'
      · rw [(hnew e he').2, hp]
        exact fun h => hfresh (h ▸ B.page_used)
      · exact B'.page_desc e (Or.inl he')
    · exact B'.page_desc e (Or.inr he')
  · intro b hb j hj a h1 h2
    exact hbyte a (hne a (H.live_addr hb hj h1 h2).2.1)

/-- The page becomes the blocks of a new bucket, under the first spare descriptor. -/
theorem Core.addBucket (hi : i < 9) {spare : List ℕ} (hspare : L.spare = d :: spare) {mem₁ : Bytes}
    (hmem : mem₁ = setFld (setFld (setFld (setFld mem .next_desc d (first i)) .page d pg) .freeptr d
      pg) .refcnt d 0) :
    ∃ mem' last, linkPieces (bucketSize i) (pageSize / bucketSize i) mem₁ pg = (mem', last) ∧
      fld (setFld mem' .next_desc last 0) .freeptr d = pg ∧
      Core (setFld mem' .next_desc last 0) (Function.update first i d) (fld mem .next_desc d)
        (insert pg used) live ⟨Function.update L.pool i (d :: L.pool i), spare,
          Function.update L.free d (blocksOf pg (bucketSize i))⟩ ∧
      Kept live L mem (setFld mem' .next_desc last 0) := by
  obtain ⟨h16, hs, h0⟩ := bucketSize_spec hi
  obtain ⟨mem', last, he, hold, hbyte, hch⟩ := linkPage_spec h16 hs h0 mem₁ hpg hpg0 hlt
    (Nat.two_pow_pos 32)
  have hne : ∀ x, pageOf x ∈ used → pageOf x ≠ pg := fun x hx h => hfresh (h ▸ hx)
  have hdspare : d ∈ L.spare := hspare ▸ List.mem_cons_self
  obtain ⟨hd16, hd32, hdused⟩ := H.desc d (Or.inl hdspare)
  have hsp := H.spare
  have hnd := hsp.nodup
  rw [hspare] at hsp hnd
  obtain ⟨hfd, hd0, hsp⟩ := chain_cons_iff.1 hsp
  rw [hfd] at hd0 hsp
  have hfirst := head_lt (H.pool i hi) fun x hx => (H.desc x (Or.inr ⟨i, hi, hx⟩)).2.1
  have hpg32 : pg < 2 ^ 32 := by
    simp only [pageSize] at hlt
    omega
  -- the fields afterwards, outside the new page
  have hother : ∀ g e, e % 16 = 0 → pageOf e ∈ used → e ≠ d →
      fld (setFld mem' .next_desc last 0) g e = fld mem g e := by
    intro g e he16 heu hed
    rw [hold g e he16 fun h => absurd h (hne e heu), hmem, fld_setFld hd16 he16,
      fld_setFld hd16 he16, fld_setFld hd16 he16, fld_setFld hd16 he16]
    simp only [hed, false_and, if_false]
  have hM : ∀ g, fld (setFld mem' .next_desc last 0) g d = fld mem₁ g d := fun g =>
    hold g d hd16 fun h => absurd h (hne d hdused)
  have hnew : fld (setFld mem' .next_desc last 0) .next_desc d = first i ∧
      fld (setFld mem' .next_desc last 0) .page d = pg ∧
      fld (setFld mem' .next_desc last 0) .freeptr d = pg ∧
      fld (setFld mem' .next_desc last 0) .refcnt d = 0 := by
    simp only [hM, hmem, fld_setFld hd16 hd16, reduceCtorEq, and_false, and_true, if_true, if_false,
      Field.width, Nat.zero_mod]
    exact ⟨Nat.mod_eq_of_lt hfirst, Nat.mod_eq_of_lt hpg32, Nat.mod_eq_of_lt hpg32⟩
  obtain ⟨hnext, hpage, hptr, href⟩ := hnew
  have hlive : liveOn live pg = [] := by
    refine List.filter_eq_nil_iff.2 fun p hp => ?_
    obtain ⟨b, hb, rfl⟩ := List.mem_map.1 hp
    obtain ⟨j, hj, e, he', hbe⟩ := H.owned b hb
    rw [decide_eq_true_eq, hbe]
    exact fun h => hfresh (h ▸ (H.bucket j (bucketFor_spec hj).1 e he').page_used)
  have hpool : ∀ j e, e ∈ Function.update L.pool i (d :: L.pool i) j ↔
      (j = i ∧ e = d) ∨ e ∈ L.pool j := by
    intro j e
    by_cases hji : j = i
    · subst hji
      simp
    · simp [hji]
  have hold' : ∀ j < 9, ∀ e ∈ L.pool j, e % 16 = 0 ∧ pageOf e ∈ used ∧ e ≠ d := by
    intro j hj e he'
    obtain ⟨-, h1, h2⟩ := H.desc_of_pool hj he'
    refine ⟨h1, h2, ?_⟩
    rintro rfl
    exact (H.disj j hj e he').1 hdspare
  have hspare' : ∀ x ∈ spare, x ∈ L.spare ∧ x ≠ d := by
    intro x hx
    refine ⟨hspare ▸ List.mem_cons_of_mem d hx, ?_⟩
    rintro rfl
    exact (List.nodup_cons.1 hnd).1 hx
  refine ⟨mem', last, he, hptr, ⟨fun j hj => ?_, ?_, fun j hj e he' => ?_, fun e he' => ?_,
    fun j hj e he' => ?_, fun b hb => ?_, H.nodup⟩, ?_, fun j hj e he' => ?_⟩
  · have hcongr : ∀ x ∈ L.pool j, fld (setFld mem' .next_desc last 0) .next_desc x =
        fld mem .next_desc x := fun x hx => by
      obtain ⟨h1, h2, h3⟩ := hold' j hj x hx
      exact hother _ x h1 h2 h3
    by_cases hji : j = i
    · subst hji
      simp only [Function.update_self]
      exact (H.pool j hj).push hd0 hnext hcongr
    · simp only [Function.update_of_ne hji]
      exact (H.pool j hj).congr hcongr
  · refine hsp.congr fun x hx => ?_
    obtain ⟨h1, h2⟩ := hspare' x hx
    exact hother _ x (H.desc x (Or.inl h1)).1 (H.desc x (Or.inl h1)).2.2 h2
  · rcases (hpool j e).1 he' with ⟨hji, hed⟩ | hej
    · refine ⟨fun h => (hspare' e h).2 hed, fun k hk hek => ?_⟩
      rcases (hpool k e).1 hek with ⟨hki, -⟩ | hek
      · rw [hji, hki]
      · exact absurd hed (hold' k hk e hek).2.2
    · obtain ⟨h1, h2⟩ := H.disj j hj e hej
      refine ⟨fun h => h1 (hspare' e h).1, fun k hk hek => ?_⟩
      rcases (hpool k e).1 hek with ⟨-, hed⟩ | hek
      · exact absurd hed (hold' j hj e hej).2.2
      · exact h2 k hk hek
  · have hD : L.Desc e := by
      rcases he' with he' | ⟨j, hj, he'⟩
      · exact Or.inl (hspare' e he').1
      · rcases (hpool j e).1 he' with ⟨-, rfl⟩ | he'
        · exact Or.inl hdspare
        · exact Or.inr ⟨j, hj, he'⟩
    obtain ⟨h1, h2, h3⟩ := H.desc e hD
    exact ⟨h1, h2, Or.inr h3⟩
  · have hdesc : ∀ e', Layout.Desc ⟨Function.update L.pool i (d :: L.pool i), spare,
        Function.update L.free d (blocksOf pg (bucketSize i))⟩ e' → L.Desc e' := by
      rintro e' (h | ⟨k, hk, h⟩)
      · exact Or.inl (hspare' e' h).1
      · rcases (hpool k e').1 h with ⟨-, rfl⟩ | h
        · exact Or.inl hdspare
        · exact Or.inr ⟨k, hk, h⟩
    by_cases hed : e = d
    · subst hed
      obtain rfl : j = i := by
        rcases (hpool j e).1 he' with ⟨h, -⟩ | h
        · exact h
        · exact absurd rfl (hold' j hj e h).2.2
      have hp := hpage
      refine ⟨?_, ?_, ?_, fun x hx => ?_, fun k hk x hx hxp => ?_, ?_, ?_, ?_⟩
      · rw [hp]; exact hpg
      · rw [hp]; exact hpg0
      · rw [hp]; exact Or.inl rfl
      · rw [hp]; exact hne x (H.desc x (hdesc x hx)).2.2
      · rcases (hpool k x).1 hx with ⟨-, rfl⟩ | hx
        · rfl
        · obtain ⟨h1, h2, h3⟩ := hold' k hk x hx
          rw [hp, hother _ x h1 h2 h3] at hxp
          have := (H.bucket k hk x hx).page_used
          rw [hxp] at this
          exact absurd this hfresh
      · rw [hptr]
        simp only [Function.update_self]
        have := hch [] .nil (by simp)
        rwa [List.append_nil] at this
      · rw [hp]
        simp only [Function.update_self, hlive, List.append_nil]
        rfl
      · rw [href, hp]
        simp only [hlive, List.length_nil]
    · have he'' : e ∈ L.pool j := by
        rcases (hpool j e).1 he' with ⟨-, h⟩ | h
        · exact absurd h hed
        · exact h
      obtain ⟨h1, h2, -⟩ := hold' j hj e he''
      have B := H.bucket j hj e he''
      refine B.congr (fun f _ => hother f e h1 h2 hed) (Or.inr B.page_used)
        (fun x hx => B.page_desc x (hdesc x hx)) (fun k hk x hx hxp => ?_) (Function.update_of_ne hed ..)
        (fun x hx => ?_) rfl
      · rcases (hpool k x).1 hx with ⟨-, rfl⟩ | hx
        · have := B.page_used
          rw [← hxp, hpage] at this
          exact absurd this hfresh
        · obtain ⟨g1, g2, g3⟩ := hold' k hk x hx
          rw [hother _ x g1 g2 g3] at hxp
          exact B.page_inj k hk x hx hxp
      · obtain ⟨-, g1, g2⟩ := B.block hj (Or.inl hx)
        refine hother _ x g1 (g2 ▸ B.page_used) ?_
        rintro rfl
        exact B.page_desc x (Or.inl hdspare) g2
  · obtain ⟨j, hj, e, he', hbe⟩ := H.owned b hb
    obtain ⟨h1, h2, h3⟩ := hold' j (bucketFor_spec hj).1 e he'
    exact ⟨j, hj, e, (hpool j e).2 (Or.inr he'), by rw [hother _ e h1 h2 h3]; exact hbe⟩
  · intro b hb j hj a h1 h2
    obtain ⟨hnd', hau, -⟩ := H.live_addr hb hj h1 h2
    have had := hnd' d (Or.inl hdspare)
    rw [hbyte a (hne a hau), hmem, setFld_of_ne hd16 had, setFld_of_ne hd16 had, setFld_of_ne hd16 had,
      setFld_of_ne hd16 had]
  · obtain ⟨h1, h2, h3⟩ := hold' j hj e he'
    exact hother _ e h1 h2 h3

end Page

end

end Bucket

end Rdix
