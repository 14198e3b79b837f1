/-
  Heap safety of malloc and free_s in every run (kernel/malloc.c).

  * `mallocTake_spec`, `freePut_spec`: the part of a call with interrupts off keeps `HeapInv` and
    the bytes of the live blocks, and leaves other buckets alone (`Beside`);
  * `malloc_spec`, `freeS_spec`: so does a call that is not interrupted;
  * `heapSys` is any order of `malloc`, of `free` of live blocks and of writes inside live
    blocks, over any page allocator; `heapSafe_reach` is what holds in all its states;
  * `kpager_ok`: `alloc_kpage` and `free_kpage` (kernel/memory.c) are such an allocator.
-/
import Rdix.Lib.Run
import Rdix.Kernel.Heap

namespace Rdix

open ByteMem Linked Transition

variable {P : Type}

/-- What the heap relies on: `get_free_page` returns a page not in use, or 0, and `free_page` takes
    back a page in use. -/
structure PagerOk (pager : Pager P) (valid : P → Prop) (used : P → Set ℕ) : Prop where
  get : ∀ p, valid p → ∃ pg p', pager.get_free_page p = .ok (pg, p') ∧ valid p' ∧
    (pg ≠ 0 → pg % pageSize = 0 ∧ pg + pageSize ≤ 2 ^ 32 ∧ pg ∉ used p ∧
      used p' = insert pg (used p))
  free : ∀ p pg, valid p → pg ∈ used p → ∃ p', pager.free_page p pg = .ok p' ∧ valid p' ∧
    used p' = used p \ {pg}

/-- One of the next two calls of `get_free_page` finds no page. -/
def NoPage (pager : Pager P) (p : P) : Prop :=
  (∃ p', pager.get_free_page p = .ok (0, p')) ∨
  ∃ pg p' p'', pager.get_free_page p = .ok (pg, p') ∧ pager.get_free_page p' = .ok (0, p'')

/-- The heap between two calls: laid out as `L`, every bucket with a live block. -/
structure HeapInv (valid : P → Prop) (used : P → Set ℕ) (h : Heap P) (live : List (ℕ × ℕ))
    (L : Layout) : Prop where
  core : Core h.mem h.first_bucket h.free_bucket_desc (used h.pages) live L
  busy : ∀ i < 9, ∀ d ∈ L.pool i, liveOn live (fld h.mem .page d) ≠ []
  valid : valid h.pages

/-- The bytes of the live blocks are the same. -/
def SameBytes (live : List (ℕ × ℕ)) (mem mem' : Bytes) : Prop :=
  ∀ b ∈ live, ∀ i, bucketFor b.2 = some i → ∀ a, b.1 ≤ a → a < b.1 + bucketSize i → mem' a = mem a

/-- `d` is on the chain of pool `i`. -/
def Heap.InPool (h : Heap P) (i d : ℕ) : Prop :=
  ∃ l, Chain 0 (fld h.mem .next_desc) (h.first_bucket i) l ∧ d ∈ l

section Calls
variable {pager : Pager P} {valid : P → Prop} {used : P → Set ℕ} {h : Heap P}
  {live : List (ℕ × ℕ)} {L : Layout} {i b d n p : ℕ}

/-! ## malloc -/

theorem Kept.trans {mem mem' mem'' : Bytes} {L' : Layout} (h : Kept live L mem mem')
    (h' : Kept live L' mem' mem'') (hL : ∀ j < 9, ∀ e ∈ L.pool j, e ∈ L'.pool j) :
    Kept live L mem mem'' where
  bytes b hb i hi a h1 h2 := (h'.bytes b hb i hi a h1 h2).trans (h.bytes b hb i hi a h1 h2)
  page j hj e he := (h'.page j hj e (hL j hj e he)).trans (h.page j hj e he)

theorem Core.inPool_iff
    (H : Core h.mem h.first_bucket h.free_bucket_desc (used h.pages) live L) (hi : i < 9) :
    h.InPool i d ↔ d ∈ L.pool i := by
  constructor
  · rintro ⟨l, hl, hd⟩
    exact hl.unique (H.pool i hi) ▸ hd
  · intro hd
    exact ⟨_, H.pool i hi, hd⟩

/-- What is done to the bucket `b` leaves the other buckets, their free blocks and pages, and takes
    no descriptor away. -/
structure Beside (L : Layout) (mem : Bytes) (b : ℕ) (L' : Layout) (mem' : Bytes) : Prop where
  pool : ∀ j < 9, ∀ e ∈ L.pool j, e ≠ b → e ∈ L'.pool j
  free : ∀ j < 9, ∀ e ∈ L.pool j, e ≠ b → L'.free e = L.free e
  page : ∀ j < 9, ∀ e ∈ L.pool j, fld mem' .page e = fld mem .page e
  desc : ∀ e, L.Desc e → L'.Desc e

/-- The heap `h₁` with a bucket `d` of pool `i` that has a free block, as the pool or the page allocator
    gave it to a call on `h`. -/
structure Stocked (valid : P → Prop) (used : P → Set ℕ) (h : Heap P) (live : List (ℕ × ℕ)) (L : Layout)
    (i d : ℕ) (h₁ : Heap P) (L₁ : Layout) : Prop where
  pages : valid h₁.pages
  grow : used h.pages ⊆ used h₁.pages
  core : Core h₁.mem h₁.first_bucket h₁.free_bucket_desc (used h₁.pages) live L₁
  kept : Kept live L h.mem h₁.mem
  mem : d ∈ L₁.pool i
  ptr : fld h₁.mem .freeptr d ≠ 0
  back : ∀ j < 9, ∀ e ∈ L₁.pool j, e = d ∨ e ∈ L.pool j
  beside : Beside L h.mem d L₁ h₁.mem

/-- The chain of a pool is shorter than any walk that ends. -/
theorem Core.pool_length (H : Core h.mem h.first_bucket h.free_bucket_desc (used h.pages) live L)
    (hi : i < 9) : (L.pool i).length < walkFuel := by
  have hch := H.pool i hi
  have hsub : (L.pool i).toFinset ⊆ Finset.Ioo 0 (2 ^ 32) := by
    intro x hx
    rw [List.mem_toFinset] at hx
    exact Finset.mem_Ioo.2 ⟨Nat.pos_of_ne_zero (hch.ne_nil hx), (H.desc x (Or.inr ⟨i, hi, hx⟩)).2.1⟩
  have := Finset.card_le_card hsub
  rw [List.toFinset_card_of_nodup hch.nodup, Nat.card_Ioo] at this
  exact lt_of_le_of_lt this (by decide)

section
variable (hP : PagerOk pager valid used)
include hP

theorem bucketDecInit_spec
    (H : Core h.mem h.first_bucket h.free_bucket_desc (used h.pages) live L) (hv : valid h.pages) :
    (∃ p', pager.get_free_page h.pages = .ok (0, p') ∧
      bucketDecInit pager h = .error (.panic "out of memory in bucket_dec_init()")) ∨
    ∃ pg h' d spare, bucketDecInit pager h = .ok h' ∧ h'.first_bucket = h.first_bucket ∧
      pager.get_free_page h.pages = .ok (pg, h'.pages) ∧ valid h'.pages ∧
      used h.pages ⊆ used h'.pages ∧
      Core h'.mem h'.first_bucket h'.free_bucket_desc (used h'.pages) live
        { L with spare := d :: spare } ∧ Kept live L h.mem h'.mem := by
  obtain ⟨pg, p', hg, hv', hfresh⟩ := hP.get h.pages hv
  by_cases h0 : pg = 0
  · subst h0
    exact Or.inl ⟨p', hg, by simp [bucketDecInit, hg]⟩
  · right
    obtain ⟨hmod, hlt, hnew, hused⟩ := hfresh h0
    obtain ⟨mem', last, he, hcore, hkept⟩ := H.addDescs hmod h0 hlt hnew
    obtain ⟨l, hl⟩ : ∃ l, blocksOf pg descSize = pg :: l := by
      refine ⟨(List.range 255).map fun k => pg + (k + 1) * 16, ?_⟩
      simp only [blocksOf, pageSize, descSize, Nat.reduceDiv]
      rw [List.range_succ_eq_map, List.map_cons, List.map_map]
      simp [Function.comp_def]
    rw [hl, List.cons_append] at hcore
    refine ⟨pg, ⟨setFld mem' .next_desc last h.free_bucket_desc, pg, h.first_bucket, p'⟩, pg,
      l ++ L.spare, ?_, rfl, hg, hv', ?_, ?_, hkept⟩
    · simp [bucketDecInit, hg, h0, he]
    · rw [hused]
      exact Set.subset_insert _ _
    · rw [hused]
      exact hcore

theorem addBucket_spec (hi : i < 9) {spare : List ℕ}
    (H : Core h.mem h.first_bucket h.free_bucket_desc (used h.pages) live L)
    (hspare : L.spare = d :: spare) (hv : valid h.pages) :
    (∃ p', pager.get_free_page h.pages = .ok (0, p') ∧
      addBucket pager h i = .error (.panic "out of memory in malloc")) ∨
    ∃ h' L', addBucket pager h i = .ok (h', d) ∧ Stocked valid used h live L i d h' L' ∧
      ∀ j < 9, d ∉ L.pool j := by
  obtain ⟨pg, p', hg, hv', hfresh⟩ := hP.get h.pages hv
  have hnot : ∀ j < 9, d ∉ L.pool j := fun j hj hd =>
    (H.disj j hj d hd).1 (hspare ▸ List.mem_cons_self)
  have hfd : h.free_bucket_desc = d := by
    have := H.spare
    rw [hspare] at this
    exact (chain_cons_iff.1 this).1
  have hd16 : d % 16 = 0 := (H.desc d (Or.inl (hspare ▸ List.mem_cons_self))).1
  -- the pointer that is tested is the page that was returned
  have hptr : ∀ m : Bytes, pg < 2 ^ 32 → fld (setFld (setFld m .freeptr d pg) .refcnt d 0) .freeptr d
      = pg := by
    intro m hlt
    rw [fld_setFld hd16 hd16, if_neg (by simp), fld_setFld hd16 hd16, if_pos ⟨rfl, rfl⟩]
    exact Nat.mod_eq_of_lt hlt
  by_cases h0 : pg = 0
  · subst h0
    left
    refine ⟨p', hg, ?_⟩
    simp [addBucket, hg, hfd, hptr _ (Nat.two_pow_pos 32)]
  · right
    obtain ⟨hmod, hlt, hnew, hused⟩ := hfresh h0
    obtain ⟨mem', last, he, hp, hcore, hkept⟩ := H.addBucket hmod h0 hlt hnew hi hspare rfl
    have hlt' : pg < 2 ^ 32 := by
      simp only [pageSize] at hlt
      omega
    refine ⟨⟨setFld mem' .next_desc last 0, fld h.mem .next_desc d,
      Function.update h.first_bucket i d, p'⟩, _, ?_, ⟨hv', ?_, hused ▸ hcore, hkept, ?_, ?_, ?_,
      ⟨?_, fun j hj e he' hed => Function.update_of_ne hed .., hkept.page, ?_⟩⟩, hnot⟩
    · simp [addBucket, hg, hfd, hptr _ hlt', h0, he]
    · rw [hused]
      exact Set.subset_insert _ _
    · simp
    · rw [hp]
      exact h0
    · intro j hj e he'
      by_cases hji : j = i
      · subst hji
        simpa using he'
      · simp only [Function.update_of_ne hji] at he'
        exact Or.inr he'
    · intro j hj e he' _
      by_cases hji : j = i
      · subst hji
        simpa using Or.inr he'
      · simpa only [Function.update_of_ne hji] using he'
    · rintro e (he' | ⟨j, hj, he'⟩)
      · rw [hspare] at he'
        rcases List.mem_cons.1 he' with rfl | he'
        · exact Or.inr ⟨i, hi, by simp⟩
        · exact Or.inl he'
      · refine Or.inr ⟨j, hj, ?_⟩
        by_cases hji : j = i
        · subst hji
          simpa using Or.inr he'
        · simpa only [Function.update_of_ne hji] using he'

/-- The branch for a pool without a free block adds a bucket with free blocks only. -/
theorem newBucket_spec (hi : i < 9)
    (H : Core h.mem h.first_bucket h.free_bucket_desc (used h.pages) live L) (hv : valid h.pages) :
    (NoPage pager h.pages ∧ ∃ msg, newBucket pager h i = .error (.panic msg)) ∨
    ∃ h' d L', newBucket pager h i = .ok (h', d) ∧ Stocked valid used h live L i d h' L' ∧
      ∀ j < 9, d ∉ L.pool j := by
  unfold newBucket
  by_cases h0 : h.free_bucket_desc = 0
  · rw [if_pos h0]
    rcases bucketDecInit_spec hP H hv with ⟨p', hg, he⟩ | ⟨pg, h₁, d, spare, he, -, hg, hv₁, hu₁, H₁, K₁⟩
    · exact Or.inl ⟨Or.inl ⟨p', hg⟩, _, by rw [he]; rfl⟩
    · rw [he, ok_bind]
      rcases addBucket_spec hP hi H₁ rfl hv₁ with ⟨p', hg', he'⟩ | ⟨h₂, L₂, he', R, hnot⟩
      · exact Or.inl ⟨Or.inr ⟨pg, _, p', hg, hg'⟩, _, he'⟩
      · have K := K₁.trans R.kept fun _ _ _ h => h
        refine Or.inr ⟨h₂, d, L₂, he', ⟨R.pages, hu₁.trans R.grow, R.core, K, R.mem, R.ptr, R.back,
          R.beside.pool, R.beside.free, K.page, ?_⟩, hnot⟩
        -- there were no spare descriptors
        rintro e (he | he)
        · rw [H.spare.eq_nil_iff.1 h0] at he
          cases he
        · exact R.beside.desc e (Or.inr he)
  · rw [if_neg h0, pure_eq_ok, ok_bind]
    obtain ⟨d, spare, hspare⟩ : ∃ d spare, L.spare = d :: spare :=
      List.exists_cons_of_ne_nil fun h' => h0 (H.spare.eq_nil_iff.2 h')
    rcases addBucket_spec hP hi H hspare hv with ⟨p', hg', he'⟩ | ⟨h₂, L₂, he', hrest⟩
    · exact Or.inl ⟨Or.inl ⟨p', hg'⟩, _, he'⟩
    · exact Or.inr ⟨h₂, d, L₂, he', hrest⟩

/-- The bucket that a search found has a free block, or one is made. -/
theorem mallocBucket_spec (hi : i < 9)
    (H : Core h.mem h.first_bucket h.free_bucket_desc (used h.pages) live L) (hv : valid h.pages)
    (hb : b = 0 ∨ b ∈ L.pool i ∧ fld h.mem .freeptr b ≠ 0) :
    (NoPage pager h.pages ∧ ∃ msg, mallocBucket pager h i b = .error (.panic msg)) ∨
    ∃ h₁ d L₁, mallocBucket pager h i b = .ok (h₁, d) ∧ Stocked valid used h live L i d h₁ L₁ ∧
      (b ≠ 0 → h₁ = h ∧ d = b ∧ L₁ = L) ∧ (b = 0 → ∀ j < 9, d ∉ L.pool j) := by
  unfold mallocBucket
  by_cases h0 : b = 0
  · rw [if_pos h0]
    rcases newBucket_spec hP hi H hv with hno | ⟨h₁, d, L₁, he, R, hnot⟩
    · exact Or.inl hno
    · exact Or.inr ⟨h₁, d, L₁, he, R, fun h => absurd h0 h, fun _ => hnot⟩
  · rw [if_neg h0]
    obtain ⟨hbL, hptr⟩ := hb.resolve_left h0
    exact Or.inr ⟨h, b, L, rfl, ⟨hv, le_rfl, H, ⟨fun _ _ _ _ _ _ _ => rfl, fun _ _ _ _ => rfl⟩, hbL, hptr,
      fun _ _ _ he => Or.inr he, fun _ _ _ he _ => he, fun _ _ _ _ _ => rfl, fun _ _ _ _ => rfl,
      fun _ he => he⟩, fun _ => ⟨rfl, rfl, rfl⟩, fun h => absurd h h0⟩

omit hP in
/-- A bucket with a free block gives it away. -/
theorem takeBlock_spec {h₁ : Heap P} {L₁ : Layout} (hn : bucketFor n = some i)
    (R : Stocked valid used h live L i d h₁ L₁)
    (hbusy : ∀ j < 9, ∀ e ∈ L.pool j, liveOn live (fld h.mem .page e) ≠ []) :
    ∃ rest, L₁.free d = fld h₁.mem .freeptr d :: rest ∧
      HeapInv valid used (takeBlock h₁ d).1 ((fld h₁.mem .freeptr d, n) :: live)
        { L₁ with free := Function.update L₁.free d rest } ∧
      Kept live L₁ h₁.mem (takeBlock h₁ d).1.mem := by
  obtain ⟨hi9, -⟩ := bucketFor_spec hn
  obtain ⟨rest, hfree, hcore, hkept⟩ := R.core.take hn R.mem R.ptr rfl rfl
  refine ⟨rest, hfree, ⟨hcore, fun j hj e he => ?_, R.pages⟩, hkept⟩
  have hpp : pageOf (fld h₁.mem .freeptr d) = fld h₁.mem .page d :=
    ((R.core.bucket i hi9 d R.mem).block hi9 (Or.inl (hfree ▸ List.mem_cons_self))).2.2
  have hpe : fld (takeBlock h₁ d).1.mem .page e = fld h₁.mem .page e := hkept.page j hj e he
  rw [hpe]
  rcases R.back j hj e he with rfl | heL
  · rw [liveOn_cons_pos hpp]
    simp
  · by_cases hpg : pageOf (fld h₁.mem .freeptr d) = fld h₁.mem .page e
    · rw [liveOn_cons_pos hpg]
      simp
    · rw [liveOn_cons_neg hpg, R.kept.page j hj e heL]
      exact hbusy j hj e heL

/-- What is taken from the bucket `b` that a search found, or from a new one. -/
structure Taken (valid : P → Prop) (used : P → Set ℕ) (h : Heap P) (live : List (ℕ × ℕ)) (L : Layout)
    (i b n : ℕ) (h' : Heap P) (p : ℕ) (L' : Layout) : Prop where
  inv : HeapInv valid used h' ((p, n) :: live) L'
  ne : p ≠ 0
  grow : used h.pages ⊆ used h'.pages
  bytes : SameBytes live h.mem h'.mem
  beside : Beside L h.mem b L' h'.mem
  found : b ≠ 0 → b ∈ L'.pool i ∧ L.free b = p :: L'.free b

/-- **The part of `malloc` with interrupts off takes a block that was not live**, from a bucket on the
    chain of the pool that has one, unless a page is missing. -/
theorem mallocTake_spec (hn : bucketFor n = some i) (H : HeapInv valid used h live L)
    (hb : b = 0 ∨ b ∈ L.pool i ∧ fld h.mem .freeptr b ≠ 0) :
    (NoPage pager h.pages ∧ ∃ msg, mallocTake pager h i b = .error (.panic msg)) ∨
    ∃ h₁ d h' p L', mallocBucket pager h i b = .ok (h₁, d) ∧ h₁.InPool i d ∧
      fld h₁.mem .freeptr d ≠ 0 ∧ mallocTake pager h i b = .ok (h', p) ∧
      Taken valid used h live L i b n h' p L' := by
  obtain ⟨hi9, -⟩ := bucketFor_spec hn
  unfold mallocTake
  rcases mallocBucket_spec hP hi9 H.core H.valid hb with
    ⟨hno, msg, he⟩ | ⟨h₁, d, L₁, he, R, hold, hnew⟩
  · exact Or.inl ⟨hno, msg, by rw [he]; rfl⟩
  · right
    obtain ⟨rest, hfree, hinv, hkept⟩ := takeBlock_spec hn R H.busy
    have hd : ∀ j < 9, ∀ e ∈ L.pool j, e ≠ b → e ≠ d := by
      rintro j hj e heL hne rfl
      by_cases h0 : b = 0
      · exact hnew h0 j hj heL
      · exact hne (hold h0).2.1
    refine ⟨h₁, d, (takeBlock h₁ d).1, fld h₁.mem .freeptr d, _, he, (R.core.inPool_iff hi9).2 R.mem, R.ptr,
      by rw [he]; rfl, hinv, R.ptr, R.grow, fun c hc j hj a h1 h2 => ?_, ⟨fun j hj e he hne => ?_,
      fun j hj e he hne => ?_, fun j hj e he => ?_, R.beside.desc⟩, fun h0 => ?_⟩
    · exact (hkept.bytes c hc j hj a h1 h2).trans (R.kept.bytes c hc j hj a h1 h2)
    · exact R.beside.pool j hj e he (hd j hj e he hne)
    · exact (Function.update_of_ne (hd j hj e he hne) ..).trans
        (R.beside.free j hj e he (hd j hj e he hne))
    · by_cases hed : e = d
      · by_cases h0 : b = 0
        · exact absurd (hed ▸ he) (hnew h0 j hj)
        · obtain ⟨rfl, -, rfl⟩ := hold h0
          exact hkept.page j hj e he
      · exact (hkept.page j hj e (R.beside.pool j hj e he hed)).trans (R.kept.page j hj e he)
    · obtain ⟨rfl, rfl, rfl⟩ := hold h0
      refine ⟨R.mem, ?_⟩
      simp only [Function.update_self]
      exact hfree

/-- **`malloc` returns a block that was not live and changes no live one**, unless a page is missing. -/
theorem malloc_spec (hn : n ≤ pageSize) (H : HeapInv valid used h live L) :
    (NoPage pager h.pages ∧ ∃ msg, malloc pager h n = .error (.panic msg)) ∨
    ∃ h' p L', malloc pager h n = .ok (h', p) ∧ HeapInv valid used h' ((p, n) :: live) L' ∧
      used h.pages ⊆ used h'.pages ∧
      ∀ b ∈ live, ∀ i, bucketFor b.2 = some i → ∀ a, b.1 ≤ a → a < b.1 + bucketSize i →
        h'.mem a = h.mem a := by
  obtain ⟨i, hi⟩ := bucketFor_le hn
  obtain ⟨hi9, -⟩ := bucketFor_spec hi
  obtain ⟨a, b, hw, hb⟩ : ∃ a b, walk 0 (fld h.mem .next_desc) (fun d => fld h.mem .freeptr d ≠ 0) walkFuel
      0 (h.first_bucket i) = some (a, b) ∧ (b = 0 ∨ b ∈ L.pool i ∧ fld h.mem .freeptr b ≠ 0) := by
    rcases walk_chain (fun d => decide (fld h.mem .freeptr d ≠ 0)) 0 (H.core.pool i hi9)
      (H.core.pool_length hi9) with ⟨-, a, hw⟩ | ⟨l₁, d, l₂, hl, hd, hw⟩
    · exact ⟨a, 0, hw, Or.inl rfl⟩
    · exact ⟨_, d, hw, Or.inr ⟨by simp [hl], by simpa using hd⟩⟩
  rw [malloc_eq hi hw]
  rcases mallocTake_spec hP hi H hb with hno | ⟨-, -, h', p, L', -, -, -, he, K⟩
  · exact Or.inl hno
  · exact Or.inr ⟨h', p, L', he, K.inv, K.grow, K.bytes⟩

end

/-! ## free_s -/

/-- The search finds the descriptor of a page and the one before it. -/
theorem findDesc_spec (H : Core h.mem h.first_bucket h.free_bucket_desc (used h.pages) live L)
    (hi : i < 9) (hd : d ∈ L.pool i) (bdirs : List ℕ) (hlt : ∀ j ∈ bdirs, j < 9) (hmem : i ∈ bdirs) :
    ∃ l₁ l₂, L.pool i = l₁ ++ d :: l₂ ∧
      findDesc h 0 (fld h.mem .page d) bdirs = .ok (i, l₁.getLast?.getD 0, d) := by
  have hd0 : d ≠ 0 := (H.pool i hi).ne_nil hd
  induction bdirs with
  | nil => cases hmem
  | cons j bdirs ih =>
    have hj := hlt j List.mem_cons_self
    have hrest := ih fun k hk => hlt k (List.mem_cons_of_mem j hk)
    simp only [findDesc, Nat.not_lt_zero, if_false]
    rcases walk_chain (fun e => decide (fld h.mem .page e = fld h.mem .page d)) 0 (H.pool j hj)
      (H.pool_length hj) with ⟨hall, b, hw⟩ | ⟨l₁, e, l₂, hl, he, hw⟩
    · -- no descriptor of this pool has the page
      have hji : i ≠ j := by
        rintro rfl
        simpa using hall d hd
      obtain ⟨l₁, l₂, hl, he⟩ := hrest ((List.mem_cons.1 hmem).resolve_left hji)
      exact ⟨l₁, l₂, hl, by simp only [hw, if_true]; exact he⟩
    · obtain rfl : e = d :=
        (H.bucket i hi d hd).page_inj j hj e (by simp [hl]) (of_decide_eq_true he)
      obtain rfl := (H.disj i hi e hd).2 j hj (by simp [hl])
      exact ⟨l₁, l₂, hl, by simp only [hw]; rw [if_neg hd0]; rfl⟩

section
variable (hP : PagerOk pager valid used)
include hP

/-- A bucket without live blocks is unlinked and its page returned. -/
theorem dropBucket_spec (H : Core h.mem h.first_bucket h.free_bucket_desc (used h.pages) live L)
    (hv : valid h.pages) (hi : i < 9) {l₁ l₂ : List ℕ} (hl : L.pool i = l₁ ++ d :: l₂)
    (hlive : liveOn live (fld h.mem .page d) = []) :
    ∃ h' L', dropBucket pager h i (l₁.getLast?.getD 0) d = .ok h' ∧ valid h'.pages ∧
      used h'.pages = used h.pages \ {fld h.mem .page d} ∧
      Core h'.mem h'.first_bucket h'.free_bucket_desc (used h'.pages) live L' ∧
      Kept live L h.mem h'.mem ∧ (∀ j < 9, ∀ e ∈ L'.pool j, e ∈ L.pool j ∧ e ≠ d) ∧
      Beside L h.mem d L' h'.mem := by
  have hd : d ∈ L.pool i := by simp [hl]
  have B := H.bucket i hi d hd
  obtain ⟨hdesc, hd16, -⟩ := H.desc_of_pool hi hd
  have hd0 : d ≠ 0 := (H.pool i hi).ne_nil hd
  have hnd := (H.pool i hi).nodup
  rw [hl] at hnd
  obtain ⟨p', hp', hv', hu'⟩ := hP.free h.pages _ hv B.page_used
  have hL' : ∀ j < 9, ∀ e ∈ Function.update L.pool i (l₁ ++ l₂) j, e ∈ L.pool j ∧ e ≠ d := by
    intro j hj e he
    by_cases hji : j = i
    · subst hji
      rw [Function.update_self] at he
      refine ⟨?_, fun h => (List.nodup_middle.1 hnd).notMem (h ▸ he)⟩
      rw [hl]
      rcases List.mem_append.1 he with h | h
      · exact List.mem_append_left _ h
      · exact List.mem_append_right _ (List.mem_cons_of_mem d h)
    · rw [Function.update_of_ne hji] at he
      exact ⟨he, fun h => hji ((H.disj i hi d hd).2 j hj (h ▸ he)).symm⟩
  have hpool : ∀ j < 9, ∀ e ∈ L.pool j, e ≠ d → e ∈ Function.update L.pool i (l₁ ++ l₂) j := by
    intro j hj e he hed
    by_cases hji : j = i
    · subst hji
      rw [hl] at he
      rw [Function.update_self]
      simp only [List.mem_append, List.mem_cons] at he ⊢
      tauto
    · rwa [Function.update_of_ne hji]
  have hdesc' : ∀ e, L.Desc e →
      Layout.Desc { L with pool := Function.update L.pool i (l₁ ++ l₂), spare := d :: L.spare } e := by
    rintro e (he | ⟨j, hj, he⟩)
    · exact Or.inl (List.mem_cons_of_mem d he)
    · by_cases hed : e = d
      · exact Or.inl (hed ▸ List.mem_cons_self)
      · exact Or.inr ⟨j, hj, hpool j hj e he hed⟩
  cases hlast : l₁.getLast? with
  | none =>
    obtain rfl := List.getLast?_eq_none_iff.1 hlast
    have hfirst : h.first_bucket i = d := by
      have := H.pool i hi
      rw [hl] at this
      exact (chain_cons_iff.1 this).1
    obtain ⟨hcore, hkept⟩ := H.drop hi hl hlive (Or.inl ⟨rfl, rfl, rfl⟩)
    refine ⟨⟨setFld h.mem .next_desc d h.free_bucket_desc, d, Function.update h.first_bucket i
      (fld h.mem .next_desc d), p'⟩, { L with pool := _, spare := _ }, ?_, hv', hu', hu' ▸ hcore, hkept, hL',
      hpool, fun _ _ _ _ _ => rfl, hkept.page, hdesc'⟩
    simp [dropBucket, hfirst, hd0, hp']
  | some prev =>
    obtain ⟨l, rfl⟩ : ∃ l, l₁ = l ++ [prev] := by
      refine ⟨l₁.dropLast, (List.dropLast_append_getLast? prev ?_).symm⟩
      rw [hlast]
      rfl
    have hch := H.pool i hi
    rw [hl, List.append_assoc, List.singleton_append] at hch
    have hprev0 : prev ≠ 0 := hch.ne_nil (by simp)
    have hprev16 : prev % 16 = 0 := (H.desc_of_pool hi (by simp [hl])).2.1
    obtain ⟨hcore, hkept⟩ := H.drop hi hl hlive (Or.inr ⟨l, prev, rfl, rfl, rfl⟩)
    have hpage : fld (setFld h.mem .next_desc prev (fld h.mem .next_desc d)) .page d =
        fld h.mem .page d := by
      rw [fld_setFld hprev16 hd16, if_neg (by simp)]
    refine ⟨⟨setFld (setFld h.mem .next_desc prev (fld h.mem .next_desc d)) .next_desc d
      h.free_bucket_desc, d, h.first_bucket, p'⟩, { L with pool := _, spare := _ }, ?_, hv', hu',
      hu' ▸ hcore, hkept, hL', hpool, fun _ _ _ _ _ => rfl, hkept.page, hdesc'⟩
    simp [dropBucket, hprev0, hch.link, hd0, hpage, hp']

/-- What is left when the block `p` went back to the bucket `d`. -/
structure Given (valid : P → Prop) (used : P → Set ℕ) (h : Heap P) (live : List (ℕ × ℕ)) (L : Layout)
    (i d p : ℕ) (h' : Heap P) (L' : Layout) : Prop where
  inv : HeapInv valid used h' (dropLive live p) L'
  pages : used h'.pages = if ∃ q ∈ (dropLive live p).map Prod.fst, pageOf q = pageOf p
    then used h.pages else used h.pages \ {pageOf p}
  bytes : SameBytes (dropLive live p) h.mem h'.mem
  beside : Beside L h.mem d L' h'.mem
  kept : fld h.mem .refcnt d ≠ 1 → d ∈ L'.pool i ∧ L'.free d = p :: L.free d

/-- **The part of `free_s` with interrupts off puts the block back into its bucket**, and releases the
    bucket if it was the last live block.  Only then it matters that `prev` is in front of the bucket. -/
theorem freePut_spec (H : HeapInv valid used h live L) (hb : (p, n) ∈ live) (hi : i < 9)
    (hd : d ∈ L.pool i) (hpg : fld h.mem .page d = pageOf p)
    (hprev : fld h.mem .refcnt d = 1 →
      ∃ l₁ l₂, L.pool i = l₁ ++ d :: l₂ ∧ l₁.getLast?.getD 0 = b) :
    ∃ h' L', freePut pager h i b d p = .ok h' ∧ Given valid used h live L i d p h' L' := by
  have B := H.core.bucket i hi d hd
  -- the bucket is the one that owns the block
  have hn : bucketFor n = some i := by
    obtain ⟨k, hk, e, he, hpe⟩ := H.core.owned _ hb
    obtain rfl : e = d := B.page_inj k (bucketFor_spec hk).1 e he (hpe.symm.trans hpg.symm)
    rw [(H.core.disj i hi e hd).2 k (bucketFor_spec hk).1 he, hk]
  obtain ⟨H₁, K₁⟩ := H.core.put hn hb hd hpg.symm rfl
  have B₁ := H₁.bucket i hi d hd
  have hpage : fld (putBlock h d p).mem .page d = pageOf p := (K₁.page i hi d hd).trans hpg
  have hiff : liveOn (dropLive live p) (pageOf p) = [] ↔
      ¬ ∃ q ∈ (dropLive live p).map Prod.fst, pageOf q = pageOf p := by
    rw [liveOn, List.filter_eq_nil_iff]
    simp only [decide_eq_true_eq, not_exists, not_and]
  have hcond : fld (putBlock h d p).mem .refcnt d = 0 ↔ liveOn (dropLive live p) (pageOf p) = [] := by
    rw [B₁.refcnt, hpage, List.length_eq_zero_iff]
  have hone : liveOn (dropLive live p) (pageOf p) = [] ↔ fld h.mem .refcnt d = 1 := by
    have hlen := (perm_liveOn_dropLive H.core.nodup
      (mem_liveOn.2 ⟨List.mem_map_of_mem hb, hpg.symm⟩)).length_eq
    rw [B.refcnt, ← hlen, List.length_cons, hpg, Nat.add_eq_right, List.length_eq_zero_iff]
  -- the buckets other than `d` keep their live blocks
  have hbusy : ∀ j < 9, ∀ e ∈ L.pool j, e ≠ d →
      liveOn (dropLive live p) (fld (putBlock h d p).mem .page e) ≠ [] := by
    intro j hj e he hed
    have hpe : fld (putBlock h d p).mem .page e = fld h.mem .page e := K₁.page j hj e he
    rw [hpe, liveOn_dropLive_of_ne]
    · exact H.busy j hj e he
    · intro hp
      exact hed (B.page_inj j hj e he (hp.symm.trans hpg.symm))
  simp only [freePut, hcond]
  by_cases hempty : liveOn (dropLive live p) (pageOf p) = []
  · rw [if_pos hempty]
    obtain ⟨l₁, l₂, hl, rfl⟩ := hprev (hone.1 hempty)
    obtain ⟨h', L', he, hv', hu', H', K', hL', S'⟩ := dropBucket_spec hP H₁ H.valid hi hl
      (by rw [hpage]; exact hempty)
    refine ⟨h', L', he, ⟨H', fun j hj e he' => ?_, hv'⟩, ?_, fun c hc j hj a h1 h2 => ?_,
      ⟨S'.pool, fun j hj e he' hed => ?_, fun j hj e he' => ?_, S'.desc⟩, fun hne => ?_⟩
    · obtain ⟨he1, he2⟩ := hL' j hj e he'
      rw [K'.page j hj e he1]
      exact hbusy j hj e he1 he2
    · rw [if_neg (hiff.1 hempty), hu', hpage]
      rfl
    · exact (K'.bytes c hc j hj a h1 h2).trans (K₁.bytes c hc j hj a h1 h2)
    · exact (S'.free j hj e he' hed).trans (Function.update_of_ne hed ..)
    · exact (S'.page j hj e he').trans (K₁.page j hj e he')
    · exact absurd (hone.1 hempty) hne
  · rw [if_neg hempty]
    refine ⟨_, _, rfl, ⟨H₁, fun j hj e he => ?_, H.valid⟩, ?_, K₁.bytes, ⟨fun j hj e he _ => he,
      fun j hj e he hed => Function.update_of_ne hed .., K₁.page, fun e he => he⟩,
      fun _ => ⟨hd, Function.update_self ..⟩⟩
    · by_cases hed : e = d
      · rw [hed, hpage]
        exact hempty
      · exact hbusy j hj e he hed
    · rw [if_pos (not_not.1 fun h => hempty (hiff.2 h))]
      rfl

/-- **`free` takes a live block back and changes no other**, and returns its page exactly if no other
    live block is in it. -/
theorem freeS_spec (H : HeapInv valid used h live L) (hb : (p, n) ∈ live) :
    ∃ h' L', freeS pager h p 0 = .ok h' ∧ HeapInv valid used h' (dropLive live p) L' ∧
      (used h'.pages = if ∃ q ∈ (dropLive live p).map Prod.fst, pageOf q = pageOf p then used h.pages
        else used h.pages \ {pageOf p}) ∧
      ∀ b ∈ dropLive live p, ∀ i, bucketFor b.2 = some i → ∀ a, b.1 ≤ a → a < b.1 + bucketSize i →
        h'.mem a = h.mem a := by
  obtain ⟨i, hi, d, hd, hpg⟩ := H.core.owned _ hb
  obtain ⟨hi9, -⟩ := bucketFor_spec hi
  obtain ⟨l₁, l₂, hl, hfind⟩ := findDesc_spec H.core hi9 hd
    (List.range bucketDir.length) (fun j hj => List.mem_range.1 hj) (List.mem_range.2 hi9)
  rw [freeS_eq (by rw [show p / pageSize * pageSize = fld h.mem .page d from hpg]; exact hfind)]
  obtain ⟨h', L', he, G⟩ := freePut_spec hP H hb hi9 hd hpg.symm fun _ => ⟨l₁, l₂, hl, rfl⟩
  exact ⟨h', L', he, G.inv, G.pages, G.bytes⟩

end

end Calls

/-! ## Runs -/

/-- A heap and its live blocks, each with the size that was asked for. -/
structure HState (P : Type) where
  heap : Heap P
  live : List (ℕ × ℕ)

inductive HOp where
  | malloc (n : ℕ)
  | free (p : ℕ)
  | write (a : ℕ) (v : BitVec 8)

/-- The heap before the first call. -/
def Heap.Fresh (h : Heap P) : Prop := h.free_bucket_desc = 0 ∧ ∀ i, h.first_bucket i = 0

/-- The runs of `malloc` of at most a page, `free` of live blocks and writes inside live blocks. -/
def heapSys (pager : Pager P) (h₀ : Heap P) : Sys (HState P) HOp where
  init s := s = ⟨h₀, []⟩
  step s op t := match op with
    | .malloc n => n ≤ pageSize ∧ ∃ h p, malloc pager s.heap n = .ok (h, p) ∧
        t = ⟨h, (p, n) :: s.live⟩
    | .free p => (∃ n, (p, n) ∈ s.live) ∧ ∃ h, freeS pager s.heap p 0 = .ok h ∧
        t = ⟨h, dropLive s.live p⟩
    | .write a v => (∃ b ∈ s.live, ∃ i, bucketFor b.2 = some i ∧ b.1 ≤ a ∧
          a < b.1 + bucketSize i) ∧
        t = ⟨{ s.heap with mem := Function.update s.heap.mem a v }, s.live⟩

/-- `d` is a descriptor, of a pool or spare. -/
def Heap.IsDesc (h : Heap P) (d : ℕ) : Prop :=
  (∃ i < 9, h.InPool i d) ∨
    ∃ l, Chain 0 (fld h.mem .next_desc) h.free_bucket_desc l ∧ d ∈ l

/-- A live block: large enough, aligned, in one page, which exactly one descriptor owns. -/
def Heap.BlockOk (h : Heap P) (b : ℕ × ℕ) : Prop :=
  ∃ i, bucketFor b.2 = some i ∧ b.2 ≤ bucketSize i ∧ b.1 % bucketSize i = 0 ∧
    (∀ a, b.1 ≤ a → a < b.1 + bucketSize i → pageOf a = pageOf b.1) ∧
    ∃ d, h.InPool i d ∧ fld h.mem .page d = pageOf b.1 ∧
      ∀ j < 9, ∀ e, h.InPool j e → fld h.mem .page e = pageOf b.1 → j = i ∧ e = d

/-- A descriptor of pool `i`: `refcnt` counts the live blocks of its page, and the free chain is
    the other blocks, once each. -/
def Heap.DescOk (h : Heap P) (live : List (ℕ × ℕ)) (i d : ℕ) : Prop :=
  fld h.mem .refcnt d = (liveOn live (fld h.mem .page d)).length ∧
    ∃ free, Chain 0 (fld h.mem .next_desc) (fld h.mem .freeptr d) free ∧ free.Nodup ∧
      free.length = pageSize / bucketSize i - fld h.mem .refcnt d ∧
      ∀ x, x ∈ free ↔ x ∈ blocksOf (fld h.mem .page d) (bucketSize i) ∧ x ∉ live.map Prod.fst

/-- Heap safety: the state of the heap, and what the next call does. -/
structure HeapSafe (pager : Pager P) (used : P → Set ℕ) (s : HState P) : Prop where
  block : ∀ b ∈ s.live, s.heap.BlockOk b
  nodup : (s.live.map Prod.fst).Nodup
  disjoint : ∀ b ∈ s.live, ∀ c ∈ s.live, b.1 ≠ c.1 → ∀ i j, bucketFor b.2 = some i →
    bucketFor c.2 = some j → b.1 + bucketSize i ≤ c.1 ∨ c.1 + bucketSize j ≤ b.1
  desc_page : ∀ d, s.heap.IsDesc d → ∀ b ∈ s.live, pageOf d ≠ pageOf b.1
  desc : ∀ i < 9, ∀ d, s.heap.InPool i d → s.heap.DescOk s.live i d
  malloc : ∀ n ≤ pageSize,
    (NoPage pager s.heap.pages ∧ ∃ msg, malloc pager s.heap n = .error (.panic msg)) ∨
    ∃ h p, malloc pager s.heap n = .ok (h, p) ∧ used s.heap.pages ⊆ used h.pages ∧
      SameBytes s.live s.heap.mem h.mem
  free : ∀ p n, (p, n) ∈ s.live → ∃ h, freeS pager s.heap p 0 = .ok h ∧
    (used h.pages = used s.heap.pages \ {pg | pg = pageOf p ∧
      ∀ q ∈ (dropLive s.live p).map Prod.fst, pageOf q ≠ pageOf p}) ∧
    SameBytes (dropLive s.live p) s.heap.mem h.mem

section Run
variable {pager : Pager P} {valid : P → Prop} {used : P → Set ℕ} {h₀ : Heap P} {s : HState P}

theorem HeapInv.init (hf : h₀.Fresh) (hv : valid h₀.pages) :
    HeapInv valid used h₀ [] ⟨fun _ => [], [], fun _ => []⟩ where
  core := by
    refine ⟨fun i _ => ?_, ?_, ?_, ?_, ?_, ?_, List.nodup_nil⟩
    · rw [hf.2 i]
      exact .nil
    · rw [hf.1]
      exact .nil
    · simp
    · rintro d (h | ⟨i, -, h⟩) <;> cases h
    · simp
    · simp
  busy := by simp
  valid := hv

/-- **Every state of a run is laid out.** -/
theorem HeapInv.reach (hP : PagerOk pager valid used) (hf : h₀.Fresh) (hv : valid h₀.pages)
    (hs : (heapSys pager h₀).Reach s) : ∃ L, HeapInv valid used s.heap s.live L := by
  refine hs.invariant (I := fun s => ∃ L, HeapInv valid used s.heap s.live L) (fun s hs => ?_)
    fun s op t hI hst => ?_
  · obtain rfl : s = ⟨h₀, []⟩ := hs
    exact ⟨_, .init hf hv⟩
  · obtain ⟨L, H⟩ := hI
    cases op with
    | malloc n =>
      obtain ⟨hn, h, p, he, rfl⟩ := hst
      rcases malloc_spec hP hn H with ⟨-, msg, he'⟩ | ⟨h', p', L', he', H', -, -⟩
      · rw [he] at he'; cases he'
      · rw [he] at he'; cases he'
        exact ⟨L', H'⟩
    | free p =>
      obtain ⟨⟨n, hb⟩, h, he, rfl⟩ := hst
      obtain ⟨h', L', he', H', -, -⟩ := freeS_spec hP H hb
      rw [he] at he'; cases he'
      exact ⟨L', H'⟩
    | write a v =>
      obtain ⟨⟨b, hb, i, hi, h1, h2⟩, rfl⟩ := hst
      obtain ⟨hcore, hdesc⟩ := H.core.write hb hi h1 h2 v
      refine ⟨L, hcore, fun j hj d hd => ?_, H.valid⟩
      rw [hdesc d (Or.inr ⟨j, hj, hd⟩)]
      exact H.busy j hj d hd

/-- **Heap safety in every run.** -/
theorem heapSafe_reach (hP : PagerOk pager valid used) (hf : h₀.Fresh) (hv : valid h₀.pages)
    (hs : (heapSys pager h₀).Reach s) : HeapSafe pager used s := by
  obtain ⟨L, H⟩ := HeapInv.reach hP hf hv hs
  have hpool := fun {i d : ℕ} (hi : i < 9) => H.core.inPool_iff (d := d) hi
  refine ⟨fun b hb => ?_, H.core.nodup, fun b hb c hc hne i j hi hj => ?_, fun d hd b hb => ?_,
    fun i hi d hd => ?_, fun n hn => ?_, fun p n hb => ?_⟩
  · obtain ⟨i, hi, d, hd, hpg⟩ := H.core.owned b hb
    obtain ⟨hi9, hle⟩ := bucketFor_spec hi
    obtain ⟨-, hdvd, h0⟩ := bucketSize_spec hi9
    have B := H.core.bucket i hi9 d hd
    obtain ⟨hb0, -, -⟩ := B.block hi9 (Or.inr (mem_liveOn.2 ⟨List.mem_map_of_mem hb, hpg⟩))
    refine ⟨i, hi, hle, hb0, fun a h1 h2 => (in_block hdvd h0 hb0 h1 h2).2, d, (hpool hi9).2 hd, hpg.symm,
      fun j hj e he hpe => ?_⟩
    have he' := (hpool hj).1 he
    obtain rfl := B.page_inj j hj e he' (hpe.trans hpg)
    exact ⟨((H.core.disj i hi9 e hd).2 j hj he').symm, rfl⟩
  · obtain ⟨hi9, -⟩ := bucketFor_spec hi
    obtain ⟨hj9, -⟩ := bucketFor_spec hj
    obtain ⟨d, hd, hbd⟩ := H.core.live_block hb hi
    obtain ⟨e, he, hce⟩ := H.core.live_block hc hj
    obtain ⟨-, hdvd, h0⟩ := bucketSize_spec hi9
    have hb' := (H.core.bucket i hi9 d hd).block hi9 (Or.inr hbd)
    have hc' := (H.core.bucket j hj9 e he).block hj9 (Or.inr hce)
    by_contra hov
    push Not at hov
    -- two blocks that overlap have an address in common, so they are in one page
    have hpage : pageOf b.1 = pageOf c.1 := by
      obtain ⟨-, hdvd', h0'⟩ := bucketSize_spec hj9
      rcases le_total b.1 c.1 with h | h
      · exact (in_block hdvd h0 hb'.1 h hov.1).2.symm
      · exact (in_block hdvd' h0' hc'.1 h hov.2).2
    obtain rfl := (H.core.bucket j hj9 e he).page_inj i hi9 d hd
      (hb'.2.2.symm.trans (hpage.trans hc'.2.2))
    obtain rfl := (H.core.disj i hi9 d hd).2 j hj9 he
    rcases le_total b.1 c.1 with h | h
    · have := (in_block hdvd h0 hb'.1 h hov.1).1
      rw [Nat.div_mul_cancel (Nat.dvd_of_mod_eq_zero hc'.1)] at this
      exact hne this.symm
    · have := (in_block hdvd h0 hc'.1 h hov.2).1
      rw [Nat.div_mul_cancel (Nat.dvd_of_mod_eq_zero hb'.1)] at this
      exact hne this
  · have hD : L.Desc d := by
      rcases hd with ⟨i, hi, hd⟩ | ⟨l, hl, hd⟩
      · exact Or.inr ⟨i, hi, (hpool hi).1 hd⟩
      · exact Or.inl (hl.unique H.core.spare ▸ hd)
    obtain ⟨i, hi, e, he, hpg⟩ := H.core.owned b hb
    rw [hpg]
    exact (H.core.bucket i (bucketFor_spec hi).1 e he).page_desc d hD
  · have hd' := (hpool hi).1 hd
    have B := H.core.bucket i hi d hd'
    have hnd := List.nodup_append.1 (B.nodup hi)
    refine ⟨B.refcnt, L.free d, B.free, hnd.1, ?_, fun x => ⟨fun hx => ⟨?_, fun hl => ?_⟩, fun hx => ?_⟩⟩
    · have := B.count
      rw [B.refcnt]
      omega
    · exact B.perm.mem_iff.1 (List.mem_append_left _ hx)
    · exact hnd.2.2 x hx x (mem_liveOn.2 ⟨hl, (B.block hi (Or.inl hx)).2.2⟩) rfl
    · rcases List.mem_append.1 (B.perm.mem_iff.2 hx.1) with h | h
      · exact h
      · exact absurd (mem_liveOn.1 h).1 hx.2
  · rcases malloc_spec hP hn H with h | ⟨h', p, L', he, -, hu, hk⟩
    · exact Or.inl h
    · exact Or.inr ⟨h', p, he, hu, hk⟩
  · obtain ⟨h', L', he, -, hu, hk⟩ := freeS_spec hP H hb
    refine ⟨h', he, ?_, hk⟩
    rw [hu]
    ext pg
    split_ifs with hq
    · obtain ⟨q, hq, hqp⟩ := hq
      exact ⟨fun hpg => ⟨hpg, fun h => h.2 q hq hqp⟩, fun h => h.1⟩
    · have hlast : ∀ q ∈ (dropLive s.live p).map Prod.fst, pageOf q ≠ pageOf p := fun q hq1 hq2 =>
        hq ⟨q, hq1, hq2⟩
      exact ⟨fun h => ⟨h.1, fun h' => h.2 h'.1⟩, fun h => ⟨h.1, fun h' => h.2 ⟨h', hlast⟩⟩⟩

end Run

/-! ## The kernel's page allocator -/

/-- `get_free_page()` is `alloc_kpage(1)` and `free_page(vaddr)` is `free_kpage(vaddr, 1)`. -/
def kpager : Pager Bitmap where
  get_free_page map := allocKpage map 1
  free_page map vaddr := freeKpage map vaddr 1

theorem kpager_ok : PagerOk kpager Bitmap.Paged Bitmap.pages where
  get m h := by
    rcases allocKpage_one h with ⟨-, he⟩ | ⟨i, hi, hb, he⟩
    · exact ⟨0, m, he, h, fun h => absurd rfl h⟩
    · refine ⟨_, _, he, h.put i true, fun _ => ⟨Nat.mul_mod_left _ _, ?_, ?_, m.pages_put_true hi⟩⟩
      · calc (m.offset + i) * pageSize + pageSize = (m.offset + i + 1) * pageSize :=
              (Nat.succ_mul _ _).symm
          _ ≤ (m.offset + m.length * 8) * pageSize := Nat.mul_le_mul_right _ (by omega)
          _ ≤ 2 ^ 32 := h.space
      · rintro ⟨j, -, hbj, hj⟩
        obtain rfl := page_inj hj
        rw [hb] at hbj
        cases hbj
  free m pg h hpg := by
    obtain ⟨i, hi, hb, rfl⟩ := hpg
    exact ⟨_, freeKpage_one h hi hb, h.put i false, m.pages_put_false i⟩

/-- `v_bit_map` after the start: 1792 pages from 1M on, the first of which holds `p_bit_map`. -/
def kernelMap : Bitmap := ⟨fun i => if i = 0 then 1#8 else 0#8, 224, 256⟩

theorem kernelMap_paged : kernelMap.Paged :=
  ⟨show 256 + 224 * 8 < 2 ^ 31 by decide, by decide, by decide⟩

/-- The heap before the first call. -/
def kernelHeap : Heap Bitmap := ⟨fun _ => 0#8, 0, fun _ => 0, kernelMap⟩

/-- Two blocks of one page, the first of which is given back. -/
theorem heapSafe_freed : ∃ h, (heapSys kpager kernelHeap).Reach ⟨h, [(0x102080, 120)]⟩ ∧
    HeapSafe kpager Bitmap.pages ⟨h, [(0x102080, 120)]⟩ := by
  have hrun : (do
      let (h, p) ← malloc kpager kernelHeap 100
      let (h, q) ← malloc kpager h 120
      let _ ← freeS kpager h p 0
      return (p, q)) = Except.ok (ε := Halt) (0x102000, 0x102080) := by decide +kernel
  obtain ⟨⟨h₁, p⟩, e₁, hrun⟩ := bind_eq_ok.1 hrun
  obtain ⟨⟨h₂, q⟩, e₂, hrun⟩ := bind_eq_ok.1 hrun
  obtain ⟨h₃, e₃, hrun⟩ := bind_eq_ok.1 hrun
  cases hrun
  have hs : (heapSys kpager kernelHeap).Reach ⟨h₃, [(0x102080, 120)]⟩ :=
    .step (a := .free 0x102000) (.step (a := .malloc 120) (.step (a := .malloc 100) (.init rfl)
      ⟨by decide, h₁, _, e₁, rfl⟩) ⟨by decide, h₂, _, e₂, rfl⟩)
      ⟨⟨100, by simp⟩, h₃, e₃, rfl⟩
  exact ⟨h₃, hs, heapSafe_reach kpager_ok ⟨rfl, fun _ => rfl⟩ kernelMap_paged hs⟩

end Rdix
