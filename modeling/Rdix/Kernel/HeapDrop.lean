/-
  The part of `free_s` with interrupts off (kernel/malloc.c), when the bucket of the block loses its
  last live block and the search has left some descriptor behind.

  * `Dropping`: the chain of buckets, the bucket `d` on it, and `prev`, which may be out of date;
  * `Unlinked`: the bucket has left its chain, and its page is returned;
  * `freePut_unlinks_iff`: it is so just when `prev` is still right.
-/
import Rdix.Kernel.Malloc

namespace Rdix

open ByteMem Linked Function

variable {P : Type}

/-- The chain `l₁ ++ d :: l₂` of the bucket `d`, which has one live block, `obj`.  A `prev` whose link
    is `d` is in front of `d`. -/
structure Dropping (h : Heap P) (i prev d obj : ℕ) (l₁ l₂ spare : List ℕ) : Prop where
  chain : Chain 0 (fld h.mem .next_desc) (h.first_bucket i) (l₁ ++ d :: l₂)
  free : Chain 0 (fld h.mem .next_desc) h.free_bucket_desc spare
  apart : ∀ x ∈ l₁ ++ d :: l₂, x ∉ spare
  aligned : ∀ x ∈ l₁ ++ d :: l₂ ++ spare, x % 16 = 0 ∧ x ≠ obj
  free_lt : h.free_bucket_desc < 2 ^ 32
  refcnt : fld h.mem .refcnt d = 1
  obj_aligned : obj % 16 = 0
  prev_aligned : prev ≠ 0 → prev % 16 = 0 ∧ prev ≠ obj
  before : prev ≠ 0 → fld h.mem .next_desc prev = d → l₁.getLast? = some prev

/-- **The bucket `d` is unlinked**: the others keep their order, and `d` is the first spare one. -/
structure Unlinked (pager : Pager P) (h : Heap P) (i d : ℕ) (l₁ l₂ spare : List ℕ) (h' : Heap P) :
    Prop where
  page : pager.free_page h.pages (fld h.mem .page d) = .ok h'.pages
  chain : Chain 0 (fld h'.mem .next_desc) (h'.first_bucket i) (l₁ ++ l₂)
  pushed : h'.free_bucket_desc = d
  free : Chain 0 (fld h'.mem .next_desc) d (d :: spare)

/-- `prev` is what the search would find now. -/
def Heap.Current (h : Heap P) (i prev d : ℕ) : Prop :=
  if prev = 0 then h.first_bucket i = d else fld h.mem .next_desc prev = d

instance (h : Heap P) (i prev d : ℕ) : Decidable (h.Current i prev d) :=
  inferInstanceAs (Decidable (ite _ _ _))

section Drop
variable {pager : Pager P} {h h' : Heap P} {i prev d obj x : ℕ} {l₁ l₂ spare : List ℕ}

/-- No link between descriptors is changed by the block. -/
theorem putBlock_next (hd : d % 16 = 0) (hobj : obj % 16 = 0) (hx : x % 16 = 0) (hne : x ≠ obj) :
    fld (putBlock h d obj).mem .next_desc x = fld h.mem .next_desc x := by
  simp [putBlock, fld_setFld, hd, hobj, hx, hne]

theorem putBlock_page (hd : d % 16 = 0) (hobj : obj % 16 = 0) (hx : x % 16 = 0) :
    fld (putBlock h d obj).mem .page x = fld h.mem .page x := by
  simp [putBlock, fld_setFld, hd, hobj, hx]

theorem putBlock_refcnt (hd : d % 16 = 0) (hobj : obj % 16 = 0) (h1 : fld h.mem .refcnt d = 1) :
    fld (putBlock h d obj).mem .refcnt d = 0 := by
  simp [putBlock, fld_setFld, hd, hobj, h1, Field.width]

/-- What the code finds when it enters the branch. -/
theorem Dropping.put (H : Dropping h i prev d obj l₁ l₂ spare) :
    freePut pager h i prev d obj = dropBucket pager (putBlock h d obj) i prev d := by
  have hd := (H.aligned d (by simp)).1
  rw [freePut, if_pos (putBlock_refcnt hd H.obj_aligned H.refcnt)]

/-- The branch behind the check of `prev`. -/
def unlinkBucket (pager : Pager P) (h : Heap P) (bdir prev bdesc : ℕ) : C (Heap P) := do
  if bdesc = 0 then throw (.null "bdesc")
  let next := fld h.mem .next_desc bdesc
  let h ← if prev ≠ 0 then pure { h with mem := setFld h.mem .next_desc prev next }
    else if h.first_bucket bdir ≠ bdesc then throw (.panic "free_s: malloc bucket chains corrupted")
    else pure { h with first_bucket := update h.first_bucket bdir next }
  let pages ← pager.free_page h.pages (fld h.mem .page bdesc)
  return { h with
    mem := setFld h.mem .next_desc bdesc h.free_bucket_desc
    free_bucket_desc := bdesc
    pages := pages }

/-- With a `prev` that is out of date the code goes on with the first bucket in the place of `d`. -/
theorem dropBucket_eq : dropBucket pager h i prev d =
    if h.Current i prev d then unlinkBucket pager h i prev d
    else unlinkBucket pager h i (if h.first_bucket i ≠ 0 then prev else 0) (h.first_bucket i) := by
  by_cases hprev : prev = 0
  · by_cases hcur : h.first_bucket i = d
    · rw [if_pos (by simpa [Heap.Current, hprev] using hcur)]
      simp [dropBucket, unlinkBucket, hprev, hcur]
    · rw [if_neg (by simpa [Heap.Current, hprev] using hcur)]
      simp [dropBucket, unlinkBucket, hprev, hcur]
  · by_cases hcur : fld h.mem .next_desc prev = d
    · rw [if_pos (by simpa [Heap.Current, hprev] using hcur)]
      simp [dropBucket, unlinkBucket, hprev, hcur]
    · rw [if_neg (by simpa [Heap.Current, hprev] using hcur)]
      simp [dropBucket, unlinkBucket, hprev, hcur]

theorem unlinkBucket_head (hd : d ≠ 0) (hfirst : h.first_bucket i = d) :
    unlinkBucket pager h i 0 d = do
      let pages ← pager.free_page h.pages (fld h.mem .page d)
      return ⟨setFld h.mem .next_desc d h.free_bucket_desc, d,
        update h.first_bucket i (fld h.mem .next_desc d), pages⟩ := by
  simp [unlinkBucket, hd, hfirst]

theorem unlinkBucket_behind (hd : d ≠ 0) (hprev : prev ≠ 0) :
    unlinkBucket pager h i prev d = do
      let mem := setFld h.mem .next_desc prev (fld h.mem .next_desc d)
      let pages ← pager.free_page h.pages (fld mem .page d)
      return ⟨setFld mem .next_desc d h.free_bucket_desc, d, h.first_bucket, pages⟩ := by
  simp [unlinkBucket, hd, hprev]

/-- The first bucket, with some `prev`. -/
theorem unlinkBucket_first (hfirst : h.first_bucket i ≠ 0)
    (hs : unlinkBucket pager h i prev (h.first_bucket i) = .ok h') :
    h'.free_bucket_desc = h.first_bucket i ∧ (prev ≠ 0 → h'.first_bucket = h.first_bucket) := by
  by_cases hprev : prev = 0
  · rw [hprev, unlinkBucket_head hfirst rfl] at hs
    obtain ⟨pages, -, hs⟩ := bind_eq_ok.1 hs
    cases hs
    exact ⟨rfl, fun hne => absurd hprev hne⟩
  · rw [unlinkBucket_behind hfirst hprev] at hs
    obtain ⟨pages, -, hs⟩ := bind_eq_ok.1 hs
    cases hs
    exact ⟨rfl, fun _ => rfl⟩

/-- The block that is put back is apart from the chain and the pool. -/
theorem Dropping.after_put (H : Dropping h i prev d obj l₁ l₂ spare) (hx : x ∈ l₁ ++ d :: l₂ ++ spare) :
    fld (putBlock h d obj).mem .next_desc x = fld h.mem .next_desc x :=
  putBlock_next (H.aligned d (by simp)).1 H.obj_aligned (H.aligned x hx).1 (H.aligned x hx).2

theorem Dropping.put_chain (H : Dropping h i prev d obj l₁ l₂ spare) :
    Chain 0 (fld (putBlock h d obj).mem .next_desc) (h.first_bucket i) (l₁ ++ d :: l₂) :=
  H.chain.congr fun _ hx => H.after_put (List.mem_append_left _ hx)

theorem Dropping.put_spare (H : Dropping h i prev d obj l₁ l₂ spare) :
    Chain 0 (fld (putBlock h d obj).mem .next_desc) h.free_bucket_desc spare :=
  H.free.congr fun _ hx => H.after_put (List.mem_append_right _ hx)

theorem Dropping.current_iff (H : Dropping h i prev d obj l₁ l₂ spare) :
    (putBlock h d obj).Current i prev d ↔ h.Current i prev d := by
  unfold Heap.Current
  by_cases hprev : prev = 0
  · rw [if_pos hprev, if_pos hprev]
    rfl
  · obtain ⟨h16, hne⟩ := H.prev_aligned hprev
    rw [if_neg hprev, if_neg hprev,
      putBlock_next (H.aligned d (by simp)).1 H.obj_aligned h16 hne]

/-- With a `prev` that is out of date `d` does not become the spare one, or it stays the first. -/
theorem Dropping.not_unlinked (H : Dropping h i prev d obj l₁ l₂ spare)
    (hcur : ¬ h.Current i prev d) (hs : freePut pager h i prev d obj = .ok h') :
    ¬ Unlinked pager h i d l₁ l₂ spare h' := by
  intro hu
  have hfirst : (putBlock h d obj).first_bucket i ≠ 0 := by
    show h.first_bucket i ≠ 0
    rw [Ne, H.chain.eq_nil_iff]
    simp
  rw [H.put, dropBucket_eq, if_neg (H.current_iff.not.2 hcur), if_pos hfirst] at hs
  obtain ⟨hfree, hhead⟩ := unlinkBucket_first hfirst hs
  have hd : h.first_bucket i = d := hfree.symm.trans hu.pushed
  have hprev : prev ≠ 0 := fun h0 => hcur (by rwa [Heap.Current, if_pos h0])
  have hchain := hu.chain
  rw [hhead hprev] at hchain
  have hmem : d ∈ l₁ ++ l₂ := by
    have hhd : (putBlock h d obj).first_bucket i = d := hd
    rw [hhd] at hchain
    cases hl : l₁ ++ l₂ with
    | nil =>
      rw [hl, chain_nil_iff] at hchain
      exact absurd (hd.trans hchain) hfirst
    | cons a l =>
      rw [hl] at hchain
      rw [(chain_cons_iff.1 hchain).1]
      exact List.mem_cons_self
  exact (List.nodup_middle.1 H.chain.nodup).notMem hmem

/-- `d` goes to the pool: the others stay on their chain, and it is the first spare one. -/
theorem Dropping.pushed (H : Dropping h i prev d obj l₁ l₂ spare) {mem : Bytes} {head : ℕ}
    (hc : Chain 0 (fld mem .next_desc) head (l₁ ++ l₂))
    (hs : Chain 0 (fld mem .next_desc) h.free_bucket_desc spare) :
    Chain 0 (fld (setFld mem .next_desc d h.free_bucket_desc) .next_desc) head (l₁ ++ l₂) ∧
      Chain 0 (fld (setFld mem .next_desc d h.free_bucket_desc) .next_desc) d (d :: spare) := by
  have hd16 := (H.aligned d (by simp)).1
  have hd0 : d ≠ 0 := H.chain.ne_nil (by simp)
  refine ⟨hc.congr fun x hx => setFld_next_ne hd16 (H.aligned x ?_).1 ?_,
    hs.push hd0 (setFld_next_self hd16 H.free_lt) fun x hx => setFld_next_ne hd16 ?_ ?_⟩
  · simp only [List.mem_append, List.mem_cons] at hx ⊢
    tauto
  · rintro rfl
    exact (List.nodup_middle.1 H.chain.nodup).notMem hx
  · exact (H.aligned x (List.mem_append_right _ hx)).1
  · rintro rfl
    exact H.apart x (by simp) hx

/-- `prev` is NULL, and `d` is the first bucket. -/
theorem Dropping.unlinked_first (H : Dropping h i 0 d obj l₁ l₂ spare) (hfirst : h.first_bucket i = d)
    {pages : P} (hp : pager.free_page h.pages (fld h.mem .page d) = .ok pages) :
    ∃ h', unlinkBucket pager (putBlock h d obj) i 0 d = .ok h' ∧
      Unlinked pager h i d l₁ l₂ spare h' := by
  have hd16 := (H.aligned d (by simp)).1
  have hd0 : d ≠ 0 := H.chain.ne_nil (by simp)
  obtain rfl : l₁ = [] := by
    refine List.eq_nil_iff_forall_not_mem.2 fun a ha => ?_
    obtain ⟨b, l, rfl⟩ := List.exists_cons_of_ne_nil (List.ne_nil_of_mem ha)
    have hb : d = b := hfirst.symm.trans (chain_cons_iff.1 H.chain).1
    exact (List.nodup_middle.1 H.chain.nodup).notMem (by simp [hb])
  have hrest := (chain_cons_iff.1 H.put_chain).2.2
  rw [hfirst] at hrest
  obtain ⟨hc, hs⟩ := H.pushed hrest H.put_spare
  rw [unlinkBucket_head (h := putBlock h d obj) hd0 hfirst, putBlock_page hd16 H.obj_aligned hd16,
    show (putBlock h d obj).pages = h.pages from rfl, hp, ok_bind]
  refine ⟨_, rfl, hp, ?_, rfl, hs⟩
  show Chain 0 _ (update (putBlock h d obj).first_bucket i _ i) _
  rw [update_self]
  exact hc

/-- `prev` is the bucket in front of `d`. -/
theorem Dropping.unlinked_behind (H : Dropping h i prev d obj l₁ l₂ spare) (hprev : prev ≠ 0)
    (hcur : fld h.mem .next_desc prev = d) {pages : P}
    (hp : pager.free_page h.pages (fld h.mem .page d) = .ok pages) :
    ∃ h', unlinkBucket pager (putBlock h d obj) i prev d = .ok h' ∧
      Unlinked pager h i d l₁ l₂ spare h' := by
  have hd16 := (H.aligned d (by simp)).1
  have hd0 : d ≠ 0 := H.chain.ne_nil (by simp)
  have hp16 := (H.prev_aligned hprev).1
  obtain ⟨l, rfl⟩ := List.getLast?_eq_some_iff.1 (H.before hprev hcur)
  have hchain := H.put_chain
  rw [List.append_assoc, List.singleton_append] at hchain
  have hcut := hchain.unlink (setFld_next_self (v := fld (putBlock h d obj).mem .next_desc d) hp16
    fld_lt) fun x hx hne =>
      setFld_next_ne hp16 (H.aligned x (List.mem_append_left _ (by simpa using hx))).1 hne
  have hpool := H.put_spare.congr fun x hx =>
    setFld_next_ne (v := fld (putBlock h d obj).mem .next_desc d) hp16
      (H.aligned x (List.mem_append_right _ hx)).1 (by
        rintro rfl
        exact H.apart x (by simp) hx)
  obtain ⟨hc, hs⟩ := H.pushed (by simpa using hcut) hpool
  rw [unlinkBucket_behind hd0 hprev]
  dsimp only
  rw [fld_setFld hp16 hd16, if_neg (by simp), putBlock_page hd16 H.obj_aligned hd16,
    show (putBlock h d obj).pages = h.pages from rfl, hp, ok_bind]
  exact ⟨_, rfl, hp, hc, rfl, hs⟩

/-- With a `prev` that is right `d` is unlinked. -/
theorem Dropping.unlinked (H : Dropping h i prev d obj l₁ l₂ spare) (hcur : h.Current i prev d)
    (hp : ∃ pages, pager.free_page h.pages (fld h.mem .page d) = .ok pages) :
    ∃ h', freePut pager h i prev d obj = .ok h' ∧ Unlinked pager h i d l₁ l₂ spare h' := by
  obtain ⟨pages, hp⟩ := hp
  rw [H.put, dropBucket_eq, if_pos (H.current_iff.2 hcur)]
  by_cases hprev : prev = 0
  · subst hprev
    rw [Heap.Current, if_pos rfl] at hcur
    exact H.unlinked_first hcur hp
  · rw [Heap.Current, if_neg hprev] at hcur
    exact H.unlinked_behind hprev hcur hp

/-- **The part of `free_s` with interrupts off unlinks the right bucket just when `prev` is still in
    front of it**, or is NULL and the bucket is the first one. -/
theorem freePut_unlinks_iff (H : Dropping h i prev d obj l₁ l₂ spare)
    (hp : ∃ pages, pager.free_page h.pages (fld h.mem .page d) = .ok pages) :
    (∃ h', freePut pager h i prev d obj = .ok h' ∧ Unlinked pager h i d l₁ l₂ spare h') ↔
      h.Current i prev d := by
  constructor
  · rintro ⟨h', hs, hu⟩
    by_contra hcur
    exact H.not_unlinked hcur hs hu
  · intro hcur
    exact H.unlinked hcur hp

end Drop

/-- Two buckets at 16 and 32, of which the second one has a live block at 4096. -/
def twoBuckets : Heap Unit where
  mem := setFld (setFld (fun _ => 0#8) .next_desc 16 32) .refcnt 32 1
  free_bucket_desc := 0
  first_bucket _ := 16
  pages := ()

/-- Pages that can be returned. -/
def freePager : Pager Unit := ⟨fun _ => .ok (0, ()), fun _ _ => .ok ()⟩

theorem twoBuckets_next {x : ℕ} (hx : x % 16 = 0) :
    fld twoBuckets.mem .next_desc x = if x = 16 then 32 else 0 := by
  have hzero : fld (fun _ => 0#8) .next_desc x = 0 := load_zero ..
  simp [twoBuckets, fld_setFld, hx, hzero, Field.width]

theorem twoBuckets_dropping {prev : ℕ} (hprev : prev = 0 ∨ prev = 16) :
    Dropping twoBuckets 0 prev 32 4096 [16] [] [] := by
  refine ⟨?_, .nil, by simp, by simp, by norm_num [twoBuckets], ?_, by norm_num, ?_, ?_⟩
  · show Chain 0 _ 16 [16, 32]
    simp [twoBuckets_next]
  · simp [twoBuckets, fld_setFld, Field.width]
  · rcases hprev with rfl | rfl <;> simp
  · rcases hprev with rfl | rfl <;> simp

/-- The search has ended at 32, and its `prev` is right. -/
theorem freePut_unlinks_second : ∃ h', freePut freePager twoBuckets 0 16 32 4096 = .ok h' ∧
    Unlinked freePager twoBuckets 0 32 [16] [] [] h' := by
  refine (freePut_unlinks_iff (twoBuckets_dropping (Or.inr rfl)) ⟨(), rfl⟩).2 ?_
  rw [Heap.Current, if_neg (by norm_num), twoBuckets_next (by norm_num), if_pos rfl]

/-- **A bucket has come in front of the one that was the first, and is released in its place.** -/
theorem freePut_stale : ¬ ∃ h', freePut freePager twoBuckets 0 0 32 4096 = .ok h' ∧
    Unlinked freePager twoBuckets 0 32 [16] [] [] h' := by
  rintro ⟨h', hs, hu⟩
  refine (twoBuckets_dropping (Or.inl rfl)).not_unlinked ?_ hs hu
  rw [Heap.Current, if_pos rfl]
  norm_num [twoBuckets]

end Rdix
