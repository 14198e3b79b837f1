/-
  The kernel heap (kernel/malloc.c: bucket_dec_init, malloc, free_s).

  The memory is bytes.  A `bucket_desc` and a block on a free chain are read and written
  through the fields of `Field`; the two global tables are the fields of `Heap`, and the
  pages come from a `Pager`, which `get_free_page` and `free_page` stand for.
-/
import Rdix.Lib.Bytes
import Rdix.Lib.Chain
import Rdix.Kernel.Kpage

namespace Rdix

open ByteMem Linked

/-! ## Descriptors and free blocks -/

/-- The fields of a `bucket_desc`.  A free block has its link to the next free block where a
    descriptor has `next_desc`. -/
inductive Field where
  | next_desc
  | page
  | freeptr
  | refcnt
deriving DecidableEq

def Field.off : Field → ℕ
  | next_desc => 0
  | page => 4
  | freeptr => 8
  | refcnt => 12

/-- `refcnt` is a `u16`, the others are pointers. -/
def Field.width : Field → ℕ
  | next_desc | page | freeptr => 4
  | refcnt => 2

def fld (mem : Bytes) (f : Field) (d : ℕ) : ℕ := load mem f.width (d + f.off)

def setFld (mem : Bytes) (f : Field) (d v : ℕ) : Bytes := store mem f.width (d + f.off) v

/-! ## The code -/

/-- `sizeof(bucket_desc)`. -/
abbrev descSize : ℕ := 16

/-- The sizes of `bucket_dir` before its end mark 0. -/
def bucketDir : List ℕ := [16, 32, 64, 128, 256, 512, 1024, 2048, 4096]

/-- `bucket_dir[bdir].size`. -/
def bucketSize (bdir : ℕ) : ℕ := bucketDir.getD bdir 0

/-- The first bucket that is large enough. -/
def bucketFor (requist_size : ℕ) : Option ℕ := bucketDir.findIdx? fun size => requist_size ≤ size

/-- `get_free_page`, 0 if there is no page, and `free_page`. -/
structure Pager (P : Type) where
  get_free_page : P → C (ℕ × P)
  free_page : P → ℕ → C P

/-- The kernel heap: `first_bucket i` is `bucket_dir[i].first_bucket`. -/
structure Heap (P : Type) where
  mem : Bytes
  free_bucket_desc : ℕ
  first_bucket : ℕ → ℕ
  pages : P

variable {P : Type}

/-- The loops `for (i = n; i > 1; --i)` that link the pieces of a page, with the last piece. -/
def linkPieces (size : ℕ) : ℕ → Bytes → ℕ → Bytes × ℕ
  | i + 2, mem, p => linkPieces size (i + 1) (setFld mem .next_desc p (p + size)) (p + size)
  | _, mem, p => (mem, p)

/-- More turns than there are addresses: a walk over pointers that takes so many never ends. -/
abbrev walkFuel : ℕ := 2 ^ 32

def bucketDecInit (pager : Pager P) (h : Heap P) : C (Heap P) := do
  let (first, pages) ← pager.get_free_page h.pages
  if first = 0 then throw (.panic "out of memory in bucket_dec_init()")
  let (mem, bdesc) := linkPieces descSize (pageSize / descSize) h.mem first
  let mem := setFld mem .next_desc bdesc h.free_bucket_desc
  return { h with mem := mem, pages := pages, free_bucket_desc := first }

/-- The first spare descriptor gets a page and goes to the front of the pool. -/
def addBucket (pager : Pager P) (h : Heap P) (bdir : ℕ) : C (Heap P × ℕ) := do
  let bdesc := h.free_bucket_desc
  let free_bucket_desc := fld h.mem .next_desc bdesc
  let mem := setFld h.mem .next_desc bdesc (h.first_bucket bdir)
  let first_bucket := Function.update h.first_bucket bdir bdesc
  let (tmp, pages) ← pager.get_free_page h.pages
  let mem := setFld (setFld mem .page bdesc tmp) .freeptr bdesc tmp
  let mem := setFld mem .refcnt bdesc 0
  if fld mem .freeptr bdesc = 0 then throw (.panic "out of memory in malloc")
  let (mem, last) := linkPieces (bucketSize bdir) (pageSize / bucketSize bdir) mem tmp
  let mem := setFld mem .next_desc last 0
  return (⟨mem, free_bucket_desc, first_bucket, pages⟩, bdesc)

/-- The branch of `malloc` for a pool without a free block. -/
def newBucket (pager : Pager P) (h : Heap P) (bdir : ℕ) : C (Heap P × ℕ) := do
  let h ← if h.free_bucket_desc = 0 then bucketDecInit pager h else pure h
  addBucket pager h bdir

/-- The last part of `malloc`: the first free block of the bucket is handed out. -/
def takeBlock (h : Heap P) (bdesc : ℕ) : Heap P × ℕ :=
  let retptr := fld h.mem .freeptr bdesc
  let mem := setFld h.mem .freeptr bdesc (fld h.mem .next_desc retptr)
  let mem := setFld mem .refcnt bdesc (fld mem .refcnt bdesc + 1)
  ({ h with mem := mem }, retptr)

def malloc (pager : Pager P) (h : Heap P) (requist_size : ℕ) : C (Heap P × ℕ) := do
  let some bdir := bucketFor requist_size | throw (.panic "malloc: bad arg")
  let some (_, bdesc) := walk 0 (fld h.mem .next_desc) (fun d => fld h.mem .freeptr d ≠ 0) walkFuel
    0 (h.first_bucket bdir) | throw .loop
  let (h, bdesc) ← if bdesc = 0 then newBucket pager h bdir else pure (h, bdesc)
  return takeBlock h bdesc

/-- The search of `free_s`: the pool, the descriptor before the one found, and that one. -/
def findDesc (h : Heap P) (size obj_page : ℕ) : List ℕ → C (ℕ × ℕ × ℕ)
  | [] => throw (.panic "free_s: can not found such memory")
  | bdir :: rest => do
    if bucketSize bdir < size then findDesc h size obj_page rest
    else
      let some (prev, bdesc) := walk 0 (fld h.mem .next_desc) (fun d => fld h.mem .page d = obj_page)
        walkFuel 0 (h.first_bucket bdir) | throw .loop
      if bdesc = 0 then findDesc h size obj_page rest else return (bdir, prev, bdesc)

/-- The block goes back to the free chain of its bucket. -/
def putBlock (h : Heap P) (bdesc obj : ℕ) : Heap P :=
  let mem := setFld h.mem .next_desc obj (fld h.mem .freeptr bdesc)
  let mem := setFld mem .freeptr bdesc obj
  let mem := setFld mem .refcnt bdesc (fld mem .refcnt bdesc + 65535)
  { h with mem := mem }

/-- The branch of `free_s` for a bucket without live blocks. -/
def dropBucket (pager : Pager P) (h : Heap P) (bdir prev bdesc : ℕ) : C (Heap P) := do
  let moved : Bool := if prev ≠ 0 then fld h.mem .next_desc prev ≠ bdesc
    else h.first_bucket bdir ≠ bdesc
  -- the condition `bdesc = bdir->first_bucket` assigns; when it is 0 the loop gives `prev = 0`
  let first := h.first_bucket bdir
  let (prev, bdesc) := if moved then (if first ≠ 0 then prev else 0, first) else (prev, bdesc)
  if bdesc = 0 then throw (.null "bdesc")
  let next := fld h.mem .next_desc bdesc
  let h ← if prev ≠ 0 then pure { h with mem := setFld h.mem .next_desc prev next }
    else if h.first_bucket bdir ≠ bdesc then throw (.panic "free_s: malloc bucket chains corrupted")
    else pure { h with first_bucket := Function.update h.first_bucket bdir next }
  let pages ← pager.free_page h.pages (fld h.mem .page bdesc)
  return { h with
    mem := setFld h.mem .next_desc bdesc h.free_bucket_desc
    free_bucket_desc := bdesc
    pages := pages }

def freeS (pager : Pager P) (h : Heap P) (obj size : ℕ) : C (Heap P) := do
  let (bdir, prev, bdesc) ← findDesc h size (obj / pageSize * pageSize) (List.range bucketDir.length)
  let h := putBlock h bdesc obj
  if fld h.mem .refcnt bdesc = 0 then dropBucket pager h bdir prev bdesc else return h

/-! ## The parts with interrupts off

`malloc` and `free_s` search with interrupts on, and change the heap with interrupts off. -/

/-- The bucket that `malloc` takes from, when its search ended at `bdesc`. -/
def mallocBucket (pager : Pager P) (h : Heap P) (bdir bdesc : ℕ) : C (Heap P × ℕ) :=
  if bdesc = 0 then newBucket pager h bdir else pure (h, bdesc)

def mallocTake (pager : Pager P) (h : Heap P) (bdir bdesc : ℕ) : C (Heap P × ℕ) := do
  let (h, bdesc) ← mallocBucket pager h bdir bdesc
  return takeBlock h bdesc

def freePut (pager : Pager P) (h : Heap P) (bdir prev bdesc obj : ℕ) : C (Heap P) := do
  let h := putBlock h bdesc obj
  if fld h.mem .refcnt bdesc = 0 then dropBucket pager h bdir prev bdesc else return h

theorem malloc_eq {pager : Pager P} {h : Heap P} {n i a b : ℕ} (hi : bucketFor n = some i)
    (hw : walk 0 (fld h.mem .next_desc) (fun d => fld h.mem .freeptr d ≠ 0) walkFuel 0
      (h.first_bucket i) = some (a, b)) : malloc pager h n = mallocTake pager h i b := by
  simp only [malloc, hi, hw, mallocTake, mallocBucket]
  split <;> rfl

theorem freeS_eq {pager : Pager P} {h : Heap P} {obj size i prev d : ℕ}
    (hf : findDesc h size (obj / pageSize * pageSize) (List.range bucketDir.length) =
      .ok (i, prev, d)) : freeS pager h obj size = freePut pager h i prev d obj := by
  simp only [freeS, hf, ok_bind]
  rfl

/-! ## Reading what was written -/

section Field
variable {mem : Bytes} {f g : Field} {d e v : ℕ}

theorem fld_lt : fld mem f d < 2 ^ 32 := by
  refine (load_lt mem f.width _).trans_le ?_
  cases f <;> decide

/-- One field is changed, of one record of 16 bytes. -/
theorem fld_setFld (hd : d % 16 = 0) (he : e % 16 = 0) :
    fld (setFld mem f d v) g e = if e = d ∧ g = f then v % 256 ^ f.width else fld mem g e := by
  unfold fld setFld
  by_cases h : e = d ∧ g = f
  · obtain ⟨rfl, rfl⟩ := h
    rw [if_pos ⟨rfl, rfl⟩, load_store]
  · rw [if_neg h, load_store_of_disjoint]
    by_cases hed : e = d
    · have hgf : g ≠ f := fun hgf => h ⟨hed, hgf⟩
      cases f <;> cases g <;> simp only [Field.off, Field.width, ne_eq, not_true_eq_false,
        reduceCtorEq, not_false_eq_true] at hgf ⊢ <;> omega
    · cases f <;> cases g <;> simp only [Field.off, Field.width] <;> omega

theorem setFld_next_self (hd : d % 16 = 0) (hv : v < 2 ^ 32) :
    fld (setFld mem .next_desc d v) .next_desc d = v := by
  rw [fld_setFld hd hd, if_pos ⟨rfl, rfl⟩]
  exact Nat.mod_eq_of_lt hv

theorem setFld_next_ne (hd : d % 16 = 0) (he : e % 16 = 0) (h : e ≠ d) :
    fld (setFld mem .next_desc d v) .next_desc e = fld mem .next_desc e := by
  rw [fld_setFld hd he, if_neg fun heq => h heq.1]

/-- No byte outside the record is changed. -/
theorem setFld_of_ne {a : ℕ} (hd : d % 16 = 0) (h : a / 16 * 16 ≠ d) : setFld mem f d v a = mem a := by
  refine store_of_notMem ?_
  cases f <;> simp only [Field.off, Field.width] <;> omega

end Field

end Rdix
