/-
  The blocks of a file system as one task sees them (fs/buffer.c: bread, brelse).

  The buffer of every block is at hand: `data` is what it holds, `dirty` and `count` are
  its `b_dirty` and `b_count`, and `disk` is what the device holds.
-/
import Rdix.Fs.Alloc
import Rdix.Lib.Bytes

namespace Rdix

open ByteMem

/-- `INODE_NR`. -/
abbrev inodeNr : ℕ := 64

/-- `BLOCK_INODES`. -/
abbrev blockInodes : ℕ := 32

/-- The buffers of one device. -/
structure Cache where
  disk : ℕ → Bytes
  data : ℕ → Bytes
  dirty : ℕ → Bool
  count : ℕ → ℕ

/-- `bread(dev, n)`: the block is held once more; `b_count` is a `u8`. -/
def Cache.bread (c : Cache) (n : ℕ) : Cache :=
  { c with count := Function.update c.count n ((c.count n + 1) % 256) }

/-- `brelse` of the buffer of block `n`; the last release writes a dirty buffer back. -/
def Cache.brelse (c : Cache) (n : ℕ) : Cache :=
  let left := (c.count n + 255) % 256
  let c := { c with count := Function.update c.count n left }
  if left ≠ 0 then c
  else if c.dirty n then
    { c with disk := Function.update c.disk n (c.data n), dirty := Function.update c.dirty n false }
  else c

/-- `brelse` of a pointer that may be `NULL`. -/
def Cache.brelse? (c : Cache) : Option ℕ → Cache
  | some n => c.brelse n
  | none => c

/-- `b_dirty = true`. -/
def Cache.mark (c : Cache) (n : ℕ) : Cache :=
  { c with dirty := Function.update c.dirty n true }

/-- `memset(b_data, 0, BLOCK_SIZE)`. -/
def Cache.zero (c : Cache) (n : ℕ) : Cache :=
  { c with data := Function.update c.data n fun _ => 0#8 }

section Data
variable (c : Cache) (n : ℕ)

@[simp] theorem Cache.bread_data : (c.bread n).data = c.data := rfl

@[simp] theorem Cache.mark_data : (c.mark n).data = c.data := rfl

@[simp] theorem Cache.brelse_data : (c.brelse n).data = c.data := by
  unfold Cache.brelse
  dsimp only
  split_ifs <;> rfl

@[simp] theorem Cache.brelse_count :
    (c.brelse n).count = Function.update c.count n ((c.count n + 255) % 256) := by
  unfold Cache.brelse
  dsimp only
  split_ifs <;> rfl

@[simp] theorem Cache.brelse?_data (b : Option ℕ) : (c.brelse? b).data = c.data := by
  cases b <;> simp [Cache.brelse?]

end Data

/-! ## The 16-bit words of a block -/

/-- `((u16 *)b_data)[i]`. -/
def getU16 (b : Bytes) (i : ℕ) : ℕ := load b 2 (2 * i)

/-- The block after `((u16 *)b_data)[i] = v`. -/
def setU16 (b : Bytes) (i v : ℕ) : Bytes := store b 2 (2 * i) v

@[simp] theorem getU16_zero (i : ℕ) : getU16 (fun _ => 0#8) i = 0 := rfl

theorem getU16_setU16 (b : Bytes) (i v j : ℕ) :
    getU16 (setU16 b i v) j = if j = i then v % 2 ^ 16 else getU16 b j := by
  unfold getU16 setU16
  by_cases h : j = i
  · rw [h, if_pos rfl]
    exact load_store
  · rw [if_neg h, load_store_of_disjoint (by omega)]

/-- Word `i` of block `n`. -/
def Cache.word (c : Cache) (n i : ℕ) : ℕ := getU16 (c.data n) i

/-- Block `n` with word `i` set to `v`. -/
def Cache.setWord (c : Cache) (n i v : ℕ) : Cache :=
  { c with data := Function.update c.data n (setU16 (c.data n) i v) }

theorem Cache.word_setWord (c : Cache) (n i v m j : ℕ) : (c.setWord n i v).word m j =
    if m = n ∧ j = i then v % 2 ^ 16 else c.word m j := by
  unfold Cache.word Cache.setWord
  by_cases h : m = n
  · subst h; simp [getU16_setU16]
  · simp [h]

theorem Cache.word_zero (c : Cache) (n m j : ℕ) : (c.zero n).word m j =
    if m = n then 0 else c.word m j := by
  unfold Cache.word Cache.zero
  by_cases h : m = n
  · subst h; simp
  · simp [h]

end Rdix
