/-
  Frames and page tables (kernel/memory.c: get_p_page .. page_fault).

  The physical memory is its frames, each with 4096 bytes; a page table is a frame whose
  words are the entries.  The page directory of a task is kernel memory of its own, so
  it is a field of the task's `Space`.  Entry 1023 of a directory is the directory itself: the
  code reaches the tables through it, at 0xffc00000, where the model reads the tables' frames.
  Address 0, at which `copy_phy_page` maps a frame to fill it, is left out.
-/
import Rdix.Lib.Bytes
import Rdix.Kernel.Kpage

namespace Rdix

open ByteMem

/-! ## Entries of page tables and page directories -/

/-- `present` of a `page_entry_t`. -/
def entPresent (w : ℕ) : Bool := w % 2 = 1

/-- `write`. -/
def entWrite (w : ℕ) : Bool := w / 2 % 2 = 1

/-- `index`. -/
def entIndex (w : ℕ) : ℕ := w / 4096

/-- `entry_init(entry, idx)`: present, writable, for all. -/
def entryInit (idx : ℕ) : ℕ := idx * 4096 + 7

/-- `entry->present = false`. -/
def clearPresent (w : ℕ) : ℕ := w - w % 2

/-- `entry->write = b`. -/
def setWrite (w : ℕ) (b : Bool) : ℕ := w - 2 * (w / 2 % 2) + if b then 2 else 0

/-- `entry->index = idx`. -/
def setIndex (w idx : ℕ) : ℕ := w % 4096 + idx * 4096

/-! ## Frames -/

/-- `start` and `total` are `start_available_p_page_idx` and `total_pages`. -/
structure Frames where
  start : ℕ
  total : ℕ
  p_bit_map : ℕ → ℕ
  free_pages : ℕ
  data : ℕ → Bytes

/-- The loop of `get_p_page` from `i` on.  Behind the last frame the function ends without a
    return value. -/
def getPPageFrom (m : Frames) : ℕ → ℕ → C (Frames × ℕ)
  | 0, _ => throw (.wild "get_p_page")
  | n + 1, i =>
    if m.free_pages = 0 then throw (.panic "Out of Memory")
    else if m.p_bit_map i ≠ 0 then getPPageFrom m n (i + 1)
    else return ({ m with p_bit_map := Function.update m.p_bit_map i 1
                          free_pages := m.free_pages - 1 }, i)

/-- The index of the frame that `get_p_page` returns. -/
def getPPage (m : Frames) : C (Frames × ℕ) := getPPageFrom m (m.total - m.start) m.start

def freePPage (m : Frames) (idx : ℕ) : C Frames := do
  cassert (m.start ≤ idx ∧ idx < m.total) "idx >= start_available_p_page_idx && idx < total_pages"
  cassert (1 ≤ m.p_bit_map idx) "p_bit_map[idx] >= 1"
  let left := m.p_bit_map idx - 1
  let free_pages := if left = 0 then m.free_pages + 1 else m.free_pages
  cassert (0 < free_pages ∧ free_pages < m.total) "free_pages > 0 && free_pages < total_pages"
  return { m with p_bit_map := Function.update m.p_bit_map idx left, free_pages := free_pages }

/-- Entry `tidx` of the table in frame `pte`. -/
def Frames.entry (m : Frames) (pte tidx : ℕ) : ℕ := load (m.data pte) 4 (4 * tidx)

def Frames.setEntry (m : Frames) (pte tidx w : ℕ) : Frames :=
  { m with data := Function.update m.data pte (store (m.data pte) 4 (4 * tidx) w) }

/-! ## Address spaces -/

/-- What a user task has of its own: page directory, bitmap of the pages it may use, break. -/
structure Space where
  pde : ℕ → ℕ
  vmap : Bitmap
  brk : ℕ

/-- `DIDX`. -/
abbrev didx (vaddr : ℕ) : ℕ := vaddr / 0x400000

/-- `TIDX`. -/
abbrev tidx (vaddr : ℕ) : ℕ := vaddr / 4096 % 1024

/-- `KERNEL_MEMERY_SIZE`. -/
abbrev kernelMemerySize : ℕ := 0x1400000

/-- `USER_STACK_TOP`. -/
abbrev userStackTop : ℕ := 0x8000000 + kernelMemerySize

/-- `USER_STACK_BOTTOM`. -/
abbrev userStackBottom : ℕ := userStackTop - 0x200000

/-- The frame of the page table of `vaddr`, created and cleared if it is missing and `exist` does
    not say that it is there. -/
def getPte (m : Frames) (pde : ℕ → ℕ) (vaddr : ℕ) (exist : Bool) : C (Frames × (ℕ → ℕ) × ℕ) := do
  if entPresent (pde (didx vaddr)) then return (m, pde, entIndex (pde (didx vaddr)))
  cassert (exist = false) "exist == false"
  let (m, f) ← getPPage m
  let m := { m with data := Function.update m.data f fun _ => 0#8 }
  return (m, Function.update pde (didx vaddr) (entryInit f), f)

def linkPage (m : Frames) (task : Space) (vaddr : ℕ) : C (Frames × Space) := do
  let (m, pde, pte) ← getPte m task.pde vaddr false
  let task := { task with pde := pde }
  let mapped ← bitmapTest task.vmap (vaddr / 4096)
  cassert (mapped = true) "bitmap_test(vmap, PAGE_IDX(vaddr))"
  if entPresent (m.entry pte (tidx vaddr)) then return (m, task)
  let (m, paddr) ← getPPage m
  return (m.setEntry pte (tidx vaddr) (entryInit paddr), task)

/-- In the window of the tables the directory is the table. -/
def unlinkPage (m : Frames) (task : Space) (vaddr : ℕ) : C (Frames × Space) := do
  let (m, pde, pte) ← getPte m task.pde vaddr true
  if didx vaddr = 1023 then
    let entry := pde (tidx vaddr)
    cassert (entPresent entry = true) "entry->present"
    let m ← freePPage m (entIndex entry)
    return (m, { task with pde := Function.update pde (tidx vaddr) (clearPresent entry) })
  else
    let entry := m.entry pte (tidx vaddr)
    cassert (entPresent entry = true) "entry->present"
    let m := m.setEntry pte (tidx vaddr) (clearPresent entry)
    let m ← freePPage m (entIndex entry)
    return (m, { task with pde := pde })

/-- A new frame with the contents of frame `page`. -/
def copyPhyPage (m : Frames) (page : ℕ) : C (Frames × ℕ) := do
  let (m, paddr) ← getPPage m
  return ({ m with data := Function.update m.data paddr (m.data page) }, paddr)

/-- The value of `0 < a < b`, which compares the truth value of `0 < a` with `b`. -/
def chained (a b : ℕ) : Prop := (if 0 < a then 1 else 0) < b

instance (a b : ℕ) : Decidable (chained a b) := inferInstanceAs (Decidable (_ < _))

/-- The turn of the inner loop of `copy_pde` for entry `tidx` of the table `pte`. -/
def shareEntry (m : Frames) (pte tidx : ℕ) : C Frames := do
  let entry := m.entry pte tidx
  if ¬ entPresent entry then return m
  cassert (chained (m.p_bit_map (entIndex entry)) 255) "0 < p_bit_map[entry->index] < 255"
  let m := m.setEntry pte tidx (setWrite entry false)
  let refs := (m.p_bit_map (entIndex entry) + 1) % 256
  return { m with p_bit_map := Function.update m.p_bit_map (entIndex entry) refs }

/-- The first `n` turns of it. -/
def shareEntries (m : Frames) (pte : ℕ) : ℕ → C Frames
  | 0 => return m
  | n + 1 => do shareEntry (← shareEntries m pte n) pte n

/-- The turn of the outer loop for entry `didx` of the copied directory `child`. -/
def copyPdeTurn (pde : ℕ → ℕ) (m : Frames) (child : ℕ → ℕ) (didx : ℕ) : C (Frames × (ℕ → ℕ)) := do
  let dentry := child didx
  if ¬ entPresent dentry then return (m, child)
  let pte := entIndex (pde didx)
  let m ← shareEntries m pte 1024
  let (m, paddr) ← copyPhyPage m pte
  return (m, Function.update child didx (setIndex dentry paddr))

/-- The first directory entry of user addresses. -/
abbrev firstDidx : ℕ := kernelMemerySize / 0x400000

/-- The first `n` turns of it. -/
def copyPdeTurns (pde : ℕ → ℕ) (m : Frames) : ℕ → C (Frames × (ℕ → ℕ))
  | 0 => return (m, pde)
  | n + 1 => do
    let (m, child) ← copyPdeTurns pde m n
    copyPdeTurn pde m child (firstDidx + n)

/-- The directory of the copy of the address space with directory `pde`. -/
def copyPde (m : Frames) (pde : ℕ → ℕ) : C (Frames × (ℕ → ℕ)) :=
  copyPdeTurns pde m (1023 - firstDidx)

/-- The turn of the inner loop of `free_pde` for entry `tidx` of the table `pte`. -/
def freeEntry (m : Frames) (pte tidx : ℕ) : C Frames := do
  let entry := m.entry pte tidx
  if ¬ entPresent entry then return m
  cassert (0 < m.p_bit_map (entIndex entry)) "p_bit_map[entry->index] > 0"
  freePPage m (entIndex entry)

/-- The first `n` turns of it. -/
def freeEntries (m : Frames) (pte : ℕ) : ℕ → C Frames
  | 0 => return m
  | n + 1 => do freeEntry (← freeEntries m pte n) pte n

/-- The turn of the outer loop for entry `didx` of the directory. -/
def freePdeTurn (pde : ℕ → ℕ) (m : Frames) (didx : ℕ) : C Frames := do
  let dentry := pde didx
  if ¬ entPresent dentry then return m
  let m ← freeEntries m (entIndex dentry) 1024
  freePPage m (entIndex dentry)

/-- The first `n` turns of it. -/
def freePdeTurns (pde : ℕ → ℕ) (m : Frames) : ℕ → C Frames
  | 0 => return m
  | n + 1 => do freePdeTurn pde (← freePdeTurns pde m n) (firstDidx + n)

/-- `free_pde`, up to the release of the directory itself. -/
def freePde (m : Frames) (pde : ℕ → ℕ) : C Frames := freePdeTurns pde m (1023 - firstDidx)

/-- The loop of `sys_brk` from `tmp_brk` on; every turn unlinks the page of `brk`.  A loop of more
    turns than there are pages does not end. -/
def brkLoop (m : Frames) (task : Space) (brk : ℕ) : ℕ → ℕ → C (Frames × Space)
  | 0, _ => throw .loop
  | fuel + 1, tmp_brk => do
    if task.brk ≤ tmp_brk then return (m, task)
    let (m, task) ← unlinkPage m task brk
    brkLoop m task brk fuel (u32 (tmp_brk + pageSize))

/-- The assertion compares a truth value with the bound. -/
def sysBrk (m : Frames) (task : Space) (brk : ℕ) : C (Frames × Space) := do
  cassert ((if kernelMemerySize < brk then 1 else 0) < userStackBottom - pageSize)
    "KERNEL_MEMERY_SIZE < brk < (USER_STACK_BOTTOM - PAGE_SIZE)"
  if brk < task.brk then
    let (m, task) ← brkLoop m task brk (2 ^ 20 + 1) brk
    return (m, { task with brk := brk })
  else if m.free_pages < (brk - task.brk) / pageSize then throw (.panic "out of memory")
  else return (m, { task with brk := brk })

/-- The branch of `page_fault` for a write to a page that is there. -/
def writeFault (m : Frames) (task : Space) (vaddr : ℕ) : C (Frames × Space) := do
  let (m, pde, pte) ← getPte m task.pde vaddr true
  let task := { task with pde := pde }
  let entry := m.entry pte (tidx vaddr)
  let idx := entIndex entry
  cassert (0 < m.p_bit_map idx) "p_bit_map[entry->index] > 0"
  if m.p_bit_map idx = 1 then
    return (m.setEntry pte (tidx vaddr) (setWrite entry true), task)
  else
    let m := { m with p_bit_map := Function.update m.p_bit_map idx (m.p_bit_map idx - 1) }
    let (m, paddr) ← copyPhyPage m idx
    return (m.setEntry pte (tidx vaddr) (entryInit paddr), task)

/-- `page_fault` for the address `vaddr` with the bits `present` and `write` of the error code.  An
    error report ends in a loop. -/
def pageFault (m : Frames) (task : Space) (vaddr : ℕ) (present write : Bool) :
    C (Frames × Space) :=
  if vaddr < 0x1000 then throw .loop
  else if vaddr < userStackBottom ∧ userStackBottom - pageSize ≤ vaddr then throw .loop
  else if ¬ (kernelMemerySize ≤ vaddr ∧ vaddr < userStackTop) then throw .loop
  else if task.brk ≤ vaddr ∧ vaddr < userStackBottom then throw .loop
  else if ¬ present then linkPage m task vaddr
  else if write then writeFault m task vaddr
  else throw .loop

/-! ## Entries as they are written -/

/-- What an entry gives: the frame and the right to write. -/
def pteOf (w : ℕ) : Option (ℕ × Bool) :=
  if entPresent w then some (entIndex w, entWrite w) else none

theorem pteOf_eq_some {w f : ℕ} {b : Bool} :
    pteOf w = some (f, b) ↔ entPresent w = true ∧ entIndex w = f ∧ entWrite w = b := by
  unfold pteOf
  by_cases h : entPresent w = true
  · simp [h]
  · simp [h]

theorem pteOf_eq_none {w : ℕ} : pteOf w = none ↔ entPresent w = false := by
  unfold pteOf
  by_cases h : entPresent w = true
  · simp [h]
  · simp [h]

@[simp] theorem pteOf_zero : pteOf 0 = none := rfl

@[simp] theorem pteOf_entryInit (idx : ℕ) : pteOf (entryInit idx) = some (idx, true) := by
  refine pteOf_eq_some.2 ⟨decide_eq_true ?_, ?_, decide_eq_true ?_⟩
  · unfold entryInit
    omega
  · unfold entIndex entryInit
    omega
  · unfold entryInit
    omega

@[simp] theorem pteOf_clearPresent (w : ℕ) : pteOf (clearPresent w) = none := by
  refine pteOf_eq_none.2 (decide_eq_false ?_)
  unfold clearPresent
  omega

theorem pteOf_setWrite {w f : ℕ} {b : Bool} (h : pteOf w = some (f, b)) (b' : Bool) :
    pteOf (setWrite w b') = some (f, b') := by
  obtain ⟨hp, hi, -⟩ := pteOf_eq_some.1 h
  have hp' : w % 2 = 1 := of_decide_eq_true hp
  refine pteOf_eq_some.2 ⟨decide_eq_true ?_, ?_, ?_⟩
  · unfold setWrite
    split_ifs <;> omega
  · unfold entIndex at hi
    unfold entIndex setWrite
    split_ifs <;> omega
  · unfold entWrite setWrite
    cases b' with
    | false => exact decide_eq_false (by simp only [Bool.false_eq_true, if_false]; omega)
    | true => exact decide_eq_true (by simp only [if_true]; omega)

theorem pteOf_setIndex {w f : ℕ} {b : Bool} (h : pteOf w = some (f, b)) (idx : ℕ) :
    pteOf (setIndex w idx) = some (idx, b) := by
  obtain ⟨hp, -, rfl⟩ := pteOf_eq_some.1 h
  have hp' : w % 2 = 1 := of_decide_eq_true hp
  refine pteOf_eq_some.2 ⟨decide_eq_true ?_, ?_, decide_eq_decide.2 ?_⟩
  · unfold setIndex
    omega
  · unfold entIndex setIndex
    omega
  · unfold setIndex
    omega

theorem clearPresent_lt {w : ℕ} (h : w < 2 ^ 32) : clearPresent w < 2 ^ 32 :=
  lt_of_le_of_lt (Nat.sub_le _ _) h

theorem setWrite_lt {w : ℕ} (h : w < 2 ^ 32) (b : Bool) : setWrite w b < 2 ^ 32 := by
  unfold setWrite
  split_ifs <;> omega

theorem entryInit_lt {idx : ℕ} (h : idx < 2 ^ 20) : entryInit idx < 2 ^ 32 := by
  unfold entryInit
  omega

end Rdix
