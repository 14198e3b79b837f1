/-
  Tasks and their address spaces (kernel/task.c, page faults of kernel/memory.c).

  A system call is one step where it runs with interrupts off to its end; between the steps any
  task that is not waiting may go on.  Two calls are cut: `sys_waitpid` where it blocks, and
  `sys_exit` where `iput` waits for the disk.  Such an exit ends in a task that is ready again, in
  user mode on the page directory that it has given back.

  Of a task the model has what decides over its memory: who its parent is, what it waits for,
  whether it is dead, and its space.  A kernel thread, and a user task before `kernel_to_user`, has
  no space.  The pages of a task are writable for it, and so are the page tables, which it sees
  from 0xffc00000 on.  Stores to the memory of the kernel, which is writable for all, too, are
  left out: they may change anything.
-/
import Rdix.Kernel.Spaces
import Rdix.Lib.Run

namespace Rdix

open Function

/-! ## The task table -/

abbrev Pid := Fin taskNum

inductive TaskState where
  | ready
  /-- `TASK_WAITING` in `sys_waitpid`, with its variable `child` -/
  | waiting (child : Pid)
  /-- unblocked, before `freeTask` -/
  | resumed (child : Pid)
  | died
  /-- in `sys_exit`, suspended while `iput` waits for the disk -/
  | exiting
  /-- ready at the end of such a `sys_exit` -/
  | left
deriving DecidableEq

/-- From `sys_exit` on `vmap` is NULL, whatever `space` says. -/
structure Tcb where
  ppid : Pid
  waitpid : ℤ
  state : TaskState
  space : Option Space

/-- `kpde` is the page directory of the kernel. -/
structure Tasks where
  frames : Frames
  kpde : ℕ → ℕ
  task_bucket : Pid → Option Tcb

namespace Tasks

/-- The table with `t` in slot `pid`. -/
def set (s : Tasks) (pid : Pid) (t : Option Tcb) : Tasks :=
  { s with task_bucket := update s.task_bucket pid t }

/-- The page directory of the space that is in a slot. -/
def dirs (s : Tasks) : Dirs := fun pid =>
  ((s.task_bucket pid).bind Tcb.space).elim (fun _ => 0) Space.pde

end Tasks

/-- `get_task`: the first free slot. -/
def getTask (s : Tasks) : C Pid :=
  match (List.finRange taskNum).find? fun pid => (s.task_bucket pid).isNone with
  | some pid => .ok pid
  | none => .error (.panic "no more task\n")

/-- `task_create`; `parent` is the running task. -/
def taskCreate (s : Tasks) (parent : Option Pid) : C Tasks := do
  let pid ← getTask s
  return s.set pid (some { ppid := parent.getD 0, waitpid := 0, state := .ready, space := none })

def bitmapInit (length offset : ℕ) : Bitmap := ⟨fun _ => 0#8, length, offset⟩

/-- The loop of `kernel_to_user` that marks the pages of the stack. -/
def markStack (vmap : Bitmap) (i : ℕ) : ℕ → C Bitmap
  | 0 => return vmap
  | n + 1 => do
    let (vmap, r) ← bitmapSet vmap i true
    cassert (r ≠ EOF) "bitmap_set(current->vmap, i, true) != EOF"
    markStack vmap (i + 1) n

def kernelToUser (s : Tasks) (pid : Pid) (task : Tcb) : C Tasks := do
  let vmap ← markStack (bitmapInit pageSize (kernelMemerySize / pageSize))
    (userStackBottom / pageSize) (userStackTop / pageSize - userStackBottom / pageSize)
  let (frames, pde) ← copyPde s.frames s.kpde
  let space : Space := { pde := pde, vmap := vmap, brk := kernelMemerySize }
  return { s with frames := frames }.set pid (some { task with space := some space })

/-- The bitmap of a new user task. -/
def stackMap : Bitmap :=
  (bitmapInit pageSize (kernelMemerySize / pageSize)).putRun
    (userStackBottom / pageSize - kernelMemerySize / pageSize)
    (userStackTop / pageSize - userStackBottom / pageSize)

theorem markStack_eq {vmap : Bitmap} (h : vmap.Fits) (n : ℕ) : ∀ {i : ℕ}, vmap.Clear i n →
    markStack vmap (vmap.offset + i) n = .ok (vmap.putRun i n) := by
  induction n generalizing vmap with
  | zero => intro i _; rfl
  | succ n ih =>
    intro i hc
    have hi : i < vmap.length * 8 := by have := hc.1; omega
    have hb : vmap.bit i = false := hc.2 i le_rfl (by omega)
    have hc' : (vmap.put i true).Clear (i + 1) n := by
      refine ⟨by have := hc.1; simp; omega, fun j h1 h2 => ?_⟩
      rw [Bitmap.bit_put, if_neg (by omega)]
      exact hc.2 j (by omega) (by omega)
    have hne : (0 : ℤ) ≠ EOF := by decide
    simp only [markStack, bitmapSet_eq h hi, hb, Bool.false_eq_true, if_false, ok_bind,
      cassert_pos hne]
    exact ih (h.put i true) hc'

theorem markStack_stackMap : markStack (bitmapInit pageSize (kernelMemerySize / pageSize))
    (userStackBottom / pageSize) (userStackTop / pageSize - userStackBottom / pageSize) =
      .ok stackMap := by
  have hfits : (bitmapInit pageSize (kernelMemerySize / pageSize)).Fits := by
    simp [Bitmap.Fits, bitmapInit, pageSize, kernelMemerySize]
  have hmark := markStack_eq hfits (userStackTop / pageSize - userStackBottom / pageSize)
    (i := userStackBottom / pageSize - kernelMemerySize / pageSize)
    ⟨by simp [bitmapInit, userStackTop, userStackBottom, pageSize, kernelMemerySize],
      fun j _ _ => by simp [Bitmap.bit, bitmapInit]⟩
  have hoff : (bitmapInit pageSize (kernelMemerySize / pageSize)).offset +
      (userStackBottom / pageSize - kernelMemerySize / pageSize) = userStackBottom / pageSize := by
    simp [bitmapInit, userStackTop, userStackBottom, pageSize, kernelMemerySize]
  rw [hoff] at hmark
  exact hmark

/-- The new task has the directory of the kernel. -/
theorem kernelToUser_eq {s : Tasks} {pid : Pid} {task : Tcb}
    (h : ∀ d : UserDidx, entPresent (s.kpde (firstDidx + d)) = false) :
    kernelToUser s pid task = .ok (s.set pid (some { task with
      space := some { pde := s.kpde, vmap := stackMap, brk := kernelMemerySize } })) := by
  rw [kernelToUser, markStack_stackMap, ok_bind, Frames.copyPde_of_absent h]
  rfl

/-- The pages of the stack may be used. -/
theorem bitmapTest_stackMap {vaddr : ℕ} (h : userStackBottom ≤ vaddr ∧ vaddr < userStackTop) :
    bitmapTest stackMap (vaddr / 4096) = .ok true := by
  have hfits : stackMap.Fits := by
    simp [Bitmap.Fits, stackMap, bitmapInit, pageSize, kernelMemerySize]
  have hoff : stackMap.offset = 0x1400 := by
    simp [stackMap, bitmapInit, pageSize, kernelMemerySize]
  have hlen : stackMap.length = 4096 := by simp [stackMap, bitmapInit, pageSize]
  simp only [userStackBottom, userStackTop, kernelMemerySize] at h
  obtain ⟨i, hi⟩ : ∃ i, vaddr / 4096 = stackMap.offset + i :=
    ⟨vaddr / 4096 - 0x1400, by rw [hoff]; omega⟩
  have hi' : vaddr / 4096 = 0x1400 + i := by rw [hi, hoff]
  rw [hi, bitmapTest_eq hfits (by rw [hlen]; omega), stackMap, Bitmap.bit_putRun]
  simp only [userStackTop, userStackBottom, pageSize, kernelMemerySize]
  rw [decide_eq_true (by omega), Bool.true_or]

/-- The child is returned, too. -/
def sysFork (s : Tasks) (pid : Pid) (task : Tcb) (space : Space) : C (Tasks × Pid) := do
  let child ← getTask s
  let (frames, pde) ← copyPde s.frames space.pde
  return ({ s with frames := frames }.set child (some
    { ppid := pid, waitpid := task.waitpid, state := .ready, space := some { space with pde := pde } }),
    child)

/-- The fork of a task that has no page yet. -/
theorem sysFork_eq {s : Tasks} {pid child : Pid} {task : Tcb} {space : Space}
    (h : ∀ d : UserDidx, entPresent (space.pde (firstDidx + d)) = false)
    (hc : getTask s = .ok child) :
    sysFork s pid task space = .ok (s.set child (some
      { ppid := pid, waitpid := task.waitpid, state := .ready, space := some space }), child) := by
  rw [sysFork, hc, ok_bind, Frames.copyPde_of_absent h]
  rfl

/-- What `sys_exit` and `kernel_thread_exit` do at last: the children of `pid` go to its parent,
    which is woken up if it waits for `pid`. -/
def leave (s : Tasks) (pid : Pid) (task : Tcb) : C Tasks := do
  let adopt (child : Tcb) := if child.ppid = pid then { child with ppid := task.ppid } else child
  let s := { s with task_bucket := fun i => (s.task_bucket i).map adopt }
  let parent ← deref "task_bucket[task->ppid]" (s.task_bucket task.ppid)
  match parent.state with
  | .waiting child =>
    if parent.waitpid = -1 ∨ parent.waitpid = (pid : ℤ) then
      return s.set task.ppid (some { parent with state := .resumed child })
    else return s
  | _ => return s

/-- `sys_exit` behind the two `iput`s. -/
def exitRest (s : Tasks) (pid : Pid) (task : Tcb) (space : Space) : C Tasks := do
  let frames ← freePde s.frames space.pde
  leave { s with frames := frames } pid task

/-- `sys_exit` when `iput` does not block. -/
def sysExit (s : Tasks) (pid : Pid) (task : Tcb) (space : Space) : C Tasks :=
  exitRest (s.set pid (some { task with state := .died, space := none })) pid task space

/-- `sys_exit` up to where `iput` blocks, which takes the task out of `died_list`. -/
def exitBlock (s : Tasks) (pid : Pid) (task : Tcb) : Tasks :=
  s.set pid (some { task with state := .exiting })

/-- The rest of it.  The last `schedule` finds the task in no list, and makes it ready. -/
def exitEnd (s : Tasks) (pid : Pid) (task : Tcb) (space : Space) : C Tasks :=
  exitRest (s.set pid (some { task with state := .left })) pid task space

/-- `kernel_thread_exit` of the running thread. -/
def kernelThreadExit (s : Tasks) (pid : Pid) (task : Tcb) : C Tasks :=
  leave (s.set pid (some { task with state := .died })) pid task

/-- The child that `sys_waitpid(arg)` finds. -/
def findChild (s : Tasks) (pid : Pid) (arg : ℤ) : Option Pid :=
  (List.finRange taskNum).find? fun i =>
    (s.task_bucket i).elim false fun child => child.ppid = pid ∧ (arg = (i : ℤ) ∨ arg = -1)

/-- `sys_waitpid`, up to where it blocks. -/
def sysWaitpid (s : Tasks) (pid : Pid) (task : Tcb) (arg : ℤ) : Tasks :=
  match findChild s pid arg with
  | none => s
  | some i =>
    if (s.task_bucket i).elim false fun child => child.state = .died then s.set i none
    else s.set pid (some { task with waitpid := arg, state := .waiting i })

/-- The rest of it, from where it goes on. -/
def freeTask (s : Tasks) (pid : Pid) (task : Tcb) (child : Pid) : Tasks :=
  (s.set pid (some { task with state := .ready })).set child none

/-! ## User accesses -/

/-- The translation of an address, with the right to write. -/
def Frames.walk (m : Frames) (pde : ℕ → ℕ) (vaddr : ℕ) : Option (ℕ × Bool) :=
  (tableOf (pde (didx vaddr))).bind fun pte =>
    (pteOf (m.entry pte (tidx vaddr))).map fun c => (c.1, entWrite (pde (didx vaddr)) && c.2)

theorem Frames.walk_of_table {m : Frames} {pde : ℕ → ℕ} {vaddr pte : ℕ}
    (h : tableOf (pde (didx vaddr)) = some pte) :
    (m.walk pde vaddr).map Prod.fst = (pteOf (m.entry pte (tidx vaddr))).map Prod.fst := by
  rw [walk, h, Option.bind_some, Option.map_map]
  rfl

/-- The byte that a user reads. -/
def Frames.readByte (m : Frames) (pde : ℕ → ℕ) (vaddr : ℕ) : Option (BitVec 8) :=
  (m.walk pde vaddr).map fun c => m.data c.1 (vaddr % pageSize)

/-- The frames after a byte of frame `f` is written. -/
def Frames.writeByte (m : Frames) (f vaddr : ℕ) (b : BitVec 8) : Frames :=
  { m with data := update m.data f (update (m.data f) (vaddr % pageSize) b) }

/-- An address above the kernel's and below the page tables. -/
def UserAddr (vaddr : ℕ) : Prop := kernelMemerySize ≤ vaddr ∧ vaddr < 0xffc00000

/-- `w` with another byte `i`. -/
def putByte (w i : ℕ) (b : BitVec 8) : ℕ := w - w / 256 ^ i % 256 * 256 ^ i + b.toNat * 256 ^ i

/-- `sys_test`; the kernel writes whether the entry says so or not. -/
def sysTest (m : Frames) (task : Space) : C (Frames × Space) := do
  let (m, task) ← linkPage m task 0x1600000
  let c ← deref "p" (m.walk task.pde 0x1600002)
  unlinkPage (m.writeByte c.1 0x1600002 88#8) task 0x1600000

/-! ## Steps -/

inductive TaskAct where
  | create (parent : Option Pid)
  | toUser (pid : Pid)
  | fork (pid child : Pid)
  | exit (pid : Pid)
  | exitBlock (pid : Pid)
  | exitEnd (pid : Pid)
  | threadExit (pid : Pid)
  | waitpid (pid : Pid) (arg : ℤ)
  | wakeup (pid child : Pid)
  | brk (pid : Pid) (brk : ℕ)
  | test (pid : Pid)
  | fault (pid : Pid) (vaddr : ℕ) (write : Bool)
  | store (pid : Pid) (vaddr : ℕ) (b : BitVec 8)

/-- What user tasks do when nobody calls `sys_waitpid`, `sys_brk` or `sys_test`. -/
def TaskAct.Plain : TaskAct → Prop
  | .waitpid _ _ | .wakeup _ _ | .brk _ _ | .test _ => False
  | _ => True

/-- No exit is suspended, and stores go to user addresses. -/
def TaskAct.InBounds : TaskAct → Prop
  | .exitBlock _ => False
  | .store _ vaddr _ => UserAddr vaddr
  | _ => True

namespace Tasks

/-- Task `pid`, ready, with its space. -/
def At (s : Tasks) (pid : Pid) (t : Tcb) (space : Option Space) : Prop :=
  s.task_bucket pid = some t ∧ t.state = .ready ∧ t.space = space

/-- Task `pid` in user mode, with its space or with the one that it has given back. -/
def Runs (s : Tasks) (pid : Pid) (t : Tcb) (space : Space) : Prop :=
  s.task_bucket pid = some t ∧ (t.state = .ready ∨ t.state = .left) ∧ t.space = some space

theorem At.runs {s : Tasks} {pid : Pid} {t : Tcb} {space : Space} (h : s.At pid t (some space)) :
    s.Runs pid t space := ⟨h.1, Or.inl h.2.1, h.2.2⟩

/-- The state after `pid` has changed its space. -/
def setSpace (s : Tasks) (pid : Pid) (t : Tcb) (r : Frames × Space) : Tasks :=
  { s with frames := r.1 }.set pid (some { t with space := some r.2 })

end Tasks

/-- The steps of the tasks; a call that halts the kernel has no step.  After an exit that was
    suspended, what needs `vmap` or `pwd` halts it. -/
inductive TaskStep (s : Tasks) : TaskAct → Tasks → Prop where
  | create {parent s'} : taskCreate s parent = .ok s' → TaskStep s (.create parent) s'
  | toUser {pid t s'} : s.At pid t none → kernelToUser s pid t = .ok s' →
      TaskStep s (.toUser pid) s'
  | fork {pid t space child s'} : s.At pid t (some space) →
      sysFork s pid t space = .ok (s', child) → TaskStep s (.fork pid child) s'
  | exit {pid t space s'} : s.At pid t (some space) → sysExit s pid t space = .ok s' →
      TaskStep s (.exit pid) s'
  | exitBlock {pid t space} : s.At pid t (some space) →
      TaskStep s (.exitBlock pid) (Rdix.exitBlock s pid t)
  -- the driver frees the thread that was the timer of its request
  | exitWait {pid t child u} : s.task_bucket pid = some t → t.state = .exiting ∨ t.state = .left →
      s.task_bucket child = some u → u.ppid = pid → u.state = .died →
      TaskStep s (.wakeup pid child) (s.set child none)
  | exitEnd {pid t space s'} : s.task_bucket pid = some t → t.state = .exiting →
      t.space = some space → Rdix.exitEnd s pid t space = .ok s' → TaskStep s (.exitEnd pid) s'
  | threadExit {pid t s'} : s.At pid t none → kernelThreadExit s pid t = .ok s' →
      TaskStep s (.threadExit pid) s'
  | waitpid {pid t space arg} : s.At pid t space →
      TaskStep s (.waitpid pid arg) (sysWaitpid s pid t arg)
  | wakeup {pid t child} : s.task_bucket pid = some t → t.state = .resumed child →
      TaskStep s (.wakeup pid child) (freeTask s pid t child)
  | brk {pid t space brk r} : s.Runs pid t space → brk < 2 ^ 32 →
      sysBrk s.frames space brk = .ok r → TaskStep s (.brk pid brk) (s.setSpace pid t r)
  | test {pid t space r} : s.At pid t (some space) → sysTest s.frames space = .ok r →
      TaskStep s (.test pid) (s.setSpace pid t r)
  -- the access is not allowed, so the processor faults; `page_fault` returns at user addresses only
  | fault {pid t space vaddr write r} : s.Runs pid t space →
      (s.frames.walk space.pde vaddr).elim true (fun c => write && !c.2) = true →
      (t.state = .left → (s.frames.walk space.pde vaddr).isSome) →
      pageFault s.frames space vaddr (s.frames.walk space.pde vaddr).isSome write = .ok r →
      TaskStep s (.fault pid vaddr write) (s.setSpace pid t r)
  | store {pid t space vaddr b f} : s.Runs pid t space → UserAddr vaddr →
      s.frames.walk space.pde vaddr = some (f, true) →
      TaskStep s (.store pid vaddr b) { s with frames := s.frames.writeByte f vaddr b }
  -- from 0xffc00000 on the page tables are pages, and the last of them is the directory
  | storeTable {pid t space vaddr b f} {d : UserDidx} : s.Runs pid t space →
      vaddr / 4096 = 0xffc00 + (firstDidx + d) → pteOf (space.pde (firstDidx + d)) = some (f, true) →
      TaskStep s (.store pid vaddr b) { s with frames := s.frames.writeByte f vaddr b }
  | storeDir {pid t space vaddr b} {d : UserDidx} : s.Runs pid t space →
      vaddr / 4 = 0xfffff000 / 4 + (firstDidx + d) →
      TaskStep s (.store pid vaddr b) (s.setSpace pid t (s.frames, { space with
        pde := update space.pde (firstDidx + d) (putByte (space.pde (firstDidx + d)) (vaddr % 4) b) }))

/-- After booting: the frames below 16 MiB are the kernel's, and so is the page table of its I/O
    memory; there are no tasks, and no table for user addresses. -/
structure Booted (s : Tasks) : Prop where
  total : s.frames.total ≤ 2 ^ 20
  used : ∀ f, s.frames.Avail f → (s.frames.p_bit_map f = 0 ↔ 4096 ≤ f ∧ tableOf (s.kpde 4) ≠ some f)
  noTable : ∀ d : UserDidx, entPresent (s.kpde (firstDidx + d)) = false
  noTask : ∀ pid, s.task_bucket pid = none

def taskSys : Transition.Sys Tasks TaskAct where
  init := Booted
  step := TaskStep

/-! ## Counts -/

namespace Tasks

/-- A frame that `get_p_page` can hand out and that is not the kernel's I/O page table. -/
def Handed (s : Tasks) (f : ℕ) : Prop :=
  s.frames.Avail f ∧ 4096 ≤ f ∧ tableOf (s.kpde 4) ≠ some f

/-- The number of page-table entries for user addresses, over all spaces, that map frame `f`. -/
def mapCount (s : Tasks) (f : ℕ) : ℕ :=
  (Finset.univ.filter fun y : Frames.Page =>
    (s.frames.slot (s.dirs y.1) (y.2.1, some y.2.2)).map Prod.fst = some f).card

/-- The number of directory entries that use frame `f` as such a page table. -/
def tableCount (s : Tasks) (f : ℕ) : ℕ :=
  (Finset.univ.filter fun x : Pid × UserDidx =>
    tableOf (s.dirs x.1 (firstDidx + x.2)) = some f).card

/-- What the conditions on a run ask of a step: `sys_waitpid` frees a child only when it is dead,
    `sys_brk` lowers the break only to an address that is the user's, no `sys_exit` is suspended,
    and stores go to user addresses. -/
def Careful (s : Tasks) : TaskAct → Prop
  | .wakeup _ child => ∀ t, s.task_bucket child = some t → t.state = .died
  | .brk pid brk => ∀ t space, s.At pid t (some space) → brk < space.brk → UserAddr brk
  | a => a.InBounds

theorem careful_of_plain {s : Tasks} {a : TaskAct} (h : a.Plain ∧ a.InBounds) : s.Careful a := by
  cases a with
  | wakeup pid child => exact absurd h.1 not_false
  | brk pid brk => exact absurd h.1 not_false
  | _ => exact h.2

/-- No exit has been suspended. -/
def NoneLeft (s : Tasks) : Prop :=
  ∀ pid t, s.task_bucket pid = some t → t.state ≠ .exiting ∧ t.state ≠ .left

section
variable {s s' : Tasks} {pid : Pid} {t : Tcb} {space : Space} {a : TaskAct}

/-- Who is in user mode then has its space. -/
theorem Runs.at (h : s.Runs pid t space) (N : s.NoneLeft) : s.At pid t (some space) :=
  ⟨h.1, h.2.1.resolve_right (N pid t h.1).2, h.2.2⟩

theorem NoneLeft.set (N : s.NoneLeft) {o : Option Tcb}
    (ho : ∀ u, o = some u → u.state ≠ .exiting ∧ u.state ≠ .left) : (s.set pid o).NoneLeft := by
  intro i u hu
  by_cases hi : i = pid
  · simp only [Tasks.set, hi, update_self] at hu
    exact ho u hu
  · simp only [Tasks.set, update_of_ne hi] at hu
    exact N i u hu

/-- A task goes on in its state, whatever the frames are. -/
theorem NoneLeft.keep (N : s.NoneLeft) (ht : s.task_bucket pid = some t) (m : Frames)
    {o : Option Space} : ({ s with frames := m }.set pid (some { t with space := o })).NoneLeft :=
  NoneLeft.set (s := { s with frames := m }) N (by rintro u ⟨⟩; exact N pid t ht)

theorem NoneLeft.leave (N : s.NoneLeft) (h : leave s pid t = .ok s') : s'.NoneLeft := by
  set adopt : Tcb → Tcb := fun child =>
    if child.ppid = pid then { child with ppid := t.ppid } else child
  have N₁ : ({ s with task_bucket := fun i => (s.task_bucket i).map adopt } : Tasks).NoneLeft := by
    intro i u hu
    obtain ⟨v, hv, rfl⟩ := Option.map_eq_some_iff.1 hu
    have hst : (adopt v).state = v.state := by
      show Tcb.state (if _ then _ else _) = _
      split_ifs <;> rfl
    rw [hst]
    exact N i v hv
  obtain ⟨parent, -, h⟩ := bind_eq_ok.1 h
  cases hst : parent.state with
  | waiting child =>
    simp only [hst] at h
    split_ifs at h
    · cases h
      exact N₁.set (by rintro u ⟨⟩; simp)
    · cases h
      exact N₁
  | _ =>
    simp only [hst] at h
    cases h
    exact N₁

/-- It stays so in careful runs. -/
theorem NoneLeft.step (N : s.NoneLeft) (hc : s.Careful a) (h : TaskStep s a s') : s'.NoneLeft := by
  cases h with
  | create h =>
    obtain ⟨pid, -, h⟩ := bind_eq_ok.1 h
    cases h
    exact N.set (by rintro u ⟨⟩; simp)
  | toUser ha h =>
    obtain ⟨vmap, -, h⟩ := bind_eq_ok.1 h
    obtain ⟨⟨m, pde⟩, -, h⟩ := bind_eq_ok.1 h
    cases h
    exact N.keep ha.1 m
  | fork ha h =>
    obtain ⟨c, -, h⟩ := bind_eq_ok.1 h
    obtain ⟨⟨m, pde⟩, -, h⟩ := bind_eq_ok.1 h
    cases h
    exact NoneLeft.set (s := { s with frames := m }) N (by rintro u ⟨⟩; simp)
  | @exit pid t space _ ha h =>
    obtain ⟨m, -, h⟩ := bind_eq_ok.1 h
    have N₁ : (s.set pid (some { t with state := .died, space := none })).NoneLeft :=
      N.set (by rintro u ⟨⟩; simp)
    exact NoneLeft.leave (s := { s.set pid _ with frames := m }) N₁ h
  | exitBlock ha => exact absurd hc not_false
  | exitWait ht hst _ _ _ => exact absurd hst (not_or.2 (N _ _ ht))
  | exitEnd ht hst _ _ => exact absurd hst (N _ _ ht).1
  | threadExit _ h => exact (N.set (by rintro u ⟨⟩; simp)).leave h
  | @waitpid pid t space arg ha =>
    unfold sysWaitpid
    cases findChild s pid arg with
    | none => exact N
    | some i =>
      dsimp only
      split_ifs
      · exact N.set (by rintro u ⟨⟩)
      · exact N.set (by rintro u ⟨⟩; simp)
  | wakeup ht _ => exact (N.set (by rintro u ⟨⟩; simp)).set (by rintro u ⟨⟩)
  | brk ha _ _ => exact N.keep ha.1 _
  | test ha _ => exact N.keep ha.1 _
  | fault ha _ _ _ => exact N.keep ha.1 _
  | store _ _ _ => exact N
  | storeTable _ _ _ => exact N
  | storeDir ha _ => exact N.keep ha.1 _

theorem noneLeft_of_booted (h : Booted s) : s.NoneLeft := by
  intro pid t ht
  rw [h.noTask pid] at ht
  cases ht

end

end Tasks

end Rdix
