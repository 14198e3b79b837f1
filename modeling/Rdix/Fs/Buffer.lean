/-
  The buffer cache, with any number of tasks (fs/buffer.c, device_request of kernel/device.c).

  A step is what one task does between two points at which another may run: the calls to `block`
  in `getblk` and `device_request`, and the places where interrupts are on.  The transfer of a
  block is a step of its own.  A buffer is the index of its `buffer_t` behind `BUFFER_M_START`; the
  lists hold such indices, or tasks.  `held` is not in the source: the buffers that `bread` has
  returned to a task, and that it has not released yet.
-/
import Rdix.Kernel.Device

namespace Rdix

open Function Transition

/-! ## Data -/

/-- Device and block number. -/
abbrev Key := BitVec 32 × BitVec 32

/-- `mutex_t`; `value` is true when it is free. -/
structure Mutex (T : Type) where
  value : Bool
  waiter : List T

/-- `buffer_t`, for tasks `T` and blocks with contents `α`. -/
structure Buffer (T α : Type) where
  b_data : α
  b_blknr : BitVec 32
  b_dev : BitVec 32
  b_dirty : Bool
  b_lock : Mutex T
  b_count : BitVec 8
  b_vaild : Bool
  waiter : Option T

def Buffer.key {T α : Type} (bf : Buffer T α) : Key := (bf.b_dev, bf.b_blknr)

/-- Where a call of `device_request` goes on. -/
inductive Cont where
  /-- the `bwrite` of `getblk`, which looks for `key` and has chosen `bf` -/
  | victim (key : Key) (bf : ℕ)
  /-- `bread` -/
  | bread (bf : ℕ)
  /-- the `bwrite` of `brelse` -/
  | brelse (bf : ℕ)

/-- Where a task is. -/
inductive BufPc (T : Type) where
  /-- in its own code -/
  | out
  /-- at `_retry` -/
  | getblk (key : Key)
  /-- in `block`, as the `waiter` of `bf` -/
  | waiter (key : Key) (bf : ℕ)
  /-- in `bread`, behind `getblk` -/
  | bread (bf : ℕ)
  /-- in `brelse`, behind `--bf->b_count` -/
  | brelse (bf : ℕ)
  /-- at the `block` in the loop of `device_request` -/
  | check (k : Cont) (req : Request T (ℕ × Key))
  /-- in `do_request` -/
  | serve (k : Cont) (req : Request T (ℕ × Key))
  /-- behind `do_request` -/
  | served (k : Cont) (req : Request T (ℕ × Key))
  /-- behind `device_request` -/
  | back (k : Cont)

/-- The disks: which device a device number is a part of, whether it is `DEV_BLOCK`, where it
    starts. -/
structure Disks (D : Type) where
  parent : BitVec 32 → D
  block : BitVec 32 → Bool
  start : BitVec 32 → ℕ

/-- The cache, the disks and the tasks; `buffer_ptr` is the number of buffers so far. -/
structure Buffers (T D α : Type) where
  buf : ℕ → Buffer T α
  buffer_ptr : ℕ
  free_list : List ℕ
  hash_table : ℕ → List ℕ
  wait_list : List T
  disk : Key → α
  dev : D → Device T (ℕ × Key)
  pc : T → BufPc T
  ready : T → Bool
  held : T → List ℕ

/-- `HASH_CNT`. -/
abbrev hashCnt : ℕ := 31

def hash (key : Key) : ℕ := (key.1 ^^^ key.2).toNat % hashCnt

/-- There is room for one more `buffer_t`, of 72 bytes, and its block. -/
def Room (buffer_ptr : ℕ) : Prop := 0x800000 + 72 * buffer_ptr + 72 < 0xC00000 - 1024 * buffer_ptr - 1024

instance (n : ℕ) : Decidable (Room n) := inferInstanceAs (Decidable (_ < _))

namespace Buffers

variable {T D α : Type}

/-! ## Lists of buffers -/

def findFromHashTable (s : Buffers T D α) (key : Key) : Option ℕ :=
  (s.hash_table (hash key)).find? fun ptr => (s.buf ptr).key = key

/-- `_SCORE`. -/
def score (bf : Buffer T α) : ℕ := (if bf.b_lock.value then 0 else 1) + if bf.b_dirty then 2 else 0

/-- The loop of `getblk` over `free_list`; true stands for `goto _find_new`. -/
def scan (buf : ℕ → Buffer T α) : List ℕ → Option ℕ → Option ℕ × Bool
  | [], bf => (bf, false)
  | tmp :: rest, bf =>
    if (buf tmp).b_count ≠ 0 then scan buf rest bf
    else if (buf tmp).waiter.isSome then scan buf rest bf
    else
      let bf := bf.getD tmp
      if score (buf bf) = 0 then (some bf, true)
      else if score (buf tmp) < score (buf bf) then scan buf rest (some tmp)
      else scan buf rest (some bf)

/-- Change one buffer. -/
def setBuf (s : Buffers T D α) (bf : ℕ) (f : Buffer T α → Buffer T α) : Buffers T D α :=
  { s with buf := update s.buf bf (f (s.buf bf)) }

/-- `buffer_remove`: from the lists that contain it. -/
def bufferRemove (s : Buffers T D α) (bf : ℕ) : Buffers T D α :=
  { s with free_list := s.free_list.erase bf, hash_table := fun i => (s.hash_table i).erase bf }

def bufferInsert (s : Buffers T D α) (bf : ℕ) : Buffers T D α :=
  let i := hash (s.buf bf).key
  { s with free_list := s.free_list ++ [bf], hash_table := update s.hash_table i (bf :: s.hash_table i) }

/-- `get_new_buffer`, in memory that `buffer_ptr` points to. -/
def getNewBuffer (s : Buffers T D α) : Option (Buffers T D α × ℕ) :=
  if Room s.buffer_ptr then
    some ({ s with
      buf := update s.buf s.buffer_ptr
        { b_data := (s.buf s.buffer_ptr).b_data, b_dev := BitVec.ofInt 32 EOF, b_blknr := 0
          b_count := 0, b_dirty := false, b_lock := ⟨true, []⟩, b_vaild := false, waiter := none }
      buffer_ptr := s.buffer_ptr + 1 }, s.buffer_ptr)
  else none

/-- From `_find_new` on. -/
def findNew (s : Buffers T D α) (bf : ℕ) (key : Key) : Buffers T D α :=
  let s := s.setBuf bf fun b =>
    { b with b_count := 1, b_dirty := false, b_vaild := false, b_blknr := key.2, b_dev := key.1 }
  (s.bufferRemove bf).bufferInsert bf

variable [DecidableEq T] [DecidableEq D]

/-! ## Scheduling -/

/-- A task goes on at `pc`. -/
def goto (s : Buffers T D α) (t : T) (pc : BufPc T) : Buffers T D α :=
  { s with pc := update s.pc t pc }

/-- `block`: it is not ready to run. -/
def block (s : Buffers T D α) (t : T) : Buffers T D α := { s with ready := update s.ready t false }

def unblock (s : Buffers T D α) (t : T) : Buffers T D α := { s with ready := update s.ready t true }

/-- `mutex_lock`; who has to wait for the mutex has it when it goes on. -/
def bufferLock (s : Buffers T D α) (t : T) (bf : ℕ) : Buffers T D α :=
  let lock := (s.buf bf).b_lock
  if lock.value ∧ lock.waiter = [] then s.setBuf bf fun b => { b with b_lock := ⟨false, []⟩ }
  else (s.setBuf bf fun b => { b with b_lock := ⟨lock.value, t :: lock.waiter⟩ }).block t

/-- `mutex_unlock`: the first waiter gets the mutex. -/
def mutexUnlock (s : Buffers T D α) (bf : ℕ) : Buffers T D α :=
  let lock := (s.buf bf).b_lock
  match lock.waiter.getLast? with
  | none => s.setBuf bf fun b => { b with b_lock := ⟨true, []⟩ }
  | some t => (s.setBuf bf fun b => { b with b_lock := ⟨lock.value, lock.waiter.dropLast⟩ }).unblock t

/-- `buffer_unlock`: the `waiter` of the buffer is woken up, too. -/
def bufferUnlock (s : Buffers T D α) (bf : ℕ) : Buffers T D α :=
  match (s.buf bf).waiter with
  | none => s.mutexUnlock bf
  | some t => (s.mutexUnlock bf).unblock t

/-! ## The functions of the cache -/

/-- A turn of the loop of `device_request`, up to a `block` or to `do_request`. -/
def checkRequest (disks : Disks D) (s : Buffers T D α) (t : T) (k : Cont)
    (req : Request T (ℕ × Key)) : Buffers T D α :=
  let d := disks.parent req.buf.2.1
  if (s.dev d).do_request then s.block t
  else
    let s := { s with dev := update s.dev d { s.dev d with do_request := true } }
    (s.goto t (.serve k req)).bufferLock t req.buf.1

/-- The request is inserted in the list of the device. -/
def listRequest (disks : Disks D) (s : Buffers T D α) (t : T) (k : Cont) (req : Request T (ℕ × Key)) :
    Buffers T D α :=
  let d := disks.parent req.buf.2.1
  { s with dev := update s.dev d ((s.dev d).insert req) }.goto t (.check k req)

/-- `device_request`: interrupts are off from `list_insert` on, so the first turn of its loop is taken
    at once. -/
def deviceRequest (disks : Disks D) (s : Buffers T D α) (t : T) (bf : ℕ) (type : ReqType) (k : Cont) :
    C (Buffers T D α) := do
  let key := (s.buf bf).key
  cassert (disks.block key.1 = true) "device->type == DEV_BLOCK"
  let req : Request T (ℕ × Key) :=
    { type := type, idx := u32 ((key.2 * 2).toNat + disks.start key.1), buf := (bf, key), task := t }
  return (s.listRequest disks t k req).checkRequest disks t k req

theorem deviceRequest_eq_ok {disks : Disks D} {s s' : Buffers T D α} {t : T} {bf : ℕ} {type : ReqType}
    {k : Cont} (h : s.deviceRequest disks t bf type k = .ok s') :
    ∃ req : Request T (ℕ × Key), req.type = type ∧ req.buf = (bf, (s.buf bf).key) ∧ req.task = t ∧
      s' = (s.listRequest disks t k req).checkRequest disks t k req := by
  obtain ⟨-, h⟩ := cassert_bind_eq_ok.1 h
  cases h
  exact ⟨_, rfl, rfl, rfl, rfl⟩

/-- `getblk` from its last look at the hash table on. -/
def getblkFind (s : Buffers T D α) (t : T) (key : Key) (bf : ℕ) : Buffers T D α :=
  match s.findFromHashTable key with
  | some _ => s.goto t (.getblk key)
  | none => (s.findNew bf key).goto t (.bread bf)

/-- `getblk` behind the wait for the lock. -/
def getblkWrite (disks : Disks D) (s : Buffers T D α) (t : T) (key : Key) (bf : ℕ) :
    C (Buffers T D α) :=
  if (s.buf bf).b_dirty then s.deviceRequest disks t bf .write (.victim key bf)
  else return s.getblkFind t key bf

/-- `getblk` from `_retry` on. -/
def getblk (disks : Disks D) (s : Buffers T D α) (t : T) (key : Key) : C (Buffers T D α) :=
  match s.findFromHashTable key with
  | some bf => return (s.setBuf bf fun b => { b with b_count := b.b_count + 1 }).goto t (.bread bf)
  | none =>
    match s.getNewBuffer with
    | some (s, bf) => return (s.findNew bf key).goto t (.bread bf)
    | none =>
      match scan s.buf s.free_list none with
      | (none, _) => return ({ s with wait_list := t :: s.wait_list }.goto t (.getblk key)).block t
      | (some bf, true) => return (s.findNew bf key).goto t (.bread bf)
      | (some bf, false) =>
        if (s.buf bf).b_lock.value then s.getblkWrite disks t key bf
        else do
          cassert ((s.buf bf).waiter = none) "!bf->waiter"
          return ((s.setBuf bf fun b => { b with waiter := some t }).goto t (.waiter key bf)).block t

/-- `getblk` behind the `block` of the waiter. -/
def getblkWaiter (disks : Disks D) (s : Buffers T D α) (t : T) (key : Key) (bf : ℕ) :
    C (Buffers T D α) :=
  let s := s.setBuf bf fun b => { b with waiter := none }
  if (s.buf bf).b_count ≠ 0 then return s.goto t (.getblk key)
  else s.getblkWrite disks t key bf

/-- `bread` behind `getblk`. -/
def breadValid (disks : Disks D) (s : Buffers T D α) (t : T) (bf : ℕ) : C (Buffers T D α) :=
  if (s.buf bf).b_vaild then return { s with held := update s.held t (bf :: s.held t) }.goto t .out
  else s.deviceRequest disks t bf .read (.bread bf)

/-- The end of `brelse`: a task that has found no buffer tries again. -/
def wakeup (s : Buffers T D α) (t : T) : Buffers T D α :=
  match s.wait_list with
  | [] => s.goto t .out
  | w :: rest => ({ s with wait_list := rest }.unblock w).goto t .out

/-- `brelse` behind `--bf->b_count`. -/
def brelseRest (disks : Disks D) (s : Buffers T D α) (t : T) (bf : ℕ) : C (Buffers T D α) :=
  if (s.buf bf).b_count ≠ 0 then return s.goto t .out
  else if (s.buf bf).b_dirty then s.deviceRequest disks t bf .write (.brelse bf)
  else return s.wakeup t

/-- `do_request`. -/
def doRequest (s : Buffers T D α) (t : T) (k : Cont) (req : Request T (ℕ × Key)) : Buffers T D α :=
  let s := match req.type with
    | .read => s.setBuf req.buf.1 fun b => { b with b_data := s.disk req.buf.2 }
    | .write => { s with disk := update s.disk req.buf.2 (s.buf req.buf.1).b_data }
  s.goto t (.served k req)

/-- `device_request` behind `do_request`. -/
def finishRequest (disks : Disks D) (s : Buffers T D α) (t : T) (k : Cont)
    (req : Request T (ℕ × Key)) : C (Buffers T D α) := do
  let s := s.bufferUnlock req.buf.1
  let d := disks.parent req.buf.2.1
  let (dev, next) ← (s.dev d).finish req
  let s := { s with dev := update s.dev d dev }.goto t (.back k)
  return next.elim s fun next => s.unblock next.task

/-- Behind `device_request`. -/
def goBack (s : Buffers T D α) (t : T) : Cont → Buffers T D α
  | .victim key bf =>
    let s := s.setBuf bf fun b => { b with b_dirty := false }
    if (s.buf bf).b_count ≠ 0 then s.goto t (.getblk key) else s.getblkFind t key bf
  | .bread bf =>
    let s := s.setBuf bf fun b => { b with b_vaild := true, b_dirty := false }
    { s with held := update s.held t (bf :: s.held t) }.goto t .out
  | .brelse bf => (s.setBuf bf fun b => { b with b_dirty := false }).wakeup t

end Buffers

/-! ## Steps -/

inductive BufAct (T α : Type) where
  | bread (t : T) (key : Key)
  | modify (t : T) (bf : ℕ) (data : α)
  | brelse (t : T) (bf : ℕ)
  /-- the task goes on -/
  | run (t : T)

variable {T D α : Type} [DecidableEq T] [DecidableEq D]

/-- The steps of the tasks; an assertion that fails has no step. -/
inductive BufStep (disks : Disks D) (s : Buffers T D α) : BufAct T α → Buffers T D α → Prop where
  | bread {t key} : s.pc t = .out → BufStep disks s (.bread t key) (s.goto t (.getblk key))
  | modify {t bf data} : s.pc t = .out → bf < s.buffer_ptr → BufStep disks s (.modify t bf data)
      (s.setBuf bf fun b => { b with b_data := data, b_dirty := true })
  | brelse {t bf} : s.pc t = .out → bf < s.buffer_ptr → BufStep disks s (.brelse t bf)
      ({ s.setBuf bf fun b => { b with b_count := b.b_count - 1 } with
        held := update s.held t ((s.held t).erase bf) }.goto t (.brelse bf))
  | getblk {t key s'} : s.pc t = .getblk key → s.ready t = true → s.getblk disks t key = .ok s' →
      BufStep disks s (.run t) s'
  | waiter {t key bf s'} : s.pc t = .waiter key bf → s.ready t = true →
      s.getblkWaiter disks t key bf = .ok s' → BufStep disks s (.run t) s'
  | breadValid {t bf s'} : s.pc t = .bread bf → s.breadValid disks t bf = .ok s' →
      BufStep disks s (.run t) s'
  | brelseRest {t bf s'} : s.pc t = .brelse bf → s.brelseRest disks t bf = .ok s' →
      BufStep disks s (.run t) s'
  | check {t k req} : s.pc t = .check k req → s.ready t = true →
      BufStep disks s (.run t) (s.checkRequest disks t k req)
  | serve {t k req} : s.pc t = .serve k req → s.ready t = true →
      BufStep disks s (.run t) (s.doRequest t k req)
  | finish {t k req s'} : s.pc t = .served k req → s.finishRequest disks t k req = .ok s' →
      BufStep disks s (.run t) s'
  | back {t k} : s.pc t = .back k → BufStep disks s (.run t) (s.goBack t k)

/-- Any number of tasks, from `buffer_init` on. -/
def bufSys (T D α : Type) [DecidableEq T] [DecidableEq D] (disks : Disks D) :
    Sys (Buffers T D α) (BufAct T α) where
  init s := s.buffer_ptr = 0 ∧ s.free_list = [] ∧ (∀ i, s.hash_table i = []) ∧ s.wait_list = [] ∧
    (∀ d, s.dev d = ⟨false, .fore, []⟩) ∧ (∀ t, s.pc t = .out) ∧ (∀ t, s.ready t = true) ∧
    ∀ t, s.held t = []
  step := BufStep disks

end Rdix
