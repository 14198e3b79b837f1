/-
  The scheduler and the life of a task (kernel/task.c): `task_bucket`, the lists of nodes and
  `running_task`.

  A slot of `task_bucket` stands for the node it points to, with its TCB.  Interrupts are off in
  each of these functions, so each is one step up to where it blocks: a `sys_waitpid` goes on when
  its task has been scheduled again, and so does a `sys_exit` whose `iput` waits for a buffer or
  for the disk.

  * `Linked`: the lists and the nodes' containers agree;
  * `Listed`: a task that does not run is in the list of its state;
  * `SchedInv`: the invariant of every run, in which only the first task that was dispatched is
    an exception.
-/
import Rdix.Kernel.List
import Rdix.Kernel.Process

namespace Rdix.Sched

open Function Transition

/-! ## Tasks -/

/-- `task_state_t`. -/
inductive TaskState where
  | running
  | ready
  | blocked
  | sleeping
  | waiting
  | died
deriving DecidableEq

/-- The lists of nodes; `other` are those of mutexes, ports, buffers and the keyboard. -/
inductive ListId where
  | block
  | sleep
  | ready
  | died
  | other (list : ℕ)
deriving DecidableEq

/-- A `TCB_t` with its node.  `child` is the variable of that name of a `sys_waitpid` that has
    blocked, `exited` what the task gave as its status when it exited, and `exiting` says that it is
    inside a `sys_exit` that has blocked. -/
structure Tcb where
  state : TaskState
  status : ℤ
  pid : Pid
  ppid : Pid
  waitpid : ℤ
  container : Option ListId
  value : ℕ
  child : Option Pid
  exited : Option ℤ
  exiting : Bool := false
deriving DecidableEq

/-- `dispatches` counts the switches to another task. -/
structure State where
  task_bucket : Pid → Option Tcb
  lists : ListId → List Pid
  running_task : Option Pid
  jiffies : ℕ
  dispatches : ℕ

namespace State
variable (s : State)

def put (p : Pid) (t : Tcb) : State := { s with task_bucket := update s.task_bucket p (some t) }

/-- The node of `p` in no list, after it was in `l`. -/
def unlink (p : Pid) (t : Tcb) (l : ListId) : State :=
  { s.put p { t with container := none } with lists := update s.lists l ((s.lists l).erase p) }

/-- The node of `p` in the list `l`, whose nodes are now `ps`. -/
def link (p : Pid) (t : Tcb) (l : ListId) (ps : List Pid) : State :=
  { s.put p { t with container := some l } with lists := update s.lists l ps }

end State

/-- `(TCB_t *)node->owner`. -/
def owner (s : State) (p : Pid) : C Tcb := deref "owner" (s.task_bucket p)

/-- The `list` of `remove_node`. -/
def containerOf : Option ListId → C ListId
  | some l => .ok l
  | none => .error (.assert "list != NULL")

/-! ## Lists of nodes -/

def removeNode (s : State) (p : Pid) : C State := do
  let t ← owner s p
  let l ← containerOf t.container
  return s.unlink p t l

def listPush (s : State) (l : ListId) (p : Pid) : C State := do
  let t ← owner s p
  cassert (t.container = none) "node->container == NULL"
  return s.link p t l (p :: s.lists l)

/-- `node->value`. -/
def valueOf (s : State) (p : Pid) : ℕ := (s.task_bucket p).elim 0 Tcb.value

/-- `list_insert(list, node, greater)`; a node in front of another is not checked. -/
def listInsertNode (s : State) (l : ListId) (p : Pid) : C State := do
  let t ← owner s p
  cassert (t.container = none ∨ ∃ q ∈ s.lists l, greater (valueOf s q) (valueOf s p))
    "node->container == NULL"
  return s.link p t l (listInsert (valueOf s) greater p (s.lists l))

/-! ## Scheduling -/

/-- `schedule` from the popped node on. -/
def switchTo (s : State) (next : Pid) : Option Pid → C State
  -- the first dispatch does not set the state of `next`
  | none => return { s with running_task := some next, dispatches := s.dispatches + 1 }
  | some running_task => do
    let next_tcb ← owner s next
    let s := s.put next { next_tcb with state := .running }
    let current_tcb ← owner s running_task
    let s ← if current_tcb.container = none then
        listPush (s.put running_task { current_tcb with state := .ready }) .ready running_task
      else pure s
    return { s with running_task := some next, dispatches := s.dispatches + 1 }

def schedule (s : State) : C State :=
  match (s.lists .ready).getLast? with
  | none => do
    cassert (s.running_task.isSome) "running_task != NULL"
    let running_task ← deref "running_task" s.running_task
    let t ← owner s running_task
    cassert (t.state = .running) "((TCB_t *)running_task->owner)->state == TASK_RUNNING"
    return s
  | some next => do
    let s ← removeNode s next
    switchTo s next s.running_task

def block (s : State) (list : Option ListId) (task : Option Pid) (task_state : TaskState) :
    C State := do
  let task ← deref "task" (task <|> s.running_task)
  let t ← owner s task
  let s := s.put task { t with state := task_state }
  let s ← if t.container.isSome then removeNode s task else pure s
  let s ← listPush s (list.getD .block) task
  schedule s

/-- `unblock` of a task; without one it takes a node out of `block_list` twice, which fails. -/
def unblock (s : State) (task : Pid) : C State := do
  let s ← removeNode s task
  let s ← listPush s .ready task
  let t ← owner s task
  return s.put task { t with state := .ready }

/-- `JIFFY`. -/
abbrev jiffy : ℕ := 10

def taskSleep (s : State) (time : ℕ) : C State := do
  let current ← deref "running_task" s.running_task
  let t ← owner s current
  let ticks := time / jiffy + if time % jiffy ≠ 0 then 1 else 0
  let s := s.put current { t with value := u32 (s.jiffies + ticks), state := .sleeping }
  let s ← listInsertNode s .sleep current
  schedule s

def weakup (s : State) : C State :=
  match (s.lists .sleep).head? with
  | none => return s
  | some iter => do
    let t ← owner s iter
    if t.value ≤ s.jiffies then
      let s ← removeNode s iter
      let t ← owner s iter
      listPush (s.put iter { t with state := .ready }) .ready iter
    else return s

/-! ## Tasks that come and go -/

/-- `get_task`: the slot, and who its parent is. -/
def getTask (s : State) : C (Pid × Pid) :=
  match (List.finRange taskNum).find? fun pid => (s.task_bucket pid).isNone with
  | none => throw (.panic "no more task\n")
  | some pid => do
    let parent := s.running_task.bind s.task_bucket
    return (pid, parent.elim 0 Tcb.pid)

def taskCreate (s : State) (priority : ℕ) : C State := do
  let (pid, ppid) ← getTask s
  let s := s.put pid { state := .ready, status := 0, pid, ppid, waitpid := 0, container := none
                       value := priority, child := none, exited := none }
  listPush s .ready pid

/-- What `sys_exit` has given back is `NULL` in the TCB. -/
def kept (access : String) (t : Tcb) : C Unit :=
  if t.exited = none then return () else throw (.null access)

def sysFork (s : State) : C State := do
  let running_task ← deref "running_task" s.running_task
  let task ← owner s running_task
  let (pid, ppid) ← getTask s
  kept "task->pwd" task
  let s := s.put pid { task with pid, ppid, state := .ready, container := none, value := 0
                                 child := none, exited := none, exiting := false }
  listPush s .ready pid

/-- The turn of the loop for one child. -/
def adopt (task child : Tcb) : Tcb :=
  if child.ppid = task.pid then { child with ppid := task.ppid } else child

/-- The children of the task get its own parent. -/
def reparent (s : State) (task : Tcb) : State :=
  { s with task_bucket := fun i => (s.task_bucket i).map (adopt task) }

/-- The parent is woken if it waits for the task. -/
def wakeParent (s : State) (task : Tcb) : C State := do
  let parent ← deref "task_bucket[task->ppid]" (s.task_bucket task.ppid)
  if parent.state = .waiting ∧ (parent.waitpid = -1 ∨ parent.waitpid = (task.pid : ℕ)) then
    unblock s task.ppid
  else return s

/-- `sys_exit` up to the `iput`s, which may block; the space, the directories and the path that it
    gives back are not modelled. -/
def exitBegin (s : State) (status : ℤ) : C State := do
  let running_task ← deref "running_task" s.running_task
  let s ← listPush s .died running_task
  let task ← owner s running_task
  kept "task->vmap" task
  return s.put running_task
    { task with state := .died, status, exited := some status, exiting := true }

/-- `sys_exit` from there on. -/
def exitRest (s : State) : C State := do
  let running_task ← deref "running_task" s.running_task
  let task ← owner s running_task
  let s := s.put running_task { task with exiting := false }
  let s := reparent s task
  let s ← wakeParent s task
  schedule s

/-- A `sys_exit` whose `iput`s do not block. -/
def sysExit (s : State) (status : ℤ) : C State := do
  let s ← exitBegin s status
  exitRest s

def kernelThreadExit (s : State) (th : Option Pid) (status : ℕ) : C State := do
  let th ← deref "th" (th <|> s.running_task)
  let task ← owner s th
  let s := s.put th { task with status := i32 status, exited := some (i32 status) }
  let s := reparent s task
  let s ← if s.running_task = some th then pure s else removeNode s th
  let s ← listPush s .died th
  let t ← owner s th
  let s := s.put th { t with state := .died }
  let s ← wakeParent s task
  if s.running_task = some th then schedule s else return s

/-- The loop of `sys_waitpid` stops at the first task that matches. -/
def findChild (s : State) (task : Tcb) (pid : ℤ) : Option Pid :=
  (List.finRange taskNum).find? fun i => (s.task_bucket i).any fun child =>
    child.ppid = task.pid ∧ (pid = (child.pid : ℕ) ∨ pid = -1)

/-- `freeTask`: the returned pid and status. -/
def freeTask (s : State) (child_node : Pid) : C (State × Pid × ℤ) := do
  let child ← owner s child_node
  let s ← removeNode s child_node
  return ({ s with task_bucket := update s.task_bucket child.pid none }, child.pid, child.status)

/-- How a `sys_waitpid` goes on. -/
inductive WaitRes where
  | failed
  | blocked
  | reaped (pid : Pid) (status : ℤ)
deriving DecidableEq

def sysWaitpid (s : State) (pid : ℤ) : C (State × WaitRes) := do
  let running_task ← deref "running_task" s.running_task
  let task ← owner s running_task
  match findChild s task pid with
  | none => return (s, .failed)
  | some child_node => do
    let child ← owner s child_node
    if child.state = .died then
      let (s, r) ← freeTask s child_node
      return (s, .reaped r.1 r.2)
    else
      let s := s.put running_task { task with waitpid := pid, child := some child_node }
      let s ← block s (some .block) none .waiting
      return (s, .blocked)

/-- The rest of a `sys_waitpid` that has blocked. -/
def resumeWait (s : State) : C (State × Pid × ℤ) := do
  let running_task ← deref "running_task" s.running_task
  let task ← owner s running_task
  let child_node ← deref "child" task.child
  freeTask (s.put running_task { task with child := none }) child_node

/-! ## A `sys_exit` that blocks -/

/-- Its `iput` waits for a buffer or for the device: the task leaves `died_list`. -/
def exitBlock (s : State) (status : ℤ) (list : Option ListId) (task_state : TaskState) : C State := do
  let s ← exitBegin s status
  block s list none task_state

/-- Its `iput` waits for the disk, in the `sys_waitpid` of `sata_sending_wait` for a new timer. -/
def exitWait (s : State) (status : ℤ) (priority : ℕ) : C (State × WaitRes) := do
  let s ← exitBegin s status
  let (pid, _) ← getTask s
  let s ← taskCreate s priority
  sysWaitpid s (pid : ℕ)

/-! ## Runs -/

/-- `task_init`. -/
def taskInit : C State := do
  let s ← taskCreate { task_bucket := fun _ => none, lists := fun _ => [], running_task := none
                       jiffies := 0, dispatches := 0 } 1
  let s ← taskCreate s 3
  taskCreate s 3

inductive Op where
  | schedule
  /-- the clock, up to the time slice -/
  | clock
  | block (list : Option ListId) (task : Option Pid) (task_state : TaskState)
  | unblock (task : Pid)
  | sleep (time : ℕ)
  | create (priority : ℕ)
  | fork
  | exit (status : ℤ)
  /-- a `sys_exit` that blocks, in a list or for the disk -/
  | exitBlock (status : ℤ) (list : Option ListId) (task_state : TaskState)
  | exitWait (status : ℤ) (priority : ℕ)
  /-- the rest of a `sys_exit` that has blocked -/
  | exitEnd
  | threadExit (th : Option Pid) (status : ℕ)
  | waitpid (pid : ℤ) (r : WaitRes)
  | resume (pid : Pid) (status : ℤ)

/-- The running task is not inside a `sys_waitpid`, which goes on before anything else happens. -/
def Idle (s : State) : Prop :=
  ∀ r t, s.running_task = some r → s.task_bucket r = some t → t.child = none

/-- Nor is it inside a `sys_exit`, which only blocks, wakes others and waits for the disk. -/
def Free (s : State) : Prop :=
  ∀ r t, s.running_task = some r → s.task_bucket r = some t → t.child = none ∧ t.exiting = false

theorem Free.idle {s : State} (h : Free s) : Idle s := fun r t hr ht => (h r t hr ht).1

/-- The running task is inside a `sys_exit`. -/
def Exiting (s : State) : Prop :=
  ∃ r t, s.running_task = some r ∧ s.task_bucket r = some t ∧ t.exiting = true

theorem free_of {s : State} {r : Pid} {t : Tcb} (hr : s.running_task = some r)
    (ht : s.task_bucket r = some t) (hc : t.child = none) (he : t.exiting = false := by rfl) :
    Free s := by
  intro r' t' hr' ht'
  rw [hr] at hr'
  cases hr'
  rw [ht] at ht'
  cases ht'
  exact ⟨hc, he⟩

instance (s : State) : Decidable (Free s) :=
  decidable_of_iff (∀ t ∈ s.running_task.bind s.task_bucket, t.child = none ∧ t.exiting = false) <| by
    constructor
    · exact fun h r t hr ht => h t (Option.bind_eq_some_iff.2 ⟨r, hr, ht⟩)
    · rintro h t ht
      obtain ⟨r, hr, ht⟩ := Option.bind_eq_some_iff.1 ht
      exact h r t hr ht

/-- A task that something other than an exit may block or wake. -/
def Plain (s : State) (p : Pid) : Prop :=
  ∀ t, s.task_bucket p = some t → t.state ≠ .died ∧ t.child = none

inductive Step (s : State) : Op → State → Prop where
  | schedule {s'} : Free s → schedule s = .ok s' → Step s .schedule s'
  | clock {s'} : Free s → weakup { s with jiffies := u32 (s.jiffies + 1) } = .ok s' →
      Step s .clock s'
  | block {list task st s'} : Idle s → list ≠ some .ready → list ≠ some .sleep →
      list ≠ some .died → st = .blocked ∨ st = .waiting → (∀ p, task = some p → Plain s p) →
      block s list task st = .ok s' → Step s (.block list task st) s'
  | unblock {p s'} : Idle s → Plain s p → unblock s p = .ok s' → Step s (.unblock p) s'
  | sleep {time s'} : Free s → taskSleep s time = .ok s' → Step s (.sleep time) s'
  | create {priority s'} : Idle s → taskCreate s priority = .ok s' → Step s (.create priority) s'
  | fork {s'} : Free s → sysFork s = .ok s' → Step s .fork s'
  | exit {status s'} : Free s → sysExit s status = .ok s' → Step s (.exit status) s'
  | exitBlock {status list st s'} : Free s → list ≠ some .ready → list ≠ some .sleep →
      list ≠ some .died → st = .blocked ∨ st = .waiting → exitBlock s status list st = .ok s' →
      Step s (.exitBlock status list st) s'
  | exitWait {status priority s' r} : Free s → exitWait s status priority = .ok (s', r) →
      Step s (.exitWait status priority) s'
  | exitEnd {s'} : Idle s → Exiting s → exitRest s = .ok s' → Step s .exitEnd s'
  | threadExit {th status s'} : Free s → kernelThreadExit s th status = .ok s' →
      Step s (.threadExit th status) s'
  | waitpid {pid s' r} : Idle s → sysWaitpid s pid = .ok (s', r) → Step s (.waitpid pid r) s'
  | resume {s' pid status} : resumeWait s = .ok (s', pid, status) → Step s (.resume pid status) s'

def schedSys : Sys State Op where
  init s := taskInit = .ok s
  step := Step

/-! ## Lists and containers -/

namespace State
variable (s : State)

/-- The list a node is in. -/
def listOf (p : Pid) : Option ListId := (s.task_bucket p).bind Tcb.container

/-- A node is in a list, once, just when that is its container. -/
structure Linked : Prop where
  mem : ∀ l p, p ∈ s.lists l ↔ s.listOf p = some l
  nodup : ∀ l, (s.lists l).Nodup

end State

section Linked
variable {s s' : State} {p : Pid} {t : Tcb} {l : ListId}

theorem State.listOf_of (h : s.task_bucket p = some t) : s.listOf p = t.container := by
  rw [State.listOf, h]
  rfl

theorem State.listOf_update (hb : s'.task_bucket = update s.task_bucket p (some t)) (q : Pid) :
    s'.listOf q = if q = p then t.container else s.listOf q := by
  rw [State.listOf, hb]
  by_cases hq : q = p
  · rw [hq, update_self, if_pos rfl]
    rfl
  · rw [update_of_ne hq, if_neg hq, State.listOf]

/-- The containers decide; a change of another field keeps them. -/
theorem State.Linked.congr (h : s.Linked) (hl : s'.lists = s.lists)
    (hc : ∀ q, s'.listOf q = s.listOf q) : s'.Linked :=
  ⟨fun l q => by rw [hl, hc, h.mem], fun l => by rw [hl]; exact h.nodup l⟩

theorem State.Linked.put (h : s.Linked) (hc : t.container = s.listOf p) : (s.put p t).Linked := by
  refine h.congr rfl fun q => ?_
  rw [State.listOf_update (s := s) (t := t) rfl q]
  by_cases hq : q = p
  · rw [if_pos hq, hq, hc]
  · rw [if_neg hq]

theorem State.Linked.unlink (h : s.Linked) (hl : s.listOf p = some l) : (s.unlink p t l).Linked := by
  have hof (q : Pid) : (s.unlink p t l).listOf q = if q = p then none else s.listOf q :=
    State.listOf_update (t := { t with container := none }) (s := s) rfl q
  refine ⟨fun m q => ?_, fun m => ?_⟩
  · rw [hof]
    show q ∈ update s.lists l ((s.lists l).erase p) m ↔ _
    by_cases hm : m = l
    · subst hm
      rw [update_self, (h.nodup m).mem_erase_iff, h.mem]
      by_cases hq : q = p <;> simp [hq]
    · rw [update_of_ne hm, h.mem]
      by_cases hq : q = p
      · rw [if_pos hq, hq, hl]
        simp [Ne.symm hm]
      · rw [if_neg hq]
  · show (update s.lists l ((s.lists l).erase p) m).Nodup
    by_cases hm : m = l
    · subst hm
      rw [update_self]
      exact (h.nodup m).erase p
    · rw [update_of_ne hm]
      exact h.nodup m

theorem State.Linked.link (h : s.Linked) (hl : s.listOf p = none) {ps : List Pid}
    (hps : ps.Perm (p :: s.lists l)) : (s.link p t l ps).Linked := by
  have hof (q : Pid) : (s.link p t l ps).listOf q = if q = p then some l else s.listOf q :=
    State.listOf_update (t := { t with container := some l }) (s := s) rfl q
  have hp (m : ListId) : p ∉ s.lists m := fun hmem => by
    rw [h.mem, hl] at hmem
    cases hmem
  refine ⟨fun m q => ?_, fun m => ?_⟩
  · rw [hof]
    show q ∈ update s.lists l ps m ↔ _
    by_cases hm : m = l
    · subst hm
      rw [update_self, hps.mem_iff, List.mem_cons, h.mem]
      by_cases hq : q = p <;> simp [hq]
    · rw [update_of_ne hm, h.mem]
      by_cases hq : q = p
      · rw [if_pos hq, hq, hl]
        simp [Ne.symm hm]
      · rw [if_neg hq]
  · show (update s.lists l ps m).Nodup
    by_cases hm : m = l
    · subst hm
      rw [update_self, hps.nodup_iff]
      exact (h.nodup m).cons (hp m)
    · rw [update_of_ne hm]
      exact h.nodup m

end Linked

/-! ## One task moves -/

/-- `s'` is `s` with another TCB in slot `p`, and with the lists to match; the other nodes keep
    their order. -/
structure Moved (s s' : State) (p : Pid) (t : Tcb) : Prop where
  bucket : s'.task_bucket = update s.task_bucket p (some t)
  running : s'.running_task = s.running_task
  dispatches : s'.dispatches = s.dispatches
  linked : s.Linked → s'.Linked
  order : s.Linked → ∀ l, (s'.lists l).erase p = (s.lists l).erase p

section Moved
variable {s s' s'' : State} {p : Pid} {t t' : Tcb} {l : ListId}

theorem owner_eq_ok : owner s p = .ok t ↔ s.task_bucket p = some t := by
  unfold owner
  cases s.task_bucket p <;> simp

theorem Moved.trans (h : Moved s s' p t) (h' : Moved s' s'' p t') : Moved s s'' p t' where
  bucket := by rw [h'.bucket, h.bucket, update_idem]
  running := h'.running.trans h.running
  dispatches := h'.dispatches.trans h.dispatches
  linked hl := h'.linked (h.linked hl)
  order hl l := (h'.order (h.linked hl) l).trans (h.order hl l)

theorem Moved.at (h : Moved s s' p t) : s'.task_bucket p = some t := by
  rw [h.bucket, update_self]

theorem Moved.of_ne (h : Moved s s' p t) {q : Pid} (hq : q ≠ p) :
    s'.task_bucket q = s.task_bucket q := by
  rw [h.bucket, update_of_ne hq]

/-- The fields of a TCB that are not its container. -/
theorem moved_put {u : Tcb} (ht : s.task_bucket p = some t) (hc : u.container = t.container) :
    Moved s (s.put p u) p u :=
  ⟨rfl, rfl, rfl, fun h => h.put (by rw [hc, State.listOf_of ht]), fun _ _ => rfl⟩

/-- **`remove_node` takes a node out of the list it is in.** -/
theorem removeNode_ok (h : removeNode s p = .ok s') : ∃ t l, s.task_bucket p = some t ∧
    t.container = some l ∧ s' = s.unlink p t l ∧ Moved s s' p { t with container := none } := by
  obtain ⟨t, ht, h⟩ := bind_eq_ok.1 h
  obtain ⟨l, hl, h⟩ := bind_eq_ok.1 h
  rw [owner_eq_ok] at ht
  have hc : t.container = some l := by
    cases hc : t.container with
    | none =>
      rw [hc] at hl
      cases hl
    | some m =>
      rw [hc] at hl
      exact congrArg some (Except.ok.inj hl)
  cases h
  refine ⟨t, l, ht, hc, rfl, rfl, rfl, rfl, fun h => h.unlink (by rw [State.listOf_of ht, hc]),
    fun h m => ?_⟩
  show (update s.lists l ((s.lists l).erase p) m).erase p = _
  by_cases hm : m = l
  · rw [hm, update_self, List.erase_of_not_mem (h.nodup l).not_mem_erase]
  · rw [update_of_ne hm]

theorem moved_link (ht : s.task_bucket p = some t) (hc : t.container = none) {ps : List Pid}
    (hps : ps.Perm (p :: s.lists l)) (hrest : p ∉ s.lists l → ps.erase p = s.lists l) :
    Moved s (s.link p t l ps) p { t with container := some l } := by
  refine ⟨rfl, rfl, rfl, fun h => h.link (by rw [State.listOf_of ht, hc]) hps, fun h m => ?_⟩
  show (update s.lists l ps m).erase p = _
  by_cases hm : m = l
  · have hp : p ∉ s.lists l := by
      rw [h.mem, State.listOf_of ht, hc]
      simp
    rw [hm, update_self, hrest hp, List.erase_of_not_mem hp]
  · rw [update_of_ne hm]

/-- **`list_push` puts a node that is in no list into one.** -/
theorem listPush_ok (h : listPush s l p = .ok s') : ∃ t, s.task_bucket p = some t ∧
    t.container = none ∧ s' = s.link p t l (p :: s.lists l) ∧
    Moved s s' p { t with container := some l } := by
  obtain ⟨t, ht, h⟩ := bind_eq_ok.1 h
  rw [owner_eq_ok] at ht
  obtain ⟨hc, h⟩ := cassert_bind_eq_ok.1 h
  cases h
  exact ⟨t, ht, hc, rfl, moved_link ht hc (.refl _) fun _ => List.erase_cons_head ..⟩

theorem listInsertNode_ok (h : listInsertNode s l p = .ok s') (ht : s.task_bucket p = some t)
    (hc : t.container = none) : Moved s s' p { t with container := some l } := by
  obtain ⟨t₀, ht₀, h⟩ := bind_eq_ok.1 h
  rw [owner_eq_ok, ht] at ht₀
  cases ht₀
  obtain ⟨-, h⟩ := cassert_bind_eq_ok.1 h
  cases h
  exact moved_link ht hc (listInsert_perm _ _ _ _) (listInsert_erase _ _ _)

/-- **`unblock` makes a task ready**, wherever it was. -/
theorem unblock_ok (h : unblock s p = .ok s') : ∃ t l, s.task_bucket p = some t ∧
    t.container = some l ∧ Moved s s' p { t with container := some .ready, state := .ready } := by
  obtain ⟨s₁, h₁, h⟩ := bind_eq_ok.1 h
  obtain ⟨s₂, h₂, h⟩ := bind_eq_ok.1 h
  obtain ⟨t, l, ht, hc, -, m₁⟩ := removeNode_ok h₁
  obtain ⟨t₁, ht₁, -, -, m₂⟩ := listPush_ok h₂
  rw [m₁.at] at ht₁
  cases ht₁
  obtain ⟨t₂, ht₂, h⟩ := bind_eq_ok.1 h
  rw [owner_eq_ok, m₂.at] at ht₂
  cases ht₂
  cases h
  exact ⟨t, l, ht, hc, (m₁.trans m₂).trans (moved_put m₂.at rfl)⟩

end Moved

/-! ## `schedule` -/

/-- The states that go with a list. -/
def ListId.Fits : ListId → TaskState → Prop
  | .ready, st => st = .ready
  | .sleep, st => st = .sleeping
  | .died, st => st = .died
  | .block, st => st = .blocked ∨ st = .waiting
  | .other _, st => st = .blocked ∨ st = .waiting

/-- The task is in a list that goes with its state. -/
def Tcb.Listed (t : Tcb) : Prop := ∃ l, t.container = some l ∧ l.Fits t.state

theorem ListId.Fits.ne_running {l : ListId} {st : TaskState} (h : l.Fits st) : st ≠ .running := by
  rintro rfl
  cases l <;> simp [ListId.Fits] at h

theorem Tcb.Listed.ready {t : Tcb} (h : t.Listed) (hc : t.container = some .ready) :
    t.state = .ready := by
  obtain ⟨l, hl, hf⟩ := h
  rw [hc] at hl
  cases hl
  exact hf

/-- The state of the running task: the first one that was dispatched has stayed ready. -/
def State.slice (s : State) : TaskState := if s.dispatches = 1 then .ready else .running

/-- What holds when `schedule` is called; the running task may have been put into a list. -/
structure Midway (s : State) : Prop where
  linked : s.Linked
  pid : ∀ p t, s.task_bucket p = some t → t.pid = p
  listed : ∀ p t, s.task_bucket p = some t → s.running_task ≠ some p → t.Listed
  running : ∀ r, s.running_task = some r → ∃ t, s.task_bucket r = some t ∧
    (t.container = none ∧ t.state = s.slice ∨ t.Listed ∧ t.container ≠ some .ready)
  first : s.running_task = none ↔ s.dispatches = 0

/-- The invariant of the scheduler: the running task is in no list. -/
structure SchedInv (s : State) : Prop extends Midway s where
  off : ∀ r t, s.running_task = some r → s.task_bucket r = some t → t.container = none

/-- The TCB of the task that leaves the processor. -/
def Tcb.parked (t : Tcb) : Tcb :=
  if t.container = none then { t with state := .ready, container := some .ready } else t

theorem Tcb.parked_pid (t : Tcb) : t.parked.pid = t.pid := by
  unfold Tcb.parked
  split_ifs <;> rfl

/-- What `schedule` can do: go on with the running task, dispatch the first, or switch. -/
inductive Switch (s s' : State) : Prop where
  | same : s' = s → SchedInv s → Switch s s'
  | first (next : Pid) (n : Tcb) : s.task_bucket next = some n → n.container = some .ready →
      n.state = .ready → s.running_task = none →
      s'.task_bucket = update s.task_bucket next (some { n with container := none }) →
      s'.running_task = some next → s'.dispatches = s.dispatches + 1 → s'.Linked → Switch s s'
  | switch (next r : Pid) (n c : Tcb) : s.task_bucket next = some n →
      n.container = some .ready → n.state = .ready → s.running_task = some r →
      s.task_bucket r = some c → next ≠ r →
      s'.task_bucket = update (update s.task_bucket next
        (some { n with container := none, state := .running })) r (some c.parked) →
      s'.running_task = some next → s'.dispatches = s.dispatches + 1 → s'.Linked → Switch s s'

section Schedule
variable {s s' : State}

theorem schedule_cases (h : Midway s) (hs : schedule s = .ok s') : Switch s s' := by
  cases hlast : (s.lists .ready).getLast? with
  | none =>
    simp only [schedule, hlast] at hs
    obtain ⟨-, hs⟩ := cassert_bind_eq_ok.1 hs
    obtain ⟨r, hr, hs⟩ := bind_eq_ok.1 hs
    obtain ⟨t, ht, hs⟩ := bind_eq_ok.1 hs
    obtain ⟨hst, hs⟩ := cassert_bind_eq_ok.1 hs
    cases hs
    have hr' : s.running_task = some r := by
      cases hrun : s.running_task with
      | none =>
        rw [hrun] at hr
        cases hr
      | some q =>
        rw [hrun] at hr
        exact congrArg some (Except.ok.inj hr)
    rw [owner_eq_ok] at ht
    refine .same rfl ⟨h, fun q u hq hu => ?_⟩
    obtain rfl : r = q := Option.some.inj (hr'.symm.trans hq)
    obtain ⟨u', hu', hcase⟩ := h.running r hq
    rw [ht] at hu hu'
    cases hu
    cases hu'
    rcases hcase with ⟨hc, -⟩ | ⟨⟨l, -, hf⟩, -⟩
    · exact hc
    · exact absurd hst hf.ne_running
  | some next =>
    simp only [schedule, hlast] at hs
    obtain ⟨s₁, h₁, hs⟩ := bind_eq_ok.1 hs
    obtain ⟨n, l, hn, hl, rfl, m₁⟩ := removeNode_ok h₁
    have hmem : next ∈ s.lists .ready := List.mem_of_getLast? hlast
    have hready : n.container = some .ready := by
      rw [← State.listOf_of hn]
      exact (h.linked.mem _ _).1 hmem
    have hne : s.running_task ≠ some next := by
      intro hrun
      obtain ⟨t, ht, hcase⟩ := h.running next hrun
      rw [hn] at ht
      cases ht
      rcases hcase with ⟨hc, -⟩ | ⟨-, hc⟩
      · rw [hready] at hc
        cases hc
      · exact hc hready
    have hstate : n.state = .ready := (h.listed next n hn hne).ready hready
    have hlinked := m₁.linked h.linked
    cases hrun : s.running_task with
    | none =>
      rw [m₁.running, hrun] at hs
      cases hs
      exact .first next n hn hready hstate hrun m₁.bucket rfl rfl
        (hlinked.congr rfl fun _ => rfl)
    | some r =>
      rw [m₁.running, hrun] at hs
      have hnr : next ≠ r := fun he => hne (by rw [hrun, he])
      obtain ⟨n₁, hn₁, hs⟩ := bind_eq_ok.1 hs
      rw [owner_eq_ok, m₁.at] at hn₁
      cases hn₁
      have m₂ := m₁.trans (moved_put (u := { n with container := none, state := .running })
        m₁.at rfl)
      obtain ⟨c, hc, hs⟩ := bind_eq_ok.1 hs
      rw [owner_eq_ok] at hc
      have hc' := hc
      rw [m₂.of_ne hnr.symm] at hc'
      by_cases hoff : c.container = none
      · rw [if_pos hoff] at hs
        obtain ⟨s₃, h₃, hs⟩ := bind_eq_ok.1 hs
        have m₃ := moved_put (u := { c with state := .ready }) hc rfl
        obtain ⟨c₁, hc₁, -, -, m₄⟩ := listPush_ok h₃
        rw [m₃.at] at hc₁
        cases hc₁
        have m₅ := m₃.trans m₄
        cases hs
        refine .switch next r n c hn hready hstate hrun hc' hnr ?_ rfl ?_
          ((m₅.linked (m₂.linked h.linked)).congr rfl fun _ => rfl)
        · rw [Tcb.parked, if_pos hoff, ← m₂.bucket]
          exact m₅.bucket
        · show s₃.dispatches + 1 = s.dispatches + 1
          rw [m₅.dispatches, m₂.dispatches]
      · rw [if_neg hoff] at hs
        cases hs
        refine .switch next r n c hn hready hstate hrun hc' hnr ?_ rfl rfl
          ((m₂.linked h.linked).congr rfl fun _ => rfl)
        rw [Tcb.parked, if_neg hoff, ← m₂.bucket]
        exact (update_eq_self_iff.2 hc.symm).symm

/-- **`schedule` leads to a running task in no list**, whatever became of the last one. -/
theorem schedInv_schedule (h : Midway s) (hs : schedule s = .ok s') : SchedInv s' := by
  cases schedule_cases h hs with
  | same he hi => exact he ▸ hi
  | first next n hn hc hst hrun hb hr hd hl =>
    have hd0 : s'.dispatches = 1 := by rw [hd, h.first.1 hrun]
    refine ⟨⟨hl, fun p t ht => ?_, fun p t ht hp => ?_, fun r hr' => ?_, ?_⟩, fun r t hr' ht => ?_⟩
    · by_cases hp : p = next
      · subst hp
        rw [hb, update_self] at ht
        cases ht
        exact h.pid p n hn
      · rw [hb, update_of_ne hp] at ht
        exact h.pid p t ht
    · have hne : p ≠ next := fun he => hp (by rw [hr, he])
      rw [hb, update_of_ne hne] at ht
      exact h.listed p t ht (by simp [hrun])
    · obtain rfl : next = r := Option.some.inj (hr.symm.trans hr')
      refine ⟨_, by rw [hb, update_self], Or.inl ⟨rfl, ?_⟩⟩
      rw [State.slice, hd0]
      exact hst
    · simp [hr, hd0]
    · obtain rfl : next = r := Option.some.inj (hr.symm.trans hr')
      rw [hb, update_self] at ht
      cases ht
      rfl
  | switch next r n c hn hcn hst hrun hc hnr hb hr hd hl =>
    have hd0 : s.dispatches ≠ 0 := fun h0 => by
      rw [h.first.2 h0] at hrun
      cases hrun
    have hnext : s'.task_bucket next = some { n with container := none, state := .running } := by
      rw [hb, update_of_ne hnr, update_self]
    refine ⟨⟨hl, fun p t ht => ?_, fun p t ht hp => ?_, fun q hq => ?_, ?_⟩, fun q t hq ht => ?_⟩
    · by_cases hpr : p = r
      · subst hpr
        rw [hb, update_self] at ht
        cases ht
        exact c.parked_pid.trans (h.pid p c hc)
      · by_cases hp : p = next
        · subst hp
          rw [hnext] at ht
          cases ht
          exact h.pid p n hn
        · rw [hb, update_of_ne hpr, update_of_ne hp] at ht
          exact h.pid p t ht
    · have hne : p ≠ next := fun he => hp (by rw [hr, he])
      by_cases hpr : p = r
      · subst hpr
        rw [hb, update_self] at ht
        cases ht
        rw [Tcb.parked]
        split_ifs with hoff
        · exact ⟨.ready, rfl, rfl⟩
        · obtain ⟨c', hc', hcase⟩ := h.running p hrun
          rw [hc] at hc'
          cases hc'
          rcases hcase with ⟨hc', -⟩ | ⟨hc', -⟩
          · exact absurd hc' hoff
          · exact hc'
      · rw [hb, update_of_ne hpr, update_of_ne hne] at ht
        refine h.listed p t ht fun he => hpr ?_
        exact (Option.some.inj (hrun.symm.trans he)).symm
    · obtain rfl : next = q := Option.some.inj (hr.symm.trans hq)
      refine ⟨_, hnext, Or.inl ⟨rfl, ?_⟩⟩
      rw [State.slice, hd, if_neg (by omega)]
    · simp [hr, hd]
    · obtain rfl : next = q := Option.some.inj (hr.symm.trans hq)
      rw [hnext] at ht
      cases ht
      rfl

end Schedule

/-! ## The other operations -/

section Operations
variable {s s' s₁ : State} {p : Pid} {t t' : Tcb}

theorem SchedInv.occupied (h : SchedInv s) {r : Pid} (hr : s.running_task = some r) :
    ∃ t, s.task_bucket r = some t ∧ t.container = none ∧ t.state = s.slice := by
  obtain ⟨t, ht, hcase⟩ := h.running r hr
  have hoff := h.off r t hr ht
  rcases hcase with ⟨hc, hst⟩ | ⟨⟨l, hl, -⟩, -⟩
  · exact ⟨t, ht, hc, hst⟩
  · rw [hoff] at hl
    cases hl

/-- A task in a list does not run. -/
theorem SchedInv.ne_running (h : SchedInv s) (ht : s.task_bucket p = some t)
    (hc : t.container.isSome) : s.running_task ≠ some p := by
  intro hr
  rw [h.off p t hr ht] at hc
  cases hc

/-- A task that does not run moves to the list of its new state. -/
theorem Midway.moved_other (h : Midway s) (m : Moved s s' p t) (hp : s.running_task ≠ some p)
    (hpid : t.pid = p) (ht : t.Listed) : Midway s' := by
  refine ⟨m.linked h.linked, fun q u hu => ?_, fun q u hu hq => ?_, fun r hr => ?_, ?_⟩
  · by_cases hqp : q = p
    · subst hqp
      rw [m.at] at hu
      cases hu
      exact hpid
    · rw [m.of_ne hqp] at hu
      exact h.pid q u hu
  · by_cases hqp : q = p
    · subst hqp
      rw [m.at] at hu
      cases hu
      exact ht
    · rw [m.of_ne hqp] at hu
      exact h.listed q u hu (by rw [← m.running]; exact hq)
  · rw [m.running] at hr
    have hrp : r ≠ p := fun he => hp (by rw [hr, he])
    obtain ⟨u, hu, hcase⟩ := h.running r hr
    exact ⟨u, by rw [m.of_ne hrp]; exact hu, by rw [State.slice, m.dispatches]; exact hcase⟩
  · rw [m.running, m.dispatches]
    exact h.first

theorem SchedInv.moved_other (h : SchedInv s) (m : Moved s s' p t) (hp : s.running_task ≠ some p)
    (hpid : t.pid = p) (ht : t.Listed) : SchedInv s' := by
  refine ⟨h.toMidway.moved_other m hp hpid ht, fun r u hr hu => ?_⟩
  rw [m.running] at hr
  have hrp : r ≠ p := fun he => hp (by rw [hr, he])
  rw [m.of_ne hrp] at hu
  exact h.off r u hr hu

/-- The running task goes into a list, and `schedule` is next. -/
theorem Midway.moved_running (h : Midway s) (m : Moved s s' p t) (hp : s.running_task = some p)
    (hpid : t.pid = p) (ht : t.Listed) (hc : t.container ≠ some .ready) : Midway s' := by
  refine ⟨m.linked h.linked, fun q u hu => ?_, fun q u hu hq => ?_, fun r hr => ?_, ?_⟩
  · by_cases hqp : q = p
    · subst hqp
      rw [m.at] at hu
      cases hu
      exact hpid
    · rw [m.of_ne hqp] at hu
      exact h.pid q u hu
  · have hqp : q ≠ p := fun he => hq (by rw [m.running, hp, he])
    rw [m.of_ne hqp] at hu
    exact h.listed q u hu (by rw [← m.running]; exact hq)
  · rw [m.running, hp] at hr
    cases hr
    exact ⟨t, m.at, Or.inr ⟨ht, hc⟩⟩
  · rw [m.running, m.dispatches]
    exact h.first

/-- The state and the list of each task are what counts. -/
def Tcb.place (t : Tcb) : Pid × Option ListId × TaskState := (t.pid, t.container, t.state)

theorem Midway.of_place (h : Midway s) (hl : s'.Linked) (hr : s'.running_task = s.running_task)
    (hd : s'.dispatches = s.dispatches)
    (hb : ∀ p, (s'.task_bucket p).map Tcb.place = (s.task_bucket p).map Tcb.place) : Midway s' := by
  have hback : ∀ p t', s'.task_bucket p = some t' → ∃ t, s.task_bucket p = some t ∧
      t.place = t'.place := by
    intro p t' ht'
    have := hb p
    rw [ht', Option.map_some] at this
    exact Option.map_eq_some_iff.1 this.symm
  refine ⟨hl, fun p t' ht' => ?_, fun p t' ht' hp => ?_, fun r hr' => ?_, ?_⟩
  · obtain ⟨t, ht, he⟩ := hback p t' ht'
    have := h.pid p t ht
    simp only [Tcb.place, Prod.mk.injEq] at he
    rw [← he.1, this]
  · obtain ⟨t, ht, he⟩ := hback p t' ht'
    simp only [Tcb.place, Prod.mk.injEq] at he
    rw [Tcb.Listed, ← he.2.1, ← he.2.2]
    exact h.listed p t ht (by rw [← hr]; exact hp)
  · rw [hr] at hr'
    obtain ⟨t, ht, hcase⟩ := h.running r hr'
    have hsome := hb r
    rw [ht, Option.map_some] at hsome
    obtain ⟨t', ht', he⟩ := Option.map_eq_some_iff.1 hsome
    simp only [Tcb.place, Prod.mk.injEq] at he
    refine ⟨t', ht', ?_⟩
    rw [Tcb.Listed, he.2.1, he.2.2, State.slice, hd]
    exact hcase
  · rw [hr, hd]
    exact h.first

/-- The lists agree with containers that have stayed. -/
theorem State.Linked.of_place (h : s.Linked) (hl : s'.lists = s.lists)
    (hb : ∀ p, (s'.task_bucket p).map Tcb.place = (s.task_bucket p).map Tcb.place) : s'.Linked := by
  refine h.congr hl fun q => ?_
  have := congrArg (Option.bind · fun x : Pid × Option ListId × TaskState => x.2.1) (hb q)
  rw [Option.bind_map, Option.bind_map] at this
  exact this

theorem Midway.congr (h : Midway s) (hl : s'.lists = s.lists) (hr : s'.running_task = s.running_task)
    (hd : s'.dispatches = s.dispatches)
    (hb : ∀ p, (s'.task_bucket p).map Tcb.place = (s.task_bucket p).map Tcb.place) : Midway s' :=
  h.of_place (h.linked.of_place hl hb) hr hd hb

theorem SchedInv.of_place (h : SchedInv s) (hl : s'.Linked)
    (hr : s'.running_task = s.running_task) (hd : s'.dispatches = s.dispatches)
    (hb : ∀ p, (s'.task_bucket p).map Tcb.place = (s.task_bucket p).map Tcb.place) :
    SchedInv s' := by
  refine ⟨h.toMidway.of_place hl hr hd hb, fun r t' hr' ht' => ?_⟩
  have hr₀ : s.running_task = some r := by rw [← hr, hr']
  obtain ⟨t, ht, hc, -⟩ := h.occupied hr₀
  have := hb r
  rw [ht', ht, Option.map_some, Option.map_some, Option.some.injEq] at this
  simp only [Tcb.place, Prod.mk.injEq] at this
  rw [this.2.1, hc]

theorem SchedInv.congr (h : SchedInv s) (hl : s'.lists = s.lists)
    (hr : s'.running_task = s.running_task) (hd : s'.dispatches = s.dispatches)
    (hb : ∀ p, (s'.task_bucket p).map Tcb.place = (s.task_bucket p).map Tcb.place) : SchedInv s' :=
  h.of_place (h.linked.of_place hl hb) hr hd hb

/-- A TCB whose state and list stay. -/
theorem place_put {u : Tcb} (ht : s.task_bucket p = some t) (hp : u.place = t.place) (q : Pid) :
    ((s.put p u).task_bucket q).map Tcb.place = (s.task_bucket q).map Tcb.place := by
  by_cases hq : q = p
  · subst hq
    rw [show (s.put q u).task_bucket q = some u from update_self .., ht, Option.map_some, hp]
    rfl
  · rw [show (s.put p u).task_bucket q = s.task_bucket q from update_of_ne hq ..]

theorem place_adopt (task u : Tcb) : (adopt task u).place = u.place := by
  unfold adopt
  split_ifs <;> rfl

/-! ### What each operation does to the TCBs -/

/-- What `block` and `kernel_thread_exit` are called for. -/
def blocking (s : State) (task : Option Pid) : Option Pid := task <|> s.running_task

theorem block_ok {list : Option ListId} {task : Option Pid} {st : TaskState}
    (h : block s list task st = .ok s') : ∃ p t s₁, blocking s task = some p ∧
      s.task_bucket p = some t ∧
      Moved s s₁ p { t with state := st, container := some (list.getD .block) } ∧
      schedule s₁ = .ok s' := by
  obtain ⟨p, hb, h⟩ := deref_bind_eq_ok h
  obtain ⟨t, ht, h⟩ := bind_eq_ok.1 h
  rw [owner_eq_ok] at ht
  have m₀ := moved_put (u := { t with state := st }) ht rfl
  obtain ⟨s₁, m₁, h⟩ : ∃ s₁, Moved s s₁ p { t with state := st, container := none } ∧
      listPush s₁ (list.getD .block) p >>= schedule = .ok s' := by
    dsimp only at h
    split_ifs at h with hc
    · obtain ⟨s₁, h₁, h⟩ := bind_eq_ok.1 h
      obtain ⟨t₁, l, ht₁, -, -, m⟩ := removeNode_ok h₁
      rw [m₀.at] at ht₁
      cases ht₁
      exact ⟨s₁, m₀.trans m, h⟩
    · have hn : t.container = none := by simpa using hc
      refine ⟨_, ?_, h⟩
      rw [← hn]
      exact m₀
  obtain ⟨s₂, h₂, h⟩ := bind_eq_ok.1 h
  obtain ⟨t₂, ht₂, -, -, m₂⟩ := listPush_ok h₂
  rw [m₁.at] at ht₂
  cases ht₂
  exact ⟨p, t, s₂, hb, ht, m₁.trans m₂, h⟩

theorem taskSleep_ok {time : ℕ} (h : taskSleep s time = .ok s') (hi : SchedInv s) :
    ∃ r t v s₁, s.running_task = some r ∧ s.task_bucket r = some t ∧
      Moved s s₁ r { t with value := v, state := .sleeping, container := some .sleep } ∧
      schedule s₁ = .ok s' := by
  obtain ⟨r, hr, h⟩ := deref_bind_eq_ok h
  obtain ⟨t, ht, h⟩ := bind_eq_ok.1 h
  rw [owner_eq_ok] at ht
  obtain ⟨s₁, h₁, h⟩ := bind_eq_ok.1 h
  have m₀ := moved_put (u := { t with
    value := u32 (s.jiffies + (time / jiffy + if time % jiffy ≠ 0 then 1 else 0))
    state := .sleeping }) ht rfl
  exact ⟨r, t, _, s₁, hr, ht, m₀.trans (listInsertNode_ok h₁ m₀.at (hi.off r t hr ht)), h⟩

theorem weakup_ok (h : weakup s = .ok s') (hi : SchedInv s) : s' = s ∨ ∃ p t,
    s.task_bucket p = some t ∧ t.container = some .sleep ∧
    Moved s s' p { t with state := .ready, container := some .ready } := by
  cases hh : (s.lists .sleep).head? with
  | none =>
    simp only [weakup, hh] at h
    cases h
    exact Or.inl rfl
  | some p =>
    simp only [weakup, hh] at h
    obtain ⟨t, ht, h⟩ := bind_eq_ok.1 h
    rw [owner_eq_ok] at ht
    split_ifs at h
    · obtain ⟨s₁, h₁, h⟩ := bind_eq_ok.1 h
      obtain ⟨t₀, l, ht₀, -, -, m₁⟩ := removeNode_ok h₁
      rw [ht] at ht₀
      cases ht₀
      obtain ⟨t₁, ht₁, h⟩ := bind_eq_ok.1 h
      rw [owner_eq_ok, m₁.at] at ht₁
      cases ht₁
      have m₂ := m₁.trans (moved_put (u := { t with state := .ready, container := none }) m₁.at rfl)
      obtain ⟨t₂, ht₂, -, -, m₃⟩ := listPush_ok h
      rw [m₂.at] at ht₂
      cases ht₂
      have hc : t.container = some .sleep := by
        rw [← State.listOf_of ht]
        exact (hi.linked.mem _ _).1 (List.mem_of_head? hh)
      exact Or.inr ⟨p, t, ht, hc, m₂.trans m₃⟩
    · cases h
      exact Or.inl rfl

/-- The slot that `get_task` finds, and the parent of the new task. -/
theorem getTask_ok {r : Pid × Pid} (h : getTask s = .ok r) : s.task_bucket r.1 = none ∧
    r.2 = (s.running_task.bind s.task_bucket).elim 0 Tcb.pid := by
  cases hf : (List.finRange taskNum).find? fun pid => (s.task_bucket pid).isNone with
  | none =>
    simp only [getTask, hf] at h
    cases h
  | some pid =>
    simp only [getTask, hf] at h
    cases h
    exact ⟨by simpa using List.find?_some hf, rfl⟩

/-- A new task in a free slot. -/
theorem moved_new (hp : s.task_bucket p = none) (hc : t.container = none) : Moved s (s.put p t) p t :=
  ⟨rfl, rfl, rfl, fun h => h.put (by rw [hc, State.listOf, hp]; rfl), fun _ _ => rfl⟩

/-- A new task comes into the slot that `get_task` finds. -/
theorem taskCreate_at {r : Pid × Pid} {priority : ℕ} (hr : getTask s = .ok r)
    (h : taskCreate s priority = .ok s') : Moved s s' r.1
      { state := .ready, status := 0, pid := r.1, ppid := r.2, waitpid := 0
        container := some .ready, value := priority, child := none, exited := none } := by
  obtain ⟨r', hr', h⟩ := bind_eq_ok.1 h
  obtain rfl : r = r' := Except.ok.inj (hr.symm.trans hr')
  obtain ⟨t, ht, -, -, m⟩ := listPush_ok h
  have m₀ := moved_new (t := { state := .ready, status := 0, pid := r.1, ppid := r.2, waitpid := 0
                               container := none, value := priority, child := none
                               exited := none }) (getTask_ok hr).1 rfl
  rw [m₀.at] at ht
  cases ht
  exact m₀.trans m

/-- It is the last of the ready tasks. -/
theorem taskCreate_top {r : Pid × Pid} {priority : ℕ} (hr : getTask s = .ok r)
    (h : taskCreate s priority = .ok s') : s'.lists .ready = r.1 :: s.lists .ready := by
  obtain ⟨r', hr', h⟩ := bind_eq_ok.1 h
  obtain rfl : r = r' := Except.ok.inj (hr.symm.trans hr')
  obtain ⟨_, -, -, rfl, -⟩ := listPush_ok h
  show update s.lists .ready (r.1 :: s.lists .ready) .ready = _
  rw [update_self]

theorem taskCreate_ok {priority : ℕ} (h : taskCreate s priority = .ok s') :
    ∃ p, s.task_bucket p = none ∧ Moved s s' p
      { state := .ready, status := 0, pid := p
        ppid := (s.running_task.bind s.task_bucket).elim 0 Tcb.pid, waitpid := 0
        container := some .ready, value := priority, child := none, exited := none } := by
  obtain ⟨r, hr, -⟩ := bind_eq_ok.1 h
  obtain ⟨hp, hpp⟩ := getTask_ok hr
  rw [← hpp]
  exact ⟨r.1, hp, taskCreate_at hr h⟩

theorem kept_bind_ok {α : Type} {access : String} {f : Unit → C α} {a : α}
    (h : kept access t >>= f = .ok a) : t.exited = none ∧ f () = .ok a := by
  unfold kept at h
  split_ifs at h with hn
  · exact ⟨hn, h⟩
  · cases h

theorem sysFork_ok (h : sysFork s = .ok s') : ∃ r task p, s.running_task = some r ∧
    s.task_bucket r = some task ∧ s.task_bucket p = none ∧ Moved s s' p
      { task with pid := p, ppid := task.pid, state := .ready, container := some .ready, value := 0
                  child := none, exited := none, exiting := false } := by
  obtain ⟨r, hr, h⟩ := deref_bind_eq_ok h
  obtain ⟨task, htask, h⟩ := bind_eq_ok.1 h
  rw [owner_eq_ok] at htask
  obtain ⟨q, hq, h⟩ := bind_eq_ok.1 h
  obtain ⟨hp, hpp⟩ := getTask_ok hq
  rw [hr, Option.bind_some, htask, Option.elim_some] at hpp
  obtain ⟨-, h⟩ := kept_bind_ok h
  obtain ⟨t, ht, -, -, m⟩ := listPush_ok h
  have m₀ := moved_new (t := { task with pid := q.1, ppid := q.2, state := .ready
                                         container := none, value := 0, child := none
                                         exited := none, exiting := false }) hp rfl
  rw [m₀.at] at ht
  cases ht
  refine ⟨r, task, q.1, hr, htask, hp, ?_⟩
  rw [← hpp]
  exact m₀.trans m

/-- The parent waits for this task, or for any. -/
def WaitsFor (parent : Tcb) (pid : Pid) : Prop :=
  parent.state = .waiting ∧ (parent.waitpid = -1 ∨ parent.waitpid = (pid : ℕ))

theorem wakeParent_ok {task : Tcb} (h : wakeParent s task = .ok s') :
    ∃ parent, s.task_bucket task.ppid = some parent ∧
      (s' = s ∧ ¬ WaitsFor parent task.pid ∨ WaitsFor parent task.pid ∧ 
        parent.container.isSome ∧
        Moved s s' task.ppid { parent with state := .ready, container := some .ready }) := by
  obtain ⟨parent, hp, h⟩ := bind_eq_ok.1 h
  have hp' : s.task_bucket task.ppid = some parent := by
    cases hb : s.task_bucket task.ppid with
    | none =>
      rw [hb] at hp
      cases hp
    | some u =>
      rw [hb] at hp
      exact congrArg some (Except.ok.inj hp)
  refine ⟨parent, hp', ?_⟩
  split_ifs at h with hw
  · obtain ⟨t, l, ht, hl, m⟩ := unblock_ok h
    rw [hp'] at ht
    cases ht
    exact Or.inr ⟨hw, by rw [hl]; rfl, m⟩
  · cases h
    exact Or.inl ⟨rfl, hw⟩

/-- A task is dead: its TCB is `t'` now, and its children have its parent. -/
structure Exited (s s₁ : State) (p : Pid) (t t' : Tcb) : Prop where
  gone : s₁.task_bucket p = some t'
  others : ∀ q, q ≠ p → s₁.task_bucket q = (s.task_bucket q).map (adopt t)
  running : s₁.running_task = s.running_task
  dispatches : s₁.dispatches = s.dispatches
  linked : s.Linked → s₁.Linked
  order : s.Linked → ∀ l, (s₁.lists l).erase p = (s.lists l).erase p

/-- A task whose parent is itself stays so. -/
theorem adopt_self (u : Tcb) : adopt u u = u := by
  unfold adopt
  split_ifs <;> rfl

theorem adopt_congr {u : Tcb} (hp : u.pid = t.pid) (hpp : u.ppid = t.ppid) : adopt u = adopt t := by
  funext c
  rw [adopt, adopt, hp, hpp]

theorem Moved.reparent {s₁ : State} (m : Moved s s₁ p t') (hp : t'.pid = t.pid)
    (hpp : t'.ppid = t.ppid) : Exited s (Sched.reparent s₁ t) p t t' where
  gone := by
    show (s₁.task_bucket p).map (adopt t) = _
    rw [m.at, ← adopt_congr hp hpp, Option.map_some, adopt_self]
  others q hq := by
    show (s₁.task_bucket q).map (adopt t) = _
    rw [m.of_ne hq]
  running := m.running
  dispatches := m.dispatches
  linked hl := by
    refine (m.linked hl).congr rfl fun q => ?_
    show ((s₁.task_bucket q).map (adopt t)).bind Tcb.container = _
    rw [Option.bind_map]
    congr 1
    funext u
    exact congrArg (·.2.1) (place_adopt t u)
  order := m.order

theorem Exited.trans {s₁ s₂ : State} {u : Tcb} (h : Exited s s₁ p t t') (m : Moved s₁ s₂ p u) :
    Exited s s₂ p t u where
  gone := m.at
  others q hq := (m.of_ne hq).trans (h.others q hq)
  running := m.running.trans h.running
  dispatches := m.dispatches.trans h.dispatches
  linked hl := m.linked (h.linked hl)
  order hl l := (m.order (h.linked hl) l).trans (h.order hl l)

/-- A task moves and then exits. -/
theorem Moved.exited {s₁ s₂ : State} {u : Tcb} (m : Moved s s₁ p u) (e : Exited s₁ s₂ p u t')
    (hp : u.pid = t.pid) (hpp : u.ppid = t.ppid) : Exited s s₂ p t t' where
  gone := e.gone
  others q hq := by rw [e.others q hq, m.of_ne hq, adopt_congr hp hpp]
  running := e.running.trans m.running
  dispatches := e.dispatches.trans m.dispatches
  linked hl := e.linked (m.linked hl)
  order hl l := (e.order (m.linked hl) l).trans (m.order hl l)

theorem wakeParent_running {task : Tcb} (h : wakeParent s task = .ok s') :
    s'.running_task = s.running_task := by
  obtain ⟨_, -, ⟨rfl, -⟩ | ⟨-, -, m⟩⟩ := wakeParent_ok h
  · rfl
  · exact m.running

/-- `sys_exit` up to its `iput`s; a task exits once, since its space is gone then. -/
theorem exitBegin_ok {status : ℤ} (h : exitBegin s status = .ok s') :
    ∃ r t, s.running_task = some r ∧ s.task_bucket r = some t ∧ t.exited = none ∧
      Moved s s' r { t with container := some .died, state := .died, status, exited := some status
                            exiting := true } := by
  obtain ⟨r, hr, h⟩ := deref_bind_eq_ok h
  obtain ⟨s₁, h₁, h⟩ := bind_eq_ok.1 h
  obtain ⟨t, ht, -, -, m₁⟩ := listPush_ok h₁
  obtain ⟨t₁, ht₁, h⟩ := bind_eq_ok.1 h
  rw [owner_eq_ok, m₁.at] at ht₁
  cases ht₁
  obtain ⟨hone, h⟩ := kept_bind_ok h
  cases h
  exact ⟨r, t, hr, ht, hone, m₁.trans (moved_put m₁.at rfl)⟩

/-- The rest of `sys_exit`, whatever has become of the list and the state of the task. -/
theorem exitRest_ok (h : exitRest s = .ok s') :
    ∃ r t s₁ s₂, s.running_task = some r ∧ s.task_bucket r = some t ∧
      Exited s s₁ r t { t with exiting := false } ∧
      wakeParent s₁ t = .ok s₂ ∧ schedule s₂ = .ok s' := by
  obtain ⟨r, hr, h⟩ := deref_bind_eq_ok h
  obtain ⟨t, ht, h⟩ := bind_eq_ok.1 h
  rw [owner_eq_ok] at ht
  obtain ⟨s₂, h₂, h⟩ := bind_eq_ok.1 h
  exact ⟨r, t, _, s₂, hr, ht, (moved_put (u := { t with exiting := false }) ht rfl).reparent rfl rfl,
    h₂, h⟩

theorem wakeParent_congr {t : Tcb} (hp : t'.pid = t.pid) (hpp : t'.ppid = t.ppid) (s : State) :
    wakeParent s t' = wakeParent s t := by
  unfold wakeParent
  rw [hp, hpp]

theorem sysExit_ok {status : ℤ} (h : sysExit s status = .ok s') :
    ∃ r t s₁ s₂, s.running_task = some r ∧ s.task_bucket r = some t ∧
      Exited s s₁ r t { t with container := some .died, state := .died, status
                               exited := some status, exiting := false } ∧
      wakeParent s₁ t = .ok s₂ ∧ schedule s₂ = .ok s' := by
  obtain ⟨s₁, h₁, h⟩ := bind_eq_ok.1 h
  obtain ⟨r, t, hr, ht, -, m⟩ := exitBegin_ok h₁
  obtain ⟨q, u, s₂, s₃, hq, hu, e, hw, hs⟩ := exitRest_ok h
  obtain rfl : r = q := Option.some.inj ((m.running.trans hr).symm.trans hq)
  rw [m.at] at hu
  cases hu
  exact ⟨r, t, s₂, s₃, hr, ht, m.exited e rfl rfl, (wakeParent_congr rfl rfl s₂).symm.trans hw, hs⟩

theorem kernelThreadExit_ok {th : Option Pid} {status : ℕ}
    (h : kernelThreadExit s th status = .ok s') :
    ∃ p t s₁ s₂, blocking s th = some p ∧ s.task_bucket p = some t ∧
      Exited s s₁ p t { t with container := some .died, state := .died, status := i32 status
                               exited := some (i32 status) } ∧
      (s.running_task ≠ some p → t.container.isSome) ∧
      wakeParent s₁ t = .ok s₂ ∧
      (s.running_task = some p ∧ schedule s₂ = .ok s' ∨ s.running_task ≠ some p ∧ s₂ = s') := by
  obtain ⟨p, hb, h⟩ := deref_bind_eq_ok h
  obtain ⟨t, ht, h⟩ := bind_eq_ok.1 h
  rw [owner_eq_ok] at ht
  have e₀ := (moved_put (u := { t with status := i32 status, exited := some (i32 status) })
    ht rfl).reparent (t := t) rfl rfl
  obtain ⟨s₁, l₁, e₁, hc, h⟩ : ∃ s₁ l₁, Exited s s₁ p t
      { t with container := l₁, status := i32 status, exited := some (i32 status) } ∧
      (s.running_task ≠ some p → t.container.isSome) ∧
      (do let s ← listPush s₁ .died p
          let t₁ ← owner s p
          let s ← wakeParent (s.put p { t₁ with state := .died }) t
          if s.running_task = some p then schedule s else return s) = .ok s' := by
    dsimp only at h
    split_ifs at h with hr
    · exact ⟨_, _, e₀, fun hn => absurd hr hn, h⟩
    · obtain ⟨s₁, h₁, h⟩ := bind_eq_ok.1 h
      obtain ⟨t₁, l, ht₁, hl, -, m⟩ := removeNode_ok h₁
      rw [e₀.gone] at ht₁
      cases ht₁
      exact ⟨s₁, none, e₀.trans m, fun _ => by rw [hl]; rfl, h⟩
  obtain ⟨s₂, h₂, h⟩ := bind_eq_ok.1 h
  obtain ⟨t₂, ht₂, -, -, m₂⟩ := listPush_ok h₂
  rw [e₁.gone] at ht₂
  cases ht₂
  obtain ⟨t₃, ht₃, h⟩ := bind_eq_ok.1 h
  rw [owner_eq_ok, m₂.at] at ht₃
  cases ht₃
  have e₂ := (e₁.trans m₂).trans (moved_put (u := { t with container := some .died, state := .died
                                                           status := i32 status
                                                           exited := some (i32 status) }) m₂.at rfl)
  obtain ⟨s₃, h₃, h⟩ := bind_eq_ok.1 h
  have hrun : s₃.running_task = s.running_task := (wakeParent_running h₃).trans e₂.running
  refine ⟨p, t, _, s₃, hb, ht, e₂, hc, h₃, ?_⟩
  rw [← hrun]
  split_ifs at h with hr
  · exact Or.inl ⟨hr, h⟩
  · cases h
    exact Or.inr ⟨hr, rfl⟩

/-- What `freeTask` gives back, and nothing else. -/
theorem freeTask_ok {c : Pid} {r : Pid × ℤ} (h : freeTask s c = .ok (s', r)) :
    ∃ t, s.task_bucket c = some t ∧ t.container.isSome ∧ r = (t.pid, t.status) ∧
      (t.pid = c → s'.task_bucket = update s.task_bucket c none ∧
        s'.running_task = s.running_task ∧ s'.dispatches = s.dispatches ∧
        (s.Linked → s'.Linked)) := by
  obtain ⟨t, ht, h⟩ := bind_eq_ok.1 h
  rw [owner_eq_ok] at ht
  obtain ⟨s₁, h₁, h⟩ := bind_eq_ok.1 h
  obtain ⟨t₁, l, ht₁, hl, -, m⟩ := removeNode_ok h₁
  rw [ht] at ht₁
  cases ht₁
  cases h
  refine ⟨t, ht, by rw [hl]; rfl, rfl, fun hpid => ⟨?_, m.running, m.dispatches, fun hlink => ?_⟩⟩
  · show update s₁.task_bucket t.pid none = _
    rw [hpid, m.bucket, update_idem]
  · refine (m.linked hlink).congr rfl fun q => ?_
    show (update s₁.task_bucket t.pid none q).bind Tcb.container = _
    rw [hpid]
    by_cases hq : q = c
    · rw [hq, update_self, State.listOf_of m.at]
      rfl
    · rw [update_of_ne hq]
      rfl

theorem sysWaitpid_ok {pid : ℤ} {r : WaitRes} (h : sysWaitpid s pid = .ok (s', r)) :
    ∃ p task, s.running_task = some p ∧ s.task_bucket p = some task ∧
      (findChild s task pid = none ∧ s' = s ∧ r = .failed ∨
      ∃ c t, findChild s task pid = some c ∧ s.task_bucket c = some t ∧
        ((t.state = .died ∧ ∃ q, freeTask s c = .ok (s', q) ∧ r = .reaped q.1 q.2) ∨
        (t.state ≠ .died ∧ r = .blocked ∧ ∃ s₁, schedule s₁ = .ok s' ∧
          Moved s s₁ p { task with
            waitpid := pid, child := some c, state := .waiting, container := some .block }))) := by
  obtain ⟨p, hp, h⟩ := deref_bind_eq_ok h
  obtain ⟨task, ht, h⟩ := bind_eq_ok.1 h
  rw [owner_eq_ok] at ht
  refine ⟨p, task, hp, ht, ?_⟩
  cases hf : findChild s task pid with
  | none =>
    simp only [hf] at h
    cases h
    exact Or.inl ⟨rfl, rfl, rfl⟩
  | some c =>
    simp only [hf] at h
    obtain ⟨t, htc, h⟩ := bind_eq_ok.1 h
    rw [owner_eq_ok] at htc
    refine Or.inr ⟨c, t, rfl, htc, ?_⟩
    split_ifs at h with hd
    · obtain ⟨⟨s₁, q⟩, h₁, h⟩ := bind_eq_ok.1 h
      cases h
      exact Or.inl ⟨hd, q, h₁, rfl⟩
    · obtain ⟨s₁, h₁, h⟩ := bind_eq_ok.1 h
      cases h
      have m₀ := moved_put (u := { task with waitpid := pid, child := some c }) ht rfl
      obtain ⟨p₁, t₁, s₂, hb, ht₁, m₁, hs⟩ := block_ok h₁
      obtain rfl : p = p₁ := Option.some.inj (hp.symm.trans hb)
      rw [m₀.at] at ht₁
      cases ht₁
      exact Or.inr ⟨hd, rfl, s₂, hs, m₀.trans m₁⟩

theorem resumeWait_ok {r : Pid × ℤ} (h : resumeWait s = .ok (s', r)) :
    ∃ p task c, s.running_task = some p ∧ s.task_bucket p = some task ∧ task.child = some c ∧
      freeTask (s.put p { task with child := none }) c = .ok (s', r) := by
  obtain ⟨p, hp, h⟩ := deref_bind_eq_ok h
  obtain ⟨task, ht, h⟩ := bind_eq_ok.1 h
  obtain ⟨c, hc, h⟩ := deref_bind_eq_ok h
  exact ⟨p, task, c, hp, owner_eq_ok.1 ht, hc, h⟩

end Operations

/-! ## Every operation keeps the invariant -/

section Steps
variable {s s' s₁ s₂ : State} {p : Pid} {t t' : Tcb}

theorem Exited.moved (e : Exited s s₁ p t t') : ∃ m, Moved s m p t' ∧ s₁.lists = m.lists ∧
    s₁.running_task = m.running_task ∧ s₁.dispatches = m.dispatches ∧
    ∀ q, (s₁.task_bucket q).map Tcb.place = (m.task_bucket q).map Tcb.place := by
  have hb (q : Pid) : (s₁.task_bucket q).map Tcb.place =
      (update s.task_bucket p (some t') q).map Tcb.place := by
    by_cases hq : q = p
    · rw [hq, update_self, e.gone]
    · rw [update_of_ne hq, e.others q hq, Option.map_map]
      congr 1
      funext u
      exact place_adopt t u
  refine ⟨{ s₁ with task_bucket := update s.task_bucket p (some t') },
    ⟨rfl, e.running, e.dispatches, fun hl => (e.linked hl).congr rfl fun q => ?_, e.order⟩, rfl, rfl,
    rfl, hb⟩
  have := congrArg (Option.bind · fun x : Pid × Option ListId × TaskState => x.2.1) (hb q).symm
  rw [Option.bind_map, Option.bind_map] at this
  exact this

theorem Exited.schedInv (h : SchedInv s) (e : Exited s s₁ p t t') (hp : s.running_task ≠ some p)
    (hpid : t'.pid = p) (ht : t'.Listed) : SchedInv s₁ := by
  obtain ⟨m, hm, hl, hr, hd, hb⟩ := e.moved
  exact (h.moved_other hm hp hpid ht).congr hl hr hd hb

theorem Exited.midway (h : SchedInv s) (e : Exited s s₁ p t t') (hp : s.running_task = some p)
    (hpid : t'.pid = p) (ht : t'.Listed) (hc : t'.container ≠ some .ready) : Midway s₁ := by
  obtain ⟨m, hm, hl, hr, hd, hb⟩ := e.moved
  exact (h.moved_running hm hp hpid ht hc).congr hl hr hd hb

/-- The parent that is woken does not run. -/
theorem wakeParent_midway {task : Tcb} (h : Midway s)
    (hr : ∀ r u, s.running_task = some r → s.task_bucket r = some u → u.state ≠ .waiting)
    (hw : wakeParent s task = .ok s') : Midway s' := by
  obtain ⟨parent, hp, ⟨rfl, -⟩ | ⟨hwait, -, m⟩⟩ := wakeParent_ok hw
  · exact h
  · refine h.moved_other m (fun he => hr _ parent he hp hwait.1) ?_ ⟨.ready, rfl, rfl⟩
    exact h.pid _ parent hp

theorem wakeParent_schedInv {task : Tcb} (h : SchedInv s) (hw : wakeParent s task = .ok s') :
    SchedInv s' := by
  obtain ⟨parent, hp, ⟨rfl, -⟩ | ⟨-, hc, m⟩⟩ := wakeParent_ok hw
  · exact h
  · exact h.moved_other m (h.ne_running hp hc) (h.pid _ parent hp) ⟨.ready, rfl, rfl⟩

theorem SchedInv.tick (h : SchedInv s) (j : ℕ) : SchedInv { s with jiffies := j } :=
  h.congr rfl rfl rfl fun _ => rfl

theorem SchedInv.weakup (h : SchedInv s) (hs : weakup s = .ok s') : SchedInv s' := by
  obtain rfl | ⟨p, t, ht, hc, m⟩ := weakup_ok hs h
  · exact h
  · exact h.moved_other m (h.ne_running ht (by rw [hc]; rfl)) (h.pid p t ht) ⟨.ready, rfl, rfl⟩

/-- The lists that a task may be blocked in. -/
theorem block_fits {list : Option ListId} {st : TaskState} (h₁ : list ≠ some .ready)
    (h₂ : list ≠ some .sleep) (h₃ : list ≠ some .died) (hst : st = .blocked ∨ st = .waiting) :
    (list.getD .block).Fits st ∧ list.getD .block ≠ .ready := by
  cases list with
  | none => exact ⟨hst, by simp⟩
  | some l =>
    cases l with
    | block => exact ⟨hst, by simp⟩
    | other n => exact ⟨hst, by simp⟩
    | ready => exact absurd rfl h₁
    | sleep => exact absurd rfl h₂
    | died => exact absurd rfl h₃

theorem SchedInv.block_cases {list : Option ListId} {task : Option Pid} {st : TaskState}
    (h : SchedInv s) (h₁ : list ≠ some .ready) (h₂ : list ≠ some .sleep) (h₃ : list ≠ some .died)
    (hst : st = .blocked ∨ st = .waiting) (hs : block s list task st = .ok s') :
    ∃ p t s₁, blocking s task = some p ∧ s.task_bucket p = some t ∧
      Moved s s₁ p { t with state := st, container := some (list.getD .block) } ∧
      Midway s₁ ∧ schedule s₁ = .ok s' := by
  obtain ⟨p, t, s₁, hb, ht, m, hsch⟩ := block_ok hs
  refine ⟨p, t, s₁, hb, ht, m, ?_, hsch⟩
  have hlist := block_fits h₁ h₂ h₃ hst
  by_cases hr : s.running_task = some p
  · exact h.moved_running m hr (h.pid p t ht) ⟨_, rfl, hlist.1⟩ (by simpa using hlist.2)
  · exact (h.moved_other m hr (h.pid p t ht) ⟨_, rfl, hlist.1⟩).toMidway

theorem SchedInv.unblock (h : SchedInv s) (hs : unblock s p = .ok s') : SchedInv s' := by
  obtain ⟨t, l, ht, hl, m⟩ := unblock_ok hs
  exact h.moved_other m (h.ne_running ht (by rw [hl]; rfl)) (h.pid p t ht) ⟨.ready, rfl, rfl⟩

theorem SchedInv.taskSleep_cases {time : ℕ} (h : SchedInv s) (hs : taskSleep s time = .ok s') :
    ∃ r t v s₁, s.running_task = some r ∧ s.task_bucket r = some t ∧
      Moved s s₁ r { t with value := v, state := .sleeping, container := some .sleep } ∧
      Midway s₁ ∧ schedule s₁ = .ok s' := by
  obtain ⟨r, t, v, s₁, hr, ht, m, hsch⟩ := taskSleep_ok hs h
  exact ⟨r, t, v, s₁, hr, ht, m,
    h.moved_running m hr (h.pid r t ht) ⟨.sleep, rfl, rfl⟩ (by simp), hsch⟩

/-- The running task is in another slot than a new one. -/
theorem SchedInv.ne_of_free (h : SchedInv s) (hp : s.task_bucket p = none) :
    s.running_task ≠ some p := by
  intro hr
  obtain ⟨t, ht, -⟩ := h.running p hr
  rw [hp] at ht
  cases ht

theorem SchedInv.taskCreate {priority : ℕ} (h : SchedInv s) (hs : taskCreate s priority = .ok s') :
    SchedInv s' := by
  obtain ⟨p, hp, m⟩ := taskCreate_ok hs
  exact h.moved_other m (h.ne_of_free hp) rfl ⟨.ready, rfl, rfl⟩

theorem SchedInv.sysFork (h : SchedInv s) (hs : sysFork s = .ok s') : SchedInv s' := by
  obtain ⟨r, task, p, -, -, hp, m⟩ := sysFork_ok hs
  exact h.moved_other m (h.ne_of_free hp) rfl ⟨.ready, rfl, rfl⟩

theorem SchedInv.sysExit_cases {status : ℤ} (h : SchedInv s) (hs : sysExit s status = .ok s') :
    ∃ r t s₁ s₂, s.running_task = some r ∧ s.task_bucket r = some t ∧
      Exited s s₁ r t { t with container := some .died, state := .died, status
                               exited := some status, exiting := false } ∧
      wakeParent s₁ t = .ok s₂ ∧ Midway s₂ ∧ schedule s₂ = .ok s' := by
  obtain ⟨r, t, s₁, s₂, hr, ht, e, hw, hsch⟩ := sysExit_ok hs
  refine ⟨r, t, s₁, s₂, hr, ht, e, hw, wakeParent_midway (e.midway h hr (h.pid r t ht)
    ⟨.died, rfl, rfl⟩ (by simp)) (fun q u hq hu => ?_) hw, hsch⟩
  rw [e.running, hr] at hq
  cases hq
  rw [e.gone] at hu
  cases hu
  simp

/-- A `sys_exit` that blocks moves the task to a list, with its status. -/
theorem SchedInv.exitBlock_cases {status : ℤ} {list : Option ListId} {st : TaskState}
    (h : SchedInv s) (h₁ : list ≠ some .ready) (h₂ : list ≠ some .sleep) (h₃ : list ≠ some .died)
    (hst : st = .blocked ∨ st = .waiting) (hs : exitBlock s status list st = .ok s') :
    ∃ r t s₁, s.running_task = some r ∧ s.task_bucket r = some t ∧ t.exited = none ∧
      Moved s s₁ r { t with status, exited := some status, exiting := true, state := st
                            container := some (list.getD .block) } ∧
      Midway s₁ ∧ schedule s₁ = .ok s' := by
  obtain ⟨s₁, hb, hs⟩ := bind_eq_ok.1 hs
  obtain ⟨r, t, hr, ht, hone, m₁⟩ := exitBegin_ok hb
  obtain ⟨q, u, s₂, hq, hu, m₂, hsch⟩ := block_ok hs
  obtain rfl : r = q := Option.some.inj ((m₁.running.trans hr).symm.trans hq)
  rw [m₁.at] at hu
  cases hu
  have hlist := block_fits h₁ h₂ h₃ hst
  have m := m₁.trans m₂
  exact ⟨r, t, s₂, hr, ht, hone, m,
    h.moved_running m hr (h.pid r t ht) ⟨_, rfl, hlist.1⟩ (by simpa using hlist.2), hsch⟩

/-- The only child with the pid of a slot is in that slot. -/
theorem findChild_slot {task : Tcb} {q : Pid} (hpid : ∀ p t, s.task_bucket p = some t → t.pid = p)
    (ht : s.task_bucket q = some t) (hpp : t.ppid = task.pid) :
    findChild s task (q : ℕ) = some q := by
  cases hf : findChild s task (q : ℕ) with
  | none =>
    have := List.find?_eq_none.1 hf q (List.mem_finRange q)
    simp [ht, hpp, hpid q t ht] at this
  | some c =>
    have hany := List.find?_some hf
    obtain ⟨u, hu, hm⟩ := (Option.any_eq_true _ _).1 hany
    have hm := of_decide_eq_true hm
    rw [hpid c u hu] at hm
    rcases hm.2 with he | he
    · exact congrArg some (Fin.ext (by exact_mod_cast he.symm))
    · omega

/-- The timer of `sata_sending_wait`, a child of `p`. -/
def timerOf (p q : Pid) (priority : ℕ) : Tcb where
  state := .ready
  status := 0
  pid := q
  ppid := p
  waitpid := 0
  container := some .ready
  value := priority
  child := none
  exited := none

/-- A `sys_exit` that waits for the disk: a timer is there, and the task waits for it. -/
theorem SchedInv.exitWait_cases {status : ℤ} {priority : ℕ} {res : WaitRes} (h : SchedInv s)
    (hs : exitWait s status priority = .ok (s', res)) :
    ∃ r t q s₁ s₂ s₃, s.running_task = some r ∧ s.task_bucket r = some t ∧ t.exited = none ∧
      s.task_bucket q = none ∧ res = .blocked ∧
      Moved s s₁ r { t with container := some .died, state := .died, status
                            exited := some status, exiting := true } ∧
      Moved s₁ s₂ q (timerOf r q priority) ∧ s₂.lists .ready = q :: s₁.lists .ready ∧
      Moved s₂ s₃ r { t with status, exited := some status, exiting := true, waitpid := (q : ℕ)
                             child := some q, state := .waiting, container := some .block } ∧
      Midway s₃ ∧ schedule s₃ = .ok s' := by
  obtain ⟨s₁, hb, hs⟩ := bind_eq_ok.1 hs
  obtain ⟨r, t, hr, ht, hone, m₁⟩ := exitBegin_ok hb
  obtain ⟨⟨q, pp⟩, hq, hs⟩ := bind_eq_ok.1 hs
  obtain ⟨s₂, hc, hs⟩ := bind_eq_ok.1 hs
  have hpid := h.pid r t ht
  obtain ⟨hfree, hpp⟩ := getTask_ok hq
  have m₂ := taskCreate_at hq hc
  have hqr : q ≠ r := by
    rintro rfl
    rw [m₁.at] at hfree
    cases hfree
  obtain rfl : pp = r := by
    rw [m₁.running, hr, Option.bind_some, m₁.at, Option.elim_some] at hpp
    exact hpp.trans hpid
  have hm₁ := h.moved_running m₁ hr hpid ⟨.died, rfl, rfl⟩ (by simp)
  have hm₂ := hm₁.moved_other m₂
    (by rw [m₁.running, hr]; exact fun he => hqr (Option.some.inj he).symm) rfl ⟨.ready, rfl, rfl⟩
  have hpr := (m₂.of_ne hqr.symm).trans m₁.at
  obtain ⟨p, task, hp, htask, hcase⟩ := sysWaitpid_ok hs
  obtain rfl : pp = p := Option.some.inj ((m₂.running.trans (m₁.running.trans hr)).symm.trans hp)
  rw [hpr] at htask
  cases htask
  have hfind {task : Tcb} (hp : task.pid = pp) : findChild s₂ task (q : ℕ) = some q :=
    findChild_slot hm₂.pid m₂.at hp.symm
  rcases hcase with ⟨hnone, -⟩ | ⟨c, u, hcu, hu, hrest⟩
  · cases hnone.symm.trans (hfind (by exact hpid))
  · obtain rfl : q = c := Option.some.inj ((hfind (by exact hpid)).symm.trans hcu)
    rw [m₂.at] at hu
    cases hu
    rcases hrest with ⟨hdead, -⟩ | ⟨-, rfl, s₃, hsch, m₃⟩
    · cases hdead
    · refine ⟨pp, t, q, s₁, s₂, s₃, hr, ht, hone, (m₁.of_ne hqr).symm.trans hfree, rfl, m₁, m₂,
        taskCreate_top hq hc, m₃, ?_, hsch⟩
      exact hm₂.moved_running m₃ hp hpid ⟨.block, rfl, Or.inr rfl⟩ (by simp)

/-- The rest of a `sys_exit` leaves the task as it is, in no list. -/
theorem SchedInv.exitRest_cases (h : SchedInv s) (hs : exitRest s = .ok s') :
    ∃ r t s₁ s₂, s.running_task = some r ∧ s.task_bucket r = some t ∧ t.state = s.slice ∧
      Exited s s₁ r t { t with exiting := false } ∧ SchedInv s₁ ∧
      wakeParent s₁ t = .ok s₂ ∧ Midway s₂ ∧ schedule s₂ = .ok s' := by
  obtain ⟨r, t, s₁, s₂, hr, ht, e, hw, hsch⟩ := exitRest_ok hs
  obtain ⟨t', ht', hc, hst⟩ := h.occupied hr
  rw [ht] at ht'
  cases ht'
  have h₁ : SchedInv s₁ := by
    obtain ⟨m, hm, -, -, -, hb⟩ := e.moved
    refine h.of_place (e.linked h.linked) e.running e.dispatches fun p => (hb p).trans ?_
    rw [hm.bucket]
    exact place_put (u := { t with exiting := false }) ht rfl p
  exact ⟨r, t, s₁, s₂, hr, ht, hst, e, h₁, hw, (wakeParent_schedInv h₁ hw).toMidway, hsch⟩

theorem SchedInv.kernelThreadExit_cases {th : Option Pid} {status : ℕ} (h : SchedInv s)
    (hs : kernelThreadExit s th status = .ok s') :
    ∃ p t s₁ s₂, blocking s th = some p ∧ s.task_bucket p = some t ∧
      Exited s s₁ p t { t with container := some .died, state := .died, status := i32 status
                               exited := some (i32 status) } ∧
      wakeParent s₁ t = .ok s₂ ∧
      (Midway s₂ ∧ schedule s₂ = .ok s' ∨ SchedInv s₂ ∧ s₂ = s') := by
  obtain ⟨p, t, s₁, s₂, hb, ht, e, -, hw, hcase⟩ := kernelThreadExit_ok hs
  refine ⟨p, t, s₁, s₂, hb, ht, e, hw, ?_⟩
  rcases hcase with ⟨hr, hsch⟩ | ⟨hr, rfl⟩
  · refine Or.inl ⟨wakeParent_midway (e.midway h hr (h.pid p t ht) ⟨.died, rfl, rfl⟩
      (by simp)) (fun q u hq hu => ?_) hw, hsch⟩
    rw [e.running, hr] at hq
    cases hq
    rw [e.gone] at hu
    cases hu
    simp
  · exact Or.inr ⟨wakeParent_schedInv (e.schedInv h hr (h.pid p t ht) ⟨.died, rfl, rfl⟩) hw, rfl⟩

theorem SchedInv.freeTask {c : Pid} {r : Pid × ℤ} (h : SchedInv s)
    (hs : freeTask s c = .ok (s', r)) : SchedInv s' := by
  obtain ⟨t, ht, hc, -, hrest⟩ := freeTask_ok hs
  obtain ⟨hb, hrun, hd, hl⟩ := hrest (h.pid c t ht)
  have hne := h.ne_running ht hc
  have hback {q : Pid} {u : Tcb} (hu : s'.task_bucket q = some u) : s.task_bucket q = some u := by
    by_cases hq : q = c
    · rw [hb, hq, update_self] at hu
      cases hu
    · rwa [hb, update_of_ne hq] at hu
  refine ⟨⟨hl h.linked, fun q u hu => h.pid q u (hback hu), fun q u hu hq => ?_, fun q hq => ?_, ?_⟩,
    fun q u hq hu => ?_⟩
  · exact h.listed q u (hback hu) (by rw [← hrun]; exact hq)
  · rw [hrun] at hq
    obtain ⟨u, hu, hcu, hst⟩ := h.occupied hq
    have hqc : q ≠ c := fun he => hne (by rw [hq, he])
    exact ⟨u, by rw [hb, update_of_ne hqc, hu], Or.inl ⟨hcu, by rw [hst, State.slice, State.slice, hd]⟩⟩
  · rw [hrun, hd]
    exact h.first
  · rw [hrun] at hq
    exact h.off q u hq (hback hu)

/-- A `sys_waitpid` finds no child, a dead one, or waits for a live one. -/
theorem SchedInv.sysWaitpid_cases {pid : ℤ} {r : WaitRes} (h : SchedInv s)
    (hs : sysWaitpid s pid = .ok (s', r)) :
    ∃ p task, s.running_task = some p ∧ s.task_bucket p = some task ∧
      (findChild s task pid = none ∧ s' = s ∧ r = .failed ∨
      ∃ c t, findChild s task pid = some c ∧ s.task_bucket c = some t ∧
        ((t.state = .died ∧ ∃ q, Sched.freeTask s c = .ok (s', q) ∧ r = .reaped q.1 q.2) ∨
        (t.state ≠ .died ∧ r = .blocked ∧ ∃ s₁, Midway s₁ ∧ schedule s₁ = .ok s' ∧
          Moved s s₁ p { task with
            waitpid := pid, child := some c, state := .waiting, container := some .block }))) := by
  obtain ⟨p, task, hp, ht, hcase⟩ := sysWaitpid_ok hs
  refine ⟨p, task, hp, ht, hcase.imp_right ?_⟩
  rintro ⟨c, u, hf, hu, hd | ⟨hd, hr, s₁, hsch, m⟩⟩
  · exact ⟨c, u, hf, hu, Or.inl hd⟩
  · refine ⟨c, u, hf, hu, Or.inr ⟨hd, hr, s₁, ?_, hsch, m⟩⟩
    exact h.moved_running m hp (h.pid p task ht) ⟨.block, rfl, Or.inr rfl⟩ (by simp)

theorem SchedInv.sysWaitpid {pid : ℤ} {r : WaitRes} (h : SchedInv s)
    (hs : sysWaitpid s pid = .ok (s', r)) : SchedInv s' := by
  obtain ⟨p, task, -, -, ⟨-, rfl, -⟩ | ⟨c, u, -, -, ⟨-, q, hq, -⟩ | ⟨-, -, s₁, hm, hsch, -⟩⟩⟩ :=
    h.sysWaitpid_cases hs
  · exact h
  · exact h.freeTask hq
  · exact schedInv_schedule hm hsch

theorem SchedInv.resumeWait {r : Pid × ℤ} (h : SchedInv s) (hs : resumeWait s = .ok (s', r)) :
    SchedInv s' := by
  obtain ⟨p, task, c, hp, ht, -, hf⟩ := resumeWait_ok hs
  have h₁ : SchedInv (s.put p { task with child := none }) :=
    h.congr rfl rfl rfl (place_put ht rfl)
  exact h₁.freeTask hf

/-- **Every step keeps the invariant.** -/
theorem SchedInv.step {op : Op} (h : SchedInv s) (hs : Step s op s') : SchedInv s' := by
  cases hs with
  | schedule _ hs => exact schedInv_schedule h.toMidway hs
  | clock _ hs => exact (h.tick _).weakup hs
  | block _ h₁ h₂ h₃ hst _ hs =>
    obtain ⟨_, _, _, -, -, -, hm, hsch⟩ := h.block_cases h₁ h₂ h₃ hst hs
    exact schedInv_schedule hm hsch
  | unblock _ _ hs => exact h.unblock hs
  | sleep _ hs =>
    obtain ⟨_, _, _, _, -, -, -, hm, hsch⟩ := h.taskSleep_cases hs
    exact schedInv_schedule hm hsch
  | create _ hs => exact h.taskCreate hs
  | fork _ hs => exact h.sysFork hs
  | exit _ hs =>
    obtain ⟨_, _, _, _, -, -, -, -, hm, hsch⟩ := h.sysExit_cases hs
    exact schedInv_schedule hm hsch
  | exitBlock _ h₁ h₂ h₃ hst hs =>
    obtain ⟨_, _, _, -, -, -, -, hm, hsch⟩ := h.exitBlock_cases h₁ h₂ h₃ hst hs
    exact schedInv_schedule hm hsch
  | exitWait _ hs =>
    obtain ⟨_, _, _, _, _, _, -, -, -, -, -, -, -, -, -, hm, hsch⟩ := h.exitWait_cases hs
    exact schedInv_schedule hm hsch
  | exitEnd _ _ hs =>
    obtain ⟨_, _, _, _, -, -, -, -, -, -, hm, hsch⟩ := h.exitRest_cases hs
    exact schedInv_schedule hm hsch
  | threadExit _ hs =>
    obtain ⟨_, _, _, _, -, -, -, -, ⟨hm, hsch⟩ | ⟨hi, rfl⟩⟩ := h.kernelThreadExit_cases hs
    · exact schedInv_schedule hm hsch
    · exact hi
  | waitpid _ hs => exact h.sysWaitpid hs
  | resume hs => exact h.resumeWait hs

/-- Before the first task. -/
theorem schedInv_blank : SchedInv { task_bucket := fun _ => none, lists := fun _ => []
                                    running_task := none, jiffies := 0, dispatches := 0 } := by
  refine ⟨⟨⟨fun l p => ?_, fun l => ?_⟩, ?_, ?_, ?_, ?_⟩, ?_⟩
  · simp [State.listOf]
  · exact List.nodup_nil
  · intro p t ht
    cases ht
  · intro p t ht
    cases ht
  · intro r hr
    cases hr
  · simp
  · intro r t hr
    cases hr

theorem schedInv_init (h : taskInit = .ok s) : SchedInv s := by
  obtain ⟨s₁, h₁, h⟩ := bind_eq_ok.1 h
  obtain ⟨s₂, h₂, h⟩ := bind_eq_ok.1 h
  exact ((schedInv_blank.taskCreate h₁).taskCreate h₂).taskCreate h

theorem schedInv_reach (h : schedSys.Reach s) : SchedInv s :=
  h.invariant (fun _ => schedInv_init) fun _ _ _ hi => hi.step

end Steps

/-! ## State and list agree -/

/-- The assertion of `schedule`. -/
abbrev stateAssertion : Halt := .assert "((TCB_t *)running_task->owner)->state == TASK_RUNNING"

/-- Task state and list membership agree. -/
structure Agree (s : State) : Prop where
  /-- the running task is in no list, and its state says that it runs -/
  running : ∀ r, s.running_task = some r → (∀ l, r ∉ s.lists l) ∧
    ∃ t, s.task_bucket r = some t ∧ t.container = none ∧ t.state = .running
  /-- every other task is in one list, once, and has the state of that list -/
  others : ∀ p t, s.task_bucket p = some t → s.running_task ≠ some p →
    ∃ l, t.container = some l ∧ (∀ l', p ∈ s.lists l' ↔ l' = l) ∧ (s.lists l).count p = 1 ∧
      (t.state = .ready ↔ l = .ready) ∧ (t.state = .sleeping ↔ l = .sleep) ∧
      (t.state = .died ↔ l = .died) ∧
      (t.state = .blocked ∨ t.state = .waiting ↔ l ≠ .ready ∧ l ≠ .sleep ∧ l ≠ .died)
  /-- the assertion of `schedule` does not fail -/
  assertion : ∀ r, s.running_task = some r → schedule s ≠ .error stateAssertion

section Agree
variable {s : State}

theorem ListId.Fits.iff {l : ListId} {st : TaskState} (h : l.Fits st) :
    (st = .ready ↔ l = .ready) ∧ (st = .sleeping ↔ l = .sleep) ∧ (st = .died ↔ l = .died) ∧
      (st = .blocked ∨ st = .waiting ↔ l ≠ .ready ∧ l ≠ .sleep ∧ l ≠ .died) := by
  cases l with
  | ready | sleep | died => 
    cases h
    simp
  | block | other n =>
    rcases h with rfl | rfl <;> simp

/-- How the functions on nodes fail. -/
def NodeError (e : Halt) : Prop :=
  e = .null "owner" ∨ e = .assert "list != NULL" ∨ e = .assert "node->container == NULL"

theorem owner_error {p : Pid} {e : Halt} (h : owner s p = .error e) : NodeError e := by
  unfold owner at h
  cases hb : s.task_bucket p with
  | none =>
    rw [hb] at h
    cases h
    exact Or.inl rfl
  | some t =>
    rw [hb] at h
    cases h

theorem removeNode_error {p : Pid} {e : Halt} (h : removeNode s p = .error e) : NodeError e := by
  rcases bind_eq_error.1 h with h | ⟨t, -, h⟩
  · exact owner_error h
  · rcases bind_eq_error.1 h with h | ⟨l, -, h⟩
    · unfold containerOf at h
      split at h
      · cases h
      · cases h
        exact Or.inr (Or.inl rfl)
    · cases h

theorem listPush_error {l : ListId} {p : Pid} {e : Halt} (h : listPush s l p = .error e) :
    NodeError e := by
  rcases bind_eq_error.1 h with h | ⟨t, -, h⟩
  · exact owner_error h
  · by_cases hc : t.container = none
    · rw [cassert_pos hc] at h
      cases h
    · rw [cassert_neg hc] at h
      cases h
      exact Or.inr (Or.inr rfl)

theorem switchTo_error {next : Pid} {running_task : Option Pid} {e : Halt}
    (h : switchTo s next running_task = .error e) : NodeError e := by
  cases running_task with
  | none => cases h
  | some r =>
    rcases bind_eq_error.1 h with h | ⟨n, -, h⟩
    · exact owner_error h
    · rcases bind_eq_error.1 h with h | ⟨c, -, h⟩
      · exact owner_error h
      · split_ifs at h
        · rcases bind_eq_error.1 h with h | ⟨s₂, -, h⟩
          · exact listPush_error h
          · cases h
        · cases h

/-- How `schedule` fails with nothing to switch to. -/
def IdleError (s : State) (e : Halt) : Prop :=
  e = .assert "running_task != NULL" ∨ NodeError e ∨
    ∃ r t, s.running_task = some r ∧ s.task_bucket r = some t ∧ t.state ≠ .running ∧
      e = stateAssertion

theorem schedule_error {e : Halt} (h : schedule s = .error e) : IdleError s e := by
  unfold schedule at h
  split at h
  · cases hr : s.running_task with
    | none =>
      rw [hr] at h
      cases h
      exact Or.inl rfl
    | some r =>
      rw [hr, cassert_pos (by simp), ok_bind, deref_some, ok_bind] at h
      rcases bind_eq_error.1 h with h | ⟨t, ht, h⟩
      · exact Or.inr (Or.inl (owner_error h))
      · rw [owner_eq_ok] at ht
        by_cases hst : t.state = .running
        · rw [cassert_pos hst] at h
          cases h
        · rw [cassert_neg hst] at h
          cases h
          exact Or.inr (Or.inr ⟨r, t, hr, ht, hst, rfl⟩)
  · rcases bind_eq_error.1 h with h | ⟨s₁, -, h⟩
    · exact Or.inr (Or.inl (removeNode_error h))
    · exact Or.inr (Or.inl (switchTo_error h))

theorem NodeError.ne_assertion {e : Halt} (h : NodeError e) : e ≠ stateAssertion := by
  rcases h with rfl | rfl | rfl <;> simp

/-- `schedule` fails in its assertion only with nothing to switch to. -/
theorem schedule_assertion {r : Pid} {t : Tcb} (hr : s.running_task = some r)
    (ht : s.task_bucket r = some t) (hst : t.state = .running) :
    schedule s ≠ .error stateAssertion := by
  intro h
  rcases schedule_error h with h | h | ⟨r', t', hr', ht', hne, -⟩
  · simp at h
  · exact h.ne_assertion rfl
  · rw [hr] at hr'
    cases hr'
    rw [ht] at ht'
    cases ht'
    exact hne hst

theorem SchedInv.agree (h : SchedInv s) (hd : s.dispatches ≠ 1) : Agree s := by
  refine ⟨fun r hr => ?_, fun p t ht hp => ?_, fun r hr => ?_⟩
  · obtain ⟨t, ht, hc, hst⟩ := h.occupied hr
    refine ⟨fun l hl => ?_, t, ht, hc, by rw [hst, State.slice, if_neg hd]⟩
    rw [h.linked.mem, State.listOf_of ht, hc] at hl
    cases hl
  · obtain ⟨l, hl, hf⟩ := h.listed p t ht hp
    have hmem : ∀ l', p ∈ s.lists l' ↔ l' = l := fun l' => by
      rw [h.linked.mem, State.listOf_of ht, hl, Option.some.injEq, eq_comm]
    exact ⟨l, hl, hmem, List.count_eq_one_of_mem (h.linked.nodup l) ((hmem l).2 rfl), hf.iff⟩
  · obtain ⟨t, ht, -, hst⟩ := h.occupied hr
    exact schedule_assertion hr ht (by rw [hst, State.slice, if_neg hd])

theorem SchedInv.not_agree (h : SchedInv s) (hd : s.dispatches = 1) : ¬ Agree s := by
  intro ha
  cases hr : s.running_task with
  | none =>
    rw [h.first.1 hr] at hd
    cases hd
  | some r =>
    obtain ⟨t, ht, -, hst⟩ := h.occupied hr
    obtain ⟨-, t', ht', -, hst'⟩ := ha.running r hr
    rw [ht] at ht'
    cases ht'
    rw [hst, State.slice, if_pos hd] at hst'
    cases hst'

/-- **State and list agree, but for the first slice**: the first task that is dispatched keeps
    `TASK_READY` until another one runs. -/
theorem sched_agree_iff (hs : schedSys.Reach s) : Agree s ↔ s.dispatches ≠ 1 :=
  ⟨fun ha hd => (schedInv_reach hs).not_agree hd ha, (schedInv_reach hs).agree⟩

end Agree

/-- Two dispatches after `task_init`. -/
theorem sched_agree_iff_two : ∃ s₀ s₁ s₂, taskInit = .ok s₀ ∧ schedule s₀ = .ok s₁ ∧
    schedule s₁ = .ok s₂ ∧ Agree s₂ := by
  refine ⟨_, _, _, rfl, rfl, rfl, (sched_agree_iff (.step (a := .schedule) (.step (a := .schedule)
    (.init rfl) (.schedule ?_ rfl)) (.schedule ?_ rfl))).2 (by decide)⟩
  · intro r t hr
    cases hr
  · intro r t hr ht
    cases hr
    cases ht
    exact ⟨rfl, rfl⟩

/-- The first task ends the two others and then wants to yield: it can go on, but has not the state
    of a running task. -/
theorem sched_disagree : ∃ s, schedSys.Reach s ∧ ¬ Agree s ∧ s.running_task = some 0 ∧
    (∀ l, 0 ∉ s.lists l) ∧ schedule s = .error stateAssertion := by
  obtain ⟨s₀, s₁, s₂, s₃, h₀, h₁, h₂, h₃, h₄, hd, hr, f₀, f₁, f₂⟩ : ∃ s₀ s₁ s₂ s₃,
      taskInit = .ok s₀ ∧ schedule s₀ = .ok s₁ ∧ kernelThreadExit s₁ (some 1) 0 = .ok s₂ ∧
      kernelThreadExit s₂ (some 2) 0 = .ok s₃ ∧ schedule s₃ = .error stateAssertion ∧
      s₃.dispatches = 1 ∧ s₃.running_task = some 0 ∧ Free s₀ ∧ Free s₁ ∧ Free s₂ := by
    refine ⟨_, _, _, _, rfl, rfl, rfl, rfl, rfl, rfl, rfl, ?_, ?_, ?_⟩
    · intro r t hr
      cases hr
    · intro r t hr ht
      cases hr
      cases ht
      exact ⟨rfl, rfl⟩
    · intro r t hr ht
      cases hr
      cases ht
      exact ⟨rfl, rfl⟩
  have hreach : schedSys.Reach s₃ :=
    .step (a := .threadExit (some 2) 0) (.step (a := .threadExit (some 1) 0)
      (.step (a := .schedule) (.init h₀) (.schedule f₀ h₁)) (.threadExit f₁ h₂)) (.threadExit f₂ h₃)
  have hi := schedInv_reach hreach
  refine ⟨s₃, hreach, hi.not_agree hd, hr, fun l hl => ?_, h₄⟩
  obtain ⟨t, ht, hc, -⟩ := hi.occupied hr
  rw [hi.linked.mem, State.listOf_of ht, hc] at hl
  cases hl

end Rdix.Sched
