/-
  Mutexes (kernel/mutex.c) over the scheduler.

  * `mutexLock`, `mutexUnlock`; a call that blocks returns when its task runs again;
  * `schedule_lists`, `block_lists`, `unblock_lists`: what the scheduler does to other lists than
    the ready list;
  * `mutex_sim`: the mutex is a lock that serves its waiters in their order;
  * `mutex_exclusive`: exclusion, the flag, the waiters and the order, in every run.
-/
import Rdix.Kernel.Sched
import Rdix.Lib.FifoLock

namespace Rdix.Sched

open Function Transition FifoLock

/-! ## Mutexes -/

/-- `mutex_t`; `waiter` names its list. -/
structure Mutex where
  value : Bool
  waiter : ℕ

/-- The nodes of `mutex->waiter`. -/
def State.waiters (s : State) (mutex : Mutex) : List Pid := s.lists (.other mutex.waiter)

def mutexLock (mutex : Mutex) (s : State) : C (Mutex × State) :=
  if mutex.value = true ∧ (s.waiters mutex).length = 0 then return ({ mutex with value := false }, s)
  else do
    let s ← block s (some (.other mutex.waiter)) none .blocked
    return (mutex, s)

def mutexUnlock (mutex : Mutex) (s : State) : C (Mutex × State) :=
  if (s.waiters mutex).length = 0 then return ({ mutex with value := true }, s)
  else do
    let node ← deref "mutex->waiter->end.previous" (s.waiters mutex).getLast?
    let s ← unblock s node
    return (mutex, s)

/-- A mutex with the scheduler; `lock` records who called, who was let in and who came back. -/
structure MutexState where
  mutex : Mutex
  sched : State
  lock : Lock Pid

namespace MutexState
variable (x : MutexState)

def waiters : List Pid := x.sched.waiters x.mutex

/-- The test of `mutex_lock`. -/
abbrev Open : Prop := x.mutex.value = true ∧ x.waiters.length = 0

end MutexState

inductive MutexOp where
  | lock (p : Pid)
  | ret (p : Pid)
  | unlock (p : Pid)
  | other (op : Op)

/-- Only the owner unlocks, and what else happens leaves the waiters alone. -/
inductive MutexStep (x : MutexState) : MutexOp → MutexState → Prop where
  | lock {p y} : x.sched.running_task = some p → Free x.sched → p ∉ x.lock.calling →
      mutexLock x.mutex x.sched = .ok y →
      MutexStep x (.lock p) ⟨y.1, y.2, if x.Open then x.lock.take p else x.lock.wait p⟩
  | ret {p} : x.sched.running_task = some p → p ∈ x.lock.calling →
      MutexStep x (.ret p) { x with lock := x.lock.ret p }
  | unlock {p y} : x.sched.running_task = some p → Free x.sched → p ∉ x.lock.calling →
      x.lock.owner = some p → mutexUnlock x.mutex x.sched = .ok y →
      MutexStep x (.unlock p) ⟨y.1, y.2, x.lock.release p⟩
  | other {op s'} : Step x.sched op s' → s'.waiters x.mutex = x.waiters →
      MutexStep x (.other op) { x with sched := s' }

/-- `mutex_init`, at any time. -/
def mutexSys (waiter : ℕ) : Sys MutexState MutexOp where
  init x := x.mutex = ⟨true, waiter⟩ ∧ x.waiters = [] ∧ schedSys.Reach x.sched ∧ x.lock = .new
  step := MutexStep

/-! ## The other lists -/

section Lists
variable {s s' : State} {p : Pid} {l : ListId}

theorem removeNode_lists (h : s.Linked) (hp : p ∈ s.lists l) (hs : removeNode s p = .ok s') :
    s'.lists = update s.lists l ((s.lists l).erase p) := by
  obtain ⟨t, m, ht, hm, rfl, -⟩ := removeNode_ok hs
  rw [h.mem, State.listOf_of ht, hm] at hp
  cases hp
  rfl

theorem listPush_lists (hs : listPush s l p = .ok s') :
    s'.lists = update s.lists l (p :: s.lists l) := by
  obtain ⟨t, -, -, rfl, -⟩ := listPush_ok hs
  rfl

theorem switchTo_lists {next : Pid} {r : Option Pid} (hl : l ≠ .ready)
    (hs : switchTo s next r = .ok s') : s'.lists l = s.lists l := by
  cases r with
  | none =>
    cases hs
    rfl
  | some r =>
    obtain ⟨n, -, hs⟩ := bind_eq_ok.1 hs
    obtain ⟨c, -, hs⟩ := bind_eq_ok.1 hs
    split_ifs at hs
    · obtain ⟨s₁, h₁, hs⟩ := bind_eq_ok.1 hs
      cases hs
      show s₁.lists l = _
      rw [listPush_lists h₁, update_of_ne hl]
      rfl
    · cases hs
      rfl

/-- **`schedule` changes the ready list only.** -/
theorem schedule_lists (h : s.Linked) (hl : l ≠ .ready) (hs : schedule s = .ok s') :
    s'.lists l = s.lists l := by
  cases hlast : (s.lists .ready).getLast? with
  | none =>
    simp only [schedule, hlast] at hs
    obtain ⟨-, hs⟩ := cassert_bind_eq_ok.1 hs
    obtain ⟨r, -, hs⟩ := bind_eq_ok.1 hs
    obtain ⟨t, -, hs⟩ := bind_eq_ok.1 hs
    obtain ⟨-, hs⟩ := cassert_bind_eq_ok.1 hs
    cases hs
    rfl
  | some next =>
    simp only [schedule, hlast] at hs
    obtain ⟨s₁, h₁, hs⟩ := bind_eq_ok.1 hs
    rw [switchTo_lists hl hs, removeNode_lists h (List.mem_of_getLast? hlast) h₁, update_of_ne hl]

/-- A task that blocks itself is in the list before another one is scheduled. -/
theorem block_pushes {list : Option ListId} {st : TaskState} (h : SchedInv s)
    (hp : s.running_task = some p) (hs : block s list none st = .ok s') :
    ∃ t s₁, s.task_bucket p = some t ∧
      Moved s s₁ p { t with state := st, container := some (list.getD .block) } ∧
      schedule s₁ = .ok s' ∧ s₁.jiffies = s.jiffies ∧
      s₁.lists = update s.lists (list.getD .block) (p :: s.lists (list.getD .block)) := by
  obtain ⟨q, hq, hs⟩ := deref_bind_eq_ok hs
  obtain rfl : p = q := Option.some.inj (hp.symm.trans hq)
  obtain ⟨t, ht, hs⟩ := bind_eq_ok.1 hs
  rw [owner_eq_ok] at ht
  have hc := h.off p t hp ht
  dsimp only at hs
  rw [if_neg (by rw [hc]; simp), pure_eq_ok, ok_bind] at hs
  obtain ⟨s₁, h₁, hs⟩ := bind_eq_ok.1 hs
  obtain ⟨u, hu, -, rfl, m⟩ := listPush_ok h₁
  have m₀ := moved_put (u := { t with state := st }) ht rfl
  rw [m₀.at] at hu
  cases hu
  exact ⟨t, _, ht, m₀.trans m, hs, rfl, rfl⟩

/-- **A task that blocks itself is the first of the list.** -/
theorem block_lists {list : Option ListId} {st : TaskState} (h : SchedInv s)
    (hp : s.running_task = some p) (hl : list.getD .block ≠ .ready)
    (hs : block s list none st = .ok s') :
    s'.lists (list.getD .block) = p :: s.lists (list.getD .block) := by
  obtain ⟨_, _, -, m, hsch, -, hlists⟩ := block_pushes h hp hs
  rw [schedule_lists (m.linked h.linked) hl hsch, hlists, update_self]

theorem block_lists_of_ne {list : Option ListId} {st : TaskState} (h : SchedInv s)
    (hp : s.running_task = some p) (hl : l ≠ .ready) (hne : l ≠ list.getD .block)
    (hs : block s list none st = .ok s') : s'.lists l = s.lists l := by
  obtain ⟨_, _, -, m, hsch, -, hlists⟩ := block_pushes h hp hs
  rw [schedule_lists (m.linked h.linked) hl hsch, hlists, update_of_ne hne]

theorem unblock_pushes {m : ListId} (h : s.Linked) (hp : p ∈ s.lists l) (hm : m ≠ .ready)
    (hs : unblock s p = .ok s') : s'.lists m = update s.lists l ((s.lists l).erase p) m := by
  obtain ⟨s₁, h₁, hs⟩ := bind_eq_ok.1 hs
  obtain ⟨s₂, h₂, hs⟩ := bind_eq_ok.1 hs
  obtain ⟨t, -, hs⟩ := bind_eq_ok.1 hs
  cases hs
  show s₂.lists m = _
  rw [listPush_lists h₂, update_of_ne hm, removeNode_lists h hp h₁]

/-- **A task that is unblocked leaves its list.** -/
theorem unblock_lists (h : s.Linked) (hp : p ∈ s.lists l) (hl : l ≠ .ready)
    (hs : unblock s p = .ok s') : s'.lists l = (s.lists l).erase p := by
  rw [unblock_pushes h hp hl hs, update_self]

theorem unblock_lists_of_ne {m : ListId} (h : s.Linked) (hp : p ∈ s.lists l) (hm : m ≠ .ready)
    (hne : m ≠ l) (hs : unblock s p = .ok s') : s'.lists m = s.lists m := by
  rw [unblock_pushes h hp hm hs, update_of_ne hne]

/-- A task in a list can be unblocked. -/
theorem unblock_total (h : s.Linked) (hp : p ∈ s.lists l) : ∃ s', unblock s p = .ok s' := by
  obtain ⟨t, ht, hc⟩ := Option.bind_eq_some_iff.1 ((h.mem l p).1 hp)
  have hrem : removeNode s p = .ok (s.unlink p t l) := by
    rw [removeNode, owner_eq_ok.2 ht, ok_bind, hc]
    rfl
  have hunlinked : (s.unlink p t l).task_bucket p = some { t with container := none } :=
    update_self ..
  have hpush : ∃ s₂, listPush (s.unlink p t l) .ready p = .ok s₂ := by
    rw [listPush, owner_eq_ok.2 hunlinked, ok_bind]
    exact ⟨_, rfl⟩
  obtain ⟨s₂, h₂⟩ := hpush
  obtain ⟨_, -, -, -, m⟩ := listPush_ok h₂
  rw [unblock, hrem, ok_bind, h₂, ok_bind, owner_eq_ok.2 m.at]
  exact ⟨_, rfl⟩

theorem mutexLock_frame {mutex : Mutex} {y : Mutex × State} (h : SchedInv s)
    (hp : s.running_task = some p) (hl : l ≠ .ready) (hne : l ≠ .other mutex.waiter)
    (hs : mutexLock mutex s = .ok y) : y.1.waiter = mutex.waiter ∧ y.2.lists l = s.lists l := by
  unfold mutexLock at hs
  split_ifs at hs
  · cases hs
    exact ⟨rfl, rfl⟩
  · obtain ⟨s', hb, hs⟩ := bind_eq_ok.1 hs
    cases hs
    exact ⟨rfl, block_lists_of_ne h hp hl (by exact hne) hb⟩

theorem mutexUnlock_frame {mutex : Mutex} {y : Mutex × State} (h : s.Linked) (hl : l ≠ .ready)
    (hne : l ≠ .other mutex.waiter) (hs : mutexUnlock mutex s = .ok y) :
    y.1.waiter = mutex.waiter ∧ y.2.lists l = s.lists l := by
  unfold mutexUnlock at hs
  split_ifs at hs
  · cases hs
    exact ⟨rfl, rfl⟩
  · obtain ⟨node, hnode, hs⟩ := deref_bind_eq_ok hs
    obtain ⟨s', hu, hs⟩ := bind_eq_ok.1 hs
    cases hs
    exact ⟨rfl, unblock_lists_of_ne h (List.mem_of_getLast? hnode) hl hne hu⟩

end Lists

/-! ## A lock that serves in order -/

/-- The mutex and the lock it stands for. -/
structure MutexInv (x : MutexState) : Prop where
  sched : SchedInv x.sched
  lock : Inv x.lock
  /-- the flag says that there is no owner -/
  value : x.mutex.value = true ↔ x.lock.owner = none
  /-- waiters are pushed in front and served from behind -/
  waiters : x.waiters = x.lock.queue.reverse

/-- The part of the lock in a step. -/
def MutexOp.fifo : MutexOp → FifoLock.Op Pid
  | .lock p => .lock p
  | .ret p => .ret p
  | .unlock p => .unlock p
  | .other _ => .idle

section Simulation
variable {x x' : MutexState} {p : Pid} {y : Mutex × State}

/-- The task that runs does not wait. -/
theorem MutexInv.not_waiting (h : MutexInv x) (hp : x.sched.running_task = some p) :
    p ∉ x.lock.queue := by
  intro hq
  obtain ⟨t, ht, hc, -⟩ := h.sched.occupied hp
  have hmem : p ∈ x.waiters := by
    rw [h.waiters]
    exact List.mem_reverse.2 hq
  rw [MutexState.waiters, State.waiters, h.sched.linked.mem, State.listOf_of ht, hc] at hmem
  cases hmem

/-- The test of `mutex_lock` is whether there is no owner. -/
theorem MutexInv.open_iff (h : MutexInv x) : x.Open ↔ x.lock.owner = none := by
  rw [← h.value]
  refine ⟨fun ho => ho.1, fun hv => ⟨hv, ?_⟩⟩
  have hq : x.lock.queue = [] := by
    by_contra hne
    exact h.lock.queue hne (h.value.1 hv)
  simp [h.waiters, hq]

theorem MutexInv.mutexLock (h : MutexInv x) (hp : x.sched.running_task = some p)
    (hc : p ∉ x.lock.calling) (hs : mutexLock x.mutex x.sched = .ok y) :
    MutexInv ⟨y.1, y.2, if x.Open then x.lock.take p else x.lock.wait p⟩ := by
  have hs : (if x.Open then _ else _) = _ := hs
  by_cases ho : x.Open
  · rw [if_pos ho] at hs ⊢
    cases hs
    exact ⟨h.sched, h.lock.take (h.open_iff.1 ho), by simp [Lock.take], h.waiters⟩
  · rw [if_neg ho] at hs ⊢
    obtain ⟨s, hb, hs⟩ := bind_eq_ok.1 hs
    cases hs
    obtain ⟨_, _, _, -, -, -, hm, hsch⟩ := h.sched.block_cases (by simp) (by simp) (by simp)
      (Or.inl rfl) hb
    refine ⟨schedInv_schedule hm hsch, h.lock.wait hc fun hn => ho (h.open_iff.2 hn), h.value, ?_⟩
    have hlists := block_lists h.sched hp (by simp) hb
    refine hlists.trans ?_
    rw [Lock.wait, List.reverse_append]
    exact congrArg (p :: ·) h.waiters

theorem MutexInv.mutexUnlock (h : MutexInv x) (hc : p ∉ x.lock.calling)
    (ho : x.lock.owner = some p) (hs : mutexUnlock x.mutex x.sched = .ok y) :
    MutexInv ⟨y.1, y.2, x.lock.release p⟩ := by
  have hlock := h.lock.release hc ho
  have hw := h.waiters
  unfold Sched.mutexUnlock at hs
  cases hq : x.lock.queue with
  | nil =>
    have hnil : x.sched.waiters x.mutex = [] := hw.trans (by rw [hq]; rfl)
    rw [if_pos (by rw [hnil]; rfl)] at hs
    cases hs
    exact ⟨h.sched, hlock, by simp [Lock.release, hq], hnil.trans (by rw [Lock.release, hq]; rfl)⟩
  | cons q qs =>
    have hcons : x.sched.waiters x.mutex = qs.reverse ++ [q] := hw.trans (by rw [hq, List.reverse_cons])
    rw [if_neg (by rw [hcons]; simp), hcons, List.getLast?_concat, deref_some, ok_bind] at hs
    obtain ⟨s, hu, hs⟩ := bind_eq_ok.1 hs
    cases hs
    have hmem : q ∈ x.sched.lists (.other x.mutex.waiter) := by
      rw [show x.sched.lists (.other x.mutex.waiter) = _ from hcons]
      simp
    have hnodup := h.lock.nodup
    rw [hq] at hnodup
    have hlists := unblock_lists h.sched.linked hmem (by simp) hu
    refine ⟨h.sched.unblock hu, hlock, ?_, hlists.trans ?_⟩
    · have hv : x.mutex.value ≠ true := by
        rw [Ne, h.value, ho]
        simp
      simp [Lock.release, hq, hv]
    · rw [show x.sched.lists (.other x.mutex.waiter) = _ from hcons, List.erase_append_right,
        List.erase_cons_head, List.append_nil, Lock.release, hq]
      · rfl
      · simpa using (List.nodup_cons.1 hnodup).1

/-- **A step of the mutex is a step of the lock.** -/
theorem MutexInv.step {op : MutexOp} (h : MutexInv x) (hs : MutexStep x op x') :
    FifoLock.Step x.lock op.fifo x'.lock ∧ MutexInv x' := by
  cases hs with
  | lock hp _ hc hl =>
    refine ⟨?_, h.mutexLock hp hc hl⟩
    by_cases ho : x.Open
    · dsimp only
      rw [if_pos ho]
      exact .take hc (h.open_iff.1 ho)
    · dsimp only
      rw [if_neg ho]
      exact .wait hc fun hn => ho (h.open_iff.2 hn)
  | ret hp hc =>
    have hq := h.not_waiting hp
    exact ⟨.ret hc hq, h.sched, h.lock.ret hc hq, h.value, h.waiters⟩
  | unlock hp _ hc ho hu => exact ⟨.release hc ho, h.mutexUnlock hc ho hu⟩
  | other hs hw => exact ⟨.idle, h.sched.step hs, h.lock, h.value, hw.trans h.waiters⟩

theorem mutexInv_init {waiter : ℕ} (h : (mutexSys waiter).init x) : MutexInv x := by
  obtain ⟨hm, hw, hr, hl⟩ := h
  refine ⟨schedInv_reach hr, hl ▸ inv_new, ?_, ?_⟩
  · simp [hm, hl, Lock.new]
  · rw [hw, hl]
    rfl

/-- **The mutex is a lock that serves its waiters in their order.** -/
theorem mutex_sim (waiter : ℕ) : Sim (mutexSys waiter) lockSys MutexOp.fifo
    fun x l => MutexInv x ∧ x.lock = l where
  init x hx := ⟨.new, rfl, mutexInv_init hx, hx.2.2.2⟩
  step x op x' l hR hs := by
    obtain ⟨hi, rfl⟩ := hR
    obtain ⟨hl, hi'⟩ := hi.step hs
    exact ⟨x'.lock, hl, hi', rfl⟩

/-- **Mutexes are exclusive and fair**: one task is inside, the flag is set just when there is no
    owner, waiters wait for an owner, and the calls are granted, and return, in their order. -/
theorem mutex_exclusive {waiter : ℕ} (h : (mutexSys waiter).Reach x) :
    (∀ p ∈ x.lock.inside, ∀ q ∈ x.lock.inside, p = q) ∧
    (∀ p ∈ x.lock.inside, x.lock.owner = some p) ∧
    (x.mutex.value = true ↔ x.lock.owner = none) ∧
    (x.waiters ≠ [] → x.lock.owner ≠ none) ∧
    x.lock.calls = x.lock.grants ++ x.waiters.reverse ∧ x.lock.returns <+: x.lock.calls := by
  obtain ⟨l, hl, hi, rfl⟩ := (mutex_sim waiter).reach h
  have hlock := inv_reach hl
  refine ⟨fun p hp q hq => hlock.exclusive hp hq, hlock.inside, hi.value, fun hw => ?_, ?_,
    hlock.returns_prefix⟩
  · refine hlock.queue fun hq => hw ?_
    rw [hi.waiters, hq]
    rfl
  · rw [hi.waiters, List.reverse_reverse]
    exact hlock.order

end Simulation

/-- The first task has the mutex, the second one waits, gets it and comes back with it. -/
theorem mutex_exclusive_two : ∃ x, (mutexSys 0).Reach x ∧ x.lock.returns = [0, 1] ∧
    1 ∈ x.lock.inside ∧ (∀ p ∈ x.lock.inside, ∀ q ∈ x.lock.inside, p = q) ∧
    x.lock.returns <+: x.lock.calls := by
  obtain ⟨s₀, s₁, s₂, s₃, s₄, s₅, s₆, s₇, h₀, h₁, h₂, h₃, h₄, h₅, h₆, h₇, r₁, r₂, r₄, r₇, f₀, f₁, f₂,
    f₃, f₄, f₅, f₆, w₀, w₁, w₂, w₃, w₄, w₅, w₆, w₇⟩ :
      ∃ s₀ s₁ s₂ s₃ s₄ s₅ s₆ s₇, taskInit = .ok s₀ ∧ schedule s₀ = .ok s₁ ∧ schedule s₁ = .ok s₂ ∧
        mutexLock ⟨false, 0⟩ s₂ = .ok (⟨false, 0⟩, s₃) ∧ schedule s₃ = .ok s₄ ∧
        mutexUnlock ⟨false, 0⟩ s₄ = .ok (⟨false, 0⟩, s₅) ∧ schedule s₅ = .ok s₆ ∧
        schedule s₆ = .ok s₇ ∧ s₁.running_task = some 0 ∧ s₂.running_task = some 1 ∧
        s₄.running_task = some 0 ∧ s₇.running_task = some 1 ∧ Free s₀ ∧ Free s₁ ∧ Free s₂ ∧
        Free s₃ ∧ Free s₄ ∧ Free s₅ ∧ Free s₆ ∧ s₀.lists (.other 0) = [] ∧
        s₁.lists (.other 0) = [] ∧ s₂.lists (.other 0) = [] ∧ s₃.lists (.other 0) = [1] ∧
        s₄.lists (.other 0) = [1] ∧ s₅.lists (.other 0) = [] ∧ s₆.lists (.other 0) = [] ∧
        s₇.lists (.other 0) = [] := by
    refine ⟨_, _, _, _, _, _, _, _, rfl, rfl, rfl, rfl, rfl, rfl, rfl, rfl, rfl, rfl, rfl, rfl, ?_,
      free_of rfl rfl rfl, free_of rfl rfl rfl, free_of rfl rfl rfl, free_of rfl rfl rfl,
      free_of rfl rfl rfl, free_of rfl rfl rfl, rfl, rfl, rfl, rfl, rfl, rfl, rfl, rfl⟩
    intro r t hr
    cases hr
  let l₁ : Lock Pid := Lock.new.take 0
  let l₂ : Lock Pid := l₁.wait 1
  let l₃ : Lock Pid := l₂.release 0
  have hreach₁ : (mutexSys 0).Reach ⟨⟨false, 0⟩, s₁, l₁⟩ := by
    have hinit : (mutexSys 0).Reach ⟨⟨true, 0⟩, s₁, .new⟩ :=
      .init ⟨rfl, w₁, .step (a := .schedule) (.init h₀) (.schedule f₀ h₁), rfl⟩
    have hopen : MutexState.Open ⟨⟨true, 0⟩, s₁, .new⟩ := ⟨rfl, congrArg List.length w₁⟩
    have hlock := MutexStep.lock (x := ⟨⟨true, 0⟩, s₁, .new⟩) r₁ f₁ (Set.notMem_empty _)
      (show mutexLock ⟨true, 0⟩ s₁ = .ok (⟨false, 0⟩, s₁) from if_pos hopen)
    rw [if_pos hopen] at hlock
    exact .step hinit hlock
  have hreach₃ : (mutexSys 0).Reach ⟨⟨false, 0⟩, s₃, l₂⟩ := by
    have hclosed : ¬ MutexState.Open ⟨⟨false, 0⟩, s₂, l₁⟩ := fun ho => by cases ho.1
    have hlock := MutexStep.lock (x := ⟨⟨false, 0⟩, s₂, l₁⟩) r₂ f₂ (Set.notMem_empty _) h₃
    rw [if_neg hclosed] at hlock
    exact .step (.step (a := .other .schedule) hreach₁ (.other (.schedule f₁ h₂) (w₂.trans w₁.symm)))
      hlock
  have hreach₅ : (mutexSys 0).Reach ⟨⟨false, 0⟩, s₅, l₃⟩ := by
    have hunlock := MutexStep.unlock (x := ⟨⟨false, 0⟩, s₄, l₂⟩) r₄ f₄ (by simp [l₁, l₂, Lock.wait,
      Lock.take, Lock.new]) rfl h₅
    exact .step (.step (a := .other .schedule) hreach₃ (.other (.schedule f₃ h₄) (w₄.trans w₃.symm)))
      hunlock
  have hreach₇ : (mutexSys 0).Reach ⟨⟨false, 0⟩, s₇, l₃.ret 1⟩ :=
    .step (.step (a := .other .schedule) (.step (a := .other .schedule) hreach₅
      (.other (.schedule f₅ h₆) (w₆.trans w₅.symm))) (.other (.schedule f₆ h₇) (w₇.trans w₆.symm)))
      (.ret r₇ (Set.mem_insert _ _))
  exact ⟨_, hreach₇, rfl, Set.mem_insert _ _, (mutex_exclusive hreach₇).1,
    (mutex_exclusive hreach₇).2.2.2.2.2⟩

end Rdix.Sched
