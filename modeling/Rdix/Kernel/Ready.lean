/-
  The ready list is a queue (kernel/task.c): tasks are dispatched in the order they came in.

  * `State.queue`: the tasks of the ready list, the one that has been in it longest first;
  * `schedule_queue`: what `schedule` takes from the queue and what it puts behind it;
  * `Advances`: a step of the queue;
  * `History`: the scheduler with who came into the ready list and who was dispatched;
  * `ready_fifo`: nobody is overtaken, in every run.
-/
import Rdix.Kernel.Mutex

namespace Rdix.Sched

open Function Transition

/-! ## The queue -/

/-- The ready list from `end.previous`, where `list_popback` takes a node, to `end.next`. -/
def State.queue (s : State) : List Pid := (s.lists .ready).reverse

/-- The queue loses its first tasks, `out`, and gets others, `new`, behind it. -/
def Advances (s s' : State) (out new : List Pid) : Prop :=
  ∃ rest, s.queue = out ++ rest ∧ s'.queue = rest ++ new

section Queue
variable {s s' s₁ : State} {p : Pid} {t : Tcb} {l : ListId} {out new : List Pid}

theorem State.mem_queue : p ∈ s.queue ↔ p ∈ s.lists .ready := List.mem_reverse

theorem State.Linked.nodup_queue (h : s.Linked) : s.queue.Nodup :=
  List.nodup_reverse.2 (h.nodup .ready)

theorem State.queue_of (h : s'.lists .ready = s.lists .ready) : s'.queue = s.queue := by
  rw [State.queue, h, State.queue]

/-- `list_push` puts a task behind all others. -/
theorem State.queue_push (h : s'.lists .ready = p :: s.lists .ready) :
    s'.queue = s.queue ++ [p] := by
  rw [State.queue, h, List.reverse_cons, State.queue]

theorem Advances.refl (h : s'.queue = s.queue) : Advances s s' [] [] :=
  ⟨s.queue, rfl, by rw [h, List.append_nil]⟩

theorem Advances.push (h : s'.queue = s.queue ++ [p]) : Advances s s' [] [p] :=
  ⟨s.queue, rfl, h⟩

theorem Advances.eq (h : Advances s s' out new) : s.queue ++ new = out ++ s'.queue := by
  obtain ⟨rest, hs, hs'⟩ := h
  rw [hs, hs', List.append_assoc]

/-- The switch takes nothing from the queue; it puts the last task behind, unless that is in a
    list. -/
theorem switchTo_queue {next : Pid} {r : Option Pid} (hne : r ≠ some next)
    (hs : switchTo s next r = .ok s') : s'.running_task = some next ∧
      s'.dispatches = s.dispatches + 1 ∧
      s'.queue = s.queue ++ (r.filter fun q => s.listOf q = none).toList := by
  cases r with
  | none =>
    cases hs
    exact ⟨rfl, rfl, (List.append_nil _).symm⟩
  | some r =>
    have hnr : r ≠ next := fun he => hne (by rw [he])
    obtain ⟨n, -, hs⟩ := bind_eq_ok.1 hs
    obtain ⟨c, hc, hs⟩ := bind_eq_ok.1 hs
    rw [owner_eq_ok, show (s.put next { n with state := .running }).task_bucket r =
      s.task_bucket r from update_of_ne hnr ..] at hc
    rw [Option.filter_some, State.listOf_of hc]
    split_ifs at hs with hoff
    · obtain ⟨s₁, h₁, hs⟩ := bind_eq_ok.1 hs
      have hlists := congrFun (listPush_lists h₁) .ready
      obtain ⟨_, -, -, -, m⟩ := listPush_ok h₁
      rw [update_self] at hlists
      cases hs
      rw [hoff]
      exact ⟨rfl, congrArg (· + 1) m.dispatches, State.queue_push hlists⟩
    · cases hs
      rw [decide_eq_false hoff]
      exact ⟨rfl, rfl, (List.append_nil _).symm⟩

/-- **`schedule` dispatches the task that has been ready longest**, and puts the last one behind
    all others if it is in no list. -/
theorem schedule_queue (h : Midway s) (hs : schedule s = .ok s') :
    s.queue = [] ∧ s' = s ∨ ∃ p rest, s.queue = p :: rest ∧ s'.running_task = some p ∧
      s'.dispatches = s.dispatches + 1 ∧
      s'.queue = rest ++ (s.running_task.filter fun r => s.listOf r = none).toList := by
  cases hlast : (s.lists .ready).getLast? with
  | none =>
    simp only [schedule, hlast] at hs
    obtain ⟨-, hs⟩ := cassert_bind_eq_ok.1 hs
    obtain ⟨r, -, hs⟩ := bind_eq_ok.1 hs
    obtain ⟨t, -, hs⟩ := bind_eq_ok.1 hs
    obtain ⟨-, hs⟩ := cassert_bind_eq_ok.1 hs
    cases hs
    rw [List.getLast?_eq_none_iff] at hlast
    exact Or.inl ⟨by rw [State.queue, hlast, List.reverse_nil], rfl⟩
  | some next =>
    simp only [schedule, hlast] at hs
    obtain ⟨s₁, h₁, hs⟩ := bind_eq_ok.1 hs
    have hmem : next ∈ s.lists .ready := List.mem_of_getLast? hlast
    have hlists := removeNode_lists h.linked hmem h₁
    obtain ⟨n, l, hn, hl, rfl, m⟩ := removeNode_ok h₁
    have hready : s.listOf next = some .ready := (h.linked.mem _ _).1 hmem
    have hne : s.running_task ≠ some next := by
      intro hr
      obtain ⟨t, ht, hcase⟩ := h.running next hr
      rw [State.listOf_of ht] at hready
      rcases hcase with ⟨hc, -⟩ | ⟨-, hc⟩
      · rw [hready] at hc
        cases hc
      · exact hc hready
    obtain ⟨xs, hxs⟩ := List.getLast?_eq_some_iff.1 hlast
    have hnodup := h.linked.nodup .ready
    rw [hxs] at hnodup
    have hnext : next ∉ xs := fun hx => (List.nodup_append.1 hnodup).2.2 _ hx _ (by simp) rfl
    have hqueue : (s.unlink next n l).queue = xs.reverse := by
      rw [State.queue, hlists, update_self, hxs, List.erase_append_right _ hnext,
        List.erase_cons_head, List.append_nil]
    have hoff : (s.running_task.filter fun r => (s.unlink next n l).listOf r = none) =
        s.running_task.filter fun r => s.listOf r = none := by
      cases hr : s.running_task with
      | none => rfl
      | some r =>
        have hrn : r ≠ next := fun he => hne (by rw [hr, he])
        rw [Option.filter_some, Option.filter_some, State.listOf_update m.bucket, if_neg hrn]
    obtain ⟨hrun, hd, hq⟩ := switchTo_queue hne hs
    refine Or.inr ⟨next, xs.reverse, ?_, hrun, hd, ?_⟩
    · rw [State.queue, hxs, List.reverse_append]
      rfl
    · rw [hq, hqueue]
      exact congrArg (fun o => xs.reverse ++ Option.toList o) hoff

/-- A task that yields goes behind all others. -/
theorem schedule_yields {rest : List Pid} (h : SchedInv s) (hq : s.queue = p :: rest)
    (hs : schedule s = .ok s') :
    s'.running_task = some p ∧ s'.queue = rest ++ s.running_task.toList := by
  have hoff : (s.running_task.filter fun r => s.listOf r = none) = s.running_task := by
    cases hr : s.running_task with
    | none => rfl
    | some r =>
      obtain ⟨t, ht, hc, -⟩ := h.occupied hr
      rw [Option.filter_some, State.listOf_of ht, hc]
      rfl
  rcases schedule_queue h.toMidway hs with ⟨he, -⟩ | ⟨q, rest', hq', hrun, -, hqueue⟩
  · rw [hq] at he
    cases he
  · rw [hq] at hq'
    cases hq'
    exact ⟨hrun, by rw [hqueue, hoff]⟩

/-- A task that has gone into another list does not go into the queue. -/
theorem schedule_leaves {rest : List Pid} (h : Midway s) (hp : s.running_task = some p)
    (hl : s.listOf p = some l) (hs : schedule s = .ok s') :
    (s.queue = [] → s' = s) ∧
      ∀ q, s.queue = q :: rest → s'.running_task = some q ∧ s'.queue = rest := by
  have hoff : (s.running_task.filter fun r => s.listOf r = none) = none := by
    rw [hp, Option.filter_some, hl]
    rfl
  rcases schedule_queue h hs with ⟨he, rfl⟩ | ⟨q, rest', hq', hrun, -, hqueue⟩
  · refine ⟨fun _ => rfl, fun q hq => ?_⟩
    rw [hq] at he
    cases he
  · refine ⟨fun he => ?_, fun r hr => ?_⟩
    · rw [hq'] at he
      cases he
    · rw [hq'] at hr
      cases hr
      exact ⟨hrun, by rw [hqueue, hoff]; exact List.append_nil _⟩

end Queue

/-! ## The operations -/

section Operations
variable {s s' : State} {p : Pid} {t : Tcb}

/-- The running task blocks itself. -/
theorem SchedInv.block_self_pushes {list : Option ListId} {task : Option Pid} {st : TaskState}
    (h : SchedInv s) (hself : blocking s task = s.running_task) (h₁ : list ≠ some .ready)
    (h₂ : list ≠ some .sleep) (h₃ : list ≠ some .died) (hst : st = .blocked ∨ st = .waiting)
    (hs : block s list task st = .ok s') :
    ∃ r t s₁, s.running_task = some r ∧ s.task_bucket r = some t ∧
      Moved s s₁ r { t with state := st, container := some (list.getD .block) } ∧ Midway s₁ ∧
      schedule s₁ = .ok s' ∧ s₁.jiffies = s.jiffies ∧
      s₁.lists = update s.lists (list.getD .block) (r :: s.lists (list.getD .block)) := by
  have hnone : block s list task st = block s list none st := by
    have he : (task <|> s.running_task) = (none <|> s.running_task) := hself
    rw [block, block, he]
  rw [hnone] at hs
  obtain ⟨r, hr, -⟩ := deref_bind_eq_ok hs
  obtain ⟨t, s₁, ht, m, hsch, hj, hl⟩ := block_pushes h hr hs
  obtain ⟨hfits, hne⟩ := block_fits h₁ h₂ h₃ hst
  exact ⟨r, t, s₁, hr, ht, m,
    h.moved_running m hr (h.pid r t ht) ⟨_, rfl, hfits⟩ (by simpa using hne), hsch, hj, hl⟩

/-- A task that is unblocked is behind the ready ones. -/
theorem unblock_ready {l : ListId} (h : s.Linked) (hp : p ∈ s.lists l) (hl : l ≠ .ready)
    (hs : unblock s p = .ok s') : s'.lists .ready = p :: s.lists .ready := by
  obtain ⟨s₁, h₁, hs⟩ := bind_eq_ok.1 hs
  obtain ⟨s₂, h₂, hs⟩ := bind_eq_ok.1 hs
  obtain ⟨t, -, hs⟩ := bind_eq_ok.1 hs
  cases hs
  show s₂.lists .ready = _
  rw [listPush_lists h₂, update_self, removeNode_lists h hp h₁, update_of_ne hl.symm]

/-- `ticks` of `task_sleep`. -/
def ceilTicks (time : ℕ) : ℕ := time / jiffy + if time % jiffy ≠ 0 then 1 else 0

theorem listInsertNode_lists {l : ListId} (hs : listInsertNode s l p = .ok s') :
    s'.lists = update s.lists l (listInsert (valueOf s') greater p (s.lists l)) := by
  obtain ⟨t, ht, hs⟩ := bind_eq_ok.1 hs
  obtain ⟨-, hs⟩ := cassert_bind_eq_ok.1 hs
  rw [owner_eq_ok] at ht
  cases hs
  have hv : valueOf (s.link p t l (listInsert (valueOf s) greater p (s.lists l))) = valueOf s := by
    ext q
    by_cases hq : q = p
    · rw [valueOf, valueOf, hq, ht, show State.task_bucket _ p = _ from update_self ..]
      rfl
    · rw [valueOf, valueOf, show State.task_bucket _ q = _ from update_of_ne hq ..]
  rw [hv]
  rfl

/-- A task that sleeps is in the sleep list before another one is scheduled. -/
theorem SchedInv.taskSleep_pushes {time : ℕ} (h : SchedInv s) (hs : taskSleep s time = .ok s') :
    ∃ r t s₁, s.running_task = some r ∧ s.task_bucket r = some t ∧
      Moved s s₁ r { t with
        value := u32 (s.jiffies + ceilTicks time), state := .sleeping, container := some .sleep } ∧
      Midway s₁ ∧ schedule s₁ = .ok s' ∧ s₁.jiffies = s.jiffies ∧
      s₁.lists = update s.lists .sleep (listInsert (valueOf s₁) greater r (s.lists .sleep)) := by
  obtain ⟨r, hr, hs⟩ := deref_bind_eq_ok hs
  obtain ⟨t, ht, hs⟩ := bind_eq_ok.1 hs
  rw [owner_eq_ok] at ht
  obtain ⟨s₁, h₁, hs⟩ := bind_eq_ok.1 hs
  have m₀ := moved_put (u := { t with value := u32 (s.jiffies + ceilTicks time)
                                      state := .sleeping }) ht rfl
  have hlists := listInsertNode_lists h₁
  have m := m₀.trans (listInsertNode_ok h₁ m₀.at (h.off r t hr ht))
  refine ⟨r, t, s₁, hr, ht, m,
    h.moved_running m hr (h.pid r t ht) ⟨.sleep, rfl, rfl⟩ (by simp), hs, ?_, hlists⟩
  obtain ⟨u, -, h₁⟩ := bind_eq_ok.1 h₁
  obtain ⟨-, h₁⟩ := cassert_bind_eq_ok.1 h₁
  cases h₁
  rfl

/-- A new task is behind the ready ones. -/
theorem taskCreate_lists {priority : ℕ} (hs : taskCreate s priority = .ok s') :
    ∃ p, s'.lists = update s.lists .ready (p :: s.lists .ready) := by
  obtain ⟨r, -, hs⟩ := bind_eq_ok.1 hs
  have hl := listPush_lists hs
  exact ⟨r.1, hl⟩

theorem sysFork_lists (hs : sysFork s = .ok s') :
    ∃ p, s'.lists = update s.lists .ready (p :: s.lists .ready) := by
  obtain ⟨_, -, hs⟩ := deref_bind_eq_ok hs
  obtain ⟨_, -, hs⟩ := bind_eq_ok.1 hs
  obtain ⟨r, -, hs⟩ := bind_eq_ok.1 hs
  obtain ⟨-, hs⟩ := kept_bind_ok hs
  have hl := listPush_lists hs
  exact ⟨r.1, hl⟩

/-- `weakup` puts the first sleeper, if it is due, into the ready list. -/
theorem weakup_pushes (h : SchedInv s) (hs : weakup s = .ok s') :
    s' = s ∧ (∀ p ∈ (s.lists .sleep).head?, s.jiffies < valueOf s p) ∨
      ∃ p rest t, s.lists .sleep = p :: rest ∧ valueOf s p ≤ s.jiffies ∧
        s.task_bucket p = some t ∧
        Moved s s' p { t with state := .ready, container := some .ready } ∧
        s'.jiffies = s.jiffies ∧
        s'.lists = update (update s.lists .sleep rest) .ready (p :: s.lists .ready) := by
  cases hh : s.lists .sleep with
  | nil =>
    simp only [weakup, hh, List.head?_nil] at hs
    cases hs
    exact Or.inl ⟨rfl, by simp⟩
  | cons p rest =>
    simp only [weakup, hh, List.head?_cons] at hs
    obtain ⟨t, ht, hs⟩ := bind_eq_ok.1 hs
    rw [owner_eq_ok] at ht
    have hv : valueOf s p = t.value := by
      rw [valueOf, ht]
      rfl
    split_ifs at hs with hdue
    · obtain ⟨s₁, h₁, hs⟩ := bind_eq_ok.1 hs
      have hmem : p ∈ s.lists .sleep := by
        rw [hh]
        exact List.mem_cons_self
      have hl₁ := removeNode_lists h.linked hmem h₁
      obtain ⟨t₀, l, ht₀, -, rfl, m₁⟩ := removeNode_ok h₁
      rw [ht] at ht₀
      cases ht₀
      obtain ⟨t₁, ht₁, hs⟩ := bind_eq_ok.1 hs
      rw [owner_eq_ok, m₁.at] at ht₁
      cases ht₁
      have m₂ := m₁.trans (moved_put (u := { t with state := .ready, container := none }) m₁.at rfl)
      have hl₂ := listPush_lists hs
      obtain ⟨t₂, ht₂, -, rfl, m₃⟩ := listPush_ok hs
      rw [m₂.at] at ht₂
      cases ht₂
      refine Or.inr ⟨p, rest, t, rfl, by rw [hv]; exact hdue, ht, m₂.trans m₃, rfl, ?_⟩
      rw [hl₂]
      show update (s.unlink p t l).lists .ready (p :: (s.unlink p t l).lists .ready) = _
      rw [hl₁, hh, List.erase_cons_head]
      rfl
    · cases hs
      refine Or.inl ⟨rfl, fun q hq => ?_⟩
      cases hq
      rw [hv]
      exact Nat.lt_of_not_le hdue

end Operations

/-! ## What a step does to the queue -/

/-- The steps of the run: the running task blocks itself, no ready task is unblocked, and nobody
    exits. -/
def ReadyOp (s : State) : Op → Prop
  | .schedule | .clock | .sleep _ | .create _ | .fork => True
  | .block _ task _ => blocking s task = s.running_task
  | .unblock p => p ∉ s.lists .ready
  | .exit _ | .exitBlock _ _ _ | .exitWait _ _ | .exitEnd | .threadExit _ _ | .waitpid _ _
  | .resume _ _ => False

/-- In these calls of `schedule` the running task has gone into another list. -/
def Op.Leaves : Op → Prop
  | .block _ _ _ | .sleep _ => True
  | _ => False

/-- Who is dispatched in a step. -/
def departures (s s' : State) : List Pid :=
  if s'.dispatches = s.dispatches then [] else s'.running_task.toList

/-- Who comes into the ready list in a step; nobody leaves it and comes back in the same one. -/
def arrivals (s s' : State) : List Pid := s'.queue.filter fun p => !s.queue.contains p

section Steps
variable {s s' s₁ : State} {p : Pid} {t : Tcb} {op : Op} {new : List Pid}

theorem departures_same (h : s'.dispatches = s.dispatches) : departures s s' = [] := if_pos h

/-- Nobody is dispatched, and who comes is behind all others. -/
theorem advances_of (hd : s'.dispatches = s.dispatches) (hq : s'.queue = s.queue ++ new) :
    ∃ new, Advances s s' (departures s s') new := by
  rw [departures_same hd]
  exact ⟨new, s.queue, rfl, hq⟩

theorem schedule_advances (h : Midway s) (hs : schedule s = .ok s') :
    ∃ new, Advances s s' (departures s s') new := by
  rcases schedule_queue h hs with ⟨-, rfl⟩ | ⟨p, rest, hq, hrun, hd, hqueue⟩
  · exact advances_of rfl (List.append_nil _).symm
  · refine ⟨_, rest, ?_, hqueue⟩
    rw [hq, departures, if_neg (by omega), hrun]
    rfl

/-- A task that goes into another list, and then `schedule`. -/
theorem leaves_advances (h : Midway s₁) (hd : s₁.dispatches = s.dispatches)
    (hq : s₁.queue = s.queue) (hs : schedule s₁ = .ok s') :
    ∃ new, Advances s s' (departures s s') new := by
  obtain ⟨new, rest, hq₁, hq'⟩ := schedule_advances h hs
  refine ⟨new, rest, ?_, hq'⟩
  rw [← hq, hq₁, departures, departures, hd]

/-- **Each step takes from the front of the queue, and puts behind it.** -/
theorem ready_advances (h : SchedInv s) (ho : ReadyOp s op) (hs : Step s op s') :
    ∃ new, Advances s s' (departures s s') new := by
  cases hs with
  | schedule _ hs => exact schedule_advances h.toMidway hs
  | clock _ hs =>
    rcases weakup_pushes (h.tick _) hs with ⟨rfl, -⟩ | ⟨p, rest, t, -, -, -, m, -, hl⟩
    · exact advances_of rfl (List.append_nil _).symm
    · exact advances_of m.dispatches (State.queue_push (by rw [hl, update_self]))
  | block _ h₁ h₂ h₃ hst _ hs =>
    obtain ⟨p, t, s₁, -, -, m, hm, hsch, -, hl⟩ := h.block_self_pushes ho h₁ h₂ h₃ hst hs
    refine leaves_advances hm m.dispatches (State.queue_of ?_) hsch
    rw [hl, update_of_ne (block_fits h₁ h₂ h₃ hst).2.symm]
  | @unblock p _ _ _ hs =>
    obtain ⟨t, l, ht, hc, m⟩ := unblock_ok hs
    have hp : p ∈ s.lists l := (h.linked.mem l p).2 (by rw [State.listOf_of ht, hc])
    have hl : l ≠ .ready := fun he => ho (he ▸ hp)
    exact advances_of m.dispatches (State.queue_push (unblock_ready h.linked hp hl hs))
  | sleep _ hs =>
    obtain ⟨r, t, s₁, -, -, m, hm, hsch, -, hl⟩ := h.taskSleep_pushes hs
    refine leaves_advances hm m.dispatches (State.queue_of ?_) hsch
    rw [hl, update_of_ne (by simp)]
  | create _ hs =>
    obtain ⟨_, -, m⟩ := taskCreate_ok hs
    obtain ⟨p, hl⟩ := taskCreate_lists hs
    exact advances_of m.dispatches (State.queue_push (by rw [hl, update_self]))
  | fork _ hs =>
    obtain ⟨_, _, _, -, -, -, m⟩ := sysFork_ok hs
    obtain ⟨p, hl⟩ := sysFork_lists hs
    exact advances_of m.dispatches (State.queue_push (by rw [hl, update_self]))
  | exit | exitBlock | exitWait | exitEnd | threadExit | waitpid | resume => exact ho.elim

/-- What came into the queue is what is new in it. -/
theorem Advances.arrivals (h : SchedInv s') (ha : Advances s s' (departures s s') new) :
    arrivals s s' = new := by
  obtain ⟨rest, hq, hq'⟩ := ha
  have hnodup := h.linked.nodup_queue
  rw [hq', List.nodup_append] at hnodup
  rw [Sched.arrivals, hq', List.filter_append, List.filter_eq_nil_iff.2, List.nil_append,
    List.filter_eq_self]
  · intro p hp
    rw [Bool.not_eq_true', List.contains_eq_mem, decide_eq_false_iff_not, hq, List.mem_append, not_or]
    refine ⟨fun hd => ?_, fun hr => hnodup.2.2 p hr p hp rfl⟩
    -- who was dispatched runs, and is in no list
    unfold departures at hd
    split_ifs at hd with he
    · cases hd
    · obtain ⟨t, ht, hc, -⟩ := h.occupied (Option.mem_toList.1 hd)
      have hmem : p ∈ s'.queue := by
        rw [hq']
        exact List.mem_append_right _ hp
      rw [State.mem_queue, h.linked.mem, State.listOf_of ht, hc] at hmem
      cases hmem
  · intro p hp
    have hmem : p ∈ s.queue := by
      rw [hq]
      exact List.mem_append_right _ hp
    simp [hmem]

end Steps

/-! ## The history of the ready list -/

/-- The scheduler with who has come into the ready list, and who has been dispatched. -/
structure History where
  sched : State
  entered : List Pid
  dispatched : List Pid

inductive ReadyStep (x : History) : Op → History → Prop where
  | step {op s'} : ReadyOp x.sched op → Step x.sched op s' →
      ReadyStep x op ⟨s', x.entered ++ arrivals x.sched s', x.dispatched ++ departures x.sched s'⟩

/-- The history begins in any state of the scheduler, with the tasks that are ready there. -/
def readySys : Sys History Op where
  init x := schedSys.Reach x.sched ∧ x.entered = x.sched.queue ∧ x.dispatched = []
  step := ReadyStep

/-- A state that the run goes on to. -/
def History.Later : History → History → Prop :=
  Relation.ReflTransGen fun x y => ∃ op, ReadyStep x op y

section History
variable {x y : History} {op : Op} {p : Pid}

theorem ReadyStep.advances (h : SchedInv x.sched) (hs : ReadyStep x op y) :
    SchedInv y.sched ∧ ∃ out new, y.entered = x.entered ++ new ∧
      y.dispatched = x.dispatched ++ out ∧ Advances x.sched y.sched out new := by
  obtain ⟨ho, hs⟩ := hs
  have hi := h.step hs
  obtain ⟨new, ha⟩ := ready_advances h ho hs
  exact ⟨hi, _, _, rfl, rfl, by rw [ha.arrivals hi]; exact ha⟩

/-- The tasks came in in the order in which they were dispatched, and in which they wait. -/
structure HistoryInv (x : History) : Prop where
  sched : SchedInv x.sched
  order : x.entered = x.dispatched ++ x.sched.queue

theorem HistoryInv.step (h : HistoryInv x) (hs : ReadyStep x op y) : HistoryInv y := by
  obtain ⟨hi, out, new, he, hd, ha⟩ := hs.advances h.sched
  refine ⟨hi, ?_⟩
  rw [he, hd, h.order, List.append_assoc, List.append_assoc, ha.eq]

theorem historyInv_reach (h : readySys.Reach x) : HistoryInv x := by
  refine h.invariant ?_ fun _ _ _ hi => hi.step
  rintro x ⟨hr, he, hd⟩
  exact ⟨schedInv_reach hr, by rw [he, hd, List.nil_append]⟩

/-- **A run takes from the front of the queue, and puts behind it.** -/
theorem HistoryInv.later (h : HistoryInv x) (hl : x.Later y) : ∃ out new,
    y.dispatched = x.dispatched ++ out ∧ x.sched.queue ++ new = out ++ y.sched.queue := by
  suffices hboth : HistoryInv y ∧ ∃ out new,
      y.dispatched = x.dispatched ++ out ∧ x.sched.queue ++ new = out ++ y.sched.queue from
    hboth.2
  induction hl with
  | refl => exact ⟨h, [], [], by simp, by simp⟩
  | tail _ hstep ih =>
    obtain ⟨op, hs⟩ := hstep
    obtain ⟨hi, out, new, hd, hq⟩ := ih
    obtain ⟨-, out', new', -, hd', ha⟩ := hs.advances hi.sched
    refine ⟨hi.step hs, out ++ out', new ++ new', by rw [hd', hd, List.append_assoc], ?_⟩
    rw [← List.append_assoc, hq, List.append_assoc, ha.eq, List.append_assoc]

/-- Ready tasks are never overtaken: they came in in the order in which they are dispatched and in
    which they wait; from any state on, a task is dispatched behind just those that are ahead of it
    there, however the run goes; a yield dispatches the first of the queue and puts the running
    task behind all others, and a task that blocks or sleeps leaves the queue to the rest. -/
theorem ready_fifo (h : readySys.Reach x) :
    x.entered = x.dispatched ++ x.sched.queue ∧
    (∀ ahead p behind y, x.sched.queue = ahead ++ p :: behind → x.Later y →
      ∃ out, y.dispatched = x.dispatched ++ out ∧
        (ahead ++ [p] <+: out ∨ ∃ left behind', ahead = out ++ left ∧
          y.sched.queue = left ++ p :: behind')) ∧
    (∀ p rest op y, x.sched.queue = p :: rest → ReadyStep x op y →
      (op = .schedule → y.sched.running_task = some p ∧
        y.sched.queue = rest ++ x.sched.running_task.toList) ∧
      (op.Leaves → y.sched.running_task = some p ∧ y.sched.queue = rest)) := by
  have hi := historyInv_reach h
  refine ⟨hi.order, fun ahead p behind y hq hl => ?_, fun p rest op y hq hs => ⟨?_, ?_⟩⟩
  · obtain ⟨out, new, hd, he⟩ := hi.later hl
    refine ⟨out, hd, ?_⟩
    rw [hq, List.append_assoc, List.cons_append] at he
    rcases List.append_eq_append_iff.1 he with ⟨more, hout, hmore⟩ | ⟨left, hahead, hleft⟩
    · cases more with
      | nil => exact Or.inr ⟨[], behind ++ new, by rw [hout]; simp, hmore.symm⟩
      | cons q more =>
        obtain rfl : p = q := (List.cons.inj hmore).1
        exact Or.inl ⟨more, by rw [hout]; simp⟩
    · exact Or.inr ⟨left, behind ++ new, hahead, hleft⟩
  · rintro rfl
    obtain ⟨-, hs⟩ := hs
    cases hs with
    | schedule _ hs => exact schedule_yields hi.sched hq hs
  · intro hleaves
    obtain ⟨ho, hs⟩ := hs
    cases hs with
    | block _ h₁ h₂ h₃ hst _ hs =>
      obtain ⟨r, t, s₁, hr, -, m, hm, hsch, -, hl⟩ :=
        hi.sched.block_self_pushes ho h₁ h₂ h₃ hst hs
      have hq₁ : s₁.queue = p :: rest := by
        rw [← hq]
        exact State.queue_of (by rw [hl, update_of_ne (block_fits h₁ h₂ h₃ hst).2.symm])
      exact (schedule_leaves hm (m.running.trans hr) (State.listOf_of m.at) hsch).2 p hq₁
    | sleep _ hs =>
      obtain ⟨r, t, s₁, hr, -, m, hm, hsch, -, hl⟩ := hi.sched.taskSleep_pushes hs
      have hq₁ : s₁.queue = p :: rest := by
        rw [← hq]
        exact State.queue_of (by rw [hl, update_of_ne (by simp)])
      exact (schedule_leaves hm (m.running.trans hr) (State.listOf_of m.at) hsch).2 p hq₁
    | schedule | clock | unblock | create | fork | exit | exitBlock | exitWait | exitEnd | threadExit
    | waitpid | resume => exact hleaves.elim

end History

/-- After the first dispatch tasks 1 and 2 are ready; a yield puts task 0 behind them. -/
theorem ready_fifo_yield : ∃ x y, readySys.Reach x ∧ x.sched.queue = [1, 2] ∧
    x.entered = x.dispatched ++ x.sched.queue ∧ ReadyStep x .schedule y ∧
    y.sched.running_task = some 1 ∧ y.sched.queue = [2, 0] := by
  obtain ⟨s₀, s₁, s₂, h₀, h₁, h₂, hr, hq, f₀, f₁⟩ : ∃ s₀ s₁ s₂, taskInit = .ok s₀ ∧
      schedule s₀ = .ok s₁ ∧ schedule s₁ = .ok s₂ ∧ s₁.running_task = some 0 ∧
      s₁.queue = [1, 2] ∧ Free s₀ ∧ Free s₁ := by
    refine ⟨_, _, _, rfl, rfl, rfl, rfl, rfl, ?_, free_of rfl rfl rfl⟩
    intro r t hr
    cases hr
  have hreach : readySys.Reach ⟨s₁, s₁.queue, []⟩ :=
    .init ⟨.step (a := .schedule) (.init h₀) (.schedule f₀ h₁), rfl, rfl⟩
  have hstep := ReadyStep.step (x := ⟨s₁, s₁.queue, []⟩)
    (show ReadyOp s₁ .schedule from trivial) (.schedule f₁ h₂)
  obtain ⟨hrun, hqueue⟩ := ((ready_fifo hreach).2.2 1 [2] .schedule _ hq hstep).1 rfl
  refine ⟨_, _, hreach, hq, (ready_fifo hreach).1, hstep, hrun, ?_⟩
  rw [hqueue, hr]
  rfl

end Rdix.Sched
