/-
  The clock and the time slices (kernel/clock.c: clock_handler; kernel/task.c).

  A task runs until it gives up the processor or its `ticks` are used up; then it gets its
  `priority` as new ones and goes behind the ready tasks.

  * `clockHandler`: the interrupt of the clock;
  * `slice`: the interrupts that a number of ticks lasts;
  * `Behind`: a ready task keeps its place behind those ahead of it, whatever becomes of them;
  * `Awaits`: a ready task with the slices that may be used before it;
  * `served_within`: no task starves.
-/
import Rdix.Kernel.Frames
import Rdix.Kernel.Tree
import Rdix.Kernel.Ready
import Rdix.Lib.Potential

namespace Rdix.Sched

open Function Transition

/-! ## The interrupt -/

/-- The scheduler with the fields `ticks` and `priority` of the TCBs. -/
structure Slices where
  sched : State
  ticks : Pid → ℕ
  priority : Pid → ℕ

/-- `--n` for a `u32`. -/
def decr (n : ℕ) : ℕ := if n = 0 then 2 ^ 32 - 1 else n - 1

/-- `clock_handler`, without the end of the interrupt. -/
def clockHandler (x : Slices) : C Slices :=
  match x.sched.running_task with
  | none => do
    let s ← schedule x.sched
    return { x with sched := s }
  | some current => do
    let s ← weakup { x.sched with jiffies := u32 (x.sched.jiffies + 1) }
    let ticks := decr (x.ticks current)
    if ticks = 0 then
      let s ← schedule s
      return { x with sched := s, ticks := update x.ticks current (x.priority current) }
    else return { x with sched := s, ticks := update x.ticks current ticks }

/-- The number of interrupts after which `--ticks` is 0. -/
def slice (ticks : ℕ) : ℕ := if ticks = 0 then 2 ^ 32 else ticks

inductive SliceOp where
  | clock
  | op (o : Op)

/-- The interrupts of the clock among the steps. -/
def SliceOp.tick : SliceOp → ℕ
  | .clock => 1
  | .op _ => 0

/-- A new task gets its priority as its first ticks, a child the priority of its parent; the new task
    of a `sys_exit` that waits for the disk is the timer. -/
inductive SliceStep (x : Slices) : SliceOp → Slices → Prop where
  | clock {y} : Free x.sched → clockHandler x = .ok y → SliceStep x .clock y
  | create {priority p s'} : getTask x.sched = .ok p → Step x.sched (.create priority) s' →
      SliceStep x (.op (.create priority))
        ⟨s', update x.ticks p.1 priority, update x.priority p.1 priority⟩
  | fork {r p s'} : x.sched.running_task = some r → getTask x.sched = .ok p →
      Step x.sched .fork s' →
      SliceStep x (.op .fork)
        ⟨s', update x.ticks p.1 (x.priority r), update x.priority p.1 (x.priority r)⟩
  | exitWait {status priority p s'} : getTask x.sched = .ok p →
      Step x.sched (.exitWait status priority) s' →
      SliceStep x (.op (.exitWait status priority))
        ⟨s', update x.ticks p.1 priority, update x.priority p.1 priority⟩
  | other {o s'} : o ≠ .clock → (∀ priority, o ≠ .create priority) → o ≠ .fork →
      (∀ status priority, o ≠ .exitWait status priority) → Step x.sched o s' → SliceStep x (.op o) { x with sched := s' }

/-- The slices with who has been dispatched. -/
structure Dispatched extends Slices where
  dispatched : List Pid

/-- From `task_init` on; what a slot without a task holds is not read. -/
def sliceSys : Sys Dispatched SliceOp where
  init x := taskInit = .ok x.sched ∧ x.priority 0 = 1 ∧ x.priority 1 = 3 ∧ x.priority 2 = 3 ∧
    x.ticks = x.priority ∧ x.dispatched = []
  step x a y := SliceStep x.toSlices a y.toSlices ∧
    y.dispatched = x.dispatched ++ departures x.sched y.sched

/-- The operation takes the task out of the list it is in: it blocks, unblocks, ends or frees it. -/
def Takes (s : State) (p : Pid) : Op → Prop
  | .block _ task _ => blocking s task = some p
  | .unblock q => q = p
  | .threadExit th _ => blocking s th = some p
  | .resume _ _ => ∃ r t, s.running_task = some r ∧ s.task_bucket r = some t ∧ t.child = some p
  | _ => False

/-- While the task is ready, it is not taken out of its list. -/
def SparesReady (p : Pid) (x : Dispatched) : SliceOp → Prop
  | .clock => True
  | .op o => p ∈ x.sched.lists .ready → ¬ Takes x.sched p o

/-! ## The length of a slice -/

section Slice

theorem slice_pos (t : ℕ) : 0 < slice t := by
  unfold slice
  split_ifs <;> omega

/-- The decrement of the interrupt. -/
theorem slice_tick (t : ℕ) : decr t = 0 ∧ slice t = 1 ∨
    decr t ≠ 0 ∧ slice (decr t) + 1 = slice t := by
  unfold slice decr
  by_cases h : t = 0
  · simp [h]
  · rw [if_neg h, if_neg h]
    split_ifs <;> omega

end Slice

/-! ## What a step does to the queue -/

/-- The task is ready, and who is ahead of it has been ahead of it. -/
def Behind (ahead : List Pid) (p : Pid) (queue : List Pid) : Prop :=
  ∃ ahead' behind, ahead'.Sublist ahead ∧ queue = ahead' ++ p :: behind

section Queue
variable {s s' s₁ : State} {p q r : Pid} {t t' : Tcb} {ahead : List Pid}

theorem Behind.append {queue : List Pid} (h : Behind ahead p queue) (new : List Pid) :
    Behind ahead p (queue ++ new) := by
  obtain ⟨ahead', behind, hsub, rfl⟩ := h
  exact ⟨ahead', behind ++ new, hsub, by rw [List.append_assoc, List.cons_append]⟩

theorem Behind.push (h : Behind ahead p s.queue) (hq : s'.lists .ready = q :: s.lists .ready) :
    Behind ahead p s'.queue := by
  rw [State.queue_push hq]
  exact h.append [q]

theorem Behind.ready (h : Behind ahead p s.queue) : p ∈ s.lists .ready := by
  obtain ⟨ahead', behind, -, hq⟩ := h
  rw [← State.mem_queue, hq]
  exact List.mem_append_right _ List.mem_cons_self

/-- Another task leaves the queue, wherever it was in it. -/
theorem Behind.leave (h : Behind ahead p s.queue) (hl : s.Linked) (hq : q ≠ p)
    (hs : s'.lists .ready = (s.lists .ready).erase q) : Behind ahead p s'.queue := by
  obtain ⟨ahead', behind, hsub, hqueue⟩ := h
  have hfilter : s'.queue = s.queue.filter (· != q) := by
    rw [State.queue, hs, (hl.nodup .ready).erase_eq_filter, ← List.filter_reverse]
    rfl
  refine ⟨ahead'.filter (· != q), behind.filter (· != q), List.filter_sublist.trans hsub, ?_⟩
  rw [hfilter, hqueue, List.filter_append, List.filter_cons_of_pos (by simpa using hq.symm)]

/-- Another task moves to another list. -/
theorem Behind.moved (h : Behind ahead p s.queue) (hl : s.Linked) (m : Moved s s' q t) (hq : q ≠ p)
    (hc : t.container ≠ some .ready) : Behind ahead p s'.queue := by
  have hnot : q ∉ s'.lists .ready := by
    rw [(m.linked hl).mem, State.listOf_of m.at]
    exact hc
  exact h.leave hl hq (by rw [← m.order hl, List.erase_of_not_mem hnot])

theorem Behind.exited (h : Behind ahead p s.queue) (hl : s.Linked) (e : Exited s s' q t t')
    (hq : q ≠ p) (hc : t'.container ≠ some .ready) : Behind ahead p s'.queue := by
  have hnot : q ∉ s'.lists .ready := by
    rw [(e.linked hl).mem, State.listOf_of e.gone]
    exact hc
  exact h.leave hl hq (by rw [← e.order hl, List.erase_of_not_mem hnot])

/-- Another task is unblocked, and goes behind. -/
theorem Behind.unblock (h : Behind ahead p s.queue) (hl : s.Linked) (hq : q ≠ p)
    (hs : unblock s q = .ok s') : Behind ahead p s'.queue := by
  obtain ⟨s₁, h₁, hs⟩ := bind_eq_ok.1 hs
  obtain ⟨s₂, h₂, hs⟩ := bind_eq_ok.1 hs
  obtain ⟨u, -, hs⟩ := bind_eq_ok.1 hs
  cases hs
  obtain ⟨_, _, -, -, -, m⟩ := removeNode_ok h₁
  have hlists := congrFun (listPush_lists h₂) .ready
  rw [update_self] at hlists
  exact (h.moved hl m hq (by simp)).push hlists

/-- A task that runs is not ready. -/
theorem Behind.ne_running (h : Behind ahead p s.queue) (hi : SchedInv s)
    (hr : s.running_task = some r) : r ≠ p := by
  rintro rfl
  obtain ⟨u, hu, hc, -⟩ := hi.occupied hr
  have hmem := h.ready
  rw [hi.linked.mem, State.listOf_of hu, hc] at hmem
  cases hmem

/-- A parent that is woken goes behind the ready tasks. -/
theorem Behind.woken {task : Tcb} (h : Behind ahead p s.queue) (hm : Midway s)
    (hpr : ∀ u, s.task_bucket p = some u → u.state = .ready) (hw : wakeParent s task = .ok s') :
    Behind ahead p s'.queue ∧ s'.dispatches = s.dispatches := by
  obtain ⟨parent, hp, ⟨rfl, -⟩ | ⟨hwait, -, m⟩⟩ := wakeParent_ok hw
  · exact ⟨h, rfl⟩
  · have hun : Sched.unblock s task.ppid = .ok s' := by
      rw [wakeParent, hp, deref_some, ok_bind] at hw
      exact (if_pos hwait).symm.trans hw
    refine ⟨h.unblock hm.linked ?_ hun, m.dispatches⟩
    rintro rfl
    cases (hpr parent hp).symm.trans hwait.1

/-- Who is in the ready list has the state of it. -/
theorem Behind.state (h : Behind ahead p s.queue) (hm : Midway s) {u : Tcb}
    (hu : s.task_bucket p = some u) : u.state = .ready := by
  have hc := h.ready
  rw [hm.linked.mem, State.listOf_of hu] at hc
  refine (hm.listed p u hu fun hr => ?_).ready hc
  obtain ⟨v, hv, hcase⟩ := hm.running p hr
  cases hu.symm.trans hv
  rcases hcase with ⟨hnone, -⟩ | ⟨-, hne⟩
  · cases hnone.symm.trans hc
  · exact hne hc

/-- The running task goes on, or the first one of the queue is dispatched; `p` keeps its place. -/
inductive Turn (ahead : List Pid) (p : Pid) (s s' : State) : Prop where
  | goes : s'.running_task = s.running_task → s'.dispatches = s.dispatches →
      Behind ahead p s'.queue → Turn ahead p s s'
  | next (q : Pid) (rest new : List Pid) : Behind ahead p (q :: rest) → s'.running_task = some q →
      s'.dispatches = s.dispatches + 1 → s'.queue = rest ++ new → Turn ahead p s s'

/-- Some leave the queue or come into it, and then `schedule`. -/
theorem schedule_next (h : Midway s₁) (hd : s₁.dispatches = s.dispatches)
    (hb : Behind ahead p s₁.queue) (hs : schedule s₁ = .ok s') :
    ∃ q rest new, Behind ahead p (q :: rest) ∧ s'.running_task = some q ∧
      s'.dispatches = s.dispatches + 1 ∧ s'.queue = rest ++ new := by
  rcases schedule_queue h hs with ⟨hempty, -⟩ | ⟨q, rest, hq, hrun, hd', hqueue⟩
  · obtain ⟨_, _, -, hq⟩ := hb
    rw [hempty] at hq
    simp at hq
  · rw [hq] at hb
    exact ⟨q, rest, _, hb, hrun, by rw [hd', hd], hqueue⟩

theorem schedule_turn (h : Midway s₁) (hd : s₁.dispatches = s.dispatches)
    (hb : Behind ahead p s₁.queue) (hs : schedule s₁ = .ok s') : Turn ahead p s s' := by
  obtain ⟨q, rest, new, hb, hrun, hd', hqueue⟩ := schedule_next h hd hb hs
  exact .next q rest new hb hrun hd' hqueue

theorem weakup_goes (hb : Behind ahead p s.queue) (h : SchedInv s)
    (hs : weakup { s with jiffies := u32 (s.jiffies + 1) } = .ok s') :
    s'.running_task = s.running_task ∧ s'.dispatches = s.dispatches ∧ Behind ahead p s'.queue := by
  rcases weakup_pushes (h.tick _) hs with ⟨rfl, -⟩ | ⟨q, rest, t, -, -, -, m, -, hl⟩
  · exact ⟨rfl, rfl, hb⟩
  · exact ⟨m.running, m.dispatches, hb.push (by rw [hl, update_self])⟩

theorem freeTask_goes {c : Pid} {v : Pid × ℤ} (hb : Behind ahead p s.queue) (h : SchedInv s)
    (hc : c ≠ p) (hs : freeTask s c = .ok (s', v)) :
    s'.running_task = s.running_task ∧ s'.dispatches = s.dispatches ∧ Behind ahead p s'.queue := by
  obtain ⟨t, ht, -, -, hrest⟩ := freeTask_ok hs
  obtain ⟨-, hrun, hd, -⟩ := hrest (h.pid c t ht)
  exact ⟨hrun, hd, hb.leave h.linked hc (freeTask_lists h.linked hs .ready)⟩

/-- A thread that is ended may be another one. -/
theorem threadExit_turn {th : Option Pid} {status : ℕ} (hb : Behind ahead p s.queue)
    (h : SchedInv s) (hne : blocking s th ≠ some p) (hs : kernelThreadExit s th status = .ok s') :
    Turn ahead p s s' := by
  obtain ⟨q, t, s₁, s₂, hq, ht, e, hw, hcase⟩ := h.kernelThreadExit_cases hs
  have hqp : q ≠ p := fun he => hne (he ▸ hq)
  have hpid := h.pid q t ht
  have hm₁ : Midway s₁ := by
    by_cases hr : s.running_task = some q
    · exact e.midway h hr hpid ⟨.died, rfl, rfl⟩ (by simp)
    · exact (e.schedInv h hr hpid ⟨.died, rfl, rfl⟩).toMidway
  have hb₁ := hb.exited h.linked e hqp (by simp)
  obtain ⟨hb₂, hd⟩ := hb₁.woken hm₁ (fun u hu => hb₁.state hm₁ hu) hw
  rcases hcase with ⟨hm, hsch⟩ | ⟨-, rfl⟩
  · exact schedule_turn hm (hd.trans e.dispatches) hb₂ hsch
  · exact .goes ((wakeParent_running hw).trans e.running) (hd.trans e.dispatches) hb₂

/-- **Each step goes on with the running task or dispatches the first of the queue**, and a ready
    task that it does not take out of the list keeps its place. -/
theorem step_turn {o : Op} (h : SchedInv s) (hb : Behind ahead p s.queue)
    (ho : p ∈ s.lists .ready → ¬ Takes s p o) (hs : Step s o s') : Turn ahead p s s' := by
  have hnot := ho hb.ready
  cases hs with
  | schedule _ hs => exact schedule_turn h.toMidway rfl hb hs
  | clock _ hs =>
    obtain ⟨hrun, hd, hqueue⟩ := weakup_goes hb h hs
    exact .goes hrun hd hqueue
  | block _ h₁ h₂ h₃ hst _ hs =>
    obtain ⟨q, t, s₁, hq, -, m, hm, hsch⟩ := h.block_cases h₁ h₂ h₃ hst hs
    refine schedule_turn hm m.dispatches (hb.moved h.linked m (fun he => hnot (he ▸ hq)) ?_) hsch
    simpa using (block_fits h₁ h₂ h₃ hst).2
  | unblock _ _ hs =>
    obtain ⟨_, _, -, -, m⟩ := unblock_ok hs
    exact .goes m.running m.dispatches (hb.unblock h.linked hnot hs)
  | sleep _ hs =>
    obtain ⟨r, t, _, s₁, hr, -, m, hm, hsch⟩ := h.taskSleep_cases hs
    exact schedule_turn hm m.dispatches (hb.moved h.linked m (hb.ne_running h hr) (by simp)) hsch
  | create _ hs =>
    obtain ⟨_, -, m⟩ := taskCreate_ok hs
    obtain ⟨q, hl⟩ := taskCreate_lists hs
    exact .goes m.running m.dispatches (hb.push (by rw [hl, update_self]))
  | fork _ hs =>
    obtain ⟨_, _, _, -, -, -, m⟩ := sysFork_ok hs
    obtain ⟨q, hl⟩ := sysFork_lists hs
    exact .goes m.running m.dispatches (hb.push (by rw [hl, update_self]))
  | exit _ hs =>
    obtain ⟨r, t, s₁, s₂, hr, ht, e, hw, hm, hsch⟩ := h.sysExit_cases hs
    have hm₁ := e.midway h hr (h.pid r t ht) ⟨.died, rfl, rfl⟩ (by simp)
    have hb₁ := hb.exited h.linked e (hb.ne_running h hr) (by simp)
    obtain ⟨hb₂, hd⟩ := hb₁.woken hm₁ (fun u hu => hb₁.state hm₁ hu) hw
    exact schedule_turn hm (hd.trans e.dispatches) hb₂ hsch
  | exitBlock _ h₁ h₂ h₃ hst hs =>
    obtain ⟨r, t, s₁, hr, -, -, m, hm, hsch⟩ := h.exitBlock_cases h₁ h₂ h₃ hst hs
    refine schedule_turn hm m.dispatches (hb.moved h.linked m (hb.ne_running h hr) ?_) hsch
    simpa using (block_fits h₁ h₂ h₃ hst).2
  | exitWait _ hs =>
    obtain ⟨r, t, q, s₁, s₂, s₃, hr, -, -, -, -, m₁, m₂, htop, m₃, hm, hsch⟩ := h.exitWait_cases hs
    have hl₁ := m₁.linked h.linked
    have hrp := hb.ne_running h hr
    have hb₂ := (hb.moved h.linked m₁ hrp (by simp)).push htop
    refine schedule_turn hm (m₃.dispatches.trans (m₂.dispatches.trans m₁.dispatches)) ?_ hsch
    exact hb₂.moved (m₂.linked hl₁) m₃ hrp (by simp)
  | exitEnd _ _ hs =>
    obtain ⟨r, t, s₁, s₂, hr, ht, -, e, h₁, hw, hm, hsch⟩ := h.exitRest_cases hs
    have hb₁ := hb.exited h.linked e (hb.ne_running h hr)
      (by rw [show ({ t with exiting := false } : Tcb).container = none from h.off r t hr ht]; simp)
    obtain ⟨hb₂, hd⟩ := hb₁.woken h₁.toMidway (fun u hu => hb₁.state h₁.toMidway hu) hw
    exact schedule_turn hm (hd.trans e.dispatches) hb₂ hsch
  | threadExit _ hs => exact threadExit_turn hb h hnot hs
  | waitpid _ hs =>
    obtain ⟨r, task, hr, -, ⟨-, rfl, -⟩ | ⟨c, u, -, hu, ⟨hd, v, hv, -⟩ | ⟨-, -, s₁, hm, hsch, m⟩⟩⟩ :=
      h.sysWaitpid_cases hs
    · exact .goes rfl rfl hb
    · have hcp : c ≠ p := by
        rintro rfl
        cases (hb.state h.toMidway hu).symm.trans hd
      obtain ⟨hrun, hdis, hqueue⟩ := freeTask_goes hb h hcp hv
      exact .goes hrun hdis hqueue
    · exact schedule_turn hm m.dispatches (hb.moved h.linked m (hb.ne_running h hr) (by simp)) hsch
  | resume hs =>
    obtain ⟨r, task, c, hr, ht, hc, hf⟩ := resumeWait_ok hs
    have h₁ : SchedInv (s.put r { task with child := none }) :=
      h.congr rfl rfl rfl (place_put ht rfl)
    have hcp : c ≠ p := by
      rintro rfl
      exact hnot ⟨r, task, hr, ht, hc⟩
    have hb₁ : Behind ahead p (s.put r { task with child := none }).queue := hb
    obtain ⟨hrun, hd, hqueue⟩ := freeTask_goes hb₁ h₁ hcp hf
    exact .goes hrun hd hqueue

end Queue

/-! ## Slices -/

section Waiting
variable {x y : Dispatched} {a : SliceOp} {p r : Pid} {ahead behind : List Pid} {m : ℕ}

/-- The ticks of a task do not last longer than its priority says. -/
structure SliceInv (x : Slices) : Prop where
  sched : SchedInv x.sched
  within : ∀ p, slice (x.ticks p) ≤ slice (x.priority p)

/-- The interrupt counts one tick of the running task, and switches after the last one. -/
theorem clockHandler_ok {x y : Slices} (hr : x.sched.running_task = some r)
    (h : clockHandler x = .ok y) :
    ∃ s, weakup { x.sched with jiffies := u32 (x.sched.jiffies + 1) } = .ok s ∧
      y.priority = x.priority ∧
      (slice (x.ticks r) = 1 ∧ schedule s = .ok y.sched ∧
          y.ticks = update x.ticks r (x.priority r) ∨
        y.sched = s ∧ ∃ t, slice t + 1 = slice (x.ticks r) ∧ y.ticks = update x.ticks r t) := by
  rw [clockHandler, hr] at h
  obtain ⟨s, hs, h⟩ := bind_eq_ok.1 h
  refine ⟨s, hs, ?_⟩
  dsimp only at h
  rcases slice_tick (x.ticks r) with ⟨h0, h1⟩ | ⟨h0, h1⟩
  · rw [if_pos h0] at h
    obtain ⟨s', hs', h⟩ := bind_eq_ok.1 h
    cases h
    exact ⟨rfl, Or.inl ⟨h1, hs', rfl⟩⟩
  · rw [if_neg h0] at h
    cases h
    exact ⟨rfl, Or.inr ⟨rfl, _, h1, rfl⟩⟩

theorem clockHandler_first {x y : Slices} (hr : x.sched.running_task = none)
    (h : clockHandler x = .ok y) :
    schedule x.sched = .ok y.sched ∧ y.ticks = x.ticks ∧ y.priority = x.priority := by
  rw [clockHandler, hr] at h
  obtain ⟨s, hs, h⟩ := bind_eq_ok.1 h
  cases h
  exact ⟨hs, rfl, rfl⟩

/-- A new slice is as long as the priority. -/
theorem within_update {ticks priority : Pid → ℕ} {n : ℕ}
    (h : ∀ p, slice (ticks p) ≤ slice (priority p)) (q : Pid) :
    slice (update ticks p n q) ≤ slice (update priority p n q) := by
  by_cases hq : q = p
  · rw [hq, update_self, update_self]
  · rw [update_of_ne hq, update_of_ne hq]
    exact h q

theorem SliceInv.step {x y : Slices} (h : SliceInv x) (hs : SliceStep x a y) : SliceInv y := by
  cases hs with
  | clock hf hs =>
    cases hr : x.sched.running_task with
    | none =>
      obtain ⟨hsch, ht, hp⟩ := clockHandler_first hr hs
      exact ⟨schedInv_schedule h.sched.toMidway hsch, fun p => by rw [ht, hp]; exact h.within p⟩
    | some r =>
      obtain ⟨s, hw, hp, hcase⟩ := clockHandler_ok hr hs
      have hi : SchedInv s := (h.sched.tick _).weakup hw
      rcases hcase with ⟨-, hsch, ht⟩ | ⟨rfl, t, hslice, ht⟩
      · refine ⟨schedInv_schedule hi.toMidway hsch, fun p => ?_⟩
        rw [ht, hp]
        by_cases hpr : p = r
        · rw [hpr, update_self]
        · rw [update_of_ne hpr]
          exact h.within p
      · refine ⟨hi, fun p => ?_⟩
        rw [ht, hp]
        by_cases hpr : p = r
        · have := h.within r
          rw [hpr, update_self]
          omega
        · rw [update_of_ne hpr]
          exact h.within p
  | create _ hs => exact ⟨h.sched.step hs, within_update h.within⟩
  | fork _ _ hs => exact ⟨h.sched.step hs, within_update h.within⟩
  | exitWait _ hs => exact ⟨h.sched.step hs, within_update h.within⟩
  | other _ _ _ _ hs => exact ⟨h.sched.step hs, h.within⟩

theorem sliceInv_reach (h : sliceSys.Reach x) : SliceInv x.toSlices := by
  refine Sys.Reach.invariant (S := sliceSys) (I := fun x => SliceInv x.toSlices) ?_
    (fun _ _ _ hi hs => hi.step hs.1) h
  rintro x ⟨hinit, -, -, -, ht, -⟩
  exact ⟨schedInv_init hinit, fun p => by rw [ht]⟩

/-- The slices that may be used before `p`, which waits behind `ahead`, is dispatched. -/
def Slices.before (x : Slices) (r : Pid) (ahead : List Pid) : ℕ :=
  slice (x.ticks r) + (ahead.map fun q => slice (x.ticks q)).sum

/-- Since `d`, the task has not been dispatched, and it will be within `m` interrupts. -/
structure Awaits (d : List Pid) (p : Pid) (m : ℕ) (x : Dispatched) : Prop where
  inv : SliceInv x.toSlices
  since : d <+: x.dispatched
  place : ∃ r ahead behind, x.sched.running_task = some r ∧ x.sched.queue = ahead ++ p :: behind ∧
    x.before r ahead ≤ m

/-- Since `d`, the task has been dispatched. -/
def Served (d : List Pid) (p : Pid) (x : Dispatched) : Prop := ∃ out, x.dispatched = d ++ out ∧ p ∈ out

theorem Served.step {d : List Pid} (h : Served d p x) (hs : sliceSys.step x a y) : Served d p y := by
  obtain ⟨out, hd, hp⟩ := h
  exact ⟨out ++ departures x.sched y.sched, by rw [hs.2, hd, List.append_assoc],
    List.mem_append_left _ hp⟩

theorem before_congr {x y : Slices} (hr : y.ticks r = x.ticks r)
    (ha : ∀ q ∈ ahead, y.ticks q = x.ticks q) : y.before r ahead = x.before r ahead := by
  rw [Slices.before, Slices.before, hr]
  congr 2
  exact List.map_congr_left fun q hq => by rw [ha q hq]

/-- The slices of fewer tasks. -/
theorem slices_le {x : Slices} {ahead' : List Pid} (h : ahead'.Sublist ahead) :
    (ahead'.map fun u => slice (x.ticks u)).sum ≤ (ahead.map fun u => slice (x.ticks u)).sum :=
  (h.map _).sum_le_sum fun _ _ => Nat.zero_le _

/-- The first of the queue is dispatched: it is `p`, or one of those ahead of it. -/
theorem Awaits.next {d rest new : List Pid} {q : Pid} (hi : SliceInv y.toSlices)
    (hd : d <+: x.dispatched) (hb : Behind ahead p (q :: rest)) (hrun : y.sched.running_task = some q)
    (hdis : y.sched.dispatches = x.sched.dispatches + 1) (hqueue : y.sched.queue = rest ++ new)
    (hstep : y.dispatched = x.dispatched ++ departures x.sched y.sched)
    (ha : ∀ u ∈ ahead, y.ticks u = x.ticks u)
    (hm : (ahead.map fun u => slice (x.ticks u)).sum ≤ m) : Served d p y ∨ Awaits d p m y := by
  have hout : departures x.sched y.sched = [q] := by
    rw [departures, if_neg (by omega), hrun]
    rfl
  obtain ⟨more, hmore⟩ := hd
  rw [hout, ← hmore, List.append_assoc] at hstep
  obtain ⟨ahead', behind', hsub, hcons⟩ := hb
  cases ahead' with
  | nil =>
    cases hcons
    exact Or.inl ⟨_, hstep, by simp⟩
  | cons u ahead' =>
    cases hcons
    refine Or.inr ⟨hi, ⟨_, hstep.symm⟩, q, ahead', behind' ++ new, hrun, ?_, ?_⟩
    · rw [hqueue]
      exact List.append_assoc ..
    · have hle := slices_le (x := x.toSlices) hsub
      rw [List.map_cons, List.sum_cons] at hle
      have hsame {v : Pid} (hv : v ∈ q :: ahead') : y.ticks v = x.ticks v := ha v (hsub.subset hv)
      rw [before_congr (hsame List.mem_cons_self) fun u hu => hsame (List.mem_cons_of_mem q hu)]
      exact hle.trans hm

/-- The running task goes on. -/
theorem Awaits.goes {d : List Pid} (hi : SliceInv y.toSlices) (hd : d <+: x.dispatched)
    (hr : x.sched.running_task = some r) (hrun : y.sched.running_task = x.sched.running_task)
    (hdis : y.sched.dispatches = x.sched.dispatches) (hb : Behind ahead p y.sched.queue)
    (hstep : y.dispatched = x.dispatched ++ departures x.sched y.sched)
    (hm : y.before r ahead ≤ m) : Awaits d p m y := by
  rw [departures_same hdis, List.append_nil] at hstep
  obtain ⟨ahead', behind', hsub, hqueue⟩ := hb
  exact ⟨hi, by rw [hstep]; exact hd, r, ahead', behind', by rw [hrun, hr], hqueue,
    (Nat.add_le_add_left (slices_le hsub) _).trans hm⟩

/-- The tasks ahead do not run. -/
theorem SliceInv.ahead_ne {x : Slices} (h : SliceInv x) (hr : x.sched.running_task = some r)
    (hq : x.sched.queue = ahead ++ p :: behind) : ∀ u ∈ ahead, u ≠ r := by
  rintro u hu rfl
  obtain ⟨t, ht, hc, -⟩ := h.sched.occupied hr
  have hmem : u ∈ x.sched.queue := by
    rw [hq]
    exact List.mem_append_left _ hu
  rw [State.mem_queue, h.sched.linked.mem, State.listOf_of ht, hc] at hmem
  cases hmem

/-- A new task has a slot of its own. -/
theorem SliceInv.new_ne {x : Slices} {q : Pid × Pid} (h : SliceInv x)
    (hr : x.sched.running_task = some r) (hq : x.sched.queue = ahead ++ p :: behind)
    (hnew : getTask x.sched = .ok q) : r ≠ q.1 ∧ ∀ u ∈ ahead, u ≠ q.1 := by
  have hnone := (getTask_ok hnew).1
  refine ⟨fun he => h.sched.ne_of_free hnone (by rw [hr, he]), ?_⟩
  rintro u hu rfl
  have hmem : q.1 ∈ x.sched.queue := by
    rw [hq]
    exact List.mem_append_left _ hu
  rw [State.mem_queue, h.sched.linked.mem, State.listOf, hnone] at hmem
  cases hmem

/-- **Each step serves the task, or takes what it costs from the slices before it.** -/
theorem Awaits.step {d : List Pid} (h : Awaits d p m x)
    (hs : (sliceSys.restrict (SparesReady p)).step x a y) :
    Served d p y ∨ ∃ m', m' + a.tick ≤ m ∧ Awaits d p m' y := by
  obtain ⟨hspare, hslice, hdis⟩ := hs
  obtain ⟨y, dispatched⟩ := y
  change SliceStep x.toSlices a y at hslice
  obtain ⟨hi, hsince, r, ahead, behind, hr, hq, hm⟩ := h
  have hi' : SliceInv y := hi.step hslice
  have hb : Behind ahead p x.sched.queue := ⟨ahead, behind, List.Sublist.refl _, hq⟩
  have hahead := hi.ahead_ne hr hq
  -- a step of the scheduler that leaves these ticks alone
  have hturn (ht : Turn ahead p x.sched y.sched) (hrt : y.ticks r = x.ticks r)
      (hat : ∀ u ∈ ahead, y.ticks u = x.ticks u) :
      Served d p ⟨y, dispatched⟩ ∨ Awaits d p m ⟨y, dispatched⟩ := by
    cases ht with
    | goes hrun hd hb' =>
      exact Or.inr (.goes hi' hsince hr hrun hd hb' hdis (by rw [before_congr hrt hat]; exact hm))
    | next q rest new hb' hrun hd hqueue =>
      exact Awaits.next hi' hsince hb' hrun hd hqueue hdis hat
        (le_of_add_le_right (a := slice (x.ticks r)) hm)
  have hcost : x.before r ahead ≤ m := hm
  cases hslice with
  | clock _ hs =>
    obtain ⟨s₁, hw, -, hcase⟩ := clockHandler_ok hr hs
    obtain ⟨hrun, hd, hb₁⟩ := weakup_goes hb hi.sched hw
    have hi₁ : SchedInv s₁ := (hi.sched.tick _).weakup hw
    rcases hcase with ⟨hone, hsch, ht⟩ | ⟨rfl, t, hslice, ht⟩
    · -- the slice is used up
      obtain ⟨q, rest, new', hb', hrun', hd', hqueue'⟩ := schedule_next hi₁.toMidway hd hb₁ hsch
      have hat (u : Pid) (hu : u ∈ ahead) : y.ticks u = x.ticks u := by
        rw [ht, update_of_ne (hahead u hu)]
      rw [Slices.before, hone] at hcost
      refine (Awaits.next (m := m - 1) hi' hsince hb' hrun' hd' hqueue' hdis hat
        (by omega)).imp_right fun hw => ⟨m - 1, ?_, hw⟩
      show m - 1 + 1 ≤ m
      omega
    · have hbefore : y.before r ahead + 1 = x.before r ahead := by
        have hat : ∀ u ∈ ahead, y.ticks u = x.ticks u := fun u hu => by
          rw [ht, update_of_ne (hahead u hu)]
        rw [Slices.before, Slices.before, ht, update_self, ← hslice]
        rw [List.map_congr_left fun u hu => by rw [update_of_ne (hahead u hu)]]
        omega
      exact Or.inr ⟨y.before r ahead, by rw [← hbefore] at hcost; exact hcost,
        .goes hi' hsince hr hrun hd hb₁ hdis le_rfl⟩
  | create hnew hs =>
    obtain ⟨hrne, hane⟩ := hi.new_ne hr hq hnew
    exact (hturn (step_turn hi.sched hb hspare hs) (update_of_ne hrne ..)
      fun u hu => update_of_ne (hane u hu) ..).imp_right fun hw => ⟨m, le_rfl, hw⟩
  | fork hr' hnew hs =>
    obtain ⟨hrne, hane⟩ := hi.new_ne hr hq hnew
    exact (hturn (step_turn hi.sched hb hspare hs) (update_of_ne hrne ..)
      fun u hu => update_of_ne (hane u hu) ..).imp_right fun hw => ⟨m, le_rfl, hw⟩
  | exitWait hnew hs =>
    obtain ⟨hrne, hane⟩ := hi.new_ne hr hq hnew
    exact (hturn (step_turn hi.sched hb hspare hs) (update_of_ne hrne ..)
      fun u hu => update_of_ne (hane u hu) ..).imp_right fun hw => ⟨m, le_rfl, hw⟩
  | other _ _ _ _ hs =>
    exact (hturn (step_turn hi.sched hb hspare hs) rfl fun _ _ => rfl).imp_right fun hw =>
      ⟨m, le_rfl, hw⟩

/-- No task starves: a ready task that is not taken out of its list is dispatched before the clock has
    ticked as often as the slices of the running task and of those ahead of it last together,
    whatever else becomes of the tasks. -/
theorem served_within {as : List SliceOp} (h : sliceSys.Reach x) (hr : x.sched.running_task = some r)
    (hq : x.sched.queue = ahead ++ p :: behind) (hrun : (sliceSys.restrict (SparesReady p)).Run x as y)
    (hn : slice (x.priority r) + (ahead.map fun q => slice (x.priority q)).sum ≤
      (as.map SliceOp.tick).sum) : ∃ out, y.dispatched = x.dispatched ++ out ∧ p ∈ out := by
  have hi := sliceInv_reach h
  have hbefore : x.before r ahead ≤
      slice (x.priority r) + (ahead.map fun q => slice (x.priority q)).sum :=
    Nat.add_le_add (hi.within r) (List.sum_le_sum fun q _ => hi.within q)
  refine hrun.served (W := Awaits x.dispatched p) (fun m s a t hw hs => hw.step hs)
    (fun s a t hd hs => hd.step hs.2) ?_
    ⟨hi, List.prefix_rfl, r, ahead, behind, hr, hq, le_rfl⟩ (hbefore.trans hn)
  rintro s ⟨-, -, q, ahead', -, -, -, hzero⟩
  have := slice_pos (s.ticks q)
  unfold Slices.before at hzero
  omega

/-- After the first dispatch task 2 waits behind tasks 0 and 1, with slices of 1 and 3. -/
theorem served_within_four : ∃ x y, sliceSys.Reach x ∧ x.sched.running_task = some 0 ∧
    x.sched.queue = [1, 2] ∧
    (sliceSys.restrict (SparesReady 2)).Run x [.clock, .clock, .clock, .clock] y ∧
    ∃ out, y.dispatched = x.dispatched ++ out ∧ (2 : Pid) ∈ out := by
  obtain ⟨s, z₁, z₂, z₃, z₄, z₅, h₀, h₁, h₂, h₃, h₄, h₅, f₀, f₁, f₂, f₃, f₄, hr, hq, hp⟩ :
      ∃ s z₁ z₂ z₃ z₄ z₅, taskInit = .ok s ∧
        clockHandler ⟨s, fun p => if p = 0 then 1 else 3, fun p => if p = 0 then 1 else 3⟩ = .ok z₁ ∧
        clockHandler z₁ = .ok z₂ ∧ clockHandler z₂ = .ok z₃ ∧ clockHandler z₃ = .ok z₄ ∧
        clockHandler z₄ = .ok z₅ ∧ Free s ∧ Free z₁.sched ∧ Free z₂.sched ∧ Free z₃.sched ∧
        Free z₄.sched ∧ z₁.sched.running_task = some 0 ∧ z₁.sched.queue = [1, 2] ∧
        z₁.priority = fun p => if p = 0 then 1 else 3 := by
    refine ⟨_, _, _, _, _, _, rfl, rfl, rfl, rfl, rfl, rfl, (fun r t hr => by cases hr),
      free_of rfl rfl rfl, free_of rfl rfl rfl, free_of rfl rfl rfl, free_of rfl rfl rfl, rfl, rfl, rfl⟩
  have hreach : sliceSys.Reach ⟨z₁, [] ++ departures s z₁.sched⟩ :=
    .step (s := ⟨⟨s, _, _⟩, []⟩) (a := .clock) (.init ⟨h₀, rfl, rfl, rfl, rfl, rfl⟩)
      ⟨.clock f₀ h₁, rfl⟩
  have tick {x y : Dispatched} {z : Slices} {as : List SliceOp}
      (hrun : (sliceSys.restrict (SparesReady 2)).Run x as y) (hf : Free y.sched)
      (hz : clockHandler y.toSlices = .ok z) : (sliceSys.restrict (SparesReady 2)).Run x (as ++ [.clock])
        ⟨z, y.dispatched ++ departures y.sched z.sched⟩ :=
    hrun.step ⟨trivial, .clock hf hz, rfl⟩
  have hrun := tick (tick (tick (tick (.nil (s := ⟨z₁, [] ++ departures s z₁.sched⟩)) f₁ h₂) f₂ h₃)
    f₃ h₄) f₄ h₅
  have hq' : z₁.sched.queue = [1] ++ 2 :: [] := hq
  refine ⟨_, _, hreach, hr, hq, hrun, served_within hreach hr hq' hrun ?_⟩
  rw [hp]
  decide

end Waiting

end Rdix.Sched
