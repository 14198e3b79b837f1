/-
  The request queue of a disk (kernel/device.c: get_next_req, device_request).

  Any number of tasks are inside `device_request` on one disk.  A step is what one task
  does between two points where the code can be left: it inserts its request, finds the
  device idle and starts to serve, finds it busy and blocks, or completes.  While it
  serves, a task may also wait for the disk or for the lock of the buffer.  The scheduler
  is `kernel/task.c`: a task that blocks hands the processor to a ready one, and
  `unblock` moves a task from the list it is in to `ready_list`.
-/
import Rdix.Lib.Run
import Rdix.Kernel.Halt
import Rdix.Kernel.List

namespace Rdix

open Transition

/-! ## The queue -/

/-- `REQ_READ` and `REQ_WRITE`. -/
inductive ReqType where
  | read
  | write
deriving DecidableEq

/-- `DIRECT_FORE` and `DIRECT_BACK`. -/
inductive Direct where
  | fore
  | back
deriving DecidableEq

/-- `request_t`, for tasks `T` and buffers `β`. -/
structure Request (T β : Type) where
  type : ReqType
  idx : ℕ
  buf : β
  task : T
deriving DecidableEq

/-- The fields of `device_t` that `device_request` uses. -/
structure Device (T β : Type) where
  do_request : Bool
  req_direct : Direct
  request_list : List (Request T β)

variable {T β : Type}

/-- `list_insert(device->request_list, &req->node, greater)`. -/
def Device.insert (d : Device T β) (req : Request T β) : Device T β :=
  { d with request_list := listInsert Request.idx greater req d.request_list }

/-- A queue is consistent with the requests not yet completed. -/
structure Device.Holds (d : Device T β) (pending : Request T β → Prop) : Prop where
  sorted : d.request_list.Pairwise fun a b => a.idx ≤ b.idx
  nodup : d.request_list.Nodup
  mem : ∀ r, r ∈ d.request_list ↔ pending r

theorem Device.Holds.insert {d : Device T β} {P : Request T β → Prop} (h : d.Holds P)
    {r : Request T β} (hr : ¬ P r) : (d.insert r).Holds fun q => q = r ∨ P q where
  sorted := listInsert_sorted _ _ h.sorted
  nodup := (listInsert_perm _ _ _ _).nodup_iff.2
    (List.nodup_cons.2 ⟨fun hm => hr ((h.mem r).1 hm), h.nodup⟩)
  mem q := by simp only [Device.insert, mem_listInsert, h.mem]

section Queue
variable [DecidableEq T] [DecidableEq β]

/-- The new direction and the neighbour in that direction. -/
def getNextReq (d : Device T β) (req : Request T β) : C (Direct × Option (Request T β)) := do
  cassert (req ∈ d.request_list) "list == device->request_list"
  let direct :=
    if d.req_direct = .fore ∧ nextOf d.request_list req = none then .back
    else if d.req_direct = .back ∧ prevOf d.request_list req = none then .fore
    else d.req_direct
  match direct with
  | .fore => return (direct, nextOf d.request_list req)
  | .back => return (direct, prevOf d.request_list req)

/-- The end of the served request: the device is free, the next request is chosen and the served
    one leaves the list. -/
def Device.finish (d : Device T β) (req : Request T β) : C (Device T β × Option (Request T β)) := do
  let d := { d with do_request := false }
  let (direct, next) ← getNextReq d req
  return ({ d with req_direct := direct, request_list := d.request_list.erase req }, next)

variable {d : Device T β} {P : Request T β → Prop}

/-- What finishing a request does: a neighbour is chosen, unless the request was the last. -/
theorem Device.finish_spec (h : d.Holds P) {r : Request T β} (hr : P r) :
    ∃ direct next, d.finish r = .ok (⟨false, direct, d.request_list.erase r⟩, next) ∧
      (∀ q, next = some q → q ≠ r ∧ P q) ∧ (next = none → d.request_list.erase r = []) := by
  have hm : r ∈ d.request_list := (h.mem r).2 hr
  have hone : nextOf d.request_list r = none → prevOf d.request_list r = none →
      d.request_list.erase r = [] := fun h1 h2 => by
    rw [eq_singleton_of_neighbours h.nodup hm h1 h2]; simp
  have hnext : ∀ q, nextOf d.request_list r = some q → q ≠ r ∧ P q := fun q hq =>
    ⟨ne_of_nextOf h.nodup hm hq, (h.mem q).1 (mem_of_nextOf hq)⟩
  have hprev : ∀ q, prevOf d.request_list r = some q → q ≠ r ∧ P q := fun q hq =>
    ⟨ne_of_prevOf hq, (h.mem q).1 (mem_of_prevOf hq)⟩
  simp only [Device.finish, getNextReq, cassert_pos hm, ok_bind, pure_eq_ok]
  -- the direction turns round exactly at the end of the list it points to
  cases hd : d.req_direct with
  | fore =>
    by_cases h1 : nextOf d.request_list r = none
    · simp only [h1, and_self, if_true, ok_bind]
      exact ⟨_, _, rfl, hprev, hone h1⟩
    · simp only [h1, and_false, if_false, reduceCtorEq, false_and, ok_bind]
      exact ⟨_, _, rfl, hnext, fun h2 => absurd h2 h1⟩
  | back =>
    by_cases h1 : prevOf d.request_list r = none
    · simp only [h1, reduceCtorEq, false_and, if_false, and_self, if_true, ok_bind]
      exact ⟨_, _, rfl, hnext, fun h2 => hone h2 h1⟩
    · simp only [h1, reduceCtorEq, false_and, and_false, if_false, ok_bind]
      exact ⟨_, _, rfl, hprev, fun h2 => absurd h2 h1⟩

theorem Device.Holds.finish (h : d.Holds P) (r : Request T β) (direct : Direct) :
    (⟨false, direct, d.request_list.erase r⟩ : Device T β).Holds fun q => q ≠ r ∧ P q where
  sorted := h.sorted.sublist (List.erase_sublist ..)
  nodup := h.nodup.erase r
  mem q := by rw [h.nodup.mem_erase_iff, h.mem]

end Queue

/-! ## The tasks inside `device_request` -/

/-- Where the node of a task that does not run is: in `ready_list`, in `block_list`, or in some
    other list (the waiters of a mutex, of a port and so on). -/
inductive TaskList where
  | ready
  | block
  | other
deriving DecidableEq

/-- Where a task is in `device_request`: outside, at the test of `do_request`, or between setting
    and clearing it. -/
inductive Pc (T β : Type) where
  | out
  | check (req : Request T β)
  | serve (req : Request T β)

/-- The device, the tasks and the scheduler; `container t` is `none` for the running task. -/
structure QState (T β : Type) where
  dev : Device T β
  pc : T → Pc T β
  container : T → Option TaskList
  running : T

inductive QOp (T β : Type) where
  /-- the running task calls `device_request` -/
  | insert (req : Request T β)
  /-- it finds `do_request` false -/
  | start
  /-- it finds `do_request` true and blocks; `next` is scheduled -/
  | busy (next : T)
  /-- while serving it waits for the disk or the buffer's lock -/
  | wait (next : T)
  /-- it has served its request and returns -/
  | complete
  /-- a task outside leaves the processor for `next` -/
  | leave (l : TaskList) (next : T)
  /-- an interrupt or another part of the kernel unblocks `t` -/
  | wake (t : T)

variable [DecidableEq T]

/-- `block` of the running task in list `l`, and the switch to `next`. -/
def QState.block (s : QState T β) (l : TaskList) (next : T) : QState T β :=
  { s with
    container := Function.update (Function.update s.container s.running (some l)) next none
    running := next }

def QState.unblock (s : QState T β) (t : T) : C (QState T β) := do
  cassert ((s.container t).isSome) "list != NULL"
  return { s with container := Function.update s.container t (some .ready) }

variable [DecidableEq β]

/-- `device_request` from the clearing of `do_request` on. -/
def QState.complete (s : QState T β) (req : Request T β) : C (QState T β) := do
  let (dev, next) ← s.dev.finish req
  let s := { s with dev, pc := Function.update s.pc s.running .out }
  match next with
  | some next => s.unblock next.task
  | none => return s

/-- The steps of one disk. -/
inductive QStep : QState T β → QOp T β → QState T β → Prop where
  | insert {s req} : s.pc s.running = .out → req.task = s.running →
      QStep s (.insert req)
        { s with dev := s.dev.insert req, pc := Function.update s.pc s.running (.check req) }
  | start {s req} : s.pc s.running = .check req → s.dev.do_request = false →
      QStep s .start
        { s with
          dev := { s.dev with do_request := true }
          pc := Function.update s.pc s.running (.serve req) }
  | busy {s req next} : s.pc s.running = .check req → s.dev.do_request = true →
      s.container next = some .ready → QStep s (.busy next) (s.block .block next)
  | wait {s req next} : s.pc s.running = .serve req → s.container next = some .ready →
      QStep s (.wait next) (s.block .other next)
  | complete {s req t} : s.pc s.running = .serve req → s.complete req = .ok t →
      QStep s .complete t
  | leave {s l next} : s.pc s.running = .out → s.container next = some .ready →
      QStep s (.leave l next) (s.block l next)
  | wake {s u t} : s.unblock u = .ok t → QStep s (.wake u) t

/-- Any number of tasks that use one disk, from its installation on. -/
def diskSys (T β : Type) [DecidableEq T] [DecidableEq β] : Sys (QState T β) (QOp T β) where
  init s := s.dev = ⟨false, .fore, []⟩ ∧ (∀ t, s.pc t = .out) ∧
    ∀ t, s.container t = none ↔ t = s.running
  step := QStep

/-- A request that was inserted and not yet completed. -/
def QState.Pending (s : QState T β) (r : Request T β) : Prop :=
  s.pc r.task = .check r ∨ s.pc r.task = .serve r

/-- The invariant of the disk: the flag, the list, the tasks and the scheduler agree. -/
structure QInv (s : QState T β) : Prop where
  holds : s.dev.Holds s.Pending
  own : ∀ t r, s.pc t = .check r ∨ s.pc t = .serve r → r.task = t
  flag : s.dev.do_request = true ↔ ∃ t r, s.pc t = .serve r
  one : ∀ t t' r r', s.pc t = .serve r → s.pc t' = .serve r' → t = t'
  running : ∀ t, s.container t = none ↔ t = s.running
  served : s.dev.do_request = false → s.dev.request_list ≠ [] → ∃ r, s.Pending r ∧
    (r.task = s.running ∨ s.container r.task = some .ready)

/-! ### One lemma for each kind of step -/

section Steps
variable {s t : QState T β} {req : Request T β}

omit [DecidableEq T] [DecidableEq β] in
theorem QState.Pending.pc_ne {r : Request T β} (hp : s.Pending r) : s.pc r.task ≠ .out := by
  rcases hp with hp | hp <;> simp [hp]

omit [DecidableEq β] in
theorem QInv.insert (h : QInv s) (hpc : s.pc s.running = .out) (ht : req.task = s.running) :
    QInv { s with dev := s.dev.insert req, pc := Function.update s.pc s.running (.check req) } := by
  have hnp : ¬ s.Pending req := fun hp => hp.pc_ne (by rw [ht, hpc])
  have hpend : ∀ q : Request T β, (q = req ∨ s.Pending q) ↔
      Function.update s.pc s.running (.check req) q.task = .check q ∨
      Function.update s.pc s.running (.check req) q.task = .serve q := by
    intro q
    by_cases hq : q.task = s.running
    · have hnq : ¬ s.Pending q := fun hp => hp.pc_ne (by rw [hq, hpc])
      simp [hq, hnq, eq_comm]
    · have : q ≠ req := by rintro rfl; exact hq ht
      simp [Function.update_of_ne hq, this, QState.Pending]
  have hserve : ∀ u r, Function.update s.pc s.running (.check req) u = .serve r ↔
      s.pc u = .serve r := by
    intro u r
    by_cases hu : u = s.running
    · subst hu; simp [hpc]
    · rw [Function.update_of_ne hu]
  refine ⟨?_, fun u r hu => ?_, ?_, fun u u' r r' hu hu' => ?_, h.running, fun _ _ => ?_⟩
  · have := h.holds.insert hnp
    exact ⟨this.sorted, this.nodup, fun q => (this.mem q).trans (hpend q)⟩
  · by_cases hur : u = s.running
    · subst hur
      simp only [Function.update_self, Pc.check.injEq, reduceCtorEq, or_false] at hu
      rw [← hu, ht]
    · simp only [Function.update_of_ne hur] at hu; exact h.own u r hu
  · simp only [hserve]; exact h.flag
  · exact h.one u u' r r' ((hserve u r).1 hu) ((hserve u' r').1 hu')
  · exact ⟨req, (hpend req).1 (Or.inl rfl), Or.inl ht⟩

omit [DecidableEq β] in
theorem QInv.start (h : QInv s) (hpc : s.pc s.running = .check req)
    (hf : s.dev.do_request = false) :
    QInv { s with
      dev := { s.dev with do_request := true }
      pc := Function.update s.pc s.running (.serve req) } := by
  have hown : req.task = s.running := h.own _ _ (Or.inl hpc)
  have hnone : ∀ u r, s.pc u ≠ .serve r := fun u r hu => by
    rw [h.flag.2 ⟨u, r, hu⟩] at hf; cases hf
  have hserve : ∀ u r, Function.update s.pc s.running (.serve req) u = .serve r ↔
      u = s.running ∧ r = req := by
    intro u r
    by_cases hu : u = s.running
    · subst hu; simp [eq_comm]
    · simp [hnone, hu]
  have hpend : ∀ q : Request T β, s.Pending q ↔
      Function.update s.pc s.running (.serve req) q.task = .check q ∨
      Function.update s.pc s.running (.serve req) q.task = .serve q := by
    intro q
    by_cases hq : q.task = s.running
    · simp [QState.Pending, hq, hpc]
    · simp [QState.Pending, Function.update_of_ne hq]
  refine ⟨⟨h.holds.sorted, h.holds.nodup, fun q => (h.holds.mem q).trans (hpend q)⟩,
    fun u r hu => ?_, ?_, fun u u' r r' hu hu' => ?_, h.running, fun hf' => by cases hf'⟩
  · by_cases hur : u = s.running
    · subst hur
      simp only [Function.update_self, reduceCtorEq, Pc.serve.injEq, false_or] at hu
      rw [← hu, hown]
    · simp only [Function.update_of_ne hur] at hu; exact h.own u r hu
  · exact ⟨fun _ => ⟨_, _, (hserve _ _).2 ⟨rfl, rfl⟩⟩, fun _ => rfl⟩
  · rw [((hserve u r).1 hu).1, ((hserve u' r').1 hu').1]

omit [DecidableEq β] in
/-- A switch keeps the invariant if the list `served` speaks of keeps its ready task. -/
theorem QInv.block (h : QInv s) {l : TaskList} {next : T} (hn : s.container next = some .ready)
    (hs : s.dev.do_request = true ∨ s.pc s.running = .out) : QInv (s.block l next) := by
  have hne : next ≠ s.running := fun he => by
    rw [(h.running next).2 he] at hn; cases hn
  refine ⟨h.holds, h.own, h.flag, h.one, fun u => ?_, fun hf hl => ?_⟩
  · simp only [QState.block]
    by_cases hu : u = next
    · subst hu; simp
    · rw [Function.update_of_ne hu]
      by_cases hr : u = s.running
      · subst hr; simp [hu]
      · rw [Function.update_of_ne hr, h.running]; simp [hr, hu]
  · rcases hs with hs | hs
    · rw [show s.dev.do_request = false from hf] at hs; cases hs
    · obtain ⟨r, hp, hr⟩ := h.served hf hl
      have hrun : r.task ≠ s.running := fun he => hp.pc_ne (by rw [he, hs])
      refine ⟨r, hp, ?_⟩
      simp only [QState.block]
      by_cases hrn : r.task = next
      · exact Or.inl hrn
      · rw [Function.update_of_ne hrn, Function.update_of_ne hrun]
        exact Or.inr (hr.resolve_left hrun)

omit [DecidableEq β] in
theorem QState.unblock_eq_ok {u : T} : s.unblock u = .ok t ↔
    (s.container u).isSome ∧ t = { s with container := Function.update s.container u (some .ready) } := by
  simp only [QState.unblock, cassert_bind_eq_ok, pure_eq_ok, Except.ok.injEq]
  exact and_congr_right fun _ => eq_comm

omit [DecidableEq β] in
theorem QInv.unblock (h : QInv s) {u : T} (hu : s.unblock u = .ok t) : QInv t := by
  obtain ⟨hc, rfl⟩ := QState.unblock_eq_ok.1 hu
  refine ⟨h.holds, h.own, h.flag, h.one, fun v => ?_, fun hf hl => ?_⟩
  · by_cases hv : v = u
    · subst hv
      have : v ≠ s.running := fun he => by rw [(h.running v).2 he] at hc; cases hc
      simp [this]
    · simp only [Function.update_of_ne hv, h.running]
  · obtain ⟨r, hp, hr⟩ := h.served hf hl
    refine ⟨r, hp, hr.imp id fun hr => ?_⟩
    by_cases hv : r.task = u
    · simp [hv]
    · simp only [Function.update_of_ne hv, hr]

/-- **Completion passes its assertions, and the task it unblocks is in some list.** -/
theorem QInv.complete_ok (h : QInv s) (hpc : s.pc s.running = .serve req) :
    ∃ t, s.complete req = .ok t ∧ QInv t := by
  have hpr : s.Pending req := by
    rw [QState.Pending, h.own _ _ (Or.inr hpc)]; exact Or.inr hpc
  obtain ⟨direct, next, hfin, hnext, hlast⟩ := Device.finish_spec h.holds hpr
  have hown : req.task = s.running := h.own _ _ (Or.inr hpc)
  have hserve : ∀ u r, Function.update s.pc s.running (Pc.out : Pc T β) u ≠ .serve r := by
    intro u r hu
    by_cases hur : u = s.running
    · subst hur; simp at hu
    · rw [Function.update_of_ne hur] at hu
      exact hur (h.one _ _ _ _ hu hpc)
  have hpend : ∀ q : Request T β, (q ≠ req ∧ s.Pending q) ↔
      Function.update s.pc s.running .out q.task = .check q ∨
      Function.update s.pc s.running .out q.task = .serve q := by
    intro q
    by_cases hq : q.task = s.running
    · simp only [hq, Function.update_self, reduceCtorEq, or_self, iff_false, not_and]
      intro hne hp
      rw [QState.Pending, hq, hpc] at hp
      simp only [reduceCtorEq, Pc.serve.injEq, false_or] at hp
      exact hne hp.symm
    · have : q ≠ req := by rintro rfl; exact hq hown
      simp [Function.update_of_ne hq, this, QState.Pending]
  set s' : QState T β :=
    { s with dev := ⟨false, direct, s.dev.request_list.erase req⟩,
             pc := Function.update s.pc s.running .out } with hs'
  have hholds : s'.dev.Holds s'.Pending := by
    have := h.holds.finish req direct
    exact ⟨this.sorted, this.nodup, fun q => (this.mem q).trans (hpend q)⟩
  have hflag : s'.dev.do_request = true ↔ ∃ u r, s'.pc u = .serve r :=
    ⟨fun hc => Bool.noConfusion hc, fun ⟨u, r, hu⟩ => absurd hu (hserve u r)⟩
  have hown' : ∀ u r, s'.pc u = .check r ∨ s'.pc u = .serve r → r.task = u := by
    intro u r hu
    by_cases hur : u = s.running
    · subst hur; simp [hs'] at hu
    · simp only [hs', Function.update_of_ne hur] at hu; exact h.own u r hu
  have hone : ∀ u u' r r', s'.pc u = .serve r → s'.pc u' = .serve r' → u = u' :=
    fun u _ r _ hu => absurd hu (hserve u r)
  cases next with
  | none =>
    refine ⟨s', ?_, hholds, hown', hflag, hone, h.running, fun _ hl => absurd (hlast rfl) hl⟩
    simp only [QState.complete, hfin, ok_bind, pure_eq_ok, hs']
  | some q =>
    obtain ⟨hne, hq⟩ := hnext q rfl
    have hqr : q.task ≠ s.running := fun he => hne (by
      rw [QState.Pending, he, hpc] at hq
      simpa [eq_comm] using hq)
    have hc : (s.container q.task).isSome := by
      rw [Option.isSome_iff_ne_none]
      exact fun hc => hqr ((h.running _).1 hc)
    refine ⟨{ s' with container := Function.update s.container q.task (some .ready) }, ?_, hholds,
      hown', hflag, hone, fun v => ?_, fun _ _ => ⟨q, (hpend q).1 ⟨hne, hq⟩, Or.inr ?_⟩⟩
    · simp only [QState.complete, hfin, ok_bind, QState.unblock, cassert_pos hc, pure_eq_ok, hs']
    · by_cases hv : v = q.task
      · subst hv; simp [hqr, hs']
      · simp only [Function.update_of_ne hv, h.running, hs']
    · simp

theorem QInv.step {op : QOp T β} (h : QInv s) (hst : QStep s op t) : QInv t := by
  cases hst with
  | insert hpc ht => exact h.insert hpc ht
  | start hpc hf => exact h.start hpc hf
  | busy hpc hf hn => exact h.block hn (Or.inl hf)
  | wait hpc hn => exact h.block hn (Or.inl (h.flag.2 ⟨_, _, hpc⟩))
  | complete hpc hc =>
    obtain ⟨t', ht', hI⟩ := h.complete_ok hpc
    rw [ht'] at hc; cases hc
    exact hI
  | leave hpc hn => exact h.block hn (Or.inr hpc)
  | wake hu => exact h.unblock hu

theorem QInv.reach (h : (diskSys T β).Reach s) : QInv s := by
  refine h.invariant (fun s hs => ?_) fun _ _ _ hI hst => hI.step hst
  obtain ⟨hd, hpc, hr⟩ := hs
  have hP : ∀ r, ¬ s.Pending r := fun r => by simp [QState.Pending, hpc]
  refine ⟨?_, fun t r => by simp [hpc], by simp [hd, hpc], fun t _ r _ ht => by simp [hpc] at ht,
    hr, fun _ hl => by simp [hd] at hl⟩
  rw [hd]
  exact ⟨List.Pairwise.nil, List.nodup_nil, fun r => by simp [hP]⟩

end Steps

/-- What the users of a disk rely on. -/
structure QueueOk (s : QState T β) : Prop where
  one_server : ∀ t t' r r', s.pc t = .serve r → s.pc t' = .serve r' → t = t'
  flag : s.dev.do_request = true ↔ ∃ t r, s.pc t = .serve r
  sorted : s.dev.request_list.Pairwise fun a b => a.idx ≤ b.idx
  once : s.dev.request_list.Nodup
  unfinished : ∀ r, r ∈ s.dev.request_list ↔ s.Pending r
  complete_ok : ∀ req, s.pc s.running = .serve req → ∃ t, s.complete req = .ok t
  next_listed : ∀ req dev next, s.pc s.running = .serve req →
    s.dev.finish req = .ok (dev, some next) → ∃ l, s.container next.task = some l
  served : s.dev.do_request = false → s.dev.request_list ≠ [] → ∃ r, s.Pending r ∧
    (r.task = s.running ∨ s.container r.task = some .ready)

/-- **One server at a time and no lost wake-up**, in every interleaving. -/
theorem queueOk_reach {s : QState T β} (h : (diskSys T β).Reach s) : QueueOk s := by
  have hI := QInv.reach h
  refine ⟨hI.one, hI.flag, hI.holds.sorted, hI.holds.nodup, hI.holds.mem, fun req hpc => ?_,
    fun req dev next hpc hfin => ?_, hI.served⟩
  · obtain ⟨t, ht, -⟩ := hI.complete_ok hpc
    exact ⟨t, ht⟩
  · obtain ⟨t, ht, -⟩ := hI.complete_ok hpc
    simp only [QState.complete, hfin, ok_bind] at ht
    exact Option.isSome_iff_exists.1 (QState.unblock_eq_ok.1 ht).1

/-- Two tasks: the first is served while the second waits for it. -/
theorem queueOk_two_tasks : ∃ s : QState (Fin 2) Unit, s.dev.do_request = true ∧
    s.dev.request_list.length = 2 ∧ QueueOk s := by
  let s₀ : QState (Fin 2) Unit :=
    ⟨⟨false, .fore, []⟩, fun _ => .out, fun t => if t = 0 then none else some .ready, 0⟩
  have h₀ : (diskSys (Fin 2) Unit).Reach s₀ := .init ⟨rfl, fun _ => rfl, by decide⟩
  have h₁ := h₀.step (@QStep.insert _ _ _ _ _ ⟨.read, 4, (), 0⟩ rfl rfl)
  have h₂ := h₁.step (QStep.start rfl rfl)
  have h₃ := h₂.step (@QStep.wait _ _ _ _ _ _ 1 rfl rfl)
  have h₄ := h₃.step (@QStep.insert _ _ _ _ _ ⟨.write, 2, (), 1⟩ rfl rfl)
  exact ⟨_, rfl, rfl, queueOk_reach h₄⟩

end Rdix
