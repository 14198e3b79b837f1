/-
  Commands to a disk and their timeouts (kernel/hba.c), for one port, over the scheduler.

  * `sataBusyWait`, `sataSendingWait`, `timer`, `hbaHandler`: the port, as the code has it;
  * `DiskStep`: the calls, the timer threads, the device and its interrupts in any order;
  * `Waits`: a caller and its timer, and `Waits.step`: what leaves them alone;
  * `DiskInv`, `disk_commands`: what the calls return, in the runs in which no interrupt comes
    after the timeout of its command.
-/
import Rdix.Kernel.Waitpid
import Rdix.Kernel.Mutex
import Rdix.Lib.Requests

namespace Rdix.Sched

open Function Transition

/-! ## The port -/

/-- `hba_port_t`; `dps` is a bit of PxIS, and `waiting_list` names the list. -/
structure HbaPort where
  dps : Bool
  waiting_list : ℕ
  sending : Option Pid
  timer : Option Pid

/-- `bsy` is the bit of PxTFD. -/
def sataBusyWait (port : HbaPort) (bsy : Bool) (s : State) : C State :=
  if bsy then do
    cassert port.sending.isSome "port->sending != NULL"
    block s (some (.other port.waiting_list)) none .waiting
  else return s

/-- `__timer`, after its `sleep(1000)`. -/
def timer (port : HbaPort) (s : State) : C (HbaPort × State) := do
  let s ← kernelThreadExit s none 1
  return ({ port with sending := none }, s)

/-- `sata_sending_wait` from `set_IF(false)` on; its `sys_waitpid` blocks. -/
def sataSendingWait (port : HbaPort) (s : State) : C (HbaPort × State × WaitRes) := do
  let timer ← getTask s
  let s₁ ← taskCreate s 3
  let r ← sysWaitpid s₁ (timer.1 : ℕ)
  cassert (r.2 ≠ .failed) "sys_waitpid(((TCB_t*)port->timer->owner)->pid, &tmp) != -1"
  return ({ port with dps := false, sending := s.running_task, timer := some timer.1 }, r)

/-- The first node of the list is unblocked. -/
def wakeFirst (s : State) (l : ListId) : C State :=
  match (s.lists l).head? with
  | none => return s
  | some node => unblock s node

def hbaHandler (port : HbaPort) (s : State) : C (HbaPort × State) :=
  if port.dps then do
    cassert port.sending.isSome "port->sending != NULL"
    let s₁ ← wakeFirst s (.other port.waiting_list)
    match port.timer with
    | none => return ({ port with sending := none, dps := false }, s₁)
    | some timer => do
      let s₂ ← kernelThreadExit s₁ (some timer) 0
      -- the handler of an interrupt of the timer itself does not go on
      return ({ port with sending := none, dps := s₁.running_task = some timer }, s₂)
  else throw (.panic "can not find a port which trigger the interrupt\n")

/-! ## Runs -/

/-- Where a task is: a caller in front of `sata_sending_wait`, after its first assertion, or in its
    `sys_waitpid` for a command; or the timer thread of a command, before or after its sleep. -/
inductive DiskPc where
  | idle
  | ready
  | checked
  | sent (cmd : ℕ) (timer : Pid)
  | timer (cmd : ℕ) (caller : Pid)
  | slept (cmd : ℕ) (caller : Pid)

namespace DiskPc

/-- The command that a caller waits for, and its timer. -/
def call : DiskPc → Option (ℕ × Pid)
  | sent cmd t => some (cmd, t)
  | _ => none

/-- The command of a timer thread, and its caller. -/
def clock : DiskPc → Option (ℕ × Pid)
  | .timer cmd caller => some (cmd, caller)
  | .slept cmd caller => some (cmd, caller)
  | _ => none

end DiskPc

/-- The commands are numbered.  The device has those of `device`, those of `raised` are completed,
    and `handled` are those whose interrupt has been handled; `expired` records of each timer that
    has run out its command and the command that it has ended. -/
structure DiskState where
  port : HbaPort
  sched : State
  pc : Pid → DiskPc
  issued : ℕ
  device : Set ℕ
  raised : Set ℕ
  handled : Set ℕ
  expired : List (ℕ × Option ℕ)

namespace DiskState
variable (x : DiskState)

/-- The command that `port->sending` waits for. -/
def current : Option ℕ := (x.port.sending.bind fun p => (x.pc p).call).map Prod.fst

def waiters : List Pid := x.sched.lists (.other x.port.waiting_list)

end DiskState

inductive DiskOp where
  | busyWait (p : Pid)
  | check (p : Pid)
  | send (p : Pid) (cmd : ℕ)
  | ret (p : Pid) (cmd : ℕ) (status : ℤ)
  | sleep (t : Pid)
  | expire (t : Pid) (cmd : ℕ)
  | complete (cmd : ℕ)
  | interrupt (cmd : ℕ)
  | other (op : Op)

/-- A `sys_exit` that blocks. -/
@[simp] def Op.Suspends : Op → Prop
  | .exitBlock _ _ _ | .exitWait _ _ => True
  | _ => False

/-- A task goes into the list `l` to wait there. -/
@[simp] def Op.BlocksIn (l : ListId) : Op → Prop
  | .block list _ _ => list = some l
  | .exitBlock _ list _ => list = some l
  | _ => False

/-- The operation is no exit of the task, does not free it, and is no `sys_waitpid` of it. -/
structure Spares (r : Option Pid) (op : Op) (p : Pid) : Prop where
  ended : target r op ≠ some p
  suspended : op.Suspends → r ≠ some p
  waitpid : ∀ pid res, op = .waitpid pid res → r ≠ some p
  resume : ∀ c status, op = .resume c status → r ≠ some p ∧ c ≠ p

/-- The callers and the timers are left alone, and no other task waits at the port. -/
structure Elsewhere (x : DiskState) (op : Op) : Prop where
  spares : ∀ p, x.pc p ≠ .idle → Spares x.sched.running_task op p
  block : ¬ op.BlocksIn (.other x.port.waiting_list)

/-- A call that blocks goes on when its task runs again. -/
inductive DiskStep (x : DiskState) : DiskOp → DiskState → Prop where
  | busyWait {p bsy s'} : x.sched.running_task = some p → Idle x.sched → x.pc p = .idle →
      sataBusyWait x.port bsy x.sched = .ok s' →
      DiskStep x (.busyWait p) { x with sched := s', pc := update x.pc p .ready }
  | check {p} : x.sched.running_task = some p → x.pc p = .ready → x.port.sending = none →
      DiskStep x (.check p) { x with pc := update x.pc p .checked }
  | send {p t port s'} : x.sched.running_task = some p → Idle x.sched → x.pc p = .checked →
      sataSendingWait x.port x.sched = .ok (port, s', .blocked) → port.timer = some t →
      DiskStep x (.send p x.issued)
        { x with port, sched := s', issued := x.issued + 1, device := insert x.issued x.device
                 pc := update (update x.pc p (.sent x.issued t)) t (.timer x.issued p) }
  | ret {p cmd t c status s'} : x.sched.running_task = some p → x.pc p = .sent cmd t →
      resumeWait x.sched = .ok (s', c, status) →
      DiskStep x (.ret p cmd status)
        { x with sched := s', pc := update (update x.pc c .idle) p .idle }
  | sleep {t cmd p s'} : x.sched.running_task = some t → Free x.sched → x.pc t = .timer cmd p →
      taskSleep x.sched 1000 = .ok s' →
      DiskStep x (.sleep t) { x with sched := s', pc := update x.pc t (.slept cmd p) }
  | expire {t cmd p port s'} : x.sched.running_task = some t → Free x.sched →
      x.pc t = .slept cmd p → timer x.port x.sched = .ok (port, s') →
      DiskStep x (.expire t cmd)
        { x with port, sched := s', expired := (cmd, x.current) :: x.expired }
  | complete {cmd} : cmd ∈ x.device →
      DiskStep x (.complete cmd)
        { x with port := { x.port with dps := true }, device := x.device \ {cmd}
                 raised := insert cmd x.raised }
  | interrupt {cmd port s'} : Free x.sched → cmd ∈ x.raised →
      hbaHandler x.port x.sched = .ok (port, s') →
      DiskStep x (.interrupt cmd)
        { x with port, sched := s', raised := x.raised \ {cmd}, handled := insert cmd x.handled }
  | other {op s'} : Elsewhere x op → Step x.sched op s' →
      DiskStep x (.other op) { x with sched := s' }

/-- `new_port`, at any time. -/
def diskSys (waiting_list : ℕ) : Sys DiskState DiskOp where
  init x := schedSys.Reach x.sched ∧ x.waiters = [] ∧ x =
    { port := { dps := false, waiting_list, sending := none, timer := none }, sched := x.sched
      pc := fun _ => .idle, issued := 0, device := ∅, raised := ∅, handled := ∅, expired := [] }
  step := DiskStep

/-- `port->sending` is `NULL` when a command is given to the device, and an interrupt is handled
    only if the timer of its command has not run out. -/
def Punctual (x : DiskState) : DiskOp → Prop
  | .send _ _ => x.port.sending = none
  | .interrupt cmd => ∀ e ∈ x.expired, e.1 ≠ cmd
  | _ => True

/-! ## What leaves a caller and its timer alone -/

/-- `p` is in the `sys_waitpid` for its child `t`. -/
structure Waits (K : Kins) (p t : Pid) (k u : Kin) : Prop where
  caller : K p = some k
  timer : K t = some u
  alive : k.dead = false
  child : k.child = some t
  waitpid : k.waitpid = (t : ℕ)
  ppid : u.ppid = p

/-- `p` is alive, and outside `sys_waitpid`. -/
def Outside (K : Kins) (p : Pid) : Prop := ∃ k, K p = some k ∧ k.dead = false ∧ k.child = none

section Frame
variable {K K' : Kins} {r : Option Pid} {op : Op} {p t q : Pid} {k u g : Kin}

/-- Another task changes, or the timer in what does not matter. -/
theorem Waits.put (h : Waits K p t k u) (hq : q ≠ p)
    (hg : q = t → g.ppid = u.ppid ∧ g.dead = u.dead ∧ g.status = u.status) :
    ∃ u', Waits (update K q (some g)) p t k u' ∧ u'.dead = u.dead ∧ u'.status = u.status := by
  have hcaller : update K q (some g) p = some k := by rw [update_of_ne hq.symm, h.caller]
  by_cases hqt : q = t
  · obtain ⟨hpp, hd, hst⟩ := hg hqt
    exact ⟨g, ⟨hcaller, by rw [hqt, update_self], h.alive, h.child, h.waitpid, hpp.trans h.ppid⟩,
      hd, hst⟩
  · exact ⟨u, ⟨hcaller, by rw [update_of_ne (Ne.symm hqt), h.timer], h.alive, h.child, h.waitpid,
      h.ppid⟩, rfl, rfl⟩

theorem Waits.clear (h : Waits K p t k u) (hp : q ≠ p) (ht : q ≠ t) :
    Waits (update K q none) p t k u :=
  ⟨by rw [update_of_ne hp.symm, h.caller], by rw [update_of_ne ht.symm, h.timer], h.alive, h.child,
    h.waitpid, h.ppid⟩

/-- The caller has a child, so it is no task outside `sys_waitpid`. -/
theorem Waits.ne_of_child (h : Waits K p t k u) (hq : K q = some g) (hc : g.child = none) :
    q ≠ p := by
  rintro rfl
  rw [h.caller] at hq
  cases hq
  rw [h.child] at hc
  cases hc

theorem adopt_fields (x u : Kin) : (x.adopt u).dead = u.dead ∧ (x.adopt u).child = u.child ∧
    (x.adopt u).waitpid = u.waitpid ∧ (x.adopt u).waiting = u.waiting := by
  unfold Kin.adopt
  split_ifs <;> exact ⟨rfl, rfl, rfl, rfl⟩

/-- The exit of a third task does not wake the caller, and the timer stays its child. -/
theorem Waits.exit {x : Pid} {status : ℤ} (h : Waits K p t k u) (hpid : OwnPid K)
    (hx : K x = some g) (hp : x ≠ p) (ht : x ≠ t)
    (hK : ∀ q, q ≠ x → K' q = afterExit K x g status q) :
    ∃ k' u', Waits K' p t k' u' ∧ k'.waiting = k.waiting ∧ u'.dead = u.dead ∧
      u'.status = u.status := by
  obtain ⟨hd, hc, hw, hwait⟩ := adopt_fields g k
  have hnot : ¬ (g.adopt k).Awaits g := by
    rintro ⟨-, hany | hone⟩
    · rw [hw, h.waitpid] at hany
      omega
    · rw [hw, h.waitpid, hpid x g hx] at hone
      exact ht (Fin.ext (by exact_mod_cast hone.symm))
  obtain ⟨u', hu'⟩ : ∃ u', afterExit K x g status t = some u' := by
    rw [afterExit_of_ne ht.symm, h.timer]
    exact ⟨_, rfl⟩
  obtain ⟨u₀, hu₀, heq, -⟩ := afterExit_some ht.symm hu'
  rw [h.timer] at hu₀
  cases hu₀
  have hpp : (g.adopt u).ppid = p := by
    rw [adopt_ppid, if_neg, h.ppid]
    rw [h.ppid, hpid x g hx]
    exact hp.symm
  refine ⟨g.adopt k, u', ⟨?_, (hK t ht.symm).trans hu', hd.trans h.alive, hc.trans h.child,
    hw.trans h.waitpid, ?_⟩, hwait, ?_, ?_⟩
  · rw [hK p hp.symm, afterExit_of_ne hp.symm, h.caller, Option.map_some, if_neg fun hb => hnot hb.2]
  · rw [heq]
    exact hpp
  · rw [heq]
  · rw [heq]

/-- The exit of another task. -/
theorem Outside.exit {x : Pid} {status : ℤ} (h : Outside K p) (hp : p ≠ x)
    (hK : K' p = afterExit K x g status p) : Outside K' p := by
  obtain ⟨k, hk, hd, hc⟩ := h
  obtain ⟨k', hk'⟩ : ∃ k', afterExit K x g status p = some k' := by
    rw [afterExit_of_ne hp, hk]
    exact ⟨_, rfl⟩
  obtain ⟨k₀, hk₀, heq, -⟩ := afterExit_some hp hk'
  rw [hk] at hk₀
  cases hk₀
  exact ⟨k', hK.trans hk', by rw [heq, hd], by rw [heq, hc]⟩

/-- **A step that spares both leaves a caller and its timer alone.** -/
theorem Waits.step (h : Waits K p t k u) (hpid : OwnPid K) (hs : FStep r K op K')
    (hp : Spares r op p) (ht : Spares r op t) :
    ∃ k' u', Waits K' p t k' u' ∧ k'.waiting = k.waiting ∧ u'.dead = u.dead ∧
      u'.status = u.status := by
  cases hs with
  | quiet => exact ⟨k, u, h, rfl, rfl, rfl⟩
  | @turn _ q g w _ _ _ hq _ hc =>
    have hsame : q = t → g.ppid = u.ppid ∧ g.dead = u.dead ∧ g.status = u.status := by
      rintro rfl
      rw [h.timer] at hq
      cases hq
      exact ⟨rfl, rfl, rfl⟩
    obtain ⟨u', h', hrest⟩ := h.put (g := { g with waiting := w }) (h.ne_of_child hq hc) hsame
    exact ⟨k, u', h', rfl, hrest⟩
  | @born _ q g _ _ _ hq _ _ _ _ =>
    obtain ⟨u', h', hrest⟩ := h.put (q := q) (g := g) (fun he => by rw [he, h.caller] at hq; cases hq)
      fun he => by rw [he, h.timer] at hq; cases hq
    exact ⟨k, u', h', rfl, hrest⟩
  | exit _ hx hg _ =>
    exact h.exit hpid hg (fun he => hp.ended (he ▸ hx)) (fun he => ht.ended (he ▸ hx)) fun _ _ => rfl
  | suspend hr hq _ hc =>
    obtain ⟨u', h', hrest⟩ := h.put (h.ne_of_child hq hc) fun he => absurd (he ▸ hr)
      (ht.suspended trivial)
    exact ⟨k, u', h', rfl, hrest⟩
  | @suspendWait _ _ q c g v hr hq _ hc hnone _ _ _ _ =>
    obtain ⟨u₁, h₁, hd₁, hs₁⟩ := h.put (q := c) (g := v)
      (fun he => by rw [he, h.caller] at hnone; cases hnone)
      fun he => by rw [he, h.timer] at hnone; cases hnone
    obtain ⟨u', h', hd', hs'⟩ := h₁.put (h.ne_of_child hq hc) fun he => absurd (he ▸ hr)
      (ht.suspended trivial)
    exact ⟨k, u', h', rfl, hd'.trans hd₁, hs'.trans hs₁⟩
  | finish hr hg _ _ _ _ =>
    exact h.exit hpid hg (fun he => hp.ended (he ▸ hr)) (fun he => ht.ended (he ▸ hr))
      fun q hq => if_neg hq
  | wait hr hq _ hc _ _ _ =>
    obtain ⟨u', h', hrest⟩ := h.put (h.ne_of_child hq hc) fun he => absurd (he ▸ hr)
      (ht.waitpid _ _ rfl)
    exact ⟨k, u', h', rfl, hrest⟩
  | @reap q c g v _ hr hq hd hc hf hv hvd =>
    refine ⟨k, u, h.clear ?_ ?_, rfl, rfl, rfl⟩
    · rintro rfl
      rw [h.caller] at hv
      cases hv
      rw [h.alive] at hvd
      cases hvd
    · rintro rfl
      obtain ⟨w, hw, hwp, -⟩ := firstChild_some hf
      rw [h.timer] at hw
      cases hw
      exact h.ne_of_child hq hc ((hpid q g hq).symm.trans (hwp.symm.trans h.ppid))
  | @resume q c g v hr hq hd hw hc hv hne =>
    obtain ⟨hrp, hcp⟩ := hp.resume c _ rfl
    obtain ⟨hrt, hct⟩ := ht.resume c _ rfl
    obtain ⟨u', h', hrest⟩ := h.put (q := q) (g := { g with child := none }) (fun he => hrp (he ▸ hr))
      fun he => absurd (he ▸ hr) hrt
    exact ⟨k, u', h'.clear hcp hct, rfl, hrest⟩

/-- **A step that spares a task outside `sys_waitpid` leaves it there.** -/
theorem Outside.step (h : Outside K p) (hs : FStep r K op K') (hp : Spares r op p) :
    Outside K' p := by
  obtain ⟨k, hk, hd, hc⟩ := h
  have put {q : Pid} {g : Kin} (hg : q = p → g.dead = false ∧ g.child = none) :
      Outside (update K q (some g)) p := by
    by_cases hq : q = p
    · exact ⟨g, by rw [hq, update_self], hg hq⟩
    · exact ⟨k, by rw [update_of_ne (Ne.symm hq), hk], hd, hc⟩
  cases hs with
  | quiet => exact ⟨k, hk, hd, hc⟩
  | turn _ _ _ _ hqd hqc => exact put fun _ => ⟨hqd, hqc⟩
  | born _ _ _ _ _ hqd hqc _ => exact put fun _ => ⟨hqd, hqc⟩
  | exit _ hx _ _ => exact Outside.exit ⟨k, hk, hd, hc⟩ (fun he => hp.ended (he ▸ hx)) rfl
  | suspend _ _ hqd hqc => exact put fun _ => ⟨hqd, hqc⟩
  | @suspendWait _ _ q c g v hr hq hqd hqc hnone _ _ _ _ =>
    have hcp : c ≠ p := by
      rintro rfl
      rw [hk] at hnone
      cases hnone
    have hqp : q ≠ p := fun he => hp.suspended trivial (he ▸ hr)
    exact ⟨k, by rw [update_of_ne hqp.symm, update_of_ne hcp.symm, hk], hd, hc⟩
  | @finish x g hr _ _ _ _ _ =>
    have hne : p ≠ x := fun he => hp.ended (he ▸ hr)
    exact Outside.exit ⟨k, hk, hd, hc⟩ hne (if_neg hne)
  | @wait q _ _ _ _ hr _ _ _ _ _ _ =>
    have hne : q ≠ p := by
      rintro rfl
      exact hp.waitpid _ _ rfl hr
    exact put fun he => absurd he hne
  | @reap q c g v _ _ _ _ _ _ hv hvd =>
    have hne : p ≠ c := by
      rintro rfl
      rw [hk] at hv
      cases hv
      rw [hd] at hvd
      cases hvd
    exact ⟨k, by rw [update_of_ne hne, hk], hd, hc⟩
  | @resume q c g v hr _ _ _ _ _ _ =>
    obtain ⟨hrp, hcp⟩ := hp.resume c _ rfl
    have hne : p ≠ q := by
      rintro rfl
      exact hrp hr
    exact ⟨k, by rw [update_of_ne hcp.symm, update_of_ne hne, hk], hd, hc⟩

end Frame

/-! ## Who waits at the port -/

section Waiters
variable {s s' s₁ : State} {p q : Pid} {t t' : Tcb} {l : ListId} {n : ℕ}

theorem Moved.joins (m : Moved s s' p t) (h : s.Linked) (ht : t.container ≠ some l)
    (hq : q ∈ s'.lists l) : q ∈ s.lists l := by
  rw [(m.linked h).mem, State.listOf_update m.bucket] at hq
  by_cases hqp : q = p
  · rw [if_pos hqp] at hq
    exact absurd hq ht
  · rw [if_neg hqp] at hq
    exact (h.mem l q).2 hq

theorem Exited.joins (e : Exited s s₁ p t t') (h : s.Linked) (ht : t'.container ≠ some l)
    (hq : q ∈ s₁.lists l) : q ∈ s.lists l := by
  rw [(e.linked h).mem] at hq
  by_cases hqp : q = p
  · rw [hqp, State.listOf_of e.gone] at hq
    exact absurd hq ht
  · rw [h.mem]
    rw [State.listOf, e.others q hqp, Option.bind_map] at hq
    rw [State.listOf, ← hq]
    congr 1
    funext u
    exact (congrArg (·.2.1) (place_adopt t u)).symm

theorem wakeParent_joins (h : s.Linked) (hl : l ≠ .ready) (hs : wakeParent s t = .ok s')
    (hq : q ∈ s'.lists l) : q ∈ s.lists l := by
  obtain ⟨_, -, ⟨rfl, -⟩ | ⟨-, -, m⟩⟩ := wakeParent_ok hs
  · exact hq
  · exact m.joins h (by simpa using hl.symm) hq

/-- **A task comes into another list only by a `block` for that list.** -/
theorem Step.joins {op : Op} (h : SchedInv s) (hs : Step s op s')
    (hop : ¬ op.BlocksIn (.other n)) (hq : q ∈ s'.lists (.other n)) :
    q ∈ s.lists (.other n) := by
  have back {s₁ : State} (hm : Midway s₁) (hsch : Sched.schedule s₁ = .ok s') :
      q ∈ s₁.lists (.other n) := by
    rwa [schedule_lists hm.linked (by simp) hsch] at hq
  cases hs with
  | schedule _ hs => exact back h.toMidway hs
  | clock _ hs =>
    obtain rfl | ⟨_, _, -, -, m⟩ := weakup_ok hs (h.tick _)
    · exact hq
    · exact m.joins (h.tick _).linked (by simp) hq
  | @block list task st _ _ h₁ h₂ h₃ hst _ hs =>
    obtain ⟨_, _, _, -, -, m, hm, hsch⟩ := h.block_cases h₁ h₂ h₃ hst hs
    refine m.joins h.linked ?_ (back hm hsch)
    cases list with
    | none => simp
    | some m =>
      rintro ⟨⟩
      exact hop rfl
  | unblock _ _ hs =>
    obtain ⟨_, _, -, -, m⟩ := unblock_ok hs
    exact m.joins h.linked (by simp) hq
  | sleep _ hs =>
    obtain ⟨_, _, _, _, -, -, m, hm, hsch⟩ := h.taskSleep_cases hs
    exact m.joins h.linked (by simp) (back hm hsch)
  | create _ hs =>
    obtain ⟨_, -, m⟩ := taskCreate_ok hs
    exact m.joins h.linked (by simp) hq
  | fork _ hs =>
    obtain ⟨_, _, _, -, -, -, m⟩ := sysFork_ok hs
    exact m.joins h.linked (by simp) hq
  | exit _ hs =>
    obtain ⟨_, _, _, _, -, -, e, hw, hm, hsch⟩ := h.sysExit_cases hs
    exact e.joins h.linked (by simp) (wakeParent_joins (e.linked h.linked) (by simp) hw (back hm hsch))
  | @exitBlock _ list _ _ _ h₁ h₂ h₃ hst hs =>
    obtain ⟨_, _, _, -, -, -, m, hm, hsch⟩ := h.exitBlock_cases h₁ h₂ h₃ hst hs
    refine m.joins h.linked ?_ (back hm hsch)
    cases list with
    | none => simp
    | some m =>
      rintro ⟨⟩
      exact hop rfl
  | exitWait _ hs =>
    obtain ⟨_, _, _, _, _, _, -, -, -, -, -, m₁, m₂, -, m₃, hm, hsch⟩ := h.exitWait_cases hs
    have hl₁ := m₁.linked h.linked
    exact m₁.joins h.linked (by simp) (m₂.joins hl₁ (by simp [timerOf])
      (m₃.joins (m₂.linked hl₁) (by simp) (back hm hsch)))
  | exitEnd _ _ hs =>
    obtain ⟨r, t, _, _, hr, ht, -, e, -, hw, hm, hsch⟩ := h.exitRest_cases hs
    refine e.joins h.linked ?_ (wakeParent_joins (e.linked h.linked) (by simp) hw (back hm hsch))
    rw [show ({ t with exiting := false } : Tcb).container = none from h.off r t hr ht]
    simp
  | threadExit _ hs =>
    obtain ⟨_, _, _, s₂, -, -, e, hw, hcase⟩ := h.kernelThreadExit_cases hs
    have hq₂ : q ∈ s₂.lists (.other n) := by
      rcases hcase with ⟨hm, hsch⟩ | ⟨-, rfl⟩
      · exact back hm hsch
      · exact hq
    exact e.joins h.linked (by simp) (wakeParent_joins (e.linked h.linked) (by simp) hw hq₂)
  | waitpid _ hs =>
    obtain ⟨_, _, -, -, ⟨-, rfl, -⟩ | ⟨_, _, -, -, ⟨-, _, hf, -⟩ | ⟨-, -, _, hm, hsch, m⟩⟩⟩ :=
      h.sysWaitpid_cases hs
    · exact hq
    · rw [freeTask_lists h.linked hf] at hq
      exact List.mem_of_mem_erase hq
    · exact m.joins h.linked (by simp) (back hm hsch)
  | resume hs =>
    obtain ⟨_, task, _, -, ht, -, hf⟩ := resumeWait_ok hs
    have m := moved_put (u := { task with child := none }) ht rfl
    rw [freeTask_lists (m.linked h.linked) hf] at hq
    exact List.mem_of_mem_erase hq

/-- Another task than the running one changes. -/
theorem Moved.runs (m : Moved s s' p t) (hp : s.running_task ≠ some p) {r : Pid} {u : Tcb}
    (hr : s'.running_task = some r) (hu : s'.task_bucket r = some u) :
    s.running_task = some r ∧ s.task_bucket r = some u := by
  rw [m.running] at hr
  have hne : r ≠ p := by
    rintro rfl
    exact hp hr
  rw [m.of_ne hne] at hu
  exact ⟨hr, hu⟩

theorem Free.moved (h : Free s) (m : Moved s s' p t) (hp : s.running_task ≠ some p) : Free s' :=
  fun r u hr hu => h r u (m.runs hp hr hu).1 (m.runs hp hr hu).2

theorem Idle.moved (h : Idle s) (m : Moved s s' p t) (hp : s.running_task ≠ some p) : Idle s' :=
  fun r u hr hu => h r u (m.runs hp hr hu).1 (m.runs hp hr hu).2

/-- A waiter is woken, if there is one. -/
theorem wakeFirst_step (h : SchedInv s) (hf : Free s) (hp : ∀ q ∈ s.lists l, Plain s q)
    (hs : wakeFirst s l = .ok s') :
    (s' = s ∨ ∃ q ∈ s.lists l, Step s (.unblock q) s') ∧ Free s' := by
  cases hh : (s.lists l).head? with
  | none =>
    simp only [wakeFirst, hh] at hs
    cases hs
    exact ⟨Or.inl rfl, hf⟩
  | some q =>
    simp only [wakeFirst, hh] at hs
    have hq := List.mem_of_head? hh
    obtain ⟨t, m, ht, hm, hmoved⟩ := unblock_ok hs
    exact ⟨Or.inr ⟨q, hq, .unblock hf.idle (hp q hq) hs⟩,
      hf.moved hmoved (h.ne_running ht (by rw [hm]; rfl))⟩

end Waiters

/-! ## A command is issued, and its timer exits -/

section Commands
variable {s s' : State} {port port' : HbaPort} {K : Kins} {p t : Pid} {k u : Kin}

/-- The timer exits. -/
theorem Waits.over {n : ℤ} (h : Waits K p t k u) (hpt : t ≠ p) :
    ∃ k' u', Waits (afterExit K t u n) p t k' u' ∧ u'.dead = true ∧ u'.status = n := by
  obtain ⟨k', hk'⟩ : ∃ k', afterExit K t u n p = some k' := by
    rw [afterExit_of_ne hpt.symm, h.caller]
    exact ⟨_, rfl⟩
  obtain ⟨k₀, hk₀, heq, -⟩ := afterExit_some hpt.symm hk'
  rw [h.caller] at hk₀
  cases hk₀
  refine ⟨k', _, ⟨hk', if_pos rfl, ?_, ?_, ?_, h.ppid⟩, rfl, rfl⟩
  · rw [heq, h.alive]
  · rw [heq, h.child]
  · rw [heq, h.waitpid]

theorem firstChild_of {pid : ℤ} {c : Pid} (hu : K c = some u) (hup : u.ppid = k.pid)
    (hm : Matches pid u.pid) : ∃ d, firstChild K k pid = some d := by
  refine Option.isSome_iff_exists.1 (List.find?_isSome.2 ⟨c, List.mem_finRange c, ?_⟩)
  simp [hu, hup, hm]

/-- **`sata_sending_wait` makes a timer of its own and waits for it.** -/
theorem sataSendingWait_cases {r : WaitRes} (h : SchedInv s) (hf : Idle s)
    (hp : s.running_task = some p) (hs : sataSendingWait port s = .ok (port', s', r)) :
    ∃ t s₁ k u, kins s t = none ∧ Step s (.create 3) s₁ ∧ s₁.running_task = some p ∧
      Step s₁ (.waitpid (t : ℕ) .blocked) s' ∧ r = .blocked ∧
      port' = { port with dps := false, sending := some p, timer := some t } ∧
      Waits (kins s') p t k u ∧ k.waiting = true ∧ u.dead = false := by
  obtain ⟨⟨t, pp⟩, ht, hs⟩ := bind_eq_ok.1 hs
  obtain ⟨s₁, h₁, hs⟩ := bind_eq_ok.1 hs
  obtain ⟨⟨s₂, r₂⟩, h₂, hs⟩ := bind_eq_ok.1 hs
  obtain ⟨-, hs⟩ := cassert_bind_eq_ok.1 hs
  cases hs
  obtain ⟨hnone, hpp⟩ := getTask_ok ht
  have m := taskCreate_at ht h₁
  have hi₁ := h.taskCreate h₁
  have hrun₁ : s₁.running_task = some p := m.running.trans hp
  obtain ⟨q, task, hq, htask, hcase⟩ := hi₁.sysWaitpid_cases h₂
  obtain rfl : p = q := Option.some.inj (hrun₁.symm.trans hq)
  have htp : t ≠ p := fun he => h.ne_of_free hnone (he ▸ hp)
  obtain ⟨u, hu, hup, hupid, hud⟩ : ∃ u, kins s₁ t = some u ∧ u.ppid = p ∧ u.pid = t ∧
      u.dead = false := by
    refine ⟨_, kins_eq m.at, ?_, rfl, rfl⟩
    obtain ⟨caller, hcaller, -⟩ := h.occupied hp
    show pp = p
    rw [show pp = _ from hpp, hp, Option.bind_some, hcaller, Option.elim_some, h.pid p caller hcaller]
  have hmatch {c : Pid} {v : Tcb} (hf : findChild s₁ task (t : ℕ) = some c)
      (hv : s₁.task_bucket c = some v) : c = t := by
    obtain ⟨-, hone | hany⟩ := findChild_some hi₁ htask hf hv
    · exact Fin.ext (by exact_mod_cast hone.symm)
    · omega
  rcases hcase with ⟨hnone', -, -⟩ | ⟨c, v, hc, hv, ⟨hd, -⟩ | ⟨hd, rfl, s₃, hm, hsch, m₃⟩⟩
  · obtain ⟨d, hd⟩ := firstChild_of (k := task.kin) hu (hup.trans (hi₁.pid p task htask).symm)
      (Or.inl (congrArg (fun q : Pid => ((q : ℕ) : ℤ)) hupid.symm))
    rw [findChild_eq, hd] at hnone'
    cases hnone'
  · obtain rfl := hmatch hc hv
    rw [kins_eq hv] at hu
    cases hu
    exact absurd hd (of_decide_eq_false hud)
  · obtain rfl := hmatch hc hv
    have hidle₁ : Idle s₁ := hf.moved m (h.ne_of_free hnone)
    refine ⟨c, s₁, Tcb.kin { task with waitpid := (c : ℕ), child := some c, state := .waiting
                                       container := some .block }, u, ?_, .create hf h₁, hrun₁,
      .waitpid hidle₁ h₂, rfl, by rw [hp], ?_, ?_, hud⟩
    · rw [kins, hnone]
      rfl
    · rw [kins_schedule hm hsch, m₃.kins]
      exact ⟨update_self .., by rw [update_of_ne htp, hu], rfl, rfl, rfl, hup⟩
    · rfl

end Commands

/-! ## Every call has its own timer -/

/-- The call of `p` for a command with the timer `t`. -/
structure Serving (x : DiskState) (p t : Pid) (cmd : ℕ) (k u : Kin) : Prop
    extends Waits (kins x.sched) p t k u where
  waiting : x.port.sending = some p → k.waiting = true
  running : u.dead = false ↔ x.port.sending = some p
  status : u.dead = true → u.status = 0 → cmd ∈ x.handled
  clock : (x.pc t).clock = some (cmd, p)
  port : x.port.sending = some p → x.port.timer = some t

structure DiskInv (x : DiskState) : Prop where
  sched : SchedInv x.sched
  outside : ∀ p, x.pc p = .ready ∨ x.pc p = .checked → Outside (kins x.sched) p
  waiters : ∀ p ∈ x.waiters, x.pc p = .ready
  calls : ∀ p cmd t, (x.pc p).call = some (cmd, t) → ∃ k u, Serving x p t cmd k u
  clocks : ∀ t cmd p, (x.pc t).clock = some (cmd, p) → (x.pc p).call = some (cmd, t)
  sending : ∀ p, x.port.sending = some p → ∃ cmd t, (x.pc p).call = some (cmd, t)
  apart : ∀ cmd ∈ x.device, cmd ∉ x.raised

/-- The step leaves the tasks of `S` alone. -/
structure Untouched (S : Pid → Prop) (K K' : Kins) : Prop where
  waits : ∀ p t k u, S p → S t → Waits K p t k u → ∃ k' u', Waits K' p t k' u' ∧
    k'.waiting = k.waiting ∧ u'.dead = u.dead ∧ u'.status = u.status
  outside : ∀ p, S p → Outside K p → Outside K' p

section Invariant
variable {x x' : DiskState} {S : Pid → Prop} {K K₁ K' : Kins} {r : Option Pid} {op : Op}
  {p t q : Pid} {cmd : ℕ} {k u : Kin} {s' : State}

theorem Untouched.refl : Untouched S K K :=
  ⟨fun _ _ k u _ _ h => ⟨k, u, h, rfl, rfl, rfl⟩, fun _ _ h => h⟩

theorem Untouched.trans (h : Untouched S K K₁) (h' : Untouched S K₁ K') : Untouched S K K' := by
  refine ⟨fun p t k u hp ht hw => ?_, fun p hp ho => h'.outside p hp (h.outside p hp ho)⟩
  obtain ⟨k₁, u₁, hw₁, h₁, h₂, h₃⟩ := h.waits p t k u hp ht hw
  obtain ⟨k₂, u₂, hw₂, h₁', h₂', h₃'⟩ := h'.waits p t k₁ u₁ hp ht hw₁
  exact ⟨k₂, u₂, hw₂, h₁'.trans h₁, h₂'.trans h₂, h₃'.trans h₃⟩

theorem untouched_step (hpid : OwnPid K) (hs : FStep r K op K') (h : ∀ q, S q → Spares r op q) :
    Untouched S K K' :=
  ⟨fun p t _ _ hp ht hw => hw.step hpid hs (h p hp) (h t ht), fun p hp ho => ho.step hs (h p hp)⟩

theorem DiskPc.ne_idle_of_call {pc : DiskPc} {e : ℕ × Pid} (h : pc.call = some e) : pc ≠ .idle := by
  rintro rfl
  cases h

theorem DiskPc.ne_idle_of_clock {pc : DiskPc} {e : ℕ × Pid} (h : pc.clock = some e) :
    pc ≠ .idle := by
  rintro rfl
  cases h

/-- A call that the step leaves alone. -/
theorem Serving.keep (h : Serving x p t cmd k u) (hu : Untouched S (kins x.sched) (kins x'.sched))
    (hp : S p) (ht : S t) (hs : x'.port.sending = some p ↔ x.port.sending = some p)
    (htimer : x.port.sending = some p → x'.port.timer = x.port.timer)
    (hh : x.handled ⊆ x'.handled) (hc : (x'.pc t).clock = (x.pc t).clock) :
    ∃ k' u', Serving x' p t cmd k' u' := by
  obtain ⟨k', u', hw, hwait, hd, hst⟩ := hu.waits p t k u hp ht h.toWaits
  refine ⟨k', u', hw, fun hx => ?_, ?_, fun hx h0 => ?_, hc.trans h.clock, fun hx => ?_⟩
  · rw [hwait, h.waiting (hs.1 hx)]
  · rw [hd, hs, h.running]
  · rw [hd] at hx
    rw [hst] at h0
    exact hh (h.status hx h0)
  · rw [htimer (hs.1 hx), h.port (hs.1 hx)]

/-- What a step without an issue, a return or an end of a command keeps. -/
theorem DiskInv.undisturbed (h : DiskInv x) (hi : SchedInv x'.sched)
    (hu : Untouched (fun q => x.pc q ≠ .idle) (kins x.sched) (kins x'.sched))
    (hs : x'.port.sending = x.port.sending) (ht : x'.port.timer = x.port.timer)
    (hh : x'.handled = x.handled) (hcall : ∀ q, (x'.pc q).call = (x.pc q).call)
    (hclock : ∀ q, (x'.pc q).clock = (x.pc q).clock)
    (hout : ∀ q, x'.pc q = .ready ∨ x'.pc q = .checked → x'.pc q = x.pc q ∨
      Outside (kins x'.sched) q)
    (hw : ∀ q ∈ x'.waiters, x'.pc q = .ready) (ha : ∀ cmd ∈ x'.device, cmd ∉ x'.raised) :
    DiskInv x' where
  sched := hi
  outside q hq := by
    rcases hout q hq with he | ho
    · rw [he] at hq
      refine hu.outside q ?_ (h.outside q hq)
      show x.pc q ≠ .idle
      rcases hq with hq | hq <;> simp [hq]
    · exact ho
  waiters := hw
  calls p cmd t hc := by
    rw [hcall] at hc
    obtain ⟨k, u, hk⟩ := h.calls p cmd t hc
    exact hk.keep hu (DiskPc.ne_idle_of_call hc) (DiskPc.ne_idle_of_clock hk.clock) (by rw [hs])
      (fun _ => ht) hh.ge (hclock t)
  clocks t cmd p hc := by
    rw [hclock] at hc
    rw [hcall]
    exact h.clocks t cmd p hc
  sending p hp := by
    rw [hs] at hp
    obtain ⟨cmd, t, hc⟩ := h.sending p hp
    exact ⟨cmd, t, (hcall p).trans hc⟩
  apart := ha

theorem spares_of (h₁ : target r op = none) (h₂ : ∀ pid res, op ≠ .waitpid pid res)
    (h₃ : ∀ c status, op ≠ .resume c status) (h₄ : ¬ op.Suspends) : Spares r op q :=
  ⟨by rw [h₁]; simp, fun he => absurd he h₄, fun pid res he => absurd he (h₂ pid res), fun c st he => absurd he (h₃ c st)⟩

theorem untouched_of (h : SchedInv x.sched) (hs : Step x.sched op s') (h₁ : target x.sched.running_task op = none)
    (h₂ : ∀ pid res, op ≠ .waitpid pid res) (h₃ : ∀ c status, op ≠ .resume c status)
    (h₄ : ¬ op.Suspends) : Untouched S (kins x.sched) (kins s') :=
  untouched_step (.of_schedInv h) (fstep_of_step h hs) fun _ _ => spares_of h₁ h₂ h₃ h₄

theorem running_not_mem {s : State} {l : ListId} (h : SchedInv s) (hp : s.running_task = some p) :
    p ∉ s.lists l := by
  intro hq
  obtain ⟨t, ht, hc, -⟩ := h.occupied hp
  rw [h.linked.mem, State.listOf_of ht, hc] at hq
  cases hq

theorem outside_running {s : State} (h : SchedInv s) (hf : Idle s) (hp : s.running_task = some p) :
    Outside (kins s) p := by
  obtain ⟨t, ht, hd, -⟩ := h.runs hp
  exact ⟨t.kin, kins_eq ht, decide_eq_false hd, hf p t hp ht⟩

/-- A task goes on, but for what `f` sees of it. -/
theorem update_same {α β : Type} {f : β → α} {m : Pid → β} {v : β}
    (h : f v = f (m p)) (q : Pid) : f (update m p v q) = f (m q) := by
  by_cases hq : q = p
  · rw [hq, update_self, h]
  · rw [update_of_ne hq]

theorem DiskInv.busyWait {bsy : Bool} (h : DiskInv x) (hp : x.sched.running_task = some p)
    (hf : Idle x.sched) (hpc : x.pc p = .idle) (hs : sataBusyWait x.port bsy x.sched = .ok s') :
    DiskInv { x with sched := s', pc := update x.pc p .ready } := by
  have ho := outside_running h.sched hf hp
  have hcall := update_same (p := p) (f := DiskPc.call) (m := x.pc) (v := .ready) (by rw [hpc]; rfl)
  have hclock := update_same (p := p) (f := DiskPc.clock) (m := x.pc) (v := .ready) (by rw [hpc]; rfl)
  have hready {q : Pid} (hq : q = p ∨ q ∈ x.waiters) : update x.pc p .ready q = .ready := by
    by_cases hqp : q = p
    · rw [hqp, update_self]
    · rw [update_of_ne hqp]
      exact h.waiters q (hq.resolve_left hqp)
  cases bsy with
  | false =>
    cases hs
    refine h.undisturbed h.sched .refl rfl rfl rfl hcall hclock (fun q _ => ?_)
      (fun q hq => hready (Or.inr hq)) h.apart
    by_cases hqp : q = p
    · exact Or.inr (hqp ▸ ho)
    · exact Or.inl (update_of_ne hqp ..)
  | true =>
    obtain ⟨-, hs⟩ := cassert_bind_eq_ok.1 hs
    have hstep : Step x.sched (.block (some (.other x.port.waiting_list)) none .waiting) s' :=
      .block hf (by simp) (by simp) (by simp) (Or.inr rfl) (by simp) hs
    have hu := untouched_of (S := fun q => x.pc q ≠ .idle) h.sched hstep rfl (by simp) (by simp)
      (by simp)
    have ho' := ho.step (fstep_of_step h.sched hstep) (spares_of rfl (by simp) (by simp) (by simp))
    refine h.undisturbed (h.sched.step hstep) hu rfl rfl rfl hcall hclock (fun q _ => ?_)
      (fun q hq => hready ?_) h.apart
    · by_cases hqp : q = p
      · exact Or.inr (hqp ▸ ho')
      · exact Or.inl (update_of_ne hqp ..)
    · have hlists : s'.lists (.other x.port.waiting_list) =
          p :: x.sched.lists (.other x.port.waiting_list) := block_lists h.sched hp (by simp) hs
      exact List.mem_cons.1 (hlists ▸ hq)

theorem DiskInv.check (h : DiskInv x) (hp : x.sched.running_task = some p)
    (hpc : x.pc p = .ready) : DiskInv { x with pc := update x.pc p .checked } := by
  refine h.undisturbed h.sched .refl rfl rfl rfl (update_same (by rw [hpc]; rfl))
    (update_same (by rw [hpc]; rfl)) (fun q _ => ?_) (fun q hq => ?_) h.apart
  · by_cases hqp : q = p
    · exact Or.inr (hqp ▸ h.outside p (Or.inl hpc))
    · exact Or.inl (update_of_ne hqp ..)
  · have hqp : q ≠ p := by
      rintro rfl
      exact running_not_mem h.sched hp hq
    exact (update_of_ne hqp ..).trans (h.waiters q hq)

theorem DiskInv.sleep (h : DiskInv x) (hf : Free x.sched) (hpc : x.pc t = .timer cmd p)
    (hs : taskSleep x.sched 1000 = .ok s') :
    DiskInv { x with sched := s', pc := update x.pc t (.slept cmd p) } := by
  have hstep : Step x.sched (.sleep 1000) s' := .sleep hf hs
  refine h.undisturbed (h.sched.step hstep)
    (untouched_of h.sched hstep rfl (by simp) (by simp) (by simp)) rfl rfl rfl (update_same (by rw [hpc]; rfl))
    (update_same (by rw [hpc]; rfl)) (fun q hq => Or.inl ?_) (fun q hq => ?_) h.apart
  · refine update_of_ne ?_ ..
    rintro rfl
    simp at hq
  · have hready := h.waiters q (hstep.joins h.sched (by simp) hq)
    have hne : q ≠ t := by
      rintro rfl
      rw [hpc] at hready
      cases hready
    exact (update_of_ne hne ..).trans hready

theorem DiskInv.complete (h : DiskInv x) :
    DiskInv { x with port := { x.port with dps := true }, device := x.device \ {cmd}
                     raised := insert cmd x.raised } := by
  refine h.undisturbed h.sched .refl rfl rfl rfl (fun _ => rfl) (fun _ => rfl)
    (fun _ _ => Or.inl rfl) h.waiters ?_
  rintro c ⟨hc, hne⟩ (rfl | hr)
  · exact hne rfl
  · exact h.apart c hc hr

theorem DiskInv.other (h : DiskInv x) (he : Elsewhere x op) (hs : Step x.sched op s') :
    DiskInv { x with sched := s' } :=
  h.undisturbed (h.sched.step hs)
    (untouched_step (.of_schedInv h.sched) (fstep_of_step h.sched hs) he.spares) rfl rfl rfl
    (fun _ => rfl) (fun _ => rfl) (fun _ _ => Or.inl rfl)
    (fun q hq => h.waiters q (hs.joins h.sched he.block hq)) h.apart

theorem DiskPc.clock_of_call {pc : DiskPc} {e : ℕ × Pid} (h : pc.call = some e) :
    pc.clock = none := by
  cases pc <;> first | rfl | cases h

/-- A task in front of `sata_sending_wait` has no command yet. -/
theorem DiskPc.of_early {pc : DiskPc} (h : pc = .ready ∨ pc = .checked) :
    pc ≠ .idle ∧ pc.call = none ∧ pc.clock = none := by
  rcases h with rfl | rfl <;> exact ⟨by simp, rfl, rfl⟩

theorem ne_of_early {pc : Pid → DiskPc} {e : ℕ × Pid} (hq : pc q = .ready ∨ pc q = .checked)
    (hp : (pc p).call = some e ∨ (pc p).clock = some e) : q ≠ p := by
  rintro rfl
  obtain ⟨-, h₁, h₂⟩ := DiskPc.of_early hq
  rw [h₁, h₂] at hp
  simp at hp

theorem ne_of_call {pc : Pid → DiskPc} {e f : ℕ × Pid} (hq : (pc q).call = some e)
    (hp : (pc p).clock = some f) : q ≠ p := by
  rintro rfl
  rw [DiskPc.clock_of_call hq] at hp
  cases hp

/-- A timer serves one call. -/
theorem Serving.timer_ne {d : Pid} {c : ℕ} {k₀ u₀ : Kin} (h : Serving x p t cmd k u)
    (h' : Serving x q d c k₀ u₀) (hne : q ≠ p) : d ≠ t := by
  rintro rfl
  cases h.clock.symm.trans h'.clock
  exact hne rfl

/-- An empty slot has no part in the protocol. -/
theorem DiskInv.empty (h : DiskInv x) (ht : kins x.sched t = none) : x.pc t = .idle := by
  have hclock {c : ℕ} {p : Pid} (hc : (x.pc t).clock = some (c, p)) : False := by
    obtain ⟨k, u, hk⟩ := h.calls p c t (h.clocks t c p hc)
    rw [hk.timer] at ht
    cases ht
  have hout (ho : x.pc t = .ready ∨ x.pc t = .checked) : False := by
    obtain ⟨k, hk, -⟩ := h.outside t ho
    rw [hk] at ht
    cases ht
  cases hpc : x.pc t with
  | idle => rfl
  | ready => exact (hout (Or.inl hpc)).elim
  | checked => exact (hout (Or.inr hpc)).elim
  | sent c t' =>
    obtain ⟨k, u, hk⟩ := h.calls t c t' (by rw [hpc]; rfl)
    rw [hk.caller] at ht
    cases ht
  | timer c p => exact (hclock (c := c) (p := p) (by rw [hpc]; rfl)).elim
  | slept c p => exact (hclock (c := c) (p := p) (by rw [hpc]; rfl)).elim

/-- **A command is given to the device while no other one is in flight.** -/
theorem DiskInv.send {port : HbaPort} (h : DiskInv x) (hp : x.sched.running_task = some p)
    (hf : Idle x.sched) (hpc : x.pc p = .checked) (hnull : x.port.sending = none)
    (hnew : ∀ c ∈ x.device ∪ x.raised, c < x.issued)
    (hs : sataSendingWait x.port x.sched = .ok (port, s', .blocked)) (ht : port.timer = some t) :
    t ≠ p ∧ port.sending = some p ∧
    DiskInv { x with port, sched := s', issued := x.issued + 1, device := insert x.issued x.device
                     pc := update (update x.pc p (.sent x.issued t)) t (.timer x.issued p) } := by
  obtain ⟨t', s₁, k, u, hempty, h₁, hrun, h₂, -, rfl, hw, hwait, hud⟩ :=
    sataSendingWait_cases h.sched hf hp hs
  cases ht
  have hi₁ := h.sched.step h₁
  have hidle := h.empty hempty
  have htp : t ≠ p := by
    rintro rfl
    rw [hidle] at hpc
    cases hpc
  have hu : Untouched (· ≠ p) (kins x.sched) (kins s') := by
    refine (untouched_of h.sched h₁ rfl (by simp) (by simp) (by simp)).trans
      (untouched_step (.of_schedInv hi₁) (fstep_of_step hi₁ h₂) fun q hq =>
        ⟨by simp [target], by simp, ?_, by simp⟩)
    rintro - - - he
    rw [hrun] at he
    exact hq (Option.some.inj he).symm
  have hpc' {q : Pid} (h₁ : q ≠ p) (h₂ : q ≠ t) :
      update (update x.pc p (.sent x.issued t)) t (.timer x.issued p) q = x.pc q := by
    rw [update_of_ne h₂, update_of_ne h₁]
  have hpcp : update (update x.pc p (.sent x.issued t)) t (.timer x.issued p) p =
      .sent x.issued t := by
    rw [update_of_ne htp.symm, update_self]
  have hpct : update (update x.pc p (.sent x.issued t)) t (.timer x.issued p) t =
      .timer x.issued p := update_self ..
  refine ⟨htp, rfl, hi₁.step h₂, fun q hq => ?_, fun q hq => ?_, fun q c d hc => ?_,
    fun d c q hc => ?_, ?_, ?_⟩
  · have hqp : q ≠ p := ne_of_early hq (Or.inl (congrArg DiskPc.call hpcp))
    have hqt : q ≠ t := ne_of_early hq (Or.inr (congrArg DiskPc.clock hpct))
    dsimp only at hq
    rw [hpc' hqp hqt] at hq
    exact hu.outside q hqp (h.outside q hq)
  · have hready := h.waiters q (h₁.joins h.sched (by simp) (h₂.joins hi₁ (by simp) hq))
    refine (hpc' ?_ ?_).trans hready
    · rintro rfl
      rw [hpc] at hready
      cases hready
    · rintro rfl
      rw [hidle] at hready
      cases hready
  · dsimp only at hc
    by_cases hqp : q = p
    · subst hqp
      rw [hpcp] at hc
      cases hc
      refine ⟨k, u, hw, fun _ => hwait, by simp [hud], fun hd => ?_, congrArg DiskPc.clock hpct,
        fun _ => rfl⟩
      rw [hud] at hd
      cases hd
    · have hqt : q ≠ t := by
        rintro rfl
        rw [hpct] at hc
        cases hc
      rw [hpc' hqp hqt] at hc
      obtain ⟨k₀, u₀, hk⟩ := h.calls q c d hc
      have hdp : d ≠ p := by
        rintro rfl
        have hclock := hk.clock
        rw [hpc] at hclock
        cases hclock
      have hdt : d ≠ t := by
        rintro rfl
        have hclock := hk.clock
        rw [hidle] at hclock
        cases hclock
      exact hk.keep hu hqp hdp (by simp [hnull, Ne.symm hqp]) (by simp [hnull]) subset_rfl
        (congrArg DiskPc.clock (hpc' hdp hdt))
  · dsimp only at hc ⊢
    by_cases hdt : d = t
    · subst hdt
      rw [hpct] at hc
      cases hc
      rw [hpcp]
      rfl
    · have hdp : d ≠ p := by
        rintro rfl
        rw [hpcp] at hc
        cases hc
      rw [hpc' hdp hdt] at hc
      have hcall := h.clocks d c q hc
      rw [hpc' ?_ ?_, hcall]
      · rintro rfl
        rw [hpc] at hcall
        cases hcall
      · rintro rfl
        rw [hidle] at hcall
        cases hcall
  · rintro q ⟨⟩
    exact ⟨x.issued, t, congrArg DiskPc.call hpcp⟩
  · rintro c (rfl | hc) hr
    · exact lt_irrefl _ (hnew _ (Or.inr hr))
    · exact h.apart c hc hr

/-- **A call returns with its own timer**, and with 0 only if its interrupt has been handled. -/
theorem DiskInv.ret {c : Pid} {status : ℤ} (h : DiskInv x) (hp : x.sched.running_task = some p)
    (hpc : x.pc p = .sent cmd t) (hs : resumeWait x.sched = .ok (s', c, status)) :
    (status = 0 → cmd ∈ x.handled) ∧
    DiskState.current { x with pc := update (update x.pc c .idle) p .idle } = x.current ∧
    DiskInv { x with sched := s', pc := update (update x.pc c .idle) p .idle } := by
  have hcall : (x.pc p).call = some (cmd, t) := congrArg DiskPc.call hpc
  obtain ⟨k, u, hk⟩ := h.calls p cmd t hcall
  have hstep : Step x.sched (.resume c status) s' := .resume hs
  have hf := fstep_of_step h.sched hstep
  obtain ⟨rfl, rfl, hwait⟩ : c = t ∧ status = u.status ∧ k.waiting = false := by
    generalize kins s' = K' at hf
    cases hf with
    | quiet _ _ hne => exact absurd rfl (hne _ _)
    | turn _ _ hne => exact absurd rfl (hne _ _)
    | born _ _ hne => exact absurd rfl (hne _ _)
    | exit _ hx => cases hx
    | resume hr hq _ hw hc hu _ =>
      cases hp.symm.trans hr
      rw [hk.caller] at hq
      cases hq
      rw [hk.child] at hc
      cases hc
      rw [hk.timer] at hu
      cases hu
      exact ⟨rfl, rfl, hw⟩
  have hnot : x.port.sending ≠ some p := fun he => by
    rw [hk.waiting he] at hwait
    cases hwait
  have hdead : u.dead = true := by
    rw [← Bool.not_eq_false, hk.running]
    exact hnot
  have hu : Untouched (fun q => q ≠ p ∧ q ≠ c) (kins x.sched) (kins s') := by
    refine untouched_step (.of_schedInv h.sched) hf fun q hq =>
      ⟨by simp [target], by simp, by simp, ?_⟩
    rintro _ _ ⟨⟩
    refine ⟨fun he => hq.1 ?_, hq.2.symm⟩
    exact Option.some.inj (he.symm.trans hp)
  have hpc' {q : Pid} (h₁ : q ≠ p) (h₂ : q ≠ c) :
      update (update x.pc c .idle) p .idle q = x.pc q := by
    rw [update_of_ne h₁, update_of_ne h₂]
  have hactive {q : Pid} (hq : update (update x.pc c .idle) p .idle q ≠ .idle) : q ≠ p ∧ q ≠ c := by
    have hqp : q ≠ p := by
      rintro rfl
      rw [update_self] at hq
      exact hq rfl
    refine ⟨hqp, ?_⟩
    rintro rfl
    rw [update_of_ne hqp, update_self] at hq
    exact hq rfl
  have hsending {q : Pid} (hq : x.port.sending = some q) :
      update (update x.pc c .idle) p .idle q = x.pc q := by
    obtain ⟨e, d, hc⟩ := h.sending q hq
    exact hpc' (fun he => hnot (he ▸ hq)) (ne_of_call hc hk.clock)
  refine ⟨hk.status hdead, ?_, h.sched.step hstep, fun q hq => ?_, fun q hq => ?_,
    fun q e d hc => ?_, fun d e q hc => ?_, fun q hq => ?_, h.apart⟩
  · unfold DiskState.current
    cases hq : x.port.sending with
    | none => rfl
    | some q => exact congrArg (fun pc => pc.call.map Prod.fst) (hsending hq)
  · dsimp only at hq
    obtain ⟨hqp, hqc⟩ := hactive (DiskPc.of_early hq).1
    rw [hpc' hqp hqc] at hq
    exact hu.outside q ⟨hqp, hqc⟩ (h.outside q hq)
  · have hready := h.waiters q (hstep.joins h.sched (by simp) hq)
    exact (hpc' (ne_of_early (Or.inl hready) (Or.inl hcall))
      (ne_of_early (Or.inl hready) (Or.inr hk.clock))).trans hready
  · dsimp only at hc
    obtain ⟨hqp, hqc⟩ := hactive (DiskPc.ne_idle_of_call hc)
    rw [hpc' hqp hqc] at hc
    obtain ⟨k₀, u₀, hk₀⟩ := h.calls q e d hc
    have hdp : d ≠ p := (ne_of_call hcall hk₀.clock).symm
    have hdc : d ≠ c := hk.timer_ne hk₀ hqp
    exact hk₀.keep hu ⟨hqp, hqc⟩ ⟨hdp, hdc⟩ .rfl (fun _ => rfl) subset_rfl
      (congrArg DiskPc.clock (hpc' hdp hdc))
  · dsimp only at hc ⊢
    obtain ⟨hdp, hdc⟩ := hactive (DiskPc.ne_idle_of_clock hc)
    rw [hpc' hdp hdc] at hc
    have hcall' := h.clocks d e q hc
    rw [hpc' ?_ (ne_of_call hcall' hk.clock), hcall']
    rintro rfl
    cases hcall.symm.trans hcall'
    exact hdc rfl
  · obtain ⟨e, d, hc⟩ := h.sending q hq
    exact ⟨e, d, (congrArg DiskPc.call (hsending hq)).trans hc⟩

/-- **The timer of the command in flight exits**, and nothing is in flight. -/
theorem DiskInv.over {g : Kin} {status : ℤ} (h : DiskInv x) (hk : Serving x p t cmd k u)
    (hcall : (x.pc p).call = some (cmd, t)) (hsend : x.port.sending = some p)
    (hu : Untouched (fun q => x.pc q ≠ .idle) (kins x.sched) K) (hpid : OwnPid K)
    (hg : K t = some g) (hpp : (K g.ppid).isSome)
    (hK : kins x'.sched = afterExit K t g status) (hi : SchedInv x'.sched) (hpc : x'.pc = x.pc)
    (hnull : x'.port.sending = none) (hw : ∀ q ∈ x'.waiters, q ∈ x.waiters)
    (hh : x.handled ⊆ x'.handled) (hst : status = 0 → cmd ∈ x'.handled)
    (ha : ∀ c ∈ x'.device, c ∉ x'.raised) : DiskInv x' := by
  have htp : t ≠ p := (ne_of_call hcall hk.clock).symm
  have hu' : Untouched (fun q => x.pc q ≠ .idle ∧ q ≠ t) (kins x.sched) (kins x'.sched) := by
    have hexit : FStep (some t) K (.exit status) (kins x'.sched) := by
      rw [hK]
      exact .exit (by simp) rfl hg hpp
    have hrest := untouched_step (S := fun q => x.pc q ≠ .idle ∧ q ≠ t) hpid hexit fun q hq =>
      ⟨fun he => hq.2 (Option.some.inj he).symm, by simp, by simp, by simp⟩
    exact Untouched.trans ⟨fun p t k u hp ht => hu.waits p t k u hp.1 ht.1,
      fun p hp => hu.outside p hp.1⟩ hrest
  refine ⟨hi, fun q hq => ?_, fun q hq => ?_, fun q c d hc => ?_, fun d c q hc => ?_, fun q hq => ?_, ha⟩
  · rw [hpc] at hq
    exact hu'.outside q ⟨(DiskPc.of_early hq).1, ne_of_early hq (Or.inr hk.clock)⟩ (h.outside q hq)
  · rw [hpc]
    exact h.waiters q (hw q hq)
  · rw [hpc] at hc
    by_cases hqp : q = p
    · subst hqp
      cases hcall.symm.trans hc
      obtain ⟨k₁, u₁, hw₁, -⟩ := hu.waits q t k u (DiskPc.ne_idle_of_call hcall)
        (DiskPc.ne_idle_of_clock hk.clock) hk.toWaits
      obtain rfl : u₁ = g := Option.some.inj (hw₁.timer.symm.trans hg)
      obtain ⟨k₂, u₂, hw₂, hdead, hstatus⟩ := hw₁.over (n := status) htp
      rw [← hK] at hw₂
      refine ⟨k₂, u₂, hw₂, fun he => ?_, by simp [hdead, hnull], fun _ h0 => hst ?_, ?_, fun he => ?_⟩
      · rw [hnull] at he
        cases he
      · rw [← hstatus, h0]
      · rw [hpc, hk.clock]
      · rw [hnull] at he
        cases he
    · obtain ⟨k₀, u₀, hk₀⟩ := h.calls q c d hc
      have hdt : d ≠ t := hk.timer_ne hk₀ hqp
      have hnot : x.port.sending ≠ some q := fun he => by
        rw [hsend] at he
        cases he
        exact hqp rfl
      exact hk₀.keep hu' ⟨DiskPc.ne_idle_of_call hc, ne_of_call hc hk.clock⟩
        ⟨DiskPc.ne_idle_of_clock hk₀.clock, hdt⟩ (by simp [hnull, hnot]) (fun he => absurd he hnot) hh
        (by rw [hpc])
  · rw [hpc] at hc ⊢
    exact h.clocks d c q hc
  · rw [hnull] at hq
    cases hq

theorem current_of (hs : x.port.sending = some p) (hc : (x.pc p).call = some (cmd, t)) :
    x.current = some cmd := by
  simp [DiskState.current, hs, hc]

theorem DiskInv.expire {port : HbaPort} (h : DiskInv x) (hp : x.sched.running_task = some t)
    (hf : Free x.sched) (hpc : x.pc t = .slept cmd p)
    (hs : timer x.port x.sched = .ok (port, s')) :
    x.current = some cmd ∧ port.sending = none ∧
    DiskInv { x with port, sched := s', expired := (cmd, x.current) :: x.expired } := by
  obtain ⟨s₁, h₁, hs⟩ := bind_eq_ok.1 hs
  cases hs
  have hcall := h.clocks t cmd p (congrArg DiskPc.clock hpc)
  obtain ⟨k, u, hk⟩ := h.calls p cmd t hcall
  have hsend : x.port.sending = some p := by
    rw [← hk.running]
    obtain ⟨v, hv, hd, -⟩ := h.sched.runs hp
    cases (kins_eq hv).symm.trans hk.timer
    exact decide_eq_false hd
  have hstep : Step x.sched (.threadExit none 1) s' := .threadExit hf h₁
  have hb : blocking x.sched none = some t := hp
  obtain ⟨g, hg, hpp, hK⟩ := kins_threadExit h.sched hb h₁
  refine ⟨current_of hsend hcall, rfl, h.over hk hcall hsend .refl (.of_schedInv h.sched) hg hpp hK
    (h.sched.step hstep) rfl rfl (fun q hq => hstep.joins h.sched (by simp) hq) subset_rfl
    (fun he => ?_) h.apart⟩
  cases he

theorem DiskInv.interrupt {port : HbaPort} (h : DiskInv x) (hf : Free x.sched)
    (hc : x.current = some cmd) (hs : hbaHandler x.port x.sched = .ok (port, s')) :
    port.sending = none ∧
    DiskInv { x with port, sched := s', raised := x.raised \ {cmd}, handled := insert cmd x.handled } := by
  obtain ⟨p, t, hsend, hcall⟩ : ∃ p t, x.port.sending = some p ∧ (x.pc p).call = some (cmd, t) := by
    obtain ⟨⟨c, t⟩, he, rfl⟩ := Option.map_eq_some_iff.1 hc
    obtain ⟨p, hp, hcall⟩ := Option.bind_eq_some_iff.1 he
    exact ⟨p, t, hp, hcall⟩
  obtain ⟨k, u, hk⟩ := h.calls p cmd t hcall
  unfold hbaHandler at hs
  split_ifs at hs
  · obtain ⟨-, hs⟩ := cassert_bind_eq_ok.1 hs
    obtain ⟨s₁, h₁, hs⟩ := bind_eq_ok.1 hs
    rw [hk.port hsend] at hs
    obtain ⟨s₂, h₂, hs⟩ := bind_eq_ok.1 hs
    cases hs
    have hplain : ∀ q ∈ x.waiters, Plain x.sched q := by
      intro q hq v hv
      obtain ⟨g, hg, hd, hchild⟩ := h.outside q (Or.inl (h.waiters q hq))
      cases (kins_eq hv).symm.trans hg
      exact ⟨of_decide_eq_false hd, hchild⟩
    obtain ⟨hcase, hf₁⟩ := wakeFirst_step h.sched hf hplain h₁
    have hi₁ : SchedInv s₁ := by
      rcases hcase with rfl | ⟨q, -, hstep⟩
      · exact h.sched
      · exact h.sched.step hstep
    have hu : Untouched (fun q => x.pc q ≠ .idle) (kins x.sched) (kins s₁) := by
      rcases hcase with rfl | ⟨q, -, hstep⟩
      · exact .refl
      · exact untouched_of h.sched hstep rfl (by simp) (by simp) (by simp)
    have hw₁ : ∀ q ∈ s₁.lists (.other x.port.waiting_list), q ∈ x.waiters := by
      rcases hcase with rfl | ⟨q, -, hstep⟩
      · exact fun _ hq => hq
      · exact fun _ hq => hstep.joins h.sched (by simp) hq
    have hstep : Step s₁ (.threadExit (some t) 0) s' := .threadExit hf₁ h₂
    obtain ⟨g, hg, hpp, hK⟩ := kins_threadExit hi₁ (p := t) rfl h₂
    refine ⟨rfl, h.over hk hcall hsend hu (.of_schedInv hi₁) hg hpp hK (hi₁.step hstep) rfl rfl
      (fun q hq => hw₁ q (hstep.joins hi₁ (by simp) hq)) (Set.subset_insert ..)
      (fun _ => Set.mem_insert ..) fun c hcd hcr => h.apart c hcd hcr.1⟩

end Invariant

/-! ## One request in flight -/

/-- The commands as requests. -/
def DiskState.requests (x : DiskState) : Requests.History ℕ where
  current := x.current
  issued := { cmd | cmd < x.issued }
  pending := x.device ∪ x.raised
  handled := x.handled
  expired := x.expired

def DiskOp.request : DiskOp → Requests.Op ℕ
  | .send _ cmd => .issue cmd
  | .expire _ cmd => .expire cmd
  | .interrupt cmd => .handle cmd
  | _ => .idle

section Simulation
variable {x x' : DiskState} {op : DiskOp} {p : Pid} {cmd : ℕ}

theorem current_of_none (h : x.port.sending = none) : x.current = none := by
  rw [DiskState.current, h]
  rfl

/-- What changes no request. -/
theorem requests_same (hc : x'.current = x.current) (hi : x'.issued = x.issued)
    (hp : x'.device ∪ x'.raised = x.device ∪ x.raised) (hh : x'.handled = x.handled)
    (he : x'.expired = x.expired) : x'.requests = x.requests := by
  simp only [DiskState.requests, hc, hi, hp, hh, he]

theorem current_same (hs : x'.port.sending = x.port.sending)
    (hcall : ∀ q, (x'.pc q).call = (x.pc q).call) : x'.current = x.current := by
  simp only [DiskState.current, hs, hcall]

/-- **A step of the disk is a step of the requests.** -/
theorem DiskInv.step (h : DiskInv x) (hr : Requests.Inv x.requests) (hp : Punctual x op)
    (hs : DiskStep x op x') :
    Requests.Step x.requests op.request x'.requests ∧ DiskInv x' := by
  have same {o : Requests.Op ℕ} {y : Requests.History ℕ} (hy : Requests.Step x.requests o y)
      (he : x'.requests = y) : Requests.Step x.requests o x'.requests := he ▸ hy
  have idle (he : x'.requests = x.requests) : Requests.Step x.requests .idle x'.requests :=
    same .idle he
  cases hs with
  | busyWait hrun hf hpc hs =>
    exact ⟨idle (requests_same (current_same rfl (update_same (by rw [hpc]; rfl))) rfl rfl rfl rfl),
      h.busyWait hrun hf hpc hs⟩
  | check hrun hpc _ =>
    exact ⟨idle (requests_same (current_same rfl (update_same (by rw [hpc]; rfl))) rfl rfl rfl rfl),
      h.check hrun hpc⟩
  | @send p t port s' hrun hf hpc hs ht =>
    have hnew : ∀ c ∈ x.device ∪ x.raised, c < x.issued := fun c hc => (hr.pending c hc).1
    obtain ⟨htp, hsend, hi⟩ := h.send hrun hf hpc hp hnew hs ht
    have hpcp : update (update x.pc p (.sent x.issued t)) t (.timer x.issued p) p =
        .sent x.issued t := by
      rw [update_of_ne htp.symm, update_self]
    refine ⟨same (.issue (current_of_none hp) fun hlt => lt_irrefl x.issued hlt)
      (Requests.History.ext (current_of hsend (congrArg DiskPc.call hpcp)) ?_ ?_ rfl rfl), hi⟩
    · ext e
      exact Nat.lt_succ_iff_lt_or_eq.trans or_comm
    · ext e
      exact or_assoc
  | ret hrun hpc hs =>
    obtain ⟨-, hc, hi⟩ := h.ret hrun hpc hs
    exact ⟨idle (requests_same hc rfl rfl rfl rfl), hi⟩
  | sleep _ hf hpc hs =>
    exact ⟨idle (requests_same (current_same rfl (update_same (by rw [hpc]; rfl))) rfl rfl rfl rfl),
      h.sleep hf hpc hs⟩
  | expire hrun hf hpc hs =>
    obtain ⟨hc, hnull, hi⟩ := h.expire hrun hf hpc hs
    exact ⟨same (.expire hc) (Requests.History.ext (current_of_none hnull) rfl rfl rfl rfl), hi⟩
  | @complete cmd hc =>
    refine ⟨idle (requests_same (current_same rfl fun _ => rfl) rfl ?_ rfl rfl), h.complete⟩
    ext e
    by_cases he : e = cmd
    · simp [he, hc]
    · simp [he]
  | @interrupt cmd port s' hf hc hs =>
    have hlate : ¬ x.requests.Late cmd := by
      rintro ⟨e, he, rfl⟩
      exact hp e he rfl
    obtain ⟨hnull, hi⟩ := h.interrupt hf (hr.in_flight (Or.inr hc) hlate) hs
    have hpending : x.device ∪ x.raised \ {cmd} = (x.device ∪ x.raised) \ {cmd} := by
      have hnot : cmd ∉ x.device := fun hd => h.apart cmd hd hc
      rw [Set.union_sdiff_distrib, Set.sdiff_singleton_eq_self hnot]
    exact ⟨same (.handle (Or.inr hc) hlate)
      (Requests.History.ext (current_of_none hnull) rfl hpending rfl rfl), hi⟩
  | other he hs => exact ⟨idle rfl, h.other he hs⟩

theorem diskInv_init {waiting_list : ℕ} (h : (diskSys waiting_list).init x) :
    DiskInv x ∧ x.requests = .new := by
  obtain ⟨hr, hw, hx⟩ := h
  rw [hx] at hw ⊢
  refine ⟨⟨schedInv_reach hr, ?_, fun p hp => ?_, ?_, ?_, ?_, ?_⟩, ?_⟩
  · rintro p (hp | hp) <;> cases hp
  · rw [hw] at hp
    cases hp
  · rintro p cmd t ⟨⟩
  · rintro t cmd p ⟨⟩
  · rintro p ⟨⟩
  · rintro cmd ⟨⟩
  · ext e <;> simp [DiskState.requests, DiskState.current, Requests.History.new]

/-- **The commands are requests with one in flight**, if interrupts are not late. -/
theorem disk_sim (waiting_list : ℕ) :
    Sim ((diskSys waiting_list).restrict Punctual) Requests.requestSys DiskOp.request
      fun x y => DiskInv x ∧ Requests.Inv y ∧ x.requests = y where
  init x hx := by
    obtain ⟨hi, hy⟩ := diskInv_init hx
    exact ⟨.new, rfl, hi, Requests.inv_new, hy⟩
  step x op x' y hR hs := by
    obtain ⟨hi, hy, rfl⟩ := hR
    obtain ⟨hstep, hi'⟩ := hi.step hy hs.1 hs.2
    exact ⟨x'.requests, hstep, hi', hy.step hstep, rfl⟩

/-- A step of the scheduler that ends no task, blocks none, and for which nobody waits. -/
theorem elsewhere_of {o : Op} (h₁ : target x.sched.running_task o = none)
    (h₂ : ∀ pid res, o ≠ .waitpid pid res) (h₃ : ∀ c status, o ≠ .resume c status)
    (h₄ : ¬ o.Suspends) (h₅ : ∀ l, ¬ o.BlocksIn l) : Elsewhere x o :=
  ⟨fun _ _ => spares_of h₁ h₂ h₃ h₄, h₅ _⟩

section Runs
variable {waiting_list : ℕ} {C : DiskState → DiskOp → Prop}

theorem reach_schedule {s' : State} (hr : ((diskSys waiting_list).restrict C).Reach x)
    (hC : C x (.other .schedule)) (hf : Free x.sched) (hs : schedule x.sched = .ok s') :
    ((diskSys waiting_list).restrict C).Reach { x with sched := s' } :=
  .step hr ⟨hC, .other (elsewhere_of rfl (by simp) (by simp) (by simp) (by simp)) (.schedule hf hs)⟩

/-- The first sleeper sleeps on. -/
theorem weakup_early {s : State} {t : Pid} {u : Tcb} (ht : (s.lists .sleep).head? = some t)
    (hu : s.task_bucket t = some u) (hlt : s.jiffies < u.value) : weakup s = .ok s := by
  simp only [weakup, ht]
  rw [owner_eq_ok.2 hu, ok_bind, if_neg (by omega)]
  rfl

theorem reach_clock {t : Pid} {u : Tcb} (hr : ((diskSys waiting_list).restrict C).Reach x)
    (hC : ∀ y, C y (.other .clock)) (hf : Free x.sched)
    (ht : (x.sched.lists .sleep).head? = some t) (hu : x.sched.task_bucket t = some u)
    (hlt : u.value < 2 ^ 32) (n : ℕ) (hn : x.sched.jiffies + n < u.value) :
    ((diskSys waiting_list).restrict C).Reach
      { x with sched := { x.sched with jiffies := x.sched.jiffies + n } } := by
  induction n with
  | zero => exact hr
  | succ n ih =>
    have hj : u32 (x.sched.jiffies + n + 1) = x.sched.jiffies + (n + 1) := by
      rw [u32, Nat.mod_eq_of_lt (by omega)]
      rfl
    refine .step (a := .other .clock) (ih (by omega)) ⟨hC _, .other
      (elsewhere_of rfl (by simp) (by simp) (by simp) (by simp)) (.clock hf ?_)⟩
    dsimp only
    rw [hj]
    exact weakup_early ht hu hn

end Runs

/-- **What the calls return**: 0 only after the interrupt of the same command; a timer ends no
    command but its own, and that once; and an interrupt finds its own command in flight. -/
theorem disk_commands {waiting_list : ℕ}
    (h : ((diskSys waiting_list).restrict Punctual).Reach x) :
    (∀ cmd p x', DiskStep x (.ret p cmd 0) x' → cmd ∈ x.handled) ∧
    (∀ e ∈ x.expired, ∀ cmd, e.2 = some cmd → cmd = e.1) ∧ (x.expired.map Prod.fst).Nodup ∧
    ∀ cmd ∈ x.raised, Punctual x (.interrupt cmd) →
      x.current = some cmd ∧ x.port.sending ≠ none := by
  obtain ⟨y, -, hi, hy, rfl⟩ := (disk_sim waiting_list).reach h
  refine ⟨fun cmd p x' hs => ?_, hy.own, hy.nodup, fun cmd hc hp => ?_⟩
  · cases hs with
    | ret hrun hpc hs => exact (hi.ret hrun hpc hs).1 rfl
  · have hcur : x.current = some cmd := by
      refine hy.in_flight (Or.inr hc) ?_
      rintro ⟨e, he, rfl⟩
      exact hp e he rfl
    refine ⟨hcur, fun hnull => ?_⟩
    rw [current_of_none hnull] at hcur
    cases hcur

end Simulation

/-- A command completes in time. -/
theorem disk_commands_one : ∃ x x', ((diskSys 0).restrict Punctual).Reach x ∧
    DiskStep x (.ret 0 0 0) x' ∧ 0 ∈ x.handled := by
  obtain ⟨⟨⟩, hrun⟩ := ok_of_isOk (show Except.isOk (do
    let s₀ ← taskInit
    let s₁ ← schedule s₀
    let r₂ ← sataSendingWait ⟨false, 0, none, none⟩ s₁
    let r₃ ← hbaHandler { r₂.1 with dps := true } r₂.2.1
    let s₄ ← schedule r₃.2
    let s₅ ← schedule s₄
    let r₆ ← resumeWait s₅
    cassert (Free s₀ ∧ Free s₁ ∧ Free r₂.2.1 ∧ Free r₃.2 ∧ Free s₄) "Free"
    cassert (s₁.lists (.other 0) = [] ∧ s₁.running_task = some 0 ∧ s₅.running_task = some 0 ∧
      r₂.1.timer = some 3 ∧ r₂.2.2 = .blocked ∧ r₆.2.2 = 0) "run"
    return ()) = true by decide +kernel)
  obtain ⟨s₀, h₀, hrun⟩ := bind_eq_ok.1 hrun
  obtain ⟨s₁, h₁, hrun⟩ := bind_eq_ok.1 hrun
  obtain ⟨⟨port₂, s₂, res⟩, h₂, hrun⟩ := bind_eq_ok.1 hrun
  obtain ⟨⟨port₃, s₃⟩, h₃, hrun⟩ := bind_eq_ok.1 hrun
  obtain ⟨s₄, h₄, hrun⟩ := bind_eq_ok.1 hrun
  obtain ⟨s₅, h₅, hrun⟩ := bind_eq_ok.1 hrun
  obtain ⟨⟨s₆, c, status⟩, h₆, hrun⟩ := bind_eq_ok.1 hrun
  obtain ⟨⟨f₀, f₁, f₂, f₃, f₄⟩, hrun⟩ := cassert_bind_eq_ok.1 hrun
  obtain ⟨⟨w₁, r₁, r₅, ht, hres, hstatus⟩, -⟩ := cassert_bind_eq_ok.1 hrun
  dsimp only at hres hstatus
  subst hres hstatus
  have hreach : ((diskSys 0).restrict Punctual).Reach
      ⟨⟨false, 0, none, none⟩, s₁, fun _ => .idle, 0, ∅, ∅, ∅, []⟩ :=
    .init ⟨.step (a := .schedule) (.init h₀) (.schedule f₀ h₁), w₁, rfl⟩
  have hreach := hreach.step (a := DiskOp.busyWait 0)
    ⟨trivial, .busyWait r₁ f₁.idle rfl (show sataBusyWait _ false _ = .ok _ from rfl)⟩
  have hreach := hreach.step (a := DiskOp.check 0) ⟨trivial, .check r₁ rfl rfl⟩
  have hreach := hreach.step (a := DiskOp.send 0 0) ⟨rfl, .send r₁ f₁.idle rfl h₂ ht⟩
  have hreach := hreach.step (a := DiskOp.complete 0) ⟨trivial, .complete (Set.mem_insert ..)⟩
  have hreach := hreach.step (a := DiskOp.interrupt 0) ⟨fun e he => absurd he List.not_mem_nil,
    .interrupt f₂ (Set.mem_insert ..) h₃⟩
  have hreach := reach_schedule hreach trivial f₃ h₄
  have hreach := reach_schedule hreach trivial f₄ h₅
  exact ⟨_, _, hreach, .ret (t := 3) r₅ rfl h₆,
    (disk_commands hreach).1 0 0 _ (.ret (t := 3) r₅ rfl h₆)⟩

/-- The timer of command 0 runs out.  Its interrupt comes after command 1 has been issued, which
    returns 0 though its own interrupt has not come; that one finds nothing in flight. -/
theorem disk_late : ∃ x x₁ x₂, (diskSys 0).Reach x ∧ DiskStep x (.ret 0 1 0) x₁ ∧ 1 ∉ x.handled ∧
    DiskStep x (.complete 1) x₂ ∧ 1 ∈ x₂.raised ∧
    hbaHandler x₂.port x₂.sched = .error (.assert "port->sending != NULL") := by
  obtain ⟨⟨⟩, hrun⟩ := ok_of_isOk (show Except.isOk (do
    let s₀ ← taskInit
    let s₁ ← schedule s₀
    let r₂ ← sataSendingWait ⟨false, 0, none, none⟩ s₁
    let s₃ ← schedule r₂.2.1
    let s₄ ← schedule s₃
    let s₅ ← taskSleep s₄ 1000
    let s₆ ← weakup { s₅ with jiffies := u32 (s₅.jiffies + 99 + 1) }
    let s₇ ← schedule s₆
    let s₈ ← schedule s₇
    let r₉ ← timer r₂.1 s₈
    let s₁₀ ← schedule r₉.2
    let s₁₁ ← schedule s₁₀
    let r₁₂ ← resumeWait s₁₁
    let r₁₃ ← sataSendingWait r₉.1 r₁₂.1
    let r₁₄ ← hbaHandler { r₁₃.1 with dps := true } r₁₃.2.1
    let s₁₅ ← schedule r₁₄.2
    let s₁₆ ← schedule s₁₅
    let r₁₇ ← resumeWait s₁₆
    cassert (Free s₀ ∧ Free s₁ ∧ Free r₂.2.1 ∧ Free s₃ ∧ Free s₄ ∧ Free s₅ ∧ Free s₆ ∧ Free s₇ ∧
      Free s₈ ∧ Free r₉.2 ∧ Free s₁₀ ∧ Free r₁₂.1 ∧ Free r₁₃.2.1 ∧ Free r₁₄.2 ∧ Free s₁₅) "Free"
    cassert (s₁.running_task = some 0 ∧ s₄.running_task = some 3 ∧ s₈.running_task = some 3 ∧
      s₁₁.running_task = some 0 ∧ r₁₂.1.running_task = some 0 ∧ s₁₆.running_task = some 0) "running_task"
    cassert (s₁.lists (.other 0) = [] ∧ r₂.1.timer = some 3 ∧ r₂.2.2 = .blocked ∧
      (s₅.lists .sleep).head? = some 3 ∧ (s₅.task_bucket 3).map Tcb.value = some 100 ∧
      s₅.jiffies = 0) "sleep"
    cassert (r₁₂.2.1 = 3 ∧ r₉.1.sending = none ∧ r₁₃.1.timer = some 3 ∧ r₁₃.2.2 = .blocked ∧
      r₁₇.2.2 = 0 ∧ r₁₄.1.sending = none) "port"
    return ()) = true by decide +kernel)
  obtain ⟨s₀, h₀, hrun⟩ := bind_eq_ok.1 hrun
  obtain ⟨s₁, h₁, hrun⟩ := bind_eq_ok.1 hrun
  obtain ⟨⟨port₂, s₂, res₂⟩, h₂, hrun⟩ := bind_eq_ok.1 hrun
  obtain ⟨s₃, h₃, hrun⟩ := bind_eq_ok.1 hrun
  obtain ⟨s₄, h₄, hrun⟩ := bind_eq_ok.1 hrun
  obtain ⟨s₅, h₅, hrun⟩ := bind_eq_ok.1 hrun
  obtain ⟨s₆, h₆, hrun⟩ := bind_eq_ok.1 hrun
  obtain ⟨s₇, h₇, hrun⟩ := bind_eq_ok.1 hrun
  obtain ⟨s₈, h₈, hrun⟩ := bind_eq_ok.1 hrun
  obtain ⟨⟨port₉, s₉⟩, h₉, hrun⟩ := bind_eq_ok.1 hrun
  obtain ⟨s₁₀, h₁₀, hrun⟩ := bind_eq_ok.1 hrun
  obtain ⟨s₁₁, h₁₁, hrun⟩ := bind_eq_ok.1 hrun
  obtain ⟨⟨s₁₂, c, status₁₂⟩, h₁₂, hrun⟩ := bind_eq_ok.1 hrun
  obtain ⟨⟨port₁₃, s₁₃, res₁₃⟩, h₁₃, hrun⟩ := bind_eq_ok.1 hrun
  obtain ⟨⟨port₁₄, s₁₄⟩, h₁₄, hrun⟩ := bind_eq_ok.1 hrun
  obtain ⟨s₁₅, h₁₅, hrun⟩ := bind_eq_ok.1 hrun
  obtain ⟨s₁₆, h₁₆, hrun⟩ := bind_eq_ok.1 hrun
  obtain ⟨⟨s₁₇, c', status₁₇⟩, h₁₇, hrun⟩ := bind_eq_ok.1 hrun
  obtain ⟨⟨f₀, f₁, f₂, f₃, f₄, f₅, f₆, f₇, f₈, f₉, f₁₀, f₁₂, f₁₃, f₁₄, f₁₅⟩, hrun⟩ :=
    cassert_bind_eq_ok.1 hrun
  obtain ⟨⟨r₁, r₄, r₈, r₁₁, r₁₂, r₁₆⟩, hrun⟩ := cassert_bind_eq_ok.1 hrun
  obtain ⟨⟨w₁, t₂, b₂, hhead, hvalue, hj⟩, hrun⟩ := cassert_bind_eq_ok.1 hrun
  obtain ⟨⟨hc, n₉, t₁₃, b₁₃, st₁₇, n₁₄⟩, -⟩ := cassert_bind_eq_ok.1 hrun
  obtain ⟨u, hu, hvalue⟩ := Option.map_eq_some_iff.1 hvalue
  dsimp only at b₂ hc b₁₃ st₁₇ n₁₄
  subst b₂ hc b₁₃ st₁₇
  have hreach : ((diskSys 0).restrict fun _ _ => True).Reach
      ⟨⟨false, 0, none, none⟩, s₁, fun _ => .idle, 0, ∅, ∅, ∅, []⟩ :=
    .init ⟨.step (a := .schedule) (.init h₀) (.schedule f₀ h₁), w₁, rfl⟩
  have hreach := hreach.step (a := DiskOp.busyWait 0)
    ⟨trivial, .busyWait r₁ f₁.idle rfl (show sataBusyWait _ false _ = .ok _ from rfl)⟩
  have hreach := hreach.step (a := DiskOp.check 0) ⟨trivial, .check r₁ rfl rfl⟩
  have hreach := hreach.step (a := DiskOp.send 0 0) ⟨trivial, .send r₁ f₁.idle rfl h₂ t₂⟩
  have hreach := reach_schedule hreach trivial f₂ h₃
  have hreach := reach_schedule hreach trivial f₃ h₄
  have hreach := hreach.step (a := DiskOp.sleep 3) ⟨trivial, .sleep r₄ f₄ rfl h₅⟩
  have hreach := reach_clock hreach (fun _ => trivial) f₅ hhead hu (by omega) 99
    (by dsimp only; omega)
  have hreach := hreach.step (a := DiskOp.other .clock)
    ⟨trivial, .other (elsewhere_of rfl (by simp) (by simp) (by simp) (by simp)) (.clock f₅ h₆)⟩
  have hreach := reach_schedule hreach trivial f₆ h₇
  have hreach := reach_schedule hreach trivial f₇ h₈
  have hreach := hreach.step (a := DiskOp.expire 3 0) ⟨trivial, .expire r₈ f₈ rfl h₉⟩
  have hreach := reach_schedule hreach trivial f₉ h₁₀
  have hreach := reach_schedule hreach trivial f₁₀ h₁₁
  have hreach := hreach.step (a := DiskOp.ret 0 0 status₁₂) ⟨trivial, .ret (t := 3) r₁₁ rfl h₁₂⟩
  have hreach := hreach.step (a := DiskOp.busyWait 0)
    ⟨trivial, .busyWait r₁₂ f₁₂.idle rfl (show sataBusyWait _ false _ = .ok _ from rfl)⟩
  have hreach := hreach.step (a := DiskOp.check 0) ⟨trivial, .check r₁₂ rfl n₉⟩
  have hreach := hreach.step (a := DiskOp.send 0 1) ⟨trivial, .send r₁₂ f₁₂.idle rfl h₁₃ t₁₃⟩
  have hreach := hreach.step (a := DiskOp.complete 0)
    ⟨trivial, .complete (Set.mem_insert_of_mem _ (Set.mem_insert ..))⟩
  have hreach := hreach.step (a := DiskOp.interrupt 0) ⟨trivial, .interrupt f₁₃ (Set.mem_insert ..) h₁₄⟩
  have hreach := reach_schedule hreach trivial f₁₄ h₁₅
  have hreach := reach_schedule hreach trivial f₁₅ h₁₆
  refine ⟨_, _, _, hreach.of_restrict, .ret (t := 3) r₁₆ rfl h₁₇, ?_,
    .complete ⟨Set.mem_insert .., ?_⟩, Set.mem_insert .., ?_⟩
  · simp
  · simp
  · simp [hbaHandler, n₁₄]

end Rdix.Sched
