/-
  Parents and children (kernel/task.c): what `sys_waitpid` frees.

  * `Kin` is what matters of a task for its family, and `FStep` what a step does to the families;
    `fstep_of_step` is the refinement;
  * `WaitInv`: what a parent in `sys_waitpid` waits for;
  * `waitpid_reaps`: what is freed was dead, in runs in which the right child wakes the parent.
-/
import Rdix.Kernel.Sched

namespace Rdix.Sched

open Function Transition

/-! ## Families -/

/-- What the family sees of a task. -/
structure Kin where
  pid : Pid
  ppid : Pid
  waitpid : ℤ
  child : Option Pid
  status : ℤ
  exited : Option ℤ
  dead : Bool
  waiting : Bool

def Tcb.kin (t : Tcb) : Kin where
  pid := t.pid
  ppid := t.ppid
  waitpid := t.waitpid
  child := t.child
  status := t.status
  exited := t.exited
  dead := t.state = .died
  waiting := t.state = .waiting

abbrev Kins := Pid → Option Kin

def kins (s : State) : Kins := fun p => (s.task_bucket p).map Tcb.kin

/-- The request of a `sys_waitpid` and a child. -/
def Matches (pid : ℤ) (c : Pid) : Prop := pid = (c : ℕ) ∨ pid = -1

instance (pid : ℤ) (c : Pid) : Decidable (Matches pid c) := inferInstanceAs (Decidable (_ ∨ _))

/-- The first child of `k` that matches. -/
def firstChild (K : Kins) (k : Kin) (pid : ℤ) : Option Pid :=
  (List.finRange taskNum).find? fun i => (K i).any fun u => u.ppid = k.pid ∧ Matches pid u.pid

/-- The children of `x` get its own parent. -/
def Kin.adopt (x u : Kin) : Kin := if u.ppid = x.pid then { u with ppid := x.ppid } else u

/-- `x` is waited for by `g`. -/
def Kin.Awaits (g x : Kin) : Prop := g.waiting = true ∧ (g.waitpid = -1 ∨ g.waitpid = (x.pid : ℕ))

instance (g x : Kin) : Decidable (g.Awaits x) := inferInstanceAs (Decidable (_ ∧ _))

/-- `x` has exited: it is dead, its children are adopted, and its parent is woken if it waits. -/
def afterExit (K : Kins) (x : Pid) (k : Kin) (status : ℤ) : Kins := fun q =>
  if q = x then some { k with dead := true, waiting := false, status, exited := some status }
  else (K q).map fun u =>
    let u := k.adopt u
    if q = k.ppid ∧ u.Awaits k then { u with waiting := false } else u

/-- What is left of a `sys_exit` that has blocked: the children are adopted and the parent is woken,
    but the task is not dead. -/
def afterEnd (K : Kins) (x : Pid) (k : Kin) : Kins := fun q =>
  if q = x then some k else afterExit K x k k.status q

/-- The task that an operation ends. -/
def target (running_task : Option Pid) : Op → Option Pid
  | .exit _ => running_task
  | .exitEnd => running_task
  | .threadExit th _ => th <|> running_task
  | _ => none

/-- What an operation does to the families. -/
inductive FStep (r : Option Pid) (K : Kins) : Op → Kins → Prop where
  | quiet {op : Op} : target r op = none → (∀ pid res, op = .waitpid pid res → res = .failed) →
      (∀ pid status, op ≠ .resume pid status) → FStep r K op K
  | turn {op : Op} {p : Pid} {k : Kin} {w : Bool} : target r op = none →
      (∀ pid res, op ≠ .waitpid pid res) → (∀ pid status, op ≠ .resume pid status) →
      K p = some k → k.dead = false → k.child = none →
      FStep r K op (update K p (some { k with waiting := w }))
  | born {op : Op} {p : Pid} {k : Kin} : target r op = none →
      (∀ pid res, op ≠ .waitpid pid res) → (∀ pid status, op ≠ .resume pid status) →
      K p = none → k.pid = p → k.dead = false → k.child = none →
      (r = none ∧ k.ppid = 0 ∨ ∃ g, r = some k.ppid ∧ K k.ppid = some g ∧ g.dead = false) →
      FStep r K op (update K p (some k))
  | exit {op : Op} {x : Pid} {k : Kin} {status : ℤ} : op ≠ .exitEnd → target r op = some x →
      K x = some k → (K k.ppid).isSome → FStep r K op (afterExit K x k status)
  | suspend {status : ℤ} {list : Option ListId} {st : TaskState} {p : Pid} {k : Kin} {w : Bool} :
      r = some p → K p = some k → k.dead = false → k.child = none →
      FStep r K (.exitBlock status list st)
        (update K p (some { k with status, exited := some status, waiting := w }))
  | suspendWait {status : ℤ} {priority : ℕ} {p c : Pid} {k u : Kin} : r = some p → K p = some k →
      k.dead = false → k.child = none → K c = none → u.pid = c → u.ppid = p → u.dead = false →
      u.child = none → FStep r K (.exitWait status priority)
        (update (update K c (some u)) p (some { k with
          status, exited := some status, waitpid := (c : ℕ), child := some c, waiting := true }))
  | finish {p : Pid} {k : Kin} : r = some p → K p = some k → k.dead = false → k.waiting = false →
      k.child = none → (K k.ppid).isSome → FStep r K .exitEnd (afterEnd K p k)
  | wait {p c : Pid} {k u : Kin} {pid : ℤ} : r = some p → K p = some k → k.dead = false →
      k.child = none → firstChild K k pid = some c → K c = some u → u.dead = false →
      FStep r K (.waitpid pid .blocked)
        (update K p (some { k with waitpid := pid, child := some c, waiting := true }))
  | reap {p c : Pid} {k u : Kin} {pid : ℤ} : r = some p → K p = some k → k.dead = false →
      k.child = none → firstChild K k pid = some c → K c = some u → u.dead = true →
      FStep r K (.waitpid pid (.reaped c u.status)) (update K c none)
  | resume {p c : Pid} {k u : Kin} : r = some p → K p = some k → k.dead = false →
      k.waiting = false → k.child = some c → K c = some u → c ≠ p →
      FStep r K (.resume c u.status) (update (update K p (some { k with child := none })) c none)

/-! ## What a step does to the families -/

section Refinement
variable {s s' s₁ s₂ : State} {p : Pid} {t t' : Tcb}

theorem kins_eq (ht : s.task_bucket p = some t) : kins s p = some t.kin := by
  rw [kins, ht]
  rfl

theorem Moved.kins (m : Moved s s' p t) : kins s' = update (Sched.kins s) p (some t.kin) := by
  funext q
  rw [Sched.kins, m.bucket]
  by_cases hq : q = p
  · rw [hq, update_self, update_self]
    rfl
  · rw [update_of_ne hq, update_of_ne hq]
    rfl

/-- **`schedule` does not touch the families.** -/
theorem kins_schedule (h : Midway s) (hs : schedule s = .ok s') : kins s' = kins s := by
  cases schedule_cases h hs with
  | same he _ => rw [he]
  | first next n hn _ hst _ hb =>
    funext q
    rw [kins, hb]
    by_cases hq : q = next
    · rw [hq, update_self, kins_eq hn]
      rfl
    · rw [update_of_ne hq]
      rfl
  | switch next r n c hn _ hst hr hc hnr hb =>
    funext q
    rw [kins, hb]
    by_cases hq : q = r
    · rw [hq, update_self, kins_eq hc, Option.map_some]
      congr 1
      unfold Tcb.parked
      split_ifs with hoff
      · obtain ⟨c', hc', ⟨-, hst'⟩ | ⟨⟨l, hl, -⟩, -⟩⟩ := h.running r hr
        · rw [hc] at hc'
          cases hc'
          have hslice : c.state = .ready ∨ c.state = .running := by
            rw [hst', State.slice]
            split_ifs <;> simp
          rcases hslice with he | he <;> simp [Tcb.kin, he]
        · rw [hc] at hc'
          cases hc'
          rw [hoff] at hl
          cases hl
      · rfl
    · rw [update_of_ne hq]
      by_cases hq' : q = next
      · rw [hq', update_self, kins_eq hn, Option.map_some]
        simp [Tcb.kin, hst]
      · rw [update_of_ne hq']
        rfl

theorem findChild_eq (s : State) (task : Tcb) (pid : ℤ) :
    findChild s task pid = firstChild (kins s) task.kin pid := by
  unfold findChild firstChild
  congr 1
  funext i
  rw [kins, Option.any_map]
  rfl

theorem kin_adopt (t u : Tcb) : (adopt t u).kin = t.kin.adopt u.kin := by
  unfold adopt Kin.adopt
  by_cases h : u.ppid = t.pid
  · rw [if_pos h, if_pos (show u.kin.ppid = t.kin.pid from h)]
    rfl
  · rw [if_neg h, if_neg (show ¬ u.kin.ppid = t.kin.pid from h)]

theorem awaits_iff (g t : Tcb) : g.kin.Awaits t.kin ↔ WaitsFor g t.pid :=
  and_congr_left' decide_eq_true_iff

/-- What an exit does to the families of the others. -/
theorem kins_others (status : ℤ) (ht : s.task_bucket p = some t) (e : Exited s s₁ p t t')
    (hnw : t'.state ≠ .waiting) (hw : wakeParent s₁ t = .ok s₂) :
    kins s₂ p = some t'.kin ∧ (∀ q, q ≠ p → kins s₂ q = afterExit (kins s) p t.kin status q) ∧
      (kins s t.ppid).isSome := by
  obtain ⟨parent, hp, hcase⟩ := wakeParent_ok hw
  have hsome : (kins s t.ppid).isSome := by
    by_cases hpp : t.ppid = p
    · rw [hpp, kins_eq ht]
      rfl
    · rw [e.others _ hpp] at hp
      obtain ⟨u, hu, -⟩ := Option.map_eq_some_iff.1 hp
      rw [kins_eq hu]
      rfl
  have hself : t.ppid = p → ¬ WaitsFor parent t.pid := by
    rintro rfl hwait
    rw [e.gone] at hp
    cases hp
    exact hnw hwait.1
  refine ⟨?_, fun q hq => ?_, hsome⟩
  · have hps : s₂.task_bucket p = s₁.task_bucket p := by
      rcases hcase with ⟨rfl, -⟩ | ⟨hwait, -, m⟩
      · rfl
      · exact m.of_ne fun he => hself he.symm hwait
    exact kins_eq (hps.trans e.gone)
  · rw [afterExit, if_neg hq]
    show (s₂.task_bucket q).map Tcb.kin = ((s.task_bucket q).map Tcb.kin).map _
    rw [Option.map_map]
    have hone := e.others q hq
    rcases hcase with ⟨rfl, hnot⟩ | ⟨hwait, -, m⟩
    · rw [hone, Option.map_map]
      cases hb : s.task_bucket q with
      | none => rfl
      | some u =>
        simp only [Option.map_some, Function.comp, kin_adopt]
        rw [if_neg]
        rintro ⟨hqp, haw⟩
        rw [hb, Option.map_some] at hone
        rw [show t.ppid = q from hqp.symm, hone] at hp
        cases hp
        rw [← kin_adopt] at haw
        exact hnot ((awaits_iff _ _).1 haw)
    · by_cases hqp : q = t.ppid
      · subst hqp
        rw [m.at]
        rw [hone] at hp
        obtain ⟨u, hu, rfl⟩ := Option.map_eq_some_iff.1 hp
        rw [hu]
        simp only [Option.map_some, Function.comp, ← kin_adopt]
        rw [if_pos ⟨rfl, (awaits_iff _ _).2 hwait⟩]
        simp [Tcb.kin, hwait.1]
      · rw [m.of_ne hqp, hone, Option.map_map]
        cases hb : s.task_bucket q with
        | none => rfl
        | some u =>
          simp only [Option.map_some, Function.comp, kin_adopt]
          rw [if_neg]
          rintro ⟨hqp', -⟩
          exact hqp hqp'

/-- What an exit does to the families. -/
theorem kins_exit (status : ℤ) (ht : s.task_bucket p = some t) (e : Exited s s₁ p t t')
    (hk : t'.kin = { t.kin with dead := true, waiting := false, status, exited := some status })
    (hw : wakeParent s₁ t = .ok s₂) :
    kins s₂ = afterExit (kins s) p t.kin status ∧ (kins s t.ppid).isSome := by
  have hnw : t'.state ≠ .waiting := of_decide_eq_false (congrArg Kin.waiting hk)
  obtain ⟨hp, hq, hsome⟩ := kins_others status ht e hnw hw
  refine ⟨funext fun q => ?_, hsome⟩
  by_cases hqp : q = p
  · rw [hqp, hp, hk, afterExit, if_pos rfl]
  · exact hq q hqp

/-- **What the exit of a thread does to the families.** -/
theorem kins_threadExit {th : Option Pid} {status : ℕ} (h : SchedInv s) (hb : blocking s th = some p)
    (hs : kernelThreadExit s th status = .ok s') : ∃ k, kins s p = some k ∧
      (kins s k.ppid).isSome ∧ kins s' = afterExit (kins s) p k (i32 status) := by
  obtain ⟨q, t, s₁, s₂, hq, ht, e, hw, hcase⟩ := h.kernelThreadExit_cases hs
  obtain rfl : p = q := Option.some.inj (hb.symm.trans hq)
  obtain ⟨hk, hpp⟩ := kins_exit (i32 status) ht e (by simp [Tcb.kin]) hw
  refine ⟨t.kin, kins_eq ht, hpp, ?_⟩
  rcases hcase with ⟨hm, hsch⟩ | ⟨-, rfl⟩
  · rw [kins_schedule hm hsch, hk]
  · exact hk

/-- The running task is alive, and waits for nobody. -/
theorem SchedInv.runs (h : SchedInv s) {r : Pid} (hr : s.running_task = some r) :
    ∃ t, s.task_bucket r = some t ∧ t.state ≠ .died ∧ t.state ≠ .waiting := by
  obtain ⟨t, ht, -, hst⟩ := h.occupied hr
  refine ⟨t, ht, ?_, ?_⟩ <;>
    (rw [hst, State.slice]; split_ifs <;> simp)

/-- A task outside `sys_waitpid` changes its state. -/
theorem fstep_turn {op : Op} {st : TaskState} (hop : target s.running_task op = none)
    (h₁ : ∀ pid res, op ≠ .waitpid pid res) (h₂ : ∀ pid status, op ≠ .resume pid status)
    (ht : s.task_bucket p = some t) (hd : t.state ≠ .died) (hc : t.child = none)
    (hst : st ≠ .died) {c : Option ListId} {v : ℕ}
    (m : Moved s s' p { t with state := st, container := c, value := v }) :
    FStep s.running_task (kins s) op (kins s') := by
  have hk : ({ t with state := st, container := c, value := v } : Tcb).kin =
      { t.kin with waiting := st = .waiting } := by
    simp [Tcb.kin, hst, hd]
  rw [m.kins, hk]
  exact .turn hop h₁ h₂ (kins_eq ht) (decide_eq_false hd) hc

theorem fstep_block {list : Option ListId} {task : Option Pid} {st : TaskState} (h : SchedInv s)
    (hf : Idle s) (h₁ : list ≠ some .ready) (h₂ : list ≠ some .sleep) (h₃ : list ≠ some .died)
    (hst : st = .blocked ∨ st = .waiting) (hp : ∀ p, task = some p → Plain s p)
    (hs : block s list task st = .ok s') :
    FStep s.running_task (kins s) (.block list task st) (kins s') := by
  obtain ⟨p, t, s₁, hb, ht, m, hm, hsch⟩ := h.block_cases h₁ h₂ h₃ hst hs
  rw [kins_schedule hm hsch]
  have hplain : t.state ≠ .died ∧ t.child = none := by
    cases task with
    | some q =>
      cases hb
      exact hp p rfl t ht
    | none =>
      obtain ⟨u, hu, hd, -⟩ := h.runs hb
      rw [ht] at hu
      cases hu
      exact ⟨hd, hf p t hb ht⟩
  exact fstep_turn rfl (by simp) (by simp) ht hplain.1 hplain.2 (by rcases hst with rfl | rfl <;> simp)
    m

theorem fstep_sleep {time : ℕ} (h : SchedInv s) (hf : Free s) (hs : taskSleep s time = .ok s') :
    FStep s.running_task (kins s) (.sleep time) (kins s') := by
  obtain ⟨r, t, v, s₁, hr, ht, m, hm, hsch⟩ := h.taskSleep_cases hs
  rw [kins_schedule hm hsch]
  obtain ⟨u, hu, hd, -⟩ := h.runs hr
  rw [ht] at hu
  cases hu
  exact fstep_turn rfl (by simp) (by simp) ht hd (hf r t hr ht).1 (by simp) m

theorem fstep_clock {j : ℕ} (h : SchedInv s) (hs : weakup { s with jiffies := j } = .ok s') :
    FStep s.running_task (kins s) .clock (kins s') := by
  have hk : kins s' = kins s := by
    obtain rfl | ⟨p, t, ht, hc, m⟩ := weakup_ok hs (h.tick j)
    · rfl
    · rw [m.kins]
      refine (update_eq_self_iff.2 ?_).trans rfl
      have hsleep : t.state = .sleeping := by
        have hnr := (h.tick j).ne_running ht (by rw [hc]; rfl)
        obtain ⟨l, hl, hfit⟩ := h.listed p t ht hnr
        rw [hc] at hl
        cases hl
        exact hfit
      rw [kins_eq ht]
      simp [Tcb.kin, hsleep]
  rw [hk]
  exact .quiet rfl (by simp) (by simp)

theorem fstep_create {priority : ℕ} (h : SchedInv s) (hs : taskCreate s priority = .ok s') :
    FStep s.running_task (kins s) (.create priority) (kins s') := by
  obtain ⟨p, hp, m⟩ := taskCreate_ok hs
  rw [m.kins]
  refine .born rfl (by simp) (by simp) (by rw [kins, hp]; rfl) rfl rfl rfl ?_
  cases hr : s.running_task with
  | none => exact Or.inl ⟨rfl, rfl⟩
  | some r =>
    obtain ⟨t, ht, hd, -⟩ := h.runs hr
    have hpp : ((some r).bind s.task_bucket).elim 0 Tcb.pid = r := by
      rw [Option.bind_some, ht, Option.elim_some, h.pid r t ht]
    refine Or.inr ⟨t.kin, ?_, ?_, decide_eq_false hd⟩
    · exact congrArg some hpp.symm
    · refine (congrArg (kins s) hpp).trans (kins_eq ht)

theorem fstep_fork (h : SchedInv s) (hs : sysFork s = .ok s') :
    FStep s.running_task (kins s) .fork (kins s') := by
  obtain ⟨r, task, p, hr, htask, hp, m⟩ := sysFork_ok hs
  rw [m.kins]
  obtain ⟨t, ht, hd, -⟩ := h.runs hr
  rw [htask] at ht
  cases ht
  have hpid := h.pid r task htask
  refine .born rfl (by simp) (by simp) (by rw [kins, hp]; rfl) rfl rfl rfl
    (Or.inr ⟨task.kin, ?_, ?_, decide_eq_false hd⟩)
  · exact hr.trans (congrArg some hpid.symm)
  · exact (congrArg (kins s) hpid).trans (kins_eq htask)

theorem fstep_free {c : Pid} {r : Pid × ℤ} (h : SchedInv s) (hs : freeTask s c = .ok (s', r)) :
    ∃ u, s.task_bucket c = some u ∧ u.container.isSome ∧ r = (c, u.status) ∧
      kins s' = update (kins s) c none := by
  obtain ⟨u, hu, hc, hr, hrest⟩ := freeTask_ok hs
  have hpid := h.pid c u hu
  obtain ⟨hb, -⟩ := hrest hpid
  refine ⟨u, hu, hc, by rw [hr, hpid], funext fun q => ?_⟩
  rw [kins, hb]
  by_cases hq : q = c
  · rw [hq, update_self, update_self]
    rfl
  · rw [update_of_ne hq, update_of_ne hq]
    rfl

theorem fstep_waitpid {pid : ℤ} {r : WaitRes} (h : SchedInv s) (hf : Idle s)
    (hs : sysWaitpid s pid = .ok (s', r)) :
    FStep s.running_task (kins s) (.waitpid pid r) (kins s') := by
  obtain ⟨p, task, hp, ht, hcase⟩ := h.sysWaitpid_cases hs
  obtain ⟨t, ht', hd, -⟩ := h.runs hp
  rw [ht] at ht'
  cases ht'
  have hchild := hf p task hp ht
  rcases hcase with ⟨-, rfl, rfl⟩ | ⟨c, u, hc, hu, ⟨hud, q, hq, rfl⟩ | ⟨hud, rfl, s₁, hm, hsch, m⟩⟩
  · exact .quiet rfl (by simp) (by simp)
  · obtain ⟨u', hu', -, rfl, hk⟩ := fstep_free h hq
    rw [hu] at hu'
    cases hu'
    rw [hk]
    rw [findChild_eq] at hc
    exact .reap (u := u.kin) hp (kins_eq ht) (decide_eq_false hd) hchild hc (kins_eq hu)
      (decide_eq_true hud)
  · rw [kins_schedule hm hsch, m.kins]
    rw [findChild_eq] at hc
    have hk : ({ task with waitpid := pid, child := some c, state := .waiting
                           container := some .block } : Tcb).kin =
        { task.kin with waitpid := pid, child := some c, waiting := true } := by
      simp [Tcb.kin, hd]
    rw [hk]
    exact .wait hp (kins_eq ht) (decide_eq_false hd) hchild hc (kins_eq hu) (decide_eq_false hud)

theorem fstep_resume {pid : Pid} {status : ℤ} (h : SchedInv s)
    (hs : resumeWait s = .ok (s', pid, status)) :
    FStep s.running_task (kins s) (.resume pid status) (kins s') := by
  obtain ⟨p, task, c, hp, ht, hc, hfree⟩ := resumeWait_ok hs
  obtain ⟨t, ht', hd, hw⟩ := h.runs hp
  rw [ht] at ht'
  cases ht'
  have m := moved_put (u := { task with child := none }) ht rfl
  have h₁ : SchedInv (s.put p { task with child := none }) :=
    h.congr rfl rfl rfl (place_put ht rfl)
  obtain ⟨u, hu, hcu, hr, hk⟩ := fstep_free h₁ hfree
  have hne : c ≠ p := by
    rintro rfl
    exact h₁.ne_running hu hcu hp
  rw [m.of_ne hne] at hu
  rw [hk, m.kins]
  cases hr
  exact .resume (u := u.kin) hp (kins_eq ht) (decide_eq_false hd) (decide_eq_false hw) hc (kins_eq hu)
    hne

/-- A `sys_exit` that blocks leaves the families as they are. -/
theorem fstep_suspend {status : ℤ} {list : Option ListId} {st : TaskState} (h : SchedInv s)
    (hf : Free s) (h₁ : list ≠ some .ready) (h₂ : list ≠ some .sleep) (h₃ : list ≠ some .died)
    (hst : st = .blocked ∨ st = .waiting) (hs : exitBlock s status list st = .ok s') :
    FStep s.running_task (kins s) (.exitBlock status list st) (kins s') := by
  obtain ⟨r, t, s₁, hr, ht, -, m, hm, hsch⟩ := h.exitBlock_cases h₁ h₂ h₃ hst hs
  obtain ⟨u, hu, hd, -⟩ := h.runs hr
  rw [ht] at hu
  cases hu
  rw [kins_schedule hm hsch, m.kins]
  have hdead : st ≠ .died := by rcases hst with rfl | rfl <;> simp
  have hk : ({ t with status, exited := some status, exiting := true, state := st
                      container := some (list.getD .block) } : Tcb).kin =
      { t.kin with status, exited := some status, waiting := st = .waiting } := by
    simp [Tcb.kin, hd, hdead]
  rw [hk]
  exact .suspend hr (kins_eq ht) (decide_eq_false hd) (hf r t hr ht).1

/-- One that waits for the disk waits for a new child. -/
theorem fstep_suspendWait {status : ℤ} {priority : ℕ} {res : WaitRes} (h : SchedInv s) (hf : Free s)
    (hs : exitWait s status priority = .ok (s', res)) :
    FStep s.running_task (kins s) (.exitWait status priority) (kins s') := by
  obtain ⟨r, t, q, s₁, s₂, s₃, hr, ht, -, hq, -, m₁, m₂, -, m₃, hm, hsch⟩ := h.exitWait_cases hs
  obtain ⟨u, hu, hd, -⟩ := h.runs hr
  rw [ht] at hu
  cases hu
  have hqr : q ≠ r := by
    rintro rfl
    rw [ht] at hq
    cases hq
  rw [kins_schedule hm hsch, m₃.kins, m₂.kins, m₁.kins, update_comm hqr.symm, update_idem]
  have hk : ({ t with status, exited := some status, exiting := true, waitpid := (q : ℕ)
                      child := some q, state := .waiting, container := some .block } : Tcb).kin =
      { t.kin with status, exited := some status, waitpid := (q : ℕ), child := some q
                   waiting := true } := by
    simp [Tcb.kin, hd]
  rw [hk]
  exact .suspendWait hr (kins_eq ht) (decide_eq_false hd) (hf r t hr ht).1
    (by rw [kins, hq]; rfl) rfl rfl rfl rfl

/-- The rest of a `sys_exit` leaves its task alive. -/
theorem fstep_finish (h : SchedInv s) (hf : Idle s) (hs : exitRest s = .ok s') :
    FStep s.running_task (kins s) .exitEnd (kins s') := by
  obtain ⟨r, t, s₁, s₂, hr, ht, -, e, -, hw, hm, hsch⟩ := h.exitRest_cases hs
  obtain ⟨u, hu, hd, hnw⟩ := h.runs hr
  rw [ht] at hu
  cases hu
  obtain ⟨hp, hq, hsome⟩ := kins_others t.status ht e hnw hw
  have hk : kins s₂ = afterEnd (kins s) r t.kin := by
    funext q
    unfold afterEnd
    by_cases hqr : q = r
    · rw [hqr, hp, if_pos rfl]
      rfl
    · rw [if_neg hqr]
      exact hq q hqr
  rw [kins_schedule hm hsch, hk]
  exact .finish hr (kins_eq ht) (decide_eq_false hd) (decide_eq_false hnw) (hf r t hr ht) hsome

/-- **Refinement**: each step of the scheduler is a step of the families. -/
theorem fstep_of_step {op : Op} (h : SchedInv s) (hs : Step s op s') :
    FStep s.running_task (kins s) op (kins s') := by
  cases hs with
  | schedule _ hs =>
    rw [kins_schedule h.toMidway hs]
    exact .quiet rfl (by simp) (by simp)
  | clock _ hs => exact fstep_clock h hs
  | block hf h₁ h₂ h₃ hst hp hs => exact fstep_block h hf h₁ h₂ h₃ hst hp hs
  | unblock _ hp hs =>
    obtain ⟨t, l, ht, -, m⟩ := unblock_ok hs
    exact fstep_turn rfl (by simp) (by simp) ht (hp t ht).1 (hp t ht).2 (by simp) m
  | sleep hf hs => exact fstep_sleep h hf hs
  | create _ hs => exact fstep_create h hs
  | fork _ hs => exact fstep_fork h hs
  | @exit status _ _ hs =>
    obtain ⟨r, t, s₁, s₂, hr, ht, e, hw, hm, hsch⟩ := h.sysExit_cases hs
    obtain ⟨hk, hpp⟩ := kins_exit status ht e (by simp [Tcb.kin]) hw
    rw [kins_schedule hm hsch, hk]
    exact .exit (by simp) hr (kins_eq ht) hpp
  | exitBlock hf h₁ h₂ h₃ hst hs => exact fstep_suspend h hf h₁ h₂ h₃ hst hs
  | exitWait hf hs => exact fstep_suspendWait h hf hs
  | exitEnd hf _ hs => exact fstep_finish h hf hs
  | threadExit _ hs =>
    obtain ⟨p, -, -, -, hb, -⟩ := h.kernelThreadExit_cases hs
    obtain ⟨k, hk, hpp, he⟩ := kins_threadExit h hb hs
    rw [he]
    exact .exit (by simp) hb hk hpp
  | waitpid hf hs => exact fstep_waitpid h hf hs
  | resume hs => exact fstep_resume h hs

end Refinement

/-! ## What a parent waits for -/

/-- A task that is in `sys_waitpid` has chosen a child of its own that matches, and is woken when
    that child is dead. -/
def WaitInv (K : Kins) : Prop := ∀ p k c, K p = some k → k.dead = false → k.child = some c →
  ∃ u, K c = some u ∧ u.ppid = p ∧ Matches k.waitpid c ∧ (k.waiting = false → u.dead = true)

/-- A dead task has given its status. -/
def Told (K : Kins) : Prop := ∀ p k, K p = some k → k.dead = true → k.exited = some k.status

/-- Slot `p` holds the task `p`. -/
def OwnPid (K : Kins) : Prop := ∀ p k, K p = some k → k.pid = p

/-- An exit that ends a wait for any child is the exit of the child that was chosen; one that has
    been suspended, and leaves its task alive, ends none. -/
def WakesRight (r : Option Pid) (K : Kins) (op : Op) : Prop :=
  ∀ x k g c, target r op = some x → K x = some k → K k.ppid = some g → g.waiting = true →
    g.child = some c → (g.waitpid = -1 → c = x) ∧ (op = .exitEnd → ¬ Matches g.waitpid x)

section Waiting
variable {K K' : Kins} {r : Option Pid} {op : Op} {p c : Pid} {k k' : Kin}

theorem firstChild_some {pid : ℤ} (h : firstChild K k pid = some c) :
    ∃ u, K c = some u ∧ u.ppid = k.pid ∧ Matches pid u.pid := by
  have hc := List.find?_some h
  obtain ⟨u, hu, hm⟩ := (Option.any_eq_true _ _).1 hc
  exact ⟨u, hu, of_decide_eq_true hm⟩

/-- A task changes, but for its place in the family. -/
theorem WaitInv.put (h : WaitInv K) (hk : K p = some k) (hpp : k'.ppid = k.ppid)
    (hd : k'.dead = k.dead) (hself : ∀ c, k'.child = some c → ∃ u, K c = some u ∧ u.ppid = p ∧
      Matches k'.waitpid c ∧ (k'.waiting = false → u.dead = true)) :
    WaitInv (update K p (some k')) := by
  have hkeep : ∀ c u, K c = some u →
      ∃ u', update K p (some k') c = some u' ∧ u'.ppid = u.ppid ∧ u'.dead = u.dead := by
    intro c u hu
    by_cases hc : c = p
    · rw [hc, hk] at hu
      cases hu
      exact ⟨k', by rw [hc, update_self], hpp, hd⟩
    · exact ⟨u, by rw [update_of_ne hc, hu], rfl, rfl⟩
  intro q g c hq hgd hgc
  obtain ⟨u, hu, hup, hm, hw⟩ : ∃ u, K c = some u ∧ u.ppid = q ∧ Matches g.waitpid c ∧
      (g.waiting = false → u.dead = true) := by
    by_cases hqp : q = p
    · rw [hqp, update_self] at hq
      cases hq
      rw [hqp]
      exact hself c hgc
    · rw [update_of_ne hqp] at hq
      exact h q g c hq hgd hgc
  obtain ⟨u', hu', hpp', hd'⟩ := hkeep c u hu
  exact ⟨u', hu', hpp'.trans hup, hm, fun hg => hd'.trans (hw hg)⟩

theorem WaitInv.born (h : WaitInv K) (hp : K p = none) (hc : k.child = none) :
    WaitInv (update K p (some k)) := by
  intro q g c hq hgd hgc
  by_cases hqp : q = p
  · rw [hqp, update_self] at hq
    cases hq
    rw [hc] at hgc
    cases hgc
  · rw [update_of_ne hqp] at hq
    obtain ⟨u, hu, hrest⟩ := h q g c hq hgd hgc
    have hcp : c ≠ p := by
      rintro rfl
      rw [hp] at hu
      cases hu
    exact ⟨u, by rw [update_of_ne hcp, hu], hrest⟩

/-- Nobody waits for what is freed. -/
theorem WaitInv.clear (h : WaitInv K)
    (hc : ∀ q g, K q = some g → g.dead = false → g.child ≠ some c) :
    WaitInv (update K c none) := by
  intro q g d hq hgd hgc
  have hqc : q ≠ c := by
    rintro rfl
    rw [update_self] at hq
    cases hq
  rw [update_of_ne hqc] at hq
  obtain ⟨u, hu, hrest⟩ := h q g d hq hgd hgc
  have hdc : d ≠ c := by
    rintro rfl
    exact hc q g hq hgd hgc
  exact ⟨u, by rw [update_of_ne hdc, hu], hrest⟩

/-- The child that was chosen is nobody else's. -/
theorem WaitInv.unique (h : WaitInv K) {u : Kin} (hu : K c = some u) (hup : u.ppid = p)
    (hk : K p = some k) (hc : k.child ≠ some c) :
    ∀ q g, K q = some g → g.dead = false → g.child ≠ some c := by
  intro q g hq hgd hgc
  obtain ⟨u', hu', hup', -⟩ := h q g c hq hgd hgc
  rw [hu] at hu'
  cases hu'
  obtain rfl : p = q := hup.symm.trans hup'
  rw [hk] at hq
  cases hq
  exact hc hgc

theorem afterExit_of_ne {x q : Pid} {status : ℤ} (h : q ≠ x) : afterExit K x k status q =
    (K q).map fun u => if q = k.ppid ∧ (k.adopt u).Awaits k then { k.adopt u with waiting := false }
      else k.adopt u := if_neg h

theorem adopt_ppid (x u : Kin) : (x.adopt u).ppid = if u.ppid = x.pid then x.ppid else u.ppid := by
  unfold Kin.adopt
  split_ifs <;> rfl

/-- Of a task that does not exit only the parent and the wait can change. -/
theorem afterExit_some {x q : Pid} {u' : Kin} {status : ℤ} (hq : q ≠ x)
    (h : afterExit K x k status q = some u') :
    ∃ u, K q = some u ∧ u' = { u with ppid := (k.adopt u).ppid, waiting := u'.waiting } ∧
      (u'.waiting = u.waiting ∨ q = k.ppid ∧ u.Awaits k ∧ u'.waiting = false) := by
  rw [afterExit_of_ne hq] at h
  obtain ⟨u, hu, rfl⟩ := Option.map_eq_some_iff.1 h
  refine ⟨u, hu, ?_, ?_⟩
  · unfold Kin.adopt
    split_ifs <;> rfl
  · split_ifs with hw
    · refine Or.inr ⟨hw.1, ?_, rfl⟩
      unfold Kin.adopt at hw
      split_ifs at hw <;> exact hw.2
    · unfold Kin.adopt
      split_ifs <;> exact Or.inl rfl

/-- `x` exits, and its TCB is `k'` then.  Whom it wakes has chosen it, and finds it dead. -/
theorem WaitInv.leave {x : Pid} {status : ℤ} (h : WaitInv K) (hpid : OwnPid K) (hx : K x = some k)
    (hat : K' x = some k') (hpp : k'.ppid = k.ppid) (hidle : k'.dead = false → k'.child = none)
    (hkeep : k.dead = true → k'.dead = true)
    (hothers : ∀ q, q ≠ x → K' q = afterExit K x k status q)
    (hr : ∀ g c, K k.ppid = some g → g.Awaits k → g.child = some c → Matches g.waitpid c →
      c = x ∧ k'.dead = true) : WaitInv K' := by
  intro q g' c hq hgd hgc
  have hqx : q ≠ x := by
    rintro rfl
    rw [hat] at hq
    cases hq
    rw [hidle hgd] at hgc
    cases hgc
  rw [hothers q hqx] at hq
  obtain ⟨g, hg, hg', hw⟩ := afterExit_some hqx hq
  rw [hg'] at hgd hgc
  obtain ⟨u, hu, hup, hm, hdead⟩ := h q g c hg hgd hgc
  rw [show g'.waitpid = g.waitpid by rw [hg']]
  have hwoken : g'.waiting = false → u.dead = true ∨ c = x ∧ k'.dead = true := by
    intro hfalse
    rcases hw with hw | ⟨rfl, hawaits, -⟩
    · exact Or.inl (hdead (hw ▸ hfalse))
    · exact Or.inr (hr g c hg hawaits hgc hm)
  by_cases hcx : c = x
  · subst hcx
    rw [hx] at hu
    cases hu
    exact ⟨k', hat, hpp.trans hup, hm, fun hf => (hwoken hf).elim hkeep (·.2)⟩
  · have hup' : (k.adopt u).ppid = q := by
      rw [adopt_ppid, if_neg, hup]
      rw [hup, hpid x k hx]
      exact hqx
    have hfield : (k.adopt u).dead = u.dead := by
      unfold Kin.adopt
      split_ifs <;> rfl
    have hdead' : g'.waiting = false → (k.adopt u).dead = true := fun hf =>
      hfield.trans ((hwoken hf).resolve_right fun he => hcx he.1)
    rw [hothers c hcx, afterExit_of_ne hcx, hu, Option.map_some]
    split_ifs
    · exact ⟨_, rfl, hup', hm, hdead'⟩
    · exact ⟨_, rfl, hup', hm, hdead'⟩

theorem WaitInv.exit {x : Pid} {status : ℤ} (h : WaitInv K) (hpid : OwnPid K) (hx : K x = some k)
    (hr : ∀ g c, K k.ppid = some g → g.waiting = true → g.child = some c → g.waitpid = -1 → c = x) :
    WaitInv (afterExit K x k status) := by
  refine h.leave hpid hx (if_pos rfl) rfl (by simp) (fun _ => rfl) (fun _ _ => rfl) ?_
  intro g c hg ⟨hwait, hreq⟩ hgc hm
  refine ⟨?_, rfl⟩
  rcases hreq with hany | hone
  · exact hr g c hg hwait hgc hany
  · rcases hm with hm | hm
    · rw [hpid x k hx, hm] at hone
      exact Fin.ext (by exact_mod_cast hone)
    · exact hr g c hg hwait hgc hm

theorem WaitInv.finish {x : Pid} (h : WaitInv K) (hpid : OwnPid K) (hx : K x = some k)
    (hc : k.child = none) (hr : ∀ g c, K k.ppid = some g → g.waiting = true → g.child = some c →
      ¬ Matches g.waitpid x) : WaitInv (afterEnd K x k) := by
  refine h.leave hpid hx (if_pos rfl) rfl (fun _ => hc) id (fun q hq => if_neg hq) ?_
  intro g c hg ⟨hwait, hreq⟩ hgc _
  rw [hpid x k hx] at hreq
  exact absurd hreq.symm (hr g c hg hwait hgc)

/-- **The child a parent waits for stays its own until it is freed.** -/
theorem WaitInv.step (h : WaitInv K) (hpid : OwnPid K) (hr : WakesRight r K op)
    (hs : FStep r K op K') : WaitInv K' := by
  cases hs with
  | quiet => exact h
  | turn _ _ _ hk _ hc =>
    refine h.put hk rfl rfl fun c hc' => ?_
    cases hc.symm.trans hc'
  | born _ _ _ hp _ _ hc => exact h.born hp hc
  | exit _ ht hx _ => exact h.exit hpid hx fun g c hg hw hc => (hr _ _ g c ht hx hg hw hc).1
  | suspend _ hk _ hc =>
    refine h.put hk rfl rfl fun c hc' => ?_
    cases hc.symm.trans hc'
  | @suspendWait _ _ p c k u _ hk _ _ hc hup hpp _ hnone =>
    have hcp : p ≠ c := by
      rintro rfl
      cases hk.symm.trans hc
    refine (h.born hc hnone).put ((update_of_ne hcp ..).trans hk) rfl rfl fun d hd => ?_
    cases hd
    exact ⟨u, update_self .., hpp, Or.inl rfl, fun hw => by cases hw⟩
  | finish hp hk _ _ hc _ =>
    exact h.finish hpid hk hc fun g c hg hw hgc => (hr _ _ g c hp hk hg hw hgc).2 rfl
  | wait _ hk _ _ hf _ _ =>
    refine h.put hk rfl rfl fun c hc => ?_
    cases hc
    obtain ⟨u, hu, hup, hm⟩ := firstChild_some hf
    rw [hpid _ u hu] at hm
    exact ⟨u, hu, hup.trans (hpid _ _ hk), hm, fun hw => by cases hw⟩
  | reap _ hk _ hc hf _ _ =>
    obtain ⟨u, hu, hup, -⟩ := firstChild_some hf
    refine h.clear (h.unique hu (hup.trans (hpid _ _ hk)) hk ?_)
    rw [hc]
    simp
  | @resume p c k u _ hk hd _ hc hu hne =>
    obtain ⟨u', hu', hup, -⟩ := h p k c hk hd hc
    have h₁ : WaitInv (update K p (some { k with child := none })) :=
      h.put hk rfl rfl fun c hc' => by cases hc'
    refine h₁.clear (h₁.unique ?_ hup (update_self ..) (by simp))
    rw [update_of_ne hne, hu']

theorem OwnPid.of_schedInv {s : State} (h : SchedInv s) : OwnPid (kins s) := by
  intro p k hk
  obtain ⟨t, ht, rfl⟩ := Option.map_eq_some_iff.1 hk
  exact h.pid p t ht

theorem Told.put (h : Told K) (hk : k.dead = false) : Told (update K p (some k)) := by
  intro q g hq hd
  by_cases hqp : q = p
  · rw [hqp, update_self] at hq
    cases hq
    rw [hk] at hd
    cases hd
  · rw [update_of_ne hqp] at hq
    exact h q g hq hd

theorem Told.clear (h : Told K) : Told (update K p none) := by
  intro q g hq hd
  by_cases hqp : q = p
  · rw [hqp, update_self] at hq
    cases hq
  · rw [update_of_ne hqp] at hq
    exact h q g hq hd

theorem Told.step (h : Told K) (hs : FStep r K op K') : Told K' := by
  cases hs with
  | quiet => exact h
  | turn _ _ _ _ hd _ => exact h.put hd
  | born _ _ _ _ _ hd _ => exact h.put hd
  | @exit _ x k status _ _ hx _ =>
    intro q g hq hd
    by_cases hqx : q = x
    · rw [afterExit, if_pos hqx] at hq
      cases hq
      rfl
    · obtain ⟨u, hu, hg, -⟩ := afterExit_some hqx hq
      rw [hg] at hd ⊢
      exact h q u hu hd
  | suspend _ _ hd _ => exact h.put hd
  | suspendWait _ _ hd _ _ _ _ hud _ => exact (h.put hud).put hd
  | @finish x k _ _ hd =>
    intro q g hq hgd
    by_cases hqx : q = x
    · rw [afterEnd, if_pos hqx] at hq
      cases hq
      rw [hd] at hgd
      cases hgd
    · rw [afterEnd, if_neg hqx] at hq
      obtain ⟨u, hu, hg, -⟩ := afterExit_some hqx hq
      rw [hg] at hgd ⊢
      exact h q u hu hgd
  | wait _ _ hd _ _ _ _ => exact h.put hd
  | reap => exact h.clear
  | @resume p c k u _ _ hd =>
    have h₁ : Told (update K p (some { k with child := none })) := h.put hd
    exact h₁.clear

end Waiting

/-! ## `sys_waitpid` frees the dead -/

def Child (s : State) (p i : Pid) : Prop := ∃ u, s.task_bucket i = some u ∧ u.ppid = p

def DeadChild (s : State) (p i : Pid) : Prop :=
  ∃ u, s.task_bucket i = some u ∧ u.ppid = p ∧ u.state = .died

/-- The task is blocked inside a `sys_waitpid`. -/
def Tcb.InWaitpid (g : Tcb) : Prop := g.state = .waiting ∧ g.child.isSome

/-- The parent of the running task is in no `sys_waitpid` that fits. -/
def Unawaited (s : State) : Prop :=
  ∀ x t g, s.running_task = some x → s.task_bucket x = some t → s.task_bucket t.ppid = some g →
    g.InWaitpid → ¬ Matches g.waitpid x

/-- The child in the lowest slot is dead if any is, when a parent begins to wait for any child; the
    exit that wakes such a parent is that of the child it has chosen; and an exit that has been
    suspended ends no `sys_waitpid`. -/
def Prompt (s : State) : Op → Prop
  | .waitpid pid _ => pid = -1 → ∀ r i, s.running_task = some r → DeadChild s r i →
      ∃ j, DeadChild s r j ∧ ∀ k < j, ¬ Child s r k
  | .exitEnd => Unawaited s
  | op => ∀ x t g c, target s.running_task op = some x → s.task_bucket x = some t →
      s.task_bucket t.ppid = some g → g.state = .waiting → g.waitpid = -1 → g.child = some c → c = x

/-- What a `sys_waitpid` of the running task returned: a dead child that matches the request, with
    the status of its exit.  Only its slot and its place in a list are given up. -/
structure Reaped (s : State) (pid : ℤ) (c : Pid) (status : ℤ) (s' : State) : Prop where
  child : ∃ r u, s.running_task = some r ∧ s.task_bucket c = some u ∧ u.ppid = r ∧
    Matches pid c ∧ u.state = .died ∧ u.exited = some status
  slot : s'.task_bucket c = none
  others : ∀ q, q ≠ c → s'.task_bucket q = (s.task_bucket q).map fun t =>
    if s.running_task = some q then { t with child := none } else t
  lists : ∀ l, s'.lists l = (s.lists l).erase c
  running : s'.running_task = s.running_task

/-- What a step may do if it is a `sys_waitpid`. -/
def WaitpidOk (s : State) (op : Op) (s' : State) : Prop :=
  match op with
  | .waitpid pid (.reaped c status) => Reaped s pid c status s'
  | .waitpid pid .blocked =>
      pid = -1 → ∀ r, s.running_task = some r → ∀ i, ¬ DeadChild s r i
  | .resume c status => ∃ r t, s.running_task = some r ∧ s.task_bucket r = some t ∧
      Reaped s t.waitpid c status s'
  | _ => True

/-- What holds of the families in these runs. -/
structure FamInv (s : State) : Prop where
  sched : SchedInv s
  waits : WaitInv (kins s)
  told : Told (kins s)

section Reaping
variable {s s' : State} {p c : Pid} {t u : Tcb}

theorem firstChild_eq {K : Kins} {k : Kin} {pid : ℤ} {j : Pid} (hc : firstChild K k pid = some c)
    (hj : ∃ u, K j = some u ∧ u.ppid = k.pid ∧ Matches pid u.pid)
    (hlow : ∀ i < j, ∀ u, K i = some u → u.ppid ≠ k.pid) : c = j := by
  obtain ⟨u, hu, hup, -⟩ := firstChild_some hc
  have hle : j ≤ c := not_lt.1 fun hlt => hlow c hlt u hu hup
  obtain ⟨-, i, hi, rfl, hbefore⟩ := List.find?_eq_some_iff_getElem.1 hc
  rcases hle.eq_or_lt with rfl | hlt
  · rfl
  · obtain ⟨v, hv, hvp, hm⟩ := hj
    have hji : (j : ℕ) < i := by simpa [Fin.lt_def] using hlt
    have := hbefore j hji
    simp [hv, hvp, hm] at this

theorem wakesRight_of_prompt {op : Op} (h : Prompt s op) :
    WakesRight s.running_task (kins s) op := by
  intro x k g c hx hk hg hw hc
  obtain ⟨t, ht, rfl⟩ := Option.map_eq_some_iff.1 hk
  obtain ⟨g, hg', rfl⟩ := Option.map_eq_some_iff.1 hg
  have hst : g.state = .waiting := of_decide_eq_true hw
  cases op with
  | waitpid => cases hx
  | exitEnd =>
    have hno := h x t g hx ht hg' ⟨hst, by rw [show g.child = some c from hc]; rfl⟩
    exact ⟨fun hany => absurd (Or.inr hany) hno, fun _ => hno⟩
  | _ => exact ⟨fun hany => h x t g c hx ht hg' hst hany hc, by simp⟩

theorem FamInv.step {op : Op} (h : FamInv s) (hw : WakesRight s.running_task (kins s) op)
    (hs : Step s op s') : FamInv s' :=
  have hf := fstep_of_step h.sched hs
  ⟨h.sched.step hs, h.waits.step (.of_schedInv h.sched) hw hf, h.told.step hf⟩

/-- A new task keeps the families. -/
theorem FamInv.create {priority : ℕ} (h : FamInv s) (hs : taskCreate s priority = .ok s') :
    FamInv s' := by
  have hf := fstep_create h.sched hs
  exact ⟨h.sched.taskCreate hs, h.waits.step (.of_schedInv h.sched) (fun x _ _ _ hx => by cases hx) hf,
    h.told.step hf⟩

theorem famInv_init (h : taskInit = .ok s) : FamInv s := by
  obtain ⟨s₁, h₁, h⟩ := bind_eq_ok.1 h
  obtain ⟨s₂, h₂, h⟩ := bind_eq_ok.1 h
  have h₀ : FamInv _ := ⟨schedInv_blank, fun p k c hk => (by cases hk), fun p k hk => by cases hk⟩
  exact ((h₀.create h₁).create h₂).create h

theorem famInv_reach (h : (schedSys.restrict Prompt).Reach s) : FamInv s :=
  Sys.Reach.invariant (S := schedSys.restrict Prompt) (I := FamInv) (fun _ => famInv_init)
    (fun _ _ _ hi hs => hi.step (wakesRight_of_prompt hs.1) hs.2) h

/-- A freed child leaves its list. -/
theorem freeTask_lists {r : Pid × ℤ} (h : s.Linked) (hs : freeTask s c = .ok (s', r)) (l : ListId) :
    s'.lists l = (s.lists l).erase c := by
  obtain ⟨t, ht, hs⟩ := bind_eq_ok.1 hs
  obtain ⟨s₁, h₁, hs⟩ := bind_eq_ok.1 hs
  cases hs
  obtain ⟨t, m, ht, hm, rfl, -⟩ := removeNode_ok h₁
  show update s.lists m ((s.lists m).erase c) l = _
  by_cases hl : l = m
  · rw [hl, update_self]
  · rw [update_of_ne hl, List.erase_of_not_mem]
    rw [h.mem, State.listOf_of ht, hm]
    exact fun he => hl (Option.some.inj he).symm

/-- What is freed is dead and has told its status. -/
theorem FamInv.reaped {pid : ℤ} {r : Pid × ℤ} (h : FamInv s) (hp : s.running_task = some p)
    (ht : s.task_bucket p = some t) (hc : c ≠ p)
    (hu : s.task_bucket c = some u) (hup : u.ppid = p) (hm : Matches pid c) (hd : u.state = .died)
    (hs : freeTask (s.put p { t with child := none }) c = .ok (s', r)) :
    r = (c, u.status) ∧ Reaped s pid c u.status s' := by
  have m := moved_put (u := { t with child := none }) ht rfl
  have h₁ : SchedInv (s.put p { t with child := none }) :=
    h.sched.congr rfl rfl rfl (place_put ht rfl)
  have htold := h.told c u.kin (kins_eq hu) (decide_eq_true hd)
  obtain ⟨u', hu', -, rfl, hrest⟩ := freeTask_ok hs
  rw [m.of_ne hc, hu] at hu'
  cases hu'
  have hpid := h.sched.pid c u hu
  obtain ⟨hb, hr, -⟩ := hrest hpid
  refine ⟨by rw [hpid], ⟨p, u, hp, hu, hup, hm, hd, htold⟩, by rw [hb, update_self], fun q hq => ?_,
    fun l => freeTask_lists h₁.linked hs l, hr⟩
  rw [hb, update_of_ne hq, m.bucket]
  by_cases hqp : q = p
  · rw [hqp, update_self, ht, Option.map_some, if_pos hp]
  · rw [update_of_ne hqp]
    have hne : s.running_task ≠ some q := fun he => hqp (Option.some.inj (he.symm.trans hp))
    simp [hne]

theorem State.put_self (ht : s.task_bucket p = some t) : s.put p t = s := by
  unfold State.put
  rw [update_eq_self_iff.2 ht.symm]

/-- The first child that matches. -/
theorem findChild_some {pid : ℤ} (h : SchedInv s) (ht : s.task_bucket p = some t)
    (hc : findChild s t pid = some c) (hu : s.task_bucket c = some u) :
    u.ppid = p ∧ Matches pid c := by
  rw [findChild_eq] at hc
  obtain ⟨k, hk, hup, hm⟩ := firstChild_some hc
  rw [kins_eq hu] at hk
  cases hk
  rw [show u.kin.pid = c from h.pid c u hu] at hm
  exact ⟨hup.trans (h.pid p t ht), hm⟩

/-- **What `sys_waitpid` frees was dead.** -/
theorem waitpid_reaps {op : Op} (h : (schedSys.restrict Prompt).Reach s) (hp : Prompt s op)
    (hs : Step s op s') : WaitpidOk s op s' := by
  have hi := famInv_reach h
  cases hs with
  | @waitpid pid _ res hf hs =>
    obtain ⟨p, t, hrun, ht, hcase⟩ := hi.sched.sysWaitpid_cases hs
    obtain ⟨t', ht', halive, -⟩ := hi.sched.runs hrun
    rw [ht] at ht'
    cases ht'
    rcases hcase with ⟨-, -, rfl⟩ | ⟨c, u, hc, hu, ⟨hd, r, hfree, rfl⟩ | ⟨hd, rfl, -⟩⟩
    · trivial
    · obtain ⟨hup, hm⟩ := findChild_some hi.sched ht hc hu
      have hne : c ≠ p := by
        rintro rfl
        rw [ht] at hu
        cases hu
        exact halive hd
      have hself : s.put p { t with child := none } = s := by
        rw [← hf p t hrun ht]
        exact State.put_self ht
      rw [← hself] at hfree
      obtain ⟨rfl, hr⟩ := hi.reaped hrun ht hne hu hup hm hd hfree
      exact hr
    · -- the child that was found is not dead, so no child is
      rintro rfl r hr i hdead
      cases hrun.symm.trans hr
      obtain ⟨j, ⟨v, hv, hvp, hvd⟩, hlow⟩ := hp rfl p i hrun hdead
      refine hd ?_
      rw [findChild_eq] at hc
      obtain rfl : c = j := by
        have hpid : t.kin.pid = p := hi.sched.pid p t ht
        refine firstChild_eq hc ⟨v.kin, kins_eq hv, hvp.trans hpid.symm, Or.inr rfl⟩ ?_
        intro k hk w hw hwp
        obtain ⟨w, hw', rfl⟩ := Option.map_eq_some_iff.1 hw
        exact hlow k hk ⟨w, hw', hwp.trans hpid⟩
      rw [hu] at hv
      cases hv
      exact hvd
  | resume hs =>
    obtain ⟨p, t, c, hrun, ht, hc, hfree⟩ := resumeWait_ok hs
    obtain ⟨t', ht', halive, hwait⟩ := hi.sched.runs hrun
    rw [ht] at ht'
    cases ht'
    obtain ⟨k, hk, hup, hm, hd⟩ :=
      hi.waits p t.kin c (kins_eq ht) (decide_eq_false halive) hc
    obtain ⟨u, hu, rfl⟩ := Option.map_eq_some_iff.1 hk
    have hud : u.state = .died := of_decide_eq_true (hd (decide_eq_false hwait))
    have hne : c ≠ p := by
      rintro rfl
      rw [ht] at hu
      cases hu
      exact halive hud
    obtain ⟨he, hr⟩ := hi.reaped hrun ht hne hu hup hm hud hfree
    cases he
    exact ⟨p, t, hrun, ht, hr⟩
  | _ => trivial

end Reaping

section Runs
variable {s : State} {t : Tcb}

theorem not_died_of (h : SchedInv s) (hd : s.lists .died = []) {i : Pid} (hi : s.task_bucket i = some t) :
    t.state ≠ .died := by
  intro hst
  by_cases hr : s.running_task = some i
  · obtain ⟨t', ht', hne, -⟩ := h.runs hr
    rw [hi] at ht'
    cases ht'
    exact hne hst
  · obtain ⟨l, hl, hf⟩ := h.listed i t hi hr
    obtain rfl := hf.iff.2.2.1.1 hst
    have hmem : i ∈ s.lists .died := (h.linked.mem _ _).2 (by rw [State.listOf_of hi, hl])
    rw [hd] at hmem
    cases hmem

end Runs

/-- A parent waits for any child, and its only one exits. -/
theorem waitpid_reaps_one : ∃ s s', (schedSys.restrict Prompt).Reach s ∧
    Step s (.resume 3 5) s' ∧ WaitpidOk s (.resume 3 5) s' := by
  obtain ⟨s₀, s₁, s₂, s₃, s₄, s₅, s₆, s₇, s₈, h₀, h₁, h₂, h₃, h₄, h₅, h₆, h₇, h₈, f₀, f₁, f₂, f₃, f₄,
    f₅, f₆, hd, hx⟩ : ∃ s₀ s₁ s₂ s₃ s₄ s₅ s₆ s₇ s₈,
      taskInit = .ok s₀ ∧ schedule s₀ = .ok s₁ ∧ schedule s₁ = .ok s₂ ∧ sysFork s₂ = .ok s₃ ∧
      sysWaitpid s₃ (-1) = .ok (s₄, .blocked) ∧ kernelThreadExit s₄ (some 3) 5 = .ok s₅ ∧
      schedule s₅ = .ok s₆ ∧ schedule s₆ = .ok s₇ ∧ resumeWait s₇ = .ok (s₈, 3, 5) ∧
      Free s₀ ∧ Free s₁ ∧ Free s₂ ∧ Free s₃ ∧ Free s₄ ∧ Free s₅ ∧ Free s₆ ∧
      s₃.lists .died = [] ∧ Prompt s₄ (.threadExit (some 3) 5) := by
    refine ⟨_, _, _, _, _, _, _, _, _, rfl, rfl, rfl, rfl, rfl, rfl, rfl, rfl, rfl, ?_,
      free_of rfl rfl rfl, free_of rfl rfl rfl, free_of rfl rfl rfl, free_of rfl rfl rfl,
      free_of rfl rfl rfl, free_of rfl rfl rfl, rfl, ?_⟩
    · intro r t hr
      cases hr
    · intro x t g c hx ht hg _ _ hc
      cases hx
      cases ht
      cases hg
      cases hc
      rfl
  have hquiet {s : State} : Prompt s .schedule := fun x _ _ _ hx => by cases hx
  have hfork {s : State} : Prompt s .fork := fun x _ _ _ hx => by cases hx
  have hreach : (schedSys.restrict Prompt).Reach s₃ :=
    .step (a := .fork) (.step (a := .schedule) (.step (a := .schedule) (.init h₀)
      ⟨hquiet, .schedule f₀ h₁⟩) ⟨hquiet, .schedule f₁ h₂⟩) ⟨hfork, .fork f₂ h₃⟩
  have hwait : Prompt s₃ (.waitpid (-1) .blocked) := by
    rintro - r i - ⟨u, hu, -, hst⟩
    exact absurd hst (not_died_of (famInv_reach hreach).sched hd hu)
  have hreach : (schedSys.restrict Prompt).Reach s₇ :=
    .step (a := .schedule) (.step (a := .schedule) (.step (a := .threadExit (some 3) 5)
      (.step (a := .waitpid (-1) .blocked) hreach ⟨hwait, .waitpid f₃.idle h₄⟩)
      ⟨hx, .threadExit f₄ h₅⟩) ⟨hquiet, .schedule f₅ h₆⟩) ⟨hquiet, .schedule f₆ h₇⟩
  exact ⟨s₇, s₈, hreach, .resume h₈,
    waitpid_reaps hreach (fun x _ _ _ hx => by cases hx) (.resume h₈)⟩

/-- A parent waits for any child and has chosen task 3; task 4 exits, and task 3 is freed alive. -/
theorem waitpid_frees_live : ∃ s s' t status, schedSys.Reach s ∧ Step s (.resume 3 status) s' ∧
    s.task_bucket 3 = some t ∧ t.state = .ready ∧ s'.task_bucket 3 = none ∧
    ¬ WaitpidOk s (.resume 3 status) s' := by
  obtain ⟨s₀, s₁, s₂, s₃, s₄, s₅, s₆, s₇, s₈, s₉, s, t, status, h₀, h₁, h₂, h₃, h₄, h₅, h₆, h₇, h₈, h₉,
    h, f₀, f₁, f₂, f₃, f₄, f₅, f₆, f₇, f₈, ht, hst, hnone⟩ :
      ∃ s₀ s₁ s₂ s₃ s₄ s₅ s₆ s₇ s₈ s₉ s, ∃ (t : Tcb) (status : ℤ),
      taskInit = .ok s₀ ∧ schedule s₀ = .ok s₁ ∧ schedule s₁ = .ok s₂ ∧ sysFork s₂ = .ok s₃ ∧
      sysFork s₃ = .ok s₄ ∧ sysWaitpid s₄ (-1) = .ok (s₅, .blocked) ∧
      kernelThreadExit s₅ (some 4) 7 = .ok s₆ ∧ schedule s₆ = .ok s₇ ∧ schedule s₇ = .ok s₈ ∧
      schedule s₈ = .ok s₉ ∧ resumeWait s₉ = .ok (s, 3, status) ∧
      Free s₀ ∧ Free s₁ ∧ Free s₂ ∧ Free s₃ ∧ Free s₄ ∧ Free s₅ ∧ Free s₆ ∧ Free s₇ ∧ Free s₈ ∧
      s₉.task_bucket 3 = some t ∧ t.state = .ready ∧ s.task_bucket 3 = none := by
    refine ⟨_, _, _, _, _, _, _, _, _, _, _, _, _, rfl, rfl, rfl, rfl, rfl, rfl, rfl, rfl, rfl, rfl,
      rfl, ?_, free_of rfl rfl rfl, free_of rfl rfl rfl, free_of rfl rfl rfl, free_of rfl rfl rfl,
      free_of rfl rfl rfl, free_of rfl rfl rfl, free_of rfl rfl rfl, free_of rfl rfl rfl, rfl, rfl,
      rfl⟩
    intro r t hr
    cases hr
  have hreach : schedSys.Reach s₄ :=
    .step (a := .fork) (.step (a := .fork) (.step (a := .schedule) (.step (a := .schedule) (.init h₀)
      (.schedule f₀ h₁)) (.schedule f₁ h₂)) (.fork f₂ h₃)) (.fork f₃ h₄)
  have hreach : schedSys.Reach s₇ :=
    .step (a := .schedule) (.step (a := .threadExit (some 4) 7)
      (.step (a := .waitpid (-1) .blocked) hreach (.waitpid f₄.idle h₅)) (.threadExit f₅ h₆))
      (.schedule f₆ h₇)
  have hreach : schedSys.Reach s₉ :=
    .step (a := .schedule) (.step (a := .schedule) hreach (.schedule f₇ h₈)) (.schedule f₈ h₉)
  refine ⟨s₉, s, t, status, hreach, .resume h, ht, hst, hnone, ?_⟩
  rintro ⟨r, t', -, -, hreap⟩
  obtain ⟨-, u, -, hu, -, -, hdied, -⟩ := hreap.child
  rw [ht] at hu
  cases hu
  rw [hst] at hdied
  cases hdied

end Rdix.Sched
