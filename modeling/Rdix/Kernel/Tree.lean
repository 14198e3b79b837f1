/-
  The tree of tasks (kernel/task.c): every task has a living parent.

  The runs are those in which a task exits once, the first task never, and nobody waits for any
  child.  In them a task whose `sys_exit` has been suspended lives on when that ends; if its parent
  is woken by it, the parent frees a living task.

  * `TreeInv`: the tree, and what those who wait have asked for;
  * `rooted_step`: what one step does to the tree;
  * `tree_well_formed`: slots, parents, the look-ups of the exits, and what is freed, where no
    parent is woken so.
-/
import Rdix.Kernel.Waitpid
import Rdix.Lib.Adoption

namespace Rdix.Sched

open Function Transition Adoption

/-! ## The tree -/

def parentOf (K : Kins) (i : Pid) : Option Pid := (K i).map Kin.ppid

def Alive (K : Kins) (i : Pid) : Prop := ∃ k, K i = some k ∧ k.dead = false

/-- A task exits once, the first task does not exit, and a wait is for one task. -/
def Orderly (s : State) : Op → Prop
  | .waitpid pid _ => pid ≠ -1
  | op => ∀ x, target s.running_task op = some x →
      x ≠ 0 ∧ ∀ t, s.task_bucket x = some t → t.state ≠ .died

/-- A `sys_exit` that has been suspended wakes nobody from a `sys_waitpid`. -/
def Settled (s : State) : Op → Prop
  | .exitEnd => Unawaited s
  | _ => True

/-- The runs with a well-formed tree. -/
def TreeOp (s : State) (op : Op) : Prop := Orderly s op ∧ Settled s op

/-- Those who wait have asked for one task. -/
def Asked (K : Kins) : Prop := ∀ p k c, K p = some k → k.child = some c → k.waitpid ≠ -1

structure TreeInv (s : State) : Prop where
  sched : SchedInv s
  waits : WaitInv (kins s)
  tree : Rooted (parentOf (kins s)) (Alive (kins s)) 0
  asked : Asked (kins s)

section Tree
variable {K K' : Kins} {r : Option Pid} {op : Op} {p c : Pid} {k : Kin}

theorem parentOf_update (q : Pid) : parentOf (update K p (some k)) q =
    update (parentOf K) p (some k.ppid) q := by
  unfold parentOf
  by_cases hq : q = p
  · rw [hq, update_self, update_self]
    rfl
  · rw [update_of_ne hq, update_of_ne hq]

theorem alive_update (q : Pid) :
    Alive (update K p (some k)) q ↔ if q = p then k.dead = false else Alive K q := by
  unfold Alive
  by_cases hq : q = p
  · simp [hq]
  · simp [hq]

/-- A task changes, but for its parent and its death. -/
theorem rooted_put {g : Kin} (h : Rooted (parentOf K) (Alive K) 0) (hk : K p = some k)
    (hpp : g.ppid = k.ppid) (hd : g.dead = k.dead) :
    Rooted (parentOf (update K p (some g))) (Alive (update K p (some g))) 0 := by
  refine h.congr (fun q => ?_) fun q => ?_
  · rw [parentOf_update]
    by_cases hq : q = p
    · rw [hq, update_self, parentOf, hk, hpp]
      rfl
    · rw [update_of_ne hq]
  · rw [alive_update]
    by_cases hq : q = p
    · rw [if_pos hq, hq, Alive, hk, hd]
      simp
    · rw [if_neg hq]

theorem rooted_born (h : Rooted (parentOf K) (Alive K) 0) (hp : K p = none)
    (hd : k.dead = false) (ha : Alive K k.ppid) :
    Rooted (parentOf (update K p (some k))) (Alive (update K p (some k))) 0 := by
  have hnone : parentOf K p = none := by
    rw [parentOf, hp]
    rfl
  refine (h.leaf hnone ha).congr parentOf_update fun q => ?_
  rw [alive_update]
  by_cases hq : q = p
  · simp [hq, hd]
  · simp [hq]

theorem rooted_clear (h : Rooted (parentOf K) (Alive K) 0) (hc : ¬ Alive K c) :
    Rooted (parentOf (update K c none)) (Alive (update K c none)) 0 := by
  refine (h.remove hc).congr (fun q => ?_) fun q => ?_
  · unfold parentOf
    by_cases hq : q = c
    · rw [hq, update_self, update_self]
      rfl
    · rw [update_of_ne hq, update_of_ne hq]
  · by_cases hq : q = c
    · subst hq
      simpa [Alive] using hc
    · simp [Alive, update_of_ne hq]

/-- Of the others an exit changes the parent, and ends a wait. -/
theorem afterExit_map {x q : Pid} {status : ℤ} {β : Type} {f : Kin → β} (hq : q ≠ x)
    (hf : ∀ u, f { u with waiting := false } = f u) :
    (afterExit K x k status q).map f = (K q).map fun u => f (k.adopt u) := by
  rw [afterExit_of_ne hq, Option.map_map]
  congr 1
  funext u
  rw [Function.comp]
  split_ifs
  · exact hf _
  · rfl

theorem adopt_dead (x u : Kin) : (x.adopt u).dead = u.dead := by
  unfold Kin.adopt
  split_ifs <;> rfl

/-- The parents after `x` has exited. -/
theorem parentOf_left {x : Pid} {status : ℤ} (h : Rooted (parentOf K) (Alive K) 0) (hpid : OwnPid K)
    (hx : K x = some k) (hne : x ≠ 0) (hat : parentOf K' x = some k.ppid)
    (hothers : ∀ q, q ≠ x → K' q = afterExit K x k status q) (q : Pid) :
    parentOf K' q = if parentOf K q = some x then parentOf K x else parentOf K q := by
  have hpx : parentOf K x = some k.ppid := by
    rw [parentOf, hx]
    rfl
  by_cases hq : q = x
  · have hself : parentOf K x ≠ some x := fun he => h.parent_ne he hne rfl
    rw [hq, if_neg hself, hpx, hat]
  · rw [parentOf, hothers q hq, afterExit_map hq fun _ => rfl, hpx, parentOf]
    cases K q with
    | none => rfl
    | some u =>
      rw [Option.map_some, Option.map_some, adopt_ppid, hpid x k hx]
      by_cases hu : u.ppid = x <;> simp [hu]

/-- The others live on. -/
theorem alive_left {x q : Pid} {status : ℤ} (hq : q ≠ x) (hs : K' q = afterExit K x k status q) :
    Alive K' q ↔ Alive K q := by
  have hdead : (K' q).map Kin.dead = (K q).map fun u => (k.adopt u).dead := by
    rw [hs]
    exact afterExit_map hq fun _ => rfl
  simp only [adopt_dead] at hdead
  unfold Alive
  rw [← Option.map_eq_some_iff, ← Option.map_eq_some_iff, hdead]

theorem rooted_exit {x : Pid} {status : ℤ} (h : Rooted (parentOf K) (Alive K) 0)
    (hpid : OwnPid K) (hx : K x = some k) (hne : x ≠ 0) :
    Rooted (parentOf (afterExit K x k status)) (Alive (afterExit K x k status)) 0 := by
  have hat : parentOf (afterExit K x k status) x = some k.ppid := by
    rw [parentOf, afterExit, if_pos rfl]
    rfl
  refine (h.die hne).congr (parentOf_left h hpid hx hne hat fun _ _ => rfl) fun q => ?_
  by_cases hq : q = x
  · simp [hq, Alive, afterExit]
  · rw [alive_left hq rfl]
    simp [hq]

/-- A suspended `sys_exit` ends: only the children leave the task. -/
theorem rooted_finish {x : Pid} (h : Rooted (parentOf K) (Alive K) 0) (hpid : OwnPid K)
    (hx : K x = some k) (hne : x ≠ 0) :
    Rooted (parentOf (afterEnd K x k)) (Alive (afterEnd K x k)) 0 := by
  have hself : afterEnd K x k x = some k := if_pos rfl
  have hat : parentOf (afterEnd K x k) x = some k.ppid := by
    rw [parentOf, hself]
    rfl
  refine (h.leave hne).congr (parentOf_left h hpid hx hne hat fun q hq => if_neg hq) fun q => ?_
  by_cases hq : q = x
  · rw [hq, Alive, hself, Alive, hx]
  · exact alive_left hq (if_neg hq)

/-- **What one step does to the tree.** -/
theorem rooted_step (h : Rooted (parentOf K) (Alive K) 0) (hw : WaitInv K) (hpid : OwnPid K)
    (hx : ∀ x, target r op = some x → x ≠ 0) (hs : FStep r K op K') :
    Rooted (parentOf K') (Alive K') 0 := by
  cases hs with
  | quiet => exact h
  | turn _ _ _ hk hd _ => exact rooted_put h hk rfl rfl
  | @born _ p k _ _ _ hp _ hd _ hparent =>
    refine rooted_born h hp hd ?_
    rcases hparent with ⟨-, hzero⟩ | ⟨g, -, hg, hgd⟩
    · rw [hzero]
      exact h.root_alive
    · exact ⟨g, hg, hgd⟩
  | exit _ ht hk _ => exact rooted_exit h hpid hk (hx _ ht)
  | suspend _ hk _ _ => exact rooted_put h hk rfl rfl
  | @suspendWait _ _ p c k u _ hk hd _ hc _ hpp hud _ =>
    have hcp : p ≠ c := by
      rintro rfl
      cases hk.symm.trans hc
    have hborn := rooted_born h hc hud (hpp ▸ ⟨k, hk, hd⟩)
    exact rooted_put hborn ((update_of_ne hcp ..).trans hk) rfl rfl
  | finish hp hk _ _ _ _ => exact rooted_finish h hpid hk (hx _ hp)
  | wait _ hk _ _ _ _ _ => exact rooted_put h hk rfl rfl
  | @reap p c k u _ _ _ _ _ _ hu hd =>
    refine rooted_clear h ?_
    rintro ⟨v, hv, hvd⟩
    rw [hu] at hv
    cases hv
    rw [hd] at hvd
    cases hvd
  | @resume p c k u _ hk hd hwait hc hu hne =>
    refine rooted_clear (rooted_put (g := { k with child := none }) h hk rfl rfl) ?_
    rw [alive_update, if_neg hne]
    rintro ⟨v, hv, hvd⟩
    obtain ⟨v', hv', -, -, hdead⟩ := hw p k c hk hd hc
    rw [hv] at hv'
    cases hv'
    rw [hdead hwait] at hvd
    cases hvd

theorem asked_put (h : Asked K) (hk : k.child ≠ none → k.waitpid ≠ -1) :
    Asked (update K p (some k)) := by
  intro q g c hq hgc
  by_cases hqp : q = p
  · rw [hqp, update_self] at hq
    cases hq
    exact hk (by rw [hgc]; simp)
  · rw [update_of_ne hqp] at hq
    exact h q g c hq hgc

theorem asked_clear (h : Asked K) : Asked (update K p none) := by
  intro q g c hq hgc
  by_cases hqp : q = p
  · rw [hqp, update_self] at hq
    cases hq
  · rw [update_of_ne hqp] at hq
    exact h q g c hq hgc

theorem asked_step (h : Asked K) (hwait : ∀ pid res, op = .waitpid pid res → pid ≠ -1)
    (hs : FStep r K op K') : Asked K' := by
  cases hs with
  | quiet => exact h
  | turn _ _ _ hk _ hc => exact asked_put h fun hne => absurd hc hne
  | born _ _ _ _ _ _ hc _ => exact asked_put h fun hne => absurd hc hne
  | @exit _ x k status _ _ hk _ =>
    intro q g c hq hgc
    by_cases hqx : q = x
    · rw [hqx, afterExit, if_pos rfl] at hq
      cases hq
      exact h x k c hk hgc
    · obtain ⟨u, hu, hg, -⟩ := afterExit_some hqx hq
      rw [hg] at hgc ⊢
      exact h q u c hu hgc
  | suspend _ _ _ hc => exact asked_put h fun hne => absurd hc hne
  | @suspendWait _ _ p c k u _ _ _ _ _ _ _ _ hnone =>
    refine asked_put (asked_put h fun hne => absurd hnone hne) fun _ => ?_
    show ((c : ℕ) : ℤ) ≠ -1
    omega
  | @finish x k _ _ _ _ hnone =>
    intro q g c hq hgc
    by_cases hqx : q = x
    · rw [hqx, afterEnd, if_pos rfl] at hq
      cases hq
      cases hnone.symm.trans hgc
    · rw [afterEnd, if_neg hqx] at hq
      obtain ⟨u, hu, hg, -⟩ := afterExit_some hqx hq
      rw [hg] at hgc ⊢
      exact h q u c hu hgc
  | wait _ hk _ _ _ _ _ => exact asked_put h fun _ => hwait _ _ rfl
  | reap => exact asked_clear h
  | @resume p c k _ _ hk => exact asked_clear (asked_put (k := { k with child := none }) h (by simp))

/-- Only a dead task is freed. -/
theorem fstep_freed (hw : WaitInv K) (hs : FStep r K op K') {i : Pid} (hi : K i = some k)
    (hi' : K' i = none) : k.dead = true := by
  have hput {p : Pid} {g : Kin} (h : update K p (some g) i = none) : False := by
    by_cases hip : i = p
    · rw [hip, update_self] at h
      cases h
    · rw [update_of_ne hip, hi] at h
      cases h
  cases hs with
  | quiet =>
    rw [hi] at hi'
    cases hi'
  | turn => exact (hput hi').elim
  | born => exact (hput hi').elim
  | wait => exact (hput hi').elim
  | suspend => exact (hput hi').elim
  | @suspendWait _ _ p c g u =>
    by_cases hip : i = p
    · rw [hip, update_self] at hi'
      cases hi'
    · rw [update_of_ne hip] at hi'
      exact (hput hi').elim
  | @exit _ x g status =>
    by_cases hix : i = x
    · rw [hix, afterExit, if_pos rfl] at hi'
      cases hi'
    · rw [afterExit_of_ne hix, hi] at hi'
      cases hi'
  | @finish x g =>
    by_cases hix : i = x
    · rw [hix, afterEnd, if_pos rfl] at hi'
      cases hi'
    · rw [afterEnd, if_neg hix, afterExit_of_ne hix, hi] at hi'
      cases hi'
  | @reap p c g u _ _ _ _ _ _ hu hd =>
    by_cases hic : i = c
    · rw [hic, hu] at hi
      cases hi
      exact hd
    · rw [update_of_ne hic, hi] at hi'
      cases hi'
  | @resume p c g u _ hg hgd hwait hc hu hne =>
    by_cases hic : i = c
    · obtain ⟨v, hv, -, -, hd⟩ := hw p g c hg hgd hc
      rw [hic, hv] at hi
      cases hi
      exact hd hwait
    · rw [update_of_ne hic] at hi'
      exact (hput hi').elim

end Tree

/-! ## Runs -/

section Runs
variable {s s' : State} {op : Op}

theorem orderly_target (h : Orderly s op) {x : Pid} (hx : target s.running_task op = some x) :
    x ≠ 0 ∧ ∀ t, s.task_bucket x = some t → t.state ≠ .died := by
  cases op with
  | waitpid => cases hx
  | _ => exact h x hx

theorem TreeInv.step (h : TreeInv s) (ho : TreeOp s op) (hs : Step s op s') : TreeInv s' := by
  have hf := fstep_of_step h.sched hs
  have hpid := OwnPid.of_schedInv h.sched
  refine ⟨h.sched.step hs, h.waits.step hpid (fun x k g c hx hk hg hw hc => ⟨?_, ?_⟩) hf,
    rooted_step h.tree h.waits hpid (fun x hx => (orderly_target ho.1 hx).1) hf,
    asked_step h.asked (fun pid res he => ?_) hf⟩
  · exact fun hany => absurd hany (h.asked _ g c hg hc)
  · rintro rfl
    obtain ⟨t, ht, rfl⟩ := Option.map_eq_some_iff.1 hk
    obtain ⟨g, hg', rfl⟩ := Option.map_eq_some_iff.1 hg
    exact ho.2 x t g hx ht hg' ⟨of_decide_eq_true hw, by rw [show g.child = some c from hc]; rfl⟩
  · subst he
    exact ho.1

theorem TreeInv.create {priority : ℕ} (h : TreeInv s) (hs : taskCreate s priority = .ok s') :
    TreeInv s' := by
  have hf := fstep_create h.sched hs
  have hpid := OwnPid.of_schedInv h.sched
  exact ⟨h.sched.taskCreate hs, h.waits.step hpid (fun _ _ _ _ hx => by cases hx) hf,
    rooted_step h.tree h.waits hpid (fun _ hx => by cases hx) hf,
    asked_step h.asked (fun _ _ he => by cases he) hf⟩

/-- The first task is the root. -/
theorem treeInv_first {priority : ℕ}
    (h : taskCreate { task_bucket := fun _ => none, lists := fun _ => [], running_task := none
                      jiffies := 0, dispatches := 0 } priority = .ok s) : TreeInv s := by
  obtain ⟨p, -, m⟩ := taskCreate_ok h
  have hsched := schedInv_blank.taskCreate h
  obtain rfl : p = 0 := by
    by_contra hne
    have hnone : s.task_bucket 0 = none := by rw [m.bucket, update_of_ne (Ne.symm hne)]
    cases h
    cases hnone
  have hk : kins s = update (fun _ => none) 0 (some _) := m.kins
  have hone {q : Pid} {k : Kin} (hq : kins s q = some k) : k.child = none := by
    rw [hk] at hq
    by_cases hq₀ : q = 0
    · rw [hq₀, update_self] at hq
      cases hq
      rfl
    · rw [update_of_ne hq₀] at hq
      cases hq
  refine ⟨hsched, fun q k c hq _ hc => ?_, (Rooted.single 0).congr (fun q => ?_) fun q => ?_,
    fun q k c hq hc => ?_⟩
  · cases (hone hq).symm.trans hc
  · rw [hk, parentOf_update]
    rfl
  · rw [hk, alive_update]
    by_cases hq : q = 0
    · simp [hq, Tcb.kin]
    · simp [hq, Alive]
  · cases (hone hq).symm.trans hc

theorem treeInv_init (h : taskInit = .ok s) : TreeInv s := by
  obtain ⟨s₁, h₁, h⟩ := bind_eq_ok.1 h
  obtain ⟨s₂, h₂, h⟩ := bind_eq_ok.1 h
  exact ((treeInv_first h₁).create h₂).create h

theorem treeInv_reach (h : (schedSys.restrict TreeOp).Reach s) : TreeInv s :=
  Sys.Reach.invariant (S := schedSys.restrict TreeOp) (I := TreeInv) (fun _ => treeInv_init)
    (fun _ _ _ hi hs => hi.step hs.1 hs.2) h

/-! ## The look-up of the parent -/

/-- The access of `sys_exit` and `kernel_thread_exit` to the parent. -/
abbrev parentAccess : Halt := .null "task_bucket[task->ppid]"

theorem NodeError.ne_access {e : Halt} (h : NodeError e) : e ≠ parentAccess := by
  rcases h with rfl | rfl | rfl <;> simp

theorem schedule_access : schedule s ≠ .error parentAccess := by
  intro h
  rcases schedule_error h with h | h | ⟨_, _, -, -, -, h⟩
  · simp at h
  · exact h.ne_access rfl
  · simp at h

theorem unblock_error {p : Pid} {e : Halt} (h : unblock s p = .error e) : NodeError e := by
  rcases bind_eq_error.1 h with h | ⟨s₁, -, h⟩
  · exact removeNode_error h
  · rcases bind_eq_error.1 h with h | ⟨s₂, -, h⟩
    · exact listPush_error h
    · rcases bind_eq_error.1 h with h | ⟨t, -, h⟩
      · exact owner_error h
      · cases h

theorem wakeParent_access {t : Tcb} (h : (s.task_bucket t.ppid).isSome) :
    wakeParent s t ≠ .error parentAccess := by
  intro he
  obtain ⟨g, hg⟩ := Option.isSome_iff_exists.1 h
  unfold wakeParent at he
  rw [hg, deref_some, ok_bind] at he
  split_ifs at he
  · exact (unblock_error he).ne_access rfl
  · cases he

theorem reparent_isSome {t : Tcb} (p : Pid) :
    ((reparent s t).task_bucket p).isSome = (s.task_bucket p).isSome := by
  unfold reparent
  rw [Option.isSome_map]

theorem put_isSome {p q : Pid} {t : Tcb} (h : (s.task_bucket q).isSome) :
    ((s.put p t).task_bucket q).isSome := by
  unfold State.put
  by_cases hq : q = p
  · simp [hq]
  · simpa [update_of_ne hq] using h

theorem Moved.isSome {p q : Pid} {t : Tcb} (m : Moved s s' p t) (h : (s.task_bucket q).isSome) :
    (s'.task_bucket q).isSome := by
  rw [m.bucket]
  exact put_isSome h

theorem kept_error {access : String} {t : Tcb} {e : Halt} (h : kept access t = .error e) :
    e = .null access := by
  unfold kept at h
  split_ifs at h
  · cases h
  · cases h
    rfl

theorem running_access {r : Option Pid} : deref "running_task" r ≠ .error parentAccess := by
  cases r with
  | none => simp
  | some r => exact nofun

/-- The parent of the running task is found when its exit goes on. -/
theorem exitRest_access (h : ∀ r t, s.running_task = some r → s.task_bucket r = some t →
    (s.task_bucket t.ppid).isSome) : exitRest s ≠ .error parentAccess := by
  intro he
  rcases bind_eq_error.1 he with he | ⟨r, hr, he⟩
  · exact running_access he
  · rcases bind_eq_error.1 he with he | ⟨t, ht, he⟩
    · exact (owner_error he).ne_access rfl
    · rw [owner_eq_ok] at ht
      rcases bind_eq_error.1 he with he | ⟨s₂, -, he⟩
      · refine wakeParent_access ?_ he
        rw [reparent_isSome]
        exact put_isSome (h r t (deref_eq_ok.1 hr) ht)
      · exact schedule_access he

/-- The parent of the running task is found when it exits. -/
theorem sysExit_access {status : ℤ}
    (h : ∀ p t, s.task_bucket p = some t → (s.task_bucket t.ppid).isSome) :
    sysExit s status ≠ .error parentAccess := by
  intro he
  rcases bind_eq_error.1 he with he | ⟨s₁, h₁, he⟩
  · rcases bind_eq_error.1 he with he | ⟨r, -, he⟩
    · exact running_access he
    · rcases bind_eq_error.1 he with he | ⟨s₁, -, he⟩
      · exact (listPush_error he).ne_access rfl
      · rcases bind_eq_error.1 he with he | ⟨t, -, he⟩
        · exact (owner_error he).ne_access rfl
        · rcases bind_eq_error.1 he with he | ⟨-, -, he⟩
          · exact absurd (kept_error he) (by simp)
          · cases he
  · obtain ⟨r, t, hr, ht, -, m⟩ := exitBegin_ok h₁
    refine exitRest_access (fun q u hq hu => ?_) he
    obtain rfl : r = q := Option.some.inj ((m.running.trans hr).symm.trans hq)
    rw [m.at] at hu
    cases hu
    exact m.isSome (h r t ht)

/-- The parent of a thread is found when it is ended. -/
theorem kernelThreadExit_access {th : Option Pid} {status : ℕ}
    (h : ∀ p t, s.task_bucket p = some t → (s.task_bucket t.ppid).isSome) :
    kernelThreadExit s th status ≠ .error parentAccess := by
  intro he
  rcases bind_eq_error.1 he with he | ⟨p, hp, he⟩
  · cases hb : th <|> s.running_task with
    | none =>
      rw [hb, deref_none] at he
      simp at he
    | some r =>
      rw [hb] at he
      cases he
  · rcases bind_eq_error.1 he with he | ⟨t, ht, he⟩
    · exact (owner_error he).ne_access rfl
    · rw [owner_eq_ok] at ht
      have hrest (s₁ : State) (h₁ : (s₁.task_bucket t.ppid).isSome) :
          (do let s ← listPush s₁ .died p
              let t₁ ← owner s p
              let s ← wakeParent (s.put p { t₁ with state := .died }) t
              if s.running_task = some p then schedule s else return s) ≠ .error parentAccess := by
        intro he
        rcases bind_eq_error.1 he with he | ⟨s₂, h₂, he⟩
        · exact (listPush_error he).ne_access rfl
        · obtain ⟨t₂, ht₂, -, -, m⟩ := listPush_ok h₂
          rcases bind_eq_error.1 he with he | ⟨t₃, -, he⟩
          · exact (owner_error he).ne_access rfl
          · rcases bind_eq_error.1 he with he | ⟨s₃, -, he⟩
            · exact wakeParent_access (put_isSome (m.isSome h₁)) he
            · split_ifs at he
              · exact schedule_access he
              · cases he
      have hpar : ((reparent (s.put p { t with status := i32 status, exited := some (i32 status) })
          t).task_bucket t.ppid).isSome := by
        rw [reparent_isSome]
        exact put_isSome (h p t ht)
      dsimp only at he
      split_ifs at he
      · exact hrest _ hpar he
      · rcases bind_eq_error.1 he with he | ⟨s₁, h₁, he⟩
        · exact (removeNode_error he).ne_access rfl
        · obtain ⟨_, _, _, _, _, m⟩ := removeNode_ok h₁
          exact hrest s₁ (m.isSome hpar) he

/-- Every task has a living parent. -/
theorem TreeInv.parent {i : Pid} {t : Tcb} (h : TreeInv s) (ht : s.task_bucket i = some t) :
    ∃ p, s.task_bucket t.ppid = some p ∧ p.state ≠ .died := by
  have hp : parentOf (kins s) i = some t.ppid := by
    rw [parentOf, kins_eq ht]
    rfl
  obtain ⟨k, hk, hd⟩ := h.tree.parent_alive i t.ppid hp
  obtain ⟨p, hp, rfl⟩ := Option.map_eq_some_iff.1 hk
  exact ⟨p, hp, of_decide_eq_false hd⟩

/-- **The tree is well formed** where a suspended `sys_exit` wakes nobody: each slot holds its own
    task, whose parent is alive; the exits find the parent; and only dead tasks are freed. -/
theorem tree_well_formed (h : (schedSys.restrict TreeOp).Reach s) :
    (∀ i t, s.task_bucket i = some t →
      t.pid = i ∧ ∃ p, s.task_bucket t.ppid = some p ∧ p.state ≠ .died) ∧
    (∀ status, sysExit s status ≠ .error parentAccess) ∧
    exitRest s ≠ .error parentAccess ∧
    (∀ th status, kernelThreadExit s th status ≠ .error parentAccess) ∧
    ∀ op s' i t, Step s op s' → s.task_bucket i = some t → s'.task_bucket i = none →
      t.state = .died := by
  have hi := treeInv_reach h
  have hpar : ∀ p t, s.task_bucket p = some t → (s.task_bucket t.ppid).isSome := fun p t ht => by
    obtain ⟨g, hg, -⟩ := hi.parent ht
    rw [hg]
    rfl
  refine ⟨fun i t ht => ⟨hi.sched.pid i t ht, hi.parent ht⟩, fun _ => sysExit_access hpar,
    exitRest_access fun r t _ => hpar r t, fun _ _ => kernelThreadExit_access hpar, fun op s' i t hs ht hnone => ?_⟩
  have hfreed : kins s' i = none := by
    rw [kins, hnone]
    rfl
  exact of_decide_eq_true (fstep_freed hi.waits (fstep_of_step hi.sched hs) (kins_eq ht) hfreed)

end Runs

section Suspended
variable {s : State} {p : Pid} {t : Tcb}

theorem plain_of (h : (s.task_bucket p).any fun t => t.state ≠ .died ∧ t.child = none) :
    Plain s p := by
  intro t ht
  rw [ht] at h
  exact of_decide_eq_true h

/-- The running task, in a `sys_exit` that goes on. -/
theorem exiting_of (hr : s.running_task = some p) (ht : s.task_bucket p = some t)
    (hc : t.child = none ∧ t.exiting = true) : Idle s ∧ Exiting s := by
  refine ⟨fun q u hq hu => ?_, p, t, hr, ht, hc.2⟩
  cases hr.symm.trans hq
  cases ht.symm.trans hu
  exact hc.1

theorem orderly_end (hr : s.running_task = some p) (ht : s.task_bucket p = some t) (hp : p ≠ 0)
    (hst : t.state = .running) : Orderly s .exitEnd := by
  intro y hy
  cases hr.symm.trans hy
  refine ⟨hp, fun u hu => ?_⟩
  cases ht.symm.trans hu
  simp [hst]

end Suspended

/-- A task forks, and its exit is suspended; when it ends, the child has come to the first task. -/
theorem tree_well_formed_orphan : ∃ s t g, (schedSys.restrict TreeOp).Reach s ∧
    s.task_bucket 3 = some t ∧ t.ppid = 0 ∧ s.task_bucket 1 = some g ∧ g.exited = some 0 ∧
    g.state = .ready ∧ ∃ p, s.task_bucket t.ppid = some p ∧ p.state ≠ .died := by
  obtain ⟨⟨⟩, hrun⟩ := ok_of_isOk (show Except.isOk (do
    let s₀ ← taskInit
    let s₁ ← schedule s₀
    let s₂ ← schedule s₁
    let s₃ ← sysFork s₂
    let s₄ ← exitBlock s₃ 0 (some (.other 0)) .blocked
    let s₅ ← unblock s₄ 1
    let s₆ ← schedule s₅
    let s₇ ← schedule s₆
    let s₈ ← schedule s₇
    let s₉ ← exitRest s₈
    let x ← owner s₈ 1
    let y ← owner s₈ 0
    let t ← owner s₉ 3
    let g ← owner s₉ 1
    cassert (Free s₀ ∧ Free s₁ ∧ Free s₂ ∧ Free s₃ ∧ Free s₄ ∧ Free s₅ ∧ Free s₆ ∧ Free s₇) "Free"
    cassert ((s₄.task_bucket 1).any fun t => t.state ≠ .died ∧ t.child = none) "Plain"
    cassert (s₈.running_task = some 1 ∧ x.state = .running ∧ (x.child = none ∧ x.exiting = true) ∧
      x.ppid = 0 ∧ y.state = .ready) "running_task"
    cassert (t.ppid = 0 ∧ g.exited = some 0 ∧ g.state = .ready) "run"
    return ()) = true by decide +kernel)
  obtain ⟨s₀, h₀, hrun⟩ := bind_eq_ok.1 hrun
  obtain ⟨s₁, h₁, hrun⟩ := bind_eq_ok.1 hrun
  obtain ⟨s₂, h₂, hrun⟩ := bind_eq_ok.1 hrun
  obtain ⟨s₃, h₃, hrun⟩ := bind_eq_ok.1 hrun
  obtain ⟨s₄, h₄, hrun⟩ := bind_eq_ok.1 hrun
  obtain ⟨s₅, h₅, hrun⟩ := bind_eq_ok.1 hrun
  obtain ⟨s₆, h₆, hrun⟩ := bind_eq_ok.1 hrun
  obtain ⟨s₇, h₇, hrun⟩ := bind_eq_ok.1 hrun
  obtain ⟨s₈, h₈, hrun⟩ := bind_eq_ok.1 hrun
  obtain ⟨s₉, h₉, hrun⟩ := bind_eq_ok.1 hrun
  obtain ⟨x, hx, hrun⟩ := bind_eq_ok.1 hrun
  obtain ⟨y, hy, hrun⟩ := bind_eq_ok.1 hrun
  obtain ⟨t, ht, hrun⟩ := bind_eq_ok.1 hrun
  obtain ⟨g, hg, hrun⟩ := bind_eq_ok.1 hrun
  obtain ⟨⟨f₀, f₁, f₂, f₃, f₄, f₅, f₆, f₇⟩, hrun⟩ := cassert_bind_eq_ok.1 hrun
  obtain ⟨hp, hrun⟩ := cassert_bind_eq_ok.1 hrun
  obtain ⟨⟨hr, hst, hc, hxp, hyst⟩, hrun⟩ := cassert_bind_eq_ok.1 hrun
  obtain ⟨⟨hpp, hge, hgs⟩, -⟩ := cassert_bind_eq_ok.1 hrun
  rw [owner_eq_ok] at hx hy ht hg
  obtain ⟨hidle, hexit⟩ := exiting_of hr hx hc
  have hquiet {s : State} : TreeOp s .schedule := ⟨fun _ hx => (by cases hx), trivial⟩
  have hun : Unawaited s₈ := by
    intro p t g hp ht hg hin
    cases hr.symm.trans hp
    cases hx.symm.trans ht
    rw [hxp, hy] at hg
    cases hg
    cases hyst.symm.trans hin.1
  have hreach : (schedSys.restrict TreeOp).Reach s₃ :=
    .step (a := .fork) (.step (a := .schedule) (.step (a := .schedule) (.init h₀)
      ⟨hquiet, .schedule f₀ h₁⟩) ⟨hquiet, .schedule f₁ h₂⟩)
      ⟨⟨fun _ hx => (by cases hx), trivial⟩, .fork f₂ h₃⟩
  have hreach : (schedSys.restrict TreeOp).Reach s₅ :=
    .step (a := .unblock 1) (.step (a := .exitBlock 0 (some (.other 0)) .blocked) hreach
      ⟨⟨fun _ hx => (by cases hx), trivial⟩, .exitBlock f₃ nofun nofun nofun (Or.inl rfl) h₄⟩)
      ⟨⟨fun _ hx => (by cases hx), trivial⟩, .unblock f₄.idle (plain_of hp) h₅⟩
  have hreach : (schedSys.restrict TreeOp).Reach s₉ :=
    .step (a := .exitEnd) (.step (a := .schedule) (.step (a := .schedule) (.step (a := .schedule) hreach
      ⟨hquiet, .schedule f₅ h₆⟩) ⟨hquiet, .schedule f₆ h₇⟩) ⟨hquiet, .schedule f₇ h₈⟩)
      ⟨⟨orderly_end hr hx (by simp) hst, hun⟩, .exitEnd hidle hexit h₉⟩
  exact ⟨s₉, t, g, hreach, ht, hpp, hg, hge, hgs, ((tree_well_formed hreach).1 3 t ht).2⟩

/-- Task 1 waits for its child 3, whose exit waits for a buffer on the way: the end of that exit
    wakes task 1, which frees task 3 while it is ready. -/
theorem tree_frees_live : ∃ s s' t status, (schedSys.restrict Orderly).Reach s ∧
    Step s (.resume 3 status) s' ∧ s.task_bucket 3 = some t ∧ t.state = .ready ∧
    s'.task_bucket 3 = none := by
  obtain ⟨⟨⟩, hrun⟩ := ok_of_isOk (show Except.isOk (do
    let s₀ ← taskInit
    let s₁ ← schedule s₀
    let s₂ ← schedule s₁
    let s₃ ← sysFork s₂
    let r₄ ← sysWaitpid s₃ 3
    let s₅ ← schedule r₄.1
    let s₆ ← schedule s₅
    let s₇ ← exitBlock s₆ 5 (some (.other 0)) .blocked
    let s₈ ← unblock s₇ 3
    let s₉ ← schedule s₈
    let s₁₀ ← schedule s₉
    let s₁₁ ← exitRest s₁₀
    let s₁₂ ← schedule s₁₁
    let s₁₃ ← schedule s₁₂
    let r₁₄ ← resumeWait s₁₃
    let x ← owner s₁₀ 3
    let t ← owner s₁₃ 3
    cassert (Free s₀ ∧ Free s₁ ∧ Free s₂ ∧ Free s₃ ∧ Free r₄.1 ∧ Free s₅ ∧ Free s₆ ∧ Free s₇ ∧
      Free s₈ ∧ Free s₉ ∧ Free s₁₁ ∧ Free s₁₂) "Free"
    cassert ((s₇.task_bucket 3).any fun t => t.state ≠ .died ∧ t.child = none) "Plain"
    cassert (s₁₀.running_task = some 3 ∧ x.state = .running ∧ (x.child = none ∧ x.exiting = true))
      "running_task"
    cassert (r₄.2 = .blocked ∧ r₁₄.2.1 = 3 ∧ t.state = .ready ∧ r₁₄.1.task_bucket 3 = none) "run"
    return ()) = true by decide +kernel)
  obtain ⟨s₀, h₀, hrun⟩ := bind_eq_ok.1 hrun
  obtain ⟨s₁, h₁, hrun⟩ := bind_eq_ok.1 hrun
  obtain ⟨s₂, h₂, hrun⟩ := bind_eq_ok.1 hrun
  obtain ⟨s₃, h₃, hrun⟩ := bind_eq_ok.1 hrun
  obtain ⟨⟨s₄, res⟩, h₄, hrun⟩ := bind_eq_ok.1 hrun
  obtain ⟨s₅, h₅, hrun⟩ := bind_eq_ok.1 hrun
  obtain ⟨s₆, h₆, hrun⟩ := bind_eq_ok.1 hrun
  obtain ⟨s₇, h₇, hrun⟩ := bind_eq_ok.1 hrun
  obtain ⟨s₈, h₈, hrun⟩ := bind_eq_ok.1 hrun
  obtain ⟨s₉, h₉, hrun⟩ := bind_eq_ok.1 hrun
  obtain ⟨s₁₀, h₁₀, hrun⟩ := bind_eq_ok.1 hrun
  obtain ⟨s₁₁, h₁₁, hrun⟩ := bind_eq_ok.1 hrun
  obtain ⟨s₁₂, h₁₂, hrun⟩ := bind_eq_ok.1 hrun
  obtain ⟨s₁₃, h₁₃, hrun⟩ := bind_eq_ok.1 hrun
  obtain ⟨⟨s, c, status⟩, h, hrun⟩ := bind_eq_ok.1 hrun
  obtain ⟨x, hx, hrun⟩ := bind_eq_ok.1 hrun
  obtain ⟨t, ht, hrun⟩ := bind_eq_ok.1 hrun
  obtain ⟨⟨f₀, f₁, f₂, f₃, f₄, f₅, f₆, f₇, f₈, f₉, f₁₁, f₁₂⟩, hrun⟩ := cassert_bind_eq_ok.1 hrun
  obtain ⟨hp, hrun⟩ := cassert_bind_eq_ok.1 hrun
  obtain ⟨⟨hr, hst, hc⟩, hrun⟩ := cassert_bind_eq_ok.1 hrun
  obtain ⟨⟨hres, hthree, hready, hnone⟩, -⟩ := cassert_bind_eq_ok.1 hrun
  dsimp only at hres hthree
  subst hres hthree
  rw [owner_eq_ok] at hx ht
  obtain ⟨hidle, hexit⟩ := exiting_of hr hx hc
  have hquiet {s : State} : Orderly s .schedule := fun _ hx => (by cases hx)
  have hreach : (schedSys.restrict Orderly).Reach s₆ :=
    .step (a := .schedule) (.step (a := .schedule) (.step (a := .waitpid 3 .blocked)
      (.step (a := .fork) (.step (a := .schedule) (.step (a := .schedule) (.init h₀)
      ⟨hquiet, .schedule f₀ h₁⟩) ⟨hquiet, .schedule f₁ h₂⟩)
      ⟨fun _ hx => (by cases hx), .fork f₂ h₃⟩) ⟨by simp [Orderly], .waitpid f₃.idle h₄⟩)
      ⟨hquiet, .schedule f₄ h₅⟩) ⟨hquiet, .schedule f₅ h₆⟩
  have hreach : (schedSys.restrict Orderly).Reach s₁₀ :=
    .step (a := .schedule) (.step (a := .schedule) (.step (a := .unblock 3)
      (.step (a := .exitBlock 5 (some (.other 0)) .blocked) hreach
      ⟨fun _ hx => (by cases hx), .exitBlock f₆ nofun nofun nofun (Or.inl rfl) h₇⟩)
      ⟨fun _ hx => (by cases hx), .unblock f₇.idle (plain_of hp) h₈⟩) ⟨hquiet, .schedule f₈ h₉⟩)
      ⟨hquiet, .schedule f₉ h₁₀⟩
  have hreach : (schedSys.restrict Orderly).Reach s₁₃ :=
    .step (a := .schedule) (.step (a := .schedule) (.step (a := .exitEnd) hreach
      ⟨orderly_end hr hx (by simp) hst, .exitEnd hidle hexit h₁₁⟩) ⟨hquiet, .schedule f₁₁ h₁₂⟩)
      ⟨hquiet, .schedule f₁₂ h₁₃⟩
  exact ⟨s₁₃, s, t, status, hreach, .resume h, ht, hready, hnone⟩

end Rdix.Sched
