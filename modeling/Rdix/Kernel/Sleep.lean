/-
  Tasks that sleep (kernel/task.c, kernel/clock.c).

  * `Sleepers`: the scheduler with the ticks of the clock and the calls of `task_sleep`;
  * `SleepInv`: the sleep list is in the order of the deadlines, and a deadline is as far off as the
    call and the ticks since then say;
  * `weakup` wakes one task a tick: `sleepers_wake_iff` says when that is enough.
-/
import Rdix.Kernel.Ready

namespace Rdix.Sched

open Function Transition

/-! ## What leaves the sleepers alone -/

section Frames
variable {s s' s₁ : State} {p q : Pid} {t u : Tcb} {l : ListId}

theorem valueOf_of (h : s.task_bucket p = some t) : valueOf s p = t.value := by
  rw [valueOf, h]
  rfl

/-- `node->value` of each task stays, also that of the one that moves. -/
theorem Moved.valueOf (m : Moved s s' p u) (ht : s.task_bucket p = some t)
    (hv : u.value = t.value) : valueOf s' q = valueOf s q := by
  by_cases hq : q = p
  · rw [hq, valueOf_of m.at, valueOf_of ht, hv]
  · rw [Sched.valueOf, Sched.valueOf, m.of_ne hq]

theorem Moved.valueOf_ne (m : Moved s s' p u) (hq : q ≠ p) : Sched.valueOf s' q = Sched.valueOf s q := by
  rw [Sched.valueOf, Sched.valueOf, m.of_ne hq]

theorem Tcb.parked_value (t : Tcb) : t.parked.value = t.value := by
  unfold Tcb.parked
  split_ifs <;> rfl

/-- `schedule` sets no value. -/
theorem schedule_value (h : Midway s) (hs : schedule s = .ok s') : valueOf s' q = valueOf s q := by
  cases schedule_cases h hs with
  | same he => rw [he]
  | first next n hn _ _ _ hb =>
    by_cases hq : q = next
    · rw [hq, valueOf_of hn, valueOf_of (show s'.task_bucket next = _ by rw [hb, update_self])]
    · rw [valueOf, valueOf, hb, update_of_ne hq]
  | switch next r n c hn _ _ _ hc hnr hb =>
    by_cases hq : q = r
    · rw [hq, valueOf_of hc, valueOf_of (show s'.task_bucket r = _ by rw [hb, update_self]),
        c.parked_value]
    · by_cases hq' : q = next
      · rw [hq', valueOf_of hn, valueOf_of (show s'.task_bucket next = _ by
          rw [hb, update_of_ne hnr, update_self])]
      · rw [valueOf, valueOf, hb, update_of_ne hq, update_of_ne hq']

theorem removeNode_jiffies (hs : removeNode s p = .ok s') : s'.jiffies = s.jiffies := by
  obtain ⟨_, _, -, -, rfl, -⟩ := removeNode_ok hs
  rfl

theorem listPush_jiffies (hs : listPush s l p = .ok s') : s'.jiffies = s.jiffies := by
  obtain ⟨_, -, -, rfl, -⟩ := listPush_ok hs
  rfl

theorem switchTo_jiffies {next : Pid} {r : Option Pid} (hs : switchTo s next r = .ok s') :
    s'.jiffies = s.jiffies := by
  cases r with
  | none =>
    cases hs
    rfl
  | some r =>
    obtain ⟨n, -, hs⟩ := bind_eq_ok.1 hs
    obtain ⟨c, -, hs⟩ := bind_eq_ok.1 hs
    split_ifs at hs
    · obtain ⟨s₁, h₁, hs⟩ := bind_eq_ok.1 hs
      cases hs
      exact (listPush_jiffies h₁).trans rfl
    · cases hs
      rfl

theorem schedule_jiffies (hs : schedule s = .ok s') : s'.jiffies = s.jiffies := by
  cases hlast : (s.lists .ready).getLast? with
  | none =>
    simp only [schedule, hlast] at hs
    obtain ⟨-, hs⟩ := cassert_bind_eq_ok.1 hs
    obtain ⟨r, -, hs⟩ := bind_eq_ok.1 hs
    obtain ⟨t, -, hs⟩ := bind_eq_ok.1 hs
    obtain ⟨-, hs⟩ := cassert_bind_eq_ok.1 hs
    cases hs
    rfl
  | some next =>
    simp only [schedule, hlast] at hs
    obtain ⟨s₁, h₁, hs⟩ := bind_eq_ok.1 hs
    rw [switchTo_jiffies hs, removeNode_jiffies h₁]

theorem unblock_jiffies (hs : unblock s p = .ok s') : s'.jiffies = s.jiffies := by
  obtain ⟨s₁, h₁, hs⟩ := bind_eq_ok.1 hs
  obtain ⟨s₂, h₂, hs⟩ := bind_eq_ok.1 hs
  obtain ⟨t, -, hs⟩ := bind_eq_ok.1 hs
  cases hs
  exact (listPush_jiffies h₂).trans (removeNode_jiffies h₁)

theorem taskCreate_jiffies {priority : ℕ} (hs : taskCreate s priority = .ok s') :
    s'.jiffies = s.jiffies := by
  obtain ⟨r, -, hs⟩ := bind_eq_ok.1 hs
  exact (listPush_jiffies hs :)

theorem sysFork_jiffies (hs : sysFork s = .ok s') : s'.jiffies = s.jiffies := by
  obtain ⟨_, -, hs⟩ := deref_bind_eq_ok hs
  obtain ⟨_, -, hs⟩ := bind_eq_ok.1 hs
  obtain ⟨r, -, hs⟩ := bind_eq_ok.1 hs
  obtain ⟨-, hs⟩ := kept_bind_ok hs
  exact (listPush_jiffies hs :)

/-- The sleep list, its deadlines and the clock are as before. -/
structure Quiet (s s' : State) : Prop where
  lists : s'.lists .sleep = s.lists .sleep
  jiffies : s'.jiffies = s.jiffies
  value : ∀ q ∈ s.lists .sleep, valueOf s' q = valueOf s q

/-- `schedule` leaves the sleepers alone. -/
theorem schedule_quiet (h : Midway s) (hs : schedule s = .ok s') : Quiet s s' :=
  ⟨schedule_lists h.linked (by simp) hs, schedule_jiffies hs, fun _ _ => schedule_value h hs⟩

theorem Quiet.trans (h : Quiet s s₁) (h' : Quiet s₁ s') : Quiet s s' :=
  ⟨h'.lists.trans h.lists, h'.jiffies.trans h.jiffies,
    fun q hq => (h'.value q (by rw [h.lists]; exact hq)).trans (h.value q hq)⟩

/-- Another task moves. -/
theorem Moved.quiet (m : Moved s s' p u) (hl : s'.lists .sleep = s.lists .sleep)
    (hj : s'.jiffies = s.jiffies) (hp : p ∉ s.lists .sleep) : Quiet s s' :=
  ⟨hl, hj, fun _ hq => m.valueOf_ne (ne_of_mem_of_not_mem hq hp)⟩

/-- The steps that have nothing to do with sleep; no task that sleeps is unblocked. -/
def SleepOp (s : State) : Op → Prop
  | .schedule | .create _ | .fork => True
  | .block _ task _ => blocking s task = s.running_task
  | .unblock p => p ∉ s.lists .sleep
  | _ => False

/-- A free slot, or the running task, is in no list. -/
theorem State.Linked.notMem (h : s.Linked) (hc : s.listOf p = none) (l : ListId) :
    p ∉ s.lists l := by
  rw [h.mem, hc]
  simp

theorem SleepOp.quiet {op : Op} (h : SchedInv s) (ho : SleepOp s op) (hs : Step s op s') :
    Quiet s s' := by
  cases hs with
  | schedule _ hs => exact schedule_quiet h.toMidway hs
  | @block list _ _ _ _ h₁ h₂ h₃ hst _ hs =>
    obtain ⟨r, t, s₁, hr, ht, m, hm, hsch, hj, hl⟩ := h.block_self_pushes ho h₁ h₂ h₃ hst hs
    refine (m.quiet ?_ hj ?_).trans (schedule_quiet hm hsch)
    · have hne : list.getD .block ≠ .sleep := by
        cases list with
        | none => simp
        | some l => exact fun he => h₂ (congrArg some he)
      rw [hl, update_of_ne hne.symm]
    · exact h.linked.notMem (by rw [State.listOf_of ht, h.off r t hr ht]) .sleep
  | @unblock p _ _ _ hs =>
    obtain ⟨t, l, ht, hc, m⟩ := unblock_ok hs
    have hp : p ∈ s.lists l := (h.linked.mem l p).2 (by rw [State.listOf_of ht, hc])
    have hl : l ≠ .sleep := fun he => ho (he ▸ hp)
    exact m.quiet (unblock_lists_of_ne h.linked hp (by simp) hl.symm hs) (unblock_jiffies hs) ho
  | create _ hs =>
    obtain ⟨q, hq, m⟩ := taskCreate_ok hs
    obtain ⟨p, hl⟩ := taskCreate_lists hs
    refine m.quiet (by rw [hl, update_of_ne (by simp)]) (taskCreate_jiffies hs) ?_
    exact h.linked.notMem (by rw [State.listOf, hq]; rfl) .sleep
  | fork _ hs =>
    obtain ⟨_, _, q, -, -, hq, m⟩ := sysFork_ok hs
    obtain ⟨p, hl⟩ := sysFork_lists hs
    refine m.quiet (by rw [hl, update_of_ne (by simp)]) (sysFork_jiffies hs) ?_
    exact h.linked.notMem (by rw [State.listOf, hq]; rfl) .sleep
  | clock | sleep | exit | exitBlock | exitWait | exitEnd | threadExit | waitpid | resume =>
    exact ho.elim

end Frames

/-! ## Calls and ticks -/

/-- The scheduler with the number of ticks, and with the tick and the time of the last call of
    `task_sleep` by each task. -/
structure Sleepers where
  sched : State
  ticks : ℕ
  since : Pid → ℕ × ℕ

/-- The ticks after which the task is due. -/
def Sleepers.due (x : Sleepers) (p : Pid) : ℕ := (x.since p).1 + ceilTicks (x.since p).2

/-- `jiffies` does not come to the end of its range in a call or a tick. -/
inductive SleepStep (x : Sleepers) : Op → Sleepers → Prop where
  | sleep {r time s'} : x.sched.running_task = some r →
      x.sched.jiffies + ceilTicks time < 2 ^ 32 → Step x.sched (.sleep time) s' →
      SleepStep x (.sleep time) ⟨s', x.ticks, update x.since r (x.ticks, time)⟩
  | clock {s'} : x.sched.jiffies + 1 < 2 ^ 32 → Step x.sched .clock s' →
      SleepStep x .clock ⟨s', x.ticks + 1, x.since⟩
  | other {op s'} : SleepOp x.sched op → Step x.sched op s' →
      SleepStep x op ⟨s', x.ticks, x.since⟩

/-- The ticks are counted from any state on in which nobody sleeps. -/
def sleepSys : Sys Sleepers Op where
  init x := schedSys.Reach x.sched ∧ x.sched.lists .sleep = [] ∧ x.ticks = 0
  step := SleepStep

structure SleepInv (x : Sleepers) : Prop where
  sched : SchedInv x.sched
  sorted : (x.sched.lists .sleep).Pairwise fun p q => valueOf x.sched p ≤ valueOf x.sched q
  /-- a deadline is as far ahead of `jiffies` as the task is of being due -/
  value : ∀ p ∈ x.sched.lists .sleep, valueOf x.sched p + x.ticks = x.sched.jiffies + x.due p

section Sleepers
variable {x y : Sleepers} {op : Op} {s' : State} {p : Pid}

theorem SleepInv.quiet (h : SleepInv x) (hi : SchedInv s') (hq : Quiet x.sched s') :
    SleepInv ⟨s', x.ticks, x.since⟩ := by
  refine ⟨hi, ?_, fun p hp => ?_⟩
  · show (s'.lists .sleep).Pairwise _
    rw [hq.lists]
    exact h.sorted.imp_of_mem fun ha hb hab => by rw [hq.value _ ha, hq.value _ hb]; exact hab
  · have hp' : p ∈ x.sched.lists .sleep := by
      rw [← hq.lists]
      exact hp
    show valueOf s' p + x.ticks = s'.jiffies + x.due p
    rw [hq.value p hp', hq.jiffies]
    exact h.value p hp'

/-- The task that calls `task_sleep` is due when its deadline says. -/
theorem SleepInv.taskSleep {r : Pid} {time : ℕ} (h : SleepInv x)
    (hr : x.sched.running_task = some r) (hj : x.sched.jiffies + ceilTicks time < 2 ^ 32)
    (hs : taskSleep x.sched time = .ok s') :
    SleepInv ⟨s', x.ticks, update x.since r (x.ticks, time)⟩ ∧
      ∀ p ∈ x.sched.lists .sleep, p ∈ s'.lists .sleep := by
  obtain ⟨r', t, s₁, hr', ht, m, hm, hsch, hj₁, hl⟩ := h.sched.taskSleep_pushes hs
  obtain rfl : r = r' := Option.some.inj (hr.symm.trans hr')
  have hq := schedule_quiet hm hsch
  have hoff : r ∉ x.sched.lists .sleep :=
    h.sched.linked.notMem (by rw [State.listOf_of ht, h.sched.off r t hr ht]) .sleep
  have hlist : s'.lists .sleep = listInsert (valueOf s₁) greater r (x.sched.lists .sleep) := by
    rw [hq.lists, hl, update_self]
  have hval (q : Pid) : valueOf s' q = valueOf s₁ q := schedule_value hm hsch
  have hne {q : Pid} (hmem : q ∈ x.sched.lists .sleep) : q ≠ r := ne_of_mem_of_not_mem hmem hoff
  refine ⟨⟨schedInv_schedule hm hsch, ?_, fun q hmem => ?_⟩, fun q hmem => ?_⟩
  · show (s'.lists .sleep).Pairwise fun p q => valueOf s' p ≤ valueOf s' q
    simp only [hval, hlist]
    refine listInsert_sorted _ _ (h.sorted.imp_of_mem fun ha hb hab => ?_)
    rw [m.valueOf_ne (hne ha), m.valueOf_ne (hne hb)]
    exact hab
  · change q ∈ s'.lists .sleep at hmem
    show valueOf s' q + x.ticks = s'.jiffies + ((update x.since r (x.ticks, time) q).1 +
      ceilTicks (update x.since r (x.ticks, time) q).2)
    rw [hlist, mem_listInsert] at hmem
    rw [hval, hq.jiffies, hj₁]
    rcases hmem with rfl | hmem
    · rw [valueOf_of m.at, update_self]
      show u32 (x.sched.jiffies + ceilTicks time) + x.ticks =
        x.sched.jiffies + (x.ticks + ceilTicks time)
      rw [u32_of_lt hj]
      omega
    · rw [m.valueOf_ne (hne hmem), update_of_ne (hne hmem)]
      exact h.value q hmem
  · rw [hlist, mem_listInsert]
    exact Or.inr hmem

/-- A tick wakes the first sleeper if that is due, and no other. -/
theorem SleepInv.clock (h : SleepInv x) (hj : x.sched.jiffies + 1 < 2 ^ 32)
    (hs : weakup { x.sched with jiffies := u32 (x.sched.jiffies + 1) } = .ok s') :
    s'.jiffies = x.sched.jiffies + 1 ∧ (∀ q, valueOf s' q = valueOf x.sched q) ∧
      ((∀ p ∈ (x.sched.lists .sleep).head?, x.sched.jiffies + 1 < valueOf x.sched p) ∧
        s'.lists .sleep = x.sched.lists .sleep ∨
      ∃ p, x.sched.lists .sleep = p :: s'.lists .sleep ∧
        valueOf x.sched p ≤ x.sched.jiffies + 1) := by
  rw [u32_of_lt hj] at hs
  rcases weakup_pushes (h.sched.tick _) hs with ⟨rfl, hhead⟩ |
    ⟨p, rest, t, hlist, hdue, ht, m, hjiffies, hl⟩
  · exact ⟨rfl, fun _ => rfl, Or.inl ⟨hhead, rfl⟩⟩
  · refine ⟨hjiffies, fun q => m.valueOf ht rfl, Or.inr ⟨p, ?_, hdue⟩⟩
    rw [hl, update_of_ne (by simp), update_self]
    exact hlist

theorem SleepInv.step (h : SleepInv x) (hs : SleepStep x op y) : SleepInv y := by
  cases hs with
  | sleep hr hj hs =>
    cases hs with
    | sleep _ hs => exact (h.taskSleep hr hj hs).1
  | @clock s' hj hs =>
    have hi := h.sched.step hs
    cases hs with
    | clock _ hs =>
      obtain ⟨hjiffies, hval, hlist⟩ := h.clock hj hs
      have hsub : (s'.lists .sleep).Sublist (x.sched.lists .sleep) := by
        rcases hlist with ⟨-, he⟩ | ⟨p, he, -⟩
        · rw [he]
        · rw [he]
          exact List.sublist_cons_self ..
      refine ⟨hi, ?_, fun q hq => ?_⟩
      · simp only [hval]
        exact h.sorted.sublist hsub
      · have hv := h.value q (hsub.subset hq)
        show valueOf s' q + (x.ticks + 1) = s'.jiffies + x.due q
        rw [hval, hjiffies]
        omega
  | other ho hs => exact h.quiet (h.sched.step hs) (ho.quiet h.sched hs)

theorem sleepInv_reach (h : sleepSys.Reach x) : SleepInv x := by
  refine h.invariant ?_ fun _ _ _ hi => hi.step
  rintro x ⟨hr, hnil, -⟩
  exact ⟨schedInv_reach hr, by simp [hnil], by simp [hnil]⟩

/-- **Nobody is woken early.** -/
theorem SleepInv.not_early (h : SleepInv x) (hs : SleepStep x op y)
    (hp : p ∈ x.sched.lists .sleep) (hp' : p ∉ y.sched.lists .sleep) : x.due p ≤ y.ticks := by
  cases hs with
  | sleep hr hj hs =>
    cases hs with
    | sleep _ hs => exact absurd ((h.taskSleep hr hj hs).2 p hp) hp'
  | clock hj hs =>
    cases hs with
    | clock _ hs =>
      obtain ⟨-, -, ⟨-, he⟩ | ⟨q, he, hdue⟩⟩ := h.clock hj hs
      · exact absurd (he ▸ hp) hp'
      · obtain rfl : p = q := by
          rw [he] at hp
          exact (List.mem_cons.1 hp).resolve_right hp'
        have hv := h.value p hp
        show x.due p ≤ x.ticks + 1
        omega
  | other ho hs => exact absurd ((ho.quiet h.sched hs).lists ▸ hp) hp'

/-- **A tick leaves nobody asleep that is due, if there was one at most.** -/
theorem SleepInv.clock_iff (h : SleepInv x) (hs : SleepStep x .clock y) :
    (∀ p ∈ y.sched.lists .sleep, y.sched.jiffies < valueOf y.sched p) ↔
      ((x.sched.lists .sleep).filter fun p =>
        valueOf x.sched p ≤ x.sched.jiffies + 1).length ≤ 1 := by
  cases hs with
  | other ho => exact ho.elim
  | clock hj hs =>
    cases hs with
    | clock _ hs =>
      obtain ⟨hjiffies, hval, hlist⟩ := h.clock hj hs
      simp only [hjiffies, hval]
      rcases hlist with ⟨hhead, he⟩ | ⟨p, he, hdue⟩
      · -- the first deadline is the least, so nobody is due
        have hall : ∀ p ∈ x.sched.lists .sleep, x.sched.jiffies + 1 < valueOf x.sched p := by
          intro p hp
          have hsorted := h.sorted
          cases hc : x.sched.lists .sleep with
          | nil =>
            rw [hc] at hp
            cases hp
          | cons q rest =>
            rw [hc] at hp hsorted hhead
            have hq := hhead q rfl
            rcases List.mem_cons.1 hp with rfl | hp
            · exact hq
            · exact hq.trans_le ((List.pairwise_cons.1 hsorted).1 p hp)
        rw [he, List.filter_eq_nil_iff.2]
        · simpa using hall
        · intro p hp
          simpa using hall p hp
      · rw [he, List.filter_cons_of_pos (by simpa using hdue), List.length_cons,
          Nat.add_one_le_iff, Nat.lt_one_iff, List.length_eq_zero_iff,
          List.filter_eq_nil_iff]
        simp

/-- Sleepers wake on time: nobody leaves the sleep list before its time has passed since the call,
    and after a tick nobody that is due is still in it just when no more than one was due, since
    a tick wakes one task. -/
theorem sleepers_wake_iff (h : sleepSys.Reach x) (hs : SleepStep x op y) :
    (∀ p ∈ x.sched.lists .sleep, p ∉ y.sched.lists .sleep →
      (x.since p).1 + ceilTicks (x.since p).2 ≤ y.ticks) ∧
    (op = .clock → ((∀ p ∈ y.sched.lists .sleep, y.sched.jiffies < valueOf y.sched p) ↔
      ((x.sched.lists .sleep).filter fun p =>
        valueOf x.sched p ≤ x.sched.jiffies + 1).length ≤ 1)) := by
  have hi := sleepInv_reach h
  refine ⟨fun p hp hp' => hi.not_early hs hp hp', ?_⟩
  rintro rfl
  exact hi.clock_iff hs

end Sleepers

/-- Task 0 sleeps for a tick: it is the only one, and wakes with the next. -/
theorem sleepers_wake_one : ∃ x y, sleepSys.Reach x ∧ x.sched.lists .sleep = [0] ∧
    SleepStep x .clock y ∧ y.sched.lists .sleep = [] ∧
    (x.since 0).1 + ceilTicks (x.since 0).2 ≤ y.ticks ∧
    ∀ p ∈ y.sched.lists .sleep, y.sched.jiffies < valueOf y.sched p := by
  obtain ⟨s₀, s₁, s₂, s₃, h₀, h₁, h₂, h₃, hr, hl₁, hl₂, hl₃, hj₁, hj₂, f₀, f₁, f₂⟩ :
      ∃ s₀ s₁ s₂ s₃, taskInit = .ok s₀ ∧ schedule s₀ = .ok s₁ ∧ taskSleep s₁ 10 = .ok s₂ ∧
        weakup { s₂ with jiffies := u32 (s₂.jiffies + 1) } = .ok s₃ ∧
        s₁.running_task = some 0 ∧ s₁.lists .sleep = [] ∧ s₂.lists .sleep = [0] ∧
        s₃.lists .sleep = [] ∧ s₁.jiffies = 0 ∧ s₂.jiffies = 0 ∧
        Free s₀ ∧ Free s₁ ∧ Free s₂ := by
    refine ⟨_, _, _, _, rfl, rfl, rfl, rfl, rfl, rfl, rfl, rfl, rfl, rfl, ?_,
      free_of rfl rfl rfl, free_of rfl rfl rfl⟩
    intro r t hr
    cases hr
  have hinit : sleepSys.Reach ⟨s₁, 0, fun _ => (0, 0)⟩ :=
    .init ⟨.step (a := .schedule) (.init h₀) (.schedule f₀ h₁), hl₁, rfl⟩
  have hsleep := SleepStep.sleep (x := ⟨s₁, 0, fun _ => (0, 0)⟩) hr
    (show s₁.jiffies + ceilTicks 10 < 2 ^ 32 by rw [hj₁]; decide) (.sleep f₁ h₂)
  have hreach := Sys.Reach.step (S := sleepSys) hinit hsleep
  have hclock := SleepStep.clock (x := ⟨s₂, 0, update (fun _ => (0, 0)) 0 (0, 10)⟩)
    (show s₂.jiffies + 1 < 2 ^ 32 by rw [hj₂]; decide) (.clock f₂ h₃)
  obtain ⟨hearly, hlate⟩ := sleepers_wake_iff hreach hclock
  refine ⟨_, _, hreach, hl₂, hclock, hl₃, hearly 0 ?_ ?_, (hlate rfl).2 ?_⟩
  · show 0 ∈ s₂.lists .sleep
    simp [hl₂]
  · show 0 ∉ s₃.lists .sleep
    simp [hl₃]
  · show ((s₂.lists .sleep).filter fun p => valueOf s₂ p ≤ s₂.jiffies + 1).length ≤ 1
    rw [hl₂]
    exact List.length_filter_le ..

/-- Tasks 0 and 1 sleep for a tick: when it is over, one of them goes on sleeping. -/
theorem sleepers_late : ∃ x y, sleepSys.Reach x ∧ x.sched.lists .sleep = [0, 1] ∧
    SleepStep x .clock y ∧ 1 ∈ y.sched.lists .sleep ∧ valueOf y.sched 1 ≤ y.sched.jiffies := by
  obtain ⟨s₀, s₁, s₂, s₃, s₄, h₀, h₁, h₂, h₃, h₄, r₁, r₂, hl₁, hl₃, hl₄, hj₁, hj₂, hj₃, hj₄, hv, f₀,
    f₁, f₂, f₃⟩ : ∃ s₀ s₁ s₂ s₃ s₄, taskInit = .ok s₀ ∧ schedule s₀ = .ok s₁ ∧
        taskSleep s₁ 10 = .ok s₂ ∧ taskSleep s₂ 10 = .ok s₃ ∧
        weakup { s₃ with jiffies := u32 (s₃.jiffies + 1) } = .ok s₄ ∧
        s₁.running_task = some 0 ∧ s₂.running_task = some 1 ∧ s₁.lists .sleep = [] ∧
        s₃.lists .sleep = [0, 1] ∧ s₄.lists .sleep = [1] ∧ s₁.jiffies = 0 ∧ s₂.jiffies = 0 ∧
        s₃.jiffies = 0 ∧ s₄.jiffies = 1 ∧ valueOf s₄ 1 = 1 ∧ Free s₀ ∧ Free s₁ ∧ Free s₂ ∧
        Free s₃ := by
    refine ⟨_, _, _, _, _, rfl, rfl, rfl, rfl, rfl, rfl, rfl, rfl, rfl, rfl, rfl, rfl, rfl, rfl, rfl,
      ?_, free_of rfl rfl rfl, free_of rfl rfl rfl, free_of rfl rfl rfl⟩
    intro r t hr
    cases hr
  have hinit : sleepSys.Reach ⟨s₁, 0, fun _ => (0, 0)⟩ :=
    .init ⟨.step (a := .schedule) (.init h₀) (.schedule f₀ h₁), hl₁, rfl⟩
  have hfirst := SleepStep.sleep (x := ⟨s₁, 0, fun _ => (0, 0)⟩) r₁
    (show s₁.jiffies + ceilTicks 10 < 2 ^ 32 by rw [hj₁]; decide) (.sleep f₁ h₂)
  have hsecond := SleepStep.sleep (x := ⟨s₂, 0, update (fun _ => (0, 0)) 0 (0, 10)⟩) r₂
    (show s₂.jiffies + ceilTicks 10 < 2 ^ 32 by rw [hj₂]; decide) (.sleep f₂ h₃)
  have hreach := Sys.Reach.step (S := sleepSys) (Sys.Reach.step (S := sleepSys) hinit hfirst) hsecond
  have hclock := SleepStep.clock
    (x := ⟨s₃, 0, update (update (fun _ => (0, 0)) 0 (0, 10)) 1 (0, 10)⟩)
    (show s₃.jiffies + 1 < 2 ^ 32 by rw [hj₃]; decide) (.clock f₃ h₄)
  refine ⟨_, _, hreach, hl₃, hclock, ?_, ?_⟩
  · show 1 ∈ s₄.lists .sleep
    simp [hl₄]
  · show valueOf s₄ 1 ≤ s₄.jiffies
    rw [hv, hj₄]

end Rdix.Sched
