/-
  Whom an exit wakes (kernel/task.c).

  The test of `sys_exit` and `kernel_thread_exit` reads the state of the parent, which is that of
  other waits as well, and `waitpid`, which stays after the call that has set it.

  * `woken_iff`: the parent is woken if it waits, for whatever, and its `waitpid` fits;
  * `exit_wakes_iff`: only a `sys_waitpid` is ended, if no `waitpid` is left of an earlier one.
-/
import Rdix.Kernel.Waitpid

namespace Rdix.Sched

open Function Transition

/-- The task leaves its wait, alive. -/
def Woken (s s' : State) (p : Pid) : Prop :=
  ∃ g g', s.task_bucket p = some g ∧ s'.task_bucket p = some g' ∧ g.state = .waiting ∧
    g'.state ≠ .waiting ∧ g'.state ≠ .died

/-- The parent of `x`, another task, waits for something else, and the `waitpid` that it has kept
    fits. -/
def Stale (s : State) (x : Pid) : Prop :=
  ∃ t g, s.task_bucket x = some t ∧ t.ppid ≠ x ∧ s.task_bucket t.ppid = some g ∧
    g.state = .waiting ∧ g.child = none ∧ Matches g.waitpid x

section Wakeup
variable {s s' : State} {p x : Pid} {op : Op} {t g : Tcb}

/-- What the ways to exit do to the families.  The task itself is dead, or did not wait. -/
theorem kins_target (h : SchedInv s) (hx : target s.running_task op = some x) (hs : Step s op s') :
    ∃ t status, s.task_bucket x = some t ∧
      (∀ u, kins s' x = some u → u.dead = true ∨ t.state ≠ .waiting) ∧
      ∀ q, q ≠ x → kins s' q = afterExit (kins s) x t.kin status q := by
  have hf := fstep_of_step h hs
  generalize kins s' = K' at hf
  cases hf with
  | exit _ ht hk _ =>
    obtain rfl := Option.some.inj (hx.symm.trans ht)
    obtain ⟨t, ht, rfl⟩ := Option.map_eq_some_iff.1 hk
    refine ⟨t, _, ht, fun u hu => Or.inl ?_, fun _ _ => rfl⟩
    rw [afterExit, if_pos rfl] at hu
    cases hu
    rfl
  | finish hp hk _ hw _ _ =>
    obtain rfl := Option.some.inj (hp.symm.trans hx)
    obtain ⟨t, ht, rfl⟩ := Option.map_eq_some_iff.1 hk
    exact ⟨t, _, ht, fun _ _ => Or.inr (of_decide_eq_false hw), fun q hq => if_neg hq⟩
  | quiet ht | turn ht | born ht =>
    rw [ht] at hx
    cases hx
  | wait | reap | resume | suspend | suspendWait => cases hx

theorem woken_kins : Woken s s' p ↔ ∃ u u', kins s p = some u ∧ kins s' p = some u' ∧
    u.waiting = true ∧ u'.waiting = false ∧ u'.dead = false := by
  constructor
  · rintro ⟨g, g', hg, hg', hw, hnw, hd⟩
    exact ⟨_, _, kins_eq hg, kins_eq hg', decide_eq_true hw, decide_eq_false hnw, decide_eq_false hd⟩
  · rintro ⟨u, u', hu, hu', hw, hnw, hd⟩
    obtain ⟨g, hg, rfl⟩ := Option.map_eq_some_iff.1 hu
    obtain ⟨g', hg', rfl⟩ := Option.map_eq_some_iff.1 hu'
    exact ⟨g, g', hg, hg', of_decide_eq_true hw, of_decide_eq_false hnw, of_decide_eq_false hd⟩

theorem adopt_awaits (k u : Kin) : (k.adopt u).Awaits k ↔ u.Awaits k := by
  unfold Kin.adopt
  split_ifs <;> rfl

/-- **An exit wakes the parent if that waits and its `waitpid` fits, and nobody else.** -/
theorem woken_iff (h : SchedInv s) (hx : target s.running_task op = some x) (hs : Step s op s')
    (ht : s.task_bucket x = some t) : Woken s s' p ↔ t.ppid = p ∧ p ≠ x ∧
      ∃ g, s.task_bucket p = some g ∧ g.state = .waiting ∧ Matches g.waitpid x := by
  obtain ⟨t', status, ht', hown, hk⟩ := kins_target h hx hs
  rw [ht] at ht'
  cases ht'
  have hpid : t.pid = x := h.pid x t ht
  rw [woken_kins]
  constructor
  · rintro ⟨u, u', hu, hu', hw, hnw, hd⟩
    have hne : p ≠ x := by
      rintro rfl
      rw [kins_eq ht] at hu
      cases hu
      rcases hown u' hu' with hdead | hnot
      · rw [hd] at hdead
        cases hdead
      · exact hnot (of_decide_eq_true hw)
    rw [hk p hne] at hu'
    obtain ⟨v, hv, -, hsame | ⟨hp, hawaits, -⟩⟩ := afterExit_some hne hu'
    · rw [hu] at hv
      cases hv
      rw [hsame, hw] at hnw
      cases hnw
    · obtain ⟨g, hg, rfl⟩ := Option.map_eq_some_iff.1 hv
      obtain ⟨hwait, hm⟩ := (awaits_iff g t).1 hawaits
      rw [hpid] at hm
      exact ⟨hp.symm, hne, g, hg, hwait, hm.symm⟩
  · rintro ⟨rfl, hne, g, hg, hst, hm⟩
    have hawaits : (t.kin.adopt g.kin).Awaits t.kin := by
      rw [adopt_awaits, awaits_iff, WaitsFor, hpid]
      exact ⟨hst, hm.symm⟩
    have hdead : (t.kin.adopt g.kin).dead = false := by
      have hst' : (adopt t g).state = .waiting :=
        (congrArg (·.2.2) (place_adopt t g)).trans hst
      rw [← kin_adopt]
      exact decide_eq_false (by simp [hst'])
    refine ⟨g.kin, { t.kin.adopt g.kin with waiting := false }, kins_eq hg, ?_, decide_eq_true hst,
      rfl, hdead⟩
    rw [hk t.ppid hne, afterExit_of_ne hne, kins_eq hg, Option.map_some, if_pos ⟨rfl, hawaits⟩]

/-- Only a `sys_waitpid` is ended by an exit, and one for this child or for any, just when the
    parent does not wait for something else with a `waitpid` left that fits. -/
theorem exit_wakes_iff (h : schedSys.Reach s) (hx : target s.running_task op = some x)
    (hs : Step s op s') :
    (∀ p, Woken s s' p → ∃ t g, s.task_bucket x = some t ∧ t.ppid = p ∧
      s.task_bucket p = some g ∧ g.InWaitpid ∧ Matches g.waitpid x) ↔ ¬ Stale s x := by
  have hi := schedInv_reach h
  obtain ⟨t, -, ht, -, -⟩ := kins_target hi hx hs
  constructor
  · rintro hall ⟨t', g, ht', hne, hg, hst, hc, hm⟩
    rw [ht] at ht'
    cases ht'
    obtain ⟨-, g', -, -, hg', ⟨-, hin⟩, -⟩ :=
      hall t.ppid ((woken_iff hi hx hs ht).2 ⟨rfl, hne, g, hg, hst, hm⟩)
    rw [hg] at hg'
    cases hg'
    rw [hc] at hin
    cases hin
  · intro hstale p hp
    obtain ⟨rfl, hne, g, hg, hst, hm⟩ := (woken_iff hi hx hs ht).1 hp
    refine ⟨t, g, ht, rfl, hg, ⟨hst, ?_⟩, hm⟩
    by_contra hc
    exact hstale ⟨t, g, ht, hne, hg, hst, by simpa using hc, hm⟩

end Wakeup

/-- Task 1 is in `sys_waitpid`, and is woken by the child it waits for. -/
theorem exit_wakes_child : ∃ s s', schedSys.Reach s ∧ Step s (.threadExit (some 3) 0) s' ∧
    Woken s s' 1 ∧ ∃ t g, s.task_bucket 3 = some t ∧ t.ppid = 1 ∧ s.task_bucket 1 = some g ∧
      g.InWaitpid ∧ Matches g.waitpid 3 := by
  obtain ⟨s₀, s₁, s₂, s₃, s₄, s₅, t, g, g', h₀, h₁, h₂, h₃, h₄, h₅, f₀, f₁, f₂, f₃, f₄, ht, hg, hg',
    hpp, hst, hst', hc⟩ : ∃ s₀ s₁ s₂ s₃ s₄ s₅, ∃ t g g' : Tcb, taskInit = .ok s₀ ∧
      schedule s₀ = .ok s₁ ∧ schedule s₁ = .ok s₂ ∧ taskCreate s₂ 1 = .ok s₃ ∧
      sysWaitpid s₃ (-1) = .ok (s₄, .blocked) ∧ kernelThreadExit s₄ (some 3) 0 = .ok s₅ ∧
      Free s₀ ∧ Free s₁ ∧ Free s₂ ∧ Free s₃ ∧ Free s₄ ∧ s₄.task_bucket 3 = some t ∧
      s₄.task_bucket 1 = some g ∧ s₅.task_bucket 1 = some g' ∧ t.ppid = 1 ∧ g.state = .waiting ∧
      g'.state = .ready ∧ g.child = some 3 := by
    refine ⟨_, _, _, _, _, _, _, _, _, rfl, rfl, rfl, rfl, rfl, rfl, ?_, free_of rfl rfl rfl,
      free_of rfl rfl rfl, free_of rfl rfl rfl, free_of rfl rfl rfl, rfl, rfl, rfl, rfl, rfl, rfl, rfl⟩
    intro r t hr
    cases hr
  have hreach : schedSys.Reach s₄ :=
    .step (a := .waitpid (-1) .blocked) (.step (a := .create 1) (.step (a := .schedule)
      (.step (a := .schedule) (.init h₀) (.schedule f₀ h₁)) (.schedule f₁ h₂)) (.create f₂.idle h₃))
      (.waitpid f₃.idle h₄)
  have hwoken : Woken s₄ s₅ 1 := ⟨g, g', hg, hg', hst, by simp [hst'], by simp [hst']⟩
  have hstale : ¬ Stale s₄ 3 := by
    rintro ⟨t', u, ht', -, hu, -, hnone, -⟩
    rw [ht] at ht'
    cases ht'
    rw [hpp, hg] at hu
    cases hu
    rw [hc] at hnone
    cases hnone
  obtain ⟨t', u, ht', hpp', hrest⟩ :=
    (exit_wakes_iff (x := 3) hreach rfl (.threadExit f₄ h₅)).2 hstale 1 hwoken
  exact ⟨s₄, s₅, hreach, .threadExit f₄ h₅, hwoken, t', u, ht', hpp', hrest⟩

/-- Task 1 has waited for any child before; now it waits for a disk, and the exit of another child
    wakes it. -/
theorem exit_wakes_stale : ∃ s s', schedSys.Reach s ∧ 1 ∈ s.lists (.other 0) ∧
    Step s (.threadExit (some 4) 0) s' ∧ Woken s s' 1 ∧ 1 ∈ s'.lists .ready ∧
    ∀ g, s.task_bucket 1 = some g → ¬ g.InWaitpid := by
  obtain ⟨s₀, s₁, s₂, s₃, s₄, s₅, s₆, s₇, s₈, s₉, s₁₀, s, s', g, g', h₀, h₁, h₂, h₃, h₄, h₅, h₆, h₇, h₈,
    h₉, h₁₀, h, h', f₀, f₁, f₂, f₃, f₄, f₅, f₆, f₇, f₈, f₁₀, f, hg, hg', hst, hst', hc, hl, hl'⟩ :
      ∃ s₀ s₁ s₂ s₃ s₄ s₅ s₆ s₇ s₈ s₉ s₁₀ s s', ∃ g g' : Tcb,
      taskInit = .ok s₀ ∧ schedule s₀ = .ok s₁ ∧ schedule s₁ = .ok s₂ ∧ taskCreate s₂ 1 = .ok s₃ ∧
      taskCreate s₃ 1 = .ok s₄ ∧ sysWaitpid s₄ (-1) = .ok (s₅, .blocked) ∧
      kernelThreadExit s₅ (some 3) 0 = .ok s₆ ∧ schedule s₆ = .ok s₇ ∧ schedule s₇ = .ok s₈ ∧
      schedule s₈ = .ok s₉ ∧ resumeWait s₉ = .ok (s₁₀, 3, 0) ∧
      block s₁₀ (some (.other 0)) none .waiting = .ok s ∧
      kernelThreadExit s (some 4) 0 = .ok s' ∧
      Free s₀ ∧ Free s₁ ∧ Free s₂ ∧ Free s₃ ∧ Free s₄ ∧ Free s₅ ∧ Free s₆ ∧ Free s₇ ∧ Free s₈ ∧
      Free s₁₀ ∧ Free s ∧ s.task_bucket 1 = some g ∧ s'.task_bucket 1 = some g' ∧
      g.state = .waiting ∧ g'.state = .ready ∧ g.child = none ∧ s.lists (.other 0) = [1] ∧
      s'.lists .ready = [1, 0] := by
    refine ⟨_, _, _, _, _, _, _, _, _, _, _, _, _, _, _, rfl, rfl, rfl, rfl, rfl, rfl, rfl, rfl, rfl,
      rfl, rfl, rfl, rfl, ?_, free_of rfl rfl rfl, free_of rfl rfl rfl, free_of rfl rfl rfl,
      free_of rfl rfl rfl, free_of rfl rfl rfl, free_of rfl rfl rfl, free_of rfl rfl rfl,
      free_of rfl rfl rfl, free_of rfl rfl rfl, free_of rfl rfl rfl, rfl, rfl, rfl, rfl, rfl, rfl,
      rfl⟩
    intro r t hr
    cases hr
  have hreach : schedSys.Reach s₅ :=
    .step (a := .waitpid (-1) .blocked) (.step (a := .create 1) (.step (a := .create 1)
      (.step (a := .schedule) (.step (a := .schedule) (.init h₀) (.schedule f₀ h₁))
      (.schedule f₁ h₂)) (.create f₂.idle h₃)) (.create f₃.idle h₄)) (.waitpid f₄.idle h₅)
  have hreach : schedSys.Reach s₉ :=
    .step (a := .schedule) (.step (a := .schedule) (.step (a := .schedule)
      (.step (a := .threadExit (some 3) 0) hreach (.threadExit f₅ h₆)) (.schedule f₆ h₇))
      (.schedule f₇ h₈)) (.schedule f₈ h₉)
  have hblock : Step s₁₀ (.block (some (.other 0)) none .waiting) s :=
    .block f₁₀.idle (by simp) (by simp) (by simp) (Or.inr rfl) (fun p hp => by cases hp) h
  have hreach : schedSys.Reach s :=
    .step (.step (a := .resume 3 0) hreach (.resume h₁₀)) hblock
  refine ⟨s, s', hreach, by simp [hl], .threadExit f h',
    ⟨g, g', hg, hg', hst, by simp [hst'], by simp [hst']⟩, by simp [hl'], fun u hu hin => ?_⟩
  rw [hg] at hu
  cases hu
  have hsome := hin.2
  rw [hc] at hsome
  cases hsome

end Rdix.Sched
