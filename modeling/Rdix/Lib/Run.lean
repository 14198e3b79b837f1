/-
  Transition systems: reachable states, invariants and forward simulation.

  * `Sys` is a labelled transition system, `Sys.Reach` its reachable states;
  * `Reach.invariant` is the induction over a run, packaged once;
  * `Sys.restrict` keeps the steps that meet a condition, for results about the
    runs all of whose steps meet it;
  * `Sim.reach` carries a forward simulation through whole runs.
-/
import Mathlib

namespace Transition

variable {σ τ α : Type*}

/-- A labelled transition system: its initial states and its steps. -/
structure Sys (σ α : Type*) where
  init : σ → Prop
  step : σ → α → σ → Prop

namespace Sys

/-- The states some finite run leads to. -/
inductive Reach (S : Sys σ α) : σ → Prop where
  | init {s : σ} : S.init s → Reach S s
  | step {s t : σ} {a : α} : Reach S s → S.step s a t → Reach S t

/-- The system with only the steps that meet `C`. -/
def restrict (S : Sys σ α) (C : σ → α → Prop) : Sys σ α where
  init := S.init
  step s a t := C s a ∧ S.step s a t

variable {S : Sys σ α}

/-- **An invariant that holds initially and is kept by each step holds in every reachable state.** -/
theorem Reach.invariant {I : σ → Prop} (h₀ : ∀ s, S.init s → I s)
    (h₁ : ∀ s a t, I s → S.step s a t → I t) {s : σ} (h : S.Reach s) : I s := by
  induction h with
  | init hs => exact h₀ _ hs
  | step _ ht ih => exact h₁ _ _ _ ih ht

/-- A run whose steps meet a condition is a run. -/
theorem Reach.of_restrict {C : σ → α → Prop} {s : σ} (h : (S.restrict C).Reach s) :
    S.Reach s := by
  induction h with
  | init hs => exact .init hs
  | step _ ht ih => exact .step ih ht.2

/-- A run under a condition is one under a weaker condition. -/
theorem Reach.restrict_mono {C D : σ → α → Prop} (hCD : ∀ s a, C s a → D s a) {s : σ}
    (h : (S.restrict C).Reach s) : (S.restrict D).Reach s := by
  induction h with
  | init hs => exact .init hs
  | step _ ht ih => exact .step ih ⟨hCD _ _ ht.1, ht.2⟩

end Sys

/-- `R` is a forward simulation of `S` by `A` under the labels' image `f`. -/
structure Sim {β : Type*} (S : Sys σ α) (A : Sys τ β) (f : α → β) (R : σ → τ → Prop) : Prop where
  init : ∀ s, S.init s → ∃ t, A.init t ∧ R s t
  step : ∀ s a s' t, R s t → S.step s a s' → ∃ t', A.step t (f a) t' ∧ R s' t'

/-- **A simulation relates every reachable state to a reachable abstract one.** -/
theorem Sim.reach {β : Type*} {S : Sys σ α} {A : Sys τ β} {f : α → β} {R : σ → τ → Prop}
    (H : Sim S A f R) {s : σ} (h : S.Reach s) : ∃ t, A.Reach t ∧ R s t := by
  induction h with
  | init hs =>
    obtain ⟨t, ht, hR⟩ := H.init _ hs
    exact ⟨t, .init ht, hR⟩
  | step _ hst ih =>
    obtain ⟨t, ht, hR⟩ := ih
    obtain ⟨t', ht', hR'⟩ := H.step _ _ _ _ hR hst
    exact ⟨t', .step ht ht', hR'⟩

end Transition
