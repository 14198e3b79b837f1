/-
  Runs with their labels.

  * `Sys.Run`: a run from a state, and the labels of its steps;
  * `Run.invariant`: what each step keeps, a run keeps;
  * `Run.foldl`: a value that goes with the state, and that each label changes;
  * `Sim.run`: a forward simulation takes a run to a run with the same labels.
-/
import Rdix.Lib.Run

namespace Transition

variable {σ τ α β : Type*}

/-- A run from `s` and the labels of its steps. -/
inductive Sys.Run (S : Sys σ α) (s : σ) : List α → σ → Prop where
  | nil : Run S s [] s
  | step {as : List α} {t u : σ} {a : α} : Run S s as t → S.step t a u → Run S s (as ++ [a]) u

/-- What each step keeps, a run keeps. -/
theorem Sys.Run.invariant {S : Sys σ α} {s t : σ} {as : List α} {I : σ → Prop}
    (h₁ : ∀ s a t, I s → S.step s a t → I t) (hr : S.Run s as t) (hs : I s) : I t := by
  induction hr with
  | nil => exact hs
  | step _ ht ih => exact h₁ _ _ _ ih ht

/-- **A value that goes with the state**: if each step with a label of `P` changes it by the label, a run
    changes it by its labels. -/
theorem Sys.Run.foldl {S : Sys σ α} {s t : σ} {as : List α} {P : α → Prop} {f : β → α → β}
    {R : σ → β → Prop} {b : β} (h : ∀ s a t b, R s b → P a → S.step s a t → R t (f b a))
    (hr : S.Run s as t) (hP : ∀ a ∈ as, P a) (hs : R s b) : R t (as.foldl f b) := by
  induction hr with
  | nil => exact hs
  | @step as t u a _ ht ih =>
    rw [List.foldl_append]
    exact h _ a _ _ (ih fun a' ha' => hP a' (List.mem_append_left _ ha'))
      (hP a (List.mem_append_right _ List.mem_cons_self)) ht

theorem Sys.Run.single {S : Sys σ α} {s t : σ} {a : α} (h : S.step s a t) : S.Run s [a] t := Run.nil.step h

/-- **A simulation takes a run to a run with the same labels.** -/
theorem Sim.run {S : Sys σ α} {A : Sys τ β} {f : α → β} {R : σ → τ → Prop} (H : Sim S A f R) {s s' : σ}
    {t : τ} {as : List α} (hr : S.Run s as s') (hR : R s t) :
    ∃ t', A.Run t (as.map f) t' ∧ R s' t' := by
  induction hr with
  | nil => exact ⟨t, .nil, hR⟩
  | @step as u v a _ hstep ih =>
    obtain ⟨t', ht', hR'⟩ := ih
    obtain ⟨t'', ht'', hR''⟩ := H.step _ _ _ _ hR' hstep
    refine ⟨t'', ?_, hR''⟩
    rw [List.map_append, List.map_singleton]
    exact ht'.step ht''

end Transition
