/-
  Waiting that is bounded by a potential.

  * `Run.bounded`: if every step of those who wait takes its cost from the potential, then so does
    a run; `Run.served`: a run that costs as much as the potential has served.
-/
import Rdix.Lib.Trace

namespace Transition

variable {σ α : Type*}

namespace Sys

variable {S : Sys σ α} {cost : α → ℕ} {W : ℕ → σ → Prop} {D : σ → Prop} {s t : σ} {as : List α}
  {m : ℕ}

/-- **A run takes its cost from the potential**, or has served. -/
theorem Run.bounded
    (hstep : ∀ m s a t, W m s → S.step s a t → D t ∨ ∃ m', m' + cost a ≤ m ∧ W m' t)
    (hkeep : ∀ s a t, D s → S.step s a t → D t) (hr : S.Run s as t) (hs : W m s) :
    D t ∨ ∃ m', m' + (as.map cost).sum ≤ m ∧ W m' t := by
  induction hr with
  | nil => exact Or.inr ⟨m, by simp, hs⟩
  | @step as t u a _ hu ih =>
    rcases ih with hd | ⟨m₁, hle, hw⟩
    · exact Or.inl (hkeep _ _ _ hd hu)
    · rcases hstep m₁ t a u hw hu with hd | ⟨m₂, hle₂, hw₂⟩
      · exact Or.inl hd
      · refine Or.inr ⟨m₂, ?_, hw₂⟩
        rw [List.map_append, List.sum_append, List.map_singleton, List.sum_singleton]
        omega

/-- **A run that costs as much as the potential has served**, where nobody waits without one. -/
theorem Run.served
    (hstep : ∀ m s a t, W m s → S.step s a t → D t ∨ ∃ m', m' + cost a ≤ m ∧ W m' t)
    (hkeep : ∀ s a t, D s → S.step s a t → D t) (hpos : ∀ s, ¬ W 0 s) (hr : S.Run s as t)
    (hs : W m s) (hm : m ≤ (as.map cost).sum) : D t := by
  rcases hr.bounded hstep hkeep hs with hd | ⟨m', hle, hw⟩
  · exact hd
  · obtain rfl : m' = 0 := by omega
    exact absurd hw (hpos t)

end Sys

end Transition
