/-
  Loops that follow a function until they come to an element with a property.

  * `First next stop a k b`: from `a` on, `b` is the first element with the property, `k` turns away;
  * `First.here`, `First.step`: the two ways a turn can go;
  * `First.index_lt`: over a finite type it is found within as many turns as there are elements.
-/
import Mathlib

namespace Orbit

variable {α : Type*} {next next' : α → α} {stop stop' : α → Prop} {a b b' : α} {k k' : ℕ}

/-- `b` is the first element from `a` on with the property, `k` turns away. -/
structure First (next : α → α) (stop : α → Prop) (a : α) (k : ℕ) (b : α) : Prop where
  at_ : next^[k] a = b
  ends : stop b
  before : ∀ j < k, ¬ stop (next^[j] a)

theorem First.unique (h : First next stop a k b) (h' : First next stop a k' b') : k = k' ∧ b = b' := by
  have hk : k = k' := by
    rcases lt_trichotomy k k' with hlt | heq | hlt
    · exact absurd (h.at_ ▸ h.ends) (h'.before k hlt)
    · exact heq
    · exact absurd (h'.at_ ▸ h'.ends) (h.before k' hlt)
  subst hk
  exact ⟨rfl, h.at_.symm.trans h'.at_⟩

/-- There is a first element with the property if there is one at all. -/
theorem exists_first (h : ∃ k, stop (next^[k] a)) : ∃ k b, First next stop a k b := by
  classical
  exact ⟨Nat.find h, _, rfl, Nat.find_spec h, fun j hj => Nat.find_min h hj⟩

/-- The loop ends where it is. -/
theorem First.here (h : stop a) : First next stop a 0 a :=
  ⟨rfl, h, fun j hj => absurd hj (Nat.not_lt_zero j)⟩

/-- The loop goes on. -/
theorem First.step (ha : ¬ stop a) (h : First next stop (next a) k b) : First next stop a (k + 1) b := by
  refine ⟨h.at_, h.ends, fun j hj => ?_⟩
  cases j with
  | zero => exact ha
  | succ j => exact h.before j (Nat.lt_of_succ_lt_succ hj)

theorem first_zero_iff : First next stop a 0 b ↔ a = b ∧ stop b :=
  ⟨fun h => ⟨h.at_, h.ends⟩, fun ⟨he, h⟩ => he ▸ .here (he ▸ h)⟩

theorem first_succ_iff : First next stop a (k + 1) b ↔ ¬ stop a ∧ First next stop (next a) k b := by
  constructor
  · intro h
    exact ⟨h.before 0 (Nat.succ_pos k), h.at_, h.ends, fun j hj => h.before (j + 1) (Nat.succ_lt_succ hj)⟩
  · rintro ⟨ha, h⟩
    exact h.step ha

/-- **It is found within as many turns as there are elements.** -/
theorem First.index_lt [Fintype α] (h : First next stop a k b) : k < Fintype.card α := by
  by_contra hk
  obtain ⟨i, j, hne, heq⟩ := Fintype.exists_ne_map_eq_of_card_lt
    (fun i : Fin (k + 1) => next^[i.val] a) (by rw [Fintype.card_fin]; omega)
  wlog hlt : i.val < j.val generalizing i j
  · exact this j i hne.symm heq.symm (lt_of_le_of_ne (not_lt.1 hlt) fun he => hne (Fin.ext he).symm)
  -- from the first visit on the loop would be at the end as far as from the second one
  have hcycle : next^[k - j.val + i.val] a = b := by
    have hshift : next^[k - j.val + j.val] a = b := by
      rw [Nat.sub_add_cancel (Nat.lt_succ_iff.1 j.isLt), h.at_]
    rw [Function.iterate_add_apply] at hshift ⊢
    rw [heq, hshift]
  have hj := j.isLt
  exact h.before (k - j.val + i.val) (by omega) (hcycle ▸ h.ends)

theorem iterate_congr (h : ∀ j < k, next' (next^[j] a) = next (next^[j] a)) : next'^[k] a = next^[k] a := by
  induction k with
  | zero => rfl
  | succ k ih =>
    rw [Function.iterate_succ_apply', Function.iterate_succ_apply', ih fun j hj => h j (Nat.lt_succ_of_lt hj)]
    exact h k (Nat.lt_succ_self k)

/-- Only what the loop visits matters. -/
theorem First.congr (h : First next stop a k b) (hnext : ∀ j < k, next' (next^[j] a) = next (next^[j] a))
    (hstop : ∀ j ≤ k, stop' (next^[j] a) ↔ stop (next^[j] a)) : First next' stop' a k b := by
  have hiter (j : ℕ) (hj : j ≤ k) : next'^[j] a = next^[j] a :=
    iterate_congr fun i hi => hnext i (hi.trans_le hj)
  refine ⟨(hiter k le_rfl).trans h.at_, ?_, fun j hj hs => ?_⟩
  · rw [← h.at_]
    exact (hstop k le_rfl).2 (h.at_ ▸ h.ends)
  · rw [hiter j hj.le] at hs
    exact h.before j hj ((hstop j hj.le).1 hs)

end Orbit
