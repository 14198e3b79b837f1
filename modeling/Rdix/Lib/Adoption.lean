/-
  Families: who has which parent, when members die before their children and are removed later.

  * `Rooted`: every parent is alive, and the way up ends at the root;
  * `Rooted.leaf`, `Rooted.leave`, `Rooted.die`, `Rooted.remove`: a new member; a member whose
    children come to its own parent, and its death; the removal of a dead member.
-/
import Mathlib

namespace Adoption

open Function

variable {ι : Type*} {parent : ι → Option ι} {alive : ι → Prop} {root : ι}

/-- The members have living parents; `rank` bounds the way up to the root, its own parent. -/
structure Rooted (parent : ι → Option ι) (alive : ι → Prop) (root : ι) : Prop where
  root_alive : alive root
  root_parent : parent root = some root
  member : ∀ i, alive i → parent i ≠ none
  parent_alive : ∀ i p, parent i = some p → alive p
  ranked : ∃ rank : ι → ℕ, ∀ i p, parent i = some p → i ≠ root → rank p < rank i

namespace Rooted

/-- Only the root is its own parent. -/
theorem parent_ne (h : Rooted parent alive root) {i p : ι} (hp : parent i = some p)
    (hi : i ≠ root) : p ≠ i := by
  obtain ⟨rank, hr⟩ := h.ranked
  rintro rfl
  exact absurd (hr p p hp hi) (lt_irrefl _)

theorem congr {parent' : ι → Option ι} {alive' : ι → Prop} (h : Rooted parent alive root)
    (hp : ∀ i, parent' i = parent i) (ha : ∀ i, alive' i ↔ alive i) :
    Rooted parent' alive' root := by
  obtain rfl : parent' = parent := funext hp
  obtain rfl : alive' = alive := funext fun i => propext (ha i)
  exact h

variable [DecidableEq ι]

theorem single (root : ι) : Rooted (update (fun _ => none) root (some root)) (· = root) root where
  root_alive := rfl
  root_parent := update_self ..
  member i hi := by
    rw [hi, update_self]
    exact Option.some_ne_none _
  parent_alive i p hp := by
    by_cases hi : i = root
    · rw [hi, update_self] at hp
      exact (Option.some.inj hp).symm
    · rw [update_of_ne hi] at hp
      cases hp
  ranked := by
    refine ⟨fun _ => 0, fun i p hp hi => ?_⟩
    rw [update_of_ne hi] at hp
    cases hp

/-- **A new member** of a living parent. -/
theorem leaf (h : Rooted parent alive root) {i p : ι} (hi : parent i = none) (hp : alive p) :
    Rooted (update parent i (some p)) (fun j => j = i ∨ alive j) root := by
  have hroot : root ≠ i := by
    rintro rfl
    rw [h.root_parent] at hi
    cases hi
  have hnone : ∀ j, parent j ≠ some i := fun j hj => h.member i (h.parent_alive j i hj) hi
  obtain ⟨rank, hr⟩ := h.ranked
  refine ⟨Or.inr h.root_alive, by rw [update_of_ne hroot, h.root_parent], fun j hj => ?_,
    fun j q hq => ?_, update rank i (rank p + 1), fun j q hq hj => ?_⟩
  · by_cases hji : j = i
    · rw [hji, update_self]
      exact Option.some_ne_none _
    · rw [update_of_ne hji]
      exact h.member j (hj.resolve_left hji)
  · by_cases hji : j = i
    · rw [hji, update_self] at hq
      exact Or.inr (Option.some.inj hq ▸ hp)
    · rw [update_of_ne hji] at hq
      exact Or.inr (h.parent_alive j q hq)
  · by_cases hji : j = i
    · have hpi : p ≠ i := fun he => h.member p hp (he ▸ hi)
      rw [hji, update_self] at hq
      obtain rfl := Option.some.inj hq
      rw [hji, update_self, update_of_ne hpi]
      exact Nat.lt_succ_self _
    · rw [update_of_ne hji] at hq
      have hqi : q ≠ i := fun he => hnone j (he ▸ hq)
      rw [update_of_ne hji, update_of_ne hqi]
      exact hr j q hq hj

/-- **The children of a member** come to its parent. -/
theorem leave (h : Rooted parent alive root) {x : ι} (hx : x ≠ root) :
    Rooted (fun j => if parent j = some x then parent x else parent j) alive root := by
  obtain ⟨rank, hr⟩ := h.ranked
  refine ⟨h.root_alive, ?_, fun j hj => ?_, fun j q hq => ?_, rank, fun j q hq hj => ?_⟩
  · rw [h.root_parent, if_neg]
    exact fun he => hx (Option.some.inj he).symm
  · split_ifs with hjx
    · exact h.member x (h.parent_alive j x hjx)
    · exact h.member j hj
  · split_ifs at hq with hjx
    · exact h.parent_alive x q hq
    · exact h.parent_alive j q hq
  · split_ifs at hq with hjx
    · exact (hr x q hq hx).trans (hr j x hjx hj)
    · exact hr j q hq hj

/-- **A death**, after which the dead member is nobody's parent. -/
theorem die (h : Rooted parent alive root) {x : ι} (hx : x ≠ root) :
    Rooted (fun j => if parent j = some x then parent x else parent j)
      (fun j => alive j ∧ j ≠ x) root := by
  have hl := h.leave hx
  refine ⟨⟨h.root_alive, hx.symm⟩, hl.root_parent, fun j hj => hl.member j hj.1, fun j q hq => ?_,
    hl.ranked⟩
  refine ⟨hl.parent_alive j q hq, ?_⟩
  split_ifs at hq with hjx
  · exact h.parent_ne hq hx
  · exact fun he => hjx (he ▸ hq)

/-- **The removal** of a dead member: it is nobody's parent. -/
theorem remove (h : Rooted parent alive root) {x : ι} (hx : ¬ alive x) :
    Rooted (update parent x none) alive root := by
  have hne : ∀ j, alive j → j ≠ x := fun j hj he => hx (he ▸ hj)
  obtain ⟨rank, hr⟩ := h.ranked
  have hback : ∀ j q, update parent x none j = some q → parent j = some q := by
    intro j q hq
    by_cases hj : j = x
    · rw [hj, update_self] at hq
      cases hq
    · rwa [update_of_ne hj] at hq
  refine ⟨h.root_alive, ?_, fun j hj => ?_, fun j q hq => ?_, rank, fun j q hq hj => ?_⟩
  · rw [update_of_ne (hne root h.root_alive), h.root_parent]
  · rw [update_of_ne (hne j hj)]
    exact h.member j hj
  · exact h.parent_alive j q (hback j q hq)
  · exact hr j q (hback j q hq) hj

end Rooted

end Adoption
