/-
  Cells shared copy on write, with a reference count for each.

  Owners hold cells at places, to read or also to write.  `Counted` ties the counts to what is
  held:

  * a count is the number of holders, so that a cell with count 0 is held by nobody;
  * who may write to a cell is its only holder;
  * all holders of a cell hold it at one place.

  It is kept by taking a cell, sharing, dropping and reuse, and `view`, what an owner reads at a
  place, changes only there (`view_take` .. `view_write`).
-/
import Mathlib

namespace Cow

open Function

set_option linter.unusedSectionVars false

/-- What the owners hold at the places: a cell, and whether they may write to it. -/
abbrev Holds (κ π φ : Type*) := κ × π → Option (φ × Bool)

variable {κ π φ β : Type*} [DecidableEq κ] [DecidableEq π] [DecidableEq φ]

/-- What is read: the contents of the cell. -/
def view (data : φ → β) (M : Holds κ π φ) (x : κ × π) : Option β := (M x).map fun c => data c.1

section View
variable {data : φ → β} {M : Holds κ π φ} {x y : κ × π} {f : φ} {w : Bool} {b : β}

theorem view_of_held (data : φ → β) (h : M x = some (f, w)) : view data M x = some (data f) := by
  rw [view, h, Option.map_some]

theorem view_drop : view data (update M x none) = update (view data M) x none := by
  ext1 z
  by_cases hz : z = x
  · rw [hz, view, update_self, update_self, Option.map_none]
  · rw [view, update_of_ne hz, update_of_ne hz, view]

/-- A filled cell that nobody else holds. -/
theorem view_take (data : φ → β) (b : β) (h : ∀ z w, z ≠ x → M z ≠ some (f, w)) :
    view (update data f b) (update M x (some (f, w))) = update (view data M) x (some b) := by
  ext1 z
  by_cases hz : z = x
  · rw [hz, view, update_self, update_self, Option.map_some, update_self]
  · rw [view, update_of_ne hz, update_of_ne hz, view]
    cases hc : M z with
    | none => rfl
    | some c =>
      have hne : c.1 ≠ f := by
        rintro rfl
        exact h z c.2 hz hc
      rw [Option.map_some, Option.map_some, update_of_ne hne]

/-- The right to write is not read. -/
theorem view_right (h : M x = some (f, w)) (w' : Bool) :
    view data (update M x (some (f, w'))) = view data M := by
  ext1 z
  by_cases hz : z = x
  · rw [hz, view, update_self, Option.map_some, view_of_held data h]
  · rw [view, update_of_ne hz, view]

/-- A cell that nobody holds may be filled. -/
theorem view_fill (h : ∀ z w, M z ≠ some (f, w)) : view (update data f b) M = view data M := by
  ext1 z
  unfold view
  cases hz : M z with
  | none => rfl
  | some c =>
    have hne : c.1 ≠ f := by
      rintro rfl
      exact h z c.2 hz
    rw [Option.map_some, Option.map_some, update_of_ne hne]

/-- The only holder of a cell writes to it. -/
theorem view_write (h : M x = some (f, w)) (hu : ∀ z w, M z = some (f, w) → z = x) :
    view (update data f b) M = update (view data M) x (some b) := by
  ext1 z
  by_cases hz : z = x
  · rw [hz, update_self, view_of_held _ h, update_self]
  · rw [update_of_ne hz]
    unfold view
    cases hc : M z with
    | none => rfl
    | some c =>
      have hne : c.1 ≠ f := by
        rintro rfl
        exact hz (hu z c.2 hc)
      rw [Option.map_some, Option.map_some, update_of_ne hne]

end View

variable [Fintype κ] [Fintype π]

/-- How often a cell is held. -/
def refs (M : Holds κ π φ) (f : φ) : ℕ :=
  (Finset.univ.filter fun x => (M x).map Prod.fst = some f).card

section Refs
variable {M : Holds κ π φ} {x : κ × π} {f : φ} {w : Bool}

theorem refs_update (M : Holds κ π φ) (x : κ × π) (c : Option (φ × Bool)) (g : φ) :
    refs (update M x c) g + (if (M x).map Prod.fst = some g then 1 else 0) =
      refs M g + if c.map Prod.fst = some g then 1 else 0 := by
  have hsum : ∀ N : Holds κ π φ, refs N g = (if (N x).map Prod.fst = some g then 1 else 0) +
      ∑ z ∈ Finset.univ.erase x, if (N z).map Prod.fst = some g then 1 else 0 := by
    intro N
    rw [refs, Finset.card_filter]
    exact (Finset.add_sum_erase _ _ (Finset.mem_univ x)).symm
  have hrest : ∀ z ∈ Finset.univ.erase x,
      (if (update M x c z).map Prod.fst = some g then 1 else 0) =
        if (M z).map Prod.fst = some g then 1 else 0 := by
    intro z hz
    rw [update_of_ne (Finset.ne_of_mem_erase hz)]
  rw [hsum (update M x c), hsum M, Finset.sum_congr rfl hrest, update_self]
  omega

theorem refs_take (h : M x = none) (g : φ) :
    refs (update M x (some (f, w))) g = refs M g + if f = g then 1 else 0 := by
  have := refs_update M x (some (f, w)) g
  simpa [h] using this

theorem refs_drop (h : M x = some (f, w)) (g : φ) :
    refs (update M x none) g + (if f = g then 1 else 0) = refs M g := by
  have := refs_update M x none g
  simpa [h] using this

theorem refs_right (h : M x = some (f, w)) (w' : Bool) (g : φ) :
    refs (update M x (some (f, w'))) g = refs M g := by
  have := refs_update M x (some (f, w')) g
  simpa [h] using this

theorem refs_pos (h : M x = some (f, w)) : 0 < refs M f :=
  Finset.card_pos.2 ⟨x, by simp [h]⟩

theorem not_held_of_refs (h : refs M f = 0) (x : κ × π) (w : Bool) : M x ≠ some (f, w) :=
  fun he => absurd (refs_pos he) (by omega)

theorem refs_eq_zero (h : ∀ x w, M x ≠ some (f, w)) : refs M f = 0 := by
  rw [refs, Finset.card_eq_zero, Finset.filter_eq_empty_iff]
  intro x _ hx
  obtain ⟨⟨g, w⟩, hc, rfl⟩ := Option.map_eq_some_iff.1 hx
  exact h x w hc

theorem eq_of_refs_one (h : refs M f = 1) {y : κ × π} {v : Bool} (hx : M x = some (f, w))
    (hy : M y = some (f, v)) : y = x := by
  obtain ⟨z, hz⟩ := Finset.card_eq_one.1 h
  have hmem : ∀ u v, M u = some (f, v) → u = z := by
    intro u v hu
    have : u ∈ Finset.univ.filter fun x => (M x).map Prod.fst = some f := by simp [hu]
    rw [hz] at this
    exact Finset.mem_singleton.1 this
  rw [hmem y v hy, hmem x w hx]

end Refs

/-- Places of two kinds are counted apart. -/
theorem card_filter_option {δ τ : Type*} [Fintype δ] [Fintype τ] (q : κ × δ × Option τ → Prop)
    [DecidablePred q] :
    (Finset.univ.filter q).card =
      (Finset.univ.filter fun y : κ × δ × τ => q (y.1, y.2.1, some y.2.2)).card +
        (Finset.univ.filter fun x : κ × δ => q (x.1, x.2, none)).card := by
  simp only [Finset.card_filter, Fintype.sum_prod_type, Fintype.sum_option, Finset.sum_add_distrib]
  exact add_comm _ _

/-- The counts `p` are exact for what is held.  The cells in `own` are counted here, those in
    `dom` can be allocated. -/
structure Counted (dom own : φ → Prop) (p : φ → ℕ) (M : Holds κ π φ) : Prop where
  count : ∀ f, own f → p f = refs M f
  held : ∀ x f w, M x = some (f, w) → own f
  free : ∀ f, dom f → p f = 0 → own f
  excl : ∀ x f, M x = some (f, true) → p f = 1
  place : ∀ i j s t f w v, M (i, s) = some (f, w) → M (j, t) = some (f, v) → s = t

namespace Counted
variable {dom own : φ → Prop} {p : φ → ℕ} {M : Holds κ π φ} {x y : κ × π} {f : φ} {w v : Bool}

/-- What nobody counts is free. -/
theorem not_held (H : Counted dom own p M) (h : p f = 0) (x : κ × π) (w : Bool) :
    M x ≠ some (f, w) := fun he =>
  not_held_of_refs ((H.count f (H.held x f w he)).symm.trans h) x w he

theorem pos (H : Counted dom own p M) (h : M x = some (f, w)) : 0 < p f := by
  rw [H.count f (H.held x f w h)]
  exact refs_pos h

/-- A cell with count 1 has one holder. -/
theorem holder (H : Counted dom own p M) (h1 : p f = 1) (h : M x = some (f, w))
    (hy : M y = some (f, v)) : y = x :=
  eq_of_refs_one ((H.count f (H.held x f w h)).symm.trans h1) h hy

/-- **Who may write is the only holder.** -/
theorem writer (H : Counted dom own p M) (h : M x = some (f, true)) (hy : M y = some (f, v)) :
    y = x := H.holder (H.excl x f h) h hy

/-- **A cell is held at most once by each owner.** -/
theorem le_card (H : Counted dom own p M) (ho : own f) : p f ≤ Fintype.card κ := by
  rw [H.count f ho, refs]
  refine Finset.card_le_card_of_injOn Prod.fst (fun x _ => Finset.mem_univ _) ?_
  rintro ⟨i, s⟩ hi ⟨j, t⟩ hj rfl
  obtain ⟨⟨g, w⟩, hw, rfl⟩ := Option.map_eq_some_iff.1 (Finset.mem_filter.1 hi).2
  obtain ⟨⟨g', v⟩, hv, rfl⟩ := Option.map_eq_some_iff.1 (Finset.mem_filter.1 hj).2
  rw [H.place _ _ _ _ _ _ _ hw hv]

/-- A free cell is taken. -/
theorem take (H : Counted dom own p M) (hd : dom f) (h0 : p f = 0) (hx : M x = none) :
    Counted dom own (update p f 1) (update M x (some (f, true))) := by
  have hn := H.not_held h0
  have hnew : ∀ z g w, update M x (some (f, true)) z = some (g, w) →
      z = x ∧ g = f ∨ g ≠ f ∧ M z = some (g, w) := by
    intro z g w hz
    by_cases hzx : z = x
    · rw [hzx, update_self] at hz
      cases hz
      exact Or.inl ⟨hzx, rfl⟩
    · rw [update_of_ne hzx] at hz
      exact Or.inr ⟨fun he => hn z w (he ▸ hz), hz⟩
  constructor
  · intro g hg
    rw [refs_take hx]
    by_cases hgf : f = g
    · rw [← hgf, update_self, if_pos rfl, ← H.count f (H.free f hd h0), h0]
    · rw [update_of_ne (Ne.symm hgf), if_neg hgf, H.count g hg, Nat.add_zero]
  · intro z g w hz
    rcases hnew z g w hz with ⟨-, rfl⟩ | ⟨-, hz⟩
    · exact H.free _ hd h0
    · exact H.held z g w hz
  · intro g hg h
    by_cases hgf : g = f
    · rw [hgf, update_self] at h
      cases h
    · rw [update_of_ne hgf] at h
      exact H.free g hg h
  · intro z g hz
    rcases hnew z g true hz with ⟨-, rfl⟩ | ⟨hne, hz⟩
    · exact update_self ..
    · rw [update_of_ne hne]
      exact H.excl z g hz
  · intro i j s t g w v hi hj
    rcases hnew _ _ _ hi with ⟨h1, he⟩ | ⟨hne, h1⟩ <;> rcases hnew _ _ _ hj with ⟨h2, he'⟩ | ⟨hne', h2⟩
    · exact congrArg Prod.snd (h1.trans h2.symm)
    · exact absurd he hne'
    · exact absurd he' hne
    · exact H.place i j s t g w v h1 h2

/-- A holder lets go. -/
theorem drop (H : Counted dom own p M) (hx : M x = some (f, w)) :
    Counted dom own (update p f (p f - 1)) (update M x none) := by
  have hold : ∀ z g w, update M x none z = some (g, w) → z ≠ x ∧ M z = some (g, w) := by
    intro z g w hz
    by_cases hzx : z = x
    · rw [hzx, update_self] at hz
      cases hz
    · rw [update_of_ne hzx] at hz
      exact ⟨hzx, hz⟩
  constructor
  · intro g hg
    have hr := refs_drop hx g
    by_cases hgf : f = g
    · rw [if_pos hgf] at hr
      rw [← hgf, update_self, H.count f (H.held x f w hx), hgf]
      omega
    · rw [if_neg hgf] at hr
      rw [update_of_ne (Ne.symm hgf), H.count g hg]
      omega
  · intro z g w hz
    exact H.held z g w (hold z g w hz).2
  · intro g hg h
    by_cases hgf : g = f
    · rw [hgf]
      exact H.held x f w hx
    · rw [update_of_ne hgf] at h
      exact H.free g hg h
  · intro z g hz
    obtain ⟨hzx, hz⟩ := hold z g true hz
    have hgf : g ≠ f := by
      rintro rfl
      exact hzx (H.writer hz hx).symm
    rw [update_of_ne hgf]
    exact H.excl z g hz
  · intro i j s t g w v hi hj
    exact H.place i j s t g w v (hold _ _ _ hi).2 (hold _ _ _ hj).2

/-- The right to write is given up. -/
theorem protect (H : Counted dom own p M) (hx : M x = some (f, w)) :
    Counted dom own p (update M x (some (f, false))) := by
  have hold : ∀ z g v, update M x (some (f, false)) z = some (g, v) →
      ∃ v', M z = some (g, v') ∧ (v = true → v' = true) := by
    intro z g v hz
    by_cases hzx : z = x
    · rw [hzx, update_self] at hz
      cases hz
      exact ⟨w, hzx ▸ hx, fun h => nomatch h⟩
    · rw [update_of_ne hzx] at hz
      exact ⟨v, hz, id⟩
  constructor
  · intro g hg
    rw [refs_right hx, H.count g hg]
  · intro z g v hz
    obtain ⟨v', hz, -⟩ := hold z g v hz
    exact H.held z g v' hz
  · exact H.free
  · intro z g hz
    obtain ⟨v', hz, hv⟩ := hold z g true hz
    exact H.excl z g (hv rfl ▸ hz)
  · intro i j s t g v v' hi hj
    obtain ⟨u, hi, -⟩ := hold _ _ _ hi
    obtain ⟨u', hj, -⟩ := hold _ _ _ hj
    exact H.place i j s t g u u' hi hj

/-- One more owner holds a cell that nobody may write to, at its place. -/
theorem join (H : Counted dom own p M) (hy : M y = some (f, false)) (hxy : x.2 = y.2)
    (hx : M x = none) : Counted dom own (update p f (p f + 1)) (update M x (some (f, false))) := by
  have hnew : ∀ z g w, update M x (some (f, false)) z = some (g, w) →
      M z = some (g, w) ∨ z = x ∧ g = f ∧ w = false := by
    intro z g w hz
    by_cases hzx : z = x
    · rw [hzx, update_self] at hz
      cases hz
      exact Or.inr ⟨hzx, rfl, rfl⟩
    · rw [update_of_ne hzx] at hz
      exact Or.inl hz
  have hplace : ∀ z g w, update M x (some (f, false)) z = some (g, w) →
      ∃ i w', M (i, z.2) = some (g, w') := by
    intro z g w hz
    rcases hnew z g w hz with hz | ⟨rfl, rfl, -⟩
    · exact ⟨z.1, w, hz⟩
    · exact ⟨y.1, false, hxy ▸ hy⟩
  constructor
  · intro g hg
    rw [refs_take hx]
    by_cases hgf : f = g
    · rw [if_pos hgf, ← hgf, update_self, H.count f (H.held y f false hy)]
    · rw [if_neg hgf, update_of_ne (Ne.symm hgf), H.count g hg, Nat.add_zero]
  · intro z g w hz
    obtain ⟨i, w', h⟩ := hplace z g w hz
    exact H.held _ g w' h
  · intro g hg h
    by_cases hgf : g = f
    · rw [hgf, update_self] at h
      omega
    · rw [update_of_ne hgf] at h
      exact H.free g hg h
  · intro z g hz
    rcases hnew z g true hz with hz' | ⟨-, -, h⟩
    · have hgf : g ≠ f := by
        rintro rfl
        have hyz := H.writer hz' hy
        rw [← hyz, hy] at hz'
        cases hz'
      rw [update_of_ne hgf]
      exact H.excl z g hz'
    · cases h
  · intro i j s t g w v hi hj
    obtain ⟨i', w', hi'⟩ := hplace _ _ _ hi
    obtain ⟨j', v', hj'⟩ := hplace _ _ _ hj
    exact H.place i' j' s t g w' v' hi' hj'

/-- The only holder may write. -/
theorem acquire (H : Counted dom own p M) (hx : M x = some (f, w)) (h1 : p f = 1) :
    Counted dom own p (update M x (some (f, true))) := by
  have hold : ∀ z g v, update M x (some (f, true)) z = some (g, v) →
      ∃ v', M z = some (g, v') ∧ (g = f ∨ v' = v) := by
    intro z g v hz
    by_cases hzx : z = x
    · rw [hzx, update_self] at hz
      cases hz
      exact ⟨w, hzx ▸ hx, Or.inl rfl⟩
    · rw [update_of_ne hzx] at hz
      exact ⟨v, hz, Or.inr rfl⟩
  constructor
  · intro g hg
    rw [refs_right hx, H.count g hg]
  · intro z g v hz
    obtain ⟨v', hz, -⟩ := hold z g v hz
    exact H.held z g v' hz
  · exact H.free
  · intro z g hz
    obtain ⟨v', hz, rfl | rfl⟩ := hold z g true hz
    · exact h1
    · exact H.excl z g hz
  · intro i j s t g v v' hi hj
    obtain ⟨u, hi, -⟩ := hold _ _ _ hi
    obtain ⟨u', hj, -⟩ := hold _ _ _ hj
    exact H.place i j s t g u u' hi hj

end Counted

end Cow
