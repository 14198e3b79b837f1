/-
  Tables with a fixed number of slots that are filled from the front.

  * `Represents`: the slots hold the entries of a list, and behind them what a free slot holds;
  * `Represents.firstFree`: the search for a free slot;
  * `Represents.append`: an entry goes into the first free slot;
  * `Represents.scan`: the search for the `k`-th entry that matches.
-/
import Mathlib

namespace Slots

variable {α : Type*} {n : ℕ}

/-- The table holds the entries of `l`, and `blank` behind them. -/
structure Represents (blank t : Fin n → α) (l : List α) : Prop where
  length_le : l.length ≤ n
  slot : ∀ i : Fin n, t i = l.getD i (blank i)

/-- The first slot whose entry is free. -/
def firstFree (free : α → Bool) (t : Fin n → α) : Option (Fin n) :=
  (List.finRange n).find? fun i => free (t i)

theorem free_of_firstFree {free : α → Bool} {t : Fin n → α} {i : Fin n} (h : firstFree free t = some i) :
    free (t i) = true :=
  List.find?_some (p := fun i => free (t i)) h

/-- The slot of the `k`-th entry that matches, among `is`. -/
def scan (p : α → Bool) (t : Fin n → α) : ℕ → List (Fin n) → Option (Fin n)
  | _, [] => none
  | k, i :: is =>
    if p (t i) then (if k = 0 then some i else scan p t (k - 1) is) else scan p t k is

section Represents
variable {blank t : Fin n → α} {l : List α} {a : α} {p free : α → Bool} {i : Fin n}

theorem represents_nil : Represents blank blank [] :=
  ⟨Nat.zero_le n, fun _ => rfl⟩

theorem Represents.used (h : Represents blank t l) (hi : l[i.val]? = some a) : t i = a := by
  rw [h.slot, List.getD_eq_getElem?_getD, hi, Option.getD_some]

theorem Represents.unused (h : Represents blank t l) (hi : l.length ≤ i) : t i = blank i := by
  rw [h.slot, List.getD_eq_default _ _ hi]

/-- An entry that is not one of a free slot is one of the list. -/
theorem Represents.mem (h : Represents blank t l) (hp : p (t i) = true)
    (hb : ∀ i, p (blank i) = false) : l[i.val]? = some (t i) := by
  rcases Nat.lt_or_ge i l.length with hi | hi
  · rw [h.used (List.getElem?_eq_getElem hi), List.getElem?_eq_getElem hi]
  · rw [h.unused hi, hb] at hp
    cases hp

/-- **The first free slot is the one behind the entries.** -/
theorem Represents.firstFree (h : Represents blank t l) (hl : ∀ a ∈ l, free a = false)
    (hb : ∀ i, free (blank i) = true) :
    Slots.firstFree free t = if hn : l.length < n then some ⟨l.length, hn⟩ else none := by
  have hused {j : Fin n} (hj : j.val < l.length) : free (t j) = false := by
    rw [h.used (List.getElem?_eq_getElem hj)]
    exact hl _ (List.getElem_mem hj)
  split_ifs with hn
  · refine List.find?_eq_some_iff_getElem.2 ⟨?_, l.length, by simpa using hn, by simp, fun j hj => ?_⟩
    · rw [h.unused le_rfl]
      exact hb _
    · simp only [List.getElem_finRange, Fin.cast_mk]
      rw [hused hj]
      rfl
  · refine List.find?_eq_none.2 fun j _ => ?_
    rw [hused (j.isLt.trans_le (Nat.not_lt.1 hn))]
    simp

/-- **An entry goes into the first free slot.** -/
theorem Represents.append (h : Represents blank t l) (hn : l.length < n) (a : α) :
    Represents blank (Function.update t ⟨l.length, hn⟩ a) (l ++ [a]) := by
  refine ⟨by simpa using hn, fun i => ?_⟩
  by_cases hi : i = ⟨l.length, hn⟩
  · rw [hi, Function.update_self, List.getD_eq_getElem?_getD, List.getElem?_concat_length,
      Option.getD_some]
  · rw [Function.update_of_ne hi, h.slot, List.getD_eq_getElem?_getD, List.getD_eq_getElem?_getD]
    have hne : i.val ≠ l.length := fun he => hi (Fin.ext he)
    rcases Nat.lt_or_gt_of_ne hne with hlt | hgt
    · rw [List.getElem?_append_left hlt]
    · rw [List.getElem?_eq_none hgt.le, List.getElem?_eq_none (by simp; omega)]

theorem scan_map (p : α → Bool) (t : Fin n → α) (k : ℕ) (is : List (Fin n)) :
    (scan p t k is).map t = ((is.map t).filter p)[k]? := by
  induction is generalizing k with
  | nil => rfl
  | cons i is ih =>
    rw [scan, List.map_cons, List.filter_cons]
    by_cases hp : p (t i) = true
    · rw [if_pos hp, if_pos hp]
      cases k with
      | zero => rfl
      | succ k => rw [if_neg (Nat.succ_ne_zero k), Nat.succ_sub_one, ih, List.getElem?_cons_succ]
    · rw [if_neg hp, if_neg hp, ih]

/-- The table, slot after slot. -/
theorem Represents.map_finRange (h : Represents blank t l) :
    (List.finRange n).map t = l ++ ((List.finRange n).drop l.length).map blank := by
  refine List.ext_getElem? fun i => ?_
  rw [List.getElem?_map, List.getElem?_append]
  by_cases hin : i < n
  · have hi : (List.finRange n)[i]? = some ⟨i, hin⟩ := by
      rw [List.getElem?_eq_getElem (by simpa using hin), List.getElem_finRange]
      rfl
    rw [hi, Option.map_some]
    split_ifs with hl
    · rw [List.getElem?_eq_getElem hl, h.used (List.getElem?_eq_getElem hl)]
    · rw [List.getElem?_map, List.getElem?_drop, Nat.add_sub_cancel' (Nat.not_lt.1 hl), hi,
        Option.map_some, h.unused (Nat.not_lt.1 hl)]
  · have hle := h.length_le
    rw [if_neg (by omega), List.getElem?_eq_none (by simpa using hin),
      List.getElem?_eq_none (by simp; omega)]
    rfl

/-- **The search finds the `k`-th entry that matches.** -/
theorem Represents.scan (h : Represents blank t l) (hb : ∀ i, p (blank i) = false) (k : ℕ) :
    (Slots.scan p t k (List.finRange n)).map t = (l.filter p)[k]? := by
  have hnil : (((List.finRange n).drop l.length).map blank).filter p = [] := by
    rw [List.filter_eq_nil_iff]
    intro a ha
    obtain ⟨i, -, rfl⟩ := List.mem_map.1 ha
    simp [hb i]
  rw [scan_map, h.map_finRange, List.filter_append, hnil, List.append_nil]

end Represents

end Slots
