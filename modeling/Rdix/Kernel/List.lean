/-
  Lists (kernel/list.c), as the sequences of the nodes from `end.next` to `end.previous`.

  * `listInsert` is `list_insert`; with `greater` it keeps a sorted list sorted, and a node comes
    behind those of an equal value;
  * `nextOf` and `prevOf` are the neighbours of a node, `none` standing for `end`.
-/
import Mathlib

namespace Rdix

/-- `greater`, the comparison that `list_insert` is called with. -/
def greater (a b : ℕ) : Bool := a > b

section Insert
variable {α : Type} (value : α → ℕ) (cmp : ℕ → ℕ → Bool) (node : α)

/-- `list_insert`: before the first node that `cmp` puts behind the new one, else at the back. -/
def listInsert : List α → List α
  | [] => [node]
  | iter :: rest =>
    if cmp (value iter) (value node) then node :: iter :: rest else iter :: listInsert rest

theorem listInsert_perm (l : List α) : (listInsert value cmp node l).Perm (node :: l) := by
  induction l with
  | nil => exact .refl _
  | cons x l ih =>
    unfold listInsert
    split
    · exact .refl _
    · exact (ih.cons x).trans (.swap node x l)

@[simp] theorem mem_listInsert {l : List α} {x : α} :
    x ∈ listInsert value cmp node l ↔ x = node ∨ x ∈ l := by
  rw [(listInsert_perm value cmp node l).mem_iff, List.mem_cons]

/-- The others keep their order. -/
theorem listInsert_erase [DecidableEq α] {l : List α} (h : node ∉ l) :
    (listInsert value cmp node l).erase node = l := by
  induction l with
  | nil => simp [listInsert]
  | cons x l ih =>
    rw [List.mem_cons, not_or] at h
    unfold listInsert
    split
    · exact List.erase_cons_head ..
    · rw [List.erase_cons_tail (by simpa using Ne.symm h.1), ih h.2]

/-- Insertion with `greater` keeps the ascending order. -/
theorem listInsert_sorted {l : List α} (h : l.Pairwise fun a b => value a ≤ value b) :
    (listInsert value greater node l).Pairwise fun a b => value a ≤ value b := by
  induction l with
  | nil => simp [listInsert]
  | cons x l ih =>
    rw [List.pairwise_cons] at h
    unfold listInsert
    by_cases hc : greater (value x) (value node) = true
    · have hx : value node < value x := by simpa [greater] using hc
      rw [if_pos hc]
      refine List.pairwise_cons.2 ⟨fun y hy => ?_, List.pairwise_cons.2 h⟩
      rcases List.mem_cons.1 hy with rfl | hy
      · exact Nat.le_of_lt hx
      · exact Nat.le_trans (Nat.le_of_lt hx) (h.1 y hy)
    · have hx : value x ≤ value node := by simpa [greater] using hc
      rw [if_neg hc]
      refine List.pairwise_cons.2 ⟨fun y hy => ?_, ih h.2⟩
      rcases (mem_listInsert value greater node).1 hy with rfl | hy
      · exact hx
      · exact h.1 y hy

/-- In an ascending list the new node stands behind the nodes of an equal value. -/
theorem listInsert_split {l : List α} (h : l.Pairwise fun a b => value a ≤ value b) :
    ∃ before after, l = before ++ after ∧
      listInsert value greater node l = before ++ node :: after ∧
      (∀ a ∈ before, value a ≤ value node) ∧ ∀ a ∈ after, value node < value a := by
  induction l with
  | nil => exact ⟨[], [], rfl, rfl, by simp, by simp⟩
  | cons x l ih =>
    obtain ⟨hx, hl⟩ := List.pairwise_cons.1 h
    unfold listInsert
    by_cases hc : greater (value x) (value node) = true
    · have hlt : value node < value x := by simpa [greater] using hc
      rw [if_pos hc]
      refine ⟨[], x :: l, rfl, rfl, by simp, fun a ha => ?_⟩
      rcases List.mem_cons.1 ha with rfl | ha
      · exact hlt
      · exact hlt.trans_le (hx a ha)
    · have hle : value x ≤ value node := by simpa [greater] using hc
      obtain ⟨before, after, rfl, he, hbefore, hafter⟩ := ih hl
      rw [if_neg hc, he]
      refine ⟨x :: before, after, rfl, rfl, fun a ha => ?_, hafter⟩
      rcases List.mem_cons.1 ha with rfl | ha
      · exact hle
      · exact hbefore a ha

end Insert

section Neighbours
variable {α : Type} [DecidableEq α]

/-- `node->next`, or `none` if that is the list's `end`. -/
def nextOf (l : List α) (x : α) : Option α := (l.dropWhile (· ≠ x)).tail.head?

/-- `node->previous`, or `none` if that is the list's `end`. -/
def prevOf (l : List α) (x : α) : Option α := (l.takeWhile (· ≠ x)).getLast?

theorem mem_of_nextOf {l : List α} {x y : α} (h : nextOf l x = some y) : y ∈ l :=
  (List.dropWhile_sublist _).subset (List.mem_of_mem_tail (List.mem_of_head? h))

theorem mem_of_prevOf {l : List α} {x y : α} (h : prevOf l x = some y) : y ∈ l :=
  (List.takeWhile_sublist _).subset (List.mem_of_getLast? h)

theorem ne_of_prevOf {l : List α} {x y : α} (h : prevOf l x = some y) : y ≠ x := by
  simpa using List.mem_takeWhile_imp (List.mem_of_getLast? h)

/-- A duplicate-free list around one of its members. -/
theorem nextOf_append {p q : List α} {x : α} (h : x ∉ p) :
    nextOf (p ++ x :: q) x = q.head? := by
  induction p with
  | nil => simp [nextOf]
  | cons a p ih =>
    have ha : a ≠ x := fun he => h (by simp [he])
    simpa [nextOf, List.dropWhile_cons, ha] using ih fun hx => h (by simp [hx])

theorem prevOf_append {p q : List α} {x : α} (h : x ∉ p) :
    prevOf (p ++ x :: q) x = p.getLast? := by
  have : (p ++ x :: q).takeWhile (· ≠ x) = p := by
    have hne : ∀ a ∈ p, decide (a ≠ x) = true := fun a ha => by
      rw [decide_eq_true_eq]; rintro rfl; exact h ha
    rw [List.takeWhile_append_of_pos hne]
    simp
  rw [prevOf, this]

theorem ne_of_nextOf {l : List α} (hl : l.Nodup) {x y : α} (hx : x ∈ l)
    (h : nextOf l x = some y) : y ≠ x := by
  obtain ⟨p, q, rfl⟩ := List.append_of_mem hx
  have hp : x ∉ p := fun h' => by
    rw [List.nodup_append] at hl
    exact hl.2.2 x h' x (by simp) rfl
  rw [nextOf_append hp] at h
  rintro rfl
  rw [List.nodup_append, List.nodup_cons] at hl
  exact hl.2.1.1 (List.mem_of_head? h)

/-- A member without neighbours is the only one. -/
theorem eq_singleton_of_neighbours {l : List α} (hl : l.Nodup) {x : α} (hx : x ∈ l)
    (hn : nextOf l x = none) (hp : prevOf l x = none) : l = [x] := by
  obtain ⟨p, q, rfl⟩ := List.append_of_mem hx
  have hxp : x ∉ p := fun h' => by
    rw [List.nodup_append] at hl
    exact hl.2.2 x h' x (by simp) rfl
  rw [nextOf_append hxp, List.head?_eq_none_iff] at hn
  rw [prevOf_append hxp, List.getLast?_eq_none_iff] at hp
  simp [hn, hp]

end Neighbours

end Rdix
