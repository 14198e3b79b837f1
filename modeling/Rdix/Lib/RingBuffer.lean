/-
  A ring of cells that is a queue: `head` is the cell in front of the first item, `tail` the one
  behind the last item, and one cell always stays free.

  * `Holds`: the ring holds a list, the oldest item first;
  * `Holds.push`, `Holds.pop`: the items go in at the one end and out at the other;
  * `Holds.empty_iff`, `Holds.full_iff`: what the two indices tell.
-/
import Mathlib

namespace RingBuffer

open Function

variable {α : Type*}

/-- The ring holds the items `q`. -/
structure Holds (cells : ℕ → α) (size head tail : ℕ) (q : List α) : Prop where
  inside : head < size
  room : q.length < size
  last : tail = (head + 1 + q.length) % size
  items : ∀ k a, q[k]? = some a → cells ((head + 1 + k) % size) = a

section Holds
variable {cells : ℕ → α} {size head tail n k m : ℕ} {q : List α} {a : α}

/-- Two cells less than one turn apart are different. -/
theorem cell_inj (hk : k < size) (hm : m < size) (h : (n + k) % size = (n + m) % size) : k = m :=
  (Nat.ModEq.add_left_cancel' n h).eq_of_lt_of_lt hk hm

theorem holds_nil (h : 1 < size) : Holds cells size 0 1 [] where
  inside := by omega
  room := by simpa using Nat.zero_lt_of_lt h
  last := (Nat.mod_eq_of_lt h).symm
  items k a hk := by simp at hk

/-- **The ring is empty when its tail is next to its head.** -/
theorem Holds.empty_iff (h : Holds cells size head tail q) : (head + 1) % size = tail ↔ q = [] := by
  rw [h.last, ← List.length_eq_zero_iff]
  constructor
  · intro he
    exact (cell_inj (Nat.zero_lt_of_lt h.room) h.room he).symm
  · intro hq
    rw [hq, Nat.add_zero]

/-- **The ring is full when its tail is its head**: all cells but one hold an item. -/
theorem Holds.full_iff (h : Holds cells size head tail q) : head = tail ↔ q.length + 1 = size := by
  have hroom := h.room
  have hhead : (head + 0) % size = head := Nat.mod_eq_of_lt h.inside
  have htail : tail = (head + (1 + q.length)) % size := by rw [h.last, Nat.add_assoc]
  constructor
  · intro he
    by_contra hne
    have hwrap : 0 = 1 + q.length := by
      refine cell_inj (n := head) (Nat.zero_lt_of_lt hroom) (by omega) ?_
      rw [hhead, ← htail, he]
    omega
  · intro hq
    rw [htail, Nat.add_comm 1, hq, Nat.add_mod_right, Nat.mod_eq_of_lt h.inside]

/-- **A new item is the last one.** -/
theorem Holds.push (h : Holds cells size head tail q) (hroom : q.length + 1 < size) (a : α) :
    Holds (update cells tail a) size head ((tail + 1) % size) (q ++ [a]) where
  inside := h.inside
  room := by simpa using hroom
  last := by
    rw [h.last, Nat.mod_add_mod, List.length_append, List.length_singleton]
    rfl
  items k b hk := by
    rcases lt_or_ge k q.length with hlt | hge
    · rw [List.getElem?_append_left hlt] at hk
      rw [update_of_ne, h.items k b hk]
      intro he
      rw [h.last] at he
      exact hlt.ne (cell_inj (hlt.trans h.room) h.room he)
    · have hlen := (List.getElem?_eq_some_iff.1 hk).1
      rw [List.length_append, List.length_singleton] at hlen
      obtain rfl : k = q.length := by omega
      rw [List.getElem?_append_right le_rfl, Nat.sub_self, List.getElem?_cons_zero] at hk
      rw [← h.last, update_self, Option.some.inj hk]

/-- **The first item goes out.** -/
theorem Holds.pop (h : Holds cells size head tail (a :: q)) :
    cells ((head + 1) % size) = a ∧ Holds cells size ((head + 1) % size) tail q := by
  have hroom := h.room
  rw [List.length_cons] at hroom
  refine ⟨h.items 0 a rfl, Nat.mod_lt _ (Nat.zero_lt_of_lt hroom), Nat.lt_of_succ_lt hroom, ?_,
    fun k b hk => ?_⟩
  · rw [h.last, List.length_cons, Nat.add_assoc (_ % size), Nat.mod_add_mod]
    congr 1
    omega
  · rw [← h.items (k + 1) b hk, Nat.add_assoc (_ % size), Nat.mod_add_mod]
    congr 2
    omega

end Holds

end RingBuffer
