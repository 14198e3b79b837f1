/-
  Circular doubly linked lists: two functions on pointers and a sentinel.

  * `Round next prev e xs`: from the sentinel `e` the way forward is `xs`, back to `e`;
  * `Round.insert`, `Round.remove`: the writes that put a pointer between two neighbours, and that
    take it out;
  * `Round.frame`: writes elsewhere;
  * `Round.forward`, `Round.backward`: the two ways round.
-/
import Mathlib

namespace DoublyLinked

open Function

variable {P : Type*} {next prev next' prev' : P → P} {e n a b : P} {xs Y Z A B : List P}

/-- `a` and `b` are neighbours. -/
abbrev Neighbours (next prev : P → P) (a b : P) : Prop := next a = b ∧ prev b = a

/-- From the sentinel `e` round the pointers `xs`, each once. -/
structure Round (next prev : P → P) (e : P) (xs : List P) : Prop where
  nodup : (e :: xs).Nodup
  links : (e :: xs ++ [e]).IsChain (Neighbours next prev)

/-- Some pointer stands in front of a cut. -/
theorem exists_last (e : P) (xs : List P) : ∃ A a, e :: xs = A ++ [a] := by
  simpa using List.eq_nil_or_concat (e :: xs)

/-- Some pointer stands behind a cut. -/
theorem exists_first (e : P) (xs : List P) : ∃ b B, xs ++ [e] = b :: B := by
  cases xs <;> simp

namespace Round

/-- The sentinel alone. -/
theorem nil (hn : next e = e) (hp : prev e = e) : Round next prev e [] :=
  ⟨List.nodup_singleton e, List.isChain_pair.2 ⟨hn, hp⟩⟩

/-- The way round, cut between two neighbours. -/
theorem path (hA : e :: Y = A ++ [a]) (hB : Z ++ [e] = b :: B) :
    e :: (Y ++ Z) ++ [e] = A ++ a :: b :: B := by
  rw [← List.cons_append, List.append_assoc, hA, hB, List.append_assoc]
  rfl

theorem neighbours (h : Round next prev e (Y ++ Z)) (hA : e :: Y = A ++ [a])
    (hB : Z ++ [e] = b :: B) : next a = b ∧ prev b = a := by
  have hl := h.links
  rw [path hA hB, List.isChain_append_cons_cons] at hl
  exact hl.2.1

/-- The first pointer, or the sentinel. -/
theorem next_sentinel (h : Round next prev e xs) : next e = xs.head?.getD e := by
  cases xs with
  | nil => exact (h.neighbours (Y := []) (Z := []) (A := []) (B := []) rfl rfl).1
  | cons x xs => exact (h.neighbours (Y := []) (Z := x :: xs) (A := []) rfl rfl).1

/-- The last pointer, or the sentinel. -/
theorem prev_sentinel (h : Round next prev e xs) : prev e = xs.getLast?.getD e := by
  induction xs using List.reverseRecOn with
  | nil => exact (h.neighbours (Y := []) (Z := []) (A := []) (B := []) rfl rfl).2
  | append_singleton xs x =>
    rw [List.getLast?_concat]
    rw [← List.append_nil (xs ++ [x])] at h
    exact (h.neighbours (A := e :: xs) (Z := []) rfl rfl).2

/-- Links whose ends are not written. -/
theorem links_congr {l : List P} (hn : ∀ x ∈ l.dropLast, next' x = next x)
    (hp : ∀ y ∈ l.tail, prev' y = prev y) (h : l.IsChain (Neighbours next prev)) :
    l.IsChain (Neighbours next' prev') := by
  induction l with
  | nil => exact .nil
  | cons x l ih =>
    cases l with
    | nil => exact .singleton _
    | cons y l =>
      obtain ⟨⟨hxy, hyx⟩, h⟩ := List.isChain_cons_cons.1 h
      refine List.isChain_cons_cons.2 ⟨⟨?_, ?_⟩, ih (fun z hz => hn z ?_) (fun z hz => hp z ?_) h⟩
      · rw [hn x (by simp), hxy]
      · rw [hp y (by simp), hyx]
      · exact List.mem_cons_of_mem _ hz
      · exact List.mem_of_mem_tail hz

/-- **Writes to other pointers keep the circle.** -/
theorem frame (h : Round next prev e xs) (hn : ∀ x ∈ e :: xs, next' x = next x)
    (hp : ∀ x ∈ e :: xs, prev' x = prev x) : Round next' prev' e xs := by
  refine ⟨h.nodup, links_congr (fun x hx => hn x ?_) (fun x hx => hp x ?_) h.links⟩
  · rwa [List.dropLast_concat] at hx
  · rw [List.cons_append, List.tail_cons, List.mem_append, List.mem_singleton] at hx
    exact List.mem_cons.2 hx.symm

/-- The two ends of a cut are written only where they are. -/
theorem apart (h : Round next prev e (Y ++ Z)) (hA : e :: Y = A ++ [a])
    (hB : Z ++ [e] = b :: B) : a ∉ A ∧ a ∉ (b :: B).dropLast ∧ b ∉ (A ++ [a]).tail ∧ b ∉ B := by
  have hs : (A ++ a :: Z).Nodup := by
    have := h.nodup
    rwa [← List.cons_append, hA, List.append_assoc] at this
  have ht : (Y ++ b :: B).Nodup := by
    have := h.nodup
    rw [List.nodup_cons] at this
    rw [← hB, ← List.append_assoc, List.nodup_append_comm]
    simpa using this
  have hZ : (b :: B).dropLast = Z := by rw [← hB, List.dropLast_concat]
  have hY : (A ++ [a]).tail = Y := by rw [← hA, List.tail_cons]
  rw [hZ, hY]
  obtain ⟨-, ha, hd⟩ := List.nodup_append.1 hs
  obtain ⟨-, hb, hd'⟩ := List.nodup_append.1 ht
  exact ⟨fun hmem => hd a hmem a (by simp) rfl, (List.nodup_cons.1 ha).1,
    fun hmem => hd' b hmem b (by simp) rfl, (List.nodup_cons.1 hb).1⟩

theorem forward (h : Round next prev e xs) : (e :: xs ++ [e]).IsChain fun a b => next a = b :=
  h.links.imp fun _ _ hab => hab.1

theorem backward (h : Round next prev e xs) :
    (e :: xs.reverse ++ [e]).IsChain fun a b => prev a = b := by
  have hrev : (e :: xs.reverse ++ [e]) = (e :: xs ++ [e]).reverse := by simp
  rw [hrev, List.isChain_reverse]
  exact h.links.imp fun _ _ hab => hab.2

variable [DecidableEq P]

/-- **A new pointer between two neighbours.** -/
theorem insert (h : Round next prev e (Y ++ Z)) (hA : e :: Y = A ++ [a])
    (hB : Z ++ [e] = b :: B) (he : n ≠ e) (hn : n ∉ Y ++ Z) :
    Round (update (update next n b) a n) (update (update prev n a) b n) e (Y ++ n :: Z) := by
  obtain ⟨haA, haB, hbA, hbB⟩ := h.apart hA hB
  have hnA : n ∉ A ++ [a] := by
    rw [← hA, List.mem_cons, not_or]
    exact ⟨he, fun hmem => hn (List.mem_append_left _ hmem)⟩
  have hnB : n ∉ b :: B := by
    rw [← hB, List.mem_append, List.mem_singleton, not_or]
    exact ⟨fun hmem => hn (List.mem_append_right _ hmem), he⟩
  have hna : n ≠ a := fun h => hnA (by simp [h])
  have hnb : n ≠ b := fun h => hnB (by simp [h])
  have hl := h.links
  rw [path hA hB, List.isChain_append_cons_cons] at hl
  constructor
  · have hperm : (e :: (Y ++ n :: Z)).Perm (n :: e :: (Y ++ Z)) :=
      (List.perm_middle.cons e).trans (.swap n e _)
    rw [hperm.nodup_iff, List.nodup_cons, List.mem_cons, not_or]
    exact ⟨⟨he, hn⟩, h.nodup⟩
  · have hB' : n :: Z ++ [e] = n :: b :: B := by rw [List.cons_append, hB]
    rw [path hA hB', List.isChain_append_cons_cons, List.isChain_cons_cons]
    refine ⟨links_congr (fun x hx => ?_) (fun y hy => ?_) hl.1, ⟨update_self .., ?_⟩,
      ⟨?_, update_self ..⟩, links_congr (fun x hx => ?_) (fun y hy => ?_) hl.2.2⟩
    · rw [List.dropLast_concat] at hx
      rw [update_of_ne (ne_of_mem_of_not_mem hx haA),
        update_of_ne (ne_of_mem_of_not_mem (List.mem_append_left _ hx) hnA)]
    · rw [update_of_ne (ne_of_mem_of_not_mem hy hbA),
        update_of_ne (ne_of_mem_of_not_mem (List.mem_of_mem_tail hy) hnA)]
    · rw [update_of_ne hnb, update_self]
    · rw [update_of_ne hna, update_self]
    · rw [update_of_ne (ne_of_mem_of_not_mem hx haB),
        update_of_ne (ne_of_mem_of_not_mem (List.mem_of_mem_dropLast hx) hnB)]
    · rw [update_of_ne (ne_of_mem_of_not_mem hy hbB),
        update_of_ne (ne_of_mem_of_not_mem (List.mem_cons_of_mem _ hy) hnB)]

/-- **A pointer is taken out from between its neighbours**, and linked to itself. -/
theorem remove (h : Round next prev e (Y ++ n :: Z)) (hA : e :: Y = A ++ [a])
    (hB : Z ++ [e] = b :: B) :
    Round (update (update next a b) n n) (update (update prev b a) n n) e (Y ++ Z) := by
  have hB' : n :: Z ++ [e] = n :: b :: B := by rw [List.cons_append, hB]
  have hA' : e :: (Y ++ [n]) = (A ++ [a]) ++ [n] := by rw [← hA]; rfl
  have h' : Round next prev e ((Y ++ [n]) ++ Z) := by simpa using h
  obtain ⟨haA, haB, hnA', hnB⟩ := h.apart hA hB'
  obtain ⟨hnA, -, hbA, hbB⟩ := h'.apart hA' hB
  have hna : a ≠ n := fun h => hnA (by simp [h])
  have hnb : b ≠ n := fun h => hnB (by simp [h])
  have hl := h.links
  rw [path hA hB', List.isChain_append_cons_cons, List.isChain_cons_cons] at hl
  constructor
  · have hsub : (e :: (Y ++ Z)).Sublist (e :: (Y ++ n :: Z)) :=
      ((List.sublist_cons_self n Z).append_left Y).cons_cons e
    exact h.nodup.sublist hsub
  · rw [path hA hB, List.isChain_append_cons_cons]
    refine ⟨links_congr (fun x hx => ?_) (fun y hy => ?_) hl.1, ⟨?_, ?_⟩,
      links_congr (fun x hx => ?_) (fun y hy => ?_) hl.2.2.2⟩
    · rw [List.dropLast_concat] at hx
      rw [update_of_ne (ne_of_mem_of_not_mem (List.mem_append_left _ hx) hnA),
        update_of_ne (ne_of_mem_of_not_mem hx haA)]
    · have hyb : y ≠ b := by
        rintro rfl
        refine hbA ?_
        rw [List.tail_append_of_ne_nil (by simp)]
        exact List.mem_append_left _ hy
      rw [update_of_ne (ne_of_mem_of_not_mem hy hnA'), update_of_ne hyb]
    · rw [update_of_ne hna, update_self]
    · rw [update_of_ne hnb, update_self]
    · have hxa : x ≠ a := by
        rintro rfl
        rw [List.dropLast_cons_of_ne_nil (by simp)] at haB
        exact haB (List.mem_cons_of_mem _ hx)
      rw [update_of_ne (ne_of_mem_of_not_mem (List.mem_of_mem_dropLast hx) hnB), update_of_ne hxa]
    · rw [update_of_ne (ne_of_mem_of_not_mem (List.mem_cons_of_mem _ hy) hnB),
        update_of_ne (ne_of_mem_of_not_mem hy hbB)]

end Round

end DoublyLinked
