/-
  Requests with timers, one in flight at a time.

  A reply may come late, and a timer gives up what is in flight when it runs out.

  * `History`: the request in flight, and the history of issues, replies and timers;
  * `Step`: a reply is taken only if the timer of its request has not run out;
  * `Inv.in_flight`: then the reply is for the request in flight;
  * `inv_reach`: the invariant of every run.
-/
import Rdix.Lib.Run

namespace Requests

open Transition

/-- `pending` are the requests without a reply, and `expired` records of each timer that has run
    out its request and what it has given up. -/
@[ext]
structure History (ι : Type*) where
  current : Option ι
  issued : Set ι
  pending : Set ι
  handled : Set ι
  expired : List (ι × Option ι)

variable {ι : Type*}

namespace History
variable (x : History ι)

/-- The timer of `i` has run out. -/
def Late (i : ι) : Prop := ∃ e ∈ x.expired, e.1 = i

def new : History ι := ⟨none, ∅, ∅, ∅, []⟩

def issue (i : ι) : History ι :=
  { x with current := some i, issued := insert i x.issued, pending := insert i x.pending }

def handle (i : ι) : History ι :=
  { x with current := none, pending := x.pending \ {i}, handled := insert i x.handled }

def expire (i : ι) : History ι :=
  { x with current := none, expired := (i, x.current) :: x.expired }

end History

inductive Op (ι : Type*) where
  | issue (i : ι)
  | handle (i : ι)
  | expire (i : ι)
  | idle

inductive Step (x : History ι) : Op ι → History ι → Prop where
  | issue {i} : x.current = none → i ∉ x.issued → Step x (.issue i) (x.issue i)
  | handle {i} : i ∈ x.pending → ¬ x.Late i → Step x (.handle i) (x.handle i)
  | expire {i} : x.current = some i → Step x (.expire i) (x.expire i)
  | idle : Step x .idle x

def requestSys : Sys (History ι) (Op ι) where
  init x := x = .new
  step := Step

structure Inv (x : History ι) : Prop where
  pending : ∀ i ∈ x.pending, i ∈ x.issued ∧ i ∉ x.handled
  handled : ∀ i ∈ x.handled, i ∈ x.issued
  /-- a request ends by its reply or by its timer -/
  settled : ∀ i ∈ x.issued, i ∈ x.handled ∨ x.Late i ∨ x.current = some i
  current : ∀ i, x.current = some i → i ∈ x.issued ∧ ¬ x.Late i
  /-- a timer gives up its own request only -/
  own : ∀ e ∈ x.expired, ∀ i, e.2 = some i → i = e.1
  late : ∀ i, x.Late i → i ∈ x.issued
  nodup : (x.expired.map Prod.fst).Nodup

section Steps
variable {x x' : History ι} {i j : ι} {op : Op ι}

theorem inv_new : Inv (.new : History ι) where
  pending i hi := absurd hi (Set.notMem_empty i)
  handled i hi := absurd hi (Set.notMem_empty i)
  settled i hi := absurd hi (Set.notMem_empty i)
  current i hi := by cases hi
  own e he := by cases he
  late := by
    rintro i ⟨e, he, -⟩
    cases he
  nodup := List.nodup_nil

/-- **A reply that is not late is for the request in flight.** -/
theorem Inv.in_flight (h : Inv x) (hi : i ∈ x.pending) (hl : ¬ x.Late i) : x.current = some i := by
  obtain ⟨hissued, hnot⟩ := h.pending i hi
  rcases h.settled i hissued with hh | hh | hh
  · exact absurd hh hnot
  · exact absurd hh hl
  · exact hh

theorem Inv.issue (h : Inv x) (hc : x.current = none) (hi : i ∉ x.issued) : Inv (x.issue i) where
  pending := by
    rintro j (rfl | hj)
    · exact ⟨Or.inl rfl, fun hh => hi (h.handled j hh)⟩
    · exact ⟨Or.inr (h.pending j hj).1, (h.pending j hj).2⟩
  handled j hj := Or.inr (h.handled j hj)
  settled := by
    rintro j (rfl | hj)
    · exact Or.inr (Or.inr rfl)
    · rcases h.settled j hj with hh | hh | hh
      · exact Or.inl hh
      · exact Or.inr (Or.inl hh)
      · rw [hc] at hh
        cases hh
  current := by
    rintro j ⟨⟩
    exact ⟨Or.inl rfl, fun hl => hi (h.late i hl)⟩
  own := h.own
  late j hj := Or.inr (h.late j hj)
  nodup := h.nodup

theorem Inv.handle (h : Inv x) (hi : i ∈ x.pending) (hl : ¬ x.Late i) : Inv (x.handle i) where
  pending := by
    rintro j ⟨hj, hji⟩
    refine ⟨(h.pending j hj).1, ?_⟩
    rintro (rfl | hh)
    · exact hji rfl
    · exact (h.pending j hj).2 hh
  handled := by
    rintro j (rfl | hj)
    · exact (h.pending j hi).1
    · exact h.handled j hj
  settled j hj := by
    rcases h.settled j hj with hh | hh | hh
    · exact Or.inl (Or.inr hh)
    · exact Or.inr (Or.inl hh)
    · rw [h.in_flight hi hl] at hh
      cases hh
      exact Or.inl (Or.inl rfl)
  current j hj := by cases hj
  own := h.own
  late := h.late
  nodup := h.nodup

theorem late_expire : (x.expire i).Late j ↔ j = i ∨ x.Late j := by
  constructor
  · rintro ⟨e, he, rfl⟩
    rcases List.mem_cons.1 he with rfl | he
    · exact Or.inl rfl
    · exact Or.inr ⟨e, he, rfl⟩
  · rintro (rfl | ⟨e, he, rfl⟩)
    · exact ⟨_, List.mem_cons_self, rfl⟩
    · exact ⟨e, List.mem_cons_of_mem _ he, rfl⟩

theorem Inv.expire (h : Inv x) (hc : x.current = some i) : Inv (x.expire i) where
  pending := h.pending
  handled := h.handled
  settled j hj := by
    rcases h.settled j hj with hh | hh | hh
    · exact Or.inl hh
    · exact Or.inr (Or.inl (late_expire.2 (Or.inr hh)))
    · rw [hc] at hh
      cases hh
      exact Or.inr (Or.inl (late_expire.2 (Or.inl rfl)))
  current j hj := by cases hj
  own e he j hj := by
    rcases List.mem_cons.1 he with rfl | he
    · cases hc.symm.trans hj
      rfl
    · exact h.own e he j hj
  late j hj := by
    rcases late_expire.1 hj with rfl | hj
    · exact (h.current j hc).1
    · exact h.late j hj
  nodup := by
    refine List.nodup_cons.2 ⟨fun hi => (h.current i hc).2 ?_, h.nodup⟩
    exact List.mem_map.1 hi

/-- **Every step keeps the invariant.** -/
theorem Inv.step (h : Inv x) (hs : Step x op x') : Inv x' := by
  cases hs with
  | issue hc hi => exact h.issue hc hi
  | handle hi hl => exact h.handle hi hl
  | expire hc => exact h.expire hc
  | idle => exact h

theorem inv_reach (h : requestSys.Reach x) : Inv x :=
  h.invariant (fun _ hx => hx ▸ inv_new) fun _ _ _ hi => hi.step

end Steps

end Requests
