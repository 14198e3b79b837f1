/-
  A lock whose waiters are served in the order in which they came.

  * `Lock` is the lock with the calls that have been made, granted and returned;
  * `Step`: a free lock is taken, an owned one is waited for, and a release hands it to the first
    waiter;
  * `Inv`, `inv_reach`: one party at a time is inside, and the calls are granted in their order.
-/
import Rdix.Lib.Run

namespace FifoLock

open Transition

variable {τ : Type*}

/-- `calling`: a call has not returned; `inside`: between the return of a call and the release. -/
structure Lock (τ : Type*) where
  owner : Option τ
  queue : List τ
  calling : Set τ
  inside : Set τ
  calls : List τ
  grants : List τ
  returns : List τ

namespace Lock
variable (l : Lock τ) (p : τ)

def new : Lock τ := ⟨none, [], ∅, ∅, [], [], []⟩

/-- A call that returns at once. -/
def take : Lock τ :=
  { l with owner := some p, inside := insert p l.inside, calls := l.calls ++ [p]
           grants := l.grants ++ [p], returns := l.returns ++ [p] }

/-- A call that waits. -/
def wait : Lock τ :=
  { l with queue := l.queue ++ [p], calling := insert p l.calling, calls := l.calls ++ [p] }

/-- A call that has waited returns. -/
def ret : Lock τ :=
  { l with calling := l.calling \ {p}, inside := insert p l.inside, returns := l.returns ++ [p] }

/-- The lock goes to the first of the queue. -/
def release : Lock τ :=
  { l with owner := l.queue.head?, queue := l.queue.tail, inside := l.inside \ {p}
           grants := l.grants ++ l.queue.head?.toList }

end Lock

inductive Op (τ : Type*) where
  | lock (p : τ)
  | ret (p : τ)
  | unlock (p : τ)
  | idle

inductive Step (l : Lock τ) : Op τ → Lock τ → Prop where
  | take {p : τ} : p ∉ l.calling → l.owner = none → Step l (.lock p) (l.take p)
  | wait {p : τ} : p ∉ l.calling → l.owner ≠ none → Step l (.lock p) (l.wait p)
  | ret {p : τ} : p ∈ l.calling → p ∉ l.queue → Step l (.ret p) (l.ret p)
  | release {p : τ} : p ∉ l.calling → l.owner = some p → Step l (.unlock p) (l.release p)
  | idle : Step l .idle l

def lockSys : Sys (Lock τ) (Op τ) where
  init l := l = .new
  step := Step

/-- The invariant of the lock. -/
structure Inv (l : Lock τ) : Prop where
  /-- who is inside owns the lock -/
  inside : ∀ p ∈ l.inside, l.owner = some p
  /-- a call waits, or has been granted and not returned -/
  calling : ∀ p, p ∈ l.calling ↔ p ∈ l.queue ∨ l.owner = some p ∧ p ∉ l.inside
  queue : l.queue ≠ [] → l.owner ≠ none
  nodup : l.queue.Nodup
  apart : ∀ p, l.owner = some p → p ∉ l.inside → p ∉ l.queue
  order : l.calls = l.grants ++ l.queue
  /-- only the last grant may not have returned -/
  returned : (∀ p, l.owner = some p → p ∈ l.inside) → l.grants = l.returns
  returning : ∀ p, l.owner = some p → p ∉ l.inside → l.grants = l.returns ++ [p]

section Inv
variable {l l' : Lock τ} {op : Op τ} {p : τ}

theorem inv_new : Inv (Lock.new : Lock τ) := by
  constructor <;> simp [Lock.new]

/-- At most one party is inside. -/
theorem Inv.exclusive (h : Inv l) {p q : τ} (hp : p ∈ l.inside) (hq : q ∈ l.inside) : p = q :=
  Option.some.inj ((h.inside p hp).symm.trans (h.inside q hq))

/-- The calls return in the order in which they are made. -/
theorem Inv.returns_prefix (h : Inv l) : l.returns <+: l.calls := by
  have hgrants : l.returns <+: l.grants := by
    by_cases hall : ∀ p, l.owner = some p → p ∈ l.inside
    · rw [h.returned hall]
    · push Not at hall
      obtain ⟨p, hp, hn⟩ := hall
      rw [h.returning p hp hn]
      exact List.prefix_append _ _
  rw [h.order]
  exact hgrants.trans (List.prefix_append _ _)

theorem Inv.take (h : Inv l) (ho : l.owner = none) : Inv (l.take p) := by
  have hq : l.queue = [] := by
    by_contra hne
    exact h.queue hne ho
  have hin : l.inside = ∅ := by
    ext q
    simp only [Set.mem_empty_iff_false, iff_false]
    intro hq
    simpa [ho] using h.inside q hq
  have hcall : l.calling = ∅ := by
    ext q
    simp [h.calling, hq, ho]
  have hret : l.grants = l.returns := h.returned fun q hq => by simp [ho] at hq
  constructor <;> simp [Lock.take, hq, hin, hcall, hret, h.order]

theorem Inv.wait (h : Inv l) (hp : p ∉ l.calling) (ho : l.owner ≠ none) : Inv (l.wait p) := by
  rw [h.calling, not_or] at hp
  obtain ⟨hq, hown⟩ := hp
  refine ⟨h.inside, fun q => ?_, fun _ => ho, ?_, fun q hqo hqi => ?_, ?_, h.returned, h.returning⟩
  · simp only [Lock.wait, Set.mem_insert_iff, h.calling, List.mem_append, List.mem_singleton]
    tauto
  · rw [Lock.wait, List.nodup_append_comm, List.singleton_append, List.nodup_cons]
    exact ⟨hq, h.nodup⟩
  · rw [Lock.wait, List.mem_append, List.mem_singleton, not_or]
    refine ⟨h.apart q hqo hqi, ?_⟩
    rintro rfl
    exact hown ⟨hqo, hqi⟩
  · rw [Lock.wait, h.order, List.append_assoc]

theorem Inv.ret (h : Inv l) (hp : p ∈ l.calling) (hq : p ∉ l.queue) : Inv (l.ret p) := by
  obtain ⟨ho, hi⟩ := ((h.calling p).1 hp).resolve_left hq
  have hown {q : τ} (hqo : l.owner = some q) : q = p := Option.some.inj (hqo.symm.trans ho)
  refine ⟨fun q hq' => ?_, fun q => ?_, h.queue, h.nodup, fun q hqo hqi => ?_, h.order, fun _ => ?_,
    fun q hqo hqi => ?_⟩
  · rcases hq' with rfl | hq'
    · exact ho
    · exact h.inside q hq'
  · simp only [Lock.ret, Set.mem_sdiff, Set.mem_singleton_iff, Set.mem_insert_iff, h.calling]
    constructor
    · rintro ⟨hmem | ⟨hqo, -⟩, hne⟩
      · exact Or.inl hmem
      · exact absurd (hown hqo) hne
    · rintro (hmem | ⟨hqo, hn⟩)
      · refine ⟨Or.inl hmem, ?_⟩
        rintro rfl
        exact hq hmem
      · exact absurd (Or.inl (hown hqo)) hn
  · exact absurd (Or.inl (hown hqo)) hqi
  · exact h.returning p ho hi
  · exact absurd (Or.inl (hown hqo)) hqi

theorem Inv.release (h : Inv l) (hp : p ∉ l.calling) (ho : l.owner = some p) :
    Inv (l.release p) := by
  have hpin : p ∈ l.inside := by
    by_contra hn
    exact hp ((h.calling p).2 (Or.inr ⟨ho, hn⟩))
  have hin : l.inside \ {p} = ∅ := by
    ext q
    simp only [Set.mem_sdiff, Set.mem_singleton_iff, Set.mem_empty_iff_false, iff_false, not_and,
      not_not]
    exact fun hq => h.exclusive hq hpin
  have hcall (q : τ) : q ∈ l.calling ↔ q ∈ l.queue := by
    rw [h.calling, or_iff_left]
    rintro ⟨hqo, hqi⟩
    obtain rfl := Option.some.inj (hqo.symm.trans ho)
    exact hqi hpin
  have hret : l.grants = l.returns := h.returned fun q hq => by
    rwa [← Option.some.inj (ho.symm.trans hq)]
  have hnodup := h.nodup
  have horder := h.order
  unfold Lock.release
  rw [hin]
  cases hqueue : l.queue with
  | nil =>
    rw [hqueue] at horder
    constructor <;> simp [hcall, hqueue, hret, horder]
  | cons q qs =>
    rw [hqueue] at horder hnodup
    obtain ⟨hq, hqs⟩ := List.nodup_cons.1 hnodup
    constructor
    · simp
    · intro r
      simp only [hcall, hqueue, List.head?_cons, List.tail_cons, List.mem_cons, Option.some.injEq,
        Set.mem_empty_iff_false, not_false_eq_true, and_true]
      tauto
    · simp
    · exact hqs
    · simp only [List.head?_cons, Option.some.injEq, List.tail_cons]
      rintro r rfl -
      exact hq
    · simp [horder]
    · simp
    · simp [hret]

theorem Inv.step (h : Inv l) (hs : Step l op l') : Inv l' := by
  cases hs with
  | take _ ho => exact h.take ho
  | wait hp ho => exact h.wait hp ho
  | ret hp hq => exact h.ret hp hq
  | release hp ho => exact h.release hp ho
  | idle => exact h

/-- **The lock is exclusive and fair in every run.** -/
theorem inv_reach (h : lockSys.Reach l) : Inv l :=
  h.invariant (fun _ hl => hl ▸ inv_new) fun _ _ _ hi => hi.step

end Inv

end FifoLock
