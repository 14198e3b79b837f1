/-
  What the C code runs on: results that may halt the kernel, and 32-bit numbers.

  A failed `assert` and a `PANIC` print and then loop forever, and an access
  through a null pointer or outside an object has no defined result: each of
  them ends the run, so a C function is a function into `C`.
-/
import Mathlib

namespace Rdix

/-- The ways a kernel function does not return to its caller. -/
inductive Halt where
  /-- `assert(exp)` failed -/
  | assert (exp : String)
  /-- `PANIC(msg)` -/
  | panic (msg : String)
  /-- an access through the null pointer `ptr` -/
  | null (ptr : String)
  /-- an access outside the object `obj` -/
  | wild (obj : String)
  /-- a loop that never ends -/
  | loop
deriving DecidableEq, Repr

/-- The result of a C function: a value, or the kernel has halted. -/
abbrev C (α : Type) := Except Halt α

/-- `assert(exp)`. -/
def cassert (p : Prop) [Decidable p] (exp : String) : C Unit :=
  if p then .ok () else .error (.assert exp)

@[simp] theorem cassert_pos {p : Prop} [Decidable p] (h : p) (exp : String) :
    cassert p exp = .ok () := if_pos h

@[simp] theorem cassert_neg {p : Prop} [Decidable p] (h : ¬ p) (exp : String) :
    cassert p exp = .error (.assert exp) := if_neg h

/-- A pointer that may be null, dereferenced under the name `ptr`. -/
def deref {α : Type} (ptr : String) : Option α → C α
  | some a => .ok a
  | none => .error (.null ptr)

@[simp] theorem deref_some {α : Type} (ptr : String) (a : α) : deref ptr (some a) = .ok a := rfl

@[simp] theorem deref_none {α : Type} (ptr : String) :
    deref ptr (none : Option α) = .error (.null ptr) := rfl

section Bind
variable {α β : Type}

@[simp] theorem ok_bind (a : α) (f : α → C β) : (Except.ok a : C α) >>= f = f a := rfl

@[simp] theorem error_bind (e : Halt) (f : α → C β) :
    (Except.error e : C α) >>= f = .error e := rfl

@[simp] theorem pure_eq_ok (a : α) : (pure a : C α) = .ok a := rfl

@[simp] theorem throw_eq_error (e : Halt) : (throw e : C α) = .error e := rfl

/-- A sequence that returns ran both of its parts. -/
theorem bind_eq_ok {x : C α} {f : α → C β} {b : β} :
    x >>= f = .ok b ↔ ∃ a, x = .ok a ∧ f a = .ok b := by
  cases x <;> simp

theorem cassert_bind_eq_ok {p : Prop} [Decidable p] {exp : String} {f : Unit → C β} {b : β} :
    cassert p exp >>= f = .ok b ↔ p ∧ f () = .ok b := by
  by_cases h : p <;> simp [h]

/-- A run that is evaluated. -/
theorem ok_of_isOk {x : C α} (h : x.isOk = true) : ∃ a, x = .ok a := by
  cases x with
  | ok a => exact ⟨a, rfl⟩
  | error e => cases h

/-- A sequence that halts did so in one of its parts. -/
theorem bind_eq_error {x : C α} {f : α → C β} {e : Halt} :
    x >>= f = .error e ↔ x = .error e ∨ ∃ a, x = .ok a ∧ f a = .error e := by
  cases x <;> simp

theorem deref_eq_ok {ptr : String} {o : Option α} {a : α} : deref ptr o = .ok a ↔ o = some a := by
  cases o <;> simp

theorem deref_bind_eq_ok {ptr : String} {o : Option α} {f : α → C β} {b : β}
    (h : deref ptr o >>= f = .ok b) : ∃ a, o = some a ∧ f a = .ok b := by
  cases o with
  | none => cases h
  | some a => exact ⟨a, rfl, h⟩

/-- The computation ends in a value that satisfies `Q` or in a halt that satisfies `E`. -/
structure Ends (x : C α) (Q : α → Prop) (E : Halt → Prop) : Prop where
  value : ∀ a, x = .ok a → Q a
  halt : ∀ h, x = .error h → E h

section Ends
variable {P : α → Prop} {Q : β → Prop} {E : Halt → Prop}

@[simp] theorem ends_ok (a : α) : Ends (Except.ok a) P E ↔ P a := by
  constructor
  · intro h
    exact h.value a rfl
  · intro h
    refine ⟨fun _ he => Except.ok.inj he ▸ h, fun _ he => ?_⟩
    cases he

@[simp] theorem ends_error (h : Halt) : Ends (Except.error h : C α) P E ↔ E h := by
  constructor
  · intro he
    exact he.halt h rfl
  · intro hE
    refine ⟨fun _ he => ?_, fun _ he => Except.error.inj he ▸ hE⟩
    cases he

/-- The rule of sequences. -/
theorem Ends.bind {x : C α} {f : α → C β} (hx : Ends x P E) (hf : ∀ a, P a → Ends (f a) Q E) :
    Ends (x >>= f) Q E := by
  cases x with
  | ok a => exact hf a (hx.value a rfl)
  | error h => exact (ends_error h).2 (hx.halt h rfl)

/-- The rule of assertions. -/
theorem Ends.cassert_bind {p : Prop} {_ : Decidable p} {exp : String} {f : Unit → C β}
    (he : ¬ p → E (.assert exp)) (hf : p → Ends (f ()) Q E) :
    Ends (cassert p exp >>= f) Q E := by
  by_cases h : p
  · rw [cassert_pos h]
    exact hf h
  · rw [cassert_neg h]
    exact (ends_error _).2 (he h)

/-- The rule of consequence. -/
theorem Ends.imp {x : C α} {P' : α → Prop} (hx : Ends x P E) (h : ∀ a, P a → P' a) :
    Ends x P' E :=
  ⟨fun a ha => h a (hx.value a ha), hx.halt⟩

end Ends

/-- If the first computation ends in a value, then so does the other, and `R` relates them. -/
def Both (R : α → β → Prop) (x : C α) (y : C β) : Prop := ∀ a, x = .ok a → ∃ b, y = .ok b ∧ R a b

section Both
variable {α' β' : Type} {R : α → β → Prop} {S : α' → β' → Prop}

theorem both_ok {a : α} {b : β} (h : R a b) : Both R (.ok a) (.ok b) := by
  intro a' ha
  cases ha
  exact ⟨b, rfl, h⟩

theorem both_error (e : Halt) (y : C β) : Both R (.error e) y := fun _ h => nomatch h

/-- The rule of sequences for two computations. -/
theorem Both.bind {x : C α} {y : C β} {f : α → C α'} {g : β → C β'} (hx : Both R x y)
    (hf : ∀ a b, x = .ok a → R a b → Both S (f a) (g b)) : Both S (x >>= f) (y >>= g) := by
  intro a' ha'
  obtain ⟨a, ha, hfa⟩ := bind_eq_ok.1 ha'
  obtain ⟨b, rfl, hR⟩ := hx a ha
  exact hf a b ha hR a' hfa

/-- The rule of assertions for two computations. -/
theorem Both.cassert_bind {p : Prop} [Decidable p] {q : Prop} [Decidable q] {exp : String}
    {f : Unit → C α'} {g : Unit → C β'} (hpq : p → q) (hf : p → Both S (f ()) (g ())) :
    Both S (cassert p exp >>= f) (cassert q exp >>= g) := by
  by_cases h : p
  · rw [cassert_pos h, cassert_pos (hpq h)]
    exact hf h
  · rw [cassert_neg h]
    exact both_error _ _

theorem Both.imp {x : C α} {y : C β} {R' : α → β → Prop} (hx : Both R x y)
    (h : ∀ a b, x = .ok a → R a b → R' a b) : Both R' x y := by
  intro a ha
  obtain ⟨b, hb, hR⟩ := hx a ha
  exact ⟨b, hb, h a b ha hR⟩

end Both

end Bind

/-- The value of an expression of type `u32`. -/
def u32 (n : ℕ) : ℕ := n % 2 ^ 32

theorem u32_of_lt {n : ℕ} (h : n < 2 ^ 32) : u32 n = n := Nat.mod_eq_of_lt h

/-- A `u32` value read as an `int`. -/
def i32 (n : ℕ) : ℤ := if n < 2 ^ 31 then n else (n : ℤ) - 2 ^ 32

theorem i32_of_lt {n : ℕ} (h : n < 2 ^ 31) : i32 n = n := if_pos h

/-- `EOF`. -/
abbrev EOF : ℤ := -1

end Rdix
