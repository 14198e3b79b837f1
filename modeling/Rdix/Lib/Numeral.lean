/-
  Numerals: the digits of a number in a base, the highest one first.

  * `value` reads a list of digits, `print` writes a number;
  * `value_print`, `print_minimal`: what is written is read back, and has no leading zero.
-/
import Mathlib

namespace Numeral

variable {b n d : ℕ} {l : List ℕ}

/-- The number that the digits stand for. -/
def value (b : ℕ) (l : List ℕ) : ℕ := l.foldl (fun v d => v * b + d) 0

/-- The digits of `n`; 0 has one. -/
def print (b n : ℕ) : List ℕ := if n = 0 then [0] else (Nat.digits b n).reverse

theorem foldl_eq (b v : ℕ) (l : List ℕ) :
    l.foldl (fun v d => v * b + d) v = v * b ^ l.length + Nat.ofDigits b l.reverse := by
  induction l generalizing v with
  | nil => simp
  | cons d l ih =>
    rw [List.foldl_cons, ih, List.reverse_cons, Nat.ofDigits_append, List.length_reverse,
      Nat.ofDigits_singleton, List.length_cons, pow_succ]
    ring

theorem value_eq (b : ℕ) (l : List ℕ) : value b l = Nat.ofDigits b l.reverse := by
  rw [value, foldl_eq, Nat.zero_mul, Nat.zero_add]

/-- **What is written is read back.** -/
@[simp] theorem value_print (b n : ℕ) : value b (print b n) = n := by
  unfold print
  split_ifs with h
  · simp [value, h]
  · rw [value_eq, List.reverse_reverse, Nat.ofDigits_digits]

@[simp] theorem print_ne_nil (b n : ℕ) : print b n ≠ [] := by
  unfold print
  split_ifs with h
  · simp
  · simp [Nat.digits_ne_nil_iff_ne_zero, h]

theorem lt_of_mem_print (hb : 1 < b) (hd : d ∈ print b n) : d < b := by
  unfold print at hd
  split_ifs at hd with h
  · rw [List.mem_singleton.1 hd]
    omega
  · exact Nat.digits_lt_base hb (List.mem_reverse.1 hd)

/-- **No leading zero**, but for the numeral of 0. -/
theorem print_minimal (h : (print b n).head? = some 0) : print b n = [0] := by
  unfold print at h ⊢
  split_ifs at h ⊢ with hn
  · rfl
  · rw [List.head?_reverse] at h
    exact absurd (List.getLast_of_getLast?_eq_some h) (Nat.getLast_digit_ne_zero b hn)

theorem print_eq_digits (hn : n ≠ 0) : print b n = (Nat.digits b n).reverse := if_neg hn

/-- The numeral of a positive number does not begin with 0. -/
theorem head_print (hn : n ≠ 0) : (print b n).head? ≠ some 0 := by
  intro h
  have hv := congrArg (value b) (print_minimal h)
  rw [value_print] at hv
  exact hn (by simpa [value] using hv)

end Numeral
