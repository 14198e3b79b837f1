/-
  Byte memory: little-endian numbers of any width, loaded and stored at an address.

  * `load_store`: a number that was stored is loaded back, up to its width;
  * `load_store_of_disjoint`, `store_of_notMem`: a store changes nothing outside its bytes.
-/
import Mathlib

namespace ByteMem

/-- The number in the `w` bytes from `a` on. -/
def load (m : ℕ → BitVec 8) : ℕ → ℕ → ℕ
  | 0, _ => 0
  | w + 1, a => (m a).toNat + 256 * load m w (a + 1)

/-- The memory with `v` in the `w` bytes from `a` on. -/
def store (m : ℕ → BitVec 8) : ℕ → ℕ → ℕ → ℕ → BitVec 8
  | 0, _, _ => m
  | w + 1, a, v => store (Function.update m a (BitVec.ofNat 8 v)) w (a + 1) (v / 256)

variable {m m' : ℕ → BitVec 8} {w w' a b v : ℕ}

theorem load_lt (m : ℕ → BitVec 8) (w a : ℕ) : load m w a < 256 ^ w := by
  induction w generalizing a with
  | zero => simp [load]
  | succ w ih =>
    have h := ih (a + 1)
    have hb := (m a).isLt
    rw [load, pow_succ]
    omega

@[simp] theorem load_zero (w a : ℕ) : load (fun _ => 0#8) w a = 0 := by
  induction w generalizing a with
  | zero => rfl
  | succ w ih => rw [load, ih]; rfl

theorem load_congr (h : ∀ i < w, m' (a + i) = m (a + i)) : load m' w a = load m w a := by
  induction w generalizing a with
  | zero => rfl
  | succ w ih =>
    rw [load, load, ih, show m' a = m a from h 0 (Nat.succ_pos w)]
    intro i hi
    have := h (i + 1) (Nat.succ_lt_succ hi)
    rwa [show a + (i + 1) = a + 1 + i by omega] at this

/-- A store changes nothing outside its bytes. -/
theorem store_of_notMem (h : b < a ∨ a + w ≤ b) : store m w a v b = m b := by
  induction w generalizing m a v with
  | zero => rfl
  | succ w ih =>
    rw [store, ih (by omega), Function.update_of_ne (by omega)]

theorem load_store_of_disjoint (h : b + w' ≤ a ∨ a + w ≤ b) :
    load (store m w a v) w' b = load m w' b :=
  load_congr fun i hi => store_of_notMem (by omega)

/-- What was stored is loaded back. -/
theorem load_store : load (store m w a v) w a = v % 256 ^ w := by
  induction w generalizing m a v with
  | zero => rw [load, pow_zero, Nat.mod_one]
  | succ w ih =>
    rw [store, load, ih, store_of_notMem (Or.inl (Nat.lt_succ_self a)), Function.update_self,
      BitVec.toNat_ofNat, pow_succ' 256 w, Nat.mod_mul]

/-- A store of what stands there changes nothing. -/
theorem store_load : store m w a (load m w a) = m := by
  induction w generalizing a with
  | zero => rfl
  | succ w ih =>
    have hlow : BitVec.ofNat 8 ((m a).toNat + 256 * load m w (a + 1)) = m a := by
      refine BitVec.eq_of_toNat_eq ?_
      rw [BitVec.toNat_ofNat, Nat.add_mul_mod_self_left, Nat.mod_eq_of_lt (m a).isLt]
    have hhigh : ((m a).toNat + 256 * load m w (a + 1)) / 256 = load m w (a + 1) := by
      have := (m a).isLt
      omega
    rw [load, store, hlow, hhigh, Function.update_eq_self]
    exact ih

end ByteMem
