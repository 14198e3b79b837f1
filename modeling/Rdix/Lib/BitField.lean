/-
  Bit fields of a word.

  * `Field.get` and `Field.set` read and write the bits of a field;
  * `Field.get_set`: what has been written is read; `Field.get_set_of_disjoint`: the other fields
    stay; `Field.get_congr`: a field is its bits.
-/
import Mathlib

namespace BitField

/-- The field of `width` bits from the bit `lo` on. -/
structure Field where
  lo : ℕ
  width : ℕ
deriving DecidableEq

namespace Field

variable {n : ℕ} {f g : Field} {x y : BitVec n}

/-- The bit `i` is one of the field's. -/
def Has (f : Field) (i : ℕ) : Prop := f.lo ≤ i ∧ i < f.lo + f.width

instance (f : Field) : DecidablePred f.Has := fun _ => inferInstanceAs (Decidable (_ ∧ _))

def get (f : Field) (x : BitVec n) : BitVec f.width := x.extractLsb' f.lo f.width

def set (f : Field) (x : BitVec n) (v : BitVec f.width) : BitVec n :=
  (x &&& ~~~((BitVec.allOnes f.width).setWidth n <<< f.lo)) ||| (v.setWidth n <<< f.lo)

@[simp] theorem getLsbD_get (f : Field) (x : BitVec n) (i : ℕ) :
    (f.get x).getLsbD i = (decide (i < f.width) && x.getLsbD (f.lo + i)) :=
  BitVec.getLsbD_extractLsb' ..

/-- The bits of a word that has been written. -/
theorem getLsbD_set (hf : f.lo + f.width ≤ n) (v : BitVec f.width) (i : ℕ) :
    (f.set x v).getLsbD i = if f.Has i then v.getLsbD (i - f.lo) else x.getLsbD i := by
  simp only [set, BitVec.getLsbD_or, BitVec.getLsbD_and, BitVec.getLsbD_not,
    BitVec.getLsbD_shiftLeft, BitVec.getLsbD_setWidth, BitVec.getLsbD_allOnes]
  by_cases hi : i < n
  · by_cases hlo : f.lo ≤ i
    · have hle : ¬ i < f.lo := Nat.not_lt.2 hlo
      by_cases hhi : i < f.lo + f.width
      · simp [Has, hi, hlo, hhi, hle, show i - f.lo < n by omega, show i - f.lo < f.width by omega]
      · have hv : v.getLsbD (i - f.lo) = false := BitVec.getLsbD_of_ge _ _ (by omega)
        simp [Has, hi, hhi, hv, show ¬ i - f.lo < f.width by omega]
    · simp [Has, hi, hlo, show i < f.lo by omega]
  · have hout : ¬ f.Has i := fun h => hi (h.2.trans_le hf)
    simp [hi, hout, BitVec.getLsbD_of_ge x i (Nat.le_of_not_lt hi)]

theorem getLsbD_set_of_not_has (hf : f.lo + f.width ≤ n) {i : ℕ} (hi : ¬ f.Has i)
    (v : BitVec f.width) : (f.set x v).getLsbD i = x.getLsbD i := by
  rw [getLsbD_set hf, if_neg hi]

/-- **What has been written is read.** -/
theorem get_set (hf : f.lo + f.width ≤ n) (v : BitVec f.width) : f.get (f.set x v) = v := by
  refine BitVec.eq_of_getLsbD_eq fun i hi => ?_
  have hhas : f.Has (f.lo + i) := ⟨Nat.le_add_right .., Nat.add_lt_add_left hi _⟩
  rw [getLsbD_get, getLsbD_set hf, if_pos hhas, Nat.add_sub_cancel_left, decide_eq_true hi,
    Bool.true_and]

/-- **A field is its bits.** -/
theorem get_congr (h : ∀ i, f.Has i → x.getLsbD i = y.getLsbD i) : f.get x = f.get y := by
  refine BitVec.eq_of_getLsbD_eq fun i hi => ?_
  rw [getLsbD_get, getLsbD_get, h _ ⟨Nat.le_add_right .., Nat.add_lt_add_left hi _⟩]

/-- **The other fields stay.** -/
theorem get_set_of_disjoint (hg : g.lo + g.width ≤ n)
    (h : f.lo + f.width ≤ g.lo ∨ g.lo + g.width ≤ f.lo) (v : BitVec g.width) :
    f.get (g.set x v) = f.get x := by
  refine get_congr fun i hi => getLsbD_set_of_not_has hg (fun hi' => ?_) v
  unfold Has at hi hi'
  omega

end Field

end BitField
