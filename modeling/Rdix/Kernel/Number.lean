/-
  Numbers as text (kernel/vsprintf.c: is_digit, skip_atoi, number).

  Characters are bytes, and a string is the list of the bytes in front of its NUL.

  * `skipAtoi` reads a decimal number, `number` writes one in any base;
  * `skipAtoi_parse`: the digits in front of a text are read as a number;
  * `Layout`: how a field is made up of padding, sign, prefix and digits;
  * `number_layout`: `number` writes such a field.
-/
import Rdix.Kernel.Halt
import Rdix.Lib.Numeral

namespace Rdix

/-- A character of the source. -/
def chr (c : Char) : BitVec 8 := BitVec.ofNat 8 c.toNat

/-- The value of an expression of type `int`. -/
def int32 (z : ℤ) : ℤ := Int.bmod z (2 ^ 32)

theorem int32_of_lt {z : ℤ} (h : -2 ^ 31 ≤ z) (h' : z < 2 ^ 31) : int32 z = z :=
  Int.bmod_eq_of_le (by omega) (by omega)

namespace Vsprintf

/-! ## The code -/

/-- The bytes that are negative as a `char` are no digits either way. -/
def isDigit (ch : BitVec 8) : Bool := chr '0' ≤ ch && ch ≤ chr '9'

/-- `skip_atoi`, with the sum so far: the number, and what `*s` points to at the end. -/
def skipAtoi (i : ℤ) : List (BitVec 8) → ℤ × List (BitVec 8)
  | [] => (i, [])
  | ch :: s => if isDigit ch then skipAtoi (int32 (i * 10 + ch.toNat - (chr '0').toNat)) s else (i, ch :: s)

/-- The bits of `flags`. -/
structure Flags where
  zeropad : Bool
  sign : Bool
  plus : Bool
  space : Bool
  left : Bool
  special : Bool
  small : Bool

/-- `digit` and `small`. -/
def digitTable (small : Bool) : List (BitVec 8) :=
  (['0', '1', '2', '3', '4', '5', '6', '7', '8', '9'] ++
    if small then ['a', 'b', 'c', 'd', 'e', 'f', 'g', 'h', 'i', 'j', 'k', 'l', 'm', 'n', 'o', 'p', 'q',
      'r', 's', 't', 'u', 'v', 'w', 'x', 'y', 'z']
    else ['A', 'B', 'C', 'D', 'E', 'F', 'G', 'H', 'I', 'J', 'K', 'L', 'M', 'N', 'O', 'P', 'Q',
      'R', 'S', 'T', 'U', 'V', 'W', 'X', 'Y', 'Z']).map chr

def digit (small : Bool) (d : ℕ) : BitVec 8 := (digitTable small).getD d 0

/-- The loop that fills `tmp`, for a base of at least 2. -/
def tmpLoop (small : Bool) (base num : ℕ) : List (BitVec 8) :=
  if _h : num ≠ 0 ∧ 1 < base then digit small (num % base) :: tmpLoop small base (num / base) else []
termination_by num
decreasing_by exact Nat.div_lt_self (by omega) (by omega)

/-- `while (size-- > 0) *str++ = c;`: what it writes, and `size` behind it. -/
def padLoop (c : BitVec 8) (size : ℤ) : List (BitVec 8) × ℤ :=
  if 0 < size then (c :: (padLoop c (size - 1)).1, (padLoop c (size - 1)).2)
  else ([], int32 (size - 1))
termination_by size.toNat
decreasing_by all_goals omega

/-- `sign`, which is 0 for none. -/
def signOf (num : BitVec 32) (flags : Flags) : Option (BitVec 8) :=
  if flags.sign ∧ num < 0 then some (chr '-')
  else if flags.plus then some (chr '+')
  else if flags.space then some (chr ' ')
  else none

/-- What stands in front of the zeros with `#`. -/
def prefixOf (base : ℕ) (flags : Flags) : List (BitVec 8) :=
  if flags.special then chr '0' :: if base = 16 then [chr 'x'] else [] else []

/-- `size` behind the sign and the prefix. -/
def sizeAfter (base : ℕ) (size : ℤ) (flags : Flags) (sign : Option (BitVec 8)) : ℤ :=
  let size := if sign.isSome then int32 (size - 1) else size
  if flags.special then
    if base = 16 then int32 (size - 2) else if base = 8 then int32 (size - 1) else size
  else size

/-- `number`, which returns `NULL` for other bases; it does not use `precision`. -/
def number (num : BitVec 32) (base : ℕ) (size _precision : ℤ) (flags : Flags) :
    Option (List (BitVec 8)) :=
  let flags := if flags.left then { flags with zeropad := false } else flags
  if base < 2 ∨ base > 36 then none
  else
    let c := if flags.zeropad then chr '0' else chr ' '
    let sign := signOf num flags
    let num := if flags.sign ∧ num < 0 then -num else num
    let size := sizeAfter base size flags sign
    let tmp := if num = 0 then [chr '0'] else tmpLoop flags.small base num.toNat
    let size := int32 (size - tmp.length)
    let r₁ := if ¬ (flags.zeropad ∨ flags.left) then padLoop (chr ' ') size else ([], size)
    let r₂ := if ¬ flags.left then padLoop c r₁.2 else ([], r₁.2)
    let r₃ := padLoop (chr ' ') r₂.2
    some (r₁.1 ++ sign.toList ++ prefixOf base flags ++ r₂.1 ++ tmp.reverse ++ r₃.1)

/-! ## Digits -/

/-- The digits of a number, the highest one first. -/
def numeral (small : Bool) (base n : ℕ) : List (BitVec 8) := (Numeral.print base n).map (digit small)

/-- What a digit stands for. -/
def digitVal (ch : BitVec 8) : ℕ :=
  if isDigit ch then ch.toNat - (chr '0').toNat
  else if chr 'a' ≤ ch then ch.toNat - (chr 'a').toNat + 10
  else ch.toNat - (chr 'A').toNat + 10

/-- The number that a string of digits stands for. -/
def parse (base : ℕ) (s : List (BitVec 8)) : ℕ := Numeral.value base (s.map digitVal)

variable {small : Bool} {base n d w : ℕ} {c ch : BitVec 8} {size : ℤ} {flags : Flags}
  {s rest : List (BitVec 8)}

theorem digitVal_digit (small : Bool) (hd : d < 36) : digitVal (digit small d) = d := by
  have h : ∀ small, ∀ d < 36, digitVal (digit small d) = d := by decide
  exact h small d hd

theorem isDigit_digit (hd : d < 10) : isDigit (digit small d) = true := by
  have h : ∀ small, ∀ d < 10, isDigit (digit small d) = true := by decide
  exact h small d hd

theorem digit_toNat (hd : d < 10) : (digit small d).toNat = (chr '0').toNat + d := by
  have h : ∀ small, ∀ d < 10, (digit small d).toNat = (chr '0').toNat + d := by decide
  exact h small d hd

/-- **The digits are read back.** -/
theorem parse_numeral (hb : 1 < base) (hb' : base ≤ 36) : parse base (numeral small base n) = n := by
  have hmap : (numeral small base n).map digitVal = Numeral.print base n := by
    rw [numeral, List.map_map]
    refine (List.map_congr_left fun d hd => ?_).trans (List.map_id _)
    exact digitVal_digit small ((Numeral.lt_of_mem_print hb hd).trans_le hb')
  rw [parse, hmap, Numeral.value_print]

theorem numeral_ne_nil : numeral small base n ≠ [] := by simp [numeral]

theorem numeral_zero : numeral small base 0 = [chr '0'] := by
  cases small <;> rfl

/-- **No leading zero.** -/
theorem numeral_minimal (hb : 1 < base) (hb' : base ≤ 36)
    (h : (numeral small base n).head? = some (chr '0')) : numeral small base n = [chr '0'] := by
  by_cases hn : n = 0
  · rw [hn, numeral_zero]
  rw [numeral, List.head?_map, Option.map_eq_some_iff] at h
  obtain ⟨d, hd, hz⟩ := h
  have hlt : d < 36 := (Numeral.lt_of_mem_print hb (List.mem_of_head? hd)).trans_le hb'
  have hd0 : d = 0 := by
    rw [← digitVal_digit small hlt, hz]
    rfl
  exact absurd (hd0 ▸ hd) (Numeral.head_print hn)

/-- The loop writes the digits from the lowest one on. -/
theorem tmpLoop_eq (hb : 1 < base) : tmpLoop small base n = (Nat.digits base n).map (digit small) := by
  induction n using Nat.strong_induction_on with
  | _ n ih =>
    unfold tmpLoop
    by_cases hn : n = 0
    · simp [hn]
    · rw [dif_pos ⟨hn, hb⟩, ih _ (Nat.div_lt_self (Nat.pos_of_ne_zero hn) hb),
        Nat.digits_eq_cons_digits_div hb hn, List.map_cons]

/-- The digits in `tmp`, read from its end. -/
theorem tmp_reverse (hb : 1 < base) :
    (if n = 0 then [chr '0'] else tmpLoop small base n).reverse = numeral small base n := by
  split_ifs with hn
  · rw [hn, numeral_zero]
    rfl
  · rw [tmpLoop_eq hb, ← List.map_reverse, numeral, Numeral.print_eq_digits hn]

/-! ## Reading -/

theorem skipAtoi_rest (i : ℤ) (fmt : List (BitVec 8)) : (skipAtoi i fmt).2 = fmt.dropWhile isDigit := by
  induction fmt generalizing i with
  | nil => rfl
  | cons ch fmt ih =>
    unfold skipAtoi
    by_cases h : isDigit ch = true
    · rw [if_pos h, ih, List.dropWhile_cons_of_pos h]
    · rw [if_neg h, List.dropWhile_cons_of_neg h]

theorem head_dropWhile {p : BitVec 8 → Bool} (hrest : (ch :: rest).dropWhile p = ch :: rest) :
    ¬ p ch = true := List.dropWhile_eq_self_iff.1 hrest (Nat.succ_pos _)

theorem skipAtoi_digits {l : List ℕ} (i : ℕ) (hl : ∀ d ∈ l, d < 10)
    (hlt : l.foldl (fun v d => v * 10 + d) i < 2 ^ 31) (hrest : rest.dropWhile isDigit = rest) :
    skipAtoi i (l.map (digit false) ++ rest) = (((l.foldl (fun v d => v * 10 + d) i : ℕ) : ℤ), rest) := by
  induction l generalizing i with
  | nil =>
    cases rest with
    | nil => rfl
    | cons ch rest =>
      rw [List.map_nil, List.nil_append, skipAtoi, if_neg (head_dropWhile hrest)]
      rfl
  | cons d l ih =>
    have hd := hl d List.mem_cons_self
    rw [List.foldl_cons] at hlt ⊢
    have hle : i * 10 + d ≤ l.foldl (fun v d => v * 10 + d) (i * 10 + d) := by
      rw [Numeral.foldl_eq]
      exact le_trans (Nat.le_mul_of_pos_right _ (by positivity)) (Nat.le_add_right _ _)
    have hstep : int32 ((i : ℤ) * 10 + (digit false d).toNat - (chr '0').toNat) = ((i * 10 + d : ℕ) : ℤ) := by
      rw [digit_toNat hd, int32_of_lt (by push_cast; omega) (by push_cast; omega)]
      push_cast
      ring
    rw [List.map_cons, List.cons_append, skipAtoi, if_pos (isDigit_digit hd), hstep]
    exact ih _ (fun d' hd' => hl d' (List.mem_cons_of_mem d hd')) hlt

/-- **A width is read back.** -/
theorem skipAtoi_numeral (hw : w < 2 ^ 31) (rest : List (BitVec 8)) (hrest : rest.dropWhile isDigit = rest) :
    skipAtoi 0 (numeral false 10 w ++ rest) = ((w : ℤ), rest) := by
  have hv : (Numeral.print 10 w).foldl (fun v d => v * 10 + d) 0 = w := Numeral.value_print 10 w
  have h := skipAtoi_digits 0 (fun d hd => Numeral.lt_of_mem_print (by norm_num) hd) (hv.symm ▸ hw) hrest
  rw [hv] at h
  exact h

/-- A byte that is a digit. -/
theorem digit_digitVal (h : isDigit c = true) : digitVal c < 10 ∧ digit false (digitVal c) = c := by
  have hval : digitVal c = c.toNat - (chr '0').toNat := if_pos h
  have hzero : (chr '0').toNat = 48 := rfl
  have hnine : (chr '9').toNat = 57 := rfl
  simp only [isDigit, Bool.and_eq_true, decide_eq_true_eq, BitVec.le_def] at h
  have hlt : digitVal c < 10 := by omega
  refine ⟨hlt, BitVec.eq_of_toNat_eq ?_⟩
  rw [digit_toNat hlt, hval]
  omega

/-- **Digits are read as the number they stand for.** -/
theorem skipAtoi_parse (hs : ∀ c ∈ s, isDigit c = true) (hlt : parse 10 s < 2 ^ 31)
    (rest : List (BitVec 8)) (hrest : rest.dropWhile isDigit = rest) : skipAtoi 0 (s ++ rest) = ((parse 10 s : ℤ), rest) := by
  have hmap : (s.map digitVal).map (digit false) = s := by
    rw [List.map_map]
    exact (List.map_congr_left fun c hc => (digit_digitVal (hs c hc)).2).trans (List.map_id s)
  have hdigits : ∀ d ∈ s.map digitVal, d < 10 := by
    intro d hd
    obtain ⟨c, hc, rfl⟩ := List.mem_map.1 hd
    exact (digit_digitVal (hs c hc)).1
  have h := skipAtoi_digits 0 hdigits hlt hrest
  rwa [hmap] at h

/-! ## Padding -/

theorem padLoop_eq (c : BitVec 8) (size : ℤ) :
    padLoop c size = (List.replicate size.toNat c, int32 (min size 0 - 1)) := by
  induction hn : size.toNat generalizing size with
  | zero =>
    unfold padLoop
    have hle : ¬ 0 < size := by omega
    rw [if_neg hle, min_eq_left (by omega)]
    rfl
  | succ n ih =>
    unfold padLoop
    have hlt : 0 < size := by omega
    rw [if_pos hlt, ih (size - 1) (by omega), min_eq_right (by omega), min_eq_right (by omega),
      List.replicate_succ]

theorem padLoop_neg (c : BitVec 8) (h : size ≤ 0) (h' : -2 ^ 31 < size) :
    padLoop c size = ([], size - 1) := by
  rw [padLoop_eq, Int.toNat_of_nonpos h, min_eq_left h, int32_of_lt (by omega) (by omega)]
  rfl

/-! ## Fields -/

/-- The sign of a number that is not negative. -/
def plainSign (flags : Flags) : List (BitVec 8) :=
  if flags.plus then [chr '+'] else if flags.space then [chr ' '] else []

/-- A field: spaces, sign, prefix, zeros, digits, spaces.  The padding is zeros only with `0` and
    without `-`, and on the right only with `-`. -/
def Layout (out sign pre digits : List (BitVec 8)) (zero left : Bool) (width : ℤ) : Prop :=
  ∃ a z b : ℕ, out = List.replicate a (chr ' ') ++ sign ++ pre ++ List.replicate z (chr '0') ++ digits ++
      List.replicate b (chr ' ') ∧
    (out.length : ℤ) = max width (sign.length + pre.length + digits.length : ℕ) ∧
    (a ≠ 0 → zero = false ∧ left = false) ∧ (z ≠ 0 → zero = true ∧ left = false) ∧ (b ≠ 0 → left = true)

/-- The padding that fills the field. -/
theorem layout_of {out sign pre digits : List (BitVec 8)} {zero left : Bool} {width : ℤ} (a z b : ℕ)
    (hout : out = List.replicate a (chr ' ') ++ sign ++ pre ++ List.replicate z (chr '0') ++ digits ++
      List.replicate b (chr ' '))
    (hsum : a + z + b = (width - (sign.length + pre.length + digits.length : ℕ)).toNat)
    (ha : a ≠ 0 → zero = false ∧ left = false) (hz : z ≠ 0 → zero = true ∧ left = false)
    (hb : b ≠ 0 → left = true) : Layout out sign pre digits zero left width := by
  refine ⟨a, z, b, hout, ?_, ha, hz, hb⟩
  rw [hout]
  simp only [List.length_append, List.length_replicate]
  omega

theorem signOf_eq (num : BitVec 32) (flags : Flags) : (signOf num flags).toList = plainSign flags := by
  have hneg : ¬ num < 0 := BitVec.not_lt_zero
  unfold signOf plainSign
  rw [if_neg fun h => hneg h.2]
  split_ifs <;> rfl

theorem sizeAfter_eq (num : BitVec 32) (hsp : flags.special = true → base = 8 ∨ base = 16)
    (hsize : -1 ≤ size) (hsize' : size < 2 ^ 31) : sizeAfter base size flags (signOf num flags) =
      size - ((plainSign flags).length + (prefixOf base flags).length : ℕ) := by
  have hsome : (signOf num flags).isSome = true ↔ (plainSign flags).length = 1 := by
    rw [← signOf_eq num flags]
    cases signOf num flags <;> simp
  have hlen : (plainSign flags).length = 0 ∨ (plainSign flags).length = 1 := by
    unfold plainSign
    split_ifs <;> simp
  unfold sizeAfter prefixOf
  have hone : (if (signOf num flags).isSome then int32 (size - 1) else size) =
      size - (plainSign flags).length := by
    split_ifs with h
    · rw [hsome.1 h, int32_of_lt (by omega) (by omega)]
      rfl
    · have h0 := hlen.resolve_right fun h1 => h (hsome.2 h1)
      rw [h0]
      omega
  rw [hone]
  cases hf : flags.special with
  | false => simp
  | true =>
    rcases hsp hf with rfl | rfl
    · rw [if_pos rfl, if_neg (by norm_num), if_pos rfl, int32_of_lt (by omega) (by omega)]
      simp
      omega
    · rw [if_pos rfl, if_pos rfl, int32_of_lt (by omega) (by omega)]
      simp
      omega

theorem numeral_length (small : Bool) (num : BitVec 32) (hb : 1 < base) :
    (numeral small base num.toNat).length ≤ 32 := by
  rw [numeral, List.length_map]
  by_cases hn : num.toNat = 0
  · rw [hn]
    simp [Numeral.print]
  · rw [Numeral.print_eq_digits hn, List.length_reverse, Nat.digits_length_le_iff hb]
    exact num.isLt.trans_le (Nat.pow_le_pow_left hb 32)

/-- `number` in terms of its digits and of what is left of the width. -/
theorem number_eq (num : BitVec 32) (precision : ℤ) (hb : 1 < base) (hb' : base ≤ 36)
    (hsp : flags.special = true → base = 8 ∨ base = 16) (hsize : -1 ≤ size) (hsize' : size < 2 ^ 31) :
    ∃ rest : ℤ, -2 ^ 31 + 4 < rest ∧ rest = size - ((plainSign flags).length + (prefixOf base flags).length +
        (numeral flags.small base num.toNat).length : ℕ) ∧
      number num base size precision flags =
        let zero := flags.zeropad && !flags.left
        let r₁ := if ¬ (zero ∨ flags.left) then padLoop (chr ' ') rest else ([], rest)
        let r₂ := if ¬ flags.left then padLoop (if zero then chr '0' else chr ' ') r₁.2 else ([], r₁.2)
        let r₃ := padLoop (chr ' ') r₂.2
        some (r₁.1 ++ plainSign flags ++ prefixOf base flags ++ r₂.1 ++
          numeral flags.small base num.toNat ++ r₃.1) := by
  have hlen := numeral_length flags.small num hb
  have hsign : (plainSign flags).length ≤ 1 := by
    unfold plainSign
    split_ifs <;> simp
  have hpre : (prefixOf base flags).length ≤ 2 := by
    unfold prefixOf
    split_ifs <;> simp
  refine ⟨_, ?_, rfl, ?_⟩
  · omega
  have hneg : ¬ (flags.sign = true ∧ num < 0) := fun h => BitVec.not_lt_zero h.2
  have htmp : (if num = 0 then [chr '0'] else tmpLoop flags.small base num.toNat).reverse =
      numeral flags.small base num.toNat := by
    rw [← tmp_reverse hb]
    congr 1
    have h0 : num = 0 ↔ num.toNat = 0 := BitVec.toNat_eq.trans (by simp)
    simp only [h0]
  have htmplen := congrArg List.length htmp
  rw [List.length_reverse] at htmplen
  have hsizeAfter := sizeAfter_eq num hsp hsize hsize'
  have hflags : (if flags.left then { flags with zeropad := false } else flags) =
      { flags with zeropad := flags.zeropad && !flags.left } := by
    cases hl : flags.left <;> cases flags <;> simp_all
  unfold number
  rw [hflags]
  dsimp only
  rw [if_neg (by omega), if_neg hneg, htmp]
  have hrest : int32 (sizeAfter base size { flags with zeropad := flags.zeropad && !flags.left }
      (signOf num { flags with zeropad := flags.zeropad && !flags.left }) -
      (if num = 0 then [chr '0'] else tmpLoop flags.small base num.toNat).length) =
      size - ((plainSign flags).length + (prefixOf base flags).length +
        (numeral flags.small base num.toNat).length : ℕ) := by
    refine (congrArg int32 (congrArg₂ _ hsizeAfter rfl)).trans ?_
    rw [← htmplen, int32_of_lt (by omega) (by omega)]
    push_cast
    ring
  have hsign' : (signOf num { flags with zeropad := flags.zeropad && !flags.left }).toList =
      plainSign flags := signOf_eq num flags
  rw [hrest, hsign']
  rfl

/-- **`number` writes the digits of its argument, as an unsigned number, in a field of the width.** -/
theorem number_layout (num : BitVec 32) (precision : ℤ) (flags : Flags) (hb : 1 < base) (hb' : base ≤ 36)
    (hsp : flags.special = true → base = 8 ∨ base = 16) (hsize : -1 ≤ size) (hsize' : size < 2 ^ 31) :
    ∃ out, number num base size precision flags = some out ∧
      Layout out (plainSign flags) (prefixOf base flags) (numeral flags.small base num.toNat)
        flags.zeropad flags.left size := by
  obtain ⟨rest, hlow, hrest, he⟩ := number_eq num precision hb hb' hsp hsize hsize'
  refine ⟨_, he, ?_⟩
  have hhigh : rest < 2 ^ 31 := by omega
  cases hl : flags.left with
  | true =>
    refine layout_of 0 0 rest.toNat ?_ (by omega) (by simp) (by simp) (fun _ => rfl)
    simp [padLoop_eq]
  | false =>
    have hend : -2 ^ 31 < min rest 0 - 1 ∧ min rest 0 - 1 ≤ 0 := by omega
    have hfill : ∀ c, padLoop c rest = (List.replicate rest.toNat c, min rest 0 - 1) := by
      intro c
      rw [padLoop_eq, int32_of_lt (by omega) (by omega)]
    have hback : ∀ c, padLoop c (min rest 0 - 1) = ([], min rest 0 - 1 - 1) := fun c =>
      padLoop_neg c hend.2 hend.1
    have hback' : ∀ c, padLoop c (min rest 0 - 1 - 1) = ([], min rest 0 - 1 - 1 - 1) := fun c =>
      padLoop_neg c (by omega) (by omega)
    cases hz : flags.zeropad with
    | true =>
      refine layout_of 0 rest.toNat 0 ?_ (by omega) (by simp) (fun _ => ⟨rfl, rfl⟩) (by simp)
      simp [hfill, hback]
    | false =>
      refine layout_of rest.toNat 0 0 ?_ (by omega) (fun _ => ⟨rfl, rfl⟩) (by simp) (by simp)
      simp [hfill, hback, hback']

end Vsprintf

end Rdix
