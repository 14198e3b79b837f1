/-
  Formatted text (kernel/vsprintf.c: vsprintf).

  The arguments are the words behind `fmt` on the stack; `strAt` gives the string at an address.  A
  read behind the NUL of the format string ends in `wild`.

  * `vsprintfLoop`: the loop, with its parts;
  * `Complete`: the format strings whose last conversion is not cut off;
  * `vsprintf_returns_iff`: on these, and on no others, `vsprintf` stays in its format string;
  * `unsigned_field`, `signed_field_iff`: what the conversions of numbers write.
-/
import Rdix.Kernel.Number
import Rdix.Kernel.ListNode

namespace Rdix.Vsprintf

open Nodes (Returns)

/-! ## The code -/

/-- The loop at `repeat`. -/
def flagsLoop (flags : Flags) : List (BitVec 8) → Flags × List (BitVec 8)
  | [] => (flags, [])
  | ch :: fmt =>
    if ch = chr '-' then flagsLoop { flags with left := true } fmt
    else if ch = chr '+' then flagsLoop { flags with plus := true } fmt
    else if ch = chr ' ' then flagsLoop { flags with space := true } fmt
    else if ch = chr '#' then flagsLoop { flags with special := true } fmt
    else if ch = chr '0' then flagsLoop { flags with zeropad := true } fmt
    else (flags, ch :: fmt)

/-- A number in front of what follows, if there is one. -/
def number? (fmt : List (BitVec 8)) : ℤ × List (BitVec 8) :=
  match fmt with
  | [] => (-1, [])
  | ch :: rest => if isDigit ch then skipAtoi 0 (ch :: rest) else (-1, ch :: rest)

/-- `.prec`. -/
def precisionOf (fmt : List (BitVec 8)) : ℤ × List (BitVec 8) :=
  match fmt with
  | [] => (-1, [])
  | ch :: rest =>
    if ch = chr '.' then
      let r := number? rest
      (if r.1 < 0 then 0 else r.1, r.2)
    else (-1, ch :: rest)

/-- The qualifier, which is not used. -/
def skipQualifier (fmt : List (BitVec 8)) : List (BitVec 8) :=
  match fmt with
  | [] => []
  | ch :: rest => if ch = chr 'h' ∨ ch = chr 'l' ∨ ch = chr 'L' then rest else ch :: rest

/-- The specifier `ch`: what it writes, and how many arguments have been read. -/
def convert (strAt : BitVec 32 → List (BitVec 8)) (arg : ℕ → BitVec 32) (n : ℕ) (ch : BitVec 8)
    (flags : Flags) (field_width precision : ℤ) : C (List (BitVec 8) × ℕ) :=
  if ch = chr 'd' ∨ ch = chr 'i' then do
    let str ← deref "str" (number (arg n) 10 field_width precision { flags with sign := true })
    return (str, n + 1)
  else if ch = chr 'p' then do
    let flags' := if field_width = -1 then { flags with zeropad := true } else flags
    let field_width' := if field_width = -1 then (if flags.special then 8 + 2 else 8) else field_width
    let str ← deref "str" (number (arg n) 16 field_width' precision flags')
    return (str, n + 1)
  else if ch = chr 'o' then do
    let str ← deref "str" (number (arg n) 8 field_width precision flags)
    return (str, n + 1)
  else if ch = chr 'x' then do
    let str ← deref "str" (number (arg n) 16 field_width precision { flags with small := true })
    return (str, n + 1)
  else if ch = chr 'X' then do
    let str ← deref "str" (number (arg n) 16 field_width precision flags)
    return (str, n + 1)
  else if ch = chr 's' then return (strAt (arg n), n + 1)
  else if ch = chr 'c' then return ([(arg n).setWidth 8], n + 1)
  else return ([], n)

/-- `flags = 0`. -/
def noFlags : Flags := ⟨false, false, false, false, false, false, false⟩

/-- What stands between a `%` and its specifier. -/
structure Spec where
  flags : Flags
  field_width : ℤ
  precision : ℤ
  rest : List (BitVec 8)

/-- From `flags = 0` up to the specifier; `fmt` points behind the `%`. -/
def spec (fmt : List (BitVec 8)) : Spec :=
  let r₁ := flagsLoop noFlags fmt
  let r₂ := number? r₁.2
  let r₃ := precisionOf r₂.2
  ⟨r₁.1, r₂.1, r₃.1, skipQualifier r₃.2⟩

/-- The loop of `vsprintf`: what it has written at the end. -/
def vsprintfLoop (strAt : BitVec 32 → List (BitVec 8)) (arg : ℕ → BitVec 32) :
    ℕ → List (BitVec 8) → ℕ → List (BitVec 8) → C (List (BitVec 8))
  | 0, _, _, _ => throw .loop
  | _ + 1, [], _, str => return str
  | fuel + 1, ch :: fmt, n, str =>
    if ch ≠ chr '%' then vsprintfLoop strAt arg fuel fmt n (str ++ [ch])
    else
      let sp := spec fmt
      match sp.rest with
      | [] => do
        -- the specifier is the NUL, and the next test of the loop reads behind it
        let _ ← convert strAt arg n 0 sp.flags sp.field_width sp.precision
        throw (.wild "fmt")
      | ch :: fmt => do
        let r ← convert strAt arg n ch sp.flags sp.field_width sp.precision
        vsprintfLoop strAt arg fuel fmt r.2 (str ++ r.1)

/-- `vsprintf`: the string it writes, without its NUL, and `str - buf`. -/
def vsprintf (strAt : BitVec 32 → List (BitVec 8)) (arg : ℕ → BitVec 32) (fuel : ℕ)
    (fmt : List (BitVec 8)) : C (List (BitVec 8) × ℕ) := do
  let str ← vsprintfLoop strAt arg fuel fmt 0 []
  return (str, str.length)

/-! ## The format string -/

variable {strAt : BitVec 32 → List (BitVec 8)} {arg : ℕ → BitVec 32}
  {fmt rest str fs : List (BitVec 8)} {ch : BitVec 8} {n w : ℕ} {width : Option ℕ}

theorem number?_rest (fmt : List (BitVec 8)) : (number? fmt).2 = fmt.dropWhile isDigit := by
  cases fmt with
  | nil => rfl
  | cons ch fmt =>
    unfold number?
    dsimp only
    by_cases h : isDigit ch = true
    · rw [if_pos h, skipAtoi_rest]
    · rw [if_neg h, List.dropWhile_cons_of_neg h]

def isFlag (ch : BitVec 8) : Bool :=
  ch = chr '-' ∨ ch = chr '+' ∨ ch = chr ' ' ∨ ch = chr '#' ∨ ch = chr '0'

theorem flagsLoop_rest (flags : Flags) (fmt : List (BitVec 8)) :
    (flagsLoop flags fmt).2 = fmt.dropWhile isFlag := by
  induction fmt generalizing flags with
  | nil => rfl
  | cons ch fmt ih =>
    unfold flagsLoop
    by_cases h : isFlag ch = true
    · rw [List.dropWhile_cons_of_pos h]
      have hor := of_decide_eq_true h
      split_ifs
      all_goals first
        | exact ih _
        | tauto
    · rw [List.dropWhile_cons_of_neg h]
      have hor : ¬ (ch = chr '-' ∨ ch = chr '+' ∨ ch = chr ' ' ∨ ch = chr '#' ∨ ch = chr '0') := fun h' =>
        h (decide_eq_true h')
      simp only [not_or] at hor
      obtain ⟨h₁, h₂, h₃, h₄, h₅⟩ := hor
      rw [if_neg h₁, if_neg h₂, if_neg h₃, if_neg h₄, if_neg h₅]

/-- The specifier and what follows: behind the flags, the digits of the width, the precision and the
    qualifier. -/
def specifier (fmt : List (BitVec 8)) : List (BitVec 8) :=
  let fmt := (fmt.dropWhile isFlag).dropWhile isDigit
  let fmt := if fmt.head? = some (chr '.') then fmt.tail.dropWhile isDigit else fmt
  if fmt.head? = some (chr 'h') ∨ fmt.head? = some (chr 'l') ∨ fmt.head? = some (chr 'L') then fmt.tail
  else fmt

theorem spec_rest (fmt : List (BitVec 8)) : (spec fmt).rest = specifier fmt := by
  have hq : ∀ fmt : List (BitVec 8), skipQualifier fmt =
      if fmt.head? = some (chr 'h') ∨ fmt.head? = some (chr 'l') ∨ fmt.head? = some (chr 'L') then fmt.tail
      else fmt := by
    intro fmt
    cases fmt with
    | nil => rfl
    | cons ch fmt => simp only [skipQualifier, List.head?_cons, Option.some.injEq, List.tail_cons]
  have hp : ∀ fmt : List (BitVec 8), (precisionOf fmt).2 =
      if fmt.head? = some (chr '.') then fmt.tail.dropWhile isDigit else fmt := by
    intro fmt
    cases fmt with
    | nil => rfl
    | cons ch fmt =>
      simp only [precisionOf, List.head?_cons, Option.some.injEq, List.tail_cons]
      by_cases h : ch = chr '.'
      · rw [if_pos h, if_pos h, number?_rest]
      · rw [if_neg h, if_neg h]
  unfold spec specifier
  dsimp only
  rw [hq, hp, number?_rest, flagsLoop_rest]

/-- `convert` always returns: `number` is called with the bases 8, 10 and 16. -/
theorem convert_ok (strAt : BitVec 32 → List (BitVec 8)) (arg : ℕ → BitVec 32) (n : ℕ) (ch : BitVec 8)
    (flags : Flags) (field_width precision : ℤ) :
    ∃ r, convert strAt arg n ch flags field_width precision = .ok r := by
  unfold convert
  split_ifs <;> exact ⟨_, rfl⟩

/-- No conversion is cut off by the end of the string: behind the flags, the width, the precision and
    the qualifier there is a character. -/
inductive Complete : List (BitVec 8) → Prop where
  | nil : Complete []
  | plain {ch : BitVec 8} {fmt : List (BitVec 8)} : ch ≠ chr '%' → Complete fmt → Complete (ch :: fmt)
  | conv {ch : BitVec 8} {fmt rest : List (BitVec 8)} : specifier fmt = ch :: rest → Complete rest →
      Complete (chr '%' :: fmt)

/-- **A format string without a cut conversion is read to its end.** -/
theorem Complete.returns (h : Complete fmt) (strAt : BitVec 32 → List (BitVec 8)) (arg : ℕ → BitVec 32)
    (n : ℕ) (str : List (BitVec 8)) :
    ∃ out, Returns (fun fuel => vsprintfLoop strAt arg fuel fmt n str) out := by
  induction h generalizing n str with
  | nil => exact ⟨str, (Returns.const (x := .ok str) rfl).turn rfl fun _ => rfl⟩
  | @plain ch fmt hch _ ih =>
    obtain ⟨out, hout⟩ := ih n (str ++ [ch])
    exact ⟨out, hout.turn rfl fun fuel => if_pos hch⟩
  | @conv ch fmt rest hspec _ ih =>
    obtain ⟨r, hr⟩ := convert_ok strAt arg n ch (spec fmt).flags (spec fmt).field_width (spec fmt).precision
    obtain ⟨out, hout⟩ := ih r.2 (str ++ r.1)
    refine ⟨out, hout.turn rfl fun fuel => ?_⟩
    rw [vsprintfLoop, if_neg (not_not.2 rfl)]
    dsimp only
    rw [spec_rest, hspec]
    dsimp only
    rw [hr, ok_bind]

/-- The loop returns only behind a complete format string. -/
theorem vsprintfLoop_complete {fuel : ℕ} {out : List (BitVec 8)}
    (h : vsprintfLoop strAt arg fuel fmt n str = .ok out) : Complete fmt := by
  induction fuel generalizing fmt n str with
  | zero => cases h
  | succ fuel ih =>
    cases fmt with
    | nil => exact .nil
    | cons ch fmt =>
      unfold vsprintfLoop at h
      by_cases hch : ch = chr '%'
      · subst hch
        rw [if_neg (not_not.2 rfl)] at h
        dsimp only at h
        cases hspec : (spec fmt).rest with
        | nil =>
          rw [hspec] at h
          obtain ⟨r, -, hr⟩ := bind_eq_ok.1 h
          cases hr
        | cons ch rest =>
          rw [hspec] at h
          obtain ⟨r, -, hr⟩ := bind_eq_ok.1 h
          exact .conv (spec_rest fmt ▸ hspec) (ih hr)
      · rw [if_pos hch] at h
        exact .plain hch (ih h)

/-- **`vsprintf` ends, stays in its format string and returns the length of what it has written**
    just when no conversion is cut off by the end of the string. -/
theorem vsprintf_returns_iff (strAt : BitVec 32 → List (BitVec 8)) (arg : ℕ → BitVec 32)
    (fmt : List (BitVec 8)) :
    (∃ out, Returns (fun fuel => vsprintf strAt arg fuel fmt) (out, out.length)) ↔ Complete fmt := by
  constructor
  · rintro ⟨out, h⟩
    obtain ⟨b, hb⟩ := h.enough
    obtain ⟨str, hstr, -⟩ := bind_eq_ok.1 (hb b le_rfl)
    exact vsprintfLoop_complete hstr
  · intro h
    obtain ⟨out, hout⟩ := h.returns strAt arg 0 []
    exact ⟨out, hout.bind rfl⟩

/-- **A format string that ends with `%`**: the byte behind its NUL is read. -/
theorem vsprintf_cut : ¬ ∃ out, Returns (fun fuel => vsprintf (fun _ => []) (fun _ => 0) fuel [chr 'a', chr '%'])
    (out, out.length) := by
  rintro ⟨out, h⟩
  obtain ⟨b, hb⟩ := h.enough
  have hwild : vsprintf (fun _ => []) (fun _ => 0) (b + 2) [chr 'a', chr '%'] = .error (.wild "fmt") := rfl
  rw [hb (b + 2) (Nat.le_add_right b 2)] at hwild
  cases hwild

/-! ## The conversions of numbers -/

/-- The flags that are given by the characters behind the `%`. -/
def given (fs : List (BitVec 8)) : Flags :=
  { zeropad := chr '0' ∈ fs, sign := false, plus := chr '+' ∈ fs, space := chr ' ' ∈ fs
    left := chr '-' ∈ fs, special := chr '#' ∈ fs, small := false }

/-- The field width, and -1 for none. -/
def widthOf (width : Option ℕ) : ℤ := width.elim (-1) fun w => (w : ℤ)

/-- A conversion with flags and a field width. -/
def conversion (fs : List (BitVec 8)) (width : Option ℕ) (ch : BitVec 8) : List (BitVec 8) :=
  chr '%' :: (fs ++ width.elim [] (numeral false 10) ++ [ch])

/-- The flags so far, and those of `fs`. -/
def Flags.and (flags : Flags) (fs : List (BitVec 8)) : Flags :=
  { flags with
    zeropad := flags.zeropad || (given fs).zeropad, plus := flags.plus || (given fs).plus
    space := flags.space || (given fs).space, left := flags.left || (given fs).left
    special := flags.special || (given fs).special }

theorem flagsLoop_end (flags : Flags) (hrest : rest.dropWhile isFlag = rest) :
    flagsLoop flags rest = (flags, rest) := by
  cases rest with
  | nil => rfl
  | cons ch rest =>
    have hor : ¬ (ch = chr '-' ∨ ch = chr '+' ∨ ch = chr ' ' ∨ ch = chr '#' ∨ ch = chr '0') := fun h =>
      head_dropWhile hrest (decide_eq_true h)
    simp only [not_or] at hor
    obtain ⟨h₁, h₂, h₃, h₄, h₅⟩ := hor
    rw [flagsLoop, if_neg h₁, if_neg h₂, if_neg h₃, if_neg h₄, if_neg h₅]

/-- **The loop of the flags** takes them in any order. -/
theorem flagsLoop_eq (flags : Flags) (hfs : ∀ c ∈ fs, isFlag c = true)
    (hrest : rest.dropWhile isFlag = rest) : flagsLoop flags (fs ++ rest) = (flags.and fs, rest) := by
  induction fs generalizing flags with
  | nil =>
    rw [List.nil_append, flagsLoop_end flags hrest]
    simp [Flags.and, given]
  | cons c fs ih =>
    have hc := of_decide_eq_true (hfs c List.mem_cons_self)
    have hrec := fun flags => ih flags fun c' hc' => hfs c' (List.mem_cons_of_mem c hc')
    rw [List.cons_append, flagsLoop]
    rcases hc with rfl | rfl | rfl | rfl | rfl
    all_goals
      simp only [if_true, if_neg (show ¬ chr '+' = chr '-' by decide),
        if_neg (show ¬ chr ' ' = chr '-' by decide), if_neg (show ¬ chr ' ' = chr '+' by decide),
        if_neg (show ¬ chr '#' = chr '-' by decide), if_neg (show ¬ chr '#' = chr '+' by decide),
        if_neg (show ¬ chr '#' = chr ' ' by decide), if_neg (show ¬ chr '0' = chr '-' by decide),
        if_neg (show ¬ chr '0' = chr '+' by decide), if_neg (show ¬ chr '0' = chr ' ' by decide),
        if_neg (show ¬ chr '0' = chr '#' by decide), hrec]
      simp [Flags.and, given, List.mem_cons, chr]
      exact ⟨by congr, by congr, by congr, by congr⟩

/-- A width begins with a digit, and not with a `0`. -/
theorem numeral_head (hw : 0 < w) : ∃ ch s, numeral false 10 w = ch :: s ∧ isDigit ch = true ∧
    isFlag ch = false := by
  have hdig : ∀ d < 10, isDigit (digit false d) = true ∧ (d ≠ 0 → isFlag (digit false d) = false) := by
    decide
  cases hl : Numeral.print 10 w with
  | nil => exact absurd hl (Numeral.print_ne_nil 10 w)
  | cons d l =>
    have hlt : d < 10 := Numeral.lt_of_mem_print (n := w) (by norm_num) (hl ▸ List.mem_cons_self)
    have hd : d ≠ 0 := by
      rintro rfl
      exact Numeral.head_print (Nat.ne_of_gt hw) (congrArg List.head? hl)
    exact ⟨digit false d, l.map (digit false), congrArg (List.map (digit false)) hl, (hdig d hlt).1,
      (hdig d hlt).2 hd⟩

/-- **A field width** is read back. -/
theorem number?_width (hw : ∀ w ∈ width, 0 < w ∧ w < 2 ^ 31) (hch : isDigit ch = false) :
    number? (width.elim [] (numeral false 10) ++ ch :: rest) = (widthOf width, ch :: rest) := by
  have hneg : ¬ isDigit ch = true := by simp [hch]
  cases width with
  | none => exact if_neg hneg
  | some w =>
    obtain ⟨c, s, hs, hc, -⟩ := numeral_head (hw w rfl).1
    have hread := skipAtoi_numeral (hw w rfl).2 (ch :: rest) (List.dropWhile_cons_of_neg hneg)
    rw [hs, List.cons_append] at hread
    rw [Option.elim_some, hs, List.cons_append]
    exact (if_pos hc).trans hread

/-- The specifiers of numbers. -/
def numbers : List (BitVec 8) := [chr 'd', chr 'i', chr 'o', chr 'x', chr 'X', chr 'p']

/-- **What is read of the conversion of a number.** -/
theorem spec_conversion (hfs : ∀ c ∈ fs, isFlag c = true) (hw : ∀ w ∈ width, 0 < w ∧ w < 2 ^ 31)
    (hch : ch ∈ numbers) : spec (fs ++ width.elim [] (numeral false 10) ++ [ch] ++ rest) =
      ⟨given fs, widthOf width, -1, ch :: rest⟩ := by
  have hplain : ∀ ch ∈ numbers, isFlag ch = false ∧ isDigit ch = false ∧ ch ≠ chr '.' ∧ ch ≠ chr 'h' ∧
    ch ≠ chr 'l' ∧ ch ≠ chr 'L' := by decide
  obtain ⟨hflag, hdigit, hdot, hh, hl, hL⟩ := hplain ch hch
  have hstart : (width.elim [] (numeral false 10) ++ ch :: rest).dropWhile isFlag =
      width.elim [] (numeral false 10) ++ ch :: rest := by
    cases width with
    | none => exact List.dropWhile_cons_of_neg (by simp [hflag])
    | some w =>
      obtain ⟨c, s, hs, -, hc⟩ := numeral_head (hw w rfl).1
      rw [Option.elim_some, hs, List.cons_append]
      exact List.dropWhile_cons_of_neg (by simp [hc])
  have hprec : precisionOf (ch :: rest) = (-1, ch :: rest) := if_neg hdot
  have hqual : skipQualifier (ch :: rest) = ch :: rest := if_neg (by tauto)
  have hfirst : noFlags.and fs = given fs := by simp [Flags.and, noFlags, given]
  unfold spec
  rw [List.append_assoc, List.append_assoc, List.singleton_append, flagsLoop_eq _ hfs hstart]
  dsimp only
  rw [number?_width hw hdigit]
  dsimp only
  rw [hprec, hqual, hfirst]

/-- **One turn of the loop** at the conversion of a number. -/
theorem vsprintfLoop_conversion (hfs : ∀ c ∈ fs, isFlag c = true) (hw : ∀ w ∈ width, 0 < w ∧ w < 2 ^ 31)
    (hch : ch ∈ numbers) (fuel : ℕ) : vsprintfLoop strAt arg (fuel + 1) (conversion fs width ch ++ rest) n str =
      convert strAt arg n ch (given fs) (widthOf width) (-1) >>= fun r =>
        vsprintfLoop strAt arg fuel rest r.2 (str ++ r.1) := by
  rw [conversion, List.cons_append, vsprintfLoop, if_neg (not_not.2 rfl)]
  dsimp only
  rw [spec_conversion hfs hw hch]

/-- At any place of a format string and with any text in front of it, `conv` takes the argument `n`
    and writes `out`. -/
def Writes (strAt : BitVec 32 → List (BitVec 8)) (arg : ℕ → BitVec 32) (n : ℕ) (conv out : List (BitVec 8)) :
    Prop :=
  ∀ fuel rest str, vsprintfLoop strAt arg (fuel + 1) (conv ++ rest) n str =
    vsprintfLoop strAt arg fuel rest (n + 1) (str ++ out)

theorem Writes.unique {conv out out' : List (BitVec 8)} (h : Writes strAt arg n conv out)
    (h' : Writes strAt arg n conv out') : out = out' :=
  Except.ok.inj ((h 1 [] []).symm.trans (h' 1 [] []))

theorem writes_of_convert {out : List (BitVec 8)} (hfs : ∀ c ∈ fs, isFlag c = true)
    (hw : ∀ w ∈ width, 0 < w ∧ w < 2 ^ 31) (hch : ch ∈ numbers)
    (h : convert strAt arg n ch (given fs) (widthOf width) (-1) = .ok (out, n + 1)) :
    Writes strAt arg n (conversion fs width ch) out := by
  intro fuel rest str
  rw [vsprintfLoop_conversion hfs hw hch, h, ok_bind]

/-- The base of an unsigned conversion. -/
def baseOf (ch : BitVec 8) : ℕ := if ch = chr 'o' then 8 else 16

/-- The width that an unsigned conversion uses: `%p` has 8 digits where none is given. -/
def unsignedWidth (fs : List (BitVec 8)) (width : Option ℕ) (ch : BitVec 8) : ℤ :=
  if ch = chr 'p' ∧ width = none then (if (given fs).special then 8 + 2 else 8) else widthOf width

/-- Whether an unsigned conversion pads with zeros: with `0`, and for `%p` without a width. -/
def unsignedZeros (fs : List (BitVec 8)) (width : Option ℕ) (ch : BitVec 8) : Bool :=
  (given fs).zeropad || decide (ch = chr 'p' ∧ width = none)

theorem widthOf_range (hw : ∀ w ∈ width, 0 < w ∧ w < 2 ^ 31) :
    -1 ≤ widthOf width ∧ widthOf width < 2 ^ 31 ∧ (widthOf width = -1 ↔ width = none) := by
  cases width with
  | none => simp [widthOf]
  | some w =>
    have hwidth : widthOf (some w) = w := rfl
    have := hw w rfl
    exact ⟨by omega, by omega, fun h => by omega, nofun⟩

theorem unsignedWidth_range (fs : List (BitVec 8)) (hw : ∀ w ∈ width, 0 < w ∧ w < 2 ^ 31) (ch : BitVec 8) :
    -1 ≤ unsignedWidth fs width ch ∧ unsignedWidth fs width ch < 2 ^ 31 := by
  obtain ⟨hlow, hhigh, -⟩ := widthOf_range hw
  unfold unsignedWidth
  split_ifs <;> omega

/-- The call of `number` in an unsigned conversion. -/
theorem convert_unsigned (strAt : BitVec 32 → List (BitVec 8)) (arg : ℕ → BitVec 32) (n : ℕ)
    (fs : List (BitVec 8)) (precision : ℤ) (hw : ∀ w ∈ width, 0 < w ∧ w < 2 ^ 31)
    (hch : ch ∈ [chr 'o', chr 'x', chr 'X', chr 'p']) :
    convert strAt arg n ch (given fs) (widthOf width) precision =
      deref "str" (number (arg n) (baseOf ch) (unsignedWidth fs width ch) precision
        { given fs with zeropad := unsignedZeros fs width ch, small := ch = chr 'x' }) >>=
      fun str => return (str, n + 1) := by
  have hplain : ∀ ch, ch ≠ chr 'p' → unsignedWidth fs width ch = widthOf width ∧
      unsignedZeros fs width ch = (given fs).zeropad := by
    intro ch h
    rw [unsignedWidth, if_neg (fun h' => h h'.1), unsignedZeros, decide_eq_false (fun h' => h h'.1),
      Bool.or_false]
    exact ⟨rfl, rfl⟩
  simp only [List.mem_cons, List.not_mem_nil, or_false] at hch
  rcases hch with rfl | rfl | rfl | rfl
  · rw [(hplain _ (by decide)).1, (hplain _ (by decide)).2]
    rfl
  · rw [(hplain _ (by decide)).1, (hplain _ (by decide)).2]
    rfl
  · rw [(hplain _ (by decide)).1, (hplain _ (by decide)).2]
    rfl
  · -- `%p` changes the flags and the width where no width is given
    obtain ⟨-, -, hnone⟩ := widthOf_range hw
    unfold unsignedWidth unsignedZeros
    by_cases h : width = none
    · rw [if_pos ⟨rfl, h⟩, decide_eq_true ⟨rfl, h⟩, Bool.or_true]
      simp only [convert, hnone.2 h]
      rfl
    · rw [if_neg (fun h' => h h'.2), decide_eq_false (fun h' => h h'.2), Bool.or_false]
      have hne : ¬ widthOf width = -1 := fun h' => h (hnone.1 h')
      simp only [convert, hne]
      rfl

/-- **The unsigned conversions** write the argument in a field with the flags and the width that are
    given; its digits have no leading zero and are read back as the argument. -/
theorem unsigned_field (strAt : BitVec 32 → List (BitVec 8)) (arg : ℕ → BitVec 32) (n : ℕ)
    (hfs : ∀ c ∈ fs, isFlag c = true) (hw : ∀ w ∈ width, 0 < w ∧ w < 2 ^ 31)
    (hch : ch ∈ [chr 'o', chr 'x', chr 'X', chr 'p']) :
    ∃ out digits, Writes strAt arg n (conversion fs width ch) out ∧
      Layout out (plainSign (given fs)) (prefixOf (baseOf ch) (given fs)) digits
        (unsignedZeros fs width ch) (given fs).left (unsignedWidth fs width ch) ∧
      digits = numeral (ch = chr 'x') (baseOf ch) (arg n).toNat ∧
      parse (baseOf ch) digits = (arg n).toNat ∧ digits ≠ [] ∧
      (digits.head? = some (chr '0') → digits = [chr '0']) := by
  have hbase : baseOf ch = 8 ∨ baseOf ch = 16 := by
    unfold baseOf
    split_ifs <;> simp
  have hb : 1 < baseOf ch ∧ baseOf ch ≤ 36 := by omega
  have hmem : ch ∈ numbers := by
    simp only [List.mem_cons, List.not_mem_nil, or_false] at hch
    simp only [numbers, List.mem_cons, List.not_mem_nil, or_false]
    tauto
  obtain ⟨hlow, hhigh⟩ := unsignedWidth_range fs hw ch
  obtain ⟨out, hout, hl⟩ := number_layout (arg n) (-1)
    { given fs with zeropad := unsignedZeros fs width ch, small := ch = chr 'x' } hb.1 hb.2
    (fun _ => hbase) hlow hhigh
  have hconv := convert_unsigned strAt arg n fs (-1) hw hch
  rw [hout] at hconv
  exact ⟨out, _, writes_of_convert hfs hw hmem hconv, hl, rfl, parse_numeral hb.1 hb.2, numeral_ne_nil,
    numeral_minimal hb.1 hb.2⟩

theorem unsigned_field_hex : ∃ out digits,
    Writes (fun _ => []) (fun _ => 255) 0 (conversion [chr '#', chr '0'] (some 6) (chr 'x')) out ∧
      Layout out (plainSign (given [chr '#', chr '0'])) (prefixOf (baseOf (chr 'x')) (given [chr '#', chr '0']))
        digits (unsignedZeros [chr '#', chr '0'] (some 6) (chr 'x')) (given [chr '#', chr '0']).left
        (unsignedWidth [chr '#', chr '0'] (some 6) (chr 'x')) ∧
      digits = numeral (chr 'x' = chr 'x') (baseOf (chr 'x')) (255 : BitVec 32).toNat ∧
      parse (baseOf (chr 'x')) digits = (255 : BitVec 32).toNat ∧ digits ≠ [] ∧
      (digits.head? = some (chr '0') → digits = [chr '0']) :=
  unsigned_field _ _ _ (by decide) (by simp) (by decide)

/-- A number of 32 bits as signed text: a minus sign and the digits of its absolute value if it is
    negative, in a field as the flags and the width say. -/
def SignedField (v : ℤ) (flags : Flags) (width : ℤ) (out : List (BitVec 8)) : Prop :=
  Layout out (if v < 0 then [chr '-'] else plainSign flags) [] (numeral false 10 v.natAbs)
    flags.zeropad flags.left width

/-- `number` never writes a minus sign. -/
theorem minus_notMem {out sign pre : List (BitVec 8)} {zero left : Bool} {size : ℤ} {k : ℕ}
    (hl : Layout out sign pre (numeral false 10 k) zero left size) (hsign : chr '-' ∉ sign)
    (hpre : chr '-' ∉ pre) : chr '-' ∉ out := by
  obtain ⟨a, z, b, rfl, -⟩ := hl
  have hdigits : chr '-' ∉ numeral false 10 k := by
    intro h
    obtain ⟨d, hd, hc⟩ := List.mem_map.1 h
    have hdig : isDigit (digit false d) = true := isDigit_digit (Numeral.lt_of_mem_print (by norm_num) hd)
    rw [hc] at hdig
    exact absurd hdig (by decide)
  have hspace : chr '-' ≠ chr ' ' := by decide
  have hzero : chr '-' ≠ chr '0' := by decide
  simp only [List.mem_append, List.mem_replicate, not_or, not_and]
  exact ⟨⟨⟨⟨⟨fun _ => hspace, hsign⟩, hpre⟩, fun _ => hzero⟩, hdigits⟩, fun _ => hspace⟩

/-- **`%d` and `%i` write a signed number** just when it is not negative: `num < 0` is never true of an
    unsigned argument, and the text of a negative number is that of its unsigned value. -/
theorem signed_field_iff (strAt : BitVec 32 → List (BitVec 8)) (arg : ℕ → BitVec 32) (n : ℕ)
    (hfs : ∀ c ∈ fs, isFlag c = true) (hsp : chr '#' ∉ fs) (hw : ∀ w ∈ width, 0 < w ∧ w < 2 ^ 31)
    (hch : ch ∈ [chr 'd', chr 'i']) :
    (∃ out, Writes strAt arg n (conversion fs width ch) out ∧
      SignedField (arg n).toInt (given fs) (widthOf width) out) ↔ 0 ≤ (arg n).toInt := by
  have hspecial : (given fs).special = false := decide_eq_false hsp
  have hpre : prefixOf 10 { given fs with sign := true } = [] := by
    rw [prefixOf, hspecial]
    rfl
  obtain ⟨hlow, hhigh, -⟩ := widthOf_range hw
  obtain ⟨out, hout, hl⟩ := number_layout (arg n) (-1) { given fs with sign := true }
    (show 1 < 10 by norm_num) (by norm_num) (fun h => absurd (hspecial.symm.trans h) (by decide)) hlow hhigh
  rw [hpre] at hl
  have hmem : ch ∈ numbers := by
    simp only [List.mem_cons, List.not_mem_nil, or_false] at hch
    simp only [numbers, List.mem_cons, List.not_mem_nil, or_false]
    tauto
  have hwrites : Writes strAt arg n (conversion fs width ch) out := by
    refine writes_of_convert hfs hw hmem ?_
    rw [convert, if_pos (by simpa using hch), hout]
    rfl
  constructor
  · rintro ⟨out', hout', hs⟩
    rw [hout'.unique hwrites] at hs
    by_contra hneg
    obtain ⟨a, z, b, he, -⟩ := hs
    have hminus : chr '-' ∈ out := by
      rw [he, if_pos (by omega)]
      simp
    refine minus_notMem hl ?_ List.not_mem_nil hminus
    unfold plainSign
    split_ifs <;> decide
  · intro hnn
    have hnat : (arg n).toInt.natAbs = (arg n).toNat := by
      have := BitVec.toInt_eq_toNat_cond (arg n)
      have := (arg n).isLt
      split_ifs at * <;> omega
    refine ⟨out, hwrites, ?_⟩
    rw [SignedField, if_neg (by omega), hnat]
    exact hl

theorem signed_field_seven : (∃ out, Writes (fun _ => []) (fun _ => 7) 0 (conversion [chr '+'] (some 5) (chr 'd')) out ∧
    SignedField (7 : BitVec 32).toInt (given [chr '+']) (widthOf (some 5)) out) ↔ 0 ≤ (7 : BitVec 32).toInt :=
  signed_field_iff _ _ _ (by decide) (by decide) (by simp) (by decide)

/-- **The text of -1 is 4294967295.** -/
theorem signed_minus_one :
    vsprintf (fun _ => []) (fun _ => BitVec.ofInt 32 (-1)) 2 [chr '%', chr 'd'] =
      .ok (['4', '2', '9', '4', '9', '6', '7', '2', '9', '5'].map chr, 10) := by
  decide +kernel

end Rdix.Vsprintf
