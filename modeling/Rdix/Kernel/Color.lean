/-
  Colour sequences (kernel/console.c: _color_proc).

  A pointer into the text is what is left of the text from it on; `behind` is what a read behind its
  end gives.

  * `colorProc` reads a sequence `ESC [ … ]` of up to three codes, each with its own `Switch`;
  * `Spelled`: how codes are written down, `effect`: what they make of a colour;
  * `Taken`: the codes that are accepted; `Untouched`: the colours that a refused code leaves as they are;
  * `colorProc_atomic_iff`: a refused sequence leaves the colour and an accepted one has just the
    effect of its codes, but for the sequences that `Untouched` and `Spelt` rule out.
-/
import Rdix.Kernel.Number
import Rdix.Kernel.Console

namespace Rdix.Color

open Vsprintf (isDigit skipAtoi parse)

/-! ## The code -/

/-- `'\033'`. -/
abbrev esc : BitVec 8 := 27#8

abbrev colorTypeBlink : BitVec 8 := 0x80

abbrev colorTypeHighlight : BitVec 8 := 0x8

/-- The `switch` on a code, and the bits of the colour that are kept in front of it. -/
structure Switch where
  mask : BitVec 8
  case : ℕ → Option (BitVec 8 → BitVec 8)

/-- `GENERAL_CONTRAL`. -/
def genSwitch : Switch where
  mask := 0xff
  case
    | 0 => some fun _ => wordTypeDefault
    | 1 => some (· ||| colorTypeHighlight)
    | 2 => some (· &&& ~~~colorTypeHighlight)
    | 5 => some (· ||| colorTypeBlink)
    | _ => none

/-- `FORECOLOR`. -/
def foreSwitch : Switch where
  mask := 0xf8
  case
    | 30 => some (· ||| 0x0)
    | 31 => some (· ||| 0x4)
    | 32 => some (· ||| 0x2)
    | 33 => some (· ||| 0x6)
    | 34 => some (· ||| 0x1)
    | 35 => some (· ||| 0x5)
    | 36 => some (· ||| 0x3)
    | 37 => some (· ||| 0x7)
    | _ => none

/-- `BACKCOLOR`. -/
def backSwitch : Switch where
  mask := 0x8f
  case
    | 40 => some (· ||| 0x0)
    | 41 => some (· ||| 0x4 <<< 4)
    | 42 => some (· ||| 0x2 <<< 4)
    | 43 => some (· ||| 0x6 <<< 4)
    | 44 => some (· ||| 0x1 <<< 4)
    | 45 => some (· ||| 0x5 <<< 4)
    | 46 => some (· ||| 0x3 <<< 4)
    | 47 => some (· ||| 0x7 <<< 4)
    | _ => none

def switches : List Switch := [genSwitch, foreSwitch, backSwitch]

/-- A code is a `u8`. -/
def codeOf (i : ℤ) : ℕ := (BitVec.ofInt 8 i).toNat

/-- `*colorfmt_ptr`. -/
def atPtr (colorfmt : List (BitVec 8)) : BitVec 8 := colorfmt.headD 0

/-- The codes in `colorfmt`, one after the other: whether they are accepted, and `_color`. -/
def procCodes (pre_color : BitVec 8) : List Switch → BitVec 8 → List (BitVec 8) → Bool × BitVec 8
  | [], color, _ => (true, color)
  | sw :: sws, color, colorfmt =>
    let r := skipAtoi 0 colorfmt
    match sw.case (codeOf r.1) with
    -- `default: return fmt`
    | none => (false, color &&& sw.mask)
    | some set =>
      let color := set (color &&& sw.mask)
      -- nothing is read behind the last code
      if sws = [] ∨ atPtr r.2 = 0 then (true, color)
      else if atPtr r.2 ≠ chr ';' then (false, pre_color)
      else procCodes pre_color sws color r.2.tail

/-- `*str`. -/
def peek (behind : C (BitVec 8)) : List (BitVec 8) → C (BitVec 8)
  | [] => behind
  | ch :: _ => return ch

/-- The loop that fills `colorfmt`, with `n` bytes of it left: `str` at its end, and the bytes. -/
def bodyLoop (behind : C (BitVec 8)) : ℕ → List (BitVec 8) → C (List (BitVec 8) × List (BitVec 8))
  | 0, str => do
    let _ ← peek behind str
    return (str, [])
  | n + 1, str => do
    let ch ← peek behind str
    if ch ≠ chr ']' then
      let r ← bodyLoop behind n str.tail
      return (r.1, ch :: r.2)
    else return (str, [])

/-- `_color_proc`: where the text goes on, and `_color`. -/
def colorProc (behind : C (BitVec 8)) (fmt : List (BitVec 8)) (color : BitVec 8) :
    C (List (BitVec 8) × BitVec 8) := do
  let ch ← peek behind fmt
  if ch ≠ esc then return (fmt, color)
  let ch ← peek behind fmt.tail
  if ch ≠ chr '[' then return (fmt, color)
  let r ← bodyLoop behind 8 fmt.tail.tail
  let ch ← peek behind r.1
  if ch ≠ chr ']' then return (fmt, color)
  -- `*colorfmt_ptr = '\0'`
  if r.2.length = 8 then throw (.wild "colorfmt")
  let p := procCodes color switches color r.2
  return (if p.1 then r.1.tail else fmt, p.2)

/-! ## Codes -/

/-- Numbers with a `;` between them. -/
inductive Spelled : List ℕ → List (BitVec 8) → Prop where
  | last {ds : List (BitVec 8)} : ds ≠ [] → (∀ c ∈ ds, isDigit c = true) →
      Spelled [parse 10 ds] ds
  | more {ds body : List (BitVec 8)} {codes : List ℕ} : ds ≠ [] → (∀ c ∈ ds, isDigit c = true) →
      Spelled codes body → Spelled (parse 10 ds :: codes) (ds ++ chr ';' :: body)

/-- What one to three codes make of a colour. -/
def effect : List Switch → List ℕ → BitVec 8 → Option (BitVec 8)
  | sw :: _, [n], color => (sw.case n).map fun set => set (color &&& sw.mask)
  | sw :: sws, n :: ns, color => (sw.case n).bind fun set => effect sws ns (set (color &&& sw.mask))
  | _, _, _ => none

/-- **A sequence is refused as a whole, or has the effect of its codes.** -/
def Atomic (fmt : List (BitVec 8)) (color : BitVec 8) (r : List (BitVec 8) × BitVec 8) : Prop :=
  (r.1 = fmt → r.2 = color) ∧
    (r.1 ≠ fmt → ∃ codes body, fmt = esc :: chr '[' :: (body ++ chr ']' :: r.1) ∧ Spelled codes body ∧
      effect switches codes color = some r.2)

/-- Whether the codes are accepted. -/
def accepts : List Switch → List (BitVec 8) → Bool
  | [], _ => true
  | sw :: sws, colorfmt =>
    let r := skipAtoi 0 colorfmt
    match sw.case (codeOf r.1) with
    | none => false
    | some _ =>
      if sws = [] ∨ atPtr r.2 = 0 then true
      else if atPtr r.2 ≠ chr ';' then false
      else accepts sws r.2.tail

/-- A code that is refused finds the colour `pre_color`. -/
def Restores (pre_color : BitVec 8) : List Switch → BitVec 8 → List (BitVec 8) → Prop
  | [], _, _ => True
  | sw :: sws, color, colorfmt =>
    let r := skipAtoi 0 colorfmt
    match sw.case (codeOf r.1) with
    | none => color &&& sw.mask = pre_color
    | some set => sws ≠ [] → atPtr r.2 = chr ';' →
      Restores pre_color sws (set (color &&& sw.mask)) r.2.tail

/-- One to three numbers that fit into a byte. -/
def Spelt (body : List (BitVec 8)) : Prop :=
  ∃ codes, Spelled codes body ∧ codes.length ≤ 3 ∧ ∀ n ∈ codes, n < 2 ^ 8

/-! ## What stands in a sequence -/

/-- The number in front, as far as it fits into a byte. -/
def codeAt (text : List (BitVec 8)) : ℕ := parse 10 (text.takeWhile isDigit) % 2 ^ 8

/-- The text is over behind the number. -/
def EndsAt (text : List (BitVec 8)) : Prop := (text.dropWhile isDigit).headD 0 = 0

/-- What follows the number and a `;`. -/
def nextAt (text : List (BitVec 8)) : Option (List (BitVec 8)) :=
  if (text.dropWhile isDigit).headD 0 = chr ';' then some (text.dropWhile isDigit).tail else none

def genCodes : List ℕ := [0, 1, 2, 5]

def foreCodes : List ℕ := [30, 31, 32, 33, 34, 35, 36, 37]

def backCodes : List ℕ := [40, 41, 42, 43, 44, 45, 46, 47]

/-- The bits of the colour for a code of `foreCodes`. -/
def foreBits (fore : ℕ) : BitVec 8 := [0, 4, 2, 6, 1, 5, 3, 7].getD (fore - 30) 0

/-- **The codes are known**, and the text ends behind one of them. -/
def Taken (text : List (BitVec 8)) : Prop :=
  codeAt text ∈ genCodes ∧ (EndsAt text ∨ ∃ fore, nextAt text = some fore ∧
    codeAt fore ∈ foreCodes ∧ (EndsAt fore ∨ ∃ back, nextAt fore = some back ∧ codeAt back ∈ backCodes))

/-- The colour has the attributes that a code of `genCodes` gives it. -/
def HasAttr (gen : ℕ) (color : BitVec 8) : Prop :=
  (gen = 0 → color &&& 0xf8 = 0) ∧ (gen = 1 → color &&& 0x08 = 0x08) ∧ (gen = 2 → color &&& 0x08 = 0) ∧
    (gen = 5 → color &&& 0x80 = 0x80)

instance (gen : ℕ) (color : BitVec 8) : Decidable (HasAttr gen color) := inferInstanceAs (Decidable (_ ∧ _))

/-- **An unknown second or third code** stands behind codes that do not change the colour: it has their
    bits, and no others of those that are masked. -/
def Untouched (color : BitVec 8) (text : List (BitVec 8)) : Prop :=
  codeAt text ∈ genCodes → ∀ fore, nextAt text = some fore →
    (codeAt fore ∉ foreCodes → HasAttr (codeAt text) color ∧ color &&& 0x07 = 0) ∧
    (codeAt fore ∈ foreCodes → ∀ back, nextAt fore = some back → codeAt back ∉ backCodes →
      HasAttr (codeAt text) color ∧ color &&& 0x70 = 0 ∧ color &&& 0x07 = foreBits (codeAt fore))

section Codes
variable {sw : Switch} {sws : List Switch} {pre color c : BitVec 8} {body rest : List (BitVec 8)}
  {codes : List ℕ} {n : ℕ}

theorem Spelled.ne_nil (h : Spelled codes body) : codes ≠ [] := by
  cases h <;> simp

/-- Only digits and semicolons. -/
theorem Spelled.notMem (h : Spelled codes body) : chr ']' ∉ body := by
  have hdigits : ∀ ds : List (BitVec 8), (∀ c ∈ ds, isDigit c = true) → chr ']' ∉ ds := fun ds hds hmem =>
    absurd (hds _ hmem) (by decide)
  induction h with
  | last _ hds => exact hdigits _ hds
  | more _ hds _ ih =>
    rw [List.mem_append, List.mem_cons]
    rintro (h | h | h)
    · exact hdigits _ hds h
    · exact absurd h (by decide)
    · exact ih h

theorem codeOf_of_lt (h : n < 2 ^ 8) : codeOf (n : ℤ) = n := by
  rw [codeOf, BitVec.ofInt_natCast, BitVec.toNat_ofNat, Nat.mod_eq_of_lt h]

/-- **The ways a code can end**: it is refused, it is the last one, what follows is no `;`, or the next
    code follows. -/
theorem code_cases (pre color : BitVec 8) (sw : Switch) (sws : List Switch) (body : List (BitVec 8)) :
    (sw.case (codeOf (skipAtoi 0 body).1) = none ∧ accepts (sw :: sws) body = false ∧
      procCodes pre (sw :: sws) color body = (false, color &&& sw.mask) ∧
      (Restores pre (sw :: sws) color body ↔ color &&& sw.mask = pre)) ∨
    ∃ set, sw.case (codeOf (skipAtoi 0 body).1) = some set ∧
      ((accepts (sw :: sws) body = true ∧
          procCodes pre (sw :: sws) color body = (true, set (color &&& sw.mask)) ∧
          (sws = [] ∨ atPtr (skipAtoi 0 body).2 = 0) ∧ Restores pre (sw :: sws) color body) ∨
        (accepts (sw :: sws) body = false ∧ procCodes pre (sw :: sws) color body = (false, pre) ∧
          Restores pre (sw :: sws) color body ∧ atPtr (skipAtoi 0 body).2 ≠ chr ';') ∨
        (accepts (sw :: sws) body = accepts sws (skipAtoi 0 body).2.tail ∧
          procCodes pre (sw :: sws) color body =
            procCodes pre sws (set (color &&& sw.mask)) (skipAtoi 0 body).2.tail ∧
          (Restores pre (sw :: sws) color body ↔
            Restores pre sws (set (color &&& sw.mask)) (skipAtoi 0 body).2.tail) ∧
          sws ≠ [] ∧ atPtr (skipAtoi 0 body).2 = chr ';')) := by
  rw [accepts, procCodes, Restores]
  dsimp only
  cases hcase : sw.case (codeOf (skipAtoi 0 body).1) with
  | none => exact Or.inl ⟨rfl, rfl, rfl, Iff.rfl⟩
  | some set =>
    refine Or.inr ⟨set, rfl, ?_⟩
    dsimp only
    by_cases hend : sws = [] ∨ atPtr (skipAtoi 0 body).2 = 0
    · rw [if_pos hend, if_pos hend]
      refine Or.inl ⟨rfl, rfl, hend, fun hne hsep => ?_⟩
      rw [hsep] at hend
      exact absurd hend (not_or.2 ⟨hne, by decide⟩)
    · rw [if_neg hend, if_neg hend]
      by_cases hsep : atPtr (skipAtoi 0 body).2 = chr ';'
      · rw [if_neg (not_not.2 hsep), if_neg (not_not.2 hsep)]
        have hne : sws ≠ [] := fun he => hend (Or.inl he)
        exact Or.inr (Or.inr ⟨rfl, rfl, ⟨fun h => h hne hsep, fun h _ _ => h⟩, hne, hsep⟩)
      · rw [if_pos hsep, if_pos hsep]
        exact Or.inr (Or.inl ⟨rfl, rfl, fun _ h => absurd h hsep, hsep⟩)

/-- Whether a sequence is accepted does not depend on the colour. -/
theorem procCodes_fst (pre color : BitVec 8) (sws : List Switch) (body : List (BitVec 8)) :
    (procCodes pre sws color body).1 = accepts sws body := by
  induction sws generalizing color body with
  | nil => rfl
  | cons sw sws ih =>
    rcases code_cases pre color sw sws body with
      ⟨-, ha, hp, -⟩ | ⟨set, -, ⟨ha, hp, -⟩ | ⟨ha, hp, -⟩ | ⟨ha, hp, -⟩⟩
    · rw [ha, hp]
    · rw [ha, hp]
    · rw [ha, hp]
    · rw [ha, hp, ih]

/-- **A refused sequence** leaves the colour just if the code that is refused finds it. -/
theorem procCodes_refused (h : accepts sws body = false) :
    (procCodes pre sws color body).2 = pre ↔ Restores pre sws color body := by
  induction sws generalizing color body with
  | nil => cases h
  | cons sw sws ih =>
    rcases code_cases pre color sw sws body with
      ⟨-, -, hp, hr⟩ | ⟨set, -, ⟨ha, -⟩ | ⟨-, hp, hr, -⟩ | ⟨ha, hp, hr, -⟩⟩
    · rw [hp, hr]
    · rw [ha] at h
      cases h
    · rw [hp]
      exact iff_of_true rfl hr
    · rw [hp, hr]
      exact ih (ha ▸ h)

/-- No code of an accepted sequence is refused. -/
theorem restores_of_accepts (h : accepts sws body = true) : Restores pre sws color body := by
  induction sws generalizing color body with
  | nil => trivial
  | cons sw sws ih =>
    rcases code_cases pre color sw sws body with
      ⟨-, ha, -⟩ | ⟨set, -, ⟨-, -, -, hr⟩ | ⟨ha, -⟩ | ⟨ha, -, hr, -⟩⟩
    · rw [ha] at h
      cases h
    · exact hr
    · rw [ha] at h
      cases h
    · exact hr.2 (ih (ha ▸ h))

/-- **An accepted sequence that spells its codes** has their effect. -/
theorem procCodes_accepted (hs : Spelled codes body) (hlen : codes.length ≤ sws.length)
    (hlt : ∀ n ∈ codes, n < 2 ^ 8) (h : accepts sws body = true) :
    effect sws codes color = some (procCodes pre sws color body).2 := by
  induction hs generalizing sws color with
  | @last ds _ hds =>
    obtain _ | ⟨sw, sws⟩ := sws
    · cases hlen
    have hn := hlt _ List.mem_cons_self
    have hread := Vsprintf.skipAtoi_parse hds (by omega) [] rfl
    rw [List.append_nil] at hread
    have hc := code_cases pre color sw sws ds
    rw [hread, codeOf_of_lt hn] at hc
    rcases hc with ⟨-, ha, -⟩ | ⟨set, hset, ⟨-, hp, -⟩ | ⟨ha, -⟩ | ⟨-, -, -, -, hsep⟩⟩
    · rw [ha] at h
      cases h
    · rw [hp, effect, hset]
      rfl
    · rw [ha] at h
      cases h
    · exact absurd (show (0 : BitVec 8) = chr ';' from hsep) (by decide)
  | @more ds body codes _ hds hs ih =>
    obtain _ | ⟨sw, sws⟩ := sws
    · cases hlen
    have hn := hlt _ List.mem_cons_self
    have hread := Vsprintf.skipAtoi_parse hds (by omega) (chr ';' :: body)
      (List.dropWhile_cons_of_neg (by decide))
    have hc := code_cases pre color sw sws (ds ++ chr ';' :: body)
    rw [hread, codeOf_of_lt hn] at hc
    have heffect : effect (sw :: sws) (parse 10 ds :: codes) color =
        (sw.case (parse 10 ds)).bind fun set => effect sws codes (set (color &&& sw.mask)) := by
      obtain _ | ⟨m, codes⟩ := codes
      · exact absurd rfl hs.ne_nil
      · rfl
    rcases hc with ⟨-, ha, -⟩ | ⟨set, hset, ⟨-, -, hend, -⟩ | ⟨-, -, -, hsep⟩ | ⟨ha, hp, -⟩⟩
    · rw [ha] at h
      cases h
    · rcases hend with rfl | hzero
      · exact absurd (List.eq_nil_of_length_eq_zero (by simpa using hlen)) hs.ne_nil
      · exact absurd (show chr ';' = 0 from hzero) (by decide)
    · exact absurd rfl hsep
    · rw [hp, heffect, hset]
      exact ih (Nat.le_of_succ_le_succ hlen) (fun n hn => hlt n (List.mem_cons_of_mem _ hn)) (ha ▸ h)

/-- Codes with an effect fit into a byte. -/
theorem effect_lt (hsws : ∀ sw ∈ sws, ∀ n, (sw.case n).isSome = true → n < 2 ^ 8)
    (h : effect sws codes color = some c) : codes.length ≤ sws.length ∧ ∀ n ∈ codes, n < 2 ^ 8 := by
  induction codes generalizing sws color with
  | nil => exact ⟨Nat.zero_le _, nofun⟩
  | cons n codes ih =>
    obtain _ | ⟨sw, sws⟩ := sws
    · cases h
    have hhead : ∀ set, sw.case n = some set → n < 2 ^ 8 := fun set hset =>
      hsws sw List.mem_cons_self n (by rw [hset]; rfl)
    obtain _ | ⟨m, codes⟩ := codes
    · obtain ⟨set, hset, -⟩ := Option.map_eq_some_iff.1 h
      refine ⟨by simp, fun k hk => ?_⟩
      obtain rfl := List.mem_singleton.1 hk
      exact hhead set hset
    · obtain ⟨set, hset, h⟩ := Option.bind_eq_some_iff.1 h
      obtain ⟨hlen, hlt⟩ := ih (fun sw hsw => hsws sw (List.mem_cons_of_mem _ hsw)) h
      refine ⟨Nat.succ_le_succ hlen, fun k hk => ?_⟩
      rcases List.mem_cons.1 hk with rfl | hk
      · exact hhead set hset
      · exact hlt k hk

theorem switches_lt : ∀ sw ∈ switches, ∀ n, (sw.case n).isSome = true → n < 2 ^ 8 := by
  intro sw hsw n h
  by_contra hge
  have hnone : ∀ sw ∈ switches, ∀ n, sw.case (n + 48) = none := by
    intro sw hsw n
    simp only [switches, List.mem_cons, List.not_mem_nil, or_false] at hsw
    rcases hsw with rfl | rfl | rfl <;> rfl
  obtain ⟨k, rfl⟩ : ∃ k, n = k + 48 := ⟨n - 48, by omega⟩
  rw [hnone sw hsw k] at h
  cases h

end Codes

section Fields
variable {text fore : List (BitVec 8)} {sw : Switch} {codes : List ℕ}

theorem nextAt_eq_some : nextAt text = some fore ↔
    atPtr (text.dropWhile isDigit) = chr ';' ∧ (text.dropWhile isDigit).tail = fore := by
  unfold nextAt atPtr
  split_ifs with h
  · rw [and_iff_right h, Option.some_inj]
  · exact iff_of_false nofun fun hnext => h hnext.1

/-- What follows is shorter. -/
theorem length_nextAt (h : nextAt text = some fore) (hlen : text.length ≤ 8) : fore.length ≤ 8 := by
  obtain ⟨-, rfl⟩ := nextAt_eq_some.1 h
  have hdrop := (List.dropWhile_suffix isDigit (l := text)).length_le
  rw [List.length_tail]
  omega

/-- Eight digits make no number that overflows. -/
theorem codeOf_skipAtoi (hlen : text.length ≤ 8) : codeOf (skipAtoi 0 text).1 = codeAt text := by
  have hdigits : ∀ c ∈ text.takeWhile isDigit, isDigit c = true := fun c hc => List.mem_takeWhile_imp hc
  have hlt : parse 10 (text.takeWhile isDigit) < 10 ^ 8 := by
    rw [parse, Numeral.value_eq]
    refine (Nat.ofDigits_lt_base_pow_length (by decide) fun d hd => ?_).trans_le
      (Nat.pow_le_pow_right (by decide) ?_)
    · obtain ⟨c, hc, rfl⟩ := List.mem_map.1 (List.mem_reverse.1 hd)
      exact (Vsprintf.digit_digitVal (hdigits c hc)).1
    · rw [List.length_reverse, List.length_map]
      exact (List.takeWhile_prefix isDigit).length_le.trans hlen
  have hread := Vsprintf.skipAtoi_parse hdigits (hlt.trans (by decide)) (text.dropWhile isDigit)
    (List.dropWhile_idempotent _ _)
  rw [List.takeWhile_append_dropWhile] at hread
  rw [hread, codeOf, BitVec.ofInt_natCast, BitVec.toNat_ofNat, codeAt]

/-- A switch knows its codes, which are all below 48. -/
theorem case_isSome (hlow : ∀ n < 48, (sw.case n).isSome = true ↔ n ∈ codes) (hhigh : ∀ n, sw.case (n + 48) = none)
    (hcodes : ∀ n ∈ codes, n < 48) (n : ℕ) : (sw.case n).isSome = true ↔ n ∈ codes := by
  by_cases hn : n < 48
  · exact hlow n hn
  · obtain ⟨k, rfl⟩ : ∃ k, n = k + 48 := ⟨n - 48, by omega⟩
    rw [hhigh]
    exact iff_of_false nofun fun h => hn (hcodes _ h)

theorem genSwitch_isSome (n : ℕ) : (genSwitch.case n).isSome = true ↔ n ∈ genCodes :=
  case_isSome (by decide) (fun _ => rfl) (by decide) n

theorem foreSwitch_isSome (n : ℕ) : (foreSwitch.case n).isSome = true ↔ n ∈ foreCodes :=
  case_isSome (by decide) (fun _ => rfl) (by decide) n

theorem backSwitch_isSome (n : ℕ) : (backSwitch.case n).isSome = true ↔ n ∈ backCodes :=
  case_isSome (by decide) (fun _ => rfl) (by decide) n

/-- **One code is accepted**, and so is what follows it. -/
theorem accepts_cons {l : List Switch} (hsw : ∀ n, (sw.case n).isSome = true ↔ n ∈ codes)
    (hlen : text.length ≤ 8) : accepts (sw :: l) text = true ↔ codeAt text ∈ codes ∧
      (l = [] ∨ EndsAt text ∨ ∃ next, nextAt text = some next ∧ accepts l next = true) := by
  rw [accepts, codeOf_skipAtoi hlen, Vsprintf.skipAtoi_rest, ← hsw]
  cases sw.case (codeAt text) with
  | none => simp
  | some set =>
    dsimp only
    by_cases hend : l = [] ∨ atPtr (text.dropWhile isDigit) = 0
    · rw [if_pos hend]
      exact iff_of_true rfl ⟨rfl, hend.imp_right Or.inl⟩
    · obtain ⟨hne, hptr⟩ := not_or.1 hend
      rw [if_neg hend, or_iff_right hne, or_iff_right (show ¬ EndsAt text from hptr)]
      by_cases hsep : atPtr (text.dropWhile isDigit) = chr ';' <;> simp [nextAt_eq_some, hsep]

/-- **The codes that the switches accept.** -/
theorem accepts_iff (hlen : text.length ≤ 8) : accepts switches text = true ↔ Taken text := by
  rw [switches, accepts_cons genSwitch_isSome hlen, Taken]
  have hfore (fore : List (BitVec 8)) (h : nextAt text = some fore) :=
    accepts_cons (l := [backSwitch]) foreSwitch_isSome (length_nextAt h hlen)
  have hback (fore back : List (BitVec 8)) (h : nextAt text = some fore) (h' : nextAt fore = some back) :
      accepts [backSwitch] back = true ↔ codeAt back ∈ backCodes := by
    rw [accepts_cons backSwitch_isSome (length_nextAt h' (length_nextAt h hlen))]
    simp
  refine and_congr_right fun _ => ?_
  rw [or_iff_right (List.cons_ne_nil _ _)]
  refine or_congr_right (exists_congr fun fore => and_congr_right fun h => ?_)
  rw [hfore fore h, or_iff_right (List.cons_ne_nil _ _)]
  exact and_congr_right fun _ => or_congr_right (exists_congr fun back =>
    and_congr_right fun h' => hback fore back h h')

/-- **One code**: the colour is asked for where it is unknown. -/
theorem restores_cons {sws : List Switch} {pre color : BitVec 8} (hlen : text.length ≤ 8) :
    Restores pre (sw :: sws) color text ↔
      (sw.case (codeAt text) = none → color &&& sw.mask = pre) ∧
      ∀ set, sw.case (codeAt text) = some set → sws ≠ [] → ∀ next, nextAt text = some next →
        Restores pre sws (set (color &&& sw.mask)) next := by
  rw [Restores, codeOf_skipAtoi hlen, Vsprintf.skipAtoi_rest]
  cases sw.case (codeAt text) with
  | none => simp
  | some set => simp [nextAt_eq_some]

/-- **What the codes in front of an unknown one do to the colour.** -/
theorem gen_restores : ∀ gen ∈ genCodes, ∃ set, genSwitch.case gen = some set ∧ ∀ color : BitVec 8,
    (set (color &&& 0xff) &&& 0xf8 = color ↔ HasAttr gen color ∧ color &&& 0x07 = 0) ∧
    ∀ fore ∈ foreCodes, ((set (color &&& 0xff) &&& 0xf8 ||| foreBits fore) &&& 0x8f = color ↔
      HasAttr gen color ∧ color &&& 0x70 = 0 ∧ color &&& 0x07 = foreBits fore) := by
  intro gen hgen
  simp only [genCodes, List.mem_cons, List.not_mem_nil, or_false] at hgen
  rcases hgen with rfl | rfl | rfl | rfl
  · exact ⟨_, rfl, by decide +kernel⟩
  · exact ⟨_, rfl, by decide +kernel⟩
  · exact ⟨_, rfl, by decide +kernel⟩
  · exact ⟨_, rfl, by decide +kernel⟩

theorem fore_case {fore : ℕ} (h : fore ∈ foreCodes) : foreSwitch.case fore = some (· ||| foreBits fore) := by
  simp only [foreCodes, List.mem_cons, List.not_mem_nil, or_false] at h
  rcases h with rfl | rfl | rfl | rfl | rfl | rfl | rfl | rfl <;> rfl

/-- **A refused code finds the colour of before the call** just if the codes in front of it leave it. -/
theorem restores_iff (hlen : text.length ≤ 8) (color : BitVec 8) :
    Restores color switches color text ↔ Untouched color text := by
  have hnone {sw : Switch} {codes : List ℕ} (hsw : ∀ n, (sw.case n).isSome = true ↔ n ∈ codes) (n : ℕ) :
      sw.case n = none ↔ n ∉ codes := by
    rw [← hsw, Option.not_isSome_iff_eq_none]
  rw [switches, restores_cons hlen, Untouched]
  by_cases hgen : codeAt text ∈ genCodes
  swap
  · -- no bit is masked in front of the first switch
    refine iff_of_true ⟨fun _ => ?_, fun set hset => ?_⟩ fun h => absurd h hgen
    · exact BitVec.and_allOnes
    · rw [(hnone genSwitch_isSome _).2 hgen] at hset
      cases hset
  obtain ⟨set, hset, hcolor⟩ := gen_restores _ hgen
  obtain ⟨hfore, hback⟩ := hcolor color
  have hmask : genSwitch.mask = 0xff := rfl
  rw [hset, hmask, and_iff_right nofun]
  have hstep (fore : List (BitVec 8)) (h : nextAt text = some fore) :
      Restores color [foreSwitch, backSwitch] (set (color &&& 0xff)) fore ↔
        (codeAt fore ∉ foreCodes → HasAttr (codeAt text) color ∧ color &&& 0x07 = 0) ∧
        (codeAt fore ∈ foreCodes → ∀ back, nextAt fore = some back → codeAt back ∉ backCodes →
          HasAttr (codeAt text) color ∧ color &&& 0x70 = 0 ∧ color &&& 0x07 = foreBits (codeAt fore)) := by
    have hlen' := length_nextAt h hlen
    rw [restores_cons hlen', hnone foreSwitch_isSome]
    refine and_congr (imp_congr_right fun _ => hfore) ⟨fun hr hmem back hnext hunknown => ?_,
      fun hr set' hset' _ back hnext => ?_⟩
    · have hend := hr _ (fore_case hmem) (List.cons_ne_nil _ _) back hnext
      rw [restores_cons (length_nextAt hnext hlen')] at hend
      exact (hback _ hmem).1 (hend.1 ((hnone backSwitch_isSome _).2 hunknown))
    · have hmem := (foreSwitch_isSome _).1 (by rw [hset']; rfl)
      rw [fore_case hmem] at hset'
      obtain rfl := Option.some.inj hset'
      rw [restores_cons (length_nextAt hnext hlen')]
      exact ⟨fun hunknown => (hback _ hmem).2 (hr hmem back hnext ((hnone backSwitch_isSome _).1 hunknown)),
        fun _ _ hne => absurd rfl hne⟩
  exact ⟨fun hr _ fore h => (hstep fore h).1 (hr set rfl (List.cons_ne_nil _ _) fore h),
    fun hr set' hset' _ fore h => by
      obtain rfl := Option.some.inj hset'
      exact (hstep fore h).2 (hr hgen fore h)⟩

end Fields

/-! ## Sequences -/

/-- The memory ends with zeros. -/
abbrev memEnd : C (BitVec 8) := .ok 0

section Sequences
variable {behind : C (BitVec 8)} {fmt str body rest : List (BitVec 8)} {color : BitVec 8} {n : ℕ}

theorem peek_memEnd (str : List (BitVec 8)) : peek memEnd str = .ok (str.headD 0) := by
  cases str <;> rfl

/-- The loop up to the bracket. -/
theorem bodyLoop_seq (behind : C (BitVec 8)) (rest : List (BitVec 8)) (h : chr ']' ∉ body)
    (hlen : body.length ≤ n) :
    bodyLoop behind n (body ++ chr ']' :: rest) = .ok (chr ']' :: rest, body) := by
  induction body generalizing n with
  | nil => cases n <;> rfl
  | cons ch body ih =>
    obtain ⟨m, rfl⟩ : ∃ m, n = m + 1 := ⟨n - 1, by rw [List.length_cons] at hlen; omega⟩
    rw [List.mem_cons, not_or] at h
    have hpeek : peek behind (ch :: body ++ chr ']' :: rest) = .ok ch := rfl
    rw [bodyLoop, hpeek, ok_bind, if_pos (Ne.symm h.1), List.cons_append, List.tail_cons,
      ih h.2 (Nat.le_of_succ_le_succ hlen)]
    rfl

/-- The loop without a bracket in reach. -/
theorem bodyLoop_none (h : ∀ body rest, str = body ++ chr ']' :: rest → chr ']' ∉ body → n < body.length) :
    ∃ str' bytes, bodyLoop memEnd n str = .ok (str', bytes) ∧ str'.headD 0 ≠ chr ']' := by
  have hhead : str.headD 0 ≠ chr ']' := by
    intro he
    obtain _ | ⟨ch, str⟩ := str
    · exact absurd he (by decide)
    · exact absurd (h [] str (by rw [← he]; rfl) List.not_mem_nil) (Nat.not_lt_zero n)
  induction n generalizing str with
  | zero =>
    rw [bodyLoop, peek_memEnd]
    exact ⟨str, [], rfl, hhead⟩
  | succ n ih =>
    have htail : ∀ body rest, str.tail = body ++ chr ']' :: rest → chr ']' ∉ body → n < body.length := by
      intro body rest he hbody
      obtain _ | ⟨ch, str⟩ := str
      · exact absurd he (by simp)
      · have hmem : chr ']' ∉ ch :: body := by
          rw [List.mem_cons, not_or]
          exact ⟨Ne.symm hhead, hbody⟩
        exact Nat.lt_of_succ_lt_succ (h (ch :: body) rest (congrArg (ch :: ·) he) hmem)
    have hhead' : str.tail.headD 0 ≠ chr ']' := by
      intro he
      cases ht : str.tail with
      | nil =>
        rw [ht] at he
        exact absurd he (by decide)
      | cons ch t =>
        rw [ht] at he
        refine absurd (htail [] t ?_ List.not_mem_nil) (Nat.not_lt_zero n)
        rw [ht, ← he]
        rfl
    obtain ⟨str', bytes, hloop, hend⟩ := ih htail hhead'
    refine ⟨str', str.headD 0 :: bytes, ?_, hend⟩
    rw [bodyLoop, peek_memEnd, ok_bind, if_pos hhead, hloop]
    rfl

/-- **A sequence with its bracket in reach.** -/
theorem colorProc_seq (behind : C (BitVec 8)) (rest : List (BitVec 8)) (color : BitVec 8)
    (h : chr ']' ∉ body) (hlen : body.length ≤ 8) :
    colorProc behind (esc :: chr '[' :: (body ++ chr ']' :: rest)) color =
      if body.length = 8 then .error (.wild "colorfmt")
      else .ok (if accepts switches body then rest else esc :: chr '[' :: (body ++ chr ']' :: rest),
        (procCodes color switches color body).2) := by
  have h₁ : peek behind (esc :: chr '[' :: (body ++ chr ']' :: rest)) = .ok esc := rfl
  have h₂ : peek behind (chr '[' :: (body ++ chr ']' :: rest)) = .ok (chr '[') := rfl
  have h₃ : peek behind (chr ']' :: rest) = .ok (chr ']') := rfl
  rw [colorProc, h₁, ok_bind, if_neg (not_not.2 rfl), List.tail_cons, h₂, ok_bind, if_neg (not_not.2 rfl),
    List.tail_cons, bodyLoop_seq behind rest h hlen, ok_bind, h₃, ok_bind, if_neg (not_not.2 rfl)]
  by_cases h8 : body.length = 8
  · rw [if_pos h8, if_pos h8]
    rfl
  · rw [if_neg h8, if_neg h8, ← procCodes_fst color color]
    rfl

/-- **No sequence.** -/
theorem colorProc_none (fmt : List (BitVec 8)) (color : BitVec 8) (h : ∀ body rest,
    fmt = esc :: chr '[' :: (body ++ chr ']' :: rest) → chr ']' ∉ body → 8 < body.length) :
    colorProc memEnd fmt color = .ok (fmt, color) := by
  rw [colorProc, peek_memEnd, ok_bind]
  by_cases hesc : fmt.headD 0 = esc
  · rw [if_neg (not_not.2 hesc), peek_memEnd, ok_bind]
    by_cases hopen : fmt.tail.headD 0 = chr '['
    · rw [if_neg (not_not.2 hopen)]
      have hfmt : fmt = esc :: chr '[' :: fmt.tail.tail := by
        obtain _ | ⟨a, _ | ⟨b, t⟩⟩ := fmt
        · exact absurd hesc (by decide)
        · exact absurd (show (0 : BitVec 8) = chr '[' from hopen) (by decide)
        · rw [← hesc, ← hopen]
          rfl
      obtain ⟨str, bytes, hloop, hend⟩ := bodyLoop_none (n := 8) fun body rest he hb =>
        h body rest (he ▸ hfmt) hb
      rw [hloop, ok_bind, peek_memEnd, ok_bind, if_pos hend]
      rfl
    · rw [if_pos hopen]
      rfl
  · rw [if_pos hesc]
    rfl

/-- Where a bracket is found first. -/
theorem seq_unique {body' rest' : List (BitVec 8)} (h : chr ']' ∉ body) (h' : chr ']' ∉ body')
    (he : body ++ chr ']' :: rest = body' ++ chr ']' :: rest') : body = body' ∧ rest = rest' := by
  induction body generalizing body' with
  | nil =>
    obtain _ | ⟨c, body'⟩ := body'
    · exact ⟨rfl, List.tail_eq_of_cons_eq he⟩
    · exact absurd (List.head_eq_of_cons_eq he ▸ List.mem_cons_self) h'
  | cons c body ih =>
    obtain _ | ⟨c', body'⟩ := body'
    · exact absurd (List.head_eq_of_cons_eq he ▸ List.mem_cons_self) h
    · obtain ⟨rfl, he'⟩ := List.cons_eq_cons.1 he
      obtain ⟨rfl, rfl⟩ := ih (fun hm => h (List.mem_cons_of_mem _ hm))
        (fun hm => h' (List.mem_cons_of_mem _ hm)) he'
      exact ⟨rfl, rfl⟩

/-- **A refused sequence changes nothing and an accepted one has the effect of its codes** just when an
    unknown second or third code stands behind codes that do not change the colour, the codes of an
    accepted sequence are one to three numbers below 256, and no sequence fills the whole of `colorfmt`. -/
theorem colorProc_atomic_iff (fmt : List (BitVec 8)) (color : BitVec 8) :
    (∃ r, colorProc memEnd fmt color = .ok r ∧ Atomic fmt color r) ↔
      ∀ body rest, fmt = esc :: chr '[' :: (body ++ chr ']' :: rest) → chr ']' ∉ body → body.length ≤ 8 →
        body.length ≠ 8 ∧ Untouched color body ∧ (Taken body → Spelt body) := by
  by_cases hseq : ∃ body rest, fmt = esc :: chr '[' :: (body ++ chr ']' :: rest) ∧ chr ']' ∉ body ∧
      body.length ≤ 8
  · obtain ⟨body, rest, hfmt, hbody, hlen⟩ := hseq
    have hrest : rest ≠ fmt := by
      intro he
      have := congrArg List.length (he.trans hfmt)
      simp only [List.length_cons, List.length_append] at this
      omega
    have hrun := colorProc_seq memEnd rest color hbody hlen
    rw [← hfmt] at hrun
    constructor
    · rintro ⟨r, hr, hleft, hcodes⟩ body' rest' hfmt' hbody' -
      have he := List.cons_injective (List.cons_injective (hfmt.symm.trans hfmt'))
      obtain ⟨rfl, rfl⟩ := seq_unique hbody hbody' he
      rw [hrun] at hr
      have h8 : body.length ≠ 8 := fun h8 => by
        rw [if_pos h8] at hr
        cases hr
      rw [if_neg h8] at hr
      obtain rfl := Except.ok.inj hr
      dsimp only at hleft hcodes
      refine ⟨h8, (restores_iff hlen color).1 ?_, fun hacc => ?_⟩
      · cases hacc : accepts switches body with
        | true => exact restores_of_accepts hacc
        | false =>
          rw [hacc] at hleft
          exact (procCodes_refused hacc).1 (hleft rfl)
      · rw [(accepts_iff hlen).2 hacc] at hcodes
        obtain ⟨codes, body', hfmt'', hs, heff⟩ := hcodes hrest
        have he := List.cons_injective (List.cons_injective (hfmt.symm.trans hfmt''))
        obtain ⟨rfl, -⟩ := seq_unique hbody hs.notMem he
        obtain ⟨hcount, hlt⟩ := effect_lt switches_lt heff
        exact ⟨codes, hs, hcount, hlt⟩
    · intro h
      obtain ⟨h8, huntouched, hspelt⟩ := h body rest hfmt hbody hlen
      have hrestores := (restores_iff hlen color).2 huntouched
      rw [if_neg h8] at hrun
      refine ⟨_, hrun, ?_, ?_⟩
      · intro he
        cases hacc : accepts switches body with
        | true =>
          rw [hacc] at he
          exact absurd he hrest
        | false => exact (procCodes_refused hacc).2 hrestores
      · intro hne
        cases hacc : accepts switches body with
        | true =>
          obtain ⟨codes, hs, hcount, hlt⟩ := hspelt ((accepts_iff hlen).1 hacc)
          exact ⟨codes, body, hfmt, hs, procCodes_accepted hs hcount hlt hacc⟩
        | false =>
          rw [hacc] at hne
          exact absurd rfl hne
  · have hnone := colorProc_none fmt color fun body rest hfmt hbody =>
      not_le.1 fun hle => hseq ⟨body, rest, hfmt, hbody, hle⟩
    refine iff_of_true ⟨_, hnone, fun _ => rfl, fun h => absurd rfl h⟩ fun body rest hfmt hbody hle => ?_
    exact absurd ⟨body, rest, hfmt, hbody, hle⟩ hseq

/-- **Black on black is left behind** by a sequence whose second code is refused. -/
theorem colorProc_leaves :
    ¬ ∃ r, colorProc memEnd [esc, chr '[', chr '0', chr ';', chr '9', chr '9', chr ']'] 0x4e = .ok r ∧
      Atomic [esc, chr '[', chr '0', chr ';', chr '9', chr '9', chr ']'] 0x4e r := by
  rintro ⟨r, hr, hleft, -⟩
  have hrun : colorProc memEnd [esc, chr '[', chr '0', chr ';', chr '9', chr '9', chr ']'] 0x4e =
      .ok ([esc, chr '[', chr '0', chr ';', chr '9', chr '9', chr ']'], 0) := by decide +kernel
  obtain rfl := Except.ok.inj (hr.symm.trans hrun)
  exact absurd (hleft rfl) (by decide)

end Sequences

end Rdix.Color
