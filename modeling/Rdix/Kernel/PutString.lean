/-
  Text for the console (kernel/console.c: console_put_string).

  The loops hand characters to `console_put_char`, each with the colour of the moment.

  * `skipColors`, `putLoop`: the two loops;
  * `Met`: where they come to in the text;
  * `putString_returns_iff`: they end just when every sequence that they meet is accepted;
  * `putString_inside_iff`: they read only the first `count` bytes, and none behind the NUL, just when
    `Stays` holds of what they meet.
-/
import Rdix.Kernel.Color
import Rdix.Kernel.ListNode

namespace Rdix.Color

open Nodes (Returns)

/-! ## The code -/

/-- The inner loop. -/
def skipColors (behind : C (BitVec 8)) : ℕ → List (BitVec 8) → BitVec 8 → C (List (BitVec 8) × BitVec 8)
  | 0, _, _ => throw .loop
  | fuel + 1, str, color => do
    let ch ← peek behind str
    if ch ≠ esc then return (str, color)
    let ch ← peek behind str.tail
    if ch ≠ chr '[' then return (str, color)
    let r ← colorProc behind str color
    skipColors behind fuel r.1 r.2

/-- The outer loop; `put` has been handed to `console_put_char`. -/
def putLoop (behind : C (BitVec 8)) :
    ℕ → List (BitVec 8) → ℤ → BitVec 8 → List (BitVec 8 × BitVec 8) → C (List (BitVec 8 × BitVec 8))
  | 0, _, _, _, _ => throw .loop
  | fuel + 1, str, count, color, put => do
    -- `*str` is read also when nothing is left of `count`
    let ch ← peek behind str
    if ch = 0 ∨ count = 0 then return put
    let r ← skipColors behind fuel str color
    let ch ← peek behind r.1
    putLoop behind fuel r.1.tail (count - 1) r.2 (put ++ [(ch, r.2)])

/-- `console_put_string`: what it has handed to `console_put_char`, and `_color`. -/
def consolePutString (behind : C (BitVec 8)) (str : List (BitVec 8)) (count : ℤ) (color : BitVec 8)
    (fuel : ℕ) : C (List (BitVec 8 × BitVec 8) × BitVec 8) := do
  let put ← putLoop behind fuel str count color []
  return (put, wordTypeDefault)

/-! ## Where the loops come to -/

/-- A sequence that is accepted, behind its `ESC [`. -/
def Accepted (str body rest : List (BitVec 8)) : Prop :=
  str = body ++ chr ']' :: rest ∧ chr ']' ∉ body ∧ body.length < 8 ∧ accepts switches body = true

/-- What the outer (`false`) and the inner loop (`true`) come to, with what is left of `count`. -/
inductive Met (str₀ : List (BitVec 8)) (count₀ : ℤ) : Bool → List (BitVec 8) → ℤ → Prop where
  | start : Met str₀ count₀ false str₀ count₀
  | enter {str : List (BitVec 8)} {count : ℤ} : Met str₀ count₀ false str count → str.headD 0 ≠ 0 →
      count ≠ 0 → Met str₀ count₀ true str (count - 1)
  | next {str body rest : List (BitVec 8)} {count : ℤ} : Met str₀ count₀ true (esc :: chr '[' :: str) count →
      Accepted str body rest → Met str₀ count₀ true rest count
  | put {str : List (BitVec 8)} {count : ℤ} : Met str₀ count₀ true str count →
      (¬ ∃ t, str = esc :: chr '[' :: t) → Met str₀ count₀ false str.tail count

section Loops
variable {behind : C (BitVec 8)} {str str₀ body rest t : List (BitVec 8)} {color : BitVec 8}
  {put : List (BitVec 8 × BitVec 8)} {count count₀ : ℤ} {fuel : ℕ}

/-- The rest of a turn of the outer loop, from the inner loop on. -/
def turnRest (behind : C (BitVec 8)) (fuel fuel' : ℕ) (str : List (BitVec 8)) (count : ℤ) (color : BitVec 8)
    (put : List (BitVec 8 × BitVec 8)) : C (List (BitVec 8 × BitVec 8)) :=
  skipColors behind fuel str color >>= fun r => peek behind r.1 >>= fun ch =>
    putLoop behind fuel' r.1.tail count r.2 (put ++ [(ch, r.2)])

theorem putLoop_done (h : str.headD 0 = 0 ∨ count = 0) :
    putLoop memEnd (fuel + 1) str count color put = .ok put := by
  rw [putLoop, peek_memEnd, ok_bind, if_pos h]
  rfl

theorem putLoop_turn (hpeek : peek behind str = .ok (str.headD 0)) (hstr : str.headD 0 ≠ 0) (hcount : count ≠ 0) :
    putLoop behind (fuel + 1) str count color put =
      turnRest behind fuel fuel str (count - 1) color put := by
  rw [putLoop, hpeek, ok_bind, if_neg (not_or.2 ⟨hstr, hcount⟩)]
  rfl

theorem peek_cons (behind : C (BitVec 8)) (ch : BitVec 8) (str : List (BitVec 8)) :
    peek behind (ch :: str) = .ok ch := rfl

theorem skipColors_seq : skipColors behind (fuel + 1) (esc :: chr '[' :: t) color =
    colorProc behind (esc :: chr '[' :: t) color >>= fun r => skipColors behind fuel r.1 r.2 := by
  rw [skipColors, peek_cons, ok_bind, if_neg (not_not.2 rfl), List.tail_cons, peek_cons, ok_bind,
    if_neg (not_not.2 rfl)]

/-- **The inner loop at an accepted sequence** goes on behind it. -/
theorem skipColors_accepted (h : Accepted str body rest) :
    skipColors behind (fuel + 1) (esc :: chr '[' :: str) color =
      skipColors behind fuel rest (procCodes color switches color body).2 := by
  obtain ⟨rfl, hbody, hlen, hacc⟩ := h
  rw [skipColors_seq, colorProc_seq behind rest color hbody hlen.le, if_neg hlen.ne, ok_bind, hacc]
  rfl

/-- The inner loop at a sequence that is refused stays there. -/
theorem skipColors_refused (behind : C (BitVec 8)) (rest : List (BitVec 8)) (hbody : chr ']' ∉ body)
    (hlen : body.length < 8) (h : accepts switches body = false) :
    skipColors behind (fuel + 1) (esc :: chr '[' :: (body ++ chr ']' :: rest)) color =
      skipColors behind fuel (esc :: chr '[' :: (body ++ chr ']' :: rest))
        (procCodes color switches color body).2 := by
  rw [skipColors_seq, colorProc_seq behind rest color hbody hlen.le, if_neg hlen.ne, ok_bind, h]
  rfl

/-- The inner loop at the end of its sequences. -/
theorem skipColors_end (hstr : str ≠ []) (hesc : str ≠ [esc]) (h : ¬ ∃ t, str = esc :: chr '[' :: t) :
    skipColors behind (fuel + 1) str color = .ok (str, color) := by
  obtain _ | ⟨ch, str⟩ := str
  · exact absurd rfl hstr
  rw [skipColors, peek_cons, ok_bind]
  by_cases hch : ch = esc
  · rw [if_neg (not_not.2 hch), List.tail_cons]
    obtain _ | ⟨ch', str⟩ := str
    · exact absurd (hch ▸ rfl) hesc
    rw [peek_cons, ok_bind, if_pos]
    · rfl
    · rintro rfl
      exact h ⟨str, hch ▸ rfl⟩
  · rw [if_pos hch]
    rfl

/-- Behind the text there are zeros, or nothing can be read. -/
def Bounded (behind : C (BitVec 8)) : Prop := behind = .ok 0 ∨ ∃ e, e ≠ .loop ∧ behind = .error e

theorem Bounded.peek (hb : Bounded behind) (str : List (BitVec 8)) :
    peek behind str = .ok (str.headD 0) ∨ ∃ e, e ≠ .loop ∧ Color.peek behind str = .error e := by
  obtain _ | ⟨ch, str⟩ := str
  · rcases hb with rfl | ⟨e, he, rfl⟩
    · exact Or.inl rfl
    · exact Or.inr ⟨e, he, rfl⟩
  · exact Or.inl rfl

theorem Bounded.skipColors (hb : Bounded behind) (h : ¬ ∃ t, str = esc :: chr '[' :: t) (fuel : ℕ)
    (color : BitVec 8) :
    skipColors behind (fuel + 1) str color = .ok (str, color) ∨
      ∃ e, e ≠ .loop ∧ Color.skipColors behind (fuel + 1) str color = .error e := by
  by_cases hstr : str = []
  · rcases hb with rfl | ⟨e, he, rfl⟩
    · exact Or.inl (hstr ▸ rfl)
    · exact Or.inr ⟨e, he, hstr ▸ rfl⟩
  by_cases hesc : str = [esc]
  · rcases hb with rfl | ⟨e, he, rfl⟩
    · exact Or.inl (hesc ▸ rfl)
    · exact Or.inr ⟨e, he, hesc ▸ rfl⟩
  exact Or.inl (skipColors_end hstr hesc h)

/-- **A run that is not stopped gets to what is met**, with as much fuel left as is asked for. -/
theorem Met.reach {inner : Bool} {color₀ : BitVec 8} {put₀ : List (BitVec 8 × BitVec 8)} {b : ℕ}
    (hm : Met str₀ count₀ inner str count) (hb : Bounded behind)
    (hsafe : ∀ fuel ≥ b, ∀ e, putLoop behind fuel str₀ count₀ color₀ put₀ = .error e → e = .loop) :
    ∃ color put, ∀ n, ∃ fuel ≥ b, ∃ f ≥ n, ∃ f' ≥ n, putLoop behind fuel str₀ count₀ color₀ put₀ =
      if inner then turnRest behind f f' str count color put else putLoop behind f str count color put := by
  induction hm with
  | start => exact ⟨color₀, put₀, fun n => ⟨max b n, le_max_left b n, max b n, le_max_right b n, n, le_rfl, rfl⟩⟩
  | @enter str count _ hne hcount ih =>
    obtain ⟨color, put, hreach⟩ := ih
    refine ⟨color, put, fun n => ?_⟩
    obtain ⟨fuel, hfuel, f, hf, f', hf', hrun⟩ := hreach (n + 1)
    obtain ⟨k, rfl⟩ : ∃ k, f = k + 1 := ⟨f - 1, by omega⟩
    obtain _ | ⟨ch, str⟩ := str
    · exact absurd rfl hne
    exact ⟨fuel, hfuel, k, by omega, k, by omega, hrun.trans (putLoop_turn rfl hne hcount)⟩
  | @next str body rest count _ hacc ih =>
    obtain ⟨color, put, hreach⟩ := ih
    refine ⟨(procCodes color switches color body).2, put, fun n => ?_⟩
    obtain ⟨fuel, hfuel, f, hf, f', hf', hrun⟩ := hreach (n + 1)
    obtain ⟨k, rfl⟩ : ∃ k, f = k + 1 := ⟨f - 1, by omega⟩
    refine ⟨fuel, hfuel, k, by omega, f', by omega, hrun.trans ?_⟩
    rw [if_pos rfl, if_pos rfl, turnRest, skipColors_accepted hacc]
    rfl
  | @put str count _ hno ih =>
    obtain ⟨color, put, hreach⟩ := ih
    refine ⟨color, put ++ [(str.headD 0, color)], fun n => ?_⟩
    obtain ⟨fuel, hfuel, f, hf, f', hf', hrun⟩ := hreach (n + 1)
    obtain ⟨k, rfl⟩ : ∃ k, f = k + 1 := ⟨f - 1, by omega⟩
    rw [if_pos rfl, turnRest] at hrun
    rcases hb.skipColors hno k color with hs | ⟨e, he, hs⟩
    · rw [hs, ok_bind] at hrun
      rcases hb.peek str with hp | ⟨e, he, hp⟩
      · rw [hp, ok_bind] at hrun
        exact ⟨fuel, hfuel, f', by omega, n, le_rfl, hrun⟩
      · rw [hp] at hrun
        exact absurd (hsafe fuel hfuel e hrun) he
    · rw [hs] at hrun
      exact absurd (hsafe fuel hfuel e hrun) he

end Loops

/-! ## Ending -/

section Ending
variable {str str₀ t : List (BitVec 8)} {color : BitVec 8} {put : List (BitVec 8 × BitVec 8)} {count left : ℤ}

theorem skipColors_memEnd (h : ¬ ∃ t, str = esc :: chr '[' :: t) (fuel : ℕ) :
    skipColors memEnd (fuel + 1) str color = .ok (str, color) := by
  by_cases hstr : str = []
  · exact hstr ▸ rfl
  by_cases hesc : str = [esc]
  · exact hesc ▸ rfl
  exact skipColors_end hstr hesc h

/-- **A sequence that is not accepted** is never left. -/
theorem skipColors_stuck (h : ¬ ∃ body rest, Accepted t body rest) (fuel : ℕ) (color : BitVec 8)
    (r : List (BitVec 8) × BitVec 8) : skipColors memEnd fuel (esc :: chr '[' :: t) color ≠ .ok r := by
  induction fuel generalizing color with
  | zero => exact nofun
  | succ fuel ih =>
    intro hr
    by_cases hseq : ∃ body rest, t = body ++ chr ']' :: rest ∧ chr ']' ∉ body ∧ body.length ≤ 8
    · obtain ⟨body, rest, rfl, hbody, hlen⟩ := hseq
      by_cases h8 : body.length = 8
      · rw [skipColors_seq, colorProc_seq memEnd rest color hbody hlen, if_pos h8] at hr
        cases hr
      · have hlt := lt_of_le_of_ne hlen h8
        have hacc : accepts switches body = false := by
          rw [← Bool.not_eq_true]
          exact fun hacc => h ⟨body, rest, rfl, hbody, hlt, hacc⟩
        rw [skipColors_refused memEnd rest hbody hlt hacc] at hr
        exact ih _ hr
    · have hnone := colorProc_none (esc :: chr '[' :: t) color fun body rest he hbody =>
        not_le.1 fun hle => hseq ⟨body, rest, List.cons_injective (List.cons_injective he), hbody, hle⟩
      rw [skipColors_seq, hnone, ok_bind] at hr
      exact ih _ hr

/-- **The inner loop ends** when the sequences that are met are accepted: each one shortens the text. -/
theorem skipColors_returns (hgood : ∀ t left, Met str₀ count true (esc :: chr '[' :: t) left →
    ∃ body rest, Accepted t body rest) (hm : Met str₀ count true str left) (color : BitVec 8) :
    ∃ str' color', Returns (fun fuel => skipColors memEnd fuel str color) (str', color') ∧
      Met str₀ count true str' left ∧ (¬ ∃ t, str' = esc :: chr '[' :: t) ∧ str'.length ≤ str.length := by
  induction hn : str.length using Nat.strong_induction_on generalizing str color with
  | _ n ih =>
    by_cases hseq : ∃ t, str = esc :: chr '[' :: t
    · obtain ⟨t, rfl⟩ := hseq
      obtain ⟨body, rest, hacc⟩ := hgood t left hm
      have hlen : rest.length < n := by
        rw [← hn, hacc.1]
        simp only [List.length_cons, List.length_append]
        omega
      obtain ⟨str', color', hr, hm', hno, hle⟩ :=
        ih _ hlen (hm.next hacc) (procCodes color switches color body).2 rfl
      exact ⟨str', color', hr.turn rfl fun fuel => skipColors_accepted hacc, hm', hno, by omega⟩
    · exact ⟨str, color, (Returns.const rfl).turn rfl (skipColors_memEnd hseq), hm, hseq, hn.le⟩

/-- **The outer loop ends**: each turn takes a character of the text. -/
theorem putLoop_returns (hgood : ∀ t left, Met str₀ count true (esc :: chr '[' :: t) left →
    ∃ body rest, Accepted t body rest) (hm : Met str₀ count false str left) (color : BitVec 8)
    (put : List (BitVec 8 × BitVec 8)) :
    ∃ r, Returns (fun fuel => putLoop memEnd fuel str left color put) r := by
  induction hn : str.length using Nat.strong_induction_on generalizing str left color put with
  | _ n ih =>
    by_cases hdone : str.headD 0 = 0 ∨ left = 0
    · exact ⟨put, (Returns.const rfl).turn rfl fun fuel => putLoop_done hdone⟩
    obtain ⟨hstr, hleft⟩ := not_or.1 hdone
    obtain ⟨str', color', hr, hm', hno, hle⟩ := skipColors_returns hgood (hm.enter hstr hleft) color
    have hlen : str'.tail.length < n := by
      have hpos : 0 < str.length := by
        obtain _ | ⟨ch, str⟩ := str
        · exact absurd rfl hstr
        · exact Nat.succ_pos _
      rw [List.length_tail]
      omega
    obtain ⟨r, hrest⟩ := ih _ hlen (hm'.put hno) color' (put ++ [(str'.headD 0, color')]) rfl
    have hturn : Returns (fun fuel => turnRest memEnd fuel fuel str (left - 1) color put) r := by
      refine hr.seq ?_
      simp only [peek_memEnd, ok_bind]
      exact hrest
    exact ⟨r, hturn.turn rfl fun fuel => putLoop_turn (peek_memEnd str) hstr hleft⟩

/-- **The output ends just when every sequence that is met is accepted.** -/
theorem putString_returns_iff (str : List (BitVec 8)) (count : ℤ) (color : BitVec 8) :
    (∃ r, Returns (consolePutString memEnd str count color) r) ↔
      ∀ t left, Met str count true (esc :: chr '[' :: t) left → ∃ body rest, Accepted t body rest := by
  constructor
  · rintro ⟨r, hr⟩ t left hm
    by_contra hnot
    obtain ⟨b, hb⟩ := hr.enough
    have hsafe : ∀ fuel ≥ b, ∀ e, putLoop memEnd fuel str count color [] = .error e → e = .loop := by
      intro fuel hfuel e he
      have hok := hb fuel hfuel
      rw [consolePutString, he] at hok
      cases hok
    obtain ⟨color', put, hreach⟩ := hm.reach (Or.inl rfl) hsafe
    obtain ⟨fuel, hfuel, f, -, f', -, hrun⟩ := hreach 0
    have hok := hb fuel hfuel
    rw [consolePutString, hrun, if_pos rfl] at hok
    obtain ⟨put', hput, -⟩ := bind_eq_ok.1 hok
    obtain ⟨r', hskip, -⟩ := bind_eq_ok.1 hput
    exact skipColors_stuck hnot f color' r' hskip
  · intro hgood
    obtain ⟨put, hput⟩ := putLoop_returns hgood .start color []
    exact ⟨(put, wordTypeDefault), hput.bind rfl⟩

/-- **A reset with a letter behind it** is never left. -/
theorem putString_hangs : ¬ ∃ r, Returns (consolePutString memEnd [esc, chr '[', chr '0', chr 'x', chr ']'] 5 7) r := by
  rintro ⟨r, hr⟩
  obtain ⟨b, hb⟩ := hr.enough
  have hstuck : ¬ ∃ body rest, Accepted [chr '0', chr 'x', chr ']'] body rest := by
    rintro ⟨body, rest, he, hbody, -, hacc⟩
    have hfirst : chr ']' ∉ [chr '0', chr 'x'] := by decide
    obtain ⟨rfl, -⟩ := seq_unique hfirst hbody he
    cases hacc
  have hok := hb (b + 1) (Nat.le_succ b)
  rw [consolePutString, putLoop_turn (peek_memEnd _) (by decide) (by decide)] at hok
  obtain ⟨put, hput, -⟩ := bind_eq_ok.1 hok
  obtain ⟨r', hskip, -⟩ := bind_eq_ok.1 hput
  exact skipColors_stuck hstuck b 7 r' hskip

end Ending

/-! ## Staying inside -/

/-- A NUL-terminated string. -/
structure CStr where
  bytes : List (BitVec 8)
  noNul : 0 ∉ bytes

/-- The bytes that may be read: up to the NUL, and only the first `count`. -/
def CStr.readable (s : CStr) (count : ℤ) : List (BitVec 8) := (s.bytes ++ [0]).take count.toNat

/-- Nothing may be read behind them. -/
abbrev strEnd : C (BitVec 8) := .error (.wild "str")

/-- **No read outside, no write outside `colorfmt`, and no NUL for `console_put_char`.** -/
def KeepsInside (s : CStr) (count : ℤ) (color : BitVec 8) : Prop :=
  ∀ fuel, (∀ e, consolePutString strEnd (s.readable count) count color fuel = .error e → e = .loop) ∧
    ∀ r, consolePutString strEnd (s.readable count) count color fuel = .ok r → ∀ p ∈ r.1, p.1 ≠ 0

/-- What follows `ESC [`: a bracket before `colorfmt` is full, or enough bytes without one. -/
def Inside (t : List (BitVec 8)) : Prop :=
  (∃ body rest, t = body ++ chr ']' :: rest ∧ chr ']' ∉ body ∧ body.length < 8) ∨
    (8 < t.length ∧ chr ']' ∉ t.take 9)

/-- The loops do not come to the end of `str`, and to no sequence that is cut by it or too long. -/
structure Stays (str : List (BitVec 8)) (count : ℤ) : Prop where
  text : ∀ inner left, ¬ Met str count inner [] left
  second : ∀ left, ¬ Met str count true [esc] left
  seq : ∀ t left, Met str count true (esc :: chr '[' :: t) left → Inside t

section Reads
variable {str str₀ t : List (BitVec 8)} {color : BitVec 8} {put : List (BitVec 8 × BitVec 8)}
  {behind : C (BitVec 8)} {count left : ℤ} {inner : Bool} {n fuel : ℕ} {s : CStr}

/-- Whether there is a bracket in reach. -/
theorem seq_cases (t : List (BitVec 8)) :
    (∃ body rest, t = body ++ chr ']' :: rest ∧ chr ']' ∉ body ∧ body.length ≤ 8) ∨ chr ']' ∉ t.take 9 := by
  by_cases h : chr ']' ∈ t.take 9
  · obtain ⟨body, rest, he, hbody⟩ := List.eq_append_cons_of_mem h
    refine Or.inl ⟨body, rest ++ t.drop 9, ?_, hbody, ?_⟩
    · rw [← List.cons_append, ← List.append_assoc, ← he, List.take_append_drop]
    · have hlen := congrArg List.length he
      rw [List.length_append, List.length_cons, List.length_take] at hlen
      omega
  · exact Or.inr h

/-- The loop over more bytes than fit. -/
theorem bodyLoop_far (behind : C (BitVec 8)) (hlen : n < str.length) (h : chr ']' ∉ str.take (n + 1)) :
    bodyLoop behind n str = .ok (str.drop n, str.take n) := by
  induction n generalizing str with
  | zero =>
    obtain _ | ⟨ch, str⟩ := str
    · cases hlen
    · rfl
  | succ n ih =>
    obtain _ | ⟨ch, str⟩ := str
    · cases hlen
    rw [List.take_succ_cons, List.mem_cons, not_or] at h
    rw [bodyLoop, peek_cons, ok_bind, if_pos (Ne.symm h.1), List.tail_cons,
      ih (Nat.lt_of_succ_lt_succ hlen) h.2]
    rfl

/-- The loop over a text that ends first. -/
theorem bodyLoop_short (hlen : str.length ≤ n) (h : chr ']' ∉ str) :
    bodyLoop strEnd n str = .error (.wild "str") := by
  induction n generalizing str with
  | zero =>
    obtain rfl := List.eq_nil_of_length_eq_zero (Nat.le_zero.1 hlen)
    rfl
  | succ n ih =>
    obtain _ | ⟨ch, str⟩ := str
    · rfl
    rw [List.mem_cons, not_or] at h
    rw [bodyLoop, peek_cons, ok_bind, if_pos (Ne.symm h.1), List.tail_cons,
      ih (Nat.le_of_succ_le_succ hlen) h.2]
    rfl

/-- **A sequence without a bracket in reach.** -/
theorem colorProc_far (behind : C (BitVec 8)) (color : BitVec 8) (hlen : 8 < t.length) (h : chr ']' ∉ t.take 9) :
    colorProc behind (esc :: chr '[' :: t) color = .ok (esc :: chr '[' :: t, color) := by
  have hpeek : peek behind (t.drop 8) = .ok t[8] := by
    rw [List.drop_eq_getElem_cons hlen]
    rfl
  have hne : t[8] ≠ chr ']' := by
    intro he
    refine h (List.mem_take_iff_getElem.2 ⟨8, ?_, he⟩)
    omega
  rw [colorProc, peek_cons, ok_bind, if_neg (not_not.2 rfl), List.tail_cons, peek_cons, ok_bind,
    if_neg (not_not.2 rfl), List.tail_cons, bodyLoop_far behind hlen h, ok_bind, hpeek, ok_bind, if_pos hne]
  rfl

/-- **A sequence that is cut or too long** is read or written behind its end. -/
theorem colorProc_outside (h : ¬ Inside t) (color : BitVec 8) :
    ∃ e, e ≠ .loop ∧ colorProc strEnd (esc :: chr '[' :: t) color = .error e := by
  rcases seq_cases t with ⟨body, rest, rfl, hbody, hlen⟩ | hfar
  · have h8 : body.length = 8 := by
      by_contra h8
      exact h (Or.inl ⟨body, rest, rfl, hbody, lt_of_le_of_ne hlen h8⟩)
    refine ⟨.wild "colorfmt", nofun, ?_⟩
    rw [colorProc_seq strEnd rest color hbody hlen, if_pos h8]
  · have hlen : t.length ≤ 8 := not_lt.1 fun hlt => h (Or.inr ⟨hlt, hfar⟩)
    rw [List.take_of_length_le (by omega)] at hfar
    refine ⟨.wild "str", nofun, ?_⟩
    rw [colorProc, peek_cons, ok_bind, if_neg (not_not.2 rfl), List.tail_cons, peek_cons, ok_bind,
      if_neg (not_not.2 rfl), List.tail_cons, bodyLoop_short hlen hfar]
    rfl

/-- What is met is an end of the text. -/
theorem Met.suffix (hm : Met str₀ count inner str left) : str <:+ str₀ := by
  induction hm with
  | start => exact List.suffix_rfl
  | enter _ _ _ ih => exact ih
  | @next str body rest _ _ hacc ih =>
    have hrest : rest <:+ esc :: chr '[' :: str := by
      rw [hacc.1]
      exact ⟨esc :: chr '[' :: (body ++ [chr ']']), by simp⟩
    exact hrest.trans ih
  | put _ _ ih => exact (List.tail_suffix _).trans ih

/-- Nothing that may be read is behind the NUL. -/
theorem CStr.nul_last (h : 0 :: t <:+ s.readable count) : t = [] := by
  obtain ⟨p, hp⟩ := h
  have hlen := congrArg List.length hp
  simp only [CStr.readable, List.length_append, List.length_cons, List.length_take, List.length_nil] at hlen
  by_contra ht
  have hpos := List.length_pos_iff.2 ht
  have hat := congrArg (·[p.length]?) hp
  have hlt : p.length < s.bytes.length := by omega
  simp only [CStr.readable, List.getElem?_append_right le_rfl, Nat.sub_self, List.getElem?_cons_zero] at hat
  rw [List.getElem?_take_of_lt (by omega), List.getElem?_append_left hlt] at hat
  exact s.noNul (List.mem_of_getElem? hat.symm)

/-- **The inner loop stays inside**, and leaves a sequence only for what is met. -/
theorem skipColors_inside (hs : Stays str₀ count) (hm : Met str₀ count true str left) (fuel : ℕ)
    (color : BitVec 8) :
    (∀ e, skipColors strEnd fuel str color = .error e → e = .loop) ∧
      ∀ r, skipColors strEnd fuel str color = .ok r →
        Met str₀ count true r.1 left ∧ ¬ ∃ t, r.1 = esc :: chr '[' :: t := by
  induction fuel generalizing str color with
  | zero => exact ⟨fun e he => (Except.error.inj he).symm, nofun⟩
  | succ fuel ih =>
    by_cases hseq : ∃ t, str = esc :: chr '[' :: t
    · obtain ⟨t, rfl⟩ := hseq
      rcases hs.seq t left hm with ⟨body, rest, rfl, hbody, hlen⟩ | ⟨hlen, hfar⟩
      · cases hacc : accepts switches body with
        | true =>
          have hnext : Accepted (body ++ chr ']' :: rest) body rest := ⟨rfl, hbody, hlen, hacc⟩
          rw [skipColors_accepted hnext]
          exact ih (hm.next hnext) _
        | false =>
          rw [skipColors_refused strEnd rest hbody hlen hacc]
          exact ih hm _
      · rw [skipColors_seq, colorProc_far strEnd color hlen hfar, ok_bind]
        exact ih hm _
    · have hstr : str ≠ [] := fun he => hs.text true left (he ▸ hm)
      have hesc : str ≠ [esc] := fun he => hs.second left (he ▸ hm)
      rw [skipColors_end hstr hesc hseq]
      refine ⟨nofun, fun r hr => ?_⟩
      obtain rfl := Except.ok.inj hr
      exact ⟨hm, hseq⟩

/-- **The outer loop stays inside**, and does not come to the NUL in the middle of a turn. -/
theorem putLoop_inside (hs : Stays (s.readable count) count) (hm : Met (s.readable count) count false str left)
    (fuel : ℕ) (color : BitVec 8) (put : List (BitVec 8 × BitVec 8)) (hput : ∀ p ∈ put, p.1 ≠ 0) :
    (∀ e, putLoop strEnd fuel str left color put = .error e → e = .loop) ∧
      ∀ r, putLoop strEnd fuel str left color put = .ok r → ∀ p ∈ r, p.1 ≠ 0 := by
  induction fuel generalizing str left color put with
  | zero => exact ⟨fun e he => (Except.error.inj he).symm, nofun⟩
  | succ fuel ih =>
    obtain _ | ⟨ch, str⟩ := str
    · exact absurd hm (hs.text false left)
    by_cases hdone : ch = 0 ∨ left = 0
    · rw [putLoop, peek_cons, ok_bind, if_pos hdone]
      exact ⟨nofun, fun r hr => Except.ok.inj hr ▸ hput⟩
    obtain ⟨hch, hleft⟩ := not_or.1 hdone
    have hne : (ch :: str).headD 0 ≠ 0 := hch
    obtain ⟨herr, hok⟩ := skipColors_inside hs (hm.enter hne hleft) fuel color
    rw [putLoop_turn rfl hne hleft, turnRest]
    cases hskip : skipColors strEnd fuel (ch :: str) color with
    | error e => exact ⟨fun e' he => Except.error.inj he ▸ herr e hskip, nofun⟩
    | ok r =>
      obtain ⟨hm', hno⟩ := hok r hskip
      have hnext := hm'.put hno
      obtain ⟨rest, color'⟩ := r
      obtain _ | ⟨ch', rest⟩ := rest
      · exact absurd hm' (hs.text true _)
      rw [ok_bind, peek_cons, ok_bind]
      refine ih hnext color' _ fun p hp => ?_
      rcases List.mem_append.1 hp with hp | hp
      · exact hput p hp
      · obtain rfl := List.mem_singleton.1 hp
        rintro rfl
        -- behind the NUL the outer loop would have nothing to read
        obtain rfl := CStr.nul_last hm'.suffix
        exact hs.text false _ hnext

/-- The inner loop comes to nothing that stops it. -/
theorem Met.not_error {color₀ : BitVec 8} (hm : Met str₀ count true str left) (hb : Bounded behind)
    (hsafe : ∀ fuel ≥ 0, ∀ e, putLoop behind fuel str₀ count color₀ put = .error e → e = .loop)
    (h : ∀ color, ∃ e, e ≠ .loop ∧ ∀ fuel, skipColors behind (fuel + 1) str color = .error e) : False := by
  obtain ⟨color', put', hreach⟩ := hm.reach hb hsafe
  obtain ⟨fuel, -, f, hf, f', -, hrun⟩ := hreach 1
  obtain ⟨k, rfl⟩ : ∃ k, f = k + 1 := ⟨f - 1, by omega⟩
  obtain ⟨e, he, hskip⟩ := h color'
  rw [if_pos rfl, turnRest, hskip] at hrun
  exact he (hsafe fuel (Nat.zero_le _) e hrun)

/-- **The output stays inside its buffer just when `Stays` holds of the text up to its NUL and to
    `count`.** -/
theorem putString_inside_iff (s : CStr) (count : ℤ) (color : BitVec 8) :
    KeepsInside s count color ↔ Stays (s.readable count) count := by
  constructor
  · intro h
    have hb : Bounded strEnd := Or.inr ⟨.wild "str", nofun, rfl⟩
    have hsafe : ∀ fuel ≥ 0, ∀ e,
        putLoop strEnd fuel (s.readable count) count color [] = .error e → e = .loop := by
      intro fuel _ e he
      refine (h fuel).1 e ?_
      rw [consolePutString, he]
      rfl
    refine ⟨fun inner left hm => ?_, fun left hm => ?_, fun t left hm => ?_⟩
    · cases inner with
      | true => exact hm.not_error hb hsafe fun _ => ⟨.wild "str", nofun, fun _ => rfl⟩
      | false =>
        obtain ⟨color', put, hreach⟩ := hm.reach hb hsafe
        obtain ⟨fuel, -, f, hf, f', -, hrun⟩ := hreach 1
        obtain ⟨k, rfl⟩ : ∃ k, f = k + 1 := ⟨f - 1, by omega⟩
        exact absurd (hsafe fuel (Nat.zero_le _) (.wild "str") hrun) nofun
    · exact hm.not_error hb hsafe fun _ => ⟨.wild "str", nofun, fun _ => rfl⟩
    · by_contra hnot
      refine hm.not_error hb hsafe fun color' => ?_
      obtain ⟨e, he, hproc⟩ := colorProc_outside hnot color'
      refine ⟨e, he, fun fuel => ?_⟩
      rw [skipColors_seq, hproc]
      rfl
  · intro hs fuel
    obtain ⟨herr, hok⟩ := putLoop_inside hs .start fuel color [] nofun
    rw [consolePutString]
    cases hput : putLoop strEnd fuel (s.readable count) count color [] with
    | error e => exact ⟨fun e' he => Except.error.inj he ▸ herr e hput, nofun⟩
    | ok put =>
      refine ⟨nofun, fun r hr => ?_⟩
      obtain rfl := Except.ok.inj hr
      exact hok put hput

/-- Plain characters are taken one by one. -/
theorem Met.plain (hm : Met str₀ count false str left) (h : ∀ ch ∈ str, ch ≠ 0 ∧ ch ≠ esc)
    (hleft : str.length ≤ left) : Met str₀ count false [] (left - str.length) := by
  induction str generalizing left with
  | nil =>
    rw [List.length_nil, Nat.cast_zero, sub_zero]
    exact hm
  | cons ch str ih =>
    obtain ⟨hch, hesc⟩ := h ch List.mem_cons_self
    rw [List.length_cons, Nat.cast_succ] at hleft ⊢
    have hput : Met str₀ count false str (left - 1) :=
      (hm.enter hch (by omega)).put fun ⟨t, ht⟩ => hesc (List.head_eq_of_cons_eq ht)
    have hend := ih hput (fun ch' hch' => h ch' (List.mem_cons_of_mem _ hch')) (by omega)
    rwa [sub_sub, add_comm] at hend

/-- **Text without sequences** stays inside just when `count` reaches behind its NUL. -/
theorem stays_plain (hesc : esc ∉ s.bytes) : Stays (s.readable count) count ↔ s.bytes.length < count := by
  constructor
  · intro hs
    by_contra hle
    have hread : s.readable count = s.bytes.take count.toNat := List.take_append_of_le_length (by omega)
    have hchars : ∀ ch ∈ s.readable count, ch ≠ 0 ∧ ch ≠ esc := by
      intro ch hch
      rw [hread] at hch
      exact ⟨fun he => s.noNul (he ▸ List.mem_of_mem_take hch), fun he => hesc (he ▸ List.mem_of_mem_take hch)⟩
    by_cases hcount : 0 ≤ count
    · have hlen : (s.readable count).length ≤ count := by
        rw [hread, List.length_take]
        omega
      exact hs.text false _ (Met.start.plain hchars hlen)
    · have hnil : s.readable count = [] := by
        rw [hread, Int.toNat_of_nonpos (by omega), List.take_zero]
      have hstart : Met (s.readable count) count false (s.readable count) count := .start
      rw [hnil] at hs hstart
      exact hs.text false _ hstart
  · intro hlt
    have hread : s.readable count = s.bytes ++ [0] :=
      List.take_of_length_le (by rw [List.length_append, List.length_singleton]; omega)
    have hno : ∀ {str}, esc :: str <:+ s.readable count → False := by
      intro str hsuf
      have hmem := hsuf.subset List.mem_cons_self
      rw [hread, List.mem_append, List.mem_singleton] at hmem
      exact hmem.elim hesc (by decide)
    have hmet : ∀ {inner str left}, Met (s.readable count) count inner str left →
        str ≠ [] ∧ (inner = true → str.headD 0 ≠ 0) := by
      intro inner str left hm
      induction hm with
      | start => exact ⟨by rw [hread]; simp, nofun⟩
      | enter _ hne _ ih => exact ⟨ih.1, fun _ => hne⟩
      | next hm _ _ => exact (hno hm.suffix).elim
      | @put str _ hm _ ih =>
        refine ⟨fun htail => ?_, nofun⟩
        obtain ⟨hstr, hne⟩ := ih
        obtain _ | ⟨ch, str⟩ := str
        · exact hstr rfl
        -- the last byte is the NUL
        obtain rfl : str = [] := htail
        obtain ⟨p, hp⟩ := hm.suffix
        rw [hread] at hp
        exact hne rfl (List.singleton_inj.1 (List.append_inj_right' hp rfl))
    exact ⟨fun inner left hm => (hmet hm).1 rfl, fun left hm => hno hm.suffix, fun t left hm => (hno hm.suffix).elim⟩

/-- **Behind the buffer**: the byte behind the last character, `colorfmt[8]`, and behind the NUL. -/
theorem putString_outside :
    ¬ KeepsInside ⟨[chr 'a'], by decide⟩ 1 7 ∧
      ¬ KeepsInside ⟨[esc, chr '[', chr '1', chr '2', chr '3', chr '4', chr '5', chr '6', chr '7', chr '8',
        chr ']'], by decide⟩ 12 7 ∧
      ¬ KeepsInside ⟨[esc, chr '[', chr '0', chr ']'], by decide⟩ 5 7 := by
  refine ⟨fun h => ?_, fun h => ?_, fun h => ?_⟩
  · exact absurd ((h 3).1 (.wild "str") (by decide +kernel)) nofun
  · exact absurd ((h 3).1 (.wild "colorfmt") (by decide +kernel)) nofun
  · exact absurd ((h 5).1 (.wild "str") (by decide +kernel)) nofun

end Reads

end Rdix.Color
