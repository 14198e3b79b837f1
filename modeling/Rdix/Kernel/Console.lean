/-
  The console (kernel/console.c): the cursor, the visible window and the video memory.

  * `consolePutChar` and `keyboardArrow` are the two ways in; a write outside the video memory
    ends in `wild`;
  * `ConsoleInv`: the cursor is in the window, the window in the video memory, and the cursor not
    past the last character;
  * `console_iff`: the window is kept in exactly the runs without a backspace at the first cell.
-/
import Rdix.Kernel.Halt

namespace Rdix

/-! ## The code -/

abbrev screenRowCount : ℕ := 80

abbrev screenColCount : ℕ := 25

abbrev fullScreenSize : ℕ := screenRowCount * screenColCount

abbrev vedioBaseAddr : ℕ := 0xb8000

abbrev vedioEndAddr : ℕ := 0xc0000

/-- The cells between the two addresses. -/
abbrev vedioCells : ℕ := (vedioEndAddr - vedioBaseAddr) / 2

abbrev tableSize : ℕ := 4

def blank : BitVec 16 := 0x0720#16

def wordTypeDefault : BitVec 8 := 0b00000111#8

inductive Arrow where
  | UP
  | DOWN
  | LEFT
  | RIGHT
deriving DecidableEq

/-- The variables of the file, the video memory and the two registers of the display. -/
structure Console where
  CPosition : ℕ
  SPosition : ℕ
  end_ : ℕ
  color : BitVec 8
  vedio : ℕ → BitVec 16
  crtCursor : ℕ
  crtScreen : ℕ

/-- The value of an expression of type `u16`. -/
def u16 (n : ℕ) : ℕ := n % 2 ^ 16

/-- `vedio[i] = v`. -/
def Console.poke (c : Console) (i : ℕ) (v : BitVec 16) : C Console :=
  if i < vedioCells then .ok { c with vedio := Function.update c.vedio i v } else .error (.wild "vedio")

/-- `n` cells from `i` on become blank. -/
def Console.blanks (c : Console) (i : ℕ) : ℕ → C Console
  | 0 => pure c
  | n + 1 => do
    let c ← c.poke i blank
    c.blanks (i + 1) n

/-- The `memcpy` of `n` cells from `src` on to the cells from `dest` on. -/
def Console.copy (c : Console) (dest src : ℕ) : ℕ → C Console
  | 0 => pure c
  | n + 1 => do
    let c ← c.poke dest (c.vedio src)
    c.copy (dest + 1) (src + 1) n

def setScreenPosition (c : Console) (screen_position : ℕ) : C Console := do
  cassert (screen_position % 80 = 0) "!(screen_position % 80)"
  return { c with crtScreen := screen_position }

/-- The window goes one row down, or its lower rows go to the front of the video memory. -/
def shiftWindow (c : Console) : C Console :=
  if vedioBaseAddr + (c.SPosition + fullScreenSize) * 2 < vedioEndAddr - screenRowCount * 4 then
    return { c with SPosition := u16 (c.SPosition + screenRowCount) }
  else do
    let c ← c.copy 0 (c.SPosition + screenRowCount) (fullScreenSize - screenRowCount)
    let c := { c with SPosition := 0, CPosition := fullScreenSize - screenRowCount }
    return { c with end_ := c.CPosition }

/-- The last row of the window becomes blank. -/
def earseRow (c : Console) (clean : Bool) : C Console :=
  if clean then c.blanks (c.SPosition + fullScreenSize - screenRowCount) screenRowCount else pure c

def scrollDown (c : Console) (clean : Bool) : C (Console × ℕ) := do
  let c ← shiftWindow c
  let c ← setScreenPosition c c.SPosition
  let c ← earseRow c clean
  return (c, c.CPosition)

def scrollUp (c : Console) : C Console := do
  cassert (c.SPosition % screenRowCount = 0) "!(SPosition % SCREEN_ROW_COUNT)"
  let c := if c.SPosition > 0 then { c with SPosition := c.SPosition - screenRowCount } else c
  setScreenPosition c c.SPosition

def setCursorPosition (c : Console) (cursor_position : ℕ) (clean : Bool) : C Console := do
  let (c, cursor_position) ←
    if cursor_position ≥ c.SPosition + screenRowCount * screenColCount then scrollDown c clean
    else pure (c, cursor_position)
  let c ← if cursor_position < c.SPosition then scrollUp c else pure c
  return { c with crtCursor := cursor_position }

def consoleClean (c : Console) : C Console := do
  let c := { c with CPosition := 0, SPosition := 0, color := wordTypeDefault, end_ := 0 }
  let c ← setScreenPosition c c.SPosition
  let c ← setCursorPosition c c.CPosition false
  c.blanks 0 fullScreenSize

def procLf (c : Console) : C Console := do
  let next_row := u16 (c.CPosition / screenRowCount + 1)
  let c := { c with CPosition := u16 (next_row * screenRowCount) }
  setCursorPosition c c.CPosition true

def procTable (c : Console) : C Console := do
  let c := { c with CPosition := u16 ((c.CPosition + tableSize) / tableSize * tableSize) }
  setCursorPosition c c.CPosition true

/-- The cell of a character: both bytes are of a signed type. -/
def wordBlock (color ch : BitVec 8) : BitVec 16 :=
  ((color.signExtend 32 <<< 8) ||| ch.signExtend 32).truncate 16

/-- `'\n'`, `'\t'` and `'\b'`. -/
abbrev clrLf : BitVec 8 := 10#8

abbrev table : BitVec 8 := 9#8

abbrev backspase : BitVec 8 := 8#8

/-- The `switch` of `console_put_char`. -/
def putSwitch (c : Console) (ch : BitVec 8) (word_block : BitVec 16) : C Console :=
  if ch = clrLf then procLf c
  else if ch = table then procTable c
  else if ch = backspase then do
    let c := { c with CPosition := u16 (c.CPosition + 65535) }
    let c ← c.poke c.CPosition blank
    setCursorPosition c c.CPosition false
  else do
    let c ← c.poke c.CPosition word_block
    let c := { c with CPosition := u16 (c.CPosition + 1) }
    setCursorPosition c c.CPosition true

def consolePutChar (c : Console) (ch : BitVec 8) : C Console := do
  let c ← putSwitch c ch (wordBlock c.color ch)
  return { c with end_ := c.CPosition }

/-- The comparisons are of type `int`. -/
def keyboardArrow (c : Console) : Arrow → C Console
  | .DOWN =>
    let c := { c with
      CPosition := if c.CPosition + screenRowCount ≤ c.end_ then u16 (c.CPosition + screenRowCount)
        else c.end_ }
    setCursorPosition c c.CPosition false
  | .UP =>
    if (c.CPosition : ℤ) - screenRowCount ≥ 0 then
      let c := { c with CPosition := c.CPosition - screenRowCount }
      setCursorPosition c c.CPosition false
    else pure c
  | .LEFT =>
    if (c.CPosition : ℤ) - 1 ≥ 0 then
      let c := { c with CPosition := c.CPosition - 1 }
      setCursorPosition c c.CPosition false
    else pure c
  | .RIGHT =>
    if c.CPosition + 1 ≤ c.end_ then
      let c := { c with CPosition := u16 (c.CPosition + 1) }
      setCursorPosition c c.CPosition false
    else pure c

/-! ## Runs -/

inductive ConsoleOp where
  | put (ch : BitVec 8)
  | arrow (a : Arrow)
deriving DecidableEq

def ConsoleOp.run (c : Console) : ConsoleOp → C Console
  | .put ch => consolePutChar c ch
  | .arrow a => keyboardArrow c a

/-- The cursor is in the window, and the window in the video memory. -/
structure Window (c : Console) : Prop where
  row : c.SPosition % 80 = 0
  mem : c.SPosition + fullScreenSize ≤ vedioCells
  low : c.SPosition ≤ c.CPosition
  high : c.CPosition < c.SPosition + fullScreenSize

/-- Each of the operations writes into the video memory only, and the window is good after it. -/
def WindowKept (c : Console) : List ConsoleOp → Prop
  | [] => True
  | op :: ops => ∃ c', op.run c = .ok c' ∧ Window c' ∧ WindowKept c' ops

/-- None of the operations is a backspace at the first cell of the video memory. -/
def NoBackAtTop (c : Console) : List ConsoleOp → Prop
  | [] => True
  | op :: ops => (op = .put backspase → c.CPosition ≠ 0) ∧
    ∀ c', op.run c = .ok c' → NoBackAtTop c' ops

/-! ## The window -/

/-- What every operation keeps.  The last row of the window is one before that of the video memory:
    `scroll_down` goes back to the front as soon as it can. -/
structure ConsoleInv (c : Console) : Prop where
  row : c.SPosition % 80 = 0
  mem : c.SPosition ≤ 14240
  low : c.SPosition ≤ c.CPosition
  high : c.CPosition < c.SPosition + 2000
  cursor : c.CPosition ≤ c.end_
  last : c.end_ < 16240

section
variable {c c' : Console} {i src n : ℕ} {v : BitVec 16} {clean : Bool} {ch : BitVec 8} {op : ConsoleOp}

theorem ConsoleInv.window (h : ConsoleInv c) : Window c := by
  obtain ⟨hrow, hmem, hlow, hhigh, -, -⟩ := h
  refine ⟨hrow, ?_, hlow, hhigh⟩
  norm_num
  omega

theorem u16_of_lt (h : n < 2 ^ 16) : u16 n = n := Nat.mod_eq_of_lt h

theorem poke_ok (hi : i < vedioCells) :
    c.poke i v = .ok { c with vedio := Function.update c.vedio i v } := if_pos hi

theorem blanks_ok (hi : i + n ≤ vedioCells) : ∃ m, c.blanks i n = .ok { c with vedio := m } := by
  induction n generalizing c i with
  | zero => exact ⟨c.vedio, rfl⟩
  | succ n ih =>
    rw [Console.blanks, poke_ok (by omega), ok_bind]
    exact ih (by omega)

theorem copy_ok (hi : i + n ≤ vedioCells) : ∃ m, c.copy i src n = .ok { c with vedio := m } := by
  induction n generalizing c i src with
  | zero => exact ⟨c.vedio, rfl⟩
  | succ n ih =>
    rw [Console.copy, poke_ok (by omega), ok_bind]
    exact ih (by omega)

theorem shiftWindow_spec (hrow : c.SPosition % 80 = 0) (hmem : c.SPosition ≤ 14240) :
    ∃ c', shiftWindow c = .ok c' ∧
    (c.SPosition < 14240 ∧ c'.SPosition = c.SPosition + 80 ∧ c'.CPosition = c.CPosition ∧
        c'.end_ = c.end_ ∨
      c.SPosition = 14240 ∧ c'.SPosition = 0 ∧ c'.CPosition = 1920 ∧ c'.end_ = 1920) := by
  by_cases h : c.SPosition < 14240
  · refine ⟨{ c with SPosition := c.SPosition + 80 }, ?_, Or.inl ⟨h, rfl, rfl, rfl⟩⟩
    rw [shiftWindow, if_pos (by norm_num; omega), u16_of_lt (by norm_num; omega)]
    rfl
  · obtain ⟨m, hm⟩ := @copy_ok c 0 (c.SPosition + screenRowCount) (fullScreenSize - screenRowCount)
      (by norm_num)
    refine ⟨{ c with SPosition := 0, CPosition := 1920, end_ := 1920, vedio := m }, ?_,
      Or.inr ⟨by omega, rfl, rfl, rfl⟩⟩
    rw [shiftWindow, if_neg (by norm_num; omega), hm]
    rfl

theorem earseRow_ok (hmem : c.SPosition ≤ 14240) : ∃ m, earseRow c clean = .ok { c with vedio := m } := by
  cases clean with
  | true => exact blanks_ok (by norm_num; omega)
  | false => exact ⟨c.vedio, rfl⟩

/-- The window one row further down, or at the front with its last row empty. -/
theorem scrollDown_spec (hrow : c.SPosition % 80 = 0) (hmem : c.SPosition ≤ 14240) :
    ∃ c', scrollDown c clean = .ok (c', c'.CPosition) ∧
      (c.SPosition < 14240 ∧ c'.SPosition = c.SPosition + 80 ∧ c'.CPosition = c.CPosition ∧
          c'.end_ = c.end_ ∨
        c.SPosition = 14240 ∧ c'.SPosition = 0 ∧ c'.CPosition = 1920 ∧ c'.end_ = 1920) := by
  obtain ⟨c₁, he, hc₁⟩ := shiftWindow_spec hrow hmem
  obtain ⟨m, hm⟩ := @earseRow_ok { c₁ with crtScreen := c₁.SPosition } clean (by dsimp only; omega)
  refine ⟨{ c₁ with crtScreen := c₁.SPosition, vedio := m }, ?_, hc₁⟩
  rw [scrollDown, he, ok_bind, setScreenPosition, cassert_pos (by omega)]
  simp only [ok_bind, pure_eq_ok, hm]

theorem scrollUp_spec (hrow : c.SPosition % 80 = 0) :
    ∃ c', scrollUp c = .ok c' ∧ c'.SPosition = c.SPosition - 80 ∧ c'.CPosition = c.CPosition ∧
      c'.end_ = c.end_ := by
  by_cases h : c.SPosition > 0
  · refine ⟨{ c with SPosition := c.SPosition - 80, crtScreen := c.SPosition - 80 }, ?_, rfl, rfl, rfl⟩
    rw [scrollUp, cassert_pos hrow, ok_bind, if_pos h, setScreenPosition,
      cassert_pos (show (c.SPosition - 80) % 80 = 0 by omega)]
    rfl
  · refine ⟨{ c with crtScreen := c.SPosition }, ?_, by dsimp only; omega, rfl, rfl⟩
    rw [scrollUp, cassert_pos hrow, ok_bind, if_neg h, setScreenPosition, cassert_pos hrow]
    rfl

/-- **The window follows a cursor that moved by at most a row.** -/
theorem setCursorPosition_spec (hrow : c.SPosition % 80 = 0) (hmem : c.SPosition ≤ 14240)
    (hlow : c.SPosition ≤ c.CPosition + 80) (hhigh : c.CPosition < c.SPosition + 2080) :
    ∃ c', setCursorPosition c c.CPosition clean = .ok c' ∧ c'.SPosition % 80 = 0 ∧
      c'.SPosition ≤ 14240 ∧ c'.SPosition ≤ c'.CPosition ∧ c'.CPosition < c'.SPosition + 2000 ∧
      (c'.CPosition = c.CPosition ∧ c'.end_ = c.end_ ∨ c'.CPosition = 1920 ∧ c'.end_ = 1920) := by
  by_cases hdown : c.CPosition ≥ c.SPosition + screenRowCount * screenColCount
  · obtain ⟨c₁, he, hc₁⟩ := @scrollDown_spec c clean hrow hmem
    have hlow₁ : ¬ c₁.CPosition < c₁.SPosition := by
      norm_num at hdown
      omega
    refine ⟨{ c₁ with crtCursor := c₁.CPosition }, ?_, ?_⟩
    · rw [setCursorPosition, if_pos hdown, he, ok_bind]
      dsimp only
      rw [if_neg hlow₁]
      rfl
    · norm_num at hdown ⊢
      omega
  · norm_num at hdown
    by_cases hup : c.CPosition < c.SPosition
    · obtain ⟨c₁, he, hs, hcp, hend⟩ := scrollUp_spec hrow
      refine ⟨{ c₁ with crtCursor := c.CPosition }, ?_, ?_⟩
      · rw [setCursorPosition, if_neg (by norm_num; omega), pure_eq_ok, ok_bind]
        dsimp only
        rw [if_pos hup, he]
        rfl
      · dsimp only
        omega
    · refine ⟨{ c with crtCursor := c.CPosition }, ?_, ?_⟩
      · rw [setCursorPosition, if_neg (by norm_num; omega), pure_eq_ok, ok_bind]
        dsimp only
        rw [if_neg hup]
        rfl
      · dsimp only
        omega

/-- The invariant after the cursor moved by at most a row, and `end_` was put at the cursor or not. -/
theorem ConsoleInv.moved (hrow : c.SPosition % 80 = 0) (hmem : c.SPosition ≤ 14240)
    (hlow : c.SPosition ≤ c.CPosition + 80) (hhigh : c.CPosition < c.SPosition + 2080) :
    ∃ c', setCursorPosition c c.CPosition clean = .ok c' ∧ ConsoleInv { c' with end_ := c'.CPosition } ∧
      (c.CPosition ≤ c.end_ → c.end_ < 16240 → ConsoleInv c') := by
  obtain ⟨c', he, h1, h2, h3, h4, h5⟩ := @setCursorPosition_spec c clean hrow hmem hlow hhigh
  refine ⟨c', he, ⟨h1, h2, h3, h4, le_rfl, by dsimp only; omega⟩, fun hcur hlast => ?_⟩
  exact ⟨h1, h2, h3, h4, by omega, by omega⟩

theorem ConsoleInv.keyboardArrow (h : ConsoleInv c) (a : Arrow) :
    ∃ c', keyboardArrow c a = .ok c' ∧ ConsoleInv c' := by
  obtain ⟨hrow, hmem, hlow, hhigh, hcur, hlast⟩ := h
  -- a cursor that goes to `n`, or stays
  have hgo (n : ℕ) (hn : n ≤ c.end_) (h1 : c.SPosition ≤ n + 80) (h2 : n < c.SPosition + 2080) :
      ∃ c', setCursorPosition { c with CPosition := n } n false = .ok c' ∧ ConsoleInv c' := by
    obtain ⟨c', he, -, hinv⟩ := @moved { c with CPosition := n } false hrow hmem h1 h2
    exact ⟨c', he, hinv hn hlast⟩
  cases a with
  | DOWN =>
    by_cases hd : c.CPosition + screenRowCount ≤ c.end_
    · rw [Rdix.keyboardArrow, if_pos hd, u16_of_lt (by omega)]
      exact hgo _ hd (by omega) (by norm_num; omega)
    · rw [Rdix.keyboardArrow, if_neg hd]
      norm_num at hd
      exact hgo _ le_rfl (by omega) (by omega)
  | UP =>
    by_cases hu : (c.CPosition : ℤ) - screenRowCount ≥ 0
    · rw [Rdix.keyboardArrow, if_pos hu]
      norm_num at hu
      exact hgo _ (by omega) (by norm_num; omega) (by omega)
    · rw [Rdix.keyboardArrow, if_neg hu]
      exact ⟨c, rfl, hrow, hmem, hlow, hhigh, hcur, hlast⟩
  | LEFT =>
    by_cases hl : (c.CPosition : ℤ) - 1 ≥ 0
    · rw [Rdix.keyboardArrow, if_pos hl]
      exact hgo _ (by omega) (by omega) (by omega)
    · rw [Rdix.keyboardArrow, if_neg hl]
      exact ⟨c, rfl, hrow, hmem, hlow, hhigh, hcur, hlast⟩
  | RIGHT =>
    by_cases hr : c.CPosition + 1 ≤ c.end_
    · rw [Rdix.keyboardArrow, if_pos hr, u16_of_lt (by omega)]
      exact hgo _ hr (by omega) (by omega)
    · rw [Rdix.keyboardArrow, if_neg hr]
      exact ⟨c, rfl, hrow, hmem, hlow, hhigh, hcur, hlast⟩

/-- A backspace at the first cell is written in front of the video memory, far behind its end. -/
theorem putSwitch_back (h : c.CPosition = 0) : putSwitch c backspase v = .error (.wild "vedio") := by
  rw [putSwitch, if_neg (by decide), if_neg (by decide), if_pos rfl, h]
  rfl

theorem ConsoleInv.putSwitch (h : ConsoleInv c) (hch : ch = backspase → c.CPosition ≠ 0) :
    ∃ c', putSwitch c ch v = .ok c' ∧ ConsoleInv { c' with end_ := c'.CPosition } := by
  obtain ⟨hrow, hmem, hlow, hhigh, -, -⟩ := h
  -- a cursor that goes to `n`
  have hgo (m : ℕ → BitVec 16) (n : ℕ) (clean : Bool) (h1 : c.SPosition ≤ n + 80)
      (h2 : n < c.SPosition + 2080) : ∃ c', setCursorPosition { c with CPosition := n, vedio := m } n clean =
        .ok c' ∧ ConsoleInv { c' with end_ := c'.CPosition } := by
    obtain ⟨c', he, hinv, -⟩ := @moved { c with CPosition := n, vedio := m } clean hrow hmem h1 h2
    exact ⟨c', he, hinv⟩
  by_cases hlf : ch = clrLf
  · rw [Rdix.putSwitch, if_pos hlf, procLf, u16_of_lt (n := c.CPosition / screenRowCount + 1) (by norm_num; omega),
      u16_of_lt (by norm_num; omega)]
    exact hgo c.vedio _ _ (by norm_num; omega) (by norm_num; omega)
  rw [Rdix.putSwitch, if_neg hlf]
  by_cases htab : ch = table
  · rw [if_pos htab, procTable, u16_of_lt (by norm_num; omega)]
    exact hgo c.vedio _ _ (by norm_num; omega) (by norm_num; omega)
  rw [if_neg htab]
  by_cases hback : ch = backspase
  · have h0 := hch hback
    have hdec : u16 (c.CPosition + 65535) = c.CPosition - 1 := by
      rw [u16]
      omega
    rw [if_pos hback, hdec]
    dsimp only
    rw [poke_ok (by norm_num; omega), ok_bind]
    exact hgo _ (c.CPosition - 1) _ (by omega) (by omega)
  · rw [if_neg hback, poke_ok (by norm_num; omega), ok_bind, u16_of_lt (by dsimp only; omega)]
    exact hgo _ (c.CPosition + 1) _ (by omega) (by omega)

/-- **An operation goes well unless it is a backspace at the first cell.** -/
theorem ConsoleInv.run_iff (h : ConsoleInv c) (op : ConsoleOp) :
    (∃ c', op.run c = .ok c') ↔ (op = .put backspase → c.CPosition ≠ 0) := by
  cases op with
  | put ch =>
    constructor
    · rintro ⟨c', he⟩ hop h0
      cases hop
      rw [ConsoleOp.run, consolePutChar, putSwitch_back h0] at he
      cases he
    · intro hch
      obtain ⟨c', he, -⟩ := @putSwitch c (wordBlock c.color ch) ch h fun hb => hch (hb ▸ rfl)
      exact ⟨_, by rw [ConsoleOp.run, consolePutChar, he]; rfl⟩
  | arrow a =>
    obtain ⟨c', he, -⟩ := h.keyboardArrow a
    exact ⟨fun _ => by simp, fun _ => ⟨c', he⟩⟩

/-- **One operation.** -/
theorem ConsoleInv.step (h : ConsoleInv c) (hs : op.run c = .ok c') : ConsoleInv c' := by
  cases op with
  | put ch =>
    have hch := (h.run_iff (.put ch)).1 ⟨c', hs⟩
    obtain ⟨c₁, he, hinv⟩ := @putSwitch c (wordBlock c.color ch) ch h fun hb => hch (hb ▸ rfl)
    rw [ConsoleOp.run, consolePutChar, he] at hs
    cases hs
    exact hinv
  | arrow a =>
    obtain ⟨c₁, he, hinv⟩ := h.keyboardArrow a
    rw [ConsoleOp.run, he] at hs
    cases hs
    exact hinv

theorem ConsoleInv.windowKept_iff (h : ConsoleInv c) (ops : List ConsoleOp) :
    WindowKept c ops ↔ NoBackAtTop c ops := by
  induction ops generalizing c with
  | nil => exact Iff.rfl
  | cons op ops ih =>
    constructor
    · rintro ⟨c', he, -, hk⟩
      refine ⟨(h.run_iff op).1 ⟨c', he⟩, fun c₁ he₁ => ?_⟩
      rw [he] at he₁
      cases he₁
      exact (ih (h.step he)).1 hk
    · rintro ⟨hback, hk⟩
      obtain ⟨c', he⟩ := (h.run_iff op).2 hback
      exact ⟨c', he, (h.step he).window, (ih (h.step he)).2 (hk c' he)⟩

theorem setCursorPosition_zero (h : c.SPosition = 0) :
    setCursorPosition c 0 false = .ok { c with crtCursor := 0 } := by
  rw [setCursorPosition, if_neg (by rw [h]; norm_num), pure_eq_ok, ok_bind]
  dsimp only
  rw [if_neg (by rw [h]; norm_num)]
  rfl

theorem setScreenPosition_zero : setScreenPosition c 0 = .ok { c with crtScreen := 0 } := by
  rw [setScreenPosition, cassert_pos (Nat.zero_mod 80)]
  rfl

theorem consoleClean_spec (c : Console) :
    ∃ c', consoleClean c = .ok c' ∧ c'.CPosition = 0 ∧ ConsoleInv c' := by
  obtain ⟨m, hm⟩ := @blanks_ok ⟨0, 0, 0, wordTypeDefault, c.vedio, 0, 0⟩ 0 fullScreenSize (by norm_num)
  refine ⟨⟨0, 0, 0, wordTypeDefault, m, 0, 0⟩, ?_, rfl, ?_⟩
  · rw [consoleClean, setScreenPosition_zero, ok_bind, setCursorPosition_zero rfl, ok_bind]
    exact hm
  · exact ⟨Nat.zero_mod 80, Nat.zero_le _, le_rfl, Nat.zero_lt_succ _, le_rfl, Nat.zero_lt_succ _⟩

/-- **From `console_clean` on, the writes stay in the video memory and the cursor in the window in
    exactly the runs without a backspace at the first cell.** -/
theorem console_iff (c₀ : Console) : ∃ c, consoleClean c₀ = .ok c ∧ Window c ∧
    ∀ ops : List ConsoleOp, WindowKept c ops ↔ NoBackAtTop c ops := by
  obtain ⟨c, he, -, h⟩ := consoleClean_spec c₀
  exact ⟨c, he, h.window, h.windowKept_iff⟩

end

/-- A backspace on the clean screen. -/
theorem console_back : ∃ c, consoleClean ⟨0, 0, 0, 0#8, fun _ => 0#16, 0, 0⟩ = .ok c ∧
    ¬ WindowKept c [.put backspase] := by
  obtain ⟨c, he, h0, -⟩ := consoleClean_spec ⟨0, 0, 0, 0#8, fun _ => 0#16, 0, 0⟩
  refine ⟨c, he, ?_⟩
  rintro ⟨c', hrun, -⟩
  rw [ConsoleOp.run, consolePutChar, putSwitch_back h0] at hrun
  cases hrun

end Rdix
