/-
  The keyboard (kernel/keyboard.c): its interrupt handler and its readers, over the
  scheduler and the mutexes.

  Readers come with interrupts off, so a read is a sequence of steps between its `block`s; the
  handler may come between any two of them.

  * `keyboardHander`, `readTurn`, `readResume`: the handler and the turns of `keyboard_read`;
  * `Keys.visible`: the character that a scan code generates;
  * `KeyInv`: the queue holds what has been typed and not been taken, and its reader waits only
    while it is empty;
  * `keyboard_order`: the characters come in their order in the runs in which no visible key comes
    while 255 characters are unread, and `keyboard_full`: the kernel halts at the 256th.
-/
import Rdix.Kernel.Console
import Rdix.Kernel.Disk
import Rdix.Kernel.Queue

namespace Rdix.Sched

open Function Transition FifoLock RingBuffer

/-! ## The keys -/

abbrev keyBufSize : ℕ := 256

/-- `INV`, no visible character. -/
abbrev inv : Char := '\x00'

abbrev keyShiftL : ℕ := 0x2a

abbrev keyShiftR : ℕ := 0x36

abbrev keyCapslock : ℕ := 0x3a

abbrev keyPrintScreen : ℕ := 0x5f

/-- The columns 0 and 1 of `keymap`: without and with shift. -/
def keymap : List (Char × Char) := [
  (inv, inv), ('\x1b', '\x1b'), ('1', '!'), ('2', '@'), ('3', '#'), ('4', '$'),
  ('5', '%'), ('6', '^'), ('7', '&'), ('8', '*'), ('9', '('), ('0', ')'),
  ('-', '_'), ('=', '+'), ('\x08', '\x08'), ('\t', '\t'), ('q', 'Q'), ('w', 'W'),
  ('e', 'E'), ('r', 'R'), ('t', 'T'), ('y', 'Y'), ('u', 'U'), ('i', 'I'),
  ('o', 'O'), ('p', 'P'), ('[', '{'), (']', '}'), ('\n', '\n'), (inv, inv),
  ('a', 'A'), ('s', 'S'), ('d', 'D'), ('f', 'F'), ('g', 'G'), ('h', 'H'),
  ('j', 'J'), ('k', 'K'), ('l', 'L'), (';', ':'), ('\'', '"'), ('\x60', '~'),
  (inv, inv), ('\\', '|'), ('z', 'Z'), ('x', 'X'), ('c', 'C'), ('v', 'V'),
  ('b', 'B'), ('n', 'N'), ('m', 'M'), (',', '<'), ('.', '>'), ('/', '?'),
  (inv, inv), ('*', '*'), (inv, inv), (' ', ' '), (inv, inv), (inv, inv),
  (inv, inv), (inv, inv), (inv, inv), (inv, inv), (inv, inv), (inv, inv),
  (inv, inv), (inv, inv), (inv, inv), (inv, inv), (inv, inv), ('7', inv),
  ('8', inv), ('9', inv), ('-', '-'), ('4', inv), ('5', inv), ('6', inv),
  ('+', '+'), ('1', inv), ('2', inv), ('3', inv), ('0', inv), ('.', '\x7f'),
  (inv, inv), (inv, inv), (inv, inv), (inv, inv), (inv, inv), (inv, inv),
  (inv, inv), (inv, inv), (inv, inv), (inv, inv), (inv, inv), (inv, inv)]

/-- The columns 2 and 3 of `keymap`, a key and its extended code being down, and the two states. -/
structure Keys where
  down : ℕ → ℕ → Bool
  capslock_state : Bool
  extcode_state : Bool

namespace Keys
variable (k : Keys)

def shiftState : Bool := k.down keyShiftL 2 || k.down keyShiftR 2

/-- `keymap[scancode][ext] = state`. -/
def set (scancode ext : ℕ) (state : Bool) : Keys :=
  { k with down := update k.down scancode (update (k.down scancode) ext state) }

/-- `keymap[scancode][shift]`, for the row of the scan code. -/
def char (row : Char × Char) : Char :=
  let shift := if k.capslock_state then !k.shiftState else k.shiftState
  if shift then row.2 else row.1

/-- The `switch` for the keypad. -/
def arrow (scancode : ℕ) : Option Arrow :=
  match scancode with
  | 0x48 => some .UP
  | 0x50 => some .DOWN
  | 0x4b => some .LEFT
  | 0x4d => some .RIGHT
  | _ => none

end Keys

/-! ## The handler and the readers -/

/-- What keyboard.c works on; `waiter` names its list. -/
structure Keyboard where
  waiter : ℕ
  key_buf : QueChar
  lock : Mutex
  keys : Keys
  console : Console
  sched : State

/-- The nodes of `waiter`. -/
def Keyboard.waiters (x : Keyboard) : List Pid := x.sched.lists (.other x.waiter)

def keyboardHander (x : Keyboard) (scancode : ℕ) : C Keyboard :=
  if scancode = 0xe0 then return { x with keys := { x.keys with extcode_state := true } }
  else
    let ext := if x.keys.extcode_state then 3 else 2
    let keys := { x.keys with extcode_state := false }
    if scancode &&& 0x7f > keyPrintScreen then return { x with keys }
    else if scancode &&& 0x80 ≠ 0 then
      return { x with keys := keys.set (scancode &&& 0x7f) ext false }
    else
      let keys := keys.set scancode ext true
      if ext = 3 then
        match Keys.arrow scancode with
        | none => return { x with keys }
        | some arrow => do
          let console ← keyboardArrow x.console arrow
          return { x with keys, console }
      else
        let keys := if scancode = keyCapslock then
            { keys with capslock_state := !keys.capslock_state }
          else keys
        match keymap[scancode]? with
        | none => throw (.wild "keymap")
        | some row =>
          let ch := keys.char row
          if ch = inv then return { x with keys }
          else do
            cassert (¬ queIsfull x.key_buf) "!que_isfull(key_buf)"
            let key_buf ← quePush x.key_buf ch
            let sched ← wakeFirst x.sched (.other x.waiter)
            return { x with keys, key_buf, sched }

/-- The turn of the loop of `keyboard_read`; without a character it blocks. -/
def readTurn (x : Keyboard) : C (Keyboard × Option Char) :=
  if queIsempty x.key_buf then do
    let sched ← block x.sched (some (.other x.waiter)) none .blocked
    return ({ x with sched }, none)
  else do
    let r ← quePop x.key_buf
    return ({ x with key_buf := r.1 }, some r.2)

/-- The rest of a turn that has blocked. -/
def readResume (x : Keyboard) : C (Keyboard × Char) := do
  let r ← quePop x.key_buf
  return ({ x with key_buf := r.1 }, r.2)

/-! ## Runs -/

/-- The character that a scan code generates; it is none of an extended or a break code. -/
def Keys.visible (k : Keys) (scancode : ℕ) : Option Char :=
  if k.extcode_state ∨ scancode > keyPrintScreen then none
  else (keymap[scancode]?.map k.char).filter fun ch => ch ≠ inv

/-- Where a task is in `keyboard_read`: in its `mutex_lock`, at the top of its loop or in its
    `block`, with the characters it still wants after it and with those it has. -/
inductive KeyPc where
  | idle
  | locking (count : ℕ)
  | reading (left : ℕ) (buf : List Char)
  | waiting (left : ℕ) (buf : List Char)

/-- What a task has read. -/
def KeyPc.buf : KeyPc → List Char
  | idle | locking _ => []
  | reading _ buf | waiting _ buf => buf

/-- `calls` records the calls of the mutex; `typed` are the visible characters in their order, and
    `returned` those that the readers have returned. -/
structure KeyState where
  dev : Keyboard
  calls : Lock Pid
  pc : Pid → KeyPc
  typed : List Char
  returned : List Char

namespace KeyState
variable (x : KeyState)

/-- The mutex `lock`. -/
def mutex : MutexState := ⟨x.dev.lock, x.dev.sched, x.calls⟩

/-- What the readers have taken, the one inside included. -/
def taken : List Char := x.returned ++ (x.calls.owner.elim [] fun p => (x.pc p).buf)

end KeyState

inductive KeyOp where
  | call (p : Pid) (count : ℕ)
  | granted (p : Pid)
  | read (p : Pid)
  | wait (p : Pid)
  | woken (p : Pid)
  | done (p : Pid)
  | interrupt (scancode : Fin 256)
  | console (op : ConsoleOp)
  | other (op : Op)

/-- What else happens leaves the two lists alone, and no reader does it. -/
inductive KeyStep (x : KeyState) : KeyOp → KeyState → Prop where
  | call {p count y} : x.dev.sched.running_task = some p → Free x.dev.sched → x.pc p = .idle →
      mutexLock x.dev.lock x.dev.sched = .ok y →
      KeyStep x (.call p count)
        { x with
          dev := { x.dev with lock := y.1, sched := y.2 }
          calls := if x.mutex.Open then x.calls.take p else x.calls.wait p
          pc := update x.pc p (if x.mutex.Open then .reading count [] else .locking count) }
  | granted {p count} : x.dev.sched.running_task = some p → x.pc p = .locking count →
      KeyStep x (.granted p)
        { x with calls := x.calls.ret p, pc := update x.pc p (.reading count []) }
  | read {p n buf dev ch} : x.dev.sched.running_task = some p → Free x.dev.sched →
      x.pc p = .reading (n + 1) buf → readTurn x.dev = .ok (dev, some ch) →
      KeyStep x (.read p) { x with dev, pc := update x.pc p (.reading n (buf ++ [ch])) }
  | wait {p n buf dev} : x.dev.sched.running_task = some p → Free x.dev.sched →
      x.pc p = .reading (n + 1) buf → readTurn x.dev = .ok (dev, none) →
      KeyStep x (.wait p) { x with dev, pc := update x.pc p (.waiting n buf) }
  | woken {p n buf dev ch} : x.dev.sched.running_task = some p → x.pc p = .waiting n buf →
      readResume x.dev = .ok (dev, ch) →
      KeyStep x (.woken p) { x with dev, pc := update x.pc p (.reading n (buf ++ [ch])) }
  | done {p buf y} : x.dev.sched.running_task = some p → Free x.dev.sched →
      x.pc p = .reading 0 buf → mutexUnlock x.dev.lock x.dev.sched = .ok y →
      KeyStep x (.done p)
        { x with
          dev := { x.dev with lock := y.1, sched := y.2 }
          calls := x.calls.release p
          pc := update x.pc p .idle
          returned := x.returned ++ buf }
  | interrupt {scancode : Fin 256} {dev} : keyboardHander x.dev scancode = .ok dev →
      KeyStep x (.interrupt scancode)
        { x with dev, typed := x.typed ++ (x.dev.keys.visible scancode).toList }
  | console {op console} : op.run x.dev.console = .ok console →
      KeyStep x (.console op) { x with dev := { x.dev with console } }
  | other {op s'} : (∀ p, x.dev.sched.running_task = some p → x.pc p = .idle) →
      Step x.dev.sched op s' → s'.waiters x.dev.lock = x.mutex.waiters →
      s'.lists (.other x.dev.waiter) = x.dev.waiters →
      KeyStep x (.other op) { x with dev := { x.dev with sched := s' } }

/-- `keyboard_init`, at any time. -/
def keySys (waiter lock : ℕ) : Sys KeyState KeyOp where
  init x := waiter ≠ lock ∧ schedSys.Reach x.dev.sched ∧
    (∃ c, consoleClean c = .ok x.dev.console) ∧ x.dev.waiters = [] ∧ x.mutex.waiters = [] ∧
    x = { dev := { x.dev with
                   waiter, lock := ⟨true, lock⟩
                   key_buf := newCharQue keyBufSize x.dev.key_buf.que
                   keys := ⟨fun _ _ => false, false, false⟩ }
          calls := .new, pc := fun _ => .idle, typed := [], returned := [] }
  step := KeyStep

/-- A visible key comes only while fewer than 255 characters are unread. -/
def Unhurried (x : KeyState) : KeyOp → Prop
  | .interrupt scancode =>
    (x.dev.keys.visible scancode).isSome → x.typed.length < x.taken.length + 255
  | _ => True

/-! ## The queue is a ring -/

/-- The queue holds `q`. -/
def QueChar.Queued (que : QueChar) (q : List Char) : Prop :=
  que.size = keyBufSize ∧ Holds que.que keyBufSize que.head que.tail q

section Queue
variable {que que' : QueChar} {q : List Char} {ch : Char}

theorem queued_new (cells : ℕ → Char) : (newCharQue keyBufSize cells).Queued [] :=
  ⟨rfl, holds_nil (by norm_num)⟩

theorem QueChar.Queued.empty_iff (h : que.Queued q) : queIsempty que = true ↔ q = [] :=
  queIsempty_iff (h.1.symm ▸ h.2)

theorem QueChar.Queued.full_iff (h : que.Queued q) : queIsfull que = true ↔ q.length = 255 := by
  rw [queIsfull_iff h.2]
  show q.length + 1 = 256 ↔ q.length = 255
  omega

theorem QueChar.Queued.push (h : que.Queued q) (hlen : q.length < 255) (ch : Char) :
    ∃ que', quePush que ch = .ok que' ∧ que'.Queued (q ++ [ch]) := by
  obtain ⟨hs, hq⟩ := h
  rw [← hs] at hq
  obtain ⟨que', he, hs', hq'⟩ := quePush_spec hq (by rw [hs]; norm_num; omega) ch
  exact ⟨que', he, hs'.trans hs, hs ▸ hq'⟩

theorem QueChar.Queued.pop (h : que.Queued q) (hs : quePop que = .ok (que', ch)) :
    ∃ q', q = ch :: q' ∧ que'.Queued q' := by
  obtain ⟨hsize, hq⟩ := h
  rw [← hsize] at hq
  obtain ⟨q', he, hs', hq'⟩ := quePop_spec hq hs
  exact ⟨q', he, hs'.trans hsize, hsize ▸ hq'⟩

end Queue

/-! ## The handler -/

section Handler
variable {k : Keys} {x : Keyboard} {scancode : ℕ} {row : Char × Char} {ch : Char}

/-- The key is down, and capslock is another one. -/
def Keys.press (k : Keys) (scancode : ℕ) : Keys :=
  let keys := Keys.set { k with extcode_state := false } scancode 2 true
  if scancode = keyCapslock then { keys with capslock_state := !keys.capslock_state } else keys

theorem Keys.press_states (h : scancode ≠ keyShiftL) (h' : scancode ≠ keyShiftR)
    (hc : scancode ≠ keyCapslock) : (k.press scancode).shiftState = k.shiftState ∧
      (k.press scancode).capslock_state = k.capslock_state := by
  rw [press, if_neg hc]
  refine ⟨?_, rfl⟩
  unfold shiftState Keys.set
  dsimp only
  rw [update_of_ne h.symm, update_of_ne h'.symm]

/-- A key without a character does not get one from the keys that are down. -/
theorem Keys.char_inv (k : Keys) : k.char (inv, inv) = inv := ite_self _

/-- The key itself does not change its character. -/
theorem Keys.char_press (hrow : keymap[scancode]? = some row) :
    (k.press scancode).char row = k.char row := by
  by_cases hs : scancode = keyShiftL ∨ scancode = keyShiftR ∨ scancode = keyCapslock
  · have hinv : row = (inv, inv) := by
      rcases hs with rfl | rfl | rfl <;> exact (Option.some.inj hrow).symm
    rw [hinv, char_inv, char_inv]
  · rw [not_or, not_or] at hs
    obtain ⟨hl, hr, hc⟩ := hs
    obtain ⟨h₁, h₂⟩ := press_states (k := k) hl hr hc
    rw [char, h₁, h₂]
    rfl

theorem Keys.visible_eq_some : k.visible scancode = some ch ↔ k.extcode_state = false ∧
    scancode ≤ keyPrintScreen ∧ ch ≠ inv ∧
    ∃ row, keymap[scancode]? = some row ∧ k.char row = ch := by
  rw [visible]
  split_ifs with h
  · simp only [false_iff, not_and]
    intro he hle
    rcases h with h | h
    · rw [he] at h
      cases h
    · exact absurd hle (by omega)
  · rw [not_or, Bool.not_eq_true, not_lt] at h
    simp only [Option.filter_eq_some_iff, Option.map_eq_some_iff, decide_eq_true_eq, h, true_and]
    tauto

/-- A make code is below the break codes. -/
theorem masks {n : ℕ} (h : n < 128) : n &&& 0x7f = n ∧ n &&& 0x80 = 0 := by
  have hall : ∀ m : Fin 128, (m : ℕ) &&& 0x7f = m ∧ (m : ℕ) &&& 0x80 = 0 := by decide
  exact hall ⟨n, h⟩

theorem make_code (n : Fin 256) (h : ¬ (n : ℕ) &&& 0x7f > keyPrintScreen)
    (h' : ¬ (n : ℕ) &&& 0x80 ≠ 0) : (n : ℕ) ≤ keyPrintScreen := by
  revert n
  decide +kernel

/-- A make code that is not extended. -/
theorem keyboardHander_make (hext : x.keys.extcode_state = false) (hle : scancode ≤ keyPrintScreen)
    (hrow : keymap[scancode]? = some row) :
    keyboardHander x scancode = if x.keys.char row = inv then
        .ok { x with keys := x.keys.press scancode }
      else do
        cassert (¬ queIsfull x.key_buf) "!que_isfull(key_buf)"
        let key_buf ← quePush x.key_buf (x.keys.char row)
        let sched ← wakeFirst x.sched (.other x.waiter)
        return { x with keys := x.keys.press scancode, key_buf, sched } := by
  norm_num at hle
  obtain ⟨hlow, hhigh⟩ := masks (n := scancode) (by omega)
  rw [← Keys.char_press (k := x.keys) hrow]
  unfold keyboardHander
  rw [if_neg (by omega)]
  simp only [hlow, hhigh, hext]
  rw [if_neg hle.not_gt, if_neg (not_not.2 rfl), if_neg (by decide), hrow]
  rfl

/-- **A visible key**: its character is pushed, and a reader is woken. -/
theorem keyboardHander_visible (h : x.keys.visible scancode = some ch) :
    ∃ keys, keys.visible = x.keys.visible ∧ keyboardHander x scancode = (do
      cassert (¬ queIsfull x.key_buf) "!que_isfull(key_buf)"
      let key_buf ← quePush x.key_buf ch
      let sched ← wakeFirst x.sched (.other x.waiter)
      return { x with keys, key_buf, sched }) := by
  obtain ⟨hext, hle, hinv, row, hrow, rfl⟩ := Keys.visible_eq_some.1 h
  have hspecial : scancode ≠ keyShiftL ∧ scancode ≠ keyShiftR ∧ scancode ≠ keyCapslock := by
    refine ⟨?_, ?_, ?_⟩ <;>
    · rintro rfl
      cases hrow
      exact hinv (Keys.char_inv _)
  obtain ⟨hl, hr, hc⟩ := hspecial
  obtain ⟨hshift, hcaps⟩ := Keys.press_states (k := x.keys) hl hr hc
  have hchar : (x.keys.press scancode).char = x.keys.char := by
    ext row : 1
    rw [Keys.char, hshift, hcaps]
    rfl
  have hcode : (x.keys.press scancode).extcode_state = false := by
    rw [Keys.press, if_neg hc]
    rfl
  refine ⟨x.keys.press scancode, ?_, ?_⟩
  · ext n : 1
    rw [Keys.visible, Keys.visible, hchar, hcode, hext]
  · rw [keyboardHander_make hext hle hrow, if_neg hinv]

/-- **Another code** leaves the queue and the readers alone. -/
theorem keyboardHander_quiet {scancode : Fin 256} (hc : ConsoleInv x.console)
    (h : x.keys.visible scancode = none) : ∃ keys console,
      keyboardHander x scancode = .ok { x with keys, console } ∧ ConsoleInv console := by
  by_cases hplain : x.keys.extcode_state = false ∧ (scancode : ℕ) ≤ keyPrintScreen
  · obtain ⟨hext, hle⟩ := hplain
    have hlt : (scancode : ℕ) < keymap.length := Nat.lt_succ_of_le hle
    have hrow := List.getElem?_eq_getElem hlt
    have hinv : x.keys.char keymap[(scancode : ℕ)] = inv := by
      by_contra hne
      rw [Keys.visible_eq_some.2 ⟨hext, hle, hne, _, hrow, rfl⟩] at h
      cases h
    rw [keyboardHander_make hext hle hrow, if_pos hinv]
    exact ⟨_, x.console, rfl, hc⟩
  · unfold keyboardHander
    dsimp only
    by_cases h₁ : (scancode : ℕ) = 0xe0
    · rw [if_pos h₁]
      exact ⟨_, x.console, rfl, hc⟩
    rw [if_neg h₁]
    by_cases h₂ : (scancode : ℕ) &&& 0x7f > keyPrintScreen
    · rw [if_pos h₂]
      exact ⟨_, x.console, rfl, hc⟩
    rw [if_neg h₂]
    by_cases h₃ : (scancode : ℕ) &&& 0x80 ≠ 0
    · rw [if_pos h₃]
      exact ⟨_, x.console, rfl, hc⟩
    rw [if_neg h₃]
    -- a make code that is not a plain one is extended
    have hext : x.keys.extcode_state = true := by
      by_contra hne
      exact hplain ⟨eq_false_of_ne_true hne, make_code scancode h₂ h₃⟩
    rw [if_pos (by rw [hext]; rfl)]
    cases Keys.arrow scancode with
    | none => exact ⟨_, x.console, rfl, hc⟩
    | some arrow =>
      obtain ⟨console, hs, hconsole⟩ := hc.keyboardArrow arrow
      dsimp only
      rw [hs]
      exact ⟨_, console, rfl, hconsole⟩

end Handler

/-! ## Every run -/

/-- The task has the mutex, and is in the loop. -/
def KeyPc.Reads : KeyPc → Prop
  | reading _ _ | waiting _ _ => True
  | _ => False

def KeyPc.Locks : KeyPc → Prop
  | locking _ => True
  | _ => False

/-- The queue holds what has been typed and not been taken; who waits for it has the mutex. -/
structure KeyInv (x : KeyState) : Prop where
  mutex : MutexInv x.mutex
  apart : x.dev.waiter ≠ x.dev.lock.waiter
  console : ConsoleInv x.dev.console
  queue : ∃ q, x.dev.key_buf.Queued q ∧ x.typed = x.taken ++ q
  locking : ∀ p, p ∈ x.calls.calling ↔ (x.pc p).Locks
  inside : ∀ p, (x.pc p).Reads → p ∈ x.calls.inside
  waiting : ∀ p ∈ x.dev.waiters, ∃ n buf, x.pc p = .waiting n buf
  empty : x.dev.waiters ≠ [] → queIsempty x.dev.key_buf

section Steps
variable {x x' : KeyState} {p : Pid} {n : ℕ} {buf : List Char}

/-- The task in the loop is the owner of the mutex. -/
theorem KeyInv.owner (h : KeyInv x) (hpc : (x.pc p).Reads) : x.calls.owner = some p :=
  h.mutex.lock.inside p (h.inside p hpc)

theorem KeyInv.taken (h : KeyInv x) (hpc : (x.pc p).Reads) :
    x.taken = x.returned ++ (x.pc p).buf := by
  rw [KeyState.taken, h.owner hpc]
  rfl

/-- While a task in the loop runs, nobody waits for a character. -/
theorem KeyInv.alone (h : KeyInv x) (hp : x.dev.sched.running_task = some p)
    (hpc : (x.pc p).Reads) : x.dev.waiters = [] := by
  rw [List.eq_nil_iff_forall_not_mem]
  intro q hq
  obtain ⟨n, buf, hqpc⟩ := h.waiting q hq
  have hqp : some q = some p := (h.owner (by rw [hqpc]; trivial)).symm.trans (h.owner hpc)
  cases hqp
  exact running_not_mem h.mutex.sched hp hq

/-- There is one waiter at most. -/
theorem KeyInv.waiter_unique (h : KeyInv x) (q : Pid) (hp : p ∈ x.dev.waiters)
    (hq : q ∈ x.dev.waiters) : q = p := by
  obtain ⟨_, _, hppc⟩ := h.waiting p hp
  obtain ⟨_, _, hqpc⟩ := h.waiting q hq
  have hpo := h.owner (p := p) (by rw [hppc]; trivial)
  have hqo := h.owner (p := q) (by rw [hqpc]; trivial)
  exact Option.some.inj (hqo.symm.trans hpo)

/-- The lock changes for the task only. -/
structure Apart (p : Pid) (l l' : Lock Pid) : Prop where
  calling : ∀ q, q ≠ p → (q ∈ l'.calling ↔ q ∈ l.calling)
  inside : ∀ q, q ≠ p → q ∈ l.inside → q ∈ l'.inside

/-- The running task goes on, and the queue with its waiters stays. -/
theorem KeyInv.goes {m : Mutex} {s : State} {l : Lock Pid} {pc : KeyPc} {returned : List Char}
    (h : KeyInv x) (hp : x.dev.sched.running_task = some p) (hm : MutexInv ⟨m, s, l⟩)
    (hw : m.waiter = x.dev.lock.waiter ∧ s.lists (.other x.dev.waiter) = x.dev.waiters)
    (hcall : p ∈ l.calling ↔ pc.Locks) (hin : pc.Reads → p ∈ l.inside) (hl : Apart p x.calls l)
    (ht : returned ++ (l.owner.elim [] fun q => (update x.pc p pc q).buf) = x.taken) :
    KeyInv { x with dev := { x.dev with lock := m, sched := s }, calls := l
                    pc := update x.pc p pc, returned } where
  mutex := hm
  apart := by
    show x.dev.waiter ≠ m.waiter
    rw [hw.1]
    exact h.apart
  console := h.console
  queue := by
    obtain ⟨q, hq, htyped⟩ := h.queue
    exact ⟨q, hq, htyped.trans (congrArg (· ++ q) ht.symm)⟩
  locking q := by
    show q ∈ l.calling ↔ (update x.pc p pc q).Locks
    by_cases hqp : q = p
    · rw [hqp, update_self, hcall]
    · rw [update_of_ne hqp, hl.calling q hqp, h.locking]
  inside q (hq : (update x.pc p pc q).Reads) := by
    by_cases hqp : q = p
    · rw [hqp, update_self] at hq
      exact hqp ▸ hin hq
    · rw [update_of_ne hqp] at hq
      exact hl.inside q hqp (h.inside q hq)
  waiting q hq := by
    have hwaits : q ∈ x.dev.waiters := hw.2 ▸ hq
    have hqp : q ≠ p := by
      rintro rfl
      exact running_not_mem h.mutex.sched hp hwaits
    show ∃ n buf, update x.pc p pc q = .waiting n buf
    rw [update_of_ne hqp]
    exact h.waiting q hwaits
  empty hne := by
    refine h.empty ?_
    rw [← hw.2]
    exact hne

theorem KeyInv.call {count : ℕ} {y : Mutex × State} (h : KeyInv x)
    (hp : x.dev.sched.running_task = some p) (hf : Free x.dev.sched) (hpc : x.pc p = .idle)
    (hs : mutexLock x.dev.lock x.dev.sched = .ok y) :
    KeyInv { x with
      dev := { x.dev with lock := y.1, sched := y.2 }
      calls := if x.mutex.Open then x.calls.take p else x.calls.wait p
      pc := update x.pc p (if x.mutex.Open then .reading count [] else .locking count) } := by
  have hcall : p ∉ x.calls.calling := by
    rw [h.locking, hpc]
    exact id
  have hframe := mutexLock_frame (l := .other x.dev.waiter) h.mutex.sched hp (by simp)
    (by simpa using h.apart) hs
  have hmutex := (h.mutex.step (.lock hp hf hcall hs)).2
  by_cases ho : x.mutex.Open
  · rw [if_pos ho] at hmutex
    rw [if_pos ho, if_pos ho]
    refine h.goes hp hmutex hframe ⟨fun hc => absurd hc hcall, False.elim⟩ (fun _ => Or.inl rfl)
      ⟨fun q _ => Iff.rfl, fun q _ => Or.inr⟩ ?_
    have hnone : x.calls.owner = none := h.mutex.open_iff.1 ho
    rw [KeyState.taken, hnone]
    show x.returned ++ (update x.pc p (.reading count []) p).buf = _
    rw [update_self]
    rfl
  · rw [if_neg ho] at hmutex
    rw [if_neg ho, if_neg ho]
    refine h.goes hp hmutex hframe ⟨fun _ => trivial, fun _ => Or.inl rfl⟩ False.elim
      ⟨fun q hq => ⟨fun hc => hc.resolve_left hq, Or.inr⟩, fun q _ => id⟩ ?_
    have hbuf := update_same (p := p) (f := KeyPc.buf) (m := x.pc) (v := .locking count)
      (by rw [hpc]; rfl)
    simp only [hbuf]
    rfl

/-- A call of the mutex returns. -/
theorem KeyInv.granted {count : ℕ} (h : KeyInv x) (hp : x.dev.sched.running_task = some p)
    (hpc : x.pc p = .locking count) :
    KeyInv { x with calls := x.calls.ret p, pc := update x.pc p (.reading count []) } := by
  have hcall : p ∈ x.calls.calling := by
    rw [h.locking, hpc]
    trivial
  have hmutex := (h.mutex.step (.ret hp hcall)).2
  refine h.goes hp hmutex ⟨rfl, rfl⟩ ?_ (fun _ => Or.inl rfl)
    ⟨fun q hq => ?_, fun q hq => Or.inr⟩ ?_
  · simp [Lock.ret, KeyPc.Locks]
  · simp [Lock.ret, hq]
  · have hbuf := update_same (p := p) (f := KeyPc.buf) (m := x.pc) (v := .reading count [])
      (by rw [hpc]; rfl)
    simp only [hbuf]
    rfl

/-- A call returns what it has read. -/
theorem KeyInv.done {y : Mutex × State} (h : KeyInv x) (hp : x.dev.sched.running_task = some p)
    (hf : Free x.dev.sched) (hpc : x.pc p = .reading 0 buf)
    (hs : mutexUnlock x.dev.lock x.dev.sched = .ok y) :
    KeyInv { x with
      dev := { x.dev with lock := y.1, sched := y.2 }
      calls := x.calls.release p
      pc := update x.pc p .idle
      returned := x.returned ++ buf } := by
  have hreads : (x.pc p).Reads := by
    rw [hpc]
    trivial
  have hcall : p ∉ x.calls.calling := by
    rw [h.locking, hpc]
    exact id
  have hframe := mutexUnlock_frame (l := .other x.dev.waiter) h.mutex.sched.linked (by simp)
    (by simpa using h.apart) hs
  have hmutex := (h.mutex.step (.unlock hp hf hcall (h.owner hreads) hs)).2
  refine h.goes hp hmutex hframe ⟨fun hc => absurd hc hcall, False.elim⟩ False.elim
    ⟨fun q _ => Iff.rfl, fun q hq hin => ⟨hin, hq⟩⟩ ?_
  rw [h.taken hreads, hpc]
  show x.returned ++ buf ++ _ = x.returned ++ buf
  refine List.append_right_eq_self.2 ?_
  -- the next owner is still in its `mutex_lock`
  cases hq : x.calls.queue with
  | nil =>
    rw [Lock.release, hq]
    rfl
  | cons q qs =>
    have hlocks : (x.pc q).Locks := by
      rw [← h.locking]
      exact (h.mutex.lock.calling q).2 (Or.inl (hq ▸ List.mem_cons_self))
    have hbuf : (x.pc q).buf = [] := by
      cases hqpc : x.pc q with
      | locking => rfl
      | idle => rfl
      | reading => rw [hqpc] at hlocks; cases hlocks
      | waiting => rw [hqpc] at hlocks; cases hlocks
    rw [Lock.release, hq]
    show (update x.pc p .idle q).buf = []
    by_cases hqp : q = p
    · rw [hqp, update_self]
      rfl
    · rw [update_of_ne hqp, hbuf]

/-- A task in the loop takes the next character. -/
theorem KeyInv.take {key_buf : QueChar} {ch : Char} (h : KeyInv x)
    (hp : x.dev.sched.running_task = some p) (hpc : (x.pc p).Reads)
    (hs : quePop x.dev.key_buf = .ok (key_buf, ch)) :
    KeyInv { x with dev := { x.dev with key_buf }
                    pc := update x.pc p (.reading n ((x.pc p).buf ++ [ch])) } := by
  obtain ⟨q, hqueue, htyped⟩ := h.queue
  obtain ⟨q', rfl, hqueue'⟩ := hqueue.pop hs
  have hnone := h.alone hp hpc
  refine ⟨h.mutex, h.apart, h.console, ⟨q', hqueue', ?_⟩, fun r => ?_, fun r hr => ?_,
    fun r hr => ?_, fun hne => absurd hnone hne⟩
  · show x.typed = (x.returned ++ x.calls.owner.elim [] fun r =>
      (update x.pc p (.reading n ((x.pc p).buf ++ [ch])) r).buf) ++ q'
    rw [h.owner hpc, Option.elim_some, update_self, htyped, h.taken hpc]
    simp [KeyPc.buf]
  · show r ∈ x.calls.calling ↔ (update x.pc p _ r).Locks
    by_cases hrp : r = p
    · have hno : ¬ (x.pc p).Locks := by
        cases hpc' : x.pc p with
        | locking => rw [hpc'] at hpc; cases hpc
        | _ => exact id
      rw [hrp, update_self, h.locking]
      exact ⟨fun hl => absurd hl hno, False.elim⟩
    · rw [update_of_ne hrp, h.locking]
  · by_cases hrp : r = p
    · exact hrp ▸ h.inside p hpc
    · have hr : (update x.pc p _ r).Reads := hr
      rw [update_of_ne hrp] at hr
      exact h.inside r hr
  · have hr : r ∈ x.dev.waiters := hr
    rw [hnone] at hr
    cases hr

/-- A task in the loop waits for a character. -/
theorem KeyInv.wait {s : State} (h : KeyInv x) (hp : x.dev.sched.running_task = some p)
    (hf : Free x.dev.sched) (hpc : x.pc p = .reading (n + 1) buf)
    (hempty : queIsempty x.dev.key_buf)
    (hs : block x.dev.sched (some (.other x.dev.waiter)) none .blocked = .ok s) :
    KeyInv { x with dev := { x.dev with sched := s }, pc := update x.pc p (.waiting n buf) } := by
  have hreads : (x.pc p).Reads := by
    rw [hpc]
    trivial
  have hlists : s.lists (.other x.dev.waiter) = p :: x.dev.waiters :=
    block_lists h.mutex.sched hp (by simp) hs
  have hother : s.waiters x.dev.lock = x.mutex.waiters :=
    block_lists_of_ne h.mutex.sched hp (by simp) (by simpa using h.apart.symm) hs
  have hstep : Step x.dev.sched (.block (some (.other x.dev.waiter)) none .blocked) s :=
    .block hf.idle (by simp) (by simp) (by simp) (Or.inl rfl) (by simp) hs
  rw [h.alone hp hreads] at hlists
  have hbuf := update_same (p := p) (f := KeyPc.buf) (m := x.pc) (v := .waiting n buf)
    (by rw [hpc]; rfl)
  have hlocks := update_same (p := p) (f := KeyPc.Locks) (m := x.pc) (v := .waiting n buf)
    (by rw [hpc]; rfl)
  have hread := update_same (p := p) (f := KeyPc.Reads) (m := x.pc) (v := .waiting n buf)
    (by rw [hpc]; rfl)
  obtain ⟨q, hqueue, htyped⟩ := h.queue
  refine ⟨(h.mutex.step (.other hstep hother)).2, h.apart, h.console, ⟨q, hqueue, ?_⟩, fun r => ?_,
    fun r hr => h.inside r ?_, fun r hr => ?_, fun _ => hempty⟩
  · rw [KeyState.taken]
    simp only [hbuf]
    exact htyped
  · rw [h.locking]
    exact (hlocks r).symm ▸ Iff.rfl
  · exact hread r ▸ hr
  · have hr : r ∈ s.lists (.other x.dev.waiter) := hr
    rw [hlists, List.mem_singleton] at hr
    rw [hr]
    exact ⟨n, buf, update_self ..⟩

theorem wakeFirst_cases {s s' : State} {l : ListId} (hs : wakeFirst s l = .ok s') :
    s.lists l = [] ∧ s' = s ∨ ∃ q ∈ s.lists l, unblock s q = .ok s' := by
  cases hh : (s.lists l).head? with
  | none =>
    simp only [wakeFirst, hh] at hs
    cases hs
    exact Or.inl ⟨List.head?_eq_none_iff.1 hh, rfl⟩
  | some q =>
    simp only [wakeFirst, hh] at hs
    exact Or.inr ⟨q, List.mem_of_head? hh, hs⟩

/-- The one waiter is woken, and the mutex is left alone. -/
theorem KeyInv.wake {s : State} (h : KeyInv x)
    (hs : wakeFirst x.dev.sched (.other x.dev.waiter) = .ok s) :
    MutexInv ⟨x.dev.lock, s, x.calls⟩ ∧ s.lists (.other x.dev.waiter) = [] := by
  rcases wakeFirst_cases hs with ⟨hnil, rfl⟩ | ⟨q, hq, hu⟩
  · exact ⟨h.mutex, hnil⟩
  · have hlinked : x.dev.sched.Linked := h.mutex.sched.linked
    have hother := unblock_lists_of_ne (m := .other x.dev.lock.waiter) hlinked hq (by simp)
      (by simpa using h.apart.symm) hu
    have hwaiters := hother.trans h.mutex.waiters
    refine ⟨⟨h.mutex.sched.unblock hu, h.mutex.lock, h.mutex.value, hwaiters⟩, ?_⟩
    rw [unblock_lists hlinked hq (by simp) hu, List.eq_nil_iff_forall_not_mem]
    intro r hr
    obtain ⟨hne, hr⟩ := (hlinked.nodup _).mem_erase_iff.1 hr
    exact hne (h.waiter_unique r hq hr)

theorem KeyInv.interrupt {scancode : Fin 256} {dev : Keyboard} (h : KeyInv x)
    (hs : keyboardHander x.dev scancode = .ok dev) :
    KeyInv { x with dev, typed := x.typed ++ (x.dev.keys.visible scancode).toList } := by
  cases hv : x.dev.keys.visible scancode with
  | none =>
    obtain ⟨keys, console, he, hc⟩ := keyboardHander_quiet h.console hv
    rw [he] at hs
    cases hs
    rw [Option.toList_none, List.append_nil]
    exact ⟨h.mutex, h.apart, hc, h.queue, h.locking, h.inside, h.waiting, h.empty⟩
  | some ch =>
    obtain ⟨keys, -, he⟩ := keyboardHander_visible hv
    rw [he] at hs
    obtain ⟨hfull, hs⟩ := cassert_bind_eq_ok.1 hs
    obtain ⟨key_buf, hpush, hs⟩ := bind_eq_ok.1 hs
    obtain ⟨s, hw, hs⟩ := bind_eq_ok.1 hs
    cases hs
    obtain ⟨q, hqueue, htyped⟩ := h.queue
    obtain ⟨hmutex, hnone⟩ := h.wake hw
    have hroom : q.length < 255 := by
      rw [hqueue.full_iff] at hfull
      have hlt := hqueue.2.room
      norm_num at hlt
      omega
    obtain ⟨que, he', hqueue'⟩ := hqueue.push hroom ch
    rw [hpush] at he'
    cases he'
    refine ⟨hmutex, h.apart, h.console, ⟨q ++ [ch], hqueue', ?_⟩, h.locking, h.inside,
      fun r hr => ?_, fun hne => absurd hnone hne⟩
    · show x.typed ++ [ch] = x.taken ++ (q ++ [ch])
      rw [htyped, List.append_assoc]
    · have hr : r ∈ s.lists (.other x.dev.waiter) := hr
      rw [hnone] at hr
      cases hr

/-- **A step keeps the invariant.** -/
theorem KeyInv.step {op : KeyOp} (h : KeyInv x) (hs : KeyStep x op x') : KeyInv x' := by
  cases hs with
  | call hp hf hpc hs => exact h.call hp hf hpc hs
  | granted hp hpc => exact h.granted hp hpc
  | @read p n buf dev ch hp _ hpc hs =>
    unfold readTurn at hs
    split_ifs at hs with hempty
    · obtain ⟨s, -, hs⟩ := bind_eq_ok.1 hs
      cases hs
    · obtain ⟨r, hpop, hs⟩ := bind_eq_ok.1 hs
      cases hs
      have hreads : (x.pc p).Reads := by
        rw [hpc]
        trivial
      have htake := h.take (n := n) hp hreads hpop
      rwa [hpc] at htake
  | @wait p n buf dev hp hf hpc hs =>
    unfold readTurn at hs
    split_ifs at hs with hempty
    · obtain ⟨s, hb, hs⟩ := bind_eq_ok.1 hs
      cases hs
      exact h.wait hp hf hpc hempty hb
    · obtain ⟨r, -, hs⟩ := bind_eq_ok.1 hs
      cases hs
  | @woken p n buf dev ch hp hpc hs =>
    obtain ⟨r, hpop, hs⟩ := bind_eq_ok.1 hs
    cases hs
    have hreads : (x.pc p).Reads := by
      rw [hpc]
      trivial
    have htake := h.take (n := n) hp hreads hpop
    rwa [hpc] at htake
  | done hp hf hpc hs => exact h.done hp hf hpc hs
  | interrupt hs => exact h.interrupt hs
  | console hs =>
    exact ⟨h.mutex, h.apart, h.console.step hs, h.queue, h.locking, h.inside, h.waiting, h.empty⟩
  | other _ hs hmutex hwaiter =>
    refine ⟨(h.mutex.step (.other hs hmutex)).2, h.apart, h.console, h.queue, h.locking, h.inside,
      fun p hp => h.waiting p ?_, fun hne => h.empty ?_⟩
    · rw [← hwaiter]
      exact hp
    · rw [← hwaiter]
      exact hne

theorem keyInv_init {waiter lock : ℕ} (h : (keySys waiter lock).init x) : KeyInv x := by
  obtain ⟨hne, hsched, ⟨c, hc⟩, hw, hm, hx⟩ := h
  obtain ⟨c', hc', -, hconsole⟩ := consoleClean_spec c
  rw [hc] at hc'
  cases hc'
  have hwaiter : x.dev.waiter = waiter := congrArg (·.dev.waiter) hx
  have hlock : x.dev.lock = ⟨true, lock⟩ := congrArg (·.dev.lock) hx
  have hbuf : x.dev.key_buf = newCharQue keyBufSize x.dev.key_buf.que :=
    congrArg (·.dev.key_buf) hx
  have hcalls : x.calls = .new := congrArg (·.calls) hx
  have hpc : x.pc = fun _ => .idle := congrArg (·.pc) hx
  have htyped : x.typed = [] := congrArg (·.typed) hx
  have hreturned : x.returned = [] := congrArg (·.returned) hx
  refine ⟨mutexInv_init ⟨hlock, hm, hsched, hcalls⟩, ?_, hconsole, ⟨[], ?_, ?_⟩, fun p => ?_,
    fun p hp => ?_, fun p hp => ?_, fun hn => absurd hw hn⟩
  · rw [hwaiter, hlock]
    exact hne
  · rw [hbuf]
    exact queued_new _
  · rw [KeyState.taken, htyped, hreturned, hcalls]
    rfl
  · rw [hcalls, hpc]
    exact ⟨False.elim, False.elim⟩
  · rw [hpc] at hp
    cases hp
  · rw [hw] at hp
    cases hp

/-- Typing does not halt the kernel while there is room. -/
theorem KeyInv.handler (h : KeyInv x) {scancode : Fin 256}
    (hroom : Unhurried x (.interrupt scancode)) :
    ∃ dev, keyboardHander x.dev scancode = .ok dev := by
  cases hv : x.dev.keys.visible scancode with
  | none =>
    obtain ⟨_, _, he, -⟩ := keyboardHander_quiet h.console hv
    exact ⟨_, he⟩
  | some ch =>
    obtain ⟨keys, -, he⟩ := keyboardHander_visible hv
    obtain ⟨q, hqueue, htyped⟩ := h.queue
    have hlen : q.length < 255 := by
      have hlt := hroom (by rw [hv]; rfl)
      rw [htyped, List.length_append] at hlt
      omega
    have hfull : ¬ queIsfull x.dev.key_buf := by
      rw [hqueue.full_iff]
      exact hlen.ne
    obtain ⟨key_buf, hpush, -⟩ := hqueue.push hlen ch
    obtain ⟨s, hs⟩ : ∃ s, wakeFirst x.dev.sched (.other x.dev.waiter) = .ok s := by
      unfold wakeFirst
      cases hh : (x.dev.sched.lists (.other x.dev.waiter)).head? with
      | none => exact ⟨_, rfl⟩
      | some q => exact unblock_total h.mutex.sched.linked (List.mem_of_head? hh)
    rw [he, cassert_pos hfull, ok_bind, hpush, ok_bind, hs]
    exact ⟨_, rfl⟩

/-- A visible key when 255 characters are unread halts the kernel. -/
theorem KeyInv.handler_full (h : KeyInv x) {scancode : Fin 256}
    (hroom : ¬ Unhurried x (.interrupt scancode)) :
    keyboardHander x.dev scancode = .error (.assert "!que_isfull(key_buf)") := by
  obtain ⟨hv, hlen⟩ := Classical.not_imp.1 hroom
  obtain ⟨ch, hv⟩ := Option.isSome_iff_exists.1 hv
  obtain ⟨keys, -, he⟩ := keyboardHander_visible hv
  obtain ⟨q, hqueue, htyped⟩ := h.queue
  have hfull : queIsfull x.dev.key_buf := by
    rw [hqueue.full_iff]
    have hlt := hqueue.2.room
    norm_num at hlt
    rw [htyped, List.length_append] at hlen
    omega
  rw [he, cassert_neg (not_not.2 hfull)]
  rfl

/-- **Typed characters are returned in their order, no reader waits with a character pending, and
    the handler returns just when no visible key comes while 255 characters are unread.** -/
theorem keyboard_order {waiter lock : ℕ} (h : (keySys waiter lock).Reach x) :
    x.returned <+: x.typed ∧ (x.dev.waiters ≠ [] → queIsempty x.dev.key_buf) ∧
    ∀ scancode : Fin 256, ((∃ dev, keyboardHander x.dev scancode = .ok dev) ↔
      Unhurried x (.interrupt scancode)) := by
  have hi : KeyInv x := h.invariant (fun _ => keyInv_init) fun _ _ _ hx => hx.step
  obtain ⟨q, -, htyped⟩ := hi.queue
  refine ⟨?_, hi.empty, fun scancode => ⟨fun ⟨dev, he⟩ => ?_, hi.handler⟩⟩
  · rw [htyped, KeyState.taken, List.append_assoc]
    exact List.prefix_append _ _
  · by_contra hn
    rw [hi.handler_full hn] at he
    cases he

/-- A visible key is typed. -/
theorem KeyInv.press {scancode : Fin 256} {ch : Char} (h : KeyInv x)
    (hv : x.dev.keys.visible scancode = some ch) (hlen : x.typed.length < x.taken.length + 255) :
    ∃ keys key_buf sched, keys.visible = x.dev.keys.visible ∧
      quePush x.dev.key_buf ch = .ok key_buf ∧
      wakeFirst x.dev.sched (.other x.dev.waiter) = .ok sched ∧
      KeyStep x (.interrupt scancode)
        { x with dev := { x.dev with keys, key_buf, sched }, typed := x.typed ++ [ch] } := by
  have hroom : Unhurried x (.interrupt scancode) := fun _ => hlen
  obtain ⟨dev, hdev⟩ := h.handler hroom
  obtain ⟨keys, hkeys, he⟩ := keyboardHander_visible hv
  have hstep := KeyStep.interrupt hdev
  rw [he] at hdev
  obtain ⟨-, hdev⟩ := cassert_bind_eq_ok.1 hdev
  obtain ⟨key_buf, hpush, hdev⟩ := bind_eq_ok.1 hdev
  obtain ⟨sched, hwake, hdev⟩ := bind_eq_ok.1 hdev
  cases hdev
  rw [hv] at hstep
  exact ⟨keys, key_buf, sched, hkeys, hpush, hwake, hstep⟩

end Steps

/-- The keyboard after `keyboard_init`, and a first task. -/
theorem keyboard_start : ∃ x, (keySys 1 0).init x ∧ x.dev.sched.running_task = some 0 ∧
    Free x.dev.sched ∧ x.dev.sched.lists (.other 0) = [] := by
  obtain ⟨s₀, s₁, h₀, h₁, hrun, f₀, f₁, w₀, w₁⟩ : ∃ s₀ s₁, taskInit = .ok s₀ ∧
      schedule s₀ = .ok s₁ ∧ s₁.running_task = some 0 ∧ Free s₀ ∧ Free s₁ ∧
      s₁.lists (.other 0) = [] ∧ s₁.lists (.other 1) = [] := by
    refine ⟨_, _, rfl, rfl, rfl, ?_, free_of rfl rfl rfl, rfl, rfl⟩
    intro r t hr
    cases hr
  obtain ⟨c, hc, -⟩ := consoleClean_spec ⟨0, 0, 0, 0#8, fun _ => 0#16, 0, 0⟩
  refine ⟨{ dev := { waiter := 1, lock := ⟨true, 0⟩, console := c, sched := s₁
                     key_buf := newCharQue keyBufSize fun _ => inv
                     keys := ⟨fun _ _ => false, false, false⟩ }
            calls := .new, pc := fun _ => .idle, typed := [], returned := [] },
    ⟨by decide, .step (a := .schedule) (.init h₀) (.schedule f₀ h₁), ⟨_, hc⟩, w₁, w₀, rfl⟩,
    hrun, f₁, w₀⟩

/-- A task reads the first key. -/
theorem keyboard_order_one : ∃ x, (keySys 1 0).Reach x ∧ x.returned = ['a'] ∧
    x.returned <+: x.typed ∧ ∃ dev, keyboardHander x.dev 0x1e = .ok dev := by
  obtain ⟨x₀, hinit, hrun, hfree, -⟩ := keyboard_start
  have hi₀ := keyInv_init hinit
  obtain ⟨-, -, -, hw, -, hx⟩ := id hinit
  have hkeys : x₀.dev.keys = ⟨fun _ _ => false, false, false⟩ := congrArg (·.dev.keys) hx
  have hcalls : x₀.calls = .new := congrArg (·.calls) hx
  have hpc : x₀.pc 0 = .idle := congrArg (·.pc 0) hx
  have htyped : x₀.typed = [] := congrArg (·.typed) hx
  have hreturned : x₀.returned = [] := congrArg (·.returned) hx
  have hv : x₀.dev.keys.visible ((0x1e : Fin 256) : ℕ) = some 'a' := by
    rw [hkeys]
    rfl
  -- the key
  obtain ⟨x₁, hr₁, hi₁, hrun₁, hfree₁, hpc₁, ho, ht₁, hret₁⟩ : ∃ x₁, (keySys 1 0).Reach x₁ ∧
      KeyInv x₁ ∧ x₁.dev.sched.running_task = some 0 ∧ Free x₁.dev.sched ∧ x₁.pc 0 = .idle ∧
      x₁.calls.owner = none ∧ x₁.typed = ['a'] ∧ x₁.returned = [] := by
    obtain ⟨keys, key_buf, sched, -, -, hwake, hpress⟩ := hi₀.press hv (by rw [htyped]; simp)
    obtain rfl : sched = x₀.dev.sched := by
      rcases wakeFirst_cases hwake with ⟨-, he⟩ | ⟨q, hq, -⟩
      · exact he
      · rw [show x₀.dev.sched.lists _ = [] from hw] at hq
        cases hq
    refine ⟨_, .step (.init hinit) hpress, hi₀.step hpress, hrun, hfree, hpc, ?_, ?_, hreturned⟩
    · rw [hcalls]
      rfl
    · rw [htyped]
      rfl
  -- the reader has the mutex
  have hopen := hi₁.mutex.open_iff.2 ho
  have hcall := @KeyStep.call x₁ 0 1 _ hrun₁ hfree₁ hpc₁ (if_pos hopen)
  rw [if_pos hopen, if_pos hopen] at hcall
  obtain ⟨x₂, hr₂, hi₂, hrun₂, hfree₂, hpc₂, hw₂, ht₂, hret₂⟩ : ∃ x₂, (keySys 1 0).Reach x₂ ∧
      KeyInv x₂ ∧ x₂.dev.sched.running_task = some 0 ∧ Free x₂.dev.sched ∧ x₂.pc 0 = .reading 1 [] ∧
      x₂.mutex.waiters = [] ∧ x₂.typed = ['a'] ∧ x₂.returned = [] := by
    refine ⟨_, .step hr₁ hcall, hi₁.step hcall, hrun₁, hfree₁, ?_,
      List.length_eq_zero_iff.1 hopen.2, ht₁, hret₁⟩
    exact update_self 0 (KeyPc.reading 1 []) x₁.pc
  -- it takes the character
  obtain ⟨q, hq, htaken⟩ := hi₂.queue
  rw [hi₂.taken (by rw [hpc₂]; trivial), ht₂, hret₂, hpc₂] at htaken
  obtain rfl : q = ['a'] := htaken.symm
  have hempty : ¬ queIsempty x₂.dev.key_buf := by
    rw [hq.empty_iff]
    simp
  obtain ⟨r, hpop⟩ : ∃ r, quePop x₂.dev.key_buf = .ok r := by
    rw [quePop, cassert_pos hempty]
    exact ⟨_, rfl⟩
  obtain ⟨q', hq', -⟩ := hq.pop hpop
  have hturn : readTurn x₂.dev = .ok ({ x₂.dev with key_buf := r.1 }, some r.2) := by
    rw [readTurn, if_neg hempty, hpop]
    rfl
  have hread := KeyStep.read hrun₂ hfree₂ hpc₂ hturn
  -- it returns it
  have hdone := KeyStep.done (x := { x₂ with dev := { x₂.dev with key_buf := r.1 }
                                             pc := update x₂.pc 0 (.reading 0 ([] ++ [r.2])) })
    hrun₂ hfree₂ (update_self 0 (KeyPc.reading 0 ([] ++ [r.2])) x₂.pc)
    (if_pos (List.length_eq_zero_iff.2 hw₂))
  have hreach : (keySys 1 0).Reach _ := .step (.step hr₂ hread) hdone
  have horder := keyboard_order hreach
  refine ⟨_, hreach, ?_, horder.1, (horder.2.2 0x1e).2 fun _ => ?_⟩
  · rw [hret₂, ← (List.cons.inj hq').1]
    rfl
  · rw [ht₂]
    exact Nat.lt_add_left _ (by decide)

/-- **The 256th character without a reader halts the kernel.** -/
theorem keyboard_full : ∃ x, (keySys 1 0).Reach x ∧
    keyboardHander x.dev 0x1e = .error (.assert "!que_isfull(key_buf)") := by
  have htype (n : ℕ) (hn : n ≤ 255) : ∃ x, (keySys 1 0).Reach x ∧ KeyInv x ∧ x.typed.length = n ∧
      x.taken = [] ∧ x.dev.keys.visible ((0x1e : Fin 256) : ℕ) = some 'a' := by
    induction n with
    | zero =>
      obtain ⟨x, hinit, -⟩ := keyboard_start
      obtain ⟨-, -, -, -, -, hx⟩ := id hinit
      refine ⟨x, .init hinit, keyInv_init hinit, ?_, ?_, ?_⟩ <;> rw [hx] <;> rfl
    | succ n ih =>
      obtain ⟨x, hreach, hi, hlen, htaken, hv⟩ := ih (Nat.le_of_succ_le hn)
      obtain ⟨keys, key_buf, sched, hkeys, -, -, hstep⟩ := hi.press hv
        (by rw [hlen]; omega)
      refine ⟨_, .step hreach hstep, hi.step hstep, ?_, htaken, ?_⟩
      · simp [hlen]
      · rw [← hv, ← hkeys]
  obtain ⟨x, hreach, hi, hlen, htaken, hv⟩ := htype 255 le_rfl
  have hfull : ¬ Unhurried x (.interrupt 0x1e) := by
    intro hroom
    have hlt := hroom (by rw [hv]; rfl)
    rw [hlen, htaken] at hlt
    exact absurd hlt (lt_irrefl 255)
  exact ⟨x, hreach, hi.handler_full hfull⟩

end Rdix.Sched
