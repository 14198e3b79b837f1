/-
  The queue of characters (kernel/queue.c), as a bounded queue.

  * `newCharQue`, `quePush`, `quePop`, `queIsempty` and `queIsfull` are the functions of the source;
  * `quePush_spec`, `quePop_spec`: what they do to the characters that the ring holds;
  * `charQue_fifo`: the runs on a new queue.
-/
import Rdix.Kernel.Halt
import Rdix.Lib.RingBuffer
import Rdix.Lib.Run

namespace Rdix.Sched

open Function Transition RingBuffer

/-- `que_char_t`. -/
structure QueChar where
  head : ℕ
  tail : ℕ
  size : ℕ
  que : ℕ → Char

/-- `new_char_que`, with the cells of its `malloc`. -/
def newCharQue (size : ℕ) (que : ℕ → Char) : QueChar := ⟨0, 1, size, que⟩

def queIsempty (que : QueChar) : Bool := (que.head + 1) % que.size = que.tail

def queIsfull (que : QueChar) : Bool := que.head = que.tail

def quePush (que : QueChar) (value : Char) : C QueChar := do
  cassert (¬ queIsfull que) "!que_isfull(que)"
  return { que with que := update que.que que.tail value, tail := (que.tail + 1) % que.size }

def quePop (que : QueChar) : C (QueChar × Char) := do
  cassert (¬ queIsempty que) "!que_isempty(que)"
  let head := (que.head + 1) % que.size
  return ({ que with head }, que.que head)

/-! ## One call -/

section Calls
variable {que que' : QueChar} {q : List Char} {ch : Char}

theorem queIsempty_iff (h : Holds que.que que.size que.head que.tail q) :
    queIsempty que = true ↔ q = [] := by
  rw [queIsempty, decide_eq_true_iff, h.empty_iff]

theorem queIsfull_iff {size : ℕ} (h : Holds que.que size que.head que.tail q) :
    queIsfull que = true ↔ q.length + 1 = size := by
  rw [queIsfull, decide_eq_true_iff, h.full_iff]

/-- A push into a queue with room. -/
theorem quePush_spec (h : Holds que.que que.size que.head que.tail q)
    (hroom : q.length + 1 < que.size) (ch : Char) :
    ∃ que', quePush que ch = .ok que' ∧ que'.size = que.size ∧
      Holds que'.que que.size que'.head que'.tail (q ++ [ch]) := by
  have hfull : ¬ queIsfull que := by
    rw [queIsfull_iff h]
    exact hroom.ne
  rw [quePush, cassert_pos hfull, ok_bind]
  exact ⟨_, rfl, rfl, h.push hroom ch⟩

/-- A pop takes the first character. -/
theorem quePop_spec (h : Holds que.que que.size que.head que.tail q)
    (hs : quePop que = .ok (que', ch)) :
    ∃ q', q = ch :: q' ∧ que'.size = que.size ∧
      Holds que'.que que.size que'.head que'.tail q' := by
  obtain ⟨hne, hs⟩ := cassert_bind_eq_ok.1 hs
  rw [queIsempty_iff h] at hne
  cases hs
  obtain ⟨a, q', rfl⟩ := List.exists_cons_of_ne_nil hne
  obtain ⟨ha, hq⟩ := h.pop
  exact ⟨q', by rw [ha], rfl, hq⟩

/-- A queue that is not empty has a character to pop. -/
theorem quePop_total (h : ¬ queIsempty que) : ∃ r, quePop que = .ok r := by
  rw [quePop, cassert_pos h]
  exact ⟨_, rfl⟩

end Calls

/-! ## Runs -/

inductive QueOp where
  | push (ch : Char)
  | pop

/-- A queue, and what has been pushed into it and popped from it. -/
structure QueState where
  que : QueChar
  pushed : List Char
  popped : List Char

/-- `que_push` while the queue is not full, and `que_pop` while it is not empty. -/
inductive QueStep (x : QueState) : QueOp → QueState → Prop where
  | push {ch que} : ¬ queIsfull x.que → quePush x.que ch = .ok que →
      QueStep x (.push ch) { x with que, pushed := x.pushed ++ [ch] }
  | pop {ch que} : ¬ queIsempty x.que → quePop x.que = .ok (que, ch) →
      QueStep x .pop { x with que, popped := x.popped ++ [ch] }

/-- A new queue of this size. -/
def queSys (size : ℕ) : Sys QueState QueOp where
  init x := ∃ cells, x = ⟨newCharQue size cells, [], []⟩
  step := QueStep

section Runs
variable {x x' : QueState} {size : ℕ} {op : QueOp}

/-- The characters that are pending. -/
def QueState.pending (x : QueState) : ℕ := x.pushed.length - x.popped.length

/-- The ring holds what has been pushed and not been popped. -/
def QueInv (size : ℕ) (x : QueState) : Prop :=
  x.que.size = size ∧
    ∃ q, Holds x.que.que size x.que.head x.que.tail q ∧ x.pushed = x.popped ++ q

theorem queInv_init (hsize : 2 ≤ size) (h : (queSys size).init x) : QueInv size x := by
  obtain ⟨cells, rfl⟩ := h
  exact ⟨rfl, [], holds_nil hsize, rfl⟩

theorem QueInv.step (h : QueInv size x) (hs : QueStep x op x') : QueInv size x' := by
  obtain ⟨rfl, q, hq, hpushed⟩ := h
  cases hs with
  | @push ch que hfull hs =>
    have hroom : q.length + 1 < x.que.size := by
      rw [queIsfull_iff hq] at hfull
      have hlt := hq.room
      omega
    obtain ⟨que', he, hsize, hq'⟩ := quePush_spec hq hroom ch
    rw [hs] at he
    cases he
    refine ⟨hsize, q ++ [ch], hq', ?_⟩
    show x.pushed ++ [ch] = x.popped ++ (q ++ [ch])
    rw [hpushed, List.append_assoc]
  | @pop ch que _ hs =>
    obtain ⟨q', rfl, hsize, hq'⟩ := quePop_spec hq hs
    refine ⟨hsize, q', hq', ?_⟩
    show x.pushed = x.popped ++ [ch] ++ q'
    rw [hpushed, List.append_assoc, List.singleton_append]

theorem queInv_reach (hsize : 2 ≤ size) (h : (queSys size).Reach x) : QueInv size x :=
  h.invariant (fun _ => queInv_init hsize) fun _ _ _ => QueInv.step

/-- As many characters as there is room for. -/
theorem reach_pending (hsize : 2 ≤ size) {n : ℕ} (hn : n < size) :
    ∃ x, (queSys size).Reach x ∧ x.popped = [] ∧ x.pushed.length = n := by
  induction n with
  | zero => exact ⟨_, .init ⟨fun _ => ' ', rfl⟩, rfl, rfl⟩
  | succ n ih =>
    obtain ⟨x, hreach, hpopped, hlen⟩ := ih (Nat.lt_of_succ_lt hn)
    obtain ⟨rfl, q, hq, hpushed⟩ := queInv_reach hsize hreach
    rw [hpopped, List.nil_append] at hpushed
    have hroom : q.length + 1 < x.que.size := by rwa [← hpushed, hlen]
    obtain ⟨que, he, -⟩ := quePush_spec hq hroom ' '
    have hfull : ¬ queIsfull x.que := by
      rw [queIsfull_iff hq]
      exact hroom.ne
    refine ⟨_, .step hreach (.push hfull he), hpopped, ?_⟩
    simp [hlen]

/-- **The queue of characters is a bounded first-in first-out queue.** -/
theorem charQue_fifo (hsize : 2 ≤ size) :
    (∀ x, (queSys size).Reach x →
      x.popped <+: x.pushed ∧ x.pending ≤ size - 1 ∧
      (queIsempty x.que ↔ x.pending = 0) ∧ (queIsfull x.que ↔ x.pending = size - 1) ∧
      x.que.head < size ∧ x.que.tail < size) ∧
    ∃ x, (queSys size).Reach x ∧ x.pending = size - 1 := by
  refine ⟨fun x hreach => ?_, ?_⟩
  · obtain ⟨rfl, q, hq, hpushed⟩ := queInv_reach hsize hreach
    have hlen : x.pending = q.length := by
      rw [QueState.pending, hpushed, List.length_append, Nat.add_sub_cancel_left]
    have hroom := hq.room
    refine ⟨?_, by omega, ?_, ?_, hq.inside, ?_⟩
    · rw [hpushed]
      exact List.prefix_append _ _
    · rw [queIsempty_iff hq, hlen, List.length_eq_zero_iff]
    · rw [queIsfull_iff hq, hlen]
      omega
    · rw [hq.last]
      exact Nat.mod_lt _ (Nat.zero_lt_of_lt hroom)
  · obtain ⟨x, hreach, hpopped, hlen⟩ := reach_pending hsize (n := size - 1) (by omega)
    refine ⟨x, hreach, ?_⟩
    rw [QueState.pending, hpopped, hlen]
    rfl

/-- One character goes through the smallest queue. -/
theorem charQue_fifo_two : ∃ x, (queSys 2).Reach x ∧ x.pushed = ['a'] ∧ x.popped = ['a'] ∧
    x.pending = 0 ∧ queIsempty x.que := by
  have hpush : QueStep ⟨newCharQue 2 fun _ => ' ', [], []⟩ (.push 'a')
      ⟨⟨0, 0, 2, update (fun _ => ' ') 1 'a'⟩, ['a'], []⟩ := .push (by simp [queIsfull, newCharQue]) rfl
  have hpop : QueStep ⟨⟨0, 0, 2, update (fun _ => ' ') 1 'a'⟩, ['a'], []⟩ .pop
      ⟨⟨1, 0, 2, update (fun _ => ' ') 1 'a'⟩, ['a'], ['a']⟩ := .pop (by simp [queIsempty]) rfl
  have hreach₂ : (queSys 2).Reach _ := .step (.step (.init ⟨_, rfl⟩) hpush) hpop
  have hempty := ((charQue_fifo le_rfl).1 _ hreach₂).2.2.1
  exact ⟨_, hreach₂, rfl, rfl, rfl, hempty.2 rfl⟩

end Runs

end Rdix.Sched
