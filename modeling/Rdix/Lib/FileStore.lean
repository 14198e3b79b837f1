/-
  A store of files: each has a size and bytes, and is written, read and emptied by itself.

  The bytes behind the end of a file are there too; a write that begins behind the end uncovers them.
  A label of `storeSys` has what a read has returned, so that a run says what has been seen.

  * `storeSys`: the store as a transition system;
  * `Contents.Holds`: a file holds some bytes from an offset on;
  * `Run.holds`: a run that writes elsewhere keeps them; `Holds.reads`: a read returns them.
-/
import Rdix.Lib.Trace

namespace FileStore

open Function Transition

variable {ι α : Type*}

/-- The contents of a file. -/
structure Contents (α : Type*) where
  size : ℕ
  byte : ℕ → α

/-- The contents after `len` bytes of `buf` have been written at `offset`. -/
def Contents.write (c : Contents α) (buf : ℕ → α) (len offset : ℕ) : Contents α where
  size := max c.size (offset + len)
  byte k := if offset ≤ k ∧ k < offset + len then buf (k - offset) else c.byte k

/-- The buffer after a read at `offset`, which ends with the file. -/
def Contents.slice (c : Contents α) (buf : ℕ → α) (len offset : ℕ) : ℕ → α :=
  fun k => if k < min len (c.size - offset) then c.byte (offset + k) else buf k

/-- What happens to the files: `out` and `n` are the buffer after a read, and its result. -/
inductive Event (ι α : Type*) where
  | write (i : ι) (buf : ℕ → α) (len offset : ℕ)
  | read (i : ι) (buf : ℕ → α) (len offset : ℕ) (out : ℕ → α) (n : ℤ)
  | empty (i : ι)
  | other

/-- What a read at `offset` returns; -1 at the end of the file. -/
def Contents.Reads (c : Contents α) (buf : ℕ → α) (len offset : ℕ) (out : ℕ → α) (n : ℤ) : Prop :=
  if c.size ≤ offset then out = buf ∧ n = -1
  else out = c.slice buf len offset ∧ n = (min len (c.size - offset) : ℕ)

/-- A step of the store; `blank` is what an empty file is filled with. -/
def StoreStep [DecidableEq ι] (blank : α) (s : ι → Contents α) : Event ι α → (ι → Contents α) → Prop
  | .write i buf len offset, s' => s' = update s i ((s i).write buf len offset)
  | .read i buf len offset out n, s' => s' = s ∧ (s i).Reads buf len offset out n
  | .empty i, s' => s' = update s i ⟨0, fun _ => blank⟩
  | .other, s' => s' = s

/-- The store, with any contents at the beginning. -/
def storeSys (ι : Type*) {α : Type*} [DecidableEq ι] (blank : α) : Sys (ι → Contents α) (Event ι α) where
  init _ := True
  step := StoreStep blank

/-! ## What is kept -/

/-- The file holds the first `len` bytes of `buf` from `offset` on. -/
structure Contents.Holds (c : Contents α) (buf : ℕ → α) (len offset : ℕ) : Prop where
  size : offset + len ≤ c.size
  bytes : ∀ k < len, c.byte (offset + k) = buf k

/-- An event that leaves the bytes of file `i` from `offset` to `offset + len` alone. -/
def Event.Spares (i : ι) (len offset : ℕ) : Event ι α → Prop
  | .write j _ len' offset' => j = i → offset' + len' ≤ offset ∨ offset + len ≤ offset'
  | .empty j => j ≠ i
  | .read .. | .other => True

section Holds
variable {c : Contents α} {buf buf' out : ℕ → α} {len len' offset offset' : ℕ} {n : ℤ}

theorem Contents.holds_write (c : Contents α) (buf : ℕ → α) (len offset : ℕ) :
    (c.write buf len offset).Holds buf len offset := by
  refine ⟨le_max_right _ _, fun k hk => ?_⟩
  show (if _ then _ else _) = _
  rw [if_pos ⟨Nat.le_add_right _ _, by omega⟩, Nat.add_sub_cancel_left]

/-- A write elsewhere in the file. -/
theorem Contents.Holds.write (h : c.Holds buf len offset)
    (hapart : offset' + len' ≤ offset ∨ offset + len ≤ offset') :
    (c.write buf' len' offset').Holds buf len offset := by
  refine ⟨h.size.trans (le_max_left _ _), fun k hk => ?_⟩
  show (if _ then _ else _) = _
  rw [if_neg (by omega), h.bytes k hk]

/-- **What the file holds is read.** -/
theorem Contents.Holds.reads (h : c.Holds buf len offset) (hlen : 0 < len)
    (hr : c.Reads buf' len offset out n) : n = len ∧ ∀ k < len, out k = buf k := by
  have hsize := h.size
  unfold Contents.Reads at hr
  rw [if_neg (by omega), min_eq_left (by omega)] at hr
  refine ⟨hr.2, fun k hk => ?_⟩
  rw [hr.1, Contents.slice, if_pos (by omega), h.bytes k hk]

variable [DecidableEq ι] {blank : α} {s s' : ι → Contents α} {i : ι} {a : Event ι α}
  {as : List (Event ι α)}

theorem StoreStep.holds (h : StoreStep blank s a s') (hs : (s i).Holds buf len offset)
    (ha : a.Spares i len offset) : (s' i).Holds buf len offset := by
  cases a with
  | write j buf' len' offset' =>
    obtain rfl := h
    by_cases hij : j = i
    · subst hij
      rw [update_self]
      exact hs.write (ha rfl)
    · rwa [update_of_ne (Ne.symm hij)]
  | read j buf' len' offset' out n =>
    obtain ⟨rfl, -⟩ := h
    exact hs
  | empty j =>
    obtain rfl := h
    rwa [update_of_ne (Ne.symm ha)]
  | other =>
    obtain rfl := h
    exact hs

/-- **A run that writes elsewhere keeps what a file holds.** -/
theorem Run.holds (h : (storeSys ι blank).Run s as s') (hs : (s i).Holds buf len offset)
    (has : ∀ a ∈ as, a.Spares i len offset) : (s' i).Holds buf len offset := by
  induction h with
  | nil => exact hs
  | @step as t u a _ hstep ih =>
    have ht := ih fun a ha => has a (List.mem_append_left _ ha)
    exact StoreStep.holds hstep ht (has a (List.mem_append_right _ List.mem_cons_self))

end Holds

end FileStore
