/-
  Line editing (buildin/buildin_shell.c: readline).

  What is typed is a list: a character, or `none` where `read` returns -1; at its end `read` waits.

  * `edit`: the characters that are left when each backspace takes away the last one;
  * `readTurn_key`: a turn stores a character and does to the line what `key` does;
  * `readLoop_fits`, `readLoop_full`: the whole loop, as long as the line is shorter than the buffer,
    and when it has come to fill it;
  * `readline_iff`: `buf[idx] = 0` is inside the buffer just if the line never fills it.
-/
import Rdix.Shell.CmdParse

namespace Rdix.Shell

/-! ## The code -/

abbrev bs : Byte := 0x08
abbrev tab : Byte := 0x09
abbrev lf : Byte := 0x0a
abbrev cr : Byte := 0x0d

/-- `buf[idx] = c`. -/
def store (buf : List Byte) (idx : ℕ) (c : Byte) : C (List Byte) :=
  if idx < buf.length then return buf.set idx c else throw (.wild "buf")

/-- `buf[idx]`. -/
def load (buf : List Byte) (idx : ℕ) : C Byte :=
  if h : idx < buf.length then return buf.get ⟨idx, h⟩ else throw (.wild "buf")

/-- The variables of `readline`, and what has been written to `stdout`. -/
structure Line where
  buf : List Byte
  idx : ℕ
  out : List Byte

/-- A turn of the loop; `false` if the function returns. -/
def readTurn (s : Line) : Option Byte → C (Line × Bool)
  | none => do
    let buf ← store s.buf s.idx 0
    return ({ s with buf := buf }, false)
  | some ch => do
    let buf ← store s.buf s.idx ch
    if ch = lf ∨ ch = cr then
      let buf ← store buf s.idx 0
      return ({ s with buf := buf, out := s.out ++ [lf] }, false)
    else if ch = bs then
      let first ← load buf 0
      if first ≠ bs then
        return ({ buf := buf, idx := u32 (s.idx + (2 ^ 32 - 1)), out := s.out ++ [bs] }, true)
      else return ({ s with buf := buf }, true)
    else if ch = tab then return ({ s with buf := buf }, true)
    else return ({ buf := buf, idx := u32 (s.idx + 1), out := s.out ++ [ch] }, true)

/-- `buf[idx] = '\0'` behind the loop. -/
def putEnd (s : Line) : C (Option Line) := do
  let buf ← store s.buf s.idx 0
  return some { s with buf := buf }

/-- The loop; `none` while `read` waits. -/
def readLoop (count : ℕ) : List (Option Byte) → Line → C (Option Line)
  | [], s => if s.idx < count then return none else putEnd s
  | c :: typed, s =>
    if s.idx < count then do
      let (s, goes) ← readTurn s c
      if goes then readLoop count typed s else return some s
    else putEnd s

def readline (buf : List Byte) (count : ℕ) (typed : List (Option Byte)) : C (Option Line) :=
  readLoop count typed ⟨buf, 0, []⟩

/-! ## Editing -/

/-- What a character does to the line. -/
def key (line : List Byte) (c : Byte) : List Byte :=
  if c = bs then line.dropLast else if c = tab then line else line ++ [c]

/-- The line after some characters. -/
def edit (line cs : List Byte) : List Byte := cs.foldl key line

/-- The characters that are typed before the line ends. -/
def typedChars : List (Option Byte) → List Byte
  | some c :: typed => if c = lf ∨ c = cr then [] else c :: typedChars typed
  | _ => []

/-- An end of the line, or a `read` that fails. -/
def IsEnd : Option Byte → Prop
  | some c => c = lf ∨ c = cr
  | none => True

/-- The line is never as long as the buffer. -/
def Fits (count : ℕ) (line cs : List Byte) : Prop :=
  ∀ pre, pre <+: cs → (edit line pre).length < count

section Editing
variable {line cs : List Byte} {count : ℕ} {c : Byte}

@[simp] theorem edit_nil : edit line [] = line := rfl

@[simp] theorem edit_cons : edit line (c :: cs) = edit (key line c) cs := rfl

theorem edit_concat : edit line (cs ++ [c]) = key (edit line cs) c := by
  rw [edit, List.foldl_concat]
  rfl

theorem fits_nil : Fits count line [] ↔ line.length < count := by
  simp [Fits]

theorem fits_cons : Fits count line (c :: cs) ↔ line.length < count ∧ Fits count (key line c) cs := by
  constructor
  · intro h
    exact ⟨h [] List.nil_prefix, fun pre hpre => h (c :: pre) (List.cons_prefix_cons.2 ⟨rfl, hpre⟩)⟩
  · rintro ⟨hline, h⟩ pre hpre
    cases pre with
    | nil => exact hline
    | cons d pre =>
      obtain ⟨rfl, htail⟩ := List.cons_prefix_cons.1 hpre
      exact h pre htail

theorem length_key_le (line : List Byte) (c : Byte) : (key line c).length ≤ line.length + 1 := by
  unfold key
  split_ifs
  · rw [List.length_dropLast]
    omega
  · omega
  · simp

end Editing

/-! ## The loop -/

/-- The buffer holds the line, and the screen shows it. -/
structure Holds (count : ℕ) (line : List Byte) (s : Line) : Prop where
  idx : s.idx = line.length
  length : s.buf.length = count
  text : line <+: s.buf
  plain : bs ∉ line
  echo : edit [] s.out = line

/-- The line that is returned: the text with a NUL behind it. -/
structure Ended (count : ℕ) (line : List Byte) (s : Line) : Prop where
  length : s.buf.length = count
  text : line ++ [0] <+: s.buf

section Loops
variable {line cs : List Byte} {count : ℕ} {c : Byte} {s : Line} {typed : List (Option Byte)}

theorem store_ok {buf : List Byte} {i : ℕ} (h : i < buf.length) : store buf i c = .ok (buf.set i c) :=
  if_pos h

/-- A store at the end of the line. -/
theorem Holds.store (h : Holds count line s) (hlt : line.length < count) (c : Byte) :
    ∃ buf, Shell.store s.buf s.idx c = .ok buf ∧ buf.length = count ∧ line ++ [c] <+: buf := by
  obtain ⟨tail, htail⟩ := h.text
  have hlen := h.length
  rw [← htail, List.length_append] at hlen
  obtain ⟨d, tail, rfl⟩ : ∃ d t, tail = d :: t := List.exists_cons_of_ne_nil (by
    rintro rfl
    rw [List.length_nil] at hlen
    omega)
  refine ⟨line ++ c :: tail, ?_, ?_, ⟨tail, by simp⟩⟩
  · rw [store_ok (by rw [h.idx, h.length]; exact hlt), h.idx, ← htail,
      List.set_append_right _ _ le_rfl, Nat.sub_self, List.set_cons_zero]
  · rw [← hlen, List.length_append, List.length_cons, List.length_cons]

/-- The line ends. -/
theorem Holds.putNul (h : Holds count line s) (hlt : line.length < count) :
    ∃ buf, Shell.store s.buf s.idx 0 = .ok buf ∧ ∀ out, Ended count line ⟨buf, s.idx, out⟩ := by
  obtain ⟨buf, hbuf, hlen, htext⟩ := h.store hlt 0
  exact ⟨buf, hbuf, fun _ => ⟨hlen, htext⟩⟩

/-- `buf[0]` is no backspace if there is a line. -/
theorem first_ne_bs {buf : List Byte} (h : line <+: buf) (hne : line ≠ []) (hplain : bs ∉ line)
    (hlen : 0 < buf.length) : buf.get ⟨0, hlen⟩ ≠ bs := by
  obtain ⟨d, line, rfl⟩ := List.exists_cons_of_ne_nil hne
  obtain ⟨tail, rfl⟩ := h
  intro hd
  exact hplain (hd ▸ List.mem_cons_self)

theorem key_bs : key line bs = line.dropLast := if_pos rfl

theorem key_tab : key line tab = line := (if_neg (by decide)).trans (if_pos rfl)

theorem key_char (hbs : c ≠ bs) (htab : c ≠ tab) : key line c = line ++ [c] :=
  (if_neg hbs).trans (if_neg htab)

/-- **A turn with a character of the line.** -/
theorem readTurn_key (h : Holds count line s) (hlt : line.length < count) (hcount : count < 2 ^ 32)
    (hc : ¬ (c = lf ∨ c = cr)) :
    ∃ s', readTurn s (some c) = .ok (s', true) ∧ Holds count (key line c) s' := by
  obtain ⟨buf, hbuf, hlen, htext⟩ := h.store hlt c
  have hline : line <+: buf := (List.prefix_append ..).trans htext
  have hidx := h.idx
  rw [readTurn, hbuf]
  show ∃ s', (if c = lf ∨ c = cr then _ else _) = _ ∧ _
  rw [if_neg hc]
  by_cases hbs : c = bs
  · subst hbs
    have hpos : 0 < buf.length := by omega
    rw [if_pos rfl, load, dif_pos hpos, key_bs]
    by_cases hne : line = []
    · -- the backspace itself stands at `buf[0]`
      subst hne
      have hfirst : buf.get ⟨0, hpos⟩ = bs := by
        obtain ⟨tail, rfl⟩ := htext
        rfl
      refine ⟨{ s with buf := buf }, ?_, ⟨hidx, hlen, hline, h.plain, h.echo⟩⟩
      show (if buf.get _ ≠ bs then _ else _) = _
      rw [if_neg (not_not.2 hfirst)]
      rfl
    · have hback : u32 (s.idx + (2 ^ 32 - 1)) = line.dropLast.length := by
        have := List.length_pos_iff.2 hne
        rw [List.length_dropLast, hidx, u32]
        omega
      refine ⟨⟨buf, u32 (s.idx + (2 ^ 32 - 1)), s.out ++ [bs]⟩, ?_, ⟨hback, hlen, ?_, ?_, ?_⟩⟩
      · show (if buf.get _ ≠ bs then _ else _) = _
        rw [if_pos (first_ne_bs hline hne h.plain hpos)]
        rfl
      · exact (List.dropLast_prefix line).trans hline
      · exact fun hmem => h.plain (List.mem_of_mem_dropLast hmem)
      · rw [edit_concat, h.echo, key_bs]
  · rw [if_neg hbs]
    by_cases htab : c = tab
    · subst htab
      rw [if_pos rfl, key_tab]
      exact ⟨{ s with buf := buf }, rfl, ⟨hidx, hlen, hline, h.plain, h.echo⟩⟩
    · have hnext : u32 (s.idx + 1) = (line ++ [c]).length := by
        rw [List.length_append, List.length_singleton, hidx, u32_of_lt (by omega)]
      rw [if_neg htab, key_char hbs htab]
      refine ⟨⟨buf, u32 (s.idx + 1), s.out ++ [c]⟩, rfl, ⟨hnext, hlen, htext, ?_, ?_⟩⟩
      · simpa using ⟨h.plain, Ne.symm hbs⟩
      · rw [edit_concat, h.echo, key_char hbs htab]

/-- **A turn with an end of the line.** -/
theorem readTurn_end (h : Holds count line s) (hlt : line.length < count) {t : Option Byte}
    (ht : IsEnd t) : ∃ s', readTurn s t = .ok (s', false) ∧ Ended count line s' := by
  cases t with
  | none =>
    obtain ⟨buf, hbuf, hend⟩ := h.putNul hlt
    refine ⟨{ s with buf := buf }, ?_, hend s.out⟩
    rw [readTurn, hbuf]
    rfl
  | some c =>
    obtain ⟨buf, hbuf, hlen, htext⟩ := h.store hlt c
    have hline : line <+: buf := (List.prefix_append ..).trans htext
    have h' : Holds count line { s with buf := buf } := ⟨h.idx, hlen, hline, h.plain, h.echo⟩
    obtain ⟨buf', hbuf', hend⟩ := h'.putNul hlt
    refine ⟨{ s with buf := buf', out := s.out ++ [lf] }, ?_, hend _⟩
    rw [readTurn, hbuf]
    show (if c = lf ∨ c = cr then _ else _) = _
    rw [if_pos (show c = lf ∨ c = cr from ht)]
    show (Shell.store buf s.idx 0 >>= _) = _
    rw [hbuf']
    rfl

/-- In a full buffer the NUL goes behind the last byte. -/
theorem putEnd_full (h : Holds count line s) (hfull : count ≤ line.length) :
    putEnd s = .error (.wild "buf") := by
  have hout : ¬ s.idx < s.buf.length := by
    rw [h.idx, h.length]
    omega
  rw [putEnd, Shell.store, if_neg hout]
  rfl

theorem typedChars_end {t : Option Byte} (ht : IsEnd t) : typedChars (t :: typed) = [] := by
  cases t with
  | none => rfl
  | some c => exact if_pos ht

/-- **The loop while the line is shorter than the buffer.** -/
theorem readLoop_fits (h : Holds count line s) (hcount : count < 2 ^ 32)
    (hfits : Fits count line (typedChars typed)) :
    ∃ r, readLoop count typed s = .ok r ∧ (r.isSome ↔ ∃ t ∈ typed, IsEnd t) ∧
      ∀ s', r = some s' → Ended count (edit line (typedChars typed)) s' := by
  have hlt : line.length < count := hfits [] List.nil_prefix
  have hidx : s.idx < count := h.idx ▸ hlt
  induction typed generalizing s line with
  | nil => exact ⟨none, if_pos hidx, by simp, by simp⟩
  | cons t typed ih =>
    rw [readLoop, if_pos hidx]
    by_cases ht : IsEnd t
    · obtain ⟨s', hs', hend⟩ := readTurn_end h hlt ht
      refine ⟨some s', ?_, ?_, ?_⟩
      · rw [hs']
        rfl
      · exact iff_of_true rfl ⟨t, List.mem_cons_self, ht⟩
      · rintro _ ⟨⟩
        rw [typedChars_end ht]
        exact hend
    · obtain ⟨c, rfl⟩ : ∃ c, t = some c := Option.ne_none_iff_exists'.1 (by
        rintro rfl
        exact ht trivial)
      have hchars : typedChars (some c :: typed) = c :: typedChars typed := if_neg ht
      rw [hchars] at hfits ⊢
      obtain ⟨-, hfits⟩ := fits_cons.1 hfits
      obtain ⟨s', hs', h'⟩ := readTurn_key h hlt hcount ht
      have hlt' : (key line c).length < count := hfits [] List.nil_prefix
      obtain ⟨r, hr, hsome, hend⟩ := ih h' hfits hlt' (h'.idx ▸ hlt')
      refine ⟨r, ?_, ?_, hend⟩
      · rw [hs']
        exact hr
      · rw [hsome, List.exists_mem_cons_iff, or_iff_right ht]

/-- **The loop when the line comes to fill the buffer.** -/
theorem readLoop_full (h : Holds count line s) (hcount : count < 2 ^ 32) (hle : line.length ≤ count)
    (hfull : ¬ Fits count line (typedChars typed)) :
    readLoop count typed s = .error (.wild "buf") := by
  induction typed generalizing s line with
  | nil =>
    have hge : count ≤ line.length := Nat.le_of_not_lt (fits_nil.not.1 hfull)
    rw [readLoop, if_neg (by rw [h.idx]; omega), putEnd_full h hge]
  | cons t typed ih =>
    by_cases hlt : line.length < count
    · rw [readLoop, if_pos (h.idx ▸ hlt)]
      by_cases ht : IsEnd t
      · rw [typedChars_end ht, fits_nil] at hfull
        exact absurd hlt hfull
      · obtain ⟨c, rfl⟩ : ∃ c, t = some c := Option.ne_none_iff_exists'.1 (by
          rintro rfl
          exact ht trivial)
        have hchars : typedChars (some c :: typed) = c :: typedChars typed := if_neg ht
        rw [hchars, fits_cons] at hfull
        obtain ⟨s', hs', h'⟩ := readTurn_key h hlt hcount ht
        rw [hs']
        exact ih h' ((length_key_le line c).trans hlt) fun hfits => hfull ⟨hlt, hfits⟩
    · rw [readLoop, if_neg (h.idx ▸ hlt), putEnd_full h (Nat.le_of_not_lt hlt)]

/-- **When the line is read**: if it never fills the buffer. -/
theorem readline_iff (buf : List Byte) (typed : List (Option Byte)) (hcount : buf.length < 2 ^ 32) :
    (∃ r, readline buf buf.length typed = .ok r ∧ (r.isSome ↔ ∃ t ∈ typed, IsEnd t) ∧
        ∀ s, r = some s → Ended buf.length (edit [] (typedChars typed)) s) ↔
      Fits buf.length [] (typedChars typed) := by
  have h : Holds buf.length [] ⟨buf, 0, []⟩ := ⟨rfl, rfl, List.nil_prefix, List.not_mem_nil, rfl⟩
  constructor
  · rintro ⟨r, hr, -⟩
    by_contra hfull
    rw [readline, readLoop_full h hcount (Nat.zero_le _) hfull] at hr
    cases hr
  · exact readLoop_fits h hcount

end Loops

/-- `"ab"`, a backspace, a tab, `"c"` and the end of the line. -/
theorem readline_iff_ac : ∃ r,
    readline [1, 2, 3] 3 [some 0x61, some 0x62, some bs, some tab, some 0x63, some lf] = .ok r ∧
      (r.isSome ↔ ∃ t ∈ [some 0x61, some 0x62, some bs, some tab, some 0x63, some lf], IsEnd t) ∧
      ∀ s, r = some s → Ended 3 [0x61, 0x63] s :=
  (readline_iff [1, 2, 3] [some 0x61, some 0x62, some bs, some tab, some 0x63, some lf]
    (by decide)).2 (by simp [typedChars, fits_cons, fits_nil, key])

/-- Two characters in a buffer of two bytes. -/
theorem readline_ab :
    readline [0, 0] 2 [some 0x61, some 0x62, some lf] = .error (.wild "buf") := rfl

end Rdix.Shell
