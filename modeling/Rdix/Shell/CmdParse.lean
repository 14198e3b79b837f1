/-
  Splitting a command line (buildin/buildin_shell.c: cmd_parse).

  The pointer `next` stands in a `Cursor`: the bytes in front of it, and those from it on.

  * `tokens`: the maximal parts of a text without the separator; `tokens_cut` takes off the first;
  * `parseLoop_split`: the loop stores a pointer to each token until `argv` is full;
  * `cmdParse_iff`: `argv[argc] = NULL` is inside `argv` just if there are at most 15 tokens.
-/
import Rdix.Kernel.Halt

namespace Rdix.Shell

open Function

abbrev Byte := BitVec 8

/-- `MAX_ARG_NR`. -/
abbrev maxArgNr : ℕ := 16

/-! ## The code -/

/-- Memory with a pointer into it: the bytes in front of the pointer, and those from it on. -/
structure Cursor where
  front : List Byte
  rest : List Byte

namespace Cursor

def pos (next : Cursor) : ℕ := next.front.length

def mem (next : Cursor) : List Byte := next.front ++ next.rest

/-- `*next`. -/
def read (next : Cursor) : C Byte :=
  match next.rest with
  | [] => throw (.wild "cmd")
  | c :: _ => return c

/-- `*next = 0; next++;` -/
def putNul (next : Cursor) : C Cursor :=
  match next.rest with
  | [] => throw (.wild "cmd")
  | _ :: rest => return ⟨next.front ++ [0], rest⟩

end Cursor

/-- `argv`, of pointers into `cmd`. -/
abbrev Argv := Fin maxArgNr → Option ℕ

/-- `argv[argc] = arg`. -/
def setArg (argv : Argv) (argc : ℕ) (arg : Option ℕ) : C Argv :=
  if h : argc < maxArgNr then return update argv ⟨argc, h⟩ arg else throw (.wild "argv")

section Code
variable (token : Byte)

/-- `while (*next == token) next++;` -/
def skipToken (front : List Byte) : List Byte → C Cursor
  | [] => throw (.wild "cmd")
  | c :: rest => if c = token then skipToken (front ++ [c]) rest else return ⟨front, c :: rest⟩

/-- `while (*next && *next != token) next++;` -/
def skipWord (front : List Byte) : List Byte → C Cursor
  | [] => throw (.wild "cmd")
  | c :: rest =>
    if c ≠ 0 ∧ c ≠ token then skipWord (front ++ [c]) rest else return ⟨front, c :: rest⟩

/-- The loop of `cmd_parse`; it makes at most `MAX_ARG_NR` turns. -/
def parseLoop : ℕ → Cursor → ℕ → Argv → C (Cursor × ℕ × Argv)
  | 0, _, _, _ => throw .loop
  | fuel + 1, next, argc, argv => do
    let c ← next.read
    if c ≠ 0 ∧ argc < maxArgNr then
      let next ← skipToken token next.front next.rest
      let c ← next.read
      if c = 0 then return (next, argc, argv)
      else
        let argv ← setArg argv argc (some next.pos)
        let next ← skipWord token next.front next.rest
        let c ← next.read
        if c ≠ 0 then parseLoop fuel (← next.putNul) (argc + 1) argv
        else parseLoop fuel next (argc + 1) argv
    else return (next, argc, argv)

/-- The memory of `cmd`, `argv` and `argc` after `cmd_parse`. -/
def cmdParse (cmd : List Byte) (argv : Argv) : C (List Byte × Argv × ℕ) := do
  let (next, argc, argv) ← parseLoop token (maxArgNr + 1) ⟨[], cmd⟩ 0 argv
  let argv ← setArg argv argc none
  return (next.mem, argv, argc)

end Code

/-! ## Tokens -/

/-- The maximal parts of a text without the separator. -/
def tokens (token : Byte) (text : List Byte) : List (List Byte) :=
  (text.splitOnP (· = token)).filter (· ≠ [])

section Tokens
variable {token : Byte} {text seps w : List Byte}

@[simp] theorem tokens_nil : tokens token [] = [] := rfl

@[simp] theorem tokens_sep_cons : tokens token (token :: text) = tokens token text := by
  rw [tokens, List.splitOnP_cons_eq_if_modifyHead, if_pos (by simp), List.filter_cons_of_neg (by simp)]
  rfl

theorem tokens_seps_append (h : ∀ c ∈ seps, c = token) :
    tokens token (seps ++ text) = tokens token text := by
  induction seps with
  | nil => rfl
  | cons c seps ih =>
    obtain rfl := h c List.mem_cons_self
    rw [List.cons_append, tokens_sep_cons, ih fun d hd => h d (List.mem_cons_of_mem c hd)]

theorem tokens_word (hne : w ≠ []) (hw : token ∉ w) : tokens token w = [w] := by
  have hall : ∀ c ∈ w, decide (c = token) = false := by
    intro c hc
    exact decide_eq_false fun he => hw (he ▸ hc)
  rw [tokens, List.splitOnP_eq_singleton hall, List.filter_singleton]
  simp [hne]

theorem tokens_word_append (hne : w ≠ []) (hw : token ∉ w) :
    tokens token (w ++ token :: text) = w :: tokens token text := by
  have hall : ∀ c ∈ w, decide (c = token) = false := by
    intro c hc
    exact decide_eq_false fun he => hw (he ▸ hc)
  rw [tokens, List.splitOnP_append_cons_of_forall_mem hall token (by simp), List.filter_cons_of_pos (by simpa)]
  rfl

/-- **The first token** of a text, with the separators in front of it. -/
theorem tokens_cut (token : Byte) (text : List Byte) :
    (∀ c ∈ text, c = token) ∨ ∃ seps w rest, text = seps ++ (w ++ rest) ∧ (∀ c ∈ seps, c = token) ∧
      w ≠ [] ∧ token ∉ w ∧ (rest = [] ∨ ∃ rest', rest = token :: rest') := by
  induction text with
  | nil => exact Or.inl (by simp)
  | cons c text ih =>
    by_cases hc : c = token
    · subst hc
      rcases ih with h | ⟨seps, w, rest, rfl, hseps, hw⟩
      · exact Or.inl (by simpa using h)
      · exact Or.inr ⟨c :: seps, w, rest, rfl, by simpa using hseps, hw⟩
    · refine Or.inr ⟨[], (c :: text).takeWhile (· ≠ token), (c :: text).dropWhile (· ≠ token), ?_, ?_,
        ?_, ?_, ?_⟩
      · rw [List.takeWhile_append_dropWhile, List.nil_append]
      · simp
      · simp [hc]
      · intro hmem
        simpa using List.mem_takeWhile_imp hmem
      · cases hd : (c :: text).dropWhile (· ≠ token) with
        | nil => exact Or.inl rfl
        | cons d rest =>
          have hhead := List.head?_dropWhile_not (· ≠ token) (c :: text)
          rw [hd] at hhead
          simp only [List.head?_cons, decide_not, Bool.not_eq_false', decide_eq_true_eq] at hhead
          exact Or.inr ⟨rest, by rw [hhead]⟩

end Tokens

/-! ## Strings in memory -/

/-- A NUL-terminated string at an address. -/
def StrAt (mem : List Byte) (p : ℕ) (w : List Byte) : Prop := w ++ [0] <+: mem.drop p

section Strings
variable {mem mem' front w rest : List Byte} {p : ℕ}

theorem StrAt.mono (h : StrAt mem p w) (hmem : mem <+: mem') : StrAt mem' p w :=
  h.trans (hmem.drop p)

theorem strAt_append (front w rest : List Byte) : StrAt (front ++ (w ++ 0 :: rest)) front.length w := by
  rw [StrAt, List.drop_left]
  exact ⟨rest, by simp⟩

end Strings

/-! ## The loop -/

section Loops
variable {token : Byte} {front seps w rest text junk : List Byte} {fuel argc : ℕ} {argv : Argv}

theorem skipToken_eq (front rest : List Byte) (h : ∀ c ∈ seps, c = token) {c : Byte}
    (hc : c ≠ token) :
    skipToken token front (seps ++ c :: rest) = .ok ⟨front ++ seps, c :: rest⟩ := by
  induction seps generalizing front with
  | nil => simp [skipToken, hc]
  | cons d seps ih =>
    rw [List.cons_append, skipToken, if_pos (h d List.mem_cons_self),
      ih _ fun c hc => h c (List.mem_cons_of_mem d hc), List.append_assoc]
    rfl

theorem skipWord_eq (front rest : List Byte) (hw : token ∉ w) (hnul : 0 ∉ w) {c : Byte}
    (hc : c = 0 ∨ c = token) :
    skipWord token front (w ++ c :: rest) = .ok ⟨front ++ w, c :: rest⟩ := by
  induction w generalizing front with
  | nil =>
    have hstop : ¬ (c ≠ 0 ∧ c ≠ token) := fun h => hc.elim h.1 h.2
    rw [List.nil_append, skipWord, if_neg hstop, List.append_nil]
    rfl
  | cons d w ih =>
    obtain ⟨hd, hw⟩ := not_or.1 (List.mem_cons.not.1 hw)
    obtain ⟨hd0, hnul⟩ := not_or.1 (List.mem_cons.not.1 hnul)
    rw [List.cons_append, skipWord, if_pos ⟨Ne.symm hd0, Ne.symm hd⟩, ih _ hw hnul, List.append_assoc]
    rfl

/-- At the NUL, and when `argc` is `MAX_ARG_NR`, the loop ends. -/
theorem parseLoop_stop {c : Byte} (h : ¬ (c ≠ 0 ∧ argc < maxArgNr)) :
    parseLoop token (fuel + 1) ⟨front, c :: rest⟩ argc argv = .ok (⟨front, c :: rest⟩, argc, argv) := by
  show (if c ≠ 0 ∧ argc < maxArgNr then _ else _) = _
  rw [if_neg h]
  rfl

/-- Only separators are left. -/
theorem parseLoop_seps (front junk : List Byte) (fuel argc : ℕ) (argv : Argv) (htoken : token ≠ 0)
    (h : ∀ c ∈ seps, c = token) :
    ∃ next, parseLoop token (fuel + 1) ⟨front, seps ++ 0 :: junk⟩ argc argv = .ok (next, argc, argv) ∧
      next.mem = front ++ (seps ++ 0 :: junk) := by
  cases seps with
  | nil => exact ⟨_, parseLoop_stop (by simp), rfl⟩
  | cons c seps =>
    by_cases hargc : argc < maxArgNr
    · have hc : c ≠ 0 ∧ argc < maxArgNr := ⟨h c List.mem_cons_self ▸ htoken, hargc⟩
      refine ⟨⟨front ++ c :: seps, 0 :: junk⟩, ?_, by simp [Cursor.mem]⟩
      show (if c ≠ 0 ∧ argc < maxArgNr then _ else _) = _
      rw [if_pos hc, skipToken_eq _ _ h htoken.symm]
      rfl
    · exact ⟨_, parseLoop_stop fun hc => hargc hc.2, rfl⟩

/-- **A turn** stores a pointer to the first token. -/
theorem parseLoop_turn (front rest : List Byte) (fuel : ℕ) (argv : Argv) (hargc : argc < maxArgNr)
    (htoken : token ≠ 0) (h : ∀ c ∈ seps, c = token) (hne : w ≠ []) (hw : token ∉ w) (hnul : 0 ∉ w)
    {c : Byte} (hc : c = 0 ∨ c = token) :
    parseLoop token (fuel + 1) ⟨front, seps ++ (w ++ c :: rest)⟩ argc argv =
      parseLoop token fuel (if c = 0 then ⟨front ++ seps ++ w, c :: rest⟩
        else ⟨front ++ seps ++ w ++ [0], rest⟩) (argc + 1)
        (update argv ⟨argc, hargc⟩ (some (front ++ seps).length)) := by
  obtain ⟨d, w, rfl⟩ := List.exists_cons_of_ne_nil hne
  obtain ⟨hd, -⟩ := not_or.1 (List.mem_cons.not.1 hw)
  obtain ⟨hd0, -⟩ := not_or.1 (List.mem_cons.not.1 hnul)
  obtain ⟨e, tail, htail, he⟩ : ∃ e tail, seps ++ (d :: w ++ c :: rest) = e :: tail ∧ e ≠ 0 := by
    cases seps with
    | nil => exact ⟨d, w ++ c :: rest, rfl, Ne.symm hd0⟩
    | cons e seps => exact ⟨e, _, rfl, h e List.mem_cons_self ▸ htoken⟩
  have hskip := skipToken_eq front (w ++ c :: rest) h (Ne.symm hd)
  have hword := skipWord_eq (front ++ seps) rest hw hnul hc
  rw [List.cons_append] at hword htail ⊢
  rw [htail] at hskip ⊢
  show (if e ≠ 0 ∧ argc < maxArgNr then _ else _) = _
  rw [if_pos ⟨he, hargc⟩, hskip]
  show (if d = 0 then _ else _) = _
  rw [if_neg (Ne.symm hd0), setArg, dif_pos hargc]
  show (skipWord token (front ++ seps) (d :: (w ++ c :: rest)) >>= _) = _
  rw [hword]
  by_cases hc0 : c = 0
  · rw [if_pos hc0]
    show (if c ≠ 0 then _ else _) = _
    rw [if_neg (not_not.2 hc0)]
    rfl
  · rw [if_neg hc0]
    show (if c ≠ 0 then _ else _) = _
    rw [if_pos hc0]
    rfl

/-- What the loop does from some point on: `argc'` and `argv'` are those at its end. -/
structure Split (token : Byte) (front text : List Byte) (argc : ℕ) (argv : Argv) (mem : List Byte)
    (argc' : ℕ) (argv' : Argv) : Prop where
  count : argc' = min maxArgNr (argc + (tokens token text).length)
  front : front <+: mem
  kept : ∀ k : Fin maxArgNr, (k : ℕ) < argc → argv' k = argv k
  word : ∀ k : Fin maxArgNr, argc ≤ k → (k : ℕ) < argc' →
    ∃ p w, argv' k = some p ∧ (tokens token text)[(k : ℕ) - argc]? = some w ∧ StrAt mem p w

/-- Nothing more is stored. -/
theorem Split.stop {mem : List Byte} (hcount : argc = min maxArgNr (argc + (tokens token text).length))
    (hfront : front <+: mem) : Split token front text argc argv mem argc argv :=
  ⟨hcount, hfront, fun _ _ => rfl, fun _ hle hlt => absurd hlt (Nat.not_lt.2 hle)⟩

/-- **One token more**: the first one is stored, and then the others. -/
theorem Split.cons {mem front' text' : List Byte} {p argc' : ℕ} {argv' : Argv} (hargc : argc < maxArgNr)
    (h : Split token front' text' (argc + 1) (update argv ⟨argc, hargc⟩ (some p)) mem argc' argv')
    (hfront : front <+: front') (htokens : tokens token text = w :: tokens token text')
    (hw : StrAt mem p w) : Split token front text argc argv mem argc' argv' := by
  refine ⟨?_, hfront.trans h.front, fun k hk => ?_, fun k hle hlt => ?_⟩
  · rw [h.count, htokens, List.length_cons]
    congr 1
    omega
  · rw [h.kept k (by omega), update_of_ne]
    rintro rfl
    exact lt_irrefl _ hk
  · rcases Nat.eq_or_lt_of_le hle with rfl | hlt'
    · refine ⟨p, w, ?_, ?_, hw⟩
      · rw [h.kept k (Nat.lt_succ_self _), update_self]
      · rw [htokens, Nat.sub_self, List.getElem?_cons_zero]
    · obtain ⟨p', w', hp', hw', hstr⟩ := h.word k hlt' hlt
      refine ⟨p', w', hp', ?_, hstr⟩
      have hsub : (k : ℕ) - argc = (k - (argc + 1)) + 1 := by omega
      rw [htokens, hsub, List.getElem?_cons_succ, hw']

/-- **The loop stores a pointer to each token**, until `argv` is full. -/
theorem parseLoop_split (front junk : List Byte) (fuel : ℕ) (argv : Argv) (htoken : token ≠ 0)
    (hnul : 0 ∉ text) (hfuel : fuel + argc = maxArgNr + 1) (hle : argc ≤ maxArgNr) : ∃ next argc' argv',
      parseLoop token fuel ⟨front, text ++ 0 :: junk⟩ argc argv = .ok (next, argc', argv') ∧
        Split token front text argc argv next.mem argc' argv' := by
  induction fuel generalizing front text argc argv with
  | zero => omega
  | succ fuel ih =>
    by_cases hargc : argc < maxArgNr
    · rcases tokens_cut token text with hseps | ⟨seps, w, rest, rfl, hseps, hne, hw, hrest⟩
      · obtain ⟨next, heq, hmem⟩ := parseLoop_seps front junk fuel argc argv htoken hseps
        have hnil : tokens token text = [] := by
          have := @tokens_seps_append token [] text hseps
          rwa [List.append_nil] at this
        refine ⟨next, argc, argv, heq, .stop ?_ ?_⟩
        · rw [hnil, List.length_nil, Nat.add_zero, Nat.min_eq_right hle]
        · rw [hmem]
          exact List.prefix_append ..
      · have hnulw : 0 ∉ w := fun hmem =>
          hnul (List.mem_append_right _ (List.mem_append_left _ hmem))
        rcases hrest with rfl | ⟨rest, rfl⟩
        · -- the text ends with the token, and the next turn is the last one
          obtain ⟨fuel, rfl⟩ : ∃ k, fuel = k + 1 := ⟨fuel - 1, by omega⟩
          have hturn := parseLoop_turn front junk (fuel + 1) argv hargc htoken hseps hne hw hnulw
            (Or.inl rfl)
          rw [if_pos rfl, parseLoop_stop (by simp)] at hturn
          have hstop : Split token (front ++ seps ++ w) [] (argc + 1)
              (update argv ⟨argc, hargc⟩ (some (front ++ seps).length))
              (front ++ seps ++ w ++ 0 :: junk) (argc + 1)
              (update argv ⟨argc, hargc⟩ (some (front ++ seps).length)) := by
            refine .stop ?_ (List.prefix_append ..)
            rw [tokens_nil, List.length_nil, Nat.add_zero, Nat.min_eq_right hargc]
          refine ⟨⟨front ++ seps ++ w, 0 :: junk⟩, argc + 1, _, ?_,
            hstop.cons (w := w) hargc ?_ ?_ ?_⟩
          · rw [List.append_nil, List.append_assoc, hturn]
          · rw [List.append_assoc]
            exact List.prefix_append ..
          · rw [List.append_nil, tokens_seps_append hseps, tokens_word hne hw]
            rfl
          · have := strAt_append (front ++ seps) w junk
            rwa [← List.append_assoc] at this
        · have hturn := parseLoop_turn front (rest ++ 0 :: junk) fuel argv hargc htoken hseps hne hw
            hnulw (Or.inr rfl)
          rw [if_neg htoken] at hturn
          have hnulr : 0 ∉ rest := fun hmem => hnul (List.mem_append_right _
            (List.mem_append_right _ (List.mem_cons_of_mem _ hmem)))
          obtain ⟨next, argc', argv', heq, hsplit⟩ := ih (front ++ seps ++ w ++ [0])
            (update argv ⟨argc, hargc⟩ (some (front ++ seps).length)) hnulr (by omega) hargc
          refine ⟨next, argc', argv', ?_, hsplit.cons (w := w) hargc ?_ ?_ ?_⟩
          · rw [← heq, ← hturn]
            simp
          · rw [List.append_assoc, List.append_assoc]
            exact List.prefix_append ..
          · rw [tokens_seps_append hseps, tokens_word_append hne hw]
          · have := strAt_append (front ++ seps) w []
            rw [← List.append_assoc] at this
            exact this.mono hsplit.front
    · obtain ⟨c, rest, hc⟩ : ∃ c rest, text ++ 0 :: junk = c :: rest :=
        List.exists_cons_of_ne_nil (by simp)
      rw [hc, parseLoop_stop fun h => hargc h.2]
      refine ⟨_, _, _, rfl, .stop ?_ (List.prefix_append ..)⟩
      omega

/-- **The line is split**: `argc` tokens, as many as fit with the `NULL` behind them. -/
structure Parsed (token : Byte) (text mem : List Byte) (argv : Argv) (argc : ℕ) : Prop where
  count : argc = min (tokens token text).length (maxArgNr - 1)
  word : ∀ k : Fin maxArgNr, (k : ℕ) < argc →
    ∃ p w, argv k = some p ∧ (tokens token text)[(k : ℕ)]? = some w ∧ StrAt mem p w
  last : ∀ k : Fin maxArgNr, (k : ℕ) = argc → argv k = none

/-- With 16 tokens or more the `NULL` goes behind `argv`. -/
theorem cmdParse_full (htoken : token ≠ 0) (hnul : 0 ∉ text)
    (h : maxArgNr ≤ (tokens token text).length) :
    cmdParse token (text ++ 0 :: junk) argv = .error (.wild "argv") := by
  obtain ⟨next, argc, argv', heq, hsplit⟩ := parseLoop_split [] junk (maxArgNr + 1) argv htoken hnul rfl
    (Nat.zero_le _)
  have hargc : argc = maxArgNr := by
    rw [hsplit.count]
    omega
  rw [cmdParse, heq, hargc]
  rfl

theorem cmdParse_fits (htoken : token ≠ 0) (hnul : 0 ∉ text)
    (h : (tokens token text).length < maxArgNr) :
    ∃ mem argv' argc, cmdParse token (text ++ 0 :: junk) argv = .ok (mem, argv', argc) ∧
      Parsed token text mem argv' argc := by
  obtain ⟨next, argc, argv', heq, hsplit⟩ := parseLoop_split [] junk (maxArgNr + 1) argv htoken hnul rfl
    (Nat.zero_le _)
  have hcount : argc = (tokens token text).length := by
    rw [hsplit.count]
    omega
  have hargc : argc < maxArgNr := hcount ▸ h
  refine ⟨next.mem, update argv' ⟨argc, hargc⟩ none, argc, ?_, ?_, fun k hk => ?_, fun k hk => ?_⟩
  · rw [cmdParse, heq]
    show (setArg argv' argc none >>= _) = _
    rw [setArg, dif_pos hargc]
    rfl
  · omega
  · have hne : k ≠ ⟨argc, hargc⟩ := by
      rintro rfl
      exact lt_irrefl _ hk
    rw [update_of_ne hne]
    exact hsplit.word k (Nat.zero_le _) hk
  · obtain rfl : k = ⟨argc, hargc⟩ := Fin.ext hk
    exact update_self ..

/-- **When the line is split**: with at most 15 tokens.  What stands behind the NUL and in `argv`
    does not matter. -/
theorem cmdParse_iff (token : Byte) (text junk : List Byte) (argv : Argv) (htoken : token ≠ 0)
    (hnul : 0 ∉ text) :
    (∃ mem argv' argc, cmdParse token (text ++ 0 :: junk) argv = .ok (mem, argv', argc) ∧
        Parsed token text mem argv' argc) ↔
      (tokens token text).length < maxArgNr := by
  constructor
  · rintro ⟨mem, argv', argc, heq, -⟩
    by_contra h
    rw [cmdParse_full htoken hnul (Nat.le_of_not_lt h)] at heq
    cases heq
  · exact cmdParse_fits htoken hnul

end Loops

/-- `" ls  -l "`. -/
theorem cmdParse_iff_ls : ∃ mem argv argc,
    cmdParse 0x20 ([0x20, 0x6c, 0x73, 0x20, 0x20, 0x2d, 0x6c, 0x20] ++ 0 :: [0x78]) (fun _ => none) =
        .ok (mem, argv, argc) ∧
      Parsed 0x20 [0x20, 0x6c, 0x73, 0x20, 0x20, 0x2d, 0x6c, 0x20] mem argv argc :=
  (cmdParse_iff 0x20 [0x20, 0x6c, 0x73, 0x20, 0x20, 0x2d, 0x6c, 0x20] [0x78] (fun _ => none)
    (by decide) (by decide)).2 (by decide)

/-- `"a a a a a a a a a a a a a a a a"`. -/
def sixteen : List Byte := (List.replicate 15 [0x61, 0x20]).flatten ++ [0x61]

/-- Of sixteen tokens `argv[16]` is written. -/
theorem cmdParse_sixteen : 0 ∉ sixteen ∧ sixteen.length < 256 ∧ (tokens 0x20 sixteen).length = 16 ∧
    cmdParse 0x20 (sixteen ++ [0]) (fun _ => none) = .error (.wild "argv") := by
  have hlen : (tokens 0x20 sixteen).length = 16 := by decide
  exact ⟨by decide, by decide, hlen, cmdParse_full (by decide) (by decide) hlen.ge⟩

end Rdix.Shell
