/-
  Looking up a name in a directory (fs/minix1/namei.c: find_entry, _match).

  * `lookup`: the first entry in use whose name, of at most 14 bytes, is the first component;
  * `Comparable`: the entries whose bytes can be compared with a path as `_match` does it, without a
    look at where the name ends; `right_iff`: just these are compared rightly;
  * `findEntry_iff`: `find_entry` finds what it should exactly if all entries up to the one sought
    are among the first 64 and `Comparable`.
-/
import Rdix.Fs.InodeRead

namespace Rdix.Fs

open ByteMem Function

/-! ## What is looked for -/

/-- `dentry[i].inode` of a block. -/
def slotNr (b : Bytes) (i : ℕ) : ℕ := load b 2 (16 * i)

/-- The bytes from `off` on up to a NUL, at most `n`. -/
def bytesFrom (b : Bytes) : ℕ → ℕ → List (BitVec 8)
  | 0, _ => []
  | n + 1, off => if b off = 0#8 then [] else b off :: bytesFrom b n (off + 1)

/-- The name at `off`, read as at most `NAME_LEN` bytes. -/
def entryName (b : Bytes) (off : ℕ) : List (BitVec 8) := bytesFrom b nameLen off

/-- The first component of a path. -/
def component (name : CStr) : List (BitVec 8) := (name.takeWhile fun c => !isSeparator c).map Subtype.val

/-- Entry `i` of a block is in use and has the name that is looked for. -/
def Named (b : Bytes) (name : CStr) (i : ℕ) : Prop :=
  slotNr b i ≠ 0 ∧ entryName b (16 * i + 2) = component name

instance (b : Bytes) (name : CStr) (i : ℕ) : Decidable (Named b name i) :=
  inferInstanceAs (Decidable (_ ∧ _))

/-- The bytes of `w` stand at `off`. -/
def Spells (b : Bytes) : ℕ → List (BitVec 8) → Prop
  | _, [] => True
  | off, x :: w => b off = x ∧ Spells b (off + 1) w

/-- The first `k` characters of a path stand at `off`. -/
def Stands (b : Bytes) (name : CStr) (off k : ℕ) : Prop :=
  k ≤ name.length ∧ Spells b off ((name.take k).map Subtype.val)

/-- The string at `off`, which ends inside the block, is the beginning of a path, in front of a separator
    or of the end. -/
structure Leads (b : Bytes) (name : CStr) (off k : ℕ) : Prop where
  stands : Stands b name off k
  nul : b (off + k) = 0#8
  inside : off + k < blockSize
  stop : ∀ c, (name.drop k).head? = some c → isSeparator c = true

/-- **An entry that can be compared with a path**, though its name may have no NUL in its 14 bytes:
    * the name sought, if it has 14 bytes, has its NUL right behind them, in the next entry of the block
      (or what stands behind them spells the path further on);
    * no other name is such a beginning of the path that holds a separator or goes on behind the 14 bytes;
    * no other name is the beginning of the path up to the end of the block. -/
structure Comparable (b : Bytes) (name : CStr) (i : ℕ) : Prop where
  full : entryName b (16 * i + 2) = component name → (component name).length = nameLen →
    i + 1 < blockDentrys ∧ b (16 * i + 16) = 0#8 ∨ ∃ k, nameLen < k ∧ Leads b name (16 * i + 2) k
  plain : entryName b (16 * i + 2) ≠ component name → ∀ k, Leads b name (16 * i + 2) k →
    k ≤ nameLen ∧ ∀ c ∈ name.take k, isSeparator c = false
  inside : entryName b (16 * i + 2) ≠ component name → ∀ k, Stands b name (16 * i + 2) k →
    16 * i + 2 + k < blockSize

/-- `_match` is right about entry `i` of a block. -/
def Right (b : Bytes) (name : CStr) (i : ℕ) : Prop :=
  slotNr b i ≠ 0 → entryMatch b name (16 * i + 2) = .ok (entryName b (16 * i + 2) = component name)

variable (s : Fs) (dir : ℕ)

/-- The number of entries of a directory. -/
def entryCnt : ℕ := s.field dir .size / 16

/-- The block of entry `j` of a directory. -/
def entryBlock (j : ℕ) : ℕ := s.zoneOf dir (j / blockDentrys)

/-- Entry `j` of a directory is in use and has the name that is looked for. -/
def Hits (name : CStr) (j : ℕ) : Prop := Named (s.cache.data (s.entryBlock dir j)) name (j % blockDentrys)

instance (name : CStr) (j : ℕ) : Decidable (s.Hits dir name j) := inferInstanceAs (Decidable (Named ..))

/-- The first of the `n` entries from `i` on with the name that is looked for: its block, and its
    number there. -/
def lookFrom (name : CStr) : ℕ → ℕ → Option (ℕ × ℕ)
  | 0, _ => none
  | n + 1, i =>
    if s.Hits dir name i then some (s.entryBlock dir i, i % blockDentrys) else lookFrom name n (i + 1)

/-- What `find_entry` should return. -/
def lookup (name : CStr) : Option (ℕ × ℕ) := s.lookFrom dir name (s.entryCnt dir) 0

/-! ## `_match` -/

section Match
variable {b : Bytes} {name : CStr} {off : ℕ}

theorem component_cons (c : Chr) (cs : CStr) :
    component (c :: cs) = if isSeparator c then [] else c.val :: component cs := by
  unfold component
  rw [List.takeWhile_cons]
  cases isSeparator c <;> rfl

/-- A name that ends inside the block is compared with the first component. -/
theorem entryMatch_name {w : List (BitVec 8)} (hw : Spells b off w)
    (h0 : ∀ x ∈ w, x ≠ 0#8 ∧ x ≠ 0x2f#8 ∧ x ≠ 0x5c#8) (hend : b (off + w.length) = 0#8)
    (hin : off + w.length < blockSize) : entryMatch b name off = .ok (w = component name) := by
  induction w generalizing name off with
  | nil =>
    have hb : b off = 0#8 := hend
    have hoff : off < blockSize := hin
    cases name with
    | nil => simp [entryMatch, hb, hoff, component]
    | cons c cs =>
      rw [entryMatch, if_pos hoff, if_neg (fun h => h.1 hb), component_cons]
      cases hc : isSeparator c <;> simp [hb]
  | cons x w ih =>
    obtain ⟨hb, hw⟩ := hw
    have hoff : off < blockSize := by
      rw [List.length_cons] at hin
      omega
    obtain ⟨hx0, hx1, hx2⟩ := h0 x List.mem_cons_self
    cases name with
    | nil => simp [entryMatch, hb, hoff, component, hx0]
    | cons c cs =>
      rw [entryMatch, if_pos hoff, hb, component_cons]
      by_cases hc : c.val = x
      · have hsep : isSeparator c = false := decide_eq_false (by rw [hc]; tauto)
        rw [if_pos ⟨hx0, hc⟩, hsep, ih hw]
        · simp [hc]
        · exact fun y hy => h0 y (List.mem_cons_of_mem _ hy)
        · rwa [List.length_cons, show off + (w.length + 1) = off + 1 + w.length by omega] at hend
        · rw [List.length_cons] at hin
          omega
      · rw [if_neg fun h => hc h.2]
        have hne : x :: w ≠ if isSeparator c = true then [] else c.val :: component cs := by
          by_cases hs : isSeparator c = true
          · rw [if_pos hs]
            exact List.cons_ne_nil _ _
          · rw [if_neg hs]
            intro h
            exact hc (List.cons.inj h).1.symm
        simp [hx0, hne]

section Bytes
variable (b : Bytes) (n off : ℕ)

theorem bytesFrom_length : (bytesFrom b n off).length ≤ n := by
  induction n generalizing off with
  | zero => exact le_rfl
  | succ n ih =>
    unfold bytesFrom
    split_ifs
    · exact Nat.zero_le _
    · exact Nat.succ_le_succ (ih _)

theorem bytesFrom_spells : Spells b off (bytesFrom b n off) := by
  induction n generalizing off with
  | zero => trivial
  | succ n ih =>
    unfold bytesFrom
    split_ifs
    · trivial
    · exact ⟨rfl, ih _⟩

theorem bytesFrom_byte {k : ℕ} (hk : k < (bytesFrom b n off).length) : b (off + k) ≠ 0#8 := by
  induction n generalizing off k with
  | zero => cases hk
  | succ n ih =>
    unfold bytesFrom at hk
    split_ifs at hk with hb
    · cases hk
    · cases k with
      | zero => exact hb
      | succ k =>
        rw [show off + (k + 1) = off + 1 + k by omega]
        exact ih _ (Nat.lt_of_succ_lt_succ hk)

theorem bytesFrom_ne_zero : ∀ x ∈ bytesFrom b n off, x ≠ 0#8 := by
  induction n generalizing off with
  | zero => simp [bytesFrom]
  | succ n ih =>
    unfold bytesFrom
    split_ifs with hb
    · simp
    · intro x hx
      rcases List.mem_cons.1 hx with rfl | hx
      · exact hb
      · exact ih _ x hx

/-- Fewer than `n` bytes end with a NUL. -/
theorem bytesFrom_end (h : (bytesFrom b n off).length < n) : b (off + (bytesFrom b n off).length) = 0#8 := by
  induction n generalizing off with
  | zero => cases h
  | succ n ih =>
    unfold bytesFrom at h ⊢
    split_ifs at h ⊢ with hb
    · exact hb
    · rw [List.length_cons, show off + ((bytesFrom b n (off + 1)).length + 1) =
        off + 1 + (bytesFrom b n (off + 1)).length by omega]
      exact ih _ (Nat.lt_of_succ_lt_succ h)

end Bytes

theorem bytesFrom_of_spells {w : List (BitVec 8)} (h : Spells b off w) (h0 : ∀ x ∈ w, x ≠ 0#8)
    (hend : b (off + w.length) = 0#8) (hn : w.length ≤ n) : bytesFrom b n off = w := by
  induction w generalizing off n with
  | nil =>
    cases n with
    | zero => rfl
    | succ n => exact if_pos hend
  | cons x w ih =>
    obtain ⟨hx, h⟩ := h
    cases n with
    | zero => cases hn
    | succ n =>
      rw [List.length_cons] at hend hn
      rw [bytesFrom, hx, if_neg (h0 x List.mem_cons_self), ih h]
      · exact fun y hy => h0 y (List.mem_cons_of_mem _ hy)
      · rwa [show off + 1 + w.length = off + (w.length + 1) by omega]
      · omega

/-- **`_match` is right about an entry whose name has no separator and ends with a NUL inside the
    block**, in the 14 bytes or right behind them. -/
theorem entryMatch_right {i : ℕ} (hi : i < blockDentrys)
    (hsep : ∀ x ∈ entryName b (16 * i + 2), x ≠ 0x2f#8 ∧ x ≠ 0x5c#8)
    (hend : (entryName b (16 * i + 2)).length < nameLen ∨ i < 63 ∧ b (16 * i + 16) = 0#8) :
    Right b name i := by
  intro _
  have hlen : (entryName b (16 * i + 2)).length ≤ nameLen := bytesFrom_length ..
  refine entryMatch_name (bytesFrom_spells ..) (fun x hx => ⟨bytesFrom_ne_zero _ _ _ x hx, hsep x hx⟩) ?_ ?_
  · by_cases hlt : (entryName b (16 * i + 2)).length < nameLen
    · exact bytesFrom_end _ _ _ hlt
    · have hfull : (entryName b (16 * i + 2)).length = nameLen := le_antisymm hlen (not_lt.1 hlt)
      rw [hfull]
      exact (hend.resolve_left hlt).2
  · norm_num at hi hlen hend ⊢
    have : (bytesFrom b 14 (16 * i + 2)).length = (entryName b (16 * i + 2)).length := rfl
    omega

/-! ### The bytes that are compared -/

section Compared
variable {c : Chr} {cs : CStr} {i k : ℕ}

@[simp] theorem stands_zero : Stands b name off 0 := ⟨Nat.zero_le _, trivial⟩

@[simp] theorem stands_succ : Stands b (c :: cs) off (k + 1) ↔ b off = c.val ∧ Stands b cs (off + 1) k := by
  constructor
  · rintro ⟨hk, hb, hspells⟩
    exact ⟨hb, Nat.le_of_succ_le_succ hk, hspells⟩
  · rintro ⟨hb, hk, hspells⟩
    exact ⟨Nat.succ_le_succ hk, hb, hspells⟩

theorem leads_zero : Leads b name off 0 ↔
    b off = 0#8 ∧ off < blockSize ∧ ∀ c, name.head? = some c → isSeparator c = true := by
  constructor
  · intro h
    exact ⟨h.nul, h.inside, h.stop⟩
  · rintro ⟨hnul, hin, hstop⟩
    exact ⟨stands_zero, hnul, hin, hstop⟩

theorem leads_succ : Leads b (c :: cs) off (k + 1) ↔ b off = c.val ∧ Leads b cs (off + 1) k := by
  have hoff : off + (k + 1) = off + 1 + k := by omega
  constructor
  · rintro ⟨hstands, hnul, hin, hstop⟩
    rw [hoff] at hnul hin
    obtain ⟨hb, hstands⟩ := stands_succ.1 hstands
    exact ⟨hb, hstands, hnul, hin, hstop⟩
  · rintro ⟨hb, hstands, hnul, hin, hstop⟩
    rw [← hoff] at hnul hin
    exact ⟨stands_succ.2 ⟨hb, hstands⟩, hnul, hin, hstop⟩

/-- **`_match` says yes** to the strings that lead up to a separator or the end. -/
theorem entryMatch_true : entryMatch b name off = .ok true ↔ ∃ k, Leads b name off k := by
  induction name generalizing off with
  | nil =>
    unfold entryMatch
    constructor
    · intro h
      split_ifs at h with hoff
      exact ⟨0, leads_zero.2 ⟨of_decide_eq_true (Except.ok.inj h), hoff, nofun⟩⟩
    · rintro ⟨k, h⟩
      obtain rfl : k = 0 := Nat.le_zero.1 h.stands.1
      obtain ⟨hnul, hin, -⟩ := leads_zero.1 h
      rw [if_pos hin, hnul]
      rfl
  | cons c cs ih =>
    unfold entryMatch
    constructor
    · intro h
      split_ifs at h with hoff hc
      · obtain ⟨k, hk⟩ := ih.1 h
        exact ⟨k + 1, leads_succ.2 ⟨hc.2.symm, hk⟩⟩
      · obtain ⟨hnul, hsep⟩ := of_decide_eq_true (Except.ok.inj h)
        refine ⟨0, leads_zero.2 ⟨hnul, hoff, fun d hd => ?_⟩⟩
        obtain rfl := Option.some.inj hd
        exact hsep
    · rintro ⟨k, h⟩
      rw [if_pos (Nat.lt_of_le_of_lt (Nat.le_add_right off k) h.inside)]
      cases k with
      | zero =>
        obtain ⟨hnul, -, hsep⟩ := leads_zero.1 h
        rw [if_neg fun hc => hc.1 hnul, hnul, hsep c rfl]
        rfl
      | succ k =>
        obtain ⟨hb, h⟩ := leads_succ.1 h
        rw [if_pos ⟨hb ▸ c.2, hb.symm⟩]
        exact ih.2 ⟨k, h⟩

/-- **`_match` leaves the block** behind a string that leads up to its end. -/
theorem entryMatch_wild : (∃ e, entryMatch b name off = .error e) ↔
    ∃ k, Stands b name off k ∧ blockSize ≤ off + k := by
  induction name generalizing off with
  | nil =>
    unfold entryMatch
    constructor
    · rintro ⟨e, h⟩
      split_ifs at h with hoff
      · cases h
      · exact ⟨0, stands_zero, show blockSize ≤ off from not_lt.1 hoff⟩
    · rintro ⟨k, h, hk⟩
      obtain rfl : k = 0 := Nat.le_zero.1 h.1
      exact ⟨_, if_neg (not_lt.2 hk)⟩
  | cons c cs ih =>
    unfold entryMatch
    constructor
    · rintro ⟨e, h⟩
      split_ifs at h with hoff hc
      · obtain ⟨k, hk, hle⟩ := ih.1 ⟨e, h⟩
        exact ⟨k + 1, stands_succ.2 ⟨hc.2.symm, hk⟩, by omega⟩
      · cases h
      · exact ⟨0, stands_zero, show blockSize ≤ off from not_lt.1 hoff⟩
    · rintro ⟨k, h, hk⟩
      by_cases hoff : off < blockSize
      swap
      · exact ⟨_, if_neg hoff⟩
      rw [if_pos hoff]
      cases k with
      | zero => exact absurd hoff (not_lt.2 hk)
      | succ k =>
        obtain ⟨hb, h⟩ := stands_succ.1 h
        rw [if_pos ⟨hb ▸ c.2, hb.symm⟩]
        exact ih.2 ⟨k, h, by omega⟩

/-- The first component ends in front of a separator or the end. -/
theorem component_take (hstop : ∀ c, (name.drop k).head? = some c → isSeparator c = true)
    (hsep : ∀ c ∈ name.take k, isSeparator c = false) : component name = (name.take k).map Subtype.val := by
  have htake : name.takeWhile (fun c => !isSeparator c) = name.take k := by
    conv_lhs => rw [← List.take_append_drop k name]
    rw [List.takeWhile_append_of_pos fun c hc => by simp [hsep c hc]]
    cases hdrop : name.drop k with
    | nil => rw [List.takeWhile_nil, List.append_nil]
    | cons d ds => rw [List.takeWhile_cons_of_neg (by simp [hstop d (by rw [hdrop]; rfl)]), List.append_nil]
  rw [component, htake]

theorem component_spec (name : CStr) : ∃ k ≤ name.length, component name = (name.take k).map Subtype.val ∧
    (component name).length = k ∧ ∀ c, (name.drop k).head? = some c → isSeparator c = true := by
  have hprefix := List.takeWhile_prefix (fun c => !isSeparator c) (l := name)
  have htake := List.prefix_iff_eq_take.1 hprefix
  refine ⟨_, hprefix.length_le, congrArg (List.map Subtype.val) htake, List.length_map .., fun c hc => ?_⟩
  have hdrop : name.drop (name.takeWhile fun c => !isSeparator c).length =
      name.dropWhile fun c => !isSeparator c := by
    nth_rewrite 2 [← List.takeWhile_append_dropWhile (p := fun c => !isSeparator c) (l := name)]
    exact List.drop_left
  rw [hdrop] at hc
  have := List.head?_dropWhile_not (fun c => !isSeparator c) name
  rw [hc] at this
  simpa using this

/-- A string that leads up to where the first component ends is a name of at most 14 bytes. -/
theorem Leads.entryName {i : ℕ} (h : Leads b name (16 * i + 2) k) (hk : k ≤ nameLen)
    (hsep : ∀ c ∈ name.take k, isSeparator c = false) : entryName b (16 * i + 2) = component name := by
  have hlen : ((name.take k).map Subtype.val).length = k := by
    rw [List.length_map, List.length_take, min_eq_left h.stands.1]
  rw [component_take h.stop hsep]
  refine bytesFrom_of_spells h.stands.2 (fun x hx => ?_) (by rw [hlen]; exact h.nul) (hlen.trans_le hk)
  obtain ⟨c, -, rfl⟩ := List.mem_map.1 hx
  exact c.2

/-- **The name that is sought.** -/
theorem leads_named (hi : i < blockDentrys) (heq : entryName b (16 * i + 2) = component name) :
    (∃ k, Leads b name (16 * i + 2) k) ↔ ((component name).length = nameLen →
      i + 1 < blockDentrys ∧ b (16 * i + 16) = 0#8 ∨ ∃ k, nameLen < k ∧ Leads b name (16 * i + 2) k) := by
  obtain ⟨n, hn, htake, hlen, hstop⟩ := component_spec name
  have hspells : Spells b (16 * i + 2) ((name.take n).map Subtype.val) := by
    rw [← htake, ← heq]
    exact bytesFrom_spells ..
  have hle : (component name).length ≤ nameLen := heq ▸ bytesFrom_length ..
  have hi' : i < 64 := hi
  constructor
  · rintro ⟨k, h⟩ hfull
    rcases lt_trichotomy k nameLen with hlt | rfl | hgt
    · -- no NUL stands in a name of 14 bytes
      exact absurd h.nul (bytesFrom_byte b nameLen _ (hlt.trans_eq (hfull.symm.trans (congrArg _ heq.symm))))
    · left
      have hin : 16 * i + 2 + 14 < 1024 := h.inside
      exact ⟨show i + 1 < 64 by omega, h.nul⟩
    · exact Or.inr ⟨k, hgt, h⟩
  · intro hfull
    by_cases hlt : (component name).length < nameLen
    · have hlen' : (bytesFrom b nameLen (16 * i + 2)).length = n := (congrArg List.length heq).trans hlen
      have hend := bytesFrom_end b nameLen (16 * i + 2) (by rw [hlen', ← hlen]; exact hlt)
      rw [hlen'] at hend
      refine ⟨n, ⟨hn, hspells⟩, hend, ?_, hstop⟩
      have : n < 14 := hlen ▸ hlt
      show 16 * i + 2 + n < 1024
      omega
    · have h14 : (component name).length = nameLen := le_antisymm hle (not_lt.1 hlt)
      rcases hfull h14 with ⟨hnext, hnul⟩ | ⟨k, -, h⟩
      · obtain rfl : n = nameLen := hlen.symm.trans h14
        have hnext' : i + 1 < 64 := hnext
        exact ⟨nameLen, ⟨hn, hspells⟩, hnul, show 16 * i + 2 + 14 < 1024 by omega, hstop⟩
      · exact ⟨k, h⟩

/-- **`_match` is right about just the entries that can be compared.** -/
theorem right_iff (hi : i < blockDentrys) : Right b name i ↔ (slotNr b i ≠ 0 → Comparable b name i) := by
  refine imp_congr_right fun _ => ?_
  by_cases heq : entryName b (16 * i + 2) = component name
  · rw [decide_eq_true heq, entryMatch_true, leads_named hi heq]
    exact ⟨fun h => ⟨fun _ => h, fun hne => absurd heq hne, fun hne => absurd heq hne⟩, fun h => h.full heq⟩
  · rw [decide_eq_false heq]
    constructor
    · intro h
      refine ⟨fun h' => absurd h' heq, fun _ k hk => ?_, fun _ k hk => ?_⟩
      · have := entryMatch_true.2 ⟨k, hk⟩
        rw [h] at this
        cases this
      · by_contra hin
        obtain ⟨e, he⟩ := entryMatch_wild.2 ⟨k, hk, not_lt.1 hin⟩
        rw [h] at he
        cases he
    · intro h
      cases hm : entryMatch b name (16 * i + 2) with
      | error e =>
        obtain ⟨k, hk, hle⟩ := entryMatch_wild.1 ⟨e, hm⟩
        exact absurd (h.inside heq k hk) (not_lt.2 hle)
      | ok found =>
        cases found with
        | false => rfl
        | true =>
          obtain ⟨k, hk⟩ := entryMatch_true.1 hm
          obtain ⟨hlen, hsep⟩ := h.plain heq k hk
          exact absurd (hk.entryName hlen hsep) heq

end Compared

end Match

/-! ## `find_entry` -/

section Find
variable {s dir} {name : CStr} {z n i : ℕ}

theorem scan_ge {k : ℕ} (h : s.scan z name n i = .ok (some k)) : i ≤ k := by
  induction n generalizing i with
  | zero => cases h
  | succ n ih =>
    obtain ⟨found, -, h⟩ := bind_eq_ok.1 h
    cases found with
    | false => exact Nat.le_of_succ_le (ih h)
    | true =>
      cases h
      exact le_rfl

theorem lookFrom_some {p : ℕ × ℕ} (h : s.lookFrom dir name n i = some p) :
    ∃ j, i ≤ j ∧ s.Hits dir name j ∧ p = (s.entryBlock dir j, j % blockDentrys) := by
  induction n generalizing i with
  | zero => cases h
  | succ n ih =>
    unfold lookFrom at h
    split_ifs at h with hi
    · cases h
      exact ⟨i, le_rfl, hi, rfl⟩
    · obtain ⟨j, hj, hh⟩ := ih h
      exact ⟨j, by omega, hh⟩

/-- The comparison with an entry of the first block. -/
theorem hit_eq (hi : i < blockDentrys) : s.hit z i name =
    if slotNr (s.cache.data z) i = 0 then .ok false else entryMatch (s.cache.data z) name (16 * i + 2) := by
  unfold hit Fs.dentry
  rw [if_pos hi]
  rfl

/-- **The scan of the first block finds the first entry sought** exactly if the entries up to it are
    in that block and `_match` is right about them. -/
theorem scan_iff (hz : ∀ j < blockDentrys, s.entryBlock dir j = z) :
    (∃ r, s.scan z name n i = .ok r ∧ s.lookFrom dir name n i = r.map (z, ·)) ↔
      ∀ j, i ≤ j → j < i + n → (∀ k, i ≤ k → k < j → ¬ s.Hits dir name k) →
        j < blockDentrys ∧ Right (s.cache.data z) name j := by
  induction n generalizing i with
  | zero =>
    refine ⟨fun _ j h1 h2 => by omega, fun _ => ⟨none, rfl, rfl⟩⟩
  | succ n ih =>
    -- what holds for the entries from `i + 1` on
    have hnext (hnot : ¬ s.Hits dir name i) : (∀ j, i + 1 ≤ j → j < i + 1 + n →
        (∀ k, i + 1 ≤ k → k < j → ¬ s.Hits dir name k) →
          j < blockDentrys ∧ Right (s.cache.data z) name j) ↔
        ∀ j, i < j → j < i + (n + 1) → (∀ k, i ≤ k → k < j → ¬ s.Hits dir name k) →
          j < blockDentrys ∧ Right (s.cache.data z) name j := by
      constructor
      · intro h j h1 h2 hk
        exact h j h1 (by omega) fun k hk1 hk2 => hk k (by omega) hk2
      · intro h j h1 h2 hk
        refine h j h1 (by omega) fun k hk1 hk2 => ?_
        rcases Nat.eq_or_lt_of_le hk1 with rfl | hk1
        · exact hnot
        · exact hk k hk1 hk2
    by_cases h64 : i < blockDentrys
    swap
    · -- the entry lies behind the first block
      refine ⟨?_, fun h => absurd (h i le_rfl (by omega) fun k h1 h2 => by omega).1 h64⟩
      rintro ⟨r, hr, -⟩
      rw [scan, hit_behind (not_lt.1 h64)] at hr
      cases hr
    have hits : s.Hits dir name i ↔ Named (s.cache.data z) name i := by
      unfold Hits
      rw [hz i h64, Nat.mod_eq_of_lt h64]
    have hlook : s.lookFrom dir name (n + 1) i =
        if s.Hits dir name i then some (z, i) else s.lookFrom dir name n (i + 1) := by
      rw [lookFrom, hz i h64, Nat.mod_eq_of_lt h64]
    -- an entry that does not match is passed over
    have hpass (hhit : s.hit z i name = .ok false) (hnot : ¬ s.Hits dir name i)
        (hright : Right (s.cache.data z) name i) :
        (∃ r, s.scan z name (n + 1) i = .ok r ∧ s.lookFrom dir name (n + 1) i = r.map (z, ·)) ↔
          ∀ j, i ≤ j → j < i + (n + 1) → (∀ k, i ≤ k → k < j → ¬ s.Hits dir name k) →
            j < blockDentrys ∧ Right (s.cache.data z) name j := by
      have hscan : s.scan z name (n + 1) i = s.scan z name n (i + 1) := by
        rw [scan, hhit]
        rfl
      rw [hscan, hlook, if_neg hnot, ih, hnext hnot]
      constructor
      · intro h j h1 h2 hk
        rcases Nat.eq_or_lt_of_le h1 with rfl | h1
        · exact ⟨h64, hright⟩
        · exact h j h1 h2 hk
      · intro h j h1 h2 hk
        exact h j h1.le h2 hk
    by_cases h0 : slotNr (s.cache.data z) i = 0
    · refine hpass ?_ (fun h => (hits.1 h).1 h0) fun h => absurd h0 h
      rw [hit_eq h64, if_pos h0]
    have hhit : s.hit z i name = entryMatch (s.cache.data z) name (16 * i + 2) := by
      rw [hit_eq h64, if_neg h0]
    by_cases hright : Right (s.cache.data z) name i
    · by_cases heq : entryName (s.cache.data z) (16 * i + 2) = component name
      · -- the entry sought
        have hfound : s.Hits dir name i := hits.2 ⟨h0, heq⟩
        refine ⟨fun _ j h1 _ hk => ?_, fun _ => ⟨some i, ?_, ?_⟩⟩
        · rcases Nat.eq_or_lt_of_le h1 with rfl | h1
          · exact ⟨h64, hright⟩
          · exact absurd hfound (hk i le_rfl h1)
        · rw [scan, hhit, hright h0, decide_eq_true heq]
          rfl
        · rw [hlook, if_pos hfound]
          rfl
      · refine hpass ?_ (fun h => heq (hits.1 h).2) hright
        rw [hhit, hright h0, decide_eq_false heq]
    · -- a wrong answer of `_match`
      refine ⟨?_, fun h => absurd (h i le_rfl (by omega) fun k h1 h2 => by omega).2 hright⟩
      rintro ⟨r, hr, hl⟩
      exfalso
      rw [scan, hhit] at hr
      obtain ⟨m, hm, hr⟩ := bind_eq_ok.1 hr
      by_cases heq : entryName (s.cache.data z) (16 * i + 2) = component name
      · cases m with
        | true => exact hright fun _ => by rw [hm, decide_eq_true heq]
        | false =>
          rw [hlook, if_pos (hits.2 ⟨h0, heq⟩)] at hl
          have hr' : s.scan z name n (i + 1) = .ok r := hr
          cases r with
          | none => cases hl
          | some k =>
            cases hl
            have := scan_ge hr'
            omega
      · cases m with
        | false => exact hright fun _ => by rw [hm, decide_eq_false heq]
        | true =>
          have hnot : ¬ s.Hits dir name i := fun h => heq (hits.1 h).2
          cases hr
          rw [hlook, if_neg hnot] at hl
          obtain ⟨j, -, hj, hp⟩ := lookFrom_some hl
          -- the entry found later would be this one
          obtain ⟨hb, hi⟩ := Prod.mk.inj hp
          refine hnot ?_
          unfold Hits at hj ⊢
          rw [← hb, ← hi] at hj
          rwa [hz i h64, Nat.mod_eq_of_lt h64]

/-- **`find_entry` finds what it should** exactly if the entries up to the one sought are among the first
    64 and `_match` is right about each of them. -/
theorem findEntry_right (hdir : ISDIR (s.field dir .mode))
    (hmap : ∀ k, k * blockDentrys < s.entryCnt dir → s.zoneOf dir k ≠ 0) :
    (∃ t, s.findEntry dir (some name) = .ok (t, s.lookup dir name)) ↔
      ∀ j < s.entryCnt dir, (∀ k < j, ¬ s.Hits dir name k) →
        j < blockDentrys ∧ Right (s.cache.data (s.zoneOf dir 0)) name j := by
  have hz : ∀ j < blockDentrys, s.entryBlock dir j = s.zoneOf dir 0 := by
    intro j hj
    rw [entryBlock, Nat.div_eq_of_lt hj]
  have hiff := @scan_iff s dir name (s.zoneOf dir 0) (s.entryCnt dir) 0 hz
  simp only [Nat.zero_le, Nat.zero_add, true_implies] at hiff
  rw [← hiff]
  by_cases hcnt : s.entryCnt dir = 0
  · -- an empty directory is not read
    have hlook : s.lookup dir name = none := by
      rw [lookup, hcnt]
      rfl
    rw [hlook, hcnt]
    exact ⟨fun _ => ⟨none, rfl, rfl⟩, fun _ => ⟨s, findEntry_eq_ok.2 ⟨hdir, Or.inl ⟨hcnt, rfl, rfl⟩⟩⟩⟩
  · have hpos : 0 < s.entryCnt dir := Nat.pos_of_ne_zero hcnt
    have h0 := hmap 0 (by omega)
    obtain ⟨t, hb, -⟩ := bmap_zoneOf h0
    obtain ⟨hzones, hslot, -, hzone⟩ := bmap_zero.1 hb
    rw [hzone] at h0 ⊢
    constructor
    · rintro ⟨t, h⟩
      obtain ⟨-, ⟨he, -⟩ | ⟨-, -, -, -, -, r, hr, ho⟩⟩ := findEntry_eq_ok.1 h
      · exact absurd he hcnt
      · exact ⟨r, hr, ho⟩
    · rintro ⟨r, hr, ho⟩
      exact ⟨_, findEntry_eq_ok.2 ⟨hdir, Or.inr ⟨hpos, hzones, hslot, h0, rfl, r, hr, ho⟩⟩⟩

/-- **`find_entry` finds the first entry with the name, or nothing if there is none**, exactly if the
    entries up to the one sought are among the first 64, and those in use can be compared. -/
theorem findEntry_iff (hdir : ISDIR (s.field dir .mode))
    (hmap : ∀ k, k * blockDentrys < s.entryCnt dir → s.zoneOf dir k ≠ 0) :
    (∃ t, s.findEntry dir (some name) = .ok (t, s.lookup dir name)) ↔
      ∀ j < s.entryCnt dir, (∀ k < j, ¬ s.Hits dir name k) → j < blockDentrys ∧
        (slotNr (s.cache.data (s.zoneOf dir 0)) j ≠ 0 →
          Comparable (s.cache.data (s.zoneOf dir 0)) name j) := by
  rw [findEntry_right hdir hmap]
  exact forall₂_congr fun j _ => imp_congr_right fun _ => and_congr_right fun hj => right_iff hj

end Find

/-- A directory of `size` bytes in the zones 5 and 6, which hold `first` and `second`; its inode is the
    first of block 4. -/
def dirFs (size : ℕ) (first second : Bytes) : Fs :=
  let data (n : ℕ) : Bytes :=
    if n = 4 then listBytes [0xed, 0x41, 0, 0, size % 256, size / 256, 0, 0, 0, 0, 0, 0, 0, 2, 5, 0, 6, 0]
    else if n = 5 then first
    else if n = 6 then second
    else fun _ => 0#8
  { env :=
      { cache := ⟨data, data, fun _ => false, fun n => if n = 4 then 1 else 0⟩
        alloc := ⟨32, 64, 5, [], []⟩ }
    inode := fun i => if i = 0 then ⟨1, 1, 1, 4, 0⟩ else ⟨EOF, 0, 0, 0, 0⟩
    imapsDisk := []
    zmapsDisk := [] }

theorem chrA_ne : 0x61#8 ≠ 0#8 := by decide

/-- The letter `a`. -/
def chrA : Chr := ⟨0x61#8, chrA_ne⟩

/-- A name of 14 letters and another entry behind it. -/
def fullNameFs : Fs :=
  dirFs 32 (dirBytes [(2, List.replicate 14 0x61), (3, [0x62])]) fun _ => 0#8

/-- 65 entries, of which only the last is in use and called `a`. -/
def longDirFs : Fs := dirFs 1040 (fun _ => 0#8) (dirBytes [(3, [0x61])])

theorem chrB_ne : 0x62#8 ≠ 0#8 := by decide

/-- The letter `b`. -/
def chrB : Chr := ⟨0x62#8, chrB_ne⟩

/-- The entry `b` behind a name of 14 letters is found. -/
theorem findEntry_behind_full : ∃ t, fullNameFs.findEntry 0 (some [chrB]) = .ok (t, some (5, 1)) := by
  have hcnt : fullNameFs.entryCnt 0 = 2 := by decide
  have hlook : fullNameFs.lookup 0 [chrB] = some (5, 1) := by decide +kernel
  have hmap : ∀ k, k * blockDentrys < fullNameFs.entryCnt 0 → fullNameFs.zoneOf 0 k ≠ 0 := by
    intro k hk
    rw [hcnt] at hk
    obtain rfl : k = 0 := by norm_num at hk; omega
    decide
  rw [← hlook]
  refine (findEntry_iff (by decide) hmap).2 fun j hj _ => ?_
  rw [hcnt] at hj
  obtain rfl | rfl : j = 0 ∨ j = 1 := by omega
  · -- no `b` stands where the long name begins
    have hne : fullNameFs.cache.data (fullNameFs.zoneOf 0 0) 2 ≠ chrB.val := by decide +kernel
    have hstands : ∀ k, Stands (fullNameFs.cache.data (fullNameFs.zoneOf 0 0)) [chrB] 2 k → k = 0 := by
      rintro (_ | k) hk
      · rfl
      · exact absurd (stands_succ.1 hk).1 hne
    refine ⟨by decide, fun _ => ⟨fun heq => ?_, fun _ k hk => ?_, fun _ k hk => ?_⟩⟩
    · exact absurd heq (by decide +kernel)
    · obtain rfl := hstands k hk.stands
      exact ⟨Nat.zero_le _, by simp⟩
    · obtain rfl := hstands k hk
      decide
  · have heq : entryName (fullNameFs.cache.data (fullNameFs.zoneOf 0 0)) (16 * 1 + 2) = component [chrB] := by
      decide +kernel
    exact ⟨by decide, fun _ => ⟨fun _ hfull => absurd hfull (by decide), fun h => absurd heq h,
      fun h => absurd heq h⟩⟩

/-- The name of 14 letters is in that directory and not found, and the 65th entry of the other is looked for behind
    the block. -/
theorem findEntry_misses :
    (fullNameFs.lookup 0 (List.replicate 14 chrA) = some (5, 0) ∧
      ∃ t, fullNameFs.findEntry 0 (some (List.replicate 14 chrA)) = .ok (t, none)) ∧
    longDirFs.lookup 0 [chrA] = some (6, 0) ∧
      ¬ ∃ t, longDirFs.findEntry 0 (some [chrA]) = .ok (t, longDirFs.lookup 0 [chrA]) := by
  refine ⟨⟨by decide +kernel, ?_⟩, by decide +kernel, ?_⟩
  · have hrun : (do
        let r ← fullNameFs.findEntry 0 (some (List.replicate 14 chrA))
        cassert (r.2 = none) "found"
        return () : C Unit).isOk = true := by decide +kernel
    obtain ⟨a, hrun⟩ := ok_of_isOk hrun
    obtain ⟨⟨t, o⟩, hf, hrun⟩ := bind_eq_ok.1 hrun
    obtain ⟨rfl, -⟩ := cassert_bind_eq_ok.1 hrun
    exact ⟨t, hf⟩
  · have hrun : (longDirFs.findEntry 0 (some [chrA])).isOk = false := by decide +kernel
    rintro ⟨t, h⟩
    rw [h] at hrun
    cases hrun

end Rdix.Fs
