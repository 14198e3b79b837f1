/-
  The keys of the buffer cache are unique (fs/buffer.c: find_from_hash_table .. getblk).

  * `SameKeys`, `Assigns`: what a step does to the keys and the lists, `BufStep.keys`: it does one
    of the two, and it assigns only to a buffer with `b_count` 0 a key that no buffer has;
  * `Keyed`: the invariant of the lists;
  * `keys_unique`: it holds in every interleaving.
-/
import Rdix.Fs.Buffer

namespace Rdix

open Function Transition

/-! ## The lists -/

/-- The buffer that a call of `device_request` is for. -/
def Cont.buf : Cont → ℕ
  | .victim _ bf => bf
  | .bread bf => bf
  | .brelse bf => bf

/-- The buffer that a task goes on with. -/
def BufPc.buf {T : Type} : BufPc T → Option ℕ
  | .out => none
  | .getblk _ => none
  | .waiter _ bf => some bf
  | .bread bf => some bf
  | .brelse bf => some bf
  | .check k _ => some k.buf
  | .serve k _ => some k.buf
  | .served k _ => some k.buf
  | .back k => some k.buf

namespace Buffers

variable {T D α : Type} {s s' s'' : Buffers T D α} {b c bf : ℕ} {key : Key} {t : T}

/-- Some task has been given the buffer, or has chosen it. -/
def Named (s : Buffers T D α) (b : ℕ) : Prop := ∃ t, (s.pc t).buf = some b ∨ b ∈ s.held t

/-- The lists contain the buffers made so far, each in its place, and no key twice. -/
structure Keyed (s : Buffers T D α) : Prop where
  free_nodup : s.free_list.Nodup
  mem_free : ∀ b, b ∈ s.free_list ↔ b < s.buffer_ptr
  nodup : ∀ i, (s.hash_table i).Nodup
  mem : ∀ i b, b ∈ s.hash_table i ↔ b < s.buffer_ptr ∧ hash (s.buf b).key = i
  unique : ∀ b c, b < s.buffer_ptr → c < s.buffer_ptr → (s.buf b).key = (s.buf c).key → b = c
  named : ∀ b, s.Named b → b < s.buffer_ptr

/-- The keys and the lists stay. -/
structure SameKeys (s s' : Buffers T D α) : Prop where
  free_list : s'.free_list = s.free_list
  hash_table : s'.hash_table = s.hash_table
  buffer_ptr : s'.buffer_ptr = s.buffer_ptr
  key : ∀ b, (s'.buf b).key = (s.buf b).key
  named : ∀ b, s'.Named b → s.Named b ∨ b < s.buffer_ptr

/-- Buffer `b` gets the key, and its place in the lists. -/
structure Assigns (s s' : Buffers T D α) (b : ℕ) (key : Key) : Prop where
  free_list : s'.free_list = s.free_list.erase b ++ [b]
  hash_table : s'.hash_table = fun i =>
    if i = hash key then b :: (s.hash_table i).erase b else (s.hash_table i).erase b
  self : (s'.buf b).key = key
  key : ∀ c ≠ b, (s'.buf c).key = (s.buf c).key
  named : ∀ c, s'.Named c → s.Named c ∨ c < s.buffer_ptr ∨ c = b

theorem SameKeys.refl (s : Buffers T D α) : s.SameKeys s := ⟨rfl, rfl, rfl, fun _ => rfl, fun _ => Or.inl⟩

theorem SameKeys.trans (h : s.SameKeys s') (h' : s'.SameKeys s'') : s.SameKeys s'' :=
  ⟨h'.free_list.trans h.free_list, h'.hash_table.trans h.hash_table,
    h'.buffer_ptr.trans h.buffer_ptr, fun b => (h'.key b).trans (h.key b), fun b hb =>
      (h'.named b hb).elim (h.named b) fun hb => Or.inr (h.buffer_ptr ▸ hb)⟩

theorem SameKeys.keyed (h : s.SameKeys s') (H : s.Keyed) : s'.Keyed := by
  constructor
  · rw [h.free_list]
    exact H.free_nodup
  · intro b
    rw [h.free_list, h.buffer_ptr]
    exact H.mem_free b
  · intro i
    rw [h.hash_table]
    exact H.nodup i
  · intro i b
    rw [h.hash_table, h.buffer_ptr, h.key]
    exact H.mem i b
  · intro b c hb hc he
    rw [h.buffer_ptr] at hb hc
    rw [h.key, h.key] at he
    exact H.unique b c hb hc he
  · intro b hb
    rw [h.buffer_ptr]
    exact (h.named b hb).elim (H.named b) id

theorem findFromHashTable_some (H : s.Keyed) (h : s.findFromHashTable key = some b) :
    b < s.buffer_ptr ∧ (s.buf b).key = key := by
  have hk := List.find?_some h
  have hm := List.mem_of_find?_eq_some h
  exact ⟨((H.mem _ _).1 hm).1, of_decide_eq_true hk⟩

theorem findFromHashTable_none (H : s.Keyed) (h : s.findFromHashTable key = none)
    (hb : b < s.buffer_ptr) : (s.buf b).key ≠ key := by
  intro he
  have hm : b ∈ s.hash_table (hash key) := (H.mem _ _).2 ⟨hb, by rw [he]⟩
  exact absurd (decide_eq_true he) (List.find?_eq_none.1 h b hm)

/-- **A buffer gets a key that no buffer has.** -/
theorem Assigns.keyed (h : s.Assigns s' b key) (H : s.Keyed)
    (hb : b < s.buffer_ptr ∧ s'.buffer_ptr = s.buffer_ptr ∨
      b = s.buffer_ptr ∧ s'.buffer_ptr = s.buffer_ptr + 1)
    (hk : s.findFromHashTable key = none) : s'.Keyed := by
  have hlt : ∀ c, c < s'.buffer_ptr ↔ c = b ∨ c ≠ b ∧ c < s.buffer_ptr := by
    intro c
    omega
  have hmem : ∀ i c, c ∈ (s.hash_table i).erase b ↔
      c ≠ b ∧ c < s.buffer_ptr ∧ hash (s.buf c).key = i := by
    intro i c
    rw [(H.nodup i).mem_erase_iff, H.mem]
  constructor
  · rw [h.free_list, List.nodup_append]
    refine ⟨H.free_nodup.erase b, List.nodup_singleton b, fun c hc d hd => ?_⟩
    rw [List.mem_singleton.1 hd]
    exact (H.free_nodup.mem_erase_iff.1 hc).1
  · intro c
    rw [h.free_list, List.mem_append, List.mem_singleton, H.free_nodup.mem_erase_iff, H.mem_free,
      hlt, or_comm]
  · intro i
    have hnot : b ∉ (s.hash_table i).erase b := fun hn => ((hmem i b).1 hn).1 rfl
    rw [h.hash_table]
    dsimp only
    by_cases hi : i = hash key
    · rw [if_pos hi]
      exact List.nodup_cons.2 ⟨hnot, (H.nodup i).erase b⟩
    · rw [if_neg hi]
      exact (H.nodup i).erase b
  · intro i c
    rw [h.hash_table, hlt]
    dsimp only
    by_cases hcb : c = b
    · subst hcb
      rw [h.self]
      by_cases hi : i = hash key
      · rw [if_pos hi]
        exact iff_of_true (List.mem_cons_self ..) ⟨Or.inl rfl, hi.symm⟩
      · rw [if_neg hi]
        exact iff_of_false (fun hm => ((hmem i c).1 hm).1 rfl) fun hn => hi hn.2.symm
    · rw [h.key c hcb]
      by_cases hi : i = hash key
      · rw [if_pos hi, List.mem_cons, hmem]
        simp only [hcb, false_or, not_false_eq_true, ne_eq, true_and]
      · rw [if_neg hi, hmem]
        simp only [hcb, false_or, not_false_eq_true, ne_eq, true_and]
  · intro c d hc hd he
    rcases (hlt c).1 hc with rfl | ⟨hcb, hc⟩ <;> rcases (hlt d).1 hd with rfl | ⟨hdb, hd⟩
    · rfl
    · rw [h.self, h.key d hdb] at he
      exact absurd he.symm (findFromHashTable_none H hk hd)
    · rw [h.self, h.key c hcb] at he
      exact absurd he (findFromHashTable_none H hk hc)
    · rw [h.key c hcb, h.key d hdb] at he
      exact H.unique c d hc hd he
  · intro c hc
    have hor : c < s.buffer_ptr ∨ c = b := (h.named c hc).elim (fun hc => Or.inl (H.named c hc)) id
    omega

/-! ## What the functions do to the lists -/

theorem sameKeys_setBuf {f : Buffer T α → Buffer T α} (hf : (f (s.buf bf)).key = (s.buf bf).key) :
    s.SameKeys (s.setBuf bf f) := by
  refine ⟨rfl, rfl, rfl, fun b => ?_, fun _ => Or.inl⟩
  show (update s.buf bf (f (s.buf bf)) b).key = _
  by_cases hb : b = bf
  · rw [hb, update_self, hf]
  · rw [update_of_ne hb]

theorem count_setBuf {f : Buffer T α → Buffer T α} (hf : (f (s.buf bf)).b_count = (s.buf bf).b_count)
    (b : ℕ) : ((s.setBuf bf f).buf b).b_count = (s.buf b).b_count := by
  show (update s.buf bf (f (s.buf bf)) b).b_count = _
  by_cases hb : b = bf
  · rw [hb, update_self, hf]
  · rw [update_of_ne hb]

theorem sameKeys_held [DecidableEq T] {l : List ℕ} (hl : ∀ b ∈ l, b ∈ s.held t ∨ b < s.buffer_ptr) :
    s.SameKeys { s with held := update s.held t l } := by
  refine ⟨rfl, rfl, rfl, fun _ => rfl, fun b ⟨u, hu⟩ => ?_⟩
  rcases hu with hu | hu
  · exact Or.inl ⟨u, Or.inl hu⟩
  replace hu : b ∈ update s.held t l u := hu
  by_cases hut : u = t
  · rw [hut, update_self] at hu
    exact (hl b hu).imp (fun hb => ⟨t, Or.inr hb⟩) id
  · rw [update_of_ne hut] at hu
    exact Or.inl ⟨u, Or.inr hu⟩

/-- `bread` returns the buffer. -/
theorem sameKeys_hold [DecidableEq T] (hb : bf < s.buffer_ptr) :
    s.SameKeys { s with held := update s.held t (bf :: s.held t) } := by
  refine sameKeys_held fun b h => ?_
  rcases List.mem_cons.1 h with rfl | h
  · exact Or.inr hb
  · exact Or.inl h

theorem assigns_findNew (s : Buffers T D α) (bf : ℕ) (key : Key) :
    s.Assigns (s.findNew bf key) bf key := by
  constructor
  · rfl
  · ext1 i
    simp only [findNew, bufferInsert, bufferRemove, setBuf, update_self, Buffer.key]
    by_cases hi : i = hash key
    · rw [if_pos hi, hi, update_self]
    · rw [if_neg hi, update_of_ne hi]
  · simp only [findNew, bufferInsert, bufferRemove, setBuf, update_self, Buffer.key]
  · intro c hc
    simp only [findNew, bufferInsert, bufferRemove, setBuf, update_of_ne hc]
  · exact fun _ => Or.inl

/-- The loop of `getblk` chooses a buffer that nobody uses. -/
theorem scan_spec {buf : ℕ → Buffer T α} {l : List ℕ} {acc : Option ℕ} {r : Bool}
    (h : scan buf l acc = (some b, r)) (ha : ∀ c, acc = some c → (buf c).b_count = 0) :
    (buf b).b_count = 0 ∧ (b ∈ l ∨ acc = some b) := by
  induction l generalizing acc with
  | nil =>
    cases h
    exact ⟨ha b rfl, Or.inr rfl⟩
  | cons tmp rest ih =>
    have hrest : ∀ {acc' : Option ℕ}, scan buf rest acc' = (some b, r) →
        (∀ c, acc' = some c → (buf c).b_count = 0) → (acc' = some b → b = tmp ∨ acc = some b) →
        (buf b).b_count = 0 ∧ (b ∈ tmp :: rest ∨ acc = some b) := by
      intro acc' hs hc hor
      obtain ⟨h0, hm | hm⟩ := ih hs hc
      · exact ⟨h0, Or.inl (List.mem_cons_of_mem _ hm)⟩
      · rcases hor hm with rfl | hb
        · exact ⟨h0, Or.inl (List.mem_cons_self ..)⟩
        · exact ⟨h0, Or.inr hb⟩
    unfold scan at h
    by_cases hcnt : (buf tmp).b_count ≠ 0
    · rw [if_pos hcnt] at h
      exact hrest h ha Or.inr
    rw [if_neg hcnt] at h
    by_cases hw : (buf tmp).waiter.isSome = true
    · rw [if_pos hw] at h
      exact hrest h ha Or.inr
    rw [if_neg hw] at h
    have htmp : (buf tmp).b_count = 0 := not_not.1 hcnt
    have hacc : (buf (acc.getD tmp)).b_count = 0 ∧ (acc.getD tmp = tmp ∨ acc = some (acc.getD tmp)) := by
      cases hac : acc with
      | none => exact ⟨htmp, Or.inl rfl⟩
      | some c => exact ⟨ha c hac, Or.inr rfl⟩
    dsimp only at h
    by_cases h0 : score (buf (acc.getD tmp)) = 0
    · rw [if_pos h0] at h
      cases h
      refine ⟨hacc.1, hacc.2.imp (fun he => ?_) id⟩
      rw [he]
      exact List.mem_cons_self ..
    rw [if_neg h0] at h
    by_cases hlt : score (buf tmp) < score (buf (acc.getD tmp))
    · rw [if_pos hlt] at h
      refine hrest h (fun c hc => ?_) fun he => Or.inl (Option.some.inj he).symm
      rw [← Option.some.inj hc]
      exact htmp
    · rw [if_neg hlt] at h
      refine hrest h (fun c hc => ?_) fun he => ?_
      · rw [← Option.some.inj hc]
        exact hacc.1
      · rw [← Option.some.inj he]
        exact hacc.2

/-! ## What a step does to the keys -/

/-- Either the keys stay, or a buffer that nobody uses, or a new one, gets a key that no buffer has. -/
def Keeps (s s' : Buffers T D α) : Prop :=
  s.SameKeys s' ∨ ∃ b key, s.findFromHashTable key = none ∧ s.Assigns s' b key ∧
    (b < s.buffer_ptr ∧ (s.buf b).b_count = 0 ∧ s'.buffer_ptr = s.buffer_ptr ∨
      b = s.buffer_ptr ∧ s'.buffer_ptr = s.buffer_ptr + 1)

theorem Keeps.keyed (h : s.Keeps s') (H : s.Keyed) : s'.Keyed := by
  rcases h with h | ⟨b, key, hk, ha, hb⟩
  · exact h.keyed H
  · exact ha.keyed H (hb.imp (fun h => ⟨h.1, h.2.2⟩) id) hk

theorem Keeps.le (h : s.Keeps s') : s.buffer_ptr ≤ s'.buffer_ptr := by
  rcases h with h | ⟨b, key, -, -, ⟨-, -, h⟩ | ⟨-, h⟩⟩
  · exact h.buffer_ptr.ge
  · exact h.ge
  · exact h ▸ Nat.le_succ _

/-- A buffer in use keeps its key. -/
theorem Keeps.key_eq (h : s.Keeps s') (hb : b < s.buffer_ptr) (hc : (s.buf b).b_count ≠ 0) :
    (s'.buf b).key = (s.buf b).key := by
  rcases h with h | ⟨c, key, -, ha, ⟨-, h0, -⟩ | ⟨rfl, -⟩⟩
  · exact h.key b
  · exact ha.key b fun he => hc (he ▸ h0)
  · exact ha.key b hb.ne

theorem SameKeys.find (h : s.SameKeys s') (key : Key) :
    s'.findFromHashTable key = s.findFromHashTable key := by
  unfold findFromHashTable
  rw [h.hash_table]
  congr 1
  ext1 b
  rw [h.key]

/-- What comes before the change of a key is no such change. -/
theorem SameKeys.keeps (h : s.SameKeys s') (hc : ∀ b, (s'.buf b).b_count = (s.buf b).b_count)
    (h' : s'.Keeps s'') : s.Keeps s'' := by
  rcases h' with h' | ⟨b, key, hk, ha, hb⟩
  · exact Or.inl (h.trans h')
  refine Or.inr ⟨b, key, ?_, ?_, ?_⟩
  · rw [← h.find, hk]
  · constructor
    · rw [ha.free_list, h.free_list]
    · rw [ha.hash_table, h.hash_table]
    · exact ha.self
    · intro c hcb
      rw [ha.key c hcb, h.key]
    · intro c hc
      rw [← h.buffer_ptr]
      exact (ha.named c hc).elim (fun hc => (h.named c hc).imp id fun hc => Or.inl (h.buffer_ptr ▸ hc)) Or.inr
  · rw [← h.buffer_ptr, ← hc]
    exact hb

theorem named_goto [DecidableEq T] {pc : BufPc T} (h : (s.goto t pc).Named b) :
    s.Named b ∨ pc.buf = some b := by
  obtain ⟨u, h | h⟩ := h
  · replace h : (update s.pc t pc u).buf = some b := h
    by_cases hu : u = t
    · rw [hu, update_self] at h
      exact Or.inr h
    · rw [update_of_ne hu] at h
      exact Or.inl ⟨u, Or.inl h⟩
  · exact Or.inl ⟨u, Or.inr h⟩

theorem SameKeys.goto [DecidableEq T] {pc : BufPc T} (h : s.SameKeys s')
    (hpc : ∀ b, pc.buf = some b → b < s'.buffer_ptr) : s.SameKeys (s'.goto t pc) :=
  h.trans ⟨rfl, rfl, rfl, fun _ => rfl, fun b hb => (named_goto hb).imp id (hpc b)⟩

/-- The task goes on with the buffer that has got its key. -/
theorem Keeps.goto [DecidableEq T] {pc : BufPc T} (h : s.Keeps s')
    (hpc : ∀ b, pc.buf = some b → b < s'.buffer_ptr) : s.Keeps (s'.goto t pc) := by
  rcases h with h | ⟨b, key, hk, ha, hb⟩
  · exact Or.inl (h.goto hpc)
  refine Or.inr ⟨b, key, hk, ⟨ha.free_list, ha.hash_table, ha.self, ha.key, fun c hc => ?_⟩, hb⟩
  rcases named_goto hc with hc | hc
  · exact ha.named c hc
  · have := hpc c hc
    omega

/-- A buffer in use is no candidate for another key. -/
theorem keeps_findNew (hk : s.findFromHashTable key = none) (hb : bf < s.buffer_ptr)
    (hc : (s.buf bf).b_count = 0) : s.Keeps (s.findNew bf key) :=
  Or.inr ⟨bf, key, hk, assigns_findNew s bf key, Or.inl ⟨hb, hc, rfl⟩⟩

theorem keeps_getNewBuffer {p : Buffers T D α × ℕ} (hk : s.findFromHashTable key = none)
    (h : s.getNewBuffer = some p) :
    p.2 = s.buffer_ptr ∧ s.Keeps (p.1.findNew p.2 key) ∧
      (p.1.findNew p.2 key).buffer_ptr = s.buffer_ptr + 1 := by
  unfold getNewBuffer at h
  by_cases hr : Room s.buffer_ptr
  · rw [if_pos hr] at h
    cases h
    have ha := assigns_findNew { s with
      buf := update s.buf s.buffer_ptr
        { b_data := (s.buf s.buffer_ptr).b_data, b_dev := BitVec.ofInt 32 EOF, b_blknr := 0
          b_count := 0, b_dirty := false, b_lock := ⟨true, []⟩, b_vaild := false, waiter := none }
      buffer_ptr := s.buffer_ptr + 1 } s.buffer_ptr key
    refine ⟨rfl, Or.inr ⟨_, key, hk, ?_, Or.inr ⟨rfl, rfl⟩⟩, rfl⟩
    refine ⟨ha.free_list, ha.hash_table, ha.self, fun c hc => ?_, fun _ => Or.inl⟩
    rw [ha.key c hc]
    dsimp only
    rw [update_of_ne hc]
  · rw [if_neg hr] at h
    cases h

variable [DecidableEq T] {pc : BufPc T} {k : Cont} {type : ReqType} {req : Request T (ℕ × Key)}

theorem sameKeys_block : s.SameKeys (s.block t) := ⟨rfl, rfl, rfl, fun _ => rfl, fun _ => Or.inl⟩

theorem sameKeys_unblock : s.SameKeys (s.unblock t) :=
  ⟨rfl, rfl, rfl, fun _ => rfl, fun _ => Or.inl⟩

theorem sameKeys_bufferLock : s.SameKeys (s.bufferLock t bf) := by
  unfold bufferLock
  dsimp only
  split_ifs
  · exact sameKeys_setBuf rfl
  · exact (sameKeys_setBuf rfl).trans sameKeys_block

theorem sameKeys_mutexUnlock : s.SameKeys (s.mutexUnlock bf) := by
  unfold mutexUnlock
  dsimp only
  cases (s.buf bf).b_lock.waiter.getLast? with
  | none => exact sameKeys_setBuf rfl
  | some w => exact (sameKeys_setBuf rfl).trans sameKeys_unblock

theorem sameKeys_bufferUnlock : s.SameKeys (s.bufferUnlock bf) := by
  unfold bufferUnlock
  cases (s.buf bf).waiter with
  | none => exact sameKeys_mutexUnlock
  | some w => exact sameKeys_mutexUnlock.trans sameKeys_unblock

theorem sameKeys_wakeup : s.SameKeys (s.wakeup t) := by
  unfold wakeup
  split
  · exact (SameKeys.refl s).goto fun b h => nomatch h
  · exact SameKeys.goto ⟨rfl, rfl, rfl, fun _ => rfl, fun _ => Or.inl⟩ fun b h => nomatch h

theorem sameKeys_doRequest (hk : k.buf < s.buffer_ptr) : s.SameKeys (s.doRequest t k req) := by
  have hgo : ∀ b, (BufPc.served k req).buf = some b → b < s.buffer_ptr := by
    intro b hb
    cases hb
    exact hk
  unfold doRequest
  cases req.type with
  | read => exact (sameKeys_setBuf rfl).goto hgo
  | write => exact SameKeys.goto ⟨rfl, rfl, rfl, fun _ => rfl, fun _ => Or.inl⟩ hgo

/-! ## `getblk`, `bread` and `brelse` -/

theorem keeps_getblkFind (hb : bf < s.buffer_ptr) (hc : (s.buf bf).b_count = 0) :
    s.Keeps (s.getblkFind t key bf) := by
  unfold getblkFind
  cases hf : s.findFromHashTable key with
  | some _ => exact Or.inl ((SameKeys.refl s).goto fun b h => nomatch h)
  | none =>
    refine (keeps_findNew hf hb hc).goto fun b h => ?_
    cases h
    exact hb

theorem keeps_goBack (hk : k.buf < s.buffer_ptr) : s.Keeps (s.goBack t k) := by
  cases k with
  | victim key bf =>
    have hs : s.SameKeys (s.setBuf bf fun b => { b with b_dirty := false }) := sameKeys_setBuf rfl
    unfold goBack
    dsimp only
    by_cases hc : ((s.setBuf bf fun b => { b with b_dirty := false }).buf bf).b_count ≠ 0
    · rw [if_pos hc]
      exact Or.inl (hs.goto fun b hb' => nomatch hb')
    · rw [if_neg hc]
      exact hs.keeps (count_setBuf rfl) (keeps_getblkFind hk (not_not.1 hc))
  | bread bf =>
    refine Or.inl (SameKeys.goto ?_ fun b hb' => nomatch hb')
    exact (sameKeys_setBuf rfl).trans (sameKeys_hold hk)
  | brelse bf => exact Or.inl ((sameKeys_setBuf rfl).trans sameKeys_wakeup)

variable [DecidableEq D] {disks : Disks D}

theorem sameKeys_checkRequest (hk : k.buf < s.buffer_ptr) :
    s.SameKeys (s.checkRequest disks t k req) := by
  unfold checkRequest
  dsimp only
  split_ifs
  · exact sameKeys_block
  · refine SameKeys.trans ?_ sameKeys_bufferLock
    refine SameKeys.goto ⟨rfl, rfl, rfl, fun _ => rfl, fun _ => Or.inl⟩ fun b hb => ?_
    cases hb
    exact hk

theorem sameKeys_deviceRequest (hk : k.buf < s.buffer_ptr)
    (h : s.deviceRequest disks t bf type k = .ok s') : s.SameKeys s' := by
  obtain ⟨req, -, -, -, rfl⟩ := deviceRequest_eq_ok h
  have hs : s.SameKeys (s.listRequest disks t k req) := by
    refine SameKeys.goto ⟨rfl, rfl, rfl, fun _ => rfl, fun _ => Or.inl⟩ fun b hb => ?_
    cases hb
    exact hk
  exact hs.trans (sameKeys_checkRequest hk)

theorem sameKeys_finishRequest (hk : k.buf < s.buffer_ptr)
    (h : s.finishRequest disks t k req = .ok s') : s.SameKeys s' := by
  obtain ⟨⟨dev, next⟩, -, h⟩ := bind_eq_ok.1 h
  have hu : s.SameKeys (s.bufferUnlock req.buf.1) := sameKeys_bufferUnlock
  have hs : s.SameKeys ({ s.bufferUnlock req.buf.1 with
      dev := update (s.bufferUnlock req.buf.1).dev (disks.parent req.buf.2.1) dev }.goto t (.back k)) := by
    refine hu.trans (SameKeys.goto ⟨rfl, rfl, rfl, fun _ => rfl, fun _ => Or.inl⟩ fun b hb => ?_)
    cases hb
    show k.buf < (s.bufferUnlock req.buf.1).buffer_ptr
    rw [hu.buffer_ptr]
    exact hk
  cases next with
  | none =>
    cases h
    exact hs
  | some next =>
    cases h
    exact hs.trans sameKeys_unblock

theorem keeps_getblkWrite (hb : bf < s.buffer_ptr) (hc : (s.buf bf).b_count = 0)
    (h : s.getblkWrite disks t key bf = .ok s') : s.Keeps s' := by
  unfold getblkWrite at h
  by_cases hd : (s.buf bf).b_dirty = true
  · rw [if_pos hd] at h
    exact Or.inl (sameKeys_deviceRequest (k := .victim key bf) hb h)
  · rw [if_neg hd] at h
    cases h
    exact keeps_getblkFind hb hc

theorem keeps_getblk (H : s.Keyed) (h : s.getblk disks t key = .ok s') : s.Keeps s' := by
  unfold getblk at h
  cases hf : s.findFromHashTable key with
  | some bf =>
    rw [hf] at h
    cases h
    refine Or.inl ((sameKeys_setBuf rfl).goto fun b hb => ?_)
    cases hb
    exact (findFromHashTable_some H hf).1
  | none =>
  rw [hf] at h
  cases hn : s.getNewBuffer with
  | some p =>
    obtain ⟨n, bf⟩ := p
    rw [hn] at h
    cases h
    obtain ⟨hbf, hk, hp⟩ := keeps_getNewBuffer hf hn
    refine hk.goto fun b hb => ?_
    cases hb
    exact hbf.trans_lt (hp ▸ Nat.lt_succ_self _)
  | none =>
  rw [hn] at h
  have hfree : ∀ bf r, scan s.buf s.free_list none = (some bf, r) →
      bf < s.buffer_ptr ∧ (s.buf bf).b_count = 0 := by
    intro bf r hs
    obtain ⟨hc, hm⟩ := scan_spec hs fun c h => nomatch h
    exact ⟨(H.mem_free bf).1 (hm.resolve_right fun h => nomatch h), hc⟩
  cases hs : scan s.buf s.free_list none with
  | mk o r =>
  rw [hs] at h
  cases o with
  | none =>
    cases h
    refine Or.inl (SameKeys.trans ?_ sameKeys_block)
    exact SameKeys.goto ⟨rfl, rfl, rfl, fun _ => rfl, fun _ => Or.inl⟩ fun b hb => nomatch hb
  | some bf =>
  obtain ⟨hb, hc⟩ := hfree bf r hs
  cases r with
  | true =>
    cases h
    refine (keeps_findNew hf hb hc).goto fun b hb' => ?_
    cases hb'
    exact hb
  | false =>
  dsimp only at h
  by_cases hl : (s.buf bf).b_lock.value = true
  · rw [if_pos hl] at h
    exact keeps_getblkWrite hb hc h
  · rw [if_neg hl] at h
    obtain ⟨-, h⟩ := cassert_bind_eq_ok.1 h
    cases h
    refine Or.inl (((sameKeys_setBuf rfl).goto fun b hb' => ?_).trans sameKeys_block)
    cases hb'
    exact hb

theorem keeps_getblkWaiter (hb : bf < s.buffer_ptr) (h : s.getblkWaiter disks t key bf = .ok s') :
    s.Keeps s' := by
  have hs : s.SameKeys (s.setBuf bf fun b => { b with waiter := none }) := sameKeys_setBuf rfl
  unfold getblkWaiter at h
  dsimp only at h
  by_cases hc : ((s.setBuf bf fun b => { b with waiter := none }).buf bf).b_count ≠ 0
  · rw [if_pos hc] at h
    cases h
    exact Or.inl (hs.goto fun b hb' => nomatch hb')
  · rw [if_neg hc] at h
    exact hs.keeps (count_setBuf rfl) (keeps_getblkWrite hb (not_not.1 hc) h)

theorem sameKeys_breadValid (hb : bf < s.buffer_ptr) (h : s.breadValid disks t bf = .ok s') :
    s.SameKeys s' := by
  unfold breadValid at h
  by_cases hv : (s.buf bf).b_vaild = true
  · rw [if_pos hv] at h
    cases h
    exact (sameKeys_hold hb).goto fun b hb' => nomatch hb'
  · rw [if_neg hv] at h
    exact sameKeys_deviceRequest (k := .bread bf) hb h

theorem sameKeys_brelseRest (hb : bf < s.buffer_ptr) (h : s.brelseRest disks t bf = .ok s') :
    s.SameKeys s' := by
  unfold brelseRest at h
  by_cases hc : (s.buf bf).b_count ≠ 0
  · rw [if_pos hc] at h
    cases h
    exact (SameKeys.refl s).goto fun b hb' => nomatch hb'
  rw [if_neg hc] at h
  by_cases hd : (s.buf bf).b_dirty = true
  · rw [if_pos hd] at h
    exact sameKeys_deviceRequest (k := .brelse bf) hb h
  · rw [if_neg hd] at h
    cases h
    exact sameKeys_wakeup

end Buffers

open Buffers

variable {T D α : Type} {s s' : Buffers T D α} {a : BufAct T α}

theorem Buffers.Keyed.count_hash (H : s.Keyed) {b : ℕ} (hb : b < s.buffer_ptr) (i : ℕ) :
    (s.hash_table i).count b = if i = hash (s.buf b).key then 1 else 0 := by
  by_cases hi : i = hash (s.buf b).key
  · rw [if_pos hi]
    exact List.count_eq_one_of_mem (H.nodup i) ((H.mem i b).2 ⟨hb, hi.symm⟩)
  · rw [if_neg hi]
    exact List.count_eq_zero.2 fun hm => hi ((H.mem i b).1 hm).2.symm

variable [DecidableEq T] [DecidableEq D] {disks : Disks D}

/-- **What a step does to the keys.** -/
theorem BufStep.keeps (H : s.Keyed) (h : BufStep disks s a s') : s.Keeps s' := by
  cases h with
  | bread _ => exact Or.inl ((SameKeys.refl s).goto fun b hb => nomatch hb)
  | modify _ _ => exact Or.inl (sameKeys_setBuf rfl)
  | @brelse t bf _ hbf =>
    have hs : s.SameKeys (s.setBuf bf fun b => { b with b_count := b.b_count - 1 }) := sameKeys_setBuf rfl
    refine Or.inl ((hs.trans (sameKeys_held fun b hb => Or.inl (List.mem_of_mem_erase hb))).goto fun b hb => ?_)
    cases hb
    exact hbf
  | getblk _ _ h => exact keeps_getblk H h
  | waiter hpc _ h => exact keeps_getblkWaiter (H.named _ ⟨_, Or.inl (by rw [hpc]; rfl)⟩) h
  | breadValid hpc h => exact Or.inl (sameKeys_breadValid (H.named _ ⟨_, Or.inl (by rw [hpc]; rfl)⟩) h)
  | brelseRest hpc h => exact Or.inl (sameKeys_brelseRest (H.named _ ⟨_, Or.inl (by rw [hpc]; rfl)⟩) h)
  | check hpc _ => exact Or.inl (sameKeys_checkRequest (H.named _ ⟨_, Or.inl (by rw [hpc]; rfl)⟩))
  | serve hpc _ => exact Or.inl (sameKeys_doRequest (H.named _ ⟨_, Or.inl (by rw [hpc]; rfl)⟩))
  | finish hpc h => exact Or.inl (sameKeys_finishRequest (H.named _ ⟨_, Or.inl (by rw [hpc]; rfl)⟩) h)
  | back hpc => exact keeps_goBack (H.named _ ⟨_, Or.inl (by rw [hpc]; rfl)⟩)

theorem keyed_reach (h : (bufSys T D α disks).Reach s) : s.Keyed := by
  refine h.invariant (fun s hs => ?_) fun s a s' H hstep => (hstep.keeps H).keyed H
  obtain ⟨hptr, hfree, hhash, -, -, hpc, -, hheld⟩ := hs
  constructor
  · rw [hfree]
    exact List.nodup_nil
  · intro b
    rw [hfree, hptr]
    simp only [List.not_mem_nil, Nat.not_lt_zero]
  · intro i
    rw [hhash]
    exact List.nodup_nil
  · intro i b
    rw [hhash, hptr]
    simp only [List.not_mem_nil, Nat.not_lt_zero, false_and]
  · intro b c hb
    rw [hptr] at hb
    exact absurd hb (Nat.not_lt_zero b)
  · rintro b ⟨t, h | h⟩
    · rw [hpc] at h
      cases h
    · rw [hheld] at h
      cases h

/-- **Cache keys are unique**, in every interleaving: no two buffers on the chains have the same key;
    every buffer that has been handed out is once on the chain of its key, on no other chain, and once
    on `free_list`; and no step gives a buffer in use another key. -/
theorem keys_unique (h : (bufSys T D α disks).Reach s) :
    (∀ i j b c, b ∈ s.hash_table i → c ∈ s.hash_table j → (s.buf b).key = (s.buf c).key → b = c) ∧
    (∀ b, s.Named b → b < s.buffer_ptr) ∧
    (∀ b < s.buffer_ptr, (∀ i, (s.hash_table i).count b = if i = hash (s.buf b).key then 1 else 0) ∧
      s.free_list.count b = 1) ∧
    ∀ a s', BufStep disks s a s' → ∀ b < s.buffer_ptr, (s.buf b).b_count ≠ 0 →
      (s'.buf b).key = (s.buf b).key := by
  have H := keyed_reach h
  refine ⟨fun i j b c hb hc => ?_, H.named, fun b hb => ⟨H.count_hash hb, ?_⟩, fun a s' hs b hb hc => ?_⟩
  · exact H.unique b c ((H.mem i b).1 hb).1 ((H.mem j c).1 hc).1
  · exact List.count_eq_one_of_mem H.free_nodup ((H.mem_free b).2 hb)
  · exact (hs.keeps H).key_eq hb hc

/-- A cache without buffers, two tasks and one disk. -/
def emptyCache : Buffers (Fin 2) Unit ℕ where
  buf _ := ⟨0, 0, 0, false, ⟨true, []⟩, 0, false, none⟩
  buffer_ptr := 0
  free_list := []
  hash_table _ := []
  wait_list := []
  disk _ := 0
  dev _ := ⟨false, .fore, []⟩
  pc _ := .out
  ready _ := true
  held _ := []

/-- A task gets a new buffer. -/
theorem keys_unique_new : ∃ s : Buffers (Fin 2) Unit ℕ, (s.buf 0).b_count ≠ 0 ∧
    (∀ i, (s.hash_table i).count 0 = if i = hash (s.buf 0).key then 1 else 0) ∧
    s.free_list.count 0 = 1 := by
  let S := bufSys (Fin 2) Unit ℕ ⟨fun _ => (), fun _ => true, fun _ => 0⟩
  have h₀ : S.Reach emptyCache :=
    .init ⟨rfl, rfl, fun _ => rfl, rfl, fun _ => rfl, fun _ => rfl, fun _ => rfl, fun _ => rfl⟩
  have h₁ : S.Reach (emptyCache.goto 0 (.getblk (5, 7))) := h₀.step (.bread rfl)
  have h₂ := h₁.step (.getblk (t := 0) rfl rfl rfl)
  obtain ⟨-, -, hb, -⟩ := keys_unique h₂
  exact ⟨_, by decide, hb 0 Nat.zero_lt_one⟩

end Rdix
