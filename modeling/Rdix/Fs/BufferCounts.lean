/-
  The reference counts of the buffer cache (fs/buffer.c: get_from_hash_table, getblk, bread, brelse).

  `b_count` is a `u8`, and its guard in `brelse` is true of every `u8`.

  * `Change`, `BufStep.change`: what a step does to the counts and to the references of its task;
  * `counts_exact`: in every interleaving in which no buffer is referenced a 256th time, `b_count` is
    the number of references, and a referenced buffer is never taken for another block;
  * `count_wraps`: the 256th reference makes the count 0.
-/
import Rdix.Fs.BufferKeys

namespace Rdix

open Function Transition

/-! ## References -/

/-- The buffer that a `bread` has got from `getblk` and has not returned yet. -/
def Cont.reading : Cont → Option ℕ
  | .victim _ _ => none
  | .bread bf => some bf
  | .brelse _ => none

def BufPc.reading {T : Type} : BufPc T → Option ℕ
  | .out => none
  | .getblk _ => none
  | .waiter _ _ => none
  | .bread bf => some bf
  | .brelse _ => none
  | .check k _ => k.reading
  | .serve k _ => k.reading
  | .served k _ => k.reading
  | .back k => k.reading

theorem BufPc.buf_of_reading {T : Type} {pc : BufPc T} {b : ℕ} (h : pc.reading = some b) :
    pc.buf = some b := by
  cases pc with
  | bread bf => exact h
  | check k _ | serve k _ | served k _ | back k =>
    cases k with
    | bread bf => exact h
    | victim _ _ | brelse _ => cases h
  | out | getblk _ | waiter _ _ | brelse _ => cases h

/-- The task that takes a step. -/
def BufAct.task {T α : Type} : BufAct T α → T
  | .bread t _ => t
  | .modify t _ _ => t
  | .brelse t _ => t
  | .run t => t

namespace Buffers

variable {T D α : Type} {s s' s'' : Buffers T D α} {b c bf n : ℕ} {key : Key} {t : T} {pc : BufPc T}

/-- The references of one task: those that `bread` has returned, and that of a `bread` under way. -/
def taskRefs (s : Buffers T D α) (t : T) (b : ℕ) : ℕ :=
  (s.held t).count b + if (s.pc t).reading = some b then 1 else 0

/-- The references that have been obtained and not released. -/
def refs [Fintype T] (s : Buffers T D α) (b : ℕ) : ℕ := ∑ t, s.taskRefs t b

/-- `b_count` is the number of references. -/
def Counted [Fintype T] (s : Buffers T D α) : Prop :=
  ∀ b < s.buffer_ptr, (s.buf b).b_count.toNat = s.refs b

/-! ## What the functions do to the counts -/

/-- Nothing that has to do with references changes. -/
structure Quiet (s s' : Buffers T D α) : Prop where
  count : ∀ b, (s'.buf b).b_count = (s.buf b).b_count
  ptr : s'.buffer_ptr = s.buffer_ptr
  pc : s'.pc = s.pc
  held : s'.held = s.held

theorem Quiet.refl (s : Buffers T D α) : s.Quiet s := ⟨fun _ => rfl, rfl, rfl, rfl⟩

theorem Quiet.trans (h : s.Quiet s') (h' : s'.Quiet s'') : s.Quiet s'' :=
  ⟨fun b => (h'.count b).trans (h.count b), h'.ptr.trans h.ptr, h'.pc.trans h.pc,
    h'.held.trans h.held⟩

theorem quiet_setBuf {f : Buffer T α → Buffer T α} (hf : (f (s.buf bf)).b_count = (s.buf bf).b_count) :
    s.Quiet (s.setBuf bf f) := ⟨count_setBuf hf, rfl, rfl, rfl⟩

theorem quiet_dev (dev : D → Device T (ℕ × Key)) : s.Quiet { s with dev := dev } :=
  ⟨fun _ => rfl, rfl, rfl, rfl⟩

theorem refs_congr [Fintype T] (hpc : s'.pc = s.pc) (hheld : s'.held = s.held) (b : ℕ) :
    s'.refs b = s.refs b := by
  unfold refs taskRefs
  rw [hpc, hheld]

/-- A buffer that does not exist yet has no references. -/
theorem Keyed.refs_eq_zero [Fintype T] (H : s.Keyed) (hb : s.buffer_ptr ≤ b) : s.refs b = 0 := by
  refine Finset.sum_eq_zero fun t _ => ?_
  have hn : ¬ s.Named b := fun h => absurd (H.named b h) (Nat.not_lt.2 hb)
  have hheld : b ∉ s.held t := fun h => hn ⟨t, Or.inr h⟩
  have hread : (s.pc t).reading ≠ some b := fun h => hn ⟨t, Or.inl (BufPc.buf_of_reading h)⟩
  rw [taskRefs, List.count_eq_zero.2 hheld, if_neg hread, Nat.add_zero]

variable [DecidableEq T]

/-- Task `t` goes on at `pc`, and nothing else changes. -/
structure Goes (s s' : Buffers T D α) (t : T) (pc : BufPc T) : Prop where
  count : ∀ b, (s'.buf b).b_count = (s.buf b).b_count
  ptr : s'.buffer_ptr = s.buffer_ptr
  pc : s'.pc = update s.pc t pc
  held : s'.held = s.held

/-- Task `t` gets the buffer `b`, whose count is now `n`. -/
structure Gets (s s' : Buffers T D α) (t : T) (b : ℕ) (n : BitVec 8) : Prop where
  self : (s'.buf b).b_count = n
  count : ∀ c ≠ b, (s'.buf c).b_count = (s.buf c).b_count
  pc : s'.pc = update s.pc t (.bread b)
  held : s'.held = s.held

/-- What a step of task `t` can do to the references. -/
inductive Change (s s' : Buffers T D α) (t : T) : Prop where
  | quiet : s.Quiet s' → Change s s' t
  | goes (pc : BufPc T) : s.Goes s' t pc → pc.reading = (s.pc t).reading → Change s s' t
  /-- `get_from_hash_table` has found the block -/
  | hit (b : ℕ) (key : Key) : s.pc t = .getblk key → s.findFromHashTable key = some b →
      s'.buffer_ptr = s.buffer_ptr → s.Gets s' t b ((s.buf b).b_count + 1) → Change s s' t
  /-- a buffer without references, or a new one, is taken for another block -/
  | take (b : ℕ) : (s.pc t).reading = none →
      (b < s.buffer_ptr ∧ (s.buf b).b_count = 0 ∧ s'.buffer_ptr = s.buffer_ptr ∨
        b = s.buffer_ptr ∧ s'.buffer_ptr = s.buffer_ptr + 1) →
      s.Gets s' t b 1 → Change s s' t
  /-- `bread` returns -/
  | hold (b : ℕ) : (s.pc t).reading = some b → (∀ c, (s'.buf c).b_count = (s.buf c).b_count) →
      s'.buffer_ptr = s.buffer_ptr → s'.pc = update s.pc t .out →
      s'.held = update s.held t (b :: s.held t) → Change s s' t
  /-- `--bf->b_count` for a reference that the task holds -/
  | put (b : ℕ) : b ∈ s.held t → (s.pc t).reading = none → (s'.buf b).b_count = (s.buf b).b_count - 1 →
      (∀ c ≠ b, (s'.buf c).b_count = (s.buf c).b_count) → s'.buffer_ptr = s.buffer_ptr →
      s'.pc = update s.pc t (.brelse b) → s'.held = update s.held t ((s.held t).erase b) →
      Change s s' t

/-! ## Sums over the tasks -/

section Sums
variable [Fintype T]

/-- **Only the references of the task that moves change.** -/
theorem refs_update (hpc : ∀ u ≠ t, s'.pc u = s.pc u) (hheld : ∀ u ≠ t, s'.held u = s.held u) (b : ℕ) :
    s'.refs b + s.taskRefs t b = s.refs b + s'.taskRefs t b := by
  have hrest : ∑ u ∈ Finset.univ.erase t, s'.taskRefs u b = ∑ u ∈ Finset.univ.erase t, s.taskRefs u b := by
    refine Finset.sum_congr rfl fun u hu => ?_
    have hne := Finset.ne_of_mem_erase hu
    rw [taskRefs, taskRefs, hpc u hne, hheld u hne]
  unfold refs
  rw [← Finset.add_sum_erase _ _ (Finset.mem_univ t), ← Finset.add_sum_erase _ _ (Finset.mem_univ t),
    hrest]
  ring

theorem refs_of_pc (hpc : s'.pc = update s.pc t pc) (hheld : s'.held = s.held) (b : ℕ) :
    s'.refs b + (if (s.pc t).reading = some b then 1 else 0) =
      s.refs b + if pc.reading = some b then 1 else 0 := by
  have h := refs_update (s := s) (t := t) (fun u hu => by rw [hpc, update_of_ne hu])
    (fun u _ => congrFun hheld u) b
  unfold taskRefs at h
  rw [hheld, hpc, update_self] at h
  omega

theorem refs_of_held {l : List ℕ} (hpc : s'.pc = update s.pc t pc) (hread : pc.reading = none)
    (hheld : s'.held = update s.held t l) (b : ℕ) :
    s'.refs b + s.taskRefs t b = s.refs b + l.count b := by
  have h := refs_update (s := s) (t := t) (fun u hu => by rw [hpc, update_of_ne hu])
    (fun u hu => by rw [hheld, update_of_ne hu]) b
  rw [h, taskRefs, hheld, hpc, update_self, update_self, hread, if_neg (by simp), Nat.add_zero]

theorem Gets.refs {v : BitVec 8} (h : s.Gets s' t b v) (hr : (s.pc t).reading = none) (c : ℕ) :
    s'.refs c = s.refs c + if b = c then 1 else 0 := by
  have h := refs_of_pc h.pc h.held c
  rw [hr, if_neg (by simp)] at h
  simpa [BufPc.reading] using h

/-- **The counts stay right** if the new reference is not the 256th one. -/
theorem Counted.change (h : s.Counted) (H : s.Keyed) (hc : s.Change s' t)
    (hspare : ∀ key b, s.pc t = .getblk key → s.findFromHashTable key = some b → s.refs b < 255) :
    s'.Counted := by
  intro c hlt
  cases hc with
  | quiet hq =>
    rw [hq.count, refs_congr hq.pc hq.held]
    exact h c (hq.ptr ▸ hlt)
  | goes pc hg hread =>
    have hrefs := refs_of_pc hg.pc hg.held c
    rw [hread, Nat.add_right_cancel_iff] at hrefs
    rw [hg.count, hrefs]
    exact h c (hg.ptr ▸ hlt)
  | hit b key hpc hf hptr hg =>
    rw [hg.refs (by rw [hpc]; rfl)]
    have hold := h c (hptr ▸ hlt)
    by_cases hb : c = b
    · subst hb
      have hsp := hspare key c hpc hf
      rw [hg.self, if_pos rfl, BitVec.toNat_add, hold, Nat.mod_eq_of_lt]
      · rfl
      · exact Nat.succ_lt_succ hsp
    · rw [hg.count c hb, if_neg (Ne.symm hb), hold]
      rfl
  | take b hread hb hg =>
    rw [hg.refs hread]
    by_cases hcb : c = b
    · subst hcb
      have h0 : s.refs c = 0 := by
        rcases hb with ⟨hb, h0, -⟩ | ⟨rfl, -⟩
        · rw [← h c hb, h0]
          rfl
        · exact H.refs_eq_zero le_rfl
      rw [hg.self, h0, if_pos rfl]
      rfl
    · have hold := h c (by omega)
      rw [hg.count c hcb, if_neg (Ne.symm hcb), hold]
      rfl
  | hold b hread hcount hptr hpc hheld =>
    have hrefs := refs_of_held hpc rfl hheld c
    have hold := h c (hptr ▸ hlt)
    rw [taskRefs, hread, List.count_cons] at hrefs
    simp only [Option.some.injEq, beq_iff_eq] at hrefs
    rw [hcount, hold]
    omega
  | put b hmem hread hself hcount hptr hpc hheld =>
    have hrefs := refs_of_held hpc rfl hheld c
    have hold := h c (hptr ▸ hlt)
    rw [taskRefs, hread, if_neg (by simp)] at hrefs
    by_cases hb : c = b
    · subst hb
      have hpos := List.count_pos_iff.2 hmem
      have hle : (s.held t).count c ≤ s.refs c := by
        refine le_trans ?_ (Finset.single_le_sum (fun _ _ => Nat.zero_le _) (Finset.mem_univ t))
        exact Nat.le_add_right _ _
      rw [List.count_erase_self] at hrefs
      rw [hself, BitVec.toNat_sub_of_le (by
        rw [BitVec.le_def, hold]
        exact hpos.trans_le hle), hold]
      show s.refs c - 1 = s'.refs c
      omega
    · rw [List.count_erase_of_ne hb] at hrefs
      rw [hcount c hb, hold]
      omega

end Sums

theorem Quiet.goto (h : s.Quiet s') : s.Goes (s'.goto t pc) t pc := by
  refine ⟨h.count, h.ptr, ?_, h.held⟩
  rw [← h.pc]
  rfl

theorem Goes.quiet (h : s.Goes s' t pc) (h' : s'.Quiet s'') : s.Goes s'' t pc :=
  ⟨fun b => (h'.count b).trans (h.count b), h'.ptr.trans h.ptr, h'.pc.trans h.pc,
    h'.held.trans h.held⟩

theorem Goes.goes {pc' : BufPc T} (h : s.Goes s' t pc) (h' : s'.Goes s'' t pc') : s.Goes s'' t pc' :=
  ⟨fun b => (h'.count b).trans (h.count b), h'.ptr.trans h.ptr,
    by rw [h'.pc, h.pc, update_idem], h'.held.trans h.held⟩

theorem quiet_block : s.Quiet (s.block t) := ⟨fun _ => rfl, rfl, rfl, rfl⟩

theorem quiet_unblock : s.Quiet (s.unblock t) := ⟨fun _ => rfl, rfl, rfl, rfl⟩

theorem quiet_bufferLock : s.Quiet (s.bufferLock t bf) := by
  unfold bufferLock
  dsimp only
  split_ifs
  · exact quiet_setBuf rfl
  · exact (quiet_setBuf rfl).trans quiet_block

theorem quiet_mutexUnlock : s.Quiet (s.mutexUnlock bf) := by
  unfold mutexUnlock
  dsimp only
  cases (s.buf bf).b_lock.waiter.getLast? with
  | none => exact quiet_setBuf rfl
  | some w => exact (quiet_setBuf rfl).trans quiet_unblock

theorem quiet_bufferUnlock : s.Quiet (s.bufferUnlock bf) := by
  unfold bufferUnlock
  cases (s.buf bf).waiter with
  | none => exact quiet_mutexUnlock
  | some w => exact quiet_mutexUnlock.trans quiet_unblock

theorem goes_wakeup : s.Goes (s.wakeup t) t .out := by
  unfold wakeup
  cases s.wait_list with
  | nil => exact (Quiet.refl s).goto
  | cons w rest => exact Quiet.goto ⟨fun _ => rfl, rfl, rfl, rfl⟩

/-- A buffer gets another block, and the task that looked for it gets the buffer. -/
theorem gets_findNew (hcount : ∀ c ≠ bf, (s'.buf c).b_count = (s.buf c).b_count) (hpc : s'.pc = s.pc)
    (hheld : s'.held = s.held) : s.Gets ((s'.findNew bf key).goto t (.bread bf)) t bf 1 := by
  refine ⟨?_, fun c hc => ?_, ?_, hheld⟩
  · show (update s'.buf bf _ bf).b_count = _
    rw [update_self]
  · show (update s'.buf bf _ c).b_count = _
    rw [update_of_ne hc, hcount c hc]
  · rw [← hpc]
    rfl

theorem Quiet.findNew (hs : s.Quiet s') : s.Gets ((s'.findNew bf key).goto t (.bread bf)) t bf 1 :=
  gets_findNew (fun c _ => hs.count c) hs.pc hs.held

/-- `getblk` from its last look at the hash table on, for a buffer without references. -/
theorem change_getblkFind (hs : s.Quiet s') (hr : (s.pc t).reading = none) (hb : bf < s.buffer_ptr)
    (hc : (s.buf bf).b_count = 0) : s.Change (s'.getblkFind t key bf) t := by
  unfold getblkFind
  cases s'.findFromHashTable key with
  | some _ => exact .goes _ hs.goto hr.symm
  | none => exact .take bf hr (Or.inl ⟨hb, hc, hs.ptr⟩) hs.findNew

variable {k : Cont} {req : Request T (ℕ × Key)} {type : ReqType}

theorem goes_doRequest : s.Goes (s.doRequest t k req) t (.served k req) := by
  unfold doRequest
  cases req.type with
  | read => exact (quiet_setBuf rfl).goto
  | write => exact Quiet.goto ⟨fun _ => rfl, rfl, rfl, rfl⟩

/-- Behind `device_request`. -/
theorem change_goBack (H : s.Keyed) (hpc : s.pc t = .back k) : s.Change (s.goBack t k) t := by
  have hb : k.buf < s.buffer_ptr := H.named _ ⟨t, Or.inl (by rw [hpc]; rfl)⟩
  have hread : (s.pc t).reading = k.reading := by rw [hpc]; rfl
  cases k with
  | victim key bf =>
    have hs : s.Quiet (s.setBuf bf fun b => { b with b_dirty := false }) := quiet_setBuf rfl
    unfold goBack
    dsimp only
    by_cases hc : ((s.setBuf bf fun b => { b with b_dirty := false }).buf bf).b_count ≠ 0
    · rw [if_pos hc]
      exact .goes _ hs.goto hread.symm
    · rw [if_neg hc]
      exact change_getblkFind hs hread hb ((hs.count bf).symm.trans (not_not.1 hc))
  | bread bf =>
    have hs : s.Quiet (s.setBuf bf fun b => { b with b_vaild := true, b_dirty := false }) :=
      quiet_setBuf rfl
    exact .hold bf hread hs.count rfl rfl rfl
  | brelse bf =>
    have hs : s.Quiet (s.setBuf bf fun b => { b with b_dirty := false }) := quiet_setBuf rfl
    obtain ⟨hcount, hptr, hpc', hheld⟩ := (goes_wakeup (s := s.setBuf bf fun b => { b with b_dirty := false })
      (t := t))
    exact .goes .out ⟨fun b => (hcount b).trans (hs.count b), hptr, hpc', hheld⟩ hread.symm

variable [DecidableEq D] {disks : Disks D}

/-- A turn of the loop of `device_request` ends in front of `do_request`, or blocked. -/
theorem goes_checkRequest (disks : Disks D) (s : Buffers T D α) (t : T) (k : Cont) (req : Request T (ℕ × Key)) :
    s.Goes (s.checkRequest disks t k req) t (.serve k req) ∨ s.Quiet (s.checkRequest disks t k req) := by
  unfold checkRequest
  dsimp only
  split_ifs
  · exact Or.inr quiet_block
  · exact Or.inl ((quiet_dev _).goto.quiet quiet_bufferLock)

theorem goes_deviceRequest (h : s.deviceRequest disks t bf type k = .ok s') :
    ∃ pc, s.Goes s' t pc ∧ pc.reading = k.reading := by
  obtain ⟨req, -, -, -, rfl⟩ := deviceRequest_eq_ok h
  have hs : s.Goes (s.listRequest disks t k req) t (.check k req) := (quiet_dev _).goto
  rcases goes_checkRequest disks (s.listRequest disks t k req) t k req with h | h
  · exact ⟨_, hs.goes h, rfl⟩
  · exact ⟨_, hs.quiet h, rfl⟩

theorem change_checkRequest (hpc : s.pc t = .check k req) :
    s.Change (s.checkRequest disks t k req) t := by
  rcases goes_checkRequest disks s t k req with h | h
  · exact .goes _ h (by rw [hpc]; rfl)
  · exact .quiet h

theorem goes_finishRequest (h : s.finishRequest disks t k req = .ok s') : s.Goes s' t (.back k) := by
  obtain ⟨⟨dev, next⟩, -, h⟩ := bind_eq_ok.1 h
  have hu : s.Quiet (s.bufferUnlock req.buf.1) := quiet_bufferUnlock
  have hs : s.Goes ({ s.bufferUnlock req.buf.1 with
      dev := update (s.bufferUnlock req.buf.1).dev (disks.parent req.buf.2.1) dev }.goto t (.back k))
      t (.back k) := Quiet.goto ⟨hu.count, hu.ptr, hu.pc, hu.held⟩
  cases next with
  | none =>
    cases h
    exact hs
  | some next =>
    cases h
    exact hs.quiet quiet_unblock

/-- `getblk` behind the wait for the lock, for a buffer without references. -/
theorem change_getblkWrite (hs : s.Quiet s') (hr : (s.pc t).reading = none) (hb : bf < s.buffer_ptr)
    (hc : (s.buf bf).b_count = 0) (h : s'.getblkWrite disks t key bf = .ok s'') : s.Change s'' t := by
  unfold getblkWrite at h
  split_ifs at h
  · obtain ⟨pc, ⟨hcount, hptr, hpc, hheld⟩, hread⟩ := goes_deviceRequest h
    exact .goes pc ⟨fun b => (hcount b).trans (hs.count b), hptr.trans hs.ptr, hs.pc ▸ hpc,
      hheld.trans hs.held⟩ (hread.trans hr.symm)
  · cases h
    exact change_getblkFind hs hr hb hc

theorem change_getblk (H : s.Keyed) (hpc : s.pc t = .getblk key)
    (h : s.getblk disks t key = .ok s') : s.Change s' t := by
  have hr : (s.pc t).reading = none := by rw [hpc]; rfl
  unfold getblk at h
  cases hf : s.findFromHashTable key with
  | some bf =>
    rw [hf] at h
    cases h
    refine .hit bf key hpc hf rfl ⟨?_, fun c hc => ?_, rfl, rfl⟩
    · show (update s.buf bf _ bf).b_count = _
      rw [update_self]
    · show (update s.buf bf _ c).b_count = _
      rw [update_of_ne hc]
  | none =>
  rw [hf] at h
  cases hn : s.getNewBuffer with
  | some p =>
    obtain ⟨s₁, bf⟩ := p
    rw [hn] at h
    cases h
    obtain ⟨rfl, -, hp⟩ := keeps_getNewBuffer hf hn
    unfold getNewBuffer at hn
    split_ifs at hn
    cases hn
    refine .take s.buffer_ptr hr (Or.inr ⟨rfl, rfl⟩) (gets_findNew (fun c hc => ?_) rfl rfl)
    exact congrArg Buffer.b_count (update_of_ne hc _ _)
  | none =>
  rw [hn] at h
  cases hs : scan s.buf s.free_list none with
  | mk o r =>
  rw [hs] at h
  cases o with
  | none =>
    cases h
    have hs : s.Quiet { s with wait_list := t :: s.wait_list } := ⟨fun _ => rfl, rfl, rfl, rfl⟩
    exact .goes (.getblk key) (hs.goto.quiet quiet_block) hr.symm
  | some bf =>
  obtain ⟨hc, hm⟩ := scan_spec hs fun c h => nomatch h
  have hb : bf < s.buffer_ptr := (H.mem_free bf).1 (hm.resolve_right fun h => nomatch h)
  cases r with
  | true =>
    cases h
    exact .take bf hr (Or.inl ⟨hb, hc, rfl⟩) (Quiet.refl s).findNew
  | false =>
  dsimp only at h
  split_ifs at h
  · exact change_getblkWrite (Quiet.refl s) hr hb hc h
  · obtain ⟨-, h⟩ := cassert_bind_eq_ok.1 h
    cases h
    have hs : s.Quiet (s.setBuf bf fun b => { b with waiter := some t }) := quiet_setBuf rfl
    exact .goes (.waiter key bf) (hs.goto.quiet quiet_block) hr.symm

theorem change_getblkWaiter (H : s.Keyed) (hpc : s.pc t = .waiter key bf)
    (h : s.getblkWaiter disks t key bf = .ok s') : s.Change s' t := by
  have hr : (s.pc t).reading = none := by rw [hpc]; rfl
  have hb : bf < s.buffer_ptr := H.named _ ⟨t, Or.inl (by rw [hpc]; rfl)⟩
  have hs : s.Quiet (s.setBuf bf fun b => { b with waiter := none }) := quiet_setBuf rfl
  unfold getblkWaiter at h
  dsimp only at h
  by_cases hc : ((s.setBuf bf fun b => { b with waiter := none }).buf bf).b_count ≠ 0
  · rw [if_pos hc] at h
    cases h
    exact .goes _ hs.goto hr.symm
  · rw [if_neg hc] at h
    exact change_getblkWrite hs hr hb ((hs.count bf).symm.trans (not_not.1 hc)) h

theorem change_breadValid (hpc : s.pc t = .bread bf) (h : s.breadValid disks t bf = .ok s') :
    s.Change s' t := by
  have hr : (s.pc t).reading = some bf := by rw [hpc]; rfl
  unfold breadValid at h
  split_ifs at h
  · cases h
    exact .hold bf hr (fun _ => rfl) rfl rfl rfl
  · obtain ⟨pc, hgo, hread⟩ := goes_deviceRequest h
    exact .goes pc hgo (hread.trans hr.symm)

theorem change_brelseRest (hpc : s.pc t = .brelse bf) (h : s.brelseRest disks t bf = .ok s') :
    s.Change s' t := by
  have hr : (s.pc t).reading = none := by rw [hpc]; rfl
  unfold brelseRest at h
  split_ifs at h
  · cases h
    exact .goes _ (Quiet.refl s).goto hr.symm
  · obtain ⟨pc, hgo, hread⟩ := goes_deviceRequest h
    exact .goes pc hgo (hread.trans hr.symm)
  · cases h
    exact .goes _ goes_wakeup hr.symm

end Buffers

/-! ## Steps and runs -/

open Buffers

/-- A step releases only a reference that its task holds. -/
def Owned {T D α : Type} (s : Buffers T D α) (a : BufAct T α) : Prop :=
  ∀ t b, a = .brelse t b → b ∈ s.held t

/-- A block that is found in the cache has fewer than 255 references. -/
def Spare {T D α : Type} [Fintype T] (s : Buffers T D α) (a : BufAct T α) : Prop :=
  ∀ key b, s.pc a.task = .getblk key → s.findFromHashTable key = some b → s.refs b < 255

/-- The runs in which no task releases what it does not hold. -/
def refSys (T D α : Type) [DecidableEq T] [DecidableEq D] (disks : Disks D) :
    Sys (Buffers T D α) (BufAct T α) :=
  (bufSys T D α disks).restrict Owned

section Runs
variable {T D α : Type} [DecidableEq T] [DecidableEq D] {disks : Disks D} {s s' : Buffers T D α}
  {a : BufAct T α}

/-- **What a step does to the references.** -/
theorem BufStep.change (H : s.Keyed) (ho : Owned s a) (h : BufStep disks s a s') : s.Change s' a.task := by
  cases h with
  | @bread t key hpc => exact .goes (.getblk key) (Quiet.refl s).goto (by rw [BufAct.task, hpc]; rfl)
  | modify _ _ => exact .quiet (quiet_setBuf rfl)
  | @brelse t bf hpc hbf =>
    refine .put bf (ho t bf rfl) (by rw [BufAct.task, hpc]; rfl) ?_ (fun c hc => ?_) rfl rfl rfl
    · show (update s.buf bf _ bf).b_count = _
      rw [update_self]
    · show (update s.buf bf _ c).b_count = _
      rw [update_of_ne hc]
  | getblk hpc _ h => exact change_getblk H hpc h
  | waiter hpc _ h => exact change_getblkWaiter H hpc h
  | breadValid hpc h => exact change_breadValid hpc h
  | brelseRest hpc h => exact change_brelseRest hpc h
  | check hpc _ => exact change_checkRequest hpc
  | serve hpc _ => exact .goes _ goes_doRequest (by rw [BufAct.task, hpc]; rfl)
  | finish hpc h => exact .goes _ (goes_finishRequest h) (by rw [BufAct.task, hpc]; rfl)
  | back hpc => exact change_goBack H hpc

variable [Fintype T]

theorem counted_reach (h : ((refSys T D α disks).restrict Spare).Reach s) : s.Keyed ∧ s.Counted := by
  refine h.invariant (I := fun s => s.Keyed ∧ s.Counted) (fun s hs => ?_) fun s a s' hI hst => ?_
  · have hinit : (bufSys T D α disks).init s := hs
    refine ⟨keyed_reach (.init hinit), fun b hb => ?_⟩
    rw [hinit.1] at hb
    exact absurd hb (Nat.not_lt_zero b)
  · obtain ⟨hspare, hown, hstep⟩ := hst
    exact ⟨(hstep.keeps hI.1).keyed hI.1, hI.2.change hI.1 (hstep.change hI.1 hown) hspare⟩

/-- **`b_count` is the number of references**, in every interleaving in which no buffer gets a 256th
    one: the victim search never chooses a buffer that is referenced, and no step gives such a buffer
    another key. -/
theorem counts_exact (h : ((refSys T D α disks).restrict Spare).Reach s) :
    (∀ b < s.buffer_ptr, (s.buf b).b_count.toNat = s.refs b) ∧
    (∀ b r, scan s.buf s.free_list none = (some b, r) → s.refs b = 0) ∧
    ∀ a s', BufStep disks s a s' → ∀ b < s.buffer_ptr, s.refs b ≠ 0 → (s'.buf b).key = (s.buf b).key := by
  obtain ⟨H, hcnt⟩ := counted_reach h
  refine ⟨hcnt, fun b r hs => ?_, fun a s' hst b hb hr => ?_⟩
  · obtain ⟨h0, hm⟩ := scan_spec hs fun c h => nomatch h
    have hb : b < s.buffer_ptr := (H.mem_free b).1 (hm.resolve_right fun h => nomatch h)
    rw [← hcnt b hb, h0]
    rfl
  · refine (hst.keeps H).key_eq hb fun h0 => hr ?_
    rw [← hcnt b hb, h0]
    rfl

end Runs

/-- A cache without buffers, and one task. -/
def loneCache : Buffers Unit Unit ℕ where
  buf _ := ⟨0, 0, 0, false, ⟨true, []⟩, 0, false, none⟩
  buffer_ptr := 0
  free_list := []
  hash_table _ := []
  wait_list := []
  disk _ := 0
  dev _ := ⟨false, .fore, []⟩
  pc _ := .out
  ready _ := true
  held _ := []

/-- The runs of one task on one disk. -/
def loneSys : Sys (Buffers Unit Unit ℕ) (BufAct Unit ℕ) :=
  refSys Unit Unit ℕ ⟨fun _ => (), fun _ => true, fun _ => 0⟩

/-- The task has read block 7 of device 5 `n` times, and released nothing. -/
structure Hoarded (s : Buffers Unit Unit ℕ) (n : ℕ) : Prop where
  pc : s.pc () = .out
  ready : s.ready () = true
  held : s.held () = List.replicate n 0
  ptr : s.buffer_ptr = 1
  free : s.free_list = [0]
  find : s.findFromHashTable (5, 7) = some 0
  count : (s.buf 0).b_count = BitVec.ofNat 8 n
  vaild : (s.buf 0).b_vaild = true
  idle : (s.buf 0).waiter = none ∧ score (s.buf 0) = 0

/-- The task goes on. -/
theorem lone_run {C : Buffers Unit Unit ℕ → BufAct Unit ℕ → Prop} {s s' : Buffers Unit Unit ℕ}
    (h : (loneSys.restrict C).Reach s) (hc : C s (.run ()))
    (hs : BufStep ⟨fun _ => (), fun _ => true, fun _ => 0⟩ s (.run ()) s') :
    (loneSys.restrict C).Reach s' :=
  .step h ⟨hc, fun _ _ h => (nomatch h), hs⟩

theorem spare_of {s : Buffers Unit Unit ℕ} (h : ∀ key, s.pc () ≠ .getblk key) :
    Spare s (.run () : BufAct Unit ℕ) := fun key _ hpc => absurd hpc (h key)

/-- The first read takes a new buffer, and reads the block. -/
theorem hoarded_first : ∃ s, (loneSys.restrict Spare).Reach s ∧ Hoarded s 1 := by
  have h₀ : (loneSys.restrict Spare).Reach loneCache :=
    .init ⟨rfl, rfl, fun _ => rfl, rfl, fun _ => rfl, fun _ => rfl, fun _ => rfl, fun _ => rfl⟩
  have h₁ : (loneSys.restrict Spare).Reach (loneCache.goto () (.getblk (5, 7))) :=
    h₀.step (a := .bread () (5, 7)) ⟨fun _ _ h => (nomatch h), fun _ _ h => (nomatch h), .bread rfl⟩
  have hnew : Spare (loneCache.goto () (.getblk (5, 7))) (.run () : BufAct Unit ℕ) := by
    intro key b hpc hf
    cases hpc
    cases hf
  have h₂ := lone_run h₁ hnew (.getblk (t := ()) rfl rfl rfl)
  have h₃ := lone_run h₂ (spare_of fun _ h => nomatch h) (.breadValid (t := ()) rfl rfl)
  have h₄ := lone_run h₃ (spare_of fun _ h => nomatch h) (.serve (t := ()) rfl rfl)
  have h₅ := lone_run h₄ (spare_of fun _ h => nomatch h) (.finish (t := ()) rfl rfl)
  have h₆ := lone_run h₅ (spare_of fun _ h => nomatch h) (.back (t := ()) rfl)
  exact ⟨_, h₆, rfl, rfl, rfl, rfl, rfl, rfl, rfl, rfl, rfl, rfl⟩

/-- Every other read finds the buffer. -/
theorem Hoarded.more {s : Buffers Unit Unit ℕ} {n : ℕ} (hr : loneSys.Reach s) (h : Hoarded s n) :
    ∃ s', loneSys.Reach s' ∧ Hoarded s' (n + 1) := by
  let s₁ := s.goto () (.getblk (5, 7))
  let s₂ := (s₁.setBuf 0 fun b => { b with b_count := b.b_count + 1 }).goto () (.bread 0)
  let s₃ := { s₂ with held := update s₂.held () (0 :: s₂.held ()) }.goto () .out
  have h₁ : loneSys.Reach s₁ := hr.step (a := .bread () (5, 7)) ⟨fun _ _ h => (nomatch h), .bread h.pc⟩
  have h₂ : loneSys.Reach s₂ := by
    refine h₁.step (a := .run ()) ⟨fun _ _ h => (nomatch h), .getblk rfl h.ready ?_⟩
    have hf : s₁.findFromHashTable (5, 7) = some 0 := h.find
    unfold getblk
    rw [hf]
    rfl
  have h₃ : loneSys.Reach s₃ := by
    refine h₂.step (a := .run ()) ⟨fun _ _ h => (nomatch h), .breadValid rfl ?_⟩
    have hv : (s₂.buf 0).b_vaild = true := h.vaild
    unfold breadValid
    rw [if_pos hv]
    rfl
  have hkeys : s₁.SameKeys (s₁.setBuf 0 fun b => { b with b_count := b.b_count + 1 }) :=
    sameKeys_setBuf rfl
  have hfind : s₃.findFromHashTable (5, 7) = s.findFromHashTable (5, 7) := hkeys.find (5, 7)
  refine ⟨s₃, h₃, rfl, h.ready, ?_, h.ptr, h.free, hfind.trans h.find, ?_, h.vaild, h.idle⟩
  · show 0 :: s.held () = _
    rw [h.held]
    rfl
  · show (s.buf 0).b_count + 1 = _
    rw [h.count, BitVec.ofNat_add]
    rfl

theorem hoarded {n : ℕ} (hn : 1 ≤ n) : ∃ s, loneSys.Reach s ∧ Hoarded s n := by
  induction n, hn using Nat.le_induction with
  | base =>
    obtain ⟨s, hr, h⟩ := hoarded_first
    exact ⟨s, hr.of_restrict, h⟩
  | succ n _ ih =>
    obtain ⟨s, hr, h⟩ := ih
    exact h.more hr

theorem Hoarded.refs {s : Buffers Unit Unit ℕ} {n : ℕ} (h : Hoarded s n) : s.refs 0 = n := by
  rw [Buffers.refs, Fintype.sum_unique, taskRefs]
  show (s.held ()).count 0 + (if (s.pc ()).reading = some 0 then 1 else 0) = n
  rw [h.held, h.pc, List.count_replicate_self]
  rfl

/-- One block has been read once. -/
theorem counts_exact_one : ∃ s : Buffers Unit Unit ℕ, s.refs 0 = 1 ∧ (s.buf 0).b_count.toNat = s.refs 0 := by
  obtain ⟨s, hr, h⟩ := hoarded_first
  have hb : 0 < s.buffer_ptr := by
    rw [h.ptr]
    exact Nat.one_pos
  exact ⟨s, h.refs, (counts_exact hr).1 0 hb⟩

/-- **The 256th reference makes the count 0**, and the victim search chooses the buffer. -/
theorem count_wraps : ∃ s : Buffers Unit Unit ℕ, loneSys.Reach s ∧ 0 < s.buffer_ptr ∧
    s.refs 0 = 256 ∧ (s.buf 0).b_count = 0 ∧ scan s.buf s.free_list none = (some 0, true) := by
  obtain ⟨s, hr, h⟩ := hoarded (n := 256) (by norm_num)
  have hcount : (s.buf 0).b_count = 0 := h.count
  obtain ⟨hwaiter, hscore⟩ := h.idle
  refine ⟨s, hr, ?_, h.refs, hcount, ?_⟩
  · rw [h.ptr]
    exact Nat.one_pos
  · rw [h.free, scan, if_neg (not_not.2 hcount), hwaiter, if_neg (by simp)]
    exact if_pos hscore

end Rdix
