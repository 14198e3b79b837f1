/-
  The data in the buffer cache (fs/buffer.c: getblk, bread, bwrite, brelse).

  * `Store`: what a buffer holds, and for which block;
  * `Effect`, `BufStep.effect`: what a step of a task does to the stores, but for a transfer;
  * `Hist`: what the modifications have made of each block, and which block the bytes of each buffer
    belong to.  Neither is in the source.
-/
import Rdix.Fs.BufferCounts

namespace Rdix

open Function Transition

/-! ## Requests -/

/-- What `device_request` is called with. -/
def Cont.type : Cont → ReqType
  | .victim _ _ => .write
  | .bread _ => .read
  | .brelse _ => .write

/-- The request that a task has in the queue, while it is not transferred. -/
def BufPc.pending {T : Type} : BufPc T → Option (Cont × Request T (ℕ × Key))
  | .check k req => some (k, req)
  | .serve k req => some (k, req)
  | .out | .getblk _ | .waiter _ _ | .bread _ | .brelse _ | .served _ _ | .back _ => none

/-- The buffer that the task has written, or is going to write if it is dirty. -/
def BufPc.writing {T : Type} : BufPc T → Option ℕ
  | .brelse bf => some bf
  | .check k _ | .serve k _ | .served k _ | .back k => if k.type = .write then some k.buf else none
  | .out | .getblk _ | .waiter _ _ | .bread _ => none

/-- The buffer of a read, or a write, that is under way: its flags are not set yet. -/
def BufPc.under {T : Type} (type : ReqType) : BufPc T → Option ℕ
  | .check k _ | .serve k _ | .served k _ | .back k => if k.type = type then some k.buf else none
  | .out | .getblk _ | .waiter _ _ | .bread _ | .brelse _ => none

/-- And its block is transferred. -/
def BufPc.moved {T : Type} (type : ReqType) : BufPc T → Option ℕ
  | .served k _ | .back k => if k.type = type then some k.buf else none
  | .out | .getblk _ | .waiter _ _ | .bread _ | .brelse _ | .check _ _ | .serve _ _ => none

theorem Cont.reading_of_type {k : Cont} (h : k.type = .read) : k.reading = some k.buf := by
  cases k with
  | bread bf => rfl
  | victim _ _ | brelse _ => cases h

theorem BufPc.under_of_moved {T : Type} {pc : BufPc T} {type : ReqType} {b : ℕ}
    (h : pc.moved type = some b) : pc.under type = some b := by
  cases pc with
  | served k _ | back k => exact h
  | out | getblk _ | waiter _ _ | bread _ | brelse _ | check _ _ | serve _ _ => cases h

theorem BufPc.under_of_pending {T : Type} {pc : BufPc T} {k : Cont} {req : Request T (ℕ × Key)}
    (h : pc.pending = some (k, req)) : pc.under k.type = some k.buf := by
  cases pc with
  | check k _ | serve k _ =>
    cases h
    exact if_pos rfl
  | out | getblk _ | waiter _ _ | bread _ | brelse _ | served _ _ | back _ => cases h

theorem BufPc.reading_of_under {T : Type} {pc : BufPc T} {b : ℕ} (h : pc.under .read = some b) :
    pc.reading = some b := by
  cases pc with
  | check k _ | serve k _ | served k _ | back k =>
    simp only [under, Option.ite_none_right_eq_some] at h
    exact h.2 ▸ Cont.reading_of_type h.1
  | out | getblk _ | waiter _ _ | bread _ | brelse _ => cases h

theorem BufPc.buf_of_under {T : Type} {pc : BufPc T} {type : ReqType} {b : ℕ}
    (h : pc.under type = some b) : pc.buf = some b := by
  cases pc with
  | check k _ | serve k _ | served k _ | back k =>
    simp only [under, Option.ite_none_right_eq_some] at h
    exact h.2
  | out | getblk _ | waiter _ _ | bread _ | brelse _ => cases h

/-! ## What a step does to the data -/

/-- What a buffer holds, and for which block. -/
structure Store (α : Type) where
  data : α
  key : Key
  dirty : Bool
  vaild : Bool

/-- A field that one buffer does not change is the same in all. -/
theorem Store.field_update {α β : Type} (f : Store α → β) {store : ℕ → Store α} {b : ℕ} {v : Store α}
    (hv : f v = f (store b)) (c : ℕ) : f (update store b v c) = f (store c) := by
  by_cases hc : c = b
  · rw [hc, update_self, hv]
  · rw [update_of_ne hc]

theorem Store.dirty_update {α : Type} {store : ℕ → Store α} {b c : ℕ} {v : Store α} (hv : v.dirty = false)
    (hd : (update store b v c).dirty = true) : (store c).dirty = true := by
  by_cases hc : c = b
  · rw [hc, update_self, hv] at hd
    cases hd
  · rwa [update_of_ne hc] at hd

namespace Buffers

variable {T D α : Type} {s s' s'' : Buffers T D α} {b c bf : ℕ} {key : Key} {t : T} {pc : BufPc T}
  {k : Cont} {req : Request T (ℕ × Key)} {type : ReqType}

def store (s : Buffers T D α) (b : ℕ) : Store α :=
  ⟨(s.buf b).b_data, (s.buf b).key, (s.buf b).b_dirty, (s.buf b).b_vaild⟩

/-- The bytes of the buffer are on the disk, or it is not dirty. -/
def Saved (s : Buffers T D α) (b : ℕ) : Prop :=
  (s.store b).dirty = true → s.disk (s.store b).key = (s.store b).data

/-- Nothing changes that the data depend on. -/
structure Still (s s' : Buffers T D α) : Prop where
  store : s'.store = s.store
  disk : s'.disk = s.disk
  ptr : s'.buffer_ptr = s.buffer_ptr
  pc : s'.pc = s.pc
  held : s'.held = s.held

theorem Still.refl (s : Buffers T D α) : s.Still s := ⟨rfl, rfl, rfl, rfl, rfl⟩

theorem Still.trans (h : s.Still s') (h' : s'.Still s'') : s.Still s'' :=
  ⟨h'.store.trans h.store, h'.disk.trans h.disk, h'.ptr.trans h.ptr, h'.pc.trans h.pc,
    h'.held.trans h.held⟩

theorem store_setBuf (s : Buffers T D α) (bf : ℕ) (f : Buffer T α → Buffer T α) :
    (s.setBuf bf f).store = update s.store bf
      ⟨(f (s.buf bf)).b_data, (f (s.buf bf)).key, (f (s.buf bf)).b_dirty, (f (s.buf bf)).b_vaild⟩ := by
  ext1 c
  by_cases hc : c = bf
  · simp only [hc, store, setBuf, update_self]
  · simp only [store, setBuf, update_of_ne hc]

theorem still_setBuf {f : Buffer T α → Buffer T α}
    (hf : (⟨(f (s.buf bf)).b_data, (f (s.buf bf)).key, (f (s.buf bf)).b_dirty,
      (f (s.buf bf)).b_vaild⟩ : Store α) = s.store bf) : s.Still (s.setBuf bf f) :=
  ⟨by rw [store_setBuf, hf, update_eq_self], rfl, rfl, rfl, rfl⟩

theorem store_findNew (s : Buffers T D α) (bf : ℕ) (key : Key) :
    (s.findNew bf key).store = update s.store bf ⟨(s.store bf).data, key, false, false⟩ :=
  store_setBuf s bf fun b =>
    { b with b_count := 1, b_dirty := false, b_vaild := false, b_blknr := key.2, b_dev := key.1 }

/-- A buffer that is neither locked nor dirty. -/
theorem scan_clean {buf : ℕ → Buffer T α} {l : List ℕ} {acc : Option ℕ}
    (h : scan buf l acc = (some b, true)) : (buf b).b_dirty = false := by
  induction l generalizing acc with
  | nil => cases h
  | cons tmp rest ih =>
    unfold scan at h
    dsimp only at h
    split_ifs at h with hc hw h0 hlt
    · exact ih h
    · exact ih h
    · cases h
      by_contra hd
      have hd : (buf (acc.getD tmp)).b_dirty = true := Bool.not_eq_false _ ▸ hd
      simp only [score, hd, if_true] at h0
      omega
    · exact ih h
    · exact ih h

variable [DecidableEq T]

/-- The task goes on at `pc`, and the data stay. -/
structure Turns (s s' : Buffers T D α) (t : T) (pc : BufPc T) : Prop where
  store : s'.store = s.store
  disk : s'.disk = s.disk
  ptr : s'.buffer_ptr = s.buffer_ptr
  pc : s'.pc = update s.pc t pc
  held : s'.held = s.held

/-- The task calls `device_request` with the buffer: `bread` if it is not valid, `bwrite` if it is
    dirty and nobody uses it. -/
structure Asks (s : Buffers T D α) (k : Cont) (req : Request T (ℕ × Key)) : Prop where
  type : req.type = k.type
  buf : req.buf = (k.buf, (s.store k.buf).key)
  lt : k.buf < s.buffer_ptr
  read : k.type = .read → (s.store k.buf).vaild = false
  write : k.type = .write → (s.store k.buf).dirty = true ∧ (s.buf k.buf).b_count = 0

/-- What a task that goes on at `pc` has in its hands there: what it had before, or a new request. -/
structure Onward (s : Buffers T D α) (t : T) (pc : BufPc T) : Prop where
  pending : ∀ k req, pc.pending = some (k, req) → (s.pc t).pending = some (k, req) ∨ s.Asks k req
  under : ∀ type b, pc.under type = some b → (s.pc t).under type = some b ∨
    ∃ k req, k.type = type ∧ k.buf = b ∧ s.Asks k req
  moved : ∀ type b, pc.moved type = some b → (s.pc t).moved type = some b
  writing : ∀ b, (s.pc t).writing = some b →
    pc.writing = some b ∨ (s.store b).dirty = false ∨ (s.buf b).b_count ≠ 0

/-- What a step of the task does to the data, if it is no transfer. -/
inductive Effect (s s' : Buffers T D α) (t : T) : Prop where
  | still : s.Still s' → Effect s s' t
  | goes (pc : BufPc T) : s.Turns s' t pc → s.Onward t pc → Effect s s' t
  /-- `b_dirty = false` behind a write -/
  | clean (k : Cont) (pc : BufPc T) : s.pc t = .back k → k.type = .write →
      s'.store = update s.store k.buf { s.store k.buf with dirty := false } → s'.disk = s.disk →
      s'.buffer_ptr = s.buffer_ptr → s'.pc = update s.pc t pc → s'.held = s.held →
      pc.pending = none → (∀ type, pc.under type = none) → Effect s s' t
  /-- a buffer is taken for another block -/
  | take (b : ℕ) (key : Key) : s.findFromHashTable key = none →
      (b < s.buffer_ptr ∧ (s.buf b).b_count = 0 ∧
          ((s.store b).dirty = false ∨ ∃ k, s.pc t = .back k ∧ k.type = .write ∧ k.buf = b) ∧
          s'.buffer_ptr = s.buffer_ptr ∨
        b = s.buffer_ptr ∧ s'.buffer_ptr = s.buffer_ptr + 1) →
      (∀ c, (s.pc t).writing = some c → c = b) →
      (∃ data, s'.store = update s.store b ⟨data, key, false, false⟩) → s'.disk = s.disk →
      s'.pc = update s.pc t (.bread b) → s'.held = s.held → Effect s s' t
  /-- `bread` returns a buffer that is valid -/
  | hold (b : ℕ) : s.pc t = .bread b → (s.store b).vaild = true → s'.store = s.store →
      s'.disk = s.disk → s'.buffer_ptr = s.buffer_ptr → s'.pc = update s.pc t .out →
      s'.held = update s.held t (b :: s.held t) → Effect s s' t
  /-- `bread` returns a buffer that it has read -/
  | fill (b : ℕ) : s.pc t = .back (.bread b) →
      s'.store = update s.store b { s.store b with dirty := false, vaild := true } →
      s'.disk = s.disk → s'.buffer_ptr = s.buffer_ptr → s'.pc = update s.pc t .out →
      s'.held = update s.held t (b :: s.held t) → Effect s s' t

/-- The transfer of a block. -/
structure Serves (s s' : Buffers T D α) (t : T) (k : Cont) (req : Request T (ℕ × Key)) : Prop where
  ptr : s'.buffer_ptr = s.buffer_ptr
  pc : s'.pc = update s.pc t (.served k req)
  held : s'.held = s.held
  read : req.type = .read → s'.disk = s.disk ∧
    s'.store = update s.store req.buf.1 { s.store req.buf.1 with data := s.disk req.buf.2 }
  write : req.type = .write → s'.store = s.store ∧
    s'.disk = update s.disk req.buf.2 (s.store req.buf.1).data

theorem serves_doRequest : s.Serves (s.doRequest t k req) t k req := by
  have hstore : (s.setBuf req.buf.1 fun b => { b with b_data := s.disk req.buf.2 }).store =
      update s.store req.buf.1 { s.store req.buf.1 with data := s.disk req.buf.2 } := store_setBuf s _ _
  unfold doRequest
  cases hty : req.type with
  | read => exact ⟨rfl, rfl, rfl, fun _ => ⟨rfl, hstore⟩, fun h => by simp [hty] at h⟩
  | write => exact ⟨rfl, rfl, rfl, fun h => by simp [hty] at h, fun _ => ⟨rfl, rfl⟩⟩

theorem Still.goto (h : s.Still s') : s.Turns (s'.goto t pc) t pc := by
  refine ⟨h.store, h.disk, h.ptr, ?_, h.held⟩
  rw [← h.pc]
  rfl

theorem Turns.still (h : s.Turns s' t pc) (h' : s'.Still s'') : s.Turns s'' t pc :=
  ⟨h'.store.trans h.store, h'.disk.trans h.disk, h'.ptr.trans h.ptr, h'.pc.trans h.pc,
    h'.held.trans h.held⟩

theorem Still.turns (h : s.Still s') (h' : s'.Turns s'' t pc) : s.Turns s'' t pc :=
  ⟨h'.store.trans h.store, h'.disk.trans h.disk, h'.ptr.trans h.ptr, h.pc ▸ h'.pc,
    h'.held.trans h.held⟩

theorem Turns.turns {pc' : BufPc T} (h : s.Turns s' t pc) (h' : s'.Turns s'' t pc') :
    s.Turns s'' t pc' :=
  ⟨h'.store.trans h.store, h'.disk.trans h.disk, h'.ptr.trans h.ptr, by rw [h'.pc, h.pc, update_idem],
    h'.held.trans h.held⟩

theorem still_block : s.Still (s.block t) := ⟨rfl, rfl, rfl, rfl, rfl⟩

theorem still_unblock : s.Still (s.unblock t) := ⟨rfl, rfl, rfl, rfl, rfl⟩

theorem still_bufferLock : s.Still (s.bufferLock t bf) := by
  unfold bufferLock
  dsimp only
  split_ifs
  · exact still_setBuf rfl
  · exact (still_setBuf rfl).trans still_block

theorem still_mutexUnlock : s.Still (s.mutexUnlock bf) := by
  unfold mutexUnlock
  dsimp only
  cases (s.buf bf).b_lock.waiter.getLast? with
  | none => exact still_setBuf rfl
  | some w => exact (still_setBuf rfl).trans still_unblock

theorem still_bufferUnlock : s.Still (s.bufferUnlock bf) := by
  unfold bufferUnlock
  cases (s.buf bf).waiter with
  | none => exact still_mutexUnlock
  | some w => exact still_mutexUnlock.trans still_unblock

theorem turns_wakeup : s.Turns (s.wakeup t) t .out := by
  unfold wakeup
  cases s.wait_list with
  | nil => exact (Still.refl s).goto
  | cons w rest => exact Still.goto ⟨rfl, rfl, rfl, rfl, rfl⟩

/-! ## The functions of the cache -/

/-- A task that goes on outside of `device_request`, from where it has nothing to write. -/
theorem Turns.effect (h : s.Turns s' t pc) (hp : pc.pending = none) (hu : ∀ type, pc.under type = none)
    (hw : (s.pc t).writing = none) : s.Effect s' t := by
  refine .goes pc h ⟨fun k req h' => ?_, fun type b h' => ?_, fun type b h' => ?_, fun b h' => ?_⟩
  · rw [hp] at h'
    cases h'
  · rw [hu] at h'
    cases h'
  · have h' := BufPc.under_of_moved h'
    rw [hu] at h'
    cases h'
  · rw [hw] at h'
    cases h'

theorem Still.effect_findNew (h : s.Still s') (hf : s.findFromHashTable key = none)
    (hb : bf < s.buffer_ptr) (hc : (s.buf bf).b_count = 0)
    (hd : (s.store bf).dirty = false) (hw : (s.pc t).writing = none) :
    s.Effect ((s'.findNew bf key).goto t (.bread bf)) t := by
  refine .take bf key hf (Or.inl ⟨hb, hc, Or.inl hd, h.ptr⟩) (fun c hc => ?_) ⟨(s.store bf).data, ?_⟩
    h.disk ?_ h.held
  · rw [hw] at hc
    cases hc
  · rw [← h.store]
    exact store_findNew s' bf key
  · rw [← h.pc]
    rfl

theorem effect_goBack (H : s.Keyed) (hpc : s.pc t = .back k) : s.Effect (s.goBack t k) t := by
  have hb : k.buf < s.buffer_ptr := H.named _ ⟨t, Or.inl (by rw [hpc]; rfl)⟩
  cases k with
  | victim key bf =>
    have hstore : (s.setBuf bf fun b => { b with b_dirty := false }).store =
        update s.store bf { s.store bf with dirty := false } := store_setBuf s bf _
    have hkeys : s.SameKeys (s.setBuf bf fun b => { b with b_dirty := false }) := sameKeys_setBuf rfl
    have hcount : ((s.setBuf bf fun b => { b with b_dirty := false }).buf bf).b_count =
        (s.buf bf).b_count := count_setBuf rfl bf
    have hagain : s.Effect ((s.setBuf bf fun b => { b with b_dirty := false }).goto t (.getblk key)) t :=
      .clean _ (.getblk key) hpc rfl hstore rfl rfl rfl rfl rfl fun _ => rfl
    unfold goBack
    dsimp only
    by_cases hc : ((s.setBuf bf fun b => { b with b_dirty := false }).buf bf).b_count ≠ 0
    · rw [if_pos hc]
      exact hagain
    rw [if_neg hc]
    replace hc : (s.buf bf).b_count = 0 := hcount ▸ not_not.1 hc
    unfold getblkFind
    rw [hkeys.find key]
    cases hf : s.findFromHashTable key with
    | some _ => exact hagain
    | none =>
      refine .take bf key hf (Or.inl ⟨hb, hc, Or.inr ⟨_, hpc, rfl, rfl⟩, rfl⟩)
        (fun c hw => ?_) ⟨(s.store bf).data, ?_⟩ rfl rfl rfl
      · rw [hpc] at hw
        exact (Option.some.inj hw).symm
      · refine (store_findNew (s.setBuf bf fun b => { b with b_dirty := false }) bf key).trans ?_
        rw [hstore, update_idem, update_self]
  | bread bf =>
    have hstore : (s.setBuf bf fun b => { b with b_vaild := true, b_dirty := false }).store =
        update s.store bf { s.store bf with dirty := false, vaild := true } := store_setBuf s bf _
    exact .fill bf hpc hstore rfl rfl rfl rfl
  | brelse bf =>
    have hstore : (s.setBuf bf fun b => { b with b_dirty := false }).store =
        update s.store bf { s.store bf with dirty := false } := store_setBuf s bf _
    have hw := turns_wakeup (s := s.setBuf bf fun b => { b with b_dirty := false }) (t := t)
    exact .clean _ .out hpc rfl (hw.store.trans hstore) hw.disk hw.ptr hw.pc hw.held rfl fun _ => rfl

/-- A task calls `device_request`, and goes on in front of `do_request`, or blocked. -/
theorem Turns.effect_asks (h : s.Turns s' t pc) (hpc : pc = .check k req ∨ pc = .serve k req)
    (ha : s.Asks k req) (hw : ∀ b, (s.pc t).writing = some b → k.type = .write ∧ k.buf = b) :
    s.Effect s' t := by
  have hpend : pc.pending = some (k, req) := by rcases hpc with rfl | rfl <;> rfl
  have hunder : ∀ type, pc.under type = if k.type = type then some k.buf else none := by
    rcases hpc with rfl | rfl <;> exact fun _ => rfl
  refine .goes _ h ⟨fun k' req' h' => ?_, fun type b h' => ?_, fun type b h' => ?_, fun b h' => Or.inl ?_⟩
  · cases hpend.symm.trans h'
    exact Or.inr ha
  · rw [hunder, Option.ite_none_right_eq_some, Option.some.injEq] at h'
    exact Or.inr ⟨k, req, h'.1, h'.2, ha⟩
  · rcases hpc with rfl | rfl <;> cases h'
  · obtain ⟨hty, hb⟩ := hw b h'
    rcases hpc with rfl | rfl <;> simp only [BufPc.writing, if_pos hty, hb]

variable [DecidableEq D] {disks : Disks D}

/-- A turn of the loop of `device_request` ends in front of `do_request`, or blocked. -/
theorem turns_checkRequest (disks : Disks D) (s : Buffers T D α) (t : T) (k : Cont)
    (req : Request T (ℕ × Key)) : s.Turns (s.checkRequest disks t k req) t (.serve k req) ∨
      s.Still (s.checkRequest disks t k req) := by
  unfold checkRequest
  dsimp only
  split_ifs
  · exact Or.inr still_block
  · have hdev (dev : D → Device T (ℕ × Key)) : s.Still { s with dev := dev } := ⟨rfl, rfl, rfl, rfl, rfl⟩
    exact Or.inl ((hdev _).goto.still still_bufferLock)

theorem turns_deviceRequest (h : s.deviceRequest disks t bf type k = .ok s') :
    ∃ pc req, s.Turns s' t pc ∧ (pc = .check k req ∨ pc = .serve k req) ∧
      req.type = type ∧ req.buf = (bf, (s.store bf).key) := by
  obtain ⟨req, htype, hbuf, -, rfl⟩ := deviceRequest_eq_ok h
  have hs : s.Turns (s.listRequest disks t k req) t (.check k req) :=
    Still.goto ⟨rfl, rfl, rfl, rfl, rfl⟩
  rcases turns_checkRequest disks (s.listRequest disks t k req) t k req with h | h
  · exact ⟨_, req, hs.turns h, Or.inr rfl, htype, hbuf⟩
  · exact ⟨_, req, hs.still h, Or.inl rfl, htype, hbuf⟩

theorem effect_checkRequest (hpc : s.pc t = .check k req) :
    s.Effect (s.checkRequest disks t k req) t := by
  rcases turns_checkRequest disks s t k req with h | h
  · refine .goes _ h ⟨fun k' req' h => Or.inl ?_, fun type b h => Or.inl ?_, nofun,
      fun b h => Or.inl ?_⟩
    · rw [hpc]
      exact h
    · rw [hpc]
      exact h
    · rw [hpc] at h
      exact h
  · exact .still h

theorem effect_finishRequest (hpc : s.pc t = .served k req)
    (h : s.finishRequest disks t k req = .ok s') : s.Effect s' t := by
  obtain ⟨⟨dev, next⟩, -, h⟩ := bind_eq_ok.1 h
  have hu : s.Still (s.bufferUnlock req.buf.1) := still_bufferUnlock
  have hs : s.Turns ({ s.bufferUnlock req.buf.1 with
      dev := update (s.bufferUnlock req.buf.1).dev (disks.parent req.buf.2.1) dev }.goto t (.back k))
      t (.back k) := Still.goto ⟨hu.store, hu.disk, hu.ptr, hu.pc, hu.held⟩
  have hs' : s.Turns s' t (.back k) := by
    cases next with
    | none =>
      cases h
      exact hs
    | some next =>
      cases h
      exact hs.still still_unblock
  refine .goes (.back k) hs' ⟨nofun, fun type b h => Or.inl ?_, fun type b h => ?_, fun b h => Or.inl ?_⟩
  · rw [hpc]
    exact h
  · rw [hpc]
    exact h
  · rw [hpc] at h
    exact h

theorem effect_getblkWrite (h : s.Still s') (hfind : s'.findFromHashTable key = s.findFromHashTable key)
    (hb : bf < s.buffer_ptr) (hc : (s.buf bf).b_count = 0) (hw : (s.pc t).writing = none)
    (hs : s'.getblkWrite disks t key bf = .ok s'') : s.Effect s'' t := by
  have hd : (s'.buf bf).b_dirty = (s.buf bf).b_dirty := congrArg Store.dirty (congrFun h.store bf)
  have hkey : s'.store bf = s.store bf := congrFun h.store bf
  unfold getblkWrite at hs
  split_ifs at hs with hdirty
  · obtain ⟨pc, req, hgo, hpc, htype, hbuf⟩ := turns_deviceRequest hs
    refine (h.turns hgo).effect_asks hpc ⟨htype, ?_, hb, nofun,
      fun _ => ⟨hd.symm.trans hdirty, hc⟩⟩ fun b h' => ?_
    · rw [hbuf, hkey]
      rfl
    · rw [hw] at h'
      cases h'
  · cases hs
    unfold getblkFind
    rw [hfind]
    cases hf : s.findFromHashTable key with
    | some _ => exact h.goto.effect rfl (fun _ => rfl) hw
    | none =>
      have hclean : (s.buf bf).b_dirty = false := hd ▸ Bool.not_eq_true _ ▸ hdirty
      exact h.effect_findNew hf hb hc hclean hw

theorem effect_getblk (H : s.Keyed) (hpc : s.pc t = .getblk key)
    (h : s.getblk disks t key = .ok s') : s.Effect s' t := by
  have hw : (s.pc t).writing = none := by rw [hpc]; rfl
  unfold getblk at h
  cases hf : s.findFromHashTable key with
  | some bf =>
    rw [hf] at h
    cases h
    have hs : s.Still (s.setBuf bf fun b => { b with b_count := b.b_count + 1 }) := still_setBuf rfl
    exact hs.goto.effect rfl (fun _ => rfl) hw
  | none =>
  rw [hf] at h
  by_cases hroom : Room s.buffer_ptr
  · rw [getNewBuffer, if_pos hroom] at h
    cases h
    refine .take s.buffer_ptr key hf (Or.inr ⟨rfl, rfl⟩) (fun c hc => ?_) ⟨(s.store s.buffer_ptr).data, ?_⟩
      rfl rfl rfl
    · rw [hw] at hc
      cases hc
    · refine (store_findNew _ s.buffer_ptr key).trans ?_
      ext1 c
      by_cases hc : c = s.buffer_ptr
      · simp only [hc, store, update_self]
      · simp only [store, update_of_ne hc]
  rw [getNewBuffer, if_neg hroom] at h
  dsimp only at h
  cases hs : scan s.buf s.free_list none with
  | mk o r =>
  rw [hs] at h
  cases o with
  | none =>
    cases h
    have hst : s.Still { s with wait_list := t :: s.wait_list } := ⟨rfl, rfl, rfl, rfl, rfl⟩
    exact (hst.goto.still still_block).effect rfl (fun _ => rfl) hw
  | some bf =>
  obtain ⟨hc, hm⟩ := scan_spec hs fun c h => nomatch h
  have hb : bf < s.buffer_ptr := (H.mem_free bf).1 (hm.resolve_right fun h => nomatch h)
  cases r with
  | true =>
    cases h
    exact (Still.refl s).effect_findNew hf hb hc (scan_clean hs) hw
  | false =>
  dsimp only at h
  split_ifs at h with hl
  · exact effect_getblkWrite (Still.refl s) rfl hb hc hw h
  · obtain ⟨-, h⟩ := cassert_bind_eq_ok.1 h
    cases h
    have hst : s.Still (s.setBuf bf fun b => { b with waiter := some t }) := still_setBuf rfl
    exact (hst.goto.still still_block).effect rfl (fun _ => rfl) hw

theorem effect_getblkWaiter (H : s.Keyed) (hpc : s.pc t = .waiter key bf)
    (h : s.getblkWaiter disks t key bf = .ok s') : s.Effect s' t := by
  have hw : (s.pc t).writing = none := by rw [hpc]; rfl
  have hb : bf < s.buffer_ptr := H.named _ ⟨t, Or.inl (by rw [hpc]; rfl)⟩
  have hs : s.Still (s.setBuf bf fun b => { b with waiter := none }) := still_setBuf rfl
  have hkeys : s.SameKeys (s.setBuf bf fun b => { b with waiter := none }) := sameKeys_setBuf rfl
  have hcount : ((s.setBuf bf fun b => { b with waiter := none }).buf bf).b_count =
      (s.buf bf).b_count := count_setBuf rfl bf
  unfold getblkWaiter at h
  dsimp only at h
  by_cases hc : ((s.setBuf bf fun b => { b with waiter := none }).buf bf).b_count ≠ 0
  · rw [if_pos hc] at h
    cases h
    exact hs.goto.effect rfl (fun _ => rfl) hw
  · rw [if_neg hc] at h
    replace hc : (s.buf bf).b_count = 0 := hcount ▸ not_not.1 hc
    exact effect_getblkWrite hs (hkeys.find key) hb hc hw h

theorem effect_breadValid (H : s.Keyed) (hpc : s.pc t = .bread bf)
    (h : s.breadValid disks t bf = .ok s') : s.Effect s' t := by
  have hb : bf < s.buffer_ptr := H.named _ ⟨t, Or.inl (by rw [hpc]; rfl)⟩
  unfold breadValid at h
  split_ifs at h with hv
  · cases h
    exact .hold bf hpc hv rfl rfl rfl rfl rfl
  · obtain ⟨pc, req, hgo, hpc', htype, hbuf⟩ := turns_deviceRequest h
    refine hgo.effect_asks hpc' ⟨htype, hbuf, hb, fun _ => Bool.not_eq_true _ ▸ hv, nofun⟩
      fun b h' => ?_
    rw [hpc] at h'
    cases h'

theorem effect_brelseRest (H : s.Keyed) (hpc : s.pc t = .brelse bf)
    (h : s.brelseRest disks t bf = .ok s') : s.Effect s' t := by
  have hb : bf < s.buffer_ptr := H.named _ ⟨t, Or.inl (by rw [hpc]; rfl)⟩
  have hw : ∀ b, (s.pc t).writing = some b → bf = b := fun b h' => by
    rw [hpc] at h'
    exact Option.some.inj h'
  unfold brelseRest at h
  split_ifs at h with hc hd
  · cases h
    exact .goes .out (Still.refl s).goto ⟨nofun, nofun, nofun,
      fun b h => Or.inr (Or.inr (hw b h ▸ hc))⟩
  · obtain ⟨pc, req, hgo, hpc', htype, hbuf⟩ := turns_deviceRequest h
    exact hgo.effect_asks hpc' ⟨htype, hbuf, hb, nofun, fun _ => ⟨hd, not_not.1 hc⟩⟩
      fun b h => ⟨rfl, hw b h⟩
  · cases h
    refine .goes .out turns_wakeup ⟨nofun, nofun, nofun, fun b h => Or.inr (Or.inl ?_)⟩
    rw [← hw b h]
    exact Bool.not_eq_true _ ▸ hd

end Buffers

open Buffers

variable {T D α : Type} {s s' : Buffers T D α} {t : T} {disks : Disks D}

/-! ## What the tasks have done -/

/-- What the modifications up to now have made of each block, and the block that the bytes of each
    buffer belong to. -/
structure Hist (α : Type) where
  content : Key → α
  origin : ℕ → Option Key

/-- A transfer from the disk and a modification make the bytes of a buffer those of a block. -/
def Hist.after (h : Hist α) (s : Buffers T D α) (f : α → α) : BufAct T α → Hist α
  | .modify _ bf _ =>
    let key := (s.buf bf).key
    { content := update h.content key (f (h.content key)), origin := update h.origin bf (some key) }
  | .run t =>
    match s.pc t with
    | .serve _ req =>
      if req.type = .read then { h with origin := update h.origin req.buf.1 (some req.buf.2) } else h
    | _ => h
  | _ => h

/-- Only a transfer is remembered of the steps in the functions of the cache. -/
theorem Hist.after_run {h : Hist α} {f : α → α} (hpc : ∀ k req, s.pc t ≠ .serve k req) :
    h.after s f (.run t) = h := by
  unfold after
  dsimp only
  split
  · exact absurd ‹_› (hpc _ _)
  · rfl

theorem Hist.after_serve {h : Hist α} {f : α → α} {k : Cont} {req : Request T (ℕ × Key)}
    (hpc : s.pc t = .serve k req) : h.after s f (.run t) =
      if req.type = .read then { h with origin := update h.origin req.buf.1 (some req.buf.2) } else h := by
  unfold after
  dsimp only
  rw [hpc]

variable [DecidableEq T] [DecidableEq D]

/-- **What a step of a task does to the data**: it transfers a block, or it has one of the effects. -/
theorem BufStep.effect (H : s.Keyed) (h : BufStep disks s (.run t) s') :
    (∃ k req, s.pc t = .serve k req ∧ s.Serves s' t k req) ∨
      (∀ k req, s.pc t ≠ .serve k req) ∧ s.Effect s' t := by
  cases h with
  | getblk hpc _ h => exact Or.inr ⟨by simp [hpc], effect_getblk H hpc h⟩
  | waiter hpc _ h => exact Or.inr ⟨by simp [hpc], effect_getblkWaiter H hpc h⟩
  | breadValid hpc h => exact Or.inr ⟨by simp [hpc], effect_breadValid H hpc h⟩
  | brelseRest hpc h => exact Or.inr ⟨by simp [hpc], effect_brelseRest H hpc h⟩
  | check hpc _ => exact Or.inr ⟨by simp [hpc], effect_checkRequest hpc⟩
  | serve hpc _ => exact Or.inl ⟨_, _, hpc, serves_doRequest⟩
  | finish hpc h => exact Or.inr ⟨by simp [hpc], effect_finishRequest hpc h⟩
  | back hpc => exact Or.inr ⟨by simp [hpc], effect_goBack H hpc⟩

/-! ## Runs -/

/-- A task releases and modifies only what it holds. -/
def Proper (s : Buffers T D α) (a : BufAct T α) : Prop :=
  Owned s a ∧ ∀ t bf data, a = .modify t bf data → bf ∈ s.held t

/-- A step, with the function that a modification applies to the bytes it finds. -/
structure HistStep (disks : Disks D) (p : Buffers T D α × Hist α) (l : BufAct T α × (α → α))
    (p' : Buffers T D α × Hist α) : Prop where
  proper : Proper p.1 l.1
  step : BufStep disks p.1 l.1 p'.1
  data : ∀ t bf data, l.1 = .modify t bf data → data = l.2 (p.1.buf bf).b_data
  hist : p'.2 = p.2.after p.1 l.2 l.1

/-- The runs of tasks that keep to `bread`, a modification and `brelse`, with what they have done. -/
def histSys (T D α : Type) [DecidableEq T] [DecidableEq D] (disks : Disks D) :
    Sys (Buffers T D α × Hist α) (BufAct T α × (α → α)) where
  init p := (bufSys T D α disks).init p.1 ∧ p.2.content = p.1.disk ∧ ∀ b, p.2.origin b = none
  step := HistStep disks

/-- No two tasks have a write of the same buffer under way. -/
def OneWriter (s : Buffers T D α) : Prop :=
  ∀ t u b, (s.pc t).under .write = some b → (s.pc u).under .write = some b → t = u

/-- A buffer is not modified while a read of it is under way, nor between the transfer of a write of
    it and `b_dirty = false`. -/
def KeepsClear (s : Buffers T D α) (a : BufAct T α) : Prop :=
  ∀ t b data, a = .modify t b data → ∀ u, (s.pc u).under .read ≠ some b ∧ (s.pc u).moved .write ≠ some b

/-! ## The steps, with what they are remembered for -/

variable {h : Hist α} {bf : ℕ}

theorem HistStep.of_run (hs : BufStep disks s (.run t) s') :
    HistStep disks (s, h) (.run t, id) (s', h.after s id (.run t)) :=
  ⟨⟨fun _ _ h => (nomatch h), fun _ _ _ h => (nomatch h)⟩, hs, fun _ _ _ h => (nomatch h), rfl⟩

theorem HistStep.of_bread (key : Key) (hpc : s.pc t = .out) :
    HistStep disks (s, h) (.bread t key, id) (s.goto t (.getblk key), h) :=
  ⟨⟨fun _ _ h => (nomatch h), fun _ _ _ h => (nomatch h)⟩, .bread hpc, fun _ _ _ h => (nomatch h), rfl⟩

theorem HistStep.of_modify (t : T) (bf : ℕ) (f : α → α) (hpc : s.pc t = .out) (hb : bf < s.buffer_ptr)
    (hm : bf ∈ s.held t) : HistStep disks (s, h) (.modify t bf (f (s.buf bf).b_data), f)
      (s.setBuf bf fun b => { b with b_data := f (s.buf bf).b_data, b_dirty := true },
        h.after s f (.modify t bf (f (s.buf bf).b_data))) := by
  refine ⟨⟨fun _ _ h => (nomatch h), fun u b data h => ?_⟩, .modify hpc hb, fun u b data h => ?_, rfl⟩
  · cases h
    exact hm
  · cases h
    rfl

theorem HistStep.of_brelse (t : T) (bf : ℕ) (hpc : s.pc t = .out) (hb : bf < s.buffer_ptr) (hm : bf ∈ s.held t) :
    HistStep disks (s, h) (.brelse t bf, id)
      ({ s.setBuf bf fun b => { b with b_count := b.b_count - 1 } with
        held := update s.held t ((s.held t).erase bf) }.goto t (.brelse bf), h) := by
  refine ⟨⟨fun u b h => ?_, fun _ _ _ h => (nomatch h)⟩, .brelse hpc hb, fun _ _ _ h => (nomatch h), rfl⟩
  cases h
  exact hm

end Rdix
