/-
  A write to a block that its buffer no longer has (fs/buffer.c: getblk, bwrite, brelse).

  One task holds all buffers that there is memory for, but one, which another task is reading.  The
  first one modifies block 0 and releases it, and its write waits for the disk.  A third task needs a
  buffer: `getblk` writes the one of block 0, too, and takes it for another block.  Tasks run in turn
  only where one of them is blocked.

  * `PoolHeld.ask`, `PoolReading.more`: one more buffer is read, and held;
  * `scan_only`: which buffer `getblk` chooses;
  * `write_back_wrong`: the write of the first task comes to a buffer of another block.
-/
import Rdix.Fs.LostUpdate

namespace Rdix

open Function Transition Buffers

/-- The three tasks: one holds the buffers, one takes one from it, one reads. -/
inductive Caller
  | holder | taker | reader
deriving DecidableEq

instance : Fintype Caller := ⟨{.holder, .taker, .reader}, fun t => by cases t <;> decide⟩

/-- The runs of three tasks on one disk. -/
abbrev poolSys : Sys (Buffers Caller Unit ℕ × Hist ℕ) (BufAct Caller ℕ × (ℕ → ℕ)) :=
  histSys Caller Unit ℕ pairDisk

/-- Block `n` of device 5. -/
abbrev block5 (n : ℕ) : Key := (5, BitVec.ofNat 32 n)

theorem block5_inj {m n : ℕ} (hm : m < 2 ^ 32) (hn : n < 2 ^ 32) (h : block5 m = block5 n) : m = n := by
  have h := congrArg BitVec.toNat (congrArg Prod.snd h)
  rwa [BitVec.toNat_ofNat, BitVec.toNat_ofNat, Nat.mod_eq_of_lt hm, Nat.mod_eq_of_lt hn] at h

/-- What task `t` asks the disk for, of the buffer `b` of block `n`. -/
abbrev ask5 (type : ReqType) (t : Caller) (b n : ℕ) : Request Caller (ℕ × Key) :=
  ⟨type, u32 (((block5 n).2 * 2).toNat + 0), (b, block5 n), t⟩

section Steps
variable {s s' : Buffers Caller Unit ℕ} {h : Hist ℕ} {t : Caller} {k : Cont} {b n : ℕ} {key : Key}
  {req : Request Caller (ℕ × Key)} {type : ReqType}

theorem pool_run (hr : poolSys.Reach (s, h)) (hs : BufStep pairDisk s (.run t) s') :
    poolSys.Reach (s', h.after s id (.run t)) :=
  hr.step (.of_run hs)

theorem pool_keyed {p : Buffers Caller Unit ℕ × Hist ℕ} (hr : poolSys.Reach p) : p.1.Keyed := by
  refine hr.invariant (I := fun p => p.1.Keyed) (fun p hp => (regular_init hp).keyed) fun p l p' hI hs => ?_
  have hs : HistStep pairDisk p l p' := hs
  exact (hs.step.keeps hI).keyed hI

theorem checkRequest_free (k : Cont) (hfree : (s.dev ()).do_request = false)
    (hlock : (s.buf req.buf.1).b_lock = ⟨true, []⟩) :
    s.checkRequest pairDisk t k req =
      ({ s with dev := update s.dev () { s.dev () with do_request := true } }.goto t (.serve k req)).setBuf
        req.buf.1 fun b => { b with b_lock := ⟨false, []⟩ } := by
  have hfree : ¬ (s.dev ()).do_request = true := by simp [hfree]
  unfold checkRequest bufferLock
  rw [if_neg hfree]
  exact if_pos (by simp [goto, hlock])

theorem checkRequest_busy (k : Cont) (hbusy : (s.dev ()).do_request = true) :
    s.checkRequest pairDisk t k req = s.block t := by
  unfold checkRequest
  exact if_pos hbusy

theorem bufferUnlock_alone (hlock : (s.buf b).b_lock.waiter = []) (hwaiter : (s.buf b).waiter = none) :
    s.bufferUnlock b = s.setBuf b fun b => { b with b_lock := ⟨true, []⟩ } := by
  unfold bufferUnlock
  rw [hwaiter]
  show s.mutexUnlock b = _
  unfold mutexUnlock
  dsimp only
  rw [hlock]
  rfl

/-- `device_request` for a buffer of device 5, up to its first turn. -/
theorem deviceRequest_ok (hkey : (s.buf b).key = block5 n) : s.deviceRequest pairDisk t b type k =
    .ok ((s.listRequest pairDisk t k (ask5 type t b n)).checkRequest pairDisk t k (ask5 type t b n)) := by
  unfold deviceRequest ask5
  rw [hkey]
  rfl

/-- A task is behind `do_request`: nobody has waited for the buffer, and `next` is unblocked. -/
structure Ended (s s' : Buffers Caller Unit ℕ) (t : Caller) (k : Cont) (b : ℕ)
    (dev : Device Caller (ℕ × Key)) (next : Option (Request Caller (ℕ × Key))) : Prop where
  buf : ∀ c, ∃ data, s'.buf c = { s.buf c with
    b_data := data, b_lock := if c = b then ⟨true, []⟩ else (s.buf c).b_lock }
  ptr : s'.buffer_ptr = s.buffer_ptr
  pc : s'.pc = update s.pc t (.back k)
  ready : s'.ready = next.elim s.ready fun next => update s.ready next.task true
  held : s'.held = s.held
  dev : s'.dev () = dev

/-- **A request is transferred**, and the next one is chosen. -/
theorem serve_finish {d : Device Caller (ℕ × Key)} {r : Option (Request Caller (ℕ × Key))}
    (hr : poolSys.Reach (s, h)) (hpc : s.pc t = .serve k req) (hready : s.ready t = true)
    (hfin : (s.dev ()).finish req = .ok (d, r)) (hlock : (s.buf req.buf.1).b_lock.waiter = [])
    (hwaiter : (s.buf req.buf.1).waiter = none) :
    ∃ s' h', poolSys.Reach (s', h') ∧ Ended s s' t k req.buf.1 d r := by
  obtain ⟨s₁, h₁', h₁, hbuf, hptr, hpc₁, hready₁, hheld, hdev⟩ : ∃ s₁ h', poolSys.Reach (s₁, h') ∧
      (∀ c, ∃ data, s₁.buf c = { s.buf c with b_data := data }) ∧ s₁.buffer_ptr = s.buffer_ptr ∧
      s₁.pc = update s.pc t (.served k req) ∧ s₁.ready = s.ready ∧ s₁.held = s.held ∧ s₁.dev () = s.dev () := by
    refine ⟨_, _, pool_run hr (.serve hpc hready), fun c => ?_, ?_⟩
    · unfold doRequest
      cases req.type with
      | read =>
        by_cases hc : c = req.buf.1
        · exact ⟨s.disk req.buf.2, by rw [hc]; exact update_self ..⟩
        · exact ⟨(s.buf c).b_data, update_of_ne hc ..⟩
      | write => exact ⟨(s.buf c).b_data, rfl⟩
    · unfold doRequest
      cases req.type with
      | read => exact ⟨rfl, rfl, rfl, rfl, rfl⟩
      | write => exact ⟨rfl, rfl, rfl, rfl, rfl⟩
  obtain ⟨data, hdata⟩ := hbuf req.buf.1
  let s₂ := ({ s₁.setBuf req.buf.1 fun b => { b with b_lock := ⟨true, []⟩ } with
    dev := update s₁.dev () d } : Buffers Caller Unit ℕ).goto t (.back k)
  have hrun : s₁.finishRequest pairDisk t k req =
      .ok (r.elim s₂ fun next => s₂.unblock next.task) := by
    have hfin' : ((s₁.setBuf req.buf.1 fun b => { b with b_lock := ⟨true, []⟩ }).dev ()).finish req =
      .ok (d, r) := (congrArg (Device.finish · req) hdev).trans hfin
    unfold finishRequest
    rw [bufferUnlock_alone (by rw [hdata]; exact hlock) (by rw [hdata]; exact hwaiter)]
    dsimp only
    rw [hfin', ok_bind]
    rfl
  have hbuf₂ : ∀ c, ∃ data, s₂.buf c = { s.buf c with
      b_data := data, b_lock := if c = req.buf.1 then ⟨true, []⟩ else (s.buf c).b_lock } := by
    intro c
    obtain ⟨data', hdata'⟩ := hbuf c
    refine ⟨data', ?_⟩
    show update s₁.buf req.buf.1 _ c = _
    by_cases hc : c = req.buf.1
    · rw [hc, update_self, if_pos rfl, ← hc, hdata']
    · rw [update_of_ne hc, if_neg hc, hdata']
  have hpc₂ : s₂.pc = update s.pc t (.back k) := by
    show update s₁.pc t (.back k) = _
    rw [hpc₁, update_idem]
  have h₂ := pool_run h₁ (.finish (by rw [hpc₁]; exact update_self ..) hrun)
  refine ⟨_, _, h₂, ?_⟩
  cases r with
  | none => exact ⟨hbuf₂, hptr, hpc₂, hready₁, hheld, rfl⟩
  | some next =>
    refine ⟨hbuf₂, hptr, hpc₂, ?_, hheld, rfl⟩
    show update s₁.ready next.task true = update s.ready next.task true
    rw [hready₁]

end Steps

/-! ## The pool -/

/-- The first task holds blocks 0 to `n - 1`, and there are no other buffers. -/
structure PoolHeld (s : Buffers Caller Unit ℕ) (n : ℕ) : Prop where
  ptr : s.buffer_ptr = n
  pc : ∀ t, s.pc t = .out
  ready : ∀ t, s.ready t = true
  dev : ∃ direct, s.dev () = ⟨false, direct, []⟩
  held : ∀ b < n, b ∈ s.held .holder
  key : ∀ b < n, (s.buf b).key = block5 b
  idle : ∀ b < n, (s.buf b).b_count = 1 ∧ (s.buf b).b_lock = ⟨true, []⟩ ∧ (s.buf b).waiter = none

/-- And task `t` is reading block `n` into one more buffer. -/
structure PoolReading (s : Buffers Caller Unit ℕ) (n : ℕ) (t : Caller) : Prop where
  ptr : s.buffer_ptr = n + 1
  pc : s.pc t = .serve (.bread n) (ask5 .read t n n) ∧ ∀ u ≠ t, s.pc u = .out
  ready : ∀ t, s.ready t = true
  dev : ∃ direct, s.dev () = ⟨true, direct, [ask5 .read t n n]⟩
  held : ∀ b < n, b ∈ s.held .holder
  key : ∀ b < n + 1, (s.buf b).key = block5 b
  idle : ∀ b < n + 1, (s.buf b).b_count = 1 ∧
    (s.buf b).b_lock = (if b = n then ⟨false, []⟩ else ⟨true, []⟩) ∧ (s.buf b).waiter = none

section Pool
variable {s s' : Buffers Caller Unit ℕ} {h : Hist ℕ} {n : ℕ}

/-- The next block is not found. -/
theorem next_not_found (H : s.Keyed) (hptr : s.buffer_ptr = n) (hn : n < 2 ^ 32)
    (hkey : ∀ b < n, (s.buf b).key = block5 b) : s.findFromHashTable (block5 n) = none := by
  cases hf : s.findFromHashTable (block5 n) with
  | none => rfl
  | some b =>
    obtain ⟨hb, hk⟩ := findFromHashTable_some H hf
    rw [hptr] at hb
    rw [hkey b hb] at hk
    exact absurd (block5_inj (hb.trans hn) hn hk) hb.ne

/-- **One more block is read**, while there is memory for its buffer. -/
theorem PoolHeld.ask (hr : poolSys.Reach (s, h)) (H : PoolHeld s n) (hroom : Room n) (t : Caller) :
    ∃ s' h', poolSys.Reach (s', h') ∧ PoolReading s' n t := by
  have hlt : n < 2 ^ 32 := by
    unfold Room at hroom
    omega
  obtain ⟨direct, hdev⟩ := H.dev
  let s₁ := s.goto t (.getblk (block5 n))
  have h₁ : poolSys.Reach (s₁, h) := hr.step (.of_bread (block5 n) (H.pc t))
  have hfind : s₁.findFromHashTable (block5 n) = none := next_not_found (pool_keyed h₁) H.ptr hlt H.key
  let new : Buffer Caller ℕ := ⟨(s.buf n).b_data, 0, BitVec.ofInt 32 EOF, false, ⟨true, []⟩, 0, false, none⟩
  let s₂ := (findNew { s₁ with buf := update s₁.buf n new, buffer_ptr := n + 1 } n (block5 n)).goto t (.bread n)
  have hget : s₁.getblk pairDisk t (block5 n) = .ok s₂ := by
    have hptr : s₁.buffer_ptr = n := H.ptr
    unfold getblk
    rw [hfind]
    dsimp only
    unfold getNewBuffer
    rw [hptr, if_pos hroom]
    rfl
  have h₂ := pool_run h₁ (.getblk (update_self ..) (H.ready t) hget)
  have hnew : s₂.buf n = ⟨(s.buf n).b_data, (block5 n).2, (block5 n).1, false, ⟨true, []⟩, 1, false, none⟩ := by
    simp only [s₂, s₁, new, findNew, bufferInsert, bufferRemove, setBuf, goto, update_self]
  have hold : ∀ c, c ≠ n → s₂.buf c = s.buf c := by
    intro c hc
    simp only [s₂, s₁, findNew, bufferInsert, bufferRemove, setBuf, goto, update_of_ne hc]
  have hdev₂ : s₂.dev () = ⟨false, direct, []⟩ := hdev
  let s₃ := s₂.listRequest pairDisk t (.bread n) (ask5 .read t n n)
  have hdev₃ : s₃.dev () = ⟨false, direct, [ask5 .read t n n]⟩ := by
    show update s₂.dev () ((s₂.dev ()).insert _) () = _
    rw [update_self, hdev₂]
    rfl
  have hread : s₂.breadValid pairDisk t n = .ok (s₃.checkRequest pairDisk t (.bread n) (ask5 .read t n n)) := by
    unfold breadValid
    rw [hnew]
    exact (if_neg Bool.false_ne_true).trans (deviceRequest_ok (by rw [hnew]; rfl))
  have h₃ := pool_run h₂ (.breadValid (update_self ..) hread)
  rw [checkRequest_free _ (by rw [hdev₃]) (congrArg Buffer.b_lock hnew)] at h₃
  let s₄ := ({ s₃ with dev := update s₃.dev () { s₃.dev () with do_request := true } }.goto t
    (.serve (.bread n) (ask5 .read t n n))).setBuf n fun b => { b with b_lock := ⟨false, []⟩ }
  have h₄ : poolSys.Reach (s₄, _) := h₃
  have hlocked : ∀ b, b ≠ n ∧ s₄.buf b = s.buf b ∨ b = n ∧ s₄.buf b = { s₂.buf n with b_lock := ⟨false, []⟩ } :=
    fun b => (ne_or_eq b n).imp (fun hb => ⟨hb, (update_of_ne hb ..).trans (hold b hb)⟩)
      fun hb => ⟨hb, by rw [hb]; exact update_self ..⟩
  refine ⟨s₄, _, h₄, rfl, ⟨update_self .., fun u hu => ?_⟩, H.ready, ⟨direct, ?_⟩, H.held, fun b hb => ?_,
    fun b hb => ?_⟩
  · show update (update (update (update s.pc t _) t _) t _) t _ u = _
    simp only [update_of_ne hu]
    exact H.pc u
  · show update s₃.dev () { s₃.dev () with do_request := true } () = _
    rw [update_self, hdev₃]
  · rcases hlocked b with ⟨hbn, he⟩ | ⟨rfl, he⟩
    · exact (congrArg Buffer.key he).trans (H.key b (by omega))
    · rw [hnew] at he
      exact congrArg Buffer.key he
  · rcases hlocked b with ⟨hbn, he⟩ | ⟨rfl, he⟩
    · rw [he, if_neg hbn]
      exact H.idle b (by omega)
    · rw [hnew] at he
      rw [he, if_pos rfl]
      exact ⟨rfl, rfl, rfl⟩

theorem finish_only (direct : Direct) (req : Request Caller (ℕ × Key)) :
    ∃ direct', (⟨true, direct, [req]⟩ : Device Caller (ℕ × Key)).finish req = .ok (⟨false, direct', []⟩, none) := by
  cases direct with
  | fore => exact ⟨.back, by simp [Device.finish, getNextReq, nextOf, prevOf, cassert, ok_bind, pure_eq_ok]⟩
  | back => exact ⟨.fore, by simp [Device.finish, getNextReq, nextOf, prevOf, cassert, ok_bind, pure_eq_ok]⟩

/-- **And held**, by the first task. -/
theorem PoolReading.more (hr : poolSys.Reach (s, h)) (H : PoolReading s n .holder) :
    ∃ s' h', poolSys.Reach (s', h') ∧ PoolHeld s' (n + 1) := by
  obtain ⟨direct, hdev⟩ := H.dev
  obtain ⟨direct', hfin⟩ := finish_only direct (ask5 .read .holder n n)
  obtain ⟨-, hlock, hwaiter⟩ := H.idle n (Nat.lt_succ_self n)
  obtain ⟨s₁, h₁', h₁, hend⟩ := serve_finish hr H.pc.1 (H.ready .holder) (hdev ▸ hfin)
    (by rw [hlock, if_pos rfl]) hwaiter
  have h₂ := pool_run h₁ (.back (by rw [hend.pc]; exact update_self ..))
  have hbuf : ∀ b < n + 1, ((s₁.goBack .holder (.bread n)).buf b).key = (s.buf b).key ∧
      ((s₁.goBack .holder (.bread n)).buf b).b_count = (s.buf b).b_count ∧
      ((s₁.goBack .holder (.bread n)).buf b).b_lock = ⟨true, []⟩ ∧
      ((s₁.goBack .holder (.bread n)).buf b).waiter = (s.buf b).waiter := by
    intro b hb
    obtain ⟨data, hdata⟩ := hend.buf b
    by_cases hbn : b = n
    · simp only [goBack, goto, setBuf, hbn, update_self, Buffer.key]
      rw [← hbn, hdata]
      exact ⟨rfl, rfl, if_pos hbn, rfl⟩
    · simp only [goBack, goto, setBuf, update_of_ne hbn, Buffer.key]
      rw [hdata]
      exact ⟨rfl, rfl, (if_neg hbn).trans ((H.idle b hb).2.1.trans (if_neg hbn)), rfl⟩
  refine ⟨_, _, h₂, hend.ptr.trans H.ptr, fun u => ?_, fun u => ?_, ⟨direct', hend.dev⟩, fun b hb => ?_,
    fun b hb => ?_, fun b hb => ?_⟩
  · show update s₁.pc .holder .out u = .out
    by_cases hu : u = .holder
    · rw [hu, update_self]
    · rw [update_of_ne hu, hend.pc, update_of_ne hu]
      exact H.pc.2 u hu
  · exact (congrFun hend.ready u).trans (H.ready u)
  · show b ∈ update s₁.held .holder (n :: s₁.held .holder) .holder
    rw [update_self, List.mem_cons, hend.held]
    exact (Nat.lt_succ_iff_lt_or_eq.1 hb).elim (fun hb => Or.inr (H.held b hb)) Or.inl
  · exact (hbuf b hb).1.trans (H.key b hb)
  · obtain ⟨-, hcount, hlock, hwaiter⟩ := hbuf b hb
    exact ⟨hcount.trans (H.idle b hb).1, hlock, hwaiter.trans (H.idle b hb).2.2⟩

/-- A cache without buffers, and three tasks. -/
def emptyPool : Buffers Caller Unit ℕ where
  buf _ := ⟨0, 0, 0, false, ⟨true, []⟩, 0, false, none⟩
  buffer_ptr := 0
  free_list := []
  hash_table _ := []
  wait_list := []
  disk _ := 0
  dev _ := ⟨false, .fore, []⟩
  pc _ := .out
  ready _ := true
  held _ := []

theorem pool_held (n : ℕ) (hn : n ≤ 3826) : ∃ s h, poolSys.Reach (s, h) ∧ PoolHeld s n := by
  induction n with
  | zero =>
    have h₀ : poolSys.Reach (emptyPool, ⟨fun _ => 0, fun _ => none⟩) :=
      .init ⟨⟨rfl, rfl, fun _ => rfl, rfl, fun _ => rfl, fun _ => rfl, fun _ => rfl, fun _ => rfl⟩, rfl,
        fun _ => rfl⟩
    exact ⟨_, _, h₀, rfl, fun _ => rfl, fun _ => rfl, ⟨.fore, rfl⟩, nofun, nofun, nofun⟩
  | succ n ih =>
    obtain ⟨s, h, hr, H⟩ := ih (by omega)
    obtain ⟨s', h', hr', H'⟩ := H.ask hr (by unfold Room; omega) .holder
    exact H'.more hr'

end Pool

/-! ## The three tasks -/

section Tasks
variable {s s' : Buffers Caller Unit ℕ} {h : Hist ℕ} {t : Caller} {b : ℕ} {dev dev' : Device Caller (ℕ × Key)}

/-- The write of the first task, which has released block 0. -/
abbrev firstWrite : Request Caller (ℕ × Key) := ask5 .write .holder 0 0

/-- The write of `getblk`, for the second task. -/
abbrev victimWrite : Request Caller (ℕ × Key) := ask5 .write .taker 0 0

/-- The read of the third task. -/
abbrev lastRead : Request Caller (ℕ × Key) := ask5 .read .reader 3825 3825

/-- `getblk` chooses the only buffer without references, though it is dirty. -/
theorem scan_only {buf : ℕ → Buffer Caller ℕ} {l : List ℕ} {acc : Option ℕ}
    (hcount : (buf b).b_count = 0) (hwaiter : (buf b).waiter = none) (hscore : score (buf b) ≠ 0)
    (h : ∀ c ∈ l, c ≠ b → (buf c).b_count ≠ 0) (hacc : acc = none ∧ b ∈ l ∨ acc = some b) :
    scan buf l acc = (some b, false) := by
  induction l generalizing acc with
  | nil =>
    rcases hacc with ⟨-, hmem⟩ | rfl
    · exact absurd hmem List.not_mem_nil
    · rfl
  | cons c l ih =>
    have hrest : ∀ acc : Option ℕ, acc = none ∧ b ∈ l ∨ acc = some b → scan buf l acc = (some b, false) :=
      fun acc => ih fun d hd => h d (List.mem_cons_of_mem _ hd)
    unfold scan
    by_cases hc : c = b
    · subst hc
      have hget : acc.getD c = c := by
        rcases hacc with ⟨rfl, -⟩ | rfl <;> rfl
      rw [if_neg (not_not.2 hcount), hwaiter, if_neg (by simp)]
      dsimp only
      rw [hget, if_neg hscore, if_neg (lt_irrefl _)]
      exact hrest _ (Or.inr rfl)
    · rw [if_pos (h c List.mem_cons_self hc)]
      refine hrest _ (hacc.imp_left fun hacc => ⟨hacc.1, ?_⟩)
      exact (List.mem_cons.1 hacc.2).resolve_left (Ne.symm hc)

/-- The write of block 0 waits for the disk; its buffer is the only one without references. -/
structure Waiting (s : Buffers Caller Unit ℕ) (dev : Device Caller (ℕ × Key)) : Prop where
  ptr : s.buffer_ptr = 3826
  dev : s.dev () = dev
  pc : s.pc .holder = .check (.brelse 0) firstWrite
  key : ∀ b < 3826, (s.buf b).key = block5 b
  first : (s.buf 0).b_count = 0 ∧ (s.buf 0).b_lock = ⟨true, []⟩ ∧ (s.buf 0).waiter = none ∧
    (s.buf 0).b_dirty = true
  other : ∀ b < 3826, b ≠ 0 → (s.buf b).b_count ≠ 0

/-- The third task is in `do_request`. -/
structure Served (s : Buffers Caller Unit ℕ) : Prop where
  pc : s.pc .reader = .serve (.bread 3825) lastRead
  ready : s.ready .reader = true
  buf : (s.buf 3825).b_lock.waiter = [] ∧ (s.buf 3825).waiter = none

theorem PoolReading.release (hr : poolSys.Reach (s, h)) (H : PoolReading s 3825 .reader) :
    ∃ s' h' direct, poolSys.Reach (s', h') ∧ Waiting s' ⟨true, direct, [firstWrite, lastRead]⟩ ∧ Served s' ∧
      s'.pc .taker = .out ∧ s'.ready .taker = true := by
  have hpos : 0 < s.buffer_ptr := by
    rw [H.ptr]
    norm_num
  have hpc : s.pc .holder = .out := H.pc.2 .holder (by decide)
  obtain ⟨direct, hdev⟩ := H.dev
  obtain ⟨hcount, hlock, hwaiter⟩ := H.idle 0 (by norm_num)
  let s₁ := s.setBuf 0 fun b => { b with b_data := 9, b_dirty := true }
  let s₂ := ({ s₁.setBuf 0 fun b => { b with b_count := b.b_count - 1 } with
    held := update s₁.held .holder ((s₁.held .holder).erase 0) } : Buffers Caller Unit ℕ).goto .holder (.brelse 0)
  have h₁ : poolSys.Reach (s₁, _) :=
    hr.step (.of_modify .holder 0 (fun _ => 9) hpc hpos (H.held 0 (by norm_num)))
  have h₂ : poolSys.Reach (s₂, _) :=
    h₁.step (.of_brelse Caller.holder 0 hpc hpos (H.held 0 (by norm_num)))
  have hfirst : s₂.buf 0 = { s.buf 0 with b_data := 9, b_dirty := true, b_count := 0 } := by
    simp only [s₂, s₁, goto, setBuf, update_self, hcount]
    rfl
  have hother : ∀ b, b ≠ 0 → s₂.buf b = s.buf b := by
    intro b hb
    simp only [s₂, s₁, goto, setBuf, update_of_ne hb]
  have hkey : ∀ b < 3826, (s₂.buf b).key = block5 b := by
    intro b hb
    by_cases hb0 : b = 0
    · rw [hb0, hfirst]
      exact H.key 0 (by norm_num)
    · rw [hother b hb0]
      exact H.key b hb
  let s₃ := s₂.listRequest pairDisk .holder (.brelse 0) firstWrite
  have hdev₃ : s₃.dev () = ⟨true, direct, [firstWrite, lastRead]⟩ := by
    show update s₂.dev () ((s₂.dev ()).insert _) () = _
    rw [update_self]
    show (s.dev ()).insert _ = _
    rw [hdev]
    rfl
  have hwrite : s₂.brelseRest pairDisk .holder 0 = .ok (s₃.block .holder) := by
    rw [← checkRequest_busy (.brelse 0) (by rw [hdev₃])]
    unfold brelseRest
    rw [hfirst]
    exact (if_neg (not_not.2 rfl)).trans ((if_pos rfl).trans (deviceRequest_ok (hkey 0 (by norm_num))))
  have h₃ := pool_run h₂ (.brelseRest (update_self ..) hwrite)
  refine ⟨_, _, direct, h₃, ⟨H.ptr, hdev₃, rfl, hkey, ?_, fun b hb hb0 => ?_⟩,
    ⟨H.pc.1, H.ready .reader, ?_⟩, H.pc.2 .taker (by decide), H.ready .taker⟩
  · show (s₂.buf 0).b_count = 0 ∧ (s₂.buf 0).b_lock = _ ∧ (s₂.buf 0).waiter = _ ∧ (s₂.buf 0).b_dirty = _
    rw [hfirst]
    exact ⟨rfl, hlock.trans (if_neg (by decide)), hwaiter, rfl⟩
  · show (s₂.buf b).b_count ≠ 0
    rw [hother b hb0, (H.idle b hb).1]
    decide
  · show (s₂.buf 3825).b_lock.waiter = [] ∧ (s₂.buf 3825).waiter = none
    rw [hother 3825 (by decide), (H.idle 3825 (by norm_num)).2.1]
    exact ⟨rfl, (H.idle 3825 (by norm_num)).2.2⟩

/-- The second task looks for a buffer, and asks to write the one of block 0, too. -/
theorem Waiting.victim {direct : Direct} (hr : poolSys.Reach (s, h))
    (H : Waiting s ⟨true, direct, [firstWrite, lastRead]⟩) (hserved : Served s) (hpc : s.pc .taker = .out)
    (hready : s.ready .taker = true) :
    ∃ s' h', poolSys.Reach (s', h') ∧ Waiting s' ⟨true, direct, [firstWrite, victimWrite, lastRead]⟩ ∧ Served s' ∧
      s'.pc .taker = .check (.victim (block5 3826) 0) victimWrite := by
  obtain ⟨hcount, hlock, hwaiter, hdirty⟩ := H.first
  let s₁ := s.goto .taker (.getblk (block5 3826))
  have h₁ : poolSys.Reach (s₁, h) := hr.step (.of_bread (block5 3826) hpc)
  have hfind : s₁.findFromHashTable (block5 3826) = none :=
    next_not_found (pool_keyed h₁) H.ptr (by norm_num) H.key
  have hnew : s₁.getNewBuffer = none := by
    unfold getNewBuffer
    refine if_neg ?_
    show ¬ Room s.buffer_ptr
    rw [H.ptr]
    decide
  have hscan : scan s₁.buf s₁.free_list none = (some 0, false) := by
    have hmem := (pool_keyed h₁).mem_free
    have hscore : score (s₁.buf 0) ≠ 0 := by
      show (if (s.buf 0).b_lock.value then 0 else 1) + (if (s.buf 0).b_dirty then 2 else 0) ≠ 0
      rw [hdirty, if_pos rfl]
      omega
    refine scan_only hcount hwaiter hscore (fun b hb hb0 => ?_) (Or.inl ⟨rfl, ?_⟩)
    · exact H.other b (H.ptr ▸ (hmem b).1 hb) hb0
    · refine (hmem 0).2 ?_
      show 0 < s.buffer_ptr
      rw [H.ptr]
      norm_num
  let s₂ := s₁.listRequest pairDisk .taker (.victim (block5 3826) 0) victimWrite
  have hdev₂ : s₂.dev () = ⟨true, direct, [firstWrite, victimWrite, lastRead]⟩ := by
    show update s.dev () ((s.dev ()).insert _) () = _
    rw [update_self, H.dev]
    rfl
  have hget : s₁.getblk pairDisk .taker (block5 3826) = .ok (s₂.block .taker) := by
    have hlock₁ : (s₁.buf 0).b_lock.value = true := by
      show (s.buf 0).b_lock.value = true
      rw [hlock]
    rw [← checkRequest_busy (.victim (block5 3826) 0) (by rw [hdev₂])]
    unfold getblk
    rw [hfind, hnew, hscan]
    dsimp only
    rw [if_pos hlock₁]
    exact (if_pos hdirty).trans (deviceRequest_ok (H.key 0 (by norm_num)))
  have h₂ := pool_run h₁ (.getblk (update_self ..) hready hget)
  exact ⟨_, _, h₂, ⟨H.ptr, hdev₂, H.pc, H.key, H.first, H.other⟩,
    ⟨hserved.pc, hserved.ready, hserved.buf⟩, rfl⟩

/-- The end of a request of another task leaves the first one where it is. -/
theorem Waiting.ended {k : Cont} {next : Option (Request Caller (ℕ × Key))} (H : Waiting s dev)
    (he : Ended s s' t k b dev' next) (ht : .holder ≠ t) : Waiting s' dev' := by
  obtain ⟨hcount, hlock, hwaiter, hdirty⟩ := H.first
  refine ⟨he.ptr.trans H.ptr, he.dev, ?_, fun c hc => ?_, ?_, fun c hc hc0 => ?_⟩
  · rw [he.pc, update_of_ne ht]
    exact H.pc
  · obtain ⟨data, hdata⟩ := he.buf c
    rw [hdata]
    exact H.key c hc
  · obtain ⟨data, hdata⟩ := he.buf 0
    rw [hdata]
    refine ⟨hcount, ?_, hwaiter, hdirty⟩
    dsimp only
    split_ifs with h0
    · rfl
    · exact hlock
  · obtain ⟨data, hdata⟩ := he.buf c
    rw [hdata]
    exact H.other c hc hc0

/-- The third task has read its block, and the second one goes on before the first. -/
theorem Waiting.turn {direct : Direct} (hr : poolSys.Reach (s, h))
    (H : Waiting s ⟨true, direct, [firstWrite, victimWrite, lastRead]⟩) (hserved : Served s)
    (hpc : s.pc .taker = .check (.victim (block5 3826) 0) victimWrite) :
    ∃ s' h', poolSys.Reach (s', h') ∧ Waiting s' ⟨false, .back, [firstWrite, victimWrite]⟩ ∧
      s'.pc .taker = .check (.victim (block5 3826) 0) victimWrite ∧ s'.ready .taker = true := by
  have hfin : (⟨true, direct, [firstWrite, victimWrite, lastRead]⟩ : Device Caller (ℕ × Key)).finish lastRead =
      .ok (⟨false, .back, [firstWrite, victimWrite]⟩, some victimWrite) := by
    cases direct <;> rfl
  obtain ⟨s₁, h₁', h₁, hend⟩ := serve_finish hr hserved.pc hserved.ready (H.dev ▸ hfin) hserved.buf.1
    hserved.buf.2
  have H₁ := H.ended hend (by decide)
  have h₂ := pool_run h₁ (.back (t := .reader) (k := .bread 3825) (by rw [hend.pc, update_self]))
  have hother : ∀ b, b ≠ 3825 → (s₁.goBack .reader (.bread 3825)).buf b = s₁.buf b := fun b hb => update_of_ne hb ..
  have hlast : ((s₁.goBack .reader (.bread 3825)).buf 3825).key = (s₁.buf 3825).key ∧
      ((s₁.goBack .reader (.bread 3825)).buf 3825).b_count = (s₁.buf 3825).b_count := by
    exact ⟨rfl, rfl⟩
  refine ⟨_, _, h₂, ⟨H₁.ptr, H₁.dev, H₁.pc, fun b hb => ?_, ?_, fun b hb hb0 => ?_⟩, ?_, ?_⟩
  · by_cases hbl : b = 3825
    · rw [hbl, hlast.1]
      exact H₁.key 3825 (by norm_num)
    · rw [hother b hbl]
      exact H₁.key b hb
  · rw [hother 0 (by decide)]
    exact H₁.first
  · by_cases hbl : b = 3825
    · rw [hbl, hlast.2]
      exact H₁.other 3825 (by norm_num) (by decide)
    · rw [hother b hbl]
      exact H₁.other b hb hb0
  · show update s₁.pc .reader .out .taker = _
    rw [hend.pc, update_of_ne (by decide), update_of_ne (by decide)]
    exact hpc
  · show s₁.ready .taker = true
    rw [hend.ready]
    rfl

/-- The buffer of block 0 has been taken for another block, and the first write still waits. -/
structure Retaken (s : Buffers Caller Unit ℕ) : Prop where
  buf : ∃ data, s.buf 0 = ⟨data, (block5 3826).2, (block5 3826).1, false, ⟨true, []⟩, 1, false, none⟩
  taker : s.pc .taker = .bread 0
  holder : s.pc .holder = .check (.brelse 0) firstWrite
  ready : s.ready .taker = true
  dev : s.dev () = ⟨false, .back, [firstWrite]⟩

/-- **It takes the buffer of block 0**, which it has written. -/
theorem Waiting.taken (hr : poolSys.Reach (s, h)) (H : Waiting s ⟨false, .back, [firstWrite, victimWrite]⟩)
    (hpc : s.pc .taker = .check (.victim (block5 3826) 0) victimWrite) (hready : s.ready .taker = true) :
    ∃ s' h', poolSys.Reach (s', h') ∧ Retaken s' := by
  obtain ⟨hcount, hlock, hwaiter, hdirty⟩ := H.first
  have h₁ := pool_run hr (.check hpc hready)
  rw [checkRequest_free _ (by rw [H.dev]) hlock] at h₁
  let s₁ := ({ s with dev := update s.dev () { s.dev () with do_request := true } }.goto .taker
    (.serve (.victim (block5 3826) 0) victimWrite)).setBuf 0 fun b => { b with b_lock := ⟨false, []⟩ }
  have h₁ : poolSys.Reach (s₁, _) := h₁
  have hbuf₁ : s₁.buf 0 = { s.buf 0 with b_lock := ⟨false, []⟩ } := rfl
  have hdev₁ : s₁.dev () = ⟨true, .back, [firstWrite, victimWrite]⟩ := by
    show update s.dev () { s.dev () with do_request := true } () = _
    rw [update_self, H.dev]
  obtain ⟨s₂, h₂', h₂, hend⟩ := serve_finish (d := ⟨false, .back, [firstWrite]⟩) (r := some firstWrite)
    h₁ (update_self ..) hready (by rw [hdev₁]; rfl) (by rw [hbuf₁]) (by rw [hbuf₁]; exact hwaiter)
  obtain ⟨data, hdata⟩ := hend.buf 0
  rw [hbuf₁, if_pos rfl] at hdata
  have hkey₂ : ∀ b < 3826, (s₂.buf b).key = block5 b := by
    intro b hb
    obtain ⟨data, hdata⟩ := hend.buf b
    rw [hdata]
    show (s₁.buf b).key = _
    rw [← H.key b hb]
    by_cases hb0 : b = 0
    · rw [hb0, hbuf₁]
      rfl
    · exact congrArg Buffer.key (update_of_ne hb0 ..)
  let s₃ := ((s₂.setBuf 0 fun b => { b with b_dirty := false }).findNew 0 (block5 3826)).goto .taker (.bread 0)
  have htake : s₂.goBack .taker (.victim (block5 3826) 0) = s₃ := by
    have hkeys : s₂.SameKeys (s₂.setBuf 0 fun b => { b with b_dirty := false }) := sameKeys_setBuf rfl
    have hfind := next_not_found (pool_keyed h₂) (hend.ptr.trans H.ptr) (by norm_num) hkey₂
    have hcount₂ : ((s₂.setBuf 0 fun b => { b with b_dirty := false }).buf 0).b_count = 0 := by
      rw [count_setBuf rfl, hdata]
      exact hcount
    unfold goBack
    dsimp only
    rw [if_neg (not_not.2 hcount₂)]
    unfold getblkFind
    rw [hkeys.find, hfind]
  have h₃ := pool_run h₂ (.back (t := .taker) (k := .victim (block5 3826) 0) (by rw [hend.pc, update_self]))
  rw [htake] at h₃
  refine ⟨_, _, h₃, ⟨data, ?_⟩, rfl, ?_, ?_, hend.dev⟩
  · simp only [s₃, findNew, bufferInsert, bufferRemove, setBuf, goto, update_self, hdata, hwaiter]
  · show update s₂.pc .taker (.bread 0) .holder = _
    rw [hend.pc]
    simp only [update_of_ne (show Caller.holder ≠ .taker by decide)]
    exact H.pc
  · show s₂.ready .taker = true
    rw [hend.ready]
    exact (update_of_ne (by decide) ..).trans hready

/-- And reads its own block, before the first write comes to its turn. -/
theorem Retaken.read (hr : poolSys.Reach (s, h)) (H : Retaken s) :
    ∃ s' h', poolSys.Reach (s', h') ∧ s'.dev () = ⟨false, .back, [firstWrite]⟩ ∧ s'.ready .holder = true ∧
      s'.pc .holder = .check (.brelse 0) firstWrite ∧ s'.pc .taker = .out ∧ (s'.buf 0).key = block5 3826 ∧
      (s'.buf 0).b_lock = ⟨true, []⟩ := by
  obtain ⟨data, hbuf⟩ := H.buf
  let s₁ := s.listRequest pairDisk .taker (.bread 0) (ask5 .read .taker 0 3826)
  have hdev₁ : s₁.dev () = ⟨false, .back, [firstWrite, ask5 .read .taker 0 3826]⟩ := by
    show update s.dev () ((s.dev ()).insert _) () = _
    rw [update_self, H.dev]
    rfl
  have hread : s.breadValid pairDisk .taker 0 =
      .ok (s₁.checkRequest pairDisk .taker (.bread 0) (ask5 .read .taker 0 3826)) := by
    unfold breadValid
    rw [hbuf]
    exact (if_neg Bool.false_ne_true).trans (deviceRequest_ok (by rw [hbuf]; rfl))
  have h₂ := pool_run hr (.breadValid H.taker hread)
  rw [checkRequest_free _ (by rw [hdev₁]) (congrArg Buffer.b_lock hbuf)] at h₂
  let s₂ := ({ s₁ with dev := update s₁.dev () { s₁.dev () with do_request := true } }.goto .taker
    (.serve (.bread 0) (ask5 .read .taker 0 3826))).setBuf 0 fun b => { b with b_lock := ⟨false, []⟩ }
  have h₂ : poolSys.Reach (s₂, _) := h₂
  have hbuf₂ : s₂.buf 0 = { s.buf 0 with b_lock := ⟨false, []⟩ } := rfl
  have hdev₂ : s₂.dev () = ⟨true, .back, [firstWrite, ask5 .read .taker 0 3826]⟩ := by
    show update s₁.dev () { s₁.dev () with do_request := true } () = _
    rw [update_self, hdev₁]
  obtain ⟨s₃, h₃', h₃, hend⟩ := serve_finish (d := ⟨false, .back, [firstWrite]⟩) (r := some firstWrite)
    h₂ (update_self ..) H.ready (by rw [hdev₂]; rfl) (by rw [hbuf₂]) (by rw [hbuf₂, hbuf])
  obtain ⟨data', hdata'⟩ := hend.buf 0
  rw [hbuf₂, hbuf, if_pos rfl] at hdata'
  have h₄ := pool_run h₃ (.back (t := .taker) (k := .bread 0) (by rw [hend.pc, update_self]))
  have hbuf₄ : (s₃.goBack .taker (.bread 0)).buf 0 = { s₃.buf 0 with b_vaild := true, b_dirty := false } := rfl
  rw [hdata'] at hbuf₄
  refine ⟨_, _, h₄, hend.dev, ?_, ?_, rfl, congrArg Buffer.key hbuf₄, congrArg Buffer.b_lock hbuf₄⟩
  · show s₃.ready .holder = true
    rw [hend.ready]
    rfl
  · show update s₃.pc .taker .out .holder = _
    rw [update_of_ne (by decide), hend.pc]
    simp only [update_of_ne (show Caller.holder ≠ .taker by decide)]
    exact H.holder

/-- **A write of block 0 comes to a buffer of another block.** -/
theorem write_back_wrong : ∃ p, poolSys.Reach p ∧ ∃ t k req, p.1.pc t = .serve k req ∧ p.1.ready t = true ∧
    req.type = .write ∧ (p.1.buf req.buf.1).key ≠ req.buf.2 := by
  obtain ⟨s₀, h₀', h₀, H₀⟩ := pool_held 3825 (by norm_num)
  obtain ⟨s₁, h₁', h₁, H₁⟩ := H₀.ask h₀ (by unfold Room; norm_num) .reader
  obtain ⟨s₂, h₂', direct, h₂, H₂, hserved, hout, hready⟩ := H₁.release h₁
  obtain ⟨s₃, h₃', h₃, H₃, hserved, hpc⟩ := H₂.victim h₂ hserved hout hready
  obtain ⟨s₄, h₄', h₄, H₄, hpc, hready⟩ := H₃.turn h₃ hserved hpc
  obtain ⟨s₅, h₅', h₅, H₅⟩ := H₄.taken h₄ hpc hready
  obtain ⟨s₆, h₆', h₆, hdev, hready, hpc, -, hkey, hlock⟩ := H₅.read h₅
  have h₇ := pool_run h₆ (.check hpc hready)
  rw [checkRequest_free _ (by rw [hdev]) hlock] at h₇
  refine ⟨_, h₇, .holder, .brelse 0, firstWrite, rfl, hready, rfl, fun he => ?_⟩
  have he : (s₆.buf 0).key = block5 0 := he
  rw [hkey] at he
  exact absurd (block5_inj (by norm_num) (by norm_num) he) (by norm_num : 3826 ≠ 0)

end Tasks

end Rdix
