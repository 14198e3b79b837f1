/-
  A transfer that fails (kernel/device.c: do_request, device_request; fs/buffer.c: bread).

  When `device_read` or `device_write` returns EOF, `do_request` reports the error and blocks its
  task, in the middle of `device_request`: the buffer is locked, `do_request` of the device is set,
  and the request is in the list.

  * `Placed`: where each task is registered to be unblocked, which goes with where it is;
  * `Orderly`: a step keeps this, and does not unblock a task behind `do_request`;
  * `failed_transfer_never`: nothing in the cache or at the disks unblocks the task, so in no run
    is the request ended, and the disk serves no other one.
-/
import Rdix.Fs.BufferCounts

namespace Rdix

open Function Transition

/-! ## The error branch -/

/-- The request that a task has in the list of its device. -/
def BufPc.request {T : Type} : BufPc T → Option (Request T (ℕ × Key))
  | .check _ req => some req
  | .serve _ req => some req
  | .served _ req => some req
  | _ => none

/-- The request for which it has set `do_request`. -/
def BufPc.serves {T : Type} : BufPc T → Option (Request T (ℕ × Key))
  | .serve _ req => some req
  | .served _ req => some req
  | _ => none

theorem BufPc.request_of_serves {T : Type} {pc : BufPc T} {req : Request T (ℕ × Key)}
    (h : pc.serves = some req) : pc.request = some req := by
  cases pc with
  | serve _ _ | served _ _ => exact h
  | out | getblk _ | waiter _ _ | bread _ | brelse _ | check _ _ | back _ => cases h

namespace Buffers

variable {T D α : Type} [DecidableEq T] [DecidableEq D]

/-- `do_request` when `status == EOF`: the task is blocked.  The transfer has left `data` in the
    buffer or on the disk. -/
def doRequestEof (s : Buffers T D α) (t : T) (k : Cont) (req : Request T (ℕ × Key)) (data : α) :
    Buffers T D α :=
  let s := match req.type with
    | .read => s.setBuf req.buf.1 fun b => { b with b_data := data }
    | .write => { s with disk := update s.disk req.buf.2 data }
  (s.goto t (.served k req)).block t

end Buffers

inductive FailAct (T α : Type) where
  | step (a : BufAct T α)
  /-- the transfer of the task fails -/
  | fail (t : T)

/-- The task that takes a step. -/
def FailAct.task {T α : Type} : FailAct T α → T
  | .step a => a.task
  | .fail t => t

section System
variable {T D α : Type} [DecidableEq T] [DecidableEq D]

/-- The steps of the tasks when transfers may fail: a task goes on behind `do_request` when it is
    ready to. -/
inductive FailStep (disks : Disks D) (s : Buffers T D α) : FailAct T α → Buffers T D α → Prop where
  | step {a s'} : BufStep disks s a s' →
      (∀ t k req, a = .run t → s.pc t = .served k req → s.ready t = true) →
      FailStep disks s (.step a) s'
  | fail {t k req data} : s.pc t = .serve k req → s.ready t = true →
      FailStep disks s (.fail t) (s.doRequestEof t k req data)

/-- There is no buffer at first, and nobody waits for one. -/
def failSys (T D α : Type) [DecidableEq T] [DecidableEq D] (disks : Disks D) :
    Sys (Buffers T D α) (FailAct T α) where
  init s := (bufSys T D α disks).init s ∧
    ∀ bf, (s.buf bf).b_lock.waiter = [] ∧ (s.buf bf).waiter = none
  step := FailStep disks

end System

/-! ## Where the tasks are registered -/

namespace Buffers

variable {T D α : Type} {disks : Disks D} {s s' s'' : Buffers T D α} {t u w : T} {b bf : ℕ} {key : Key}
  {k : Cont} {req : Request T (ℕ × Key)}

/-- A task that is to be unblocked is where its registration says, and it is registered once; the
    lists of the devices are the requests of the tasks, and each device serves one. -/
structure Placed (disks : Disks D) (s : Buffers T D α) : Prop where
  lock : ∀ bf, ∀ w ∈ (s.buf bf).b_lock.waiter, s.ready w = false ∧
    ∃ k req, s.pc w = .serve k req ∧ req.buf.1 = bf
  lock_nodup : ∀ bf, (s.buf bf).b_lock.waiter.Nodup
  waiter : ∀ bf w, (s.buf bf).waiter = some w → ∃ key, s.pc w = .waiter key bf
  wait : ∀ w ∈ s.wait_list, s.ready w = false ∧ ∃ key, s.pc w = .getblk key
  wait_nodup : s.wait_list.Nodup
  listed : ∀ d, ∀ r ∈ (s.dev d).request_list, disks.parent r.buf.2.1 = d ∧
    (s.pc r.task).request = some r
  request : ∀ t r, (s.pc t).request = some r → r.task = t ∧
    r ∈ (s.dev (disks.parent r.buf.2.1)).request_list
  nodup : ∀ d, (s.dev d).request_list.Nodup
  flag : ∀ t r, (s.pc t).serves = some r → (s.dev (disks.parent r.buf.2.1)).do_request = true
  one : ∀ t t' r r', (s.pc t).serves = some r → (s.pc t').serves = some r' →
    disks.parent r.buf.2.1 = disks.parent r'.buf.2.1 → t = t'

/-- The task is registered nowhere. -/
structure Loose (s : Buffers T D α) (t : T) : Prop where
  lock : ∀ bf, t ∉ (s.buf bf).b_lock.waiter
  waiter : ∀ bf, (s.buf bf).waiter ≠ some t
  wait : t ∉ s.wait_list
  request : (s.pc t).request = none

/-- Places of registration are given up, and nothing else changes. -/
structure Fewer (s s' : Buffers T D α) : Prop where
  lock : ∀ bf, (s'.buf bf).b_lock.waiter = (s.buf bf).b_lock.waiter ∨ (s'.buf bf).b_lock.waiter = []
  waiter : ∀ bf, (s'.buf bf).waiter = (s.buf bf).waiter ∨ (s'.buf bf).waiter = none
  wait : s'.wait_list = s.wait_list
  dev : s'.dev = s.dev
  pc : s'.pc = s.pc
  ready : s'.ready = s.ready

/-- A step of task `u`: the others stay where they are, and a blocked task behind `do_request` stays
    blocked. -/
structure Orderly (disks : Disks D) (s s' : Buffers T D α) (u : T) : Prop where
  placed : s'.Placed disks
  rest : ∀ w ≠ u, s'.pc w = s.pc w
  asleep : ∀ w ≠ u, ∀ k req, s.pc w = .served k req → s.ready w = false → s'.ready w = false

theorem Orderly.refl (h : s.Placed disks) (u : T) : s.Orderly disks s u :=
  ⟨h, fun _ _ => rfl, fun _ _ _ _ _ hr => hr⟩

theorem Orderly.trans (h : s.Orderly disks s' u) (h' : s'.Orderly disks s'' u) :
    s.Orderly disks s'' u :=
  ⟨h'.placed, fun w hw => (h'.rest w hw).trans (h.rest w hw), fun w hw k req hpc hr =>
    h'.asleep w hw k req ((h.rest w hw).trans hpc) (h.asleep w hw k req hpc hr)⟩

/-- A task that waits for nothing is registered nowhere. -/
theorem Placed.loose (h : s.Placed disks) (hr : (s.pc t).request = none)
    (hw : ∀ key bf, s.pc t ≠ .waiter key bf) (hg : ∀ key, s.pc t = .getblk key → s.ready t = true) :
    s.Loose t := by
  refine ⟨fun bf hm => ?_, fun bf hm => ?_, fun hm => ?_, hr⟩
  · obtain ⟨-, k, req, hpc, -⟩ := h.lock bf t hm
    rw [hpc] at hr
    cases hr
  · obtain ⟨key, hpc⟩ := h.waiter bf t hm
    exact hw key bf hpc
  · obtain ⟨hf, key, hpc⟩ := h.wait t hm
    rw [hg key hpc] at hf
    cases hf

/-- So it has no request in a list. -/
theorem Loose.not_listed (hl : s.Loose t) (h : s.Placed disks) {d : D} {r : Request T (ℕ × Key)}
    (hr : r ∈ (s.dev d).request_list) : r.task ≠ t := by
  rintro rfl
  cases hl.request.symm.trans (h.listed d r hr).2

/-- The list, the waiters of buffers and the waiting list know the task by its request only. -/
theorem Placed.loose_of_request (h : s.Placed disks) (hr : (s.pc t).request = some req)
    (hs : s.ready t = true ∨ ∀ k req, s.pc t ≠ .serve k req) :
    (∀ bf, t ∉ (s.buf bf).b_lock.waiter) ∧ (∀ bf, (s.buf bf).waiter ≠ some t) ∧ t ∉ s.wait_list := by
  refine ⟨fun bf hm => ?_, fun bf hm => ?_, fun hm => ?_⟩
  · obtain ⟨hf, k, r, hpc, -⟩ := h.lock bf t hm
    rcases hs with hs | hs
    · rw [hs] at hf
      cases hf
    · exact hs k r hpc
  · obtain ⟨key, hpc⟩ := h.waiter bf t hm
    rw [hpc] at hr
    cases hr
  · obtain ⟨-, key, hpc⟩ := h.wait t hm
    rw [hpc] at hr
    cases hr

theorem Loose.fewer (hl : s.Loose t) (hf : s.Fewer s') : s'.Loose t := by
  refine ⟨fun bf hm => ?_, fun bf hm => ?_, ?_, ?_⟩
  · rcases hf.lock bf with he | he
    · exact hl.lock bf (he ▸ hm)
    · rw [he] at hm
      cases hm
  · rcases hf.waiter bf with he | he
    · exact hl.waiter bf (he.symm.trans hm)
    · cases he.symm.trans hm
  · rw [hf.wait]
    exact hl.wait
  · rw [hf.pc]
    exact hl.request

theorem Placed.fewer (h : s.Placed disks) (hf : s.Fewer s') (u : T) : s.Orderly disks s' u := by
  refine ⟨⟨?_, ?_, ?_, ?_, ?_, ?_, ?_, ?_, ?_, ?_⟩, fun w _ => congrFun hf.pc w, fun w _ k req _ hr => ?_⟩
  · intro bf w hw
    rw [hf.ready, hf.pc]
    rcases hf.lock bf with he | he
    · exact h.lock bf w (he ▸ hw)
    · rw [he] at hw
      cases hw
  · intro bf
    rcases hf.lock bf with he | he
    · rw [he]
      exact h.lock_nodup bf
    · rw [he]
      exact List.nodup_nil
  · intro bf w hw
    rw [hf.pc]
    rcases hf.waiter bf with he | he
    · exact h.waiter bf w (he.symm.trans hw)
    · cases he.symm.trans hw
  · rw [hf.wait, hf.ready, hf.pc]
    exact h.wait
  · rw [hf.wait]
    exact h.wait_nodup
  · rw [hf.dev, hf.pc]
    exact h.listed
  · rw [hf.dev, hf.pc]
    exact h.request
  · rw [hf.dev]
    exact h.nodup
  · rw [hf.dev, hf.pc]
    exact h.flag
  · rw [hf.pc]
    exact h.one
  · rw [hf.ready]
    exact hr

/-! ## What the parts of a step do -/

/-- A blocked task waits for any buffer. -/
theorem Placed.push (h : s.Placed disks) (hl : t ∉ s.wait_list) (hr : s.ready t = false)
    (hpc : s.pc t = .getblk key) (u : T) :
    s.Orderly disks { s with wait_list := t :: s.wait_list } u := by
  refine ⟨⟨h.lock, h.lock_nodup, h.waiter, ?_, List.nodup_cons.2 ⟨hl, h.wait_nodup⟩, h.listed,
    h.request, h.nodup, h.flag, h.one⟩, fun _ _ => rfl, fun _ _ _ _ _ hr => hr⟩
  intro w hw
  rcases List.mem_cons.1 hw with rfl | hw
  · exact ⟨hr, key, hpc⟩
  · exact h.wait w hw

/-- A task waits for the lock of a buffer. -/
theorem Placed.setWaiter (h : s.Placed disks) (hpc : s.pc t = .waiter key bf) (u : T) :
    s.Orderly disks (s.setBuf bf fun b => { b with waiter := some t }) u := by
  have hbuf : ∀ b, ((s.setBuf bf fun b => { b with waiter := some t }).buf b).b_lock =
      (s.buf b).b_lock := by
    intro b
    show (update s.buf bf _ b).b_lock = _
    by_cases hb : b = bf
    · rw [hb, update_self]
    · rw [update_of_ne hb]
  refine ⟨⟨?_, ?_, ?_, h.wait, h.wait_nodup, h.listed, h.request, h.nodup, h.flag, h.one⟩,
    fun _ _ => rfl, fun _ _ _ _ _ hr => hr⟩
  · intro b w hw
    rw [hbuf] at hw
    exact h.lock b w hw
  · intro b
    rw [hbuf]
    exact h.lock_nodup b
  · intro b w hw
    replace hw : (update s.buf bf _ b).waiter = some w := hw
    by_cases hb : b = bf
    · rw [hb, update_self] at hw
      cases hw
      exact ⟨key, hb ▸ hpc⟩
    · rw [update_of_ne hb] at hw
      exact h.waiter b w hw

/-- The list of the tasks that wait for any buffer gets shorter. -/
theorem Placed.pop (h : s.Placed disks) {l : List T} (hl : l.Sublist s.wait_list) (u : T) :
    s.Orderly disks { s with wait_list := l } u :=
  ⟨⟨h.lock, h.lock_nodup, h.waiter, fun w hw => h.wait w (hl.subset hw), h.wait_nodup.sublist hl,
    h.listed, h.request, h.nodup, h.flag, h.one⟩, fun _ _ => rfl, fun _ _ _ _ _ hr => hr⟩

/-- The waiters of a lock change: those in the list are blocked in front of the transfer. -/
theorem Placed.setLock (h : s.Placed disks) {lock : Mutex T} (hn : lock.waiter.Nodup)
    (hw : ∀ w ∈ lock.waiter, s.ready w = false ∧ ∃ k req, s.pc w = .serve k req ∧ req.buf.1 = bf)
    (u : T) : s.Orderly disks (s.setBuf bf fun b => { b with b_lock := lock }) u := by
  have hbuf : ∀ b ≠ bf, (s.setBuf bf fun b => { b with b_lock := lock }).buf b = s.buf b :=
    fun b hb => update_of_ne hb _ _
  have hself : ((s.setBuf bf fun b => { b with b_lock := lock }).buf bf).b_lock = lock := by
    show (update s.buf bf _ bf).b_lock = lock
    rw [update_self]
  refine ⟨⟨?_, ?_, ?_, h.wait, h.wait_nodup, h.listed, h.request, h.nodup, h.flag, h.one⟩,
    fun _ _ => rfl, fun _ _ _ _ _ hr => hr⟩
  · intro b w hm
    by_cases hb : b = bf
    · rw [hb, hself] at hm
      exact hb ▸ hw w hm
    · rw [hbuf b hb] at hm
      exact h.lock b w hm
  · intro b
    by_cases hb : b = bf
    · rw [hb, hself]
      exact hn
    · rw [hbuf b hb]
      exact h.lock_nodup b
  · intro b w hm
    refine h.waiter b w ?_
    by_cases hb : b = bf
    · replace hm : (update s.buf bf _ b).waiter = some w := hm
      rw [hb, update_self] at hm
      exact hb ▸ hm
    · rw [hbuf b hb] at hm
      exact hm

variable [DecidableEq T]

/-- The task goes on, without a request. -/
theorem Placed.goto (h : s.Placed disks) (hl : s.Loose t) {pc : BufPc T} (hpc : pc.request = none) :
    s.Orderly disks (s.goto t pc) t := by
  have hne : ∀ w, w ≠ t → (s.goto t pc).pc w = s.pc w := fun w hw => update_of_ne hw _ _
  have hself : (s.goto t pc).pc t = pc := update_self ..
  have hserves : ∀ w r, ((s.goto t pc).pc w).serves = some r → w ≠ t ∧ (s.pc w).serves = some r := by
    intro w r hw
    by_cases hwt : w = t
    · rw [hwt, hself] at hw
      cases hpc.symm.trans (BufPc.request_of_serves hw)
    · exact ⟨hwt, by rwa [hne w hwt] at hw⟩
  refine ⟨⟨?_, h.lock_nodup, ?_, ?_, h.wait_nodup, ?_, ?_, h.nodup, ?_, ?_⟩, hne,
    fun _ _ _ _ _ hr => hr⟩
  · intro bf w hw
    rw [hne w fun he => hl.lock bf (he ▸ hw)]
    exact h.lock bf w hw
  · intro bf w hw
    rw [hne w fun he => hl.waiter bf (he ▸ hw)]
    exact h.waiter bf w hw
  · intro w hw
    rw [hne w fun he => hl.wait (he ▸ hw)]
    exact h.wait w hw
  · intro d r hr
    rw [hne _ (hl.not_listed h hr)]
    exact h.listed d r hr
  · intro w r hw
    by_cases hwt : w = t
    · rw [hwt, hself] at hw
      cases hpc.symm.trans hw
    · rw [hne w hwt] at hw
      exact h.request w r hw
  · intro w r hw
    exact h.flag w r (hserves w r hw).2
  · intro w w' r r' hw hw' hd
    exact h.one w w' r r' (hserves w r hw).2 (hserves w' r' hw').2 hd

/-- The task blocks. -/
theorem Placed.block (h : s.Placed disks) (t : T) : s.Orderly disks (s.block t) t := by
  have hr : ∀ w, s.ready w = false → (s.block t).ready w = false := by
    intro w hw
    show update s.ready t false w = false
    by_cases hwt : w = t
    · rw [hwt, update_self]
    · rw [update_of_ne hwt, hw]
  refine ⟨⟨?_, h.lock_nodup, h.waiter, ?_, h.wait_nodup, h.listed, h.request, h.nodup, h.flag, h.one⟩,
    fun _ _ => rfl, fun w _ _ _ _ hw => hr w hw⟩
  · intro bf w hw
    exact ⟨hr w (h.lock bf w hw).1, (h.lock bf w hw).2⟩
  · intro w hw
    exact ⟨hr w (h.wait w hw).1, (h.wait w hw).2⟩

/-- A task is unblocked that is in no list for it, and not behind `do_request`. -/
theorem Placed.unblock (h : s.Placed disks) (hl : ∀ bf, w ∉ (s.buf bf).b_lock.waiter)
    (hw : w ∉ s.wait_list) (hpc : ∀ k req, s.pc w ≠ .served k req) (u : T) :
    s.Orderly disks (s.unblock w) u := by
  have hne : ∀ v, v ≠ w → (s.unblock w).ready v = s.ready v := fun v hv => update_of_ne hv _ _
  refine ⟨⟨?_, h.lock_nodup, h.waiter, ?_, h.wait_nodup, h.listed, h.request, h.nodup, h.flag, h.one⟩,
    fun _ _ => rfl, fun v _ k req hv hr => ?_⟩
  · intro bf v hv
    rw [hne v fun he => hl bf (he ▸ hv)]
    exact h.lock bf v hv
  · intro v hv
    rw [hne v fun he => hw (he ▸ hv)]
    exact h.wait v hv
  · rw [hne v fun he => hpc k req (he ▸ hv), hr]

/-! ## The devices -/

/-- A task goes on with its request. -/
theorem Placed.advance (h : s.Placed disks) (hr : (s.pc t).request = some req)
    (hs : s.ready t = true ∨ ∀ k req, s.pc t ≠ .serve k req) {pc : BufPc T}
    (hpc : pc.request = some req) {dev : D → Device T (ℕ × Key)}
    (hlist : ∀ d, (dev d).request_list = (s.dev d).request_list)
    (hflag : ∀ w r, ((s.goto t pc).pc w).serves = some r →
      (dev (disks.parent r.buf.2.1)).do_request = true)
    (hone : ∀ w w' r r', ((s.goto t pc).pc w).serves = some r →
      ((s.goto t pc).pc w').serves = some r' →
      disks.parent r.buf.2.1 = disks.parent r'.buf.2.1 → w = w') :
    s.Orderly disks ({ s with dev := dev }.goto t pc) t := by
  obtain ⟨hlock, hwaiter, hwait⟩ := h.loose_of_request hr hs
  have hne : ∀ w, w ≠ t → (s.goto t pc).pc w = s.pc w := fun w hw => update_of_ne hw _ _
  have hreq : ∀ w, ((s.goto t pc).pc w).request = (s.pc w).request := by
    intro w
    by_cases hw : w = t
    · rw [hw, hr, ← hpc]
      exact congrArg BufPc.request (update_self ..)
    · rw [hne w hw]
  refine ⟨⟨?_, h.lock_nodup, ?_, ?_, h.wait_nodup, ?_, ?_, ?_, hflag, hone⟩, hne,
    fun _ _ _ _ _ hr => hr⟩
  · intro bf w hw
    refine ⟨(h.lock bf w hw).1, ?_⟩
    show ∃ k req, (s.goto t pc).pc w = _ ∧ _
    rw [hne w fun he => hlock bf (he ▸ hw)]
    exact (h.lock bf w hw).2
  · intro bf w hw
    show ∃ key, (s.goto t pc).pc w = _
    rw [hne w fun he => hwaiter bf (he ▸ hw)]
    exact h.waiter bf w hw
  · intro w hw
    refine ⟨(h.wait w hw).1, ?_⟩
    show ∃ key, (s.goto t pc).pc w = _
    rw [hne w fun he => hwait (he ▸ hw)]
    exact (h.wait w hw).2
  · intro d r hd
    refine ⟨(h.listed d r (hlist d ▸ hd)).1, ?_⟩
    exact (hreq r.task).trans (h.listed d r (hlist d ▸ hd)).2
  · intro w r hw
    obtain ⟨ht, hm⟩ := h.request w r ((hreq w).symm.trans hw)
    exact ⟨ht, (hlist _).symm ▸ hm⟩
  · intro d
    exact (hlist d).symm ▸ h.nodup d

theorem goto_serves {pc : BufPc T} {r : Request T (ℕ × Key)}
    (h : ((s.goto t pc).pc w).serves = some r) :
    w = t ∧ pc.serves = some r ∨ w ≠ t ∧ (s.pc w).serves = some r := by
  replace h : (update s.pc t pc w).serves = some r := h
  by_cases hw : w = t
  · rw [hw, update_self] at h
    exact Or.inl ⟨hw, h⟩
  · rw [update_of_ne hw] at h
    exact Or.inr ⟨hw, h⟩

/-- The task leaves `do_request`. -/
theorem Placed.served (h : s.Placed disks) (hpc : s.pc t = .serve k req) (hr : s.ready t = true) :
    s.Orderly disks (s.goto t (.served k req)) t := by
  have hserves : ∀ w r, ((s.goto t (.served k req)).pc w).serves = some r →
      (s.pc w).serves = some r := by
    intro w r hw
    rcases goto_serves hw with ⟨hwt, hpc'⟩ | ⟨-, hpc'⟩
    · rw [hwt, hpc]
      exact hpc'
    · exact hpc'
  exact h.advance (by rw [hpc]; rfl) (Or.inl hr) rfl (fun _ => rfl)
    (fun w r hw => h.flag w r (hserves w r hw))
    fun w w' r r' hw hw' => h.one w w' r r' (hserves w r hw) (hserves w' r' hw')

variable [DecidableEq D]

/-- The loop of `device_request`. -/
theorem Placed.checkRequest (h : s.Placed disks) (hpc : s.pc t = .check k req) :
    s.Orderly disks (s.checkRequest disks t k req) t := by
  have hnot : ∀ k req, s.pc t ≠ .serve k req := by
    rw [hpc]
    exact nofun
  unfold Buffers.checkRequest
  set d := disks.parent req.buf.2.1 with hd
  by_cases hf : (s.dev d).do_request = true
  · rw [if_pos hf]
    exact h.block t
  rw [if_neg hf]
  -- the flag is set, and the task goes to `do_request`
  have hnone : ∀ w r, (s.pc w).serves = some r → disks.parent r.buf.2.1 ≠ d := fun w r hw he =>
    hf (he ▸ h.flag w r hw)
  have h₁ : s.Orderly disks ({ s with
      dev := update s.dev d { s.dev d with do_request := true } }.goto t (.serve k req)) t := by
    refine h.advance (by rw [hpc]; rfl) (Or.inr hnot) rfl (fun e => ?_) (fun w r hw => ?_)
      fun w w' r r' hw hw' he => ?_
    · by_cases he : e = d
      · rw [he, update_self]
      · rw [update_of_ne he]
    · rcases goto_serves hw with ⟨-, hw'⟩ | ⟨-, hw'⟩
      · cases hw'
        rw [← hd, update_self]
      · rw [update_of_ne (hnone w r hw')]
        exact h.flag w r hw'
    · rcases goto_serves hw with ⟨hwt, hpc₁⟩ | ⟨-, hpc₁⟩ <;>
        rcases goto_serves hw' with ⟨hwt', hpc₂⟩ | ⟨-, hpc₂⟩
      · rw [hwt, hwt']
      · cases hpc₁
        exact absurd he.symm (hnone w' r' hpc₂)
      · cases hpc₂
        exact absurd he (hnone w r hpc₁)
      · exact h.one w w' r r' hpc₁ hpc₂ he
  refine h₁.trans ?_
  set s₁ := { s with dev := update s.dev d { s.dev d with do_request := true } }.goto t (.serve k req)
  have hpc₁ : s₁.pc t = .serve k req := update_self ..
  have hlock : t ∉ (s₁.buf req.buf.1).b_lock.waiter :=
    (h.loose_of_request (by rw [hpc]; rfl) (Or.inr hnot)).1 req.buf.1
  unfold bufferLock
  dsimp only
  split_ifs with hfree
  · exact h₁.placed.setLock List.nodup_nil (fun w hw => absurd hw List.not_mem_nil) t
  · have h₂ := h₁.placed.block t
    have hr₂ : (s₁.block t).ready t = false := update_self ..
    refine h₂.trans (h₂.placed.setLock (List.nodup_cons.2 ⟨hlock, h₁.placed.lock_nodup _⟩)
      (fun w hw => ?_) t)
    rcases List.mem_cons.1 hw with rfl | hw
    · exact ⟨hr₂, k, req, hpc₁, rfl⟩
    · exact h₂.placed.lock req.buf.1 w hw

/-- The request is inserted. -/
theorem Placed.listRequest (h : s.Placed disks) (hl : s.Loose t) (ht : req.task = t) (k : Cont) :
    s.Orderly disks (s.listRequest disks t k req) t := by
  unfold Buffers.listRequest
  set d := disks.parent req.buf.2.1
  subst ht
  have hself : update s.pc req.task (.check k req) req.task = .check k req := update_self ..
  have hne : ∀ w, w ≠ req.task → update s.pc req.task (.check k req) w = s.pc w :=
    fun w hw => update_of_ne hw _ _
  have hmem : ∀ e r, r ∈ (update s.dev d ((s.dev d).insert req) e).request_list ↔
      e = d ∧ r = req ∨ r ∈ (s.dev e).request_list := by
    intro e r
    by_cases he : e = d
    · subst he
      rw [update_self]
      simp [Device.insert]
    · rw [update_of_ne he]
      simp [he]
  have hserves : ∀ w r, (update s.pc req.task (.check k req) w).serves = some r →
      (s.pc w).serves = some r := by
    intro w r hw
    by_cases hwt : w = req.task
    · rw [hwt, hself] at hw
      cases hw
    · rwa [hne w hwt] at hw
  refine ⟨⟨?_, h.lock_nodup, ?_, ?_, h.wait_nodup, ?_, ?_, ?_, ?_, ?_⟩, hne, fun _ _ _ _ _ hr => hr⟩
  · intro b w hw
    show _ ∧ ∃ k' r, update s.pc req.task _ w = _ ∧ _
    rw [hne w fun he => hl.lock b (he ▸ hw)]
    exact h.lock b w hw
  · intro b w hw
    show ∃ key, update s.pc req.task _ w = _
    rw [hne w fun he => hl.waiter b (he ▸ hw)]
    exact h.waiter b w hw
  · intro w hw
    show _ ∧ ∃ key, update s.pc req.task _ w = _
    rw [hne w fun he => hl.wait (he ▸ hw)]
    exact h.wait w hw
  · intro e r hr
    show _ ∧ (update s.pc req.task _ r.task).request = _
    rcases (hmem e r).1 hr with ⟨rfl, rfl⟩ | hr
    · exact ⟨rfl, congrArg BufPc.request hself⟩
    · rw [hne _ (hl.not_listed h hr)]
      exact h.listed e r hr
  · intro w r hw
    replace hw : (update s.pc req.task _ w).request = some r := hw
    show _ ∧ r ∈ (update s.dev d _ _).request_list
    by_cases hwt : w = req.task
    · rw [hwt, hself] at hw
      cases hw
      exact ⟨hwt.symm, (hmem _ _).2 (Or.inl ⟨rfl, rfl⟩)⟩
    · rw [hne w hwt] at hw
      exact ⟨(h.request w r hw).1, (hmem _ _).2 (Or.inr (h.request w r hw).2)⟩
  · intro e
    show (update s.dev d _ e).request_list.Nodup
    by_cases he : e = d
    · rw [he, update_self]
      refine (listInsert_perm _ _ _ _).nodup_iff.2 (List.nodup_cons.2 ⟨fun hm => ?_, h.nodup d⟩)
      exact hl.not_listed h hm rfl
    · rw [update_of_ne he]
      exact h.nodup e
  · intro w r hw
    show (update s.dev d _ _).do_request = true
    have hf := h.flag w r (hserves w r hw)
    by_cases he : disks.parent r.buf.2.1 = d
    · rw [he] at hf ⊢
      rw [update_self]
      exact hf
    · rw [update_of_ne he]
      exact hf
  · intro w w' r r' hw hw'
    exact h.one w w' r r' (hserves w r hw) (hserves w' r' hw')

theorem Placed.deviceRequest (h : s.Placed disks) (hl : s.Loose t) {type : ReqType}
    (hs : s.deviceRequest disks t bf type k = .ok s') : s.Orderly disks s' t := by
  obtain ⟨req, -, -, htask, rfl⟩ := deviceRequest_eq_ok hs
  have h₁ := h.listRequest hl htask k
  exact h₁.trans (h₁.placed.checkRequest (update_self ..))

/-- The end of the request: its task is behind `device_request`. -/
theorem Placed.complete (h : s.Placed disks) (hpc : s.pc t = .served k req)
    (direct : Direct) : s.Orderly disks ({ s with
      dev := update s.dev (disks.parent req.buf.2.1)
        ⟨false, direct, (s.dev (disks.parent req.buf.2.1)).request_list.erase req⟩ }.goto t
          (.back k)) t := by
  set d := disks.parent req.buf.2.1
  have hr : (s.pc t).request = some req := by rw [hpc]; rfl
  have hs : (s.pc t).serves = some req := by rw [hpc]; rfl
  obtain ⟨hlock, hwaiter, hwait⟩ := h.loose_of_request hr (Or.inr fun k r he => by
    rw [hpc] at he
    cases he)
  have hne : ∀ w, w ≠ t → update s.pc t (.back k) w = s.pc w := fun w hw => update_of_ne hw _ _
  have hmem : ∀ e r, r ∈ (update s.dev d
      ⟨false, direct, (s.dev d).request_list.erase req⟩ e).request_list ↔
      r ≠ req ∧ r ∈ (s.dev e).request_list := by
    intro e r
    by_cases he : e = d
    · rw [he, update_self]
      exact (h.nodup d).mem_erase_iff
    · rw [update_of_ne he]
      refine ⟨fun hm => ⟨?_, hm⟩, And.right⟩
      rintro rfl
      exact he (h.listed e r hm).1.symm
  have hown : ∀ w r, (update s.pc t (.back k) w).request = some r →
      w ≠ t ∧ (s.pc w).request = some r := by
    intro w r hw
    by_cases hwt : w = t
    · rw [hwt, update_self] at hw
      cases hw
    · exact ⟨hwt, by rwa [hne w hwt] at hw⟩
  have hserves : ∀ w r, (update s.pc t (.back k) w).serves = some r →
      w ≠ t ∧ (s.pc w).serves = some r := by
    intro w r hw
    have hwt := (hown w r (BufPc.request_of_serves hw)).1
    exact ⟨hwt, by rwa [hne w hwt] at hw⟩
  refine ⟨⟨?_, h.lock_nodup, ?_, ?_, h.wait_nodup, ?_, ?_, ?_, ?_, ?_⟩, hne, fun _ _ _ _ _ hr => hr⟩
  · intro b w hw
    show _ ∧ ∃ k' r, update s.pc t _ w = _ ∧ _
    rw [hne w fun he => hlock b (he ▸ hw)]
    exact h.lock b w hw
  · intro b w hw
    show ∃ key, update s.pc t _ w = _
    rw [hne w fun he => hwaiter b (he ▸ hw)]
    exact h.waiter b w hw
  · intro w hw
    show _ ∧ ∃ key, update s.pc t _ w = _
    rw [hne w fun he => hwait (he ▸ hw)]
    exact h.wait w hw
  · intro e r hm
    obtain ⟨hrq, hold⟩ := (hmem e r).1 hm
    show _ ∧ (update s.pc t _ r.task).request = _
    have ht : r.task ≠ t := by
      intro he
      have hreq := (h.listed e r hold).2
      rw [he, hr] at hreq
      exact hrq (Option.some.inj hreq).symm
    rw [hne _ ht]
    exact h.listed e r hold
  · intro w r hw
    obtain ⟨hwt, hw⟩ := hown w r hw
    obtain ⟨htask, hm⟩ := h.request w r hw
    refine ⟨htask, (hmem _ r).2 ⟨?_, hm⟩⟩
    rintro rfl
    exact hwt (htask.symm.trans (h.request t r hr).1)
  · intro e
    show (update s.dev d _ e).request_list.Nodup
    by_cases he : e = d
    · rw [he, update_self]
      exact (h.nodup d).erase req
    · rw [update_of_ne he]
      exact h.nodup e
  · intro w r hw
    obtain ⟨hwt, hw⟩ := hserves w r hw
    show (update s.dev d _ _).do_request = true
    rw [update_of_ne fun he => hwt (h.one w t r req hw hs he)]
    exact h.flag w r hw
  · intro w w' r r' hw hw'
    exact h.one w w' r r' (hserves w r hw).2 (hserves w' r' hw').2

/-! ## The functions of the cache -/

omit [DecidableEq T] [DecidableEq D] in
theorem fewer_setBuf {f : Buffer T α → Buffer T α} (hl : (f (s.buf bf)).b_lock = (s.buf bf).b_lock)
    (hw : (f (s.buf bf)).waiter = (s.buf bf).waiter ∨ (f (s.buf bf)).waiter = none) :
    s.Fewer (s.setBuf bf f) := by
  refine ⟨fun b => ?_, fun b => ?_, rfl, rfl, rfl, rfl⟩
  · show (update s.buf bf _ b).b_lock.waiter = _ ∨ (update s.buf bf _ b).b_lock.waiter = []
    by_cases hb : b = bf
    · rw [hb, update_self, hl]
      exact Or.inl rfl
    · rw [update_of_ne hb]
      exact Or.inl rfl
  · show (update s.buf bf _ b).waiter = _ ∨ (update s.buf bf _ b).waiter = none
    by_cases hb : b = bf
    · rw [hb, update_self]
      exact hw
    · rw [update_of_ne hb]
      exact Or.inl rfl

omit [DecidableEq T] [DecidableEq D] in
theorem fewer_findNew (s : Buffers T D α) (bf : ℕ) (key : Key) : s.Fewer (s.findNew bf key) := by
  have h : s.Fewer (s.setBuf bf fun b =>
      { b with b_count := 1, b_dirty := false, b_vaild := false, b_blknr := key.2, b_dev := key.1 }) :=
    fewer_setBuf rfl (Or.inl rfl)
  exact ⟨h.lock, h.waiter, rfl, rfl, rfl, rfl⟩

omit [DecidableEq T] [DecidableEq D] in
theorem fewer_getNewBuffer (h : s.getNewBuffer = some (s', bf)) : s.Fewer s' := by
  unfold getNewBuffer at h
  split_ifs at h
  cases h
  refine ⟨fun b => ?_, fun b => ?_, rfl, rfl, rfl, rfl⟩
  · dsimp only
    by_cases hb : b = s.buffer_ptr
    · rw [hb, update_self]
      exact Or.inr rfl
    · rw [update_of_ne hb]
      exact Or.inl rfl
  · dsimp only
    by_cases hb : b = s.buffer_ptr
    · rw [hb, update_self]
      exact Or.inr rfl
    · rw [update_of_ne hb]
      exact Or.inl rfl

omit [DecidableEq D] in
/-- Places are given up, and the task goes on. -/
theorem Placed.goes (h : s.Placed disks) (hl : s.Loose t) (hf : s.Fewer s') {pc : BufPc T}
    (hpc : pc.request = none) : s.Orderly disks (s'.goto t pc) t :=
  (h.fewer hf t).trans ((h.fewer hf t).placed.goto (hl.fewer hf) hpc)

omit [DecidableEq D] in
theorem Placed.getblkFind (h : s.Placed disks) (hl : s.Loose t) (key : Key) (bf : ℕ) :
    s.Orderly disks (s.getblkFind t key bf) t := by
  unfold Buffers.getblkFind
  cases s.findFromHashTable key with
  | some _ => exact h.goto hl rfl
  | none => exact h.goes hl (fewer_findNew s bf key) rfl

theorem Placed.getblkWrite (h : s.Placed disks) (hl : s.Loose t)
    (hs : s.getblkWrite disks t key bf = .ok s') : s.Orderly disks s' t := by
  unfold Buffers.getblkWrite at hs
  split_ifs at hs with hd
  · exact h.deviceRequest hl hs
  · cases hs
    exact h.getblkFind hl key bf

theorem Placed.getblk (h : s.Placed disks) (hpc : s.pc t = .getblk key) (hr : s.ready t = true)
    (hs : s.getblk disks t key = .ok s') : s.Orderly disks s' t := by
  have hl : s.Loose t := h.loose (by rw [hpc]; rfl) (fun key bf he => by rw [hpc] at he; cases he)
    fun _ _ => hr
  unfold Buffers.getblk at hs
  cases hf : s.findFromHashTable key with
  | some bf =>
    rw [hf] at hs
    cases hs
    exact h.goes hl (fewer_setBuf rfl (Or.inl rfl)) rfl
  | none =>
    rw [hf] at hs
    cases hn : s.getNewBuffer with
    | some r =>
      obtain ⟨s₁, bf⟩ := r
      rw [hn] at hs
      cases hs
      have hf₁ := fewer_getNewBuffer hn
      exact (h.fewer hf₁ t).trans
        ((h.fewer hf₁ t).placed.goes (hl.fewer hf₁) (fewer_findNew s₁ bf key) rfl)
    | none =>
      rw [hn] at hs
      dsimp only at hs
      rcases hsc : scan s.buf s.free_list none with ⟨_ | bf, b⟩
      · rw [hsc] at hs
        cases hs
        have h₁ : s.Orderly disks (s.goto t (.getblk key)) t := h.goto hl rfl
        have h₂ := h₁.placed.block t
        have hpc : ((s.goto t (.getblk key)).block t).pc t = .getblk key := update_self ..
        exact (h₁.trans h₂).trans (h₂.placed.push hl.wait (update_self ..) hpc t)
      · rw [hsc] at hs
        cases b with
        | true =>
          cases hs
          exact h.goes hl (fewer_findNew s bf key) rfl
        | false =>
          dsimp only at hs
          split_ifs at hs with hv
          · exact h.getblkWrite hl hs
          · obtain ⟨-, hs⟩ := cassert_bind_eq_ok.1 hs
            cases hs
            have h₁ : s.Orderly disks (s.goto t (.waiter key bf)) t := h.goto hl rfl
            have hpc : (s.goto t (.waiter key bf)).pc t = .waiter key bf := update_self ..
            have h₂ := h₁.placed.setWaiter hpc t
            exact (h₁.trans h₂).trans (h₂.placed.block t)

theorem Placed.getblkWaiter (h : s.Placed disks) (hpc : s.pc t = .waiter key bf)
    (hs : s.getblkWaiter disks t key bf = .ok s') : s.Orderly disks s' t := by
  have hf : s.Fewer (s.setBuf bf fun b => { b with waiter := none }) := fewer_setBuf rfl (Or.inr rfl)
  have h₁ := h.fewer hf t
  -- its only place was the buffer's
  have hl : (s.setBuf bf fun b => { b with waiter := none }).Loose t := by
    refine ⟨fun b hm => ?_, fun b hm => ?_, fun hm => ?_, ?_⟩
    · obtain ⟨-, k, r, he, -⟩ := h₁.placed.lock b t hm
      cases hpc.symm.trans he
    · obtain ⟨key', he⟩ := h₁.placed.waiter b t hm
      cases hpc.symm.trans he
      replace hm : (update s.buf bf _ bf).waiter = some t := hm
      rw [update_self] at hm
      cases hm
    · obtain ⟨-, key', he⟩ := h₁.placed.wait t hm
      cases hpc.symm.trans he
    · show (s.pc t).request = none
      rw [hpc]
      rfl
  unfold Buffers.getblkWaiter at hs
  dsimp only at hs
  split_ifs at hs with hc
  · cases hs
    exact h₁.trans (h₁.placed.goto hl rfl)
  · exact h₁.trans (h₁.placed.getblkWrite hl hs)

theorem Placed.breadValid (h : s.Placed disks) (hl : s.Loose t)
    (hs : s.breadValid disks t bf = .ok s') : s.Orderly disks s' t := by
  unfold Buffers.breadValid at hs
  split_ifs at hs with hv
  · cases hs
    have hf : s.Fewer { s with held := update s.held t (bf :: s.held t) } :=
      ⟨fun _ => Or.inl rfl, fun _ => Or.inl rfl, rfl, rfl, rfl, rfl⟩
    exact h.goes hl hf rfl
  · exact h.deviceRequest hl hs

omit [DecidableEq D] in
theorem Placed.wakeup (h : s.Placed disks) (hl : s.Loose t) : s.Orderly disks (s.wakeup t) t := by
  unfold Buffers.wakeup
  cases hw : s.wait_list with
  | nil => exact h.goto hl rfl
  | cons w rest =>
    have hsub : rest.Sublist s.wait_list := hw ▸ List.sublist_cons_self w rest
    have h₁ := h.pop hsub t
    obtain ⟨-, key, hpc⟩ := h.wait w (hw ▸ List.mem_cons_self ..)
    have h₂ := h₁.placed.unblock (w := w) (fun bf hm => ?_)
      (List.nodup_cons.1 (hw ▸ h.wait_nodup)).1 (fun k r he => by cases hpc.symm.trans he) t
    · have hl₂ : ({ s with wait_list := rest }.unblock w).Loose t :=
        ⟨hl.lock, hl.waiter, fun hm => hl.wait (hsub.subset hm), hl.request⟩
      exact (h₁.trans h₂).trans (h₂.placed.goto hl₂ rfl)
    · obtain ⟨-, k, r, he, -⟩ := h.lock bf w hm
      cases hpc.symm.trans he

theorem Placed.brelseRest (h : s.Placed disks) (hl : s.Loose t)
    (hs : s.brelseRest disks t bf = .ok s') : s.Orderly disks s' t := by
  unfold Buffers.brelseRest at hs
  split_ifs at hs with hc hd
  · cases hs
    exact h.goto hl rfl
  · exact h.deviceRequest hl hs
  · cases hs
    exact h.wakeup hl

omit [DecidableEq D] in
theorem Placed.goBack (h : s.Placed disks) (hl : s.Loose t) (k : Cont) :
    s.Orderly disks (s.goBack t k) t := by
  have hf : ∀ bf (f : Buffer T α → Buffer T α), (∀ b, (f b).b_lock = b.b_lock ∧ (f b).waiter = b.waiter) →
      s.Fewer (s.setBuf bf f) := fun bf f hf => fewer_setBuf (hf _).1 (Or.inl (hf _).2)
  cases k with
  | victim key bf =>
    have hf₁ := hf bf (fun b => { b with b_dirty := false }) fun _ => ⟨rfl, rfl⟩
    have h₁ := h.fewer hf₁ t
    show s.Orderly disks (if _ then _ else _) t
    split_ifs
    · exact h₁.trans (h₁.placed.goto (hl.fewer hf₁) rfl)
    · exact h₁.trans (h₁.placed.getblkFind (hl.fewer hf₁) key bf)
  | bread bf =>
    have hf₁ := hf bf (fun b => { b with b_vaild := true, b_dirty := false }) fun _ => ⟨rfl, rfl⟩
    have hf₂ : s.Fewer { s.setBuf bf fun b => { b with b_vaild := true, b_dirty := false } with
        held := update s.held t (bf :: s.held t) } := ⟨hf₁.lock, hf₁.waiter, rfl, rfl, rfl, rfl⟩
    exact h.goes hl hf₂ rfl
  | brelse bf =>
    have hf₁ := hf bf (fun b => { b with b_dirty := false }) fun _ => ⟨rfl, rfl⟩
    exact (h.fewer hf₁ t).trans ((h.fewer hf₁ t).placed.wakeup (hl.fewer hf₁))

omit [DecidableEq D] in
theorem Placed.mutexUnlock (h : s.Placed disks) (bf : ℕ) (u : T) :
    s.Orderly disks (s.mutexUnlock bf) u := by
  unfold Buffers.mutexUnlock
  dsimp only
  cases hw : (s.buf bf).b_lock.waiter.getLast? with
  | none => exact h.setLock List.nodup_nil (fun w hw => absurd hw List.not_mem_nil) u
  | some w =>
    have happ := List.dropLast_append_getLast? w hw
    have hn := h.lock_nodup bf
    rw [← happ] at hn
    obtain ⟨hd, -, hdis⟩ := List.nodup_append.1 hn
    have hmem : w ∈ (s.buf bf).b_lock.waiter := List.mem_of_getLast? hw
    obtain ⟨hr, k, r, hpc, hbf⟩ := h.lock bf w hmem
    have h₁ : s.Orderly disks (s.setBuf bf fun b => { b with b_lock :=
        ⟨(s.buf bf).b_lock.value, (s.buf bf).b_lock.waiter.dropLast⟩ }) u :=
      h.setLock hd (fun v hv => h.lock bf v (List.mem_of_mem_dropLast hv)) u
    refine h₁.trans (h₁.placed.unblock (fun b hm => ?_) (fun hm => ?_) (fun k' r' he => ?_) u)
    · by_cases hb : b = bf
      · replace hm : w ∈ (update s.buf bf _ b).b_lock.waiter := hm
        rw [hb, update_self] at hm
        exact hdis w hm w (List.mem_singleton_self w) rfl
      · obtain ⟨-, k', r', he, hbf'⟩ := h₁.placed.lock b w hm
        cases hpc.symm.trans he
        exact hb (hbf'.symm.trans hbf)
    · obtain ⟨-, key, he⟩ := h.wait w hm
      cases hpc.symm.trans he
    · cases hpc.symm.trans he

omit [DecidableEq D] in
theorem mutexUnlock_pc (s : Buffers T D α) (bf : ℕ) : (s.mutexUnlock bf).pc = s.pc := by
  unfold Buffers.mutexUnlock
  dsimp only
  cases (s.buf bf).b_lock.waiter.getLast? <;> rfl

omit [DecidableEq D] in
theorem Placed.bufferUnlock (h : s.Placed disks) (bf : ℕ) (u : T) :
    s.Orderly disks (s.bufferUnlock bf) u := by
  have h₁ := h.mutexUnlock bf u
  unfold Buffers.bufferUnlock
  cases hw : (s.buf bf).waiter with
  | none => exact h₁
  | some w =>
    obtain ⟨key, hpc⟩ := h.waiter bf w hw
    have hpc₁ : (s.mutexUnlock bf).pc w = .waiter key bf := by rw [mutexUnlock_pc, hpc]
    refine h₁.trans (h₁.placed.unblock (fun b hm => ?_) (fun hm => ?_) (fun k r he => ?_) u)
    · obtain ⟨-, k, r, he, -⟩ := h₁.placed.lock b w hm
      cases hpc₁.symm.trans he
    · obtain ⟨-, key', he⟩ := h₁.placed.wait w hm
      cases hpc₁.symm.trans he
    · cases hpc₁.symm.trans he

omit [DecidableEq D] in
theorem bufferUnlock_pc (s : Buffers T D α) (bf : ℕ) : (s.bufferUnlock bf).pc = s.pc := by
  unfold Buffers.bufferUnlock
  cases (s.buf bf).waiter with
  | none => exact mutexUnlock_pc s bf
  | some w => exact mutexUnlock_pc s bf

/-- What the end of a request leaves of the list, and whom it chooses. -/
theorem finish_ok {d d' : Device T (ℕ × Key)} {next : Option (Request T (ℕ × Key))}
    (h : d.finish req = .ok (d', next)) :
    ∃ direct, d' = ⟨false, direct, d.request_list.erase req⟩ ∧ ∀ q, next = some q → q ∈ d.request_list := by
  obtain ⟨⟨direct, next'⟩, hg, h⟩ := bind_eq_ok.1 h
  cases h
  refine ⟨direct, rfl, fun q hq => ?_⟩
  obtain ⟨-, hg⟩ := cassert_bind_eq_ok.1 hg
  dsimp only at hg
  split at hg
  · cases hg
    exact mem_of_nextOf hq
  · cases hg
    exact mem_of_prevOf hq

theorem Placed.finishRequest (h : s.Placed disks) (hpc : s.pc t = .served k req)
    (hs : s.finishRequest disks t k req = .ok s') : s.Orderly disks s' t := by
  have h₁ := h.bufferUnlock req.buf.1 t
  have hpc₁ : (s.bufferUnlock req.buf.1).pc t = .served k req := by rw [bufferUnlock_pc, hpc]
  obtain ⟨⟨dev, next⟩, hf, hs⟩ := bind_eq_ok.1 hs
  obtain ⟨direct, rfl, hnext⟩ := finish_ok hf
  have h₂ := h₁.placed.complete hpc₁ direct
  refine h₁.trans (h₂.trans ?_)
  cases next with
  | none =>
    cases hs
    exact .refl h₂.placed t
  | some next =>
    cases hs
    set s₁ := s.bufferUnlock req.buf.1
    obtain ⟨hd, hreq⟩ := h₁.placed.listed _ next (hnext next rfl)
    -- the chosen task is in front of `do_request`, unless it is the task itself
    have hwho : ∀ v, v = next.task → ∀ w r, update s₁.pc t (.back k) v = .serve w r ∨
        update s₁.pc t (.back k) v = .served w r → False := by
      rintro v rfl w r he
      by_cases hv : next.task = t
      · rw [hv, update_self] at he
        rcases he with he | he <;> cases he
      · rw [update_of_ne hv] at he
        have hserves : (s₁.pc next.task).serves = some next := by
          rcases he with he | he <;>
          · rw [he] at hreq ⊢
            exact hreq
        exact hv (h₁.placed.one _ t next req hserves (by rw [hpc₁]; rfl) hd)
    refine h₂.placed.unblock (fun b hm => ?_) (fun hm => ?_) (fun w r he => ?_) t
    · obtain ⟨-, w, r, he, -⟩ := h₂.placed.lock b next.task hm
      exact hwho _ rfl w r (Or.inl he)
    · obtain ⟨-, key, he⟩ := h₂.placed.wait next.task hm
      replace he : update s₁.pc t (.back k) next.task = .getblk key := he
      by_cases hv : next.task = t
      · rw [hv, update_self] at he
        cases he
      · rw [update_of_ne hv] at he
        rw [he] at hreq
        cases hreq
    · exact hwho _ rfl w r (Or.inr he)

end Buffers

/-! ## Runs -/

open Buffers

section Runs
variable {T D α : Type} [DecidableEq T] [DecidableEq D] {disks : Disks D} {s s' : Buffers T D α}
  {t : T} {k : Cont} {req : Request T (ℕ × Key)}

/-- **A step is orderly.** -/
theorem FailStep.orderly {a : FailAct T α} (h : s.Placed disks) (hs : FailStep disks s a s') :
    s.Orderly disks s' a.task := by
  -- a task in its own code, or behind a wait, is registered nowhere
  have hl : ∀ {t} {pc : BufPc T}, s.pc t = pc → pc.request = none → (∀ key bf, pc ≠ .waiter key bf) →
      (∀ key, pc ≠ .getblk key) → s.Loose t := by
    rintro t pc rfl hr hw hg
    exact h.loose hr hw fun key he => absurd he (hg key)
  have hdata : ∀ bf data, s.Fewer (s.setBuf bf fun b => { b with b_data := data }) := fun bf data =>
    fewer_setBuf rfl (Or.inl rfl)
  have hserve : ∀ {t k req} {s₁ : Buffers T D α}, s.pc t = .serve k req → s.ready t = true →
      s.Fewer s₁ → s.Orderly disks (s₁.goto t (.served k req)) t := fun {t k req s₁} hpc hr hf =>
    (h.fewer hf t).trans ((h.fewer hf t).placed.served ((congrFun hf.pc t).trans hpc)
      ((congrFun hf.ready t).trans hr))
  cases hs with
  | @fail t k req data hpc hr =>
    show s.Orderly disks (s.doRequestEof t k req data) t
    unfold doRequestEof
    cases req.type with
    | read =>
      have h₁ := hserve hpc hr (hdata req.buf.1 data)
      exact h₁.trans (h₁.placed.block t)
    | write =>
      have hf : s.Fewer { s with disk := update s.disk req.buf.2 data } :=
        ⟨fun _ => Or.inl rfl, fun _ => Or.inl rfl, rfl, rfl, rfl, rfl⟩
      have h₁ := hserve hpc hr hf
      exact h₁.trans (h₁.placed.block t)
  | step hs hready =>
    cases hs with
    | bread hpc => exact h.goto (hl hpc rfl nofun nofun) rfl
    | modify hpc _ => exact h.fewer (fewer_setBuf rfl (Or.inl rfl)) _
    | @brelse t bf hpc _ =>
      have hf : s.Fewer (s.setBuf bf fun b => { b with b_count := b.b_count - 1 }) :=
        fewer_setBuf rfl (Or.inl rfl)
      have hf₁ : s.Fewer { s.setBuf bf fun b => { b with b_count := b.b_count - 1 } with
          held := update s.held t ((s.held t).erase bf) } := ⟨hf.lock, hf.waiter, rfl, rfl, rfl, rfl⟩
      exact h.goes (hl hpc rfl nofun nofun) hf₁ rfl
    | getblk hpc hr hs => exact h.getblk hpc hr hs
    | waiter hpc _ hs => exact h.getblkWaiter hpc hs
    | breadValid hpc hs => exact h.breadValid (hl hpc rfl nofun nofun) hs
    | brelseRest hpc hs => exact h.brelseRest (hl hpc rfl nofun nofun) hs
    | check hpc _ => exact h.checkRequest hpc
    | @serve t k req hpc hr =>
      show s.Orderly disks (s.doRequest t k req) t
      unfold doRequest
      cases req.type with
      | read => exact hserve hpc hr (hdata req.buf.1 _)
      | write =>
        have hf : s.Fewer { s with disk := update s.disk req.buf.2 (s.buf req.buf.1).b_data } :=
          ⟨fun _ => Or.inl rfl, fun _ => Or.inl rfl, rfl, rfl, rfl, rfl⟩
        exact hserve hpc hr hf
    | finish hpc hs => exact h.finishRequest hpc hs
    | back hpc => exact h.goBack (hl hpc rfl nofun nofun) _

theorem placed_reach (h : (failSys T D α disks).Reach s) : s.Placed disks := by
  refine h.invariant (fun s hs => ?_) fun s a s' hI hst => (hst.orderly hI).placed
  obtain ⟨⟨-, -, -, hwait, hdev, hpc, -, -⟩, hbuf⟩ := hs
  refine ⟨?_, ?_, ?_, ?_, ?_, ?_, ?_, ?_, ?_, ?_⟩
  · intro bf w hw
    rw [(hbuf bf).1] at hw
    cases hw
  · intro bf
    rw [(hbuf bf).1]
    exact List.nodup_nil
  · intro bf w hw
    rw [(hbuf bf).2] at hw
    cases hw
  · intro w hw
    rw [hwait] at hw
    cases hw
  · rw [hwait]
    exact List.nodup_nil
  · intro d r hr
    rw [hdev] at hr
    cases hr
  · intro t r hr
    rw [hpc] at hr
    cases hr
  · intro d
    rw [hdev]
    exact List.nodup_nil
  · intro t r hr
    rw [hpc] at hr
    cases hr
  · intro t t' r r' hr
    rw [hpc] at hr
    cases hr

/-- A state that a run from `s` leads to. -/
def Later (disks : Disks D) : Buffers T D α → Buffers T D α → Prop :=
  Relation.ReflTransGen fun s s' => ∃ a, FailStep disks s a s'

/-- The task is blocked behind `do_request`. -/
structure Stuck (disks : Disks D) (s : Buffers T D α) (t : T) (k : Cont) (req : Request T (ℕ × Key)) :
    Prop where
  placed : s.Placed disks
  pc : s.pc t = .served k req
  ready : s.ready t = false

/-- It does not take the step. -/
theorem Stuck.task_ne {a : FailAct T α} (h : Stuck disks s t k req) (hs : FailStep disks s a s') :
    t ≠ a.task := by
  rintro rfl
  have hpc := h.pc
  cases hs with
  | fail hpc' hr => cases hpc'.symm.trans hpc
  | @step a s' hs hready =>
    cases hs with
    | finish _ _ =>
      have hr := hready _ _ _ rfl hpc
      cases hr.symm.trans h.ready
    | bread hpc' | modify hpc' _ | brelse hpc' _ | getblk hpc' _ _ | waiter hpc' _ _ | breadValid hpc' _
    | brelseRest hpc' _ | check hpc' _ | serve hpc' _ | back hpc' => cases hpc'.symm.trans hpc

theorem Stuck.step {a : FailAct T α} (h : Stuck disks s t k req) (hs : FailStep disks s a s') :
    Stuck disks s' t k req := by
  have ho := hs.orderly h.placed
  have hne := h.task_ne hs
  exact ⟨ho.placed, (ho.rest t hne).trans h.pc, ho.asleep t hne k req h.pc h.ready⟩

/-- **It stays blocked.** -/
theorem Stuck.later (h : Stuck disks s t k req) (hs : Later disks s s') : Stuck disks s' t k req := by
  induction hs with
  | refl => exact h
  | tail _ hstep ih =>
    obtain ⟨a, hstep⟩ := hstep
    exact ih.step hstep

theorem stuck_of_fail (data : α) (h : (failSys T D α disks).Reach s) (hpc : s.pc t = .serve k req)
    (hr : s.ready t = true) : Stuck disks (s.doRequestEof t k req data) t k req := by
  refine ⟨placed_reach (h.step (a := .fail t) (.fail hpc hr)), ?_, ?_⟩
  · unfold doRequestEof
    cases req.type with
    | read => exact update_self ..
    | write => exact update_self ..
  · unfold doRequestEof
    cases req.type with
    | read => exact update_self ..
    | write => exact update_self ..

/-- `device_request` goes on after the transfer of task `t`: some time it unlocks the buffer, clears
    `do_request`, chooses and unblocks the next task and removes the request, as after a transfer
    that succeeds; and its `bread` does not mark the buffer. -/
structure Survives (disks : Disks D) (s : Buffers T D α) (t : T) (k : Cont)
    (req : Request T (ℕ × Key)) : Prop where
  cleans : ∃ s₁ s₂, Later disks s s₁ ∧ s₁.pc t = .served k req ∧
    s₁.finishRequest disks t k req = .ok s₂ ∧ FailStep disks s₁ (.step (.run t)) s₂
  unread : ∀ s₁ s₂ bf, Later disks s s₁ → k = .bread bf → s₁.pc t = .back k →
    FailStep disks s₁ (.step (.run t)) s₂ → (s₂.buf bf).b_vaild = false

/-- The disk of the request is taken: it is busy with the request, and with no other. -/
structure Down (disks : Disks D) (s : Buffers T D α) (t : T) (req : Request T (ℕ × Key)) : Prop where
  do_request : (s.dev (disks.parent req.buf.2.1)).do_request = true
  request_list : req ∈ (s.dev (disks.parent req.buf.2.1)).request_list
  server : ∀ u r, (s.pc u).serves = some r →
    disks.parent r.buf.2.1 = disks.parent req.buf.2.1 → u = t

omit [DecidableEq T] [DecidableEq D] in
theorem Stuck.down (h : Stuck disks s t k req) : Down disks s t req := by
  have hs : (s.pc t).serves = some req := by
    rw [h.pc]
    rfl
  exact ⟨h.placed.flag t req hs, (h.placed.request t req (BufPc.request_of_serves hs)).2,
    fun u r hu hd => h.placed.one u t r req hu hs hd⟩

theorem Stuck.not_survives (h : Stuck disks s t k req) : ¬ Survives disks s t k req := by
  rintro ⟨⟨s₁, s₂, hl, -, -, hs⟩, -⟩
  exact (h.later hl).task_ne hs rfl

/-- **Main result.** Whatever the queue and whatever the tasks do afterwards, a failed transfer is not
    cleaned up, and its disk is busy with it for ever. -/
theorem failed_transfer_never (data : α) (h : (failSys T D α disks).Reach s)
    (hpc : s.pc t = .serve k req) (hr : s.ready t = true) :
    ¬ Survives disks (s.doRequestEof t k req data) t k req ∧
      ∀ s', Later disks (s.doRequestEof t k req data) s' → Down disks s' t req := by
  have hstuck := stuck_of_fail data h hpc hr
  exact ⟨hstuck.not_survives, fun s' hs => (hstuck.later hs).down⟩

end Runs

/-! ## One disk, one read -/

/-- One disk. -/
def oneDisk : Disks Unit := ⟨fun _ => (), fun _ => true, fun _ => 0⟩

/-- The read of block 7 of device 5. -/
def readSeven : Request Unit (ℕ × Key) := ⟨.read, 14, (0, (5, 7)), ()⟩

/-- The task is in `do_request`. -/
theorem reading : ∃ s : Buffers Unit Unit ℕ, (failSys Unit Unit ℕ oneDisk).Reach s ∧
    s.pc () = .serve (.bread 0) readSeven ∧ s.ready () = true ∧ (s.buf 0).b_lock.value = false := by
  have run {s s' : Buffers Unit Unit ℕ} (h : (failSys Unit Unit ℕ oneDisk).Reach s)
      (hs : BufStep oneDisk s (.run ()) s') (hpc : ∀ k req, s.pc () ≠ .served k req) :
      (failSys Unit Unit ℕ oneDisk).Reach s' :=
    h.step (.step hs fun _ k req _ he => absurd he (hpc k req))
  have h₀ : (failSys Unit Unit ℕ oneDisk).Reach loneCache :=
    .init ⟨⟨rfl, rfl, fun _ => rfl, rfl, fun _ => rfl, fun _ => rfl, fun _ => rfl, fun _ => rfl⟩,
      fun _ => ⟨rfl, rfl⟩⟩
  have h₁ : (failSys Unit Unit ℕ oneDisk).Reach (loneCache.goto () (.getblk (5, 7))) :=
    h₀.step (a := .step (.bread () (5, 7))) (.step (.bread rfl) fun _ _ _ he => nomatch he)
  have h₂ := run h₁ (.getblk (t := ()) rfl rfl rfl) nofun
  have h₃ := run h₂ (.breadValid (t := ()) rfl rfl) nofun
  exact ⟨_, h₃, rfl, rfl, rfl⟩

theorem failed_transfer_never_read : ∃ s : Buffers Unit Unit ℕ,
    ¬ Survives oneDisk (s.doRequestEof () (.bread 0) readSeven 0) () (.bread 0) readSeven := by
  obtain ⟨s, h, hpc, hr, -⟩ := reading
  exact ⟨s, (failed_transfer_never 0 h hpc hr).1⟩

/-- **The first read of a disk fails**: the disk is down. -/
theorem failed_read : ∃ s : Buffers Unit Unit ℕ, (failSys Unit Unit ℕ oneDisk).Reach s ∧
    s.pc () = .serve (.bread 0) readSeven ∧ s.ready () = true ∧
    ¬ Survives oneDisk (s.doRequestEof () (.bread 0) readSeven 0) () (.bread 0) readSeven := by
  obtain ⟨s, h, hpc, hr, -⟩ := reading
  exact ⟨s, h, hpc, hr, (stuck_of_fail 0 h hpc hr).not_survives⟩

end Rdix
