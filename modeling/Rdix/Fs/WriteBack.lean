/-
  Where a buffer is written to (fs/buffer.c: bwrite; device_request of kernel/device.c).

  * `Flagged`: a buffer that is written stays dirty, so that `getblk` does not take it;
  * `Sound`: the requests in the queue name the buffer and its block, and the bytes of a buffer that is
    written belong to this block;
  * `write_back_right`: it holds in every interleaving in which no two tasks write the same buffer at
    a time, and no buffer is referenced a 256th time.
-/
import Rdix.Fs.BufferData

namespace Rdix

open Function Transition

namespace Buffers

variable {T D α : Type} {s s' : Buffers T D α} {b : ℕ} {t : T} {h : Hist α}

/-- **A buffer without references is in nobody's read.** -/
theorem Counted.reading [Fintype T] (hcnt : s.Counted) (hb : b < s.buffer_ptr) (h0 : (s.buf b).b_count = 0) (t : T) :
    (s.pc t).reading ≠ some b ∧ b ∉ s.held t := by
  have hsum : s.refs b = 0 := by
    rw [← hcnt b hb, h0]
    rfl
  have ht : s.taskRefs t b = 0 := Finset.sum_eq_zero_iff.1 hsum t (Finset.mem_univ t)
  unfold taskRefs at ht
  constructor
  · intro hr
    rw [if_pos hr] at ht
    omega
  · intro hm
    have := List.count_pos_iff.2 hm
    omega

section Goto
variable [DecidableEq T] {pc : BufPc T} {u : T}

theorem pc_goto (hpc : s'.pc = update s.pc t pc) (u : T) :
    u = t ∧ s'.pc u = pc ∨ u ≠ t ∧ s'.pc u = s.pc u := by
  rw [hpc]
  by_cases hu : u = t
  · exact Or.inl ⟨hu, by rw [hu, update_self]⟩
  · exact Or.inr ⟨hu, update_of_ne hu _ _⟩

/-- What a task holds that `bread` has returned a buffer to. -/
theorem mem_held {l : List ℕ} {c : ℕ} (hheld : s'.held = update s.held t (b :: l)) (hl : l = s.held t)
    (hc : c ∈ s'.held u) : c = b ∨ c ∈ s.held u := by
  rw [hheld] at hc
  by_cases hu : u = t
  · rw [hu, update_self, hl] at hc
    exact hu ▸ List.mem_cons.1 hc
  · rw [update_of_ne hu] at hc
    exact Or.inr hc

theorem pending_goto {k : Cont} {req : Request T (ℕ × Key)} (hpc : s'.pc = update s.pc t pc)
    (h : (s'.pc u).pending = some (k, req)) :
    pc.pending = some (k, req) ∨ (s.pc u).pending = some (k, req) := by
  rcases pc_goto hpc u with ⟨-, hu⟩ | ⟨-, hu⟩
  · exact Or.inl (hu ▸ h)
  · exact Or.inr (hu ▸ h)

/-- A task that goes on outside of `device_request` has nothing under way. -/
theorem under_goto {type : ReqType} (hpc : s'.pc = update s.pc t pc) (hp : ∀ type, pc.under type = none)
    (h : (s'.pc u).under type = some b) : u ≠ t ∧ (s.pc u).under type = some b := by
  rcases pc_goto hpc u with ⟨-, hu⟩ | ⟨hne, hu⟩
  · rw [hu, hp] at h
    cases h
  · exact ⟨hne, hu ▸ h⟩

end Goto

/-! ## The flags -/

/-- A dirty buffer and a buffer that is held are valid; a buffer that is written is dirty, and is not
    read at the same time. -/
structure Flagged (s : Buffers T D α) : Prop where
  dirty : ∀ b < s.buffer_ptr, (s.store b).dirty = true → (s.store b).vaild = true
  held : ∀ t, ∀ b ∈ s.held t, (s.store b).vaild = true
  writer : ∀ t b, (s.pc t).under .write = some b → (s.store b).dirty = true
  apart : ∀ t u b, (s.pc t).under .write = some b → (s.pc u).under .read ≠ some b

/-- Nobody has anything new under way, and no flag is cleared of what is written or held. -/
theorem Flagged.keeps (H : s.Flagged)
    (hdirty : ∀ b < s'.buffer_ptr, (s'.store b).dirty = true → (s'.store b).vaild = true)
    (hheld : ∀ t, ∀ b ∈ s'.held t, (s'.store b).vaild = true)
    (hunder : ∀ u type b, (s'.pc u).under type = some b → (s.pc u).under type = some b)
    (hwriter : ∀ u b, (s'.pc u).under .write = some b → (s.store b).dirty = true →
      (s'.store b).dirty = true) : s'.Flagged := by
  refine ⟨hdirty, hheld, fun u b hu => ?_, fun u v b hu hv => ?_⟩
  · exact hwriter u b hu (H.writer u b (hunder u .write b hu))
  · exact H.apart u v b (hunder u .write b hu) (hunder v .read b hv)

theorem Flagged.of_store (H : s.Flagged) (hstore : s'.store = s.store)
    (hptr : s'.buffer_ptr = s.buffer_ptr) (hheld : ∀ u, ∀ b ∈ s'.held u, b ∈ s.held u)
    (hunder : ∀ u type b, (s'.pc u).under type = some b → (s.pc u).under type = some b) : s'.Flagged := by
  refine H.keeps ?_ (fun u b hb => ?_) hunder fun u b _ hd => ?_
  · rw [hstore, hptr]
    exact H.dirty
  · rw [hstore]
    exact H.held u b (hheld u b hb)
  · rw [hstore]
    exact hd

/-- One buffer is changed. -/
theorem Flagged.put (H : s.Flagged) {v : Store α} (hstore : s'.store = update s.store b v)
    (hptr : ∀ c ≠ b, c < s'.buffer_ptr → c < s.buffer_ptr) (hv : v.dirty = true → v.vaild = true)
    (hheld : ∀ u, ∀ c ∈ s'.held u, c = b ∧ v.vaild = true ∨ c ≠ b ∧ c ∈ s.held u)
    (hunder : ∀ u type c, (s'.pc u).under type = some c → (s.pc u).under type = some c)
    (hwriter : ∀ u, (s'.pc u).under .write = some b → v.dirty = true) : s'.Flagged := by
  refine H.keeps (fun c hc hd => ?_) (fun u c hc => ?_) hunder fun u c hu hd => ?_
  · rw [hstore] at hd ⊢
    by_cases hcb : c = b
    · rw [hcb, update_self] at hd ⊢
      exact hv hd
    · rw [update_of_ne hcb] at hd ⊢
      exact H.dirty c (hptr c hcb hc) hd
  · rw [hstore]
    rcases hheld u c hc with ⟨rfl, hv⟩ | ⟨hcb, hc⟩
    · rw [update_self]
      exact hv
    · rw [update_of_ne hcb]
      exact H.held u c hc
  · rw [hstore]
    by_cases hcb : c = b
    · rw [hcb, update_self]
      exact hwriter u (hcb ▸ hu)
    · rw [update_of_ne hcb]
      exact hd

theorem store_modify (s : Buffers T D α) (bf : ℕ) (data : α) :
    (s.setBuf bf fun b => { b with b_data := data, b_dirty := true }).store =
      Function.update s.store bf { s.store bf with data := data, dirty := true } := store_setBuf s bf _

theorem Flagged.modify (H : s.Flagged) {bf : ℕ} (hm : bf ∈ s.held t) (data : α) :
    (s.setBuf bf fun b => { b with b_data := data, b_dirty := true }).Flagged := by
  refine H.put (store_modify s bf data) (fun _ _ => id) (fun _ => H.held t bf hm) (fun u c hc => ?_)
    (fun _ _ _ => id) fun _ _ => rfl
  by_cases hcb : c = bf
  · exact Or.inl ⟨hcb, H.held t bf hm⟩
  · exact Or.inr ⟨hcb, hc⟩

section Flags
variable [Fintype T]

/-- **What is under way is not taken** for another block, if no two tasks write a buffer at a time. -/
theorem Flagged.not_under (H : s.Flagged) (hK : s.Keyed) (hcnt : s.Counted) (hone : OneWriter s)
    (hb : b < s.buffer_ptr ∧ (s.buf b).b_count = 0 ∧
        ((s.store b).dirty = false ∨ ∃ k, s.pc t = .back k ∧ k.type = .write ∧ k.buf = b) ∨
      b = s.buffer_ptr) {u : T} (hu : u ≠ t) (type : ReqType) : (s.pc u).under type ≠ some b := by
  intro hun
  rcases hb with ⟨hb, h0, hd⟩ | rfl
  · cases type with
    | read => exact (hcnt.reading hb h0 u).1 (BufPc.reading_of_under hun)
    | write =>
      rcases hd with hd | ⟨k, hpc, hk, rfl⟩
      · rw [H.writer u b hun] at hd
        cases hd
      · exact hu (hone u t k.buf hun (by rw [hpc]; exact if_pos hk))
  · exact absurd (hK.named _ ⟨u, Or.inl (BufPc.buf_of_under hun)⟩) (lt_irrefl _)

/-- And what is held is not taken either. -/
theorem not_held (hK : s.Keyed) (hcnt : s.Counted)
    (hb : b < s.buffer_ptr ∧ (s.buf b).b_count = 0 ∨ b = s.buffer_ptr) (u : T) : b ∉ s.held u := by
  intro hm
  rcases hb with ⟨hb, h0⟩ | rfl
  · exact (hcnt.reading hb h0 u).2 hm
  · exact absurd (hK.named _ ⟨u, Or.inr hm⟩) (lt_irrefl _)

variable [DecidableEq T]

/-- **A request that is new** is for a buffer that nobody reads, or that is not dirty. -/
theorem Flagged.goes (H : s.Flagged) (hcnt : s.Counted) {pc : BufPc T} (hs : s.Turns s' t pc)
    (ho : s.Onward t pc) : s'.Flagged := by
  have hunder : ∀ u type b, (s'.pc u).under type = some b → (s.pc u).under type = some b ∨
      ∃ k req, k.type = type ∧ k.buf = b ∧ s.Asks k req := by
    intro u type b hu
    rcases pc_goto hs.pc u with ⟨rfl, hp⟩ | ⟨-, hp⟩
    · exact ho.under type b (hp ▸ hu)
    · exact Or.inl (hp ▸ hu)
  have hwriter : ∀ u b, (s'.pc u).under .write = some b → (s.store b).dirty = true := by
    intro u b hu
    rcases hunder u .write b hu with hu | ⟨k, req, hk, rfl, ha⟩
    · exact H.writer u b hu
    · exact (ha.write hk).1
  refine ⟨?_, ?_, fun u b hu => ?_, fun u v b hu hv => ?_⟩
  · rw [hs.store, hs.ptr]
    exact H.dirty
  · rw [hs.store, hs.held]
    exact H.held
  · rw [hs.store]
    exact hwriter u b hu
  · -- a read is asked for if the buffer is not valid, a write if nobody reads it
    rcases hunder v .read b hv with hv | ⟨k, req, hk, rfl, ha⟩
    · rcases hunder u .write b hu with hu | ⟨k, req, hk, rfl, ha⟩
      · exact H.apart u v b hu hv
      · exact (hcnt.reading ha.lt (ha.write hk).2 v).1 (BufPc.reading_of_under hv)
    · have hv := ha.read hk
      rw [H.dirty k.buf ha.lt (hwriter u _ hu)] at hv
      cases hv

/-- **The effects of a step keep the flags**: `b_dirty` is cleared by the only writer. -/
theorem Flagged.effect (H : s.Flagged) (hK : s.Keyed) (hcnt : s.Counted) (hone : OneWriter s)
    (he : s.Effect s' t) : s'.Flagged := by
  cases he with
  | still hs => exact H.of_store hs.store hs.ptr (fun u b hb => hs.held ▸ hb) fun u type b hu => hs.pc ▸ hu
  | goes pc hs ho => exact H.goes hcnt hs ho
  | clean k pc hpc hk hstore _ hptr hpc' hheld _ hu =>
    refine H.put hstore (fun c _ hc => hptr ▸ hc) (fun hd => by cases hd) (fun u c hc => ?_)
      (fun u type c hu' => (under_goto hpc' hu hu').2) fun u hu' => ?_
    · rw [hheld] at hc
      by_cases hcb : c = k.buf
      · exact Or.inl ⟨hcb, hcb ▸ H.held u c hc⟩
      · exact Or.inr ⟨hcb, hc⟩
    · obtain ⟨hne, hu'⟩ := under_goto hpc' hu hu'
      exact absurd (hone u t k.buf hu' (by rw [hpc]; exact if_pos hk)) hne
  | take b key _ hb _ hstore _ hpc hheld =>
    obtain ⟨data, hstore⟩ := hstore
    have hfree : ∀ u ≠ t, (s.pc u).under .write ≠ some b := fun u hu =>
      H.not_under hK hcnt hone (hb.imp (fun hb => ⟨hb.1, hb.2.1, hb.2.2.1⟩) And.left) hu .write
    refine H.put hstore (fun c _ hc => by omega) (fun hd => by cases hd) (fun u c hc => Or.inr ?_)
      (fun u type c hu => (under_goto hpc (fun _ => rfl) hu).2) fun u hu => ?_
    · rw [hheld] at hc
      refine ⟨?_, hc⟩
      rintro rfl
      exact not_held hK hcnt (hb.imp (fun hb => ⟨hb.1, hb.2.1⟩) And.left) u hc
    · obtain ⟨hne, hu⟩ := under_goto hpc (fun _ => rfl) hu
      exact absurd hu (hfree u hne)
  | hold b _ hv hstore _ hptr hpc hheld =>
    refine H.keeps ?_ (fun u c hc => ?_) (fun u type c hu => (under_goto hpc (fun _ => rfl) hu).2)
      fun u c _ hd => ?_
    · rw [hstore, hptr]
      exact H.dirty
    · rw [hstore]
      rcases mem_held hheld rfl hc with rfl | hc
      · exact hv
      · exact H.held u c hc
    · rw [hstore]
      exact hd
  | fill b hpc hstore _ hptr hpc' hheld =>
    refine H.put hstore (fun c _ hc => hptr ▸ hc) (fun hd => by cases hd) (fun u c hc => ?_)
      (fun u type c hu => (under_goto hpc' (fun _ => rfl) hu).2) fun u hu => ?_
    · by_cases hcb : c = b
      · exact Or.inl ⟨hcb, rfl⟩
      · exact Or.inr ⟨hcb, (mem_held hheld rfl hc).resolve_left hcb⟩
    · obtain ⟨-, hu⟩ := under_goto hpc' (fun _ => rfl) hu
      exact absurd (by rw [hpc]; rfl) (H.apart u t b hu)

omit [Fintype T] in
/-- A transfer changes no flag. -/
theorem Serves.flags {k : Cont} {req : Request T (ℕ × Key)} (hs : s.Serves s' t k req) (b : ℕ) :
    (s'.store b).dirty = (s.store b).dirty ∧ (s'.store b).vaild = (s.store b).vaild ∧
      (s'.store b).key = (s.store b).key := by
  cases hty : req.type with
  | read =>
    rw [(hs.read hty).2]
    exact ⟨Store.field_update Store.dirty (by rfl) b, Store.field_update Store.vaild (by rfl) b,
      Store.field_update Store.key (by rfl) b⟩
  | write =>
    rw [(hs.write hty).1]
    exact ⟨rfl, rfl, rfl⟩

omit [Fintype T] in
theorem Flagged.serves (H : s.Flagged) {k : Cont} {req : Request T (ℕ × Key)} (hpc : s.pc t = .serve k req)
    (hs : s.Serves s' t k req) : s'.Flagged := by
  refine H.keeps (fun b hb hd => ?_) (fun u b hb => ?_) (fun u type b hu => ?_) fun u b _ hd => ?_
  · rw [(hs.flags b).1] at hd
    rw [(hs.flags b).2.1]
    exact H.dirty b (hs.ptr ▸ hb) hd
  · rw [(hs.flags b).2.1]
    exact H.held u b (hs.held ▸ hb)
  · rcases pc_goto hs.pc u with ⟨rfl, hp⟩ | ⟨-, hp⟩
    · rw [hp] at hu
      rw [hpc]
      exact hu
    · exact hp ▸ hu
  · rw [(hs.flags b).1]
    exact hd

end Flags

/-! ## The requests -/

/-- The requests in the queue, and the buffers to be written. -/
structure Sound (s : Buffers T D α) (h : Hist α) : Prop where
  asked : ∀ t k req, (s.pc t).pending = some (k, req) →
    req.type = k.type ∧ req.buf = (k.buf, (s.store k.buf).key)
  dirty : ∀ b < s.buffer_ptr, (s.store b).dirty = true → h.origin b = some (s.store b).key

/-- A step that leaves the keys of what is in the queue or dirty. -/
theorem Sound.keeps (H : s.Sound h)
    (hpend : ∀ t k req, (s'.pc t).pending = some (k, req) →
      (s'.store k.buf).key = (s.store k.buf).key ∧ ((s.pc t).pending = some (k, req) ∨ s.Asks k req))
    (hdirty : ∀ b < s'.buffer_ptr, (s'.store b).dirty = true →
      b < s.buffer_ptr ∧ (s.store b).dirty = true ∧ (s'.store b).key = (s.store b).key) :
    s'.Sound h := by
  constructor
  · intro t k req hp
    obtain ⟨hkey, hp⟩ := hpend t k req hp
    rw [hkey]
    exact hp.elim (H.asked t k req) fun ha => ⟨ha.type, ha.buf⟩
  · intro b hb hd
    obtain ⟨hb, hd, hkey⟩ := hdirty b hb hd
    rw [hkey]
    exact H.dirty b hb hd

/-- A transfer or a modification makes the bytes of a buffer those of its block. -/
theorem Sound.note {h' : Hist α} (H : s.Sound h)
    (ho : ∀ b, h'.origin b = h.origin b ∨ h'.origin b = some (s.store b).key) : s.Sound h' := by
  refine ⟨H.asked, fun b hb hd => ?_⟩
  rcases ho b with h' | h'
  · rw [h']
    exact H.dirty b hb hd
  · exact h'

/-- A modification makes the bytes of the buffer those of its block. -/
theorem Sound.modify (H : s.Sound h) (t : T) {bf : ℕ} {data : α} {f : α → α} :
    (s.setBuf bf fun b => { b with b_data := data, b_dirty := true }).Sound
      (h.after s f (.modify t bf data)) := by
  have hkey : ∀ b, ((s.setBuf bf fun b => { b with b_data := data, b_dirty := true }).store b).key =
      (s.store b).key := by
    intro b
    rw [store_modify]
    exact Store.field_update Store.key (by rfl) b
  constructor
  · intro u k req hp
    rw [hkey]
    exact H.asked u k req hp
  · intro b hb hd
    rw [hkey]
    by_cases hbf : b = bf
    · exact hbf ▸ update_self ..
    · rw [store_modify, update_of_ne hbf] at hd
      exact (update_of_ne hbf ..).trans (H.dirty b hb hd)

section Steps
variable [DecidableEq T]

/-- A task that goes on with nothing in the queue, and keeps the keys. -/
theorem Sound.turn (H : s.Sound h) {pc : BufPc T} (hpc : s'.pc = update s.pc t pc)
    (hp : pc.pending = none) (hptr : s'.buffer_ptr = s.buffer_ptr)
    (hkey : ∀ b, (s'.store b).key = (s.store b).key)
    (hdirty : ∀ b, (s'.store b).dirty = true → (s.store b).dirty = true) : s'.Sound h := by
  refine H.keeps (fun u k req hq => ⟨hkey _, Or.inl ?_⟩) fun b hb hd => ⟨hptr ▸ hb, hdirty b hd, hkey b⟩
  refine (pending_goto hpc hq).resolve_left fun hq => ?_
  rw [hp] at hq
  cases hq

variable [Fintype T]

/-- **No effect of a step takes the block from a buffer in the queue.** -/
theorem Sound.effect (H : s.Sound h) (hF : s.Flagged) (hK : s.Keyed) (hcnt : s.Counted) (hone : OneWriter s)
    (he : s.Effect s' t) : s'.Sound h := by
  cases he with
  | still hs =>
    refine H.keeps (fun u k req hq => ?_) fun b hb hd => ?_
    · rw [hs.store]
      rw [hs.pc] at hq
      exact ⟨rfl, Or.inl hq⟩
    · rw [hs.store] at hd ⊢
      exact ⟨hs.ptr ▸ hb, hd, rfl⟩
  | goes pc hs ho =>
    refine H.keeps (fun u k req hq => ?_) fun b hb hd => ?_
    · rw [hs.store]
      refine ⟨rfl, ?_⟩
      rcases pc_goto hs.pc u with ⟨rfl, hu⟩ | ⟨-, hu⟩
      · exact ho.pending k req (hu ▸ hq)
      · exact Or.inl (hu ▸ hq)
    · rw [hs.store] at hd ⊢
      exact ⟨hs.ptr ▸ hb, hd, rfl⟩
  | clean k pc _ _ hstore _ hptr hpc _ hp _ =>
    refine H.turn hpc hp hptr (fun b => ?_) fun b hd => Store.dirty_update rfl (hstore ▸ hd)
    rw [hstore]
    exact Store.field_update Store.key (by rfl) b
  | take b key _ hb _ hstore _ hpc _ =>
    obtain ⟨data, hstore⟩ := hstore
    have hne : ∀ c, c ≠ b → s'.store c = s.store c := fun c hc => by rw [hstore, update_of_ne hc]
    refine H.keeps (fun u k req hq => ?_) fun c hc hd => ?_
    · rcases pc_goto hpc u with ⟨-, hu⟩ | ⟨hut, hu⟩
      · rw [hu] at hq
        cases hq
      rw [hu] at hq
      have hkb : k.buf ≠ b := by
        rintro rfl
        exact hF.not_under hK hcnt hone (hb.imp (fun hb => ⟨hb.1, hb.2.1, hb.2.2.1⟩) And.left) hut k.type
          (BufPc.under_of_pending hq)
      exact ⟨by rw [hne _ hkb], Or.inl hq⟩
    · have hcb : c ≠ b := by
        rintro rfl
        rw [hstore, update_self] at hd
        cases hd
      rw [hne c hcb] at hd ⊢
      exact ⟨by omega, hd, rfl⟩
  | hold b _ _ hstore _ hptr hpc _ =>
    refine H.turn hpc rfl hptr (fun c => by rw [hstore]) fun c hd => hstore ▸ hd
  | fill b _ hstore _ hptr hpc _ =>
    refine H.turn hpc rfl hptr (fun c => ?_) fun c hd => Store.dirty_update rfl (hstore ▸ hd)
    rw [hstore]
    exact Store.field_update Store.key (by rfl) c

omit [Fintype T] in
/-- A transfer, from or to the block of the buffer. -/
theorem Sound.serves (H : s.Sound h) (f : α → α) {k : Cont} {req : Request T (ℕ × Key)}
    (hpc : s.pc t = .serve k req) (hs : s.Serves s' t k req) : s'.Sound (h.after s f (.run t)) := by
  obtain ⟨hty, hbuf⟩ := H.asked t k req (by rw [hpc]; rfl)
  rw [Hist.after_serve hpc]
  cases hrt : req.type with
  | write =>
    obtain ⟨hstore, -⟩ := hs.write hrt
    rw [if_neg (by simp)]
    exact H.turn hs.pc rfl hs.ptr (fun b => by rw [hstore]) fun b hd => hstore ▸ hd
  | read =>
    rw [if_pos rfl]
    have hS : s'.Sound h :=
      H.turn hs.pc rfl hs.ptr (fun b => (hs.flags b).2.2) fun b hd => (hs.flags b).1 ▸ hd
    refine hS.note fun b => ?_
    dsimp only
    by_cases hb : b = req.buf.1
    · refine Or.inr ?_
      rw [hb, update_self, (hs.flags _).2.2, hbuf]
    · exact Or.inl (update_of_ne hb _ _)

end Steps

end Buffers

open Buffers

/-! ## Runs -/

section Runs
variable {T D α : Type} [DecidableEq T] [DecidableEq D] [Fintype T] {disks : Disks D}
  {p p' : Buffers T D α × Hist α} {l : BufAct T α × (α → α)}

/-- What a run keeps of the keys, the counts, the flags and the requests. -/
structure Regular (p : Buffers T D α × Hist α) : Prop where
  keyed : p.1.Keyed
  counted : p.1.Counted
  flagged : p.1.Flagged
  sound : p.1.Sound p.2

theorem HistStep.flagged (hI : Regular p) (hone : OneWriter p.1) (hs : HistStep disks p l p') :
    p'.1.Flagged := by
  obtain ⟨hK, hcnt, H, -⟩ := hI
  obtain ⟨s, h⟩ := p
  obtain ⟨a, f⟩ := l
  obtain ⟨s', h'⟩ := p'
  obtain ⟨⟨-, hheld⟩, hstep, -, -⟩ := hs
  cases a with
  | bread t key =>
    cases hstep
    exact H.of_store rfl rfl (fun _ _ => id) fun u type b hu => (under_goto (t := t) rfl (fun _ => rfl) hu).2
  | modify t bf data =>
    cases hstep
    exact H.modify (hheld t bf data rfl) data
  | brelse t bf =>
    cases hstep
    have hstill : s.Still (s.setBuf bf fun b => { b with b_count := b.b_count - 1 }) := still_setBuf rfl
    refine H.of_store hstill.store rfl (fun u b hb => ?_) fun u type b hu =>
      (under_goto (t := t) rfl (fun _ => rfl) hu).2
    have hb : b ∈ update s.held t ((s.held t).erase bf) u := hb
    by_cases hu : u = t
    · rw [hu, update_self] at hb
      exact hu ▸ List.mem_of_mem_erase hb
    · rwa [update_of_ne hu] at hb
  | run t =>
    rcases hstep.effect hK with ⟨k, req, hpc, hserves⟩ | ⟨-, he⟩
    · exact H.serves hpc hserves
    · exact H.effect hK hcnt hone he

/-- **Every step keeps the requests sound.** -/
theorem HistStep.sound (hI : Regular p) (hone : OneWriter p.1) (hs : HistStep disks p l p') :
    p'.1.Sound p'.2 := by
  obtain ⟨hK, hcnt, hF, H⟩ := hI
  obtain ⟨s, h⟩ := p
  obtain ⟨a, f⟩ := l
  obtain ⟨s', h'⟩ := p'
  obtain ⟨-, hstep, -, rfl⟩ := hs
  cases a with
  | bread t key =>
    cases hstep
    exact H.turn rfl rfl rfl (fun _ => rfl) fun _ => id
  | modify t bf data =>
    cases hstep
    exact H.modify t
  | brelse t bf =>
    cases hstep
    have hstill : s.Still (s.setBuf bf fun b => { b with b_count := b.b_count - 1 }) := still_setBuf rfl
    exact H.turn rfl rfl rfl (fun b => congrArg (fun st => (st b).key) hstill.store)
      fun b hd => (congrArg (fun st => (st b).dirty) hstill.store).symm.trans hd
  | run t =>
    rcases hstep.effect hK with ⟨k, req, hpc, hserves⟩ | ⟨hpc, he⟩
    · exact H.serves f hpc hserves
    · dsimp only
      rw [Hist.after_run hpc]
      exact H.effect hF hK hcnt hone he

theorem HistStep.regular (hI : Regular p) (hspare : Spare p.1 l.1) (hone : OneWriter p.1)
    (hs : HistStep disks p l p') : Regular p' :=
  ⟨(hs.step.keeps hI.keyed).keyed hI.keyed,
    hI.counted.change hI.keyed (hs.step.change hI.keyed hs.proper.1) hspare, hs.flagged hI hone, hs.sound hI hone⟩

theorem regular_init (h : (histSys T D α disks).init p) : Regular p := by
  obtain ⟨hinit, -, -⟩ := h
  have hnone : ∀ b, ¬ b < p.1.buffer_ptr := fun b hb => Nat.not_lt_zero b (hinit.1 ▸ hb)
  have hpc : ∀ t, p.1.pc t = .out := hinit.2.2.2.2.2.1
  have hheld : ∀ t, p.1.held t = [] := hinit.2.2.2.2.2.2.2
  refine ⟨keyed_reach (.init hinit), fun b hb => absurd hb (hnone b), ⟨fun b hb => absurd hb (hnone b),
    fun t b hb => ?_, fun t b hu => ?_, fun t u b hu => ?_⟩, ⟨fun t k req hp => ?_, fun b hb => absurd hb (hnone b)⟩⟩
  · rw [hheld] at hb
    cases hb
  · rw [hpc] at hu
    cases hu
  · rw [hpc] at hu
    cases hu
  · rw [hpc] at hp
    cases hp

theorem regular_reach
    (hr : ((histSys T D α disks).restrict fun p l => Spare p.1 l.1 ∧ OneWriter p.1).Reach p) : Regular p := by
  refine hr.invariant (I := Regular) (fun p hp => ?_) fun p l p' hI hs => ?_
  · have hinit : (histSys T D α disks).init p := hp
    exact regular_init hinit
  · obtain ⟨⟨hspare, hone⟩, hstep⟩ := hs
    have hstep : HistStep disks p l p' := hstep
    exact hstep.regular hI hspare hone

/-- **A write goes to the block of its buffer**, in every interleaving in which no two tasks have a
    write of the same buffer under way, and no buffer is referenced a 256th time: when it is transferred,
    the buffer has the key of the request and holds the bytes of that block. -/
theorem write_back_right
    (hr : ((histSys T D α disks).restrict fun p l => Spare p.1 l.1 ∧ OneWriter p.1).Reach p) :
    ∀ t k req, p.1.pc t = .serve k req → req.type = .write →
      (p.1.buf req.buf.1).key = req.buf.2 ∧ p.2.origin req.buf.1 = some req.buf.2 := by
  obtain ⟨hK, -, hF, H⟩ := regular_reach hr
  intro t k req hpc hw
  have hp : (p.1.pc t).pending = some (k, req) := by rw [hpc]; rfl
  obtain ⟨hty, hbuf⟩ := H.asked t k req hp
  have hu : (p.1.pc t).under .write = some k.buf := by
    rw [← hw, hty]
    exact BufPc.under_of_pending hp
  have hor := H.dirty k.buf (hK.named _ ⟨t, Or.inl (BufPc.buf_of_under hu)⟩) (hF.writer t k.buf hu)
  rw [hbuf]
  exact ⟨rfl, hor⟩

end Runs

/-! ## Two tasks with one block -/

/-- One disk, at the start of its device. -/
abbrev pairDisk : Disks Unit := ⟨fun _ => (), fun _ => true, fun _ => 0⟩

/-- The runs of two tasks on one disk. -/
abbrev pairSys : Sys (Buffers (Fin 2) Unit ℕ × Hist ℕ) (BufAct (Fin 2) ℕ × (ℕ → ℕ)) :=
  histSys (Fin 2) Unit ℕ pairDisk

theorem BufStep.modify_out {T D α : Type} [DecidableEq T] [DecidableEq D] {disks : Disks D}
    {s s' : Buffers T D α} {t : T} {b : ℕ} {data : α} (h : BufStep disks s (.modify t b data) s') :
    s.pc t = .out := by
  cases h with
  | modify hpc _ => exact hpc

/-- Those in which no two writes meet, and no modification meets a transfer. -/
abbrev calmSys : Sys (Buffers (Fin 2) Unit ℕ × Hist ℕ) (BufAct (Fin 2) ℕ × (ℕ → ℕ)) :=
  pairSys.restrict fun p l => Spare p.1 l.1 ∧ OneWriter p.1 ∧ KeepsClear p.1 l.1

/-- A step of a task, while the other one is in its own code. -/
theorem calm_step {p p' : Buffers (Fin 2) Unit ℕ × Hist ℕ} {l : BufAct (Fin 2) ℕ × (ℕ → ℕ)}
    (hr : calmSys.Reach p) (hs : HistStep pairDisk p l p') (hpc : p.1.pc (1 - l.1.task) = .out)
    (hspare : ∀ key b, p.1.pc l.1.task = .getblk key → p.1.findFromHashTable key = some b → p.1.refs b < 255) :
    calmSys.Reach p' := by
  have hother : ∀ t ≠ l.1.task, p.1.pc t = .out := by
    intro t ht
    have h : t = 1 - l.1.task := by omega
    exact h ▸ hpc
  refine hr.step ⟨⟨hspare, fun t u b ht hu => ?_, fun t b data ha u => ?_⟩, hs⟩
  · have htask : ∀ v, (p.1.pc v).under .write = some b → v = l.1.task := by
      intro v hv
      by_contra hne
      rw [hother v hne] at hv
      cases hv
    rw [htask t ht, htask u hu]
  · have hout : p.1.pc u = .out := by
      by_cases hu : u = l.1.task
      · have hstep : BufStep pairDisk p.1 (.modify t b data) p'.1 := ha ▸ hs.step
        rw [hu, ha]
        exact hstep.modify_out
      · exact hother u hu
    rw [hout]
    exact ⟨nofun, nofun⟩

/-- Both tasks read a block, modify it and release it. -/
theorem shared_write : ∃ p, calmSys.Reach p ∧ (∃ k req, p.1.pc 1 = .serve k req ∧ req.type = .write ∧
    req.buf = (0, (5, 7))) ∧ ∃ q, calmSys.Reach q ∧ (∀ t, q.1.pc t = .out ∧ q.1.held t = []) ∧
      q.2.content (5, 7) = 18 := by
  have h₀ : calmSys.Reach (emptyCache, ⟨fun _ => 0, fun _ => none⟩) :=
    .init ⟨⟨rfl, rfl, fun _ => rfl, rfl, fun _ => rfl, fun _ => rfl, fun _ => rfl, fun _ => rfl⟩, rfl,
      fun _ => rfl⟩
  -- the first task reads it from the disk, the second one finds it in the cache
  have h₁ := calm_step h₀ (.of_bread (t := 0) (5, 7) rfl) rfl nofun
  have h₂ := calm_step h₁ (.of_run (t := 0) (.getblk rfl rfl rfl)) rfl fun key b hk hf => by cases hk; cases hf
  have h₃ := calm_step h₂ (.of_run (t := 0) (.breadValid rfl rfl)) rfl nofun
  have h₄ := calm_step h₃ (.of_run (t := 0) (.serve rfl rfl)) rfl nofun
  have h₅ := calm_step h₄ (.of_run (t := 0) (.finish rfl rfl)) rfl nofun
  have h₆ := calm_step h₅ (.of_run (t := 0) (.back rfl)) rfl nofun
  have h₇ := calm_step h₆ (.of_bread (t := 1) (5, 7) rfl) rfl nofun
  have h₈ := calm_step h₇ (.of_run (t := 1) (.getblk rfl rfl rfl)) rfl fun key b hk hf => by
    cases hk
    cases hf
    decide +kernel
  have h₉ := calm_step h₈ (.of_run (t := 1) (.breadValid rfl rfl)) rfl nofun
  -- the last one that releases it writes it
  have h₁₀ := calm_step h₉ (.of_modify 0 0 (· + 9) rfl (by decide) (by decide)) rfl nofun
  have h₁₁ := calm_step h₁₀ (.of_brelse 0 0 rfl (by decide) (by decide)) rfl nofun
  have h₁₂ := calm_step h₁₁ (.of_run (t := 0) (.brelseRest rfl rfl)) rfl nofun
  have h₁₃ := calm_step h₁₂ (.of_modify 1 0 (· * 2) rfl (by decide) (by decide)) rfl nofun
  have h₁₄ := calm_step h₁₃ (.of_brelse 1 0 rfl (by decide) (by decide)) rfl nofun
  have h₁₅ := calm_step h₁₄ (.of_run (t := 1) (.brelseRest rfl rfl)) rfl nofun
  have h₁₆ := calm_step h₁₅ (.of_run (t := 1) (.serve rfl rfl)) rfl nofun
  have h₁₇ := calm_step h₁₆ (.of_run (t := 1) (.finish rfl rfl)) rfl nofun
  have h₁₈ := calm_step h₁₇ (.of_run (t := 1) (.back rfl)) rfl nofun
  refine ⟨_, h₁₅, ⟨_, _, rfl, rfl, rfl⟩, _, h₁₈, fun t => ?_, rfl⟩
  match t with
  | 0 => exact ⟨rfl, rfl⟩
  | 1 => exact ⟨rfl, rfl⟩

/-- The write of the second task, who releases the buffer last. -/
theorem write_back_right_shared : ∃ p : Buffers (Fin 2) Unit ℕ × Hist ℕ,
    (∃ k req, p.1.pc 1 = .serve k req ∧ req.type = .write) ∧ (p.1.buf 0).key = (5, 7) ∧
      p.2.origin 0 = some (5, 7) := by
  obtain ⟨p, hr, ⟨k, req, hpc, hw, hbuf⟩, -⟩ := shared_write
  have h := write_back_right (hr.restrict_mono fun p l h => ⟨h.1, h.2.1⟩) 1 k req hpc hw
  rw [hbuf] at h
  exact ⟨p, ⟨k, req, hpc, hw⟩, h⟩

end Rdix
