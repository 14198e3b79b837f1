/-
  No modification of a buffer is lost (fs/buffer.c: bread, bwrite, brelse).

  * `Mirrors`: what the buffers and the disk say about the blocks, `Settled`: what a transfer leaves
    behind until the flags are set, `Busy`: who writes a dirty buffer;
  * `updates_kept`: the disk has all modifications once the buffers are released, in every interleaving
    in which no two tasks write a buffer at a time, and none is modified while it is read, or between
    the transfer of a write and `b_dirty = false`;
  * `update_lost`: a second read of a block, and a modification that is overwritten by it.
-/
import Rdix.Fs.WriteBack

namespace Rdix

open Function Transition

namespace Buffers

variable {T D α : Type} {s s' : Buffers T D α} {b c bf : ℕ} {t : T} {h h' : Hist α}

/-- A valid buffer has what the modifications have made of its block, and so has the disk for a block
    without a dirty buffer. -/
structure Mirrors (s : Buffers T D α) (h : Hist α) : Prop where
  content : ∀ b < s.buffer_ptr, (s.store b).vaild = true →
    (s.store b).data = h.content (s.store b).key
  disk : ∀ key, (∀ b < s.buffer_ptr, (s.store b).key = key → (s.store b).dirty = false) →
    s.disk key = h.content key
  dirty : ∀ b < s.buffer_ptr, (s.store b).dirty = true → (s.store b).vaild = true

/-- A buffer that is read is not dirty; between a transfer and the setting of the flags, the buffer has
    what the block contains, and the disk has what is in the buffer. -/
structure Settled (s : Buffers T D α) (h : Hist α) : Prop where
  reader : ∀ t b, (s.pc t).under .read = some b → (s.store b).dirty = false
  filled : ∀ t b, (s.pc t).moved .read = some b → (s.store b).data = h.content (s.store b).key
  sent : ∀ t b, (s.pc t).moved .write = some b → s.disk (s.store b).key = (s.store b).data

/-- A dirty buffer is referenced, or some task is about to write it. -/
def Busy [Fintype T] (s : Buffers T D α) : Prop :=
  ∀ b < s.buffer_ptr, (s.store b).dirty = true → s.refs b ≠ 0 ∨ ∃ t, (s.pc t).writing = some b

theorem Mirrors.of_content (H : s.Mirrors h) (hc : h'.content = h.content) : s.Mirrors h' := by
  constructor
  · rw [hc]
    exact H.content
  · rw [hc]
    exact H.disk
  · exact H.dirty

theorem Settled.of_content (H : s.Settled h) (hc : h'.content = h.content) : s.Settled h' := by
  refine ⟨H.reader, ?_, H.sent⟩
  rw [hc]
  exact H.filled

/-- A buffer is saved that is read, or whose write is transferred. -/
theorem Settled.saved (H : s.Settled h) {k : Cont} (hk : (s.pc t).under .read = some k.buf ∨
    (s.pc t).moved .write = some k.buf) : s.Saved k.buf := by
  intro hd
  rcases hk with hk | hk
  · rw [H.reader t k.buf hk] at hd
    cases hd
  · exact H.sent t k.buf hk

theorem Settled.saved_back (H : s.Settled h) {k : Cont} (hpc : s.pc t = .back k) : s.Saved k.buf := by
  refine H.saved (t := t) ?_
  rw [hpc]
  cases hk : k.type with
  | read => exact Or.inl (if_pos hk)
  | write => exact Or.inr (if_pos hk)

/-- **A block whose buffer is not dirty is on the disk.** -/
theorem Mirrors.saved (H : s.Mirrors h) (hK : s.Keyed) (hb : b < s.buffer_ptr) (hs : s.Saved b) :
    s.disk (s.store b).key = h.content (s.store b).key := by
  cases hd : (s.store b).dirty with
  | true => rw [hs hd, H.content b hb (H.dirty b hb hd)]
  | false =>
    refine H.disk _ fun c hc hk => ?_
    rw [hK.unique c b hc hb hk, hd]

/-- **One buffer changes, and the disk stays**: what the buffer had for its old block is saved. -/
theorem Mirrors.update (H : s.Mirrors h) (hK : s.Keyed) {st : Store α}
    (hb : b < s.buffer_ptr ∧ s.Saved b ∧ s'.buffer_ptr = s.buffer_ptr ∨
      b = s.buffer_ptr ∧ s'.buffer_ptr = s.buffer_ptr + 1)
    (hstore : s'.store = update s.store b st) (hdisk : s'.disk = s.disk)
    (hdirty : st.dirty = true → st.vaild = true)
    (hdata : st.vaild = true → st.data = h.content st.key) : s'.Mirrors h := by
  have hlt : ∀ c, c ≠ b → (c < s'.buffer_ptr ↔ c < s.buffer_ptr) := by
    intro c hc
    omega
  have hne : ∀ c, c ≠ b → s'.store c = s.store c := fun c hc => by rw [hstore, update_of_ne hc]
  have hself : s'.store b = st := by rw [hstore, update_self]
  constructor
  · intro c hc hv
    by_cases hcb : c = b
    · rw [hcb, hself] at hv ⊢
      exact hdata hv
    · rw [hne c hcb] at hv ⊢
      exact H.content c ((hlt c hcb).1 hc) hv
  · intro key hclean
    rw [hdisk]
    by_cases hold : b < s.buffer_ptr ∧ (s.store b).key = key
    · obtain ⟨hlt, rfl⟩ := hold
      refine H.saved hK hlt ?_
      rcases hb with ⟨-, hs, -⟩ | ⟨hb, -⟩
      · exact hs
      · omega
    · refine H.disk key fun c hc hk => ?_
      have hcb : c ≠ b := fun he => hold (he ▸ ⟨hc, hk⟩)
      have hd := hclean c ((hlt c hcb).2 hc)
      rw [hne c hcb] at hd
      exact hd hk
  · intro c hc hd
    by_cases hcb : c = b
    · rw [hcb, hself] at hd ⊢
      exact hdirty hd
    · rw [hne c hcb] at hd ⊢
      exact H.dirty c ((hlt c hcb).1 hc) hd

theorem Mirrors.congr (H : s.Mirrors h) (hstore : s'.store = s.store) (hdisk : s'.disk = s.disk)
    (hptr : s'.buffer_ptr = s.buffer_ptr) : s'.Mirrors h := by
  constructor
  · rw [hstore, hptr]
    exact H.content
  · rw [hstore, hptr, hdisk]
    exact H.disk
  · rw [hstore, hptr]
    exact H.dirty

/-! ## A modification -/

section Modify
variable {data : α} {f : α → α}

/-- The buffer is modified as the block is. -/
theorem content_modify (t : T) (hK : s.Keyed) (hb : bf < s.buffer_ptr) (hdata : data = f (s.store bf).data)
    (hc : c < s.buffer_ptr) (hold : (s.store c).data = h.content (s.store c).key) :
    ((s.setBuf bf fun b => { b with b_data := data, b_dirty := true }).store c).data =
      (h.after s f (.modify t bf data)).content
        ((s.setBuf bf fun b => { b with b_data := data, b_dirty := true }).store c).key := by
  have hcontent : (h.after s f (.modify t bf data)).content =
      Function.update h.content (s.store bf).key (f (h.content (s.store bf).key)) := rfl
  rw [store_modify, hcontent]
  by_cases hcb : c = bf
  · rw [hcb, update_self, update_self, hdata, ← hcb, hold]
  · have hkey : (s.store c).key ≠ (s.store bf).key := fun he => hcb (hK.unique c bf hc hb he)
    rw [update_of_ne hcb, update_of_ne hkey]
    exact hold

theorem Mirrors.modify (H : s.Mirrors h) (t : T) (hK : s.Keyed) (hb : bf < s.buffer_ptr)
    (hv : (s.store bf).vaild = true) (hdata : data = f (s.store bf).data) :
    (s.setBuf bf fun b => { b with b_data := data, b_dirty := true }).Mirrors
      (h.after s f (.modify t bf data)) := by
  constructor
  · intro c hc hv'
    refine content_modify t hK hb hdata hc (H.content c hc ?_)
    rw [store_modify] at hv'
    by_cases hcb : c = bf
    · rw [hcb]
      exact hv
    · rwa [update_of_ne hcb] at hv'
  · intro key hclean
    have hkey : key ≠ (s.store bf).key := by
      rintro rfl
      have hd := hclean bf hb (by rw [store_modify, update_self])
      rw [store_modify, update_self] at hd
      cases hd
    refine (H.disk key fun c hc hk => ?_).trans (update_of_ne hkey ..).symm
    have hcb : c ≠ bf := fun he => hkey (he ▸ hk.symm)
    have hd := hclean c hc
    rw [store_modify, update_of_ne hcb] at hd
    exact hd hk
  · intro c hc hd
    rw [store_modify] at hd ⊢
    by_cases hcb : c = bf
    · rw [hcb, update_self]
      exact hv
    · rw [update_of_ne hcb] at hd ⊢
      exact H.dirty c hc hd

/-- **A modification meets no transfer**, if it keeps away from what is under way. -/
theorem Settled.modify (H : s.Settled h) (t : T) (hK : s.Keyed) (hb : bf < s.buffer_ptr)
    (hdata : data = f (s.store bf).data)
    (hcalm : ∀ u, (s.pc u).under .read ≠ some bf ∧ (s.pc u).moved .write ≠ some bf) :
    (s.setBuf bf fun b => { b with b_data := data, b_dirty := true }).Settled
      (h.after s f (.modify t bf data)) := by
  have hne : ∀ c, c ≠ bf → (s.setBuf bf fun b => { b with b_data := data, b_dirty := true }).store c =
      s.store c := fun c hc => by rw [store_modify, update_of_ne hc]
  constructor
  · intro u c hu
    rw [hne c fun he => (hcalm u).1 (he ▸ hu)]
    exact H.reader u c hu
  · intro u c hu
    have hlt := hK.named c ⟨u, Or.inl (BufPc.buf_of_under (BufPc.under_of_moved hu))⟩
    exact content_modify t hK hb hdata hlt (H.filled u c hu)
  · intro u c hu
    rw [hne c fun he => (hcalm u).2 (he ▸ hu)]
    exact H.sent u c hu

end Modify

/-! ## The steps of the tasks -/

/-- What a request that is transferred is for. -/
theorem Sound.serving (hS : s.Sound h) {k : Cont} {req : Request T (ℕ × Key)} (hpc : s.pc t = .serve k req) :
    req.buf = (k.buf, (s.store k.buf).key) ∧ (s.pc t).under req.type = some k.buf := by
  obtain ⟨hty, hbuf⟩ := hS.asked t k req (by rw [hpc]; rfl)
  refine ⟨hbuf, ?_⟩
  rw [hpc]
  exact if_pos hty.symm

section Steps
variable [DecidableEq T]

/-- **No effect of a step drops bytes that are not on the disk.** -/
theorem Mirrors.effect (H : s.Mirrors h) (hK : s.Keyed) (hS : s.Settled h) (he : s.Effect s' t) : s'.Mirrors h := by
  have hback : ∀ k, s.pc t = .back k → k.buf < s.buffer_ptr := fun k hpc =>
    hK.named _ ⟨t, Or.inl (by rw [hpc]; rfl)⟩
  cases he with
  | still hs => exact H.congr hs.store hs.disk hs.ptr
  | goes pc hs _ => exact H.congr hs.store hs.disk hs.ptr
  | clean k pc hpc _ hstore hdisk hptr _ _ _ _ =>
    exact H.update hK (Or.inl ⟨hback k hpc, hS.saved_back hpc, hptr⟩) hstore hdisk nofun
      fun hv => H.content _ (hback k hpc) hv
  | take b key _ hb _ hstore hdisk _ _ =>
    obtain ⟨data, hstore⟩ := hstore
    refine H.update hK (hb.imp ?_ id) hstore hdisk nofun nofun
    rintro ⟨hb, -, hd, hptr⟩
    refine ⟨hb, ?_, hptr⟩
    rcases hd with hd | ⟨k, hpc, -, rfl⟩
    · intro hd'
      rw [hd] at hd'
      cases hd'
    · exact hS.saved_back hpc
  | hold b _ _ hstore hdisk hptr _ _ => exact H.congr hstore hdisk hptr
  | fill b hpc hstore hdisk hptr _ _ =>
    refine H.update hK (Or.inl ⟨hback _ hpc, hS.saved_back hpc, hptr⟩) hstore hdisk nofun fun _ => ?_
    exact hS.filled t b (by rw [hpc]; rfl)

/-- **A transfer drops nothing**: what is read over is not dirty, and what is written is valid. -/
theorem Mirrors.serves (H : s.Mirrors h) (hK : s.Keyed) (hF : s.Flagged) (hS : s.Sound h) (hT : s.Settled h)
    {k : Cont} {req : Request T (ℕ × Key)} (hpc : s.pc t = .serve k req) (hs : s.Serves s' t k req) :
    s'.Mirrors h := by
  obtain ⟨hbuf, hunder⟩ := hS.serving hpc
  have hb : k.buf < s.buffer_ptr := hK.named _ ⟨t, Or.inl (BufPc.buf_of_under hunder)⟩
  cases hrt : req.type with
  | read =>
    rw [hrt] at hunder
    obtain ⟨hdisk, hstore⟩ := hs.read hrt
    rw [hbuf] at hstore
    refine H.update hK (Or.inl ⟨hb, hT.saved (Or.inl hunder), hs.ptr⟩) hstore hdisk (H.dirty _ hb) fun _ => ?_
    exact H.saved hK hb (hT.saved (Or.inl hunder))
  | write =>
    rw [hrt] at hunder
    obtain ⟨hstore, hdisk⟩ := hs.write hrt
    have hv : (s.store k.buf).vaild = true := H.dirty k.buf hb (hF.writer t k.buf hunder)
    have hptr : s'.buffer_ptr = s.buffer_ptr := hs.ptr
    constructor
    · rw [hstore, hptr]
      exact H.content
    · intro key hclean
      rw [hdisk, hbuf]
      by_cases hkey : key = (s.store k.buf).key
      · rw [hkey, update_self]
        exact H.content _ hb hv
      · rw [update_of_ne hkey]
        rw [hstore, hptr] at hclean
        exact H.disk key hclean
    · rw [hstore, hptr]
      exact H.dirty

/-- A task goes on outside of `device_request`: the others keep what they have under way. -/
theorem Settled.leaves (H : s.Settled h) {pc : BufPc T} (hpc : s'.pc = update s.pc t pc)
    (hp : ∀ type, pc.under type = none) (hdisk : s'.disk = s.disk)
    (hstore : ∀ u ≠ t, ∀ type b, (s.pc u).under type = some b → (s'.store b).data = (s.store b).data ∧
      (s'.store b).key = (s.store b).key ∧ ((s.store b).dirty = false → (s'.store b).dirty = false)) :
    s'.Settled h := by
  have hmoved : ∀ u type b, (s'.pc u).moved type = some b → u ≠ t ∧ (s.pc u).moved type = some b := by
    intro u type b hu
    rcases pc_goto hpc u with ⟨-, hq⟩ | ⟨hne, hq⟩
    · have hu := BufPc.under_of_moved hu
      rw [hq, hp] at hu
      cases hu
    · exact ⟨hne, hq ▸ hu⟩
  constructor
  · intro u b hu
    obtain ⟨hne, hu⟩ := under_goto hpc hp hu
    exact (hstore u hne .read b hu).2.2 (H.reader u b hu)
  · intro u b hu
    obtain ⟨hne, hu⟩ := hmoved u .read b hu
    obtain ⟨hdata, hkey, -⟩ := hstore u hne .read b (BufPc.under_of_moved hu)
    rw [hdata, hkey]
    exact H.filled u b hu
  · intro u b hu
    obtain ⟨hne, hu⟩ := hmoved u .write b hu
    obtain ⟨hdata, hkey, -⟩ := hstore u hne .write b (BufPc.under_of_moved hu)
    rw [hdata, hkey, hdisk]
    exact H.sent u b hu

/-- **A transfer leaves the same in the buffer and on the disk.** -/
theorem Settled.serves (H : s.Settled h) (hM : s.Mirrors h) (hK : s.Keyed) (hF : s.Flagged) (hS : s.Sound h)
    {k : Cont} {req : Request T (ℕ × Key)} (hpc : s.pc t = .serve k req) (hs : s.Serves s' t k req) :
    s'.Settled h := by
  obtain ⟨hbuf, hunder⟩ := hS.serving hpc
  have hb : k.buf < s.buffer_ptr := hK.named _ ⟨t, Or.inl (BufPc.buf_of_under hunder)⟩
  have hold : ∀ u type b, (s'.pc u).under type = some b → (s.pc u).under type = some b := by
    intro u type b hu
    rcases pc_goto hs.pc u with ⟨rfl, hq⟩ | ⟨-, hq⟩
    · rw [hq] at hu
      rw [hpc]
      exact hu
    · exact hq ▸ hu
  have hmoved : ∀ u type b, (s'.pc u).moved type = some b →
      u = t ∧ req.type = type ∧ b = k.buf ∨ (s.pc u).moved type = some b := by
    intro u type b hu
    rcases pc_goto hs.pc u with ⟨rfl, hq⟩ | ⟨-, hq⟩
    · refine Or.inl ⟨rfl, ?_⟩
      rw [hq] at hu
      simp only [BufPc.moved, Option.ite_none_right_eq_some, Option.some.injEq] at hu
      rw [(hS.asked u k req (by rw [hpc]; rfl)).1]
      exact ⟨hu.1, hu.2.symm⟩
    · exact Or.inr (hq ▸ hu)
  have hreader : ∀ u b, (s'.pc u).under .read = some b → (s'.store b).dirty = false := by
    intro u b hu
    rw [(hs.flags b).1]
    exact H.reader u b (hold u .read b hu)
  cases hrt : req.type with
  | read =>
    rw [hrt] at hunder
    obtain ⟨hdisk, hstore⟩ := hs.read hrt
    rw [hbuf] at hstore
    refine ⟨hreader, fun u b hu => ?_, fun u b hu => ?_⟩
    · by_cases hbk : b = k.buf
      · rw [hbk, hstore, update_self]
        exact hM.saved hK hb (H.saved (Or.inl hunder))
      · rw [hstore, update_of_ne hbk]
        exact H.filled u b ((hmoved u .read b hu).resolve_left fun h => hbk h.2.2)
    · have hu := (hmoved u .write b hu).resolve_left fun h => by
        rw [hrt] at h
        cases h.2.1
      have hbk : b ≠ k.buf := by
        rintro rfl
        exact hF.apart u t k.buf (BufPc.under_of_moved hu) hunder
      rw [hstore, update_of_ne hbk, hdisk]
      exact H.sent u b hu
  | write =>
    obtain ⟨hstore, hdisk⟩ := hs.write hrt
    rw [hbuf] at hdisk
    refine ⟨hreader, fun u b hu => ?_, fun u b hu => ?_⟩
    · have hu := (hmoved u .read b hu).resolve_left fun h => by
        rw [hrt] at h
        cases h.2.1
      rw [hstore]
      exact H.filled u b hu
    · rw [hstore, hdisk]
      by_cases hbk : b = k.buf
      · rw [hbk, update_self]
      · have hlt := hK.named b ⟨u, Or.inl (BufPc.buf_of_under (hold u .write b (BufPc.under_of_moved hu)))⟩
        have hkey : (s.store b).key ≠ (s.store k.buf).key := fun he => hbk (hK.unique b k.buf hlt hb he)
        rw [update_of_ne hkey]
        exact H.sent u b ((hmoved u .write b hu).resolve_left fun h => hbk h.2.2)

variable [Fintype T]

/-- **The effects of a step leave alone what has been transferred.** -/
theorem Settled.effect (H : s.Settled h) (hK : s.Keyed) (hcnt : s.Counted) (hF : s.Flagged)
    (hone : OneWriter s) (he : s.Effect s' t) : s'.Settled h := by
  -- only the flags of one buffer change
  have hflags : ∀ {c : ℕ} {dirty vaild : Bool}, dirty = false →
      s'.store = update s.store c { s.store c with dirty := dirty, vaild := vaild } →
      ∀ b, (s'.store b).data = (s.store b).data ∧ (s'.store b).key = (s.store b).key ∧
        ((s.store b).dirty = false → (s'.store b).dirty = false) := by
    intro c dirty vaild hd hstore b
    rw [hstore]
    refine ⟨Store.field_update Store.data (by rfl) b, Store.field_update Store.key (by rfl) b, fun h => ?_⟩
    by_contra hb
    have := Store.dirty_update hd (Bool.not_eq_false _ ▸ hb)
    rw [h] at this
    cases this
  cases he with
  | still hs =>
    refine ⟨?_, ?_, ?_⟩
    · rw [hs.pc, hs.store]
      exact H.reader
    · rw [hs.pc, hs.store]
      exact H.filled
    · rw [hs.pc, hs.store, hs.disk]
      exact H.sent
  | goes pc hs ho =>
    have hmoved : ∀ u type b, (s'.pc u).moved type = some b → (s.pc u).moved type = some b := by
      intro u type b hu
      rcases pc_goto hs.pc u with ⟨rfl, hq⟩ | ⟨-, hq⟩
      · exact ho.moved type b (hq ▸ hu)
      · exact hq ▸ hu
    refine ⟨fun u b hu => ?_, fun u b hu => ?_, fun u b hu => ?_⟩
    · rw [hs.store]
      rcases pc_goto hs.pc u with ⟨rfl, hq⟩ | ⟨-, hq⟩
      · rcases ho.under .read b (hq ▸ hu) with hu | ⟨k, req, hk, rfl, ha⟩
        · exact H.reader u b hu
        · by_contra hd
          have hv := hF.dirty k.buf ha.lt (Bool.not_eq_false _ ▸ hd)
          rw [ha.read hk] at hv
          cases hv
      · exact H.reader u b (hq ▸ hu)
    · rw [hs.store]
      exact H.filled u b (hmoved u .read b hu)
    · rw [hs.store, hs.disk]
      exact H.sent u b (hmoved u .write b hu)
  | clean k pc _ _ hstore hdisk _ hpc _ _ hu =>
    exact H.leaves hpc hu hdisk fun u _ type b _ => hflags rfl hstore b
  | take b key _ hb _ hstore hdisk hpc _ =>
    obtain ⟨data, hstore⟩ := hstore
    refine H.leaves hpc (fun _ => rfl) hdisk fun u hne type c hu => ?_
    have hcb : c ≠ b := by
      rintro rfl
      exact hF.not_under hK hcnt hone (hb.imp (fun hb => ⟨hb.1, hb.2.1, hb.2.2.1⟩) And.left) hne type hu
    rw [hstore, update_of_ne hcb]
    exact ⟨rfl, rfl, id⟩
  | hold b _ _ hstore hdisk _ hpc _ =>
    refine H.leaves hpc (fun _ => rfl) hdisk fun u _ type c _ => ?_
    rw [hstore]
    exact ⟨rfl, rfl, id⟩
  | fill b _ hstore hdisk _ hpc _ =>
    exact H.leaves hpc (fun _ => rfl) hdisk fun u _ type c _ => hflags rfl hstore c

/-- Only `brelse` gives up a reference. -/
theorem Change.refs_le (hc : s.Change s' t) (b : ℕ) :
    s.refs b ≤ s'.refs b ∨ s'.pc t = .brelse b := by
  cases hc with
  | quiet hq => exact Or.inl (refs_congr hq.pc hq.held b).ge
  | goes pc hg hread =>
    have hrefs := refs_of_pc hg.pc hg.held b
    rw [hread] at hrefs
    omega
  | hit c key hpc _ _ hg =>
    rw [hg.refs (by rw [hpc]; rfl)]
    omega
  | take c hread _ hg =>
    rw [hg.refs hread]
    omega
  | hold c hread _ _ hpc hheld =>
    have hrefs := refs_of_held hpc rfl hheld b
    rw [taskRefs, hread, List.count_cons] at hrefs
    simp only [Option.some.injEq, beq_iff_eq] at hrefs
    omega
  | put c hmem hread _ _ _ hpc hheld =>
    by_cases hb : b = c
    · rw [hb, hpc, update_self]
      exact Or.inr rfl
    · have hrefs := refs_of_held hpc rfl hheld b
      rw [taskRefs, hread, if_neg (by simp), List.count_erase_of_ne hb] at hrefs
      omega

/-- A buffer stays in use or about to be written, if its own writer says so. -/
theorem Busy.keeps (H : s.Busy) (hc : s.Change s' t)
    (hdirty : ∀ b < s'.buffer_ptr, (s'.store b).dirty = true → s.refs b ≠ 0 ∨
      b < s.buffer_ptr ∧ (s.store b).dirty = true ∧ (∀ u ≠ t, s'.pc u = s.pc u) ∧
        ((s.pc t).writing = some b → (s'.pc t).writing = some b ∨ s.refs b ≠ 0)) : s'.Busy := by
  intro b hb hd
  have hrefs : s.refs b ≠ 0 → s'.refs b ≠ 0 ∨ ∃ u, (s'.pc u).writing = some b := by
    intro h0
    rcases hc.refs_le b with hle | hpc
    · exact Or.inl (by omega)
    · exact Or.inr ⟨t, by rw [hpc]; rfl⟩
  rcases hdirty b hb hd with h0 | ⟨hb, hd, hne, hown⟩
  · exact hrefs h0
  rcases H b hb hd with h0 | ⟨u, hu⟩
  · exact hrefs h0
  · by_cases hut : u = t
    · rcases hown (hut ▸ hu) with hw | h0
      · exact Or.inr ⟨t, hw⟩
      · exact hrefs h0
    · exact Or.inr ⟨u, by rw [hne u hut, hu]⟩

/-- **A dirty buffer is written by the last one who uses it.** -/
theorem Busy.effect (H : s.Busy) (hcnt : s.Counted) (hc : s.Change s' t) (he : s.Effect s' t) :
    s'.Busy := by
  have hother : ∀ {pc : BufPc T}, s'.pc = update s.pc t pc → ∀ u ≠ t, s'.pc u = s.pc u := by
    intro pc hpc u hu
    rw [hpc, update_of_ne hu]
  refine H.keeps hc fun b hb hd => ?_
  cases he with
  | still hs =>
    rw [hs.store] at hd
    exact Or.inr ⟨hs.ptr ▸ hb, hd, fun u _ => by rw [hs.pc], fun hw => Or.inl (hs.pc ▸ hw)⟩
  | goes pc hs ho =>
    rw [hs.store] at hd
    have hb : b < s.buffer_ptr := hs.ptr ▸ hb
    refine Or.inr ⟨hb, hd, hother hs.pc, fun hw => ?_⟩
    rcases ho.writing b hw with hw | hclean | h0
    · rw [hs.pc, update_self]
      exact Or.inl hw
    · rw [hclean] at hd
      cases hd
    · refine Or.inr fun hr => h0 ?_
      rw [← hcnt b hb] at hr
      exact BitVec.eq_of_toNat_eq hr
  | clean k pc hpc hk hstore _ hptr hpc' _ _ _ =>
    have hbk : b ≠ k.buf := by
      rintro rfl
      rw [hstore, update_self] at hd
      cases hd
    rw [hstore, update_of_ne hbk] at hd
    refine Or.inr ⟨hptr ▸ hb, hd, hother hpc', fun hw => absurd ?_ hbk⟩
    simp only [hpc, BufPc.writing, if_pos hk, Option.some.injEq] at hw
    exact hw.symm
  | take c key _ hc hown hstore _ hpc _ =>
    obtain ⟨data, hstore⟩ := hstore
    have hbc : b ≠ c := by
      rintro rfl
      rw [hstore, update_self] at hd
      cases hd
    rw [hstore, update_of_ne hbc] at hd
    exact Or.inr ⟨by omega, hd, hother hpc, fun hw => absurd (hown b hw) hbc⟩
  | hold c hpc _ hstore _ hptr hpc' _ =>
    rw [hstore] at hd
    refine Or.inr ⟨hptr ▸ hb, hd, hother hpc', fun hw => ?_⟩
    rw [hpc] at hw
    cases hw
  | fill c hpc hstore _ hptr hpc' _ =>
    have hbc : b ≠ c := by
      rintro rfl
      rw [hstore, update_self] at hd
      cases hd
    rw [hstore, update_of_ne hbc] at hd
    refine Or.inr ⟨hptr ▸ hb, hd, hother hpc', fun hw => ?_⟩
    rw [hpc] at hw
    cases hw

theorem Busy.serves (H : s.Busy) (hc : s.Change s' t) {k : Cont} {req : Request T (ℕ × Key)}
    (hpc : s.pc t = .serve k req) (hs : s.Serves s' t k req) : s'.Busy := by
  refine H.keeps hc fun b hb hd => Or.inr ⟨hs.ptr ▸ hb, (hs.flags b).1 ▸ hd, fun u hu => ?_, fun hw => ?_⟩
  · rw [hs.pc, update_of_ne hu]
  · rw [hs.pc, update_self]
    rw [hpc] at hw
    exact Or.inl hw

end Steps

end Buffers

open Buffers

/-! ## Runs -/

section Runs
variable {T D α : Type} [DecidableEq T] [DecidableEq D] [Fintype T] {disks : Disks D}
  {p p' : Buffers T D α × Hist α} {l : BufAct T α × (α → α)}

/-- What a run keeps of the data. -/
structure Faithful (p : Buffers T D α × Hist α) : Prop where
  mirrors : p.1.Mirrors p.2
  settled : p.1.Settled p.2
  busy : p.1.Busy

/-- **Every step keeps the data**, if a modification keeps away from what is under way. -/
theorem HistStep.faithful (hI : Regular p) (H : Faithful p) (hone : OneWriter p.1)
    (hcalm : KeepsClear p.1 l.1) (hs : HistStep disks p l p') : Faithful p' := by
  obtain ⟨hK, hcnt, hF, hS⟩ := hI
  obtain ⟨hM, hT, hB⟩ := H
  have hc : p.1.Change p'.1 l.1.task := hs.step.change hK hs.proper.1
  obtain ⟨s, h⟩ := p
  obtain ⟨a, f⟩ := l
  obtain ⟨s', h'⟩ := p'
  obtain ⟨⟨howned, hheld⟩, hstep, hdata, rfl⟩ := hs
  cases a with
  | bread t key =>
    cases hstep with
    | bread hpc =>
    have hpc : s.pc t = .out := hpc
    refine ⟨hM.congr rfl rfl rfl, hT.leaves (t := t) rfl (fun _ => rfl) rfl fun _ _ _ _ _ => ⟨rfl, rfl, id⟩, ?_⟩
    refine hB.keeps hc fun b hb hd => Or.inr ⟨hb, hd, fun u hu => update_of_ne hu _ _, fun hw => ?_⟩
    have hw : (s.pc t).writing = some b := hw
    rw [hpc] at hw
    cases hw
  | modify t bf data =>
    cases hstep with
    | modify hpc hb =>
    have hb : bf < s.buffer_ptr := hb
    have hmem : bf ∈ s.held t := hheld t bf data rfl
    have hdata : data = f (s.store bf).data := hdata t bf data rfl
    refine ⟨hM.modify t hK hb (hF.held t bf hmem) hdata, hT.modify t hK hb hdata (hcalm t bf data rfl), ?_⟩
    refine hB.keeps hc fun b hb hd => ?_
    by_cases hbf : b = bf
    · refine Or.inl fun h0 => ?_
      rw [hbf] at h0
      have h0 : s.taskRefs t bf = 0 := Finset.sum_eq_zero_iff.1 h0 t (Finset.mem_univ t)
      have hpos := List.count_pos_iff.2 hmem
      unfold taskRefs at h0
      omega
    · have hd : ((s.setBuf bf fun b => { b with b_data := data, b_dirty := true }).store b).dirty = true := hd
      rw [store_modify, update_of_ne hbf] at hd
      exact Or.inr ⟨hb, hd, fun _ _ => rfl, Or.inl⟩
  | brelse t bf =>
    cases hstep with
    | brelse hpc hb =>
    have hstill : s.Still (s.setBuf bf fun b => { b with b_count := b.b_count - 1 }) := still_setBuf rfl
    have hstore := congrFun hstill.store
    have hpc : s.pc t = .out := hpc
    refine ⟨hM.congr hstill.store rfl rfl, hT.leaves (t := t) rfl (fun _ => rfl) rfl fun u _ type b _ => ?_, ?_⟩
    · exact ⟨congrArg Store.data (hstore b), congrArg Store.key (hstore b),
        fun hd => (congrArg Store.dirty (hstore b)).trans hd⟩
    · refine hB.keeps hc fun b hb hd => Or.inr ⟨hb, ?_, fun u hu => update_of_ne hu _ _, fun hw => ?_⟩
      · exact (congrArg Store.dirty (hstore b)).symm.trans hd
      · have hw : (s.pc t).writing = some b := hw
        rw [hpc] at hw
        cases hw
  | run t =>
    rcases hstep.effect hK with ⟨k, req, hpc, hserves⟩ | ⟨hpc, he⟩
    · have hcontent : (h.after s f (.run t)).content = h.content := by
        rw [Hist.after_serve hpc]
        split_ifs <;> rfl
      have hM' : s'.Mirrors h := hM.serves hK hF hS hT hpc hserves
      have hT' : s'.Settled h := hT.serves hM hK hF hS hpc hserves
      exact ⟨hM'.of_content hcontent, hT'.of_content hcontent, hB.serves hc hpc hserves⟩
    · have hh : h.after s f (.run t) = h := Hist.after_run hpc
      refine ⟨?_, ?_, hB.effect hcnt hc he⟩
      · exact (hM.effect hK hT he).of_content (congrArg Hist.content hh)
      · exact (hT.effect hK hcnt hF hone he).of_content (congrArg Hist.content hh)

theorem faithful_init (h : (histSys T D α disks).init p) : Faithful p := by
  obtain ⟨hinit, hcontent, -⟩ := h
  obtain ⟨hptr, -, -, -, -, hpc, -, -⟩ := hinit
  have hnone : ∀ b, ¬ b < p.1.buffer_ptr := fun b hb => Nat.not_lt_zero b (hptr ▸ hb)
  refine ⟨⟨fun b hb => absurd hb (hnone b), fun key _ => by rw [hcontent], fun b hb => absurd hb (hnone b)⟩,
    ⟨fun t b hu => ?_, fun t b hu => ?_, fun t b hu => ?_⟩, fun b hb => absurd hb (hnone b)⟩
  all_goals
    rw [hpc] at hu
    cases hu

/-- **No modification is lost**, in every interleaving in which no two tasks have a write of the same
    buffer under way, no buffer is modified while a read of it is under way or between the transfer of
    a write of it and `b_dirty = false`, and none is referenced a 256th time: who holds a buffer sees
    all that has been made of its block, and the disk has it for all blocks when every buffer is
    released and written. -/
theorem updates_kept (hr : ((histSys T D α disks).restrict fun p l =>
    Spare p.1 l.1 ∧ OneWriter p.1 ∧ KeepsClear p.1 l.1).Reach p) :
    (∀ t, ∀ b ∈ p.1.held t, (p.1.buf b).b_data = p.2.content (p.1.buf b).key) ∧
    ((∀ b, p.1.refs b = 0) → (∀ t, (p.1.pc t).writing = none) → p.1.disk = p.2.content) := by
  have hI : Regular p ∧ Faithful p := by
    refine hr.invariant (I := fun p => Regular p ∧ Faithful p) (fun p hp => ?_) fun p l p' hI hs => ?_
    · have hinit : (histSys T D α disks).init p := hp
      exact ⟨regular_init hinit, faithful_init hinit⟩
    · obtain ⟨⟨hspare, hone, hcalm⟩, hstep⟩ := hs
      have hstep : HistStep disks p l p' := hstep
      exact ⟨hstep.regular hI.1 hspare hone, hstep.faithful hI.1 hI.2 hone hcalm⟩
  obtain ⟨⟨hK, -, hF, -⟩, hM, -, hB⟩ := hI
  refine ⟨fun t b hb => ?_, fun hrefs hwrite => ?_⟩
  · exact hM.content b (hK.named b ⟨t, Or.inr hb⟩) (hF.held t b hb)
  · ext1 key
    refine hM.disk key fun b hb _ => ?_
    by_contra hd
    rcases hB b hb (Bool.not_eq_false _ ▸ hd) with h0 | ⟨t, ht⟩
    · exact h0 (hrefs b)
    · rw [hwrite t] at ht
      cases ht

end Runs

/-- Two tasks have modified a block and released it. -/
theorem updates_kept_shared : ∃ p : Buffers (Fin 2) Unit ℕ × Hist ℕ,
    p.2.content (5, 7) = 18 ∧ p.1.disk (5, 7) = 18 := by
  obtain ⟨-, -, -, p, hr, hout, hcontent⟩ := shared_write
  obtain ⟨-, h⟩ := updates_kept hr
  refine ⟨p, hcontent, ?_⟩
  rw [h, hcontent]
  · intro b
    refine Finset.sum_eq_zero fun t _ => ?_
    rw [taskRefs, (hout t).1, (hout t).2]
    rfl
  · intro t
    rw [(hout t).1]
    rfl

/-- **A lost modification**: two tasks read a block at the same time, the first one modifies it, and
    then the second transfer overwrites the buffer. -/
theorem update_lost : ∃ p, pairSys.Reach p ∧ (∀ t, p.1.pc t = .out ∧ p.1.held t = []) ∧
    p.2.content (5, 7) = 9 ∧ p.1.disk (5, 7) = 0 := by
  have h₀ : pairSys.Reach (emptyCache, ⟨fun _ => 0, fun _ => none⟩) :=
    .init ⟨⟨rfl, rfl, fun _ => rfl, rfl, fun _ => rfl, fun _ => rfl, fun _ => rfl, fun _ => rfl⟩, rfl,
      fun _ => rfl⟩
  -- the first task waits for the disk, the second one for the first
  have h₁ := h₀.step (.of_bread (t := 0) (5, 7) rfl)
  have h₂ := h₁.step (.of_run (t := 0) (.getblk rfl rfl rfl))
  have h₃ := h₂.step (.of_run (t := 0) (.breadValid rfl rfl))
  have h₄ := h₃.step (.of_bread (t := 1) (5, 7) rfl)
  have h₅ := h₄.step (.of_run (t := 1) (.getblk rfl rfl rfl))
  have h₆ := h₅.step (.of_run (t := 1) (.breadValid rfl rfl))
  have h₇ := h₆.step (.of_run (t := 0) (.serve rfl rfl))
  have h₈ := h₇.step (.of_run (t := 0) (.finish rfl rfl))
  have h₉ := h₈.step (.of_run (t := 0) (.back rfl))
  have h₁₀ := h₉.step (.of_modify 0 0 (fun _ => 9) rfl (by decide) (by decide))
  -- the second task reads the block again, and clears `b_dirty`
  have h₁₁ := h₁₀.step (.of_run (t := 1) (.check rfl rfl))
  have h₁₂ := h₁₁.step (.of_run (t := 1) (.serve rfl rfl))
  have h₁₃ := h₁₂.step (.of_run (t := 1) (.finish rfl rfl))
  have h₁₄ := h₁₃.step (.of_run (t := 1) (.back rfl))
  have h₁₅ := h₁₄.step (.of_brelse 0 0 rfl (by decide) (by decide))
  have h₁₆ := h₁₅.step (.of_run (t := 0) (.brelseRest rfl rfl))
  have h₁₇ := h₁₆.step (.of_brelse 1 0 rfl (by decide) (by decide))
  have h₁₈ := h₁₇.step (.of_run (t := 1) (.brelseRest rfl rfl))
  refine ⟨_, h₁₈, fun t => ?_, rfl, rfl⟩
  match t with
  | 0 => exact ⟨rfl, rfl⟩
  | 1 => exact ⟨rfl, rfl⟩

end Rdix
