/-
  The buffer cache with one task (fs/buffer.c: getblk, bread, bwrite, brelse, sync_dev).

  Nothing but the transfer happens between the call of `device_request` and its return, and a `block`
  does not return.  The list `held` has a buffer once for each reference to it.

  * `Sane`, `Kept`: what holds between two calls;
  * `bread_spec`: `bread` returns, and with the last content of its block;
  * `cache_transparent`: so it does in every run, and the disk has the last contents once no reference
    is left.
-/
import Rdix.Fs.LostUpdate
import Rdix.Kernel.ListNode

namespace Rdix.Lone

open Function Transition Buffers
open Nodes (Returns)

/-! ## The code -/

abbrev Cache (α : Type) := Buffers Unit Unit α

variable {α : Type}

/-- `device_request`, of a device that transfers faithfully. -/
def deviceRequest (s : Cache α) (bf : ℕ) : ReqType → Cache α
  | .read => s.setBuf bf fun b => { b with b_data := s.disk b.key }
  | .write => { s with disk := update s.disk (s.buf bf).key (s.buf bf).b_data }

def bwrite (s : Cache α) (bf : ℕ) : Cache α :=
  if (s.buf bf).b_dirty then
    (deviceRequest s bf .write).setBuf bf fun b => { b with b_dirty := false }
  else s

/-- One more reference. -/
def hold (s : Cache α) (bf : ℕ) : Cache α := { s with held := fun _ => bf :: s.held () }

/-- `getblk` from `_retry` on; none stands for `goto _retry`. -/
def getblkTurn (s : Cache α) (key : Key) : C (Cache α × Option ℕ) :=
  match s.findFromHashTable key with
  | some bf => return (hold (s.setBuf bf fun b => { b with b_count := b.b_count + 1 }) bf, some bf)
  | none =>
    match s.getNewBuffer with
    | some (s', bf) => return (hold (s'.findNew bf key) bf, some bf)
    | none =>
      match scan s.buf s.free_list none with
      -- in `block`
      | (none, _) => throw .loop
      | (some bf, true) => return (hold (s.findNew bf key) bf, some bf)
      | (some bf, false) =>
        if (s.buf bf).b_lock.value then
          let s' := bwrite s bf
          if (s.buf bf).b_dirty ∧ (s'.buf bf).b_count ≠ 0 then return (s', none)
          else match s'.findFromHashTable key with
            | some _ => return (s', none)
            | none => return (hold (s'.findNew bf key) bf, some bf)
        -- in `block`
        else throw .loop

def getblk (s : Cache α) (key : Key) : ℕ → C (Cache α × ℕ)
  | 0 => throw .loop
  | fuel + 1 => do
    let r ← getblkTurn s key
    match r.2 with
    | some bf => return (r.1, bf)
    | none => getblk r.1 key fuel

def bread (s : Cache α) (key : Key) (fuel : ℕ) : C (Cache α × ℕ) := do
  let r ← getblk s key fuel
  if (r.1.buf r.2).b_vaild then return r
  return ((deviceRequest r.1 r.2 .read).setBuf r.2 fun b => { b with b_vaild := true, b_dirty := false }, r.2)

/-- The task writes into `b_data`. -/
def modify (s : Cache α) (bf : ℕ) (data : α) : Cache α :=
  s.setBuf bf fun b => { b with b_data := data, b_dirty := true }

/-- One reference less. -/
def drop (s : Cache α) (bf : ℕ) : Cache α :=
  { s.setBuf bf fun b => { b with b_count := b.b_count - 1 } with held := fun _ => (s.held ()).erase bf }

def brelse (s : Cache α) (bf : ℕ) : Cache α :=
  let s := drop s bf
  if (s.buf bf).b_count ≠ 0 then s
  else if (s.buf bf).b_dirty then bwrite s bf
  else s

/-- The loop of `sync_dev`. -/
def syncBufs (s : Cache α) : List ℕ → Cache α
  | [] => s
  | bf :: rest => syncBufs (if (s.buf bf).b_dirty then bwrite s bf else s) rest

/-- `sync_dev`, which writes the buffers of all devices. -/
def syncDev (s : Cache α) : Cache α := syncBufs s (List.range s.buffer_ptr)

/-! ## Runs -/

inductive Op (α : Type) where
  | bread (key : Key)
  | modify (bf : ℕ) (data : α)
  | brelse (bf : ℕ)
  | syncDev

/-- The task uses only buffers that it has a reference to; the second component is the last content of
    each block. -/
def cacheSys (α : Type) : Sys (Cache α × (Key → α)) (Op α) where
  init p := (bufSys Unit Unit α ⟨fun _ => (), fun _ => true, fun _ => 0⟩).init p.1 ∧ p.2 = p.1.disk
  step p op q := match op with
    | .bread key => ∃ bf, Returns (bread p.1 key) (q.1, bf) ∧ q.2 = p.2
    | .modify bf data => bf ∈ p.1.held () ∧ q.1 = modify p.1 bf data ∧ q.2 = update p.2 (p.1.buf bf).key data
    | .brelse bf => bf ∈ p.1.held () ∧ q.1 = brelse p.1 bf ∧ q.2 = p.2
    | .syncDev => q.1 = syncDev p.1 ∧ q.2 = p.2

/-- The buffers that there is memory for. -/
abbrev poolSize : ℕ := 3826

/-- A block has less than 255 references when it is read, and not every buffer has one. -/
def Spares (s : Cache α) (key : Key) : Prop :=
  (∀ b < s.buffer_ptr, (s.buf b).key = key → (s.held ()).count b < 255) ∧
    (s.held ()).toFinset.card < poolSize

def Allowed (p : Cache α × (Key → α)) : Op α → Prop
  | .bread key => Spares p.1 key
  | .modify _ _ | .brelse _ | .syncDev => True

/-! ## Between two calls -/

/-- The keys, the contents, the counts and the locks. -/
structure Sane (s : Cache α) (content : Key → α) : Prop where
  keyed : s.Keyed
  out : s.pc () = .out
  mirrors : s.Mirrors ⟨content, fun _ => none⟩
  count : ∀ b < s.buffer_ptr, (s.buf b).b_count.toNat = (s.held ()).count b
  free : ∀ b < s.buffer_ptr, (s.buf b).b_lock.value = true ∧ (s.buf b).waiter = none

/-- Only buffers with references are dirty, and these are valid. -/
structure Kept (s : Cache α) : Prop where
  dirty : ∀ b < s.buffer_ptr, (s.buf b).b_dirty = true → b ∈ s.held ()
  vaild : ∀ b ∈ s.held (), (s.buf b).b_vaild = true

section Calls
variable {s s' : Cache α} {content : Key → α} {bf : ℕ} {key : Key}

theorem Sane.count_zero (H : Sane s content) (hb : bf < s.buffer_ptr) : (s.buf bf).b_count = 0 ↔ bf ∉ s.held () := by
  rw [← List.count_eq_zero, ← H.count bf hb]
  exact ⟨fun h => by rw [h]; rfl, fun h => BitVec.eq_of_toNat_eq h⟩

/-- The loop of `getblk` finds a buffer, if one is not in use. -/
theorem scan_isSome {buf : ℕ → Buffer Unit α} {l : List ℕ} {acc : Option ℕ}
    (h : (∃ b ∈ l, (buf b).b_count = 0 ∧ (buf b).waiter = none) ∨ acc.isSome = true) :
    (scan buf l acc).1.isSome = true := by
  induction l generalizing acc with
  | nil => exact h.resolve_left fun ⟨b, hb, _⟩ => absurd hb List.not_mem_nil
  | cons tmp rest ih =>
    have hskip : (buf tmp).b_count ≠ 0 ∨ (buf tmp).waiter.isSome = true →
        (∃ b ∈ rest, (buf b).b_count = 0 ∧ (buf b).waiter = none) ∨ acc.isSome = true := by
      intro hno
      refine h.imp_left fun ⟨b, hb, hcount, hwaiter⟩ => ?_
      rcases List.mem_cons.1 hb with rfl | hb
      · rcases hno with hno | hno
        · exact absurd hcount hno
        · rw [hwaiter] at hno
          cases hno
      · exact ⟨b, hb, hcount, hwaiter⟩
    unfold scan
    dsimp only
    split_ifs with hcount hwaiter hscore hless
    · exact ih (hskip (Or.inl hcount))
    · exact ih (hskip (Or.inr hwaiter))
    · rfl
    · exact ih (Or.inr rfl)
    · exact ih (Or.inr rfl)

/-- A buffer gets a new key, and its first reference. -/
theorem Sane.take (H : Sane s content) (hfind : s.findFromHashTable key = none)
    (hb : bf < s.buffer_ptr ∧ bf ∉ s.held () ∧ (s.buf bf).b_dirty = false ∧ s'.buffer_ptr = s.buffer_ptr ∨
      bf = s.buffer_ptr ∧ s'.buffer_ptr = s.buffer_ptr + 1)
    (hassigns : s.Assigns s' bf key) (hother : ∀ c ≠ bf, s'.buf c = s.buf c)
    (hcount : (s'.buf bf).b_count = 1) (hclean : (s'.buf bf).b_dirty = false ∧ (s'.buf bf).b_vaild = false)
    (hfree : (s'.buf bf).b_lock.value = true ∧ (s'.buf bf).waiter = none)
    (hheld : s'.held () = bf :: s.held ()) (hdisk : s'.disk = s.disk) (hpc : s'.pc = s.pc) : Sane s' content := by
  have hlt : ∀ c, c ≠ bf → c < s'.buffer_ptr → c < s.buffer_ptr := by
    intro c hc hc'
    omega
  have hnot : bf ∉ s.held () := by
    rcases hb with ⟨-, hnot, -⟩ | ⟨hb, -⟩
    · exact hnot
    · intro hmem
      have hlt := H.keyed.named bf ⟨(), Or.inr hmem⟩
      omega
  have hstore : s'.store = update s.store bf (s'.store bf) := by
    ext1 c
    by_cases hc : c = bf
    · rw [hc, update_self]
    · rw [update_of_ne hc]
      exact congrArg (fun b => (⟨b.b_data, b.key, b.b_dirty, b.b_vaild⟩ : Store α)) (hother c hc)
  refine ⟨?_, by rw [hpc]; exact H.out, ?_, fun c hc => ?_, fun c hc => ?_⟩
  · exact hassigns.keyed H.keyed (hb.imp (fun hb => ⟨hb.1, hb.2.2.2⟩) id) hfind
  · refine H.mirrors.update H.keyed (hb.imp (fun hb => ⟨hb.1, fun hd => ?_, hb.2.2.2⟩) id) hstore hdisk
      (fun hd => ?_) fun hv => ?_
    · exact absurd hd (Bool.eq_false_iff.1 hb.2.2.1)
    · exact absurd hd (Bool.eq_false_iff.1 hclean.1)
    · exact absurd hv (Bool.eq_false_iff.1 hclean.2)
  · rw [hheld]
    by_cases hcb : c = bf
    · rw [hcb, hcount, List.count_cons_self, List.count_eq_zero.2 hnot]
      rfl
    · rw [hother c hcb, List.count_cons_of_ne (Ne.symm hcb)]
      exact H.count c (hlt c hcb hc)
  · by_cases hcb : c = bf
    · exact hcb ▸ hfree
    · rw [hother c hcb]
      exact H.free c (hlt c hcb hc)

theorem named_hold {c : ℕ} (h : (hold s bf).Named c) : s.Named c ∨ c = bf := by
  obtain ⟨t, hc | hc⟩ := h
  · exact Or.inl ⟨t, Or.inl hc⟩
  · rcases List.mem_cons.1 hc with rfl | hc
    · exact Or.inr rfl
    · exact Or.inl ⟨t, Or.inr hc⟩

/-- The count of a buffer follows its references. -/
theorem Sane.recount {n : BitVec 8} {held' : List ℕ} (H : Sane s content) (hb : bf < s.buffer_ptr)
    (hcount : n.toNat = held'.count bf) (hrest : ∀ c ≠ bf, held'.count c = (s.held ()).count c) :
    Sane { s.setBuf bf fun b => { b with b_count := n } with held := fun _ => held' } content := by
  have hstill : s.Still (s.setBuf bf fun b => { b with b_count := n }) := still_setBuf rfl
  have hkeys : s.SameKeys (s.setBuf bf fun b => { b with b_count := n }) := sameKeys_setBuf rfl
  have hother : ∀ c ≠ bf, update s.buf bf { s.buf bf with b_count := n } c = s.buf c :=
    fun c hc => update_of_ne hc ..
  constructor
  · refine SameKeys.keyed ⟨hkeys.free_list, hkeys.hash_table, hkeys.buffer_ptr, hkeys.key, ?_⟩ H.keyed
    rintro c ⟨t, hc | hc⟩
    · exact Or.inl ⟨t, Or.inl hc⟩
    · have hc : c ∈ held' := hc
      by_cases hcb : c = bf
      · exact Or.inr (hcb ▸ hb)
      · refine Or.inl ⟨(), Or.inr (List.count_pos_iff.1 ?_)⟩
        rw [← hrest c hcb]
        exact List.count_pos_iff.2 hc
  · exact H.out
  · exact H.mirrors.congr hstill.store rfl rfl
  · intro c hc
    show (update s.buf bf { s.buf bf with b_count := n } c).b_count.toNat = held'.count c
    by_cases hcb : c = bf
    · rw [hcb, update_self]
      exact hcount
    · rw [hother c hcb, hrest c hcb]
      exact H.count c hc
  · intro c hc
    show (update s.buf bf { s.buf bf with b_count := n } c).b_lock.value = true ∧
      (update s.buf bf { s.buf bf with b_count := n } c).waiter = none
    by_cases hcb : c = bf
    · rw [hcb, update_self]
      exact H.free bf hb
    · rw [hother c hcb]
      exact H.free c hc

/-- A buffer that has the key gets one more reference. -/
theorem Sane.hit (H : Sane s content) (hb : bf < s.buffer_ptr) (hless : (s.held ()).count bf < 255) :
    Sane (hold (s.setBuf bf fun b => { b with b_count := b.b_count + 1 }) bf) content := by
  have hcount := H.count bf hb
  have hlt : (s.buf bf).b_count.toNat + 1 < 2 ^ 8 := by omega
  have hmore : ((s.buf bf).b_count + 1).toNat = (bf :: s.held ()).count bf := by
    rw [List.count_cons_self, ← hcount, BitVec.toNat_add]
    exact Nat.mod_eq_of_lt hlt
  exact H.recount hb hmore fun c hc => List.count_cons_of_ne (Ne.symm hc)

/-- What `getblk` gives. -/
structure Got (s s' : Cache α) (content : Key → α) (key : Key) (bf : ℕ) : Prop where
  sane : Sane s' content
  lt : bf < s'.buffer_ptr
  key : (s'.buf bf).key = key
  held : s'.held () = bf :: s.held ()
  other : ∀ c ≠ bf, c < s'.buffer_ptr → c < s.buffer_ptr
  buf : ∀ c ≠ bf, s'.buf c = s.buf c

theorem got_hit (H : Sane s content) (hb : bf < s.buffer_ptr) (hkey : (s.buf bf).key = key)
    (hless : (s.held ()).count bf < 255) :
    Got s (hold (s.setBuf bf fun b => { b with b_count := b.b_count + 1 }) bf) content key bf := by
  have hkeys : s.SameKeys (s.setBuf bf fun b => { b with b_count := b.b_count + 1 }) := sameKeys_setBuf rfl
  exact ⟨H.hit hb hless, hb, (hkeys.key bf).trans hkey, rfl, fun _ _ => id, fun c hc => update_of_ne hc ..⟩

theorem got_findNew (H : Sane s content) (hfind : s.findFromHashTable key = none) (hb : bf < s.buffer_ptr)
    (hnot : bf ∉ s.held ()) (hclean : (s.buf bf).b_dirty = false) :
    Got s (hold (s.findNew bf key) bf) content key bf := by
  have hself : (s.findNew bf key).buf bf =
      { s.buf bf with b_count := 1, b_dirty := false, b_vaild := false, b_blknr := key.2, b_dev := key.1 } :=
    update_self ..
  have hother : ∀ c ≠ bf, (s.findNew bf key).buf c = s.buf c := fun c hc => update_of_ne hc ..
  have hassigns := assigns_findNew s bf key
  refine ⟨H.take hfind (Or.inl ⟨hb, hnot, hclean, rfl⟩) ?_ hother ?_ ?_ ?_ rfl rfl rfl, hb, ?_, rfl, fun _ _ => id,
    hother⟩
  · exact ⟨hassigns.free_list, hassigns.hash_table, hassigns.self, hassigns.key,
      fun c hc => (named_hold hc).imp id Or.inr⟩
  · exact congrArg Buffer.b_count hself
  · exact ⟨congrArg Buffer.b_dirty hself, congrArg Buffer.b_vaild hself⟩
  · have hfree := H.free bf hb
    exact ⟨(congrArg (fun b => b.b_lock.value) hself).trans hfree.1, (congrArg Buffer.waiter hself).trans hfree.2⟩
  · exact congrArg Buffer.key hself

/-- The same, in new memory. -/
theorem got_newBuffer {p : Cache α × ℕ} (H : Sane s content) (hfind : s.findFromHashTable key = none)
    (hnew : s.getNewBuffer = some p) : Got s (hold (p.1.findNew p.2 key) p.2) content key p.2 := by
  unfold getNewBuffer at hnew
  by_cases hroom : Room s.buffer_ptr
  · rw [if_pos hroom] at hnew
    obtain rfl := Option.some.inj hnew
    dsimp only
    let s₁ : Cache α := { s with
      buf := update s.buf s.buffer_ptr ⟨(s.buf s.buffer_ptr).b_data, 0, BitVec.ofInt 32 EOF, false, ⟨true, []⟩, 0,
        false, none⟩
      buffer_ptr := s.buffer_ptr + 1 }
    have hself : (s₁.findNew s.buffer_ptr key).buf s.buffer_ptr =
        ⟨(s.buf s.buffer_ptr).b_data, key.2, key.1, false, ⟨true, []⟩, 1, false, none⟩ := by
      simp only [s₁, findNew, bufferInsert, bufferRemove, setBuf, update_self]
    have hother : ∀ c ≠ s.buffer_ptr, (s₁.findNew s.buffer_ptr key).buf c = s.buf c := by
      intro c hc
      simp only [s₁, findNew, bufferInsert, bufferRemove, setBuf, update_of_ne hc]
    have hassigns := assigns_findNew s₁ s.buffer_ptr key
    have htake : Sane (hold (s₁.findNew s.buffer_ptr key) s.buffer_ptr) content := by
      refine H.take hfind (Or.inr ⟨rfl, rfl⟩) ?_ hother ?_ ?_ ?_ rfl rfl rfl
      · exact ⟨hassigns.free_list, hassigns.hash_table, hassigns.self, fun c hc => congrArg Buffer.key (hother c hc),
          fun c hc => (named_hold hc).imp id Or.inr⟩
      · exact congrArg Buffer.b_count hself
      · exact ⟨congrArg Buffer.b_dirty hself, congrArg Buffer.b_vaild hself⟩
      · exact ⟨congrArg (fun b => b.b_lock.value) hself, congrArg Buffer.waiter hself⟩
    refine ⟨htake, Nat.lt_succ_self s.buffer_ptr, congrArg Buffer.key hself, rfl, fun c hc hlt => ?_, hother⟩
    have hlt : c < s.buffer_ptr + 1 := hlt
    omega
  · rw [if_neg hroom] at hnew
    cases hnew

theorem room_iff (n : ℕ) : Room n ↔ n < poolSize := by
  unfold Room poolSize
  omega

/-- Not every buffer of the pool has a reference. -/
theorem exists_unused (hroom : ¬ Room s.buffer_ptr) (hcard : (s.held ()).toFinset.card < poolSize) :
    ∃ b < s.buffer_ptr, b ∉ s.held () := by
  by_contra hnone
  have hall : ∀ b < s.buffer_ptr, b ∈ s.held () := fun b hb => not_not.1 fun hnot => hnone ⟨b, hb, hnot⟩
  have hptr : poolSize ≤ s.buffer_ptr := by
    rw [room_iff] at hroom
    exact not_lt.1 hroom
  have hsub : Finset.range poolSize ⊆ (s.held ()).toFinset := by
    intro b hb
    rw [List.mem_toFinset]
    exact hall b ((Finset.mem_range.1 hb).trans_le hptr)
  have hle := Finset.card_le_card hsub
  rw [Finset.card_range] at hle
  omega

/-- **`getblk` returns**, with a buffer for the block and a reference to it. -/
theorem getblk_spec (H : Sane s content) (hk : Kept s) (hs : Spares s key) :
    ∃ s' bf, Returns (getblk s key) (s', bf) ∧ Got s s' content key bf := by
  obtain ⟨hless, hcard⟩ := hs
  have hreturns : ∀ {s' bf}, getblkTurn s key = .ok (s', some bf) → Returns (getblk s key) (s', bf) := by
    intro s' bf h
    refine (Returns.const rfl).turn rfl fun fuel => ?_
    rw [getblk, h]
    rfl
  cases hfind : s.findFromHashTable key with
  | some bf =>
    obtain ⟨hb, hkey⟩ := findFromHashTable_some H.keyed hfind
    refine ⟨_, bf, hreturns ?_, got_hit H hb hkey (hless bf hb hkey)⟩
    unfold getblkTurn
    rw [hfind]
    rfl
  | none =>
    cases hnew : s.getNewBuffer with
    | some p =>
      refine ⟨_, p.2, hreturns ?_, got_newBuffer H hfind hnew⟩
      unfold getblkTurn
      rw [hfind, hnew]
      rfl
    | none =>
      have hroom : ¬ Room s.buffer_ptr := by
        intro hroom
        unfold getNewBuffer at hnew
        rw [if_pos hroom] at hnew
        cases hnew
      obtain ⟨c, hc, hnot⟩ := exists_unused hroom hcard
      have hsome : (scan s.buf s.free_list none).1.isSome = true :=
        scan_isSome (Or.inl ⟨c, (H.keyed.mem_free c).2 hc, (H.count_zero hc).2 hnot, (H.free c hc).2⟩)
      cases hscan : scan s.buf s.free_list none with
      | mk found now =>
        rw [hscan] at hsome
        obtain ⟨bf, rfl⟩ := Option.isSome_iff_exists.1 hsome
        obtain ⟨hcount, hmem⟩ := scan_spec hscan nofun
        have hb : bf < s.buffer_ptr := (H.keyed.mem_free bf).1 (hmem.resolve_right nofun)
        have hunused := (H.count_zero hb).1 hcount
        have hclean : (s.buf bf).b_dirty = false := by
          rw [← Bool.not_eq_true]
          exact fun hd => hunused (hk.dirty bf hb hd)
        refine ⟨_, bf, hreturns ?_, got_findNew H hfind hb hunused hclean⟩
        unfold getblkTurn
        rw [hfind, hnew, hscan]
        cases now with
        | true => rfl
        | false =>
          -- what is not in use is not dirty
          have hwrite : bwrite s bf = s := if_neg (Bool.eq_false_iff.1 hclean)
          dsimp only
          rw [if_pos (H.free bf hb).1, hwrite, if_neg fun h => Bool.eq_false_iff.1 hclean h.1, hfind]
          rfl

/-- A change of the bytes and the flags of a buffer. -/
theorem Sane.setBuf {content' : Key → α} {f : Buffer Unit α → Buffer Unit α} (H : Sane s content)
    (hf : (f (s.buf bf)).key = (s.buf bf).key ∧ (f (s.buf bf)).b_count = (s.buf bf).b_count ∧
      (f (s.buf bf)).b_lock = (s.buf bf).b_lock ∧ (f (s.buf bf)).waiter = (s.buf bf).waiter)
    (hM : (s.setBuf bf f).Mirrors ⟨content', fun _ => none⟩) : Sane (s.setBuf bf f) content' := by
  obtain ⟨hkey, hcount, hlock, hwaiter⟩ := hf
  have hother : ∀ c ≠ bf, (s.setBuf bf f).buf c = s.buf c := fun c hc => update_of_ne hc ..
  have hself : (s.setBuf bf f).buf bf = f (s.buf bf) := update_self ..
  refine ⟨(sameKeys_setBuf hkey).keyed H.keyed, H.out, hM, fun c hc => ?_, fun c hc => ?_⟩
  · by_cases hcb : c = bf
    · rw [hcb, hself, hcount]
      exact H.count bf (hcb ▸ hc)
    · rw [hother c hcb]
      exact H.count c hc
  · by_cases hcb : c = bf
    · rw [hcb, hself, hlock, hwaiter]
      exact H.free bf (hcb ▸ hc)
    · rw [hother c hcb]
      exact H.free c hc

theorem setBuf_setBuf (s : Cache α) (bf : ℕ) (f g : Buffer Unit α → Buffer Unit α) :
    (s.setBuf bf f).setBuf bf g = s.setBuf bf fun b => g (f b) := by
  simp only [Buffers.setBuf, update_self, update_idem]

/-- **`bread` returns**, with the last content of the block. -/
theorem bread_spec (H : Sane s content) (hk : Kept s) (hs : Spares s key) :
    ∃ s' bf, Returns (bread s key) (s', bf) ∧ (Sane s' content ∧ Kept s') ∧ (s'.buf bf).key = key ∧
      (s'.buf bf).b_data = content key := by
  obtain ⟨s₁, bf, hr, hg⟩ := getblk_spec H hk hs
  have hkept : ∀ {s'}, s'.held () = s₁.held () → s'.buffer_ptr = s₁.buffer_ptr →
      (∀ c ≠ bf, s'.buf c = s₁.buf c) → (s'.buf bf).b_vaild = true → Kept s' := by
    intro s' hheld hptr hother hv
    constructor
    · intro b hb hd
      rw [hheld, hg.held]
      by_cases hbf : b = bf
      · exact hbf ▸ List.mem_cons_self
      · rw [hother b hbf, hg.buf b hbf] at hd
        exact List.mem_cons_of_mem _ (hk.dirty b (hg.other b hbf (hptr ▸ hb)) hd)
    · intro b hb
      rw [hheld, hg.held] at hb
      by_cases hbf : b = bf
      · exact hbf ▸ hv
      · rw [hother b hbf, hg.buf b hbf]
        exact hk.vaild b ((List.mem_cons.1 hb).resolve_left hbf)
  cases hv : (s₁.buf bf).b_vaild with
  | true =>
    refine ⟨s₁, bf, hr.bind (if_pos hv), ⟨hg.sane, hkept rfl rfl (fun _ _ => rfl) hv⟩, hg.key, ?_⟩
    have hdata := hg.sane.mirrors.content bf hg.lt hv
    have hkey : (s₁.store bf).key = key := hg.key
    rw [hkey] at hdata
    exact hdata
  | false =>
    have hclean : (s₁.store bf).dirty = false := by
      rw [← Bool.not_eq_true]
      intro hd
      have hd := hg.sane.mirrors.dirty bf hg.lt hd
      exact absurd hd (Bool.eq_false_iff.1 hv)
    have hsaved : s₁.Saved bf := fun hd => absurd hd (Bool.eq_false_iff.1 hclean)
    let s₂ := s₁.setBuf bf fun b => { b with b_data := s₁.disk b.key, b_vaild := true, b_dirty := false }
    have hself : s₂.buf bf =
        { s₁.buf bf with b_data := s₁.disk (s₁.buf bf).key, b_vaild := true, b_dirty := false } := update_self ..
    have hread : (deviceRequest s₁ bf .read).setBuf bf (fun b => { b with b_vaild := true, b_dirty := false }) = s₂ :=
      setBuf_setBuf s₁ bf (fun b => { b with b_data := s₁.disk b.key }) _
    have hdisk : s₁.disk (s₁.buf bf).key = content key := by
      have hdisk := hg.sane.mirrors.saved hg.sane.keyed hg.lt hsaved
      have hkey : (s₁.store bf).key = key := hg.key
      rw [hkey] at hdisk
      rw [hg.key]
      exact hdisk
    have hM : s₂.Mirrors ⟨content, fun _ => none⟩ := by
      refine hg.sane.mirrors.update hg.sane.keyed (Or.inl ⟨hg.lt, hsaved, rfl⟩) (store_setBuf ..) rfl nofun fun _ => ?_
      exact hdisk.trans (congrArg content hg.key).symm
    refine ⟨s₂, bf, hr.bind ((if_neg (Bool.eq_false_iff.1 hv)).trans ?_),
      ⟨hg.sane.setBuf ⟨rfl, rfl, rfl, rfl⟩ hM, hkept rfl rfl (fun c hc => update_of_ne hc ..) ?_⟩, ?_, ?_⟩
    · exact congrArg (fun s' => (.ok (s', bf) : C (Cache α × ℕ))) hread
    · rw [hself]
    · rw [hself]
      exact hg.key
    · rw [hself]
      exact hdisk

/-- A write puts the bytes of a dirty buffer on the disk. -/
theorem Sane.write (H : Sane s content) (hb : bf < s.buffer_ptr) (hd : (s.buf bf).b_dirty = true) :
    Sane (deviceRequest s bf .write) content := by
  have hdata : (s.buf bf).b_data = content (s.buf bf).key :=
    H.mirrors.content bf hb (H.mirrors.dirty bf hb hd)
  have hkeys : s.SameKeys (deviceRequest s bf .write) := ⟨rfl, rfl, rfl, fun _ => rfl, fun _ => Or.inl⟩
  refine ⟨hkeys.keyed H.keyed, H.out, ⟨H.mirrors.content, fun key hclean => ?_, H.mirrors.dirty⟩, H.count, H.free⟩
  show update s.disk (s.buf bf).key (s.buf bf).b_data key = content key
  by_cases hkey : key = (s.buf bf).key
  · rw [hkey, update_self]
    exact hdata
  · rw [update_of_ne hkey]
    exact H.mirrors.disk key hclean

theorem bwrite_buf (s : Cache α) (bf c : ℕ) :
    (bwrite s bf).buf c = { s.buf c with b_dirty := if c = bf then false else (s.buf c).b_dirty } := by
  unfold bwrite
  split_ifs with hd hc hc
  · subst hc
    exact update_self ..
  · exact update_of_ne hc ..
  · subst hc
    rw [← Bool.eq_false_iff.2 hd]
  · rfl

theorem bwrite_held (s : Cache α) (bf : ℕ) : (bwrite s bf).held = s.held ∧ (bwrite s bf).buffer_ptr = s.buffer_ptr := by
  unfold bwrite
  split_ifs <;> exact ⟨rfl, rfl⟩

theorem Sane.bwrite (H : Sane s content) (hb : bf < s.buffer_ptr) : Sane (bwrite s bf) content := by
  unfold Lone.bwrite
  split_ifs with hd
  · have hw := H.write hb hd
    have hsaved : (deviceRequest s bf .write).Saved bf := fun _ => update_self ..
    refine hw.setBuf ⟨rfl, rfl, rfl, rfl⟩ ?_
    exact hw.mirrors.update hw.keyed (Or.inl ⟨hb, hsaved, rfl⟩) (store_setBuf ..) rfl nofun
      fun hv => hw.mirrors.content bf hb hv
  · exact H

/-- A buffer that is written is not dirty, and the others stay. -/
theorem Kept.bwrite (hk : Kept s) (bf : ℕ) : Kept (bwrite s bf) := by
  obtain ⟨hheld, hptr⟩ := bwrite_held s bf
  constructor
  · intro b hb hd
    rw [bwrite_buf] at hd
    rw [hheld]
    by_cases hbf : b = bf
    · rw [if_pos hbf] at hd
      cases hd
    · rw [if_neg hbf] at hd
      exact hk.dirty b (hptr ▸ hb) hd
  · intro b hb
    rw [bwrite_buf]
    exact hk.vaild b (hheld ▸ hb)

theorem write_dirty (s : Cache α) (bf : ℕ) : (if (s.buf bf).b_dirty then bwrite s bf else s) = bwrite s bf := by
  unfold bwrite
  split_ifs <;> rfl

theorem modify_sane (H : Sane s content) (hk : Kept s) (hmem : bf ∈ s.held ()) (data : α) :
    Sane (modify s bf data) (update content (s.buf bf).key data) ∧ Kept (modify s bf data) := by
  have hb : bf < s.buffer_ptr := H.keyed.named bf ⟨(), Or.inr hmem⟩
  have hv := hk.vaild bf hmem
  constructor
  · refine H.setBuf ⟨rfl, rfl, rfl, rfl⟩ ?_
    exact (H.mirrors.modify () H.keyed hb hv (f := fun _ => data) rfl).of_content rfl
  · have hother : ∀ c ≠ bf, (modify s bf data).buf c = s.buf c := fun c hc => update_of_ne hc ..
    have hself : (modify s bf data).buf bf = { s.buf bf with b_data := data, b_dirty := true } := update_self ..
    constructor
    · intro b hb hd
      by_cases hbf : b = bf
      · exact hbf ▸ hmem
      · rw [hother b hbf] at hd
        exact hk.dirty b hb hd
    · intro b hb
      by_cases hbf : b = bf
      · rw [hbf, hself]
        exact hv
      · rw [hother b hbf]
        exact hk.vaild b hb

/-- `sync_dev` keeps all but the dirty flags. -/
theorem syncDev_sane (H : Sane s content) (hk : Kept s) : Sane (syncDev s) content ∧ Kept (syncDev s) := by
  have hbufs : ∀ l : List ℕ, ∀ s : Cache α, Sane s content → Kept s → (∀ b ∈ l, b < s.buffer_ptr) →
      Sane (syncBufs s l) content ∧ Kept (syncBufs s l) := by
    intro l
    induction l with
    | nil => exact fun s H hk _ => ⟨H, hk⟩
    | cons b l ih =>
      intro s H hk hl
      rw [syncBufs, write_dirty]
      refine ih _ (H.bwrite (hl b List.mem_cons_self)) (hk.bwrite b) fun c hc => ?_
      rw [(bwrite_held s b).2]
      exact hl c (List.mem_cons_of_mem _ hc)
  exact hbufs _ s H hk fun b hb => List.mem_range.1 hb

/-- A reference less. -/
theorem Sane.drop (H : Sane s content) (hmem : bf ∈ s.held ()) : Sane (drop s bf) content := by
  have hb : bf < s.buffer_ptr := H.keyed.named bf ⟨(), Or.inr hmem⟩
  have hcount := H.count bf hb
  have hle : (1 : BitVec 8) ≤ (s.buf bf).b_count := by
    rw [BitVec.le_def, hcount]
    exact List.count_pos_iff.2 hmem
  have hless : ((s.buf bf).b_count - 1).toNat = ((s.held ()).erase bf).count bf := by
    rw [List.count_erase_self, ← hcount]
    exact BitVec.toNat_sub_of_le hle
  exact H.recount hb hless fun c hc => List.count_erase_of_ne hc

theorem brelse_held (s : Cache α) (bf : ℕ) : (brelse s bf).held () = (s.held ()).erase bf := by
  unfold brelse
  dsimp only
  rw [write_dirty]
  split_ifs
  · rfl
  · rw [(bwrite_held (drop s bf) bf).1]
    rfl

theorem brelse_sane (H : Sane s content) (hk : Kept s) (hmem : bf ∈ s.held ()) :
    Sane (brelse s bf) content ∧ Kept (brelse s bf) := by
  have hb : bf < s.buffer_ptr := H.keyed.named bf ⟨(), Or.inr hmem⟩
  have H₁ := H.drop hmem
  have hother : ∀ c ≠ bf, (drop s bf).buf c = s.buf c := fun c hc => update_of_ne hc ..
  have hself : (drop s bf).buf bf = { s.buf bf with b_count := (s.buf bf).b_count - 1 } := update_self ..
  have hheld : (drop s bf).held () = (s.held ()).erase bf := rfl
  have hrun : brelse s bf = if ((drop s bf).buf bf).b_count ≠ 0 then drop s bf else bwrite (drop s bf) bf := by
    unfold brelse
    dsimp only
    rw [write_dirty]
  rw [hrun]
  have hptr : (drop s bf).buffer_ptr = s.buffer_ptr := rfl
  generalize drop s bf = s₁ at H₁ hother hself hheld hptr ⊢
  have hvaild : ∀ b ∈ s₁.held (), (s₁.buf b).b_vaild = true := by
    intro b hb
    rw [hheld] at hb
    by_cases hbf : b = bf
    · rw [hbf, hself]
      exact hk.vaild bf hmem
    · rw [hother b hbf]
      exact hk.vaild b (List.mem_of_mem_erase hb)
  have hdirty : ∀ b < s₁.buffer_ptr, (s₁.buf b).b_dirty = true → b ≠ bf → b ∈ s₁.held () := by
    intro b hb hd hbf
    rw [hother b hbf] at hd
    rw [hheld]
    exact (List.mem_erase_of_ne hbf).2 (hk.dirty b (hptr ▸ hb) hd)
  by_cases hcount : (s₁.buf bf).b_count ≠ 0
  · rw [if_pos hcount]
    refine ⟨H₁, ⟨fun b hb' hd => ?_, hvaild⟩⟩
    by_cases hbf : b = bf
    · subst hbf
      by_contra hnot
      exact hcount ((H₁.count_zero hb').2 hnot)
    · exact hdirty b hb' hd hbf
  · rw [if_neg hcount]
    obtain ⟨hheld', hptr'⟩ := bwrite_held s₁ bf
    refine ⟨H₁.bwrite (hptr.symm ▸ hb), ⟨fun b hb' hd => ?_, fun b hb' => ?_⟩⟩
    · rw [bwrite_buf] at hd
      rw [hheld']
      by_cases hbf : b = bf
      · rw [if_pos hbf] at hd
        cases hd
      · rw [if_neg hbf] at hd
        exact hdirty b (hptr' ▸ hb') hd hbf
    · rw [bwrite_buf]
      exact hvaild b (hheld' ▸ hb')

end Calls

/-! ## Whole runs -/

section Runs
variable {α : Type} {p q : Cache α × (Key → α)} {a : Op α}

theorem init_sane (h : (cacheSys α).init p) : Sane p.1 p.2 ∧ Kept p.1 := by
  obtain ⟨hinit, hcontent⟩ := h
  have hkeyed := keyed_reach (.init hinit)
  obtain ⟨hptr, -, -, -, -, hpc, -, hheld⟩ := hinit
  have hnone : ∀ b, ¬ b < p.1.buffer_ptr := fun b hb => Nat.not_lt_zero b (hptr ▸ hb)
  refine ⟨⟨hkeyed, hpc (), ⟨fun b hb => absurd hb (hnone b), fun key _ => ?_, fun b hb => absurd hb (hnone b)⟩,
    fun b hb => absurd hb (hnone b), fun b hb => absurd hb (hnone b)⟩,
    ⟨fun b hb => absurd hb (hnone b), fun b hb => ?_⟩⟩
  · rw [hcontent]
  · rw [hheld] at hb
    cases hb

theorem step_sane (H : Sane p.1 p.2 ∧ Kept p.1) (hallowed : Allowed p a) (hs : (cacheSys α).step p a q) :
    Sane q.1 q.2 ∧ Kept q.1 := by
  obtain ⟨H, hk⟩ := H
  obtain ⟨s', content'⟩ := q
  cases a with
  | bread key =>
    obtain ⟨bf, hr, hcontent⟩ := hs
    obtain ⟨s₁, bf₁, hr₁, hsane, -⟩ := bread_spec H hk hallowed
    obtain ⟨rfl, -⟩ := Prod.mk.inj (hr.unique hr₁)
    obtain rfl : content' = p.2 := hcontent
    exact hsane
  | modify bf data =>
    obtain ⟨hmem, rfl, rfl⟩ := hs
    exact modify_sane H hk hmem data
  | brelse bf =>
    obtain ⟨hmem, rfl, rfl⟩ := hs
    exact brelse_sane H hk hmem
  | syncDev =>
    obtain ⟨rfl, rfl⟩ := hs
    exact syncDev_sane H hk

/-- **The cache is transparent for one task**: in every run in which no block has a 256th reference and
    not all buffers have one when a block is read, `bread` returns a buffer of the block with its last
    content, and the disk has the last contents when no reference is left. -/
theorem cache_transparent (hr : ((cacheSys α).restrict Allowed).Reach p) :
    (∀ key, Spares p.1 key → ∃ s bf, Returns (bread p.1 key) (s, bf) ∧ (s.buf bf).key = key ∧
      (s.buf bf).b_data = p.2 key) ∧ (p.1.held () = [] → p.1.disk = p.2) := by
  have hI : Sane p.1 p.2 ∧ Kept p.1 := by
    refine hr.invariant (I := fun p => Sane p.1 p.2 ∧ Kept p.1) (fun p hp => ?_) fun p a q hI hs => ?_
    · have hp : (cacheSys α).init p := hp
      exact init_sane hp
    · exact step_sane hI hs.1 hs.2
  obtain ⟨H, hk⟩ := hI
  refine ⟨fun key hs => ?_, fun hheld => ?_⟩
  · obtain ⟨s, bf, hret, -, hkey, hdata⟩ := bread_spec H hk hs
    exact ⟨s, bf, hret, hkey, hdata⟩
  · ext1 key
    refine H.mirrors.disk key fun b hb _ => ?_
    by_contra hd
    have hmem := hk.dirty b hb (Bool.not_eq_false _ ▸ hd)
    rw [hheld] at hmem
    cases hmem

end Runs

/-- A block is read, modified and released, and then it is read again. -/
theorem cache_transparent_again : ∃ p : Cache ℕ × (Key → ℕ), p.1.disk (5, 7) = 9 ∧
    ∃ s bf, Returns (bread p.1 (5, 7)) (s, bf) ∧ (s.buf bf).key = (5, 7) ∧ (s.buf bf).b_data = 9 := by
  have h₀ : ((cacheSys ℕ).restrict Allowed).Reach (loneCache, fun _ => 0) :=
    .init ⟨⟨rfl, rfl, fun _ => rfl, rfl, fun _ => rfl, fun _ => rfl, fun _ => rfl, fun _ => rfl⟩, rfl⟩
  have hspares : Spares loneCache (5, 7) := ⟨fun b hb => absurd hb (Nat.not_lt_zero b), by decide⟩
  obtain ⟨s₁, hr, hkey, hheld⟩ : ∃ s, Returns (bread loneCache (5, 7)) (s, 0) ∧ (s.buf 0).key = (5, 7) ∧
      s.held () = [0] :=
    ⟨_, (Returns.const rfl).turn rfl fun fuel => rfl, rfl, rfl⟩
  have hmem : 0 ∈ s₁.held () := by
    rw [hheld]
    exact List.mem_cons_self
  have h₁ : ((cacheSys ℕ).restrict Allowed).Reach (s₁, fun _ => 0) :=
    h₀.step (a := .bread (5, 7)) ⟨hspares, 0, hr, rfl⟩
  have h₂ : ((cacheSys ℕ).restrict Allowed).Reach (modify s₁ 0 9, update (fun _ => 0) (5, 7) 9) :=
    h₁.step (a := .modify 0 9) ⟨trivial, hmem, rfl, by rw [hkey]⟩
  have h₃ : ((cacheSys ℕ).restrict Allowed).Reach (brelse (modify s₁ 0 9) 0, update (fun _ => 0) (5, 7) 9) :=
    h₂.step (a := .brelse 0) ⟨trivial, hmem, rfl, rfl⟩
  have hnone : (brelse (modify s₁ 0 9) 0).held () = [] := by
    rw [brelse_held]
    show (s₁.held ()).erase 0 = []
    rw [hheld, List.erase_cons_head]
  have hspares' : Spares (brelse (modify s₁ 0 9) 0) (5, 7) := by
    unfold Spares
    rw [hnone]
    exact ⟨fun _ _ _ => Nat.zero_lt_succ _, by decide⟩
  obtain ⟨hread, hdisk⟩ := cache_transparent h₃
  refine ⟨_, ?_, hread (5, 7) hspares'⟩
  exact congrFun (hdisk hnone) (5, 7)

end Rdix.Lone
