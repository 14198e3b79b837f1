/-
  The rings of TRBs (hd/usb3.0/ringProc.c, and what xhc_init sets up for them).

  * `nextTrb`, `enqueue`: the producer; `consume`: the controller, by the rule of xHCI;
  * `FirstLap`: what the page contains until the producer has come round once;
  * `cycle_ok_iff`: the cycle bits are right for the first lap, and for it only, since `~` of a
    `bool` is never 0.
-/
import Rdix.Kernel.Halt
import Rdix.Lib.Run

namespace Rdix

open Function (update update_self update_of_ne)
open Transition

/-- Memory by words: `mem a` is the word at the address `a`. -/
abbrev Words := ℕ → BitVec 32

/-- `TRB_SIZE`. -/
abbrev trbSize : ℕ := 16

/-- `LinkTRB`. -/
abbrev linkTRB : BitVec 32 := 6

/-- A TRB has four words. -/
instance wordNonempty : NeZero 4 := ⟨by decide⟩

/-- `trb[i]`. -/
abbrev trbWord (mem : Words) (trb : ℕ) (i : Fin 4) : BitVec 32 := mem (trb + 4 * i)

/-- `(trb[3] >> 10) & 0x3f`. -/
def trbType (mem : Words) (trb : ℕ) : BitVec 32 := trbWord mem trb 3 >>> 10 &&& 0x3f

/-- `trb[3] & 1`. -/
def cycleBit (mem : Words) (trb : ℕ) : Bool := (trbWord mem trb 3).getLsbD 0

/-- A `bool` in an integer expression. -/
def boolWord (b : Bool) : BitVec 32 := if b then 1 else 0

/-- `b = ~b` of a `bool`: the complement of the integer, and whether that is nonzero. -/
def boolCompl (b : Bool) : Bool := ~~~ boolWord b ≠ 0

/-- The complement of no `bool` is false. -/
theorem boolCompl_eq (b : Bool) : boolCompl b = true := by cases b <;> decide

/-- `struct ring_t`. -/
structure Ring where
  trb : ℕ
  cycle_flag : Bool
deriving DecidableEq

def nextTrb (mem : Words) (ring : Ring) : Words × Ring :=
  let PCS := ring.cycle_flag
  let trb := ring.trb + trbSize
  if trbType mem trb = linkTRB then
    let mem := update mem (trb + 4 * 3)
      (if PCS then mem (trb + 4 * 3) ||| 1 else mem (trb + 4 * 3) &&& ~~~ 1)
    let trb := (mem trb).toNat
    -- this reads the first TRB of the ring, not the toggle bit of the link
    let PCS := if (mem (trb + 4 * 3)).getLsbD 1 then boolCompl PCS else PCS
    (mem, ⟨trb, PCS⟩)
  else (mem, ⟨trb, PCS⟩)

/-- The words of a TRB without its cycle bit, as the `xhc_cmd` and `xhc_transfer` functions write
    it; only `xhc_init` writes a link. -/
structure Trb where
  word : Fin 4 → BitVec 32
  cycle : (word 3).getLsbD 0 = false
  type : word 3 >>> 10 &&& 0x3f ≠ linkTRB

/-- The words with the cycle bit `PCS`. -/
def Trb.withCycle (t : Trb) (PCS : Bool) : Fin 4 → BitVec 32 :=
  update t.word 3 (t.word 3 ||| boolWord PCS)

/-- The memory after the stores to the words of `trb`. -/
def putTrb (mem : Words) (trb : ℕ) (w : Fin 4 → BitVec 32) : Words :=
  update (update (update (update mem trb (w 0)) (trb + 4) (w 1)) (trb + 8) (w 2)) (trb + 12) (w 3)

/-- What each of these functions does with the ring: `memset` and the stores, then `next_trb`. -/
def enqueue (mem : Words) (ring : Ring) (t : Trb) : Words × Ring :=
  nextTrb (putTrb mem ring.trb (t.withCycle ring.cycle_flag)) ring

/-- `GetEnableSlot`. -/
abbrev getEnableSlot : BitVec 32 := 9

def enableSlot : Trb := ⟨![0, 0, 0, getEnableSlot <<< 10], by decide, by decide⟩

/-- The ring's part of `xhc_cmd_enable_slot`. -/
def xhcCmdEnableSlot (mem : Words) (cmd_ring : Ring) : Words × Ring := enqueue mem cmd_ring enableSlot

/-- The TRB at the end of the page. -/
def linkWords (base : ℕ) : Fin 4 → BitVec 32 := ![BitVec.ofNat 32 base, 0, 0, linkTRB <<< 10 ||| 2 ||| 1]

/-- The part of `xhc_init` that sets up the command ring in the page at `base`. -/
def cmdRingInit (mem : Words) (base : ℕ) : Words × Ring :=
  let mem := fun a => if base ≤ a ∧ a < base + 4096 then 0 else mem a
  (putTrb mem (base + 4096 - trbSize) (linkWords base), ⟨base, true⟩)

/-- The ring after the TRBs `ts`. -/
def enqueueAll (mem : Words) (base : ℕ) (ts : List Trb) : Words × Ring :=
  ts.foldl (fun r t => enqueue r.1 r.2 t) (cmdRingInit mem base)

/-! ## The controller -/

/-- The consumer: where it stands, and its cycle state. -/
structure Consumer where
  trb : ℕ
  ccs : Bool
deriving DecidableEq

/-- The words of the TRB at `trb` without its cycle bit. -/
def payload (mem : Words) (trb : ℕ) : Fin 4 → BitVec 32 :=
  update (fun i => trbWord mem trb i) 3 (trbWord mem trb 3 &&& ~~~ 1)

/-- The rule of xHCI: a TRB whose cycle bit is the consumer's state is consumed, and a link with
    the toggle bit toggles the state. -/
def consume (mem : Words) (c : Consumer) : Option (Consumer × Option (Fin 4 → BitVec 32)) :=
  if cycleBit mem c.trb = c.ccs then
    if trbType mem c.trb = linkTRB then
      some (⟨(mem c.trb).toNat, if (trbWord mem c.trb 3).getLsbD 1 then !c.ccs else c.ccs⟩, none)
    else some (⟨c.trb + trbSize, c.ccs⟩, some (payload mem c.trb))
  else none

/-- The ring with its two parties, what was enqueued and what was consumed. -/
structure RingState where
  mem : Words
  ring : Ring
  consumer : Consumer
  sent : List Trb
  seen : List (Fin 4 → BitVec 32)

inductive RingOp where
  | enqueue (t : Trb)
  | consume

inductive RingStep (s : RingState) : RingOp → RingState → Prop where
  /-- the producer does not overrun the consumer -/
  | enqueue (t : Trb) : s.sent.length < s.seen.length + 255 →
      RingStep s (.enqueue t) { s with mem := (Rdix.enqueue s.mem s.ring t).1
                                       ring := (Rdix.enqueue s.mem s.ring t).2
                                       sent := s.sent ++ [t] }
  | consume {c : Consumer} {w : Option (Fin 4 → BitVec 32)} :
      Rdix.consume s.mem s.consumer = some (c, w) →
      RingStep s .consume { s with consumer := c, seen := s.seen ++ w.toList }

/-- The ring in the page at `base`, from `xhc_init` on. -/
def ringSys (base : ℕ) : Sys RingState RingOp where
  init s := ∃ mem, s = ⟨(cmdRingInit mem base).1, (cmdRingInit mem base).2, ⟨base, true⟩, [], []⟩
  step := RingStep

/-! ## The page as slots -/

/-- The words of slot `j` of the page at `base`. -/
def slot (mem : Words) (base j : ℕ) : Fin 4 → BitVec 32 := fun i => trbWord mem (base + trbSize * j) i

section Slot
variable {mem : Words} {base j : ℕ}

theorem putTrb_apply (trb : ℕ) (w : Fin 4 → BitVec 32) (a : ℕ) :
    putTrb mem trb w a = if a = trb + 12 then w 3 else if a = trb + 8 then w 2 else
      if a = trb + 4 then w 1 else if a = trb then w 0 else mem a := by
  simp only [putTrb, Function.update_apply]

/-- The stores of a TRB fill its slot and no other. -/
theorem slot_putTrb (w : Fin 4 → BitVec 32) (k : ℕ) :
    slot (putTrb mem (base + trbSize * j) w) base k = if k = j then w else slot mem base k := by
  funext i
  have hi := i.isLt
  show putTrb mem _ w _ = _
  rw [putTrb_apply]
  simp only [trbSize]
  by_cases hk : k = j
  · subst hk
    rw [if_pos rfl]
    fin_cases i <;> simp
  · rw [if_neg hk, if_neg (by omega), if_neg (by omega), if_neg (by omega), if_neg (by omega)]
    rfl

theorem trbType_slot : trbType mem (base + trbSize * j) = slot mem base j 3 >>> 10 &&& 0x3f := rfl

theorem cycleBit_slot : cycleBit mem (base + trbSize * j) = (slot mem base j 3).getLsbD 0 := rfl

theorem payload_slot : payload mem (base + trbSize * j) =
    update (slot mem base j) 3 (slot mem base j 3 &&& ~~~ 1) := rfl

end Slot

section Words
variable (t : Trb)

theorem Trb.withCycle_bit (PCS : Bool) : (t.withCycle PCS 3).getLsbD 0 = PCS := by
  rw [Trb.withCycle, update_self, BitVec.getLsbD_or, t.cycle]
  cases PCS <;> decide

/-- The controller sees what was enqueued. -/
theorem Trb.withCycle_clear (PCS : Bool) :
    update (t.withCycle PCS) 3 (t.withCycle PCS 3 &&& ~~~ 1) = t.word := by
  rw [Trb.withCycle, Function.update_idem, update_self]
  refine Function.update_eq_iff.2 ⟨?_, fun _ _ => rfl⟩
  refine BitVec.eq_of_getLsbD_eq fun i hi => ?_
  have hw : (boolWord PCS).getLsbD i = (decide (i = 0) && PCS) := by
    cases PCS <;> simp [boolWord]
  have h1 : (1 : BitVec 32).getLsbD i = decide (i = 0) := by simp
  rw [BitVec.getLsbD_and, BitVec.getLsbD_not, BitVec.getLsbD_or, hw, h1]
  by_cases h0 : i = 0
  · subst h0
    rw [t.cycle]
    cases PCS <;> rfl
  · simp [h0, hi]

/-- The cycle bit is not part of the type. -/
theorem Trb.withCycle_shift (PCS : Bool) : t.withCycle PCS 3 >>> 10 = t.word 3 >>> 10 := by
  rw [Trb.withCycle, update_self, BitVec.ushiftRight_or_distrib,
    show boolWord PCS >>> 10 = 0 by cases PCS <;> decide]
  simp

theorem Trb.withCycle_type (PCS : Bool) : t.withCycle PCS 3 >>> 10 &&& 0x3f ≠ linkTRB := by
  rw [t.withCycle_shift]
  exact t.type

theorem linkWords_type (base : ℕ) : linkWords base 3 >>> 10 &&& 0x3f = linkTRB := by
  show (linkTRB <<< 10 ||| 2 ||| 1) >>> 10 &&& 0x3f = linkTRB
  decide

/-- The link's cycle bit is set from the start, and stays set in the first lap. -/
theorem linkWords_cycle (base : ℕ) : linkWords base 3 ||| 1 = linkWords base 3 := by
  show linkTRB <<< 10 ||| 2 ||| 1 ||| 1 = linkTRB <<< 10 ||| 2 ||| 1
  decide

end Words

/-! ## The first lap -/

/-- The page while the producer goes round for the first time. -/
structure FirstLap (base : ℕ) (mem : Words) (ring : Ring) (ts : List Trb) : Prop where
  full : ts.length ≤ 255
  filled : ∀ j (h : j < ts.length), slot mem base j = (ts.get ⟨j, h⟩).withCycle true
  empty : ∀ j, ts.length ≤ j → j < 255 → slot mem base j = fun _ => 0
  link : slot mem base 255 = linkWords base
  ring : ring = ⟨base + trbSize * (ts.length % 255), true⟩

section FirstLap
variable {base : ℕ} {mem : Words} {ring : Ring} {ts : List Trb}

theorem FirstLap.start (mem : Words) (base : ℕ) :
    FirstLap base (cmdRingInit mem base).1 (cmdRingInit mem base).2 [] := by
  have hpage : base + 4096 - trbSize = base + trbSize * 255 := by
    simp only [trbSize]
    omega
  have hslot (j : ℕ) : slot (cmdRingInit mem base).1 base j =
      if j = 255 then linkWords base else
        slot (fun a => if base ≤ a ∧ a < base + 4096 then 0 else mem a) base j := by
    rw [cmdRingInit, hpage]
    exact slot_putTrb _ _
  refine ⟨by simp, fun j h => by simp at h, fun j _ hj => ?_, ?_, rfl⟩
  · rw [hslot, if_neg (by omega)]
    funext i
    have hi := i.isLt
    show (if _ then _ else _) = _
    rw [if_pos]
    simp only [trbSize]
    omega
  · rw [hslot, if_pos rfl]

theorem nextTrb_plain {trb : ℕ} {PCS : Bool} (h : trbType mem (trb + trbSize) ≠ linkTRB) :
    nextTrb mem ⟨trb, PCS⟩ = (mem, ⟨trb + trbSize, PCS⟩) := by
  rw [nextTrb, if_neg h]

/-- At the link the flag is not changed: it was 1, and its complement is no 0. -/
theorem nextTrb_link (hb : base + 4096 ≤ 2 ^ 32) (hl : slot mem base 255 = linkWords base) :
    nextTrb mem ⟨base + trbSize * 254, true⟩ = (mem, ⟨base, true⟩) := by
  have hpos : base + trbSize * 254 + trbSize = base + trbSize * 255 := by
    simp only [trbSize]
  have h0 : mem (base + trbSize * 255) = BitVec.ofNat 32 base := congrFun hl 0
  have h3 : mem (base + trbSize * 255 + 4 * 3) = linkWords base 3 := congrFun hl 3
  have htype : trbType mem (base + trbSize * 255) = linkTRB := by
    rw [trbType_slot, hl]
    exact linkWords_type base
  have hsame : update mem (base + trbSize * 255 + 4 * 3) (mem (base + trbSize * 255 + 4 * 3) ||| 1) =
      mem := by
    rw [h3, linkWords_cycle, ← h3, Function.update_eq_self]
  simp only [nextTrb, hpos, if_pos htype, if_true, hsame, h0, boolCompl_eq, ite_self,
    BitVec.toNat_ofNat, Nat.mod_eq_of_lt (show base < 2 ^ 32 by omega)]

/-- **In the first lap the producer fills slot after slot, and then stands at the first again.** -/
theorem FirstLap.enqueue (hb : base + 4096 ≤ 2 ^ 32) (h : FirstLap base mem ring ts)
    (hn : ts.length < 255) (t : Trb) :
    FirstLap base (Rdix.enqueue mem ring t).1 (Rdix.enqueue mem ring t).2 (ts ++ [t]) := by
  obtain ⟨-, hfill, hempty, hlink, rfl⟩ := h
  set n := ts.length with hn'
  have hmod : n % 255 = n := Nat.mod_eq_of_lt hn
  have hslot (j : ℕ) : slot (putTrb mem (base + trbSize * n) (t.withCycle true)) base j =
      if j = n then t.withCycle true else slot mem base j := slot_putTrb _ _
  have hnext : base + trbSize * n + trbSize = base + trbSize * (n + 1) := by
    simp only [trbSize]
    omega
  -- the memory after the stores, which `next_trb` leaves as it is
  have hpage : FirstLap base (putTrb mem (base + trbSize * n) (t.withCycle true))
      ⟨base + trbSize * ((ts ++ [t]).length % 255), true⟩ (ts ++ [t]) := by
    refine ⟨by simp; omega, fun j hj => ?_, fun j h1 h2 => ?_, ?_, rfl⟩
    · rw [hslot]
      rw [List.length_append, List.length_singleton] at hj
      by_cases hjn : j = n
      · subst hjn
        rw [if_pos rfl]
        simp [hn']
      · rw [if_neg hjn, hfill j (by omega)]
        simp [List.getElem_append_left (show j < ts.length by omega)]
    · rw [List.length_append, List.length_singleton] at h1
      rw [hslot, if_neg (by omega), hempty j (by omega) h2]
    · rw [hslot, if_neg (by omega), hlink]
  rw [Rdix.enqueue, hmod]
  dsimp only
  rw [List.length_append, List.length_singleton] at hpage
  by_cases hlast : n + 1 = 255
  · obtain h254 : n = 254 := by omega
    rw [← hn', h254] at hpage
    rw [h254, nextTrb_link hb hpage.link]
    exact hpage
  · have htype : trbType (putTrb mem (base + trbSize * n) (t.withCycle true))
        (base + trbSize * n + trbSize) ≠ linkTRB := by
      have hzero := hpage.empty (n + 1) (by simp [hn']) (by omega)
      rw [hnext, trbType_slot, hzero]
      decide
    rw [nextTrb_plain htype, hnext]
    rwa [Nat.mod_eq_of_lt (show n + 1 < 255 by omega)] at hpage

/-- The page after at most 255 TRBs. -/
theorem firstLap_enqueueAll (hb : base + 4096 ≤ 2 ^ 32) (mem : Words) (ts : List Trb) :
    ts.length ≤ 255 →
      FirstLap base (enqueueAll mem base ts).1 (enqueueAll mem base ts).2 ts := by
  induction ts using List.reverseRecOn with
  | nil => exact fun _ => .start mem base
  | append_singleton ts t ih =>
    intro hn
    rw [List.length_append, List.length_singleton] at hn
    rw [enqueueAll, List.foldl_append]
    exact (ih (by omega)).enqueue hb (by omega) t

end FirstLap

/-! ## What the laps should be -/

/-- The TRBs `ts` are enqueued, and consumed, lap by lap. -/
structure CycleOk (base : ℕ) (mem : Words) (ts : List Trb) : Prop where
  /-- the `k`-th TRB is written at slot `k mod 255`, with cycle bit 1 iff `k / 255` is even -/
  written : ∀ k (h : k < ts.length),
    (enqueueAll mem base (ts.take k)).2.trb = base + trbSize * (k % 255) ∧
    slot (enqueueAll mem base (ts.take (k + 1))).1 base (k % 255) =
      (ts.get ⟨k, h⟩).withCycle (k / 255 % 2 = 0)
  /-- the link has the cycle bit of the lap it ends -/
  link : ∀ lap, 255 * (lap + 1) ≤ ts.length →
    cycleBit (enqueueAll mem base (ts.take (255 * (lap + 1)))).1 (base + trbSize * 255) =
      decide (lap % 2 = 0)
  /-- whenever they have been enqueued, the controller has consumed the first of them, and all of
      them if it finds nothing more to consume -/
  consumed : ∀ s, (ringSys base).Reach s → s.sent = ts →
    s.seen <+: ts.map Trb.word ∧ (consume s.mem s.consumer = none → s.seen = ts.map Trb.word)

/-- The controller in the first lap. -/
structure ConsumerInv (base : ℕ) (s : RingState) : Prop where
  page : FirstLap base s.mem s.ring s.sent
  seen : s.seen = (s.sent.map Trb.word).take s.seen.length
  stands : s.consumer = ⟨base + trbSize * s.seen.length, true⟩ ∨
    s.seen.length = 255 ∧ s.consumer = ⟨base, false⟩

section Consumer
variable {base : ℕ} {mem : Words} {s : RingState}

theorem ConsumerInv.seen_le (h : ConsumerInv base s) : s.seen.length ≤ s.sent.length := by
  have hl := congrArg List.length h.seen
  rw [List.length_take, List.length_map] at hl
  omega

/-- A TRB that has been enqueued is consumed. -/
theorem FirstLap.consume_filled {ring : Ring} {ts : List Trb} (h : FirstLap base mem ring ts) {j : ℕ}
    (hj : j < ts.length) : consume mem ⟨base + trbSize * j, true⟩ =
      some (⟨base + trbSize * (j + 1), true⟩, some (ts.get ⟨j, hj⟩).word) := by
  have hslot := h.filled j hj
  have hbit : cycleBit mem (base + trbSize * j) = true := by
    rw [cycleBit_slot, hslot, Trb.withCycle_bit]
  have htype : trbType mem (base + trbSize * j) ≠ linkTRB := by
    rw [trbType_slot, hslot]
    exact Trb.withCycle_type _ _
  have hnext : base + trbSize * j + trbSize = base + trbSize * (j + 1) := by
    simp only [trbSize]
    omega
  rw [consume, if_pos hbit, if_neg htype, hnext, payload_slot, hslot, Trb.withCycle_clear]

/-- Where nothing has been enqueued there is nothing to consume. -/
theorem FirstLap.consume_empty {ring : Ring} {ts : List Trb} (h : FirstLap base mem ring ts) {j : ℕ}
    (hj : ts.length ≤ j) (hj' : j < 255) : consume mem ⟨base + trbSize * j, true⟩ = none := by
  have hbit : cycleBit mem (base + trbSize * j) = false := by
    rw [cycleBit_slot, h.empty j hj hj']
    decide
  rw [consume, hbit, if_neg Bool.false_ne_true]

theorem FirstLap.cycleBit_link {ring : Ring} {ts : List Trb} (h : FirstLap base mem ring ts) :
    cycleBit mem (base + trbSize * 255) = true := by
  rw [cycleBit_slot, h.link]
  show (linkTRB <<< 10 ||| 2 ||| 1).getLsbD 0 = true
  decide

/-- The link leads the controller back to the first slot, with its state toggled. -/
theorem FirstLap.consume_link {ring : Ring} {ts : List Trb} (h : FirstLap base mem ring ts)
    (hb : base + 4096 ≤ 2 ^ 32) :
    consume mem ⟨base + trbSize * 255, true⟩ = some (⟨base, false⟩, none) := by
  have h0 : mem (base + trbSize * 255) = BitVec.ofNat 32 base := congrFun h.link 0
  have h3 : (trbWord mem (base + trbSize * 255) 3).getLsbD 1 = true := by
    show (slot mem base 255 3).getLsbD 1 = true
    rw [h.link]
    show (linkTRB <<< 10 ||| 2 ||| 1).getLsbD 1 = true
    decide
  have htype : trbType mem (base + trbSize * 255) = linkTRB := by
    rw [trbType_slot, h.link]
    exact linkWords_type base
  simp only [consume, if_pos h.cycleBit_link, if_pos htype, h0, if_pos h3, BitVec.toNat_ofNat,
    Nat.mod_eq_of_lt (show base < 2 ^ 32 by omega), Bool.not_true]

/-- After the first lap the controller waits for a cycle bit 0. -/
theorem FirstLap.consume_wrapped {ring : Ring} {ts : List Trb} (h : FirstLap base mem ring ts)
    (hn : 0 < ts.length) : consume mem ⟨base, false⟩ = none := by
  have hbit : cycleBit mem base = true := by
    have hslot := h.filled 0 hn
    show (slot mem base 0 3).getLsbD 0 = true
    rw [hslot, Trb.withCycle_bit]
  rw [consume, hbit, if_neg (Ne.symm Bool.false_ne_true)]

/-- What the controller finds: all has been consumed, or it takes a step of the right kind. -/
theorem ConsumerInv.consume (h : ConsumerInv base s) (hb : base + 4096 ≤ 2 ^ 32) :
    consume s.mem s.consumer = none ∧ s.seen.length = s.sent.length ∨
    ∃ c w, consume s.mem s.consumer = some (c, w) ∧
      ConsumerInv base { s with consumer := c, seen := s.seen ++ w.toList } := by
  have hle := h.seen_le
  have hfull := h.page.full
  obtain ⟨hpage, hseen, hc | ⟨h255, hc⟩⟩ := h
  · rw [hc]
    rcases Nat.lt_or_ge s.seen.length s.sent.length with hlt | hge
    · refine Or.inr ⟨_, _, hpage.consume_filled hlt, hpage, ?_, Or.inl ?_⟩
      · rw [Option.toList_some, List.length_append, List.length_singleton, List.take_add_one,
          ← hseen]
        rw [List.getElem?_eq_getElem (by simpa using hlt)]
        simp
      · simp
    · rcases Nat.lt_or_ge s.seen.length 255 with hlt | hge'
      · exact Or.inl ⟨hpage.consume_empty hge hlt, by omega⟩
      · obtain h255 : s.seen.length = 255 := by omega
        rw [h255]
        refine Or.inr ⟨_, _, hpage.consume_link hb, hpage, ?_, Or.inr ⟨?_, rfl⟩⟩
        · simpa using hseen
        · simpa using h255
  · rw [hc]
    exact Or.inl ⟨hpage.consume_wrapped (by omega), by omega⟩

/-- **In the first lap the controller keeps up with the producer.** -/
theorem consumerInv_reach (hb : base + 4096 ≤ 2 ^ 32) (hs : (ringSys base).Reach s) :
    s.sent.length ≤ 255 → ConsumerInv base s := by
  induction hs with
  | init hi =>
    obtain ⟨mem, rfl⟩ := hi
    exact fun _ => ⟨.start mem base, by simp, Or.inl (by simp)⟩
  | step _ hst ih =>
    cases hst with
    | enqueue t _ =>
      intro hn
      rw [List.length_append, List.length_singleton] at hn
      have h := ih (by omega)
      refine ⟨h.page.enqueue hb (by omega) t, ?_, h.stands⟩
      have hle := h.seen_le
      rw [List.map_append, List.take_append_of_le_length (by rw [List.length_map]; exact hle)]
      exact h.seen
    | consume hc =>
      intro hn
      rcases (ih hn).consume hb with ⟨hnone, -⟩ | ⟨c, w, hsome, h⟩
      · rw [hnone] at hc
        cases hc
      · rw [hsome] at hc
        cases hc
        exact h

end Consumer

section CycleOk
variable {base : ℕ} {mem : Words} {ts : List Trb}

theorem enqueueAll_take_succ {k : ℕ} (h : k < ts.length) :
    enqueueAll mem base (ts.take (k + 1)) =
      enqueue (enqueueAll mem base (ts.take k)).1 (enqueueAll mem base (ts.take k)).2
        (ts.get ⟨k, h⟩) := by
  rw [← List.take_append_getElem h, enqueueAll, List.foldl_append]
  rfl

/-- The first TRB of the second lap is written with the cycle bit of the first. -/
theorem not_cycleOk (hb : base + 4096 ≤ 2 ^ 32) (hn : 255 < ts.length) : ¬ CycleOk base mem ts := by
  intro h
  have hlen : (ts.take 255).length = 255 := List.length_take_of_le (by omega)
  have hlap := firstLap_enqueueAll hb mem (ts.take 255) hlen.le
  have hring : (enqueueAll mem base (ts.take 255)).2 = ⟨base, true⟩ := by
    rw [hlap.ring, hlen]
    rfl
  set t := ts.get ⟨255, hn⟩ with ht
  have hslot (j : ℕ) : slot (putTrb (enqueueAll mem base (ts.take 255)).1 base (t.withCycle true))
      base j = if j = 0 then t.withCycle true else slot (enqueueAll mem base (ts.take 255)).1 base j :=
    slot_putTrb (j := 0) _ _
  have htype : trbType (putTrb (enqueueAll mem base (ts.take 255)).1 base (t.withCycle true))
      (base + trbSize) ≠ linkTRB := by
    have h1 := (hslot 1).trans ((if_neg one_ne_zero).trans (hlap.filled 1 (by omega)))
    rw [show base + trbSize = base + trbSize * 1 from rfl, trbType_slot, h1]
    exact Trb.withCycle_type _ _
  have hw := (h.written 255 hn).2
  rw [enqueueAll_take_succ hn, hring, enqueue, nextTrb_plain htype] at hw
  have hw0 := congrFun ((hslot 0).symm.trans hw) 3
  rw [if_pos rfl] at hw0
  have hbit := congrArg (BitVec.getLsbD · 0) hw0
  simp only [Trb.withCycle_bit] at hbit
  exact absurd hbit (by decide)

theorem cycleOk_of_le (hb : base + 4096 ≤ 2 ^ 32) (hn : ts.length ≤ 255) : CycleOk base mem ts := by
  have hlap (k : ℕ) : FirstLap base (enqueueAll mem base (ts.take k)).1
      (enqueueAll mem base (ts.take k)).2 (ts.take k) :=
    firstLap_enqueueAll hb mem _ ((List.length_take_le' k ts).trans hn)
  refine ⟨fun k hk => ⟨?_, ?_⟩, fun lap hl => ?_, fun s hs hsent => ?_⟩
  · rw [(hlap k).ring, List.length_take_of_le hk.le]
  · have hmod : k % 255 = k := Nat.mod_eq_of_lt (by omega)
    have hk' : k < (ts.take (k + 1)).length := by
      rw [List.length_take_of_le hk]
      exact k.lt_succ_self
    rw [hmod, (hlap (k + 1)).filled k hk', Nat.div_eq_of_lt (show k < 255 by omega)]
    simp
  · obtain rfl : lap = 0 := by omega
    exact (hlap _).cycleBit_link
  · subst hsent
    have h := consumerInv_reach hb hs hn
    refine ⟨?_, fun hnone => ?_⟩
    · rw [h.seen]
      exact List.take_prefix _ _
    · rcases h.consume hb with ⟨-, hlen⟩ | ⟨c, w, hsome, -⟩
      · rw [h.seen, hlen]
        exact List.take_of_length_le (by simp)
      · rw [hnone] at hsome
        cases hsome

/-- **The cycle bits are right in the first lap, and in no other.** -/
theorem cycle_ok_iff (hb : base + 4096 ≤ 2 ^ 32) (mem : Words) (ts : List Trb) :
    CycleOk base mem ts ↔ ts.length ≤ 255 := by
  constructor
  · intro h
    by_contra hn
    exact not_cycleOk hb (by omega) h
  · exact cycleOk_of_le hb

end CycleOk

/-- Three commands. -/
theorem cycle_ok_iff_three :
    CycleOk 0x102000 (fun _ => 0) (List.replicate 3 enableSlot) :=
  (cycle_ok_iff (by decide) _ _).2 (by decide)

/-- **256 commands**: the last of them has the cycle bit of the first lap, in the second. -/
theorem cycle_not_ok : ¬ CycleOk 0x102000 (fun _ => 0) (List.replicate 256 enableSlot) :=
  not_cycleOk (by decide) (by rw [List.length_replicate]; decide)

end Rdix
