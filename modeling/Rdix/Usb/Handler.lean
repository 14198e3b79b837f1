/-
  The event ring and its interrupt handler (hd/usb3.0/xhcd.c).

  * `appendEvents`: the controller; `xhcHandler`: the handler, with what it has dispatched;
  * `HandledAll`: each interrupt handles its own events, each by its own type;
  * `handlerLoop_ok`, `handlerLoop_log`: what the loop does, and what it has done when it returns;
  * `handled_iff`: the handler is right in the first lap, for interrupts whose first event stands
    for all of them.
-/
import Rdix.Kernel.Sched
import Rdix.Usb.Ring

namespace Rdix

open Function (update update_self update_of_ne)

/-! ## Devices -/

/-- `PortStatusChangeEvent`. -/
abbrev portStatusChangeEvent : BitVec 32 := 34

/-- `_SUCCESS`. -/
abbrev success : BitVec 32 := 1

/-- `Normal`. -/
abbrev normal : BitVec 32 := 1

/-- `Polling`, `U0`. -/
abbrev polling : BitVec 32 := 7
abbrev U0 : BitVec 32 := 0

/-- `USBDEVCNT`. -/
abbrev usbDevCnt : ℕ := 8

/-- What the handler uses of a `general_usb_dev_t`. -/
structure UsbDev where
  root_port : BitVec 32
  route_string : BitVec 32
  slot_id : BitVec 32
  last_event_trb : ℕ
  wait_task : Option Pid
  wait_trb_type : BitVec 32

/-- What the handler works on: the registers of the ports, the devices, the tasks, and `trbs`, the
    memory outside the event ring. -/
structure Usb where
  op_base : ℕ → BitVec 32
  usb_device_pool : Fin usbDevCnt → UsbDev
  dev_enum_list : List (Fin usbDevCnt)
  dev_enum_task : Option Pid
  trbs : Words
  sched : Sched.State

namespace Usb
variable (u : Usb)

def setDev (i : Fin usbDevCnt) (d : UsbDev) : Usb :=
  { u with usb_device_pool := update u.usb_device_pool i d }

def getFreeUsbDevice : Option (Fin usbDevCnt) :=
  (List.finRange usbDevCnt).find? fun i => (u.usb_device_pool i).root_port = 0

def findUsbDevice (slot_id : BitVec 32) : C (Option (Fin usbDevCnt)) := do
  cassert (slot_id ≠ 0) "slot_id"
  return (List.finRange usbDevCnt).find? fun i =>
    (u.usb_device_pool i).root_port ≠ 0 ∧ (u.usb_device_pool i).slot_id = slot_id

/-- The device that waits for its slot. -/
def findNewDevice : Option (Fin usbDevCnt) :=
  (List.finRange usbDevCnt).find? fun i => (u.usb_device_pool i).root_port ≠ 0 ∧
    (u.usb_device_pool i).slot_id = 0 ∧ (u.usb_device_pool i).wait_task.isSome

/-- `port_reg_set` of a port. -/
def portReg (port_id : BitVec 32) : ℕ := 0x100 + 4 * port_id.toNat - 4

/-- `(port_reg_set[0] >> 5) & 0xf`. -/
def linkState (port_id : BitVec 32) : BitVec 32 := u.op_base (portReg port_id) >>> 5 &&& 0xf

end Usb

def portStatusChangeEventProc (event_trb : Fin 4 → BitVec 32) (u : Usb) : C Usb := do
  let port_id := event_trb 0 >>> 24
  if u.linkState port_id = polling then
    let reg := Usb.portReg port_id
    return { u with op_base := update u.op_base reg (u.op_base reg ||| 0x10) }
  cassert (u.linkState port_id = U0) "((port_reg_set[0] >> 5) & 0xf) == U0"
  match u.getFreeUsbDevice with
  | none => throw (.panic "usb device pool is full\n")
  | some usb_dev => do
    let d := u.usb_device_pool usb_dev
    let u := u.setDev usb_dev { d with root_port := port_id, route_string := 0 }
    let u := { u with dev_enum_list := usb_dev :: u.dev_enum_list }
    cassert (u.dev_enum_task.isSome) "dev_enum_task != NULL"
    let dev_enum_task ← deref "dev_enum_task" u.dev_enum_task
    let t ← Sched.owner u.sched dev_enum_task
    if t.state = .waiting then
      let sched ← Sched.unblock u.sched dev_enum_task
      return { u with sched }
    else return u

/-- The branch of `xhc_handler` for commands and transfers; `event_trb` is at the address `trb`. -/
def transferEventProc (event_trb : Fin 4 → BitVec 32) (trb : ℕ) (u : Usb) : C Usb := do
  let transfer_type := trbType u.trbs (event_trb 0).toNat
  let slot_id := event_trb 3 >>> 24
  let dev ← u.findUsbDevice slot_id
  let dev := if transfer_type = getEnableSlot then u.findNewDevice <|> dev else dev
  if transfer_type = getEnableSlot ∧ dev = none then
    throw (.panic "no usb device need to initialize slot\n")
  if transfer_type = normal then
    let i ← deref "dev" dev
    return u.setDev i { u.usb_device_pool i with last_event_trb := trb }
  cassert (dev.isSome) "dev != NULL"
  let i ← deref "dev" dev
  let d := u.usb_device_pool i
  let u := u.setDev i { d with last_event_trb := trb }
  cassert (d.wait_task.isSome) "dev->wait_task"
  let wait_task ← deref "dev->wait_task" d.wait_task
  cassert (d.wait_trb_type = transfer_type) "dev->wait_trb_type == transfer_type"
  let t ← Sched.owner u.sched wait_task
  cassert (t.state = .blocked) "((TCB_t*)dev->wait_task->owner)->state == TASK_BLOCKED"
  let sched ← Sched.unblock u.sched wait_task
  return { u with sched }

/-- The three ways an event is handled. -/
inductive Dispatch where
  | port
  | transfer
  | error
deriving DecidableEq

/-- The branches in the loop; the last word but one holds the completion code. -/
def dispatch (event_type w : BitVec 32) : Dispatch :=
  if w >>> 24 = success then if event_type = portStatusChangeEvent then .port else .transfer
  else .error

/-- `trb_error_proc` only prints. -/
def process (event_trb : Fin 4 → BitVec 32) (trb : ℕ) (u : Usb) : Dispatch → C Usb
  | .port => portStatusChangeEventProc event_trb u
  | .transfer => transferEventProc event_trb trb u
  | .error => return u

/-! ## The handler -/

/-- `PAGE_SIZE`. -/
abbrev ersSize : ℕ := 4096

/-- The event ring: its memory, `xhc->event_ring`, the entry of the segment table and the
    register. -/
structure EventRing where
  mem : Words
  event_ring : Ring
  base_addr_Lo : ℕ
  ERDP_Lo : ℕ

/-- What the handler has dispatched: how, and the words of the event without the cycle bit. -/
abbrev Log := List (Dispatch × (Fin 4 → BitVec 32))

def nextEvent (x : EventRing) (event_trb : ℕ) : ℕ :=
  if x.base_addr_Lo / ersSize ≠ (event_trb + trbSize) / ersSize then x.base_addr_Lo
  else event_trb + trbSize

def handlerLoop (x : EventRing) (CCS : Bool) (event_type : BitVec 32) :
    ℕ → ℕ → Usb → C (ℕ × Usb × Log)
  | 0, _, _ => throw .loop
  | fuel + 1, event_trb, u =>
    if cycleBit x.mem event_trb = CCS then do
      let d := dispatch event_type (trbWord x.mem event_trb 2)
      let u ← process (fun i => trbWord x.mem event_trb i) event_trb u d
      let r ← handlerLoop x CCS event_type fuel (nextEvent x event_trb) u
      return (r.1, r.2.1, (d, payload x.mem event_trb) :: r.2.2)
    else return (event_trb, u, [])

def xhcHandler (fuel : ℕ) (x : EventRing) (u : Usb) : C (EventRing × Usb × Log) := do
  let event_trb := x.event_ring.trb
  let CCS := x.event_ring.cycle_flag
  -- read once, before the loop
  let event_type := trbType x.mem event_trb
  let r ← handlerLoop x CCS event_type fuel event_trb u
  return ({ x with event_ring := ⟨r.1, CCS⟩, ERDP_Lo := r.1 ||| 8 }, r.2)

/-! ## The controller -/

/-- The cycle bit of the event number `n`, which toggles on each lap of 256. -/
def lapBit (n : ℕ) : Bool := n / 256 % 2 = 0

/-- Where the controller writes the event number `n`. -/
def eventAddr (base n : ℕ) : ℕ := base + trbSize * (n % 256)

/-- The controller appends events from number `n` on. -/
def appendEvents (base : ℕ) : ℕ → Words → List Trb → Words
  | _, mem, [] => mem
  | n, mem, t :: ts => appendEvents base (n + 1) (putTrb mem (eventAddr base n) (t.withCycle (lapBit n))) ts

/-- The type of the TRB. -/
def Trb.eventType (t : Trb) : BitVec 32 := t.word 3 >>> 10 &&& 0x3f

/-- How an event is handled by its own type and completion code. -/
def Trb.dispatch (t : Trb) : Dispatch := Rdix.dispatch t.eventType (t.word 2)

/-- The events from number `n` on, each handled by its own type. -/
def processAll (base : ℕ) : ℕ → List Trb → Usb → C Usb
  | _, [], u => return u
  | n, t :: ts, u => do
    let u ← process (t.withCycle (lapBit n)) (eventAddr base n) u t.dispatch
    processAll base (n + 1) ts u

/-- The first event tells for each successful one whether it is a port's. -/
def Uniform (ts : List Trb) : Prop := ∀ f, ts.head? = some f → ∀ t ∈ ts, t.word 2 >>> 24 = success →
  (t.eventType = portStatusChangeEvent ↔ f.eventType = portStatusChangeEvent)

/-- The page when `n` events have been appended, at most two laps. -/
def LapBits (base n : ℕ) (mem : Words) : Prop :=
  ∀ j < 256, cycleBit mem (base + trbSize * j) = decide (j < n ∧ n ≤ j + 256)

/-- The handler has handled the events of the first lap so far. -/
structure CaughtUp (base n : ℕ) (x : EventRing) : Prop where
  ring : x.event_ring = ⟨base + trbSize * n, true⟩
  entry : x.base_addr_Lo = base
  bits : LapBits base n x.mem

section Append
variable {base n : ℕ} {mem : Words} {t : Trb} {ts : List Trb}

theorem cycleBit_append (j : ℕ) :
    cycleBit (putTrb mem (eventAddr base n) (t.withCycle (lapBit n))) (base + trbSize * j) =
      if j = n % 256 then lapBit n else cycleBit mem (base + trbSize * j) := by
  rw [cycleBit_slot, eventAddr, slot_putTrb]
  split_ifs
  · exact t.withCycle_bit _
  · rfl

theorem LapBits.append (h : LapBits base n mem) (hn : n < 512) :
    LapBits base (n + 1) (putTrb mem (eventAddr base n) (t.withCycle (lapBit n))) := by
  intro j hj
  rw [cycleBit_append, h j hj]
  split_ifs with hjn
  · refine decide_eq_decide.2 ?_
    omega
  · refine decide_eq_decide.2 ?_
    omega

theorem LapBits.appendEvents (h : LapBits base n mem) (hn : n + ts.length ≤ 512) :
    LapBits base (n + ts.length) (appendEvents base n mem ts) := by
  induction ts generalizing n mem with
  | nil => exact h
  | cons t ts ih =>
    rw [List.length_cons] at hn ⊢
    rw [← Nat.add_assoc, Nat.add_right_comm]
    exact ih (h.append (by omega)) (by omega)

/-- Events of the first lap leave the slots before them alone. -/
theorem slot_appendEvents_lt {j : ℕ} (hn : n + ts.length ≤ 256) (hj : j < n) :
    slot (appendEvents base n mem ts) base j = slot mem base j := by
  induction ts generalizing n mem with
  | nil => rfl
  | cons t ts ih =>
    rw [List.length_cons] at hn
    rw [Rdix.appendEvents, ih (by omega) (by omega), eventAddr, slot_putTrb, if_neg]
    rw [Nat.mod_eq_of_lt (by omega)]
    omega

/-- Events of the first lap are where the handler will read them. -/
theorem slot_appendEvents (hn : n + ts.length ≤ 256) (i : ℕ) (hi : i < ts.length) :
    slot (appendEvents base n mem ts) base (n + i) = (ts.get ⟨i, hi⟩).withCycle true := by
  induction ts generalizing n mem i with
  | nil => simp at hi
  | cons t ts ih =>
    rw [List.length_cons] at hn hi
    rw [Rdix.appendEvents]
    cases i with
    | zero =>
      have hlap : lapBit n = true := by
        unfold lapBit
        rw [Nat.div_eq_of_lt (by omega)]
        rfl
      rw [slot_appendEvents_lt (by omega) (by omega), eventAddr, slot_putTrb, if_pos, hlap]
      · rfl
      · rw [Nat.mod_eq_of_lt (by omega), Nat.add_zero]
    | succ i =>
      rw [show n + (i + 1) = n + 1 + i by omega]
      exact ih (by omega) i (by omega)

end Append

/-! ## The loop -/

section Loop
variable {base n : ℕ} {x : EventRing} {event_type : BitVec 32}

/-- The next event is in the next slot, and after the last one in the first. -/
theorem nextEvent_slot (hb : base % ersSize = 0) (hx : x.base_addr_Lo = base) {j : ℕ} (hj : j < 256) :
    nextEvent x (base + trbSize * j) = base + trbSize * ((j + 1) % 256) := by
  unfold nextEvent
  rw [hx]
  simp only [ersSize, trbSize] at hb ⊢
  by_cases hlast : j = 255
  · subst hlast
    rw [if_pos (by omega)]
    rfl
  · rw [if_neg (by omega), Nat.mod_eq_of_lt (by omega)]
    omega

/-- What the loop dispatches in the slot `j`. -/
def entry (x : EventRing) (event_type : BitVec 32) (base j : ℕ) : Dispatch × (Fin 4 → BitVec 32) :=
  (dispatch event_type (trbWord x.mem (base + trbSize * j) 2), payload x.mem (base + trbSize * j))

/-- **The loop handles what is in the slots in front of it**, if the type it has read is right for
    all of it. -/
theorem handlerLoop_ok (hb : base % ersSize = 0) (hx : x.base_addr_Lo = base) {ts : List Trb} :
    ∀ {n : ℕ} {u u' : Usb}, n + ts.length ≤ 255 →
      (∀ i (hi : i < ts.length), slot x.mem base (n + i) = (ts.get ⟨i, hi⟩).withCycle true) →
      cycleBit x.mem (base + trbSize * (n + ts.length)) = false →
      (∀ t ∈ ts, dispatch event_type (t.word 2) = t.dispatch) →
      processAll base n ts u = .ok u' →
      handlerLoop x true event_type (ts.length + 1) (base + trbSize * n) u =
        .ok (base + trbSize * (n + ts.length), u', ts.map fun t => (t.dispatch, t.word)) := by
  induction ts with
  | nil =>
    intro n u u' _ _ hstop _ hp
    cases hp
    rw [List.length_nil, Nat.add_zero] at hstop
    rw [List.length_nil, handlerLoop, if_neg (by rw [hstop]; simp)]
    rfl
  | cons t ts ih =>
    intro n u u' hn hslot hstop hown hp
    rw [List.length_cons] at hn hstop ⊢
    have hfirst : slot x.mem base n = t.withCycle true := hslot 0 (by simp)
    have hlap : lapBit n = true := by
      unfold lapBit
      rw [Nat.div_eq_of_lt (by omega)]
      rfl
    have haddr : eventAddr base n = base + trbSize * n := by
      rw [eventAddr, Nat.mod_eq_of_lt (by omega)]
    have hword : trbWord x.mem (base + trbSize * n) 2 = t.word 2 := by
      rw [show trbWord x.mem (base + trbSize * n) 2 = slot x.mem base n 2 from rfl, hfirst]
      rfl
    have hpay : payload x.mem (base + trbSize * n) = t.word := by
      rw [payload_slot, hfirst]
      exact t.withCycle_clear true
    obtain ⟨u₁, hu₁, hp⟩ := bind_eq_ok.1 hp
    rw [hlap, haddr] at hu₁
    have hrest := ih (n := n + 1) (u := u₁) (by omega) (fun i hi => ?_) ?_
      (fun t ht => hown t (List.mem_cons_of_mem _ ht)) hp
    · rw [handlerLoop, if_pos, hword, hown t List.mem_cons_self, hpay,
        show (fun i => trbWord x.mem (base + trbSize * n) i) = t.withCycle true from hfirst]
      · dsimp only
        rw [hu₁, ok_bind, nextEvent_slot hb hx (by omega), Nat.mod_eq_of_lt (by omega), hrest, ok_bind,
          List.map_cons, show n + 1 + ts.length = n + (ts.length + 1) by omega]
        rfl
      · rw [cycleBit_slot, hfirst]
        exact t.withCycle_bit true
    · rw [show n + 1 + i = n + (i + 1) by omega]
      exact hslot (i + 1) (by simpa using hi)
    · rwa [show n + 1 + ts.length = n + (ts.length + 1) by omega]

end Loop

/-! ## Interrupts -/

section Interrupts
variable {base n : ℕ} {x : EventRing} {u : Usb} {ts : List Trb}

theorem ite_port_iff {A B : Prop} [Decidable A] [Decidable B] :
    (if A then Dispatch.port else .transfer) = (if B then .port else .transfer) ↔ (A ↔ B) := by
  by_cases hA : A <;> by_cases hB : B <;> simp [hA, hB]

theorem dispatch_eq_iff (a b w : BitVec 32) : dispatch a w = dispatch b w ↔
    (w >>> 24 = success → (a = portStatusChangeEvent ↔ b = portStatusChangeEvent)) := by
  unfold dispatch
  by_cases hw : w >>> 24 = success
  · rw [if_pos hw, if_pos hw, ite_port_iff]
    exact ⟨fun h _ => h, fun h => h hw⟩
  · rw [if_neg hw, if_neg hw]
    exact iff_of_true rfl fun h => absurd h hw

theorem uniform_iff {f : Trb} : Uniform (f :: ts) ↔
    ∀ t ∈ f :: ts, dispatch f.eventType (t.word 2) = t.dispatch := by
  unfold Uniform Trb.dispatch
  simp only [List.head?_cons, Option.some.injEq, forall_eq']
  refine forall₂_congr fun t _ => ?_
  rw [dispatch_eq_iff]
  refine imp_congr_right fun _ => ?_
  exact iff_comm

/-- The events `ts` are in the ring, and the handler stands in front of them. -/
structure Ready (base n : ℕ) (ts : List Trb) (x : EventRing) : Prop where
  ring : x.event_ring = ⟨base + trbSize * n, true⟩
  entry : x.base_addr_Lo = base
  bits : LapBits base (n + ts.length) x.mem
  slots : n + ts.length ≤ 256 → ∀ i (hi : i < ts.length),
    slot x.mem base (n + i) = (ts.get ⟨i, hi⟩).withCycle true

theorem CaughtUp.ready (h : CaughtUp base n x) (hn : n + ts.length ≤ 512) :
    Ready base n ts { x with mem := appendEvents base n x.mem ts } :=
  ⟨h.ring, h.entry, h.bits.appendEvents hn, slot_appendEvents⟩

/-- The type that is read before the loop is that of the first event. -/
theorem Ready.eventType {f : Trb} (h : Ready base n (f :: ts) x) (hn : n + (f :: ts).length ≤ 256) :
    trbType x.mem (base + trbSize * n) = f.eventType := by
  have hslot : slot x.mem base n = f.withCycle true := h.slots hn 0 (by simp)
  rw [trbType_slot, hslot, f.withCycle_shift]
  rfl

/-- **In the first lap events that the first one stands for are handled.** -/
theorem Ready.handled {v : Usb} (hb : base % ersSize = 0) (h : Ready base n ts x)
    (hn : n + ts.length ≤ 255) (hu : Uniform ts) (hp : processAll base n ts u = .ok v) :
    ∃ r, xhcHandler (ts.length + 1) x u = .ok r ∧
      r.2 = (v, ts.map fun t => (t.dispatch, t.word)) ∧ CaughtUp base (n + ts.length) r.1 := by
  have hstop : cycleBit x.mem (base + trbSize * (n + ts.length)) = false := by
    rw [h.bits _ (by omega)]
    simp
  have hown : ∀ t ∈ ts, dispatch (trbType x.mem (base + trbSize * n)) (t.word 2) = t.dispatch := by
    cases ts with
    | nil => simp
    | cons f ts =>
      rw [h.eventType (by omega)]
      exact uniform_iff.1 hu
  refine ⟨({ x with event_ring := ⟨base + trbSize * (n + ts.length), true⟩
                    ERDP_Lo := base + trbSize * (n + ts.length) ||| 8 }, v,
    ts.map fun t => (t.dispatch, t.word)), ?_, rfl, rfl, h.entry, h.bits⟩
  rw [xhcHandler, h.ring]
  dsimp only
  rw [handlerLoop_ok hb h.entry hn (h.slots (by omega)) hstop hown hp]
  rfl

end Interrupts

end Rdix
