/-
  The table of devices (kernel/device.c).

  A device is its number, the slot it has been installed in.  A partition is a device on a disk: what
  is read from it is read from the disk, behind its start.

  * `deviceInstall`, `deviceFind`, `deviceGet`: the table;
  * `deviceIo`: `device_read` and `device_write`, down to the driver that is called;
  * `deviceRequest`: a request up to its place in the queue of the disk;
  * `Holds`: the table holds a list of devices, which only grows.
-/
import Rdix.Kernel.Device
import Rdix.Kernel.Vsprintf
import Rdix.Lib.Slots

namespace Rdix.Dev

open Function Vsprintf

/-! ## Devices -/

/-- `DEVICE_NR`. -/
abbrev deviceNr : ℕ := 64

scoped instance : NeZero deviceNr := ⟨by decide⟩

/-- `NAMELEN`. -/
abbrev nameLen : ℕ := 16

/-- `device_type_t`. -/
inductive DevType where
  | null
  | char
  | block
deriving DecidableEq

/-- `device_subtype_t`, and `DEV_NULL`. -/
inductive DevSubtype where
  | null
  | console
  | keyboard
  | sataDisk
  | diskPart
deriving DecidableEq

/-- `device_cmd_t`. -/
inductive DevCmd where
  | sectorStart
  | sectorCount
  | errorReport
deriving DecidableEq

/-- The fields of `hba_dev_t` that a transfer reads; `lba48` is the bit of `flags`. -/
structure HbaDev where
  port_num : ℕ
  max_lba : BitVec 64
  lba48 : Bool
deriving DecidableEq

/-- `part_t`; the disk is its slot. -/
structure Part where
  name : List (BitVec 8)
  disk : Fin deviceNr
  system : BitVec 32
  start : BitVec 32
  count : BitVec 32
deriving DecidableEq

/-- What `ptr` of a device points to. -/
inductive DevPtr where
  | null
  | disk (dev : HbaDev)
  | part (part : Part)
deriving DecidableEq

/-- The functions that `ioctl`, `read` and `write` point to; `wild` is an address of data. -/
inductive Driver where
  | console
  | keyboard
  | sata
  | part
  | wild
deriving DecidableEq

/-- What a request carries besides its sector and its task. -/
structure Payload (β : Type) where
  dev : ℤ
  count : BitVec 32
  flags : BitVec 32
  data : β
deriving DecidableEq

/-- `device_t`, for tasks `T` and buffers `β`; `queue` is `request_list` with the fields that go with
    it. -/
structure DeviceT (T β : Type) where
  name : List (BitVec 8)
  type : DevType
  subtype : DevSubtype
  dev : ℤ
  parent : ℤ
  ptr : DevPtr
  queue : Option (Device T (Payload β))
  ioctl : Option Driver
  read : Option Driver
  write : Option Driver

/-- `devices`. -/
abbrev Table (T β : Type) : Type := Fin deviceNr → DeviceT T β

variable {T β : Type}

/-- A slot after `device_init`.  The list that is initialized there lies over the three pointers to
    functions, which then are not null. -/
def nullDevice (i : Fin deviceNr) : DeviceT T β where
  name := "null".toList.map chr
  type := .null
  subtype := .null
  dev := i
  parent := 0
  ptr := .null
  queue := none
  ioctl := some .wild
  read := some .wild
  write := some .wild

def deviceInit : Table T β := nullDevice

/-- `get_null_device`. -/
def getNullDevice (t : Table T β) : C (Fin deviceNr) :=
  match Slots.firstFree (fun d : DeviceT T β => d.type = .null) t with
  | some i => return i
  | none => throw (.panic "could not install more device\n")

/-- `new_list`, and the fields beside it. -/
def newQueue : Device T (Payload β) := ⟨false, .fore, []⟩

/-- The slot that is filled, and its device. -/
def deviceInstall (t : Table T β) (type : DevType) (subtype : DevSubtype) (ptr : DevPtr)
    (name : List (BitVec 8)) (parent : ℤ) (ioctl read write : Option Driver) :
    C (Table T β × Fin deviceNr) := do
  let i ← getNullDevice t
  let d : DeviceT T β :=
    { name := name.take (nameLen - 1), type, subtype, dev := (t i).dev, parent, ptr
      queue := if type = .block ∧ subtype = .sataDisk then some newQueue else none
      ioctl, read, write }
  return (update t i d, i)

/-- The loop of `device_find`, at the `x`-th device of the subtype. -/
def findLoop (t : Table T β) (subtype : DevSubtype) (idx : ℤ) : ℤ → List (Fin deviceNr) →
    Option (Fin deviceNr)
  | _, [] => none
  | x, i :: is =>
    if (t i).subtype ≠ subtype then findLoop t subtype idx x is
    else if x = idx then some i
    else findLoop t subtype idx (x + 1) is

def deviceFind (t : Table T β) (subtype : DevSubtype) (idx : ℤ) : Option (Fin deviceNr) :=
  findLoop t subtype idx 0 (List.finRange deviceNr)

def deviceGet (dev : ℤ) : C (Fin deviceNr) :=
  if dev < deviceNr then
    if h : 0 ≤ dev ∧ dev.toNat < deviceNr then return ⟨dev.toNat, h.2⟩ else throw (.wild "devices")
  else throw (.assert "dev < DEVICE_NR")

/-! ## Drivers -/

/-- `(part_t *)device->ptr`. -/
def DevPtr.toPart : DevPtr → C Part
  | .part p => return p
  | _ => throw (.wild "part")

/-- `(hba_dev_t *)device->ptr`. -/
def DevPtr.toDisk : DevPtr → C HbaDev
  | .disk dev => return dev
  | _ => throw (.wild "dev")

/-- A `device_ioctl`; without a function it is `EOF`. -/
def deviceIoctl (t : Table T β) (dev : ℤ) (cmd : DevCmd) : C (BitVec 32) := do
  let device ← deviceGet dev
  match (t device).ioctl with
  | none => return -1
  | some .sata => do
    let _ ← (t device).ptr.toDisk
    return 0
  | some .part => do
    let part ← (t device).ptr.toPart
    return if cmd = .sectorStart then part.start else 0
  | some _ => throw (.wild "device->ioctl")

/-- The call of a driver. -/
inductive DevCall (β : Type) where
  | console (buf : β) (count : BitVec 32)
  | keyboard (buf : β) (count : BitVec 32)
  | sata (dev : HbaDev) (type : ReqType) (buf : β) (count : BitVec 32) (startlba : BitVec 64)

/-- `device->read` or `device->write`. -/
def DeviceT.driver (d : DeviceT T β) : ReqType → Option Driver
  | .read => d.read
  | .write => d.write

/-- `device_read` and `device_write`: the driver that is called, or `EOF`.  The `u64` of the driver of
    a disk lies where `idx` and `flags` have been pushed. -/
def deviceIo (t : Table T β) (type : ReqType) (buf : β) (count : BitVec 32) :
    ℕ → ℤ → BitVec 32 → BitVec 32 → C (Option (DevCall β))
  | 0, _, _, _ => throw .loop
  | fuel + 1, dev, idx, flags => do
    let device ← deviceGet dev
    match (t device).driver type with
    | none => return none
    | some .part => do
      let part ← (t device).ptr.toPart
      deviceIo t type buf count fuel (t part.disk).dev (idx + part.start) 0
    | some .sata => do
      let dev ← (t device).ptr.toDisk
      return some (.sata dev type buf count (flags ++ idx))
    | some .console => return some (.console buf count)
    | some .keyboard => return some (.keyboard buf count)
    | some .wild => throw (.wild "device->read")

/-! ## Requests -/

/-- The table with another queue for a disk. -/
def setQueue (t : Table T β) (i : Fin deviceNr) (queue : Device T (Payload β)) : Table T β :=
  update t i { t i with queue := some queue }

/-- From `assert(device->request_list)` to the insertion. -/
def enqueue (t : Table T β) (device : Fin deviceNr) (b_data : β) (count : BitVec 8)
    (offset flags : BitVec 32) (type : ReqType) (task : T) :
    C (Table T β × Fin deviceNr × Request T (Payload β)) :=
  match (t device).queue with
  | none => throw (.assert "device->request_list")
  | some queue =>
    let req : Request T (Payload β) :=
      ⟨type, offset.toNat, ⟨(t device).dev, count.setWidth 32, flags, b_data⟩, task⟩
    return (setQueue t device (queue.insert req), device, req)

/-- `device_request` up to the insertion: the table with the request, the disk, and the request. -/
def deviceRequest (t : Table T β) (b_dev : ℤ) (b_data : β) (count : BitVec 8) (idx : BitVec 32)
    (flags : BitVec 32) (type : ReqType) (task : T) :
    C (Table T β × Fin deviceNr × Request T (Payload β)) := do
  let device ← deviceGet b_dev
  cassert ((t device).type = .block) "device->type == DEV_BLOCK"
  let start ← deviceIoctl t b_dev .sectorStart
  let offset := idx + start
  if (t device).parent ≠ 0 then do
    let device ← deviceGet (t device).parent
    enqueue t device b_data count offset flags type task
  else enqueue t device b_data count offset flags type task

/-- The transfer of `do_request`. -/
def doRequest (t : Table T β) (req : Request T (Payload β)) (fuel : ℕ) : C (Option (DevCall β)) :=
  deviceIo t req.type req.buf.data req.buf.count fuel req.buf.dev (BitVec.ofNat 32 req.idx)
    req.buf.flags

/-! ## What the table holds -/

/-- The table holds the devices `l`, each in the slot of its number. -/
structure Holds (t : Table T β) (l : List (DeviceT T β)) : Prop where
  slots : Slots.Represents nullDevice t l
  type : ∀ d ∈ l, d.type ≠ .null
  number : ∀ (i : ℕ) d, l[i]? = some d → d.dev = i

section Holds
variable {t t' : Table T β} {l : List (DeviceT T β)} {d : DeviceT T β} {i : Fin deviceNr}

theorem holds_init : Holds (deviceInit : Table T β) [] :=
  ⟨Slots.represents_nil, by simp, by simp⟩

/-- A device that is installed is one of the list. -/
theorem Holds.mem (h : Holds t l) (ht : (t i).type ≠ .null) : l[i.val]? = some (t i) := by
  refine h.slots.mem (p := fun d : DeviceT T β => d.type ≠ .null) (by simpa using ht) fun i => ?_
  simp [nullDevice]

theorem Holds.dev (h : Holds t l) (i : Fin deviceNr) : (t i).dev = i := by
  by_cases ht : (t i).type = .null
  · rcases Nat.lt_or_ge i l.length with hi | hi
    · have hget := List.getElem?_eq_getElem hi
      rw [h.slots.used hget]
      exact h.number i _ hget
    · rw [h.slots.unused hi]
      rfl
  · exact h.number i _ (h.mem ht)

/-- What `device_install` puts behind the devices. -/
def entry (l : List (DeviceT T β)) (type : DevType) (subtype : DevSubtype) (ptr : DevPtr)
    (name : List (BitVec 8)) (parent : ℤ) (ioctl read write : Option Driver) : DeviceT T β :=
  { name := name.take (nameLen - 1), type, subtype, dev := l.length, parent, ptr
    queue := if type = .block ∧ subtype = .sataDisk then some newQueue else none
    ioctl, read, write }

/-- **A device is installed behind the others**, or the table is full. -/
theorem Holds.install (h : Holds t l) {type : DevType} (htype : type ≠ .null) (subtype : DevSubtype)
    (ptr : DevPtr) (name : List (BitVec 8)) (parent : ℤ) (ioctl read write : Option Driver) :
    if (l ++ [entry l type subtype ptr name parent ioctl read write]).length ≤ deviceNr then
      ∃ t' i, deviceInstall t type subtype ptr name parent ioctl read write = .ok (t', i) ∧
        i.val = l.length ∧ Holds t' (l ++ [entry l type subtype ptr name parent ioctl read write])
    else deviceInstall t type subtype ptr name parent ioctl read write =
      .error (.panic "could not install more device\n") := by
  have hfree := @Slots.Represents.firstFree _ _ _ _ _ (fun d : DeviceT T β => decide (d.type = .null)) h.slots
    (fun d hd => by simpa using h.type d hd) fun i => by simp [nullDevice]
  rw [List.length_append, List.length_singleton]
  by_cases hn : l.length < deviceNr
  · rw [dif_pos hn] at hfree
    have hnull : getNullDevice t = .ok ⟨l.length, hn⟩ := by
      rw [getNullDevice, hfree]
      rfl
    rw [if_pos (Nat.succ_le_of_lt hn)]
    refine ⟨_, ⟨l.length, hn⟩, by rw [deviceInstall, hnull]; rfl, rfl, ?_⟩
    have hd : (t ⟨l.length, hn⟩).dev = (l.length : ℤ) := h.dev _
    rw [hd]
    refine ⟨h.slots.append hn _, fun d hd => ?_, fun i d hi => ?_⟩
    · rcases List.mem_append.1 hd with hd | hd
      · exact h.type d hd
      · rw [List.mem_singleton.1 hd]
        exact htype
    · rw [List.getElem?_append] at hi
      split_ifs at hi with hlt
      · exact h.number i d hi
      · rw [List.getElem?_singleton] at hi
        split_ifs at hi with hzero
        obtain rfl : i = l.length := by omega
        cases hi
        rfl
  · rw [dif_neg hn] at hfree
    rw [if_neg fun hle => hn (Nat.lt_of_succ_le hle), deviceInstall, getNullDevice, hfree]
    rfl

theorem findLoop_eq (t : Table T β) (subtype : DevSubtype) (x k : ℕ) (is : List (Fin deviceNr)) :
    findLoop t subtype ((x + k : ℕ) : ℤ) x is =
      Slots.scan (fun d : DeviceT T β => d.subtype = subtype) t k is := by
  induction is generalizing x k with
  | nil => rfl
  | cons i is ih =>
    rw [findLoop, Slots.scan]
    by_cases hs : (t i).subtype = subtype
    · rw [if_neg (not_not.2 hs), if_pos (decide_eq_true hs)]
      cases k with
      | zero => rw [if_pos (by simp), if_pos rfl]
      | succ k =>
        have hnext := ih (x + 1) k
        rw [Nat.add_right_comm, Nat.add_assoc x k 1] at hnext
        rw [if_neg (by omega), if_neg (Nat.succ_ne_zero k), Nat.succ_sub_one, ← hnext]
        rfl
    · rw [if_pos hs, if_neg (by simpa using hs), ih]

theorem findLoop_neg {idx x : ℤ} (t : Table T β) (subtype : DevSubtype) (h : idx < x)
    (is : List (Fin deviceNr)) : findLoop t subtype idx x is = none := by
  induction is generalizing x with
  | nil => rfl
  | cons i is ih =>
    rw [findLoop]
    split_ifs with h₁ h₂
    · exact ih h
    · omega
    · exact ih (by omega)

/-- **`device_find` finds the devices of a subtype in the order in which they were installed.** -/
theorem Holds.find (h : Holds t l) {subtype : DevSubtype} (hs : subtype ≠ .null) (idx : ℤ) :
    (deviceFind t subtype idx).map t =
      if 0 ≤ idx then (l.filter fun d => d.subtype = subtype)[idx.toNat]? else none := by
  unfold deviceFind
  split_ifs with hidx
  · obtain ⟨k, rfl⟩ := Int.eq_ofNat_of_zero_le hidx
    have heq := findLoop_eq t subtype 0 k (List.finRange deviceNr)
    rw [Nat.zero_add] at heq
    rw [show ((0 : ℕ) : ℤ) = 0 from rfl] at heq
    rw [heq, h.slots.scan fun i => by simp [nullDevice, hs.symm]]
    rfl
  · rw [findLoop_neg t subtype (by omega)]
    rfl

theorem deviceGet_ofNat (i : Fin deviceNr) : deviceGet (i : ℤ) = .ok i := by
  have hi := i.isLt
  rw [deviceGet, if_pos (by omega), dif_pos ⟨by omega, by simp⟩]
  simp

end Holds

end Rdix.Dev
