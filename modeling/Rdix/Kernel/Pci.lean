/-
  The PCI devices of a bus (kernel/pci.c: device_probe, get_all_device).

  * `deviceProbe` and `getAllDevice` read the configuration space through two ports;
  * `functionsOn`: the functions on a bus that a scan has to find, in the order of the probes;
  * `getBarAndSize_headers`: a BAR is sized without a change of the registers in front of the BARs;
  * `deviceProbe_none`, `deviceProbe_some`: what a probe does to the list of the bus;
  * `getAllDevice_found`: a scan finds the functions of its bus.
-/
import Rdix.Lib.Loop

namespace Rdix.Pci

open Function

/-! ## The configuration space -/

inductive Port where
  /-- `PCI_CONFIG_ADDRESS` -/
  | configAddress
  /-- `PCI_CONFIG_DATA` -/
  | configData

/-- The register that is selected, and the registers of all devices by their address words. -/
structure Ports where
  address : BitVec 32
  config : BitVec 32 → BitVec 32

/-- `GET_TRANSCATION`. -/
def getTranscation (bus : BitVec 32) (device function register type : BitVec 8) : BitVec 32 :=
  0x80000000#32 ||| bus <<< 16 ||| (device &&& 0x1f#8).setWidth 32 <<< 11 |||
    (function &&& 7#8).setWidth 32 <<< 8 ||| (register &&& 0xfc#8).setWidth 32 |||
    (type &&& 3#8).setWidth 32

/-- The address word of a register: behind the first bus it is of type 1. -/
def configAddress (bus : BitVec 32) (dev_num function reg : BitVec 8) : BitVec 32 :=
  getTranscation bus dev_num function reg (if bus > 0 then 1 else 0)

structure BarEntry where
  base_addr : BitVec 32
  size : BitVec 32
  type : BitVec 8
deriving DecidableEq

structure PciDevice where
  bus : BitVec 32
  dev_num : BitVec 8
  function : BitVec 8
  vectorID : BitVec 16
  deviceID : BitVec 16
  revisionID : BitVec 8
  Ccode : BitVec 32
  header_type : BitVec 8
  BAR : List BarEntry
deriving DecidableEq

/-- The ports, and the list of the bus that is scanned. -/
structure Scan where
  ports : Ports
  dev_list : Option (List PciDevice)

section Functions
/- What a register holds after a write, by its address, what it held and what is written: a device
   need not keep all bits. -/
variable (hw : BitVec 32 → BitVec 32 → BitVec 32 → BitVec 32)

def portOutd (x : Ports) (data : BitVec 32) : Port → Ports
  | .configAddress => { x with address := data }
  | .configData =>
    { x with config := update x.config x.address (hw x.address (x.config x.address) data) }

def portInd (x : Ports) : Port → BitVec 32
  | .configAddress => x.address
  | .configData => x.config x.address

def readRegister (x : Ports) (bus : BitVec 32) (dev_num function reg : BitVec 8) :
    Ports × BitVec 32 :=
  let x := portOutd hw x (configAddress bus dev_num function reg) .configAddress
  (x, portInd x .configData)

def getBarAndSize (x : Ports) (bus : BitVec 32) (dev_num function bar_idx : BitVec 8) :
    Ports × BarEntry :=
  let reg := 0x10#8 + bar_idx * 4
  let x := portOutd hw x (configAddress bus dev_num function reg) .configAddress
  let base_addr := portInd x .configData
  let x := portOutd hw x 0xffffffff#32 .configData
  let size := portInd x .configData
  let x := portOutd hw x base_addr .configData
  -- bit 0 of a BAR is set for an I/O space, and clear for memory
  (x, if base_addr &&& 1 ≠ 0 then
        { base_addr := base_addr &&& 0xfffffffc#32
          size := ~~~(size &&& 0xfffffffc#32) + 1
          type := (base_addr &&& 3#32).setWidth 8 }
      else
        { base_addr := base_addr &&& 0xfffffff0#32
          size := ~~~(size &&& 0xfffffff0#32) + 1
          type := (base_addr &&& 0xf#32).setWidth 8 })

/-- The loop over the BARs of a device. -/
def getBars (x : Ports) (bus : BitVec 32) (dev_num function : BitVec 8) :
    Ports × List BarEntry :=
  (List.range 6).foldl (fun r bar =>
    let b := getBarAndSize hw r.1 bus dev_num function (.ofNat 8 bar)
    (b.1, r.2 ++ [b.2])) (x, [])

def deviceProbe (x : Scan) (bus dev_num function : BitVec 8) : Scan × Option PciDevice :=
  let id := readRegister hw x.ports (bus.setWidth 32) dev_num function 0
  if id.2.setWidth 16 = 0xffff#16 then ({ x with ports := id.1 }, none)
  else
    -- the list is set up for the first device of the bus
    let list := x.dev_list.getD []
    let cc := readRegister hw id.1 (bus.setWidth 32) dev_num function 8
    let header := readRegister hw cc.1 (bus.setWidth 32) dev_num function 0xc
    let bars := getBars hw header.1 (bus.setWidth 32) dev_num function
    let Cspace : PciDevice :=
      { bus := bus.setWidth 32
        dev_num := dev_num
        function := function
        vectorID := (id.2 &&& 0xffff#32).setWidth 16
        deviceID := ((id.2 >>> 16) &&& 0xffff#32).setWidth 16
        revisionID := (cc.2 &&& 0xff#32).setWidth 8
        Ccode := (cc.2 >>> 8) &&& 0xffffff#32
        header_type := ((header.2 >>> 16) &&& 0xff#32).setWidth 8
        BAR := bars.2 }
    ({ ports := bars.1, dev_list := some (list ++ [Cspace]) }, some Cspace)

/-- The loop over the functions 1 to 7 of a device. -/
def probeFunctions (x : Scan) (bus dev_num : BitVec 8) (functions : List ℕ) : Scan :=
  functions.foldl (fun x i => (deviceProbe hw x bus dev_num (.ofNat 8 i)).1) x

/-- A turn of the loop of `get_all_device`. -/
def probeDevice (x : Scan) (bus dev_num : BitVec 8) : Scan :=
  let r := deviceProbe hw x bus dev_num 0
  match r.2 with
  | none => r.1
  | some device =>
    if device.header_type &&& 0x80 ≠ 0 then probeFunctions hw r.1 bus dev_num (List.range' 1 7)
    else r.1

def getAllDevice (x : Scan) (bus : BitVec 8) : Scan :=
  (List.range 32).foldl (fun x dev_num => probeDevice hw x bus (.ofNat 8 dev_num)) x

end Functions

/-! ## The devices that answer -/

section Devices
variable (cfg : BitVec 32 → BitVec 32) (bus : BitVec 8)

/-- A register of a function. -/
def register (dev_num function reg : BitVec 8) : BitVec 32 :=
  cfg (configAddress (bus.setWidth 32) dev_num function reg)

/-- `DEVICE_EXIST`. -/
def Answers (dev_num function : BitVec 8) : Prop :=
  (register cfg bus dev_num function 0).setWidth 16 ≠ 0xffff#16

instance (dev_num function : BitVec 8) : Decidable (Answers cfg bus dev_num function) :=
  inferInstanceAs (Decidable (_ ≠ _))

/-- What the configuration space says of a function, the BARs apart. -/
def deviceAt (dev_num function : BitVec 8) (BAR : List BarEntry) : PciDevice where
  bus := bus.setWidth 32
  dev_num := dev_num
  function := function
  vectorID := (register cfg bus dev_num function 0 &&& 0xffff#32).setWidth 16
  deviceID := ((register cfg bus dev_num function 0 >>> 16) &&& 0xffff#32).setWidth 16
  revisionID := (register cfg bus dev_num function 8 &&& 0xff#32).setWidth 8
  Ccode := (register cfg bus dev_num function 8 >>> 8) &&& 0xffffff#32
  header_type := ((register cfg bus dev_num function 0xc >>> 16) &&& 0xff#32).setWidth 8
  BAR := BAR

/-- `d` is the function at a position. -/
def Describes (at_ : ℕ × ℕ) (d : PciDevice) : Prop :=
  d = deviceAt cfg bus (.ofNat 8 at_.1) (.ofNat 8 at_.2) d.BAR

/-- The device has functions besides function 0. -/
def MultiFunction (dev_num : BitVec 8) : Prop :=
  (deviceAt cfg bus dev_num 0 []).header_type &&& 0x80 ≠ 0

instance (dev_num : BitVec 8) : Decidable (MultiFunction cfg bus dev_num) :=
  inferInstanceAs (Decidable (_ ≠ _))

/-- Those of some functions of a device that answer. -/
def answering (dev_num : ℕ) (functions : List ℕ) : List (ℕ × ℕ) :=
  (functions.filter fun function => Answers cfg bus (.ofNat 8 dev_num) (.ofNat 8 function)).map
    (dev_num, ·)

/-- The functions of a device: there is none if function 0 does not answer. -/
def functionsOf (dev_num : ℕ) : List (ℕ × ℕ) :=
  if Answers cfg bus (.ofNat 8 dev_num) 0 then
    (dev_num, 0) :: if MultiFunction cfg bus (.ofNat 8 dev_num) then
      answering cfg bus dev_num (List.range' 1 7) else []
  else []

/-- The functions on a bus, in the order of the probes. -/
def functionsOn : List (ℕ × ℕ) := (List.range 32).flatMap (functionsOf cfg bus)

/-- There is a device on the bus. -/
def HasDevice : Prop := ∃ dev_num < 32, Answers cfg bus (.ofNat 8 dev_num) 0

instance : Decidable (HasDevice cfg bus) :=
  inferInstanceAs (Decidable (∃ dev_num < 32, Answers cfg bus (.ofNat 8 dev_num) 0))

variable {cfg bus}

/-- The answering functions, one function after the other. -/
theorem answering_eq_flatMap (d : ℕ) (functions : List ℕ) :
    answering cfg bus d functions = functions.flatMap fun f =>
      if Answers cfg bus (.ofNat 8 d) (.ofNat 8 f) then [(d, f)] else [] := by
  unfold answering
  induction functions with
  | nil => rfl
  | cons f functions ih =>
    rw [List.flatMap_cons, ← ih]
    by_cases h : Answers cfg bus (.ofNat 8 d) (.ofNat 8 f) <;> simp [h]

theorem functionsOf_ne_nil {dev_num : ℕ} :
    functionsOf cfg bus dev_num ≠ [] ↔ Answers cfg bus (.ofNat 8 dev_num) 0 := by
  unfold functionsOf
  split <;> simp_all

theorem functionsOn_ne_nil : functionsOn cfg bus ≠ [] ↔ HasDevice cfg bus := by
  rw [functionsOn, ne_eq, List.flatMap_eq_nil_iff]
  push Not
  refine exists_congr fun dev_num => ?_
  rw [List.mem_range, functionsOf_ne_nil]

end Devices

/-! ## The scan of a bus -/

section Scans
variable (hw : BitVec 32 → BitVec 32 → BitVec 32 → BitVec 32) {cfg c c' : BitVec 32 → BitVec 32}
  {x : Scan} {y : Ports} {bus dev_num function reg : BitVec 8} {b : BitVec 32} {ps : List (ℕ × ℕ)}

/-- The address is that of a register in front of the BARs. -/
def IsHeader (address : BitVec 32) : Prop :=
  address.getLsbD 4 = false ∧ address.getLsbD 5 = false

instance (address : BitVec 32) : Decidable (IsHeader address) :=
  inferInstanceAs (Decidable (_ ∧ _))

/-- Bits 4 and 5 of an address are those of the register. -/
theorem configAddress_bits (b : BitVec 32) (dev_num function reg : BitVec 8) {i : ℕ}
    (hi : i = 4 ∨ i = 5) : (configAddress b dev_num function reg).getLsbD i = reg.getLsbD i := by
  unfold configAddress
  rcases hi with rfl | rfl <;> split <;> simp [getTranscation]

theorem isHeader_iff :
    IsHeader (configAddress b dev_num function reg) ↔ IsHeader (reg.setWidth 32) := by
  unfold IsHeader
  rw [configAddress_bits _ _ _ _ (.inl rfl), configAddress_bits _ _ _ _ (.inr rfl)]
  simp

/-- The registers in front of the BARs are the same. -/
def SameHeaders (c c' : BitVec 32 → BitVec 32) : Prop := ∀ a, IsHeader a → c' a = c a

theorem SameHeaders.trans {c'' : BitVec 32 → BitVec 32} (h : SameHeaders c c')
    (h' : SameHeaders c' c'') : SameHeaders c c'' := fun a ha => (h' a ha).trans (h a ha)

theorem SameHeaders.register (h : SameHeaders cfg y.config) (hreg : IsHeader (reg.setWidth 32)) :
    (readRegister hw y (bus.setWidth 32) dev_num function reg).2 =
      register cfg bus dev_num function reg :=
  h _ (isHeader_iff.2 hreg)

/-- **A BAR is sized without a change in front of the BARs.** -/
theorem getBarAndSize_headers {bar : ℕ} (hbar : bar < 6) :
    SameHeaders y.config (getBarAndSize hw y b dev_num function (.ofNat 8 bar)).1.config := by
  have hreg : ¬ IsHeader ((0x10#8 + .ofNat 8 bar * 4).setWidth 32) := by
    interval_cases bar <;> decide
  intro a ha
  have hne : a ≠ configAddress b dev_num function (0x10#8 + .ofNat 8 bar * 4) := by
    rintro rfl
    exact hreg (isHeader_iff.1 ha)
  -- a write changes the selected register only
  have hout : ∀ data (z : Ports),
      z.address = configAddress b dev_num function (0x10#8 + .ofNat 8 bar * 4) →
      (portOutd hw z data .configData).config a = z.config a := by
    intro data z hz
    exact update_of_ne (hz ▸ hne) ..
  exact (hout _ _ rfl).trans (hout _ _ rfl)

theorem getBars_headers : SameHeaders y.config (getBars hw y b dev_num function).1.config := by
  refine List.foldlRecOn (motive := fun r : Ports × List BarEntry => SameHeaders y.config r.1.config)
    _ _ (fun _ _ => rfl) fun r hr bar hbar => ?_
  exact hr.trans (getBarAndSize_headers hw (List.mem_range.1 hbar))

/-- The list of a bus: none before the first device, then the devices in the order of the probes. -/
structure Lists (cfg : BitVec 32 → BitVec 32) (bus : BitVec 8) (dev_list : Option (List PciDevice))
    (ps : List (ℕ × ℕ)) : Prop where
  devices : List.Forall₂ (Describes cfg bus) ps (dev_list.getD [])
  ne_nil : dev_list ≠ some []

theorem Lists.eq_none_iff {dev_list : Option (List PciDevice)} (h : Lists cfg bus dev_list ps) :
    dev_list = none ↔ ps = [] := by
  constructor
  · rintro rfl
    exact List.forall₂_nil_right_iff.1 h.devices
  · rintro rfl
    cases dev_list with
    | none => rfl
    | some devices => exact absurd (congrArg some (List.forall₂_nil_left_iff.1 h.devices)) h.ne_nil

/-- A scan of a bus has found the functions. -/
structure Scan.Found (cfg : BitVec 32 → BitVec 32) (bus : BitVec 8) (x : Scan)
    (ps : List (ℕ × ℕ)) : Prop where
  headers : SameHeaders cfg x.ports.config
  lists : Lists cfg bus x.dev_list ps

theorem readRegister_id (h : SameHeaders cfg y.config) :
    (readRegister hw y (bus.setWidth 32) dev_num function 0).2 = register cfg bus dev_num function 0 :=
  h.register hw (by decide)

/-- **A function that does not answer** leaves the list as it is. -/
theorem deviceProbe_none (h : x.Found cfg bus ps) (ha : ¬ Answers cfg bus dev_num function) :
    (deviceProbe hw x bus dev_num function).1.Found cfg bus ps ∧
      (deviceProbe hw x bus dev_num function).2 = none := by
  have hno : ((readRegister hw x.ports (bus.setWidth 32) dev_num function 0).2).setWidth 16
      = 0xffff#16 := by
    rw [readRegister_id hw h.headers]
    exact not_not.1 ha
  unfold deviceProbe
  rw [if_pos hno]
  exact ⟨⟨h.headers, h.lists⟩, rfl⟩

/-- **A function that answers** is put at the end of the list. -/
theorem deviceProbe_some {d f : ℕ} (h : x.Found cfg bus ps)
    (ha : Answers cfg bus (.ofNat 8 d) (.ofNat 8 f)) :
    ∃ x' device, deviceProbe hw x bus (.ofNat 8 d) (.ofNat 8 f) = (x', some device) ∧
      x'.Found cfg bus (ps ++ [(d, f)]) ∧ Describes cfg bus (d, f) device := by
  let id := readRegister hw x.ports (bus.setWidth 32) (.ofNat 8 d) (.ofNat 8 f) 0
  let cc := readRegister hw id.1 (bus.setWidth 32) (.ofNat 8 d) (.ofNat 8 f) 8
  have hid : id.2 = register cfg bus (.ofNat 8 d) (.ofNat 8 f) 0 := readRegister_id hw h.headers
  -- a read changes no register
  have hcc : cc.2 = register cfg bus (.ofNat 8 d) (.ofNat 8 f) 8 :=
    SameHeaders.register hw (y := id.1) h.headers (by decide)
  have hheader : (readRegister hw cc.1 (bus.setWidth 32) (.ofNat 8 d) (.ofNat 8 f) 0xc).2 =
      register cfg bus (.ofNat 8 d) (.ofNat 8 f) 0xc :=
    SameHeaders.register hw (y := cc.1) h.headers (by decide)
  have hyes : ¬ id.2.setWidth 16 = 0xffff#16 := by
    rw [hid]
    exact ha
  unfold deviceProbe
  rw [if_neg hyes]
  have hdesc : ∀ BAR, Describes cfg bus (d, f) (deviceAt cfg bus (.ofNat 8 d) (.ofNat 8 f) BAR) :=
    fun _ => rfl
  simp only [id, cc] at hid hcc hheader
  simp only [hid, hcc, hheader]
  refine ⟨_, _, rfl, ⟨?_, ?_, by simp⟩, hdesc _⟩
  · exact h.headers.trans (getBars_headers hw)
  · exact List.rel_append h.lists.devices (.cons (hdesc _) .nil)

/-- The loop over the functions of a device. -/
theorem probeFunctions_found {d : ℕ} {functions : List ℕ} (h : x.Found cfg bus ps) :
    (probeFunctions hw x bus (.ofNat 8 d) functions).Found cfg bus
      (ps ++ answering cfg bus d functions) := by
  rw [answering_eq_flatMap]
  refine Loop.foldl_flatMap (fun ps x => Scan.Found cfg bus x ps) (fun ps x f hx => ?_) h functions
  by_cases ha : Answers cfg bus (.ofNat 8 d) (.ofNat 8 f)
  · obtain ⟨x', device, he, hx', -⟩ := deviceProbe_some hw hx ha
    rw [if_pos ha, he]
    exact hx'
  · rw [if_neg ha, List.append_nil]
    exact (deviceProbe_none hw hx ha).1

/-- **A turn of the loop over the devices.** -/
theorem probeDevice_found {d : ℕ} (h : x.Found cfg bus ps) :
    (probeDevice hw x bus (.ofNat 8 d)).Found cfg bus (ps ++ functionsOf cfg bus d) := by
  unfold probeDevice functionsOf
  by_cases ha : Answers cfg bus (.ofNat 8 d) 0
  · obtain ⟨x', device, he, hx', hdev⟩ := deviceProbe_some hw (f := 0) h ha
    have he : deviceProbe hw x bus (.ofNat 8 d) 0 = (x', some device) := he
    have hmulti : device.header_type &&& 0x80 ≠ 0 ↔ MultiFunction cfg bus (.ofNat 8 d) := by
      rw [hdev]
      rfl
    rw [if_pos ha, he]
    by_cases hm : MultiFunction cfg bus (.ofNat 8 d)
    · simp only [if_pos hm, if_pos (hmulti.2 hm)]
      rw [List.append_cons]
      exact probeFunctions_found hw hx'
    · simp only [if_neg hm, if_neg (mt hmulti.1 hm)]
      exact hx'
  · obtain ⟨hx', hnone⟩ := deviceProbe_none hw h ha
    rw [if_neg ha, List.append_nil]
    simp only [hnone]
    exact hx'

/-- **The scan of a bus** finds its functions. -/
theorem getAllDevice_found (h : x.Found cfg bus []) :
    (getAllDevice hw x bus).Found cfg bus (functionsOn cfg bus) := by
  have hall := Loop.foldl_flatMap (fun ps x => Scan.Found cfg bus x ps)
    (fun ps x d hx => probeDevice_found (d := d) hw hx) h (List.range 32)
  rw [List.nil_append] at hall
  exact hall

end Scans

end Rdix.Pci
