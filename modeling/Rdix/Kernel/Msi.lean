/-
  Message signalled interrupts (kernel/pci.c: capability_search, __device_MSI_init).

  The capabilities of a device are a list in its configuration space, each with a pointer to the next.
  The device makes the list; where it is a ring, a search for a capability that is not on it never ends.

  * `capabilitySearch` and `deviceMsiInit` are the code;
  * `capability_search_ends`: a search ends at the first capability with the number, within 256 turns,
    or it never ends;
  * `message`: what a device sends for an interrupt;
  * `deviceMsiInit_spec`: the device sends the vector, and the other devices are as they were.
-/
import Rdix.Kernel.Pci
import Rdix.Kernel.ListNode
import Rdix.Lib.Orbit

namespace Rdix.Pci

open Function Orbit Nodes

/-! ## The code -/

/-- `PCI_CONFIG_SPACE_CMD`. -/
abbrev configSpaceCmd : BitVec 8 := 0x4

/-- `PCI_CONFIG_SPACE_CAP_PTR`. -/
abbrev configSpaceCapPtr : BitVec 8 := 0x34

/-- `PCI_CAP_END_PTR`. -/
abbrev capEndPtr : BitVec 8 := 0

/-- `PCI_CAP_ID_MSI`. -/
abbrev capIdMsi : BitVec 8 := 0x5

/-- `__PCI_CS_CMD_BUS_INT_DISABLE`. -/
abbrev cmdBusIntDisable : BitVec 32 := 1 <<< 10

section Functions
variable (hw : BitVec 32 → BitVec 32 → BitVec 32 → BitVec 32)

def writeRegister (x : Ports) (bus : BitVec 32) (dev_num function reg : BitVec 8) (data : BitVec 32) :
    Ports :=
  let x := portOutd hw x (configAddress bus dev_num function reg) .configAddress
  portOutd hw x data .configData

def pciDevRegRead (x : Ports) (dev : PciDevice) (reg : BitVec 8) : Ports × BitVec 32 :=
  readRegister hw x dev.bus dev.dev_num dev.function reg

def pciDevRegWrite (x : Ports) (dev : PciDevice) (reg : BitVec 8) (data : BitVec 32) : Ports :=
  writeRegister hw x dev.bus dev.dev_num dev.function reg data

/-- The loop of `capability_search`. -/
def capLoop (dev : PciDevice) (cap_id : BitVec 8) : ℕ → Ports → BitVec 8 → BitVec 32 →
    C (Ports × BitVec 8)
  | 0, _, _, _ => throw .loop
  | fuel + 1, x, cap_ptr, cap_reg =>
    if cap_reg.setWidth 8 = cap_id then return (x, cap_ptr)
    else
      let cap_ptr := (cap_reg >>> 8).setWidth 8
      if cap_ptr = capEndPtr then return (x, capEndPtr)
      else
        let r := pciDevRegRead hw x dev cap_ptr
        capLoop dev cap_id fuel r.1 cap_ptr r.2

def capabilitySearch (x : Ports) (dev : PciDevice) (cap_id : BitVec 8) (fuel : ℕ) :
    C (Ports × BitVec 8) :=
  let r := pciDevRegRead hw x dev configSpaceCapPtr
  let capabilities := r.2.setWidth 8
  if capabilities = capEndPtr then return (r.1, capEndPtr)
  else
    let q := pciDevRegRead hw r.1 dev capabilities
    capLoop hw dev cap_id fuel q.1 capabilities q.2

/-- `__device_MSI_init`, once the capability has been found. -/
def msiProgram (x : Ports) (dev : PciDevice) (cap_p : BitVec 8) (reg : BitVec 32) (vector : BitVec 8) :
    Ports :=
  let x := pciDevRegWrite hw x dev cap_p reg
  let wide := reg &&& 1#32 <<< 23 ≠ 0
  let msg_data_p := if wide then cap_p + 0xc else cap_p + 8
  let msg_addr_p := cap_p + 4
  let mask_bit_map := if wide then cap_p + 0xc + 4 else cap_p + 0xc
  -- the source clears register 8 here, and not the upper half of the address
  let x := if wide then pciDevRegWrite hw x dev 8 0 else x
  let x := if (reg >>> 24) &&& 1 ≠ 0 then pciDevRegWrite hw x dev mask_bit_map 0 else x
  let x := (pciDevRegRead hw x dev msg_data_p).1
  let x := pciDevRegWrite hw x dev msg_data_p (vector.setWidth 32)
  pciDevRegWrite hw x dev msg_addr_p 0xfee00000

def deviceMsiInit (x : Ports) (dev : PciDevice) (vector : BitVec 8) (fuel : ℕ) : C (Ports × ℤ) := do
  let r := pciDevRegRead hw x dev configSpaceCmd
  let x := pciDevRegWrite hw r.1 dev configSpaceCmd (r.2 ||| cmdBusIntDisable)
  let (x, cap_p) ← capabilitySearch hw x dev capIdMsi fuel
  if cap_p = capEndPtr then return (x, -1)
  let r := pciDevRegRead hw x dev cap_p
  cassert (r.2.setWidth 8 = capIdMsi) "(reg & 0xff) == PCI_CAP_ID_MSI"
  return (msiProgram hw r.1 dev cap_p (r.2 ||| 1#32 <<< 16) vector, 0)

end Functions

/-! ## The search -/

section Search
variable (hw : BitVec 32 → BitVec 32 → BitVec 32 → BitVec 32) (cfg : BitVec 32 → BitVec 32)
  (dev : PciDevice) (cap_id : BitVec 8)

/-- The address of a register of a device. -/
def devAddress (reg : BitVec 8) : BitVec 32 := configAddress dev.bus dev.dev_num dev.function reg

/-- A register of a device. -/
def devReg (reg : BitVec 8) : BitVec 32 := cfg (devAddress dev reg)

/-- The first pointer of the list of capabilities. -/
def firstCap : BitVec 8 := (devReg cfg dev configSpaceCapPtr).setWidth 8

/-- The pointer in a capability. -/
def nextCap (p : BitVec 8) : BitVec 8 := (devReg cfg dev p >>> 8).setWidth 8

/-- The number of a capability. -/
def capId (p : BitVec 8) : BitVec 8 := (devReg cfg dev p).setWidth 8

/-- Where a search ends: at the end of the list, or at a capability with the number. -/
def Stops (p : BitVec 8) : Prop := p = capEndPtr ∨ capId cfg dev p = cap_id

instance : DecidablePred (Stops cfg dev cap_id) := fun _ => inferInstanceAs (Decidable (_ ∨ _))

variable {cfg dev cap_id} {x y : Ports} {p r reg : BitVec 8} {fuel k : ℕ} {data : BitVec 32}

@[simp] theorem pciDevRegRead_config : (pciDevRegRead hw x dev r).1.config = x.config := rfl

@[simp] theorem pciDevRegRead_value : (pciDevRegRead hw x dev r).2 = devReg x.config dev r := rfl

theorem pciDevRegWrite_config : (pciDevRegWrite hw x dev r data).config =
    update x.config (devAddress dev r) (hw (devAddress dev r) (devReg x.config dev r) data) := rfl

/-- A turn of the loop. -/
theorem capLoop_turn (hcfg : x.config = cfg) : capLoop hw dev cap_id (fuel + 1) x p (devReg cfg dev p) =
    if capId cfg dev p = cap_id then .ok (x, p)
    else if nextCap cfg dev p = capEndPtr then .ok (x, capEndPtr)
    else capLoop hw dev cap_id fuel (pciDevRegRead hw x dev (nextCap cfg dev p)).1 (nextCap cfg dev p)
      (devReg cfg dev (nextCap cfg dev p)) := by
  subst hcfg
  rfl

/-- **The loop finds the first pointer** at which the search ends. -/
theorem capLoop_first {q : BitVec 8} (hcfg : x.config = cfg) (hp : p ≠ capEndPtr)
    (h : First (nextCap cfg dev) (Stops cfg dev cap_id) p k q) (hf : k < fuel) :
    ∃ y, capLoop hw dev cap_id fuel x p (devReg cfg dev p) = .ok (y, q) ∧ y.config = cfg := by
  induction fuel generalizing x p k with
  | zero => cases hf
  | succ fuel ih =>
    rw [capLoop_turn hw hcfg]
    cases k with
    | zero =>
      obtain ⟨rfl, hstop⟩ := first_zero_iff.1 h
      rw [if_pos (hstop.resolve_left hp)]
      exact ⟨x, rfl, hcfg⟩
    | succ k =>
      obtain ⟨hgo, h⟩ := first_succ_iff.1 h
      rw [if_neg fun hid => hgo (Or.inr hid)]
      by_cases hend : nextCap cfg dev p = capEndPtr
      · have hstop : Stops cfg dev cap_id (nextCap cfg dev p) := Or.inl hend
        obtain ⟨-, rfl⟩ := (First.here hstop).unique h
        rw [if_pos hend]
        exact ⟨x, by rw [hend], hcfg⟩
      · rw [if_neg hend]
        exact ih hcfg hend h (Nat.lt_of_succ_lt_succ hf)

theorem first_of_capLoop {q : BitVec 8} (hcfg : x.config = cfg) (hp : p ≠ capEndPtr)
    (h : capLoop hw dev cap_id fuel x p (devReg cfg dev p) = .ok (y, q)) :
    y.config = cfg ∧ ∃ k, First (nextCap cfg dev) (Stops cfg dev cap_id) p k q := by
  induction fuel generalizing x p with
  | zero => cases h
  | succ fuel ih =>
    rw [capLoop_turn hw hcfg] at h
    split_ifs at h with hid hend
    · cases h
      exact ⟨hcfg, 0, .here (Or.inr hid)⟩
    · cases h
      refine ⟨hcfg, 1, .step (fun hstop => hstop.elim hp hid) ?_⟩
      rw [hend]
      exact .here (Or.inl rfl)
    · obtain ⟨hy, k, hk⟩ := ih (x := (pciDevRegRead hw x dev (nextCap cfg dev p)).1) hcfg hend h
      exact ⟨hy, k + 1, hk.step fun hstop => hstop.elim hp hid⟩

theorem capLoop_error {e : Halt} (h : capLoop hw dev cap_id fuel x p data = .error e) : e = .loop := by
  induction fuel generalizing x p data with
  | zero => exact (Except.error.inj h).symm
  | succ fuel ih =>
    rw [capLoop] at h
    dsimp only at h
    split_ifs at h
    · cases h
    · cases h
    · exact ih h

/-- The search is the loop from the first pointer on, or there is no list. -/
theorem capabilitySearch_eq (hcfg : x.config = cfg) : capabilitySearch hw x dev cap_id fuel =
    if firstCap cfg dev = capEndPtr then .ok ((pciDevRegRead hw x dev configSpaceCapPtr).1, capEndPtr)
    else capLoop hw dev cap_id fuel (pciDevRegRead hw (pciDevRegRead hw x dev configSpaceCapPtr).1 dev
      (firstCap cfg dev)).1 (firstCap cfg dev) (devReg cfg dev (firstCap cfg dev)) := by
  subst hcfg
  rfl

/-- The search finds the first pointer at which it ends. -/
theorem capabilitySearch_first (hcfg : x.config = cfg)
    (h : First (nextCap cfg dev) (Stops cfg dev cap_id) (firstCap cfg dev) k p) (hf : k < fuel) :
    ∃ y, capabilitySearch hw x dev cap_id fuel = .ok (y, p) ∧ y.config = cfg := by
  rw [capabilitySearch_eq hw hcfg]
  by_cases hend : firstCap cfg dev = capEndPtr
  · have hstop : Stops cfg dev cap_id (firstCap cfg dev) := Or.inl hend
    obtain ⟨-, rfl⟩ := (First.here hstop).unique h
    rw [if_pos hend]
    exact ⟨(pciDevRegRead hw x dev configSpaceCapPtr).1, by rw [hend], hcfg⟩
  · rw [if_neg hend]
    exact capLoop_first hw hcfg hend h hf

theorem first_of_capabilitySearch (hcfg : x.config = cfg)
    (h : capabilitySearch hw x dev cap_id fuel = .ok (y, p)) :
    y.config = cfg ∧ ∃ k, First (nextCap cfg dev) (Stops cfg dev cap_id) (firstCap cfg dev) k p := by
  rw [capabilitySearch_eq hw hcfg] at h
  split_ifs at h with hend
  · cases h
    refine ⟨hcfg, 0, ?_⟩
    rw [hend]
    exact .here (Or.inl rfl)
  · exact first_of_capLoop hw (x := (pciDevRegRead hw _ dev (firstCap cfg dev)).1) hcfg hend h

/-- **A search in any configuration space** ends at the first capability with the number, or at the end
    of the list, within 256 turns; where it comes to neither, it goes on for ever. -/
theorem capability_search_ends (x : Ports) (dev : PciDevice) (cap_id : BitVec 8) :
    (∀ p, (∃ fuel y, capabilitySearch hw x dev cap_id fuel = .ok (y, p)) ↔
      ∃ k, First (nextCap x.config dev) (Stops x.config dev cap_id) (firstCap x.config dev) k p) ∧
    ((∃ fuel y p, capabilitySearch hw x dev cap_id fuel = .ok (y, p)) ↔
      ∃ y p, capabilitySearch hw x dev cap_id 256 = .ok (y, p)) ∧
    ((¬ ∃ k, Stops x.config dev cap_id ((nextCap x.config dev)^[k] (firstCap x.config dev))) ↔
      ∀ fuel, capabilitySearch hw x dev cap_id fuel = .error .loop) := by
  have hfound : ∀ p, (∃ fuel y, capabilitySearch hw x dev cap_id fuel = .ok (y, p)) ↔
      ∃ k, First (nextCap x.config dev) (Stops x.config dev cap_id) (firstCap x.config dev) k p := by
    refine fun p => ⟨fun ⟨fuel, y, h⟩ => (first_of_capabilitySearch hw rfl h).2, fun ⟨k, h⟩ => ?_⟩
    obtain ⟨y, hy, -⟩ := capabilitySearch_first hw rfl h (Nat.lt_succ_self k)
    exact ⟨k + 1, y, hy⟩
  refine ⟨hfound, ⟨fun ⟨fuel, y, p, h⟩ => ?_, fun ⟨y, p, h⟩ => ⟨256, y, p, h⟩⟩, fun hno fuel => ?_, ?_⟩
  · obtain ⟨-, k, hk⟩ := first_of_capabilitySearch hw rfl h
    have hlt := hk.index_lt
    rw [← FinEnum.card_eq_fintypeCard, FinEnum.card_bitVec] at hlt
    obtain ⟨y, hy, -⟩ := capabilitySearch_first hw rfl hk hlt
    exact ⟨y, p, hy⟩
  · cases hs : capabilitySearch hw x dev cap_id fuel with
    | ok r =>
      obtain ⟨-, k, hk⟩ := first_of_capabilitySearch hw rfl hs
      exact absurd ⟨k, hk.at_ ▸ hk.ends⟩ hno
    | error e =>
      rw [capabilitySearch_eq hw rfl] at hs
      split_ifs at hs
      rw [capLoop_error hw hs]
  · rintro hloop ⟨k, hk⟩
    obtain ⟨k, p, hp⟩ := exists_first ⟨k, hk⟩
    obtain ⟨y, hy, -⟩ := capabilitySearch_first hw (x := x) rfl hp (Nat.lt_succ_self k)
    rw [hloop] at hy
    cases hy

end Search

/-! ## Addresses -/

section Addresses
variable {b : BitVec 32} {d f r r' : BitVec 8} {dev dev' : PciDevice} {i : ℕ}

/-- Another function of the machine. -/
def Apart (dev dev' : PciDevice) : Prop :=
  dev.bus.setWidth 8 ≠ dev'.bus.setWidth 8 ∨ dev.dev_num.setWidth 5 ≠ dev'.dev_num.setWidth 5 ∨
    dev.function.setWidth 3 ≠ dev'.function.setWidth 3

instance : Decidable (Apart dev dev') := inferInstanceAs (Decidable (_ ∨ _))

theorem configAddress_reg (hi : i < 6) : (configAddress b d f r).getLsbD (i + 2) = r.getLsbD (i + 2) := by
  unfold configAddress
  interval_cases i <;> split <;> simp [getTranscation]

theorem configAddress_function (hi : i < 3) :
    (configAddress b d f r).getLsbD (i + 8) = f.getLsbD i := by
  unfold configAddress
  interval_cases i <;> split <;> simp [getTranscation]

theorem configAddress_device (hi : i < 5) :
    (configAddress b d f r).getLsbD (i + 11) = d.getLsbD i := by
  unfold configAddress
  interval_cases i <;> split <;> simp [getTranscation]

theorem configAddress_bus (hi : i < 8) :
    (configAddress b d f r).getLsbD (i + 16) = b.getLsbD i := by
  unfold configAddress
  interval_cases i <;> split <;> simp [getTranscation]

/-- **The registers of different functions** have different addresses. -/
theorem devAddress_apart (h : Apart dev dev') : devAddress dev r ≠ devAddress dev' r' := by
  intro he
  unfold devAddress at he
  rcases h with h | h | h <;> refine h (BitVec.eq_of_getLsbD_eq fun i hi => ?_)
  · rw [BitVec.getLsbD_setWidth, BitVec.getLsbD_setWidth, ← configAddress_bus hi, he, configAddress_bus hi]
  · rw [BitVec.getLsbD_setWidth, BitVec.getLsbD_setWidth, ← configAddress_device hi, he, configAddress_device hi]
  · rw [BitVec.getLsbD_setWidth, BitVec.getLsbD_setWidth, ← configAddress_function hi, he,
      configAddress_function hi]

/-- The registers of a function have different addresses, but for the two lowest bits. -/
theorem devAddress_ne (h : r.toNat / 4 ≠ r'.toNat / 4) : devAddress dev r ≠ devAddress dev r' := by
  intro he
  unfold devAddress at he
  have hbits : r >>> 2 = r' >>> 2 := by
    refine BitVec.eq_of_getLsbD_eq fun i _ => ?_
    rw [BitVec.getLsbD_ushiftRight, BitVec.getLsbD_ushiftRight, Nat.add_comm]
    by_cases hi : i < 6
    · rw [← configAddress_reg (b := dev.bus) (d := dev.dev_num) (f := dev.function) hi, he,
        configAddress_reg hi]
    · rw [BitVec.getLsbD_of_ge _ _ (by omega), BitVec.getLsbD_of_ge _ _ (by omega)]
  have hnat := congrArg BitVec.toNat hbits
  rw [BitVec.toNat_ushiftRight, BitVec.toNat_ushiftRight, Nat.shiftRight_eq_div_pow,
    Nat.shiftRight_eq_div_pow] at hnat
  exact h hnat

end Addresses

/-! ## The message -/

section Message
variable (hw : BitVec 32 → BitVec 32 → BitVec 32 → BitVec 32) {cfg : BitVec 32 → BitVec 32}
  {dev dev' : PciDevice} {x y : Ports} {p r r' vector : BitVec 8} {data : BitVec 32} {e : BitVec 8 × BitVec 32} {k fuel : ℕ}

/-- The message address has an upper half. -/
def wide (cfg : BitVec 32 → BitVec 32) (dev : PciDevice) (p : BitVec 8) : Bool := (devReg cfg dev p).getLsbD 23

/-- The register of the message data. -/
def dataReg (wide : Bool) (p : BitVec 8) : BitVec 8 := if wide then p + 0xc else p + 8

/-- The register of the mask bits. -/
def maskReg (wide : Bool) (p : BitVec 8) : BitVec 8 := if wide then p + 0xc + 4 else p + 0xc

/-- What a device with its MSI capability at `p` sends for an interrupt: an address, and a vector. -/
def message (cfg : BitVec 32 → BitVec 32) (dev : PciDevice) (p : BitVec 8) : Option (BitVec 64 × BitVec 8) :=
  let w := wide cfg dev p
  if (devReg cfg dev p).getLsbD 16 = false then none
  else if (devReg cfg dev p).getLsbD 24 = true ∧ (devReg cfg dev (maskReg w p)).getLsbD 0 = true then none
  else some ((if w then devReg cfg dev (p + 8) else 0) ++ devReg cfg dev (p + 4),
    (devReg cfg dev (dataReg w p)).setWidth 8)

/-- **A device with message signalled interrupts** keeps what is written to the registers of them, but for
    the bits that say which it has. -/
structure MsiRegs (hw : BitVec 32 → BitVec 32 → BitVec 32 → BitVec 32) (dev : PciDevice) (p : BitVec 8)
    (wide : Bool) : Prop where
  enable : ∀ old data, (hw (devAddress dev p) old data).getLsbD 16 = data.getLsbD 16
  fixed : ∀ old data, ∀ i ∈ [23, 24], (hw (devAddress dev p) old data).getLsbD i = old.getLsbD i
  address : ∀ old, hw (devAddress dev (p + 4)) old 0xfee00000 = 0xfee00000
  data : ∀ old (v : BitVec 8), (hw (devAddress dev (dataReg wide p)) old (v.setWidth 32)).setWidth 8 = v
  mask : ∀ old, (hw (devAddress dev (maskReg wide p)) old 0).getLsbD 0 = false

/-- The capability stands behind the header, at a register. -/
structure Placed (p : BitVec 8) : Prop where
  behind : 0x40 ≤ p.toNat
  inside : p.toNat + 0x14 ≤ 256
  aligned : p.toNat % 4 = 0

theorem devReg_write_self : devReg (pciDevRegWrite hw x dev r data).config dev r =
    hw (devAddress dev r) (devReg x.config dev r) data := by
  rw [pciDevRegWrite_config, devReg, update_self]

theorem devReg_write_ne (h : devAddress dev' r' ≠ devAddress dev r) :
    devReg (pciDevRegWrite hw x dev r data).config dev' r' = devReg x.config dev' r' := by
  unfold devReg
  rw [pciDevRegWrite_config, update_of_ne h]

/-- The registers of another function. -/
theorem msiProgram_apart (h : Apart dev' dev) {reg : BitVec 32} :
    devReg (msiProgram hw x dev p reg vector).config dev' r' = devReg x.config dev' r' := by
  unfold msiProgram
  dsimp only
  have hne : ∀ r, devAddress dev' r' ≠ devAddress dev r := fun r => devAddress_apart h
  rw [devReg_write_ne hw (hne _), devReg_write_ne hw (hne _), pciDevRegRead_config]
  split_ifs <;> simp only [devReg_write_ne hw (hne _)]

theorem and_bit_ne_zero {v : BitVec 32} {i : ℕ} (hi : i < 32) : v &&& 1#32 <<< i ≠ 0 ↔ v.getLsbD i = true := by
  have htwo : 1#32 <<< i = BitVec.twoPow 32 i := (BitVec.twoPow_eq 32 i).symm
  rw [htwo, BitVec.and_twoPow]
  by_cases h : v.getLsbD i = true
  · rw [if_pos h]
    refine iff_of_true (fun h0 => ?_) h
    have hbit := congrArg (BitVec.getLsbD · i) h0
    simp [hi] at hbit
  · rw [if_neg h]
    exact iff_of_false (not_not.2 rfl) h

theorem shift_bit_ne_zero {v : BitVec 32} {i : ℕ} : (v >>> i) &&& 1 ≠ 0 ↔ v.getLsbD i = true := by
  have hone : (1 : BitVec 32) = 1#32 <<< 0 := rfl
  rw [hone, and_bit_ne_zero (by decide), BitVec.getLsbD_ushiftRight, Nat.add_zero]

/-- The registers that are written besides `PCI_CONFIG_SPACE_CMD`. -/
def msiRegs (p : BitVec 8) : List (BitVec 8) := [p, p + 4, p + 8, p + 0xc, p + 0xc + 4, 8]

theorem Placed.ne (hp : Placed p) (hr : r ∈ msiRegs p) (hr' : r' ∈ msiRegs p) (hne : r ≠ r') :
    devAddress dev r ≠ devAddress dev r' := by
  have haligned : ∀ r ∈ msiRegs p, r.toNat % 4 = 0 := by
    have h1 := hp.inside
    have h2 := hp.aligned
    intro r hr
    simp only [msiRegs, List.mem_cons, List.not_mem_nil, or_false] at hr
    rcases hr with rfl | rfl | rfl | rfl | rfl | rfl <;> bv_omega
  have h1 := haligned r hr
  have h2 := haligned r' hr'
  have h3 : r.toNat ≠ r'.toNat := fun h => hne (BitVec.eq_of_toNat_eq h)
  exact devAddress_ne (by omega)

/-- The writes of `__device_MSI_init`: with an upper half of the address, and with a mask. -/
def msiWrites (p : BitVec 8) (reg : BitVec 32) (vector : BitVec 8) (w m : Bool) :
    List (BitVec 8 × BitVec 32) :=
  (p, reg) :: ((if w then [(8, 0)] else []) ++ ((if m then [(maskReg w p, 0)] else []) ++
    [(dataReg w p, vector.setWidth 32), (p + 4, 0xfee00000)]))

/-- Writes to registers of a device, one after the other. -/
def regWrites (hw : BitVec 32 → BitVec 32 → BitVec 32 → BitVec 32) (dev : PciDevice) (x : Ports)
    (l : List (BitVec 8 × BitVec 32)) : Ports := l.foldl (fun x w => pciDevRegWrite hw x dev w.1 w.2) x

theorem msiProgram_config {reg : BitVec 32} : (msiProgram hw x dev p reg vector).config =
    (regWrites hw dev x (msiWrites p reg vector (reg.getLsbD 23) (reg.getLsbD 24))).config := by
  have hwide : (reg &&& 1#32 <<< 23 ≠ 0) = (reg.getLsbD 23 = true) := propext (and_bit_ne_zero (by decide))
  have hmask : ((reg >>> 24) &&& 1 ≠ 0) = (reg.getLsbD 24 = true) := propext shift_bit_ne_zero
  unfold msiProgram msiWrites
  simp only [hwide, hmask, dataReg, maskReg]
  cases reg.getLsbD 23 <;> cases reg.getLsbD 24 <;> rfl

/-- A register that none of the writes is to. -/
theorem devReg_regWrites_ne {l : List (BitVec 8 × BitVec 32)}
    (h : ∀ w ∈ l, devAddress dev' r' ≠ devAddress dev w.1) :
    devReg (regWrites hw dev x l).config dev' r' = devReg x.config dev' r' := by
  induction l generalizing x with
  | nil => rfl
  | cons w l ih =>
    have hl := ih (x := pciDevRegWrite hw x dev w.1 w.2) fun w' hw' => h w' (List.mem_cons_of_mem w hw')
    exact hl.trans (devReg_write_ne hw (h w List.mem_cons_self))

/-- **Writes to different registers**: each holds what the device keeps of its write. -/
theorem devReg_regWrites {l : List (BitVec 8 × BitVec 32)}
    (hl : l.Pairwise fun w w' => devAddress dev w'.1 ≠ devAddress dev w.1) (hmem : (r, data) ∈ l) :
    devReg (regWrites hw dev x l).config dev r = hw (devAddress dev r) (devReg x.config dev r) data := by
  induction l generalizing x with
  | nil => cases hmem
  | cons w l ih =>
    obtain ⟨hw', hl⟩ := List.pairwise_cons.1 hl
    rcases List.mem_cons.1 hmem with rfl | hmem
    · have hrest : devReg (regWrites hw dev (pciDevRegWrite hw x dev r data) l).config dev r =
          devReg (pciDevRegWrite hw x dev r data).config dev r :=
        devReg_regWrites_ne hw fun w'' hw'' => (hw' w'' hw'').symm
      exact hrest.trans (devReg_write_self hw)
    · have hrest := ih (x := pciDevRegWrite hw x dev w.1 w.2) hl hmem
      rw [devReg_write_ne hw (hw' _ hmem)] at hrest
      exact hrest

section Writes
variable {reg : BitVec 32} {w m : Bool}

theorem mem_msiRegs_of_write {e : BitVec 8 × BitVec 32} (he : e ∈ msiWrites p reg vector w m) :
    e.1 ∈ msiRegs p := by
  revert e
  unfold msiWrites dataReg maskReg
  cases w <;> cases m <;> simp [msiRegs]

/-- The writes are to different registers. -/
theorem msiWrites_pairwise (hp : Placed p) :
    (msiWrites p reg vector w m).Pairwise fun e e' => devAddress dev e'.1 ≠ devAddress dev e.1 := by
  have hbehind := hp.behind
  have hin := hp.inside
  have hne : (msiWrites p reg vector w m).Pairwise fun e e' => e'.1 ≠ e.1 := by
    unfold msiWrites dataReg maskReg
    cases w <;> cases m <;>
      simp only [Bool.false_eq_true, if_true, if_false, List.nil_append, List.cons_append,
        List.pairwise_cons, List.mem_cons, List.not_mem_nil, or_false, forall_eq_or_imp, forall_eq,
        List.Pairwise.nil, and_true, IsEmpty.forall_iff, implies_true]
    all_goals bv_omega
  exact hne.imp_of_mem fun he he' h => hp.ne (mem_msiRegs_of_write he') (mem_msiRegs_of_write he) h

/-- The upper half of the address is not written to. -/
theorem msiWrites_upper (hp : Placed p) (h : e ∈ msiWrites p reg vector true m) :
    devAddress dev (p + 8) ≠ devAddress dev e.1 := by
  have hbehind := hp.behind
  have hin := hp.inside
  have hne : ∀ e ∈ msiWrites p reg vector true m, p + 8 ≠ e.1 := by
    unfold msiWrites dataReg maskReg
    cases m <;>
      simp only [Bool.false_eq_true, if_true, if_false, List.nil_append, List.cons_append, List.mem_cons,
        List.not_mem_nil, or_false, forall_eq_or_imp, forall_eq]
    all_goals bv_omega
  exact hp.ne (by simp [msiRegs]) (mem_msiRegs_of_write h) (hne e h)

end Writes

/-- **A device that has been set up** sends the vector.  The upper half of the address is what it was. -/
theorem message_msiProgram (hp : Placed p) (hregs : MsiRegs hw dev p (wide x.config dev p)) :
    message (msiProgram hw x dev p (devReg x.config dev p ||| 1#32 <<< 16) vector).config dev p =
      some ((if wide x.config dev p then devReg x.config dev (p + 8) else 0) ++ 0xfee00000#32, vector) := by
  obtain ⟨reg, hreg⟩ : ∃ reg, reg = devReg x.config dev p ||| 1#32 <<< 16 := ⟨_, rfl⟩
  obtain ⟨w, hw'⟩ : ∃ w, w = wide x.config dev p := ⟨_, rfl⟩
  obtain ⟨m, hm⟩ : ∃ m, m = (devReg x.config dev p).getLsbD 24 := ⟨_, rfl⟩
  have h23 : reg.getLsbD 23 = w := by
    rw [hreg, hw', BitVec.getLsbD_or]
    simp [wide]
  have h24 : reg.getLsbD 24 = m := by
    rw [hreg, hm, BitVec.getLsbD_or]
    simp
  have h16 : reg.getLsbD 16 = true := by
    rw [hreg, BitVec.getLsbD_or]
    simp
  rw [← hw'] at hregs ⊢
  rw [← hreg, msiProgram_config hw, h23, h24]
  obtain ⟨y, hy⟩ : ∃ y, y = (regWrites hw dev x (msiWrites p reg vector w m)).config := ⟨_, rfl⟩
  have hwrites (r : BitVec 8) (data : BitVec 32) (h : (r, data) ∈ msiWrites p reg vector w m) :
      devReg y dev r = hw (devAddress dev r) (devReg x.config dev r) data :=
    hy ▸ devReg_regWrites hw (msiWrites_pairwise hp) h
  rw [← hy]
  have hctl : devReg y dev p = hw (devAddress dev p) (devReg x.config dev p) reg :=
    hwrites p reg List.mem_cons_self
  have hwide : wide y dev p = w := by
    rw [wide, hctl, hregs.fixed _ _ 23 (by decide), hw']
    rfl
  have hon : ¬ (devReg y dev p).getLsbD 16 = false := by
    rw [hctl, hregs.enable, h16]
    decide
  have hmask : ¬ ((devReg y dev p).getLsbD 24 = true ∧ (devReg y dev (maskReg w p)).getLsbD 0 = true) := by
    rintro ⟨hm', h0⟩
    rw [hctl, hregs.fixed _ _ 24 (by decide), ← hm] at hm'
    rw [hwrites _ 0 (by simp [msiWrites, hm']), hregs.mask] at h0
    cases h0
  have haddr : devReg y dev (p + 4) = 0xfee00000#32 := by
    rw [hwrites _ 0xfee00000 (by simp [msiWrites])]
    exact hregs.address _
  have hdata : (devReg y dev (dataReg w p)).setWidth 8 = vector := by
    rw [hwrites _ (vector.setWidth 32) (by simp [msiWrites]), hregs.data]
  have hup : (if w then devReg y dev (p + 8) else 0) = if w then devReg x.config dev (p + 8) else 0 := by
    cases w with
    | false => rfl
    | true =>
      rw [hy]
      exact devReg_regWrites_ne hw fun e he => msiWrites_upper hp he
  unfold message
  dsimp only
  rw [hwide, if_neg hon, if_neg hmask, hup, haddr, hdata]

/-- **A device has its capability** at `p`, and what the list visits up to it lies behind the header. -/
structure HasMsi (hw : BitVec 32 → BitVec 32 → BitVec 32 → BitVec 32) (cfg : BitVec 32 → BitVec 32)
    (dev : PciDevice) (p : BitVec 8) : Prop where
  first : ∃ k, First (nextCap cfg dev) (Stops cfg dev capIdMsi) (firstCap cfg dev) k p ∧
    ∀ j ≤ k, 0x40 ≤ ((nextCap cfg dev)^[j] (firstCap cfg dev)).toNat
  placed : Placed p
  regs : MsiRegs hw dev p (wide cfg dev p)

/-- The capability is found in another configuration if only the command register differs. -/
theorem HasMsi.congr {c c' : BitVec 32 → BitVec 32} (h : HasMsi hw c dev p)
    (hc : ∀ r, r.toNat / 4 ≠ 1 → devReg c' dev r = devReg c dev r) : HasMsi hw c' dev p := by
  obtain ⟨⟨k, hk, hbehind⟩, hp, hregs⟩ := h
  have hsame (j : ℕ) (hj : j ≤ k) : devReg c' dev ((nextCap c dev)^[j] (firstCap c dev)) =
      devReg c dev ((nextCap c dev)^[j] (firstCap c dev)) := by
    have hptr := hbehind j hj
    exact hc _ (by omega)
  have hnext (j : ℕ) (hj : j ≤ k) : nextCap c' dev ((nextCap c dev)^[j] (firstCap c dev)) =
      nextCap c dev ((nextCap c dev)^[j] (firstCap c dev)) := by
    rw [nextCap, hsame j hj]
    rfl
  have hfirst : firstCap c' dev = firstCap c dev := by
    rw [firstCap, hc _ (by decide)]
    rfl
  have hwide : wide c' dev p = wide c dev p := by
    have hbehind := hp.behind
    rw [wide, hc _ (by omega)]
    rfl
  refine ⟨⟨k, ?_, fun j hj => ?_⟩, hp, hwide ▸ hregs⟩
  · rw [hfirst]
    refine hk.congr (fun j hj => hnext j hj.le) fun j hj => ?_
    unfold Stops capId
    rw [hsame j hj]
  · rw [hfirst, iterate_congr fun i hi => hnext i (hi.le.trans hj)]
    exact hbehind j hj

/-- The ports after the interrupt pin has been turned off. -/
def pinOff (hw : BitVec 32 → BitVec 32 → BitVec 32 → BitVec 32) (x : Ports) (dev : PciDevice) : Ports :=
  pciDevRegWrite hw (pciDevRegRead hw x dev configSpaceCmd).1 dev configSpaceCmd
    (devReg x.config dev configSpaceCmd ||| cmdBusIntDisable)

theorem deviceMsiInit_eq : deviceMsiInit hw x dev vector fuel =
    capabilitySearch hw (pinOff hw x dev) dev capIdMsi fuel >>= fun s =>
      if s.2 = capEndPtr then .ok (s.1, -1)
      else cassert (capId s.1.config dev s.2 = capIdMsi) "(reg & 0xff) == PCI_CAP_ID_MSI" >>= fun _ =>
        .ok (msiProgram hw (pciDevRegRead hw s.1 dev s.2).1 dev s.2
          (devReg s.1.config dev s.2 ||| 1#32 <<< 16) vector, 0) := rfl

/-- The other registers, when the pin is turned off. -/
theorem pinOff_reg (h : r.toNat / 4 ≠ 1) :
    devReg (pinOff hw x dev).config dev r = devReg x.config dev r :=
  devReg_write_ne hw (devAddress_ne h)

/-- **Nothing changes for another function.** -/
theorem deviceMsiInit_apart {n : ℤ} (h : deviceMsiInit hw x dev vector fuel = .ok (y, n))
    (ha : Apart dev' dev) : devReg y.config dev' r' = devReg x.config dev' r' := by
  have hpin : devReg (pinOff hw x dev).config dev' r' = devReg x.config dev' r' :=
    devReg_write_ne hw (devAddress_apart ha)
  rw [deviceMsiInit_eq] at h
  obtain ⟨⟨z, q⟩, hs, h⟩ := bind_eq_ok.1 h
  obtain ⟨hz, -⟩ := first_of_capabilitySearch hw rfl hs
  rw [← hpin, ← hz]
  dsimp only at h
  split_ifs at h
  · cases h
    rfl
  · obtain ⟨-, h⟩ := cassert_bind_eq_ok.1 h
    cases h
    exact msiProgram_apart hw ha

/-- **`__device_MSI_init` of a device that has the capability**: it returns 0, and the device sends the
    vector. -/
theorem deviceMsiInit_spec (h : HasMsi hw x.config dev p) :
    (∃ b, ∀ fuel ≥ b, ∃ y, deviceMsiInit hw x dev vector fuel = .ok (y, 0)) ∧
    ∀ fuel y n, deviceMsiInit hw x dev vector fuel = .ok (y, n) → n = 0 ∧
      message y.config dev p = some
        ((if wide x.config dev p then devReg x.config dev (p + 8) else 0) ++ 0xfee00000#32, vector) := by
  have hpin := h.congr hw fun r hr => pinOff_reg hw (x := x) hr
  obtain ⟨k, hk, -⟩ := hpin.first
  have hbehind := h.placed.behind
  have hne : p ≠ capEndPtr := by
    rintro rfl
    exact absurd hbehind (by decide)
  have hid : capId (pinOff hw x dev).config dev p = capIdMsi := hk.ends.resolve_left hne
  refine ⟨⟨k + 1, fun fuel hf => ?_⟩, fun fuel y n hrun => ?_⟩
  · obtain ⟨z, hs, hz⟩ := capabilitySearch_first hw rfl hk (Nat.lt_of_succ_le hf)
    rw [deviceMsiInit_eq, hs, ok_bind, if_neg hne, cassert_pos (hz ▸ hid)]
    exact ⟨_, rfl⟩
  · rw [deviceMsiInit_eq] at hrun
    obtain ⟨⟨z, q⟩, hs, hrun⟩ := bind_eq_ok.1 hrun
    obtain ⟨hz, k', hk'⟩ := first_of_capabilitySearch hw rfl hs
    obtain ⟨-, rfl⟩ := hk.unique hk'
    dsimp only at hrun hz
    rw [if_neg hne] at hrun
    obtain ⟨-, hrun⟩ := cassert_bind_eq_ok.1 hrun
    cases hrun
    have hregs := hpin.regs
    rw [← hz] at hregs
    have hmsg : message (msiProgram hw (pciDevRegRead hw z dev p).1 dev p (devReg z.config dev p ||| 1#32 <<< 16)
        vector).config dev p = _ := message_msiProgram hw h.placed hregs
    have hwide : wide (pinOff hw x dev).config dev p = wide x.config dev p := by
      rw [wide, pinOff_reg hw (by omega)]
      rfl
    have hupper : devReg (pinOff hw x dev).config dev (p + 8) = devReg x.config dev (p + 8) := by
      have hin := h.placed.inside
      exact pinOff_reg hw (by bv_omega)
    rw [pciDevRegRead_config, hz, hwide, hupper] at hmsg
    rw [hz]
    exact ⟨rfl, hmsg⟩

end Message

end Rdix.Pci
