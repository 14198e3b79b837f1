/-
  Interrupts on their way to a handler (kernel/interrupt.c; kernel/apic.c; kernel/handlers.asm).

  A line of the I/O APIC has an entry with a vector and a mask; a device with message signalled interrupts
  sends the vector itself.  The processor looks up the gate of the vector, whose code calls the function
  of the table.

  * `idtInit`, `installInt`, `installMsiInt`, `setIntMask`: the code;
  * `handles`: what the processor runs for a vector, `lineHandles` what it runs for a line;
  * `irqSys`: any order of calls after `idt_init`;
  * `gates_stay`: the exceptions are handled by the kernel, and a program enters it by a system call only;
  * `line_routed`: a line that is not masked runs the handler it was last given;
  * `msi_routed`: so does a device that sends messages.
-/
import Rdix.Kernel.Msi
import Rdix.Lib.BitField
import Rdix.Lib.Loop
import Rdix.Lib.Trace

namespace Rdix.Irq

open Function BitField Transition

/-! ## The tables -/

/-- `INT_SIZE`. -/
abbrev intSize : ℕ := 0x40

scoped instance : NeZero intSize := ⟨by decide⟩

/-- `INTEL_INT_RESERVED`, and `START_INT_NUM`. -/
abbrev intelIntReserved : ℕ := 0x20

/-- `IOAPIC_IRQ_NUM`. -/
abbrev ioapicIrqNum : ℕ := 0x18

/-- `MSI_INT_START`. -/
abbrev msiIntStart : ℕ := intelIntReserved + ioapicIrqNum

/-- `__IOREDTBL_MASK`. -/
abbrev ioredtblMask : BitVec 32 := 1 <<< 16

namespace Gate

/-! The fields of a `gate_t`. -/

abbrev offsetL : BitField.Field := ⟨0, 16⟩
abbrev selector : BitField.Field := ⟨16, 16⟩
abbrev reserved : BitField.Field := ⟨32, 8⟩
abbrev type : BitField.Field := ⟨40, 4⟩
abbrev segment : BitField.Field := ⟨44, 1⟩
abbrev dpl : BitField.Field := ⟨45, 2⟩
abbrev present : BitField.Field := ⟨47, 1⟩
abbrev offsetH : BitField.Field := ⟨48, 16⟩

end Gate

/-- The functions of `interrupt_func_table`. -/
inductive Handler (H : Type) where
  | sysException
  | pageFault
  | defaultException
  /-- a function that a driver has installed -/
  | installed (handler : H)
deriving DecidableEq

/-- The I/O APIC: the register that is selected, and its registers. -/
structure IoApic where
  select : BitVec 32
  regs : BitVec 8 → BitVec 32

structure Irqs (H : Type) where
  /-- the entries of `irq_override_tab` in use -/
  irq_override_tab : List (BitVec 8 × BitVec 8)
  interrupt_func_table : Fin intSize → Handler H
  idt_table : BitVec 8 → BitVec 64
  ioapic : IoApic
  pci : Pci.Ports

variable {H : Type}

/-- A gate is written: `idt_init` does it for the handlers and for the system call. -/
def setGate (gate : BitVec 64) (offset : BitVec 32) (DPL : BitVec 2) : BitVec 64 :=
  let gate := Gate.offsetL.set gate (offset.setWidth 16)
  let gate := Gate.offsetH.set gate ((offset >>> 16).setWidth 16)
  -- the code segment of the kernel
  let gate := Gate.selector.set gate (1 <<< 3)
  let gate := Gate.reserved.set gate 0
  let gate := Gate.type.set gate 0xe
  let gate := Gate.segment.set gate 0
  let gate := Gate.dpl.set gate DPL
  Gate.present.set gate 1

/-- `idt_init`, which takes the addresses of the code in handlers.asm. -/
def idtInit (handler_table : Fin intSize → BitVec 32) (syscall_handle : BitVec 32) (s : Irqs H) : Irqs H :=
  let idt_table := (List.finRange intSize).foldl (fun idt i =>
    update idt (.ofNat 8 i) (setGate (idt (.ofNat 8 i)) (handler_table i) 0)) fun _ => 0
  let idt_table := update idt_table 0x80 (setGate (idt_table 0x80) syscall_handle 3)
  let funcs := (List.finRange intSize).foldl (fun t i =>
    if i.val < intelIntReserved then update t i .sysException else t) s.interrupt_func_table
  let funcs := update funcs 0xe .pageFault
  let funcs := (List.finRange intSize).foldl (fun t i =>
    if intelIntReserved ≤ i.val then update t i .defaultException else t) funcs
  { s with idt_table := idt_table, interrupt_func_table := funcs }

/-! ## Handlers are installed -/

section Functions
/- What the registers of the I/O APIC, and those of the PCI devices, hold after a write. -/
variable (io : BitVec 8 → BitVec 32 → BitVec 32 → BitVec 32)
  (hw : BitVec 32 → BitVec 32 → BitVec 32 → BitVec 32)

def ioapicRegRead (x : IoApic) (offset : BitVec 32) : IoApic × BitVec 32 :=
  ({ x with select := offset }, x.regs (offset.setWidth 8))

def ioapicRegWrite (x : IoApic) (offset data : BitVec 32) : IoApic where
  select := offset
  regs := update x.regs (offset.setWidth 8) (io (offset.setWidth 8) (x.regs (offset.setWidth 8)) data)

def irqOverride (tab : List (BitVec 8 × BitVec 8)) (old_irq : BitVec 8) : BitVec 8 :=
  match tab.find? fun e => old_irq = e.1 with
  | some e => e.2
  | none => old_irq

def setIoredtbl (x : IoApic) (irq dest : BitVec 8) (flag : BitVec 32) (vector : BitVec 8) : IoApic :=
  let offset := irq.setWidth 32 * 2 + 0x10
  let flag := flag &&& 0x1ff00
  let x := ioapicRegWrite io x offset (vector.setWidth 32 ||| flag)
  ioapicRegWrite io x (offset + 1) (dest.setWidth 32 <<< 24)

/-- `interrupt_func_table[idx] = handler`. -/
def setFunc (s : Irqs H) (idx : ℕ) (handler : H) : C (Irqs H) :=
  if h : idx < intSize then
    .ok { s with interrupt_func_table := update s.interrupt_func_table ⟨idx, h⟩ (.installed handler) }
  else .error (.wild "interrupt_func_table")

def installInt (s : Irqs H) (old_irq dest : BitVec 8) (flag : BitVec 32) (handler : H) : C (Irqs H) := do
  let new_irq := irqOverride s.irq_override_tab old_irq
  let vector := new_irq + .ofNat 8 intelIntReserved
  let s ← setFunc s (new_irq.toNat + 0x20) handler
  return { s with ioapic := setIoredtbl io s.ioapic new_irq dest flag vector }

def installMsiInt (s : Irqs H) (pci_dev : Pci.PciDevice) (vector : BitVec 8) (handler : H) (fuel : ℕ) :
    C (Irqs H × ℤ) := do
  let s ← setFunc s vector.toNat handler
  let (pci, r) ← Pci.deviceMsiInit hw s.pci pci_dev vector fuel
  return ({ s with pci := pci }, r)

def setIntMask (s : Irqs H) (irq : BitVec 32) (enable : Bool) : Irqs H :=
  let new_irq := irqOverride s.irq_override_tab (irq.setWidth 8)
  let offset := new_irq.setWidth 32 * 2 + 0x10
  let r := ioapicRegRead s.ioapic (new_irq.setWidth 32 * 2 + 0x10)
  let lo := if enable then r.2 &&& ~~~ioredtblMask else r.2 ||| ioredtblMask
  { s with ioapic := ioapicRegWrite io r.1 offset lo }

end Functions

/-! ## What the hardware does -/

/-- What the code at an address in handlers.asm does. -/
inductive Entry where
  /-- it calls the function of the table -/
  | interrupt (n : Fin intSize)
  | syscall
deriving DecidableEq

section Hardware
variable (text : BitVec 32 → Option Entry)

/-- The address in a gate. -/
def gateOffset (gate : BitVec 64) : BitVec 32 := Gate.offsetH.get gate ++ Gate.offsetL.get gate

/-- The code that the processor enters for a vector, if its gate is present. -/
def entered (s : Irqs H) (vector : BitVec 8) : Option Entry :=
  if Gate.present.get (s.idt_table vector) = 1 then text (gateOffset (s.idt_table vector)) else none

/-- `int vector` in a program: the gate must admit the privilege level 3. -/
def userEntered (s : Irqs H) (vector : BitVec 8) : Option Entry :=
  if Gate.dpl.get (s.idt_table vector) = 3 then entered text s vector else none

/-- The function that is called for a vector. -/
def handles (s : Irqs H) (vector : BitVec 8) : Option (Handler H) :=
  match entered text s vector with
  | some (.interrupt n) => some (s.interrupt_func_table n)
  | _ => none

/-- The register of the entry of a line. -/
def lineReg (line : ℕ) : BitVec 8 := .ofNat 8 (2 * line + 0x10)

/-- The function that is called for a line: its entry must not be masked, and be one with a vector. -/
def lineHandles (s : Irqs H) (line : ℕ) : Option (Handler H) :=
  let lo := s.ioapic.regs (lineReg line)
  if lo.getLsbD 16 = true ∨ (lo >>> 8).setWidth 3 ≠ 0#3 then none else handles text s (lo.setWidth 8)

/-- **The I/O APIC keeps** the vector, the kind and the mask of an entry. -/
def KeepsEntries (io : BitVec 8 → BitVec 32 → BitVec 32 → BitVec 32) : Prop :=
  ∀ line < ioapicIrqNum, ∀ old data, ∀ i, i < 11 ∨ i = 16 →
    (io (lineReg line) old data).getLsbD i = data.getLsbD i

/-- **The addresses are those of the code.** -/
structure Linked (text : BitVec 32 → Option Entry) (handler_table : Fin intSize → BitVec 32)
    (syscall_handle : BitVec 32) : Prop where
  interrupt : ∀ n, text (handler_table n) = some (.interrupt n)
  syscall : text syscall_handle = some .syscall

end Hardware

/-! ## The calls in any order -/

inductive IrqAct (H : Type) where
  | install (irq dest : BitVec 8) (flag : BitVec 32) (handler : H)
  | installMsi (dev : Pci.PciDevice) (vector : BitVec 8) (handler : H)
  | mask (irq : BitVec 32) (enable : Bool)

section System
variable (io : BitVec 8 → BitVec 32 → BitVec 32 → BitVec 32)
  (hw : BitVec 32 → BitVec 32 → BitVec 32 → BitVec 32) (handler_table : Fin intSize → BitVec 32)
  (syscall_handle : BitVec 32)

/-- The lines are those of the I/O APIC, and the messages have the vectors behind them. -/
def irqSys : Sys (Irqs H) (IrqAct H) where
  init s := ∃ s₀, s = idtInit handler_table syscall_handle s₀
  step s a s' := match a with
    | .install irq dest flag handler =>
      (irqOverride s.irq_override_tab irq).toNat < ioapicIrqNum ∧
        installInt io s irq dest flag handler = .ok s'
    | .installMsi dev vector handler =>
      msiIntStart ≤ vector.toNat ∧ ∃ fuel r, installMsiInt hw s dev vector handler fuel = .ok (s', r)
    | .mask irq enable =>
      (irqOverride s.irq_override_tab (irq.setWidth 8)).toNat < ioapicIrqNum ∧ s' = setIntMask io s irq enable

end System

/-! ## The gates -/

section Gates
variable {text : BitVec 32 → Option Entry} {handler_table : Fin intSize → BitVec 32}
  {syscall_handle offset : BitVec 32} {s s₀ : Irqs H} {v : BitVec 8}

@[simp] theorem gateOffset_setGate (g : BitVec 64) (offset : BitVec 32) (d : BitVec 2) :
    gateOffset (setGate g offset d) = offset := by
  have hlow : Gate.offsetL.get (setGate g offset d) = offset.setWidth 16 := by
    simp (disch := decide) [setGate, BitField.Field.get_set, BitField.Field.get_set_of_disjoint]
  have hhigh : Gate.offsetH.get (setGate g offset d) = (offset >>> 16).setWidth 16 := by
    simp (disch := decide) [setGate, BitField.Field.get_set, BitField.Field.get_set_of_disjoint]
  rw [gateOffset, hlow, hhigh]
  refine BitVec.eq_of_getLsbD_eq fun i hi => ?_
  rw [BitVec.getLsbD_append]
  by_cases hlt : i < 16
  · simp [hlt]
  · have hi' : i < 32 := hi
    have hlt' : i - 16 < 16 := by omega
    simp [hlt, hlt', Nat.add_sub_of_le (not_lt.1 hlt)]

@[simp] theorem dpl_setGate (g : BitVec 64) (offset : BitVec 32) (d : BitVec 2) :
    Gate.dpl.get (setGate g offset d) = d := by
  simp (disch := decide) [setGate, BitField.Field.get_set, BitField.Field.get_set_of_disjoint]

@[simp] theorem present_setGate (g : BitVec 64) (offset : BitVec 32) (d : BitVec 2) :
    Gate.present.get (setGate g offset d) = 1 := by
  simp (disch := decide) [setGate, BitField.Field.get_set]

theorem ofNat_nodup : ((List.finRange intSize).map fun i : Fin intSize => BitVec.ofNat 8 i.val).Nodup := by
  refine (List.nodup_finRange intSize).map fun i j he => Fin.ext ?_
  have h := congrArg BitVec.toNat he
  have hi : i.val < 64 := i.isLt
  have hj : j.val < 64 := j.isLt
  simp only [BitVec.toNat_ofNat] at h
  omega

/-- The gates: those of the handlers are the kernel's own, and that of the system call is for programs. -/
def gateTable (handler_table : Fin intSize → BitVec 32) (syscall_handle : BitVec 32) (v : BitVec 8) :
    BitVec 64 :=
  if h : v.toNat < intSize then setGate 0 (handler_table ⟨v.toNat, h⟩) 0
  else if v = 0x80 then setGate 0 syscall_handle 3 else 0

theorem idtInit_gate (handler_table : Fin intSize → BitVec 32) (syscall_handle : BitVec 32) (s : Irqs H) :
    (idtInit handler_table syscall_handle s).idt_table = gateTable handler_table syscall_handle := by
  funext v
  obtain ⟨hin, hout⟩ := Loop.foldl_update (g := fun i gate => setGate gate (handler_table i) 0) ofNat_nodup
    fun _ => (0 : BitVec 64)
  have hnot (w : BitVec 8) (hw : intSize ≤ w.toNat) :
      w ∉ (List.finRange intSize).map fun i : Fin intSize => BitVec.ofNat 8 i.val := by
    intro hmem
    obtain ⟨i, -, rfl⟩ := List.mem_map.1 hmem
    have hi : i.val < 64 := i.isLt
    have hw' : 64 ≤ (BitVec.ofNat 8 i.val).toNat := hw
    rw [BitVec.toNat_ofNat] at hw'
    omega
  unfold idtInit gateTable
  dsimp only
  by_cases h : v.toNat < intSize
  · have hne : v ≠ 0x80 := by
      rintro rfl
      exact absurd h (by decide)
    have hv : BitVec.ofNat 8 (⟨v.toNat, h⟩ : Fin intSize).val = v := BitVec.eq_of_toNat_eq (by simp)
    have hgate := hin ⟨v.toNat, h⟩ (List.mem_finRange _)
    rw [hv] at hgate
    rw [dif_pos h, update_of_ne hne]
    exact hgate
  · rw [dif_neg h]
    by_cases hv : v = 0x80
    · rw [if_pos hv, hv, update_self, hout _ (hnot 0x80 (by decide))]
    · rw [if_neg hv, update_of_ne hv]
      exact hout v (hnot v (not_lt.1 h))

/-- The function of an exception. -/
def exceptionHandler (n : ℕ) : Handler H := if n = 0xe then .pageFault else .sysException

theorem idtInit_func (handler_table : Fin intSize → BitVec 32) (syscall_handle : BitVec 32) (s : Irqs H)
    (n : Fin intSize) : (idtInit handler_table syscall_handle s).interrupt_func_table n =
      if n.val < intelIntReserved then exceptionHandler n.val else .defaultException := by
  have hwrite (p : Fin intSize → Prop) [DecidablePred p] (c : Handler H) (t : Fin intSize → Handler H) :
      (List.finRange intSize).foldl (fun t i => if p i then update t i c else t) t n =
        if p n then c else t n := by
    have hturn : (fun (t : Fin intSize → Handler H) i => if p i then update t i c else t) =
        fun t i => update t i (if p i then c else t i) := by
      funext t i
      split_ifs
      · rfl
      · exact (update_eq_self ..).symm
    rw [hturn]
    exact (Loop.foldl_update (g := fun i old => if p i then c else old)
      ((List.map_id _).symm ▸ List.nodup_finRange _) t).1 n (List.mem_finRange n)
  unfold idtInit
  dsimp only
  rw [hwrite]
  by_cases hn : n.val < intelIntReserved
  · rw [if_neg (not_le.2 hn), if_pos hn]
    unfold exceptionHandler
    by_cases he : n.val = 0xe
    · rw [if_pos he, show n = 0xe from Fin.ext he, update_self]
    · rw [if_neg he, update_of_ne fun h => he (congrArg Fin.val h), hwrite, if_pos hn]
  · rw [if_pos (not_lt.1 hn), if_neg hn]

/-- What the processor enters by the gates. -/
theorem entered_gateTable (hl : Linked text handler_table syscall_handle)
    (h : s.idt_table = gateTable handler_table syscall_handle) (v : BitVec 8) : entered text s v =
      if h : v.toNat < intSize then some (.interrupt ⟨v.toNat, h⟩)
      else if v = 0x80 then some .syscall else none := by
  unfold entered
  rw [h, gateTable]
  by_cases hv : v.toNat < intSize
  · rw [dif_pos hv, dif_pos hv, if_pos (present_setGate ..), gateOffset_setGate, hl.interrupt]
  · rw [dif_neg hv, dif_neg hv]
    by_cases h80 : v = 0x80
    · rw [if_pos h80, if_pos h80, if_pos (present_setGate ..), gateOffset_setGate, hl.syscall]
    · rw [if_neg h80, if_neg h80, if_neg (by decide)]

/-- **A program enters the kernel by a system call** only. -/
theorem userEntered_gateTable (hl : Linked text handler_table syscall_handle)
    (h : s.idt_table = gateTable handler_table syscall_handle) (v : BitVec 8) :
    userEntered text s v = if v = 0x80 then some .syscall else none := by
  unfold userEntered
  rw [entered_gateTable hl h, h, gateTable]
  by_cases hv : v.toNat < intSize
  · have hne : v ≠ 0x80 := by
      rintro rfl
      exact absurd hv (by decide)
    rw [dif_pos hv, dpl_setGate, if_neg (by decide), if_neg hne]
  · rw [dif_neg hv, dif_neg hv]
    by_cases h80 : v = 0x80
    · rw [if_pos h80, if_pos h80, dpl_setGate, if_pos rfl]
    · rw [if_neg h80, if_neg h80, ite_self]

/-- The function of the table is called. -/
theorem handles_gateTable (hl : Linked text handler_table syscall_handle)
    (h : s.idt_table = gateTable handler_table syscall_handle) (v : BitVec 8) : handles text s v =
      if h : v.toNat < intSize then some (s.interrupt_func_table ⟨v.toNat, h⟩) else none := by
  unfold handles
  rw [entered_gateTable hl h]
  by_cases hv : v.toNat < intSize
  · rw [dif_pos hv, dif_pos hv]
  · rw [dif_neg hv, dif_neg hv]
    split_ifs <;> rfl

end Gates

/-! ## What a call changes -/

section Calls
variable (io : BitVec 8 → BitVec 32 → BitVec 32 → BitVec 32)
  (hw : BitVec 32 → BitVec 32 → BitVec 32 → BitVec 32) {s s' : Irqs H} {irq dest vector : BitVec 8}
  {flag : BitVec 32} {handler : H} {idx fuel : ℕ} {dev : Pci.PciDevice} {n : ℤ}

theorem setFunc_cases (h : setFunc s idx handler = .ok s') : ∃ hi : idx < intSize,
    s' = { s with interrupt_func_table := update s.interrupt_func_table ⟨idx, hi⟩ (.installed handler) } := by
  unfold setFunc at h
  split_ifs at h with hi
  exact ⟨hi, (Except.ok.inj h).symm⟩

theorem installInt_cases (h : installInt io s irq dest flag handler = .ok s') :
    ∃ hi : (irqOverride s.irq_override_tab irq).toNat + 0x20 < intSize, s' =
      { s with
        interrupt_func_table := update s.interrupt_func_table
          ⟨(irqOverride s.irq_override_tab irq).toNat + 0x20, hi⟩ (.installed handler)
        ioapic := setIoredtbl io s.ioapic (irqOverride s.irq_override_tab irq) dest flag
          (irqOverride s.irq_override_tab irq + .ofNat 8 intelIntReserved) } := by
  obtain ⟨t, ht, h⟩ := bind_eq_ok.1 h
  obtain ⟨hi, rfl⟩ := setFunc_cases ht
  exact ⟨hi, (Except.ok.inj h).symm⟩

theorem installMsiInt_cases (h : installMsiInt hw s dev vector handler fuel = .ok (s', n)) :
    ∃ (hi : vector.toNat < intSize) (pci : Pci.Ports), Pci.deviceMsiInit hw s.pci dev vector fuel = .ok (pci, n) ∧
      s' = { s with
        interrupt_func_table := update s.interrupt_func_table ⟨vector.toNat, hi⟩ (.installed handler)
        pci := pci } := by
  obtain ⟨t, ht, h⟩ := bind_eq_ok.1 h
  obtain ⟨hi, rfl⟩ := setFunc_cases ht
  obtain ⟨⟨pci, m⟩, hpci, h⟩ := bind_eq_ok.1 h
  cases h
  exact ⟨hi, pci, hpci, rfl⟩

end Calls

section Entries
variable {io : BitVec 8 → BitVec 32 → BitVec 32 → BitVec 32} {x : IoApic} {irq dest vector : BitVec 8}
  {flag data offset : BitVec 32} {s : Irqs H} {line line' : ℕ}

/-- The entry of a line is at an even register. -/
theorem setWidth_offset (irq : BitVec 8) :
    (irq.setWidth 32 * 2 + 0x10 : BitVec 32).setWidth 8 = lineReg irq.toNat := by
  refine BitVec.eq_of_toNat_eq ?_
  have h := irq.isLt
  simp only [lineReg, BitVec.toNat_setWidth, BitVec.toNat_add, BitVec.toNat_mul, BitVec.ofNat_eq_ofNat,
    BitVec.toNat_ofNat]
  omega

/-- The destination is at the register behind the entry. -/
theorem setWidth_offset_succ (irq : BitVec 8) :
    (irq.setWidth 32 * 2 + 0x10 + 1 : BitVec 32).setWidth 8 = lineReg irq.toNat + 1 := by
  rw [BitVec.setWidth_add _ _ (by decide), setWidth_offset]
  rfl

theorem lineReg_ne (hl : line < ioapicIrqNum) (hl' : line' < ioapicIrqNum) (hne : line ≠ line') :
    lineReg line ≠ lineReg line' := by
  intro he
  have h := congrArg BitVec.toNat he
  have h1 : line < 24 := hl
  have h2 : line' < 24 := hl'
  simp only [lineReg, BitVec.toNat_ofNat] at h
  omega

theorem lineReg_ne_succ (line line' : ℕ) : lineReg line ≠ lineReg line' + 1 := by
  intro he
  have h := congrArg BitVec.toNat he
  simp only [lineReg, BitVec.ofNat_eq_ofNat, BitVec.toNat_ofNat, BitVec.toNat_add] at h
  omega

/-- **An entry that is set**: the others stay. -/
theorem setIoredtbl_regs (irq : BitVec 8) : (setIoredtbl io x irq dest flag vector).regs (lineReg line) =
    if lineReg line = lineReg irq.toNat then io (lineReg irq.toNat) (x.regs (lineReg irq.toNat))
      (vector.setWidth 32 ||| flag &&& 0x1ff00) else x.regs (lineReg line) := by
  unfold setIoredtbl ioapicRegWrite
  dsimp only
  rw [setWidth_offset_succ, setWidth_offset, update_of_ne (lineReg_ne_succ line irq.toNat)]
  by_cases h : lineReg line = lineReg irq.toNat
  · rw [if_pos h, h, update_self]
  · rw [if_neg h, update_of_ne h]

theorem setIntMask_regs (irq : BitVec 32) (enable : Bool) :
    (setIntMask io s irq enable).ioapic.regs (lineReg line) =
      let g := (irqOverride s.irq_override_tab (irq.setWidth 8)).toNat
      let lo := s.ioapic.regs (lineReg g)
      if lineReg line = lineReg g then
        io (lineReg g) lo (if enable then lo &&& ~~~ioredtblMask else lo ||| ioredtblMask)
      else s.ioapic.regs (lineReg line) := by
  unfold setIntMask ioapicRegWrite ioapicRegRead
  dsimp only
  rw [setWidth_offset]
  by_cases h : lineReg line = lineReg (irqOverride s.irq_override_tab (irq.setWidth 8)).toNat
  · rw [if_pos h, h, update_self]
  · rw [if_neg h, update_of_ne h]

end Entries

/-! ## The exceptions -/

section Exceptions
variable (io : BitVec 8 → BitVec 32 → BitVec 32 → BitVec 32)
  (hw : BitVec 32 → BitVec 32 → BitVec 32 → BitVec 32) (handler_table : Fin intSize → BitVec 32)
  (syscall_handle : BitVec 32) {text : BitVec 32 → Option Entry} {s s' : Irqs H} {a : IrqAct H}

/-- The gates are as `idt_init` has set them, and so are the functions of the exceptions. -/
structure IrqInv (handler_table : Fin intSize → BitVec 32) (syscall_handle : BitVec 32) (s : Irqs H) :
    Prop where
  gates : s.idt_table = gateTable handler_table syscall_handle
  exceptions : ∀ n : Fin intSize, n.val < intelIntReserved →
    s.interrupt_func_table n = exceptionHandler n.val

variable {handler_table syscall_handle}

/-- A function behind those of the exceptions is installed. -/
theorem IrqInv.update (h : IrqInv handler_table syscall_handle s) {idx : Fin intSize}
    (hi : intelIntReserved ≤ idx.val) {f : Handler H} {ioapic : IoApic} {pci : Pci.Ports} :
    IrqInv handler_table syscall_handle { s with
      interrupt_func_table := update s.interrupt_func_table idx f, ioapic := ioapic, pci := pci } := by
  refine ⟨h.gates, fun n hn => ?_⟩
  have hne : n ≠ idx := fun he => absurd hi (not_le.2 (he ▸ hn))
  exact (update_of_ne hne ..).trans (h.exceptions n hn)

theorem IrqInv.step (h : IrqInv handler_table syscall_handle s)
    (hs : (irqSys io hw handler_table syscall_handle).step s a s') :
    IrqInv handler_table syscall_handle s' := by
  cases a with
  | install irq dest flag handler =>
    obtain ⟨hi, rfl⟩ := installInt_cases io hs.2
    exact h.update (Nat.le_add_left ..)
  | installMsi dev vector handler =>
    obtain ⟨hv, fuel, n, hs⟩ := hs
    obtain ⟨hi, pci, -, rfl⟩ := installMsiInt_cases hw hs
    exact h.update ((by decide : intelIntReserved ≤ msiIntStart).trans hv)
  | mask irq enable =>
    obtain ⟨-, rfl⟩ := hs
    exact ⟨h.gates, h.exceptions⟩

theorem irqInv_reach (h : (irqSys io hw handler_table syscall_handle).Reach s) :
    IrqInv handler_table syscall_handle s := by
  refine h.invariant ?_ fun s a s' hs hstep => hs.step io hw hstep
  rintro s ⟨s₀, rfl⟩
  refine ⟨idtInit_gate .., fun n hn => ?_⟩
  rw [idtInit_func, if_pos hn]

/-- **Whatever is installed**, the exceptions are handled by the kernel, no vector behind the table has a
    handler, and a program enters the kernel by a system call only. -/
theorem gates_stay (hl : Linked text handler_table syscall_handle)
    (hreach : (irqSys io hw handler_table syscall_handle).Reach s) :
    (∀ v, v.toNat < intelIntReserved → handles text s v = some (exceptionHandler v.toNat)) ∧
    (∀ v, intSize ≤ v.toNat → handles text s v = none) ∧
    ∀ v, userEntered text s v = if v = 0x80 then some .syscall else none := by
  have h := irqInv_reach io hw hreach
  refine ⟨fun v hv => ?_, fun v hv => ?_, userEntered_gateTable hl h.gates⟩
  · have hlt : v.toNat < intSize := hv.trans (by decide)
    rw [handles_gateTable hl h.gates, dif_pos hlt, h.exceptions _ hv]
  · rw [handles_gateTable hl h.gates, dif_neg (not_lt.2 hv)]

end Exceptions

/-! ## Lines -/

section Lines
variable {io : BitVec 8 → BitVec 32 → BitVec 32 → BitVec 32}
  {hw : BitVec 32 → BitVec 32 → BitVec 32 → BitVec 32} {handler_table : Fin intSize → BitVec 32}
  {syscall_handle : BitVec 32} {text : BitVec 32 → Option Entry} {s s' : Irqs H} {a : IrqAct H}
  {line : ℕ} {handler : H} {m : Bool}

/-- The entry of a line has its vector and the mask `m`, and the handler is in the table. -/
structure Routed (line : ℕ) (handler : H) (s : Irqs H) (m : Bool) : Prop where
  entry : (s.ioapic.regs (lineReg line)).setWidth 11 = .ofNat 11 (line + 0x20)
  mask : (s.ioapic.regs (lineReg line)).getLsbD 16 = m
  func : ∀ h : line + 0x20 < intSize,
    s.interrupt_func_table ⟨line + 0x20, h⟩ = .installed handler

/-- **A line that is routed** runs its handler, unless it is masked. -/
theorem Routed.lineHandles (h : Routed line handler s m) (hl : Linked text handler_table syscall_handle)
    (hg : s.idt_table = gateTable handler_table syscall_handle) (hline : line < ioapicIrqNum) :
    lineHandles text s line = if m = true then none else some (.installed handler) := by
  have hlt : line < 24 := hline
  obtain ⟨lo, hlo⟩ : ∃ lo, lo = s.ioapic.regs (lineReg line) := ⟨_, rfl⟩
  have hentry := h.entry
  have hmask := h.mask
  rw [← hlo] at hentry hmask
  have hfixed : (lo >>> 8).setWidth 3 = 0#3 := by
    have hcut : (lo >>> 8).setWidth 3 = (lo.setWidth 11 >>> 8).setWidth 3 := by
      refine BitVec.eq_of_getLsbD_eq fun i hi => ?_
      have hi' : 8 + i < 11 := by omega
      simp [hi']
    rw [hcut, hentry]
    refine BitVec.eq_of_toNat_eq ?_
    simp only [BitVec.toNat_setWidth, BitVec.toNat_ushiftRight, BitVec.toNat_ofNat, Nat.shiftRight_eq_div_pow]
    omega
  have hvector : lo.setWidth 8 = .ofNat 8 (line + 0x20) := by
    have hcut : lo.setWidth 8 = (lo.setWidth 11).setWidth 8 := (BitVec.setWidth_setWidth_of_le _ (by decide)).symm
    rw [hcut, hentry]
    refine BitVec.eq_of_toNat_eq ?_
    simp only [BitVec.toNat_setWidth, BitVec.toNat_ofNat]
    omega
  have hnat : (BitVec.ofNat 8 (line + 0x20)).toNat = line + 0x20 := by
    rw [BitVec.toNat_ofNat]
    exact Nat.mod_eq_of_lt (by omega)
  have hin : line + 0x20 < intSize := by
    change line + 32 < 64
    omega
  unfold Irq.lineHandles
  dsimp only
  rw [← hlo, hmask, hvector, handles_gateTable hl hg]
  cases m with
  | true => rw [if_pos (Or.inl rfl), if_pos rfl]
  | false =>
    have hopen : ¬ (false = true ∨ (lo >>> 8).setWidth 3 ≠ 0#3) := by simp [hfixed]
    rw [if_neg hopen, if_neg (by decide), dif_pos (hnat.symm ▸ hin)]
    simp only [hnat, h.func hin]

/-- What is written to the entry of a line. -/
theorem entry_data {flag : BitVec 32} {irq : BitVec 8} (hflag : flag &&& 0x700 = 0)
    (hlt : irq.toNat < ioapicIrqNum) :
    ((irq + .ofNat 8 intelIntReserved).setWidth 32 ||| flag &&& 0x1ff00).setWidth 11 =
      BitVec.ofNat 11 (irq.toNat + 0x20) := by
  have hlt' : irq.toNat < 24 := hlt
  have hzero : (flag &&& 0x1ff00).setWidth 11 = 0#11 := by
    have hmask : (0x1ff00 : BitVec 32).setWidth 11 = (0x700 : BitVec 32).setWidth 11 := rfl
    rw [BitVec.setWidth_and, hmask, ← BitVec.setWidth_and, hflag]
    rfl
  rw [BitVec.setWidth_or, hzero, BitVec.or_zero]
  refine BitVec.eq_of_toNat_eq ?_
  have hstart : intelIntReserved = 0x20 := rfl
  simp only [BitVec.toNat_setWidth, BitVec.toNat_add, BitVec.toNat_ofNat, hstart]
  omega

/-- **A handler is installed.** -/
theorem routed_install {irq dest : BitVec 8} {flag : BitVec 32} (hio : KeepsEntries io)
    (hflag : flag &&& 0x700 = 0) (hline : (irqOverride s.irq_override_tab irq).toNat < ioapicIrqNum)
    (h : installInt io s irq dest flag handler = .ok s') :
    Routed (irqOverride s.irq_override_tab irq).toNat handler s' (flag.getLsbD 16) := by
  obtain ⟨hi, rfl⟩ := installInt_cases io h
  have hkeep (i : ℕ) (hi : i < 11 ∨ i = 16) := hio _ hline
    (s.ioapic.regs (lineReg (irqOverride s.irq_override_tab irq).toNat))
    ((irqOverride s.irq_override_tab irq + .ofNat 8 intelIntReserved).setWidth 32 ||| flag &&& 0x1ff00) i hi
  refine ⟨?_, ?_, fun _ => update_self ..⟩
  · dsimp only
    rw [setIoredtbl_regs, if_pos rfl, ← entry_data hflag hline]
    refine BitVec.eq_of_getLsbD_eq fun i hi => ?_
    rw [BitVec.getLsbD_setWidth, BitVec.getLsbD_setWidth, hkeep i (Or.inl hi)]
  · dsimp only
    rw [setIoredtbl_regs, if_pos rfl, hkeep 16 (Or.inr rfl)]
    simp

/-- The line gets no other handler. -/
def SparesLine (tab : List (BitVec 8 × BitVec 8)) (line : ℕ) : IrqAct H → Prop
  | .install irq _ _ _ => (irqOverride tab irq).toNat ≠ line
  | _ => True

/-- The mask of the line after a call. -/
def maskBy (tab : List (BitVec 8 × BitVec 8)) (line : ℕ) (m : Bool) : IrqAct H → Bool
  | .mask irq enable => if (irqOverride tab (irq.setWidth 8)).toNat = line then !enable else m
  | _ => m

theorem bit_mask {lo : BitVec 32} {enable : Bool} {i : ℕ} (hi : i < 32) :
    (if enable then lo &&& ~~~ioredtblMask else lo ||| ioredtblMask).getLsbD i =
      if i = 16 then !enable else lo.getLsbD i := by
  have hone : ioredtblMask = BitVec.twoPow 32 16 := rfl
  cases enable <;> by_cases h : i = 16 <;> simp [hone, h, hi]

/-- A call that gives the line no other handler. -/
theorem Routed.step (hio : KeepsEntries io) (hline : line < ioapicIrqNum)
    (hs : (irqSys io hw handler_table syscall_handle).step s a s')
    (hspare : SparesLine s.irq_override_tab line a) (h : Routed line handler s m) :
    Routed line handler s' (maskBy s.irq_override_tab line m a) := by
  have hlt : line < 24 := hline
  cases a with
  | install irq dest flag handler' =>
    obtain ⟨hirq, hs⟩ := hs
    obtain ⟨hi, rfl⟩ := installInt_cases io hs
    have hne : line ≠ (irqOverride s.irq_override_tab irq).toNat := Ne.symm hspare
    have hreg : (setIoredtbl io s.ioapic (irqOverride s.irq_override_tab irq) dest flag
        (irqOverride s.irq_override_tab irq + .ofNat 8 intelIntReserved)).regs (lineReg line) =
          s.ioapic.regs (lineReg line) := by
      rw [setIoredtbl_regs, if_neg (lineReg_ne hline hirq hne)]
    refine ⟨?_, ?_, fun hin => ?_⟩
    · rw [← h.entry]
      exact congrArg _ hreg
    · exact (congrArg (BitVec.getLsbD · 16) hreg).trans h.mask
    · refine (update_of_ne (fun he => hne ?_) ..).trans (h.func hin)
      exact Nat.add_right_cancel (congrArg Fin.val he)
  | installMsi dev vector handler' =>
    obtain ⟨hv, fuel, n, hs⟩ := hs
    obtain ⟨hi, pci, -, rfl⟩ := installMsiInt_cases hw hs
    have hv' : 56 ≤ vector.toNat := hv
    refine ⟨h.entry, h.mask, fun hin => ?_⟩
    refine (update_of_ne (fun he => ?_) ..).trans (h.func hin)
    have hnat : line + 0x20 = vector.toNat := congrArg Fin.val he
    omega
  | mask irq enable =>
    obtain ⟨hirq, rfl⟩ := hs
    by_cases hg : (irqOverride s.irq_override_tab (irq.setWidth 8)).toNat = line
    · have hreg (i : ℕ) (hi : i < 11 ∨ i = 16) : ((setIntMask io s irq enable).ioapic.regs
          (lineReg line)).getLsbD i = if i = 16 then !enable else (s.ioapic.regs (lineReg line)).getLsbD i := by
        have hi' : i < 32 := by omega
        rw [setIntMask_regs]
        dsimp only
        rw [hg, if_pos rfl, hio line hline _ _ i hi, bit_mask hi']
      refine ⟨?_, ?_, h.func⟩
      · rw [← h.entry]
        refine BitVec.eq_of_getLsbD_eq fun i hi => ?_
        have hne : i ≠ 16 := by omega
        rw [BitVec.getLsbD_setWidth, BitVec.getLsbD_setWidth, hreg i (Or.inl hi), if_neg hne]
      · rw [hreg 16 (Or.inr rfl), if_pos rfl, maskBy, if_pos hg]
    · have hreg : (setIntMask io s irq enable).ioapic.regs (lineReg line) = s.ioapic.regs (lineReg line) := by
        rw [setIntMask_regs]
        dsimp only
        rw [if_neg (lineReg_ne hline hirq (Ne.symm hg))]
      refine ⟨hreg ▸ h.entry, ?_, h.func⟩
      rw [hreg, h.mask, maskBy, if_neg hg]

/-- The overrides stay as `acpi_init` has found them. -/
theorem irqStep_tab (hs : (irqSys io hw handler_table syscall_handle).step s a s') :
    s'.irq_override_tab = s.irq_override_tab := by
  cases a with
  | install irq dest flag handler =>
    obtain ⟨hi, rfl⟩ := installInt_cases io hs.2
    rfl
  | installMsi dev vector handler =>
    obtain ⟨-, fuel, n, hs⟩ := hs
    obtain ⟨hi, pci, -, rfl⟩ := installMsiInt_cases hw hs
    rfl
  | mask irq enable =>
    obtain ⟨-, rfl⟩ := hs
    rfl

/-- **A line runs the handler it was given last**, in any run, unless the last call that said so has masked
    it. -/
theorem line_routed {s₁ s₂ : Irqs H} {as : List (IrqAct H)} {irq dest : BitVec 8} {flag : BitVec 32}
    (hio : KeepsEntries io) (hl : Linked text handler_table syscall_handle)
    (hreach : (irqSys io hw handler_table syscall_handle).Reach s) (hflag : flag &&& 0x700 = 0)
    (hs : (irqSys io hw handler_table syscall_handle).step s (.install irq dest flag handler) s₁)
    (hrun : (irqSys io hw handler_table syscall_handle).Run s₁ as s₂)
    (hspare : ∀ a ∈ as, SparesLine s.irq_override_tab (irqOverride s.irq_override_tab irq).toNat a) :
    lineHandles text s₂ (irqOverride s.irq_override_tab irq).toNat =
      if as.foldl (maskBy s.irq_override_tab (irqOverride s.irq_override_tab irq).toNat) (flag.getLsbD 16) = true
      then none else some (.installed handler) := by
  have hinv : ∀ t, (irqSys io hw handler_table syscall_handle).Run s₁ as t →
      IrqInv handler_table syscall_handle t := fun t ht =>
    ht.invariant (I := IrqInv handler_table syscall_handle) (fun _ _ _ h hstep => h.step io hw hstep)
      ((irqInv_reach io hw hreach).step io hw hs)
  have hrouted := hrun.foldl
    (R := fun t m => t.irq_override_tab = s.irq_override_tab ∧
      Routed (irqOverride s.irq_override_tab irq).toNat handler t m)
    (fun t a u m ht ha hstep => ⟨(irqStep_tab hstep).trans ht.1,
      ht.1 ▸ ht.2.step hio hs.1 hstep (ht.1.symm ▸ ha)⟩) hspare
    ⟨irqStep_tab hs, routed_install hio hflag hs.1 hs.2⟩
  exact hrouted.2.lineHandles hl (hinv s₂ hrun).gates hs.1

end Lines

/-! ## Messages -/

section Messages
variable {io : BitVec 8 → BitVec 32 → BitVec 32 → BitVec 32}
  {hw : BitVec 32 → BitVec 32 → BitVec 32 → BitVec 32} {handler_table : Fin intSize → BitVec 32}
  {syscall_handle : BitVec 32} {text : BitVec 32 → Option Entry} {s s' : Irqs H} {a : IrqAct H}
  {dev : Pci.PciDevice} {vector p : BitVec 8} {handler : H} {msg : Option (BitVec 64 × BitVec 8)}

/-- The device sends the message, and the handler of its vector is in the table. -/
structure MsiRouted (dev : Pci.PciDevice) (p vector : BitVec 8) (handler : H)
    (msg : Option (BitVec 64 × BitVec 8)) (s : Irqs H) : Prop where
  message : Pci.message s.pci.config dev p = msg
  func : ∀ h : vector.toNat < intSize, s.interrupt_func_table ⟨vector.toNat, h⟩ = .installed handler

/-- Neither the device nor the vector is set up again. -/
def SparesMsi (dev : Pci.PciDevice) (vector : BitVec 8) : IrqAct H → Prop
  | .installMsi dev' vector' _ => Pci.Apart dev dev' ∧ vector' ≠ vector
  | _ => True

theorem message_congr {c c' : BitVec 32 → BitVec 32} (h : ∀ r, Pci.devReg c' dev r = Pci.devReg c dev r) :
    Pci.message c' dev p = Pci.message c dev p := by
  unfold Pci.message Pci.wide
  simp only [h]

theorem MsiRouted.step (hv : msiIntStart ≤ vector.toNat)
    (hs : (irqSys io hw handler_table syscall_handle).step s a s') (hspare : SparesMsi dev vector a)
    (h : MsiRouted dev p vector handler msg s) : MsiRouted dev p vector handler msg s' := by
  have hv' : 56 ≤ vector.toNat := hv
  cases a with
  | install irq dest flag handler' =>
    obtain ⟨hirq, hs⟩ := hs
    obtain ⟨hi, rfl⟩ := installInt_cases io hs
    have hirq' : (irqOverride s.irq_override_tab irq).toNat < 24 := hirq
    refine ⟨h.message, fun hin => ?_⟩
    refine (update_of_ne (fun he => ?_) ..).trans (h.func hin)
    have hnat : vector.toNat = (irqOverride s.irq_override_tab irq).toNat + 0x20 := congrArg Fin.val he
    omega
  | installMsi dev' vector' handler' =>
    obtain ⟨-, fuel, n, hs⟩ := hs
    obtain ⟨hi, pci, hpci, rfl⟩ := installMsiInt_cases hw hs
    refine ⟨?_, fun hin => ?_⟩
    · rw [← h.message]
      exact message_congr fun r => Pci.deviceMsiInit_apart hw hpci hspare.1
    · refine (update_of_ne (fun he => hspare.2 ?_) ..).trans (h.func hin)
      have hnat : vector.toNat = vector'.toNat := Fin.mk.inj he
      exact (BitVec.eq_of_toNat_eq hnat).symm
  | mask irq enable =>
    obtain ⟨-, rfl⟩ := hs
    exact ⟨h.message, h.func⟩

/-- **A device that sends messages runs the handler it was given last**, in any run that sets up neither
    the device nor the vector again. -/
theorem msi_routed {s₁ s₂ : Irqs H} {as : List (IrqAct H)} (hl : Linked text handler_table syscall_handle)
    (hreach : (irqSys io hw handler_table syscall_handle).Reach s) (hmsi : Pci.HasMsi hw s.pci.config dev p)
    (hs : (irqSys io hw handler_table syscall_handle).step s (.installMsi dev vector handler) s₁)
    (hrun : (irqSys io hw handler_table syscall_handle).Run s₁ as s₂)
    (hspare : ∀ a ∈ as, SparesMsi dev vector a) :
    Pci.message s₂.pci.config dev p = some ((if Pci.wide s.pci.config dev p then
      Pci.devReg s.pci.config dev (p + 8) else 0) ++ 0xfee00000#32, vector) ∧
    handles text s₂ vector = some (.installed handler) := by
  have hinv : IrqInv handler_table syscall_handle s₂ :=
    hrun.invariant (I := IrqInv handler_table syscall_handle) (fun _ _ _ h hstep => h.step io hw hstep)
      ((irqInv_reach io hw hreach).step io hw hs)
  obtain ⟨hv, fuel, n, hcall⟩ := hs
  obtain ⟨hi, pci, hpci, rfl⟩ := installMsiInt_cases hw hcall
  have hmsg := ((Pci.deviceMsiInit_spec hw hmsi).2 fuel pci n hpci).2
  have hrouted := hrun.foldl (f := fun b _ => b) (b := ())
    (R := fun t _ => MsiRouted dev p vector handler _ t)
    (fun t a u _ ht ha hstep => ht.step hv hstep ha) hspare ⟨hmsg, fun _ => update_self ..⟩
  refine ⟨hrouted.message, ?_⟩
  rw [handles_gateTable hl hinv.gates, dif_pos hi, hrouted.func hi]

end Messages

/-! ## A machine -/

section Machine

/-- An I/O APIC that keeps what is written. -/
def plainIo : BitVec 8 → BitVec 32 → BitVec 32 → BitVec 32 := fun _ _ data => data

theorem plainIo_keeps : KeepsEntries plainIo := fun _ _ _ _ _ _ => rfl

/-- The addresses of the code. -/
def stubs (n : Fin intSize) : BitVec 32 := 0x1000 + 16 * .ofNat 32 n

def stubText (a : BitVec 32) : Option Entry :=
  if a = 0x2000 then some .syscall else some (.interrupt (Fin.ofNat intSize ((a.toNat - 0x1000) / 16)))

theorem stubText_linked : Linked stubText stubs 0x2000 := ⟨by decide, rfl⟩

/-- A device with the MSI capability at 0x50, with an upper half of the address. -/
def msiDevice : Pci.PciDevice :=
  ⟨0, 3, 0, 0x8086, 0x2922, 2, 0x010601, 0, []⟩

def msiHw : BitVec 32 → BitVec 32 → BitVec 32 → BitVec 32 := fun a old data =>
  if a = Pci.devAddress msiDevice 0x50 then old &&& ~~~ioredtblMask ||| data &&& ioredtblMask else data

/-- Interrupt 0 of the ISA bus is line 2, and all lines are masked. -/
def machine : Irqs ℕ :=
  idtInit stubs 0x2000
    { irq_override_tab := [(0, 2)]
      interrupt_func_table := fun _ => .defaultException
      idt_table := fun _ => 0
      ioapic := ⟨0, fun _ => ioredtblMask⟩
      pci := ⟨0, fun a => if a = Pci.devAddress msiDevice 0x34 then 0x50
        else if a = Pci.devAddress msiDevice 0x50 then 0x00800005 else 0⟩ }

theorem machine_tab : machine.irq_override_tab = [(0, 2)] := rfl

theorem machine_reach : (irqSys plainIo msiHw stubs 0x2000).Reach machine := .init ⟨_, rfl⟩

theorem machine_msi : Pci.HasMsi msiHw machine.pci.config msiDevice 0x50 where
  first := ⟨0, .here (Or.inr rfl), fun j hj => by
    obtain rfl := Nat.le_zero.1 hj
    decide⟩
  placed := ⟨by decide, by decide, by decide⟩
  regs := by
    have hother : Pci.devAddress msiDevice (0x50 + 4) ≠ Pci.devAddress msiDevice 0x50 ∧
        Pci.devAddress msiDevice (Pci.dataReg true 0x50) ≠ Pci.devAddress msiDevice 0x50 ∧
        Pci.devAddress msiDevice (Pci.maskReg true 0x50) ≠ Pci.devAddress msiDevice 0x50 := by decide
    have hwide : Pci.wide machine.pci.config msiDevice 0x50 = true := rfl
    rw [hwide]
    refine ⟨fun old data => ?_, fun old data i hi => ?_, fun old => if_neg hother.1, fun old v => ?_,
      fun old => ?_⟩
    · simp [msiHw]
    · rcases List.mem_pair.1 hi with rfl | rfl <;> simp [msiHw]
    · rw [msiHw, if_neg hother.2.1]
      simp
    · rw [msiHw, if_neg hother.2.2]
      rfl

/-- A clock is installed: a program still enters by a system call only. -/
theorem gates_stay_machine : ∃ s, installInt plainIo machine 0 0 0 7 = .ok s ∧
    ∀ v, userEntered stubText s v = if v = 0x80 then some .syscall else none := by
  obtain ⟨s, hs⟩ : ∃ s, installInt plainIo machine 0 0 0 7 = .ok s := ⟨_, rfl⟩
  have hstep : (irqSys plainIo msiHw stubs 0x2000).step machine (.install 0 0 0 7) s :=
    ⟨by rw [machine_tab]; decide, hs⟩
  exact ⟨s, hs, (gates_stay plainIo msiHw stubText_linked (.step machine_reach hstep)).2.2⟩

/-- The clock is masked and unmasked. -/
theorem line_routed_machine : ∃ s, installInt plainIo machine 0 0 0 7 = .ok s ∧
    lineHandles stubText (setIntMask plainIo (setIntMask plainIo s 0 false) 0 true) 2 =
      some (.installed 7) := by
  obtain ⟨s, hs, htab⟩ : ∃ s, installInt plainIo machine 0 0 0 7 = .ok s ∧ s.irq_override_tab = [(0, 2)] :=
    ⟨_, rfl, rfl⟩
  have hstep : (irqSys plainIo msiHw stubs 0x2000).step machine (.install 0 0 0 7) s :=
    ⟨by rw [machine_tab]; decide, hs⟩
  have hmask (s : Irqs ℕ) (enable : Bool) (htab : s.irq_override_tab = [(0, 2)]) :
      (irqSys plainIo msiHw stubs 0x2000).step s (.mask 0 enable) (setIntMask plainIo s 0 enable) :=
    ⟨by rw [htab]; decide, rfl⟩
  have hrun : (irqSys plainIo msiHw stubs 0x2000).Run s [.mask 0 false, .mask 0 true]
      (setIntMask plainIo (setIntMask plainIo s 0 false) 0 true) :=
    (Sys.Run.single (hmask s false htab)).step (hmask _ true htab)
  have hrouted := line_routed plainIo_keeps stubText_linked machine_reach (by decide) hstep hrun
    (by simp [SparesLine])
  rw [machine_tab] at hrouted
  have hopen : ¬ [IrqAct.mask 0 false, .mask 0 true].foldl
      (maskBy (H := ℕ) [(0, 2)] (irqOverride [(0, 2)] 0).toNat) ((0 : BitVec 32).getLsbD 16) = true := by decide
  rw [if_neg hopen] at hrouted
  exact ⟨s, hs, hrouted⟩

/-- A disk is set up, and then the clock. -/
theorem msi_routed_machine : ∃ s pci s', installMsiInt msiHw machine msiDevice 0x38 5 1 = .ok (s, 0) ∧
    installInt plainIo s 0 0 0 7 = .ok s' ∧ s'.pci = pci ∧
    Pci.message pci.config msiDevice 0x50 = some (0xfee00000#64, 0x38) ∧
    handles stubText s' 0x38 = some (.installed 5) := by
  obtain ⟨s, s', hs, hs', htab⟩ : ∃ s s', installMsiInt msiHw machine msiDevice 0x38 5 1 = .ok (s, 0) ∧
      installInt plainIo s 0 0 0 7 = .ok s' ∧ s.irq_override_tab = [(0, 2)] := ⟨_, _, rfl, rfl, rfl⟩
  have hstep : (irqSys plainIo msiHw stubs 0x2000).step machine (.installMsi msiDevice 0x38 5) s :=
    ⟨by decide, 1, 0, hs⟩
  have hrun : (irqSys plainIo msiHw stubs 0x2000).Run s [.install 0 0 0 7] s' :=
    .single ⟨by rw [htab]; decide, hs'⟩
  obtain ⟨hmsg, hrun⟩ := msi_routed stubText_linked machine_reach machine_msi hstep hrun
    (by simp [SparesMsi])
  exact ⟨s, s'.pci, s', hs, hs', rfl, hmsg, hrun⟩

end Machine

end Rdix.Irq
