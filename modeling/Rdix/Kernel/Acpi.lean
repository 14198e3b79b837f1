/-
  The tables of the firmware (kernel/bios.c; kernel/acpi.c).

  The kernel looks for a pointer in the memory of the BIOS and comes, over two tables, to the structures
  that name the interrupt controllers.  It runs before paging is on, so that an address is physical.

  * `acpiInit` is the code, on the bytes of the memory;
  * `Ics`: a structure, and `Ics.bytes` its bytes;
  * `Firmware`: what the memory holds that firmware has set up;
  * `acpiInit_firmware`: the overrides are those of the table, in its order; there is room for 16, and a
    structure of length 0 is never left.
-/
import Rdix.Kernel.ListNode
import Rdix.Lib.Bytes

namespace Rdix.Acpi

open ByteMem Nodes

/-! ## The code -/

/-- `RSDP_SIG_L`. -/
abbrev rsdpSigL : ℕ := 0x20445352

/-- `BIOS_MEM_SIZE`. -/
abbrev biosMemSize : ℕ := 0x100000

/-- `sizeof(ACPISDTHeader)`. -/
abbrev sizeofHeader : ℕ := 36

/-- `sizeof(irq_override_tab.tab) / 2`. -/
abbrev overrideNr : ℕ := 16

/-- What is known of the interrupt controllers; `tab` are the entries of `irq_override_tab` in use. -/
structure Controllers where
  lapic_base : ℕ
  ioapic_addr : ℕ
  ioapic_data : ℕ
  tab : List (BitVec 8 × BitVec 8)
deriving DecidableEq

section Code
variable (mem : ℕ → BitVec 8)

/-- `_REDP_checksum`. -/
def redpChecksum (RSDP : ℕ) : Bool :=
  (List.range 20).foldl (fun sum i => sum + mem (RSDP + i)) 0 = 0#8

def findRsdp : ℕ :=
  (((List.range 0x2000).map fun i => 0xE0000 + 16 * i).find? fun ptr =>
    load mem 4 ptr = rsdpSigL && redpChecksum mem ptr).getD biosMemSize

/-- `RSDP->RsdtAddress` of the pointer that is found. -/
def findRsdt : ℕ :=
  if findRsdp mem ≠ biosMemSize then load mem 4 (findRsdp mem + 16) else biosMemSize

/-- `strcmp(&(entry->Signature), "APIC", 4)`. -/
def isApic (entry : ℕ) : Bool := [mem entry, mem (entry + 1), mem (entry + 2), mem (entry + 3)] =
  "APIC".toList.map fun c => BitVec.ofNat 8 c.toNat

def findMadt : C ℕ := do
  let RSDT := findRsdt mem
  cassert (RSDT ≠ biosMemSize) "RSDT != BIOS_MEM_SIZE"
  let entry_cnt := u32 (load mem 4 (RSDT + 4) + 2 ^ 32 - sizeofHeader) / 4
  let entry (i : ℕ) := load mem 4 (RSDT + sizeofHeader + 4 * i)
  -- without a table of the signature the walk goes over the memory behind the BIOS
  return (((List.range entry_cnt).map entry).find? fun e => isApic mem e).getD biosMemSize

/-- What the walk does with the structure at `ics`. -/
def icsTurn (ics : ℕ) (s : Controllers) : C Controllers :=
  if mem ics = 1 then
    let addr := load mem 4 (ics + 4)
    return { s with ioapic_addr := addr, ioapic_data := u32 (addr + 0x10) }
  else if mem ics = 2 then
    if s.tab.length < overrideNr then
      return { s with tab := s.tab ++ [(mem (ics + 3), BitVec.ofNat 8 (load mem 4 (ics + 4)))] }
    else throw (.wild "irq_override_tab")
  else return s

/-- The walk over the structures up to `stop`. -/
def icsLoop (stop : ℕ) : ℕ → ℕ → Controllers → C Controllers
  | 0, _, _ => throw .loop
  | fuel + 1, ics, s =>
    if ics < stop then do
      let s ← icsTurn mem ics s
      icsLoop stop fuel (u32 (ics + (mem (ics + 1)).toNat)) s
    else return s

def findIoapics (fuel : ℕ) : C Controllers := do
  let MADT ← findMadt mem
  let lapicAddr := load mem 4 (MADT + 36)
  icsLoop mem (u32 (MADT + load mem 4 (MADT + 4))) fuel (u32 (MADT + 44)) ⟨lapicAddr, 0, 0, []⟩

/-- `acpi_init`, which only prints what has been found. -/
def acpiInit (fuel : ℕ) : C Controllers := findIoapics mem fuel

end Code

/-! ## The format of the tables -/

/-- The bytes stand in the memory from `a` on. -/
def Stand (mem : ℕ → BitVec 8) (a : ℕ) : List (BitVec 8) → Prop
  | [] => True
  | b :: bs => mem a = b ∧ Stand mem (a + 1) bs

instance decidableStand (mem : ℕ → BitVec 8) : ∀ a bs, Decidable (Stand mem a bs)
  | _, [] => .isTrue trivial
  | a, _ :: bs => @instDecidableAnd _ _ _ (decidableStand mem (a + 1) bs)

/-- The bytes of a number. -/
def numBytes : ℕ → ℕ → List (BitVec 8)
  | 0, _ => []
  | w + 1, v => .ofNat 8 v :: numBytes w (v / 256)

/-- A structure that names an interrupt controller. -/
inductive Ics where
  /-- an I/O APIC -/
  | ioapic (id reserved : BitVec 8) (addr GSIBase : BitVec 32)
  /-- the interrupt `source` of the ISA bus is the interrupt `gsi` -/
  | override (bus source : BitVec 8) (gsi : BitVec 32) (flags : BitVec 16)
  /-- a structure that the kernel passes over -/
  | other (type : BitVec 8) (body : List (BitVec 8)) (not_ioapic : type ≠ 1) (not_override : type ≠ 2)
    (short : body.length + 2 < 256)

namespace Ics

/-- The bytes of a structure. -/
def bytes : Ics → List (BitVec 8)
  | ioapic id reserved addr GSIBase =>
    [1, 12, id, reserved] ++ numBytes 4 addr.toNat ++ numBytes 4 GSIBase.toNat
  | override bus source gsi flags =>
    [2, 10, bus, source] ++ numBytes 4 gsi.toNat ++ numBytes 2 flags.toNat
  | other type body _ _ _ => type :: .ofNat 8 (body.length + 2) :: body

/-- What the kernel takes from a structure. -/
def apply (s : Controllers) : Ics → Controllers
  | ioapic _ _ addr _ => { s with ioapic_addr := addr.toNat, ioapic_data := u32 (addr.toNat + 0x10) }
  | override _ source gsi _ => { s with tab := s.tab ++ [(source, gsi.setWidth 8)] }
  | other .. => s

/-- The entry of the override table. -/
def entry : Ics → List (BitVec 8 × BitVec 8)
  | override _ source gsi _ => [(source, gsi.setWidth 8)]
  | _ => []

end Ics

/-- The overrides of a table. -/
def overrides (es : List Ics) : List (BitVec 8 × BitVec 8) := es.flatMap Ics.entry

variable {mem : ℕ → BitVec 8} {a b w v n stop fuel : ℕ} {bs cs : List (BitVec 8)} {e : Ics}
  {es : List Ics} {s : Controllers}

theorem stand_append : Stand mem a (bs ++ cs) ↔ Stand mem a bs ∧ Stand mem (a + bs.length) cs := by
  induction bs generalizing a with
  | nil => simp [Stand]
  | cons b bs ih =>
    rw [List.cons_append, Stand, Stand, ih, and_assoc, List.length_cons, Nat.add_right_comm, Nat.add_assoc]

@[simp] theorem length_numBytes (w v : ℕ) : (numBytes w v).length = w := by
  induction w generalizing v with
  | zero => rfl
  | succ w ih => rw [numBytes, List.length_cons, ih]

/-- A number is loaded from its bytes. -/
theorem load_numBytes (h : Stand mem a (numBytes w v)) : load mem w a = v % 256 ^ w := by
  induction w generalizing a v with
  | zero => rw [load, pow_zero, Nat.mod_one]
  | succ w ih =>
    rw [load, h.1, ih h.2, BitVec.toNat_ofNat, pow_succ' 256 w, Nat.mod_mul]

theorem load_word {x : BitVec 32} (h : Stand mem a (numBytes 4 x.toNat)) : load mem 4 a = x.toNat := by
  rw [load_numBytes h]
  exact Nat.mod_eq_of_lt x.isLt

namespace Ics

theorem length_bytes_pos (e : Ics) : 0 < e.bytes.length := by
  cases e <;> simp [bytes]

/-- The second byte of a structure is its length. -/
theorem length_byte (h : Stand mem a e.bytes) : (mem (a + 1)).toNat = e.bytes.length := by
  cases e with
  | ioapic =>
    have hlen : mem (a + 1) = 12 := h.2.1
    rw [hlen]
    rfl
  | override =>
    have hlen : mem (a + 1) = 10 := h.2.1
    rw [hlen]
    rfl
  | other type body _ _ short =>
    have hlen : mem (a + 1) = .ofNat 8 (body.length + 2) := h.2.1
    rw [hlen, BitVec.toNat_ofNat, Nat.mod_eq_of_lt short]
    rfl

/-- **A turn at a structure**, with room for an override. -/
theorem turn (h : Stand mem a e.bytes) (hroom : (e.apply s).tab.length ≤ overrideNr) :
    icsTurn mem a s = .ok (e.apply s) := by
  cases e with
  | ioapic id reserved addr GSIBase =>
    have htype : mem a = 1 := h.1
    have hbytes : Stand mem (a + 4) (numBytes 4 addr.toNat) := (stand_append.1 (stand_append.1 h).1).2
    rw [icsTurn, if_pos htype, load_word hbytes]
    rfl
  | override bus source gsi flags =>
    have htype : mem a = 2 := h.1
    have hsource : mem (a + 3) = source := h.2.2.2.1
    have hbytes : Stand mem (a + 4) (numBytes 4 gsi.toNat) := (stand_append.1 (stand_append.1 h).1).2
    have hgsi : BitVec.ofNat 8 gsi.toNat = gsi.setWidth 8 := BitVec.eq_of_toNat_eq (by simp)
    have hlt : s.tab.length < overrideNr := by
      rw [apply, List.length_append] at hroom
      exact hroom
    rw [icsTurn, if_neg (by rw [htype]; decide), if_pos htype, if_pos hlt, hsource, load_word hbytes, hgsi]
    rfl
  | other type body h1 h2 short =>
    have htype : mem a = type := h.1
    rw [icsTurn, if_neg (htype ▸ h1), if_neg (htype ▸ h2)]
    rfl

/-- **There is no room** for an override. -/
theorem turn_full (h : Stand mem a e.bytes) (hs : s.tab.length ≤ overrideNr)
    (hfull : overrideNr < (e.apply s).tab.length) : icsTurn mem a s = .error (.wild "irq_override_tab") := by
  cases e with
  | ioapic => exact absurd hs (not_le.2 hfull)
  | override =>
    have htype : mem a = 2 := h.1
    have hnot : ¬ s.tab.length < overrideNr := by
      rw [apply, List.length_append] at hfull
      exact not_lt.2 (Nat.lt_succ_iff.1 hfull)
    rw [icsTurn, if_neg (by rw [htype]; decide), if_pos htype, if_neg hnot]
    rfl
  | other => exact absurd hs (not_le.2 hfull)

theorem apply_tab (e : Ics) (s : Controllers) : (e.apply s).tab = s.tab ++ e.entry := by
  cases e <;> simp [apply, entry]

end Ics

/-! ## The walk -/

/-- What the kernel has taken from the structures. -/
def applyAll (s : Controllers) (es : List Ics) : Controllers := es.foldl Ics.apply s

theorem applyAll_tab (s : Controllers) (es : List Ics) : (applyAll s es).tab = s.tab ++ overrides es := by
  induction es generalizing s with
  | nil => exact (List.append_nil _).symm
  | cons e es ih =>
    have hcons : applyAll s (e :: es) = applyAll (e.apply s) es := rfl
    rw [hcons, ih, e.apply_tab, List.append_assoc]
    rfl

/-- The bytes of the structures. -/
def tableBytes (es : List Ics) : List (BitVec 8) := es.flatMap Ics.bytes

theorem icsLoop_stop (h : stop ≤ a) : icsLoop mem stop (fuel + 1) a s = .ok s := by
  rw [icsLoop, if_neg (not_lt.2 h)]
  rfl

/-- A turn of the loop at a structure. -/
theorem icsLoop_turn (h : Stand mem a e.bytes) (hstop : a + e.bytes.length ≤ stop) (hlt : stop < 2 ^ 32) :
    icsLoop mem stop (fuel + 1) a s =
      icsTurn mem a s >>= icsLoop mem stop fuel (a + e.bytes.length) := by
  have hpos := e.length_bytes_pos
  have hin : a < stop := by omega
  have hnext : u32 (a + (mem (a + 1)).toNat) = a + e.bytes.length := by
    rw [Ics.length_byte h]
    exact u32_of_lt (by omega)
  rw [icsLoop, if_pos hin, hnext]

/-- **The walk over the structures** of a table, if there is room for their overrides. -/
theorem icsLoop_applyAll (h : Stand mem a (tableBytes es)) (hstop : a + (tableBytes es).length = stop)
    (hlt : stop < 2 ^ 32) (hroom : (applyAll s es).tab.length ≤ overrideNr) :
    Returns (fun fuel => icsLoop mem stop fuel a s) (applyAll s es) := by
  induction es generalizing a s with
  | nil => exact (Returns.const rfl).turn rfl fun fuel => icsLoop_stop hstop.ge
  | cons e es ih =>
    have hbytes : tableBytes (e :: es) = e.bytes ++ tableBytes es := List.flatMap_cons ..
    rw [hbytes, List.length_append] at hstop
    rw [hbytes, stand_append] at h
    have hfirst : (e.apply s).tab.length ≤ overrideNr := by
      have hcons : applyAll s (e :: es) = applyAll (e.apply s) es := rfl
      rw [hcons, applyAll_tab, List.length_append] at hroom
      omega
    refine (ih h.2 (by omega) hroom).turn rfl fun fuel => ?_
    rw [icsLoop_turn h.1 (by omega) hlt, Ics.turn h.1 hfirst, ok_bind]

/-- **More overrides than there is room for**: the walk writes behind the table. -/
theorem icsLoop_full (h : Stand mem a (tableBytes es)) (hstop : a + (tableBytes es).length ≤ stop)
    (hlt : stop < 2 ^ 32) (hs : s.tab.length ≤ overrideNr) (hfull : overrideNr < (applyAll s es).tab.length) :
    icsLoop mem stop (fuel + es.length) a s = .error (.wild "irq_override_tab") := by
  induction es generalizing a s with
  | nil => exact absurd hs (not_le.2 hfull)
  | cons e es ih =>
    have hbytes : tableBytes (e :: es) = e.bytes ++ tableBytes es := List.flatMap_cons ..
    rw [hbytes, List.length_append] at hstop
    rw [hbytes, stand_append] at h
    rw [List.length_cons, ← Nat.add_assoc, icsLoop_turn h.1 (by omega) hlt]
    by_cases hfirst : (e.apply s).tab.length ≤ overrideNr
    · rw [Ics.turn h.1 hfirst, ok_bind]
      exact ih h.2 (by omega) hfirst hfull
    · rw [Ics.turn_full h.1 hs (not_le.1 hfirst)]
      rfl

/-- **A structure of length 0** is never left: the walk stays there, or fills the override table. -/
theorem icsLoop_stuck (ha : a < stop) (hlt : stop < 2 ^ 32) (hzero : mem (a + 1) = 0) :
    ∀ r, icsLoop mem stop fuel a s ≠ .ok r := by
  induction fuel generalizing s with
  | zero => nofun
  | succ fuel ih =>
    have hnext : u32 (a + (mem (a + 1)).toNat) = a := by
      rw [hzero]
      exact u32_of_lt (ha.trans hlt)
    intro r hr
    rw [icsLoop, if_pos ha, hnext] at hr
    obtain ⟨s', -, hr⟩ := bind_eq_ok.1 hr
    exact ih r hr

/-- A structure of length 0 behind some others. -/
theorem icsLoop_never (h : Stand mem a (tableBytes es)) (hstop : a + (tableBytes es).length < stop)
    (hlt : stop < 2 ^ 32) (hzero : mem (a + (tableBytes es).length + 1) = 0) :
    ∀ r, icsLoop mem stop fuel a s ≠ .ok r := by
  induction es generalizing a s fuel with
  | nil => exact icsLoop_stuck hstop hlt hzero
  | cons e es ih =>
    have hbytes : tableBytes (e :: es) = e.bytes ++ tableBytes es := List.flatMap_cons ..
    rw [hbytes, List.length_append] at hstop hzero
    rw [hbytes, stand_append] at h
    cases fuel with
    | zero => nofun
    | succ fuel =>
      intro r hr
      rw [icsLoop_turn h.1 (by omega) hlt] at hr
      obtain ⟨s', -, hr⟩ := bind_eq_ok.1 hr
      rw [← Nat.add_assoc] at hzero
      exact ih h.2 (by omega) hzero r hr

/-! ## From the memory of the BIOS to the structures -/

/-- What firmware sets up: the pointer, the tables it leads to, that of the interrupt controllers among
    them, and `rest` bytes behind the structures of that. -/
structure Firmware where
  RSDP : ℕ
  RSDT : ℕ
  before : List (BitVec 32)
  MADT : BitVec 32
  behind : List (BitVec 32)
  es : List Ics
  rest : ℕ

/-- A pointer that `_find_RSDP` takes. -/
def IsPointer (mem : ℕ → BitVec 8) (ptr : ℕ) : Prop :=
  load mem 4 ptr = rsdpSigL ∧ redpChecksum mem ptr = true

/-- The memory holds what the firmware has set up. -/
structure Firmware.Holds (fw : Firmware) (mem : ℕ → BitVec 8) : Prop where
  paragraph : ∃ i < 0x2000, fw.RSDP = 0xE0000 + 16 * i ∧ ∀ j < i, ¬ IsPointer mem (0xE0000 + 16 * j)
  pointer : IsPointer mem fw.RSDP
  rsdtAddress : load mem 4 (fw.RSDP + 16) = fw.RSDT
  rsdt_ne : fw.RSDT ≠ biosMemSize
  rsdtLength : load mem 4 (fw.RSDT + 4) = sizeofHeader + 4 * (fw.before ++ fw.MADT :: fw.behind).length
  tables : Stand mem (fw.RSDT + sizeofHeader)
    ((fw.before ++ fw.MADT :: fw.behind).flatMap fun table => numBytes 4 table.toNat)
  not_apic : ∀ table ∈ fw.before, isApic mem table.toNat = false
  apic : isApic mem fw.MADT.toNat = true
  madtLength : load mem 4 (fw.MADT.toNat + 4) = 44 + (tableBytes fw.es).length + fw.rest
  madt_lt : fw.MADT.toNat + 44 + (tableBytes fw.es).length + fw.rest < 2 ^ 32
  structures : Stand mem (fw.MADT.toNat + 44) (tableBytes fw.es)

theorem find?_eq_some_of_first {α : Type} {p : α → Bool} {l l' : List α} {a : α}
    (hl : ∀ b ∈ l, p b = false) (ha : p a = true) : (l ++ a :: l').find? p = some a := by
  rw [List.find?_append, List.find?_eq_none.2 fun b hb => by simp [hl b hb], List.find?_cons_of_pos ha]
  rfl

/-- An entry of a table of words. -/
theorem load_entry {ws : List (BitVec 32)} {i : ℕ}
    (h : Stand mem a (ws.flatMap fun w => numBytes 4 w.toNat)) {x : BitVec 32} (hx : ws[i]? = some x) :
    load mem 4 (a + 4 * i) = x.toNat := by
  induction ws generalizing a i with
  | nil => cases hx
  | cons w ws ih =>
    rw [List.flatMap_cons, stand_append, length_numBytes] at h
    cases i with
    | zero =>
      cases hx
      exact load_word h.1
    | succ i =>
      rw [Nat.mul_succ, Nat.add_comm (4 * i), ← Nat.add_assoc]
      exact ih h.2 hx

section
variable {fw : Firmware}

theorem Firmware.Holds.findRsdp (h : fw.Holds mem) : findRsdp mem = fw.RSDP := by
  obtain ⟨i, hi, hRSDP, hfirst⟩ := h.paragraph
  have hsplit : List.range 0x2000 = List.range i ++ i :: List.range' (i + 1) (0x2000 - (i + 1)) := by
    have happend := List.range'_append_1 (s := 0) (m := i) (n := 0x2000 - i)
    rw [List.range_eq_range', List.range_eq_range', ← List.range'_succ]
    rw [Nat.zero_add, Nat.add_sub_of_le hi.le] at happend
    rw [← happend, Nat.sub_add_eq, Nat.sub_add_cancel (Nat.sub_pos_of_lt hi)]
  have hbool (ptr : ℕ) : (decide (load mem 4 ptr = rsdpSigL) && redpChecksum mem ptr) = true ↔
      IsPointer mem ptr := by
    rw [Bool.and_eq_true, decide_eq_true_iff]
    rfl
  unfold Acpi.findRsdp
  rw [hsplit, List.map_append, List.map_cons, find?_eq_some_of_first, Option.getD_some, hRSDP]
  · intro ptr hptr
    obtain ⟨j, hj, rfl⟩ := List.mem_map.1 hptr
    exact Bool.eq_false_iff.2 fun ht => hfirst j (List.mem_range.1 hj) ((hbool _).1 ht)
  · exact (hbool _).2 (hRSDP ▸ h.pointer)

theorem Firmware.Holds.findRsdt (h : fw.Holds mem) : findRsdt mem = fw.RSDT := by
  obtain ⟨i, hi, hRSDP, -⟩ := h.paragraph
  have hne : fw.RSDP ≠ biosMemSize := by
    have hsize : biosMemSize = 0xE0000 + 16 * 0x2000 := rfl
    omega
  rw [Acpi.findRsdt, h.findRsdp, if_pos hne, h.rsdtAddress]

theorem Firmware.Holds.findMadt (h : fw.Holds mem) : findMadt mem = .ok fw.MADT.toNat := by
  have hcnt : u32 (load mem 4 (fw.RSDT + 4) + 2 ^ 32 - sizeofHeader) / 4 =
      (fw.before ++ fw.MADT :: fw.behind).length := by
    have hlt := load_lt mem 4 (fw.RSDT + 4)
    rw [h.rsdtLength] at hlt ⊢
    have hu : u32 (sizeofHeader + 4 * (fw.before ++ fw.MADT :: fw.behind).length + 2 ^ 32 - sizeofHeader) =
        4 * (fw.before ++ fw.MADT :: fw.behind).length := by
      unfold u32
      omega
    rw [hu, Nat.mul_div_cancel_left _ (by decide)]
  have hmap : (List.range (fw.before ++ fw.MADT :: fw.behind).length).map
      (fun i => load mem 4 (fw.RSDT + sizeofHeader + 4 * i)) =
        (fw.before ++ fw.MADT :: fw.behind).map BitVec.toNat := by
    refine List.ext_getElem (by simp) fun i hi _ => ?_
    rw [List.length_map, List.length_range] at hi
    rw [List.getElem_map, List.getElem_range, List.getElem_map]
    exact load_entry h.tables (List.getElem?_eq_getElem hi)
  unfold Acpi.findMadt
  dsimp only
  rw [h.findRsdt, cassert_pos h.rsdt_ne, ok_bind, hcnt, hmap, List.map_append, List.map_cons,
    find?_eq_some_of_first _ h.apic]
  · rfl
  · intro table htable
    obtain ⟨x, hx, rfl⟩ := List.mem_map.1 htable
    exact h.not_apic x hx

/-- `acpi_init` walks over the structures. -/
theorem Firmware.Holds.acpiInit_eq (h : fw.Holds mem) (fuel : ℕ) :
    acpiInit mem fuel = icsLoop mem (fw.MADT.toNat + 44 + (tableBytes fw.es).length + fw.rest) fuel
      (fw.MADT.toNat + 44) ⟨load mem 4 (fw.MADT.toNat + 36), 0, 0, []⟩ := by
  have hlt := h.madt_lt
  have hstop : u32 (fw.MADT.toNat + load mem 4 (fw.MADT.toNat + 4)) =
      fw.MADT.toNat + 44 + (tableBytes fw.es).length + fw.rest := by
    rw [h.madtLength, u32_of_lt (by omega)]
    omega
  rw [acpiInit, findIoapics, h.findMadt, ok_bind, hstop, u32_of_lt (by omega)]

/-- **What `acpi_init` finds**: the controllers and overrides of the structures, in their order.  With more
    than 16 overrides it writes behind its table; with a structure of length 0 it does not return. -/
theorem acpiInit_firmware (h : fw.Holds mem) :
    (fw.rest = 0 → (overrides fw.es).length ≤ overrideNr → Returns (acpiInit mem)
      (applyAll ⟨load mem 4 (fw.MADT.toNat + 36), 0, 0, []⟩ fw.es)) ∧
    (overrideNr < (overrides fw.es).length →
      ∀ fuel, acpiInit mem (fuel + fw.es.length) = .error (.wild "irq_override_tab")) ∧
    (0 < fw.rest → mem (fw.MADT.toNat + 44 + (tableBytes fw.es).length + 1) = 0 →
      ∀ fuel r, acpiInit mem fuel ≠ .ok r) := by
  have hlt := h.madt_lt
  have htab : (applyAll ⟨load mem 4 (fw.MADT.toNat + 36), 0, 0, []⟩ fw.es).tab = overrides fw.es :=
    applyAll_tab ..
  refine ⟨fun hrest hroom => ?_, fun hfull fuel => ?_, fun hrest hzero fuel r hr => ?_⟩
  · rw [funext h.acpiInit_eq]
    exact icsLoop_applyAll h.structures (by omega) hlt (htab ▸ hroom)
  · rw [h.acpiInit_eq]
    exact icsLoop_full h.structures (by omega) hlt (Nat.zero_le _) (htab ▸ hfull)
  · rw [h.acpiInit_eq] at hr
    exact icsLoop_never h.structures (by omega) hlt hzero r hr

end

/-- The memory of a board: the pointer, two tables behind it, an I/O APIC and one override. -/
def board : ℕ → BitVec 8 := fun a =>
  if 0xE0000 ≤ a then [0x52, 0x53, 0x44, 0x20, 231, 0, 0, 0, 0, 0, 0, 0, 0, 0, 0, 0, 0, 0x10].getD (a - 0xE0000) 0
  else if 0x3000 ≤ a then
    ([0x41, 0x50, 0x49, 0x43, 66] ++ List.replicate 31 0 ++ [0, 0, 0xe0, 0xfe, 0, 0, 0, 0] ++
      tableBytes [.ioapic 0 0 0xfec00000 0, .override 0 0 2 0]).getD (a - 0x3000) 0
  else if 0x1024 ≤ a then [0, 0x20, 0, 0, 0, 0x30].getD (a - 0x1024) 0
  else if a = 0x1004 then 44 else 0

def boardFirmware : Firmware where
  RSDP := 0xE0000
  RSDT := 0x1000
  before := [0x2000]
  MADT := 0x3000
  behind := []
  es := [.ioapic 0 0 0xfec00000 0, .override 0 0 2 0]
  rest := 0

theorem boardFirmware_holds : boardFirmware.Holds board where
  paragraph := ⟨0, by decide, rfl, fun _ hj => absurd hj (Nat.not_lt_zero _)⟩
  pointer := ⟨rfl, rfl⟩
  rsdtAddress := rfl
  rsdt_ne := by decide
  rsdtLength := rfl
  tables := by decide
  not_apic := List.forall_mem_singleton.2 rfl
  apic := rfl
  madtLength := rfl
  madt_lt := by decide
  structures := by decide

theorem acpiInit_board : Returns (acpiInit board) ⟨0xfee00000, 0xfec00000, 0xfec00010, [(0, 2)]⟩ :=
  (acpiInit_firmware boardFirmware_holds).1 rfl (by decide)

end Rdix.Acpi
