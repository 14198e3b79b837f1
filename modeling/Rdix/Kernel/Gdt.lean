/-
  Segment descriptors (kernel/global.c, common/global.h).

  * `setGdtDesc` and `gdtInit` are the code, on slots of 64 bits;
  * `Segment`: what a descriptor says; `decode` reads one, and `asked` is the one asked for;
  * `setFlags_getLsbD`: the flags are only ever raised;
  * `setGdtDesc_iff`: the `memset` clears 4 bytes, and a flag that stood in the slot stays;
  * `gdtInit_decode`: the five segments of the kernel are right, since the table is cleared before.
-/
import Rdix.Kernel.Halt
import Rdix.Lib.BitField

namespace Rdix

open BitField Function

/-! ## The code -/

/-- `sizeof(desc)`, which is a pointer. -/
abbrev sizeofDesc : ℕ := 4

abbrev gdtEntryG : BitVec 32 := 0x1
abbrev gdtEntryD : BitVec 32 := 0x2
abbrev gdtEntryL : BitVec 32 := 0x4
abbrev gdtEntryP : BitVec 32 := 0x8
abbrev gdtEntryS : BitVec 32 := 0x10
abbrev gdtEntryTypeX : BitVec 32 := 0x20
abbrev gdtEntryTypeEc : BitVec 32 := 0x40
abbrev gdtEntryTypeWr : BitVec 32 := 0x80
abbrev gdtEntryTypeA : BitVec 32 := 0x100

namespace Descriptor

/-! The fields of a `gdt_descriptor`. -/

abbrev limitLow : Field := ⟨0, 16⟩
abbrev baseLow : Field := ⟨16, 24⟩
abbrev type : Field := ⟨40, 4⟩
abbrev isSystem : Field := ⟨44, 1⟩
abbrev dpl : Field := ⟨45, 2⟩
abbrev present : Field := ⟨47, 1⟩
abbrev limitHight : Field := ⟨48, 4⟩
abbrev longMode : Field := ⟨53, 1⟩
abbrev big : Field := ⟨54, 1⟩
abbrev granularity : Field := ⟨55, 1⟩
abbrev baseHigh : Field := ⟨56, 8⟩

end Descriptor

open Descriptor

/-- The byte `k` of a slot. -/
abbrev byteOf (k : ℕ) : Field := ⟨8 * k, 8⟩

/-- `memset` of the first bytes of a slot. -/
def memsetSlot (desc : BitVec 64) (ch : BitVec 8) : ℕ → BitVec 64
  | 0 => desc
  | n + 1 => (byteOf n).set (memsetSlot desc ch n) ch

/-- `if (type & entry)`, with the field written. -/
def writeIf (type entry : BitVec 32) (f : Field) (v : BitVec f.width → BitVec f.width)
    (desc : BitVec 64) : BitVec 64 :=
  if type &&& entry ≠ 0 then f.set desc (v (f.get desc)) else desc

/-- The flags of `set_gdt_desc`. -/
def setFlags (type : BitVec 32) (desc : BitVec 64) : BitVec 64 :=
  let desc := writeIf type gdtEntryG granularity (fun _ => 1) desc
  let desc := writeIf type gdtEntryD big (fun _ => 1) desc
  let desc := writeIf type gdtEntryL longMode (fun _ => 1) desc
  let desc := writeIf type gdtEntryP present (fun _ => 1) desc
  let desc := writeIf type gdtEntryS isSystem (fun _ => 1) desc
  let desc := writeIf type gdtEntryTypeX Descriptor.type (· ||| 1#4 <<< 3) desc
  let desc := writeIf type gdtEntryTypeEc Descriptor.type (· ||| 1#4 <<< 2) desc
  let desc := writeIf type gdtEntryTypeWr Descriptor.type (· ||| 1#4 <<< 1) desc
  writeIf type gdtEntryTypeA Descriptor.type (· ||| 1#4) desc

/-- The fields that `set_gdt_desc` assigns, in a slot that has been cleared. -/
def assignFields (base limit : BitVec 32) (DPL : BitVec 8) (desc : BitVec 64) : BitVec 64 :=
  let desc := limitLow.set desc (limit.setWidth 16)
  let desc := limitHight.set desc (((limit >>> 16).setWidth 8).setWidth 4)
  let desc := baseLow.set desc (base.setWidth 24)
  let desc := baseHigh.set desc ((base >>> 24).setWidth 8)
  dpl.set desc (DPL.setWidth 2)

abbrev GdtTable := Fin 128 → BitVec 64

def setGdtDesc (gdt_table : GdtTable) (idx : Fin 128) (base limit type : BitVec 32)
    (DPL : BitVec 8) : C (GdtTable × BitVec 16) := do
  cassert (¬ (limit &&& 0xFFF00000 ≠ 0 ∨ 3 < DPL)) "!(limit & 0xFFF00000 || DPL > 3)"
  let sel := (BitVec.ofNat 32 idx <<< 3 ||| DPL.setWidth 32).setWidth 16
  let desc := memsetSlot (gdt_table idx) 0 sizeofDesc
  let desc := assignFields base limit DPL desc
  let desc := setFlags type desc
  return (update gdt_table idx desc, sel)

inductive SegIdx where
  | kernelCodeSeg
  | kernelDataSeg
  | kernelTssSeg
  | userCodeSeg
  | userDataSeg
deriving DecidableEq

def SegIdx.idx : SegIdx → Fin 128
  | kernelCodeSeg => 1
  | kernelDataSeg => 2
  | kernelTssSeg => 3
  | userCodeSeg => 4
  | userDataSeg => 5

/-- `LIMIT_4G`. -/
abbrev limit4G : BitVec 32 := 0xfffff

/-- `sizeof(tss)`. -/
abbrev sizeofTss : BitVec 32 := 108

/-- A descriptor that is asked for: base, limit, type and DPL. -/
structure GdtArgs where
  base : BitVec 32
  limit : BitVec 32
  type : BitVec 32
  DPL : BitVec 8

/-- What `gdt_init` asks for; `tss` is an address. -/
def gdtArgs (tss : BitVec 32) : SegIdx → GdtArgs
  | .kernelCodeSeg =>
    ⟨0, limit4G, gdtEntryG ||| gdtEntryD ||| gdtEntryP ||| gdtEntryS ||| gdtEntryTypeX, 0⟩
  | .kernelDataSeg =>
    ⟨0, limit4G, gdtEntryG ||| gdtEntryD ||| gdtEntryP ||| gdtEntryS ||| gdtEntryTypeWr, 0⟩
  | .kernelTssSeg => ⟨tss, sizeofTss - 1, gdtEntryP ||| gdtEntryTypeX ||| gdtEntryTypeA, 0⟩
  | .userCodeSeg =>
    ⟨0, limit4G, gdtEntryG ||| gdtEntryD ||| gdtEntryP ||| gdtEntryS ||| gdtEntryTypeX, 3⟩
  | .userDataSeg =>
    ⟨0, limit4G, gdtEntryG ||| gdtEntryD ||| gdtEntryP ||| gdtEntryS ||| gdtEntryTypeWr, 3⟩

/-- A call of `set_gdt_desc` in `gdt_init`. -/
def loadSeg (tss : BitVec 32) (gdt_table : GdtTable) (seg : SegIdx) : C GdtTable := do
  let a := gdtArgs tss seg
  let (gdt_table, _) ← setGdtDesc gdt_table seg.idx a.base a.limit a.type a.DPL
  return gdt_table

/-- The table that `gdt_init` loads: `memset` clears it first. -/
def gdtInit (tss : BitVec 32) : C GdtTable :=
  [.kernelCodeSeg, .kernelDataSeg, .kernelTssSeg, .userCodeSeg, .userDataSeg].foldlM (loadSeg tss)
    fun _ => 0

/-! ## What a descriptor says -/

inductive Flag where
  | granularity
  | big
  | longMode
  | present
  | isSystem
  | typeX
  | typeEc
  | typeWr
  | typeA

/-- The bit of `type` that asks for the flag. -/
def Flag.entry : Flag → BitVec 32
  | granularity => gdtEntryG
  | big => gdtEntryD
  | longMode => gdtEntryL
  | present => gdtEntryP
  | isSystem => gdtEntryS
  | typeX => gdtEntryTypeX
  | typeEc => gdtEntryTypeEc
  | typeWr => gdtEntryTypeWr
  | typeA => gdtEntryTypeA

/-- The field of the flag, and its bit there. -/
def Flag.place : Flag → Field × ℕ
  | granularity => (Descriptor.granularity, 0)
  | big => (Descriptor.big, 0)
  | longMode => (Descriptor.longMode, 0)
  | present => (Descriptor.present, 0)
  | isSystem => (Descriptor.isSystem, 0)
  | typeX => (Descriptor.type, 3)
  | typeEc => (Descriptor.type, 2)
  | typeWr => (Descriptor.type, 1)
  | typeA => (Descriptor.type, 0)

/-- The flag stands in a slot. -/
def Flag.IsIn (f : Flag) (desc : BitVec 64) : Prop := (f.place.1.get desc).getLsbD f.place.2 = true

/-- The flag is asked for. -/
def Flag.Asked (f : Flag) (type : BitVec 32) : Prop := type &&& f.entry ≠ 0

instance (f : Flag) : DecidablePred f.IsIn := fun _ => inferInstanceAs (Decidable (_ = true))

instance (f : Flag) : DecidablePred f.Asked := fun _ => inferInstanceAs (Decidable (_ ≠ _))

/-- What a descriptor says. -/
@[ext] structure Segment where
  base : ℕ
  limit : ℕ
  DPL : ℕ
  flags : Set Flag

def decode (desc : BitVec 64) : Segment where
  base := (baseHigh.get desc).toNat * 2 ^ 24 + (baseLow.get desc).toNat
  limit := (limitHight.get desc).toNat * 2 ^ 16 + (limitLow.get desc).toNat
  DPL := (dpl.get desc).toNat
  flags := {f | f.IsIn desc}

def asked (base limit type : BitVec 32) (DPL : BitVec 8) : Segment where
  base := base.toNat
  limit := limit.toNat
  DPL := DPL.toNat
  flags := {f | f.Asked type}

/-! ## Bits -/

section Bits
variable {type base limit : BitVec 32} {DPL : BitVec 8} {desc : BitVec 64} {i : ℕ} {f : Flag}

/-- The bit of the flag in a slot. -/
def Flag.bit (f : Flag) : ℕ := f.place.1.lo + f.place.2

theorem Flag.isIn_iff : f.IsIn desc ↔ desc.getLsbD f.bit = true := by
  have hk : f.place.2 < f.place.1.width := by cases f <;> decide
  rw [IsIn, Field.getLsbD_get, decide_eq_true hk, Bool.true_and, bit]

theorem Flag.not_isIn_zero (f : Flag) : ¬ f.IsIn 0 := by
  cases f <;> decide

/-- What `memset` clears. -/
theorem memsetSlot_getLsbD {n : ℕ} (hn : n ≤ 8) :
    (memsetSlot desc 0 n).getLsbD i = (!decide (i < 8 * n) && desc.getLsbD i) := by
  induction n with
  | zero => simp [memsetSlot]
  | succ n ih =>
    have hf : (byteOf n).lo + (byteOf n).width ≤ 64 := by
      dsimp only
      omega
    rw [memsetSlot, Field.getLsbD_set hf, ih (by omega)]
    by_cases hi : (byteOf n).Has i
    · have hlt : i < 8 * (n + 1) := by
        simp only [Field.Has] at hi
        omega
      simp [hi, hlt]
    · have hiff : i < 8 * (n + 1) ↔ i < 8 * n := by
        simp only [Field.Has] at hi
        omega
      simp [hi, hiff]

/-- A flag that has a field of its own. -/
theorem writeIf_one_getLsbD (entry : BitVec 32) {b : ℕ} (hb : b + 1 ≤ 64) :
    (writeIf type entry ⟨b, 1⟩ (fun _ => 1) desc).getLsbD i = true ↔
      desc.getLsbD i = true ∨ type &&& entry ≠ 0 ∧ i = b := by
  unfold writeIf
  split
  case isTrue h =>
    rw [Field.getLsbD_set hb]
    by_cases hi : (⟨b, 1⟩ : Field).Has i
    · have heq : i = b := Nat.le_antisymm (Nat.lt_succ_iff.1 hi.2) hi.1
      rw [if_pos hi, heq]
      exact iff_of_true (by simp) (Or.inr ⟨h, rfl⟩)
    · have hne : i ≠ b := by
        rintro rfl
        exact hi ⟨le_rfl, Nat.lt_succ_self _⟩
      simp [hi, hne]
  case isFalse h => exact (or_iff_left fun hb => h hb.1).symm

/-- A flag in the field `type`. -/
theorem writeIf_type_getLsbD (entry : BitVec 32) {m : BitVec 4} {k : ℕ} (hk : k < 4)
    (hm : m = 1#4 <<< k) :
    (writeIf type entry Descriptor.type (· ||| m) desc).getLsbD i = true ↔
      desc.getLsbD i = true ∨ type &&& entry ≠ 0 ∧ i = 40 + k := by
  subst hm
  unfold writeIf
  split
  case isTrue h =>
    rw [Field.getLsbD_set (by decide)]
    by_cases hi : Descriptor.type.Has i
    · obtain ⟨j, rfl⟩ := Nat.exists_eq_add_of_le hi.1
      have hj : j < 4 := Nat.add_lt_add_iff_left.1 hi.2
      have hbit : (1#4 <<< k).getLsbD j = decide (j = k) := by
        rw [BitVec.getLsbD_shiftLeft, BitVec.getLsbD_one]
        by_cases hlt : j < k
        · simp [hlt, hlt.ne]
        · simp [hlt, hj]
          omega
      rw [if_pos hi, Nat.add_sub_cancel_left, BitVec.getLsbD_or, Field.getLsbD_get, hbit]
      have hcond : type &&& entry ≠ 0 ∧ 40 + j = 40 + k ↔ j = k := by
        rw [Nat.add_left_cancel_iff]
        exact and_iff_right h
      rw [hcond]
      simp [hj]
    · have hne : i ≠ 40 + k := by
        rintro rfl
        exact hi ⟨Nat.le_add_right .., Nat.add_lt_add_left hk _⟩
      simp [hi, hne]
  case isFalse h => exact (or_iff_left fun hb => h hb.1).symm

theorem Flag.exists_iff {P : Flag → Prop} : (∃ f, P f) ↔ P .granularity ∨ P .big ∨ P .longMode ∨
    P .present ∨ P .isSystem ∨ P .typeX ∨ P .typeEc ∨ P .typeWr ∨ P .typeA := by
  constructor
  · rintro ⟨f, h⟩
    cases f <;> simp only [h, true_or, or_true]
  · rintro (h | h | h | h | h | h | h | h | h) <;> exact ⟨_, h⟩

/-- **The flags are only ever raised.** -/
theorem setFlags_getLsbD : (setFlags type desc).getLsbD i = true ↔
    desc.getLsbD i = true ∨ ∃ f : Flag, f.Asked type ∧ i = f.bit := by
  dsimp only [setFlags]
  rw [writeIf_type_getLsbD _ (m := 1#4) (k := 0) (by decide) rfl,
    writeIf_type_getLsbD _ (k := 1) (by decide) rfl,
    writeIf_type_getLsbD _ (k := 2) (by decide) rfl,
    writeIf_type_getLsbD _ (k := 3) (by decide) rfl, writeIf_one_getLsbD _ (by decide),
    writeIf_one_getLsbD _ (by decide), writeIf_one_getLsbD _ (by decide),
    writeIf_one_getLsbD _ (by decide), writeIf_one_getLsbD _ (by decide)]
  rw [Flag.exists_iff]
  simp only [or_assoc]
  exact Iff.rfl

/-- A field without flags is not changed by them. -/
theorem get_setFlags {g : Field} (hg : ∀ f : Flag, ¬ g.Has f.bit) :
    g.get (setFlags type desc) = g.get desc := by
  refine Field.get_congr fun i hi => ?_
  rw [Bool.eq_iff_iff, setFlags_getLsbD]
  refine or_iff_left ?_
  rintro ⟨f, -, rfl⟩
  exact hg f hi

/-- The assigned fields hold what was assigned. -/
theorem get_assignFields (base limit : BitVec 32) (DPL : BitVec 8) (desc : BitVec 64) :
    limitLow.get (assignFields base limit DPL desc) = limit.setWidth 16 ∧
    limitHight.get (assignFields base limit DPL desc) = ((limit >>> 16).setWidth 8).setWidth 4 ∧
    baseLow.get (assignFields base limit DPL desc) = base.setWidth 24 ∧
    baseHigh.get (assignFields base limit DPL desc) = (base >>> 24).setWidth 8 ∧
    dpl.get (assignFields base limit DPL desc) = DPL.setWidth 2 := by
  dsimp only [assignFields]
  refine ⟨?_, ?_, ?_, ?_, Field.get_set (by decide) _⟩
  · rw [Field.get_set_of_disjoint (by decide) (by decide),
      Field.get_set_of_disjoint (by decide) (by decide),
      Field.get_set_of_disjoint (by decide) (by decide),
      Field.get_set_of_disjoint (by decide) (by decide), Field.get_set (by decide)]
  · rw [Field.get_set_of_disjoint (by decide) (by decide),
      Field.get_set_of_disjoint (by decide) (by decide),
      Field.get_set_of_disjoint (by decide) (by decide), Field.get_set (by decide)]
  · rw [Field.get_set_of_disjoint (by decide) (by decide),
      Field.get_set_of_disjoint (by decide) (by decide), Field.get_set (by decide)]
  · rw [Field.get_set_of_disjoint (by decide) (by decide), Field.get_set (by decide)]

/-- The assignments write no flag. -/
theorem assignFields_flag (f : Flag) :
    (assignFields base limit DPL desc).getLsbD f.bit = desc.getLsbD f.bit := by
  dsimp only [assignFields]
  rw [Field.getLsbD_set_of_not_has (by decide) (by cases f <;> decide),
    Field.getLsbD_set_of_not_has (by decide) (by cases f <;> decide),
    Field.getLsbD_set_of_not_has (by decide) (by cases f <;> decide),
    Field.getLsbD_set_of_not_has (by decide) (by cases f <;> decide),
    Field.getLsbD_set_of_not_has (by decide) (by cases f <;> decide)]

end Bits

/-! ## Descriptors -/

section Descriptors
variable {gdt_table : GdtTable} {idx : Fin 128} {base limit type : BitVec 32} {DPL : BitVec 8}
  {desc : BitVec 64}

/-- The slot after `set_gdt_desc`. -/
def newDesc (base limit type : BitVec 32) (DPL : BitVec 8) (desc : BitVec 64) : BitVec 64 :=
  setFlags type (assignFields base limit DPL (memsetSlot desc 0 sizeofDesc))

/-- A flag stands in the new descriptor if it was asked for, or stood in the slot before. -/
theorem isIn_newDesc (f : Flag) :
    f.IsIn (newDesc base limit type DPL desc) ↔ f.IsIn desc ∨ f.Asked type := by
  have hcleared : (!decide (f.bit < 8 * sizeofDesc)) = true := by cases f <;> decide
  rw [Flag.isIn_iff, Flag.isIn_iff, newDesc, setFlags_getLsbD, assignFields_flag,
    memsetSlot_getLsbD (by decide), hcleared, Bool.true_and]
  refine or_congr_right ⟨?_, fun h => ⟨f, h, rfl⟩⟩
  rintro ⟨g, hg, hfg⟩
  obtain rfl : f = g := by cases f <;> cases g <;> first | rfl | cases hfg
  exact hg

/-- The assertion of `set_gdt_desc`. -/
theorem limit_and_mask (h : limit.toNat < 2 ^ 20) : limit &&& 0xFFF00000 = 0 := by
  have hmask : (0xFFF00000 : BitVec 32) = BitVec.allOnes 32 <<< 20 := by decide
  refine BitVec.eq_of_getLsbD_eq fun i hi => ?_
  rw [hmask, BitVec.getLsbD_and, BitVec.getLsbD_shiftLeft]
  by_cases h20 : i < 20
  · simp [h20]
  · have hlt : limit.toNat < 2 ^ i := h.trans_le (Nat.pow_le_pow_right (by decide) (by omega))
    have hbit : limit.getLsbD i = false := Nat.testBit_lt_two_pow hlt
    simp [hbit]

theorem decode_newDesc_base : (decode (newDesc base limit type DPL desc)).base = base.toNat := by
  obtain ⟨-, -, hlow, hhigh, -⟩ := get_assignFields base limit DPL (memsetSlot desc 0 sizeofDesc)
  have hlt := base.isLt
  dsimp only [decode, newDesc]
  rw [get_setFlags (by intro f; cases f <;> decide), get_setFlags (by intro f; cases f <;> decide),
    hlow, hhigh, BitVec.toNat_setWidth, BitVec.toNat_setWidth, BitVec.toNat_ushiftRight,
    Nat.shiftRight_eq_div_pow]
  omega

theorem decode_newDesc_limit (h : limit.toNat < 2 ^ 20) :
    (decode (newDesc base limit type DPL desc)).limit = limit.toNat := by
  obtain ⟨hlow, hhigh, -, -, -⟩ := get_assignFields base limit DPL (memsetSlot desc 0 sizeofDesc)
  dsimp only [decode, newDesc]
  rw [get_setFlags (by intro f; cases f <;> decide), get_setFlags (by intro f; cases f <;> decide),
    hlow, hhigh, BitVec.toNat_setWidth, BitVec.toNat_setWidth, BitVec.toNat_setWidth,
    BitVec.toNat_ushiftRight, Nat.shiftRight_eq_div_pow]
  omega

theorem decode_newDesc_DPL (h : DPL.toNat ≤ 3) :
    (decode (newDesc base limit type DPL desc)).DPL = DPL.toNat := by
  obtain ⟨-, -, -, -, hdpl⟩ := get_assignFields base limit DPL (memsetSlot desc 0 sizeofDesc)
  dsimp only [decode, newDesc]
  rw [get_setFlags (by intro f; cases f <;> decide), hdpl, BitVec.toNat_setWidth]
  omega

/-- **What the new descriptor says**: what was asked for, and the flags that stood in the slot. -/
theorem decode_newDesc (base type : BitVec 32) (desc : BitVec 64) (hlimit : limit.toNat < 2 ^ 20)
    (hDPL : DPL.toNat ≤ 3) :
    decode (newDesc base limit type DPL desc) = asked base limit type DPL ↔
      ∀ f : Flag, f.IsIn desc → f.Asked type := by
  have hflags : (decode (newDesc base limit type DPL desc)).flags = {f | f.IsIn desc ∨ f.Asked type} :=
    Set.ext isIn_newDesc
  constructor
  · intro h f hf
    have hmem : f ∈ (decode (newDesc base limit type DPL desc)).flags := by
      rw [hflags]
      exact Or.inl hf
    rwa [h] at hmem
  · intro h
    refine Segment.ext decode_newDesc_base (decode_newDesc_limit hlimit) (decode_newDesc_DPL hDPL) ?_
    rw [hflags]
    exact Set.ext fun f => ⟨fun hf => hf.elim (h f) id, Or.inr⟩

/-- The selector. -/
theorem selector_toNat (hDPL : DPL.toNat ≤ 3) :
    ((BitVec.ofNat 32 idx <<< 3 ||| DPL.setWidth 32).setWidth 16).toNat = idx * 8 + DPL.toNat := by
  have hidx := idx.isLt
  have hsum : (idx : ℕ) <<< 3 ||| DPL.toNat = idx * 8 + DPL.toNat := by
    rw [← Nat.shiftLeft_add_eq_or_of_lt (by omega), Nat.shiftLeft_eq]
  rw [BitVec.toNat_setWidth, BitVec.toNat_or, BitVec.toNat_shiftLeft, BitVec.toNat_ofNat,
    BitVec.toNat_setWidth, Nat.mod_eq_of_lt (show (idx : ℕ) < 2 ^ 32 by omega),
    Nat.mod_eq_of_lt (show DPL.toNat < 2 ^ 32 by omega),
    Nat.mod_eq_of_lt (show (idx : ℕ) <<< 3 < 2 ^ 32 by rw [Nat.shiftLeft_eq]; omega), hsum]
  omega

theorem setGdtDesc_eq (gdt_table : GdtTable) (idx : Fin 128) (base type : BitVec 32)
    (hlimit : limit.toNat < 2 ^ 20) (hDPL : DPL.toNat ≤ 3) :
    ∃ sel, setGdtDesc gdt_table idx base limit type DPL =
        .ok (update gdt_table idx (newDesc base limit type DPL (gdt_table idx)), sel) ∧
      sel.toNat = idx * 8 + DPL.toNat := by
  have hassert : ¬ (limit &&& 0xFFF00000 ≠ 0 ∨ 3 < DPL) := by
    rintro (h | h)
    · exact h (limit_and_mask hlimit)
    · exact absurd (BitVec.lt_def.1 h) (by simpa using hDPL)
  refine ⟨_, ?_, selector_toNat hDPL⟩
  rw [setGdtDesc, cassert_pos hassert, ok_bind]
  rfl

/-- **When the descriptor is the one asked for**: no flag stood in the slot that is not asked for. -/
theorem setGdtDesc_iff (gdt_table : GdtTable) (idx : Fin 128) (base limit type : BitVec 32)
    (DPL : BitVec 8) (hlimit : limit.toNat < 2 ^ 20) (hDPL : DPL.toNat ≤ 3) :
    (∃ gdt_table' sel, setGdtDesc gdt_table idx base limit type DPL = .ok (gdt_table', sel) ∧
        decode (gdt_table' idx) = asked base limit type DPL ∧ sel.toNat = idx * 8 + DPL.toNat) ↔
      ∀ f : Flag, f.IsIn (gdt_table idx) → f.Asked type := by
  obtain ⟨sel, heq, hsel⟩ := setGdtDesc_eq gdt_table idx base type hlimit hDPL
  rw [heq, ← decode_newDesc base type (gdt_table idx) hlimit hDPL]
  constructor
  · rintro ⟨gdt_table', sel', h, hdecode, -⟩
    cases h
    rwa [update_self] at hdecode
  · intro h
    refine ⟨_, sel, rfl, ?_, hsel⟩
    rwa [update_self]

/-- A data segment gets another base: the flags of the old one are asked for again. -/
theorem setGdtDesc_iff_again : ∃ gdt_table sel,
    setGdtDesc (fun _ => 0x00CF92000000FFFF) 5 0x12345678 0xfffff
        (gdtEntryG ||| gdtEntryD ||| gdtEntryP ||| gdtEntryS ||| gdtEntryTypeWr) 3 =
      .ok (gdt_table, sel) ∧
      decode (gdt_table 5) = asked 0x12345678 0xfffff
        (gdtEntryG ||| gdtEntryD ||| gdtEntryP ||| gdtEntryS ||| gdtEntryTypeWr) 3 ∧
      sel.toNat = 5 * 8 + 3 :=
  (setGdtDesc_iff (fun _ => 0x00CF92000000FFFF) 5 0x12345678 0xfffff
    (gdtEntryG ||| gdtEntryD ||| gdtEntryP ||| gdtEntryS ||| gdtEntryTypeWr) 3 (by decide)
    (by decide)).2 fun f => by cases f <;> decide

/-- A data segment in the slot of a code segment becomes a code segment. -/
theorem setGdtDesc_code : ∃ gdt_table sel,
    setGdtDesc (fun _ => 0x00CF98000000FFFF) 1 0 0xfffff 0x98 0 = .ok (gdt_table, sel) ∧
      Flag.typeX ∈ (decode (gdt_table 1)).flags ∧
      Flag.typeX ∉ (asked 0 0xfffff 0x98 0).flags ∧
      decode (gdt_table 1) ≠ asked 0 0xfffff 0x98 0 := by
  have hlimit : (0xfffff#32).toNat < 2 ^ 20 := by decide
  have hDPL : (0#8).toNat ≤ 3 := by decide
  obtain ⟨sel, heq, -⟩ := setGdtDesc_eq (fun _ => 0x00CF98000000FFFF) 1 0 0x98 hlimit hDPL
  have hin : Flag.typeX ∈ (decode (newDesc 0 0xfffff 0x98 0 0x00CF98000000FFFF)).flags :=
    (isIn_newDesc .typeX).2 (Or.inl (show _ = true by decide))
  have hnot : Flag.typeX ∉ (asked 0 0xfffff 0x98 0).flags := fun h => h (by decide)
  refine ⟨_, sel, heq, ?_⟩
  rw [update_self]
  exact ⟨hin, hnot, fun h => hnot (h ▸ hin)⟩

end Descriptors

/-! ## The table of the kernel -/

section Table
variable {tss : BitVec 32} {seg : SegIdx} {gdt_table : GdtTable}

/-- The descriptor that `gdt_init` asks for. -/
def SegIdx.asked (tss : BitVec 32) (seg : SegIdx) : Segment :=
  Rdix.asked (gdtArgs tss seg).base (gdtArgs tss seg).limit (gdtArgs tss seg).type (gdtArgs tss seg).DPL

theorem SegIdx.idx_injective : Injective SegIdx.idx := by
  intro a b h
  cases a <;> cases b <;> first | rfl | cases h

/-- A segment is loaded in a slot that has been cleared. -/
theorem loadSeg_ok (tss : BitVec 32) (h : gdt_table seg.idx = 0) :
    ∃ desc, loadSeg tss gdt_table seg = .ok (update gdt_table seg.idx desc) ∧
      decode desc = seg.asked tss := by
  have hlimit : (gdtArgs tss seg).limit.toNat < 2 ^ 20 := by cases seg <;> dsimp only [gdtArgs] <;> decide
  have hDPL : (gdtArgs tss seg).DPL.toNat ≤ 3 := by cases seg <;> dsimp only [gdtArgs] <;> decide
  obtain ⟨sel, heq, -⟩ := setGdtDesc_eq gdt_table seg.idx (gdtArgs tss seg).base
    (gdtArgs tss seg).type hlimit hDPL
  refine ⟨_, ?_, (decode_newDesc _ _ (gdt_table seg.idx) hlimit hDPL).2 fun f hf => ?_⟩
  · rw [loadSeg, heq, ok_bind]
    rfl
  · rw [h] at hf
    exact absurd hf f.not_isIn_zero

theorem loadSegs_ok (tss : BitVec 32) (gdt_table : GdtTable) {segs : List SegIdx}
    (hnodup : segs.Nodup) (h : ∀ seg ∈ segs, gdt_table seg.idx = 0) :
    ∃ gdt_table', segs.foldlM (loadSeg tss) gdt_table = .ok gdt_table' ∧
      (∀ seg ∈ segs, decode (gdt_table' seg.idx) = seg.asked tss) ∧
      ∀ seg ∉ segs, gdt_table' seg.idx = gdt_table seg.idx := by
  induction segs generalizing gdt_table with
  | nil => exact ⟨gdt_table, rfl, fun _ h => absurd h List.not_mem_nil, fun _ _ => rfl⟩
  | cons s segs ih =>
    obtain ⟨hs, hnodup⟩ := List.nodup_cons.1 hnodup
    obtain ⟨desc, heq, hdesc⟩ := loadSeg_ok tss (h s List.mem_cons_self)
    have hne {seg : SegIdx} (hseg : seg ≠ s) : update gdt_table s.idx desc seg.idx = gdt_table seg.idx :=
      update_of_ne (SegIdx.idx_injective.ne hseg) ..
    obtain ⟨gdt_table', hok, hin, hout⟩ := ih _ hnodup fun seg hseg =>
      (hne (ne_of_mem_of_not_mem hseg hs)).trans (h seg (List.mem_cons_of_mem s hseg))
    refine ⟨gdt_table', ?_, fun seg hseg => ?_, fun seg hseg => ?_⟩
    · rw [List.foldlM_cons, heq]
      exact hok
    · rcases List.mem_cons.1 hseg with rfl | hseg
      · rw [hout seg hs, update_self, hdesc]
      · exact hin seg hseg
    · obtain ⟨hsne, hseg⟩ := not_or.1 (List.mem_cons.not.1 hseg)
      rw [hout seg hseg, hne hsne]

/-- **The segments of the kernel are those it asks for**: `gdt_init` clears the whole table first. -/
theorem gdtInit_decode (tss : BitVec 32) :
    ∃ gdt_table, gdtInit tss = .ok gdt_table ∧
      ∀ seg : SegIdx, decode (gdt_table seg.idx) = seg.asked tss := by
  have hnodup : [SegIdx.kernelCodeSeg, .kernelDataSeg, .kernelTssSeg, .userCodeSeg,
      .userDataSeg].Nodup := by decide
  obtain ⟨gdt_table, hok, hin, -⟩ := loadSegs_ok tss (fun _ => 0) hnodup fun _ _ => rfl
  exact ⟨gdt_table, hok, fun seg => hin seg (by cases seg <;> decide)⟩

end Table

end Rdix
