/-
  The commands to a disk (kernel/hba.c, rdix/ata.h): how they are encoded, and how they are sent
  without interrupts.

  * `bulidCmdTabFis` builds the FIS of a command, and `FisRegH2d.lba` and `FisRegH2d.count` read it
    as the device does;
  * `bulidCmdTabFis_addresses_iff`: which sectors it addresses;
  * `trySendCmd` polls the port, whose registers are streams of values;
  * `trySendCmd_polled_iff`: for which values it ends in time and reports what it has seen.
-/
import Rdix.Kernel.ListNode

namespace Rdix

open Nodes (Returns)

/-! ## The FIS of a command -/

/-- `ATA_CMD_IDENTIFY_DEVICE`. -/
abbrev ataCmdIdentifyDevice : BitVec 8 := 0xec

abbrev ataCmdReadDma : BitVec 8 := 0xc8

abbrev ataCmdReadDmaExt : BitVec 8 := 0x25

abbrev ataCmdWriteDma : BitVec 8 := 0xca

abbrev ataCmdWriteDmaExt : BitVec 8 := 0x35

abbrev fisRh2d : BitVec 8 := 0x27

/-- `FIS_REG_H2D`. -/
structure FisRegH2d where
  fis_type : BitVec 8
  pmport : BitVec 4
  rsv0 : BitVec 3
  c : BitVec 1
  command : BitVec 8
  featurel : BitVec 8
  lba0 : BitVec 8
  lba1 : BitVec 8
  lba2 : BitVec 8
  device : BitVec 8
  lba3 : BitVec 8
  lba4 : BitVec 8
  lba5 : BitVec 8
  featureh : BitVec 8
  countl : BitVec 8
  counth : BitVec 8
  icc : BitVec 8
  control : BitVec 8
  rsv1 : BitVec 32

namespace FisRegH2d

/-- What `memset` leaves. -/
def zero : FisRegH2d := ⟨0, 0, 0, 0, 0, 0, 0, 0, 0, 0, 0, 0, 0, 0, 0, 0, 0, 0, 0⟩

end FisRegH2d

/-- `count` is in sectors; the FIS is cleared first. -/
def bulidCmdTabFis (cmd : BitVec 8) (startlba : BitVec 64) (count : BitVec 16) : FisRegH2d :=
  let fis := FisRegH2d.zero
  let fis := { fis with fis_type := fisRh2d }
  let fis := { fis with c := 1 }
  let fis := { fis with command := cmd }
  let fis := if cmd = ataCmdIdentifyDevice then { fis with device := 0 } else fis
  let fis :=
    if cmd = ataCmdReadDmaExt ∨ cmd = ataCmdReadDma ∨ cmd = ataCmdWriteDmaExt ∨ cmd = ataCmdWriteDma
    then { fis with device := 1#8 <<< 6 } else fis
  let fis := { fis with lba0 := startlba.setWidth 8 }
  let fis := { fis with lba1 := (startlba >>> 8).setWidth 8 }
  let fis := { fis with lba2 := (startlba >>> 16).setWidth 8 }
  let fis := { fis with lba3 := (startlba >>> 24).setWidth 8 }
  let fis := { fis with lba4 := (startlba >>> 32).setWidth 8 }
  -- the source writes `lba4` twice
  let fis := { fis with lba4 := (startlba >>> 40).setWidth 8 }
  let fis := { fis with countl := count.setWidth 8 }
  { fis with counth := (count >>> 8).setWidth 8 }

/-- A command with a 48-bit address. -/
def IsExt (cmd : BitVec 8) : Prop := cmd = ataCmdReadDmaExt ∨ cmd = ataCmdWriteDmaExt

instance (cmd : BitVec 8) : Decidable (IsExt cmd) := inferInstanceAs (Decidable (_ ∨ _))

namespace FisRegH2d
variable (fis : FisRegH2d)

/-- The start address that the device reads: six bytes, or three and the low half of `device`. -/
def lba : ℕ :=
  if IsExt fis.command then
    fis.lba0.toNat + fis.lba1.toNat * 2 ^ 8 + fis.lba2.toNat * 2 ^ 16 + fis.lba3.toNat * 2 ^ 24 +
      fis.lba4.toNat * 2 ^ 32 + fis.lba5.toNat * 2 ^ 40
  else
    fis.lba0.toNat + fis.lba1.toNat * 2 ^ 8 + fis.lba2.toNat * 2 ^ 16 +
      (fis.device.toNat % 2 ^ 4) * 2 ^ 24

/-- The number of sectors that the device reads. -/
def count : ℕ := fis.countl.toNat + fis.counth.toNat * 2 ^ 8

/-- The LBA-mode bit. -/
def lbaMode : Bool := fis.device.getLsbD 6

end FisRegH2d

section Fis
variable {cmd : BitVec 8} (startlba : BitVec 64) (count : BitVec 16)

/-- A byte of an integer. -/
theorem toNat_byte {w : ℕ} (x : BitVec w) (k : ℕ) :
    ((x >>> k).setWidth 8).toNat = x.toNat / 2 ^ k % 2 ^ 8 := by
  rw [BitVec.toNat_setWidth, BitVec.toNat_ushiftRight, Nat.shiftRight_eq_div_pow]

theorem bulidCmdTabFis_count : (bulidCmdTabFis cmd startlba count).count = count.toNat := by
  have hlt := count.isLt
  show (count.setWidth 8).toNat + ((count >>> 8).setWidth 8).toNat * 2 ^ 8 = _
  rw [toNat_byte, BitVec.toNat_setWidth]
  omega

@[simp] theorem bulidCmdTabFis_command : (bulidCmdTabFis cmd startlba count).command = cmd := by
  unfold bulidCmdTabFis
  split_ifs <;> rfl

/-- The byte that no line writes. -/
theorem bulidCmdTabFis_lba5 : (bulidCmdTabFis cmd startlba count).lba5 = 0 := by
  unfold bulidCmdTabFis
  split_ifs <;> rfl

/-- The device byte of the four commands. -/
theorem bulidCmdTabFis_device (h : IsExt cmd ∨ cmd = ataCmdReadDma ∨ cmd = ataCmdWriteDma) :
    (bulidCmdTabFis cmd startlba count).device = 1#8 <<< 6 := by
  rcases h with (rfl | rfl) | rfl | rfl <;> rfl

theorem bulidCmdTabFis_lba_ext (h : IsExt cmd) : (bulidCmdTabFis cmd startlba count).lba =
    startlba.toNat % 2 ^ 32 + startlba.toNat / 2 ^ 40 % 2 ^ 8 * 2 ^ 32 := by
  rw [FisRegH2d.lba, bulidCmdTabFis_command, if_pos h, bulidCmdTabFis_lba5]
  show (startlba.setWidth 8).toNat + ((startlba >>> 8).setWidth 8).toNat * 2 ^ 8 +
    ((startlba >>> 16).setWidth 8).toNat * 2 ^ 16 + ((startlba >>> 24).setWidth 8).toNat * 2 ^ 24 +
    ((startlba >>> 40).setWidth 8).toNat * 2 ^ 32 + 0 * 2 ^ 40 = _
  rw [toNat_byte, toNat_byte, toNat_byte, toNat_byte, BitVec.toNat_setWidth]
  omega

theorem bulidCmdTabFis_lba (h : cmd = ataCmdReadDma ∨ cmd = ataCmdWriteDma) :
    (bulidCmdTabFis cmd startlba count).lba = startlba.toNat % 2 ^ 24 := by
  have hext : ¬ IsExt cmd := by rcases h with rfl | rfl <;> decide
  have hdevice := bulidCmdTabFis_device startlba count (Or.inr h)
  rw [FisRegH2d.lba, bulidCmdTabFis_command, if_neg hext, hdevice]
  show (startlba.setWidth 8).toNat + ((startlba >>> 8).setWidth 8).toNat * 2 ^ 8 +
    ((startlba >>> 16).setWidth 8).toNat * 2 ^ 16 + 0 * 2 ^ 24 = _
  rw [toNat_byte, toNat_byte, BitVec.toNat_setWidth]
  omega

/-- **The FIS addresses the requested sectors just when the bits of the start address that the code
    does not write are clear.** -/
theorem bulidCmdTabFis_addresses_iff (hcmd : IsExt cmd ∨ cmd = ataCmdReadDma ∨ cmd = ataCmdWriteDma)
    (hlba : startlba.toNat < if IsExt cmd then 2 ^ 48 else 2 ^ 28) :
    ((bulidCmdTabFis cmd startlba count).lba = startlba.toNat ∧
      (bulidCmdTabFis cmd startlba count).count = count.toNat ∧
      (bulidCmdTabFis cmd startlba count).lbaMode) ↔
    startlba.toNat < if IsExt cmd then 2 ^ 32 else 2 ^ 24 := by
  have hmode : (bulidCmdTabFis cmd startlba count).lbaMode := by
    rw [FisRegH2d.lbaMode, bulidCmdTabFis_device _ _ hcmd]
    rfl
  simp only [bulidCmdTabFis_count, hmode, and_true]
  by_cases hext : IsExt cmd
  · rw [if_pos hext] at hlba
    have hbyte : startlba.toNat / 2 ^ 40 < 2 ^ 8 := by omega
    rw [if_pos hext, bulidCmdTabFis_lba_ext _ _ hext, Nat.mod_eq_of_lt hbyte]
    omega
  · rw [if_neg hext] at hlba
    rw [if_neg hext, bulidCmdTabFis_lba _ _ (hcmd.resolve_left hext)]
    omega

/-- The last sector below two terabytes. -/
theorem bulidCmdTabFis_addresses_low :
    (bulidCmdTabFis ataCmdWriteDmaExt 0xffffffff 8).lba = 0xffffffff :=
  ((bulidCmdTabFis_addresses_iff 0xffffffff 8 (Or.inl (Or.inr rfl)) (by decide)).2 (by decide)).1

/-- **The sectors behind 8 gigabytes and behind 2 terabytes are taken for sector 0.** -/
theorem bulidCmdTabFis_high : (bulidCmdTabFis ataCmdWriteDma 0x1000000 1).lba = 0 ∧
    (bulidCmdTabFis ataCmdWriteDmaExt 0x100000000 1).lba = 0 := by decide

end Fis

/-! ## Sending without interrupts -/

/-- `send_status_t`. -/
inductive SendStatus where
  | SUCCESSFUL
  | NOT_SATA
  | BUSY
  | GENERAL_ERROR
deriving DecidableEq

/-- The registers that are written. -/
inductive HbaReg where
  | PxIS
  | PxCI
  | IS

/-- How often the loops have read PxTFD and PxCI, and what has been written. -/
structure SendLog where
  tfdPolls : ℕ
  ciPolls : ℕ
  writes : List (HbaReg × BitVec 32)

abbrev sataDevSig : BitVec 32 := 0x0101

/-- `value & HBA_PORT_TFD_BSY`. -/
def bsy (value : BitVec 32) : Bool := value.getLsbD 7

/-- The loop on PxTFD from its read `i` on: the number of reads, and the limit. -/
def bsyLoop (tfd : ℕ → BitVec 32) : ℕ → ℕ → ℕ → C (ℕ × ℕ)
  | 0, _, _ => throw .loop
  | fuel + 1, i, limit =>
    if bsy (tfd i) then bsyLoop tfd fuel (i + 1) (u32 (limit + (2 ^ 32 - 1)))
    else return (i + 1, limit)

/-- The loop on PxCI, which ends with the limit. -/
def ciLoop (ci : ℕ → BitVec 32) (slot : ℕ) : ℕ → ℕ → ℕ × ℕ
  | 0, i => (i + 1, 0)
  | limit + 1, i => if (ci i).getLsbD slot then ciLoop ci slot limit (i + 1) else (i + 1, limit + 1)

/-- `try_send_cmd` after its loops, the second of which has left `q`. -/
def sendEnd (ci : ℕ → BitVec 32) (slot : Fin 32) (tfdPolls : ℕ) (q : ℕ × ℕ) : SendStatus × SendLog :=
  let sent : List (HbaReg × BitVec 32) := [(.PxIS, -1), (.PxCI, ci 0 ||| 1#32 <<< slot.val)]
  if q.2 = 0 then
    let cleared := ci (q.1 + 1) &&& ~~~(1#32 <<< slot.val)
    (.GENERAL_ERROR, ⟨tfdPolls, q.1, sent ++ [(.PxCI, cleared)]⟩)
  else (.SUCCESSFUL, ⟨tfdPolls, q.1, sent ++ [(.PxIS, -1), (.IS, -1)]⟩)

/-- `try_send_cmd` when there are no tasks or the disk is one of qemu.  `tfd` and `ci` are what the
    reads of the two registers give, and the status is also that of the port. -/
def trySendCmd (fuel : ℕ) (sig : BitVec 32) (tfd ci : ℕ → BitVec 32) (slot : Fin 32) :
    C (SendStatus × SendLog) :=
  if sig ≠ sataDevSig then return (.NOT_SATA, ⟨0, 0, []⟩)
  else do
    let r ← bsyLoop tfd fuel 0 0x100000
    if r.2 = 0 then return (.BUSY, ⟨r.1, 0, []⟩)
    return sendEnd ci slot r.1 (ciLoop (fun i => ci (i + 1)) slot 0x100000 0)

/-- What a command that has been sent should come to.  The port reads PxCI once to issue it. -/
structure Submitted (tfd ci : ℕ → BitVec 32) (slot : Fin 32) (r : SendStatus × SendLog) : Prop where
  bounded : r.2.tfdPolls + r.2.ciPolls ≤ 2 * 0x100000
  busy : (∀ i < 0x100000, bsy (tfd i)) → r.1 = .BUSY ∧ r.2.writes = []
  error : r.1 ≠ .BUSY → (∀ i < 0x100000, (ci (i + 1)).getLsbD slot) → r.1 = .GENERAL_ERROR
  success : r.1 = .SUCCESSFUL →
    (∃ i < r.2.tfdPolls, ¬ bsy (tfd i)) ∧ ∃ i < r.2.ciPolls, ¬ (ci (i + 1)).getLsbD slot

section Loops
variable {tfd ci : ℕ → BitVec 32} {slot : Fin 32} {n : ℕ}

/-- The loop ends with the first read that is clear, and its limit goes on below zero. -/
theorem bsyLoop_returns (k n limit : ℕ) (hlimit : limit < 2 ^ 32)
    (hbusy : ∀ i < k, bsy (tfd (n + i))) (hclear : ¬ bsy (tfd (n + k))) :
    Returns (fun fuel => bsyLoop tfd fuel n limit) (n + k + 1, u32 (limit + k * (2 ^ 32 - 1))) := by
  induction k generalizing n limit with
  | zero =>
    rw [Nat.zero_mul, Nat.add_zero limit, u32_of_lt hlimit]
    exact (Returns.const (x := .ok (n + 1, limit)) rfl).turn rfl fun fuel => if_neg hclear
  | succ k ih =>
    have hnext := ih (n + 1) (u32 (limit + (2 ^ 32 - 1))) (Nat.mod_lt _ (by norm_num))
      (fun i hi => ?_) ?_
    · have hsum : u32 (u32 (limit + (2 ^ 32 - 1)) + k * (2 ^ 32 - 1)) =
          u32 (limit + (k + 1) * (2 ^ 32 - 1)) := by
        rw [u32, u32, Nat.mod_add_mod, u32]
        congr 1
        ring
      rw [hsum, show n + 1 + k + 1 = n + (k + 1) + 1 by omega] at hnext
      exact hnext.turn rfl fun fuel => if_pos (hbusy 0 k.succ_pos)
    · rw [Nat.add_right_comm]
      exact hbusy (i + 1) (Nat.succ_lt_succ hi)
    · rwa [Nat.add_right_comm]

/-- The loop does not end before a read that is clear. -/
theorem bsyLoop_clear {fuel limit : ℕ} {r : ℕ × ℕ} (h : bsyLoop tfd fuel n limit = .ok r) :
    ∃ m, ¬ bsy (tfd m) := by
  induction fuel generalizing n limit with
  | zero => cases h
  | succ fuel ih =>
    unfold bsyLoop at h
    split_ifs at h with hb
    · exact ih h
    · exact ⟨n, hb⟩

/-- The reads of PxCI: up to the first one that is clear, or one more than the limit. -/
theorem ciLoop_spec (ci : ℕ → BitVec 32) (slot : Fin 32) (n limit : ℕ) :
    (∃ k < limit, ¬ (ci (n + k)).getLsbD slot ∧ ciLoop ci slot limit n = (n + k + 1, limit - k)) ∨
    (∀ k < limit, (ci (n + k)).getLsbD slot) ∧ ciLoop ci slot limit n = (n + limit + 1, 0) := by
  induction limit generalizing n with
  | zero => exact Or.inr ⟨fun k hk => absurd hk k.not_lt_zero, rfl⟩
  | succ limit ih =>
    unfold ciLoop
    by_cases hb : (ci n).getLsbD slot
    · rw [if_pos hb]
      rcases ih (n + 1) with ⟨k, hk, hclear, he⟩ | ⟨hset, he⟩
      · rw [Nat.add_right_comm] at hclear
        refine Or.inl ⟨k + 1, Nat.succ_lt_succ hk, hclear, ?_⟩
        rw [he, Nat.add_sub_add_right, Nat.add_right_comm n 1 k]
        rfl
      · refine Or.inr ⟨fun k hk => ?_, ?_⟩
        · cases k with
          | zero => exact hb
          | succ k =>
            have hk := hset k (Nat.lt_of_succ_lt_succ hk)
            rwa [Nat.add_right_comm] at hk
        · rw [he, Nat.add_right_comm n 1 limit]
          rfl
    · rw [if_neg hb]
      exact Or.inl ⟨0, limit.succ_pos, hb, rfl⟩

end Loops

section Submit
variable {tfd ci : ℕ → BitVec 32} {slot : Fin 32} {n : ℕ}

/-- The first clear read of PxTFD is the read `n`. -/
def FirstClear (tfd : ℕ → BitVec 32) (n : ℕ) : Prop := ¬ bsy (tfd n) ∧ ∀ i < n, bsy (tfd i)

theorem exists_firstClear {m : ℕ} (h : ¬ bsy (tfd m)) : ∃ n, FirstClear tfd n := by
  classical
  have hex : ∃ m, ¬ bsy (tfd m) := ⟨m, h⟩
  exact ⟨Nat.find hex, Nat.find_spec hex, fun i hi => not_not.1 (Nat.find_min hex hi)⟩

/-- The limit after the first loop. -/
def limitAfter (n : ℕ) : ℕ := u32 (0x100000 + n * (2 ^ 32 - 1))

theorem FirstClear.loop (h : FirstClear tfd n) :
    Returns (fun fuel => bsyLoop tfd fuel 0 0x100000) (n + 1, limitAfter n) := by
  have hloop := bsyLoop_returns n 0 0x100000 (by norm_num)
    (by simpa using h.2) (by simpa using h.1)
  rwa [Nat.zero_add] at hloop

/-- The second loop is not unfolded: its limit is a large number. -/
theorem trySendCmd_eq {q : ℕ × ℕ} (hq : ciLoop (fun i => ci (i + 1)) slot 0x100000 0 = q)
    (fuel : ℕ) : trySendCmd fuel sataDevSig tfd ci slot =
      bsyLoop tfd fuel 0 0x100000 >>= fun r =>
        if r.2 = 0 then .ok (.BUSY, ⟨r.1, 0, []⟩) else .ok (sendEnd ci slot r.1 q) := by
  rw [trySendCmd, if_neg (not_not.2 rfl), hq]
  rfl

/-- **The port has been busy for the whole limit**, or for a multiple of `2 ^ 32` reads more. -/
theorem FirstClear.busy (h : FirstClear tfd n) (hlimit : limitAfter n = 0) :
    Returns (fun fuel => trySendCmd fuel sataDevSig tfd ci slot) (.BUSY, ⟨n + 1, 0, []⟩) := by
  obtain ⟨q, hq⟩ : ∃ q, ciLoop (fun i => ci (i + 1)) slot 0x100000 0 = q := ⟨_, rfl⟩
  simp only [trySendCmd_eq hq]
  exact h.loop.bind (if_pos hlimit)

/-- The second loop follows. -/
theorem FirstClear.issued (h : FirstClear tfd n) (hlimit : limitAfter n ≠ 0) {q : ℕ × ℕ}
    (hq : ciLoop (fun i => ci (i + 1)) slot 0x100000 0 = q) :
    Returns (fun fuel => trySendCmd fuel sataDevSig tfd ci slot) (sendEnd ci slot (n + 1) q) := by
  simp only [trySendCmd_eq hq]
  exact h.loop.bind (if_neg hlimit)

/-- **The command is issued**: its bit is seen clear within the limit, or the call gives up. -/
theorem FirstClear.outcome (h : FirstClear tfd n) (hlimit : limitAfter n ≠ 0)
    (ci : ℕ → BitVec 32) (slot : Fin 32) :
    ∃ status ciPolls writes,
      Returns (fun fuel => trySendCmd fuel sataDevSig tfd ci slot)
        (status, ⟨n + 1, ciPolls, writes⟩) ∧
      ((∃ k < 0x100000, ¬ (ci (k + 1)).getLsbD slot ∧ status = .SUCCESSFUL ∧ ciPolls = k + 1) ∨
        (∀ k < 0x100000, (ci (k + 1)).getLsbD slot) ∧ status = .GENERAL_ERROR ∧
          ciPolls = 0x100000 + 1) := by
  rcases ciLoop_spec (fun i => ci (i + 1)) slot 0 0x100000 with
    ⟨k, hk, hclear, he⟩ | ⟨hset, he⟩
  · have hr := h.issued hlimit he
    rw [sendEnd, if_neg (Nat.sub_pos_of_lt hk).ne'] at hr
    rw [Nat.zero_add] at hr hclear
    exact ⟨_, _, _, hr, Or.inl ⟨k, hk, hclear, rfl, rfl⟩⟩
  · have hr := h.issued hlimit he
    rw [sendEnd, if_pos rfl, Nat.zero_add] at hr
    simp only [Nat.zero_add] at hset
    exact ⟨_, _, _, hr, Or.inr ⟨hset, rfl, rfl⟩⟩

/-- A read uses up one of the limit. -/
theorem limitAfter_of_le (hn : n ≤ 0x100000) : limitAfter n = 0x100000 - n := by
  have hsum : 0x100000 + n * (2 ^ 32 - 1) = 0x100000 - n + n * 2 ^ 32 := by omega
  rw [limitAfter, hsum, u32, Nat.add_mul_mod_self_right, Nat.mod_eq_of_lt (by omega)]

/-- Below zero the limit is a large one. -/
theorem limitAfter_of_lt (hn : 0x100000 < n) (hlt : n ≤ 2 ^ 32) :
    limitAfter n = 2 ^ 32 + 0x100000 - n := by
  have hsum : 0x100000 + n * (2 ^ 32 - 1) = 2 ^ 32 + 0x100000 - n + (n - 1) * 2 ^ 32 := by omega
  rw [limitAfter, hsum, u32, Nat.add_mul_mod_self_right, Nat.mod_eq_of_lt (by omega)]

/-- **A command that is sent without interrupts ends in time and reports what has been seen** just
    when PxTFD is seen clear within the limit, at the latest by the read that ends it, and when PxCI
    is seen clear within its own limit if PxTFD was by the last read before. -/
theorem trySendCmd_polled_iff (tfd ci : ℕ → BitVec 32) (slot : Fin 32) :
    (∃ r, Returns (fun fuel => trySendCmd fuel sataDevSig tfd ci slot) r ∧
      Submitted tfd ci slot r) ↔
    ∃ n ≤ 0x100000, FirstClear tfd n ∧
      (n + 1 = 0x100000 → ∃ k < 0x100000, ¬ (ci (k + 1)).getLsbD slot) := by
  constructor
  · rintro ⟨r, hr, hsub⟩
    obtain ⟨m, hm⟩ : ∃ m, ¬ bsy (tfd m) := by
      obtain ⟨b, hb⟩ := hr.enough
      obtain ⟨q, hq, -⟩ := bind_eq_ok.1 (hb b le_rfl)
      exact bsyLoop_clear hq
    obtain ⟨n, hn⟩ := exists_firstClear hm
    by_cases hlimit : limitAfter n = 0
    · have hpolls := hsub.bounded
      obtain rfl := hr.unique (hn.busy hlimit)
      refine ⟨n, ?_, hn, fun he => ?_⟩
      · by_contra hgt
        rw [limitAfter_of_lt (not_le.1 hgt) (by simp only at hpolls; omega)] at hlimit
        simp only at hpolls
        omega
      · rw [limitAfter_of_le (by omega)] at hlimit
        omega
    · obtain ⟨status, ciPolls, writes, hr', hcase⟩ := hn.outcome hlimit ci slot
      obtain rfl := hr.unique hr'
      have hpolls : n + 1 + ciPolls ≤ 2 * 0x100000 := hsub.bounded
      have hle : n ≤ 0x100000 := by
        by_contra hgt
        have hbusy := (hsub.busy fun i hi => hn.2 i (by omega)).1
        rcases hcase with ⟨k, -, -, rfl, -⟩ | ⟨-, rfl, -⟩ <;> cases hbusy
      refine ⟨n, hle, hn, fun hlast => ?_⟩
      rcases hcase with ⟨k, hk, hclear, -⟩ | ⟨-, -, rfl⟩
      · exact ⟨k, hk, hclear⟩
      · omega
  · rintro ⟨n, hle, hn, hlast⟩
    by_cases hlimit : limitAfter n = 0
    · have hlen := limitAfter_of_le hle
      obtain rfl : n = 0x100000 := by omega
      refine ⟨_, hn.busy hlimit, ⟨by norm_num, fun _ => ⟨rfl, rfl⟩, fun h => absurd rfl h, ?_⟩⟩
      intro h
      cases h
    · have hlen := limitAfter_of_le hle
      have hlt : n < 0x100000 := by omega
      obtain ⟨status, ciPolls, writes, hr, hcase⟩ := hn.outcome hlimit ci slot
      refine ⟨_, hr, ?_, fun hbusy => absurd (hbusy n hlt) hn.1, fun _ hset => ?_, fun hs => ?_⟩
      · show n + 1 + ciPolls ≤ 2 * 0x100000
        rcases hcase with ⟨k, hk, -, -, rfl⟩ | ⟨hset, -, rfl⟩
        · omega
        · have hne : n + 1 ≠ 0x100000 := fun he => by
            obtain ⟨k, hk, hclear⟩ := hlast he
            exact hclear (hset k hk)
          omega
      · rcases hcase with ⟨k, hk, hclear, -⟩ | ⟨-, rfl, -⟩
        · exact absurd (hset k hk) hclear
        · rfl
      · refine ⟨⟨n, n.lt_succ_self, hn.1⟩, ?_⟩
        rcases hcase with ⟨k, hk, hclear, -, rfl⟩ | ⟨-, rfl, -⟩
        · exact ⟨k, k.lt_succ_self, hclear⟩
        · cases hs

/-- **A port that stays busy is polled forever.** -/
theorem trySendCmd_stays_busy : ¬ ∃ r,
    Returns (fun fuel => trySendCmd fuel sataDevSig (fun _ => 0x80) (fun _ => 0) 0) r := by
  rintro ⟨r, hr⟩
  obtain ⟨b, hb⟩ := hr.enough
  obtain ⟨q, hq, -⟩ := bind_eq_ok.1 (hb b le_rfl)
  obtain ⟨m, hm⟩ := bsyLoop_clear hq
  exact hm rfl

end Submit

end Rdix
