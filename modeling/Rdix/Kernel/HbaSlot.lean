/-
  The slot of a command (kernel/hba.c: build_cmd_head, build_cmd_tab_item, load_ata_cmd,
  sata_sending_wait, try_send_cmd, sata_send_cmd).

  No other task sends a command to the port in between: `device_request` lets one in at a time.

  * `loadAtaCmd` looks for a slot whose PxCI bit is clear and fills its header and its table;
  * `trySend` issues the slot, and either waits for the interrupt or polls the port;
  * `sataSendCmd_prepared_iff`: only slots that have been prepared are issued just when one of the
    slots that the port has is free.
-/
import Rdix.Kernel.Hba

namespace Rdix

open Function
open Nodes (Returns)

/-! ## The code -/

/-- `cmd_list_slot`. -/
structure CmdListSlot where
  CFL : BitVec 5
  flag_pwa : BitVec 3
  flag_rcbr : BitVec 4
  PMP : BitVec 4
  PRDTL : BitVec 16
  PRDBC : BitVec 32
  CTBA : BitVec 25
  CTBAU : BitVec 32

/-- `cmd_tab_item`. -/
structure CmdTabItem where
  dba : BitVec 32
  dbau : BitVec 32
  dbc : BitVec 22
  i : BitVec 1

/-- `cmd_tab_t`, with one item. -/
structure CmdTab where
  cfis : FisRegH2d
  item : CmdTabItem

/-- A command: `dev->data`, and the address that `malloc` gives for its table. -/
structure AtaCmd where
  cmd : BitVec 8
  startlba : BitVec 64
  count : BitVec 16
  data : BitVec 32
  cmd_tab : BitVec 32
  get_phy_addr : BitVec 32 → BitVec 32

/-- The command list, and the tables at their physical addresses.  The list has
    `per_port_slot_cnt` headers; the memory behind it is written to like it. -/
structure PortMem where
  vPxCLB : ℕ → CmdListSlot
  tab : BitVec 32 → Option CmdTab

def IsWrite (cmd : BitVec 8) : Prop := cmd = ataCmdWriteDmaExt ∨ cmd = ataCmdWriteDma

instance (cmd : BitVec 8) : Decidable (IsWrite cmd) := inferInstanceAs (Decidable (_ ∨ _))

def buildCmdHead (CFL : BitVec 8) (PRDTL : BitVec 16) (base : BitVec 32) (cmd : BitVec 8) :
    C CmdListSlot := do
  cassert (CFL ≤ 0x10) "CFL <= 0x10"
  cassert (base &&& 0x7f = 0) "!(base & 0x7f)"
  return ⟨CFL.setWidth 5, if IsWrite cmd then 0b010 else 0, 0, 0, PRDTL, 0, (base >>> 7).setWidth 25, 0⟩

def buildCmdTabItem (a : AtaCmd) : C CmdTabItem := do
  let size := a.count.setWidth 32 <<< 9
  cassert (a.data &&& 1 = 0) "!((u32)data & 1)"
  return ⟨a.get_phy_addr a.data, 0, (size - 1).setWidth 22, 1⟩

/-- The search for a free slot, with `n` slots left; the read for `slot` gives `ci slot`. -/
def freeSlot (ci : ℕ → BitVec 32) : ℕ → ℕ → ℕ
  | 0, _ => 32
  | n + 1, slot => if ¬ (ci slot).getLsbD slot then slot else freeSlot ci n (slot + 1)

/-- `load_ata_cmd`: the slot, or 32. -/
def loadAtaCmd (ci : ℕ → BitVec 32) (a : AtaCmd) (m : PortMem) : C (ℕ × PortMem) := do
  let free_slot := freeSlot ci 32 0
  if free_slot = 32 then return (32, m)
  cassert (a.data ≠ 0) "dev->data != NULL"
  -- a FIS has five words
  let head ← buildCmdHead 5 1 (a.get_phy_addr a.cmd_tab) a.cmd
  let item ← buildCmdTabItem a
  return (free_slot, ⟨update m.vPxCLB free_slot head, update m.tab (a.get_phy_addr a.cmd_tab)
    (some ⟨bulidCmdTabFis a.cmd a.startlba a.count, item⟩)⟩)

/-- What `try_send_cmd` reads: the registers, whether it waits (there are tasks, and the disk is not
    one of qemu), `port->sending` before and after `sata_busy_wait`, and the status of the timer, which
    is a child of the caller. -/
structure PortReads where
  sig : BitVec 32
  tfd : ℕ → BitVec 32
  ci : ℕ → BitVec 32
  waits : Bool
  sending : Bool
  sendingThen : Bool
  status : BitVec 32

/-- The shift `1 << slot` takes the slot modulo 32. -/
def slotBit (slot : ℕ) : Fin 32 := Fin.ofNat 32 slot

/-- `sata_busy_wait`: `port->sending` at its end. -/
def sataBusyWait (e : PortReads) : C Bool := do
  if bsy (e.tfd 0) then
    cassert (e.sending = true) "port->sending != NULL"
    return e.sendingThen
  return e.sending

/-- `sata_sending_wait`: the status, and what is written. -/
def sataSendingWait (e : PortReads) (sending : Bool) (slot : Fin 32) : C (BitVec 32 × SendLog) := do
  cassert (sending = false) "port->sending == NULL"
  return (e.status, ⟨1, 0, [(.PxIS, -1), (.PxCI, e.ci 0 ||| 1#32 <<< slot.val)]⟩)

/-- `try_send_cmd`. -/
def trySend (fuel : ℕ) (e : PortReads) (slot : ℕ) : C (SendStatus × SendLog) :=
  if e.sig = sataDevSig ∧ e.waits then do
    let sending ← sataBusyWait e
    let r ← sataSendingWait e sending (slotBit slot)
    return (if r.1 = 0 then .SUCCESSFUL else .GENERAL_ERROR, r.2)
  else trySendCmd fuel e.sig e.tfd e.ci (slotBit slot)

/-- What `sata_send_cmd` leaves behind. -/
structure Sent where
  status : SendStatus
  log : SendLog
  mem : PortMem

/-- `sata_send_cmd`. -/
def sataSendCmd (ci : ℕ → BitVec 32) (a : AtaCmd) (m : PortMem) (e : PortReads) (fuel : ℕ) : C Sent := do
  let r ← loadAtaCmd ci a m
  let s ← trySend fuel e r.1
  return ⟨s.1, s.2, r.2⟩

/-! ## Prepared slots -/

/-- The header and the table of a slot are those of the command. -/
structure Filled (a : AtaCmd) (m : PortMem) (slot : ℕ) : Prop where
  head : (m.vPxCLB slot).CFL = 5 ∧ (m.vPxCLB slot).PRDTL = 1 ∧
    ((m.vPxCLB slot).flag_pwa = 0b010 ↔ IsWrite a.cmd)
  table : ∃ item, m.tab ((m.vPxCLB slot).CTBA.setWidth 32 <<< 7) =
      some ⟨bulidCmdTabFis a.cmd a.startlba a.count, item⟩ ∧
    item.dba = a.get_phy_addr a.data ∧ item.dbc = (a.count.setWidth 32 <<< 9 - 1).setWidth 22

/-- Some slot that the port has is free. -/
def Free (ci : ℕ → BitVec 32) (cnt : ℕ) : Prop := ∃ slot < cnt, ¬ (ci slot).getLsbD slot

/-- **Only prepared slots are issued**: PxCI is written with what has been read of it and the bit of a
    free slot that the port has and that is filled for the command, or with such a bit taken out; and
    without a free slot it is not written, and the command is no success. -/
structure Prepared (ci : ℕ → BitVec 32) (cnt : ℕ) (a : AtaCmd) (e : PortReads) (r : Sent) : Prop where
  only : ∀ w, (.PxCI, w) ∈ r.log.writes → ∃ slot < cnt, ¬ (ci slot).getLsbD slot ∧ Filled a r.mem slot ∧
    (w = e.ci 0 ||| 1#32 <<< slot ∨ ∃ k, w = e.ci k &&& ~~~(1#32 <<< slot))
  none : ¬ Free ci cnt → (∀ w, (.PxCI, w) ∉ r.log.writes) ∧ r.status ≠ .SUCCESSFUL

/-- The assertions on the command hold. -/
def AtaCmd.Accepted (a : AtaCmd) : Prop :=
  a.data ≠ 0 ∧ a.get_phy_addr a.cmd_tab &&& 0x7f = 0 ∧ a.data &&& 1 = 0

/-- `try_send_cmd` gets to the write of PxCI. -/
def PortReads.Sends (e : PortReads) : Prop :=
  e.sig = sataDevSig ∧
    if e.waits then (if bsy (e.tfd 0) then e.sending = true ∧ e.sendingThen = false else e.sending = false)
    else ∃ n, FirstClear e.tfd n ∧ limitAfter n ≠ 0

section Slots
variable {ci : ℕ → BitVec 32} {cnt slot n fuel : ℕ} {a : AtaCmd} {m : PortMem} {e : PortReads} {r : Sent}

/-- **The search finds the first free slot.** -/
theorem freeSlot_spec (ci : ℕ → BitVec 32) (n slot : ℕ) (hn : slot + n = 32) :
    (freeSlot ci n slot < 32 ∧ slot ≤ freeSlot ci n slot ∧
      ¬ (ci (freeSlot ci n slot)).getLsbD (freeSlot ci n slot) ∧
      ∀ i, slot ≤ i → i < freeSlot ci n slot → (ci i).getLsbD i) ∨
    freeSlot ci n slot = 32 ∧ ∀ i, slot ≤ i → i < 32 → (ci i).getLsbD i := by
  induction n generalizing slot with
  | zero => exact Or.inr ⟨rfl, fun i hi hlt => by omega⟩
  | succ n ih =>
    unfold freeSlot
    by_cases hclear : ¬ (ci slot).getLsbD slot
    · rw [if_pos hclear]
      exact Or.inl ⟨by omega, le_rfl, hclear, fun i hi hlt => by omega⟩
    · rw [if_neg hclear]
      have hset : ∀ i, slot ≤ i → (slot + 1 ≤ i → (ci i).getLsbD i) → (ci i).getLsbD i := by
        intro i hi h
        rcases Nat.eq_or_lt_of_le hi with rfl | hlt
        · exact not_not.1 hclear
        · exact h hlt
      rcases ih (slot + 1) (by omega) with ⟨hlt, hle, hc, hbelow⟩ | ⟨h32, hall⟩
      · exact Or.inl ⟨hlt, by omega, hc, fun i hi hi' => hset i hi fun h => hbelow i h hi'⟩
      · exact Or.inr ⟨h32, fun i hi hi' => hset i hi fun h => hall i h hi'⟩

/-- The address of a table is read back from its header. -/
theorem ctba_base {base : BitVec 32} (h : base &&& 0x7f = 0) :
    ((base >>> 7).setWidth 25).setWidth 32 <<< 7 = base := by
  have hlow : base.toNat % 2 ^ 7 = 0 := by
    have hand := congrArg BitVec.toNat h
    rw [BitVec.toNat_and] at hand
    exact (Nat.and_two_pow_sub_one_eq_mod base.toNat 7).symm.trans hand
  have hlt := base.isLt
  apply BitVec.eq_of_toNat_eq
  simp only [BitVec.toNat_shiftLeft, BitVec.toNat_setWidth, BitVec.toNat_ushiftRight,
    Nat.shiftRight_eq_div_pow, Nat.shiftLeft_eq]
  omega

theorem buildCmdHead_eq_ok {base : BitVec 32} {cmd : BitVec 8} {head : CmdListSlot}
    (h : buildCmdHead 5 1 base cmd = .ok head) : base &&& 0x7f = 0 ∧
      head = ⟨5, if IsWrite cmd then 0b010 else 0, 0, 0, 1, 0, (base >>> 7).setWidth 25, 0⟩ := by
  obtain ⟨-, h⟩ := cassert_bind_eq_ok.1 h
  obtain ⟨hbase, h⟩ := cassert_bind_eq_ok.1 h
  exact ⟨hbase, (Except.ok.inj h).symm⟩

theorem buildCmdTabItem_eq_ok {item : CmdTabItem} (h : buildCmdTabItem a = .ok item) :
    a.data &&& 1 = 0 ∧
      item = ⟨a.get_phy_addr a.data, 0, (a.count.setWidth 32 <<< 9 - 1).setWidth 22, 1⟩ := by
  obtain ⟨hdata, h⟩ := cassert_bind_eq_ok.1 h
  exact ⟨hdata, (Except.ok.inj h).symm⟩

/-- **`load_ata_cmd`** gives the first free slot and fills it, or 32. -/
theorem loadAtaCmd_eq_ok {q : ℕ × PortMem} (h : loadAtaCmd ci a m = .ok q) :
    (¬ (ci q.1).getLsbD q.1 ∧ (∀ i < q.1, (ci i).getLsbD i) ∧ q.1 < 32 ∧ a.Accepted ∧ Filled a q.2 q.1) ∨
    q.1 = 32 ∧ ∀ i < 32, (ci i).getLsbD i := by
  unfold loadAtaCmd at h
  rcases freeSlot_spec ci 32 0 rfl with ⟨hlt, -, hclear, hbelow⟩ | ⟨h32, hall⟩
  · rw [if_neg hlt.ne] at h
    obtain ⟨hdata, h⟩ := cassert_bind_eq_ok.1 h
    obtain ⟨head, hhead, h⟩ := bind_eq_ok.1 h
    obtain ⟨item, hitem, h⟩ := bind_eq_ok.1 h
    obtain rfl := Except.ok.inj h
    obtain ⟨hbase, rfl⟩ := buildCmdHead_eq_ok hhead
    obtain ⟨heven, rfl⟩ := buildCmdTabItem_eq_ok hitem
    refine Or.inl ⟨hclear, fun i hi => hbelow i i.zero_le hi, hlt, ⟨hdata, hbase, heven⟩, ⟨?_, ?_⟩⟩
    · dsimp only
      rw [update_self]
      refine ⟨rfl, rfl, ?_⟩
      by_cases hw : IsWrite a.cmd <;> simp [hw]
    · dsimp only
      rw [update_self, ctba_base hbase, update_self]
      exact ⟨_, rfl, rfl, rfl⟩
  · rw [if_pos h32] at h
    obtain rfl := Except.ok.inj h
    exact Or.inr ⟨rfl, fun i hi => hall i i.zero_le hi⟩

theorem loadAtaCmd_ok (ci : ℕ → BitVec 32) (m : PortMem) (h : Free ci 32 → a.Accepted) :
    ∃ q, loadAtaCmd ci a m = .ok q := by
  unfold loadAtaCmd
  rcases freeSlot_spec ci 32 0 rfl with ⟨hlt, -, hclear, -⟩ | ⟨h32, -⟩
  · obtain ⟨hdata, hbase, heven⟩ := h ⟨_, hlt, hclear⟩
    rw [if_neg hlt.ne]
    simp only [buildCmdHead, buildCmdTabItem, cassert_pos hdata, cassert_pos hbase, cassert_pos heven]
    exact ⟨_, rfl⟩
  · rw [if_pos h32]
    exact ⟨_, rfl⟩

/-- What `try_send_cmd` writes to PxCI: what it has read with the slot's bit, or without it. -/
def Issued (e : PortReads) (slot : ℕ) (log : SendLog) : Prop :=
  (.PxCI, e.ci 0 ||| 1#32 <<< (slotBit slot).val) ∈ log.writes ∧
    ∀ w, (.PxCI, w) ∈ log.writes → w = e.ci 0 ||| 1#32 <<< (slotBit slot).val ∨
      ∃ k, w = e.ci k &&& ~~~(1#32 <<< (slotBit slot).val)

theorem issued_sendEnd (e : PortReads) (slot tfdPolls : ℕ) (q : ℕ × ℕ) :
    Issued e slot (sendEnd e.ci (slotBit slot) tfdPolls q).2 := by
  unfold sendEnd
  dsimp only
  split_ifs
  · refine ⟨by simp, fun w hw => ?_⟩
    simp only [List.cons_append, List.nil_append, List.mem_cons, Prod.mk.injEq, reduceCtorEq, false_and,
      true_and, List.not_mem_nil, or_false, false_or] at hw
    rcases hw with rfl | rfl
    · exact Or.inl rfl
    · exact Or.inr ⟨_, rfl⟩
  · refine ⟨by simp, fun w hw => ?_⟩
    simp only [List.cons_append, List.nil_append, List.mem_cons, Prod.mk.injEq, reduceCtorEq, false_and,
      true_and, List.not_mem_nil, or_false, false_or] at hw
    exact Or.inl hw

/-- `sata_busy_wait` and the assertion behind it. -/
theorem sataBusyWait_ok : (∃ sending, sataBusyWait e = .ok sending ∧ sending = false) ↔
    if bsy (e.tfd 0) then e.sending = true ∧ e.sendingThen = false else e.sending = false := by
  unfold sataBusyWait
  by_cases hb : bsy (e.tfd 0) = true
  · rw [if_pos hb, if_pos hb]
    cases e.sending <;> simp
  · rw [if_neg hb, if_neg hb]
    simp

/-- **`try_send_cmd`** issues the bit of the slot, or returns before that. -/
theorem trySend_eq_ok {q : SendStatus × SendLog} (h : trySend fuel e slot = .ok q) :
    q.2.writes = [] ∧ q.1 ≠ .SUCCESSFUL ∨ e.Sends ∧ Issued e slot q.2 := by
  unfold trySend at h
  by_cases hsig : e.sig = sataDevSig
  · cases hw : e.waits with
    | true =>
      rw [if_pos ⟨hsig, hw⟩] at h
      obtain ⟨sending, hbusy, h⟩ := bind_eq_ok.1 h
      obtain ⟨p, hp, h⟩ := bind_eq_ok.1 h
      obtain ⟨hsending, hp⟩ := cassert_bind_eq_ok.1 hp
      obtain rfl := Except.ok.inj hp
      obtain rfl := Except.ok.inj h
      have hsends : e.Sends := ⟨hsig, by rw [if_pos hw]; exact sataBusyWait_ok.1 ⟨sending, hbusy, hsending⟩⟩
      refine Or.inr ⟨hsends, by simp, fun w hmem => Or.inl ?_⟩
      simpa using hmem
    | false =>
      rw [if_neg (fun h' => by rw [hw] at h'; exact absurd h'.2 (by decide)), hsig] at h
      obtain ⟨m, hm⟩ : ∃ m, ¬ bsy (e.tfd m) := by
        rw [trySendCmd, if_neg (not_not.2 rfl)] at h
        obtain ⟨p, hp, -⟩ := bind_eq_ok.1 h
        exact bsyLoop_clear hp
      obtain ⟨n, hn⟩ := exists_firstClear hm
      by_cases hlimit : limitAfter n = 0
      · obtain rfl := (hn.busy hlimit).only fuel q h
        have hstatus : SendStatus.BUSY ≠ .SUCCESSFUL := by decide
        exact Or.inl ⟨rfl, hstatus⟩
      · obtain rfl := (hn.issued hlimit rfl).only fuel q h
        refine Or.inr ⟨⟨hsig, ?_⟩, issued_sendEnd e slot _ _⟩
        rw [if_neg (by rw [hw]; decide)]
        exact ⟨n, hn, hlimit⟩
  · rw [if_neg fun h' => hsig h'.1, trySendCmd, if_pos hsig] at h
    obtain rfl := Except.ok.inj h
    exact Or.inl ⟨rfl, by decide⟩

theorem trySend_issues (h : e.Sends) (slot : ℕ) :
    ∃ q, Returns (fun fuel => trySend fuel e slot) q ∧ Issued e slot q.2 := by
  obtain ⟨hsig, h⟩ := h
  cases hw : e.waits with
  | true =>
    rw [if_pos hw] at h
    obtain ⟨sending, hbusy, hsending⟩ := sataBusyWait_ok.2 h
    have hwait : ∀ fuel, trySend fuel e slot = .ok (if e.status = 0 then .SUCCESSFUL else .GENERAL_ERROR,
        ⟨1, 0, [(.PxIS, -1), (.PxCI, e.ci 0 ||| 1#32 <<< (slotBit slot).val)]⟩) := by
      intro fuel
      rw [trySend, if_pos ⟨hsig, hw⟩, hbusy, ok_bind, sataSendingWait, cassert_pos hsending]
      rfl
    simp only [hwait]
    refine ⟨_, Returns.const rfl, by simp, fun w hmem => Or.inl ?_⟩
    simpa using hmem
  | false =>
    rw [if_neg (by rw [hw]; decide)] at h
    obtain ⟨n, hn, hlimit⟩ := h
    have hpoll : ∀ fuel, trySend fuel e slot = trySendCmd fuel sataDevSig e.tfd e.ci (slotBit slot) := by
      intro fuel
      rw [trySend, if_neg (fun h' => by rw [hw] at h'; exact absurd h'.2 (by decide)), hsig]
    simp only [hpoll]
    exact ⟨_, hn.issued hlimit rfl, issued_sendEnd e slot _ _⟩

/-- **Only prepared slots are issued** just when one of the slots that the port has is free, or the
    call does not get to the write of PxCI: `load_ata_cmd` looks at all 32 bits of PxCI, and its 32 is
    used as a slot. -/
theorem sataSendCmd_prepared_iff (ci : ℕ → BitVec 32) (a : AtaCmd) (m : PortMem) (e : PortReads)
    (hcnt : cnt ≤ 32) :
    (∀ r, Returns (sataSendCmd ci a m e) r → Prepared ci cnt a e r) ↔
      (e.Sends → (Free ci 32 → a.Accepted) → Free ci cnt) := by
  constructor
  · intro h hsends hacc
    by_contra hfree
    obtain ⟨q, hq⟩ := loadAtaCmd_ok ci m hacc
    obtain ⟨s, hs, hissued⟩ := trySend_issues hsends q.1
    have hr : Returns (sataSendCmd ci a m e) ⟨s.1, s.2, q.2⟩ := by
      unfold sataSendCmd
      simp only [hq, ok_bind]
      exact hs.bind rfl
    exact ((h _ hr).none hfree).1 _ hissued.1
  · intro h r hr
    obtain ⟨b, hb⟩ := hr.enough
    obtain ⟨q, hq, hr⟩ := bind_eq_ok.1 (hb b le_rfl)
    obtain ⟨s, hs, hr⟩ := bind_eq_ok.1 hr
    obtain rfl := Except.ok.inj hr
    rcases trySend_eq_ok hs with ⟨hempty, hstatus⟩ | ⟨hsends, hissued⟩
    · have hno : ∀ w, (HbaReg.PxCI, w) ∉ s.2.writes := fun w => hempty ▸ List.not_mem_nil
      exact ⟨fun w hw => absurd hw (hno w), fun _ => ⟨hno, hstatus⟩⟩
    · rcases loadAtaCmd_eq_ok hq with ⟨hfound, hbelow, hlt, hacc, hfilled⟩ | ⟨-, hall⟩
      · obtain ⟨slot, hslot, hclear⟩ := h hsends fun _ => hacc
        have hle : q.1 ≤ slot := not_lt.1 fun h' => hclear (hbelow slot h')
        have hbit : (slotBit q.1).val = q.1 := Nat.mod_eq_of_lt hlt
        rw [Issued, hbit] at hissued
        exact ⟨fun w hw => ⟨q.1, by omega, hfound, hfilled, hissued.2 w hw⟩,
          fun hno => absurd ⟨slot, hslot, hclear⟩ hno⟩
      · have hfull : ¬ Free ci 32 := fun ⟨slot, hslot, hclear⟩ => hclear (hall slot hslot)
        obtain ⟨slot, hslot, hclear⟩ := h hsends fun hfree => absurd hfree hfull
        exact absurd (hall slot (by omega)) hclear

end Slots

section Runs

/-- A read of one sector. -/
abbrev readSector : AtaCmd := ⟨ataCmdReadDma, 0, 1, 0x1000, 0x2000, id⟩

/-- An empty command list. -/
abbrev emptyList : PortMem := ⟨fun _ => ⟨0, 0, 0, 0, 0, 0, 0, 0⟩, fun _ => none⟩

/-- A port that is not busy, with the interrupt of the command coming in time. -/
abbrev readyPort (ci : BitVec 32) : PortReads := ⟨sataDevSig, fun _ => 0, fun _ => ci, true, false, false, 0⟩

/-- Two commands are on the way, and the port has 32 slots. -/
theorem sataSendCmd_prepared_two :
    ∃ r, Returns (sataSendCmd (fun _ => 3) readSector emptyList (readyPort 3)) r ∧
      Prepared (fun _ => 3) 32 readSector (readyPort 3) r := by
  have hprepared := (sataSendCmd_prepared_iff (fun _ => 3) readSector emptyList (readyPort 3) le_rfl).2
    fun _ _ => ⟨2, by decide⟩
  exact ⟨_, Returns.const rfl, hprepared _ (Returns.const rfl)⟩

/-- **With one slot in use of one, slot 1 is issued; with all 32 in use, slot 0 is**, where its command
    has just been completed. -/
theorem sataSendCmd_unprepared :
    (∃ r, Returns (sataSendCmd (fun _ => 1) readSector emptyList (readyPort 1)) r ∧
      r.status = .SUCCESSFUL ∧ (.PxCI, 0b11) ∈ r.log.writes ∧
      ¬ Prepared (fun _ => 1) 1 readSector (readyPort 1) r) ∧
    ∃ r, Returns (sataSendCmd (fun _ => 0xffffffff) readSector emptyList (readyPort 0xfffffffe)) r ∧
      r.status = .SUCCESSFUL ∧ (.PxCI, 0xffffffff) ∈ r.log.writes ∧
      ¬ Prepared (fun _ => 0xffffffff) 32 readSector (readyPort 0xfffffffe) r := by
  constructor
  · refine ⟨_, Returns.const rfl, rfl, List.mem_cons_of_mem _ List.mem_cons_self, fun h => ?_⟩
    exact (h.none fun ⟨slot, hlt, hclear⟩ => hclear (by obtain rfl := Nat.lt_one_iff.1 hlt; rfl)).2 rfl
  · refine ⟨_, Returns.const rfl, rfl, List.mem_cons_of_mem _ List.mem_cons_self, fun h => ?_⟩
    refine (h.none fun ⟨slot, hlt, hclear⟩ => hclear ?_).2 rfl
    have hall : ∀ i < 32, (0xffffffff : BitVec 32).getLsbD i = true := by decide
    exact hall slot hlt

end Runs

end Rdix
