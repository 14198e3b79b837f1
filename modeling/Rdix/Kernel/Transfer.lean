/-
  From a block to its sectors (fs/buffer.c: bread, bwrite; kernel/device.c: device_request, do_request;
  kernel/part.c; kernel/hba.c: __sata_io).

  A block of a partition is requested from the disk, behind the start of the partition.  The request
  waits in the queue of the disk while others are served and other disks are installed.

  * `devSys`: the table of devices while it is in use;
  * `DevInv`: what a partition and its disk have to do with each other;
  * `blockRequest_spec`: the command that a request comes to;
  * `blocks_apart`: different blocks are kept in different sectors.
-/
import Rdix.Kernel.Part
import Rdix.Lib.Trace

namespace Rdix.Dev

open Function Transition

/-! ## The code -/

/-- `SECS_PER_BLOCK`. -/
abbrev secsPerBlock : BitVec 8 := 2

variable {T β : Type}

/-- The request of `bread` and `bwrite` for a block. -/
def blockRequest (t : Table T β) (b_dev : ℤ) (b_blknr : BitVec 32) (b_data : β) (type : ReqType)
    (task : T) : C (Table T β × Fin deviceNr × Request T (Payload β)) :=
  deviceRequest t b_dev b_data secsPerBlock (b_blknr * secsPerBlock.setWidth 32) 0 type task

/-- The command that the disk is sent when a request is served, if it is sent one. -/
def command (t : Table T β) (req : Request T (Payload β)) : C (Option FisRegH2d) := do
  match ← doRequest t req 2 with
  | some (.sata dev type _ count startlba) => do
    let fis ← sataIo dev type startlba count
    return some fis
  | _ => return none

/-! ## Disks and partitions -/

/-- A disk in the table. -/
structure IsDisk (d : DeviceT T β) (dev : HbaDev) : Prop where
  type : d.type = .block
  parent : d.parent = 0
  ptr : d.ptr = .disk dev
  queue : d.queue.isSome
  ioctl : d.ioctl = some .sata
  driver : ∀ type, d.driver type = some .sata

/-- A partition in the table. -/
structure IsPart (t : Table T β) (d : DeviceT T β) (p : Part) : Prop where
  type : d.type = .block
  parent : d.parent = p.disk
  ptr : d.ptr = .part p
  ioctl : d.ioctl = some .part
  driver : ∀ type, d.driver type = some .part
  disk : ∃ dev, IsDisk (t p.disk) dev
  disk_ne : p.disk ≠ 0

/-- **A block device is a disk, or a partition of one.** -/
structure DevInv (t : Table T β) : Prop where
  dev : ∀ i, (t i).dev = i
  first : (t 0).type = .char
  block : ∀ i, (t i).type = .block → (∃ dev, IsDisk (t i) dev) ∨ ∃ p, IsPart t (t i) p

section Inv
variable {t t' : Table T β} {i j : Fin deviceNr} {d : DeviceT T β} {dev : HbaDev} {p : Part}

theorem devInv_kernelInit {s : Boot T β} (h : kernelInit = .ok s) : DevInv s.devices := by
  obtain ⟨t, he, ht⟩ : ∃ t : Table T β, kernelInit = .ok ⟨t, 0⟩ ∧ Holds t terminals := kernelInit_spec
  obtain rfl : s = ⟨t, 0⟩ := Except.ok.inj (h.symm.trans he)
  refine ⟨ht.dev, ?_, fun i hi => ?_⟩
  · have hget : (terminals : List (DeviceT T β))[(0 : Fin deviceNr).val]? =
        some (entry [] .char .console .null ("console".toList.map chr) 0 none none (some .console)) := rfl
    exact congrArg DeviceT.type (ht.slots.used hget)
  · change (t i).type = .block at hi
    have hget := ht.mem (i := i) (by rw [hi]; decide)
    have hmem := List.mem_of_getElem? hget
    simp only [terminals, List.mem_cons, List.not_mem_nil, or_false] at hmem
    rcases hmem with he | he <;> (rw [he] at hi; cases hi)

theorem IsDisk.queued (h : IsDisk (t j) dev) (i : Fin deviceNr) (queue : Device T (Payload β)) :
    IsDisk (setQueue t i queue j) dev := by
  unfold setQueue
  by_cases hj : j = i
  · subst hj
    rw [update_self]
    exact ⟨h.type, h.parent, h.ptr, rfl, h.ioctl, h.driver⟩
  · rwa [update_of_ne hj]

/-- The devices of `t` are in `t'`, and perhaps more. -/
structure Grows (t t' : Table T β) : Prop where
  inv : DevInv t'
  disk : ∀ {i dev}, IsDisk (t i) dev → IsDisk (t' i) dev

theorem DevInv.refl (h : DevInv t) : Grows t t := ⟨h, id⟩

theorem Grows.trans {t₁ : Table T β} (h : Grows t t₁) (h' : Grows t₁ t') : Grows t t' :=
  ⟨h'.inv, fun hd => h'.disk (h.disk hd)⟩

/-- A queue changes. -/
theorem DevInv.queued (h : DevInv t) (i : Fin deviceNr) (queue : Device T (Payload β)) :
    Grows t (setQueue t i queue) := by
  have hsame : ∀ j, ∃ q, setQueue t i queue j = { t j with queue := q } := by
    intro j
    by_cases hj : j = i
    · subst hj
      exact ⟨some queue, update_self ..⟩
    · exact ⟨(t j).queue, update_of_ne hj ..⟩
  refine ⟨⟨fun j => ?_, ?_, fun j hj => ?_⟩, fun hd => hd.queued i queue⟩
  · obtain ⟨q, hq⟩ := hsame j
    rw [hq]
    exact h.dev j
  · obtain ⟨q, hq⟩ := hsame 0
    rw [hq]
    exact h.first
  · obtain ⟨q, hq⟩ := hsame j
    have hblock : (t j).type = .block := by rwa [hq] at hj
    rcases h.block j hblock with ⟨dev, hd⟩ | ⟨p, hp⟩
    · exact Or.inl ⟨dev, hd.queued i queue⟩
    · obtain ⟨dev, hd⟩ := hp.disk
      rw [hq]
      exact Or.inr ⟨p, hp.type, hp.parent, hp.ptr, hp.ioctl, hp.driver, ⟨dev, hd.queued i queue⟩, hp.disk_ne⟩

/-- A device goes into a free slot. -/
theorem DevInv.insert (h : DevInv t) (hfree : (t i).type = .null) (hdev : d.dev = i)
    (hd : (∃ dev, IsDisk d dev) ∨ ∃ p, IsPart t d p) : Grows t (update t i d) := by
  have hkeep : ∀ {j dev}, IsDisk (t j) dev → IsDisk (update t i d j) dev := by
    intro j dev hj
    have hne : j ≠ i := by
      rintro rfl
      rw [hj.type] at hfree
      cases hfree
    rwa [update_of_ne hne]
  have hpart : ∀ {d' p}, IsPart t d' p → IsPart (update t i d) d' p := fun hp =>
    ⟨hp.type, hp.parent, hp.ptr, hp.ioctl, hp.driver, hp.disk.imp fun _ => hkeep, hp.disk_ne⟩
  refine ⟨⟨fun j => ?_, ?_, fun j hj => ?_⟩, hkeep⟩
  · by_cases hji : j = i
    · rw [hji, update_self, hdev]
    · rw [update_of_ne hji]
      exact h.dev j
  · have hne : (0 : Fin deviceNr) ≠ i := by
      rintro rfl
      rw [h.first] at hfree
      cases hfree
    rw [update_of_ne hne]
    exact h.first
  · by_cases hji : j = i
    · subst hji
      rw [update_self]
      exact hd.imp_right fun ⟨p, hp⟩ => ⟨p, hpart hp⟩
    · rw [update_of_ne hji] at hj ⊢
      exact (h.block j hj).imp_right fun ⟨p, hp⟩ => ⟨p, hpart hp⟩

/-! ### The steps -/

theorem deviceInstall_ok {type : DevType} {subtype : DevSubtype} {ptr : DevPtr} {name : List (BitVec 8)}
    {parent : ℤ} {ioctl read write : Option Driver} {r : Table T β × Fin deviceNr}
    (h : deviceInstall t type subtype ptr name parent ioctl read write = .ok r) :
    (t r.2).type = .null ∧ r.1 = update t r.2
      { name := name.take (nameLen - 1), type, subtype, dev := (t r.2).dev, parent, ptr
        queue := if type = .block ∧ subtype = .sataDisk then some newQueue else none
        ioctl, read, write } := by
  obtain ⟨i, hi, he⟩ := bind_eq_ok.1 h
  cases he
  refine ⟨?_, rfl⟩
  unfold getNullDevice at hi
  split at hi
  · rename_i j hfind
    cases hi
    have hfree := Slots.free_of_firstFree hfind
    exact of_decide_eq_true hfree
  · cases hi

theorem enqueue_ok {device : Fin deviceNr} {b_data : β} {count : BitVec 8} {offset flags : BitVec 32}
    {type : ReqType} {task : T} {r : Table T β × Fin deviceNr × Request T (Payload β)}
    (h : enqueue t device b_data count offset flags type task = .ok r) :
    ∃ i queue, r.1 = setQueue t i queue := by
  unfold enqueue at h
  split at h
  · cases h
  · cases h
    exact ⟨device, _, rfl⟩

theorem deviceRequest_ok {b_dev : ℤ} {b_data : β} {count : BitVec 8} {idx flags : BitVec 32} {type : ReqType}
    {task : T} {r : Table T β × Fin deviceNr × Request T (Payload β)}
    (h : deviceRequest t b_dev b_data count idx flags type task = .ok r) :
    ∃ i queue, r.1 = setQueue t i queue := by
  obtain ⟨device, -, h⟩ := bind_eq_ok.1 h
  obtain ⟨-, h⟩ := cassert_bind_eq_ok.1 h
  obtain ⟨start, -, h⟩ := bind_eq_ok.1 h
  dsimp only at h
  split_ifs at h with hparent
  · obtain ⟨device', -, h⟩ := bind_eq_ok.1 h
    exact enqueue_ok h
  · exact enqueue_ok h

theorem partTurn_grows (h : DevInv t) (hdisk : ∃ dev, IsDisk (t i) dev) (hne : i ≠ 0)
    {boot : ℕ → BitVec 8} {k : ℕ} (he : partTurn i boot t k = .ok t') : Grows t t' := by
  unfold partTurn at he
  dsimp only at he
  split_ifs at he with hcount
  · cases he
    exact h.refl
  · obtain ⟨name, -, he⟩ := bind_eq_ok.1 he
    obtain ⟨-, he⟩ := cassert_bind_eq_ok.1 he
    obtain ⟨r, hr, he⟩ := bind_eq_ok.1 he
    cases he
    obtain ⟨hfree, hr⟩ := deviceInstall_ok hr
    rw [hr]
    exact h.insert hfree (h.dev _) (Or.inr ⟨_, rfl, rfl, rfl, rfl, fun type => by cases type <;> rfl, hdisk, hne⟩)

theorem diskPartInstall_grows (h : DevInv t) (hdisk : ∃ dev, IsDisk (t i) dev) (hne : i ≠ 0) {buf : β}
    {boot : ℕ → BitVec 8} (he : diskPartInstall t i buf boot = .ok t') : Grows t t' := by
  have hloop : (List.range mbrPartNr).foldlM (partTurn i boot) t = .ok t' := by
    obtain ⟨disk, hget, he⟩ := bind_eq_ok.1 he
    rw [deviceGet_ofNat] at hget
    cases hget
    obtain ⟨call, -, he⟩ := bind_eq_ok.1 he
    split at he
    · obtain ⟨fis, -, he⟩ := bind_eq_ok.1 he
      exact he
    · exact he
  exact Loop.foldlM_invariant (I := Grows t) (fun t₁ k t₂ ht₁ hturn =>
    ht₁.trans (partTurn_grows ht₁.inv (hdisk.imp fun _ => ht₁.disk) hne hturn)) h.refl hloop

theorem sataInstall_grows {s s' : Boot T β} (h : DevInv s.devices) {buf : β} {boot : ℕ → BitVec 8}
    (he : sataInstall s dev buf boot = .ok s') : Grows s.devices s'.devices := by
  obtain ⟨name, -, he⟩ := bind_eq_ok.1 he
  obtain ⟨r, hr, he⟩ := bind_eq_ok.1 he
  obtain ⟨t, ht, he⟩ := bind_eq_ok.1 he
  cases he
  obtain ⟨hfree, hr⟩ := deviceInstall_ok hr
  have hdisk : IsDisk (r.1 r.2) dev := by
    rw [hr, update_self]
    exact ⟨rfl, rfl, rfl, rfl, rfl, fun type => by cases type <;> rfl⟩
  have hne : r.2 ≠ 0 := by
    intro hzero
    rw [hzero, h.first] at hfree
    cases hfree
  have hgrows : Grows s.devices r.1 := by
    rw [hr, update_self] at hdisk
    rw [hr]
    exact h.insert hfree (h.dev _) (Or.inl ⟨dev, hdisk⟩)
  exact hgrows.trans (diskPartInstall_grows hgrows.inv ⟨dev, hdisk⟩ hne ht)

end Inv

/-! ## Blocks -/

section Blocks
variable {t : Table T β} {i j : Fin deviceNr} {dev : HbaDev} {type : ReqType} {n : ℕ}

/-- The disk of a block device, and the sector where the device begins. -/
def home (t : Table T β) (i : Fin deviceNr) : Fin deviceNr × ℕ :=
  match (t i).ptr with
  | .part p => (p.disk, p.start.toNat)
  | _ => (i, 0)

/-- The sectors of a block device. -/
def size (t : Table T β) (i : Fin deviceNr) : ℕ :=
  match (t i).ptr with
  | .part p => p.count.toNat
  | .disk dev => dev.max_lba.toNat
  | .null => 0

/-- The sectors of a disk that a command can address: the FIS has 32 bits of the address, and 24 without
    the 48-bit commands. -/
def HbaDev.reach (dev : HbaDev) : ℕ := min dev.max_lba.toNat (if dev.lba48 then 2 ^ 32 else 2 ^ 24)

/-- A command that writes to the disk. -/
def IsWrite (fis : FisRegH2d) : Prop := fis.command = ataCmdWriteDma ∨ fis.command = ataCmdWriteDmaExt

/-- The sectors that a command addresses. -/
def sectors (fis : FisRegH2d) : Finset ℕ := Finset.Ico fis.lba (fis.lba + fis.count)

/-- A request goes into the queue of the disk, with a sector of the disk. -/
theorem DevInv.request (h : DevInv t) (hi : (t i).type = .block) (b_data : β) (count : BitVec 8)
    (idx flags : BitVec 32) (type : ReqType) (task : T) : ∃ dev queue, IsDisk (t (home t i).1) dev ∧
      deviceRequest t i b_data count idx flags type task = .ok (setQueue t (home t i).1 queue, (home t i).1,
        ⟨type, (idx + BitVec.ofNat 32 (home t i).2).toNat,
          ⟨(home t i).1, count.setWidth 32, flags, b_data⟩, task⟩) := by
  have henqueue : ∀ {j dev}, IsDisk (t j) dev → ∀ offset, ∃ queue,
      enqueue t j b_data count offset flags type task = .ok (setQueue t j queue, j,
        ⟨type, offset.toNat, ⟨j, count.setWidth 32, flags, b_data⟩, task⟩) := by
    intro j dev hj offset
    obtain ⟨queue, hq⟩ := Option.isSome_iff_exists.1 hj.queue
    unfold enqueue
    rw [hq, h.dev j]
    exact ⟨_, rfl⟩
  unfold deviceRequest
  rw [deviceGet_ofNat, ok_bind, cassert_pos hi, ok_bind]
  rcases h.block i hi with ⟨dev, hd⟩ | ⟨p, hp⟩
  · have hhome : home t i = (i, 0) := by rw [home, hd.ptr]
    obtain ⟨queue, he⟩ := henqueue hd (idx + 0)
    refine ⟨dev, queue, hhome ▸ hd, ?_⟩
    rw [deviceIoctl, deviceGet_ofNat, ok_bind, hd.ioctl]
    dsimp only
    rw [hd.ptr, hd.parent, hhome]
    exact he
  · have hhome : home t i = (p.disk, p.start.toNat) := by rw [home, hp.ptr]
    obtain ⟨dev, hd⟩ := hp.disk
    obtain ⟨queue, he⟩ := henqueue hd (idx + p.start)
    refine ⟨dev, queue, hhome ▸ hd, ?_⟩
    have hne : (p.disk : ℤ) ≠ 0 := fun hzero => hp.disk_ne (Fin.ext (by simpa using hzero))
    rw [deviceIoctl, deviceGet_ofNat, ok_bind, hp.ioctl]
    dsimp only
    rw [hp.ptr, hp.parent, hhome, BitVec.ofNat_toNat, BitVec.setWidth_eq]
    show (if (p.disk : ℤ) ≠ 0 then (deviceGet (p.disk : ℤ) >>= fun device =>
        enqueue t device b_data count (idx + p.start) flags type task)
      else enqueue t i b_data count (idx + p.start) flags type task) = _
    rw [if_pos hne, deviceGet_ofNat]
    exact he

/-- A request of a disk is served with a command of the disk. -/
theorem IsDisk.command (h : IsDisk (t j) dev) (idx : ℕ) (count flags : BitVec 32) (b_data : β) (type : ReqType)
    (task : T) : command t ⟨type, idx, ⟨j, count, flags, b_data⟩, task⟩ = do
      let fis ← sataIo dev type (flags ++ BitVec.ofNat 32 idx) count
      return some fis := by
  unfold Dev.command doRequest
  rw [deviceIo, deviceGet_ofNat, ok_bind, h.driver]
  dsimp only
  rw [h.ptr]
  rfl

/-- **The command of a transfer** addresses the sectors that are asked for. -/
theorem sataIo_sectors {n : ℕ} (hn : n + 2 ≤ dev.reach) (type : ReqType) : ∃ fis,
    sataIo dev type (0#32 ++ BitVec.ofNat 32 n) (secsPerBlock.setWidth 32) = .ok fis ∧
      sectors fis = Finset.Ico n (n + 2) ∧
      (IsWrite fis ↔ type = .write) := by
  have hmax : n + 2 ≤ dev.max_lba.toNat := hn.trans (min_le_left _ _)
  have hbits : n + 2 ≤ if dev.lba48 then 2 ^ 32 else 2 ^ 24 := hn.trans (min_le_right _ _)
  have hword : n < 2 ^ 32 := by
    have hle : (if dev.lba48 then 2 ^ 32 else 2 ^ 24) ≤ 2 ^ 32 := by split_ifs <;> norm_num
    omega
  have hlba : (0#32 ++ BitVec.ofNat 32 n).toNat = n := by
    rw [BitVec.toNat_append]
    simpa using hword
  have hcount : ∀ cmd, (bulidCmdTabFis cmd (0#32 ++ BitVec.ofNat 32 n)
      ((secsPerBlock.setWidth 32).setWidth 16)).count = 2 := fun cmd => bulidCmdTabFis_count _ _
  have hlt : (0#32 ++ BitVec.ofNat 32 n : BitVec 64) < dev.max_lba := by
    rw [BitVec.lt_def, hlba]
    omega
  refine ⟨_, by rw [sataIo, cassert_pos hlt]; rfl, ?_, ?_⟩
  · rw [sectors, hcount]
    cases hext : dev.lba48 with
    | true =>
      rw [hext, if_pos rfl] at hbits
      rw [if_pos rfl, bulidCmdTabFis_lba_ext _ _ (by cases type <;> decide), hlba]
      congr 1 <;> omega
    | false =>
      rw [hext, if_neg (by simp)] at hbits
      rw [if_neg (by simp), bulidCmdTabFis_lba _ _ (by cases type <;> decide), hlba,
        Nat.mod_eq_of_lt (by omega)]
  · rw [IsWrite, bulidCmdTabFis_command]
    cases dev.lba48 <;> cases type <;> decide

/-- A block of a device whose sectors can be addressed. -/
structure InReach (t : Table T β) (i : Fin deviceNr) (b : BitVec 32) : Prop where
  type : (t i).type = .block
  fits : 2 * b.toNat + 2 ≤ size t i
  reach : ∀ dev, IsDisk (t (home t i).1) dev → (home t i).2 + 2 * b.toNat + 2 ≤ dev.reach

/-- The sectors of a block. -/
def blockSectors (t : Table T β) (i : Fin deviceNr) (b : BitVec 32) : Finset ℕ :=
  Finset.Ico ((home t i).2 + 2 * b.toNat) ((home t i).2 + 2 * b.toNat + 2)

/-- The devices share no sector. -/
def Apart (t : Table T β) (i j : Fin deviceNr) : Prop :=
  (home t i).1 = (home t j).1 → (home t i).2 + size t i ≤ (home t j).2 ∨ (home t j).2 + size t j ≤ (home t i).2

/-- **Different blocks have different sectors.** -/
theorem disjoint_blockSectors {b c : BitVec 32} (hb : InReach t i b) (hc : InReach t j c)
    (hne : i ≠ j ∨ b ≠ c) (hapart : i ≠ j → Apart t i j) (hdisk : (home t i).1 = (home t j).1) :
    Disjoint (blockSectors t i b) (blockSectors t j c) := by
  have hbfits := hb.fits
  have hcfits := hc.fits
  rw [blockSectors, blockSectors, Finset.disjoint_left]
  intro k hk hk'
  rw [Finset.mem_Ico] at hk hk'
  by_cases hij : i = j
  · subst hij
    have hbc : b.toNat ≠ c.toNat := fun he => hne.resolve_left (not_not.2 rfl) (BitVec.eq_of_toNat_eq he)
    omega
  · rcases hapart hij hdisk with h | h <;> omega

end Blocks

/-! ## The table in use -/

/-- What happens to the table: a disk is installed, a request is put into its queue, or a disk begins or
    ends to serve one. -/
inductive DevAct (T β : Type) where
  | disk (dev : HbaDev) (buf : β) (boot : ℕ → BitVec 8)
  | request (b_dev : ℤ) (b_data : β) (count : BitVec 8) (idx flags : BitVec 32) (type : ReqType)
    (task : T)
  | serve (i : Fin deviceNr)
  | finish (i : Fin deviceNr) (req : Request T (Payload β))

variable [DecidableEq T] [DecidableEq β]

/-- A step of the table. -/
def DevStep (s : Boot T β) : DevAct T β → Boot T β → Prop
  | .disk dev buf boot, s' => sataInstall s dev buf boot = .ok s'
  | .request b_dev b_data count idx flags type task, s' => ∃ r,
    deviceRequest s.devices b_dev b_data count idx flags type task = .ok r ∧
      s' = { s with devices := r.1 }
  | .serve i, s' => ∃ queue, (s.devices i).queue = some queue ∧ queue.do_request = false ∧
    s' = { s with devices := setQueue s.devices i { queue with do_request := true } }
  | .finish i req, s' => ∃ queue r, (s.devices i).queue = some queue ∧ queue.finish req = .ok r ∧
    s' = { s with devices := setQueue s.devices i r.1 }

/-- The table from the start of the kernel on. -/
def devSys (T β : Type) [DecidableEq T] [DecidableEq β] : Sys (Boot T β) (DevAct T β) where
  init s := kernelInit = .ok s
  step := DevStep


theorem devStep_grows {s s' : Boot T β} (h : DevInv s.devices) (a : DevAct T β) (hstep : DevStep s a s') :
    Grows s.devices s'.devices := by
  cases a with
  | disk dev buf boot => exact sataInstall_grows h hstep
  | request b_dev b_data count idx flags type task =>
    obtain ⟨r, hr, rfl⟩ := hstep
    obtain ⟨i, queue, he⟩ := deviceRequest_ok hr
    rw [he]
    exact h.queued i queue
  | serve i =>
    obtain ⟨queue, -, -, rfl⟩ := hstep
    exact h.queued i _
  | finish i req =>
    obtain ⟨queue, r, -, -, rfl⟩ := hstep
    exact h.queued i r.1

theorem reach_inv {s : Boot T β} (h : (devSys T β).Reach s) : DevInv s.devices :=
  h.invariant (I := fun s => DevInv s.devices) (fun _ hs => devInv_kernelInit hs)
    fun _ a _ hs hstep => (devStep_grows hs a hstep).inv

theorem run_grows {s s' : Boot T β} {as : List (DevAct T β)} (h : DevInv s.devices)
    (hrun : (devSys T β).Run s as s') : Grows s.devices s'.devices :=
  hrun.invariant (I := fun s' => Grows s.devices s'.devices)
    (fun _ a _ ht hstep => ht.trans (devStep_grows ht.inv a hstep)) h.refl

/-- A request for a block is put into the queue of the disk, and whenever it is served, the disk is
    sent the command. -/
def Transfers (s : Boot T β) (i : Fin deviceNr) (b : BitVec 32) (b_data : β) (type : ReqType) (task : T)
    (fis : FisRegH2d) : Prop :=
  ∃ t' req, blockRequest s.devices i b b_data type task = .ok (t', (home s.devices i).1, req) ∧
    ∀ as s', (devSys T β).Run { s with devices := t' } as s' → command s'.devices req = .ok (some fis)

theorem DevInv.transfers {s : Boot T β} (h : DevInv s.devices) {i : Fin deviceNr} {b : BitVec 32}
    (hb : InReach s.devices i b) (b_data : β) (type : ReqType) (task : T) :
    ∃ fis, Transfers s i b b_data type task fis ∧ sectors fis = blockSectors s.devices i b ∧
      (IsWrite fis ↔ type = .write) := by
  obtain ⟨dev, queue, hd, he⟩ := h.request hb.type b_data secsPerBlock (b * secsPerBlock.setWidth 32) 0 type
    task
  have hreach := hb.reach dev hd
  obtain ⟨fis, hfis, hsectors, hcommand⟩ := sataIo_sectors hreach type
  refine ⟨fis, ⟨_, _, he, fun as s' hrun => ?_⟩, hsectors, hcommand⟩
  have hgrows := (h.queued (home s.devices i).1 queue).trans
    (run_grows (s := { s with devices := setQueue s.devices (home s.devices i).1 queue })
      (h.queued (home s.devices i).1 queue).inv hrun)
  have hidx : (b * secsPerBlock.setWidth 32 + BitVec.ofNat 32 (home s.devices i).2).toNat =
      (home s.devices i).2 + 2 * b.toNat := by
    have hlt : dev.reach ≤ 2 ^ 32 := by
      refine (min_le_right _ _).trans ?_
      split_ifs <;> norm_num
    rw [BitVec.toNat_add, BitVec.toNat_mul, BitVec.toNat_ofNat]
    show (b.toNat * 2 % 2 ^ 32 + (home s.devices i).2 % 2 ^ 32) % 2 ^ 32 = _
    omega
  rw [(hgrows.disk hd).command, hidx]
  show (sataIo dev type (0#32 ++ _) _ >>= _) = _
  rw [hfis]
  rfl

/-- **Different blocks are kept in different sectors.**  From the start of the kernel on, a block of a
    device is read from and written to its own two sectors, whenever the request is served; another
    block of the device, and a block of a device that is apart from it, has others. -/
theorem blocks_apart {s : Boot T β} (hs : (devSys T β).Reach s) {i j : Fin deviceNr} {b c : BitVec 32}
    (hb : InReach s.devices i b) (hc : InReach s.devices j c) (hne : i ≠ j ∨ b ≠ c)
    (hapart : i ≠ j → Apart s.devices i j) (b_data c_data : β) (type type' : ReqType) (task task' : T) :
    ∃ fis fis', Transfers s i b b_data type task fis ∧ Transfers s j c c_data type' task' fis' ∧
      (IsWrite fis ↔ type = .write) ∧ (IsWrite fis' ↔ type' = .write) ∧
      sectors fis = blockSectors s.devices i b ∧ sectors fis' = blockSectors s.devices j c ∧
      ((home s.devices i).1 = (home s.devices j).1 → Disjoint (sectors fis) (sectors fis')) := by
  obtain ⟨fis, htrans, hsectors, hwrite⟩ := (reach_inv hs).transfers hb b_data type task
  obtain ⟨fis', htrans', hsectors', hwrite'⟩ := (reach_inv hs).transfers hc c_data type' task'
  refine ⟨fis, fis', htrans, htrans', hwrite, hwrite', hsectors, hsectors', fun hdisk => ?_⟩
  rw [hsectors, hsectors']
  exact disjoint_blockSectors hb hc hne hapart hdisk

/-- A boot sector with two partitions, behind each other. -/
def twoParts (a : ℕ) : BitVec 8 :=
  if a = 454 then 63 else if a = 458 then 100 else if a = 470 then 163 else if a = 474 then 10 else 0

/-- The last block of a partition, and the first one of the next. -/
theorem blocks_apart_two : ∃ (s : Boot Unit Unit) (fis fis' : FisRegH2d),
    Transfers s 3 49 () .write () fis ∧ Transfers s 4 0 () .read () fis' ∧
      sectors fis = Finset.Ico 161 163 ∧ sectors fis' = Finset.Ico 163 165 := by
  obtain ⟨t, he, ht⟩ : ∃ t : Table Unit Unit, kernelInit = .ok ⟨t, 0⟩ ∧ Holds t terminals := kernelInit_spec
  have hlba : 0 < (⟨0, 200, true⟩ : HbaDev).max_lba := by decide
  have hinstall := sataInstall_spec (s := ⟨t, 0⟩) ht hlba () twoParts
  have hfits : (register (terminals : List (DeviceT Unit Unit)) 0 ⟨0, 200, true⟩ twoParts).length ≤ deviceNr := by
    decide
  obtain ⟨s, hs, hl, -⟩ := (if_pos hfits).mp hinstall
  have hreach : (devSys Unit Unit).Reach s := .step (.init he) (a := .disk ⟨0, 200, true⟩ () twoParts) hs
  have hdisk := congrArg DeviceT.ptr (hl.slots.used (i := 2) rfl)
  have hfirst := hl.slots.used (i := 3) rfl
  have hsecond := hl.slots.used (i := 4) rfl
  have hhome₃ : home s.devices 3 = (2, 63) := by rw [home, hfirst]; rfl
  have hhome₄ : home s.devices 4 = (2, 163) := by rw [home, hsecond]; rfl
  have hsize₃ : size s.devices 3 = 100 := by rw [size, hfirst]; rfl
  have hsize₄ : size s.devices 4 = 10 := by rw [size, hsecond]; rfl
  have hreach₂ : ∀ dev, IsDisk (s.devices 2) dev → dev.reach = 200 := by
    intro dev hd
    obtain rfl : dev = ⟨0, 200, true⟩ := DevPtr.disk.inj (hd.ptr.symm.trans hdisk)
    rfl
  have hb : InReach s.devices 3 49 := by
    refine ⟨by rw [hfirst]; rfl, by rw [hsize₃]; decide, fun dev hd => ?_⟩
    rw [hhome₃] at hd ⊢
    rw [hreach₂ dev hd]
    decide
  have hc : InReach s.devices 4 0 := by
    refine ⟨by rw [hsecond]; rfl, by rw [hsize₄]; decide, fun dev hd => ?_⟩
    rw [hhome₄] at hd ⊢
    rw [hreach₂ dev hd]
    decide
  have hapart : Apart s.devices 3 4 := by
    rw [Apart, hhome₃, hhome₄, hsize₃]
    exact fun _ => Or.inl le_rfl
  obtain ⟨fis, fis', h, h', -, -, hsec, hsec', -⟩ := blocks_apart hreach hb hc (Or.inl (by decide))
    (fun _ => hapart) () () .write .read () ()
  refine ⟨s, fis, fis', h, h', ?_, ?_⟩
  · rw [hsec, blockSectors, hhome₃]
    rfl
  · rw [hsec', blockSectors, hhome₄]
    rfl

end Rdix.Dev
