/-
  Disks and their partitions (kernel/hba.c: sata_install, __sata_io; kernel/part.c).

  The console and the keyboard are installed while the kernel starts; `hba_init` installs each disk with
  the partitions of its boot sector (`kernel_init` has the call commented out).

  * `kernelInit`: the devices that the kernel installs when it starts;
  * `bootDisks`: these, and behind them the disks of `hba_init`;
  * `registered`: what they are, as a list;
  * `devices_installed`: the table holds them, or it is too small and the kernel stops.
-/
import Rdix.Kernel.DevTable
import Rdix.Kernel.Hba
import Rdix.Lib.Bytes
import Rdix.Lib.Loop

namespace Rdix.Dev

open Vsprintf ByteMem

variable {T β : Type}

/-! ## The boot sector -/

/-- `MBR_PART_NR`. -/
abbrev mbrPartNr : ℕ := 4

/-- `PART_NAME_LEN`. -/
abbrev partNameLen : ℕ := 8

/-- The fields of `part_entry_t` that are read. -/
structure PartEntry where
  system : BitVec 8
  start : BitVec 32
  count : BitVec 32

/-- `boot->entry[i]`: 16 bytes each, behind 446 bytes of code. -/
def partEntry (boot : ℕ → BitVec 8) (i : ℕ) : PartEntry where
  system := boot (446 + 16 * i + 4)
  start := BitVec.ofNat 32 (load boot 4 (446 + 16 * i + 8))
  count := BitVec.ofNat 32 (load boot 4 (446 + 16 * i + 12))

/-! ## The code -/

/-- `sprintf`: the string, and its length. -/
def sprintf (strAt : BitVec 32 → List (BitVec 8)) (arg : ℕ → BitVec 32) (fmt : String) :
    C (List (BitVec 8) × ℕ) :=
  vsprintf strAt arg (fmt.length + 1) (fmt.toList.map chr)

/-- `get_disk_name`. -/
def getDiskName (BLK_DEV_CNT : ℕ) : C (List (BitVec 8)) := do
  let r ← sprintf (fun _ => []) (fun _ => BitVec.ofNat 32 ('a'.toNat + BLK_DEV_CNT)) "hd%c"
  cassert (r.2 < 4) "sprintf(name, \"hd%c\", 'a' + BLK_DEV_CNT) < 4"
  return r.1

/-- `__sata_io`: the command that is sent. -/
def sataIo (dev : HbaDev) (type : ReqType) (startlba : BitVec 64) (size : BitVec 32) :
    C FisRegH2d := do
  cassert (startlba < dev.max_lba) "startlba < dev->max_lba"
  let cmd :=
    if dev.lba48 then (if type = .read then ataCmdReadDmaExt else ataCmdWriteDmaExt)
    else if type = .read then ataCmdReadDma else ataCmdWriteDma
  return bulidCmdTabFis cmd startlba (size.setWidth 16)

/-- The partition of an entry. -/
def PartEntry.toPart (e : PartEntry) (name : List (BitVec 8)) (disk : Fin deviceNr) : Part where
  name := name
  disk := disk
  system := e.system.setWidth 32
  start := e.start
  count := e.count

/-- A turn of the loop of `disk_part_install`. -/
def partTurn (disk : Fin deviceNr) (boot : ℕ → BitVec 8) (t : Table T β) (i : ℕ) :
    C (Table T β) := do
  let e := partEntry boot i
  if e.count = 0 then return t
  else do
    let name ← sprintf (fun _ => (t disk).name) (fun n => if n = 0 then 0 else BitVec.ofNat 32 (i + 1))
      "%s%d"
    cassert (name.2 < partNameLen) "sprintf(part->name, \"%s%d\", disk->name, i + 1) < PART_NAME_LEN"
    let r ← deviceInstall t .block .diskPart (.part (e.toPart name.1 disk)) name.1 disk (some .part)
      (some .part) (some .part)
    return r.1

/-- `boot` is what the buffer holds after the read, whose result is not looked at. -/
def diskPartInstall (t : Table T β) (disk_idx : Fin deviceNr) (buf : β) (boot : ℕ → BitVec 8) :
    C (Table T β) := do
  let disk ← deviceGet disk_idx
  let call ← deviceIo t .read buf 1 2 disk_idx 0 0
  match call with
  | some (.sata dev type _ count startlba) => do
    let _ ← sataIo dev type startlba count
    (List.range mbrPartNr).foldlM (partTurn disk boot) t
  | _ => (List.range mbrPartNr).foldlM (partTurn disk boot) t

/-- The devices, and `BLK_DEV_CNT`. -/
structure Boot (T β : Type) where
  devices : Table T β
  BLK_DEV_CNT : ℕ

/-- A turn of the loop of `sata_install`, for a disk that has answered. -/
def sataInstall (s : Boot T β) (dev : HbaDev) (buf : β) (boot : ℕ → BitVec 8) : C (Boot T β) := do
  let name ← getDiskName s.BLK_DEV_CNT
  let r ← deviceInstall s.devices .block .sataDisk (.disk dev) name 0 (some .sata) (some .sata)
    (some .sata)
  let t ← diskPartInstall r.1 r.2 buf boot
  return ⟨t, s.BLK_DEV_CNT + 1⟩

/-- The devices of `console_init` and `keyboard_init`. -/
def kernelInit : C (Boot T β) := do
  let r ← deviceInstall deviceInit .char .console .null ("console".toList.map chr) 0 none none
    (some .console)
  let r ← deviceInstall r.1 .char .keyboard .null ("keyboard".toList.map chr) 0 none
    (some .keyboard) none
  return ⟨r.1, 0⟩

/-- The devices of the start, and then those of `hba_init`: the disks that have answered, in their order,
    each with what the kernel reads from it. -/
def bootDisks (disks : List (HbaDev × β × (ℕ → BitVec 8))) : C (Boot T β) := do
  let s ← kernelInit
  disks.foldlM (fun s d => sataInstall s d.1 d.2.1 d.2.2) s

/-! ## Names -/

section Names
variable {name : List (BitVec 8)} {i : ℕ}

/-- The name of the disk `k`. -/
def diskName (k : ℕ) : List (BitVec 8) := [chr 'h', chr 'd', (BitVec.ofNat 32 ('a'.toNat + k)).setWidth 8]

theorem getDiskName_eq (k : ℕ) : getDiskName k = .ok (diskName k) := rfl

/-- `%d` without flags, width and precision. -/
theorem number_plain (num : BitVec 32) :
    number num 10 (-1) (-1) { noFlags with sign := true } = some (numeral false 10 num.toNat) := by
  obtain ⟨out, hout, a, z, b, he, hlen, -⟩ := number_layout num (-1) { noFlags with sign := true }
    (by norm_num : 1 < 10) (by norm_num) (by simp [noFlags]) (le_refl (-1)) (by norm_num)
  have hsign : plainSign { noFlags with sign := true } = [] := rfl
  have hpre : prefixOf 10 { noFlags with sign := true } = [] := rfl
  have hsmall : ({ noFlags with sign := true } : Flags).small = false := rfl
  rw [hsign, hpre, hsmall] at he hlen
  rw [hout, he]
  rw [he] at hlen
  simp only [List.length_append, List.length_replicate, List.length_nil] at hlen
  have hnone : a = 0 ∧ z = 0 ∧ b = 0 := by omega
  obtain ⟨rfl, rfl, rfl⟩ := hnone
  simp

/-- The name of the partition `i` of a disk. -/
def partName (name : List (BitVec 8)) (i : ℕ) : List (BitVec 8) := name ++ numeral false 10 (i + 1)

theorem sprintf_part (name : List (BitVec 8)) (hi : i < mbrPartNr) :
    sprintf (fun _ => name) (fun n => if n = 0 then 0 else BitVec.ofNat 32 (i + 1)) "%s%d" =
      .ok (partName name i, (partName name i).length) := by
  have hrun : ∀ num : BitVec 32,
      sprintf (fun _ => name) (fun n => if n = 0 then 0 else num) "%s%d" = do
        let str ← deref "str" (number num 10 (-1) (-1) { noFlags with sign := true })
        return (name ++ str, (name ++ str).length) := fun _ => rfl
  have hnum : (BitVec.ofNat 32 (i + 1)).toNat = i + 1 := by
    have hfour : i < 4 := hi
    rw [BitVec.toNat_ofNat, Nat.mod_eq_of_lt (by omega)]
  rw [hrun, number_plain, hnum]
  rfl

theorem partName_length (hname : name.length = 3) (hi : i < mbrPartNr) : (partName name i).length = 4 := by
  have hdigit : ∀ i < 4, (numeral false 10 (i + 1)).length = 1 := by
    intro i hi
    rw [numeral, List.length_map, Numeral.print_eq_digits (Nat.succ_ne_zero i), List.length_reverse,
      Nat.digits_of_lt 10 _ (Nat.succ_ne_zero i) (by omega)]
    rfl
  rw [partName, List.length_append, hname, hdigit i hi]

end Names

/-! ## The devices that are installed -/

section Registered
variable {t : Table T β} {l : List (DeviceT T β)} {disk : Fin deviceNr} {name : List (BitVec 8)}
  {boot : ℕ → BitVec 8}

/-- The devices with the partition `i`, if the boot sector has one. -/
def addPart (disk : Fin deviceNr) (name : List (BitVec 8)) (boot : ℕ → BitVec 8)
    (l : List (DeviceT T β)) (i : ℕ) : List (DeviceT T β) :=
  let e := partEntry boot i
  if e.count = 0 then l
  else l ++ [entry l .block .diskPart (.part (e.toPart (partName name i) disk)) (partName name i) disk
    (some .part) (some .part) (some .part)]

/-- The devices with a disk. -/
def addDisk (l : List (DeviceT T β)) (k : ℕ) (dev : HbaDev) : List (DeviceT T β) :=
  l ++ [entry l .block .sataDisk (.disk dev) (diskName k) 0 (some .sata) (some .sata) (some .sata)]

/-- The devices with the disk `k` and its partitions. -/
def register (l : List (DeviceT T β)) (k : ℕ) (dev : HbaDev) (boot : ℕ → BitVec 8) :
    List (DeviceT T β) :=
  (List.range mbrPartNr).foldl (addPart (Fin.ofNat deviceNr l.length) (diskName k) boot) (addDisk l k dev)

/-- The console and the keyboard. -/
def terminals : List (DeviceT T β) :=
  let console := entry [] .char .console .null ("console".toList.map chr) 0 none none (some .console)
  [console, entry [console] .char .keyboard .null ("keyboard".toList.map chr) 0 none (some .keyboard) none]

/-- The devices, and the number of disks, after the start of the kernel. -/
def registered (disks : List (HbaDev × β × (ℕ → BitVec 8))) : List (DeviceT T β) × ℕ :=
  disks.foldl (fun s d => (register s.1 s.2 d.1 d.2.2, s.2 + 1)) (terminals, 0)

theorem length_addPart (disk : Fin deviceNr) (name : List (BitVec 8)) (boot : ℕ → BitVec 8)
    (l : List (DeviceT T β)) (i : ℕ) : l.length ≤ (addPart disk name boot l i).length := by
  unfold addPart
  dsimp only
  split_ifs
  · exact le_rfl
  · simp

theorem length_addDisk (l : List (DeviceT T β)) (k : ℕ) (dev : HbaDev) :
    (addDisk l k dev).length = l.length + 1 := List.length_append

/-- The table of which the disk is a device of the name `name`. -/
def HoldsDisk (disk : Fin deviceNr) (name : List (BitVec 8)) (t : Table T β) (l : List (DeviceT T β)) :
    Prop :=
  Holds t l ∧ l[disk.val]?.map DeviceT.name = some name

/-- A turn of the loop over the partitions. -/
theorem partTurn_spec (h : HoldsDisk disk name t l) (hname : name.length = 3) {i : ℕ}
    (hi : i < mbrPartNr) :
    if (addPart disk name boot l i).length ≤ deviceNr then
      ∃ t', partTurn disk boot t i = .ok t' ∧ HoldsDisk disk name t' (addPart disk name boot l i)
    else partTurn disk boot t i = .error (.panic "could not install more device\n") := by
  obtain ⟨hl, hdisk⟩ := h
  obtain ⟨d, hd, rfl⟩ := Option.map_eq_some_iff.1 hdisk
  have hslot : (t disk).name = d.name := by rw [hl.slots.used hd]
  unfold addPart partTurn
  dsimp only
  by_cases hcount : (partEntry boot i).count = 0
  · rw [if_pos hcount, if_pos hcount, if_pos hl.slots.length_le]
    exact ⟨t, rfl, hl, hdisk⟩
  · have hinstall := hl.install (show DevType.block ≠ .null by decide) .diskPart
      (.part ((partEntry boot i).toPart (partName d.name i) disk)) (partName d.name i) disk
      (some .part) (some .part) (some .part)
    have hlen : (partName d.name i).length < partNameLen := by
      rw [partName_length hname hi]
      decide
    rw [if_neg hcount, if_neg hcount, hslot, sprintf_part d.name hi, ok_bind, cassert_pos hlen, ok_bind]
    split_ifs at hinstall ⊢ with hfits
    · obtain ⟨t', j, he, -, ht'⟩ := hinstall
      rw [he]
      refine ⟨t', rfl, ht', ?_⟩
      rw [List.getElem?_append_left (List.getElem?_eq_some_iff.1 hd).1, hd]
      rfl
    · rw [hinstall]
      rfl

/-- The loop over the partitions. -/
theorem partLoop_spec (h : HoldsDisk disk name t l) (hname : name.length = 3) (boot : ℕ → BitVec 8) :
    if ((List.range mbrPartNr).foldl (addPart disk name boot) l).length ≤ deviceNr then
      ∃ t', (List.range mbrPartNr).foldlM (partTurn disk boot) t = .ok t' ∧
        HoldsDisk disk name t' ((List.range mbrPartNr).foldl (addPart disk name boot) l)
    else (List.range mbrPartNr).foldlM (partTurn disk boot) t =
      .error (.panic "could not install more device\n") :=
  Loop.foldlM_fits (HoldsDisk disk name) (fun l => l.length ≤ deviceNr)
    (fun l i hl => (length_addPart disk name boot l i).trans hl)
    (fun _ _ _ hi hR _ => partTurn_spec hR hname (List.mem_range.1 hi)) h h.1.slots.length_le

/-- The boot sector of a disk that is there is read. -/
theorem diskPartInstall_eq {i : Fin deviceNr} {dev : HbaDev} (hread : (t i).read = some .sata)
    (hptr : (t i).ptr = .disk dev) (hlba : 0 < dev.max_lba) (buf : β) (boot : ℕ → BitVec 8) :
    diskPartInstall t i buf boot = (List.range mbrPartNr).foldlM (partTurn i boot) t := by
  have hdriver : (t i).driver .read = some .sata := hread
  unfold diskPartInstall
  rw [deviceGet_ofNat, ok_bind, deviceIo, deviceGet_ofNat, ok_bind, hdriver]
  dsimp only
  rw [hptr]
  show (sataIo dev .read 0 1 >>= fun _ => (List.range mbrPartNr).foldlM (partTurn i boot) t) = _
  rw [sataIo, cassert_pos hlba]
  rfl

theorem length_register (l : List (DeviceT T β)) (k : ℕ) (dev : HbaDev) (boot : ℕ → BitVec 8) :
    (addDisk l k dev).length ≤ (register l k dev boot).length :=
  Loop.fits_of_foldl (fun l' : List (DeviceT T β) => l'.length ≤ (register l k dev boot).length)
    (fun l' i hl => (length_addPart _ _ boot l' i).trans hl) le_rfl

/-- A disk with its partitions. -/
theorem sataInstall_spec {s : Boot T β} (h : Holds s.devices l) {dev : HbaDev} (hlba : 0 < dev.max_lba)
    (buf : β) (boot : ℕ → BitVec 8) :
    if (register l s.BLK_DEV_CNT dev boot).length ≤ deviceNr then
      ∃ s', sataInstall s dev buf boot = .ok s' ∧
        Holds s'.devices (register l s.BLK_DEV_CNT dev boot) ∧ s'.BLK_DEV_CNT = s.BLK_DEV_CNT + 1
    else sataInstall s dev buf boot = .error (.panic "could not install more device\n") := by
  have hinstall := h.install (show DevType.block ≠ .null by decide) .sataDisk (.disk dev)
    (diskName s.BLK_DEV_CNT) 0 (some .sata) (some .sata) (some .sata)
  unfold sataInstall
  rw [getDiskName_eq, ok_bind]
  by_cases hfits : (addDisk l s.BLK_DEV_CNT dev).length ≤ deviceNr
  · obtain ⟨t₁, i, he, hi, ht₁⟩ := (if_pos hfits).mp hinstall
    change Holds t₁ (addDisk l s.BLK_DEV_CNT dev) at ht₁
    have hlen : l.length < deviceNr := hi ▸ i.isLt
    obtain rfl : i = Fin.ofNat deviceNr l.length := Fin.ext (by simp [hi, Nat.mod_eq_of_lt hlen])
    have hget : (addDisk l s.BLK_DEV_CNT dev)[l.length]? = some (entry l .block .sataDisk (.disk dev)
        (diskName s.BLK_DEV_CNT) 0 (some .sata) (some .sata) (some .sata)) := List.getElem?_concat_length
    have hslot := ht₁.slots.used (hi ▸ hget)
    have hname : (addDisk l s.BLK_DEV_CNT dev)[(Fin.ofNat deviceNr l.length).val]?.map DeviceT.name =
        some (diskName s.BLK_DEV_CNT) := by
      rw [hi, hget]
      rfl
    have hloop := partLoop_spec ⟨ht₁, hname⟩ rfl boot
    have hparts := diskPartInstall_eq (congrArg DeviceT.read hslot) (congrArg DeviceT.ptr hslot) hlba buf
      boot
    rw [he, ok_bind, hparts, register]
    split_ifs at hloop ⊢ with hall
    · obtain ⟨t₂, he₂, ht₂, -⟩ := hloop
      rw [he₂]
      exact ⟨_, rfl, ht₂, rfl⟩
    · rw [hloop]
      rfl
  · rw [if_neg fun hall => hfits ((length_register l _ dev boot).trans hall), (if_neg hfits).mp hinstall]
    rfl

theorem kernelInit_spec : ∃ t : Table T β, kernelInit = .ok ⟨t, 0⟩ ∧ Holds t terminals := by
  have hone : ([] ++ [entry [] .char .console .null ("console".toList.map chr) 0 none none
      (some .console)] : List (DeviceT T β)).length ≤ deviceNr := Nat.le_add_left 1 63
  have hempty : Holds (deviceInit : Table T β) [] := holds_init
  have hconsole := hempty.install (show DevType.char ≠ .null by decide) .console .null
    ("console".toList.map chr) 0 none none (some .console)
  obtain ⟨t₁, i₁, he₁, -, ht₁⟩ := (if_pos hone).mp hconsole
  have htwo : (terminals : List (DeviceT T β)).length ≤ deviceNr := Nat.le_add_left 2 62
  have hkeyboard := ht₁.install (show DevType.char ≠ .null by decide) .keyboard .null
    ("keyboard".toList.map chr) 0 none (some .keyboard) none
  obtain ⟨t₂, i₂, he₂, -, ht₂⟩ := (if_pos htwo).mp hkeyboard
  refine ⟨t₂, ?_, ht₂⟩
  rw [kernelInit, he₁, ok_bind]
  dsimp only
  rw [he₂]
  rfl

theorem registered_snd (disks : List (HbaDev × β × (ℕ → BitVec 8))) :
    (registered (T := T) disks).2 = disks.length := by
  have hfrom : ∀ s : List (DeviceT T β) × ℕ,
      (disks.foldl (fun s d => (register s.1 s.2 d.1 d.2.2, s.2 + 1)) s).2 = s.2 + disks.length := by
    induction disks with
    | nil => exact fun s => rfl
    | cons d disks ih =>
      intro s
      rw [List.foldl_cons, ih, List.length_cons]
      omega
  exact (hfrom (terminals, 0)).trans (Nat.zero_add _)

/-- The loop over the disks. -/
theorem bootDisks_spec (disks : List (HbaDev × β × (ℕ → BitVec 8)))
    (hlba : ∀ d ∈ disks, 0 < d.1.max_lba) :
    if (registered (T := T) disks).1.length ≤ deviceNr then
      ∃ s, bootDisks disks = .ok s ∧ Holds s.devices (registered (T := T) disks).1 ∧
        s.BLK_DEV_CNT = (registered (T := T) disks).2
    else bootDisks (T := T) disks = .error (.panic "could not install more device\n") := by
  obtain ⟨t, he, ht⟩ : ∃ t : Table T β, kernelInit = .ok ⟨t, 0⟩ ∧ Holds t terminals := kernelInit_spec
  have htwo : (terminals : List (DeviceT T β)).length ≤ deviceNr := Nat.le_add_left 2 62
  rw [bootDisks, he, ok_bind]
  refine Loop.foldlM_fits (fun (s : Boot T β) (p : List (DeviceT T β) × ℕ) => Holds s.devices p.1 ∧
    s.BLK_DEV_CNT = p.2) (fun p => p.1.length ≤ deviceNr) (fun p d hp => ?_) (fun s p d hd hR _ => ?_)
    ⟨ht, rfl⟩ htwo
  · have hdisk := length_register p.1 p.2 d.1 d.2.2
    rw [length_addDisk] at hdisk
    exact ((Nat.le_succ _).trans hdisk).trans hp
  · obtain ⟨hl, hk⟩ := hR
    have hspec := sataInstall_spec hl (hlba d hd) d.2.1 d.2.2
    rwa [hk] at hspec

/-- **The devices after `hba_init`** are the console, the keyboard, and each disk with its
    partitions behind it, in the order of the disks; `device_find` finds the ones of a subtype in this
    order.  Where they are more than the table has room for, the kernel stops. -/
theorem devices_installed (disks : List (HbaDev × β × (ℕ → BitVec 8)))
    (hlba : ∀ d ∈ disks, 0 < d.1.max_lba) :
    if (registered (T := T) disks).1.length ≤ deviceNr then
      ∃ s, bootDisks disks = .ok s ∧ Holds s.devices (registered (T := T) disks).1 ∧
        s.BLK_DEV_CNT = disks.length ∧
        ∀ subtype ≠ .null, ∀ idx : ℕ, (deviceFind s.devices subtype idx).map s.devices =
          ((registered disks).1.filter fun d => d.subtype = subtype)[idx]?
    else bootDisks (T := T) disks = .error (.panic "could not install more device\n") := by
  have hboot := bootDisks_spec (T := T) disks hlba
  split_ifs at hboot ⊢ with hfits
  · obtain ⟨s, he, hs, hk⟩ := hboot
    refine ⟨s, he, hs, hk.trans (registered_snd disks), fun subtype hsub idx => ?_⟩
    have hfind := hs.find hsub idx
    rwa [if_pos (Int.natCast_nonneg idx), Int.toNat_natCast] at hfind
  · exact hboot

/-- A disk with one partition: they are the devices 2 and 3. -/
theorem devices_installed_one : ∃ s : Boot Unit Unit,
    bootDisks [(⟨0, 200, true⟩, (), fun a => if a = 454 then 63 else if a = 458 then 100 else 0)] = .ok s ∧
    ((deviceFind s.devices .diskPart 0).map s.devices).map (fun d => (d.dev, d.parent)) = some (3, 2) := by
  have h := devices_installed (T := Unit)
    [(⟨0, 200, true⟩, (), fun a => if a = 454 then 63 else if a = 458 then 100 else 0)] (by simp)
  rw [if_pos (by decide)] at h
  obtain ⟨s, he, -, -, hfind⟩ := h
  refine ⟨s, he, ?_⟩
  rw [show (0 : ℤ) = (0 : ℕ) from rfl, hfind .diskPart (by decide) 0]
  rfl

end Registered

end Rdix.Dev
