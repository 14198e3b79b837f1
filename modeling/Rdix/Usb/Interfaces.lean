/-
  Interfaces and endpoints by number (rdix/usbDescriptor.h, hd/usb3.0/deviceEnum.c).

  A configuration is a header, class descriptors, and interfaces with their settings; `CfigDesc` has
  its bytes.

  * `offsetOf`: where the descriptor with a number lies among descriptors of a type;
  * `descLoop_tiles`: the loop finds it;
  * `interfaces_found_iff`: the interface with a number is found just when the interfaces in front of
    it have one setting each; the endpoints of a setting are always found.
-/
import Rdix.Usb.Descriptor

namespace Rdix

open Nodes (Returns)

/-! ## Well-formed configurations -/

/-- A descriptor: its bytes, the first one of which is its length. -/
structure Desc where
  bytes : List (BitVec 8)
  bLength : (bytes.getD 0 0).toNat = bytes.length
  two_le : 2 ≤ bytes.length

namespace Desc

/-- `bDescriptorType`. -/
def type (d : Desc) : BitVec 8 := d.bytes.getD 1 0

/-- The number of bytes. -/
def length (d : Desc) : ℕ := d.bytes.length

end Desc

/-- The number of bytes of some descriptors. -/
def size (ds : List Desc) : ℕ := (ds.map Desc.length).sum

/-- The number of descriptors of a type. -/
def countType (type : BitVec 8) (ds : List Desc) : ℕ := ds.countP fun d => d.type = type

/-- A setting of an interface: its descriptor, and its endpoints mixed with class descriptors. -/
structure Setting where
  desc : Desc
  type : desc.type = descInterface
  fields : 9 ≤ desc.length
  others : List Desc
  noInterface : countType descInterface others = 0
  bNumEndpoints : (desc.bytes.getD 4 0).toNat = countType descEndpoint others

def Setting.descs (s : Setting) : List Desc := s.desc :: s.others

/-- An interface: its first setting, and the alternate ones. -/
structure Interface where
  first : Setting
  alternates : List Setting

namespace Interface

def settings (i : Interface) : List Setting := i.first :: i.alternates

def descs (i : Interface) : List Desc := i.settings.flatMap Setting.descs

end Interface

/-- A configuration: its header, class descriptors, and the interfaces. -/
structure Configuration where
  header : Desc
  type : header.type = descConfiguration
  fields : 9 ≤ header.length
  classes : List Desc
  noInterface : countType descInterface classes = 0
  interfaces : List Interface
  bNumInterface : (header.bytes.getD 4 0).toNat = interfaces.length
  wTotalLength : (header.bytes.getD 2 0).toNat + (header.bytes.getD 3 0).toNat * 2 ^ 8 =
    size (header :: classes ++ interfaces.flatMap Interface.descs)

/-- The bytes of some descriptors. -/
def flat (ds : List Desc) : List (BitVec 8) := ds.flatMap Desc.bytes

section Flat
variable {ds es : List Desc} {d : Desc} {type : BitVec 8}

@[simp] theorem flat_cons : flat (d :: ds) = d.bytes ++ flat ds := rfl

@[simp] theorem flat_append : flat (ds ++ es) = flat ds ++ flat es := List.flatMap_append

@[simp] theorem size_nil : size [] = 0 := rfl

@[simp] theorem size_cons : size (d :: ds) = d.length + size ds := List.sum_cons

@[simp] theorem size_append : size (ds ++ es) = size ds + size es := by
  rw [size, List.map_append, List.sum_append]
  rfl

@[simp] theorem flat_length : (flat ds).length = size ds := by
  rw [flat, List.length_flatMap]
  rfl

@[simp] theorem countType_nil : countType type [] = 0 := rfl

@[simp] theorem countType_append : countType type (ds ++ es) = countType type ds + countType type es :=
  List.countP_append

theorem countType_cons_self (h : d.type = type) : countType type (d :: ds) = countType type ds + 1 :=
  List.countP_cons_of_pos (decide_eq_true h)

theorem countType_cons_of_ne (h : d.type ≠ type) : countType type (d :: ds) = countType type ds :=
  List.countP_cons_of_neg (by simpa using h)

end Flat

/-! ## The walk over descriptors -/

/-- Where the descriptor of a type with the index `j` begins. -/
def offsetOf (type : BitVec 8) : ℕ → List Desc → Option ℕ
  | _, [] => none
  | j, d :: ds =>
    if d.type = type then
      match j with
      | 0 => some 0
      | j + 1 => (offsetOf type j ds).map (d.length + ·)
    else (offsetOf type j ds).map (d.length + ·)

section Walk
variable {ds es : List Desc} {d : Desc} {type : BitVec 8} {cfg : CfigDesc} {j k : ℕ}

theorem offsetOf_zero (h : d.type = type) : offsetOf type 0 (d :: ds) = some 0 := if_pos h

theorem offsetOf_succ (h : d.type = type) :
    offsetOf type (j + 1) (d :: ds) = (offsetOf type j ds).map (d.length + ·) := if_pos h

theorem offsetOf_of_ne (h : d.type ≠ type) :
    offsetOf type j (d :: ds) = (offsetOf type j ds).map (d.length + ·) := by
  cases j <;> exact if_neg h

/-- The bytes of a descriptor in the buffer. -/
theorem byte_at {pre : List (BitVec 8)} (hbytes : cfg.bytes = pre ++ flat (d :: ds)) (hk : k < d.bytes.length) :
    cfg.bytes[pre.length + k]? = some (d.bytes.getD k 0) := by
  rw [hbytes, flat_cons, List.getElem?_append_right (Nat.le_add_right _ _), Nat.add_sub_cancel_left,
    List.getElem?_append_left hk, List.getD_eq_getElem?_getD, List.getElem?_eq_getElem hk]
  rfl

/-- **The loop over descriptors that end with the buffer** finds the one with the number. -/
theorem descLoop_tiles {pre : List (BitVec 8)} {number count : ℤ} (hbytes : cfg.bytes = pre ++ flat ds)
    (hnum : number = count + j + 1) :
    Returns (fun fuel => cfg.descLoop type number fuel pre.length count)
      ((offsetOf type j ds).map (pre.length + ·)) := by
  induction ds generalizing pre count j with
  | nil =>
    refine (Returns.const rfl).turn rfl fun fuel => CfigDesc.descLoop_behind ?_
    rw [hbytes]
    simp [flat]
  | cons d ds ih =>
    have htwo := d.two_le
    have hpos : 0 < d.bytes.length := by omega
    have hlen : cfg.bytes[pre.length]? = some (d.bytes.getD 0 0) := byte_at hbytes hpos
    have hty : cfg.bytes[pre.length + 1]? = some d.type := byte_at hbytes htwo
    -- the turn that leaves `d` behind
    have next : ∀ j : ℕ, ¬ (d.type = type ∧ CfigDesc.counted type d.type count = number) →
        number = CfigDesc.counted type d.type count + j + 1 →
        Returns (fun fuel => cfg.descLoop type number fuel pre.length count)
          (((offsetOf type j ds).map (d.length + ·)).map (pre.length + ·)) := by
      intro j hgo hj
      have hbytes' : cfg.bytes = (pre ++ d.bytes) ++ flat ds := by rw [hbytes, flat_cons, List.append_assoc]
      have hrec := ih hbytes' hj
      rw [List.length_append] at hrec
      rw [Option.map_map]
      have hadd : (pre.length + ·) ∘ (d.length + ·) = fun x => pre.length + d.bytes.length + x := by
        funext x
        exact (Nat.add_assoc ..).symm
      rw [hadd]
      refine hrec.turn rfl fun fuel => ?_
      rw [CfigDesc.descLoop_inside hty hlen, if_neg hgo, d.bLength]
    by_cases htype : d.type = type
    · have hcounted : CfigDesc.counted type d.type count = count + 1 := if_pos htype
      cases j with
      | zero =>
        have hfound : d.type = type ∧ CfigDesc.counted type d.type count = number := by
          rw [hcounted, hnum]
          exact ⟨htype, by push_cast; ring⟩
        rw [offsetOf_zero htype]
        refine (Returns.const rfl).turn rfl fun fuel => ?_
        rw [CfigDesc.descLoop_inside hty hlen, if_pos hfound]
        rfl
      | succ j =>
        rw [offsetOf_succ htype]
        refine next j (fun h => ?_) ?_
        · have := h.2
          rw [hcounted, hnum] at this
          push_cast at this
          omega
        · rw [hcounted, hnum]
          push_cast
          ring
    · rw [offsetOf_of_ne htype]
      refine next j (fun h => htype h.1) ?_
      rw [CfigDesc.counted, if_neg htype, hnum]

theorem offsetOf_append_right (h : countType type ds ≤ j) : offsetOf type j (ds ++ es) =
    (offsetOf type (j - countType type ds) es).map (size ds + ·) := by
  induction ds generalizing j with
  | nil => simp
  | cons d ds ih =>
    rw [List.cons_append]
    have hadd : ∀ o : Option ℕ, (o.map (size ds + ·)).map (d.length + ·) = o.map (size (d :: ds) + ·) := by
      intro o
      rw [Option.map_map]
      congr 1
      funext x
      simp [Nat.add_assoc]
    by_cases htype : d.type = type
    · rw [countType_cons_self htype] at h ⊢
      obtain ⟨j, rfl⟩ : ∃ i, j = i + 1 := ⟨j - 1, by omega⟩
      rw [offsetOf_succ htype, ih (by omega), Nat.add_sub_add_right, hadd]
    · rw [countType_cons_of_ne htype] at h ⊢
      rw [offsetOf_of_ne htype, ih h, hadd]

theorem offsetOf_append_left (h : j < countType type ds) : offsetOf type j (ds ++ es) = offsetOf type j ds := by
  induction ds generalizing j with
  | nil => exact absurd h (Nat.not_lt_zero j)
  | cons d ds ih =>
    rw [List.cons_append]
    by_cases htype : d.type = type
    · rw [countType_cons_self htype] at h
      cases j with
      | zero => rw [offsetOf_zero htype, offsetOf_zero htype]
      | succ j => rw [offsetOf_succ htype, offsetOf_succ htype, ih (Nat.lt_of_succ_lt_succ h)]
    · rw [countType_cons_of_ne htype] at h
      rw [offsetOf_of_ne htype, offsetOf_of_ne htype, ih h]

theorem offsetOf_isSome : (offsetOf type j ds).isSome = true ↔ j < countType type ds := by
  induction ds generalizing j with
  | nil => simp [offsetOf]
  | cons d ds ih =>
    by_cases htype : d.type = type
    · rw [countType_cons_self htype]
      cases j with
      | zero => simp [offsetOf_zero htype]
      | succ j => rw [offsetOf_succ htype, Option.isSome_map, ih, Nat.succ_lt_succ_iff]
    · rw [offsetOf_of_ne htype, countType_cons_of_ne htype, Option.isSome_map, ih]

/-- **Descriptors with different numbers** begin at different places. -/
theorem offsetOf_inj {x : ℕ} (hj : offsetOf type j ds = some x) (hk : offsetOf type k ds = some x) :
    j = k := by
  induction ds generalizing j k x with
  | nil => cases hj
  | cons d ds ih =>
    have htwo : 2 ≤ d.length := d.two_le
    have hnext : ∀ {o o' : Option ℕ}, o.map (d.length + ·) = some x → o'.map (d.length + ·) = some x →
        ∃ y, o = some y ∧ o' = some y := by
      intro o o' h h'
      obtain ⟨y, hy, hx⟩ := Option.map_eq_some_iff.1 h
      obtain ⟨z, hz, hx'⟩ := Option.map_eq_some_iff.1 h'
      have hyz : z = y := by omega
      exact ⟨y, hy, hyz ▸ hz⟩
    have hpos : ∀ {o : Option ℕ}, o.map (d.length + ·) = some x → x ≠ 0 := by
      intro o h
      obtain ⟨y, -, hx⟩ := Option.map_eq_some_iff.1 h
      omega
    by_cases htype : d.type = type
    · cases j with
      | zero =>
        obtain rfl := Option.some.inj ((offsetOf_zero htype).symm.trans hj)
        cases k with
        | zero => rfl
        | succ k => exact absurd rfl (hpos ((offsetOf_succ htype).symm.trans hk))
      | succ j =>
        rw [offsetOf_succ htype] at hj
        cases k with
        | zero =>
          obtain rfl := Option.some.inj ((offsetOf_zero htype).symm.trans hk)
          exact absurd rfl (hpos hj)
        | succ k =>
          obtain ⟨y, hy, hy'⟩ := hnext hj ((offsetOf_succ htype).symm.trans hk)
          rw [ih hy hy']
    · rw [offsetOf_of_ne htype] at hj hk
      obtain ⟨y, hy, hy'⟩ := hnext hj hk
      exact ih hy hy'

end Walk

/-! ## Finding by number -/

section Count
variable {is : List Interface}

theorem countType_setting (s : Setting) : countType descInterface s.descs = 1 := by
  rw [Setting.descs, countType_cons_self s.type, s.noInterface]

theorem countType_settings (ss : List Setting) :
    countType descInterface (ss.flatMap Setting.descs) = ss.length := by
  induction ss with
  | nil => rfl
  | cons s ss ih => rw [List.flatMap_cons, countType_append, countType_setting, ih, List.length_cons, Nat.add_comm]

/-- There are as many interface descriptors as settings. -/
theorem countType_interfaces (is : List Interface) : countType descInterface (is.flatMap Interface.descs) =
    (is.map fun i => i.alternates.length).sum + is.length := by
  induction is with
  | nil => rfl
  | cons i is ih =>
    rw [List.flatMap_cons, countType_append, Interface.descs, countType_settings, ih, List.map_cons,
      List.sum_cons, List.length_cons, Interface.settings, List.length_cons]
    omega

theorem alternates_sum_eq_zero : (is.map fun i => i.alternates.length).sum = 0 ↔
    ∀ i ∈ is, i.alternates = [] := by
  simp [List.sum_eq_zero_iff]

end Count

namespace Configuration

/-- The descriptors of a configuration. -/
def descs (c : Configuration) : List Desc := c.header :: c.classes ++ c.interfaces.flatMap Interface.descs

theorem flat_getD (c : Configuration) {i : ℕ} (hi : i < 9) :
    (flat c.descs).getD i 0 = c.header.bytes.getD i 0 := by
  have hlt : i < c.header.bytes.length := hi.trans_le c.fields
  rw [descs, List.cons_append, flat_cons, List.getD_append _ _ _ _ hlt]

/-- The buffer that the device sends. -/
def cfg (c : Configuration) : CfigDesc where
  bytes := flat c.descs
  header := by
    rw [flat_length, descs, List.cons_append, size_cons]
    exact c.fields.trans (Nat.le_add_right _ _)
  bDescriptorType := (c.flat_getD (by norm_num)).trans c.type
  wTotalLength := by
    rw [c.flat_getD (by norm_num), c.flat_getD (by norm_num), c.wTotalLength, flat_length]
    rfl

/-- Where a setting begins that stands behind the interfaces `is` and the settings `ss` of its own
    interface. -/
def settingAt (c : Configuration) (is : List Interface) (ss : List Setting) : ℕ :=
  size (c.header :: c.classes ++ is.flatMap Interface.descs ++ ss.flatMap Setting.descs)

/-- **The endpoints of every setting are found by their numbers.** -/
def EndpointsFound (c : Configuration) : Prop :=
  ∀ is i is' ss s ss', c.interfaces = is ++ i :: is' → i.settings = ss ++ s :: ss' →
    ∀ j, 1 ≤ j → j ≤ (s.desc.bytes.getD 4 0).toNat →
      ∃ x, offsetOf descEndpoint (j - 1) s.others = some x ∧
        Returns (c.cfg.getEndpointDesc (c.settingAt is ss) j) (some (c.settingAt is ss + s.desc.length + x))

variable {c : Configuration} {k : ℕ}

theorem endpoints_found (c : Configuration) : c.EndpointsFound := by
  intro is i is' ss s ss' his hss j hj hle
  obtain ⟨pre, hpre⟩ : ∃ pre, pre = c.header :: c.classes ++ is.flatMap Interface.descs ++
    ss.flatMap Setting.descs := ⟨_, rfl⟩
  obtain ⟨post, hpost⟩ : ∃ post, post = ss'.flatMap Setting.descs ++ is'.flatMap Interface.descs := ⟨_, rfl⟩
  have hdescs : c.descs = pre ++ s.desc :: (s.others ++ post) := by
    rw [descs, his, hpre, hpost, List.flatMap_append, List.flatMap_cons, Interface.descs, hss,
      List.flatMap_append, List.flatMap_cons, Setting.descs]
    simp only [List.append_assoc, List.cons_append]
  have hbytes : c.cfg.bytes = flat pre ++ flat (s.desc :: (s.others ++ post)) :=
    (congrArg flat hdescs).trans flat_append
  have hcount : j - 1 < countType descEndpoint s.others := by
    rw [← s.bNumEndpoints]
    omega
  obtain ⟨x, hx⟩ := Option.isSome_iff_exists.1 (offsetOf_isSome.2 hcount)
  refine ⟨x, hx, ?_⟩
  have hat : c.settingAt is ss = (flat pre).length := by rw [flat_length, hpre, settingAt]
  have hfields : 9 ≤ s.desc.bytes.length := s.fields
  have hty : c.cfg.bytes[(flat pre).length + 1]? = some descInterface :=
    (byte_at hbytes (by omega)).trans (congrArg some s.type)
  have heps := byte_at (k := 4) hbytes (by omega)
  have hne : s.desc.type ≠ descEndpoint := by
    rw [s.type]
    decide
  have hfind : offsetOf descEndpoint (j - 1) (s.desc :: (s.others ++ post)) = some (s.desc.length + x) := by
    rw [offsetOf_of_ne hne, offsetOf_append_left hcount, hx]
    rfl
  have hwalk : Returns (fun fuel => c.cfg.descLoop descEndpoint j fuel (flat pre).length 0)
      ((offsetOf descEndpoint (j - 1) (s.desc :: (s.others ++ post))).map ((flat pre).length + ·)) :=
    descLoop_tiles hbytes (by omega)
  rw [hfind] at hwalk
  rw [hat, CfigDesc.getEndpointDesc_eq hty heps (by omega) (by omega), Nat.add_assoc]
  exact hwalk

/-- The interface descriptor that is found is the one with the number, counted by settings. -/
theorem getInterfaceDesc_returns (c : Configuration) (hk : 1 ≤ k) (hle : k ≤ c.interfaces.length) :
    Returns (c.cfg.getInterfaceDesc k) (offsetOf descInterface (k - 1) c.descs) := by
  have hnum : (k : ℤ) ≤ c.cfg.bNumInterface := by
    rw [CfigDesc.bNumInterface, cfg, c.flat_getD (by norm_num), c.bNumInterface]
    exact Int.ofNat_le.2 hle
  have hbytes : c.cfg.bytes = [] ++ flat c.descs := rfl
  have hwalk : Returns (fun fuel => c.cfg.descLoop descInterface k fuel 0 0)
      ((offsetOf descInterface (k - 1) c.descs).map (0 + ·)) := descLoop_tiles hbytes (by omega)
  have hzero : ∀ o : Option ℕ, o.map (0 + ·) = o := by
    intro o
    simp
  rw [hzero] at hwalk
  rw [CfigDesc.getInterfaceDesc_eq (by omega) hnum]
  exact hwalk

/-- The first setting of an interface has the number of the settings in front of it. -/
theorem offsetOf_setting {is is' : List Interface} {i : Interface} (h : c.interfaces = is ++ i :: is') :
    offsetOf descInterface ((is.map fun i => i.alternates.length).sum + is.length) c.descs =
      some (c.settingAt is []) := by
  obtain ⟨front, hfront⟩ : ∃ front, front = c.header :: c.classes ++ is.flatMap Interface.descs := ⟨_, rfl⟩
  obtain ⟨rest, hrest⟩ : ∃ rest, rest = i.first.others ++ i.alternates.flatMap Setting.descs ++
    is'.flatMap Interface.descs := ⟨_, rfl⟩
  have hdescs : c.descs = front ++ i.first.desc :: rest := by
    rw [descs, h, hfront, hrest, List.flatMap_append, List.flatMap_cons, Interface.descs, Interface.settings,
      List.flatMap_cons, Setting.descs]
    simp only [List.append_assoc, List.cons_append]
  have hheader : c.header.type ≠ descInterface := by
    rw [c.type]
    decide
  have hcount : countType descInterface front = (is.map fun i => i.alternates.length).sum + is.length := by
    rw [hfront, countType_append, countType_cons_of_ne hheader, c.noInterface, Nat.zero_add,
      countType_interfaces]
  have hat : c.settingAt is [] = size front := by
    rw [settingAt, hfront, List.flatMap_nil, List.append_nil]
  rw [← hcount, hdescs, offsetOf_append_right le_rfl, Nat.sub_self, offsetOf_zero i.first.type, hat]
  rfl

/-- **The interface with a number is found** just when the interfaces in front of it have no alternate
    settings; the endpoints of a setting always are. -/
theorem interfaces_found_iff (c : Configuration) (hk : 1 ≤ k) (hle : k ≤ c.interfaces.length) :
    (Returns (c.cfg.getInterfaceDesc k) (some (c.settingAt (c.interfaces.take (k - 1)) [])) ∧
      c.EndpointsFound) ↔ ∀ i ∈ c.interfaces.take (k - 1), i.alternates = [] := by
  have hfound := c.getInterfaceDesc_returns hk hle
  have hlt : k - 1 < c.interfaces.length := by omega
  have hsplit : c.interfaces = c.interfaces.take (k - 1) ++ c.interfaces[k - 1] :: c.interfaces.drop (k - 1 + 1) := by
    rw [List.getElem_cons_drop, List.take_append_drop]
  have hsetting := offsetOf_setting hsplit
  rw [List.length_take_of_le hlt.le] at hsetting
  rw [← alternates_sum_eq_zero]
  constructor
  · rintro ⟨h, -⟩
    have := offsetOf_inj hsetting (hfound.unique h)
    omega
  · intro h0
    rw [h0, Nat.zero_add] at hsetting
    exact ⟨hsetting ▸ hfound, c.endpoints_found⟩

/-- The descriptor of a setting without endpoints. -/
def plainSetting (number setting : BitVec 8) : Setting where
  desc := ⟨[9, 4, number, setting, 0, 14, 2, 0, 0], rfl, by simp⟩
  type := rfl
  fields := le_rfl
  others := []
  noInterface := rfl
  bNumEndpoints := rfl

/-- Two interfaces, the first one with an alternate setting. -/
def camera : Configuration where
  header := ⟨[9, 2, 36, 0, 2, 1, 0, 0x80, 50], rfl, by decide⟩
  type := rfl
  fields := by decide
  classes := []
  noInterface := rfl
  interfaces := [⟨plainSetting 0 0, [plainSetting 0 1]⟩, ⟨plainSetting 1 0, []⟩]
  bNumInterface := rfl
  wTotalLength := by decide

/-- A setting with one endpoint. -/
def pipe (number setting : BitVec 8) : Setting where
  desc := ⟨[9, 4, number, setting, 1, 14, 2, 0, 0], rfl, by simp⟩
  type := rfl
  fields := le_rfl
  others := [⟨[7, 5, 0x81, 3, 4, 0, 10], rfl, by decide⟩]
  noInterface := by decide
  bNumEndpoints := rfl

/-- Two interfaces with endpoints, the second one with an alternate setting. -/
def headset : Configuration where
  header := ⟨[9, 2, 57, 0, 2, 1, 0, 0x80, 50], rfl, by decide⟩
  type := rfl
  fields := by decide
  classes := []
  noInterface := rfl
  interfaces := [⟨pipe 0 0, []⟩, ⟨pipe 1 0, [pipe 1 1]⟩]
  bNumInterface := rfl
  wTotalLength := by decide

/-- The second interface of a headset is found, and all its endpoints are. -/
theorem interfaces_found_headset :
    Returns (headset.cfg.getInterfaceDesc (2 : ℕ))
        (some (headset.settingAt (headset.interfaces.take (2 - 1)) [])) ∧
      headset.EndpointsFound :=
  (interfaces_found_iff headset (by decide) (by decide)).2 fun i hi => by
    rw [List.mem_singleton.1 hi]

/-- **The alternate setting of the first interface** is taken for the second interface. -/
theorem interfaces_found_astray : Returns (camera.cfg.getInterfaceDesc (2 : ℕ)) (some 18) ∧
    camera.settingAt (camera.interfaces.take (2 - 1)) [] = 27 := by
  have hfound : offsetOf descInterface (2 - 1) camera.descs = some 18 := by decide
  exact ⟨hfound ▸ camera.getInterfaceDesc_returns (by decide) (by decide), by decide⟩

end Configuration

end Rdix
