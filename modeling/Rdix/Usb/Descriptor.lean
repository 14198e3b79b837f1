/-
  Walking through a configuration descriptor (hd/usb3.0/deviceEnum.c: get_interface_desc,
  get_endpoint_desc).

  The device sends the bytes.  A pointer into the buffer is its offset from the configuration
  descriptor, and a read outside of the buffer ends in `wild`.

  * `descLoop`: the loop of both functions;
  * `Visited`: where it comes, `Passable`: what it must find there;
  * `desc_walks_end_iff`: the walks end and stay in the buffer just when what they visit is passable.
-/
import Rdix.Kernel.ListNode

namespace Rdix

open Nodes (Returns)

/-! ## The code -/

/-- `DESC_CONFIGURATION`. -/
abbrev descConfiguration : BitVec 8 := 2

abbrev descInterface : BitVec 8 := 4

abbrev descEndpoint : BitVec 8 := 5

/-- The buffer of a configuration descriptor: its header lies in it, and `wTotalLength` is right. -/
structure CfigDesc where
  bytes : List (BitVec 8)
  header : 9 ≤ bytes.length
  bDescriptorType : bytes.getD 1 0 = descConfiguration
  wTotalLength : (bytes.getD 2 0).toNat + (bytes.getD 3 0).toNat * 2 ^ 8 = bytes.length

namespace CfigDesc

/-- The byte at an offset. -/
def read (cfg : CfigDesc) (desc : ℕ) : C (BitVec 8) :=
  match cfg.bytes[desc]? with
  | some b => .ok b
  | none => .error (.wild "configuration")

/-- `cfig_desc->wTotalLength`. -/
def total (cfg : CfigDesc) : ℕ := (cfg.bytes.getD 2 0).toNat + (cfg.bytes.getD 3 0).toNat * 2 ^ 8

/-- `cfig_desc->bNumInterface`. -/
def bNumInterface (cfg : CfigDesc) : ℕ := (cfg.bytes.getD 4 0).toNat

/-- `count` behind a descriptor of the type `ty`. -/
def counted (type ty : BitVec 8) (count : ℤ) : ℤ := if ty = type then count + 1 else count

/-- The loop of the two functions, which look for the descriptor `number` of one type. -/
def descLoop (cfg : CfigDesc) (type : BitVec 8) (number : ℤ) : ℕ → ℕ → ℤ → C (Option ℕ)
  | 0, _, _ => throw .loop
  | fuel + 1, desc, count =>
    if desc < cfg.total then do
      let bDescriptorType ← cfg.read (desc + 1)
      if bDescriptorType = type ∧ counted type bDescriptorType count = number then return some desc
      let bLength ← cfg.read desc
      descLoop cfg type number fuel (desc + bLength.toNat) (counted type bDescriptorType count)
    else return none

def getInterfaceDesc (cfg : CfigDesc) (interface_number : ℤ) (fuel : ℕ) : C (Option ℕ) := do
  let bDescriptorType ← cfg.read 1
  cassert (bDescriptorType = descConfiguration) "cfig_desc->bDescriptorType == DESC_CONFIGURATION"
  cassert (interface_number ≤ cfg.bNumInterface) "cfig_desc->bNumInterface >= interface_number"
  cassert (0 < interface_number) "interface_number > 0"
  descLoop cfg descInterface interface_number fuel 0 0

def getEndpointDesc (cfg : CfigDesc) (interface : ℕ) (ep_number : ℤ) (fuel : ℕ) : C (Option ℕ) := do
  let bDescriptorType ← cfg.read (interface + 1)
  cassert (bDescriptorType = descInterface) "interface_desc->bDescriptorType == DESC_INTERFACE"
  let bNumEndpoints ← cfg.read (interface + 4)
  cassert (ep_number ≤ bNumEndpoints.toNat) "interface_desc->bNumEndpoints >= ep_number"
  cassert (0 < ep_number) "ep_number > 0"
  descLoop cfg descEndpoint ep_number fuel interface 0

/-! ## Walks over any bytes -/

variable {cfg : CfigDesc} {type b ty len : BitVec 8} {number count : ℤ} {desc start fuel : ℕ}
  {r : Option ℕ}

theorem total_eq (cfg : CfigDesc) : cfg.total = cfg.bytes.length := cfg.wTotalLength

theorem read_eq_ok : cfg.read desc = .ok b ↔ cfg.bytes[desc]? = some b := by
  unfold read
  cases cfg.bytes[desc]? <;> simp

/-- The offsets and counts that the loop comes to. -/
inductive Visited (cfg : CfigDesc) (type : BitVec 8) (number : ℤ) (start : ℕ) : ℕ → ℤ → Prop where
  | start : Visited cfg type number start start 0
  | next {desc : ℕ} {count : ℤ} {ty len : BitVec 8} : Visited cfg type number start desc count →
      cfg.bytes[desc + 1]? = some ty → cfg.bytes[desc]? = some len →
      ¬ (ty = type ∧ counted type ty count = number) →
      Visited cfg type number start (desc + len.toNat) (counted type ty count)

/-- **What the loop must find**: where it comes to inside of the buffer, there are two bytes, and the
    length is not 0 but for a descriptor of the type. -/
def Passable (cfg : CfigDesc) (type : BitVec 8) (number : ℤ) (start : ℕ) : Prop :=
  ∀ desc count, Visited cfg type number start desc count → desc < cfg.bytes.length →
    desc + 1 < cfg.bytes.length ∧ (cfg.bytes[desc]? = some 0 → cfg.bytes[desc + 1]? = some type)

/-- The loop inside of the buffer. -/
theorem descLoop_inside (hty : cfg.bytes[desc + 1]? = some ty) (hlen : cfg.bytes[desc]? = some len) :
    cfg.descLoop type number (fuel + 1) desc count =
      if ty = type ∧ counted type ty count = number then .ok (some desc)
      else cfg.descLoop type number fuel (desc + len.toNat) (counted type ty count) := by
  have hin : desc < cfg.total := by
    rw [total_eq]
    exact (List.getElem?_eq_some_iff.1 hlen).1
  rw [descLoop, if_pos hin, read_eq_ok.2 hty, ok_bind, read_eq_ok.2 hlen]
  rfl

theorem descLoop_behind (h : cfg.bytes.length ≤ desc) :
    cfg.descLoop type number (fuel + 1) desc count = .ok none := by
  rw [descLoop, if_neg (by rw [total_eq]; omega)]
  rfl

/-- A header that is cut off. -/
theorem descLoop_cut (hin : desc < cfg.bytes.length) (hcut : cfg.bytes.length ≤ desc + 1) :
    cfg.descLoop type number (fuel + 1) desc count = .error (.wild "configuration") := by
  rw [descLoop, if_pos (by rwa [total_eq]), read, List.getElem?_eq_none hcut]
  rfl

/-- A loop that returns has read the header it is at. -/
theorem descLoop_reads (h : cfg.descLoop type number fuel desc count = .ok r)
    (hin : desc < cfg.bytes.length) : desc + 1 < cfg.bytes.length := by
  by_contra hcut
  cases fuel with
  | zero => cases h
  | succ fuel =>
    rw [descLoop_cut hin (not_lt.1 hcut)] at h
    cases h

/-- **A descriptor of length 0** is never left, unless it is of the type. -/
theorem descLoop_stuck (hty : cfg.bytes[desc + 1]? = some ty) (hlen : cfg.bytes[desc]? = some 0)
    (hne : ty ≠ type) (fuel : ℕ) : cfg.descLoop type number fuel desc count = .error .loop := by
  induction fuel with
  | zero => rfl
  | succ fuel ih =>
    rw [descLoop_inside hty hlen, if_neg (fun h => hne h.1), counted, if_neg hne]
    exact ih

/-- The loop returns from where it has come to. -/
theorem Visited.returns (hv : Visited cfg type number start desc count)
    (h : ∃ fuel, cfg.descLoop type number fuel start 0 = .ok r) :
    ∃ fuel, cfg.descLoop type number fuel desc count = .ok r := by
  induction hv with
  | start => exact h
  | next _ hty hlen hgo ih =>
    obtain ⟨fuel, hf⟩ := ih
    cases fuel with
    | zero => cases hf
    | succ fuel =>
      rw [descLoop_inside hty hlen, if_neg hgo] at hf
      exact ⟨fuel, hf⟩

theorem Visited.count_lt (hv : Visited cfg type number start desc count) (hnum : 0 < number) :
    count < number := by
  induction hv with
  | start => exact hnum
  | @next desc count ty len _ _ _ hgo ih =>
    unfold counted at hgo ⊢
    by_cases h : ty = type
    · rw [if_pos h] at hgo ⊢
      have hne : count + 1 ≠ number := fun he => hgo ⟨h, he⟩
      omega
    · rwa [if_neg h]

/-- **A passable walk** ends: with each turn it comes nearer to the end of the buffer, or to the
    number. -/
theorem Passable.returns (hP : cfg.Passable type number start) (hnum : 0 < number)
    (hv : Visited cfg type number start desc count) :
    ∃ r, Returns (fun fuel => cfg.descLoop type number fuel desc count) r ∧
      ∀ d ∈ r, d + 2 ≤ cfg.bytes.length := by
  induction hk : cfg.bytes.length - desc + (number - count).toNat using Nat.strong_induction_on
    generalizing desc count with
  | _ k ih =>
    by_cases hin : desc < cfg.bytes.length
    · obtain ⟨hnext, hzero⟩ := hP desc count hv hin
      obtain ⟨ty, hty⟩ : ∃ ty, cfg.bytes[desc + 1]? = some ty := ⟨_, List.getElem?_eq_getElem hnext⟩
      obtain ⟨len, hlen⟩ : ∃ len, cfg.bytes[desc]? = some len := ⟨_, List.getElem?_eq_getElem hin⟩
      have hcount := hv.count_lt hnum
      by_cases hfound : ty = type ∧ counted type ty count = number
      · refine ⟨some desc, (Returns.const rfl).turn rfl fun fuel => ?_, ?_⟩
        · rw [descLoop_inside hty hlen, if_pos hfound]
        · rintro d ⟨rfl⟩
          omega
      · have hless : cfg.bytes.length - (desc + len.toNat) + (number - counted type ty count).toNat < k := by
          unfold counted
          by_cases h0 : len = 0
          · have htype : ty = type := Option.some.inj (hty.symm.trans (hzero (h0 ▸ hlen)))
            rw [if_pos htype]
            omega
          · have hpos : 0 < len.toNat := by
              rw [Nat.pos_iff_ne_zero]
              exact fun h => h0 (BitVec.eq_of_toNat_eq h)
            split_ifs <;> omega
        obtain ⟨r, hr, hr'⟩ := ih _ hless (hv.next hty hlen hfound) rfl
        refine ⟨r, hr.turn rfl fun fuel => ?_, hr'⟩
        rw [descLoop_inside hty hlen, if_neg hfound]
    · refine ⟨none, (Returns.const rfl).turn rfl fun fuel => descLoop_behind (not_lt.1 hin), ?_⟩
      rintro d ⟨⟩

/-- **The loop ends and stays in the buffer** just when what it visits is passable. -/
theorem descLoop_returns_iff (hnum : 0 < number) :
    (∃ r, Returns (fun fuel => cfg.descLoop type number fuel start 0) r ∧
      ∀ d ∈ r, d + 2 ≤ cfg.bytes.length) ↔ cfg.Passable type number start := by
  constructor
  · rintro ⟨r, hr, -⟩ desc count hv hin
    obtain ⟨b, hb⟩ := hr.enough
    obtain ⟨fuel, hf⟩ := hv.returns ⟨b, hb b le_rfl⟩
    have hnext := descLoop_reads hf hin
    refine ⟨hnext, fun hlen => ?_⟩
    have hty := List.getElem?_eq_getElem hnext
    by_contra hne
    rw [descLoop_stuck hty hlen (fun h => hne (hty.trans (congrArg some h)))] at hf
    cases hf
  · intro hP
    exact hP.returns hnum .start

theorem getInterfaceDesc_eq (hnum : 0 < number) (hle : number ≤ cfg.bNumInterface) :
    cfg.getInterfaceDesc number = fun fuel => cfg.descLoop descInterface number fuel 0 0 := by
  have hlen := cfg.header
  have hread : cfg.read 1 = .ok descConfiguration := by
    rw [read_eq_ok, ← cfg.bDescriptorType, List.getD_eq_getElem?_getD, List.getElem?_eq_getElem (by omega)]
    rfl
  funext fuel
  rw [getInterfaceDesc, hread, ok_bind, cassert_pos rfl, ok_bind, cassert_pos hle, ok_bind,
    cassert_pos hnum, ok_bind]

theorem getEndpointDesc_eq {eps : BitVec 8} (hty : cfg.bytes[start + 1]? = some descInterface)
    (heps : cfg.bytes[start + 4]? = some eps) (hnum : 0 < number) (hle : number ≤ eps.toNat) :
    cfg.getEndpointDesc start number = fun fuel => cfg.descLoop descEndpoint number fuel start 0 := by
  funext fuel
  rw [getEndpointDesc, read_eq_ok.2 hty, ok_bind, cassert_pos rfl, ok_bind, read_eq_ok.2 heps, ok_bind,
    cassert_pos hle, ok_bind, cassert_pos hnum, ok_bind]

/-- `get_endpoint_desc` reads the number of endpoints of the interface. -/
theorem getEndpointDesc_reads (h : cfg.getEndpointDesc start number fuel = .ok r) :
    start + 4 < cfg.bytes.length := by
  obtain ⟨ty, -, h⟩ := bind_eq_ok.1 h
  obtain ⟨-, h⟩ := cassert_bind_eq_ok.1 h
  obtain ⟨eps, heps, -⟩ := bind_eq_ok.1 h
  exact (List.getElem?_eq_some_iff.1 (read_eq_ok.1 heps)).1

/-- **The walks end, stay in the buffer and return a descriptor that lies in it** just when, as far as
    they go, no descriptor of another type has length 0 and none begins with the last byte. -/
theorem desc_walks_end_iff (cfg : CfigDesc) :
    (∀ number, 0 < number → number ≤ (cfg.bNumInterface : ℤ) →
      ((∃ r, Returns (cfg.getInterfaceDesc number) r ∧ ∀ d ∈ r, d + 2 ≤ cfg.bytes.length) ↔
        cfg.Passable descInterface number 0)) ∧
    ∀ interface, cfg.bytes[interface + 1]? = some descInterface → ∀ number, 0 < number →
      (∀ eps, cfg.bytes[interface + 4]? = some eps → number ≤ (eps.toNat : ℤ)) →
      ((∃ r, Returns (cfg.getEndpointDesc interface number) r ∧ ∀ d ∈ r, d + 2 ≤ cfg.bytes.length) ↔
        interface + 4 < cfg.bytes.length ∧ cfg.Passable descEndpoint number interface) := by
  constructor
  · intro number hnum hle
    rw [getInterfaceDesc_eq hnum hle]
    exact descLoop_returns_iff hnum
  · intro interface hty number hnum hle
    by_cases hin : interface + 4 < cfg.bytes.length
    · have heps := List.getElem?_eq_getElem hin
      rw [getEndpointDesc_eq hty heps hnum (hle _ heps), descLoop_returns_iff hnum]
      exact (and_iff_right hin).symm
    · refine iff_of_false ?_ fun h => hin h.1
      rintro ⟨r, hr, -⟩
      obtain ⟨b, hb⟩ := hr.enough
      exact hin (getEndpointDesc_reads (hb b le_rfl))

/-- One interface and its endpoint. -/
def mouse : CfigDesc where
  bytes := [9, 2, 25, 0, 1, 1, 0, 0, 0, 9, 4, 0, 0, 1, 3, 1, 2, 0, 7, 5, 0x81, 3, 4, 0, 10]
  header := by decide
  bDescriptorType := rfl
  wTotalLength := rfl

/-- The walk to the interface comes to the header and to the interface. -/
theorem mouse_interface : mouse.Passable descInterface 1 0 := by
  intro desc count hv
  have hplace : desc = 0 ∧ count = 0 ∨ desc = 9 ∧ count = 0 := by
    induction hv with
    | start => exact Or.inl ⟨rfl, rfl⟩
    | next _ hty hlen hgo ih =>
      rcases ih with ⟨rfl, rfl⟩ | ⟨rfl, rfl⟩
      · cases hty
        cases hlen
        exact Or.inr ⟨rfl, rfl⟩
      · cases hty
        exact absurd ⟨rfl, rfl⟩ hgo
  rcases hplace with ⟨rfl, -⟩ | ⟨rfl, -⟩ <;> decide

/-- The walk to the endpoint comes to the interface and to the endpoint behind it. -/
theorem mouse_endpoint : mouse.Passable descEndpoint 1 9 := by
  intro desc count hv
  have hplace : desc = 9 ∧ count = 0 ∨ desc = 18 ∧ count = 0 := by
    induction hv with
    | start => exact Or.inl ⟨rfl, rfl⟩
    | next _ hty hlen hgo ih =>
      rcases ih with ⟨rfl, rfl⟩ | ⟨rfl, rfl⟩
      · cases hty
        cases hlen
        exact Or.inr ⟨rfl, rfl⟩
      · cases hty
        exact absurd ⟨rfl, rfl⟩ hgo
  rcases hplace with ⟨rfl, -⟩ | ⟨rfl, -⟩ <;> decide

theorem desc_walks_end_mouse :
    (∃ r, Returns (mouse.getInterfaceDesc 1) r ∧ ∀ d ∈ r, d + 2 ≤ 25) ∧
    ∃ r, Returns (mouse.getEndpointDesc 9 1) r ∧ ∀ d ∈ r, d + 2 ≤ 25 :=
  ⟨((desc_walks_end_iff mouse).1 1 (by decide) (by decide)).2 mouse_interface,
    ((desc_walks_end_iff mouse).2 9 rfl 1 (by decide) (by rintro eps ⟨rfl⟩; decide)).2
      ⟨by decide, mouse_endpoint⟩⟩

/-- A descriptor of length 0 behind the header. -/
def zeroLength : CfigDesc where
  bytes := [9, 2, 11, 0, 1, 1, 0, 0, 0, 0, 0x21]
  header := by decide
  bDescriptorType := rfl
  wTotalLength := rfl

/-- A descriptor that is cut off behind its first byte. -/
def cutOff : CfigDesc where
  bytes := [9, 2, 10, 0, 1, 1, 0, 0, 0, 9]
  header := by decide
  bDescriptorType := rfl
  wTotalLength := rfl

/-- **A descriptor of length 0 keeps the walk for ever**, and behind a single last byte it leaves the
    buffer. -/
theorem desc_walks_astray : (¬ ∃ r, Returns (zeroLength.getInterfaceDesc 1) r) ∧
    ∀ fuel, cutOff.getInterfaceDesc 1 (fuel + 2) = .error (.wild "configuration") := by
  constructor
  · rintro ⟨r, hr⟩
    obtain ⟨b, hb⟩ := hr.enough
    have hrun := hb (b + 1) (Nat.le_succ b)
    have hty : zeroLength.bytes[0 + 1]? = some descConfiguration := rfl
    have hlen : zeroLength.bytes[0]? = some 9 := rfl
    have hty' : zeroLength.bytes[9 + 1]? = some 0x21 := rfl
    rw [getInterfaceDesc_eq (by decide) (by decide)] at hrun
    beta_reduce at hrun
    rw [descLoop_inside hty hlen, if_neg (by decide)] at hrun
    exact absurd ((descLoop_stuck hty' rfl (by decide) b).symm.trans hrun) nofun
  · intro fuel
    have hty : cutOff.bytes[0 + 1]? = some descConfiguration := rfl
    have hlen : cutOff.bytes[0]? = some 9 := rfl
    rw [getInterfaceDesc_eq (by decide) (by decide)]
    beta_reduce
    rw [descLoop_inside hty hlen, if_neg (by decide)]
    exact descLoop_cut (by decide) (by decide)

end CfigDesc

end Rdix
