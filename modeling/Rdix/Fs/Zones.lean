/-
  Zone allocation over whole runs (fs/minix1/bmap.c: balloc, bfree).

  A run is any order of `balloc` and of `bfree` of zones that `balloc` returned.
  `bfree` recomputes the bitmap block from the zone number alone, while `balloc` counts
  from `firstdatazone - 1`: a release works exactly if both name the same block.
-/
import Rdix.Lib.Run
import Rdix.Fs.Alloc

namespace Rdix

open Transition

/-- A superblock whose zone bitmap is well formed: bit 0 and the bits past the last zone are
    used. -/
structure Super.ZmapOk (sb : Super) : Prop where
  nr : sb.zmap_blocks ≤ 8
  first_pos : 1 ≤ sb.firstdatazone
  first_u16 : sb.firstdatazone < 2 ^ 16
  zones_u16 : sb.zones < 2 ^ 16
  bit_zero : mapBit sb.zmaps 0 = true
  past_last : ∀ p < blockBits * sb.zmap_blocks, sb.zones ≤ sb.firstdatazone - 1 + p →
    mapBit sb.zmaps p = true

/-- The position of a zone's bit. -/
def Super.zonePos (sb : Super) (z : ℕ) : ℕ := z - (sb.firstdatazone - 1)

/-- The bit of zone `z`. -/
def Super.zoneUsed (sb : Super) (z : ℕ) : Bool := mapBit sb.zmaps (sb.zonePos z)

/-- The superblock with the bit of zone `z` set to `s`. -/
def Super.putZone (sb : Super) (z : ℕ) (s : Bool) : Super :=
  { sb with zmaps := mapPut sb.zmaps (sb.zonePos z) s }

/-- The bitmap block that `bfree` looks at is the one that holds the bit of zone `z`. -/
def Super.SameBlock (sb : Super) (z : ℕ) : Prop := z / blockBits = sb.zonePos z / blockBits

instance (sb : Super) (z : ℕ) : Decidable (sb.SameBlock z) := inferInstanceAs (Decidable (_ = _))

/-- A superblock and the zones handed out and not yet released. -/
structure ZState where
  sb : Super
  live : List ℕ

inductive ZOp where
  | balloc
  | bfree (z : ℕ)

/-- The runs of `balloc` and `bfree` from the superblock `sb₀`. -/
def zoneSys (sb₀ : Super) : Sys ZState ZOp where
  init s := s = ⟨sb₀, []⟩
  step s op t := match op with
    | .balloc => ∃ sb z, balloc s.sb = .ok (sb, z) ∧ t = ⟨sb, z :: s.live⟩
    | .bfree z => z ∈ s.live ∧ ∃ sb, bfree s.sb z = .ok sb ∧ t = ⟨sb, s.live.erase z⟩

/-! ## One call -/

section Call
variable {sb : Super} (h : sb.ZmapOk)
include h

theorem Super.ZmapOk.numbered :
    Numbered sb.zoneOffset (sb.firstdatazone - 1) 0 sb.zmaps.length := fun k hk => by
  have h1 := h.nr
  have h2 := h.first_pos
  have h3 := h.first_u16
  simp only [Super.zmap_blocks] at h1
  unfold Super.zoneOffset u32
  simp only [blockBits, blockSize, Nat.zero_add]
  omega

theorem Super.ZmapOk.bound :
    sb.firstdatazone - 1 + blockBits * sb.zmaps.length < 2 ^ 31 := by
  have h1 := h.nr
  have h2 := h.first_u16
  simp only [Super.zmap_blocks] at h1
  simp only [blockBits, blockSize]
  omega

/-- **`balloc` takes a clear zone below `zones` and sets exactly its bit**, if there is one. -/
theorem balloc_spec :
    (∃ z, sb.firstdatazone ≤ z ∧ z < sb.zones ∧ sb.zonePos z < blockBits * sb.zmaps.length ∧
      sb.zoneUsed z = false ∧ balloc sb = .ok (sb.putZone z true, z)) ∨
    ((∀ z, sb.zoneUsed z = true) ∧ balloc sb = .error (.assert "block_nr != EOF")) := by
  have hlim : ∀ p < blockBits * sb.zmaps.length, mapBit sb.zmaps p = false →
      sb.firstdatazone - 1 + p < sb.zones := by
    intro p hp hb
    by_contra hge
    rw [h.past_last p hp (by omega)] at hb
    cases hb
  rcases @mapAlloc_spec _ _ "block_nr < sb->desc->zones" sb.zmaps _ 0 h.numbered h.bound hlim
    with ⟨p, hp, hb, -, he⟩ | ⟨hall, he⟩
  · have hp0 : p ≠ 0 := by
      rintro rfl
      rw [h.bit_zero] at hb
      cases hb
    have hpos : sb.zonePos (sb.firstdatazone - 1 + p) = p := Nat.add_sub_cancel_left _ _
    refine Or.inl ⟨sb.firstdatazone - 1 + p, by omega, hlim p hp hb, by rw [hpos]; exact hp, ?_, ?_⟩
    · rw [Super.zoneUsed, hpos, hb]
    · simp only [balloc, he, ok_bind, Super.putZone, hpos, pure_eq_ok]
  · refine Or.inr ⟨fun z => ?_, by simp only [balloc, he, ok_bind]⟩
    rcases Nat.lt_or_ge (sb.zonePos z) (blockBits * sb.zmaps.length) with hz | hz
    · exact hall _ hz
    · have : sb.zmaps[sb.zonePos z / blockBits]? = none :=
        List.getElem?_eq_none ((Nat.le_div_iff_mul_le (by decide)).2 (by rwa [Nat.mul_comm]))
      simp only [Super.zoneUsed, mapBit, this]

/-- A release that looks at a later block fails its assertion. -/
theorem bfree_split {z : ℕ} (hfirst : sb.firstdatazone ≤ z) (hz : z < sb.zones)
    (hlen : z / blockBits < sb.zmaps.length) (hs : ¬ sb.SameBlock z) :
    bfree sb z = .error (.assert "idx >= map->offset") := by
  have hle : sb.firstdatazone - 1 ≤ z := by omega
  unfold bfree
  rw [mapFree_split h.numbered hz hle hlen hs]
  rfl

/-- A release that looks at another block than that of the zone's bit does not return. -/
theorem bfree_error {z : ℕ} (hfirst : sb.firstdatazone ≤ z) (hz : z < sb.zones)
    (hs : ¬ sb.SameBlock z) : ∃ e, bfree sb z = .error e := by
  by_cases hlen : z / blockBits < sb.zmaps.length
  · exact ⟨_, bfree_split h hfirst hz hlen hs⟩
  · -- the block lies behind the bitmap: its pointer is null
    have hnone : sb.zmaps[z / blockBits]? = none := List.getElem?_eq_none (by omega)
    refine ⟨.null "buf", ?_⟩
    unfold bfree mapFree
    rw [cassert_pos hz]
    simp [hnone]

/-- **A release of a used zone works exactly if the zone's bit lies in the block it looks at.** -/
theorem bfree_iff {z : ℕ} (hfirst : sb.firstdatazone ≤ z) (hz : z < sb.zones)
    (hin : sb.zonePos z < blockBits * sb.zmaps.length) (hused : sb.zoneUsed z = true) :
    bfree sb z = .ok (sb.putZone z false) ↔ sb.SameBlock z := by
  constructor
  · intro he
    by_contra hs
    obtain ⟨e, he'⟩ := bfree_error h hfirst hz hs
    rw [he'] at he
    cases he
  · intro hs
    unfold bfree
    rw [mapFree_same h.numbered h.bound hz (by omega) hin hs hused]
    rfl

theorem Super.ZmapOk.putZone {z : ℕ} {s : Bool} (hfirst : sb.firstdatazone ≤ z)
    (hz : z < sb.zones) (hin : sb.zonePos z < blockBits * sb.zmaps.length) :
    (sb.putZone z s).ZmapOk where
  nr := by simpa [Super.putZone, Super.zmap_blocks] using h.nr
  first_pos := h.first_pos
  first_u16 := h.first_u16
  zones_u16 := h.zones_u16
  bit_zero := by
    have h1 := h.first_pos
    have h2 : (0 : ℕ) ≠ sb.zonePos z := by unfold Super.zonePos; omega
    simp only [Super.putZone, mapBit_put hin, if_neg h2, h.bit_zero]
  past_last p hp hge := by
    have hp' : p < blockBits * sb.zmap_blocks := by
      simpa [Super.putZone, Super.zmap_blocks] using hp
    have h2 : p ≠ sb.zonePos z := by
      rintro rfl
      have : sb.zones ≤ sb.firstdatazone - 1 + (z - (sb.firstdatazone - 1)) := hge
      omega
    simp only [Super.putZone, mapBit_put hin, if_neg h2]
    exact h.past_last p hp' hge

end Call

/-! ## Runs -/

/-- What holds in every state of a run: each zone handed out is a distinct zone of the bitmap
    whose bit is set. -/
structure ZInv (sb₀ : Super) (s : ZState) : Prop where
  ok : s.sb.ZmapOk
  first : s.sb.firstdatazone = sb₀.firstdatazone
  zones : s.sb.zones = sb₀.zones
  nodup : s.live.Nodup
  live : ∀ z ∈ s.live, s.sb.firstdatazone ≤ z ∧ z < s.sb.zones ∧
    s.sb.zonePos z < blockBits * s.sb.zmaps.length ∧ s.sb.zoneUsed z = true

section Step
variable {sb₀ : Super} {s t : ZState}

theorem zonePos_inj {sb : Super} {z z' : ℕ} (h : sb.firstdatazone ≤ z) (h' : sb.firstdatazone ≤ z')
    (he : sb.zonePos z = sb.zonePos z') : z = z' := by
  unfold Super.zonePos at he
  omega

theorem zoneUsed_putZone {sb : Super} {z : ℕ} (hin : sb.zonePos z < blockBits * sb.zmaps.length)
    (b : Bool) (z' : ℕ) : (sb.putZone z b).zoneUsed z' =
      if sb.zonePos z' = sb.zonePos z then b else sb.zoneUsed z' :=
  mapBit_put hin b _

/-- What a step of a run can do. -/
theorem zoneSys_step {op : ZOp} (hI : ZInv sb₀ s) (h : (zoneSys sb₀).step s op t) :
    (∃ z, s.sb.firstdatazone ≤ z ∧ z < s.sb.zones ∧
      s.sb.zonePos z < blockBits * s.sb.zmaps.length ∧ s.sb.zoneUsed z = false ∧
      t = ⟨s.sb.putZone z true, z :: s.live⟩) ∨
    (∃ z ∈ s.live, t = ⟨s.sb.putZone z false, s.live.erase z⟩) := by
  cases op with
  | balloc =>
    obtain ⟨sb, z, he, rfl⟩ := h
    rcases balloc_spec hI.ok with ⟨z', h1, h2, h3, h4, he'⟩ | ⟨-, he'⟩
    · rw [he'] at he; cases he
      exact Or.inl ⟨z, h1, h2, h3, h4, rfl⟩
    · rw [he'] at he; cases he
  | bfree z =>
    obtain ⟨hz, sb, he, rfl⟩ := h
    obtain ⟨h1, h2, h3, h4⟩ := hI.live z hz
    refine Or.inr ⟨z, hz, ?_⟩
    -- a release that returns did what the condition for it says
    by_cases hs : s.sb.SameBlock z
    · rw [(bfree_iff hI.ok h1 h2 h3 h4).2 hs] at he; cases he; rfl
    · obtain ⟨e, he'⟩ := bfree_error hI.ok h1 h2 hs
      rw [he'] at he
      cases he

theorem ZInv.step {op : ZOp} (hI : ZInv sb₀ s) (h : (zoneSys sb₀).step s op t) : ZInv sb₀ t := by
  rcases zoneSys_step hI h with ⟨z, h1, h2, h3, h4, rfl⟩ | ⟨z, hz, rfl⟩
  · refine ⟨hI.ok.putZone h1 h2 h3, hI.first, hI.zones, ?_, fun z' hz' => ?_⟩
    · refine List.nodup_cons.2 ⟨fun hz => ?_, hI.nodup⟩
      rw [(hI.live z hz).2.2.2] at h4; cases h4
    · have hlen : (s.sb.putZone z true).zmaps.length = s.sb.zmaps.length := mapPut_length ..
      rw [zoneUsed_putZone h3]
      rcases List.mem_cons.1 hz' with rfl | hz'
      · exact ⟨h1, h2, by rw [hlen]; exact h3, by simp⟩
      · obtain ⟨g1, g2, g3, g4⟩ := hI.live z' hz'
        exact ⟨g1, g2, by rw [hlen]; exact g3, by split <;> simp [g4]⟩
  · obtain ⟨h1, h2, h3, h4⟩ := hI.live z hz
    refine ⟨hI.ok.putZone h1 h2 h3, hI.first, hI.zones, hI.nodup.erase z, fun z' hz' => ?_⟩
    have hlen : (s.sb.putZone z false).zmaps.length = s.sb.zmaps.length := mapPut_length ..
    obtain ⟨hne, hz'⟩ := (hI.nodup.mem_erase_iff).1 hz'
    obtain ⟨g1, g2, g3, g4⟩ := hI.live z' hz'
    refine ⟨g1, g2, by rw [hlen]; exact g3, ?_⟩
    rw [zoneUsed_putZone h3, if_neg fun he => hne (zonePos_inj g1 h1 he), g4]

theorem ZInv.reach (h₀ : sb₀.ZmapOk) (h : (zoneSys sb₀).Reach s) : ZInv sb₀ s := by
  refine h.invariant (fun s hs => ?_) fun _ _ _ hI hst => hI.step hst
  obtain rfl : s = ⟨sb₀, []⟩ := hs
  exact ⟨h₀, rfl, rfl, List.nodup_nil, by simp⟩

end Step

/-- Zone allocation in a state of a run, with the condition under which a release is the inverse of
    the allocation. -/
structure ZonesExact (s : ZState) : Prop where
  alloc : ∀ sb z, balloc s.sb = .ok (sb, z) → s.sb.firstdatazone ≤ z ∧ z < s.sb.zones ∧
    s.sb.zoneUsed z = false ∧ sb = s.sb.putZone z true
  avail : ∀ z, s.sb.zoneUsed z = false → ∃ r, balloc s.sb = .ok r
  nodup : s.live.Nodup
  free_iff : ∀ z ∈ s.live, bfree s.sb z = .ok (s.sb.putZone z false) ↔ s.sb.SameBlock z
  restore_iff : ∀ sb z, balloc s.sb = .ok (sb, z) →
    ((∃ sb', bfree sb z = .ok sb' ∧ mapData sb'.zmaps = mapData s.sb.zmaps) ↔ s.sb.SameBlock z)

/-- **In every run, allocation is exact, live zones are distinct, and a release clears exactly the
    bit of its zone if and only if it looks at the block of that bit.** -/
theorem zones_exact {sb₀ : Super} (h₀ : sb₀.ZmapOk) {s : ZState} (h : (zoneSys sb₀).Reach s) :
    ZonesExact s := by
  have hI := ZInv.reach h₀ h
  have halloc : ∀ sb z, balloc s.sb = .ok (sb, z) → s.sb.firstdatazone ≤ z ∧ z < s.sb.zones ∧
      s.sb.zonePos z < blockBits * s.sb.zmaps.length ∧ s.sb.zoneUsed z = false ∧
      sb = s.sb.putZone z true := by
    intro sb z he
    rcases balloc_spec hI.ok with ⟨z', h1, h2, h3, h4, he'⟩ | ⟨-, he'⟩
    · rw [he'] at he; cases he
      exact ⟨h1, h2, h3, h4, rfl⟩
    · rw [he'] at he; cases he
  refine ⟨fun sb z he => ?_, fun z hz => ?_, hI.nodup, fun z hz => ?_, fun sb z he => ?_⟩
  · obtain ⟨h1, h2, -, h4, h5⟩ := halloc sb z he
    exact ⟨h1, h2, h4, h5⟩
  · rcases balloc_spec hI.ok with ⟨z', -, -, -, -, he'⟩ | ⟨hall, -⟩
    · exact ⟨_, he'⟩
    · rw [hall z] at hz; cases hz
  · obtain ⟨h1, h2, h3, h4⟩ := hI.live z hz
    exact bfree_iff hI.ok h1 h2 h3 h4
  · obtain ⟨h1, h2, h3, h4, rfl⟩ := halloc sb z he
    have hok := hI.ok.putZone (s := true) h1 h2 h3
    have hin : (s.sb.putZone z true).zonePos z <
        blockBits * (s.sb.putZone z true).zmaps.length := by
      rw [show (s.sb.putZone z true).zmaps.length = s.sb.zmaps.length from mapPut_length ..]
      exact h3
    have hused : (s.sb.putZone z true).zoneUsed z = true := by
      rw [zoneUsed_putZone h3]; simp
    have hiff := bfree_iff hok (z := z) h1 h2 hin hused
    constructor
    · rintro ⟨sb', he', -⟩
      by_contra hs
      obtain ⟨e, he''⟩ := bfree_error hok h1 h2 hs
      rw [he''] at he'
      cases he'
    · intro hs
      exact ⟨_, hiff.2 hs, mapData_put_put h4⟩

/-- A file system of ten blocks with the zones 3 to 9, all free. -/
def freshSb : Super :=
  ⟨32, 10, 3, [], [⟨fun i => if i = 0 then 1#8 else 255#8, false⟩]⟩

theorem freshSb_ok : freshSb.ZmapOk where
  nr := by decide
  first_pos := by decide
  first_u16 := by decide
  zones_u16 := by decide
  bit_zero := by decide
  past_last p hp hge := by
    have hp' : p / 8192 = 0 ∧ p % 8192 = p := by
      simp only [blockBits, blockSize, Super.zmap_blocks, freshSb, List.length_singleton] at hp
      omega
    have h8 : p / 8 ≠ 0 := by
      simp only [freshSb] at hge
      omega
    have hj : p % 8 < 8 := Nat.mod_lt _ (by decide)
    simp only [mapBit, blockBits, blockSize, freshSb, hp', List.getElem?_cons_zero, Buf.map,
      Bitmap.bit, if_neg h8]
    interval_cases p % 8 <;> decide

/-- Zones 3 and 4 of a fresh file system are handed out, and 3 comes back. -/
theorem zones_exact_restored : ∃ sb, (zoneSys freshSb).Reach ⟨sb, [4]⟩ ∧ ZonesExact ⟨sb, [4]⟩ := by
  have hrun : (do
      let (sb, z) ← balloc freshSb
      let (sb, z') ← balloc sb
      let _ ← bfree sb z
      return (z, z')) = Except.ok (ε := Halt) (3, 4) := by decide +kernel
  obtain ⟨⟨sb₁, z⟩, h₁, hrun⟩ := bind_eq_ok.1 hrun
  obtain ⟨⟨sb₂, z'⟩, h₂, hrun⟩ := bind_eq_ok.1 hrun
  obtain ⟨sb₃, h₃, hrun⟩ := bind_eq_ok.1 hrun
  cases hrun
  have hs : (zoneSys freshSb).Reach ⟨sb₃, [4]⟩ :=
    .step (a := .bfree 3) (.step (a := .balloc) (.step (a := .balloc) (.init rfl) ⟨_, _, h₁, rfl⟩)
      ⟨_, _, h₂, rfl⟩) ⟨by simp, _, h₃, rfl⟩
  exact ⟨sb₃, hs, zones_exact freshSb_ok hs⟩

/-- Two bitmap blocks in which the only free zone is 8192: the last bit but eight of the first
    block, since `firstdatazone` is 10. -/
def splitSb : Super :=
  ⟨64, 8200, 10, [], [⟨fun i => if i = 1022 then 127#8 else 255#8, false⟩, ⟨fun _ => 255#8, false⟩]⟩

theorem splitSb_bit (p : ℕ) : mapBit splitSb.zmaps p = decide (p ≠ 8183) := by
  have hj : p % 8192 % 8 < 8 := Nat.mod_lt _ (by decide)
  unfold mapBit splitSb
  simp only [blockBits, blockSize]
  rcases Nat.lt_or_ge p 8192 with h | h
  · rw [show p / (1024 * 8) = 0 by omega]
    simp only [List.getElem?_cons_zero, Buf.map, Bitmap.bit]
    by_cases hi : p % 8192 / 8 = 1022
    · simp only [hi, if_true]
      by_cases h3 : p = 8183
      · subst h3; decide
      · have : p % 8192 % 8 ≠ 7 := by omega
        rw [decide_eq_true h3]
        interval_cases p % 8192 % 8 <;> simp_all
    · rw [if_neg hi, decide_eq_true (by omega)]
      interval_cases p % 8192 % 8 <;> decide
  · rw [decide_eq_true (by omega)]
    rcases Nat.lt_or_ge p 16384 with h' | h'
    · rw [show p / (1024 * 8) = 1 by omega]
      simp only [List.getElem?_cons_succ, List.getElem?_cons_zero, Buf.map, Bitmap.bit]
      interval_cases p % 8192 % 8 <;> decide
    · rw [List.getElem?_eq_none (by simp; omega)]

theorem splitSb_ok : splitSb.ZmapOk where
  nr := by decide
  first_pos := by decide
  first_u16 := by decide
  zones_u16 := by decide
  bit_zero := by rw [splitSb_bit]; decide
  past_last p _ hge := by
    rw [splitSb_bit, decide_eq_true_eq]
    simp only [splitSb] at hge
    omega

/-- `balloc` hands out zone 8192 and `bfree` of it fails its assertion. -/
theorem bfree_split_zone : splitSb.ZmapOk ∧ ∃ sb, balloc splitSb = .ok (sb, 8192) ∧
    bfree sb 8192 = .error (.assert "idx >= map->offset") := by
  refine ⟨splitSb_ok, ?_⟩
  rcases balloc_spec splitSb_ok with ⟨z, h1, h2, h3, h4, he⟩ | ⟨hall, -⟩
  · have hz : z = 8192 := by
      have h5 : splitSb.zonePos z = 8183 := by
        simpa [Super.zoneUsed, splitSb_bit] using h4
      simp only [Super.zonePos, splitSb] at h5 h1
      omega
    subst hz
    exact ⟨_, he, bfree_split (splitSb_ok.putZone (s := true) h1 h2 h3) h1 h2 (by decide) (by decide)⟩
  · have := hall 8192
    rw [Super.zoneUsed, splitSb_bit] at this
    exact absurd this (by decide)

end Rdix
