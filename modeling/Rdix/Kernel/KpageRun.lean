/-
  Runs of `alloc_kpage` and `free_kpage` (kernel/memory.c) on the map that `memory_init` sets up.

  * `allocKpage_eq`: a range is the first that is clear, `NULL` means that there is none;
  * `freeKpage_eq`: a range in use is given back, no bit of it makes `free_kpage` panic;
  * `KpageInv`: the bits that are set are those of the reservation and of the live ranges;
  * `kpages_exclusive`: what every reachable state has.
-/
import Rdix.Kernel.FreePages
import Rdix.Kernel.Kpage
import Rdix.Lib.Run

namespace Rdix

open Transition

/-! ## One call -/

/-- The map with the `n` bits from `s` on clear. -/
def Bitmap.clearRun (m : Bitmap) (s : ℕ) : ℕ → Bitmap
  | 0 => m
  | n + 1 => (m.put s false).clearRun (s + 1) n

section Call
variable {m : Bitmap}

@[simp] theorem Bitmap.clearRun_length (s n : ℕ) : (m.clearRun s n).length = m.length := by
  induction n generalizing m s with
  | zero => rfl
  | succ n ih => simp [Bitmap.clearRun, ih]

@[simp] theorem Bitmap.clearRun_offset (s n : ℕ) : (m.clearRun s n).offset = m.offset := by
  induction n generalizing m s with
  | zero => rfl
  | succ n ih => simp [Bitmap.clearRun, ih]

theorem Bitmap.bit_clearRun (s n j : ℕ) :
    (m.clearRun s n).bit j = (m.bit j && !decide (s ≤ j ∧ j < s + n)) := by
  induction n generalizing m s with
  | zero =>
    simp [Bitmap.clearRun]
    omega
  | succ n ih =>
    rw [Bitmap.clearRun, ih, Bitmap.bit_put]
    by_cases h : j = s
    · simp [h]
    · rw [if_neg h]
      congr 2
      exact decide_eq_decide.2 (by omega)

/-- **`alloc_kpage` takes the first clear range**, and returns `NULL` only if there is none. -/
theorem allocKpage_eq (h : m.Fits) {n : ℕ} (hn : 1 ≤ n) :
    (∃ t, m.Clear t n ∧ m.NoneBefore n t ∧
      allocKpage m n = .ok ((m.offset + t) * pageSize, m.putRun t n)) ∨
    ((∀ t, ¬ m.Clear t n) ∧ allocKpage m n = .ok (0, m)) := by
  rcases bitmapScan_spec h hn with ⟨t, hc, hb, he⟩ | ⟨hno, he⟩
  · refine Or.inl ⟨t, hc, hb, ?_⟩
    have hne : ((m.offset + t : ℕ) : ℤ) ≠ EOF :=
      ne_of_gt (lt_of_lt_of_le (by decide : EOF < 0) (Int.natCast_nonneg _))
    simp only [allocKpage, he, ok_bind, if_neg hne, pure_eq_ok, Int.toNat_natCast]
  · exact Or.inr ⟨hno, by simp [allocKpage, he]⟩

theorem freeKpages_eq (n : ℕ) : ∀ {m : Bitmap} {s : ℕ}, m.Fits → s + n ≤ m.length * 8 →
    (∀ i, s ≤ i → i < s + n → m.bit i = true) →
    freeKpages m (m.offset + s) n = .ok (m.clearRun s n) := by
  induction n with
  | zero => intro m s _ _ _; rfl
  | succ n ih =>
    intro m s h hs hb
    have hbs : m.bit s = true := hb s le_rfl (by omega)
    have hne : ¬ (0 : ℤ) = EOF := by decide
    have hrest : ∀ i, s + 1 ≤ i → i < s + 1 + n → (m.put s false).bit i = true := by
      intro i h1 h2
      rw [Bitmap.bit_put, if_neg (by omega)]
      exact hb i (by omega) (by omega)
    simp only [freeKpages, bitmapSet_eq h (show s < m.length * 8 by omega), hbs,
      Bool.true_eq_false, if_false, ok_bind, if_neg hne]
    exact ih (h.put s false) (by simp; omega) hrest

/-- **A range all of whose pages are in use is given back.** -/
theorem freeKpage_eq (h : m.Fits) {s n : ℕ} (hs : s + n ≤ m.length * 8)
    (hb : ∀ i, s ≤ i → i < s + n → m.bit i = true) :
    freeKpage m ((m.offset + s) * pageSize) n = .ok (m.clearRun s n) := by
  rw [freeKpage, Nat.mul_div_cancel _ (by decide)]
  exact freeKpages_eq n h hs hb

end Call

/-! ## The run -/

/-- `KERNEL_AVA_M`. -/
abbrev kernelAvaM : ℕ := 0x800000

/-- What `memory_init` leaves in `v_bit_map`: the first pages hold `p_bit_map`. -/
def vBitMapInit (mem_base p_map_pages : ℕ) : C Bitmap := do
  let length := (kernelAvaM - mem_base) / pageSize / 8
  let (_, map) ← allocKpage (bitmapInit length (mem_base / pageSize)) p_map_pages
  return map

/-- What a call of `alloc_kpage` returned. -/
structure Range where
  vaddr : ℕ
  count : ℕ
deriving DecidableEq

/-- The indices of its pages. -/
def Range.pages (r : Range) : Set ℕ :=
  {idx | r.vaddr / pageSize ≤ idx ∧ idx < r.vaddr / pageSize + r.count}

/-- The pages of a list of ranges. -/
def covered (l : List Range) : Set ℕ := {idx | ∃ r ∈ l, idx ∈ r.pages}

/-- `v_bit_map`, what `memory_init` reserved in it and the live ranges. -/
structure KpageState where
  map : Bitmap
  reserved : Range
  live : List Range

/-- The ranges in use. -/
def KpageState.inUse (s : KpageState) : List Range := s.reserved :: s.live

inductive KpageOp where
  | alloc (count : ℕ)
  | free (r : Range)

inductive KpageStep (s : KpageState) : KpageOp → KpageState → Prop where
  | alloc {n p : ℕ} {m : Bitmap} : 1 ≤ n → allocKpage s.map n = .ok (p, m) →
      KpageStep s (.alloc n) { s with map := m, live := if p = 0 then s.live else ⟨p, n⟩ :: s.live }
  | free {r : Range} {m : Bitmap} : r ∈ s.live → freeKpage s.map r.vaddr r.count = .ok m →
      KpageStep s (.free r) { s with map := m, live := s.live.erase r }

/-- Any calls after `memory_init`, on any machine it accepts. -/
def kpageSys : Sys KpageState KpageOp where
  init s := ∃ data info m, memoryInit data info = .ok m ∧
    vBitMapInit biosMemSize (m.start - biosMemSize / pageSize) = .ok s.map ∧
    s.reserved = ⟨biosMemSize, m.start - biosMemSize / pageSize⟩ ∧ s.live = []
  step := KpageStep

/-! ## The invariant -/

/-- What is set up for page indices of 1M to 8M. -/
structure KpageInv (s : KpageState) : Prop where
  length : s.map.length = 224
  offset : s.map.offset = 256
  place : ∀ r ∈ s.inUse, ∃ t, r.vaddr = (256 + t) * pageSize ∧ t + r.count ≤ 1792
  apart : s.inUse.Pairwise fun r r' => Disjoint r.pages r'.pages
  used : ∀ i < 1792, s.map.bit i = true ↔ 256 + i ∈ covered s.inUse

section Covered
variable {l : List Range} {r : Range} {idx : ℕ}

theorem Range.mem_pages {t : ℕ} (hv : r.vaddr = (256 + t) * pageSize) :
    idx ∈ r.pages ↔ 256 + t ≤ idx ∧ idx < 256 + t + r.count := by
  show r.vaddr / pageSize ≤ idx ∧ idx < r.vaddr / pageSize + r.count ↔ _
  rw [hv, Nat.mul_div_cancel _ (by decide)]

theorem covered_cons : idx ∈ covered (r :: l) ↔ idx ∈ r.pages ∨ idx ∈ covered l := by
  simp [covered]

theorem covered_perm {l' : List Range} (h : l.Perm l') : covered l = covered l' := by
  ext idx
  exact exists_congr fun r => and_congr_left' h.mem_iff

/-- A range apart from all others takes its own pages with it only. -/
theorem mem_covered_of_apart (h : (r :: l).Pairwise fun r r' => Disjoint r.pages r'.pages) :
    idx ∈ covered l ↔ idx ∈ covered (r :: l) ∧ idx ∉ r.pages := by
  rw [covered_cons]
  constructor
  · rintro ⟨r', hr', hi⟩
    refine ⟨Or.inr ⟨r', hr', hi⟩, fun hir => ?_⟩
    exact Set.disjoint_left.1 ((List.pairwise_cons.1 h).1 r' hr') hir hi
  · rintro ⟨hi | hi, hn⟩
    · exact absurd hi hn
    · exact hi

end Covered

namespace KpageInv
variable {s : KpageState}

theorem fits (h : KpageInv s) : s.map.Fits := by
  rw [Bitmap.Fits, h.length, h.offset]
  decide

theorem bits (h : KpageInv s) : s.map.length * 8 = 1792 := by rw [h.length]

/-- A clear run of bits is apart from the ranges in use. -/
theorem apart_of_clear (h : KpageInv s) {t n : ℕ} (hc : s.map.Clear t n) :
    ∀ r ∈ s.inUse, Disjoint (Range.mk ((256 + t) * pageSize) n).pages r.pages := by
  intro r hr
  refine Set.disjoint_left.2 fun idx hi hir => ?_
  obtain ⟨h1, h2⟩ := (Range.mem_pages rfl).1 hi
  dsimp only at h2
  obtain ⟨i, rfl⟩ : ∃ i, idx = 256 + i := ⟨idx - 256, by omega⟩
  have hle := hc.1
  rw [h.bits] at hle
  have hb := hc.2 i (by omega) (by omega)
  rw [(h.used i (by omega)).2 ⟨r, hr, hir⟩] at hb
  cases hb

/-- The bits of a range in use are set. -/
theorem bit_of_mem (h : KpageInv s) {r : Range} (hr : r ∈ s.inUse) {t : ℕ}
    (hv : r.vaddr = (256 + t) * pageSize) (ht : t + r.count ≤ 1792) :
    ∀ i, t ≤ i → i < t + r.count → s.map.bit i = true := by
  intro i h1 h2
  exact (h.used i (by omega)).2 ⟨r, hr, (Range.mem_pages hv).2 ⟨by omega, by omega⟩⟩

/-- A live range is given back. -/
theorem freeKpage_eq (h : KpageInv s) {r : Range} (hr : r ∈ s.live) :
    ∃ t, r.vaddr = (256 + t) * pageSize ∧ t + r.count ≤ 1792 ∧
      freeKpage s.map r.vaddr r.count = .ok (s.map.clearRun t r.count) := by
  have hr' : r ∈ s.inUse := List.mem_cons_of_mem _ hr
  obtain ⟨t, hv, ht⟩ := h.place r hr'
  refine ⟨t, hv, ht, ?_⟩
  have hfree := Rdix.freeKpage_eq h.fits (by rw [h.bits]; exact ht) (h.bit_of_mem hr' hv ht)
  rwa [h.offset, ← hv] at hfree

/-- A new range of clear pages. -/
theorem take (h : KpageInv s) {t n : ℕ} (hc : s.map.Clear t n) :
    KpageInv { s with map := s.map.putRun t n, live := ⟨(256 + t) * pageSize, n⟩ :: s.live } := by
  have hperm : (s.reserved :: ⟨(256 + t) * pageSize, n⟩ :: s.live).Perm
      (⟨(256 + t) * pageSize, n⟩ :: s.inUse) := .swap _ _ _
  have hle := hc.1
  rw [h.bits] at hle
  refine ⟨by simp [h.length], by simp [h.offset], fun r hr => ?_, ?_, fun i hi => ?_⟩
  · rcases List.mem_cons.1 (hperm.mem_iff.1 hr) with rfl | hr
    · exact ⟨t, rfl, hle⟩
    · exact h.place r hr
  · refine (hperm.pairwise_iff fun hd => hd.symm).2 (List.pairwise_cons.2 ⟨?_, h.apart⟩)
    exact h.apart_of_clear hc
  · show (s.map.putRun t n).bit i = true ↔ 256 + i ∈ covered _
    rw [KpageState.inUse, covered_perm hperm, covered_cons, Range.mem_pages rfl, ← h.used i hi,
      Bitmap.bit_putRun]
    simp only [Bool.or_eq_true, decide_eq_true_eq]
    exact or_congr_left (by omega)

/-- A live range less. -/
theorem drop (h : KpageInv s) {r : Range} (hr : r ∈ s.live) {t : ℕ}
    (hv : r.vaddr = (256 + t) * pageSize) :
    KpageInv { s with map := s.map.clearRun t r.count, live := s.live.erase r } := by
  have hperm : s.inUse.Perm (r :: s.reserved :: s.live.erase r) :=
    ((List.perm_cons_erase hr).cons s.reserved).trans (.swap _ _ _)
  have hap := (hperm.pairwise_iff fun hd => hd.symm).1 h.apart
  refine ⟨by simp [h.length], by simp [h.offset], fun r' hr' => ?_, (List.pairwise_cons.1 hap).2,
    fun i hi => ?_⟩
  · exact h.place r' (hperm.mem_iff.2 (List.mem_cons_of_mem _ hr'))
  · show (s.map.clearRun t r.count).bit i = true ↔ 256 + i ∈ covered _
    have hmem : 256 + i ∈ r.pages ↔ t ≤ i ∧ i < t + r.count := by
      rw [Range.mem_pages hv]
      omega
    rw [KpageState.inUse, mem_covered_of_apart hap, ← covered_perm hperm, ← h.used i hi, hmem,
      Bitmap.bit_clearRun, Bool.and_eq_true, Bool.not_eq_true', decide_eq_false_iff_not]

/-- **Every call keeps the invariant.** -/
theorem step {a : KpageOp} {s' : KpageState} (h : KpageInv s) (hs : KpageStep s a s') :
    KpageInv s' := by
  cases hs with
  | @alloc n p m hn he =>
    rcases allocKpage_eq h.fits hn with ⟨t, hc, -, ht⟩ | ⟨-, h0⟩
    · rw [ht, h.offset] at he
      cases he
      rw [if_neg (by simp only [pageSize]; omega)]
      exact h.take hc
    · rw [h0] at he
      cases he
      exact h
  | @free r m hr he =>
    obtain ⟨t, hv, -, ht⟩ := h.freeKpage_eq hr
    rw [ht] at he
    cases he
    exact h.drop hr hv

end KpageInv

/-- The first call of `alloc_kpage` reserves the first pages. -/
theorem vBitMapInit_eq {n : ℕ} (h1 : 1 ≤ n) (hn : n ≤ 1792) :
    vBitMapInit biosMemSize n = .ok ((bitmapInit 224 256).putRun 0 n) := by
  have hclear : (bitmapInit 224 256).Clear 0 n := by
    refine ⟨?_, fun i _ _ => ?_⟩
    · show 0 + n ≤ 224 * 8
      omega
    · simp [Bitmap.bit, bitmapInit]
  have hfits : (bitmapInit 224 256).Fits := by
    show 256 + 224 * 8 < 2 ^ 31
    decide
  have halloc : allocKpage (bitmapInit 224 256) n =
      .ok (256 * pageSize, (bitmapInit 224 256).putRun 0 n) := by
    rcases allocKpage_eq hfits h1 with ⟨t, -, hb, he⟩ | ⟨hno, -⟩
    · obtain rfl : t = 0 := by
        by_contra ht
        exact hb 0 (by omega) hclear
      exact he
    · exact absurd hclear (hno 0)
  show (allocKpage (bitmapInit 224 256) n >>= fun r => .ok r.2) = _
  rw [halloc]
  rfl

/-- `p_map_pages` of a machine whose memory `memory_init` accepts. -/
theorem memoryInit_start {data : ℕ → Bytes} {info : BootInfo} {m : Frames}
    (h : memoryInit data info = .ok m) : ∃ n, m.start = 256 + n ∧ 1 ≤ n ∧ n ≤ 257 := by
  obtain ⟨⟨mem_base, mem_size⟩, hmem, h⟩ := bind_eq_ok.1 h
  have hlt := info.mem_lt hmem
  dsimp only at h
  split_ifs at h
  cases h
  simp only [pageSize, biosMemSize]
  exact ⟨_, rfl, by omega, by omega⟩

theorem kpageInv_init {s : KpageState} (h : kpageSys.init s) : KpageInv s := by
  obtain ⟨data, info, m, hm, hmap, hres, hlive⟩ := h
  obtain ⟨n, hn, h1, h257⟩ := memoryInit_start hm
  have hsub : m.start - biosMemSize / pageSize = n := by
    simp only [biosMemSize, pageSize]
    omega
  rw [hsub, vBitMapInit_eq h1 (by omega)] at hmap
  rw [hsub] at hres
  have hin : s.inUse = [⟨256 * pageSize, n⟩] := by
    rw [KpageState.inUse, hlive, hres]
    rfl
  have hmap' := (Except.ok.inj hmap).symm
  refine ⟨by rw [hmap']; simp [bitmapInit], by rw [hmap']; simp [bitmapInit], fun r hr => ?_, ?_,
    fun i hi => ?_⟩
  · rw [hin, List.mem_singleton] at hr
    exact ⟨0, by rw [hr], by rw [hr]; show 0 + n ≤ 1792; omega⟩
  · rw [hin]
    exact List.pairwise_singleton _ _
  · have hbit : (bitmapInit 224 256).bit i = false := by simp [Bitmap.bit, bitmapInit]
    rw [hin, hmap', Bitmap.bit_putRun, hbit, Bool.or_false, decide_eq_true_iff, covered_cons,
      Range.mem_pages (t := 0) rfl]
    simp [covered]

theorem kpageInv_reach {s : KpageState} (h : kpageSys.Reach s) : KpageInv s :=
  h.invariant (fun _ => kpageInv_init) fun _ _ _ hi => hi.step

/-! ## Exclusive ranges -/

/-- The pages from `idx` on, `n` of them, are managed by the map and clear. -/
def ClearPages (map : Bitmap) (idx n : ℕ) : Prop :=
  256 ≤ idx ∧ idx + n ≤ 2048 ∧ ∀ i, idx ≤ i → i < idx + n → bitmapTest map i = .ok false

/-- What holds between two calls. -/
structure KpageOk (s : KpageState) : Prop where
  /-- no page belongs to two ranges -/
  apart : s.inUse.Pairwise fun r r' => Disjoint r.pages r'.pages
  /-- the ranges lie between 1M and 8M, on whole pages -/
  inside : ∀ r ∈ s.inUse, biosMemSize ≤ r.vaddr ∧ r.vaddr + r.count * pageSize ≤ kernelAvaM ∧
    r.vaddr % pageSize = 0
  /-- a bit is set just when its page is in use -/
  used : ∀ idx, 256 ≤ idx → idx < 2048 →
    bitmapTest s.map idx = .ok (decide (∃ r ∈ s.inUse, r.vaddr / pageSize ≤ idx ∧
      idx < r.vaddr / pageSize + r.count))
  /-- `alloc_kpage` returns, and `NULL` only if there is no clear range -/
  alloc : ∀ n, 1 ≤ n → ∃ p map, allocKpage s.map n = .ok (p, map) ∧
    (p = 0 → map = s.map ∧ ∀ idx, ¬ ClearPages s.map idx n)
  /-- `free_kpage` of a live range returns -/
  free : ∀ r ∈ s.live, ∃ map, freeKpage s.map r.vaddr r.count = .ok map

theorem KpageInv.bitmapTest_eq {s : KpageState} (h : KpageInv s) {i : ℕ} (hi : i < 1792) :
    bitmapTest s.map (256 + i) = .ok (s.map.bit i) := by
  rw [← Rdix.bitmapTest_eq h.fits (by rw [h.bits]; exact hi), h.offset]

/-- **The ranges of kernel pages are exclusive**, in every run of `alloc_kpage` and
    `free_kpage`, and neither halts. -/
theorem kpages_exclusive {s : KpageState} (hs : kpageSys.Reach s) : KpageOk s := by
  have h := kpageInv_reach hs
  refine ⟨h.apart, fun r hr => ?_, fun idx h1 h2 => ?_, fun n hn => ?_, fun r hr => ?_⟩
  · obtain ⟨t, hv, ht⟩ := h.place r hr
    rw [hv]
    simp only [biosMemSize, kernelAvaM, pageSize]
    exact ⟨by omega, by omega, by omega⟩
  · obtain ⟨i, rfl⟩ : ∃ i, idx = 256 + i := ⟨idx - 256, by omega⟩
    rw [h.bitmapTest_eq (by omega)]
    congr 1
    rw [Bool.eq_iff_iff, decide_eq_true_iff]
    exact h.used i (by omega)
  · rcases allocKpage_eq h.fits hn with ⟨t, -, -, he⟩ | ⟨hno, he⟩
    · refine ⟨_, _, he, fun h0 => ?_⟩
      rw [h.offset] at h0
      simp only [pageSize] at h0
      omega
    · refine ⟨_, _, he, fun _ => ⟨rfl, fun idx hc => ?_⟩⟩
      obtain ⟨h1, h2, hclear⟩ := hc
      refine hno (idx - 256) ⟨by rw [h.bits]; omega, fun i hi1 hi2 => ?_⟩
      have hb := hclear (256 + i) (by omega) (by omega)
      rw [h.bitmapTest_eq (by omega)] at hb
      exact Except.ok.inj hb
  · obtain ⟨t, -, -, he⟩ := h.freeKpage_eq hr
    exact ⟨_, he⟩

/-- The map of a machine with 32M, after a call that has got three pages. -/
theorem kpages_exclusive_alloc :
    KpageOk ⟨((bitmapInit 224 256).putRun 0 2).putRun 2 3, ⟨0x100000, 2⟩, [⟨0x102000, 3⟩]⟩ := by
  have hinit : kpageSys.Reach ⟨(bitmapInit 224 256).putRun 0 2, ⟨0x100000, 2⟩, []⟩ :=
    .init ⟨fun _ _ => 0#8, memMap, _, rfl, vBitMapInit_eq (by decide) (by decide), rfl, rfl⟩
  have halloc : KpageStep ⟨(bitmapInit 224 256).putRun 0 2, ⟨0x100000, 2⟩, []⟩ (.alloc 3)
      ⟨((bitmapInit 224 256).putRun 0 2).putRun 2 3, ⟨0x100000, 2⟩, [⟨0x102000, 3⟩]⟩ :=
    .alloc (by decide) (show allocKpage _ 3 = .ok (0x102000, _) from rfl)
  exact kpages_exclusive (.step hinit halloc)

end Rdix
