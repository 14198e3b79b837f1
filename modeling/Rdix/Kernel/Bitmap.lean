/-
  Bitmaps (kernel/bitmap.c): test, set and scan for a run of clear bits.

  * `Bitmap.bit m i` is bit `i` of the map, as the code addresses it;
  * `bitmapTest_eq`, `bitmapSet_eq`: what test and set do inside the map;
  * `bitmapScan_first_fit`: the scan is an exact first fit.
-/
import Rdix.Kernel.Halt

namespace Rdix

/-- The bytes of a piece of memory; a block has 1024 of them. -/
abbrev Bytes := ℕ → BitVec 8

/-- `bitmap_t`, with the bytes at `start`. -/
structure Bitmap where
  start : Bytes
  length : ℕ
  offset : ℕ

/-- Bit `i` of the map, counted from its first byte. -/
def Bitmap.bit (m : Bitmap) (i : ℕ) : Bool := (m.start (i / 8)).getLsbD (i % 8)

def bitmapTest (m : Bitmap) (idx : ℕ) : C Bool := do
  cassert (m.offset ≤ idx) "idx >= map->offset"
  cassert (idx < u32 (m.offset + u32 (m.length * 8))) "idx < map->offset + map->length * 8"
  let idx := idx - m.offset
  return (m.start (idx / 8)).getLsbD (idx % 8)

/-- The byte `b` with bit `k` set to `status`. -/
def setByte (b : BitVec 8) (k : ℕ) (status : Bool) : BitVec 8 :=
  if status then b ||| (1#8 <<< k) else b &&& ~~~(1#8 <<< k)

/-- The map with bit `i` set to `status`. -/
def Bitmap.put (m : Bitmap) (i : ℕ) (status : Bool) : Bitmap :=
  { m with start := Function.update m.start (i / 8) (setByte (m.start (i / 8)) (i % 8) status) }

/-- The new map and the returned value, `EOF` if the bit already has that status. -/
def bitmapSet (m : Bitmap) (idx : ℕ) (status : Bool) : C (Bitmap × ℤ) := do
  cassert (m.offset ≤ idx) "idx >= map->offset"
  if (← bitmapTest m idx) = status then return (m, EOF)
  return (m.put (idx - m.offset) status, 0)

/-- The inner loop of `bitmap_scan`: the bits from `idx` on, `n` of them, are set. -/
def bitmapFill (m : Bitmap) (idx : ℕ) : ℕ → C Bitmap
  | 0 => return m
  | n + 1 => do
    let (m, _) ← bitmapSet m (u32 idx) true
    bitmapFill m (idx + 1) n

/-- The search loop of `bitmap_scan`; every turn moves `start_idx + local_count` by one, so the
    fuel is the number of bits not looked at. -/
def bitmapScanLoop (m : Bitmap) (count : ℕ) : ℕ → ℕ → ℕ → C (Bitmap × ℤ)
  | 0, _, _ => return (m, EOF)
  | fuel + 1, start_idx, local_count => do
    if u32 (m.length * 8) ≤ local_count + start_idx then return (m, EOF)
    if ← bitmapTest m (u32 (start_idx + local_count + m.offset)) then
      bitmapScanLoop m count fuel (start_idx + (local_count + 1)) 0
    else if local_count + 1 = count then
      let m ← bitmapFill m (m.offset + start_idx) count
      return (m, i32 (u32 (start_idx + m.offset)))
    else
      bitmapScanLoop m count fuel start_idx (local_count + 1)

def bitmapScan (m : Bitmap) (count : ℕ) : C (Bitmap × ℤ) :=
  bitmapScanLoop m count (m.length * 8) 0 0

/-! ## Single bits -/

theorem getLsbD_setByte (b : BitVec 8) {k : ℕ} (hk : k < 8) (status : Bool) (j : ℕ) :
    (setByte b k status).getLsbD j = if j = k then status else b.getLsbD j := by
  have h1 : (1#8 <<< k).getLsbD j = decide (j = k) := by
    rw [← BitVec.twoPow_eq, BitVec.getLsbD_twoPow]
    simp [hk, eq_comm]
  by_cases hj : j < 8
  · unfold setByte
    cases status
    · simp only [Bool.false_eq_true, if_false, BitVec.getLsbD_and, BitVec.getLsbD_not, h1, hj]
      by_cases h : j = k <;> simp [h]
    · simp only [if_true, BitVec.getLsbD_or, h1]
      by_cases h : j = k <;> simp [h]
  · have hjk : j ≠ k := by omega
    rw [if_neg hjk, BitVec.getLsbD_of_ge _ _ (by omega), BitVec.getLsbD_of_ge _ _ (by omega)]

section Bit
variable (m : Bitmap)

@[simp] theorem Bitmap.put_length (i : ℕ) (s : Bool) : (m.put i s).length = m.length := rfl

@[simp] theorem Bitmap.put_offset (i : ℕ) (s : Bool) : (m.put i s).offset = m.offset := rfl

theorem Bitmap.bit_put (i : ℕ) (s : Bool) (j : ℕ) :
    (m.put i s).bit j = if j = i then s else m.bit j := by
  unfold Bitmap.bit Bitmap.put
  by_cases hd : j / 8 = i / 8
  · simp only [hd, Function.update_self]
    rw [getLsbD_setByte _ (Nat.mod_lt _ (by decide))]
    by_cases h : j = i
    · simp [h]
    · rw [if_neg h, if_neg (by omega)]
  · simp only [Function.update_of_ne hd]
    rw [if_neg (by rintro rfl; exact hd rfl)]

/-- Two maps over the same bits are the same map. -/
theorem Bitmap.ext_bit {m m' : Bitmap} (hl : m.length = m'.length) (ho : m.offset = m'.offset)
    (hb : ∀ i, m.bit i = m'.bit i) : m = m' := by
  cases m with | mk s l o => cases m' with | mk s' l' o' =>
  simp only [Bitmap.mk.injEq]
  refine ⟨funext fun k => BitVec.eq_of_getLsbD_eq fun j hj => ?_, hl, ho⟩
  have := hb (8 * k + j)
  simp only [Bitmap.bit] at this
  rwa [show (8 * k + j) / 8 = k by omega, show (8 * k + j) % 8 = j by omega] at this

/-- Clearing a bit that was clear before it was set gives the map back. -/
theorem Bitmap.put_put_false {i : ℕ} (h : m.bit i = false) : (m.put i true).put i false = m := by
  refine Bitmap.ext_bit rfl rfl fun j => ?_
  rw [Bitmap.bit_put, Bitmap.bit_put]
  by_cases hj : j = i <;> simp [hj, h]

end Bit

/-! ## Test and set inside the map -/

/-- The index arithmetic of the map does not overflow an `int`. -/
def Bitmap.Fits (m : Bitmap) : Prop := m.offset + m.length * 8 < 2 ^ 31

section Fits
variable {m : Bitmap}

theorem Bitmap.Fits.put (h : m.Fits) (i : ℕ) (s : Bool) : (m.put i s).Fits := h

theorem Bitmap.Fits.bound (h : m.Fits) : u32 (m.offset + u32 (m.length * 8)) =
    m.offset + m.length * 8 := by
  unfold Bitmap.Fits at h
  rw [u32_of_lt (n := m.length * 8) (by omega), u32_of_lt (by omega)]

theorem bitmapTest_eq (h : m.Fits) {i : ℕ} (hi : i < m.length * 8) :
    bitmapTest m (m.offset + i) = .ok (m.bit i) := by
  have hlt : m.offset + i < u32 (m.offset + u32 (m.length * 8)) := by rw [h.bound]; omega
  simp [bitmapTest, cassert_pos hlt, Bitmap.bit]

theorem bitmapTest_below {idx : ℕ} (h : idx < m.offset) :
    bitmapTest m idx = .error (.assert "idx >= map->offset") := by
  simp [bitmapTest, cassert_neg (show ¬ m.offset ≤ idx by omega)]

theorem bitmapSet_eq (h : m.Fits) {i : ℕ} (hi : i < m.length * 8) (s : Bool) :
    bitmapSet m (m.offset + i) s =
      .ok (if m.bit i = s then (m, EOF) else (m.put i s, 0)) := by
  simp only [bitmapSet, Nat.le_add_right, cassert_pos, ok_bind, bitmapTest_eq h hi,
    Nat.add_sub_cancel_left, pure_eq_ok]
  split <;> rfl

end Fits

/-! ## Scan -/

/-- `count` clear bits from bit `s` on. -/
def Bitmap.Clear (m : Bitmap) (s count : ℕ) : Prop :=
  s + count ≤ m.length * 8 ∧ ∀ i, s ≤ i → i < s + count → m.bit i = false

/-- The map with the `n` bits from `s` on set. -/
def Bitmap.putRun (m : Bitmap) (s : ℕ) : ℕ → Bitmap
  | 0 => m
  | n + 1 => (m.put s true).putRun (s + 1) n

@[simp] theorem Bitmap.putRun_length (m : Bitmap) (s n : ℕ) :
    (m.putRun s n).length = m.length := by
  induction n generalizing m s with
  | zero => rfl
  | succ n ih => simp [Bitmap.putRun, ih]

@[simp] theorem Bitmap.putRun_offset (m : Bitmap) (s n : ℕ) :
    (m.putRun s n).offset = m.offset := by
  induction n generalizing m s with
  | zero => rfl
  | succ n ih => simp [Bitmap.putRun, ih]

theorem Bitmap.bit_putRun (m : Bitmap) (s n j : ℕ) :
    (m.putRun s n).bit j = (decide (s ≤ j ∧ j < s + n) || m.bit j) := by
  induction n generalizing m s with
  | zero => simp [Bitmap.putRun]
  | succ n ih =>
    rw [Bitmap.putRun, ih, Bitmap.bit_put]
    by_cases h : j = s
    · simp [h]
    · rw [if_neg h]
      congr 1
      exact decide_eq_decide.2 (by omega)

section Scan
variable {m : Bitmap} {count : ℕ}

theorem bitmapFill_eq (h : m.Fits) (n : ℕ) : ∀ {s : ℕ}, m.Clear s n →
    bitmapFill m (m.offset + s) n = .ok (m.putRun s n) := by
  induction n generalizing m with
  | zero => intro s _; rfl
  | succ n ih =>
    intro s hc
    have hs : s < m.length * 8 := by have := hc.1; omega
    have hu : u32 (m.offset + s) = m.offset + s := u32_of_lt (by unfold Bitmap.Fits at h; omega)
    have hb : m.bit s = false := hc.2 s le_rfl (by omega)
    have hc' : (m.put s true).Clear (s + 1) n := by
      refine ⟨by have := hc.1; simp; omega, fun i h1 h2 => ?_⟩
      rw [Bitmap.bit_put, if_neg (by omega)]
      exact hc.2 i (by omega) (by omega)
    simp only [bitmapFill, hu, bitmapSet_eq h hs, hb, Bool.false_eq_true, if_false, ok_bind]
    exact ih (h.put s true) hc'

/-- No run of `count` clear bits starts before `s`. -/
def Bitmap.NoneBefore (m : Bitmap) (count s : ℕ) : Prop := ∀ s' < s, ¬ m.Clear s' count

/-- The invariant of the search loop: the bits of the current run are clear, and no run of the
    wanted length starts before it. -/
theorem bitmapScanLoop_spec (h : m.Fits) :
    ∀ (fuel s l : ℕ), l < count → s + l + fuel = m.length * 8 → m.Clear s l →
      m.NoneBefore count s →
      (∃ t, m.Clear t count ∧ m.NoneBefore count t ∧
        bitmapScanLoop m count fuel s l = .ok (m.putRun t count, (m.offset + t : ℕ))) ∨
      ((∀ t, ¬ m.Clear t count) ∧ bitmapScanLoop m count fuel s l = .ok (m, EOF))
  | 0, s, l, hl, hf, _, hn => by
    refine Or.inr ⟨fun t ht => ?_, rfl⟩
    by_cases hts : t < s
    · exact hn t hts ht
    · have := ht.1; omega
  | fuel + 1, s, l, hl, hf, hc, hn => by
    have hfit : m.offset + m.length * 8 < 2 ^ 31 := h
    have hlt : s + l < m.length * 8 := by omega
    have htest : bitmapTest m (u32 (s + l + m.offset)) = .ok (m.bit (s + l)) := by
      rw [u32_of_lt (by omega), Nat.add_comm, bitmapTest_eq h hlt]
    have hguard : ¬ u32 (m.length * 8) ≤ l + s := by rw [u32_of_lt (by omega)]; omega
    simp only [bitmapScanLoop, if_neg hguard, htest, ok_bind]
    by_cases hb : m.bit (s + l) = true
    · -- a set bit ends the run: every run that starts inside it would contain the bit
      rw [if_pos hb]
      refine bitmapScanLoop_spec h fuel (s + (l + 1)) 0 (by omega) (by omega)
        ⟨by omega, fun i _ _ => by omega⟩ fun s' hs' hcl => ?_
      by_cases hlow : s' < s
      · exact hn s' hlow hcl
      · rw [hcl.2 (s + l) (by omega) (by omega)] at hb; cases hb
    · simp only [Bool.not_eq_true] at hb
      have hc' : m.Clear s (l + 1) := ⟨by omega, fun i h1 h2 => by
        rcases Nat.lt_or_ge i (s + l) with h3 | h3
        · exact hc.2 i h1 h3
        · rwa [show i = s + l by omega]⟩
      rw [if_neg (by simp [hb])]
      by_cases hlast : l + 1 = count
      · subst hlast
        have hr : i32 (u32 (s + m.offset)) = ((m.offset + s : ℕ) : ℤ) := by
          rw [u32_of_lt (by omega), i32_of_lt (by omega), Nat.add_comm]
        refine Or.inl ⟨s, hc', hn, ?_⟩
        simp [bitmapFill_eq h _ hc', hr]
      · rw [if_neg hlast]
        exact bitmapScanLoop_spec h fuel s (l + 1) (by omega) (by omega) hc' hn

/-- **`bitmap_scan` is an exact first fit.** -/
theorem bitmapScan_spec (h : m.Fits) (hc : 1 ≤ count) :
    (∃ t, m.Clear t count ∧ m.NoneBefore count t ∧
      bitmapScan m count = .ok (m.putRun t count, (m.offset + t : ℕ))) ∨
    ((∀ t, ¬ m.Clear t count) ∧ bitmapScan m count = .ok (m, EOF)) :=
  bitmapScanLoop_spec h _ 0 0 hc (by omega) ⟨by omega, fun i _ _ => by omega⟩
    fun s' hs' => by omega

/-- **The scan sets the first run of clear bits that is long enough and no other bit**; without one
    it returns `EOF` and leaves the map alone.  It returns, so every `bitmap_test` that it makes
    finds its index within the map. -/
theorem bitmapScan_first_fit (h : m.Fits) (hc : 1 ≤ count) :
    ((∃ t, m.Clear t count) → ∃ s m', m.Clear s count ∧ (∀ s' < s, ¬ m.Clear s' count) ∧
      bitmapScan m count = .ok (m', (m.offset + s : ℕ)) ∧
      m'.length = m.length ∧ m'.offset = m.offset ∧
      ∀ i, m'.bit i = if s ≤ i ∧ i < s + count then true else m.bit i) ∧
    ((¬ ∃ t, m.Clear t count) → bitmapScan m count = .ok (m, EOF)) := by
  rcases bitmapScan_spec h hc with ⟨s, hs, hnone, he⟩ | ⟨hnone, he⟩
  · refine ⟨fun _ => ⟨s, m.putRun s count, hs, hnone, he, ?_, ?_, fun i => ?_⟩, fun hn => ?_⟩
    · exact m.putRun_length s count
    · exact m.putRun_offset s count
    · rw [m.bit_putRun]
      by_cases hi : s ≤ i ∧ i < s + count <;> simp [hi]
    · exact absurd ⟨s, hs⟩ hn
  · exact ⟨fun ⟨t, ht⟩ => absurd ht (hnone t), fun _ => he⟩

/-- The free bit 2 is passed over, for the bits 4 and 5. -/
theorem bitmapScan_first_fit_two : ∃ m', bitmapScan ⟨fun _ => 0x0b#8, 1, 5⟩ 2 = .ok (m', 9) ∧
    ∀ i, m'.bit i = if 4 ≤ i ∧ i < 6 then true else (0x0b#8).getLsbD (i % 8) := by
  have hfits : Bitmap.Fits ⟨fun _ => 0x0b#8, 1, 5⟩ := by
    show 5 + 1 * 8 < 2 ^ 31
    omega
  have hclear : Bitmap.Clear ⟨fun _ => 0x0b#8, 1, 5⟩ 4 2 := by
    refine ⟨by norm_num, fun i h1 h2 => ?_⟩
    obtain rfl | rfl : i = 4 ∨ i = 5 := by omega
    · rfl
    · rfl
  obtain ⟨s, m', hs, hmin, he, -, -, hbit⟩ := (bitmapScan_first_fit hfits one_le_two).1 ⟨4, hclear⟩
  have hle : s ≤ 4 := not_lt.1 fun hlt => hmin 4 hlt hclear
  have hbits := hs.2
  obtain rfl : s = 4 := by
    interval_cases s
    · cases hbits 0 le_rfl (by norm_num)
    · cases hbits 1 le_rfl (by norm_num)
    · cases hbits 3 (by norm_num) (by norm_num)
    · cases hbits 3 le_rfl (by norm_num)
    · rfl
  exact ⟨m', he, hbit⟩

end Scan

end Rdix
