/-
  Pages of kernel memory (kernel/memory.c: alloc_kpage, free_kpage).

  The bitmap `v_bit_map` has one bit for each page; an address is handed out by the first
  clear bit.
-/
import Rdix.Kernel.Bitmap

namespace Rdix

/-- `PAGE_SIZE`. -/
abbrev pageSize : ℕ := 4096

/-- `alloc_kpage(count)` on `v_bit_map`; 0 is `NULL`. -/
def allocKpage (map : Bitmap) (count : ℕ) : C (ℕ × Bitmap) := do
  let (map, start_page_idx) ← bitmapScan map count
  if start_page_idx = EOF then return (0, map)
  return (start_page_idx.toNat * pageSize, map)

/-- The loop of `free_kpage`: the `count` pages from index `idx` on. -/
def freeKpages (map : Bitmap) (idx : ℕ) : ℕ → C Bitmap
  | 0 => return map
  | count + 1 => do
    let (map, r) ← bitmapSet map idx false
    if r = EOF then throw (.panic "free_kpage: memory free error")
    freeKpages map (idx + 1) count

def freeKpage (map : Bitmap) (vaddr count : ℕ) : C Bitmap :=
  freeKpages map (vaddr / pageSize) count

/-- The map lies in the 32-bit address space and does not cover page 0. -/
structure Bitmap.Paged (m : Bitmap) : Prop where
  fits : m.Fits
  pos : 0 < m.offset
  space : (m.offset + m.length * 8) * pageSize ≤ 2 ^ 32

/-- The addresses of the pages in use. -/
def Bitmap.pages (m : Bitmap) : Set ℕ :=
  {pg | ∃ i < m.length * 8, m.bit i = true ∧ pg = (m.offset + i) * pageSize}

section
variable {m : Bitmap}

theorem Bitmap.Paged.put (h : m.Paged) (i : ℕ) (s : Bool) : (m.put i s).Paged :=
  ⟨h.fits, h.pos, h.space⟩

/-- The address of a page tells its bit. -/
theorem page_inj {i j : ℕ} (h : (m.offset + i) * pageSize = (m.offset + j) * pageSize) : i = j :=
  Nat.add_left_cancel (Nat.eq_of_mul_eq_mul_right (by decide) h)

theorem Bitmap.pages_put_true {i : ℕ} (hi : i < m.length * 8) :
    (m.put i true).pages = insert ((m.offset + i) * pageSize) m.pages := by
  ext pg
  constructor
  · rintro ⟨j, hj, hb, rfl⟩
    rw [Bitmap.bit_put] at hb
    by_cases hji : j = i
    · exact Or.inl (by rw [hji]; rfl)
    · rw [if_neg hji] at hb
      exact Or.inr ⟨j, hj, hb, rfl⟩
  · rintro (rfl | ⟨j, hj, hb, rfl⟩)
    · exact ⟨i, hi, by rw [Bitmap.bit_put, if_pos rfl], rfl⟩
    · refine ⟨j, hj, ?_, rfl⟩
      rw [Bitmap.bit_put, hb]
      exact ite_self _

theorem Bitmap.pages_put_false (i : ℕ) :
    (m.put i false).pages = m.pages \ {(m.offset + i) * pageSize} := by
  ext pg
  constructor
  · rintro ⟨j, hj, hb, rfl⟩
    rw [Bitmap.bit_put] at hb
    split_ifs at hb with hji
    exact ⟨⟨j, hj, hb, rfl⟩, fun h => hji (page_inj h)⟩
  · rintro ⟨⟨j, hj, hb, rfl⟩, hne⟩
    refine ⟨j, hj, ?_, rfl⟩
    rw [Bitmap.bit_put, if_neg, hb]
    rintro rfl
    exact hne rfl

/-- **One page is allocated at a page not in use**, or there is none. -/
theorem allocKpage_one (h : m.Paged) :
    ((∀ i < m.length * 8, m.bit i = true) ∧ allocKpage m 1 = .ok (0, m)) ∨
    ∃ i < m.length * 8, m.bit i = false ∧
      allocKpage m 1 = .ok ((m.offset + i) * pageSize, m.put i true) := by
  rcases bitmapScan_spec h.fits (show 1 ≤ 1 from le_rfl) with ⟨i, hc, -, he⟩ | ⟨hn, he⟩
  · have hlt : i < m.length * 8 := by have := hc.1; omega
    refine Or.inr ⟨i, hlt, hc.2 i le_rfl (by omega), ?_⟩
    have hne : ((m.offset + i : ℕ) : ℤ) ≠ EOF :=
      ne_of_gt (lt_of_lt_of_le (by decide : EOF < 0) (Int.natCast_nonneg _))
    simp only [allocKpage, he, ok_bind, if_neg hne, pure_eq_ok, Int.toNat_natCast]
    rfl
  · refine Or.inl ⟨fun i hi => ?_, by simp [allocKpage, he]⟩
    by_contra hb
    refine hn i ⟨by omega, fun j h1 h2 => ?_⟩
    obtain rfl : j = i := by omega
    simpa using hb

/-- A page in use is given back. -/
theorem freeKpage_one (h : m.Paged) {i : ℕ} (hi : i < m.length * 8) (hb : m.bit i = true) :
    freeKpage m ((m.offset + i) * pageSize) 1 = .ok (m.put i false) := by
  rw [freeKpage, Nat.mul_div_cancel _ (by decide), freeKpages, bitmapSet_eq h.fits hi, hb]
  rfl

end

end Rdix
