/-
  The windows of devices (kernel/mmio.c): physical pages mapped one behind the other from
  `IO_MEM_START` on, for which one page table is there.

  * `linkWindow` maps a window, and `IoSpace.translate` is what the tables make of an address;
  * `linkWindow_translate`: what one call does to the addresses of its page table;
  * `linkNppage_windows`: the windows are exact and apart in the runs with aligned addresses and
    without overflow, and the next call that is not so breaks it.
-/
import Rdix.Kernel.FreePages

namespace Rdix

open Function Transition

/-- The frames, the page directory and `start_io_memory`. -/
structure IoSpace where
  mem : Frames
  pde : ℕ → ℕ
  start_io_memory : ℕ

/-- The pages that `size` bytes are given. -/
def pageNum (size : ℕ) : ℕ := u32 (size + pageSize - 1) / pageSize

/-- The assertion of `link_nppage`. -/
def IoSpace.Passes (s : IoSpace) (size : ℕ) : Prop :=
  ioMemStart ≤ s.start_io_memory ∧ u32 (s.start_io_memory + size) ≤ kernelMemerySize

instance (s : IoSpace) (size : ℕ) : Decidable (s.Passes size) := inferInstanceAs (Decidable (_ ∧ _))

/-- `link_nppage` with the address that it returns. -/
def linkWindow (s : IoSpace) (addr size : ℕ) : C (IoSpace × ℕ) := do
  let r ← linkNppage s.mem s.pde s.start_io_memory addr size
  return ({ mem := r.1, pde := r.2.1, start_io_memory := r.2.2 }, s.start_io_memory)

/-- The physical address of a virtual one. -/
def IoSpace.translate (s : IoSpace) (vaddr : ℕ) : Option ℕ :=
  ((s.mem.walk s.pde vaddr).map Prod.fst).map fun f => f * pageSize + vaddr % pageSize

/-! ## Runs -/

/-- The arguments of a call. -/
structure IoCall where
  addr : ℕ
  size : ℕ
  addr_lt : addr < 2 ^ 32
  size_pos : 0 < size
  size_lt : size < 2 ^ 32

/-- What a call has returned, and its arguments. -/
structure IoWindow where
  vaddr : ℕ
  addr : ℕ
  size : ℕ

/-- The newest window comes first. -/
structure IoState where
  io : IoSpace
  windows : List IoWindow

/-- The calls after `page_mode_init`. -/
def ioSys : Sys IoState IoCall where
  init x := x.windows = [] ∧ x.io.start_io_memory = ioMemStart ∧
    ∀ d, 4 ≤ d → d < 1023 → entPresent (x.io.pde d) = false
  step x c y := ∃ r, linkWindow x.io c.addr c.size = .ok r ∧
    y = ⟨r.1, ⟨r.2, c.addr, c.size⟩ :: x.windows⟩

/-- **The windows translate byte for byte and do not overlap.** -/
structure IoState.Exact (x : IoState) : Prop where
  bytes : ∀ w ∈ x.windows, ∀ k < w.size,
    x.io.translate (u32 (w.vaddr + k)) = some (u32 (w.addr + k))
  apart : x.windows.Pairwise fun w w' => ∀ k < w.size, ∀ k' < w'.size,
    u32 (w.vaddr + k) ≠ u32 (w'.vaddr + k')

/-- The address is that of a page, and the sum in the assertion does not overflow. -/
def IoCall.Regular (x : IoState) (c : IoCall) : Prop :=
  c.addr % pageSize = 0 ∧ x.io.start_io_memory + c.size < 2 ^ 32

/-! ## One call -/

section Call
variable {s : IoSpace} {r : IoSpace × ℕ} {m m' : Frames} {pde pde' : ℕ → ℕ}
variable {pte t idx n vaddr addr size : ℕ}

/-- An entry has 32 bits, and 20 of them for the index. -/
theorem entryInit_mod (idx : ℕ) : entryInit idx % 2 ^ 32 = entryInit (idx % 2 ^ 20) := by
  unfold entryInit
  omega

/-- The entries that the loop writes. -/
theorem linkEntries_entry (m : Frames) (pte idx : ℕ) (h : t + n ≤ 1024) (k : Fin 1024) :
    (linkEntries m pte t idx n).entry pte k =
      if t ≤ k ∧ k < t + n then entryInit ((idx + (k - t)) % 2 ^ 20) else m.entry pte k := by
  induction n with
  | zero => exact (if_neg (by omega)).symm
  | succ n ih =>
    rw [linkEntries]
    by_cases hk : (k : ℕ) = t + n
    · have hself := Frames.entry_setEntry (m := linkEntries m pte t idx n) (f := pte) (t := k)
        (w := entryInit (idx + n))
      rw [hk] at hself
      rw [hk, hself, if_pos (by omega), Nat.add_sub_cancel_left, entryInit_mod]
    · rw [Frames.entry_setEntry_ne (t := ⟨t + n, by omega⟩)
        (Or.inr fun he => hk (congrArg Fin.val he)), ih (by omega)]
      by_cases hlow : t ≤ k ∧ k < t + n
      · rw [if_pos hlow, if_pos (by omega)]
      · rw [if_neg hlow, if_neg (by omega)]

/-- A table that is created maps nothing, as before. -/
theorem getPte_walk (h : getPte m pde vaddr false = .ok (m', pde', pte)) :
    tableOf (pde' (didx vaddr)) = some pte ∧ (∀ d ≠ didx vaddr, pde' d = pde d) ∧
      ∀ v, didx v = didx vaddr →
        (pteOf (m'.entry pte (tidx v))).map Prod.fst = (m.walk pde v).map Prod.fst := by
  unfold getPte at h
  split_ifs at h with hp
  · cases h
    have htable := tableOf_of_present hp
    refine ⟨htable, fun d _ => rfl, fun v hv => ?_⟩
    rw [Frames.walk_of_table (by rw [hv, htable])]
  · obtain ⟨-, h⟩ := cassert_bind_eq_ok.1 h
    obtain ⟨⟨m₁, f⟩, -, h⟩ := bind_eq_ok.1 h
    cases h
    have hnone := tableOf_of_absent (Bool.eq_false_iff.2 hp)
    refine ⟨?_, fun d hd => update_of_ne hd .., fun v hv => ?_⟩
    · rw [update_self, tableOf_entryInit]
    · simp only [Frames.entry, update_self, ByteMem.load_zero, pteOf_zero, Frames.walk, hv, hnone,
        Option.bind_none, Option.map_none]

/-- How a call returns. -/
theorem linkWindow_ok (h : linkWindow s addr size = .ok r) : s.Passes size ∧
    ∃ m pde pte, getPte s.mem s.pde s.start_io_memory false = .ok (m, pde, pte) ∧
      tidx s.start_io_memory + pageNum size ≤ 1024 ∧
      r = (⟨linkEntries m pte (tidx s.start_io_memory) (addr / pageSize) (pageNum size), pde,
        u32 (s.start_io_memory + pageNum size * pageSize)⟩, s.start_io_memory) := by
  obtain ⟨r', h', h⟩ := bind_eq_ok.1 h
  obtain ⟨hp, h'⟩ := cassert_bind_eq_ok.1 h'
  obtain ⟨⟨m, pde, pte⟩, hpte, h'⟩ := bind_eq_ok.1 h'
  dsimp only at h'
  split_ifs at h' with hin
  cases h'
  cases h
  exact ⟨hp, m, pde, pte, hpte, not_lt.1 hin, rfl⟩

/-- **What a call does to the addresses of its table.** -/
theorem linkWindow_translate (h : linkWindow s addr size = .ok r) :
    tidx s.start_io_memory + pageNum size ≤ 1024 ∧ r.2 = s.start_io_memory ∧
    r.1.start_io_memory = u32 (s.start_io_memory + pageNum size * pageSize) ∧
    (∀ d ≠ didx s.start_io_memory, r.1.pde d = s.pde d) ∧
    ∀ v, didx v = didx s.start_io_memory → r.1.translate v =
      if tidx s.start_io_memory ≤ tidx v ∧ tidx v < tidx s.start_io_memory + pageNum size then
        some ((addr / pageSize + (tidx v - tidx s.start_io_memory)) % 2 ^ 20 * pageSize + v % pageSize)
      else s.translate v := by
  obtain ⟨-, m, pde, pte, hpte, hin, rfl⟩ := linkWindow_ok h
  obtain ⟨htable, hother, hwalk⟩ := getPte_walk hpte
  refine ⟨hin, rfl, rfl, hother, fun v hv => ?_⟩
  have ht : tidx v < 1024 := Nat.mod_lt _ (by norm_num)
  have hentry := linkEntries_entry m pte (addr / pageSize) hin ⟨tidx v, ht⟩
  dsimp only at hentry
  rw [IoSpace.translate, Frames.walk_of_table (by rw [hv]; exact htable), hentry]
  split_ifs with hr
  · rw [pteOf_entryInit]
    rfl
  · rw [hwalk v hv]
    rfl

theorem translate_mod {p : ℕ} (h : s.translate vaddr = some p) : p % pageSize = vaddr % pageSize := by
  obtain ⟨f, -, rfl⟩ := Option.map_eq_some_iff.1 h
  rw [Nat.mul_add_mod_of_lt (Nat.mod_lt _ (by norm_num))]

/-- Without a page table there is no translation. -/
theorem translate_absent (h : entPresent (s.pde (didx vaddr)) = false) : s.translate vaddr = none := by
  rw [IoSpace.translate, Frames.walk, tableOf_of_absent h]
  rfl

end Call

/-! ## The invariant -/

/-- The addresses of the IO memory are mapped up to `start_io_memory`. -/
structure IoInv (x : IoState) : Prop where
  start : x.io.start_io_memory % pageSize = 0
  low : ioMemStart ≤ x.io.start_io_memory
  high : x.io.start_io_memory ≤ kernelMemerySize
  behind : entPresent (x.io.pde 5) = false
  free : ∀ v, x.io.start_io_memory ≤ v → v < kernelMemerySize → x.io.translate v = none
  windows : ∀ w ∈ x.windows, ioMemStart ≤ w.vaddr ∧ w.vaddr + w.size ≤ x.io.start_io_memory ∧
    ∀ k < w.size, x.io.translate (w.vaddr + k) = some (u32 (w.addr + k))
  order : x.windows.Pairwise fun w w' => w'.vaddr + w'.size ≤ w.vaddr

section Inv
variable {x y : IoState} {c : IoCall}

theorem ioInv_init (h : ioSys.init x) : IoInv x := by
  obtain ⟨hw, hs, hpde⟩ := h
  refine ⟨?_, ?_, ?_, hpde 5 (by norm_num) (by norm_num), fun v h1 h2 => ?_, ?_, ?_⟩
  · rw [hs]
    rfl
  · rw [hs]
  · rw [hs]
    norm_num
  · rw [hs] at h1
    have hd : didx v = 4 := by
      norm_num at h1 h2
      show v / 0x400000 = 4
      omega
    refine translate_absent ?_
    rw [hd]
    exact hpde 4 le_rfl (by norm_num)
  · simp [hw]
  · simp [hw]

theorem IoInv.exact (h : IoInv x) : x.Exact := by
  have hhigh := h.high
  have hlt {w : IoWindow} (hw : w ∈ x.windows) {k : ℕ} (hk : k < w.size) :
      u32 (w.vaddr + k) = w.vaddr + k := by
    have hend := (h.windows w hw).2.1
    norm_num at hhigh
    exact u32_of_lt (by omega)
  refine ⟨fun w hw k hk => ?_, h.order.imp_of_mem fun {w w'} hw hw' hle k hk k' hk' => ?_⟩
  · rw [hlt hw hk]
    exact (h.windows w hw).2.2 k hk
  · rw [hlt hw hk, hlt hw' hk']
    omega

/-- An address of the IO memory. -/
theorem io_address {v : ℕ} (hlow : 0x1000000 ≤ v) (hhigh : v < 0x1400000) :
    didx v = 4 ∧ v = 0x1000000 + tidx v * 4096 + v % 4096 := by
  constructor
  · show v / 0x400000 = 4
    omega
  · show v = 0x1000000 + v / 4096 % 1024 * 4096 + v % 4096
    omega

theorem pageNum_of_lt {size : ℕ} (h : size < 2 ^ 31) : pageNum size = (size + 4095) / 4096 := by
  show (size + 4095) % 2 ^ 32 / 4096 = _
  rw [Nat.mod_eq_of_lt (by omega)]

/-- A regular call that passes the assertion ends below 20M. -/
theorem IoCall.Regular.room (h : c.Regular x) (hp : x.io.Passes c.size) :
    x.io.start_io_memory + c.size ≤ 0x1400000 := by
  have hsum := hp.2
  rwa [u32_of_lt h.2] at hsum

theorem IoInv.step (h : IoInv x) (hc : c.Regular x) (hs : ioSys.step x c y) : IoInv y := by
  obtain ⟨r, hr, rfl⟩ := hs
  have hroom := hc.room (linkWindow_ok hr).1
  obtain ⟨hin, hret, hstart, hother, htranslate⟩ := linkWindow_translate hr
  have hsize := c.size_pos
  have halign : x.io.start_io_memory % 4096 = 0 := h.start
  have hlow : 0x1000000 ≤ x.io.start_io_memory := h.low
  have haddr : c.addr % 4096 = 0 := hc.1
  obtain ⟨hdidx, hpage⟩ := io_address hlow (by omega)
  have hnum : pageNum c.size = (c.size + 4095) / 4096 := pageNum_of_lt (by omega)
  have hnext : r.1.start_io_memory = x.io.start_io_memory + pageNum c.size * 4096 := by
    rw [hstart]
    exact u32_of_lt (by show _ + pageNum c.size * 4096 < _; omega)
  have hsame {v : ℕ} (h1 : 0x1000000 ≤ v) (h2 : v < 0x1400000)
      (h3 : v < x.io.start_io_memory ∨ r.1.start_io_memory ≤ v) :
      r.1.translate v = x.io.translate v := by
    obtain ⟨hd, hv⟩ := io_address h1 h2
    rw [htranslate v (hd.trans hdidx.symm), if_neg (by omega)]
  refine ⟨?_, ?_, ?_, ?_, fun v h1 h2 => ?_, fun w hw => ?_,
    List.pairwise_cons.2 ⟨fun w hw => ?_, h.order⟩⟩
  · show r.1.start_io_memory % 4096 = 0
    omega
  · show 0x1000000 ≤ r.1.start_io_memory
    omega
  · show r.1.start_io_memory ≤ 0x1400000
    omega
  · rw [← h.behind]
    exact congrArg entPresent (hother 5 (by rw [hdidx]; decide))
  · have h1 : r.1.start_io_memory ≤ v := h1
    have h2 : v < 0x1400000 := h2
    exact (hsame (by omega) h2 (Or.inr h1)).trans (h.free v (by omega) h2)
  · rcases List.mem_cons.1 hw with rfl | hw
    · refine ⟨hret ▸ h.low, ?_, fun k hk => ?_⟩
      · show r.2 + c.size ≤ r.1.start_io_memory
        omega
      · show r.1.translate (r.2 + k) = some (u32 (c.addr + k))
        have hk : k < c.size := hk
        obtain ⟨hd, hv⟩ := io_address (v := r.2 + k) (by omega) (by omega)
        rw [htranslate _ (hd.trans hdidx.symm), if_pos (by omega)]
        congr 1
        show (c.addr / 4096 + (tidx (r.2 + k) - tidx x.io.start_io_memory)) % 2 ^ 20 * 4096 +
          (r.2 + k) % 4096 = (c.addr + k) % 2 ^ 32
        omega
    · obtain ⟨hw1, hw2, hw3⟩ := h.windows w hw
      refine ⟨hw1, by show _ ≤ r.1.start_io_memory; omega, fun k hk => ?_⟩
      have hw1 : 0x1000000 ≤ w.vaddr := hw1
      exact (hsame (by omega) (by omega) (Or.inl (by omega))).trans (hw3 k hk)
  · show w.vaddr + w.size ≤ r.2
    rw [hret]
    exact (h.windows w hw).2.1

/-- A call that breaks nothing is regular. -/
theorem IoInv.regular (h : IoInv x) (hs : ioSys.step x c y) (he : y.Exact) : c.Regular x := by
  obtain ⟨r, hr, rfl⟩ := hs
  have hpass := (linkWindow_ok hr).1.2
  obtain ⟨hin, hret, -, -, htranslate⟩ := linkWindow_translate hr
  have halign : x.io.start_io_memory % 4096 = 0 := h.start
  have hlow : 0x1000000 ≤ x.io.start_io_memory := h.low
  have hhigh : x.io.start_io_memory ≤ 0x1400000 := h.high
  have hfirst : r.1.translate x.io.start_io_memory = some c.addr := by
    have hbyte := he.bytes _ List.mem_cons_self 0 c.size_pos
    have hret : r.2 = x.io.start_io_memory := hret
    simp only [Nat.add_zero, hret] at hbyte
    rwa [u32_of_lt (by omega), u32_of_lt c.addr_lt] at hbyte
  refine ⟨(translate_mod hfirst).trans halign, ?_⟩
  by_contra hover
  have hsize := c.size_lt
  have hnone : pageNum c.size = 0 := by
    have hnum : pageNum c.size = (c.size + 4095) % 2 ^ 32 / 4096 := rfl
    omega
  have hbefore : x.io.translate x.io.start_io_memory = none := by
    rcases hhigh.lt_or_eq with hlt | heq
    · exact h.free _ le_rfl hlt
    · refine translate_absent ?_
      rw [heq]
      exact h.behind
  rw [htranslate _ rfl, hnone, Nat.add_zero, if_neg (by omega), hbefore] at hfirst
  cases hfirst

/-- A call without overflow that passes the assertion returns, when the table is there or there is
    a frame for it. -/
theorem IoInv.returns (h : IoInv x) (hp : x.io.Passes c.size)
    (hover : x.io.start_io_memory + c.size < 2 ^ 32)
    (ht : ∃ r, getPte x.io.mem x.io.pde x.io.start_io_memory false = .ok r) :
    ∃ y, ioSys.step x c y := by
  obtain ⟨⟨mem, pde, pte⟩, hpte⟩ := ht
  have hsum := hp.2
  rw [u32_of_lt hover] at hsum
  have hsum : x.io.start_io_memory + c.size ≤ 0x1400000 := hsum
  have hsize := c.size_pos
  have hlow : 0x1000000 ≤ x.io.start_io_memory := h.low
  have halign : x.io.start_io_memory % 4096 = 0 := h.start
  have hin : tidx x.io.start_io_memory + pageNum c.size ≤ 1024 := by
    obtain ⟨-, hpage⟩ := io_address hlow (by omega)
    have hnum : pageNum c.size = (c.size + 4095) / 4096 := pageNum_of_lt (by omega)
    omega
  obtain ⟨r, hr⟩ : ∃ r, linkWindow x.io c.addr c.size = .ok r := by
    have hassert : ioMemStart ≤ x.io.start_io_memory ∧
      u32 (x.io.start_io_memory + c.size) ≤ kernelMemerySize := hp
    have hroom : ¬ 1024 < tidx x.io.start_io_memory + u32 (c.size + pageSize - 1) / pageSize :=
      not_lt.2 hin
    rw [linkWindow, linkNppage, cassert_pos hassert, ok_bind, hpte, ok_bind]
    dsimp only
    rw [if_neg hroom]
    exact ⟨_, rfl⟩
  exact ⟨_, r, hr, rfl⟩

end Inv

/-- **The windows are exact and apart** after any number of calls with aligned addresses and without
    overflow, and the next call keeps them so just when it is one of these. -/
theorem linkNppage_windows {x : IoState} (h : (ioSys.restrict fun x c => c.Regular x).Reach x) :
    x.Exact ∧ ∀ c : IoCall, x.io.Passes c.size →
      (∃ r, getPte x.io.mem x.io.pde x.io.start_io_memory false = .ok r) →
      ((∃ y, ioSys.step x c y ∧ y.Exact) ↔ c.Regular x) := by
  have hi : IoInv x := by
    refine Sys.Reach.invariant (S := ioSys.restrict fun x c => c.Regular x) (fun _ => ioInv_init) ?_ h
    rintro x c y hx ⟨hc, hs⟩
    exact hx.step hc hs
  refine ⟨hi.exact, fun c hp ht => ⟨fun ⟨y, hs, he⟩ => hi.regular hs he, fun hc => ?_⟩⟩
  obtain ⟨y, hs⟩ := hi.returns hp hc.2 ht
  exact ⟨y, hs, (hi.step hc hs).exact⟩

/-- The kernel with one free frame and no window. -/
def ioStart : IoState where
  io := { mem := ⟨0, 1, fun _ => 0, 1, fun _ _ => 0#8⟩, pde := fun _ => 0, start_io_memory := ioMemStart }
  windows := []

theorem ioStart_init : ioSys.init ioStart := ⟨rfl, rfl, fun _ _ _ => rfl⟩

theorem ioStart_passes {size : ℕ} (h : size ≤ 0x400000) : ioStart.io.Passes size := by
  refine ⟨le_rfl, ?_⟩
  show (0x1000000 + size) % 2 ^ 32 ≤ 0x1400000
  omega

/-- The registers of the local APIC. -/
theorem linkNppage_windows_lapic : ∃ y, ioSys.step ioStart
    ⟨0xfee00000, 0x400, by norm_num, by norm_num, by norm_num⟩ y ∧ y.Exact :=
  ((linkNppage_windows (.init ioStart_init)).2 _ (ioStart_passes (by norm_num)) ⟨_, rfl⟩).2
    ⟨by norm_num, by norm_num [ioStart]⟩

/-- **The registers in the middle of a page are not where the returned address says.** -/
theorem linkNppage_unaligned : ∃ y, ioSys.step ioStart
    ⟨0xfebf0010, 0x20, by norm_num, by norm_num, by norm_num⟩ y ∧ ¬ y.Exact := by
  have hi := ioInv_init ioStart_init
  obtain ⟨y, hs⟩ := hi.returns (c := ⟨0xfebf0010, 0x20, by norm_num, by norm_num, by norm_num⟩)
    (ioStart_passes (by norm_num)) (by norm_num [ioStart]) ⟨_, rfl⟩
  refine ⟨y, hs, fun he => ?_⟩
  have haddr : 0xfebf0010 % 4096 = 0 := (hi.regular hs he).1
  norm_num at haddr

end Rdix
