/-
  The counter `free_pages` (kernel/memory.c: memory_init, page_mode_init, mem_pg_init;
  kernel/mmio.c: link_nppage).

  * `Frames.zeros`: the number of frames that `get_p_page` can still find; `Frames.drift`: how much
    `free_pages` is above it;
  * `Frames.Steady`: an operation counts right, that is, it keeps the drift; one lemma for each;
  * `memPgInit_eq`: booting marks the frames of the kernel behind the counter's back;
  * `free_pages_never`: the drift stays, so `get_p_page` never finds `free_pages` to be 0.
-/
import Rdix.Kernel.Isolation

namespace Rdix

open Function Transition

/-! ## Counting -/

namespace Frames

/-- The number of frames that `get_p_page` can find. -/
def zeros (m : Frames) : ℕ := ((Finset.Ico m.start m.total).filter fun i => m.p_bit_map i = 0).card

/-- How far `free_pages` is off. -/
def drift (m : Frames) : ℤ := m.free_pages - m.zeros

/-- After an operation that counts right. -/
structure Steady (m m' : Frames) : Prop where
  start : m'.start = m.start
  total : m'.total = m.total
  drift : m'.drift = m.drift

section
variable {m m' m'' : Frames} {f n fp : ℕ}

theorem Steady.refl (m : Frames) : m.Steady m := ⟨rfl, rfl, rfl⟩

theorem Steady.trans (h : m.Steady m') (h' : m'.Steady m'') : m.Steady m'' :=
  ⟨h'.start.trans h.start, h'.total.trans h.total, h'.drift.trans h.drift⟩

/-- What a frame contains does not matter. -/
theorem Steady.of_data (m : Frames) (data : ℕ → Bytes) : m.Steady { m with data := data } :=
  ⟨rfl, rfl, rfl⟩

/-- The zeros when one count changes. -/
theorem zeros_withCount (ha : m.Avail f) (n fp : ℕ) :
    (m.withCount f n fp).zeros + (if m.p_bit_map f = 0 then 1 else 0) =
      m.zeros + if n = 0 then 1 else 0 := by
  have hmem : f ∈ Finset.Ico m.start m.total := Finset.mem_Ico.2 ha
  have hsum : ∀ p : ℕ → ℕ, ((Finset.Ico m.start m.total).filter fun i => p i = 0).card =
      (if p f = 0 then 1 else 0) +
        ∑ i ∈ (Finset.Ico m.start m.total).erase f, if p i = 0 then 1 else 0 := by
    intro p
    rw [Finset.card_filter]
    exact (Finset.add_sum_erase _ _ hmem).symm
  have hrest : ∀ i ∈ (Finset.Ico m.start m.total).erase f,
      (if update m.p_bit_map f n i = 0 then 1 else 0) = if m.p_bit_map i = 0 then 1 else 0 := by
    intro i hi
    rw [update_of_ne (Finset.ne_of_mem_erase hi)]
  show ((Finset.Ico m.start m.total).filter fun i => update m.p_bit_map f n i = 0).card + _ = _
  rw [zeros, hsum (update m.p_bit_map f n), hsum m.p_bit_map, Finset.sum_congr rfl hrest, update_self]
  omega

/-- A frame in use stays in use. -/
theorem Steady.of_ne_zero (h : m.p_bit_map f ≠ 0) (hn : n ≠ 0) :
    m.Steady (m.withCount f n m.free_pages) := by
  refine ⟨rfl, rfl, ?_⟩
  have hz : (m.withCount f n m.free_pages).zeros = m.zeros := by
    refine congrArg Finset.card (Finset.filter_congr fun i _ => ?_)
    show update m.p_bit_map f n i = 0 ↔ _
    by_cases hi : i = f
    · rw [hi, update_self]
      exact iff_of_false hn h
    · rw [update_of_ne hi]
  unfold Frames.drift
  rw [hz]
  rfl

end

/-! ## The operations count right -/

section
variable {m m' : Frames} {task task' : Space} {f vaddr : ℕ}

theorem getPPageFrom_pos {n i : ℕ} (h : getPPageFrom m n i = .ok (m', f)) : m.free_pages ≠ 0 := by
  induction n generalizing i with
  | zero => cases h
  | succ n ih =>
    unfold getPPageFrom at h
    split_ifs at h with h0 hp
    · exact h0
    · exact h0

theorem steady_getPPage (h : getPPage m = .ok (m', f)) : m.Steady m' := by
  have hpos := getPPageFrom_pos h
  obtain ⟨ha, h0, rfl⟩ := getPPage_spec h
  refine ⟨rfl, rfl, ?_⟩
  have hz := zeros_withCount ha 1 (m.free_pages - 1)
  rw [if_pos h0, if_neg Nat.one_ne_zero] at hz
  have hfp : (m.withCount f 1 (m.free_pages - 1)).free_pages = m.free_pages - 1 := rfl
  unfold drift
  rw [hfp]
  omega

theorem steady_freePPage (h : freePPage m f = .ok m') : m.Steady m' := by
  simp only [freePPage, cassert_bind_eq_ok, pure_eq_ok] at h
  obtain ⟨ha, hp, -, h⟩ := h
  cases h
  refine ⟨rfl, rfl, ?_⟩
  by_cases hl : m.p_bit_map f - 1 = 0
  · have hz := zeros_withCount ha (m.p_bit_map f - 1) (m.free_pages + 1)
    rw [if_neg (by omega), if_pos hl] at hz
    rw [if_pos hl]
    show ((m.free_pages + 1 : ℕ) : ℤ) - ((m.withCount f (m.p_bit_map f - 1) (m.free_pages + 1)).zeros : ℤ)
      = m.free_pages - m.zeros
    omega
  · rw [if_neg hl]
    exact (Steady.of_ne_zero (by omega) hl).drift

theorem steady_copyPhyPage {page : ℕ} (h : copyPhyPage m page = .ok (m', f)) : m.Steady m' := by
  obtain ⟨⟨m₁, g⟩, h₁, h⟩ := bind_eq_ok.1 h
  cases h
  exact (steady_getPPage h₁).trans (.of_data m₁ _)

theorem steady_getPte {pde pde' : ℕ → ℕ} {exist : Bool} {pte : ℕ}
    (h : Rdix.getPte m pde vaddr exist = .ok (m', pde', pte)) : m.Steady m' := by
  unfold Rdix.getPte at h
  split_ifs at h with hp
  · cases h
    exact .refl m
  · obtain ⟨-, h⟩ := cassert_bind_eq_ok.1 h
    obtain ⟨⟨m₁, g⟩, h₁, h⟩ := bind_eq_ok.1 h
    cases h
    exact (steady_getPPage h₁).trans (.of_data m₁ _)

theorem steady_linkPage (h : Rdix.linkPage m task vaddr = .ok (m', task')) : m.Steady m' := by
  obtain ⟨⟨m₁, pde, pte⟩, h₁, h⟩ := bind_eq_ok.1 h
  obtain ⟨mapped, -, h⟩ := bind_eq_ok.1 h
  obtain ⟨-, h⟩ := cassert_bind_eq_ok.1 h
  split_ifs at h with hp
  · cases h
    exact steady_getPte h₁
  · obtain ⟨⟨m₂, paddr⟩, h₂, h⟩ := bind_eq_ok.1 h
    cases h
    exact ((steady_getPte h₁).trans (steady_getPPage h₂)).trans (.of_data m₂ _)

theorem steady_unlinkPage (h : Rdix.unlinkPage m task vaddr = .ok (m', task')) : m.Steady m' := by
  obtain ⟨⟨m₁, pde, pte⟩, h₁, h⟩ := bind_eq_ok.1 h
  refine (steady_getPte h₁).trans ?_
  split_ifs at h with hd
  · obtain ⟨-, h⟩ := cassert_bind_eq_ok.1 h
    obtain ⟨m₂, h₂, h⟩ := bind_eq_ok.1 h
    cases h
    exact steady_freePPage h₂
  · obtain ⟨-, h⟩ := cassert_bind_eq_ok.1 h
    obtain ⟨m₂, h₂, h⟩ := bind_eq_ok.1 h
    cases h
    exact (Steady.of_data m₁ _).trans (steady_freePPage h₂)

theorem steady_brkLoop {brk fuel tmp : ℕ} (h : brkLoop m task brk fuel tmp = .ok (m', task')) :
    m.Steady m' := by
  induction fuel generalizing m task tmp with
  | zero => cases h
  | succ fuel ih =>
    unfold brkLoop at h
    split_ifs at h with hb
    · cases h
      exact .refl _
    · obtain ⟨⟨m₁, task₁⟩, h₁, h⟩ := bind_eq_ok.1 h
      exact (steady_unlinkPage h₁).trans (ih h)

theorem steady_sysBrk {brk : ℕ} (h : sysBrk m task brk = .ok (m', task')) : m.Steady m' := by
  obtain ⟨-, h⟩ := cassert_bind_eq_ok.1 h
  split_ifs at h with hlt hfree
  · obtain ⟨⟨m₁, task₁⟩, h₁, h⟩ := bind_eq_ok.1 h
    cases h
    exact steady_brkLoop h₁
  · cases h
    exact .refl _

/-- The shared frame keeps a holder at least. -/
theorem steady_writeFault (h : Rdix.writeFault m task vaddr = .ok (m', task')) : m.Steady m' := by
  obtain ⟨⟨m₁, pde, pte⟩, h₁, h⟩ := bind_eq_ok.1 h
  refine (steady_getPte h₁).trans ?_
  obtain ⟨hpos, h⟩ := cassert_bind_eq_ok.1 h
  split_ifs at h with h1
  · cases h
    exact ⟨rfl, rfl, rfl⟩
  · obtain ⟨⟨m₂, paddr⟩, h₂, h⟩ := bind_eq_ok.1 h
    cases h
    set idx := entIndex (m₁.entry pte (tidx vaddr))
    have h₀ : m₁.Steady (m₁.withCount idx (m₁.p_bit_map idx - 1) m₁.free_pages) :=
      .of_ne_zero (by omega) (by omega)
    exact (h₀.trans (steady_copyPhyPage h₂)).trans (.of_data m₂ _)

theorem steady_pageFault {present write : Bool}
    (h : pageFault m task vaddr present write = .ok (m', task')) : m.Steady m' := by
  unfold pageFault at h
  split_ifs at h
  · exact steady_writeFault h
  · exact steady_linkPage h

theorem steady_freeEntry {pte n : ℕ} (h : freeEntry m pte n = .ok m') : m.Steady m' := by
  unfold freeEntry at h
  by_cases hp : entPresent (m.entry pte n) = true
  · rw [if_neg (not_not.2 hp)] at h
    obtain ⟨-, h⟩ := cassert_bind_eq_ok.1 h
    exact steady_freePPage h
  · rw [if_pos hp] at h
    cases h
    exact .refl m

theorem steady_freeEntries {pte n : ℕ} (h : freeEntries m pte n = .ok m') : m.Steady m' := by
  induction n generalizing m' with
  | zero =>
    cases h
    exact .refl m
  | succ n ih =>
    obtain ⟨m₁, h₁, h⟩ := bind_eq_ok.1 h
    exact (ih h₁).trans (steady_freeEntry h)

theorem steady_freePde {pde : ℕ → ℕ} (h : Rdix.freePde m pde = .ok m') : m.Steady m' := by
  have hrun : ∀ n m', freePdeTurns pde m n = .ok m' → m.Steady m' := by
    intro n
    induction n with
    | zero =>
      intro m' h
      cases h
      exact .refl m
    | succ n ih =>
      intro m' h
      obtain ⟨m₁, h₁, h⟩ := bind_eq_ok.1 h
      refine (ih m₁ h₁).trans ?_
      unfold freePdeTurn at h
      by_cases hp : entPresent (pde (firstDidx + n)) = true
      · rw [if_neg (not_not.2 hp)] at h
        obtain ⟨m₂, h₂, h⟩ := bind_eq_ok.1 h
        exact (steady_freeEntries h₂).trans (steady_freePPage h)
      · rw [if_pos hp] at h
        cases h
        exact .refl m'
  exact hrun _ m' h

theorem steady_sysTest (h : sysTest m task = .ok (m', task')) : m.Steady m' := by
  obtain ⟨⟨m₁, task₁⟩, h₁, h⟩ := bind_eq_ok.1 h
  obtain ⟨c, -, h⟩ := bind_eq_ok.1 h
  exact ((steady_linkPage h₁).trans (.of_data m₁ _)).trans (steady_unlinkPage h)

end

/-! ## Sharing -/

section
variable {m m' : Frames} {own : ℕ → Prop} {dirs : Dirs} {p c : Fin taskNum} {d : UserDidx}
  {pte n : ℕ} {P : Page → Option Bytes}

/-- `copy_pde` raises a count by hand, but none that is 0 or would become 0. -/
theorem Sharing.steady (S : m.Sharing own dirs p c d pte n P) (hn : n < 1024)
    (h : shareEntry m pte n = .ok m') : m.Steady m' := by
  have hent := held_entry S.table ⟨n, hn⟩
  unfold shareEntry at h
  by_cases hp : entPresent (m.entry pte n) = true
  · rw [if_neg (not_not.2 hp)] at h
    obtain ⟨-, h⟩ := cassert_bind_eq_ok.1 h
    cases h
    set g := entIndex (m.entry pte n)
    have hx : m.held dirs (p, d, some ⟨n, hn⟩) = some (g, entWrite (m.entry pte n)) :=
      hent.trans (pteOf_eq_some.2 ⟨hp, rfl, rfl⟩)
    have hle := S.counted.le_card (S.counted.held _ _ _ (S.le_shared hx))
    have hpos := S.counted.pos (S.le_shared hx)
    rw [Fintype.card_fin] at hle
    have hmod : (m.p_bit_map g + 1) % 256 ≠ 0 := by
      simp only [taskNum] at hle
      omega
    exact (Steady.of_ne_zero (by omega) hmod).trans (.of_data _ _)
  · rw [if_pos hp] at h
    cases h
    exact .refl m

theorem Sharing.steady_run (S : m.Sharing own dirs p c d pte 0 P) (hn : n ≤ 1024)
    (h : shareEntries m pte n = .ok m') : m.Steady m' := by
  induction n generalizing m' with
  | zero =>
    cases h
    exact .refl m
  | succ n ih =>
    obtain ⟨m₁, h₁, h⟩ := bind_eq_ok.1 h
    exact (ih (by omega) h₁).trans ((S.run (by omega) h₁).1.steady hn h)

theorem Copying.steady {child : ℕ → ℕ} (H : m.Ok own (m.held dirs)) (hpc : p ≠ c)
    (hc : ∀ d, m.held dirs (c, d, none) = none) (hn : n ≤ 1023 - firstDidx)
    (h : copyPdeTurns (dirs p) m n = .ok (m', child)) : m.Steady m' := by
  induction n generalizing m' child with
  | zero =>
    cases h
    exact .refl m
  | succ n ih =>
    obtain ⟨⟨m₁, child₁⟩, h₁, h⟩ := bind_eq_ok.1 h
    refine (ih (by omega) h₁).trans ?_
    have hsh := (Copying.run H hpc hc (by omega) h₁).sharing hpc (by omega)
    replace h : copyPdeTurn (dirs p) m₁ child₁ (firstDidx + n) = .ok (m', child) := h
    unfold copyPdeTurn at h
    by_cases hp : entPresent (child₁ (firstDidx + n)) = true
    · rw [if_neg (not_not.2 hp)] at h
      obtain ⟨m₂, h₂, h⟩ := bind_eq_ok.1 h
      obtain ⟨⟨m₃, paddr⟩, h₃, h⟩ := bind_eq_ok.1 h
      cases h
      exact ((hsh hp).steady_run le_rfl h₂).trans (steady_copyPhyPage h₃)
    · rw [if_pos hp] at h
      cases h
      exact .refl _

end

end Frames

/-! ## Steps of tasks -/

/-- **Every step counts right.** -/
theorem Tasks.MemInv.steady {s s' : Tasks} {a : TaskAct} (I : s.MemInv) (h : TaskStep s a s') :
    s.frames.Steady s'.frames := by
  cases h with
  | create h =>
    obtain ⟨pid, -, h⟩ := bind_eq_ok.1 h
    cases h
    exact .refl _
  | toUser _ h =>
    obtain ⟨vmap, -, h⟩ := bind_eq_ok.1 h
    rw [Frames.copyPde_of_absent I.noTable] at h
    cases h
    exact .refl _
  | @fork pid t space child _ ha h =>
    obtain ⟨c, hc, h⟩ := bind_eq_ok.1 h
    obtain ⟨⟨m, pde⟩, hm, h⟩ := bind_eq_ok.1 h
    cases h
    have hfree := Tasks.getTask_spec hc
    have hne : pid ≠ child := by
      rintro rfl
      rw [ha.1] at hfree
      cases hfree
    have hd : s.dirs pid = space.pde := ha.dirs_eq
    exact Frames.Copying.steady I.ok hne (Tasks.held_of_dirs _ (Tasks.dirs_of_none hfree)) le_rfl
      (hd ▸ hm)
  | exit _ h =>
    obtain ⟨m, hm, h⟩ := bind_eq_ok.1 h
    obtain ⟨hf, -, -⟩ := Tasks.leave_spec h
    rw [hf]
    exact Frames.steady_freePde hm
  | exitBlock _ => exact .refl _
  | exitWait _ _ _ _ _ => exact .refl _
  | exitEnd _ _ _ h =>
    obtain ⟨m, hm, h⟩ := bind_eq_ok.1 h
    obtain ⟨hf, -, -⟩ := Tasks.leave_spec h
    rw [hf]
    exact Frames.steady_freePde hm
  | threadExit _ h =>
    obtain ⟨hf, -, -⟩ := Tasks.leave_spec h
    rw [hf]
    exact .refl _
  | @waitpid pid t space arg ha =>
    have hf : (sysWaitpid s pid t arg).frames = s.frames := by
      unfold sysWaitpid
      cases findChild s pid arg with
      | none => rfl
      | some i =>
        simp only
        split_ifs <;> rfl
    rw [hf]
    exact .refl _
  | wakeup _ _ => exact .refl _
  | brk _ _ h => exact Frames.steady_sysBrk h
  | test _ h => exact Frames.steady_sysTest h
  | fault _ _ _ h => exact Frames.steady_pageFault h
  | store _ _ _ => exact .of_data _ _
  | storeTable _ _ _ => exact .of_data _ _
  | storeDir _ _ => exact .refl _

/-! ## Booting -/

/-- An entry of a memory map. -/
structure MemAdrs where
  base : ℕ
  length : ℕ
  type : ℕ

/-- `BIOS_MEM_SIZE`. -/
abbrev biosMemSize : ℕ := 0x100000

/-- What the boot loader hands over, by its magic number: the entries of a memory map, for
    multiboot if there is one. -/
inductive BootInfo where
  | rdix (entries : List MemAdrs)
  | multiboot (entries : Option (List MemAdrs))
  | other

/-- The loop over the entries: the last one that counts gives `mem_base` and `mem_size`. -/
def memEntry (mem : ℕ × ℕ) (info : MemAdrs) : ℕ × ℕ :=
  if info.type = 1 ∧ info.base = biosMemSize then (info.base, u32 info.length) else mem

/-- `mem_base` and `mem_size`. -/
def BootInfo.mem : BootInfo → C (ℕ × ℕ)
  | .rdix entries => return entries.foldl memEntry (0, 0)
  | .multiboot (some entries) => return entries.foldl memEntry (0, 0)
  | .multiboot none => throw (.panic "Boot infomation error\n")
  | .other => return (0, 0)

/-- `data` is what the memory contains. -/
def memoryInit (data : ℕ → Bytes) (info : BootInfo) : C Frames := do
  let (mem_base, mem_size) ← info.mem
  if mem_base % pageSize ≠ 0 ∨ mem_size % pageSize ≠ 0 then
    throw (.panic "mem_base or mem_size is not a multiple of PAGE_SIZE\n")
  else if mem_base ≠ biosMemSize then
    throw (.panic "Memory discontinuity: mem_base != BIOS_MEM_SIZE\n")
  else
    let total_pages := mem_size / pageSize + biosMemSize / pageSize
    let p_map_pages := (total_pages + pageSize - 1) / pageSize
    let start := biosMemSize / pageSize + p_map_pages
    return { start := start, total := total_pages
             p_bit_map := fun i => if i < start then 1 else 0
             free_pages := u32 (mem_size / pageSize + 2 ^ 32 - p_map_pages), data := data }

/-- The turn of the inner loop of `page_mode_init` for entry `tmp_idx` of the table `pte`. -/
def mapPage (m : Frames) (pte tmp_idx idx : ℕ) : Frames :=
  if idx = 0 then m
  else { m.setEntry pte tmp_idx (entryInit idx) with p_bit_map := update m.p_bit_map idx 1 }

/-- The first `n` turns of it, from the page `idx` on. -/
def mapPages (m : Frames) (pte idx : ℕ) : ℕ → Frames
  | 0 => m
  | n + 1 => mapPage (mapPages m pte idx n) pte n (idx + n)

/-- The first `n` turns of the outer loop: the tables are the frames from 2 on. -/
def mapTables (m : Frames) : ℕ → Frames × (ℕ → ℕ)
  | 0 => (m, fun _ => 0)
  | n + 1 =>
    let (m, pde) := mapTables m n
    let m := { m with data := update m.data (2 + n) fun _ => 0#8 }
    (mapPages m (2 + n) (1024 * n) 1024, update pde n (entryInit (2 + n)))

/-- The frames, and the directory of the kernel in frame 1. -/
def pageModeInit (m : Frames) : Frames × (ℕ → ℕ) :=
  let (m, pde) := mapTables m 4
  (m, update pde 1023 (entryInit 1))

def memPgInit (data : ℕ → Bytes) (info : BootInfo) : C (Frames × (ℕ → ℕ)) := do
  return pageModeInit (← memoryInit data info)

/-- `IO_MEM_START`. -/
abbrev ioMemStart : ℕ := 0x1000000

/-- The loop of `link_nppage`, its first `n` turns. -/
def linkEntries (m : Frames) (pte tidx idx : ℕ) : ℕ → Frames
  | 0 => m
  | n + 1 => (linkEntries m pte tidx idx n).setEntry pte (tidx + n) (entryInit (idx + n))

/-- With the new value of `start_io_memory`.  An entry behind the last one is outside the table. -/
def linkNppage (m : Frames) (pde : ℕ → ℕ) (start_io_memory addr size : ℕ) :
    C (Frames × (ℕ → ℕ) × ℕ) := do
  cassert (ioMemStart ≤ start_io_memory ∧ u32 (start_io_memory + size) ≤ kernelMemerySize)
    "start_io_memory >= IO_MEM_START && (start_io_memory + size) <= KERNEL_MEMERY_SIZE"
  let (m, pde, pte) ← getPte m pde start_io_memory false
  let pg_num := u32 (size + pageSize - 1) / pageSize
  if 1024 < tidx start_io_memory + pg_num then throw (.wild "entry")
  else return (linkEntries m pte (tidx start_io_memory) (addr / pageSize) pg_num, pde,
    u32 (start_io_memory + pg_num * pageSize))

/-- From the end of `mem_pg_init` on, before there are tasks: the memory of devices is mapped, at
    most 2 GiB for each. -/
inductive Booting (data : ℕ → Bytes) (info : BootInfo) : Frames → (ℕ → ℕ) → ℕ → Prop where
  | init {m pde} : memPgInit data info = .ok (m, pde) → Booting data info m pde ioMemStart
  | link {m pde io addr size r} : Booting data info m pde io → 0 < size → size ≤ 2 ^ 31 →
      linkNppage m pde io addr size = .ok r → Booting data info r.1 r.2.1 r.2.2

/-- The tasks from the end of `mem_pg_init` on. -/
def bootSys (data : ℕ → Bytes) (info : BootInfo) : Sys Tasks TaskAct where
  init s := (∃ io, Booting data info s.frames s.kpde io) ∧ ∀ pid, s.task_bucket pid = none
  step := TaskStep

/-- The loader reports memory from 1 MiB to 16 MiB at least, in whole pages. -/
structure BootInfo.Usable (info : BootInfo) (mem_size : ℕ) : Prop where
  mem : info.mem = .ok (biosMemSize, mem_size)
  aligned : mem_size % pageSize = 0
  large : 0xf00000 ≤ mem_size

section
variable {data : ℕ → Bytes} {info : BootInfo} {mem_size : ℕ} {m : Frames} {pde : ℕ → ℕ}

/-- Of a length only the low 32 bits are kept. -/
theorem BootInfo.mem_lt {mem_base : ℕ} (h : info.mem = .ok (mem_base, mem_size)) :
    mem_size < 2 ^ 32 := by
  have hfold : ∀ (entries : List MemAdrs) (mem : ℕ × ℕ), mem.2 < 2 ^ 32 →
      (entries.foldl memEntry mem).2 < 2 ^ 32 := by
    intro entries
    induction entries with
    | nil => exact fun mem h => h
    | cons e entries ih =>
      intro mem h
      refine ih _ ?_
      unfold memEntry
      split_ifs
      · exact Nat.mod_lt _ (by decide)
      · exact h
  have hp : ∀ entries : List MemAdrs, (Except.ok (entries.foldl memEntry (0, 0)) : C (ℕ × ℕ)) =
      .ok (mem_base, mem_size) → mem_size < 2 ^ 32 := by
    intro entries he
    have := hfold entries (0, 0) (by decide)
    rwa [Except.ok.inj he] at this
  cases info with
  | rdix entries => exact hp entries h
  | multiboot o =>
    cases o with
    | none => cases h
    | some entries => exact hp entries h
  | other =>
    cases h
    decide

theorem mapPages_spec (m : Frames) (pte idx n : ℕ) :
    (mapPages m pte idx n).start = m.start ∧ (mapPages m pte idx n).total = m.total ∧
      (mapPages m pte idx n).free_pages = m.free_pages ∧
      ∀ i, (mapPages m pte idx n).p_bit_map i =
        if idx ≤ i ∧ i < idx + n ∧ i ≠ 0 then 1 else m.p_bit_map i := by
  induction n with
  | zero => exact ⟨rfl, rfl, rfl, fun i => (if_neg (by omega)).symm⟩
  | succ n ih =>
    obtain ⟨hs, hT, hf, hp⟩ := ih
    unfold mapPages mapPage
    by_cases h0 : idx + n = 0
    · rw [if_pos h0]
      refine ⟨hs, hT, hf, fun i => ?_⟩
      rw [hp, if_neg (by omega), if_neg (by omega)]
    · rw [if_neg h0]
      refine ⟨hs, hT, hf, fun i => ?_⟩
      show update (mapPages m pte idx n).p_bit_map (idx + n) 1 i = _
      by_cases hi : i = idx + n
      · rw [hi, update_self, if_pos (by omega)]
      · rw [update_of_ne hi, hp]
        exact if_congr (by omega) rfl rfl

theorem mapTables_spec (m : Frames) (n : ℕ) :
    (mapTables m n).1.start = m.start ∧ (mapTables m n).1.total = m.total ∧
      (mapTables m n).1.free_pages = m.free_pages ∧
      (∀ i, (mapTables m n).1.p_bit_map i = if i < 1024 * n ∧ i ≠ 0 then 1 else m.p_bit_map i) ∧
      ∀ k, n ≤ k → (mapTables m n).2 k = 0 := by
  induction n with
  | zero => exact ⟨rfl, rfl, rfl, fun i => (if_neg (by omega)).symm, fun k _ => rfl⟩
  | succ n ih =>
    obtain ⟨hs, hT, hf, hp, hk⟩ := ih
    obtain ⟨hs', hT', hf', hp'⟩ := mapPages_spec { (mapTables m n).1 with
      data := update (mapTables m n).1.data (2 + n) fun _ => 0#8 } (2 + n) (1024 * n) 1024
    refine ⟨hs'.trans hs, hT'.trans hT, hf'.trans hf, fun i => ?_, fun k h => ?_⟩
    · refine (hp' i).trans ?_
      by_cases hi : 1024 * n ≤ i ∧ i < 1024 * n + 1024 ∧ i ≠ 0
      · rw [if_pos hi, if_pos (by omega)]
      · rw [if_neg hi]
        refine (hp i).trans (if_congr (by omega) rfl rfl)
    · show update _ n _ k = 0
      rw [update_of_ne (by omega)]
      exact hk k (by omega)

/-- What `mem_pg_init` leaves. -/
structure MemPgInit (m : Frames) (pde : ℕ → ℕ) (mem_size : ℕ) : Prop where
  start : m.start = 256 + (m.total + 4095) / 4096
  start_lt : m.start < 4096
  total : m.total = mem_size / pageSize + 256
  counts : ∀ i, m.p_bit_map i = if i < 4096 then 1 else 0
  free_pages : m.free_pages + m.start = m.total
  pde : ∀ k, 4 ≤ k → k ≠ 1023 → pde k = 0

theorem memPgInit_eq (data : ℕ → Bytes) (h : info.Usable mem_size) :
    ∃ m pde, memPgInit data info = .ok (m, pde) ∧ MemPgInit m pde mem_size := by
  obtain ⟨hmem, hal, hl⟩ := h
  have hlt := info.mem_lt hmem
  set p_map_pages := (mem_size / pageSize + biosMemSize / pageSize + pageSize - 1) / pageSize with hpm
  set start := biosMemSize / pageSize + p_map_pages with hstart
  set m₀ : Frames := { start := start, total := mem_size / pageSize + biosMemSize / pageSize
                       p_bit_map := fun i => if i < start then 1 else 0
                       free_pages := u32 (mem_size / pageSize + 2 ^ 32 - p_map_pages)
                       data := data } with hm₀
  have hinit : memoryInit data info = .ok m₀ := by
    rw [memoryInit, hmem]
    show (if _ then _ else if _ then _ else _) = _
    rw [if_neg (by simp only [pageSize, biosMemSize] at hal ⊢; omega), if_neg (by simp)]
    rfl
  simp only [pageSize, biosMemSize] at hpm hstart
  obtain ⟨hs, hT, hf, hp, hk⟩ := mapTables_spec m₀ 4
  refine ⟨(pageModeInit m₀).1, (pageModeInit m₀).2, ?_, ?_, ?_, ?_, fun i => ?_, ?_, fun k h4 hk' => ?_⟩
  · rw [memPgInit, hinit]
    rfl
  · show (mapTables m₀ 4).1.start = 256 + ((mapTables m₀ 4).1.total + 4095) / 4096
    rw [hs, hT]
    show start = 256 + (mem_size / pageSize + biosMemSize / pageSize + 4095) / 4096
    simp only [pageSize, biosMemSize]
    omega
  · refine hs.trans_lt ?_
    show start < 4096
    omega
  · exact hT
  · refine (hp i).trans ?_
    show (if _ then _ else if i < start then 1 else 0) = _
    split_ifs <;> omega
  · show (mapTables m₀ 4).1.free_pages + (mapTables m₀ 4).1.start = (mapTables m₀ 4).1.total
    rw [hs, hT, hf]
    show u32 (mem_size / pageSize + 2 ^ 32 - p_map_pages) + start =
      mem_size / pageSize + biosMemSize / pageSize
    simp only [u32, pageSize, biosMemSize]
    omega
  · show update _ 1023 _ k = 0
    rw [update_of_ne hk']
    exact hk k h4

/-- The frames below 16 MiB that `memory_init` has counted as free are marked, not counted. -/
theorem MemPgInit.zeros (h : MemPgInit m pde mem_size) (hl : 0xf00000 ≤ mem_size) :
    m.free_pages = m.zeros + (4096 - m.start) := by
  obtain ⟨-, hs, hT, hp, hf, -⟩ := h
  simp only [pageSize] at hT
  have hz : m.zeros = m.total - 4096 := by
    have hfil : ((Finset.Ico m.start m.total).filter fun i => m.p_bit_map i = 0) =
        Finset.Ico 4096 m.total := by
      ext i
      rw [Finset.mem_filter, Finset.mem_Ico, Finset.mem_Ico, hp]
      by_cases hi : i < 4096
      · rw [if_pos hi]
        omega
      · rw [if_neg hi]
        omega
    rw [Frames.zeros, hfil, Nat.card_Ico]
  omega

/-- The invariant of booting. -/
structure BootInv (m₀ m : Frames) (pde : ℕ → ℕ) (io : ℕ) : Prop where
  steady : m₀.Steady m
  used : ∀ f, m.Avail f → (m.p_bit_map f = 0 ↔ 4096 ≤ f ∧ tableOf (pde 4) ≠ some f)
  noTable : ∀ d : UserDidx, entPresent (pde (firstDidx + d)) = false
  io : io ≤ 2 ^ 30

theorem MemPgInit.bootInv (h : MemPgInit m pde mem_size) : BootInv m m pde ioMemStart := by
  refine ⟨.refl m, fun f _ => ?_, fun d => ?_, by decide⟩
  · rw [h.counts, h.pde 4 le_rfl (by decide), tableOf_zero]
    by_cases hf : f < 4096
    · rw [if_pos hf]
      exact iff_of_false Nat.one_ne_zero fun hn => absurd hn.1 (by omega)
    · rw [if_neg hf]
      exact iff_of_true rfl ⟨by omega, nofun⟩
  · have := d.isLt
    simp only [firstDidx, kernelMemerySize] at this ⊢
    rw [h.pde _ (by omega) (by omega)]
    rfl

theorem linkEntries_spec (m : Frames) (pte t idx n : ℕ) :
    (linkEntries m pte t idx n).p_bit_map = m.p_bit_map ∧ m.Steady (linkEntries m pte t idx n) := by
  induction n with
  | zero => exact ⟨rfl, .refl m⟩
  | succ n ih => exact ⟨ih.1, ih.2.trans (.of_data _ _)⟩

/-- The page table for the memory of devices is the only frame that is taken. -/
theorem BootInv.link {m₀ : Frames} {io addr size : ℕ} {r : Frames × (ℕ → ℕ) × ℕ}
    (I : BootInv m₀ m pde io) (h0 : 0 < size) (hs : size ≤ 2 ^ 31)
    (h : linkNppage m pde io addr size = .ok r) : BootInv m₀ r.1 r.2.1 r.2.2 := by
  have hio := I.io
  obtain ⟨⟨hlo, hhi⟩, h⟩ := cassert_bind_eq_ok.1 h
  simp only [u32, ioMemStart, kernelMemerySize] at hlo hhi
  have hd : didx io = 4 := by
    unfold didx
    omega
  obtain ⟨⟨m₁, pde₁, pte⟩, h₁, h⟩ := bind_eq_ok.1 h
  dsimp only at h
  split_ifs at h with ht
  cases h
  obtain ⟨hp, hst⟩ := linkEntries_spec m₁ pte (tidx io) (addr / pageSize)
    (u32 (size + pageSize - 1) / pageSize)
  refine ⟨(I.steady.trans (Frames.steady_getPte h₁)).trans hst, ?_, ?_, ?_⟩
  · intro f hf
    have hav : m.Avail f := by
      unfold Frames.Avail at hf ⊢
      have hm := (Frames.steady_getPte h₁).trans hst
      rwa [hm.start, hm.total] at hf
    show (linkEntries _ _ _ _ _).p_bit_map f = 0 ↔ 4096 ≤ f ∧ tableOf (pde₁ 4) ≠ some f
    rw [hp]
    unfold getPte at h₁
    rw [hd] at h₁
    by_cases hpr : entPresent (pde 4) = true
    · rw [if_pos hpr] at h₁
      cases h₁
      exact I.used f hav
    · rw [if_neg hpr] at h₁
      obtain ⟨-, h₁⟩ := cassert_bind_eq_ok.1 h₁
      obtain ⟨⟨m₂, g⟩, h₂, h₁⟩ := bind_eq_ok.1 h₁
      obtain ⟨-, hg, rfl⟩ := getPPage_spec h₂
      cases h₁
      show update m.p_bit_map pte 1 f = 0 ↔ _
      rw [update_self, tableOf_entryInit]
      by_cases hfg : f = pte
      · rw [hfg, update_self]
        exact iff_of_false Nat.one_ne_zero fun hn => hn.2 rfl
      · rw [update_of_ne hfg, I.used f hav, tableOf_of_absent (Bool.eq_false_iff.2 hpr)]
        simp [Ne.symm hfg]
  · intro d
    have hne : firstDidx + (d : ℕ) ≠ 4 := by
      simp only [firstDidx, kernelMemerySize]
      omega
    unfold getPte at h₁
    rw [hd] at h₁
    by_cases hpr : entPresent (pde 4) = true
    · rw [if_pos hpr] at h₁
      cases h₁
      exact I.noTable d
    · rw [if_neg hpr] at h₁
      obtain ⟨-, h₁⟩ := cassert_bind_eq_ok.1 h₁
      obtain ⟨⟨m₂, g⟩, -, h₁⟩ := bind_eq_ok.1 h₁
      cases h₁
      show entPresent (update pde 4 _ (firstDidx + d)) = false
      rw [update_of_ne hne]
      exact I.noTable d
  · show u32 (io + u32 (size + pageSize - 1) / pageSize * pageSize) ≤ 2 ^ 30
    simp only [u32, pageSize]
    omega

theorem Booting.inv {m₀ : Frames} {pde₀ : ℕ → ℕ} {io : ℕ} (hm : memPgInit data info = .ok (m₀, pde₀))
    (h₀ : MemPgInit m₀ pde₀ mem_size) (h : Booting data info m pde io) : BootInv m₀ m pde io := by
  induction h with
  | init h =>
    rw [hm] at h
    cases h
    exact h₀.bootInv
  | link _ hpos hs hl ih => exact ih.link hpos hs hl

/-- **From booting on the drift stays.** -/
theorem steady_reach {m₀ : Frames} {pde₀ : ℕ → ℕ} (hm : memPgInit data info = .ok (m₀, pde₀))
    (h₀ : MemPgInit m₀ pde₀ mem_size) (hT : m₀.total ≤ 2 ^ 20) {s : Tasks}
    (h : ((bootSys data info).restrict Tasks.Careful).Reach s) :
    m₀.Steady s.frames := by
  have H : s.MemInv ∧ s.NoneLeft ∧ m₀.Steady s.frames := by
    refine Sys.Reach.invariant (S := (bootSys data info).restrict Tasks.Careful)
      (I := fun s => s.MemInv ∧ s.NoneLeft ∧ m₀.Steady s.frames) ?_ ?_ h
    · rintro s ⟨⟨io, hb⟩, hn⟩
      obtain ⟨hst, hu, ht, -⟩ := hb.inv hm h₀
      have hB : Booted s := ⟨hst.total.trans_le hT, hu, ht, hn⟩
      exact ⟨.of_booted hB, Tasks.noneLeft_of_booted hB, hst⟩
    · rintro s a s' ⟨I, N, hst⟩ hs
      exact ⟨(I.step N hs.1 hs.2).1, N.step hs.1 hs.2, hst.trans (I.steady hs.2)⟩
  exact H.2.2

/-- Without a free frame, and with `free_pages` above 0, the loop runs out. -/
theorem getPPage_wild (h0 : m.free_pages ≠ 0) (hz : m.zeros = 0) :
    getPPage m = .error (.wild "get_p_page") := by
  have hall : ∀ i, m.Avail i → m.p_bit_map i ≠ 0 := by
    intro i hi hc
    refine (Finset.card_pos.2 ⟨i, ?_⟩).ne' hz
    exact Finset.mem_filter.2 ⟨Finset.mem_Ico.2 hi, hc⟩
  have hrun : ∀ n i, m.start ≤ i → i + n ≤ m.total ∨ n = 0 →
      getPPageFrom m n i = .error (.wild "get_p_page") := by
    intro n
    induction n with
    | zero => exact fun i _ _ => rfl
    | succ n ih =>
      intro i hi hn
      rw [getPPageFrom, if_neg h0, if_pos (hall i ⟨hi, by omega⟩)]
      exact ih (i + 1) (by omega) (by omega)
  exact hrun _ _ le_rfl (by omega)

/-- **Main result.** At the end of `mem_pg_init` `free_pages` is above the number of free frames,
    whatever the memory map: by the frames from `start_available_p_page_idx` to 16 MiB.  It stays so
    in every run, and `get_p_page` runs out of its loop when there is no free frame. -/
theorem free_pages_never (data : ℕ → Bytes) (h : info.Usable mem_size) :
    ∃ m pde, memPgInit data info = .ok (m, pde) ∧ m.start < 4096 ∧
      m.free_pages = m.zeros + (4096 - m.start) ∧
      (m.total ≤ 2 ^ 20 → ∀ s, ((bootSys data info).restrict Tasks.Careful).Reach s →
        s.frames.start = m.start ∧ s.frames.free_pages = s.frames.zeros + (4096 - m.start) ∧
        (s.frames.zeros = 0 → getPPage s.frames = .error (.wild "get_p_page"))) := by
  obtain ⟨m, pde, hm, h₀⟩ := memPgInit_eq data h
  have hz := h₀.zeros h.large
  have hlt := h₀.start_lt
  refine ⟨m, pde, hm, hlt, hz, fun hT s hs => ?_⟩
  have hst := steady_reach hm h₀ hT hs
  have hd : (s.frames.free_pages : ℤ) - s.frames.zeros = m.free_pages - m.zeros := hst.drift
  have hfp : s.frames.free_pages = s.frames.zeros + (4096 - m.start) := by omega
  exact ⟨hst.start, hfp, getPPage_wild (by omega)⟩

end

/-- 31 MiB from 1 MiB on. -/
def memMap : BootInfo := .rdix [⟨0x100000, 0x1f00000, 1⟩]

theorem usable_memMap : memMap.Usable 0x1f00000 :=
  ⟨rfl, by decide, by decide⟩

theorem free_pages_never_memMap : ∃ m pde, memPgInit (fun _ _ => 0#8) memMap = .ok (m, pde) ∧
    m.free_pages ≠ m.zeros := by
  obtain ⟨m, pde, hm, hs, hf, -⟩ := free_pages_never (fun _ _ => 0#8) usable_memMap
  exact ⟨m, pde, hm, by omega⟩

/-- After booting 3838 of the 7934 frames of `free_pages` are in use. -/
theorem free_pages_boot : ∃ s, (bootSys (fun _ _ => 0#8) memMap).Reach s ∧
    s.frames.free_pages = 7934 ∧ s.frames.zeros = 4096 := by
  obtain ⟨m, pde, hm, h⟩ := memPgInit_eq (fun _ _ => 0#8) usable_memMap
  have hz := h.zeros usable_memMap.large
  obtain ⟨hs, -, hT, -, hf, -⟩ := h
  simp only [pageSize] at hT
  refine ⟨⟨m, pde, fun _ => none⟩, .init ⟨⟨_, .init hm⟩, fun _ => rfl⟩, ?_, ?_⟩
  · show m.free_pages = 7934
    omega
  · show m.zeros = 4096
    omega

end Rdix
