/-
  The break of a task (kernel/memory.c: sys_brk, unlink_page).

  * `BrkMoves`: what `sys_brk` is there for, with the pages that a lower break gives back;
  * `brkLoop_once`: its loop unlinks one page, and fails in a second turn;
  * `brk_moves_iff`: it moves the break exactly when the caller keeps to the range and gives back
    one page at most, which is mapped.
-/
import Rdix.Kernel.FreePages
import Rdix.Kernel.Fresh

namespace Rdix

open Function Transition

/-! ## A page is given back -/

namespace Frames

/-- The assertion of `free_p_page` on `free_pages` holds when frame `f` is given back. -/
def Takes (m : Frames) (f : ℕ) : Prop :=
  0 < (if m.p_bit_map f = 1 then m.free_pages + 1 else m.free_pages) ∧
    (if m.p_bit_map f = 1 then m.free_pages + 1 else m.free_pages) < m.total

section
variable {m m' : Frames} {own : ℕ → Prop} {dirs : Dirs} {i : Fin taskNum} {d : UserDidx}
  {t : Fin 1024} {f : ℕ} {task task' : Space} {vaddr : ℕ}

theorem freePPage_eq (ha : m.Avail f) (hp : 1 ≤ m.p_bit_map f) (ht : m.Takes f) :
    ∃ fp, freePPage m f = .ok (m.withCount f (m.p_bit_map f - 1) fp) := by
  have hiff : m.p_bit_map f - 1 = 0 ↔ m.p_bit_map f = 1 := by omega
  unfold Takes at ht
  unfold Avail at ha
  refine ⟨if m.p_bit_map f = 1 then m.free_pages + 1 else m.free_pages, ?_⟩
  simp only [freePPage, cassert_pos ha, cassert_pos hp, ok_bind, hiff, cassert_pos ht, pure_eq_ok]
  rfl

theorem takes_of_ok (h : freePPage m f = .ok m') : m.Takes f := by
  obtain ⟨-, h⟩ := cassert_bind_eq_ok.1 h
  obtain ⟨hp, h⟩ := cassert_bind_eq_ok.1 h
  obtain ⟨ht, -⟩ := cassert_bind_eq_ok.1 h
  have hiff : m.p_bit_map f - 1 = 0 ↔ m.p_bit_map f = 1 := by omega
  simp only [hiff] at ht
  exact ht

/-- The entry of the page is cleared, and its frame is counted down. -/
structure Unlinked (m m' : Frames) (dirs : Dirs) (x : Fin taskNum × Spot) (g : ℕ) : Prop where
  takes : m.Takes g
  held : m'.held dirs = update (m.held dirs) x none
  count : m'.p_bit_map = update m.p_bit_map g (m.p_bit_map g - 1)

theorem Ok.unlinkPage_spec (H : m.Ok own (m.held dirs)) (hd : didx vaddr = firstDidx + d)
    (htx : tidx vaddr = t) (hi : dirs i = task.pde)
    (h : Rdix.unlinkPage m task vaddr = .ok (m', task')) :
    task' = task ∧ ∃ g b, m.held dirs (ent (i, d, t)) = some (g, b) ∧
      m.Unlinked m' dirs (ent (i, d, t)) g := by
  obtain ⟨rfl, pte, g, b, ht, hx, h₂⟩ := H.unlinkPage_cases hd htx hi h
  have htk := takes_of_ok h₂
  obtain ⟨-, fp, rfl⟩ := freePPage_spec h₂
  refine ⟨rfl, g, b, hx, htk, ?_, rfl⟩
  rw [held_withCount, held_setEntry ht (H.table_unique ht) (clearPresent_lt entry_lt),
    pteOf_clearPresent]
  rfl

theorem Ok.unlinkPage_eq (H : m.Ok own (m.held dirs)) (ha : ∀ f, own f → m.Avail f)
    (hd : didx vaddr = firstDidx + d) (htx : tidx vaddr = t) (hi : dirs i = task.pde) {b : Bool}
    (hx : m.held dirs (ent (i, d, t)) = some (f, b)) (ht : m.Takes f) :
    ∃ m', Rdix.unlinkPage m task vaddr = .ok (m', task) := by
  obtain ⟨pte, hpte, he⟩ := held_table hx
  obtain ⟨hp, hf, -⟩ := pteOf_eq_some.1 he
  obtain ⟨g, hg, hgp⟩ := Option.map_eq_some_iff.1 hpte
  cases hgp
  obtain ⟨hpr, hidx⟩ : entPresent (task.pde (firstDidx + d)) = true ∧
      entIndex (task.pde (firstDidx + d)) = pte := by
    rw [hi] at hg
    unfold tableOf at hg
    split_ifs at hg with hpr
    exact ⟨hpr, Option.some.inj hg⟩
  obtain ⟨fp, hfp⟩ := freePPage_eq (m := m.setEntry pte t (clearPresent (m.entry pte t)))
    (ha f (H.counted.held _ _ _ hx)) (H.counted.pos hx) ht
  refine ⟨(m.setEntry pte t (clearPresent (m.entry pte t))).withCount f (m.p_bit_map f - 1) fp, ?_⟩
  rw [Rdix.unlinkPage, Rdix.getPte, hd, if_pos hpr, hidx]
  simp only [pure_eq_ok, ok_bind, if_neg (user_ne_window d), htx, cassert_pos hp, hf, hfp]
  rfl

end

end Frames

/-! ## sys_brk -/

/-- The range that `sys_brk` wants to assert. -/
def BrkRange (brk : ℕ) : Prop := kernelMemerySize < brk ∧ brk < userStackBottom - pageSize

/-- The assertion that does not check it. -/
abbrev rangeCheck : Halt := .assert "KERNEL_MEMERY_SIZE < brk < (USER_STACK_BOTTOM - PAGE_SIZE)"

/-- The number of a page in the address space. -/
def pageIdx (y : Frames.Page) : ℕ := (firstDidx + y.2.1) * 1024 + y.2.2

/-- The pages of task `pid` that lie wholly between a new break and an old one. -/
def Between (pid : Pid) (brk old : ℕ) (y : Frames.Page) : Prop :=
  y.1 = pid ∧ brk ≤ pageIdx y * pageSize ∧ (pageIdx y + 1) * pageSize ≤ old

instance (pid : Pid) (brk old : ℕ) (y : Frames.Page) : Decidable (Between pid brk old y) :=
  inferInstanceAs (Decidable (_ ∧ _))

/-- Exactly the pages between `brk` and `old` are unmapped, and each gives back one count. -/
structure Unmaps (s s' : Tasks) (pid : Pid) (brk old : ℕ) : Prop where
  pages : ∀ y, s'.frames.held s'.dirs (Frames.ent y) =
    if Between pid brk old y then none else s.frames.held s.dirs (Frames.ent y)
  tables : ∀ i d, s'.frames.held s'.dirs (i, d, none) = s.frames.held s.dirs (i, d, none)
  counts : ∀ f, s'.frames.p_bit_map f + (Finset.univ.filter fun y => Between pid brk old y ∧
      (s.frames.held s.dirs (Frames.ent y)).map Prod.fst = some f).card = s.frames.p_bit_map f

/-- `sys_brk(brk)` moves the break exactly: a request outside the range is refused or changes
    nothing, a lower break gives back the pages above it, and a higher one is only noted. -/
structure BrkMoves (s : Tasks) (pid : Pid) (t : Tcb) (space : Space) (brk : ℕ) : Prop where
  outside : ¬ BrkRange brk → sysBrk s.frames space brk = .ok (s.frames, space) ∨
    sysBrk s.frames space brk = .error rangeCheck
  lower : BrkRange brk → brk < space.brk → ∃ r, sysBrk s.frames space brk = .ok r ∧
    r.2 = { space with brk := brk } ∧ Unmaps s (s.setSpace pid t r) pid brk space.brk
  higher : BrkRange brk → space.brk ≤ brk → sysBrk s.frames space brk =
    if s.frames.free_pages < (brk - space.brk) / pageSize then .error (.panic "out of memory")
    else .ok (s.frames, { space with brk := brk })
  range : ∀ r, sysBrk s.frames space brk = .ok r → BrkRange r.2.brk

/-- What the caller has to see to: the request is in the range, and it does not lower the break, or
    by one page only, which is mapped and starts at the new break. -/
structure BrkCare (s : Tasks) (space : Space) (brk : ℕ) : Prop where
  range : BrkRange brk
  lower : brk < space.brk → brk % pageSize = 0 ∧ space.brk = brk + pageSize ∧
    ∃ f b, s.frames.walk space.pde brk = some (f, b) ∧ s.frames.Takes f

section
variable {m m' : Frames} {own : ℕ → Prop} {dirs : Dirs} {pid : Pid} {y : Frames.Page}
  {task task' space : Space} {brk : ℕ} {s : Tasks} {t : Tcb}

/-- **The range is not checked.** -/
theorem sysBrk_unchecked (m : Frames) (task : Space) (brk : ℕ) :
    sysBrk m task brk =
      if brk < task.brk then
        brkLoop m task brk (2 ^ 20 + 1) brk >>= fun r => .ok (r.1, { r.2 with brk := brk })
      else if m.free_pages < (brk - task.brk) / pageSize then .error (.panic "out of memory")
      else .ok (m, { task with brk := brk }) := by
  have hc : (if kernelMemerySize < brk then 1 else 0) < userStackBottom - pageSize := by
    split_ifs <;> norm_num
  rw [sysBrk, cassert_pos hc]
  rfl

/-- No other assertion reports the range. -/
theorem unlinkPage_ne (m : Frames) (task : Space) (vaddr : ℕ) :
    unlinkPage m task vaddr ≠ .error rangeCheck := by
  have hget : getPte m task.pde vaddr true ≠ .error rangeCheck := by
    rw [getPte]
    split_ifs <;> simp
  have hfree : ∀ m f, freePPage m f ≠ .error rangeCheck := by
    intro m f h
    simp only [freePPage, cassert] at h
    split_ifs at h <;> simp at h
  have hpres : ∀ w, cassert (entPresent w = true) "entry->present" ≠ .error rangeCheck := by
    intro w h
    unfold cassert at h
    split_ifs at h
    simp at h
  intro h
  rcases bind_eq_error.1 h with h | ⟨⟨m₁, pde, pte⟩, -, h⟩
  · exact hget h
  · dsimp only at h
    split_ifs at h with hd
    · rcases bind_eq_error.1 h with h | ⟨_, -, h⟩
      · exact hpres _ h
      rcases bind_eq_error.1 h with h | ⟨_, -, h⟩
      · exact hfree _ _ h
      · cases h
    · rcases bind_eq_error.1 h with h | ⟨_, -, h⟩
      · exact hpres _ h
      rcases bind_eq_error.1 h with h | ⟨_, -, h⟩
      · exact hfree _ _ h
      · cases h

theorem brkLoop_ne {fuel tmp : ℕ} : brkLoop m task brk fuel tmp ≠ .error rangeCheck := by
  intro h
  induction fuel generalizing m task tmp with
  | zero => simp [brkLoop] at h
  | succ fuel ih =>
    unfold brkLoop at h
    split_ifs at h with hb
    · cases h
    · rcases bind_eq_error.1 h with h | ⟨r, -, h⟩
      · exact unlinkPage_ne _ _ _ h
      · exact ih h

/-- The page is not there any more. -/
theorem unlinkPage_twice (H : m.Ok own (m.held dirs)) (hy : Tasks.OfAddr y pid brk)
    (hd : dirs pid = task.pde) (h : unlinkPage m task brk = .ok (m', task)) (r : Frames × Space) :
    unlinkPage m' task brk ≠ .ok r := by
  obtain ⟨rfl, hx, ht⟩ := hy
  obtain ⟨G, -⟩ := H.unlinkPage hx ht hd h
  rw [← hd, update_eq_self] at G
  obtain ⟨-, g, b, -, hu⟩ := H.unlinkPage_spec hx ht hd h
  intro h'
  obtain ⟨-, g', b', hg', -⟩ := G.ok.unlinkPage_spec hx ht hd h'
  rw [hu.held, show Frames.ent (y.1, y.2.1, y.2.2) = Frames.ent y from rfl, update_self] at hg'
  cases hg'

/-- **The loop unlinks one page**: in a second turn it is the same page. -/
theorem brkLoop_once (H : m.Ok own (m.held dirs)) (hy : Tasks.OfAddr y pid brk)
    (hd : dirs pid = task.pde) (hr : BrkRange brk) (hlt : brk < task.brk) {fuel : ℕ}
    {r : Frames × Space} (h : brkLoop m task brk (fuel + 1 + 1) brk = .ok r) :
    task.brk ≤ brk + pageSize ∧ unlinkPage m task brk = .ok r ∧ r.2 = task := by
  have hu : u32 (brk + pageSize) = brk + pageSize := by
    have := hr.2
    norm_num at this
    exact u32_of_lt (by norm_num; omega)
  rw [brkLoop, if_neg (by omega)] at h
  obtain ⟨⟨m₁, task₁⟩, h₁, h₂⟩ := bind_eq_ok.1 h
  obtain ⟨rfl, -⟩ := H.unlinkPage_spec hy.didx hy.tidx (hy.pid ▸ hd) h₁
  dsimp only at h₂
  rw [brkLoop, hu] at h₂
  by_cases hle : task₁.brk ≤ brk + pageSize
  · rw [if_pos hle] at h₂
    cases h₂
    exact ⟨hle, h₁, rfl⟩
  · rw [if_neg hle] at h₂
    obtain ⟨r₂, h₃, -⟩ := bind_eq_ok.1 h₂
    exact absurd h₃ (unlinkPage_twice H hy hd h₁ r₂)

/-- The new break is what was asked for. -/
theorem sysBrk_brk {r : Frames × Space} (h : sysBrk m task brk = .ok r) : r.2.brk = brk := by
  rw [sysBrk_unchecked] at h
  split_ifs at h with hlt
  · obtain ⟨r₀, -, h⟩ := bind_eq_ok.1 h
    cases h
    rfl
  · cases h
    rfl

theorem pageIdx_eq (hy : Tasks.OfAddr y pid brk) : pageIdx y = brk / pageSize := by
  have hd := hy.didx
  have ht := hy.tidx
  simp only [pageIdx, pageSize, didx, tidx] at *
  omega

theorem pageIdx_inj {z : Frames.Page} (hp : z.1 = y.1) (h : pageIdx z = pageIdx y) : z = y := by
  obtain ⟨i, d, t⟩ := z
  obtain ⟨j, e, u⟩ := y
  obtain rfl : i = j := hp
  simp only [pageIdx] at h
  have hd : (d : ℕ) = e := by omega
  have ht : (t : ℕ) = u := by omega
  rw [Fin.ext hd, Fin.ext ht]

theorem BrkRange.userAddr (h : BrkRange brk) : UserAddr brk := by
  have h2 := h.2
  norm_num at h2
  exact ⟨h.1.le, by omega⟩

theorem setSpace_dirs (ha : s.At pid t (some space)) (m' : Frames) (brk : ℕ) :
    (s.setSpace pid t (m', { space with brk := brk })).dirs = s.dirs := by
  have hd : s.dirs pid = space.pde := ha.dirs_eq
  show (s.set pid _).dirs = _
  rw [Tasks.dirs_set]
  show update s.dirs pid space.pde = _
  rw [← hd, update_eq_self]

/-- Whoever sees the break move exactly has taken care. -/
theorem BrkMoves.care (I : s.MemInv) (ha : s.At pid t (some space)) (h : BrkMoves s pid t space brk) :
    BrkCare s space brk := by
  have hd : s.dirs pid = space.pde := ha.dirs_eq
  have hr : BrkRange brk := by
    by_contra hn
    rcases h.outside hn with ho | ho
    · exact hn (sysBrk_brk ho ▸ h.range _ ho)
    · rw [sysBrk_unchecked] at ho
      split_ifs at ho
      · rcases bind_eq_error.1 ho with ho | ⟨_, -, ho⟩
        · exact brkLoop_ne ho
        · cases ho
      · simp at ho
  refine ⟨hr, fun hlt => ?_⟩
  obtain ⟨r, hs, -, hu⟩ := h.lower hr hlt
  rw [sysBrk_unchecked, if_pos hlt] at hs
  obtain ⟨⟨m₁, task₁⟩, hl, hs⟩ := bind_eq_ok.1 hs
  cases hs
  obtain ⟨y, hy⟩ := Tasks.exists_ofAddr pid hr.userAddr
  obtain ⟨hle, h₁, h₂⟩ := brkLoop_once I.ok hy hd hr hlt hl
  obtain rfl : task₁ = space := h₂
  obtain ⟨-, g, b, hg, hun⟩ := I.ok.unlinkPage_spec hy.didx hy.tidx (hy.pid ▸ hd) h₁
  -- the page is unmapped, so it has to be one of those between the breaks
  have hb : Between pid brk task₁.brk y := by
    by_contra hn
    have hp := hu.pages y
    rw [if_neg hn, setSpace_dirs ha] at hp
    have hx : m₁.held s.dirs (Frames.ent y) = none := by
      rw [hun.held]
      exact update_self ..
    rw [show (s.setSpace pid t (m₁, { task₁ with brk := brk })).frames = m₁ from rfl, hx] at hp
    cases hp.trans hg
  obtain ⟨-, hb₁, hb₂⟩ := hb
  rw [pageIdx_eq hy] at hb₁ hb₂
  simp only [pageSize] at hb₁ hb₂ hle ⊢
  refine ⟨by omega, by omega, g, entWrite (task₁.pde (didx brk)) && b, ?_, hun.takes⟩
  rw [Tasks.walk_eq hy hd]
  exact congrArg (Option.map _) hg

/-- The one page between the breaks. -/
theorem between_iff (hy : Tasks.OfAddr y pid brk) (hal : brk % pageSize = 0) (z : Frames.Page) :
    Between pid brk (brk + pageSize) z ↔ z = y := by
  have hi := pageIdx_eq hy
  simp only [pageSize] at hi hal
  constructor
  · rintro ⟨hp, h1, h2⟩
    simp only [pageSize] at h1 h2
    exact pageIdx_inj (hp.trans hy.pid.symm) (by omega)
  · rintro rfl
    refine ⟨hy.pid, ?_, ?_⟩
    · simp only [pageSize]
      omega
    · simp only [pageSize]
      omega

theorem unmaps_of_unlinked (ha : s.At pid t (some space)) (hy : Tasks.OfAddr y pid brk)
    (hal : brk % pageSize = 0) {g : ℕ} {b : Bool}
    (hg : s.frames.held s.dirs (Frames.ent y) = some (g, b)) (hpos : 0 < s.frames.p_bit_map g)
    (hu : s.frames.Unlinked m' s.dirs (Frames.ent y) g) :
    Unmaps s (s.setSpace pid t (m', { space with brk := brk })) pid brk (brk + pageSize) := by
  have hf : (s.setSpace pid t (m', { space with brk := brk })).frames = m' := rfl
  refine ⟨fun z => ?_, fun i d => ?_, fun f => ?_⟩
  · rw [setSpace_dirs ha, hf, hu.held]
    by_cases hz : z = y
    · rw [if_pos ((between_iff hy hal z).2 hz), hz, update_self]
    · rw [if_neg fun hb => hz ((between_iff hy hal z).1 hb),
        update_of_ne fun he => hz (Frames.ent_injective he)]
  · rw [setSpace_dirs ha, hf, hu.held, update_of_ne (by simp [Frames.ent])]
  · rw [hf, hu.count]
    simp only [between_iff hy hal]
    by_cases hfg : f = g
    · have hs : (Finset.univ.filter fun z => z = y ∧
          (s.frames.held s.dirs (Frames.ent z)).map Prod.fst = some f) = {y} := by
        ext z
        simp only [Finset.mem_filter, Finset.mem_univ, true_and, Finset.mem_singleton]
        refine ⟨And.left, fun hz => ⟨hz, ?_⟩⟩
        rw [hz, hg, hfg, Option.map_some]
      rw [hs, Finset.card_singleton, hfg, update_self]
      omega
    · have hs : (Finset.univ.filter fun z => z = y ∧
          (s.frames.held s.dirs (Frames.ent z)).map Prod.fst = some f) = ∅ := by
        rw [Finset.filter_eq_empty_iff]
        rintro z - ⟨rfl, hz⟩
        rw [hg, Option.map_some] at hz
        exact hfg (Option.some.inj hz).symm
      rw [hs, Finset.card_empty, update_of_ne hfg, Nat.add_zero]

theorem BrkCare.moves (I : s.MemInv) (ha : s.At pid t (some space)) (h : BrkCare s space brk) :
    BrkMoves s pid t space brk := by
  have hd : s.dirs pid = space.pde := ha.dirs_eq
  refine ⟨fun hn => absurd h.range hn, fun _ hlt => ?_, fun _ hle => ?_, fun r hr => ?_⟩
  · obtain ⟨hal, hold, f, b, hw, htk⟩ := h.lower hlt
    obtain ⟨y, hy⟩ := Tasks.exists_ofAddr pid h.range.userAddr
    rw [Tasks.walk_eq hy hd] at hw
    obtain ⟨⟨g, b'⟩, hg, he⟩ := Option.map_eq_some_iff.1 hw
    cases he
    obtain ⟨m', h₁⟩ := I.ok.unlinkPage_eq (fun f hf => hf.1) hy.didx hy.tidx (hy.pid ▸ hd) hg htk
    obtain ⟨-, g', b'', hg', hun⟩ := I.ok.unlinkPage_spec hy.didx hy.tidx (hy.pid ▸ hd) h₁
    cases hg'.symm.trans hg
    refine ⟨(m', { space with brk := brk }), ?_, rfl, ?_⟩
    · have hu : u32 (brk + pageSize) = space.brk := by
        have := h.range.2
        norm_num at this
        rw [hold]
        exact u32_of_lt (by norm_num; omega)
      rw [sysBrk_unchecked, if_pos hlt]
      show brkLoop _ _ _ (2 ^ 20 - 1 + 1 + 1) _ >>= _ = _
      rw [brkLoop, if_neg (by omega), h₁, ok_bind]
      dsimp only
      rw [brkLoop, hu, if_pos le_rfl]
      rfl
    · rw [hold]
      exact unmaps_of_unlinked ha hy hal hg (I.ok.counted.pos hg) hun
  · rw [sysBrk_unchecked, if_neg (by omega)]
  · rw [sysBrk_brk hr]
    exact h.range

/-- **Main result.** `sys_brk` moves the break exactly if and only if the request is in the range,
    which is not checked, and gives back one page at most, which has to be there. -/
theorem brk_moves_iff (I : s.MemInv) (ha : s.At pid t (some space)) :
    BrkMoves s pid t space brk ↔ BrkCare s space brk :=
  ⟨fun h => h.care I ha, fun h => h.moves I ha⟩

end

theorem memInv_oneUser : oneUser.MemInv :=
  Tasks.memInv_reach (reach_oneUser.restrict_mono fun _ _ => Tasks.careful_of_plain)

theorem noneLeft_oneUser : oneUser.NoneLeft :=
  Tasks.noneLeft_reach (reach_oneUser.restrict_mono fun _ _ => Tasks.careful_of_plain)

/-- A space with two pages below its break, the second of which may be used. -/
def heapSpace : Space :=
  { freshSpace with vmap := (bitmapInit pageSize (kernelMemerySize / pageSize)).put 1 true
                    brk := 0x1402000 }

/-- It is mapped. -/
def mappedSpace : Space :=
  { heapSpace with pde := update heapSpace.pde (didx 0x1401000) (entryInit 4096) }

def heapUser : Tcb := { user 0 with space := some heapSpace }

def mappedUser : Tcb := { user 0 with space := some mappedSpace }

/-- Task 1 has touched the page. -/
def mapped : Tasks :=
  (oneUser.setSpace 1 (user 0) (boot.frames, heapSpace)).setSpace 1 heapUser
    (linked boot.frames 4096 0x1401000, mappedSpace)

theorem at_mapped : mapped.At 1 mappedUser (some mappedSpace) := ⟨rfl, rfl, rfl⟩

theorem bitmapTest_heapSpace : bitmapTest heapSpace.vmap (0x1401000 / 4096) = .ok true := by
  have hfits : heapSpace.vmap.Fits := by
    simp [Bitmap.Fits, heapSpace, bitmapInit, pageSize, kernelMemerySize]
  have hidx : 0x1401000 / 4096 = heapSpace.vmap.offset + 1 := by
    simp [heapSpace, bitmapInit, pageSize, kernelMemerySize]
  have hlen : 1 < heapSpace.vmap.length * 8 := by simp [heapSpace, bitmapInit, pageSize]
  rw [hidx, bitmapTest_eq hfits hlen, heapSpace, Bitmap.bit_put, if_pos rfl]

theorem memInv_mapped : mapped.MemInv := by
  have hd : oneUser.dirs 1 = freshSpace.pde := at_oneUser.dirs_eq
  have I₁ : (oneUser.setSpace 1 (user 0) (boot.frames, heapSpace)).MemInv := by
    refine (memInv_oneUser.setSpace at_oneUser (P := oneUser.pages) ?_).1
    rw [show (boot.frames, heapSpace).2.pde = freshSpace.pde from rfl, ← hd, update_eq_self]
    exact ⟨memInv_oneUser.ok, rfl, rfl, rfl⟩
  have hw : (oneUser.setSpace 1 (user 0) (boot.frames, heapSpace)).frames.walk heapSpace.pde
      0x1401000 = none := by
    rw [Frames.walk, show tableOf (heapSpace.pde (didx 0x1401000)) = none from rfl]
    rfl
  have ha : (oneUser.setSpace 1 (user 0) (boot.frames, heapSpace)).At 1 heapUser (some heapSpace) :=
    ⟨rfl, rfl, rfl⟩
  refine (I₁.fault ha (show pageFault _ _ 0x1401000 _ true = .ok _ from ?_)).1
  rw [hw, pageFault, if_neg (by decide), if_neg (by decide), if_neg (by decide), if_neg (by decide),
    if_pos (by decide)]
  exact linkPage_linked unused_boot rfl bitmapTest_heapSpace

/-- A new task asks for one page; another gives one back that is mapped. -/
theorem brk_moves_one : BrkMoves oneUser 1 (user 0) freshSpace 0x1401000 ∧
    BrkMoves mapped 1 mappedUser mappedSpace 0x1401000 := by
  have hpde : mappedSpace.pde (didx 0x1401000) = entryInit 4096 := by
    show update heapSpace.pde (didx 0x1401000) (entryInit 4096) (didx 0x1401000) = _
    rw [update_self]
  refine ⟨(brk_moves_iff memInv_oneUser at_oneUser).2
    ⟨⟨by norm_num, by norm_num⟩, fun hlt => absurd hlt (by norm_num [freshSpace])⟩,
    (brk_moves_iff memInv_mapped at_mapped).2 ⟨⟨by norm_num, by norm_num⟩, fun _ =>
      ⟨by norm_num, rfl, 4097, true, walk_linked boot.frames (by norm_num) hpde rfl, ?_⟩⟩⟩
  have hp : mapped.frames.p_bit_map 4097 = 1 := by
    show update (update boot.frames.p_bit_map 4096 1) 4097 1 4097 = 1
    rw [update_self]
  refine ⟨?_, ?_⟩
  · rw [if_pos hp]
    exact Nat.succ_pos _
  · rw [if_pos hp]
    show 7932 + 1 < 8192
    decide

/-- Task 1 with two pages below its break, none of them touched. -/
def raisedSpace : Space := { freshSpace with brk := 0x1402000 }

def raised : Tasks := oneUser.setSpace 1 (user 0) (boot.frames, raisedSpace)

theorem brk_raised : sysBrk boot.frames freshSpace 0x1402000 = .ok (boot.frames, raisedSpace) := by
  rw [sysBrk_unchecked, if_neg (by norm_num [freshSpace]), if_neg (by norm_num [freshSpace, boot])]
  rfl

theorem step_raised : TaskStep oneUser (.brk 1 0x1402000) raised :=
  .brk at_oneUser.runs (by norm_num) brk_raised

theorem at_raised : raised.At 1 { user 0 with space := some raisedSpace } (some raisedSpace) :=
  ⟨rfl, rfl, rfl⟩

theorem memInv_raised : raised.MemInv :=
  (memInv_oneUser.step (a := .brk 1 0x1402000) noneLeft_oneUser
    (fun _ _ _ _ => ⟨by norm_num, by norm_num⟩) step_raised).1

/-- **It cannot give back the second page**, since that is not mapped. -/
theorem brk_untouched : taskSys.Reach raised ∧ BrkRange 0x1401000 ∧
    ¬ BrkMoves raised 1 { user 0 with space := some raisedSpace } raisedSpace 0x1401000 := by
  refine ⟨.step reach_oneUser.of_restrict step_raised, ⟨by norm_num, by norm_num⟩, fun h => ?_⟩
  obtain ⟨-, -, f, b, hw, -⟩ :=
    (h.care memInv_raised at_raised).lower (by norm_num [raisedSpace])
  rw [Frames.walk, show tableOf (raisedSpace.pde (didx 0x1401000)) = none from rfl] at hw
  cases hw

end Rdix
