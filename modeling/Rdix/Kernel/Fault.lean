/-
  The pages that a task may touch (kernel/memory.c: page_fault, link_page).

  * `Covers`: a fault maps a free frame at the legal addresses and reports an error elsewhere;
  * `UserInv`: the bitmap of a task is the one that `kernel_to_user` has made, in every run;
  * `page_fault_covers_iff`: the addresses of the stack are covered, and none below the break, whose
    pages the bitmap does not allow.
-/
import Rdix.Kernel.Brk

namespace Rdix

open Function Transition

/-! ## The pages that a task may touch -/

/-- The addresses that a fault may map: below the break, and in the stack. -/
def Legal (brk vaddr : ℕ) : Prop :=
  (kernelMemerySize ≤ vaddr ∧ vaddr < brk) ∨ (userStackBottom ≤ vaddr ∧ vaddr < userStackTop)

/-- `get_p_page` can be called `n` times. -/
def Frames.Enough (m : Frames) (n : ℕ) : Prop := n ≤ m.free_pages ∧ n ≤ m.free.length

/-- The frames that `link_page` takes: a page, and a table if there is none. -/
def pagesFor (pde : ℕ → ℕ) (vaddr : ℕ) : ℕ := if entPresent (pde (didx vaddr)) then 1 else 2

/-- How `get_p_page` ends without a frame. -/
def OutOfFrames (e : Halt) : Prop := e = .panic "Out of Memory" ∨ e = .wild "get_p_page"

/-- `page_fault` for an address that is not mapped covers the legal addresses: it maps a free frame
    while there are enough, and reports an error for all other addresses. -/
structure Covers (m : Frames) (task : Space) (vaddr : ℕ) (write : Bool) : Prop where
  maps : Legal task.brk vaddr → m.Enough (pagesFor task.pde vaddr) →
    ∃ r f b, pageFault m task vaddr false write = .ok r ∧ m.Avail f ∧ m.p_bit_map f = 0 ∧
      r.1.walk r.2.pde vaddr = some (f, b)
  out : Legal task.brk vaddr → ¬ m.Enough (pagesFor task.pde vaddr) →
    ∃ e, OutOfFrames e ∧ pageFault m task vaddr false write = .error e
  error : ¬ Legal task.brk vaddr → pageFault m task vaddr false write = .error .loop

namespace Frames

section
variable {m m' : Frames} {f : ℕ} {pde : ℕ → ℕ} {vaddr : ℕ}

theorem getPPage_ok (h : m.Enough 1) : ∃ r, Rdix.getPPage m = .ok r := by
  obtain ⟨f, hf⟩ := List.exists_mem_of_length_pos h.2
  obtain ⟨ha, hz⟩ := mem_free.1 hf
  exact getPPage_of_free (by have := h.1; omega) ha hz

theorem getPPage_out (h : ¬ m.Enough 1) : ∃ e, OutOfFrames e ∧ Rdix.getPPage m = .error e := by
  cases hg : Rdix.getPPage m with
  | ok r =>
    obtain ⟨m', f⟩ := r
    refine absurd ⟨?_, ?_⟩ h
    · have := getPPageFrom_pos hg
      omega
    · rw [getPPage_free hg, List.length_cons]
      omega
  | error e =>
    refine ⟨e, ?_, rfl⟩
    have hrun : ∀ n i, getPPageFrom m n i = .error e → OutOfFrames e := by
      intro n
      induction n with
      | zero =>
        intro i h
        cases h
        exact Or.inr rfl
      | succ n ih =>
        intro i h
        unfold getPPageFrom at h
        split_ifs at h
        · cases h
          exact Or.inl rfl
        · exact ih _ h
        · cases h
    exact hrun _ _ hg

/-- One frame less. -/
theorem enough_getPPage (h : Rdix.getPPage m = .ok (m', f)) (n : ℕ) :
    m'.Enough n ↔ m.Enough (n + 1) := by
  have hpos := getPPageFrom_pos h
  have hfree := getPPage_free h
  obtain ⟨-, -, rfl⟩ := getPPage_spec h
  unfold Enough
  rw [hfree, List.length_cons]
  show n ≤ m.free_pages - 1 ∧ _ ↔ _
  omega

theorem Enough.mono {n k : ℕ} (h : m.Enough n) (hk : k ≤ n) : m.Enough k :=
  ⟨hk.trans h.1, hk.trans h.2⟩

/-- The table of an address that is not mapped is there, or there is a frame for it. -/
theorem getPte_ok (hw : m.walk pde vaddr = none) (h : m.Enough (pagesFor pde vaddr - 1)) :
    ∃ m₁ pde₁ pte, Rdix.getPte m pde vaddr false = .ok (m₁, pde₁, pte) ∧
      entPresent (m₁.entry pte (tidx vaddr)) = false ∧
      (m₁.Enough 1 ↔ m.Enough (pagesFor pde vaddr)) := by
  unfold pagesFor at *
  by_cases hp : entPresent (pde (didx vaddr)) = true
  · rw [if_pos hp]
    refine ⟨m, pde, entIndex (pde (didx vaddr)), ?_, ?_, Iff.rfl⟩
    · rw [Rdix.getPte, if_pos hp]
      rfl
    · rw [walk, tableOf_of_present hp] at hw
      exact pteOf_eq_none.1 (Option.map_eq_none_iff.1 hw)
  · rw [if_neg hp] at h ⊢
    obtain ⟨⟨m₁, f⟩, h₁⟩ := getPPage_ok h
    refine ⟨m₁.fill f fun _ => 0#8, update pde (didx vaddr) (entryInit f), f, ?_, ?_, ?_⟩
    · rw [Rdix.getPte, if_neg hp, cassert_pos rfl, ok_bind, h₁]
      rfl
    · simp only [entry, fill, update_self]
      rw [ByteMem.load_zero]
      rfl
    · exact enough_getPPage h₁ 1

theorem getPte_out (h : ¬ m.Enough (pagesFor pde vaddr - 1)) :
    ∃ e, OutOfFrames e ∧ Rdix.getPte m pde vaddr false = .error e := by
  unfold pagesFor at h
  by_cases hp : entPresent (pde (didx vaddr)) = true
  · rw [if_pos hp] at h
    exact absurd ⟨Nat.zero_le _, Nat.zero_le _⟩ h
  · rw [if_neg hp] at h
    obtain ⟨e, he, hg⟩ := getPPage_out h
    refine ⟨e, he, ?_⟩
    rw [Rdix.getPte, if_neg hp, cassert_pos rfl, ok_bind, hg]
    rfl

section
variable {task : Space}

/-- A page that the bitmap allows. -/
theorem linkPage_ok (hT : m.total ≤ 2 ^ 20) (hw : m.walk task.pde vaddr = none)
    (hb : bitmapTest task.vmap (vaddr / 4096) = .ok true)
    (h : m.Enough (pagesFor task.pde vaddr)) :
    ∃ r f b, Rdix.linkPage m task vaddr = .ok r ∧ m.Avail f ∧ m.p_bit_map f = 0 ∧
      r.1.walk r.2.pde vaddr = some (f, b) := by
  obtain ⟨m₁, pde₁, pte, h₁, hz, hiff⟩ := getPte_ok hw (h.mono (Nat.sub_le _ _))
  obtain ⟨⟨m₂, g⟩, h₂⟩ := getPPage_ok (hiff.2 h)
  obtain ⟨⟨m', task'⟩, hl⟩ : ∃ r, Rdix.linkPage m task vaddr = .ok r := by
    rw [Rdix.linkPage, h₁]
    simp only [ok_bind, hb, cassert_pos, hz, Bool.false_eq_true, if_false, h₂]
    exact ⟨_, rfl⟩
  have hfree := linkPage_free hT hw hl
  have hlt : (if entPresent (task.pde (didx vaddr)) then 0 else 1) < m.free.length := by
    have := h.2
    unfold pagesFor at this
    split_ifs at this ⊢ <;> omega
  rw [List.getElem?_eq_getElem hlt] at hfree
  obtain ⟨⟨f, b⟩, hf, he⟩ := Option.map_eq_some_iff.1 hfree
  have hmem := List.getElem_mem hlt
  rw [← he] at hmem
  obtain ⟨ha, h0⟩ := mem_free.1 hmem
  exact ⟨_, f, b, hl, ha, h0, hf⟩

theorem linkPage_out (hw : m.walk task.pde vaddr = none)
    (hb : bitmapTest task.vmap (vaddr / 4096) = .ok true)
    (h : ¬ m.Enough (pagesFor task.pde vaddr)) :
    ∃ e, OutOfFrames e ∧ Rdix.linkPage m task vaddr = .error e := by
  by_cases h1 : m.Enough (pagesFor task.pde vaddr - 1)
  · obtain ⟨m₁, pde₁, pte, h₁, hz, hiff⟩ := getPte_ok hw h1
    obtain ⟨e, he, h₂⟩ := getPPage_out fun hn => h (hiff.1 hn)
    refine ⟨e, he, ?_⟩
    rw [Rdix.linkPage, h₁]
    simp only [ok_bind, hb, cassert_pos, hz, Bool.false_eq_true, if_false, h₂, error_bind]
  · obtain ⟨e, he, h₁⟩ := getPte_out h1
    refine ⟨e, he, ?_⟩
    rw [Rdix.linkPage, h₁]
    rfl

/-- A page that the bitmap does not allow. -/
theorem linkPage_denied (hw : m.walk task.pde vaddr = none)
    (hb : bitmapTest task.vmap (vaddr / 4096) = .ok false)
    (h : m.Enough (pagesFor task.pde vaddr - 1)) :
    Rdix.linkPage m task vaddr = .error (.assert "bitmap_test(vmap, PAGE_IDX(vaddr))") := by
  obtain ⟨m₁, pde₁, pte, h₁, -, -⟩ := getPte_ok hw h
  rw [Rdix.linkPage, h₁]
  simp [hb, cassert_neg]

end

end

end Frames

/-- The addresses of the stack. -/
def InStack (vaddr : ℕ) : Prop := userStackBottom ≤ vaddr ∧ vaddr < userStackTop

section
variable {m : Frames} {task : Space} {vaddr : ℕ} {write : Bool}

theorem pageFault_stack (h : InStack vaddr) :
    pageFault m task vaddr false write = linkPage m task vaddr := by
  obtain ⟨h1, h2⟩ := h
  norm_num at h1 h2
  rw [pageFault, if_neg (by omega), if_neg (by norm_num; omega), if_neg (by norm_num; omega),
    if_neg (by norm_num; omega), if_pos (by simp)]

theorem pageFault_illegal (h : ¬ Legal task.brk vaddr) :
    pageFault m task vaddr false write = .error .loop := by
  unfold Legal at h
  norm_num at h
  unfold pageFault
  norm_num
  intro h1 h2 h3 h4 h5
  omega

theorem pageFault_heap (hl : Legal task.brk vaddr) (hn : ¬ InStack vaddr) :
    pageFault m task vaddr false write =
      if vaddr < userStackBottom - pageSize then linkPage m task vaddr else .error .loop := by
  unfold Legal at hl
  unfold InStack at hn
  norm_num at hl hn
  unfold pageFault
  norm_num
  split_ifs <;> first | rfl | (exfalso; omega)

/-- The pages of the heap may not be used. -/
theorem bitmapTest_stackMap_heap (h : kernelMemerySize ≤ vaddr ∧ vaddr < userStackBottom) :
    bitmapTest stackMap (vaddr / 4096) = .ok false := by
  have hfits : stackMap.Fits := by
    simp [Bitmap.Fits, stackMap, bitmapInit, pageSize, kernelMemerySize]
  have hoff : stackMap.offset = 0x1400 := by
    simp [stackMap, bitmapInit, pageSize, kernelMemerySize]
  have hlen : stackMap.length = 4096 := by simp [stackMap, bitmapInit, pageSize]
  norm_num at h
  obtain ⟨i, hi⟩ : ∃ i, vaddr / 4096 = stackMap.offset + i :=
    ⟨vaddr / 4096 - 0x1400, by rw [hoff]; omega⟩
  have hi' : vaddr / 4096 = 0x1400 + i := by rw [hi, hoff]
  rw [hi, bitmapTest_eq hfits (by rw [hlen]; omega), stackMap, Bitmap.bit_putRun]
  simp only [userStackTop, userStackBottom, pageSize, kernelMemerySize]
  rw [decide_eq_false (by omega), Bool.false_or]
  simp [Bitmap.bit, bitmapInit]

end

/-! ## The bitmaps of the tasks -/

namespace Frames

section
variable {m m' : Frames} {task task' : Space} {vaddr : ℕ}

theorem vmap_linkPage (h : Rdix.linkPage m task vaddr = .ok (m', task')) :
    task'.vmap = task.vmap := by
  obtain ⟨⟨m₁, pde, pte⟩, -, h⟩ := bind_eq_ok.1 h
  obtain ⟨mapped, -, h⟩ := bind_eq_ok.1 h
  obtain ⟨-, h⟩ := cassert_bind_eq_ok.1 h
  split_ifs at h with hp
  · cases h
    rfl
  · obtain ⟨⟨m₂, paddr⟩, -, h⟩ := bind_eq_ok.1 h
    cases h
    rfl

theorem vmap_unlinkPage (h : Rdix.unlinkPage m task vaddr = .ok (m', task')) :
    task'.vmap = task.vmap := by
  obtain ⟨⟨m₁, pde, pte⟩, -, h⟩ := bind_eq_ok.1 h
  split_ifs at h with hd
  · obtain ⟨-, h⟩ := cassert_bind_eq_ok.1 h
    obtain ⟨m₂, -, h⟩ := bind_eq_ok.1 h
    cases h
    rfl
  · obtain ⟨-, h⟩ := cassert_bind_eq_ok.1 h
    obtain ⟨m₂, -, h⟩ := bind_eq_ok.1 h
    cases h
    rfl

theorem vmap_brkLoop {brk fuel tmp : ℕ} (h : brkLoop m task brk fuel tmp = .ok (m', task')) :
    task'.vmap = task.vmap := by
  induction fuel generalizing m task tmp with
  | zero => cases h
  | succ fuel ih =>
    unfold brkLoop at h
    split_ifs at h with hb
    · cases h
      rfl
    · obtain ⟨⟨m₁, task₁⟩, h₁, h⟩ := bind_eq_ok.1 h
      exact (ih h).trans (vmap_unlinkPage h₁)

theorem vmap_sysBrk {brk : ℕ} (h : sysBrk m task brk = .ok (m', task')) :
    task'.vmap = task.vmap := by
  obtain ⟨-, h⟩ := cassert_bind_eq_ok.1 h
  split_ifs at h with hlt hfree
  · obtain ⟨⟨m₁, task₁⟩, h₁, h⟩ := bind_eq_ok.1 h
    cases h
    show task₁.vmap = _
    exact vmap_brkLoop h₁
  · cases h
    rfl

theorem vmap_writeFault (h : Rdix.writeFault m task vaddr = .ok (m', task')) :
    task'.vmap = task.vmap := by
  obtain ⟨⟨m₁, pde, pte⟩, -, h⟩ := bind_eq_ok.1 h
  obtain ⟨-, h⟩ := cassert_bind_eq_ok.1 h
  split_ifs at h with h1
  · cases h
    rfl
  · obtain ⟨⟨m₂, paddr⟩, -, h⟩ := bind_eq_ok.1 h
    cases h
    rfl

theorem vmap_pageFault {present write : Bool}
    (h : pageFault m task vaddr present write = .ok (m', task')) : task'.vmap = task.vmap := by
  unfold pageFault at h
  split_ifs at h
  · exact vmap_writeFault h
  · exact vmap_linkPage h

theorem vmap_sysTest (h : sysTest m task = .ok (m', task')) : task'.vmap = task.vmap := by
  obtain ⟨⟨m₁, task₁⟩, h₁, h⟩ := bind_eq_ok.1 h
  obtain ⟨c, -, h⟩ := bind_eq_ok.1 h
  exact (vmap_unlinkPage h).trans (vmap_linkPage h₁)

theorem total_shareEntries {pte n : ℕ} (h : shareEntries m pte n = .ok m') :
    m'.total = m.total := by
  induction n generalizing m' with
  | zero =>
    cases h
    rfl
  | succ n ih =>
    obtain ⟨m₁, h₁, h⟩ := bind_eq_ok.1 h
    rw [← ih h₁]
    unfold shareEntry at h
    by_cases hp : entPresent (m₁.entry pte n) = true
    · rw [if_neg (not_not.2 hp)] at h
      obtain ⟨-, h⟩ := cassert_bind_eq_ok.1 h
      cases h
      rfl
    · rw [if_pos hp] at h
      cases h
      rfl

theorem total_copyPde {pde child : ℕ → ℕ} (h : Rdix.copyPde m pde = .ok (m', child)) :
    m'.total = m.total := by
  have hrun : ∀ n m' child, copyPdeTurns pde m n = .ok (m', child) → m'.total = m.total := by
    intro n
    induction n with
    | zero =>
      intro m' child h
      cases h
      rfl
    | succ n ih =>
      intro m' child h
      obtain ⟨⟨m₁, child₁⟩, h₁, h⟩ := bind_eq_ok.1 h
      rw [← ih _ _ h₁]
      replace h : copyPdeTurn pde m₁ child₁ (firstDidx + n) = .ok (m', child) := h
      unfold copyPdeTurn at h
      by_cases hp : entPresent (child₁ (firstDidx + n)) = true
      · rw [if_neg (not_not.2 hp)] at h
        obtain ⟨m₂, h₂, h⟩ := bind_eq_ok.1 h
        obtain ⟨⟨m₃, paddr⟩, h₃, h⟩ := bind_eq_ok.1 h
        cases h
        exact (steady_copyPhyPage h₃).total.trans (total_shareEntries h₂)
      · rw [if_pos hp] at h
        cases h
        rfl
  exact hrun _ _ _ h

end

end Frames

namespace Tasks

/-- Every user task has the bitmap that `kernel_to_user` has made. -/
structure UserInv (s : Tasks) : Prop where
  total : s.frames.total ≤ 2 ^ 20
  vmap : ∀ pid t space, s.task_bucket pid = some t → t.space = some space → space.vmap = stackMap

section
variable {s s' : Tasks} {pid : Pid} {t : Tcb} {space : Space} {a : TaskAct}

/-- A slot is changed. -/
theorem UserInv.set (I : s.UserInv) {o : Option Tcb} {m : Frames} (hm : m.total = s.frames.total)
    (ho : ∀ u space, o = some u → u.space = some space → space.vmap = stackMap) :
    ({ s with frames := m }.set pid o : Tasks).UserInv := by
  refine ⟨hm.trans_le I.total, fun j u space hu hs => ?_⟩
  by_cases hj : j = pid
  · simp only [Tasks.set, hj, update_self] at hu
    exact ho u space hu hs
  · simp only [Tasks.set, update_of_ne hj] at hu
    exact I.vmap j u space hu hs

/-- The spaces of the tasks stay. -/
theorem UserInv.of_key (I : s.UserInv) (hm : s'.frames.total = s.frames.total)
    (hk : ∀ i, (s'.task_bucket i).map key = (s.task_bucket i).map key) : s'.UserInv := by
  refine ⟨hm.trans_le I.total, fun j u space hu hs => ?_⟩
  have hj := hk j
  rw [hu, Option.map_some] at hj
  obtain ⟨v, hv, hkv⟩ := Option.map_eq_some_iff.1 hj.symm
  exact I.vmap j v space hv ((congrArg Prod.fst hkv).trans hs)

/-- A task with its old bitmap. -/
theorem UserInv.setSpace (I : s.UserInv) (ha : s.Runs pid t space) {r : Frames × Space}
    (hm : r.1.total = s.frames.total) (hv : r.2.vmap = space.vmap) :
    (s.setSpace pid t r).UserInv := by
  refine I.set hm ?_
  rintro u sp ⟨⟩ ⟨⟩
  exact hv.trans (I.vmap pid t space ha.1 ha.2.2)

/-- `sys_exit` behind the `iput`s. -/
theorem UserInv.exitRest (I : s.UserInv) {u : Tcb} (hu : ∀ sp, u.space = some sp → sp.vmap = stackMap)
    (h : Rdix.exitRest (s.set pid (some u)) pid t space = .ok s') : s'.UserInv := by
  obtain ⟨m, hm, h⟩ := bind_eq_ok.1 h
  obtain ⟨hf, -, hk⟩ := leave_spec h
  refine UserInv.of_key (I.set (o := some u) (Frames.steady_freePde hm).total ?_)
    (congrArg Frames.total hf) hk
  rintro v sp ⟨⟩ h
  exact hu sp h

theorem UserInv.step (I : s.UserInv) (h : TaskStep s a s') : s'.UserInv := by
  cases h with
  | create h =>
    obtain ⟨pid, -, h⟩ := bind_eq_ok.1 h
    cases h
    refine I.set rfl ?_
    rintro u sp ⟨⟩ h
    cases h
  | toUser _ h =>
    obtain ⟨vmap, hv, h⟩ := bind_eq_ok.1 h
    obtain ⟨⟨m, pde⟩, hm, h⟩ := bind_eq_ok.1 h
    cases h
    refine I.set (Frames.total_copyPde hm) ?_
    rintro u sp ⟨⟩ ⟨⟩
    exact (Except.ok.inj (markStack_stackMap.symm.trans hv)).symm
  | @fork pid t space child _ ha h =>
    obtain ⟨c, -, h⟩ := bind_eq_ok.1 h
    obtain ⟨⟨m, pde⟩, hm, h⟩ := bind_eq_ok.1 h
    cases h
    refine I.set (Frames.total_copyPde hm) ?_
    rintro u sp ⟨⟩ ⟨⟩
    exact I.vmap pid t space ha.1 ha.2.2
  | @exit pid t space _ ha h =>
    refine I.exitRest (u := { t with state := .died, space := none }) ?_ h
    rintro sp ⟨⟩
  | @exitBlock pid t space ha =>
    refine I.set (m := s.frames) rfl ?_
    rintro u sp ⟨⟩ h
    exact I.vmap pid t sp ha.1 h
  | exitWait _ _ _ _ _ => exact I.set (m := s.frames) rfl (by rintro u sp ⟨⟩)
  | @exitEnd pid t space _ ht _ hsp h =>
    exact I.exitRest (u := { t with state := .left }) (fun sp => I.vmap pid t sp ht) h
  | @threadExit pid t _ ha h =>
    obtain ⟨hf, -, hk⟩ := leave_spec h
    refine UserInv.of_key (I.set (o := some { t with state := .died }) (m := s.frames) rfl ?_)
      (congrArg Frames.total hf) hk
    rintro u sp ⟨⟩ h
    cases ha.2.2.symm.trans h
  | @waitpid pid t space arg ha =>
    unfold sysWaitpid
    cases findChild s pid arg with
    | none => exact I
    | some i =>
      dsimp only
      split_ifs
      · exact I.set (m := s.frames) rfl (by rintro u sp ⟨⟩)
      · refine I.set (m := s.frames) rfl ?_
        rintro u sp ⟨⟩ h
        exact I.vmap pid t sp ha.1 h
  | @wakeup pid t child ht _ =>
    have I₁ : (s.set pid (some { t with state := .ready })).UserInv := by
      refine I.set (m := s.frames) rfl ?_
      rintro u sp ⟨⟩ h
      exact I.vmap pid t sp ht h
    exact I₁.set (m := s.frames) rfl (by rintro u sp ⟨⟩)
  | brk ha _ h => exact I.setSpace ha (Frames.steady_sysBrk h).total (Frames.vmap_sysBrk h)
  | test ha h => exact I.setSpace ha.runs (Frames.steady_sysTest h).total (Frames.vmap_sysTest h)
  | fault ha _ _ h =>
    exact I.setSpace ha (Frames.steady_pageFault h).total (Frames.vmap_pageFault h)
  | store _ _ _ => exact ⟨I.total, I.vmap⟩
  | storeTable _ _ _ => exact ⟨I.total, I.vmap⟩
  | storeDir ha _ => exact I.setSpace ha rfl rfl

theorem UserInv.of_booted (h : Booted s) : s.UserInv := by
  refine ⟨h.total, fun pid t space ht => ?_⟩
  rw [h.noTask pid] at ht
  cases ht

theorem userInv_reach (h : taskSys.Reach s) : s.UserInv := by
  refine Sys.Reach.invariant (I := UserInv) ?_ ?_ h
  · intro s hs
    exact .of_booted hs
  · intro s a s' I hs
    exact I.step hs

end

end Tasks

/-! ## Covered addresses -/

/-- The address is not below the break, or it is one of the stack; or else there is no frame for its
    page table, so that `link_page` does not come to its assertion. -/
def FaultCare (m : Frames) (task : Space) (vaddr : ℕ) : Prop :=
  Legal task.brk vaddr → InStack vaddr ∨
    vaddr < userStackBottom - pageSize ∧ ¬ m.Enough (pagesFor task.pde vaddr - 1)

theorem not_outOfFrames_loop : ¬ OutOfFrames .loop := by
  rintro (h | h) <;> cases h

theorem not_outOfFrames_assert (exp : String) : ¬ OutOfFrames (.assert exp) := by
  rintro (h | h) <;> cases h

section
variable {m : Frames} {task : Space} {vaddr : ℕ} {write : Bool}

/-- An end that is no lack of frames does not cover a legal address. -/
theorem Covers.not_error (h : Covers m task vaddr write) (hl : Legal task.brk vaddr) {e : Halt}
    (he : ¬ OutOfFrames e) : pageFault m task vaddr false write ≠ .error e := by
  intro hf
  by_cases hm : m.Enough (pagesFor task.pde vaddr)
  · obtain ⟨r, f, b, hr, -⟩ := h.maps hl hm
    cases hr.symm.trans hf
  · obtain ⟨e', he', hr⟩ := h.out hl hm
    cases hr.symm.trans hf
    exact he he'

/-- **Where the faults of a task are covered.** -/
theorem covers_iff (hT : m.total ≤ 2 ^ 20) (hv : task.vmap = stackMap)
    (hw : m.walk task.pde vaddr = none) : Covers m task vaddr write ↔ FaultCare m task vaddr := by
  constructor
  · intro h hl
    by_contra hn
    rw [not_or, not_and, not_not] at hn
    obtain ⟨hs, he⟩ := hn
    have hf : pageFault m task vaddr false write = _ := pageFault_heap hl hs
    by_cases hlt : vaddr < userStackBottom - pageSize
    · rw [if_pos hlt, Frames.linkPage_denied hw ?_ (he hlt)] at hf
      · exact h.not_error hl (not_outOfFrames_assert _) hf
      · rw [hv]
        refine bitmapTest_stackMap_heap ⟨?_, hlt.trans_le (Nat.sub_le _ _)⟩
        exact hl.elim And.left fun hst => absurd hst hs
    · rw [if_neg hlt] at hf
      exact h.not_error hl not_outOfFrames_loop hf
  · intro hc
    refine ⟨fun hl hm => ?_, fun hl hm => ?_, pageFault_illegal⟩
    · rcases hc hl with hs | ⟨-, hn⟩
      · rw [pageFault_stack hs]
        exact Frames.linkPage_ok hT hw (hv ▸ bitmapTest_stackMap hs) hm
      · exact absurd (hm.mono (Nat.sub_le _ _)) hn
    · by_cases hs : InStack vaddr
      · rw [pageFault_stack hs]
        exact Frames.linkPage_out hw (hv ▸ bitmapTest_stackMap hs) hm
      · obtain ⟨hlt, hn⟩ := (hc hl).resolve_left hs
        obtain ⟨e, he, hg⟩ := Frames.getPte_out hn
        refine ⟨e, he, ?_⟩
        rw [pageFault_heap hl hs, if_pos hlt, linkPage, hg]
        rfl

end

/-- **Main result.** In every run, whatever `sys_brk` has done, a fault of a user task is covered
    exactly if its address is not one of the heap: the pages of the heap are never allowed. -/
theorem page_fault_covers_iff {s : Tasks} {pid : Pid} {t : Tcb} {space : Space} {vaddr : ℕ}
    (write : Bool) (h : taskSys.Reach s) (ha : s.At pid t (some space))
    (hw : s.frames.walk space.pde vaddr = none) :
    Covers s.frames space vaddr write ↔ FaultCare s.frames space vaddr :=
  covers_iff (Tasks.userInv_reach h).total ((Tasks.userInv_reach h).vmap pid t space ha.1 ha.2.2) hw

/-- A new task touches its stack. -/
theorem covers_stack : Covers oneUser.frames freshSpace 0x93ffffc true :=
  (page_fault_covers_iff true reach_oneUser.of_restrict at_oneUser (walk_fresh _)).2
    fun _ => Or.inl ⟨by norm_num, by norm_num⟩

/-- **The first page below the break** is not mapped, though there are frames. -/
theorem covers_not_heap : taskSys.Reach raised ∧ Legal raisedSpace.brk 0x1400000 ∧
    raised.frames.Enough (pagesFor raisedSpace.pde 0x1400000) ∧
    ¬ Covers raised.frames raisedSpace 0x1400000 true := by
  have hr : taskSys.Reach raised := .step reach_oneUser.of_restrict step_raised
  have hw : raised.frames.walk raisedSpace.pde 0x1400000 = none := by
    rw [Frames.walk, show tableOf (raisedSpace.pde (didx 0x1400000)) = none from rfl]
    rfl
  have hl : Legal raisedSpace.brk 0x1400000 := Or.inl ⟨le_rfl, by norm_num [raisedSpace]⟩
  have he : raised.frames.Enough 2 := by
    refine ⟨by decide, ?_⟩
    have hsub : [4096, 4097] ⊆ raised.frames.free := by
      intro f hf
      refine Frames.mem_free.2 ?_
      rcases List.mem_pair.1 hf with rfl | rfl
      · exact ⟨⟨by decide, by decide⟩, rfl⟩
      · exact ⟨⟨by decide, by decide⟩, rfl⟩
    have hnd : [4096, 4097].Nodup := by simp
    exact (hnd.subperm hsub).length_le
  have hv := (Tasks.userInv_reach hr).vmap 1 _ raisedSpace at_raised.1 at_raised.2.2
  refine ⟨hr, hl, he, fun h => ?_⟩
  rcases (covers_iff (Tasks.userInv_reach hr).total hv hw).1 h hl with hs | ⟨-, hn⟩
  · have := hs.1
    norm_num at this
  · exact hn (he.mono (by decide))

end Rdix
