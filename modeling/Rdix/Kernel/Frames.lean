/-
  What the address spaces hold of the frames, and that the counts are exact for it.

  * `Frames.held`: the frames that the page tables and directories of all tasks name, as the
    cells of `Cow`; a page table is a cell that is held to write;
  * `Frames.Ok`: the counts are exact for what is held;
  * one lemma for each operation on one page: it keeps `Ok`, and says what it does to the
    contents of the pages.

  Only the entries 5 .. 1022 of a directory are about user addresses.
-/
import Rdix.Kernel.Memory
import Rdix.Lib.Cow

namespace Rdix

open Function ByteMem

/-! ## What is held -/

/-- `TASK_NUM`. -/
abbrev taskNum : ℕ := 64

instance : NeZero taskNum := ⟨by decide⟩

/-- The entries of a page directory for user addresses. -/
abbrev UserDidx := Fin (1023 - firstDidx)

/-- A page table of a task (`none`), or an entry of it. -/
abbrev Spot := UserDidx × Option (Fin 1024)

/-- The page directories of the tasks; 0 everywhere where there is none. -/
abbrev Dirs := Fin taskNum → ℕ → ℕ

/-- The frame of a page table. -/
def tableOf (w : ℕ) : Option ℕ := if entPresent w then some (entIndex w) else none

theorem tableOf_of_present {w : ℕ} (h : entPresent w = true) : tableOf w = some (entIndex w) :=
  if_pos h

theorem tableOf_of_absent {w : ℕ} (h : entPresent w = false) : tableOf w = none :=
  if_neg (by rw [h]; exact Bool.false_ne_true)

@[simp] theorem tableOf_zero : tableOf 0 = none := rfl

@[simp] theorem tableOf_entryInit (f : ℕ) : tableOf (entryInit f) = some f := by
  obtain ⟨hp, hi, -⟩ := pteOf_eq_some.1 (pteOf_entryInit f)
  rw [tableOf_of_present hp, hi]

theorem tableOf_setIndex {w : ℕ} (h : entPresent w = true) (f : ℕ) :
    tableOf (setIndex w f) = some f := by
  obtain ⟨hp, hi, -⟩ := pteOf_eq_some.1
    (pteOf_setIndex (pteOf_eq_some.2 ⟨h, rfl, rfl⟩) f)
  rw [tableOf_of_present hp, hi]

namespace Frames

/-- `get_p_page` can return the frame. -/
def Avail (m : Frames) (f : ℕ) : Prop := m.start ≤ f ∧ f < m.total

/-- What a directory holds at a place. -/
def slot (m : Frames) (dir : ℕ → ℕ) : Spot → Option (ℕ × Bool)
  | (d, none) => (tableOf (dir (firstDidx + d))).map fun f => (f, true)
  | (d, some t) => (tableOf (dir (firstDidx + d))).bind fun f => pteOf (m.entry f t)

def held (m : Frames) (dirs : Dirs) : Cow.Holds (Fin taskNum) Spot ℕ := fun x =>
  m.slot (dirs x.1) x.2

/-- A page: a task, and the indices of its address. -/
abbrev Page := Fin taskNum × UserDidx × Fin 1024

/-- The entry for a page. -/
def ent (y : Page) : Fin taskNum × Spot := (y.1, y.2.1, some y.2.2)

theorem ent_injective : Injective ent := by
  rintro ⟨i, d, t⟩ ⟨j, e, u⟩ h
  cases h
  rfl

/-- The contents of the pages that are mapped. -/
def pages (m : Frames) (dirs : Dirs) : Page → Option Bytes := Cow.view m.data (m.held dirs) ∘ ent

theorem update_ent {β : Type} (v : Fin taskNum × Spot → β) (y : Page) (b : β) :
    update v (ent y) b ∘ ent = update (v ∘ ent) y b :=
  update_comp_eq_of_injective v ent_injective y b

theorem update_ent_table {β : Type} (v : Fin taskNum × Spot → β) (i : Fin taskNum) (d : UserDidx)
    (b : β) : update v (i, d, none) b ∘ ent = v ∘ ent :=
  update_comp_eq_of_notMem_range v b (by rintro ⟨y, hy⟩; cases hy)

theorem view_comp_ent (data : ℕ → Bytes) (M : Cow.Holds (Fin taskNum) Spot ℕ) :
    Cow.view data M ∘ ent = fun y => ((M ∘ ent) y).map fun c => data c.1 := rfl

/-- The counts are exact for what is held, for the frames in `own`. -/
structure Ok (m : Frames) (own : ℕ → Prop) (M : Cow.Holds (Fin taskNum) Spot ℕ) : Prop where
  counted : Cow.Counted m.Avail own m.p_bit_map M
  total : m.total ≤ 2 ^ 20

/-- After an operation: the counts are exact again, and the pages are these. -/
structure Goes (m m' : Frames) (own : ℕ → Prop) (dirs : Dirs) (P : Page → Option Bytes) :
    Prop where
  ok : m'.Ok own (m'.held dirs)
  start : m'.start = m.start
  total : m'.total = m.total
  pages : m'.pages dirs = P

/-- Another count for a frame. -/
def withCount (m : Frames) (f n fp : ℕ) : Frames :=
  { m with p_bit_map := update m.p_bit_map f n, free_pages := fp }

/-- Other contents of a frame. -/
def fill (m : Frames) (f : ℕ) (bs : Bytes) : Frames := { m with data := update m.data f bs }

end Frames

/-! ## The allocator of frames -/

section Alloc
variable {m m' : Frames} {f : ℕ}

theorem getPPageFrom_spec {n i : ℕ} (h : getPPageFrom m n i = .ok (m', f)) :
    i ≤ f ∧ f < i + n ∧ m.p_bit_map f = 0 ∧ m' = m.withCount f 1 (m.free_pages - 1) := by
  induction n generalizing i with
  | zero => cases h
  | succ n ih =>
    unfold getPPageFrom at h
    split_ifs at h with h0 hp
    · obtain ⟨h1, h2, h3, h4⟩ := ih h
      exact ⟨by omega, by omega, h3, h4⟩
    · cases h
      exact ⟨le_rfl, by omega, by simpa using hp, rfl⟩

theorem getPPageFrom_first {n i : ℕ} (h0 : m.free_pages ≠ 0) (hi : i ≤ f) (hf : f < i + n)
    (hlow : ∀ j, i ≤ j → j < f → m.p_bit_map j ≠ 0) (hz : m.p_bit_map f = 0) :
    getPPageFrom m n i = .ok (m.withCount f 1 (m.free_pages - 1), f) := by
  induction n generalizing i with
  | zero => omega
  | succ n ih =>
    unfold getPPageFrom
    by_cases hif : i = f
    · rw [if_neg h0, hif, if_neg (not_not.2 hz)]
      rfl
    · rw [if_neg h0, if_pos (hlow i le_rfl (by omega))]
      exact ih (by omega) (by omega) fun j hj => hlow j (by omega)

/-- It is the first one. -/
theorem getPPage_first (h0 : m.free_pages ≠ 0) (hf : m.Avail f)
    (hlow : ∀ j, m.start ≤ j → j < f → m.p_bit_map j ≠ 0) (hz : m.p_bit_map f = 0) :
    getPPage m = .ok (m.withCount f 1 (m.free_pages - 1), f) := by
  unfold Frames.Avail at hf
  exact getPPageFrom_first h0 hf.1 (by omega) hlow hz

/-- If there is one, it returns. -/
theorem getPPage_of_free (h0 : m.free_pages ≠ 0) (hf : m.Avail f) (hz : m.p_bit_map f = 0) :
    ∃ r, getPPage m = .ok r := by
  have hex : ∃ f, m.Avail f ∧ m.p_bit_map f = 0 := ⟨f, hf, hz⟩
  classical
  obtain ⟨ha, hz⟩ := Nat.find_spec hex
  refine ⟨_, getPPage_first h0 ha (fun j hj hlt hc => ?_) hz⟩
  exact Nat.find_min hex hlt ⟨⟨hj, hlt.trans ha.2⟩, hc⟩

/-- `get_p_page` returns a frame that nobody counts. -/
theorem getPPage_spec (h : getPPage m = .ok (m', f)) :
    m.Avail f ∧ m.p_bit_map f = 0 ∧ m' = m.withCount f 1 (m.free_pages - 1) := by
  obtain ⟨h1, h2, h3, h4⟩ := getPPageFrom_spec h
  exact ⟨⟨h1, by omega⟩, h3, h4⟩

theorem freePPage_spec (h : freePPage m f = .ok m') :
    0 < m.p_bit_map f ∧ ∃ fp, m' = m.withCount f (m.p_bit_map f - 1) fp := by
  simp only [freePPage, cassert_bind_eq_ok, pure_eq_ok] at h
  obtain ⟨-, hp, -, h⟩ := h
  cases h
  exact ⟨hp, _, rfl⟩

theorem copyPhyPage_spec {page : ℕ} (h : copyPhyPage m page = .ok (m', f)) :
    m.Avail f ∧ m.p_bit_map f = 0 ∧
      m' = (m.withCount f 1 (m.free_pages - 1)).fill f (m.data page) := by
  obtain ⟨⟨m₁, g⟩, h₁, h⟩ := bind_eq_ok.1 h
  obtain ⟨h1, h2, rfl⟩ := getPPage_spec h₁
  cases h
  exact ⟨h1, h2, rfl⟩

end Alloc

/-! ## Tables as they change -/

namespace Frames

section Held
variable {m : Frames} {dirs : Dirs} {i : Fin taskNum} {d : UserDidx} {t : Fin 1024} {f w : ℕ}

@[simp] theorem held_withCount (n fp : ℕ) : (m.withCount f n fp).held dirs = m.held dirs := rfl

@[simp] theorem pages_withCount (n fp : ℕ) : (m.withCount f n fp).pages dirs = m.pages dirs := rfl

/-- A table frame tells what the entries hold. -/
theorem held_entry (h : m.held dirs (i, d, none) = some (f, true)) (t : Fin 1024) :
    m.held dirs (i, d, some t) = pteOf (m.entry f t) := by
  obtain ⟨g, hg, he⟩ := Option.map_eq_some_iff.1 h
  cases he
  show (tableOf _).bind _ = _
  rw [hg]
  rfl

theorem held_none (h : m.held dirs (i, d, none) = none) (s : Option (Fin 1024)) :
    m.held dirs (i, d, s) = none := by
  have hg := Option.map_eq_none_iff.1 h
  cases s with
  | none => exact h
  | some t =>
    show (tableOf _).bind _ = _
    rw [hg]
    rfl

/-- What holds at an entry comes from a table. -/
theorem held_table {c : ℕ × Bool} (h : m.held dirs (i, d, some t) = some c) :
    ∃ f, m.held dirs (i, d, none) = some (f, true) ∧ pteOf (m.entry f t) = some c := by
  obtain ⟨f, hf, hc⟩ := Option.bind_eq_some_iff.1 h
  exact ⟨f, Option.map_eq_some_iff.2 ⟨f, hf, rfl⟩, hc⟩

/-- A frame that is no table can be filled. -/
theorem held_fill (h : ∀ j e, m.held dirs (j, e, none) ≠ some (f, true)) (bs : Bytes) :
    (m.fill f bs).held dirs = m.held dirs := by
  ext1 ⟨j, e, s⟩
  cases s with
  | none => rfl
  | some t =>
    cases hg : m.held dirs (j, e, none) with
    | none => rw [held_none hg, held_none (m := m.fill f bs) hg]
    | some c =>
      obtain ⟨g, hg', rfl⟩ := Option.map_eq_some_iff.1 hg
      have hne : g ≠ f := by
        rintro rfl
        exact h j e hg
      rw [held_entry hg, held_entry (m := m.fill f bs) hg]
      simp only [entry, fill, update_of_ne hne]

theorem entry_setEntry : (m.setEntry f t w).entry f t = w % 2 ^ 32 := by
  simp only [entry, setEntry, update_self]
  exact load_store

theorem entry_setEntry_self (hw : w < 2 ^ 32) : (m.setEntry f t w).entry f t = w :=
  entry_setEntry.trans (Nat.mod_eq_of_lt hw)

theorem entry_setEntry_ne {g : ℕ} {t' : Fin 1024} (h : g ≠ f ∨ t' ≠ t) :
    (m.setEntry f t w).entry g t' = m.entry g t' := by
  by_cases hg : g = f
  · have ht : (t' : ℕ) ≠ t := fun he => (h.resolve_left (not_not.2 hg)) (Fin.ext he)
    rw [hg]
    simp only [entry, setEntry, update_self]
    exact load_store_of_disjoint (by omega)
  · simp only [entry, setEntry, update_of_ne hg]

/-- An entry of a table that nobody else has is written. -/
theorem held_setEntry (h : m.held dirs (i, d, none) = some (f, true))
    (hu : ∀ j e, m.held dirs (j, e, none) = some (f, true) → j = i ∧ e = d) (hw : w < 2 ^ 32) :
    (m.setEntry f t w).held dirs = update (m.held dirs) (i, d, some t) (pteOf w) := by
  ext1 ⟨j, e, s⟩
  cases s with
  | none =>
    rw [update_of_ne (by simp)]
    rfl
  | some t' =>
    cases hg : m.held dirs (j, e, none) with
    | none =>
      have hne : (j, e, some t') ≠ (i, d, some t) := by
        rintro he
        cases he
        rw [h] at hg
        cases hg
      rw [update_of_ne hne, held_none hg, held_none (m := m.setEntry f t w) hg]
    | some c =>
      obtain ⟨g, -, rfl⟩ := Option.map_eq_some_iff.1 hg
      rw [held_entry (m := m.setEntry f t w) hg]
      by_cases he : (j, e, some t') = (i, d, some t)
      · cases he
        rw [h] at hg
        cases hg
        rw [entry_setEntry_self hw, update_self]
      · rw [update_of_ne he, held_entry hg]
        congr 1
        refine entry_setEntry_ne ?_
        by_contra hn
        push Not at hn
        obtain ⟨rfl, rfl⟩ := hn
        obtain ⟨rfl, rfl⟩ := hu j e hg
        exact he rfl

/-- A frame becomes a table, where there was none. -/
theorem held_setTable (h : m.held dirs (i, d, none) = none) (hw : tableOf w = some f) :
    m.held (update dirs i (update (dirs i) (firstDidx + d) w)) = fun x =>
      if x.1 = i ∧ x.2.1 = d then x.2.2.elim (some (f, true)) fun t => pteOf (m.entry f t)
      else m.held dirs x := by
  have hself : m.held (update dirs i (update (dirs i) (firstDidx + d) w)) (i, d, none) =
      some (f, true) := by
    simp [held, slot, hw]
  ext1 ⟨j, e, s⟩
  by_cases hje : j = i ∧ e = d
  · rw [if_pos hje]
    obtain ⟨rfl, rfl⟩ := hje
    cases s with
    | none => exact hself
    | some t => exact held_entry hself t
  · rw [if_neg hje]
    by_cases hj : j = i
    · subst hj
      have hne : firstDidx + (e : ℕ) ≠ firstDidx + d := fun he =>
        hje ⟨rfl, Fin.ext (Nat.add_left_cancel he)⟩
      cases s with
      | none => simp only [held, slot, update_self, update_of_ne hne]
      | some t => simp only [held, slot, update_self, update_of_ne hne]
    · simp only [held, update_of_ne hj]

/-- A cleared frame becomes a table. -/
theorem held_newTable (h : m.held dirs (i, d, none) = none) (h0 : ∀ t : Fin 1024, m.entry f t = 0) :
    m.held (update dirs i (update (dirs i) (firstDidx + d) (entryInit f))) =
      update (m.held dirs) (i, d, none) (some (f, true)) := by
  rw [held_setTable h (tableOf_entryInit f)]
  ext1 ⟨j, e, s⟩
  by_cases hje : j = i ∧ e = d
  · rw [if_pos hje]
    obtain ⟨rfl, rfl⟩ := hje
    cases s with
    | none => rw [update_self, Option.elim_none]
    | some t => rw [update_of_ne (by simp), held_none h, Option.elim_some, h0, pteOf_zero]
  · rw [if_neg hje, update_of_ne (by rintro he; cases he; exact hje ⟨rfl, rfl⟩)]

end Held

/-! ## Operations on one page -/

section Ops
variable {m m' : Frames} {own : ℕ → Prop} {M : Cow.Holds (Fin taskNum) Spot ℕ} {dirs : Dirs}
  {i : Fin taskNum} {d : UserDidx} {t : Fin 1024} {f w : ℕ} {b : Bool}

/-- A page table belongs to one task. -/
theorem Ok.table_unique (H : m.Ok own M) (h : M (i, d, none) = some (f, true)) (j : Fin taskNum)
    (e : UserDidx) (hj : M (j, e, none) = some (f, true)) : j = i ∧ e = d := by
  have := H.counted.writer h hj
  cases this
  exact ⟨rfl, rfl⟩

/-- A page table is not mapped. -/
theorem Ok.table_ne_page (H : m.Ok own M) (h : M (i, d, none) = some (f, true)) (y : Page)
    (b : Bool) : M (ent y) ≠ some (f, b) := by
  intro hy
  have := H.counted.place _ _ _ _ _ _ _ h hy
  cases this

/-- The pages after a table entry has been written. -/
theorem pages_setEntry (h : ∀ y b, (m.setEntry f t w).held dirs (ent y) ≠ some (f, b)) :
    (m.setEntry f t w).pages dirs = Cow.view m.data ((m.setEntry f t w).held dirs) ∘ ent := by
  ext1 y
  show Option.map _ _ = Option.map _ _
  cases hc : (m.setEntry f t w).held dirs (ent y) with
  | none => rfl
  | some c =>
    have hne : c.1 ≠ f := by
      rintro rfl
      exact h y c.2 hc
    simp only [Option.map_some, setEntry, update_of_ne hne]

/-- An entry is written, with the count that goes with it. -/
theorem goes_setEntry (own : ℕ → Prop) (dirs : Dirs) (t : Fin 1024) (hT : m.total ≤ 2 ^ 20)
    (ht : m.held dirs (i, d, none) = some (f, true))
    (hu : ∀ j e, m.held dirs (j, e, none) = some (f, true) → j = i ∧ e = d) (hw : w < 2 ^ 32)
    (H : Cow.Counted m.Avail own m.p_bit_map (update (m.held dirs) (ent (i, d, t)) (pteOf w))) :
    m.Goes (m.setEntry f t w) own dirs
      (Cow.view m.data (update (m.held dirs) (ent (i, d, t)) (pteOf w)) ∘ ent) := by
  have hh := held_setEntry (t := t) ht hu hw
  have H' : (m.setEntry f t w).Ok own ((m.setEntry f t w).held dirs) := ⟨hh ▸ H, hT⟩
  refine ⟨H', rfl, rfl, ?_⟩
  have ht' : (m.setEntry f t w).held dirs (i, d, none) = some (f, true) := by
    rw [hh, update_of_ne (by simp), ht]
  rw [pages_setEntry (H'.table_ne_page ht'), hh]
  rfl

/-- A free frame becomes a cleared table. -/
theorem pages_newTable (fp : ℕ) (hf : ∀ x b, m.held dirs x ≠ some (f, b))
    (hn : m.held dirs (i, d, none) = none) :
    ((m.withCount f 1 fp).fill f fun _ => 0#8).held
        (update dirs i (update (dirs i) (firstDidx + d) (entryInit f))) =
      update (m.held dirs) (i, d, none) (some (f, true)) ∧
    ((m.withCount f 1 fp).fill f fun _ => 0#8).pages
        (update dirs i (update (dirs i) (firstDidx + d) (entryInit f))) = m.pages dirs := by
  have hz : ∀ t : Fin 1024, ((m.withCount f 1 fp).fill f fun _ => 0#8).entry f t = 0 := by
    intro t
    simp only [entry, fill, update_self]
    exact load_zero ..
  have hfill : ((m.withCount f 1 fp).fill f fun _ => 0#8).held dirs = m.held dirs :=
    held_fill (m := m.withCount f 1 fp) (fun j e => hf (j, e, none) true) _
  have hh := held_newTable (by rw [hfill]; exact hn) hz
  rw [hfill] at hh
  refine ⟨hh, ?_⟩
  rw [pages, hh, view_comp_ent, update_ent_table, ← view_comp_ent]
  exact congrArg (· ∘ ent) (Cow.view_fill hf)

/-- The table of an address, found or created. -/
theorem Ok.getPte (H : m.Ok own (m.held dirs)) {vaddr pte : ℕ} {exist : Bool} {pde : ℕ → ℕ}
    (hd : didx vaddr = firstDidx + d) (h : getPte m (dirs i) vaddr exist = .ok (m', pde, pte)) :
    m.Goes m' own (update dirs i pde) (m.pages dirs) ∧
      m'.held (update dirs i pde) (i, d, none) = some (pte, true) ∧
      (exist = true → m' = m ∧ pde = dirs i) := by
  unfold Rdix.getPte at h
  rw [hd] at h
  split_ifs at h with hp
  · cases h
    rw [update_eq_self]
    refine ⟨⟨H, rfl, rfl, rfl⟩, ?_, fun _ => ⟨rfl, rfl⟩⟩
    show Option.map _ (tableOf _) = _
    rw [tableOf_of_present hp, Option.map_some]
  · obtain ⟨he, h⟩ := cassert_bind_eq_ok.1 h
    obtain ⟨⟨m₁, g⟩, h₁, h⟩ := bind_eq_ok.1 h
    obtain ⟨ha, h0, rfl⟩ := getPPage_spec h₁
    cases h
    have hn : m.held dirs (i, d, none) = none := by
      show Option.map _ (tableOf _) = _
      rw [tableOf_of_absent (Bool.eq_false_iff.2 hp), Option.map_none]
    obtain ⟨hh, hpg⟩ := pages_newTable (m.free_pages - 1) (H.counted.not_held h0) hn
    refine ⟨⟨⟨?_, H.total⟩, rfl, rfl, hpg⟩, ?_, fun h => absurd (he.symm.trans h) (by decide)⟩
    · exact hh ▸ H.counted.take ha h0 hn
    · exact (congrFun hh _).trans (update_self ..)

/-- The word of an entry. -/
theorem entry_lt : m.entry f t < 2 ^ 32 := load_lt ..

/-- A page is mapped where there was none, or it is there. -/
theorem Ok.linkPage (H : m.Ok own (m.held dirs)) {task task' : Space} {vaddr : ℕ}
    (hd : didx vaddr = firstDidx + d) (htx : tidx vaddr = t) (hi : dirs i = task.pde)
    (h : linkPage m task vaddr = .ok (m', task')) :
    ∃ P, m.Goes m' own (update dirs i task'.pde) P ∧ task'.brk = task.brk ∧
      (P = m.pages dirs ∨
        ∃ bs, m.pages dirs (i, d, t) = none ∧ P = update (m.pages dirs) (i, d, t) (some bs)) := by
  obtain ⟨⟨m₁, pde, pte⟩, h₁, h⟩ := bind_eq_ok.1 h
  obtain ⟨⟨H₁, hs, hT, hpg⟩, ht, -⟩ := H.getPte hd (hi ▸ h₁)
  obtain ⟨mapped, -, h⟩ := bind_eq_ok.1 h
  obtain ⟨-, h⟩ := cassert_bind_eq_ok.1 h
  rw [htx] at h
  by_cases hp : entPresent (m₁.entry pte t) = true
  · rw [if_pos hp] at h
    cases h
    exact ⟨_, ⟨H₁, hs, hT, hpg⟩, rfl, Or.inl rfl⟩
  · rw [if_neg hp] at h
    obtain ⟨⟨m₂, paddr⟩, h₂, h⟩ := bind_eq_ok.1 h
    obtain ⟨ha, h0, rfl⟩ := getPPage_spec h₂
    cases h
    have hn : m₁.held (update dirs i pde) (ent (i, d, t)) = none := by
      rw [ent, held_entry ht]
      exact pteOf_eq_none.2 (Bool.eq_false_iff.2 hp)
    have hlt : paddr < 2 ^ 20 := lt_of_lt_of_le ha.2 H₁.total
    obtain ⟨H₂, hs', hT', hpg'⟩ := goes_setEntry (m := m₁.withCount paddr 1 (m₁.free_pages - 1))
      own (update dirs i pde) t H₁.total ht (H₁.table_unique ht) (entryInit_lt hlt) (by
        rw [pteOf_entryInit]
        exact H₁.counted.take ha h0 hn)
    refine ⟨_, ⟨H₂, hs'.trans hs, hT'.trans hT, hpg'⟩, rfl, Or.inr ⟨m₁.data paddr, ?_, ?_⟩⟩
    · rw [← hpg]
      exact Option.map_eq_none_iff.2 hn
    · rw [pteOf_entryInit, ← hpg]
      have hv := Cow.view_take (w := true) m₁.data (m₁.data paddr)
        (M := m₁.held (update dirs i pde)) (x := ent (i, d, t)) fun z b _ =>
          H₁.counted.not_held h0 z b
      rw [update_eq_self] at hv
      exact (congrArg (· ∘ ent) hv).trans (update_ent _ _ _)

/-- The first page in a table. -/
theorem linkPage_new {task : Space} {vaddr f g : ℕ} {m₁ m₂ : Frames}
    (hp : entPresent (task.pde (Rdix.didx vaddr)) = false) (h₁ : getPPage m = .ok (m₁, f))
    (hb : bitmapTest task.vmap (vaddr / 4096) = .ok true)
    (h₂ : getPPage (m₁.fill f fun _ => 0#8) = .ok (m₂, g)) :
    Rdix.linkPage m task vaddr = .ok (m₂.setEntry f (Rdix.tidx vaddr) (entryInit g),
      { task with pde := update task.pde (Rdix.didx vaddr) (entryInit f) }) := by
  have hz : entPresent ((m₁.fill f fun _ => 0#8).entry f (Rdix.tidx vaddr)) = false := by
    simp only [entry, fill, update_self]
    rw [load_zero]
    rfl
  have hpte : Rdix.getPte m task.pde vaddr false =
      .ok (m₁.fill f fun _ => 0#8, update task.pde (Rdix.didx vaddr) (entryInit f), f) := by
    rw [Rdix.getPte, if_neg (by rw [hp]; exact Bool.false_ne_true), cassert_pos rfl, h₁]
    rfl
  rw [Rdix.linkPage, hpte]
  simp only [ok_bind, hb, cassert_pos, hz, Bool.false_eq_true, if_false, h₂, pure_eq_ok]

theorem user_ne_window (d : UserDidx) : firstDidx + (d : ℕ) ≠ 1023 := by
  have := d.isLt
  simp only [firstDidx, kernelMemerySize] at this ⊢
  omega

/-- The entry of the page, and what `unlink_page` does to it and to the frame. -/
theorem Ok.unlinkPage_cases (H : m.Ok own (m.held dirs)) {task task' : Space} {vaddr : ℕ}
    (hd : didx vaddr = firstDidx + d) (htx : tidx vaddr = t) (hi : dirs i = task.pde)
    (h : unlinkPage m task vaddr = .ok (m', task')) : task' = task ∧
      ∃ pte g b, m.held dirs (i, d, none) = some (pte, true) ∧
        m.held dirs (ent (i, d, t)) = some (g, b) ∧
        freePPage (m.setEntry pte t (clearPresent (m.entry pte t))) g = .ok m' := by
  obtain ⟨⟨m₁, pde, pte⟩, h₁, h⟩ := bind_eq_ok.1 h
  obtain ⟨-, ht, he⟩ := H.getPte hd (hi ▸ h₁)
  obtain ⟨rfl, rfl⟩ := he rfl
  have hne : didx vaddr ≠ 1023 := hd ▸ user_ne_window d
  simp only [if_neg hne, htx] at h
  obtain ⟨hp, h⟩ := cassert_bind_eq_ok.1 h
  obtain ⟨m₂, h₂, h⟩ := bind_eq_ok.1 h
  cases h
  rw [update_eq_self] at ht
  refine ⟨by rw [hi], pte, _, entWrite (m₁.entry pte t), ht, ?_, h₂⟩
  rw [ent, held_entry ht]
  exact pteOf_eq_some.2 ⟨hp, rfl, rfl⟩

/-- A page is given back. -/
theorem Ok.unlinkPage (H : m.Ok own (m.held dirs)) {task task' : Space} {vaddr : ℕ}
    (hd : didx vaddr = firstDidx + d) (htx : tidx vaddr = t) (hi : dirs i = task.pde)
    (h : unlinkPage m task vaddr = .ok (m', task')) :
    m.Goes m' own (update dirs i task'.pde) (update (m.pages dirs) (i, d, t) none) ∧
      task'.brk = task.brk := by
  obtain ⟨rfl, pte, idx, b, ht, hx, h₂⟩ := H.unlinkPage_cases hd htx hi h
  obtain ⟨-, fp, rfl⟩ := freePPage_spec h₂
  rw [← hi, update_eq_self]
  obtain ⟨H₂, hs, hT, hpg⟩ := goes_setEntry
    (m := m.withCount idx (m.p_bit_map idx - 1) fp) own dirs t H.total ht (H.table_unique ht)
    (clearPresent_lt entry_lt) (by
      rw [pteOf_clearPresent]
      exact H.counted.drop hx)
  refine ⟨⟨H₂, hs, hT, hpg.trans ?_⟩, rfl⟩
  rw [pteOf_clearPresent]
  exact (congrArg (· ∘ ent) Cow.view_drop).trans (update_ent _ _ _)

/-- **A write fault keeps the contents**: the page is the task's own, or a copy of it. -/
theorem Ok.writeFault (H : m.Ok own (m.held dirs)) {task task' : Space} {vaddr g : ℕ}
    (hd : didx vaddr = firstDidx + d) (htx : tidx vaddr = t) (hi : dirs i = task.pde)
    (hx : m.held dirs (ent (i, d, t)) = some (g, b))
    (h : writeFault m task vaddr = .ok (m', task')) :
    m.Goes m' own (update dirs i task'.pde) (m.pages dirs) ∧ task'.brk = task.brk := by
  obtain ⟨⟨m₁, pde, pte⟩, h₁, h⟩ := bind_eq_ok.1 h
  obtain ⟨-, ht, he⟩ := H.getPte hd (hi ▸ h₁)
  obtain ⟨rfl, rfl⟩ := he rfl
  obtain ⟨hpos, h⟩ := cassert_bind_eq_ok.1 h
  rw [update_eq_self] at ht
  rw [htx] at h hpos
  have hg : pteOf (m₁.entry pte t) = some (g, b) := by rw [← held_entry ht]; exact hx
  obtain ⟨-, hidx, -⟩ := pteOf_eq_some.1 hg
  rw [hidx] at h
  by_cases h1 : m₁.p_bit_map g = 1
  · rw [if_pos h1] at h
    cases h
    rw [update_eq_self]
    have hw := pteOf_setWrite hg true
    obtain ⟨H₂, hs, hT, hpg⟩ := goes_setEntry own dirs t H.total ht
      (H.table_unique ht) (setWrite_lt entry_lt true) (by
        rw [hw]
        exact H.counted.acquire hx h1)
    refine ⟨⟨H₂, hs, hT, hpg.trans ?_⟩, rfl⟩
    rw [hw]
    exact congrArg (· ∘ ent) (Cow.view_right hx true)
  · rw [if_neg h1] at h
    obtain ⟨⟨m₂, paddr⟩, h₂, h⟩ := bind_eq_ok.1 h
    obtain ⟨ha, h0, rfl⟩ := copyPhyPage_spec h₂
    cases h
    rw [update_eq_self]
    -- the holder lets go of the shared frame, then takes the new one at the same place
    have hfree := (H.counted.drop hx).not_held h0
    have Ht := (H.counted.drop hx).take ha h0 (update_self ..)
    rw [update_idem] at Ht
    have hgp : paddr ≠ g := by
      rintro rfl
      have h0' : update m₁.p_bit_map paddr (m₁.p_bit_map paddr - 1) paddr = 0 := h0
      rw [update_self] at h0'
      have := H.counted.pos hx
      omega
    have hfree₁ : ∀ z v, m₁.held dirs z ≠ some (paddr, v) := by
      intro z v hz
      by_cases hze : z = ent (i, d, t)
      · rw [hze, hx] at hz
        cases hz
        exact hgp rfl
      · exact hfree z v (by rw [update_of_ne hze, hz])
    have hheld : (((m₁.withCount g (m₁.p_bit_map g - 1) m₁.free_pages).withCount paddr 1
        (m₁.free_pages - 1)).fill paddr (m₁.data g)).held dirs = m₁.held dirs :=
      held_fill (m := m₁) (fun j e => hfree₁ (j, e, none) true) (m₁.data g)
    have hlt : paddr < 2 ^ 20 := lt_of_lt_of_le ha.2 H.total
    obtain ⟨H₂, hs, hT, hpg⟩ := goes_setEntry (i := i) (d := d) (f := pte)
      (m := ((m₁.withCount g (m₁.p_bit_map g - 1) m₁.free_pages).withCount paddr 1
        (m₁.free_pages - 1)).fill paddr (m₁.data g)) own dirs t H.total
      ((congrFun hheld _).trans ht)
      (fun j e hj => H.table_unique ht j e ((congrFun hheld _).symm.trans hj))
      (entryInit_lt hlt) (by
        rw [pteOf_entryInit, hheld]
        exact Ht)
    refine ⟨⟨H₂, hs, hT, hpg.trans ?_⟩, rfl⟩
    rw [pteOf_entryInit, hheld]
    have hv := Cow.view_take (w := true) (x := ent (i, d, t)) m₁.data (m₁.data g)
      fun z v _ => hfree₁ z v
    rw [← Cow.view_of_held m₁.data hx, update_eq_self] at hv
    exact congrArg (· ∘ ent) hv

/-- To write to a page changes no table. -/
theorem Ok.held_write (H : m.Ok own (m.held dirs)) {y : Page}
    (hx : m.held dirs (ent y) = some (f, b)) (bs : Bytes) :
    (m.fill f bs).held dirs = m.held dirs :=
  held_fill (fun _ _ hj => H.table_ne_page hj y b hx) bs

/-- The only holder of a page writes to it. -/
theorem Ok.write (H : m.Ok own (m.held dirs)) {y : Page} (hx : m.held dirs (ent y) = some (f, true))
    (bs : Bytes) : m.Goes (m.fill f bs) own dirs (update (m.pages dirs) y (some bs)) := by
  have hh := H.held_write hx bs
  refine ⟨⟨?_, H.total⟩, rfl, rfl, ?_⟩
  · rw [hh]
    exact H.counted
  rw [pages, hh]
  exact (congrArg (· ∘ ent) (Cow.view_write hx fun z w hz => H.counted.holder
    (H.counted.excl _ _ hx) hx hz)).trans (update_ent _ _ _)

end Ops

end Frames

end Rdix
