/-
  Whole address spaces: copy_pde and free_pde (kernel/memory.c).

  Both loops are followed through the maps of what is held: in the middle of a table the counts
  are ahead of the entries, by the entries that the new task is about to get
  (`Frames.shared`), or that the old one is about to lose (`Frames.dropped`).

  * `Frames.Ok.copyPde`: the copy maps the same contents, and nothing else changes;
  * `Frames.Ok.freePde`: the task has no pages any more, and nothing else changes.
-/
import Rdix.Kernel.Frames

namespace Rdix

open Function ByteMem

namespace Frames

variable {m m' : Frames} {own : ℕ → Prop} {dirs : Dirs} {p c : Fin taskNum} {d : UserDidx}
  {pte n : ℕ} {P : Page → Option Bytes}

/-! ## Sharing the pages of one table -/

/-- What is held when task `c` is about to get the first `n` entries of the table `d` of `p`. -/
def shared (m : Frames) (dirs : Dirs) (p c : Fin taskNum) (d : UserDidx) (n : ℕ) :
    Cow.Holds (Fin taskNum) Spot ℕ := fun x =>
  if x.1 = c ∧ x.2.1 = d then
    x.2.2.elim none fun t => if t < n then m.held dirs (p, d, some t) else none
  else m.held dirs x

/-- The loop invariant of `copy_pde` inside the table `pte`. -/
structure Sharing (m : Frames) (own : ℕ → Prop) (dirs : Dirs) (p c : Fin taskNum) (d : UserDidx)
    (pte n : ℕ) (P : Page → Option Bytes) : Prop where
  counted : Cow.Counted m.Avail own m.p_bit_map (m.shared dirs p c d n)
  table : m.held dirs (p, d, none) = some (pte, true)
  empty : m.held dirs (c, d, none) = none
  readOnly : ∀ t : Fin 1024, t < n → ∀ f b, m.held dirs (p, d, some t) = some (f, b) → b = false
  pages : m.pages dirs = P

theorem shared_of_ne {x : Fin taskNum × Spot} (h : ¬ (x.1 = c ∧ x.2.1 = d)) :
    m.shared dirs p c d n x = m.held dirs x := if_neg h

theorem shared_self (t : Fin 1024) :
    m.shared dirs p c d n (c, d, some t) = if t < n then m.held dirs (p, d, some t) else none :=
  if_pos ⟨rfl, rfl⟩

namespace Sharing

/-- What is held is shared. -/
theorem le_shared (S : m.Sharing own dirs p c d pte n P) {x : Fin taskNum × Spot} {y : ℕ × Bool}
    (h : m.held dirs x = some y) : m.shared dirs p c d n x = some y := by
  rw [shared_of_ne, h]
  rintro ⟨rfl, rfl⟩
  rw [held_none S.empty] at h
  cases h

theorem ne (S : m.Sharing own dirs p c d pte n P) : p ≠ c := by
  rintro rfl
  have := S.empty
  rw [S.table] at this
  cases this

theorem table_unique (S : m.Sharing own dirs p c d pte n P) (j : Fin taskNum) (e : UserDidx)
    (h : m.held dirs (j, e, none) = some (pte, true)) : j = p ∧ e = d := by
  have := S.counted.writer (S.le_shared S.table) (S.le_shared h)
  cases this
  exact ⟨rfl, rfl⟩

theorem table_ne_page (S : m.Sharing own dirs p c d pte n P) (y : Page) (b : Bool) :
    m.held dirs (ent y) ≠ some (pte, b) := by
  intro h
  have := S.counted.place _ _ _ _ _ _ _ (S.le_shared S.table) (S.le_shared h)
  cases this

/-- Without an entry there is nothing to share. -/
theorem skip (S : m.Sharing own dirs p c d pte n P) (hn : n < 1024)
    (hnone : m.held dirs (p, d, some ⟨n, hn⟩) = none) : m.Sharing own dirs p c d pte (n + 1) P := by
  have hsame : m.shared dirs p c d (n + 1) = m.shared dirs p c d n := by
    ext1 ⟨j, e, s⟩
    by_cases hje : j = c ∧ e = d
    · obtain ⟨rfl, rfl⟩ := hje
      cases s with
      | none => rfl
      | some t =>
        rw [shared_self, shared_self]
        by_cases ht : (t : ℕ) = n
        · obtain rfl : t = ⟨n, hn⟩ := Fin.ext ht
          rw [hnone, ite_self, ite_self]
        · simp only [Nat.lt_succ_iff_lt_or_eq, ht, or_false]
    · rw [shared_of_ne hje, shared_of_ne hje]
  refine ⟨hsame ▸ S.counted, S.table, S.empty, fun t ht f b hf => ?_, S.pages⟩
  by_cases htn : (t : ℕ) = n
  · obtain rfl : t = ⟨n, hn⟩ := Fin.ext htn
    rw [hnone] at hf
    cases hf
  · exact S.readOnly t (by omega) f b hf

/-- What is held after a turn that shares frame `g`. -/
theorem shared_succ (S : m.Sharing own dirs p c d pte n P) (hn : n < 1024) {g : ℕ}
    (hh : m'.held dirs = update (m.held dirs) (p, d, some ⟨n, hn⟩) (some (g, false))) :
    m'.shared dirs p c d (n + 1) =
      update (update (m.shared dirs p c d n) (p, d, some ⟨n, hn⟩) (some (g, false)))
        (c, d, some ⟨n, hn⟩) (some (g, false)) := by
  ext1 ⟨j, e, s⟩
  by_cases hje : j = c ∧ e = d
  · obtain ⟨rfl, rfl⟩ := hje
    have hpj : ∀ s', (j, e, s') ≠ (p, e, some (⟨n, hn⟩ : Fin 1024)) := fun s' he =>
      S.ne (congrArg Prod.fst he).symm
    cases s with
    | none =>
      rw [update_of_ne (by simp), update_of_ne (hpj _)]
      rfl
    | some t =>
      rw [shared_self, hh]
      by_cases ht : (t : ℕ) = n
      · obtain rfl : t = ⟨n, hn⟩ := Fin.ext ht
        rw [update_self, update_self, if_pos (Nat.lt_succ_self _)]
      · have hne : (some t : Option (Fin 1024)) ≠ some ⟨n, hn⟩ := fun he =>
          ht (congrArg Fin.val (Option.some.inj he))
        rw [update_of_ne (by simp [hne]), update_of_ne (by simp [hne]), update_of_ne (hpj _),
          shared_self]
        simp only [Nat.lt_succ_iff_lt_or_eq, ht, or_false]
  · have hne : (j, e, s) ≠ (c, d, some ⟨n, hn⟩) := by
      rintro he
      cases he
      exact hje ⟨rfl, rfl⟩
    rw [update_of_ne hne, shared_of_ne hje, hh]
    by_cases hx : (j, e, s) = (p, d, some ⟨n, hn⟩)
    · rw [hx, update_self, update_self]
    · rw [update_of_ne hx, update_of_ne hx, shared_of_ne hje]

/-- One turn of the loop. -/
theorem step (S : m.Sharing own dirs p c d pte n P) (hn : n < 1024)
    (h : shareEntry m pte n = .ok m') :
    m'.Sharing own dirs p c d pte (n + 1) P ∧ m'.start = m.start ∧ m'.total = m.total := by
  have hent := held_entry S.table ⟨n, hn⟩
  unfold shareEntry at h
  by_cases hp : entPresent (m.entry pte n) = true
  · rw [if_neg (not_not.2 hp)] at h
    obtain ⟨-, h⟩ := cassert_bind_eq_ok.1 h
    cases h
    set g := entIndex (m.entry pte n) with hg
    have hw : pteOf (m.entry pte n) = some (g, entWrite (m.entry pte n)) :=
      pteOf_eq_some.2 ⟨hp, rfl, rfl⟩
    have hx : m.held dirs (p, d, some ⟨n, hn⟩) = some (g, entWrite (m.entry pte n)) := hent.trans hw
    have hh : (m.setEntry pte n (setWrite (m.entry pte n) false)).held dirs =
        update (m.held dirs) (p, d, some ⟨n, hn⟩) (some (g, false)) := by
      have := held_setEntry (t := ⟨n, hn⟩) S.table S.table_unique
        (setWrite_lt (load_lt (m.data pte) 4 (4 * n)) false)
      rwa [pteOf_setWrite (w := load (m.data pte) 4 (4 * n)) hw] at this
    have hle := S.counted.le_card (S.counted.held _ _ _ (S.le_shared hx))
    rw [Fintype.card_fin] at hle
    have hmod : (m.p_bit_map g + 1) % 256 = m.p_bit_map g + 1 := Nat.mod_eq_of_lt (by
      simp only [taskNum] at hle
      omega)
    have hc : m.shared dirs p c d n (c, d, some ⟨n, hn⟩) = none := by
      rw [shared_self, if_neg (lt_irrefl _)]
    have hpc : (c, d, some (⟨n, hn⟩ : Fin 1024)) ≠ (p, d, some ⟨n, hn⟩) := fun he =>
      S.ne (congrArg Prod.fst he).symm
    refine ⟨⟨?_, ?_, ?_, ?_, ?_⟩, rfl, rfl⟩
    · show Cow.Counted m.Avail own (update m.p_bit_map g ((m.p_bit_map g + 1) % 256))
        ((m.setEntry pte n (setWrite (m.entry pte n) false)).shared dirs p c d (n + 1))
      rw [hmod, S.shared_succ hn hh]
      exact (S.counted.protect (S.le_shared hx)).join (update_self ..) rfl
        ((update_of_ne hpc _ _).trans hc)
    · exact (congrFun hh _).trans ((update_of_ne (by simp) _ _).trans S.table)
    · exact (congrFun hh _).trans ((update_of_ne (by simp) _ _).trans S.empty)
    · intro t ht f b hf
      have hf' : (m.setEntry pte n (setWrite (m.entry pte n) false)).held dirs (p, d, some t) =
        some (f, b) := hf
      rw [hh] at hf'
      by_cases htn : (t : ℕ) = n
      · obtain rfl : t = ⟨n, hn⟩ := Fin.ext htn
        rw [update_self] at hf'
        cases hf'
        rfl
      · have hne : (some t : Option (Fin 1024)) ≠ some ⟨n, hn⟩ := fun he =>
          htn (congrArg Fin.val (Option.some.inj he))
        rw [update_of_ne (by simp [hne])] at hf'
        exact S.readOnly t (by omega) f b hf'
    · have hne : ∀ y b, (m.setEntry pte n (setWrite (m.entry pte n) false)).held dirs (ent y) ≠
          some (pte, b) := by
        intro y b hy
        rw [hh] at hy
        by_cases hyx : ent y = (p, d, some ⟨n, hn⟩)
        · rw [hyx, update_self] at hy
          have hgp : g = pte := congrArg Prod.fst (Option.some.inj hy)
          rw [hgp] at hx
          exact S.table_ne_page (p, d, ⟨n, hn⟩) _ hx
        · rw [update_of_ne hyx] at hy
          exact S.table_ne_page y b hy
      refine (pages_setEntry (t := ⟨n, hn⟩) hne).trans ?_
      rw [hh, Cow.view_right hx]
      exact S.pages
  · rw [if_pos hp] at h
    cases h
    refine ⟨S.skip hn ?_, rfl, rfl⟩
    rw [hent]
    exact pteOf_eq_none.2 (Bool.eq_false_iff.2 hp)

/-- The whole table. -/
theorem run (S : m.Sharing own dirs p c d pte 0 P) (hn : n ≤ 1024)
    (h : shareEntries m pte n = .ok m') :
    m'.Sharing own dirs p c d pte n P ∧ m'.start = m.start ∧ m'.total = m.total := by
  induction n generalizing m' with
  | zero =>
    cases h
    exact ⟨S, rfl, rfl⟩
  | succ n ih =>
    obtain ⟨m₁, h₁, h⟩ := bind_eq_ok.1 h
    obtain ⟨S₁, hs, hT⟩ := ih (by omega) h₁
    obtain ⟨S₂, hs', hT'⟩ := S₁.step hn h
    exact ⟨S₂, hs'.trans hs, hT'.trans hT⟩

theorem start (H : m.Ok own (m.held dirs)) (ht : m.held dirs (p, d, none) = some (pte, true))
    (hc : m.held dirs (c, d, none) = none) : m.Sharing own dirs p c d pte 0 (m.pages dirs) := by
  have hsame : m.shared dirs p c d 0 = m.held dirs := by
    ext1 ⟨j, e, s⟩
    by_cases hje : j = c ∧ e = d
    · obtain ⟨rfl, rfl⟩ := hje
      cases s with
      | none =>
        rw [hc]
        exact if_pos ⟨rfl, rfl⟩
      | some t => rw [shared_self, if_neg (Nat.not_lt_zero _), held_none hc]
    · exact shared_of_ne hje
  exact ⟨hsame ▸ H.counted, ht, hc, fun t ht => absurd ht (Nat.not_lt_zero _), rfl⟩

/-- The copy of the table is the table of the new task. -/
theorem finish (S : m.Sharing own dirs p c d pte 1024 P) (hT : m.total ≤ 2 ^ 20) (fp : ℕ) {paddr w : ℕ}
    (ha : m.Avail paddr) (h0 : m.p_bit_map paddr = 0) (hw : tableOf w = some paddr) :
    m.Goes ((m.withCount paddr 1 fp).fill paddr (m.data pte)) own
      (update dirs c (update (dirs c) (firstDidx + d) w))
      (fun y => if y.1 = c ∧ y.2.1 = d then P (p, y.2) else P y) := by
  set m₂ := (m.withCount paddr 1 fp).fill paddr (m.data pte) with hm₂
  have hfree := S.counted.not_held h0
  have hheld : m₂.held dirs = m.held dirs :=
    held_fill (m := m.withCount paddr 1 fp)
      (fun j e (hj : m.held dirs (j, e, none) = some (paddr, true)) =>
        hfree _ _ (S.le_shared hj)) _
  have hent : ∀ t, m₂.entry paddr t = m.entry pte t := by
    intro t
    simp only [hm₂, entry, fill, withCount, update_self]
  have hh : m₂.held (update dirs c (update (dirs c) (firstDidx + d) w)) =
      update (m.shared dirs p c d 1024) (c, d, none) (some (paddr, true)) := by
    rw [held_setTable (by rw [hheld, S.empty]) hw, hheld]
    ext1 ⟨j, e, s⟩
    by_cases hje : j = c ∧ e = d
    · rw [if_pos hje]
      obtain ⟨rfl, rfl⟩ := hje
      cases s with
      | none => rw [update_self, Option.elim_none]
      | some t =>
        rw [update_of_ne (by simp), shared_self, if_pos t.isLt, held_entry S.table, Option.elim_some,
          hent]
    · rw [if_neg hje, update_of_ne (by rintro he; cases he; exact hje ⟨rfl, rfl⟩), shared_of_ne hje]
  have hn : m.shared dirs p c d 1024 (c, d, none) = none := if_pos ⟨rfl, rfl⟩
  refine ⟨⟨hh ▸ S.counted.take ha h0 hn, hT⟩, rfl, rfl, ?_⟩
  rw [Frames.pages, hh, view_comp_ent, update_ent_table, ← view_comp_ent]
  refine (congrArg (· ∘ ent) (Cow.view_fill hfree)).trans ?_
  ext1 ⟨j, e, t⟩
  rw [← S.pages]
  by_cases hje : j = c ∧ e = d
  · rw [if_pos hje]
    obtain ⟨rfl, rfl⟩ := hje
    show Option.map _ (m.shared dirs p j e 1024 (j, e, some t)) = _
    rw [shared_self, if_pos t.isLt]
    rfl
  · rw [if_neg hje]
    show Option.map _ (m.shared dirs p c d 1024 (j, e, some t)) = _
    rw [shared_of_ne hje]
    rfl

end Sharing

/-! ## All tables -/

/-- The part of a directory up to the `n`th entry for user addresses. -/
def cut (dir : ℕ → ℕ) (n : ℕ) : ℕ → ℕ := fun k => if k < firstDidx + n then dir k else 0

/-- An entry behind the part is missing. -/
theorem held_cut_of_le {dir : ℕ → ℕ} (hd : n ≤ d) :
    m.held (update dirs c (cut dir n)) (c, d, none) = none := by
  have h0 : cut dir n (firstDidx + d) = 0 := if_neg (by omega)
  simp only [held, slot, update_self, h0, tableOf_zero, Option.map_none]

/-- The part grows by an entry that is not there. -/
theorem held_cut_succ (m : Frames) (dirs : Dirs) (c : Fin taskNum) {dir : ℕ → ℕ}
    (h : entPresent (dir (firstDidx + n)) = false) :
    m.held (update dirs c (cut dir (n + 1))) = m.held (update dirs c (cut dir n)) := by
  have hslot : ∀ d : UserDidx, tableOf (cut dir (n + 1) (firstDidx + d)) =
      tableOf (cut dir n (firstDidx + d)) := by
    intro d
    unfold cut
    by_cases hd : (d : ℕ) = n
    · rw [if_pos (by omega), if_neg (by omega), hd, tableOf_of_absent h, tableOf_zero]
    · by_cases hlt : (d : ℕ) < n
      · rw [if_pos (by omega), if_pos (by omega)]
      · rw [if_neg (by omega), if_neg (by omega)]
  ext1 ⟨j, e, s⟩
  by_cases hj : j = c
  · subst hj
    cases s with
    | none => simp only [held, slot, update_self, hslot]
    | some t => simp only [held, slot, update_self, hslot]
  · simp only [held, update_of_ne hj]

theorem cut_update (dir : ℕ → ℕ) (n w : ℕ) :
    update (cut dir n) (firstDidx + n) w = cut (update dir (firstDidx + n) w) (n + 1) := by
  ext1 k
  unfold cut
  by_cases hk : k = firstDidx + n
  · rw [hk, update_self, update_self, if_pos (by omega)]
  · rw [update_of_ne hk, update_of_ne hk]
    by_cases hlt : k < firstDidx + n
    · rw [if_pos hlt, if_pos (by omega)]
    · rw [if_neg hlt, if_neg (by omega)]

/-- What the pages are when task `c` has a copy of the first `n` tables of `p`. -/
def copied (P : Page → Option Bytes) (p c : Fin taskNum) (n : ℕ) : Page → Option Bytes := fun y =>
  if y.1 = c then if y.2.1 < n then P (p, y.2) else none else P y

/-- A table with nothing mapped. -/
theorem copied_succ {hn : n < 1023 - firstDidx} (h : ∀ t, P (p, ⟨n, hn⟩, t) = none) :
    copied P p c (n + 1) = copied P p c n := by
  ext1 ⟨j, e, t⟩
  unfold copied
  by_cases hj : j = c
  · rw [if_pos hj, if_pos hj]
    by_cases he : (e : ℕ) = n
    · obtain rfl : e = ⟨n, hn⟩ := Fin.ext he
      rw [h, ite_self, ite_self]
    · simp only [Nat.lt_succ_iff_lt_or_eq, he, or_false]
  · rw [if_neg hj, if_neg hj]

theorem copied_step (hpc : p ≠ c) (hn : n < 1023 - firstDidx) :
    (fun y => if y.1 = c ∧ y.2.1 = ⟨n, hn⟩ then copied P p c n (p, y.2) else copied P p c n y) =
      copied P p c (n + 1) := by
  ext1 ⟨j, e, t⟩
  unfold copied
  by_cases hj : j = c
  · by_cases he : (e : ℕ) = n
    · rw [if_pos ⟨hj, Fin.ext he⟩, if_neg hpc, if_pos hj, if_pos (show (e : ℕ) < n + 1 by omega)]
    · have hne : ¬ (j = c ∧ e = ⟨n, hn⟩) := fun h => he (congrArg Fin.val h.2)
      rw [if_neg hne, if_pos hj, if_pos hj]
      simp only [Nat.lt_succ_iff_lt_or_eq, he, or_false]
  · rw [if_neg (fun h => hj h.1), if_neg hj, if_neg hj]

/-- The loop invariant of `copy_pde`: `child` is the directory of `c`, as far as it is copied. -/
structure Copying (m m' : Frames) (own : ℕ → Prop) (dirs : Dirs) (p c : Fin taskNum)
    (child : ℕ → ℕ) (n : ℕ) : Prop where
  goes : m.Goes m' own (update dirs c (cut child n)) (copied (m.pages dirs) p c n)
  rest : ∀ k, firstDidx + n ≤ k → child k = dirs p k

/-- A table that is there can be shared next. -/
theorem Copying.sharing {m₁ : Frames} {child : ℕ → ℕ} (I : Copying m m₁ own dirs p c child n)
    (hpc : p ≠ c) (hn : n < 1023 - firstDidx) (hp : entPresent (child (firstDidx + n)) = true) :
    m₁.Sharing own (update dirs c (cut child n)) p c ⟨n, hn⟩ (entIndex (dirs p (firstDidx + n))) 0
      (m₁.pages (update dirs c (cut child n))) := by
  refine Sharing.start I.goes.ok ?_ (held_cut_of_le le_rfl)
  show Option.map _ (tableOf _) = _
  rw [update_of_ne hpc, tableOf_of_present (I.rest _ le_rfl ▸ hp), Option.map_some]

/-- One turn of the loop. -/
theorem Copying.step {m₁ : Frames} {child child' : ℕ → ℕ}
    (I : Copying m m₁ own dirs p c child n) (hpc : p ≠ c) (hn : n < 1023 - firstDidx)
    (h : copyPdeTurn (dirs p) m₁ child (firstDidx + n) = .ok (m', child')) :
    Copying m m' own dirs p c child' (n + 1) := by
  have hsh := I.sharing hpc hn
  obtain ⟨⟨H, hs, hT, hpg⟩, hrest⟩ := I
  have hchild := hrest (firstDidx + n) le_rfl
  unfold copyPdeTurn at h
  by_cases hp : entPresent (child (firstDidx + n)) = true
  · have S₀ := hsh hp
    rw [if_neg (not_not.2 hp)] at h
    obtain ⟨m₂, h₂, h⟩ := bind_eq_ok.1 h
    obtain ⟨⟨m₃, paddr⟩, h₃, h⟩ := bind_eq_ok.1 h
    obtain ⟨ha, h0, rfl⟩ := copyPhyPage_spec h₃
    cases h
    obtain ⟨S, hs', hT'⟩ := S₀.run le_rfl h₂
    have hw := tableOf_setIndex hp paddr
    obtain ⟨H₃, hs₃, hT₃, hpg₃⟩ := S.finish (hT'.trans_le H.total) (m₂.free_pages - 1) ha h0 hw
    have hdir : update (update dirs c (cut child n)) c (update (update dirs c (cut child n) c)
        (firstDidx + n) (setIndex (child (firstDidx + n)) paddr)) =
        update dirs c (cut (update child (firstDidx + n) (setIndex (child (firstDidx + n)) paddr))
          (n + 1)) := by
      rw [update_self, update_idem, cut_update]
    rw [hdir] at H₃ hpg₃
    refine ⟨⟨H₃, (hs₃.trans hs').trans hs, (hT₃.trans hT').trans hT, hpg₃.trans ?_⟩, ?_⟩
    · rw [hpg]
      exact copied_step hpc hn
    · intro k hk
      rw [update_of_ne (by omega), hrest k (by omega)]
  · rw [if_pos hp] at h
    cases h
    have habs := Bool.eq_false_iff.2 hp
    have hcut := held_cut_succ m' dirs c habs
    refine ⟨⟨hcut ▸ H, hs, hT, ?_⟩, fun k hk => hrest k (by omega)⟩
    have hpg' : m'.pages (update dirs c (cut child (n + 1))) =
        m'.pages (update dirs c (cut child n)) := by
      rw [pages, hcut, pages]
    have hnone : ∀ t, m.pages dirs (p, ⟨n, hn⟩, t) = none := by
      intro t
      have hy := congrFun hpg (p, ⟨n, hn⟩, t)
      rw [copied, if_neg hpc] at hy
      rw [← hy]
      refine Option.map_eq_none_iff.2 (held_none ?_ _)
      show Option.map _ (tableOf _) = _
      rw [update_of_ne hpc, ← hchild, tableOf_of_absent habs, Option.map_none]
    rw [hpg', hpg]
    exact (copied_succ hnone).symm

/-- The first turns of the loop. -/
theorem Copying.run (H : m.Ok own (m.held dirs)) (hpc : p ≠ c)
    (hc : ∀ d, m.held dirs (c, d, none) = none) (hn : n ≤ 1023 - firstDidx) {child : ℕ → ℕ}
    (h : copyPdeTurns (dirs p) m n = .ok (m', child)) : Copying m m' own dirs p c child n := by
  induction n generalizing m' child with
  | zero =>
    cases h
    have hsame : m.held (update dirs c (cut (dirs p) 0)) = m.held dirs := by
      ext1 ⟨j, d, s⟩
      by_cases hj : j = c
      · subst hj
        rw [held_none (held_cut_of_le (Nat.zero_le _)), held_none (hc d)]
      · simp only [held, update_of_ne hj]
    refine ⟨⟨hsame ▸ H, rfl, rfl, ?_⟩, fun k _ => rfl⟩
    rw [pages, hsame]
    ext1 ⟨j, d, t⟩
    unfold copied
    by_cases hj : j = c
    · rw [if_pos hj, if_neg (Nat.not_lt_zero _)]
      subst hj
      exact Option.map_eq_none_iff.2 (held_none (hc d) _)
    · rw [if_neg hj]
      rfl
  | succ n ih =>
    obtain ⟨⟨m₁, child₁⟩, h₁, h⟩ := bind_eq_ok.1 h
    exact (ih (by omega) h₁).step hpc (by omega) h

/-- **copy_pde gives the child the parent's contents** and keeps all others. -/
theorem Ok.copyPde (H : m.Ok own (m.held dirs)) (hpc : p ≠ c)
    (hc : ∀ d, m.held dirs (c, d, none) = none) {child : ℕ → ℕ}
    (h : copyPde m (dirs p) = .ok (m', child)) :
    m.Goes m' own (update dirs c child)
      (fun y => if y.1 = c then m.pages dirs (p, y.2) else m.pages dirs y) := by
  obtain ⟨⟨H', hs, hT, hpg⟩, -⟩ := Copying.run H hpc hc le_rfl h
  have hsame : m'.held (update dirs c (cut child (1023 - firstDidx))) =
      m'.held (update dirs c child) := by
    have hcut : ∀ d : UserDidx, cut child (1023 - firstDidx) (firstDidx + d) =
        child (firstDidx + d) := fun d => if_pos (by have := d.isLt; omega)
    ext1 ⟨j, d, s⟩
    by_cases hj : j = c
    · subst hj
      cases s with
      | none => simp only [held, slot, update_self, hcut]
      | some t => simp only [held, slot, update_self, hcut]
    · simp only [held, update_of_ne hj]
  refine ⟨hsame ▸ H', hs, hT, ?_⟩
  rw [pages, ← hsame]
  refine hpg.trans ?_
  ext1 ⟨j, d, t⟩
  unfold copied
  rw [if_pos d.isLt]

/-- A directory without tables for user addresses is copied as it is. -/
theorem copyPde_of_absent {pde : ℕ → ℕ} (h : ∀ d : UserDidx, entPresent (pde (firstDidx + d)) = false) :
    Rdix.copyPde m pde = .ok (m, pde) := by
  have hrun : ∀ n ≤ 1023 - firstDidx, copyPdeTurns pde m n = .ok (m, pde) := by
    intro n
    induction n with
    | zero => exact fun _ => rfl
    | succ n ih =>
      intro hn
      rw [copyPdeTurns, ih (by omega)]
      show copyPdeTurn pde m pde (firstDidx + n) = _
      rw [copyPdeTurn, if_pos (by rw [h ⟨n, hn⟩]; exact Bool.false_ne_true)]
      rfl
  exact hrun _ le_rfl

/-- Sharing a table that does not map frame `f` ends, and leaves `f` alone. -/
theorem shareEntries_ok {f : ℕ} (hf : ∀ t : Fin 1024, (pteOf (m.entry pte t)).map Prod.fst ≠ some f)
    (hn : n ≤ 1024) :
    ∃ m', shareEntries m pte n = .ok m' ∧ m'.start = m.start ∧ m'.total = m.total ∧
      m'.free_pages = m.free_pages ∧ m'.p_bit_map f = m.p_bit_map f ∧
      ∀ t : Fin 1024, n ≤ t → m'.entry pte t = m.entry pte t := by
  induction n with
  | zero => exact ⟨m, rfl, rfl, rfl, rfl, rfl, fun _ _ => rfl⟩
  | succ n ih =>
    obtain ⟨m₁, h₁, hs, hT, hfp, hp, he⟩ := ih (by omega)
    have hent : m₁.entry pte n = m.entry pte n := he ⟨n, hn⟩ le_rfl
    have hidx := hf ⟨n, hn⟩
    by_cases hpr : entPresent (m.entry pte n) = true
    · have hne : f ≠ entIndex (m.entry pte n) := by
        rintro rfl
        exact hidx (by rw [pteOf_eq_some.2 ⟨hpr, rfl, rfl⟩, Option.map_some])
      have hc : chained (m₁.p_bit_map (entIndex (m.entry pte n))) 255 := by
        unfold chained
        split_ifs <;> decide
      refine ⟨(m₁.setEntry pte n (setWrite (m.entry pte n) false)).withCount (entIndex (m.entry pte n))
        ((m₁.p_bit_map (entIndex (m.entry pte n)) + 1) % 256) m₁.free_pages, ?_, hs, hT, hfp,
        (update_of_ne hne _ _).trans hp, fun t ht => ?_⟩
      · rw [shareEntries, h₁, ok_bind, shareEntry, hent, if_neg (not_not.2 hpr), cassert_pos hc]
        rfl
      · have hnt : t ≠ ⟨n, hn⟩ := by
          rintro rfl
          exact absurd ht (Nat.not_succ_le_self n)
        exact (entry_setEntry_ne (t := ⟨n, hn⟩) (Or.inr hnt)).trans (he t (by omega))
    · refine ⟨m₁, ?_, hs, hT, hfp, hp, fun t ht => he t (by omega)⟩
      rw [shareEntries, h₁, ok_bind, shareEntry, hent, if_pos hpr]
      rfl

/-- A directory with one table is copied if there is a frame for the copy. -/
theorem copyPde_one {pde : ℕ → ℕ} {f : ℕ} (hd : tableOf (pde (firstDidx + d)) = some pte)
    (hn : ∀ e : UserDidx, e ≠ d → entPresent (pde (firstDidx + e)) = false)
    (hf : ∀ t : Fin 1024, (pteOf (m.entry pte t)).map Prod.fst ≠ some f)
    (ha : m.Avail f) (hz : m.p_bit_map f = 0) (h0 : m.free_pages ≠ 0) :
    ∃ r, Rdix.copyPde m pde = .ok r := by
  obtain ⟨m₁, h₁, hs, hT, hfp, hp, -⟩ := shareEntries_ok hf le_rfl
  obtain ⟨⟨m₂, g⟩, h₂⟩ := getPPage_of_free (hfp ▸ h0) (f := f)
    ⟨hs.trans_le ha.1, ha.2.trans_eq hT.symm⟩ (hp.trans hz)
  have hrun : ∀ n ≤ 1023 - firstDidx, ∃ r, copyPdeTurns pde m n = .ok r ∧
      (n ≤ d → r = (m, pde)) ∧ ∀ k, k ≠ firstDidx + (d : ℕ) → r.2 k = pde k := by
    intro n
    induction n with
    | zero => exact fun _ => ⟨_, rfl, fun _ => rfl, fun _ _ => rfl⟩
    | succ n ih =>
      intro hn'
      obtain ⟨⟨m', child⟩, hr, hle, hk⟩ := ih (by omega)
      rw [copyPdeTurns, hr, ok_bind]
      by_cases he : n = d
      · obtain ⟨rfl, rfl⟩ := Prod.mk.inj (hle he.le)
        have hpr : entPresent (child (firstDidx + n)) = true := by
          by_contra hp
          rw [← he, tableOf_of_absent (Bool.eq_false_iff.2 hp)] at hd
          cases hd
        have hidx : entIndex (child (firstDidx + n)) = pte := by
          rw [← he, tableOf_of_present hpr] at hd
          exact Option.some.inj hd
        refine ⟨(m₂.fill g (m₂.data pte),
          update child (firstDidx + n) (setIndex (child (firstDidx + n)) g)), ?_,
          fun hc => absurd hc (by omega), fun k hk' => update_of_ne (he ▸ hk') _ _⟩
        dsimp only
        rw [copyPdeTurn, if_neg (not_not.2 hpr), hidx]
        dsimp only
        rw [h₁, ok_bind, copyPhyPage, h₂]
        rfl
      · have habs := hn ⟨n, hn'⟩ fun hc => he (congrArg Fin.val hc)
        rw [← hk (firstDidx + n) (by omega)] at habs
        refine ⟨(m', child), ?_, fun hc => hle (by omega), hk⟩
        dsimp only
        rw [copyPdeTurn, if_pos (by rw [habs]; exact Bool.false_ne_true)]
        rfl
  obtain ⟨r, hr, -⟩ := hrun _ le_rfl
  exact ⟨r, hr⟩

/-! ## Giving all pages back -/

theorem held_congr (h : m'.data = m.data) (dirs : Dirs) : m'.held dirs = m.held dirs := by
  ext1 ⟨j, d, s⟩
  cases s with
  | none => rfl
  | some t => simp only [held, slot, entry, h]

/-- What is held when task `p` has lost the first `n` entries of its table `d`. -/
def dropped (m : Frames) (dirs : Dirs) (p : Fin taskNum) (d : UserDidx) (n : ℕ) :
    Cow.Holds (Fin taskNum) Spot ℕ := fun x =>
  if x.1 = p ∧ x.2.1 = d then
    x.2.2.elim (m.held dirs x) fun t => if t < n then none else m.held dirs x
  else m.held dirs x

theorem dropped_of_ne {x : Fin taskNum × Spot} (h : ¬ (x.1 = p ∧ x.2.1 = d)) :
    m.dropped dirs p d n x = m.held dirs x := if_neg h

theorem dropped_self (t : Fin 1024) :
    m.dropped dirs p d n (p, d, some t) = if t < n then none else m.held dirs (p, d, some t) :=
  if_pos ⟨rfl, rfl⟩

theorem dropped_table : m.dropped dirs p d n (p, d, none) = m.held dirs (p, d, none) :=
  if_pos ⟨rfl, rfl⟩

/-- The next entry goes. -/
theorem dropped_succ (hn : n < 1024) :
    m.dropped dirs p d (n + 1) = update (m.dropped dirs p d n) (p, d, some ⟨n, hn⟩) none := by
  ext1 ⟨j, e, s⟩
  by_cases hje : j = p ∧ e = d
  · obtain ⟨rfl, rfl⟩ := hje
    cases s with
    | none => rw [update_of_ne (by simp), dropped_table, dropped_table]
    | some t =>
      by_cases ht : (t : ℕ) = n
      · obtain rfl : t = ⟨n, hn⟩ := Fin.ext ht
        rw [update_self, dropped_self, if_pos (Nat.lt_succ_self _)]
      · have hne : (some t : Option (Fin 1024)) ≠ some ⟨n, hn⟩ := fun he =>
          ht (congrArg Fin.val (Option.some.inj he))
        rw [update_of_ne (by simp [hne]), dropped_self, dropped_self]
        simp only [Nat.lt_succ_iff_lt_or_eq, ht, or_false]
  · have hne : (j, e, s) ≠ (p, d, some ⟨n, hn⟩) := by
      rintro he
      cases he
      exact hje ⟨rfl, rfl⟩
    rw [update_of_ne hne, dropped_of_ne hje, dropped_of_ne hje]

/-- `free_pde` changes counts only. -/
structure Freed (m m' : Frames) (own : ℕ → Prop) (M : Cow.Holds (Fin taskNum) Spot ℕ) : Prop where
  counted : Cow.Counted m.Avail own m'.p_bit_map M
  data : m'.data = m.data
  start : m'.start = m.start
  total : m'.total = m.total

section Freed
variable {m₁ : Frames} {M : Cow.Holds (Fin taskNum) Spot ℕ}

/-- A holder's frame is freed. -/
theorem Freed.drop (I : m.Freed m₁ own M) {x : Fin taskNum × Spot} {f : ℕ} {b : Bool}
    (hx : M x = some (f, b)) (h : freePPage m₁ f = .ok m') : m.Freed m' own (update M x none) := by
  obtain ⟨-, fp, rfl⟩ := freePPage_spec h
  exact ⟨I.counted.drop hx, I.data, I.start, I.total⟩

/-- One turn of the inner loop. -/
theorem Freed.entry (I : m.Freed m₁ own (m.dropped dirs p d n))
    (ht : m.held dirs (p, d, none) = some (pte, true)) (hn : n < 1024)
    (h : freeEntry m₁ pte n = .ok m') : m.Freed m' own (m.dropped dirs p d (n + 1)) := by
  have hx : m.dropped dirs p d n (p, d, some ⟨n, hn⟩) = pteOf (m₁.entry pte n) := by
    have hent := held_entry ht ⟨n, hn⟩
    rw [dropped_self, if_neg (lt_irrefl _), hent]
    simp only [Frames.entry, I.data]
  rw [dropped_succ hn]
  unfold freeEntry at h
  by_cases hp : entPresent (m₁.entry pte n) = true
  · rw [if_neg (not_not.2 hp)] at h
    obtain ⟨-, h⟩ := cassert_bind_eq_ok.1 h
    exact I.drop (hx.trans (pteOf_eq_some.2 ⟨hp, rfl, rfl⟩)) h
  · rw [if_pos hp] at h
    cases h
    rw [pteOf_eq_none.2 (Bool.eq_false_iff.2 hp)] at hx
    rwa [← hx, update_eq_self]

/-- The whole table. -/
theorem Freed.entries (I : m.Freed m₁ own (m.dropped dirs p d 0))
    (ht : m.held dirs (p, d, none) = some (pte, true)) (hn : n ≤ 1024)
    (h : freeEntries m₁ pte n = .ok m') : m.Freed m' own (m.dropped dirs p d n) := by
  induction n generalizing m' with
  | zero =>
    cases h
    exact I
  | succ n ih =>
    obtain ⟨m₂, h₂, h⟩ := bind_eq_ok.1 h
    exact (ih (by omega) h₂).entry ht hn h

/-- The directory without its first `n` entries for user addresses. -/
def tail (dir : ℕ → ℕ) (n : ℕ) : ℕ → ℕ := fun k => if k < firstDidx + n then 0 else dir k

theorem held_tail (hd : n ≤ d) (s : Option (Fin 1024)) :
    m.held (update dirs p (tail (dirs p) n)) (p, d, s) = m.held dirs (p, d, s) := by
  have h0 : tail (dirs p) n (firstDidx + d) = dirs p (firstDidx + d) := if_neg (by omega)
  cases s with
  | none => simp only [held, slot, update_self, h0]
  | some t => simp only [held, slot, update_self, h0]

theorem held_tail_of_lt (hd : d < n) (s : Option (Fin 1024)) :
    m.held (update dirs p (tail (dirs p) n)) (p, d, s) = none := by
  refine held_none ?_ s
  have h0 : tail (dirs p) n (firstDidx + d) = 0 := if_pos (by omega)
  simp only [held, slot, update_self, h0, tableOf_zero, Option.map_none]

/-- Without the entry for the next table. -/
theorem held_tail_succ (hn : n < 1023 - firstDidx) :
    m.held (update dirs p (tail (dirs p) (n + 1))) =
      update (m.dropped (update dirs p (tail (dirs p) n)) p ⟨n, hn⟩ 1024) (p, ⟨n, hn⟩, none)
        none := by
  ext1 ⟨j, e, s⟩
  by_cases hj : j = p
  · subst hj
    rcases lt_trichotomy (e : ℕ) n with he | he | he
    · have hne : ¬ (j = j ∧ e = ⟨n, hn⟩) := fun h => absurd (congrArg Fin.val h.2) (ne_of_lt he)
      have hne' : (j, e, s) ≠ (j, ⟨n, hn⟩, none) := by
        rintro h
        cases h
        exact hne ⟨rfl, rfl⟩
      rw [held_tail_of_lt (by omega), update_of_ne hne', dropped_of_ne hne, held_tail_of_lt he]
    · obtain rfl : e = ⟨n, hn⟩ := Fin.ext he
      rw [held_tail_of_lt (show n < n + 1 by omega)]
      cases s with
      | none => rw [update_self]
      | some t => rw [update_of_ne (by simp), dropped_self, if_pos t.isLt]
    · have hne : ¬ (j = j ∧ e = ⟨n, hn⟩) := fun h => absurd (congrArg Fin.val h.2) (ne_of_gt he)
      have hne' : (j, e, s) ≠ (j, ⟨n, hn⟩, none) := by
        rintro h
        cases h
        exact hne ⟨rfl, rfl⟩
      rw [held_tail (by omega), update_of_ne hne', dropped_of_ne hne, held_tail (by omega)]
  · have hne : (j, e, s) ≠ (p, ⟨n, hn⟩, none) := fun h => hj (congrArg Prod.fst h)
    rw [update_of_ne hne, dropped_of_ne (fun h => hj h.1)]
    simp only [held, update_of_ne hj]

/-- One turn of the outer loop. -/
theorem Freed.turn (I : m.Freed m₁ own (m.held (update dirs p (tail (dirs p) n))))
    (hn : n < 1023 - firstDidx) (h : freePdeTurn (dirs p) m₁ (firstDidx + n) = .ok m') :
    m.Freed m' own (m.held (update dirs p (tail (dirs p) (n + 1)))) := by
  set dirs₁ := update dirs p (tail (dirs p) n)
  have hslot : m.held dirs₁ (p, ⟨n, hn⟩, none) =
      (tableOf (dirs p (firstDidx + n))).map fun f => (f, true) := held_tail le_rfl none
  have h0 : m.dropped dirs₁ p ⟨n, hn⟩ 0 = m.held dirs₁ := by
    ext1 ⟨j, e, s⟩
    by_cases hje : j = p ∧ e = ⟨n, hn⟩
    · obtain ⟨rfl, rfl⟩ := hje
      cases s with
      | none => exact dropped_table
      | some t => rw [dropped_self, if_neg (Nat.not_lt_zero _)]
    · exact dropped_of_ne hje
  rw [held_tail_succ hn]
  unfold freePdeTurn at h
  by_cases hp : entPresent (dirs p (firstDidx + n)) = true
  · rw [if_neg (not_not.2 hp)] at h
    obtain ⟨m₂, h₂, h⟩ := bind_eq_ok.1 h
    rw [tableOf_of_present hp, Option.map_some] at hslot
    exact ((h0 ▸ I).entries hslot le_rfl h₂).drop (dropped_table.trans hslot) h
  · rw [if_pos hp] at h
    cases h
    rw [tableOf_of_absent (Bool.eq_false_iff.2 hp), Option.map_none] at hslot
    have hsame : update (m.dropped dirs₁ p ⟨n, hn⟩ 1024) (p, ⟨n, hn⟩, none) none =
        m.held dirs₁ := by
      ext1 ⟨j, e, s⟩
      by_cases hje : j = p ∧ e = ⟨n, hn⟩
      · obtain ⟨rfl, rfl⟩ := hje
        rw [held_none hslot]
        cases s with
        | none => rw [update_self]
        | some t => rw [update_of_ne (by simp), dropped_self, if_pos t.isLt]
      · have hne : (j, e, s) ≠ (p, ⟨n, hn⟩, none) := by
          rintro h
          cases h
          exact hje ⟨rfl, rfl⟩
        rw [update_of_ne hne, dropped_of_ne hje]
    rwa [hsame]

end Freed

/-- `free_pde` gives back what the task holds, and writes to no frame. -/
theorem Ok.freed (H : m.Ok own (m.held dirs)) (h : freePde m (dirs p) = .ok m') :
    m.Freed m' own (m.held (update dirs p fun _ => 0)) := by
  have hrun : ∀ n ≤ 1023 - firstDidx, ∀ m', freePdeTurns (dirs p) m n = .ok m' →
      m.Freed m' own (m.held (update dirs p (tail (dirs p) n))) := by
    intro n
    induction n with
    | zero =>
      intro _ m' h
      cases h
      have hsame : m.held (update dirs p (tail (dirs p) 0)) = m.held dirs := by
        ext1 ⟨j, d, s⟩
        by_cases hj : j = p
        · rw [hj, held_tail (Nat.zero_le _)]
        · simp only [held, update_of_ne hj]
      exact ⟨hsame ▸ H.counted, rfl, rfl, rfl⟩
    | succ n ih =>
      intro hn m' h
      obtain ⟨m₁, h₁, h⟩ := bind_eq_ok.1 h
      exact (ih (by omega) m₁ h₁).turn (by omega) h
  have hsame : m.held (update dirs p (tail (dirs p) (1023 - firstDidx))) =
      m.held (update dirs p fun _ => 0) := by
    ext1 ⟨j, d, s⟩
    by_cases hj : j = p
    · subst hj
      rw [held_tail_of_lt d.isLt, held_none]
      simp only [held, slot, update_self, tableOf_zero, Option.map_none]
    · simp only [held, update_of_ne hj]
  exact hsame ▸ hrun _ le_rfl m' h

/-- **free_pde gives back all pages of the task** and keeps those of the others. -/
theorem Ok.freePde (H : m.Ok own (m.held dirs)) (h : freePde m (dirs p) = .ok m') :
    m.Goes m' own (update dirs p fun _ => 0)
      (fun y => if y.1 = p then none else m.pages dirs y) := by
  obtain ⟨Hc, hdata, hs, hT⟩ := H.freed h
  have hav : m'.Avail = m.Avail := by
    unfold Avail
    rw [hs, hT]
  rw [← held_congr hdata] at Hc
  refine ⟨⟨hav ▸ Hc, hT.trans_le H.total⟩, hs, hT, ?_⟩
  rw [pages, held_congr hdata, hdata]
  ext1 ⟨j, d, t⟩
  show Option.map _ (m.held _ (j, d, some t)) = _
  by_cases hj : j = p
  · subst hj
    rw [if_pos rfl, held_none, Option.map_none]
    simp only [held, slot, update_self, tableOf_zero, Option.map_none]
  · rw [if_neg hj]
    simp only [held, update_of_ne hj]
    rfl

/-- Without tables for user addresses there is nothing to give back. -/
theorem freePde_of_absent {pde : ℕ → ℕ}
    (h : ∀ d : UserDidx, entPresent (pde (firstDidx + d)) = false) :
    Rdix.freePde m pde = .ok m := by
  have hrun : ∀ n ≤ 1023 - firstDidx, freePdeTurns pde m n = .ok m := by
    intro n
    induction n with
    | zero => exact fun _ => rfl
    | succ n ih =>
      intro hn
      rw [freePdeTurns, ih (by omega)]
      show freePdeTurn pde m (firstDidx + n) = _
      rw [freePdeTurn, if_pos (by rw [h ⟨n, hn⟩]; exact Bool.false_ne_true)]
      rfl
  exact hrun _ le_rfl

/-- A directory with one table, with one page. -/
theorem freePde_one {pde : ℕ → ℕ} {m₁ m₂ : Frames} {t : Fin 1024} {f g : ℕ} {b : Bool}
    (hd : tableOf (pde (firstDidx + d)) = some f)
    (hn : ∀ e : UserDidx, e ≠ d → entPresent (pde (firstDidx + e)) = false)
    (ht : pteOf (m.entry f t) = some (g, b)) (hz : ∀ u : Fin 1024, u ≠ t → pteOf (m.entry f u) = none)
    (h₁ : freePPage m g = .ok m₁) (h₂ : freePPage m₁ f = .ok m₂) :
    Rdix.freePde m pde = .ok m₂ := by
  have hent : ∀ n ≤ 1024, Rdix.freeEntries m f n = .ok (if n ≤ t then m else m₁) := by
    intro n
    induction n with
    | zero =>
      intro _
      rw [if_pos (Nat.zero_le _)]
      rfl
    | succ n ih =>
      intro hn'
      have hm₁ : m₁.entry f n = m.entry f n := by
        obtain ⟨-, fp, rfl⟩ := freePPage_spec h₁
        rfl
      rw [Rdix.freeEntries, ih (by omega), ok_bind]
      rcases lt_trichotomy n t with hlt | rfl | hgt
      · have habs := pteOf_eq_none.1 (hz ⟨n, hn'⟩ fun he => hlt.ne (congrArg Fin.val he))
        rw [if_pos hlt.le, if_pos (Nat.succ_le_of_lt hlt), freeEntry,
          if_pos (by rw [habs]; exact Bool.false_ne_true)]
        rfl
      · obtain ⟨hp, hg, -⟩ := pteOf_eq_some.1 ht
        have hpos := (freePPage_spec h₁).1
        rw [if_pos le_rfl, if_neg (by omega), freeEntry, if_neg (not_not.2 hp), hg,
          cassert_pos hpos, ok_bind, h₁]
      · have habs := pteOf_eq_none.1 (hz ⟨n, hn'⟩ fun he => hgt.ne' (congrArg Fin.val he))
        rw [← hm₁] at habs
        rw [if_neg (by omega), if_neg (by omega), freeEntry,
          if_pos (by rw [habs]; exact Bool.false_ne_true)]
        rfl
  have hrun : ∀ n ≤ 1023 - firstDidx, freePdeTurns pde m n = .ok (if n ≤ d then m else m₂) := by
    intro n
    induction n with
    | zero =>
      intro _
      rw [if_pos (Nat.zero_le _)]
      rfl
    | succ n ih =>
      intro hn'
      rw [freePdeTurns, ih (by omega), ok_bind]
      by_cases he : n = d
      · rw [← he] at hd
        have hp : entPresent (pde (firstDidx + n)) = true := by
          by_contra hp
          rw [tableOf_of_absent (Bool.eq_false_iff.2 hp)] at hd
          cases hd
        have hf : entIndex (pde (firstDidx + n)) = f := by
          rw [tableOf_of_present hp] at hd
          exact Option.some.inj hd
        rw [if_pos (by omega), if_neg (by omega), freePdeTurn, if_neg (not_not.2 hp), hf,
          hent 1024 le_rfl, if_neg (by omega), ok_bind, h₂]
      · have habs := hn ⟨n, hn'⟩ fun hc => he (congrArg Fin.val hc)
        have hc : (n + 1 ≤ (d : ℕ)) ↔ n ≤ d := by omega
        rw [freePdeTurn, if_pos (by rw [habs]; exact Bool.false_ne_true), if_congr hc rfl rfl]
        rfl
  have hlast := hrun _ le_rfl
  rwa [if_neg (by have := d.isLt; omega)] at hlast

end Frames

end Rdix
