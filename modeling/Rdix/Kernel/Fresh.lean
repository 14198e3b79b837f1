/-
  What a page contains when it is mapped (kernel/memory.c: link_page).

  Two runs of the tasks are compared that differ only in bytes which tasks outside a set `L` store.

  * `Alike T`: two memories that differ only in what the frames in `T` contain; each operation
    does the same to both;
  * `Trail`: what the condition on a run has to know of its past: which tasks may have such bytes
    in their memory, and whether one of them has exited;
  * `Twins`: the invariant of the two runs;
  * `fresh_pages`: the tasks in `L` read the same in both, if they touch no page for the first time
    after such an exit.
-/
import Rdix.Kernel.FreePages
import Rdix.Kernel.Private

namespace Rdix

open Function Transition ByteMem

/-! ## Memories that differ in contents -/

namespace Frames

/-- The frames in `T` may have other contents. -/
structure Alike (T : Set ℕ) (m₁ m₂ : Frames) : Prop where
  rest : m₂ = { m₁ with data := m₂.data }
  data : ∀ f ∉ T, m₂.data f = m₁.data f

/-- The same result, with memories like these. -/
def LikeWith {β : Type} (T : Set ℕ) (r₁ r₂ : Frames × β) : Prop := r₁.1.Alike T r₂.1 ∧ r₂.2 = r₁.2

section
variable {T T' : Set ℕ} {m₁ m₂ : Frames} {f pte t w : ℕ}

theorem Alike.refl (T : Set ℕ) (m : Frames) : m.Alike T m := ⟨rfl, fun _ _ => rfl⟩

theorem Alike.mono (h : m₁.Alike T m₂) (hd : ∀ f ∉ T', f ∈ T → m₂.data f = m₁.data f) :
    m₁.Alike T' m₂ := by
  refine ⟨h.rest, fun f hf => ?_⟩
  by_cases hfT : f ∈ T
  · exact hd f hf hfT
  · exact h.data f hfT

theorem Alike.start (h : m₁.Alike T m₂) : m₂.start = m₁.start := by rw [h.rest]

theorem Alike.total (h : m₁.Alike T m₂) : m₂.total = m₁.total := by rw [h.rest]

theorem Alike.counts (h : m₁.Alike T m₂) : m₂.p_bit_map = m₁.p_bit_map := by rw [h.rest]

theorem Alike.entry (h : m₁.Alike T m₂) (hp : pte ∉ T) (t : ℕ) : m₂.entry pte t = m₁.entry pte t := by
  simp only [Frames.entry, h.data pte hp]

theorem Alike.setCounts (h : m₁.Alike T m₂) (p : ℕ → ℕ) :
    Alike T { m₁ with p_bit_map := p } { m₂ with p_bit_map := p } := by
  refine ⟨?_, h.data⟩
  rw [h.rest]

/-- A frame gets the same contents. -/
theorem Alike.fill (h : m₁.Alike T m₂) (f : ℕ) (bs : Bytes) :
    (m₁.fill f bs).Alike (T \ {f}) (m₂.fill f bs) := by
  refine ⟨?_, fun g hg => ?_⟩
  · rw [h.rest]
    rfl
  · show update m₂.data f bs g = update m₁.data f bs g
    by_cases hgf : g = f
    · rw [hgf, update_self, update_self]
    · rw [update_of_ne hgf, update_of_ne hgf]
      exact h.data g fun hgT => hg ⟨hgT, hgf⟩

/-- A frame gets the contents of one of its own. -/
theorem Alike.fillWith (h : m₁.Alike T m₂) (f : ℕ) {bs₁ bs₂ : Bytes} (hbs : f ∉ T' → bs₂ = bs₁)
    (hT : ∀ g ≠ f, g ∈ T → g ∈ T') : (m₁.fill f bs₁).Alike T' (m₂.fill f bs₂) := by
  refine ⟨?_, fun g hg => ?_⟩
  · rw [h.rest]
    rfl
  · show update m₂.data f bs₂ g = update m₁.data f bs₁ g
    by_cases hgf : g = f
    · rw [hgf, update_self, update_self, hbs (hgf ▸ hg)]
    · rw [update_of_ne hgf, update_of_ne hgf]
      exact h.data g fun hgT => hg (hT g hgf hgT)

theorem Alike.setEntry (h : m₁.Alike T m₂) (hp : pte ∉ T) (t w : ℕ) :
    (m₁.setEntry pte t w).Alike T (m₂.setEntry pte t w) := by
  have hs : ∀ m : Frames, m.setEntry pte t w = m.fill pte (store (m.data pte) 4 (4 * t) w) :=
    fun _ => rfl
  rw [hs, hs]
  exact h.fillWith pte (fun _ => by rw [h.data pte hp]) fun g _ hg => hg

end

/-! ## The operations -/

section
variable {T : Set ℕ} {m₁ m₂ : Frames} {β γ : Type}

theorem getPPageFrom_data (m : Frames) (data : ℕ → Bytes) (n i : ℕ) :
    getPPageFrom { m with data := data } n i =
      (getPPageFrom m n i).map fun r => ({ r.1 with data := data }, r.2) := by
  induction n generalizing i with
  | zero => rfl
  | succ n ih =>
    unfold getPPageFrom
    by_cases h0 : m.free_pages = 0
    · rw [if_pos h0, if_pos h0]
      rfl
    · rw [if_neg h0, if_neg h0]
      by_cases hp : m.p_bit_map i ≠ 0
      · rw [if_pos hp, if_pos hp, ih]
      · rw [if_neg hp, if_neg hp]
        rfl

theorem Alike.getPPage (h : m₁.Alike T m₂) :
    Both (LikeWith T) (Rdix.getPPage m₁) (Rdix.getPPage m₂) := by
  rintro ⟨m, f⟩ hm
  have he : Rdix.getPPage m₂ = (Rdix.getPPage m₁).map fun r => ({ r.1 with data := m₂.data }, r.2) := by
    rw [h.rest]
    exact getPPageFrom_data m₁ m₂.data _ _
  obtain ⟨-, -, rfl⟩ := getPPage_spec hm
  rw [he, hm]
  exact ⟨_, rfl, ⟨rfl, h.data⟩, rfl⟩

theorem Alike.freePPage (h : m₁.Alike T m₂) (f : ℕ) :
    Both (Alike T) (Rdix.freePPage m₁ f) (Rdix.freePPage m₂ f) := by
  intro m hm
  rw [h.rest]
  simp only [Rdix.freePPage, cassert_bind_eq_ok, pure_eq_ok] at hm ⊢
  obtain ⟨ha, hp, hf, hm⟩ := hm
  cases hm
  exact ⟨_, ⟨ha, hp, hf, rfl⟩, rfl, h.data⟩

theorem Alike.copyPhyPage (h : m₁.Alike T m₂) (page : ℕ) :
    Both (fun r₁ r₂ => r₁.1.Alike {f | (if r₁.2 = f then page else f) ∈ T} r₂.1 ∧ r₂.2 = r₁.2)
      (Rdix.copyPhyPage m₁ page) (Rdix.copyPhyPage m₂ page) := by
  refine h.getPPage.bind ?_
  rintro ⟨m, f⟩ ⟨m', f'⟩ - ⟨hm, rfl⟩
  refine both_ok ⟨?_, rfl⟩
  refine hm.fillWith f' (fun hf => hm.data page ?_) fun g hgf hg => ?_
  · simpa using hf
  · simpa [Ne.symm hgf] using hg

/-- The frames in `T` that are no page tables of the directory. -/
def offTables (T : Set ℕ) (pde : ℕ → ℕ) : Set ℕ :=
  {f ∈ T | ∀ d : UserDidx, tableOf (pde (firstDidx + d)) ≠ some f}

/-- No page table of the directory is in `T`. -/
def Clear (T : Set ℕ) (pde : ℕ → ℕ) : Prop :=
  ∀ (d : UserDidx) f, tableOf (pde (firstDidx + d)) = some f → f ∉ T

theorem clear_offTables (T : Set ℕ) (pde : ℕ → ℕ) : Clear (offTables T pde) pde :=
  fun d _ hd hf => hf.2 d hd

theorem Clear.offTables {pde : ℕ → ℕ} (h : Clear T pde) : offTables T pde = T := by
  ext f
  refine ⟨fun hf => hf.1, fun hf => ⟨hf, fun d hd => h d f hd hf⟩⟩

theorem Alike.getPte (h : m₁.Alike T m₂) {pde : ℕ → ℕ} (hc : Clear T pde) {vaddr : ℕ} {d : UserDidx}
    (hd : didx vaddr = firstDidx + d) (exist : Bool) :
    Both (fun r₁ r₂ => r₁.1.Alike (Frames.offTables T r₁.2.1) r₂.1 ∧ r₂.2 = r₁.2 ∧
        tableOf (r₁.2.1 (didx vaddr)) = some r₁.2.2)
      (Rdix.getPte m₁ pde vaddr exist) (Rdix.getPte m₂ pde vaddr exist) := by
  unfold Rdix.getPte
  by_cases hp : entPresent (pde (didx vaddr)) = true
  · rw [if_pos hp, if_pos hp]
    refine both_ok ⟨?_, rfl, tableOf_of_present hp⟩
    rwa [hc.offTables]
  · rw [if_neg hp, if_neg hp]
    refine Both.cassert_bind id fun he => h.getPPage.bind ?_
    rintro ⟨m, f⟩ ⟨m', f'⟩ - ⟨hm, rfl⟩
    have ht : tableOf (update pde (didx vaddr) (entryInit f') (didx vaddr)) = some f' := by
      rw [update_self, tableOf_entryInit]
    refine both_ok ⟨(hm.fill f' _).mono fun g hg hg' => ?_, rfl, ht⟩
    refine absurd ⟨hg'.1, fun e he => ?_⟩ hg
    replace he : tableOf (update pde (didx vaddr) (entryInit f') (firstDidx + e)) = some g := he
    by_cases hed : e = d
    · rw [hed, ← hd, update_self, tableOf_entryInit] at he
      exact hg'.2 (Option.some.inj he).symm
    · have hne : firstDidx + (e : ℕ) ≠ didx vaddr := by
        rw [hd]
        exact fun hn => hed (Fin.ext (Nat.add_left_cancel hn))
      rw [update_of_ne hne] at he
      exact hc e g he hg'.1

/-- `link_page` does the same in both memories. -/
theorem Alike.linkPage (h : m₁.Alike T m₂) {task : Space} (hc : Clear T task.pde) {vaddr : ℕ}
    {d : UserDidx} (hd : didx vaddr = firstDidx + d) :
    Both (fun r₁ r₂ => r₁.1.Alike (Frames.offTables T r₁.2.pde) r₂.1 ∧ r₂.2 = r₁.2)
      (Rdix.linkPage m₁ task vaddr) (Rdix.linkPage m₂ task vaddr) := by
  refine (h.getPte hc hd false).bind ?_
  rintro ⟨m, pde, pte⟩ ⟨m', r⟩ - ⟨hm, rfl, ht⟩
  have hpte : pte ∉ Frames.offTables T pde :=
    clear_offTables T pde d pte (hd ▸ ht)
  refine Both.bind (R := Eq) (fun a ha => ⟨a, ha, rfl⟩) ?_
  rintro mapped _ - rfl
  refine Both.cassert_bind id fun hmap => ?_
  dsimp only
  rw [hm.entry hpte]
  by_cases hp : entPresent (m.entry pte (tidx vaddr)) = true
  · rw [if_pos hp, if_pos hp]
    exact both_ok ⟨hm, rfl⟩
  · rw [if_neg hp, if_neg hp]
    refine hm.getPPage.bind ?_
    rintro ⟨m, f⟩ ⟨m', f'⟩ - ⟨hm, rfl⟩
    exact both_ok ⟨hm.setEntry hpte _ _, rfl⟩

theorem Alike.shareEntries (h : m₁.Alike T m₂) {pte : ℕ} (hp : pte ∉ T) (n : ℕ) :
    Both (Alike T) (Rdix.shareEntries m₁ pte n) (Rdix.shareEntries m₂ pte n) := by
  induction n with
  | zero => exact both_ok h
  | succ n ih =>
    refine ih.bind fun m m' _ hm => ?_
    unfold shareEntry
    rw [hm.entry hp]
    by_cases he : entPresent (m.entry pte n) = true
    · rw [if_neg (not_not.2 he), if_neg (not_not.2 he)]
      refine Both.cassert_bind (by rw [hm.counts]; exact id) fun _ => both_ok ?_
      have hs := hm.setEntry hp n (setWrite (m.entry pte n) false)
      rw [hs.counts]
      exact hs.setCounts _
    · rw [if_pos he, if_pos he]
      exact both_ok hm

/-- `copy_pde` does the same in both memories. -/
theorem Alike.copyPdeTurns (h : m₁.Alike T m₂) {pde : ℕ → ℕ} (hc : Clear T pde) {n : ℕ}
    (hn : n ≤ 1023 - firstDidx) :
    Both (fun r₁ r₂ => r₁.1.Alike (offTables T (cut r₁.2 n)) r₂.1 ∧ r₂.2 = r₁.2 ∧
        ∀ k, firstDidx + n ≤ k → r₁.2 k = pde k)
      (Rdix.copyPdeTurns pde m₁ n) (Rdix.copyPdeTurns pde m₂ n) := by
  induction n with
  | zero =>
    refine both_ok ⟨h.mono fun f hf hfT => absurd ⟨hfT, fun d hd => ?_⟩ hf, rfl, fun _ _ => rfl⟩
    have h0 : cut pde 0 (firstDidx + d) = 0 := if_neg (by omega)
    rw [h0] at hd
    cases hd
  | succ n ih =>
    refine (ih (by omega)).bind ?_
    rintro ⟨m, child⟩ ⟨m', child'⟩ - ⟨hm, hch, hrest⟩
    obtain rfl : child' = child := hch
    have hk := hrest (firstDidx + n) le_rfl
    show Both _ (copyPdeTurn pde m child' (firstDidx + n)) (copyPdeTurn pde m' child' (firstDidx + n))
    unfold copyPdeTurn
    by_cases hp : entPresent (child' (firstDidx + n)) = true
    · rw [if_neg (not_not.2 hp), if_neg (not_not.2 hp)]
      set pte := entIndex (pde (firstDidx + n))
      have hpte : pte ∉ offTables T (cut child' n) := fun hf =>
        hc ⟨n, hn⟩ pte (tableOf_of_present (hk ▸ hp)) hf.1
      refine (hm.shareEntries hpte 1024).bind fun m m' _ hm => (hm.copyPhyPage pte).bind ?_
      rintro ⟨m, f⟩ ⟨m', f'⟩ - ⟨hm, hf⟩
      obtain rfl : f' = f := hf
      have hset : ∀ g ∉ offTables T (cut (update child' (firstDidx + n)
          (setIndex (child' (firstDidx + n)) f')) (n + 1)),
          (if f' = g then pte else g) ∉ offTables T (cut child' n) := by
        intro g hg hg'
        by_cases hgf : f' = g
        · rw [if_pos hgf] at hg'
          exact hpte hg'
        · rw [if_neg hgf] at hg'
          refine hg ⟨hg'.1, fun d hd => ?_⟩
          rw [← cut_update] at hd
          by_cases hdn : (d : ℕ) = n
          · rw [hdn, update_self, tableOf_setIndex hp] at hd
            exact hgf (Option.some.inj hd)
          · rw [update_of_ne (by omega)] at hd
            exact hg'.2 d hd
      refine both_ok ⟨hm.mono fun g hg hg' => absurd hg' (hset g hg), rfl, fun k hk' => ?_⟩
      show update _ _ _ k = _
      rw [update_of_ne (by omega)]
      exact hrest k (by omega)
    · rw [if_pos hp, if_pos hp]
      refine both_ok ⟨hm.mono fun g hg hg' => absurd ⟨hg'.1, fun d hd => ?_⟩ hg, rfl,
        fun k hk' => hrest k (by omega)⟩
      refine hg'.2 d ?_
      unfold cut at hd ⊢
      by_cases hdn : (d : ℕ) = n
      · rw [hdn, if_pos (by omega), tableOf_of_absent (Bool.eq_false_iff.2 hp)] at hd
        cases hd
      · by_cases hlt : (d : ℕ) < n
        · rw [if_pos (by omega)] at hd ⊢
          exact hd
        · rw [if_neg (by omega)] at hd
          cases hd

theorem Alike.copyPde (h : m₁.Alike T m₂) {pde : ℕ → ℕ} (hc : Clear T pde) :
    Both (fun r₁ r₂ => r₁.1.Alike (offTables T r₁.2) r₂.1 ∧ r₂.2 = r₁.2)
      (Rdix.copyPde m₁ pde) (Rdix.copyPde m₂ pde) := by
  refine (h.copyPdeTurns hc le_rfl).imp fun r₁ r₂ _ hr => ⟨hr.1.mono fun f hf hf' => ?_, hr.2.1⟩
  refine absurd ⟨hf'.1, fun d hd => hf'.2 d ?_⟩ hf
  rw [cut, if_pos (by have := d.isLt; omega)]
  exact hd

theorem Alike.freeEntries (h : m₁.Alike T m₂) {pte : ℕ} (hp : pte ∉ T) (n : ℕ) :
    Both (Alike T) (Rdix.freeEntries m₁ pte n) (Rdix.freeEntries m₂ pte n) := by
  induction n with
  | zero => exact both_ok h
  | succ n ih =>
    refine ih.bind fun m m' _ hm => ?_
    unfold freeEntry
    rw [hm.entry hp]
    by_cases he : entPresent (m.entry pte n) = true
    · rw [if_neg (not_not.2 he), if_neg (not_not.2 he)]
      exact Both.cassert_bind (by rw [hm.counts]; exact id) fun _ => hm.freePPage _
    · rw [if_pos he, if_pos he]
      exact both_ok hm

/-- `free_pde` does the same in both memories. -/
theorem Alike.freePde (h : m₁.Alike T m₂) {pde : ℕ → ℕ} (hc : Clear T pde) :
    Both (Alike T) (Rdix.freePde m₁ pde) (Rdix.freePde m₂ pde) := by
  have hrun : ∀ n ≤ 1023 - firstDidx,
      Both (Alike T) (freePdeTurns pde m₁ n) (freePdeTurns pde m₂ n) := by
    intro n
    induction n with
    | zero => exact fun _ => both_ok h
    | succ n ih =>
      intro hn
      refine (ih (by omega)).bind fun m m' _ hm => ?_
      unfold freePdeTurn
      by_cases hp : entPresent (pde (firstDidx + n)) = true
      · rw [if_neg (not_not.2 hp), if_neg (not_not.2 hp)]
        have hpte := hc ⟨n, hn⟩ _ (tableOf_of_present hp)
        exact (hm.freeEntries hpte 1024).bind fun m m' _ hm => hm.freePPage _
      · rw [if_pos hp, if_pos hp]
        exact both_ok hm
  exact hrun _ le_rfl

theorem getPte_true {m m' : Frames} {pde pde' : ℕ → ℕ} {vaddr pte : ℕ}
    (h : Rdix.getPte m pde vaddr true = .ok (m', pde', pte)) :
    m' = m ∧ pde' = pde ∧ tableOf (pde (didx vaddr)) = some pte := by
  unfold Rdix.getPte at h
  by_cases hp : entPresent (pde (didx vaddr)) = true
  · rw [if_pos hp] at h
    cases h
    exact ⟨rfl, rfl, tableOf_of_present hp⟩
  · rw [if_neg hp] at h
    exact absurd (cassert_bind_eq_ok.1 h).1 (by decide)

/-- The page of an address whose entry has been written. -/
theorem walk_setEntry {m : Frames} {pde : ℕ → ℕ} {vaddr pte w f : ℕ} {b : Bool}
    (h : tableOf (pde (didx vaddr)) = some pte) (hw : w < 2 ^ 32) (hf : pteOf w = some (f, b)) :
    ((m.setEntry pte (tidx vaddr) w).walk pde vaddr).map Prod.fst = some f := by
  have ht : tidx vaddr < 1024 := Nat.mod_lt _ (by decide)
  rw [walk_of_table h, entry_setEntry_self (t := ⟨tidx vaddr, ht⟩) hw, hf, Option.map_some]

/-- A write fault does the same in both memories; the copy of a page in `T` is in `T`. -/
theorem Alike.writeFault (h : m₁.Alike T m₂) {task : Space} (hc : Clear T task.pde) {vaddr g : ℕ}
    {d : UserDidx} (hd : didx vaddr = firstDidx + d) {b : Bool} (hT : m₁.total ≤ 2 ^ 20)
    (hw : m₁.walk task.pde vaddr = some (g, b))
    (hpos : ∀ pte, tableOf (task.pde (didx vaddr)) = some pte → m₁.p_bit_map pte ≠ 0) :
    Both (fun r₁ r₂ => r₁.2 = task ∧ r₂.2 = task ∧
        ∃ g', (r₁.1.walk task.pde vaddr).map Prod.fst = some g' ∧
          r₁.1.Alike {f | (if g' = f then g else f) ∈ T} r₂.1)
      (Rdix.writeFault m₁ task vaddr) (Rdix.writeFault m₂ task vaddr) := by
  refine (h.getPte hc hd true).bind ?_
  rintro ⟨m, pde, pte⟩ ⟨m', r⟩ hm₁ ⟨hm, rfl, ht⟩
  obtain ⟨rfl, rfl, -⟩ := getPte_true hm₁
  rw [hc.offTables] at hm
  have hpte : pte ∉ T := hc d pte (hd ▸ ht)
  have he : pteOf (m.entry pte (tidx vaddr)) ≠ none := by
    intro he
    have hn := walk_of_table (m := m) ht
    rw [hw, he] at hn
    cases hn
  obtain ⟨⟨g', b'⟩, hg⟩ := Option.ne_none_iff_exists'.1 he
  obtain rfl : g' = g := by
    have hn := walk_of_table (m := m) ht
    rw [hw, hg] at hn
    exact (Option.some.inj hn).symm
  obtain ⟨-, hidx, -⟩ := pteOf_eq_some.1 hg
  dsimp only
  rw [hm.entry hpte, hidx, hm.counts]
  refine Both.cassert_bind id fun h0 => ?_
  by_cases h1 : m.p_bit_map g' = 1
  · rw [if_pos h1, if_pos h1]
    refine both_ok ⟨rfl, rfl, g', ?_, ?_⟩
    · exact walk_setEntry ht (setWrite_lt (load_lt ..) true) (pteOf_setWrite hg true)
    have hT' : {f | (if g' = f then g' else f) ∈ T} = T := by
      ext f
      by_cases hf : g' = f
      · rw [Set.mem_ofPred_eq, if_pos hf, hf]
      · rw [Set.mem_ofPred_eq, if_neg hf]
    rw [hT']
    exact hm.setEntry hpte _ _
  · rw [if_neg h1, if_neg h1]
    have hm₂ := hm.setCounts (update m.p_bit_map g' (m.p_bit_map g' - 1))
    refine (hm₂.copyPhyPage g').bind ?_
    rintro ⟨m₃, f⟩ ⟨m₃', f'⟩ h₃ ⟨hm₃, hf⟩
    obtain rfl : f' = f := hf
    obtain ⟨ha, hz, -⟩ := copyPhyPage_spec h₃
    have hne : f' ≠ pte := by
      rintro rfl
      have hz' : update m.p_bit_map g' (m.p_bit_map g' - 1) f' = 0 := hz
      by_cases hfg : f' = g'
      · rw [hfg, update_self] at hz'
        omega
      · rw [update_of_ne hfg] at hz'
        exact hpos f' ht hz'
    have hpte' : pte ∉ {f | (if f' = f then g' else f) ∈ T} := by
      rw [Set.mem_ofPred_eq, if_neg hne]
      exact hpte
    refine both_ok ⟨rfl, rfl, f', ?_, hm₃.setEntry hpte' _ _⟩
    exact walk_setEntry ht (entryInit_lt (ha.2.trans_le hT)) (pteOf_entryInit f')

theorem Alike.walk (h : m₁.Alike T m₂) {pde : ℕ → ℕ} (hc : Clear T pde) {vaddr : ℕ} {d : UserDidx}
    (hd : didx vaddr = firstDidx + d) : m₂.walk pde vaddr = m₁.walk pde vaddr := by
  unfold Frames.walk
  cases ht : tableOf (pde (didx vaddr)) with
  | none => rfl
  | some pte => rw [Option.bind_some, Option.bind_some, h.entry (hc d pte (hd ▸ ht))]

end

/-! ## Frames in use -/

/-- No frame in use becomes free. -/
def Kept (m m' : Frames) : Prop := ∀ f, m.p_bit_map f ≠ 0 → m'.p_bit_map f ≠ 0

section
variable {m m' m'' : Frames} {f n fp vaddr : ℕ} {task task' : Space} {own : ℕ → Prop} {dirs : Dirs}
  {p c : Fin taskNum} {d : UserDidx} {pte : ℕ} {P : Page → Option Bytes}

theorem Kept.trans (h : m.Kept m') (h' : m'.Kept m'') : m.Kept m'' := fun f hf => h' f (h f hf)

theorem kept_withCount (f fp : ℕ) (hn : n ≠ 0) : m.Kept (m.withCount f n fp) := by
  intro g hg
  show update m.p_bit_map f n g ≠ 0
  by_cases hgf : g = f
  · rwa [hgf, update_self]
  · rwa [update_of_ne hgf]

theorem kept_getPPage (h : Rdix.getPPage m = .ok (m', f)) : m.Kept m' := by
  obtain ⟨-, -, rfl⟩ := getPPage_spec h
  exact kept_withCount _ _ Nat.one_ne_zero

theorem kept_copyPhyPage {page : ℕ} (h : Rdix.copyPhyPage m page = .ok (m', f)) : m.Kept m' := by
  obtain ⟨-, -, rfl⟩ := copyPhyPage_spec h
  exact (kept_withCount f (m.free_pages - 1) Nat.one_ne_zero).trans fun _ h => h

theorem kept_getPte {pde pde' : ℕ → ℕ} {exist : Bool}
    (h : Rdix.getPte m pde vaddr exist = .ok (m', pde', pte)) : m.Kept m' := by
  unfold Rdix.getPte at h
  split_ifs at h with hp
  · cases h
    exact fun _ h => h
  · obtain ⟨-, h⟩ := cassert_bind_eq_ok.1 h
    obtain ⟨⟨m₁, g⟩, h₁, h⟩ := bind_eq_ok.1 h
    cases h
    exact (kept_getPPage h₁).trans fun _ h => h

theorem kept_linkPage (h : Rdix.linkPage m task vaddr = .ok (m', task')) : m.Kept m' := by
  obtain ⟨⟨m₁, pde, pte⟩, h₁, h⟩ := bind_eq_ok.1 h
  obtain ⟨mapped, -, h⟩ := bind_eq_ok.1 h
  obtain ⟨-, h⟩ := cassert_bind_eq_ok.1 h
  split_ifs at h with hp
  · cases h
    exact kept_getPte h₁
  · obtain ⟨⟨m₂, paddr⟩, h₂, h⟩ := bind_eq_ok.1 h
    cases h
    exact ((kept_getPte h₁).trans (kept_getPPage h₂)).trans fun _ h => h

/-- The shared frame keeps a holder. -/
theorem kept_writeFault (h : Rdix.writeFault m task vaddr = .ok (m', task')) : m.Kept m' := by
  obtain ⟨⟨m₁, pde, pte⟩, h₁, h⟩ := bind_eq_ok.1 h
  refine (kept_getPte h₁).trans ?_
  obtain ⟨hpos, h⟩ := cassert_bind_eq_ok.1 h
  split_ifs at h with h1
  · cases h
    exact fun _ h => h
  · obtain ⟨⟨m₂, paddr⟩, h₂, h⟩ := bind_eq_ok.1 h
    cases h
    set idx := entIndex (m₁.entry pte (tidx vaddr))
    have h₀ : m₁.Kept (m₁.withCount idx (m₁.p_bit_map idx - 1) m₁.free_pages) :=
      kept_withCount _ _ (by omega)
    exact (h₀.trans (kept_copyPhyPage h₂)).trans fun _ h => h

theorem kept_pageFault {present write : Bool}
    (h : pageFault m task vaddr present write = .ok (m', task')) : m.Kept m' := by
  unfold pageFault at h
  split_ifs at h
  · exact kept_writeFault h
  · exact kept_linkPage h

/-- A count that is raised does not wrap. -/
theorem Sharing.kept (S : m.Sharing own dirs p c d pte n P) (hn : n < 1024)
    (h : shareEntry m pte n = .ok m') : m.Kept m' := by
  have hent := held_entry S.table ⟨n, hn⟩
  unfold shareEntry at h
  by_cases hp : entPresent (m.entry pte n) = true
  · rw [if_neg (not_not.2 hp)] at h
    obtain ⟨-, h⟩ := cassert_bind_eq_ok.1 h
    cases h
    have hx : m.held dirs (p, d, some ⟨n, hn⟩) = some (entIndex (m.entry pte n), entWrite (m.entry pte n)) :=
      hent.trans (pteOf_eq_some.2 ⟨hp, rfl, rfl⟩)
    have hle := S.counted.le_card (S.counted.held _ _ _ (S.le_shared hx))
    rw [Fintype.card_fin] at hle
    simp only [taskNum] at hle
    have hne : (m.p_bit_map (entIndex (m.entry pte n)) + 1) % 256 ≠ 0 := by omega
    exact (kept_withCount (entIndex (m.entry pte n)) m.free_pages hne).trans fun _ h => h
  · rw [if_pos hp] at h
    cases h
    exact fun _ h => h

theorem Sharing.kept_run (S : m.Sharing own dirs p c d pte 0 P) (hn : n ≤ 1024)
    (h : Rdix.shareEntries m pte n = .ok m') : m.Kept m' := by
  induction n generalizing m' with
  | zero =>
    cases h
    exact fun _ h => h
  | succ n ih =>
    obtain ⟨m₁, h₁, h⟩ := bind_eq_ok.1 h
    exact (ih (by omega) h₁).trans ((S.run (by omega) h₁).1.kept hn h)

theorem Copying.kept {child : ℕ → ℕ} (H : m.Ok own (m.held dirs)) (hpc : p ≠ c)
    (hc : ∀ d, m.held dirs (c, d, none) = none) (hn : n ≤ 1023 - firstDidx)
    (h : Rdix.copyPdeTurns (dirs p) m n = .ok (m', child)) : m.Kept m' := by
  induction n generalizing m' child with
  | zero =>
    cases h
    exact fun _ h => h
  | succ n ih =>
    obtain ⟨⟨m₁, child₁⟩, h₁, h⟩ := bind_eq_ok.1 h
    refine (ih (by omega) h₁).trans ?_
    have hsh := (Copying.run H hpc hc (by omega) h₁).sharing hpc (by omega)
    replace h : copyPdeTurn (dirs p) m₁ child₁ (firstDidx + n) = .ok (m', child) := h
    unfold copyPdeTurn at h
    by_cases hp : entPresent (child₁ (firstDidx + n)) = true
    · rw [if_neg (not_not.2 hp)] at h
      obtain ⟨m₂, h₂, h⟩ := bind_eq_ok.1 h
      obtain ⟨⟨m₃, paddr⟩, h₃, h⟩ := bind_eq_ok.1 h
      cases h
      exact ((hsh hp).kept_run le_rfl h₂).trans (kept_copyPhyPage h₃)
    · rw [if_pos hp] at h
      cases h
      exact fun _ h => h

end

/-! ## The frame that link_page takes -/

/-- The free frames, in the order in which `get_p_page` finds them. -/
def free (m : Frames) : List ℕ :=
  (List.range' m.start (m.total - m.start)).filter fun i => m.p_bit_map i = 0

section
variable {m m' : Frames} {f : ℕ}

theorem mem_free : f ∈ m.free ↔ m.Avail f ∧ m.p_bit_map f = 0 := by
  unfold free Avail
  rw [List.mem_filter, List.mem_range'_1, decide_eq_true_iff]
  constructor
  · rintro ⟨⟨h1, h2⟩, h3⟩
    exact ⟨⟨h1, by omega⟩, h3⟩
  · rintro ⟨⟨h1, h2⟩, h3⟩
    exact ⟨⟨h1, by omega⟩, h3⟩

theorem getPPageFrom_free {n i : ℕ} (h : getPPageFrom m n i = .ok (m', f)) :
    ((List.range' i n).filter fun i => m.p_bit_map i = 0) =
      f :: (List.range' i n).filter fun i => m'.p_bit_map i = 0 := by
  induction n generalizing i with
  | zero => cases h
  | succ n ih =>
    have hspec := getPPageFrom_spec h
    rw [List.range'_succ, List.filter_cons, List.filter_cons]
    unfold getPPageFrom at h
    split_ifs at h with h0 hp
    · obtain ⟨hif, -, -, rfl⟩ := getPPageFrom_spec h
      have hne : i ≠ f := by omega
      have hp' : (m.withCount f 1 (m.free_pages - 1)).p_bit_map i = m.p_bit_map i :=
        update_of_ne hne _ _
      rw [if_neg (by simpa using hp), if_neg (by rw [hp']; simpa using hp)]
      exact ih h
    · cases h
      have hp' : m.p_bit_map f = 0 := not_not.1 hp
      rw [if_pos (by simpa using hp'), if_neg (by simp)]
      refine congrArg (f :: ·) (List.filter_congr fun j hj => ?_)
      have hne : j ≠ f := by
        have := List.mem_range'_1.1 hj
        omega
      show decide (_ = 0) = decide (update m.p_bit_map f 1 j = 0)
      rw [update_of_ne hne]

theorem getPPage_free (h : Rdix.getPPage m = .ok (m', f)) : m.free = f :: m'.free := by
  obtain ⟨-, -, rfl⟩ := getPPage_spec h
  exact getPPageFrom_free h

/-- It is the first free frame, or the second one if a page table has to be created. -/
theorem linkPage_free {task task' : Space} {vaddr : ℕ} (hT : m.total ≤ 2 ^ 20)
    (hw : m.walk task.pde vaddr = none) (h : Rdix.linkPage m task vaddr = .ok (m', task')) :
    (m'.walk task'.pde vaddr).map Prod.fst =
      m.free[if entPresent (task.pde (didx vaddr)) then 0 else 1]? := by
  obtain ⟨⟨m₁, pde, pte⟩, h₁, h⟩ := bind_eq_ok.1 h
  obtain ⟨mapped, -, h⟩ := bind_eq_ok.1 h
  obtain ⟨-, h⟩ := cassert_bind_eq_ok.1 h
  -- what the table, found or created, is like
  obtain ⟨ht, hz, hT₁, hfree⟩ : tableOf (pde (didx vaddr)) = some pte ∧
      pteOf (m₁.entry pte (tidx vaddr)) = none ∧ m₁.total = m.total ∧
      m₁.free[0]? = m.free[if entPresent (task.pde (didx vaddr)) then 0 else 1]? := by
    unfold Rdix.getPte at h₁
    by_cases hp : entPresent (task.pde (didx vaddr)) = true
    · rw [if_pos hp] at h₁
      cases h₁
      have ht := tableOf_of_present hp
      have hn := walk_of_table (m := m) ht
      rw [hw] at hn
      exact ⟨ht, Option.map_eq_none_iff.1 hn.symm, rfl, by rw [if_pos hp]⟩
    · rw [if_neg hp] at h₁
      obtain ⟨-, h₁⟩ := cassert_bind_eq_ok.1 h₁
      obtain ⟨⟨m₂, g⟩, h₂, h₁⟩ := bind_eq_ok.1 h₁
      have hf := getPPage_free h₂
      obtain ⟨-, -, rfl⟩ := getPPage_spec h₂
      cases h₁
      refine ⟨by rw [update_self, tableOf_entryInit], ?_, rfl, ?_⟩
      · simp only [Frames.entry, update_self]
        rw [load_zero, pteOf_zero]
      · rw [if_neg hp, hf]
        rfl
  dsimp only at h
  rw [if_neg (by rw [pteOf_eq_none.1 hz]; exact Bool.false_ne_true)] at h
  obtain ⟨⟨m₂, paddr⟩, h₂, h⟩ := bind_eq_ok.1 h
  have hf := getPPage_free h₂
  obtain ⟨ha, -, rfl⟩ := getPPage_spec h₂
  cases h
  have hlt : paddr < 2 ^ 20 := ha.2.trans_le (hT₁.trans_le hT)
  rw [walk_setEntry ht (entryInit_lt hlt) (pteOf_entryInit paddr), ← hfree, hf]
  rfl

end

end Frames

/-! ## Two runs -/

/-- The labels of two runs: a task outside `L` may store another byte. -/
inductive SameBut (L : Set Pid) : TaskAct → TaskAct → Prop where
  | same (a) : SameBut L a a
  | store {pid vaddr b b'} : pid ∉ L → SameBut L (.store pid vaddr b) (.store pid vaddr b')

/-- What the condition on two runs has to know of their past: the tasks that may have in their memory
    what a task outside `L` has stored, and whether one of them has exited. -/
structure Trail where
  dirty : Set Pid
  spilt : Prop

def Trail.next (L : Set Pid) (h : Trail) : TaskAct → Trail
  | .store pid _ _ => { h with dirty := {q | q ∈ h.dirty ∨ q = pid ∧ pid ∉ L} }
  | .fork pid child => { h with dirty := {q | q ∈ h.dirty ∨ q = child ∧ pid ∈ h.dirty} }
  | .exit pid => { h with spilt := h.spilt ∨ pid ∈ h.dirty }
  | _ => h

/-- The tasks that read the same: those in `L`, and at first all that are not dirty. -/
def Trail.clean (L : Set Pid) (h : Trail) : Set Pid := {q | q ∈ L ∨ ¬ h.spilt ∧ q ∉ h.dirty}

/-- Two runs, and their past; `L` contains the parents of the tasks in it. -/
def twinSys (L : Set Pid) : Sys (Tasks × Tasks × Trail) (TaskAct × TaskAct) where
  init x := Booted x.1 ∧ x.2.1 = x.1 ∧ x.2.2 = { dirty := ∅, spilt := False }
  step x a y := SameBut L a.1 a.2 ∧ a.1.Plain ∧ (∀ pid child, a.1 = .fork pid child → child ∈ L → pid ∈ L) ∧
    TaskStep x.1 a.1 y.1 ∧ TaskStep x.2.1 a.2 y.2.1 ∧ y.2.2 = x.2.2.next L a.1

/-- The frame that a task sees at an address. -/
def Tasks.frameAt (s : Tasks) (pid : Pid) (vaddr : ℕ) : Option ℕ :=
  (s.frames.walk (s.dirs pid) vaddr).map Prod.fst

/-- No exit is suspended, stores go to user addresses, and no task in `L` touches a page for the
    first time after a task has exited that may have such bytes. -/
def Unspilt (L : Set Pid) (x : Tasks × Tasks × Trail) (a : TaskAct × TaskAct) : Prop :=
  a.1.InBounds ∧ ∀ pid vaddr write, a.1 = .fault pid vaddr write → pid ∈ L →
    x.1.frameAt pid vaddr = none → ¬ x.2.2.spilt

namespace Tasks

/-- The states of the two runs. -/
structure Twin (T : Set ℕ) (s₁ s₂ : Tasks) : Prop where
  rest : s₂ = { s₁ with frames := s₂.frames }
  frames : s₁.frames.Alike T s₂.frames
  clear : ∀ pid, Frames.Clear T (s₁.dirs pid)

/-- A frame that is counted, and is in use. -/
def InUse (s : Tasks) (f : ℕ) : Prop := s.Handed f ∧ s.frames.p_bit_map f ≠ 0

section
variable {L K : Set Pid} {T : Set ℕ} {s s' s₁ s₂ s₁' s₂' : Tasks} {pid child : Pid} {t t' : Tcb}
  {space space' : Space} {o o' : Option Space} {a b : TaskAct} {vaddr : ℕ} {y : Frames.Page}

/-! ### Frames in use -/

theorem MemInv.inUse (I : s.MemInv) {x : Fin taskNum × Spot} {f : ℕ} {b : Bool}
    (h : s.frames.held s.dirs x = some (f, b)) : s.InUse f :=
  ⟨I.ok.counted.held x f b h, (I.ok.counted.pos h).ne'⟩

/-- The frames that are counted stay the same. -/
theorem handed_step (h : TaskStep s a s') (hs : s'.frames.start = s.frames.start)
    (hT : s'.frames.total = s.frames.total) : s'.Handed = s.Handed := by
  have hk : s'.kpde = s.kpde := by
    cases h with
    | create h =>
      obtain ⟨pid, -, h⟩ := bind_eq_ok.1 h
      cases h
      rfl
    | toUser _ h =>
      obtain ⟨vmap, -, h⟩ := bind_eq_ok.1 h
      obtain ⟨⟨m, pde⟩, -, h⟩ := bind_eq_ok.1 h
      cases h
      rfl
    | fork _ h =>
      obtain ⟨c, -, h⟩ := bind_eq_ok.1 h
      obtain ⟨⟨m, pde⟩, -, h⟩ := bind_eq_ok.1 h
      cases h
      rfl
    | exit _ h =>
      obtain ⟨m, -, h⟩ := bind_eq_ok.1 h
      exact (leave_spec h).2.1
    | exitEnd _ _ _ h =>
      obtain ⟨m, -, h⟩ := bind_eq_ok.1 h
      exact (leave_spec h).2.1
    | threadExit _ h => exact (leave_spec h).2.1
    | @waitpid pid t space arg ha =>
      unfold sysWaitpid
      cases findChild s pid arg with
      | none => rfl
      | some i =>
        dsimp only
        split_ifs <;> rfl
    | _ => rfl
  unfold Handed Frames.Avail
  rw [hs, hT, hk]

/-- Only an exit gives frames back. -/
theorem MemInv.kept (I : s.MemInv) (N : s.NoneLeft) (hp : a.Plain) (hb : a.InBounds)
    (hx : ∀ pid, a ≠ .exit pid) (h : TaskStep s a s') : s.frames.Kept s'.frames := by
  cases h with
  | create h =>
    obtain ⟨pid, -, h⟩ := bind_eq_ok.1 h
    cases h
    exact fun _ h => h
  | toUser _ h =>
    obtain ⟨vmap, -, h⟩ := bind_eq_ok.1 h
    rw [Frames.copyPde_of_absent I.noTable] at h
    cases h
    exact fun _ h => h
  | @fork pid t space child _ ha h =>
    obtain ⟨c, hc, h⟩ := bind_eq_ok.1 h
    obtain ⟨⟨m, pde⟩, hm, h⟩ := bind_eq_ok.1 h
    cases h
    have hfree := getTask_spec hc
    have hne : pid ≠ child := by
      rintro rfl
      rw [ha.1] at hfree
      cases hfree
    have hd : s.dirs pid = space.pde := ha.dirs_eq
    exact Frames.Copying.kept I.ok hne (held_of_dirs _ (dirs_of_none hfree)) le_rfl (hd ▸ hm)
  | exit _ _ => exact absurd rfl (hx _)
  | exitBlock _ => exact absurd hb not_false
  | exitWait _ _ _ _ _ => exact absurd hp not_false
  | exitEnd ht hst _ _ => exact absurd hst (N _ _ ht).1
  | threadExit _ h =>
    rw [(leave_spec h).1]
    exact fun _ h => h
  | waitpid _ => exact absurd hp not_false
  | wakeup _ _ => exact absurd hp not_false
  | brk _ _ _ => exact absurd hp not_false
  | test _ _ => exact absurd hp not_false
  | fault _ _ _ h => exact Frames.kept_pageFault h
  | store _ _ _ => exact fun _ h => h
  | storeTable _ _ _ => exact fun _ h => h
  | storeDir _ _ => exact fun _ h => h

theorem MemInv.inUse_step (I : s.MemInv) (N : s.NoneLeft) (hp : a.Plain) (hb : a.InBounds)
    (hx : ∀ pid, a ≠ .exit pid) (h : TaskStep s a s') {f : ℕ} (hf : s.InUse f) : s'.InUse f := by
  have hst := I.steady h
  exact ⟨handed_step h hst.start hst.total ▸ hf.1, I.kept N hp hb hx h f hf.2⟩

/-- A frame that an exit frees was only the task's own. -/
theorem MemInv.freed (I : s.MemInv) (ha : s.At pid t (some space)) {m : Frames}
    (h : freePde s.frames space.pde = .ok m) {f : ℕ} (hf : s.InUse f) (h0 : m.p_bit_map f = 0) :
    ∃ x b, s.frames.held s.dirs (pid, x) = some (f, b) := by
  have hd : s.dirs pid = space.pde := ha.dirs_eq
  have hF := I.ok.freed (p := pid) (hd ▸ h)
  have hn := hF.counted.not_held h0
  by_contra hne
  refine hf.2 ((I.ok.counted.count f hf.1).trans (Cow.refs_eq_zero ?_))
  rintro ⟨j, x⟩ b hx
  by_cases hj : j = pid
  · exact hne ⟨x, b, hj ▸ hx⟩
  · refine hn (j, x) b ?_
    simp only [Frames.held, update_of_ne hj]
    exact hx

/-! ### What the steps do to both -/

theorem Twin.bucket (H : Twin T s₁ s₂) : s₂.task_bucket = s₁.task_bucket := by rw [H.rest]

theorem Twin.kpde (H : Twin T s₁ s₂) : s₂.kpde = s₁.kpde := by rw [H.rest]

theorem Twin.dirs (H : Twin T s₁ s₂) : s₂.dirs = s₁.dirs := by
  unfold Tasks.dirs
  rw [H.bucket]

theorem Twin.at_eq (H : Twin T s₁ s₂) (h₁ : s₁.At pid t o) (h₂ : s₂.At pid t' o') :
    t' = t ∧ o' = o := by
  have ht := h₂.1
  rw [H.bucket, h₁.1] at ht
  obtain rfl := Option.some.inj ht
  exact ⟨rfl, h₂.2.2.symm.trans h₁.2.2⟩

theorem Twin.walk (H : Twin T s₁ s₂) (hy : OfAddr y pid vaddr) :
    s₂.frames.walk (s₁.dirs pid) vaddr = s₁.frames.walk (s₁.dirs pid) vaddr :=
  H.frames.walk (H.clear pid) hy.didx

theorem Twin.frameAt (H : Twin T s₁ s₂) (hy : OfAddr y pid vaddr) :
    s₂.frameAt pid vaddr = s₁.frameAt pid vaddr := by
  unfold Tasks.frameAt
  rw [H.dirs, H.walk hy]

theorem frameAt_eq (s : Tasks) (hy : OfAddr y pid vaddr) :
    s.frameAt pid vaddr = (s.frames.held s.dirs (Frames.ent y)).map Prod.fst := by
  rw [Tasks.frameAt, walk_eq (m := s.frames) hy rfl, Option.map_map]
  rfl

/-- Each page has an address. -/
theorem exists_addr (y : Frames.Page) : ∃ vaddr, OfAddr y y.1 vaddr := by
  have h1 := y.2.1.isLt
  have h2 := y.2.2.isLt
  refine ⟨((firstDidx + y.2.1) * 1024 + y.2.2) * 4096, rfl, ?_, ?_⟩
  · simp only [didx]
    omega
  · simp only [tidx]
    omega

/-- The contents of the page of an address. -/
theorem pages_frameAt (s : Tasks) (hy : OfAddr y pid vaddr) :
    s.pages y = (s.frameAt pid vaddr).map s.frames.data := by
  rw [frameAt_eq s hy, Option.map_map]
  rfl

/-- A page is not a page table. -/
theorem MemInv.not_table {s : Tasks} {f : ℕ} (I : s.MemInv) (hy : OfAddr y pid vaddr)
    (hf : s.frameAt pid vaddr = some f) (i : Pid) (d : UserDidx) :
    tableOf (s.dirs i (firstDidx + d)) ≠ some f := by
  intro hd
  rw [frameAt_eq s hy] at hf
  obtain ⟨⟨g, b⟩, hg, rfl⟩ := Option.map_eq_some_iff.1 hf
  refine I.ok.table_ne_page (i := i) (d := d) ?_ y b hg
  show Option.map _ (tableOf _) = _
  rw [hd, Option.map_some]

theorem Twin.shrink (H : Twin T s₁ s₂) {R : Set ℕ} (hR : R ⊆ T)
    (hd : ∀ f ∈ T, f ∉ R → s₂.frames.data f = s₁.frames.data f) : Twin R s₁ s₂ :=
  ⟨H.rest, H.frames.mono fun f hf hfT => hd f hfT hf, fun pid d f hd hf => H.clear pid d f hd (hR hf)⟩

/-- The frames stay, and no page tables come. -/
theorem Twin.same (H : Twin T s₁ s₂) (hr : s₂' = { s₁' with frames := s₂'.frames })
    (h₁ : s₁'.frames = s₁.frames) (h₂ : s₂'.frames = s₂.frames)
    (hd : ∀ i, Frames.Clear T (s₁'.dirs i)) : Twin T s₁' s₂' := ⟨hr, h₁ ▸ h₂ ▸ H.frames, hd⟩

theorem clear_set (hc : ∀ i, Frames.Clear T (s₁.dirs i)) {u : Option Tcb}
    (hu : Frames.Clear T ((u.bind Tcb.space).elim (fun _ => 0) Space.pde)) (i : Pid) :
    Frames.Clear T ((s₁.set pid u).dirs i) := by
  rw [dirs_set]
  by_cases hi : i = pid
  · rw [hi, update_self]
    exact hu
  · rw [update_of_ne hi]
    exact hc i

theorem clear_zero (T : Set ℕ) : Frames.Clear T fun _ => 0 := fun _ _ h => nomatch h

/-- Who is whose child does not depend on the frames. -/
theorem leave_frames {m : Frames} (h : leave s₁ pid t = .ok s₁') :
    leave { s₁ with frames := m } pid t = .ok { s₁' with frames := m } := by
  obtain ⟨parent, hp, h⟩ := bind_eq_ok.1 h
  refine bind_eq_ok.2 ⟨parent, hp, ?_⟩
  cases hst : parent.state with
  | waiting child =>
    simp only [hst] at h ⊢
    by_cases hw : parent.waitpid = -1 ∨ parent.waitpid = (pid : ℤ)
    · rw [if_pos hw] at h ⊢
      cases h
      rfl
    · rw [if_neg hw] at h ⊢
      cases h
      rfl
  | _ =>
    simp only [hst] at h ⊢
    cases h
    rfl

theorem Twin.getTask (H : Twin T s₁ s₂) : Rdix.getTask s₂ = Rdix.getTask s₁ := by
  unfold Rdix.getTask
  rw [H.bucket]

theorem Twin.create {parent : Option Pid} (H : Twin T s₁ s₂) (h₁ : taskCreate s₁ parent = .ok s₁')
    (h₂ : taskCreate s₂ parent = .ok s₂') : Twin T s₁' s₂' := by
  obtain ⟨p, hp, h₁⟩ := bind_eq_ok.1 h₁
  obtain ⟨p', hp', h₂⟩ := bind_eq_ok.1 h₂
  rw [H.getTask, hp] at hp'
  cases hp'
  cases h₁
  cases h₂
  refine H.same ?_ rfl rfl (clear_set H.clear (clear_zero T))
  rw [H.rest]
  rfl

theorem Twin.toUser (H : Twin T s₁ s₂) (I₁ : s₁.MemInv) (h₁ : kernelToUser s₁ pid t = .ok s₁')
    (h₂ : kernelToUser s₂ pid t = .ok s₂') : Twin T s₁' s₂' := by
  rw [kernelToUser_eq I₁.noTable] at h₁
  rw [kernelToUser_eq (by rw [H.kpde]; exact I₁.noTable)] at h₂
  cases h₁
  cases h₂
  refine H.same ?_ rfl rfl (clear_set H.clear ?_)
  · rw [H.rest]
    rfl
  · intro d f hd
    replace hd : tableOf (s₁.kpde (firstDidx + d)) = some f := hd
    rw [tableOf_of_absent (I₁.noTable d)] at hd
    cases hd

/-- The copies of page tables are the same. -/
theorem Twin.fork (H : Twin T s₁ s₂) (ha : s₁.At pid t (some space))
    (h₁ : sysFork s₁ pid t space = .ok (s₁', child))
    (h₂ : sysFork s₂ pid t space = .ok (s₂', child)) : ∃ R ⊆ T, Twin R s₁' s₂' := by
  obtain ⟨c, hc, h₁⟩ := bind_eq_ok.1 h₁
  obtain ⟨c', hc', h₂⟩ := bind_eq_ok.1 h₂
  obtain ⟨⟨m₁, pde⟩, hm₁, h₁⟩ := bind_eq_ok.1 h₁
  obtain ⟨⟨m₂, pde'⟩, hm₂, h₂⟩ := bind_eq_ok.1 h₂
  have hcl : Frames.Clear T space.pde := by
    have := H.clear pid
    rwa [ha.dirs_eq] at this
  obtain ⟨⟨m', q⟩, hm', hA, hq⟩ := H.frames.copyPde hcl _ hm₁
  rw [hm₂] at hm'
  cases hm'
  obtain rfl : pde' = pde := hq
  cases h₁
  cases h₂
  refine ⟨_, fun f hf => hf.1, ?_, hA, fun i d f hd hf => ?_⟩
  · rw [H.rest]
    rfl
  · replace hd : tableOf ((s₁.set child _).dirs i (firstDidx + d)) = some f := hd
    rw [dirs_set] at hd
    by_cases hi : i = child
    · rw [hi, update_self] at hd
      exact hf.2 d hd
    · rw [update_of_ne hi] at hd
      exact H.clear i d f hd hf.1

/-- Who leaves has no tables any more. -/
theorem Twin.leave {m₁ m₂ : Frames} {u : Tcb} (H : Twin T s₁ s₂) (hA : m₁.Alike T m₂)
    (hu : Frames.Clear T (u.space.elim (fun _ => 0) Space.pde))
    (h₁ : Rdix.leave { s₁.set pid (some u) with frames := m₁ } pid t = .ok s₁')
    (h₂ : Rdix.leave { s₂.set pid (some u) with frames := m₂ } pid t = .ok s₂') :
    Twin T s₁' s₂' := by
  have h₂' := leave_frames (m := m₂) h₁
  have hs : { s₂.set pid (some u) with frames := m₂ } =
      ({ s₁.set pid (some u) with frames := m₂ } : Tasks) := by
    rw [H.rest]
    rfl
  rw [hs] at h₂
  obtain rfl := Except.ok.inj (h₂'.symm.trans h₂)
  obtain ⟨hf, -, hkey⟩ := leave_spec h₁
  have hd : s₁'.dirs = (s₁.set pid (some u)).dirs := dirs_of_key hkey
  exact ⟨rfl, hf ▸ hA, fun i => hd ▸ clear_set (u := some u) H.clear hu i⟩

theorem Twin.exit (H : Twin T s₁ s₂) (ha : s₁.At pid t (some space))
    (h₁ : sysExit s₁ pid t space = .ok s₁') (h₂ : sysExit s₂ pid t space = .ok s₂') :
    Twin T s₁' s₂' := by
  obtain ⟨m₁, hm₁, h₁⟩ := bind_eq_ok.1 h₁
  obtain ⟨m₂, hm₂, h₂⟩ := bind_eq_ok.1 h₂
  have hcl : Frames.Clear T space.pde := by
    have := H.clear pid
    rwa [ha.dirs_eq] at this
  obtain ⟨m', hm', hA⟩ := H.frames.freePde hcl _ hm₁
  rw [show freePde s₂.frames space.pde = .ok m₂ from hm₂] at hm'
  cases hm'
  exact H.leave (u := { t with state := .died, space := none }) hA (clear_zero T) h₁ h₂

theorem Twin.threadExit (H : Twin T s₁ s₂) (ha : s₁.At pid t none)
    (h₁ : kernelThreadExit s₁ pid t = .ok s₁') (h₂ : kernelThreadExit s₂ pid t = .ok s₂') :
    Twin T s₁' s₂' := by
  have hu : Frames.Clear T (t.space.elim (fun _ => 0) Space.pde) := by
    rw [ha.2.2]
    exact clear_zero T
  exact H.leave (u := { t with state := .died }) H.frames hu h₁ h₂

theorem pageFault_cases {m : Frames} {present write : Bool} {r : Frames × Space}
    (h : pageFault m space vaddr present write = .ok r) :
    (present = false ∧ linkPage m space vaddr = .ok r) ∨
      (present = true ∧ writeFault m space vaddr = .ok r) := by
  unfold pageFault at h
  split_ifs at h with h1 h2 h3 h4 h5
  · exact Or.inr ⟨h5, h⟩
  · exact Or.inl ⟨Bool.eq_false_iff.2 h5, h⟩

theorem setSpace_rest (H : Twin T s₁ s₂) (pid : Pid) (t : Tcb) (r : Frames × Space) (m : Frames) :
    s₂.setSpace pid t (m, r.2) = { s₁.setSpace pid t r with frames := m } := by
  rw [H.rest]
  rfl

/-- A page is mapped, and perhaps a table is made. -/
theorem Twin.link {r₁ r₂ : Frames × Space} (H : Twin T s₁ s₂) (ha : s₁.At pid t (some space))
    (hy : OfAddr y pid vaddr) (h₁ : linkPage s₁.frames space vaddr = .ok r₁)
    (h₂ : linkPage s₂.frames space vaddr = .ok r₂) :
    ∃ R ⊆ T, Twin R (s₁.setSpace pid t r₁) (s₂.setSpace pid t r₂) := by
  have hcl : Frames.Clear T space.pde := by
    have := H.clear pid
    rwa [ha.dirs_eq] at this
  obtain ⟨r', hr', hA, hsp⟩ := H.frames.linkPage hcl hy.didx r₁ h₁
  rw [h₂] at hr'
  cases hr'
  refine ⟨_, fun f hf => hf.1, ?_, hA, fun i d f hd hf => ?_⟩
  · have := setSpace_rest H pid t r₁ r₂.1
    rwa [← hsp] at this
  · replace hd : tableOf ((s₁.setSpace pid t r₁).dirs i (firstDidx + d)) = some f := hd
    rw [show (s₁.setSpace pid t r₁).dirs = update s₁.dirs pid r₁.2.pde from dirs_set ..] at hd
    by_cases hi : i = pid
    · rw [hi, update_self] at hd
      exact hf.2 d hd
    · rw [update_of_ne hi] at hd
      exact H.clear i d f hd hf.1

/-- A page is made writable, or copied. -/
theorem Twin.copy {r₁ r₂ : Frames × Space} (H : Twin T s₁ s₂) (I₁ : s₁.MemInv)
    (ha : s₁.At pid t (some space)) (hy : OfAddr y pid vaddr) {g : ℕ} {b : Bool}
    (hg : s₁.frames.walk space.pde vaddr = some (g, b))
    (I' : (s₁.setSpace pid t r₁).MemInv) (h₁ : writeFault s₁.frames space vaddr = .ok r₁)
    (h₂ : writeFault s₂.frames space vaddr = .ok r₂) :
    ∃ R, Twin R (s₁.setSpace pid t r₁) (s₂.setSpace pid t r₂) ∧
      ∀ f ∈ R, f ∈ T ∨ (s₁.setSpace pid t r₁).InUse f := by
  have hd : s₁.dirs pid = space.pde := ha.dirs_eq
  have hcl : Frames.Clear T space.pde := hd ▸ H.clear pid
  have hpos : ∀ pte, tableOf (space.pde (didx vaddr)) = some pte →
      s₁.frames.p_bit_map pte ≠ 0 := by
    intro pte hp
    have hheld : s₁.frames.held s₁.dirs (pid, y.2.1, none) = some (pte, true) := by
      show Option.map _ (tableOf _) = _
      rw [hd, ← hy.didx, hp, Option.map_some]
    exact (I₁.inUse hheld).2
  obtain ⟨r', hr', hsp₁, hsp₂, g', hg', hA⟩ :=
    H.frames.writeFault hcl hy.didx I₁.ok.total hg hpos r₁ h₁
  rw [h₂] at hr'
  cases hr'
  have hdirs : (s₁.setSpace pid t r₁).dirs = s₁.dirs := by
    rw [show (s₁.setSpace pid t r₁).dirs = update s₁.dirs pid r₁.2.pde from dirs_set .., hsp₁, ← hd,
      update_eq_self]
  have hat : (s₁.setSpace pid t r₁).frameAt pid vaddr = some g' := by
    rw [Tasks.frameAt, hdirs, hd, ← hg']
    rfl
  refine ⟨_, ⟨?_, hA, fun i d f he hf => ?_⟩, fun f hf => ?_⟩
  · have := setSpace_rest H pid t r₁ r₂.1
    rwa [hsp₁, ← hsp₂] at this
  · have hne : g' ≠ f := fun hfg => I'.not_table hy hat i d (hfg ▸ he)
    rw [Set.mem_ofPred_eq, if_neg hne] at hf
    rw [hdirs] at he
    exact H.clear i d f he hf
  · by_cases hfg : g' = f
    · rw [frameAt_eq _ hy] at hat
      obtain ⟨⟨h, w⟩, hh, rfl⟩ := Option.map_eq_some_iff.1 hat
      exact Or.inr (hfg ▸ I'.inUse hh)
    · rw [Set.mem_ofPred_eq, if_neg hfg] at hf
      exact Or.inl hf

theorem Twin.store {b' : BitVec 8} {c : BitVec 8} {f f' : ℕ} (H : Twin T s₁ s₂) (I₁ : s₁.MemInv)
    (ha : s₁.At pid t (some space)) (hu : UserAddr vaddr)
    (h₁ : s₁.frames.walk space.pde vaddr = some (f, true))
    (h₂ : s₂.frames.walk space.pde vaddr = some (f', true)) :
    ∃ R, Twin R { s₁ with frames := s₁.frames.writeByte f vaddr b' }
        { s₂ with frames := s₂.frames.writeByte f' vaddr c } ∧ ∀ g ∈ R, g ∈ T ∨ s₁.InUse g := by
  obtain ⟨y, hy⟩ := exists_ofAddr pid hu
  have hd : s₁.dirs pid = space.pde := ha.dirs_eq
  have hw := H.walk hy
  rw [hd, h₁, h₂] at hw
  obtain rfl : f' = f := congrArg Prod.fst (Option.some.inj hw)
  have hat : s₁.frameAt pid vaddr = some f' := by rw [Tasks.frameAt, hd, h₁, Option.map_some]
  refine ⟨insert f' T, ⟨by rw [H.rest], ?_, fun i d g he hg => ?_⟩, fun g hg => ?_⟩
  · exact H.frames.fillWith f' (fun hf => absurd (Set.mem_insert f' T) hf) fun g _ hg =>
      Set.mem_insert_of_mem f' hg
  · rcases hg with rfl | hg
    · exact I₁.not_table hy hat i d he
    · exact H.clear i d g he hg
  · rcases hg with rfl | hg
    · rw [frameAt_eq _ hy] at hat
      obtain ⟨⟨h, w⟩, hh, rfl⟩ := Option.map_eq_some_iff.1 hat
      exact Or.inr (I₁.inUse hh)
    · exact Or.inl hg

/-- A task stores a byte, perhaps another one in each run. -/
theorem Twin.stores {b₁ b₂ : BitVec 8} (H : Twin T s₁ s₂) (I₁ : s₁.MemInv) (N₁ : s₁.NoneLeft)
    (N₂ : s₂.NoneLeft) (hv : UserAddr vaddr) (h₁ : TaskStep s₁ (.store pid vaddr b₁) s₁')
    (h₂ : TaskStep s₂ (.store pid vaddr b₂) s₂') : ∃ R, Twin R s₁' s₂' ∧ ∀ f ∈ R, f ∈ T ∨ s₁'.InUse f := by
  cases h₁ with
  | store hr hu h₁ =>
    cases h₂ with
    | store hr₂ _ h₂ =>
      obtain ⟨rfl, he⟩ := H.at_eq (hr.at N₁) (hr₂.at N₂)
      cases he
      exact H.store I₁ (hr.at N₁) hu h₁ h₂
    | storeTable _ hw _ => exact absurd hv (not_userAddr_table hw)
    | storeDir _ hw => exact absurd hv (not_userAddr_dir hw)
  | storeTable _ hw _ => exact absurd hv (not_userAddr_table hw)
  | storeDir _ hw => exact absurd hv (not_userAddr_dir hw)

/-- **A step keeps the two runs alike**, but for frames in use. -/
theorem Twin.step (H : Twin T s₁ s₂) (I₁ : s₁.MemInv) (N₁ : s₁.NoneLeft) (N₂ : s₂.NoneLeft)
    (hab : SameBut L a b) (hp : a.Plain) (hb : a.InBounds) (h₁ : TaskStep s₁ a s₁')
    (h₂ : TaskStep s₂ b s₂') : ∃ R, Twin R s₁' s₂' ∧ ∀ f ∈ R, f ∈ T ∨ s₁'.InUse f := by
  have hsub : (∃ R ⊆ T, Twin R s₁' s₂') → ∃ R, Twin R s₁' s₂' ∧ ∀ f ∈ R, f ∈ T ∨ s₁'.InUse f := by
    rintro ⟨R, hR, H'⟩
    exact ⟨R, H', fun f hf => Or.inl (hR hf)⟩
  cases hab with
  | same =>
    cases h₁ with
    | create h₁ =>
      cases h₂ with
      | create h₂ => exact hsub ⟨T, le_rfl, H.create h₁ h₂⟩
    | toUser ha h₁ =>
      cases h₂ with
      | toUser ha₂ h₂ =>
        obtain ⟨rfl, -⟩ := H.at_eq ha ha₂
        exact hsub ⟨T, le_rfl, H.toUser I₁ h₁ h₂⟩
    | fork ha h₁ =>
      cases h₂ with
      | fork ha₂ h₂ =>
        obtain ⟨rfl, he⟩ := H.at_eq ha ha₂
        cases he
        exact hsub (H.fork ha h₁ h₂)
    | exit ha h₁ =>
      cases h₂ with
      | exit ha₂ h₂ =>
        obtain ⟨rfl, he⟩ := H.at_eq ha ha₂
        cases he
        exact hsub ⟨T, le_rfl, H.exit ha h₁ h₂⟩
    | exitBlock _ => exact absurd hb not_false
    | exitWait _ _ _ _ _ => exact absurd hp not_false
    | exitEnd ht hst _ _ => exact absurd hst (N₁ _ _ ht).1
    | threadExit ha h₁ =>
      cases h₂ with
      | threadExit ha₂ h₂ =>
        obtain ⟨rfl, -⟩ := H.at_eq ha ha₂
        exact hsub ⟨T, le_rfl, H.threadExit ha h₁ h₂⟩
    | fault hr _ _ h₁ =>
      cases h₂ with
      | fault hr₂ _ _ h₂ =>
        obtain ⟨rfl, he⟩ := H.at_eq (hr.at N₁) (hr₂.at N₂)
        cases he
        have ha := hr.at N₁
        obtain ⟨I', -⟩ := I₁.fault ha h₁
        obtain ⟨y, hy⟩ := exists_ofAddr _ (userAddr_of_fault h₁)
        have hw := H.walk hy
        rw [ha.dirs_eq, Option.elim_some] at hw
        rw [hw] at h₂
        rcases pageFault_cases h₁ with ⟨hn, h₁⟩ | ⟨hs, h₁⟩ <;>
          rcases pageFault_cases h₂ with ⟨hn₂, h₂⟩ | ⟨hs₂, h₂⟩
        · exact hsub (H.link ha hy h₁ h₂)
        · exact absurd (hn.symm.trans hs₂) (by simp)
        · exact absurd (hs.symm.trans hn₂) (by simp)
        · obtain ⟨⟨g, b⟩, hg⟩ := Option.isSome_iff_exists.1 hs
          exact H.copy I₁ ha hy hg I' h₁ h₂
    | store hr hu h₁ => exact H.stores I₁ N₁ N₂ hb (.store hr hu h₁) h₂
    | storeTable _ hv _ => exact absurd hb (not_userAddr_table hv)
    | storeDir _ hv => exact absurd hb (not_userAddr_dir hv)
    | waitpid _ => exact absurd hp not_false
    | wakeup _ _ => exact absurd hp not_false
    | brk _ _ _ => exact absurd hp not_false
    | test _ _ => exact absurd hp not_false
  | store hL => exact H.stores I₁ N₁ N₂ hb h₁ h₂

/-! ## What the tasks read -/

/-- The tasks in `K` have the same pages in both runs. -/
def SamePages (K : Set Pid) (s₁ s₂ : Tasks) : Prop := ∀ y : Frames.Page, y.1 ∈ K → s₂.pages y = s₁.pages y

/-- The page of an address is the same if its frame is. -/
theorem Twin.page_eq (H : Twin T s₁ s₂) (hy : OfAddr y pid vaddr)
    (hf : ∀ f, s₁.frameAt pid vaddr = some f → f ∉ T) : s₂.pages y = s₁.pages y := by
  rw [pages_frameAt s₂ hy, pages_frameAt s₁ hy, H.frameAt hy]
  cases hc : s₁.frameAt pid vaddr with
  | none => rfl
  | some f => exact congrArg some (H.frames.data f (hf f hc))

/-- The page that `link_page` maps was in no use. -/
theorem not_inUse_linkPage {r : Frames × Space} (I : s.MemInv) (ha : s.At pid t (some space))
    (hn : s.frameAt pid vaddr = none) (h : linkPage s.frames space vaddr = .ok r) {f : ℕ}
    (hf : (s.setSpace pid t r).frameAt pid vaddr = some f) : ¬ s.InUse f := by
  have hd : s.dirs pid = space.pde := ha.dirs_eq
  have hw : s.frames.walk space.pde vaddr = none := by
    rw [Tasks.frameAt, hd] at hn
    exact Option.map_eq_none_iff.1 hn
  have hat : (s.setSpace pid t r).frameAt pid vaddr = (r.1.walk r.2.pde vaddr).map Prod.fst := by
    rw [Tasks.frameAt, show (s.setSpace pid t r).dirs = update s.dirs pid r.2.pde from dirs_set ..,
      update_self]
    rfl
  rw [hat, Frames.linkPage_free I.ok.total hw h] at hf
  exact fun hu => hu.2 (Frames.mem_free.1 (List.mem_of_getElem? hf)).2

/-- A fault keeps the pages the same, if free frames are. -/
theorem SamePages.fault {write : Bool} {r₁ r₂ : Frames × Space} (P : SamePages K s₁ s₂)
    (H : Twin T s₁ s₂) (I₁ : s₁.MemInv) (I₂ : s₂.MemInv) (ha : s₁.At pid t (some space))
    (ha₂ : s₂.At pid t (some space))
    (hT : pid ∈ K → s₁.frameAt pid vaddr = none → ∀ f ∈ T, s₁.InUse f)
    (h₁ : pageFault s₁.frames space vaddr (s₁.frames.walk space.pde vaddr).isSome write = .ok r₁)
    (h₂ : pageFault s₂.frames space vaddr (s₂.frames.walk space.pde vaddr).isSome write = .ok r₂) :
    SamePages K (s₁.setSpace pid t r₁) (s₂.setSpace pid t r₂) := by
  obtain ⟨y, hy⟩ := exists_ofAddr pid (userAddr_of_fault h₁)
  have hp₁ := (I₁.fault_page ha hy h₁).2
  have hp₂ := (I₂.fault_page ha₂ hy h₂).2
  -- other pages stay
  have hother : ∀ z ≠ y, ∀ s s' : Tasks, (s'.pages = s.pages ∨
      ∃ bs, s.pages y = none ∧ s'.pages = update s.pages y (some bs)) → s'.pages z = s.pages z := by
    rintro z hz s s' (h | ⟨bs, -, h⟩)
    · rw [h]
    · rw [h, update_of_ne hz]
  intro z hz
  by_cases hzy : z = y
  · obtain rfl := hzy
    have hK : pid ∈ K := hy.pid ▸ hz
    cases hat : s₁.frameAt pid vaddr with
    | some g =>
      -- the page was there
      have hne₁ : s₁.pages z ≠ none := by
        rw [pages_frameAt s₁ hy, hat]
        simp
      have hne₂ : s₂.pages z ≠ none := by rwa [P z hz]
      have h₁' := hp₁.resolve_right fun h => hne₁ h.choose_spec.1
      have h₂' := hp₂.resolve_right fun h => hne₂ h.choose_spec.1
      rw [h₁', h₂', P z hz]
    | none =>
      have hw := H.walk hy
      have hn : s₁.frames.walk space.pde vaddr = none := by
        rw [Tasks.frameAt, ha.dirs_eq] at hat
        exact Option.map_eq_none_iff.1 hat
      rw [ha.dirs_eq, Option.elim_some] at hw
      rw [hw, hn] at h₂
      rw [hn] at h₁
      have hl₁ := ((pageFault_cases h₁).resolve_right fun h => nomatch h.1).2
      have hl₂ := ((pageFault_cases h₂).resolve_right fun h => nomatch h.1).2
      obtain ⟨R, hR, H'⟩ := H.link ha hy hl₁ hl₂
      refine H'.page_eq hy fun f hf hfR => ?_
      exact not_inUse_linkPage I₁ ha hat hl₁ hf (hT hK hat f (hR hfR))
  · rw [hother z hzy _ _ hp₁, hother z hzy _ _ hp₂, P z hz]

/-- Of the tasks in `K` one step makes those in `K'`. -/
structure Follows (L K K' : Set Pid) (a : TaskAct) : Prop where
  sub : K' ⊆ K
  fork : ∀ pid child, a = .fork pid child → child ∈ K' → pid ∈ K
  store : ∀ pid vaddr b, a = .store pid vaddr b → pid ∈ K' → pid ∈ L

theorem SamePages.step {K' : Set Pid} (P : SamePages K s₁ s₂) (H : Twin T s₁ s₂) (I₁ : s₁.MemInv)
    (I₂ : s₂.MemInv) (N₁ : s₁.NoneLeft) (N₂ : s₂.NoneLeft) (hab : SameBut L a b) (hp : a.Plain)
    (hb : a.InBounds) (hK : Follows L K K' a)
    (hT : ∀ pid vaddr write, a = .fault pid vaddr write → pid ∈ K → s₁.frameAt pid vaddr = none →
      ∀ f ∈ T, s₁.InUse f)
    (h₁ : TaskStep s₁ a s₁') (h₂ : TaskStep s₂ b s₂') : SamePages K' s₁' s₂' := by
  have hb₂ : b.Plain ∧ b.InBounds := by
    cases hab with
    | same => exact ⟨hp, hb⟩
    | store _ => exact ⟨trivial, hb⟩
  have E₁ := (I₁.step N₁ (careful_of_plain ⟨hp, hb⟩) h₁).2
  have E₂ := (I₂.step N₂ (careful_of_plain hb₂) h₂).2
  have hsame : s₁'.pages = s₁.pages → s₂'.pages = s₂.pages → SamePages K' s₁' s₂' := by
    intro e₁ e₂ z hz
    rw [e₁, e₂, P z (hK.sub hz)]
  cases hab with
  | same =>
    cases a with
    | fork p c =>
      intro z hz
      rw [congrFun E₁ z, congrFun E₂ z]
      by_cases hzc : z.1 = c
      · rw [if_pos hzc, if_pos hzc]
        exact P _ (hK.fork p c rfl (hzc ▸ hz))
      · rw [if_neg hzc, if_neg hzc, P z (hK.sub hz)]
    | exit p =>
      intro z hz
      rw [congrFun E₁ z, congrFun E₂ z]
      by_cases hzp : z.1 = p
      · rw [if_pos hzp, if_pos hzp]
      · rw [if_neg hzp, if_neg hzp, P z (hK.sub hz)]
    | fault p va w =>
      cases h₁ with
      | fault hr _ _ h₁ =>
        cases h₂ with
        | fault hr₂ _ _ h₂ =>
          obtain ⟨rfl, he⟩ := H.at_eq (hr.at N₁) (hr₂.at N₂)
          cases he
          have hF := P.fault H I₁ I₂ (hr.at N₁) (hr₂.at N₂) (hT p va w rfl) h₁ h₂
          exact fun z hz => hF z (hK.sub hz)
    | store p va b' =>
      obtain ⟨y, bs, hy, hbs, e₁⟩ := E₁
      obtain ⟨y', bs', hy', hbs', e₂⟩ := E₂
      obtain rfl : y' = y := ((hy.eq_iff hy').1 rfl).1
      intro z hz
      rw [e₁, e₂]
      by_cases hzy : z = y'
      · obtain rfl := hzy
        rw [P z (hK.sub hz), hbs] at hbs'
        rw [update_self, update_self, Option.some.inj hbs']
      · rw [update_of_ne hzy, update_of_ne hzy, P z (hK.sub hz)]
    | create parent => exact hsame E₁ E₂
    | toUser p => exact hsame E₁ E₂
    | threadExit p => exact hsame E₁ E₂
    | exitBlock p => exact absurd hb not_false
    | exitEnd p =>
      cases h₁ with
      | exitEnd ht hst _ _ => exact absurd hst (N₁ _ _ ht).1
    | waitpid p arg => exact absurd hp not_false
    | wakeup p c => exact absurd hp not_false
    | brk p c => exact absurd hp not_false
    | test p => exact absurd hp not_false
  | @store p va b₁ b₂ hpL =>
    obtain ⟨y, bs, hy, -, e₁⟩ := E₁
    obtain ⟨y', bs', hy', -, e₂⟩ := E₂
    intro z hz
    have hne : ∀ x : Frames.Page, x.1 = p → z ≠ x := by
      rintro x hx rfl
      exact hpL (hK.store p va b₁ rfl (hx ▸ hz))
    rw [e₁, e₂, update_of_ne (hne y hy.pid), update_of_ne (hne y' hy'.pid), P z (hK.sub hz)]

/-- After an exit of a task with the same pages in both, the frames that it has freed are the
    same. -/
theorem Twin.exit_free (H : Twin T s₁ s₂) (P : SamePages K s₁ s₂) (I₁ : s₁.MemInv)
    (I₂ : s₂.MemInv) (hT : ∀ f ∈ T, s₁.InUse f) (hpid : pid ∈ K) (h₁ : TaskStep s₁ (.exit pid) s₁')
    (h₂ : TaskStep s₂ (.exit pid) s₂') : ∃ R, Twin R s₁' s₂' ∧ ∀ f ∈ R, s₁'.InUse f := by
  have hst := I₁.steady h₁
  have hh : s₁'.Handed = s₁.Handed := handed_step h₁ hst.start hst.total
  cases h₁ with
  | @exit _ t space _ ha h₁ =>
    cases h₂ with
    | exit ha₂ h₂ =>
      obtain ⟨rfl, he⟩ := H.at_eq ha ha₂
      cases he
      have H' := H.exit ha h₁ h₂
      refine ⟨{f ∈ T | s₁'.InUse f}, H'.shrink (fun f hf => hf.1) fun f hf hfR => ?_,
        fun f hf => hf.2⟩
      obtain ⟨m₁, hm₁, hl₁⟩ := bind_eq_ok.1 h₁
      obtain ⟨m₂, hm₂, hl₂⟩ := bind_eq_ok.1 h₂
      have hd : s₁.dirs pid = space.pde := ha.dirs_eq
      have hf₁ : s₁'.frames = m₁ := (leave_spec hl₁).1
      have hf₂ : s₂'.frames = m₂ := (leave_spec hl₂).1
      have hdata₁ : m₁.data = s₁.frames.data := (I₁.ok.freed (p := pid) (hd ▸ hm₁)).data
      have hdata₂ : m₂.data = s₂.frames.data :=
        (I₂.ok.freed (p := pid) ((H.dirs ▸ hd : s₂.dirs pid = space.pde) ▸ hm₂)).data
      have h0 : m₁.p_bit_map f = 0 := by
        by_contra hne
        exact hfR ⟨hf, hh ▸ (hT f hf).1, hf₁ ▸ hne⟩
      rw [hf₁, hf₂, hdata₁, hdata₂]
      obtain ⟨⟨d, o⟩, b, hx⟩ := I₁.freed ha hm₁ (hT f hf) h0
      cases o with
      | none =>
        obtain ⟨g, hg, he⟩ := Option.map_eq_some_iff.1 hx
        cases he
        exact absurd hf (H.clear pid d _ hg)
      | some u =>
        obtain ⟨vaddr, hy⟩ := exists_addr (pid, d, u)
        have hat : s₁.frameAt pid vaddr = some f := by
          rw [frameAt_eq s₁ hy, show Frames.ent (pid, d, u) = (pid, d, some u) from rfl, hx,
            Option.map_some]
        have hp := P (pid, d, u) hpid
        rw [pages_frameAt s₂ hy, pages_frameAt s₁ hy, H.frameAt hy, hat] at hp
        exact Option.some.inj hp

/-! ## The invariant of the two runs -/

/-- The runs differ in frames in use only, as long as no dirty task has exited, and the tasks that
    are not dirty have the same pages. -/
structure Twins (L : Set Pid) (x : Tasks × Tasks × Trail) : Prop where
  inv₁ : x.1.MemInv
  inv₂ : x.2.1.MemInv
  none₁ : x.1.NoneLeft
  none₂ : x.2.1.NoneLeft
  dirty : ∀ q ∈ x.2.2.dirty, q ∉ L
  pages : SamePages (x.2.2.clean L) x.1 x.2.1
  twin : ∃ T, Twin T x.1 x.2.1 ∧ (¬ x.2.2.spilt → ∀ f ∈ T, x.1.InUse f)

variable {h : Trail}

/-- What is dirty stays so. -/
theorem next_mono (L : Set Pid) (h : Trail) (a : TaskAct) :
    h.dirty ⊆ (h.next L a).dirty ∧ (h.spilt → (h.next L a).spilt) := by
  cases a with
  | store pid vaddr b => exact ⟨fun q hq => Or.inl hq, id⟩
  | fork pid child => exact ⟨fun q hq => Or.inl hq, id⟩
  | exit pid => exact ⟨le_rfl, Or.inl⟩
  | _ => exact ⟨le_rfl, id⟩

theorem follows_next (hL : ∀ pid child, a = .fork pid child → child ∈ L → pid ∈ L) :
    Follows L (h.clean L) ((h.next L a).clean L) a := by
  obtain ⟨hd, hs⟩ := next_mono L h a
  constructor
  · exact fun q hq => hq.imp_right fun hn => ⟨fun h => hn.1 (hs h), fun h => hn.2 (hd h)⟩
  · rintro pid child rfl hc
    rcases hc with hc | ⟨hn, hc⟩
    · exact Or.inl (hL pid child rfl hc)
    · exact Or.inr ⟨hn, fun hp => hc (Or.inr ⟨rfl, hp⟩)⟩
  · rintro pid vaddr b rfl hc
    rcases hc with hc | ⟨-, hc⟩
    · exact hc
    · by_contra hpL
      exact hc (Or.inr ⟨rfl, hpL⟩)

theorem dirty_next (hd : ∀ q ∈ h.dirty, q ∉ L)
    (hL : ∀ pid child, a = .fork pid child → child ∈ L → pid ∈ L) :
    ∀ q ∈ (h.next L a).dirty, q ∉ L := by
  intro q hq
  cases a with
  | store pid vaddr b =>
    rcases hq with hq | ⟨rfl, hq⟩
    · exact hd q hq
    · exact hq
  | fork pid child =>
    rcases hq with hq | ⟨rfl, hq⟩
    · exact hd q hq
    · exact fun hc => hd pid hq (hL pid q rfl hc)
  | _ => exact hd q hq

/-- **A step keeps the invariant.** -/
theorem Twins.step (W : Twins L (s₁, s₂, h)) (hc : Unspilt L (s₁, s₂, h) (a, b))
    (hab : SameBut L a b) (hp : a.Plain)
    (hL : ∀ pid child, a = .fork pid child → child ∈ L → pid ∈ L)
    (h₁ : TaskStep s₁ a s₁') (h₂ : TaskStep s₂ b s₂') : Twins L (s₁', s₂', h.next L a) := by
  obtain ⟨I₁, I₂, N₁, N₂, hd, P, T, H, hT⟩ := W
  obtain ⟨hb, hfault⟩ := hc
  have hc₁ : s₁.Careful a := careful_of_plain ⟨hp, hb⟩
  have hc₂ : s₂.Careful b := by
    cases hab with
    | same => exact careful_of_plain ⟨hp, hb⟩
    | store _ => exact hb
  refine ⟨(I₁.step N₁ hc₁ h₁).1, (I₂.step N₂ hc₂ h₂).1, N₁.step hc₁ h₁, N₂.step hc₂ h₂,
    dirty_next hd hL, ?_, ?_⟩
  · refine P.step H I₁ I₂ N₁ N₂ hab hp hb (follows_next hL) ?_ h₁ h₂
    intro pid vaddr write ha hpid hn
    exact hT (hpid.elim (fun hpL => hfault pid vaddr write ha hpL hn) And.left)
  by_cases hx : ∃ pid, a = .exit pid
  · obtain ⟨pid, rfl⟩ := hx
    by_cases hs : h.spilt ∨ pid ∈ h.dirty
    · obtain ⟨R, H', -⟩ := H.step I₁ N₁ N₂ hab hp hb h₁ h₂
      exact ⟨R, H', fun hn => absurd hs hn⟩
    · obtain ⟨hns, hnd⟩ := not_or.1 hs
      cases hab
      obtain ⟨R, H', hR⟩ := H.exit_free P I₁ I₂ (hT hns) (Or.inr ⟨hns, hnd⟩) h₁ h₂
      exact ⟨R, H', fun _ => hR⟩
  · obtain ⟨R, H', hR⟩ := H.step I₁ N₁ N₂ hab hp hb h₁ h₂
    refine ⟨R, H', fun hn f hf => (hR f hf).elim (fun hfT => ?_) id⟩
    have hns : ¬ h.spilt := fun hs => hn ((next_mono L h a).2 hs)
    exact I₁.inUse_step N₁ hp hb (fun pid he => hx ⟨pid, he⟩) h₁ (hT hns f hfT)

theorem twins_reach {L : Set Pid} {x : Tasks × Tasks × Trail}
    (h : ((twinSys L).restrict (Unspilt L)).Reach x) : Twins L x := by
  refine Sys.Reach.invariant (S := (twinSys L).restrict (Unspilt L)) (I := Twins L) ?_ ?_ h
  · rintro ⟨s₁, s₂, h⟩ ⟨hb, he, hh⟩
    obtain rfl : s₂ = s₁ := he
    obtain rfl : h = { dirty := ∅, spilt := False } := hh
    exact ⟨.of_booted hb, .of_booted hb, noneLeft_of_booted hb, noneLeft_of_booted hb,
      fun q hq => absurd hq (Set.notMem_empty q), fun _ _ => rfl, ∅,
      ⟨rfl, .refl _ _, fun _ _ f _ hf => hf⟩, fun _ f hf => absurd hf (Set.notMem_empty f)⟩
  · rintro ⟨s₁, s₂, h⟩ ⟨a, b⟩ ⟨s₁', s₂', h'⟩ W ⟨hc, hab, hp, hL, h₁, h₂, hh⟩
    obtain rfl : h' = h.next L a := hh
    exact W.step hc hab hp hL h₁ h₂

end

end Tasks

/-- **Main result.** In every two runs that differ only in bytes which tasks outside `L` store, a task
    in `L` reads the same at every address, if the tasks in `L` touch no page for the first time
    after a task has exited that may have such a byte in its memory. -/
theorem fresh_pages {L : Set Pid} {s₁ s₂ : Tasks} {h : Trail} {P : Pid}
    (hr : ((twinSys L).restrict (Unspilt L)).Reach (s₁, s₂, h)) (hP : P ∈ L) :
    s₂.mem P = s₁.mem P :=
  Tasks.mem_congr fun d t => (Tasks.twins_reach hr).pages (P, d, t) (Or.inl hP)

/-! ## Runs -/

section Run

variable {L : Set Pid} {h : Trail} {s₁ s₂ s₁' s₂' : Tasks} {a b : TaskAct}

/-- One step of both runs. -/
theorem twin_step (hr : ((twinSys L).restrict (Unspilt L)).Reach (s₁, s₂, h)) (hab : SameBut L a b)
    (h₁ : TaskStep s₁ a s₁') (h₂ : TaskStep s₂ b s₂') (hp : a.Plain) (hb : a.InBounds)
    (hfork : ∀ pid child, a ≠ .fork pid child) (hs : ¬ h.spilt) :
    ((twinSys L).restrict (Unspilt L)).Reach (s₁', s₂', h.next L a) :=
  .step (a := (a, b)) hr ⟨⟨hb, fun _ _ _ _ _ _ => hs⟩, hab, hp,
    fun pid child he => absurd he (hfork pid child), h₁, h₂, rfl⟩

/-- Task 1 stores `b` in one run and `c` in the other. -/
theorem twin_stored (b c : BitVec 8) : ∃ h, ¬ h.spilt ∧
    ((twinSys {2}).restrict (Unspilt {2})).Reach (stored b, stored c, h) := by
  have h₀ : ((twinSys {2}).restrict (Unspilt {2})).Reach
      (boot, boot, { dirty := ∅, spilt := False }) := .init ⟨booted_boot, rfl, rfl⟩
  have hc : TaskStep boot (.create none) (boot.set 0 (some idle)) := .create rfl
  have h₁ := twin_step h₀ (.same _) hc hc trivial trivial (by simp) not_false
  have hc : TaskStep (boot.set 0 (some idle)) (.create none)
    ((boot.set 0 (some idle)).set 1 (some idle)) := .create rfl
  have h₂ := twin_step h₁ (.same _) hc hc trivial trivial (by simp) not_false
  have hc : TaskStep ((boot.set 0 (some idle)).set 1 (some idle)) (.create none)
    (((boot.set 0 (some idle)).set 1 (some idle)).set 2 (some idle)) := .create rfl
  have h₃ := twin_step h₂ (.same _) hc hc trivial trivial (by simp) not_false
  have hu : TaskStep (((boot.set 0 (some idle)).set 1 (some idle)).set 2 (some idle)) (.toUser 1)
      ((((boot.set 0 (some idle)).set 1 (some idle)).set 2 (some idle)).set 1 (some (user 0))) :=
    .toUser ⟨rfl, rfl, rfl⟩ (kernelToUser_eq boot_absent)
  have h₄ := twin_step h₃ (.same _) hu hu trivial trivial (by simp) not_false
  have hu : TaskStep ((((boot.set 0 (some idle)).set 1 (some idle)).set 2 (some idle)).set 1
      (some (user 0))) (.toUser 2) twoUsers :=
    .toUser ⟨rfl, rfl, rfl⟩ (kernelToUser_eq boot_absent)
  have h₅ := twin_step h₄ (.same _) hu hu trivial trivial (by simp) not_false
  have h₆ := twin_step h₅ (.same _) step_touch step_touch trivial trivial (by simp) not_false
  exact ⟨_, not_false, twin_step h₆ (.store (by simp)) (step_store b) (step_store c) trivial
    ⟨by decide, by decide⟩ (by simp) not_false⟩

/-- Task 2 has touched its stack, too. -/
def bothTouched (b : BitVec 8) : Tasks :=
  (stored b).setSpace 2 (user 0) (touched (stored b).frames 4098, touchedSpace 4098)

theorem step_both (b : BitVec 8) : TaskStep (stored b) (.fault 2 0x93ffffc false) (bothTouched b) :=
  .fault (t := user 0) ⟨rfl, Or.inl rfl, rfl⟩ (congrArg (Option.elim · _ _) (walk_fresh _))
    (fun h => nomatch h) (fault_touched (unused_stored b) false)

/-- Its page is fresh. -/
theorem mem_both (b : BitVec 8) : (bothTouched b).mem 2 0x93ffffc = some 0#8 := by
  have hu : UserAddr 0x93ffffc := ⟨by decide, by decide⟩
  have hd : (bothTouched b).dirs 2 = (touchedSpace 4098).pde := by
    rw [bothTouched, Tasks.setSpace, Tasks.dirs_set, update_self]
    rfl
  have hdata : (touched (stored b).frames 4098).data 4099 = fun _ => 0#8 := by
    simp only [touched, linked, Frames.setEntry, Frames.fill, Frames.withCount, data_stored,
      update_of_ne (show 4099 ≠ 4098 by decide), update_of_ne (show 4099 ≠ 4097 by decide),
      update_of_ne (show 4099 ≠ 4096 by decide)]
    rfl
  rw [Tasks.mem, if_pos hu, Frames.readByte, hd]
  have hw : (touched (stored b).frames 4098).walk (touchedSpace 4098).pde 0x93ffffc =
      some (4099, true) := walk_linked _ (by decide) (pde_touched 4098) rfl
  show ((touched (stored b).frames 4098).walk _ _).map _ = _
  rw [hw, Option.map_some]
  show some ((touched (stored b).frames 4098).data 4099 _) = _
  rw [hdata]

/-- Task 2 reads 0 on its stack, whatever task 1 has stored on its own. -/
theorem fresh_pages_stored : (bothTouched 2#8).mem 2 = (bothTouched 1#8).mem 2 ∧
    (bothTouched 1#8).mem 2 0x93ffffc = some 0#8 := by
  obtain ⟨h, hs, hr⟩ := twin_stored 1#8 2#8
  have hr' := twin_step hr (.same _) (step_both 1#8) (step_both 2#8) trivial trivial (by simp) hs
  exact ⟨fresh_pages hr' (Set.mem_singleton 2), mem_both 1#8⟩

/-- Task 1 at the end of `sys_exit`. -/
def dead : Tcb := { toucher with state := .died, space := none }

/-- **A fresh page with another task's byte.** Task 1 stores a byte on its stack and exits; task 2
    reads it at the top of its own, where it has not stored. -/
theorem fresh_pages_leak : ∃ h, (twinSys {2}).Reach (reread 1#8 dead, reread 2#8 dead, h) ∧
    (reread 1#8 dead).mem 2 0x93ffffc = some 1#8 ∧ (reread 2#8 dead).mem 2 0x93ffffc = some 2#8 := by
  obtain ⟨h, hs, hr⟩ := twin_stored 1#8 2#8
  have hx : ∀ b, TaskStep (stored b) (.exit 1) (released b dead) := fun b =>
    .exit (at_stored b) (exitRest_stored b rfl)
  have hr' := (twin_step hr (.same _) (hx 1#8) (hx 2#8) trivial trivial (by simp) hs).of_restrict
  exact ⟨_, .step (a := (.fault 2 0x93ffffc false, .fault 2 0x93ffffc false)) hr'
    ⟨.same _, trivial, by simp, step_reread 1#8 dead, step_reread 2#8 dead, rfl⟩, mem_reread _ _,
    mem_reread _ _⟩

end Run

end Rdix
