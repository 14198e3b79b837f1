/-
  Loops over a list: `foldl`, and `foldlM` in `Except` for loops that may stop with an error.

  * `foldl_flatMap`: each turn adds its part to what has been found;
  * `foldl_update`: a loop over the entries of a table;
  * `foldlM_ok`: an invariant that each turn establishes for the next holds at the end, and
    the loop returns;
  * `foldlM_invariant`: what each turn keeps, a loop that returns keeps;
  * `foldlM_range_ok`: the same for a loop that counts from 0;
  * `foldlM_fits`: a loop that stops where what it builds does not fit any more.
-/
import Mathlib

namespace Loop

/-- **A loop that collects**: `I found` holds of the state when `found` has been found. -/
theorem foldl_flatMap {σ α β : Type*} {f : σ → α → σ} {g : α → List β} (I : List β → σ → Prop)
    (h : ∀ found s a, I found s → I (found ++ g a) (f s a)) {found : List β} {s : σ}
    (h₀ : I found s) (l : List α) : I (found ++ l.flatMap g) (l.foldl f s) := by
  induction l generalizing found s with
  | nil =>
    rw [List.flatMap_nil, List.append_nil]
    exact h₀
  | cons a l ih =>
    rw [List.flatMap_cons, ← List.append_assoc]
    exact ih (h found s a h₀)

/-- **A loop over entries of a table**: each is written once, and the others stay. -/
theorem foldl_update {ι κ β : Type*} [DecidableEq κ] {f : ι → κ} {g : ι → β → β} {l : List ι}
    (hl : (l.map f).Nodup) (t : κ → β) :
    (∀ i ∈ l, l.foldl (fun t i => Function.update t (f i) (g i (t (f i)))) t (f i) = g i (t (f i))) ∧
    ∀ k, k ∉ l.map f → l.foldl (fun t i => Function.update t (f i) (g i (t (f i)))) t k = t k := by
  induction l generalizing t with
  | nil => exact ⟨fun _ hi => absurd hi List.not_mem_nil, fun _ _ => rfl⟩
  | cons i l ih =>
    rw [List.map_cons, List.nodup_cons] at hl
    obtain ⟨hmem, hout⟩ := ih hl.2 (Function.update t (f i) (g i (t (f i))))
    refine ⟨fun j hj => ?_, fun k hk => ?_⟩
    · rw [List.foldl_cons]
      rcases List.mem_cons.1 hj with rfl | hj
      · rw [hout _ hl.1, Function.update_self]
      · have hne : f j ≠ f i := fun he => hl.1 (he ▸ List.mem_map_of_mem hj)
        rw [hmem j hj, Function.update_of_ne hne]
    · rw [List.map_cons, List.mem_cons, not_or] at hk
      rw [List.foldl_cons, hout k hk.2, Function.update_of_ne hk.1]

variable {ε σ α : Type*} {f : σ → α → Except ε σ}

/-- **A loop over a list**: `I k` holds after `k` turns. -/
theorem foldlM_ok {l : List α} (I : ℕ → σ → Prop) {s : σ} (h₀ : I 0 s)
    (h : ∀ k (hk : k < l.length) s, I k s → ∃ s', f s (l.get ⟨k, hk⟩) = .ok s' ∧ I (k + 1) s') :
    ∃ s', l.foldlM f s = .ok s' ∧ I l.length s' := by
  induction l generalizing I s with
  | nil => exact ⟨s, rfl, h₀⟩
  | cons a l ih =>
    obtain ⟨s₁, he, h₁⟩ := h 0 (Nat.succ_pos _) s h₀
    obtain ⟨s', he', h'⟩ := ih (fun k => I (k + 1)) h₁ fun k hk s hs =>
      h (k + 1) (Nat.succ_lt_succ hk) s hs
    refine ⟨s', ?_, h'⟩
    have hfa : f s a = .ok s₁ := he
    rw [List.foldlM_cons, hfa]
    exact he'

/-- **A loop that counts from 0 to `n`.** -/
theorem foldlM_range_ok {f : σ → ℕ → Except ε σ} {n : ℕ} (I : ℕ → σ → Prop) {s : σ} (h₀ : I 0 s)
    (h : ∀ k < n, ∀ s, I k s → ∃ s', f s k = .ok s' ∧ I (k + 1) s') :
    ∃ s', (List.range n).foldlM f s = .ok s' ∧ I n s' := by
  have hlen : (List.range n).length = n := List.length_range
  obtain ⟨s', he, hs'⟩ := foldlM_ok I h₀ fun k hk s hs => by
    rw [List.get_eq_getElem, List.getElem_range]
    exact h k (hlen ▸ hk) s hs
  exact ⟨s', he, hlen ▸ hs'⟩

/-- What each turn keeps, a loop that returns keeps. -/
theorem foldlM_invariant {I : σ → Prop} (h : ∀ s a s', I s → f s a = .ok s' → I s') {l : List α}
    {s s' : σ} (hs : I s) (hrun : l.foldlM f s = .ok s') : I s' := by
  induction l generalizing s with
  | nil =>
    cases hrun
    exact hs
  | cons a l ih =>
    rw [List.foldlM_cons] at hrun
    cases hturn : f s a with
    | error e =>
      rw [hturn] at hrun
      cases hrun
    | ok s₁ =>
      rw [hturn] at hrun
      exact ih (h s a s₁ hs hturn) hrun

/-- A loop that only grows what it builds. -/
theorem fits_of_foldl {τ : Type*} {g : τ → α → τ} (fits : τ → Prop)
    (hmono : ∀ t a, fits (g t a) → fits t) {l : List α} {t : τ} (h : fits (l.foldl g t)) : fits t := by
  induction l generalizing t with
  | nil => exact h
  | cons a l ih => exact hmono t a (ih h)

/-- **A loop that builds as long as there is room**: it builds what `g` builds, and stops with `e` just
    when that does not fit. -/
theorem foldlM_fits {τ : Type*} {g : τ → α → τ} {e : ε} (R : σ → τ → Prop) (fits : τ → Prop)
    [DecidablePred fits] (hmono : ∀ t a, fits (g t a) → fits t) {l : List α}
    (h : ∀ s t, ∀ a ∈ l, R s t → fits t →
      if fits (g t a) then ∃ s', f s a = .ok s' ∧ R s' (g t a) else f s a = .error e)
    {s : σ} {t : τ} (hR : R s t) (ht : fits t) :
    if fits (l.foldl g t) then ∃ s', l.foldlM f s = .ok s' ∧ R s' (l.foldl g t)
    else l.foldlM f s = .error e := by
  induction l generalizing s t with
  | nil =>
    rw [List.foldl_nil, if_pos ht]
    exact ⟨s, rfl, hR⟩
  | cons a l ih =>
    have hturn := h s t a List.mem_cons_self hR ht
    rw [List.foldl_cons, List.foldlM_cons]
    by_cases hfit : fits (g t a)
    · rw [if_pos hfit] at hturn
      obtain ⟨s', he, hR'⟩ := hturn
      have hrest := ih (fun s t b hb => h s t b (List.mem_cons_of_mem a hb)) hR' hfit
      rw [he]
      exact hrest
    · rw [if_neg hfit] at hturn
      rw [if_neg fun hl => hfit (fits_of_foldl fits hmono hl), hturn]
      rfl

end Loop
