/-
  Linked chains: the nodes that a link function visits before it reaches the null node.

  * `Chain nil next a l`: from `a` the links lead through the nodes of `l` to `nil`;
  * a chain is determined by its first node (`Chain.unique`) and visits no node twice
    (`Chain.nodup`);
  * `Chain.congr`, `Chain.push`, `Chain.snoc`, `Chain.unlink`: what an update of links does to a chain;
  * `walk` is the loop that follows the links up to a node with a property.
-/
import Mathlib

namespace Linked

variable {α : Type*}

/-- From `a` the links lead through the nodes of the list to `nil`. -/
inductive Chain (nil : α) (next : α → α) : α → List α → Prop where
  | nil : Chain nil next nil []
  | cons {a : α} {l : List α} : a ≠ nil → Chain nil next (next a) l → Chain nil next a (a :: l)

section
variable {nil : α} {next next' : α → α} {a b : α} {l l' : List α}

@[simp] theorem chain_nil_iff : Chain nil next a [] ↔ a = nil := by
  constructor
  · intro h
    cases h
    rfl
  · rintro rfl
    exact .nil

@[simp] theorem chain_cons_iff :
    Chain nil next a (b :: l) ↔ a = b ∧ a ≠ nil ∧ Chain nil next (next a) l := by
  constructor
  · intro h
    cases h with
    | cons h0 h => exact ⟨rfl, h0, h⟩
  · rintro ⟨rfl, h0, h⟩
    exact .cons h0 h

theorem Chain.unique (h : Chain nil next a l) (h' : Chain nil next a l') : l = l' := by
  induction h generalizing l' with
  | nil =>
    cases h' with
    | nil => rfl
    | cons h0 => exact absurd rfl h0
  | cons h0 _ ih =>
    cases h' with
    | nil => exact absurd rfl h0
    | cons _ h' => rw [ih h']

theorem Chain.ne_nil (h : Chain nil next a l) (hb : b ∈ l) : b ≠ nil := by
  induction h with
  | nil => cases hb
  | cons h0 _ ih =>
    rcases List.mem_cons.1 hb with rfl | hb
    · exact h0
    · exact ih hb

theorem Chain.eq_nil_iff (h : Chain nil next a l) : a = nil ↔ l = [] := by
  cases h with
  | nil => simp
  | cons h0 => simp [h0]

/-- The rest of a chain from one of its nodes on. -/
theorem Chain.suffix {l₁ l₂ : List α} (h : Chain nil next a (l₁ ++ b :: l₂)) :
    Chain nil next b (b :: l₂) := by
  induction l₁ generalizing a with
  | nil =>
    obtain ⟨rfl, -⟩ := chain_cons_iff.1 h
    exact h
  | cons c l₁ ih => exact ih (chain_cons_iff.1 h).2.2

theorem Chain.link {c : α} {l₁ l₂ : List α} (h : Chain nil next a (l₁ ++ b :: c :: l₂)) :
    next b = c :=
  (chain_cons_iff.1 (chain_cons_iff.1 h.suffix).2.2).1

/-- A chain visits no node twice: the chain from the second visit would be as long as that from
    the first. -/
theorem Chain.nodup (h : Chain nil next a l) : l.Nodup := by
  induction h with
  | nil => exact List.nodup_nil
  | @cons a l h0 h ih =>
    refine List.nodup_cons.2 ⟨fun hmem => ?_, ih⟩
    obtain ⟨l₁, l₂, rfl⟩ := List.append_of_mem hmem
    have := congrArg List.length (h.suffix.unique (.cons h0 h))
    simp at this
    omega

/-- Only the links of the chain's own nodes matter. -/
theorem Chain.congr (h : Chain nil next a l) (he : ∀ x ∈ l, next' x = next x) :
    Chain nil next' a l := by
  induction h with
  | nil => exact .nil
  | @cons a l h0 _ ih =>
    refine .cons h0 ?_
    rw [he a List.mem_cons_self]
    exact ih fun x hx => he x (List.mem_cons_of_mem a hx)

/-- A node whose link is the chain's first node goes to the front. -/
theorem Chain.push (h : Chain nil next a l) (hb : b ≠ nil) (hlink : next' b = a)
    (he : ∀ x ∈ l, next' x = next x) : Chain nil next' b (b :: l) :=
  .cons hb (hlink ▸ h.congr he)

/-- Nodes that are linked one after the other, with a chain behind them. -/
theorem Chain.of_links {f : ℕ → α} {n : ℕ} (h0 : ∀ k ≤ n, f k ≠ nil)
    (hf : ∀ k < n, next (f k) = f (k + 1)) (h : Chain nil next (next (f n)) l) :
    Chain nil next (f 0) ((List.range (n + 1)).map f ++ l) := by
  induction n generalizing f with
  | zero => simpa using ⟨h0 0 le_rfl, h⟩
  | succ n ih =>
    rw [List.range_succ_eq_map, List.map_cons, List.map_map, List.cons_append]
    refine .cons (h0 0 (Nat.zero_le _)) ?_
    rw [hf 0 (Nat.succ_pos n)]
    exact ih (f := f ∘ Nat.succ) (fun k hk => h0 (k + 1) (by omega))
      (fun k hk => hf (k + 1) (by omega)) h

/-- A node is linked behind the last one. -/
theorem Chain.snoc {c : α} (h : Chain nil next a (l ++ [b])) (hc : c ≠ nil) (hlink : next' b = c)
    (hend : next' c = nil) (he : ∀ x ∈ l, next' x = next x) : Chain nil next' a (l ++ [b, c]) := by
  induction l generalizing a with
  | nil =>
    obtain ⟨rfl, h0, -⟩ := chain_cons_iff.1 h
    refine .cons h0 ?_
    rw [hlink]
    refine .cons hc ?_
    rw [hend]
    exact .nil
  | cons d l ih =>
    obtain ⟨rfl, h0, h⟩ := chain_cons_iff.1 h
    refine .cons h0 ?_
    rw [he a List.mem_cons_self]
    exact ih h fun x hx => he x (List.mem_cons_of_mem a hx)

/-- The node after `b` is taken out by setting the link of `b`. -/
theorem Chain.unlink {c : α} {l₁ l₂ : List α} (h : Chain nil next a (l₁ ++ b :: c :: l₂))
    (hlink : next' b = next c) (he : ∀ x ∈ l₁ ++ b :: c :: l₂, x ≠ b → next' x = next x) :
    Chain nil next' a (l₁ ++ b :: l₂) := by
  have hnd := h.nodup
  induction l₁ generalizing a with
  | nil =>
    obtain ⟨rfl, h0, h⟩ := chain_cons_iff.1 h
    obtain ⟨hc, -, h⟩ := chain_cons_iff.1 h
    refine .cons h0 ?_
    rw [hlink, ← hc]
    refine h.congr fun x hx => he x (by simp [hx]) ?_
    rintro rfl
    simp [hx] at hnd
  | cons d l₁ ih =>
    obtain ⟨rfl, h0, h⟩ := chain_cons_iff.1 h
    have hne : a ≠ b := by
      rintro rfl
      simp at hnd
    refine .cons h0 ?_
    rw [he a (by simp) hne]
    exact ih h (fun x hx => he x (List.mem_cons_of_mem a hx)) (List.nodup_cons.1 hnd).2

end

/-- The loop `for (a; a != nil; a = next(a)) if (p(a)) break;`, with the node before the current
    one.  Without fuel it has no result. -/
def walk [DecidableEq α] (nil : α) (next : α → α) (p : α → Bool) : ℕ → α → α → Option (α × α)
  | 0, _, _ => none
  | fuel + 1, prev, a =>
    if a = nil then some (prev, nil)
    else if p a then some (prev, a)
    else walk nil next p fuel a (next a)

section Walk
variable [DecidableEq α] {nil : α} {next : α → α} {a : α} {l : List α}

theorem walk_nil {p : α → Bool} {fuel : ℕ} {prev : α} (hf : 0 < fuel) :
    walk nil next p fuel prev nil = some (prev, nil) := by
  cases fuel with
  | zero => cases hf
  | succ fuel => simp [walk]

theorem walk_of_pos {p : α → Bool} {fuel : ℕ} {prev : α} (hf : 0 < fuel) (ha : a ≠ nil)
    (hp : p a = true) : walk nil next p fuel prev a = some (prev, a) := by
  cases fuel with
  | zero => cases hf
  | succ fuel => simp [walk, ha, hp]

/-- **Over a chain the loop stops at the first node with the property**, the node before it in its
    hands, or finds that no node has it. -/
theorem walk_chain (p : α → Bool) (prev : α) (h : Chain nil next a l) {fuel : ℕ}
    (hf : l.length < fuel) :
    ((∀ x ∈ l, p x = false) ∧ ∃ b, walk nil next p fuel prev a = some (b, nil)) ∨
    ∃ l₁ c l₂, l = l₁ ++ c :: l₂ ∧ p c = true ∧
      walk nil next p fuel prev a = some (l₁.getLast?.getD prev, c) := by
  induction h generalizing fuel prev with
  | nil =>
    obtain ⟨fuel, rfl⟩ := Nat.exists_eq_add_of_lt hf
    exact Or.inl ⟨by simp, prev, by simp [walk]⟩
  | @cons a l h0 _ ih =>
    obtain ⟨fuel, rfl⟩ : ∃ k, fuel = k + 1 := ⟨fuel - 1, by simp at hf; omega⟩
    by_cases hp : p a = true
    · exact Or.inr ⟨[], a, l, rfl, hp, by simp [walk, h0, hp]⟩
    · have hw : walk nil next p (fuel + 1) prev a = walk nil next p fuel a (next a) := by
        simp [walk, h0, hp]
      rw [hw]
      rcases @ih a fuel (by simpa using hf) with
        ⟨hall, b, hb⟩ | ⟨l₁, c, l₂, rfl, hc, he⟩
      · refine Or.inl ⟨fun x hx => ?_, b, hb⟩
        rcases List.mem_cons.1 hx with rfl | hx
        · simpa using hp
        · exact hall x hx
      · refine Or.inr ⟨a :: l₁, c, l₂, rfl, hc, he.trans ?_⟩
        rw [List.getLast?_cons, Option.getD_some]

end Walk

end Linked
