/-
  The search in a list (kernel/list.c: search_node).

  * `searchNode_none`, `searchNode_head`: in an empty list, and for the value of the first node, it
    returns;
  * `searchLoop_stuck`: at a node with another value the loop makes no progress;
  * `searchNode_only`: what it returns is right;
  * `searchNode_iff`: it finds the first node with the value just if it has not to go on to a second.
-/
import Rdix.Kernel.ListNode

namespace Rdix.Nodes

open Function DoublyLinked

section Search
variable {ν κ : Type} [DecidableEq ν] [DecidableEq κ] (s : ListMem ν κ)

/-- The loop of `search_node`. -/
def searchLoop (list : κ) (value : ℕ) : ℕ → Ptr ν κ → C (Option (Ptr ν κ))
  | 0, _ => throw .loop
  | fuel + 1, ans =>
    if ans = .endOf list then return none
    else if s.value ans = value then return some ans
    -- the source does not go on to `ans->next`
    else searchLoop list value fuel ans

def searchNode (fuel : ℕ) (list : κ) (value : ℕ) : C (Option (Ptr ν κ)) :=
  searchLoop s list value fuel (s.next (.endOf list))

/-- The first node in forward order with a value. -/
def firstWith (value : ℕ) (nodes : List ν) : Option (Ptr ν κ) :=
  (nodes.find? fun n => s.value (.node n) = value).map .node

variable {s} {live : Set κ} {q : κ → List ν} {l : κ} {n : ν} {ns : List ν} {value : ℕ}

/-- **No progress**: the loop stays at a node with another value. -/
theorem searchLoop_stuck (h : s.value (.node n) ≠ value) (fuel : ℕ) :
    searchLoop s l value fuel (.node n) = .error .loop := by
  induction fuel with
  | zero => rfl
  | succ fuel ih =>
    have hend : (Ptr.node n : Ptr ν κ) ≠ .endOf l := by simp
    rw [searchLoop, if_neg hend, if_neg h, ih]

omit [DecidableEq ν] [DecidableEq κ] in
/-- The node at which the search starts. -/
theorem PoolInv.next_end (h : PoolInv s live q) (hl : l ∈ live) :
    s.next (.endOf l) = ((q l).head?.map Ptr.node).getD (.endOf l) := by
  rw [(h.round l hl).next_sentinel, List.head?_map]

theorem searchNode_none (h : PoolInv s live q) (hl : l ∈ live) (hq : q l = []) :
    Returns (fun fuel => searchNode s fuel l value) none := by
  have hnext : s.next (.endOf l) = .endOf l := by
    rw [h.next_end hl, hq]
    rfl
  refine (Returns.const rfl).turn rfl fun fuel => ?_
  rw [searchNode, hnext, searchLoop, if_pos rfl]
  rfl

theorem searchNode_head (h : PoolInv s live q) (hl : l ∈ live) (hq : q l = n :: ns)
    (hn : s.value (.node n) = value) :
    Returns (fun fuel => searchNode s fuel l value) (some (.node n)) := by
  have hnext : s.next (.endOf l) = .node n := by
    rw [h.next_end hl, hq]
    rfl
  have hend : (Ptr.node n : Ptr ν κ) ≠ .endOf l := by simp
  refine (Returns.const rfl).turn rfl fun fuel => ?_
  rw [searchNode, hnext, searchLoop, if_neg hend, if_pos hn]
  rfl

theorem searchNode_stuck (value : ℕ) (h : PoolInv s live q) (hl : l ∈ live) (hq : q l = n :: ns)
    (hn : s.value (.node n) ≠ value) (fuel : ℕ) :
    searchNode s fuel l value = .error .loop := by
  have hnext : s.next (.endOf l) = .node n := by
    rw [h.next_end hl, hq]
    rfl
  rw [searchNode, hnext, searchLoop_stuck hn]

/-- What the search returns is right. -/
theorem searchNode_only (h : PoolInv s live q) (hl : l ∈ live) {fuel : ℕ} {r : Option (Ptr ν κ)}
    (hr : searchNode s fuel l value = .ok r) : r = firstWith s value (q l) := by
  cases hq : q l with
  | nil => exact (searchNode_none h hl hq).only fuel r hr
  | cons n ns =>
    by_cases hn : s.value (.node n) = value
    · rw [(searchNode_head h hl hq hn).only fuel r hr, firstWith, List.find?_cons_of_pos (by simpa)]
      rfl
    · rw [searchNode_stuck _ h hl hq hn] at hr
      cases hr

/-- **When the search ends**: in an empty list, and where the first node has the value. -/
theorem searchNode_iff (h : PoolInv s live q) (hl : l ∈ live) :
    Returns (fun fuel => searchNode s fuel l value) (firstWith s value (q l)) ↔
      ∀ n, (q l).head? = some n → s.value (.node n) = value := by
  constructor
  · intro hret n hn
    obtain ⟨ns, hq⟩ := List.head?_eq_some_iff.1 hn
    by_contra hne
    obtain ⟨b, hb⟩ := hret.enough
    have hok := hb b le_rfl
    rw [searchNode_stuck _ h hl hq hne] at hok
    cases hok
  · intro hhead
    cases hq : q l with
    | nil => exact searchNode_none h hl hq
    | cons n ns =>
      have hn := hhead n (by rw [hq, List.head?_cons])
      rw [firstWith, List.find?_cons_of_pos (by simpa)]
      exact searchNode_head h hl hq hn

end Search

/-- A list of two nodes, the values of which are their numbers. -/
def twoNodes : ListMem (Fin 2) Unit where
  next
    | .endOf _ => .node 0
    | .node n => if n = 0 then .node 1 else .endOf ()
  previous
    | .endOf _ => .node 1
    | .node n => if n = 0 then .endOf () else .node 0
  value
    | .endOf _ => infinty
    | .node n => n
  container _ := some ()
  number_of_node _ := 2

theorem twoNodes_inv : PoolInv twoNodes Set.univ fun _ => [0, 1] where
  round _ _ := ⟨by simp, by
    refine List.isChain_cons_cons.2 ⟨⟨rfl, rfl⟩, List.isChain_cons_cons.2 ⟨⟨rfl, rfl⟩, ?_⟩⟩
    exact List.isChain_pair.2 ⟨rfl, rfl⟩⟩
  number _ _ := rfl
  container n _ := by
    refine iff_of_true rfl ?_
    fin_cases n <;> simp
  anchor _ _ := rfl
  unused l hl := absurd (Set.mem_univ l) hl

/-- The value of the first node is found. -/
theorem searchNode_iff_first :
    Returns (fun fuel => searchNode twoNodes fuel () 0) (some (.node 0)) :=
  (searchNode_iff twoNodes_inv (Set.mem_univ ())).2 fun n hn => by
    cases hn
    rfl

/-- The value of the second node is looked for without end. -/
theorem searchNode_second : PoolInv twoNodes Set.univ (fun _ => [0, 1]) ∧
    firstWith twoNodes 1 [0, 1] = some (.node 1) ∧
    (∀ fuel, searchNode twoNodes fuel () 1 = .error .loop) ∧
    ¬ Returns (fun fuel => searchNode twoNodes fuel () 1) (firstWith twoNodes 1 [0, 1]) := by
  have hstuck := searchNode_stuck (n := 0) 1 twoNodes_inv (Set.mem_univ ()) rfl (by decide)
  refine ⟨twoNodes_inv, rfl, hstuck, fun h => ?_⟩
  obtain ⟨b, hb⟩ := h.enough
  have hok := hb b le_rfl
  rw [hstuck] at hok
  cases hok

end Rdix.Nodes
