/-
  The nodes of lists (kernel/list.c), with their pointers.

  * `ListMem` is the memory of a pool of nodes and of lists, and the functions write it;
  * `Refines`: the memory holds one sequence of nodes for each list;
  * `refines_apply`: each function returns, and does to the sequences what its name says;
  * `lists_refine`: so it is in every run in which a list is set up only while no node is in it.
-/
import Rdix.Kernel.Halt
import Rdix.Kernel.List
import Rdix.Lib.DoublyLinked
import Rdix.Lib.Run

namespace Rdix.Nodes

open Function Transition DoublyLinked

/-! ## Memory -/

/-- A `ListNode_t *`: a node of the pool, or `&list->end`. -/
inductive Ptr (ν κ : Type) where
  | node (n : ν)
  | endOf (l : κ)
deriving DecidableEq

/-- The nodes, the nodes `end` in the lists, and `number_of_node` of each list.  The owner of a node
    is not used here. -/
structure ListMem (ν κ : Type) where
  next : Ptr ν κ → Ptr ν κ
  previous : Ptr ν κ → Ptr ν κ
  value : Ptr ν κ → ℕ
  container : Ptr ν κ → Option κ
  number_of_node : κ → ℕ

/-- `INFINTY`. -/
abbrev infinty : ℕ := 0xffffffff

section Functions
variable {ν κ : Type} [DecidableEq ν] [DecidableEq κ] (s : ListMem ν κ)

def listInit (list : κ) : ListMem ν κ where
  number_of_node := update s.number_of_node list 0
  previous := update s.previous (.endOf list) (.endOf list)
  next := update s.next (.endOf list) (.endOf list)
  value := update s.value (.endOf list) infinty
  container := update s.container (.endOf list) (some list)

def insertBeforeAnchor (anchor node : Ptr ν κ) : C (ListMem ν κ) := do
  let s := { s with previous := update s.previous node (s.previous anchor) }
  let s := { s with next := update s.next node anchor }
  let s := { s with previous := update s.previous anchor node }
  let s := { s with next := update s.next (s.previous node) node }
  let s := { s with container := update s.container node (s.container anchor) }
  let l ← deref "node->container" (s.container node)
  return { s with number_of_node := update s.number_of_node l (u32 (s.number_of_node l + 1)) }

def insertAfterAnchor (anchor node : Ptr ν κ) : C (ListMem ν κ) := do
  let s := { s with next := update s.next node (s.next anchor) }
  let s := { s with previous := update s.previous node anchor }
  let s := { s with next := update s.next anchor node }
  let s := { s with previous := update s.previous (s.next node) node }
  let s := { s with container := update s.container node (s.container anchor) }
  let l ← deref "node->container" (s.container node)
  return { s with number_of_node := update s.number_of_node l (u32 (s.number_of_node l + 1)) }

def removeNode (node : Ptr ν κ) : C (ListMem ν κ) := do
  cassert (s.container node).isSome "list != NULL"
  let list ← deref "list" (s.container node)
  let s := { s with previous := update s.previous (s.next node) (s.previous node) }
  let s := { s with next := update s.next (s.previous node) (s.next node) }
  let s := { s with next := update s.next node node }
  let s := { s with previous := update s.previous node node }
  let s := { s with container := update s.container node none }
  return { s with number_of_node := update s.number_of_node list (u32 (s.number_of_node list + (2 ^ 32 - 1))) }

def listPush (list : κ) (node : Ptr ν κ) : C (ListMem ν κ) := do
  cassert (s.container node = none) "node->container == NULL"
  insertAfterAnchor s (.endOf list) node

def listPop (list : κ) : C (ListMem ν κ × Option (Ptr ν κ)) :=
  if s.number_of_node list = 0 then return (s, none)
  else do
    let node := s.next (.endOf list)
    let s ← removeNode s node
    return (s, some node)

def listPushback (list : κ) (node : Ptr ν κ) : C (ListMem ν κ) := do
  cassert (s.container node = none) "node->container == NULL"
  insertBeforeAnchor s (.endOf list) node

def listPopback (list : κ) : C (ListMem ν κ × Option (Ptr ν κ)) :=
  if s.number_of_node list = 0 then return (s, none)
  else do
    let node := s.previous (.endOf list)
    let s ← removeNode s node
    return (s, some node)

/-- The loop of `list_insert`, and the `list_pushback` when it has come to `end`. -/
def insertLoop (list : κ) (node : Ptr ν κ) (cmp : ℕ → ℕ → Bool) : ℕ → Ptr ν κ → C (ListMem ν κ)
  | 0, _ => throw .loop
  | fuel + 1, iter =>
    if iter = .endOf list then listPushback s list node
    else if cmp (s.value iter) (s.value node) then insertBeforeAnchor s iter node
    else insertLoop list node cmp fuel (s.next iter)

def listInsert (fuel : ℕ) (list : κ) (node : Ptr ν κ) (cmp : ℕ → ℕ → Bool) : C (ListMem ν κ) :=
  if s.number_of_node list = 0 then listPush s list node
  else insertLoop s list node cmp fuel (s.next (.endOf list))

end Functions

/-! ## Runs -/

inductive ListOp (ν κ : Type) where
  | init (l : κ)
  | push (l : κ) (n : ν)
  | pushback (l : κ) (n : ν)
  | pop (l : κ)
  | popback (l : κ)
  | remove (n : ν)
  | insert (l : κ) (n : ν) (cmp : ℕ → ℕ → Bool)

section Runs
variable {ν κ : Type} [DecidableEq ν] [DecidableEq κ]

/-- The memory after an operation, and what it returns. -/
def ListOp.apply (fuel : ℕ) (s : ListMem ν κ) : ListOp ν κ → C (ListMem ν κ × Option (Ptr ν κ))
  | .init l => return (listInit s l, none)
  | .push l n => do return (← listPush s l (.node n), none)
  | .pushback l n => do return (← listPushback s l (.node n), none)
  | .pop l => listPop s l
  | .popback l => listPopback s l
  | .remove n => do return (← removeNode s (.node n), none)
  | .insert l n cmp => do return (← listInsert s fuel l (.node n) cmp, none)

/-- The memory, and the lists that have been set up. -/
structure PoolState (ν κ : Type) where
  mem : ListMem ν κ
  live : Set κ

/-- Lists are used once they are set up; nodes are inserted when they are in no list, and removed
    when they are in one. -/
def ListOp.Allowed (x : PoolState ν κ) : ListOp ν κ → Prop
  | .init _ => True
  | .push l n | .pushback l n | .insert l n _ => l ∈ x.live ∧ x.mem.container (.node n) = none
  | .pop l | .popback l => l ∈ x.live
  | .remove n => x.mem.container (.node n) ≠ none

def ListOp.setUp (live : Set κ) : ListOp ν κ → Set κ
  | .init l => live ∪ {l}
  | _ => live

/-- A pool of nodes that are in no list. -/
def poolSys : Sys (PoolState ν κ) (ListOp ν κ) where
  init x := x.live = ∅ ∧ ∀ n, x.mem.container (.node n) = none
  step x op y := op.Allowed x ∧ ∃ fuel r, op.apply fuel x.mem = .ok r ∧ y = ⟨r.1, op.setUp x.live⟩

/-- A list is set up while no node is in it. -/
def ListOp.Fresh (x : PoolState ν κ) : ListOp ν κ → Prop
  | .init l => ∀ n, x.mem.container (.node n) ≠ some l
  | _ => True

end Runs

/-! ## Loops -/

/-- With enough fuel `f` returns `a`, and it never returns anything else. -/
structure Returns {α : Type} (f : ℕ → C α) (a : α) : Prop where
  enough : ∃ b, ∀ fuel ≥ b, f fuel = .ok a
  only : ∀ fuel r, f fuel = .ok r → r = a

section Returns
variable {α β : Type} {f g : ℕ → C α} {a : α}

theorem Returns.const {x : C α} (h : x = .ok a) : Returns (fun _ => x) a :=
  ⟨⟨0, fun _ _ => h⟩, fun _ _ hr => Except.ok.inj (hr.symm.trans h)⟩

theorem Returns.unique {b : α} (h : Returns f a) (hb : Returns f b) : a = b := by
  obtain ⟨n, hn⟩ := h.enough
  exact hb.only n a (hn n le_rfl)

/-- A turn of a loop. -/
theorem Returns.turn (h : Returns g a) (h₀ : f 0 = .error .loop) (hs : ∀ fuel, f (fuel + 1) = g fuel) :
    Returns f a := by
  obtain ⟨b, hb⟩ := h.enough
  refine ⟨⟨b + 1, fun fuel hf => ?_⟩, fun fuel r hr => ?_⟩
  · obtain ⟨fuel, rfl⟩ : ∃ k, fuel = k + 1 := ⟨fuel - 1, by omega⟩
    rw [hs]
    exact hb fuel (by omega)
  · cases fuel with
    | zero =>
      rw [h₀] at hr
      cases hr
    | succ fuel => exact h.only fuel r ((hs fuel).symm.trans hr)

/-- What follows a loop. -/
theorem Returns.bind (h : Returns f a) {k : α → C β} {b : β} (hk : k a = .ok b) :
    Returns (fun fuel => f fuel >>= k) b := by
  obtain ⟨n, hn⟩ := h.enough
  refine ⟨⟨n, fun fuel hf => by rw [hn fuel hf, ok_bind, hk]⟩, fun fuel r hr => ?_⟩
  obtain ⟨a', ha', hr⟩ := bind_eq_ok.1 hr
  rw [h.only fuel a' ha', hk] at hr
  exact (Except.ok.inj hr).symm

/-- What follows a loop, with the same fuel. -/
theorem Returns.seq (h : Returns f a) {k : α → ℕ → C β} {b : β} (hk : Returns (k a) b) :
    Returns (fun fuel => f fuel >>= fun x => k x fuel) b := by
  obtain ⟨n, hn⟩ := h.enough
  obtain ⟨m, hm⟩ := hk.enough
  refine ⟨⟨max n m, fun fuel hf => ?_⟩, fun fuel r hr => ?_⟩
  · rw [hn fuel (le_of_max_le_left hf), ok_bind, hm fuel (le_of_max_le_right hf)]
  · obtain ⟨x, hx, hr⟩ := bind_eq_ok.1 hr
    rw [h.only fuel x hx] at hr
    exact hk.only fuel r hr

theorem Returns.map (h : Returns f a) (k : α → β) :
    Returns (fun fuel => f fuel >>= fun a => .ok (k a)) (k a) :=
  h.bind rfl

end Returns

/-! ## Sequences -/

section Sequences
variable {ν κ : Type}

/-- The sequences after an operation; `value` is that of the nodes. -/
def ListOp.effect [DecidableEq ν] [DecidableEq κ] (value : ν → ℕ) (q : κ → List ν) :
    ListOp ν κ → κ → List ν
  | .init l => update q l []
  | .push l n => update q l (n :: q l)
  | .pushback l n => update q l (q l ++ [n])
  | .pop l => update q l (q l).tail
  | .popback l => update q l (q l).dropLast
  | .remove n => fun l => (q l).erase n
  | .insert l n cmp => update q l (Rdix.listInsert value cmp n (q l))

/-- What an operation returns. -/
def ListOp.result (q : κ → List ν) : ListOp ν κ → Option ν
  | .pop l => (q l).head?
  | .popback l => (q l).getLast?
  | _ => none

/-- **The memory holds the sequences.**  Forward and backward are the ways round from `end`. -/
structure Refines (x : PoolState ν κ) (q : κ → List ν) : Prop where
  forward : ∀ l ∈ x.live, (Ptr.endOf l :: (q l).map Ptr.node ++ [Ptr.endOf l]).IsChain
    fun a b => x.mem.next a = b
  backward : ∀ l ∈ x.live, (Ptr.endOf l :: (q l).reverse.map Ptr.node ++ [Ptr.endOf l]).IsChain
    fun a b => x.mem.previous a = b
  nodup : ∀ l, (q l).Nodup
  number : ∀ l ∈ x.live, x.mem.number_of_node l = (q l).length
  container : ∀ n l, x.mem.container (.node n) = some l ↔ n ∈ q l
  unused : ∀ l, l ∉ x.live → q l = []

/-- The invariant of the memory. -/
structure PoolInv (s : ListMem ν κ) (live : Set κ) (q : κ → List ν) : Prop where
  round : ∀ l ∈ live, Round s.next s.previous (Ptr.endOf l) ((q l).map Ptr.node)
  number : ∀ l ∈ live, s.number_of_node l = (q l).length
  container : ∀ n l, s.container (.node n) = some l ↔ n ∈ q l
  anchor : ∀ l ∈ live, s.container (.endOf l) = some l
  unused : ∀ l, l ∉ live → q l = []

section Inv
variable {s : ListMem ν κ} {live : Set κ} {q : κ → List ν} {l m : κ} {n : ν}

theorem node_injective : Function.Injective (Ptr.node : ν → Ptr ν κ) := fun _ _ h => by
  cases h
  rfl

@[simp] theorem mem_map_node {xs : List ν} : (Ptr.node n : Ptr ν κ) ∈ xs.map Ptr.node ↔ n ∈ xs :=
  List.mem_map_of_injective node_injective

theorem PoolInv.nodup (h : PoolInv s live q) (l : κ) : (q l).Nodup := by
  by_cases hl : l ∈ live
  · have := (List.nodup_cons.1 (h.round l hl).nodup).2
    exact List.Nodup.of_map _ this
  · rw [h.unused l hl]
    exact List.nodup_nil

theorem PoolInv.refines (h : PoolInv s live q) : Refines ⟨s, live⟩ q where
  forward l hl := (h.round l hl).forward
  backward l hl := by
    rw [List.map_reverse]
    exact (h.round l hl).backward
  nodup := h.nodup
  number := h.number
  container := h.container
  unused := h.unused

/-- A node is in one list. -/
theorem PoolInv.disjoint (h : PoolInv s live q) (hl : n ∈ q l) (hm : n ∈ q m) : l = m :=
  Option.some.inj (((h.container n l).2 hl).symm.trans ((h.container n m).2 hm))

/-- The pointers of the lists `l` and `m`. -/
theorem PoolInv.apart (h : PoolInv s live q) (hlm : l ≠ m) {p : Ptr ν κ}
    (hp : p ∈ Ptr.endOf l :: (q l).map Ptr.node) : p ∉ Ptr.endOf m :: (q m).map Ptr.node := by
  intro hp'
  rcases List.mem_cons.1 hp with rfl | hp
  · rcases List.mem_cons.1 hp' with he | hp'
    · cases he
      exact hlm rfl
    · obtain ⟨n, -, hn⟩ := List.mem_map.1 hp'
      cases hn
  · obtain ⟨n, hn, rfl⟩ := List.mem_map.1 hp
    rcases List.mem_cons.1 hp' with he | hp'
    · cases he
    · exact hlm (h.disjoint hn (mem_map_node.1 hp'))

theorem PoolInv.free (h : PoolInv s live q) (hn : s.container (.node n) = none) (l : κ) :
    n ∉ q l := by
  intro hmem
  rw [(h.container n l).2 hmem] at hn
  cases hn

/-- The pointer that stands at the cut is in the list. -/
theorem PoolInv.at_cut (h : PoolInv s live q) (hl : l ∈ live) {p : Ptr ν κ}
    (hp : p ∈ Ptr.endOf l :: (q l).map Ptr.node) : s.container p = some l := by
  rcases List.mem_cons.1 hp with rfl | hp
  · exact h.anchor l hl
  · obtain ⟨n, hn, rfl⟩ := List.mem_map.1 hp
    exact (h.container n l).2 hn

theorem PoolInv.number_eq_zero (h : PoolInv s live q) (hl : l ∈ live) :
    s.number_of_node l = 0 ↔ q l = [] := by
  rw [h.number l hl, List.length_eq_zero_iff]

variable [DecidableEq ν] [DecidableEq κ]

/-- A list that loses a node of its own. -/
theorem PoolInv.erase_eq (h : PoolInv s live q) (hn : n ∈ q l) :
    (fun m => (q m).erase n) = update q l ((q l).erase n) := by
  funext m
  by_cases hml : m = l
  · rw [hml, update_self]
  · rw [update_of_ne hml, List.erase_of_not_mem fun hm => hml (h.disjoint hm hn)]

/-- A list without nodes is set up, or set up again. -/
theorem PoolInv.init (h : PoolInv s live q) (hl : ∀ n, s.container (.node n) ≠ some l) :
    PoolInv (listInit s l) (live ∪ {l}) (update q l []) := by
  have hq : q l = [] := List.eq_nil_iff_forall_not_mem.2 fun n hn => hl n ((h.container n l).2 hn)
  have hsame : update q l [] = q := update_eq_self_iff.2 hq.symm
  rw [hsame]
  have hne {m : κ} (hml : m ≠ l) {p : Ptr ν κ} (hp : p ∈ Ptr.endOf m :: (q m).map Ptr.node) :
      p ≠ .endOf l := by
    rintro rfl
    simp [Ne.symm hml] at hp
  refine ⟨fun m hm => ?_, fun m hm => ?_, fun n m => ?_, fun m hm => ?_, fun m hm => ?_⟩
  · by_cases hml : m = l
    · rw [hml, hq]
      exact .nil (update_self ..) (update_self ..)
    · refine (h.round m (hm.resolve_right hml)).frame (fun p hp => ?_) fun p hp => ?_
      · exact update_of_ne (hne hml hp) ..
      · exact update_of_ne (hne hml hp) ..
  · show update s.number_of_node l 0 m = _
    by_cases hml : m = l
    · rw [hml, update_self, hq]
      rfl
    · rw [update_of_ne hml, h.number m (hm.resolve_right hml)]
  · show update s.container (.endOf l) (some l) (.node n) = some m ↔ _
    rw [update_of_ne (by simp), h.container]
  · show update s.container (.endOf l) (some l) (.endOf m) = some m
    by_cases hml : m = l
    · rw [hml, update_self]
    · rw [update_of_ne (by simpa using hml), h.anchor m (hm.resolve_right hml)]
  · exact h.unused m fun hmem => hm (Or.inl hmem)

/-- The memory after a node has come between `a` and `b`. -/
def ListMem.splice (s : ListMem ν κ) (l : κ) (n : ν) (a b : Ptr ν κ) : ListMem ν κ where
  next := update (update s.next (.node n) b) a (.node n)
  previous := update (update s.previous (.node n) a) b (.node n)
  value := s.value
  container := update s.container (.node n) (some l)
  number_of_node := update s.number_of_node l (u32 (s.number_of_node l + 1))

theorem insertAfterAnchor_eq {a : Ptr ν κ} (ha : a ≠ .node n) (hc : s.container a = some l) :
    insertAfterAnchor s a (.node n) = .ok (s.splice l n a (s.next a)) := by
  simp [insertAfterAnchor, ListMem.splice, hc, update_of_ne ha.symm]

theorem insertBeforeAnchor_eq {b : Ptr ν κ} (hb : b ≠ .node n) (hc : s.container b = some l) :
    insertBeforeAnchor s b (.node n) = .ok (s.splice l n (s.previous b) b) := by
  simp [insertBeforeAnchor, ListMem.splice, hc, update_of_ne hb.symm]

/-- The memory after a node has been taken out from between `a` and `b`. -/
def ListMem.unsplice (s : ListMem ν κ) (l : κ) (n : ν) (a b : Ptr ν κ) : ListMem ν κ where
  next := update (update s.next a b) (.node n) (.node n)
  previous := update (update s.previous b a) (.node n) (.node n)
  value := s.value
  container := update s.container (.node n) none
  number_of_node := update s.number_of_node l (u32 (s.number_of_node l + (2 ^ 32 - 1)))

theorem removeNode_eq {a b : Ptr ν κ} (hc : s.container (.node n) = some l)
    (hb : s.next (.node n) = b) (ha : s.previous (.node n) = a) (hbn : b ≠ .node n) :
    removeNode s (.node n) = .ok (s.unsplice l n a b) := by
  simp [removeNode, ListMem.unsplice, hc, hb, ha, update_of_ne hbn.symm]

variable [Fintype ν]

/-- **A node is inserted** between two parts of a list. -/
theorem PoolInv.splice (h : PoolInv s live q) (hν : Fintype.card ν < 2 ^ 32) (hl : l ∈ live)
    (hn : s.container (.node n) = none) {Y Z : List ν} (hq : q l = Y ++ Z) {a b : Ptr ν κ}
    {A B : List (Ptr ν κ)} (hA : Ptr.endOf l :: Y.map Ptr.node = A ++ [a])
    (hB : Z.map Ptr.node ++ [Ptr.endOf l] = b :: B) :
    PoolInv (s.splice l n a b) live (update q l (Y ++ n :: Z)) := by
  have hfree := h.free hn
  have hround := h.round l hl
  rw [hq, List.map_append] at hround
  have hnl : (Ptr.node n : Ptr ν κ) ∉ Y.map Ptr.node ++ Z.map Ptr.node := by
    rw [← List.map_append, ← hq, mem_map_node]
    exact hfree l
  have ha : a ∈ Ptr.endOf l :: (q l).map Ptr.node := by
    rw [hq, List.map_append, ← List.cons_append, hA]
    simp
  have hb : b ∈ Ptr.endOf l :: (q l).map Ptr.node := by
    have hmem : b ∈ Z.map Ptr.node ++ [Ptr.endOf l] := by simp [hB]
    rw [hq, List.map_append]
    rcases List.mem_append.1 hmem with hmem | hmem
    · exact List.mem_cons_of_mem _ (List.mem_append_right _ hmem)
    · rw [List.mem_singleton.1 hmem]
      exact List.mem_cons_self
  have hother {m : κ} {p : Ptr ν κ} (hp : p ∈ Ptr.endOf m :: (q m).map Ptr.node) :
      p ≠ .node n := by
    rintro rfl
    rcases List.mem_cons.1 hp with he | hp
    · cases he
    · exact hfree m (mem_map_node.1 hp)
  refine ⟨fun m hm => ?_, fun m hm => ?_, fun k m => ?_, fun m hm => ?_, fun m hm => ?_⟩
  · by_cases hml : m = l
    · rw [hml, update_self, List.map_append, List.map_cons]
      exact hround.insert hA hB (by simp) hnl
    · rw [update_of_ne hml]
      refine (h.round m hm).frame (fun p hp => ?_) fun p hp => ?_
      · have hpa : p ≠ a := fun he => h.apart (Ne.symm hml) ha (he ▸ hp)
        exact (update_of_ne hpa ..).trans (update_of_ne (hother hp) ..)
      · have hpb : p ≠ b := fun he => h.apart (Ne.symm hml) hb (he ▸ hp)
        exact (update_of_ne hpb ..).trans (update_of_ne (hother hp) ..)
  · show update s.number_of_node l _ m = _
    by_cases hml : m = l
    · have hnodup : (n :: q l).Nodup := List.nodup_cons.2 ⟨hfree l, h.nodup l⟩
      have hlen := hnodup.length_le_card
      rw [List.length_cons] at hlen
      rw [hml, update_self, update_self, h.number l hl, u32_of_lt (by omega), hq]
      simp [Nat.add_assoc]
    · rw [update_of_ne hml, update_of_ne hml, h.number m hm]
  · show update s.container (.node n) (some l) (.node k) = some m ↔ _
    by_cases hkn : k = n
    · rw [hkn, update_self]
      by_cases hml : m = l
      · simp [hml]
      · simp [update_of_ne hml, hfree m, Ne.symm hml]
    · rw [update_of_ne (fun he => hkn (node_injective he)), h.container]
      by_cases hml : m = l
      · rw [hml, update_self, hq]
        simp [hkn]
      · rw [update_of_ne hml]
  · have hne : (Ptr.endOf m : Ptr ν κ) ≠ .node n := by simp
    show update s.container (.node n) (some l) (.endOf m) = _
    rw [update_of_ne hne, h.anchor m hm]
  · have hml : m ≠ l := fun he => hm (he ▸ hl)
    rw [update_of_ne hml, h.unused m hm]

/-- **A node is removed** from a list. -/
theorem PoolInv.unsplice (h : PoolInv s live q) (hν : Fintype.card ν < 2 ^ 32) {Y Z : List ν}
    (hq : q l = Y ++ n :: Z) {a b : Ptr ν κ} {A B : List (Ptr ν κ)}
    (hA : Ptr.endOf l :: Y.map Ptr.node = A ++ [a])
    (hB : Z.map Ptr.node ++ [Ptr.endOf l] = b :: B) :
    removeNode s (.node n) = .ok (s.unsplice l n a b) ∧
      PoolInv (s.unsplice l n a b) live fun m => (q m).erase n := by
  have hmem : n ∈ q l := by simp [hq]
  have hl : l ∈ live := by
    by_contra hn
    rw [h.unused l hn] at hmem
    cases hmem
  have hround := h.round l hl
  rw [hq, List.map_append, List.map_cons] at hround
  have hnodup := h.nodup l
  rw [hq] at hnodup
  obtain ⟨-, hn, hd⟩ := List.nodup_append.1 hnodup
  have hY : n ∉ Y := fun hy => hd n hy n (by simp) rfl
  have hZ : n ∉ Z := (List.nodup_cons.1 hn).1
  have hother {m : κ} (hml : m ≠ l) : n ∉ q m := fun hm => hml (h.disjoint hm hmem)
  have herase : (q l).erase n = Y ++ Z := by
    rw [hq, List.erase_append_right _ hY, List.erase_cons_head]
  have hB' : Ptr.node n :: Z.map Ptr.node ++ [Ptr.endOf l] = Ptr.node n :: b :: B := by
    rw [List.cons_append, hB]
  have hA' : Ptr.endOf l :: (Y.map Ptr.node ++ [Ptr.node n]) = (A ++ [a]) ++ [Ptr.node n] := by
    rw [← hA]
    rfl
  have hround' : Round s.next s.previous (Ptr.endOf l)
      ((Y.map Ptr.node ++ [Ptr.node n]) ++ Z.map Ptr.node) := by simpa using hround
  have ha : a ∈ Ptr.endOf l :: Y.map Ptr.node := by simp [hA]
  have hb : b ∈ Z.map Ptr.node ++ [Ptr.endOf l] := by simp [hB]
  have hbn : b ≠ .node n := by
    rintro rfl
    simp [hZ] at hb
  have haq : a ∈ Ptr.endOf l :: (q l).map Ptr.node := by
    rw [hq, List.map_append, ← List.cons_append]
    exact List.mem_append_left _ ha
  have hbq : b ∈ Ptr.endOf l :: (q l).map Ptr.node := by
    rw [hq]
    rcases List.mem_append.1 hb with hb | hb
    · simp only [List.map_append, List.map_cons, List.mem_cons, List.mem_append]
      exact Or.inr (Or.inr (Or.inr hb))
    · rw [List.mem_singleton.1 hb]
      exact List.mem_cons_self
  refine ⟨removeNode_eq ((h.container n l).2 hmem) (hround'.neighbours hA' hB).1
    (hround.neighbours hA hB').2 hbn, fun m hm => ?_, fun m hm => ?_, fun k m => ?_,
    fun m hm => ?_, fun m hm => ?_⟩
  · by_cases hml : m = l
    · rw [hml, herase, List.map_append]
      exact hround.remove hA hB
    · rw [List.erase_of_not_mem (hother hml)]
      have hpn {p : Ptr ν κ} (hp : p ∈ Ptr.endOf m :: (q m).map Ptr.node) : p ≠ .node n := by
        rintro rfl
        simp [hother hml] at hp
      refine (h.round m hm).frame (fun p hp => ?_) fun p hp => ?_
      · have hpa : p ≠ a := fun he => h.apart (Ne.symm hml) haq (he ▸ hp)
        exact (update_of_ne (hpn hp) ..).trans (update_of_ne hpa ..)
      · have hpb : p ≠ b := fun he => h.apart (Ne.symm hml) hbq (he ▸ hp)
        exact (update_of_ne (hpn hp) ..).trans (update_of_ne hpb ..)
  · show update s.number_of_node l _ m = _
    by_cases hml : m = l
    · have hlen := (h.nodup l).length_le_card
      rw [hml, update_self, h.number l hl, herase]
      rw [hq] at hlen ⊢
      simp only [List.length_append, List.length_cons] at hlen ⊢
      rw [show Y.length + (Z.length + 1) + (2 ^ 32 - 1) = Y.length + Z.length + 2 ^ 32 by omega,
        u32, Nat.add_mod_right, Nat.mod_eq_of_lt (by omega)]
    · rw [update_of_ne hml, h.number m hm, List.erase_of_not_mem (hother hml)]
  · show update s.container (.node n) none (.node k) = some m ↔ _
    by_cases hkn : k = n
    · rw [hkn, update_self]
      simp [(h.nodup m).mem_erase_iff]
    · rw [update_of_ne (fun he => hkn (node_injective he)), h.container, List.mem_erase_of_ne hkn]
  · have hne : (Ptr.endOf m : Ptr ν κ) ≠ .node n := by simp
    show update s.container (.node n) none (.endOf m) = _
    rw [update_of_ne hne, h.anchor m hm]
  · rw [h.unused m hm]
    rfl

/-! ## The functions -/

theorem PoolInv.insertBefore (h : PoolInv s live q) (hν : Fintype.card ν < 2 ^ 32) (hl : l ∈ live)
    (hn : s.container (.node n) = none) {Y Z : List ν} (hq : q l = Y ++ Z) {b : Ptr ν κ}
    {B : List (Ptr ν κ)} (hB : Z.map Ptr.node ++ [Ptr.endOf l] = b :: B) :
    ∃ s', insertBeforeAnchor s b (.node n) = .ok s' ∧
      PoolInv s' live (update q l (Y ++ n :: Z)) := by
  obtain ⟨A, a, hA⟩ := exists_last (Ptr.endOf l) (Y.map Ptr.node)
  have hround := h.round l hl
  rw [hq, List.map_append] at hround
  have hprev := (hround.neighbours hA hB).2
  have hmem : b ∈ Z.map Ptr.node ++ [Ptr.endOf l] := by simp [hB]
  have hb : s.container b = some l := by
    refine h.at_cut hl ?_
    rw [hq, List.map_append]
    rcases List.mem_append.1 hmem with hmem | hmem
    · exact List.mem_cons_of_mem _ (List.mem_append_right _ hmem)
    · rw [List.mem_singleton.1 hmem]
      exact List.mem_cons_self
  have hne : b ≠ .node n := by
    rintro rfl
    rw [hn] at hb
    cases hb
  refine ⟨_, insertBeforeAnchor_eq hne hb, ?_⟩
  rw [hprev]
  exact h.splice hν hl hn hq hA hB

theorem PoolInv.push (h : PoolInv s live q) (hν : Fintype.card ν < 2 ^ 32) (hl : l ∈ live)
    (hn : s.container (.node n) = none) :
    ∃ s', listPush s l (.node n) = .ok s' ∧ PoolInv s' live (update q l (n :: q l)) := by
  obtain ⟨b, B, hB⟩ := exists_first (Ptr.endOf l) ((q l).map Ptr.node)
  have hround := h.round l hl
  have hnext := (hround.neighbours (Y := []) (A := []) rfl hB).1
  refine ⟨s.splice l n (.endOf l) b, ?_, h.splice hν hl hn (Y := []) rfl (A := []) rfl hB⟩
  rw [listPush, cassert_pos hn, ok_bind, insertAfterAnchor_eq (by simp) (h.anchor l hl), hnext]

theorem PoolInv.pushback (h : PoolInv s live q) (hν : Fintype.card ν < 2 ^ 32) (hl : l ∈ live)
    (hn : s.container (.node n) = none) :
    ∃ s', listPushback s l (.node n) = .ok s' ∧ PoolInv s' live (update q l (q l ++ [n])) := by
  rw [listPushback, cassert_pos hn, ok_bind]
  exact h.insertBefore hν hl hn (Z := []) (by simp) rfl

theorem PoolInv.remove (h : PoolInv s live q) (hν : Fintype.card ν < 2 ^ 32)
    (hn : s.container (.node n) ≠ none) :
    ∃ s', removeNode s (.node n) = .ok s' ∧ PoolInv s' live fun m => (q m).erase n := by
  obtain ⟨l, hl⟩ := Option.ne_none_iff_exists'.1 hn
  obtain ⟨Y, Z, hq⟩ := List.append_of_mem ((h.container n l).1 hl)
  obtain ⟨A, a, hA⟩ := exists_last (Ptr.endOf l) (Y.map Ptr.node)
  obtain ⟨b, B, hB⟩ := exists_first (Ptr.endOf l) (Z.map Ptr.node)
  exact ⟨_, h.unsplice hν hq hA hB⟩

theorem PoolInv.pop (h : PoolInv s live q) (hν : Fintype.card ν < 2 ^ 32) (hl : l ∈ live) :
    ∃ s', listPop s l = .ok (s', (q l).head?.map Ptr.node) ∧
      PoolInv s' live (update q l (q l).tail) := by
  unfold listPop
  cases hq : q l with
  | nil =>
    rw [if_pos ((h.number_eq_zero hl).2 hq)]
    refine ⟨s, rfl, ?_⟩
    rw [List.tail_nil, ← hq, update_eq_self]
    exact h
  | cons x xs =>
    have hmem : x ∈ q l := by simp [hq]
    have hne : q l ≠ [] := by simp [hq]
    have hnext : s.next (.endOf l) = .node x := by
      rw [(h.round l hl).next_sentinel, hq]
      rfl
    obtain ⟨s', hs', hi⟩ := h.remove hν (by rw [(h.container x l).2 hmem]; simp)
    rw [if_neg fun h₀ => hne ((h.number_eq_zero hl).1 h₀), hnext]
    refine ⟨s', ?_, ?_⟩
    · dsimp only
      rw [hs']
      rfl
    rw [h.erase_eq hmem, hq, List.erase_cons_head] at hi
    exact hi

theorem PoolInv.popback (h : PoolInv s live q) (hν : Fintype.card ν < 2 ^ 32) (hl : l ∈ live) :
    ∃ s', listPopback s l = .ok (s', (q l).getLast?.map Ptr.node) ∧
      PoolInv s' live (update q l (q l).dropLast) := by
  unfold listPopback
  rcases List.eq_nil_or_concat (q l) with hq | ⟨xs, x, hq⟩
  · rw [if_pos ((h.number_eq_zero hl).2 hq)]
    refine ⟨s, by rw [hq]; rfl, ?_⟩
    rw [hq, List.dropLast_nil, ← hq, update_eq_self]
    exact h
  · rw [List.concat_eq_append] at hq
    have hmem : x ∈ q l := by simp [hq]
    have hne : q l ≠ [] := by simp [hq]
    have hx : x ∉ xs := by
      have := h.nodup l
      rw [hq] at this
      exact fun hx => (List.nodup_append.1 this).2.2 x hx x (by simp) rfl
    have hprev : s.previous (.endOf l) = .node x := by
      rw [(h.round l hl).prev_sentinel, hq, List.map_append, List.map_singleton,
        List.getLast?_concat]
      rfl
    obtain ⟨s', hs', hi⟩ := h.remove hν (by rw [(h.container x l).2 hmem]; simp)
    rw [if_neg fun h₀ => hne ((h.number_eq_zero hl).1 h₀), hprev, hq, List.getLast?_concat,
      List.dropLast_concat]
    refine ⟨s', ?_, ?_⟩
    · dsimp only
      rw [hs']
      rfl
    rw [h.erase_eq hmem, hq, List.erase_append_right _ hx, List.erase_cons_head,
      List.append_nil] at hi
    exact hi

/-- The loop of `list_insert` from the node `iter` on, which is followed by the rest of `Z`. -/
theorem PoolInv.insertLoop (h : PoolInv s live q) (hν : Fintype.card ν < 2 ^ 32) (hl : l ∈ live)
    (hn : s.container (.node n) = none) (cmp : ℕ → ℕ → Bool) {Z : List ν} :
    ∀ {Y : List ν} {iter : Ptr ν κ} {B : List (Ptr ν κ)}, q l = Y ++ Z →
      Z.map Ptr.node ++ [Ptr.endOf l] = iter :: B →
      ∃ s', Returns (fun fuel => Nodes.insertLoop s l (.node n) cmp fuel iter) s' ∧
        PoolInv s' live
          (update q l (Y ++ Rdix.listInsert (fun n => s.value (.node n)) cmp n Z)) := by
  induction Z with
  | nil =>
    intro Y iter B hq hB
    cases hB
    rw [List.append_nil] at hq
    obtain ⟨s', hs', hi⟩ := h.pushback hν hl hn
    rw [hq] at hi
    exact ⟨s', (Returns.const hs').turn rfl fun fuel => if_pos rfl, hi⟩
  | cons z Z ih =>
    intro Y iter B hq hB
    cases hB
    have hend : (Ptr.node z : Ptr ν κ) ≠ .endOf l := by simp
    by_cases hc : cmp (s.value (.node z)) (s.value (.node n)) = true
    · obtain ⟨s', hs', hi⟩ := h.insertBefore hν hl hn hq rfl
      refine ⟨s', (Returns.const hs').turn rfl fun fuel => ?_, ?_⟩
      · exact (if_neg hend).trans (if_pos hc)
      · rw [Rdix.listInsert, if_pos hc]
        exact hi
    · obtain ⟨b, B, hB⟩ := exists_first (Ptr.endOf l) (Z.map Ptr.node)
      obtain ⟨A, hA⟩ : ∃ A, Ptr.endOf l :: (Y ++ [z]).map Ptr.node = A ++ [Ptr.node z] :=
        ⟨Ptr.endOf l :: Y.map Ptr.node, by simp⟩
      have hq' : q l = (Y ++ [z]) ++ Z := by simp [hq]
      have hround := h.round l hl
      rw [hq', List.map_append] at hround
      have hnext := (hround.neighbours hA hB).1
      obtain ⟨s', hs', hi⟩ := ih hq' hB
      refine ⟨s', hs'.turn rfl fun fuel => ?_, ?_⟩
      · rw [← hnext]
        exact (if_neg hend).trans (if_neg hc)
      · rw [Rdix.listInsert, if_neg hc]
        simpa using hi

theorem PoolInv.insert (h : PoolInv s live q) (hν : Fintype.card ν < 2 ^ 32) (hl : l ∈ live)
    (hn : s.container (.node n) = none) (cmp : ℕ → ℕ → Bool) :
    ∃ s', Returns (fun fuel => Nodes.listInsert s fuel l (.node n) cmp) s' ∧ PoolInv s' live
      (update q l (Rdix.listInsert (fun n => s.value (.node n)) cmp n (q l))) := by
  by_cases hq : q l = []
  · obtain ⟨s', hs', hi⟩ := h.push hν hl hn
    have hfun : (fun fuel => Nodes.listInsert s fuel l (.node n) cmp) =
        fun _ => listPush s l (.node n) := funext fun _ => if_pos ((h.number_eq_zero hl).2 hq)
    rw [hfun]
    refine ⟨s', .const hs', ?_⟩
    rw [hq] at hi ⊢
    exact hi
  · obtain ⟨b, B, hB⟩ := exists_first (Ptr.endOf l) ((q l).map Ptr.node)
    have hnext := ((h.round l hl).neighbours (Y := []) (A := []) rfl hB).1
    obtain ⟨s', hs', hi⟩ := h.insertLoop hν hl hn cmp (Y := []) rfl hB
    have hfun : (fun fuel => Nodes.listInsert s fuel l (.node n) cmp) =
        fun fuel => Nodes.insertLoop s l (.node n) cmp fuel b := by
      funext fuel
      rw [← hnext]
      exact if_neg fun h₀ => hq ((h.number_eq_zero hl).1 h₀)
    rw [hfun]
    exact ⟨s', hs', hi⟩

omit [Fintype ν] in
theorem insertBeforeAnchor_value {s' : ListMem ν κ} {a p : Ptr ν κ}
    (hs : insertBeforeAnchor s a p = .ok s') : s'.value = s.value := by
  obtain ⟨k, -, hs⟩ := bind_eq_ok.1 hs
  cases hs
  rfl

omit [Fintype ν] in
theorem insertAfterAnchor_value {s' : ListMem ν κ} {a p : Ptr ν κ}
    (hs : insertAfterAnchor s a p = .ok s') : s'.value = s.value := by
  obtain ⟨k, -, hs⟩ := bind_eq_ok.1 hs
  cases hs
  rfl

omit [Fintype ν] in
theorem insertLoop_value {s' : ListMem ν κ} {p iter : Ptr ν κ} {cmp : ℕ → ℕ → Bool} {fuel : ℕ}
    (hs : Nodes.insertLoop s l p cmp fuel iter = .ok s') : s'.value = s.value := by
  induction fuel generalizing iter with
  | zero => cases hs
  | succ fuel ih =>
    unfold Nodes.insertLoop at hs
    split_ifs at hs
    · exact insertBeforeAnchor_value (cassert_bind_eq_ok.1 hs).2
    · exact insertBeforeAnchor_value hs
    · exact ih hs

omit [Fintype ν] in
/-- An insertion writes no value. -/
theorem listInsert_value {s' : ListMem ν κ} {p : Ptr ν κ} {cmp : ℕ → ℕ → Bool} {fuel : ℕ}
    (hs : Nodes.listInsert s fuel l p cmp = .ok s') : s'.value = s.value := by
  unfold Nodes.listInsert at hs
  split_ifs at hs
  · exact insertAfterAnchor_value (cassert_bind_eq_ok.1 hs).2
  · exact insertLoop_value hs

/-- **Each operation returns, and does to the sequences what its name says.** -/
theorem PoolInv.apply {x : PoolState ν κ} {op : ListOp ν κ} (h : PoolInv x.mem x.live q)
    (hν : Fintype.card ν < 2 ^ 32) (ha : op.Allowed x) (hf : op.Fresh x) :
    ∃ s', Returns (fun fuel => op.apply fuel x.mem) (s', (op.result q).map Ptr.node) ∧
      PoolInv s' (op.setUp x.live) (op.effect (fun n => x.mem.value (.node n)) q) := by
  cases op with
  | init l => exact ⟨_, .const rfl, h.init hf⟩
  | push l n =>
    obtain ⟨s', hs', hi⟩ := h.push hν ha.1 ha.2
    exact ⟨s', (Returns.const hs').map _, hi⟩
  | pushback l n =>
    obtain ⟨s', hs', hi⟩ := h.pushback hν ha.1 ha.2
    exact ⟨s', (Returns.const hs').map _, hi⟩
  | pop l =>
    obtain ⟨s', hs', hi⟩ := h.pop hν ha
    exact ⟨s', .const hs', hi⟩
  | popback l =>
    obtain ⟨s', hs', hi⟩ := h.popback hν ha
    exact ⟨s', .const hs', hi⟩
  | remove n =>
    obtain ⟨s', hs', hi⟩ := h.remove hν ha
    exact ⟨s', (Returns.const hs').map _, hi⟩
  | insert l n cmp =>
    obtain ⟨s', hs', hi⟩ := h.insert hν ha.1 ha.2 cmp
    exact ⟨s', hs'.map _, hi⟩

end Inv

/-- The sequences of every run in which lists are set up only while no node is in them. -/
theorem poolInv_reach [DecidableEq ν] [DecidableEq κ] [Fintype ν] (hν : Fintype.card ν < 2 ^ 32)
    {x : PoolState ν κ} (h : (poolSys.restrict fun x op => op.Fresh x).Reach x) :
    ∃ q, PoolInv x.mem x.live q := by
  refine Sys.Reach.invariant (S := poolSys.restrict fun x op => op.Fresh x)
    (I := fun x => ∃ q, PoolInv x.mem x.live q) ?_ ?_ h
  · rintro x ⟨hlive, hnone⟩
    refine ⟨fun _ => [], ?_, ?_, fun n l => ?_, ?_, fun _ _ => rfl⟩
    · simp [hlive]
    · simp [hlive]
    · simp [hnone]
    · simp [hlive]
  · rintro x op y ⟨q, hq⟩ ⟨hf, ha, fuel, r, hr, rfl⟩
    obtain ⟨s', hs', hi⟩ := hq.apply hν ha hf
    rw [hs'.only fuel r hr]
    exact ⟨_, hi⟩

/-- **Lists refine sequences**: in every run the memory holds a sequence of nodes for each list, and
    each operation returns and has its effect on them. -/
theorem lists_refine [DecidableEq ν] [DecidableEq κ] [Fintype ν] (hν : Fintype.card ν < 2 ^ 32)
    {x : PoolState ν κ} (h : (poolSys.restrict fun x op => op.Fresh x).Reach x) :
    ∃ q, Refines x q ∧ ∀ op : ListOp ν κ, op.Allowed x → op.Fresh x →
      ∃ s', Returns (fun fuel => op.apply fuel x.mem) (s', (op.result q).map Ptr.node) ∧
        Refines ⟨s', op.setUp x.live⟩ (op.effect (fun n => x.mem.value (.node n)) q) := by
  obtain ⟨q, hq⟩ := poolInv_reach hν h
  refine ⟨q, hq.refines, fun op ha hf => ?_⟩
  obtain ⟨s', hs', hi⟩ := hq.apply hν ha hf
  exact ⟨s', hs', hi.refines⟩

end Sequences

/-- Three nodes in no list. -/
def pool : ListMem (Fin 3) Unit where
  next := id
  previous := id
  value _ := 0
  container _ := none
  number_of_node _ := 0

/-- A node is pushed into a list that has been set up. -/
theorem lists_refine_push : ∃ x : PoolState (Fin 3) Unit, ∃ q,
    (poolSys.restrict fun x op => op.Fresh x).Reach x ∧ Refines x q ∧ 0 ∈ q () := by
  obtain ⟨s₁, s₂, h₁, h₂, hfree, hin⟩ : ∃ s₁ s₂ : ListMem (Fin 3) Unit, listInit pool () = s₁ ∧
      listPush s₁ () (.node 0) = .ok s₂ ∧ s₁.container (.node 0) = none ∧
      s₂.container (.node 0) = some () := ⟨_, _, rfl, rfl, rfl, rfl⟩
  have hreach₁ : (poolSys.restrict fun x op => op.Fresh x).Reach ⟨s₁, ∅ ∪ {()}⟩ :=
    .step (s := ⟨pool, ∅⟩) (a := .init ()) (.init ⟨rfl, fun _ => rfl⟩)
      ⟨fun n => by simp [pool], trivial, 0, (s₁, none), by rw [← h₁]; rfl, rfl⟩
  have hreach₂ : (poolSys.restrict fun x op => op.Fresh x).Reach ⟨s₂, ∅ ∪ {()}⟩ :=
    .step (a := .push () 0) hreach₁ ⟨trivial, ⟨by simp, hfree⟩, 0, (s₂, none), by
      rw [ListOp.apply, h₂]
      rfl, rfl⟩
  obtain ⟨q, hq, -⟩ := lists_refine (by simp) hreach₂
  exact ⟨_, q, hreach₂, hq, (hq.container 0 ()).1 hin⟩

/-- A list is set up while a node is in it: the node names the list, which does not lead to it. -/
theorem lists_not_refine : ∃ x : PoolState (Fin 3) Unit, poolSys.Reach x ∧ ∀ q, ¬ Refines x q := by
  obtain ⟨s₁, s₂, s₃, h₁, h₂, h₃, hfree, hin, hend⟩ : ∃ s₁ s₂ s₃ : ListMem (Fin 3) Unit,
      listInit pool () = s₁ ∧ listPush s₁ () (.node 0) = .ok s₂ ∧ listInit s₂ () = s₃ ∧
      s₁.container (.node 0) = none ∧ s₃.container (.node 0) = some () ∧
      s₃.next (.endOf ()) = .endOf () := ⟨_, _, _, rfl, rfl, rfl, rfl, rfl, rfl⟩
  have hreach₁ : poolSys.Reach ⟨s₁, ∅ ∪ {()}⟩ :=
    .step (s := ⟨pool, ∅⟩) (a := .init ()) (.init ⟨rfl, fun _ => rfl⟩)
      ⟨trivial, 0, (s₁, none), by rw [← h₁]; rfl, rfl⟩
  have hreach₂ : poolSys.Reach ⟨s₂, ∅ ∪ {()}⟩ :=
    .step (a := .push () 0) hreach₁ ⟨⟨by simp, hfree⟩, 0, (s₂, none), by
      rw [ListOp.apply, h₂]
      rfl, rfl⟩
  have hreach₃ : poolSys.Reach ⟨s₃, ∅ ∪ {()} ∪ {()}⟩ :=
    .step (a := .init ()) hreach₂ ⟨trivial, 0, (s₃, none), by rw [← h₃]; rfl, rfl⟩
  refine ⟨_, hreach₃, fun q hq => ?_⟩
  have hmem := (hq.container 0 ()).1 hin
  have hforward := hq.forward () (by simp)
  cases hseq : q () with
  | nil =>
    rw [hseq] at hmem
    cases hmem
  | cons y Y =>
    rw [hseq] at hforward
    have hnext : s₃.next (.endOf ()) = .node y := (List.isChain_cons_cons.1 hforward).1
    rw [hend] at hnext
    cases hnext

section Sorted
variable {ν κ : Type} [DecidableEq ν] [DecidableEq κ] [Fintype ν]
variable {s : ListMem ν κ} {live : Set κ} {q : κ → List ν} {l : κ} {n : ν}

/-- **`list_insert` with `greater` is a stable sorted insertion.** -/
theorem listInsert_stable (hν : Fintype.card ν < 2 ^ 32) (h : PoolInv s live q) (hl : l ∈ live)
    (hn : s.container (.node n) = none)
    (hsorted : (q l).Pairwise fun a b => s.value (.node a) ≤ s.value (.node b)) :
    ∃ s' before after, Returns (fun fuel => Nodes.listInsert s fuel l (.node n) greater) s' ∧
      s'.value = s.value ∧ q l = before ++ after ∧
      PoolInv s' live (update q l (before ++ n :: after)) ∧
      (∀ a ∈ before, s.value (.node a) ≤ s.value (.node n)) ∧
      (∀ a ∈ after, s.value (.node n) < s.value (.node a)) ∧
      (before ++ n :: after).Pairwise fun a b => s.value (.node a) ≤ s.value (.node b) := by
  obtain ⟨s', hs', hi⟩ := h.insert hν hl hn greater
  obtain ⟨before, after, hq, he, hbefore, hafter⟩ :=
    listInsert_split (fun a => s.value (.node a)) n hsorted
  have hsorted' := listInsert_sorted (fun a => s.value (.node a)) n hsorted
  rw [he] at hi hsorted'
  obtain ⟨b, hb⟩ := hs'.enough
  exact ⟨s', before, after, hs', listInsert_value (hb b le_rfl), hq, hi, hbefore, hafter, hsorted'⟩

/-- Of two nodes with the same value, the first one inserted stands first. -/
theorem listInsert_stable_same : ∃ s : ListMem (Fin 3) Unit, ∃ q,
    PoolInv s (∅ ∪ {()}) q ∧ q () = [0, 1] := by
  have hpool : PoolInv pool ∅ fun _ => [] := by
    refine ⟨fun l hl => ?_, fun l hl => ?_, fun n l => ?_, fun l hl => ?_, fun _ _ => rfl⟩
    · cases hl
    · cases hl
    · simp [pool]
    · cases hl
  have h₀ := hpool.init (l := ()) fun n => by simp [pool]
  have hmem : () ∈ (∅ ∪ {()} : Set Unit) := Or.inr rfl
  obtain ⟨s₁, before, after, -, hvalue, hq, h₁, -⟩ :=
    listInsert_stable (n := 0) (by simp) h₀ hmem rfl (by simp)
  obtain ⟨rfl, rfl⟩ := List.append_eq_nil_iff.1 (hq.symm.trans (update_self ..))
  have hzero (k : Fin 3) : s₁.value (.node k) = 0 := by
    rw [hvalue]
    rfl
  have hfree : s₁.container (.node 1) = none := by
    refine Option.eq_none_iff_forall_ne_some.2 fun l hl => ?_
    have h1 := (h₁.container 1 l).1 hl
    simp at h1
  obtain ⟨s₂, before, after, -, -, hq, h₂, -, hafter, -⟩ :=
    listInsert_stable (n := 1) (by simp) h₁ hmem hfree (by simp [hzero])
  obtain rfl : after = [] := by
    refine List.eq_nil_iff_forall_not_mem.2 fun a ha => ?_
    have hlt := hafter a ha
    rw [hzero, hzero] at hlt
    exact lt_irrefl 0 hlt
  rw [List.append_nil] at hq
  exact ⟨s₂, _, h₂, by simp [← hq]⟩

end Sorted

end Rdix.Nodes
