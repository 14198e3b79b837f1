/-
  The configurations of a device (hd/usb3.0/deviceEnum.c: build_decriptor_tree,
  get_configuration_desc).

  The control transfers deliver what is asked for.  A device has at most 255 configurations, and the
  `cfig_desc_m` that is allocated for the index `i` is the node `i`.

  * `buildLoop` puts each node in front of the list; `configLoop` follows the list from its anchor;
  * `Built`: what the tree contains after some turns;
  * `getConfigurationDesc_iff`: the descriptor with a number is the one with its index just in the
    middle of the list.
-/
import Rdix.Usb.Descriptor

namespace Rdix

open Function Nodes

/-! ## The code -/

/-- What a device answers: the number of its configurations, and their descriptors. -/
structure UsbDevice where
  bNumConfiguration : BitVec 8
  config : ℕ → CfigDesc

/-- `xhc_transfer_get_descriptor` for the configuration with an index. -/
def UsbDevice.getDescriptor (dev : UsbDevice) (desc_index bfsize : ℕ) : List (BitVec 8) :=
  (dev.config desc_index).bytes.take bfsize

/-- The nodes of the configurations. -/
abbrev ConfigNode := Fin 256

/-- `device_descriptor_m`: the list of the configurations, and for each of them the pointer `desc`; a
    buffer has the index and the bytes that have been transferred to it, and `malloc` gives the next
    buffer. -/
structure DescTree where
  configs : ListMem ConfigNode Unit
  desc : ConfigNode → Option ℕ
  buf : ℕ → Option (ℕ × List (BitVec 8))
  next : ℕ

def nodeInit (s : ListMem ConfigNode Unit) (node : Ptr ConfigNode Unit) (value : ℕ) :
    ListMem ConfigNode Unit :=
  { s with
    value := update s.value node value
    next := update s.next node node
    previous := update s.previous node node
    container := update s.container node none }

/-- A turn of the loop of `build_decriptor_tree`. -/
def buildTurn (dev : UsbDevice) (i : ℕ) (tree : DescTree) : C DescTree := do
  let cfig : ConfigNode := Fin.ofNat 256 i
  let configs ← listPush (nodeInit tree.configs (.node cfig) 0) () (.node cfig)
  let header := dev.getDescriptor i 9
  let wTotalLength := (header.getD 2 0).toNat + (header.getD 3 0).toNat * 2 ^ 8
  return { configs := configs
           desc := update tree.desc cfig (some (tree.next + 1))
           buf := update (update tree.buf tree.next (some (i, header))) (tree.next + 1)
             (some (i, dev.getDescriptor i wTotalLength))
           next := tree.next + 2 }

/-- The loop, with `n` turns left. -/
def buildLoop (dev : UsbDevice) : ℕ → ℕ → DescTree → C DescTree
  | 0, _, tree => return tree
  | n + 1, i, tree => do buildLoop dev n (i + 1) (← buildTurn dev i tree)

/-- Memory in which nothing has been allocated. -/
def emptyTree : DescTree where
  configs := ⟨id, id, fun _ => 0, fun _ => none, fun _ => 0⟩
  desc _ := none
  buf _ := none
  next := 0

def buildDescriptorTree (dev : UsbDevice) : C DescTree :=
  buildLoop dev dev.bNumConfiguration.toNat 0
    { emptyTree with configs := listInit emptyTree.configs () }

/-- The loop of `get_configuration_desc`, with `n` turns left: the node, or the anchor. -/
def configLoop (s : ListMem ConfigNode Unit) : ℕ → Ptr ConfigNode Unit → Ptr ConfigNode Unit
  | 0, node => node
  | n + 1, node => if s.next node = .endOf () then .endOf () else configLoop s n (s.next node)

def getConfigurationDesc (tree : DescTree) (config_number : ℤ) : C (Option ℕ) := do
  cassert (tree.configs.number_of_node () ≠ 0) "!list_isempty(&tree->configs)"
  cassert (0 < config_number) "config_number > 0"
  match configLoop tree.configs config_number.toNat (.endOf ()) with
  | .endOf _ => return none
  | .node cfig => do
    let desc ← deref "desc" (tree.desc cfig)
    return some desc

/-! ## The tree -/

/-- The nodes of the first `i` indices, the last one first. -/
def nodesDown (i : ℕ) : List ConfigNode := (List.range i).reverse.map (Fin.ofNat 256)

/-- The tree after `i` turns. -/
structure Built (dev : UsbDevice) (i : ℕ) (tree : DescTree) : Prop where
  inv : PoolInv tree.configs Set.univ fun _ => nodesDown i
  desc : ∀ j < i, ∃ p < tree.next, tree.desc (Fin.ofNat 256 j) = some p ∧
    tree.buf p = some (j, (dev.config j).bytes)

section Build
variable {dev : UsbDevice} {tree : DescTree} {i j k n : ℕ} {q : Unit → List ConfigNode}

theorem nodesDown_succ (i : ℕ) : nodesDown (i + 1) = Fin.ofNat 256 i :: nodesDown i := by
  simp [nodesDown, List.range_succ]

theorem Nodes.PoolInv.nodeInit {s : ListMem ConfigNode Unit} (h : PoolInv s Set.univ q) {c : ConfigNode}
    (hc : ∀ l, c ∉ q l) (value : ℕ) : PoolInv (nodeInit s (.node c) value) Set.univ q := by
  have hne : ∀ {l p}, p ∈ Ptr.endOf l :: (q l).map Ptr.node → p ≠ .node c := by
    rintro l p hp rfl
    rcases List.mem_cons.1 hp with he | hp
    · cases he
    · exact hc l (mem_map_node.1 hp)
  refine ⟨fun l hl => ?_, h.number, fun n l => ?_, fun l hl => ?_, h.unused⟩
  · exact (h.round l hl).frame (fun p hp => update_of_ne (hne hp) ..) fun p hp => update_of_ne (hne hp) ..
  · show update s.container (.node c) none (.node n) = some l ↔ _
    by_cases hn : n = c
    · subst hn
      rw [update_self]
      exact iff_of_false nofun (hc l)
    · rw [update_of_ne (by simpa using hn), h.container]
  · show update s.container (.node c) none (.endOf l) = some l
    rw [update_of_ne (by simp), h.anchor l hl]

theorem ofNat_ne (hij : i ≠ j) (hi : i < 256) (hj : j < 256) : (Fin.ofNat 256 i : ConfigNode) ≠ Fin.ofNat 256 j := by
  intro h
  have hv := congrArg Fin.val h
  rw [Fin.val_ofNat, Fin.val_ofNat, Nat.mod_eq_of_lt hi, Nat.mod_eq_of_lt hj] at hv
  exact hij hv

theorem notMem_nodesDown (hi : i < 256) : (Fin.ofNat 256 i : ConfigNode) ∉ nodesDown i := by
  intro h
  obtain ⟨j, hj, he⟩ := List.mem_map.1 h
  have hlt : j < i := List.mem_range.1 (List.mem_reverse.1 hj)
  exact ofNat_ne hlt.ne (by omega) hi he

/-- What is fetched in a turn: the header tells how long the whole descriptor is. -/
theorem getDescriptor_total (dev : UsbDevice) (i : ℕ) : dev.getDescriptor i
    (((dev.getDescriptor i 9).getD 2 0).toNat + ((dev.getDescriptor i 9).getD 3 0).toNat * 2 ^ 8) =
      (dev.config i).bytes := by
  have hlen := (dev.config i).header
  have htake : ∀ k < 9, (dev.getDescriptor i 9).getD k 0 = (dev.config i).bytes.getD k 0 := by
    intro k hk
    rw [UsbDevice.getDescriptor, List.getD_eq_getElem?_getD, List.getElem?_take_of_lt hk,
      List.getD_eq_getElem?_getD]
  rw [htake 2 (by norm_num), htake 3 (by norm_num), (dev.config i).wTotalLength,
    UsbDevice.getDescriptor, List.take_length]

/-- **A turn** puts the node of its index in front. -/
theorem Built.turn (h : Built dev i tree) (hi : i < 256) :
    ∃ tree', buildTurn dev i tree = .ok tree' ∧ Built dev (i + 1) tree' := by
  obtain ⟨c, hc⟩ : ∃ c : ConfigNode, c = Fin.ofNat 256 i := ⟨_, rfl⟩
  have hfree : ∀ l : Unit, c ∉ nodesDown i := fun _ => hc ▸ notMem_nodesDown hi
  have hinit := h.inv.nodeInit hfree 0
  have hnone : (nodeInit tree.configs (.node c) 0).container (.node c) = none := update_self ..
  obtain ⟨s, hs, hpush⟩ := hinit.push (by simp) (Set.mem_univ ()) hnone
  rw [buildTurn, ← hc, hs]
  refine ⟨_, rfl, ?_, fun j hj => ?_⟩
  · have hq : update (fun _ => nodesDown i) () (c :: nodesDown i) = fun _ : Unit => nodesDown (i + 1) := by
      funext u
      rw [nodesDown_succ, ← hc, update_self]
    rw [← hq]
    exact hpush
  · rcases Nat.lt_succ_iff_lt_or_eq.1 hj with hlt | rfl
    · obtain ⟨p, hp, hdesc, hbuf⟩ := h.desc j hlt
      refine ⟨p, by dsimp only; omega, ?_, ?_⟩
      · dsimp only
        rw [update_of_ne (hc ▸ ofNat_ne hlt.ne (by omega) hi), hdesc]
      · dsimp only
        rw [update_of_ne (by omega), update_of_ne (by omega), hbuf]
    · refine ⟨tree.next + 1, by dsimp only; omega, ?_, ?_⟩
      · dsimp only
        rw [← hc, update_self]
      · dsimp only
        rw [update_self, getDescriptor_total]

theorem Built.loop (h : Built dev i tree) (hi : i + n ≤ 256) :
    ∃ tree', buildLoop dev n i tree = .ok tree' ∧ Built dev (i + n) tree' := by
  induction n generalizing i tree with
  | zero => exact ⟨tree, rfl, h⟩
  | succ n ih =>
    obtain ⟨t, ht, hbuilt⟩ := h.turn (by omega)
    obtain ⟨t', ht', hbuilt'⟩ := ih hbuilt (by omega)
    refine ⟨t', ?_, ?_⟩
    · rw [buildLoop, ht, ok_bind, ht']
    · rwa [Nat.add_right_comm, Nat.add_assoc] at hbuilt'

/-- **`build_decriptor_tree`** builds the list in the order of decreasing indices. -/
theorem buildDescriptorTree_built (dev : UsbDevice) :
    ∃ tree, buildDescriptorTree dev = .ok tree ∧ Built dev dev.bNumConfiguration.toNat tree := by
  have hempty : PoolInv emptyTree.configs ∅ fun _ => [] :=
    ⟨nofun, nofun, fun n l => iff_of_false nofun List.not_mem_nil, nofun, fun _ _ => rfl⟩
  have hinit := hempty.init (l := ()) fun n => nofun
  have hstart : Built dev 0 { emptyTree with configs := listInit emptyTree.configs () } := by
    refine ⟨?_, fun j hj => absurd hj (Nat.not_lt_zero j)⟩
    have hlive : (∅ ∪ {()} : Set Unit) = Set.univ := by
      ext u
      simp
    rw [hlive, update_eq_self_iff.2 rfl] at hinit
    exact hinit
  have hlt := dev.bNumConfiguration.isLt
  obtain ⟨tree, htree, hbuilt⟩ := hstart.loop (n := dev.bNumConfiguration.toNat) (by omega)
  rw [Nat.zero_add] at hbuilt
  exact ⟨tree, htree, hbuilt⟩

/-- The loop goes round the list, and stays at the anchor. -/
theorem configLoop_eq {s : ListMem ConfigNode Unit} {p : Ptr ConfigNode Unit} {xs : List ConfigNode}
    (h : (p :: xs.map Ptr.node ++ [Ptr.endOf ()]).IsChain fun a b => s.next a = b) (k : ℕ) :
    configLoop s (k + 1) p = (xs[k]?).elim (.endOf ()) Ptr.node := by
  induction xs generalizing p k with
  | nil =>
    have hnext : s.next p = .endOf () := by simpa using h
    rw [configLoop, if_pos hnext]
    rfl
  | cons x xs ih =>
    obtain ⟨hnext, htail⟩ := List.isChain_cons_cons.1 h
    rw [configLoop, hnext, if_neg nofun]
    cases k with
    | zero => rfl
    | succ k => exact ih htail k

theorem nodesDown_getElem? (i k : ℕ) :
    (nodesDown i)[k]? = if k < i then some (Fin.ofNat 256 (i - 1 - k)) else none := by
  rw [nodesDown, List.getElem?_map]
  split_ifs with h
  · rw [List.getElem?_reverse (by simpa using h), List.length_range, List.getElem?_range (by omega)]
    rfl
  · rw [List.getElem?_eq_none (by simpa using h)]
    rfl

/-- **What `get_configuration_desc` returns**: the descriptor with the index counted from the end. -/
theorem Built.getConfigurationDesc (h : Built dev n tree) (hn : n ≠ 0) (hk : 0 < k) :
    if k ≤ n then ∃ p, getConfigurationDesc tree k = .ok (some p) ∧
        tree.buf p = some (n - k, (dev.config (n - k)).bytes)
    else getConfigurationDesc tree k = .ok none := by
  have hforward := (h.inv.refines.forward () (Set.mem_univ ()))
  have hnumber : tree.configs.number_of_node () ≠ 0 := by
    rw [h.inv.number () (Set.mem_univ ())]
    simpa [nodesDown] using hn
  obtain ⟨k, rfl⟩ : ∃ i, k = i + 1 := ⟨k - 1, by omega⟩
  have hloop := configLoop_eq hforward k
  rw [nodesDown_getElem?] at hloop
  have hpos : (0 : ℤ) < ((k + 1 : ℕ) : ℤ) := by omega
  rw [Rdix.getConfigurationDesc, cassert_pos hnumber, ok_bind, cassert_pos hpos, ok_bind, Int.toNat_natCast,
    hloop]
  by_cases hle : k + 1 ≤ n
  · rw [if_pos hle, if_pos (by omega)]
    obtain ⟨p, -, hdesc, hbuf⟩ := h.desc (n - 1 - k) (by omega)
    refine ⟨p, ?_, ?_⟩
    · dsimp only [Option.elim_some]
      rw [hdesc]
      rfl
    · rw [hbuf, Nat.sub_sub, Nat.add_comm 1 k]
  · rw [if_neg hle, if_neg (by omega)]
    rfl

/-- The configuration with a number is the one that has been fetched with its index. -/
def RightConfig (dev : UsbDevice) (tree : DescTree) (k : ℕ) : Prop :=
  if k ≤ dev.bNumConfiguration.toNat then ∃ p, getConfigurationDesc tree k = .ok (some p) ∧
    tree.buf p = some (k - 1, (dev.config (k - 1)).bytes)
  else getConfigurationDesc tree k = .ok none

/-- **The configurations keep their order** just where the index from the end is the same as from the
    front: `list_push` puts each one in front of those before it. -/
theorem getConfigurationDesc_iff (dev : UsbDevice) (hn : dev.bNumConfiguration ≠ 0) :
    ∃ tree, buildDescriptorTree dev = .ok tree ∧ ∀ k, 0 < k →
      (RightConfig dev tree k ↔
        (k ≤ dev.bNumConfiguration.toNat → 2 * k = dev.bNumConfiguration.toNat + 1)) := by
  obtain ⟨tree, htree, hbuilt⟩ := buildDescriptorTree_built dev
  have hpos : dev.bNumConfiguration.toNat ≠ 0 := fun h => hn (BitVec.eq_of_toNat_eq h)
  refine ⟨tree, htree, fun k hk => ?_⟩
  have hget := hbuilt.getConfigurationDesc hpos hk
  unfold RightConfig
  by_cases hle : k ≤ dev.bNumConfiguration.toNat
  · rw [if_pos hle] at hget ⊢
    obtain ⟨p, hp, hbuf⟩ := hget
    constructor
    · rintro ⟨p', hp', hbuf'⟩ -
      obtain rfl := Option.some.inj (Except.ok.inj (hp.symm.trans hp'))
      have hindex := congrArg Prod.fst (Option.some.inj (hbuf.symm.trans hbuf'))
      dsimp only at hindex
      omega
    · intro h
      have hindex : dev.bNumConfiguration.toNat - k = k - 1 := by
        have := h hle
        omega
      exact ⟨p, hp, hindex ▸ hbuf⟩
  · rw [if_neg hle] at hget ⊢
    exact iff_of_true hget fun h => absurd h hle

/-- A device with `n` configurations. -/
def mice (n : BitVec 8) : UsbDevice := ⟨n, fun _ => CfigDesc.mouse⟩

/-- Of three configurations the one in the middle is found. -/
theorem getConfigurationDesc_middle : ∃ tree, buildDescriptorTree (mice 3) = .ok tree ∧
    RightConfig (mice 3) tree 2 ∧ ¬ RightConfig (mice 3) tree 1 := by
  obtain ⟨tree, htree, hiff⟩ := getConfigurationDesc_iff (mice 3) (by decide)
  exact ⟨tree, htree, (hiff 2 (by decide)).2 fun _ => rfl,
    fun h => absurd ((hiff 1 (by decide)).1 h (by decide)) (by decide)⟩

/-- **Of two configurations**, the first one is taken for the second. -/
theorem getConfigurationDesc_swapped : ∃ tree, buildDescriptorTree (mice 2) = .ok tree ∧
    (∃ p, getConfigurationDesc tree 1 = .ok (some p) ∧ tree.buf p = some (1, CfigDesc.mouse.bytes)) ∧
    ¬ RightConfig (mice 2) tree 1 := by
  obtain ⟨tree, htree, hbuilt⟩ := buildDescriptorTree_built (mice 2)
  have hget : ∃ p, getConfigurationDesc tree 1 = .ok (some p) ∧
      tree.buf p = some (1, CfigDesc.mouse.bytes) :=
    hbuilt.getConfigurationDesc (k := 1) (by decide) (by decide)
  refine ⟨tree, htree, hget, ?_⟩
  rintro ⟨p', hp', hbuf'⟩
  obtain ⟨p, hp, hbuf⟩ := hget
  obtain rfl := Option.some.inj (Except.ok.inj (hp.symm.trans hp'))
  have hindex := congrArg Prod.fst (Option.some.inj (hbuf.symm.trans hbuf'))
  exact absurd hindex (by decide)

end Build

end Rdix
