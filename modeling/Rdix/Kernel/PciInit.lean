/-
  The chain of the PCI buses (kernel/pci.c: PCI_init, PCI_info, get_device_info).

  * `Cursors.Inv`: what holds before a turn of the loop of `PCI_init`, with a spare node at the end
    of the chain;
  * `turn_skip`, `turn_next`, `turn_last`: a turn, by whether the bus has a device;
  * `dropSpare_spec`: the spare node is unlinked;
  * `pciInit_chain`: the chain that is left, and what the walks over it return.
-/
import Rdix.Kernel.ListNode
import Rdix.Kernel.Pci
import Rdix.Lib.Chain
import Rdix.Lib.Loop

namespace Rdix.Pci

open Function Linked Nodes

/-! ## The functions -/

/-- `PCI_bus_t`. -/
structure PciBus where
  bus_num : ℤ
  dev_list : Option (List PciDevice)
  next : Option ℕ

/-- The ports, the nodes in memory and the next one that `malloc` returns, and `bus_list`. -/
structure Buses where
  ports : Ports
  node : ℕ → Option PciBus
  brk : ℕ
  bus_list : Option ℕ

/-- The state, with the variables `p` and `pre` of `PCI_init`. -/
structure Cursors where
  s : Buses
  p : ℕ
  pre : ℕ

/-- What `PCI_info` prints of a function. -/
structure Line where
  bus_num : ℤ
  vectorID : BitVec 16
  deviceID : BitVec 16
  Ccode : BitVec 32
  function : BitVec 8
  dev_num : BitVec 8
deriving DecidableEq

def line (bus_num : ℤ) (device : PciDevice) : Line where
  bus_num := bus_num
  vectorID := device.vectorID
  deviceID := device.deviceID
  Ccode := device.Ccode
  function := device.function
  dev_num := device.dev_num

section Functions
variable (hw : BitVec 32 → BitVec 32 → BitVec 32 → BitVec 32) (s : Buses)

def newPciBus : Buses × ℕ :=
  ({ s with node := update s.node s.brk (some ⟨-1, none, none⟩), brk := s.brk + 1 }, s.brk)

def busAt (p : ℕ) : C PciBus :=
  match s.node p with
  | some b => return b
  | none => throw (.wild "PCI_bus_t")

def setNext (p : ℕ) (next : Option ℕ) : C Buses := do
  let b ← busAt s p
  return { s with node := update s.node p (some { b with next := next }) }

/-- `p->bus_num = i`, and the scan of the bus. -/
def scanBus (p i : ℕ) : C Buses := do
  let b ← busAt s p
  let scan := getAllDevice hw ⟨s.ports, b.dev_list⟩ (.ofNat 8 i)
  let b := { b with bus_num := i, dev_list := scan.dev_list }
  return { s with ports := scan.ports, node := update s.node p (some b) }

/-- A turn of the loop of `PCI_init`. -/
def turn (x : Cursors) (i : ℕ) : C Cursors := do
  let s ← scanBus hw x.s x.p i
  let b ← busAt s x.p
  if b.dev_list.isSome ∧ i < 255 then
    let master := newPciBus s
    let s ← setNext master.1 x.p (some master.2)
    return { s := s, p := master.2, pre := x.p }
  else return { x with s := s }

/-- What follows the loop of `PCI_init`: a node that was not used is freed. -/
def dropSpare (x : Cursors) : C Buses := do
  let b ← busAt x.s x.p
  if b.dev_list.isNone ∧ x.pre ≠ x.p then
    let s ← setNext x.s x.pre none
    return { s with node := update s.node x.p none }
  else return x.s

/-- The loop of `PCI_info`, from `bus_ptr` on. -/
def pciInfo : ℕ → Option ℕ → C (List Line)
  | 0, _ => throw .loop
  | _ + 1, none => return []
  | fuel + 1, some bus_ptr => do
    let b ← busAt s bus_ptr
    let devices ← deref "bus_ptr->dev_list" b.dev_list
    let rest ← pciInfo fuel b.next
    return devices.map (line b.bus_num) ++ rest

/-- The loop of `get_device_info`, from `bus_ptr` on. -/
def getDeviceInfo (dev_cc : BitVec 32) : ℕ → Option ℕ → C (Option PciDevice)
  | 0, _ => throw .loop
  | _ + 1, none => return none
  | fuel + 1, some bus_ptr => do
    let b ← busAt s bus_ptr
    let devices ← deref "bus_ptr->dev_list" b.dev_list
    match devices.find? fun device => device.Ccode = dev_cc with
    | some device => return some device
    | none => getDeviceInfo dev_cc fuel b.next

def pciInit (fuel : ℕ) : C (Buses × List Line) := do
  let master := newPciBus s
  let x ← (List.range 256).foldlM (turn hw)
    { s := { master.1 with bus_list := some master.2 }, p := master.2, pre := master.2 }
  let s ← dropSpare x
  let lines ← pciInfo s fuel s.bus_list
  return (s, lines)

end Functions

/-! ## Chains -/

section Chains
variable (hw : BitVec 32 → BitVec 32 → BitVec 32 → BitVec 32) {cfg : BitVec 32 → BitVec 32}
  {s s' : Buses} {x : Cursors} {i p : ℕ} {ps : List ℕ} {b : PciBus}
  {es : List (ℕ × List PciDevice)} {ptr : Option ℕ}

/-- The field `next`, as a function of pointers. -/
def Buses.link (s : Buses) (ptr : Option ℕ) : Option ℕ := (ptr.bind s.node).bind PciBus.next

/-- A node is that of a bus, with the list of its devices. -/
def Buses.Holds (s : Buses) (p : ℕ) (e : ℕ × List PciDevice) : Prop :=
  ∃ next, s.node p = some ⟨e.1, some e.2, next⟩

/-- From `ptr` a chain leads through the buses, and to no other node. -/
def Buses.Lists (s : Buses) (ptr : Option ℕ) (es : List (ℕ × List PciDevice)) : Prop :=
  ∃ ps : List ℕ, Chain none s.link ptr (ps.map some) ∧ List.Forall₂ s.Holds ps es

theorem busAt_some (h : s.node p = some b) : busAt s p = .ok b := by
  rw [busAt, h]
  rfl

/-- The first node of a chain. -/
theorem Buses.Lists.cons {e : ℕ × List PciDevice} (h : s.Lists ptr (e :: es)) :
    ∃ p next, ptr = some p ∧ s.node p = some ⟨e.1, some e.2, next⟩ ∧ s.Lists next es := by
  obtain ⟨ps, hchain, hholds⟩ := h
  obtain ⟨p, rest, ⟨next, hp⟩, hrest, rfl⟩ := List.forall₂_cons_right_iff.1 hholds
  obtain ⟨rfl, -, hchain⟩ := chain_cons_iff.1 hchain
  refine ⟨p, next, rfl, hp, rest, ?_, hrest⟩
  have hlink : s.link (some p) = next := by
    rw [link, Option.bind_some, hp]
    rfl
  rwa [hlink] at hchain

theorem Buses.Lists.nil (h : s.Lists ptr []) : ptr = none := by
  obtain ⟨ps, hchain, hholds⟩ := h
  rw [List.forall₂_nil_right_iff.1 hholds] at hchain
  exact chain_nil_iff.1 hchain

/-- **`PCI_info` prints the devices of the chain.** -/
theorem pciInfo_lists (h : s.Lists ptr es) :
    Returns (fun fuel => pciInfo s fuel ptr) (es.flatMap fun e => e.2.map (line e.1)) := by
  induction es generalizing ptr with
  | nil =>
    rw [h.nil]
    exact (Returns.const rfl).turn rfl fun _ => rfl
  | cons e es ih =>
    obtain ⟨p, next, rfl, hp, hrest⟩ := h.cons
    refine ((ih hrest).map fun lines => e.2.map (line e.1) ++ lines).turn rfl fun fuel => ?_
    rw [pciInfo, busAt_some hp]
    rfl

/-- **`get_device_info` returns the first device of the chain with the class code.** -/
theorem getDeviceInfo_lists (h : s.Lists ptr es) (dev_cc : BitVec 32) :
    Returns (fun fuel => getDeviceInfo s dev_cc fuel ptr)
      ((es.flatMap Prod.snd).find? fun device => device.Ccode = dev_cc) := by
  induction es generalizing ptr with
  | nil =>
    rw [h.nil]
    exact (Returns.const rfl).turn rfl fun _ => rfl
  | cons e es ih =>
    obtain ⟨p, next, rfl, hp, hrest⟩ := h.cons
    rw [List.flatMap_cons, List.find?_append]
    cases hfind : e.2.find? fun device => device.Ccode = dev_cc with
    | some device =>
      refine (Returns.const rfl).turn rfl fun fuel => ?_
      rw [getDeviceInfo, busAt_some hp, ok_bind, deref_some, ok_bind, hfind]
      rfl
    | none =>
      refine (ih hrest).turn rfl fun fuel => ?_
      rw [getDeviceInfo, busAt_some hp, ok_bind, deref_some, ok_bind, hfind]

/-! ## The loop over the buses -/

/-- The entries are those of the first buses that have a device, with their devices. -/
structure Entries (cfg : BitVec 32 → BitVec 32) (i : ℕ) (es : List (ℕ × List PciDevice)) : Prop where
  buses : es.map Prod.fst = (List.range i).filter fun bus => HasDevice cfg (.ofNat 8 bus)
  devices : ∀ e ∈ es, Lists cfg (.ofNat 8 e.1) (some e.2) (functionsOn cfg (.ofNat 8 e.1))

/-- Before turn `i`: the buses that have a device are in the chain, and behind them the node that
    is used next. -/
structure Cursors.Inv (cfg : BitVec 32 → BitVec 32) (i : ℕ) (x : Cursors) (ps : List ℕ)
    (es : List (ℕ × List PciDevice)) : Prop where
  headers : SameHeaders cfg x.s.ports.config
  entries : Entries cfg i es
  chain : Chain none x.s.link x.s.bus_list ((ps ++ [x.p]).map some)
  holds : List.Forall₂ x.s.Holds ps es
  spare : ∃ n, x.s.node x.p = some ⟨n, none, none⟩
  pre : x.pre = ps.getLast?.getD x.p
  below : ∀ q ∈ ps ++ [x.p], q < x.s.brk

theorem Entries.skip (h : Entries cfg i es) (hno : ¬ HasDevice cfg (.ofNat 8 i)) :
    Entries cfg (i + 1) es where
  buses := by simp [List.range_succ, h.buses, hno]
  devices := h.devices

theorem Entries.add {devices : List PciDevice} (h : Entries cfg i es)
    (hyes : HasDevice cfg (.ofNat 8 i))
    (hd : Pci.Lists cfg (.ofNat 8 i) (some devices) (functionsOn cfg (.ofNat 8 i))) :
    Entries cfg (i + 1) (es ++ [(i, devices)]) where
  buses := by simp [List.range_succ, h.buses, hyes]
  devices e he := by
    rcases List.mem_append.1 he with he | he
    · exact h.devices e he
    · rw [List.mem_singleton.1 he]
      exact hd

/-- Nodes of which at most the field `next` is written. -/
theorem holds_next (h : List.Forall₂ s.Holds ps es)
    (he : ∀ q ∈ ps, ∀ b, s.node q = some b → ∃ next, s'.node q = some { b with next := next }) :
    List.Forall₂ s'.Holds ps es := by
  induction h with
  | nil => exact .nil
  | @cons q e ps es hq _ ih =>
    obtain ⟨next, hnext⟩ := hq
    exact .cons (he q List.mem_cons_self _ hnext) (ih fun q hq => he q (List.mem_cons_of_mem _ hq))

/-- Nodes that are not written. -/
theorem holds_congr (h : List.Forall₂ s.Holds ps es) (he : ∀ q ∈ ps, s'.node q = s.node q) :
    List.Forall₂ s'.Holds ps es :=
  holds_next h fun q hq b hb => ⟨b.next, (he q hq).trans hb⟩

theorem node_of_holds (h : List.Forall₂ s.Holds ps es) (hp : p ∈ ps) : ∃ b, s.node p = some b := by
  induction h with
  | nil => cases hp
  | cons hq _ ih =>
    rcases List.mem_cons.1 hp with rfl | hp
    · obtain ⟨next, hnext⟩ := hq
      exact ⟨_, hnext⟩
    · exact ih hp

theorem link_congr (h : s'.node p = s.node p) : s'.link (some p) = s.link (some p) := by
  rw [Buses.link, Buses.link, Option.bind_some, Option.bind_some, h]

theorem link_some (h : s.node p = some b) : s.link (some p) = b.next := by
  rw [Buses.link, Option.bind_some, h]
  rfl

/-- The spare node is none of the others. -/
theorem Cursors.Inv.notMem (h : x.Inv cfg i ps es) : x.p ∉ ps := by
  have hnodup := List.Nodup.of_map _ h.chain.nodup
  intro hp
  exact List.disjoint_of_nodup_append hnodup hp (List.mem_singleton_self _)

/-- The next bus has been scanned: its list is in the spare node, and the chain is as it was. -/
structure Cursors.Scanned (cfg : BitVec 32 → BitVec 32) (i : ℕ) (x : Cursors) (ps : List ℕ)
    (es : List (ℕ × List PciDevice)) (s : Buses) (list : Option (List PciDevice)) : Prop where
  headers : SameHeaders cfg s.ports.config
  lists : Pci.Lists cfg (.ofNat 8 i) list (functionsOn cfg (.ofNat 8 i))
  node : s.node x.p = some ⟨i, list, none⟩
  chain : Chain none s.link s.bus_list ((ps ++ [x.p]).map some)
  holds : List.Forall₂ s.Holds ps es
  brk : s.brk = x.s.brk

/-- **The scan of the next bus.** -/
theorem scanBus_spec (h : x.Inv cfg i ps es) :
    ∃ s' list, scanBus hw x.s x.p i = .ok s' ∧ x.Scanned cfg i ps es s' list := by
  obtain ⟨n, hn⟩ := h.spare
  have hempty : Scan.Found cfg (.ofNat 8 i) ⟨x.s.ports, none⟩ [] :=
    ⟨h.headers, .nil, by simp⟩
  obtain ⟨scan, hscan⟩ : ∃ scan, getAllDevice hw ⟨x.s.ports, none⟩ (.ofNat 8 i) = scan := ⟨_, rfl⟩
  have hfound := hscan ▸ getAllDevice_found hw hempty
  let s' : Buses := { x.s with
    ports := scan.ports, node := update x.s.node x.p (some ⟨i, scan.dev_list, none⟩) }
  have hself : s'.node x.p = some ⟨i, scan.dev_list, none⟩ := update_self ..
  have hother : ∀ q, q ≠ x.p → s'.node q = x.s.node q := fun q hq => update_of_ne hq ..
  refine ⟨s', scan.dev_list, ?_, hfound.headers, hfound.lists, hself, ?_, ?_, rfl⟩
  · rw [scanBus, busAt_some hn, ok_bind]
    simp only [hscan]
    rfl
  · refine h.chain.congr fun ptr hptr => ?_
    obtain ⟨q, hq, rfl⟩ := List.mem_map.1 hptr
    by_cases hqp : q = x.p
    · rw [hqp, link_some hn, link_some hself]
    · exact link_congr (hother q hqp)
  · refine holds_congr h.holds fun q hq => hother q ?_
    rintro rfl
    exact h.notMem hq

/-- The list of a bus that has a device. -/
theorem Cursors.Scanned.some_of {list : Option (List PciDevice)} (h : x.Scanned cfg i ps es s list)
    (hyes : HasDevice cfg (.ofNat 8 i)) : ∃ devices, list = some devices :=
  Option.ne_none_iff_exists'.1 (mt h.lists.eq_none_iff.1 (functionsOn_ne_nil.2 hyes))

/-- The list of a bus without a device. -/
theorem Cursors.Scanned.none_of {list : Option (List PciDevice)} (h : x.Scanned cfg i ps es s list)
    (hno : ¬ HasDevice cfg (.ofNat 8 i)) : list = none :=
  h.lists.eq_none_iff.2 (not_not.1 (mt functionsOn_ne_nil.1 hno))

theorem setNext_some (h : s.node p = some b) :
    setNext s p ptr = .ok { s with node := update s.node p (some { b with next := ptr }) } := by
  rw [setNext, busAt_some h]
  rfl

/-- A new node is linked behind a node. -/
theorem setNext_newPciBus (h : s.node p = some b) (hne : p ≠ s.brk) :
    ∃ s', setNext (newPciBus s).1 p (some s.brk) = .ok s' ∧
      s'.node p = some { b with next := some s.brk } ∧ s'.node s.brk = some ⟨-1, none, none⟩ ∧
      (∀ q, q ≠ p → q ≠ s.brk → s'.node q = s.node q) ∧ s'.ports = s.ports ∧
      s'.bus_list = s.bus_list ∧ s'.brk = s.brk + 1 := by
  have hp : (newPciBus s).1.node p = some b := (update_of_ne hne ..).trans h
  refine ⟨_, setNext_some hp, update_self .., ?_, fun q hqp hq => ?_, rfl, rfl, rfl⟩
  · exact (update_of_ne hne.symm ..).trans (update_self ..)
  · exact (update_of_ne hqp ..).trans (update_of_ne hq ..)

/-- **A bus without a device**: its node is used again. -/
theorem turn_skip (h : x.Inv cfg i ps es) (hno : ¬ HasDevice cfg (.ofNat 8 i)) :
    ∃ x', turn hw x i = .ok x' ∧ x'.Inv cfg (i + 1) ps es := by
  obtain ⟨s', list, hscan, hs'⟩ := scanBus_spec hw h
  obtain rfl := hs'.none_of hno
  refine ⟨{ x with s := s' }, ?_, hs'.headers, h.entries.skip hno, hs'.chain, hs'.holds,
    ⟨i, hs'.node⟩, h.pre, hs'.brk ▸ h.below⟩
  rw [turn, hscan, ok_bind, busAt_some hs'.node, ok_bind, if_neg (by simp)]
  rfl

/-- **A bus with a device**: its node stays in the chain, and a new one is linked behind it. -/
theorem turn_next (h : x.Inv cfg i ps es) (hyes : HasDevice cfg (.ofNat 8 i)) (hi : i < 255) :
    ∃ x' devices, turn hw x i = .ok x' ∧
      x'.Inv cfg (i + 1) (ps ++ [x.p]) (es ++ [(i, devices)]) := by
  obtain ⟨s₁, list, hscan, hs₁⟩ := scanBus_spec hw h
  obtain ⟨devices, rfl⟩ := hs₁.some_of hyes
  have hbelow : ∀ q ∈ ps ++ [x.p], q < s₁.brk := hs₁.brk ▸ h.below
  obtain ⟨s', hset, hp, hnew, hother, hports, hlist, hbrk⟩ :=
    setNext_newPciBus hs₁.node (hbelow x.p (by simp)).ne
  have hsame : ∀ q ∈ ps, s'.node q = s₁.node q := by
    intro q hq
    refine hother q ?_ (hbelow q (List.mem_append_left _ hq)).ne
    rintro rfl
    exact h.notMem hq
  refine ⟨⟨s', s₁.brk, x.p⟩, devices, ?_, hports ▸ hs₁.headers, h.entries.add hyes hs₁.lists, ?_,
    ?_, ⟨-1, hnew⟩, by simp, ?_⟩
  · rw [turn, hscan, ok_bind, busAt_some hs₁.node, ok_bind, if_pos ⟨rfl, hi⟩]
    exact congrArg (· >>= _) hset
  · have hchain := hs₁.chain
    rw [List.map_append, List.map_singleton] at hchain
    rw [hlist, List.append_assoc, List.map_append]
    refine hchain.snoc (by simp) (link_some hp) (link_some hnew) fun ptr hptr => ?_
    obtain ⟨q, hq, rfl⟩ := List.mem_map.1 hptr
    exact link_congr (hsame q hq)
  · exact List.rel_append (holds_congr hs₁.holds hsame) (.cons ⟨_, hp⟩ .nil)
  · intro q hq
    rw [hbrk]
    rcases List.mem_append.1 hq with hq | hq
    · exact (hbelow q hq).trans (Nat.lt_succ_self _)
    · rw [List.mem_singleton.1 hq]
      exact Nat.lt_succ_self _

/-- **The last bus, with a device**: no node is linked behind its node. -/
theorem turn_last (h : x.Inv cfg 255 ps es) (hyes : HasDevice cfg (.ofNat 8 255)) :
    ∃ x' devices, turn hw x 255 = .ok x' ∧ Entries cfg 256 (es ++ [(255, devices)]) ∧
      x'.s.Lists x'.s.bus_list (es ++ [(255, devices)]) ∧
      x'.s.node x'.p = some ⟨255, some devices, none⟩ := by
  obtain ⟨s', list, hscan, hs'⟩ := scanBus_spec hw h
  obtain ⟨devices, rfl⟩ := hs'.some_of hyes
  refine ⟨{ x with s := s' }, devices, ?_, h.entries.add hyes hs'.lists,
    ⟨ps ++ [x.p], hs'.chain, ?_⟩, hs'.node⟩
  · rw [turn, hscan, ok_bind, busAt_some hs'.node, ok_bind, if_neg (by simp)]
    rfl
  · exact List.rel_append hs'.holds (.cons ⟨_, hs'.node⟩ .nil)

/-- **The first 255 buses.** -/
theorem turns_inv (h : x.Inv cfg 0 [] []) :
    ∃ x', (List.range 255).foldlM (turn hw) x = .ok x' ∧ ∃ ps es, x'.Inv cfg 255 ps es := by
  refine Loop.foldlM_range_ok (fun i (x : Cursors) => ∃ ps es, x.Inv cfg i ps es) ⟨[], [], h⟩ ?_
  rintro i hi x ⟨ps, es, hx⟩
  by_cases hyes : HasDevice cfg (.ofNat 8 i)
  · obtain ⟨x', devices, he, hx'⟩ := turn_next hw hx hyes hi
    exact ⟨x', he, _, _, hx'⟩
  · obtain ⟨x', he, hx'⟩ := turn_skip hw hx hyes
    exact ⟨x', he, _, _, hx'⟩

/-- **A node that was not used is unlinked.** -/
theorem dropSpare_spec (h : x.Inv cfg i ps es) (hne : ps ≠ []) :
    ∃ s', dropSpare x = .ok s' ∧ s'.Lists s'.bus_list es := by
  obtain ⟨n, hn⟩ := h.spare
  obtain ⟨qs, q, rfl⟩ := (List.eq_nil_or_concat' ps).resolve_left hne
  have hpre : x.pre = q := by simp [h.pre]
  have hqp : q ≠ x.p := by
    rintro rfl
    exact h.notMem (by simp)
  obtain ⟨b, hb⟩ := node_of_holds h.holds (p := q) (by simp)
  let s' : Buses := { x.s with
    node := update (update x.s.node q (some { b with next := none })) x.p none }
  have hq : s'.node q = some { b with next := none } := (update_of_ne hqp ..).trans (update_self ..)
  have hother : ∀ r, r ≠ q → r ≠ x.p → s'.node r = x.s.node r :=
    fun r hrq hrp => (update_of_ne hrp ..).trans (update_of_ne hrq ..)
  have hdrop : dropSpare x = .ok s' := by
    rw [dropSpare, busAt_some hn, ok_bind, if_pos ⟨rfl, hpre ▸ hqp⟩, hpre, setNext_some hb]
    rfl
  refine ⟨s', hdrop, qs ++ [q], ?_, ?_⟩
  · have hchain := h.chain
    rw [List.append_assoc, List.map_append] at hchain
    rw [List.map_append]
    refine hchain.unlink ?_ fun ptr hptr hne => ?_
    · rw [link_some hq, link_some hn]
    · obtain ⟨r, rfl⟩ : ∃ r, ptr = some r := Option.ne_none_iff_exists'.1 (hchain.ne_nil hptr)
      have hrq : r ≠ q := fun he => hne (congrArg some he)
      by_cases hrp : r = x.p
      · have hfree : s'.node x.p = none := update_self ..
        rw [hrp, link_some hn, Buses.link, Option.bind_some, hfree]
        rfl
      · exact link_congr (hother r hrq hrp)
  · refine holds_next h.holds fun r hr a ha => ?_
    by_cases hrq : r = q
    · subst hrq
      obtain rfl := Option.some.inj (hb.symm.trans ha)
      exact ⟨none, hq⟩
    · have hrp : r ≠ x.p := by
        rintro rfl
        exact h.notMem hr
      exact ⟨a.next, (hother r hrq hrp).trans ha⟩

/-- A node that has been used stays. -/
theorem dropSpare_used {devices : List PciDevice} {next : Option ℕ}
    (h : x.s.node x.p = some ⟨i, some devices, next⟩) : dropSpare x = .ok x.s := by
  rw [dropSpare, busAt_some h, ok_bind, if_neg (by simp)]
  rfl

/-- There is a bus with a device. -/
theorem Entries.ne_nil (h : Entries cfg i es) (hbus : ∃ bus < i, HasDevice cfg (.ofNat 8 bus)) :
    es ≠ [] := by
  obtain ⟨bus, hlt, hyes⟩ := hbus
  have hmem : bus ∈ es.map Prod.fst := by
    rw [h.buses]
    simp [hlt, hyes]
  rintro rfl
  cases hmem

/-- **The loop over all buses, and the unlinking.** -/
theorem buses_spec (h : x.Inv cfg 0 [] []) (hbus : ∃ bus < 256, HasDevice cfg (.ofNat 8 bus)) :
    ∃ x' s' es, (List.range 256).foldlM (turn hw) x = .ok x' ∧ dropSpare x' = .ok s' ∧
      Entries cfg 256 es ∧ s'.Lists s'.bus_list es := by
  obtain ⟨x₁, he₁, ps, es, h₁⟩ := turns_inv hw h
  have hrange : ∀ x', turn hw x₁ 255 = .ok x' → (List.range 256).foldlM (turn hw) x = .ok x' := by
    intro x' hx'
    rw [List.range_succ, List.foldlM_append, he₁, ok_bind, List.foldlM_cons, hx', ok_bind]
    rfl
  by_cases hyes : HasDevice cfg (.ofNat 8 255)
  · obtain ⟨x', devices, he, hentries, hlists, hnode⟩ := turn_last hw h₁ hyes
    exact ⟨x', x'.s, _, hrange x' he, dropSpare_used hnode, hentries, hlists⟩
  · obtain ⟨x', he, h'⟩ := turn_skip hw h₁ hyes
    have hne : ps ≠ [] := by
      rintro rfl
      exact h'.entries.ne_nil hbus (List.forall₂_nil_left_iff.1 h'.holds)
    obtain ⟨s', hs', hlists⟩ := dropSpare_spec h' hne
    exact ⟨x', s', es, hrange x' he, hs', h'.entries, hlists⟩

/-! ## The enumeration -/

/-- Before the loop there is the spare node alone. -/
theorem newPciBus_inv (s : Buses) :
    (⟨{ (newPciBus s).1 with bus_list := some (newPciBus s).2 }, (newPciBus s).2,
      (newPciBus s).2⟩ : Cursors).Inv s.ports.config 0 [] [] where
  headers _ _ := rfl
  entries := ⟨rfl, by simp⟩
  chain := .cons (by simp) (by
    rw [link_some (update_self ..)]
    exact .nil)
  holds := .nil
  spare := ⟨-1, update_self ..⟩
  pre := rfl
  below q hq := by
    rw [List.mem_singleton.1 hq]
    exact Nat.lt_succ_self _

/-- **A class code** is found just if a listed device has it. -/
theorem getDeviceInfo_iff (h : s.Lists ptr es) (dev_cc : BitVec 32) :
    ∃ r, Returns (fun fuel => getDeviceInfo s dev_cc fuel ptr) r ∧
      (r.isSome ↔ ∃ e ∈ es, ∃ device ∈ e.2, device.Ccode = dev_cc) ∧
      ∀ device, r = some device → device.Ccode = dev_cc ∧ ∃ e ∈ es, device ∈ e.2 := by
  refine ⟨_, getDeviceInfo_lists h dev_cc, ?_, fun device hr => ⟨?_, ?_⟩⟩
  · rw [List.find?_isSome]
    simp only [List.mem_flatMap, decide_eq_true_eq]
    constructor
    · rintro ⟨device, ⟨e, he, hd⟩, hcc⟩
      exact ⟨e, he, device, hd, hcc⟩
    · rintro ⟨e, he, device, hd, hcc⟩
      exact ⟨device, ⟨e, he, hd⟩, hcc⟩
  · simpa using List.find?_some hr
  · exact List.mem_flatMap.1 (List.mem_of_find?_eq_some hr)

/-- **The enumeration.**  The buses that have a device are in the chain in ascending order, with
    lists that are not empty and hold their devices in the order of the probes; the walks over the
    chain return. -/
theorem pciInit_chain (s : Buses)
    (hbus : ∃ bus < 256, HasDevice s.ports.config (.ofNat 8 bus)) :
    ∃ s' es, Returns (fun fuel => pciInit hw s fuel) (s', es.flatMap fun e => e.2.map (line e.1)) ∧
      s'.Lists s'.bus_list es ∧
      es.map Prod.fst = (List.range 256).filter (fun bus => HasDevice s.ports.config (.ofNat 8 bus)) ∧
      (∀ e ∈ es, e.2 ≠ [] ∧ List.Forall₂ (Describes s.ports.config (.ofNat 8 e.1))
        (functionsOn s.ports.config (.ofNat 8 e.1)) e.2) ∧
      ∀ dev_cc, ∃ r, Returns (fun fuel => getDeviceInfo s' dev_cc fuel s'.bus_list) r ∧
        (r.isSome ↔ ∃ e ∈ es, ∃ device ∈ e.2, device.Ccode = dev_cc) ∧
        ∀ device, r = some device → device.Ccode = dev_cc ∧ ∃ e ∈ es, device ∈ e.2 := by
  obtain ⟨x', s', es, hloop, hdrop, hentries, hlists⟩ :=
    buses_spec hw (newPciBus_inv s) hbus
  refine ⟨s', es, ?_, hlists, hentries.buses, fun e he => ⟨?_, (hentries.devices e he).devices⟩,
    getDeviceInfo_iff hlists⟩
  · have hinit : ∀ fuel, pciInit hw s fuel =
        pciInfo s' fuel s'.bus_list >>= fun lines => .ok (s', lines) := by
      intro fuel
      rw [pciInit, hloop, ok_bind, hdrop, ok_bind]
      rfl
    simp only [hinit]
    exact (pciInfo_lists hlists).map (s', ·)
  · exact fun hnil => (hentries.devices e he).ne_nil (congrArg some hnil)

end Chains

/-- A host bridge on bus 0, and on bus 3 a device with the functions 0 and 2. -/
def threeFunctions (address : BitVec 32) : BitVec 32 :=
  match address.toNat with
  | 0x80000000 => 0x12378086
  | 0x80000008 => 0x06000000
  | 0x80030801 => 0x29228086
  | 0x8003080d => 0x00800000
  | 0x80030a01 => 0x29298086
  | 0x80030a09 => 0x01060100
  | _ => 0xffffffff

/-- Bus 0 is listed with one function, bus 3 with two, and bus 5 is not listed. -/
theorem pciInit_chain_three :
    ∃ s' es, Returns (fun fuel => pciInit (fun _ _ data => data)
        ⟨⟨0, threeFunctions⟩, fun _ => none, 0, none⟩ fuel)
        (s', es.flatMap fun e => e.2.map (line e.1)) ∧
      s'.Lists s'.bus_list es ∧
      (∃ devices, (0, devices) ∈ es ∧ List.Forall₂ (Describes threeFunctions 0) [(0, 0)] devices) ∧
      (∃ devices, (3, devices) ∈ es ∧
        List.Forall₂ (Describes threeFunctions 3) [(1, 0), (1, 2)] devices) ∧
      ∀ devices, (5, devices) ∉ es := by
  have hyes : ∃ bus < 256, HasDevice threeFunctions (.ofNat 8 bus) :=
    ⟨0, by decide, 0, by decide, by decide⟩
  obtain ⟨s', es, hret, hlists, hbuses, hdevices, -⟩ :=
    pciInit_chain (fun _ _ data => data) ⟨⟨0, threeFunctions⟩, fun _ => none, 0, none⟩ hyes
  have hmem : ∀ bus, (∃ devices, (bus, devices) ∈ es) ↔
      bus < 256 ∧ HasDevice threeFunctions (.ofNat 8 bus) := by
    intro bus
    have hin : bus ∈ es.map Prod.fst ↔ bus < 256 ∧ HasDevice threeFunctions (.ofNat 8 bus) := by
      rw [hbuses, List.mem_filter, List.mem_range, decide_eq_true_iff]
    rw [← hin, List.mem_map]
    simp
  have h₀ : functionsOn threeFunctions 0 = [(0, 0)] := by decide +kernel
  have h₃ : functionsOn threeFunctions 3 = [(1, 0), (1, 2)] := by decide +kernel
  obtain ⟨devices₀, he₀⟩ := (hmem 0).2 (by decide +kernel)
  obtain ⟨devices₃, he₃⟩ := (hmem 3).2 (by decide +kernel)
  refine ⟨s', es, hret, hlists, ⟨devices₀, he₀, h₀ ▸ (hdevices _ he₀).2⟩,
    ⟨devices₃, he₃, h₃ ▸ (hdevices _ he₃).2⟩, fun devices he => ?_⟩
  have hno : ¬ HasDevice threeFunctions 5 := by decide +kernel
  exact hno ((hmem 5).1 ⟨devices, he⟩).2

end Rdix.Pci
