/-
  Exact reference counts, over all runs of the tasks.

  * `Tasks.MemInv`: the invariant of the memory; every step keeps it, and has its effect on the
    contents of the pages;
  * `refs_exact`: the count of a frame is the number of entries that map it and of directory
    entries that use it as a table, so `get_p_page` returns no frame in use;
  * `refs_leak`: it is not when `sys_waitpid` frees a child that is alive.
-/
import Rdix.Kernel.Process

namespace Rdix

open Function Transition

/-! ## Invariant -/

namespace Tasks

/-- What the pages of the tasks contain. -/
def pages (s : Tasks) : Frames.Page → Option Bytes := s.frames.pages s.dirs

/-- The invariant of the memory. -/
structure MemInv (s : Tasks) : Prop where
  ok : s.frames.Ok s.Handed (s.frames.held s.dirs)
  noTable : ∀ d : UserDidx, entPresent (s.kpde (firstDidx + d)) = false
  dead : ∀ pid t, s.task_bucket pid = some t → t.state = .died → t.space = none

section
variable {s s' : Tasks} {pid : Pid} {t : Tcb} {space : Space}

theorem dirs_set (pid : Pid) (t : Option Tcb) :
    (s.set pid t).dirs = update s.dirs pid ((t.bind Tcb.space).elim (fun _ => 0) Space.pde) := by
  ext1 i
  by_cases hi : i = pid
  · rw [hi, update_self]
    simp only [dirs, set, update_self]
  · rw [update_of_ne hi]
    simp only [dirs, set, update_of_ne hi]

theorem dirs_of_some (h : s.task_bucket pid = some t) :
    s.dirs pid = t.space.elim (fun _ => 0) Space.pde := by
  rw [dirs, h, Option.bind_some]

/-- The task in a slot keeps its space. -/
theorem dirs_set_eq {u : Tcb} (h : s.task_bucket pid = some t) (hu : u.space = t.space) :
    (s.set pid (some u)).dirs = s.dirs := by
  rw [dirs_set, Option.bind_some, hu, ← dirs_of_some h, update_eq_self]

theorem dirs_of_none (h : s.task_bucket pid = none) : s.dirs pid = fun _ => 0 := by
  rw [dirs, h, Option.bind_none, Option.elim_none]

/-- A task without a space holds nothing. -/
theorem held_of_dirs (m : Frames) (h : s.dirs pid = fun _ => 0) (d : UserDidx) :
    m.held s.dirs (pid, d, none) = none := by
  simp only [Frames.held, Frames.slot, h, tableOf_zero, Option.map_none]

/-- An operation on the memory keeps the invariant. -/
theorem MemInv.goes {m : Frames} {P : Frames.Page → Option Bytes} (I : s.MemInv) (s' : Tasks)
    (G : s.frames.Goes m s.Handed s'.dirs P) (hf : s'.frames = m) (hk : s'.kpde = s.kpde)
    (hd : ∀ pid t, s'.task_bucket pid = some t → t.state = .died → t.space = none) :
    s'.MemInv ∧ s'.pages = P := by
  subst hf
  have hh : s'.Handed = s.Handed := by
    unfold Handed Frames.Avail
    rw [G.start, G.total, hk]
  exact ⟨⟨hh ▸ G.ok, by rw [hk]; exact I.noTable, hd⟩, G.pages⟩

/-- Only the task table changes, and the spaces in it stay. -/
theorem MemInv.same (I : s.MemInv) (s' : Tasks) (hf : s'.frames = s.frames) (hk : s'.kpde = s.kpde)
    (hd : s'.dirs = s.dirs)
    (hdead : ∀ pid t, s'.task_bucket pid = some t → t.state = .died → t.space = none) :
    s'.MemInv ∧ s'.pages = s.pages :=
  I.goes (m := s.frames) s' ⟨hd ▸ I.ok, rfl, rfl, by rw [hd]; rfl⟩ hf hk hdead

theorem MemInv.dead_set (I : s.MemInv) (ht : t.state = .died → t.space = none) (j : Pid) (u : Tcb)
    (h : (s.set pid (some t)).task_bucket j = some u) (hu : u.state = .died) : u.space = none := by
  by_cases hj : j = pid
  · simp only [set, hj, update_self] at h
    cases h
    exact ht hu
  · simp only [set, update_of_ne hj] at h
    exact I.dead j u h hu

/-- What of a task matters to the memory. -/
def key (t : Tcb) : Option Space × Bool := (t.space, decide (t.state = .died))

theorem dirs_of_key (h : ∀ i, (s'.task_bucket i).map key = (s.task_bucket i).map key) :
    s'.dirs = s.dirs := by
  have hd : ∀ r : Tasks, r.dirs = fun i =>
      (((r.task_bucket i).map key).bind Prod.fst).elim (fun _ => 0) Space.pde := by
    intro r
    ext1 i
    unfold dirs
    cases r.task_bucket i with
    | none => rfl
    | some u => rfl
  rw [hd s', hd s]
  simp only [h]

theorem MemInv.dead_key (I : s.MemInv)
    (h : ∀ i, (s'.task_bucket i).map key = (s.task_bucket i).map key) (j : Pid) (u : Tcb)
    (hu : s'.task_bucket j = some u) (hs : u.state = .died) : u.space = none := by
  have hj := h j
  rw [hu, Option.map_some] at hj
  obtain ⟨v, hv, hk⟩ := Option.map_eq_some_iff.1 hj.symm
  have hsp : v.space = u.space := congrArg Prod.fst hk
  have hst := congrArg Prod.snd hk
  rw [← hsp]
  exact I.dead j v hv (of_decide_eq_true (hst.trans (decide_eq_true hs)))

/-- Who is whose child, and a wake-up, do not matter. -/
theorem leave_spec (h : leave s pid t = .ok s') :
    s'.frames = s.frames ∧ s'.kpde = s.kpde ∧
      ∀ i, (s'.task_bucket i).map key = (s.task_bucket i).map key := by
  set adopt : Tcb → Tcb := fun child =>
    if child.ppid = pid then { child with ppid := t.ppid } else child
  have hkey : ∀ u, key (adopt u) = key u := by
    intro u
    show key (if _ then _ else _) = _
    split_ifs <;> rfl
  have hmap : ∀ i, ((s.task_bucket i).map adopt).map key = (s.task_bucket i).map key := by
    intro i
    cases s.task_bucket i with
    | none => rfl
    | some u => exact congrArg some (hkey u)
  obtain ⟨parent, hp, h⟩ := bind_eq_ok.1 h
  have hpar : (s.task_bucket t.ppid).map adopt = some parent := by
    cases hb : (s.task_bucket t.ppid).map adopt with
    | none =>
      rw [show deref _ _ = deref _ ((s.task_bucket t.ppid).map adopt) from rfl, hb] at hp
      cases hp
    | some u =>
      rw [show deref _ _ = deref _ ((s.task_bucket t.ppid).map adopt) from rfl, hb] at hp
      cases hp
      rfl
  cases hst : parent.state with
  | waiting child =>
    simp only [hst] at h
    split_ifs at h
    · cases h
      refine ⟨rfl, rfl, fun i => ?_⟩
      by_cases hi : i = t.ppid
      · simp only [set, hi, update_self]
        rw [← hmap, hpar]
        simp [key, hst]
      · simp only [set, update_of_ne hi]
        exact hmap i
    · cases h
      exact ⟨rfl, rfl, hmap⟩
  | _ =>
    simp only [hst] at h
    cases h
    exact ⟨rfl, rfl, hmap⟩

/-- A parent that waits for the child is woken up. -/
theorem leave_wakes {parent : Tcb} (pid child : Pid) (hp : s.task_bucket t.ppid = some parent)
    (hst : parent.state = .waiting child) (hw : parent.waitpid = -1 ∨ parent.waitpid = (pid : ℤ)) :
    ∃ s' u, leave s pid t = .ok s' ∧ s'.task_bucket t.ppid = some u ∧ u.state = .resumed child ∧
      u.space = parent.space := by
  unfold leave
  by_cases hpp : parent.ppid = pid
  · simp only [hp, Option.map_some, if_pos hpp, deref_some, ok_bind, hst, if_pos hw, pure_eq_ok]
    exact ⟨_, _, rfl, update_self .., rfl, rfl⟩
  · simp only [hp, Option.map_some, if_neg hpp, deref_some, ok_bind, hst, if_pos hw, pure_eq_ok]
    exact ⟨_, _, rfl, update_self .., rfl, rfl⟩

theorem getTask_spec (h : getTask s = .ok pid) : s.task_bucket pid = none := by
  unfold getTask at h
  cases hf : (List.finRange taskNum).find? fun pid => (s.task_bucket pid).isNone with
  | none =>
    rw [hf] at h
    cases h
  | some i =>
    rw [hf] at h
    cases h
    have hi := List.find?_some hf
    exact Option.isNone_iff_eq_none.1 hi

end

/-! ## Effects of the steps -/

/-- The page of an address of a task. -/
structure OfAddr (y : Frames.Page) (pid : Pid) (vaddr : ℕ) : Prop where
  pid : y.1 = pid
  didx : didx vaddr = firstDidx + y.2.1
  tidx : tidx vaddr = y.2.2

theorem exists_ofAddr (pid : Pid) {vaddr : ℕ} (h : UserAddr vaddr) : ∃ y, OfAddr y pid vaddr := by
  unfold UserAddr at h
  simp only [kernelMemerySize] at h
  have hd : didx vaddr - firstDidx < 1023 - firstDidx := by
    simp only [didx, firstDidx, kernelMemerySize]
    omega
  have ht : tidx vaddr < 1024 := Nat.mod_lt _ (by decide)
  refine ⟨(pid, ⟨didx vaddr - firstDidx, hd⟩, ⟨tidx vaddr, ht⟩), rfl, ?_, rfl⟩
  simp only [didx, firstDidx, kernelMemerySize]
  omega

/-- What a step does to the contents of the pages. -/
def Effect (P P' : Frames.Page → Option Bytes) : TaskAct → Prop
  | .fork pid child => P' = fun y => if y.1 = child then P (pid, y.2) else P y
  | .exit pid | .exitEnd pid => P' = fun y => if y.1 = pid then none else P y
  | .brk pid _ => ∀ y, P' y = P y ∨ y.1 = pid ∧ P' y = none
  | .test _ => True
  | .fault pid _ _ => ∀ y, P' y = P y ∨ y.1 = pid ∧ P y = none
  | .store pid vaddr b => ∃ y bs, OfAddr y pid vaddr ∧ P y = some bs ∧
      P' = update P y (some (update bs (vaddr % pageSize) b))
  | _ => P' = P

section
variable {s s' : Tasks} {pid child : Pid} {t : Tcb} {space : Space} {m : Frames} {y : Frames.Page}
  {vaddr : ℕ}

theorem At.dirs_eq {o : Option Space} (h : s.At pid t o) :
    s.dirs pid = o.elim (fun _ => 0) Space.pde := by
  rw [dirs_of_some h.1, h.2.2]

/-- The processor finds what is held. -/
theorem walk_eq {dirs : Dirs} {pde : ℕ → ℕ} (hy : OfAddr y pid vaddr) (hd : dirs pid = pde) :
    m.walk pde vaddr =
      (m.held dirs (Frames.ent y)).map fun c => (c.1, entWrite (pde (didx vaddr)) && c.2) := by
  obtain ⟨rfl, hx, ht⟩ := hy
  have hh : m.held dirs (Frames.ent y) =
      (tableOf (pde (didx vaddr))).bind fun pte => pteOf (m.entry pte (tidx vaddr)) := by
    rw [hx, ht, ← hd]
    rfl
  rw [hh, Frames.walk]
  cases tableOf (pde (didx vaddr)) with
  | none => rfl
  | some pte => rfl

theorem MemInv.create {parent : Option Pid} (I : s.MemInv) (h : taskCreate s parent = .ok s') :
    s'.MemInv ∧ s'.pages = s.pages := by
  obtain ⟨pid, hp, h⟩ := bind_eq_ok.1 h
  cases h
  refine I.same _ rfl rfl ?_ (I.dead_set fun _ => rfl)
  rw [dirs_set, Option.bind_some, Option.elim_none, ← dirs_of_none (getTask_spec hp), update_eq_self]

theorem MemInv.toUser (I : s.MemInv) (ha : s.At pid t none) (h : kernelToUser s pid t = .ok s') :
    s'.MemInv ∧ s'.pages = s.pages := by
  obtain ⟨vmap, -, h⟩ := bind_eq_ok.1 h
  rw [Frames.copyPde_of_absent I.noTable] at h
  cases h
  have hh : ∀ d, s.frames.held (update s.dirs pid s.kpde) (pid, d, none) = none := by
    intro d
    simp only [Frames.held, Frames.slot, update_self, tableOf_of_absent (I.noTable d),
      Option.map_none]
  have hsame : s.frames.held (update s.dirs pid s.kpde) = s.frames.held s.dirs := by
    ext1 ⟨j, d, o⟩
    by_cases hj : j = pid
    · rw [hj, Frames.held_none (hh d), Frames.held_none (held_of_dirs _ ha.dirs_eq d)]
    · simp only [Frames.held, update_of_ne hj]
  have hst : t.state ≠ .died := by
    rw [ha.2.1]
    simp
  refine I.goes (m := s.frames) _ ?_ rfl rfl (I.dead_set fun hd => absurd hd hst)
  rw [dirs_set]
  exact ⟨hsame ▸ I.ok, rfl, rfl, by rw [Frames.pages, Option.bind_some, Option.elim_some, hsame]; rfl⟩

theorem MemInv.fork (I : s.MemInv) (ha : s.At pid t (some space))
    (h : sysFork s pid t space = .ok (s', child)) :
    s'.MemInv ∧ s'.pages = fun y => if y.1 = child then s.pages (pid, y.2) else s.pages y := by
  obtain ⟨c, hc, h⟩ := bind_eq_ok.1 h
  obtain ⟨⟨m, pde⟩, hm, h⟩ := bind_eq_ok.1 h
  cases h
  have hfree := getTask_spec hc
  have hne : pid ≠ child := by
    rintro rfl
    rw [ha.1] at hfree
    cases hfree
  have hd : s.dirs pid = space.pde := ha.dirs_eq
  have G := I.ok.copyPde hne (held_of_dirs _ (dirs_of_none hfree)) (hd ▸ hm)
  refine I.goes (m := m) _ ?_ rfl rfl (I.dead_set fun h => nomatch h)
  rw [dirs_set]
  exact G

theorem MemInv.exit (I : s.MemInv) (ha : s.At pid t (some space))
    (h : sysExit s pid t space = .ok s') :
    s'.MemInv ∧ s'.pages = fun y => if y.1 = pid then none else s.pages y := by
  obtain ⟨m, hm, h⟩ := bind_eq_ok.1 h
  obtain ⟨hf, hk, hkey⟩ := leave_spec h
  have hd : s.dirs pid = space.pde := ha.dirs_eq
  have G := I.ok.freePde (p := pid) (hd ▸ hm)
  have I₁ := I.goes (m := m) { s.set pid (some { t with state := .died, space := none }) with
    frames := m } (by
      show Frames.Goes _ _ _ (s.set pid _).dirs _
      rw [dirs_set]
      exact G) rfl rfl (I.dead_set fun _ => rfl)
  obtain ⟨I₂, hp⟩ := I₁.1.same _ hf hk (dirs_of_key hkey) (I₁.1.dead_key hkey)
  exact ⟨I₂, hp.trans I₁.2⟩

theorem MemInv.threadExit (I : s.MemInv) (ha : s.At pid t none)
    (h : kernelThreadExit s pid t = .ok s') : s'.MemInv ∧ s'.pages = s.pages := by
  obtain ⟨hf, hk, hkey⟩ := leave_spec h
  have I₁ := I.same (s.set pid (some { t with state := .died })) rfl rfl
    (dirs_set_eq ha.1 rfl) (I.dead_set fun _ => ha.2.2)
  obtain ⟨I₂, hp⟩ := I₁.1.same _ hf hk (dirs_of_key hkey) (I₁.1.dead_key hkey)
  exact ⟨I₂, hp.trans I₁.2⟩

/-- A dead task is taken out of the table. -/
theorem MemInv.reap (I : s.MemInv) (child : Pid)
    (hc : ∀ u, s.task_bucket child = some u → u.state = .died) :
    (s.set child none).MemInv ∧ (s.set child none).pages = s.pages := by
  refine I.same _ rfl rfl ?_ fun j u hu hd => ?_
  · have h0 : s.dirs child = fun _ => 0 := by
      cases hb : s.task_bucket child with
      | none => exact dirs_of_none hb
      | some u => rw [dirs_of_some hb, I.dead child u hb (hc u hb), Option.elim_none]
    rw [dirs_set, Option.bind_none, Option.elim_none, ← h0, update_eq_self]
  · by_cases hj : j = child
    · simp only [set, hj, update_self] at hu
      cases hu
    · simp only [set, update_of_ne hj] at hu
      exact I.dead j u hu hd

theorem MemInv.waitpid (I : s.MemInv) {o : Option Space} (ha : s.At pid t o) (arg : ℤ) :
    (sysWaitpid s pid t arg).MemInv ∧ (sysWaitpid s pid t arg).pages = s.pages := by
  unfold sysWaitpid
  cases findChild s pid arg with
  | none => exact I.same _ rfl rfl rfl I.dead
  | some i =>
    simp only
    split_ifs with hd
    · refine I.reap i fun u hu => ?_
      rw [hu] at hd
      exact of_decide_eq_true hd
    · exact I.same _ rfl rfl (dirs_set_eq ha.1 rfl) (I.dead_set fun h => nomatch h)

theorem MemInv.freeTask (I : s.MemInv) (ht : s.task_bucket pid = some t)
    (hst : t.state = .resumed child)
    (hc : ∀ u, s.task_bucket child = some u → u.state = .died) :
    (freeTask s pid t child).MemInv ∧ (freeTask s pid t child).pages = s.pages := by
  have hne : child ≠ pid := by
    rintro rfl
    rw [hc t ht] at hst
    cases hst
  obtain ⟨I₁, hp₁⟩ := I.same (s.set pid (some { t with state := .ready })) rfl rfl
    (dirs_set_eq ht rfl) (I.dead_set fun h => nomatch h)
  obtain ⟨I₂, hp₂⟩ := I₁.reap child fun u hu => by
    simp only [set, update_of_ne hne] at hu
    exact hc u hu
  exact ⟨I₂, hp₂.trans hp₁⟩

/-- A task has changed its space. -/
theorem MemInv.setSpace (I : s.MemInv) {o : Option Space} {r : Frames × Space}
    {P : Frames.Page → Option Bytes} (ha : s.At pid t o)
    (G : s.frames.Goes r.1 s.Handed (update s.dirs pid r.2.pde) P) :
    (s.setSpace pid t r).MemInv ∧ (s.setSpace pid t r).pages = P := by
  refine I.goes (m := r.1) _ ?_ rfl rfl (I.dead_set fun h => ?_)
  · show Frames.Goes _ _ _ (s.set pid _).dirs _
    rw [dirs_set]
    exact G
  · exact absurd (ha.2.1.symm.trans h) (by simp)

theorem MemInv.brkLoop {m m' : Frames} {own : ℕ → Prop} {dirs : Dirs} {task task' : Space}
    (H : m.Ok own (m.held dirs)) (hd : dirs pid = task.pde) (hy : OfAddr y pid vaddr) {fuel tmp : ℕ}
    (h : brkLoop m task vaddr fuel tmp = .ok (m', task')) :
    ∃ P, m.Goes m' own (update dirs pid task'.pde) P ∧
      ∀ z, P z = m.pages dirs z ∨ z.1 = pid ∧ P z = none := by
  induction fuel generalizing m dirs task tmp with
  | zero => cases h
  | succ fuel ih =>
    unfold Rdix.brkLoop at h
    by_cases hb : task.brk ≤ tmp
    · rw [if_pos hb] at h
      cases h
      rw [← hd, update_eq_self]
      exact ⟨_, ⟨H, rfl, rfl, rfl⟩, fun z => Or.inl rfl⟩
    · rw [if_neg hb] at h
      obtain ⟨⟨m₁, task₁⟩, h₁, h⟩ := bind_eq_ok.1 h
      obtain ⟨rfl, hx, ht⟩ := hy
      obtain ⟨G₁, -⟩ := H.unlinkPage hx ht hd h₁
      have H₁ : m₁.Ok own (m₁.held (update dirs y.1 task₁.pde)) := G₁.ok
      obtain ⟨P, G, hP⟩ := ih H₁ (update_self ..) h
      rw [update_idem] at G
      refine ⟨P, ⟨G.ok, G.start.trans G₁.start, G.total.trans G₁.total, G.pages⟩, fun z => ?_⟩
      rcases hP z with hz | hz
      · rw [hz, G₁.pages]
        by_cases hzy : z = y
        · exact Or.inr ⟨by rw [hzy], by rw [hzy]; exact update_self ..⟩
        · exact Or.inl (update_of_ne hzy _ _)
      · exact Or.inr hz

theorem MemInv.brk {brk : ℕ} {r : Frames × Space} (I : s.MemInv) (ha : s.At pid t (some space))
    (hc : brk < space.brk → UserAddr brk) (h : sysBrk s.frames space brk = .ok r) :
    (s.setSpace pid t r).MemInv ∧ Effect s.pages (s.setSpace pid t r).pages (.brk pid brk) := by
  have hd : s.dirs pid = space.pde := ha.dirs_eq
  obtain ⟨-, h⟩ := cassert_bind_eq_ok.1 h
  by_cases hlt : brk < space.brk
  · rw [if_pos hlt] at h
    obtain ⟨⟨m, task⟩, hl, h⟩ := bind_eq_ok.1 h
    cases h
    obtain ⟨y, hy⟩ := exists_ofAddr pid (hc hlt)
    obtain ⟨P, G, hP⟩ := MemInv.brkLoop I.ok hd hy hl
    obtain ⟨I', hp⟩ := I.setSpace ha (r := (m, { task with brk := brk })) G
    exact ⟨I', hp ▸ hP⟩
  · rw [if_neg hlt] at h
    split_ifs at h with hfree
    cases h
    obtain ⟨I', hp⟩ := I.setSpace ha (r := (s.frames, { space with brk := brk })) (P := s.pages) (by
      rw [← hd, update_eq_self]
      exact ⟨I.ok, rfl, rfl, rfl⟩)
    exact ⟨I', hp ▸ fun _ => Or.inl rfl⟩

/-- A fault elsewhere is reported. -/
theorem userAddr_of_fault {present write : Bool} {r : Frames × Space}
    (h : pageFault m space vaddr present write = .ok r) : UserAddr vaddr := by
  unfold pageFault at h
  split_ifs at h with h1 h2 h3
  · exact ⟨h3.1, h3.2.trans_le (by norm_num)⟩
  · exact ⟨h3.1, h3.2.trans_le (by norm_num)⟩

/-- A fault maps the page of its address at most. -/
theorem MemInv.fault_page {write : Bool} {r : Frames × Space} (I : s.MemInv)
    (ha : s.At pid t (some space)) (hy : OfAddr y pid vaddr)
    (h : pageFault s.frames space vaddr (s.frames.walk space.pde vaddr).isSome write = .ok r) :
    (s.setSpace pid t r).MemInv ∧ ((s.setSpace pid t r).pages = s.pages ∨
      ∃ bs, s.pages y = none ∧ (s.setSpace pid t r).pages = update s.pages y (some bs)) := by
  have hd : s.dirs pid = space.pde := ha.dirs_eq
  have hw := walk_eq (m := s.frames) hy hd
  obtain ⟨rfl, hx, ht⟩ := hy
  obtain ⟨m, task⟩ := r
  unfold pageFault at h
  split_ifs at h with h1 h2 h3 h4 h5 h6
  · rw [hw, Option.isSome_map] at h5
    obtain ⟨⟨g, b⟩, hg⟩ := Option.isSome_iff_exists.1 h5
    obtain ⟨G, -⟩ := I.ok.writeFault hx ht hd hg h
    obtain ⟨I', hp⟩ := I.setSpace ha (r := (m, task)) G
    exact ⟨I', Or.inl hp⟩
  · obtain ⟨P, G, -, hP⟩ := I.ok.linkPage hx ht hd h
    obtain ⟨I', hp⟩ := I.setSpace ha (r := (m, task)) G
    refine ⟨I', ?_⟩
    rcases hP with rfl | ⟨bs, hn, rfl⟩
    · exact Or.inl hp
    · exact Or.inr ⟨bs, hn, hp⟩

theorem MemInv.fault {write : Bool} {r : Frames × Space} (I : s.MemInv)
    (ha : s.At pid t (some space))
    (h : pageFault s.frames space vaddr (s.frames.walk space.pde vaddr).isSome write = .ok r) :
    (s.setSpace pid t r).MemInv ∧
      Effect s.pages (s.setSpace pid t r).pages (.fault pid vaddr write) := by
  obtain ⟨y, hy⟩ := exists_ofAddr pid (userAddr_of_fault h)
  obtain ⟨I', hp⟩ := I.fault_page ha hy h
  refine ⟨I', fun z => ?_⟩
  rcases hp with hp | ⟨bs, hn, hp⟩
  · exact Or.inl (congrFun hp z)
  · by_cases hz : z = y
    · exact Or.inr ⟨by rw [hz, hy.pid], hz ▸ hn⟩
    · exact Or.inl ((congrFun hp z).trans (update_of_ne hz _ _))

theorem MemInv.store {f : ℕ} {b : BitVec 8} (I : s.MemInv) (ha : s.At pid t (some space))
    (hu : UserAddr vaddr) (hf : s.frames.walk space.pde vaddr = some (f, true)) :
    ({ s with frames := s.frames.writeByte f vaddr b } : Tasks).MemInv ∧
      Effect s.pages ({ s with frames := s.frames.writeByte f vaddr b } : Tasks).pages
        (.store pid vaddr b) := by
  have hd : s.dirs pid = space.pde := ha.dirs_eq
  obtain ⟨y, hy⟩ := exists_ofAddr pid hu
  rw [walk_eq hy hd] at hf
  obtain ⟨⟨g, w⟩, hg, he⟩ := Option.map_eq_some_iff.1 hf
  obtain ⟨rfl, hw⟩ := Prod.mk.inj he
  obtain rfl : w = true := (Bool.and_eq_true_iff.1 hw).2
  have G := I.ok.write hg (update (s.frames.data g) (vaddr % pageSize) b)
  obtain ⟨I', hp⟩ := I.goes { s with frames := s.frames.writeByte g vaddr b } G rfl rfl I.dead
  exact ⟨I', y, _, hy, Cow.view_of_held _ hg, hp⟩

theorem MemInv.test {r : Frames × Space} (I : s.MemInv) (ha : s.At pid t (some space))
    (h : sysTest s.frames space = .ok r) : (s.setSpace pid t r).MemInv := by
  have hu : UserAddr 0x1600000 := ⟨by simp [kernelMemerySize], by simp⟩
  obtain ⟨y, hy⟩ := exists_ofAddr pid hu
  have hy' : OfAddr y pid 0x1600002 := ⟨hy.pid, hy.didx, hy.tidx⟩
  obtain ⟨rfl, hx, ht⟩ := hy
  obtain ⟨⟨m₁, task₁⟩, h₁, h⟩ := bind_eq_ok.1 h
  obtain ⟨c, h₂, h⟩ := bind_eq_ok.1 h
  obtain ⟨m₂, task₂⟩ := r
  obtain ⟨P, G, -⟩ := I.ok.linkPage hx ht ha.dirs_eq h₁
  have hw := walk_eq (m := m₁) hy' (update_self y.1 task₁.pde s.dirs)
  cases hg : m₁.held (update s.dirs y.1 task₁.pde) (Frames.ent y) with
  | none =>
    rw [hw, hg] at h₂
    cases h₂
  | some e =>
    rw [hw, hg] at h₂
    cases h₂
    have hh := G.ok.held_write hg (update (m₁.data e.1) (0x1600002 % pageSize) 88#8)
    have H₂ : (m₁.writeByte e.1 0x1600002 88#8).Ok s.Handed
        ((m₁.writeByte e.1 0x1600002 88#8).held (update s.dirs y.1 task₁.pde)) :=
      ⟨hh.symm ▸ G.ok.counted, G.ok.total⟩
    obtain ⟨⟨H₃, hs, hT, hp⟩, -⟩ := H₂.unlinkPage hx ht (update_self ..) h
    rw [update_idem] at H₃ hp
    exact (I.setSpace ha (r := (m₂, task₂)) ⟨H₃, hs.trans G.start, hT.trans G.total, hp⟩).1

/-- The page tables are at no user address. -/
theorem not_userAddr_table {d : UserDidx} (h : vaddr / 4096 = 0xffc00 + (firstDidx + d)) :
    ¬ UserAddr vaddr := by
  rintro ⟨-, hlt⟩
  omega

theorem not_userAddr_dir {d : UserDidx} (h : vaddr / 4 = 0xfffff000 / 4 + (firstDidx + d)) :
    ¬ UserAddr vaddr := by
  rintro ⟨-, hlt⟩
  omega

/-- **Every careful step keeps the invariant** and has its effect. -/
theorem MemInv.step {a : TaskAct} (I : s.MemInv) (N : s.NoneLeft) (hc : s.Careful a)
    (h : TaskStep s a s') : s'.MemInv ∧ Effect s.pages s'.pages a := by
  cases h with
  | create h => exact I.create h
  | toUser ha h => exact I.toUser ha h
  | fork ha h => exact I.fork ha h
  | exit ha h => exact I.exit ha h
  | exitBlock _ => exact absurd hc not_false
  | exitWait ht hst _ _ _ => exact absurd hst (not_or.2 (N _ _ ht))
  | exitEnd ht hst _ _ => exact absurd hst (N _ _ ht).1
  | threadExit ha h => exact I.threadExit ha h
  | waitpid ha => exact I.waitpid ha _
  | wakeup ht hst => exact I.freeTask ht hst hc
  | brk hr _ h => exact I.brk (hr.at N) (hc _ _ (hr.at N)) h
  | test ha h => exact ⟨I.test ha h, trivial⟩
  | fault hr _ _ h => exact I.fault (hr.at N) h
  | store hr hu hf => exact I.store (hr.at N) hu hf
  | storeTable _ hv _ => exact absurd hc (not_userAddr_table hv)
  | storeDir _ hv => exact absurd hc (not_userAddr_dir hv)

/-- It holds after booting. -/
theorem MemInv.of_booted (h : Booted s) : s.MemInv := by
  have hd : ∀ pid, s.dirs pid = fun _ => 0 := fun pid => dirs_of_none (h.noTask pid)
  have hn : ∀ x w f, s.frames.held s.dirs x ≠ some (f, w) := by
    rintro ⟨pid, d, o⟩ w f hx
    rw [Frames.held_none (held_of_dirs _ (hd pid) d)] at hx
    cases hx
  refine ⟨⟨⟨fun f hf => ?_, fun x f w hx => absurd hx (hn x w f), fun f ha h0 => ?_,
    fun x f hx => absurd hx (hn x true f), fun i j s t f w v hi => absurd hi (hn _ w f)⟩, h.total⟩,
    h.noTable, fun pid t ht => ?_⟩
  · rw [Cow.refs_eq_zero fun x w => hn x w f]
    exact (h.used f hf.1).2 hf.2
  · exact ⟨ha, (h.used f ha).1 h0⟩
  · rw [h.noTask pid] at ht
    cases ht

theorem noneLeft_reach (h : (taskSys.restrict Careful).Reach s) : s.NoneLeft := by
  refine Sys.Reach.invariant (S := taskSys.restrict Careful) (I := NoneLeft) ?_ ?_ h
  · intro s hi
    exact noneLeft_of_booted hi
  · intro s a s' N hst
    exact N.step hst.1 hst.2

theorem memInv_reach (h : (taskSys.restrict Careful).Reach s) : s.MemInv := by
  have hI : s.MemInv ∧ s.NoneLeft := by
    refine Sys.Reach.invariant (S := taskSys.restrict Careful)
      (I := fun s => s.MemInv ∧ s.NoneLeft) ?_ ?_ h
    · intro s hi
      exact ⟨.of_booted hi, noneLeft_of_booted hi⟩
    · intro s a s' I hst
      exact ⟨(I.1.step I.2 hst.1 hst.2).1, I.2.step hst.1 hst.2⟩
  exact hI.1

end

/-! ## Counts -/

/-- The holders of a frame, counted by kind. -/
theorem refs_held (s : Tasks) (f : ℕ) :
    Cow.refs (s.frames.held s.dirs) f = s.mapCount f + s.tableCount f := by
  refine (Cow.card_filter_option _).trans (congrArg (s.mapCount f + ·) ?_)
  refine congrArg Finset.card (Finset.filter_congr fun x _ => ?_)
  show ((tableOf _).map _).map _ = _ ↔ _
  rw [Option.map_map]
  exact Option.map_id ▸ Iff.rfl

/-- Without tables nothing is counted. -/
theorem counts_of_absent {s : Tasks}
    (h : ∀ pid (d : UserDidx), entPresent (s.dirs pid (firstDidx + d)) = false) (f : ℕ) :
    s.mapCount f = 0 ∧ s.tableCount f = 0 := by
  have hn : ∀ x w, s.frames.held s.dirs x ≠ some (f, w) := by
    rintro ⟨pid, d, o⟩ w hx
    rw [Frames.held_none (by simp only [Frames.held, Frames.slot, tableOf_of_absent (h pid d),
      Option.map_none])] at hx
    cases hx
  have := s.refs_held f
  rw [Cow.refs_eq_zero hn] at this
  omega

end Tasks

/-- **Main result.** In every run in which `sys_waitpid` frees only dead children, `sys_brk` lowers
    the break only to user addresses, no `sys_exit` is suspended and stores go to user addresses,
    the count of each frame that `get_p_page` can hand out is exact, it does not overflow, and
    `get_p_page` returns no frame in use. -/
theorem refs_exact {s : Tasks} (h : (taskSys.restrict Tasks.Careful).Reach s) :
    (∀ f, s.Handed f →
      s.frames.p_bit_map f = s.mapCount f + s.tableCount f ∧ s.frames.p_bit_map f ≤ taskNum) ∧
    ∀ m f, getPPage s.frames = .ok (m, f) → s.mapCount f = 0 ∧ s.tableCount f = 0 := by
  have I := Tasks.memInv_reach h
  constructor
  · intro f hf
    refine ⟨(I.ok.counted.count f hf).trans (s.refs_held f), ?_⟩
    exact (I.ok.counted.le_card hf).trans_eq (Fintype.card_fin _)
  · intro m f hm
    obtain ⟨ha, h0, -⟩ := getPPage_spec hm
    have hc := I.ok.counted.count f (I.ok.counted.free f ha h0)
    rw [h0, s.refs_held f] at hc
    omega

/-! ## A run -/

section Run

/-- 32 MiB of memory after booting. -/
def boot : Tasks where
  frames :=
    { start := 258, total := 8192, p_bit_map := fun f => if f < 4096 then 1 else 0
      free_pages := 7934, data := fun _ _ => 0#8 }
  kpde k := if k < 4 then entryInit (k + 2) else if k = 1023 then entryInit 1 else 0
  task_bucket _ := none

def idle : Tcb := { ppid := 0, waitpid := 0, state := .ready, space := none }

/-- The space of a user task that has not touched a page. -/
def freshSpace : Space := { pde := boot.kpde, vmap := stackMap, brk := kernelMemerySize }

def user (ppid : Pid) : Tcb := { idle with ppid := ppid, space := some freshSpace }

/-- Task 1 is a user task. -/
def oneUser : Tasks := ((boot.set 0 (some idle)).set 1 (some idle)).set 1 (some (user 0))

/-- It has two children. -/
def twoChildren : Tasks := (oneUser.set 2 (some (user 1))).set 3 (some (user 1))

theorem boot_absent (d : UserDidx) : entPresent (boot.kpde (firstDidx + d)) = false := by
  have := d.isLt
  simp only [firstDidx, kernelMemerySize] at this
  have h0 : boot.kpde (firstDidx + d) = 0 := by
    simp only [boot, firstDidx, kernelMemerySize]
    rw [if_neg (by omega), if_neg (by omega)]
  rw [h0]
  rfl

theorem booted_boot : Booted boot := by
  refine ⟨by decide, fun f _ => ?_, boot_absent, fun _ => rfl⟩
  have h4 : tableOf (boot.kpde 4) = none := rfl
  rw [h4]
  simp [boot]

theorem reach_oneUser : (taskSys.restrict fun _ a => a.Plain ∧ a.InBounds).Reach oneUser := by
  have h₀ : (taskSys.restrict fun _ a => a.Plain ∧ a.InBounds).Reach boot := .init booted_boot
  have h₁ : (taskSys.restrict fun _ a => a.Plain ∧ a.InBounds).Reach (boot.set 0 (some idle)) :=
    h₀.step (a := .create none) ⟨⟨trivial, trivial⟩, .create rfl⟩
  have h₂ : (taskSys.restrict fun _ a => a.Plain ∧ a.InBounds).Reach
      ((boot.set 0 (some idle)).set 1 (some idle)) :=
    h₁.step (a := .create none) ⟨⟨trivial, trivial⟩, .create rfl⟩
  exact h₂.step (a := .toUser 1) ⟨⟨trivial, trivial⟩, .toUser ⟨rfl, rfl, rfl⟩ (kernelToUser_eq boot_absent)⟩

theorem at_oneUser : oneUser.At 1 (user 0) (some freshSpace) := ⟨rfl, rfl, rfl⟩

theorem fork_oneUser : TaskStep oneUser (.fork 1 2) (oneUser.set 2 (some (user 1))) :=
  .fork at_oneUser (sysFork_eq boot_absent rfl)

theorem reach_twoChildren : (taskSys.restrict fun _ a => a.Plain ∧ a.InBounds).Reach twoChildren := by
  have h₁ : (taskSys.restrict fun _ a => a.Plain ∧ a.InBounds).Reach (oneUser.set 2 (some (user 1))) :=
    .step (a := .fork 1 2) reach_oneUser ⟨⟨trivial, trivial⟩, fork_oneUser⟩
  have h₂ : TaskStep (oneUser.set 2 (some (user 1))) (.fork 1 3) twoChildren :=
    .fork at_oneUser (sysFork_eq boot_absent rfl)
  exact h₁.step (a := .fork 1 3) ⟨⟨trivial, trivial⟩, h₂⟩

theorem walk_fresh (m : Frames) : m.walk freshSpace.pde 0x93ffffc = none := by
  rw [Frames.walk, show tableOf (freshSpace.pde (didx 0x93ffffc)) = none from rfl, Option.bind_none]

/-- The frames `f` and `f + 1` are the first free ones. -/
structure Unused (m : Frames) (f : ℕ) : Prop where
  start : m.start ≤ f
  total : f + 1 < m.total
  below : ∀ j < f, m.p_bit_map j ≠ 0
  first : m.p_bit_map f = 0
  second : m.p_bit_map (f + 1) = 0
  free_pages : 2 ≤ m.free_pages

/-- After the first access to a page for which there is no table: a page table and a page. -/
def linked (m : Frames) (f vaddr : ℕ) : Frames :=
  (((m.withCount f 1 (m.free_pages - 1)).fill f fun _ => 0#8).withCount (f + 1) 1
    (m.free_pages - 1 - 1)).setEntry f (tidx vaddr) (entryInit (f + 1))

/-- It takes two frames. -/
theorem linkPage_linked {m : Frames} {f vaddr : ℕ} {space : Space} (h : Unused m f)
    (hp : entPresent (space.pde (didx vaddr)) = false)
    (hb : bitmapTest space.vmap (vaddr / 4096) = .ok true) :
    linkPage m space vaddr = .ok (linked m f vaddr,
      { space with pde := update space.pde (didx vaddr) (entryInit f) }) := by
  have hfp := h.free_pages
  have hT := h.total
  have h₁ : getPPage m = .ok (m.withCount f 1 (m.free_pages - 1), f) :=
    getPPage_first (by omega) ⟨h.start, by omega⟩ (fun j _ hj => h.below j hj) h.first
  have h₂ : getPPage ((m.withCount f 1 (m.free_pages - 1)).fill f fun _ => 0#8) =
      .ok (((m.withCount f 1 (m.free_pages - 1)).fill f fun _ => 0#8).withCount (f + 1) 1
        (m.free_pages - 1 - 1), f + 1) := by
    refine getPPage_first ?_ ⟨?_, hT⟩ (fun j _ hj => ?_) ?_
    · show m.free_pages - 1 ≠ 0
      omega
    · show m.start ≤ f + 1
      have := h.start
      omega
    · show update m.p_bit_map f 1 j ≠ 0
      by_cases hj' : j = f
      · rw [hj', update_self]
        exact Nat.one_ne_zero
      · rw [update_of_ne hj']
        exact h.below j (by omega)
    · show update m.p_bit_map f 1 (f + 1) = 0
      rw [update_of_ne (by omega)]
      exact h.second
  exact Frames.linkPage_new hp h₁ hb h₂

/-- The page table has one entry. -/
theorem entry_linked (m : Frames) {f : ℕ} (hf : f + 1 < 2 ^ 20) (vaddr : ℕ) (t : Fin 1024) :
    (linked m f vaddr).entry f t = if (t : ℕ) = tidx vaddr then entryInit (f + 1) else 0 := by
  by_cases ht : (t : ℕ) = tidx vaddr
  · rw [if_pos ht, linked, ← ht]
    exact Frames.entry_setEntry_self (entryInit_lt hf)
  · have ht' : tidx vaddr < 1024 := Nat.mod_lt _ (by decide)
    rw [if_neg ht, linked]
    refine (Frames.entry_setEntry_ne (t := ⟨tidx vaddr, ht'⟩)
      (Or.inr fun he => ht (congrArg Fin.val he))).trans ?_
    simp only [Frames.entry, Frames.fill, Frames.withCount, update_self]
    exact ByteMem.load_zero ..

/-- The processor finds the page. -/
theorem walk_linked {m : Frames} (m₀ : Frames) {pde : ℕ → ℕ} {f vaddr : ℕ} (hf : f + 1 < 2 ^ 20)
    (hd : pde (didx vaddr) = entryInit f)
    (he : m.entry f (tidx vaddr) = (linked m₀ f vaddr).entry f (tidx vaddr)) :
    m.walk pde vaddr = some (f + 1, true) := by
  have hlt : tidx vaddr < 1024 := Nat.mod_lt _ (by decide)
  have hw : entWrite (entryInit f) = true := (pteOf_eq_some.1 (pteOf_entryInit f)).2.2
  have ht := entry_linked m₀ hf vaddr ⟨tidx vaddr, hlt⟩
  rw [if_pos rfl] at ht
  rw [Frames.walk, hd, tableOf_entryInit, Option.bind_some, he, ht, pteOf_entryInit,
    Option.map_some, hw]
  rfl

/-- After the first access to the top of the stack. -/
def touched (m : Frames) (f : ℕ) : Frames := linked m f 0x93ffffc

def touchedSpace (f : ℕ) : Space :=
  { freshSpace with pde := update freshSpace.pde (didx 0x93ffffc) (entryInit f) }

set_option maxRecDepth 4000 in
theorem fault_touched {m : Frames} {f : ℕ} (h : Unused m f) (write : Bool) :
    pageFault m freshSpace 0x93ffffc (m.walk freshSpace.pde 0x93ffffc).isSome write =
      .ok (touched m f, touchedSpace f) := by
  have hb : bitmapTest freshSpace.vmap (0x93ffffc / 4096) = .ok true :=
    @bitmapTest_stackMap 0x93ffffc ⟨by decide, by decide⟩
  rw [walk_fresh, pageFault, if_neg (by decide), if_neg (by decide), if_neg (by decide),
    if_neg (by decide), if_pos (by decide)]
  exact linkPage_linked h rfl hb

theorem unused_boot : Unused boot.frames 4096 := by
  refine ⟨by decide, by decide, fun j hj => ?_, rfl, rfl, by decide⟩
  simp only [boot, if_pos hj]
  decide

theorem pde_touched (f : ℕ) : (touchedSpace f).pde (didx 0x93ffffc) = entryInit f := by
  rw [show (touchedSpace f).pde = update freshSpace.pde (didx 0x93ffffc) (entryInit f) from rfl,
    update_self]

/-- It has one table. -/
theorem pde_touched_absent (f : ℕ) (d : UserDidx) (hd : firstDidx + (d : ℕ) ≠ didx 0x93ffffc) :
    entPresent ((touchedSpace f).pde (firstDidx + d)) = false := by
  rw [show (touchedSpace f).pde = update freshSpace.pde (didx 0x93ffffc) (entryInit f) from rfl,
    update_of_ne hd]
  exact boot_absent d

/-- After the first access of task 1 to its stack. -/
theorem refs_exact_fault : ∃ s : Tasks, s.frames.p_bit_map 4096 = 1 ∧
    s.mapCount 4096 + s.tableCount 4096 = 1 := by
  have h₁ : (taskSys.restrict Tasks.Careful).Reach
      (oneUser.setSpace 1 (user 0) (touched boot.frames 4096, touchedSpace 4096)) :=
    .step (a := .fault 1 0x93ffffc true)
      (reach_oneUser.restrict_mono fun _ _ => Tasks.careful_of_plain)
      ⟨trivial, .fault at_oneUser.runs (congrArg (Option.elim · _ _) (walk_fresh _))
        (fun h => nomatch h) (fault_touched unused_boot true)⟩
  have hp : (touched boot.frames 4096).p_bit_map 4096 = 1 := by
    show update (update boot.frames.p_bit_map 4096 1) 4097 1 4096 = 1
    rw [update_of_ne (by decide), update_self]
  have hf : (oneUser.setSpace 1 (user 0) (touched boot.frames 4096, touchedSpace 4096)).Handed
      4096 := by
    refine ⟨⟨(by decide : 258 ≤ 4096), (by decide : 4096 < 8192)⟩, le_rfl, ?_⟩
    show tableOf (boot.kpde 4) ≠ _
    rw [show tableOf (boot.kpde 4) = none from rfl]
    simp
  exact ⟨_, hp, ((refs_exact h₁).1 4096 hf).1.symm.trans hp⟩

/-- **A live child is freed.** Task 1 waits for any child, so for child 2; child 3 exits, task 1
    goes on, and frees child 2 with its pages. -/
theorem refs_leak : ∃ s f, taskSys.Reach s ∧ s.Handed f ∧ s.frames.p_bit_map f = 1 ∧
    s.mapCount f = 0 ∧ s.tableCount f = 0 := by
  -- child 2 touches its stack, task 1 waits
  have hr := fault_touched unused_boot true
  set r := (touched boot.frames 4096, touchedSpace 4096) with hr'
  have hp : r.1.p_bit_map 4096 = 1 := by
    show update (update boot.frames.p_bit_map 4096 1) 4097 1 4096 = 1
    rw [update_of_ne (by decide), update_self]
  set s₁ := twoChildren.setSpace 2 (user 1) r with hs₁
  have h2 : twoChildren.At 2 (user 1) (some freshSpace) := ⟨rfl, rfl, rfl⟩
  have h₁ : taskSys.Reach s₁ :=
    .step reach_twoChildren.of_restrict (a := .fault 2 0x93ffffc true)
      (.fault h2.runs (congrArg (Option.elim · _ _) (walk_fresh _)) (fun h => nomatch h) hr)
  set s₂ := s₁.set 1 (some { user 0 with waitpid := -1, state := .waiting 2 }) with hs₂
  have h₂ : taskSys.Reach s₂ := by
    have hf : findChild s₁ 1 (-1) = some 2 := rfl
    have hw : sysWaitpid s₁ 1 (user 0) (-1) = s₂ := by
      rw [sysWaitpid, hf]
      rfl
    exact .step h₁ (a := .waitpid 1 (-1)) (hw ▸ .waitpid ⟨rfl, rfl, rfl⟩)
  -- child 3 exits
  obtain ⟨s₃, u, hl, hu, hst, hsp⟩ := Tasks.leave_wakes (t := user 1) 3 2
    (s := s₂.set 3 (some { user 1 with state := .died, space := none })) rfl rfl (Or.inl rfl)
  obtain ⟨hf, hk, hkey⟩ := Tasks.leave_spec hl
  have h₃ : taskSys.Reach s₃ := by
    have h3 : s₂.At 3 (user 1) (some freshSpace) := ⟨rfl, rfl, rfl⟩
    refine .step h₂ (a := .exit 3) (.exit h3 ?_)
    have habs : ∀ d : UserDidx, entPresent (freshSpace.pde (firstDidx + d)) = false := boot_absent
    rw [sysExit, exitRest, Frames.freePde_of_absent habs]
    exact hl
  -- task 1 frees child 2
  have h₄ : taskSys.Reach (freeTask s₃ 1 u 2) := .step h₃ (a := .wakeup 1 2) (.wakeup hu hst)
  have hframes : (freeTask s₃ 1 u 2).frames = r.1 := hf
  have hkpde : (freeTask s₃ 1 u 2).kpde = boot.kpde := hk
  refine ⟨_, 4096, h₄, ⟨?_, le_rfl, ?_⟩, hframes ▸ hp, Tasks.counts_of_absent ?_ 4096⟩
  · rw [hframes]
    exact ⟨(by decide : 258 ≤ 4096), (by decide : 4096 < 8192)⟩
  · rw [hkpde, show tableOf (boot.kpde 4) = none from rfl]
    simp
  · intro pid d
    have hd : (freeTask s₃ 1 u 2).dirs pid = (fun _ => 0) ∨
        (freeTask s₃ 1 u 2).dirs pid = boot.kpde := by
      rw [freeTask, Tasks.dirs_set, Tasks.dirs_set, Tasks.dirs_of_key hkey, Tasks.dirs_set]
      by_cases h2 : pid = 2
      · exact Or.inl (by rw [h2, update_self]; rfl)
      by_cases h1 : pid = 1
      · refine Or.inr ?_
        rw [h1, update_of_ne (by decide), update_self, Option.bind_some, hsp]
        rfl
      by_cases h3 : pid = 3
      · exact Or.inl (by rw [h3, update_of_ne (by decide), update_of_ne (by decide), update_self]; rfl)
      refine Or.inl ?_
      rw [update_of_ne h2, update_of_ne h1, update_of_ne h3, hs₂, Tasks.dirs_set, update_of_ne h1,
        hs₁, Tasks.setSpace, Tasks.dirs_set, update_of_ne h2]
      have hb : twoChildren.task_bucket pid = (boot.set 0 (some idle)).task_bucket pid := by
        simp only [twoChildren, oneUser, Tasks.set, update_of_ne h1, update_of_ne h2,
          update_of_ne h3]
      show ((twoChildren.task_bucket pid).bind Tcb.space).elim _ _ = _
      rw [hb]
      by_cases h0 : pid = 0
      · rw [h0]
        rfl
      · simp only [Tasks.set, update_of_ne h0]
        rfl
    rcases hd with hd | hd
    · rw [hd]
      rfl
    · rw [hd]
      exact boot_absent d

end Run

end Rdix
