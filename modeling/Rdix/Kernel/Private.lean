/-
  Private memories (kernel/memory.c: copy_pde, page_fault; kernel/task.c: sys_fork, sys_exit).

  * `private_memory`: each task reads its own memory; `sys_fork` copies it, and no step of one
    task changes what another reads;
  * `private_left`: a task whose exit was suspended goes on to store where another has its pages.
-/
import Rdix.Kernel.Isolation

namespace Rdix

open Function Transition

/-! ## Private memories -/

instance (vaddr : ℕ) : Decidable (UserAddr vaddr) := inferInstanceAs (Decidable (_ ∧ _))

/-- What a task reads at an address of its own. -/
def Tasks.mem (s : Tasks) (pid : Pid) (vaddr : ℕ) : Option (BitVec 8) :=
  if UserAddr vaddr then s.frames.readByte (s.dirs pid) vaddr else none

/-- The steps of tasks that have a memory each: `v` is what they read before, `v'` after. -/
def Private (v v' : Pid → ℕ → Option (BitVec 8)) : TaskAct → Prop
  | .fork pid child => v' = update v child (v pid)
  | .exit pid | .exitEnd pid => v' = update v pid fun _ => none
  | .brk pid _ => ∀ q ≠ pid, v' q = v q
  | .test _ => True
  | .fault pid _ _ => (∀ q ≠ pid, v' q = v q) ∧ ∀ a, v pid a ≠ none → v' pid a = v pid a
  | .store pid vaddr b => v' = update v pid (update (v pid) vaddr (some b))
  | _ => v' = v

namespace Tasks

section
variable {s s' : Tasks} {pid : Pid} {vaddr : ℕ} {y : Frames.Page}

theorem mem_eq (hu : UserAddr vaddr) (hy : OfAddr y pid vaddr) :
    s.mem pid vaddr = (s.pages y).map fun bs => bs (vaddr % pageSize) := by
  rw [mem, if_pos hu, Frames.readByte, walk_eq (m := s.frames) hy rfl, pages, Frames.pages,
    Function.comp_apply, Cow.view, Option.map_map, Option.map_map]
  rfl

theorem mem_of_not (hu : ¬ UserAddr vaddr) : s.mem pid vaddr = none := if_neg hu

/-- Memories agree where the pages do. -/
theorem mem_congr (h : ∀ d t, s'.pages (pid, d, t) = s.pages (pid, d, t)) :
    s'.mem pid = s.mem pid := by
  ext1 a
  by_cases hu : UserAddr a
  · obtain ⟨⟨i, d, t⟩, hy⟩ := exists_ofAddr pid hu
    obtain rfl : i = pid := hy.pid
    rw [mem_eq hu hy, mem_eq hu hy, h]
  · rw [mem_of_not hu, mem_of_not hu]

/-- An address is a page and an offset. -/
theorem OfAddr.eq_iff {z : Frames.Page} {a : ℕ} (hy : OfAddr y pid vaddr) (hz : OfAddr z pid a) :
    a = vaddr ↔ z = y ∧ a % pageSize = vaddr % pageSize := by
  obtain ⟨hp, hd, ht⟩ := hy
  obtain ⟨hp', hd', ht'⟩ := hz
  constructor
  · rintro rfl
    have hx : z.2.1 = y.2.1 := Fin.ext (by omega)
    have hu : z.2.2 = y.2.2 := Fin.ext (by omega)
    exact ⟨Prod.ext (hp'.trans hp.symm) (Prod.ext hx hu), rfl⟩
  · rintro ⟨rfl, hm⟩
    have h1 : a / 4096 / 1024 = vaddr / 4096 / 1024 := by
      rw [Nat.div_div_eq_div_mul, Nat.div_div_eq_div_mul]
      exact hd'.trans hd.symm
    have h2 : a / 4096 % 1024 = vaddr / 4096 % 1024 := ht'.trans ht.symm
    have h3 : a % 4096 = vaddr % 4096 := hm
    omega

/-- The memory of one task changes. -/
theorem mem_update {f : ℕ → Option (BitVec 8)} (h : ∀ y : Frames.Page, y.1 ≠ pid → s'.pages y = s.pages y)
    (hf : s'.mem pid = f) : s'.mem = update s.mem pid f := by
  ext1 q
  by_cases hq : q = pid
  · rw [hq, update_self, hf]
  · rw [update_of_ne hq]
    exact mem_congr fun d t => h (q, d, t) hq

theorem mem_gone (h : ∀ y, s'.pages y = if y.1 = pid then none else s.pages y) :
    s'.mem = update s.mem pid fun _ => none := by
  refine mem_update (fun y hy => (h y).trans (if_neg hy)) ?_
  ext1 a
  by_cases hu : UserAddr a
  · obtain ⟨y, hy⟩ := exists_ofAddr pid hu
    rw [mem_eq hu hy, h, if_pos hy.pid, Option.map_none]
  · rw [mem_of_not hu]

theorem mem_forked {child : Pid} (h : ∀ y, s'.pages y = if y.1 = child then s.pages (pid, y.2) else s.pages y) :
    s'.mem = update s.mem child (s.mem pid) := by
  refine mem_update (fun y hy => (h y).trans (if_neg hy)) ?_
  ext1 a
  by_cases hu : UserAddr a
  · obtain ⟨y, hy⟩ := exists_ofAddr child hu
    have hy' : OfAddr (pid, y.2) pid a := ⟨rfl, hy.didx, hy.tidx⟩
    rw [mem_eq hu hy, mem_eq hu hy', h, if_pos hy.pid]
  · rw [mem_of_not hu, mem_of_not hu]

theorem mem_put {b : BitVec 8} {bs : Bytes} (hv : UserAddr vaddr) (hy : OfAddr y pid vaddr)
    (hbs : s.pages y = some bs)
    (h : s'.pages = update s.pages y (some (update bs (vaddr % pageSize) b))) :
    s'.mem = update s.mem pid (update (s.mem pid) vaddr (some b)) := by
  refine mem_update (fun z hz => ?_) ?_
  · rw [h, update_of_ne]
    rintro rfl
    exact hz hy.pid
  ext1 a
  by_cases hu : UserAddr a
  · obtain ⟨z, hz⟩ := exists_ofAddr pid hu
    have hiff := hy.eq_iff hz
    rw [mem_eq hu hz, h]
    by_cases hav : a = vaddr
    · obtain ⟨hzy, hm⟩ := hiff.1 hav
      rw [hav, update_self, hzy, update_self, Option.map_some, update_self]
    · rw [update_of_ne hav, mem_eq hu hz]
      by_cases hzy : z = y
      · have hm : a % pageSize ≠ vaddr % pageSize := fun hm => hav (hiff.2 ⟨hzy, hm⟩)
        rw [hzy, update_self, hbs, Option.map_some, Option.map_some, update_of_ne hm]
      · rw [update_of_ne hzy]
  · have hav : a ≠ vaddr := fun hav => hu (hav ▸ hv)
    rw [update_of_ne hav, mem_of_not hu, mem_of_not hu]

/-- **The effect of a step on the pages is that of a step on private memories.** -/
theorem private_of_effect {a : TaskAct} (h : Effect s.pages s'.pages a)
    (hs : a.InBounds) : Private s.mem s'.mem a := by
  have hsame : s'.pages = s.pages → s'.mem = s.mem := by
    intro he
    ext1 q
    exact mem_congr fun d t => congrFun he _
  cases a with
  | fork p c => exact mem_forked (congrFun h)
  | exit p => exact mem_gone (congrFun h)
  | exitEnd p => exact mem_gone (congrFun h)
  | brk p b =>
    intro q hq
    exact mem_congr fun d t => (h (q, d, t)).resolve_right fun hn => hq hn.1
  | test p => exact trivial
  | fault p va w =>
    constructor
    · intro q hq
      exact mem_congr fun d t => (h (q, d, t)).resolve_right fun hn => hq hn.1
    · intro a ha
      by_cases hu : UserAddr a
      · obtain ⟨y, hy⟩ := exists_ofAddr p hu
        rw [mem_eq hu hy] at ha ⊢
        rcases h y with he | ⟨-, hn⟩
        · rw [mem_eq hu hy, he]
        · rw [hn] at ha
          exact absurd rfl ha
      · exact absurd (mem_of_not hu) ha
  | store p va b =>
    obtain ⟨y, bs, hy, hbs, he⟩ := h
    exact mem_put hs hy hbs he
  | create parent => exact hsame h
  | toUser p => exact hsame h
  | exitBlock p => exact hsame h
  | threadExit p => exact hsame h
  | waitpid p arg => exact hsame h
  | wakeup p c => exact hsame h

end

end Tasks

/-- **Main result.** In every run of user tasks that are created, fork, exit, and read, write and
    fault, each task has a memory of its own, if no exit is suspended and all stores go to user
    addresses: a fork copies it, a write changes one byte of the writer's, a fault keeps what is
    there, and nobody else reads a difference. -/
theorem private_memory {s s' : Tasks} {a : TaskAct}
    (h : (taskSys.restrict fun _ a => a.Plain ∧ a.InBounds).Reach s) (ha : a.Plain ∧ a.InBounds)
    (hs : taskSys.step s a s') : Private s.mem s'.mem a := by
  have hr := h.restrict_mono (D := Tasks.Careful) fun _ _ => Tasks.careful_of_plain
  have I := Tasks.memInv_reach hr
  exact Tasks.private_of_effect
    (I.step (Tasks.noneLeft_reach hr) (Tasks.careful_of_plain ha) hs).2 ha.2

/-! ## Two user tasks -/

section Run

variable {s : Tasks} {pid : Pid} {t : Tcb}

/-- Who has no child, and whose parent does not wait, leaves nothing to do. -/
theorem leave_alone (h : ∀ i c, s.task_bucket i = some c → c.ppid ≠ pid) {parent : Tcb}
    (hp : s.task_bucket t.ppid = some parent) (hst : parent.state = .ready) :
    leave s pid t = .ok s := by
  have hmap : (fun i => (s.task_bucket i).map fun child : Tcb =>
      if child.ppid = pid then { child with ppid := t.ppid } else child) = s.task_bucket := by
    ext1 i
    cases hc : s.task_bucket i with
    | none => rfl
    | some c => rw [Option.map_some, if_neg (h i c hc)]
  have hne := h _ parent hp
  unfold leave
  simp only [hmap, hp, Option.map_some, if_neg hne, deref_some, ok_bind, hst]
  rfl

/-- Tasks 1 and 2 are user tasks. -/
def twoUsers : Tasks :=
  ((((boot.set 0 (some idle)).set 1 (some idle)).set 2 (some idle)).set 1 (some (user 0))).set 2
    (some (user 0))

/-- A user task that has touched its stack. -/
def toucher : Tcb := { user 0 with space := some (touchedSpace 4096) }

/-- Task 1 has touched its stack, and stored `b` there. -/
def stored (b : BitVec 8) : Tasks :=
  let s := twoUsers.setSpace 1 (user 0) (touched boot.frames 4096, touchedSpace 4096)
  { s with frames := s.frames.writeByte 4097 0x93ffffc b }

theorem data_stored (b : BitVec 8) : (stored b).frames.data = update (touched boot.frames 4096).data 4097
    (update ((touched boot.frames 4096).data 4097) (0x93ffffc % pageSize) b) := rfl

theorem counts_stored (b : BitVec 8) :
    (stored b).frames.p_bit_map = update (update boot.frames.p_bit_map 4096 1) 4097 1 := rfl

theorem entry_stored (b : BitVec 8) (t : Fin 1024) : (stored b).frames.entry 4096 t =
    if (t : ℕ) = tidx 0x93ffffc then entryInit 4097 else 0 := by
  rw [← entry_linked boot.frames (by decide), Frames.entry, data_stored,
    update_of_ne (by decide), touched, Frames.entry]

theorem at_stored (b : BitVec 8) : (stored b).At 1 toucher (some (touchedSpace 4096)) :=
  ⟨rfl, rfl, rfl⟩

theorem step_touch : TaskStep twoUsers (.fault 1 0x93ffffc true)
    (twoUsers.setSpace 1 (user 0) (touched boot.frames 4096, touchedSpace 4096)) :=
  .fault ⟨rfl, Or.inl rfl, rfl⟩ (congrArg (Option.elim · _ _) (walk_fresh _)) (fun h => nomatch h)
    (fault_touched unused_boot true)

theorem step_store (b : BitVec 8) :
    TaskStep (twoUsers.setSpace 1 (user 0) (touched boot.frames 4096, touchedSpace 4096))
      (.store 1 0x93ffffc b) (stored b) :=
  .store (t := toucher) ⟨rfl, Or.inl rfl, rfl⟩ ⟨by decide, by decide⟩
    (walk_linked _ (by decide) (pde_touched 4096) rfl)

theorem plain_step {s s' : Tasks} {a : TaskAct}
    (h : (taskSys.restrict fun _ a => a.Plain ∧ a.InBounds).Reach s) (hs : TaskStep s a s')
    (ha : a.Plain) (hb : a.InBounds) :
    (taskSys.restrict fun _ a => a.Plain ∧ a.InBounds).Reach s' := .step h ⟨⟨ha, hb⟩, hs⟩

theorem reach_stored (b : BitVec 8) :
    (taskSys.restrict fun _ a => a.Plain ∧ a.InBounds).Reach (stored b) := by
  have hc : TaskStep boot (.create none) (boot.set 0 (some idle)) := .create rfl
  have h₁ := plain_step (.init booted_boot) hc trivial trivial
  have hc : TaskStep (boot.set 0 (some idle)) (.create none)
    ((boot.set 0 (some idle)).set 1 (some idle)) := .create rfl
  have h₂ := plain_step h₁ hc trivial trivial
  have hc : TaskStep ((boot.set 0 (some idle)).set 1 (some idle)) (.create none)
    (((boot.set 0 (some idle)).set 1 (some idle)).set 2 (some idle)) := .create rfl
  have h₃ := plain_step h₂ hc trivial trivial
  have hu : TaskStep (((boot.set 0 (some idle)).set 1 (some idle)).set 2 (some idle)) (.toUser 1)
      ((((boot.set 0 (some idle)).set 1 (some idle)).set 2 (some idle)).set 1 (some (user 0))) :=
    .toUser ⟨rfl, rfl, rfl⟩ (kernelToUser_eq boot_absent)
  have h₄ := plain_step h₃ hu trivial trivial
  have hu : TaskStep ((((boot.set 0 (some idle)).set 1 (some idle)).set 2 (some idle)).set 1
      (some (user 0))) (.toUser 2) twoUsers :=
    .toUser ⟨rfl, rfl, rfl⟩ (kernelToUser_eq boot_absent)
  have h₅ := plain_step h₄ hu trivial trivial
  exact plain_step (plain_step h₅ step_touch trivial trivial) (step_store b) trivial
    ⟨by decide, by decide⟩

/-- The frames `4098` and `4099` are the next ones. -/
theorem unused_stored (b : BitVec 8) : Unused (stored b).frames 4098 := by
  refine ⟨(by decide : 258 ≤ 4098), (by decide : 4099 < 8192), fun j hj => ?_, ?_, ?_,
    (by decide : 2 ≤ 7932)⟩
  · rw [counts_stored]
    by_cases h1 : j = 4097
    · rw [h1, update_self]
      exact Nat.one_ne_zero
    by_cases h0 : j = 4096
    · rw [h0, update_of_ne (by decide), update_self]
      exact Nat.one_ne_zero
    · rw [update_of_ne h1, update_of_ne h0]
      exact unused_boot.below j (by omega)
  · rw [counts_stored, update_of_ne (by decide), update_of_ne (by decide)]
    rfl
  · rw [counts_stored, update_of_ne (by decide), update_of_ne (by decide)]
    rfl

/-- What task 1 reads. -/
theorem mem_stored (b : BitVec 8) : (stored b).mem 1 0x93ffffc = some b := by
  have hu : UserAddr 0x93ffffc := ⟨by decide, by decide⟩
  have hw : (stored b).frames.walk ((stored b).dirs 1) 0x93ffffc = some (4097, true) := by
    refine walk_linked boot.frames (by decide) ?_ ?_
    · rw [(at_stored b).dirs_eq, Option.elim_some, pde_touched]
    · have ht : tidx 0x93ffffc < 1024 := by decide
      exact (entry_stored b ⟨_, ht⟩).trans (entry_linked boot.frames (by decide) _ ⟨_, ht⟩).symm
  rw [Tasks.mem, if_pos hu, Frames.readByte, hw, Option.map_some, data_stored, update_self,
    update_self]

/-- There is a frame for the page table of the child. -/
theorem fork_stored (b : BitVec 8) :
    ∃ s', sysFork (stored b) 1 toucher (touchedSpace 4096) = .ok (s', 3) := by
  have hd : didx 0x93ffffc - firstDidx < 1023 - firstDidx := by decide
  have hU := unused_stored b
  have hp : tableOf ((touchedSpace 4096).pde (firstDidx + (⟨_, hd⟩ : UserDidx))) = some 4096 :=
    (congrArg tableOf (pde_touched 4096)).trans (tableOf_entryInit 4096)
  obtain ⟨⟨m, pde⟩, hc⟩ := Frames.copyPde_one (m := (stored b).frames) (f := 4098) hp
    (fun e he => pde_touched_absent 4096 e fun hc => he (Fin.ext (by
      show (e : ℕ) = didx 0x93ffffc - firstDidx
      omega)))
    (fun t => by
      rw [entry_stored]
      split_ifs
      · simp
      · simp)
    ⟨hU.start, by have := hU.total; omega⟩ hU.first (by have := hU.free_pages; omega)
  refine ⟨{ stored b with frames := m }.set 3 (some
    { ppid := 1, waitpid := toucher.waitpid, state := .ready,
      space := some { touchedSpace 4096 with pde := pde } }), ?_⟩
  rw [sysFork, show getTask (stored b) = .ok 3 from rfl, ok_bind, hc]
  rfl

/-- Task 1 forks: its child has its own copy of the byte on the stack. -/
theorem private_fork : ∃ s', TaskStep (stored 7#8) (.fork 1 3) s' ∧
    Private (stored 7#8).mem s'.mem (.fork 1 3) ∧ (stored 7#8).mem 1 0x93ffffc = some 7#8 ∧
    s'.mem 3 0x93ffffc = some 7#8 := by
  obtain ⟨s', hf⟩ := fork_stored 7#8
  have hs : TaskStep (stored 7#8) (.fork 1 3) s' := .fork (at_stored _) hf
  have hp : Private (stored 7#8).mem s'.mem (.fork 1 3) :=
    private_memory (reach_stored 7#8) ⟨trivial, trivial⟩ hs
  have hp' : s'.mem = update (stored 7#8).mem 3 ((stored 7#8).mem 1) := hp
  refine ⟨s', hs, hp, mem_stored _, ?_⟩
  rw [hp', update_self]
  exact mem_stored _

/-- The frames 4096 and 4097 are free again. -/
def givenBack (m : Frames) : Frames :=
  (m.withCount 4097 0 (m.free_pages + 1)).withCount 4096 0 (m.free_pages + 1 + 1)

/-- Task 1 is now `u`, and its pages are given back. -/
def released (b : BitVec 8) (u : Tcb) : Tasks :=
  { (stored b).set 1 (some u) with frames := givenBack (stored b).frames }

theorem freePPage_last {m : Frames} {f : ℕ} (ha : m.Avail f) (hp : m.p_bit_map f = 1)
    (hT : m.free_pages + 1 < m.total) : freePPage m f = .ok (m.withCount f 0 (m.free_pages + 1)) := by
  simp only [freePPage, cassert_bind_eq_ok, pure_eq_ok, hp]
  exact ⟨ha, le_rfl, ⟨Nat.succ_pos _, hT⟩, rfl⟩

/-- All pages of task 1 are given back. -/
theorem freePde_stored (b : BitVec 8) :
    freePde (stored b).frames (touchedSpace 4096).pde = .ok (givenBack (stored b).frames) := by
  have hd : didx 0x93ffffc - firstDidx < 1023 - firstDidx := by decide
  have ht : tidx 0x93ffffc < 1024 := by decide
  refine Frames.freePde_one (d := ⟨_, hd⟩) (t := ⟨tidx 0x93ffffc, ht⟩) (f := 4096) (g := 4097) (b := true)
    ((congrArg tableOf (pde_touched 4096)).trans (tableOf_entryInit 4096)) (fun e he => ?_) ?_
    (fun u hu => ?_) (freePPage_last ?_ ?_ ?_) (freePPage_last ?_ ?_ ?_)
  · refine pde_touched_absent 4096 e fun hc => he (Fin.ext ?_)
    show (e : ℕ) = didx 0x93ffffc - firstDidx
    omega
  · rw [entry_stored, if_pos rfl, pteOf_entryInit]
  · rw [entry_stored, if_neg fun hc => hu (Fin.ext hc), pteOf_zero]
  · exact ⟨(by decide : 258 ≤ 4097), (by decide : 4097 < 8192)⟩
  · rw [counts_stored, update_self]
  · show 7932 + 1 < 8192
    decide
  · exact ⟨(by decide : 258 ≤ 4096), (by decide : 4096 < 8192)⟩
  · show update (stored b).frames.p_bit_map 4097 0 4096 = 1
    rw [update_of_ne (by decide), counts_stored, update_of_ne (by decide), update_self]
  · show 7932 + 1 + 1 < 8192
    decide

theorem unused_released (b : BitVec 8) (u : Tcb) : Unused (released b u).frames 4096 := by
  have hp : (released b u).frames.p_bit_map =
      update (update (stored b).frames.p_bit_map 4097 0) 4096 0 := rfl
  refine ⟨(by decide : 258 ≤ 4096), (by decide : 4097 < 8192), fun j hj => ?_, ?_, ?_, ?_⟩
  · rw [hp, update_of_ne (by omega), update_of_ne (by omega), counts_stored, update_of_ne (by omega),
      update_of_ne (by omega)]
    exact unused_boot.below j hj
  · rw [hp, update_self]
  · rw [hp, update_of_ne (by decide), update_self]
  · show 2 ≤ 7932 + 1 + 1
    decide

/-- The second half of an exit of task 1; nobody is its child. -/
theorem exitRest_stored (b : BitVec 8) {u : Tcb} (hu : u.ppid = 0) :
    exitRest ((stored b).set 1 (some u)) 1 toucher (touchedSpace 4096) = .ok (released b u) := by
  have hfree : freePde ((stored b).set 1 (some u)).frames (touchedSpace 4096).pde =
      .ok (givenBack (stored b).frames) := freePde_stored b
  rw [exitRest, hfree, ok_bind]
  refine leave_alone (s := released b u) (fun i c hc => ?_) rfl rfl
  have hpp : c.ppid = 0 := by
    by_cases h1 : i = 1
    · rw [h1] at hc
      cases hc
      exact hu
    by_cases h2 : i = 2
    · rw [h2] at hc
      cases hc
      rfl
    by_cases h0 : i = 0
    · rw [h0] at hc
      cases hc
      rfl
    have hn : (released b u).task_bucket i = none := by
      simp only [released, stored, twoUsers, Tasks.setSpace, Tasks.set, update_of_ne h2,
        update_of_ne h1, update_of_ne h0]
      rfl
    rw [hn] at hc
    cases hc
  rw [hpp]
  decide

/-- Task 2 has touched its stack. -/
def reread (b : BitVec 8) (u : Tcb) : Tasks :=
  (released b u).setSpace 2 (user 0) (touched (released b u).frames 4096, touchedSpace 4096)

theorem step_reread (b : BitVec 8) (u : Tcb) :
    TaskStep (released b u) (.fault 2 0x93ffffc false) (reread b u) :=
  .fault (t := user 0) ⟨rfl, Or.inl rfl, rfl⟩ (congrArg (Option.elim · _ _) (walk_fresh _))
    (fun h => nomatch h) (fault_touched (unused_released b u) false)

/-- Its page is in the frame of task 1's. -/
theorem mem_frame (s : Tasks) {m : Frames} (hf : s.frames.data 4096 = (touched m 4096).data 4096)
    (hd : s.dirs 2 = (touchedSpace 4096).pde) :
    s.mem 2 0x93ffffc = some (s.frames.data 4097 (0x93ffffc % pageSize)) := by
  have hu : UserAddr 0x93ffffc := ⟨by decide, by decide⟩
  have hw : s.frames.walk (s.dirs 2) 0x93ffffc = some (4097, true) := by
    refine walk_linked m (by decide) (hd ▸ pde_touched 4096) ?_
    rw [Frames.entry, hf, touched, Frames.entry]
  rw [Tasks.mem, if_pos hu, Frames.readByte, hw, Option.map_some]

theorem dirs_reread (b : BitVec 8) (u : Tcb) : (reread b u).dirs 2 = (touchedSpace 4096).pde := by
  rw [reread, Tasks.setSpace, Tasks.dirs_set, update_self]
  rfl

/-- Task 2 has not stored anything. -/
theorem mem_reread (b : BitVec 8) (u : Tcb) : (reread b u).mem 2 0x93ffffc = some b := by
  have hdata : (touched (released b u).frames 4096).data 4097 = (stored b).frames.data 4097 := by
    simp only [touched, linked, Frames.setEntry, Frames.fill, Frames.withCount,
      update_of_ne (show 4097 ≠ 4096 by decide)]
    rfl
  rw [mem_frame (reread b u) (m := (released b u).frames) rfl (dirs_reread b u)]
  show some ((touched (released b u).frames 4096).data 4097 _) = _
  rw [hdata, data_stored, update_self, update_self]

/-- Task 1 at the end of an exit that was suspended. -/
def leaver : Tcb := { toucher with state := .left }

/-- It stores `b` where task 2 has its page. -/
def overwritten (b : BitVec 8) : Tasks :=
  { reread 7#8 leaver with frames := (reread 7#8 leaver).frames.writeByte 4097 0x93ffffc b }

/-- **A task behind its exit.** Task 1 exits, and `iput` waits for the disk, so that it is ready
    again afterwards.  Task 2 touches its stack, and gets the frames that task 1 has given back and
    goes on to store in. -/
theorem private_left : ∃ s s', (taskSys.restrict fun _ a => a.Plain).Reach s ∧
    TaskStep s (.store 1 0x93ffffc 9#8) s' ∧ s.mem 2 0x93ffffc = some 7#8 ∧
    s'.mem 2 0x93ffffc = some 9#8 ∧ ¬ Private s.mem s'.mem (.store 1 0x93ffffc 9#8) := by
  have h₀ := (reach_stored 7#8).restrict_mono (D := fun _ a => a.Plain) fun _ _ h => h.1
  have h₁ : (taskSys.restrict fun _ a => a.Plain).Reach (exitBlock (stored 7#8) 1 toucher) :=
    .step (a := .exitBlock 1) h₀ ⟨trivial, .exitBlock (at_stored _)⟩
  have hset : ∀ u v, ((stored 7#8).set 1 u).set 1 v = (stored 7#8).set 1 v := by
    intro u v
    simp only [Tasks.set, update_idem]
  have hend : Rdix.exitEnd (exitBlock (stored 7#8) 1 toucher) 1 { toucher with state := .exiting }
      (touchedSpace 4096) = .ok (released 7#8 leaver) := by
    rw [Rdix.exitEnd, exitBlock, hset]
    exact exitRest_stored 7#8 (u := leaver) rfl
  have h₂ : (taskSys.restrict fun _ a => a.Plain).Reach (released 7#8 leaver) :=
    .step (a := .exitEnd 1) h₁ ⟨trivial, .exitEnd rfl rfl rfl hend⟩
  have h₃ : (taskSys.restrict fun _ a => a.Plain).Reach (reread 7#8 leaver) :=
    .step (a := .fault 2 0x93ffffc false) h₂ ⟨trivial, step_reread 7#8 leaver⟩
  have hs : TaskStep (reread 7#8 leaver) (.store 1 0x93ffffc 9#8) (overwritten 9#8) :=
    .store (show Tasks.Runs _ 1 leaver (touchedSpace 4096) from ⟨rfl, Or.inr rfl, rfl⟩)
      ⟨by decide, by decide⟩ (walk_linked _ (by decide) (pde_touched 4096) rfl)
  have hm : (overwritten 9#8).mem 2 0x93ffffc = some 9#8 := by
    have hdata : (overwritten 9#8).frames.data 4096 =
        (touched (released 7#8 leaver).frames 4096).data 4096 := by
      simp only [overwritten, Frames.writeByte, update_of_ne (show 4096 ≠ 4097 by decide)]
      rfl
    rw [mem_frame (overwritten 9#8) hdata (dirs_reread 7#8 leaver)]
    simp only [overwritten, Frames.writeByte, update_self]
  refine ⟨_, _, h₃, hs, mem_reread _ _, hm, fun hp => ?_⟩
  have h2 := congrFun (congrFun hp 2) 0x93ffffc
  rw [hm, update_of_ne (by decide), mem_reread] at h2
  exact absurd (Option.some.inj h2) (by decide)

end Run

end Rdix
