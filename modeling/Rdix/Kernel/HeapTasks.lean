/-
  The kernel heap under preemption (kernel/malloc.c: malloc, free_s).

  `malloc` and `free_s` search with interrupts on: a task can be preempted at each read of a
  descriptor and between the search and the part with interrupts off, which is one step.

  * `CallStep`: the steps of the calls of any number of tasks, in any order;
  * `heapTasks_of_heapSys`: the runs of calls that are not interrupted are among these runs;
  * `TasksInv.step`: what one step keeps, if it is `Undisturbed`;
  * `malloc_preempted`: what a search found is good in the part with interrupts off, in every run
    of undisturbed steps; `malloc_drained`: a run in which it is not.
-/
import Rdix.Kernel.HeapRun
import Rdix.Kernel.Halt

namespace Rdix

open ByteMem Linked Transition

/-! ## The calls, step by step -/

/-- Where a task is in its call of `malloc` or of `free_s`, with the local variables it still needs. -/
inductive HeapPc where
  | idle
  /-- `malloc` is at the condition of its search loop. -/
  | scan (n bdir bdesc : ℕ)
  /-- `malloc` read that the bucket has no free block. -/
  | next (n bdir bdesc : ℕ)
  /-- The search of `malloc` is over, interrupts are still on. -/
  | take (n bdir bdesc : ℕ)
  /-- `free_s` is at the condition of its outer loop. -/
  | pool (obj size bdir : ℕ)
  /-- `free_s` is at the condition of its inner loop. -/
  | fscan (obj size bdir prev bdesc : ℕ)
  /-- `free_s` read that the bucket has another page. -/
  | fnext (obj size bdir prev bdesc : ℕ)
  /-- `free_s` is at `found_bdesc`, interrupts are still on. -/
  | put (obj bdir prev bdesc : ℕ)

/-- The block that a task gives back. -/
def HeapPc.freeing : HeapPc → Option ℕ
  | .pool obj .. | .fscan obj .. | .fnext obj .. | .put obj .. => some obj
  | _ => none

/-- The pool and the descriptor that a search reads next. -/
def HeapPc.reads : HeapPc → Option (ℕ × ℕ)
  | .scan _ bdir bdesc | .next _ bdir bdesc | .fscan _ _ bdir _ bdesc | .fnext _ _ bdir _ bdesc =>
    some (bdir, bdesc)
  | _ => none

/-- A heap, its live blocks, and where each task is. -/
structure HeapTasks (T P : Type) where
  heap : Heap P
  live : List (ℕ × ℕ)
  pc : T → HeapPc

variable {T P : Type} [DecidableEq T]

def HeapTasks.goto (x : HeapTasks T P) (t : T) (c : HeapPc) : HeapTasks T P :=
  { x with pc := Function.update x.pc t c }

inductive CallOp (T : Type) where
  | malloc (t : T) (n : ℕ)
  | test (t : T)
  | next (t : T)
  | take (t : T)
  | free (t : T) (obj size : ℕ)
  | pool (t : T)
  | ftest (t : T)
  | fnext (t : T)
  | put (t : T)
  | write (a : ℕ) (v : BitVec 8)

/-- One step of one task.  Each reads the heap once; `take` and `put` have interrupts off. -/
inductive CallStep (pager : Pager P) (x : HeapTasks T P) : CallOp T → HeapTasks T P → Prop where
  | malloc {t n i} : x.pc t = .idle → bucketFor n = some i →
      CallStep pager x (.malloc t n) (x.goto t (.scan n i (x.heap.first_bucket i)))
  | test {t n i b} : x.pc t = .scan n i b →
      CallStep pager x (.test t)
        (x.goto t (if b = 0 ∨ fld x.heap.mem .freeptr b ≠ 0 then .take n i b else .next n i b))
  | next {t n i b} : x.pc t = .next n i b →
      CallStep pager x (.next t) (x.goto t (.scan n i (fld x.heap.mem .next_desc b)))
  | take {t n i b h p} : x.pc t = .take n i b → mallocTake pager x.heap i b = .ok (h, p) →
      CallStep pager x (.take t) ⟨h, (p, n) :: x.live, Function.update x.pc t .idle⟩
  -- the callers give back live blocks, each once
  | free {t obj size} : x.pc t = .idle → obj ∈ x.live.map Prod.fst →
      (∀ u, (x.pc u).freeing ≠ some obj) →
      CallStep pager x (.free t obj size) (x.goto t (.pool obj size 0))
  | pool {t obj size i} : x.pc t = .pool obj size i → i < bucketDir.length →
      CallStep pager x (.pool t) (x.goto t (if bucketSize i < size then .pool obj size (i + 1)
        else .fscan obj size i 0 (x.heap.first_bucket i)))
  | ftest {t obj size i prev b} : x.pc t = .fscan obj size i prev b →
      CallStep pager x (.ftest t) (x.goto t (if b = 0 then .pool obj size (i + 1)
        else if fld x.heap.mem .page b = obj / pageSize * pageSize then .put obj i prev b
        else .fnext obj size i prev b))
  | fnext {t obj size i prev b} : x.pc t = .fnext obj size i prev b →
      CallStep pager x (.fnext t) (x.goto t (.fscan obj size i b (fld x.heap.mem .next_desc b)))
  | put {t obj i prev b h} : x.pc t = .put obj i prev b → freePut pager x.heap i prev b obj = .ok h →
      CallStep pager x (.put t) ⟨h, dropLive x.live obj, Function.update x.pc t .idle⟩
  | write {c i a v} : c ∈ x.live → bucketFor c.2 = some i → c.1 ≤ a → a < c.1 + bucketSize i →
      CallStep pager x (.write a v)
        { x with heap := { x.heap with mem := Function.update x.heap.mem a v } }

/-- The runs of the calls of any number of tasks. -/
def heapTasks (T : Type) [DecidableEq T] (pager : Pager P) (h₀ : Heap P) :
    Sys (HeapTasks T P) (CallOp T) where
  init x := x = ⟨h₀, [], fun _ => .idle⟩
  step := CallStep pager

/-- The part of `malloc` with interrupts off has a bucket of the chain with a free block, and takes a
    block that is not live, unless a page is missing; no live block was handed out twice. -/
structure MallocSafe (pager : Pager P) (x : HeapTasks T P) : Prop where
  take : ∀ t n i b, x.pc t = .take n i b →
    (NoPage pager x.heap.pages ∧ ∃ msg, mallocTake pager x.heap i b = .error (.panic msg)) ∨
    ∃ h d h' p, mallocBucket pager x.heap i b = .ok (h, d) ∧ h.InPool i d ∧ fld h.mem .freeptr d ≠ 0 ∧
      mallocTake pager x.heap i b = .ok (h', p) ∧ p ≠ 0 ∧ p ∉ x.live.map Prod.fst
  nodup : (x.live.map Prod.fst).Nodup

/-- Another task than `t` found the bucket `b` and did not take from it yet. -/
def HeapTasks.Found (x : HeapTasks T P) (t : T) (b : ℕ) : Prop :=
  ∃ u, u ≠ t ∧ ∃ n i, x.pc u = .take n i b

/-- A search reads no descriptor that left its pool; the last free block of a bucket is not taken, nor
    is the bucket released, while another `malloc` has found it; and a bucket is released when the
    descriptor before it is still the one that the search went past. -/
def Undisturbed (x : HeapTasks T P) : CallOp T → Prop
  | .test t | .next t | .ftest t | .fnext t =>
    ∀ i b, (x.pc t).reads = some (i, b) → b ≠ 0 → x.heap.InPool i b
  | .take t => ∀ n i b, x.pc t = .take n i b → b ≠ 0 → x.Found t b →
    fld x.heap.mem .next_desc (fld x.heap.mem .freeptr b) ≠ 0
  | .put t => ∀ obj i prev b, x.pc t = .put obj i prev b → fld x.heap.mem .refcnt b = 1 →
    ¬ x.Found t b ∧
      if prev ≠ 0 then fld x.heap.mem .next_desc prev = b else x.heap.first_bucket i = b
  | .malloc .. | .free .. | .pool .. | .write .. => True

section
variable {pager : Pager P} {valid : P → Prop} {used : P → Set ℕ} {h₀ h h' : Heap P}
  {x y : HeapTasks T P} {t u : T} {c c' : HeapPc} {op : CallOp T} {live live' : List (ℕ × ℕ)}
  {L L' : Layout} {n i b d p obj size prev : ℕ}

@[simp] theorem HeapTasks.goto_heap : (x.goto t c).heap = x.heap := rfl

@[simp] theorem HeapTasks.goto_live : (x.goto t c).live = x.live := rfl

@[simp] theorem HeapTasks.goto_pc : (x.goto t c).pc t = c := Function.update_self ..

theorem HeapTasks.goto_pc_of_ne (hu : u ≠ t) : (x.goto t c).pc u = x.pc u :=
  Function.update_of_ne hu ..

@[simp] theorem HeapTasks.goto_goto : (x.goto t c).goto t c' = x.goto t c' := by
  simp [HeapTasks.goto]

theorem HeapTasks.goto_self (hc : x.pc t = c) : x.goto t c = x := by
  subst hc
  simp [HeapTasks.goto]

/-! ## Calls that are not interrupted -/

theorem reach_step (hx : (heapTasks T pager h₀).Reach x) (hs : CallStep pager x op y) :
    (heapTasks T pager h₀).Reach y :=
  hx.step hs

/-- The search of `malloc`. -/
theorem reach_scan (hx : (heapTasks T pager h₀).Reach x) {fuel a a' e : ℕ} (hpc : x.pc t = .scan n i b)
    (hw : walk 0 (fld x.heap.mem .next_desc) (fun d => fld x.heap.mem .freeptr d ≠ 0) fuel a b =
      some (a', e)) : (heapTasks T pager h₀).Reach (x.goto t (.take n i e)) := by
  induction fuel generalizing x a b with
  | zero => cases hw
  | succ fuel ih =>
    have htest := reach_step hx (.test hpc)
    rw [walk] at hw
    by_cases h0 : b = 0
    · rw [if_pos h0] at hw
      cases hw
      rwa [if_pos (Or.inl h0), h0] at htest
    · rw [if_neg h0] at hw
      by_cases hf : fld x.heap.mem .freeptr b ≠ 0
      · rw [if_pos (decide_eq_true hf)] at hw
        cases hw
        rwa [if_pos (Or.inr hf)] at htest
      · rw [if_neg (by simpa using hf)] at hw
        rw [if_neg (by simp [h0, hf])] at htest
        have hnext := reach_step htest (.next HeapTasks.goto_pc)
        have hrun := ih hnext HeapTasks.goto_pc hw
        simpa only [HeapTasks.goto_goto] using hrun

/-- **A `malloc` that is not interrupted is `malloc`.** -/
theorem reach_malloc (hx : (heapTasks T pager h₀).Reach x) (hpc : x.pc t = .idle)
    (he : malloc pager x.heap n = .ok (h, p)) :
    (heapTasks T pager h₀).Reach ⟨h, (p, n) :: x.live, x.pc⟩ := by
  cases hn : bucketFor n with
  | none =>
    rw [malloc, hn] at he
    cases he
  | some i =>
    cases hw : walk 0 (fld x.heap.mem .next_desc) (fun d => fld x.heap.mem .freeptr d ≠ 0) walkFuel 0
        (x.heap.first_bucket i) with
    | none =>
      simp only [malloc, hn, hw] at he
      cases he
    | some r =>
      rw [malloc_eq hn hw] at he
      have hscan := reach_step hx (.malloc hpc hn)
      have hfound := reach_scan hscan HeapTasks.goto_pc hw
      have htake := reach_step hfound (.take HeapTasks.goto_pc he)
      have hpcs : Function.update (((x.goto t (.scan n i (x.heap.first_bucket i))).goto t
          (.take n i r.2)).pc) t .idle = x.pc := by
        rw [HeapTasks.goto_goto, ← hpc]
        simp [HeapTasks.goto]
      rwa [hpcs] at htake

/-- The inner loop of `free_s`. -/
theorem reach_fscan (hx : (heapTasks T pager h₀).Reach x) {fuel a e : ℕ}
    (hpc : x.pc t = .fscan obj size i prev b)
    (hw : walk 0 (fld x.heap.mem .next_desc) (fun d => fld x.heap.mem .page d = obj / pageSize * pageSize)
      fuel prev b = some (a, e)) :
    (heapTasks T pager h₀).Reach
      (x.goto t (if e = 0 then .pool obj size (i + 1) else .put obj i a e)) := by
  induction fuel generalizing x prev b with
  | zero => cases hw
  | succ fuel ih =>
    have htest := reach_step hx (.ftest hpc)
    rw [walk] at hw
    by_cases h0 : b = 0
    · rw [if_pos h0] at hw
      cases hw
      rwa [if_pos h0] at htest
    · rw [if_neg h0] at hw htest
      by_cases hf : fld x.heap.mem .page b = obj / pageSize * pageSize
      · rw [if_pos (decide_eq_true hf)] at hw
        cases hw
        rw [if_pos hf] at htest
        rwa [if_neg h0]
      · rw [if_neg (by simpa using hf)] at hw
        rw [if_neg hf] at htest
        have hnext := reach_step htest (.fnext HeapTasks.goto_pc)
        have hrun := ih hnext HeapTasks.goto_pc hw
        simpa only [HeapTasks.goto_goto] using hrun

/-- The loops of `free_s`, from the pool `i` on. -/
theorem reach_findDesc (hx : (heapTasks T pager h₀).Reach x) {k j a e : ℕ} (hik : i + k = bucketDir.length)
    (hpc : x.pc t = .pool obj size i)
    (hf : findDesc x.heap size (obj / pageSize * pageSize) (List.range' i k) = .ok (j, a, e)) :
    (heapTasks T pager h₀).Reach (x.goto t (.put obj j a e)) := by
  induction k generalizing x i with
  | zero => cases hf
  | succ k ih =>
    have hstep := reach_step hx (.pool hpc (by omega))
    rw [List.range'_succ, findDesc] at hf
    by_cases hs : bucketSize i < size
    · rw [if_pos hs] at hf hstep
      have hrun := ih hstep (by omega) HeapTasks.goto_pc hf
      rwa [HeapTasks.goto_goto] at hrun
    · rw [if_neg hs] at hf hstep
      cases hw : walk 0 (fld x.heap.mem .next_desc)
          (fun d => fld x.heap.mem .page d = obj / pageSize * pageSize) walkFuel 0
          (x.heap.first_bucket i) with
      | none =>
        simp only [hw] at hf
        cases hf
      | some r =>
        obtain ⟨a', e'⟩ := r
        simp only [hw] at hf
        have hrun := reach_fscan hstep HeapTasks.goto_pc hw
        rw [HeapTasks.goto_goto] at hrun
        by_cases h0 : e' = 0
        · rw [if_pos h0] at hf hrun
          have hrun := ih hrun (by omega) HeapTasks.goto_pc hf
          rwa [HeapTasks.goto_goto] at hrun
        · rw [if_neg h0] at hf hrun
          cases hf
          exact hrun

/-- **A `free_s` that is not interrupted is `free_s`.** -/
theorem reach_freeS (hx : (heapTasks T pager h₀).Reach x) (hidle : ∀ u, x.pc u = .idle)
    (hobj : obj ∈ x.live.map Prod.fst) (he : freeS pager x.heap obj size = .ok h) (t : T) :
    (heapTasks T pager h₀).Reach ⟨h, dropLive x.live obj, x.pc⟩ := by
  obtain ⟨⟨j, a, e⟩, hf, -⟩ := bind_eq_ok.1 he
  rw [freeS_eq hf] at he
  rw [List.range_eq_range'] at hf
  have hstart : (heapTasks T pager h₀).Reach (x.goto t (.pool obj size 0)) :=
    reach_step hx (.free (hidle t) hobj fun u => by simp [hidle u, HeapPc.freeing])
  have hfound := reach_findDesc hstart (Nat.zero_add _) HeapTasks.goto_pc hf
  have hput := reach_step hfound (.put HeapTasks.goto_pc he)
  have hpcs : Function.update (((x.goto t (.pool obj size 0)).goto t (.put obj j a e)).pc) t .idle =
      x.pc := by
    rw [HeapTasks.goto_goto, ← hidle t]
    simp [HeapTasks.goto]
  rwa [hpcs] at hput

/-- **The runs of calls that are not interrupted are among the runs of the tasks.** -/
theorem heapTasks_of_heapSys {s : HState P} (hs : (heapSys pager h₀).Reach s) (t : T) :
    (heapTasks T pager h₀).Reach ⟨s.heap, s.live, fun _ => .idle⟩ := by
  induction hs with
  | init hs =>
    cases hs
    exact .init rfl
  | @step s s' op _ hst ih =>
    cases op with
    | malloc n =>
      obtain ⟨-, h, p, he, rfl⟩ := hst
      exact reach_malloc (t := t) ih rfl he
    | free p =>
      obtain ⟨⟨n, hb⟩, h, he, rfl⟩ := hst
      exact reach_freeS ih (fun _ => rfl) (List.mem_map_of_mem hb) he t
    | write a v =>
      obtain ⟨⟨c, hc, i, hi, h1, h2⟩, rfl⟩ := hst
      exact reach_step ih (.write hc hi h1 h2)

/-! ## What a step keeps -/

/-- What a task may rely on: the bucket that `malloc` found is in its pool and has a free block, the
    block that `free_s` gives back is live, and the bucket it found is the one of that block. -/
def HeapPc.Ok (h : Heap P) (live : List (ℕ × ℕ)) (L : Layout) : HeapPc → Prop
  | .idle => True
  | .scan n i _ | .next n i _ => bucketFor n = some i
  | .take n i b => bucketFor n = some i ∧ (b = 0 ∨ b ∈ L.pool i ∧ L.free b ≠ [])
  | .pool obj _ _ => obj ∈ live.map Prod.fst
  | .fscan obj _ i prev _ | .fnext obj _ i prev _ =>
    obj ∈ live.map Prod.fst ∧ i < 9 ∧ (prev = 0 ∨ L.Desc prev)
  | .put obj i prev b => obj ∈ live.map Prod.fst ∧ i < 9 ∧ (prev = 0 ∨ L.Desc prev) ∧ b ∈ L.pool i ∧
    fld h.mem .page b = pageOf obj

structure TasksInv (valid : P → Prop) (used : P → Set ℕ) (x : HeapTasks T P) (L : Layout) : Prop where
  heap : HeapInv valid used x.heap x.live L
  pc : ∀ t, (x.pc t).Ok x.heap x.live L
  once : ∀ t u obj, (x.pc t).freeing = some obj → (x.pc u).freeing = some obj → t = u

theorem HeapPc.Ok.mem (hc : c.Ok h live L) (hobj : c.freeing = some obj) :
    obj ∈ live.map Prod.fst := by
  cases c <;> cases hobj <;> first | exact hc | exact hc.1

/-- What is done to the bucket `b` leaves a task that did not find this bucket alone. -/
theorem HeapPc.Ok.frame (hc : c.Ok h live L) (hi : ∀ n i b, c = .take n i b → i < 9)
    (S : Beside L h.mem b L' h'.mem)
    (hlive : ∀ obj, c.freeing = some obj → obj ∈ live'.map Prod.fst)
    (htake : ∀ n i, c = .take n i b → b ∈ L.pool i → b ∈ L'.pool i ∧ L'.free b ≠ [])
    (hput : ∀ obj i prev, c = .put obj i prev b → b ∈ L'.pool i) : c.Ok h' live' L' := by
  have hprev {prev : ℕ} (h : prev = 0 ∨ L.Desc prev) : prev = 0 ∨ L'.Desc prev := h.imp_right (S.desc _)
  cases c with
  | idle => trivial
  | scan n i d => exact hc
  | next n i d => exact hc
  | take n i d =>
    refine ⟨hc.1, hc.2.imp_right fun ⟨hd, hne⟩ => ?_⟩
    by_cases hdb : d = b
    · subst hdb
      exact htake n i rfl hd
    · have hi9 := hi n i d rfl
      exact ⟨S.pool i hi9 d hd hdb, by rwa [S.free i hi9 d hd hdb]⟩
  | pool obj size i => exact hlive obj rfl
  | fscan obj size i prev d => exact ⟨hlive obj rfl, hc.2.1, hprev hc.2.2⟩
  | fnext obj size i prev d => exact ⟨hlive obj rfl, hc.2.1, hprev hc.2.2⟩
  | put obj i prev d =>
    obtain ⟨-, hi9, hp, hd, hpg⟩ := hc
    refine ⟨hlive obj rfl, hi9, hprev hp, ?_, (S.page i hi9 d hd).trans hpg⟩
    by_cases hdb : d = b
    · subst hdb
      exact hput obj i prev rfl
    · exact S.pool i hi9 d hd hdb

omit [DecidableEq T] in
theorem TasksInv.take_lt (I : TasksInv valid used x L) (u : T) (n i b : ℕ) (hu : x.pc u = .take n i b) :
    i < 9 := by
  have h := I.pc u
  rw [hu] at h
  exact (bucketFor_spec h.1).1

omit [DecidableEq T] in
theorem TasksInv.init (hf : h₀.Fresh) (hv : valid h₀.pages) :
    TasksInv valid used (⟨h₀, [], fun _ => .idle⟩ : HeapTasks T P) ⟨fun _ => [], [], fun _ => []⟩ where
  heap := .init hf hv
  pc _ := trivial
  once _ _ _ h := nomatch h

/-- A task that only looks at the heap. -/
theorem TasksInv.goto (I : TasksInv valid used x L) (hc : c.Ok x.heap x.live L)
    (hfree : ∀ obj, c.freeing = some obj → (x.pc t).freeing = some obj ∨
      ∀ u, (x.pc u).freeing ≠ some obj) : TasksInv valid used (x.goto t c) L := by
  have hone {u : T} {obj : ℕ} (hut : u ≠ t) (hobj : c.freeing = some obj)
      (hu : (x.pc u).freeing = some obj) : False := by
    rcases hfree obj hobj with h | h
    · exact hut (I.once u t obj hu h)
    · exact h u hu
  refine ⟨I.heap, fun u => ?_, fun u v obj hu hv => ?_⟩
  · by_cases hut : u = t
    · rw [hut, HeapTasks.goto_pc]
      exact hc
    · rw [HeapTasks.goto_pc_of_ne hut]
      exact I.pc u
  · by_cases hut : u = t
    · by_cases hvt : v = t
      · rw [hut, hvt]
      · subst hut
        rw [HeapTasks.goto_pc] at hu
        rw [HeapTasks.goto_pc_of_ne hvt] at hv
        exact (hone hvt hu hv).elim
    · rw [HeapTasks.goto_pc_of_ne hut] at hu
      by_cases hvt : v = t
      · subst hvt
        rw [HeapTasks.goto_pc] at hv
        exact (hone hut hv hu).elim
      · rw [HeapTasks.goto_pc_of_ne hvt] at hv
        exact I.once u v obj hu hv

/-- A task that is done with its call. -/
theorem TasksInv.done {x' : HeapTasks T P} (I : TasksInv valid used x L)
    (H : HeapInv valid used x'.heap x'.live L') (hpc : x'.pc = Function.update x.pc t .idle)
    (hother : ∀ u, u ≠ t → (x.pc u).Ok x'.heap x'.live L') : TasksInv valid used x' L' := by
  have hpcs : ∀ u, x'.pc u = .idle ∨ u ≠ t ∧ x'.pc u = x.pc u := fun u => by
    rw [hpc]
    by_cases hut : u = t
    · exact Or.inl (hut ▸ Function.update_self ..)
    · exact Or.inr ⟨hut, Function.update_of_ne hut ..⟩
  refine ⟨H, fun u => ?_, fun u v obj hu hv => ?_⟩
  · rcases hpcs u with h | ⟨hut, h⟩
    · rw [h]
      trivial
    · rw [h]
      exact hother u hut
  · rcases hpcs u with h | ⟨-, h⟩
    · rw [h] at hu
      cases hu
    rcases hpcs v with h' | ⟨-, h'⟩
    · rw [h'] at hv
      cases hv
    · rw [h] at hu
      rw [h'] at hv
      exact I.once u v obj hu hv

omit [DecidableEq T] in
/-- A bucket that was found has a first free block. -/
theorem TasksInv.found (I : TasksInv valid used x L) (hpc : x.pc t = .take n i b) :
    bucketFor n = some i ∧ (b = 0 ∨ b ∈ L.pool i ∧ fld x.heap.mem .freeptr b ≠ 0) := by
  have h := I.pc t
  rw [hpc] at h
  refine ⟨h.1, h.2.imp_right fun ⟨hb, hne⟩ => ⟨hb, fun h0 => hne ?_⟩⟩
  exact (I.heap.core.bucket i (bucketFor_spec h.1).1 b hb).free.eq_nil_iff.1 h0

theorem TasksInv.take (hP : PagerOk pager valid used) (I : TasksInv valid used x L)
    (hu : Undisturbed x (.take t)) (hpc : x.pc t = .take n i b)
    (hs : mallocTake pager x.heap i b = .ok (h, p)) :
    ∃ L', TasksInv valid used ⟨h, (p, n) :: x.live, Function.update x.pc t .idle⟩ L' := by
  obtain ⟨hn, hb⟩ := I.found hpc
  rcases mallocTake_spec hP hn I.heap hb with ⟨-, msg, he⟩ | ⟨-, -, h', p', L', -, -, -, he, K⟩
  · rw [hs] at he
    cases he
  rw [hs] at he
  cases he
  refine ⟨L', I.done K.inv rfl fun u hut => (I.pc u).frame (I.take_lt u) K.beside (fun obj hobj => ?_)
    (fun n' i' hu' hbL => ?_) fun obj j prev hu' => ?_⟩
  · exact List.mem_cons_of_mem _ ((I.pc u).mem hobj)
  · -- the other task that found the bucket finds a second free block in it
    have h0 : b ≠ 0 := (I.heap.core.pool i' (I.take_lt u n' i' b hu')).ne_nil hbL
    obtain ⟨hbL', hfree⟩ := K.found h0
    have hi9 := (bucketFor_spec hn).1
    have hbi := (hb.resolve_left h0).1
    obtain rfl : i = i' := (I.heap.core.disj i hi9 b hbi).2 i' (I.take_lt u n' i' b hu') hbL
    refine ⟨hbL', fun hnil => hu n i b hpc h0 ⟨u, hut, n', i, hu'⟩ ?_⟩
    have hch := (I.heap.core.bucket i hi9 b hbi).free
    rw [hfree, hnil] at hch
    obtain ⟨-, -, hch⟩ := chain_cons_iff.1 hch
    exact chain_nil_iff.1 hch
  · have hput := I.pc u
    rw [hu'] at hput
    obtain ⟨-, hj9, -, hbj, -⟩ := hput
    have h0 : b ≠ 0 := (I.heap.core.pool j hj9).ne_nil hbj
    have hi9 := (bucketFor_spec hn).1
    obtain rfl : i = j := (I.heap.core.disj i hi9 b (hb.resolve_left h0).1).2 j hj9 hbj
    exact (K.found h0).1

/-- A descriptor that links to one of a pool is the one before it on the chain. -/
theorem Core.before (H : Core h.mem h.first_bucket h.free_bucket_desc (used h.pages) live L)
    (hi : i < 9) (hb : b ∈ L.pool i) (hprev : prev = 0 ∨ L.Desc prev)
    (hlink : if prev ≠ 0 then fld h.mem .next_desc prev = b else h.first_bucket i = b) :
    ∃ l₁ l₂, L.pool i = l₁ ++ b :: l₂ ∧ l₁.getLast?.getD 0 = prev := by
  have hb0 : b ≠ 0 := (H.pool i hi).ne_nil hb
  by_cases h0 : prev = 0
  · rw [if_neg (not_not.2 h0)] at hlink
    have hch := H.pool i hi
    cases hl : L.pool i with
    | nil =>
      rw [hl] at hb
      cases hb
    | cons e l =>
      rw [hl, chain_cons_iff, hlink] at hch
      exact ⟨[], l, by rw [hch.1]; rfl, h0.symm⟩
  · rw [if_pos h0] at hlink
    -- what follows a node of a chain is in the chain, too
    have hnext {a : ℕ} {l : List ℕ} (hch : Chain 0 (fld h.mem .next_desc) a l) (hp : prev ∈ l) :
        ∃ l₁ l₂, l = l₁ ++ prev :: b :: l₂ := by
      obtain ⟨l₁, l₂, rfl⟩ := List.append_of_mem hp
      have hrest := (chain_cons_iff.1 hch.suffix).2.2
      rw [hlink] at hrest
      cases l₂ with
      | nil => exact absurd (chain_nil_iff.1 hrest) hb0
      | cons e l₂ => exact ⟨l₁, l₂, by rw [(chain_cons_iff.1 hrest).1]⟩
    rcases hprev.resolve_left h0 with hs | ⟨j, hj, hp⟩
    · obtain ⟨l₁, l₂, hl⟩ := hnext H.spare hs
      exact absurd (by simp [hl]) (H.disj i hi b hb).1
    · obtain ⟨l₁, l₂, hl⟩ := hnext (H.pool j hj) hp
      obtain rfl : i = j := (H.disj i hi b hb).2 j hj (by simp [hl])
      exact ⟨l₁ ++ [prev], l₂, by simp [hl], by simp⟩

theorem TasksInv.put (hP : PagerOk pager valid used) (I : TasksInv valid used x L)
    (hu : Undisturbed x (.put t)) (hpc : x.pc t = .put obj i prev b)
    (hs : freePut pager x.heap i prev b obj = .ok h) :
    ∃ L', TasksInv valid used ⟨h, dropLive x.live obj, Function.update x.pc t .idle⟩ L' := by
  have hc := I.pc t
  rw [hpc] at hc
  obtain ⟨hobj, hi9, hprev, hb, hpg⟩ := hc
  obtain ⟨⟨q, n⟩, hmem, hq⟩ := List.mem_map.1 hobj
  obtain rfl : q = obj := hq
  obtain ⟨h', L', he, G⟩ := freePut_spec hP I.heap hmem hi9 hb hpg fun hone =>
    I.heap.core.before hi9 hb hprev (hu q i prev b hpc hone).2
  rw [hs] at he
  cases he
  have B := I.heap.core.bucket i hi9 b hb
  have hne {u : T} {obj' : ℕ} (hut : u ≠ t) (hobj' : (x.pc u).freeing = some obj') : obj' ≠ q := by
    rintro rfl
    exact hut (I.once u t obj' hobj' (by rw [hpc]; rfl))
  refine ⟨L', I.done G.inv rfl fun u hut => (I.pc u).frame (I.take_lt u) G.beside (fun obj' hobj' => ?_)
    (fun n' i' hu' hbi => ?_) fun obj' j prev' hu' => ?_⟩
  · show obj' ∈ (dropLive x.live q).map Prod.fst
    rw [map_dropLive]
    exact List.mem_filter.2 ⟨(I.pc u).mem hobj', by simpa using hne hut hobj'⟩
  · obtain rfl : i = i' := (I.heap.core.disj i hi9 b hb).2 i' (I.take_lt u n' i' b hu') hbi
    obtain ⟨hbL', hfree⟩ := G.kept fun hone =>
      (hu q i prev b hpc hone).1 ⟨u, hut, n', i, hu'⟩
    exact ⟨hbL', by simp [hfree]⟩
  · -- two live blocks of one page
    have hput := I.pc u
    rw [hu'] at hput
    obtain ⟨hobj', hj9, -, hbj, hpg'⟩ := hput
    obtain rfl : i = j := (I.heap.core.disj i hi9 b hb).2 j hj9 hbj
    refine (G.kept fun hone => ?_).1
    rw [B.refcnt, List.length_eq_one_iff] at hone
    obtain ⟨r, hr⟩ := hone
    have h1 := mem_liveOn.2 ⟨hobj', hpg'.symm⟩
    have h2 := mem_liveOn.2 ⟨hobj, hpg.symm⟩
    rw [hr, List.mem_singleton] at h1 h2
    exact hne hut (by rw [hu']; rfl) (h1.trans h2.symm)

/-- **One undisturbed step.** -/
theorem TasksInv.step (hP : PagerOk pager valid used) (I : TasksInv valid used x L)
    (hu : Undisturbed x op) (hs : CallStep pager x op y) : ∃ L', TasksInv valid used y L' := by
  -- the descriptor that a search reads is of the pool that it searches
  have hpool {i b : ℕ} (hi : i < 9) (hb : x.heap.InPool i b) : b ∈ L.pool i :=
    (I.heap.core.inPool_iff hi).1 hb
  cases hs with
  | @malloc t n i hpc hn => exact ⟨L, I.goto (c := .scan n i _) hn (by simp [HeapPc.freeing])⟩
  | @test t n i b hpc =>
    have hn := I.pc t
    rw [hpc] at hn
    refine ⟨L, I.goto ?_ fun obj => by split_ifs <;> simp [HeapPc.freeing]⟩
    split_ifs with hb
    · refine ⟨hn, or_iff_not_imp_left.2 fun h0 => ?_⟩
      have hi9 := (bucketFor_spec hn).1
      have hbL := hpool hi9 (hu i b (by rw [hpc]; rfl) h0)
      refine ⟨hbL, fun hnil => hb.resolve_left h0 ?_⟩
      exact (I.heap.core.bucket i hi9 b hbL).free.eq_nil_iff.2 hnil
    · exact hn
  | @next t n i b hpc =>
    have hn := I.pc t
    rw [hpc] at hn
    exact ⟨L, I.goto (c := .scan n i _) hn (by simp [HeapPc.freeing])⟩
  | take hpc hs => exact I.take hP hu hpc hs
  | @free t obj size hpc hobj hnot =>
    exact ⟨L, I.goto (c := .pool obj size 0) hobj fun _ h => Or.inr (Option.some.inj h ▸ hnot)⟩
  | @pool t obj size i hpc hi =>
    have hobj := I.pc t
    rw [hpc] at hobj
    refine ⟨L, I.goto ?_ fun obj h => Or.inl ?_⟩
    · split_ifs
      · exact hobj
      · exact ⟨hobj, hi, Or.inl rfl⟩
    · rw [hpc]
      split_ifs at h <;> exact h
  | @ftest t obj size i prev b hpc =>
    have hc := I.pc t
    rw [hpc] at hc
    obtain ⟨hobj, hi9, hprev⟩ := hc
    refine ⟨L, I.goto ?_ fun obj h => Or.inl ?_⟩
    · split_ifs with h0 hpg
      · exact hobj
      · exact ⟨hobj, hi9, hprev, hpool hi9 (hu i b (by rw [hpc]; rfl) h0), hpg⟩
      · exact ⟨hobj, hi9, hprev⟩
    · rw [hpc]
      split_ifs at h <;> exact h
  | @fnext t obj size i prev b hpc =>
    have hc := I.pc t
    rw [hpc] at hc
    obtain ⟨hobj, hi9, -⟩ := hc
    refine ⟨L, I.goto (c := .fscan obj size i b _) ⟨hobj, hi9, or_iff_not_imp_left.2 fun h0 => ?_⟩
      fun obj h => Or.inl (by rw [hpc]; exact h)⟩
    exact Or.inr ⟨i, hi9, hpool hi9 (hu i b (by rw [hpc]; rfl) h0)⟩
  | put hpc hs => exact I.put hP hu hpc hs
  | @write c i a v hc hi h1 h2 =>
    obtain ⟨hcore, hdesc⟩ := I.heap.core.write hc hi h1 h2 v
    have S : Beside L x.heap.mem 0 L (Function.update x.heap.mem a v) := ⟨fun _ _ _ he _ => he,
      fun _ _ _ _ _ => rfl, fun j hj e he => hdesc e (Or.inr ⟨j, hj, he⟩) .page, fun _ he => he⟩
    have hnot {j : ℕ} (hj : j < 9) (h0 : 0 ∈ L.pool j) : False := (I.heap.core.pool j hj).ne_nil h0 rfl
    refine ⟨L, ⟨hcore, fun j hj d hd => ?_, I.heap.valid⟩, fun u => (I.pc u).frame (I.take_lt u) S
      (fun obj h => (I.pc u).mem h) (fun n j hu' h0 => (hnot (I.take_lt u n j 0 hu') h0).elim)
      fun obj j prev hu' => ?_, I.once⟩
    · rw [hdesc d (Or.inr ⟨j, hj, hd⟩)]
      exact I.heap.busy j hj d hd
    · have hput := I.pc u
      rw [hu'] at hput
      exact hput.2.2.2.1

theorem TasksInv.reach (hP : PagerOk pager valid used) (hf : h₀.Fresh) (hv : valid h₀.pages)
    (hx : ((heapTasks T pager h₀).restrict Undisturbed).Reach x) : ∃ L, TasksInv valid used x L := by
  refine hx.invariant (I := fun x => ∃ L, TasksInv valid used x L) (fun x hx => ?_) fun x op y hI hs => ?_
  · cases hx
    exact ⟨_, .init hf hv⟩
  · obtain ⟨L, I⟩ := hI
    exact I.step hP hs.1 hs.2

/-- **In every run of undisturbed steps, what a `malloc` found is still good when interrupts are off**:
    it takes from a bucket of the chain that has a free block, and no block is handed out twice. -/
theorem malloc_preempted (hP : PagerOk pager valid used) (hf : h₀.Fresh) (hv : valid h₀.pages)
    (hx : ((heapTasks T pager h₀).restrict Undisturbed).Reach x) : MallocSafe pager x := by
  obtain ⟨L, I⟩ := TasksInv.reach hP hf hv hx
  refine ⟨fun t n i b hpc => ?_, I.heap.core.nodup⟩
  obtain ⟨hn, hb⟩ := I.found hpc
  rcases mallocTake_spec hP hn I.heap hb with hno | ⟨h, d, h', p, L', hbucket, hd, hptr, htake, K⟩
  · exact Or.inl hno
  · have hnd := K.inv.core.nodup
    rw [List.map_cons, List.nodup_cons] at hnd
    exact Or.inr ⟨h, d, h', p, hbucket, hd, hptr, htake, K.ne, hnd.1⟩

/-- A step that takes the last free block of a bucket which another `malloc` has found leaves that one
    with an empty bucket. -/
theorem TasksInv.drained (I : TasksInv valid used x L) (hu : ¬ Undisturbed x (.take t))
    (hs : CallStep pager x (.take t) y) : ¬ MallocSafe pager y := by
  intro hsafe
  refine hu fun n i b hpc h0 ⟨u, hut, n', i', hu'⟩ hnull => ?_
  cases hs with
  | take hpc' hs =>
    rw [hpc] at hpc'
    cases hpc'
    obtain ⟨hn, hb⟩ := I.found hpc
    have hb16 := (I.heap.core.desc_of_pool (bucketFor_spec hn).1 (hb.resolve_left h0).1).2.1
    simp only [mallocTake, mallocBucket, if_neg h0, pure_eq_ok, ok_bind] at hs
    cases hs
    have hpcu : Function.update x.pc t .idle u = .take n' i' b := (Function.update_of_ne hut ..).trans hu'
    rcases hsafe.take u n' i' b hpcu with ⟨-, msg, he⟩ | ⟨h, d, -, -, he, -, hptr, -⟩
    · simp only [mallocTake, mallocBucket, if_neg h0, pure_eq_ok, ok_bind, reduceCtorEq] at he
    · rw [mallocBucket, if_neg h0] at he
      cases he
      refine hptr ?_
      dsimp only [takeBlock]
      rw [fld_setFld hb16 hb16, if_neg (by simp), fld_setFld hb16 hb16, if_pos ⟨rfl, rfl⟩, hnull]
      rfl

end

/-! ## A malloc that returns NULL -/

/-- The pool of the two blocks of 2048 bytes in a page: the first `malloc` makes a bucket `b` and takes
    one of them, the second takes the other. -/
theorem mallocTake_2048 : ∃ h₁ p₁ h₂ p₂, mallocTake kpager kernelHeap 7 0 = .ok (h₁, p₁) ∧
    h₁.first_bucket 7 ≠ 0 ∧ fld h₁.mem .freeptr (h₁.first_bucket 7) ≠ 0 ∧
    fld h₁.mem .next_desc (h₁.first_bucket 7) = 0 ∧
    mallocTake kpager h₁ 7 (h₁.first_bucket 7) = .ok (h₂, p₂) ∧
    h₂.first_bucket 7 = h₁.first_bucket 7 ∧ fld h₂.mem .freeptr (h₁.first_bucket 7) = 0 := by
  have hrun : (do
      let (h₁, _) ← mallocTake kpager kernelHeap 7 0
      let b := h₁.first_bucket 7
      cassert (b ≠ 0 ∧ fld h₁.mem .freeptr b ≠ 0 ∧ fld h₁.mem .next_desc b = 0) "one block is left"
      let (h₂, _) ← mallocTake kpager h₁ 7 b
      cassert (h₂.first_bucket 7 = b ∧ fld h₂.mem .freeptr b = 0) "no block is left"
      return () : C Unit).isOk = true := by
    decide +kernel
  obtain ⟨a, hrun⟩ := ok_of_isOk hrun
  rw [bind_eq_ok] at hrun
  obtain ⟨⟨h₁, p₁⟩, he₁, hrun⟩ := hrun
  dsimp only at hrun
  rw [cassert_bind_eq_ok, bind_eq_ok] at hrun
  obtain ⟨⟨h0, hf, hn⟩, ⟨h₂, p₂⟩, he₂, hrun⟩ := hrun
  dsimp only at hrun
  rw [cassert_bind_eq_ok] at hrun
  obtain ⟨⟨hb, hnull⟩, -⟩ := hrun
  exact ⟨h₁, p₁, h₂, p₂, he₁, h0, hf, hn, he₂, hb, hnull⟩

/-- The first `malloc` of the run, and the bucket that the next one finds. -/
theorem malloc_2048 : ∃ h₁ p₁ b h₂ p₂, malloc kpager kernelHeap 2048 = .ok (h₁, p₁) ∧
    h₁.first_bucket 7 = b ∧ b ≠ 0 ∧ fld h₁.mem .freeptr b ≠ 0 ∧
    malloc kpager h₁ 2048 = .ok (h₂, p₂) ∧ fld h₂.mem .freeptr b = 0 := by
  obtain ⟨h₁, p₁, h₂, p₂, he₁, h0, hf, -, he₂, -, hnull⟩ := mallocTake_2048
  have hfor : bucketFor 2048 = some 7 := by decide
  refine ⟨h₁, p₁, _, h₂, p₂, ?_, rfl, h0, hf, ?_, hnull⟩
  · rw [malloc_eq hfor (walk_nil (by decide)), he₁]
  · rw [malloc_eq hfor (walk_of_pos (by decide) h0 (decide_eq_true hf)), he₂]

/-- `true` has found the bucket of the pool and is preempted. -/
theorem malloc_preempted_2048 : ∃ (x : HeapTasks Bool Bitmap) (b : ℕ),
    x.pc true = .take 2048 7 b ∧ b ≠ 0 ∧ MallocSafe kpager x := by
  obtain ⟨h₁, p₁, h₂, p₂, he₁, h0, hf, hn, -⟩ := mallocTake_2048
  have hstep {x y : HeapTasks Bool Bitmap} {op : CallOp Bool}
      (hx : ((heapTasks Bool kpager kernelHeap).restrict Undisturbed).Reach x)
      (hs : CallStep kpager x op y) (hu : Undisturbed x op) :
      ((heapTasks Bool kpager kernelHeap).restrict Undisturbed).Reach y := hx.step ⟨hu, hs⟩
  have hx : ((heapTasks Bool kpager kernelHeap).restrict Undisturbed).Reach
      ⟨kernelHeap, [], fun _ => .idle⟩ := .init rfl
  have hx := hstep hx (.malloc (t := false) (n := 2048) (i := 7) rfl (by decide)) trivial
  have hx := hstep hx (.test HeapTasks.goto_pc) fun i b hr hb => by
    rw [HeapTasks.goto_pc] at hr
    cases hr
    exact absurd rfl hb
  rw [HeapTasks.goto_goto, if_pos (c := kernelHeap.first_bucket 7 = 0 ∨ _) (Or.inl rfl)] at hx
  have hx := hstep hx (.take HeapTasks.goto_pc he₁) fun n i b hpc hb => by
    rw [HeapTasks.goto_pc] at hpc
    cases hpc
    exact absurd rfl hb
  have hx := hstep hx (.malloc (t := true) (n := 2048) (i := 7) rfl (by decide)) trivial
  have hx := hstep hx (.test HeapTasks.goto_pc) fun i b hr hb => by
    rw [HeapTasks.goto_pc] at hr
    cases hr
    exact ⟨_, .cons h0 (chain_nil_iff.2 hn), List.mem_cons_self⟩
  refine ⟨_, h₁.first_bucket 7, ?_, h0,
    malloc_preempted kpager_ok ⟨rfl, fun _ => rfl⟩ kernelMap_paged hx⟩
  rw [HeapTasks.goto_pc]
  exact if_pos (Or.inr hf)

/-- The step in which `false` takes the last block of the bucket that `true` has found: the `malloc` of
    `true` returns NULL. -/
theorem malloc_drained : ∃ x : HeapTasks Bool Bitmap, (heapTasks Bool kpager kernelHeap).Reach x ∧
    ¬ MallocSafe kpager x := by
  obtain ⟨h₁, p₁, b, h₂, p₂, he₁, hb, h0, hf, he₂, hnull⟩ := malloc_2048
  obtain ⟨x, hx, rfl, hpc, hidle⟩ : ∃ x : HeapTasks Bool Bitmap,
      (heapTasks Bool kpager kernelHeap).Reach x ∧ x.heap = h₁ ∧ x.pc true = .take 2048 7 b ∧
      x.pc false = .idle := by
    have hx : (heapTasks Bool kpager kernelHeap).Reach ⟨kernelHeap, [], fun _ => .idle⟩ := .init rfl
    have hx := reach_malloc (t := false) hx rfl he₁
    have hx := reach_step hx (.malloc (t := true) (n := 2048) (i := 7) rfl (by decide))
    have hx := reach_step hx (.test HeapTasks.goto_pc)
    refine ⟨_, hx, rfl, ?_, by simp [HeapTasks.goto]⟩
    rw [HeapTasks.goto_pc]
    subst hb
    exact if_pos (Or.inr hf)
  have hx := reach_malloc hx hidle he₂
  refine ⟨_, hx, fun hsafe => ?_⟩
  rcases hsafe.take true 2048 7 b hpc with ⟨-, msg, he⟩ | ⟨h, d, -, -, he, -, hptr, -⟩
  · simp only [mallocTake, mallocBucket, if_neg h0, pure_eq_ok, ok_bind, reduceCtorEq] at he
  · rw [mallocBucket, if_neg h0] at he
    cases he
    exact hptr hnull

end Rdix
