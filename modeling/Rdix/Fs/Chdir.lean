/-
  The working directory (fs/minix1/namei.c: strrsep .. sys_chdir).

  `task->pwd` is a buffer of `TASK_PWD_LEN` bytes; a string in it is given by its characters.  The
  caller's path has room for the separator that `addsep` adds.  Page 0 is not mapped, so a string
  that is copied to `NULL` halts the kernel.
-/
import Rdix.Fs.Lookup

namespace Rdix

open ByteMem Function

/-- `TASK_PWD_LEN`. -/
abbrev taskPwdLen : ℕ := 1024

/-- `'/'` and `'.'`. -/
def slash : Chr := ⟨0x2f#8, by decide⟩

def dot : Chr := ⟨0x2e#8, by decide⟩

/-- `strcmp(str0, str1, count)`: the first `count` characters are the same. -/
def strcmp : CStr → CStr → ℕ → Bool
  | _, _, 0 => true
  | [], [], _ + 1 => true
  | a :: as, b :: bs, count + 1 => a = b && strcmp as bs count
  | _, _, _ + 1 => false

/-- The loop of `strrsep` from position `i` on. -/
def strrsepLoop : CStr → ℕ → Option ℕ → Option ℕ
  | [], _, prev => prev
  | c :: cs, i, prev => strrsepLoop cs (i + 1) (if isSeparator c ∧ cs ≠ [] then some i else prev)

/-- `strrsep`: the position in the string; `none` is `NULL`. -/
def strrsep (str : CStr) : Option ℕ := strrsepLoop str 0 none

def addsep (str : CStr) : C CStr :=
  match str.getLast? with
  | none => throw (.wild "str")
  | some c => return if isSeparator c then str else str ++ [slash]

/-- `strcpy(task->pwd + old, new)`. -/
def strcpyPwd (pwd : CStr) (old : ℕ) (new : CStr) : C CStr :=
  if old + new.length < taskPwdLen then return pwd.take old ++ new else throw (.wild "pwd")

/-- Where `abspath` cuts `oldpath` for `..`. -/
def cutPos (oldpath : CStr) : C ℕ :=
  if oldpath.length ≠ 1 then do return (← deref "strrsep(oldpath)" (strrsep oldpath)) + 1 else return 1

/-- `abspath`: the strings in the buffers of `oldpath` and `newpath`. -/
def abspath (oldpath newpath : CStr) : C (CStr × CStr) := do
  let newpath ← addsep newpath
  if newpath.head?.any isSeparator then return (← strcpyPwd oldpath 0 newpath, newpath)
  else if strcmp newpath [dot, dot] 2 then do
    let old ← cutPos oldpath
    if 3 < newpath.length then return (← strcpyPwd oldpath old (newpath.drop 3), newpath)
    else return (oldpath.take old, newpath)
  else if strcmp newpath [dot] 1 then
    -- the destination is the `'\0'` at the end of `oldpath`
    if 2 < newpath.length then throw (.null "oldpath[length(oldpath)]") else return (oldpath, newpath)
  else do
    let pwd ← strcpyPwd oldpath oldpath.length newpath
    return (pwd, ← addsep newpath)

/-- `sys_chdir` of a task with `task->pwd`: the task, its `pwd`, and what is returned. -/
def Fs.sysChdir (s : Fs) (task : FsTask) (pwd pathname : CStr) : C (Fs × FsTask × CStr × ℤ) := do
  let (s, inode) ← s.namei task pathname
  match inode with
  | none => return (s, task, pwd, EOF)
  | some inode =>
    if ¬ ISDIR (s.field inode .mode) ∨ inode = task.i_pwd then
      return (← s.iput inode, task, pwd, EOF)
    else do
      let (pwd, _) ← abspath pwd pathname
      let s ← s.iput task.i_pwd
      return (s, { task with i_pwd := inode }, pwd, 0)

/-! ## Strings -/

/-- No character is a separator. -/
def SepFree (w : CStr) : Prop := ∀ c ∈ w, isSeparator c = false

instance (w : CStr) : Decidable (SepFree w) := inferInstanceAs (Decidable (∀ c ∈ w, _))

/-- The string is empty or ends with a separator. -/
def Closed (w : CStr) : Prop := ∀ c ∈ w.getLast?, isSeparator c = true

/-- The component that a path starts with. -/
def firstName (path : CStr) : CStr := path.takeWhile fun c => !isSeparator c

/-- The last component of a string that ends with a separator. -/
def lastComp (pwd : CStr) : CStr := (firstName pwd.dropLast.reverse).reverse

section Strings
variable {c : Chr} {w v : CStr}

theorem SepFree.nil : SepFree [] := fun c hc => by cases hc

theorem Closed.nil : Closed [] := fun c hc => by cases hc

theorem closed_append (w : CStr) (hc : isSeparator c = true) : Closed (w ++ c :: v) ↔ Closed v := by
  unfold Closed
  cases hv : v with
  | nil => simp [hc]
  | cons d v' => simp [List.getLast?_append, List.getLast?_cons_cons]

theorem SepFree.not_closed (h : SepFree w) (hw : w ≠ []) : ¬ Closed w := by
  intro hcl
  have hl := hcl _ (List.getLast?_eq_some_getLast hw)
  rw [h _ (List.getLast_mem hw)] at hl
  cases hl

theorem isSeparator_slash : isSeparator slash = true := by decide

theorem isSeparator_dot : isSeparator dot = false := by decide

theorem SepFree.firstName (h : SepFree w) : Rdix.firstName w = w := by
  refine List.takeWhile_eq_self_iff.2 fun c hc => ?_
  rw [h c hc]
  rfl

theorem SepFree.firstName_append (h : SepFree w) (hc : isSeparator c = true) (v : CStr) :
    Rdix.firstName (w ++ c :: v) = w := by
  unfold Rdix.firstName
  rw [List.takeWhile_append_of_pos]
  · simp [hc]
  · intro a ha
    rw [h a ha]
    rfl

/-- A path is one component, or one and a separator and the rest. -/
theorem exists_firstName (w : CStr) : ∃ u, SepFree u ∧
    (w = u ∨ ∃ c v, isSeparator c = true ∧ w = u ++ c :: v) := by
  induction w with
  | nil =>
    refine ⟨[], fun c hc => ?_, Or.inl rfl⟩
    cases hc
  | cons a w ih =>
    cases ha : isSeparator a with
    | true =>
      refine ⟨[], fun c hc => ?_, Or.inr ⟨a, w, ha, rfl⟩⟩
      cases hc
    | false =>
      obtain ⟨u, hu, hw⟩ := ih
      refine ⟨a :: u, List.forall_mem_cons.2 ⟨ha, hu⟩, ?_⟩
      rcases hw with rfl | ⟨c, v, hc, rfl⟩
      · exact Or.inl rfl
      · exact Or.inr ⟨c, v, hc, rfl⟩

theorem SepFree.dropWhile (h : SepFree w) (v : CStr) :
    (w ++ v).dropWhile (fun ch => !isSeparator ch) = v.dropWhile fun ch => !isSeparator ch := by
  refine List.dropWhile_append_of_pos fun a ha => ?_
  rw [h a ha]
  rfl

/-- The rest of the path, behind one component. -/
theorem nextName_last (h : SepFree w) (hw : w ≠ []) : nextName w = some [] := by
  cases w with
  | nil => exact absurd rfl hw
  | cons a w =>
    have ha : isSeparator a = false := h a (List.mem_cons_self ..)
    have hd := h.dropWhile []
    rw [List.append_nil] at hd
    unfold nextName
    dsimp only
    rw [ha, if_neg (by simp), hd]
    rfl

/-- The rest of the path, behind a component and a separator. -/
theorem nextName_append (h : SepFree w) (hw : w ≠ []) (hc : isSeparator c = true) (v : CStr) :
    nextName (w ++ c :: v) = some v := by
  cases w with
  | nil => exact absurd rfl hw
  | cons a w =>
    have ha : isSeparator a = false := h a (List.mem_cons_self ..)
    have hd := h.dropWhile (c :: v)
    unfold nextName
    rw [List.cons_append]
    dsimp only
    rw [ha, if_neg (by simp), ← List.cons_append, hd, List.dropWhile_cons, hc]
    rfl

theorem addsep_eq_ok {p : CStr} : addsep w = .ok p ↔
    w ≠ [] ∧ (Closed w ∧ p = w ∨ ¬ Closed w ∧ p = w ++ [slash]) := by
  unfold addsep Closed
  cases hw : w.getLast? with
  | none =>
    have : w = [] := List.getLast?_eq_none_iff.1 hw
    constructor
    · intro h
      cases h
    · rintro ⟨h, -⟩
      exact absurd this h
  | some a =>
    have hne : w ≠ [] := by
      rintro rfl
      cases hw
    have hc : (∀ c ∈ some a, isSeparator c = true) ↔ isSeparator a = true := by
      simp only [Option.mem_def, Option.some.injEq, forall_eq']
    rw [hc]
    dsimp only
    split_ifs with ha
    · constructor
      · intro h
        cases h
        exact ⟨hne, Or.inl ⟨ha, rfl⟩⟩
      · rintro ⟨-, ⟨-, rfl⟩ | ⟨hn, -⟩⟩
        · rfl
        · exact absurd ha hn
    · constructor
      · intro h
        cases h
        exact ⟨hne, Or.inr ⟨ha, rfl⟩⟩
      · rintro ⟨-, ⟨hp, -⟩ | ⟨-, rfl⟩⟩
        · exact absurd hp ha
        · rfl

theorem strrsepLoop_append (w v : CStr) (i : ℕ) (prev : Option ℕ) :
    ∃ prev', strrsepLoop (w ++ v) i prev = strrsepLoop v (i + w.length) prev' := by
  induction w generalizing i prev with
  | nil => exact ⟨prev, rfl⟩
  | cons a w ih =>
    obtain ⟨prev', h⟩ := ih (i + 1) (if isSeparator a ∧ w ++ v ≠ [] then some i else prev)
    refine ⟨prev', h.trans ?_⟩
    rw [List.length_cons, Nat.add_right_comm, Nat.add_assoc]

/-- Behind the last separator but the one at the end nothing changes. -/
theorem strrsepLoop_last (h : SepFree w) (c : Chr) (i : ℕ) (prev : Option ℕ) :
    strrsepLoop (w ++ [c]) i prev = prev := by
  induction w generalizing i prev with
  | nil => simp [strrsepLoop]
  | cons a w ih =>
    have ha : isSeparator a = false := h a (List.mem_cons_self ..)
    rw [List.cons_append, strrsepLoop, if_neg (by simp [ha])]
    exact ih (fun b hb => h b (List.mem_cons_of_mem _ hb)) _ _

theorem strrsep_eq (hc : isSeparator c = true) (hv : SepFree v) (c' : Chr) :
    strrsep (w ++ c :: (v ++ [c'])) = some w.length := by
  obtain ⟨prev, h⟩ := strrsepLoop_append w (c :: (v ++ [c'])) 0 none
  rw [strrsep, h, strrsepLoop, if_pos ⟨hc, by simp⟩, strrsepLoop_last hv, Nat.zero_add]

/-- The last component. -/
theorem lastComp_eq (hc : isSeparator c = true) (hv : SepFree v) (c' : Chr) :
    lastComp (w ++ c :: (v ++ [c'])) = v := by
  have hr : SepFree v.reverse := fun a ha => hv a (List.mem_reverse.1 ha)
  unfold lastComp
  rw [show w ++ c :: (v ++ [c']) = (w ++ c :: v) ++ [c'] by simp, List.dropLast_concat,
    List.reverse_append, List.reverse_cons, List.append_assoc, List.singleton_append,
    hr.firstName_append hc, List.reverse_reverse]

end Strings

end Rdix
