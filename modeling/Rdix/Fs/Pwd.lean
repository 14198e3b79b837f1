/-
  The string of the working directory (fs/minix1/namei.c: abspath, sys_chdir).

  * `Tree`: what a directory tree is: names, `.` and `..`;
  * `Followed`: the paths for which `abspath` rewrites the string as `_namei` walks;
  * `MovesOn`: the calls that come to `abspath`, and they have such paths;
  * `pwd_resolves`: in every run of such calls `namei(task->pwd)` leads to `task->i_pwd`;
  * `pwd_astray`: after other calls it does not.
-/
import Rdix.Lib.Run
import Rdix.Fs.Chdir

namespace Rdix

open ByteMem Function Transition

namespace Fs

variable {s s' : Fs} {root n m k : ℕ} {w v name : CStr} {c : Chr}

/-! ## Trees -/

/-- The name at `off` is not empty and has no separator. -/
def ProperName (b : Bytes) (off : ℕ) : Prop :=
  b off ≠ 0#8 ∧ ∀ k, (∀ j ≤ k, b (off + j) ≠ 0#8) → b (off + k) ≠ 0x2f#8 ∧ b (off + k) ≠ 0x5c#8

/-- Entries lead from the root to inode `n`. -/
inductive Below (s : Fs) (root : ℕ) : ℕ → Prop where
  | root : Below s root root
  | entry {n m : ℕ} {name : CStr} : Below s root n → s.Entry n name m → Below s root m

/-- The directories below `root` form a tree: entries have names, `.` is the directory, and `..` the
    one that it is an entry of. -/
structure Tree (s : Fs) (root : ℕ) : Prop where
  proper : ∀ n, s.Below root n → ∀ i < blockDentrys, i < s.nodeField n .size / 16 →
    s.cache.get (s.nodeField n (.zone 0)) 2 (16 * i) ≠ 0 →
      ProperName (s.cache.data (s.nodeField n (.zone 0))) (16 * i + 2)
  dot : ∀ n m, s.Below root n → s.Entry n [dot] m → m = n
  dotdot : ∀ n name k m, s.Below root n → s.Entry n name k → firstName name ≠ [Rdix.dot] →
    firstName name ≠ [Rdix.dot, Rdix.dot] → s.Entry k [Rdix.dot, Rdix.dot] m → m = n
  top : ∀ m, s.Entry root [Rdix.dot, Rdix.dot] m → m = root

/-- A name is compared up to its separator. -/
theorem entryMatch_append {b : Bytes} {off : ℕ}
    (hb : ∀ k, (∀ j ≤ k, b (off + j) ≠ 0#8) → b (off + k) ≠ 0x2f#8 ∧ b (off + k) ≠ 0x5c#8)
    (hw : SepFree w) (hc : isSeparator c = true) (v : CStr) :
    entryMatch b (w ++ c :: v) off = entryMatch b w off := by
  induction w generalizing off with
  | nil =>
    have hne : ¬ (b off ≠ 0#8 ∧ c.val = b off) := by
      rintro ⟨h0, he⟩
      have := hb 0 fun j hj => by rwa [Nat.le_zero.1 hj]
      rw [Nat.add_zero, ← he] at this
      have hsep := of_decide_eq_true hc
      exact hsep.elim this.1 this.2
    rw [List.nil_append, entryMatch, entryMatch, if_neg hne]
    simp [hc]
  | cons a w ih =>
    rw [List.cons_append, entryMatch, entryMatch]
    by_cases hoff : off < blockSize
    · rw [if_pos hoff, if_pos hoff]
      by_cases h0 : b off ≠ 0#8 ∧ a.val = b off
      · rw [if_pos h0, if_pos h0]
        refine ih (fun k hk => ?_) fun d hd => hw d (List.mem_cons_of_mem _ hd)
        have := hb (k + 1) fun j hj => ?_
        · rwa [show off + 1 + k = off + (k + 1) by omega]
        · cases j with
          | zero => exact h0.1
          | succ j =>
            have := hk j (by omega)
            rwa [show off + 1 + j = off + (j + 1) by omega] at this
      · rw [if_neg h0, if_neg h0]
    · rw [if_neg hoff, if_neg hoff]

theorem scan_name_congr {b N i : ℕ} {name' : CStr}
    (h : ∀ k, i ≤ k → k < i + N → s.hit b k name = s.hit b k name') :
    s.scan b name N i = s.scan b name' N i := by
  induction N generalizing i with
  | zero => rfl
  | succ N ih =>
    unfold scan
    rw [h i le_rfl (by omega), ih fun k h1 h2 => h k (by omega) (by omega)]

/-- A directory finds a component, whatever follows it in the path. -/
theorem Tree.entry_append (H : s.Tree root) (hn : s.Below root n) (hw : SepFree w)
    (hc : isSeparator c = true) : s.Entry n (w ++ c :: v) m ↔ s.Entry n w m := by
  have hscan : s.scan (s.nodeField n (.zone 0)) (w ++ c :: v) (s.nodeField n .size / 16) 0 =
      s.scan (s.nodeField n (.zone 0)) w (s.nodeField n .size / 16) 0 := by
    refine scan_name_congr fun k _ hk => ?_
    by_cases h64 : k < blockDentrys
    · unfold hit Fs.dentry
      rw [if_pos h64, pure_eq_ok, ok_bind, ok_bind]
      by_cases h0 : s.cache.get (s.nodeField n (.zone 0)) 2 (16 * k) = 0
      · rw [if_pos h0, if_pos h0]
      · rw [if_neg h0, if_neg h0,
          entryMatch_append (H.proper n hn k h64 (by omega) h0).2 hw hc]
    · rw [hit_behind (Nat.le_of_not_lt h64), hit_behind (Nat.le_of_not_lt h64)]
  constructor
  · rintro ⟨h₁, h₂, h₃, h₄⟩
    exact ⟨h₁, h₂, h₃, hscan ▸ h₄⟩
  · rintro ⟨h₁, h₂, h₃, h₄⟩
    exact ⟨h₁, h₂, h₃, hscan.symm ▸ h₄⟩

/-- No directory finds an empty component. -/
theorem Tree.entry_ne (H : s.Tree root) (hn : s.Below root n) (he : s.Entry n (c :: v) m) :
    isSeparator c = false := by
  by_contra hc
  rw [Bool.not_eq_false] at hc
  obtain ⟨i, hi, -⟩ := ((H.entry_append (w := []) hn (fun d hd => by cases hd) hc).1 he).found
  obtain ⟨hlt, h64, h0, hm⟩ := scan_some hi
  have hp := (H.proper n hn i h64 (by omega) h0).1
  unfold entryMatch at hm
  split_ifs at hm with hoff
  exact hp (of_decide_eq_true (Except.ok.inj hm))

/-! ## Paths through a tree -/

theorem Tree.walk_cons (H : s.Tree root) (hn : s.Below root n) (h : SepFree w) (hw : w ≠ [])
    (hc : isSeparator c = true) (he : s.Entry n w k) (hk : k ≤ s.sb.inodes) (hv : s.Walk k v m) :
    s.Walk n (w ++ c :: v) m := by
  have hne := nextName_append h hw hc v
  have he' := (H.entry_append (v := v) hn h hc).2 he
  cases w with
  | nil => exact absurd rfl hw
  | cons a w =>
    have hv' : s.Walk k ((nextName (a :: w ++ c :: v)).getD []) m := by
      rw [hne]
      exact hv
    exact .cons he' hk hv'

/-- **Induction over the components of a path.** -/
theorem Tree.walk_induction (H : s.Tree root) {P : ℕ → CStr → ℕ → Prop} (nil : ∀ n, P n [] n)
    (last : ∀ n u k, s.Below root n → SepFree u → u ≠ [] → s.Entry n u k → k ≤ s.sb.inodes → P n u k)
    (sep : ∀ n u c v k m, s.Below root n → SepFree u → u ≠ [] → isSeparator c = true → s.Entry n u k →
      k ≤ s.sb.inodes → s.Walk k v m → P k v m → P n (u ++ c :: v) m)
    (hw : s.Walk n w m) (hn : s.Below root n) : P n w m := by
  induction hw with
  | nil n => exact nil n
  | @cons n k m c cs he hk hw ih =>
    have hc := H.entry_ne hn he
    have ih' := ih (hn.entry he)
    obtain ⟨u, hu, hcs⟩ := exists_firstName (c :: cs)
    have hne : u ≠ [] := by
      rintro rfl
      rcases hcs with h | ⟨d, v, hd, h⟩
      · cases h
      · cases h
        rw [hc] at hd
        cases hd
    rcases hcs with h | ⟨d, v, hd, h⟩
    · rw [h, nextName_last hu hne] at hw
      rw [h] at he ⊢
      cases hw
      exact last n u k hn hu hne he hk
    · rw [h, nextName_append hu hne hd] at hw ih'
      rw [h] at he ⊢
      exact sep n u d v k m hn hu hne hd ((H.entry_append hn hu hd).1 he) hk hw ih'

/-- A path behind another one. -/
theorem Tree.walk_append (H : s.Tree root) (hn : s.Below root n) (hcl : Closed w) (hw : s.Walk n w m)
    (hv : s.Walk m v k) : s.Walk n (w ++ v) k := by
  revert hcl hv
  refine H.walk_induction (P := fun n w m => Closed w → s.Walk m v k → s.Walk n (w ++ v) k) ?_ ?_ ?_ hw hn
  · intro n _ hv
    exact hv
  · intro n u j _ hu hne _ _ hcl
    exact absurd hcl (hu.not_closed hne)
  · intro n u c v' j m hn hu hne hc he hj _ ih hcl hv
    rw [List.append_assoc, List.cons_append]
    exact H.walk_cons hn hu hne hc he hj (ih ((closed_append u hc).1 hcl) hv)

/-- The separator that `addsep` adds does not change where a path leads. -/
theorem Tree.walk_addsep (H : s.Tree root) (hn : s.Below root n) {w' : CStr} (hw' : addsep w = .ok w')
    (hw : s.Walk n w m) : s.Walk n w' m := by
  obtain ⟨hne, ⟨-, rfl⟩ | ⟨hcl, rfl⟩⟩ := addsep_eq_ok.1 hw'
  · exact hw
  revert hne hcl
  refine H.walk_induction (P := fun n w m => addsep w = .ok (w ++ [slash]) → w ≠ [] → ¬ Closed w →
    s.Walk n (w ++ [slash]) m) ?_ ?_ ?_ hw hn hw'
  · intro n _ hne
    exact absurd rfl hne
  · intro n u j hn hu hne he hj _ _ _
    exact H.walk_cons hn hu hne isSeparator_slash he hj (.nil j)
  · intro n u c v j m hn hu hne hc he hj hv ih _ _ hcl
    rw [closed_append u hc] at hcl
    have hvne : v ≠ [] := by
      rintro rfl
      exact hcl Closed.nil
    rw [List.append_assoc, List.cons_append]
    exact H.walk_cons hn hu hne hc he hj (ih (addsep_eq_ok.2 ⟨hvne, Or.inr ⟨hcl, rfl⟩⟩) hvne hcl)

/-- The last component of a path. -/
theorem Tree.walk_last (H : s.Tree root) (hn : s.Below root n) (hw : s.Walk n w m) (hcl : Closed w)
    (hne : w ≠ []) : ∃ w' u c k, Closed w' ∧ SepFree u ∧ isSeparator c = true ∧ w = w' ++ (u ++ [c]) ∧
      s.Walk n w' k ∧ s.Below root k ∧ s.Entry k u m := by
  revert hcl hne
  refine H.walk_induction (P := fun n w m => Closed w → w ≠ [] → ∃ w' u c k, Closed w' ∧ SepFree u ∧
    isSeparator c = true ∧ w = w' ++ (u ++ [c]) ∧ s.Walk n w' k ∧ s.Below root k ∧ s.Entry k u m)
    ?_ ?_ ?_ hw hn
  · intro n _ hne
    exact absurd rfl hne
  · intro n u j _ hu hne _ _ hcl
    exact absurd hcl (hu.not_closed hne)
  · intro n u c v j m hn hu hne hc he hj hv ih hcl _
    cases hve : v with
    | nil =>
      rw [hve] at hv
      cases hv
      exact ⟨[], u, c, n, Closed.nil, hu, hc, rfl, .nil n, hn, he⟩
    | cons d v' =>
      obtain ⟨w', u', c', k', hcl', hu', hc', hv', hw', hk', he'⟩ :=
        ih ((closed_append u hc).1 hcl) (hve ▸ List.cons_ne_nil d v')
      refine ⟨u ++ c :: w', u', c', k', (closed_append u hc).2 hcl', hu', hc', ?_,
        H.walk_cons hn hu hne hc he hj hw', hk', he'⟩
      rw [← hve, hv', List.append_assoc, List.cons_append]

end Fs

/-! ## Strings and paths -/

/-- The path is absolute, or it does not start with `..`, or its first component is `..` and the last
    component of the string is a name. -/
def Followed (pwd pathname : CStr) : Prop :=
  pathname.head?.any isSeparator = true ∨ strcmp pathname [dot, dot] 2 = false ∨
    firstName pathname = [dot, dot] ∧ lastComp pwd ≠ [dot] ∧ lastComp pwd ≠ [dot, dot]

/-- Where a path leads, from the root or from the working directory. -/
def Names (s : Fs) (root cur : ℕ) (path : CStr) (m : ℕ) : Prop :=
  ∃ c cs, path = c :: cs ∧ if isSeparator c then s.Walk root cs m else s.Walk cur path m

/-- A string that begins and ends with a separator and leads to inode `m`. -/
def PwdOk (s : Fs) (root : ℕ) (pwd : CStr) (m : ℕ) : Prop :=
  ∃ c rest, pwd = c :: rest ∧ isSeparator c = true ∧ Closed rest ∧ s.Walk root rest m

section Chdir

variable {s : Fs} {root n m k : ℕ} {c : Chr} {pwd path p p' rest : CStr}

theorem strcmp_dotdot : strcmp p [dot, dot] 2 = true ↔ ∃ v, p = dot :: dot :: v := by
  cases p with
  | nil => simp [strcmp]
  | cons a p =>
    cases p with
    | nil => simp [strcmp]
    | cons b p => simp [strcmp]

theorem strcmp_dot : strcmp p [dot] 1 = true ↔ ∃ v, p = dot :: v := by
  cases p with
  | nil => simp [strcmp]
  | cons a p => simp [strcmp]

/-- `addsep` adds no dot. -/
theorem strcmp_of_addsep {a : Chr} {as bs : CStr}
    (hbs : bs = as ∨ ¬ Closed (a :: as) ∧ bs = as ++ [slash])
    (h : strcmp (a :: bs) [dot, dot] 2 = true) : strcmp (a :: as) [dot, dot] 2 = true := by
  obtain ⟨v, hv⟩ := strcmp_dotdot.1 h
  rw [strcmp_dotdot]
  obtain ⟨rfl, htail⟩ := List.cons.inj hv
  rcases hbs with rfl | ⟨-, rfl⟩
  · exact ⟨v, by rw [htail]⟩
  · cases as with
    | nil =>
      have : slash = dot := (List.cons.inj htail).1
      exact absurd this (by decide)
    | cons b as => exact ⟨as, by rw [(List.cons.inj htail).1]⟩

/-- `addsep` changes no head. -/
theorem addsep_cons {a : Chr} {as : CStr} (h : addsep (a :: as) = .ok p) :
    Closed p ∧ ∃ bs, p = a :: bs ∧ (bs = as ∨ ¬ Closed (a :: as) ∧ bs = as ++ [slash]) := by
  obtain ⟨-, ⟨hcl, rfl⟩ | ⟨hcl, rfl⟩⟩ := addsep_eq_ok.1 h
  · exact ⟨hcl, as, rfl, Or.inl rfl⟩
  · exact ⟨(closed_append _ isSeparator_slash).2 Closed.nil, as ++ [slash], rfl, Or.inr ⟨hcl, rfl⟩⟩

theorem strcpyPwd_eq_ok {old : ℕ} {new : CStr} (h : strcpyPwd pwd old new = .ok p) :
    p = pwd.take old ++ new := by
  unfold strcpyPwd at h
  split_ifs at h
  cases h
  rfl

/-- An absolute path takes the place of the string. -/
theorem abspath_root (H : s.Tree root) {a : Chr} {as : CStr} (ha : isSeparator a = true)
    (hw : s.Walk root as m) (h : abspath pwd (a :: as) = .ok (p, p')) : PwdOk s root p m := by
  obtain ⟨q, hq, h⟩ := bind_eq_ok.1 h
  obtain ⟨hcl, bs, rfl, hbs⟩ := addsep_cons hq
  rw [if_pos (by simpa using ha)] at h
  obtain ⟨r, hr, h⟩ := bind_eq_ok.1 h
  cases h
  rw [strcpyPwd_eq_ok hr]
  refine ⟨a, bs, rfl, ha, (closed_append [] ha).1 hcl, ?_⟩
  rcases hbs with rfl | ⟨hn, rfl⟩
  · exact hw
  · have has : ¬ Closed as := fun hc => hn ((closed_append [] ha).2 hc)
    refine H.walk_addsep .root (addsep_eq_ok.2 ⟨?_, Or.inr ⟨has, rfl⟩⟩) hw
    rintro rfl
    exact has Closed.nil

/-- The string without its last component leads to the parent. -/
theorem cutPos_spec (H : s.Tree root) (hp : PwdOk s root pwd n) (h₁ : lastComp pwd ≠ [dot])
    (h₂ : lastComp pwd ≠ [dot, dot]) (he : s.Entry n [dot, dot] k) {old : ℕ}
    (h : cutPos pwd = .ok old) : PwdOk s root (pwd.take old) k := by
  obtain ⟨c, rest, rfl, hc, hcl, hw⟩ := hp
  by_cases hrest : rest = []
  · rw [hrest] at h hw ⊢
    cases hw
    cases h
    obtain rfl := H.top k he
    exact ⟨c, [], rfl, hc, Closed.nil, .nil _⟩
  · obtain ⟨w, u, c', j, hclw, hu, hc', rfl, hww, hj, hej⟩ := H.walk_last .root hw hcl hrest
    -- the separator in front of the last component
    obtain ⟨W, d, hd, hW⟩ : ∃ W d, isSeparator d = true ∧ c :: w = W ++ [d] := by
      rcases List.eq_nil_or_concat w with rfl | ⟨W, d, rfl⟩
      · exact ⟨[], c, hc, rfl⟩
      · refine ⟨c :: W, d, hclw d ?_, by simp⟩
        simp
    have hpwd : c :: (w ++ (u ++ [c'])) = W ++ d :: (u ++ [c']) := by
      rw [← List.cons_append, hW, List.append_assoc, List.singleton_append]
    rw [hpwd] at h h₁ h₂ ⊢
    rw [lastComp_eq hd hu] at h₁ h₂
    unfold cutPos at h
    rw [if_pos (by simp only [List.length_append, List.length_cons]; omega), strrsep_eq hd hu] at h
    cases h
    refine ⟨c, w, ?_, hc, hclw, ?_⟩
    · rw [hW, ← List.singleton_append, ← List.append_assoc]
      exact List.take_left' (by simp)
    · rw [H.dotdot j u n k hj hej (hu.firstName.symm ▸ h₁) (hu.firstName.symm ▸ h₂) he]
      exact hww

/-- What `addsep` makes of a path, behind its first component. -/
theorem addsep_firstName (h : addsep path = .ok p) :
    ∃ c v, isSeparator c = true ∧ p = firstName path ++ c :: v ∧ Closed v ∧ SepFree (firstName path) := by
  obtain ⟨u, hu, hpath⟩ := exists_firstName path
  rcases hpath with rfl | ⟨c, v, hc, rfl⟩
  · obtain ⟨hne, ⟨hcl, -⟩ | ⟨-, rfl⟩⟩ := addsep_eq_ok.1 h
    · exact absurd hcl (hu.not_closed hne)
    · exact ⟨slash, [], isSeparator_slash, by rw [hu.firstName], Closed.nil, hu.firstName.symm ▸ hu⟩
  · rw [hu.firstName_append hc]
    obtain ⟨-, ⟨hcl, rfl⟩ | ⟨hcl, rfl⟩⟩ := addsep_eq_ok.1 h
    · exact ⟨c, v, hc, rfl, (closed_append u hc).1 hcl, hu⟩
    · refine ⟨c, v ++ [slash], hc, by simp, ?_, hu⟩
      exact (closed_append v isSeparator_slash).2 Closed.nil

/-- The first component of a path, and the rest. -/
theorem walk_inv (H : s.Tree root) (hn : s.Below root n) {u v : CStr} (hu : SepFree u) (hne : u ≠ [])
    (hc : isSeparator c = true) (h : s.Walk n (u ++ c :: v) m) : ∃ k, s.Entry n u k ∧ s.Walk k v m := by
  have hnext := nextName_append hu hne hc v
  cases u with
  | nil => exact absurd rfl hne
  | cons a u =>
    cases h with
    | @cons _ k _ _ _ he _ hw =>
      refine ⟨k, (H.entry_append hn hu hc).1 he, ?_⟩
      have hw' : s.Walk k ((nextName (a :: u ++ c :: v)).getD []) m := hw
      rw [hnext] at hw'
      exact hw'

theorem PwdOk.append (H : s.Tree root) (hp : PwdOk s root p n) {v : CStr} (hcl : Closed v)
    (hv : s.Walk n v m) : PwdOk s root (p ++ v) m := by
  obtain ⟨c, rest, rfl, hc, hclr, hw⟩ := hp
  refine ⟨c, rest ++ v, rfl, hc, ?_, H.walk_append .root hclr hw hv⟩
  cases hve : v with
  | nil =>
    rw [List.append_nil]
    exact hclr
  | cons d v' =>
    intro e he
    rw [hve] at hcl
    rw [List.getLast?_append] at he
    refine hcl e ?_
    cases hl : (d :: v').getLast? with
    | none => exact absurd (List.getLast?_eq_none_iff.1 hl) (List.cons_ne_nil d v')
    | some x =>
      rw [hl] at he
      exact he

/-- **`abspath` follows `_namei`**, where the path is one that it understands. -/
theorem abspath_leads (H : s.Tree root) (hn : s.Below root n) (hp : PwdOk s root pwd n)
    (hf : Followed pwd path) (hpath : Names s root n path m) (hne : m ≠ n)
    (h : abspath pwd path = .ok (p, p')) : PwdOk s root p m := by
  obtain ⟨a, as, rfl, hw⟩ := hpath
  cases ha : isSeparator a with
  | true =>
    rw [if_pos ha] at hw
    exact abspath_root H ha hw h
  | false =>
    rw [if_neg (by simp [ha])] at hw
    obtain ⟨q, hq, h⟩ := bind_eq_ok.1 h
    have hwq := H.walk_addsep hn hq hw
    obtain ⟨c, v, hc, hqv, hcl, hu⟩ := addsep_firstName hq
    obtain ⟨hclq, bs, rfl, hbs⟩ := addsep_cons hq
    have hune : firstName (a :: as) ≠ [] := by
      simp [firstName, ha]
    obtain ⟨k, he, hv⟩ := walk_inv H hn hu hune hc (hqv ▸ hwq)
    rw [if_neg (by simpa using ha)] at h
    by_cases hdd : strcmp (a :: bs) [dot, dot] 2 = true
    · rw [if_pos hdd] at h
      have hstart : strcmp (a :: as) [dot, dot] 2 = true := strcmp_of_addsep hbs hdd
      obtain hf | hf | ⟨hfirst, h₁, h₂⟩ := hf
      · rw [List.head?_cons, Option.any_some, ha] at hf
        cases hf
      · rw [hstart] at hf
        cases hf
      obtain ⟨old, ho, h⟩ := bind_eq_ok.1 h
      have hk := cutPos_spec H hp h₁ h₂ (hfirst ▸ he) ho
      rw [hqv, hfirst] at h
      have hpe : p = pwd.take old ++ v := by
        split_ifs at h with hlen
        · obtain ⟨r, hr, h⟩ := bind_eq_ok.1 h
          cases h
          exact strcpyPwd_eq_ok hr
        · cases h
          have : v = [] := by
            rw [← List.length_eq_zero_iff]
            simp only [List.length_append, List.length_cons, List.length_nil] at hlen
            omega
          rw [this, List.append_nil]
      rw [hpe]
      exact hk.append H hcl hv
    · rw [if_neg hdd] at h
      by_cases hd : strcmp (a :: bs) [dot] 1 = true
      · rw [if_pos hd] at h
        split_ifs at h with hlen
        -- the path is `.`
        obtain ⟨v', hv'⟩ := strcmp_dot.1 hd
        have hlen' : (a :: bs).length = (firstName (a :: as)).length + (v.length + 1) := by
          rw [hqv, List.length_append, List.length_cons]
        have hpos : 0 < (firstName (a :: as)).length := List.length_pos_of_ne_nil hune
        have hvnil : v = [] := List.length_eq_zero_iff.1 (by omega)
        obtain ⟨x, hx⟩ := List.length_eq_one_iff.1 (by omega : (firstName (a :: as)).length = 1)
        rw [hx, hv'] at hqv
        obtain rfl : dot = x := (List.cons.inj hqv).1
        rw [hvnil] at hv
        cases hv
        exact absurd (H.dot n _ hn (hx ▸ he)) hne
      · rw [if_neg hd] at h
        obtain ⟨r, hr, h⟩ := bind_eq_ok.1 h
        obtain ⟨q', -, h⟩ := bind_eq_ok.1 h
        cases h
        rw [strcpyPwd_eq_ok hr, List.take_length]
        exact hp.append H hclq hwq

/-- A path that starts with `.` and is longer than `./` is copied to `NULL`. -/
theorem abspath_dot_halts (hq : addsep path = .ok p) (hlen : 2 < p.length)
    (h₁ : strcmp p [dot] 1 = true) (h₂ : strcmp p [dot, dot] 2 = false) :
    abspath pwd path = .error (.null "oldpath[length(oldpath)]") := by
  obtain ⟨v, hv⟩ := strcmp_dot.1 h₁
  have hhead : ¬ (p.head?.any isSeparator = true) := by
    rw [hv, List.head?_cons, Option.any_some, isSeparator_dot]
    exact Bool.false_ne_true
  unfold abspath
  rw [hq, ok_bind, if_neg hhead, h₂, if_neg Bool.false_ne_true, if_pos h₁, if_pos hlen]
  rfl

end Chdir

/-! ## Runs of `sys_chdir` -/

/-- A task, its string, and the device. -/
structure ChdirState where
  fs : Fs
  task : FsTask
  pwd : CStr

namespace ChdirState

/-- The inodes of `task->i_root` and `task->i_pwd`. -/
def root (S : ChdirState) : ℕ := (S.fs.inode S.task.i_root).nr

def cur (S : ChdirState) : ℕ := (S.fs.inode S.task.i_pwd).nr

/-- **If the path leads to another directory**, which is when `abspath` is called, it is one that `abspath`
    follows. -/
def MovesOn (S : ChdirState) (path : CStr) : Prop :=
  ∀ m, Names S.fs S.root S.cur path m → ISDIR (S.fs.nodeField m .mode) → m ≠ S.cur → Followed S.pwd path

/-- The device has a directory tree below the root of the task; `l` are references of others. -/
structure Mounted (S : ChdirState) (dev : ℤ) (l : Multiset ℕ) : Prop where
  valid : dev ≠ EOF
  slots : S.fs.Slots dev
  ledger : S.fs.Ledger (S.task.i_root ::ₘ S.task.i_pwd ::ₘ l)
  tree : S.fs.Tree S.root

/-- The string leads where the task is. -/
structure Leads (S : ChdirState) (dev : ℤ) (l : Multiset ℕ) : Prop extends S.Mounted dev l where
  below : S.fs.Below S.root S.cur
  pwd : PwdOk S.fs S.root S.pwd S.cur

end ChdirState

/-- Calls of `sys_chdir`, from `/`; a call that halts has no step. -/
def chdirSys : Sys ChdirState CStr where
  init S := (∃ dev l, S.Mounted dev l) ∧ S.task.i_pwd = S.task.i_root ∧ S.pwd = [slash]
  step S pathname S' := ∃ r, S.fs.sysChdir S.task S.pwd pathname = .ok (S'.fs, S'.task, S'.pwd, r)

namespace ChdirState

variable {S S' : ChdirState} {dev : ℤ} {l : Multiset ℕ} {path : CStr} {s' : Fs} {o : Option ℕ}

/-- `namei` goes where the path leads. -/
theorem Mounted.namei (M : S.Mounted dev l) (h : S.fs.namei S.task path = .ok (s', o)) :
    S.fs.SameData s' ∧ s'.Slots dev ∧
      s'.Ledger (o.elim (S.task.i_root ::ₘ S.task.i_pwd ::ₘ l) (· ::ₘ S.task.i_root ::ₘ S.task.i_pwd ::ₘ l)) ∧
      (∀ j ∈ S.task.i_root ::ₘ S.task.i_pwd ::ₘ l, (s'.inode j).nr = (S.fs.inode j).nr) ∧
      (∀ k, o = some k → Names S.fs S.root S.cur path (s'.inode k).nr ∧ (s'.inode k).dev ≠ EOF) ∧
      (o = none → ∀ m, ¬ Names S.fs S.root S.cur path m) := by
  have hroot : S.task.i_root ∈ S.task.i_root ::ₘ S.task.i_pwd ::ₘ l := Multiset.mem_cons_self _ _
  have hpwd : S.task.i_pwd ∈ S.task.i_root ::ₘ S.task.i_pwd ::ₘ l :=
    Multiset.mem_cons_of_mem (Multiset.mem_cons_self _ _)
  have hl := Fs._namei_ledger M.ledger hroot hpwd h
  -- the walk starts at `i`, with path `p`
  have key : ∀ i ∈ S.task.i_root ::ₘ S.task.i_pwd ::ₘ l, ∀ p N,
      Fs.nameiLoop true N (S.fs.incCount i) i p = .ok (s', o) → S.fs.SameData s' ∧ s'.Slots dev ∧
        (∀ j ∈ S.task.i_root ::ₘ S.task.i_pwd ::ₘ l, (s'.inode j).nr = (S.fs.inode j).nr) ∧
        (∀ k, o = some k → S.fs.Walk (S.fs.inode i).nr p (s'.inode k).nr ∧ (s'.inode k).dev ≠ EOF) ∧
        (o = none → ∀ m, ¬ S.fs.Walk (S.fs.inode i).nr p m) := by
    intro i hi p N hs
    have hsame : S.fs.SameData (S.fs.incCount i) := ⟨rfl, rfl⟩
    have hS := M.slots.incCount (M.ledger.dev hi)
    have hL := M.ledger.incCount hi
    obtain ⟨h₁, h₂, h₃, h₄⟩ := hS.nameiLoop_walk M.valid (hL.dev (Multiset.mem_cons_self _ _)) hs
    rw [Fs.incCount_nr] at h₃ h₄
    refine ⟨hsame.trans h₁, h₂, fun j hj => ?_, fun k hk => ?_, fun ho m hw => ?_⟩
    · rw [Fs.nameiLoop_nr hL hj hs, Fs.incCount_nr]
    · exact ⟨(h₃ k hk).1.of_same hsame.symm, (h₃ k hk).2⟩
    · exact h₄ ho m (hw.of_same hsame)
  unfold Fs.namei Fs._namei at h
  cases path with
  | nil =>
    cases h
    refine ⟨.refl _, M.slots, hl, fun j _ => rfl, fun k hk => (nomatch hk), ?_⟩
    rintro - m ⟨c, cs, hc, -⟩
    cases hc
  | cons c cs =>
    have hnames : ∀ m, Names S.fs S.root S.cur (c :: cs) m ↔
        if isSeparator c then S.fs.Walk S.root cs m else S.fs.Walk S.cur (c :: cs) m := by
      intro m
      constructor
      · rintro ⟨d, ds, hd, hw⟩
        cases hd
        exact hw
      · intro hw
        exact ⟨c, cs, rfl, hw⟩
    simp only [hnames]
    dsimp only at h
    split_ifs at h ⊢
    · obtain ⟨h₁, h₂, h₃, h₄⟩ := key _ hroot cs _ h
      exact ⟨h₁, h₂, hl, h₃, h₄⟩
    · obtain ⟨h₁, h₂, h₃, h₄⟩ := key _ hpwd (c :: cs) _ h
      exact ⟨h₁, h₂, hl, h₃, h₄⟩

theorem walk_below {s : Fs} {root n m : ℕ} {p : CStr} (hw : s.Walk n p m) (hn : s.Below root n) :
    s.Below root m := by
  induction hw with
  | nil n => exact hn
  | cons he _ _ ih => exact ih (hn.entry he)

theorem names_below {s : Fs} {root n m : ℕ} {p : CStr} (h : Names s root n p m) (hn : s.Below root n) :
    s.Below root m := by
  obtain ⟨c, cs, -, hw⟩ := h
  split_ifs at hw
  · exact walk_below hw .root
  · exact walk_below hw hn

theorem below_of_same {s : Fs} {root n : ℕ} (h : s.SameData s') (hn : s.Below root n) : s'.Below root n := by
  induction hn with
  | root => exact .root
  | entry _ he ih => exact ih.entry (he.of_same h)

theorem tree_of_same {s : Fs} {root : ℕ} (h : s.SameData s') (H : s.Tree root) : s'.Tree root := by
  have hget : ∀ n i, s'.cache.get n 2 i = s.cache.get n 2 i := by
    intro n i
    unfold Cache.get
    rw [h.data]
  constructor
  · intro n hn i hi hlt h0
    rw [h.nodeField] at hlt h0 ⊢
    rw [hget] at h0
    rw [h.data]
    exact H.proper n (below_of_same h.symm hn) i hi hlt h0
  · intro n m hn he
    exact H.dot n m (below_of_same h.symm hn) (he.of_same h.symm)
  · intro n name k m hn he h₁ h₂ he'
    exact H.dotdot n name k m (below_of_same h.symm hn) (he.of_same h.symm) h₁ h₂ (he'.of_same h.symm)
  · intro m he
    exact H.top m (he.of_same h.symm)

theorem pwdOk_of_same {s : Fs} {root m : ℕ} {p : CStr} (h : s.SameData s') (hp : PwdOk s root p m) :
    PwdOk s' root p m := by
  obtain ⟨c, rest, hp, hc, hcl, hw⟩ := hp
  exact ⟨c, rest, hp, hc, hcl, hw.of_same h⟩

/-- Reading changes nothing. -/
theorem Leads.of_same (L : S.Leads dev l) (h : S.fs.SameData s') (hS : s'.Slots dev)
    (hL : s'.Ledger (S.task.i_root ::ₘ S.task.i_pwd ::ₘ l))
    (hnr : ∀ j ∈ S.task.i_root ::ₘ S.task.i_pwd ::ₘ l, (s'.inode j).nr = (S.fs.inode j).nr) :
    Leads ⟨s', S.task, S.pwd⟩ dev l := by
  have hroot : (⟨s', S.task, S.pwd⟩ : ChdirState).root = S.root := hnr _ (Multiset.mem_cons_self _ _)
  have hcur : (⟨s', S.task, S.pwd⟩ : ChdirState).cur = S.cur :=
    hnr _ (Multiset.mem_cons_of_mem (Multiset.mem_cons_self _ _))
  refine ⟨⟨L.valid, hS, hL, ?_⟩, ?_, ?_⟩
  · rw [hroot]
    exact tree_of_same h L.tree
  · rw [hroot, hcur]
    exact below_of_same h L.below
  · rw [hroot, hcur]
    exact pwdOk_of_same h L.pwd

/-- **One call keeps the string and the directory together.** -/
theorem Leads.step (L : S.Leads dev l) (hf : S.MovesOn path) {r : ℤ}
    (h : S.fs.sysChdir S.task S.pwd path = .ok (S'.fs, S'.task, S'.pwd, r)) : S'.Leads dev l := by
  obtain ⟨⟨s₁, o⟩, h₁, h⟩ := bind_eq_ok.1 h
  obtain ⟨hsame, hS, hL, hnr, hsome, -⟩ := L.toMounted.namei h₁
  obtain ⟨fs', task', pwd'⟩ := S'
  cases o with
  | none =>
    cases h
    exact L.of_same hsame hS hL hnr
  | some k =>
    dsimp only at h
    obtain ⟨hnames, hd⟩ := hsome k rfl
    split_ifs at h with hc
    · obtain ⟨s₂, h₂, h⟩ := bind_eq_ok.1 h
      cases h
      exact L.of_same (hsame.trans (Fs.iput_same h₂)) (hS.iput h₂).1 (Fs.Ledger.iput hL h₂)
        fun j hj => (Fs.iput_nr h₂ j).trans (hnr j hj)
    · obtain ⟨⟨p, p'⟩, hp, h⟩ := bind_eq_ok.1 h
      obtain ⟨s₂, h₂, h⟩ := bind_eq_ok.1 h
      cases h
      have hmem : S.task.i_pwd ∈ S.task.i_root ::ₘ S.task.i_pwd ::ₘ l :=
        Multiset.mem_cons_of_mem (Multiset.mem_cons_self _ _)
      -- another slot is another inode
      have hne : (s₁.inode k).nr ≠ S.cur := by
        intro he
        refine hc (Or.inr (hS.inj k _ hd ?_ (he.trans (hnr _ hmem).symm)))
        exact hL.dev (Multiset.mem_cons_of_mem hmem)
      have hdir : ISDIR (S.fs.nodeField (s₁.inode k).nr .mode) := by
        by_contra hmode
        rw [← hsame.nodeField, ← hS.field hd] at hmode
        exact hc (Or.inl hmode)
      have hsame₂ : S.fs.SameData fs' := hsame.trans (Fs.iput_same h₂)
      have hroot : (fs'.inode S.task.i_root).nr = S.root :=
        (Fs.iput_nr h₂ _).trans (hnr _ (Multiset.mem_cons_self _ _))
      have hcur : (fs'.inode k).nr = (s₁.inode k).nr := Fs.iput_nr h₂ k
      have hL' : s₁.Ledger (S.task.i_pwd ::ₘ S.task.i_root ::ₘ k ::ₘ l) := by
        have hswap : S.task.i_pwd ::ₘ S.task.i_root ::ₘ k ::ₘ l =
            k ::ₘ S.task.i_root ::ₘ S.task.i_pwd ::ₘ l := by
          simp only [← Multiset.singleton_add]
          abel
        rw [hswap]
        exact hL
      refine ⟨⟨L.valid, (hS.iput h₂).1, Fs.Ledger.iput hL' h₂, ?_⟩, ?_, ?_⟩
      · show fs'.Tree (fs'.inode S.task.i_root).nr
        rw [hroot]
        exact tree_of_same hsame₂ L.tree
      · show fs'.Below (fs'.inode S.task.i_root).nr (fs'.inode k).nr
        rw [hroot, hcur]
        exact below_of_same hsame₂ (names_below hnames L.below)
      · show PwdOk fs' (fs'.inode S.task.i_root).nr _ (fs'.inode k).nr
        rw [hroot, hcur]
        exact pwdOk_of_same hsame₂
          (abspath_leads L.tree L.below L.pwd (hf _ hnames hdir hne) hnames hne hp)

theorem leads_reach (h : (chdirSys.restrict ChdirState.MovesOn).Reach S) :
    ∃ dev l, S.Leads dev l := by
  refine Sys.Reach.invariant (S := chdirSys.restrict _) (I := fun S => ∃ dev l, Leads S dev l) ?_ ?_ h
  · rintro S ⟨⟨dev, l, M⟩, hpwd, hs⟩
    refine ⟨dev, l, M, ?_, slash, [], hs, isSeparator_slash, Closed.nil, ?_⟩
    · rw [cur, hpwd]
      exact .root
    · rw [cur, hpwd]
      exact .nil _
  · rintro S path S' ⟨dev, l, L⟩ ⟨hf, r, hr⟩
    exact ⟨dev, l, L.step hf hr⟩

end ChdirState

/-- **Main result.** After calls of `sys_chdir` whose paths `abspath` follows where it is called, `namei` of
    `task->pwd` gives the inode of `task->i_pwd`; it returns if the inode table has an entry left. -/
theorem pwd_resolves {S : ChdirState}
    (h : (chdirSys.restrict ChdirState.MovesOn).Reach S) :
    (∀ s' o, S.fs.namei S.task S.pwd = .ok (s', o) → o = some S.task.i_pwd) ∧
      ((∃ j < inodeNr, (S.fs.inode j).dev = EOF) →
        ∃ s', S.fs.namei S.task S.pwd = .ok (s', some S.task.i_pwd)) := by
  obtain ⟨dev, l, L⟩ := ChdirState.leads_reach h
  obtain ⟨c, rest, hpwd, hc, -, hw⟩ := L.pwd
  have hnames : Names S.fs S.root S.cur S.pwd S.cur := ⟨c, rest, hpwd, by rwa [if_pos hc]⟩
  have hmem : S.task.i_pwd ∈ S.task.i_root ::ₘ S.task.i_pwd ::ₘ l :=
    Multiset.mem_cons_of_mem (Multiset.mem_cons_self _ _)
  have huniq : ∀ s' o, S.fs.namei S.task S.pwd = .ok (s', o) → o = some S.task.i_pwd := by
    intro s' o hs
    obtain ⟨hsame, hS, hL, hnr, hsome, hnone⟩ := L.toMounted.namei hs
    cases o with
    | none => exact absurd hnames (hnone rfl _)
    | some k =>
      obtain ⟨hk, hd⟩ := hsome k rfl
      obtain ⟨c', rest', hpwd', hw'⟩ := hk
      rw [hpwd] at hpwd'
      cases hpwd'
      rw [if_pos hc] at hw'
      rw [hS.inj k S.task.i_pwd hd (hL.dev (Multiset.mem_cons_of_mem hmem))
        ((hw'.unique hw).trans (hnr _ hmem).symm)]
  refine ⟨huniq, fun ⟨j, hj, hfree⟩ => ?_⟩
  have hroot : S.task.i_root ∈ S.task.i_root ::ₘ S.task.i_pwd ::ₘ l := Multiset.mem_cons_self _ _
  have hrun : S.fs.namei S.task S.pwd =
      Fs.nameiLoop true rest.length (S.fs.incCount S.task.i_root) S.task.i_root rest := by
    unfold Fs.namei Fs._namei
    rw [hpwd]
    exact if_pos hc
  have hw₀ : (S.fs.incCount S.task.i_root).Walk ((S.fs.incCount S.task.i_root).inode S.task.i_root).nr
      rest S.cur := by
    have hsame : S.fs.SameData (S.fs.incCount S.task.i_root) := ⟨rfl, rfl⟩
    rw [Fs.incCount_nr]
    exact hw.of_same hsame
  obtain ⟨s', k, hk, -⟩ := Fs.nameiLoop_of_walk L.valid (L.slots.incCount (L.ledger.dev hroot))
    (L.ledger.incCount hroot) ⟨j, hj, (L.ledger.free j).1 hfree⟩ hw₀ le_rfl
  rw [← hrun] at hk
  exact ⟨s', huniq s' _ hk ▸ hk⟩

/-! ## A small tree -/

/-- The name at `off` is `w`. -/
def NameAt (b : Bytes) : ℕ → CStr → Prop
  | off, [] => b off = 0#8
  | off, a :: w => b off = a.val ∧ NameAt b (off + 1) w

instance (b : Bytes) : ∀ (off : ℕ) (w : CStr), Decidable (NameAt b off w)
  | off, [] => inferInstanceAs (Decidable (b off = 0#8))
  | off, _ :: w =>
    have := instDecidableNameAt b (off + 1) w
    inferInstanceAs (Decidable (_ ∧ _))

/-- Only that name matches. -/
theorem NameAt.firstName {b : Bytes} {off : ℕ} {w name : CStr} (h : NameAt b off w) (hw : SepFree w)
    (hm : entryMatch b name off = .ok true) : Rdix.firstName name = w := by
  induction w generalizing off name with
  | nil =>
    have hb : b off = 0#8 := h
    cases name with
    | nil => rfl
    | cons c cs =>
      unfold entryMatch at hm
      split_ifs at hm with hoff hc
      · exact absurd hb hc.1
      · have := of_decide_eq_true (Except.ok.inj hm)
        simp [Rdix.firstName, this.2]
  | cons a w ih =>
    obtain ⟨hb, ht⟩ := h
    cases name with
    | nil =>
      unfold entryMatch at hm
      split_ifs at hm
      have := of_decide_eq_true (Except.ok.inj hm)
      exact absurd (hb.symm.trans this) a.2
    | cons c cs =>
      unfold entryMatch at hm
      split_ifs at hm with hoff hc
      · have hca : c = a := Subtype.ext (hc.2.trans hb)
        have hsep : isSeparator c = false := hca ▸ hw a (List.mem_cons_self ..)
        have := ih ht (fun d hd => hw d (List.mem_cons_of_mem _ hd)) hm
        unfold Rdix.firstName at this ⊢
        rw [List.takeWhile_cons, hsep, this, hca]
        rfl
      · have := of_decide_eq_true (Except.ok.inj hm)
        exact absurd (hb.symm.trans this.1) a.2

theorem NameAt.proper {b : Bytes} {off : ℕ} {w : CStr} (h : NameAt b off w) (hw : SepFree w) (k : ℕ)
    (hk : ∀ j ≤ k, b (off + j) ≠ 0#8) : b (off + k) ≠ 0x2f#8 ∧ b (off + k) ≠ 0x5c#8 := by
  induction w generalizing off k with
  | nil => exact absurd h (hk 0 (Nat.zero_le k))
  | cons a w ih =>
    obtain ⟨hb, ht⟩ := h
    cases k with
    | zero =>
      have hsep := of_decide_eq_false (hw a (List.mem_cons_self ..))
      rw [Nat.add_zero, hb]
      exact not_or.1 hsep
    | succ k =>
      rw [show off + (k + 1) = off + 1 + k by omega]
      refine ih ht (fun d hd => hw d (List.mem_cons_of_mem _ hd)) k fun j hj => ?_
      have := hk (j + 1) (by omega)
      rwa [show off + (j + 1) = off + 1 + j by omega] at this

/-- The entries of a directory, all in use and in its first block. -/
structure Listed (s : Fs) (n : ℕ) (es : List (CStr × ℕ)) : Prop where
  size : s.nodeField n .size / 16 = es.length
  name : ∀ i (h : i < es.length),
    NameAt (s.cache.data (s.nodeField n (.zone 0))) (16 * i + 2) (es.get ⟨i, h⟩).1
  nr : ∀ i (h : i < es.length),
    s.cache.get (s.nodeField n (.zone 0)) 2 (16 * i) = (es.get ⟨i, h⟩).2
  sepFree : ∀ e ∈ es, SepFree e.1 ∧ e.1 ≠ []

section Listed
variable {s : Fs} {n m : ℕ} {es : List (CStr × ℕ)} {name : CStr}

theorem Listed.entry (H : Listed s n es) (h : s.Entry n name m) : (firstName name, m) ∈ es := by
  obtain ⟨i, hi, hm⟩ := h.found
  obtain ⟨hlt, -, -, hmatch⟩ := Fs.scan_some hi
  rw [H.size, Nat.zero_add] at hlt
  have hmem : es.get ⟨i, hlt⟩ ∈ es := List.get_mem es ⟨i, hlt⟩
  rw [(H.name i hlt).firstName (H.sepFree _ hmem).1 hmatch, ← hm, H.nr i hlt]
  exact hmem

theorem Listed.proper (H : Listed s n es) (i : ℕ) (hi : i < s.nodeField n .size / 16) :
    Fs.ProperName (s.cache.data (s.nodeField n (.zone 0))) (16 * i + 2) := by
  rw [H.size] at hi
  have hmem : es.get ⟨i, hi⟩ ∈ es := List.get_mem es ⟨i, hi⟩
  obtain ⟨hfree, hne⟩ := H.sepFree _ hmem
  have hname := H.name i hi
  refine ⟨?_, hname.proper hfree⟩
  cases hw : (es.get ⟨i, hi⟩).1 with
  | nil => exact absurd hw hne
  | cons a w =>
    rw [hw] at hname
    rw [hname.1]
    exact a.2

end Listed

open Fs (smallFs)

/-- The entries of `smallFs`. -/
def smallEntries : ℕ → List (CStr × ℕ)
  | 1 => [([dot], 1), ([dot, dot], 1), ([⟨0x61#8, by decide⟩], 2), ([⟨0x66#8, by decide⟩], 3)]
  | 2 => [([dot], 2), ([dot, dot], 1)]
  | _ => []

theorem smallFs_root : Listed (smallFs 3) 1 (smallEntries 1) := by
  refine ⟨?_, ?_, ?_, ?_⟩
  · decide +kernel
  · decide +kernel
  · decide +kernel
  · decide +kernel

theorem smallFs_dir : Listed (smallFs 3) 2 (smallEntries 2) := by
  refine ⟨?_, ?_, ?_, ?_⟩
  · decide +kernel
  · decide +kernel
  · decide +kernel
  · decide +kernel

theorem smallFs_listed {n m : ℕ} {name : CStr} (hn : n = 1 ∨ n = 2 ∨ n = 3)
    (h : (smallFs 3).Entry n name m) : (firstName name, m) ∈ smallEntries n := by
  rcases hn with rfl | rfl | rfl
  · exact smallFs_root.entry h
  · exact smallFs_dir.entry h
  · exact absurd h.dir (by decide +kernel)

theorem smallFs_below {n : ℕ} (h : (smallFs 3).Below 1 n) : n = 1 ∨ n = 2 ∨ n = 3 := by
  induction h with
  | root => exact Or.inl rfl
  | entry _ he ih =>
    have hmem := smallFs_listed ih he
    rcases ih with rfl | rfl | rfl
    · simp only [smallEntries, List.mem_cons, Prod.mk.injEq, List.not_mem_nil, or_false] at hmem
      omega
    · simp only [smallEntries, List.mem_cons, Prod.mk.injEq, List.not_mem_nil, or_false] at hmem
      omega
    · cases hmem

theorem smallFs_tree : (smallFs 3).Tree 1 := by
  have hdot : firstName [dot] = [dot] := by decide
  have hdots : firstName [dot, dot] = [dot, dot] := by decide
  have hup : ∀ k m, k = 1 ∨ k = 2 ∨ k = 3 → (smallFs 3).Entry k [dot, dot] m → m = 1 := by
    intro k m hk he
    have hmem := smallFs_listed hk he
    rw [hdots] at hmem
    rcases hk with rfl | rfl | rfl
    · simp [smallEntries, dot] at hmem
      exact hmem
    · simp [smallEntries, dot] at hmem
      exact hmem
    · cases hmem
  constructor
  · intro n hn i _ hi _
    rcases smallFs_below hn with rfl | rfl | rfl
    · exact smallFs_root.proper i hi
    · exact smallFs_dir.proper i hi
    · rw [show (smallFs 3).nodeField 3 .size / 16 = 0 by decide +kernel] at hi
      exact absurd hi (Nat.not_lt_zero i)
  · intro n m hn he
    have h3 := smallFs_below hn
    have hmem := smallFs_listed h3 he
    rw [hdot] at hmem
    rcases h3 with rfl | rfl | rfl
    · simp [smallEntries, dot] at hmem
      exact hmem
    · simp [smallEntries, dot] at hmem
      exact hmem
    · cases hmem
  · intro n name k m hn he h₁ h₂ he'
    have h3 := smallFs_below hn
    have hm := hup k m (smallFs_below (hn.entry he)) he'
    have hmem := smallFs_listed h3 he
    rcases h3 with rfl | rfl | rfl
    · exact hm
    · simp [smallEntries, h₁, h₂] at hmem
    · cases hmem
  · intro m he
    exact hup 1 m (Or.inl rfl) he

/-- A task in the root of `smallFs`. -/
def smallTask : ChdirState := ⟨smallFs 3, ⟨0, 0, 0, 0, 0o22⟩, [slash]⟩

theorem smallFs_slots : (smallFs 3).Slots 1 := by
  have h0 : ∀ i, ((smallFs 3).inode i).dev ≠ EOF → i = 0 := by
    intro i hi
    by_contra hne
    exact hi (by simp [smallFs, hne])
  constructor
  · intro i hi
    rw [h0 i hi]
    decide
  · intro i hi
    rw [h0 i hi]
    rfl
  · intro i hi
    rw [h0 i hi]
    decide +kernel
  · intro i hi
    rw [h0 i hi]
    decide +kernel
  · intro i hi
    rw [h0 i hi]
    decide +kernel
  · intro i hi
    rw [h0 i hi]
    decide +kernel
  · intro i j hi hj _
    rw [h0 i hi, h0 j hj]

theorem smallTask_mounted : smallTask.Mounted 1 {0} := by
  refine ⟨by decide, smallFs_slots, ⟨fun i => ?_, fun i => ?_⟩, smallFs_tree⟩
  · by_cases hi : i = 0
    · rw [hi]
      decide +kernel
    · simp [smallTask, smallFs, hi]
  · by_cases hi : i = 0
    · simp [smallTask, smallFs, hi, EOF]
    · simp [smallTask, smallFs, hi]

theorem smallTask_init : chdirSys.init smallTask := ⟨⟨1, {0}, smallTask_mounted⟩, rfl, rfl⟩

/-- The path `a`. -/
def pathA : CStr := [⟨0x61#8, by decide⟩]

theorem pwd_resolves_chdir : ∃ S, chdirSys.step smallTask pathA S ∧ S.pwd = slash :: pathA ++ [slash] ∧
    S.task.i_pwd = 1 ∧ ∃ s', S.fs.namei S.task S.pwd = .ok (s', some S.task.i_pwd) := by
  have hrun : (smallTask.fs.sysChdir smallTask.task smallTask.pwd pathA >>= fun r =>
      (return (r.2.2.1, r.2.1.i_pwd, r.2.2.2, (r.1.inode 63).dev) : C (CStr × ℕ × ℤ × ℤ))) =
        .ok (slash :: pathA ++ [slash], 1, 0, EOF) := by
    decide +kernel
  obtain ⟨⟨s, task, pwd, r⟩, h, hobs⟩ := bind_eq_ok.1 hrun
  obtain ⟨hpwd, hrest⟩ := Prod.mk.inj (Except.ok.inj hobs)
  obtain ⟨hi, hrest⟩ := Prod.mk.inj hrest
  have hstep : chdirSys.step smallTask pathA ⟨s, task, pwd⟩ := ⟨r, h⟩
  have hreach : (chdirSys.restrict ChdirState.MovesOn).Reach ⟨s, task, pwd⟩ :=
    .step (.init smallTask_init) ⟨fun _ _ _ _ => Or.inr (Or.inl (by decide)), hstep⟩
  exact ⟨⟨s, task, pwd⟩, hstep, hpwd, hi,
    (pwd_resolves hreach).2 ⟨63, by decide, (Prod.mk.inj hrest).2⟩⟩

/-- **The string goes astray**: `chdir("a/.")`, `chdir("..")` from `/` lead back to `/`, and the string
    is `/a/`. -/
theorem pwd_astray : chdirSys.init smallTask ∧ ∃ S₁ S₂,
    chdirSys.step smallTask (pathA ++ [slash, dot]) S₁ ∧ chdirSys.step S₁ [dot, dot] S₂ ∧
      S₁.task.i_pwd = 1 ∧ S₂.task.i_pwd = 0 ∧
        ∃ s', S₂.fs.namei S₂.task S₂.pwd = .ok (s', some 1) := by
  have hrun : (smallTask.fs.sysChdir smallTask.task smallTask.pwd (pathA ++ [slash, dot]) >>= fun r =>
      r.1.sysChdir r.2.1 r.2.2.1 [dot, dot] >>= fun r' =>
        r'.1.namei r'.2.1 r'.2.2.1 >>= fun r'' =>
          (return (r.2.1.i_pwd, r'.2.1.i_pwd, r''.2) : C (ℕ × ℕ × Option ℕ))) = .ok (1, 0, some 1) := by
    decide +kernel
  obtain ⟨⟨s, task, pwd, r⟩, h, hrun⟩ := bind_eq_ok.1 hrun
  obtain ⟨⟨s', task', pwd', r'⟩, h', hrun⟩ := bind_eq_ok.1 hrun
  obtain ⟨⟨s'', o⟩, h'', hobs⟩ := bind_eq_ok.1 hrun
  obtain ⟨h₁, hrest⟩ := Prod.mk.inj (Except.ok.inj hobs)
  obtain ⟨h₂, rfl⟩ := Prod.mk.inj hrest
  exact ⟨smallTask_init, ⟨s, task, pwd⟩, ⟨s', task', pwd'⟩, ⟨r, h⟩, ⟨r', h'⟩, h₁, h₂, s'', h''⟩

end Rdix
