/-
  Two ways to resolve a path (fs/minix1/namei.c: namei; _namei, filename and find_entry).

  * `Stops`: the path without its last component leads to a directory;
  * `nameiTo_iff`, `opensTo_iff`: what both ways do, in terms of the path and the tree;
  * `filename_relative`, `filename_absolute`: what `filename` makes of the last component;
  * `resolve_iff`: the two ways agree exactly if no separator is doubled before the last component.
-/
import Rdix.Fs.Pwd

namespace Rdix

open ByteMem Function

namespace Fs

variable {s s' : Fs} {dev : ℤ} {root n m k : ℕ} {name ptr q r : CStr} {c : Chr}

/-! ## The path without its last component -/

/-- `find_entry` returns, whether it finds the name or not. -/
def Readable (s : Fs) (n : ℕ) (name : CStr) : Prop :=
  ISDIR (s.nodeField n .mode) ∧ (s.nodeField n .size / 16 = 0 ∨ 0 < s.sb.zones ∧
    s.nodeField n (.zone 0) ≠ 0 ∧
      ∃ o, s.scan (s.nodeField n (.zone 0)) name (s.nodeField n .size / 16) 0 = .ok o)

/-- The path `ptr` leads from inode `n` to inode `m`, where `r` is left of it: the last component, or
    nothing of a path that is empty. -/
inductive Stops (s : Fs) : ℕ → CStr → ℕ → CStr → Prop where
  | here (n : ℕ) : Stops s n [] n []
  | last {n : ℕ} {c : Chr} {cs : CStr} : (nextName (c :: cs)).getD [] = [] → Stops s n (c :: cs) n (c :: cs)
  | cons {n k m : ℕ} {c : Chr} {cs r : CStr} : s.Entry n (c :: cs) k → k ≤ s.sb.inodes →
      (nextName (c :: cs)).getD [] ≠ [] → Stops s k ((nextName (c :: cs)).getD []) m r →
      Stops s n (c :: cs) m r

theorem Readable.of_same (h : s.SameData s') (hr : s.Readable n name) : s'.Readable n name := by
  unfold Readable at hr ⊢
  simp only [h.nodeField, h.sb, scan_congr h.data]
  exact hr

theorem Entry.readable (h : s.Entry n name m) : s.Readable n name := by
  obtain ⟨i, hi, -⟩ := h.found
  exact ⟨h.dir, Or.inr ⟨h.zones, h.zone, some i, hi⟩⟩

theorem Stops.of_same (h : s.SameData s') (hs : s.Stops n ptr m r) : s'.Stops n ptr m r := by
  induction hs with
  | here n => exact .here n
  | last hl => exact .last hl
  | cons he hk hne _ ih => exact .cons (he.of_same h) (h.sb ▸ hk) hne ih

theorem Stops.unique (h : s.Stops n ptr m r) (h' : s.Stops n ptr k q) : m = k ∧ r = q := by
  induction h with
  | here n =>
    cases h'
    exact ⟨rfl, rfl⟩
  | last hl =>
    cases h' with
    | last => exact ⟨rfl, rfl⟩
    | cons _ _ hne => exact absurd hl hne
  | cons he _ hne _ ih =>
    cases h' with
    | last hl => exact absurd hl hne
    | cons he' _ _ hs' =>
      cases he.unique he'
      exact ih hs'

theorem Stops.ne_nil (h : s.Stops n (c :: ptr) m r) : r ≠ [] := by
  generalize hp : c :: ptr = p at h
  induction h generalizing c ptr with
  | here n => cases hp
  | last => exact List.cons_ne_nil _ _
  | cons _ _ hne _ ih =>
    obtain ⟨d, ds, hd⟩ := List.exists_cons_of_ne_nil hne
    exact ih hd.symm

/-- A path leads where its last component leads from the directory before it. -/
theorem walk_iff_stops : s.Walk n (c :: ptr) m ↔
    ∃ k r, s.Stops n (c :: ptr) k r ∧ s.Entry k r m ∧ m ≤ s.sb.inodes := by
  constructor
  · intro hw
    generalize hp : c :: ptr = p at hw ⊢
    induction hw generalizing c ptr with
    | nil n => cases hp
    | @cons n k m c' cs he hk hw ih =>
      by_cases hl : (nextName (c' :: cs)).getD [] = []
      · rw [hl] at hw
        cases hw
        exact ⟨n, c' :: cs, .last hl, he, hk⟩
      · obtain ⟨d, ds, hd⟩ := List.exists_cons_of_ne_nil hl
        obtain ⟨k', r, hs, he'⟩ := ih hd.symm
        exact ⟨k', r, .cons he hk hl hs, he'⟩
  · rintro ⟨k, r, hs, he, hm⟩
    generalize hp : c :: ptr = p at hs ⊢
    induction hs generalizing c ptr with
    | here n => cases hp
    | last hl =>
      refine .cons he hm ?_
      rw [hl]
      exact .nil m
    | cons he' hk hne _ ih =>
      obtain ⟨d, ds, hd⟩ := List.exists_cons_of_ne_nil hne
      exact .cons he' hk (ih he hd.symm)

/-! ## The code -/

/-- `find_entry` in a directory that is in memory returns. -/
theorem Slots.readable {node : ℕ} (h : s.Slots dev) (hn : (s.inode node).dev ≠ EOF) :
    (∃ r, s.findEntry node (some name) = .ok r) ↔ s.Readable (s.inode node).nr name := by
  have hslot : (s.inode node).slot * 16 + 7 < zonesIdxPerBlock := by
    have h1 := h.slot node hn
    have h2 : ((s.inode node).nr - 1) % 32 < 32 := Nat.mod_lt _ (by omega)
    norm_num at h1 ⊢
    omega
  unfold Readable
  rw [← h.field hn, ← h.field hn, ← h.field hn]
  constructor
  · rintro ⟨⟨t, o⟩, hf⟩
    obtain ⟨hd, ⟨hc, -⟩ | ⟨-, hz, -, hz0, -, r, hr, -⟩⟩ := findEntry_eq_ok.1 hf
    · exact ⟨hd, Or.inl hc⟩
    · exact ⟨hd, Or.inr ⟨hz, hz0, r, hr⟩⟩
  · rintro ⟨hd, hc⟩
    rcases Nat.eq_zero_or_pos (s.field node .size / 16) with h0 | hpos
    · exact ⟨_, findEntry_eq_ok.2 ⟨hd, Or.inl ⟨h0, rfl, rfl⟩⟩⟩
    · obtain ⟨hz, hz0, r, hr⟩ := hc.resolve_left hpos.ne'
      exact ⟨_, findEntry_eq_ok.2 ⟨hd, Or.inr ⟨hpos, hz, hslot, hz0, rfl, r, hr, rfl⟩⟩⟩

/-- `_namei(path, false)` goes to the directory of the last component, and looks for it there. -/
theorem Slots.nameiLoop_stops {N node d : ℕ} (hdev : dev ≠ EOF) (h : s.Slots dev)
    (hn : (s.inode node).dev ≠ EOF) (hs : nameiLoop false N s node ptr = .ok (s', some d)) :
    s.SameData s' ∧ s'.Slots dev ∧ (s'.inode d).dev ≠ EOF ∧
      ∃ r, s.Stops (s.inode node).nr ptr (s'.inode d).nr r ∧ (r ≠ [] → s.Readable (s'.inode d).nr r) := by
  induction N generalizing s node ptr with
  | zero =>
    cases ptr with
    | nil =>
      cases hs
      exact ⟨.refl _, h, hn, [], .here _, fun hr => absurd rfl hr⟩
    | cons c cs => cases hs
  | succ N ih =>
    cases ptr with
    | nil =>
      cases hs
      exact ⟨.refl _, h, hn, [], .here _, fun hr => absurd rfl hr⟩
    | cons c cs =>
      by_cases hl : (nextName (c :: cs)).getD [] = []
      · -- the last component is looked for, and nothing else
        obtain ⟨hc, hs⟩ := cassert_bind_eq_ok.1 hs
        obtain ⟨⟨t, bf⟩, hf, hs⟩ := bind_eq_ok.1 hs
        dsimp only at hs
        rw [if_pos ⟨hl, rfl⟩] at hs
        cases hs
        have ht := findEntry_touched hf
        rw [ht.inode]
        exact ⟨ht.same, h.of_inode ht.sb ht.inode, hn, c :: cs, .last hl,
          fun _ => (h.readable hn).1 ⟨_, hf⟩⟩
      · rcases h.nameiLoop_cons hdev hn hs with ⟨⟨hl', -⟩, -⟩ | ⟨ho, -⟩ | ⟨t, node', hsame, hS, hd, he, ht⟩
        · exact absurd hl' hl
        · cases ho
        · obtain ⟨hsame', hS', hd', r, hr, hread⟩ := ih hS hd ht
          exact ⟨hsame.trans hsame', hS', hd', r,
            .cons he (hsame.sb ▸ hS.le node' hd) hl (hr.of_same hsame.symm),
            fun hne => (hread hne).of_same hsame.symm⟩

/-- Where the path without its last component leads, `_namei(path, false)` goes. -/
theorem nameiLoop_of_stops {N node : ℕ} {l : Multiset ℕ} (hdev : dev ≠ EOF) (h : s.Slots dev)
    (hl : s.Ledger (node ::ₘ l)) (hfree : ∃ j < inodeNr, j ∉ l)
    (hs : s.Stops (s.inode node).nr ptr m r) (hr : r ≠ [] → s.Readable m r) (hN : ptr.length ≤ N) :
    ∃ s' d, nameiLoop false N s node ptr = .ok (s', some d) ∧ (s'.inode d).nr = m := by
  induction N generalizing s node ptr with
  | zero =>
    obtain rfl := List.length_eq_zero_iff.1 (Nat.le_zero.1 hN)
    cases hs
    exact ⟨s, node, rfl, rfl⟩
  | succ N ih =>
    cases hs with
    | here => exact ⟨s, node, rfl, rfl⟩
    | @last _ c cs hlast =>
      have hn : (s.inode node).dev ≠ EOF := hl.dev (Multiset.mem_cons_self node l)
      obtain ⟨⟨t, o⟩, hf⟩ := (h.readable hn).2 (hr (List.cons_ne_nil _ _))
      have hdir : ISDIR (s.field node .mode) := (findEntry_eq_ok.1 hf).1
      refine ⟨t, node, ?_, by rw [(findEntry_touched hf).inode]⟩
      unfold nameiLoop
      rw [cassert_pos hdir, ok_bind, hf, ok_bind]
      dsimp only
      rw [if_pos ⟨hlast, rfl⟩]
      rfl
    | @cons _ k _ c cs _ he hk hne hs =>
      obtain ⟨t, node', hsame, hS, hL, rfl, hturn⟩ :=
        nameiLoop_turn (N := N) hdev h hl hfree he hk fun hlast => hne hlast.1
      have hlen : ((nextName (c :: cs)).getD []).length ≤ N :=
        (nextName_length c cs).trans (Nat.le_of_succ_le_succ hN)
      rw [hturn]
      exact ih hS hL (hs.of_same hsame) (fun hne => (hr hne).of_same hsame) hlen

end Fs

/-! ## What `filename` makes of it -/

/-- The end of `filename`: one separator is skipped, and nothing is `NULL`. -/
def lastPart : CStr → Option CStr
  | [] => none
  | c :: cs =>
    let prev := if isSeparator c then cs else c :: cs
    if prev = [] then none else some prev

section Filename
variable {s : Fs} {root n m : ℕ} {path next cs r v : CStr} {c d : Chr}

theorem filename_of_next (h : nextName path = some next) :
    filename path = .ok (lastPart (lastName next.length path next)) := by
  unfold filename lastPart
  rw [h, deref, ok_bind]
  cases lastName next.length path next <;> rfl

theorem lastPart_cons (hc : isSeparator c = false) : lastPart (c :: cs) = some (c :: cs) := by
  unfold lastPart
  dsimp only
  rw [hc]
  rfl

theorem lastPart_sep (hc : isSeparator c = true) : lastPart (c :: cs) = if cs = [] then none else some cs := by
  unfold lastPart
  dsimp only
  rw [hc]
  rfl

/-- A separator at the start is skipped. -/
theorem nextName_sep (hc : isSeparator c = true) :
    nextName (c :: cs) = some (cs.dropWhile fun ch => !isSeparator ch).tail := by
  unfold nextName
  dsimp only
  rw [hc]
  rfl

@[simp] theorem lastName_nil (N : ℕ) (prev : CStr) : lastName N prev [] = prev := by
  cases N <;> rfl

/-- The loop of `filename` ends where `_namei` ends. -/
theorem lastName_stops {N : ℕ} {prev : CStr} (h : s.Stops n (c :: cs) m r) (hN : (c :: cs).length ≤ N) :
    lastName N prev (c :: cs) = r := by
  generalize hp : c :: cs = p at h hN
  induction h generalizing N prev c cs with
  | here n => cases hp
  | @last n c cs hl =>
    cases N with
    | zero => cases hN
    | succ N => rw [lastName, hl, lastName_nil]
  | @cons n k m c cs r he hk hne hs ih =>
    cases N with
    | zero => cases hN
    | succ N =>
      obtain ⟨e, es, hd⟩ := List.exists_cons_of_ne_nil hne
      rw [lastName]
      refine ih hd.symm ((Fs.nextName_length _ _).trans ?_)
      exact Nat.le_of_succ_le_succ hN

/-- A path from the working directory: `filename` is the last component. -/
theorem filename_relative (h : s.Stops n (c :: cs) m r) : filename (c :: cs) = .ok (lastPart r) := by
  obtain ⟨next, hnext⟩ : ∃ next, nextName (c :: cs) = some next := ⟨_, rfl⟩
  rw [filename_of_next hnext]
  cases h with
  | last hl =>
    rw [hnext] at hl
    obtain rfl : next = [] := hl
    rw [lastName_nil]
  | cons _ _ hne hs =>
    rw [hnext] at hne hs
    obtain ⟨d, ds, rfl⟩ := List.exists_cons_of_ne_nil hne
    rw [lastName_stops hs le_rfl]

/-- A path from the root: `filename` is the last component too, if the separator before the path is
    not doubled. -/
theorem filename_absolute (hc : isSeparator c = true) (hd : isSeparator d = false)
    (h : s.Stops n (d :: cs) m r) : filename (c :: d :: cs) = .ok (lastPart r) := by
  obtain ⟨next, hnext⟩ : ∃ next, nextName (d :: cs) = some next := ⟨_, rfl⟩
  have hnext' : nextName (c :: d :: cs) = some next := by
    rw [← hnext, nextName_sep hc]
    unfold nextName
    dsimp only
    rw [hd]
    rfl
  rw [filename_of_next hnext']
  cases h with
  | last hl =>
    rw [hnext] at hl
    obtain rfl : next = [] := hl
    rw [lastName_nil, lastPart_sep hc, lastPart_cons hd, if_neg (List.cons_ne_nil _ _)]
  | cons _ _ hne hs =>
    rw [hnext] at hne hs
    obtain ⟨e, es, rfl⟩ := List.exists_cons_of_ne_nil hne
    rw [lastName_stops hs le_rfl]

theorem filename_root (hc : isSeparator c = true) : filename [c] = .ok none := by
  have hnext : nextName [c] = some [] := nextName_sep hc
  rw [filename_of_next hnext, lastName_nil, lastPart_sep hc, if_pos rfl]

/-- What is behind a doubled separator, if `next_name` skips all of it: a component, perhaps nothing,
    and perhaps a separator. -/
theorem next_doubled (hc : isSeparator c = true) : (nextName (c :: v)).getD [] = [] ↔
    ∃ u e, v = u ++ e ∧ SepFree u ∧ (e = [] ∨ ∃ d, isSeparator d = true ∧ e = [d]) := by
  rw [nextName_sep hc, Option.getD_some]
  obtain ⟨u, hu, rfl | ⟨d, w, hd, rfl⟩⟩ := exists_firstName v
  · have hdrop := hu.dropWhile []
    rw [List.append_nil] at hdrop
    rw [hdrop]
    exact iff_of_true rfl ⟨v, [], (List.append_nil v).symm, hu, Or.inl rfl⟩
  · have htail : ((u ++ d :: w).dropWhile fun ch => !isSeparator ch).tail = w := by
      rw [hu.dropWhile, List.dropWhile_cons, hd]
      rfl
    rw [htail]
    constructor
    · rintro rfl
      exact ⟨u, [d], rfl, hu, Or.inr ⟨d, hd, rfl⟩⟩
    · rintro ⟨u', e, he, hu', rfl | ⟨d', -, rfl⟩⟩
      · rw [List.append_nil] at he
        have := hu' d (he ▸ List.mem_append_right u List.mem_cons_self)
        rw [hd] at this
        cases this
      · -- the first separator stands at the end
        have hlen := congrArg (fun p => (firstName p).length) he
        have hd' : isSeparator d' = true := by
          by_contra hno
          have hall : SepFree (u' ++ [d']) := by
            intro a ha
            rcases List.mem_append.1 ha with ha | ha
            · exact hu' a ha
            · rw [List.mem_singleton.1 ha]
              simpa using hno
          have := hall d (he ▸ List.mem_append_right u List.mem_cons_self)
          rw [hd] at this
          cases this
        simp only [hu.firstName_append hd, hu'.firstName_append hd'] at hlen
        have hlen' := congrArg List.length he
        simp only [List.length_append, List.length_cons, List.length_nil] at hlen'
        exact List.length_eq_zero_iff.1 (by omega)

/-- A path whose first separator is doubled: `filename` starts behind both. -/
theorem filename_doubled (hc : isSeparator c = true) (hd : isSeparator d = true)
    (hl : (nextName (d :: v)).getD [] = []) :
    filename (c :: d :: v) = .ok (if v = [] then some [d] else lastPart v) := by
  have hnext : nextName (c :: d :: v) = some v := by
    rw [nextName_sep hc, List.dropWhile_cons, hd]
    rfl
  rw [filename_of_next hnext]
  cases v with
  | nil => rw [lastName_nil, lastPart_sep hc, if_neg (List.cons_ne_nil _ _), if_pos rfl]
  | cons a w =>
    have hnext' : (nextName (a :: w)).getD [] = [] := by
      obtain ⟨u, e, hv, hu, he⟩ := (next_doubled hd).1 hl
      cases u with
      | nil =>
        obtain rfl | ⟨b, hb, rfl⟩ := he
        · cases hv
        · cases hv
          rw [nextName_sep hb]
          rfl
      | cons b u =>
        obtain rfl | ⟨b', hb', rfl⟩ := he
        · rw [hv, List.append_nil, nextName_last hu (List.cons_ne_nil b u)]
          rfl
        · rw [hv, nextName_append hu (List.cons_ne_nil b u) hb']
          rfl
    rw [List.length_cons, lastName, hnext', lastName_nil, if_neg (List.cons_ne_nil _ _)]

end Filename

/-! ## Both ways -/

/-- `namei(path)` returns inode `m`. -/
def NameiTo (s : Fs) (task : FsTask) (path : CStr) (m : ℕ) : Prop :=
  ∃ t k, s.namei task path = .ok (t, some k) ∧ (t.inode k).nr = m

/-- What a name means in a directory: what `find_entry` finds, or without a name the directory. -/
def Fs.Means (s : Fs) (dir : ℕ) : Option CStr → ℕ → Prop
  | none, m => (s.inode dir).nr = m
  | some fname, m => ∃ t b i, s.findEntry dir (some fname) = .ok (t, some (b, i)) ∧ t.dentry b i = .ok m

/-- `_namei(path, false)` returns a directory in which `filename(path)` means inode `m`. -/
def OpensTo (s : Fs) (task : FsTask) (path : CStr) (m : ℕ) : Prop :=
  ∃ t dir fname, s._namei task path false = .ok (t, some dir) ∧ filename path = .ok fname ∧
    t.Means dir fname m

/-- What a name means in the directory with inode `n`. -/
def Fs.Holds (s : Fs) (n : ℕ) : Option CStr → ℕ → Prop
  | none, m => n = m
  | some fname, m => s.Entry n fname m

/-- The path without its last component leads from the root or the working directory to inode `k`. -/
def StopsAt (s : Fs) (root cur : ℕ) (path : CStr) (k : ℕ) (r : CStr) : Prop :=
  ∃ c cs, path = c :: cs ∧ if isSeparator c then s.Stops root cs k r else s.Stops cur path k r

theorem stopsAt_cons {s : Fs} {root cur k : ℕ} {c : Chr} {cs r : CStr} :
    StopsAt s root cur (c :: cs) k r ↔
      if isSeparator c then s.Stops root cs k r else s.Stops cur (c :: cs) k r := by
  constructor
  · rintro ⟨d, ds, hd, h⟩
    cases hd
    exact h
  · intro h
    exact ⟨c, cs, rfl, h⟩

theorem names_cons {s : Fs} {root cur m : ℕ} {c : Chr} {cs : CStr} : Names s root cur (c :: cs) m ↔
    if isSeparator c then s.Walk root cs m else s.Walk cur (c :: cs) m := by
  constructor
  · rintro ⟨d, ds, hd, h⟩
    cases hd
    exact h
  · intro h
    exact ⟨c, cs, rfl, h⟩

theorem StopsAt.unique {s : Fs} {root cur k m : ℕ} {path q r : CStr} (h : StopsAt s root cur path k r)
    (h' : StopsAt s root cur path m q) : k = m ∧ r = q := by
  obtain ⟨c, cs, rfl, h⟩ := h
  rw [stopsAt_cons] at h'
  split_ifs at h h'
  · exact h.unique h'
  · exact h.unique h'

namespace ChdirState

variable {S : ChdirState} {dev : ℤ} {l : Multiset ℕ} {path : CStr} {m : ℕ}

/-- `namei` goes where the path leads. -/
theorem Mounted.nameiTo_iff (M : S.Mounted dev l) (hfree : ∃ j < inodeNr, (S.fs.inode j).dev = EOF) :
    NameiTo S.fs S.task path m ↔ Names S.fs S.root S.cur path m := by
  constructor
  · rintro ⟨t, k, h, rfl⟩
    obtain ⟨-, -, -, -, hsome, -⟩ := M.namei h
    exact (hsome k rfl).1
  · rintro ⟨c, cs, rfl, hw⟩
    obtain ⟨j, hj, hd⟩ := hfree
    have hj' := (M.ledger.free j).1 hd
    -- the walk from `i`
    have key (i : ℕ) (hi : i ∈ S.task.i_root ::ₘ S.task.i_pwd ::ₘ l) (p : CStr) (N : ℕ)
        (hw : S.fs.Walk (S.fs.inode i).nr p m) (hN : p.length ≤ N) :
        ∃ t k, Fs.nameiLoop true N (S.fs.incCount i) i p = .ok (t, some k) ∧ (t.inode k).nr = m := by
      have hsame : S.fs.SameData (S.fs.incCount i) := ⟨rfl, rfl⟩
      refine Fs.nameiLoop_of_walk M.valid (M.slots.incCount (M.ledger.dev hi)) (M.ledger.incCount hi)
        ⟨j, hj, hj'⟩ ?_ hN
      rw [Fs.incCount_nr]
      exact hw.of_same hsame
    unfold NameiTo Fs.namei Fs._namei
    dsimp only
    split_ifs at hw ⊢
    · exact key _ (Multiset.mem_cons_self _ _) cs _ hw le_rfl
    · exact key _ (Multiset.mem_cons_of_mem (Multiset.mem_cons_self _ _)) (c :: cs) _ hw le_rfl

/-- What a name means in a directory that is in memory. -/
theorem means_iff {s t : Fs} {d : ℕ} {fname : Option CStr} (hsame : s.SameData t) (hS : t.Slots dev)
    (hd : (t.inode d).dev ≠ EOF) : t.Means d fname m ↔ s.Holds (t.inode d).nr fname m := by
  cases fname with
  | none => exact Iff.rfl
  | some name =>
    constructor
    · rintro ⟨u, b, i, hf, hm⟩
      have he := hS.entry hd hf
      have ht := Fs.findEntry_touched hf
      rw [ht.dentry] at hm
      unfold Fs.dentry at hm
      split_ifs at hm
      cases hm
      exact he.of_same hsame.symm
    · intro he
      have he' : t.Entry (t.inode d).nr name m := he.of_same hsame
      obtain ⟨i, hi, hm⟩ := he'.found
      obtain ⟨-, h64, -, -⟩ := Fs.scan_some hi
      have hf : t.findEntry d (some name) =
          .ok (t.bread (t.field d (.zone 0)), some (t.field d (.zone 0), i)) := by
        refine (hS.findEntry hd).2 ⟨rfl, rfl, ?_⟩
        rw [hS.field hd, hS.field hd, hS.field hd]
        exact ⟨he'.dir, he'.zones, he'.zone, hi⟩
      refine ⟨_, _, i, hf, ?_⟩
      unfold Fs.dentry
      rw [if_pos h64, hS.field hd, ← hm]
      rfl

/-- The other way goes to the directory of the last component. -/
theorem Mounted.opensTo_iff (M : S.Mounted dev l) (hfree : ∃ j < inodeNr, (S.fs.inode j).dev = EOF) :
    OpensTo S.fs S.task path m ↔ ∃ k r fname, StopsAt S.fs S.root S.cur path k r ∧
      (r ≠ [] → S.fs.Readable k r) ∧ filename path = .ok fname ∧ S.fs.Holds k fname m := by
  obtain ⟨j, hj, hfree⟩ := hfree
  have hj' := (M.ledger.free j).1 hfree
  -- the walk from `i`
  have key (i : ℕ) (hi : i ∈ S.task.i_root ::ₘ S.task.i_pwd ::ₘ l) (p : CStr) (N : ℕ) (hN : p.length ≤ N)
      (fname : Option CStr) :
      (∃ t d, Fs.nameiLoop false N (S.fs.incCount i) i p = .ok (t, some d) ∧ t.Means d fname m) ↔
        ∃ k r, S.fs.Stops (S.fs.inode i).nr p k r ∧ (r ≠ [] → S.fs.Readable k r) ∧
          S.fs.Holds k fname m := by
    have hsame : S.fs.SameData (S.fs.incCount i) := ⟨rfl, rfl⟩
    have hS := M.slots.incCount (M.ledger.dev hi)
    have hL := M.ledger.incCount hi
    constructor
    · rintro ⟨t, d, hrun, hm⟩
      obtain ⟨hsame', hS', hd, r, hr, hread⟩ :=
        hS.nameiLoop_stops M.valid (hL.dev (Multiset.mem_cons_self _ _)) hrun
      rw [Fs.incCount_nr] at hr
      exact ⟨_, r, hr.of_same hsame.symm, fun hne => (hread hne).of_same hsame.symm,
        (means_iff (hsame.trans hsame') hS' hd).1 hm⟩
    · rintro ⟨k, r, hr, hread, hm⟩
      have hr' : (S.fs.incCount i).Stops ((S.fs.incCount i).inode i).nr p k r := by
        rw [Fs.incCount_nr]
        exact hr.of_same hsame
      obtain ⟨t, d, hrun, rfl⟩ := Fs.nameiLoop_of_stops M.valid hS hL ⟨j, hj, hj'⟩ hr'
        (fun hne => (hread hne).of_same hsame) hN
      obtain ⟨hsame', hS', hd, -⟩ :=
        hS.nameiLoop_stops M.valid (hL.dev (Multiset.mem_cons_self _ _)) hrun
      exact ⟨t, d, hrun, (means_iff (hsame.trans hsame') hS' hd).2 hm⟩
  cases path with
  | nil =>
    constructor
    · rintro ⟨t, d, fname, h, -⟩
      cases h
    · rintro ⟨k, r, fname, ⟨c, cs, hc, -⟩, -⟩
      cases hc
  | cons c cs =>
    have hroot := key _ (Multiset.mem_cons_self _ _) cs cs.length le_rfl
    have hcur := key _ (Multiset.mem_cons_of_mem (Multiset.mem_cons_self _ _)) (c :: cs) (cs.length + 1) le_rfl
    simp only [stopsAt_cons]
    unfold OpensTo Fs._namei
    dsimp only
    split_ifs
    · constructor
      · rintro ⟨t, d, fname, hrun, hf, hm⟩
        obtain ⟨k, r, hr, hread, hh⟩ := (hroot fname).1 ⟨t, d, hrun, hm⟩
        exact ⟨k, r, fname, hr, hread, hf, hh⟩
      · rintro ⟨k, r, fname, hr, hread, hf, hh⟩
        obtain ⟨t, d, hrun, hm⟩ := (hroot fname).2 ⟨k, r, hr, hread, hh⟩
        exact ⟨t, d, fname, hrun, hf, hm⟩
    · constructor
      · rintro ⟨t, d, fname, hrun, hf, hm⟩
        obtain ⟨k, r, hr, hread, hh⟩ := (hcur fname).1 ⟨t, d, hrun, hm⟩
        exact ⟨k, r, fname, hr, hread, hf, hh⟩
      · rintro ⟨k, r, fname, hr, hread, hf, hh⟩
        obtain ⟨t, d, hrun, hm⟩ := (hcur fname).2 ⟨k, r, hr, hread, hh⟩
        exact ⟨t, d, fname, hrun, hf, hm⟩

end ChdirState

/-! ## Doubled separators -/

/-- A tree whose entries have inodes of the device, and whose directories have a block for them. -/
structure SoundTree (s : Fs) (root : ℕ) : Prop extends s.Tree root where
  inodes : ∀ n name m, s.Below root n → s.Entry n name m → m ≤ s.sb.inodes
  block : ∀ n, s.Below root n → ISDIR (s.nodeField n .mode) → s.nodeField n .size / 16 ≠ 0 →
    0 < s.sb.zones ∧ s.nodeField n (.zone 0) ≠ 0

/-- The rest of a path is the name of an entry of inode `n`, perhaps with a separator behind it. -/
def NameIn (s : Fs) (n : ℕ) (v : CStr) : Prop :=
  ∃ u e m, v = u ++ e ∧ SepFree u ∧ u ≠ [] ∧ (e = [] ∨ ∃ d, isSeparator d = true ∧ e = [d]) ∧ s.Entry n u m

/-- A separator is doubled where a path has led to a directory, of at most 64 entries, and nothing but
    the name of one of them is left; or nothing is left, or another separator behind the first two. -/
def Doubled (s : Fs) (root cur : ℕ) (path : CStr) : Prop :=
  ∃ w c v n, path = w ++ c :: v ∧ isSeparator c = true ∧ Closed w ∧ Names s root cur w n ∧
    ISDIR (s.nodeField n .mode) ∧ s.nodeField n .size / 16 ≤ blockDentrys ∧
      (NameIn s n v ∨ if w.length = 1 then ∃ d, isSeparator d = true ∧ v = [d] else v = [])

section Paths
variable {s : Fs} {root cur n m k : ℕ} {path w v r : CStr} {c : Chr}

/-- In a directory of a tree no entry matches an empty component. -/
theorem hit_empty (H : s.Tree root) (hn : s.Below root n) {i : ℕ} (hc : isSeparator c = true)
    (hi : i < s.nodeField n .size / 16) (h64 : i < blockDentrys) :
    s.hit (s.nodeField n (.zone 0)) i (c :: v) = .ok false := by
  unfold Fs.hit Fs.dentry
  rw [if_pos h64, pure_eq_ok, ok_bind]
  by_cases h0 : s.cache.get (s.nodeField n (.zone 0)) 2 (16 * i) = 0
  · rw [if_pos h0]
    rfl
  · obtain ⟨hne, hsep⟩ := H.proper n hn i h64 hi h0
    have hno : c.val ≠ s.cache.data (s.nodeField n (.zone 0)) (16 * i + 2) := by
      intro he
      have h := hsep 0 fun j hj => by rwa [Nat.le_zero.1 hj]
      rw [Nat.add_zero, ← he] at h
      exact (of_decide_eq_true hc).elim h.1 h.2
    have hin : 16 * i + 2 < blockSize := by
      norm_num at h64 ⊢
      omega
    rw [if_neg h0, entryMatch, if_pos hin, if_neg fun h => hno h.2]
    simp [hne]

/-- An empty component is looked for in vain; `find_entry` returns if there are at most 64 entries. -/
theorem readable_empty (H : SoundTree s root) (hn : s.Below root n) (hc : isSeparator c = true) :
    s.Readable n (c :: v) ↔ ISDIR (s.nodeField n .mode) ∧ s.nodeField n .size / 16 ≤ blockDentrys := by
  constructor
  · rintro ⟨hd, hr⟩
    refine ⟨hd, ?_⟩
    rcases hr with h0 | ⟨-, -, o, ho⟩
    · rw [h0]
      exact Nat.zero_le _
    · by_contra hlt
      cases o with
      | none =>
        have h64 := Fs.scan_eq_none.1 ho blockDentrys (Nat.zero_le _) (by omega)
        rw [Fs.hit_behind le_rfl] at h64
        cases h64
      | some i =>
        obtain ⟨hi, h64, -, -⟩ := Fs.scan_some ho
        obtain ⟨-, -, hhit, -⟩ := Fs.scan_eq_some.1 ho
        rw [hit_empty H.toTree hn hc (by omega) h64] at hhit
        cases hhit
  · rintro ⟨hd, h64⟩
    refine ⟨hd, ?_⟩
    by_cases h0 : s.nodeField n .size / 16 = 0
    · exact Or.inl h0
    · obtain ⟨hz, hz0⟩ := H.block n hn hd h0
      refine Or.inr ⟨hz, hz0, none, Fs.scan_eq_none.2 fun i _ hi => ?_⟩
      exact hit_empty H.toTree hn hc (by omega) (by omega)

theorem stops_below (h : s.Stops n path m r) (hn : s.Below root n) : s.Below root m := by
  induction h with
  | here n => exact hn
  | last => exact hn
  | cons he _ _ _ ih => exact ih (hn.entry he)

/-- The path before the last component ends with a separator. -/
theorem stops_split (H : s.Tree root) (hn : s.Below root n) (h : s.Stops n path m r) :
    ∃ w, path = w ++ r ∧ Closed w ∧ s.Walk n w m ∧ (nextName r).getD [] = [] := by
  induction h with
  | here n => exact ⟨[], rfl, Closed.nil, .nil n, rfl⟩
  | last hl => exact ⟨[], rfl, Closed.nil, .nil _, hl⟩
  | @cons n k m c cs r he hk hne hs ih =>
    obtain ⟨u, hu, hcs⟩ := exists_firstName (c :: cs)
    have hc := H.entry_ne hn he
    have hune : u ≠ [] := by
      rintro rfl
      rcases hcs with h | ⟨d, v, hd, h⟩
      · cases h
      · cases h
        rw [hc] at hd
        cases hd
    rcases hcs with h | ⟨d, v, hd, h⟩
    · rw [h, nextName_last hu hune] at hne
      exact absurd rfl hne
    · obtain ⟨w, hw, hcl, hwalk, hr⟩ := ih (hn.entry he)
      rw [h, nextName_append hu hune hd] at hw
      obtain rfl : v = w ++ r := hw
      rw [h] at he
      refine ⟨u ++ d :: w, ?_, (closed_append u hd).2 hcl, ?_, hr⟩
      · rw [h, List.append_assoc, List.cons_append]
      · exact H.walk_cons hn hu hune hd ((H.entry_append hn hu hd).1 he) hk hwalk

theorem stops_of_walk (H : s.Tree root) (hn : s.Below root n) (hcl : Closed w) (hw : s.Walk n w m)
    (hr : r ≠ []) (hnext : (nextName r).getD [] = []) : s.Stops n (w ++ r) m r := by
  revert hcl
  refine H.walk_induction (P := fun n w m => Closed w → s.Stops n (w ++ r) m r) ?_ ?_ ?_ hw hn
  · intro n _
    obtain ⟨d, ds, rfl⟩ := List.exists_cons_of_ne_nil hr
    exact .last hnext
  · intro n u j _ hu hune _ _ hcl
    exact absurd hcl (hu.not_closed hune)
  · intro n u d v j m hn hu hune hd he hj _ ih hcl
    have hstep := nextName_append hu hune hd (v ++ r)
    have he' := (H.entry_append (v := v ++ r) hn hu hd).2 he
    have hs := ih ((closed_append u hd).1 hcl)
    obtain ⟨a, u, rfl⟩ := List.exists_cons_of_ne_nil hune
    rw [List.append_assoc, List.cons_append, List.cons_append]
    rw [List.cons_append] at hstep he'
    refine .cons he' hj ?_ ?_
    · rw [hstep]
      intro h
      exact hr (List.append_eq_nil_iff.1 h).2
    · rw [hstep]
      exact hs

/-- What the rest of a path behind a doubled separator means. -/
theorem holds_rest (H : s.Tree root) (hn : s.Below root n) (hc : isSeparator c = true)
    (hl : (nextName (c :: v)).getD [] = []) : (∃ m, v ≠ [] ∧ s.Entry n v m) ↔ NameIn s n v := by
  constructor
  · rintro ⟨m, hne, he⟩
    obtain ⟨u, e, rfl, hu, hend⟩ := (next_doubled hc).1 hl
    have hune : u ≠ [] := by
      rintro rfl
      obtain rfl | ⟨d, hd, rfl⟩ := hend
      · exact hne rfl
      · have := H.entry_ne hn he
        rw [hd] at this
        cases this
    refine ⟨u, e, m, rfl, hu, hune, hend, ?_⟩
    obtain rfl | ⟨d, hd, rfl⟩ := hend
    · rwa [List.append_nil] at he
    · exact (H.entry_append hn hu hd).1 he
  · rintro ⟨u, e, m, rfl, hu, hune, rfl | ⟨d, hd, rfl⟩, he⟩
    · rw [List.append_nil]
      exact ⟨m, hune, he⟩
    · exact ⟨m, List.append_ne_nil_of_left_ne_nil hune _, (H.entry_append hn hu hd).2 he⟩

/-- Behind the first separator of a path, and behind a later one. -/
theorem holds_root (H : s.Tree root) (hn : s.Below root n) (hc : isSeparator c = true)
    (hl : (nextName (c :: v)).getD [] = []) : (∃ m, s.Holds n (if v = [] then some [c] else lastPart v) m) ↔
      NameIn s n v ∨ ∃ d, isSeparator d = true ∧ v = [d] := by
  cases v with
  | nil =>
    rw [if_pos rfl]
    constructor
    · rintro ⟨m, hm⟩
      have := H.entry_ne hn hm
      rw [hc] at this
      cases this
    · rintro (⟨u, e, m, hv, -, hune, -⟩ | ⟨d, -, hv⟩)
      · exact absurd (List.append_eq_nil_iff.1 hv.symm).1 hune
      · cases hv
  | cons d v =>
    rw [if_neg (List.cons_ne_nil d v)]
    cases hd : isSeparator d with
    | true =>
      -- a third separator is the last character
      obtain ⟨u, e, hv, hu, hend⟩ := (next_doubled hc).1 hl
      have hu0 : u = [] := by
        cases u with
        | nil => rfl
        | cons a u =>
          cases hv
          have := hu d List.mem_cons_self
          rw [hd] at this
          cases this
      subst hu0
      obtain rfl | ⟨d', hd', rfl⟩ := hend
      · cases hv
      · cases hv
        rw [lastPart_sep hd, if_pos rfl]
        exact iff_of_true ⟨n, rfl⟩ (Or.inr ⟨d, hd, rfl⟩)
    | false =>
      rw [lastPart_cons hd, ← holds_rest H hn hc hl]
      constructor
      · rintro ⟨m, hm⟩
        exact Or.inl ⟨m, List.cons_ne_nil d v, hm⟩
      · rintro (⟨m, -, hm⟩ | ⟨d', hd', hv⟩)
        · exact ⟨m, hm⟩
        · cases hv
          rw [hd] at hd'
          cases hd'

theorem holds_later (H : s.Tree root) (hn : s.Below root n) (hc : isSeparator c = true)
    (hl : (nextName (c :: v)).getD [] = []) :
    (∃ m, s.Holds n (lastPart (c :: v)) m) ↔ NameIn s n v ∨ v = [] := by
  rw [lastPart_sep hc, ← holds_rest H hn hc hl]
  by_cases hv : v = []
  · rw [if_pos hv]
    exact iff_of_true ⟨n, rfl⟩ (Or.inr hv)
  · rw [if_neg hv]
    constructor
    · rintro ⟨m, hm⟩
      exact Or.inl ⟨m, hv, hm⟩
    · rintro (⟨m, -, hm⟩ | h)
      · exact ⟨m, hm⟩
      · exact absurd h hv

/-- Where the last component starts with a separator. -/
theorem stopsAt_sep (H : s.Tree root) (hcur : s.Below root cur) (hc : isSeparator c = true) :
    StopsAt s root cur path k (c :: v) ↔ ∃ w, path = w ++ c :: v ∧ Closed w ∧ Names s root cur w k ∧
      (nextName (c :: v)).getD [] = [] := by
  constructor
  · rintro ⟨c₀, cs, rfl, hs⟩
    cases h₀ : isSeparator c₀ with
    | true =>
      rw [h₀, if_pos rfl] at hs
      obtain ⟨w, rfl, hcl, hw, hl⟩ := stops_split H .root hs
      refine ⟨c₀ :: w, rfl, (closed_append [] h₀).2 hcl, names_cons.2 ?_, hl⟩
      rwa [h₀, if_pos rfl]
    | false =>
      rw [h₀, if_neg Bool.false_ne_true] at hs
      obtain ⟨w, hw, hcl, hwalk, hl⟩ := stops_split H hcur hs
      cases w with
      | nil =>
        cases hw
        rw [hc] at h₀
        cases h₀
      | cons a w =>
        cases hw
        refine ⟨c₀ :: w, rfl, hcl, names_cons.2 ?_, hl⟩
        rwa [h₀, if_neg Bool.false_ne_true]
  · rintro ⟨w, rfl, hcl, ⟨c₀, w, rfl, hw⟩, hl⟩
    rw [List.cons_append, stopsAt_cons]
    cases h₀ : isSeparator c₀ with
    | true =>
      rw [h₀, if_pos rfl] at hw
      rw [if_pos rfl]
      exact stops_of_walk H .root ((closed_append [] h₀).1 hcl) hw (List.cons_ne_nil c v) hl
    | false =>
      rw [h₀, if_neg Bool.false_ne_true] at hw
      rw [if_neg Bool.false_ne_true, ← List.cons_append]
      exact stops_of_walk H hcur hcl hw (List.cons_ne_nil c v) hl

/-- What `filename` makes of a doubled separator. -/
theorem filename_sep (H : s.Tree root) (hcur : s.Below root cur) (hc : isSeparator c = true) (hcl : Closed w)
    (hw : Names s root cur w k) (hl : (nextName (c :: v)).getD [] = []) : filename (w ++ c :: v) =
      .ok (if w.length = 1 then if v = [] then some [c] else lastPart v else lastPart (c :: v)) := by
  have hs : StopsAt s root cur (w ++ c :: v) k (c :: v) := (stopsAt_sep H hcur hc).2 ⟨w, rfl, hcl, hw, hl⟩
  obtain ⟨c₀, w, rfl, hw⟩ := hw
  rw [List.cons_append, stopsAt_cons] at hs
  rw [List.cons_append]
  cases h₀ : isSeparator c₀ with
  | true =>
    rw [h₀, if_pos rfl] at hw hs
    cases w with
    | nil =>
      rw [if_pos (List.length_singleton (a := c₀))]
      exact filename_doubled h₀ hc hl
    | cons d w =>
      rw [if_neg (by simp)]
      cases hw with
      | cons he => exact filename_absolute h₀ (H.entry_ne .root he) hs
  | false =>
    rw [h₀, if_neg Bool.false_ne_true] at hs
    have hlen : (c₀ :: w).length ≠ 1 := by
      intro h1
      obtain rfl : w = [] := by simpa using h1
      have := hcl c₀ rfl
      rw [h₀] at this
      cases this
    rw [if_neg hlen]
    exact filename_relative hs

/-- A separator is doubled where the last component starts with one, and something is opened. -/
theorem doubled_iff (H : SoundTree s root) (hcur : s.Below root cur) : Doubled s root cur path ↔
    ∃ k c v fname m, StopsAt s root cur path k (c :: v) ∧ isSeparator c = true ∧ s.Readable k (c :: v) ∧
      filename path = .ok fname ∧ s.Holds k fname m := by
  have hbelow {w : CStr} {n : ℕ} (hw : Names s root cur w n) : s.Below root n :=
    ChdirState.names_below hw hcur
  constructor
  · rintro ⟨w, c, v, n, rfl, hc, hcl, hw, hd, h64, htail⟩
    have hn := hbelow hw
    have hl : (nextName (c :: v)).getD [] = [] := by
      refine (next_doubled hc).2 ?_
      rcases htail with ⟨u, e, m, rfl, hu, -, hend, -⟩ | htail
      · exact ⟨u, e, rfl, hu, hend⟩
      · split_ifs at htail
        · obtain ⟨d, hd, rfl⟩ := htail
          exact ⟨[], [d], rfl, SepFree.nil, Or.inr ⟨d, hd, rfl⟩⟩
        · exact ⟨[], [], htail, SepFree.nil, Or.inl rfl⟩
    have hholds : ∃ m, s.Holds n
        (if w.length = 1 then if v = [] then some [c] else lastPart v else lastPart (c :: v)) m := by
      split_ifs at htail ⊢ with h1 h2
      · have h := (holds_root H.toTree hn hc hl).2 htail
        rwa [if_pos h2] at h
      · have h := (holds_root H.toTree hn hc hl).2 htail
        rwa [if_neg h2] at h
      · exact (holds_later H.toTree hn hc hl).2 htail
    obtain ⟨m, hm⟩ := hholds
    exact ⟨n, c, v, _, m, (stopsAt_sep H.toTree hcur hc).2 ⟨w, rfl, hcl, hw, hl⟩, hc,
      (readable_empty H hn hc).2 ⟨hd, h64⟩, filename_sep H.toTree hcur hc hcl hw hl, hm⟩
  · rintro ⟨k, c, v, fname, m, hs, hc, hr, hf, hm⟩
    obtain ⟨w, rfl, hcl, hw, hl⟩ := (stopsAt_sep H.toTree hcur hc).1 hs
    have hn := hbelow hw
    obtain ⟨hd, h64⟩ := (readable_empty H hn hc).1 hr
    rw [filename_sep H.toTree hcur hc hcl hw hl] at hf
    obtain rfl := Except.ok.inj hf
    refine ⟨w, c, v, k, rfl, hc, hcl, hw, hd, h64, ?_⟩
    by_cases h1 : w.length = 1
    · rw [if_pos h1] at hm ⊢
      exact (holds_root H.toTree hn hc hl).1 ⟨m, hm⟩
    · rw [if_neg h1] at hm ⊢
      exact (holds_later H.toTree hn hc hl).1 ⟨m, hm⟩

/-! ## Agreement -/

theorem names_iff_stopsAt : Names s root cur path m ↔ ∃ k r, StopsAt s root cur path k r ∧
    (r = [] ∧ k = m ∨ r ≠ [] ∧ s.Entry k r m ∧ m ≤ s.sb.inodes) := by
  -- a walk from `n` along `p`
  have key (n : ℕ) (p : CStr) : s.Walk n p m ↔ ∃ k r, s.Stops n p k r ∧
      (r = [] ∧ k = m ∨ r ≠ [] ∧ s.Entry k r m ∧ m ≤ s.sb.inodes) := by
    cases p with
    | nil =>
      constructor
      · intro hw
        cases hw
        exact ⟨_, [], .here _, Or.inl ⟨rfl, rfl⟩⟩
      · rintro ⟨k, r, ⟨-⟩, ⟨-, rfl⟩ | ⟨hne, -⟩⟩
        · exact .nil n
        · exact absurd rfl hne
    | cons c p =>
      rw [Fs.walk_iff_stops]
      constructor
      · rintro ⟨k, r, hs, he⟩
        exact ⟨k, r, hs, Or.inr ⟨hs.ne_nil, he⟩⟩
      · rintro ⟨k, r, hs, ⟨hr, -⟩ | ⟨-, he⟩⟩
        · exact absurd hr hs.ne_nil
        · exact ⟨k, r, hs, he⟩
  constructor
  · rintro ⟨c, cs, rfl, hw⟩
    simp only [stopsAt_cons]
    split_ifs at hw ⊢
    · exact (key root cs).1 hw
    · exact (key cur (c :: cs)).1 hw
  · rintro ⟨k, r, ⟨c, cs, rfl, hs⟩, h⟩
    rw [names_cons]
    split_ifs at hs ⊢
    · exact (key root cs).2 ⟨k, r, hs, h⟩
    · exact (key cur (c :: cs)).2 ⟨k, r, hs, h⟩

/-- A last component that does not start with a separator is what `filename` returns. -/
theorem filename_name (H : s.Tree root) (hc : isSeparator c = false)
    (hs : StopsAt s root cur path k (c :: v)) : filename path = .ok (some (c :: v)) := by
  obtain ⟨c₀, cs, rfl, hs⟩ := hs
  cases h₀ : isSeparator c₀ with
  | true =>
    rw [h₀, if_pos rfl] at hs
    have hdoubled {d : Chr} {ds : CStr} (hs : s.Stops root (d :: ds) k (c :: v)) : isSeparator d = false := by
      cases hs with
      | last => exact hc
      | cons he => exact H.entry_ne .root he
    cases cs with
    | nil => cases hs
    | cons d ds =>
      rw [filename_absolute h₀ (hdoubled hs) hs, lastPart_cons hc]
  | false =>
    rw [h₀, if_neg Bool.false_ne_true] at hs
    rw [filename_relative hs, lastPart_cons hc]

/-- A path of which nothing is left is a separator alone. -/
theorem filename_here (hs : StopsAt s root cur path k []) : filename path = .ok none := by
  obtain ⟨c₀, cs, rfl, hs⟩ := hs
  cases h₀ : isSeparator c₀ with
  | true =>
    rw [h₀, if_pos rfl] at hs
    cases cs with
    | nil => exact filename_root h₀
    | cons d ds => exact absurd rfl hs.ne_nil
  | false =>
    rw [h₀, if_neg Bool.false_ne_true] at hs
    exact absurd rfl hs.ne_nil

end Paths

/-- **The two ways to resolve a path agree** exactly if it has no doubled separator right before the
    name of an entry of the directory reached, or at its end. -/
theorem resolve_iff {S : ChdirState} {dev : ℤ} {l : Multiset ℕ} {path : CStr} (M : S.Mounted dev l)
    (hfree : ∃ j < inodeNr, (S.fs.inode j).dev = EOF) (H : SoundTree S.fs S.root)
    (hcur : S.fs.Below S.root S.cur) :
    (∀ m, NameiTo S.fs S.task path m ↔ OpensTo S.fs S.task path m) ↔
      ¬ Doubled S.fs S.root S.cur path := by
  simp only [M.nameiTo_iff hfree, M.opensTo_iff hfree, doubled_iff H hcur]
  have hbelow {k : ℕ} {r : CStr} (hs : StopsAt S.fs S.root S.cur path k r) : S.fs.Below S.root k := by
    obtain ⟨c, cs, -, hs⟩ := hs
    split_ifs at hs
    · exact stops_below hs .root
    · exact stops_below hs hcur
  constructor
  · rintro h ⟨k, c, v, fname, m, hs, hc, hr, hf, hm⟩
    obtain ⟨k', r, hs', hend⟩ := names_iff_stopsAt.1 ((h m).2 ⟨k, c :: v, fname, hs, fun _ => hr, hf, hm⟩)
    obtain ⟨rfl, rfl⟩ := hs.unique hs'
    obtain ⟨hnil, -⟩ | ⟨-, he, -⟩ := hend
    · cases hnil
    · have := H.entry_ne (hbelow hs) he
      rw [hc] at this
      cases this
  · intro h m
    rw [names_iff_stopsAt]
    constructor
    · rintro ⟨k, r, hs, ⟨rfl, rfl⟩ | ⟨hr, he, -⟩⟩
      · exact ⟨k, [], none, hs, fun hne => absurd rfl hne, filename_here hs, rfl⟩
      · obtain ⟨c, v, rfl⟩ := List.exists_cons_of_ne_nil hr
        exact ⟨k, c :: v, some (c :: v), hs, fun _ => he.readable,
          filename_name H.toTree (H.entry_ne (hbelow hs) he) hs, he⟩
    · rintro ⟨k, r, fname, hs, hr, hf, hm⟩
      cases r with
      | nil =>
        rw [filename_here hs] at hf
        cases hf
        exact ⟨k, [], hs, Or.inl ⟨rfl, hm⟩⟩
      | cons c v =>
        cases hc : isSeparator c with
        | true =>
          exact absurd ⟨k, c, v, fname, m, hs, hc, hr (List.cons_ne_nil c v), hf, hm⟩ h
        | false =>
          rw [filename_name H.toTree hc hs] at hf
          cases hf
          exact ⟨k, c :: v, hs, Or.inr ⟨List.cons_ne_nil c v, hm, H.inodes k _ m (hbelow hs) hm⟩⟩

theorem smallFs_sound : SoundTree (Fs.smallFs 3) 1 where
  toTree := smallFs_tree
  inodes n name m hn he := by
    have h3 := smallFs_below hn
    have hmem := smallFs_listed h3 he
    have hle : m ≤ 3 := by
      rcases h3 with rfl | rfl | rfl
      · simp only [smallEntries, List.mem_cons, Prod.mk.injEq, List.not_mem_nil, or_false] at hmem
        omega
      · simp only [smallEntries, List.mem_cons, Prod.mk.injEq, List.not_mem_nil, or_false] at hmem
        omega
      · cases hmem
    exact hle.trans (by decide)
  block n hn hd _ := by
    rcases smallFs_below hn with rfl | rfl | rfl
    · exact ⟨by decide, by decide +kernel⟩
    · exact ⟨by decide, by decide +kernel⟩
    · exact absurd hd (by decide +kernel)

/-- The path `/a`. -/
theorem resolve_name : (∀ m, NameiTo smallTask.fs smallTask.task (slash :: pathA) m ↔
      OpensTo smallTask.fs smallTask.task (slash :: pathA) m) ↔
    ¬ Doubled smallTask.fs smallTask.root smallTask.cur (slash :: pathA) :=
  resolve_iff smallTask_mounted ⟨1, by decide, rfl⟩ smallFs_sound .root

/-- The paths `//a` and `a//`: `namei` returns `NULL`, and the other way finds the directory `a`. -/
theorem resolve_apart : smallTask.Mounted 1 {0} ∧ SoundTree smallTask.fs smallTask.root ∧
    ∀ path ∈ [slash :: slash :: pathA, pathA ++ [slash, slash]],
      OpensTo smallTask.fs smallTask.task path 2 ∧ ¬ NameiTo smallTask.fs smallTask.task path 2 := by
  refine ⟨smallTask_mounted, smallFs_sound, fun path hpath => ?_⟩
  have hnone : ∀ path ∈ [slash :: slash :: pathA, pathA ++ [slash, slash]], (do
      let r ← smallTask.fs.namei smallTask.task path
      cassert (r.2 = none) "found"
      return () : C Unit).isOk = true := by decide +kernel
  constructor
  · rcases List.mem_cons.1 hpath with rfl | hpath
    · have hrun : (do
          let r ← smallTask.fs._namei smallTask.task (slash :: slash :: pathA) false
          let f ← filename (slash :: slash :: pathA)
          let e ← r.1.findEntry (r.2.getD 0) f
          let p ← deref "entry" e.2
          let nr ← e.1.dentry p.1 p.2
          cassert (r.2 = some 0 ∧ f = some pathA ∧ nr = 2) "found"
          return () : C Unit).isOk = true := by decide +kernel
      obtain ⟨a, hrun⟩ := ok_of_isOk hrun
      obtain ⟨⟨t, o⟩, hname, hrun⟩ := bind_eq_ok.1 hrun
      obtain ⟨f, hfile, hrun⟩ := bind_eq_ok.1 hrun
      obtain ⟨⟨u, e⟩, hfind, hrun⟩ := bind_eq_ok.1 hrun
      obtain ⟨⟨b, i⟩, he, hrun⟩ := bind_eq_ok.1 hrun
      obtain ⟨nr, hnr, hrun⟩ := bind_eq_ok.1 hrun
      obtain ⟨⟨rfl, rfl, rfl⟩, -⟩ := cassert_bind_eq_ok.1 hrun
      cases e with
      | none => cases he
      | some e =>
        cases he
        exact ⟨t, 0, some pathA, hname, hfile, u, b, i, hfind, hnr⟩
    · obtain rfl := List.mem_singleton.1 hpath
      have hrun : (do
          let r ← smallTask.fs._namei smallTask.task (pathA ++ [slash, slash]) false
          let f ← filename (pathA ++ [slash, slash])
          cassert (r.2.map (fun dir => (r.1.inode dir).nr) = some 2 ∧ f = none) "directory"
          return () : C Unit).isOk = true := by decide +kernel
      obtain ⟨a, hrun⟩ := ok_of_isOk hrun
      obtain ⟨⟨t, o⟩, hname, hrun⟩ := bind_eq_ok.1 hrun
      obtain ⟨f, hfile, hrun⟩ := bind_eq_ok.1 hrun
      obtain ⟨⟨ho, rfl⟩, -⟩ := cassert_bind_eq_ok.1 hrun
      obtain ⟨dir, rfl, hdir⟩ := Option.map_eq_some_iff.1 ho
      exact ⟨t, dir, none, hname, hfile, hdir⟩
  · rintro ⟨t, k, h, -⟩
    obtain ⟨a, hrun⟩ := ok_of_isOk (hnone path hpath)
    obtain ⟨⟨t', o⟩, h', hrun⟩ := bind_eq_ok.1 hrun
    rw [h] at h'
    cases h'
    obtain ⟨hk, -⟩ := cassert_bind_eq_ok.1 hrun
    cases hk

end Rdix
