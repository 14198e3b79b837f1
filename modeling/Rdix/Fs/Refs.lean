/-
  References to inodes (fs/minix1/inode.c, fs/minix1/namei.c).

  * `Ledger`: the counts of the inode table are the references in an account;
  * `inodeOpen_ledger`, `_namei_ledger`: a path function takes one reference more, to the inode that
    it returns, and otherwise gives back what it has taken.
-/
import Rdix.Fs.Reads

namespace Rdix.Fs

open ByteMem Function

variable {s s' : Fs} {i dir : ℕ} {l : Multiset ℕ}

/-- The references to inodes are those of `l`. -/
structure Ledger (s : Fs) (l : Multiset ℕ) : Prop where
  count : ∀ i, (s.inode i).count = l.count i
  free : ∀ i, (s.inode i).dev = EOF ↔ i ∉ l

theorem Ledger.of_inode (h : s.Ledger l) (he : s'.inode = s.inode) : s'.Ledger l := by
  constructor
  · intro i
    rw [he]
    exact h.count i
  · intro i
    rw [he]
    exact h.free i

/-- An entry of the table changes along with the account. -/
theorem Ledger.setInode (h : s.Ledger l) {e : MInode} {l' : Multiset ℕ}
    (hother : ∀ j ≠ i, l'.count j = l.count j) (hcount : e.count = l'.count i)
    (hfree : e.dev = EOF ↔ i ∉ l') : (s.setInode i e).Ledger l' := by
  have hmem : ∀ j ≠ i, (j ∈ l' ↔ j ∈ l) := by
    intro j hj
    rw [← Multiset.count_pos, ← Multiset.count_pos, hother j hj]
  constructor
  · intro j
    show (update s.inode i e j).count = _
    by_cases hj : j = i
    · rw [hj, update_self]
      exact hcount
    · rw [update_of_ne hj, h.count j, hother j hj]
  · intro j
    show (update s.inode i e j).dev = _ ↔ _
    by_cases hj : j = i
    · rw [hj, update_self]
      exact hfree
    · rw [update_of_ne hj, h.free j, hmem j hj]

/-- A reference more to an inode that is in memory. -/
theorem Ledger.incCount (h : s.Ledger l) (hi : i ∈ l) : (s.incCount i).Ledger (i ::ₘ l) := by
  refine h.setInode (fun j hj => Multiset.count_cons_of_ne hj l) ?_ ?_
  · rw [Multiset.count_cons_self, ← h.count i]
  · exact iff_of_false (fun hd => (h.free i).1 hd hi) (not_not.2 (Multiset.mem_cons_self i l))

theorem findInode_dev {dev : ℤ} {nr : ℕ} (h : s.findInode dev nr = some i) :
    (s.inode i).dev = dev ∧ (s.inode i).nr = nr := by
  have hp := List.find?_some h
  exact of_decide_eq_true hp

theorem getFreeInode_dev (h : s.getFreeInode = .ok i) : (s.inode i).dev = EOF := by
  unfold getFreeInode at h
  split at h
  · rename_i k hk
    cases h
    have hp := List.find?_some hk
    exact of_decide_eq_true hp
  · cases h

theorem Ledger.iget (h : s.Ledger l) {dev : ℤ} (hdev : dev ≠ EOF) {nr : ℕ}
    (hs : s.iget dev nr = .ok (s', i)) : s'.Ledger (i ::ₘ l) := by
  obtain ⟨-, hs⟩ := cassert_bind_eq_ok.1 hs
  cases hf : s.findInode dev nr with
  | some k =>
    rw [hf] at hs
    cases hs
    refine h.incCount (by_contra fun hn => ?_)
    exact hdev ((findInode_dev hf).1.symm.trans ((h.free i).2 hn))
  | none =>
    rw [hf] at hs
    obtain ⟨-, hs⟩ := cassert_bind_eq_ok.1 hs
    obtain ⟨k, hk, hs⟩ := bind_eq_ok.1 hs
    cases hs
    have hi : i ∉ l := (h.free i).1 (getFreeInode_dev hk)
    have hb : (s.bread (s.inodeBlock nr)).Ledger l := h.of_inode rfl
    refine hb.setInode (fun j hj => Multiset.count_cons_of_ne hj l) ?_ ?_
    · rw [Multiset.count_cons_self, Multiset.count_eq_zero.2 hi]
    · exact iff_of_false hdev (not_not.2 (Multiset.mem_cons_self i l))

theorem Ledger.iput (h : s.Ledger (i ::ₘ l)) (hs : s.iput i = .ok s') : s'.Ledger l := by
  have hother : ∀ j ≠ i, l.count j = (i ::ₘ l).count j :=
    fun j hj => (Multiset.count_cons_of_ne hj l).symm
  have hc : (s.inode i).count = l.count i + 1 := by rw [h.count i, Multiset.count_cons_self]
  have hd : (s.inode i).dev ≠ EOF := fun hd => (h.free i).1 hd (Multiset.mem_cons_self i l)
  obtain ⟨-, hs⟩ := cassert_bind_eq_ok.1 hs
  by_cases h1 : 1 < (s.inode i).count
  · rw [if_pos h1] at hs
    cases hs
    have hi : i ∈ l := Multiset.count_pos.1 (by omega)
    refine h.setInode hother ?_ (iff_of_false hd (not_not.2 hi))
    show (s.inode i).count - 1 = _
    omega
  · rw [if_neg h1] at hs
    cases hs
    have hb : (s.brelse (s.inode i).buf).Ledger (i ::ₘ l) := h.of_inode rfl
    have hi : i ∉ l := fun hi => by
      have := Multiset.count_pos.2 hi
      omega
    refine hb.setInode hother ?_ (iff_of_true rfl hi)
    show 0 = _
    rw [Multiset.count_eq_zero.2 hi]

theorem Ledger.iput? {o : Option ℕ} (h : s.Ledger (o.elim l (· ::ₘ l))) (hs : s.iput? o = .ok s') :
    s'.Ledger l := by
  obtain ⟨i, hi, hs⟩ := bind_eq_ok.1 hs
  cases o with
  | none => cases hi
  | some k =>
    cases hi
    exact Ledger.iput h hs

theorem Ledger.dev (h : s.Ledger l) (hi : i ∈ l) : (s.inode i).dev ≠ EOF :=
  fun hd => (h.free i).1 hd hi

/-! ## Resolution -/

theorem nameiLoop_ledger {dorc : Bool} {n node : ℕ} {ptr : CStr} {o : Option ℕ}
    (h : s.Ledger (node ::ₘ l)) (hs : nameiLoop dorc n s node ptr = .ok (s', o)) :
    s'.Ledger (o.elim l (· ::ₘ l)) := by
  induction n generalizing s node ptr with
  | zero =>
    cases ptr with
    | nil =>
      cases hs
      exact h
    | cons c cs => cases hs
  | succ n ih =>
    cases ptr with
    | nil =>
      cases hs
      exact h
    | cons c cs =>
      obtain ⟨-, hs⟩ := cassert_bind_eq_ok.1 hs
      obtain ⟨⟨s₁, bf⟩, h₁, hs⟩ := bind_eq_ok.1 hs
      have ht : s₁.Ledger (node ::ₘ l) := h.of_inode (findEntry_touched h₁).inode
      dsimp only at hs
      split_ifs at hs
      · cases hs
        exact ht
      cases bf with
      | none =>
        obtain ⟨s₂, h₂, hs⟩ := bind_eq_ok.1 hs
        cases hs
        exact ht.iput h₂
      | some p =>
        obtain ⟨s₂, h₂, hs⟩ := bind_eq_ok.1 hs
        obtain ⟨nr, -, hs⟩ := bind_eq_ok.1 hs
        obtain ⟨⟨s₃, k⟩, h₃, hs⟩ := bind_eq_ok.1 hs
        have h₃' := (ht.iput h₂).iget (ht.dev (Multiset.mem_cons_self node l)) h₃
        have hb : (s₃.brelse p.1).Ledger (k ::ₘ l) := h₃'.of_inode rfl
        exact ih hb hs

theorem _namei_ledger {task : FsTask} {pathname : CStr} {dorc : Bool} {o : Option ℕ}
    (h : s.Ledger l) (hroot : task.i_root ∈ l) (hpwd : task.i_pwd ∈ l)
    (hs : s._namei task pathname dorc = .ok (s', o)) : s'.Ledger (o.elim l (· ::ₘ l)) := by
  unfold _namei at hs
  cases pathname with
  | nil =>
    cases hs
    exact h
  | cons c cs =>
    dsimp only at hs
    split_ifs at hs
    · exact nameiLoop_ledger (h.incCount hroot) hs
    · exact nameiLoop_ledger (h.incCount hpwd) hs

/-! ## What leaves the table alone -/

theorem bmap_inode {block : ℤ} {create : Bool} {z : ℕ} (h : s.bmap i block create = .ok (s', z)) :
    s'.inode = s.inode := by
  obtain ⟨⟨e, z'⟩, -, h⟩ := bind_eq_ok.1 h
  cases h
  rfl

theorem bfree_inode {z : ℕ} (h : s.bfree z = .ok s') : s'.inode = s.inode := by
  obtain ⟨sb, -, h⟩ := bind_eq_ok.1 h
  cases h
  rfl

theorem ialloc_inode {nr : Option ℕ} (h : s.ialloc = .ok (s', nr)) : s'.inode = s.inode := by
  obtain ⟨o, -, h⟩ := bind_eq_ok.1 h
  cases o with
  | none =>
    cases h
    rfl
  | some p =>
    cases h
    rfl

theorem addZone_inode {entry_cnt : ℕ} {v v' : AddVars}
    (h : s.addZone dir entry_cnt i v = .ok (s', v')) : s'.inode = s.inode := by
  unfold addZone at h
  split_ifs at h
  · obtain ⟨⟨s₁, block⟩, h₁, h⟩ := bind_eq_ok.1 h
    cases h
    have hb : s₁.inode = s.inode := bmap_inode h₁
    exact hb
  · cases h
    rfl

theorem addLoop_inode {entry_cnt n : ℕ} {v : AddVars} {r : AddRes}
    (h : addLoop dir entry_cnt n i s v = .ok r) : r.s.inode = s.inode := by
  induction n generalizing i s v with
  | zero =>
    cases h
    rfl
  | succ n ih =>
    obtain ⟨⟨s₁, v₁⟩, h₁, h⟩ := bind_eq_ok.1 h
    obtain ⟨-, h⟩ := cassert_bind_eq_ok.1 h
    obtain ⟨b, -, h⟩ := bind_eq_ok.1 h
    obtain ⟨nr, -, h⟩ := bind_eq_ok.1 h
    have hs₁ : s₁.inode = (s.brelse? v.bf).inode := addZone_inode h₁
    by_cases hnr : nr = 0
    · rw [if_pos hnr] at h
      cases h
      exact hs₁
    · rw [if_neg hnr] at h
      exact (ih h).trans hs₁

theorem addEntry_inode {name : Option CStr} {b : ℕ} {res : Option (ℕ × ℕ)}
    (h : s.addEntry dir name = .ok (s', b, res)) : s'.inode = s.inode := by
  obtain ⟨-, h⟩ := cassert_bind_eq_ok.1 h
  obtain ⟨fname, -, h⟩ := bind_eq_ok.1 h
  obtain ⟨-, h⟩ := cassert_bind_eq_ok.1 h
  obtain ⟨⟨s₁, found⟩, h₁, h⟩ := bind_eq_ok.1 h
  have hs₁ : s₁.inode = s.inode := (findEntry_touched h₁).inode
  cases found with
  | some p =>
    cases h
    exact hs₁
  | none =>
    obtain ⟨r, hr, h⟩ := bind_eq_ok.1 h
    obtain ⟨b', -, h⟩ := bind_eq_ok.1 h
    obtain ⟨s₂, h₂, h⟩ := bind_eq_ok.1 h
    cases h
    have hs₂ : s₂.inode = r.s.inode := by
      unfold setName at h₂
      split_ifs at h₂
      cases h₂
      rfl
    exact (hs₂.trans (addLoop_inode hr)).trans hs₁

/-- A loop whose turns leave the table alone does. -/
theorem foldlM_inode {α : Type} {f : Fs → α → C Fs} (hf : ∀ s a s', f s a = .ok s' → s'.inode = s.inode)
    (as : List α) {s s' : Fs} (h : as.foldlM f s = .ok s') : s'.inode = s.inode := by
  induction as generalizing s with
  | nil =>
    cases h
    rfl
  | cons a as ih =>
    rw [List.foldlM_cons] at h
    obtain ⟨s₁, h₁, h⟩ := bind_eq_ok.1 h
    exact (ih h).trans (hf _ _ _ h₁)

theorem inodeBfree_inode {level : ℕ} {array : U16Ptr} {index : ℕ}
    (h : inodeBfree level s array index = .ok s') : s'.inode = s.inode := by
  induction level generalizing s s' array index with
  | zero =>
    obtain ⟨v, -, h⟩ := bind_eq_ok.1 h
    split_ifs at h
    · cases h
      rfl
    · exact bfree_inode h
  | succ level ih =>
    obtain ⟨v, -, h⟩ := bind_eq_ok.1 h
    split_ifs at h
    · cases h
      rfl
    obtain ⟨s₁, h₁, h⟩ := bind_eq_ok.1 h
    obtain ⟨v', -, h⟩ := bind_eq_ok.1 h
    have hs₁ : s₁.inode = (s.bread v).inode := foldlM_inode (fun s k s' hs => ih hs) _ h₁
    have hs' : s'.inode = (s₁.brelse v).inode := bfree_inode h
    exact hs'.trans hs₁

theorem truncateZone_inode {index : Fin 9} {level : ℕ} (h : s.truncateZone i index level = .ok s') :
    s'.inode = s.inode := by
  obtain ⟨s₁, h₁, h⟩ := bind_eq_ok.1 h
  cases h
  have hs₁ : s₁.inode = s.inode := inodeBfree_inode h₁
  exact hs₁

theorem inodeTruncate_inode (h : s.inodeTruncate i = .ok s') : s'.inode = s.inode := by
  unfold inodeTruncate at h
  split_ifs at h
  · cases h
    rfl
  obtain ⟨s₁, h₁, h⟩ := bind_eq_ok.1 h
  obtain ⟨s₂, h₂, h⟩ := bind_eq_ok.1 h
  obtain ⟨s₃, h₃, h⟩ := bind_eq_ok.1 h
  cases h
  have hs₁ : s₁.inode = s.inode := foldlM_inode (fun s k s' hs => truncateZone_inode hs) _ h₁
  have hs₃ : s₃.inode = s.inode := ((truncateZone_inode h₃).trans (truncateZone_inode h₂)).trans hs₁
  exact hs₃

/-! ## Opening -/

theorem setRes_inode {res : Option (ℕ × ℕ)} {nr : ℕ} (h : s.setRes res nr = .ok s') :
    s'.inode = s.inode := by
  obtain ⟨p, -, h⟩ := bind_eq_ok.1 h
  cases h
  rfl

theorem Ledger.newInode (h : s.Ledger l) (hd : dir ∈ l) {res : Option (ℕ × ℕ)}
    (hs : s.newInode dir res = .ok (s', i)) : s'.Ledger (i ::ₘ l) := by
  obtain ⟨⟨s₁, nr⟩, h₁, hs⟩ := bind_eq_ok.1 hs
  obtain ⟨s₂, h₂, hs⟩ := bind_eq_ok.1 hs
  obtain ⟨p, -, hs⟩ := bind_eq_ok.1 hs
  obtain ⟨nr', -, hs⟩ := bind_eq_ok.1 hs
  have hs₂ : s₂.inode = s.inode := (setRes_inode h₂).trans (ialloc_inode h₁)
  exact (h.of_inode hs₂).iget ((h.of_inode hs₂).dev hd) hs

theorem openRollback_ledger {buf o : Option ℕ} {r : Option ℕ}
    (h : s.Ledger (o.elim (dir ::ₘ l) (· ::ₘ dir ::ₘ l)))
    (hs : s.openRollback buf dir o = .ok (s', r)) : s'.Ledger (r.elim l (· ::ₘ l)) := by
  obtain ⟨s₁, h₁, hs⟩ := bind_eq_ok.1 hs
  have hb : (s.brelse? buf).Ledger (o.elim (dir ::ₘ l) (· ::ₘ dir ::ₘ l)) := h.of_inode rfl
  cases o with
  | none =>
    cases hs
    exact Ledger.iput? (o := some dir) hb h₁
  | some k =>
    obtain ⟨s₂, h₂, hs⟩ := bind_eq_ok.1 hs
    cases hs
    have hk : (s.brelse? buf).Ledger (dir ::ₘ k ::ₘ l) := Multiset.cons_swap k dir l ▸ hb
    exact (Ledger.iput? (o := some dir) hk h₁).iput h₂

theorem openMakeup_ledger {flag buf inode : ℕ} {r : Option ℕ} (h : s.Ledger (inode ::ₘ dir ::ₘ l))
    (hs : s.openMakeup flag buf dir inode = .ok (s', r)) : s'.Ledger (r.elim l (· ::ₘ l)) := by
  unfold openMakeup at hs
  split_ifs at hs
  · exact openRollback_ledger (o := some inode) h hs
  obtain ⟨s₁, h₁, hs⟩ := bind_eq_ok.1 hs
  obtain ⟨s₂, h₂, hs⟩ := bind_eq_ok.1 hs
  cases hs
  have hs₁ : s₁.inode = s.inode := by
    unfold openTruncate at h₁
    split_ifs at h₁
    · exact inodeTruncate_inode h₁
    · cases h₁
      rfl
  have hb : (s₁.brelse buf).Ledger (dir ::ₘ inode ::ₘ l) :=
    Multiset.cons_swap inode dir l ▸ h.of_inode hs₁
  exact hb.iput h₂

theorem openCreate_ledger {task : FsTask} {fname : Option CStr} {mode buf inode : ℕ} (h : s.Ledger l)
    (hd : dir ∈ l) (hs : s.openCreate task dir fname mode = .ok (s', buf, inode)) :
    s'.Ledger (inode ::ₘ l) := by
  obtain ⟨⟨s₁, b, res⟩, h₁, hs⟩ := bind_eq_ok.1 hs
  obtain ⟨⟨s₂, k⟩, h₂, hs⟩ := bind_eq_ok.1 hs
  cases hs
  have hs₁ : s₁.inode = s.inode := addEntry_inode h₁
  have h₂' : s₂.Ledger (inode ::ₘ l) := (h.of_inode hs₁).newInode hd h₂
  exact h₂'.of_inode rfl

/-- **`inode_open` takes one reference**, to the inode that it returns. -/
theorem inodeOpen_ledger {task : FsTask} {pathname : CStr} {flag mode : ℕ} {r : Option ℕ}
    (h : s.Ledger l) (hroot : task.i_root ∈ l) (hpwd : task.i_pwd ∈ l)
    (hs : s.inodeOpen task pathname flag mode = .ok (s', r)) : s'.Ledger (r.elim l (· ::ₘ l)) := by
  obtain ⟨fname, -, hs⟩ := bind_eq_ok.1 hs
  obtain ⟨⟨s₁, o⟩, h₁, hs⟩ := bind_eq_ok.1 hs
  have hdir := _namei_ledger h hroot hpwd h₁
  cases o with
  | none =>
    obtain ⟨s₂, h₂, -⟩ := bind_eq_ok.1 hs
    obtain ⟨i, hi, -⟩ := bind_eq_ok.1 h₂
    cases hi
  | some dir =>
    dsimp only at hs
    by_cases hf : fname = none
    · rw [if_pos hf] at hs
      cases hs
      exact hdir
    rw [if_neg hf] at hs
    obtain ⟨⟨s₂, found⟩, h₂, hs⟩ := bind_eq_ok.1 hs
    have hs₂ : s₂.Ledger (dir ::ₘ l) := hdir.of_inode (findEntry_touched h₂).inode
    have hmem : dir ∈ dir ::ₘ l := Multiset.mem_cons_self dir l
    cases found with
    | some p =>
      obtain ⟨nr, -, hs⟩ := bind_eq_ok.1 hs
      obtain ⟨⟨s₃, inode⟩, h₃, hs⟩ := bind_eq_ok.1 hs
      exact openMakeup_ledger (hs₂.iget (hs₂.dev hmem) h₃) hs
    | none =>
      dsimp only at hs
      by_cases hc : flag &&& oCreat = 0
      · rw [if_pos hc] at hs
        exact openRollback_ledger (o := none) hs₂ hs
      rw [if_neg hc] at hs
      obtain ⟨⟨s₃, buf, inode⟩, h₃, hs⟩ := bind_eq_ok.1 hs
      exact openMakeup_ledger (openCreate_ledger hs₂ hmem h₃) hs

end Rdix.Fs
