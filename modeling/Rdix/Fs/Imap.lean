/-
  Inode allocation over whole runs (fs/minix1/bmap.c: ialloc, ifree).

  A run is any order of `ialloc` and of `ifree` of numbers that `ialloc` returned.  Bits and
  inodes have the same numbers, and bit 0 stands for none; `ialloc` asserts that the number is
  below `inodes`, while `iget` takes `inodes` too.

  * `ialloc_spec`: what one allocation does, by the lowest free number;
  * `inodes_exact_iff`: in every run, allocation and release are exact unless the last number is
    the lowest free one.
-/
import Rdix.Lib.Run
import Rdix.Fs.Alloc

namespace Rdix

open Transition

/-- A superblock whose inode bitmap is well formed: bit 0 and the bits past the last inode are
    used. -/
structure Super.ImapOk (sb : Super) : Prop where
  nr : sb.imap_blocks ≤ 8
  bit_zero : mapBit sb.imaps 0 = true
  past_last : ∀ p < blockBits * sb.imap_blocks, sb.inodes < p → mapBit sb.imaps p = true

/-- The bit of inode `nr`. -/
def Super.inodeUsed (sb : Super) (nr : ℕ) : Bool := mapBit sb.imaps nr

/-- The superblock with the bit of inode `nr` set to `s`. -/
def Super.putInode (sb : Super) (nr : ℕ) (s : Bool) : Super :=
  { sb with imaps := mapPut sb.imaps nr s }

/-- The lowest free number. -/
structure Super.Lowest (sb : Super) (nr : ℕ) : Prop where
  pos : 1 ≤ nr
  le : nr ≤ sb.inodes
  free : sb.inodeUsed nr = false
  used : ∀ q, 1 ≤ q → q < nr → sb.inodeUsed q = true

/-- A superblock and the inodes handed out and not yet released. -/
structure IState where
  sb : Super
  live : List ℕ

inductive IOp where
  | ialloc
  | ifree (nr : ℕ)

/-- An allocation that returns `EOF` leaves the superblock as it is. -/
def iallocTo (s : IState) : Option (Super × ℕ) → IState
  | none => s
  | some r => ⟨r.1, r.2 :: s.live⟩

/-- The runs of `ialloc` and `ifree` from the superblock `sb₀`. -/
def inodeSys (sb₀ : Super) : Sys IState IOp where
  init s := s = ⟨sb₀, []⟩
  step s op t := match op with
    | .ialloc => ∃ r, ialloc s.sb = .ok r ∧ t = iallocTo s r
    | .ifree nr => nr ∈ s.live ∧ ∃ sb, ifree s.sb nr = .ok sb ∧ t = ⟨sb, s.live.erase nr⟩

/-! ## One call -/

section Call
variable {sb : Super} {nr : ℕ}

theorem Super.Lowest.unique {nr' : ℕ} (h : sb.Lowest nr) (h' : sb.Lowest nr') : nr = nr' := by
  rcases Nat.lt_trichotomy nr nr' with hlt | he | hlt
  · have := h'.used nr h.pos hlt
    rw [h.free] at this
    cases this
  · exact he
  · have := h.used nr' h'.pos hlt
    rw [h'.free] at this
    cases this

/-- A number behind the bitmap counts as used. -/
theorem lt_of_mapBit {maps : List Buf} {p : ℕ} (h : mapBit maps p = false) :
    p < blockBits * maps.length := by
  by_contra hge
  have hnone : maps[p / blockBits]? = none := by
    refine List.getElem?_eq_none ((Nat.le_div_iff_mul_le (by decide)).2 ?_)
    rw [Nat.mul_comm]
    omega
  rw [mapBit, hnone] at h
  cases h

theorem Super.ImapOk.numbered (h : sb.ImapOk) :
    Numbered (blockBits * ·) 0 0 sb.imaps.length ∧ 0 + blockBits * sb.imaps.length < 2 ^ 31 := by
  have h1 := h.nr
  simp only [Super.imap_blocks] at h1
  refine ⟨fun k _ => by simp, ?_⟩
  simp only [blockBits, blockSize]
  omega

/-- **`ialloc` takes the lowest free number and sets exactly its bit, if it is not the last.** -/
theorem ialloc_spec (h : sb.ImapOk) :
    (∃ nr, sb.Lowest nr ∧ ialloc sb = if nr < sb.inodes then .ok (some (sb.putInode nr true, nr))
      else .error (.assert "inode_nr < sb->desc->inodes")) ∨
    ((∀ nr, sb.inodeUsed nr = true) ∧ ialloc sb = .ok none) := by
  obtain ⟨hn, hc⟩ := h.numbered
  rcases @mapAlloc_cases _ sb.inodes "inode_nr < sb->desc->inodes" sb.imaps 0 0 hn hc with
    ⟨p, hp, hb, hfst, he⟩ | ⟨hall, he⟩
  · refine Or.inl ⟨p, ⟨?_, ?_, hb, fun q _ hq => hfst q hq⟩, ?_⟩
    · refine Nat.one_le_iff_ne_zero.2 ?_
      rintro rfl
      rw [h.bit_zero] at hb
      cases hb
    · by_contra hgt
      rw [h.past_last p hp (by omega)] at hb
      cases hb
    · rw [ialloc, he, Nat.zero_add]
      split_ifs <;> rfl
  · refine Or.inr ⟨fun nr => ?_, by rw [ialloc, he]; rfl⟩
    by_contra hf
    have hf : mapBit sb.imaps nr = false := by simpa [Super.inodeUsed] using hf
    rw [hall nr (lt_of_mapBit hf)] at hf
    cases hf

theorem Super.Lowest.ialloc (hl : sb.Lowest nr) (h : sb.ImapOk) :
    ialloc sb = if nr < sb.inodes then .ok (some (sb.putInode nr true, nr))
      else .error (.assert "inode_nr < sb->desc->inodes") := by
  rcases ialloc_spec h with ⟨nr', hl', he⟩ | ⟨hall, -⟩
  · rwa [hl.unique hl']
  · have hused := hall nr
    rw [hl.free] at hused
    cases hused

/-- **`ifree` clears exactly the bit of a used number below `inodes`.** -/
theorem ifree_spec (h : sb.ImapOk) (hnr : nr < sb.inodes) (hin : nr < blockBits * sb.imaps.length)
    (hused : sb.inodeUsed nr = true) : ifree sb nr = .ok (sb.putInode nr false) := by
  obtain ⟨hn, hc⟩ := h.numbered
  unfold ifree
  rw [mapFree_same hn hc hnr (Nat.zero_le nr) hin rfl hused]
  rfl

theorem inodeUsed_putInode (hin : nr < blockBits * sb.imaps.length) (b : Bool) (nr' : ℕ) :
    (sb.putInode nr b).inodeUsed nr' = if nr' = nr then b else sb.inodeUsed nr' :=
  mapBit_put hin b nr'

theorem Super.ImapOk.putInode (h : sb.ImapOk) {b : Bool} (hpos : 1 ≤ nr) (hnr : nr ≤ sb.inodes)
    (hin : nr < blockBits * sb.imaps.length) : (sb.putInode nr b).ImapOk where
  nr := by simpa [Super.putInode, Super.imap_blocks] using h.nr
  bit_zero := by
    have h0 : (0 : ℕ) ≠ nr := by omega
    exact (mapBit_put hin b 0).trans (by rw [if_neg h0, h.bit_zero])
  past_last p hp hgt := by
    have hp' : p < blockBits * sb.imap_blocks := by
      simpa [Super.putInode, Super.imap_blocks] using hp
    have hgt' : sb.inodes < p := hgt
    have hne : p ≠ nr := by omega
    exact (mapBit_put hin b p).trans (by rw [if_neg hne, h.past_last p hp' hgt'])

end Call

/-! ## Runs -/

/-- What holds in every state of a run: the numbers handed out are distinct, and their bits are
    set. -/
structure IInv (s : IState) : Prop where
  ok : s.sb.ImapOk
  nodup : s.live.Nodup
  live : ∀ nr ∈ s.live, 1 ≤ nr ∧ nr < s.sb.inodes ∧ nr < blockBits * s.sb.imaps.length ∧
    s.sb.inodeUsed nr = true

section Step
variable {sb₀ : Super} {s t : IState}

/-- What a step of a run can do. -/
theorem inodeSys_step {op : IOp} (hI : IInv s) (h : (inodeSys sb₀).step s op t) :
    t = s ∨ (∃ nr, s.sb.Lowest nr ∧ nr < s.sb.inodes ∧
      t = ⟨s.sb.putInode nr true, nr :: s.live⟩) ∨
    (∃ nr ∈ s.live, t = ⟨s.sb.putInode nr false, s.live.erase nr⟩) := by
  cases op with
  | ialloc =>
    obtain ⟨r, he, rfl⟩ := h
    rcases ialloc_spec hI.ok with ⟨nr, hl, he'⟩ | ⟨-, he'⟩
    · rw [he'] at he
      split_ifs at he with hlt
      cases he
      exact Or.inr (Or.inl ⟨nr, hl, hlt, rfl⟩)
    · rw [he'] at he
      cases he
      exact Or.inl rfl
  | ifree nr =>
    obtain ⟨hm, sb, he, rfl⟩ := h
    obtain ⟨-, h2, h3, h4⟩ := hI.live nr hm
    rw [ifree_spec hI.ok h2 h3 h4] at he
    cases he
    exact Or.inr (Or.inr ⟨nr, hm, rfl⟩)

theorem IInv.step {op : IOp} (hI : IInv s) (h : (inodeSys sb₀).step s op t) : IInv t := by
  rcases inodeSys_step hI h with rfl | ⟨nr, hl, hlt, rfl⟩ | ⟨nr, hm, rfl⟩
  · exact hI
  · have hin := lt_of_mapBit hl.free
    have hlen : (s.sb.putInode nr true).imaps.length = s.sb.imaps.length := mapPut_length ..
    refine ⟨hI.ok.putInode hl.pos hl.le hin, List.nodup_cons.2 ⟨fun hm => ?_, hI.nodup⟩,
      fun q hq => ?_⟩
    · have hused := (hI.live nr hm).2.2.2
      rw [hl.free] at hused
      cases hused
    · rw [inodeUsed_putInode hin, hlen]
      rcases List.mem_cons.1 hq with rfl | hq
      · exact ⟨hl.pos, hlt, hin, if_pos rfl⟩
      · obtain ⟨h1, h2, h3, h4⟩ := hI.live q hq
        exact ⟨h1, h2, h3, by split_ifs <;> simp [h4]⟩
  · obtain ⟨h1, h2, h3, -⟩ := hI.live nr hm
    have hlen : (s.sb.putInode nr false).imaps.length = s.sb.imaps.length := mapPut_length ..
    refine ⟨hI.ok.putInode h1 h2.le h3, hI.nodup.erase nr, fun q hq => ?_⟩
    obtain ⟨hne, hq⟩ := hI.nodup.mem_erase_iff.1 hq
    rw [inodeUsed_putInode h3, hlen, if_neg hne]
    exact hI.live q hq

theorem IInv.reach (h₀ : sb₀.ImapOk) (h : (inodeSys sb₀).Reach s) : IInv s := by
  refine h.invariant (fun s hs => ?_) fun _ _ _ hI hst => hI.step hst
  obtain rfl : s = ⟨sb₀, []⟩ := hs
  exact ⟨h₀, List.nodup_nil, by simp⟩

end Step

/-- Inode allocation in a state of a run. -/
structure InodesExact (s : IState) : Prop where
  /-- the lowest free number is returned, with exactly its bit set -/
  alloc : ∀ nr, s.sb.Lowest nr → ialloc s.sb = .ok (some (s.sb.putInode nr true, nr))
  /-- `EOF` when no number is free -/
  full : (∀ nr, 1 ≤ nr → nr ≤ s.sb.inodes → s.sb.inodeUsed nr = true) → ialloc s.sb = .ok none
  fresh : ∀ sb nr, ialloc s.sb = .ok (some (sb, nr)) → nr ∉ s.live
  free : ∀ nr ∈ s.live, ifree s.sb nr = .ok (s.sb.putInode nr false)

/-- **In every run, allocation and release are exact if and only if the last number is not the
    lowest free one.** -/
theorem inodes_exact_iff {sb₀ : Super} (h₀ : sb₀.ImapOk) {s : IState}
    (h : (inodeSys sb₀).Reach s) : InodesExact s ↔ ¬ s.sb.Lowest s.sb.inodes := by
  have hI := IInv.reach h₀ h
  constructor
  · intro hx hl
    have he := hl.ialloc hI.ok
    rw [if_neg (lt_irrefl _), hx.alloc _ hl] at he
    cases he
  · intro hlast
    refine ⟨fun nr hl => ?_, fun hfull => ?_, fun sb nr he hm => ?_, fun nr hm => ?_⟩
    · have hne : nr ≠ s.sb.inodes := by
        rintro rfl
        exact hlast hl
      have hlt : nr < s.sb.inodes := lt_of_le_of_ne hl.le hne
      rw [hl.ialloc hI.ok, if_pos hlt]
    · rcases ialloc_spec hI.ok with ⟨nr, hl, -⟩ | ⟨-, he⟩
      · have hused := hfull nr hl.pos hl.le
        rw [hl.free] at hused
        cases hused
      · exact he
    · rcases ialloc_spec hI.ok with ⟨nr', hl, he'⟩ | ⟨-, he'⟩
      · rw [he'] at he
        split_ifs at he
        cases he
        have hused := (hI.live nr hm).2.2.2
        rw [hl.free] at hused
        cases hused
      · rw [he'] at he
        cases he
    · obtain ⟨-, h2, h3, h4⟩ := hI.live nr hm
      exact ifree_spec hI.ok h2 h3 h4

/-- A bitmap of 32 inodes whose bits 0 to 31 are those of `low`, and whose last number is free. -/
def imapSb (low : BitVec 32) : Super :=
  ⟨32, 64, 4, [⟨fun i => if i < 4 then low.extractLsb' (8 * i) 8 else if i = 4 then 254#8 else 255#8,
    false⟩], []⟩

theorem imapSb_ok {low : BitVec 32} (h : low.getLsbD 0 = true) : (imapSb low).ImapOk where
  nr := show 1 ≤ 8 by omega
  bit_zero := by
    simpa [mapBit, imapSb, Buf.map, Bitmap.bit] using h
  past_last p hp hgt := by
    have hp' : p / 8192 = 0 ∧ p % 8192 = p := by
      simp only [blockBits, blockSize, Super.imap_blocks, imapSb, List.length_singleton] at hp
      omega
    have hgt' : 32 < p := hgt
    have h4 : ¬ p / 8 < 4 := by omega
    have hj : p % 8 < 8 := Nat.mod_lt _ (by decide)
    simp only [mapBit, blockBits, blockSize, imapSb, hp', List.getElem?_cons_zero, Buf.map,
      Bitmap.bit, if_neg h4]
    by_cases hi : p / 8 = 4
    · have hj0 : p % 8 ≠ 0 := by omega
      rw [if_pos hi]
      interval_cases p % 8 <;> simp_all
    · rw [if_neg hi]
      interval_cases p % 8 <;> decide

/-- Inodes 1 and 2 of a fresh file system are handed out, and 1 comes back. -/
theorem inodes_exact_restored :
    ∃ sb, (inodeSys (imapSb 1#32)).Reach ⟨sb, [2]⟩ ∧ InodesExact ⟨sb, [2]⟩ := by
  have hrun : (do
      let a ← ialloc (imapSb 1#32) >>= deref "inode"
      let b ← ialloc a.1 >>= deref "inode"
      let sb ← ifree b.1 a.2
      return (a.2, b.2, sb.inodeUsed 1, sb.inodes)) = Except.ok (ε := Halt) (1, 2, false, 32) := by
    decide +kernel
  obtain ⟨⟨sb₁, nr⟩, ha, hrun⟩ := bind_eq_ok.1 hrun
  obtain ⟨⟨sb₂, nr'⟩, hb, hrun⟩ := bind_eq_ok.1 hrun
  obtain ⟨sb₃, h₃, hrun⟩ := bind_eq_ok.1 hrun
  simp only [pure_eq_ok, Except.ok.injEq, Prod.mk.injEq] at hrun
  obtain ⟨rfl, rfl, hfree, hn⟩ := hrun
  obtain ⟨_, h₁, ha⟩ := bind_eq_ok.1 ha
  obtain ⟨_, h₂, hb⟩ := bind_eq_ok.1 hb
  obtain rfl := deref_eq_ok.1 ha
  obtain rfl := deref_eq_ok.1 hb
  have hs : (inodeSys (imapSb 1#32)).Reach ⟨sb₃, [2]⟩ :=
    .step (a := .ifree 1) (.step (a := .ialloc) (.step (a := .ialloc) (.init rfl) ⟨_, h₁, rfl⟩)
      ⟨_, h₂, rfl⟩) ⟨by simp [iallocTo], _, h₃, rfl⟩
  refine ⟨sb₃, hs, (inodes_exact_iff (imapSb_ok (by decide)) hs).2 fun hl => ?_⟩
  have hused := hl.used 1 le_rfl (by rw [hn]; decide)
  rw [hfree] at hused
  cases hused

theorem imapSb_last : (imapSb (BitVec.allOnes 32)).Lowest 32 where
  pos := by decide
  le := by decide
  free := by decide
  used q _ hq := by interval_cases q <;> decide

/-- Only the last number is free: `ialloc` fails its assertion. -/
theorem ialloc_last : (imapSb (BitVec.allOnes 32)).ImapOk ∧
    (imapSb (BitVec.allOnes 32)).Lowest (imapSb (BitVec.allOnes 32)).inodes ∧
    ialloc (imapSb (BitVec.allOnes 32)) = .error (.assert "inode_nr < sb->desc->inodes") := by
  have hok : (imapSb (BitVec.allOnes 32)).ImapOk := imapSb_ok (by decide)
  refine ⟨hok, imapSb_last, ?_⟩
  rw [imapSb_last.ialloc hok]
  exact if_neg (by decide)

end Rdix
