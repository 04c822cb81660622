import NimbleOS.Pmm.Alloc

/-!
# NimbleOS.Pmm.Marks

A manager with more blocks marked.  The searches are leftmost-fit, so what is granted
without any of these blocks is granted in the same place if they are marked: an answer that
keeps off a set of blocks does not tell whether they are marked.
-/

namespace NimbleOS

open Pmm FirstFit

/-- `q` is `p` with the blocks of `S` marked, and the same counter. -/
structure Marks (S : Nat → Prop) (p q : Pmm) : Prop where
  maxBlocks : q.maxBlocks = p.maxBlocks
  usedBlocks : q.usedBlocks = p.usedBlocks
  used : ∀ b, q.isUsed b = true ↔ S b ∨ p.isUsed b = true

theorem exists_marks (S : Nat → Prop) (p : Pmm) : ∃ q, Marks S p q := by
  obtain ⟨bitmap, hbitmap⟩ := Bitset.exists_test (w := 32) fun b => S b ∨ p.isUsed b = true
  exact ⟨{ p with bitmap := bitmap }, rfl, rfl, hbitmap⟩

namespace Marks

variable {S : Nat → Prop} {p q : Pmm}

theorem sane (h : Marks S p q) (hs : p.Sane) : q.Sane :=
  ⟨by rw [h.maxBlocks]; exact hs.max_le, (h.used 0).mpr (.inr hs.zero_used)⟩

theorem credit (h : Marks S p q) : q.credit = p.credit := by
  rw [Pmm.credit, Pmm.credit, h.maxBlocks, h.usedBlocks]

theorem scanned (h : Marks S p q) : q.scanned = p.scanned := by
  rw [Pmm.scanned, Pmm.scanned, h.maxBlocks]

/-- What is free in `q` is free in `p`, and the other way round outside of the set. -/
theorem isFree (h : Marks S p q) : q.isFree b = true ↔ ¬ S b ∧ p.isFree b = true := by
  have hused := h.used b
  rw [isFree_eq_true, isFree_eq_true, ← Bool.not_eq_true, hused, not_or, Bool.not_eq_true]

/-- **The leftmost fit** keeps off the set: then it is the leftmost fit with the set marked. -/
theorem isLeftmost (h : Marks S p q) (hleft : IsLeftmost p.isFree p.scanned n f)
    (hoff : ∀ b, f ≤ b → b < f + n → ¬ S b) : IsLeftmost q.isFree q.scanned n f where
  within := by rw [h.scanned]; exact hleft.within
  fits := fun b hlo hhi => h.isFree.mpr ⟨hoff b hlo hhi, hleft.fits b hlo hhi⟩
  least := fun g hg hfits => hleft.least g hg fun b hlo hhi => (h.isFree.mp (hfits b hlo hhi)).2

/-! ## taking blocks -/

theorem usedBlocks_mmapSetBlocks (h : q.usedBlocks = p.usedBlocks) (f n : Nat) :
    (mmapSetBlocks q f n).usedBlocks = (mmapSetBlocks p f n).usedBlocks := by
  induction n with
  | zero => exact h
  | succ n ih =>
      rw [mmapSetBlocks_succ, mmapSetBlocks_succ]
      exact congrArg (fun used => u32 (used + 1)) ih

theorem takes (h : Marks S p q) (hs : p.Sane) (ht : Takes p f n p')
    (hoff : ∀ b, f ≤ b → b < f + n → ¬ S b) : ∃ q', Takes q f n q' ∧ Marks S p' q' := by
  have htakes : Takes q f n (mmapSetBlocks q f n) :=
    { pos := ht.pos
      below := by rw [h.scanned]; exact ht.below
      free := fun b hlo hhi => by
        rw [← isFree_eq_true, h.isFree]
        exact ⟨hoff b hlo hhi, (isFree_eq_true p).mpr (ht.free b hlo hhi)⟩
      result := rfl }
  refine ⟨_, htakes, ?_, ?_, fun b => ?_⟩
  · rw [htakes.maxBlocks_eq, ht.maxBlocks_eq, h.maxBlocks]
  · rw [ht.result, usedBlocks_mmapSetBlocks h.usedBlocks]
  · rw [htakes.isUsed_eq (h.sane hs).max_le, ht.isUsed_eq hs.max_le, Bool.or_eq_true,
      Bool.or_eq_true, h.used]
    exact or_left_comm

/-! ## the calls -/

/-- **A page** that is not in the set is granted all the same. -/
theorem allocPage (h : Marks S p q) (hs : p.Sane) (ha : a ≠ 0) (hcall : pmmAllocPage p = .ok (a, p'))
    (hoff : ∀ b, S b → p'.isUsed b = true → p.isUsed b = true) :
    ∃ q', pmmAllocPage q = .ok (a, q') ∧ Marks S p' q' := by
  obtain ⟨hcredit, haddr, htakes⟩ := (pmmAllocPage_grants_iff hs ha).mp hcall
  have hout : ∀ b, mmapFindFree p ≤ b → b < mmapFindFree p + 1 → ¬ S b := fun b hlo hhi hb => by
    have hused := hoff b hb (htakes.isUsed_of_mem hs.max_le hlo hhi)
    rw [htakes.free b hlo hhi] at hused
    cases hused
  obtain ⟨q', htakes', hmarks⟩ := h.takes hs htakes hout
  have hne := Nat.ne_of_gt htakes.pos
  have hfind : mmapFindFree q = mmapFindFree p := by
    have hleft : IsLeftmost p.isFree p.scanned 1 (mmapFindFree p) := by
      obtain ⟨hlt, hfree, hleast⟩ := mmapFindFree_spec p hne
      refine ⟨hlt, fun b hlo hhi => ?_, fun g hg hfits => ?_⟩
      · obtain rfl : b = mmapFindFree p := by omega
        exact hfree
      · have hused := hfits g (Nat.le_refl g) (Nat.lt_succ_self g)
        rw [hleast g hg] at hused
        cases hused
    rw [mmapFindFree_eq_leftmost q (h.sane hs).zero_used]
    exact (h.isLeftmost hleft hout).leftmost_eq _ Nat.one_pos
  refine ⟨q', (pmmAllocPage_grants_iff (h.sane hs) ha).mpr ?_, hmarks⟩
  rw [hfind, h.credit]
  exact ⟨hcredit, haddr, htakes'⟩

/-- **Pages** likewise. -/
theorem allocPages (h : Marks S p q) (hs : p.Sane) (ha : a ≠ 0) (hcall : pmmAllocPages p n = (a, p'))
    (hoff : ∀ b, S b → p'.isUsed b = true → p.isUsed b = true) :
    ∃ q', pmmAllocPages q n = (a, q') ∧ Marks S p' q' := by
  obtain ⟨hcredit, haddr, htakes⟩ := (pmmAllocPages_grants_iff hs ha).mp hcall
  have hout : ∀ b, mmapFindFreeFrame p n ≤ b → b < mmapFindFreeFrame p n + n → ¬ S b :=
    fun b hlo hhi hb => by
      have hused := hoff b hb (htakes.isUsed_of_mem hs.max_le hlo hhi)
      rw [htakes.free b hlo hhi] at hused
      cases hused
  obtain ⟨q', htakes', hmarks⟩ := h.takes hs htakes hout
  obtain ⟨hn, hleft⟩ := takes_of_find hs.zero_used (Nat.ne_of_gt htakes.pos)
  have hfind : mmapFindFreeFrame q n = mmapFindFreeFrame p n := by
    rw [mmapFindFreeFrame_eq_leftmost q (h.sane hs).zero_used hn]
    exact (h.isLeftmost hleft hout).leftmost_eq _ hn
  refine ⟨q', (pmmAllocPages_grants_iff (h.sane hs) ha).mpr ?_, hmarks⟩
  rw [hfind, h.credit]
  exact ⟨hcredit, haddr, htakes'⟩

end Marks

end NimbleOS
