import NimbleOS.Pmm.Search

/-!
# NimbleOS.Pmm.Alloc

What the three allocation calls do.  Each either answers 0 and changes nothing,
or it *takes* a run of free blocks: `Takes p first num p'` says which blocks,
that they were free and inside the scanned part, and that nothing but their bits
and the counter changed.  The invariant of the manager (`Pmm.Inv`) is stated
here too, with what a call that takes blocks or gives them back does to it.
-/

namespace NimbleOS

open Pmm FirstFit

/-- `p'` is `p` with `num` free blocks from `first` on marked used. -/
structure Takes (p : Pmm) (first num : Nat) (p' : Pmm) : Prop where
  pos : 0 < first
  below : first + num ≤ p.scanned
  free : ∀ b, first ≤ b → b < first + num → p.isUsed b = false
  result : p' = mmapSetBlocks p first num

namespace Takes

/-- The blocks of the run are all below `max_blocks`. -/
theorem below_max (h : Takes p first num p') : first + num ≤ p.maxBlocks :=
  Nat.le_trans h.below (scanned_le p)

theorem maxBlocks_eq (h : Takes p first num p') : p'.maxBlocks = p.maxBlocks := by
  rw [h.result, maxBlocks_mmapSetBlocks]

/-- Exactly the blocks of the run become used. -/
theorem isUsed_eq (hmax : p.maxBlocks ≤ 2 ^ 20) (h : Takes p first num p') (b : Nat) :
    p'.isUsed b = (decide (first ≤ b ∧ b < first + num) || p.isUsed b) := by
  have := h.below_max
  rw [h.result, isUsed_mmapSetBlocks p (by omega)]

theorem isUsed_of_isUsed (hmax : p.maxBlocks ≤ 2 ^ 20) (h : Takes p first num p')
    (hb : p.isUsed b = true) : p'.isUsed b = true := by
  rw [h.isUsed_eq hmax, hb, Bool.or_true]

theorem isUsed_of_mem (hmax : p.maxBlocks ≤ 2 ^ 20) (h : Takes p first num p')
    (hlo : first ≤ b) (hhi : b < first + num) : p'.isUsed b = true := by
  rw [h.isUsed_eq hmax]; simp [hlo, hhi]

end Takes

/-! ## the allocation calls -/

/-- Marking one block is marking a run of length one. -/
theorem mmapSetBlocks_one (p : Pmm) (hb : b < 2 ^ 32) : mmapSetBlocks p b 1 = mmapSet p b := by
  have hz : mmapSetBlocks p b 0 = p := rfl
  rw [mmapSetBlocks_succ, hz, Nat.add_zero, u32_of_lt hb]

/-- The address of a block below `2 ^ 20` does not wrap. -/
theorem u32_block (hb : b < 2 ^ 20) : u32 (b * pageSize) = b * pageSize :=
  u32_of_lt (by unfold pageSize; omega)

theorem pmmAllocPage_cases (hmax : p.maxBlocks ≤ 2 ^ 20) (h : pmmAllocPage p = .ok (a, p')) :
    (a = 0 ∧ p' = p) ∨
      ∃ b, a = b * pageSize ∧ Takes p b 1 p' ∧ ∀ k, k < b → p.isUsed k = true := by
  unfold pmmAllocPage at h
  split at h
  · contradiction
  · dsimp only at h
    split at h
    · cases h; exact .inl ⟨rfl, rfl⟩
    · next hne =>
      obtain ⟨hlt, hfree, hleast⟩ := mmapFindFree_spec p hne
      have hb : mmapFindFree p < 2 ^ 20 := by have := scanned_le p; omega
      cases h
      refine .inr ⟨mmapFindFree p, u32_block hb, ⟨by omega, by omega, ?_, ?_⟩, ?_⟩
      · intro b hlo hhi
        obtain rfl : b = mmapFindFree p := by omega
        exact (isFree_eq_true p).mp hfree
      · rw [mmapSetBlocks_one p (by omega)]
      · intro k hk
        simpa [isFree] using hleast k hk

/-- A run found by the search is free, non-empty and not at block 0. -/
theorem takes_of_find (hz : p.isUsed 0 = true) (hne : mmapFindFreeFrame p n ≠ 0) :
    0 < n ∧ IsLeftmost p.isFree p.scanned n (mmapFindFreeFrame p n) := by
  have hn : 0 < n := by
    rcases Nat.eq_zero_or_pos n with rfl | hn
    · exact absurd (mmapFindFreeFrame_zero p) hne
    · exact hn
  rcases mmapFindFreeFrame_spec p hz hn with ⟨hzero, -⟩ | ⟨-, hfit⟩
  · exact absurd hzero hne
  · exact ⟨hn, hfit⟩

theorem pmmAllocPages_cases (hmax : p.maxBlocks ≤ 2 ^ 20) (hz : p.isUsed 0 = true) (n : Nat) :
    pmmAllocPages p n = (0, p) ∨
      ∃ f p', pmmAllocPages p n = (f * pageSize, p') ∧ 0 < n ∧ Takes p f n p' := by
  unfold pmmAllocPages
  split
  · exact .inl rfl
  · dsimp only
    split
    · exact .inl rfl
    · next hne =>
      obtain ⟨hn, hfit⟩ := takes_of_find hz hne
      have := hfit.within
      have := scanned_le p
      rw [u32_block (by omega)]
      refine .inr ⟨_, _, rfl, hn, ⟨by omega, hfit.within, ?_, rfl⟩⟩
      exact fun b hlo hhi => (isFree_eq_true p).mp (hfit.fits b hlo hhi)

/-- The 4 MiB window: every run of 2048 blocks contains the 1024 blocks that
follow the next multiple of 1024. -/
theorem pmmAllocAlignedLargePage_cases (hmax : p.maxBlocks ≤ 2 ^ 20) (hz : p.isUsed 0 = true) :
    pmmAllocAlignedLargePage p = (0, p) ∨
      ∃ f p', pmmAllocAlignedLargePage p = (f * pageSize, p') ∧ 1024 ∣ f ∧
        Takes p f 1024 p' := by
  unfold pmmAllocAlignedLargePage
  split
  · exact .inl rfl
  · dsimp only
    split
    · exact .inl rfl
    · next hne =>
      obtain ⟨-, hfit⟩ := takes_of_find hz hne
      generalize mmapFindFreeFrame p (2 * 1024) = f at *
      have := hfit.within
      have := scanned_le p
      rw [u32_block (by omega)]
      refine .inr ⟨_, _, rfl, Nat.dvd_mul_left 1024 _, ⟨by omega, by omega, ?_, rfl⟩⟩
      exact fun b hlo hhi => (isFree_eq_true p).mp (hfit.fits b (by omega) (by omega))

/-! ### what the searches find is handed out -/

theorem pmmAllocPage_of_find (hguard : 0 < u32Sub p.maxBlocks p.usedBlocks)
    (hfind : mmapFindFree p = b) (hb : b ≠ 0) (hlt : b < 2 ^ 20) :
    pmmAllocPage p = .ok (b * pageSize, mmapSet p b) := by
  rw [pmmAllocPage, if_neg (Nat.not_le.mpr hguard)]
  simp only [hfind, if_neg hb, u32_block hlt]

theorem pmmAllocPages_of_find (hguard : n ≤ u32Sub p.maxBlocks p.usedBlocks)
    (hfind : mmapFindFreeFrame p n = f) (hf : f ≠ 0) (hlt : f < 2 ^ 20) :
    pmmAllocPages p n = (f * pageSize, mmapSetBlocks p f n) := by
  rw [pmmAllocPages, if_neg (Nat.not_lt.mpr hguard)]
  simp only [hfind, if_neg hf, u32_block hlt]

/-! ## the invariant -/

/-- What the searches rely on: block numbers fit into 20 bits, and block 0, which
they return for "none", is used. -/
structure Pmm.Sane (p : Pmm) : Prop where
  max_le : p.maxBlocks ≤ 2 ^ 20
  zero_used : p.isUsed 0 = true

/-- The invariant of the physical memory manager: sane, with an exact counter. -/
structure Pmm.Inv (p : Pmm) : Prop extends p.Sane where
  used_eq : p.usedBlocks = p.usedCount

theorem usedCount_le (p : Pmm) : p.usedCount ≤ p.maxBlocks := Bitset.card_le _

/-- Marking free blocks below the bound counts each of them once. -/
theorem usedCount_mmapSetBlocks (p : Pmm) (hmax : p.maxBlocks ≤ 2 ^ 20)
    (hbelow : first + n ≤ p.maxBlocks)
    (hfree : ∀ b, first ≤ b → b < first + n → p.isUsed b = false)
    (hused : p.usedBlocks = p.usedCount) :
    (mmapSetBlocks p first n).usedBlocks = (mmapSetBlocks p first n).usedCount ∧
      (mmapSetBlocks p first n).usedCount = p.usedCount + n := by
  induction n with
  | zero => exact ⟨hused, rfl⟩
  | succ n ih =>
      obtain ⟨ihu, ihc⟩ := ih (by omega) fun b hlo hhi => hfree b hlo (by omega)
      rw [mmapSetBlocks_succ, u32_of_lt (by omega)]
      have hlast : (mmapSetBlocks p first n).isUsed (first + n) = false := by
        rw [isUsed_mmapSetBlocks p (by omega), hfree _ (by omega) (by omega)]
        simp
      have hcount := usedCount_mmapSet (mmapSetBlocks p first n)
        (by rw [maxBlocks_mmapSetBlocks]; omega) hlast
      have hle := usedCount_le (mmapSet (mmapSetBlocks p first n) (first + n))
      rw [maxBlocks_mmapSet, maxBlocks_mmapSetBlocks] at hle
      refine ⟨?_, by omega⟩
      rw [hcount]
      change u32 ((mmapSetBlocks p first n).usedBlocks + 1) = _
      rw [ihu, u32_of_lt (by omega)]

theorem Pmm.Sane.takes (hs : p.Sane) (h : Takes p first num p') : p'.Sane :=
  ⟨by rw [h.maxBlocks_eq]; exact hs.max_le, h.isUsed_of_isUsed hs.max_le hs.zero_used⟩

theorem Pmm.Inv.takes (hinv : p.Inv) (h : Takes p first num p') : p'.Inv := by
  refine ⟨hinv.toSane.takes h, ?_⟩
  rw [h.result]
  exact (usedCount_mmapSetBlocks p hinv.max_le h.below_max h.free hinv.used_eq).1

/-- Giving back used blocks below the bound counts each of them once. -/
theorem usedCount_mmapUnsetBlocks (p : Pmm) (hmax : p.maxBlocks ≤ 2 ^ 20)
    (hmem : ∀ b, first ≤ b → b < first + n → b < p.maxBlocks ∧ p.isUsed b = true)
    (hused : p.usedBlocks = p.usedCount) :
    (mmapUnsetBlocks p first n).usedBlocks = (mmapUnsetBlocks p first n).usedCount := by
  induction n with
  | zero => exact hused
  | succ n ih =>
      have ihu := ih fun b hlo hhi => hmem b hlo (by omega)
      obtain ⟨hlt, hb⟩ := hmem (first + n) (by omega) (by omega)
      rw [mmapUnsetBlocks_succ, u32_of_lt (by omega)]
      have hlast : (mmapUnsetBlocks p first n).isUsed (first + n) = true := by
        rw [isUsed_mmapUnsetBlocks p (by omega), hb]
        simp
      have hcount := usedCount_mmapUnset (mmapUnsetBlocks p first n)
        (by rw [maxBlocks_mmapUnsetBlocks]; exact hlt) hlast
      have hle := usedCount_le (mmapUnsetBlocks p first n)
      rw [maxBlocks_mmapUnsetBlocks] at hle
      change u32Sub (mmapUnsetBlocks p first n).usedBlocks 1 = _
      rw [ihu, u32Sub]
      omega

/-- Freeing a range without block 0 keeps block 0 used. -/
theorem Pmm.Sane.gives (hs : p.Sane) (hrange : n = 0 ∨ 0 < first ∧ first + n ≤ 2 ^ 20) :
    (mmapUnsetBlocks p first n).Sane := by
  refine ⟨by rw [maxBlocks_mmapUnsetBlocks]; exact hs.max_le, ?_⟩
  rcases hrange with rfl | ⟨hpos, hle⟩
  · exact hs.zero_used
  · rw [isUsed_mmapUnsetBlocks p (by omega), hs.zero_used]
    simp; omega

/-! ## what is granted -/

/-- How many blocks the counter says are free. -/
def Pmm.credit (p : Pmm) : Nat := u32Sub p.maxBlocks p.usedBlocks

/-- What a page that was granted says of the search. -/
theorem pmmAllocPage_grants_iff (hs : p.Sane) (ha : a ≠ 0) : pmmAllocPage p = .ok (a, p') ↔
    1 ≤ p.credit ∧ a = mmapFindFree p * pageSize ∧ Takes p (mmapFindFree p) 1 p' := by
  constructor
  · intro h
    have hguard : ¬ u32Sub p.maxBlocks p.usedBlocks ≤ 0 := fun hguard => by
      rw [pmmAllocPage, if_pos hguard] at h
      cases h
    rcases pmmAllocPage_cases hs.max_le h with ⟨rfl, -⟩ | ⟨b, rfl, htakes, hleast⟩
    · contradiction
    · have hb : b = mmapFindFree p := by
        rw [pmmAllocPage, if_neg hguard] at h
        dsimp only at h
        split at h
        · exact absurd (Prod.mk.inj (Except.ok.inj h)).1.symm ha
        · next hne =>
          have hlt := (mmapFindFree_spec p hne).1
          have hscan := scanned_le p
          have hmax := hs.max_le
          rw [u32_block (by omega)] at h
          have haddr := (Prod.mk.inj (Except.ok.inj h)).1
          unfold pageSize at haddr
          omega
      subst hb
      exact ⟨by unfold Pmm.credit; omega, rfl, htakes⟩
  · rintro ⟨hcredit, rfl, htakes⟩
    have hlt := htakes.below_max
    have hmax := hs.max_le
    rw [htakes.result, mmapSetBlocks_one p (by omega)]
    exact pmmAllocPage_of_find hcredit rfl (Nat.ne_of_gt htakes.pos) (by omega)

theorem pmmAllocPages_grants_iff (hs : p.Sane) (ha : a ≠ 0) : pmmAllocPages p n = (a, p') ↔
    n ≤ p.credit ∧ a = mmapFindFreeFrame p n * pageSize ∧ Takes p (mmapFindFreeFrame p n) n p' := by
  constructor
  · intro h
    have hguard : ¬ u32Sub p.maxBlocks p.usedBlocks < n := fun hguard => by
      rw [pmmAllocPages, if_pos hguard] at h
      cases h
      contradiction
    rcases pmmAllocPages_cases hs.max_le hs.zero_used n with hzero | ⟨f, p'', hcall, -, htakes⟩
    · rw [hzero] at h
      cases h
      contradiction
    · rw [hcall] at h
      obtain ⟨rfl, rfl⟩ := Prod.mk.inj h
      have hf : f = mmapFindFreeFrame p n := by
        rw [pmmAllocPages, if_neg hguard] at hcall
        dsimp only at hcall
        split at hcall
        · exact absurd (Prod.mk.inj hcall).1.symm ha
        · next hne =>
          obtain ⟨hn, hfit⟩ := takes_of_find hs.zero_used hne
          have hlt := hfit.within
          have hscan := scanned_le p
          have hmax := hs.max_le
          rw [u32_block (by omega)] at hcall
          have haddr := (Prod.mk.inj hcall).1
          unfold pageSize at haddr
          omega
      subst hf
      exact ⟨Nat.not_lt.mp hguard, rfl, htakes⟩
  · rintro ⟨hcredit, rfl, htakes⟩
    have hlt := htakes.below_max
    have hmax := hs.max_le
    have hne := Nat.ne_of_gt htakes.pos
    obtain ⟨hn, -⟩ := takes_of_find hs.zero_used hne
    rw [htakes.result]
    exact pmmAllocPages_of_find hcredit rfl hne (by omega)

end NimbleOS
