import NimbleOS.Pmm

/-!
# NimbleOS.Pmm.Search

What the two bitmap searches return.  `mmap_find_free_frame` carries `first` and
`count` through the bitmap and uses 0 both for "no run started" and as a block
number, which is sound as long as block 0 is used.  Its loop invariant `Carries`
ties the two variables to the run of free blocks that ends at the current bit;
with it the scan is the leftmost-fit search of `FirstFit` over the blocks of
whole bitmap words.
-/

namespace NimbleOS

namespace Pmm

theorem isFree_eq_true (p : Pmm) : p.isFree b = true ↔ p.isUsed b = false := by simp [isFree]

theorem scanned_le (p : Pmm) : p.scanned ≤ p.maxBlocks := by unfold scanned; omega

/-- Bit `j` of word `i` is block `32 * i + j`. -/
theorem isUsed_word (p : Pmm) (hj : j < 32) :
    p.isUsed (32 * i + j) = (p.bitmap i).getLsbD j := by
  have hd : (32 * i + j) / 32 = i := by omega
  have hm : (32 * i + j) % 32 = j := by omega
  rw [isUsed, Bitset.test, hd, hm]

/-- The C test of one bit reads the block as free. -/
theorem bit_eq_zero_iff (p : Pmm) (hj : j < 32) :
    p.bitmap i &&& (1#32 <<< j) = 0#32 ↔ p.isFree (32 * i + j) = true := by
  rw [Bitset.and_mask_eq_zero_iff _ hj, isFree_eq_true, isUsed_word p hj]

/-- The blocks of a full word are all used. -/
theorem isFree_of_word_full (p : Pmm) (hfull : p.bitmap i = 0xFFFFFFFF#32) (hj : j < 32) :
    p.isFree (32 * i + j) = false := by
  have hones : (0xFFFFFFFF#32 : BitVec 32) = BitVec.allOnes 32 := by decide
  rw [isFree, isUsed_word p hj, hfull, hones, BitVec.getLsbD_allOnes]
  simp [hj]

end Pmm

open Pmm FirstFit

/-! ## `mmap_find_free` -/

theorem mmapFindFreeBit_eq_none (p : Pmm) (hr : r + j ≤ 32)
    (h : mmapFindFreeBit (p.bitmap i) r j = none) :
    ∀ k, j ≤ k → k < j + r → p.isFree (32 * i + k) = false := by
  induction r generalizing j with
  | zero => intro k _ _; omega
  | succ r ih =>
      unfold mmapFindFreeBit at h
      split at h
      · contradiction
      · next hbit =>
        rw [bit_eq_zero_iff p (by omega), Bool.not_eq_true] at hbit
        intro k hk hkr
        by_cases hkj : k = j
        · rw [hkj, hbit]
        · exact ih (by omega) h k (by omega) (by omega)

theorem mmapFindFreeBit_eq_some (p : Pmm) (hr : r + j ≤ 32)
    (h : mmapFindFreeBit (p.bitmap i) r j = some b) :
    j ≤ b ∧ b < j + r ∧ p.isFree (32 * i + b) = true ∧
      ∀ k, j ≤ k → k < b → p.isFree (32 * i + k) = false := by
  induction r generalizing j with
  | zero => simp [mmapFindFreeBit] at h
  | succ r ih =>
      unfold mmapFindFreeBit at h
      split at h
      · next hbit =>
        rw [bit_eq_zero_iff p (by omega)] at hbit
        obtain rfl : j = b := Option.some.inj h
        exact ⟨Nat.le_refl _, by omega, hbit, fun k _ _ => by omega⟩
      · next hbit =>
        rw [bit_eq_zero_iff p (by omega), Bool.not_eq_true] at hbit
        obtain ⟨hjb, hb, hfree, hleast⟩ := ih (by omega) h
        refine ⟨by omega, by omega, hfree, fun k hk hkb => ?_⟩
        by_cases hkj : k = j
        · rw [hkj, hbit]
        · exact hleast k (by omega) hkb

/-- From word `i` on the search returns the least free block, or 0 when there is
none. -/
theorem mmapFindFreeFrom_spec (p : Pmm) (r i : Nat) :
    (mmapFindFreeFrom p r i = 0 ∧
        ∀ k, 32 * i ≤ k → k < 32 * (i + r) → p.isFree k = false) ∨
      (∃ b, mmapFindFreeFrom p r i = b ∧ 32 * i ≤ b ∧ b < 32 * (i + r) ∧
        p.isFree b = true ∧ ∀ k, 32 * i ≤ k → k < b → p.isFree k = false) := by
  induction r generalizing i with
  | zero => exact .inl ⟨rfl, fun k _ _ => by omega⟩
  | succ r ih =>
      -- a word without a free block hands the search over to the next one
      have hnext : (∀ k, k < 32 → p.isFree (32 * i + k) = false) →
          mmapFindFreeFrom p (r + 1) i = mmapFindFreeFrom p r (i + 1) →
          (mmapFindFreeFrom p (r + 1) i = 0 ∧
            ∀ k, 32 * i ≤ k → k < 32 * (i + (r + 1)) → p.isFree k = false) ∨
          (∃ b, mmapFindFreeFrom p (r + 1) i = b ∧ 32 * i ≤ b ∧ b < 32 * (i + (r + 1)) ∧
            p.isFree b = true ∧ ∀ k, 32 * i ≤ k → k < b → p.isFree k = false) := by
        intro hword heq
        have hthis : ∀ k, 32 * i ≤ k → k < 32 * (i + 1) → p.isFree k = false := by
          intro k hk hlt
          have := hword (k - 32 * i) (by omega)
          rwa [show 32 * i + (k - 32 * i) = k by omega] at this
        rw [heq]
        rcases ih (i + 1) with ⟨hz, hnone⟩ | ⟨b, hb, hlo, hhi, hfree, hleast⟩
        · refine .inl ⟨hz, fun k hk hlt => ?_⟩
          by_cases hki : k < 32 * (i + 1)
          · exact hthis k hk hki
          · exact hnone k (by omega) (by omega)
        · refine .inr ⟨b, hb, by omega, by omega, hfree, fun k hk hlt => ?_⟩
          by_cases hki : k < 32 * (i + 1)
          · exact hthis k hk hki
          · exact hleast k (by omega) hlt
      by_cases hfull : p.bitmap i = 0xFFFFFFFF#32
      · exact hnext (fun k hk => isFree_of_word_full p hfull hk)
          (by rw [mmapFindFreeFrom, if_neg (not_not.mpr hfull)])
      · cases hbit : mmapFindFreeBit (p.bitmap i) 32 0 with
        | none =>
            exact hnext
              (fun k hk => mmapFindFreeBit_eq_none p (by omega) hbit k (by omega) (by omega))
              (by rw [mmapFindFreeFrom, if_pos hfull, hbit])
        | some j =>
            obtain ⟨_, hj, hfree, hleast⟩ := mmapFindFreeBit_eq_some p (by omega) hbit
            refine .inr ⟨32 * i + j, ?_, by omega, by omega, hfree, fun k hk hlt => ?_⟩
            · rw [mmapFindFreeFrom, if_pos hfull, hbit, Nat.mul_comm i 32]
            · have := hleast (k - 32 * i) (by omega) (by omega)
              rwa [show 32 * i + (k - 32 * i) = k by omega] at this

/-- A non-zero answer of `mmap_find_free` is the least free block, and then
block 0 is used. -/
theorem mmapFindFree_spec (p : Pmm) (h : mmapFindFree p ≠ 0) :
    mmapFindFree p < p.scanned ∧ p.isFree (mmapFindFree p) = true ∧
      ∀ k, k < mmapFindFree p → p.isFree k = false := by
  rcases mmapFindFreeFrom_spec p (p.maxBlocks / 32) 0 with
    ⟨hz, -⟩ | ⟨b, hb, _, hhi, hfree, hleast⟩
  · exact absurd hz h
  · have hbf : mmapFindFree p = b := hb
    rw [hbf]
    exact ⟨by unfold scanned; omega, hfree, fun k hk => hleast k (by omega) hk⟩

/-- The answer 0 of `mmap_find_free` means that there is no free block in the
scanned part other than block 0. -/
theorem mmapFindFree_eq_zero (p : Pmm) (h : mmapFindFree p = 0) (hk : 0 < k)
    (hlt : k < p.scanned) (hz : p.isUsed 0 = true) : p.isFree k = false := by
  unfold scanned at hlt
  rcases mmapFindFreeFrom_spec p (p.maxBlocks / 32) 0 with
    ⟨-, hnone⟩ | ⟨b, hb, _, _, hfree, _⟩
  · exact hnone k (by omega) (by omega)
  · have hb0 : b = 0 := hb.symm.trans h
    rw [hb0, isFree_eq_true, hz] at hfree
    exact Bool.noConfusion hfree

/-! ## `mmap_find_free_frame` -/

/-- The loop invariant: after `k` blocks, `count` is the length of the run of
free blocks that ends there and `first` its start, 0 standing for no run. -/
structure Carries (p : Pmm) (k first count : Nat) : Prop where
  count_eq : count = run p.isFree k
  first_eq : first = if count = 0 then 0 else k - count

/-- One bit of the scan, free. -/
theorem Carries.free (hc : Carries p k first count) (hz : p.isUsed 0 = true)
    (hfree : p.isFree k = true) :
    Carries p (k + 1) (if first = 0 then k else first) (count + 1) := by
  have hk : k ≠ 0 := by rintro rfl; rw [isFree_eq_true, hz] at hfree; contradiction
  obtain ⟨hcount, hfirst⟩ := hc
  refine ⟨by rw [run_succ_of_free _ hfree, hcount], ?_⟩
  have hlt : count < k := by
    -- the run does not reach back to the used block 0
    have hle : count ≤ k := hcount ▸ run_le p.isFree k
    refine Nat.lt_of_le_of_ne hle fun heq => ?_
    have hfit := ((le_run_iff p.isFree k k).mp (by omega)).2 0 (by omega) (by omega)
    rw [isFree_eq_true, hz] at hfit
    contradiction
  split_ifs at * <;> omega

/-- One bit of the scan, used. -/
theorem Carries.used (hused : p.isFree k = false) : Carries p (k + 1) 0 0 :=
  ⟨by rw [run_succ_of_used _ hused], rfl⟩

/-- The scan of one word: an early return ends the first run of length
`frameSize`, otherwise the invariant holds at the word's end. -/
theorem mmapScanWord_spec (p : Pmm) (hz : p.isUsed 0 = true) (hn : 0 < n) (hr : j + r = 32)
    (hc : Carries p (32 * i + j) first count) :
    match mmapScanWord (p.bitmap i) i n r j first count with
    | .inl f => ∃ k, 32 * i + j < k ∧ k ≤ 32 * (i + 1) ∧ run p.isFree k = n ∧ f = k - n ∧
        ∀ k', 32 * i + j < k' → k' < k → run p.isFree k' ≠ n
    | .inr (f, c) => Carries p (32 * (i + 1)) f c ∧
        ∀ k', 32 * i + j < k' → k' ≤ 32 * (i + 1) → run p.isFree k' ≠ n := by
  induction r generalizing j first count with
  | zero =>
      obtain rfl : j = 32 := by omega
      exact ⟨hc, fun k' _ _ => by omega⟩
  | succ r ih =>
      -- what the remaining bits say is extended by the bit just read
      have hstep : ∀ f' c', Carries p (32 * i + j + 1) f' c' → c' ≠ n →
          match mmapScanWord (p.bitmap i) i n r (j + 1) f' c' with
          | .inl f => ∃ k, 32 * i + j < k ∧ k ≤ 32 * (i + 1) ∧ run p.isFree k = n ∧
              f = k - n ∧ ∀ k', 32 * i + j < k' → k' < k → run p.isFree k' ≠ n
          | .inr (f, c) => Carries p (32 * (i + 1)) f c ∧
              ∀ k', 32 * i + j < k' → k' ≤ 32 * (i + 1) → run p.isFree k' ≠ n := by
        intro f' c' hc' hne
        have hrest := ih (j := j + 1) (by omega) hc'
        have hhere : run p.isFree (32 * i + j + 1) ≠ n := hc'.count_eq ▸ hne
        cases hres : mmapScanWord (p.bitmap i) i n r (j + 1) f' c' with
        | inl f =>
            rw [hres] at hrest
            obtain ⟨k, hlo, hhi, hrun, hf, hfirst⟩ := hrest
            refine ⟨k, by omega, hhi, hrun, hf, fun k' hk' hlt => ?_⟩
            by_cases hkj : k' = 32 * i + j + 1
            · rwa [hkj]
            · exact hfirst k' (by omega) hlt
        | inr fc =>
            rw [hres] at hrest
            refine ⟨hrest.1, fun k' hk' hle => ?_⟩
            by_cases hkj : k' = 32 * i + j + 1
            · rwa [hkj]
            · exact hrest.2 k' (by omega) hle
      rw [mmapScanWord]
      by_cases hfree : p.isFree (32 * i + j) = true
      · rw [if_pos ((bit_eq_zero_iff p (by omega)).mpr hfree)]
        have hc' := hc.free hz hfree
        rw [Nat.mul_comm i 32]
        by_cases heq : count + 1 = n
        · simp only [if_pos heq]
          refine ⟨32 * i + j + 1, by omega, by omega, by rw [← hc'.count_eq, heq], ?_,
            fun k' _ _ => by omega⟩
          have hf := hc'.first_eq.trans (if_neg (Nat.succ_ne_zero count))
          omega
        · simp only [if_neg heq]
          exact hstep _ _ hc' heq
      · rw [if_neg (fun h => hfree ((bit_eq_zero_iff p (by omega)).mp h)), if_neg (by omega)]
        exact hstep 0 0 (Carries.used (by simpa using hfree)) (by omega)

/-- A skipped full word leaves no run behind it. -/
theorem run_of_word_full (p : Pmm) (hfull : p.bitmap i = 0xFFFFFFFF#32)
    (hlo : 32 * i < k) (hhi : k ≤ 32 * (i + 1)) : run p.isFree k = 0 := by
  obtain ⟨m, rfl⟩ : ∃ m, k = 32 * i + m + 1 := ⟨k - 32 * i - 1, by omega⟩
  exact run_succ_of_used _ (isFree_of_word_full p hfull (by omega))

theorem mmapScan_spec (p : Pmm) (hz : p.isUsed 0 = true) (hn : 0 < n) (r i : Nat)
    (hc : Carries p (32 * i) first count) :
    (mmapScan p n r i first count = 0 ∧
        ∀ k, 32 * i < k → k ≤ 32 * (i + r) → run p.isFree k ≠ n) ∨
      (∃ k, 32 * i < k ∧ k ≤ 32 * (i + r) ∧ run p.isFree k = n ∧
        mmapScan p n r i first count = k - n ∧
        ∀ k', 32 * i < k' → k' < k → run p.isFree k' ≠ n) := by
  induction r generalizing i first count with
  | zero => exact .inl ⟨rfl, fun k _ _ => by omega⟩
  | succ r ih =>
      have hnext : ∀ f c, Carries p (32 * (i + 1)) f c →
          (∀ k, 32 * i < k → k ≤ 32 * (i + 1) → run p.isFree k ≠ n) →
          mmapScan p n (r + 1) i first count = mmapScan p n r (i + 1) f c →
          (mmapScan p n (r + 1) i first count = 0 ∧
            ∀ k, 32 * i < k → k ≤ 32 * (i + (r + 1)) → run p.isFree k ≠ n) ∨
          (∃ k, 32 * i < k ∧ k ≤ 32 * (i + (r + 1)) ∧ run p.isFree k = n ∧
            mmapScan p n (r + 1) i first count = k - n ∧
            ∀ k', 32 * i < k' → k' < k → run p.isFree k' ≠ n) := by
        intro f c hc' hword heq
        rw [heq]
        rcases ih (i + 1) hc' with ⟨hzero, hnone⟩ | ⟨k, hlo, hhi, hrun, hk, hfirst⟩
        · refine .inl ⟨hzero, fun k hk hle => ?_⟩
          by_cases hki : k ≤ 32 * (i + 1)
          · exact hword k hk hki
          · exact hnone k (by omega) (by omega)
        · refine .inr ⟨k, by omega, by omega, hrun, hk, fun k' hk' hlt => ?_⟩
          by_cases hki : k' ≤ 32 * (i + 1)
          · exact hword k' hk' hki
          · exact hfirst k' (by omega) hlt
      by_cases hfull : p.bitmap i = 0xFFFFFFFF#32
      · have hend : run p.isFree (32 * (i + 1)) = 0 :=
          run_of_word_full p hfull (by omega) (Nat.le_refl _)
        refine hnext 0 0 ⟨hend.symm, rfl⟩ (fun k hlo hhi => ?_) ?_
        · rw [run_of_word_full p hfull hlo hhi]; omega
        · rw [mmapScan, if_neg (not_not.mpr hfull)]
      · have hword := mmapScanWord_spec p hz hn (r := 32) (j := 0) (i := i) rfl hc
        cases hres : mmapScanWord (p.bitmap i) i n 32 0 first count with
        | inl f =>
            rw [hres] at hword
            obtain ⟨k, hlo, hhi, hrun, hf, hfirst⟩ := hword
            refine .inr ⟨k, hlo, by omega, hrun, ?_, hfirst⟩
            rw [mmapScan, if_pos hfull, hres, hf]
        | inr fc =>
            rw [hres] at hword
            exact hnext fc.1 fc.2 hword.1 hword.2
              (by rw [mmapScan, if_pos hfull, hres])

/-- **Leftmost fit**: with block 0 used, `mmap_find_free_frame` returns the
leftmost run of `n` free blocks in the scanned part, or 0 when there is none. -/
theorem mmapFindFreeFrame_spec (p : Pmm) (hz : p.isUsed 0 = true) (hn : 0 < n) :
    (mmapFindFreeFrame p n = 0 ∧ ∀ f, f + n ≤ p.scanned → ¬ Fits p.isFree n f) ∨
      (mmapFindFreeFrame p n ≠ 0 ∧
        IsLeftmost p.isFree p.scanned n (mmapFindFreeFrame p n)) := by
  have hc : Carries p (32 * 0) 0 0 := ⟨rfl, rfl⟩
  -- a run that has not reached `n` yet is shorter than `n`
  have hlt_of_ne : ∀ bound, (∀ k, 0 < k → k ≤ bound → run p.isFree k ≠ n) →
      ∀ k, k ≤ bound → run p.isFree k < n := by
    intro bound hne k hk
    by_contra hge
    obtain ⟨k', hk', hrun⟩ := exists_run_eq_of_le p.isFree hn (Nat.le_of_not_lt hge)
    have hpos : 0 < k' := by
      rcases Nat.eq_zero_or_pos k' with rfl | hpos
      · rw [run_zero] at hrun; omega
      · exact hpos
    exact hne k' hpos (by omega) hrun
  have hbound : 32 * (0 + p.maxBlocks / 32) = p.scanned := by unfold scanned; omega
  rcases mmapScan_spec p hz hn (p.maxBlocks / 32) 0 hc with
    ⟨hzero, hnone⟩ | ⟨k, hlo, hhi, hrun, hk, hfirst⟩
  · refine .inl ⟨hzero, fun f hf => ?_⟩
    exact not_fits_of_run_lt p.isFree
      (hlt_of_ne p.scanned fun k hk hle => hnone k (by omega) (by omega)) hf
  · have hfit : IsLeftmost p.isFree p.scanned n (k - n) :=
      isLeftmost_of_run_eq p.isFree (by omega) hrun fun k' hk' =>
        hlt_of_ne (k - 1) (fun m hm hle => hfirst m (by omega) (by omega)) k' (by omega)
    have heq : mmapFindFreeFrame p n = k - n := hk
    rw [heq]
    refine .inr ⟨fun hz0 => ?_, hfit⟩
    -- a run that starts at block 0 would have to contain it
    have h0 := hfit.fits 0 (by omega) (by omega)
    rw [isFree_eq_true, hz] at h0
    contradiction

/-- The single-block search is the same leftmost-fit search. -/
theorem mmapFindFree_eq_leftmost (p : Pmm) (hz : p.isUsed 0 = true) :
    mmapFindFree p = leftmost p.isFree p.scanned 1 := by
  have hone : ∀ k, Fits p.isFree 1 k → p.isFree k = true := fun k h => h k (Nat.le_refl k) (by omega)
  by_cases h0 : mmapFindFree p = 0
  · rw [h0]
    refine (leftmost_eq_zero _ fun f hf hfits => ?_).symm
    have hfree := hone f hfits
    rcases Nat.eq_zero_or_pos f with rfl | hpos
    · rw [isFree_eq_true, hz] at hfree
      cases hfree
    · rw [mmapFindFree_eq_zero p h0 hpos hf hz] at hfree
      cases hfree
  · obtain ⟨hlt, hfree, hleast⟩ := mmapFindFree_spec p h0
    have hleft : IsLeftmost p.isFree p.scanned 1 (mmapFindFree p) :=
      { within := hlt
        fits := fun j hlo hhi => by
          obtain rfl : j = mmapFindFree p := by omega
          exact hfree
        least := fun g hg hfits => by
          have hgfree := hone g hfits
          rw [hleast g hg] at hgfree
          cases hgfree }
    exact (hleft.leftmost_eq _ Nat.one_pos).symm

theorem mmapFindFreeFrame_eq_leftmost (p : Pmm) (hz : p.isUsed 0 = true) (hn : 0 < n) :
    mmapFindFreeFrame p n = leftmost p.isFree p.scanned n := by
  obtain ⟨h0, hnone⟩ | ⟨-, hleft⟩ := mmapFindFreeFrame_spec p hz hn
  · rw [h0, leftmost_eq_zero _ hnone]
  · exact (hleft.leftmost_eq _ hn).symm

/-- **The two searches** are the plain leftmost-fit search over the blocks of whole words. -/
theorem searches_are_leftmost (p : Pmm) (hz : p.isUsed 0 = true) (hn : 1 ≤ n) :
    mmapFindFreeFrame p n = leftmost p.isFree (32 * (p.maxBlocks / 32)) n ∧
      mmapFindFree p = mmapFindFreeFrame p 1 :=
  ⟨mmapFindFreeFrame_eq_leftmost p hz hn,
    (mmapFindFree_eq_leftmost p hz).trans (mmapFindFreeFrame_eq_leftmost p hz Nat.one_pos).symm⟩

/-- Three blocks that lie across the edge of a word. -/
theorem searches_are_leftmost_three :
    let p : Pmm :=
      { bitmap := fun i => if i = 0 then 0x3FFFFFFF else 0x2, usedBlocks := 32, maxBlocks := 70 }
    p.isUsed 0 = true ∧ mmapFindFreeFrame p 3 = leftmost p.isFree (32 * (p.maxBlocks / 32)) 3 ∧
      mmapFindFreeFrame p 3 = 30 ∧ mmapFindFree p = mmapFindFreeFrame p 1 := by
  intro p
  have hz : p.isUsed 0 = true := by decide
  obtain ⟨hframe, hone⟩ := searches_are_leftmost p hz (by decide : 1 ≤ 3)
  exact ⟨hz, hframe, by decide, hone⟩

/-- A request for no block at all is answered by 0: the scan compares `count`
with 0 only right after a used block. -/
theorem mmapFindFreeFrame_zero (p : Pmm) : mmapFindFreeFrame p 0 = 0 := by
  have hword : ∀ r i j first count f,
      mmapScanWord (p.bitmap i) i 0 r j first count = .inl f → f = 0 := by
    intro r
    induction r with
    | zero => intro i j first count f h; simp [mmapScanWord] at h
    | succ r ih =>
        intro i j first count f h
        rw [mmapScanWord] at h
        split at h
        · exact ih _ _ _ _ _ (by simpa using h)
        · simpa using h.symm
  have hscan : ∀ r i first count, mmapScan p 0 r i first count = 0 := by
    intro r
    induction r with
    | zero => intro i first count; rfl
    | succ r ih =>
        intro i first count
        rw [mmapScan]
        split
        · cases hres : mmapScanWord (p.bitmap i) i 0 32 0 first count with
          | inl f => exact hword _ _ _ _ _ _ hres
          | inr fc => exact ih _ _ _
        · exact ih _ _ _
  exact hscan _ _ _ _

end NimbleOS
