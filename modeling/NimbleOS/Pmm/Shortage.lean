import NimbleOS.Pmm.Counter
import NimbleOS.Pmm.Refine

/-!
# NimbleOS.Pmm.Shortage

What becomes of the wrong counter that `pmm_init` leaves on a usual machine.  No call
makes it worse: `pmm_run_short` says that over every run the manager is a first-fit
allocator on the set of free blocks whose requests are refused by a count that is off
by the same number throughout.  What it hands out is as sound as ever.

On a well-formed memory map the number is that of the protected blocks which no entry
had freed, and as many free blocks are never handed out (`pmm_keeps_back`).
-/

namespace NimbleOS

open Pmm

/-- One call of a run. -/
def Blocks.ShortStep (excess : Nat) (s : Blocks) (op : PmmOp) (s' : Blocks) : Prop :=
  ∃ a, s.callShort excess op = .ok (a, s')

/-! ## counting -/

namespace Blocks

variable {s : Blocks}

theorem freeBlocks_take (s : Blocks) (first num : Nat) :
    (s.take first num).freeBlocks = s.freeBlocks \ Finset.Ico first (first + num) := by
  ext b
  rw [Finset.mem_sdiff, mem_freeBlocks, mem_freeBlocks, Finset.mem_Ico, take, Bool.and_eq_true,
    Bool.not_eq_true', decide_eq_false_iff_not, and_assoc]

theorem freeBlocks_give {first num : Nat} (hbelow : first + num ≤ s.num) :
    (s.give first num).freeBlocks = s.freeBlocks ∪ Finset.Ico first (first + num) := by
  ext b
  have hin : b ∈ Finset.Ico first (first + num) → b < s.num := fun hb => by
    have hb := (Finset.mem_Ico.mp hb).2
    omega
  rw [Finset.mem_union, mem_freeBlocks, mem_freeBlocks, give, Bool.or_eq_true, decide_eq_true_iff,
    ← Finset.mem_Ico, and_or_left]
  exact or_congr_right ⟨And.right, fun hb => ⟨hin hb, hb⟩⟩

end Blocks

/-- Blocks that are taken are no longer free. -/
theorem Takes.usedCount_eq (h : Takes p f n p') (hmax : p.maxBlocks ≤ 2 ^ 20) :
    p'.usedCount = p.usedCount + n := by
  have hbelow := h.below_max
  have hold := card_freeBlocks p
  have hnew := card_freeBlocks p'
  have hsub : Finset.Ico f (f + n) ⊆ p.blocks.freeBlocks := by
    intro b hb
    obtain ⟨hlo, hhi⟩ := Finset.mem_Ico.mp hb
    have hlt : b < p.blocks.num := Nat.lt_of_lt_of_le hhi hbelow
    exact Blocks.mem_freeBlocks.mpr ⟨hlt, (isFree_eq_true p).mpr (h.free b hlo hhi)⟩
  have hcard := Finset.card_sdiff_add_card_eq_card hsub
  rw [← Blocks.freeBlocks_take, ← blocks_mmapSetBlocks p (by omega), ← h.result, Nat.card_Ico] at hcard
  rw [h.maxBlocks_eq] at hnew
  omega

/-- Used blocks that are given back are free. -/
theorem usedCount_mmapUnsetBlocks_add (p : Pmm) (hmax : p.maxBlocks ≤ 2 ^ 20)
    (hmem : ∀ b ∈ Finset.Ico f (f + n), b < p.maxBlocks ∧ p.isUsed b = true) :
    (mmapUnsetBlocks p f n).usedCount + n = p.usedCount := by
  rcases Nat.eq_zero_or_pos n with rfl | hpos
  · rfl
  have hlast := (hmem (f + n - 1) (Finset.mem_Ico.mpr ⟨by omega, by omega⟩)).1
  have hold := card_freeBlocks p
  have hnew := card_freeBlocks (mmapUnsetBlocks p f n)
  have hdisj : Disjoint p.blocks.freeBlocks (Finset.Ico f (f + n)) := by
    rw [Finset.disjoint_left]
    intro b hb hin
    have hfree := (isFree_eq_true p).mp (Blocks.mem_freeBlocks.mp hb).2
    rw [(hmem b hin).2] at hfree
    cases hfree
  have hbelow : f + n ≤ p.blocks.num := by
    change f + n ≤ p.maxBlocks
    omega
  rw [blocks_mmapUnsetBlocks p (by omega), Blocks.freeBlocks_give hbelow,
    Finset.card_union_of_disjoint hdisj, Nat.card_Ico, maxBlocks_mmapUnsetBlocks] at hnew
  omega

/-! ## runs -/

/-- A counter that is off by `e`. -/
structure Short (e : Nat) (p : Pmm) : Prop where
  lt : p.usedBlocks < 2 ^ 32
  excess : p.excess = e

theorem Short.takes (hs : Short e p) (hmax : p.maxBlocks ≤ 2 ^ 20) (h : Takes p f n p') :
    Short e p' := by
  have hlt := hs.lt
  have hexcess := hs.excess
  have hused := usedBlocks_mmapSetBlocks p hlt f n
  have hcount := h.usedCount_eq hmax
  have hle := usedCount_le p'
  rw [h.maxBlocks_eq] at hle
  rw [← h.result] at hused
  unfold Pmm.excess u32Sub at hexcess
  refine ⟨by omega, ?_⟩
  unfold Pmm.excess u32Sub
  omega

theorem Short.gives (hs : Short e p) (hmax : p.maxBlocks ≤ 2 ^ 20)
    (hmem : ∀ b ∈ Finset.Ico f (f + n), b < p.maxBlocks ∧ p.isUsed b = true) :
    Short e (mmapUnsetBlocks p f n) := by
  have hexcess := hs.excess
  obtain ⟨hlt, hused⟩ := usedBlocks_mmapUnsetBlocks p hs.lt f n
  have hcount := usedCount_mmapUnsetBlocks_add p hmax hmem
  have hle := usedCount_le p
  refine ⟨hlt, ?_⟩
  unfold Pmm.excess u32Sub at hexcess ⊢
  omega

/-- **Step lemma**: the counter stays off by the same number. -/
theorem PmmStep.short (h : PmmStep x op x') (hs : x.1.Sane ∧ x.2.Fits x.1) (hshort : Short e x.1) :
    Short e x'.1 := by
  obtain @⟨p, p', live, a, op, hlegal, hcall⟩ := h
  obtain ⟨hsane, hfits⟩ : p.Sane ∧ live.Fits p := hs
  have hmax := hsane.max_le
  rcases PmmOp.call_cases hsane (fun b hb => (hfits.legal hlegal hb).2.1) hcall with
    ⟨f, -, -, htakes⟩ | ⟨-, rfl, -⟩ | ⟨f, n, -, hfreed, rfl⟩
  · exact hshort.takes hmax htakes
  · exact hshort
  · refine hshort.gives hmax fun b hb => ?_
    rw [← hfreed] at hb
    exact (hfits.legal hlegal hb).2

/-- What holds of the manager and the ledger after any calls since `p₀`. -/
structure RunsShort (p₀ : Pmm) (x : Pmm × Ledger) : Prop where
  sane : x.1.Sane
  fits : x.2.Fits x.1
  short : Short p₀.excess x.1
  held : Held p₀ x

theorem RunsShort.step (h : RunsShort p₀ x) (hstep : PmmStep x op x') :
    RunsShort p₀ x' ∧ Blocks.ShortStep p₀.excess x.1.blocks op x'.1.blocks := by
  have hs : x.1.Sane ∧ x.2.Fits x.1 := ⟨h.sane, h.fits⟩
  obtain ⟨hsane, hfits⟩ := hstep.fits hs
  refine ⟨⟨hsane, hfits, hstep.short hs h.short, hstep.held hs h.held⟩, ?_⟩
  obtain @⟨p, p', live, a, op, hlegal, hcall⟩ := hstep
  have hshort := call_short h.sane h.short.lt op fun b hb => (h.fits.legal hlegal hb).2.1
  rw [hcall, h.short.excess] at hshort
  exact ⟨a, hshort.symm⟩

/-- **Run lemma.** -/
theorem RunsShort.run (h : RunsShort p₀ x) (hrun : Run PmmStep x ops x') :
    RunsShort p₀ x' ∧ Run (Blocks.ShortStep p₀.excess) x.1.blocks ops x'.1.blocks := by
  have hsimulates : ∃ s, Run (Blocks.ShortStep p₀.excess) x.1.blocks ops s ∧
      RunsShort p₀ x' ∧ s = x'.1.blocks := by
    refine hrun.simulate (fun x s => RunsShort p₀ x ∧ s = x.1.blocks) (fun x s op x' hx hstep => ?_)
      ⟨h, rfl⟩
    obtain ⟨hx, rfl⟩ := hx
    obtain ⟨hx', hs⟩ := hx.step hstep
    exact ⟨_, hs, hx', rfl⟩
  obtain ⟨s, hblocks, hx', rfl⟩ := hsimulates
  exact ⟨hx', hblocks⟩

theorem runsShort_boot (h : pmmInit image memory mbi fuel = .ok p₀) :
    RunsShort p₀ (p₀, []) := by
  obtain ⟨es, -, rfl⟩ := lists_of_pmmInit h
  exact ⟨sane_pmmInitResult .., ⟨.nil, by simp⟩, ⟨usedBlocks_pmmInitResult_lt .., rfl⟩, held_start _⟩

/-- **The manager since boot**, whatever the counter is: the set of free blocks changes as
first-fit allocation says, every next call answers as the set does whose requests are refused by
a count that is off as it was when `pmm_init` returned, what is live is disjoint, and nothing
else is used than what was used then. -/
theorem pmm_run_short (hinit : pmmInit image memory mbi fuel = .ok p₀)
    (hrun : Run PmmStep (p₀, []) ops (p, live)) :
    Run (Blocks.ShortStep p₀.excess) p₀.blocks ops p.blocks ∧
      (∀ op : PmmOp, (∀ b ∈ op.freed, ∃ s ∈ live, b ∈ s) →
        (op.call p).map (fun r => (r.1, r.2.blocks)) = p.blocks.callShort p₀.excess op) ∧
      live.Pairwise Disjoint ∧ ∀ b, p.isUsed b = true ↔ p₀.isUsed b = true ∨ ∃ s ∈ live, b ∈ s := by
  obtain ⟨h, hblocks⟩ := (runsShort_boot hinit).run hrun
  refine ⟨hblocks, fun op hlegal => ?_, h.fits.disjoint, h.held.used⟩
  rw [← h.short.excess]
  exact call_short h.sane h.short.lt op fun b hb => (h.fits.legal hlegal hb).2.1

/-! ## the blocks that are kept back -/

namespace Blocks

variable {s s' : Blocks}

/-- What is granted leaves the rest free. -/
theorem card_of_grant {first num : Nat} (h : s.grant first num = (a, s')) :
    s'.num = s.num ∧ s.freeBlocks.card ≤ s'.freeBlocks.card + num := by
  unfold grant at h
  split at h
  · cases h
    exact ⟨rfl, Nat.le_add_right _ _⟩
  · cases h
    refine ⟨rfl, ?_⟩
    have hle := Finset.le_card_sdiff (Finset.Ico first (first + num)) s.freeBlocks
    rw [Nat.card_Ico] at hle
    rw [freeBlocks_take]
    omega

/-- What is given back makes none of the others less free. -/
theorem card_give (s : Blocks) (first num : Nat) :
    s.freeBlocks.card ≤ (s.give first num).freeBlocks.card := by
  refine Finset.card_le_card fun b hb => ?_
  obtain ⟨hlt, hfree⟩ := mem_freeBlocks.mp hb
  refine mem_freeBlocks.mpr ⟨hlt, ?_⟩
  show (s.free b || _) = true
  rw [hfree, Bool.true_or]

/-- **Step lemma**: where `e` blocks are free, a count that is `e` too low keeps `e` blocks free. -/
theorem ShortStep.keeps (h : ShortStep e s op s') (hnum : s.num ≤ 2 ^ 20)
    (he : e ≤ s.freeBlocks.card) : s'.num = s.num ∧ e ≤ s'.freeBlocks.card := by
  obtain ⟨a, h⟩ := h
  have hcard := card_freeBlocks_le s
  have hcredit : s.credit e = s.freeBlocks.card - e := by
    unfold credit u32Sub
    omega
  cases op with
  | allocPage =>
      rw [callShort, hcredit] at h
      split at h
      · cases h
      · obtain ⟨hsame, hgrant⟩ := card_of_grant (Except.ok.inj h)
        exact ⟨hsame, by omega⟩
  | allocPages num =>
      rw [callShort, hcredit] at h
      split at h
      · cases h
        exact ⟨rfl, he⟩
      · obtain ⟨hsame, hgrant⟩ := card_of_grant (Except.ok.inj h)
        exact ⟨hsame, by omega⟩
  | allocAlignedLargePage =>
      rw [callShort, hcredit] at h
      split at h
      · cases h
        exact ⟨rfl, he⟩
      · obtain ⟨hsame, hgrant⟩ := card_of_grant (Except.ok.inj h)
        exact ⟨hsame, by omega⟩
  | freePage addr =>
      cases h
      exact ⟨rfl, Nat.le_trans he (card_give s _ _)⟩
  | freePages addr num =>
      cases h
      exact ⟨rfl, Nat.le_trans he (card_give s _ _)⟩

end Blocks

/-- The protected blocks that no entry had freed, and the blocks that are free only because
`memset` did not reach their bits. -/
def uncounted (image : KernelImage) (memory : Nat → BitVec 32) (mbi : MultibootInfo)
    (es : List MmapEntry) : Nat :=
  ((Finset.range (edgeBlock image mbi)).filter fun b => ¬ Freed es b).card +
    ((Finset.range mbi.maxBlocks).filter fun b =>
      edgeBlock image mbi ≤ b ∧ ¬ Freed es b ∧ Unset memory mbi b).card

/-- On a well-formed map the counter is too high by as many. -/
theorem excess_pmmInitResult (memory : Nat → BitVec 32) (hwf : WellFormedMap mbi es)
    (hprot : image.endPhys + mbi.maxBlocks / 8 ≤ mbi.maxBlocks * pageSize) :
    (pmmInitResult image memory mbi es).excess = uncounted image memory mbi es := by
  have hedge : edgeBlock image mbi ≤ mbi.maxBlocks := by
    unfold edgeBlock pageSize at *
    omega
  have hmax := maxBlocks_lt mbi
  have hcounter := usedBlocks_pmmInitResult image memory mbi es
  have hlt := usedBlocks_pmmInitResult_lt image memory mbi es
  have htotal := freedTotal_eq_card hwf
  have hsplit := card_freed_split mbi es _ hedge
  have hfree := card_free memory mbi es image
  have hlow := Finset.card_filter_add_card_filter_not (s := Finset.range (edgeBlock image mbi)) (Freed es)
  rw [Finset.card_range] at hlow
  unfold excess uncounted u32Sub
  omega

/-- The kernel is out of memory when as many blocks are free as the counter has too many. -/
theorem Short.outOfMemory_iff (hs : Short e p) (hmax : p.maxBlocks ≤ 2 ^ 20) :
    pmmAllocPage p = .error .outOfMemory ↔ p.blocks.freeBlocks.card = e := by
  have hle := Blocks.card_freeBlocks_le p.blocks
  rw [num_blocks] at hle
  have he : e < 2 ^ 32 := by
    rw [← hs.excess]
    exact Nat.mod_lt _ (by decide)
  have hfull : p.blocks.credit e ≤ 0 ↔ p.blocks.freeBlocks.card = e := by
    unfold Blocks.credit u32Sub
    omega
  rw [pmmAllocPage, guard_eq hmax hs.lt, hs.excess, ← hfull]
  split
  · rename_i hguard
    exact iff_of_true rfl hguard
  · rename_i hguard
    refine iff_of_false (fun h => ?_) hguard
    dsimp only at h
    split at h <;> cases h

/-- **What is kept back.**  On a well-formed map whose protected range ends below `max_blocks`
blocks, after any calls since `pmm_init`: `pmm_alloc_page` is out of memory exactly when
`uncounted` blocks are free, and where that many were free at first, they stay so. -/
theorem pmm_keeps_back (hmap : mbi.Lists image memory es) (hwf : WellFormedMap mbi es)
    (hprot : image.endPhys + mbi.maxBlocks / 8 ≤ mbi.maxBlocks * pageSize)
    (hinit : pmmInit image memory mbi fuel = .ok p₀)
    (hrun : Run PmmStep (p₀, []) ops (p, live)) :
    (pmmAllocPage p = .error .outOfMemory ↔
      p.blocks.freeBlocks.card = uncounted image memory mbi es) ∧
    (uncounted image memory mbi es ≤ p₀.blocks.freeBlocks.card →
      uncounted image memory mbi es ≤ p.blocks.freeBlocks.card) := by
  have hboot := runsShort_boot hinit
  obtain ⟨h, hblocks⟩ := hboot.run hrun
  have hexcess : p₀.excess = uncounted image memory mbi es := by
    obtain ⟨es', hmap', rfl⟩ := lists_of_pmmInit hinit
    obtain rfl := hmap.unique hmap'
    exact excess_pmmInitResult memory hwf hprot
  rw [← hexcess]
  refine ⟨h.short.outOfMemory_iff h.sane.max_le, fun he => ?_⟩
  have hkeeps := hblocks.invariant (fun s => s.num ≤ 2 ^ 20 ∧ p₀.excess ≤ s.freeBlocks.card)
    (fun s op s' hs hstep => by
      obtain ⟨hsame, hle⟩ := hstep.keeps hs.1 hs.2
      exact ⟨hsame ▸ hs.1, hle⟩)
    ⟨hboot.sane.max_le, he⟩
  exact hkeeps.2

/-! ## a hole below 1 MiB -/

/-- The blocks of the hole are counted twice. -/
theorem uncounted_holeEntries : uncounted smallImage holeMap fourMiBHole holeEntries = 97 := by
  decide +kernel

theorem card_free_holeEntries :
    (pmmInitResult smallImage holeMap fourMiBHole holeEntries).blocks.freeBlocks.card = 752 := by
  have hfree := card_free holeMap fourMiBHole holeEntries smallImage
  have hcount := card_freeBlocks (pmmInitResult smallImage holeMap fourMiBHole holeEntries)
  have hparts : ((Finset.range fourMiBHole.maxBlocks).filter fun b =>
        edgeBlock smallImage fourMiBHole ≤ b ∧ Freed holeEntries b).card +
      ((Finset.range fourMiBHole.maxBlocks).filter fun b => edgeBlock smallImage fourMiBHole ≤ b ∧
        ¬ Freed holeEntries b ∧ Unset holeMap fourMiBHole b).card = 752 := by
    decide +kernel
  rw [maxBlocks_pmmInitResult] at hcount
  omega

theorem pmmAllocPage_returns (h : pmmAllocPage p ≠ .error .outOfMemory) :
    ∃ a p', pmmAllocPage p = .ok (a, p') := by
  unfold pmmAllocPage at h ⊢
  split
  · rename_i hguard
    exact absurd (if_pos hguard) h
  · dsimp only
    split
    · exact ⟨_, _, rfl⟩
    · exact ⟨_, _, rfl⟩

/-- A page is allocated. -/
theorem hole_run : ∃ p₀ p live, pmmInit smallImage holeMap fourMiBHole 3 = .ok p₀ ∧
    p₀.blocks.freeBlocks.card = 752 ∧ Run PmmStep (p₀, []) [.allocPage] (p, live) := by
  have hinit : pmmInit smallImage holeMap fourMiBHole 3 = .ok _ :=
    pmmInit_of_lists holeEntries_listed (by decide)
  have hboot := runsShort_boot hinit
  have hreturns : pmmAllocPage (pmmInitResult smallImage holeMap fourMiBHole holeEntries) ≠
      .error .outOfMemory := by
    rw [Ne, hboot.short.outOfMemory_iff hboot.sane.max_le,
      excess_pmmInitResult _ holeEntries_wellFormed (by decide), uncounted_holeEntries,
      card_free_holeEntries]
    decide
  obtain ⟨a, p, hcall⟩ := pmmAllocPage_returns hreturns
  exact ⟨_, p, _, hinit, card_free_holeEntries,
    .single (.call .allocPage (fun b hb => absurd hb (Finset.notMem_empty b)) hcall)⟩

theorem pmm_run_short_hole :
    ∃ (p₀ p : Pmm) (live : Ledger), pmmInit smallImage holeMap fourMiBHole 3 = .ok p₀ ∧
      Run (Blocks.ShortStep p₀.excess) p₀.blocks [.allocPage] p.blocks ∧
      (∀ op : PmmOp, (∀ b ∈ op.freed, ∃ s ∈ live, b ∈ s) →
        (op.call p).map (fun r => (r.1, r.2.blocks)) = p.blocks.callShort p₀.excess op) ∧
      live.Pairwise Disjoint ∧ ∀ b, p.isUsed b = true ↔ p₀.isUsed b = true ∨ ∃ s ∈ live, b ∈ s := by
  obtain ⟨p₀, p, live, hinit, -, hrun⟩ := hole_run
  exact ⟨p₀, p, live, hinit, pmm_run_short hinit hrun⟩

/-- Of the 752 free blocks 97 are never handed out. -/
theorem pmm_keeps_back_hole :
    ∃ p₀ p live, pmmInit smallImage holeMap fourMiBHole 3 = .ok p₀ ∧
      Run PmmStep (p₀, []) [.allocPage] (p, live) ∧
      (pmmAllocPage p = .error .outOfMemory ↔ p.blocks.freeBlocks.card = 97) ∧
      97 ≤ p.blocks.freeBlocks.card := by
  obtain ⟨p₀, p, live, hinit, hfree, hrun⟩ := hole_run
  obtain ⟨hout, hkeeps⟩ := pmm_keeps_back holeEntries_listed holeEntries_wellFormed (by decide) hinit hrun
  rw [uncounted_holeEntries] at hout hkeeps
  exact ⟨p₀, p, live, hinit, hrun, hout, hkeeps (by omega)⟩

end NimbleOS
