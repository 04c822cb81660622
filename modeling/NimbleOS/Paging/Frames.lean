import NimbleOS.Paging.Refine
import NimbleOS.Pmm.Alloc

/-!
# NimbleOS.Paging.Frames

The physical memory manager is a frame allocator in the sense of the paging
theorems: its frames are fresh.  They are also never 0 as long as the two searches
look at all blocks, that is if the number of blocks is a multiple of 32.
-/

namespace NimbleOS

open Pmm

instance : FrameAllocator Pmm := ⟨pmmAllocPage⟩

/-- The frame at address `f` is marked used. -/
def Pmm.Taken (p : Pmm) (f : Nat) : Prop := p.isUsed (f / pageSize) = true

/-- The invariant under which `pmm_alloc_page` never answers 0. -/
structure Pmm.Whole (p : Pmm) : Prop extends p.Inv where
  whole : 32 ∣ p.maxBlocks

theorem u32Sub_of_le (h : b ≤ a) (ha : a < 2 ^ 32) : u32Sub a b = a - b := by
  unfold u32Sub
  omega

/-- While the counter says that a block is free, the search finds one. -/
theorem Pmm.Whole.find_ne_zero {p : Pmm} (hp : p.Whole)
    (hguard : 0 < u32Sub p.maxBlocks p.usedBlocks) : mmapFindFree p ≠ 0 := by
  have hmax := hp.max_le
  have hle : p.usedBlocks ≤ p.maxBlocks := hp.used_eq ▸ usedCount_le p
  rw [u32Sub_of_le hle (by omega), hp.used_eq] at hguard
  obtain ⟨b, hb, hclear⟩ := Bitset.exists_clear_of_card_lt (a := p.bitmap) (n := p.maxBlocks)
    (by unfold usedCount at hguard; omega)
  intro hnone
  have hpos : 0 < b := by
    refine Nat.pos_of_ne_zero ?_
    rintro rfl
    rw [show Bitset.test p.bitmap 0 = p.isUsed 0 from rfl, hp.zero_used] at hclear
    contradiction
  have hscan : b < p.scanned := by
    have := hp.whole
    unfold scanned
    omega
  have hfree := mmapFindFree_eq_zero p hnone hpos hscan hp.zero_used
  rw [isFree, show p.isUsed b = Bitset.test p.bitmap b from rfl, hclear] at hfree
  contradiction

theorem pmm_freshFrames : FreshFrames Pmm.Sane Pmm.Taken where
  valid_of := by
    intro p a p' hp h
    rcases pmmAllocPage_cases hp.max_le h with ⟨-, rfl⟩ | ⟨b, -, htakes, -⟩
    · exact hp
    · exact hp.takes htakes
  aligned := by
    intro p a p' hp h
    rcases pmmAllocPage_cases hp.max_le h with ⟨rfl, -⟩ | ⟨b, rfl, htakes, -⟩
    · decide
    · have := htakes.below_max
      have := hp.max_le
      unfold pageSize
      omega
  fresh := by
    intro p a p' hp h hne
    rcases pmmAllocPage_cases hp.max_le h with ⟨rfl, -⟩ | ⟨b, rfl, htakes, -⟩
    · contradiction
    · have hfree := htakes.free b (Nat.le_refl b) (Nat.lt_succ_self b)
      rw [Taken, Nat.mul_div_cancel b (by decide), hfree]
      exact Bool.noConfusion
  takes := by
    intro p a p' hp h hne
    rcases pmmAllocPage_cases hp.max_le h with ⟨rfl, -⟩ | ⟨b, rfl, htakes, -⟩
    · contradiction
    · rw [Taken, Nat.mul_div_cancel b (by decide)]
      exact htakes.isUsed_of_mem hp.max_le (Nat.le_refl b) (Nat.lt_succ_self b)
  keeps := by
    intro p a p' f hp h hf
    rcases pmmAllocPage_cases hp.max_le h with ⟨-, rfl⟩ | ⟨b, -, htakes, -⟩
    · exact hf
    · exact htakes.isUsed_of_isUsed hp.max_le hf

/-- While the searches see every block, the answer is never 0. -/
theorem Pmm.Whole.ne_zero {p p' : Pmm} (hp : p.Whole) (h : pmmAllocPage p = .ok (a, p')) :
    a ≠ 0 := by
  unfold pmmAllocPage at h
  split at h
  · contradiction
  · next hguard =>
    have hfind := hp.find_ne_zero (by omega)
    have hlt : mmapFindFree p < 2 ^ 20 := by
      have := (mmapFindFree_spec p hfind).1
      have := scanned_le p
      have := hp.max_le
      omega
    simp only [if_neg hfind, u32_block hlt, Except.ok.injEq, Prod.mk.injEq] at h
    have := h.1
    unfold pageSize at this
    omega

theorem Pmm.Whole.alloc {p p' : Pmm} (hp : p.Whole) (h : pmmAllocPage p = .ok (a, p')) :
    p'.Whole := by
  rcases pmmAllocPage_cases hp.max_le h with ⟨-, rfl⟩ | ⟨b, -, htakes, -⟩
  · exact hp
  · exact ⟨hp.toInv.takes htakes, htakes.maxBlocks_eq ▸ hp.whole⟩

theorem pmm_wholeFrames : FreshFrames Pmm.Whole Pmm.Taken where
  valid_of := Pmm.Whole.alloc
  aligned := fun hp => pmm_freshFrames.aligned hp.toSane
  fresh := fun hp => pmm_freshFrames.fresh hp.toSane
  takes := fun hp => pmm_freshFrames.takes hp.toSane
  keeps := fun hp => pmm_freshFrames.keeps hp.toSane

/-! ## an empty directory in block 1 -/

/-- Blocks 0 and 1 of 64 are used. -/
def twoUsed : Pmm where
  bitmap := fun i => if i = 0 then 3#32 else 0#32
  usedBlocks := 2
  maxBlocks := 64

theorem twoUsed_whole : twoUsed.Whole := ⟨⟨⟨by decide, by decide⟩, by decide⟩, by decide⟩

/-- The directory at `0x1000` holds the reference to itself only. -/
def emptyDir : Vm Pmm where
  mem := ByteMem.setWord (fun _ => 0) (0x1000 + 4 * 1023) 0x1003
  cr3 := 0x1000
  pmm := twoUsed
  log := []

theorem emptyDir_pde (hd : d < pageEntries) :
    emptyDir.pde d = if d = 1023 then 0x1003 else 0 := by
  have h := entry_setWord (fun _ => 0) (v := 0x1003) (by decide : 0x1000 % pageSize = 0)
    (by decide : 0x1000 % pageSize = 0) (by decide : 1023 < pageEntries) hd (by decide)
  simp only [true_and] at h
  exact h

theorem emptyDir_absent (hd : d < 1023) : isPresent (emptyDir.pde d) = false := by
  rw [emptyDir_pde (slot_lt hd), if_neg (by omega)]
  rfl

theorem emptyDir_wf : DirWF Pmm.Taken emptyDir := by
  have hself : entry emptyDir.mem emptyDir.cr3 1023 = 0x1003 := emptyDir_pde (d := 1023) (by decide)
  have habs : ∀ d < 1023, ¬ isPresent (emptyDir.pde d) = true := fun d hd => by
    rw [emptyDir_absent hd]
    exact Bool.false_ne_true
  constructor
  · exact ⟨by decide, by rw [hself]; decide, by rw [hself]; decide, by rw [hself]; decide⟩
  · exact fun d hd hp => absurd hp (habs d hd)
  · exact fun d hd _ _ hp => absurd hp (habs d hd)
  · unfold Taken; decide
  · exact fun d hd hp => absurd hp (habs d hd)

theorem emptyDir_small : ∀ d < 1023, emptyDir.SmallSlot d := fun d hd hp => by
  rw [emptyDir_absent hd] at hp
  exact absurd hp Bool.false_ne_true

/-- Two pages across a 4 MiB boundary; the second is unmapped and mapped again. -/
def boundaryOps : List PagingOp :=
  [.mapPages 0x3FF000 0x20000 2 6, .unmapPage 0x400000, .mapPage 0x400000 0x5000 2]

theorem boundaryOps_legal : ∀ op ∈ boundaryOps, op.Legal := by
  intro op hop
  simp only [boundaryOps, List.mem_cons, List.not_mem_nil, or_false] at hop
  rcases hop with rfl | rfl | rfl <;> unfold PagingOp.Legal <;> decide

theorem paging_refines_boundary :
    (∃ s' new, boundaryOps.foldlM PagingOp.call emptyDir = .ok s' ∧
        boundaryOps.foldlM PagingOp.abstract emptyDir.view = some s'.view ∧
        DirWF Pmm.Taken s' ∧ (∀ d < 1023, s'.SmallSlot d) ∧ s'.cr3 = emptyDir.cr3 ∧
        NewTables (fun p fl => ∃ op ∈ boundaryOps, op.Maps p fl) emptyDir s' new ∧
        OnlyTables emptyDir s') ∨
      (boundaryOps.foldlM PagingOp.call emptyDir = .error .alreadyMapped ∧
        boundaryOps.foldlM PagingOp.abstract emptyDir.view = none) ∨
      ∃ as p e, Run AllocStep emptyDir.pmm as p ∧ FrameAllocator.allocPage p = .error e ∧
        boundaryOps.foldlM PagingOp.call emptyDir = .error e :=
  paging_refines pmm_wholeFrames (fun _ _ _ => Pmm.Whole.ne_zero) emptyDir_wf emptyDir_small
    twoUsed_whole boundaryOps boundaryOps_legal

end NimbleOS
