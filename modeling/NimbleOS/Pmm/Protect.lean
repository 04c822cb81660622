import NimbleOS.Pmm.Init
import NimbleOS.Pmm.Ledger

/-!
# NimbleOS.Pmm.Protect

Is the memory below the end of the bitmap safe from the allocator?  `pmm_init`
means to protect the bytes `[0, KERNEL_END_PHYS + max_blocks / 8)`, but counts
whole blocks only, so the *edge block*, which the end of the range cuts, stays
as the walk left it.

`pmm_init_protects_iff` is exact: later calls keep out of the range if and only
if `EdgeSafe` holds of the boot information.
-/

namespace NimbleOS

open Pmm

/-- First byte after the range that `pmm_init` means to protect. -/
def protectedEnd (image : KernelImage) (mbi : MultibootInfo) : Nat :=
  image.endPhys + mbi.maxBlocks / 8

/-- Through every run of a well-behaved client from `p` on, each call that hands
out blocks hands out blocks at or above the byte address `limit`. -/
def AllocatesAbove (p : Pmm) (limit : Nat) : Prop :=
  ∀ ops q live, Run PmmStep (p, []) ops (q, live) →
    ∀ (op : PmmOp) (a : Nat) (q' : Pmm), (∀ b ∈ op.freed, ∃ s ∈ live, b ∈ s) →
      op.call q = .ok (a, q') → a ≠ 0 → ∀ b ∈ blocksFrom a op.blocks, limit ≤ b * pageSize

/-- When the edge block is harmless: the range ends on a block boundary, or the
searches never reach the edge block, or no entry frees it, or the walk freed
exactly as many blocks (counting repetitions, modulo `2 ^ 32`) as the protected
range took, so that the counter says that nothing is free. -/
def EdgeSafe (image : KernelImage) (mbi : MultibootInfo) (es : List MmapEntry) : Prop :=
  protectedEnd image mbi % pageSize = 0 ∨
    32 * (mbi.maxBlocks / 32) ≤ edgeBlock image mbi ∨
    (∀ e ∈ es, ¬ e.Frees (edgeBlock image mbi)) ∨
    freedTotal es % 2 ^ 32 = edgeBlock image mbi

instance : Decidable (EdgeSafe image mbi es) := by unfold EdgeSafe; infer_instance

/-! ## keeping out of the range -/

/-- What protects the blocks below `limit`: those that a search can reach are
used, and none of them is in the ledger. -/
structure Guarded (limit : Nat) (s : Pmm × Ledger) : Prop where
  sane : s.1.Sane
  fits : s.2.Fits s.1
  used : ∀ b, b * pageSize < limit → b < s.1.scanned → s.1.isUsed b = true
  ledger : ∀ t ∈ s.2, ∀ b ∈ t, limit ≤ b * pageSize

/-- Blocks that are taken lie above the range. -/
theorem Guarded.above_of_takes (hg : Guarded limit s) (h : Takes s.1 f n p') (hlo : f ≤ b)
    (hhi : b < f + n) : limit ≤ b * pageSize := by
  by_contra hlt
  have hused := hg.used b (Nat.lt_of_not_le hlt) (by have := h.below; omega)
  rw [h.free b hlo hhi] at hused
  exact Bool.noConfusion hused

theorem scanned_eq {p p' : Pmm} (h : p'.maxBlocks = p.maxBlocks) : p'.scanned = p.scanned := by
  rw [scanned, h, scanned]

theorem Guarded.step (h : PmmStep s op s') (hg : Guarded limit s) : Guarded limit s' := by
  obtain ⟨hsane', hfits'⟩ := h.fits ⟨hg.sane, hg.fits⟩
  obtain @⟨p, p', live, a, op, hlegal, hcall⟩ := h
  have hmax := hg.sane.max_le
  have hfreed : ∀ b ∈ op.freed, b < p.maxBlocks := fun b hb => (hg.fits.legal hlegal hb).2.1
  rcases PmmOp.call_cases hg.sane hfreed hcall with
    ⟨f, rfl, -, htakes⟩ | ⟨rfl, rfl, hnone⟩ | ⟨f, n, rfl, hrange, rfl⟩
  · have hne : f * pageSize ≠ 0 := by have := htakes.pos; unfold pageSize; omega
    refine ⟨hsane', hfits', fun b hb hlt => ?_, fun t ht b hb => ?_⟩
    · exact htakes.isUsed_of_isUsed hmax
        (hg.used b hb (by rwa [scanned_eq htakes.maxBlocks_eq] at hlt))
    · simp only [Ledger.after, if_neg hne, List.mem_cons] at ht
      cases ht with
      | inl heq =>
          rw [heq, mem_blocksFrom_block] at hb
          exact hg.above_of_takes htakes hb.1 hb.2
      | inr hmem => exact hg.ledger t hmem b hb
  · refine ⟨hsane', hfits', hg.used, fun t ht b hb => ?_⟩
    simp only [Ledger.after, if_pos, hnone, Finset.sdiff_empty, List.map_id'] at ht
    exact hg.ledger t ht b hb
  · have hlegal' := hlegal
    rw [hrange] at hlegal'
    refine ⟨hsane', hfits', fun b hb hlt => ?_, fun t ht b hb => ?_⟩
    · have hold := hg.used b hb (by rwa [scanned_eq (maxBlocks_mmapUnsetBlocks p f n)] at hlt)
      rcases hg.fits.range hmax hlegal' with rfl | ⟨-, hle⟩
      · exact hold
      · rw [isUsed_mmapUnsetBlocks p (by omega), hold, Bool.and_true, Bool.not_eq_true',
          decide_eq_false_iff_not]
        -- a protected block is not in the ledger, so the client may not free it
        rintro hmem
        obtain ⟨t, ht, hbt⟩ := hlegal' b (Finset.mem_Ico.mpr hmem)
        exact Nat.lt_irrefl _ (Nat.lt_of_lt_of_le hb (hg.ledger t ht b hbt))
    · simp only [Ledger.after, if_pos, List.mem_map] at ht
      obtain ⟨u, hu, rfl⟩ := ht
      exact hg.ledger u hu b (Finset.mem_sdiff.mp hb).1

/-- A guarded state allocates above the limit for ever. -/
theorem Guarded.allocatesAbove (hg : Guarded limit (p, [])) : AllocatesAbove p limit := by
  intro ops q live hrun op a q' hlegal hcall hne b hb
  have hq : Guarded limit (q, live) :=
    hrun.invariant (Guarded limit) (fun _ _ _ h hstep => h.step hstep) hg
  rcases PmmOp.call_cases hq.sane (fun b hb => (hq.fits.legal hlegal hb).2.1) hcall with
    ⟨f, rfl, -, htakes⟩ | ⟨rfl, -, -⟩ | ⟨f, n, rfl, -, -⟩
  · rw [mem_blocksFrom_block] at hb
    exact hq.above_of_takes htakes hb.1 hb.2
  · exact absurd rfl hne
  · exact absurd rfl hne

/-! ## a counter that says "nothing free" -/

/-- No call hands out blocks while the counter equals `max_blocks`. -/
theorem PmmOp.call_of_full {op : PmmOp} (hs : p.Sane) (hfull : p.usedBlocks = p.maxBlocks)
    (hcall : op.call p = .ok (a, p')) : a = 0 := by
  have hmax := hs.max_le
  have hguard : u32Sub p.maxBlocks p.usedBlocks = 0 := by rw [hfull, u32Sub]; omega
  cases op with
  | allocPage => simp [call, pmmAllocPage, hguard] at hcall
  | allocPages num =>
      have hret : pmmAllocPages p num = (a, p') := Except.ok.inj hcall
      rcases Nat.eq_zero_or_pos num with rfl | hpos
      · rw [pmmAllocPages, hguard, mmapFindFreeFrame_zero] at hret
        simpa using (congrArg Prod.fst hret).symm
      · rw [pmmAllocPages, hguard, if_pos hpos] at hret
        exact (congrArg Prod.fst hret).symm
  | allocAlignedLargePage =>
      have hret : pmmAllocAlignedLargePage p = (a, p') := Except.ok.inj hcall
      rw [pmmAllocAlignedLargePage, hguard, if_pos (by decide)] at hret
      exact (congrArg Prod.fst hret).symm
  | freePage addr => exact (congrArg Prod.fst (Except.ok.inj hcall)).symm
  | freePages addr num => exact (congrArg Prod.fst (Except.ok.inj hcall)).symm

/-- Such a state is stuck: with an empty ledger there is nothing to free. -/
theorem stuck_of_full (hs : p.Sane) (hfull : p.usedBlocks = p.maxBlocks)
    (hrun : Run PmmStep (p, []) ops s) : s.1 = p ∧ s.2 = [] := by
  refine hrun.invariant (fun s => s.1 = p ∧ s.2 = []) ?_ ⟨rfl, rfl⟩
  rintro ⟨q, live⟩ op s' ⟨hq, hlive⟩ hstep
  obtain rfl : q = p := hq
  obtain rfl : live = [] := hlive
  obtain @⟨_, q', _, a, op, hlegal, hcall⟩ := hstep
  obtain rfl := PmmOp.call_of_full hs hfull hcall
  refine ⟨?_, by rw [Ledger.after, if_pos rfl]; rfl⟩
  have hnone : ∀ b, b ∉ op.freed := fun b hb => by
    obtain ⟨s, hmem, -⟩ := hlegal b hb
    exact absurd hmem (List.not_mem_nil)
  rcases PmmOp.call_cases hs (fun b hb => absurd hb (hnone b)) hcall with
    ⟨f, h0, -, htakes⟩ | ⟨-, hq, -⟩ | ⟨f, n, -, hrange, hq⟩
  · have := htakes.pos
    unfold pageSize at h0
    omega
  · exact hq
  · obtain rfl : n = 0 := by
      by_contra hn
      exact hnone f (hrange ▸ Finset.mem_Ico.mpr ⟨Nat.le_refl f, by omega⟩)
    exact hq

/-! ## the exact condition -/

section Edge

variable (image : KernelImage) (memory : Nat → BitVec 32) (mbi : MultibootInfo)
  (es : List MmapEntry)

/-- The block that the end of the range cuts is the edge block, and the blocks
below it are protected. -/
theorem lt_protectedEnd_iff (b : Nat) :
    b * pageSize < protectedEnd image mbi ↔
      b < edgeBlock image mbi ∨
        (b = edgeBlock image mbi ∧ protectedEnd image mbi % pageSize ≠ 0) := by
  unfold edgeBlock protectedEnd pageSize
  omega

/-- The counter after `pmm_init` equals `max_blocks` when the walk freed as many
blocks as the protected range took. -/
theorem full_iff :
    (pmmInitResult image memory mbi es).usedBlocks = mbi.maxBlocks ↔
      freedTotal es % 2 ^ 32 = edgeBlock image mbi := by
  have hsum := usedBlocks_pmmInitResult image memory mbi es
  have hlt := usedBlocks_pmmInitResult_lt image memory mbi es
  have hmax := maxBlocks_lt mbi
  have hedge := edgeBlock_bounds image mbi
  omega

theorem allocatesAbove_of_edgeSafe (h : EdgeSafe image mbi es) :
    AllocatesAbove (pmmInitResult image memory mbi es) (protectedEnd image mbi) := by
  have hsane := sane_pmmInitResult image memory mbi es
  by_cases hfull : freedTotal es % 2 ^ 32 = edgeBlock image mbi
  · intro ops q live hrun op a q' _ hcall hne
    have hcounter := (full_iff image memory mbi es).mpr hfull
    rw [← maxBlocks_pmmInitResult image memory mbi es] at hcounter
    obtain ⟨hq, -⟩ := stuck_of_full hsane hcounter hrun
    obtain rfl : q = _ := hq
    exact absurd (PmmOp.call_of_full hsane hcounter hcall) hne
  · refine Guarded.allocatesAbove ⟨hsane, ⟨.nil, by simp⟩, fun b hb hlt => ?_, by simp⟩
    rw [scanned, maxBlocks_pmmInitResult] at hlt
    rw [isUsed_pmmInitResult]
    rcases (lt_protectedEnd_iff image mbi b).mp hb with hbelow | ⟨rfl, hcut⟩
    · simp [hbelow]
    · -- the edge block itself: reachable and cut, so it must have stayed used
      have hnone : ∀ e ∈ es, ¬ e.Frees (edgeBlock image mbi) := by
        rcases h with h | h | h | h
        · exact absurd h hcut
        · exact absurd hlt (Nat.not_lt.mpr h)
        · exact h
        · exact absurd h hfull
      have hset : edgeBlock image mbi < 8 * (mbi.maxBlocks / 8) := by omega
      simpa [hset] using hnone

/-- If the edge block is not safe, the very first page allocation returns it. -/
theorem pmmAllocPage_edge (h : ¬ EdgeSafe image mbi es) :
    ∃ q, pmmAllocPage (pmmInitResult image memory mbi es) =
      .ok (edgeBlock image mbi * pageSize, q) := by
  unfold EdgeSafe at h
  push Not at h
  obtain ⟨-, hreach, ⟨e, he, hfree⟩, hcount⟩ := h
  have hedge := edgeBlock_bounds image mbi
  have hlt := usedBlocks_pmmInitResult_lt image memory mbi es
  have hmax := maxBlocks_lt mbi
  have hne := mt (full_iff image memory mbi es).mp hcount
  have hz := (sane_pmmInitResult image memory mbi es).zero_used
  have hedgeFree : (pmmInitResult image memory mbi es).isFree (edgeBlock image mbi) = true := by
    rw [isFree_eq_true, isUsed_pmmInitResult]
    simp [show ∃ e ∈ es, e.Frees (edgeBlock image mbi) from ⟨e, he, hfree⟩]
  have hfind : mmapFindFree (pmmInitResult image memory mbi es) = edgeBlock image mbi := by
    have hnz : mmapFindFree (pmmInitResult image memory mbi es) ≠ 0 := fun h0 => by
      have := mmapFindFree_eq_zero _ h0 (k := edgeBlock image mbi) (by omega)
        (by rw [scanned, maxBlocks_pmmInitResult]; exact hreach) hz
      rw [hedgeFree] at this
      contradiction
    obtain ⟨-, hfree, hleast⟩ := mmapFindFree_spec _ hnz
    rcases Nat.lt_trichotomy (mmapFindFree (pmmInitResult image memory mbi es))
      (edgeBlock image mbi) with hlow | heq | hhigh
    · -- below the edge every block is used
      rw [isFree_eq_true, isUsed_pmmInitResult] at hfree
      simp [hlow] at hfree
    · exact heq
    · have := hleast _ hhigh
      rw [hedgeFree] at this
      contradiction
  refine ⟨_, pmmAllocPage_of_find ?_ hfind (by omega) (by omega)⟩
  rw [maxBlocks_pmmInitResult, u32Sub]
  omega

theorem not_allocatesAbove_of_not_edgeSafe (h : ¬ EdgeSafe image mbi es) :
    ¬ AllocatesAbove (pmmInitResult image memory mbi es) (protectedEnd image mbi) := by
  intro habove
  obtain ⟨q, hcall⟩ := pmmAllocPage_edge image memory mbi es h
  have hedge := edgeBlock_bounds image mbi
  have hb := habove [] _ _ (.nil _) .allocPage _ q (by simp [PmmOp.freed]) hcall
    (by unfold pageSize; omega) (edgeBlock image mbi)
    ((mem_blocksFrom_block _ _ _).mpr ⟨Nat.le_refl _, by simp [PmmOp.blocks]⟩)
  have hcut : protectedEnd image mbi % pageSize ≠ 0 := fun h0 => h (.inl h0)
  have := (lt_protectedEnd_iff image mbi (edgeBlock image mbi)).mpr (.inr ⟨rfl, hcut⟩)
  omega

end Edge

/-- **The protected range.**  On every boot information on which `pmm_init`
returns, all later allocations keep out of the low memory, the kernel and the
bitmap if and only if the edge block is safe. -/
theorem pmm_init_protects_iff (hmap : mbi.Lists image memory es)
    (hinit : pmmInit image memory mbi fuel = .ok p) :
    AllocatesAbove p (protectedEnd image mbi) ↔ EdgeSafe image mbi es := by
  obtain ⟨es', hes', rfl⟩ := lists_of_pmmInit hinit
  obtain rfl := hmap.unique hes'
  constructor
  · intro habove
    by_contra hedge
    exact not_allocatesAbove_of_not_edgeSafe image memory mbi es hedge habove
  · exact allocatesAbove_of_edgeSafe image memory mbi es

/-! ## two kernels on a 4 MiB machine -/

/-- The memory from 1 MiB to 4 MiB is available. -/
def upperMemory : MmapEntry where
  size := 20
  addr := 0x100000
  len := 0x300000
  type := 1

/-- With 128 bytes of bitmap this kernel fills whole blocks. -/
def fittingKernel : KernelImage := ⟨0xC0100F80, by decide, by decide⟩

theorem pmm_init_protects_fitting :
    ∃ p, pmmInit fittingKernel (fittingKernel.withMap 0xC0009000 [upperMemory]) fourMiB 2 = .ok p ∧
      AllocatesAbove p (protectedEnd fittingKernel fourMiB) := by
  have hmap : fourMiB.Lists fittingKernel (fittingKernel.withMap 0xC0009000 [upperMemory])
      [upperMemory] :=
    Passes.lists (.entry (by decide) (by decide) (by decide) (by decide) (.done (by decide)))
  have hinit := pmmInit_of_lists hmap (show [upperMemory].length < 2 by decide)
  exact ⟨_, hinit, (pmm_init_protects_iff hmap hinit).mpr (by decide)⟩

/-- This one ends 16 bytes into block 256, where its bitmap starts. -/
def cutKernel : KernelImage := ⟨0xC0100010, by decide, by decide⟩

/-- The first page the allocator hands out is the one with the bitmap in it. -/
theorem pmm_init_exposes_bitmap :
    ∃ p, pmmInit cutKernel (cutKernel.withMap 0xC0009000 [upperMemory]) fourMiB 2 = .ok p ∧
      ¬ AllocatesAbove p (protectedEnd cutKernel fourMiB) := by
  have hmap : fourMiB.Lists cutKernel (cutKernel.withMap 0xC0009000 [upperMemory]) [upperMemory] :=
    Passes.lists (.entry (by decide) (by decide) (by decide) (by decide) (.done (by decide)))
  exact ⟨_, pmmInit_of_lists hmap (by decide), not_allocatesAbove_of_not_edgeSafe _ _ _ _ (by decide)⟩

end NimbleOS
