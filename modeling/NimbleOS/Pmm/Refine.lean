import NimbleOS.Pmm.Ledger

/-!
# NimbleOS.Pmm.Refine

What the physical memory manager is for: it is a first-fit allocator on a set of free
blocks.  `Blocks` states it so, with neither words nor bits nor a counter, and
`pmm_refines_blocks` says that the manager answers every call of every run as the set
does.  The counter only ever refuses a request that does not fit.

`pmm_run_balanced` is the other half of the contract: once a client has given back all
it was handed out, in whatever pieces and order, the manager is as it was.
-/

namespace NimbleOS

open Pmm FirstFit

/-! ## the set of free blocks -/

/-- A set of free blocks, and the number of blocks there are. -/
structure Blocks where
  free : Nat → Bool
  num : Nat

namespace Blocks

def take (s : Blocks) (first num : Nat) : Blocks :=
  { s with free := fun b => s.free b && !decide (first ≤ b ∧ b < first + num) }

def give (s : Blocks) (first num : Nat) : Blocks :=
  { s with free := fun b => s.free b || decide (first ≤ b ∧ b < first + num) }

/-- The first place for `num` blocks below the last multiple of 32; 0 if there is none. -/
def firstFit (s : Blocks) (num : Nat) : Nat := leftmost s.free (32 * (s.num / 32)) num

/-- The address and the blocks, if there is a place for them. -/
def grant (s : Blocks) (first num : Nat) : Nat × Blocks :=
  if first = 0 then (0, s) else (first * pageSize, s.take first num)

/-- The calls of `pmm.h` on a set of free blocks. -/
def call (s : Blocks) : PmmOp → Except Halt (Nat × Blocks)
  | .allocPage =>
      if ∃ b < s.num, s.free b = true then .ok (s.grant (s.firstFit 1) 1) else .error .outOfMemory
  | .allocPages num => .ok (s.grant (s.firstFit num) num)
  | .allocAlignedLargePage =>
      if s.firstFit 2048 = 0 then .ok (0, s)
      else .ok (s.grant ((s.firstFit 2048 / 1024 + 1) * 1024) 1024)
  | .freePage addr => .ok (0, s.give (addr / pageSize) 1)
  | .freePages addr num => .ok (0, s.give (addr / pageSize) num)

/-- One call of a run. -/
def Step (s : Blocks) (op : PmmOp) (s' : Blocks) : Prop := ∃ a, s.call op = .ok (a, s')

/-! ### with a counter -/

def freeBlocks (s : Blocks) : Finset Nat := (Finset.range s.num).filter fun b => s.free b = true

/-- The number of free blocks, as one sees it who has counted `excess` used blocks too many. -/
def credit (s : Blocks) (excess : Nat) : Nat := u32Sub s.freeBlocks.card excess

/-- The calls when requests are refused by that number. -/
def callShort (excess : Nat) (s : Blocks) : PmmOp → Except Halt (Nat × Blocks)
  | .allocPage =>
      if s.credit excess = 0 then .error .outOfMemory else .ok (s.grant (s.firstFit 1) 1)
  | .allocPages num =>
      .ok (if s.credit excess < num then (0, s) else s.grant (s.firstFit num) num)
  | .allocAlignedLargePage =>
      .ok (if s.credit excess < 2048 ∨ s.firstFit 2048 = 0 then (0, s)
        else s.grant ((s.firstFit 2048 / 1024 + 1) * 1024) 1024)
  | .freePage addr => .ok (0, s.give (addr / pageSize) 1)
  | .freePages addr num => .ok (0, s.give (addr / pageSize) num)

variable {s : Blocks}

theorem mem_freeBlocks : b ∈ s.freeBlocks ↔ b < s.num ∧ s.free b = true := by
  rw [freeBlocks, Finset.mem_filter, Finset.mem_range]

theorem card_freeBlocks_le (s : Blocks) : s.freeBlocks.card ≤ s.num := by
  have hle := Finset.card_filter_le (Finset.range s.num) fun b => s.free b = true
  rwa [Finset.card_range] at hle

/-- Free blocks in a row are that many free blocks. -/
theorem le_card_of_fits (hfit : Fits s.free n f) (hbelow : f + n ≤ s.num) :
    n ≤ s.freeBlocks.card := by
  have hsub : Finset.Ico f (f + n) ⊆ s.freeBlocks := by
    intro b hb
    obtain ⟨hlo, hhi⟩ := Finset.mem_Ico.mp hb
    exact mem_freeBlocks.mpr ⟨by omega, hfit b hlo hhi⟩
  have hcard := Finset.card_le_card hsub
  rwa [Nat.card_Ico, Nat.add_sub_cancel_left] at hcard

theorem le_card_of_firstFit (h : s.firstFit n ≠ 0) : n ≤ s.freeBlocks.card := by
  obtain ⟨hwithin, hfits⟩ := leftmost_fits _ h
  exact le_card_of_fits hfits (Nat.le_trans hwithin (Nat.mul_div_le _ _))

/-- An exact counter refuses nothing that fits. -/
theorem callShort_zero (hnum : s.num ≤ 2 ^ 20) (op : PmmOp) : s.callShort 0 op = s.call op := by
  have hle := card_freeBlocks_le s
  have hcredit : s.credit 0 = s.freeBlocks.card := by
    rw [credit, u32Sub]
    omega
  cases op with
  | allocPage =>
      have hnone : s.freeBlocks.card = 0 ↔ ¬ ∃ b < s.num, s.free b = true := by
        rw [Finset.card_eq_zero, Finset.eq_empty_iff_forall_notMem]
        simp only [mem_freeBlocks, not_and, not_exists]
      rw [callShort, call, hcredit]
      by_cases hfull : s.freeBlocks.card = 0
      · rw [if_pos hfull, if_neg (hnone.mp hfull)]
      · rw [if_neg hfull, if_pos (not_not.mp (mt hnone.mpr hfull))]
  | allocPages num =>
      rw [callShort, call, hcredit]
      by_cases hfind : s.firstFit num = 0
      · rw [hfind, grant, if_pos rfl, ite_self]
      · rw [if_neg (Nat.not_lt.mpr (le_card_of_firstFit hfind))]
  | allocAlignedLargePage =>
      rw [callShort, call, hcredit]
      by_cases hfind : s.firstFit 2048 = 0
      · rw [if_pos (.inr hfind), if_pos hfind]
      · have hroom := Nat.not_lt.mpr (le_card_of_firstFit hfind)
        rw [if_neg (not_or.mpr ⟨hroom, hfind⟩), if_neg hfind]
  | freePage addr => rfl
  | freePages addr num => rfl

end Blocks

/-- The blocks that the bitmap shows as free. -/
def Pmm.blocks (p : Pmm) : Blocks := ⟨p.isFree, p.maxBlocks⟩

namespace Pmm

variable {p : Pmm}

@[simp] theorem num_blocks (p : Pmm) : p.blocks.num = p.maxBlocks := rfl

/-! ## the bit operations on the set -/

theorem blocks_mmapSetBlocks (p : Pmm) (hlt : first + num ≤ 2 ^ 32) :
    (mmapSetBlocks p first num).blocks = p.blocks.take first num := by
  simp only [blocks, Blocks.take, maxBlocks_mmapSetBlocks, Blocks.mk.injEq, and_true]
  funext b
  rw [isFree, isUsed_mmapSetBlocks p hlt, isFree, Bool.not_or, Bool.and_comm]

theorem blocks_mmapUnsetBlocks (p : Pmm) (hlt : first + num ≤ 2 ^ 32) :
    (mmapUnsetBlocks p first num).blocks = p.blocks.give first num := by
  simp only [blocks, Blocks.give, maxBlocks_mmapUnsetBlocks, Blocks.mk.injEq, and_true]
  funext b
  rw [isFree, isUsed_mmapUnsetBlocks p hlt, isFree, Bool.not_and, Bool.not_not, Bool.or_comm]

/-! ## the counter -/

/-- How many used blocks the counter has too many, in 32 bits. -/
def excess (p : Pmm) : Nat := u32Sub p.usedBlocks p.usedCount

theorem Inv.excess_eq (hinv : p.Inv) : p.excess = 0 := by
  rw [excess, hinv.used_eq, u32Sub]
  omega

theorem card_freeBlocks (p : Pmm) : p.usedCount + p.blocks.freeBlocks.card = p.maxBlocks := by
  have hsum := Finset.card_filter_add_card_filter_not (s := Finset.range p.maxBlocks)
    fun b => p.isUsed b = true
  have hfree : p.blocks.freeBlocks =
      (Finset.range p.maxBlocks).filter fun b => ¬ p.isUsed b = true := by
    ext b
    rw [Blocks.mem_freeBlocks, Finset.mem_filter, Finset.mem_range, Bool.not_eq_true]
    exact and_congr_right fun _ => isFree_eq_true p
  rw [← hfree, Finset.card_range] at hsum
  exact hsum

/-- The room that the guards of the allocation see. -/
theorem guard_eq (hmax : p.maxBlocks ≤ 2 ^ 20) (hlt : p.usedBlocks < 2 ^ 32) :
    u32Sub p.maxBlocks p.usedBlocks = p.blocks.credit p.excess := by
  have hcard := card_freeBlocks p
  unfold Blocks.credit excess u32Sub
  omega

/-! ## the calls -/

theorem firstFit_blocks (p : Pmm) (hz : p.isUsed 0 = true) (n : Nat) :
    p.blocks.firstFit n = mmapFindFreeFrame p n := by
  rcases Nat.eq_zero_or_pos n with rfl | hn
  · rw [mmapFindFreeFrame_zero]
    have hleft : ∀ bound, leftmost p.isFree bound 0 = 0 := by
      intro bound
      cases bound with
      | zero => rfl
      | succ bound => simp [leftmost, List.range_succ_eq_map]
    exact hleft _
  · exact (mmapFindFreeFrame_eq_leftmost p hz hn).symm

/-- A place that the search finds has block numbers of 20 bits. -/
theorem Sane.find_lt (hs : p.Sane) (hne : mmapFindFreeFrame p n ≠ 0) :
    mmapFindFreeFrame p n + n ≤ 2 ^ 20 ∧ mmapFindFreeFrame p n < 2 ^ 20 := by
  obtain ⟨hn, hfit⟩ := takes_of_find hs.zero_used hne
  have hbelow := Nat.le_trans hfit.within (scanned_le p)
  have hmax := hs.max_le
  omega

/-- **Step lemma**: every call answers as the set of free blocks does with a counter that is off
as this one is, and leaves the set that the call leaves. -/
theorem call_short (hs : p.Sane) (hlt : p.usedBlocks < 2 ^ 32) (op : PmmOp)
    (hfreed : ∀ b ∈ op.freed, b < p.maxBlocks) :
    (op.call p).map (fun r => (r.1, r.2.blocks)) = p.blocks.callShort p.excess op := by
  have hmax := hs.max_le
  have hz := hs.zero_used
  have hguard := guard_eq hmax hlt
  cases op with
  | allocPage =>
      have hone : mmapFindFree p = mmapFindFreeFrame p 1 := (searches_are_leftmost p hz (n := 1)
        (Nat.le_refl 1)).2
      rw [PmmOp.call, pmmAllocPage, Blocks.callShort, firstFit_blocks p hz, ← hguard]
      by_cases hfull : u32Sub p.maxBlocks p.usedBlocks = 0
      · rw [if_pos (Nat.le_of_eq hfull), if_pos hfull]
        rfl
      · rw [if_neg (mt Nat.le_zero.mp hfull), if_neg hfull]
        simp only [hone]
        by_cases hfind : mmapFindFreeFrame p 1 = 0
        · rw [if_pos hfind, hfind]
          rfl
        · obtain ⟨hbelow, hlt⟩ := hs.find_lt hfind
          rw [if_neg hfind, Blocks.grant, if_neg hfind, ← blocks_mmapSetBlocks p (by omega),
            mmapSetBlocks_one p (by omega), u32_block hlt]
          rfl
  | allocPages num =>
      rw [PmmOp.call, pmmAllocPages, Blocks.callShort, firstFit_blocks p hz, ← hguard]
      by_cases hroom : u32Sub p.maxBlocks p.usedBlocks < num
      · rw [if_pos hroom, if_pos hroom]
        rfl
      · rw [if_neg hroom, if_neg hroom]
        by_cases hfind : mmapFindFreeFrame p num = 0
        · simp only [hfind, if_true, Blocks.grant]
          rfl
        · obtain ⟨hbelow, hlt⟩ := hs.find_lt hfind
          rw [Blocks.grant, if_neg hfind, ← blocks_mmapSetBlocks p (by omega)]
          simp only [if_neg hfind, u32_block hlt]
          rfl
  | allocAlignedLargePage =>
      rw [PmmOp.call, pmmAllocAlignedLargePage, Blocks.callShort, firstFit_blocks p hz, ← hguard]
      by_cases hroom : u32Sub p.maxBlocks p.usedBlocks < 2048
      · rw [if_pos hroom, if_pos (.inl hroom)]
        rfl
      · by_cases hfind : mmapFindFreeFrame p 2048 = 0
        · rw [if_neg hroom]
          simp only [hfind, or_true, if_true]
          rfl
        · obtain ⟨hbelow, -⟩ := hs.find_lt hfind
          have hne : (mmapFindFreeFrame p 2048 / 1024 + 1) * 1024 ≠ 0 := by omega
          rw [if_neg hroom, if_neg (not_or.mpr ⟨hroom, hfind⟩), Blocks.grant, if_neg hne,
            ← blocks_mmapSetBlocks p (by omega)]
          simp only [Nat.reduceMul, if_neg hfind,
            u32_block (show (mmapFindFreeFrame p 2048 / 1024 + 1) * 1024 < 2 ^ 20 by omega),
            Except.map]
  | freePage addr =>
      have hlt := hfreed (addr / pageSize) (Finset.mem_Ico.mpr ⟨Nat.le_refl _, by omega⟩)
      rw [PmmOp.call, Blocks.callShort, ← blocks_mmapUnsetBlocks p (by omega),
        mmapUnsetBlocks_one p (by omega)]
      rfl
  | freePages addr num =>
      simp only [PmmOp.freed] at hfreed
      rw [PmmOp.call, Blocks.callShort, pmmFreePages]
      generalize addr / pageSize = first at hfreed ⊢
      have hrange : first + num ≤ 2 ^ 32 ∨ num = 0 := by
        rcases Nat.eq_zero_or_pos num with hzero | hpos
        · exact .inr hzero
        · have hlast := hfreed (first + num - 1) (Finset.mem_Ico.mpr ⟨by omega, by omega⟩)
          exact .inl (by omega)
      rcases hrange with hle | rfl
      · rw [← blocks_mmapUnsetBlocks p hle]
        rfl
      · have hnone : p.blocks.give first 0 = p.blocks := by
          simp only [Blocks.give, show ∀ b, ¬ (first ≤ b ∧ b < first + 0) from fun b => by omega,
            decide_false, Bool.or_false]
        rw [hnone]
        rfl

/-- With an exact counter as the set does. -/
theorem call_refines (hinv : p.Inv) (op : PmmOp) (hfreed : ∀ b ∈ op.freed, b < p.maxBlocks) :
    (op.call p).map (fun r => (r.1, r.2.blocks)) = p.blocks.call op := by
  have hmax := hinv.max_le
  have hle := usedCount_le p
  have hlt : p.usedBlocks < 2 ^ 32 := by
    rw [hinv.used_eq]
    omega
  rw [call_short hinv.toSane hlt op hfreed, hinv.excess_eq]
  exact Blocks.callShort_zero hmax op

end Pmm

/-! ## runs -/

/-- **The manager refines the allocator on sets.**  Over every run of a client that frees only
what it holds, the set of free blocks changes as first-fit allocation says, and every next call
of such a client gives the same answer: the same address, 0 where the set has no place, and a
halt only where no block is free. -/
theorem pmm_refines_blocks (hinv : p₀.Inv) (hfits : live₀.Fits p₀)
    (hrun : Run PmmStep (p₀, live₀) ops (p, live)) :
    Run Blocks.Step p₀.blocks ops p.blocks ∧
      ∀ op : PmmOp, (∀ b ∈ op.freed, ∃ s ∈ live, b ∈ s) →
        (op.call p).map (fun r => (r.1, r.2.blocks)) = p.blocks.call op := by
  obtain ⟨hinv', hfits'⟩ := pmm_run_invariant hrun ⟨hinv, hfits⟩
  refine ⟨?_, fun op hlegal => call_refines hinv' op fun b hb => (hfits'.legal hlegal hb).2.1⟩
  have hrefines : ∃ s, Run Blocks.Step p₀.blocks ops s ∧ s = p.blocks ∧ p.Inv ∧ live.Fits p := by
    refine hrun.simulate (fun x s => s = x.1.blocks ∧ x.1.Inv ∧ x.2.Fits x.1)
      (fun x s op x' hx hstep => ?_) ⟨rfl, hinv, hfits⟩
    obtain ⟨rfl, hinvx, hfitsx⟩ := hx
    have hkept := (hstep.fits ⟨hinvx.toSane, hfitsx⟩).2
    have hinvx' := hstep.inv hinvx hfitsx
    obtain @⟨q, q', l, a, op, hlegal, hcall⟩ := hstep
    have hcall' := call_refines hinvx op fun b hb => (hfitsx.legal hlegal hb).2.1
    rw [hcall] at hcall'
    exact ⟨q'.blocks, ⟨a, hcall'.symm⟩, rfl, hinvx', hkept⟩
  obtain ⟨s, hblocks, hs, -⟩ := hrefines
  rw [hs] at hblocks
  exact hblocks

theorem pmm_refines_blocks_small :
    ∃ (p : Pmm) (live : Ledger), Run Blocks.Step Pmm.small.blocks [.allocPage, .allocPages 3, .freePages 0x2000 2]
        p.blocks ∧
      ∀ op : PmmOp, (∀ b ∈ op.freed, ∃ s ∈ live, b ∈ s) →
        (op.call p).map (fun r => (r.1, r.2.blocks)) = p.blocks.call op := by
  obtain ⟨p, live, hrun⟩ := small_run
  exact ⟨p, live, pmm_refines_blocks Pmm.small_inv ⟨.nil, by simp⟩ hrun⟩

/-! ## nothing is lost -/

/-- The used blocks are those that were used in `p₀` and those that the ledger holds, which
were free in `p₀`. -/
structure Held (p₀ : Pmm) (x : Pmm × Ledger) : Prop where
  max : x.1.maxBlocks = p₀.maxBlocks
  fresh : ∀ s ∈ x.2, ∀ b ∈ s, p₀.isUsed b = false
  used : ∀ b, x.1.isUsed b = true ↔ p₀.isUsed b = true ∨ ∃ s ∈ x.2, b ∈ s

theorem held_start (p₀ : Pmm) : Held p₀ (p₀, []) := ⟨rfl, by simp, by simp⟩

theorem Held.takes {p p' p₀ : Pmm} (h : Held p₀ (p, live)) (hmax : p.maxBlocks ≤ 2 ^ 20)
    (htakes : Takes p f n p') : Held p₀ (p', blocksFrom (f * pageSize) n :: live) where
  max := htakes.maxBlocks_eq.trans h.max
  fresh := by
    intro s hs b hb
    cases List.mem_cons.mp hs with
    | inr hold => exact h.fresh s hold b hb
    | inl hnew =>
        rw [hnew, mem_blocksFrom_block] at hb
        have hfree := htakes.free b hb.1 hb.2
        by_contra hused
        rw [(h.used b).mpr (.inl (by simpa using hused))] at hfree
        contradiction
  used := by
    intro b
    have hbit := htakes.isUsed_eq hmax b
    have hold := h.used b
    simp only [List.mem_cons, exists_eq_or_imp, mem_blocksFrom_block]
    rw [hbit, Bool.or_eq_true, decide_eq_true_iff, hold]
    tauto

theorem Held.gives {p p' p₀ : Pmm} {freed : Finset Nat} (h : Held p₀ (p, live))
    (hlegal : ∀ b ∈ freed, ∃ s ∈ live, b ∈ s) (hmax : p'.maxBlocks = p.maxBlocks)
    (hbits : ∀ b, p'.isUsed b = true ↔ b ∉ freed ∧ p.isUsed b = true) :
    Held p₀ (p', live.map fun s => s \ freed) where
  max := hmax.trans h.max
  fresh := by
    intro s hs b hb
    obtain ⟨t, ht, rfl⟩ := List.mem_map.mp hs
    exact h.fresh t ht b (Finset.mem_sdiff.mp hb).1
  used := by
    intro b
    have hold : b ∈ freed → p₀.isUsed b = false := fun hb => by
      obtain ⟨s, hs, hbs⟩ := hlegal b hb
      exact h.fresh s hs b hbs
    rw [hbits, h.used b]
    simp only [List.mem_map, exists_exists_and_eq_and, Finset.mem_sdiff]
    constructor
    · rintro ⟨hb, hused | ⟨s, hs, hbs⟩⟩
      · exact .inl hused
      · exact .inr ⟨s, hs, hbs, hb⟩
    · rintro (hused | ⟨s, hs, hbs, hb⟩)
      · refine ⟨fun hb => ?_, .inl hused⟩
        rw [hold hb] at hused
        contradiction
      · exact ⟨hb, .inr ⟨s, hs, hbs⟩⟩

/-- **Step lemma**: what a call takes enters the ledger, what it gives back leaves it. -/
theorem PmmStep.held (h : PmmStep x op x') (hs : x.1.Sane ∧ x.2.Fits x.1) (hheld : Held p₀ x) :
    Held p₀ x' := by
  obtain @⟨p, p', live, a, op, hlegal, hcall⟩ := h
  obtain ⟨hsane, hfits⟩ : p.Sane ∧ live.Fits p := hs
  have hmax := hsane.max_le
  rcases PmmOp.call_cases hsane (fun b hb => (hfits.legal hlegal hb).2.1) hcall with
    ⟨f, rfl, -, htakes⟩ | ⟨rfl, rfl, hfreed⟩ | ⟨f, n, rfl, hfreed, rfl⟩
  · have hne : f * pageSize ≠ 0 := by have := htakes.pos; unfold pageSize; omega
    rw [Ledger.after, if_neg hne]
    exact hheld.takes hmax htakes
  · rw [Ledger.after, if_pos rfl, hfreed]
    simpa using hheld
  · rw [Ledger.after, if_pos rfl]
    refine hheld.gives hlegal (maxBlocks_mmapUnsetBlocks _ _ _) fun b => ?_
    rw [hfreed] at hlegal ⊢
    rcases hfits.range hmax hlegal with rfl | ⟨-, hle⟩
    · simp [mmapUnsetBlocks]
    · rw [isUsed_mmapUnsetBlocks p (by omega), Bool.and_eq_true, Bool.not_eq_true',
        decide_eq_false_iff_not, Finset.mem_Ico]

/-- The bits of all blocks determine the bitmap. -/
theorem bitmap_eq_of_isUsed {p q : Pmm} (h : ∀ b, p.isUsed b = q.isUsed b) : p.bitmap = q.bitmap := by
  funext i
  refine BitVec.eq_of_getLsbD_eq fun j hj => ?_
  rw [← isUsed_word p hj, ← isUsed_word q hj, h]

/-- **Nothing is lost.**  In every run the blocks marked used are those marked at its start and
those that the client holds; when the client has given back everything, in whatever pieces and
order, the manager is in its first state again, bitmap and counter. -/
theorem pmm_run_balanced (hinv : p₀.Inv) (hrun : Run PmmStep (p₀, []) ops (p, live)) :
    (∀ b, p.isUsed b = true ↔ p₀.isUsed b = true ∨ ∃ s ∈ live, b ∈ s) ∧
      ((∀ s ∈ live, s = ∅) → p = p₀) := by
  have hstart : p₀.Inv ∧ Ledger.Fits [] p₀ := ⟨hinv, .nil, by simp⟩
  obtain ⟨⟨hinv', -⟩, hheld⟩ := hrun.invariant
    (fun x => (x.1.Inv ∧ x.2.Fits x.1) ∧ Held p₀ x)
    (fun x op x' hx hstep =>
      ⟨pmm_run_invariant (.single hstep) hx.1, hstep.held ⟨hx.1.1.toSane, hx.1.2⟩ hx.2⟩)
    ⟨hstart, held_start p₀⟩
  refine ⟨hheld.used, fun hempty => ?_⟩
  have hbits : ∀ b, p.isUsed b = p₀.isUsed b := by
    intro b
    rw [Bool.eq_iff_iff, hheld.used b]
    refine ⟨fun h => h.resolve_right ?_, .inl⟩
    rintro ⟨s, hs, hb⟩
    rw [hempty s hs] at hb
    exact Finset.notMem_empty b hb
  have hbitmap := bitmap_eq_of_isUsed hbits
  have hcount : p.usedBlocks = p₀.usedBlocks := by
    rw [hinv'.used_eq, hinv.used_eq, usedCount, usedCount, hbitmap, hheld.max]
  cases p
  cases p₀
  congr
  exact hheld.max

/-- A page and the same page again. -/
theorem pmm_run_balanced_small :
    ∃ p live, Run PmmStep (Pmm.small, []) [.allocPage, .freePage 0x1000] (p, live) ∧
      p = Pmm.small := by
  have hc : pmmAllocPage Pmm.small = .ok (0x1000, mmapSet Pmm.small 1) :=
    pmmAllocPage_of_find (by decide) (b := 1) (by decide) (by decide) (by decide)
  have h₁ := @PmmStep.call Pmm.small _ [] 0x1000 .allocPage (by simp [PmmOp.freed]) hc
  have h₂ := @PmmStep.call (mmapSet Pmm.small 1) _ [blocksFrom 0x1000 1] 0 (.freePage 0x1000)
    (by decide) rfl
  have hrun := Run.cons h₁ (.cons h₂ (.nil _))
  exact ⟨_, _, hrun, (pmm_run_balanced Pmm.small_inv hrun).2 (by decide)⟩

end NimbleOS
