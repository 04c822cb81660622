import NimbleOS.Pmm.Alloc
import NimbleOS.Lib.Run
import Mathlib.Data.Finset.Basic
import Mathlib.Order.Interval.Finset.Nat
import Mathlib.Data.Finset.SDiff

/-!
# NimbleOS.Pmm.Ledger

Whole runs of the physical memory manager.  The bitmap does not remember which
call handed out a block, so a run carries a *ledger* beside it: for each
allocation that is still live, the set of its blocks that were not given back.
A client may free any blocks that are in the ledger, in any pieces.

`pmm_run_sound` is the contract of the manager over every such run: the
invariant holds, live allocations are disjoint, and each further call either
changes nothing or hands out aligned, previously free blocks and touches no
other bit.
-/

namespace NimbleOS

open Pmm

/-- The calls of `pmm.h`. -/
inductive PmmOp where
  | allocPage
  | allocPages (num : Nat)
  | allocAlignedLargePage
  | freePage (addr : Nat)
  | freePages (addr num : Nat)

namespace PmmOp

/-- Run a call: its return value (0 for the `void` ones) and the new state. -/
def call (p : Pmm) : PmmOp → Except Halt (Nat × Pmm)
  | allocPage => pmmAllocPage p
  | allocPages num => .ok (pmmAllocPages p num)
  | allocAlignedLargePage => .ok (pmmAllocAlignedLargePage p)
  | freePage addr => .ok (0, pmmFreePage p addr)
  | freePages addr num => .ok (0, pmmFreePages p addr num)

/-- Number of blocks a successful call hands out. -/
def blocks : PmmOp → Nat
  | allocPage => 1
  | allocPages num => num
  | allocAlignedLargePage => 1024
  | freePage _ | freePages _ _ => 0

/-- Alignment of the address that a successful call returns, in bytes. -/
def align : PmmOp → Nat
  | allocAlignedLargePage => 4 * 1024 * 1024
  | _ => 4 * 1024

/-- The blocks a call gives back. -/
def freed : PmmOp → Finset Nat
  | freePage addr => Finset.Ico (addr / pageSize) (addr / pageSize + 1)
  | freePages addr num => Finset.Ico (addr / pageSize) (addr / pageSize + num)
  | _ => ∅

end PmmOp

/-- For each live allocation the blocks it still holds. -/
abbrev Ledger := List (Finset Nat)

/-- The blocks `addr` and the `num - 1` blocks after it. -/
def blocksFrom (addr num : Nat) : Finset Nat :=
  Finset.Ico (addr / pageSize) (addr / pageSize + num)

namespace Ledger

/-- The ledger after a call that returned `a`. -/
def after (live : Ledger) (op : PmmOp) (a : Nat) : Ledger :=
  if a = 0 then live.map fun s => s \ op.freed else blocksFrom a op.blocks :: live

/-- A ledger fits a state: live allocations are disjoint, and their blocks are
used blocks below the bound other than block 0. -/
structure Fits (live : Ledger) (p : Pmm) : Prop where
  disjoint : live.Pairwise Disjoint
  block : ∀ s ∈ live, ∀ b ∈ s, 0 < b ∧ b < p.maxBlocks ∧ p.isUsed b = true

end Ledger

/-- One call of a well-behaved client: what it frees is currently handed out. -/
inductive PmmStep : Pmm × Ledger → PmmOp → Pmm × Ledger → Prop where
  | call {p p' : Pmm} {live : Ledger} {a : Nat} (op : PmmOp)
      (hlegal : ∀ b ∈ op.freed, ∃ s ∈ live, b ∈ s) (hcall : op.call p = .ok (a, p')) :
      PmmStep (p, live) op (p', live.after op a)

/-- What a call that returned `a` did. -/
structure PmmOp.Outcome (op : PmmOp) (p : Pmm) (a : Nat) (p' : Pmm) : Prop where
  aligned : a ≠ 0 → op.align ∣ a
  was_free : a ≠ 0 → ∀ b ∈ blocksFrom a op.blocks, b < p.maxBlocks ∧ p.isUsed b = false
  now_used : a ≠ 0 → ∀ b ∈ blocksFrom a op.blocks, p'.isUsed b = true
  others : a ≠ 0 → ∀ b, b ∉ blocksFrom a op.blocks → p'.isUsed b = p.isUsed b
  failed : a = 0 → op.freed = ∅ → p' = p

/-! ## one call -/

theorem mem_blocksFrom_block (f num b : Nat) :
    b ∈ blocksFrom (f * pageSize) num ↔ f ≤ b ∧ b < f + num := by
  have hdiv : f * pageSize / pageSize = f := Nat.mul_div_cancel f (by decide)
  rw [blocksFrom, hdiv, Finset.mem_Ico]

/-- A run of blocks taken at an aligned block is the outcome of a call that
hands out that many blocks. -/
theorem Takes.outcome {op : PmmOp} (hmax : p.maxBlocks ≤ 2 ^ 20)
    (h : Takes p f op.blocks p') (halign : op.align ∣ f * pageSize) :
    op.Outcome p (f * pageSize) p' := by
  have hne : f * pageSize ≠ 0 := by have := h.pos; unfold pageSize; omega
  refine ⟨fun _ => halign, fun _ b hb => ?_, fun _ b hb => ?_, fun _ b hb => ?_,
    fun h0 => absurd h0 hne⟩
  · rw [mem_blocksFrom_block] at hb
    have := h.below_max
    exact ⟨by omega, h.free b hb.1 hb.2⟩
  · rw [mem_blocksFrom_block] at hb
    exact h.isUsed_of_mem hmax hb.1 hb.2
  · rw [mem_blocksFrom_block] at hb
    rw [h.isUsed_eq hmax]
    simp [hb]

/-- An answer 0 asks only that nothing changed, and that only of a call that
frees nothing. -/
theorem PmmOp.outcome_zero {op : PmmOp} (h : op.freed = ∅ → p' = p) : op.Outcome p 0 p' :=
  ⟨fun h0 => absurd rfl h0, fun h0 => absurd rfl h0, fun h0 => absurd rfl h0,
    fun h0 => absurd rfl h0, fun _ => h⟩

theorem mmapUnsetBlocks_one (p : Pmm) (hb : b < 2 ^ 32) :
    mmapUnsetBlocks p b 1 = mmapUnset p b := by
  have hz : mmapUnsetBlocks p b 0 = p := rfl
  rw [mmapUnsetBlocks_succ, hz, Nat.add_zero, u32_of_lt hb]

/-- Every call takes the blocks it hands out, or changes nothing, or gives back
the range it frees. -/
theorem PmmOp.call_cases {op : PmmOp} (hs : p.Sane) (hfreed : ∀ b ∈ op.freed, b < p.maxBlocks)
    (h : op.call p = .ok (a, p')) :
    (∃ f, a = f * pageSize ∧ op.align ∣ a ∧ Takes p f op.blocks p') ∨
      (a = 0 ∧ p' = p ∧ op.freed = ∅) ∨
      (∃ f n, a = 0 ∧ op.freed = Finset.Ico f (f + n) ∧ p' = mmapUnsetBlocks p f n) := by
  have hmax := hs.max_le
  cases op with
  | allocPage =>
      rcases pmmAllocPage_cases hmax h with ⟨ha, hp⟩ | ⟨b, ha, htakes, -⟩
      · exact .inr (.inl ⟨ha, hp, rfl⟩)
      · exact .inl ⟨b, ha, ⟨b, by rw [ha, Nat.mul_comm]; rfl⟩, htakes⟩
  | allocPages num =>
      have hcall : pmmAllocPages p num = (a, p') := Except.ok.inj h
      rcases pmmAllocPages_cases hmax hs.zero_used num with hz | ⟨f, q, hq, -, htakes⟩
      · cases hz.symm.trans hcall
        exact .inr (.inl ⟨rfl, rfl, rfl⟩)
      · cases hq.symm.trans hcall
        exact .inl ⟨f, rfl, ⟨f, by rw [Nat.mul_comm]; rfl⟩, htakes⟩
  | allocAlignedLargePage =>
      have hcall : pmmAllocAlignedLargePage p = (a, p') := Except.ok.inj h
      rcases pmmAllocAlignedLargePage_cases hmax hs.zero_used with
        hz | ⟨f, q, hq, hdvd, htakes⟩
      · cases hz.symm.trans hcall
        exact .inr (.inl ⟨rfl, rfl, rfl⟩)
      · cases hq.symm.trans hcall
        obtain ⟨m, rfl⟩ := hdvd
        exact .inl ⟨1024 * m, rfl, ⟨m, by simp only [align, pageSize]; omega⟩, htakes⟩
  | freePage addr =>
      have hlt := hfreed (addr / pageSize) (Finset.mem_Ico.mpr ⟨Nat.le_refl _, by omega⟩)
      cases h
      exact .inr (.inr ⟨_, 1, rfl, rfl, (mmapUnsetBlocks_one p (by omega)).symm⟩)
  | freePages addr num =>
      cases h
      exact .inr (.inr ⟨_, num, rfl, rfl, rfl⟩)

/-! ## the ledger -/

namespace Ledger

/-- Blocks taken were free, so they meet no live allocation. -/
theorem Fits.takes (hfits : Fits live p) (hmax : p.maxBlocks ≤ 2 ^ 20)
    (h : Takes p f n p') : Fits (blocksFrom (f * pageSize) n :: live) p' := by
  constructor
  · refine List.pairwise_cons.mpr ⟨fun s hs => ?_, hfits.disjoint⟩
    rw [Finset.disjoint_left]
    intro b hb hbs
    rw [mem_blocksFrom_block] at hb
    have hused := (hfits.block s hs b hbs).2.2
    rw [h.free b hb.1 hb.2] at hused
    exact Bool.noConfusion hused
  · intro s hs b hb
    rw [h.maxBlocks_eq]
    cases List.mem_cons.mp hs with
    | inl heq =>
        rw [heq, mem_blocksFrom_block] at hb
        have := h.pos
        have := h.below_max
        exact ⟨by omega, by omega, h.isUsed_of_mem hmax hb.1 hb.2⟩
    | inr hmem =>
        obtain ⟨hpos, hlt, hused⟩ := hfits.block s hmem b hb
        exact ⟨hpos, hlt, h.isUsed_of_isUsed hmax hused⟩

/-- Giving back blocks leaves every other block of the ledger as it was. -/
theorem Fits.gives (hfits : Fits live p) (hmax : p'.maxBlocks = p.maxBlocks)
    (hkeep : ∀ b, b ∉ freed → p'.isUsed b = p.isUsed b) :
    Fits (live.map fun s => s \ freed) p' := by
  constructor
  · rw [List.pairwise_map]
    exact hfits.disjoint.imp fun hd => hd.mono Finset.sdiff_subset Finset.sdiff_subset
  · intro s hs b hb
    obtain ⟨t, ht, rfl⟩ := List.mem_map.mp hs
    obtain ⟨hbt, hbf⟩ := Finset.mem_sdiff.mp hb
    obtain ⟨hpos, hlt, hused⟩ := hfits.block t ht b hbt
    rw [hmax, hkeep b hbf]
    exact ⟨hpos, hlt, hused⟩

/-- What a well-behaved client frees are used blocks below the bound. -/
theorem Fits.legal {freed : Finset Nat} (hfits : Fits live p)
    (hlegal : ∀ b ∈ freed, ∃ s ∈ live, b ∈ s) (hb : b ∈ freed) : 0 < b ∧ b < p.maxBlocks ∧ p.isUsed b = true := by
  obtain ⟨s, hs, hbs⟩ := hlegal b hb
  exact hfits.block s hs b hbs

end Ledger

/-- A range that a well-behaved client frees is empty, or avoids block 0 and
stays inside the 20-bit block numbers. -/
theorem Ledger.Fits.range (hfits : Fits live p) (hmax : p.maxBlocks ≤ 2 ^ 20)
    (hlegal : ∀ b ∈ Finset.Ico f (f + n), ∃ s ∈ live, b ∈ s) :
    n = 0 ∨ 0 < f ∧ f + n ≤ 2 ^ 20 := by
  rcases Nat.eq_zero_or_pos n with hn | hn
  · exact .inl hn
  · have hfirst := hfits.legal hlegal (Finset.mem_Ico.mpr ⟨Nat.le_refl f, by omega⟩)
    have hlast := hfits.legal hlegal
      (Finset.mem_Ico.mpr (show f ≤ f + n - 1 ∧ f + n - 1 < f + n by omega))
    exact .inr ⟨hfirst.1, by omega⟩

/-- **Step lemma**: a call of a well-behaved client keeps the manager sane and
the ledger true.  What it does to the counter plays no part in this. -/
theorem PmmStep.fits (h : PmmStep s op s') (hs : s.1.Sane ∧ s.2.Fits s.1) :
    s'.1.Sane ∧ s'.2.Fits s'.1 := by
  obtain @⟨p, p', live, a, op, hlegal, hcall⟩ := h
  obtain ⟨hsane, hfits⟩ : p.Sane ∧ live.Fits p := hs
  have hmax := hsane.max_le
  rcases PmmOp.call_cases hsane (fun b hb => (hfits.legal hlegal hb).2.1) hcall with
    ⟨f, rfl, -, htakes⟩ | ⟨rfl, rfl, hfreed⟩ | ⟨f, n, rfl, hfreed, rfl⟩
  · have hne : f * pageSize ≠ 0 := by have := htakes.pos; unfold pageSize; omega
    rw [Ledger.after, if_neg hne]
    exact ⟨hsane.takes htakes, hfits.takes hmax htakes⟩
  · rw [Ledger.after, if_pos rfl, hfreed]
    simpa using And.intro hsane hfits
  · rw [hfreed] at hlegal
    have hrange := hfits.range hmax hlegal
    rw [Ledger.after, if_pos rfl]
    refine ⟨hsane.gives hrange, hfits.gives (maxBlocks_mmapUnsetBlocks _ _ _) fun b hb => ?_⟩
    rw [hfreed, Finset.mem_Ico] at hb
    rcases hrange with rfl | ⟨-, hle⟩
    · rfl
    · rw [isUsed_mmapUnsetBlocks p (by omega)]
      simp [hb]

/-- The counter stays exact: what is taken was free, what is freed was used. -/
theorem PmmStep.inv (h : PmmStep s op s') (hinv : s.1.Inv) (hfits : s.2.Fits s.1) :
    s'.1.Inv := by
  refine ⟨(h.fits ⟨hinv.toSane, hfits⟩).1, ?_⟩
  obtain @⟨p, p', live, a, op, hlegal, hcall⟩ := h
  rcases PmmOp.call_cases hinv.toSane (fun b hb => (hfits.legal hlegal hb).2.1) hcall with
    ⟨f, -, -, htakes⟩ | ⟨-, rfl, -⟩ | ⟨f, n, -, hfreed, rfl⟩
  · exact (hinv.takes htakes).used_eq
  · exact hinv.used_eq
  · rw [hfreed] at hlegal
    exact usedCount_mmapUnsetBlocks p hinv.max_le
      (fun b hlo hhi => (hfits.legal hlegal (Finset.mem_Ico.mpr ⟨hlo, hhi⟩)).2) hinv.used_eq

/-- **Run lemma**: the invariant and the ledger hold after every run. -/
theorem pmm_run_invariant (hrun : Run PmmStep s ops s') (hs : s.1.Inv ∧ s.2.Fits s.1) :
    s'.1.Inv ∧ s'.2.Fits s'.1 :=
  hrun.invariant (fun s => s.1.Inv ∧ s.2.Fits s.1)
    (fun _ _ _ h hstep => ⟨hstep.inv h.1 h.2, (hstep.fits ⟨h.1.toSane, h.2⟩).2⟩) hs

/-- **The contract of the physical memory manager.**  From any state that
satisfies the invariant, after every sequence of calls that frees only blocks
currently handed out: the invariant holds, live allocations are pairwise
disjoint, and every call a well-behaved client can make next has the outcome
`PmmOp.Outcome`. -/
theorem pmm_run_sound (hinv : p₀.Inv) (hfits : live₀.Fits p₀)
    (hrun : Run PmmStep (p₀, live₀) ops (p, live)) :
    p.Inv ∧ live.Pairwise Disjoint ∧
      ∀ (op : PmmOp) (a : Nat) (p' : Pmm), (∀ b ∈ op.freed, ∃ s ∈ live, b ∈ s) →
        op.call p = .ok (a, p') → op.Outcome p a p' := by
  obtain ⟨hinv', hfits'⟩ := pmm_run_invariant hrun ⟨hinv, hfits⟩
  refine ⟨hinv', hfits'.disjoint, fun op a p' hlegal hcall => ?_⟩
  rcases PmmOp.call_cases hinv'.toSane (fun b hb => (hfits'.legal hlegal hb).2.1) hcall with
    ⟨f, rfl, halign, htakes⟩ | ⟨rfl, rfl, -⟩ | ⟨f, n, rfl, hfreed, rfl⟩
  · exact htakes.outcome hinv'.max_le halign
  · exact PmmOp.outcome_zero fun _ => rfl
  · refine PmmOp.outcome_zero fun hnone => ?_
    -- a release of no block at all
    rw [hfreed, Finset.Ico_eq_empty_iff] at hnone
    obtain rfl : n = 0 := by omega
    rfl

/-- A manager of 64 blocks of which only block 0 is used. -/
def Pmm.small : Pmm where
  bitmap := fun i => if i = 0 then 1#32 else 0#32
  usedBlocks := 1
  maxBlocks := 64

theorem Pmm.small_inv : Pmm.small.Inv := ⟨⟨by decide, by decide⟩, by decide⟩

/-- A page, three pages and the release of the first two of these. -/
theorem small_run : ∃ p live,
    Run PmmStep (Pmm.small, []) [.allocPage, .allocPages 3, .freePages 0x2000 2] (p, live) := by
  have hc₁ : pmmAllocPage Pmm.small = .ok (0x1000, mmapSet Pmm.small 1) :=
    pmmAllocPage_of_find (by decide) (b := 1) (by decide) (by decide) (by decide)
  have hc₂ : pmmAllocPages (mmapSet Pmm.small 1) 3 =
      (0x2000, mmapSetBlocks (mmapSet Pmm.small 1) 2 3) :=
    pmmAllocPages_of_find (by decide) (f := 2) (by decide) (by decide) (by decide)
  have h₁ := @PmmStep.call Pmm.small _ [] 0x1000 .allocPage (by simp [PmmOp.freed]) hc₁
  have h₂ := @PmmStep.call (mmapSet Pmm.small 1) _ [blocksFrom 0x1000 1] 0x2000 (.allocPages 3)
    (by simp [PmmOp.freed]) (congrArg Except.ok hc₂)
  have h₃ := @PmmStep.call (mmapSetBlocks (mmapSet Pmm.small 1) 2 3) _
    [blocksFrom 0x2000 3, blocksFrom 0x1000 1] 0 (.freePages 0x2000 2) (by decide) rfl
  exact ⟨_, _, .cons h₁ (.cons h₂ (.cons h₃ (.nil _)))⟩

theorem pmm_run_sound_small :
    ∃ p live, Run PmmStep (Pmm.small, []) [.allocPage, .allocPages 3, .freePages 0x2000 2]
        (p, live) ∧ p.Inv ∧ live.Pairwise Disjoint ∧
      ∀ (op : PmmOp) (a : Nat) (p' : Pmm), (∀ b ∈ op.freed, ∃ s ∈ live, b ∈ s) →
        op.call p = .ok (a, p') → op.Outcome p a p' := by
  obtain ⟨p, live, hrun⟩ := small_run
  exact ⟨p, live, hrun, pmm_run_sound Pmm.small_inv ⟨.nil, by simp⟩ hrun⟩

end NimbleOS
