import Mathlib.Order.Interval.Finset.Nat
import NimbleOS.Pmm.Init

/-!
# NimbleOS.Pmm.Counter

Is `used_blocks` the number of set bits when `pmm_init` returns?  The counter goes
down for every block that the walk frees and up for every block that is protected
afterwards, whether its bit changes or not.  On a well-formed memory map each freed
block is freed once, so the counter is exact if and only if the protected blocks
had all been freed and the bits that `memset` does not reach are accounted for.
-/

namespace NimbleOS

open Pmm

/-- Entries are page-aligned, pairwise disjoint, and end below `max_blocks` blocks. -/
structure WellFormedMap (mbi : MultibootInfo) (es : List MmapEntry) : Prop where
  aligned : ∀ e ∈ es, e.addr % pageSize = 0 ∧ e.len % pageSize = 0
  below : ∀ e ∈ es, e.addr + e.len ≤ mbi.maxBlocks * pageSize
  disjoint : es.Pairwise fun e e' => e.addr + e.len ≤ e'.addr ∨ e'.addr + e'.len ≤ e.addr

/-- The walk frees block `b`. -/
def Freed (es : List MmapEntry) (b : Nat) : Prop := ∃ e ∈ es, e.Frees b

instance (es : List MmapEntry) (b : Nat) : Decidable (Freed es b) := by
  unfold Freed; infer_instance

/-- The bit of `b` is not one that `memset` sets: it is above the last whole byte
of the bitmap, and keeps what the memory held. -/
def Unset (memory : Nat → BitVec 32) (mbi : MultibootInfo) (b : Nat) : Prop :=
  8 * (mbi.maxBlocks / 8) ≤ b ∧ Bitset.test memory b = false

instance (memory : Nat → BitVec 32) (mbi : MultibootInfo) (b : Nat) :
    Decidable (Unset memory mbi b) := by unfold Unset; infer_instance

/-! ## the freed blocks -/

/-- On a well-formed map the code's block numbers are those of the entry. -/
theorem WellFormedMap.blocks (h : WellFormedMap mbi es) (he : e ∈ es) :
    e.firstBlock * pageSize = e.addr ∧ e.numBlocks * pageSize = e.len ∧
      e.firstBlock + e.numBlocks ≤ mbi.maxBlocks := by
  obtain ⟨haddr, hlen⟩ := h.aligned e he
  have hbelow := h.below e he
  have hmax := maxBlocks_lt mbi
  unfold MmapEntry.firstBlock MmapEntry.numBlocks u32 pageSize at *
  omega

theorem WellFormedMap.tail (h : WellFormedMap mbi (e :: es)) : WellFormedMap mbi es where
  aligned := fun e he => h.aligned e (List.mem_cons_of_mem _ he)
  below := fun e he => h.below e (List.mem_cons_of_mem _ he)
  disjoint := (List.pairwise_cons.mp h.disjoint).2

/-- No block is freed by two entries. -/
theorem WellFormedMap.not_freed_twice (h : WellFormedMap mbi (e :: es)) (hb : e.Frees b) :
    ¬ Freed es b := by
  rintro ⟨e', he', hb'⟩
  have hdisj := (List.pairwise_cons.mp h.disjoint).1 e' he'
  obtain ⟨haddr, hlen, -⟩ := h.blocks List.mem_cons_self
  obtain ⟨haddr', hlen', -⟩ := h.blocks (List.mem_cons_of_mem _ he')
  obtain ⟨-, hlo, hhi⟩ := hb
  obtain ⟨-, hlo', hhi'⟩ := hb'
  unfold pageSize at *
  omega

/-- The walk's calls of `mmap_unset` are as many as the blocks that it frees. -/
theorem freedTotal_eq_card (h : WellFormedMap mbi es) :
    freedTotal es = ((Finset.range mbi.maxBlocks).filter (Freed es)).card := by
  induction es with
  | nil =>
      have hnone : (Finset.range mbi.maxBlocks).filter (Freed []) = ∅ :=
        Finset.filter_eq_empty_iff.mpr fun b _ ⟨e, he, _⟩ => nomatch he
      rw [hnone]
      rfl
  | cons e es ih =>
      by_cases ht : e.type = 1
      · have hsplit : (Finset.range mbi.maxBlocks).filter (Freed (e :: es)) =
            Finset.Ico e.firstBlock (e.firstBlock + e.numBlocks) ∪
              (Finset.range mbi.maxBlocks).filter (Freed es) := by
          have hmax := (h.blocks List.mem_cons_self).2.2
          ext b
          simp only [Freed, List.mem_cons, exists_eq_or_imp, Finset.mem_filter, Finset.mem_range,
            Finset.mem_union, Finset.mem_Ico, MmapEntry.Frees, ht, true_and]
          constructor
          · rintro ⟨hlt, hb | hb⟩
            · exact .inl hb
            · exact .inr ⟨hlt, hb⟩
          · rintro (hb | ⟨hlt, hb⟩)
            · exact ⟨by omega, .inl hb⟩
            · exact ⟨hlt, .inr hb⟩
        have hdisj : Disjoint (Finset.Ico e.firstBlock (e.firstBlock + e.numBlocks))
            ((Finset.range mbi.maxBlocks).filter (Freed es)) := by
          rw [Finset.disjoint_left]
          intro b hb hb'
          rw [Finset.mem_Ico] at hb
          exact h.not_freed_twice ⟨ht, hb⟩ (Finset.mem_filter.mp hb').2
        have htotal : freedTotal (e :: es) = e.numBlocks + freedTotal es := by
          simp [freedTotal, ht]
        rw [htotal, ih h.tail, hsplit, Finset.card_union_of_disjoint hdisj, Nat.card_Ico,
          Nat.add_sub_cancel_left]
      · have htotal : freedTotal (e :: es) = freedTotal es := by simp [freedTotal, ht]
        have hsame : Freed (e :: es) = Freed es := by
          funext b
          simp [Freed, MmapEntry.Frees, ht]
        rw [htotal, ih h.tail]
        simp only [hsame]

/-! ## counting -/

/-- The blocks that end up free, in two parts. -/
theorem card_free (memory : Nat → BitVec 32) (mbi : MultibootInfo) (es : List MmapEntry)
    (image : KernelImage) :
    (pmmInitResult image memory mbi es).usedCount +
      (((Finset.range mbi.maxBlocks).filter fun b => edgeBlock image mbi ≤ b ∧ Freed es b).card +
        ((Finset.range mbi.maxBlocks).filter fun b =>
          edgeBlock image mbi ≤ b ∧ ¬ Freed es b ∧ Unset memory mbi b).card) = mbi.maxBlocks := by
  have hparts : (Finset.range mbi.maxBlocks).filter
        (fun b => ¬ (pmmInitResult image memory mbi es).isUsed b = true) =
      ((Finset.range mbi.maxBlocks).filter fun b => edgeBlock image mbi ≤ b ∧ Freed es b) ∪
        (Finset.range mbi.maxBlocks).filter fun b =>
          edgeBlock image mbi ≤ b ∧ ¬ Freed es b ∧ Unset memory mbi b := by
    ext b
    rw [Finset.mem_filter, isUsed_pmmInitResult, Finset.mem_union, Finset.mem_filter,
      Finset.mem_filter]
    by_cases hfreed : Freed es b
    · have hdec : decide (∃ e ∈ es, e.Frees b) = true := decide_eq_true hfreed
      simp [hdec, hfreed]
    · have hdec : decide (∃ e ∈ es, e.Frees b) = false := decide_eq_false hfreed
      simp [hdec, hfreed, Unset]
  have hdisj : Disjoint
      ((Finset.range mbi.maxBlocks).filter fun b => edgeBlock image mbi ≤ b ∧ Freed es b)
      ((Finset.range mbi.maxBlocks).filter fun b =>
        edgeBlock image mbi ≤ b ∧ ¬ Freed es b ∧ Unset memory mbi b) := by
    rw [Finset.disjoint_left]
    intro b hb hb'
    exact (Finset.mem_filter.mp hb').2.2.1 (Finset.mem_filter.mp hb).2.2
  have hsum := Finset.card_filter_add_card_filter_not (s := Finset.range mbi.maxBlocks)
    fun b => (pmmInitResult image memory mbi es).isUsed b = true
  rw [hparts, Finset.card_union_of_disjoint hdisj, Finset.card_range] at hsum
  rw [usedCount, maxBlocks_pmmInitResult]
  exact hsum

/-- The freed blocks below and above the edge. -/
theorem card_freed_split (mbi : MultibootInfo) (es : List MmapEntry) (edge : Nat)
    (hedge : edge ≤ mbi.maxBlocks) :
    ((Finset.range edge).filter (Freed es)).card +
      ((Finset.range mbi.maxBlocks).filter fun b => edge ≤ b ∧ Freed es b).card =
        ((Finset.range mbi.maxBlocks).filter (Freed es)).card := by
  have hparts : (Finset.range mbi.maxBlocks).filter (Freed es) =
      (Finset.range edge).filter (Freed es) ∪
        (Finset.range mbi.maxBlocks).filter fun b => edge ≤ b ∧ Freed es b := by
    ext b
    simp only [Finset.mem_filter, Finset.mem_union, Finset.mem_range]
    constructor
    · rintro ⟨hlt, hb⟩
      by_cases hlow : b < edge
      · exact .inl ⟨hlow, hb⟩
      · exact .inr ⟨hlt, Nat.le_of_not_lt hlow, hb⟩
    · rintro (⟨hlt, hb⟩ | ⟨hlt, -, hb⟩)
      · exact ⟨by omega, hb⟩
      · exact ⟨hlt, hb⟩
  rw [hparts, Finset.card_union_of_disjoint]
  rw [Finset.disjoint_left]
  intro b hb hb'
  have hlow := Finset.mem_range.mp (Finset.mem_filter.mp hb).1
  have hhigh := (Finset.mem_filter.mp hb').2.1
  omega

/-- The counter against the count, in the state that `pmm_init` leaves. -/
theorem pmmInitResult_counter_iff (memory : Nat → BitVec 32) (hwf : WellFormedMap mbi es)
    (hprot : image.endPhys + mbi.maxBlocks / 8 ≤ mbi.maxBlocks * pageSize) :
    (pmmInitResult image memory mbi es).usedBlocks = (pmmInitResult image memory mbi es).usedCount ↔
      (∀ b < edgeBlock image mbi, Freed es b) ∧
        ∀ b < mbi.maxBlocks, edgeBlock image mbi ≤ b → ¬ Freed es b → ¬ Unset memory mbi b := by
  have hedge : edgeBlock image mbi ≤ mbi.maxBlocks := by
    unfold edgeBlock pageSize at *
    omega
  have hmax := maxBlocks_lt mbi
  have hcounter := usedBlocks_pmmInitResult image memory mbi es
  have hlt := usedBlocks_pmmInitResult_lt image memory mbi es
  have htotal := freedTotal_eq_card hwf
  have hsplit := card_freed_split mbi es _ hedge
  have hfree := card_free memory mbi es image
  have hle := Finset.card_filter_le (Finset.range (edgeBlock image mbi)) (Freed es)
  rw [Finset.card_range] at hle
  have hall : ((Finset.range (edgeBlock image mbi)).filter (Freed es)).card = edgeBlock image mbi ↔
      ∀ b < edgeBlock image mbi, Freed es b := by
    have hiff := Finset.card_filter_eq_iff (s := Finset.range (edgeBlock image mbi)) (p := Freed es)
    rw [Finset.card_range] at hiff
    simpa only [Finset.mem_range] using hiff
  have hnone : ((Finset.range mbi.maxBlocks).filter fun b =>
        edgeBlock image mbi ≤ b ∧ ¬ Freed es b ∧ Unset memory mbi b).card = 0 ↔
      ∀ b < mbi.maxBlocks, edgeBlock image mbi ≤ b → ¬ Freed es b → ¬ Unset memory mbi b := by
    rw [Finset.card_eq_zero, Finset.filter_eq_empty_iff]
    simp only [Finset.mem_range, not_and]
  rw [← hall, ← hnone]
  omega

/-- **When the counter is exact.**  After `pmm_init` over a well-formed map whose
protected range ends below `max_blocks` blocks, `used_blocks` is the number of set
bits if and only if every whole block of the protected range had been freed by an
entry, and no other block is free merely because `memset` did not reach its bit. -/
theorem pmm_init_counter_iff (hmap : mbi.Lists image memory es) (hwf : WellFormedMap mbi es)
    (hprot : image.endPhys + mbi.maxBlocks / 8 ≤ mbi.maxBlocks * pageSize)
    (h : pmmInit image memory mbi fuel = .ok p) :
    p.usedBlocks = p.usedCount ↔
      (∀ b < edgeBlock image mbi, Freed es b) ∧
        ∀ b < mbi.maxBlocks, edgeBlock image mbi ≤ b → ¬ Freed es b → ¬ Unset memory mbi b := by
  obtain ⟨es', hmap', rfl⟩ := lists_of_pmmInit h
  obtain rfl := hmap.unique hmap'
  exact pmmInitResult_counter_iff memory hwf hprot

/-! ## two maps of a 4 MiB machine -/

/-- All memory is available. -/
def allMemory : MmapEntry := ⟨20, 0, 0x400000, 1⟩

def allMemoryMap : Nat → BitVec 32 := smallImage.withMap 0xC0009000 [allMemory]

theorem fourMiB_lists_all : fourMiB.Lists smallImage allMemoryMap [allMemory] :=
  Passes.lists (.entry (by decide) (by decide) (by decide) (by decide) (.done (by decide)))

theorem allMemory_wellFormed : WellFormedMap fourMiB [allMemory] where
  aligned := by decide
  below := by decide
  disjoint := List.pairwise_singleton _ _

theorem allMemory_freed (hb : b < 1024) : Freed [allMemory] b :=
  ⟨allMemory, List.mem_singleton_self _, rfl, Nat.zero_le _, hb⟩

theorem pmm_init_counter_iff_all_memory :
    ∃ p, pmmInit smallImage allMemoryMap fourMiB 2 = .ok p ∧ p.usedBlocks = p.usedCount := by
  have hinit : pmmInit smallImage allMemoryMap fourMiB 2 =
      .ok (pmmInitResult smallImage allMemoryMap fourMiB [allMemory]) :=
    pmmInit_of_lists fourMiB_lists_all (by decide)
  refine ⟨_, hinit, (pmm_init_counter_iff fourMiB_lists_all allMemory_wellFormed (by decide)
    hinit).mpr ⟨fun b hb => ?_, fun b hb _ hnot => absurd (allMemory_freed hb) hnot⟩⟩
  exact allMemory_freed (Nat.lt_trans hb (by decide))

/-- The usual hole below 1 MiB, with `upper` bytes behind it: the blocks from `0x9F` to `0xFF`
are in no entry. -/
def aroundHole (upper : Nat) : List MmapEntry := [⟨20, 0, 0x9F000, 1⟩, ⟨20, 0x100000, upper, 1⟩]

/-- `fourMiB` with a map of two entries. -/
def fourMiBHole : MultibootInfo := { fourMiB with mmapLength := 48 }

/-- The entries around the hole of `fourMiBHole`. -/
def holeEntries : List MmapEntry := aroundHole 0x300000

def holeMap : Nat → BitVec 32 := smallImage.withMap 0xC0009000 holeEntries

theorem holeEntries_listed : fourMiBHole.Lists smallImage holeMap holeEntries :=
  Passes.lists (.entry (by decide) (by decide) (by decide) (by decide)
    (.entry (by decide) (by decide) (by decide) (by decide) (.done (by decide))))

theorem holeEntries_wellFormed : WellFormedMap fourMiBHole holeEntries :=
  ⟨by decide, by decide, by decide⟩

/-- The blocks of the hole were used before they are protected, and are counted
twice. -/
theorem pmm_init_counts_hole_twice :
    ∃ es p, fourMiBHole.Lists smallImage holeMap es ∧ WellFormedMap fourMiBHole es ∧
      smallImage.endPhys + fourMiBHole.maxBlocks / 8 ≤ fourMiBHole.maxBlocks * pageSize ∧
      pmmInit smallImage holeMap fourMiBHole 3 = .ok p ∧ p.usedBlocks ≠ p.usedCount := by
  have hwf := holeEntries_wellFormed
  refine ⟨_, _, holeEntries_listed, hwf, by decide, pmmInit_of_lists holeEntries_listed (by decide),
    fun heq => ?_⟩
  have hfreed := ((pmmInitResult_counter_iff _ hwf (by decide)).mp heq).1 0x9F (by decide)
  revert hfreed
  decide

end NimbleOS
