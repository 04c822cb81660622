import NimbleOS.Basic
import NimbleOS.Lib.Bitset
import NimbleOS.Lib.FirstFit

/-!
# NimbleOS.Pmm

The physical memory manager (`kernel/src/mem/pmm.c`): a bitmap with one bit for
each 4 KiB block, a counter of used blocks, the two searches over the bitmap and
the allocation and release calls on top of them.
-/

namespace NimbleOS

/-- The state of `pmm.c`.  The bitmap is the memory from `KERNEL_END` on; only
its first `maxBlocks` bits are meant to be used. -/
structure Pmm where
  bitmap : Nat → BitVec 32
  usedBlocks : Nat
  maxBlocks : Nat

namespace Pmm

/-- Block `b` is marked used. -/
def isUsed (p : Pmm) (b : Nat) : Bool := Bitset.test p.bitmap b

/-- Block `b` is marked free. -/
def isFree (p : Pmm) (b : Nat) : Bool := !p.isUsed b

/-- Number of blocks that the two searches look at: whole bitmap words only. -/
def scanned (p : Pmm) : Nat := 32 * (p.maxBlocks / 32)

end Pmm

/-! ## single bits -/

def mmapSet (p : Pmm) (bit : Nat) : Pmm :=
  { p with bitmap := Bitset.set p.bitmap bit, usedBlocks := u32 (p.usedBlocks + 1) }

def mmapUnset (p : Pmm) (bit : Nat) : Pmm :=
  { p with bitmap := Bitset.clear p.bitmap bit, usedBlocks := u32Sub p.usedBlocks 1 }

/-- The loop `for (i = 0; i < num; i++) mmap_set(first + i)`. -/
def mmapSetBlocks (p : Pmm) (first num : Nat) : Pmm :=
  (List.range num).foldl (fun p i => mmapSet p (u32 (first + i))) p

/-- The loop `for (i = 0; i < num; i++) mmap_unset(first + i)`. -/
def mmapUnsetBlocks (p : Pmm) (first num : Nat) : Pmm :=
  (List.range num).foldl (fun p i => mmapUnset p (u32 (first + i))) p

/-! ## the searches -/

/-- Inner loop of `mmap_find_free`: the first clear bit of `word` from bit `j`
on, with `r` bits left to look at. -/
def mmapFindFreeBit (word : BitVec 32) : (r j : Nat) → Option Nat
  | 0, _ => none
  | r + 1, j => if word &&& (1#32 <<< j) = 0#32 then some j else mmapFindFreeBit word r (j + 1)

/-- Outer loop of `mmap_find_free` from word `i` on, with `r` words left. -/
def mmapFindFreeFrom (p : Pmm) : (r i : Nat) → Nat
  | 0, _ => 0
  | r + 1, i =>
      if p.bitmap i ≠ 0xFFFFFFFF#32 then
        match mmapFindFreeBit (p.bitmap i) 32 0 with
        | some j => i * 32 + j
        | none => mmapFindFreeFrom p r (i + 1)
      else mmapFindFreeFrom p r (i + 1)

/-- The first free block, or 0. -/
def mmapFindFree (p : Pmm) : Nat := mmapFindFreeFrom p (p.maxBlocks / 32) 0

/-- Inner loop of `mmap_find_free_frame` over word `i`, from bit `j` on with `r`
bits left: either the `return first`, or `first` and `count` at the word's end. -/
def mmapScanWord (word : BitVec 32) (i frameSize : Nat) :
    (r j first count : Nat) → Nat ⊕ (Nat × Nat)
  | 0, _, first, count => .inr (first, count)
  | r + 1, j, first, count =>
      if word &&& (1#32 <<< j) = 0#32 then
        let first := if first = 0 then i * 32 + j else first
        let count := count + 1
        if count = frameSize then .inl first
        else mmapScanWord word i frameSize r (j + 1) first count
      else if 0 = frameSize then .inl 0
      else mmapScanWord word i frameSize r (j + 1) 0 0

/-- Outer loop of `mmap_find_free_frame` from word `i` on, with `r` words left. -/
def mmapScan (p : Pmm) (frameSize : Nat) : (r i first count : Nat) → Nat
  | 0, _, _, _ => 0
  | r + 1, i, first, count =>
      if p.bitmap i ≠ 0xFFFFFFFF#32 then
        match mmapScanWord (p.bitmap i) i frameSize 32 0 first count with
        | .inl found => found
        | .inr (first, count) => mmapScan p frameSize r (i + 1) first count
      else mmapScan p frameSize r (i + 1) 0 0

/-- The first of `frameSize` consecutive free blocks, or 0. -/
def mmapFindFreeFrame (p : Pmm) (frameSize : Nat) : Nat :=
  mmapScan p frameSize (p.maxBlocks / 32) 0 0 0

/-! ## allocation and release -/

def pmmAllocPage (p : Pmm) : Except Halt (Nat × Pmm) :=
  if u32Sub p.maxBlocks p.usedBlocks ≤ 0 then .error .outOfMemory
  else
    let block := mmapFindFree p
    if block = 0 then .ok (0, p)
    else .ok (u32 (block * pageSize), mmapSet p block)

def pmmAllocAlignedLargePage (p : Pmm) : Nat × Pmm :=
  if u32Sub p.maxBlocks p.usedBlocks < 2 * 1024 then (0, p)
  else
    let freeBlock := mmapFindFreeFrame p (2 * 1024)
    if freeBlock = 0 then (0, p)
    else
      let alignedBlock := (freeBlock / 1024 + 1) * 1024
      (u32 (alignedBlock * pageSize), mmapSetBlocks p alignedBlock 1024)

def pmmAllocPages (p : Pmm) (num : Nat) : Nat × Pmm :=
  if u32Sub p.maxBlocks p.usedBlocks < num then (0, p)
  else
    let firstBlock := mmapFindFreeFrame p num
    if firstBlock = 0 then (0, p)
    else (u32 (firstBlock * pageSize), mmapSetBlocks p firstBlock num)

def pmmFreePage (p : Pmm) (addr : Nat) : Pmm := mmapUnset p (addr / pageSize)

def pmmFreePages (p : Pmm) (addr num : Nat) : Pmm := mmapUnsetBlocks p (addr / pageSize) num

/-! ## laws of the bit operations -/

namespace Pmm

@[simp] theorem maxBlocks_mmapSet (p : Pmm) (b : Nat) : (mmapSet p b).maxBlocks = p.maxBlocks :=
  rfl

@[simp] theorem maxBlocks_mmapUnset (p : Pmm) (b : Nat) :
    (mmapUnset p b).maxBlocks = p.maxBlocks := rfl

theorem isUsed_mmapSet (p : Pmm) (b c : Nat) :
    (mmapSet p b).isUsed c = (decide (c = b) || p.isUsed c) := Bitset.test_set _ _ _

theorem isUsed_mmapUnset (p : Pmm) (b c : Nat) :
    (mmapUnset p b).isUsed c = (decide (c ≠ b) && p.isUsed c) := Bitset.test_clear _ _ _

/-- Number of blocks below the bound that are marked used. -/
def usedCount (p : Pmm) : Nat := Bitset.card p.bitmap p.maxBlocks

theorem usedCount_mmapSet (p : Pmm) (hb : b < p.maxBlocks) (hfree : p.isUsed b = false) :
    (mmapSet p b).usedCount = p.usedCount + 1 := Bitset.card_set _ _ hb hfree

theorem usedCount_mmapUnset (p : Pmm) (hb : b < p.maxBlocks) (hused : p.isUsed b = true) :
    (mmapUnset p b).usedCount + 1 = p.usedCount := Bitset.card_clear _ _ hb hused

/-! ### ranges of blocks -/

theorem mmapSetBlocks_succ (p : Pmm) (first num : Nat) :
    mmapSetBlocks p first (num + 1) =
      mmapSet (mmapSetBlocks p first num) (u32 (first + num)) := by
  simp [mmapSetBlocks, List.range_succ, List.foldl_append]

theorem mmapUnsetBlocks_succ (p : Pmm) (first num : Nat) :
    mmapUnsetBlocks p first (num + 1) =
      mmapUnset (mmapUnsetBlocks p first num) (u32 (first + num)) := by
  simp [mmapUnsetBlocks, List.range_succ, List.foldl_append]

@[simp] theorem maxBlocks_mmapSetBlocks (p : Pmm) (first num : Nat) :
    (mmapSetBlocks p first num).maxBlocks = p.maxBlocks := by
  induction num with
  | zero => rfl
  | succ num ih => rw [mmapSetBlocks_succ, maxBlocks_mmapSet, ih]

@[simp] theorem maxBlocks_mmapUnsetBlocks (p : Pmm) (first num : Nat) :
    (mmapUnsetBlocks p first num).maxBlocks = p.maxBlocks := by
  induction num with
  | zero => rfl
  | succ num ih => rw [mmapUnsetBlocks_succ, maxBlocks_mmapUnset, ih]

/-- Setting a range marks exactly its blocks. -/
theorem isUsed_mmapSetBlocks (p : Pmm) (hlt : first + num ≤ 2 ^ 32) (c : Nat) :
    (mmapSetBlocks p first num).isUsed c =
      (decide (first ≤ c ∧ c < first + num) || p.isUsed c) := by
  induction num with
  | zero => simp [mmapSetBlocks]
  | succ num ih =>
      rw [mmapSetBlocks_succ, isUsed_mmapSet, ih (by omega), u32_of_lt (by omega)]
      cases p.isUsed c with
      | true => simp
      | false => simp only [Bool.or_false, ← Bool.decide_or]; congr 1; grind

/-- Clearing a range frees exactly its blocks. -/
theorem isUsed_mmapUnsetBlocks (p : Pmm) (hlt : first + num ≤ 2 ^ 32) (c : Nat) :
    (mmapUnsetBlocks p first num).isUsed c =
      (!decide (first ≤ c ∧ c < first + num) && p.isUsed c) := by
  induction num with
  | zero => simp [mmapUnsetBlocks]; omega
  | succ num ih =>
      rw [mmapUnsetBlocks_succ, isUsed_mmapUnset, ih (by omega), u32_of_lt (by omega)]
      cases p.isUsed c with
      | false => simp
      | true => grind

end Pmm

end NimbleOS
