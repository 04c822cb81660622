import NimbleOS.Basic
import Mathlib.Data.Vector.Basic

/-!
# NimbleOS.Cpu.Gdt

The global descriptor table and the task state segment (`kernel/src/cpu/gdt.c`,
`kernel/include/kernel/gdt.h`).  The fields of an entry are those of the packed structure;
the processor sees the 64 bits that they make up, and takes base and limit from the places
that its layout gives them.
-/

namespace NimbleOS

/-- `gdt_entry_t`. -/
structure GdtEntry where
  limitLow : BitVec 16
  baseLow : BitVec 16
  baseMiddle : BitVec 8
  access : BitVec 8
  limitAndFlags : BitVec 8
  baseHigh : BitVec 8
  deriving DecidableEq

/-- The number of elements of `gdt_entries`. -/
def gdtCount : Nat := 6

/-- What `gdt_write_tss` writes into `tss`; the other fields of `tss_entry_t` become 0. -/
structure TssEntry where
  esp0 : BitVec 32
  ss0 : BitVec 32
  es : BitVec 32
  cs : BitVec 32
  ss : BitVec 32
  ds : BitVec 32
  fs : BitVec 32
  gs : BitVec 32
  iomapBase : BitVec 16

/-- `sizeof(tss_entry_t)`: 25 fields of 4 bytes, `trap` and `iomap_base` of 2, and `ssp`. -/
def tssSize : Nat := 25 * 4 + 2 + 2 + 4

/-- `gdt_entries` and `tss`. -/
structure Gdt where
  entries : Vector GdtEntry gdtCount
  tss : TssEntry

/-- `GDT_SELECTOR_KERNEL_CODE`, a macro: it has the width of its place. -/
def gdtSelectorKernelCode : BitVec w := 0x08
def gdtSelectorKernelData : BitVec w := 0x10

/-- `GDT_ACCESS_KERNEL_CODE` and the other access bytes. -/
def gdtAccessKernelCode : BitVec 8 := 0x9A
def gdtAccessKernelData : BitVec 8 := 0x92
def gdtAccessUserCode : BitVec 8 := 0xFA
def gdtAccessUserData : BitVec 8 := 0xF2

/-- `GDT_SEG_FLAGS`. -/
def gdtSegFlags : BitVec 8 := 0xC0

/-- `GDT_TSS_ACCESS`. -/
def gdtTssAccess : BitVec 8 := 0xE9

/-- The entry that `gdt_set_entry` leaves in a slot; every field of it is assigned. -/
def gdtEntry (base limit : BitVec 32) (access flags : BitVec 8) : GdtEntry :=
  { baseLow := (base &&& 0xFFFF).setWidth 16
    baseMiddle := (base >>> 16 &&& 0xFF).setWidth 8
    baseHigh := (base >>> 24).setWidth 8
    limitLow := (limit &&& 0xFFFF).setWidth 16
    limitAndFlags := (limit >>> 16 &&& 0x0F).setWidth 8 ||| (flags &&& 0xF0)
    access := access }

/-- The assignments of `gdt_set_entry` to a slot, in their order. -/
def GdtEntry.assign (e : GdtEntry) (base limit : BitVec 32) (access flags : BitVec 8) : GdtEntry :=
  let e := { e with baseLow := (base &&& 0xFFFF).setWidth 16 }
  let e := { e with baseMiddle := (base >>> 16 &&& 0xFF).setWidth 8 }
  let e := { e with baseHigh := (base >>> 24).setWidth 8 }
  let e := { e with limitLow := (limit &&& 0xFFFF).setWidth 16 }
  let e := { e with limitAndFlags := (limit >>> 16 &&& 0x0F).setWidth 8 }
  let e := { e with limitAndFlags := e.limitAndFlags ||| (flags &&& 0xF0) }
  { e with access := access }

/-- Nothing is left of what the slot held. -/
theorem GdtEntry.assign_eq (e : GdtEntry) (base limit : BitVec 32) (access flags : BitVec 8) :
    e.assign base limit access flags = gdtEntry base limit access flags := rfl

def gdtSetEntry (g : Gdt) (num : Nat) (base limit : BitVec 32) (access flags : BitVec 8) :
    Except Halt Gdt :=
  if h : num < gdtCount then
    .ok { g with entries := g.entries.set num (g.entries[num].assign base limit access flags) h }
  else .error .outOfBounds

/-- `gdt_write_tss`; `tss` is at the address `addr`. -/
def gdtWriteTss (addr : BitVec 32) (g : Gdt) (num : Nat) (ss0 esp0 : BitVec 32) :
    Except Halt Gdt := do
  let base := addr
  let limit := base + BitVec.ofNat 32 tssSize
  let g ← gdtSetEntry g num base limit gdtTssAccess 0
  return { g with tss :=
    { esp0 := esp0
      ss0 := ss0
      cs := gdtSelectorKernelCode ||| 3
      ss := gdtSelectorKernelData ||| 3
      ds := gdtSelectorKernelData ||| 3
      es := gdtSelectorKernelData ||| 3
      fs := gdtSelectorKernelData ||| 3
      gs := gdtSelectorKernelData ||| 3
      iomapBase := BitVec.ofNat 16 tssSize } }

/-- `gdt_init`, up to the loading of the two registers. -/
def gdtInit (addr : BitVec 32) (g : Gdt) : Except Halt Gdt := do
  let g ← gdtSetEntry g 0 0 0 0 0
  let g ← gdtSetEntry g 1 0 0xFFFFFFFF gdtAccessKernelCode gdtSegFlags
  let g ← gdtSetEntry g 2 0 0xFFFFFFFF gdtAccessKernelData gdtSegFlags
  let g ← gdtSetEntry g 3 0 0xFFFFFFFF gdtAccessUserCode gdtSegFlags
  let g ← gdtSetEntry g 4 0 0xFFFFFFFF gdtAccessUserData gdtSegFlags
  gdtWriteTss addr g 5 gdtSelectorKernelData 0

/-! ## the processor's view -/

/-- The 8 bytes of an entry, as one little-endian word. -/
def GdtEntry.bits (e : GdtEntry) : BitVec 64 :=
  e.baseHigh ++ e.limitAndFlags ++ e.access ++ e.baseMiddle ++ e.baseLow ++ e.limitLow

/-- Bits 16 to 39, and 56 to 63 above them. -/
def descriptorBase (d : BitVec 64) : BitVec 32 := d.extractLsb' 56 8 ++ d.extractLsb' 16 24

/-- Bits 0 to 15, and 48 to 51 above them. -/
def descriptorLimit (d : BitVec 64) : BitVec 20 := d.extractLsb' 48 4 ++ d.extractLsb' 0 16

def descriptorFlags (d : BitVec 64) : BitVec 4 := d.extractLsb' 52 4

def descriptorAccess (d : BitVec 64) : BitVec 8 := d.extractLsb' 40 8

/-- The privilege level that a segment is for: two bits of the access byte. -/
def descriptorPrivilege (d : BitVec 64) : BitVec 2 := (descriptorAccess d).extractLsb' 5 2

/-- The offset of the last byte of the segment: with the granularity bit, pages are counted. -/
def segmentLimit (d : BitVec 64) : Nat :=
  if (descriptorFlags d).getLsbD 3 then (descriptorLimit d).toNat * 4096 + 4095
  else (descriptorLimit d).toNat

/-! ### the entry, bit by bit -/

/-- A mask of `n` ones, behind a shift, picks the bits from there on. -/
theorem setWidth_and_mask (x m : BitVec 32) (k n : Nat) (hm : ∀ i, i < n → m.getLsbD i = true) :
    (x >>> k &&& m).setWidth n = x.extractLsb' k n := by
  ext i hi
  rw [BitVec.getElem_setWidth, BitVec.getLsbD_and, BitVec.getLsbD_ushiftRight, hm i hi, Bool.and_true,
    BitVec.getElem_extractLsb']

theorem gdtEntry_base (base limit : BitVec 32) (access flags : BitVec 8) :
    (gdtEntry base limit access flags).baseHigh = base.extractLsb' 24 8 ∧
      (gdtEntry base limit access flags).baseMiddle = base.extractLsb' 16 8 ∧
      (gdtEntry base limit access flags).baseLow = base.extractLsb' 0 16 := by
  refine ⟨?_, setWidth_and_mask base 0xFF 16 8 (by decide), ?_⟩
  · ext i hi
    simp [gdtEntry]
  · have h := setWidth_and_mask base 0xFFFF 0 16 (by decide)
    rwa [BitVec.ushiftRight_zero] at h

theorem gdtEntry_limitLow (base limit : BitVec 32) (access flags : BitVec 8) :
    (gdtEntry base limit access flags).limitLow = limit.extractLsb' 0 16 := by
  have h := setWidth_and_mask limit 0xFFFF 0 16 (by decide)
  rwa [BitVec.ushiftRight_zero] at h

/-- The low half of the byte belongs to the limit, the high half to the flags. -/
theorem gdtEntry_limitAndFlags (base limit : BitVec 32) (access flags : BitVec 8) :
    (gdtEntry base limit access flags).limitAndFlags =
      flags.extractLsb' 4 4 ++ limit.extractLsb' 16 4 := by
  have hlow : ∀ i, i < 8 → (0x0F : BitVec 32).getLsbD i = decide (i < 4) := by decide
  have hhigh : ∀ i, i < 8 → (0xF0 : BitVec 8).getLsbD i = decide (4 ≤ i) := by decide
  refine BitVec.eq_of_getLsbD_eq fun i hi => ?_
  simp only [gdtEntry, BitVec.getLsbD_or, BitVec.getLsbD_setWidth, BitVec.getLsbD_and,
    BitVec.getLsbD_ushiftRight, BitVec.getLsbD_append, BitVec.getLsbD_extractLsb', hlow i hi,
    hhigh i hi]
  by_cases h4 : i < 4
  · simp [hi, h4, show ¬ 4 ≤ i by omega]
  · simp [h4, show 4 ≤ i by omega, show i - 4 < 4 by omega, show 4 + (i - 4) = i by omega]

theorem GdtEntry.base_bits (e : GdtEntry) :
    descriptorBase e.bits = e.baseHigh ++ e.baseMiddle ++ e.baseLow := by
  ext i hi
  simp only [descriptorBase, bits]
  grind

theorem GdtEntry.limit_bits (e : GdtEntry) :
    descriptorLimit e.bits = e.limitAndFlags.extractLsb' 0 4 ++ e.limitLow := by
  ext i hi
  simp only [descriptorLimit, bits]
  grind

theorem GdtEntry.flags_bits (e : GdtEntry) : descriptorFlags e.bits = e.limitAndFlags.extractLsb' 4 4 := by
  ext i hi
  simp only [descriptorFlags, bits]
  grind

theorem GdtEntry.access_bits (e : GdtEntry) : descriptorAccess e.bits = e.access := by
  ext i hi
  simp only [descriptorAccess, bits]
  grind

/-- **The base** is decoded as it was given. -/
theorem descriptorBase_gdtEntry (base limit : BitVec 32) (access flags : BitVec 8) :
    descriptorBase (gdtEntry base limit access flags).bits = base := by
  obtain ⟨hhigh, hmiddle, hlow⟩ := gdtEntry_base base limit access flags
  rw [GdtEntry.base_bits, hhigh, hmiddle, hlow]
  ext i hi
  grind

/-- **The limit** is decoded modulo `2 ^ 20`. -/
theorem descriptorLimit_gdtEntry (base limit : BitVec 32) (access flags : BitVec 8) :
    descriptorLimit (gdtEntry base limit access flags).bits = limit.setWidth 20 := by
  rw [GdtEntry.limit_bits, gdtEntry_limitAndFlags, gdtEntry_limitLow]
  ext i hi
  grind

theorem descriptorFlags_gdtEntry (base limit : BitVec 32) (access flags : BitVec 8) :
    descriptorFlags (gdtEntry base limit access flags).bits = flags.extractLsb' 4 4 := by
  rw [GdtEntry.flags_bits, gdtEntry_limitAndFlags]
  ext i hi
  grind

theorem descriptorAccess_gdtEntry (base limit : BitVec 32) (access flags : BitVec 8) :
    descriptorAccess (gdtEntry base limit access flags).bits = access := GdtEntry.access_bits _

/-- The entries that `gdt_init` leaves, but for the one of the task state segment. -/
theorem gdtInit_entries (h : gdtInit addr g = .ok g') :
    g'.entries[0] = gdtEntry 0 0 0 0 ∧
      g'.entries[1] = gdtEntry 0 0xFFFFFFFF gdtAccessKernelCode gdtSegFlags ∧
      g'.entries[2] = gdtEntry 0 0xFFFFFFFF gdtAccessKernelData gdtSegFlags ∧
      g'.entries[3] = gdtEntry 0 0xFFFFFFFF gdtAccessUserCode gdtSegFlags ∧
      g'.entries[4] = gdtEntry 0 0xFFFFFFFF gdtAccessUserData gdtSegFlags := by
  cases h
  simp [GdtEntry.assign_eq]

/-! ## the task state segment -/

/-- The processor's view of the segment is the structure: base, limit, and the I/O permission
map behind the limit, so that no port is open in user mode. -/
def TssDescribed (addr : BitVec 32) (g : Gdt) (num : Fin gdtCount) : Prop :=
  let d := (g.entries[num]).bits
  descriptorBase d = addr ∧ segmentLimit d = tssSize - 1 ∧ segmentLimit d < g.tss.iomapBase.toNat

/-- What `gdt_write_tss` stores in its slot. -/
theorem gdtWriteTss_spec (addr : BitVec 32) (g : Gdt) (num : Fin gdtCount) (ss0 esp0 : BitVec 32) :
    ∃ g', gdtWriteTss addr g num ss0 esp0 = .ok g' ∧
      g'.entries[num] = gdtEntry addr (addr + BitVec.ofNat 32 tssSize) gdtTssAccess 0 ∧
      g'.tss.iomapBase.toNat = tssSize := by
  rw [gdtWriteTss, gdtSetEntry, dif_pos num.isLt]
  refine ⟨_, rfl, ?_, rfl⟩
  exact Vector.getElem_set_self num.isLt

/-- The limit in the descriptor is the address behind the structure, cut to 20 bits. -/
theorem segmentLimit_tss (addr : BitVec 32) :
    segmentLimit (gdtEntry addr (addr + BitVec.ofNat 32 tssSize) gdtTssAccess 0).bits =
      (addr.toNat + tssSize) % 2 ^ 20 := by
  have hgranularity : ¬ ((0 : BitVec 8).extractLsb' 4 4).getLsbD 3 = true := by decide
  rw [segmentLimit, descriptorFlags_gdtEntry, if_neg hgranularity, descriptorLimit_gdtEntry,
    BitVec.toNat_setWidth, BitVec.toNat_add, BitVec.toNat_ofNat]
  simp only [tssSize]
  omega

/-- **The descriptor of the TSS** is right exactly if the structure starts at the last byte of
a mebibyte. -/
theorem gdt_write_tss_iff (addr : BitVec 32) (g : Gdt) (num : Fin gdtCount) (ss0 esp0 : BitVec 32) :
    ∃ g', gdtWriteTss addr g num ss0 esp0 = .ok g' ∧
      (TssDescribed addr g' num ↔ addr.toNat % 2 ^ 20 = 2 ^ 20 - 1) := by
  obtain ⟨g', hwrite, hentry, hiomap⟩ := gdtWriteTss_spec addr g num ss0 esp0
  refine ⟨g', hwrite, ?_⟩
  rw [TssDescribed, hentry, descriptorBase_gdtEntry, segmentLimit_tss, hiomap]
  simp only [tssSize, true_and]
  constructor
  · rintro ⟨hlimit, -⟩
    omega
  · intro haddr
    exact ⟨by omega, by omega⟩

/-- The slot that `gdt_init` gives to the task state segment. -/
def gdtTssSlot : Fin gdtCount := ⟨5, by decide⟩

/-- A table of zeros. -/
def Gdt.zeroed : Gdt :=
  { entries := .replicate _ (gdtEntry 0 0 0 0)
    tss := { esp0 := 0, ss0 := 0, es := 0, cs := 0, ss := 0, ds := 0, fs := 0, gs := 0, iomapBase := 0 } }

/-- At `0xC0105000` the limit comes out as `0x506C`. -/
theorem gdt_write_tss_too_long : ¬ ∃ g',
    gdtWriteTss 0xC0105000 .zeroed gdtTssSlot gdtSelectorKernelData 0 = .ok g' ∧
      TssDescribed 0xC0105000 g' gdtTssSlot := by
  rintro ⟨g', hwrite, -, hlimit, -⟩
  obtain ⟨g'', hwrite', hentry, -⟩ :=
    gdtWriteTss_spec 0xC0105000 .zeroed gdtTssSlot gdtSelectorKernelData 0
  obtain rfl : g'' = g' := Except.ok.inj (hwrite'.symm.trans hwrite)
  rw [hentry, segmentLimit_tss] at hlimit
  revert hlimit
  decide

end NimbleOS
