import NimbleOS.Cpu.Gdt
import NimbleOS.Lib.LastWrite

/-!
# NimbleOS.Cpu.Idt

The interrupt descriptor table (`kernel/src/cpu/idt.c`, `kernel/include/kernel/idt.h`), and
what the processor decodes from both descriptor tables after any calls of the two functions
that write them: in every slot what was written last.
-/

namespace NimbleOS

/-- `ISR_COUNT`. -/
def isrCount : Nat := 256

/-- `idt_entry_t`. -/
structure IdtEntry where
  baseLow : BitVec 16
  selector : BitVec 16
  zero : BitVec 8
  flags : BitVec 8
  baseHigh : BitVec 16
  deriving DecidableEq

/-- `idt_entries`. -/
abbrev Idt := Vector IdtEntry isrCount

/-- The assignments of `idt_set_entry` to a slot, in their order. -/
def IdtEntry.assign (e : IdtEntry) (base : BitVec 32) (selector : BitVec 16) (flags : BitVec 8) :
    IdtEntry :=
  let e := { e with baseLow := (base &&& 0xFFFF).setWidth 16 }
  let e := { e with baseHigh := (base >>> 16).setWidth 16 }
  let e := { e with selector := selector }
  let e := { e with zero := 0 }
  { e with flags := flags }

/-- `idt_set_entry`; there is a slot for every value of `num`. -/
def idtSetEntry (t : Idt) (num : BitVec 8) (base : BitVec 32) (selector : BitVec 16)
    (flags : BitVec 8) : Idt :=
  t.set num.toNat ((t.get ⟨num.toNat, num.isLt⟩).assign base selector flags) num.isLt

/-! ## the processor's view -/

/-- The 8 bytes of an entry, as one little-endian word. -/
def IdtEntry.bits (e : IdtEntry) : BitVec 64 :=
  e.baseHigh ++ e.flags ++ e.zero ++ e.selector ++ e.baseLow

/-- Bits 0 to 15, and 48 to 63 above them. -/
def gateOffset (d : BitVec 64) : BitVec 32 := d.extractLsb' 48 16 ++ d.extractLsb' 0 16

def gateSelector (d : BitVec 64) : BitVec 16 := d.extractLsb' 16 16

def gateFlags (d : BitVec 64) : BitVec 8 := d.extractLsb' 40 8

theorem IdtEntry.offset_bits (e : IdtEntry) : gateOffset e.bits = e.baseHigh ++ e.baseLow := by
  ext i hi
  simp only [gateOffset, bits]
  grind

theorem IdtEntry.selector_bits (e : IdtEntry) : gateSelector e.bits = e.selector := by
  ext i hi
  simp only [gateSelector, bits]
  grind

theorem IdtEntry.flags_bits (e : IdtEntry) : gateFlags e.bits = e.flags := by
  ext i hi
  simp only [gateFlags, bits]
  grind

/-! ## decoding -/

/-- The arguments of `gdt_set_entry`, but for the slot. -/
structure GdtArgs where
  base : BitVec 32
  limit : BitVec 32
  access : BitVec 8
  flags : BitVec 8

/-- The arguments of `idt_set_entry`, but for the slot. -/
structure IdtArgs where
  base : BitVec 32
  selector : BitVec 16
  flags : BitVec 8

/-- The entry that these arguments make. -/
def GdtArgs.entry (w : GdtArgs) : GdtEntry := gdtEntry w.base w.limit w.access w.flags

def IdtArgs.entry (w : IdtArgs) : IdtEntry :=
  { baseLow := (w.base &&& 0xFFFF).setWidth 16
    selector := w.selector
    zero := 0
    flags := w.flags
    baseHigh := (w.base >>> 16).setWidth 16 }

/-- Nothing is left of what the slot held. -/
theorem IdtEntry.assign_eq (e : IdtEntry) (w : IdtArgs) :
    e.assign w.base w.selector w.flags = w.entry := rfl

/-- The processor decodes what was passed: the limit modulo `2 ^ 20`, and of the flags the
high nibble. -/
structure GdtArgs.Decoded (w : GdtArgs) (d : BitVec 64) : Prop where
  base : descriptorBase d = w.base
  limit : (descriptorLimit d).toNat = w.limit.toNat % 2 ^ 20
  access : descriptorAccess d = w.access
  flags : (descriptorFlags d).toNat = w.flags.toNat / 16

structure IdtArgs.Decoded (w : IdtArgs) (d : BitVec 64) : Prop where
  base : gateOffset d = w.base
  selector : gateSelector d = w.selector
  flags : gateFlags d = w.flags

theorem GdtArgs.decoded_entry (w : GdtArgs) : w.Decoded w.entry.bits where
  base := descriptorBase_gdtEntry w.base w.limit w.access w.flags
  limit := by rw [entry, descriptorLimit_gdtEntry, BitVec.toNat_setWidth]
  access := descriptorAccess_gdtEntry w.base w.limit w.access w.flags
  flags := by
    have hlt := w.flags.isLt
    rw [entry, descriptorFlags_gdtEntry, BitVec.extractLsb'_toNat, Nat.shiftRight_eq_div_pow]
    omega

/-- The two halves of the address. -/
theorem IdtArgs.base_entry (w : IdtArgs) :
    w.entry.baseHigh = w.base.extractLsb' 16 16 ∧ w.entry.baseLow = w.base.extractLsb' 0 16 := by
  refine ⟨?_, ?_⟩
  · ext i hi
    simp [entry]
  · have h := setWidth_and_mask w.base 0xFFFF 0 16 (by decide)
    rwa [BitVec.ushiftRight_zero] at h

theorem IdtArgs.decoded_entry (w : IdtArgs) : w.Decoded w.entry.bits where
  base := by
    obtain ⟨hhigh, hlow⟩ := w.base_entry
    rw [IdtEntry.offset_bits, hhigh, hlow]
    ext i hi
    grind
  selector := IdtEntry.selector_bits w.entry
  flags := IdtEntry.flags_bits w.entry

/-! ## sequences of writes -/

/-- The two tables. -/
structure Descriptors where
  gdt : Gdt
  idt : Idt

/-- A call that writes a slot. -/
inductive DescriptorWrite where
  | gdt (num : Fin gdtCount) (w : GdtArgs)
  | idt (num : BitVec 8) (w : IdtArgs)

namespace Descriptors

def write (s : Descriptors) : DescriptorWrite → Except Halt Descriptors
  | .gdt num w => do
      let gdt ← gdtSetEntry s.gdt num w.base w.limit w.access w.flags
      return { s with gdt := gdt }
  | .idt num w => return { s with idt := idtSetEntry s.idt num w.base w.selector w.flags }

/-- The entries of a slot of either table. -/
def gdtAt (s : Descriptors) (num : Fin gdtCount) : GdtEntry := s.gdt.entries.get num

def idtAt (s : Descriptors) (num : BitVec 8) : IdtEntry := s.idt.get ⟨num.toNat, num.isLt⟩

end Descriptors

/-- What the call passes for this slot. -/
def DescriptorWrite.toGdt (num : Fin gdtCount) : DescriptorWrite → Option GdtArgs
  | .gdt n w => if n = num then some w else none
  | .idt _ _ => none

def DescriptorWrite.toIdt (num : BitVec 8) : DescriptorWrite → Option IdtArgs
  | .gdt _ _ => none
  | .idt n w => if n = num then some w else none

namespace Descriptors

theorem gdtAt_write {s s' : Descriptors} (h : s.write x = .ok s') (num : Fin gdtCount) :
    s'.gdtAt num = ((x.toGdt num).map GdtArgs.entry).getD (s.gdtAt num) := by
  cases x with
  | gdt n w =>
      rw [write, gdtSetEntry, dif_pos n.isLt] at h
      cases h
      by_cases heq : n = num
      · subst heq
        rw [DescriptorWrite.toGdt, if_pos rfl]
        exact Vector.getElem_set_self n.isLt
      · rw [DescriptorWrite.toGdt, if_neg heq]
        exact Vector.getElem_set_ne n.isLt num.isLt fun h => heq (Fin.ext h)
  | idt n w =>
      cases h
      rfl

theorem idtAt_write {s s' : Descriptors} (h : s.write x = .ok s') (num : BitVec 8) :
    s'.idtAt num = ((x.toIdt num).map IdtArgs.entry).getD (s.idtAt num) := by
  cases x with
  | gdt n w =>
      rw [write, gdtSetEntry, dif_pos n.isLt] at h
      cases h
      rfl
  | idt n w =>
      cases h
      by_cases heq : n = num
      · subst heq
        rw [DescriptorWrite.toIdt, if_pos rfl]
        exact Vector.getElem_set_self n.isLt
      · rw [DescriptorWrite.toIdt, if_neg heq]
        exact Vector.getElem_set_ne n.isLt num.isLt fun h => heq (BitVec.eq_of_toNat_eq h)

theorem exists_write (s : Descriptors) (x : DescriptorWrite) : ∃ s', s.write x = .ok s' := by
  cases x with
  | gdt num w =>
      rw [write, gdtSetEntry, dif_pos num.isLt]
      exact ⟨_, rfl⟩
  | idt num w => exact ⟨_, rfl⟩

/-- Every slot holds what was written last. -/
theorem gdtAt_writes {s s' : Descriptors} (h : xs.foldlM write s = .ok s') (num : Fin gdtCount) :
    s'.gdtAt num = ((LastWrite.last (DescriptorWrite.toGdt num) xs).map GdtArgs.entry).getD
      (s.gdtAt num) := by
  have hstep : ∀ s x s', write s x = .ok s' → s'.gdtAt num =
      ((x.toGdt num).map GdtArgs.entry).getD (s.gdtAt num) := fun _ _ _ hx => gdtAt_write hx num
  have hlast := LastWrite.foldlM_field (fun s => s.gdtAt num) hstep h
  rwa [LastWrite.last_map] at hlast

theorem idtAt_writes {s s' : Descriptors} (h : xs.foldlM write s = .ok s') (num : BitVec 8) :
    s'.idtAt num = ((LastWrite.last (DescriptorWrite.toIdt num) xs).map IdtArgs.entry).getD
      (s.idtAt num) := by
  have hstep : ∀ s x s', write s x = .ok s' → s'.idtAt num =
      ((x.toIdt num).map IdtArgs.entry).getD (s.idtAt num) := fun _ _ _ hx => idtAt_write hx num
  have hlast := LastWrite.foldlM_field (fun s => s.idtAt num) hstep h
  rwa [LastWrite.last_map] at hlast

end Descriptors

/-- **Decoding undoes encoding**: after any writes to the two tables, whatever they held before,
the processor decodes from every slot what was passed for it last; a slot that no call wrote
is as it was. -/
theorem descriptors_decode (s : Descriptors) (xs : List DescriptorWrite) :
    ∃ s', xs.foldlM Descriptors.write s = .ok s' ∧
      (∀ num, match LastWrite.last (DescriptorWrite.toGdt num) xs with
        | some w => w.Decoded (s'.gdtAt num).bits
        | none => s'.gdtAt num = s.gdtAt num) ∧
      ∀ num, match LastWrite.last (DescriptorWrite.toIdt num) xs with
        | some w => w.Decoded (s'.idtAt num).bits
        | none => s'.idtAt num = s.idtAt num := by
  obtain ⟨s', h⟩ := LastWrite.exists_foldlM_ok Descriptors.exists_write xs s
  refine ⟨s', h, fun num => ?_, fun num => ?_⟩
  · have hgdt := Descriptors.gdtAt_writes h num
    cases hlast : LastWrite.last (DescriptorWrite.toGdt num) xs with
    | none =>
        rw [hlast] at hgdt
        exact hgdt
    | some w =>
        rw [hlast] at hgdt
        exact (congrArg (fun e => w.Decoded e.bits) hgdt).mpr w.decoded_entry
  · have hidt := Descriptors.idtAt_writes h num
    cases hlast : LastWrite.last (DescriptorWrite.toIdt num) xs with
    | none =>
        rw [hlast] at hidt
        exact hidt
    | some w =>
        rw [hlast] at hidt
        exact (congrArg (fun e => w.Decoded e.bits) hidt).mpr w.decoded_entry

end NimbleOS
