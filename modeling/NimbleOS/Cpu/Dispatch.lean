import NimbleOS.Cpu.Idt
import NimbleOS.Cpu.Remap
import NimbleOS.Cpu.Stubs
import NimbleOS.Cpu.Syscall

/-!
# NimbleOS.Cpu.Dispatch

From an interrupt to its handler: the gates that `isr_init` and `irq_init` write, the way of
the processor through both descriptor tables, and the stub that it comes to.  Every interrupt
arrives with its own number; a user program has no way in but interrupt 0x30.
-/

namespace NimbleOS

/-! ## the gates -/

/-- `IDT_ENTRY_TYPE_32BIT_INTERRUPT_GATE`. -/
def idtInterruptGate : BitVec 8 := 0xE

def idtEntryPres (x : BitVec 8) : BitVec 8 := x <<< 7
def idtEntryPriv (x : BitVec 8) : BitVec 8 := (x &&& 3) <<< 5

def idtIntKernel : BitVec 8 := idtEntryPres 1 ||| idtEntryPriv 0 ||| idtInterruptGate
def idtIntUser : BitVec 8 := idtEntryPres 1 ||| idtEntryPriv 3 ||| idtInterruptGate

/-- The labels of `isr.S` and `irq.S`. -/
inductive StubLabel where
  | isr (num : Nat)
  | irq (num : Nat)
  deriving DecidableEq

/-- The label that the macro defines for its stub. -/
def Stub.label : Stub → StubLabel
  | .isrNoerr num => .isr num
  | .isrErr num => .isr num
  | .irq num _ => .irq num

/-- What is passed to `idt_set_entry`, but for the selector. -/
structure IdtGate where
  num : BitVec 8
  label : StubLabel
  flags : BitVec 8
  deriving DecidableEq

def isrInitGates : List IdtGate :=
  (List.range isrExceptionCount).map (fun n => ⟨BitVec.ofNat 8 n, .isr n, idtIntKernel⟩) ++
    [⟨48, .isr 48, idtIntUser⟩]

def irqInitGates : List IdtGate :=
  (List.range 16).map fun n => ⟨BitVec.ofNat 8 (irq0 + n), .irq n, idtIntKernel⟩

/-- The call that writes the gate, the linker having put the labels at `address`. -/
def IdtGate.write (address : StubLabel → BitVec 32) (g : IdtGate) : DescriptorWrite :=
  .idt g.num { base := address g.label, selector := gdtSelectorKernelCode, flags := g.flags }

/-- What `isr_init` and `irq_init` write. -/
def gateWrites (address : StubLabel → BitVec 32) : List DescriptorWrite :=
  (isrInitGates ++ irqInitGates).map (IdtGate.write address)

/-- `gdt_init`, `isr_init` and `irq_init`, in the order of `kernel_main`; `tss` is at `addr`. -/
def descriptorsInit (addr : BitVec 32) (address : StubLabel → BitVec 32) (s : Descriptors) :
    Except Halt Descriptors := do
  let gdt ← gdtInit addr s.gdt
  (gateWrites address).foldlM Descriptors.write { s with gdt := gdt }

/-- `idt_entries` as a static. -/
def Idt.zeroed : Idt :=
  .replicate _ { baseLow := 0, selector := 0, zero := 0, flags := 0, baseHigh := 0 }

/-! ## the processor -/

/-- What raises an interrupt: the controllers, the processor itself, with the error code of
some exceptions, or the instruction `int`. -/
inductive Raise where
  | external (i : Interrupt)
  | exception (v : BitVec 8) (error : Option (BitVec 32))
  | software (v : BitVec 8)

/-- Where the processor goes on, and the error code that it pushes. -/
structure Entry where
  vector : BitVec 8
  error : Option (BitVec 32)
  offset : BitVec 32
  selector : BitVec 16

/-- The error code that names a gate. -/
def gateError (v : BitVec 8) (external : Bool) : BitVec 32 :=
  (v.setWidth 32 <<< 3) ||| 2 ||| (if external then 1 else 0)

namespace Descriptors

def gateAt (s : Descriptors) (v : BitVec 8) : BitVec 64 := (s.idtAt v).bits

/-- The privilege that `int` needs. -/
def gatePrivilege (s : Descriptors) (v : BitVec 8) : BitVec 2 :=
  (gateFlags (s.gateAt v)).extractLsb' 5 2

def gatePresent (s : Descriptors) (v : BitVec 8) : Bool := (gateFlags (s.gateAt v)).getLsbD 7

/-- The selector is that of a present, non-conforming code segment of the kernel. -/
def kernelCode (s : Descriptors) (selector : BitVec 16) : Bool :=
  if h : selector.toNat / 8 < gdtCount then
    let d := (s.gdtAt ⟨selector.toNat / 8, h⟩).bits
    (descriptorAccess d).getLsbD 7 && (descriptorAccess d).extractLsb' 2 3 == 6#3 &&
      descriptorPrivilege d == 0#2
  else false

/-- Through a present gate; `none` if what is behind it is no 32-bit interrupt gate to the
kernel. -/
def enter (s : Descriptors) (v : BitVec 8) (error : Option (BitVec 32)) : Option Entry :=
  let gate := s.gateAt v
  if (gateFlags gate).extractLsb' 0 5 = 0xE#5 ∧ s.kernelCode (gateSelector gate) then
    some { vector := v, error := error, offset := gateOffset gate, selector := gateSelector gate }
  else none

/-- A gate that is not present is exception 11. -/
def enterPresent (s : Descriptors) (v : BitVec 8) (error : Option (BitVec 32)) (external : Bool) :
    Option Entry :=
  if s.gatePresent v then s.enter v error
  else if s.gatePresent 11 then s.enter 11 (some (gateError v external)) else none

/-- The processor with this code segment; `int` through a gate of more privilege is
exception 13. -/
def deliver (s : Descriptors) (cs : BitVec 16) : Raise → Option Entry
  | .external i => s.enterPresent (BitVec.ofNat 8 i.vector) none true
  | .exception v error => s.enterPresent v error true
  | .software v =>
      if (s.gatePrivilege v).setWidth 16 < privilege cs then
        s.enterPresent 13 (some (gateError v false)) true
      else s.enterPresent v none false

end Descriptors

/-! ## every slot -/

/-- What is passed for a slot. -/
def IdtGate.args (address : StubLabel → BitVec 32) (g : IdtGate) : IdtArgs :=
  { base := address g.label, selector := gdtSelectorKernelCode, flags := g.flags }

/-- The gate of each vector. -/
def gateOf (v : BitVec 8) : Option IdtGate :=
  if v < 32 then some ⟨v, .isr v.toNat, idtIntKernel⟩
  else if v < 48 then some ⟨v, .irq (v.toNat - irq0), idtIntKernel⟩
  else if v = 48 then some ⟨v, .isr 48, idtIntUser⟩
  else none

/-- No slot is written twice. -/
theorem last_gates (v : BitVec 8) :
    LastWrite.last (fun g : IdtGate => if g.num = v then some g else none)
      (isrInitGates ++ irqInitGates) = gateOf v := by
  revert v
  decide +kernel

theorem last_writes (address : StubLabel → BitVec 32) (v : BitVec 8) :
    LastWrite.last (DescriptorWrite.toIdt v) (gateWrites address) =
      (gateOf v).map (IdtGate.args address) := by
  rw [← last_gates, ← LastWrite.last_map, LastWrite.last, LastWrite.last, gateWrites,
    List.filterMap_map]
  congr 2
  funext g
  simp only [Function.comp_apply, IdtGate.write, DescriptorWrite.toIdt]
  split <;> rfl

/-- The stub behind the gate of a vector has the number of that vector. -/
theorem stub_of_gate {v : BitVec 8} (h : gateOf v = some g) :
    ∃ stub ∈ stubs, stub.label = g.label ∧ stub.vector = v.toNat := by
  have hall : ∀ v : BitVec 8, ∀ g ∈ gateOf v,
      ∃ stub ∈ stubs, stub.label = g.label ∧ stub.vector = v.toNat := by decide +kernel
  exact hall v g h

/-- Both tables as the three functions leave them. -/
structure Dispatching (address : StubLabel → BitVec 32) (s : Descriptors) : Prop where
  gates : ∀ v g, gateOf v = some g → (g.args address).Decoded (s.gateAt v)
  others : ∀ v, gateOf v = none → s.gateAt v = 0
  code : s.kernelCode gdtSelectorKernelCode = true

/-- No gate is written to the other table. -/
theorem last_writes_gdt (address : StubLabel → BitVec 32) (num : Fin gdtCount) :
    LastWrite.last (DescriptorWrite.toGdt num) (gateWrites address) = none := by
  have hnone : (DescriptorWrite.toGdt num) ∘ IdtGate.write address = fun _ => none := rfl
  rw [LastWrite.last, gateWrites, List.filterMap_map, hnone, List.filterMap_none]
  rfl

theorem kernelCode_of_entry {s : Descriptors} (h : s.gdtAt ⟨1, by decide⟩ =
    gdtEntry 0 0xFFFFFFFF gdtAccessKernelCode gdtSegFlags) :
    s.kernelCode gdtSelectorKernelCode = true := by
  have hslot : (gdtSelectorKernelCode : BitVec 16).toNat / 8 = 1 := rfl
  rw [Descriptors.kernelCode, dif_pos (by decide)]
  simp only [hslot, h]
  decide

theorem descriptorsInit_ok (addr : BitVec 32) (address : StubLabel → BitVec 32) (gdt : Gdt) :
    ∃ s, descriptorsInit addr address ⟨gdt, .zeroed⟩ = .ok s ∧ Dispatching address s := by
  obtain ⟨g, hg⟩ : ∃ g, gdtInit addr gdt = .ok g := ⟨_, rfl⟩
  obtain ⟨s, hs⟩ := LastWrite.exists_foldlM_ok Descriptors.exists_write (gateWrites address)
    ⟨g, .zeroed⟩
  have hidt := Descriptors.idtAt_writes hs
  have hgdt := Descriptors.gdtAt_writes hs
  simp only [last_writes] at hidt
  simp only [last_writes_gdt] at hgdt
  obtain ⟨-, hcode, -⟩ := gdtInit_entries hg
  have hinit : ∀ ws : List DescriptorWrite,
      (do let gdt ← gdtInit addr gdt
          ws.foldlM Descriptors.write ⟨gdt, .zeroed⟩) = ws.foldlM Descriptors.write ⟨g, .zeroed⟩ := by
    intro ws
    rw [hg]
    rfl
  refine ⟨s, (hinit _).trans hs, ⟨fun v gate hgate => ?_, fun v hnone => ?_, ?_⟩⟩
  · rw [Descriptors.gateAt, hidt v, hgate]
    exact (gate.args address).decoded_entry
  · have hzero : Descriptors.idtAt ⟨g, .zeroed⟩ v =
        { baseLow := 0, selector := 0, zero := 0, flags := 0, baseHigh := 0 } :=
      Vector.getElem_replicate _
    rw [Descriptors.gateAt, hidt v, hnone, Option.map_none, Option.map_none, Option.getD_none, hzero]
    decide
  · exact kernelCode_of_entry ((hgdt _).trans hcode)

/-! ## the way in -/

/-- The number and the error code that an interrupt of a user program, or of a device or the
processor, is to arrive with. -/
def Raise.arrival : Raise → BitVec 8 × BitVec 32
  | .external i => (BitVec.ofNat 8 i.vector, 0)
  | .exception v error => (v, error.getD 0)
  | .software v => if v = 48 then (48, 0) else (13, gateError v false)

/-- Exceptions are those of the vectors below 32, with an error code for those of `ISR_ERR`;
only user programs use `int`. -/
def Raise.Possible (cs : BitVec 16) : Raise → Prop
  | .external _ => True
  | .exception v error => v < 32 ∧ (error.isSome ↔ v.toNat ∈ [8, 10, 11, 12, 13, 14, 17, 30])
  | .software _ => privilege cs = 3

def IdtGate.entry (address : StubLabel → BitVec 32) (g : IdtGate) (v : BitVec 8)
    (error : Option (BitVec 32)) : Entry :=
  { vector := v, error := error, offset := address g.label, selector := gdtSelectorKernelCode }

section

variable {address : StubLabel → BitVec 32} {s : Descriptors} (hs : Dispatching address s)

include hs

theorem Dispatching.flags (h : gateOf v = some g) : gateFlags (s.gateAt v) = g.flags :=
  (hs.gates v g h).flags

/-- Every gate is present, and leads to the kernel. -/
theorem Dispatching.enterPresent (h : gateOf v = some g) (error : Option (BitVec 32))
    (external : Bool) : s.enterPresent v error external = some (g.entry address v error) := by
  have hflags : g.flags.getLsbD 7 = true ∧ g.flags.extractLsb' 0 5 = 0xE#5 := by
    have hall : ∀ v, ∀ g ∈ gateOf v, g.flags.getLsbD 7 = true ∧ g.flags.extractLsb' 0 5 = 0xE#5 := by
      decide +kernel
    exact hall v g h
  obtain ⟨hbase, hselector, -⟩ := hs.gates v g h
  have hselector' : gateSelector (s.gateAt v) = gdtSelectorKernelCode := hselector
  rw [Descriptors.enterPresent, Descriptors.gatePresent, hs.flags h, if_pos hflags.1,
    Descriptors.enter]
  simp only [hs.flags h, hflags.2, hselector', hs.code, hbase, and_self, if_true]
  rfl

/-- A user program is let through one gate. -/
theorem Dispatching.privilege_gate (hcs : privilege cs = 3) (v : BitVec 8) :
    (s.gatePrivilege v).setWidth 16 < privilege cs ↔ v ≠ 48 := by
  rw [hcs, Descriptors.gatePrivilege]
  cases h : gateOf v with
  | none =>
      have hne : v ≠ 48 := by
        rintro rfl
        cases h
      refine iff_of_true ?_ hne
      rw [hs.others v h]
      decide
  | some g =>
      have hall : ∀ v, ∀ g ∈ gateOf v,
          ((g.flags.extractLsb' 5 2).setWidth 16 < 3#16 ↔ v ≠ 48) := by decide +kernel
      rw [hs.flags h]
      exact hall v g h

end

/-- The gate that an interrupt goes through, and the error code that is pushed. -/
theorem deliver_eq {address : StubLabel → BitVec 32} {s : Descriptors} (hs : Dispatching address s)
    {r : Raise} (hr : r.Possible cs) :
    ∃ g error, gateOf r.arrival.1 = some g ∧
      s.deliver cs r = some (g.entry address r.arrival.1 error) ∧ error.getD 0 = r.arrival.2 ∧
      (error.isSome ↔ r.arrival.1.toNat ∈ [8, 10, 11, 12, 13, 14, 17, 30]) := by
  cases r with
  | external i =>
      have hall : ∀ i : Interrupt, ∃ g, gateOf (BitVec.ofNat 8 i.vector) = some g ∧
          (BitVec.ofNat 8 i.vector).toNat ∉ [8, 10, 11, 12, 13, 14, 17, 30] := by
        rintro (n | _ | _)
        · revert n
          decide
        · decide
        · decide
      obtain ⟨g, hg, hnot⟩ := hall i
      exact ⟨g, none, hg, hs.enterPresent hg none true, rfl,
        iff_of_false Bool.false_ne_true hnot⟩
  | exception v error =>
      obtain ⟨hv, herror⟩ := hr
      have hg : gateOf v = some ⟨v, .isr v.toNat, idtIntKernel⟩ := if_pos hv
      exact ⟨_, error, hg, hs.enterPresent hg error true, rfl, herror⟩
  | software v =>
      have hpriv := hs.privilege_gate hr v
      by_cases hv : v = 48
      · subst hv
        have hg : gateOf 48 = some ⟨48, .isr 48, idtIntUser⟩ := rfl
        refine ⟨_, none, hg, ?_, rfl, by decide⟩
        rw [Descriptors.deliver, if_neg fun h => hpriv.mp h rfl]
        exact hs.enterPresent hg none false
      · have hg : gateOf 13 = some ⟨13, .isr 13, idtIntKernel⟩ := rfl
        simp only [Raise.arrival, if_neg hv]
        refine ⟨_, some (gateError v false), hg, ?_, rfl, iff_of_true rfl (by decide)⟩
        rw [Descriptors.deliver, if_pos (hpriv.mpr hv)]
        exact hs.enterPresent hg _ true

/-- The vectors of the devices are theirs alone. -/
theorem arrival_external {r : Raise} (hr : r.Possible cs) :
    32 ≤ r.arrival.1.toNat ∧ r.arrival.1.toNat < 48 ↔ ∃ i, r = .external i := by
  cases r with
  | external i =>
      refine iff_of_true ?_ ⟨i, rfl⟩
      clear hr
      rcases i with n | _ | _
      · revert n
        decide
      · decide
      · decide
  | exception v error =>
      obtain ⟨hv, -⟩ := hr
      have hlt : v.toNat < 32 := hv
      exact iff_of_false (fun h => absurd h.1 (Nat.not_le.mpr hlt)) fun ⟨_, h⟩ => by cases h
  | software v =>
      refine iff_of_false ?_ fun ⟨_, h⟩ => by cases h
      rw [Raise.arrival]
      split
      · decide
      · exact fun h => absurd h.1 (show ¬ 32 ≤ 13 by decide)

/-- The stub of a vector drops the error code exactly where the processor pushes one. -/
theorem stub_error {stub : Stub} (hstub : stub ∈ stubs) (error : Option (BitVec 32))
    (h : error.isSome ↔ stub.vector ∈ [8, 10, 11, 12, 13, 14, 17, 30]) :
    error = stub.error (error.getD 0) ∧ stub.errorWord (error.getD 0) = error.getD 0 := by
  have hall : ∀ stub ∈ stubs, stub.error 0 ≠ none ↔
      stub.vector ∈ [8, 10, 11, 12, 13, 14, 17, 30] := by decide
  have hkind := h.trans (hall stub hstub).symm
  cases stub with
  | isrNoerr num =>
      cases error with
      | none => exact ⟨rfl, rfl⟩
      | some e => exact absurd rfl (hkind.mp rfl)
  | isrErr num =>
      cases error with
      | none => cases hkind.mpr (Option.some_ne_none _)
      | some e => exact ⟨rfl, rfl⟩
  | irq num remap =>
      cases error with
      | none => exact ⟨rfl, rfl⟩
      | some e => exact absurd rfl (hkind.mp rfl)

/-- **Every interrupt arrives**: with the tables that `gdt_init`, `isr_init` and `irq_init`
write, an interrupt of any kind, whatever the processor is doing, comes to a stub at its
address in the kernel's segment; the frame that the C handler finds names every register, and
it has the number and the error code of this interrupt.  It is `irq_handler` that is called
for the interrupts of devices, and for no others. -/
theorem interrupts_arrive (addr : BitVec 32) (address : StubLabel → BitVec 32) (gdt : Gdt) :
    ∃ s, descriptorsInit addr address ⟨gdt, .zeroed⟩ = .ok s ∧
      ∀ (c : Cpu) (r : Raise), r.Possible c.cs →
        ∃ e, s.deliver c.cs r = some e ∧ ∃ stub ∈ stubs, e.offset = address stub.label ∧
          e.selector = gdtSelectorKernelCode ∧ e.error = stub.error r.arrival.2 ∧
          (stub.isIrq = true ↔ ∃ i, r = .external i) ∧
          ∀ k : Surroundings,
            let d := stub.atCall k c r.arrival.2
            let regs := registersAt d.memory (d.word 0)
            Names stub c r.arrival.2 (d.word 0) regs ∧
              regs.intNo = r.arrival.1.toNat ∧ regs.errCode = r.arrival.2.toNat := by
  obtain ⟨s, hinit, hs⟩ := descriptorsInit_ok addr address gdt
  refine ⟨s, hinit, fun c r hr => ?_⟩
  obtain ⟨g, error, hg, hdeliver, hword, hpushed⟩ := deliver_eq hs hr
  obtain ⟨stub, hstub, hlabel, hvector⟩ := stub_of_gate hg
  rw [← hvector] at hpushed
  obtain ⟨herror, herrorWord⟩ := stub_error hstub error hpushed
  rw [hword] at herror herrorWord
  refine ⟨_, hdeliver, stub, hstub, congrArg address hlabel.symm, rfl, herror, ?_, fun k => ?_⟩
  · have hall : ∀ stub ∈ stubs, stub.isIrq = true ↔ 32 ≤ stub.vector ∧ stub.vector < 48 := by decide
    rw [hall stub hstub, hvector]
    exact arrival_external hr
  · have hnames := atCall_names k c r.arrival.2 hstub
    exact ⟨hnames, hnames.intNo.trans hvector, hnames.errCode.trans (congrArg _ herrorWord)⟩

/-- A user program that executes `int 14` gets no page fault: exception 13 names the gate. -/
theorem interrupts_arrive_int14 : ∃ stub ∈ stubs,
    let d := stub.atCall .idle .user 0x72
    let regs := registersAt d.memory (d.word 0)
    stub.isIrq = false ∧ regs.intNo = 13 ∧ regs.errCode = 8 * 14 + 2 := by
  obtain ⟨s, -, hall⟩ := interrupts_arrive 0x10A000 (fun _ => 0) .zeroed
  obtain ⟨e, -, stub, hstub, -, -, -, hirq, hframe⟩ :=
    hall .user (.software 14) (show privilege Cpu.user.cs = 3 by decide)
  obtain ⟨-, hintNo, herrCode⟩ := hframe .idle
  refine ⟨stub, hstub, ?_, hintNo, herrCode⟩
  rw [← Bool.not_eq_true, hirq]
  rintro ⟨i, ⟨⟩⟩

end NimbleOS
