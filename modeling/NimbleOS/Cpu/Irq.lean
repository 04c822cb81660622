import NimbleOS.Basic
import Mathlib.Data.Fintype.Basic

/-!
# NimbleOS.Cpu.Irq

The two cascaded interrupt controllers and the interrupt requests that reach
`irq_handler` (`kernel/src/cpu/irq.c`, `kernel/include/kernel/irq.h`).

The handler runs with interrupts disabled up to its last statement, so requests
are served one after the other, a request that arrives while a handler is running
or after one that did not return included: the state in which it is accepted is
the one in which the handler was called, since no handler writes to the
controllers.
-/

namespace NimbleOS

/-! ## the controllers -/

/-- An 8259: the requests in service, pending and masked, and which of the first
two a read of the command port returns. -/
structure Pic where
  isr : BitVec 8
  irr : BitVec 8
  imr : BitVec 8
  readIsr : Bool

def picEoi : BitVec 8 := 0x20
def picIsr : BitVec 8 := 0x0B

namespace Pic

/-- The request of the highest priority in service: the lowest bit. -/
def highest (p : Pic) : Option (Fin 8) := (List.finRange 8).find? fun i => p.isr.getLsbD i

/-- A non-specific end of interrupt. -/
def endOfInterrupt (p : Pic) : Pic :=
  match p.highest with
  | some i => { p with isr := p.isr &&& ~~~(1#8 <<< i.val) }
  | none => p

/-- A request is accepted: it is in service, and no longer pending. -/
def accept (p : Pic) (i : Fin 8) : Pic :=
  { p with isr := p.isr ||| 1#8 <<< i.val, irr := p.irr &&& ~~~(1#8 <<< i.val) }

/-- A write to the command port, outside of initialization. -/
def command (p : Pic) (data : BitVec 8) : Pic :=
  if data = picEoi then p.endOfInterrupt
  else if data = picIsr then { p with readIsr := true }
  else p

/-- A read of the command port. -/
def status (p : Pic) : BitVec 8 := if p.readIsr then p.isr else p.irr

end Pic

/-- The controllers, master and slave, and `irq_handlers`. -/
structure IrqState (H : Type) where
  pic1 : Pic
  pic2 : Pic
  handlers : Nat → Option H

variable {H : Type}

def pic1Cmd : Nat := 0x20
def pic1Data : Nat := 0x21
def pic2Cmd : Nat := 0xA0
def pic2Data : Nat := 0xA1

def outportb (s : IrqState H) (port : Nat) (data : BitVec 8) : IrqState H :=
  if port = pic1Cmd then { s with pic1 := s.pic1.command data }
  else if port = pic2Cmd then { s with pic2 := s.pic2.command data }
  else if port = pic1Data then { s with pic1 := { s.pic1 with imr := data } }
  else if port = pic2Data then { s with pic2 := { s.pic2 with imr := data } }
  else s

def inportb (s : IrqState H) (port : Nat) : BitVec 8 :=
  if port = pic1Cmd then s.pic1.status
  else if port = pic2Cmd then s.pic2.status
  else if port = pic1Data then s.pic1.imr
  else if port = pic2Data then s.pic2.imr
  else 0xFF

/-! ## irq.h -/

def irq0 : Nat := 32
def irq7 : Nat := 39
def irq15 : Nat := 47

def irqSendEoi (s : IrqState H) (irq : Nat) : IrqState H :=
  let s := if irq > irq7 then outportb s pic2Cmd picEoi else s
  outportb s pic1Cmd picEoi

/-- The in-service registers of both controllers, the slave's in the high byte. -/
def irqGetIsr (s : IrqState H) : BitVec 16 × IrqState H :=
  let s := outportb s pic1Cmd picIsr
  let s := outportb s pic2Cmd picIsr
  ((inportb s pic2Cmd).setWidth 16 <<< 8 ||| (inportb s pic1Cmd).setWidth 16, s)

/-! ## irq.c -/

/-- What `irq_handler` does besides programming the controllers. -/
inductive IrqAction (H : Type) where
  /-- It calls the handler, the controllers being in this state. -/
  | call (handler : H) (s : IrqState H)
  | print (text : String)

/-- `uint8_t current_irq_mask = 1 << (irq - IRQ0)`. -/
def currentIrqMask (irq : Nat) : BitVec 8 := (1#32 <<< u32Sub irq irq0).setWidth 8

/-- The test for a spurious interrupt; it leaves the in-service registers selected. -/
def irqIsSpurious (s : IrqState H) (irq : Nat) : Bool × IrqState H :=
  if irq = irq7 ∨ irq = irq15 then
    let (activeIrqMask, s) := irqGetIsr s
    (activeIrqMask &&& (currentIrqMask irq).setWidth 16 = 0, s)
  else (false, s)

/-- `irq_handler`, `irq` being the vector that the stub pushed. -/
def irqHandler (s : IrqState H) (irq : Nat) : IrqState H × List (IrqAction H) :=
  match irqIsSpurious s irq with
  | (true, s) => (if irq = irq15 then outportb s pic1Cmd picEoi else s, [])
  | (false, s) =>
      let s := irqSendEoi s irq
      match s.handlers (u32Sub irq irq0) with
      | some handler => (s, [.call handler s])
      | none =>
          (s, [.print ("[IRQ] Unhandled IRQ" ++ toString (u32Sub irq irq0) ++ "\n")])

/-- `irq_register_handler`: the first handler of a line stays. -/
def irqRegisterHandler (s : IrqState H) (irq : Nat) (handler : H) : Except Halt (IrqState H) :=
  if irq ≥ irq0 ∧ irq ≤ irq15 then
    match s.handlers (irq - irq0) with
    | none =>
        .ok { s with handlers := fun n => if n = irq - irq0 then some handler else s.handlers n }
    | some _ => .ok s
  else .error .assertion

/-! ## the test for a spurious interrupt -/

/-- Programming a controller to show its in-service register does not change it. -/
theorem irqGetIsr_spec (s : IrqState H) :
    (irqGetIsr s).1 = s.pic2.isr.setWidth 16 <<< 8 ||| s.pic1.isr.setWidth 16 ∧
      (irqGetIsr s).2.pic1.isr = s.pic1.isr ∧ (irqGetIsr s).2.pic2.isr = s.pic2.isr ∧
      (irqGetIsr s).2.handlers = s.handlers := by
  refine ⟨rfl, rfl, rfl, rfl⟩

/-- The test leaves the in-service registers and the handlers alone. -/
theorem irqIsSpurious_same (s : IrqState H) (irq : Nat) :
    (irqIsSpurious s irq).2.pic1.isr = s.pic1.isr ∧
      (irqIsSpurious s irq).2.pic2.isr = s.pic2.isr ∧
      (irqIsSpurious s irq).2.handlers = s.handlers := by
  obtain ⟨-, hsame⟩ := irqGetIsr_spec s
  unfold irqIsSpurious
  split
  · exact hsame
  · exact ⟨rfl, rfl, rfl⟩

/-- Only the vectors 39 and 47 are ever spurious. -/
theorem irqIsSpurious_of_ne (h₇ : irq ≠ irq7) (h₁₅ : irq ≠ irq15) (s : IrqState H) :
    irqIsSpurious s irq = (false, s) := by
  rw [irqIsSpurious, if_neg]
  rintro (h | h)
  · exact h₇ h
  · exact h₁₅ h

/-- IRQ 7 is genuine if the master has it in service. -/
theorem irqIsSpurious_irq7 (s : IrqState H) :
    (irqIsSpurious s irq7).1 = !s.pic1.isr.getLsbD 7 := by
  obtain ⟨hactive, -⟩ := irqGetIsr_spec s
  have hmask : (currentIrqMask irq7).setWidth 16 = BitVec.twoPow 16 7 := by decide
  have hbit : (irqGetIsr s).1.getLsbD 7 = s.pic1.isr.getLsbD 7 := by simp [hactive]
  rw [irqIsSpurious, if_pos (.inl rfl)]
  simp only [hmask, BitVec.and_twoPow, hbit]
  cases s.pic1.isr.getLsbD 7 <;> decide

/-- The mask of IRQ 15 does not fit in its `uint8_t`: it is always taken for spurious. -/
theorem irqIsSpurious_irq15 (s : IrqState H) : (irqIsSpurious s irq15).1 = true := by
  have hmask : currentIrqMask irq15 = 0 := by decide
  rw [irqIsSpurious, if_pos (.inr rfl)]
  simp [hmask]

/-! ## end of interrupt -/

/-- Of a request accepted while none is in service, the end of interrupt leaves none. -/
theorem Pic.endOfInterrupt_accept {p : Pic} (h : p.isr = 0) (i : Fin 8) :
    (p.accept i).endOfInterrupt.isr = 0 := by
  have hclear : ∀ i : Fin 8, ∃ j : Fin 8,
      ((List.finRange 8).find? fun k : Fin 8 => (0#8 ||| 1#8 <<< i.val).getLsbD k) = some j ∧
        (0#8 ||| 1#8 <<< i.val) &&& ~~~(1#8 <<< j.val) = 0 := by decide
  obtain ⟨j, hfind, hzero⟩ := hclear i
  have hisr : (p.accept i).isr = 0#8 ||| 1#8 <<< i.val := by rw [accept, h]; rfl
  have hhighest : (p.accept i).highest = some j := by rw [highest, hisr, hfind]
  rw [endOfInterrupt, hhighest, ← hzero, ← hisr]

/-- The end of interrupt looks at the in-service register only. -/
theorem Pic.endOfInterrupt_congr {p q : Pic} (h : p.isr = q.isr) :
    p.endOfInterrupt.isr = q.endOfInterrupt.isr := by
  have hhighest : p.highest = q.highest := by rw [highest, highest, h]
  rw [endOfInterrupt, endOfInterrupt, hhighest, h]
  cases q.highest <;> simp [h]

/-- `irq_send_eoi` ends the request on the master, and on the slave if it is from there. -/
theorem irqSendEoi_spec (s : IrqState H) (irq : Nat) :
    (irqSendEoi s irq).pic1.isr = s.pic1.endOfInterrupt.isr ∧
      (irqSendEoi s irq).pic2.isr =
        (if irq > irq7 then s.pic2.endOfInterrupt.isr else s.pic2.isr) ∧
      (irqSendEoi s irq).handlers = s.handlers := by
  unfold irqSendEoi
  split
  · exact ⟨rfl, rfl, rfl⟩
  · exact ⟨rfl, rfl, rfl⟩

/-! ## irq_handler -/

/-- An interrupt taken for spurious calls no handler; for IRQ 15 the master's request
is ended. -/
theorem irqHandler_of_spurious {s : IrqState H} (h : (irqIsSpurious s irq).1 = true) :
    (irqHandler s irq).1.pic1.isr =
        (if irq = irq15 then s.pic1.endOfInterrupt.isr else s.pic1.isr) ∧
      (irqHandler s irq).1.pic2.isr = s.pic2.isr ∧ (irqHandler s irq).2 = [] := by
  obtain ⟨h₁, h₂, -⟩ := irqIsSpurious_same s irq
  unfold irqHandler
  generalize irqIsSpurious s irq = r at *
  obtain ⟨spurious, t⟩ := r
  obtain rfl : spurious = true := h
  refine ⟨?_, ?_, rfl⟩
  · show (if irq = irq15 then outportb t pic1Cmd picEoi else t).pic1.isr = _
    split
    · exact Pic.endOfInterrupt_congr h₁
    · exact h₁
  · show (if irq = irq15 then outportb t pic1Cmd picEoi else t).pic2.isr = _
    split
    · exact h₂
    · exact h₂

/-- An interrupt taken for genuine is ended on its controllers before its handler is
called. -/
theorem irqHandler_of_genuine {s : IrqState H} (h : (irqIsSpurious s irq).1 = false) :
    ∃ t : IrqState H, t.pic1.isr = s.pic1.endOfInterrupt.isr ∧
      t.pic2.isr = (if irq > irq7 then s.pic2.endOfInterrupt.isr else s.pic2.isr) ∧
      (irqHandler s irq).1 = t ∧
      (irqHandler s irq).2 =
        match s.handlers (u32Sub irq irq0) with
        | some handler => [.call handler t]
        | none => [.print ("[IRQ] Unhandled IRQ" ++ toString (u32Sub irq irq0) ++ "\n")] := by
  obtain ⟨h₁, h₂, hh⟩ := irqIsSpurious_same s irq
  unfold irqHandler
  generalize irqIsSpurious s irq = r at *
  obtain ⟨spurious, t⟩ := r
  obtain rfl : spurious = false := h
  obtain ⟨heoi₁, heoi₂, hkeep⟩ := irqSendEoi_spec t irq
  have hhandlers : (irqSendEoi t irq).handlers = s.handlers := hkeep.trans hh
  refine ⟨irqSendEoi t irq, heoi₁.trans (Pic.endOfInterrupt_congr h₁), heoi₂.trans ?_, ?_, ?_⟩
  · split
    · exact Pic.endOfInterrupt_congr h₂
    · exact h₂
  · simp only [hhandlers]
    split <;> rfl
  · simp only [hhandlers]
    split <;> rfl

end NimbleOS
