import NimbleOS.Cpu.Service
import NimbleOS.Cpu.Mask
import NimbleOS.Lib.Ports

/-!
# NimbleOS.Cpu.Remap

`irq_remap`: the two controllers with their initialization words.  A controller that is
being initialized takes what is written to its data port for the words it expects, so the
model of `NimbleOS.Cpu.Irq`, where the data port is the mask and the vectors are given, holds
only outside of it.  From whatever state the controllers are in, `irq_remap` leads there, and
no access of `irq.c` leads away.
-/

namespace NimbleOS

variable {H : Type}

/-! ## irq.c over ports -/

abbrev PortProgram := Ports Nat (BitVec 8)

def irq8 : Nat := 40

namespace Driver

open Ports

/-- `io_wait`: a write to an unused port. -/
def ioWait : PortProgram Unit := write 0x80 0

def icw1Icw4 : BitVec 8 := 0x01
def icw1Init : BitVec 8 := 0x10
def icw4_8086 : BitVec 8 := 0x01

def irqRemap (offset1 offset2 : BitVec 8) : PortProgram Unit := do
  let a1 ← read pic1Data
  let a2 ← read pic2Data
  write pic1Cmd (icw1Init ||| icw1Icw4)
  ioWait
  write pic2Cmd (icw1Init ||| icw1Icw4)
  ioWait
  write pic1Data offset1
  ioWait
  write pic2Data offset2
  ioWait
  write pic1Data 4
  ioWait
  write pic2Data 2
  ioWait
  write pic1Data icw4_8086
  ioWait
  write pic2Data icw4_8086
  ioWait
  write pic1Data a1
  write pic2Data a2

def irqSendEoi (irq : Nat) : PortProgram Unit := do
  if irq > irq7 then write pic2Cmd picEoi
  write pic1Cmd picEoi

def irqGetIsr : PortProgram (BitVec 16) := do
  write pic1Cmd picIsr
  write pic2Cmd picIsr
  let high ← read pic2Cmd
  let low ← read pic1Cmd
  return high.setWidth 16 <<< 8 ||| low.setWidth 16

/-- The test for a spurious interrupt. -/
def irqIsSpurious (irq : Nat) : PortProgram Bool :=
  if irq = irq7 ∨ irq = irq15 then do
    let activeIrqMask ← irqGetIsr
    return activeIrqMask &&& (currentIrqMask irq).setWidth 16 = 0
  else return false

/-- The accesses of `irq_handler`; whether it goes on to the handler of the line. -/
def irqHandler (irq : Nat) : PortProgram Bool := do
  let spurious ← irqIsSpurious irq
  if spurious then
    if irq = irq15 then write pic1Cmd picEoi
    return false
  else
    irqSendEoi irq
    return true

def irqMask (irq : Nat) : PortProgram Unit := do
  let (pic, irq) := irqPort irq
  let mask ← read pic
  write pic ((mask.setWidth 32 ||| shiftOne irq).setWidth 8)

def irqUnmask (irq : Nat) : PortProgram Unit := do
  let (pic, _) := irqPort irq
  let mask ← read pic
  write pic ((mask.setWidth 32 &&& ~~~shiftOne mask.toNat).setWidth 8)

def maskCall : MaskCall → PortProgram Unit
  | .mask irq => irqMask irq
  | .unmask irq => irqUnmask irq

end Driver

/-! ## initialization -/

/-- The initialization words that follow the first. -/
inductive InitWord where
  | icw2
  | icw3
  | icw4
  deriving DecidableEq

/-- An 8259 with what its initialization words say: the vectors, the cascade and the mode. -/
structure Pic8259 where
  pic : Pic
  base : BitVec 8
  cascade : BitVec 8
  mode : BitVec 8
  single : Bool
  needsIcw4 : Bool
  expects : Option InitWord

namespace Pic8259

/-- `ICW1` is a command with bit 4 set; it clears the mask and forgets pending requests. -/
def command (p : Pic8259) (data : BitVec 8) : Pic8259 :=
  if data.getLsbD 4 then
    { p with
      pic := { p.pic with irr := 0, imr := 0, readIsr := false }
      mode := if data.getLsbD 0 then p.mode else 0
      single := data.getLsbD 1
      needsIcw4 := data.getLsbD 0
      expects := some .icw2 }
  else { p with pic := p.pic.command data }

/-- The word after `ICW3`, or after `ICW2` of a controller without cascade. -/
def lastWord (p : Pic8259) : Option InitWord := if p.needsIcw4 then some .icw4 else none

/-- A write to the data port. -/
def data (p : Pic8259) (data : BitVec 8) : Pic8259 :=
  match p.expects with
  | some .icw2 =>
      { p with base := data &&& 0xF8, expects := if p.single then p.lastWord else some .icw3 }
  | some .icw3 => { p with cascade := data, expects := p.lastWord }
  | some .icw4 => { p with mode := data, expects := none }
  | none => { p with pic := { p.pic with imr := data } }

/-- The vector of request `i`. -/
def vector (p : Pic8259) (i : Fin 8) : BitVec 8 := p.base ||| BitVec.ofNat 8 i

/-- The answer to the processor that accepts request `i`: a vector in 8086 mode only. -/
def answer (p : Pic8259) (i : Fin 8) : Option (BitVec 8) :=
  if p.mode.getLsbD 0 then some (p.vector i) else none

/-- With the end of interrupt automatic, nothing stays in service. -/
def accept (p : Pic8259) (i : Fin 8) : Pic8259 :=
  { p with pic := if p.mode.getLsbD 1 then { p.pic.accept i with isr := p.pic.isr } else p.pic.accept i }

end Pic8259

/-- The line of the master that the slave is wired to. -/
def slaveLine : Fin 8 := ⟨2, by decide⟩

/-- The line of a request that was withdrawn. -/
def spuriousLine : Fin 8 := ⟨7, by decide⟩

/-- The lines from 8 on are those of the slave. -/
theorem slave_lt (n : Fin 16) (h : ¬ n.val < 8) : n.val - 8 < 8 := by omega

/-- Both controllers. -/
structure Pics where
  pic1 : Pic8259
  pic2 : Pic8259

namespace Pics

def outportb (s : Pics) (port : Nat) (data : BitVec 8) : Pics :=
  if port = pic1Cmd then { s with pic1 := s.pic1.command data }
  else if port = pic2Cmd then { s with pic2 := s.pic2.command data }
  else if port = pic1Data then { s with pic1 := s.pic1.data data }
  else if port = pic2Data then { s with pic2 := s.pic2.data data }
  else s

def inportb (s : Pics) (port : Nat) : BitVec 8 :=
  if port = pic1Cmd then s.pic1.pic.status
  else if port = pic2Cmd then s.pic2.pic.status
  else if port = pic1Data then s.pic1.pic.imr
  else if port = pic2Data then s.pic2.pic.imr
  else 0xFF

def machine : Ports.Machine Nat (BitVec 8) Pics where
  out := outportb
  inp := fun s port => (s.inportb port, s)

def accept (s : Pics) : Interrupt → Pics
  | .genuine n =>
      if h : n.val < 8 then { s with pic1 := s.pic1.accept ⟨n, h⟩ }
      else { pic1 := s.pic1.accept slaveLine, pic2 := s.pic2.accept ⟨n - 8, slave_lt n h⟩ }
  | .spurious7 => s
  | .spurious15 => { s with pic1 := s.pic1.accept slaveLine }

/-- The master leaves these lines to a slave. -/
def hasSlave (s : Pics) (i : Fin 8) : Bool := !s.pic1.single && s.pic1.cascade.getLsbD i

/-- The slave answers for its line. -/
def cascaded (s : Pics) : Bool :=
  s.hasSlave slaveLine && !s.pic2.single && s.pic2.cascade.setWidth 3 = 2#3

def masterAnswer (s : Pics) (i : Fin 8) : Option (BitVec 8) :=
  if s.hasSlave i then none else s.pic1.answer i

def slaveAnswer (s : Pics) (i : Fin 8) : Option (BitVec 8) :=
  if s.cascaded then s.pic2.answer i else none

/-- The vector of an interrupt, if there is one; a withdrawn request is answered with the
last vector of its controller. -/
def vectorOf (s : Pics) : Interrupt → Option (BitVec 8)
  | .genuine n =>
      if h : n.val < 8 then s.masterAnswer ⟨n, h⟩ else s.slaveAnswer ⟨n - 8, slave_lt n h⟩
  | .spurious7 => s.masterAnswer spuriousLine
  | .spurious15 => s.slaveAnswer spuriousLine

end Pics

/-- The controllers and `irq_handlers`. -/
structure Controllers (H : Type) where
  pics : Pics
  handlers : Nat → Option H

namespace Controllers

/-- As `NimbleOS.Cpu.Irq` has them. -/
def irqState (c : Controllers H) : IrqState H :=
  { pic1 := c.pics.pic1.pic, pic2 := c.pics.pic2.pic, handlers := c.handlers }

def run (c : Controllers H) (p : PortProgram α) : Controllers H :=
  { c with pics := (p.run Pics.machine c.pics).2 }

def accept (c : Controllers H) (i : Interrupt) : Controllers H := { c with pics := c.pics.accept i }

end Controllers

/-- What `irq_handler` does once the controllers are served. -/
def irqActions (s : IrqState H) (irq : Nat) (genuine : Bool) : List (IrqAction H) :=
  if genuine then
    match s.handlers (u32Sub irq irq0) with
    | some handler => [.call handler s]
    | none => [.print ("[IRQ] Unhandled IRQ" ++ toString (u32Sub irq irq0) ++ "\n")]
  else []

def Controllers.irqHandler (c : Controllers H) (irq : Nat) : Controllers H × List (IrqAction H) :=
  let r := (Driver.irqHandler irq).run Pics.machine c.pics
  let c := { c with pics := r.2 }
  (c, irqActions c.irqState irq r.1)

/-! ## runs -/

inductive LineEvent (H : Type) where
  | interrupt (i : Interrupt)
  | register (line : Fin 16) (handler : H)
  | call (c : MaskCall)

/-- An event, and what `irq_handler` does then: the controllers outside of initialization.
No device interrupts on the line that the slave is wired to. -/
inductive LineStep : IrqState H → LineEvent H × List (IrqAction H) → IrqState H → Prop where
  | interrupt : i ≠ .genuine 2 →
      LineStep s (.interrupt i, (irqHandler (s.accept i) i.vector).2)
        (irqHandler (s.accept i) i.vector).1
  | register : irqRegisterHandler s (irq0 + line.val) handler = .ok s' →
      LineStep s (.register line handler, []) s'
  | call : LineStep s (.call c, []) (c.run s)

/-- The same with the initialization words: it is their vector that `irq_handler` is called
with. -/
inductive Controllers.Step :
    Controllers H → LineEvent H × List (IrqAction H) → Controllers H → Prop where
  | interrupt : c.pics.vectorOf i = some irq →
      Step c (.interrupt i, ((c.accept i).irqHandler irq.toNat).2)
        ((c.accept i).irqHandler irq.toNat).1
  | register : irqRegisterHandler c.irqState (irq0 + line.val) handler = .ok s' →
      Step c (.register line handler, []) { c with handlers := s'.handlers }
  | call : Step c (.call call, []) (c.run (Driver.maskCall call))

/-- The controllers after `irq_remap`, called as `irq_init` calls it. -/
def Controllers.remapped (s : Pics) (handlers : Nat → Option H) : Controllers H :=
  Controllers.run ⟨s, handlers⟩ (Driver.irqRemap (BitVec.ofNat 8 irq0) (BitVec.ofNat 8 irq8))

/-- As `NimbleOS.Cpu.Irq` has them: the masks are kept, pending requests are not. -/
def Pics.remapped (s : Pics) (handlers : Nat → Option H) : IrqState H :=
  { pic1 := { s.pic1.pic with irr := 0, readIsr := false }
    pic2 := { s.pic2.pic with irr := 0, readIsr := false }
    handlers := handlers }

/-! ## what the words say -/

/-- The words that `irq_remap` writes, the initialization being over. -/
structure Pics.Remapped (s : Pics) : Prop where
  base1 : s.pic1.base = 32
  base2 : s.pic2.base = 40
  cascade1 : s.pic1.cascade = 4
  cascade2 : s.pic2.cascade = 2
  mode1 : s.pic1.mode = Driver.icw4_8086
  mode2 : s.pic2.mode = Driver.icw4_8086
  single1 : s.pic1.single = false
  single2 : s.pic2.single = false
  expects1 : s.pic1.expects = none
  expects2 : s.pic2.expects = none

/-- From whatever state, in the middle of an initialization as well. -/
theorem remapped_spec (s : Pics) (handlers : Nat → Option H) :
    (Controllers.remapped s handlers).pics.Remapped ∧
      (Controllers.remapped s handlers).irqState = s.remapped handlers :=
  ⟨⟨rfl, rfl, rfl, rfl, rfl, rfl, rfl, rfl, rfl, rfl⟩, rfl⟩

/-- Each line has the vector that `Interrupt.vector` says, but for the one wired to the
slave. -/
theorem Pics.Remapped.vectorOf {s : Pics} (h : s.Remapped) (i : Interrupt) :
    s.vectorOf i = if i = .genuine 2 then none else some (BitVec.ofNat 8 i.vector) := by
  cases i with
  | genuine n =>
      simp only [Pics.vectorOf, Pics.masterAnswer, Pics.slaveAnswer, Pics.cascaded, Pics.hasSlave,
        Pic8259.answer, Pic8259.vector, h.base1, h.base2, h.cascade1, h.cascade2, h.mode1, h.mode2,
        h.single1, h.single2]
      revert n
      decide
  | spurious7 =>
      simp only [Pics.vectorOf, Pics.masterAnswer, Pics.hasSlave, Pic8259.answer, Pic8259.vector,
        h.base1, h.cascade1, h.mode1, h.single1]
      decide
  | spurious15 =>
      simp only [Pics.vectorOf, Pics.slaveAnswer, Pics.cascaded, Pics.hasSlave, Pic8259.answer,
        Pic8259.vector, h.base2, h.cascade1, h.cascade2, h.mode2, h.single1, h.single2]
      decide

/-! ## the two machines -/

/-- The controllers outside of initialization. -/
def irqMachine : Ports.Machine Nat (BitVec 8) (IrqState H) where
  out := outportb
  inp := fun s port => (inportb s port, s)

/-- A write that does not start an initialization. -/
def Ordinary (port : Nat) (data : BitVec 8) : Prop :=
  port = pic1Cmd ∨ port = pic2Cmd → data.getLsbD 4 = false

/-- The controllers are remapped, and otherwise as the state has them. -/
structure Pics.Shows (p : Pics) (s : IrqState H) : Prop where
  words : p.Remapped
  pic1 : s.pic1 = p.pic1.pic
  pic2 : s.pic2 = p.pic2.pic

namespace Pics

/-- **Step lemma**: a write that is no initialization leaves the words, and does to the rest
what it does in `irqMachine`. -/
theorem Shows.outportb {p : Pics} {s : IrqState H} (h : p.Shows s) (hok : Ordinary port data) :
    (p.outportb port data).Shows (NimbleOS.outportb s port data) := by
  obtain ⟨⟨b1, b2, c1, c2, m1, m2, s1, s2, e1, e2⟩, h1, h2⟩ := h
  unfold Pics.outportb NimbleOS.outportb
  by_cases hcmd1 : port = pic1Cmd
  · have hdata := hok (.inl hcmd1)
    simp only [if_pos hcmd1, Pic8259.command, hdata, Bool.false_eq_true, if_false, h1]
    exact ⟨⟨b1, b2, c1, c2, m1, m2, s1, s2, e1, e2⟩, rfl, h2⟩
  by_cases hcmd2 : port = pic2Cmd
  · have hdata := hok (.inr hcmd2)
    simp only [if_neg hcmd1, if_pos hcmd2, Pic8259.command, hdata, Bool.false_eq_true, if_false, h2]
    exact ⟨⟨b1, b2, c1, c2, m1, m2, s1, s2, e1, e2⟩, h1, rfl⟩
  by_cases hdata1 : port = pic1Data
  · simp only [if_neg hcmd1, if_neg hcmd2, if_pos hdata1, Pic8259.data, e1, h1]
    exact ⟨⟨b1, b2, c1, c2, m1, m2, s1, s2, rfl, e2⟩, rfl, h2⟩
  by_cases hdata2 : port = pic2Data
  · simp only [if_neg hcmd1, if_neg hcmd2, if_neg hdata1, if_pos hdata2, Pic8259.data, e2, h2]
    exact ⟨⟨b1, b2, c1, c2, m1, m2, s1, s2, e1, rfl⟩, h1, rfl⟩
  · simp only [if_neg hcmd1, if_neg hcmd2, if_neg hdata1, if_neg hdata2]
    exact ⟨⟨b1, b2, c1, c2, m1, m2, s1, s2, e1, e2⟩, h1, h2⟩

theorem Shows.inportb {p : Pics} {s : IrqState H} (h : p.Shows s) (port : Nat) :
    p.inportb port = NimbleOS.inportb s port := by
  unfold Pics.inportb NimbleOS.inportb
  rw [h.pic1, h.pic2]

/-- The end of interrupt is not automatic, so what is accepted is in service. -/
theorem accept_of_icw4 {p : Pic8259} (h : p.mode = Driver.icw4_8086) (i : Fin 8) :
    p.accept i = { p with pic := p.pic.accept i } := by
  rw [Pic8259.accept, h]
  rfl

theorem Shows.accept {p : Pics} {s : IrqState H} (h : p.Shows s) (i : Interrupt) :
    (p.accept i).Shows (s.accept i) := by
  have hm1 := accept_of_icw4 h.words.mode1
  have hm2 := accept_of_icw4 h.words.mode2
  obtain ⟨⟨b1, b2, c1, c2, m1, m2, s1, s2, e1, e2⟩, h1, h2⟩ := h
  cases i with
  | genuine n =>
      simp only [Pics.accept, IrqState.accept, hm1, hm2]
      split
      · exact ⟨⟨b1, b2, c1, c2, m1, m2, s1, s2, e1, e2⟩, by rw [h1], h2⟩
      · exact ⟨⟨b1, b2, c1, c2, m1, m2, s1, s2, e1, e2⟩, by rw [h1]; rfl, by rw [h2]⟩
  | spurious7 => exact ⟨⟨b1, b2, c1, c2, m1, m2, s1, s2, e1, e2⟩, h1, h2⟩
  | spurious15 =>
      simp only [Pics.accept, IrqState.accept, hm1]
      exact ⟨⟨b1, b2, c1, c2, m1, m2, s1, s2, e1, e2⟩, by rw [h1]; rfl, h2⟩

/-- The two machines cannot be told apart without an initialization. -/
theorem Shows.run {p : Pics} {s : IrqState H} (h : p.Shows s) {q : PortProgram α}
    (hq : q.Within Ordinary) :
    (q.run Pics.machine p).1 = (q.run irqMachine s).1 ∧
      (q.run Pics.machine p).2.Shows (q.run irqMachine s).2 :=
  Ports.simulate Shows (fun _ _ _ _ hs hok => hs.outportb hok)
    (fun _ _ port hs => ⟨hs.inportb port, hs⟩) q hq h

end Pics

/-! ## irq.c is ordinary -/

theorem within_write {data : BitVec 8} (h : data.getLsbD 4 = false) (port : Nat) :
    (Ports.write port data).Within Ordinary :=
  (Ports.within_write port data).mpr fun _ => h

theorem within_irqIsSpurious (irq : Nat) : (Driver.irqIsSpurious irq).Within Ordinary := by
  have hisr : Driver.irqGetIsr.Within Ordinary :=
    .bind (within_write rfl _) fun _ => .bind (within_write rfl _) fun _ =>
      .bind (fun _ => trivial) fun _ => .bind (fun _ => trivial) fun _ => trivial
  unfold Driver.irqIsSpurious
  split
  · exact .bind hisr fun _ => trivial
  · trivial

theorem within_irqSendEoi (irq : Nat) : (Driver.irqSendEoi irq).Within Ordinary := by
  unfold Driver.irqSendEoi
  split
  · exact .bind (within_write rfl _) fun _ => within_write rfl _
  · exact .bind (p := pure ()) trivial fun _ => within_write rfl _

theorem within_irqHandler (irq : Nat) : (Driver.irqHandler irq).Within Ordinary := by
  refine .bind (within_irqIsSpurious irq) fun spurious => ?_
  cases spurious with
  | true =>
      simp only [if_true]
      split
      · exact .bind (within_write rfl _) fun _ => trivial
      · trivial
  | false => exact .bind (within_irqSendEoi irq) fun _ => trivial

theorem ordinary_irqPort (irq : Nat) (data : BitVec 8) : Ordinary (irqPort irq).1 data := by
  unfold irqPort
  split
  · rintro (h | h) <;> cases h
  · rintro (h | h) <;> cases h

theorem within_maskCall (c : MaskCall) : (Driver.maskCall c).Within Ordinary := by
  cases c with
  | mask irq => exact fun data => ⟨ordinary_irqPort irq _, trivial⟩
  | unmask irq => exact fun data => ⟨ordinary_irqPort irq _, trivial⟩

/-! ## irq.c as before -/

theorem run_irqIsSpurious (s : IrqState H) (irq : Nat) :
    (Driver.irqIsSpurious irq).run irqMachine s = irqIsSpurious s irq := by
  unfold Driver.irqIsSpurious irqIsSpurious
  split
  · rfl
  · rfl

theorem run_irqSendEoi (s : IrqState H) (irq : Nat) :
    (Driver.irqSendEoi irq).run irqMachine s = ((), irqSendEoi s irq) := by
  unfold Driver.irqSendEoi irqSendEoi
  split
  · rfl
  · rfl

/-- Over the ports `irq_handler` does what it does over the state. -/
theorem run_irqHandler (s : IrqState H) (irq : Nat) :
    ((Driver.irqHandler irq).run irqMachine s).2 = (irqHandler s irq).1 ∧
      irqActions (irqHandler s irq).1 irq ((Driver.irqHandler irq).run irqMachine s).1 =
        (irqHandler s irq).2 := by
  unfold Driver.irqHandler irqHandler
  rw [Ports.run_bind, run_irqIsSpurious]
  generalize irqIsSpurious s irq = r
  obtain ⟨spurious, t⟩ := r
  cases spurious with
  | true =>
      simp only [if_true]
      split
      · exact ⟨rfl, rfl⟩
      · exact ⟨rfl, rfl⟩
  | false =>
      simp only [Bool.false_eq_true, if_false, Ports.run_bind, run_irqSendEoi, Ports.run_pure,
        irqActions, if_true]
      cases h : (irqSendEoi t irq).handlers (u32Sub irq irq0) with
      | none => simp only [h, and_self]
      | some handler => simp only [h, and_self]

theorem run_maskCall (s : IrqState H) (c : MaskCall) :
    ((Driver.maskCall c).run irqMachine s).2 = c.run s := by
  cases c with
  | mask irq => rfl
  | unmask irq => rfl

/-! ## runs -/

/-- The controllers of the one and the other agree, and so do the handlers. -/
structure Controllers.Shows (c : Controllers H) (s : IrqState H) : Prop where
  pics : c.pics.Shows s
  handlers : s.handlers = c.handlers

theorem handlers_outportb (s : IrqState H) (port : Nat) (data : BitVec 8) :
    (outportb s port data).handlers = s.handlers := by
  unfold outportb
  repeat' split
  all_goals rfl

theorem MaskCall.run_handlers (s : IrqState H) (c : MaskCall) : (c.run s).handlers = s.handlers := by
  cases c with
  | mask irq => exact handlers_outportb s _ _
  | unmask irq => exact handlers_outportb s _ _

namespace Controllers

theorem Shows.irqState {c : Controllers H} {s : IrqState H} (h : c.Shows s) : c.irqState = s := by
  obtain ⟨⟨-, h1, h2⟩, h3⟩ := h
  cases s
  cases h1
  cases h2
  cases h3
  rfl

theorem Shows.accept {c : Controllers H} {s : IrqState H} (h : c.Shows s) (i : Interrupt) :
    (c.accept i).Shows (s.accept i) :=
  ⟨h.pics.accept i, (s.accept_handlers i).trans h.handlers⟩

theorem Shows.irqHandler {c : Controllers H} {s : IrqState H} (h : c.Shows s) (irq : Nat) :
    (c.irqHandler irq).1.Shows (NimbleOS.irqHandler s irq).1 ∧
      (c.irqHandler irq).2 = (NimbleOS.irqHandler s irq).2 := by
  obtain ⟨hgenuine, hpics⟩ := h.pics.run (within_irqHandler irq)
  obtain ⟨hstate, hactions⟩ := run_irqHandler s irq
  rw [hstate] at hpics
  have hshows : (c.irqHandler irq).1.Shows (NimbleOS.irqHandler s irq).1 :=
    ⟨hpics, (irqHandler_handlers s irq).trans h.handlers⟩
  refine ⟨hshows, ?_⟩
  rw [← hactions, ← hgenuine, ← hshows.irqState]
  rfl

theorem Shows.call {c : Controllers H} {s : IrqState H} (h : c.Shows s) (call : MaskCall) :
    (c.run (Driver.maskCall call)).Shows (call.run s) := by
  obtain ⟨-, hpics⟩ := h.pics.run (within_maskCall call)
  rw [run_maskCall] at hpics
  exact ⟨hpics, (call.run_handlers s).trans h.handlers⟩

/-- Registering a handler looks at the table of handlers only. -/
theorem Shows.register {c : Controllers H} {s : IrqState H} (h : c.Shows s)
    (hr : irqRegisterHandler s irq handler = .ok s') :
    Shows { c with handlers := s'.handlers } s' := by
  have hsame : s'.pic1 = s.pic1 ∧ s'.pic2 = s.pic2 := by
    unfold irqRegisterHandler at hr
    split at hr
    · split at hr
      · obtain rfl := Except.ok.inj hr
        exact ⟨rfl, rfl⟩
      · obtain rfl := Except.ok.inj hr
        exact ⟨rfl, rfl⟩
    · cases hr
  exact ⟨⟨h.pics.words, hsame.1.trans h.pics.pic1, hsame.2.trans h.pics.pic2⟩, rfl⟩

/-- The vector that is read is the one that `irq_handler` is to be called with. -/
theorem vectorOf_eq_some {s : Pics} (h : s.Remapped) :
    s.vectorOf i = some irq ↔ i ≠ .genuine 2 ∧ BitVec.ofNat 8 i.vector = irq := by
  rw [h.vectorOf]
  by_cases hi : i = .genuine 2
  · simp [hi]
  · simp [hi]

theorem toNat_vector (i : Interrupt) : (BitVec.ofNat 8 i.vector).toNat = i.vector := by
  rw [BitVec.toNat_ofNat, Nat.mod_eq_of_lt]
  cases i with
  | genuine n =>
      have := n.isLt
      simp only [Interrupt.vector, irq0]
      omega
  | spurious7 => decide
  | spurious15 => decide

/-- **Step lemma**: each step of the one is a step of the other. -/
theorem Shows.step {c : Controllers H} {s : IrqState H} (h : c.Shows s) (hstep : Step c e c') :
    ∃ s', LineStep s e s' ∧ c'.Shows s' := by
  cases hstep with
  | interrupt hvector =>
      obtain ⟨hi, rfl⟩ := (vectorOf_eq_some h.pics.words).mp hvector
      obtain ⟨hshows, hactions⟩ := (h.accept _).irqHandler (BitVec.ofNat 8 (Interrupt.vector _)).toNat
      rw [toNat_vector] at hshows hactions ⊢
      exact ⟨_, hactions ▸ .interrupt hi, hshows⟩
  | register hr =>
      rw [h.irqState] at hr
      exact ⟨_, .register hr, h.register hr⟩
  | call => exact ⟨_, .call, h.call _⟩

theorem Shows.step_back {c : Controllers H} {s : IrqState H} (h : c.Shows s)
    (hstep : LineStep s e s') : ∃ c', Step c e c' ∧ c'.Shows s' := by
  cases hstep with
  | @interrupt i _ hi =>
      obtain ⟨hshows, hactions⟩ := (h.accept i).irqHandler i.vector
      have hvector := (vectorOf_eq_some h.pics.words).mpr ⟨hi, rfl⟩
      have hc := Step.interrupt (c := c) hvector
      rw [toNat_vector] at hc
      exact ⟨_, hactions ▸ hc, hshows⟩
  | register hr => exact ⟨_, .register (h.irqState ▸ hr), h.register hr⟩
  | call => exact ⟨_, .call, h.call _⟩

end Controllers

/-- **Remapping**: from whatever state of the controllers, after `irq_remap` and any run of
interrupts and of calls of `irq.c`, both controllers are as `irq_remap` left them but for what
`NimbleOS.Cpu.Irq` has of them, every line but the slave's has its vector from 32 on, and what
happens is what happens there. -/
theorem irq_remap_runs (s : Pics) (handlers : Nat → Option H)
    (es : List (LineEvent H × List (IrqAction H))) :
    (∀ c, Run Controllers.Step (.remapped s handlers) es c →
      Run LineStep (s.remapped handlers) es c.irqState ∧ c.pics.Remapped ∧
        ∀ i, c.pics.vectorOf i =
          if i = .genuine 2 then none else some (BitVec.ofNat 8 i.vector)) ∧
      ∀ t, Run LineStep (s.remapped handlers) es t →
        ∃ c, Run Controllers.Step (.remapped s handlers) es c ∧ c.irqState = t := by
  obtain ⟨hwords, hstate⟩ := remapped_spec s handlers
  have hshows : (Controllers.remapped s handlers).Shows (s.remapped handlers) :=
    ⟨⟨hwords, congrArg IrqState.pic1 hstate.symm, congrArg IrqState.pic2 hstate.symm⟩, rfl⟩
  refine ⟨fun c hrun => ?_, fun t hrun => ?_⟩
  · obtain ⟨t, hrun', ht⟩ := hrun.simulate _ (fun _ _ _ _ h hs => h.step hs) hshows
    exact ⟨ht.irqState ▸ hrun', ht.pics.words, ht.pics.words.vectorOf⟩
  · have hback : ∀ s c e s', Controllers.Shows c s → LineStep (H := H) s e s' →
        ∃ c', Controllers.Step c e c' ∧ c'.Shows s' := fun _ _ _ _ h hs => h.step_back hs
    obtain ⟨c, hrun', hc⟩ := hrun.simulate (fun s c => Controllers.Shows c s) hback hshows
    exact ⟨c, hrun', hc.irqState⟩

/-- Controllers of which one waits for `ICW3` and the other for `ICW4`. -/
def Pics.midway : Pics :=
  let pic : Pic := { isr := 0, irr := 0xFF, imr := 0xB8, readIsr := true }
  { pic1 := { pic := pic, base := 8, cascade := 0, mode := 2, single := true, needsIcw4 := false
              expects := some .icw3 }
    pic2 := { pic := pic, base := 0x70, cascade := 7, mode := 0, single := false, needsIcw4 := true
              expects := some .icw4 } }

theorem irq_remap_runs_midway : ∃ actions c,
    Run Controllers.Step (.remapped Pics.midway fun _ => some ())
      [(.interrupt (.genuine 8), actions), (.call (.mask 1), [])] c ∧
    c.pics.vectorOf (.genuine 8) = some 40 ∧ c.irqState.masked 1 = true := by
  have hrun : Run LineStep (Pics.midway.remapped fun _ => some ()) _ _ :=
    .cons (.interrupt (i := .genuine 8) (by decide)) (.single (.call (c := .mask 1)))
  obtain ⟨hall, hback⟩ := irq_remap_runs Pics.midway (fun _ => some ())
    [(.interrupt (.genuine 8), _), (.call (.mask 1), [])]
  obtain ⟨c, hc, hstate⟩ := hback _ hrun
  obtain ⟨-, -, hvector⟩ := hall c hc
  exact ⟨_, c, hc, hvector _, hstate ▸ masked_irqMask _ 1 1⟩

end NimbleOS
