import NimbleOS.Cpu.Gdt
import NimbleOS.Lib.WordStack
import NimbleOS.Proc

/-!
# NimbleOS.Cpu.Stubs

The interrupt stubs (`kernel/src/cpu/asm/isr.S`, `irq.S`), instruction by instruction.
The processor pushes the place that was interrupted, the stub completes this to
a `registers_t` and calls the handler; on the way out it has to give every register back.
The IRQ path does.  `isr_common_handler` pops the data segments in the order in which it
has pushed them, so `ds` and `gs` change places, and so do `es` and `fs`.
-/

namespace NimbleOS

open WordStack

/-! ## the processor -/

structure Cpu where
  eax : BitVec 32
  ecx : BitVec 32
  edx : BitVec 32
  ebx : BitVec 32
  esp : BitVec 32
  ebp : BitVec 32
  esi : BitVec 32
  edi : BitVec 32
  ds : BitVec 16
  es : BitVec 16
  fs : BitVec 16
  gs : BitVec 16
  cs : BitVec 16
  ss : BitVec 16
  eip : BitVec 32
  eflags : BitVec 32
  memory : BitVec 32 → BitVec 32

inductive DataSegment where
  | ds
  | es
  | fs
  | gs
  deriving DecidableEq

def Cpu.segment (c : Cpu) : DataSegment → BitVec 16
  | .ds => c.ds
  | .es => c.es
  | .fs => c.fs
  | .gs => c.gs

def Cpu.setSegment (c : Cpu) (selector : BitVec 16) : DataSegment → Cpu
  | .ds => { c with ds := selector }
  | .es => { c with es := selector }
  | .fs => { c with fs := selector }
  | .gs => { c with gs := selector }

/-- The privilege level of a selector: 0 is the kernel. -/
def privilege (selector : BitVec 16) : BitVec 16 := selector &&& 3

/-- What the stubs run in: the stack of the TSS, the address of the stub in the IDT, the
address behind the call, the C handler, and whether a pushed selector fills its word with
zeros; processors may also store the low half only. -/
structure Surroundings where
  ss0 : BitVec 16
  esp0 : BitVec 32
  stub : BitVec 32
  returnAddress : BitVec 32
  handler : Cpu → Cpu
  zeroExtends : Bool

def Cpu.push (c : Cpu) (v : BitVec 32) : Cpu :=
  { c with esp := c.esp - 4, memory := store c.memory (c.esp - 4) v }

/-- The word at `esp + 4 * i`. -/
def Cpu.word (c : Cpu) (i : Nat) : BitVec 32 := c.memory (c.esp + BitVec.ofNat 32 (4 * i))

def Cpu.drop (c : Cpu) (n : BitVec 32) : Cpu := { c with esp := c.esp + n }

/-- The word that a pushed selector leaves. -/
def selectorWord (zeroExtends : Bool) (old : BitVec 32) (selector : BitVec 16) : BitVec 32 :=
  if zeroExtends then selector.setWidth 32 else (old >>> 16).setWidth 16 ++ selector

def Cpu.pushSelector (k : Surroundings) (c : Cpu) (selector : BitVec 16) : Cpu :=
  c.push (selectorWord k.zeroExtends (c.memory (c.esp - 4)) selector)

/-- Interrupt gates clear the trap, interrupt, nested task, resume and virtual-8086 flags. -/
def gateMask : BitVec 32 := 0x00034300

/-- An interrupt of a less privileged program switches to the stack of the TSS. -/
def Cpu.onKernelStack (k : Surroundings) (c : Cpu) : Cpu :=
  if privilege c.cs = 0 then c
  else (({ c with ss := k.ss0, esp := k.esp0 } : Cpu).pushSelector k c.ss).push c.esp

/-- An interrupt, with the error code if there is one. -/
def Cpu.interrupt (k : Surroundings) (c : Cpu) (error : Option (BitVec 32)) : Cpu :=
  let pushed := (((c.onKernelStack k).push c.eflags).pushSelector k c.cs).push c.eip
  let pushed :=
    match error with
    | none => pushed
    | some code => pushed.push code
  { pushed with
    cs := gdtSelectorKernelCode
    eip := k.stub
    eflags := c.eflags &&& ~~~gateMask }

/-! ## instructions -/

inductive Instr where
  | cli
  | push (value : BitVec 32)
  | pushal
  | pushSegment (s : DataSegment)
  | movAx (value : BitVec 16)
  | movSegmentAx (s : DataSegment)
  | pushEsp
  | call
  | addEsp (n : BitVec 32)
  | popSegment (s : DataSegment)
  | popal
  | iret

/-- `pushal` pushes the stack pointer it starts with. -/
def Cpu.pushal (c : Cpu) : Cpu :=
  [c.eax, c.ecx, c.edx, c.ebx, c.esp, c.ebp, c.esi, c.edi].foldl Cpu.push c

/-- `popal` skips the stack pointer. -/
def Cpu.popal (c : Cpu) : Cpu :=
  { c with
    edi := c.word 0
    esi := c.word 1
    ebp := c.word 2
    ebx := c.word 4
    edx := c.word 5
    ecx := c.word 6
    eax := c.word 7
    esp := c.esp + 32 }

/-- The stack pointer is only popped on the way to another privilege level.  Descriptors are
not modelled: a selector that the interrupted program held can be loaded again. -/
def Cpu.iret (c : Cpu) : Cpu :=
  let selector := (c.word 1).setWidth 16
  let back := { c with eip := c.word 0, cs := selector, eflags := c.word 2 }
  if privilege selector = privilege c.cs then { back with esp := c.esp + 12 }
  else { back with esp := c.word 3, ss := (c.word 4).setWidth 16 }

def Cpu.step (k : Surroundings) (c : Cpu) : Instr → Cpu
  | .cli => { c with eflags := c.eflags &&& ~~~0x200 }
  | .push value => c.push value
  | .pushal => c.pushal
  | .pushSegment s => c.pushSelector k (c.segment s)
  | .movAx value => { c with eax := (c.eax >>> 16).setWidth 16 ++ value }
  | .movSegmentAx s => c.setSegment (c.eax.setWidth 16) s
  | .pushEsp => c.push c.esp
  | .call => (k.handler (c.push k.returnAddress)).drop 4
  | .addEsp n => c.drop n
  | .popSegment s => (c.setSegment ((c.word 0).setWidth 16) s).drop 4
  | .popal => c.popal
  | .iret => c.iret

def Cpu.run (k : Surroundings) (c : Cpu) (code : List Instr) : Cpu := code.foldl (Cpu.step k) c

/-! ## the stubs -/

def isrCommonHandler : List Instr :=
  [.pushal,
    .pushSegment .ds, .pushSegment .es, .pushSegment .fs, .pushSegment .gs,
    .movAx gdtSelectorKernelData,
    .movSegmentAx .ds, .movSegmentAx .es, .movSegmentAx .fs, .movSegmentAx .gs,
    .pushEsp, .call, .addEsp 4,
    .popSegment .ds, .popSegment .es, .popSegment .fs, .popSegment .gs,
    .popal, .addEsp 8, .iret]

def irqCommonHandler : List Instr :=
  [.pushal,
    .pushSegment .ds, .pushSegment .es, .pushSegment .fs, .pushSegment .gs,
    .movAx gdtSelectorKernelData,
    .movSegmentAx .ds, .movSegmentAx .es, .movSegmentAx .fs, .movSegmentAx .gs,
    .pushEsp, .call, .addEsp 4,
    .popSegment .gs, .popSegment .fs, .popSegment .es, .popSegment .ds,
    .popal, .addEsp 8, .iret]

/-- The three macros. -/
inductive Stub where
  | isrNoerr (num : Nat)
  | isrErr (num : Nat)
  | irq (num remap : Nat)
  deriving DecidableEq

def Stub.pushes : Stub → List Instr
  | .isrNoerr num => [.push 0, .push (BitVec.ofNat 32 num)]
  | .isrErr num => [.push (BitVec.ofNat 32 num)]
  | .irq _ remap => [.cli, .push 0, .push (BitVec.ofNat 32 remap)]

/-- Where the stub jumps to. -/
def Stub.common : Stub → List Instr
  | .irq _ _ => irqCommonHandler
  | _ => isrCommonHandler

def Stub.code (stub : Stub) : List Instr := stub.pushes ++ stub.common

/-- The stubs of `isr.S` and `irq.S`. -/
def stubs : List Stub :=
  [.isrNoerr 0, .isrNoerr 1, .isrNoerr 2, .isrNoerr 3, .isrNoerr 4, .isrNoerr 5, .isrNoerr 6,
    .isrNoerr 7, .isrErr 8, .isrNoerr 9, .isrErr 10, .isrErr 11, .isrErr 12, .isrErr 13,
    .isrErr 14, .isrNoerr 15, .isrNoerr 16, .isrErr 17, .isrNoerr 18, .isrNoerr 19, .isrNoerr 20,
    .isrNoerr 21, .isrNoerr 22, .isrNoerr 23, .isrNoerr 24, .isrNoerr 25, .isrNoerr 26,
    .isrNoerr 27, .isrNoerr 28, .isrNoerr 29, .isrErr 30, .isrNoerr 31, .isrNoerr 48,
    .irq 0 32, .irq 1 33, .irq 2 34, .irq 3 35, .irq 4 36, .irq 5 37, .irq 6 38, .irq 7 39,
    .irq 8 40, .irq 9 41, .irq 10 42, .irq 11 43, .irq 12 44, .irq 13 45, .irq 14 46, .irq 15 47]

/-- The entry of the IDT that leads to the stub. -/
def Stub.vector : Stub → Nat
  | .isrNoerr num => num
  | .isrErr num => num
  | .irq _ remap => remap

/-- The processor pushes an error code exactly for the vectors of `ISR_ERR`. -/
def Stub.error (error : BitVec 32) : Stub → Option (BitVec 32)
  | .isrErr _ => some error
  | _ => none

def Stub.isIrq : Stub → Bool
  | .irq _ _ => true
  | _ => false

/-- The `registers_t` at an address. -/
def registersAt (memory : BitVec 32 → BitVec 32) (regs : BitVec 32) : Registers :=
  let field (i : Nat) : Nat := (memory (regs + BitVec.ofNat 32 (4 * i))).toNat
  { gs := field 0
    fs := field 1
    es := field 2
    ds := field 3
    edi := field 4
    esi := field 5
    ebp := field 6
    kernelEsp := field 7
    ebx := field 8
    edx := field 9
    ecx := field 10
    eax := field 11
    intNo := field 12
    errCode := field 13
    eip := field 14
    cs := field 15
    eflags := field 16
    esp := field 17
    ss := field 18 }

/-! ## on the way in -/

def Instr.isCall : Instr → Bool
  | .call => true
  | _ => false

/-- The processor when the stub calls the handler; the handler's argument is on the stack. -/
def Stub.atCall (stub : Stub) (k : Surroundings) (c : Cpu) (error : BitVec 32) : Cpu :=
  (c.interrupt k (stub.error error)).run k (stub.code.takeWhile fun i => !i.isCall)

/-- The processor when the stub has returned. -/
def Stub.after (stub : Stub) (k : Surroundings) (c : Cpu) (error : BitVec 32) : Cpu :=
  (c.interrupt k (stub.error error)).run k stub.code

theorem selectorWord_setWidth (zeroExtends : Bool) (old : BitVec 32) (selector : BitVec 16) :
    (selectorWord zeroExtends old selector).setWidth 16 = selector := by
  unfold selectorWord
  split
  · exact BitVec.setWidth_setWidth_of_le selector (by decide)
  · exact BitVec.setWidth_append_eq_right

/-- The same registers, but for those that an interrupt changes and for the memory. -/
def SameRegisters (c d : Cpu) : Prop :=
  d = { c with
    esp := d.esp, cs := d.cs, ss := d.ss, eip := d.eip, eflags := d.eflags, memory := d.memory }

theorem SameRegisters.trans (h : SameRegisters b c) (h' : SameRegisters c d) :
    SameRegisters b d := by
  rw [SameRegisters] at h
  refine Eq.trans h' ?_
  rw [h]

theorem SameRegisters.push (h : SameRegisters c d) (v : BitVec 32) : SameRegisters c (d.push v) :=
  h.trans rfl

theorem SameRegisters.pushSelector (h : SameRegisters c d) (k : Surroundings)
    (selector : BitVec 16) : SameRegisters c (d.pushSelector k selector) :=
  h.push _

/-- The words above `eflags`: the stack pointer and the stack segment, where the interrupt
has switched the stack. -/
def OuterWords (c : Cpu) (outer : List (BitVec 32)) : Prop :=
  if privilege c.cs = 0 then outer = []
  else ∃ selector, outer = [c.esp, selector] ∧ selector.setWidth 16 = c.ss

theorem OuterWords.length (h : OuterWords c outer) : outer.length ≤ 2 := by
  unfold OuterWords at h
  split at h
  · rw [h]
    exact Nat.zero_le _
  · obtain ⟨_, rfl, -⟩ := h
    exact Nat.le_refl _

theorem Cpu.stack_push {c : Cpu} (h : At c.memory c.esp ws) (hlen : ws.length < 2 ^ 30 - 1)
    (v : BitVec 32) : At (c.push v).memory (c.push v).esp (v :: ws) :=
  h.push hlen v

/-- A pushed selector is the low half of its word. -/
theorem Cpu.stack_pushSelector {c : Cpu} (h : At c.memory c.esp ws) (hlen : ws.length < 2 ^ 30 - 1)
    (k : Surroundings) (selector : BitVec 16) :
    ∃ w, w.setWidth 16 = selector ∧
      At (c.pushSelector k selector).memory (c.pushSelector k selector).esp (w :: ws) :=
  ⟨_, selectorWord_setWidth _ _ _, h.push hlen _⟩

theorem onKernelStack_stack (k : Surroundings) (c : Cpu) :
    ∃ outer, OuterWords c outer ∧ At (c.onKernelStack k).memory (c.onKernelStack k).esp outer ∧
      SameRegisters c (c.onKernelStack k) ∧
      (privilege c.cs = 0 → (c.onKernelStack k).esp = c.esp) := by
  unfold OuterWords Cpu.onKernelStack
  split
  · exact ⟨[], rfl, .nil _ _, rfl, fun _ => rfl⟩
  · next hlow =>
      have hempty := At.nil c.memory k.esp0
      obtain ⟨selector, hselector, hpushed⟩ :=
        Cpu.stack_pushSelector (c := { c with ss := k.ss0, esp := k.esp0 }) hempty (by decide) k c.ss
      exact ⟨[c.esp, selector], ⟨selector, rfl, hselector⟩,
        Cpu.stack_push hpushed (by rw [List.length_singleton]; decide) c.esp, rfl,
        fun h => absurd h hlow⟩

/-- What the processor pushes. -/
theorem interrupt_stack (k : Surroundings) (c : Cpu) (error : Option (BitVec 32)) :
    ∃ selector outer, selector.setWidth 16 = c.cs ∧ OuterWords c outer ∧
      At (c.interrupt k error).memory (c.interrupt k error).esp
        (error.toList ++ c.eip :: selector :: c.eflags :: outer) ∧
      SameRegisters c (c.interrupt k error) ∧
      (c.interrupt k error).cs = gdtSelectorKernelCode ∧
      (privilege c.cs = 0 →
        (c.interrupt k error).esp = c.esp - BitVec.ofNat 32 (12 + 4 * error.toList.length)) := by
  obtain ⟨outer, houter, hstack, hsame, hesp⟩ := onKernelStack_stack k c
  have hlen := houter.length
  obtain ⟨selector, hselector, hpushed⟩ := Cpu.stack_pushSelector
    (Cpu.stack_push hstack (by omega) c.eflags) (by rw [List.length_cons]; omega) k c.cs
  have hpushed := Cpu.stack_push hpushed (by simp only [List.length_cons]; omega) c.eip
  have hsame := ((hsame.push c.eflags).pushSelector k c.cs).push c.eip
  refine ⟨selector, outer, hselector, houter, ?_⟩
  cases error with
  | none =>
      refine ⟨hpushed, hsame.trans rfl, rfl, fun hpriv => ?_⟩
      · change (c.onKernelStack k).esp - 4 - 4 - 4 = c.esp - 12
        rw [hesp hpriv]
        bv_omega
  | some code =>
      refine ⟨Cpu.stack_push hpushed (by simp only [List.length_cons]; omega) code,
        (hsame.push code).trans rfl, rfl, fun hpriv => ?_⟩
      · change (c.onKernelStack k).esp - 4 - 4 - 4 - 4 = c.esp - 16
        rw [hesp hpriv]
        bv_omega

/-- The error code in the frame: 0 where the processor pushes none. -/
def Stub.errorWord (stub : Stub) (error : BitVec 32) : BitVec 32 := (stub.error error).getD 0

/-- What the stub pushes before it jumps. -/
theorem stub_stack (stub : Stub) (k : Surroundings) (c : Cpu) (error : BitVec 32) :
    ∃ b selector outer, b = (c.interrupt k (stub.error error)).run k stub.pushes ∧
      selector.setWidth 16 = c.cs ∧ OuterWords c outer ∧
      At b.memory b.esp (BitVec.ofNat 32 stub.vector :: stub.errorWord error :: c.eip :: selector ::
        c.eflags :: outer) ∧
      SameRegisters c b ∧ b.cs = gdtSelectorKernelCode ∧
      (privilege c.cs = 0 → b.esp = c.esp - 20) := by
  obtain ⟨selector, outer, hselector, houter, hstack, hsame, hcs, hesp⟩ :=
    interrupt_stack k c (stub.error error)
  have hlen := houter.length
  refine ⟨_, selector, outer, rfl, hselector, houter, ?_⟩
  cases stub with
  | isrNoerr num =>
      refine ⟨Cpu.stack_push (Cpu.stack_push hstack ?_ 0) ?_ (BitVec.ofNat 32 num),
        (hsame.push 0).push _, hcs, fun hpriv => ?_⟩
      · simp only [Stub.error, Option.toList, List.nil_append, List.length_cons]; omega
      · simp only [Stub.error, Option.toList, List.nil_append, List.length_cons]; omega
      · change (c.interrupt k none).esp - 4 - 4 = c.esp - 20
        rw [show (c.interrupt k none).esp = c.esp - 12 from hesp hpriv]
        bv_omega
  | isrErr num =>
      refine ⟨Cpu.stack_push hstack ?_ (BitVec.ofNat 32 num), hsame.push _, hcs, fun hpriv => ?_⟩
      · simp only [Stub.error, Option.toList, List.cons_append, List.nil_append, List.length_cons]
        omega
      · change (c.interrupt k (some error)).esp - 4 = c.esp - 20
        rw [show (c.interrupt k (some error)).esp = c.esp - 16 from hesp hpriv]
        bv_omega
  | irq num remap =>
      have hcli : SameRegisters c ((c.interrupt k none).step k .cli) := hsame.trans rfl
      refine ⟨Cpu.stack_push (Cpu.stack_push (c := (c.interrupt k none).step k .cli) hstack ?_ 0) ?_
        (BitVec.ofNat 32 remap), (hcli.push 0).push _, hcs, fun hpriv => ?_⟩
      · simp only [Stub.error, Option.toList, List.nil_append, List.length_cons]; omega
      · simp only [Stub.error, Option.toList, List.nil_append, List.length_cons]; omega
      · change (c.interrupt k none).esp - 4 - 4 = c.esp - 20
        rw [show (c.interrupt k none).esp = c.esp - 12 from hesp hpriv]
        bv_omega

/-- The part of a common handler before its call: the same in both. -/
def saveCode : List Instr :=
  [.pushal,
    .pushSegment .ds, .pushSegment .es, .pushSegment .fs, .pushSegment .gs,
    .movAx gdtSelectorKernelData,
    .movSegmentAx .ds, .movSegmentAx .es, .movSegmentAx .fs, .movSegmentAx .gs,
    .pushEsp]

theorem Cpu.run_cons (k : Surroundings) (c : Cpu) (i : Instr) (code : List Instr) :
    c.run k (i :: code) = (c.step k i).run k code := rfl

/-- The general registers as `pushal` leaves them. -/
def Cpu.generalWords (c : Cpu) : List (BitVec 32) :=
  [c.edi, c.esi, c.ebp, c.esp, c.ebx, c.edx, c.ecx, c.eax]

/-- Several pushes, the first word deepest. -/
theorem Cpu.stack_pushes {c : Cpu} (h : At c.memory c.esp ws) (vs : List (BitVec 32))
    (hlen : ws.length + vs.length < 2 ^ 30) :
    ∃ d, vs.foldl Cpu.push c = d ∧ At d.memory d.esp (vs.reverse ++ ws) ∧
      d.esp = c.esp - BitVec.ofNat 32 (4 * vs.length) ∧ d.cs = c.cs ∧ d.segment = c.segment := by
  induction vs generalizing c ws with
  | nil => exact ⟨c, rfl, h, (BitVec.sub_zero _).symm, rfl, rfl⟩
  | cons v vs ih =>
      rw [List.length_cons] at hlen
      obtain ⟨d, hd, hstack, hesp, hcs, hsegment⟩ := ih (c := c.push v)
        (Cpu.stack_push h (by omega) v) (by rw [List.length_cons]; omega)
      refine ⟨d, hd, ?_, ?_, hcs, hsegment.trans ?_⟩
      · rwa [List.reverse_cons, List.append_assoc, List.singleton_append]
      · rw [hesp, List.length_cons]
        change c.esp - 4 - _ = _
        bv_omega
      · funext s
        cases s <;> rfl

theorem step_pushSegment {c : Cpu} (h : At c.memory c.esp ws) (hlen : ws.length < 2 ^ 30 - 1)
    (k : Surroundings) (s : DataSegment) :
    ∃ d w, c.step k (.pushSegment s) = d ∧ w.setWidth 16 = c.segment s ∧
      At d.memory d.esp (w :: ws) ∧ d.esp = c.esp - 4 ∧ d.cs = c.cs ∧ d.segment = c.segment := by
  obtain ⟨w, hw, hstack⟩ := Cpu.stack_pushSelector h hlen k (c.segment s)
  refine ⟨_, w, rfl, hw, hstack, rfl, rfl, ?_⟩
  funext s
  cases s <;> rfl

/-- The kernel's data segments are loaded. -/
theorem run_kernelSegments (k : Surroundings) (c : Cpu) (code : List Instr) :
    ∃ d : Cpu, c.run k (.movAx gdtSelectorKernelData :: .movSegmentAx .ds :: .movSegmentAx .es ::
        .movSegmentAx .fs :: .movSegmentAx .gs :: code) = d.run k code ∧
      d.memory = c.memory ∧ d.esp = c.esp ∧ d.cs = c.cs ∧
      d.segment = fun _ => gdtSelectorKernelData := by
  refine ⟨_, rfl, rfl, rfl, rfl, funext fun s => ?_⟩
  have hax : ((c.eax >>> 16).setWidth 16 ++ (gdtSelectorKernelData : BitVec 16)).setWidth 16 =
      gdtSelectorKernelData := BitVec.setWidth_append_eq_right
  cases s <;> exact hax

/-- The words of the data segments. -/
structure SegmentWords (c : Cpu) (gs fs es ds : BitVec 32) : Prop where
  gs : gs.setWidth 16 = c.gs
  fs : fs.setWidth 16 = c.fs
  es : es.setWidth 16 = c.es
  ds : ds.setWidth 16 = c.ds

/-- What the call finds on the stack: the frame, and its address for the handler. -/
theorem save_stack {b : Cpu} (h : At b.memory b.esp ws) (hlen : ws.length < 2 ^ 29)
    (k : Surroundings) :
    ∃ d gs fs es ds, b.run k saveCode = d ∧ SegmentWords b gs fs es ds ∧
      At d.memory d.esp ((b.esp - 48) :: gs :: fs :: es :: ds :: (b.generalWords ++ ws)) ∧
      d.esp = b.esp - 52 ∧ d.cs = b.cs ∧ d.segment = fun _ => gdtSelectorKernelData := by
  obtain ⟨b₁, hrun₁, h₁, hesp₁, hcs₁, hseg₁⟩ := Cpu.stack_pushes h
    [b.eax, b.ecx, b.edx, b.ebx, b.esp, b.ebp, b.esi, b.edi] (by change _ + 8 < _; omega)
  change b.step k .pushal = b₁ at hrun₁
  change At b₁.memory b₁.esp (b.generalWords ++ ws) at h₁
  change b₁.esp = b.esp - 32 at hesp₁
  have hwords : (b.generalWords ++ ws).length < 2 ^ 29 + 8 := by
    rw [List.length_append]
    change 8 + ws.length < _
    omega
  obtain ⟨b₂, ds, hrun₂, hds, h₂, hesp₂, hcs₂, hseg₂⟩ := step_pushSegment h₁ (by omega) k .ds
  obtain ⟨b₃, es, hrun₃, hes, h₃, hesp₃, hcs₃, hseg₃⟩ :=
    step_pushSegment h₂ (by simp only [List.length_cons]; omega) k .es
  obtain ⟨b₄, fs, hrun₄, hfs, h₄, hesp₄, hcs₄, hseg₄⟩ :=
    step_pushSegment h₃ (by simp only [List.length_cons]; omega) k .fs
  obtain ⟨b₅, gs, hrun₅, hgs, h₅, hesp₅, hcs₅, hseg₅⟩ :=
    step_pushSegment h₄ (by simp only [List.length_cons]; omega) k .gs
  obtain ⟨b₆, hrun₆, hmemory₆, hesp₆, hcs₆, hseg₆⟩ := run_kernelSegments k b₅ [.pushEsp]
  rw [hseg₁] at hds hseg₂
  rw [hseg₂] at hes hseg₃
  rw [hseg₃] at hfs hseg₄
  rw [hseg₄] at hgs
  have hframe : b₆.esp = b.esp - 48 := by
    rw [hesp₆, hesp₅, hesp₄, hesp₃, hesp₂, hesp₁]
    bv_omega
  rw [← hmemory₆, ← hesp₆] at h₅
  have hcall := Cpu.stack_push h₅ (by simp only [List.length_cons]; omega) b₆.esp
  refine ⟨b₆.push b₆.esp, gs, fs, es, ds, ?_, ⟨hgs, hfs, hes, hds⟩, ?_, ?_, ?_,
    funext fun s => ?_⟩
  · rw [saveCode, Cpu.run_cons, hrun₁, Cpu.run_cons, hrun₂, Cpu.run_cons, hrun₃, Cpu.run_cons,
      hrun₄, Cpu.run_cons, hrun₅, hrun₆]
    rfl
  · rw [← hframe]
    exact hcall
  · change b₆.esp - 4 = _
    rw [hframe]
    bv_omega
  · change b₆.cs = _
    rw [hcs₆, hcs₅, hcs₄, hcs₃, hcs₂, hcs₁]
  · rw [← congrFun hseg₆ s]
    cases s <;> rfl

/-! ## on the way out -/

theorem step_popSegment {c : Cpu} (h : At c.memory c.esp (w :: ws)) (k : Surroundings)
    (s : DataSegment) :
    ∃ d, c.step k (.popSegment s) = d ∧ At d.memory d.esp ws ∧ d.esp = c.esp + 4 ∧ d.cs = c.cs ∧
      d.segment = fun r => if r = s then w.setWidth 16 else c.segment r := by
  have hword : c.word 0 = w := h 0 (Nat.succ_pos _)
  have htail := h.tail
  refine ⟨_, rfl, ?_⟩
  rw [Cpu.step, hword]
  cases s with
  | ds => exact ⟨htail, rfl, rfl, funext fun r => by cases r <;> rfl⟩
  | es => exact ⟨htail, rfl, rfl, funext fun r => by cases r <;> rfl⟩
  | fs => exact ⟨htail, rfl, rfl, funext fun r => by cases r <;> rfl⟩
  | gs => exact ⟨htail, rfl, rfl, funext fun r => by cases r <;> rfl⟩

/-- `popal` gives the general registers back. -/
theorem step_popal {b c : Cpu} (h : At c.memory c.esp (b.generalWords ++ ws)) (k : Surroundings) :
    ∃ d, c.step k .popal = d ∧ At d.memory d.esp ws ∧ d.esp = c.esp + 32 ∧ d.cs = c.cs ∧
      d.segment = c.segment ∧ d.edi = b.edi ∧ d.esi = b.esi ∧ d.ebp = b.ebp ∧ d.ebx = b.ebx ∧
      d.edx = b.edx ∧ d.ecx = b.ecx ∧ d.eax = b.eax := by
  have hword : ∀ i (hi : i < 8), c.word i = b.generalWords[i] := fun i hi => by
    have hlen : i < (b.generalWords ++ ws).length := by
      rw [List.length_append]
      change i < 8 + _
      omega
    exact (h i hlen).trans (List.getElem_append_left hi)
  refine ⟨c.popal, rfl, h.drop, rfl, rfl, funext fun s => by cases s <;> rfl, hword 0 (by decide),
    hword 1 (by decide), hword 2 (by decide), hword 4 (by decide), hword 5 (by decide),
    hword 6 (by decide), hword 7 (by decide)⟩

/-- `iret` goes back to what was interrupted. -/
theorem iret_restores {c c₀ : Cpu} (h : At c.memory c.esp (eip :: selector :: eflags :: outer))
    (hkernel : privilege c.cs = 0) (hselector : selector.setWidth 16 = c₀.cs)
    (houter : OuterWords c₀ outer) :
    c.iret.eip = eip ∧ c.iret.cs = c₀.cs ∧ c.iret.eflags = eflags ∧
      (privilege c₀.cs = 0 → c.iret.esp = c.esp + 12) ∧
      (privilege c₀.cs ≠ 0 → c.iret.esp = c₀.esp ∧ c.iret.ss = c₀.ss) := by
  have heip : c.word 0 = eip := h 0 (Nat.succ_pos _)
  have hcs : c.word 1 = selector := h 1 (by simp)
  have heflags : c.word 2 = eflags := h 2 (by simp)
  unfold Cpu.iret
  rw [heip, hcs, heflags, hselector, hkernel]
  unfold OuterWords at houter
  dsimp only
  split
  · next hpriv => exact ⟨rfl, rfl, rfl, fun _ => rfl, fun hne => absurd hpriv hne⟩
  · next hpriv =>
      rw [if_neg hpriv] at houter
      obtain ⟨ssWord, rfl, hss⟩ := houter
      have hesp : c.word 3 = c₀.esp := h 3 (by simp)
      have hword : c.word 4 = ssWord := h 4 (by simp)
      exact ⟨rfl, rfl, rfl, fun heq => absurd heq hpriv, fun _ => ⟨hesp, by rw [hword, hss]⟩⟩

/-- The order in which a common handler gives the data segments back. -/
def Stub.pops : Stub → List DataSegment
  | .irq _ _ => [.gs, .fs, .es, .ds]
  | _ => [.ds, .es, .fs, .gs]

/-- The two common handlers differ in this order only. -/
theorem Stub.common_eq (stub : Stub) :
    stub.common =
      saveCode ++ .call :: .addEsp 4 :: (stub.pops.map .popSegment ++ [.popal, .addEsp 8, .iret]) := by
  cases stub <;> rfl

theorem Cpu.run_append (k : Surroundings) (c : Cpu) (code code' : List Instr) :
    c.run k (code ++ code') = (c.run k code).run k code' :=
  List.foldl_append

theorem Stub.atCall_eq (stub : Stub) (k : Surroundings) (c : Cpu) (error : BitVec 32) :
    stub.atCall k c error =
      ((c.interrupt k (stub.error error)).run k stub.pushes).run k saveCode := by
  rw [← Cpu.run_append]
  cases stub <;> rfl

/-! ## the handler -/

/-- The C function returns, in the state `d` with the argument `regs`: the stack pointer
and the code segment are as it has found them, and so is the frame. -/
structure Returns (k : Surroundings) (d : Cpu) (regs : BitVec 32) : Prop where
  esp : (k.handler d).esp = d.esp
  cs : (k.handler d).cs = d.cs
  frame : ∀ i < 19, (k.handler d).memory (regs + BitVec.ofNat 32 (4 * i)) =
    d.memory (regs + BitVec.ofNat 32 (4 * i))

/-- What the handler finds in the frame: each field is the register that it is named
after.  `esp` and `ss` belong to the frame of another privilege level only. -/
structure Names (stub : Stub) (c : Cpu) (error regs : BitVec 32) (r : Registers) : Prop where
  gs : r.gs % 2 ^ 16 = c.gs.toNat
  fs : r.fs % 2 ^ 16 = c.fs.toNat
  es : r.es % 2 ^ 16 = c.es.toNat
  ds : r.ds % 2 ^ 16 = c.ds.toNat
  edi : r.edi = c.edi.toNat
  esi : r.esi = c.esi.toNat
  ebp : r.ebp = c.ebp.toNat
  kernelEsp : r.kernelEsp = (regs + 48).toNat
  ebx : r.ebx = c.ebx.toNat
  edx : r.edx = c.edx.toNat
  ecx : r.ecx = c.ecx.toNat
  eax : r.eax = c.eax.toNat
  intNo : r.intNo = stub.vector
  errCode : r.errCode = (stub.errorWord error).toNat
  eip : r.eip = c.eip.toNat
  cs : r.cs % 2 ^ 16 = c.cs.toNat
  eflags : r.eflags = c.eflags.toNat
  esp : privilege c.cs ≠ 0 → r.esp = c.esp.toNat
  ss : privilege c.cs ≠ 0 → r.ss % 2 ^ 16 = c.ss.toNat

/-- The general registers, the stack pointer and the place of the interrupt are back. -/
structure Resumed (c d : Cpu) : Prop where
  eax : d.eax = c.eax
  ecx : d.ecx = c.ecx
  edx : d.edx = c.edx
  ebx : d.ebx = c.ebx
  esp : d.esp = c.esp
  ebp : d.ebp = c.ebp
  esi : d.esi = c.esi
  edi : d.edi = c.edi
  eip : d.eip = c.eip
  cs : d.cs = c.cs
  eflags : d.eflags = c.eflags
  ss : privilege c.cs ≠ 0 → d.ss = c.ss

/-- And the data segments. -/
structure Restored (c d : Cpu) : Prop extends Resumed c d where
  ds : d.ds = c.ds
  es : d.es = c.es
  fs : d.fs = c.fs
  gs : d.gs = c.gs

theorem toNat_mod_of_setWidth {w : BitVec 32} {selector : BitVec 16}
    (h : w.setWidth 16 = selector) : w.toNat % 2 ^ 16 = selector.toNat := by
  rw [← h, BitVec.toNat_setWidth]

/-- The general words are those of the interrupted program, but for the stack pointer. -/
theorem SameRegisters.generalWords {c b : Cpu} (h : SameRegisters c b) :
    b.generalWords = [c.edi, c.esi, c.ebp, b.esp, c.ebx, c.edx, c.ecx, c.eax] := by
  rw [SameRegisters] at h
  rw [h]
  rfl

theorem SameRegisters.segmentWords {c b : Cpu} (h : SameRegisters c b)
    (hw : SegmentWords b gs fs es ds) : SegmentWords c gs fs es ds := by
  rw [SameRegisters] at h
  rw [h] at hw
  exact ⟨hw.gs, hw.fs, hw.es, hw.ds⟩

/-- The frame in memory. -/
theorem names_of_stack {stub : Stub} (hstub : stub ∈ stubs) {b c : Cpu} {mem : BitVec 32 → BitVec 32}
    (h : At mem regs (gs :: fs :: es :: ds :: (b.generalWords ++ BitVec.ofNat 32 stub.vector ::
      stub.errorWord error :: c.eip :: selector :: c.eflags :: outer)))
    (hregs : regs = b.esp - 48) (hseg : SegmentWords c gs fs es ds) (hsame : SameRegisters c b)
    (hselector : selector.setWidth 16 = c.cs) (houter : OuterWords c outer) :
    Names stub c error regs (registersAt mem regs) := by
  have hvector : stub.vector < 2 ^ 32 := by
    have hall : ∀ stub ∈ stubs, stub.vector < 2 ^ 32 := by decide
    exact hall stub hstub
  rw [hsame.generalWords] at h
  simp only [List.cons_append, List.nil_append] at h
  have hfield : ∀ i (hi : i < _), (mem (regs + BitVec.ofNat 32 (4 * i))).toNat = _ := fun i hi =>
    congrArg BitVec.toNat (h i hi)
  have hhalf : ∀ i (hi : i < _), (mem (regs + BitVec.ofNat 32 (4 * i))).toNat % 2 ^ 16 = _ :=
    fun i hi => congrArg (fun w : BitVec 32 => w.toNat % 2 ^ 16) (h i hi)
  unfold OuterWords at houter
  refine
    { gs := (hhalf 0 (by simp)).trans (toNat_mod_of_setWidth hseg.gs)
      fs := (hhalf 1 (by simp)).trans (toNat_mod_of_setWidth hseg.fs)
      es := (hhalf 2 (by simp)).trans (toNat_mod_of_setWidth hseg.es)
      ds := (hhalf 3 (by simp)).trans (toNat_mod_of_setWidth hseg.ds)
      edi := hfield 4 (by simp)
      esi := hfield 5 (by simp)
      ebp := hfield 6 (by simp)
      kernelEsp := (hfield 7 (by simp)).trans ?_
      ebx := hfield 8 (by simp)
      edx := hfield 9 (by simp)
      ecx := hfield 10 (by simp)
      eax := hfield 11 (by simp)
      intNo := (hfield 12 (by simp)).trans (Nat.mod_eq_of_lt hvector)
      errCode := hfield 13 (by simp)
      eip := hfield 14 (by simp)
      cs := (hhalf 15 (by simp)).trans (toNat_mod_of_setWidth hselector)
      eflags := hfield 16 (by simp)
      esp := fun hpriv => ?_
      ss := fun hpriv => ?_ }
  · change b.esp.toNat = _
    rw [hregs, BitVec.sub_add_cancel]
  · rw [if_neg hpriv] at houter
    obtain ⟨ssWord, rfl, -⟩ := houter
    exact hfield 17 (by simp)
  · rw [if_neg hpriv] at houter
    obtain ⟨ssWord, rfl, hss⟩ := houter
    exact (hhalf 18 (by simp)).trans (toNat_mod_of_setWidth hss)

/-! ## the whole stub -/

/-- The data segments as a stub leaves them. -/
def Stub.segmentsAfter : Stub → Cpu → DataSegment → BitVec 16
  | .irq _ _, c => c.segment
  | _, c => fun
    | .ds => c.gs
    | .es => c.fs
    | .fs => c.es
    | .gs => c.ds

theorem sameRegisters_iret (c : Cpu) : SameRegisters c c.iret := by
  unfold SameRegisters Cpu.iret
  dsimp only
  split <;> rfl

theorem SameRegisters.segment {c d : Cpu} (h : SameRegisters c d) : d.segment = c.segment := by
  rw [SameRegisters] at h
  rw [h]
  funext s
  cases s <;> rfl

/-- Four pops. -/
theorem run_pops {e : Cpu} (h : At e.memory e.esp (w₁ :: w₂ :: w₃ :: w₄ :: ws)) (k : Surroundings)
    (s₁ s₂ s₃ s₄ : DataSegment) :
    ∃ d, e.run k [.popSegment s₁, .popSegment s₂, .popSegment s₃, .popSegment s₄] = d ∧
      At d.memory d.esp ws ∧ d.esp = e.esp + 16 ∧ d.cs = e.cs ∧
      d.segment = fun r =>
        if r = s₄ then w₄.setWidth 16 else if r = s₃ then w₃.setWidth 16
        else if r = s₂ then w₂.setWidth 16 else if r = s₁ then w₁.setWidth 16 else e.segment r := by
  obtain ⟨e₁, hrun₁, h₁, hesp₁, hcs₁, hseg₁⟩ := step_popSegment h k s₁
  obtain ⟨e₂, hrun₂, h₂, hesp₂, hcs₂, hseg₂⟩ := step_popSegment h₁ k s₂
  obtain ⟨e₃, hrun₃, h₃, hesp₃, hcs₃, hseg₃⟩ := step_popSegment h₂ k s₃
  obtain ⟨e₄, hrun₄, h₄, hesp₄, hcs₄, hseg₄⟩ := step_popSegment h₃ k s₄
  refine ⟨e₄, ?_, h₄, ?_, ?_, ?_⟩
  · rw [Cpu.run_cons, hrun₁, Cpu.run_cons, hrun₂, Cpu.run_cons, hrun₃, Cpu.run_cons, hrun₄]
    rfl
  · rw [hesp₄, hesp₃, hesp₂, hesp₁]
    bv_omega
  · rw [hcs₄, hcs₃, hcs₂, hcs₁]
  · rw [hseg₄, hseg₃, hseg₂, hseg₁]

/-- The pops of a stub. -/
theorem run_stub_pops {e c : Cpu} (h : At e.memory e.esp (gs :: fs :: es :: ds :: ws))
    (k : Surroundings) (stub : Stub) (hseg : SegmentWords c gs fs es ds) :
    ∃ d, e.run k (stub.pops.map .popSegment) = d ∧ At d.memory d.esp ws ∧ d.esp = e.esp + 16 ∧
      d.cs = e.cs ∧ d.segment = stub.segmentsAfter c := by
  have hirq : ∃ d, e.run k ([.gs, .fs, .es, .ds].map Instr.popSegment) = d ∧
      At d.memory d.esp ws ∧ d.esp = e.esp + 16 ∧ d.cs = e.cs ∧ d.segment = c.segment := by
    obtain ⟨d, hrun, hstack, hesp, hcs, hsegment⟩ := run_pops h k .gs .fs .es .ds
    rw [hseg.gs, hseg.fs, hseg.es, hseg.ds] at hsegment
    exact ⟨d, hrun, hstack, hesp, hcs, hsegment.trans (funext fun r => by cases r <;> rfl)⟩
  have hisr : ∃ d, e.run k ([.ds, .es, .fs, .gs].map Instr.popSegment) = d ∧
      At d.memory d.esp ws ∧ d.esp = e.esp + 16 ∧ d.cs = e.cs ∧
      d.segment = (Stub.isrNoerr 0).segmentsAfter c := by
    obtain ⟨d, hrun, hstack, hesp, hcs, hsegment⟩ := run_pops h k .ds .es .fs .gs
    rw [hseg.gs, hseg.fs, hseg.es, hseg.ds] at hsegment
    exact ⟨d, hrun, hstack, hesp, hcs, hsegment.trans (funext fun r => by cases r <;> rfl)⟩
  cases stub with
  | isrNoerr num => exact hisr
  | isrErr num => exact hisr
  | irq num remap => exact hirq

/-- The way out: from the frame to the interrupted program. -/
theorem run_exit (stub : Stub) {b c e : Cpu} (k : Surroundings)
    (h : At e.memory e.esp (gs :: fs :: es :: ds :: (b.generalWords ++ vector :: errorWord ::
      c.eip :: selector :: c.eflags :: outer)))
    (hkernel : privilege e.cs = 0) (hseg : SegmentWords c gs fs es ds) (hsame : SameRegisters c b)
    (hselector : selector.setWidth 16 = c.cs) (houter : OuterWords c outer)
    (hesp : privilege c.cs = 0 → e.esp = c.esp - 68) :
    ∃ r, e.run k (stub.pops.map .popSegment ++ [.popal, .addEsp 8, .iret]) = r ∧
      Resumed c r ∧ r.segment = stub.segmentsAfter c := by
  obtain ⟨d, hrun, hstack, hespd, hcsd, hsegment⟩ := run_stub_pops h k stub hseg
  obtain ⟨d', hrun', hstack', hespd', hcsd', hsegment', hedi, hesi, hebp, hebx, hedx, hecx, heax⟩ :=
    step_popal hstack k
  have hiret : At (d'.drop 8).memory (d'.drop 8).esp (c.eip :: selector :: c.eflags :: outer) :=
    hstack'.drop (u := [vector, errorWord])
  obtain ⟨heip, hcs, heflags, hesp₀, hesp₃⟩ := iret_restores (c := d'.drop 8) hiret
    (by change privilege d'.cs = 0; rw [hcsd', hcsd, hkernel]) hselector houter
  have hsame' := sameRegisters_iret (d'.drop 8)
  have hwords := hsame.generalWords
  have hgeneral := hsame'.generalWords
  simp only [Cpu.generalWords, List.cons.injEq, and_true] at hwords hgeneral
  obtain ⟨hedi', hesi', hebp', -, hebx', hedx', hecx', heax'⟩ := hwords
  obtain ⟨hedi'', hesi'', hebp'', -, hebx'', hedx'', hecx'', heax''⟩ := hgeneral
  refine ⟨(d'.drop 8).iret, ?_,
    { eax := heax''.trans (heax.trans heax')
      ecx := hecx''.trans (hecx.trans hecx')
      edx := hedx''.trans (hedx.trans hedx')
      ebx := hebx''.trans (hebx.trans hebx')
      esp := ?_
      ebp := hebp''.trans (hebp.trans hebp')
      esi := hesi''.trans (hesi.trans hesi')
      edi := hedi''.trans (hedi.trans hedi')
      eip := heip
      cs := hcs
      eflags := heflags
      ss := fun hpriv => (hesp₃ hpriv).2 }, ?_⟩
  · rw [Cpu.run_append, hrun, Cpu.run_cons, hrun']
    rfl
  · by_cases hpriv : privilege c.cs = 0
    · rw [hesp₀ hpriv]
      change d'.esp + 8 + 12 = c.esp
      rw [hespd', hespd, hesp hpriv]
      bv_omega
    · exact (hesp₃ hpriv).1
  · rw [hsame'.segment]
    change d'.segment = _
    rw [hsegment', hsegment]

/-- The stack at the call: the frame, over what the processor has pushed. -/
theorem Stub.atCall_stack (stub : Stub) (k : Surroundings) (c : Cpu) (error : BitVec 32) :
    ∃ d b gs fs es ds selector outer, stub.atCall k c error = d ∧ SegmentWords c gs fs es ds ∧
      SameRegisters c b ∧ selector.setWidth 16 = c.cs ∧ OuterWords c outer ∧
      At d.memory d.esp ((b.esp - 48) :: gs :: fs :: es :: ds :: (b.generalWords ++
        BitVec.ofNat 32 stub.vector :: stub.errorWord error :: c.eip :: selector :: c.eflags ::
          outer)) ∧
      d.esp = b.esp - 52 ∧ d.cs = gdtSelectorKernelCode ∧
      (d.segment = fun _ => gdtSelectorKernelData) ∧ (privilege c.cs = 0 → b.esp = c.esp - 20) := by
  obtain ⟨b, selector, outer, hb, hselector, houter, hstackb, hsame, hcsb, hespb⟩ :=
    stub_stack stub k c error
  have hlen := houter.length
  obtain ⟨d, gs, fs, es, ds, hrun, hseg, hstack, hesp, hcs, hsegment⟩ :=
    save_stack hstackb (by simp only [List.length_cons]; omega) k
  exact ⟨d, b, gs, fs, es, ds, selector, outer, by rw [Stub.atCall_eq, ← hb, hrun],
    hsame.segmentWords hseg, hsame, hselector, houter, hstack, hesp, hcs.trans hcsb, hsegment, hespb⟩

/-- **The frame** names every register of the interrupted program. -/
theorem atCall_names (k : Surroundings) (c : Cpu) (error : BitVec 32) {stub : Stub}
    (hstub : stub ∈ stubs) :
    Names stub c error ((stub.atCall k c error).word 0)
      (registersAt (stub.atCall k c error).memory ((stub.atCall k c error).word 0)) := by
  obtain ⟨d, b, gs, fs, es, ds, selector, outer, hd, hseg, hsame, hselector, houter, hstack, hesp, -⟩ :=
    stub.atCall_stack k c error
  have hregs : d.word 0 = b.esp - 48 := hstack 0 (Nat.succ_pos _)
  have hframe : d.esp + 4 = b.esp - 48 := by
    rw [hesp]
    bv_omega
  rw [hd, hregs]
  have hnames := hstack.tail
  rw [hframe] at hnames
  exact names_of_stack hstub hnames rfl hseg hsame hselector houter

/-- The handler is called in the kernel's segments. -/
theorem atCall_segments (k : Surroundings) (c : Cpu) (error : BitVec 32) (stub : Stub) :
    (stub.atCall k c error).cs = gdtSelectorKernelCode ∧
      (stub.atCall k c error).segment = fun _ => gdtSelectorKernelData := by
  obtain ⟨d, b, gs, fs, es, ds, selector, outer, hd, -, -, -, -, -, -, hcs, hsegment, -⟩ :=
    stub.atCall_stack k c error
  rw [hd]
  exact ⟨hcs, hsegment⟩

/-- **One interrupt**: the frame names every register, and all but the data segments are
given back; these as the stub pops them. -/
theorem stub_spec (k : Surroundings) (c : Cpu) (error : BitVec 32) {stub : Stub}
    (hstub : stub ∈ stubs)
    (h : Returns k ((stub.atCall k c error).push k.returnAddress) ((stub.atCall k c error).word 0)) :
    Names stub c error ((stub.atCall k c error).word 0)
        (registersAt (stub.atCall k c error).memory ((stub.atCall k c error).word 0)) ∧
      Resumed c (stub.after k c error) ∧ (stub.after k c error).segment = stub.segmentsAfter c := by
  refine ⟨atCall_names k c error hstub, ?_⟩
  obtain ⟨d, b, gs, fs, es, ds, selector, outer, hd, hseg, hsame, hselector, houter, hstack, hesp, hcs,
    -, hespb⟩ := stub.atCall_stack k c error
  have hlen := houter.length
  have hregs : d.word 0 = b.esp - 48 := hstack 0 (Nat.succ_pos _)
  rw [hd, hregs] at h
  -- the call, with the return address on the stack
  have hcall := (Cpu.stack_push hstack
    (by simp only [List.length_cons, List.length_append, Cpu.generalWords, List.length_nil]; omega)
    k.returnAddress).tail.tail
  have haddr : (d.push k.returnAddress).esp + 4 + 4 = b.esp - 48 := by
    change d.esp - 4 + 4 + 4 = _
    rw [hesp]
    bv_omega
  rw [haddr] at hcall
  have hafter := hcall.congr (m := (k.handler (d.push k.returnAddress)).memory) fun i hi =>
    h.frame i (by
      simp only [List.length_cons, List.length_append, Cpu.generalWords, List.length_nil] at hi
      omega)
  have hespe : (k.handler (d.push k.returnAddress)).esp + 4 + 4 = b.esp - 48 := by
    rw [h.esp]
    exact haddr
  have hcse : privilege (k.handler (d.push k.returnAddress)).cs = 0 := by
    rw [h.cs]
    change privilege d.cs = 0
    rw [hcs]
    decide
  obtain ⟨r, hexit, hresumed, hsegment⟩ := run_exit stub
    (e := ((k.handler (d.push k.returnAddress)).drop 4).drop 4) k
    (by rw [← hespe] at hafter; exact hafter) hcse hseg hsame hselector houter (fun hpriv => by
      change (k.handler (d.push k.returnAddress)).esp + 4 + 4 = _
      rw [hespe, hespb hpriv]
      bv_omega)
  have hr : stub.after k c error = r := by
    rw [Stub.after, Stub.code, Stub.common_eq, Cpu.run_append, Cpu.run_append, ← hexit, ← hd,
      Stub.atCall_eq, Cpu.run_cons, Cpu.run_cons]
    rfl
  rw [hr]
  exact ⟨hresumed, hsegment⟩

/-- **Interrupts are transparent** through the IRQ stubs always, and through the stubs of
`isr.S` exactly if `ds` is `gs` and `es` is `fs`. -/
theorem interrupt_transparent_iff (k : Surroundings) (c : Cpu) (error : BitVec 32) {stub : Stub}
    (hstub : stub ∈ stubs)
    (h : Returns k ((stub.atCall k c error).push k.returnAddress) ((stub.atCall k c error).word 0)) :
    (Names stub c error ((stub.atCall k c error).word 0)
        (registersAt (stub.atCall k c error).memory ((stub.atCall k c error).word 0)) ∧
      Restored c (stub.after k c error)) ↔ stub.isIrq = true ∨ c.ds = c.gs ∧ c.es = c.fs := by
  obtain ⟨hnames, hresumed, hsegment⟩ := stub_spec k c error hstub h
  rw [and_iff_right hnames]
  have hsegments : Restored c (stub.after k c error) ↔
      ∀ s, stub.segmentsAfter c s = c.segment s := by
    rw [← hsegment]
    refine ⟨fun hr s => ?_, fun hall =>
      { hresumed with ds := hall .ds, es := hall .es, fs := hall .fs, gs := hall .gs }⟩
    cases s with
    | ds => exact hr.ds
    | es => exact hr.es
    | fs => exact hr.fs
    | gs => exact hr.gs
  rw [hsegments]
  have hisr : (∀ s, (Stub.isrNoerr 0).segmentsAfter c s = c.segment s) ↔ c.ds = c.gs ∧ c.es = c.fs := by
    refine ⟨fun hall => ⟨hall .gs, hall .fs⟩, fun ⟨hds, hes⟩ s => ?_⟩
    cases s with
    | ds => exact hds.symm
    | es => exact hes.symm
    | fs => exact hes
    | gs => exact hds
  cases stub with
  | isrNoerr num => exact hisr.trans (by simp [Stub.isIrq])
  | isrErr num => exact hisr.trans (by simp [Stub.isIrq])
  | irq num remap => exact iff_of_true (fun s => rfl) (.inl rfl)

/-- A user program with its own `gs`; the handler does nothing. -/
def Cpu.user : Cpu :=
  { eax := 0, ecx := 0, edx := 0, ebx := 0, esp := 0xBFFFFFFC, ebp := 0, esi := 0, edi := 0
    ds := 0x23, es := 0x23, fs := 0x23, gs := 0, cs := 0x1B, ss := 0x23
    eip := 0, eflags := 0x202, memory := fun _ => 0 }

/-- The kernel, with nothing in the general registers. -/
def Cpu.kernel : Cpu :=
  { Cpu.user with ds := 0x10, es := 0x10, fs := 0x10, gs := 0x10, cs := 0x08, ss := 0x10 }

def Surroundings.idle : Surroundings :=
  { ss0 := 0x10
    esp0 := 0xD0001000
    stub := 0xC0100000
    returnAddress := 0xC0100020
    handler := id
    zeroExtends := true }

theorem returns_idle (d : Cpu) (regs : BitVec 32) : Returns .idle d regs :=
  ⟨rfl, rfl, fun _ _ => rfl⟩

/-- The timer interrupt. -/
theorem interrupt_transparent_iff_timer :
    Stub.irq 0 32 ∈ stubs ∧ Restored .user ((Stub.irq 0 32).after .idle .user 0) := by
  have hstub : Stub.irq 0 32 ∈ stubs := by decide
  exact ⟨hstub, ((interrupt_transparent_iff .idle .user 0 hstub (returns_idle _ _)).mpr (.inl rfl)).2⟩

/-- A system call gives the program the null segment for its data, and its data segment
for `gs`. -/
theorem syscall_swaps_segments :
    Stub.isrNoerr 48 ∈ stubs ∧
      Returns .idle (((Stub.isrNoerr 48).atCall .idle .user 0).push Surroundings.idle.returnAddress)
        (((Stub.isrNoerr 48).atCall .idle .user 0).word 0) ∧
      ¬ Restored .user ((Stub.isrNoerr 48).after .idle .user 0) ∧
      ((Stub.isrNoerr 48).after .idle .user 0).ds = 0 ∧
      ((Stub.isrNoerr 48).after .idle .user 0).gs = 0x23 := by
  have hstub : Stub.isrNoerr 48 ∈ stubs := by decide
  obtain ⟨-, -, hsegment⟩ := stub_spec .idle .user 0 hstub (returns_idle _ _)
  have hds := congrFun hsegment .ds
  have hgs := congrFun hsegment .gs
  refine ⟨hstub, returns_idle _ _, fun hr => ?_, hds, hgs⟩
  have hne := hds.symm.trans hr.ds
  revert hne
  decide

end NimbleOS
