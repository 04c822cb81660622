import NimbleOS.Boot
import NimbleOS.Cpu.Idt
import NimbleOS.Proc.Switch
import NimbleOS.Tty.Interleave
import NimbleOS.Tty.Window

/-!
# NimbleOS.Cpu.Syscall

System calls (`kernel/src/sys/syscall.c`, `kernel/src/cpu/isr.c`).  Interrupt 0x30 goes
through two tables of handlers: `isr_handler` checks its index, `syscall_handler` takes
`eax` as it comes, so a call stays in the table exactly if its number is below 256.
-/

namespace NimbleOS

/-! ## the tables -/

def isrExceptionCount : Nat := 32
def syscallCount : Nat := 256

/-- The functions that are passed to `isr_register_handler`. -/
inductive IsrHandler where
  | pagingFault
  | syscall
  deriving DecidableEq

/-- The functions that `syscall_init` puts in its table. -/
inductive SysHandler where
  | yield
  | exit
  | wait
  | putchar
  deriving DecidableEq

/-- `isr_handlers` and `syscall_handlers`, and what the handlers work on. -/
structure System where
  isrHandlers : Vector (Option IsrHandler) isrCount
  syscallHandlers : Vector (Option SysHandler) syscallCount
  kernel : Kernel
  tty : Tty

/-- How an interrupt ends: the stub gives the registers of a frame back, the scheduler
enters a process, or `abort` stops the machine. -/
inductive Resume where
  | frame (regs : Registers)
  | iret (iret : Iret)
  | abort

namespace System

def printf (s : System) (format : List (BitVec 8)) (args : List (BitVec 32)) :
    Except Halt System := do
  let tty ← kernelPrintf s.tty format args
  return { s with tty := tty }

/-- The read `syscall_handlers[i]`. -/
def syscallHandlerAt (s : System) (i : Nat) : Except Halt (Option SysHandler) :=
  if h : i < syscallCount then .ok s.syscallHandlers[i] else .error .outOfBounds

/-- The assignment `syscall_handlers[i] = handler`. -/
def setSyscallHandler (s : System) (i : Nat) (handler : SysHandler) : Except Halt System :=
  if h : i < syscallCount then
    .ok { s with syscallHandlers := s.syscallHandlers.set i (some handler) h }
  else .error .outOfBounds

end System

/-- `isr_register_handler`.  The message about a registered handler is passed
`exception_msgs[num]`, which there is for exceptions only. -/
def isrRegisterHandler (s : System) (num : Nat) (handler : IsrHandler) : Except Halt System :=
  if h : num < isrCount then
    match s.isrHandlers[num] with
    | some _ =>
        if num < isrExceptionCount then
          s.printf ("[ISR] Interrupt handler %d already registered\n".toList.map chr)
            [BitVec.ofNat 32 num]
        else .error .outOfBounds
    | none => .ok { s with isrHandlers := s.isrHandlers.set num (some handler) h }
  else .error .assertion

def syscallInit (s : System) : Except Halt System := do
  let s ← isrRegisterHandler s 48 .syscall
  let s ← s.setSyscallHandler 0 .yield
  let s ← s.setSyscallHandler 1 .exit
  let s ← s.setSyscallHandler 2 .wait
  s.setSyscallHandler 3 .putchar

/-! ## the calls -/

/-- `proc_switch_process` with its redraw of the number in the corner. -/
def System.switchProcess (s : System) (regs : Option Registers) :
    Except Halt (System × Resume) := do
  let (kernel, iret) ← procSwitchProcess s.kernel regs
  match kernel.processes kernel.currentProcess with
  | none => .error .noProcess
  | some p =>
      let tty ← procRedraw s.tty (BitVec.ofNat 32 p.pid)
      return ({ s with kernel := kernel, tty := tty }, .iret iret)

def syscallYield (s : System) (regs : Registers) : Except Halt (System × Resume) :=
  s.switchProcess (some regs)

/-- What `proc_print_processes` prints for the pids of the ring. -/
def System.printProcesses (s : System) (pids : List Nat) : Except Halt System := do
  let s ← s.printf ("Process chain: ".toList.map chr) []
  let s ← pids.foldlM (fun s pid => s.printf ("%d -> ".toList.map chr) [BitVec.ofNat 32 pid]) s
  s.printf ("(loop)\n".toList.map chr) []

def syscallExit (fuel : Nat) (s : System) (_ : Registers) : Except Halt (System × Resume) := do
  let kernel ← procUnlinkCurrent s.kernel fuel
  let pids ← procPrintProcesses kernel fuel
  let s ← ({ s with kernel := kernel } : System).printProcesses pids
  s.switchProcess none

def syscallWait (s : System) (regs : Registers) : Except Halt (System × Resume) :=
  .ok (s, .frame regs)

def SysHandler.run (fuel : Nat) (s : System) (regs : Registers) :
    SysHandler → Except Halt (System × Resume)
  | .yield => syscallYield s regs
  | .exit => syscallExit fuel s regs
  | .wait => syscallWait s regs
  | .putchar => do
      let tty ← syscallPutchar s.tty (BitVec.ofNat 32 regs.ebx)
      return ({ s with tty := tty }, .frame regs)

/-- `"Unknown syscall %d\n"`. -/
def unknownSyscall : List (BitVec 8) := "Unknown syscall %d\n".toList.map chr

def syscallHandler (fuel : Nat) (s : System) (regs : Registers) :
    Except Halt (System × Resume) := do
  match ← s.syscallHandlerAt regs.eax with
  | some handler => handler.run fuel s regs
  | none =>
      let s ← s.printf unknownSyscall [BitVec.ofNat 32 regs.eax]
      return (s, .frame regs)

/-- `paging_fault_handler` ends in `abort`. -/
def IsrHandler.run (fuel : Nat) (s : System) (regs : Registers) :
    IsrHandler → Except Halt (System × Resume)
  | .pagingFault => .ok (s, .abort)
  | .syscall => syscallHandler fuel s regs

/-- `isr_handler`; what it prints before an `abort` is left out. -/
def isrHandler (fuel : Nat) (s : System) (regs : Registers) : Except Halt (System × Resume) :=
  if h : regs.intNo < isrCount then
    match s.isrHandlers[regs.intNo] with
    | some handler => handler.run fuel s regs
    | none => .ok (s, .abort)
  else .error .assertion

/-- The frame of interrupt 0x30: the stub pushes its number and an error code of 0. -/
def Registers.atSyscall (regs : Registers) : Registers := { regs with intNo := 48, errCode := 0 }

/-- `int 0x30` in a process with these registers. -/
def systemCall (fuel : Nat) (s : System) (regs : Registers) : Except Halt (System × Resume) :=
  isrHandler fuel s regs.atSyscall

/-! ## the tables after boot -/

/-- What `syscall_init` registers for each number. -/
def registered : Nat → Option SysHandler
  | 0 => some .yield
  | 1 => some .exit
  | 2 => some .wait
  | 3 => some .putchar
  | _ => none

/-- The tables as statics, before anything is registered. -/
def System.zeroed (kernel : Kernel) (tty : Tty) : System :=
  { isrHandlers := .replicate _ none
    syscallHandlers := .replicate _ none
    kernel := kernel
    tty := tty }

/-- What `paging_init` and `syscall_init` register at boot, in this order. -/
def handlersInit (s : System) : Except Halt System := do
  let s ← isrRegisterHandler s 14 .pagingFault
  syscallInit s

/-- Interrupt 0x30 has its handler, and every number its own. -/
structure System.Initialised (s : System) : Prop where
  isr : s.isrHandlers[48] = some .syscall
  calls : ∀ i (h : i < syscallCount), s.syscallHandlers[i] = registered i

theorem isrRegisterHandler_free (handler : IsrHandler) (h : num < isrCount)
    (hfree : s.isrHandlers[num] = none) :
    isrRegisterHandler s num handler =
      .ok { s with isrHandlers := s.isrHandlers.set num (some handler) h } := by
  simp only [isrRegisterHandler, dif_pos h, hfree]

theorem syscallInit_ok {s : System} (hisr : s.isrHandlers[48] = none)
    (hcalls : s.syscallHandlers = .replicate _ none) :
    ∃ s', syscallInit s = .ok s' ∧ s'.Initialised ∧ s'.kernel = s.kernel ∧ s'.tty = s.tty := by
  have h48 : 48 < isrCount := by decide
  have hlt : ∀ i, i < 4 → i < syscallCount := fun i hi => Nat.lt_trans hi (by decide)
  simp only [syscallInit, isrRegisterHandler_free .syscall h48 hisr, bind, Except.bind,
    System.setSyscallHandler, dif_pos (hlt 0 (by decide)), dif_pos (hlt 1 (by decide)),
    dif_pos (hlt 2 (by decide)), dif_pos (hlt 3 (by decide))]
  refine ⟨_, rfl, ⟨Vector.getElem_set_self _, fun i hi => ?_⟩, rfl, rfl⟩
  simp only [Vector.getElem_set, hcalls, Vector.getElem_replicate]
  match i with
  | 0 | 1 | 2 | 3 => rfl
  | n + 4 => rfl

theorem handlersInit_ok (kernel : Kernel) (tty : Tty) :
    ∃ s, handlersInit (.zeroed kernel tty) = .ok s ∧ s.Initialised ∧ s.kernel = kernel ∧
      s.tty = tty := by
  have h14 : 14 < isrCount := by decide
  have hfree : (System.zeroed kernel tty).isrHandlers[14] = none := Vector.getElem_replicate _
  rw [handlersInit, isrRegisterHandler_free .pagingFault h14 hfree]
  refine syscallInit_ok (s := { System.zeroed kernel tty with
    isrHandlers := (System.zeroed kernel tty).isrHandlers.set 14 (some .pagingFault) h14 }) ?_ rfl
  rw [Vector.getElem_set_ne _ _ (by decide)]
  exact Vector.getElem_replicate _

/-! ## one call -/

/-- The message, for a number `n`. -/
def unknownText (n : BitVec 32) : List (BitVec 8) :=
  "Unknown syscall ".toList.map chr ++ itoa n.toInt 10 ++ [chr '\n']

/-- What a system call is to do, whatever its registers: the table is read within its
entries and holds what was registered for the number; numbers without a call only print
the message; the calls from 2 on give the caller's frame back and leave the kernel and the
tables alone, and what they write is in the terminal. -/
structure Confined (fuel : Nat) (s : System) (regs : Registers) : Prop where
  lookup : s.syscallHandlerAt regs.eax = .ok (registered regs.eax)
  unknown : 3 < regs.eax → systemCall fuel s regs =
    (s.printf unknownSyscall [BitVec.ofNat 32 regs.eax]).map fun s' => (s', .frame regs.atSyscall)
  wait : regs.eax = 2 → systemCall fuel s regs = .ok (s, .frame regs.atSyscall)
  frame : 3 ≤ regs.eax → ∃ tty,
    systemCall fuel s regs = .ok ({ s with tty := tty }, .frame regs.atSyscall) ∧
      InWindow s.tty.term tty

/-- The number is in the table, and the terminal can be given what the call writes. -/
structure CallRight (s : System) (regs : Registers) : Prop where
  number : regs.eax < syscallCount
  putchar : regs.eax = 3 → s.tty.Takes ((BitVec.ofNat 32 regs.ebx).setWidth 8)
  unknown : 3 < regs.eax → s.tty.Takes (chr 'U')

theorem kernelPrintf_unknown (s : Tty) (n : BitVec 32) :
    kernelPrintf s unknownSyscall [n] = termWrite s (unknownText n) := by
  have hformat : unknownSyscall =
      "Unknown syscall ".toList.map chr ++ [chr '%', chr 'd'] ++ [chr '\n'] := rfl
  have hpre : ∀ c ∈ "Unknown syscall ".toList.map chr, c ≠ 0 ∧ c ≠ chr '%' := by decide
  have hpost : ∀ c ∈ [chr '\n'], c ≠ 0 ∧ c ≠ chr '%' := by decide
  rw [hformat]
  exact kernelPrintf_number s n hpre hpost

/-- The message is written inside of the terminal exactly if its first letter is. -/
theorem kernelPrintf_unknown_iff (s : Tty) (n : BitVec 32) :
    (∃ s', kernelPrintf s unknownSyscall [n] = .ok s' ∧ InWindow s.term s') ↔
      s.Takes (chr 'U') := by
  have htext : ∀ c ∈ "nknown syscall ".toList.map chr ++ itoa n.toInt 10 ++ [chr '\n'],
      c ≠ chr '\x1B' := by
    rintro c hc rfl
    rw [List.mem_append, List.mem_append] at hc
    rcases hc with (hc | hc) | hc
    · revert hc
      decide
    · exact absurd (isprint_of_mem_itoa hc) (by decide)
    · revert hc
      decide
  rw [kernelPrintf_unknown, ← termWrite_takes_iff s (by decide) (by decide) htext]
  rfl

theorem System.Initialised.lookup {s : System} (hs : s.Initialised) (h : i < syscallCount) :
    s.syscallHandlerAt i = .ok (registered i) := by
  rw [System.syscallHandlerAt, dif_pos h, hs.calls i h]

theorem System.syscallHandlerAt_out (s : System) (h : ¬ i < syscallCount) :
    s.syscallHandlerAt i = .error .outOfBounds := dif_neg h

/-- Interrupt 0x30 reaches `syscall_handler`. -/
theorem systemCall_eq {s : System} (hs : s.Initialised) (fuel : Nat) (regs : Registers) :
    systemCall fuel s regs = syscallHandler fuel s regs.atSyscall := by
  have h48 : regs.atSyscall.intNo < isrCount := show 48 < isrCount by decide
  have hhandler : s.isrHandlers[regs.atSyscall.intNo] = some .syscall := hs.isr
  rw [systemCall, isrHandler, dif_pos h48, hhandler]
  rfl

theorem systemCall_wait {s : System} (hs : s.Initialised) (h : regs.eax = 2) :
    systemCall fuel s regs = .ok (s, .frame regs.atSyscall) := by
  have hlookup := hs.lookup (show 2 < syscallCount by decide)
  rw [systemCall_eq hs, syscallHandler, show regs.atSyscall.eax = 2 from h, hlookup]
  rfl

theorem systemCall_putchar {s : System} (hs : s.Initialised) (h : regs.eax = 3) :
    systemCall fuel s regs = (termPutchar s.tty ((BitVec.ofNat 32 regs.ebx).setWidth 8)).map
      fun tty => ({ s with tty := tty }, .frame regs.atSyscall) := by
  have hlookup := hs.lookup (show 3 < syscallCount by decide)
  rw [systemCall_eq hs, syscallHandler, show regs.atSyscall.eax = 3 from h, hlookup]
  show (termPutchar s.tty ((BitVec.ofNat 32 regs.ebx).setWidth 8) >>= fun tty =>
    .ok ({ s with tty := tty }, Resume.frame regs.atSyscall)) = _
  cases termPutchar s.tty ((BitVec.ofNat 32 regs.ebx).setWidth 8) <;> rfl

theorem registered_of_lt (h : 3 < n) : registered n = none := by
  match n with
  | 0 | 1 | 2 | 3 => contradiction
  | n + 4 => rfl

theorem systemCall_unknown {s : System} (hs : s.Initialised) (h : 3 < regs.eax)
    (hlt : regs.eax < syscallCount) : systemCall fuel s regs =
      (s.printf unknownSyscall [BitVec.ofNat 32 regs.eax]).map
        fun s' => (s', .frame regs.atSyscall) := by
  have hlookup := hs.lookup hlt
  rw [registered_of_lt h] at hlookup
  rw [systemCall_eq hs, syscallHandler, show regs.atSyscall.eax = regs.eax from rfl, hlookup]
  show (s.printf unknownSyscall [BitVec.ofNat 32 regs.eax] >>= fun s' =>
    .ok (s', Resume.frame regs.atSyscall)) = _
  cases s.printf unknownSyscall [BitVec.ofNat 32 regs.eax] <;> rfl

/-- A call that does nothing but write to the terminal. -/
theorem frame_iff (s : System) (frame : Registers) (write : Except Halt Tty) :
    (∃ tty, write.map (fun tty => (({ s with tty := tty } : System), Resume.frame frame)) =
        .ok ({ s with tty := tty }, .frame frame) ∧ InWindow s.tty.term tty) ↔
      ∃ tty, write = .ok tty ∧ InWindow s.tty.term tty := by
  refine exists_congr fun tty => and_congr_left fun _ => ?_
  cases write with
  | error e => exact iff_of_false (fun h => by cases h) (fun h => by cases h)
  | ok tty' =>
      refine ⟨fun h => ?_, fun h => by rw [h]; rfl⟩
      have hsystem := (Prod.mk.inj (Except.ok.inj h)).1
      rw [show tty' = tty from congrArg System.tty hsystem]

/-- **One call**, from any state of the kernel and of the terminal. -/
theorem confined_iff {s : System} (hs : s.Initialised) (fuel : Nat) (regs : Registers) :
    Confined fuel s regs ↔ CallRight s regs := by
  have hprintf : ∀ n : BitVec 32, (s.printf unknownSyscall [n]).map
      (fun s' => (s', Resume.frame regs.atSyscall)) =
        (kernelPrintf s.tty unknownSyscall [n]).map
          fun tty => ({ s with tty := tty }, .frame regs.atSyscall) := fun n => by
    rw [System.printf]
    cases kernelPrintf s.tty unknownSyscall [n] <;> rfl
  constructor
  · intro h
    have hnumber : regs.eax < syscallCount := by
      refine Classical.byContradiction fun hout => ?_
      have hlookup := h.lookup
      rw [s.syscallHandlerAt_out hout] at hlookup
      cases hlookup
    refine ⟨hnumber, fun heax => ?_, fun heax => ?_⟩
    · have hframe := h.frame (Nat.le_of_eq heax.symm)
      rw [systemCall_putchar hs heax, frame_iff] at hframe
      exact (termPutchar_takes_iff _ _).mp hframe
    · have hframe := h.frame (Nat.le_of_lt heax)
      rw [systemCall_unknown hs heax hnumber, hprintf, frame_iff] at hframe
      exact (kernelPrintf_unknown_iff _ _).mp hframe
  · rintro ⟨hnumber, hputchar, hunknown⟩
    refine ⟨hs.lookup hnumber, fun heax => systemCall_unknown hs heax hnumber,
      systemCall_wait hs, fun hle => ?_⟩
    rcases Nat.lt_or_eq_of_le hle with heax | heax
    · rw [systemCall_unknown hs heax hnumber, hprintf, frame_iff]
      exact (kernelPrintf_unknown_iff _ _).mpr (hunknown heax)
    · rw [systemCall_putchar hs heax.symm, frame_iff]
      exact (termPutchar_takes_iff _ _).mpr (hputchar heax.symm)

/-! ## runs -/

/-- A system call by the process that is running, or whatever else changes the processes
and the terminal between two calls: no handler is registered after the boot. -/
inductive SystemEvent where
  | call (regs : Registers)
  | other (kernel : Kernel) (tty : Tty)

inductive SystemStep (fuel : Nat) : System → SystemEvent → System → Prop where
  | call : systemCall fuel s regs = .ok (s', resume) → SystemStep fuel s (.call regs) s'
  | other : SystemStep fuel s (.other kernel tty) { s with kernel := kernel, tty := tty }

def SystemEvent.Confined (fuel : Nat) (s : System) : SystemEvent → Prop
  | .call regs => NimbleOS.Confined fuel s regs
  | .other .. => True

def SystemEvent.Right (s : System) : SystemEvent → Prop
  | .call regs => CallRight s regs
  | .other .. => True

/-- The tables are left alone. -/
structure SameTables (s s' : System) : Prop where
  isr : s'.isrHandlers = s.isrHandlers
  calls : s'.syscallHandlers = s.syscallHandlers

namespace SameTables

theorem refl (s : System) : SameTables s s := ⟨rfl, rfl⟩

theorem trans (h : SameTables s s') (h' : SameTables s' s'') : SameTables s s'' :=
  ⟨h'.isr.trans h.isr, h'.calls.trans h.calls⟩

theorem initialised (h : SameTables s s') (hs : s.Initialised) : s'.Initialised where
  isr := by rw [h.isr]; exact hs.isr
  calls := fun i hi => by rw [h.calls]; exact hs.calls i hi

theorem printf (h : s.printf format args = .ok s') : SameTables s s' := by
  obtain ⟨tty, -, hs'⟩ := bind_eq_ok.mp h
  rw [← Except.ok.inj hs']
  exact ⟨rfl, rfl⟩

theorem printProcesses (h : s.printProcesses pids = .ok s') : SameTables s s' := by
  obtain ⟨s₁, hhead, h⟩ := bind_eq_ok.mp h
  obtain ⟨s₂, hpids, htail⟩ := bind_eq_ok.mp h
  have hloop : SameTables s₁ s₂ :=
    Stream.foldlM_keeps (SameTables s₁) (fun _ _ _ hsame hstep => hsame.trans (printf hstep))
      (.refl s₁) hpids
  exact (printf hhead).trans (hloop.trans (printf htail))

theorem switchProcess (h : s.switchProcess regs = .ok (s', resume)) : SameTables s s' := by
  obtain ⟨⟨kernel, iret⟩, -, h⟩ := bind_eq_ok.mp h
  cases hp : kernel.processes kernel.currentProcess with
  | none =>
      simp only [hp] at h
      cases h
  | some p =>
      simp only [hp] at h
      obtain ⟨tty, -, hs'⟩ := bind_eq_ok.mp h
      rw [← (Prod.mk.inj (Except.ok.inj hs')).1]
      exact ⟨rfl, rfl⟩

theorem sysHandler {handler : SysHandler} (h : handler.run fuel s regs = .ok (s', resume)) :
    SameTables s s' := by
  cases handler with
  | yield => exact switchProcess h
  | exit =>
      obtain ⟨kernel, -, h⟩ := bind_eq_ok.mp h
      obtain ⟨pids, -, h⟩ := bind_eq_ok.mp h
      obtain ⟨s₁, hprint, h⟩ := bind_eq_ok.mp h
      have hkernel : SameTables s { s with kernel := kernel } := ⟨rfl, rfl⟩
      exact hkernel.trans ((printProcesses hprint).trans (switchProcess h))
  | wait =>
      rw [← (Prod.mk.inj (Except.ok.inj h)).1]
      exact .refl s
  | putchar =>
      obtain ⟨tty, -, hs'⟩ := bind_eq_ok.mp h
      rw [← (Prod.mk.inj (Except.ok.inj hs')).1]
      exact ⟨rfl, rfl⟩

theorem syscallHandler (h : syscallHandler fuel s regs = .ok (s', resume)) : SameTables s s' := by
  obtain ⟨handler, -, h⟩ := bind_eq_ok.mp h
  cases handler with
  | some handler => exact sysHandler h
  | none =>
      obtain ⟨s₁, hprint, hs'⟩ := bind_eq_ok.mp h
      rw [← (Prod.mk.inj (Except.ok.inj hs')).1]
      exact printf hprint

end SameTables

/-- **Step lemma**: both tables stay as they are. -/
theorem SystemStep.initialised (hs : s.Initialised) (h : SystemStep fuel s e s') :
    s'.Initialised := by
  cases h with
  | call h =>
      rw [systemCall_eq hs] at h
      exact (SameTables.syscallHandler h).initialised hs
  | other => exact ⟨hs.isr, hs.calls⟩

/-- **System calls**: from boot on, in every run of calls by any processes with any registers,
and with anything between them, each call does what it is to do exactly if each number is
below 256 and the terminal can be given what calls 3 and unknown ones write. -/
theorem syscalls_confined_iff (fuel : Nat) (h : handlersInit (.zeroed kernel tty) = .ok s)
    (es : List SystemEvent) :
    Run.Always (SystemStep fuel) (SystemEvent.Confined fuel) s es ↔
      Run.Always (SystemStep fuel) SystemEvent.Right s es := by
  obtain ⟨s', hinit, hs, -⟩ := handlersInit_ok kernel tty
  obtain rfl := Except.ok.inj (h.symm.trans hinit)
  refine Run.always_congr System.Initialised (fun s e hs => ?_) (fun s e s' hs _ hstep =>
    hstep.initialised hs) hs
  cases e with
  | call regs => exact confined_iff hs fuel regs
  | other => exact Iff.rfl

/-- `putchar('A')`. -/
def putcharA : Registers := { procInitialRegisters with eax := 3, ebx := 65 }

theorem syscalls_confined_iff_putchar :
    ∃ s, handlersInit (.zeroed (bootKernel bootVm 0) .windowed) = .ok s ∧
      Run.Always (SystemStep 0) (SystemEvent.Confined 0) s [.call putcharA] := by
  obtain ⟨s, hinit, -, -, htty⟩ := handlersInit_ok (bootKernel bootVm 0) .windowed
  refine ⟨s, hinit, (syscalls_confined_iff 0 hinit _).mpr (.cons ?_ fun _ _ => Run.always_nil)⟩
  have hnormal : Tty.windowed.ctx.state ≠ .params := by decide
  have htakes : Tty.windowed.Takes ((BitVec.ofNat 32 putcharA.ebx).setWidth 8) :=
    ⟨rfl, fun h => absurd h hnormal, fun h => hnormal h.1⟩
  exact ⟨by decide, fun _ => htty ▸ htakes, fun h => absurd h (by decide)⟩

/-- The system call 256 reads behind the table. -/
theorem syscall_out_of_table :
    ∃ s, handlersInit (.zeroed (bootKernel bootVm 0) .windowed) = .ok s ∧
      s.syscallHandlerAt 256 = .error .outOfBounds ∧
      ¬ Run.Always (SystemStep 0) (SystemEvent.Confined 0) s
        [.call { procInitialRegisters with eax := 256 }] := by
  obtain ⟨s, hinit, hs, -⟩ := handlersInit_ok (bootKernel bootVm 0) .windowed
  refine ⟨s, hinit, s.syscallHandlerAt_out (by decide), fun hall => ?_⟩
  exact absurd ((confined_iff hs _ _).mp hall.head).number (by decide)

end NimbleOS
