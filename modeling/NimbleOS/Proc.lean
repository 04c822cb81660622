import NimbleOS.Paging.Frames

/-!
# NimbleOS.Proc

Processes (`kernel/src/sys/proc.c`): their creation, the ring they are kept in,
the exit of the current one and the switch to the next.

A process lives in the kernel heap; here the heap is a partial function from
addresses to process structures, and a pointer is its address, with 0 for `NULL`.
A store through `NULL` goes to page 0 of the current directory.
Loops over the ring take fuel.  What the functions print is left out.
-/

namespace NimbleOS

/-- `registers_t`: the frame that the interrupt stubs build. -/
structure Registers where
  gs : Nat
  fs : Nat
  es : Nat
  ds : Nat
  edi : Nat
  esi : Nat
  ebp : Nat
  kernelEsp : Nat
  ebx : Nat
  edx : Nat
  ecx : Nat
  eax : Nat
  intNo : Nat
  errCode : Nat
  eip : Nat
  cs : Nat
  eflags : Nat
  esp : Nat
  ss : Nat
  deriving DecidableEq

/-- The words of the frame, in the order of its fields. -/
def Registers.words (r : Registers) : List Nat :=
  [r.gs, r.fs, r.es, r.ds, r.edi, r.esi, r.ebp, r.kernelEsp, r.ebx, r.edx, r.ecx, r.eax,
    r.intNo, r.errCode, r.eip, r.cs, r.eflags, r.esp, r.ss]

/-- `process_t`. -/
structure Process where
  next : Nat
  pid : Nat
  stackLen : Nat
  codeLen : Nat
  directory : Nat
  kernelStack : Nat
  registers : Registers

def Process.words (p : Process) : List Nat :=
  [p.next, p.pid, p.stackLen, p.codeLen, p.directory, p.kernelStack] ++ p.registers.words

/-- The machine, the heap pointer of `kheap.c`, the statics of `proc.c` and the
field of the TSS that the scheduler sets. -/
structure Kernel where
  vm : Vm Pmm
  heapPointer : Nat
  processes : Nat → Option Process
  currentProcess : Nat
  nextPid : Nat
  esp0 : Nat

/-! ## allocation -/

/-- `sizeof(process_t)`: 6 fields and 19 registers of 4 bytes. -/
def sizeofProcess : Nat := 100

def kmalloc (k : Kernel) (size : Nat) : Nat × Kernel :=
  if u32 (k.heapPointer + size) ≥ kernelHeapEndVirt then
    (0, { k with vm := { k.vm with log := .heap size 0 :: k.vm.log } })
  else
    (k.heapPointer,
      { k with
        vm := { k.vm with log := .heap size k.heapPointer :: k.vm.log }
        heapPointer := u32 (k.heapPointer + size) })

/-- `pmm_alloc_page` for a page directory. -/
def Vm.allocDirectory (s : Vm Pmm) : Except Halt (Nat × Vm Pmm) := do
  let (a, pmm) ← pmmAllocPage s.pmm
  return (a, { s with pmm := pmm, log := .directory a :: s.log })

/-- The answer of `pmm_alloc_pages`, and the state with it. -/
def Vm.gotPages (s : Vm Pmm) (num : Nat) (r : Nat × Pmm) : Nat × Vm Pmm :=
  (r.1, { s with pmm := r.2, log := .pages num r.1 :: s.log })

/-- `pmm_alloc_pages`. -/
def Vm.allocPages (s : Vm Pmm) (num : Nat) : Nat × Vm Pmm :=
  s.gotPages num (pmmAllocPages s.pmm num)

/-! ## proc_run_code -/

/-- `PROC_KERNEL_STACK_PAGES`. -/
def procKernelStackPages : Nat := 10

/-- `KERNEL_PAGE_DIR_INDEX`. -/
def kernelPageDirIndex : Nat := kernelBaseVirt / 2 ^ 22

/-- The loop `for (i = 0; i < n; i++) pd[i].raw_val = 0`. -/
def procClearSlots (s : Vm Pmm) : Nat → Except Halt (Vm Pmm)
  | 0 => .ok s
  | n + 1 => do
      let s ← procClearSlots s n
      s.storeWord (kernelHeapEndVirt + 4 * n) 0

/-- Copy the current page directory to the frame `pdPhys`, with a temporary
mapping after the heap, and unmap everything below the kernel in the copy. -/
def procCloneDirectory (s : Vm Pmm) (pdPhys : Nat) : Except Halt (Vm Pmm) := do
  let s ← pagingMapPage s kernelHeapEndVirt pdPhys pageRw
  let s ← memcpy s kernelHeapEndVirt 0xFFFFF000 pageSize
  let s ← s.storeWord (kernelHeapEndVirt + 4 * 1023) (pdPhys ||| pagePresent ||| pageRw)
  let s ← procClearSlots s kernelPageDirIndex
  pagingUnmapPage s kernelHeapEndVirt

/-- `paging_get_page(0xFFFFF000, false, 0)->raw_val & PAGE_FRAME`. -/
def procCurrentDirectory (s : Vm Pmm) : Except Halt (Nat × Vm Pmm) := do
  let (page, s) ← pagingGetPage s 0xFFFFF000 false 0
  let w ← s.loadWord (page.getD 0)
  return (pageFrame w, s)

/-- The loop that removes the write flag of the first `n` pages. -/
def procProtectCode (s : Vm Pmm) : Nat → Except Halt (Vm Pmm)
  | 0 => .ok s
  | n + 1 => do
      let s ← procProtectCode s n
      let (page, s) ← pagingGetPage s (u32 (n * pageSize)) false 0
      let page := page.getD 0
      let w ← s.loadWord page
      s.storeWord page (w - w / 2 % 2 * 2)

/-- Map `num` pages for the code at address 0 and copy it there. -/
def procLoadCode (s : Vm Pmm) (code : Nat → BitVec 8) (len num : Nat) :
    Except Halt (Vm Pmm) := do
  let (codePhys, s) := s.allocPages num
  let s ← pagingMapPages s 0 codePhys num (pageUser ||| pageRw)
  let s ← storeBytes s 0 code len
  procProtectCode s num

/-- Map the stack right below the kernel. -/
def procMapStack (s : Vm Pmm) (num : Nat) : Except Halt (Vm Pmm) := do
  let (stackPhys, s) := s.allocPages num
  pagingMapPages s (u32Sub kernelBaseVirt (pageSize * num)) stackPhys num (pageUser ||| pageRw)

/-- The address space of a new process: its directory, code and stack. -/
def procBuildSpace (s : Vm Pmm) (code : Nat → BitVec 8) (len : Nat) :
    Except Halt (Nat × Vm Pmm) := do
  let (pdPhys, s) ← s.allocDirectory
  let s ← procCloneDirectory s pdPhys
  let (previousPd, s) ← procCurrentDirectory s
  let s ← pagingSwitchDirectory s pdPhys
  let s ← procLoadCode s code len (len / pageSize + 1)
  let s ← procMapStack s procKernelStackPages
  let s ← pagingSwitchDirectory s previousPd
  return (pdPhys, s)

/-- The registers of a process that has not run yet. -/
def procInitialRegisters : Registers :=
  { gs := 0, fs := 0, es := 0, ds := 0x23, edi := 0, esi := 0, ebp := 0, kernelEsp := 0
    ebx := 0, edx := 0, ecx := 0, eax := 0, intNo := 0, errCode := 0
    eip := 0, cs := 0x1B, eflags := 0, esp := kernelBaseVirt - 4, ss := 0 }

/-- `process->next = next`, in the heap. -/
def Kernel.setNext (k : Kernel) (process next : Nat) : Kernel :=
  { k with
    processes := fun a =>
      if a = process then (k.processes a).map fun p => { p with next := next }
      else k.processes a }

/-- `process->next = next`. -/
def Kernel.storeNext (k : Kernel) (process next : Nat) : Except Halt Kernel :=
  if process = 0 then do
    let vm ← k.vm.storeWord 0 next
    return { k with vm := vm }
  else .ok (k.setNext process next)

/-- `*process = p`, in the heap. -/
def Kernel.setProcess (k : Kernel) (process : Nat) (p : Process) : Kernel :=
  { k with processes := fun a => if a = process then some p else k.processes a }

/-- Stores of the words `ws` one after the other. -/
def Vm.storeWords (s : Vm Pmm) (virt : Nat) : List Nat → Except Halt (Vm Pmm)
  | [] => .ok s
  | w :: ws => do
      let s ← s.storeWord virt w
      s.storeWords (virt + 4) ws

/-- `*process = p`. -/
def Kernel.storeProcess (k : Kernel) (process : Nat) (p : Process) : Except Halt Kernel :=
  if process = 0 then do
    let vm ← k.vm.storeWords 0 p.words
    return { k with vm := vm }
  else .ok (k.setProcess process p)

/-- Insert the process in the ring, create it if empty. -/
def procInsert (k : Kernel) (process : Nat) : Except Halt Kernel :=
  if k.currentProcess ≠ 0 then
    match k.processes k.currentProcess with
    | none => .error .noProcess
    | some current =>
        if current.next ≠ 0 then
          (k.setNext k.currentProcess process).storeNext process current.next
        else .ok k
  else ({ k with currentProcess := process } : Kernel).storeNext process process

/-- `proc_run_code`; the bytes `code` are the kernel's. -/
def procRunCode (k : Kernel) (code : Nat → BitVec 8) (len : Nat) : Except Halt Kernel := do
  let (process, k) := kmalloc k sizeofProcess
  let (stack, k) := kmalloc k pageSize
  let (pdPhys, vm) ← procBuildSpace k.vm code len
  let k ← ({ k with vm := vm, nextPid := u32 (k.nextPid + 1) } : Kernel).storeProcess process
    { next := 0
      pid := k.nextPid
      stackLen := procKernelStackPages
      codeLen := len / pageSize + 1
      directory := pdPhys
      kernelStack := u32 (stack + pageSize - 1)
      registers := procInitialRegisters }
  procInsert k process

/-! ## the scheduler -/

/-- What `proc_switch_process` pushes for its `iret`. -/
structure Iret where
  ss : Nat
  esp : Nat
  eflags : Nat
  cs : Nat
  eip : Nat
  deriving DecidableEq

/-- `gdt_set_kernel_stack`. -/
def gdtSetKernelStack (k : Kernel) (stack : Nat) : Kernel := { k with esp0 := stack }

/-- The branch `if (regs) current_process->registers = *regs`. -/
def procSaveRegisters (k : Kernel) : Option Registers → Except Halt Kernel
  | none => .ok k
  | some regs =>
      match k.processes k.currentProcess with
      | none => .error .noProcess
      | some p => .ok (k.setProcess k.currentProcess { p with registers := regs })

/-- `proc_switch_process`, up to its `iret`. -/
def procSwitchProcess (k : Kernel) (regs : Option Registers) : Except Halt (Kernel × Iret) := do
  let k ← procSaveRegisters k regs
  match k.processes k.currentProcess with
  | none => .error .noProcess
  | some old =>
      let k := { k with currentProcess := old.next }
      match k.processes k.currentProcess with
      | none => .error .noProcess
      | some p =>
          let k := gdtSetKernelStack k p.kernelStack
          let vm ← pagingSwitchDirectory k.vm p.directory
          return ({ k with vm := vm },
            { ss := 0x23
              esp := p.registers.esp
              eflags := p.registers.eflags ||| 512
              cs := 0x1B
              eip := p.registers.eip })

/-- `proc_timer_callback`; `none` where it returns to the interrupt stub. -/
def procTimerCallback (k : Kernel) (regs : Registers) : Except Halt (Kernel × Option Iret) :=
  if k.currentProcess = 0 then .ok (k, none)
  else
    match k.processes k.currentProcess with
    | none => .error .noProcess
    | some p =>
        if p.next = k.currentProcess then .ok (k, none)
        else if p.next ≠ 0 then do
          let (k, iret) ← procSwitchProcess k (some regs)
          return (k, some iret)
        else .ok (k, none)

/-! ## proc_exit_current_process -/

/-- The loop of `proc_print_processes` from `p` on: the pids it prints. -/
def procPrintFrom (k : Kernel) : (fuel p : Nat) → Except Halt (List Nat)
  | 0, _ => .error .outOfFuel
  | fuel + 1, p =>
      if p = k.currentProcess then .ok []
      else
        match k.processes p with
        | none => .error .noProcess
        | some q => do
            let pids ← procPrintFrom k fuel q.next
            return q.pid :: pids

def procPrintProcesses (k : Kernel) (fuel : Nat) : Except Halt (List Nat) :=
  match k.processes k.currentProcess with
  | none => .error .noProcess
  | some current => do
      let pids ← procPrintFrom k fuel current.next
      return current.pid :: pids

/-- The loop `while (p->next != current_process) p = p->next`. -/
def procFindPrevious (k : Kernel) : (fuel p : Nat) → Except Halt Nat
  | 0, _ => .error .outOfFuel
  | fuel + 1, p =>
      match k.processes p with
      | none => .error .noProcess
      | some q =>
          if q.next = k.currentProcess then .ok p
          else procFindPrevious k fuel q.next

/-- The frames that exit gives back: from the directory's entries for the first
page and for the stack, and the directory itself. -/
def procFreeSpace (k : Kernel) (p : Process) : Except Halt Kernel := do
  let code ← k.vm.loadWord (dirEntry 0)
  let stack ← k.vm.loadWord (dirEntry 767)
  let pd ← k.vm.loadWord (dirEntry 1023)
  let pmm := pmmFreePages k.vm.pmm (pageFrame code) p.codeLen
  let pmm := pmmFreePages pmm (pageFrame stack) p.stackLen
  let pmm := pmmFreePage pmm (pageFrame pd)
  return { k with vm := { k.vm with pmm := pmm } }

def procExitCurrentProcess (k : Kernel) (fuel : Nat) : Except Halt (Kernel × Iret) :=
  match k.processes k.currentProcess with
  | none => .error .noProcess
  | some current => do
      let k ← procFreeSpace k current
      if current.next = k.currentProcess then .error .lastProcess
      else
        let p ← procFindPrevious k fuel current.next
        let k := { k.setNext p current.next with currentProcess := p }
        let _ ← procPrintProcesses k fuel
        procSwitchProcess k none

end NimbleOS
