import NimbleOS.Cpu.Stubs
import NimbleOS.Lib.LastWrite
import NimbleOS.Proc.Ring

/-!
# NimbleOS.Proc.Resume

What a process finds when it is resumed.  The interrupt stub saves all of its registers and
`proc_switch_process` keeps them, but the statement it ends with gives back the stack pointer,
the instruction pointer and the flags only: `eax` then holds the instruction pointer, the other
general registers are as the compiled code has left them, and the data segments are the
kernel's, which the processor clears on the way out.
-/

namespace NimbleOS

open WordStack

/-! ## the end of proc_switch_process -/

/-- What a data segment becomes on the way out to a privilege level: it is cleared if its
descriptor is for a more privileged one. -/
def Gdt.dataSelector (g : Gdt) (level selector : BitVec 16) : BitVec 16 :=
  match g.entries[(selector >>> 3).toNat]? with
  | none => 0
  | some e =>
      if selector >>> 3 = 0 ∨ (descriptorPrivilege e.bits).toNat < level.toNat then 0
      else selector

/-- `iret` to a less privileged level. -/
def Cpu.iretOutward (g : Gdt) (c : Cpu) : Cpu :=
  let back := c.iret
  let level := privilege back.cs
  { back with
    ds := g.dataSelector level back.ds
    es := g.dataSelector level back.es
    fs := g.dataSelector level back.fs
    gs := g.dataSelector level back.gs }

/-- The `asm` statement, with its three operands. -/
def procSwitchAsm (g : Gdt) (esp eip eflags : BitVec 32) (c : Cpu) : Cpu :=
  let c := c.push 0x23
  let c := { c with eax := esp }
  let c := c.push c.eax
  let c := { c with eax := eflags }
  let c := { c with eax := c.eax ||| 512 }
  let c := c.push c.eax
  let c := c.push 0x1B
  let c := { c with eax := eip }
  let c := c.push c.eax
  c.iretOutward g

/-- The kernel's data segment is not for user programs. -/
theorem dataSelector_kernelData (h : gdtInit addr g₀ = .ok g) :
    g.dataSelector 3 gdtSelectorKernelData = 0 := by
  obtain ⟨-, -, hentry, -⟩ := gdtInit_entries h
  have hindex : ((gdtSelectorKernelData : BitVec 16) >>> 3).toNat = 2 := by decide
  have hslot : g.entries[2]? = some (gdtEntry 0 0xFFFFFFFF gdtAccessKernelData gdtSegFlags) := by
    rw [← hentry]
    exact Vector.getElem?_eq_getElem (by decide)
  rw [Gdt.dataSelector, hindex, hslot]
  dsimp only
  refine if_pos (.inr ?_)
  rw [descriptorPrivilege, GdtEntry.access_bits]
  decide

/-- The processor behind the statement: `eax` is clobbered, the other general registers are
left alone, and the data segments are gone. -/
structure AsmLeaves (esp eip eflags : BitVec 32) (c d : Cpu) : Prop where
  eax : d.eax = eip
  ecx : d.ecx = c.ecx
  edx : d.edx = c.edx
  ebx : d.ebx = c.ebx
  ebp : d.ebp = c.ebp
  esi : d.esi = c.esi
  edi : d.edi = c.edi
  esp : d.esp = esp
  eip : d.eip = eip
  eflags : d.eflags = eflags ||| 512
  cs : d.cs = 0x1B
  ss : d.ss = 0x23
  segment : ∀ s, d.segment s = 0

theorem procSwitchAsm_spec (h : gdtInit addr g₀ = .ok g) (esp eip eflags : BitVec 32)
    (hcs : privilege c.cs = 0) (hsegment : c.segment = fun _ => gdtSelectorKernelData) :
    AsmLeaves esp eip eflags c (procSwitchAsm g esp eip eflags c) := by
  obtain ⟨b, hb, hstack, -, hcsb, hsegb⟩ := Cpu.stack_pushes (At.nil c.memory c.esp)
    [0x23, esp, eflags ||| 512, 0x1B, eip] (by simp)
  change At b.memory b.esp [eip, 0x1B, eflags ||| 512, esp, 0x23] at hstack
  have hrun : procSwitchAsm g esp eip eflags c = Cpu.iretOutward g { b with eax := eip } := by
    rw [← hb]
    rfl
  have hgeneral : SameRegisters c b := by
    rw [← hb]
    rfl
  replace hgeneral := hgeneral.generalWords
  -- the program that the pushed words describe
  obtain ⟨u, hu, husp, hucs, huss⟩ : ∃ u : Cpu, privilege u.cs = 3 ∧ u.esp = esp ∧ u.cs = 0x1B ∧
      u.ss = 0x23 := ⟨{ c with esp := esp, cs := 0x1B, ss := 0x23 }, (by decide : privilege 0x1B = 3), rfl, rfl, rfl⟩
  have huser : privilege u.cs ≠ 0 := by
    rw [hu]
    decide
  have houter : OuterWords u [esp, 0x23] := by
    rw [OuterWords, if_neg huser, husp, huss]
    exact ⟨0x23, rfl, by decide⟩
  obtain ⟨heip, hcs', heflags, -, hback⟩ := iret_restores (c := { b with eax := eip }) hstack
    (hcsb ▸ hcs) (hucs ▸ by decide) houter
  obtain ⟨hesp, hss⟩ := hback huser
  have hsame := sameRegisters_iret { b with eax := eip }
  have hgeneral' := hsame.generalWords
  have hsegment' := hsame.segment
  have hclear : ∀ s, g.dataSelector (privilege (Cpu.iret { b with eax := eip }).cs)
      ((Cpu.iret { b with eax := eip }).segment s) = 0 := fun s => by
    rw [hsegment', hcs', hu]
    change g.dataSelector 3 (b.segment s) = 0
    rw [hsegb, hsegment]
    exact dataSelector_kernelData h
  simp only [Cpu.generalWords, List.cons.injEq, and_true] at hgeneral hgeneral'
  obtain ⟨hedi, hesi, hebp, -, hebx, hedx, hecx, -⟩ := hgeneral
  obtain ⟨hedi', hesi', hebp', -, hebx', hedx', hecx', heax'⟩ := hgeneral'
  rw [hrun]
  exact
    { eax := heax'
      ecx := hecx'.trans hecx
      edx := hedx'.trans hedx
      ebx := hebx'.trans hebx
      ebp := hebp'.trans hebp
      esi := hesi'.trans hesi
      edi := hedi'.trans hedi
      esp := hesp.trans husp
      eip := heip
      eflags := heflags
      cs := hcs'.trans hucs
      ss := hss.trans huss
      segment := fun s => by
        cases s with
        | ds => exact hclear .ds
        | es => exact hclear .es
        | fs => exact hclear .fs
        | gs => exact hclear .gs }

/-! ## preemption -/

/-- A tick of the timer, or the system call 0. -/
inductive PreemptSource where
  | tick
  | yield
  deriving DecidableEq

def PreemptSource.stub : PreemptSource → Stub
  | .tick => .irq 0 32
  | .yield => .isrNoerr 48

/-- The process whose program is interrupted, its registers, and the processor when
`proc_switch_process` has come to its last statement. -/
structure Preemption where
  process : Nat
  source : PreemptSource
  surroundings : Surroundings
  user : Cpu
  asm : Cpu

namespace Preemption

/-- The processor at the call of the C handler. -/
def atCall (e : Preemption) : Cpu := e.source.stub.atCall e.surroundings e.user 0

/-- The frame that the handler is passed. -/
def frame (e : Preemption) : Registers := registersAt e.atCall.memory (e.atCall.word 0)

/-- The C functions. -/
def run (e : Preemption) (k : Kernel) : Except Halt (Kernel × Option Iret) :=
  match e.source with
  | .tick => procTimerCallback k e.frame
  | .yield => do
      let (k, iret) ← procSwitchProcess k (some e.frame)
      return (k, some iret)

/-- The processor when the process `p` goes on. -/
def resumed (e : Preemption) (g : Gdt) (p : Process) : Cpu :=
  procSwitchAsm g (BitVec.ofNat 32 p.registers.esp) (BitVec.ofNat 32 p.registers.eip)
    (BitVec.ofNat 32 p.registers.eflags) e.asm

end Preemption

/-- A user program is preempted, and the C code gets to the end of `proc_switch_process`.
Compiled code does what it likes with the general registers, but leaves the segments alone. -/
structure PreemptStep (k : Kernel) (e : Preemption) (k' : Kernel) : Prop where
  process : e.process = k.currentProcess
  user : privilege e.user.cs = 3
  number : e.source = .yield → e.user.eax = 0
  cs : e.asm.cs = e.atCall.cs
  segment : e.asm.segment = e.atCall.segment
  run : ∃ iret, e.run k = .ok (k', some iret)

/-- The frame with which a process was preempted last. -/
def lastFrame (process : Nat) (es : List Preemption) : Option Registers :=
  LastWrite.last (fun e => if e.process = process then some e.frame else none) es

theorem lastFrame_snoc (a : Nat) (es : List Preemption) (e : Preemption) :
    lastFrame a (es ++ [e]) = if e.process = a then some e.frame else lastFrame a es := by
  rw [lastFrame, LastWrite.last_snoc]
  split
  · exact Option.some_or
  · exact Option.none_or

theorem PreemptSource.stub_mem (source : PreemptSource) : source.stub ∈ stubs := by
  cases source <;> decide

/-- The frame has every register of the interrupted program. -/
theorem Preemption.frame_names (e : Preemption) :
    Names e.source.stub e.user 0 (e.atCall.word 0) e.frame :=
  atCall_names e.surroundings e.user 0 e.source.stub_mem

/-- A step is a switch that saves the frame. -/
theorem Preemption.run_of_ok {e : Preemption} {k k' : Kernel} (h : e.run k = .ok (k', some iret)) :
    procSwitchProcess k (some e.frame) = .ok (k', iret) := by
  rw [Preemption.run] at h
  cases hsource : e.source with
  | yield =>
      rw [hsource] at h
      obtain ⟨⟨k₁, iret₁⟩, hrun, h⟩ := bind_eq_ok.mp h
      obtain ⟨rfl, hiret⟩ := Prod.mk.inj (Except.ok.inj h)
      exact Option.some.inj hiret ▸ hrun
  | tick =>
      rw [hsource] at h
      obtain ⟨hnone, -⟩ | ⟨iret₁, hsome, -, hrun⟩ := procTimerCallback_of_ok h
      · cases hnone
      · exact Option.some.inj hsome ▸ hrun

/-- After the switch the processes are as before, but for the frame. -/
theorem procSwitchProcess_saves {k k' : Kernel} (h : procSwitchProcess k (some r) = .ok (k', iret)) :
    ∃ p, k.processes k.currentProcess = some p ∧ k'.processes = fun a =>
      if a = k.currentProcess then some { p with registers := r } else k.processes a := by
  obtain ⟨k₁, old, q, hsave, -, -, -, rfl, -⟩ := procSwitchProcess_of_ok h
  rw [procSaveRegisters] at hsave
  cases hp : k.processes k.currentProcess with
  | none =>
      rw [hp] at hsave
      cases hsave
  | some p =>
      rw [hp] at hsave
      cases hsave
      exact ⟨p, rfl, rfl⟩

/-- **Run lemma**: what a process was preempted with is what it has saved. -/
theorem lastFrame_saved (hrun : Run PreemptStep k₀ es k) (hlast : lastFrame a es = some r) :
    ∃ p, k.processes a = some p ∧ p.registers = r := by
  induction es using List.reverseRecOn generalizing k with
  | nil => cases hlast
  | append_singleton es e ih =>
      obtain ⟨k₁, hpre, hstep⟩ := hrun.of_append
      cases hstep with
      | cons hstep hnil =>
          cases hnil
          obtain ⟨iret, hstep'⟩ := hstep.run
          obtain ⟨p, hp, hprocesses⟩ := procSwitchProcess_saves (Preemption.run_of_ok hstep')
          rw [lastFrame_snoc] at hlast
          rw [hprocesses]
          by_cases ha : e.process = a
          · rw [if_pos ha] at hlast
            obtain rfl := Option.some.inj hlast
            exact ⟨_, if_pos (ha.symm.trans hstep.process), rfl⟩
          · rw [if_neg ha] at hlast
            obtain ⟨q, hq, hr⟩ := ih hpre hlast
            exact ⟨q, (if_neg fun heq => ha (hstep.process.trans heq.symm)).trans hq, hr⟩

/-! ## what the process finds -/

/-- The registers in force are those of the frame, with interrupts enabled. -/
structure InForce (r : Registers) (c : Cpu) : Prop where
  eax : c.eax.toNat = r.eax
  ebx : c.ebx.toNat = r.ebx
  ecx : c.ecx.toNat = r.ecx
  edx : c.edx.toNat = r.edx
  esi : c.esi.toNat = r.esi
  edi : c.edi.toNat = r.edi
  ebp : c.ebp.toNat = r.ebp
  esp : c.esp.toNat = r.esp
  eip : c.eip.toNat = r.eip
  ds : c.ds.toNat = r.ds % 2 ^ 16
  es : c.es.toNat = r.es % 2 ^ 16
  fs : c.fs.toNat = r.fs % 2 ^ 16
  gs : c.gs.toNat = r.gs % 2 ^ 16
  eflags : c.eflags.toNat = r.eflags ||| 512

/-- The frame has nothing to lose: `eax` is the address the program goes on at, the compiled
code happens to leave its other general registers, and it uses no data segment. -/
structure NothingLost (r : Registers) (asm : Cpu) : Prop where
  eax : r.eax = r.eip
  ebx : r.ebx = asm.ebx.toNat
  ecx : r.ecx = asm.ecx.toNat
  edx : r.edx = asm.edx.toNat
  esi : r.esi = asm.esi.toNat
  edi : r.edi = asm.edi.toNat
  ebp : r.ebp = asm.ebp.toNat
  ds : r.ds % 2 ^ 16 = 0
  es : r.es % 2 ^ 16 = 0
  fs : r.fs % 2 ^ 16 = 0
  gs : r.gs % 2 ^ 16 = 0

/-- A frame in memory consists of words. -/
structure Registers.Words (r : Registers) : Prop where
  esp : r.esp < 2 ^ 32
  eip : r.eip < 2 ^ 32
  eflags : r.eflags < 2 ^ 32

theorem registersAt_words (memory : BitVec 32 → BitVec 32) (regs : BitVec 32) :
    (registersAt memory regs).Words :=
  ⟨BitVec.isLt _, BitVec.isLt _, BitVec.isLt _⟩

theorem lastFrame_words (hlast : lastFrame a es = some r) : r.Words := by
  obtain ⟨e, -, he⟩ := List.mem_filterMap.mp (List.mem_of_getLast? hlast)
  split at he
  · obtain rfl := Option.some.inj he
    exact registersAt_words _ _
  · cases he

theorem inForce_iff (hwords : r.Words) (h : AsmLeaves (BitVec.ofNat 32 r.esp) (BitVec.ofNat 32 r.eip)
    (BitVec.ofNat 32 r.eflags) c d) : InForce r d ↔ NothingLost r c := by
  have hword : ∀ {n}, n < 2 ^ 32 → (BitVec.ofNat 32 n).toNat = n := fun hn =>
    BitVec.toNat_ofNat _ _ ▸ Nat.mod_eq_of_lt hn
  have heax : d.eax.toNat = r.eip := by rw [h.eax, hword hwords.eip]
  have hzero : ∀ s, (d.segment s).toNat = 0 := fun s => by
    rw [h.segment s]
    rfl
  constructor
  · intro hf
    exact
      { eax := hf.eax.symm.trans heax
        ebx := by rw [← hf.ebx, h.ebx]
        ecx := by rw [← hf.ecx, h.ecx]
        edx := by rw [← hf.edx, h.edx]
        esi := by rw [← hf.esi, h.esi]
        edi := by rw [← hf.edi, h.edi]
        ebp := by rw [← hf.ebp, h.ebp]
        ds := hf.ds.symm.trans (hzero .ds)
        es := hf.es.symm.trans (hzero .es)
        fs := hf.fs.symm.trans (hzero .fs)
        gs := hf.gs.symm.trans (hzero .gs) }
  · intro hn
    exact
      { eax := heax.trans hn.eax.symm
        ebx := by rw [h.ebx, hn.ebx]
        ecx := by rw [h.ecx, hn.ecx]
        edx := by rw [h.edx, hn.edx]
        esi := by rw [h.esi, hn.esi]
        edi := by rw [h.edi, hn.edi]
        ebp := by rw [h.ebp, hn.ebp]
        esp := by rw [h.esp, hword hwords.esp]
        eip := by rw [h.eip, hword hwords.eip]
        ds := (hzero .ds).trans hn.ds.symm
        es := (hzero .es).trans hn.es.symm
        fs := (hzero .fs).trans hn.fs.symm
        gs := (hzero .gs).trans hn.gs.symm
        eflags := by
          rw [h.eflags, BitVec.toNat_or, hword hwords.eflags]
          rfl }

theorem PreemptStep.resumed {k k' : Kernel} (h : PreemptStep k e k') (hgdt : gdtInit addr g₀ = .ok g)
    (p : Process) : AsmLeaves (BitVec.ofNat 32 p.registers.esp) (BitVec.ofNat 32 p.registers.eip)
      (BitVec.ofNat 32 p.registers.eflags) e.asm (e.resumed g p) := by
  obtain ⟨hcs, hsegment⟩ := atCall_segments e.surroundings e.user 0 e.source.stub
  refine procSwitchAsm_spec hgdt _ _ _ ?_ (h.segment.trans hsegment)
  rw [h.cs, Preemption.atCall, hcs]
  decide

/-- The statement goes on where the frame that `proc_switch_process` pushes says. -/
theorem PreemptStep.resumed_iret {k k' : Kernel} (h : PreemptStep k e k')
    (hgdt : gdtInit addr g₀ = .ok g) : ∃ p iret, k'.processes k'.currentProcess = some p ∧
      e.run k = .ok (k', some iret) ∧ (e.resumed g p).eip = BitVec.ofNat 32 iret.eip ∧
      (e.resumed g p).cs = BitVec.ofNat 16 iret.cs ∧
      (e.resumed g p).eflags = BitVec.ofNat 32 iret.eflags ∧
      (e.resumed g p).esp = BitVec.ofNat 32 iret.esp ∧
      (e.resumed g p).ss = BitVec.ofNat 16 iret.ss := by
  obtain ⟨iret, hrun⟩ := h.run
  obtain ⟨p, hp, -, -, rfl⟩ := procSwitchProcess_entered (Preemption.run_of_ok hrun)
  have hleaves := h.resumed hgdt p
  refine ⟨p, p.iret, hp, hrun, hleaves.eip, hleaves.cs, hleaves.eflags.trans ?_, hleaves.esp,
    hleaves.ss⟩
  exact (BitVec.ofNat_or).symm

/-- **A process that was preempted** has its frame in force again, after any ticks and calls,
exactly if the frame has nothing to lose. -/
theorem resumed_iff (hgdt : gdtInit addr g₀ = .ok g) (hrun : Run PreemptStep k₀ (es ++ [e]) k)
    (hlast : lastFrame k.currentProcess (es ++ [e]) = some r) :
    ∃ p, k.processes k.currentProcess = some p ∧ p.registers = r ∧
      (InForce r (e.resumed g p) ↔ NothingLost r e.asm) := by
  obtain ⟨p, hp, rfl⟩ := lastFrame_saved hrun hlast
  obtain ⟨k₁, -, hstep⟩ := hrun.of_append
  cases hstep with
  | cons hstep hnil =>
      cases hnil
      exact ⟨p, hp, rfl, inForce_iff (lastFrame_words hlast) (hstep.resumed hgdt p)⟩

/-! ## two processes -/

/-- A tick of the timer, in the process `process`. -/
def Preemption.tick (process : Nat) (user asm : Cpu) : Preemption :=
  { process := process, source := .tick, surroundings := .idle, user := user, asm := asm }

/-- With another process in the ring a tick preempts the current one. -/
theorem RingAt.preempt {k : Kernel} (h : RingAt k (a :: b :: xs)) (hloads : k.Loads (a :: b :: xs))
    (huser : privilege user.cs = 3) (hcs : asm.cs = gdtSelectorKernelCode)
    (hsegment : asm.segment = fun _ => gdtSelectorKernelData) :
    ∃ k', PreemptStep k (.tick a user asm) k' ∧ RingAt k' ((a :: b :: xs).rotate 1) ∧
      k'.Loads ((a :: b :: xs).rotate 1) := by
  obtain ⟨p, ys, hcurrent, hp, hnext, hrotate⟩ := h.head
  have hne : p.next ≠ a := by
    obtain rfl := (List.cons.inj hrotate).1
    exact fun heq => (List.nodup_cons.mp h.nodup).1 (heq ▸ List.mem_cons_self)
  have ha : a ≠ 0 := fun h0 => h.pos (h0 ▸ List.mem_cons_self)
  obtain ⟨k', iret, hrun, hring, -, -⟩ := h.switch (List.cons_ne_nil a _) hloads
    (some (Preemption.tick a user asm).frame)
  obtain ⟨hcall, hsegments⟩ := atCall_segments .idle user 0 (.irq 0 32)
  refine ⟨k', ⟨hcurrent.symm, huser, (fun hy => nomatch hy), hcs.trans hcall.symm,
    hsegment.trans hsegments.symm, iret, ?_⟩, hring,
    (hloads.switched hrun).rotate 1⟩
  show procTimerCallback k _ = _
  rw [procTimerCallback, hcurrent, if_neg ha, hp]
  dsimp only
  rw [if_neg hne, if_pos hnext, hrun]
  rfl

/-- Two created processes, both of which a tick preempts. -/
theorem twoPreempted (user asm : Cpu) (huser : privilege user.cs = 3) (hcs : asm.cs = gdtSelectorKernelCode)
    (hsegment : asm.segment = fun _ => gdtSelectorKernelData) : ∃ s₀ k₀ k a b,
      pagingInit bootVm 0x100000 = .ok s₀ ∧
      Run SchedStep (bootKernel s₀ 0) [.create (fun _ => 0x90) 128, .create (fun _ => 0x90) 128] k₀ ∧
      Run PreemptStep k₀ ([.tick a user asm] ++ [.tick b user asm]) k ∧ k.currentProcess = a ∧
      lastFrame a ([.tick a user asm] ++ [.tick b user asm]) = some (Preemption.tick a user asm).frame := by
  obtain ⟨s₀, k₀, a, b, ds, hinit, hruns, hr₀, -, hspaces⟩ := twoRing
  have hab : b ≠ a := fun heq => (List.nodup_cons.mp hr₀.nodup).1 (heq ▸ List.mem_cons_self)
  obtain ⟨k₂, hstep, hr₂, hloads₂⟩ := hr₀.preempt (hspaces.loads _) huser hcs hsegment
  change RingAt k₂ [b, a] at hr₂
  obtain ⟨k, hstep', hr, -⟩ := hr₂.preempt hloads₂ huser hcs hsegment
  refine ⟨s₀, k₀, k, a, b, hinit, hruns, .cons hstep (.single hstep'), hr.current, ?_⟩
  have hnot : ¬ (Preemption.tick b user asm).process = a := hab
  rw [lastFrame_snoc, if_neg hnot]
  exact (lastFrame_snoc a [] (.tick a user asm)).trans (if_pos rfl)

/-- A process that was entered by the scheduler: it has no data segments. -/
def Cpu.entered : Cpu := { Cpu.user with ds := 0, es := 0, fs := 0 }

theorem kernel_segment : Cpu.kernel.segment = fun _ => gdtSelectorKernelData :=
  funext fun s => by cases s <;> rfl

/-- A program preempted at the address 0, with zeros in its registers. -/
theorem resumed_iff_zeros : ∃ s₀ k₀ k a b g p,
    pagingInit bootVm 0x100000 = .ok s₀ ∧ gdtInit 0xC0105000 .zeroed = .ok g ∧
    Run SchedStep (bootKernel s₀ 0) [.create (fun _ => 0x90) 128, .create (fun _ => 0x90) 128] k₀ ∧
    Run PreemptStep k₀ ([.tick a .entered .kernel] ++ [.tick b .entered .kernel]) k ∧
    k.currentProcess = a ∧ k.processes a = some p ∧
    p.registers = (Preemption.tick a .entered .kernel).frame ∧
    InForce p.registers ((Preemption.tick b .entered .kernel).resumed g p) := by
  obtain ⟨s₀, k₀, k, a, b, hinit, hruns, hrun, rfl, hlast⟩ :=
    twoPreempted .entered .kernel (by decide) rfl kernel_segment
  obtain ⟨g, hgdt⟩ : ∃ g, gdtInit 0xC0105000 .zeroed = .ok g := ⟨_, rfl⟩
  obtain ⟨p, hp, hr, hiff⟩ := resumed_iff hgdt hrun hlast
  have hnames := (Preemption.tick k.currentProcess .entered .kernel).frame_names
  refine ⟨s₀, k₀, k, _, b, g, p, hinit, hgdt, hruns, hrun, rfl, hp, hr, hr ▸ hiff.mpr ?_⟩
  exact
    { eax := hnames.eax.trans hnames.eip.symm
      ebx := hnames.ebx
      ecx := hnames.ecx
      edx := hnames.edx
      esi := hnames.esi
      edi := hnames.edi
      ebp := hnames.ebp
      ds := hnames.ds
      es := hnames.es
      fs := hnames.fs
      gs := hnames.gs }

/-- A program preempted at the address 16 with 7 in `eax` finds 16 there. -/
theorem preempted_eax_lost : ∃ s₀ k₀ k a b g p,
    pagingInit bootVm 0x100000 = .ok s₀ ∧ gdtInit 0xC0105000 .zeroed = .ok g ∧
    Run SchedStep (bootKernel s₀ 0) [.create (fun _ => 0x90) 128, .create (fun _ => 0x90) 128] k₀ ∧
    Run PreemptStep k₀ ([.tick a { Cpu.entered with eax := 7, eip := 16 } .kernel] ++
      [.tick b { Cpu.entered with eax := 7, eip := 16 } .kernel]) k ∧
    k.currentProcess = a ∧ k.processes a = some p ∧ p.registers.eax = 7 ∧
    ((Preemption.tick b { Cpu.entered with eax := 7, eip := 16 } .kernel).resumed g p).eax = 16 ∧
    ¬ InForce p.registers
      ((Preemption.tick b { Cpu.entered with eax := 7, eip := 16 } .kernel).resumed g p) := by
  obtain ⟨s₀, k₀, k, a, b, hinit, hruns, hrun, rfl, hlast⟩ :=
    twoPreempted { Cpu.entered with eax := 7, eip := 16 } .kernel (by decide) rfl kernel_segment
  obtain ⟨g, hgdt⟩ : ∃ g, gdtInit 0xC0105000 .zeroed = .ok g := ⟨_, rfl⟩
  obtain ⟨p, hp, hr⟩ := lastFrame_saved hrun hlast
  have hnames :=
    (Preemption.tick k.currentProcess { Cpu.entered with eax := 7, eip := 16 } .kernel).frame_names
  obtain ⟨k₁, -, hstep⟩ := hrun.of_append
  cases hstep with
  | cons hstep hnil =>
      cases hnil
      have hsaved : p.registers.eax = 7 := hr ▸ hnames.eax
      have heip : p.registers.eip = 16 := hr ▸ hnames.eip
      have heax := (hstep.resumed hgdt p).eax
      rw [heip] at heax
      refine ⟨s₀, k₀, k, _, b, g, p, hinit, hgdt, hruns, hrun, rfl, hp, hsaved, heax, fun hf => ?_⟩
      have hforce := hf.eax
      rw [heax, hsaved] at hforce
      cases hforce

end NimbleOS
