import NimbleOS.Cpu.Service
import NimbleOS.Cpu.Stubs
import NimbleOS.Proc.Ring

/-!
# NimbleOS.Proc.Nested

Interrupts on top of interrupts.  `irq_handler` enables interrupts before its stub has
returned, and so they are enabled in kernel code too, there and in `proc_init`.  A tick that is
accepted there saves the frame of the kernel code in the current process, exactly if there is
another process to switch to.
-/

namespace NimbleOS

/-! ## the machine -/

/-- The functions in `irq_handlers`: `timer_init` and `keyboard_init` register them. -/
inductive IrqFunction where
  | timerCallback
  | keyboardHandler
  deriving DecidableEq

def irqFunctions : Nat → Option IrqFunction
  | 0 => some .timerCallback
  | 1 => some .keyboardHandler
  | _ => none

/-- The code that runs, with interrupts enabled: the program of a process; the end of an
interrupt, between the `STI` of `irq_handler` and the `iret` of the stub, over what it has
interrupted; or `proc_init` with the callback registered, before and after
`current_process = current_process->next`. -/
inductive Running where
  | user (process : Nat) (c : Cpu)
  | window (c : Cpu) (interrupted : Running)
  | init (next : Bool) (c : Cpu)

namespace Running

/-- The registers it runs with. -/
def cpu : Running → Cpu
  | user _ c => c
  | window c _ => c
  | init _ c => c

def setCpu (c : Cpu) : Running → Running
  | user a _ => user a c
  | window _ interrupted => window c interrupted
  | init next _ => init next c

/-- Not a program of a process. -/
def inKernel : Running → Bool
  | user _ _ => false
  | window _ _ => true
  | init _ _ => true

end Running

structure Machine where
  kernel : Kernel
  irqs : IrqState IrqFunction
  running : Running

/-- The interrupt flag. -/
def Cpu.interruptsEnabled (c : Cpu) : Bool := c.eflags &&& 0x200 ≠ 0

/-- The stub of an interrupt. -/
def Interrupt.stub (i : Interrupt) : Stub := .irq (i.vector - irq0) i.vector

/-- The frame that a stub builds in the running code, and passes to the C handler. -/
def Machine.frame (m : Machine) (stub : Stub) (s : Surroundings) : Registers :=
  let c := stub.atCall s m.running.cpu 0
  registersAt c.memory (c.word 0)

/-- `irq_handler`, for an interrupt that the controllers deliver. -/
def Machine.handleIrq (m : Machine) (i : Interrupt) :
    IrqState IrqFunction × List (IrqAction IrqFunction) :=
  irqHandler (m.irqs.accept i) i.vector

/-- The processor behind an `iret` of the scheduler. -/
structure EnteredBy (iret : Iret) (c : Cpu) : Prop where
  eip : c.eip = BitVec.ofNat 32 iret.eip
  cs : c.cs = BitVec.ofNat 16 iret.cs
  eflags : c.eflags = BitVec.ofNat 32 iret.eflags
  esp : c.esp = BitVec.ofNat 32 iret.esp
  ss : c.ss = BitVec.ofNat 16 iret.ss

theorem exists_enteredBy (iret : Iret) : ∃ c, EnteredBy iret c :=
  ⟨{ Cpu.user with
      eip := BitVec.ofNat 32 iret.eip, cs := BitVec.ofNat 16 iret.cs
      eflags := BitVec.ofNat 32 iret.eflags, esp := BitVec.ofNat 32 iret.esp
      ss := BitVec.ofNat 16 iret.ss }, rfl, rfl, rfl, rfl, rfl⟩

/-! ## steps -/

/-- What happens next. -/
inductive NestedEvent where
  | run
  | nextProcess
  | enterProcess
  | irq (i : Interrupt) (s : Surroundings)
  | iret
  | syscall (s : Surroundings)

/-- A step, and the frame that `proc_switch_process` stores in it.  The registers `c` of the
code that runs then are any that fit. -/
inductive NestedStep (m : Machine) : NestedEvent → Machine → Option Registers → Prop where
  /-- The code gets on. -/
  | run : privilege c.cs = privilege m.running.cpu.cs →
      NestedStep m .run { m with running := m.running.setCpu c } none
  /-- `proc_switch_process(NULL)` of `proc_init`, its first part. -/
  | nextProcess : m.running = .init false c₀ →
      m.kernel.processes m.kernel.currentProcess = some p → privilege c.cs = 0 →
      NestedStep m .nextProcess
        { m with kernel := { m.kernel with currentProcess := p.next }, running := .init true c } none
  /-- And its second part. -/
  | enterProcess : m.running = .init true c₀ →
      m.kernel.processes m.kernel.currentProcess = some p →
      m.kernel.vm.KeepsKernel p.directory → EnteredBy p.iret c →
      NestedStep m .enterProcess
        { m with
          kernel := m.kernel.enter m.kernel.currentProcess p
          running := .user m.kernel.currentProcess c } none
  /-- An interrupt that does not call `timer_callback`. -/
  | irq : m.running.cpu.interruptsEnabled = true →
      .timerCallback ∉ called (m.handleIrq i).2 → privilege c.cs = 0 →
      NestedStep m (.irq i s)
        { m with irqs := (m.handleIrq i).1, running := .window c m.running } none
  /-- A tick that returns. -/
  | tick : m.running.cpu.interruptsEnabled = true →
      .timerCallback ∈ called (m.handleIrq i).2 →
      procTimerCallback m.kernel (m.frame i.stub s) = .ok (k, none) → privilege c.cs = 0 →
      NestedStep m (.irq i s)
        { kernel := k, irqs := (m.handleIrq i).1, running := .window c m.running } none
  /-- A tick that switches. -/
  | tickSwitches : m.running.cpu.interruptsEnabled = true →
      .timerCallback ∈ called (m.handleIrq i).2 →
      procTimerCallback m.kernel (m.frame i.stub s) = .ok (k, some iret) → EnteredBy iret c →
      NestedStep m (.irq i s)
        { kernel := k, irqs := (m.handleIrq i).1, running := .user k.currentProcess c }
        (some (m.frame i.stub s))
  /-- The stub returns to what it has interrupted. -/
  | iret : m.running = .window c interrupted →
      NestedStep m .iret { m with running := interrupted } none
  /-- System calls; interrupts stay disabled up to the `iret` of their stub. -/
  | yield : m.running = .user a c₀ → c₀.eax = 0 →
      procSwitchProcess m.kernel (some (m.frame (.isrNoerr 48) s)) = .ok (k, iret) →
      EnteredBy iret c →
      NestedStep m (.syscall s) { m with kernel := k, running := .user k.currentProcess c }
        (some (m.frame (.isrNoerr 48) s))
  | exit : m.running = .user a c₀ → c₀.eax = 1 →
      SchedReturns m.kernel .exit k (some iret) → EnteredBy iret c →
      NestedStep m (.syscall s) { m with kernel := k, running := .user k.currentProcess c } none
  | syscall : m.running = .user a c₀ → c₀.eax ≠ 0 → c₀.eax ≠ 1 → privilege c.cs = 3 →
      NestedStep m (.syscall s) { m with running := .user a c } none

def NestedRuns (m : Machine) (e : NestedEvent) (m' : Machine) : Prop := ∃ stored, NestedStep m e m' stored

/-! ## what stays true -/

/-- Programs run in user mode and are of the current process; all else runs in the kernel. -/
def Running.Sound (current : Nat) : Running → Prop
  | .user a c => a = current ∧ privilege c.cs = 3
  | .window c interrupted => privilege c.cs = 0 ∧ interrupted.Sound current
  | .init _ c => privilege c.cs = 0

structure Machine.Sound (m : Machine) : Prop where
  ring : ∃ xs, RingAt m.kernel xs ∧ m.kernel.Loads xs
  null : m.kernel.pidOf 0 = none
  handlers : m.irqs.handlers = irqFunctions
  running : m.running.Sound m.kernel.currentProcess

theorem Running.Sound.setCpu {r : Running} (h : r.Sound current)
    (hc : privilege c.cs = privilege r.cpu.cs) : (r.setCpu c).Sound current := by
  cases r with
  | user a c₀ => exact ⟨h.1, hc.trans h.2⟩
  | window c₀ interrupted => exact ⟨hc.trans h.1, h.2⟩
  | init next c₀ => exact hc.trans h

/-- A process is entered in user mode. -/
theorem Entered.user {k : Kernel} (h : Entered k iret) (hc : EnteredBy iret c) : privilege c.cs = 3 := by
  obtain ⟨p, -, -, -, rfl⟩ := h
  rw [hc.cs]
  exact (by decide : privilege (BitVec.ofNat 16 0x1B) = 3)

theorem handleIrq_handlers (m : Machine) (i : Interrupt) :
    (m.handleIrq i).1.handlers = m.irqs.handlers :=
  (irqHandler_handlers _ _).trans (m.irqs.accept_handlers i)

/-- `timer_callback` is called for the timer's line only. -/
theorem timerCallback_called_iff {m : Machine} (h : m.irqs.handlers = irqFunctions) (i : Interrupt) :
    .timerCallback ∈ called (m.handleIrq i).2 ↔ i = .genuine 0 := by
  have hmem : .timerCallback ∈ called (m.handleIrq i).2 ↔
      (irqIsSpurious (m.irqs.accept i) i.vector).1 ≠ true ∧ u32Sub i.vector irq0 = 0 := by
    rw [Machine.handleIrq, called_irqHandler, m.irqs.accept_handlers, h]
    split
    · next hspurious => exact iff_of_false List.not_mem_nil fun hand => hand.1 hspurious
    · next hgenuine =>
        rw [and_iff_right hgenuine, Option.mem_toList]
        generalize u32Sub i.vector irq0 = n
        match n with
        | 0 => exact iff_of_true rfl rfl
        | 1 => exact iff_of_false (by decide) (by decide)
        | n + 2 => exact iff_of_false (fun hn => nomatch hn) (by omega)
  rw [hmem]
  constructor
  · rintro ⟨-, hzero⟩
    cases i with
    | genuine n =>
        have hlt := n.isLt
        change u32Sub (irq0 + n.val) irq0 = 0 at hzero
        unfold u32Sub irq0 at hzero
        obtain rfl : n = 0 := Fin.ext (by
          show n.val = 0
          omega)
        rfl
    | spurious7 => revert hzero; decide
    | spurious15 => revert hzero; decide
  · rintro rfl
    refine ⟨?_, by decide⟩
    rw [irqIsSpurious_of_ne (by decide) (by decide)]
    exact Bool.false_ne_true

theorem Machine.Sound.null_process {m : Machine} (h : m.Sound) : m.kernel.processes 0 = none :=
  Option.map_eq_none_iff.mp h.null

/-- A switch leads to the program of the next process. -/
theorem Machine.Sound.switched {m m' : Machine} {k : Kernel} (h : m.Sound)
    (hrun : procSwitchProcess m.kernel regs = .ok (k, iret)) (hc : EnteredBy iret c)
    (hkernel : m'.kernel = k) (hirqs : m'.irqs.handlers = m.irqs.handlers)
    (hrunning : m'.running = .user k.currentProcess c) : m'.Sound := by
  obtain ⟨xs, hring, hloads⟩ := h.ring
  obtain ⟨hring₁, hentered, hsame⟩ := hring.switched (hring.ne_nil_of_switch h.null_process hrun) hrun
  have hloads₁ := (hloads.switched hrun).rotate 1
  subst hkernel
  exact ⟨⟨_, hring₁, hloads₁⟩, (hsame.pidOf 0).trans h.null, hirqs.trans h.handlers, by
    rw [hrunning]
    exact ⟨rfl, hentered.user hc⟩⟩

/-- **Step lemma**. -/
theorem Machine.Sound.step {m m' : Machine} (h : m.Sound) (hstep : NestedStep m e m' stored) :
    m'.Sound := by
  have hrunning := h.running
  cases hstep with
  | run hc => exact { h with running := hrunning.setCpu hc }
  | @nextProcess _ p _ hinit hp hc =>
      obtain ⟨xs, hring, hloads⟩ := h.ring
      cases xs with
      | nil =>
          rw [hring.nil_iff.mpr rfl, h.null_process] at hp
          cases hp
      | cons a xs =>
          have hcurrent : m.kernel.currentProcess = a := hring.current
          exact
            { h with
              ring := ⟨_, (hring.enter (hcurrent ▸ hp) p).congr rfl fun _ => rfl,
                hloads.rotate 1⟩
              running := hc }
  | enterProcess hinit hp hkeeps hc =>
      obtain ⟨xs, hring, hloads⟩ := h.ring
      have hentered : Entered (m.kernel.enter m.kernel.currentProcess _) _ := ⟨_, hp, rfl, rfl, rfl⟩
      exact
        { h with
          ring := ⟨xs, hring.congr rfl fun _ => rfl, fun a ha q hq => hkeeps.inDir (hloads a ha q hq)⟩
          running := ⟨rfl, hentered.user hc⟩ }
  | irq henabled hnot hc =>
      exact
        { h with
          handlers := (handleIrq_handlers m _).trans h.handlers
          running := ⟨hc, hrunning⟩ }
  | tick henabled hmem hrun hc =>
      obtain ⟨-, rfl, -⟩ | ⟨iret, hnone, -⟩ := procTimerCallback_of_ok hrun
      · exact
          { h with
            handlers := (handleIrq_handlers m _).trans h.handlers
            running := ⟨hc, hrunning⟩ }
      · cases hnone
  | tickSwitches henabled hmem hrun hc =>
      obtain ⟨hsome, -⟩ | ⟨iret, hsome, -, hrun⟩ := procTimerCallback_of_ok hrun
      · cases hsome
      · obtain rfl := Option.some.inj hsome
        exact h.switched hrun hc rfl (handleIrq_handlers m _) rfl
  | iret hwindow =>
      rw [hwindow] at hrunning
      exact { h with running := hrunning.2 }
  | yield huser hnumber hrun hc => exact h.switched hrun hc rfl rfl rfl
  | exit huser hnumber hexit hc =>
      obtain ⟨xs, hring, hloads⟩ := h.ring
      obtain ⟨a, b, ys, -, hring', hentered, hsame, hkept⟩ := hring.exited h.null_process hexit
      exact
        { h with
          ring := ⟨_, hring', hkept hloads⟩
          null := (hsame.pidOf 0).trans h.null
          running := ⟨rfl, hentered.user hc⟩ }
  | syscall huser h0 h1 hc =>
      rw [huser] at hrunning
      exact { h with running := ⟨hrunning.1, hc⟩ }

/-! ## the saved frames -/

/-- A user-mode context of the current process: its program is what runs, at these addresses. -/
def UserContext (m : Machine) (r : Registers) : Prop :=
  ∃ c, m.running = .user m.kernel.currentProcess c ∧ r.cs % 4 = 3 ∧ r.eip = c.eip.toNat ∧
    r.esp = c.esp.toNat

/-- What `proc_switch_process` stores in a step is a user-mode context of the process it is
stored for. -/
def StoresUserContexts (m : Machine) (e : NestedEvent) : Prop :=
  ∀ m' r, NestedStep m e m' (some r) → UserContext m r

/-- A tick that is accepted in the kernel finds no other process. -/
def TicksInUser (m : Machine) (e : NestedEvent) : Prop :=
  ∀ s, e = .irq (.genuine 0) s → m.running.cpu.interruptsEnabled = true →
    m.running.inKernel = true → m.kernel.Alone

theorem Interrupt.stub_mem (i : Interrupt) : i.stub ∈ stubs := by
  cases i with
  | genuine n =>
      have hall : ∀ n : Fin 16, (Interrupt.genuine n).stub ∈ stubs := by decide
      exact hall n
  | spurious7 => decide
  | spurious15 => decide

theorem privilege_toNat (selector : BitVec 16) : (privilege selector).toNat = selector.toNat % 4 := by
  rw [privilege, BitVec.toNat_and]
  exact Nat.and_two_pow_sub_one_eq_mod selector.toNat 2

/-- The privilege level in a frame is that of the code it was built in. -/
theorem Machine.frame_cs (m : Machine) (s : Surroundings) (hstub : stub ∈ stubs) :
    (m.frame stub s).cs % 4 = (privilege m.running.cpu.cs).toNat := by
  have hnames := (atCall_names s m.running.cpu 0 hstub).cs
  rw [privilege_toNat, ← hnames]
  exact (Nat.mod_mod_of_dvd _ (by decide)).symm

theorem Machine.Sound.frame_user {m : Machine} (h : m.Sound) (hrunning : m.running = .user a c)
    (s : Surroundings) (hstub : stub ∈ stubs) : UserContext m (m.frame stub s) := by
  have huser := h.running
  have hcs := m.frame_cs s hstub
  have hnames := atCall_names s m.running.cpu 0 hstub
  rw [hrunning] at huser hcs hnames
  obtain ⟨rfl, hprivilege⟩ := huser
  have hlow : privilege (Running.user m.kernel.currentProcess c).cpu.cs ≠ 0 := by
    show privilege c.cs ≠ 0
    rw [hprivilege]
    decide
  refine ⟨c, hrunning, hcs.trans (congrArg BitVec.toNat hprivilege), ?_, ?_⟩
  · rw [Machine.frame, hrunning]
    exact hnames.eip
  · rw [Machine.frame, hrunning]
    exact hnames.esp hlow

/-- What is stored is the frame of a tick with another process in the ring, or of a system call. -/
theorem NestedStep.of_stored {m m' : Machine} (h : NestedStep m e m' stored) (hr : stored = some r) :
    (∃ i s, e = .irq i s ∧ m.running.cpu.interruptsEnabled = true ∧
      .timerCallback ∈ called (m.handleIrq i).2 ∧ ¬ m.kernel.Alone ∧ r = m.frame i.stub s) ∨
    ∃ a c s, e = .syscall s ∧ m.running = .user a c ∧ r = m.frame (.isrNoerr 48) s := by
  cases h with
  | tickSwitches henabled hmem hrun hc =>
      obtain ⟨hnone, -⟩ | ⟨-, -, hothers, -⟩ := procTimerCallback_of_ok hrun
      · cases hnone
      · exact .inl ⟨_, _, rfl, henabled, hmem, hothers, (Option.some.inj hr).symm⟩
  | yield huser hnumber hrun hc => exact .inr ⟨_, _, _, rfl, huser, (Option.some.inj hr).symm⟩
  | _ => cases hr

/-- With another process in the ring a tick is a switch. -/
theorem Machine.Sound.tickSwitches {m : Machine} (h : m.Sound)
    (henabled : m.running.cpu.interruptsEnabled = true) (hothers : ¬ m.kernel.Alone)
    (s : Surroundings) : ∃ m', NestedStep m (.irq (.genuine 0) s) m'
      (some (m.frame (Interrupt.genuine 0).stub s)) := by
  obtain ⟨xs, hring, hloads⟩ := h.ring
  obtain ⟨k, r, hrun, -⟩ := hring.tick hloads (m.frame (Interrupt.genuine 0).stub s)
  obtain ⟨-, -, halone⟩ | ⟨iret, rfl, -, -⟩ := procTimerCallback_of_ok hrun
  · exact absurd halone hothers
  · obtain ⟨c, hc⟩ := exists_enteredBy iret
    exact ⟨_, .tickSwitches henabled ((timerCallback_called_iff h.handlers _).mpr rfl) hrun hc⟩

/-- **One step** stores user-mode contexts exactly if it is not a tick in the kernel. -/
theorem storesUserContexts_iff {m : Machine} (h : m.Sound) (e : NestedEvent) :
    StoresUserContexts m e ↔ TicksInUser m e := by
  constructor
  · rintro hstores s rfl henabled hkernel
    by_contra hothers
    obtain ⟨m', hstep⟩ := h.tickSwitches henabled hothers s
    obtain ⟨c, huser, -⟩ := hstores _ _ hstep
    rw [huser] at hkernel
    cases hkernel
  · intro hticks m' r hstep
    obtain ⟨i, s, rfl, henabled, hmem, hothers, rfl⟩ | ⟨a, c, s, rfl, huser, rfl⟩ := hstep.of_stored rfl
    · obtain rfl := (timerCallback_called_iff h.handlers i).mp hmem
      cases hkernel : m.running.inKernel with
      | true => exact absurd (hticks s rfl henabled hkernel) hothers
      | false =>
          cases hrunning : m.running with
          | user a c => exact h.frame_user hrunning s (Interrupt.stub_mem _)
          | window c interrupted =>
              rw [hrunning] at hkernel
              cases hkernel
          | init next c =>
              rw [hrunning] at hkernel
              cases hkernel
    · exact h.frame_user huser _ (by decide)

/-- `proc_init` has registered the callback, with any processes in the ring, whose directories
map the kernel. -/
structure Machine.Starts (m : Machine) (xs : List Nat) : Prop where
  running : ∃ c, m.running = .init false c ∧ privilege c.cs = 0
  ring : RingAt m.kernel xs
  loads : m.kernel.Loads xs
  null : m.kernel.pidOf 0 = none
  handlers : m.irqs.handlers = irqFunctions

theorem Machine.Starts.sound {m : Machine} (h : m.Starts xs) : m.Sound := by
  obtain ⟨c, hrunning, hc⟩ := h.running
  exact ⟨⟨xs, h.ring, h.loads⟩, h.null, h.handlers, by rw [hrunning]; exact hc⟩

/-- **The saved frames** are user-mode contexts of their processes, over a whole run and
whatever arrives in it, exactly if every tick that is accepted in the kernel finds no other
process. -/
theorem frames_saved_iff {m : Machine} (h : m.Starts xs) (es : List NestedEvent) :
    Run.Always NestedRuns StoresUserContexts m es ↔ Run.Always NestedRuns TicksInUser m es :=
  Run.always_congr Machine.Sound (fun _ e hs => storesUserContexts_iff hs e)
    (fun _ _ _ hs _ ⟨_, hstep⟩ => hs.step hstep) h.sound

/-! ## two processes -/

/-- A process is entered with interrupts enabled. -/
theorem EnteredBy.interruptsEnabled (hc : EnteredBy (Process.iret p) c) : c.interruptsEnabled = true := by
  have hbit : c.eflags.getLsbD 9 = true := by
    rw [hc.eflags]
    show (BitVec.ofNat 32 (p.registers.eflags ||| 512)).getLsbD 9 = true
    rw [BitVec.ofNat_or, BitVec.getLsbD_or]
    exact Bool.or_eq_true_iff.mpr (.inr (by decide))
  refine decide_eq_true fun hzero => ?_
  have hand : (c.eflags &&& 0x200).getLsbD 9 = false := by
    rw [hzero]
    rfl
  rw [BitVec.getLsbD_and, hbit] at hand
  cases hand

theorem RingAt.not_alone {k : Kernel} (h : RingAt k (a :: b :: xs)) : ¬ k.Alone := by
  obtain ⟨p, ys, hcurrent, hp, hnext, hrotate⟩ := h.head
  obtain rfl := (List.cons.inj hrotate).1
  rintro (hzero | ⟨q, hq, halone⟩)
  · exact h.pos (hcurrent ▸ hzero ▸ List.mem_cons_self)
  · obtain rfl := Option.some.inj (hp.symm.trans (hcurrent ▸ hq))
    refine halone.elim (fun hself => ?_) hnext
    exact (List.nodup_cons.mp h.nodup).1 (hcurrent ▸ hself ▸ List.mem_cons_self)

/-- `proc_init`, with nothing in service. -/
def Machine.atInit (k : Kernel) : Machine :=
  let pic : Pic := { isr := 0, irr := 0, imr := 0, readIsr := false }
  { kernel := k
    irqs := { pic1 := pic, pic2 := pic, handlers := irqFunctions }
    running := .init false .kernel }

/-- `proc_init` enters the second of two processes. -/
theorem entered_second {k : Kernel} (h : RingAt k [a, b]) (hloads : k.Loads [a, b]) : ∃ m c,
    Run NestedRuns (.atInit k) [.nextProcess, .enterProcess] m ∧ RingAt m.kernel [b, a] ∧
      m.running = .user m.kernel.currentProcess c ∧ c.interruptsEnabled = true := by
  obtain ⟨p, ys, hcurrent, hp, hnext, hrotate⟩ := h.head
  have hring : RingAt { k with currentProcess := p.next } [b, a] :=
    (h.enter hp p).congr rfl fun _ => rfl
  obtain ⟨q, zs, hcurrent', hq, -⟩ := hring.head
  have hkeeps : k.vm.KeepsKernel q.directory := hloads b (by simp) q hq
  obtain ⟨c, hc⟩ := exists_enteredBy q.iret
  exact ⟨_, c,
    .cons ⟨none, .nextProcess (c := .kernel) rfl (hcurrent ▸ hp) (by decide)⟩
      (.single ⟨none, .enterProcess rfl (hcurrent' ▸ hq) hkeeps hc⟩),
    hring.congr rfl fun _ => rfl, rfl, hc.interruptsEnabled⟩

theorem atInit_starts {k : Kernel} (h : RingAt k xs) (hloads : k.Loads xs)
    (hnull : k.pidOf 0 = none) : (Machine.atInit k).Starts xs :=
  ⟨⟨.kernel, rfl, by decide⟩, h, hloads, hnull, rfl⟩

theorem sound_run {m m' : Machine} (h : m.Sound) (hrun : Run NestedRuns m es m') : m'.Sound :=
  hrun.invariant Machine.Sound (fun _ _ _ hs ⟨_, hstep⟩ => hs.step hstep) h

/-- A tick in the second of two processes saves its context. -/
theorem frames_saved_iff_tick : ∃ s₀ k a b m,
    pagingInit bootVm 0x100000 = .ok s₀ ∧
    Run SchedStep (bootKernel s₀ 0) [.create (fun _ => 0x90) 128, .create (fun _ => 0x90) 128] k ∧
    (Machine.atInit k).Starts [a, b] ∧
    Run NestedRuns (.atInit k) [.nextProcess, .enterProcess, .irq (.genuine 0) .idle] m ∧
    Run.Always NestedRuns StoresUserContexts (.atInit k)
      [.nextProcess, .enterProcess, .irq (.genuine 0) .idle] := by
  obtain ⟨s₀, k, a, b, ds, hinit, hruns, hring, hnull, hspaces⟩ := twoRing
  have hstarts := atInit_starts hring (hspaces.loads _) hnull
  obtain ⟨m, c, hrun, hringm, huser, henabled⟩ := entered_second hring hstarts.loads
  obtain ⟨m', hstep⟩ := (sound_run hstarts.sound hrun).tickSwitches (by rw [huser]; exact henabled)
    hringm.not_alone .idle
  refine ⟨s₀, k, a, b, m', hinit, hruns, hstarts, hrun.append (.single ⟨_, hstep⟩),
    (frames_saved_iff hstarts _).mpr (.cons (fun s he => nomatch he) fun m₁ _ =>
      .cons (fun s he => nomatch he) fun m₂ ⟨_, henter⟩ => .cons (fun s _ _ hkernel => ?_) fun _ _ =>
        Run.always_nil)⟩
  cases henter with
  | enterProcess => cases hkernel

/-- A tick behind the `STI` of the keyboard's interrupt saves a frame of the kernel in the
process that the keyboard has interrupted. -/
theorem window_frame_saved : ∃ s₀ k a b m m' r,
    pagingInit bootVm 0x100000 = .ok s₀ ∧
    Run SchedStep (bootKernel s₀ 0) [.create (fun _ => 0x90) 128, .create (fun _ => 0x90) 128] k ∧
    (Machine.atInit k).Starts [a, b] ∧
    Run NestedRuns (.atInit k) [.nextProcess, .enterProcess, .irq (.genuine 1) .idle] m ∧
    NestedStep m (.irq (.genuine 0) .idle) m' (some r) ∧ r.cs % 4 = 0 ∧ ¬ UserContext m r := by
  obtain ⟨s₀, k, a, b, ds, hinit, hruns, hring, hnull, hspaces⟩ := twoRing
  have hstarts := atInit_starts hring (hspaces.loads _) hnull
  obtain ⟨m₁, c, hrun, hring₁, huser, henabled⟩ := entered_second hring hstarts.loads
  have hsound₁ := sound_run hstarts.sound hrun
  have hstep := NestedStep.irq (m := m₁) (i := .genuine 1) (s := .idle) (c := .kernel)
    (by rw [huser]; exact henabled)
    (fun hmem => nomatch (timerCallback_called_iff hsound₁.handlers _).mp hmem) (by decide)
  obtain ⟨m, hm⟩ : ∃ m, m = { m₁ with
    irqs := (m₁.handleIrq (.genuine 1)).1, running := Running.window .kernel m₁.running } := ⟨_, rfl⟩
  rw [← hm] at hstep
  have hringm : RingAt m.kernel [b, a] := by
    rw [hm]
    exact hring₁
  have hrunning : m.running = .window .kernel m₁.running := by
    rw [hm]
  obtain ⟨m', htick⟩ := (hsound₁.step hstep).tickSwitches
    (by rw [hrunning]; exact (by decide : Cpu.kernel.interruptsEnabled = true)) hringm.not_alone .idle
  refine ⟨s₀, k, a, b, m, m', _, hinit, hruns, hstarts, hrun.append (.single ⟨_, hstep⟩), htick, ?_, ?_⟩
  · rw [m.frame_cs .idle (Interrupt.stub_mem _), hrunning]
    exact (by decide : (privilege Cpu.kernel.cs).toNat = 0)
  · rintro ⟨c', hc', -⟩
    rw [hrunning] at hc'
    cases hc'

end NimbleOS
