import NimbleOS.Proc

/-!
# NimbleOS.Proc.Switch

What `proc_switch_process` does when it returns: it saves the frame it was given in
the current process, moves on to the next one, and loads the kernel stack and the
directory of that process.  An exit first takes the current process out of the ring.
-/

namespace NimbleOS

/-- The kernel with a process's kernel stack and directory loaded, and the process current. -/
def Kernel.enter (k : Kernel) (process : Nat) (p : Process) : Kernel :=
  { k with
    currentProcess := process
    esp0 := p.kernelStack
    vm := k.vm.inDir p.directory }

/-- The frame that `proc_switch_process` returns to. -/
def Process.iret (p : Process) : Iret :=
  { ss := 0x23
    esp := p.registers.esp
    eflags := p.registers.eflags ||| 512
    cs := 0x1B
    eip := p.registers.eip }

theorem procSwitchProcess_of_ok {k k' : Kernel} (h : procSwitchProcess k regs = .ok (k', iret)) :
    ∃ k₁ old p, procSaveRegisters k regs = .ok k₁ ∧ k₁.processes k₁.currentProcess = some old ∧
      k₁.processes old.next = some p ∧ k₁.vm.KeepsKernel p.directory ∧
      k' = k₁.enter old.next p ∧ iret = p.iret := by
  obtain ⟨k₁, hsave, h⟩ := bind_eq_ok.mp h
  split at h
  · cases h
  · next old hold =>
    dsimp only at h
    split at h
    · cases h
    · next p hp =>
      obtain ⟨vm, hload, h⟩ := bind_eq_ok.mp h
      obtain ⟨hkeeps, rfl⟩ := pagingSwitchDirectory_eq_ok.mp hload
      obtain ⟨rfl, rfl⟩ := Prod.mk.inj (Except.ok.inj h)
      exact ⟨k₁, old, p, hsave, hold, hp, hkeeps, rfl, rfl⟩

theorem procSwitchProcess_eq {k k₁ : Kernel} (hsave : procSaveRegisters k regs = .ok k₁)
    (hold : k₁.processes k₁.currentProcess = some old) (hp : k₁.processes old.next = some p)
    (hkeeps : k₁.vm.KeepsKernel p.directory) :
    procSwitchProcess k regs = .ok (k₁.enter old.next p, p.iret) := by
  refine bind_eq_ok.mpr ⟨k₁, hsave, ?_⟩
  rw [hold]
  dsimp only
  rw [hp]
  exact bind_eq_ok.mpr ⟨_, pagingSwitchDirectory_eq_ok.mpr ⟨hkeeps, rfl⟩, rfl⟩

/-- Saving changes the registers of the current process. -/
theorem procSaveRegisters_of_ok {k k₁ : Kernel} (h : procSaveRegisters k regs = .ok k₁) :
    k₁ = k ∨ ∃ r p, regs = some r ∧ k.processes k.currentProcess = some p ∧
      k₁ = k.setProcess k.currentProcess { p with registers := r } := by
  cases regs with
  | none =>
      cases h
      exact .inl rfl
  | some r =>
      rw [procSaveRegisters] at h
      split at h
      · cases h
      · next p hp =>
        cases h
        exact .inr ⟨r, p, rfl, hp, rfl⟩

/-- A process without what `proc_switch_process` saves. -/
def Process.unsaved (p : Process) : Process := { p with registers := procInitialRegisters }

/-- Saving leaves the rest of the kernel alone. -/
structure Kernel.SameButSaved (k k₁ : Kernel) : Prop where
  vm : k₁.vm = k.vm
  currentProcess : k₁.currentProcess = k.currentProcess
  nextPid : k₁.nextPid = k.nextPid
  heapPointer : k₁.heapPointer = k.heapPointer
  processes : ∀ a, (k₁.processes a).map Process.unsaved = (k.processes a).map Process.unsaved

theorem procSaveRegisters_same {k k₁ : Kernel} (h : procSaveRegisters k regs = .ok k₁) :
    k.SameButSaved k₁ := by
  rcases procSaveRegisters_of_ok h with rfl | ⟨r, p, -, hp, rfl⟩
  · exact ⟨rfl, rfl, rfl, rfl, fun _ => rfl⟩
  · refine ⟨rfl, rfl, rfl, rfl, fun a => ?_⟩
    rw [Kernel.setProcess]
    dsimp only
    split
    · next heq =>
      rw [heq, hp]
      rfl
    · rfl

theorem Kernel.SameButSaved.of_some {k k₁ : Kernel} (h : k.SameButSaved k₁)
    (hp : k₁.processes a = some p) : ∃ q, k.processes a = some q ∧ p.unsaved = q.unsaved := by
  have hmap := h.processes a
  rw [hp, Option.map_some, eq_comm, Option.map_eq_some_iff] at hmap
  obtain ⟨q, hq, heq⟩ := hmap
  exact ⟨q, hq, heq.symm⟩

/-! ## a tick -/

/-- There is no other process to switch to. -/
def Kernel.Alone (k : Kernel) : Prop :=
  k.currentProcess = 0 ∨
    ∃ p, k.processes k.currentProcess = some p ∧ (p.next = k.currentProcess ∨ p.next = 0)

/-- A tick returns if there is no other process, and otherwise it is a switch. -/
theorem procTimerCallback_of_ok {k k' : Kernel} (h : procTimerCallback k regs = .ok (k', r)) :
    r = none ∧ k' = k ∧ k.Alone ∨
      ∃ iret, r = some iret ∧ ¬ k.Alone ∧ procSwitchProcess k (some regs) = .ok (k', iret) := by
  rw [procTimerCallback] at h
  by_cases hzero : k.currentProcess = 0
  · rw [if_pos hzero] at h
    obtain ⟨rfl, rfl⟩ := Prod.mk.inj (Except.ok.inj h)
    exact .inl ⟨rfl, rfl, .inl hzero⟩
  rw [if_neg hzero] at h
  cases hp : k.processes k.currentProcess with
  | none =>
      rw [hp] at h
      cases h
  | some p =>
      rw [hp] at h
      dsimp only at h
      by_cases hself : p.next = k.currentProcess
      · rw [if_pos hself] at h
        obtain ⟨rfl, rfl⟩ := Prod.mk.inj (Except.ok.inj h)
        exact .inl ⟨rfl, rfl, .inr ⟨p, hp, .inl hself⟩⟩
      rw [if_neg hself] at h
      by_cases hnext : p.next ≠ 0
      · rw [if_pos hnext] at h
        obtain ⟨⟨k₁, iret⟩, hrun, h⟩ := bind_eq_ok.mp h
        obtain ⟨rfl, rfl⟩ := Prod.mk.inj (Except.ok.inj h)
        refine .inr ⟨iret, rfl, ?_, hrun⟩
        rintro (h0 | ⟨q, hq, halone⟩)
        · exact hzero h0
        · obtain rfl := Option.some.inj (hp.symm.trans hq)
          exact halone.elim hself hnext
      · rw [if_neg hnext] at h
        obtain ⟨rfl, rfl⟩ := Prod.mk.inj (Except.ok.inj h)
        exact .inl ⟨rfl, rfl, .inr ⟨p, hp, .inr (not_not.mp hnext)⟩⟩

/-! ## exit -/

/-- Three times frames are given back, and nothing else is changed. -/
theorem procFreeSpace_of_ok {k k' : Kernel} (h : procFreeSpace k p = .ok k') :
    ∃ code stack pd, k' = { k with vm := { k.vm with
      pmm := pmmFreePage (pmmFreePages (pmmFreePages k.vm.pmm (pageFrame code) p.codeLen)
        (pageFrame stack) p.stackLen) (pageFrame pd) } } := by
  obtain ⟨code, -, h⟩ := bind_eq_ok.mp h
  obtain ⟨stack, -, h⟩ := bind_eq_ok.mp h
  obtain ⟨pd, -, h⟩ := bind_eq_ok.mp h
  exact ⟨code, stack, pd, (Except.ok.inj h).symm⟩

/-- `proc_exit_current_process` up to `current_process = p`. -/
def procUnlinkCurrent (k : Kernel) (fuel : Nat) : Except Halt Kernel :=
  match k.processes k.currentProcess with
  | none => .error .noProcess
  | some current => do
      let k ← procFreeSpace k current
      if current.next = k.currentProcess then .error .lastProcess
      else
        let p ← procFindPrevious k fuel current.next
        return { k.setNext p current.next with currentProcess := p }

/-- An exit unlinks the current process, prints the others and switches. -/
theorem procExitCurrentProcess_eq (k : Kernel) (fuel : Nat) :
    procExitCurrentProcess k fuel =
      procUnlinkCurrent k fuel >>= fun k =>
        procPrintProcesses k fuel >>= fun _ => procSwitchProcess k none := by
  unfold procExitCurrentProcess procUnlinkCurrent
  cases k.processes k.currentProcess with
  | none => rfl
  | some current =>
      simp only
      cases procFreeSpace k current with
      | error e => rfl
      | ok k' =>
          simp only [bind, Except.bind]
          by_cases hlast : current.next = k'.currentProcess
          · simp only [if_pos hlast]
          · simp only [if_neg hlast]
            cases procFindPrevious k' fuel current.next <;> rfl

end NimbleOS
