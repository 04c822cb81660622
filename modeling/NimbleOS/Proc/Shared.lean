import NimbleOS.Boot
import NimbleOS.Proc.Switch

/-!
# NimbleOS.Proc.Shared

The kernel's half of the address spaces.  Its page tables are copied once, when a
directory is created; `Shared` is the invariant that keeps the copies equal: the only
kernel table that `proc_run_code` ever creates, that of the window, is created before
the first copy.
-/

namespace NimbleOS

open Pmm

/-! ## directories that agree -/

/-- The kernel directory `kd` and the process directories `ds`. -/
structure Shared (kd : Nat) (ds : List Nat) (k : Kernel) : Prop where
  sane : k.vm.pmm.Sane
  current : k.vm.cr3 ∈ kd :: ds
  wf : ∀ d ∈ kd :: ds, DirWF Pmm.Taken (k.vm.inDir d)
  /-- The kernel's slots are the same everywhere. -/
  high : ∀ d ∈ kd :: ds, ∀ j, kernelPageDirIndex ≤ j → j < 1023 →
    entry k.vm.mem d j = entry k.vm.mem kd j
  /-- Where there is a copy, it has the window's table. -/
  window : ds = [] ∨ isPresent (entry k.vm.mem kd windowSlot) = true
  closed : translate k.vm.mem kd kernelHeapEndVirt = none

namespace Shared

variable {k k' : Kernel} (h : Shared kd ds k)

include h

theorem aligned (hd : d ∈ kd :: ds) : d % pageSize = 0 := (h.wf d hd).self.aligned

/-- **Kernel addresses** translate alike in all directories. -/
theorem translate_eq (hd : d ∈ kd :: ds) (hlo : kernelBaseVirt ≤ virt) (hhi : virt < 0xFFC00000) :
    translate k.vm.mem d virt = translate k.vm.mem kd virt := by
  refine translate_agree (h.aligned hd) (h.aligned List.mem_cons_self) (h.high d hd _ ?_ ?_)
  · unfold kernelPageDirIndex dirIndex kernelBaseVirt at *
    omega
  · unfold dirIndex
    omega

/-- A process may be created in the current directory. -/
theorem ready (hcurrent : k.currentProcess ≠ 0 → ∃ p, k.processes k.currentProcess = some p) :
    k.Ready where
  sane := h.sane
  wf := h.wf k.vm.cr3 h.current
  closed := by rw [h.translate_eq h.current (by decide) (by decide), h.closed]
  current := hcurrent

/-- Each directory has the kernel where the current one has it. -/
theorem keepsKernel (hd : d ∈ kd :: ds) : k.vm.KeepsKernel d := by
  refine .of_slots (h.aligned hd) (h.aligned h.current) fun j hlo hhi => ?_
  have hslot : dirIndex kernelHeapEndVirt = windowSlot := by decide
  have hj : j < 1023 := by unfold windowSlot at hslot; omega
  rw [h.high d hd j hlo hj, h.high _ h.current j hlo hj]

/-- **Switching** to one of the directories. -/
theorem inDir (hd : d ∈ kd :: ds) : Shared kd ds { k with vm := k.vm.inDir d } :=
  ⟨h.sane, hd, h.wf, h.high, h.window, h.closed⟩

/-- With a second directory the window's table is there already. -/
theorem window_present (hd : d ∈ kd :: ds) (hne : d ≠ k.vm.cr3) :
    isPresent (k.vm.pde windowSlot) = true := by
  rw [Vm.pde, h.high _ h.current _ (by decide) (by decide)]
  rcases h.window with rfl | hp
  · have hkd := List.mem_singleton.mp hd
    have hcr3 := List.mem_singleton.mp h.current
    exact absurd (hkd.trans hcr3.symm) hne
  · exact hp

/-! ### creation -/

variable {o : Space} (hbuilt : Built { k.vm with log := l } code len k'.vm o)

include hbuilt

/-- The allocations of the call. -/
theorem draws_spec : DrawsSpec k.vm.pmm (o.allocs len) k'.vm.pmm :=
  hbuilt.draws.spec (s := { k.vm with log := l }) h.sane hbuilt.nonzero

/-- Creation changes no slot, but for that of a missing window table in the current directory. -/
theorem entry_kept (hd : d ∈ kd :: ds) (hj : j < pageEntries)
    (hnot : j ≠ windowSlot ∨ isPresent (k.vm.pde windowSlot) = true) :
    entry k'.vm.mem d j = entry k.vm.mem d j := by
  have hwf := h.wf d hd
  by_cases hcur : d = k.vm.cr3
  · have hcr3 : k'.vm.cr3 = k.vm.cr3 := hbuilt.cr3
    have hpde := hbuilt.pde_current hj hnot
    rw [Vm.pde, hcr3] at hpde
    rw [hcur]
    exact hpde
  · have hp := h.window_present hd hcur
    have hslot : k'.vm.pde windowSlot = k.vm.pde windowSlot :=
      hbuilt.pde_current (by decide) (.inr hp)
    have hsame : k.vm.pde windowSlot = entry k.vm.mem d windowSlot := by
      rw [Vm.pde, h.high _ h.current _ (by decide) (by decide),
        h.high d hd _ (by decide) (by decide)]
    refine hbuilt.only d hwf.self.aligned hwf.dir_taken hcur (fun heq => ?_) j hj
    rw [hslot, hsame] at heq
    exact hwf.ne_dir windowSlot (by decide) (by rw [Vm.pde_inDir, ← hsame]; exact hp) heq.symm

/-- The directories are well-formed as before. -/
theorem wf_kept (hd : d ∈ kd :: ds) : DirWF Pmm.Taken (k'.vm.inDir d) := by
  have hcr3 : k'.vm.cr3 = k.vm.cr3 := hbuilt.cr3
  by_cases hcur : d = k.vm.cr3
  · have hwf := hbuilt.wf
    rwa [hcur, ← hcr3]
  · exact (h.wf d hd).congr rfl
      (fun j hj => h.entry_kept hbuilt hd hj (.inr (h.window_present hd hcur)))
      fun f hf => ((h.draws_spec hbuilt).used _).mpr (.inl hf)

/-- The slots of two directories stay equal. -/
theorem high_kept (hd : d ∈ kd :: ds) (hlo : kernelPageDirIndex ≤ j) (hj : j < 1023) :
    entry k'.vm.mem d j = entry k'.vm.mem k.vm.cr3 j := by
  by_cases hcur : d = k.vm.cr3
  · rw [hcur]
  · have hp := h.window_present hd hcur
    rw [h.entry_kept hbuilt hd (slot_lt hj) (.inr hp),
      h.entry_kept hbuilt h.current (slot_lt hj) (.inr hp), h.high d hd j hlo hj,
      h.high _ h.current j hlo hj]

/-- **Creation** keeps the directories equal, and the new one is equal to them. -/
theorem create : Shared kd (o.directory :: ds) k' := by
  have hcr3 : k'.vm.cr3 = k.vm.cr3 := hbuilt.cr3
  have hkd : kd ∈ kd :: ds := List.mem_cons_self
  have hmem : ∀ d ∈ kd :: o.directory :: ds, d = o.directory ∨ d ∈ kd :: ds := fun d hd => by
    simp only [List.mem_cons] at hd ⊢
    tauto
  have hhigh : ∀ d ∈ kd :: o.directory :: ds, ∀ j, kernelPageDirIndex ≤ j → j < 1023 →
      entry k'.vm.mem d j = entry k'.vm.mem k.vm.cr3 j := by
    intro d hd j hlo hj
    rcases hmem d hd with rfl | hold
    · have hpde := hbuilt.high j hlo hj
      rwa [Vm.pde_inDir, Vm.pde, hcr3] at hpde
    · exact h.high_kept hbuilt hold hlo hj
  exact
    { sane := (h.draws_spec hbuilt).sane
      current := by
        have hcurrent := h.current
        rw [hcr3]
        simp only [List.mem_cons] at hcurrent ⊢
        tauto
      wf := fun d hd => by
        rcases hmem d hd with rfl | hold
        · exact hbuilt.wf_new
        · exact h.wf_kept hbuilt hold
      high := fun d hd j hlo hj => by
        rw [hhigh d hd j hlo hj, hhigh kd List.mem_cons_self j hlo hj]
      window := by
        have hp := hbuilt.present
        rw [Vm.pde, hcr3] at hp
        exact .inr (by rw [hhigh kd List.mem_cons_self _ (by decide) (by decide), hp])
      closed := by
        have hslot : dirIndex kernelHeapEndVirt = windowSlot := by decide
        rw [translate_agree (h.aligned hkd) (h.aligned h.current)
          (hhigh kd List.mem_cons_self _ (by decide) (by decide))]
        have hkept : translate k'.vm.mem k.vm.cr3 kernelHeapEndVirt = _ :=
          hbuilt.translate_current ((h.wf _ h.current).congr rfl (fun _ _ => rfl) fun _ hf => hf)
            (by decide) (.inl (by decide))
        rw [hkept]
        exact (h.translate_eq h.current (by decide) (by decide)).trans h.closed }

end Shared

/-! ## runs -/

/-- A successful `proc_run_code`, a switch to the directory of a process, or the
scheduler's switch to the next process. -/
inductive SpaceEvent where
  | create (code : Nat → BitVec 8) (len : Nat)
  | directory (process : Nat)
  | schedule (regs : Option Registers)

inductive SpaceStep : Kernel → SpaceEvent → Kernel → Prop where
  | create {k k' : Kernel} (run : procRunCode k code len = .ok k')
      (succeeds : k.vm.Succeeds k'.vm) : SpaceStep k (.create code len) k'
  | directory {k : Kernel} (process : k.processes a = some p)
      (switch : pagingSwitchDirectory k.vm p.directory = .ok vm) :
      SpaceStep k (.directory a) { k with vm := vm }
  | schedule {k k' : Kernel} (switch : procSwitchProcess k regs = .ok (k', iret)) :
      SpaceStep k (.schedule regs) k'

/-- The directories are those of the kernel and of the processes. -/
structure Spaces (kd : Nat) (k : Kernel) (ds : List Nat) : Prop extends Shared kd ds k where
  directory : ∀ a p, k.processes a = some p → p.directory ∈ ds
  process : k.currentProcess ≠ 0 → ∃ p, k.processes k.currentProcess = some p

/-- The new process becomes the current one if there was none. -/
theorem procInsert_current {k k' : Kernel} (hprocess : process ≠ 0)
    (h : procInsert k process = .ok k') :
    k'.currentProcess = if k.currentProcess = 0 then process else k.currentProcess := by
  obtain ⟨hzero, rfl⟩ | ⟨current, hne, -, hlinked⟩ := procInsert_of_ok hprocess h
  · exact (if_pos hzero).symm
  · rw [if_neg hne]
    obtain ⟨-, rfl⟩ | ⟨-, rfl⟩ := hlinked
    · rfl
    · rfl

/-- After a creation a process is the new one, or has the directory that it had. -/
theorem Kernel.Adds.directory {k k₁ k' : Kernel}
    (h : k.Adds process (newProcess pid len stack pd) k₁) (hnext : k₁.SameButNext k')
    (hp : k'.processes a = some p) :
    a = process ∧ p.directory = pd ∨ a ≠ process ∧ ∃ q, k.processes a = some q ∧ p.directory = q.directory := by
  have ha := h.inserted hnext a
  rw [hp, Option.map_some] at ha
  by_cases hnew : a = process
  · rw [if_pos hnew] at ha
    exact .inl ⟨hnew, congrArg Process.directory (Option.some.inj ha)⟩
  · rw [if_neg hnew] at ha
    obtain ⟨q, hq, heq⟩ := Option.map_eq_some_iff.mp ha.symm
    have hdir : q.unlinked.directory = p.unlinked.directory := congrArg Process.directory heq
    exact .inr ⟨hnew, q, hq, hdir.symm⟩

/-- The others keep their directories. -/
theorem Kernel.Adds.kept {k k₁ k' : Kernel} (h : k.Adds process p k₁) (hnext : k₁.SameButNext k')
    (hq : k.processes a = some q) (hne : a ≠ process) :
    ∃ p', k'.processes a = some p' ∧ p'.directory = q.directory := by
  have ha := h.inserted hnext a
  rw [if_neg hne, hq, Option.map_some, Option.map_eq_some_iff] at ha
  obtain ⟨p', hp', heq⟩ := ha
  have hdir : p'.unlinked.directory = q.unlinked.directory := congrArg Process.directory heq
  exact ⟨p', hp', hdir⟩

/-- The current process is there. -/
theorem Kernel.Adds.current {k k₁ k' : Kernel} (h : k.Adds process p k₁) (hprocess : process ≠ 0)
    (hinsert : procInsert k₁ process = .ok k') (hnext : k₁.SameButNext k')
    (hcurrent : k.currentProcess ≠ 0 → ∃ p, k.processes k.currentProcess = some p) :
    k'.currentProcess ≠ 0 → ∃ p, k'.processes k'.currentProcess = some p := by
  intro hne
  have hcur := procInsert_current hprocess hinsert
  rw [h.currentProcess] at hcur
  have ha := h.inserted hnext k'.currentProcess
  by_cases hnew : k'.currentProcess = process
  · rw [if_pos hnew, Option.map_eq_some_iff] at ha
    obtain ⟨p, hp, -⟩ := ha
    exact ⟨p, hp⟩
  · rw [if_neg hnew] at ha
    have hold : k'.currentProcess = k.currentProcess ∧ k.currentProcess ≠ 0 := by
      by_cases hzero : k.currentProcess = 0
      · rw [if_pos hzero] at hcur
        exact absurd hcur hnew
      · rw [if_neg hzero] at hcur
        exact ⟨hcur, hzero⟩
    obtain ⟨q, hq⟩ := hcurrent hold.2
    rw [hold.1, hq, Option.map_some, Option.map_eq_some_iff] at ha
    obtain ⟨p, hp, -⟩ := ha
    exact ⟨p, by rw [hold.1, hp]⟩

theorem Spaces.create {k k' : Kernel} (h : Spaces kd k ds) (hrun : procRunCode k code len = .ok k')
    (hsucc : k.vm.Succeeds k'.vm) : ∃ d, Spaces kd k' (d :: ds) := by
  obtain ⟨-, k₁, o, l, hbuilt, hadds, hinsert, hnext⟩ :=
    procRunCode_created (h.ready h.process) hrun hsucc
  refine ⟨o.directory, { h.toShared.create hbuilt with
    directory := fun a p hp => ?_
    process := hadds.current (process_ne_zero hrun hsucc) hinsert hnext h.process }⟩
  obtain ⟨-, hdir⟩ | ⟨-, q, hq, hdir⟩ := hadds.directory hnext hp
  · exact List.mem_cons.mpr (.inl hdir)
  · exact List.mem_cons.mpr (.inr (hdir ▸ h.directory a q hq))

theorem Spaces.schedule {k k' : Kernel} (h : Spaces kd k ds)
    (hswitch : procSwitchProcess k regs = .ok (k', iret)) : Spaces kd k' ds := by
  obtain ⟨k₁, old, p, hsave, -, hp, -, rfl, -⟩ := procSwitchProcess_of_ok hswitch
  have hsame := procSaveRegisters_same hsave
  have hdir : ∀ a q, k₁.processes a = some q → q.directory ∈ ds := fun a q hq => by
    obtain ⟨r, hr, heq⟩ := hsame.of_some hq
    have hd : q.unsaved.directory = r.unsaved.directory := congrArg Process.directory heq
    exact (show r.directory = q.directory from hd.symm) ▸ h.directory a r hr
  have hshared := h.toShared.inDir (List.mem_cons_of_mem kd (hdir _ p hp))
  exact
    { sane := by
        rw [Kernel.enter, hsame.vm]
        exact hshared.sane
      current := List.mem_cons_of_mem kd (hdir _ p hp)
      wf := by
        rw [Kernel.enter, hsame.vm]
        exact hshared.wf
      high := by
        rw [Kernel.enter, hsame.vm]
        exact hshared.high
      window := by
        rw [Kernel.enter, hsame.vm]
        exact hshared.window
      closed := by
        rw [Kernel.enter, hsame.vm]
        exact hshared.closed
      directory := hdir
      process := fun _ => ⟨p, hp⟩ }

/-- **Step lemma.** -/
theorem Spaces.step {k k' : Kernel} (h : Spaces kd k ds) (hstep : SpaceStep k e k') :
    ∃ ds', Spaces kd k' ds' := by
  cases hstep with
  | create hrun hsucc =>
      obtain ⟨d, hnew⟩ := h.create hrun hsucc
      exact ⟨d :: ds, hnew⟩
  | @directory a p vm _ hp hswitch =>
      obtain ⟨-, rfl⟩ := pagingSwitchDirectory_eq_ok.mp hswitch
      exact ⟨ds, { h.toShared.inDir (List.mem_cons_of_mem kd (h.directory a p hp)) with
        directory := h.directory, process := h.process }⟩
  | schedule hswitch => exact ⟨ds, h.schedule hswitch⟩

/-- **Run lemma.** -/
theorem Spaces.run {k k' : Kernel} (h : Spaces kd k ds) (hrun : Run SpaceStep k es k') :
    ∃ ds', Spaces kd k' ds' :=
  hrun.invariant (fun k => ∃ ds, Spaces kd k ds) (fun _ _ _ hinv hstep => by
    obtain ⟨ds, hinv⟩ := hinv
    exact hinv.step hstep) ⟨ds, h⟩

/-- The kernel directory alone. -/
theorem Booted.spaces {s : Vm Pmm} (h : Booted s kd) (esp0 : Nat) :
    Spaces kd (bootKernel s esp0) [] where
  sane := h.sane
  current := List.mem_singleton.mpr h.cr3
  wf := fun d hd => by
    rw [List.mem_singleton.mp hd, ← h.cr3]
    exact h.wf
  high := fun d hd j _ _ => by rw [List.mem_singleton.mp hd]
  window := .inl rfl
  closed := by
    have hclosed := (h.ready esp0).closed
    have hcr3 : (bootKernel s esp0).vm.cr3 = kd := h.cr3
    rwa [hcr3] at hclosed
  directory := fun _ _ hp => by cases hp
  process := fun hne => absurd rfl hne

/-- In `k` the directory `d` has the kernel's half of the kernel directory `kd`, and
refers to itself. -/
structure KernelHalf (k : Kernel) (kd d : Nat) : Prop where
  entries : ∀ j, 768 ≤ j → j ≤ 1022 → entry k.vm.mem d j = entry k.vm.mem kd j
  translates : ∀ virt, 0xC0000000 ≤ virt → virt ≤ 0xFFBFFFFF →
    translate k.vm.mem d virt = translate k.vm.mem kd virt
  self : isPresent (entry k.vm.mem d 1023) = true ∧ pageFrame (entry k.vm.mem d 1023) = d

theorem Shared.kernelHalf {k : Kernel} (h : Shared kd ds k) (hd : d ∈ kd :: ds) :
    KernelHalf k kd d where
  entries := fun j hlo hhi => h.high d hd j hlo (by omega)
  translates := fun virt hlo hhi => h.translate_eq hd hlo (by omega)
  self := ⟨(h.wf d hd).self.present, (h.wf d hd).self.self⟩

/-- A process of 128 bytes that do nothing. -/
theorem nopsCreated {k : Kernel} (hready : k.Ready) (hpos : 0 < k.heapPointer)
    (hheap : k.heapPointer + (sizeofProcess + pageSize) < kernelHeapEndVirt)
    (hroom : Room k.vm.pmm n) (hle : n + 15 ≤ k.vm.pmm.maxBlocks) :
    ∃ k', procRunCode k (fun _ => 0x90) 128 = .ok k' ∧ k.vm.Succeeds k'.vm ∧
      k'.heapPointer = k.heapPointer + (sizeofProcess + pageSize) ∧ Room k'.vm.pmm (n + 15) ∧
      k'.vm.pmm.maxBlocks = k.vm.pmm.maxBlocks ∧ ∃ p, k'.processes k.heapPointer = some p := by
  have h := procRunCode_of_room hready (fun _ => 0x90) 128 (by decide) hpos hheap hroom
    (by rwa [nops_blocks])
  rwa [nops_blocks] at h

/-- The first one on the small machine. -/
theorem firstCreated : ∃ s₀ k₁, pagingInit bootVm 0x100000 = .ok s₀ ∧ bootVm.Succeeds s₀ ∧
    procRunCode (bootKernel s₀ 0) (fun _ => 0x90) 128 = .ok k₁ ∧
      (bootKernel s₀ 0).vm.Succeeds k₁.vm ∧
      k₁.heapPointer = kernelHeapBaseVirt + (sizeofProcess + pageSize) ∧
      Room k₁.vm.pmm (1284 + 15) ∧ k₁.vm.pmm.maxBlocks = 2048 ∧
      ∃ p, k₁.processes kernelHeapBaseVirt = some p := by
  obtain ⟨s₀, hinit, hsucc, hroom, hmax⟩ := bootVm_init
  have hspaces := (pagingInit_booted bootVm_boot hinit hsucc).spaces 0
  have hpos : 0 < kernelHeapBaseVirt := by decide
  have hheap : kernelHeapBaseVirt + (sizeofProcess + pageSize) < kernelHeapEndVirt := by decide
  have hle : 1284 + 15 ≤ s₀.pmm.maxBlocks := by omega
  obtain ⟨k₁, hrun, hsucc₁, hheap₁, hroom₁, hmax₁, hp⟩ :=
    nopsCreated (hspaces.ready hspaces.process) hpos hheap hroom hle
  exact ⟨s₀, k₁, hinit, hsucc, hrun, hsucc₁, hheap₁, hroom₁, hmax₁.trans hmax, hp⟩

/-- And another one. -/
theorem secondCreated {k : Kernel} (hready : k.Ready)
    (hheap : k.heapPointer = kernelHeapBaseVirt + (sizeofProcess + pageSize))
    (hroom : Room k.vm.pmm (1284 + 15)) (hmax : k.vm.pmm.maxBlocks = 2048) :
    ∃ k', procRunCode k (fun _ => 0x90) 128 = .ok k' ∧ k.vm.Succeeds k'.vm := by
  obtain ⟨k', hrun, hsucc, -⟩ :=
    nopsCreated hready (by rw [hheap]; decide) (by rw [hheap]; decide) hroom (by omega)
  exact ⟨k', hrun, hsucc⟩

/-- On the small machine two processes can be created, one after the other. -/
theorem twoCreated : ∃ s₀ k₁ k ds, pagingInit bootVm 0x100000 = .ok s₀ ∧ bootVm.Succeeds s₀ ∧
    procRunCode (bootKernel s₀ 0) (fun _ => 0x90) 128 = .ok k₁ ∧
      (bootKernel s₀ 0).vm.Succeeds k₁.vm ∧
      procRunCode k₁ (fun _ => 0x90) 128 = .ok k ∧ k₁.vm.Succeeds k.vm ∧ Spaces 0x100000 k ds := by
  obtain ⟨s₀, k₁, hinit, hsucc, hrun₁, hsucc₁, hheap₁, hroom₁, hmax₁, -⟩ := firstCreated
  have hspaces := (pagingInit_booted bootVm_boot hinit hsucc).spaces 0
  obtain ⟨d₁, hspaces₁⟩ := hspaces.create hrun₁ hsucc₁
  obtain ⟨k, hrun, hsucc'⟩ :=
    secondCreated (hspaces₁.ready hspaces₁.process) hheap₁ hroom₁ hmax₁
  obtain ⟨d, hspaces'⟩ := hspaces₁.create hrun hsucc'
  exact ⟨s₀, k₁, k, _, hinit, hsucc, hrun₁, hsucc₁, hrun, hsucc', hspaces'⟩

end NimbleOS
