import NimbleOS.Proc.Space

/-!
# NimbleOS.Proc.Create

`proc_run_code` as a whole: when all its allocations succeed, the new address space
is the one that the claims of the process manager describe, the creating one is as
before, and the counter of used blocks has grown by what was asked for.
-/

namespace NimbleOS

open Pmm

/-! ## the call -/

/-- What the proofs need of the state in which `proc_run_code` is called: a
physical memory manager that keeps block 0, whatever its counter, a well-formed
directory with all its frames in use, an unmapped window, and a process where the
ring points to. -/
structure Kernel.Ready (k : Kernel) : Prop where
  sane : k.vm.pmm.Sane
  wf : DirWF Pmm.Taken k.vm
  closed : translate k.vm.mem k.vm.cr3 kernelHeapEndVirt = none
  current : k.currentProcess ≠ 0 → ∃ p, k.processes k.currentProcess = some p

/-- No large page covers an unmapped window, and its entry is not present. -/
theorem Kernel.Ready.window {k : Kernel} (h : k.Ready) :
    k.vm.SmallSlot windowSlot ∧ k.vm.tables windowPage = none := by
  have hclosed := h.closed
  have hdir : dirIndex kernelHeapEndVirt = windowSlot := by decide
  have hpage : kernelHeapEndVirt / pageSize = windowPage := rfl
  have hsmall : k.vm.SmallSlot windowSlot := by
    intro hp
    by_contra hlarge
    have hlarge' := Bool.eq_true_of_not_eq_false hlarge
    rw [Vm.pde] at hp hlarge'
    simp only [translate, hdir, pageFrame_of_aligned h.wf.self.aligned, hp, hlarge', Bool.not_true,
      Bool.false_eq_true, if_false, if_true] at hclosed
    contradiction
  refine ⟨hsmall, ?_⟩
  have htables := Vm.translate_eq_tables h.wf.self (by decide : kernelHeapEndVirt < 0xFFC00000)
    (by rwa [hdir])
  rw [← hpage, ← htables, hclosed]

/-- Every allocation of the call succeeds, and leads the physical memory manager to `p'`. -/
structure AllocsSucceed (k : Kernel) (len : Nat) (p' : Pmm) : Prop where
  process : (kmalloc k sizeofProcess).1 ≠ 0
  stack : (kmalloc (kmalloc k sizeofProcess).2 pageSize).1 ≠ 0
  pmm : Run Request.Granted k.vm.pmm (procRequests k.vm len) p'

/-- `kmalloc` changes the heap pointer and the log. -/
structure Kernel.SameButHeap (k k' : Kernel) : Prop where
  vm : ∃ l, k'.vm = { k.vm with log := l }
  processes : k'.processes = k.processes
  currentProcess : k'.currentProcess = k.currentProcess
  nextPid : k'.nextPid = k.nextPid
  esp0 : k'.esp0 = k.esp0

theorem kmalloc_same (k : Kernel) (size : Nat) : k.SameButHeap (kmalloc k size).2 := by
  unfold kmalloc
  split <;> exact ⟨⟨_, rfl⟩, rfl, rfl, rfl, rfl⟩

/-- `kmalloc` logs its answer. -/
theorem kmalloc_log (k : Kernel) (size : Nat) :
    (kmalloc k size).2.vm.log = .heap size (kmalloc k size).1 :: k.vm.log := by
  unfold kmalloc
  split <;> rfl

/-- A successful `kmalloc` hands out the memory from the heap pointer on. -/
theorem kmalloc_of_ne_zero (k : Kernel) (h : (kmalloc k size).1 ≠ 0) :
    u32 (k.heapPointer + size) < kernelHeapEndVirt ∧ (kmalloc k size).1 = k.heapPointer ∧
      (kmalloc k size).2.heapPointer = u32 (k.heapPointer + size) := by
  unfold kmalloc at *
  split at h
  · exact absurd rfl h
  · next hlt =>
    rw [if_neg hlt]
    exact ⟨Nat.lt_of_not_le hlt, rfl, rfl⟩

theorem kmalloc_ne_zero (k : Kernel) (hpos : 0 < k.heapPointer)
    (hlt : u32 (k.heapPointer + size) < kernelHeapEndVirt) : (kmalloc k size).1 ≠ 0 := by
  unfold kmalloc
  rw [if_neg (Nat.not_le.mpr hlt)]
  exact Nat.ne_of_gt hpos

theorem Kernel.SameButHeap.trans {k k' k'' : Kernel} (h : k.SameButHeap k')
    (h' : k'.SameButHeap k'') : k.SameButHeap k'' := by
  obtain ⟨l, hvm⟩ := h.vm
  obtain ⟨l', hvm'⟩ := h'.vm
  exact ⟨⟨l', by rw [hvm', hvm]⟩, h'.processes.trans h.processes,
    h'.currentProcess.trans h.currentProcess, h'.nextPid.trans h.nextPid, h'.esp0.trans h.esp0⟩

/-! ### a process in the heap -/

theorem Kernel.storeProcess_of_ne (k : Kernel) (hne : process ≠ 0) (p : Process) :
    k.storeProcess process p = .ok (k.setProcess process p) := if_neg hne

theorem Kernel.storeNext_of_ne (k : Kernel) (hne : process ≠ 0) (next : Nat) :
    k.storeNext process next = .ok (k.setNext process next) := if_neg hne

/-- The structure of a new process, from its kernel stack and its directory. -/
def newProcess (pid len stack pd : Nat) : Process where
  next := 0
  pid := pid
  stackLen := procKernelStackPages
  codeLen := numCodePages len
  directory := pd
  kernelStack := u32 (stack + pageSize - 1)
  registers := procInitialRegisters

/-- The kernel with the new process, before it is inserted in the ring. -/
def Kernel.withNew (k : Kernel) (len process stack pd : Nat) (vm : Vm Pmm) : Kernel :=
  ({ k with vm := vm, nextPid := u32 (k.nextPid + 1) } : Kernel).setProcess process
    (newProcess k.nextPid len stack pd)

/-- **proc_run_code** builds the address space and then inserts the process. -/
theorem procRunCode_of_built {k k₁ k₂ : Kernel} (hprocess : kmalloc k sizeofProcess = (process, k₁))
    (hstack : kmalloc k₁ pageSize = (stack, k₂))
    (hbuild : procBuildSpace k₂.vm code len = .ok (pd, vm)) (hne : process ≠ 0) :
    procRunCode k code len = procInsert (k₂.withNew len process stack pd vm) process := by
  rw [procRunCode, hprocess]
  dsimp only
  rw [hstack]
  dsimp only
  rw [hbuild]
  simp only [bind, Except.bind, Kernel.storeProcess_of_ne _ hne]
  rfl

/-! ### insertion in the ring -/

/-- A process without its link. -/
def Process.unlinked (p : Process) : Process := { p with next := 0 }

/-- The processes are the same, up to the links of the ring. -/
def Kernel.SameButNext (k k' : Kernel) : Prop :=
  ∀ a, (k'.processes a).map Process.unlinked = (k.processes a).map Process.unlinked

theorem Kernel.SameButNext.trans {k k' k'' : Kernel} (h : k.SameButNext k')
    (h' : k'.SameButNext k'') : k.SameButNext k'' := fun a => (h' a).trans (h a)

theorem Kernel.sameButNext_setNext (k : Kernel) (process next : Nat) :
    k.SameButNext (k.setNext process next) := by
  intro a
  by_cases ha : a = process
  · rw [setNext]
    dsimp only
    rw [if_pos ha, Option.map_map]
    rfl
  · rw [setNext]
    dsimp only
    rw [if_neg ha]

/-- Insertion changes the ring only. -/
structure Kernel.SameButRing (k k' : Kernel) : Prop where
  vm : k'.vm = k.vm
  heapPointer : k'.heapPointer = k.heapPointer
  nextPid : k'.nextPid = k.nextPid
  esp0 : k'.esp0 = k.esp0

/-- An empty ring is created; otherwise the process is put behind the current one, if this
is linked. -/
theorem procInsert_of_ok {k k' : Kernel} (hprocess : process ≠ 0)
    (h : procInsert k process = .ok k') :
    (k.currentProcess = 0 ∧
        k' = ({ k with currentProcess := process } : Kernel).setNext process process) ∨
      ∃ current, k.currentProcess ≠ 0 ∧ k.processes k.currentProcess = some current ∧
        (current.next ≠ 0 ∧
            k' = (k.setNext k.currentProcess process).setNext process current.next ∨
          current.next = 0 ∧ k' = k) := by
  unfold procInsert at h
  by_cases hne : k.currentProcess ≠ 0
  · rw [if_pos hne] at h
    split at h
    · cases h
    · next current hcurrent =>
        refine .inr ⟨current, hne, hcurrent, ?_⟩
        split at h
        · next hnext =>
          rw [Kernel.storeNext_of_ne _ hprocess] at h
          exact .inl ⟨hnext, (Except.ok.inj h).symm⟩
        · next hnext => exact .inr ⟨not_not.mp hnext, (Except.ok.inj h).symm⟩
  · rw [if_neg hne, Kernel.storeNext_of_ne _ hprocess] at h
    exact .inl ⟨not_not.mp hne, (Except.ok.inj h).symm⟩

theorem procInsert_same {k k' : Kernel} (hprocess : process ≠ 0)
    (h : procInsert k process = .ok k') : k.SameButRing k' := by
  obtain ⟨-, rfl⟩ | ⟨current, -, -, ⟨-, rfl⟩ | ⟨-, rfl⟩⟩ := procInsert_of_ok hprocess h
  · exact ⟨rfl, rfl, rfl, rfl⟩
  · exact ⟨rfl, rfl, rfl, rfl⟩
  · exact ⟨rfl, rfl, rfl, rfl⟩

/-- Insertion writes links, and the current process of an empty ring. -/
theorem procInsert_sameButNext {k k' : Kernel} (hprocess : process ≠ 0)
    (h : procInsert k process = .ok k') : k.SameButNext k' := by
  obtain ⟨-, rfl⟩ | ⟨current, -, -, ⟨-, rfl⟩ | ⟨-, rfl⟩⟩ := procInsert_of_ok hprocess h
  · exact Kernel.sameButNext_setNext { k with currentProcess := process } _ _
  · exact (k.sameButNext_setNext _ _).trans (Kernel.sameButNext_setNext _ _ _)
  · exact fun _ => rfl

/-- Insertion returns where the ring points to a process. -/
theorem procInsert_returns (k : Kernel) (hprocess : process ≠ 0)
    (hcurrent : k.currentProcess ≠ 0 → ∃ p, k.processes k.currentProcess = some p) :
    ∃ k', procInsert k process = .ok k' ∧ k'.vm = k.vm ∧ k.SameButNext k' := by
  have hreturns : ∃ k', procInsert k process = .ok k' := by
    unfold procInsert
    by_cases hne : k.currentProcess ≠ 0
    · obtain ⟨p, hp⟩ := hcurrent hne
      rw [if_pos hne, hp]
      dsimp only
      split
      · exact ⟨_, Kernel.storeNext_of_ne _ hprocess _⟩
      · exact ⟨_, rfl⟩
    · rw [if_neg hne]
      exact ⟨_, Kernel.storeNext_of_ne _ hprocess _⟩
  obtain ⟨k', h⟩ := hreturns
  exact ⟨k', h, (procInsert_same hprocess h).vm, procInsert_sameButNext hprocess h⟩

/-- The kernel's data before the new process `p` is inserted in the ring. -/
structure Kernel.Adds (k : Kernel) (process : Nat) (p : Process) (k' : Kernel) : Prop where
  processes : k'.processes = fun a => if a = process then some p else k.processes a
  currentProcess : k'.currentProcess = k.currentProcess
  nextPid : k'.nextPid = u32 (k.nextPid + 1)
  esp0 : k'.esp0 = k.esp0
  heapPointer : k'.heapPointer = (kmalloc (kmalloc k sizeofProcess).2 pageSize).2.heapPointer

/-- A call that returns has put the new process at the heap pointer and inserted it, whatever
its other allocations answered. -/
theorem procRunCode_parts {k k' : Kernel} (hprocess : (kmalloc k sizeofProcess).1 ≠ 0)
    (h : procRunCode k code len = .ok k') :
    ∃ k₁ stack pd, (kmalloc k sizeofProcess).1 = k.heapPointer ∧ k.heapPointer ≠ 0 ∧
      k.Adds k.heapPointer (newProcess k.nextPid len stack pd) k₁ ∧
      procInsert k₁ k.heapPointer = .ok k' := by
  have hsame₁ := kmalloc_same k sizeofProcess
  have haddr := kmalloc_of_ne_zero k hprocess
  have hheap : ∀ p k₁ r k₂, kmalloc k sizeofProcess = (p, k₁) → kmalloc k₁ pageSize = (r, k₂) →
      k₂.heapPointer = (kmalloc (kmalloc k sizeofProcess).2 pageSize).2.heapPointer := by
    intro p k₁ r k₂ h₁ h₂
    rw [h₁, h₂]
  obtain ⟨⟨process, k₁⟩, h₁⟩ : ∃ r, kmalloc k sizeofProcess = r := ⟨_, rfl⟩
  obtain ⟨⟨stack, k₂⟩, h₂⟩ : ∃ r, kmalloc k₁ pageSize = r := ⟨_, rfl⟩
  have hsame₂ := kmalloc_same k₁ pageSize
  have hheap₂ := hheap _ _ _ _ h₁ h₂
  rw [h₁] at hsame₁ haddr hprocess
  rw [h₂] at hsame₂
  have hsame := hsame₁.trans hsame₂
  rw [procRunCode, h₁] at h
  dsimp only at h haddr hsame hprocess
  rw [h₂] at h
  obtain ⟨⟨pd, vm⟩, -, h⟩ := bind_eq_ok.mp h
  dsimp only at h
  rw [Kernel.storeProcess_of_ne _ hprocess] at h
  obtain ⟨-, rfl, -⟩ := haddr
  refine ⟨k₂.withNew len k.heapPointer stack pd vm, stack, pd, by rw [h₁], hprocess, ?_, h⟩
  exact
    { processes := by
        rw [Kernel.withNew, hsame.nextPid]
        show (fun a => if a = k.heapPointer then _ else k₂.processes a) = _
        rw [hsame.processes]
      currentProcess := hsame.currentProcess
      nextPid := by
        show u32 (k₂.nextPid + 1) = _
        rw [hsame.nextPid]
      esp0 := hsame.esp0
      heapPointer := hheap₂ }

/-- A process of the kernel with the new one: the new one, or an old one. -/
theorem Kernel.Adds.inserted {k k₁ k' : Kernel} (h : k.Adds process p k₁)
    (hinsert : k₁.SameButNext k') (a : Nat) : (k'.processes a).map Process.unlinked =
      if a = process then some p.unlinked else (k.processes a).map Process.unlinked := by
  rw [hinsert a, h.processes]
  dsimp only
  split <;> rfl

/-- **proc_run_code** returns, if the allocation of the process succeeds and every
request to the physical memory manager is granted. -/
theorem procRunCode_returns {k : Kernel} (hready : k.Ready) (hend : numCodePages len ≤ stackPage)
    (code : Nat → BitVec 8) (hprocess : (kmalloc k sizeofProcess).1 ≠ 0)
    (hgrant : Run Request.Granted k.vm.pmm (procRequests k.vm len) p') :
    ∃ k₁ k' o l, procRunCode k code len = .ok k' ∧ k'.vm.pmm = p' ∧
      Built { k.vm with log := l } code len k'.vm o ∧
      l = [.heap pageSize (kmalloc (kmalloc k sizeofProcess).2 pageSize).1,
        .heap sizeofProcess (kmalloc k sizeofProcess).1] ++ k.vm.log ∧
      k.Adds (kmalloc k sizeofProcess).1 (newProcess k.nextPid len
        (kmalloc (kmalloc k sizeofProcess).2 pageSize).1 o.directory) k₁ ∧
      procInsert k₁ (kmalloc k sizeofProcess).1 = .ok k' ∧ k₁.SameButNext k' := by
  have hsame₁ := kmalloc_same k sizeofProcess
  have hlog₁ := kmalloc_log k sizeofProcess
  obtain ⟨⟨process, k₁⟩, h₁⟩ : ∃ r, kmalloc k sizeofProcess = r := ⟨_, rfl⟩
  rw [h₁] at hsame₁ hlog₁ hprocess ⊢
  have hsame₂ := kmalloc_same k₁ pageSize
  have hlog₂ := kmalloc_log k₁ pageSize
  obtain ⟨⟨stack, k₂⟩, h₂⟩ : ∃ r, kmalloc k₁ pageSize = r := ⟨_, rfl⟩
  dsimp only
  rw [h₂] at hsame₂ hlog₂ ⊢
  dsimp only at hlog₁ hlog₂
  have hsame := hsame₁.trans hsame₂
  obtain ⟨l, hvm⟩ := hsame.vm
  dsimp only at hvm hprocess
  have hc : CanClone k₂.vm := by
    rw [hvm]
    exact ⟨hready.sane, hready.wf.congr rfl (fun _ _ => rfl) fun _ h => h, hready.window.1⟩
  obtain ⟨vm, o, hbuild, hpmm, hbuilt⟩ := procBuildSpace_returns hc
    (by rw [hvm]; exact hready.window.2) hend code (by rw [hvm]; exact hgrant)
  have hrun := procRunCode_of_built h₁ h₂ hbuild hprocess
  have hadds : k.Adds process (newProcess k.nextPid len stack o.directory)
      (k₂.withNew len process stack o.directory vm) :=
    { processes := by
        rw [← hsame.processes, ← hsame.nextPid]
        rfl
      currentProcess := hsame.currentProcess
      nextPid := by
        rw [← hsame.nextPid]
        rfl
      esp0 := hsame.esp0
      heapPointer := by
        rw [h₁, h₂]
        rfl }
  have hvm₃ : (k₂.withNew len process stack o.directory vm).vm = vm := rfl
  generalize k₂.withNew len process stack o.directory vm = k₃ at hrun hadds hvm₃
  obtain ⟨k', hinsert, hvm', hnext⟩ := procInsert_returns k₃ hprocess (by
    rw [hadds.currentProcess, hadds.processes]
    intro hne
    by_cases heq : k.currentProcess = process
    · exact ⟨_, if_pos heq⟩
    · obtain ⟨p, hp⟩ := hready.current hne
      exact ⟨p, (if_neg heq).trans hp⟩)
  refine ⟨k₃, k', o, l, hrun.trans hinsert, ?_, ?_, ?_, hadds, hinsert, hnext⟩
  · rw [hvm', hvm₃, hpmm]
  · rw [hvm', hvm₃, ← hvm]
    exact hbuilt
  · rw [hvm, hlog₁] at hlog₂
    exact hlog₂

/-- The new process is at its address. -/
theorem Kernel.Adds.new {k k₁ k' : Kernel} (h : k.Adds process (newProcess pid len stack pd) k₁)
    (hinsert : k₁.SameButNext k') : ∃ q, k'.processes process = some q ∧
      q.unlinked = newProcess pid len stack pd := by
  have hmap := h.inserted hinsert process
  rw [if_pos rfl, Option.map_eq_some_iff] at hmap
  exact hmap

/-! ## the two address spaces -/

/-- Page number of the recursive region where the window's page table is seen. -/
def windowTablePage : Nat := 0xFFC00 + windowSlot

/-- Below the kernel the processor finds the pages of a directory without large pages. -/
theorem Vm.translate_low {s : Vm P} (hself : SelfMapped s.mem dir)
    (hsmall : ∀ d < kernelPageDirIndex, (s.inDir dir).SmallSlot d) (hvirt : virt < kernelBaseVirt) :
    translate s.mem dir virt = (s.inDir dir).tables (virt / pageSize) := by
  have hd : dirIndex virt < kernelPageDirIndex := by
    unfold dirIndex kernelPageDirIndex kernelBaseVirt at *
    omega
  have hlt : virt < 0xFFC00000 := by unfold kernelBaseVirt at hvirt; omega
  have hself' : SelfMapped (s.inDir dir).mem (s.inDir dir).cr3 := hself
  have htranslate := Vm.translate_eq_tables hself' hlt (hsmall _ hd)
  exact htranslate

section

variable {s s' : Vm Pmm} {o : Space} (h : Built s code len s' o)

include h

/-- A slot of the creating directory that has changed is that of the window. -/
theorem Built.pde_current (hd : d < pageEntries)
    (hnot : d ≠ windowSlot ∨ isPresent (s.pde windowSlot) = true) : s'.pde d = s.pde d := by
  refine h.window.same d hd fun t ht heq => ?_
  obtain ⟨page, flags, ⟨rfl, -⟩, hslot, -⟩ := h.window.needed t ht
  have hwin : d = windowSlot := by
    rw [← heq, ← hslot]
    decide
  rcases hnot with hne | hp
  · exact hne hwin
  · have habs := (h.window.absent t ht).2
    rw [heq, hwin, hp] at habs
    contradiction

/-- **The creating directory** translates as before, outside of one page of the
recursive region. -/
theorem Built.translate_current (hwf : DirWF Pmm.Taken s) (hvirt : virt < 2 ^ 32)
    (hnot : virt / pageSize ≠ windowTablePage ∨ isPresent (s.pde windowSlot) = true) :
    translate s'.mem s.cr3 virt = translate s.mem s.cr3 virt := by
  have hself := h.wf.self
  rw [h.cr3] at hself
  have hframe := pageFrame_of_aligned hwf.self.aligned
  by_cases hrec : virt < 0xFFC00000
  · by_cases hsmall : s.SmallSlot (dirIndex virt)
    · -- both directories have a page table or nothing at this slot, and equal maps
      have hd : dirIndex virt < 1023 := by unfold dirIndex; omega
      have hnew := Vm.translate_eq_tables h.wf.self hrec (h.window.smallSlot hd hsmall)
      rw [h.tables, h.cr3] at hnew
      rw [hnew, Vm.translate_eq_tables hwf.self hrec hsmall]
    · -- a large page, which is not the window's
      obtain ⟨hp, hl⟩ := Classical.not_imp.mp hsmall
      have hkept := h.window.kept (by unfold dirIndex; omega) hp
      rw [Vm.pde, h.cr3] at hkept
      have hl' := Bool.eq_true_of_not_eq_false hl
      rw [Vm.pde] at hp hl' hkept
      simp only [translate, hframe, hkept, hp, hl', Bool.not_true, Bool.false_eq_true, if_false,
        if_true]
  · have hdir : dirIndex virt = 1023 := by unfold dirIndex; omega
    have hwindow : tableIndex virt ≠ windowSlot ∨ isPresent (s.pde windowSlot) = true := by
      refine hnot.imp_left fun hne heq => hne ?_
      unfold tableIndex windowTablePage windowSlot pageSize at *
      omega
    have hpte := h.pde_current (tableIndex_lt virt) hwindow
    rw [Vm.pde, h.cr3, Vm.pde] at hpte
    rw [translate_recursive hself hdir, translate_recursive hwf.self hdir, hpte]

/-- After the call the window has a page table, which is seen in the recursive region. -/
theorem Built.window_seen : translate s'.mem s.cr3 0xFFF41000 ≠ none := by
  have hdir : dirIndex 0xFFF41000 = 1023 := by decide
  have htab : tableIndex 0xFFF41000 = windowSlot := by decide
  have hself := h.wf.self
  have hpresent := h.present
  rw [h.cr3] at hself
  rw [Vm.pde, h.cr3] at hpresent
  have htranslate := translate_recursive hself hdir
  rw [htranslate, htab, leaf, if_pos hpresent]
  exact Option.some_ne_none _

/-- A slot of the new directory below the kernel: empty, or a user table. -/
theorem Built.pde_new (hd : d < kernelPageDirIndex) :
    (s'.inDir o.directory).pde d = 0 ∨ ∃ t ∈ o.tables, t.1 = d ∧
      (s'.inDir o.directory).pde d = pdeRaw t.2 6 := by
  by_cases hnew : ∃ t ∈ o.tables, t.1 = d
  · obtain ⟨t, ht, rfl⟩ := hnew
    exact .inr ⟨t, ht, rfl, (h.user t ht).2⟩
  · exact .inl (h.low d hd fun t ht heq => hnew ⟨t, ht, heq⟩)

/-- Tables are page-aligned frames. -/
theorem Built.table_aligned (hs : s.pmm.Sane) (ht : t ∈ o.tables) :
    t.2 % pageSize = 0 ∧ t.2 < 2 ^ 32 :=
  (h.draws.spec hs h.nonzero).aligned _ (o.table_mem len ht) _ (mem_blocks_table t.1 t.2)

theorem Built.smallSlot (hs : s.pmm.Sane) (hd : d < kernelPageDirIndex) :
    (s'.inDir o.directory).SmallSlot d := by
  intro _
  rcases h.pde_new hd with hzero | ⟨t, ht, -, hraw⟩
  · rw [hzero]
    rfl
  · obtain ⟨halign, hlt⟩ := h.table_aligned hs ht
    rw [hraw]
    exact (pdeRaw_fields halign hlt (by decide : MapFlags 6)).2.2.1

theorem Built.translate_new (hs : s.pmm.Sane) (hvirt : virt < kernelBaseVirt) :
    translate s'.mem o.directory virt = (s'.inDir o.directory).tables (virt / pageSize) :=
  Vm.translate_low h.wf_new.self (fun _ hd => h.smallSlot hs hd) hvirt

/-- A page that is mapped in the new directory is accessible in its slot, too. -/
theorem Built.user_new (hs : s.pmm.Sane) (hp : p < 0xC0000)
    (hmap : (s'.inDir o.directory).tables p ≠ none) :
    isUser (entry s'.mem o.directory (p / 1024)) = true := by
  have hd : p / 1024 < kernelPageDirIndex := by
    unfold kernelPageDirIndex kernelBaseVirt
    omega
  rw [← Vm.pde_inDir]
  rcases h.pde_new hd with hzero | ⟨t, ht, -, hraw⟩
  · exact absurd (Vm.tables_of_absent (by rw [hzero]; rfl)) hmap
  · obtain ⟨halign, hlt⟩ := h.table_aligned hs ht
    rw [hraw, (pdeRaw_fields halign hlt (by decide : MapFlags 6)).2.2.2.2]
    rfl

/-- The frames of code and stack are fresh. -/
theorem Built.page_frame (hs : s.pmm.Sane) (hmem : Alloc.pages num a ∈ o.allocs len) (hp : p < num) :
    a % pageSize = 0 ∧ ¬ s.pmm.Taken (a + p * pageSize) ∧ s'.pmm.Taken (a + p * pageSize) ∧
      (a + p * pageSize) / pageSize ∈ (Alloc.pages num a).blocks := by
  have hfirst : a / pageSize ∈ (Alloc.pages num a).blocks := by
    rw [Alloc.blocks, blocksFrom, Finset.mem_Ico]
    omega
  have halign : a % pageSize = 0 := ((h.draws.spec hs h.nonzero).aligned _ hmem _ hfirst).1
  have hblock : (a + p * pageSize) / pageSize ∈ (Alloc.pages num a).blocks := by
    rw [Alloc.blocks, blocksFrom, Finset.mem_Ico]
    unfold pageSize at *
    omega
  exact ⟨halign, h.draws.not_taken hs h.nonzero hmem hblock, h.draws.taken hs h.nonzero hmem hblock,
    hblock⟩

/-- Code and stack have no frame in common. -/
theorem Built.code_ne_stack (hs : s.pmm.Sane) (hp : p < numCodePages len)
    (hq : q < procKernelStackPages) : o.code + p * pageSize ≠ o.stack + q * pageSize := by
  intro heq
  obtain ⟨-, -, -, hcode⟩ := h.page_frame hs (o.code_mem len) hp
  obtain ⟨-, -, -, hstack⟩ := h.page_frame hs (o.stack_mem len) hq
  have hdisj := (h.draws.spec hs h.nonzero).disjoint
  rw [Space.allocs, Space.owned, List.pairwise_append, List.pairwise_append] at hdisj
  have hpair := hdisj.1.2.2 _ (List.mem_append_right _ (List.mem_singleton_self _)) _
    (List.mem_append_right _ (List.mem_singleton_self _))
  exact Finset.disjoint_left.mp hpair hstack (heq ▸ hcode)

/-- The pages of the new address space. -/
theorem Built.page_new (hs : s.pmm.Sane) (hp : p < 0xC0000) :
    translate s'.mem o.directory (p * pageSize) =
      if p < numCodePages len then some (o.code + p * pageSize, 5)
      else if stackPage ≤ p then some (o.stack + (p - stackPage) * pageSize, 7) else none := by
  have hlt : p * pageSize < kernelBaseVirt := by unfold kernelBaseVirt pageSize; omega
  rw [h.translate_new hs hlt, Nat.mul_div_cancel p (by decide), h.space p hp]

/-- The address of a byte of the code. -/
theorem Built.walk_code (hs : s.pmm.Sane) (hend : numCodePages len ≤ stackPage) (hi : i < len) :
    walk s'.mem o.directory i = some (o.code + i) := by
  have hpages : i / pageSize < numCodePages len := by unfold numCodePages pageSize; omega
  have hlt : i < kernelBaseVirt := by unfold numCodePages stackPage kernelBaseVirt pageSize at *; omega
  rw [walk, h.translate_new hs hlt, h.space _ (by unfold stackPage at hend; omega), if_pos hpages,
    Option.map_some]
  dsimp only
  rw [Nat.add_assoc, Nat.div_add_mod']

/-- A mapped page is one of the code or one of the stack. -/
theorem Built.page_cases (hs : s.pmm.Sane) (hp : p < 0xC0000)
    (hmap : translate s'.mem o.directory (p * pageSize) = some (f, flags)) :
    (p < numCodePages len ∧ f = o.code + p * pageSize) ∨
      (stackPage ≤ p ∧ f = o.stack + (p - stackPage) * pageSize) := by
  rw [h.page_new hs hp] at hmap
  split at hmap
  · next hlt =>
    obtain ⟨rfl, -⟩ := Prod.mk.inj (Option.some.inj hmap)
    exact .inl ⟨hlt, rfl⟩
  · split at hmap
    · next hle =>
      obtain ⟨rfl, -⟩ := Prod.mk.inj (Option.some.inj hmap)
      exact .inr ⟨hle, rfl⟩
    · contradiction

/-- No frame is mapped twice. -/
theorem Built.page_inj (hs : s.pmm.Sane) (hp : p < 0xC0000) (hq : q < 0xC0000)
    (hmap : translate s'.mem o.directory (p * pageSize) = some (f, flags))
    (hmap' : translate s'.mem o.directory (q * pageSize) = some (f, flags')) : p = q := by
  have hlast : ∀ r < 0xC0000, r - stackPage < procKernelStackPages := fun r hr => by
    unfold stackPage procKernelStackPages
    omega
  cases h.page_cases hs hp hmap with
  | inl hpc =>
      cases h.page_cases hs hq hmap' with
      | inl hqc =>
          have heq := hpc.2.symm.trans hqc.2
          unfold pageSize at heq
          omega
      | inr hqs =>
          have hne := h.code_ne_stack hs hpc.1 (hlast q hq)
          exact absurd (hpc.2.symm.trans hqs.2) hne
  | inr hps =>
      cases h.page_cases hs hq hmap' with
      | inl hqc =>
          have hne := h.code_ne_stack hs hqc.1 (hlast p hp)
          exact absurd (hqc.2.symm.trans hps.2) hne
      | inr hqs =>
          have heq := hps.2.symm.trans hqs.2
          unfold pageSize at heq
          omega

end

end NimbleOS
