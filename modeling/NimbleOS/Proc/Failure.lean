import NimbleOS.Proc.Contract
import NimbleOS.Proc.NullDirectory
import NimbleOS.Proc.Ring

/-!
# NimbleOS.Proc.Failure

`proc_run_code` looks at the result of none of its allocations.  Where one fails, everything
is as before in one case only: the memory counts as full when the call starts, and
`pmm_alloc_page` ends it with the request for the directory.
-/

namespace NimbleOS

open Pmm Halting

/-- An allocation of the call fails: `kmalloc` returns `NULL`, or the physical memory
manager grants the requests `pre` and answers 0 to the next one. -/
inductive AllocFails (k : Kernel) (len : Nat) : Prop where
  | process (h : (kmalloc k sizeofProcess).1 = 0)
  | stack (h : (kmalloc (kmalloc k sizeofProcess).2 pageSize).1 = 0)
  | pmm (h : procRequests k.vm len = pre ++ r :: post)
      (granted : Run Request.Granted k.vm.pmm pre p) (refused : r.Refused p)

/-- Everything is as before the call: no process is added to the ring, the current directory
and the physical memory manager are the same, and a page that is mapped in the current address
space and was not is mapped to a frame that the call was given. -/
structure Undone (k k' : Kernel) : Prop where
  ring : ∀ a, k'.InRing a → k.InRing a
  directory : k'.vm.cr3 = k.vm.cr3 ∧ ∀ j < pageEntries, k'.vm.pde j = k.vm.pde j
  pmm : k'.vm.pmm = k.vm.pmm
  entries : ∀ virt f fl, translate k'.vm.mem k'.vm.cr3 virt = some (f, fl) →
    translate k.vm.mem k.vm.cr3 virt = some (f, fl) ∨
      ∃ new, k'.vm.log = new ++ k.vm.log ∧ ∃ e ∈ new, e.addr ≠ 0 ∧ f / pageSize ∈ e.blocks

/-! ## the request for the directory -/

/-- The heap is not the matter of the directory. -/
theorem AtCall.withHeap {k : Kernel} (h : AtCall k.vm) : AtCall k.withHeap.vm := by
  obtain ⟨l, hvm⟩ := k.withHeap_same.vm
  rw [hvm]
  exact h.withLog l

theorem Kernel.SameButHeap.inRing {k k' : Kernel} (h : k.SameButHeap k') (ha : k'.InRing a) :
    k.InRing a := by
  have hprocesses := h.processes
  induction ha with
  | current hp =>
      rw [h.currentProcess] at hp ⊢
      exact .current (by rw [← hprocesses]; exact hp)
  | next _ hp hq ih =>
      rw [hprocesses] at hp hq
      exact .next ih hp hq

/-- A full memory ends the call before it has changed anything. -/
theorem undone_of_full {k : Kernel} (h : k.vm.pmm.credit = 0) (code : Nat → BitVec 8) (len : Nat) :
    Undone k (procRunCodeEnd k code len) := by
  have hsame := k.withHeap_same
  obtain ⟨l, hvm⟩ := hsame.vm
  have halloc : k.withHeap.vm.allocDirectory = .error .outOfMemory := by
    have hpage : pmmAllocPage k.vm.pmm = .error .outOfMemory := if_pos (Nat.le_of_eq h)
    rw [hvm, Vm.allocDirectory, hpage]
    rfl
  have hfails : Fails (fun s => s = k.withHeap.vm) (procBuildSpaceSteps code len) k.withHeap.vm :=
    .left ⟨_, (outcome_step _ _).trans halloc, final_step_of_error halloc⟩
  obtain ⟨e, houtcome, hfinal⟩ := hfails
  rw [outcome_procBuildSpaceSteps] at houtcome
  have hend : procRunCodeEnd k code len = k.withHeap := by
    rw [procRunCodeEnd_of_error houtcome, hfinal]
  rw [hend]
  exact
    { ring := fun a => hsame.inRing
      directory := by
        rw [hvm]
        exact ⟨rfl, fun _ _ => rfl⟩
      pmm := by rw [hvm]
      entries := fun virt f fl htrans => .inl (by rwa [hvm] at htrans) }

/-- A directory that is found stays marked. -/
theorem changed_of_found {k : Kernel} (h : AtCall k.vm) (hne : a ≠ 0)
    (halloc : pmmAllocPage k.vm.pmm = .ok (a, p')) (code : Nat → BitVec 8) (len : Nat) :
    (procRunCodeEnd k code len).vm.pmm ≠ k.vm.pmm := by
  obtain ⟨hzero, -⟩ | ⟨b, -, htakes, -⟩ := pmmAllocPage_cases h.sane.max_le halloc
  · exact absurd hzero hne
  obtain ⟨l, hvm⟩ := k.withHeap_same.vm
  have hdirectory : k.withHeap.vm.allocDirectory =
      .ok (a, { k.vm with pmm := p', log := .directory a :: l }) := by
    rw [hvm, Vm.allocDirectory, halloc]
    rfl
  have hmarked : Vm.Marked b { k.vm with pmm := p', log := .directory a :: l } :=
    htakes.isUsed_of_mem h.sane.max_le (Nat.le_refl b) (Nat.lt_succ_self b)
  have hend : (procRunCodeEnd k code len).vm.pmm.isUsed b = true :=
    procRunCodeEnd_marked (final_procBuildSpaceSteps_marked hdirectory hmarked)
  intro heq
  rw [heq, htakes.free b (Nat.le_refl b) (Nat.lt_succ_self b)] at hend
  exact Bool.false_ne_true hend

/-- A directory that is not found is taken to be at 0. -/
theorem changed_of_empty {k : Kernel} (h : AtCall k.vm) (hempty : Empty k.vm.pmm)
    (code : Nat → BitVec 8) (len : Nat) :
    ¬ ((procRunCodeEnd k code len).vm.cr3 = k.vm.cr3 ∧
      ∀ j < pageEntries, (procRunCodeEnd k code len).vm.pde j = k.vm.pde j) := by
  obtain ⟨l, hvm⟩ := k.withHeap_same.vm
  have hempty' : Empty k.withHeap.vm.pmm := by
    rw [hvm]
    exact hempty
  obtain ⟨e, houtcome, hchanged⟩ := fails_of_empty h.withHeap hempty' code len
  rw [outcome_procBuildSpaceSteps] at houtcome
  have hcr3 : k.withHeap.vm.cr3 = k.vm.cr3 := by rw [hvm]
  have hpde (j : Nat) : k.withHeap.vm.pde j = k.vm.pde j := by
    rw [hvm]
    rfl
  rw [hcr3] at hchanged
  simp only [hpde] at hchanged
  rw [procRunCodeEnd_of_error houtcome]
  dsimp only
  exact hchanged

/-- Everything is as before exactly if the memory counted as full. -/
theorem undone_iff_full {k : Kernel} (h : AtCall k.vm) (code : Nat → BitVec 8) (len : Nat) :
    Undone k (procRunCodeEnd k code len) ↔ k.vm.pmm.credit = 0 := by
  refine ⟨fun hundone => ?_, fun hfull => undone_of_full hfull code len⟩
  by_contra hcredit
  have hguard : ¬ u32Sub k.vm.pmm.maxBlocks k.vm.pmm.usedBlocks ≤ 0 := fun hle =>
    hcredit (Nat.le_zero.mp hle)
  obtain ⟨⟨a, p'⟩, halloc⟩ : ∃ r, pmmAllocPage k.vm.pmm = .ok r := by
    rw [pmmAllocPage, if_neg hguard]
    dsimp only
    split
    · exact ⟨_, rfl⟩
    · exact ⟨_, rfl⟩
  by_cases hzero : a = 0
  · subst hzero
    obtain ⟨-, rfl⟩ | ⟨b, hb, htakes, -⟩ := pmmAllocPage_cases h.sane.max_le halloc
    · exact changed_of_empty h halloc code len hundone.directory
    · have hpos := htakes.pos
      unfold pageSize at hb
      omega
  · exact changed_of_found h hzero halloc code len hundone.pmm

/-- **An allocation that fails**: whichever it is, everything is as before exactly if the memory
counted as full when the call started. -/
theorem proc_run_code_undone_iff {k : Kernel} (h : AtCall k.vm) (code : Nat → BitVec 8)
    (len : Nat) : (AllocFails k len → Undone k (procRunCodeEnd k code len)) ↔
      (AllocFails k len → k.vm.pmm.credit = 0) :=
  imp_congr_right fun _ => undone_iff_full h code len

/-! ### a process without a kernel stack -/

theorem Kernel.Ready.atCall {k : Kernel} (h : k.Ready)
    (himage : k.vm.pde kernelPageDirIndex = 0x83) : AtCall k.vm where
  sane := h.sane
  wf := h.wf.untaken
  closed := h.closed
  image := himage

/-- A heap with room for the process structure, and not for its kernel stack. -/
def fullHeapKernel (vm : Vm Pmm) : Kernel :=
  { bootKernel vm 0 with heapPointer := kernelHeapEndVirt - 200 }

/-- The process structure is at the end of the heap. -/
theorem fullHeapKernel_process (vm : Vm Pmm) :
    (kmalloc (fullHeapKernel vm) sizeofProcess).1 = kernelHeapEndVirt - 200 ∧
      (kmalloc (fullHeapKernel vm) sizeofProcess).2.heapPointer = kernelHeapEndVirt - 100 := by
  have hne := kmalloc_ne_zero (fullHeapKernel vm) (by decide : 0 < kernelHeapEndVirt - 200)
    (by decide : u32 (kernelHeapEndVirt - 200 + sizeofProcess) < kernelHeapEndVirt)
  obtain ⟨-, haddr, hnext⟩ := kmalloc_of_ne_zero _ hne
  exact ⟨haddr, hnext⟩

/-- There is no room for the stack. -/
theorem fullHeapKernel_stack (vm : Vm Pmm) :
    (kmalloc (kmalloc (fullHeapKernel vm) sizeofProcess).2 pageSize).1 = 0 := by
  rw [kmalloc, (fullHeapKernel_process vm).2, if_pos (by decide)]

theorem fullHeapKernel_fails (vm : Vm Pmm) : AllocFails (fullHeapKernel vm) 128 :=
  .stack (fullHeapKernel_stack vm)

/-- The memory is not full. -/
theorem fullHeapKernel_boot : ∃ s₀ p', pagingInit bootVm 0x100000 = .ok s₀ ∧ Booted s₀ 0x100000 ∧
    s₀.pmm.Inv ∧ Run Request.Granted s₀.pmm (procRequests s₀ 128) p' ∧ s₀.pmm.credit ≠ 0 := by
  obtain ⟨s₀, p', hinit, hboot, hinv, halloc⟩ := bootKernel_allocs
  obtain ⟨p₁, a, ha, hcall⟩ : ∃ p₁, Request.Granted s₀.pmm .page p₁ := by
    cases halloc.pmm with
    | cons h _ => exact ⟨_, h⟩
  have hcredit := ((pmmAllocPage_grants_iff hinv.toSane ha).mp hcall).1
  exact ⟨s₀, p', hinit, hboot, hinv, halloc.pmm, Nat.ne_of_gt hcredit⟩

theorem proc_run_code_undone_iff_full_heap : ∃ s₀, pagingInit bootVm 0x100000 = .ok s₀ ∧
    AllocFails (fullHeapKernel s₀) 128 ∧
      ¬ Undone (fullHeapKernel s₀) (procRunCodeEnd (fullHeapKernel s₀) (fun _ => 0x90) 128) := by
  obtain ⟨s₀, p', hinit, hboot, -, -, hcredit⟩ := fullHeapKernel_boot
  have hiff := proc_run_code_undone_iff (k := fullHeapKernel s₀) ((hboot.ready 0).atCall hboot.image)
    (fun _ => 0x90) 128
  exact ⟨s₀, hinit, fullHeapKernel_fails s₀, fun hundone =>
    hcredit (hiff.mp (fun _ => hundone) (fullHeapKernel_fails s₀))⟩

/-- `kmalloc` fails for the kernel stack; the call returns all the same, with the process in the
ring, its kernel stack at the end of page 0, and 15 more blocks used. -/
theorem proc_run_code_ignores_failure : ∃ s₀ k' q, pagingInit bootVm 0x100000 = .ok s₀ ∧
    AllocFails (fullHeapKernel s₀) 128 ∧
      procRunCode (fullHeapKernel s₀) (fun _ => 0x90) 128 = .ok k' ∧
      k'.processes (kernelHeapEndVirt - 200) = some q ∧ q.kernelStack = 4095 ∧
      k'.InRing (kernelHeapEndVirt - 200) ∧ ¬ (fullHeapKernel s₀).InRing (kernelHeapEndVirt - 200) ∧
      k'.vm.pmm.usedBlocks = s₀.pmm.usedBlocks + 15 ∧
      ¬ Undone (fullHeapKernel s₀) (procRunCodeEnd (fullHeapKernel s₀) (fun _ => 0x90) 128) := by
  obtain ⟨s₀, p', hinit, hboot, hinv, hgrant, -⟩ := fullHeapKernel_boot
  have hready : (fullHeapKernel s₀).Ready := by
    obtain ⟨hsane, hwf, hclosed, -⟩ := hboot.ready 0
    exact ⟨hsane, hwf, hclosed, fun hne => absurd rfl hne⟩
  have hprocess := (fullHeapKernel_process s₀).1
  obtain ⟨k₁, k', o, l, hrun, hpmm, -, -, hadds, hinsert, hnext⟩ :=
    procRunCode_returns hready (by decide : numCodePages 128 ≤ stackPage) (fun _ => 0x90)
      (by rw [hprocess]; decide) hgrant
  rw [fullHeapKernel_stack, hprocess] at hadds
  rw [hprocess] at hinsert
  -- the process
  obtain ⟨q, hq, hnew⟩ := hadds.new hnext
  have hempty : RingAt (fullHeapKernel s₀) [] := ⟨rfl, trivial, List.nodup_nil, List.not_mem_nil⟩
  have hring := hempty.insert hadds List.not_mem_nil (by decide) hinsert
  obtain ⟨p, -, hcurrent, hp, -⟩ := hring.head
  have hin : k'.InRing (kernelHeapEndVirt - 200) := by
    rw [← hcurrent] at hp ⊢
    exact .current hp
  have hnot : ¬ (fullHeapKernel s₀).InRing (kernelHeapEndVirt - 200) := by
    rw [hempty.inRing_iff rfl]
    exact List.not_mem_nil
  refine ⟨s₀, k', q, hinit, fullHeapKernel_fails s₀, hrun, hq, congrArg Process.kernelStack hnew, hin,
    hnot, ?_, fun hundone => ?_⟩
  · have hsize := procRequests_size s₀ (by decide : numCodePages 128 ≤ stackPage)
    rw [if_neg (by rw [hboot.window]; exact Bool.false_ne_true)] at hsize
    have hblocks := nops_blocks
    rw [hpmm, (granted_used hgrant hinv).2, hsize]
    omega
  · rw [procRunCodeEnd_of_ok hrun] at hundone
    exact hnot (hundone.ring _ hin)

end NimbleOS
