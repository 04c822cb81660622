import NimbleOS.Lib.Halting
import NimbleOS.Proc.Logged

/-!
# NimbleOS.Proc.Steps

`proc_run_code` with the state that it leaves where it halts.  `procRunCodeSteps` has the
statements of `procRunCode`, in the same order; of the statement that halts, the effects are
left out.  No statement gives a block back (`keeps_used`).
-/

namespace NimbleOS

open Pmm Halting

/-! ## the statements -/

/-! The functions of `proc_run_code`, one statement after the other; a loop counts as one. -/

def procCloneDirectorySteps (pdPhys : Nat) : Halting (Vm Pmm) Halt Unit := do
  run fun s => pagingMapPage s kernelHeapEndVirt pdPhys pageRw
  run fun s => memcpy s kernelHeapEndVirt 0xFFFFF000 pageSize
  run fun s => s.storeWord (kernelHeapEndVirt + 4 * 1023) (pdPhys ||| pagePresent ||| pageRw)
  run fun s => procClearSlots s kernelPageDirIndex
  run fun s => pagingUnmapPage s kernelHeapEndVirt

def procLoadCodeSteps (code : Nat → BitVec 8) (len num : Nat) : Halting (Vm Pmm) Halt Unit := do
  let codePhys ← .step fun s => .ok (s.allocPages num)
  run fun s => pagingMapPages s 0 codePhys num (pageUser ||| pageRw)
  run fun s => storeBytes s 0 code len
  run fun s => procProtectCode s num

def procMapStackSteps (num : Nat) : Halting (Vm Pmm) Halt Unit := do
  let stackPhys ← .step fun s => .ok (s.allocPages num)
  run fun s => pagingMapPages s (u32Sub kernelBaseVirt (pageSize * num)) stackPhys num
    (pageUser ||| pageRw)

def procBuildSpaceSteps (code : Nat → BitVec 8) (len : Nat) : Halting (Vm Pmm) Halt Nat := do
  let pdPhys ← .step Vm.allocDirectory
  procCloneDirectorySteps pdPhys
  let previousPd ← .step procCurrentDirectory
  run fun s => pagingSwitchDirectory s pdPhys
  procLoadCodeSteps code len (len / pageSize + 1)
  procMapStackSteps procKernelStackPages
  run fun s => pagingSwitchDirectory s previousPd
  return pdPhys

/-- From the process structure on. -/
def procAddSteps (len process stack pdPhys : Nat) : Halting Kernel Halt Unit := do
  run fun k => ({ k with nextPid := u32 (k.nextPid + 1) } : Kernel).storeProcess process
    { next := 0
      pid := k.nextPid
      stackLen := procKernelStackPages
      codeLen := len / pageSize + 1
      directory := pdPhys
      kernelStack := u32 (stack + pageSize - 1)
      registers := procInitialRegisters }
  run fun k => procInsert k process

def procRunCodeSteps (code : Nat → BitVec 8) (len : Nat) : Halting Kernel Halt Unit := do
  let process ← .step fun k => .ok (kmalloc k sizeofProcess)
  let stack ← .step fun k => .ok (kmalloc k pageSize)
  let pdPhys ← zoom Kernel.vm (fun k vm => { k with vm := vm }) (procBuildSpaceSteps code len)
  procAddSteps len process stack pdPhys

/-! ### their results -/

theorem computes_procCloneDirectory (pdPhys : Nat) :
    Computes (procCloneDirectorySteps pdPhys) (procCloneDirectory · pdPhys) :=
  .bind (.run _) (.bind (.run _) (.bind (.run _) (.bind (.run _) (.run _))))

theorem computes_procLoadCode (code : Nat → BitVec 8) (len num : Nat) :
    Computes (procLoadCodeSteps code len num) (procLoadCode · code len num) := by
  intro s
  unfold procLoadCodeSteps procLoadCode
  rw [outcome_bind, outcome_step]
  beta_reduce
  generalize s.allocPages num = r
  obtain ⟨codePhys, s₁⟩ := r
  exact (Computes.run _).bind ((Computes.run _).bind (.run _)) s₁

theorem computes_procMapStack (num : Nat) :
    Computes (procMapStackSteps num) (procMapStack · num) := by
  intro s
  unfold procMapStackSteps procMapStack
  rw [outcome_bind, outcome_step]
  beta_reduce
  generalize s.allocPages num = r
  obtain ⟨stackPhys, s₁⟩ := r
  exact Computes.run _ s₁

theorem outcome_procBuildSpaceSteps (s : Vm Pmm) (code : Nat → BitVec 8) (len : Nat) :
    (procBuildSpaceSteps code len).outcome s = procBuildSpace s code len := by
  unfold procBuildSpaceSteps procBuildSpace
  rw [outcome_bind, outcome_step]
  refine bind_congr fun (pdPhys, s₁) => ?_
  refine ((computes_procCloneDirectory pdPhys).outcome_bind _ s₁).trans (bind_congr fun s₂ => ?_)
  refine (outcome_bind _ _ s₂).trans ?_
  rw [outcome_step]
  refine bind_congr fun (previousPd, s₃) => ?_
  refine ((Computes.run _).outcome_bind _ s₃).trans (bind_congr fun s₄ => ?_)
  refine ((computes_procLoadCode _ _ _).outcome_bind _ s₄).trans (bind_congr fun s₅ => ?_)
  refine ((computes_procMapStack _).outcome_bind _ s₅).trans (bind_congr fun s₆ => ?_)
  exact (Computes.run _).outcome_bind _ s₆

/-- **The same function**: where the statements end, `proc_run_code` returns. -/
theorem computes_procRunCode (code : Nat → BitVec 8) (len : Nat) :
    Computes (procRunCodeSteps code len) (procRunCode · code len) := by
  intro k
  rcases hprocess : kmalloc k sizeofProcess with ⟨process, k₁⟩
  rcases hstack : kmalloc k₁ pageSize with ⟨stack, k₂⟩
  have hfirst : (step fun k => .ok (kmalloc k sizeofProcess) : Halting Kernel Halt Nat).outcome k =
      .ok (process, k₁) := by rw [outcome_step, hprocess]
  have hsecond : (step fun k => .ok (kmalloc k pageSize) : Halting Kernel Halt Nat).outcome k₁ =
      .ok (stack, k₂) := by rw [outcome_step, hstack]
  unfold procRunCodeSteps procRunCode
  rw [outcome_bind_of_ok _ hfirst, outcome_bind_of_ok _ hsecond, outcome_bind, outcome_zoom,
    outcome_procBuildSpaceSteps]
  beta_reduce
  rw [hprocess]
  dsimp only
  rw [hstack]
  dsimp only
  rw [bind_assoc, bind_assoc]
  exact bind_congr fun (pdPhys, s) => (Computes.run _).bind (.run _) _

/-! ## marked blocks -/

theorem isUsed_pmmAllocPage (hb : p.isUsed b = true) (h : pmmAllocPage p = .ok (a, p')) :
    p'.isUsed b = true := by
  unfold pmmAllocPage at h
  split at h
  · contradiction
  · dsimp only at h
    split at h
    · cases h
      exact hb
    · cases h
      rw [isUsed_mmapSet, hb, Bool.or_true]

theorem isUsed_mmapSetBlocks_of_isUsed (hb : p.isUsed b = true) (first num : Nat) :
    (mmapSetBlocks p first num).isUsed b = true := by
  induction num with
  | zero => exact hb
  | succ num ih => rw [mmapSetBlocks_succ, isUsed_mmapSet, ih, Bool.or_true]

theorem isUsed_pmmAllocPages (hb : p.isUsed b = true) (num : Nat) :
    (pmmAllocPages p num).2.isUsed b = true := by
  unfold pmmAllocPages
  split
  · exact hb
  · dsimp only
    split
    · exact hb
    · exact isUsed_mmapSetBlocks_of_isUsed hb _ _

/-- Block `b` is marked used. -/
def Vm.Marked (b : Nat) (s : Vm Pmm) : Prop := s.pmm.isUsed b = true

theorem Vm.SameButMem.marked {s s' : Vm Pmm} (h : s.SameButMem s') (hb : s.Marked b) :
    s'.Marked b := by
  unfold Vm.Marked
  rw [h.pmm]
  exact hb

theorem pagingMapPage_marked {s s' : Vm Pmm} (hb : s.Marked b)
    (h : pagingMapPage s virt phys flags = .ok s') : s'.Marked b := by
  obtain ⟨⟨page, s₁⟩, hget, h⟩ := bind_eq_ok.mp h
  obtain ⟨pte, -, h⟩ := bind_eq_ok.mp h
  have hmarked : s₁.Marked b := by
    rcases pagingGetPage_log hget with rfl | hcreate
    · exact hb
    · obtain ⟨a, halloc, -, -⟩ := pagingCreateTable_log hcreate
      exact isUsed_pmmAllocPage hb halloc
  split at h
  · contradiction
  · exact (Vm.storeWord_same h).marked hmarked

theorem pagingMapPages_marked {s s' : Vm Pmm} (hb : s.Marked b)
    (h : pagingMapPages s virt phys num flags = .ok s') : s'.Marked b := by
  induction num generalizing s virt phys with
  | zero =>
      cases h
      exact hb
  | succ num ih =>
      obtain ⟨s₁, hmap, h⟩ := bind_eq_ok.mp h
      exact ih (pagingMapPage_marked hb hmap) h

theorem keeps_used_run {f : Vm Pmm → Except Halt (Vm Pmm)}
    (h : ∀ {s s'}, f s = .ok s' → s.SameButMem s') (b : Nat) : Keeps (Vm.Marked b) (run f) :=
  .run fun _ _ hb hf => (h hf).marked hb

theorem keeps_used_allocPages (b num : Nat) : Keeps (Vm.Marked b)
    (step fun s => .ok (s.allocPages num) : Halting (Vm Pmm) Halt Nat) :=
  .step fun s a t hb hf => by
    have hpair : s.allocPages num = (a, t) := Except.ok.inj hf
    obtain ⟨⟨c, p⟩, hcall⟩ : ∃ r, pmmAllocPages s.pmm num = r := ⟨_, rfl⟩
    have hused := isUsed_pmmAllocPages hb num
    rw [hcall] at hused
    rw [s.allocPages_of_answer hcall] at hpair
    obtain ⟨-, rfl⟩ := Prod.mk.inj hpair
    exact hused

theorem keeps_used_procCloneDirectory (b pdPhys : Nat) :
    Keeps (Vm.Marked b) (procCloneDirectorySteps pdPhys) :=
  .bind (.run fun _ _ => pagingMapPage_marked) fun _ =>
    .bind (keeps_used_run memcpy_same b) fun _ =>
      .bind (keeps_used_run Vm.storeWord_same b) fun _ =>
        .bind (keeps_used_run procClearSlots_same b) fun _ => keeps_used_run procUnmapWindow_same b

theorem keeps_used_procLoadCode (b : Nat) (code : Nat → BitVec 8) (len num : Nat) :
    Keeps (Vm.Marked b) (procLoadCodeSteps code len num) :=
  .bind (keeps_used_allocPages b num) fun _ =>
    .bind (.run fun _ _ => pagingMapPages_marked) fun _ =>
      .bind (keeps_used_run storeBytes_same b) fun _ => keeps_used_run procProtectCode_same b

theorem keeps_used_procMapStack (b num : Nat) : Keeps (Vm.Marked b) (procMapStackSteps num) :=
  .bind (keeps_used_allocPages b num) fun _ => .run fun _ _ => pagingMapPages_marked

theorem keeps_used_switch (b dir : Nat) :
    Keeps (Vm.Marked b) (run fun s => pagingSwitchDirectory s dir) :=
  .run fun _ _ hb h => by
    obtain ⟨-, rfl⟩ := pagingSwitchDirectory_eq_ok.mp h
    exact hb

theorem keeps_used_procAdd (b len process stack pdPhys : Nat) :
    Keeps (fun k : Kernel => k.vm.Marked b) (procAddSteps len process stack pdPhys) :=
  .bind (.run fun _ _ hb h => (Kernel.storeProcess_same h).marked hb) fun _ =>
    .run fun _ _ hb h => (procInsert_sameButMem h).marked hb

/-! ## the end of a call -/

/-- The state that a call leaves, whether it returns or halts. -/
def procRunCodeEnd (k : Kernel) (code : Nat → BitVec 8) (len : Nat) : Kernel :=
  (procRunCodeSteps code len).final k

theorem procRunCodeEnd_of_ok {k k' : Kernel} (h : procRunCode k code len = .ok k') :
    procRunCodeEnd k code len = k' := (computes_procRunCode code len).final_of_ok h

/-- After the two calls of `kmalloc`. -/
def Kernel.withHeap (k : Kernel) : Kernel := (kmalloc (kmalloc k sizeofProcess).2 pageSize).2

theorem Kernel.withHeap_same (k : Kernel) : k.SameButHeap k.withHeap :=
  (kmalloc_same k sizeofProcess).trans (kmalloc_same _ pageSize)

/-- After them comes the address space. -/
theorem procRunCodeEnd_eq (k : Kernel) (code : Nat → BitVec 8) (len : Nat) :
    procRunCodeEnd k code len = (zoom Kernel.vm (fun k vm => { k with vm := vm })
      (procBuildSpaceSteps code len) >>= procAddSteps len (kmalloc k sizeofProcess).1
        (kmalloc (kmalloc k sizeofProcess).2 pageSize).1).final k.withHeap := by
  have hkmalloc (k : Kernel) (size : Nat) :
      (step fun k => .ok (kmalloc k size) : Halting Kernel Halt Nat).outcome k =
        .ok ((kmalloc k size).1, (kmalloc k size).2) := outcome_step _ k
  rw [procRunCodeEnd, procRunCodeSteps, final_bind_of_ok _ (hkmalloc k sizeofProcess),
    final_bind_of_ok _ (hkmalloc _ pageSize), Kernel.withHeap]

/-- A call that halts over its address space leaves what this has left. -/
theorem procRunCodeEnd_of_error {k : Kernel}
    (h : procBuildSpace k.withHeap.vm code len = .error e) : procRunCodeEnd k code len =
      { k.withHeap with vm := (procBuildSpaceSteps code len).final k.withHeap.vm } := by
  rw [procRunCodeEnd_eq, final_bind_of_error _ (e := e), final_zoom]
  rw [outcome_zoom, outcome_procBuildSpaceSteps, h]
  rfl

/-- A block that is marked with the address space stays so. -/
theorem procRunCodeEnd_marked {k : Kernel}
    (h : ((procBuildSpaceSteps code len).final k.withHeap.vm).Marked b) :
    (procRunCodeEnd k code len).vm.Marked b := by
  rw [procRunCodeEnd_eq]
  refine final_bind (Q := fun k : Kernel => k.vm.Marked b) _ ?_ fun pd k' _ hb => ?_
  · rw [final_zoom]
    dsimp only
    exact h
  · exact keeps_used_procAdd b len _ _ pd k' hb

/-- The address space from the directory on. -/
theorem final_procBuildSpaceSteps_marked {s s₁ : Vm Pmm} (halloc : s.allocDirectory = .ok (pd, s₁))
    (hb : s₁.Marked b) : ((procBuildSpaceSteps code len).final s).Marked b := by
  have hfirst : (step Vm.allocDirectory : Halting (Vm Pmm) Halt Nat).outcome s = .ok (pd, s₁) := by
    rw [outcome_step, halloc]
  rw [procBuildSpaceSteps, final_bind_of_ok _ hfirst]
  refine Keeps.bind (keeps_used_procCloneDirectory b pd) (fun _ => ?_) s₁ hb
  refine .bind (.step fun _ _ _ hs h => ?_) fun previousPd => ?_
  · rwa [procCurrentDirectory_same h]
  · exact .bind (keeps_used_switch b pd) fun _ => .bind (keeps_used_procLoadCode b code len _)
      fun _ => .bind (keeps_used_procMapStack b _) fun _ => .bind (keeps_used_switch b previousPd)
        fun _ => .pure pd

end NimbleOS
