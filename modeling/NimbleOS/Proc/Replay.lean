import NimbleOS.Lib.Replay
import NimbleOS.Boot
import NimbleOS.Proc.Private
import NimbleOS.Proc.Startup

/-!
# NimbleOS.Proc.Replay

The kernel and the answers of its physical memory manager.  Paging and `proc_run_code`
look at the manager through the calls that allocate, and nothing else of the kernel looks
at it at all: with any manager that gives the same answers, every call does the same
(`kernel_replays`).
-/

namespace NimbleOS

instance : Asks (Vm Pmm) Pmm Alloc where
  env := Vm.pmm
  log := Vm.log
  within s q := { s with pmm := q }

instance : Asks Kernel Pmm Alloc where
  env k := k.vm.pmm
  log k := k.vm.log
  within := Kernel.withPmm

/-! ## memory -/

theorem storeWord_replays (virt v : Nat) :
    Replays PmmDraw fun s : Vm Pmm => s.storeWord virt v :=
  fun s s' h => by
    obtain ⟨a, ha, h⟩ := bind_eq_ok.mp h
    cases h
    exact .of_quiet rfl rfl fun q => bind_eq_ok.mpr ⟨a, ha, rfl⟩

theorem storeByte_replays (virt : Nat) (v : BitVec 8) :
    Replays PmmDraw fun s : Vm Pmm => s.storeByte virt v :=
  fun s s' h => by
    obtain ⟨a, ha, h⟩ := bind_eq_ok.mp h
    cases h
    exact .of_quiet rfl rfl fun q => bind_eq_ok.mpr ⟨a, ha, rfl⟩

theorem loadWord_replays {f : Nat → Vm Pmm → Except Halt τ} [Asks τ Pmm Alloc] (virt : Nat)
    (hf : ∀ w, Replays PmmDraw (f w)) :
    Replays PmmDraw fun s : Vm Pmm => s.loadWord virt >>= fun w => f w s :=
  .reads (fun _ _ => rfl) hf

theorem storeBytes_replays (dst : Nat) (src : Nat → BitVec 8) (n : Nat) :
    Replays PmmDraw fun s : Vm Pmm => storeBytes s dst src n := by
  induction n with
  | zero => exact .pure
  | succ n ih => exact ih.bind (storeByte_replays _ _)

theorem memcpy_replays (dst src n : Nat) :
    Replays PmmDraw fun s : Vm Pmm => memcpy s dst src n := by
  induction n with
  | zero => exact .pure
  | succ n ih => exact ih.bind (.reads (fun _ _ => rfl) fun v => storeByte_replays _ v)

/-! ## the paging calls -/

theorem allocTable_replays (d : Nat) : Replays PmmDraw fun s : Vm Pmm => s.allocTable d :=
  fun s s' h => by
    obtain ⟨⟨a, p⟩, hcall, h⟩ := bind_eq_ok.mp h
    cases h
    exact .of_ask (a := Alloc.table d a) rfl hcall fun q q' hq => bind_eq_ok.mpr ⟨(a, q'), hq, rfl⟩

theorem pagingCreateTable_replays (d flags : Nat) :
    Replays PmmDraw fun s : Vm Pmm => pagingCreateTable s d flags :=
  (allocTable_replays d).bind
    (.pair fun _ => (storeWord_replays _ _).bind (storeBytes_replays _ _ _))

theorem pagingGetPage_replays (virt : Nat) (create : Bool) (flags : Nat) :
    Replays PmmDraw fun s : Vm Pmm => pagingGetPage s virt create flags := by
  by_cases halign : virt % pageSize ≠ 0
  · simp only [pagingGetPage, if_pos halign]
    exact .error _
  · simp only [pagingGetPage, if_neg halign]
    refine loadWord_replays _ fun pde => ?_
    have hlast : Replays PmmDraw fun s : Vm Pmm => (do
        let pde ← s.loadWord (dirEntry (dirIndex virt))
        return (if isPresent pde then some (tableEntry (dirIndex virt) (tableIndex virt)) else none, s) :
        Except Halt (Option Nat × Vm Pmm)) :=
      loadWord_replays _ fun pde => .of_map (fun _ => rfl) (fun _ => rfl) fun _ _ => rfl
    split
    · exact (pagingCreateTable_replays _ _).bind hlast
    · exact hlast

theorem pagingMapPage_replays (virt phys flags : Nat) :
    Replays PmmDraw fun s : Vm Pmm => pagingMapPage s virt phys flags := by
  refine (pagingGetPage_replays virt true flags).bind (.pair fun page => ?_)
  refine loadWord_replays _ fun pte => ?_
  split
  · exact .error _
  · exact storeWord_replays _ _

theorem pagingMapPages_replays (virt phys num flags : Nat) :
    Replays PmmDraw fun s : Vm Pmm => pagingMapPages s virt phys num flags := by
  induction num generalizing virt phys with
  | zero => exact .pure
  | succ num ih => exact (pagingMapPage_replays virt phys flags).bind (ih _ _)

theorem pagingUnmapPage_replays (virt : Nat) :
    Replays PmmDraw fun s : Vm Pmm => pagingUnmapPage s virt := by
  refine (pagingGetPage_replays virt false 0).bind (.pair fun page => ?_)
  cases page with
  | none => exact .pure
  | some page => exact loadWord_replays _ fun pte => storeWord_replays _ _

theorem pagingSwitchDirectory_replays (dir : Nat) :
    Replays PmmDraw fun s : Vm Pmm => pagingSwitchDirectory s dir :=
  fun s s' h => by
    obtain ⟨hkeeps, rfl⟩ := pagingSwitchDirectory_eq_ok.mp h
    exact .of_quiet rfl rfl fun q => pagingSwitchDirectory_eq_ok.mpr ⟨hkeeps.congr rfl rfl, rfl⟩

theorem allocPages_replays {x : Vm Pmm → Except Halt τ} {f : Nat → Vm Pmm → Except Halt τ}
    [Asks τ Pmm Alloc] (hf : ∀ a, Replays PmmDraw (f a))
    (hx : ∀ s a t, s.allocPages num = (a, t) → x s = f a t) : Replays PmmDraw x := by
  intro s s' h
  obtain ⟨⟨a, p⟩, hanswer⟩ : ∃ r, pmmAllocPages s.pmm num = r := ⟨_, rfl⟩
  rw [hx s a _ (s.allocPages_of_answer hanswer)] at h
  have hask : SameAnswers PmmDraw s { s with pmm := p, log := .pages num a :: s.log } fun t t' =>
      t.allocPages num = (a, t') :=
    .of_ask (a := Alloc.pages num a) rfl hanswer fun q q' hq =>
      ({ s with pmm := q } : Vm Pmm).allocPages_of_answer hq
  exact hask.trans (hf a _ s' h) fun t t' t'' ht ht' => (hx t a t' ht).trans ht'

theorem pagingInit_replays (dir : Nat) :
    Replays PmmDraw fun s : Vm Pmm => pagingInit s dir := by
  have hslots : Replays PmmDraw fun s : Vm Pmm => (.ok (bootSlots s dir) : Except Halt (Vm Pmm)) :=
    .of_map (fun _ => rfl) (fun _ => rfl) fun _ _ => rfl
  have hlow : Replays PmmDraw fun s : Vm Pmm => pagingMapPages (bootSlots s dir) 0 0 256 pageRw :=
    hslots.after (pagingMapPages_replays 0 0 256 pageRw) fun _ => rfl
  unfold pagingInit
  refine hlow.bind ?_
  exact allocPages_replays (f := fun heapPhys s => pagingMapPages s kernelHeapBaseVirt heapPhys
      heapPages pageRw >>= fun s => pagingMapPage s kernelVgaBaseVirt vgaMemory pageRw)
    (fun _ => (pagingMapPages_replays _ _ _ _).bind (pagingMapPage_replays _ _ _))
    fun s a t h => by rw [h]

/-! ## proc_run_code -/

theorem procClearSlots_replays (n : Nat) : Replays PmmDraw fun s => procClearSlots s n := by
  induction n with
  | zero => exact .pure
  | succ n ih => exact ih.bind (storeWord_replays _ _)

theorem procCloneDirectory_replays (pd : Nat) :
    Replays PmmDraw fun s => procCloneDirectory s pd :=
  (pagingMapPage_replays _ _ _).bind ((memcpy_replays _ _ _).bind ((storeWord_replays _ _).bind
    ((procClearSlots_replays _).bind (pagingUnmapPage_replays _))))

theorem procCurrentDirectory_replays : Replays PmmDraw procCurrentDirectory :=
  (pagingGetPage_replays _ _ _).bind
    (.pair fun _ => loadWord_replays _ fun _ =>
      .of_map (fun _ => rfl) (fun _ => rfl) fun _ _ => rfl)

theorem procProtectCode_replays (n : Nat) : Replays PmmDraw fun s => procProtectCode s n := by
  induction n with
  | zero => exact .pure
  | succ n ih =>
      exact ih.bind ((pagingGetPage_replays _ _ _).bind
        (.pair fun _ => loadWord_replays _ fun _ => storeWord_replays _ _))

theorem procLoadCode_replays (code : Nat → BitVec 8) (len num : Nat) :
    Replays PmmDraw fun s => procLoadCode s code len num :=
  allocPages_replays (f := fun codePhys s =>
      pagingMapPages s 0 codePhys num (pageUser ||| pageRw) >>= fun s =>
        storeBytes s 0 code len >>= fun s => procProtectCode s num)
    (fun _ => (pagingMapPages_replays _ _ _ _).bind
      ((storeBytes_replays _ _ _).bind (procProtectCode_replays _)))
    fun s a t h => by rw [procLoadCode, h]

theorem procMapStack_replays (num : Nat) : Replays PmmDraw fun s => procMapStack s num :=
  allocPages_replays (f := fun stackPhys s => pagingMapPages s
      (u32Sub kernelBaseVirt (pageSize * num)) stackPhys num (pageUser ||| pageRw))
    (fun _ => pagingMapPages_replays _ _ _ _) fun s a t h => by rw [procMapStack, h]

theorem allocDirectory_replays : Replays PmmDraw Vm.allocDirectory :=
  fun s s' h => by
    obtain ⟨⟨a, p⟩, hcall, h⟩ := bind_eq_ok.mp h
    cases h
    exact .of_ask (a := Alloc.directory a) rfl hcall fun q q' hq =>
      bind_eq_ok.mpr ⟨(a, q'), hq, rfl⟩

/-- The rest of `procBuildSpace`, when the directory is copied. -/
theorem populate_replays (code : Nat → BitVec 8) (len pd previous : Nat) :
    Replays PmmDraw fun s : Vm Pmm => (do
      let s ← pagingSwitchDirectory s pd
      let s ← procLoadCode s code len (len / pageSize + 1)
      let s ← procMapStack s procKernelStackPages
      let s ← pagingSwitchDirectory s previous
      return (pd, s) : Except Halt (Nat × Vm Pmm)) := by
  have hend : Replays PmmDraw fun s : Vm Pmm => (.ok (pd, s) : Except Halt (Nat × Vm Pmm)) :=
    .of_map (fun _ => rfl) (fun _ => rfl) fun _ _ => rfl
  exact (pagingSwitchDirectory_replays pd).bind
    ((procLoadCode_replays _ _ _).bind ((procMapStack_replays _).bind
      ((pagingSwitchDirectory_replays previous).bind hend)))

theorem procBuildSpace_replays (code : Nat → BitVec 8) (len : Nat) :
    Replays PmmDraw fun s => procBuildSpace s code len :=
  allocDirectory_replays.bind (.pair fun pd => (procCloneDirectory_replays pd).bind
    (procCurrentDirectory_replays.bind (.pair fun previous =>
      populate_replays code len pd previous)))

theorem kmalloc_withPmm (k : Kernel) (q : Pmm) (size : Nat) :
    kmalloc (k.withPmm q) size = ((kmalloc k size).1, (kmalloc k size).2.withPmm q) := by
  unfold kmalloc Kernel.withPmm
  dsimp only
  split <;> rfl

theorem kmalloc_replays {k k₁ : Kernel} (h : kmalloc k size = (a, k₁)) :
    SameAnswers PmmDraw k k₁ fun t t' => kmalloc t size = (a, t') := by
  have hlog := kmalloc_log k size
  obtain ⟨l, hvm⟩ := (kmalloc_same k size).vm
  rw [h] at hlog hvm
  have hpmm : k₁.vm.pmm = k.vm.pmm := by rw [hvm]
  refine .of_ask (a := Alloc.heap size a) hlog hpmm fun q q' hq => ?_
  obtain rfl : q' = q := hq
  exact (kmalloc_withPmm k q' size).trans (by rw [h]; rfl)

theorem procInsert_withPmm (k : Kernel) (q : Pmm) (hprocess : process ≠ 0) :
    procInsert (k.withPmm q) process = (procInsert k process).map (·.withPmm q) := by
  unfold procInsert
  by_cases hnone : k.currentProcess ≠ 0
  · rw [if_pos hnone, if_pos (show (k.withPmm q).currentProcess ≠ 0 from hnone)]
    cases hp : k.processes k.currentProcess with
    | none =>
        rw [show (k.withPmm q).processes (k.withPmm q).currentProcess = none from hp]
        rfl
    | some current =>
        rw [show (k.withPmm q).processes (k.withPmm q).currentProcess = some current from hp]
        dsimp only
        split
        · rw [Kernel.storeNext_of_ne _ hprocess, Kernel.storeNext_of_ne _ hprocess]
          rfl
        · rfl
  · rw [if_neg hnone, if_neg (show ¬ (k.withPmm q).currentProcess ≠ 0 from hnone),
      Kernel.storeNext_of_ne _ hprocess, Kernel.storeNext_of_ne _ hprocess]
    rfl

theorem procInsert_replays {k k' : Kernel} (hprocess : process ≠ 0)
    (h : procInsert k process = .ok k') :
    SameAnswers PmmDraw k k' fun t t' => procInsert t process = .ok t' := by
  have hvm := (procInsert_same hprocess h).vm
  have hpmm : k'.vm.pmm = k.vm.pmm := by rw [hvm]
  have hlog : k'.vm.log = k.vm.log := by rw [hvm]
  exact .of_quiet hlog hpmm fun q => (procInsert_withPmm k q hprocess).trans (by rw [h]; rfl)

theorem procRunCode_replays {k k' : Kernel} (hne : (kmalloc k sizeofProcess).1 ≠ 0)
    (h : procRunCode k code len = .ok k') :
    SameAnswers PmmDraw k k' fun t t' =>
      (kmalloc t sizeofProcess).1 ≠ 0 ∧ procRunCode t code len = .ok t' := by
  obtain ⟨⟨process, k₁⟩, h₁⟩ : ∃ r, kmalloc k sizeofProcess = r := ⟨_, rfl⟩
  obtain ⟨⟨stack, k₂⟩, h₂⟩ : ∃ r, kmalloc k₁ pageSize = r := ⟨_, rfl⟩
  rw [procRunCode, h₁] at h
  dsimp only at h
  rw [h₂] at h
  obtain ⟨⟨pd, vm⟩, hbuild, h⟩ := bind_eq_ok.mp h
  rw [h₁] at hne
  dsimp only at h hne
  rw [Kernel.storeProcess_of_ne _ hne] at h
  obtain ⟨new, hlog, hown, hagain⟩ := procBuildSpace_replays code len k₂.vm (pd, vm) hbuild
  have hnew : SameAnswers PmmDraw k₂ (k₂.withNew len process stack pd vm) fun t t' => ∃ vm,
      procBuildSpace t.vm code len = .ok (pd, vm) ∧ t' = t.withNew len process stack pd vm :=
    ⟨new, hlog, hown, fun q q' hq => ⟨_, hagain q q' hq, rfl⟩⟩
  have hinsert : SameAnswers PmmDraw (k₂.withNew len process stack pd vm) k' fun t t' =>
      procInsert t process = .ok t' := procInsert_replays hne h
  have hadded : SameAnswers PmmDraw k₂ k' fun t t' => ∃ vm,
      procBuildSpace t.vm code len = .ok (pd, vm) ∧
        procInsert (t.withNew len process stack pd vm) process = .ok t' := by
    refine hnew.trans hinsert ?_
    rintro t _ t' ⟨vm, hbuild, rfl⟩ hinsert
    exact ⟨vm, hbuild, hinsert⟩
  have hrest : SameAnswers PmmDraw k₁ k' fun t t' => ∃ t₂ vm,
      kmalloc t pageSize = (stack, t₂) ∧ procBuildSpace t₂.vm code len = .ok (pd, vm) ∧
        procInsert (t₂.withNew len process stack pd vm) process = .ok t' := by
    refine (kmalloc_replays h₂).trans hadded ?_
    rintro t t₂ t' hstack ⟨vm, hbuild, hinsert⟩
    exact ⟨t₂, vm, hstack, hbuild, hinsert⟩
  refine (kmalloc_replays h₁).trans hrest ?_
  rintro t t₁ t' hprocess ⟨t₂, vm, hstack, hbuild, hinsert⟩
  exact ⟨by rw [hprocess]; exact hne, (procRunCode_of_built hprocess hstack hbuild hne).trans hinsert⟩

/-! ## the scheduler -/

theorem procSaveRegisters_withPmm (k : Kernel) (q : Pmm) (regs : Option Registers) :
    procSaveRegisters (k.withPmm q) regs = (procSaveRegisters k regs).map (·.withPmm q) := by
  cases regs with
  | none => rfl
  | some r =>
      unfold procSaveRegisters
      cases hp : k.processes k.currentProcess with
      | none =>
          rw [show (k.withPmm q).processes (k.withPmm q).currentProcess = none from hp]
          rfl
      | some p =>
          rw [show (k.withPmm q).processes (k.withPmm q).currentProcess = some p from hp]
          rfl

theorem procSwitchProcess_withPmm {k k' : Kernel} (h : procSwitchProcess k regs = .ok (k', iret))
    (q : Pmm) : procSwitchProcess (k.withPmm q) regs = .ok (k'.withPmm q, iret) := by
  obtain ⟨k₁, old, p, hsave, hold, hp, hkeeps, rfl, rfl⟩ := procSwitchProcess_of_ok h
  have hsave' : procSaveRegisters (k.withPmm q) regs = .ok (k₁.withPmm q) :=
    (procSaveRegisters_withPmm k q regs).trans (by rw [hsave]; rfl)
  exact procSwitchProcess_eq hsave' hold hp (hkeeps.congr rfl rfl)

theorem procTimerCallback_withPmm {k k' : Kernel} (h : procTimerCallback k regs = .ok (k', r))
    (q : Pmm) : procTimerCallback (k.withPmm q) regs = .ok (k'.withPmm q, r) := by
  rw [procTimerCallback] at h ⊢
  by_cases hzero : k.currentProcess = 0
  · rw [if_pos hzero] at h
    obtain ⟨rfl, rfl⟩ := Prod.mk.inj (Except.ok.inj h)
    exact if_pos hzero
  rw [if_neg hzero] at h
  rw [if_neg (show ¬ (k.withPmm q).currentProcess = 0 from hzero)]
  cases hp : k.processes k.currentProcess with
  | none =>
      rw [hp] at h
      cases h
  | some p =>
      rw [hp] at h
      rw [show (k.withPmm q).processes (k.withPmm q).currentProcess = some p from hp]
      dsimp only at h ⊢
      change (if p.next = k.currentProcess then _ else if p.next ≠ 0 then _ else _) = _
      split at h
      · next hself =>
        rw [if_pos hself]
        obtain ⟨rfl, rfl⟩ := Prod.mk.inj (Except.ok.inj h)
        rfl
      · next hself =>
        rw [if_neg hself]
        split at h
        · next hnext =>
          obtain ⟨⟨k₁, iret⟩, hrun, h⟩ := bind_eq_ok.mp h
          obtain ⟨rfl, rfl⟩ := Prod.mk.inj (Except.ok.inj h)
          rw [if_pos hnext, procSwitchProcess_withPmm hrun q]
          rfl
        · next hnext =>
          obtain ⟨rfl, rfl⟩ := Prod.mk.inj (Except.ok.inj h)
          rw [if_neg hnext]

/-- **Step lemma**: but for an exit, a call depends on the manager through its answers alone. -/
theorem schedStep_replays {k k' : Kernel} (h : SchedStep k e k') (hexit : e.isExit = false) :
    SameAnswers PmmDraw k k' fun t t' => SchedStep t e t' := by
  obtain ⟨r, h⟩ := h
  cases h with
  | create hne hrun =>
      exact (procRunCode_replays hne hrun).mono fun t t' ht => ⟨none, .create ht.1 ht.2⟩
  | switch hrun =>
      exact .of_quiet (procSwitchProcess_sameSpaces hrun).log (procSwitchProcess_pmm hrun)
        fun q => ⟨_, .switch (procSwitchProcess_withPmm hrun q)⟩
  | tick hrun =>
      have hagain := procTimerCallback_withPmm hrun
      rcases procTimerCallback_of_ok hrun with ⟨-, rfl, -⟩ | ⟨iret, -, -, hswitch⟩
      · exact .of_quiet rfl rfl fun q => ⟨_, .tick (hagain q)⟩
      · exact .of_quiet (procSwitchProcess_sameSpaces hswitch).log (procSwitchProcess_pmm hswitch)
          fun q => ⟨_, .tick (hagain q)⟩
  | exit => cases hexit

/-- **Run lemma.** -/
theorem kernel_replays {k k' : Kernel} (h : Run SchedStep k es k') (hexits : exits es = 0) :
    SameAnswers PmmDraw k k' fun t t' => Run SchedStep t es t' := by
  induction h with
  | nil k => exact .of_quiet rfl rfl fun q => .nil _
  | cons hstep hrest ih =>
      rw [exits_cons] at hexits
      have hexit := Nat.eq_zero_of_add_eq_zero_left hexits
      refine (schedStep_replays hstep ?_).trans (ih (Nat.eq_zero_of_add_eq_zero_right hexits))
        fun t t' t'' => .cons
      by_contra hne
      rw [if_pos (Bool.eq_true_of_not_eq_false hne)] at hexit
      cases hexit

end NimbleOS
