import NimbleOS.Proc.Create

/-!
# NimbleOS.Proc.Logged

A call of `proc_run_code` that returns, and whose log shows no failed allocation:
its code leaves room for the stack, and the requests of `procRequests` were granted.
So the log alone tells that a call has created its process.
-/

namespace NimbleOS

open Pmm

/-! ## what the parts of the call log -/

theorem procClearSlots_same {s s' : Vm Pmm} (h : procClearSlots s n = .ok s') :
    s.SameButMem s' := by
  induction n generalizing s' with
  | zero =>
      cases h
      exact ⟨rfl, rfl, rfl⟩
  | succ n ih =>
      obtain ⟨t, ht, hs⟩ := bind_eq_ok.mp h
      exact (ih ht).trans (Vm.storeWord_same hs)

/-- Without `create`, `paging_get_page` changes nothing. -/
theorem pagingGetPage_same {s s' : Vm Pmm} (h : pagingGetPage s virt false 0 = .ok (page, s')) :
    s' = s := by
  unfold pagingGetPage at h
  split at h
  · contradiction
  obtain ⟨pde, -, h⟩ := bind_eq_ok.mp h
  obtain ⟨s₁, hs₁, h⟩ := bind_eq_ok.mp h
  obtain ⟨pde', -, h⟩ := bind_eq_ok.mp h
  cases h
  rw [Bool.and_false, if_neg Bool.false_ne_true] at hs₁
  cases hs₁
  rfl

theorem procCurrentDirectory_same {s s' : Vm Pmm} (h : procCurrentDirectory s = .ok (d, s')) :
    s' = s := by
  obtain ⟨⟨page, s₁⟩, hget, h⟩ := bind_eq_ok.mp h
  obtain ⟨w, -, h⟩ := bind_eq_ok.mp h
  obtain ⟨-, rfl⟩ := Prod.mk.inj (Except.ok.inj h)
  exact pagingGetPage_same hget

theorem procProtectCode_same {s s' : Vm Pmm} (h : procProtectCode s n = .ok s') :
    s.SameButMem s' := by
  induction n generalizing s' with
  | zero =>
      cases h
      exact ⟨rfl, rfl, rfl⟩
  | succ n ih =>
      obtain ⟨t, ht, h⟩ := bind_eq_ok.mp h
      obtain ⟨⟨page, t₁⟩, hget, h⟩ := bind_eq_ok.mp h
      obtain ⟨w, -, hs⟩ := bind_eq_ok.mp h
      obtain rfl := pagingGetPage_same hget
      exact (ih ht).trans (Vm.storeWord_same hs)

theorem procUnmapWindow_same {s s' : Vm Pmm} (h : pagingUnmapPage s virt = .ok s') :
    s.SameButMem s' := by
  obtain ⟨⟨page, s₁⟩, hget, h⟩ := bind_eq_ok.mp h
  obtain rfl := pagingGetPage_same hget
  cases page with
  | none =>
      cases h
      exact ⟨rfl, rfl, rfl⟩
  | some page =>
      obtain ⟨pte, -, h⟩ := bind_eq_ok.mp h
      exact Vm.storeWord_same h

/-- The clone allocates while the window is mapped, and not afterwards. -/
theorem procCloneDirectory_parts {s s' : Vm Pmm} (h : procCloneDirectory s a = .ok s') :
    ∃ s₁, pagingMapPage s kernelHeapEndVirt a pageRw = .ok s₁ ∧ s₁.SameButMem s' := by
  obtain ⟨s₁, hmap, h⟩ := bind_eq_ok.mp h
  obtain ⟨s₂, hcopy, h⟩ := bind_eq_ok.mp h
  obtain ⟨s₃, hself, h⟩ := bind_eq_ok.mp h
  obtain ⟨s₄, hclear, hunmap⟩ := bind_eq_ok.mp h
  exact ⟨s₁, hmap, (((memcpy_same hcopy).trans (Vm.storeWord_same hself)).trans
    (procClearSlots_same hclear)).trans (procUnmapWindow_same hunmap)⟩

theorem procCloneDirectory_extends {s s' : Vm Pmm} (h : procCloneDirectory s a = .ok s') :
    s.Extends s' := by
  obtain ⟨s₁, hmap, hsame⟩ := procCloneDirectory_parts h
  exact (pagingMapPage_extends hmap).trans hsame.extends

/-- The code allocates its pages and the tables for them. -/
theorem procLoadCode_parts {s s' : Vm Pmm} (h : procLoadCode s code len num = .ok s') :
    ∃ c t s₁, s.allocPages num = (c, t) ∧
      pagingMapPages t 0 c num (pageUser ||| pageRw) = .ok s₁ ∧ s₁.SameButMem s' ∧
      ∃ s₂, storeBytes s₁ 0 code len = .ok s₂ := by
  obtain ⟨⟨c, t⟩, halloc⟩ : ∃ r, s.allocPages num = r := ⟨_, rfl⟩
  rw [procLoadCode, halloc] at h
  obtain ⟨s₁, hmap, h⟩ := bind_eq_ok.mp h
  obtain ⟨s₂, hstore, hprot⟩ := bind_eq_ok.mp h
  exact ⟨c, t, s₁, halloc, hmap, (storeBytes_same hstore).trans (procProtectCode_same hprot), s₂,
    hstore⟩

theorem Vm.allocPages_extends {s t : Vm Pmm} (h : s.allocPages num = (a, t)) : s.Extends t :=
  ⟨[.pages num a], (Vm.allocPages_draws h).1.log.symm⟩

theorem procLoadCode_extends {s s' : Vm Pmm} (h : procLoadCode s code len num = .ok s') :
    s.Extends s' := by
  obtain ⟨c, t, s₁, halloc, hmap, hsame, -⟩ := procLoadCode_parts h
  exact ((Vm.allocPages_extends halloc).trans (pagingMapPages_extends hmap)).trans hsame.extends

theorem procMapStack_extends {s s' : Vm Pmm} (h : procMapStack s num = .ok s') : s.Extends s' := by
  obtain ⟨⟨a, t⟩, halloc⟩ : ∃ r, s.allocPages num = r := ⟨_, rfl⟩
  rw [procMapStack, halloc] at h
  exact (Vm.allocPages_extends halloc).trans (pagingMapPages_extends h)

/-- A copy of more than 3 GiB runs into the kernel. -/
theorem storeBytes_len {s s' : Vm P} (h : storeBytes s 0 code len = .ok s') :
    len ≤ kernelBaseVirt := by
  by_contra hlong
  suffices hbyte : ∀ n ≤ len, ∀ t, storeBytes s 0 code n = .ok t → n ≤ kernelBaseVirt by
    exact hlong (hbyte len (Nat.le_refl _) s' h)
  intro n
  induction n with
  | zero => exact fun _ _ _ => Nat.zero_le _
  | succ n ih =>
      intro hn t ht
      obtain ⟨t₁, ht₁, hstore⟩ := bind_eq_ok.mp ht
      have hle := ih (by omega) t₁ ht₁
      by_contra hlt
      -- the byte at the first address of the kernel
      have hn : n = kernelBaseVirt := by omega
      have hbase : kernelBaseVirt = 0xC0000000 := rfl
      have hend : kernelHeapEndVirt = 0xD0400000 := rfl
      have hvirt : u32 (0 + n) = n := by rw [Nat.zero_add, u32_of_lt (by omega)]
      obtain ⟨b, hb, -⟩ := bind_eq_ok.mp hstore
      rw [hvirt, Vm.storeAddr, if_pos (by omega)] at hb
      contradiction

/-! ## what they were granted -/

/-- Answers of the frame allocator are granted requests for a page. -/
theorem granted_of_allocSteps {p p' : Pmm} (h : Run AllocStep p as p') (hne : ∀ a ∈ as, a ≠ 0) :
    Run Request.Granted p (List.replicate as.length .page) p' := by
  induction h with
  | nil p => exact .nil p
  | @cons p a p₁ as p' hstep _ ih =>
      obtain ⟨ha, has⟩ := List.forall_mem_cons.mp hne
      exact .cons ⟨a, ha, hstep⟩ (ih has)

/-- Pages at any place. -/
theorem grow_granted {s t s' : Vm Pmm} (hs : s.pmm.Sane) (hwf : DirWF Pmm.Taken s) (hnum : 0 < num)
    (halign : virt % pageSize = 0) (hend : virt + num * pageSize ≤ 0xFFC00000)
    (halloc : s.allocPages num = (a, t))
    (hmap : pagingMapPages t virt a num (pageUser ||| pageRw) = .ok s') (hsucc : s.Succeeds s') :
    (∀ i < num, s.tables (virt / pageSize + i) = none) ∧
      Run Request.Granted s.pmm
        (.pages num :: List.replicate (s.missing (virt / pageSize) num).card .page) s'.pmm := by
  obtain ⟨hsucc₁, hsucc₂⟩ := hsucc.split (Vm.allocPages_extends halloc) (pagingMapPages_extends hmap)
  obtain ⟨hdraws, hmem, hcr3⟩ := Vm.allocPages_draws halloc
  have hne : a ≠ 0 := hsucc₁.head hdraws.log
  obtain ⟨hspec, ha, hlast, -, -⟩ := allocPages_spec hs hnum halloc hne
  obtain ⟨-, hwf₁, hpde, htables⟩ := allocPages_wf hs hwf hnum halloc hne
  obtain ⟨hfree, as, hrun, hnz, hlen⟩ := pagingMapPages_granted pmm_freshFrames hwf₁ hspec.sane
    halign hend ha (by unfold pageSize at *; omega) (by decide : MapFlags (pageUser ||| pageRw)) hmap
    hsucc₂
  have hmissing : t.missing (virt / pageSize) num = s.missing (virt / pageSize) num := by
    simp only [Vm.missing, hpde]
  refine ⟨by rwa [← htables], ?_⟩
  rw [← hmissing, ← hlen]
  cases hdraws.run with
  | cons hcall hnil =>
      cases hnil
      exact .cons ⟨a, hne, congrArg Except.ok hcall⟩ (granted_of_allocSteps hrun hnz)

theorem procCloneDirectory_granted {s s' : Vm Pmm} (hc : CanClone s) (ha : TableFrame s a)
    (h : procCloneDirectory s a = .ok s') (hsucc : s.Succeeds s') :
    s.tables windowPage = none ∧
      Run Request.Granted s.pmm (List.replicate (s.missing windowPage 1).card .page) s'.pmm := by
  obtain ⟨s₁, hmap, hsame⟩ := procCloneDirectory_parts h
  have halign : kernelHeapEndVirt % pageSize = 0 := by decide
  have hmaps : pagingMapPages s kernelHeapEndVirt a 1 pageRw = .ok s₁ :=
    bind_eq_ok.mpr ⟨s₁, hmap, rfl⟩
  obtain ⟨hfree, as, hrun, hnz, hlen⟩ := pagingMapPages_granted pmm_freshFrames hc.wf hc.sane halign
    (by decide) ha.aligned ha.lt (by decide : MapFlags pageRw) hmaps
    (hsucc.split (pagingMapPages_extends hmaps) hsame.extends).1
  have hpage : kernelHeapEndVirt / pageSize = windowPage := rfl
  rw [hpage] at hfree hlen
  rw [hsame.pmm, ← hlen]
  exact ⟨hfree 0 Nat.one_pos, granted_of_allocSteps hrun hnz⟩

/-- The code and the stack: there is room for both. -/
theorem populate_granted {t s₁ s' : Vm Pmm} (hs : t.pmm.Sane) (hwf : DirWF Pmm.Taken t)
    (habs : ∀ d < kernelPageDirIndex, isPresent (t.pde d) = false)
    (hload : procLoadCode t code len (numCodePages len) = .ok s₁)
    (hstack : procMapStack s₁ procKernelStackPages = .ok s') (hsucc : t.Succeeds s') :
    numCodePages len ≤ stackPage ∧
      Run Request.Granted t.pmm (codeRequests len ++ stackRequests len) s'.pmm := by
  obtain ⟨hsucc₁, hsucc₂⟩ := hsucc.split (procLoadCode_extends hload) (procMapStack_extends hstack)
  obtain ⟨c, t₁, m, halloc, hmap, hsame, s₂, hstore⟩ := procLoadCode_parts hload
  have hlen := storeBytes_len hstore
  have hpages : 0 + numCodePages len * pageSize ≤ 0xFFC00000 := by
    unfold numCodePages kernelBaseVirt pageSize at *
    omega
  have hsucc_m := (hsucc₁.split ((Vm.allocPages_extends halloc).trans (pagingMapPages_extends hmap))
    hsame.extends).1
  have hpos : 0 < numCodePages len := Nat.succ_pos _
  obtain ⟨hfree, hgrant⟩ := grow_granted hs hwf hpos (rfl : 0 % pageSize = 0) hpages halloc hmap
    hsucc_m
  rw [Nat.zero_div, ← hsame.pmm] at hgrant
  obtain ⟨c', u, tc, hload', -, hsane₁, -, hcode, -⟩ := procLoadCode_returns hs hwf code hlen
    (fun p hp => by have hp' := hfree p hp; rwa [Nat.zero_div, Nat.zero_add] at hp')
    (fun d hd hp => by rw [habs d hd] at hp; contradiction) hgrant
  obtain rfl : s₁ = u := Except.ok.inj (hload.symm.trans hload')
  -- the stack's first page is free, so the code ends before it
  obtain ⟨⟨st, m₂⟩, halloc₂⟩ : ∃ r, s₁.allocPages procKernelStackPages = r := ⟨_, rfl⟩
  rw [procMapStack, halloc₂] at hstack
  have hvirt : u32Sub kernelBaseVirt (pageSize * procKernelStackPages) = stackPage * pageSize := by
    decide
  have hpage : stackPage * pageSize / pageSize = stackPage := by decide
  rw [hvirt] at hstack
  obtain ⟨hfree₂, hgrant₂⟩ := grow_granted hsane₁ hcode.wf (by decide : 0 < procKernelStackPages)
    (by decide : stackPage * pageSize % pageSize = 0) (by decide) halloc₂ hstack hsucc₂
  rw [hpage] at hfree₂ hgrant₂
  have hend : numCodePages len ≤ stackPage := by
    by_contra hlong
    have hfirst := hfree₂ 0 (by decide)
    rw [hcode.tables, if_pos ⟨Nat.zero_le _, by omega⟩] at hfirst
    contradiction
  refine ⟨hend, ?_⟩
  rw [missing_code habs hend] at hgrant
  rw [missing_stack habs hcode] at hgrant₂
  refine hgrant.append ?_
  rw [stackRequests]
  by_cases hle : codeSlots len ≤ 767
  · rwa [if_pos hle] at hgrant₂ ⊢
  · rwa [if_neg hle] at hgrant₂ ⊢

theorem allocDirectory_parts {s t : Vm Pmm} (h : s.allocDirectory = .ok (a, t)) :
    pmmAllocPage s.pmm = .ok (a, t.pmm) ∧ Draws s t [.directory a] ∧ t.mem = s.mem ∧
      t.cr3 = s.cr3 := by
  obtain ⟨⟨b, p⟩, hcall, ht⟩ := bind_eq_ok.mp h
  obtain ⟨rfl, rfl⟩ := Prod.mk.inj (Except.ok.inj ht)
  exact ⟨hcall, ⟨rfl, .single hcall⟩, rfl, rfl⟩

/-- The parts of the address space; the directory switches do not allocate. -/
theorem procBuildSpace_parts {s s' : Vm Pmm} (h : procBuildSpace s code len = .ok (pd, s')) :
    ∃ t s₂ s₃ s₄, s.allocDirectory = .ok (pd, t) ∧ procCloneDirectory t pd = .ok s₂ ∧
      procLoadCode (s₂.inDir pd) code len (numCodePages len) = .ok s₃ ∧
      procMapStack s₃ procKernelStackPages = .ok s₄ ∧ s'.pmm = s₄.pmm ∧ s'.log = s₄.log := by
  obtain ⟨⟨a, t⟩, halloc, h⟩ := bind_eq_ok.mp h
  obtain ⟨s₂, hclone, h⟩ := bind_eq_ok.mp h
  obtain ⟨⟨prev, u⟩, hprev, h⟩ := bind_eq_ok.mp h
  obtain ⟨u', hswitch, h⟩ := bind_eq_ok.mp h
  obtain ⟨s₃, hload, h⟩ := bind_eq_ok.mp h
  obtain ⟨s₄, hstack, h⟩ := bind_eq_ok.mp h
  obtain ⟨u'', hback, h⟩ := bind_eq_ok.mp h
  obtain ⟨rfl, rfl⟩ := Prod.mk.inj (Except.ok.inj h)
  obtain rfl := procCurrentDirectory_same hprev
  obtain ⟨-, rfl⟩ := pagingSwitchDirectory_eq_ok.mp hswitch
  obtain ⟨-, rfl⟩ := pagingSwitchDirectory_eq_ok.mp hback
  exact ⟨t, _, s₃, s₄, halloc, hclone, hload, hstack, rfl, rfl⟩

theorem procBuildSpace_extends {s s' : Vm Pmm} (h : procBuildSpace s code len = .ok (pd, s')) :
    s.Extends s' := by
  obtain ⟨t, s₂, s₃, s₄, halloc, hclone, hload, hstack, -, hlog⟩ := procBuildSpace_parts h
  obtain ⟨-, hdraws, -, -⟩ := allocDirectory_parts halloc
  have hext₁ : s.Extends t := ⟨_, hdraws.log.symm⟩
  have hext₄ : s₂.Extends s₄ := (procLoadCode_extends hload).trans (procMapStack_extends hstack)
  rw [Vm.Extends, hlog]
  exact (hext₁.trans (procCloneDirectory_extends hclone)).trans hext₄

/-- **The address space.** -/
theorem procBuildSpace_granted {s s' : Vm Pmm} (hc : CanClone s)
    (h : procBuildSpace s code len = .ok (pd, s')) (hsucc : s.Succeeds s') :
    numCodePages len ≤ stackPage ∧ Run Request.Granted s.pmm (procRequests s len) s'.pmm := by
  obtain ⟨t, s₂, s₃, s₄, halloc, hclone, hload, hstack, hpmm, hlog⟩ := procBuildSpace_parts h
  obtain ⟨hcall, hdraws, hmem, hcr3⟩ := allocDirectory_parts halloc
  have hext₂ := procCloneDirectory_extends hclone
  have hext₄ : s₂.Extends s₄ := (procLoadCode_extends hload).trans (procMapStack_extends hstack)
  have hsucc' : s.Succeeds s₄ := by
    obtain ⟨new, hnew, hnz⟩ := hsucc
    exact ⟨new, by rw [← hlog, hnew], hnz⟩
  have hext₁ : s.Extends t := ⟨_, hdraws.log.symm⟩
  obtain ⟨hsucc₁, hrest⟩ := hsucc'.split hext₁ (hext₂.trans hext₄)
  obtain ⟨hsucc₂, hsucc₄⟩ := hrest.split hext₂ hext₄
  have hne : pd ≠ 0 := hsucc₁.head hdraws.log
  have hready := directoryReady hc hmem hcr3 hdraws hne
  have ha := hready.frame
  obtain ⟨hfree, hgrant⟩ := procCloneDirectory_granted hready.clone ha hclone hsucc₂
  obtain ⟨as, hlen, hnz, hrun⟩ := allocSteps_of_granted hgrant
  obtain ⟨u, ws, hclone', -, -, hcloned⟩ := procCloneDirectory_returns hready.clone ha hready.taken
    hready.ne_table hfree hrun hnz hlen
  obtain rfl : s₂ = u := Except.ok.inj (hclone.symm.trans hclone')
  have hdraws₂ := hcloned.new.draws_log
  have htaken := hdraws₂.keeps hready.clone.sane (hdraws₂.addr_ne hsucc₂) hready.taken
  obtain ⟨hend, hgrant₂⟩ := populate_granted (t := s₂.inDir pd) hcloned.sane
    (hcloned.wf_copy ha.aligned ha.lt htaken) (fun d hd => hcloned.absent_copy hd) hload hstack hsucc₄
  have hpage : Request.Granted s.pmm .page t.pmm := ⟨pd, hne, hcall⟩
  refine ⟨hend, .cons hpage ?_⟩
  rw [hready.windowRequests_eq, hpmm]
  exact hgrant.append hgrant₂

/-! ## the process -/

theorem Vm.storeWords_same {s s' : Vm Pmm} (h : s.storeWords virt ws = .ok s') :
    s.SameButMem s' := by
  induction ws generalizing s virt with
  | nil =>
      cases h
      exact ⟨rfl, rfl, rfl⟩
  | cons w ws ih =>
      obtain ⟨t, hstore, hrest⟩ := bind_eq_ok.mp h
      exact (Vm.storeWord_same hstore).trans (ih hrest)

theorem Kernel.storeProcess_same {k k' : Kernel} (h : k.storeProcess process p = .ok k') :
    k.vm.SameButMem k'.vm := by
  unfold storeProcess at h
  split at h
  · obtain ⟨vm, hstore, h⟩ := bind_eq_ok.mp h
    cases h
    exact Vm.storeWords_same hstore
  · cases h
    exact ⟨rfl, rfl, rfl⟩

theorem Kernel.storeNext_same {k k' : Kernel} (h : k.storeNext process next = .ok k') :
    k.vm.SameButMem k'.vm := by
  unfold storeNext at h
  split at h
  · obtain ⟨vm, hstore, h⟩ := bind_eq_ok.mp h
    cases h
    exact Vm.storeWord_same hstore
  · cases h
    exact ⟨rfl, rfl, rfl⟩

/-- Insertion does not allocate, wherever the process is. -/
theorem procInsert_sameButMem {k k' : Kernel} (h : procInsert k process = .ok k') :
    k.vm.SameButMem k'.vm := by
  unfold procInsert at h
  split at h
  · split at h
    · cases h
    · split at h
      · exact Kernel.storeNext_same (k := k.setNext k.currentProcess process) h
      · cases h
        exact ⟨rfl, rfl, rfl⟩
  · exact Kernel.storeNext_same (k := { k with currentProcess := process }) h

/-- The parts of a call that returns and logs no failure. -/
theorem procRunCode_succeeds {k k' : Kernel} (h : procRunCode k code len = .ok k')
    (hsucc : k.vm.Succeeds k'.vm) : ∃ process k₁ stack k₂ pd vm,
      kmalloc k sizeofProcess = (process, k₁) ∧ kmalloc k₁ pageSize = (stack, k₂) ∧
        procBuildSpace k₂.vm code len = .ok (pd, vm) ∧ process ≠ 0 ∧ stack ≠ 0 ∧
          k₂.vm.Succeeds vm ∧ k'.vm.pmm = vm.pmm := by
  have hlog₁ := kmalloc_log k sizeofProcess
  obtain ⟨⟨process, k₁⟩, h₁⟩ : ∃ r, kmalloc k sizeofProcess = r := ⟨_, rfl⟩
  rw [h₁] at hlog₁
  have hlog₂ := kmalloc_log k₁ pageSize
  obtain ⟨⟨stack, k₂⟩, h₂⟩ : ∃ r, kmalloc k₁ pageSize = r := ⟨_, rfl⟩
  rw [h₂] at hlog₂
  dsimp only at hlog₁ hlog₂
  rw [procRunCode, h₁] at h
  dsimp only at h
  rw [h₂] at h
  obtain ⟨⟨pd, vm⟩, hbuild, h⟩ := bind_eq_ok.mp h
  obtain ⟨k₃, hstore, hinsert⟩ := bind_eq_ok.mp h
  have hvm : vm.SameButMem k'.vm :=
    (Kernel.storeProcess_same hstore).trans (procInsert_sameButMem hinsert)
  have hsucc' : k.vm.Succeeds vm := by
    obtain ⟨new, hlog, hnz⟩ := hsucc
    exact ⟨new, by rw [← hvm.log, hlog], hnz⟩
  have hext₁ : k.vm.Extends k₁.vm := ⟨[.heap sizeofProcess process], hlog₁.symm⟩
  have hext₂ : k₁.vm.Extends k₂.vm := ⟨[.heap pageSize stack], hlog₂.symm⟩
  obtain ⟨hsucc₁, hrest⟩ := hsucc'.split hext₁ (hext₂.trans (procBuildSpace_extends hbuild))
  obtain ⟨hsucc₂, hsucc₃⟩ := hrest.split hext₂ (procBuildSpace_extends hbuild)
  exact ⟨process, k₁, stack, k₂, pd, vm, h₁, h₂, hbuild, hsucc₁.head hlog₁, hsucc₂.head hlog₂,
    hsucc₃, hvm.pmm⟩

/-- The process of such a call is in the heap. -/
theorem process_ne_zero {k k' : Kernel} (h : procRunCode k code len = .ok k')
    (hsucc : k.vm.Succeeds k'.vm) : (kmalloc k sizeofProcess).1 ≠ 0 := by
  obtain ⟨process, k₁, stack, k₂, pd, vm, h₁, -, -, hne, -⟩ := procRunCode_succeeds h hsucc
  rwa [h₁]

/-- **A call that returns and logs no failure** has created its process: there was room
for the stack, and every allocation has succeeded. -/
theorem allocsSucceed_of_ok {k k' : Kernel} (hready : k.Ready)
    (h : procRunCode k code len = .ok k') (hsucc : k.vm.Succeeds k'.vm) :
    numCodePages len ≤ stackPage ∧ AllocsSucceed k len k'.vm.pmm := by
  obtain ⟨process, k₁, stack, k₂, pd, vm, h₁, h₂, hbuild, hprocess, hstack, hsucc', hpmm⟩ :=
    procRunCode_succeeds h hsucc
  have hsame₁ := kmalloc_same k sizeofProcess
  have hsame₂ := kmalloc_same k₁ pageSize
  rw [h₁] at hsame₁
  rw [h₂] at hsame₂
  obtain ⟨l, hvm⟩ := (hsame₁.trans hsame₂).vm
  dsimp only at hvm
  have hc : CanClone k₂.vm := by
    rw [hvm]
    exact ⟨hready.sane, hready.wf.congr rfl (fun _ _ => rfl) fun _ h => h, hready.window.1⟩
  obtain ⟨hend, hgrant⟩ := procBuildSpace_granted hc hbuild hsucc'
  rw [hvm, ← hpmm] at hgrant
  exact ⟨hend, by rwa [h₁], by rw [h₁]; dsimp only; rwa [h₂], hgrant⟩

/-- **A successful call**: if it returns and logs no failure, it has created a process with
an address space as in `Built`. -/
theorem procRunCode_created {k k' : Kernel} (hready : k.Ready)
    (h : procRunCode k code len = .ok k') (hsucc : k.vm.Succeeds k'.vm) :
    numCodePages len ≤ stackPage ∧ ∃ k₁ o l, Built { k.vm with log := l } code len k'.vm o ∧
      k.Adds (kmalloc k sizeofProcess).1 (newProcess k.nextPid len
        (kmalloc (kmalloc k sizeofProcess).2 pageSize).1 o.directory) k₁ ∧
      procInsert k₁ (kmalloc k sizeofProcess).1 = .ok k' ∧ k₁.SameButNext k' := by
  obtain ⟨hend, halloc⟩ := allocsSucceed_of_ok hready h hsucc
  obtain ⟨k₁, k'', o, l, hrun, -, hbuilt, -, hadds, hinsert, hnext⟩ :=
    procRunCode_returns hready hend code halloc.process halloc.pmm
  obtain rfl : k' = k'' := Except.ok.inj (h.symm.trans hrun)
  exact ⟨hend, k₁, o, l, hbuilt, hadds, hinsert, hnext⟩

/-- The converse: a call whose allocations succeed returns, and logs no failure. -/
theorem AllocsSucceed.ok {k : Kernel} (hready : k.Ready) (hend : numCodePages len ≤ stackPage)
    (code : Nat → BitVec 8) (halloc : AllocsSucceed k len p') :
    ∃ k', procRunCode k code len = .ok k' ∧ k'.vm.pmm = p' ∧ k.vm.Succeeds k'.vm := by
  obtain ⟨k₁, k', o, l, hrun, hpmm, hbuilt, hl, -⟩ :=
    procRunCode_returns hready hend code halloc.process halloc.pmm
  have hlog : k'.vm.log = o.allocs len ++ l := hbuilt.draws.log
  rw [hl, ← List.append_assoc] at hlog
  refine ⟨k', hrun, hpmm, _, hlog, fun e he => ?_⟩
  rcases List.mem_append.mp he with he | he
  · exact hbuilt.nonzero e he
  · rcases List.mem_cons.mp he with rfl | he
    · exact halloc.stack
    · rw [List.mem_singleton.mp he]
      exact halloc.process

/-- Room in the heap for the structure of a process and for its kernel stack. -/
theorem kmallocs_succeed {k : Kernel} (hpos : 0 < k.heapPointer)
    (hheap : k.heapPointer + (sizeofProcess + pageSize) < kernelHeapEndVirt) :
    (kmalloc k sizeofProcess).1 ≠ 0 ∧ (kmalloc (kmalloc k sizeofProcess).2 pageSize).1 ≠ 0 ∧
      (kmalloc (kmalloc k sizeofProcess).2 pageSize).2.heapPointer =
        k.heapPointer + (sizeofProcess + pageSize) := by
  have hend : kernelHeapEndVirt = 0xD0400000 := rfl
  have hsum : u32 (k.heapPointer + sizeofProcess) = k.heapPointer + sizeofProcess :=
    u32_of_lt (by omega)
  have hprocess : (kmalloc k sizeofProcess).1 ≠ 0 :=
    kmalloc_ne_zero k hpos (by rw [hsum]; omega)
  obtain ⟨-, -, hnext⟩ := kmalloc_of_ne_zero k hprocess
  rw [hsum] at hnext
  have hsum' : u32 ((kmalloc k sizeofProcess).2.heapPointer + pageSize) =
      k.heapPointer + (sizeofProcess + pageSize) := by
    rw [hnext, u32_of_lt (by omega), Nat.add_assoc]
  have hstack : (kmalloc (kmalloc k sizeofProcess).2 pageSize).1 ≠ 0 :=
    kmalloc_ne_zero _ (by rw [hnext]; omega) (by rw [hsum']; exact hheap)
  exact ⟨hprocess, hstack, (kmalloc_of_ne_zero _ hstack).2.2.trans hsum'⟩

/-- A call that returns has moved the heap pointer behind the two. -/
theorem procRunCode_heapPointer {k k' : Kernel} (hprocess : (kmalloc k sizeofProcess).1 ≠ 0)
    (h : procRunCode k code len = .ok k') :
    k'.heapPointer = (kmalloc (kmalloc k sizeofProcess).2 pageSize).2.heapPointer := by
  obtain ⟨k₁, stack, pd, -, hpos, hadds, hinsert⟩ := procRunCode_parts hprocess h
  rw [(procInsert_same hpos hinsert).heapPointer, hadds.heapPointer]

/-- **Enough memory**: where heap and frames suffice, every allocation succeeds. -/
theorem allocsSucceed_of_room {k : Kernel} (hend : numCodePages len ≤ stackPage)
    (hpos : 0 < k.heapPointer)
    (hheap : k.heapPointer + (sizeofProcess + pageSize) < kernelHeapEndVirt)
    (hroom : Room k.vm.pmm n)
    (hle : n + (2 + numCodePages len + procKernelStackPages + (userSlots len).card) ≤
      k.vm.pmm.maxBlocks) :
    ∃ p', AllocsSucceed k len p' ∧ (kmalloc k sizeofProcess).1 = k.heapPointer ∧
      (kmalloc (kmalloc k sizeofProcess).2 pageSize).2.heapPointer =
        k.heapPointer + (sizeofProcess + pageSize) ∧
      Room p' (n + (2 + numCodePages len + procKernelStackPages + (userSlots len).card)) ∧
      p'.maxBlocks = k.vm.pmm.maxBlocks := by
  obtain ⟨p', hgrant, hroom', hmax⟩ := hroom.procRequests k.vm hend hle
  obtain ⟨hprocess, hstack, hnext⟩ := kmallocs_succeed hpos hheap
  exact ⟨p', ⟨hprocess, hstack, hgrant⟩, (kmalloc_of_ne_zero k hprocess).2.1, hnext, hroom', hmax⟩

/-- So the call succeeds. -/
theorem procRunCode_of_room {k : Kernel} (hready : k.Ready) (code : Nat → BitVec 8) (len : Nat)
    (hend : numCodePages len ≤ stackPage) (hpos : 0 < k.heapPointer)
    (hheap : k.heapPointer + (sizeofProcess + pageSize) < kernelHeapEndVirt)
    (hroom : Room k.vm.pmm n)
    (hle : n + (2 + numCodePages len + procKernelStackPages + (userSlots len).card) ≤
      k.vm.pmm.maxBlocks) :
    ∃ k', procRunCode k code len = .ok k' ∧ k.vm.Succeeds k'.vm ∧
      k'.heapPointer = k.heapPointer + (sizeofProcess + pageSize) ∧
      Room k'.vm.pmm (n + (2 + numCodePages len + procKernelStackPages + (userSlots len).card)) ∧
      k'.vm.pmm.maxBlocks = k.vm.pmm.maxBlocks ∧ ∃ p, k'.processes k.heapPointer = some p := by
  obtain ⟨p', halloc, haddr, hnext, hroom', hmax⟩ := allocsSucceed_of_room hend hpos hheap hroom hle
  obtain ⟨k', hrun, rfl, hsucc⟩ := halloc.ok hready hend code
  obtain ⟨-, k₁, o, l, -, hadds, hinsert, hinserted⟩ := procRunCode_created hready hrun hsucc
  obtain ⟨p, hp, -⟩ := hadds.new hinserted
  exact ⟨k', hrun, hsucc, (procRunCode_heapPointer halloc.process hrun).trans hnext, hroom', hmax, p,
    by rw [← haddr, hp]⟩

end NimbleOS
