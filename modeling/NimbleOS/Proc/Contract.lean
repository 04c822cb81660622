import NimbleOS.Boot

/-!
# NimbleOS.Proc.Contract

The contract of `proc_run_code`: for every code and every length that leaves room for the
stack, the call returns if all its allocations succeed, and `Created` says what it has done.
-/

namespace NimbleOS

/-- Page `page` of the new address space is mapped to `frame` with `flags`,
accessible in user mode, and the frame was free before the call. -/
structure MapsFresh (k k' : Kernel) (pd page frame flags : Nat) : Prop where
  mapped : translate k'.vm.mem pd (page * pageSize) = some (frame, flags)
  user : isUser (entry k'.vm.mem pd (page / 1024)) = true
  free : ¬ k.vm.pmm.Taken frame
  used : k'.vm.pmm.Taken frame

/-- What a call of `proc_run_code` that creates the directory `pd` has done. -/
structure Created (k : Kernel) (code : Nat → BitVec 8) (len : Nat) (k' : Kernel) (pd : Nat) :
    Prop where
  /-- The code pages are consecutive, read-only, and hold the code. -/
  codePages : ∃ c, ∀ p ≤ len / pageSize,
    MapsFresh k k' pd p (c + p * pageSize) (pagePresent ||| pageUser)
  bytes : ∀ i < len, ∃ a, walk k'.vm.mem pd i = some a ∧ k'.vm.mem a = code i
  stackPages : ∀ p, stackPage ≤ p → p < 0xC0000 →
    ∃ f, MapsFresh k k' pd p f (pagePresent ||| pageRw ||| pageUser)
  /-- Nothing else is mapped below the kernel, and no frame twice. -/
  nothing : ∀ virt < kernelBaseVirt, translate k'.vm.mem pd virt ≠ none →
    virt / pageSize ≤ len / pageSize ∨ stackPage ≤ virt / pageSize
  once : ∀ p < 0xC0000, ∀ q < 0xC0000, ∀ f fl fl',
    translate k'.vm.mem pd (p * pageSize) = some (f, fl) →
    translate k'.vm.mem pd (q * pageSize) = some (f, fl') → p = q
  /-- The creating directory is current again, and as before but for the page where a
  new table of the window is seen. -/
  current : k'.vm.cr3 = k.vm.cr3
  translates : ∀ virt < 2 ^ 32,
    virt / pageSize ≠ windowTablePage ∨ isPresent (k.vm.pde windowSlot) = true →
    translate k'.vm.mem k.vm.cr3 virt = translate k.vm.mem k.vm.cr3 virt
  used : k'.vm.pmm.usedBlocks = k.vm.pmm.usedBlocks +
    (1 + (len / pageSize + 1) + 10 + (userSlots len).card +
      if isPresent (k.vm.pde windowSlot) then 0 else 1)

section

variable {k k' : Kernel} {o : Space} (h : Built { k.vm with log := l } code len k'.vm o)

include h

/-- A code page is read-only. -/
theorem Built.codePage_fresh (hs : k.vm.pmm.Sane) (hend : numCodePages len ≤ stackPage)
    (hp : p < numCodePages len) : MapsFresh k k' o.directory p (o.code + p * pageSize) 5 := by
  have hp' : p < 0xC0000 := by unfold stackPage at hend; omega
  obtain ⟨-, hfree, hused, -⟩ := h.page_frame hs (o.code_mem len) hp
  have hmap : (k'.vm.inDir o.directory).tables p ≠ none := by
    rw [h.space p hp', if_pos hp]
    exact Option.some_ne_none _
  exact ⟨by rw [h.page_new hs hp', if_pos hp], h.user_new hs hp' hmap, hfree, hused⟩

/-- A stack page is writable. -/
theorem Built.stackPage_fresh (hs : k.vm.pmm.Sane) (hend : numCodePages len ≤ stackPage)
    (hlo : stackPage ≤ p) (hp : p < 0xC0000) :
    MapsFresh k k' o.directory p (o.stack + (p - stackPage) * pageSize) 7 := by
  have hge : ¬ p < numCodePages len := by omega
  have hlt : p - stackPage < procKernelStackPages := by
    unfold stackPage procKernelStackPages at *
    omega
  obtain ⟨-, hfree, hused, -⟩ := h.page_frame hs (o.stack_mem len) hlt
  have hmap : (k'.vm.inDir o.directory).tables p ≠ none := by
    rw [h.space p hp, if_neg hge, if_pos hlo]
    exact Option.some_ne_none _
  exact ⟨by rw [h.page_new hs hp, if_neg hge, if_pos hlo], h.user_new hs hp hmap, hfree, hused⟩

theorem created_of_built (hready : k.Ready) (hinv : k.vm.pmm.Inv) (hend : numCodePages len ≤ stackPage)
    (hgrant : Run Request.Granted k.vm.pmm (procRequests k.vm len) k'.vm.pmm) :
    Created k code len k' o.directory := by
  have hs := hready.sane
  exact
    { codePages := ⟨o.code, fun p hp => h.codePage_fresh hs hend (Nat.lt_succ_of_le hp)⟩
      bytes := fun i hi => ⟨o.code + i, h.walk_code hs hend hi, h.bytes i hi⟩
      stackPages := fun p hlo hp => ⟨_, h.stackPage_fresh hs hend hlo hp⟩
      nothing := fun virt hvirt hmap => by
        rw [h.translate_new hs hvirt, h.space _ (by unfold kernelBaseVirt pageSize at *; omega)]
          at hmap
        by_contra hnot
        rw [if_neg (by unfold numCodePages; omega), if_neg (by omega)] at hmap
        exact hmap rfl
      once := fun p hp q hq f fl fl' hmap hmap' => h.page_inj hs hp hq hmap hmap'
      current := h.cr3
      translates := fun virt hvirt hnot => h.translate_current (hready.wf.congr rfl (fun _ _ => rfl)
        fun _ hf => hf) hvirt hnot
      used := by
        rw [(granted_used hgrant hinv).2, procRequests_size k.vm hend]
        unfold numCodePages procKernelStackPages
        omega }

end

/-- **proc_run_code**, for every code and every length that leaves room for the stack:
if all allocations succeed, the call returns, and what it has done is `Created`. -/
theorem proc_run_code_creates {k : Kernel} (hready : k.Ready) (hinv : k.vm.pmm.Inv)
    (code : Nat → BitVec 8) (hend : len / pageSize + 1 ≤ stackPage) (halloc : AllocsSucceed k len p') :
    ∃ k' q, procRunCode k code len = .ok k' ∧
      k'.processes (kmalloc k sizeofProcess).1 = some q ∧ Created k code len k' q.directory := by
  obtain ⟨k₁, k', o, l, hrun, rfl, hbuilt, -, hadds, -, hnext⟩ :=
    procRunCode_returns hready hend code halloc.process halloc.pmm
  obtain ⟨q, hq, hnew⟩ := hadds.new hnext
  refine ⟨k', q, hrun, hq, ?_⟩
  rw [show q.directory = o.directory from congrArg Process.directory hnew]
  exact created_of_built hbuilt hready hinv hend halloc.pmm

/-! ### the first process -/

/-- The small machine can create a process of 128 bytes. -/
theorem bootKernel_allocs : ∃ s₀ p', pagingInit bootVm 0x100000 = .ok s₀ ∧
    Booted s₀ 0x100000 ∧ s₀.pmm.Inv ∧ AllocsSucceed (bootKernel s₀ 0) 128 p' := by
  obtain ⟨s₀, hinit, hsucc, hroom, hmax⟩ := bootVm_init
  obtain ⟨p', halloc, -⟩ := allocsSucceed_of_room (k := bootKernel s₀ 0)
    (by decide : numCodePages 128 ≤ stackPage) (by decide : 0 < kernelHeapBaseVirt)
    (by decide : kernelHeapBaseVirt + (sizeofProcess + pageSize) < kernelHeapEndVirt) hroom (by
      rw [nops_blocks]
      exact (by decide : 1284 + 15 ≤ 2048).trans_eq hmax.symm)
  exact ⟨s₀, p', hinit, pagingInit_booted bootVm_boot hinit hsucc, hroom.toInv, halloc⟩

/-- 128 bytes of `nop`. -/
theorem proc_run_code_creates_nops : ∃ s₀ k' q, pagingInit bootVm 0x100000 = .ok s₀ ∧
    procRunCode (bootKernel s₀ 0) (fun _ => 0x90) 128 = .ok k' ∧
      k'.processes (kmalloc (bootKernel s₀ 0) sizeofProcess).1 = some q ∧
      Created (bootKernel s₀ 0) (fun _ => 0x90) 128 k' q.directory := by
  obtain ⟨s₀, p', hinit, hbooted, hinv, halloc⟩ := bootKernel_allocs
  obtain ⟨k', q, hrun⟩ :=
    proc_run_code_creates (hbooted.ready 0) hinv (fun _ => 0x90) (by decide) halloc
  exact ⟨s₀, k', q, hinit, hrun⟩

/-- The window had no page table, so the page of the recursive region where its table
is seen was unmapped, and is mapped after the call. -/
theorem proc_run_code_maps_window_table : ∃ s₀ k', pagingInit bootVm 0x100000 = .ok s₀ ∧
    (bootKernel s₀ 0).Ready ∧ s₀.pmm.Inv ∧ (∃ p', AllocsSucceed (bootKernel s₀ 0) 128 p') ∧
      procRunCode (bootKernel s₀ 0) (fun _ => 0x90) 128 = .ok k' ∧
      translate s₀.mem s₀.cr3 0xFFF41000 = none ∧
      translate k'.vm.mem s₀.cr3 0xFFF41000 ≠ none := by
  obtain ⟨s₀, p', hinit, hbooted, hinv, halloc⟩ := bootKernel_allocs
  obtain ⟨k₁, k', o, l, hrun, -, hbuilt, -⟩ := procRunCode_returns (hbooted.ready 0) (by decide)
    (fun _ => 0x90) halloc.process halloc.pmm
  have hdir : dirIndex 0xFFF41000 = 1023 := by decide
  have htab : tableIndex 0xFFF41000 = windowSlot := by decide
  refine ⟨s₀, k', hinit, hbooted.ready 0, hinv, ⟨p', halloc⟩, hrun, ?_, hbuilt.window_seen⟩
  rw [translate_recursive hbooted.wf.self hdir, leaf_eq_none, htab]
  exact hbooted.window

end NimbleOS
