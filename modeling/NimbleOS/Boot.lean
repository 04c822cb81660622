import NimbleOS.Proc.Logged
import NimbleOS.Tty

/-!
# NimbleOS.Boot

`paging_init`, from the directory that `boot.S` has set up: it maps the first MiB, the
kernel heap and the screen.  `Booted` is what it leaves, if all its allocations have
succeeded; the first process is created from there.
-/

namespace NimbleOS

open Pmm

/-! ## the code -/

def kernelHeapBaseVirt : Nat := 0xD0000000

def kernelVgaBaseVirt : Nat := kernelHeapBaseVirt - pageSize

/-- `heap_pages`. -/
def heapPages : Nat := (kernelHeapEndVirt - kernelHeapBaseVirt) / pageSize

/-- `paging_init`, with the array `kernel_directory` in frame `dirPhys`.  The array is
part of the kernel's image, so the first two stores are to this frame. -/
def pagingInit (s : Vm Pmm) (dirPhys : Nat) : Except Halt (Vm Pmm) := do
  let s := s.withEntry dirPhys (pageEntries - 1) (dirPhys ||| pagePresent ||| pageRw)
  let s := s.withEntry dirPhys 0 0
  let s ← pagingMapPages s 0 0 256 pageRw
  let (heapPhys, s) := s.allocPages heapPages
  let s ← pagingMapPages s kernelHeapBaseVirt heapPhys heapPages pageRw
  pagingMapPage s kernelVgaBaseVirt vgaMemory pageRw

/-! ## before paging_init -/

/-- What `boot.S` and `pmm_init` leave: the directory is in a frame of the kernel's
image, which is in use, and maps two large pages. -/
structure BootDirectory (s : Vm Pmm) (dir : Nat) : Prop where
  cr3 : s.cr3 = dir
  aligned : dir % pageSize = 0
  pos : 0 < dir
  lt : dir < 2 ^ 22
  slots : ∀ j < pageEntries, entry s.mem dir j = if j = 0 ∨ j = 768 then 0x83 else 0
  sane : s.pmm.Sane
  taken : s.pmm.Taken dir

/-- After the first two stores. -/
def bootSlots (s : Vm Pmm) (dir : Nat) : Vm Pmm :=
  (s.withEntry dir (pageEntries - 1) (dir ||| pagePresent ||| pageRw)).withEntry dir 0 0

section

variable {s : Vm Pmm} (h : BootDirectory s dir)

include h

theorem BootDirectory.pde (hj : j < pageEntries) : (bootSlots s dir).pde j =
    if j = 768 then 0x83 else if j = 1023 then pdeRaw dir 0 else 0 := by
  have hraw : dir ||| pagePresent ||| pageRw = pdeRaw dir 0 := by
    rw [pdeRaw, Nat.zero_and, Nat.or_zero]
  have hlt := (pdeRaw_fields h.aligned (Nat.lt_trans h.lt (by decide)) (.inl rfl : MapFlags 0)).1
  have hfirst := s.entry_withEntry h.aligned h.aligned (by decide : pageEntries - 1 < pageEntries) hj
    hlt
  have hsecond := (s.withEntry dir (pageEntries - 1) (pdeRaw dir 0)).entry_withEntry h.aligned
    h.aligned (by decide : 0 < pageEntries) hj (by decide : 0 < 2 ^ 32)
  have hcr3 : (bootSlots s dir).cr3 = dir := h.cr3
  rw [Vm.pde, hcr3, bootSlots, hraw, hsecond, hfirst, h.slots j hj,
    show pageEntries - 1 = 1023 from rfl]
  simp only [true_and]
  by_cases h0 : j = 0
  · rw [if_pos h0, if_neg (by omega), if_neg (by omega)]
  · rw [if_neg h0]
    by_cases h768 : j = 768
    · rw [if_neg (by omega), if_pos (.inr h768), if_pos h768]
    · rw [if_neg h768, if_neg (show ¬ (j = 0 ∨ j = 768) by omega)]

/-- Then the directory is well-formed. -/
theorem BootDirectory.wf : DirWF Pmm.Taken (bootSlots s dir) := by
  obtain ⟨-, hpres, hlarge, hframe, -⟩ :=
    pdeRaw_fields h.aligned (Nat.lt_trans h.lt (by decide)) (.inl rfl : MapFlags 0)
  have hself : entry (bootSlots s dir).mem (bootSlots s dir).cr3 1023 = pdeRaw dir 0 :=
    h.pde (j := 1023) (by decide)
  have hcr3 : (bootSlots s dir).cr3 = dir := h.cr3
  have hslot : ∀ d < 1023, isPresent ((bootSlots s dir).pde d) = true →
      d = 768 ∧ pageFrame ((bootSlots s dir).pde d) = 0 := by
    intro d hd hp
    rw [h.pde (slot_lt hd)] at hp ⊢
    by_cases h768 : d = 768
    · exact ⟨h768, by rw [if_pos h768]; rfl⟩
    · rw [if_neg h768, if_neg (by omega)] at hp
      contradiction
  constructor
  · exact ⟨by rw [hcr3]; exact h.aligned, by rw [hself, hpres], by rw [hself, hlarge],
      by rw [hself, hframe, hcr3]⟩
  · intro d hd hp
    rw [(hslot d hd hp).2, hcr3]
    exact Nat.ne_of_lt h.pos
  · intro d hd d' hd' hp hp' _
    rw [(hslot d hd hp).1, (hslot d' hd' hp').1]
  · rw [hcr3]
    exact h.taken
  · intro d hd hp
    rw [(hslot d hd hp).2]
    exact h.sane.zero_used

end

/-! ## after paging_init -/

/-- What `paging_init` maps: the first MiB, the screen and the heap. -/
def MapsBoot (page flags : Nat) : Prop :=
  (page < 256 ∨ 0xCFFFF ≤ page ∧ page < 0xD0400) ∧ flags = pageRw

/-- What it leaves. -/
structure Booted (s : Vm Pmm) (dir : Nat) : Prop where
  cr3 : s.cr3 = dir
  sane : s.pmm.Sane
  wf : DirWF Pmm.Taken s
  /-- The window is the slot behind the heap. -/
  window : isPresent (s.pde windowSlot) = false
  /-- Nothing is accessible in user mode. -/
  kernel : ∀ j < 1023, isUser (s.pde j) = false
  /-- The kernel's image is in a large page. -/
  image : s.pde kernelPageDirIndex = 0x83

/-- The slots of `paging_init`. -/
theorem BootDirectory.slots_after {s s' : Vm Pmm} (h : BootDirectory s dir)
    (hs : s'.pmm.Sane) (hwf : DirWF Pmm.Taken s') (hcr3 : s'.cr3 = dir)
    (hnew : NewSlots MapsBoot (bootSlots s dir) s' ts)
    (haligned : ∀ t ∈ ts, t.2 % pageSize = 0 ∧ t.2 < 2 ^ 32) : Booted s' dir where
  cr3 := hcr3
  sane := hs
  wf := hwf
  window := by
    rw [hnew.same windowSlot (by decide) fun t ht heq => ?_, h.pde (by decide)]
    · rfl
    · obtain ⟨p, f, ⟨hp, -⟩, hslot, -⟩ := hnew.needed t ht
      rw [heq, windowSlot] at hslot
      omega
  kernel := fun j hj => by
    by_cases hin : ∃ t ∈ ts, t.1 = j
    · obtain ⟨t, ht, rfl⟩ := hin
      obtain ⟨p, f, ⟨-, rfl⟩, -, hraw⟩ := hnew.needed t ht
      obtain ⟨ha, hlt⟩ := haligned t ht
      rw [hraw, (pdeRaw_fields ha hlt (by decide : MapFlags pageRw)).2.2.2.2]
      rfl
    · rw [hnew.same j (slot_lt hj) fun t ht heq => hin ⟨t, ht, heq⟩, h.pde (slot_lt hj)]
      by_cases h768 : j = 768
      · rw [if_pos h768]
        rfl
      · rw [if_neg h768, if_neg (by omega)]
        rfl
  image := by
    rw [hnew.same kernelPageDirIndex (by decide) fun t ht heq => ?_, h.pde (by decide)]
    · rfl
    · obtain ⟨p, f, ⟨hp, -⟩, hslot, -⟩ := hnew.needed t ht
      rw [heq] at hslot
      unfold kernelPageDirIndex kernelBaseVirt at hslot
      omega

/-- The calls of `paging_init`. -/
theorem pagingInit_eq (s : Vm Pmm) (halloc : s₁.allocPages heapPages = (a, t))
    (hfirst : pagingMapPages (bootSlots s dir) 0 0 256 pageRw = .ok s₁)
    (hheap : pagingMapPages t kernelHeapBaseVirt a heapPages pageRw = .ok s₂)
    (hvga : pagingMapPages s₂ kernelVgaBaseVirt vgaMemory 1 pageRw = .ok s') :
    pagingInit s dir = .ok s' := by
  obtain ⟨u, hmap, hu⟩ := bind_eq_ok.mp hvga
  cases hu
  refine bind_eq_ok.mpr ⟨s₁, hfirst, ?_⟩
  rw [halloc]
  exact bind_eq_ok.mpr ⟨s₂, hheap, hmap⟩

theorem pagingInit_parts {s s' : Vm Pmm} (h : pagingInit s dir = .ok s') :
    ∃ s₁ a t s₂, s₁.allocPages heapPages = (a, t) ∧
      pagingMapPages (bootSlots s dir) 0 0 256 pageRw = .ok s₁ ∧
      pagingMapPages t kernelHeapBaseVirt a heapPages pageRw = .ok s₂ ∧
      pagingMapPages s₂ kernelVgaBaseVirt vgaMemory 1 pageRw = .ok s' := by
  obtain ⟨s₁, hfirst, h⟩ := bind_eq_ok.mp h
  obtain ⟨⟨a, t⟩, halloc⟩ : ∃ r, s₁.allocPages heapPages = r := ⟨_, rfl⟩
  rw [halloc] at h
  obtain ⟨s₂, hheap, hvga⟩ := bind_eq_ok.mp h
  exact ⟨s₁, a, t, s₂, halloc, hfirst, hheap, bind_eq_ok.mpr ⟨s', hvga, rfl⟩⟩

/-- What `paging_init` maps, and how. -/
theorem pagingInit_mapped {s s' : Vm Pmm} (hboot : BootDirectory s dir)
    (h : pagingInit s dir = .ok s') (hsucc : s.Succeeds s') :
    ∃ s₁ a t s₂ ts₁ ts₂ ts₃, s₁.allocPages heapPages = (a, t) ∧
      (∀ j, t.pde j = s₁.pde j) ∧ t.tables = s₁.tables ∧
      Mapped Pmm.Sane Pmm.Taken (bootSlots s dir) s₁ 0 0 256 pageRw ts₁ ∧
      Mapped Pmm.Sane Pmm.Taken t s₂ (kernelHeapBaseVirt / pageSize) a heapPages pageRw ts₂ ∧
      Mapped Pmm.Sane Pmm.Taken s₂ s' (kernelVgaBaseVirt / pageSize) vgaMemory 1 pageRw ts₃ := by
  obtain ⟨s₁, a, t, s₂, halloc, hfirst, hheap, hvga⟩ := pagingInit_parts h
  have hs₀ : (bootSlots s dir).pmm.Sane := hboot.sane
  have hsucc₀ : (bootSlots s dir).Succeeds s' := hsucc
  have hext₂ := pagingMapPages_extends hheap
  have hext₃ := pagingMapPages_extends hvga
  obtain ⟨hsucc₁, hrest⟩ := hsucc₀.split (pagingMapPages_extends hfirst)
    ((Vm.allocPages_extends halloc).trans (hext₂.trans hext₃))
  obtain ⟨hsucc_t, hrest⟩ := hrest.split (Vm.allocPages_extends halloc) (hext₂.trans hext₃)
  obtain ⟨hsucc₂, hsucc₃⟩ := hrest.split hext₂ hext₃
  have hflags : MapFlags pageRw := by decide
  obtain ⟨ts₁, hmap₁⟩ := pagingMapPages_mapped pmm_freshFrames hboot.wf hs₀ (by decide) (by decide)
    (by decide) (by decide) hflags hfirst hsucc₁
  have hne : a ≠ 0 := hsucc_t.head (Vm.allocPages_draws halloc).1.log
  obtain ⟨hs_t, hwf_t, hpde_t, htables_t⟩ := allocPages_wf hmap₁.inv hmap₁.wf (by decide) halloc hne
  obtain ⟨-, ha, hlast, -, -⟩ := allocPages_spec hmap₁.inv (by decide : 0 < heapPages) halloc hne
  have halt : a < 2 ^ 32 := by
    have : 0 < heapPages * pageSize := by decide
    omega
  obtain ⟨ts₂, hmap₂⟩ := pagingMapPages_mapped pmm_freshFrames hwf_t hs_t (by decide) (by decide) ha
    halt hflags hheap hsucc₂
  obtain ⟨ts₃, hmap₃⟩ := pagingMapPages_mapped pmm_freshFrames hmap₂.wf hmap₂.inv (by decide)
    (by decide) (by decide) (by decide) hflags hvga hsucc₃
  exact ⟨s₁, a, t, s₂, ts₁, ts₂, ts₃, halloc, hpde_t, htables_t, hmap₁, hmap₂, hmap₃⟩

/-- **paging_init**: if it returns and logs no failure, the kernel is `Booted`. -/
theorem pagingInit_booted {s s' : Vm Pmm} (hboot : BootDirectory s dir)
    (h : pagingInit s dir = .ok s') (hsucc : s.Succeeds s') : Booted s' dir := by
  obtain ⟨s₁, a, t, s₂, ts₁, ts₂, ts₃, halloc, hpde_t, -, hmap₁, hmap₂, hmap₃⟩ :=
    pagingInit_mapped hboot h hsucc
  have hs₀ : (bootSlots s dir).pmm.Sane := hboot.sane
  have hsucc₀ : (bootSlots s dir).Succeeds s' := hsucc
  have hdraws := ((hmap₁.new.draws_log.trans (Vm.allocPages_draws halloc).1).trans
    hmap₂.new.draws_log).trans hmap₃.new.draws_log
  have hspec := hdraws.spec hs₀ (hdraws.addr_ne hsucc₀)
  have hnew₁ : NewSlots MapsBoot (bootSlots s dir) s₁ ts₁ := by
    refine hmap₁.new.toNewSlots.mono ?_
    rintro p f ⟨⟨-, hp⟩, hf⟩
    exact ⟨.inl hp, hf⟩
  have hnew₂ : NewSlots MapsBoot s₁ s₂ ts₂ := by
    refine (hmap₂.new.toNewSlots.congr_left fun d _ => (hpde_t d).symm).mono ?_
    have hlo : kernelHeapBaseVirt / pageSize = 0xD0000 := rfl
    have hnum : heapPages = 1024 := rfl
    rintro p f ⟨hp, hf⟩
    exact ⟨.inr (by omega), hf⟩
  have hnew₃ : NewSlots MapsBoot s₂ s' ts₃ := by
    refine hmap₃.new.toNewSlots.mono ?_
    have hlo : kernelVgaBaseVirt / pageSize = 0xCFFFF := rfl
    rintro p f ⟨hp, hf⟩
    exact ⟨.inr (by omega), hf⟩
  refine hboot.slots_after hspec.sane hmap₃.wf ?_ ((hnew₁.trans hnew₂).trans hnew₃)
    fun u hu => ?_
  · rw [hmap₃.cr3, hmap₂.cr3, (Vm.allocPages_draws halloc).2.2, hmap₁.cr3]
    exact hboot.cr3
  · refine hspec.aligned (.table u.1 u.2) ?_ _ (mem_blocks_table u.1 u.2)
    simp only [List.mem_append] at hu ⊢
    rcases hu with hu | hu | hu
    · exact .inl (Alloc.table_mem_map hu)
    · exact .inr (.inl (Alloc.table_mem_map hu))
    · exact .inr (.inr (.inr (Alloc.table_mem_map hu)))

/-! ### paging_init returns -/

/-- Pages of one slot that has no table yet: one granted frame is enough. -/
theorem mapSlot_returns {s : Vm Pmm} (virt phys num : Nat) (hs : s.pmm.Sane)
    (hwf : DirWF Pmm.Taken s) (halign : virt % pageSize = 0)
    (hend : virt + num * pageSize ≤ 0xFFC00000) (hphys : phys % pageSize = 0)
    (hphys' : phys < 2 ^ 32) (hslots : pageSlots (virt / pageSize) num = {d})
    (habs : isPresent (s.pde d) = false) (hgrant : Run Request.Granted s.pmm [.page] p') :
    ∃ s' ts, pagingMapPages s virt phys num pageRw = .ok s' ∧ s.Succeeds s' ∧ s'.pmm = p' ∧
      Mapped Pmm.Sane Pmm.Taken s s' (virt / pageSize) phys num pageRw ts ∧
      ∀ j < 1023, j ≠ d → s'.pde j = s.pde j := by
  have hmissing : (s.missing (virt / pageSize) num).card = 1 := by
    rw [Vm.missing, hslots, Finset.filter_singleton, if_pos habs, Finset.card_singleton]
  have hfree : ∀ i < num, s.tables (virt / pageSize + i) = none := by
    intro i hi
    have hmem : (virt / pageSize + i) / 1024 ∈ pageSlots (virt / pageSize) num :=
      mem_pageSlots.mpr ⟨_, Nat.le_add_right _ _, by omega, rfl⟩
    rw [hslots, Finset.mem_singleton] at hmem
    exact Vm.tables_of_absent (by rw [hmem]; exact habs)
  obtain ⟨as, hlen, hnz, hrun⟩ := allocSteps_of_granted (n := 1) hgrant
  obtain ⟨s', ts, hmap, hsucc, hpmm, hmapped⟩ := pagingMapPages_returns pmm_freshFrames hwf hs halign
    hend hphys hphys' (by decide : MapFlags pageRw) hfree hrun hnz (by rw [hlen, hmissing])
  refine ⟨s', ts, hmap, hsucc, hpmm, hmapped, fun j hj hne => ?_⟩
  refine hmapped.new.same j (slot_lt hj) fun t ht heq => hne ?_
  obtain ⟨p, f, ⟨hp, -⟩, hslot, -⟩ := hmapped.new.needed t ht
  rw [← heq, ← Finset.mem_singleton, ← hslots, mem_pageSlots]
  exact ⟨p, hp.1, hp.2, hslot⟩

/-- The frames that `paging_init` asks for. -/
def bootRequests : List Request := [.page] ++ ([.pages heapPages] ++ ([.page] ++ [.page]))

/-- **paging_init** returns, if these are granted. -/
theorem pagingInit_of_granted {s : Vm Pmm} (hboot : BootDirectory s dir)
    (hgrant : Run Request.Granted s.pmm bootRequests p') :
    ∃ s', pagingInit s dir = .ok s' ∧ s.Succeeds s' ∧ s'.pmm = p' := by
  obtain ⟨p₁, hgrant₁, hgrant⟩ := hgrant.of_append
  obtain ⟨p_t, hgrant_t, hgrant⟩ := hgrant.of_append
  obtain ⟨p₂, hgrant₂, hgrant₃⟩ := hgrant.of_append
  have habs : ∀ j < 1023, j ≠ 768 → isPresent ((bootSlots s dir).pde j) = false := fun j hj hne => by
    rw [hboot.pde (slot_lt hj), if_neg hne, if_neg (by omega)]
    rfl
  obtain ⟨s₁, ts₁, hfirst, hsucc₁, rfl, hmap₁, hpde₁⟩ :=
    mapSlot_returns (s := bootSlots s dir) 0 0 256 hboot.sane hboot.wf (by decide)
      (by decide) (by decide) (by decide)
      (pageSlots_eq_singleton (d := 0) (by decide) (by decide) (by decide))
      (habs 0 (by decide) (by decide)) hgrant₁
  cases hgrant_t with
  | cons hcall hnil =>
  cases hnil
  obtain ⟨a, hne, hcall⟩ := hcall
  have halloc := s₁.allocPages_of_answer (Except.ok.inj hcall)
  generalize ht : ({ s₁ with pmm := p_t, log := .pages heapPages a :: s₁.log } : Vm Pmm) = t at halloc
  obtain ⟨hs_t, hwf_t, hpde_t, -⟩ := allocPages_wf hmap₁.inv hmap₁.wf (by decide) halloc hne
  obtain ⟨-, ha, hlast, -, -⟩ := allocPages_spec hmap₁.inv (by decide : 0 < heapPages) halloc hne
  have hpmm_t : t.pmm = p_t := by rw [← ht]
  have hpages : 0 < heapPages * pageSize := by decide
  obtain ⟨s₂, ts₂, hheap, hsucc₂, rfl, hmap₂, hpde₂⟩ :=
    mapSlot_returns kernelHeapBaseVirt a heapPages hs_t hwf_t (by decide) (by decide) ha (by omega)
      (pageSlots_eq_singleton (d := 832) (by decide) (by decide) (by decide))
      (by rw [hpde_t, hpde₁ _ (by decide) (by decide)]; exact habs _ (by decide) (by decide))
      (by rw [hpmm_t]; exact hgrant₂)
  obtain ⟨s₃, ts₃, hvga, hsucc₃, rfl, hmap₃, -⟩ :=
    mapSlot_returns kernelVgaBaseVirt vgaMemory 1 hmap₂.inv hmap₂.wf (by decide) (by decide)
      (by decide) (by decide) (pageSlots_eq_singleton (d := 831) (by decide) (by decide) (by decide))
      (by
        rw [hpde₂ _ (by decide) (by decide), hpde_t, hpde₁ _ (by decide) (by decide)]
        exact habs _ (by decide) (by decide)) hgrant₃
  have hsucc_t : s₁.Succeeds t :=
    ⟨_, (Vm.allocPages_draws halloc).1.log, List.forall_mem_singleton.mpr hne⟩
  exact ⟨s₃, pagingInit_eq s halloc hfirst hheap hvga, ((hsucc₁.trans hsucc_t).trans hsucc₂).trans hsucc₃,
    rfl⟩

/-- So it returns, if there is room for the heap and three page tables. -/
theorem pagingInit_returns {s : Vm Pmm} (hboot : BootDirectory s dir) (hroom : Room s.pmm n)
    (hle : n + (heapPages + 3) ≤ s.pmm.maxBlocks) :
    ∃ s', pagingInit s dir = .ok s' ∧ s.Succeeds s' ∧ Room s'.pmm (n + (heapPages + 3)) ∧
      s'.pmm.maxBlocks = s.pmm.maxBlocks := by
  obtain ⟨p', hgrant, hroom', hmax⟩ := hroom.grantedAll bootRequests (by decide) hle
  obtain ⟨s', hinit, hsucc, rfl⟩ := pagingInit_of_granted hboot hgrant
  exact ⟨s', hinit, hsucc, hroom', hmax⟩

/-- The kernel when `paging_init` has returned: no process yet. -/
def bootKernel (vm : Vm Pmm) (esp0 : Nat) : Kernel where
  vm := vm
  heapPointer := kernelHeapBaseVirt
  processes := fun _ => none
  currentProcess := 0
  nextPid := 1
  esp0 := esp0

/-- The first process may be created. -/
theorem Booted.ready {s : Vm Pmm} (h : Booted s dir) (esp0 : Nat) : (bootKernel s esp0).Ready where
  sane := h.sane
  wf := h.wf
  closed := by
    have hslot : dirIndex kernelHeapEndVirt = windowSlot := by decide
    refine translate_of_absent ?_
    change isPresent (entry s.mem (pageFrame s.cr3) (dirIndex kernelHeapEndVirt)) = false
    rw [pageFrame_of_aligned h.wf.self.aligned, hslot]
    exact h.window
  current := fun hne => absurd rfl hne

/-! ### a small machine -/

/-- 8 MiB, with block 0 and the directory's block in use. -/
def bootPmm : Pmm where
  bitmap := fun i => if i = 0 ∨ i = 8 then 1#32 else 0#32
  usedBlocks := 2
  maxBlocks := 2048

/-- The directory of `boot.S` at 1 MiB. -/
def bootVm : Vm Pmm where
  mem := ByteMem.setWord (ByteMem.setWord (fun _ => 0) 0x100000 0x83) (0x100000 + 4 * 768) 0x83
  cr3 := 0x100000
  pmm := bootPmm
  log := []

/-- Nothing else is in use. -/
theorem bootPmm_isUsed (b : Nat) : bootPmm.isUsed b = decide (b = 0 ∨ b = 256) := by
  unfold isUsed Bitset.test bootPmm
  dsimp only
  split
  · next hword =>
      rw [BitVec.getLsbD_one]
      grind
  · next hword =>
      rw [BitVec.getLsbD_zero]
      grind

theorem bootPmm_room : Room bootPmm 257 where
  max_le := by decide
  zero_used := bootPmm_isUsed 0
  used_eq := by
    have hblocks : (Finset.range 2048).filter (bootPmm.isUsed · = true) = {0, 256} := by
      ext b
      rw [Finset.mem_filter, Finset.mem_range, bootPmm_isUsed, decide_eq_true_iff, Finset.mem_insert,
        Finset.mem_singleton]
      omega
    exact (congrArg Finset.card hblocks).symm
  whole := by decide
  pos := by decide
  free := fun b hlo _ => by
    rw [bootPmm_isUsed, decide_eq_false_iff_not]
    omega

theorem bootVm_boot : BootDirectory bootVm 0x100000 where
  cr3 := rfl
  aligned := by decide
  pos := by decide
  lt := by decide
  slots := fun j hj => by
    have hdir : 0x100000 % pageSize = 0 := by decide
    have hfirst := entry_setWord (fun _ => 0) (v := 0x83) (i := 0) hdir hdir (by decide) hj (by decide)
    have hsecond := entry_setWord (ByteMem.setWord (fun _ => 0) 0x100000 0x83) (v := 0x83) hdir hdir
      (by decide : 768 < pageEntries) hj (by decide)
    change entry (ByteMem.setWord _ _ _) _ j = _
    rw [hsecond]
    by_cases h768 : j = 768
    · rw [if_pos ⟨rfl, h768⟩, if_pos (.inr h768)]
    · rw [if_neg fun hc => h768 hc.2]
      refine hfirst.trans ?_
      by_cases h0 : j = 0
      · rw [if_pos ⟨rfl, h0⟩, if_pos (.inl h0)]
      · rw [if_neg fun hc => h0 hc.2, if_neg (by omega)]
        rfl
  sane := bootPmm_room.toSane
  taken := by unfold Taken; decide

theorem bootVm_init : ∃ s₀, pagingInit bootVm 0x100000 = .ok s₀ ∧ bootVm.Succeeds s₀ ∧
    Room s₀.pmm 1284 ∧ s₀.pmm.maxBlocks = 2048 :=
  pagingInit_returns bootVm_boot bootPmm_room (by decide)

/-- The blocks of a process of 128 bytes. -/
theorem nops_blocks : 2 + numCodePages 128 + procKernelStackPages + (userSlots 128).card = 15 := by
  rw [card_userSlots (by decide)]
  decide

end NimbleOS
