import NimbleOS.Proc.Grow

/-!
# NimbleOS.Proc.Space

The address space of a new process.  If every request to the physical memory
manager is granted, `procBuildSpace` returns, and `Built` says what it has done: to
the directory in which it was called, to the new one, and to the rest of memory.
-/

namespace NimbleOS

open Pmm

theorem Vm.pde_inDir (s : Vm P) (dir j : Nat) : (s.inDir dir).pde j = entry s.mem dir j := rfl

/-! ## the clone -/

/-- The window needs a page table, or none. -/
theorem windowRequests_eq (s : Vm Pmm) :
    windowRequests s = List.replicate (s.missing windowPage 1).card .page := by
  have hslot : windowPage / 1024 = windowSlot := by decide
  rw [s.card_missing_one, hslot, windowRequests]
  split <;> rfl

/-- The code reads the current directory off its reference to itself. -/
theorem procCurrentDirectory_eq {s : Vm Pmm} (hself : SelfMapped s.mem s.cr3) :
    procCurrentDirectory s = .ok (s.cr3, s) := by
  have hdir : dirIndex 0xFFFFF000 = 1023 := by decide
  have htab : tableIndex 0xFFFFF000 = 1023 := by decide
  have hget := pagingGetPage_of_present hself (by decide : 0xFFFFF000 % pageSize = 0) (by decide)
    (by rw [hdir]; exact hself.present) false 0
  rw [hdir, htab] at hget
  have hload := s.loadWord_tableEntry hself (d := 1023) (t := 1023) (by decide) (by decide)
    hself.present
  have hpte : s.pte 1023 1023 = s.pde 1023 := by
    rw [Vm.pte, Vm.pde, hself.self]
  refine bind_eq_ok.mpr ⟨_, hget, bind_eq_ok.mpr ⟨_, hload, ?_⟩⟩
  rw [hpte, Vm.pde, hself.self]
  rfl

section

variable {s s' : Vm Pmm} (h : Cloned s a s' ws)

include h

/-- The slots of the copy. -/
theorem Cloned.pde_copy (hj : j < pageEntries) : (s'.inDir a).pde j =
    if j < kernelPageDirIndex then 0 else if j = 1023 then pdeRaw a 0 else s'.pde j :=
  h.copy j hj

/-- The copy has the kernel's page tables. -/
theorem Cloned.pde_of_present (hd : d < 1023) (hp : isPresent ((s'.inDir a).pde d) = true) :
    kernelPageDirIndex ≤ d ∧ (s'.inDir a).pde d = s'.pde d := by
  rw [h.pde_copy (slot_lt hd)] at hp ⊢
  by_cases hlow : d < kernelPageDirIndex
  · rw [if_pos hlow] at hp
    contradiction
  · rw [if_neg hlow, if_neg (by omega)]
    exact ⟨by omega, rfl⟩

/-- The copy is a well-formed directory. -/
theorem Cloned.wf_copy (ha : a % pageSize = 0) (hlt : a < 2 ^ 32) (htaken : s'.pmm.Taken a) :
    DirWF Pmm.Taken (s'.inDir a) := by
  obtain ⟨-, hpres, hlarge, hframe, -⟩ := pdeRaw_fields ha hlt (.inl rfl : MapFlags 0)
  have hself : entry (s'.inDir a).mem (s'.inDir a).cr3 1023 = pdeRaw a 0 := h.copy 1023 (by decide)
  constructor
  · exact ⟨ha, by rw [hself, hpres], by rw [hself, hlarge], by rw [hself, hframe]; rfl⟩
  · intro d hd hp
    have hslot := (h.pde_of_present hd hp).2
    rw [hslot] at hp ⊢
    exact h.ne_table d hd hp
  · intro d hd d' hd' hp hp'
    have hslot := (h.pde_of_present hd hp).2
    have hslot' := (h.pde_of_present hd' hp').2
    rw [hslot] at hp ⊢
    rw [hslot'] at hp' ⊢
    exact h.wf.inj d hd d' hd' hp hp'
  · exact htaken
  · intro d hd hp
    have hslot := (h.pde_of_present hd hp).2
    rw [hslot] at hp ⊢
    exact h.wf.table_taken d hd hp

/-- The copy has the kernel where the directory has it. -/
theorem Cloned.keepsKernel (ha : a % pageSize = 0) : s'.KeepsKernel a := by
  refine .of_slots ha h.wf.self.aligned fun j hlo hhi => ?_
  have hbase : dirIndex kernelBaseVirt = kernelPageDirIndex := rfl
  have hslot : dirIndex kernelHeapEndVirt = windowSlot := by decide
  unfold windowSlot at hslot
  rw [h.copy j (by unfold pageEntries; omega), if_neg (by omega), if_neg (by omega)]
  rfl

/-- Nothing below the kernel is mapped in the copy. -/
theorem Cloned.absent_copy (hd : d < kernelPageDirIndex) :
    isPresent ((s'.inDir a).pde d) = false := by
  have hlt : d < pageEntries := by unfold kernelPageDirIndex kernelBaseVirt pageEntries at *; omega
  rw [h.pde_copy hlt, if_pos hd]
  rfl

end

/-! ## code and stack -/

/-- Pages below the kernel are mapped for the user, and writable in the directory. -/
def MapsUser (page flags : Nat) : Prop := page < 0xC0000 ∧ flags = 6

theorem pageSlots_code (len : Nat) : pageSlots 0 (numCodePages len) = Finset.range (codeSlots len) := by
  ext d
  rw [mem_pageSlots, Finset.mem_range]
  unfold numCodePages codeSlots pageSize
  constructor
  · rintro ⟨p, -, hp, rfl⟩
    omega
  · intro hd
    exact ⟨d * 1024, by omega, by omega, by omega⟩

theorem pageSlots_stack : pageSlots stackPage procKernelStackPages = {767} :=
  pageSlots_eq_singleton (by decide) (by decide) (by decide)

/-- Where nothing is mapped, code and stack have been: the code at `c`, with the page
tables `tc`, and the stack at `st`, with the page tables `tk`. -/
structure Populated (t : Vm Pmm) (code : Nat → BitVec 8) (len : Nat) (s' : Vm Pmm) (c st : Nat)
    (tc tk : List (Nat × Nat)) : Prop where
  cr3 : s'.cr3 = t.cr3
  sane : s'.pmm.Sane
  wf : DirWF Pmm.Taken s'
  draws : Draws t s' (tk.map (fun (d, a) => .table d a) ++ [.pages procKernelStackPages st] ++
    (tc.map (fun (d, a) => .table d a) ++ [.pages (numCodePages len) c]))
  succeeds : t.Succeeds s'
  slots : NewSlots MapsUser t s' (tk ++ tc)
  codeTables : tc.length = codeSlots len
  stackTables : tk.length = if codeSlots len ≤ 767 then 1 else 0
  codeSlot : ∀ u ∈ tc, u.1 < codeSlots len
  stackSlot : ∀ u ∈ tk, u.1 = 767
  space : ∀ p < 0xC0000, s'.tables p =
    if p < numCodePages len then some (c + p * pageSize, 5)
    else if stackPage ≤ p then some (st + (p - stackPage) * pageSize, 7) else none
  bytes : ∀ i < len, s'.mem (c + i) = code i
  only : ∀ f, f % pageSize = 0 → t.pmm.Taken f → f ≠ t.cr3 →
    ∀ j < pageEntries, entry s'.mem f j = entry t.mem f j

/-- The slots of the new tables. -/
theorem Grown.slot_mem {s s' : Vm Pmm} (h : Grown s s' page num fl a ts) (hu : u ∈ ts) :
    u.1 ∈ pageSlots page num := by
  obtain ⟨p, f, ⟨hp, -⟩, hslot, -⟩ := h.slots.needed u hu
  exact mem_pageSlots.mpr ⟨p, hp.1, hp.2, hslot⟩

/-- Growing has brought a table for every slot that had none. -/
theorem Grown.length_tables {s s' : Vm Pmm} (h : Grown s s' page num fl a ts) :
    ts.length = (s.missing page num).card :=
  h.slots.length_eq (fun _ _ hp => hp.1) h.within fun _ hd => h.present hd

/-- In an empty directory the code needs a table for each of its slots. -/
theorem missing_code {t : Vm Pmm} (habs : ∀ d < kernelPageDirIndex, isPresent (t.pde d) = false)
    (hend : numCodePages len ≤ stackPage) : (t.missing 0 (numCodePages len)).card = codeSlots len := by
  have hmissing : t.missing 0 (numCodePages len) = pageSlots 0 (numCodePages len) :=
    Finset.filter_true_of_mem fun d hd => by
      obtain ⟨p, -, hp, rfl⟩ := mem_pageSlots.mp hd
      exact habs _ (by unfold kernelPageDirIndex kernelBaseVirt stackPage at *; omega)
  rw [hmissing, pageSlots_code, Finset.card_range]

/-- The stack then needs a table unless the code has reached its slot. -/
theorem missing_stack {t s₁ : Vm Pmm} (habs : ∀ d < kernelPageDirIndex, isPresent (t.pde d) = false)
    (hcode : Grown t s₁ 0 (numCodePages len) fl c tc) :
    (s₁.missing stackPage procKernelStackPages).card = if codeSlots len ≤ 767 then 1 else 0 := by
  have hslot767 : isPresent (s₁.pde 767) = decide (767 < codeSlots len) := by
    by_cases hlt : 767 < codeSlots len
    · rw [decide_eq_true hlt]
      exact hcode.present (by rw [pageSlots_code]; exact Finset.mem_range.mpr hlt)
    · have hnot : ∀ u ∈ tc, u.1 ≠ 767 := by
        intro u hu heq
        obtain ⟨p, f, hmaps, hslot, -⟩ := hcode.slots.needed u hu
        have hp := hmaps.1.2
        unfold codeSlots numCodePages pageSize at *
        omega
      rw [decide_eq_false hlt, hcode.slots.same 767 (by decide) hnot, habs 767 (by decide)]
  rw [Vm.missing, pageSlots_stack, Finset.filter_singleton, hslot767]
  by_cases hle : codeSlots len ≤ 767
  · rw [if_pos hle, decide_eq_false (by omega), if_pos rfl, Finset.card_singleton]
  · rw [if_neg hle, decide_eq_true (by omega), if_neg (by simp), Finset.card_empty]

section

variable {t : Vm Pmm} (hs : t.pmm.Sane)
  (habs : ∀ d < kernelPageDirIndex, isPresent (t.pde d) = false) (hend : numCodePages len ≤ stackPage)

include habs

theorem tables_of_low_absent (hp : p < 0xC0000) : t.tables p = none :=
  Vm.tables_of_absent (habs _ (by unfold kernelPageDirIndex kernelBaseVirt; omega))

/-! The code is grown first, then the stack. -/

include hend

section

variable {s₁ s' : Vm Pmm} (hcode : Grown t s₁ 0 (numCodePages len) 5 c tc)
  (hstack : Grown s₁ s' stackPage procKernelStackPages 7 st tk)

include hcode hstack

/-- Code and stack are mapped, and nothing else below the kernel. -/
theorem Grown.space (hp : p < 0xC0000) : s'.tables p =
    if p < numCodePages len then some (c + p * pageSize, 5)
    else if stackPage ≤ p then some (st + (p - stackPage) * pageSize, 7) else none := by
  rw [hstack.tables, hcode.tables]
  by_cases hin : stackPage ≤ p
  · have hstack' : stackPage ≤ p ∧ p < stackPage + procKernelStackPages := by
      unfold stackPage procKernelStackPages at *
      omega
    rw [if_pos hstack', if_neg (by omega), if_pos hin]
  · rw [if_neg (by omega), if_neg hin, tables_of_low_absent habs hp]
    by_cases hlt : p < numCodePages len
    · rw [if_pos ⟨Nat.zero_le p, by omega⟩, if_pos hlt, Nat.sub_zero]
    · rw [if_neg (by omega), if_neg hlt]

variable (hsane₁ : s₁.pmm.Sane) (hsucc₁ : t.Succeeds s₁) (hsucc₂ : s₁.Succeeds s')

include hs hsane₁ hsucc₁ hsucc₂

/-- Frames that were in use before keep their contents. -/
theorem Grown.only_both (hf : f % pageSize = 0) (htaken : t.pmm.Taken f) (hdir : f ≠ t.cr3)
    (hj : j < pageEntries) : entry s'.mem f j = entry t.mem f j := by
  have hne₁ := hcode.draws.addr_ne hsucc₁
  have hkept₁ : entry s₁.mem f j = entry t.mem f j := by
    refine hcode.only_taken hs hsucc₁ hf htaken hdir (fun d hd hp => ?_) j hj
    obtain ⟨p, -, hp', rfl⟩ := mem_pageSlots.mp hd
    rw [habs _ (by unfold kernelPageDirIndex kernelBaseVirt stackPage at *; omega)] at hp
    contradiction
  rw [← hkept₁]
  refine hstack.only_taken hsane₁ hsucc₂ hf (hcode.draws.keeps hs hne₁ htaken) (by rwa [hcode.cr3])
    (fun d hd hp => ?_) j hj
  -- the table of the stack is new if the code has brought it
  rw [pageSlots_stack, Finset.mem_singleton] at hd
  subst hd
  obtain ⟨u, hu, heq⟩ := hcode.slots.mem_of_present (by decide) (habs 767 (by decide)) hp
  rw [← heq, (hcode.slots.placed u hu).2.2]
  rintro rfl
  exact hcode.draws.not_taken hs hne₁ (List.mem_append_left _ (Alloc.table_mem_map hu))
    (mem_blocks_table u.1 u.2) htaken

omit habs hend in
/-- The stack leaves the code alone. -/
theorem Grown.code_kept (hi : i < numCodePages len * pageSize) : s'.mem (c + i) = s₁.mem (c + i) :=
  hcode.bytes_kept (fun _ hf hin hdir htab => hstack.only_taken hsane₁ hsucc₂ hf
    (hcode.draws.taken hs (hcode.draws.addr_ne hsucc₁)
      (List.mem_append_right _ (List.mem_singleton_self _))
      (mem_blocksFrom_of_inPages hcode.aligned.1 hin)) hdir
    fun d hd hp => htab d (slot_of_mem_pageSlots hstack.within hd) hp) hi

theorem Grown.populated {code : Nat → BitVec 8} (hsane : s'.pmm.Sane)
    (hbytes : ∀ i < len, s₁.mem (c + i) = code i) : Populated t code len s' c st tc tk where
  cr3 := hstack.cr3.trans hcode.cr3
  sane := hsane
  wf := hstack.wf
  draws := hcode.draws.trans hstack.draws
  succeeds := hsucc₁.trans hsucc₂
  slots := by
    refine (hcode.slots.mono ?_).trans (hstack.slots.mono ?_)
    · rintro p f ⟨⟨-, hp⟩, hf⟩
      exact ⟨by unfold stackPage at hend; omega, hf⟩
    · rintro p f ⟨⟨-, hp⟩, hf⟩
      exact ⟨by unfold stackPage procKernelStackPages at hp; omega, hf⟩
  codeTables := hcode.length_tables.trans (missing_code habs hend)
  stackTables := hstack.length_tables.trans (missing_stack habs hcode)
  codeSlot := fun u hu => by
    have hslot := hcode.slot_mem hu
    rwa [pageSlots_code, Finset.mem_range] at hslot
  stackSlot := fun u hu => by
    have hslot := hstack.slot_mem hu
    rwa [pageSlots_stack, Finset.mem_singleton] at hslot
  space := fun _ hp => hcode.space habs hend hstack hp
  bytes := fun i hi => by
    have hlen : i < numCodePages len * pageSize := by unfold numCodePages pageSize; omega
    rw [hcode.code_kept hs hstack hsane₁ hsucc₁ hsucc₂ hlen, hbytes i hi]
  only := fun _ hf htaken hdir _ hj =>
    hcode.only_both hs habs hend hstack hsane₁ hsucc₁ hsucc₂ hf htaken hdir hj

end

include hs

/-- **Code and stack** of a process, in a directory with nothing below the kernel. -/
theorem populate_returns (hwf : DirWF Pmm.Taken t) (code : Nat → BitVec 8)
    (hgrant : Run Request.Granted t.pmm (codeRequests len ++ stackRequests len) p') :
    ∃ s₁ s' c st tc tk, procLoadCode t code len (numCodePages len) = .ok s₁ ∧
      procMapStack s₁ procKernelStackPages = .ok s' ∧ s'.pmm = p' ∧
      Populated t code len s' c st tc tk := by
  obtain ⟨p₁, hgrant₁, hgrant₂⟩ := hgrant.of_append
  have hgrant₁' : Run Request.Granted t.pmm (.pages (numCodePages len) ::
      List.replicate (t.missing 0 (numCodePages len)).card .page) p₁ := by
    rwa [missing_code habs hend]
  obtain ⟨c, s₁, tc, hload, rfl, hsane₁, hsucc₁, hcode, hbytes⟩ := procLoadCode_returns hs hwf code
    (by unfold numCodePages stackPage kernelBaseVirt pageSize at *; omega)
    (fun p hp => tables_of_low_absent habs (by unfold stackPage at hend; omega))
    (fun d hd hp => by rw [habs d hd] at hp; contradiction) hgrant₁'
  have hgrant₂' : Run Request.Granted s₁.pmm (.pages procKernelStackPages ::
      List.replicate (s₁.missing stackPage procKernelStackPages).card .page) p' := by
    rw [missing_stack habs hcode]
    rw [stackRequests] at hgrant₂
    split at hgrant₂
    · next hle => rwa [if_pos hle]
    · next hle => rwa [if_neg hle]
  obtain ⟨st, s', tk, hmap, rfl, hsane, hsucc₂, hstack⟩ := procMapStack_returns hsane₁ hcode.wf
    (fun i hi => by
      unfold procKernelStackPages stackPage at *
      rw [hcode.tables, if_neg (by omega), tables_of_low_absent habs (by omega)]) hgrant₂'
  exact ⟨s₁, s', c, st, tc, tk, hload, hmap, rfl,
    hcode.populated hs habs hend hstack hsane₁ hsucc₁ hsucc₂ hsane hbytes⟩

end

/-! ## the new address space -/

/-- The frames of a new address space: of its directory, of its code and stack (the
first of each), and the page tables, with their slots, that were created for the
window, the code and the stack. -/
structure Space where
  directory : Nat
  code : Nat
  stack : Nat
  window : List (Nat × Nat)
  codeTables : List (Nat × Nat)
  stackTables : List (Nat × Nat)

namespace Space

/-- The page tables below the kernel. -/
def tables (o : Space) : List (Nat × Nat) := o.stackTables ++ o.codeTables

/-- What the process owns, as the log has it. -/
def owned (o : Space) (len : Nat) : List Alloc :=
  o.stackTables.map (fun (d, a) => .table d a) ++ [.pages procKernelStackPages o.stack] ++
    (o.codeTables.map (fun (d, a) => .table d a) ++ [.pages (numCodePages len) o.code])

/-- All allocations made for it, the latest first. -/
def allocs (o : Space) (len : Nat) : List Alloc :=
  o.owned len ++ (o.window.map (fun (d, a) => .table d a) ++ [.directory o.directory])

theorem code_mem (o : Space) (len : Nat) :
    Alloc.pages (numCodePages len) o.code ∈ o.allocs len := by
  simp [allocs, owned]

theorem stack_mem (o : Space) (len : Nat) :
    Alloc.pages procKernelStackPages o.stack ∈ o.allocs len := by
  simp [allocs, owned]

theorem table_mem (o : Space) (len : Nat) (ht : t ∈ o.tables) :
    Alloc.table t.1 t.2 ∈ o.allocs len := by
  simp only [allocs, owned, List.mem_append]
  rcases List.mem_append.mp ht with ht | ht
  · exact .inl (.inl (.inl (Alloc.table_mem_map ht)))
  · exact .inl (.inr (.inl (Alloc.table_mem_map ht)))

end Space

/-- What building the address space `o` has done. -/
structure Built (s : Vm Pmm) (code : Nat → BitVec 8) (len : Nat) (s' : Vm Pmm) (o : Space) :
    Prop where
  /-- The current directory is the old one, with at most a table for the window. -/
  cr3 : s'.cr3 = s.cr3
  wf : DirWF Pmm.Taken s'
  window : NewSlots MapsWindow s s' o.window
  present : isPresent (s'.pde windowSlot) = true
  tables : s'.tables = s.tables
  /-- Every allocation has succeeded. -/
  sane : s'.pmm.Sane
  draws : Draws s s' (o.allocs len)
  nonzero : ∀ e ∈ o.allocs len, e.addr ≠ 0
  /-- The new directory has the kernel's tables and those of code and stack. -/
  wf_new : DirWF Pmm.Taken (s'.inDir o.directory)
  codeTables : o.codeTables.length = codeSlots len
  stackTables : o.stackTables.length = if codeSlots len ≤ 767 then 1 else 0
  codeSlot : ∀ t ∈ o.codeTables, t.1 < codeSlots len
  stackSlot : ∀ t ∈ o.stackTables, t.1 = 767
  distinct : o.tables.Pairwise fun t u => t.1 ≠ u.1
  user : ∀ t ∈ o.tables, t.1 < kernelPageDirIndex ∧
    (s'.inDir o.directory).pde t.1 = pdeRaw t.2 6
  low : ∀ j < kernelPageDirIndex, (∀ t ∈ o.tables, t.1 ≠ j) → (s'.inDir o.directory).pde j = 0
  high : ∀ j, kernelPageDirIndex ≤ j → j < 1023 → (s'.inDir o.directory).pde j = s'.pde j
  self : (s'.inDir o.directory).pde 1023 = pdeRaw o.directory 0
  /-- Code and stack are mapped there, and nothing else below the kernel. -/
  space : ∀ p < 0xC0000, (s'.inDir o.directory).tables p =
    if p < numCodePages len then some (o.code + p * pageSize, 5)
    else if stackPage ≤ p then some (o.stack + (p - stackPage) * pageSize, 7) else none
  bytes : ∀ i < len, s'.mem (o.code + i) = code i
  /-- Frames in use keep their contents, but for the directory and the window's table. -/
  only : ∀ f, f % pageSize = 0 → s.pmm.Taken f → f ≠ s.cr3 → f ≠ pageFrame (s'.pde windowSlot) →
    ∀ j < pageEntries, entry s'.mem f j = entry s.mem f j

/-- What `pmm_alloc_page` has done for a directory. -/
theorem allocDirectory_returns {s : Vm Pmm} (hs : s.pmm.Sane)
    (hgrant : Request.Granted s.pmm .page p₁) :
    ∃ a t, s.allocDirectory = .ok (a, t) ∧ t.mem = s.mem ∧ t.cr3 = s.cr3 ∧ t.pmm = p₁ ∧ a ≠ 0 ∧
      a % pageSize = 0 ∧ a < 2 ^ 32 ∧ p₁.Sane ∧ Draws s t [.directory a] := by
  obtain ⟨a, hne, hcall⟩ := hgrant
  have hcall' : FrameAllocator.allocPage s.pmm = .ok (a, p₁) := hcall
  obtain ⟨halign, hlt⟩ := pmm_freshFrames.aligned hs hcall'
  refine ⟨a, { s with pmm := p₁, log := .directory a :: s.log }, ?_, rfl, rfl, rfl, hne, halign,
    hlt, pmm_freshFrames.valid_of hs hcall', rfl, .single hcall⟩
  exact bind_eq_ok.mpr ⟨(a, p₁), hcall, rfl⟩

/-- A new directory frame: the state is as before, and the frame is not part of it. -/
structure DirectoryReady (s : Vm Pmm) (a : Nat) (t : Vm Pmm) : Prop where
  clone : CanClone t
  pde : ∀ j, t.pde j = s.pde j
  tables : t.tables = s.tables
  frame : TableFrame t a
  taken : t.pmm.Taken a
  fresh : ¬ s.pmm.Taken a
  ne_table : ∀ d < 1023, isPresent (t.pde d) = true → pageFrame (t.pde d) ≠ a

theorem directoryReady {s t : Vm Pmm} (hc : CanClone s) (hmem : t.mem = s.mem)
    (hcr3 : t.cr3 = s.cr3) (hdraws : Draws s t [.directory a]) (hne : a ≠ 0) :
    DirectoryReady s a t := by
  have hnz : ∀ e ∈ [Alloc.directory a], e.addr ≠ 0 := List.forall_mem_singleton.mpr hne
  have hspec := hdraws.spec hc.sane hnz
  obtain ⟨halign, hlt⟩ : a % pageSize = 0 ∧ a < 2 ^ 32 :=
    hspec.aligned _ (List.mem_singleton_self _) _ (mem_blocks_directory a)
  have hfresh : ¬ s.pmm.Taken a :=
    hdraws.not_taken hc.sane hnz (List.mem_singleton_self _) (mem_blocks_directory a)
  have hpde : ∀ j, t.pde j = s.pde j := Vm.pde_of_same hmem hcr3
  exact
    { clone :=
        { sane := hspec.sane
          wf := hc.wf.congr hcr3 (fun d _ => hpde d) fun f hf => hdraws.keeps hc.sane hnz hf
          small := fun hp => by rw [hpde] at hp ⊢; exact hc.small hp }
      pde := hpde
      tables := Vm.tables_of_same hmem hcr3
      frame := ⟨halign, hlt, fun heq => hfresh (by rw [heq, hcr3]; exact hc.wf.dir_taken)⟩
      taken := hdraws.taken hc.sane hnz (List.mem_singleton_self _) (mem_blocks_directory a)
      fresh := hfresh
      ne_table := fun d hd hp heq => by
        rw [hpde] at hp heq
        exact hfresh (heq ▸ hc.wf.table_taken d hd hp) }

/-- The window's table is asked for where it is missing. -/
theorem DirectoryReady.windowRequests_eq {s t : Vm Pmm} (h : DirectoryReady s a t) :
    windowRequests s = List.replicate (t.missing windowPage 1).card .page := by
  rw [← NimbleOS.windowRequests_eq, windowRequests, windowRequests, h.pde]

section

variable {s t s₂ s₄ : Vm Pmm} (hc : CanClone s) (hready : DirectoryReady s a t)
  (hcr3 : t.cr3 = s.cr3) (hcloned : Cloned t a s₂ ws)
  (hpop : Populated (s₂.inDir a) code len s₄ c st tc tk)

include hpop

/-- The new directory, seen from the old one. -/
theorem Populated.pde_new (dir j : Nat) : ((s₄.inDir dir).inDir a).pde j = s₄.pde j := by
  rw [Vm.pde_inDir, Vm.pde, hpop.cr3]
  rfl

/-- Code and stack need no slot of the kernel. -/
theorem Populated.pde_kernel (hlo : kernelPageDirIndex ≤ j) (hj : j < pageEntries) :
    s₄.pde j = (s₂.inDir a).pde j := by
  refine hpop.slots.same j hj fun u hu heq => ?_
  obtain ⟨p, f, ⟨hp, -⟩, hslot, -⟩ := hpop.slots.needed u hu
  unfold kernelPageDirIndex kernelBaseVirt at hlo
  omega

include hc hready hcr3 hcloned

/-- The old directory is as the clone has left it. -/
theorem Populated.pde_old (hj : j < pageEntries) : (s₄.inDir s.cr3).pde j = s₂.pde j := by
  have hcr3₂ : s₂.cr3 = s.cr3 := hcloned.cr3.trans hcr3
  have hdir : s.cr3 ≠ a := fun heq => hready.frame.ne_dir (by rw [hcr3, heq])
  rw [Vm.pde_inDir, Vm.pde, hcr3₂]
  exact hpop.only s.cr3 hc.wf.self.aligned (hcr3₂ ▸ hcloned.wf.dir_taken) hdir j hj

/-- It has the kernel where the new one has it. -/
theorem Populated.keepsKernel : s₄.KeepsKernel s.cr3 := by
  refine .of_slots hc.wf.self.aligned hpop.wf.self.aligned fun j hlo hhi => ?_
  have hbase : dirIndex kernelBaseVirt = kernelPageDirIndex := rfl
  have hslot : dirIndex kernelHeapEndVirt = windowSlot := by decide
  unfold windowSlot at hslot
  have hj : j < pageEntries := by unfold pageEntries; omega
  have hold : entry s₄.mem s.cr3 j = s₂.pde j := hpop.pde_old hc hready hcr3 hcloned hj
  have hnew : entry s₄.mem s₄.cr3 j = (s₂.inDir a).pde j := hpop.pde_kernel (by omega) hj
  rw [hold, hnew, hcloned.pde_copy hj, if_neg (by omega), if_neg (by omega)]

/-- So it maps what it has mapped. -/
theorem Populated.tables_old : (s₄.inDir s.cr3).tables = s.tables := by
  have hold := Vm.tables_congr (fun d hd => hpop.pde_old hc hready hcr3 hcloned (slot_lt hd))
    fun d hd hp t ht => hpop.only _ (pageFrame_mod _) (hcloned.wf.table_taken d hd hp)
      (hcloned.ne_table d hd hp) t ht
  rw [hold, hcloned.tables, hready.tables]

/-- The three parts of a new address space: its directory, the clone, code and stack. -/
theorem Populated.built (hmem : t.mem = s.mem) (hdraws : Draws s t [.directory a]) (hne : a ≠ 0)
    (hsucc : t.Succeeds s₂) : Built s code len (s₄.inDir s.cr3) ⟨a, c, st, ws, tc, tk⟩ := by
  have hnz : ∀ e ∈ [Alloc.directory a], e.addr ≠ 0 := List.forall_mem_singleton.mpr hne
  have hdraws₂ := hcloned.new.draws_log
  have hne₂ := hdraws₂.addr_ne hsucc
  have hne₄ := hpop.draws.addr_ne hpop.succeeds
  have hpde₄ := fun j (hj : j < pageEntries) => hpop.pde_old hc hready hcr3 hcloned hj
  have hpdea := hpop.pde_new s.cr3
  exact
    { cr3 := rfl
      wf := hcloned.wf.congr (hcloned.cr3.trans hcr3).symm hpde₄ fun f hf =>
        hpop.draws.keeps (s := s₂.inDir a) hcloned.sane hne₄ hf
      window := (hcloned.new.toNewSlots.congr hpde₄).congr_left fun d _ => (hready.pde d).symm
      present := by rw [hpde₄ windowSlot (by decide)]; exact hcloned.present
      tables := hpop.tables_old hc hready hcr3 hcloned
      sane := hpop.sane
      draws := (hdraws.trans hdraws₂).trans ⟨hpop.draws.log, hpop.draws.run⟩
      nonzero := fun e he => by
        rcases List.mem_append.mp he with he | he
        · exact hne₄ e he
        · rcases List.mem_append.mp he with he | he
          · exact hne₂ e he
          · exact hnz e he
      wf_new := hpop.wf.congr hpop.cr3.symm (fun j _ => hpdea j) fun _ hf => hf
      codeTables := hpop.codeTables
      stackTables := hpop.stackTables
      codeSlot := hpop.codeSlot
      stackSlot := hpop.stackSlot
      distinct := hpop.slots.distinct
      user := fun u hu => by
        obtain ⟨p, f, ⟨hp, rfl⟩, hslot, hraw⟩ := hpop.slots.needed u hu
        rw [hpdea]
        exact ⟨by unfold kernelPageDirIndex kernelBaseVirt; omega, hraw⟩
      low := fun j hj hnone => by
        have hlt : j < pageEntries := by
          unfold kernelPageDirIndex kernelBaseVirt pageEntries at *
          omega
        rw [hpdea, hpop.slots.same j hlt hnone, hcloned.pde_copy hlt, if_pos hj]
      high := fun j hlo hhi => by
        rw [hpdea, hpop.pde_kernel hlo (slot_lt hhi), hcloned.pde_copy (slot_lt hhi),
          if_neg (by omega), if_neg (by omega), hpde₄ j (slot_lt hhi)]
      self := by
        rw [hpdea, hpop.pde_kernel (by decide) (by decide), hcloned.pde_copy (by decide),
          if_neg (by decide), if_pos rfl]
      space := fun p hp => by
        rw [← hpop.space p hp]
        exact congrFun (Vm.tables_congr (fun d _ => hpdea d) fun _ _ _ _ _ => rfl) p
      bytes := hpop.bytes
      only := fun f hf hftaken hfdir hfwin j hj => by
        have htakent := hdraws.keeps hc.sane hnz hftaken
        have hfa : f ≠ a := fun heq => hready.fresh (heq ▸ hftaken)
        have hkeep₄ := hpop.only f hf (hdraws₂.keeps hready.clone.sane hne₂ htakent) hfa j hj
        rw [hpde₄ windowSlot (by decide)] at hfwin
        rw [show (s₄.inDir s.cr3).mem = s₄.mem from rfl, hkeep₄, Vm.inDir_mem,
          hcloned.only f hf (by rwa [hcr3]) hfa hfwin j hj, hmem] }

end

/-- **The address space of a process**: if the window is closed and every request is
granted, it is built. -/
theorem procBuildSpace_returns {s : Vm Pmm} (hc : CanClone s) (hfree : s.tables windowPage = none)
    (hend : numCodePages len ≤ stackPage) (code : Nat → BitVec 8)
    (hgrant : Run Request.Granted s.pmm (procRequests s len) p') :
    ∃ s' o, procBuildSpace s code len = .ok (o.directory, s') ∧ s'.pmm = p' ∧
      Built s code len s' o := by
  cases hgrant with
  | @cons _ _ p₁ _ _ hdir hgrant =>
  obtain ⟨a, t, halloc, hmem, hcr3, rfl, hne, halign, hlt, hsane, hdraws⟩ :=
    allocDirectory_returns hc.sane hdir
  obtain ⟨p₂, hwindow, hrest⟩ := hgrant.of_append
  have hready := directoryReady hc hmem hcr3 hdraws hne
  -- the copy of the directory
  rw [hready.windowRequests_eq] at hwindow
  obtain ⟨as, hlen, hasnz, hrun⟩ := allocSteps_of_granted hwindow
  obtain ⟨s₂, ws, hclone, rfl, hsucc₂, hcloned⟩ := procCloneDirectory_returns hready.clone
    hready.frame hready.taken hready.ne_table (by rw [hready.tables]; exact hfree) hrun hasnz hlen
  have hdraws₂ := hcloned.new.draws_log
  -- code and stack, in the new directory
  have hwf₂ := hcloned.wf_copy halign hlt
    (hdraws₂.keeps hsane (hdraws₂.addr_ne hsucc₂) hready.taken)
  obtain ⟨s₃, s₄, c, st, tc, tk, hload, hstack, rfl, hpop⟩ := populate_returns (t := s₂.inDir a)
    hcloned.sane (fun d hd => hcloned.absent_copy hd) hend hwf₂ code hrest
  refine ⟨s₄.inDir s.cr3, ⟨a, c, st, ws, tc, tk⟩, ?_, rfl,
    hpop.built hc hready hcr3 hcloned hmem hdraws hne hsucc₂⟩
  refine bind_eq_ok.mpr ⟨_, halloc, bind_eq_ok.mpr ⟨s₂, hclone,
    bind_eq_ok.mpr ⟨_, procCurrentDirectory_eq hcloned.wf.self,
      bind_eq_ok.mpr ⟨_, pagingSwitchDirectory_eq_ok.mpr ⟨hcloned.keepsKernel halign, rfl⟩,
        bind_eq_ok.mpr ⟨s₃, hload, bind_eq_ok.mpr ⟨s₄, hstack, ?_⟩⟩⟩⟩⟩⟩
  rw [hcloned.cr3, hcr3]
  exact bind_eq_ok.mpr
    ⟨_, pagingSwitchDirectory_eq_ok.mpr ⟨hpop.keepsKernel hc hready hcr3 hcloned, rfl⟩, rfl⟩

end NimbleOS
