import NimbleOS.Proc.Logged

/-!
# NimbleOS.Proc.FrameZero

The end of physical memory.  `pmm_alloc_page` counts blocks to find out that none is left,
but it looks for one in whole words of the bitmap only.  Where the last free blocks lie in
a last word that is not whole, or behind the last address, it answers 0, and its callers
take this for a frame: of a page table, or of the page directory of a process.
-/

namespace NimbleOS

open Pmm

/-! ## pmm_alloc_page -/

/-- A free block that the search looks at, and that has an address. -/
def ReachesFree (p : Pmm) : Prop := ∃ b < p.scanned, b < 2 ^ 20 ∧ p.isUsed b = false

/-- What a page request finds where a block is free. -/
structure PageFound (p : Pmm) (b : Nat) : Prop where
  pos : 0 < b
  below : b < p.maxBlocks
  free : p.isUsed b = false
  address : b * pageSize < 2 ^ 32
  answer : pmmAllocPage p = .ok (b * pageSize, mmapSet p b)

section

variable {p : Pmm} (hmax : p.maxBlocks < 2 ^ 32) (hz : p.isUsed 0 = true)
  (hused : p.usedBlocks = p.usedCount) (hfree : ∃ b < p.maxBlocks, p.isUsed b = false)

include hmax hused hfree

/-- The counter lets the request pass. -/
theorem guard_of_free : 0 < u32Sub p.maxBlocks p.usedBlocks := by
  obtain ⟨b, hb, hfree⟩ := hfree
  have hset := usedCount_mmapSet p hb hfree
  have hle := usedCount_le (mmapSet p b)
  rw [maxBlocks_mmapSet] at hle
  rw [hused, u32Sub]
  omega

/-- The answer is that of the search. -/
theorem pmmAllocPage_eq :
    pmmAllocPage p =
      if mmapFindFree p = 0 then .ok (0, p)
      else .ok (u32 (mmapFindFree p * pageSize), mmapSet p (mmapFindFree p)) := by
  have hguard := guard_of_free hmax hused hfree
  rw [pmmAllocPage, if_neg (Nat.not_le.mpr hguard)]

include hz

/-- **A page request** finds a block exactly if the search reaches a free one. -/
theorem pageFound_iff : (∃ b, PageFound p b) ↔ ReachesFree p := by
  have heq := pmmAllocPage_eq hmax hused hfree
  constructor
  · rintro ⟨b, hb⟩
    have hanswer := hb.answer
    rw [heq] at hanswer
    have hpos : b * pageSize ≠ 0 := Nat.mul_ne_zero (Nat.ne_of_gt hb.pos) (by decide)
    split at hanswer
    · obtain ⟨hzero, -⟩ := Prod.mk.inj (Except.ok.inj hanswer)
      exact absurd hzero.symm hpos
    · next hne =>
        obtain ⟨hlt, hfound, hleast⟩ := mmapFindFree_spec p hne
        obtain ⟨haddr, -⟩ := Prod.mk.inj (Except.ok.inj hanswer)
        rw [isFree_eq_true] at hfound
        refine ⟨mmapFindFree p, hlt, ?_, hfound⟩
        -- behind the last address the answer would be that of a lower block, which is used
        by_contra hhigh
        have hlow : b < mmapFindFree p := by
          have := hb.address
          unfold pageSize at this
          omega
        have hused := hleast b hlow
        rw [isFree, hb.free] at hused
        cases hused
  · rintro ⟨c, hc, hsmall, hcfree⟩
    have hcpos : 0 < c := by
      rcases Nat.eq_zero_or_pos c with rfl | hpos
      · rw [hz] at hcfree
        cases hcfree
      · exact hpos
    have hne : mmapFindFree p ≠ 0 := fun h0 => by
      have hused := mmapFindFree_eq_zero p h0 hcpos hc hz
      rw [isFree, hcfree] at hused
      cases hused
    obtain ⟨hlt, hfound, hleast⟩ := mmapFindFree_spec p hne
    have hle : mmapFindFree p ≤ c := by
      by_contra hlt'
      have hused := hleast c (by omega)
      rw [isFree, hcfree] at hused
      cases hused
    have hscanned := scanned_le p
    have haddr : mmapFindFree p * pageSize < 2 ^ 32 := by
      unfold pageSize
      omega
    refine ⟨mmapFindFree p, Nat.pos_of_ne_zero hne, by omega, (isFree_eq_true p).mp hfound, haddr, ?_⟩
    rw [heq, if_neg hne, u32_of_lt haddr]

end

/-! ## its callers -/

/-- Page requests of this state find a free block, so that neither `paging_get_page` nor
`proc_run_code`, where it has a structure for the process, takes frame 0. -/
structure NoFrameZero (p : Pmm) : Prop where
  page : ∃ b, PageFound p b
  table : ∀ (s s' : Vm Pmm) virt flags page d a, s.pmm = p →
    pagingGetPage s virt true flags = .ok (page, s') → s'.log = .table d a :: s.log → a ≠ 0
  directory : ∀ (k k' : Kernel) code len q, k.vm.pmm = p → (kmalloc k sizeofProcess).1 ≠ 0 →
    procRunCode k code len = .ok k' → k'.processes (kmalloc k sizeofProcess).1 = some q →
      q.directory ≠ 0

/-- The directory of a new process is the answer of `pmm_alloc_page`. -/
theorem procRunCode_directory {k k' : Kernel} (hne : (kmalloc k sizeofProcess).1 ≠ 0)
    (h : procRunCode k code len = .ok k')
    (hq : k'.processes (kmalloc k sizeofProcess).1 = some q) :
    ∃ pmm, pmmAllocPage k.vm.pmm = .ok (q.directory, pmm) := by
  have hsame₁ := kmalloc_same k sizeofProcess
  obtain ⟨⟨process, k₁⟩, h₁⟩ : ∃ r, kmalloc k sizeofProcess = r := ⟨_, rfl⟩
  rw [h₁] at hsame₁ hq hne
  have hsame₂ := kmalloc_same k₁ pageSize
  obtain ⟨⟨stack, k₂⟩, h₂⟩ : ∃ r, kmalloc k₁ pageSize = r := ⟨_, rfl⟩
  rw [h₂] at hsame₂
  rw [procRunCode, h₁] at h
  dsimp only at h hq hsame₁ hne
  rw [h₂] at h
  obtain ⟨⟨pd, vm⟩, hbuild, h⟩ := bind_eq_ok.mp h
  dsimp only at h
  rw [Kernel.storeProcess_of_ne _ hne] at h
  have hlinked := procInsert_sameButNext hne h process
  simp only [hq, Kernel.setProcess, if_true, Option.map_some] at hlinked
  have hdir := congrArg Process.directory (Option.some.inj hlinked)
  obtain rfl : q.directory = pd := hdir
  obtain ⟨l, hvm⟩ := (hsame₁.trans hsame₂).vm
  dsimp only at hvm
  obtain ⟨t, -, -, -, halloc, -⟩ := procBuildSpace_parts hbuild
  obtain ⟨⟨a, pmm⟩, hpage, ht⟩ := bind_eq_ok.mp halloc
  cases ht
  rw [hvm] at hpage
  exact ⟨pmm, hpage⟩

/-- A new table is the answer of `pmm_alloc_page`. -/
theorem pagingGetPage_table {s s' : Vm Pmm} (h : pagingGetPage s virt true flags = .ok (page, s'))
    (hlog : s'.log = .table d a :: s.log) : ∃ pmm, pmmAllocPage s.pmm = .ok (a, pmm) := by
  obtain rfl | hcreate := pagingGetPage_log h
  · exact absurd hlog.symm (List.cons_ne_self _ _)
  · obtain ⟨a', halloc, hlog', -⟩ := pagingCreateTable_log hcreate
    rw [hlog] at hlog'
    obtain ⟨-, rfl⟩ := Alloc.table.inj (List.cons.inj hlog').1
    exact ⟨_, halloc⟩

/-- **The last free blocks.**  Where a block below `max_blocks` is free, page requests find one,
and no caller takes frame 0, exactly if the search reaches one: in the whole words of the
bitmap, and with an address of 32 bits. -/
theorem alloc_page_finds_iff (p : Pmm) (hmax : p.maxBlocks < 2 ^ 32) (hz : p.isUsed 0 = true)
    (hused : p.usedBlocks = p.usedCount) (hfree : ∃ b < p.maxBlocks, p.isUsed b = false) :
    NoFrameZero p ↔ ReachesFree p := by
  rw [← pageFound_iff hmax hz hused hfree]
  refine ⟨NoFrameZero.page, fun hpage => ?_⟩
  obtain ⟨b, hb⟩ := hpage
  have hne : b * pageSize ≠ 0 := Nat.mul_ne_zero (Nat.ne_of_gt hb.pos) (by decide)
  have hanswer : ∀ a pmm, pmmAllocPage p = .ok (a, pmm) → a ≠ 0 := by
    intro a pmm h
    rw [hb.answer] at h
    obtain ⟨rfl, -⟩ := Prod.mk.inj (Except.ok.inj h)
    exact hne
  refine ⟨⟨b, hb⟩, fun s s' virt flags page d a hs hget hlog => ?_,
    fun k k' code len q hk hprocess hrun hq => ?_⟩
  · obtain ⟨pmm, halloc⟩ := pagingGetPage_table hget hlog
    rw [hs] at halloc
    exact hanswer a pmm halloc
  · obtain ⟨pmm, halloc⟩ := procRunCode_directory hprocess hrun hq
    rw [hk] at halloc
    exact hanswer q.directory pmm halloc

/-- 64 blocks, two of them used. -/
theorem alloc_page_finds_iff_twoUsed : NoFrameZero twoUsed :=
  (alloc_page_finds_iff twoUsed (by decide) (by decide) twoUsed_whole.used_eq
    ⟨2, by decide, by decide⟩).mpr ⟨2, by decide, by decide, by decide⟩

/-- 33 blocks, the last one free: it is the only one of its word. -/
def lastFree : Pmm where
  bitmap := fun i => if i = 0 then 0xFFFFFFFF#32 else 0#32
  usedBlocks := 32
  maxBlocks := 33

/-- The request is answered by 0, and `paging_get_page` makes frame 0 the page table of
slot 0. -/
theorem last_block_not_found :
    (lastFree.isUsed 0 = true ∧ lastFree.usedBlocks = lastFree.usedCount ∧
        lastFree.isUsed 32 = false) ∧
      ¬ NoFrameZero lastFree ∧ pmmAllocPage lastFree = .ok (0, lastFree) ∧
      ∃ page s', pagingGetPage { emptyDir with pmm := lastFree } 0 true pageRw = .ok (page, s') ∧
        isPresent (s'.pde 0) = true ∧ pageFrame (s'.pde 0) = 0 := by
  have hanswer : pmmAllocPage lastFree = .ok (0, lastFree) := by
    have hguard : ¬ u32Sub lastFree.maxBlocks lastFree.usedBlocks ≤ 0 := by decide
    have hfind : mmapFindFree lastFree = 0 := by decide
    rw [pmmAllocPage, if_neg hguard]
    simp only [hfind, if_true]
  have hused : lastFree.usedBlocks = lastFree.usedCount := by decide
  refine ⟨⟨by decide, hused, by decide⟩, fun hall => ?_, hanswer, ?_⟩
  · obtain ⟨b, hb⟩ := hall.page
    have hzero := hb.answer
    rw [hanswer] at hzero
    obtain ⟨hzero, -⟩ := Prod.mk.inj (Except.ok.inj hzero)
    exact Nat.mul_ne_zero (Nat.ne_of_gt hb.pos) (by decide) hzero.symm
  · have hself : SelfMapped emptyDir.mem emptyDir.cr3 := emptyDir_wf.self
    have hframe : TableFrame ({ emptyDir with pmm := lastFree } : Vm Pmm) 0 :=
      ⟨by decide, by decide, by decide⟩
    have habs : isPresent (emptyDir.pde (dirIndex 0)) = false := emptyDir_absent (by decide)
    have hget := pagingGetPage_create (s := { emptyDir with pmm := lastFree }) hself
      (by decide : 0 % pageSize = 0) (by decide) habs pageRw hanswer hframe
    have hpde := Vm.pde_withTable { emptyDir with pmm := lastFree } lastFree hself.aligned hframe
      pageRw (d := 0) (j := 0) (by decide) (by decide)
    obtain ⟨-, hpresent, hzero⟩ := pdeRaw_word hframe.aligned hframe.lt pageRw
    rw [if_pos rfl] at hpde
    exact ⟨_, _, hget, by rw [← hpresent, ← hpde]; rfl, by rw [← hzero, ← hpde]; rfl⟩

end NimbleOS
