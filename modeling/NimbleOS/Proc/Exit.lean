import NimbleOS.Proc.Owners
import NimbleOS.Proc.Ring

/-!
# NimbleOS.Proc.Exit

What an exit gives back.  `proc_exit_current_process` reads the first frame of the code and of
the stack off the directory, where the page tables are, and clears as many blocks as the code
and the stack have, and the directory's.  The process also owns its page tables, so it has more
blocks than an exit clears.
-/

namespace NimbleOS

open Pmm

/-! ## clearing blocks -/

/-- The block is marked used before, and free after. -/
def IsFreed (p p' : Pmm) (b : Nat) : Prop := p.isUsed b = true ∧ p'.isUsed b = false

/-- At most `n` blocks are freed, and the counter goes down by `n`. -/
structure Clears (p p' : Pmm) (n : Nat) : Prop where
  blocks : ∃ bs : Finset Nat, bs.card ≤ n ∧ ∀ b, IsFreed p p' b → b ∈ bs
  counter : (p'.usedBlocks + n) % 2 ^ 32 = p.usedBlocks % 2 ^ 32

namespace Clears

theorem refl (p : Pmm) : Clears p p 0 where
  blocks := ⟨∅, Nat.le_refl 0, fun b hb => by
    obtain ⟨hused, hfree⟩ := hb
    rw [hused] at hfree
    cases hfree⟩
  counter := rfl

theorem trans (h : Clears p p' m) (h' : Clears p' p'' n) : Clears p p'' (m + n) where
  blocks := by
    obtain ⟨bs, hcard, hbs⟩ := h.blocks
    obtain ⟨bs', hcard', hbs'⟩ := h'.blocks
    have hle := Finset.card_union_le bs bs'
    refine ⟨bs ∪ bs', by omega, fun b hb => ?_⟩
    obtain ⟨hused, hfree⟩ := hb
    cases hmid : p'.isUsed b with
    | false => exact Finset.mem_union_left _ (hbs b ⟨hused, hmid⟩)
    | true => exact Finset.mem_union_right _ (hbs' b ⟨hmid, hfree⟩)
  counter := by
    have hfirst := h.counter
    have hsecond := h'.counter
    omega

/-- One block. -/
theorem unset (p : Pmm) (b : Nat) : Clears p (mmapUnset p b) 1 where
  blocks := by
    refine ⟨{b}, Nat.le_refl 1, fun c hc => ?_⟩
    obtain ⟨hused, hfree⟩ := hc
    rw [isUsed_mmapUnset, hused, Bool.and_true, decide_eq_false_iff_not, not_not] at hfree
    exact Finset.mem_singleton.mpr hfree
  counter := by
    show (u32Sub p.usedBlocks 1 + 1) % 2 ^ 32 = p.usedBlocks % 2 ^ 32
    unfold u32Sub
    omega

theorem unsetBlocks (p : Pmm) (first num : Nat) : Clears p (mmapUnsetBlocks p first num) num := by
  induction num with
  | zero => exact refl p
  | succ num ih =>
      rw [mmapUnsetBlocks_succ]
      exact ih.trans (unset _ _)

end Clears

/-- An exit clears as many blocks as the code and the stack of the process have, and one. -/
theorem procFreeSpace_clears {k k' : Kernel} (h : procFreeSpace k p = .ok k') :
    Clears k.vm.pmm k'.vm.pmm (p.codeLen + p.stackLen + 1) := by
  obtain ⟨code, stack, pd, rfl⟩ := procFreeSpace_of_ok h
  exact ((Clears.unsetBlocks _ _ _).trans (.unsetBlocks _ _ _)).trans (.unset _ _)

/-! ## the blocks of a process -/

/-- The blocks that these allocations took. -/
def allBlocks (es : List Alloc) : Finset Nat := es.foldr (fun e bs => e.blocks ∪ bs) ∅

theorem mem_allBlocks {es : List Alloc} : b ∈ allBlocks es ↔ ∃ e ∈ es, b ∈ e.blocks := by
  induction es with
  | nil => simp [allBlocks]
  | cons e es ih =>
      rw [allBlocks, List.foldr_cons, Finset.mem_union, List.exists_mem_cons_iff, ← ih]
      rfl

/-- Disjoint allocations took as many blocks as all of them together. -/
theorem card_allBlocks {es : List Alloc}
    (h : es.Pairwise fun e e' => Disjoint e.blocks e'.blocks) :
    (allBlocks es).card = (es.map fun e => e.blocks.card).sum := by
  induction h with
  | nil => rfl
  | @cons e es hhead _ ih =>
      rw [List.map_cons, List.sum_cons, ← ih]
      refine Finset.card_union_of_disjoint (Finset.disjoint_left.mpr fun b hb hrest => ?_)
      obtain ⟨e', he', hb'⟩ := mem_allBlocks.mp hrest
      exact Finset.disjoint_left.mp (hhead e' he') hb hb'

theorem card_blocksFrom (a n : Nat) : (blocksFrom a n).card = n := by
  rw [blocksFrom, Nat.card_Ico, Nat.add_sub_cancel_left]

theorem card_pages (num a : Nat) : (Alloc.pages num a).blocks.card = num := card_blocksFrom a num

theorem card_directory (a : Nat) : (Alloc.directory a).blocks.card = 1 := card_blocksFrom a 1

/-- The page tables take a block each. -/
theorem sum_card_tables (ts : List (Nat × Nat)) :
    ((ts.map fun (d, a) => Alloc.table d a).map fun e => e.blocks.card).sum = ts.length := by
  induction ts with
  | nil => rfl
  | cons t ts ih =>
      rw [List.map_cons, List.map_cons, List.sum_cons, ih, List.length_cons]
      exact (congrArg (· + ts.length) (card_blocksFrom t.2 1)).trans (Nat.add_comm 1 _)

namespace Space

/-- The blocks that belong to the process. -/
def blocks (o : Space) (len : Nat) : Finset Nat := allBlocks (o.belongings len)

theorem mem_blocks {o : Space} : b ∈ o.blocks len ↔ o.Owns len b := mem_allBlocks

namespace Lives

variable {s : Vm Pmm} {o : Space} (h : o.Lives s len)

include h

/-- Code, stack and directory, and the page tables. -/
theorem card_blocks : (o.blocks len).card =
    numCodePages len + procKernelStackPages + 1 + o.tables.length := by
  rw [blocks, card_allBlocks h.disjoint, belongings, owned, tables]
  simp only [List.map_append, List.sum_append, sum_card_tables, List.map_cons, List.map_nil,
    List.sum_cons, List.sum_nil, card_pages, card_directory, List.length_append]
  omega

/-- There is a page table: that of the first page of code. -/
theorem tables_pos : 0 < o.tables.length := by
  have hfirst := h.space 0 (by decide)
  have hpage : 0 < numCodePages len := Nat.succ_pos _
  rw [if_pos hpage] at hfirst
  have hpresent : isPresent ((s.inDir o.directory).pde 0) = true := by
    cases hslot : isPresent ((s.inDir o.directory).pde 0) with
    | true => rfl
    | false =>
        have hnone : (s.inDir o.directory).tables 0 = none := Vm.tables_of_absent hslot
        rw [hnone] at hfirst
        cases hfirst
  obtain ⟨t, ht, -⟩ := h.pde_low (by decide) hpresent
  exact List.length_pos_of_mem ht

/-- There is at most one for each slot below the kernel. -/
theorem tables_le : o.tables.length ≤ kernelPageDirIndex := by
  have hnodup : (o.tables.map Prod.fst).Nodup := List.pairwise_map.mpr h.distinct
  have hsub : (o.tables.map Prod.fst).toFinset ⊆ Finset.range kernelPageDirIndex := fun d hd => by
    obtain ⟨t, ht, rfl⟩ := List.mem_map.mp (List.mem_toFinset.mp hd)
    exact Finset.mem_range.mpr (h.user t ht).1
  have hcard := Finset.card_le_card hsub
  rwa [List.toFinset_card_of_nodup hnodup, List.length_map, Finset.card_range] at hcard

end Lives

end Space

/-! ## what stays of a process -/

/-- A process without its link and its registers: what no call changes. -/
def Process.fixed (p : Process) : Process := { p with next := 0, registers := procInitialRegisters }

def Kernel.fixedOf (k : Kernel) (a : Nat) : Option Process := (k.processes a).map Process.fixed

theorem Kernel.SameButNext.fixedOf {k k' : Kernel} (h : k.SameButNext k') (a : Nat) :
    k'.fixedOf a = k.fixedOf a :=
  map_eq_of_map_eq (h a) fun _ => rfl

theorem Kernel.SameButSaved.fixedOf {k k' : Kernel} (h : k.SameButSaved k') (a : Nat) :
    k'.fixedOf a = k.fixedOf a :=
  map_eq_of_map_eq (h.processes a) fun _ => rfl

/-- Between creations no process is added. -/
structure Kernel.SameFixed (k k' : Kernel) : Prop where
  heapPointer : k'.heapPointer = k.heapPointer
  fixedOf : ∀ a, k'.fixedOf a = k.fixedOf a

theorem procSwitchProcess_fixed {k k' : Kernel} (h : procSwitchProcess k regs = .ok (k', iret)) :
    k.SameFixed k' := by
  obtain ⟨k₁, old, p, hsave, -, -, -, rfl, -⟩ := procSwitchProcess_of_ok h
  have hsame := procSaveRegisters_same hsave
  exact ⟨hsame.heapPointer, hsame.fixedOf⟩

theorem procFreeSpace_fixed {k k' : Kernel} (h : procFreeSpace k p = .ok k') : k.SameFixed k' := by
  obtain ⟨code, stack, pd, rfl⟩ := procFreeSpace_of_ok h
  exact ⟨rfl, fun _ => rfl⟩

/-- An exit frees, and changes a link. -/
theorem procExitCurrentProcess_of_ok {k k' : Kernel}
    (h : procExitCurrentProcess k fuel = .ok (k', iret)) : ∃ p k₁, k.processes k.currentProcess = some p ∧
      procFreeSpace k p = .ok k₁ ∧ k'.vm.pmm = k₁.vm.pmm ∧ k.SameFixed k' := by
  rw [procExitCurrentProcess_eq] at h
  obtain ⟨k₂, hunlink, h⟩ := bind_eq_ok.mp h
  obtain ⟨_, -, hswitch⟩ := bind_eq_ok.mp h
  rw [procUnlinkCurrent] at hunlink
  cases hp : k.processes k.currentProcess with
  | none =>
      rw [hp] at hunlink
      cases hunlink
  | some p =>
      rw [hp] at hunlink
      obtain ⟨k₁, hfree, hunlink⟩ := bind_eq_ok.mp hunlink
      split at hunlink
      · cases hunlink
      · obtain ⟨l, -, hunlink⟩ := bind_eq_ok.mp hunlink
        cases hunlink
        obtain ⟨k₃, old, q, hsave, -, -, -, rfl, -⟩ := procSwitchProcess_of_ok hswitch
        have hsame := procSaveRegisters_same hsave
        have hfixed := procFreeSpace_fixed hfree
        have hpmm : k₃.vm.pmm = k₁.vm.pmm := congrArg Vm.pmm hsame.vm
        have hheap : k₃.heapPointer = k₁.heapPointer := hsame.heapPointer
        refine ⟨p, k₁, rfl, hfree, hpmm, hheap.trans hfixed.heapPointer, fun a => ?_⟩
        have hlink := (k₁.sameButNext_setNext l p.next).fixedOf a
        exact (hsame.fixedOf a).trans (hlink.trans (hfixed.fixedOf a))

/-- **Step lemma**: a call leaves the processes that are there as they are, and puts a new one
above them. -/
theorem Tracks.fixed_step {k k' : Kernel} (ht : Tracks k h) (hstep : SchedStep k e k') :
    k.heapPointer ≤ k'.heapPointer ∧ ∀ a < k.heapPointer, k'.fixedOf a = k.fixedOf a := by
  have hsame : k.SameFixed k' →
      k.heapPointer ≤ k'.heapPointer ∧ ∀ a < k.heapPointer, k'.fixedOf a = k.fixedOf a :=
    fun h => ⟨Nat.le_of_eq h.heapPointer.symm, fun a _ => h.fixedOf a⟩
  obtain ⟨r, hreturns⟩ := hstep
  cases hreturns with
  | create hprocess hrun =>
      obtain ⟨k₁, stack, pd, hmalloc, hpos, hadds, hinsert⟩ := procRunCode_parts hprocess hrun
      have hheap := (ht.heapPointer_lt hadds hmalloc).1
      refine ⟨(procInsert_same hpos hinsert).heapPointer ▸ Nat.le_of_lt hheap, fun a ha => ?_⟩
      rw [(procInsert_sameButNext hpos hinsert).fixedOf, Kernel.fixedOf, hadds.processes]
      dsimp only
      rw [if_neg (Nat.ne_of_lt ha)]
      rfl
  | switch hrun => exact hsame (procSwitchProcess_fixed hrun)
  | tick hrun =>
      obtain ⟨-, rfl, -⟩ | ⟨iret, -, -, hrun⟩ := procTimerCallback_of_ok hrun
      · exact hsame ⟨rfl, fun _ => rfl⟩
      · exact hsame (procSwitchProcess_fixed hrun)
  | exit hexit =>
      obtain ⟨n, hexit⟩ := hexit
      obtain ⟨p, k₁, -, -, -, hfixed⟩ := procExitCurrentProcess_of_ok (hexit n (Nat.le_refl n))
      exact hsame hfixed

/-- **Run lemma.** -/
theorem Tracks.fixed_run {k k' : Kernel} (ht : Tracks k h) (hrun : Run SchedStep k es k')
    (ha : a < k.heapPointer) : k'.fixedOf a = k.fixedOf a := by
  obtain ⟨-, -, -, hfixed⟩ := hrun.invariant
    (fun k₁ => ∃ h₁, Tracks k₁ h₁ ∧ a < k₁.heapPointer ∧ k₁.fixedOf a = k.fixedOf a)
    (fun _ _ _ hinv hstep => by
      obtain ⟨h₁, ht₁, ha₁, hfixed⟩ := hinv
      obtain ⟨hheap, hsame⟩ := ht₁.fixed_step hstep
      obtain ⟨h₂, -, ht₂⟩ := ht₁.step hstep
      exact ⟨h₂, ht₂, Nat.lt_of_lt_of_le ha₁ hheap, (hsame a ha₁).trans hfixed⟩)
    ⟨h, ht, ha, rfl⟩
  exact hfixed

/-! ## an exit -/

/-- The exit frees these blocks and no others. -/
def FreesExactly (k k' : Kernel) (bs : Finset Nat) : Prop :=
  ∀ b, IsFreed k.vm.pmm k'.vm.pmm b ↔ b ∈ bs

/-- The counter goes down by as many. -/
def CountsExactly (k k' : Kernel) (bs : Finset Nat) : Prop :=
  k'.vm.pmm.usedBlocks = u32Sub k.vm.pmm.usedBlocks bs.card

/-- Fewer blocks are cleared than the process has. -/
theorem Clears.misses {k k' : Kernel} (h : Clears k.vm.pmm k'.vm.pmm n) (hlt : n < bs.card)
    (hle : bs.card < n + 2 ^ 32) (hcard : bs.card < 2 ^ 32) :
    ¬ FreesExactly k k' bs ∧ ¬ CountsExactly k k' bs := by
  refine ⟨fun hfrees => ?_, fun hcounts => ?_⟩
  · obtain ⟨cs, hcs, hmem⟩ := h.blocks
    have hsub : bs ⊆ cs := fun b hb => hmem b ((hfrees b).mpr hb)
    have hle' := Finset.card_le_card hsub
    omega
  · have hcounter := h.counter
    rw [show k'.vm.pmm.usedBlocks = _ from hcounts, u32Sub] at hcounter
    omega

/-- An exit of a process clears as many blocks as its code and its stack have, and one. -/
theorem exit_clears {k k' : Kernel} (hexit : SchedReturns k .exit k' (some iret))
    (hfixed : k.fixedOf k.currentProcess = some q) :
    Clears k.vm.pmm k'.vm.pmm (q.codeLen + q.stackLen + 1) := by
  cases hexit with
  | exit hexit =>
      obtain ⟨n, hexit⟩ := hexit
      obtain ⟨p, k₁, hp, hfree, hpmm, -⟩ := procExitCurrentProcess_of_ok (hexit n (Nat.le_refl n))
      rw [Kernel.fixedOf, hp, Option.map_some] at hfixed
      obtain rfl := Option.some.inj hfixed
      rw [hpmm]
      exact procFreeSpace_clears hfree

/-- **A creation** puts the process at the heap pointer, below the new one. -/
theorem Tracks.creates {k k' : Kernel} (ht : Tracks k h) (hready : k.Ready)
    (hcreate : procRunCode k code len = .ok k') (hsucc : k.vm.Succeeds k'.vm) :
    numCodePages len ≤ stackPage ∧ ∃ o l stack, Built { k.vm with log := l } code len k'.vm o ∧
      k.heapPointer < k'.heapPointer ∧
      k'.fixedOf k.heapPointer = some (newProcess k.nextPid len stack o.directory) := by
  obtain ⟨hend, k₁, o, l, hbuilt, hadds, hinsert, hnext⟩ := procRunCode_created hready hcreate hsucc
  have hprocess := process_ne_zero hcreate hsucc
  have hmalloc := (kmalloc_of_ne_zero k hprocess).2.1
  have hpos : k.heapPointer ≠ 0 := hmalloc ▸ hprocess
  rw [hmalloc] at hadds hinsert
  have hheap := (ht.heapPointer_lt hadds hmalloc).1
  have hsame : k'.heapPointer = k₁.heapPointer := (procInsert_same hpos hinsert).heapPointer
  refine ⟨hend, o, l, (kmalloc (kmalloc k sizeofProcess).2 pageSize).1, hbuilt, hsame ▸ hheap, ?_⟩
  rw [hnext.fixedOf, Kernel.fixedOf, hadds.processes]
  dsimp only
  rw [if_pos rfl]
  rfl

theorem exit_misses {k₀ k₁ k₂ k₃ : Kernel} (ht : Tracks k₀ h) (hready : k₀.Ready)
    (hcreate : procRunCode k₀ code len = .ok k₁) (hsucc : k₀.vm.Succeeds k₁.vm)
    (hrun : Run SchedStep k₁ es k₂) (hcurrent : k₂.currentProcess = k₀.heapPointer)
    (hexit : SchedReturns k₂ .exit k₃ (some iret)) :
    ∃ o l, Built { k₀.vm with log := l } code len k₁.vm o ∧
      ¬ FreesExactly k₂ k₃ (o.blocks len) ∧ ¬ CountsExactly k₂ k₃ (o.blocks len) := by
  -- the process is at the old heap pointer
  obtain ⟨hend, o, l, stack, hbuilt, hbelow, hnew⟩ := ht.creates hready hcreate hsucc
  have hlives := hbuilt.lives hready.sane hend
  refine ⟨o, l, hbuilt, ?_⟩
  obtain ⟨-, ht₁⟩ := ht.create (process_ne_zero hcreate hsucc) hcreate
  have hfixed := (ht₁.fixed_run hrun hbelow).trans hnew
  have hclears := exit_clears hexit (hcurrent ▸ hfixed)
  -- and it has a page table
  have hcard := hlives.card_blocks
  have hpos := hlives.tables_pos
  have hle := hlives.tables_le
  have hpages : numCodePages len ≤ 2 ^ 20 := by
    unfold stackPage at hend
    omega
  have hslots : kernelPageDirIndex = 768 := rfl
  have hstack : procKernelStackPages = 10 := rfl
  have hsizes : (newProcess k₀.nextPid len stack o.directory).codeLen +
      (newProcess k₀.nextPid len stack o.directory).stackLen + 1 =
        numCodePages len + procKernelStackPages + 1 := rfl
  rw [hsizes] at hclears
  exact hclears.misses (by omega) (by omega) (by omega)

/-- **Exits give back too little**: whatever happens between the creation of a process and its
exit, the blocks that the exit frees are not those of the process, and the counter does not go
down by their number. -/
theorem exit_never_frees_exactly {s : Vm Pmm} {k₀ k₁ k₂ k₃ : Kernel}
    (hrun₀ : Run SchedStep (bootKernel s esp0) es₀ k₀) (hready : k₀.Ready)
    (hcreate : procRunCode k₀ code len = .ok k₁) (hsucc : k₀.vm.Succeeds k₁.vm)
    (hrun : Run SchedStep k₁ es k₂) (hcurrent : k₂.currentProcess = k₀.heapPointer)
    (hexit : SchedReturns k₂ .exit k₃ (some iret)) :
    ∃ o l, Built { k₀.vm with log := l } code len k₁.vm o ∧
      ¬ FreesExactly k₂ k₃ (o.blocks len) ∧ ¬ CountsExactly k₂ k₃ (o.blocks len) := by
  obtain ⟨h, -, ht⟩ :=
    Run.simulate Tracks (fun _ _ e _ ht hstep => ht.step (e := e) hstep) hrun₀ (tracks_boot s esp0)
  exact exit_misses ht hready hcreate hsucc hrun hcurrent hexit

/-- In a directory that refers to itself an exit can read what it frees. -/
theorem procFreeSpace_eq {k : Kernel} (hself : SelfMapped k.vm.mem k.vm.cr3) (p : Process) :
    procFreeSpace k p = .ok { k with vm := { k.vm with
      pmm := pmmFreePage (pmmFreePages (pmmFreePages k.vm.pmm (pageFrame (k.vm.pde 0)) p.codeLen)
        (pageFrame (k.vm.pde 767)) p.stackLen) (pageFrame (k.vm.pde 1023)) } } := by
  have hload : ∀ i < pageEntries, k.vm.loadWord (dirEntry i) = .ok (k.vm.pde i) := fun _ hi =>
    Vm.loadWord_dirEntry hself hi
  rw [procFreeSpace, hload 0 (by decide), hload 767 (by decide), hload 1023 (by decide)]
  rfl

theorem procFreeSpace_returns {k : Kernel} (hself : SelfMapped k.vm.mem k.vm.cr3) (p : Process) :
    ∃ k', procFreeSpace k p = .ok k' := ⟨_, procFreeSpace_eq hself p⟩

/-- Two processes, the second of which is entered and exits. -/
theorem twoExit : ∃ s₀ k₁ k k₂ k₃ iret, pagingInit bootVm 0x100000 = .ok s₀ ∧
    procRunCode (bootKernel s₀ 0) (fun _ => 0x90) 128 = .ok k₁ ∧
    (bootKernel s₀ 0).vm.Succeeds k₁.vm ∧ k₁.Ready ∧
    procRunCode k₁ (fun _ => 0x90) 128 = .ok k ∧ k₁.vm.Succeeds k.vm ∧
    Run SchedStep k [.switch none] k₂ ∧ k₂.currentProcess = k₁.heapPointer ∧
    SchedReturns k₂ .exit k₃ (some iret) := by
  obtain ⟨s₀, k₁, k, ds, hinit, hsucc, hrun₁, hsucc₁, hrun, hsucc', hspaces₂⟩ := twoCreated
  have hspaces := (pagingInit_booted bootVm_boot hinit hsucc).spaces 0
  obtain ⟨d₁, hspaces₁⟩ := hspaces.create hrun₁ hsucc₁
  obtain ⟨hring, -⟩ := ringAt_pair s₀ 0 hrun₁ hsucc₁ hrun hsucc'
  obtain ⟨k₂, iret, hswitch, hring₂, -⟩ :=
    hring.switch (List.cons_ne_nil _ _) (hspaces₂.loads _) none
  change RingAt k₂ [k₁.heapPointer, kernelHeapBaseVirt] at hring₂
  have hspaces₃ := hspaces₂.schedule hswitch
  have hself := (hspaces₃.ready hspaces₃.process).wf.self
  obtain ⟨p, hp⟩ := hring₂.process_some List.mem_cons_self
  obtain ⟨k', hfree⟩ := procFreeSpace_returns hself p
  obtain ⟨k₃, iret', hexit, -⟩ := hring₂.exit hp hfree (hspaces₃.loads _)
  exact ⟨s₀, k₁, k, k₂, k₃, iret', hinit, hrun₁, hsucc₁, hspaces₁.ready hspaces₁.process, hrun, hsucc',
    .single ⟨some iret, .switch hswitch⟩, hring₂.current, .exit ⟨2, fun fuel hfuel => hexit fuel hfuel⟩⟩

theorem exit_never_frees_exactly_nops : ∃ s₀ k₁ k k₂ k₃ iret o l,
    pagingInit bootVm 0x100000 = .ok s₀ ∧
    procRunCode (bootKernel s₀ 0) (fun _ => 0x90) 128 = .ok k₁ ∧
    procRunCode k₁ (fun _ => 0x90) 128 = .ok k ∧ Run SchedStep k [.switch none] k₂ ∧
    SchedReturns k₂ .exit k₃ (some iret) ∧
    Built { k₁.vm with log := l } (fun _ => 0x90) 128 k.vm o ∧
      ¬ FreesExactly k₂ k₃ (o.blocks 128) ∧ ¬ CountsExactly k₂ k₃ (o.blocks 128) := by
  obtain ⟨s₀, k₁, k, k₂, k₃, iret, hinit, hrun₁, hsucc₁, hready, hrun, hsucc, hruns, hcurrent,
    hexit⟩ := twoExit
  have hstep : SchedStep (bootKernel s₀ 0) _ k₁ :=
    ⟨none, .create (process_ne_zero hrun₁ hsucc₁) hrun₁⟩
  obtain ⟨o, l, hmisses⟩ := exit_never_frees_exactly (.single hstep) hready hrun hsucc
    hruns hcurrent hexit
  exact ⟨s₀, k₁, k, k₂, k₃, iret, o, l, hinit, hrun₁, hrun, hruns, hexit, hmisses⟩

/-- The second of two processes has one page of code: its exit does not free the blocks of the
process. -/
theorem exit_leaves_blocks : ∃ s₀ k₁ k k₂ k₃ iret o l,
    pagingInit bootVm 0x100000 = .ok s₀ ∧
    procRunCode (bootKernel s₀ 0) (fun _ => 0x90) 128 = .ok k₁ ∧
    procRunCode k₁ (fun _ => 0x90) 128 = .ok k ∧ Run SchedStep k [.switch none] k₂ ∧
    k₂.currentProcess = k₁.heapPointer ∧ SchedReturns k₂ .exit k₃ (some iret) ∧
    Built { k₁.vm with log := l } (fun _ => 0x90) 128 k.vm o ∧
      ¬ (FreesExactly k₂ k₃ (o.blocks 128) ∧ CountsExactly k₂ k₃ (o.blocks 128)) := by
  obtain ⟨s₀, k₁, k, k₂, k₃, iret, hinit, hrun₁, hsucc₁, hready, hrun, hsucc, hruns, hcurrent,
    hexit⟩ := twoExit
  obtain ⟨-, ht⟩ := (tracks_boot s₀ 0).create (process_ne_zero hrun₁ hsucc₁) hrun₁
  obtain ⟨o, l, hbuilt, hfrees, -⟩ := exit_misses ht hready hrun hsucc hruns hcurrent hexit
  exact ⟨s₀, k₁, k, k₂, k₃, iret, o, l, hinit, hrun₁, hrun, hruns, hcurrent, hexit, hbuilt,
    fun hexactly => hfrees hexactly.1⟩

end NimbleOS
