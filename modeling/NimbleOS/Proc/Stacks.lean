import NimbleOS.Proc.Ring

/-!
# NimbleOS.Proc.Stacks

The kernel stacks.  `proc_run_code` takes a process structure and a page for the stack from
the kernel heap, which nothing gives back, and it does not look at the second answer.  As long
as the heap lasts, the stacks and the structures are disjoint, and an interrupt of a process
pushes to the stack of that process; the first process for which it does not last has its
stack in page 0, which is the code of whatever process runs.
-/

namespace NimbleOS

/-! ## what is taken from the heap -/

/-- What one process takes. -/
def stackStride : Nat := sizeofProcess + pageSize

/-- The processes that the heap lasts for. -/
def maxStacks : Nat := (kernelHeapEndVirt - kernelHeapBaseVirt - 1) / stackStride

/-- The kernel stack of the process at an address. -/
def Kernel.stackOf (k : Kernel) (a : Nat) : Option Nat := (k.processes a).map Process.kernelStack

/-- The page that ends with `kernel_stack`. -/
def Process.StackPage (p : Process) (x : Nat) : Prop := p.kernelStack < x + pageSize ∧ x ≤ p.kernelStack

def SchedEvent.isCreate : SchedEvent → Bool
  | .create .. => true
  | _ => false

/-- Every stack is a page of the heap that has nothing of any process structure, and nothing of
another stack. -/
structure Kernel.StacksOwn (k : Kernel) : Prop where
  heap : ∀ a p x, k.processes a = some p → p.StackPage x →
    kernelHeapBaseVirt ≤ x ∧ x < kernelHeapEndVirt
  structures : ∀ a p b q x, k.processes a = some p → k.processes b = some q → p.StackPage x →
    ¬ (b ≤ x ∧ x < b + sizeofProcess)
  disjoint : ∀ a p b q x, k.processes a = some p → k.processes b = some q → a ≠ b →
    p.StackPage x → ¬ q.StackPage x

/-- What the processor pushes on the stack of the TSS, up to 1023 words, goes to the stack of
the current process. -/
def Kernel.PushesToOwn (k : Kernel) : Prop :=
  ∃ p, k.processes k.currentProcess = some p ∧
    ∀ x, k.esp0 ≤ x + 4 * 1023 → x < k.esp0 → p.StackPage x

/-! ## one event -/

/-- No stack and no heap is taken. -/
structure Kernel.SameStacks (k k' : Kernel) : Prop where
  heapPointer : k'.heapPointer = k.heapPointer
  stackOf : ∀ a, k'.stackOf a = k.stackOf a

theorem Kernel.SameStacks.trans {k k' k'' : Kernel} (h : k.SameStacks k') (h' : k'.SameStacks k'') :
    k.SameStacks k'' :=
  ⟨h'.heapPointer.trans h.heapPointer, fun a => (h'.stackOf a).trans (h.stackOf a)⟩

theorem Kernel.SameButNext.stackOf {k k' : Kernel} (h : k.SameButNext k') (a : Nat) :
    k'.stackOf a = k.stackOf a :=
  map_eq_of_map_eq (h a) fun _ => rfl

theorem procSwitchProcess_sameStacks {k k' : Kernel} (h : procSwitchProcess k regs = .ok (k', iret)) :
    k.SameStacks k' := by
  obtain ⟨k₁, old, p, hsave, -, -, -, rfl, -⟩ := procSwitchProcess_of_ok h
  have hsame := procSaveRegisters_same hsave
  exact ⟨hsame.heapPointer, fun a => map_eq_of_map_eq (hsame.processes a) fun _ => rfl⟩

theorem procUnlinkCurrent_sameStacks {k k' : Kernel} (h : procUnlinkCurrent k fuel = .ok k') :
    k.SameStacks k' := by
  rw [procUnlinkCurrent] at h
  cases hp : k.processes k.currentProcess with
  | none =>
      rw [hp] at h
      cases h
  | some p =>
      rw [hp] at h
      obtain ⟨k₁, hfree, h⟩ := bind_eq_ok.mp h
      obtain ⟨code, stack, pd, rfl⟩ := procFreeSpace_of_ok hfree
      split at h
      · cases h
      · obtain ⟨l, -, h⟩ := bind_eq_ok.mp h
        obtain rfl := Except.ok.inj h
        exact ⟨rfl, fun a => (Kernel.sameButNext_setNext _ l p.next).stackOf a⟩

/-- Only a creation takes a stack. -/
theorem schedReturns_sameStacks {k k' : Kernel} (h : SchedReturns k e k' r)
    (he : e.isCreate = false) : k.SameStacks k' := by
  cases h with
  | create => cases he
  | switch hrun => exact procSwitchProcess_sameStacks hrun
  | tick hrun =>
      rcases procTimerCallback_of_ok hrun with ⟨-, rfl, -⟩ | ⟨iret, -, -, hswitch⟩
      · exact ⟨rfl, fun _ => rfl⟩
      · exact procSwitchProcess_sameStacks hswitch
  | exit hexit =>
      obtain ⟨n, hexit⟩ := hexit
      have hrun := hexit n (Nat.le_refl n)
      rw [procExitCurrentProcess_eq] at hrun
      obtain ⟨k₁, hunlink, hrun⟩ := bind_eq_ok.mp hrun
      obtain ⟨pids, -, hswitch⟩ := bind_eq_ok.mp hrun
      exact (procUnlinkCurrent_sameStacks hunlink).trans (procSwitchProcess_sameStacks hswitch)

/-- What a creation that returns has taken: the structure at the heap pointer, and what the
second `kmalloc` answered. -/
theorem procRunCode_stackOf {k k' : Kernel} (hne : (kmalloc k sizeofProcess).1 ≠ 0)
    (h : procRunCode k code len = .ok k') :
    k'.heapPointer = (kmalloc (kmalloc k sizeofProcess).2 pageSize).2.heapPointer ∧
      ∀ a, k'.stackOf a = if a = k.heapPointer then
        some (u32 ((kmalloc (kmalloc k sizeofProcess).2 pageSize).1 + pageSize - 1))
      else k.stackOf a := by
  have haddr := kmalloc_of_ne_zero k hne
  have hsame := (kmalloc_same k sizeofProcess).trans
    (kmalloc_same (kmalloc k sizeofProcess).2 pageSize)
  rw [procRunCode] at h
  generalize kmalloc k sizeofProcess = r at *
  obtain ⟨process, k₁⟩ := r
  dsimp only at h haddr hsame hne ⊢
  generalize kmalloc k₁ pageSize = r at *
  obtain ⟨stack, k₂⟩ := r
  dsimp only at h hsame ⊢
  obtain ⟨⟨pd, vm⟩, -, h⟩ := bind_eq_ok.mp h
  dsimp only at h
  rw [Kernel.storeProcess_of_ne _ hne] at h
  obtain ⟨-, rfl, -⟩ := haddr
  refine ⟨(procInsert_same hne h).heapPointer, fun a => ?_⟩
  rw [(procInsert_sameButNext hne h).stackOf, Kernel.stackOf, Kernel.stackOf]
  show Option.map _ (if a = k.heapPointer then _ else k₂.processes a) = _
  rw [hsame.processes]
  split <;> rfl

/-! ## runs -/

/-- The address of the `i`-th process. -/
def processAt (i : Nat) : Nat := kernelHeapBaseVirt + stackStride * i

/-- The heap after `n` creations. -/
structure StacksInv (k : Kernel) (n : Nat) : Prop where
  heap : n ≤ maxStacks → k.heapPointer = processAt n
  own : n ≤ maxStacks → ∀ a x, k.stackOf a = some x →
    ∃ i < n, a = processAt i ∧ x = processAt (i + 1) - 1
  low : kernelHeapBaseVirt ≤ k.heapPointer ∧ k.heapPointer < kernelHeapEndVirt
  full : maxStacks < n → ∃ a < k.heapPointer, k.stackOf a = some 4095

theorem StacksInv.same {k k' : Kernel} (h : StacksInv k n) (hsame : k.SameStacks k') :
    StacksInv k' n where
  heap := fun hn => hsame.heapPointer.trans (h.heap hn)
  own := fun hn a x hx => h.own hn a x (hsame.stackOf a ▸ hx)
  low := by rw [hsame.heapPointer]; exact h.low
  full := fun hn => by
    obtain ⟨a, ha, hx⟩ := h.full hn
    exact ⟨a, hsame.heapPointer ▸ ha, (hsame.stackOf a).trans hx⟩

/-- The two requests of a creation, in numbers. -/
theorem kmalloc_twice (k : Kernel) (hlow : kernelHeapBaseVirt ≤ k.heapPointer)
    (hlt : k.heapPointer < kernelHeapEndVirt) (hne : (kmalloc k sizeofProcess).1 ≠ 0) :
    let r := kmalloc (kmalloc k sizeofProcess).2 pageSize
    k.heapPointer + stackStride < kernelHeapEndVirt ∧
        r.2.heapPointer = k.heapPointer + stackStride ∧
        u32 (r.1 + pageSize - 1) = k.heapPointer + stackStride - 1 ∨
      kernelHeapEndVirt ≤ k.heapPointer + stackStride ∧ k.heapPointer < r.2.heapPointer ∧
        r.2.heapPointer < kernelHeapEndVirt ∧ u32 (r.1 + pageSize - 1) = 4095 := by
  intro r
  obtain ⟨hroom, -, hnew⟩ := kmalloc_of_ne_zero k hne
  have hend : kernelHeapEndVirt = 0xD0400000 := rfl
  have hbase : kernelHeapBaseVirt = 0xD0000000 := rfl
  have hstride : stackStride = 4196 := rfl
  have hsize : sizeofProcess = 100 := rfl
  have hpage : pageSize = 4096 := rfl
  have hr : r = kmalloc (kmalloc k sizeofProcess).2 pageSize := rfl
  rw [u32_of_lt (by omega)] at hroom hnew
  rw [kmalloc, hnew, u32_of_lt (by omega)] at hr
  split at hr
  · rw [hr]
    refine .inr ⟨by omega, ?_, ?_, (by decide : u32 (0 + pageSize - 1) = 4095)⟩
    · show _ < k.heapPointer + sizeofProcess
      omega
    · show k.heapPointer + sizeofProcess < _
      omega
  · rw [hr]
    refine .inl ⟨by omega, ?_, ?_⟩
    · show k.heapPointer + sizeofProcess + pageSize = _
      omega
    · show u32 (k.heapPointer + sizeofProcess + pageSize - 1) = _
      rw [u32_of_lt (by omega)]
      omega

theorem processAt_lt_iff (n : Nat) : processAt n < kernelHeapEndVirt ↔ n ≤ maxStacks := by
  have hend : kernelHeapEndVirt = 0xD0400000 := rfl
  have hbase : kernelHeapBaseVirt = 0xD0000000 := rfl
  have hstride : stackStride = 4196 := rfl
  have hmax : maxStacks = 999 := rfl
  rw [processAt, hstride]
  omega

theorem processAt_succ (n : Nat) : processAt (n + 1) = processAt n + stackStride := by
  rw [processAt, processAt, Nat.mul_succ, Nat.add_assoc]

/-- **Step lemma**: one creation more. -/
theorem StacksInv.create {k k' : Kernel} (h : StacksInv k n)
    (hne : (kmalloc k sizeofProcess).1 ≠ 0) (hrun : procRunCode k code len = .ok k') :
    StacksInv k' (n + 1) := by
  obtain ⟨hheap, hstack⟩ := procRunCode_stackOf hne hrun
  obtain ⟨hlow, hlt⟩ := h.low
  rcases kmalloc_twice k hlow hlt hne with ⟨hroom, hnew, hpage⟩ | ⟨hroom, hmore, hend, hpage⟩
  · rw [hnew] at hheap
    rw [hpage] at hstack
    refine ⟨fun hn => ?_, fun hn a x hx => ?_, by omega, fun hn => ?_⟩
    · rw [hheap, processAt_succ, h.heap (by omega)]
    · rw [hstack] at hx
      split at hx
      · rename_i ha
        have hhp := h.heap (by omega)
        refine ⟨n, Nat.lt_succ_self n, ha.trans hhp, ?_⟩
        rw [processAt_succ, ← hhp]
        exact (Option.some.inj hx).symm
      · obtain ⟨i, hi, hax⟩ := h.own (by omega) a x hx
        exact ⟨i, Nat.lt_succ_of_lt hi, hax⟩
    · by_cases hmax : n ≤ maxStacks
      · -- there was room for this one
        rw [h.heap hmax, ← processAt_succ, processAt_lt_iff] at hroom
        omega
      · obtain ⟨a, ha, hx⟩ := h.full (by omega)
        refine ⟨a, by omega, ?_⟩
        rw [hstack, if_neg (by omega), hx]
  · rw [hpage] at hstack
    have hmax : maxStacks < n + 1 := by
      by_contra hn
      have hlt := (processAt_lt_iff (n + 1)).mpr (by omega)
      rw [processAt_succ, ← h.heap (by omega)] at hlt
      omega
    refine ⟨fun hn => by omega, fun hn => by omega, by omega, fun _ => ?_⟩
    exact ⟨k.heapPointer, by omega, (hstack _).trans (if_pos rfl)⟩

/-- **Run lemma.** -/
theorem StacksInv.run {k k' : Kernel} (h : StacksInv k n) (hrun : Run SchedStep k es k') :
    StacksInv k' (n + es.countP SchedEvent.isCreate) := by
  induction hrun generalizing n with
  | nil => exact h
  | @cons k e k₁ es k' hstep _ ih =>
      obtain ⟨r, hreturns⟩ := hstep
      rw [List.countP_cons]
      cases he : e.isCreate with
      | false =>
          have hrest := ih (h.same (schedReturns_sameStacks hreturns he))
          simpa using hrest
      | true =>
          cases hreturns with
          | create hprocess hcreate =>
              have hrest := ih (h.create hprocess hcreate)
              rw [if_pos rfl]
              rwa [Nat.add_assoc, Nat.add_comm 1] at hrest
          | switch | tick | exit => cases he

theorem stacksInv_boot (vm : Vm Pmm) (esp0 : Nat) : StacksInv (bootKernel vm esp0) 0 where
  heap := fun _ => rfl
  own := fun _ a x hx => by cases hx
  low := ⟨Nat.le_refl _, (by decide : kernelHeapBaseVirt < kernelHeapEndVirt)⟩
  full := fun hn => absurd hn (Nat.not_lt_zero _)

/-- As long as the heap lasts, the stacks are their processes' own. -/
theorem StacksInv.stacksOwn {k : Kernel} (h : StacksInv k n) (hn : n ≤ maxStacks) : k.StacksOwn := by
  have hpage : ∀ a p, k.processes a = some p → ∃ i < n, a = processAt i ∧
      ∀ x, p.StackPage x → processAt i + sizeofProcess ≤ x ∧ x < processAt (i + 1) := by
    intro a p hp
    obtain ⟨i, hi, rfl, hx⟩ := h.own hn a p.kernelStack (by rw [Kernel.stackOf, hp]; rfl)
    refine ⟨i, hi, rfl, fun x ⟨hlo, hhi⟩ => ?_⟩
    have hsucc := processAt_succ i
    unfold stackStride at hsucc
    omega
  -- the blocks of two processes are apart
  have hapart : ∀ i j, i < j → processAt (i + 1) ≤ processAt j := by
    intro i j hij
    exact Nat.add_le_add_left (Nat.mul_le_mul_left _ hij) _
  refine ⟨fun a p x hp hx => ?_, fun a p b q x hp hq hx hb => ?_, fun a p b q x hp hq hne hx hy => ?_⟩
  · obtain ⟨i, hi, -, hin⟩ := hpage a p hp
    have hlt := (processAt_lt_iff (i + 1)).mpr (by omega)
    have hbase : kernelHeapBaseVirt ≤ processAt i := Nat.le_add_right _ _
    have := hin x hx
    omega
  · obtain ⟨i, -, -, hin⟩ := hpage a p hp
    obtain ⟨j, -, rfl, -⟩ := hpage b q hq
    have hx := hin x hx
    have hsucc := processAt_succ j
    unfold stackStride at hsucc
    rcases Nat.lt_trichotomy i j with hij | rfl | hij
    · have := hapart i j hij
      omega
    · omega
    · have := hapart j i hij
      omega
  · obtain ⟨i, -, rfl, hin⟩ := hpage a p hp
    obtain ⟨j, -, rfl, hjn⟩ := hpage b q hq
    have hx := hin x hx
    have hy := hjn x hy
    rcases Nat.lt_trichotomy i j with hij | rfl | hij
    · have := hapart i j hij
      omega
    · exact hne rfl
    · have := hapart j i hij
      omega

/-- **Kernel stacks.**  From boot on, after any creations, switches, ticks and exits: every
process has had a stack of its own in the kernel heap exactly if there were at most
`maxStacks` creations; and whatever enters a process, an interrupt of it pushes to the stack
that it has. -/
theorem kernel_stacks_iff (hrun : Run SchedStep (bootKernel vm esp0) es k) :
    (k.StacksOwn ↔ es.countP SchedEvent.isCreate ≤ maxStacks) ∧
      ∀ e k' iret, SchedReturns k e k' (some iret) → k'.PushesToOwn := by
  have h := (stacksInv_boot vm esp0).run hrun
  rw [Nat.zero_add] at h
  refine ⟨⟨fun hown => ?_, h.stacksOwn⟩, fun e k' iret hreturns => ?_⟩
  · by_contra hmany
    obtain ⟨a, -, hx⟩ := h.full (Nat.lt_of_not_le hmany)
    obtain ⟨p, hp, hstack⟩ := Option.map_eq_some_iff.mp hx
    have hpage : p.StackPage 4095 := ⟨by rw [hstack]; decide, Nat.le_of_eq hstack.symm⟩
    exact absurd (hown.heap a p 4095 hp hpage).1 (by decide)
  · obtain ⟨history, -, ht⟩ :=
      Run.simulate Tracks (fun _ _ e _ ht hstep => ht.step (e := e) hstep) hrun (tracks_boot vm esp0)
    obtain ⟨p, hp, -, hesp0, -⟩ := ht.entry hreturns
    refine ⟨p, hp, fun x hlo hhi => ⟨?_, ?_⟩⟩
    · have hpage : pageSize = 4096 := rfl
      omega
    · omega

/-- Two processes. -/
theorem kernel_stacks_iff_nops : ∃ s₀ k, pagingInit bootVm 0x100000 = .ok s₀ ∧
    Run SchedStep (bootKernel s₀ 0) [.create (fun _ => 0x90) 128, .create (fun _ => 0x90) 128] k ∧
      k.StacksOwn := by
  obtain ⟨s₀, k, -, -, -, hinit, hrun, -⟩ := twoRing
  obtain ⟨hown, -⟩ := kernel_stacks_iff hrun
  exact ⟨s₀, k, hinit, hrun, hown.mpr (by decide)⟩

end NimbleOS
