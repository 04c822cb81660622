import NimbleOS.Paging.Rights
import NimbleOS.Proc.Owners
import NimbleOS.Proc.Ring

/-!
# NimbleOS.Proc.Isolated

What the processes can reach.  The frames of a process are those that its directory leads to
below the kernel.  They belong to it alone, and in user mode it gets no further than to those of
its code and its stack.
-/

namespace NimbleOS

open Pmm

/-! ## frames -/

/-- A frame of the process with this directory: the directory, a page table below the kernel,
or a frame that is mapped there. -/
inductive BelongsTo (m : ByteMem) (dir : Nat) : Nat → Prop where
  | directory : BelongsTo m dir dir
  | table : d < kernelPageDirIndex → isPresent (entry m dir d) = true →
      BelongsTo m dir (pageFrame (entry m dir d))
  | page : virt < kernelBaseVirt → translate m dir virt = some (f, flags) → BelongsTo m dir f

/-- In user mode the process reaches the frame. -/
def UserMaps (m : ByteMem) (dir f : Nat) : Prop :=
  ∃ virt flags w, virt < 2 ^ 32 ∧ translate m dir virt = some (f, flags) ∧
    accessRights m dir virt = some (w, true)

/-- The frame is this directory or one of its page tables. -/
def IsTableOf (m : ByteMem) (dir f : Nat) : Prop :=
  f = dir ∨ ∃ j < pageEntries, isPresent (entry m dir j) = true ∧ f = pageFrame (entry m dir j)

/-! ## the frames of an owner -/

/-- A frame of code or stack. -/
def Owner.Page (o : Owner) (b : Nat) : Prop :=
  ∃ num a, Alloc.pages num a ∈ o.space.owned o.len ∧ b ∈ (Alloc.pages num a).blocks

theorem Owner.Page.owns {o : Owner} (h : o.Page b) : o.Owns b := by
  obtain ⟨num, a, hmem, hb⟩ := h
  exact ⟨_, List.mem_append_left _ hmem, hb⟩

namespace Space.Lives

variable {s : Vm Pmm} {o : Space} (h : o.Lives s len)

include h

theorem smallSlot (hd : d < kernelPageDirIndex) : (s.inDir o.directory).SmallSlot d := by
  intro hp
  obtain ⟨t, ht, -, hraw, -⟩ := h.pde_low hd hp
  obtain ⟨halign, hlt⟩ : t.2 % pageSize = 0 ∧ t.2 < 2 ^ 32 :=
    h.aligned _ (Space.table_mem_belongings len ht)
  rw [hraw]
  exact (pdeRaw_fields halign hlt (by decide : MapFlags 6)).2.2.1

/-- Below the kernel the processor finds the pages of code and stack. -/
theorem translate_low (hvirt : virt < kernelBaseVirt) :
    translate s.mem o.directory virt = (s.inDir o.directory).tables (virt / pageSize) :=
  Vm.translate_low h.wf.self (fun _ hd => h.smallSlot hd) hvirt

/-- They are frames of code or stack. -/
theorem page_of_translate (hvirt : virt < kernelBaseVirt)
    (hmap : translate s.mem o.directory virt = some (f, flags)) :
    f % pageSize = 0 ∧
      ∃ num a, Alloc.pages num a ∈ o.owned len ∧ f / pageSize ∈ (Alloc.pages num a).blocks := by
  have hp : virt / pageSize < 0xC0000 := by
    unfold kernelBaseVirt pageSize at *
    omega
  rw [h.translate_low hvirt, h.space _ hp] at hmap
  have hmem : ∀ num a, Alloc.pages num a ∈ o.owned len → a % pageSize = 0 := fun num a hmem =>
    (h.aligned _ (List.mem_append_left _ hmem)).1
  have hblock : ∀ num a i, Alloc.pages num a ∈ o.owned len → i < num →
      (a + i * pageSize) % pageSize = 0 ∧ (a + i * pageSize) / pageSize ∈ (Alloc.pages num a).blocks := by
    intro num a i hmem' hi
    have ha := hmem num a hmem'
    rw [Alloc.blocks, blocksFrom, Finset.mem_Ico]
    unfold pageSize at *
    omega
  have hcode : Alloc.pages (numCodePages len) o.code ∈ o.owned len := by simp [owned]
  have hstack : Alloc.pages procKernelStackPages o.stack ∈ o.owned len := by simp [owned]
  split at hmap
  · next hlt =>
      obtain ⟨rfl, -⟩ := Prod.mk.inj (Option.some.inj hmap)
      obtain ⟨halign, hb⟩ := hblock _ _ _ hcode hlt
      exact ⟨halign, _, _, hcode, hb⟩
  · split at hmap
    · next hle =>
        obtain ⟨rfl, -⟩ := Prod.mk.inj (Option.some.inj hmap)
        have hi : virt / pageSize - stackPage < procKernelStackPages := by
          unfold stackPage procKernelStackPages at *
          omega
        obtain ⟨halign, hb⟩ := hblock _ _ _ hstack hi
        exact ⟨halign, _, _, hstack, hb⟩
    · cases hmap

end Space.Lives

namespace Owners

variable {old : Nat → Prop} {k : Kernel} {os : List Owner} (h : Owners old kd k os)

include h

/-- What belongs to the process is among the blocks of its owner. -/
theorem owns_of_belongs (ho : o ∈ os) (hf : BelongsTo k.vm.mem o.directory f) :
    f % pageSize = 0 ∧ o.Owns (f / pageSize) := by
  have hlives := h.lives o ho
  cases hf with
  | directory => exact ⟨hlives.wf.self.aligned, o.space.owns_directory o.len⟩
  | @table d hd hp =>
      obtain ⟨t, ht, -, -, hframe⟩ := hlives.pde_low hd hp
      rw [Vm.pde_inDir] at hframe
      have howns : o.Owns (t.2 / pageSize) := Space.owns_table o.len ht
      exact ⟨pageFrame_mod _, hframe.symm ▸ howns⟩
  | page hvirt hmap =>
      obtain ⟨halign, hpage⟩ := hlives.page_of_translate hvirt hmap
      exact ⟨halign, Owner.Page.owns hpage⟩

/-- In user mode a process reaches frames of its code and stack only. -/
theorem page_of_userMaps (ho : o ∈ os) (hf : UserMaps k.vm.mem o.directory f) :
    f % pageSize = 0 ∧ o.Page (f / pageSize) := by
  obtain ⟨virt, flags, w, hlt, hmap, hrights⟩ := hf
  have hlives := h.lives o ho
  have hframe := pageFrame_of_aligned hlives.wf.self.aligned
  by_cases hvirt : virt < kernelBaseVirt
  · exact hlives.page_of_translate hvirt hmap
  · -- the entry of the directory is not for user mode
    have hhigh : kernelPageDirIndex ≤ dirIndex virt ∧ dirIndex virt < 1024 := by
      unfold dirIndex kernelPageDirIndex kernelBaseVirt at *
      omega
    have hnot : isUser (entry k.vm.mem o.directory (dirIndex virt)) = false := by
      by_cases hlast : dirIndex virt = 1023
      · rw [hlast]
        have hself : entry k.vm.mem o.directory 1023 = pdeRaw o.directory 0 := hlives.self
        obtain ⟨halign, hlt⟩ : o.directory % pageSize = 0 ∧ o.directory < 2 ^ 32 :=
          hlives.aligned (.directory o.directory) (List.mem_append_right _ (List.mem_singleton_self _))
        rw [hself, (pdeRaw_fields halign hlt (.inl rfl : MapFlags 0)).2.2.2.2]
        rfl
      · have hpresent : isPresent (entry k.vm.mem o.directory (dirIndex virt)) = true := by
          by_contra habs
          rw [translate, show pageFrame o.directory = o.directory from hframe] at hmap
          simp only [Bool.eq_false_iff.mpr habs, Bool.not_false, if_true] at hmap
          cases hmap
        have hsame := h.shared.high o.directory (mem_directory ho) _ hhigh.1 (by omega)
        rw [hsame] at hpresent ⊢
        exact (h.kernel _ (by omega) hpresent).1 hhigh.1
    rw [accessRights, hmap, show pageFrame o.directory = o.directory from hframe, hnot,
      Option.map_some] at hrights
    cases (Prod.mk.inj (Option.some.inj hrights)).2

/-- A frame of code or stack is no directory and no page table. -/
theorem page_not_table (ho : o ∈ os) (hpage : o.Page (f / pageSize)) (halign : f % pageSize = 0)
    (hd : d ∈ kd :: os.map Owner.directory) : ¬ IsTableOf k.vm.mem d f := by
  have howns := hpage.owns
  -- within the process the pages are apart from the directory and the tables
  have hapart : ∀ e, e ∈ o.space.belongings o.len → (∀ num a, e ≠ .pages num a) →
      f / pageSize ∉ e.blocks := by
    intro e he hne hb
    obtain ⟨num, a, hmem, hb'⟩ := hpage
    have hsymm : Std.Symm fun e e' : Alloc => Disjoint e.blocks e'.blocks := ⟨fun _ _ h => h.symm⟩
    have hdisj := (h.lives o ho).disjoint.forall (List.mem_append_left _ hmem) he fun heq =>
      hne num a heq.symm
    exact Finset.disjoint_left.mp hdisj hb' hb
  -- the directories
  have hdir : ∀ d ∈ kd :: os.map Owner.directory, f ≠ d := by
    rintro d hd rfl
    rcases List.mem_cons.mp hd with rfl | hd
    · exact h.fresh o ho _ howns h.old_directory
    · obtain ⟨o', ho', rfl⟩ := List.mem_map.mp hd
      obtain rfl := h.owner_unique ho ho' howns (o'.space.owns_directory o'.len)
      exact hapart (.directory o.directory) (List.mem_append_right _ (List.mem_singleton_self _))
        (fun _ _ heq => by cases heq) (mem_blocks_directory _)
  -- the tables of the kernel directory
  have hkernel : ∀ j < 1023, isPresent (entry k.vm.mem kd j) = true →
      f ≠ pageFrame (entry k.vm.mem kd j) := by
    rintro j hj hp rfl
    exact (h.kernel j hj hp).2 o ho howns
  rintro (rfl | ⟨j, hj, hp, rfl⟩)
  · exact hdir _ hd rfl
  · by_cases hlast : j = 1023
    · subst hlast
      exact hdir d hd (h.shared.wf d hd).self.self
    · have hj' : j < 1023 := by
        unfold pageEntries at hj
        omega
      rcases List.mem_cons.mp hd with rfl | hd'
      · exact hkernel j hj' hp rfl
      · by_cases hlow : j < kernelPageDirIndex
        · obtain ⟨o', ho', rfl⟩ := List.mem_map.mp hd'
          obtain ⟨t, ht, -, -, hframe⟩ := (h.lives o' ho').pde_low hlow hp
          rw [Vm.pde_inDir] at hframe
          have howns' : o'.Owns (t.2 / pageSize) := Space.owns_table o'.len ht
          rw [show entry k.vm.mem o'.directory j = entry k.vm.mem o'.space.directory j from rfl,
            hframe] at howns hapart
          obtain rfl := h.owner_unique ho ho' howns howns'
          exact hapart _ (Space.table_mem_belongings o.len ht) (fun _ _ heq => by cases heq)
            (mem_blocks_table t.1 t.2)
        · have hsame := h.shared.high d hd j (by omega) hj'
          rw [hsame] at hp
          exact hkernel j hj' hp (congrArg pageFrame hsame)

end Owners

/-! ## creations -/

/-- A kernel state in which processes can be created.  The blocks in `reserved` are the kernel's
and those that the existing directories lead to. -/
structure KernelState (reserved : Nat → Prop) (k : Kernel) : Prop where
  sane : k.vm.pmm.Sane
  reserved : ∀ b, reserved b → k.vm.pmm.isUsed b = true
  /-- The current directory refers to itself, and its page tables are in use. -/
  wf : DirWF Pmm.Taken k.vm
  /-- The kernel's half is not for user mode. -/
  kernel : ∀ j, kernelPageDirIndex ≤ j → j < 1023 → isPresent (k.vm.pde j) = true →
    isUser (k.vm.pde j) = false
  closed : translate k.vm.mem k.vm.cr3 kernelHeapEndVirt = none
  current : k.currentProcess ≠ 0 → ∃ p, k.processes k.currentProcess = some p

/-- `paging_init` leaves such a state. -/
theorem Booted.kernelState {s : Vm Pmm} (h : Booted s kd) (esp0 : Nat)
    (hreserved : ∀ b, reserved b → s.pmm.isUsed b = true) :
    KernelState reserved (bootKernel s esp0) where
  sane := h.sane
  reserved := hreserved
  wf := h.wf
  kernel := fun j _ hj _ => h.kernel j hj
  closed := (h.ready esp0).closed
  current := fun hne => absurd rfl hne

/-- A call of `proc_run_code`. -/
structure Creation where
  code : Nat → BitVec 8
  len : Nat

/-- The call returns, and every allocation succeeds. -/
structure CreateStep (k : Kernel) (c : Creation) (k' : Kernel) : Prop where
  run : procRunCode k c.code c.len = .ok k'
  succeeds : k.vm.Succeeds k'.vm

/-- The process at the address was created since `k₀`. -/
structure IsNew (k₀ k : Kernel) (a : Nat) (p : Process) : Prop where
  process : k.processes a = some p
  new : k₀.processes a = none

/-- The processes that were created since `k₀` are isolated from each other, from the kernel
and from everything that was there. -/
structure Isolated (reserved : Nat → Prop) (k₀ k : Kernel) : Prop where
  disjoint : ∀ {a p a' p' f}, IsNew k₀ k a p → IsNew k₀ k a' p' → a ≠ a' →
    BelongsTo k.vm.mem p.directory f → ¬ BelongsTo k.vm.mem p'.directory f
  used : ∀ {a p f}, IsNew k₀ k a p → BelongsTo k.vm.mem p.directory f → k.vm.pmm.Taken f
  fresh : ∀ {a p f}, IsNew k₀ k a p → BelongsTo k.vm.mem p.directory f → ¬ reserved (f / pageSize)
  kernel : ∀ {a p f}, IsNew k₀ k a p → UserMaps k.vm.mem p.directory f →
    ¬ reserved (f / pageSize) ∧ ¬ IsTableOf k.vm.mem k₀.vm.cr3 f
  tables : ∀ {a p a' p' f}, IsNew k₀ k a p → IsNew k₀ k a' p' →
    UserMaps k.vm.mem p.directory f → ¬ IsTableOf k.vm.mem p'.directory f
  others : ∀ {a p a' p' f}, IsNew k₀ k a p → IsNew k₀ k a' p' → a ≠ a' →
    UserMaps k.vm.mem p.directory f → ¬ BelongsTo k.vm.mem p'.directory f

/-- The new processes, with what they own. -/
structure NewOwners (k₀ k : Kernel) (os : List Owner) : Prop where
  owners : Owners (fun b => k₀.vm.pmm.isUsed b = true) k₀.vm.cr3 k os
  current : k.currentProcess ≠ 0 → ∃ p, k.processes k.currentProcess = some p
  listed : ∀ {a p}, IsNew k₀ k a p → ∃ o ∈ os, o.addr = a ∧ p.directory = o.directory

theorem KernelState.newOwners {reserved : Nat → Prop} (h : KernelState reserved k) : NewOwners k k [] where
  owners :=
    { shared :=
        { sane := h.sane
          current := List.mem_singleton_self _
          wf := fun d hd => by
            rw [List.mem_singleton.mp hd]
            exact h.wf
          high := fun d hd j _ _ => by rw [List.mem_singleton.mp hd]
          window := .inl rfl
          closed := h.closed }
      lives := fun _ ho => nomatch ho
      apart := .nil
      old_used := fun _ hb => hb
      old_directory := h.wf.dir_taken
      fresh := fun _ ho => nomatch ho
      kernel := fun j hj hp => ⟨fun hlo => h.kernel j hlo hj hp, fun _ ho => nomatch ho⟩ }
  current := h.current
  listed := fun hnew => by
    have hsome := hnew.process
    rw [hnew.new] at hsome
    cases hsome

namespace NewOwners

/-- **Step lemma**: a creation adds an owner. -/
theorem create {k₀ k k' : Kernel} (h : NewOwners k₀ k os) (hstep : CreateStep k c k') :
    ∃ o, NewOwners k₀ k' (o :: os) := by
  obtain ⟨hend, k₁, o, l, hbuilt, hadds, hinsert, hnext⟩ :=
    procRunCode_created (h.owners.shared.ready h.current) hstep.run hstep.succeeds
  refine ⟨⟨(kmalloc k sizeofProcess).1, o, c.len⟩, h.owners.create hbuilt hend _,
    hadds.current (process_ne_zero hstep.run hstep.succeeds) hinsert hnext h.current, fun {a p} hnew => ?_⟩
  obtain ⟨rfl, hdir⟩ | ⟨-, q, hq, hdir⟩ := hadds.directory hnext hnew.process
  · exact ⟨_, List.mem_cons_self, rfl, hdir⟩
  · obtain ⟨o', ho', haddr, hdir'⟩ := h.listed ⟨hq, hnew.new⟩
    exact ⟨o', List.mem_cons_of_mem _ ho', haddr, hdir.trans hdir'⟩

variable {k₀ k : Kernel} (h : NewOwners k₀ k os)

include h

theorem disjoint (hp : IsNew k₀ k a p) (hp' : IsNew k₀ k a' p') (hne : a ≠ a')
    (hf : BelongsTo k.vm.mem p.directory f) : ¬ BelongsTo k.vm.mem p'.directory f := by
  intro hf'
  obtain ⟨o, ho, rfl, hdir⟩ := h.listed hp
  obtain ⟨o', ho', rfl, hdir'⟩ := h.listed hp'
  rw [hdir] at hf
  rw [hdir'] at hf'
  exact hne (congrArg Owner.addr (h.owners.owner_unique ho ho' (h.owners.owns_of_belongs ho hf).2
    (h.owners.owns_of_belongs ho' hf').2))

/-- What a process reaches in user mode belongs to it. -/
theorem userMaps_page (hp : IsNew k₀ k a p) (hf : UserMaps k.vm.mem p.directory f) :
    ∃ o ∈ os, o.addr = a ∧ f % pageSize = 0 ∧ o.Page (f / pageSize) := by
  obtain ⟨o, ho, haddr, hdir⟩ := h.listed hp
  rw [hdir] at hf
  exact ⟨o, ho, haddr, h.owners.page_of_userMaps ho hf⟩

theorem isolated (hreserved : ∀ b, reserved b → k₀.vm.pmm.isUsed b = true) :
    Isolated reserved k₀ k where
  disjoint := h.disjoint
  used := fun {a p f} hp hf => by
    obtain ⟨o, ho, -, hdir⟩ := h.listed hp
    rw [hdir] at hf
    exact (h.owners.lives o ho).used _ (h.owners.owns_of_belongs ho hf).2
  fresh := fun {a p f} hp hf hb => by
    obtain ⟨o, ho, -, hdir⟩ := h.listed hp
    rw [hdir] at hf
    exact h.owners.fresh o ho _ (h.owners.owns_of_belongs ho hf).2 (hreserved _ hb)
  kernel := fun {a p f} hp hf => by
    obtain ⟨o, ho, -, halign, hpage⟩ := h.userMaps_page hp hf
    exact ⟨fun hb => h.owners.fresh o ho _ hpage.owns (hreserved _ hb),
      h.owners.page_not_table ho hpage halign List.mem_cons_self⟩
  tables := fun {a p a' p' f} hp hp' hf => by
    obtain ⟨o, ho, -, halign, hpage⟩ := h.userMaps_page hp hf
    obtain ⟨o', ho', -, hdir⟩ := h.listed hp'
    exact h.owners.page_not_table ho hpage halign (hdir ▸ Owners.mem_directory ho')
  others := fun {a p a' p' f} hp hp' hne hf hf' => by
    obtain ⟨o, ho, rfl, -, hpage⟩ := h.userMaps_page hp hf
    obtain ⟨o', ho', rfl, hdir⟩ := h.listed hp'
    rw [hdir] at hf'
    exact hne (congrArg Owner.addr
      (h.owners.owner_unique ho ho' hpage.owns (h.owners.owns_of_belongs ho' hf').2))

end NewOwners

/-- **Isolation**: after any successful calls of `proc_run_code`, from any kernel state, the frames
of the new processes are in use and disjoint, and in user mode none of them reaches a page
directory, a page table, a reserved frame or a frame of another. -/
theorem processes_isolated {reserved : Nat → Prop} {k₀ k : Kernel} (h : KernelState reserved k₀)
    (hrun : Run CreateStep k₀ cs k) : Isolated reserved k₀ k := by
  obtain ⟨os, hos⟩ := hrun.invariant (fun k => ∃ os, NewOwners k₀ k os)
    (fun _ _ _ ⟨_, hinv⟩ hstep => by
      obtain ⟨o, hinv'⟩ := hinv.create hstep
      exact ⟨_, hinv'⟩) ⟨[], h.newOwners⟩
  exact hos.isolated h.reserved

/-- Two processes, from boot; reserved is what was in use then. -/
theorem processes_isolated_nops : ∃ s₀ k a p a' p', pagingInit bootVm 0x100000 = .ok s₀ ∧
    Run CreateStep (bootKernel s₀ 0) [⟨fun _ => 0x90, 128⟩, ⟨fun _ => 0x90, 128⟩] k ∧ a ≠ a' ∧
    IsNew (bootKernel s₀ 0) k a p ∧ IsNew (bootKernel s₀ 0) k a' p' ∧
    Isolated (fun b => s₀.pmm.isUsed b = true) (bootKernel s₀ 0) k := by
  obtain ⟨s₀, k₁, k, -, hinit, hsucc, hrun₁, hsucc₁, hrun₂, hsucc₂, -⟩ := twoCreated
  have hstate := (pagingInit_booted bootVm_boot hinit hsucc).kernelState 0 fun _ hb => hb
  have hruns : Run CreateStep (bootKernel s₀ 0) [⟨fun _ => 0x90, 128⟩, ⟨fun _ => 0x90, 128⟩] k :=
    .cons ⟨hrun₁, hsucc₁⟩ (.single ⟨hrun₂, hsucc₂⟩)
  obtain ⟨hring, -⟩ := ringAt_pair s₀ 0 hrun₁ hsucc₁ hrun₂ hsucc₂
  generalize kernelHeapBaseVirt = a at hring
  generalize k₁.heapPointer = b at hring
  have hne : a ≠ b := by
    intro heq
    have hnodup := hring.nodup
    rw [heq] at hnodup
    cases hnodup with
    | cons hnot _ => exact hnot b (List.mem_singleton_self b) rfl
  have hthere : ∀ x ∈ [a, b], ∃ p, IsNew (bootKernel s₀ 0) k x p := by
    intro x hx
    obtain ⟨y, hy⟩ := hring.links.some hx
    obtain ⟨p, hp, -⟩ := Option.map_eq_some_iff.mp hy
    exact ⟨p, hp, rfl⟩
  obtain ⟨p, hp⟩ := hthere a List.mem_cons_self
  obtain ⟨p', hp'⟩ := hthere b (List.mem_cons_of_mem a (List.mem_singleton_self b))
  exact ⟨s₀, k, a, p, b, p', hinit, hruns, hne, hp, hp', processes_isolated hstate hruns⟩

end NimbleOS
