import NimbleOS.Lib.LastWrite
import NimbleOS.Proc.Isolated
import NimbleOS.Proc.Startup

/-!
# NimbleOS.Proc.Private

Processes that write.  In user mode the processor lets a process store wherever both levels of
the page walk allow it.  Such a store changes one byte of the process that runs, and no page
table; so what a process finds at an address is the last byte that it has stored there itself,
and its code stays what `proc_run_code` has loaded.
-/

namespace NimbleOS

open Pmm

/-! ## user mode -/

/-- The byte at a virtual address of the directory. -/
def Vm.byteAt (s : Vm P) (dir virt : Nat) : Option (BitVec 8) := (walk s.mem dir virt).map s.mem

/-- A call of the kernel, or a store of the program of a process. -/
inductive UserEvent where
  | call (e : SchedEvent)
  | store (process virt : Nat) (v : BitVec 8)

def UserEvent.isCreate : UserEvent → Bool
  | .call e => e.isCreate
  | .store .. => false

/-- The calls return, creations with every allocation they make.  A store is carried out if the
process has been entered, and the walk grants user mode write access. -/
inductive UserStep (k : Kernel) : UserEvent → Kernel → Prop where
  | call {k' : Kernel} : SchedReturns k e k' r → (e.isCreate = true → k.vm.Succeeds k'.vm) →
      UserStep k (.call e) k'
  | store : k.processes k.currentProcess = some p → k.vm.cr3 = p.directory → virt < 2 ^ 32 →
      accessRights k.vm.mem k.vm.cr3 virt = some (true, true) →
      walk k.vm.mem k.vm.cr3 virt = some x →
      UserStep k (.store k.currentProcess virt v)
        { k with vm := { k.vm with mem := k.vm.mem.setByte x v } }

/-- What the event stores at an address of the process. -/
def writeTo (process virt : Nat) : UserEvent → Option (Option (BitVec 8))
  | .store a w v => if a = process ∧ w = virt then some (some v) else none
  | .call _ => none

/-- No process is created after an exit. -/
def NoReuse : List UserEvent → Prop
  | [] => True
  | .call .exit :: es => ∀ e ∈ es, e.isCreate = false
  | _ :: es => NoReuse es

theorem NoReuse.tail (h : NoReuse (e :: es)) (he : e ≠ .call .exit) : NoReuse es := by
  cases e with
  | store => exact h
  | call e =>
      cases e with
      | create => exact h
      | switch => exact h
      | tick => exact h
      | exit => exact absurd rfl he

/-! ## the page tables and the frames of the processes -/

/-- The walk looks at the directory and the page tables that it refers to. -/
theorem translate_of_tables {m m' : ByteMem} (hdir : dir % pageSize = 0) (hvirt : virt < 2 ^ 32)
    (h : ∀ f, IsTableOf m dir f → ∀ j < pageEntries, entry m' f j = entry m f j) :
    translate m' dir virt = translate m dir virt := by
  have hslot : dirIndex virt < pageEntries := by
    unfold dirIndex pageEntries
    omega
  have hindex : tableIndex virt < pageEntries := Nat.mod_lt _ (by decide)
  have hpde := h dir (.inl rfl) _ hslot
  simp only [translate, pageFrame_of_aligned hdir, hpde]
  by_cases hp : isPresent (entry m dir (dirIndex virt)) = true
  · rw [h _ (.inr ⟨_, hslot, hp, rfl⟩) _ hindex]
  · rw [Bool.not_eq_true] at hp
    simp only [hp, Bool.not_false, if_true]

theorem walk_eq_some : walk m dir virt = some x ↔
    ∃ f flags, translate m dir virt = some (f, flags) ∧ x = f + virt % pageSize := by
  rw [walk, Option.map_eq_some_iff]
  constructor
  · rintro ⟨⟨f, flags⟩, htrans, heq⟩
    exact ⟨f, flags, htrans, heq.symm⟩
  · rintro ⟨f, flags, htrans, heq⟩
    exact ⟨(f, flags), htrans, heq.symm⟩

/-- A byte of one frame is not in the entries of another. -/
theorem entry_setByte_of_ne (m : ByteMem) (hf : f % pageSize = 0) (hg : g % pageSize = 0)
    (hne : g ≠ f) (ho : o < pageSize) (v : BitVec 8) (hj : j < pageEntries) :
    entry (m.setByte (f + o) v) g j = entry m g j :=
  ByteMem.word_congr fun b hlo hhi => if_neg fun heq => hne (by
    unfold pageEntries pageSize at *
    omega)

namespace Owners

variable {old : Nat → Prop} {k : Kernel} {os : List Owner} (h : Owners old kd k os)

include h

theorem isTableOf_aligned (hd : d ∈ kd :: os.map Owner.directory) (hf : IsTableOf k.vm.mem d f) :
    f % pageSize = 0 := by
  rcases hf with rfl | ⟨j, -, -, rfl⟩
  · exact h.shared.aligned hd
  · exact pageFrame_mod _

/-- **Other memory**: where the directories and their page tables are the same, all is. -/
theorem congr_mem {m' : ByteMem} (hm : ∀ d ∈ kd :: os.map Owner.directory, ∀ f,
      IsTableOf k.vm.mem d f → ∀ j < pageEntries, entry m' f j = entry k.vm.mem f j) :
    Owners old kd { k with vm := { k.vm with mem := m' } } os := by
  have hentry : ∀ d ∈ kd :: os.map Owner.directory, ∀ j < pageEntries,
      entry m' d j = entry k.vm.mem d j := fun d hd => hm d hd d (.inl rfl)
  have hkd : kd ∈ kd :: os.map Owner.directory := List.mem_cons_self
  have hwf : ∀ d ∈ kd :: os.map Owner.directory,
      DirWF Pmm.Taken (({ k.vm with mem := m' } : Vm Pmm).inDir d) := fun d hd =>
    (h.shared.wf d hd).congr rfl (hentry d hd) fun _ hf => hf
  refine { h with shared := ⟨h.shared.sane, h.shared.current, hwf, ?_, ?_, ?_⟩, lives := ?_, kernel := ?_ }
  · intro d hd j hlo hj
    show entry m' d j = entry m' kd j
    rw [hentry d hd j (slot_lt hj), hentry kd hkd j (slot_lt hj)]
    exact h.shared.high d hd j hlo hj
  · refine h.shared.window.imp_right fun hp => ?_
    show isPresent (entry m' kd windowSlot) = true
    rwa [hentry kd hkd _ (by decide)]
  · exact (translate_of_tables (h.shared.aligned hkd) (by decide) (hm kd hkd)).trans h.shared.closed
  · intro o ho
    have hd : o.directory ∈ kd :: os.map Owner.directory := mem_directory ho
    have hlives := h.lives o ho
    have hpde : ∀ j < kernelPageDirIndex, (({ k.vm with mem := m' } : Vm Pmm).inDir o.directory).pde j =
        (k.vm.inDir o.directory).pde j := fun j hj => hentry _ hd j (by
      unfold kernelPageDirIndex kernelBaseVirt pageEntries at *
      omega)
    refine hlives.congr hpde (hentry _ hd 1023 (by decide)) (fun p hp => ?_) (fun _ hb => hb) (hwf _ hd)
    refine hlives.tables_congr hpde (fun t ht j hj => hm _ hd t.2 ?_ j hj) hp
    -- a table of the process is one of the directory
    obtain ⟨hslot, hraw⟩ := hlives.user t ht
    obtain ⟨halign, hlt⟩ : t.2 % pageSize = 0 ∧ t.2 < 2 ^ 32 :=
      hlives.aligned _ (Space.table_mem_belongings o.len ht)
    obtain ⟨-, hpres, -, hframe, -⟩ := pdeRaw_fields halign hlt (by decide : MapFlags 6)
    rw [Vm.pde_inDir] at hraw
    refine .inr ⟨t.1, ?_, hraw.symm ▸ hpres, (hraw.symm ▸ hframe).symm⟩
    unfold kernelPageDirIndex kernelBaseVirt pageEntries at *
    omega
  · intro j hj hp
    have hsame := hentry kd hkd j (slot_lt hj)
    have hp' : isPresent (entry m' kd j) = true := hp
    show (_ → isUser (entry m' kd j) = false) ∧ ∀ o ∈ os, ¬ o.Owns (pageFrame (entry m' kd j) / pageSize)
    rw [hsame] at hp' ⊢
    exact h.kernel j hj hp'

omit h in
/-- The owners are those of the memory. -/
theorem congr_vm {k' : Kernel} (h : Owners old kd k os) (hvm : k'.vm = k.vm) : Owners old kd k' os := by
  obtain ⟨inv, current, wf, high, window, closed⟩ := h.shared
  rw [← hvm] at inv current wf high window closed
  have hlives := h.lives
  have hused := h.old_used
  have hkernel := h.kernel
  rw [← hvm] at hlives hused hkernel
  exact ⟨⟨inv, current, wf, high, window, closed⟩, hlives, h.apart, hused, h.old_directory, h.fresh,
    hkernel⟩

/-- Another of the directories is loaded. -/
theorem inDir (hd : d ∈ kd :: os.map Owner.directory) :
    Owners old kd { k with vm := k.vm.inDir d } os :=
  { h with
    shared := h.shared.inDir hd
    lives := fun o ho =>
      (h.lives o ho).congr (fun _ _ => rfl) rfl (fun _ _ => rfl) (fun _ hb => hb) (h.lives o ho).wf }

/-- The kernel's slots of a process are not for user mode. -/
theorem slot_not_user (ho : o ∈ os) (hlo : kernelPageDirIndex ≤ j) (hj : j < pageEntries)
    (hp : isPresent (entry k.vm.mem o.directory j) = true) :
    isUser (entry k.vm.mem o.directory j) = false := by
  by_cases hlast : j = 1023
  · obtain ⟨halign, hlt⟩ : o.directory % pageSize = 0 ∧ o.directory < 2 ^ 32 :=
      (h.lives o ho).aligned (.directory o.directory)
        (List.mem_append_right _ (List.mem_singleton_self _))
    have hself : entry k.vm.mem o.directory 1023 = pdeRaw o.directory 0 := (h.lives o ho).self
    rw [hlast, hself, (pdeRaw_fields halign hlt (.inl rfl : MapFlags 0)).2.2.2.2]
    rfl
  · have hj' : j < 1023 := by
      unfold pageEntries at hj
      omega
    rw [h.shared.high o.directory (mem_directory ho) j hlo hj'] at hp ⊢
    exact (h.kernel j hj' hp).1 hlo

/-- What user mode gets at is below the kernel. -/
theorem low_of_user (ho : o ∈ os) (hvirt : virt < 2 ^ 32)
    (hrights : accessRights k.vm.mem o.directory virt = some (w, true)) : virt < kernelBaseVirt := by
  by_contra hhigh
  have hslot : kernelPageDirIndex ≤ dirIndex virt ∧ dirIndex virt < pageEntries := by
    unfold dirIndex kernelPageDirIndex kernelBaseVirt pageEntries at *
    omega
  have hdir : o.directory % pageSize = 0 := (h.lives o ho).wf.self.aligned
  rw [accessRights, Option.map_eq_some_iff, pageFrame_of_aligned hdir] at hrights
  obtain ⟨⟨f, flags⟩, htrans, hrights⟩ := hrights
  have hpres : isPresent (entry k.vm.mem o.directory (dirIndex virt)) = true := by
    by_contra habs
    rw [Bool.not_eq_true] at habs
    rw [translate_of_absent (by rw [pageFrame_of_aligned hdir]; exact habs)] at htrans
    cases htrans
  dsimp only at hrights
  rw [h.slot_not_user ho hslot.1 hslot.2 hpres] at hrights
  cases (Prod.mk.inj hrights).2

/-- Below the kernel a process gets at frames of its code and its stack. -/
theorem page_of_walk (ho : o ∈ os) (hvirt : virt < kernelBaseVirt)
    (hwalk : walk k.vm.mem o.directory virt = some x) :
    ∃ f, f % pageSize = 0 ∧ o.Page (f / pageSize) ∧ x = f + virt % pageSize := by
  obtain ⟨f, flags, htrans, rfl⟩ := walk_eq_some.mp hwalk
  obtain ⟨halign, hpage⟩ := (h.lives o ho).page_of_translate hvirt htrans
  exact ⟨f, halign, hpage, rfl⟩

end Owners

/-! ## one address, one byte -/

namespace Space.Lives

variable {s : Vm Pmm} {o : Space} (h : o.Lives s len)

include h

/-- Where the bytes of a process are. -/
theorem walk_low (hvirt : virt < kernelBaseVirt) : walk s.mem o.directory virt =
    if virt / pageSize < numCodePages len then some (o.code + virt)
    else if stackPage ≤ virt / pageSize then some (o.stack + (virt - stackPage * pageSize)) else none := by
  have hp : virt / pageSize < 0xC0000 := by
    unfold kernelBaseVirt pageSize at *
    omega
  rw [walk, h.translate_low hvirt, h.space _ hp]
  unfold pageSize
  split
  · exact congrArg some (show o.code + virt / 4096 * 4096 + virt % 4096 = _ by omega)
  · split
    · refine congrArg some ?_
      show o.stack + (virt / 4096 - stackPage) * 4096 + virt % 4096 = _
      omega
    · rfl

/-- Code is for reading, and the stack for writing too. -/
theorem rights_low (hvirt : virt < kernelBaseVirt) : accessRights s.mem o.directory virt =
    if virt / pageSize < numCodePages len then some (false, true)
    else if stackPage ≤ virt / pageSize then some (true, true) else none := by
  have hp : virt / pageSize < 0xC0000 := by
    unfold kernelBaseVirt pageSize at *
    omega
  have hdir := pageFrame_of_aligned h.wf.self.aligned
  rw [Vm.inDir_cr3] at hdir
  have htrans := h.translate_low hvirt
  have hslot : translate s.mem o.directory virt ≠ none →
      isWritable (entry s.mem o.directory (dirIndex virt)) = true ∧
        isUser (entry s.mem o.directory (dirIndex virt)) = true := by
    intro hsome
    have hpres : isPresent (entry s.mem o.directory (dirIndex virt)) = true := by
      by_contra habs
      rw [Bool.not_eq_true] at habs
      exact hsome (translate_of_absent (by rw [hdir]; exact habs))
    have hlow : dirIndex virt < kernelPageDirIndex := by
      unfold dirIndex kernelPageDirIndex kernelBaseVirt at *
      omega
    obtain ⟨t, ht, -, hraw, -⟩ := h.pde_low hlow hpres
    obtain ⟨halign, hlt⟩ : t.2 % pageSize = 0 ∧ t.2 < 2 ^ 32 :=
      h.aligned _ (table_mem_belongings len ht)
    rw [Vm.pde_inDir] at hraw
    rw [hraw, isWritable_pdeRaw halign (by decide : MapFlags 6),
      (pdeRaw_fields halign hlt (by decide : MapFlags 6)).2.2.2.2]
    exact ⟨rfl, rfl⟩
  rw [htrans, h.space _ hp] at hslot
  rw [accessRights, hdir, htrans, h.space _ hp]
  split
  · rw [if_pos ‹_›] at hslot
    obtain ⟨hwrite, huser⟩ := hslot (Option.some_ne_none _)
    rw [Option.map_some, hwrite, huser]
    rfl
  · rw [if_neg ‹_›] at hslot
    split
    · rw [if_pos ‹_›] at hslot
      obtain ⟨hwrite, huser⟩ := hslot (Option.some_ne_none _)
      rw [Option.map_some, hwrite, huser]
      rfl
    · rfl

/-- Code and stack have no frame in common. -/
theorem code_stack_disjoint : Disjoint (Alloc.pages procKernelStackPages o.stack).blocks
    (Alloc.pages (numCodePages len) o.code).blocks := by
  have hdisj := h.disjoint
  rw [belongings, List.pairwise_append, owned, List.pairwise_append] at hdisj
  exact hdisj.1.2.2 _ (List.mem_append_right _ (List.mem_singleton_self _)) _
    (List.mem_append_right _ (List.mem_singleton_self _))

/-- Two addresses of a process have two bytes. -/
theorem walk_inj (hvirt : virt < kernelBaseVirt) (hvirt' : virt' < kernelBaseVirt)
    (hx : walk s.mem o.directory virt = some x) (hx' : walk s.mem o.directory virt' = some x) :
    virt = virt' := by
  have hcode : o.code % pageSize = 0 := (h.aligned (.pages (numCodePages len) o.code)
    (List.mem_append_left _ (by simp [owned]))).1
  have hstack : o.stack % pageSize = 0 := (h.aligned (.pages procKernelStackPages o.stack)
    (List.mem_append_left _ (by simp [owned]))).1
  -- no byte is in both
  have hboth : ∀ v w, v < kernelBaseVirt → v / pageSize < numCodePages len →
      w < kernelBaseVirt → stackPage ≤ w / pageSize →
      o.code + v ≠ o.stack + (w - stackPage * pageSize) := by
    intro v w hv hv' hw hw' heq
    have hin : (o.code + v) / pageSize ∈ (Alloc.pages (numCodePages len) o.code).blocks := by
      rw [Alloc.blocks, blocksFrom, Finset.mem_Ico]
      unfold pageSize at *
      omega
    have hin' : (o.code + v) / pageSize ∈ (Alloc.pages procKernelStackPages o.stack).blocks := by
      rw [heq, Alloc.blocks, blocksFrom, Finset.mem_Ico]
      unfold stackPage kernelBaseVirt procKernelStackPages pageSize at *
      omega
    exact Finset.disjoint_left.mp h.code_stack_disjoint hin' hin
  rw [h.walk_low hvirt] at hx
  rw [h.walk_low hvirt'] at hx'
  split at hx <;> split at hx'
  · rw [← Option.some.inj hx'] at hx
    exact Nat.add_left_cancel (Option.some.inj hx)
  · split at hx'
    · exact absurd ((Option.some.inj hx).trans (Option.some.inj hx').symm)
        (hboth _ _ hvirt ‹_› hvirt' ‹_›)
    · cases hx'
  · split at hx
    · exact absurd ((Option.some.inj hx').trans (Option.some.inj hx).symm)
        (hboth _ _ hvirt' ‹_› hvirt ‹_›)
    · cases hx
  · split at hx <;> split at hx'
    · have heq := (Option.some.inj hx).trans (Option.some.inj hx').symm
      have hlow : stackPage * pageSize ≤ virt := (Nat.le_div_iff_mul_le (by decide)).mp ‹_›
      have hlow' : stackPage * pageSize ≤ virt' := (Nat.le_div_iff_mul_le (by decide)).mp ‹_›
      omega
    · cases hx'
    · cases hx
    · cases hx

end Space.Lives

namespace Owners

variable {old : Nat → Prop} {k k' : Kernel} {os : List Owner} (h : Owners old kd k os)

include h

/-- A byte is that of one address of one process. -/
theorem walk_unique (ho : o ∈ os) (ho' : o' ∈ os) (hvirt : virt < kernelBaseVirt)
    (hvirt' : virt' < kernelBaseVirt) (hx : walk k.vm.mem o.directory virt = some x)
    (hx' : walk k.vm.mem o'.directory virt' = some x) : o = o' ∧ virt = virt' := by
  obtain ⟨f, hf, hpage, rfl⟩ := h.page_of_walk ho hvirt hx
  obtain ⟨f', hf', hpage', heq⟩ := h.page_of_walk ho' hvirt' hx'
  obtain rfl : f = f' := by
    unfold pageSize at *
    omega
  obtain rfl := h.owner_unique ho ho' hpage.owns hpage'.owns
  exact ⟨rfl, (h.lives o ho).walk_inj hvirt hvirt' hx hx'⟩

/-- **A store** changes one byte of one process, and no page table. -/
theorem store (ho : o ∈ os) (hvirt : virt < kernelBaseVirt)
    (hx : walk k.vm.mem o.directory virt = some x) (v : BitVec 8) :
    Owners old kd { k with vm := { k.vm with mem := k.vm.mem.setByte x v } } os ∧
      ({ k.vm with mem := k.vm.mem.setByte x v } : Vm Pmm).byteAt o.directory virt = some v ∧
      ∀ o' ∈ os, ∀ w < kernelBaseVirt, ¬ (o' = o ∧ w = virt) →
        ({ k.vm with mem := k.vm.mem.setByte x v } : Vm Pmm).byteAt o'.directory w =
          k.vm.byteAt o'.directory w := by
  obtain ⟨f, hf, hpage, rfl⟩ := h.page_of_walk ho hvirt hx
  have hoffset : virt % pageSize < pageSize := Nat.mod_lt _ (by decide)
  have htables : ∀ d ∈ kd :: os.map Owner.directory, ∀ g, IsTableOf k.vm.mem d g →
      ∀ j < pageEntries, entry (k.vm.mem.setByte (f + virt % pageSize) v) g j = entry k.vm.mem g j :=
    fun d hd g hg j hj => entry_setByte_of_ne _ hf (h.isTableOf_aligned hd hg)
      (fun heq => h.page_not_table ho hpage hf hd (heq ▸ hg)) hoffset v hj
  have hwalk : ∀ o' ∈ os, ∀ w < kernelBaseVirt,
      walk (k.vm.mem.setByte (f + virt % pageSize) v) o'.directory w =
        walk k.vm.mem o'.directory w := fun o' ho' w hw => by
    have hd : o'.directory ∈ kd :: os.map Owner.directory := mem_directory ho'
    rw [walk, translate_of_tables (h.shared.aligned hd) (by unfold kernelBaseVirt at hw; omega)
      (htables _ hd), walk]
  refine ⟨h.congr_mem htables, ?_, fun o' ho' w hw hne => ?_⟩
  · rw [Vm.byteAt, hwalk o ho virt hvirt, hx]
    exact congrArg some (if_pos rfl)
  · rw [Vm.byteAt, hwalk o' ho' w hw, Vm.byteAt]
    cases hy : walk k.vm.mem o'.directory w with
    | none => rfl
    | some y =>
        refine congrArg some (if_neg fun heq => hne ?_)
        exact h.walk_unique ho' ho hw hvirt (heq ▸ hy) hx

/-! ### creation -/

variable {o : Space} (hbuilt : Built { k.vm with log := l } code len k'.vm o)
  (hend : numCodePages len ≤ stackPage)

include hbuilt hend

/-- **A creation** leaves the memory of the other processes alone. -/
theorem byteAt_kept (hp : p ∈ os) (hvirt : virt < kernelBaseVirt) :
    k'.vm.byteAt p.directory virt = k.vm.byteAt p.directory virt := by
  have hlives := h.lives p hp
  have hnew : Owners old kd k' (⟨0, o, len⟩ :: os) := h.create hbuilt hend 0
  have hwalk : walk k'.vm.mem p.directory virt = walk k.vm.mem p.directory virt :=
    ((h.lives_kept hbuilt hp).walk_low hvirt).trans (hlives.walk_low hvirt).symm
  rw [Vm.byteAt, hwalk, Vm.byteAt]
  cases hx : walk k.vm.mem p.directory virt with
  | none => rfl
  | some x =>
      obtain ⟨f, hf, hpage, rfl⟩ := h.page_of_walk hp hvirt hx
      refine congrArg some (byte_of_entries (hbuilt.only f hf (hlives.used _ hpage.owns)
        (fun heq => ?_) fun heq => ?_) (Nat.mod_lt _ (by decide)))
      · exact h.page_not_table hp hpage hf h.shared.current (.inl heq)
      · have hp' : p ∈ (⟨0, o, len⟩ :: os : List Owner) := List.mem_cons_of_mem _ hp
        exact hnew.page_not_table hp' hpage hf hnew.shared.current
          (.inr ⟨windowSlot, by decide, hbuilt.present, heq⟩)

/-- And the new process has its code at address 0. -/
theorem byteAt_new (hi : i < len) : k'.vm.byteAt o.directory i = some (code i) := by
  have hlives := hbuilt.lives h.shared.sane hend
  have hpage : i / pageSize < numCodePages len := by
    unfold numCodePages pageSize
    omega
  have hvirt : i < kernelBaseVirt := by
    unfold numCodePages stackPage kernelBaseVirt pageSize at *
    omega
  rw [Vm.byteAt, hlives.walk_low hvirt, if_pos hpage]
  exact congrArg some (hbuilt.bytes i hi)

end Owners

/-! ## one event -/

/-- The kernel with another physical memory manager. -/
def Kernel.withPmm (k : Kernel) (p : Pmm) : Kernel := { k with vm := { k.vm with pmm := p } }

/-- The processes are those of the owners `os`.  `p` is the physical memory manager as it was
before the first exit: an exit frees the frames of a process, which stay what they are until a
creation takes them. -/
structure Homes (old : Nat → Prop) (kd : Nat) (k : Kernel) (p : Pmm) (os : List Owner) : Prop where
  tracks : ∃ h, Tracks k h
  owners : Owners old kd (k.withPmm p) os
  listed : ∀ a q, k.processes a = some q →
    a < k.heapPointer ∧ ∃ o ∈ os, o.addr = a ∧ q.directory = o.directory

/-- Every process keeps its directory, and its memory but for what the events store. -/
def Kernel.Keeps (k : Kernel) (es : List UserEvent) (k' : Kernel) : Prop :=
  ∀ a q, k.processes a = some q → (∃ q', k'.processes a = some q' ∧ q'.directory = q.directory) ∧
    ∀ virt < kernelBaseVirt, k'.vm.byteAt q.directory virt =
      (LastWrite.last (writeTo a virt) es).getD (k.vm.byteAt q.directory virt)

theorem Kernel.Keeps.nil (k : Kernel) : k.Keeps [] k :=
  fun _ q hq => ⟨⟨q, hq, rfl⟩, fun _ _ => rfl⟩

theorem Kernel.Keeps.cons {k k' k'' : Kernel} (h : k.Keeps [e] k') (h' : k'.Keeps es k'') :
    k.Keeps (e :: es) k'' := by
  intro a q hq
  obtain ⟨⟨q', hq', hdir⟩, hbytes⟩ := h a q hq
  obtain ⟨⟨q'', hq'', hdir'⟩, hbytes'⟩ := h' a q' hq'
  refine ⟨⟨q'', hq'', hdir'.trans hdir⟩, fun virt hvirt => ?_⟩
  have hfirst := hbytes virt hvirt
  have hrest := hbytes' virt hvirt
  rw [hdir] at hrest
  rw [LastWrite.last_cons] at hfirst
  rw [hrest, hfirst, LastWrite.last_cons]
  cases LastWrite.last (writeTo a virt) es <;> rfl

/-- One event. -/
theorem Kernel.Keeps.single {k k' : Kernel} (h : ∀ a q, k.processes a = some q →
      (∃ q', k'.processes a = some q' ∧ q'.directory = q.directory) ∧
        ∀ virt < kernelBaseVirt, k'.vm.byteAt q.directory virt =
          (writeTo a virt e).getD (k.vm.byteAt q.directory virt)) : k.Keeps [e] k' := by
  intro a q hq
  obtain ⟨hthere, hbytes⟩ := h a q hq
  refine ⟨hthere, fun virt hvirt => ?_⟩
  rw [LastWrite.last_cons, hbytes virt hvirt]
  rfl

namespace Homes

variable {old : Nat → Prop} {k k' : Kernel} {p : Pmm} {os : List Owner}

/-- The current process is there. -/
theorem current (h : Homes old kd k p os) :
    k.currentProcess ≠ 0 → ∃ q, k.processes k.currentProcess = some q := by
  intro hne
  obtain ⟨history, ht⟩ := h.tracks
  obtain ⟨a, xs, hxs⟩ := List.exists_cons_of_ne_nil (mt ht.ring.nil_iff.mpr hne)
  obtain ⟨q, -, hcurrent, hq, -⟩ := (hxs ▸ ht.ring).head
  exact ⟨q, by rw [hcurrent, hq]⟩

/-- Every process can be switched to. -/
theorem loads (h : Homes old kd k p os) (xs : List Nat) : k.Loads xs := by
  intro a _ q hq
  obtain ⟨-, o, ho, -, hdir⟩ := h.listed a q hq
  rw [hdir]
  exact (h.owners.shared.keepsKernel (Owners.mem_directory ho)).congr rfl rfl

/-- **A creation** adds an owner. -/
theorem create (h : Homes old kd k k.vm.pmm os) (hrun : procRunCode k code len = .ok k')
    (hsucc : k.vm.Succeeds k'.vm) : ∃ (o : Space) (q : Process),
      Homes old kd k' k'.vm.pmm (⟨k.heapPointer, o, len⟩ :: os) ∧ k.Keeps [.call (.create code len)] k' ∧
        k'.processes k.heapPointer = some q ∧ q.directory = o.directory ∧
          ∀ i < len, k'.vm.byteAt q.directory i = some (code i) := by
  obtain ⟨history, ht⟩ := h.tracks
  have howners : Owners old kd k os := h.owners
  obtain ⟨hend, k₁, o, l, hbuilt, hadds, hinsert, hnext⟩ :=
    procRunCode_created (howners.shared.ready h.current) hrun hsucc
  have hprocess := process_ne_zero hrun hsucc
  obtain ⟨k₂, stack, pd, hmalloc, hne, hadds₂, hinsert₂⟩ := procRunCode_parts hprocess hrun
  have hheap := (ht.heapPointer_lt hadds₂ hmalloc).1
  rw [← (procInsert_same hne hinsert₂).heapPointer] at hheap
  rw [hmalloc] at hadds
  have hstep : SchedStep k (.create code len) k' := ⟨none, .create hprocess hrun⟩
  obtain ⟨history', -, ht'⟩ := ht.step hstep
  have hfixed := (ht.fixed_step hstep).2
  obtain ⟨q, hq, hunlinked⟩ := hadds.new hnext
  have hdir : q.unlinked.directory = o.directory := congrArg Process.directory hunlinked
  refine ⟨o, q, ⟨⟨history', ht'⟩, howners.create hbuilt hend _, fun a q hq => ?_⟩,
    .single fun a q hq => ?_, hq, hdir, fun i hi => ?_⟩
  · obtain ⟨rfl, hdir⟩ | ⟨-, r, hr, hdir⟩ := hadds.directory hnext hq
    · exact ⟨hheap, _, List.mem_cons_self, rfl, hdir⟩
    · obtain ⟨hlt, o', ho', haddr, hdir'⟩ := h.listed a r hr
      exact ⟨Nat.lt_trans hlt hheap, o', List.mem_cons_of_mem _ ho', haddr, hdir.trans hdir'⟩
  · obtain ⟨hlt, o', ho', -, hdir⟩ := h.listed a q hq
    obtain ⟨q', hq', heq⟩ := directory_of_fixedOf (hfixed a hlt).symm hq
    refine ⟨⟨q', hq', heq.symm⟩, fun virt hvirt => ?_⟩
    rw [hdir]
    exact howners.byteAt_kept hbuilt hend ho' hvirt
  · rw [show q.directory = o.directory from hdir]
    exact howners.byteAt_new hbuilt hend hi

/-- **A switch, a tick or an exit** changes the directory. -/
theorem schedule (h : Homes old kd k p os) (hreturns : SchedReturns k e k' r)
    (he : e.isCreate = false) : Homes old kd k' p os ∧ k.Keeps [.call e] k' := by
  obtain ⟨history, ht⟩ := h.tracks
  obtain ⟨history', -, ht'⟩ := ht.step ⟨r, hreturns⟩
  have hsame := schedReturns_sameSpaces hreturns he
  have hheap : k'.heapPointer = k.heapPointer := (schedReturns_sameStacks hreturns he).heapPointer
  refine ⟨⟨⟨history', ht'⟩, ?_, fun a q hq => ?_⟩, .single fun a q hq => ?_⟩
  · have hd : k'.vm.cr3 ∈ kd :: os.map Owner.directory := by
      rcases hsame.cr3 with heq | ⟨a, q, hq, hcr3⟩
      · rw [heq]
        exact h.owners.shared.current
      · obtain ⟨-, o, ho, -, hdir⟩ := h.listed a q hq
        rw [hcr3, hdir]
        exact Owners.mem_directory ho
    refine (h.owners.inDir hd).congr_vm ?_
    show Vm.mk k'.vm.mem k'.vm.cr3 p k'.vm.log = Vm.mk k.vm.mem k'.vm.cr3 p k.vm.log
    rw [hsame.mem, hsame.log]
  · obtain ⟨r, hr, hdir⟩ := hsame.directory hq
    obtain ⟨hlt, o, ho, haddr, hdir'⟩ := h.listed a r hr
    exact ⟨hheap ▸ hlt, o, ho, haddr, hdir.trans hdir'⟩
  · obtain ⟨q', hq', hdir⟩ := directory_of_fixedOf (hsame.fixedOf a).symm hq
    refine ⟨⟨q', hq', hdir.symm⟩, fun virt _ => ?_⟩
    show (walk k'.vm.mem q.directory virt).map k'.vm.mem = (walk k.vm.mem q.directory virt).map k.vm.mem
    rw [hsame.mem]

/-- The owner of a process that runs in user mode, and the address that it gets at. -/
theorem running (h : Homes old kd k p os) (hq : k.processes k.currentProcess = some q)
    (hcr3 : k.vm.cr3 = q.directory) (hvirt : virt < 2 ^ 32)
    (hrights : accessRights k.vm.mem k.vm.cr3 virt = some (w, true)) :
    virt < kernelBaseVirt ∧ ∃ o ∈ os, o.addr = k.currentProcess ∧ q.directory = o.directory := by
  obtain ⟨-, o, ho, haddr, hdir⟩ := h.listed _ q hq
  rw [hcr3, hdir] at hrights
  exact ⟨h.owners.low_of_user ho hvirt hrights, o, ho, haddr, hdir⟩

/-- **A store** of the current process. -/
theorem store (h : Homes old kd k p os) (hq : k.processes k.currentProcess = some q)
    (hcr3 : k.vm.cr3 = q.directory) (hvirt : virt < 2 ^ 32)
    (hrights : accessRights k.vm.mem k.vm.cr3 virt = some (true, true))
    (hx : walk k.vm.mem k.vm.cr3 virt = some x) (v : BitVec 8) :
    Homes old kd { k with vm := { k.vm with mem := k.vm.mem.setByte x v } } p os ∧
      k.Keeps [.store k.currentProcess virt v]
        { k with vm := { k.vm with mem := k.vm.mem.setByte x v } } := by
  obtain ⟨hlow, o, ho, haddr, hdir⟩ := h.running hq hcr3 hvirt hrights
  rw [hcr3, hdir] at hx
  obtain ⟨howners, hself, hothers⟩ := h.owners.store ho hlow hx v
  obtain ⟨history, ht⟩ := h.tracks
  refine ⟨⟨⟨history, { ht with ring := ht.ring.congr rfl fun _ => rfl }⟩, howners, h.listed⟩,
    .single fun a r hr => ⟨⟨r, hr, rfl⟩, fun w hw => ?_⟩⟩
  obtain ⟨-, o', ho', haddr', hdir'⟩ := h.listed a r hr
  rw [writeTo, hdir']
  by_cases hmine : k.currentProcess = a ∧ virt = w
  · obtain ⟨rfl, rfl⟩ := hmine
    obtain rfl := Option.some.inj (hq.symm.trans hr)
    rw [if_pos ⟨rfl, rfl⟩, ← hdir', hdir]
    exact hself
  · rw [if_neg hmine]
    refine hothers o' ho' w hw fun hsame => hmine ⟨?_, hsame.2.symm⟩
    rw [← haddr, ← haddr', hsame.1]

/-- A process that has been entered can store on its stack. -/
theorem store_returns (h : Homes old kd k p os) (hentered : Entered k iret) (ha : k.currentProcess = a)
    (hlo : stackPage * pageSize ≤ virt) (hhi : virt < kernelBaseVirt) (v : BitVec 8) :
    ∃ x, UserStep k (.store a virt v)
      { k with vm := { k.vm with mem := k.vm.mem.setByte x v } } := by
  subst ha
  obtain ⟨q, hq, hcr3, -⟩ := hentered
  obtain ⟨-, o, ho, -, hdir⟩ := h.listed _ q hq
  have hlives := h.owners.lives o ho
  have hroom := hlives.room
  have hpage : stackPage ≤ virt / pageSize := (Nat.le_div_iff_mul_le (by decide)).mpr hlo
  have hnot : ¬ virt / pageSize < numCodePages o.len := by omega
  have hrights := hlives.rights_low hhi
  have hwalk := hlives.walk_low hhi
  rw [if_neg hnot, if_pos hpage] at hrights hwalk
  have hdir' : k.vm.cr3 = o.space.directory := hcr3.trans hdir
  rw [← hdir'] at hrights hwalk
  exact ⟨_, .store hq hcr3 (by unfold kernelBaseVirt at hhi; omega) hrights hwalk⟩

/-- What the rest of a run may do: take frames as long as no process has exited. -/
def Fresh (k : Kernel) (p : Pmm) (es : List UserEvent) : Prop :=
  p = k.vm.pmm ∧ NoReuse es ∨ ∀ e ∈ es, e.isCreate = false

/-- **Step lemma.** -/
theorem step (h : Homes old kd k p os) (hfresh : Fresh k p (e :: es)) (hstep : UserStep k e k') :
    ∃ p' os', Homes old kd k' p' os' ∧ Fresh k' p' es ∧ k.Keeps [e] k' ∧ ∀ o ∈ os, o ∈ os' := by
  -- without an exit the frames are what they were
  have hnext : ∀ p', (e ≠ .call .exit → p = k.vm.pmm → p' = k'.vm.pmm) → Fresh k' p' es := by
    intro p' hp'
    rcases hfresh with ⟨hp, hreuse⟩ | hcreate
    · by_cases hexit : e = .call .exit
      · subst hexit
        exact .inr hreuse
      · exact .inl ⟨hp' hexit hp, hreuse.tail hexit⟩
    · exact .inr fun e he => hcreate e (List.mem_cons_of_mem _ he)
  cases hstep with
  | @call e r _ hreturns hsucc =>
      cases he : e.isCreate with
      | true =>
          have hp : p = k.vm.pmm := by
            rcases hfresh with ⟨hp, -⟩ | hcreate
            · exact hp
            · exact absurd ((hcreate _ List.mem_cons_self).symm.trans he) Bool.false_ne_true
          subst hp
          cases hreturns with
          | create _ hrun =>
              obtain ⟨o, -, hhomes, hkeeps, -⟩ := h.create hrun (hsucc he)
              exact ⟨_, _, hhomes, hnext _ fun _ _ => rfl, hkeeps, fun o ho => List.mem_cons_of_mem _ ho⟩
          | switch | tick | exit => cases he
      | false =>
          obtain ⟨hhomes, hkeeps⟩ := h.schedule hreturns he
          refine ⟨p, os, hhomes, hnext p fun hexit hp => ?_, hkeeps, fun o ho => ho⟩
          cases hreturns with
          | create => cases he
          | switch hrun => rw [hp, procSwitchProcess_pmm hrun]
          | tick hrun =>
              rcases procTimerCallback_of_ok hrun with ⟨-, rfl, -⟩ | ⟨iret, -, -, hswitch⟩
              · exact hp
              · rw [hp, procSwitchProcess_pmm hswitch]
          | exit => exact absurd rfl hexit
  | store hq hcr3 hvirt hrights hx =>
      obtain ⟨hhomes, hkeeps⟩ := h.store hq hcr3 hvirt hrights hx _
      exact ⟨p, os, hhomes, hnext p fun _ hp => hp, hkeeps, fun o ho => ho⟩

/-- **Run lemma.** -/
theorem run (h : Homes old kd k p os) (hfresh : Fresh k p (es ++ es')) (hrun : Run UserStep k es k') :
    ∃ p' os', Homes old kd k' p' os' ∧ Fresh k' p' es' ∧ k.Keeps es k' := by
  induction hrun generalizing p os with
  | nil k => exact ⟨p, os, h, hfresh, .nil k⟩
  | cons hstep _ ih =>
      obtain ⟨p₁, os₁, h₁, hfresh₁, hkeeps, -⟩ := h.step hfresh hstep
      obtain ⟨p', os', h', hfresh', hkeeps'⟩ := ih h₁ hfresh₁
      exact ⟨p', os', h', hfresh', hkeeps.cons hkeeps'⟩

/-- No process stores in its code. -/
theorem code_not_written (h : Homes old kd k p os) (hstep : UserStep k e k') (ho : o ∈ os)
    (hq : k.processes a = some q) (hdir : q.directory = o.directory) (hi : i < o.len) :
    writeTo a i e = none := by
  cases hstep with
  | call => rfl
  | store hq' hcr3 hvirt hrights hx =>
      refine if_neg fun hmine => ?_
      obtain ⟨rfl, rfl⟩ := hmine
      obtain rfl := Option.some.inj (hq.symm.trans hq')
      obtain ⟨hlow, -⟩ := h.running hq hcr3 hvirt hrights
      have hread := (h.owners.lives o ho).rights_low hlow
      have hpage : ∀ n, n < o.len → n / pageSize < numCodePages o.len := fun n hn => by
        unfold numCodePages pageSize
        omega
      rw [if_pos (hpage _ hi)] at hread
      rw [hcr3, hdir] at hrights
      cases hread.symm.trans hrights

/-- So it stays what it is. -/
theorem code_kept (h : Homes old kd k p os) (hfresh : Fresh k p es) (hrun : Run UserStep k es k')
    (ho : o ∈ os) (hq : k.processes a = some q) (hdir : q.directory = o.directory)
    {code : Nat → BitVec 8} (hcode : ∀ i < o.len, k.vm.byteAt q.directory i = some (code i)) :
    ∃ q', k'.processes a = some q' ∧ ∀ i < o.len, k'.vm.byteAt q'.directory i = some (code i) := by
  induction hrun generalizing p os q with
  | nil => exact ⟨q, hq, hcode⟩
  | @cons _ e _ _ _ hstep _ ih =>
      obtain ⟨p₁, os₁, h₁, hfresh₁, hkeeps, hmem⟩ := h.step hfresh hstep
      obtain ⟨⟨q₁, hq₁, hdir₁⟩, hbytes⟩ := hkeeps a q hq
      refine ih h₁ hfresh₁ (hmem o ho) hq₁ (hdir₁.trans hdir) fun i hi => ?_
      have hroom := (h.owners.lives o ho).room
      have hbyte := hbytes i (by
        unfold numCodePages stackPage kernelBaseVirt pageSize at *
        omega)
      rw [LastWrite.last_cons, h.code_not_written hstep ho hq hdir hi] at hbyte
      rw [hdir₁, ← hcode i hi]
      exact hbyte

/-- No process yet. -/
theorem boot {s : Vm Pmm} (h : Booted s kd) (esp0 : Nat) :
    Homes (fun b => s.pmm.isUsed b = true) kd (bootKernel s esp0) s.pmm [] where
  tracks := ⟨.empty, tracks_boot s esp0⟩
  owners := by
    have hstate : KernelState (fun b => s.pmm.isUsed b = true) (bootKernel s esp0) :=
      h.kernelState esp0 fun _ hb => hb
    have hnew := hstate.newOwners
    have hcr3 : (bootKernel s esp0).vm.cr3 = kd := h.cr3
    have howners := hnew.owners
    rw [hcr3] at howners
    exact howners
  listed := fun a q hq => by cases hq

end Homes

/-! ## from boot on -/

/-- A switch in the ring, as a step. -/
theorem userStep_switch {k k' : Kernel} (h : procSwitchProcess k regs = .ok (k', iret)) :
    UserStep k (.call (.switch regs)) k' :=
  .call (.switch h) fun he => absurd he Bool.false_ne_true

end NimbleOS
