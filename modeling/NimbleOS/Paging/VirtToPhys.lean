import NimbleOS.Boot

/-!
# NimbleOS.Paging.VirtToPhys

`paging_virt_to_phys` next to the processor's walk.  It answers 0 where the slot is
absent.  Otherwise it takes the frame bits of the page entry, also where the present
bit of that entry is clear, and also where the slot maps a large page: there the
window shows the first frame of the large page instead of a table.

The states are those that `paging_init` and any later calls lead to, whatever their
addresses and flags and whatever the frame allocator answers; `Walkable` is what they
keep.  A call on `0xFFFFF000` can unmap the window on the tables, and then every
function of the memory manager faults.
-/

namespace NimbleOS

open Pmm

/-! ## the states -/

/-- The directory's frame is in use, and slot 1023 refers to it if it is present. -/
structure Walkable (s : Vm Pmm) : Prop where
  sane : s.pmm.Sane
  aligned : s.cr3 % pageSize = 0
  pos : s.cr3 ≠ 0
  taken : s.pmm.Taken s.cr3
  self : isPresent (s.pde 1023) = true → SelfMapped s.mem s.cr3

section

variable {s s' : Vm Pmm}

/-- Without slot 1023 the directory cannot be read. -/
theorem pagingGetPage_of_unmapped (haligned : s.cr3 % pageSize = 0)
    (habs : isPresent (s.pde 1023) = false) (halign : virt % pageSize = 0) (hvirt : virt < 2 ^ 32)
    (create : Bool) (flags : Nat) : pagingGetPage s virt create flags = .error .pageFault := by
  have hi := dirIndex_lt hvirt
  have hdir : dirIndex (dirEntry (dirIndex virt)) = 1023 := by
    rw [dirIndex, dirEntry]
    unfold pageEntries at hi
    omega
  have hpde : isPresent (entry s.mem (pageFrame s.cr3) (dirIndex (dirEntry (dirIndex virt)))) = false := by
    rw [hdir, pageFrame_of_aligned haligned]
    exact habs
  have hload : s.loadWord (dirEntry (dirIndex virt)) = .error .pageFault := by
    rw [Vm.loadWord, Vm.loadAddr, walk, translate_of_absent hpde]
    rfl
  simp only [pagingGetPage, halign, hload, bind, Except.bind, ne_eq, not_true_eq_false, if_false]

/-- Walkability depends on the directory's slot 1023. -/
theorem Walkable.congr (h : Walkable s) (hcr3 : s'.cr3 = s.cr3) (hs : s'.pmm.Sane)
    (hpde : s'.pde 1023 = s.pde 1023) (htaken : s'.pmm.Taken s.cr3) : Walkable s' where
  sane := hs
  aligned := by rw [hcr3]; exact h.aligned
  pos := by rw [hcr3]; exact h.pos
  taken := by rw [hcr3]; exact htaken
  self := fun hp => by
    have hself := hpde
    rw [Vm.pde, hcr3] at hself
    rw [hcr3]
    exact (h.self (hpde ▸ hp)).congr hself

variable (h : Walkable s)

include h

/-- A word stored in a table, be it the directory: it clears a present bit, or the entry
was absent. -/
theorem Walkable.withEntry (hself : SelfMapped s.mem s.cr3) (ht : t < pageEntries)
    (hv : v < 2 ^ 32 ∧ isPresent v = false ∨ isPresent (s.pte d t) = false) :
    Walkable (s.withEntry (pageFrame (s.pde d)) t v) := by
  have hframe := pageFrame_mod (s.pde d)
  have hdir := h.aligned
  refine ⟨h.sane, h.aligned, h.pos, h.taken, fun hp => ?_⟩
  by_cases hslot : pageFrame (s.pde d) = s.cr3 ∧ t = 1023
  · obtain ⟨hf, ht1023⟩ := hslot
    rcases hv with ⟨hlt, habs⟩ | habs
    · have hword : (s.withEntry (pageFrame (s.pde d)) t v).pde 1023 = v :=
        (s.entry_withEntry hframe hdir ht (by decide) hlt).trans (if_pos ⟨hf.symm, ht1023.symm⟩)
      rw [hword, habs] at hp
      contradiction
    · rw [Vm.pte, hf, ht1023, hself.present] at habs
      contradiction
  · have hword := s.mem.word_setWord_of_disjoint (a := pageFrame (s.pde d) + 4 * t)
      (b := s.cr3 + 4 * 1023) v (by unfold pageEntries pageSize at *; omega)
    exact hself.congr hword

/-- What the allocator answers for a table is not the directory. -/
theorem Walkable.tableFrame (halloc : FrameAllocator.allocPage s.pmm = .ok (a, p)) :
    TableFrame s a where
  aligned := (pmm_freshFrames.aligned h.sane halloc).1
  lt := (pmm_freshFrames.aligned h.sane halloc).2
  ne_dir := by
    by_cases hzero : a = 0
    · rw [hzero]
      exact h.pos.symm
    · rintro rfl
      exact pmm_freshFrames.fresh h.sane halloc hzero h.taken

/-- A new table. -/
theorem Walkable.withTable (hself : SelfMapped s.mem s.cr3) (hd : d < pageEntries)
    (habs : isPresent (s.pde d) = false) (flags : Nat)
    (halloc : FrameAllocator.allocPage s.pmm = .ok (a, p)) :
    Walkable (s.withTable d flags a p) ∧ SelfMapped (s.withTable d flags a p).mem s.cr3 ∧
      isPresent ((s.withTable d flags a p).pde d) = true := by
  have ha := h.tableFrame halloc
  have hself' := hself.withTable p hd habs flags ha
  have hpde := s.pde_withTable p hself.aligned ha flags hd hd
  rw [if_pos rfl] at hpde
  exact ⟨⟨pmm_freshFrames.valid_of h.sane halloc, h.aligned, h.pos,
    pmm_freshFrames.keeps h.sane halloc h.taken, fun _ => hself'⟩, hself',
    by rw [hpde, (pdeRaw_word ha.aligned ha.lt flags).2.1]⟩

/-- **paging_get_page** returns where slot 1023 is present only, a pointer to the entry of a
present slot. -/
theorem Walkable.getPage (hvirt : virt < 2 ^ 32)
    (hok : pagingGetPage s virt create flags = .ok (page, s')) :
    Walkable s' ∧ SelfMapped s'.mem s'.cr3 ∧ (page = none ∧ create = false ∨
      page = some (tableEntry (dirIndex virt) (tableIndex virt)) ∧
        isPresent (s'.pde (dirIndex virt)) = true) := by
  have hd := dirIndex_lt hvirt
  have halign : virt % pageSize = 0 := by
    by_contra hne
    rw [pagingGetPage, if_pos hne] at hok
    contradiction
  have hself : SelfMapped s.mem s.cr3 := by
    refine h.self (by_contra fun habs => ?_)
    rw [pagingGetPage_of_unmapped h.aligned (Bool.eq_false_iff.mpr habs) halign hvirt] at hok
    contradiction
  cases hp : isPresent (s.pde (dirIndex virt)) with
  | true =>
      rw [pagingGetPage_of_present hself halign hvirt hp] at hok
      cases hok
      exact ⟨h, hself, .inr ⟨rfl, hp⟩⟩
  | false =>
      cases create with
      | false =>
          rw [pagingGetPage_of_absent hself halign hvirt hp] at hok
          cases hok
          exact ⟨h, hself, .inl ⟨rfl, rfl⟩⟩
      | true =>
          cases halloc : FrameAllocator.allocPage s.pmm with
          | error e =>
              rw [pagingGetPage_of_error hself halign hvirt hp halloc] at hok
              contradiction
          | ok r =>
              obtain ⟨a, p⟩ := r
              rw [pagingGetPage_create hself halign hvirt hp flags halloc (h.tableFrame halloc)] at hok
              cases hok
              obtain ⟨hwalk, hself', hpres⟩ := h.withTable hself hd hp flags halloc
              exact ⟨hwalk, hself', .inr ⟨rfl, hpres⟩⟩

theorem Walkable.mapPage (hvirt : virt < 2 ^ 32)
    (hok : pagingMapPage s virt phys flags = .ok s') : Walkable s' := by
  obtain ⟨⟨page, s₁⟩, hget, hok⟩ := bind_eq_ok.mp hok
  obtain ⟨pte, hload, hok⟩ := bind_eq_ok.mp hok
  have hd := dirIndex_lt hvirt
  have ht := tableIndex_lt virt
  obtain ⟨hwalk, hself, ⟨-, hcreate⟩ | ⟨rfl, hp⟩⟩ := h.getPage hvirt hget
  · contradiction
  · rw [Option.getD_some, Vm.loadWord_tableEntry hself hd ht hp] at hload
    cases hload
    split at hok
    · contradiction
    · next habs =>
        rw [Option.getD_some, Vm.storeWord_tableEntry hself hd ht hp] at hok
        cases hok
        exact hwalk.withEntry hself ht (.inr (Bool.eq_false_iff.mpr habs))

theorem Walkable.unmapPage (hvirt : virt < 2 ^ 32) (hok : pagingUnmapPage s virt = .ok s') :
    Walkable s' := by
  obtain ⟨⟨page, s₁⟩, hget, hok⟩ := bind_eq_ok.mp hok
  have hd := dirIndex_lt hvirt
  have ht := tableIndex_lt virt
  obtain ⟨hwalk, hself, ⟨rfl, -⟩ | ⟨rfl, hp⟩⟩ := h.getPage hvirt hget
  · cases hok
    exact hwalk
  · obtain ⟨pte, hload, hok⟩ := bind_eq_ok.mp hok
    rw [Vm.loadWord_tableEntry hself hd ht hp] at hload
    cases hload
    rw [Vm.storeWord_tableEntry hself hd ht hp] at hok
    cases hok
    refine hwalk.withEntry hself ht (.inl ⟨?_, ?_⟩)
    · exact Nat.lt_of_le_of_lt (Nat.sub_le _ _) (entry_lt _ _ _)
    · unfold isPresent
      rw [decide_eq_false_iff_not]
      omega

end

/-- The loop of `paging_map_pages`. -/
theorem Walkable.mapPages {s : Vm Pmm} (h : Walkable s) (hvirt : virt < 2 ^ 32)
    (hok : pagingMapPages s virt phys num flags = .ok s') : Walkable s' := by
  induction num generalizing s virt phys with
  | zero =>
      cases hok
      exact h
  | succ num ih =>
      obtain ⟨s₁, hfirst, hrest⟩ := bind_eq_ok.mp hok
      exact ih (h.mapPage hvirt hfirst) (Nat.mod_lt _ (by decide)) hrest

/-- The loop of `paging_unmap_pages`. -/
theorem Walkable.unmapPages {s : Vm Pmm} (h : Walkable s) (hvirt : virt < 2 ^ 32)
    (hok : pagingUnmapPages s virt num = .ok s') : Walkable s' := by
  induction num generalizing s virt with
  | zero =>
      cases hok
      exact h
  | succ num ih =>
      obtain ⟨s₁, hfirst, hrest⟩ := bind_eq_ok.mp hok
      exact ih (h.unmapPage hvirt hfirst) (Nat.mod_lt _ (by decide)) hrest

/-! ### sequences of calls -/

/-- The address of the call's first page. -/
def PagingOp.virt : PagingOp → Nat
  | mapPage virt _ _ | mapPages virt _ _ _ | unmapPage virt | unmapPages virt _ => virt

theorem Walkable.call {s : Vm Pmm} (h : Walkable s) (op : PagingOp) (hvirt : op.virt < 2 ^ 32)
    (hok : op.call s = .ok s') : Walkable s' := by
  cases op with
  | mapPage virt phys flags => exact h.mapPage hvirt hok
  | mapPages virt phys num flags => exact h.mapPages hvirt hok
  | unmapPage virt => exact h.unmapPage hvirt hok
  | unmapPages virt num => exact h.unmapPages hvirt hok

theorem Walkable.calls {s : Vm Pmm} (h : Walkable s) (ops : List PagingOp)
    (hvirt : ∀ op ∈ ops, op.virt < 2 ^ 32) (hok : ops.foldlM PagingOp.call s = .ok s') :
    Walkable s' := by
  induction ops generalizing s with
  | nil =>
      cases hok
      exact h
  | cons op ops ih =>
      obtain ⟨hop, hops⟩ := List.forall_mem_cons.mp hvirt
      rw [List.foldlM_cons] at hok
      obtain ⟨s₁, hfirst, hrest⟩ := bind_eq_ok.mp hok
      exact ih (h.call op hop hfirst) hops hrest

/-- `pmm_alloc_pages` does not give the directory away. -/
theorem Walkable.allocPages {s t : Vm Pmm} (h : Walkable s) (halloc : s.allocPages num = (a, t)) :
    Walkable t := by
  obtain ⟨⟨a', p⟩, hcall⟩ : ∃ r, pmmAllocPages s.pmm num = r := ⟨_, rfl⟩
  rw [s.allocPages_of_answer hcall, Prod.mk.injEq] at halloc
  obtain ⟨-, rfl⟩ := halloc
  rcases pmmAllocPages_cases h.sane.max_le h.sane.zero_used num with hnone | ⟨f, p', hsome, -, htakes⟩
  · rw [hcall] at hnone
    cases hnone
    exact h.congr rfl h.sane rfl h.taken
  · rw [hcall] at hsome
    cases hsome
    exact h.congr rfl (h.sane.takes htakes) rfl (htakes.isUsed_of_isUsed h.sane.max_le h.taken)

/-- The state after `paging_init`. -/
theorem pagingInit_walkable {s s' : Vm Pmm} (hboot : BootDirectory s dir)
    (h : pagingInit s dir = .ok s') : Walkable s' := by
  obtain ⟨s₁, a, t, s₂, halloc, hfirst, hheap, hvga⟩ := pagingInit_parts h
  have hwf := hboot.wf
  have hcr3 : (bootSlots s dir).cr3 = dir := hboot.cr3
  have h₀ : Walkable (bootSlots s dir) :=
    ⟨hboot.sane, hwf.self.aligned, by rw [hcr3]; exact Nat.ne_of_gt hboot.pos, hwf.dir_taken,
      fun _ => hwf.self⟩
  have h₂ := ((h₀.mapPages (by decide) hfirst).allocPages halloc).mapPages (by decide) hheap
  exact h₂.mapPages (by decide) hvga

/-! ## the two walks -/

section

variable {P : Type} [FrameAllocator P] {s : Vm P}

/-- What `paging_virt_to_phys` answers. -/
theorem pagingVirtToPhys_eq (hself : SelfMapped s.mem s.cr3) (hvirt : virt < 2 ^ 32) :
    pagingVirtToPhys s virt =
      .ok (if isPresent (s.pde (dirIndex virt)) then
        pageFrame (s.pte (dirIndex virt) (tableIndex virt)) + virt % pageSize else 0, s) := by
  have hpage : pageFrame virt % pageSize = 0 := pageFrame_mod virt
  have hlt : pageFrame virt < 2 ^ 32 := Nat.lt_of_le_of_lt (Nat.div_mul_le_self _ _) hvirt
  have hdir : dirIndex (pageFrame virt) = dirIndex virt := by
    unfold dirIndex pageFrame pageSize
    omega
  have htab : tableIndex (pageFrame virt) = tableIndex virt := by
    unfold tableIndex pageFrame pageSize
    omega
  cases hp : isPresent (s.pde (dirIndex virt)) with
  | true =>
      rw [pagingVirtToPhys, pagingGetPage_of_present hself hpage hlt (by rw [hdir, hp]), hdir, htab]
      simp only [bind, Except.bind, s.loadWord_tableEntry hself (dirIndex_lt hvirt)
        (tableIndex_lt virt) hp]
      rfl
  | false =>
      rw [pagingVirtToPhys, pagingGetPage_of_absent hself hpage hlt (by rw [hdir, hp])]
      rfl

omit [FrameAllocator P] in
/-- What the processor finds. -/
theorem walk_eq (hself : SelfMapped s.mem s.cr3) (virt : Nat) :
    walk s.mem s.cr3 virt =
      if isPresent (s.pde (dirIndex virt)) then
        if isLarge (s.pde (dirIndex virt)) then
          some (s.pde (dirIndex virt) / 2 ^ 22 * 2 ^ 22 + tableIndex virt * pageSize +
            virt % pageSize)
        else if isPresent (s.pte (dirIndex virt) (tableIndex virt)) then
          some (pageFrame (s.pte (dirIndex virt) (tableIndex virt)) + virt % pageSize)
        else none
      else none := by
  have hpde : entry s.mem (pageFrame s.cr3) (dirIndex virt) = s.pde (dirIndex virt) := by
    rw [pageFrame_of_aligned hself.aligned, Vm.pde]
  cases hp : isPresent (s.pde (dirIndex virt)) with
  | false =>
      rw [walk, translate_of_absent (by rw [hpde, hp])]
      rfl
  | true =>
      cases hl : isLarge (s.pde (dirIndex virt)) with
      | true => simp [walk, translate, hpde, hp, hl]
      | false =>
          rw [walk, translate_of_table hpde hp hl, ← Vm.pte]
          cases isPresent (s.pte (dirIndex virt) (tableIndex virt)) <;> rfl

/-- Where the entry that `paging_virt_to_phys` reads tells the truth: in a page table
it is present, or a clean word and `virt` the start of its page; in the first frame of
a large page the word happens to have the frame bits of the frame in question. -/
def EntryTells (s : Vm P) (virt : Nat) : Prop :=
  isPresent (s.pde (dirIndex virt)) = true →
    if isLarge (s.pde (dirIndex virt)) then
      pageFrame (s.pte (dirIndex virt) (tableIndex virt)) =
        s.pde (dirIndex virt) / 2 ^ 22 * 2 ^ 22 + tableIndex virt * pageSize
    else
      isPresent (s.pte (dirIndex virt) (tableIndex virt)) = true ∨
        pageFrame (s.pte (dirIndex virt) (tableIndex virt)) = 0 ∧ virt % pageSize = 0

theorem pagingVirtToPhys_eq_walk_iff (hself : SelfMapped s.mem s.cr3) (hvirt : virt < 2 ^ 32) :
    pagingVirtToPhys s virt = .ok ((walk s.mem s.cr3 virt).getD 0, s) ↔ EntryTells s virt := by
  rw [pagingVirtToPhys_eq hself hvirt, walk_eq hself, EntryTells]
  simp only [Except.ok.injEq, Prod.mk.injEq, and_true]
  cases isPresent (s.pde (dirIndex virt)) with
  | false => simp
  | true =>
      cases isLarge (s.pde (dirIndex virt)) with
      | true =>
          simp only [if_true, Option.getD_some, true_imp_iff]
          omega
      | false =>
          cases isPresent (s.pte (dirIndex virt) (tableIndex virt)) with
          | true => simp
          | false => simp

/-- An entry that is not present, inside of its page. -/
theorem pagingVirtToPhys_of_not_present (hself : SelfMapped s.mem s.cr3) (hvirt : virt < 2 ^ 32)
    (hp : isPresent (s.pde (dirIndex virt)) = true) (hl : isLarge (s.pde (dirIndex virt)) = false)
    (hpte : isPresent (s.pte (dirIndex virt) (tableIndex virt)) = false)
    (hoff : 0 < virt % pageSize) :
    walk s.mem s.cr3 virt = none ∧ ∃ a, a ≠ 0 ∧ pagingVirtToPhys s virt = .ok (a, s) := by
  have hanswer := pagingVirtToPhys_eq hself hvirt
  rw [if_pos hp] at hanswer
  refine ⟨?_, _, ?_, hanswer⟩
  · rw [walk_eq hself, if_pos hp, if_neg (by rw [hl]; decide), if_neg (by rw [hpte]; decide)]
  · omega

end

/-- **paging_virt_to_phys** in every state that calls of the memory manager lead to
from `paging_init`: it agrees with the processor exactly if the window on the tables is
still there, and the entry that it reads there tells the truth. -/
theorem virt_to_phys_iff {s s₀ s₁ : Vm Pmm} (hboot : BootDirectory s dir)
    (hinit : pagingInit s dir = .ok s₀) (ops : List PagingOp)
    (hwords : ∀ op ∈ ops, op.virt < 2 ^ 32) (hok : ops.foldlM PagingOp.call s₀ = .ok s₁)
    (hvirt : virt < 0xFFC00000) :
    pagingVirtToPhys s₁ virt = .ok ((walk s₁.mem s₁.cr3 virt).getD 0, s₁) ↔
      isPresent (s₁.pde 1023) = true ∧ EntryTells s₁ virt := by
  have hwalk := (pagingInit_walkable hboot hinit).calls ops hwords hok
  cases hp : isPresent (s₁.pde 1023) with
  | true =>
      rw [and_iff_right rfl]
      exact pagingVirtToPhys_eq_walk_iff (hwalk.self hp) (by omega)
  | false =>
      have hlt : pageFrame virt < 2 ^ 32 := Nat.lt_of_le_of_lt (Nat.div_mul_le_self _ _) (by omega)
      refine iff_of_false (fun heq => ?_) fun hpres => Bool.false_ne_true hpres.1
      rw [pagingVirtToPhys, pagingGetPage_of_unmapped hwalk.aligned hp (pageFrame_mod virt) hlt] at heq
      contradiction

/-! ### a page that was never mapped -/

/-- After `paging_init` the first slot has a table, and page 256 is not in it. -/
theorem pagingInit_page {s s' : Vm Pmm} (hboot : BootDirectory s dir)
    (h : pagingInit s dir = .ok s') (hsucc : s.Succeeds s') :
    isPresent (s'.pde 0) = true ∧ isLarge (s'.pde 0) = false ∧ s'.tables 256 = none := by
  obtain ⟨s₁, a, t, s₂, ts₁, ts₂, ts₃, -, hpde_t, htables_t, hmap₁, hmap₂, hmap₃⟩ :=
    pagingInit_mapped hboot h hsucc
  have hlo : kernelHeapBaseVirt / pageSize = 0xD0000 := rfl
  have hvga : kernelVgaBaseVirt / pageSize = 0xCFFFF := rfl
  have habs : isPresent ((bootSlots s dir).pde 0) = false := by
    rw [hboot.pde (by decide)]
    rfl
  -- the later mappings are in other slots
  have hlater : ∀ p < 0xCFFFF, s'.tables p = s₁.tables p := by
    intro p hp
    rw [PageMap.mapRange_at hmap₃.tables, if_neg (by omega), PageMap.mapRange_at hmap₂.tables,
      if_neg (by omega), htables_t]
  have hfirst := PageMap.mapRange_at hmap₁.tables
  have hpresent : isPresent (s'.pde 0) = true := by
    by_contra hnot
    have hnone : s'.tables 0 = none := Vm.tables_of_absent (Bool.eq_false_iff.mpr hnot)
    rw [hlater 0 (by decide), hfirst, if_pos (by decide)] at hnone
    contradiction
  refine ⟨hpresent, ?_, ?_⟩
  · have hsmall₁ : s₁.SmallSlot 0 := hmap₁.new.smallSlot (by decide) fun hp => by
      rw [habs] at hp
      contradiction
    have hsmall_t : t.SmallSlot 0 := by
      rw [Vm.SmallSlot, hpde_t]
      exact hsmall₁
    exact hmap₃.new.smallSlot (by decide) (hmap₂.new.smallSlot (by decide) hsmall_t) hpresent
  · rw [hlater 256 (by decide), hfirst, if_neg (by decide)]
    exact Vm.tables_of_absent habs

/-- **An answer for an address that is not mapped.** -/
theorem virt_to_phys_unmapped : ∃ s₀, pagingInit bootVm 0x100000 = .ok s₀ ∧
    walk s₀.mem s₀.cr3 0x100004 = none ∧
    ∃ a, a ≠ 0 ∧ pagingVirtToPhys s₀ 0x100004 = .ok (a, s₀) := by
  obtain ⟨s₀, hinit, hsucc, -⟩ := bootVm_init
  have hself := (pagingInit_booted bootVm_boot hinit hsucc).wf.self
  obtain ⟨hp, hl, hnone⟩ := pagingInit_page bootVm_boot hinit hsucc
  have htable : s₀.tables 256 = leaf (s₀.pte 0 256) := Vm.tables_of_present (by decide) hp
  rw [htable, leaf_eq_none] at hnone
  exact ⟨s₀, hinit, pagingVirtToPhys_of_not_present hself (by decide) hp hl hnone (by decide)⟩

theorem virt_to_phys_iff_kernel : ∃ s₀, pagingInit bootVm 0x100000 = .ok s₀ ∧
    (pagingVirtToPhys s₀ 0xC0000000 = .ok ((walk s₀.mem s₀.cr3 0xC0000000).getD 0, s₀) ↔
      isPresent (s₀.pde 1023) = true ∧ EntryTells s₀ 0xC0000000) := by
  obtain ⟨s₀, hinit, -⟩ := bootVm_init
  exact ⟨s₀, hinit, virt_to_phys_iff bootVm_boot hinit [] (fun _ hmem => nomatch hmem) rfl (by decide)⟩

end NimbleOS
