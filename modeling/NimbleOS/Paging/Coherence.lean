import NimbleOS.Paging.Rights
import NimbleOS.Paging.Tlb

/-!
# NimbleOS.Paging.Coherence

The calls of the virtual memory manager keep the TLB in agreement with the tables, so
that the machine with a TLB does what the machine without it does, over every run and
whatever the processor fills and evicts meanwhile.  The one exception is a processor
that speculates: between the store that publishes a page table and the end of the loop
that clears it, the old contents of the frame are translations that can be filled.
-/

namespace NimbleOS

variable {P : Type}

namespace Tvm

/-- The machine after accesses to these addresses. -/
def after (spec : Bool) (t : Tvm P) (virts : List Nat) : Tvm P := virts.foldl (act spec) t

@[simp] theorem vm_after (spec : Bool) (t : Tvm P) (virts : List Nat) :
    (t.after spec virts).vm = t.vm := by
  induction virts generalizing t with
  | nil => rfl
  | cons virt virts ih => exact ih (t.act spec virt)

theorem CoherentOff.after {bad : Nat → Prop} {t : Tvm P} (h : t.CoherentOff bad)
    (virts : List Nat) : (t.after spec virts).CoherentOff bad := by
  induction virts generalizing t with
  | nil => exact h
  | cons virt virts ih => exact ih (h.act spec virt)

theorem Coherent.off {bad : Nat → Prop} {t : Tvm P} (h : t.Coherent) : t.CoherentOff bad :=
  Cache.Coherent.mono h fun _ => False.elim

/-- The processor leaves the TLB entry of `page` alone from here on. -/
def LeavesAlone (t : Tvm P) (page : Nat) : Prop := ∀ i, t.moves i page = .keep

theorem LeavesAlone.act (spec : Bool) {t : Tvm P} (h : t.LeavesAlone page) (virt : Nat) :
    (t.act spec virt).LeavesAlone page ∧ (t.act spec virt).tlb page = t.tlb page := by
  refine ⟨fun i => h (i + 1), ?_⟩
  rw [tlb_act]
  exact Cache.move_keep _ _ (h 0)

theorem LeavesAlone.after {t : Tvm P} (h : t.LeavesAlone page) (virts : List Nat) :
    (t.after spec virts).tlb page = t.tlb page := by
  induction virts generalizing t with
  | nil => rfl
  | cons virt virts ih => exact (ih (h.act spec virt).1).trans (h.act spec virt).2

section

variable [FrameAllocator P] {valid : P → Prop} {taken : P → Nat → Prop} {t : Tvm P} {d a : Nat}
  {pmm : P} {spec : Bool}

/-- The pages of slot `d`. -/
def InSlot (d page : Nat) : Prop := page / 1024 = d

/-- What is known while the table of slot `d` is cleared, with `k` bytes done: `t₀` is the
machine before the loop. -/
structure Clearing (spec : Bool) (s : Vm P) (d flags a : Nat) (pmm : P) (t₀ t : Tvm P) (k : Nat) :
    Prop where
  vm : t.vm = s.clearing d flags a pmm k
  coherent : t.CoherentOff (InSlot d)
  without : ∀ j < pageEntries, (spec = true → isPresent (entry s.mem a j) = false) →
    t.tlb (d * 1024 + j) = none
  start : k = 0 → t = t₀
  /-- A page of the slot that the processor fills before the first byte, and then leaves alone. -/
  filled : ∀ page, spec = true → t₀.moves 0 page = .fill → (∀ i, t₀.moves (i + 1) page = .keep) →
    0 < k → t.LeavesAlone page ∧ t.tlb page = t₀.vm.look page

omit [FrameAllocator P] in
/-- **The loop of memset**: whatever the processor does meanwhile, the TLB agrees with the
tables outside the slot. -/
theorem memset_clearing {s : Vm P} {t₀ : Tvm P} (hwf : DirWF taken s) (ha : TableFrame s a)
    (hf : MapFlags flags) (hd : d < 1023) (hk : k ≤ pageSize)
    (hnew : ∀ e < 1023, isPresent (s.pde e) = true → pageFrame (s.pde e) ≠ a)
    (h : Clearing spec s d flags a pmm t₀ t₀ 0) :
    ∃ t, t₀.memset spec (tableEntry d 0) 0 k = .ok t ∧ Clearing spec s d flags a pmm t₀ t k := by
  induction k with
  | zero => exact ⟨t₀, rfl, h⟩
  | succ k ih =>
      obtain ⟨t, ht, hclear⟩ := ih (by omega)
      have hkl : k ≤ pageSize := by omega
      have hhi : tableEntry d 0 + k < 2 ^ 32 := by
        unfold tableEntry pageEntries pageSize at *
        omega
      have hwindow : (tableEntry d 0 + k) / pageSize = 1023 * 1024 + d := by
        unfold tableEntry pageEntries pageSize at *
        omega
      have hoff : ¬ InSlot d ((tableEntry d 0 + k) / pageSize) := by
        rw [hwindow, InSlot]
        omega
      -- the address of the byte
      have hself : SelfMapped (s.clearing d flags a pmm k).mem (s.clearing d flags a pmm k).cr3 :=
        hwf.self.clearing pmm hd flags ha hkl
      obtain ⟨-, hpres, -, hframe, -⟩ := pdeRaw_fields ha.aligned ha.lt hf
      have hpde : entry (s.clearing d flags a pmm k).mem (s.clearing d flags a pmm k).cr3 d =
          pdeRaw a flags := by
        have h := s.pde_clearing pmm hwf.self.aligned ha flags (slot_lt hd) hkl (slot_lt hd)
        rwa [if_pos rfl] at h
      have hwalk := walk_recursive hself (slot_lt hd) (Nat.lt_of_succ_le hk) (by rw [hpde, hpres])
      rw [hpde, hframe] at hwalk
      have haddr : t.vm.storeAddr (tableEntry d 0 + k) = .ok (a + k) := by
        rw [hclear.vm]
        refine Vm.storeAddr_of_walk hwalk (.inr ?_)
        unfold tableEntry kernelHeapEndVirt
        omega
      have hstore := storeByte_eq spec hclear.coherent hoff 0
      rw [Vm.storeByte, haddr] at hstore
      have hvm : { t.vm with mem := t.vm.mem.setByte (a + k) 0 } =
          s.clearing d flags a pmm (k + 1) := by
        rw [hclear.vm, Vm.clearing, Vm.clearing, ByteMem.fill_succ]
      refine ⟨_, by rw [memset, ht]; exact (by rw [u32_of_lt hhi]; exact hstore), hvm, ?_, ?_,
        fun hzero => absurd hzero (Nat.succ_ne_zero k), ?_⟩
      · refine (hclear.coherent.act spec _).change fun page v hin _ => ⟨hin, fun hl => ?_⟩
        have hsame := Vm.look_clearing_same hwf pmm ha flags hnew hd hkl hk hin
        change Vm.look t.vm page = some v at hl
        rw [hclear.vm, ← hsame, ← hvm] at hl
        exact hl
      · intro j hj hclean
        have hmove : (t.act spec (tableEntry d 0 + k)).tlb (d * 1024 + j) = none := by
          rw [tlb_act]
          refine Cache.move_eq_none (hclear.without j hj hclean) (fun hmay => ?_) _
          unfold pageEntries at hj
          cases spec with
          | true =>
              have hslot := Vm.look_clearing_slot hwf.self pmm ha hf hd hkl (j := j) hj
              rw [leaf_eq_none.mpr (Vm.isPresent_clearing (hclean rfl) ha hwf.self.aligned flags
                (slot_lt hd) hj pmm k), ← hclear.vm] at hslot
              exact hslot
          | false =>
              have hpage : d * 1024 + j = (tableEntry d 0 + k) / pageSize := by simpa using hmay
              omega
        exact hmove
      · intro page hspec hfill hkeep _
        by_cases hk0 : k = 0
        · -- the first byte: here the processor fills the entry
          rw [hclear.start hk0]
          refine ⟨hkeep, ?_⟩
          have hmove : (t₀.act spec (tableEntry d 0 + k)).tlb page = t₀.vm.look page := by
            simp only [act, Cache.move, hfill, hspec, Bool.true_or, if_true]
          exact hmove
        · obtain ⟨halone, htlb⟩ := hclear.filled page hspec hfill hkeep (by omega)
          have hact := halone.act spec (tableEntry d 0 + k)
          exact ⟨hact.1, hact.2.trans htlb⟩

omit [FrameAllocator P] in
/-- The directory and the tables are seen through slot 1023. -/
theorem window_off (hd : d < 1023) (hi : i < pageEntries) (he : e < pageEntries) :
    ¬ InSlot d (dirEntry i / pageSize) ∧ ¬ InSlot d (tableEntry e i / pageSize) := by
  unfold InSlot dirEntry tableEntry pageEntries pageSize at *
  omega

/-! ### paging_get_page -/

variable (spec) in
/-- **Creating a table**: the machine with the TLB does the same, and ends with a coherent
TLB unless the processor filled it from a frame that was not clean. -/
theorem pagingCreateTable_follows (hfresh : FreshFrames valid taken) (hvalid : valid t.vm.pmm)
    (hwf : DirWF taken t.vm) (h : t.Coherent) (hd : d < 1023)
    (habs : isPresent (t.vm.pde d) = false) (hf : MapFlags flags)
    (halloc : FrameAllocator.allocPage t.vm.pmm = .ok (a, pmm)) (hne : a ≠ 0) :
    ∃ t', t.pagingCreateTable spec d flags = .ok t' ∧ t'.vm = t.vm.withTable d flags a pmm ∧
      t'.CoherentOff (InSlot d) ∧
      (∀ j < pageEntries, (spec = true → isPresent (entry t.vm.mem a j) = false) →
        t'.tlb (d * 1024 + j) = none) ∧
      ∀ page, spec = true → t.moves 1 page = .fill → (∀ i, t.moves (i + 2) page = .keep) →
        t'.LeavesAlone page ∧ t'.tlb page = (t.vm.clearing d flags a pmm 0).look page := by
  have ha := hwf.tableFrame hfresh hvalid halloc hne
  have hnew : ∀ e < 1023, isPresent (t.vm.pde e) = true → pageFrame (t.vm.pde e) ≠ a :=
    fun e he hp => hwf.frame_ne hfresh hvalid halloc hne he hp
  let s₁ : Vm P := { t.vm with pmm := pmm, log := .table d a :: t.vm.log }
  let t₁ : Tvm P := { t with vm := s₁ }
  have hoff : ¬ InSlot d (dirEntry d / pageSize) :=
    (window_off hd (slot_lt hd) (e := 0) (by decide)).1
  have hcoh₁ : t₁.CoherentOff (InSlot d) := Cache.Coherent.mono h fun _ => False.elim
  -- the store into the directory
  have hvm₂ : s₁.withEntry t.vm.cr3 d (pdeRaw a flags) = t.vm.clearing d flags a pmm 0 := by
    rw [Vm.clearing, ByteMem.fill_zero]
    rfl
  have hstore : t₁.storeWord spec (dirEntry d) (pdeRaw a flags) =
      .ok { t₁.act spec (dirEntry d) with vm := t.vm.clearing d flags a pmm 0 } := by
    rw [storeWord_eq hcoh₁ hoff, Vm.storeWord_dirEntry (s := s₁) hwf.self (slot_lt hd), ← hvm₂]
    rfl
  let t₂ : Tvm P := { t₁.act spec (dirEntry d) with vm := t.vm.clearing d flags a pmm 0 }
  have hslot : ∀ page, InSlot d page → t.vm.look page = none := fun page hin => by
    rw [InSlot] at hin
    exact Vm.look_of_absent hwf.self.aligned (by rw [hin]; exact habs)
  have hact : (t₁.act spec (dirEntry d)).Coherent :=
    CoherentOff.act spec (t := t₁) h (dirEntry d)
  have hstart : Clearing spec t.vm d flags a pmm t₂ t₂ 0 := by
    refine ⟨rfl, hact.change fun page v hin hk => ⟨id, fun hl => ?_⟩, fun j hj _ => ?_, fun _ => rfl,
      fun _ _ _ _ hpos => absurd hpos (Nat.lt_irrefl 0)⟩
    · by_cases hwindow : page = 1023 * 1024 + d
      · -- the window of an absent slot is not cached
        have hnone : t.vm.look page = none := by
          rw [hwindow, Vm.look_of_table hwf.self.aligned (by omega)
            (by rw [show (1023 * 1024 + d) / 1024 = 1023 by omega]; exact hwf.self.present)
            (by rw [show (1023 * 1024 + d) / 1024 = 1023 by omega]; exact hwf.self.small),
            show (1023 * 1024 + d) / 1024 = 1023 by omega,
            show (1023 * 1024 + d) % 1024 = d by omega, hwf.self.pte_self]
          exact leaf_eq_none.mpr habs
        change t.vm.look page = some v at hl
        rw [hnone] at hl
        contradiction
      · change (t.vm.clearing d flags a pmm 0).look page = some v
        rw [Vm.look_clearing hwf pmm ha flags hnew hd (Nat.zero_le _) hin hwindow]
        exact hl
    · refine Cache.Coherent.none_of_none hact id (hslot _ ?_)
      unfold InSlot pageEntries at *
      omega
  obtain ⟨t', hset, hclear⟩ := memset_clearing hwf ha hf hd (Nat.le_refl pageSize) hnew hstart
  refine ⟨t', ?_, hclear.vm, hclear.coherent, hclear.without, fun page hspec hfill hkeep => ?_⟩
  · have halloc' : t.allocTable d = .ok (a, t₁) := by
      simp only [allocTable, Vm.allocTable, halloc, bind, Except.bind, pure, Except.pure]
      rfl
    simp only [pagingCreateTable, halloc', bind, Except.bind]
    simp only [pdeRaw] at hstore
    rw [hstore]
    exact hset
  · exact hclear.filled page hspec hfill hkeep (by decide)

/-- The last store of `paging_map_page` into a new table concerns one page. -/
theorem look_new_entry {s : Vm P} (hfresh : FreshFrames valid taken) (hvalid : valid s.pmm)
    (hwf : DirWF taken s) (habs : isPresent (s.pde (dirIndex virt)) = false)
    (hf : MapFlags flags) (halloc : FrameAllocator.allocPage s.pmm = .ok (a, pmm)) (hne : a ≠ 0)
    (halign : virt % pageSize = 0) (hlt : virt < 0xFFC00000) (hv : v < 2 ^ 32)
    (hpage : page ≠ virt / pageSize) :
    ((s.withTable (dirIndex virt) flags a pmm).withEntry a (tableIndex virt) v).look page =
      (s.withTable (dirIndex virt) flags a pmm).look page := by
  obtain ⟨hmappable, hdir, htab⟩ := page_of_aligned halign hlt
  have hd : dirIndex virt < 1023 := hdir ▸ (page_indices hmappable).2.2.1
  have ha := hwf.tableFrame hfresh hvalid halloc hne
  have hpde := s.pde_withTable pmm hwf.self.aligned ha flags (slot_lt hd) (slot_lt hd)
  rw [if_pos rfl] at hpde
  obtain ⟨-, hpres, -, hframe, -⟩ := pdeRaw_fields ha.aligned ha.lt hf
  have hindex : page ≠ dirIndex virt * 1024 + tableIndex virt := by rw [hdir, htab]; omega
  have hlook := Vm.look_withEntry (hwf.withTable hfresh hvalid halloc hne hd habs hf) hd
    (by rw [hpde, hpres]) (tableIndex_lt virt) hv hindex
  rwa [hpde, hframe] at hlook

variable {bad : Nat → Prop}

variable (spec) in
omit [FrameAllocator P] in
/-- A read of the directory. -/
theorem loadWord_dir (h : t.CoherentOff bad) (hself : SelfMapped t.vm.mem t.vm.cr3)
    (hi : i < pageEntries) (hoff : ¬ bad (dirEntry i / pageSize)) :
    t.loadWord spec (dirEntry i) = .ok (t.vm.pde i, t.after spec [dirEntry i]) := by
  rw [loadWord_eq h hoff, t.vm.loadWord_dirEntry hself hi]
  rfl

variable (spec) in
omit [FrameAllocator P] in
/-- A read of a table. -/
theorem loadWord_table (h : t.CoherentOff bad) (hself : SelfMapped t.vm.mem t.vm.cr3)
    (hd : d < pageEntries) (hi : i < pageEntries) (hp : isPresent (t.vm.pde d) = true)
    (hoff : ¬ bad (tableEntry d i / pageSize)) :
    t.loadWord spec (tableEntry d i) = .ok (t.vm.pte d i, t.after spec [tableEntry d i]) := by
  rw [loadWord_eq h hoff, t.vm.loadWord_tableEntry hself hd hi hp]
  rfl

variable (spec) in
omit [FrameAllocator P] in
/-- A store into a table. -/
theorem storeWord_table (h : t.CoherentOff bad) (hself : SelfMapped t.vm.mem t.vm.cr3)
    (hd : d < pageEntries) (hi : i < pageEntries) (hp : isPresent (t.vm.pde d) = true)
    (hoff : ¬ bad (tableEntry d i / pageSize)) (v : Nat) :
    t.storeWord spec (tableEntry d i) v = .ok { t.after spec [tableEntry d i] with
      vm := t.vm.withEntry (pageFrame (t.vm.pde d)) i v } := by
  rw [storeWord_eq h hoff, t.vm.storeWord_tableEntry hself hd hi hp]
  rfl

variable (halign : virt % pageSize = 0) (hvirt : virt < 2 ^ 32)

include halign hvirt

variable (spec) in
theorem pagingGetPage_of_present (h : t.Coherent) (hself : SelfMapped t.vm.mem t.vm.cr3)
    (hp : isPresent (t.vm.pde (dirIndex virt)) = true) (create : Bool) (flags : Nat) :
    t.pagingGetPage spec virt create flags =
      .ok (some (tableEntry (dirIndex virt) (tableIndex virt)),
        t.after spec [dirEntry (dirIndex virt), dirEntry (dirIndex virt)]) := by
  have hd := dirIndex_lt hvirt
  have hfirst := loadWord_dir spec h hself hd id
  have hsecond := loadWord_dir spec (t := t.after spec [dirEntry (dirIndex virt)])
    (CoherentOff.after h _) (by rwa [vm_after]) hd id
  rw [vm_after] at hsecond
  simp only [pagingGetPage, halign, ne_eq, not_true_eq_false, if_false, hfirst, hp, Bool.not_true,
    Bool.false_and, Bool.false_eq_true, hsecond, if_true, bind, Except.bind, pure, Except.pure]
  rfl

theorem pagingGetPage_of_absent (h : t.Coherent) (hself : SelfMapped t.vm.mem t.vm.cr3)
    (habs : isPresent (t.vm.pde (dirIndex virt)) = false) (flags : Nat) :
    t.pagingGetPage spec virt false flags =
      .ok (none, t.after spec [dirEntry (dirIndex virt), dirEntry (dirIndex virt)]) := by
  have hd := dirIndex_lt hvirt
  have hfirst := loadWord_dir spec h hself hd id
  have hsecond := loadWord_dir spec (t := t.after spec [dirEntry (dirIndex virt)])
    (CoherentOff.after h _) (by rwa [vm_after]) hd id
  rw [vm_after] at hsecond
  simp only [pagingGetPage, halign, ne_eq, not_true_eq_false, if_false, hfirst, habs,
    Bool.and_false, Bool.false_eq_true, hsecond, bind, Except.bind, pure, Except.pure]
  rfl

/-- With a missing table, after that has been created. -/
theorem pagingGetPage_create {t' : Tvm P} (h : t.Coherent) (hself : SelfMapped t.vm.mem t.vm.cr3)
    (habs : isPresent (t.vm.pde (dirIndex virt)) = false) (hd : dirIndex virt < 1023)
    (hcreate : (t.after spec [dirEntry (dirIndex virt)]).pagingCreateTable spec (dirIndex virt)
      flags = .ok t')
    (h' : t'.CoherentOff (InSlot (dirIndex virt))) (hself' : SelfMapped t'.vm.mem t'.vm.cr3)
    (hp' : isPresent (t'.vm.pde (dirIndex virt)) = true) :
    t.pagingGetPage spec virt true flags =
      .ok (some (tableEntry (dirIndex virt) (tableIndex virt)),
        t'.after spec [dirEntry (dirIndex virt)]) := by
  have hfirst := loadWord_dir spec h hself (dirIndex_lt hvirt) id
  have hoff := (window_off hd (dirIndex_lt hvirt) (e := 0) (by decide)).1
  have hsecond := loadWord_dir spec h' hself' (dirIndex_lt hvirt) hoff
  simp only [pagingGetPage, halign, ne_eq, not_true_eq_false, if_false, hfirst, habs,
    Bool.not_false, Bool.true_and, if_true, hcreate, hsecond, hp', bind, Except.bind, pure,
    Except.pure]

/-- Where the allocator fails. -/
theorem pagingGetPage_of_error {e : Halt} (h : t.Coherent)
    (hself : SelfMapped t.vm.mem t.vm.cr3) (habs : isPresent (t.vm.pde (dirIndex virt)) = false)
    (halloc : FrameAllocator.allocPage t.vm.pmm = .error e) (flags : Nat) :
    t.pagingGetPage spec virt true flags = .error e := by
  have hfirst := loadWord_dir spec h hself (dirIndex_lt hvirt) id
  simp only [pagingGetPage, halign, ne_eq, not_true_eq_false, if_false, hfirst, habs,
    Bool.not_false, Bool.true_and, if_true, pagingCreateTable, allocTable, Vm.allocTable,
    vm_after, halloc, bind, Except.bind]

/-! ### paging_map_page -/

variable (spec) in
omit halign in
/-- What `paging_map_page` does once it has the entry. -/
theorem pagingMapPage_of_getPage {t' : Tvm P}
    (hget : t.pagingGetPage spec virt true flags =
      .ok (some (tableEntry (dirIndex virt) (tableIndex virt)), t'))
    (h : t'.CoherentOff bad) (hself : SelfMapped t'.vm.mem t'.vm.cr3)
    (hp : isPresent (t'.vm.pde (dirIndex virt)) = true)
    (hoff : ¬ bad (tableEntry (dirIndex virt) (tableIndex virt) / pageSize)) (phys : Nat) :
    t.pagingMapPage spec virt phys flags =
      if isPresent (t'.vm.pte (dirIndex virt) (tableIndex virt)) then .error .alreadyMapped
      else .ok (pagingInvalidatePage
        { t'.after spec [tableEntry (dirIndex virt) (tableIndex virt),
            tableEntry (dirIndex virt) (tableIndex virt)] with
          vm := t'.vm.withEntry (pageFrame (t'.vm.pde (dirIndex virt))) (tableIndex virt)
            (pteRaw phys flags) } virt) := by
  have hd := dirIndex_lt hvirt
  have ht := tableIndex_lt virt
  have hload := loadWord_table spec h hself hd ht hp hoff
  have hstore := storeWord_table spec
    (t := t'.after spec [tableEntry (dirIndex virt) (tableIndex virt)]) (h.after _)
    (by rwa [vm_after]) hd ht (by rwa [vm_after]) hoff (pteRaw phys flags)
  simp only [pagingMapPage, hget, Option.getD_some, hload, bind, Except.bind]
  split
  · rfl
  · rw [vm_after] at hstore
    simp only [pteRaw] at hstore
    simp only [hstore]
    rfl

variable (spec) in
omit halign in
/-- What `paging_unmap_page` does with it. -/
theorem pagingUnmapPage_of_getPage {t' : Tvm P}
    (hget : t.pagingGetPage spec virt false 0 =
      .ok (some (tableEntry (dirIndex virt) (tableIndex virt)), t'))
    (h : t'.Coherent) (hself : SelfMapped t'.vm.mem t'.vm.cr3)
    (hp : isPresent (t'.vm.pde (dirIndex virt)) = true) :
    t.pagingUnmapPage spec virt = .ok (pagingInvalidatePage
      { t'.after spec [tableEntry (dirIndex virt) (tableIndex virt),
          tableEntry (dirIndex virt) (tableIndex virt)] with
        vm := t'.vm.withEntry (pageFrame (t'.vm.pde (dirIndex virt))) (tableIndex virt)
          (t'.vm.pte (dirIndex virt) (tableIndex virt) -
            t'.vm.pte (dirIndex virt) (tableIndex virt) % 2) } virt) := by
  have hd := dirIndex_lt hvirt
  have ht := tableIndex_lt virt
  have hload := loadWord_table spec h hself hd ht hp id
  have hstore := storeWord_table spec
    (t := t'.after spec [tableEntry (dirIndex virt) (tableIndex virt)]) (CoherentOff.after h _)
    (by rwa [vm_after]) hd ht (by rwa [vm_after]) id
    (t'.vm.pte (dirIndex virt) (tableIndex virt) -
      t'.vm.pte (dirIndex virt) (tableIndex virt) % 2)
  rw [vm_after] at hstore
  simp only [pagingUnmapPage, hget, hload, hstore, bind, Except.bind, pure, Except.pure]
  rfl

variable (spec) in
omit hvirt in
/-- `paging_map_page` for a page whose table is missing: `t'` is the machine when the table
is there. -/
theorem pagingMapPage_of_new (hlt : virt < 0xFFC00000) (h : t.Coherent)
    (hfresh : FreshFrames valid taken) (hvalid : valid t.vm.pmm) (hwf : DirWF taken t.vm)
    (habs : isPresent (t.vm.pde (dirIndex virt)) = false) (hf : MapFlags flags)
    (halloc : FrameAllocator.allocPage t.vm.pmm = .ok (a, pmm)) (hne : a ≠ 0) (phys : Nat) :
    ∃ t' : Tvm P, t.pagingMapPage spec virt phys flags = .ok (pagingInvalidatePage
        { t'.after spec [dirEntry (dirIndex virt), tableEntry (dirIndex virt) (tableIndex virt),
            tableEntry (dirIndex virt) (tableIndex virt)] with
          vm := (t.vm.withTable (dirIndex virt) flags a pmm).withEntry a (tableIndex virt)
            (pteRaw phys flags) } virt) ∧
      t'.vm = t.vm.withTable (dirIndex virt) flags a pmm ∧ t'.CoherentOff (InSlot (dirIndex virt)) ∧
      (∀ j < pageEntries, (spec = true → isPresent (entry t.vm.mem a j) = false) →
        t'.tlb (dirIndex virt * 1024 + j) = none) ∧
      ∀ page, spec = true → t.moves 2 page = .fill → (∀ i, t.moves (i + 3) page = .keep) →
        t'.LeavesAlone page ∧
          t'.tlb page = (t.vm.clearing (dirIndex virt) flags a pmm 0).look page := by
  have hvirt : virt < 2 ^ 32 := by omega
  obtain ⟨hpage, hdir, -⟩ := page_of_aligned halign hlt
  have hd : dirIndex virt < 1023 := hdir ▸ (page_indices hpage).2.2.1
  have ha := hwf.tableFrame hfresh hvalid halloc hne
  let t₁ := t.act spec (dirEntry (dirIndex virt))
  have hcoh₁ : t₁.Coherent := CoherentOff.act spec h _
  obtain ⟨t₂, hcreate, hvm₂, hoff₂, hwithout, hfilled⟩ := pagingCreateTable_follows spec
    (t := t₁) hfresh hvalid hwf hcoh₁ hd habs hf halloc hne
  change t₂.vm = t.vm.withTable (dirIndex virt) flags a pmm at hvm₂
  have hwf₂ := hwf.withTable hfresh hvalid halloc hne hd habs hf
  have hself₂ : SelfMapped t₂.vm.mem t₂.vm.cr3 := by rw [hvm₂]; exact hwf₂.self
  have hpde := t.vm.pde_withTable pmm hwf.self.aligned ha flags (dirIndex_lt hvirt)
    (dirIndex_lt hvirt)
  rw [if_pos rfl] at hpde
  obtain ⟨-, hpres, -, hframe, -⟩ := pdeRaw_fields ha.aligned ha.lt hf
  have hpde₂ : t₂.vm.pde (dirIndex virt) = pdeRaw a flags := by rw [hvm₂]; exact hpde
  have hp₂ : isPresent (t₂.vm.pde (dirIndex virt)) = true := by rw [hpde₂, hpres]
  let t₃ := t₂.after spec [dirEntry (dirIndex virt)]
  have hvm₃ : t₃.vm = t₂.vm := vm_after _ _ _
  have hget := pagingGetPage_create halign hvirt h hwf.self habs hd hcreate hoff₂ hself₂ hp₂
  change _ = Except.ok (_, t₃) at hget
  have hmap := pagingMapPage_of_getPage spec hvirt hget (hoff₂.after _) (by rw [hvm₃]; exact hself₂) (by rw [hvm₃]; exact hp₂)
    (window_off hd (tableIndex_lt virt) (dirIndex_lt hvirt)).2 phys
  have hpte : t₂.vm.pte (dirIndex virt) (tableIndex virt) = 0 := by
    rw [hvm₂, Vm.pte, hpde, hframe, t.vm.entry_withTable pmm hwf.self.aligned ha flags
      (dirIndex_lt hvirt) ha.aligned (tableIndex_lt virt), if_pos rfl]
  rw [hvm₃, hpte, if_neg (by decide), hpde₂, hframe, hvm₂] at hmap
  exact ⟨t₂, hmap, hvm₂, hoff₂, hwithout, hfilled⟩

omit halign hvirt [FrameAllocator P] in
/-- **Invalidation** after a store that concerns one page. -/
theorem coherent_invalidate (h : t.CoherentOff (· = virt / pageSize)) {s : Vm P}
    (hlook : ∀ page ≠ virt / pageSize, s.look page = t.vm.look page) :
    (pagingInvalidatePage { t with vm := s } virt).Coherent :=
  Cache.Coherent.drop h fun page hne _ => ⟨hne, hlook page hne⟩

omit halign hvirt [FrameAllocator P] in
/-- A new table whose frame was clean, but for the entry of one page. -/
theorem coherentOff_of_clean (h : t.CoherentOff (InSlot (dirIndex virt)))
    (hclean : ∀ j < pageEntries, j ≠ tableIndex virt → t.tlb (dirIndex virt * 1024 + j) = none) :
    t.CoherentOff (· = virt / pageSize) := by
  refine Cache.Coherent.of_without h fun page hin => ?_
  rw [InSlot] at hin
  by_cases hindex : page % 1024 = tableIndex virt
  · left
    unfold dirIndex tableIndex pageSize at *
    omega
  · right
    have hnone := hclean (page % 1024) (by unfold pageEntries; omega) hindex
    rwa [show dirIndex virt * 1024 + page % 1024 = page by omega] at hnone

end

/-- The machines with and without a TLB are in the same state, and the TLB agrees with the
tables. -/
def Follows (t : Tvm P) (s : Vm P) : Prop := t.vm = s ∧ t.Coherent

section

variable [FrameAllocator P] {valid : P → Prop} {taken : P → Nat → Prop} {t : Tvm P} {spec : Bool}

/-- The frames that the allocator may hand out hold nothing that a speculating processor
would take for a page. -/
def FreeClean (taken : P → Nat → Prop) (s : Vm P) : Prop :=
  ∀ a, a % pageSize = 0 → ¬ taken s.pmm a → ∀ j < pageEntries, isPresent (entry s.mem a j) = false

/-- What the calls are promised: an allocator with fresh frames other than 0, a directory in
order, and clean frames if the processor speculates. -/
structure Promised (spec : Bool) (valid : P → Prop) (taken : P → Nat → Prop) (s : Vm P) : Prop where
  fresh : FreshFrames valid taken
  ne_zero : ∀ p a p', valid p → FrameAllocator.allocPage p = .ok (a, p') → a ≠ 0
  wf : DirWF taken s
  valid : valid s.pmm
  clean : spec = true → FreeClean taken s

theorem Promised.clean_frame {s : Vm P} (h : Promised spec valid taken s)
    (halloc : FrameAllocator.allocPage s.pmm = .ok (a, pmm)) (hspec : spec = true)
    (hj : j < pageEntries) : isPresent (entry s.mem a j) = false :=
  h.clean hspec a (h.fresh.aligned h.valid halloc).1
    (h.fresh.fresh h.valid halloc (h.ne_zero _ _ _ h.valid halloc)) j hj

/-- Frames that are still free were free before. -/
theorem taken_of_draws {p p' : P} (hfresh : FreshFrames valid taken)
    (h : Run AllocStep p as p') (hp : valid p) (hf : taken p f) : taken p' f := by
  have hboth := h.invariant (fun q => valid q ∧ taken q f)
    (fun q a q' hq hstep => ⟨hfresh.valid_of hq.1 hstep, hfresh.keeps hq.1 hstep hq.2⟩) ⟨hp, hf⟩
  exact hboth.2

/-- A call keeps the promise for the next one. -/
theorem Promised.next {s s' : Vm P} {maps : Nat → Nat → Prop} (h : Promised spec valid taken s)
    (hsim : Simulates valid taken maps s (.ok s') o) : Promised spec valid taken s' := by
  cases hsim with
  | zero hinv hanswer _ => exact absurd rfl (h.ne_zero _ _ _ hinv hanswer)
  | ok htables hwf hinv hcr3 hnew honly =>
      refine ⟨h.fresh, h.ne_zero, hwf, hinv, fun hspec a ha hfree j hj => ?_⟩
      have hold : ¬ taken s.pmm a := fun hf => hfree (taken_of_draws h.fresh hnew.draws h.valid hf)
      rw [honly a ha (fun hc => hfree (hc ▸ hcr3 ▸ hwf.dir_taken))
        (fun d hd hp hc => hfree (hc ▸ hwf.table_taken d hd hp)) j hj]
      exact h.clean hspec a ha hold j hj

section

variable (h : Promised spec valid taken t.vm) (hcoh : t.Coherent) (halign : virt % pageSize = 0)
  (hlt : virt < 0xFFC00000)

include h hcoh halign hlt

/-- **paging_map_page** on the machine with a TLB. -/
theorem pagingMapPage_follows (hphys : phys % pageSize = 0) (hphys' : phys < 2 ^ 32)
    (hf : MapFlags flags) :
    Agrees Follows (t.pagingMapPage spec virt phys flags)
      (NimbleOS.pagingMapPage t.vm virt phys flags) := by
  have hvirt : virt < 2 ^ 32 := by omega
  obtain ⟨hpage, hdir, htab⟩ := page_of_aligned halign hlt
  obtain ⟨-, -, hd, ht⟩ := page_indices hpage
  have hd' : dirIndex virt < 1023 := hdir ▸ hd
  have hraw := (pteRaw_fields hphys hphys' hf).1
  have hindex : ∀ page ≠ virt / pageSize, page ≠ dirIndex virt * 1024 + tableIndex virt :=
    fun page hne => by rw [hdir, htab]; omega
  cases hp : isPresent (t.vm.pde (dirIndex virt)) with
  | true =>
      let t₁ := t.after spec [dirEntry (dirIndex virt), dirEntry (dirIndex virt)]
      have hcoh₁ : t₁.Coherent := CoherentOff.after hcoh _
      have hvm₁ : t₁.vm = t.vm := vm_after _ _ _
      have hget := pagingGetPage_of_present spec halign hvirt hcoh h.wf.self hp true flags
      change _ = Except.ok (_, t₁) at hget
      have hmap := pagingMapPage_of_getPage spec hvirt hget hcoh₁
        (by rw [hvm₁]; exact h.wf.self) (by rw [hvm₁]; exact hp) id phys
      rw [hmap, NimbleOS.pagingMapPage_of_table h.wf.self halign hvirt hp, hvm₁]
      split
      · exact .error
      · refine .ok ⟨rfl, coherent_invalidate (hcoh₁.off.after _) fun page hne => ?_⟩
        rw [vm_after, hvm₁]
        exact Vm.look_withEntry h.wf hd' hp (tableIndex_lt virt) hraw (hindex page hne)
  | false =>
      cases halloc : FrameAllocator.allocPage t.vm.pmm with
      | error e =>
          rw [NimbleOS.pagingMapPage_of_error h.wf.self halign hvirt hp halloc, pagingMapPage,
            pagingGetPage_of_error halign hvirt hcoh h.wf.self hp halloc]
          exact .error
      | ok r =>
          obtain ⟨a, pmm⟩ := r
          have hne := h.ne_zero _ _ _ h.valid halloc
          have ha := h.wf.tableFrame h.fresh h.valid halloc hne
          obtain ⟨t₂, hmap, hvm₂, hoff₂, hwithout, -⟩ := pagingMapPage_of_new spec
            halign hlt hcoh h.fresh h.valid h.wf hp hf halloc hne phys
          rw [hmap, NimbleOS.pagingMapPage_create h.wf.self halign hvirt hp flags halloc ha]
          have hclean := coherentOff_of_clean hoff₂ fun j hj _ =>
            hwithout j hj fun hspec => h.clean_frame halloc hspec hj
          refine .ok ⟨rfl, coherent_invalidate (hclean.after _) fun page hne' => ?_⟩
          rw [vm_after, hvm₂]
          exact look_new_entry h.fresh h.valid h.wf hp hf halloc hne halign hlt hraw hne'

/-- **paging_unmap_page** on the machine with a TLB. -/
theorem pagingUnmapPage_follows :
    Agrees Follows (t.pagingUnmapPage spec virt) (NimbleOS.pagingUnmapPage t.vm virt) := by
  have hvirt : virt < 2 ^ 32 := by omega
  obtain ⟨hpage, hdir, htab⟩ := page_of_aligned halign hlt
  obtain ⟨-, -, hd, ht⟩ := page_indices hpage
  have hd' : dirIndex virt < 1023 := hdir ▸ hd
  let t₁ := t.after spec [dirEntry (dirIndex virt), dirEntry (dirIndex virt)]
  have hcoh₁ : t₁.Coherent := CoherentOff.after hcoh _
  have hvm₁ : t₁.vm = t.vm := vm_after _ _ _
  cases hp : isPresent (t.vm.pde (dirIndex virt)) with
  | true =>
      have hget := pagingGetPage_of_present spec halign hvirt hcoh h.wf.self hp false 0
      change _ = Except.ok (_, t₁) at hget
      have hunmap := pagingUnmapPage_of_getPage spec hvirt hget hcoh₁
        (by rw [hvm₁]; exact h.wf.self) (by rw [hvm₁]; exact hp)
      have hlt32 : t.vm.pte (dirIndex virt) (tableIndex virt) < 2 ^ 32 := entry_lt _ _ _
      rw [hunmap, NimbleOS.pagingUnmapPage_of_table h.wf.self halign hvirt hp, hvm₁]
      refine .ok ⟨rfl, coherent_invalidate (hcoh₁.off.after _) fun page hne => ?_⟩
      rw [vm_after, hvm₁]
      exact Vm.look_withEntry h.wf hd' hp (tableIndex_lt virt) (by omega)
        (by rw [hdir, htab]; omega)
  | false =>
      rw [NimbleOS.pagingUnmapPage_of_absent h.wf.self halign hvirt hp, pagingUnmapPage,
        pagingGetPage_of_absent halign hvirt hcoh h.wf.self hp]
      exact .ok ⟨hvm₁, hcoh₁⟩

end

/-- The loop of **paging_map_pages**. -/
theorem pagingMapPages_follows (h : Promised spec valid taken t.vm) (hcoh : t.Coherent)
    (halign : virt % pageSize = 0) (hend : virt + num * pageSize ≤ 0xFFC00000)
    (hphys : phys % pageSize = 0) (hphys' : phys < 2 ^ 32) (hf : MapFlags flags) :
    Agrees Follows (t.pagingMapPages spec virt phys num flags)
      (NimbleOS.pagingMapPages t.vm virt phys num flags) := by
  induction num generalizing t virt phys with
  | zero => exact .ok ⟨rfl, hcoh⟩
  | succ num ih =>
      obtain ⟨hu, halign', hend', -⟩ := next_page halign hend
      obtain ⟨hframe, hframe'⟩ := next_frame hphys
      have hlt : virt < 0xFFC00000 := by unfold pageSize at hend; omega
      rw [pagingMapPages, NimbleOS.pagingMapPages, hu]
      refine (pagingMapPage_follows h hcoh halign hlt hphys hphys' hf).bind
        fun t' s' _ hs' hfollows => ?_
      obtain ⟨rfl, hcoh'⟩ := hfollows
      have hsim : Simulates valid taken (fun _ _ => True) _ _ _ :=
        pagingMapPage_simulates h.wf halign hlt h.fresh h.valid hphys hphys' hf trivial
      rw [hs'] at hsim
      exact ih (h.next hsim) hcoh' halign' hend' hframe hframe'

/-- The loop of **paging_unmap_pages**. -/
theorem pagingUnmapPages_follows (h : Promised spec valid taken t.vm) (hcoh : t.Coherent)
    (halign : virt % pageSize = 0) (hend : virt + num * pageSize ≤ 0xFFC00000) :
    Agrees Follows (t.pagingUnmapPages spec virt num)
      (NimbleOS.pagingUnmapPages t.vm virt num) := by
  induction num generalizing t virt with
  | zero => exact .ok ⟨rfl, hcoh⟩
  | succ num ih =>
      obtain ⟨hu, halign', hend', -⟩ := next_page halign hend
      have hlt : virt < 0xFFC00000 := by unfold pageSize at hend; omega
      rw [pagingUnmapPages, NimbleOS.pagingUnmapPages, hu]
      refine (pagingUnmapPage_follows h hcoh halign hlt).bind fun t' s' _ hs' hfollows => ?_
      obtain ⟨rfl, hcoh'⟩ := hfollows
      have hsim : Simulates valid taken (fun _ _ => True) _ _ _ :=
        pagingUnmapPage_simulates h.wf halign hlt h.valid
      rw [hs'] at hsim
      exact ih (h.next hsim) hcoh' halign' hend'

end

end Tvm

/-! ## runs -/

def PagingOp.callTlb [FrameAllocator P] (spec : Bool) (t : Tvm P) : PagingOp → Except Halt (Tvm P)
  | mapPage virt phys flags => t.pagingMapPage spec virt phys flags
  | mapPages virt phys num flags => t.pagingMapPages spec virt phys num flags
  | unmapPage virt => t.pagingUnmapPage spec virt
  | unmapPages virt num => t.pagingUnmapPages spec virt num

/-- What the software does with its memory: the calls of the virtual memory manager, and the
accesses of whoever runs. -/
inductive VmEvent where
  | call (op : PagingOp)
  | switchDirectory (dirPhys : Nat)
  | invalidateCache
  | load (virt : Nat)
  | store (virt : Nat) (v : BitVec 8)

namespace VmEvent

variable [FrameAllocator P]

/-- An event by the tables alone, with the bytes that were read so far, the latest first. -/
def run (x : Vm P × List (BitVec 8)) : VmEvent → Except Halt (Vm P × List (BitVec 8))
  | call op => do
      let s ← op.call x.1
      return (s, x.2)
  | switchDirectory dirPhys => do
      let s ← pagingSwitchDirectory x.1 dirPhys
      return (s, x.2)
  | invalidateCache => .ok x
  | load virt => do
      let v ← x.1.loadByte virt
      return (x.1, v :: x.2)
  | store virt v => do
      let s ← x.1.storeByte virt v
      return (s, x.2)

/-- The same event through the TLB. -/
def runTlb (spec : Bool) (x : Tvm P × List (BitVec 8)) :
    VmEvent → Except Halt (Tvm P × List (BitVec 8))
  | call op => do
      let t ← op.callTlb spec x.1
      return (t, x.2)
  | switchDirectory dirPhys => do
      let t ← x.1.pagingSwitchDirectory dirPhys
      return (t, x.2)
  | invalidateCache => .ok (x.1.pagingInvalidateCache, x.2)
  | load virt => do
      let (v, t) ← x.1.loadByte spec virt
      return (t, v :: x.2)
  | store virt v => do
      let t ← x.1.storeByte spec virt v
      return (t, x.2)

/-- One event of a run by the tables. -/
def Step (x : Vm P × List (BitVec 8)) (e : VmEvent) (x' : Vm P × List (BitVec 8)) : Prop :=
  e.run x = .ok x'

omit [FrameAllocator P] in
/-- The directory that is switched to is in order, and bytes are stored into frames that are
in use and hold neither the directory nor a table. -/
def Legal (taken : P → Nat → Prop) (s : Vm P) : VmEvent → Prop
  | call op => op.Legal
  | switchDirectory dirPhys => DirWF taken (s.inDir dirPhys)
  | invalidateCache => True
  | load virt => virt < 2 ^ 32
  | store virt _ => virt < 2 ^ 32 ∧ ∀ f fl, s.look (virt / pageSize) = some (f, fl) →
      taken s.pmm f ∧ f ≠ s.cr3 ∧
        ∀ d < 1023, isPresent (s.pde d) = true → isLarge (s.pde d) = false →
          f ≠ pageFrame (s.pde d)

end VmEvent

namespace Tvm

variable [FrameAllocator P] {valid : P → Prop} {taken : P → Nat → Prop} {t : Tvm P} {spec : Bool}

/-- Both machines are in the same state, the TLB agrees with the tables, and the same bytes
were read. -/
def FollowsReads (x : Tvm P × List (BitVec 8)) (y : Vm P × List (BitVec 8)) : Prop :=
  x.1.Follows y.1 ∧ x.2 = y.2

theorem call_follows (h : Promised spec valid taken t.vm) (hcoh : t.Coherent) (op : PagingOp)
    (hlegal : op.Legal) : Agrees Follows (op.callTlb spec t) (op.call t.vm) := by
  cases op with
  | mapPage virt phys flags =>
      obtain ⟨halign, hlt, hphys, hphys', hf⟩ := hlegal
      exact pagingMapPage_follows h hcoh halign hlt hphys hphys' hf
  | mapPages virt phys num flags =>
      obtain ⟨halign, hend, hphys, hphys', hf⟩ := hlegal
      exact pagingMapPages_follows h hcoh halign hend hphys hphys' hf
  | unmapPage virt =>
      obtain ⟨halign, hlt⟩ := hlegal
      exact pagingUnmapPage_follows h hcoh halign hlt
  | unmapPages virt num =>
      obtain ⟨halign, hend⟩ := hlegal
      exact pagingUnmapPages_follows h hcoh halign hend

/-- A byte in a frame that holds neither the directory nor a table. -/
structure DataByte (taken : P → Nat → Prop) (s : Vm P) (f a : Nat) : Prop where
  aligned : f % pageSize = 0
  lo : f ≤ a
  hi : a < f + pageSize
  taken : taken s.pmm f
  ne_dir : f ≠ s.cr3
  ne_table : ∀ d < 1023, isPresent (s.pde d) = true → isLarge (s.pde d) = false →
    f ≠ pageFrame (s.pde d)

omit [FrameAllocator P] in
theorem DataByte.entry {s : Vm P} (h : DataByte taken s f a) (hg : g % pageSize = 0) (hne : g ≠ f)
    (hj : j < pageEntries) (v : BitVec 8) :
    entry (s.mem.setByte a v) g j = entry s.mem g j := by
  have haligned := h.aligned
  have hlo := h.lo
  have hhi := h.hi
  refine ByteMem.word_congr fun b hb hb' => ?_
  rw [ByteMem.setByte, if_neg]
  unfold pageEntries pageSize at *
  omega

omit [FrameAllocator P] in
/-- Storing it changes no translation. -/
theorem DataByte.look {s : Vm P} (h : DataByte taken s f a) (hself : SelfMapped s.mem s.cr3)
    (v : BitVec 8) (page : Nat) :
    Vm.look { s with mem := s.mem.setByte a v } page = s.look page := by
  have hpde : ∀ j, j < pageEntries → Vm.pde { s with mem := s.mem.setByte a v } j = s.pde j :=
    fun j hj => h.entry hself.aligned h.ne_dir.symm hj v
  have hindex : page % 1024 < pageEntries := by unfold pageEntries; omega
  refine Vm.look_congr hself rfl (hpde _) fun hslot hpres hlarge => ?_
  rw [Vm.pte, Vm.pte, hpde _ hslot]
  refine h.entry (pageFrame_mod _) ?_ hindex v
  by_cases hdir : page / 1024 = 1023
  · rw [hdir, Vm.pde, hself.self]
    exact h.ne_dir.symm
  · refine (h.ne_table _ ?_ hpres hlarge).symm
    unfold pageEntries at hslot
    omega

theorem DataByte.promised {s : Vm P} (hdata : DataByte taken s f a)
    (h : Promised spec valid taken s) (v : BitVec 8) :
    Promised spec valid taken { s with mem := s.mem.setByte a v } where
  fresh := h.fresh
  ne_zero := h.ne_zero
  wf := h.wf.congr rfl (fun _ hj => hdata.entry h.wf.self.aligned hdata.ne_dir.symm hj v) fun _ => id
  valid := h.valid
  clean := fun hspec g hg hfree j hj => by
    rw [hdata.entry hg (fun hc => hfree (hc ▸ hdata.taken)) hj]
    exact h.clean hspec g hg hfree j hj

omit [FrameAllocator P] in
/-- A store of a legal event, as the tables have it. -/
theorem store_cases {s s' : Vm P} (hlegal : VmEvent.Legal taken s (.store virt v))
    (hs : s.storeByte virt v = .ok s') :
    ∃ f a, DataByte taken s f a ∧ s' = { s with mem := s.mem.setByte a v } := by
  obtain ⟨hvirt, hframe⟩ := hlegal
  obtain ⟨a, haddr, hs'⟩ := bind_eq_ok.mp hs
  cases hs'
  unfold Vm.storeAddr at haddr
  split at haddr
  · contradiction
  unfold Vm.loadAddr at haddr
  split at haddr
  · next hwalk =>
    cases haddr
    obtain ⟨⟨f, fl⟩, htrans, hsum⟩ := Option.map_eq_some_iff.mp hwalk
    dsimp only at hsum
    have hlook : s.look (virt / pageSize) = some (f, fl) := by
      rw [Vm.look, if_pos (by unfold pageSize; omega), translate_page, htrans]
    obtain ⟨htaken, hdir, htable⟩ := hframe f fl hlook
    have hoff : virt % pageSize < pageSize := Nat.mod_lt _ (by decide)
    exact ⟨f, a, ⟨translate_aligned htrans, by omega, by omega, htaken, hdir, htable⟩, rfl⟩
  · contradiction

/-- **Step lemma**: an event through the TLB is the event by the tables, and keeps the
promise for the next one. -/
theorem event_follows (h : Promised spec valid taken t.vm) (hcoh : t.Coherent)
    (out : List (BitVec 8)) (e : VmEvent) (hlegal : e.Legal taken t.vm) :
    Agrees FollowsReads (e.runTlb spec (t, out)) (e.run (t.vm, out)) ∧
      ∀ s' out', e.run (t.vm, out) = .ok (s', out') → Promised spec valid taken s' := by
  cases e with
  | call op =>
      refine ⟨(call_follows h hcoh op hlegal).bind fun t' s' _ _ hfollows => .ok ⟨hfollows, rfl⟩,
        fun s' out' hrun => ?_⟩
      obtain ⟨s₁, hcall, hs'⟩ := bind_eq_ok.mp hrun
      cases hs'
      have hsim : Simulates valid taken (fun _ _ => True) _ _ _ :=
        PagingOp.call_simulates h.fresh h.wf h.valid op hlegal fun _ _ _ => trivial
      rw [hcall] at hsim
      exact h.next hsim
  | switchDirectory dirPhys =>
      constructor
      · rw [VmEvent.runTlb, VmEvent.run, Tvm.pagingSwitchDirectory]
        cases NimbleOS.pagingSwitchDirectory t.vm dirPhys with
        | error e => exact .error
        | ok s' => exact .ok ⟨⟨rfl, Cache.coherent_empty _ _⟩, rfl⟩
      · intro s' out' hrun
        obtain ⟨s, hswitch, hrun⟩ := bind_eq_ok.mp hrun
        obtain ⟨rfl, rfl⟩ := Prod.mk.inj (Except.ok.inj hrun)
        obtain ⟨-, rfl⟩ := pagingSwitchDirectory_eq_ok.mp hswitch
        exact ⟨h.fresh, h.ne_zero, hlegal, h.valid, h.clean⟩
  | invalidateCache =>
      refine ⟨.ok ⟨⟨rfl, Cache.coherent_empty _ _⟩, rfl⟩, fun s' out' hrun => ?_⟩
      cases hrun
      exact h
  | load virt =>
      have hload : t.loadByte spec virt = _ := loadByte_eq spec hcoh id
      constructor
      · rw [VmEvent.runTlb, VmEvent.run, hload]
        cases t.vm.loadByte virt with
        | error e => exact .error
        | ok v => exact .ok ⟨⟨rfl, CoherentOff.act spec hcoh virt⟩, rfl⟩
      · intro s' out' hrun
        obtain ⟨v, -, hs'⟩ := bind_eq_ok.mp hrun
        cases hs'
        exact h
  | store virt v =>
      have hstore : t.storeByte spec virt v = _ := storeByte_eq spec hcoh id v
      constructor
      · rw [VmEvent.runTlb, VmEvent.run, hstore]
        cases hs : t.vm.storeByte virt v with
        | error e => exact .error
        | ok s' =>
            obtain ⟨f, a, hdata, rfl⟩ := store_cases hlegal hs
            refine .ok ⟨⟨rfl, ?_⟩, rfl⟩
            exact (CoherentOff.act spec hcoh virt).change fun page v' _ _ =>
              ⟨id, fun hl => (hdata.look h.wf.self v page).trans hl⟩
      · intro s' out' hrun
        obtain ⟨s₁, hs, hs'⟩ := bind_eq_ok.mp hrun
        cases hs'
        obtain ⟨f, a, hdata, rfl⟩ := store_cases hlegal hs
        exact hdata.promised h v

/-- **The TLB is not seen.**  Over every run of calls, directory switches and accesses, and
whatever the processor fills and evicts in between, the machine with the TLB fails where the
machine without it fails, reads the same bytes, and ends in the same state with a TLB that
agrees with the tables.  Only a processor that speculates needs clean frames for this. -/
theorem tlb_run_follows (h : Promised spec valid taken t.vm) (hcoh : t.Coherent)
    (out : List (BitVec 8)) (es : List VmEvent)
    (hlegal : Run.Always VmEvent.Step (fun x e => e.Legal taken x.1) (t.vm, out) es) :
    Agrees FollowsReads (es.foldlM (VmEvent.runTlb spec) (t, out))
      (es.foldlM VmEvent.run (t.vm, out)) := by
  induction es generalizing t out with
  | nil => exact .ok ⟨⟨rfl, hcoh⟩, rfl⟩
  | cons e es ih =>
      obtain ⟨hfollows, hnext⟩ := event_follows h hcoh out e hlegal.head
      rw [List.foldlM_cons, List.foldlM_cons]
      refine hfollows.bind fun x y _ hy hxy => ?_
      obtain ⟨t', out'⟩ := x
      obtain ⟨s', out''⟩ := y
      obtain ⟨⟨hvm, hcoh'⟩, hout⟩ := hxy
      change t'.vm = s' at hvm
      change out' = out'' at hout
      subst hvm hout
      exact ih (hnext _ _ hy) hcoh' out' (hlegal.tail hy)

/-! ## a speculating processor -/

/-- The processor fills `page` just before the first byte of a new table is cleared, and does
nothing else. -/
def fillInWindow (page : Nat) : Nat → Nat → CacheMove :=
  fun i q => if i = 2 ∧ q = page then .fill else .keep

omit [FrameAllocator P] in
theorem tlb_invalidate (t : Tvm P) (s : Vm P) (hne : page ≠ virt / pageSize) :
    (pagingInvalidatePage { t with vm := s } virt).tlb page = t.tlb page :=
  Function.update_of_ne hne _ _

theorem fillInWindow_later (page i : Nat) : fillInWindow page (i + 3) page = .keep := by
  simp only [fillInWindow]
  exact if_neg (by omega)

/-- **What a speculating processor needs**: when `paging_map_page` creates a table, its TLB ends
in agreement with the tables whatever it has done meanwhile if and only if the frame of the
table held nothing that looks like a page, but perhaps at the entry that is being mapped. -/
theorem speculation_harmless_iff {s : Vm P} {c : Cache Nat (Nat × Nat)}
    (hfresh : FreshFrames valid taken) (hvalid : valid s.pmm) (hwf : DirWF taken s)
    (hcoh : c.Coherent (fun _ => False) s.look) (halign : virt % pageSize = 0)
    (hlt : virt < 0xFFC00000) (habs : isPresent (s.pde (dirIndex virt)) = false)
    (hphys : phys % pageSize = 0) (hphys' : phys < 2 ^ 32) (hf : MapFlags flags)
    (halloc : FrameAllocator.allocPage s.pmm = .ok (a, pmm)) (hne : a ≠ 0) :
    (∀ moves, ∃ t', (Tvm.mk s c moves).pagingMapPage true virt phys flags = .ok t' ∧ t'.Coherent) ↔
      ∀ j < pageEntries, j ≠ tableIndex virt → isPresent (entry s.mem a j) = false := by
  obtain ⟨hpage, hdir, -⟩ := page_of_aligned halign hlt
  have hd : dirIndex virt < 1023 := hdir ▸ (page_indices hpage).2.2.1
  have hraw := (pteRaw_fields hphys hphys' hf).1
  have ha := hwf.tableFrame hfresh hvalid halloc hne
  have hentry : ∀ page ≠ virt / pageSize,
      ((s.withTable (dirIndex virt) flags a pmm).withEntry a (tableIndex virt)
        (pteRaw phys flags)).look page = (s.withTable (dirIndex virt) flags a pmm).look page :=
    fun page hne' => look_new_entry hfresh hvalid hwf habs hf halloc hne halign hlt hraw hne'
  constructor
  · intro hall j hj hindex
    by_contra hpres
    rw [Bool.not_eq_false] at hpres
    obtain ⟨t', hmap, hcoh'⟩ := hall (fillInWindow (dirIndex virt * 1024 + j))
    obtain ⟨t₂, hmap', hvm₂, -, -, hfilled⟩ := pagingMapPage_of_new true
      (t := ⟨s, c, fillInWindow (dirIndex virt * 1024 + j)⟩) halign hlt hcoh hfresh hvalid hwf habs
      hf halloc hne phys
    rw [hmap] at hmap'
    cases hmap'
    obtain ⟨halone, hcached⟩ := hfilled (dirIndex virt * 1024 + j) rfl
      (by simp only [fillInWindow, and_self, if_true]) (fillInWindow_later (dirIndex virt * 1024 + j))
    -- the stale entry is the old content of the frame
    have hold : entry (s.clearing (dirIndex virt) flags a pmm 0).mem a j = entry s.mem a j := by
      rw [Vm.clearing, ByteMem.fill_zero, entry_setWord _ hwf.self.aligned ha.aligned (slot_lt hd)
        hj (pdeRaw_fields ha.aligned ha.lt hf).1, if_neg fun hc => ha.ne_dir hc.1]
    rw [Vm.look_clearing_slot hwf.self pmm ha hf hd (Nat.zero_le _) hj, hold, leaf, if_pos hpres]
      at hcached
    have hneq : dirIndex virt * 1024 + j ≠ virt / pageSize := by
      unfold dirIndex tableIndex pageEntries pageSize at *
      omega
    have hstale := hcoh' (dirIndex virt * 1024 + j) _ id
      ((tlb_invalidate _ _ hneq).trans ((halone.after _).trans hcached))
    -- but the new table is empty
    have hempty : (s.withTable (dirIndex virt) flags a pmm).look (dirIndex virt * 1024 + j) =
        none := by
      have hslot := Vm.look_clearing_slot hwf.self pmm ha hf hd (Nat.le_refl pageSize) hj
      have hzero := s.entry_withTable pmm hwf.self.aligned ha flags (slot_lt hd) ha.aligned hj
      rw [if_pos rfl] at hzero
      exact hslot.trans (leaf_eq_none.mpr (by
        rw [show entry (s.clearing (dirIndex virt) flags a pmm pageSize).mem a j = 0 from hzero]
        rfl))
    have hboth := ((hentry _ hneq).trans hempty).symm.trans hstale
    contradiction
  · intro hclean moves
    obtain ⟨t₂, hmap, hvm₂, hoff₂, hwithout, -⟩ := pagingMapPage_of_new true
      (t := ⟨s, c, moves⟩) halign hlt hcoh hfresh hvalid hwf habs hf halloc hne phys
    refine ⟨_, hmap, coherent_invalidate ?_ fun page hne' => ?_⟩
    · exact (coherentOff_of_clean hoff₂ fun j hj hindex =>
        hwithout j hj fun _ => hclean j hj hindex).after _
    · rw [vm_after, hvm₂]
      exact hentry page hne'

end Tvm

/-! ### an empty directory -/

section

/-- Nothing is cached; the processor fills every other entry and evicts the rest. -/
def emptyTvm : Tvm Pmm where
  vm := emptyDir
  tlb := .empty
  moves := fun i page => if (i + page) % 2 = 0 then .fill else .evict

theorem emptyDir_clean : Tvm.FreeClean Pmm.Taken emptyDir := by
  intro a ha hfree j hj
  have hne : a ≠ 0x1000 := by
    rintro rfl
    exact hfree (by unfold Pmm.Taken; decide)
  have hentry := entry_setWord (fun _ => 0) (v := 0x1003) (by decide : 0x1000 % pageSize = 0) ha
    (by decide : 1023 < pageEntries) hj (by decide)
  rw [if_neg fun hc => hne hc.1] at hentry
  rw [show entry emptyDir.mem a j = _ from hentry]
  rfl

theorem emptyTvm_promised (spec : Bool) :
    Tvm.Promised spec Pmm.Whole Pmm.Taken emptyTvm.vm where
  fresh := pmm_wholeFrames
  ne_zero := fun _ _ _ => Pmm.Whole.ne_zero
  wf := emptyDir_wf
  valid := twoUsed_whole
  clean := fun _ => emptyDir_clean

/-- A page is mapped, used, and unmapped. -/
def mapUseUnmap : List VmEvent :=
  [.call (.mapPage 0x400000 0x5000 6), .load 0x400004, .invalidateCache,
    .call (.unmapPage 0x400000), .load 0x400004]

theorem mapUseUnmap_legal : Run.Always VmEvent.Step (fun x e => e.Legal Pmm.Taken x.1)
    (emptyTvm.vm, []) mapUseUnmap := by
  intro pre e post x heq _
  have he : e ∈ mapUseUnmap := heq ▸ List.mem_append_right pre List.mem_cons_self
  simp only [mapUseUnmap, List.mem_cons, List.not_mem_nil, or_false] at he
  rcases he with rfl | rfl | rfl | rfl | rfl
  · exact (by decide : (0x400000 % pageSize = 0 ∧ 0x400000 < 0xFFC00000 ∧ 0x5000 % pageSize = 0 ∧
      0x5000 < 2 ^ 32 ∧ MapFlags 6))
  · exact (by decide : 0x400004 < 2 ^ 32)
  · trivial
  · exact (by decide : 0x400000 % pageSize = 0 ∧ 0x400000 < 0xFFC00000)
  · exact (by decide : 0x400004 < 2 ^ 32)

theorem tlb_run_follows_mapUseUnmap :
    Agrees Tvm.FollowsReads (mapUseUnmap.foldlM (VmEvent.runTlb true) (emptyTvm, []))
      (mapUseUnmap.foldlM VmEvent.run (emptyTvm.vm, [])) :=
  Tvm.tlb_run_follows (emptyTvm_promised true) (Cache.coherent_empty _ _) [] mapUseUnmap
    mapUseUnmap_legal

theorem speculation_harmless_iff_emptyDir :
    (∀ moves, ∃ t', (Tvm.mk emptyDir .empty moves).pagingMapPage true 0x400000 0x5000 6 = .ok t' ∧
        t'.Coherent) ↔
      ∀ j < pageEntries, j ≠ tableIndex 0x400000 →
        isPresent (entry emptyDir.mem 0x2000 j) = false := by
  obtain ⟨pmm, halloc⟩ := emptyDir_alloc
  exact Tvm.speculation_harmless_iff pmm_wholeFrames twoUsed_whole emptyDir_wf
    (Cache.coherent_empty _ _) (by decide) (by decide) (emptyDir_absent (by decide)) (by decide)
    (by decide) (by decide) halloc (by decide)

end

end NimbleOS
