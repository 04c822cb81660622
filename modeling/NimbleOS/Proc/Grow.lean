import NimbleOS.Paging.Progress
import NimbleOS.Proc.Requests

/-!
# NimbleOS.Proc.Grow

Fresh pages in an address space: `pmm_alloc_pages` and `paging_map_pages`, as
`proc_run_code` uses them for code and stack.  `Grown` says what the pair does to
the page map, to the directory and to the rest of memory; copying the code and
removing the write flag of its pages keep the statement, up to the flags.
-/

namespace NimbleOS

open Pmm

/-- The frames of `num` pages from `a` on. -/
def InPages (a num f : Nat) : Prop := a ≤ f ∧ f < a + num * pageSize

/-- `num` fresh pages at `a` are mapped from `page` on, with the entry flags `fl`;
`ts` are the page tables that this took. -/
structure Grown (s s' : Vm Pmm) (page num fl a : Nat) (ts : List (Nat × Nat)) : Prop where
  cr3 : s'.cr3 = s.cr3
  wf : DirWF Pmm.Taken s'
  draws : Draws s s' (ts.map (fun (d, f) => .table d f) ++ [.pages num a])
  tables : ∀ p, s'.tables p =
    if page ≤ p ∧ p < page + num then some (a + (p - page) * pageSize, fl) else s.tables p
  slots : NewSlots (fun p f => (page ≤ p ∧ p < page + num) ∧ f = 6) s s' ts
  within : page + num ≤ mappablePages
  aligned : a % pageSize = 0 ∧ a + num * pageSize ≤ 2 ^ 32
  apart : Apart (InPages a num) s'
  only : ∀ f, f % pageSize = 0 → f ≠ s.cr3 → ¬ InPages a num f →
    (∀ d ∈ pageSlots page num, pageFrame (s'.pde d) ≠ f) →
    ∀ j < pageEntries, entry s'.mem f j = entry s.mem f j

/-! ## allocating and mapping -/

theorem Vm.allocPages_of_answer (s : Vm Pmm) (h : pmmAllocPages s.pmm num = (a, p)) :
    s.allocPages num = (a, { s with pmm := p, log := .pages num a :: s.log }) := by
  rw [allocPages, h, gotPages]

theorem Vm.allocPages_draws {s t : Vm Pmm} (h : s.allocPages num = (a, t)) :
    Draws s t [.pages num a] ∧ t.mem = s.mem ∧ t.cr3 = s.cr3 := by
  obtain ⟨⟨b, p⟩, hcall⟩ : ∃ r, pmmAllocPages s.pmm num = r := ⟨_, rfl⟩
  rw [s.allocPages_of_answer hcall, Prod.mk.injEq] at h
  obtain ⟨rfl, rfl⟩ := h
  exact ⟨⟨rfl, .single hcall⟩, rfl, rfl⟩

theorem mem_blocksFrom_of_inPages (ha : a % pageSize = 0) (h : InPages a num f) :
    f / pageSize ∈ blocksFrom a num := by
  unfold InPages at h
  rw [blocksFrom, Finset.mem_Ico]
  unfold pageSize at *
  omega

/-- What `pmm_alloc_pages` has done when it succeeds. -/
theorem allocPages_spec {s t : Vm Pmm} (hs : s.pmm.Sane) (hnum : 0 < num)
    (h : s.allocPages num = (a, t)) (hne : a ≠ 0) :
    DrawsSpec s.pmm [.pages num a] t.pmm ∧ a % pageSize = 0 ∧ a + num * pageSize ≤ 2 ^ 32 ∧
      (∀ f, s.pmm.Taken f → ¬ InPages a num f) ∧ ∀ f, InPages a num f → t.pmm.Taken f := by
  obtain ⟨hdraws, -, -⟩ := Vm.allocPages_draws h
  have hspec := hdraws.spec hs (List.forall_mem_singleton.mpr hne)
  have hpages : ∀ b ∈ blocksFrom a num, b < s.pmm.maxBlocks ∧ s.pmm.isUsed b = false :=
    hspec.free _ (List.mem_singleton_self _)
  have hmem : ∀ i < num, a / pageSize + i ∈ blocksFrom a num := fun i hi => by
    rw [blocksFrom, Finset.mem_Ico]
    omega
  obtain ⟨ha, hlt⟩ : a % pageSize = 0 ∧ a < 2 ^ 32 :=
    hspec.aligned _ (List.mem_singleton_self _) _ (hmem 0 hnum)
  have hlast := (hpages _ (hmem (num - 1) (by omega))).1
  have hmax := hs.max_le
  refine ⟨hspec, ha, by unfold pageSize at *; omega, fun f hf hin => ?_, fun f hin => ?_⟩
  · rw [Pmm.Taken, (hpages _ (mem_blocksFrom_of_inPages ha hin)).2] at hf
    contradiction
  · exact (hspec.used _).mpr (.inr ⟨_, List.mem_singleton_self _, mem_blocksFrom_of_inPages ha hin⟩)

/-- Allocated pages leave the directory as it was. -/
theorem allocPages_wf {s t : Vm Pmm} (hs : s.pmm.Sane) (hwf : DirWF Pmm.Taken s) (hnum : 0 < num)
    (halloc : s.allocPages num = (a, t)) (hne : a ≠ 0) :
    t.pmm.Sane ∧ DirWF Pmm.Taken t ∧ (∀ j, t.pde j = s.pde j) ∧ t.tables = s.tables := by
  obtain ⟨-, hmem, hcr3⟩ := Vm.allocPages_draws halloc
  obtain ⟨hspec, -⟩ := allocPages_spec hs hnum halloc hne
  have hpde : ∀ j, t.pde j = s.pde j := Vm.pde_of_same hmem hcr3
  have hwf' : DirWF Pmm.Taken t := hwf.congr hcr3 (fun d _ => hpde d) fun f hf =>
    (hspec.used _).mpr (.inl hf)
  exact ⟨hspec.sane, hwf', hpde, Vm.tables_of_same hmem hcr3⟩

/-- **Growing** an address space: if the pages and one frame for every missing
page table are granted, both calls return. -/
theorem grow_returns {s : Vm Pmm} (hs : s.pmm.Sane) (hwf : DirWF Pmm.Taken s) (hnum : 0 < num)
    (halign : virt % pageSize = 0) (hend : virt + num * pageSize ≤ 0xFFC00000)
    (hfree : ∀ i < num, s.tables (virt / pageSize + i) = none)
    (hgrant : Run Request.Granted s.pmm
      (.pages num :: List.replicate (s.missing (virt / pageSize) num).card .page) p') :
    ∃ a t s' ts, s.allocPages num = (a, t) ∧
      pagingMapPages t virt a num (pageUser ||| pageRw) = .ok s' ∧ s'.pmm = p' ∧
      p'.Sane ∧ s.Succeeds s' ∧ Grown s s' (virt / pageSize) num 7 a ts := by
  cases hgrant with
  | @cons _ _ p₁ _ _ hpages htabs =>
      obtain ⟨a, hne, hcall⟩ := hpages
      obtain ⟨as, hlen, hnz, hrun⟩ := allocSteps_of_granted htabs
      have halloc := s.allocPages_of_answer (Except.ok.inj hcall)
      generalize ht : ({ s with pmm := p₁, log := .pages num a :: s.log } : Vm Pmm) = t at halloc
      obtain ⟨hdraws, hmem, hcr3⟩ := Vm.allocPages_draws halloc
      obtain ⟨hspec, ha, hlast, hout, hin⟩ := allocPages_spec hs hnum halloc hne
      obtain ⟨-, hwf₁, hpde, htables⟩ := allocPages_wf hs hwf hnum halloc hne
      have hmissing : t.missing (virt / pageSize) num = s.missing (virt / pageSize) num := by
        simp only [Vm.missing, hpde]
      have hpmm : t.pmm = p₁ := by rw [← ht]
      obtain ⟨s', ts, hmap, hsucc, hpmm', hmapped⟩ := pagingMapPages_returns pmm_freshFrames hwf₁
        hspec.sane halign hend ha (by unfold pageSize at *; omega)
        (by decide : MapFlags (pageUser ||| pageRw)) (by rwa [htables]) (by rwa [hpmm]) hnz
        (by rw [hlen, hmissing])
      have hsucc₁ : s.Succeeds t := ⟨_, hdraws.log, List.forall_mem_singleton.mpr hne⟩
      have hnew := hmapped.new
      refine ⟨a, t, s', ts, halloc, hmap, hpmm', hpmm' ▸ hmapped.inv, hsucc₁.trans hsucc,
        { cr3 := hmapped.cr3.trans hcr3
          wf := hmapped.wf
          draws := hdraws.trans hnew.draws_log
          tables := fun p => ?_
          slots := hnew.toNewSlots.congr_left fun d _ => (hpde d).symm
          within := by unfold mappablePages pageSize at *; omega
          aligned := ⟨ha, hlast⟩
          apart := ⟨?_, fun d hd hp hin' => ?_⟩
          only := fun f hf hdir _ hnot j hj => ?_ }⟩
      · have hmap' := hmapped.tables
        rw [htables, PageMap.mapRange, if_pos hfree, Option.some.injEq] at hmap'
        rw [← hmap']
        dsimp only
        by_cases hp : virt / pageSize ≤ p ∧ p < virt / pageSize + num
        · rw [if_pos hp, if_pos hp, u32_of_lt (by unfold pageSize at *; omega)]
          rfl
        · rw [if_neg hp, if_neg hp]
      · rw [hmapped.cr3, hcr3]
        exact hout _ hwf.dir_taken
      · refine hnew.ne_of_taken hspec.sane hsucc (hin _ hin') (fun d' hd' hp' heq => ?_) d hd hp rfl
        rw [hpde] at hp' heq
        exact hout _ (heq ▸ hwf.table_taken d' hd' hp') hin'
      · rw [hmapped.only f hf (by rwa [hcr3]) hnot j hj, hmem]

/-! ## copying the code -/

/-- Stores into the new pages. -/
theorem Grown.stores {s s' s'' : Vm Pmm} (h : Grown s s' page num fl a ts)
    (hagree : AgreeOff (InPages a num) s' s'') : Grown s s'' page num fl a ts := by
  have hcr3 := h.wf.self.aligned
  have hpde := fun j (hj : j < pageEntries) => hagree.pde_eq h.apart hcr3 hj
  exact
    { cr3 := hagree.cr3.trans h.cr3
      wf := hagree.wf h.apart h.wf
      draws := h.draws.trans (.nil hagree.toSameButMem)
      tables := by rw [hagree.tables_eq h.apart hcr3]; exact h.tables
      slots := h.slots.congr hpde
      within := h.within
      aligned := h.aligned
      apart := hagree.apart h.apart hcr3
      only := fun f hf hdir hin hnot j hj => by
        rw [hagree.entries f hf hin j hj]
        refine h.only f hf hdir hin (fun d hd => ?_) j hj
        have hslot := slot_of_mem_pageSlots h.within hd
        rw [← hpde d (slot_lt hslot)]
        exact hnot d hd }

/-- **Copying the code** to the new pages. -/
theorem Grown.storeCode {s s' : Vm Pmm} (h : Grown s s' 0 num fl a ts)
    (hsmall : ∀ d < kernelPageDirIndex, s.SmallSlot d) (hend : len ≤ kernelBaseVirt)
    (hlen : len ≤ num * pageSize) (code : Nat → BitVec 8) :
    storeBytes s' 0 code len = .ok { s' with mem := s'.mem.fill a len code } ∧
      Grown s { s' with mem := s'.mem.fill a len code } 0 num fl a ts := by
  have hagree : ∀ (f : Nat → BitVec 8) k, k ≤ len →
      AgreeOff (InPages a num) s' { s' with mem := s'.mem.fill a k f } := fun f k hk =>
    agreeOff_fill s' h.aligned.1 (fun g _ hlo hhi => ⟨hlo, by omega⟩) f
  refine ⟨storeBytes_eq_fill s' (by unfold kernelBaseVirt at hend; omega) (by omega)
    (fun f k i hki hi => ?_) code, h.stores (hagree code len (Nat.le_refl _))⟩
  have hgrown := h.stores (hagree f k (by omega))
  have htables := hgrown.tables (i / pageSize)
  have hpage : i / pageSize < num := Nat.div_lt_of_lt_mul (by rw [Nat.mul_comm]; omega)
  rw [if_pos ⟨Nat.zero_le _, by omega⟩] at htables
  have hslot : i / pageSize / 1024 < kernelPageDirIndex := by
    unfold kernelPageDirIndex kernelBaseVirt pageSize at *
    omega
  have hwalk := Vm.walk_of_tables hgrown.wf.self (hgrown.slots.smallSlot (by
    unfold kernelPageDirIndex kernelBaseVirt at hslot; omega) (hsmall _ hslot)) htables
    (o := i % pageSize) (Nat.mod_lt _ (by decide))
  have hsplit : ∀ b, b + i / pageSize * pageSize + i % pageSize = b + i := fun b => by
    rw [Nat.add_assoc, Nat.div_add_mod']
  rw [Nat.sub_zero, hsplit, Nat.div_add_mod'] at hwalk
  rwa [Nat.zero_add]

/-! ## removing the write flag -/

/-- The first `k` pages have lost their write flag. -/
structure Protected (s s' : Vm Pmm) (k : Nat) : Prop extends s.SameButMem s' where
  wf : DirWF Pmm.Taken s'
  pde : ∀ j < pageEntries, s'.pde j = s.pde j
  tables : ∀ p, s'.tables p = if p < k then (s.tables p).map fun (f, _) => (f, 5) else s.tables p
  only : OnlySlots s s' (pageSlots 0 k)

/-- `p->rw = 0` of a writable user page. -/
theorem leaf_clear_rw (h : leaf w = some (f, 7)) : leaf (w - w / 2 % 2 * 2) = some (f, 5) := by
  unfold leaf at h
  split at h
  swap
  · contradiction
  simp only [Option.some.injEq, Prod.mk.injEq] at h
  obtain ⟨rfl, hflags⟩ := h
  unfold pageSize at hflags
  have hcleared : w - w / 2 % 2 * 2 = w - 2 := by omega
  have hp : isPresent (w - 2) = true := by
    rw [isPresent_iff]
    omega
  have hframe : pageFrame (w - 2) = pageFrame w := by
    unfold pageFrame pageSize
    omega
  rw [hcleared, leaf, if_pos hp, hframe, show (w - 2) % pageSize = 5 by unfold pageSize; omega]

/-- One round of the loop. -/
theorem procProtectCode_succ {s t : Vm Pmm} (hrun : procProtectCode s k = .ok t)
    (hwf : DirWF Pmm.Taken t) (hk : k < mappablePages) (htab : t.tables k = some (f, 7)) :
    ∃ v < 2 ^ 32, leaf v = some (f, 5) ∧ isPresent (t.pde (k / 1024)) = true ∧
      procProtectCode s (k + 1) =
        .ok (t.withEntry (pageFrame (t.pde (k / 1024))) (k % 1024) v) := by
  obtain ⟨hdir, hidx, hd, ht⟩ := page_indices hk
  have hp : isPresent (t.pde (k / 1024)) = true := by
    rw [← Bool.not_eq_false]
    intro habs
    rw [Vm.tables_of_absent habs] at htab
    contradiction
  have hlt : k * pageSize < 2 ^ 32 := by unfold mappablePages pageSize at *; omega
  have hget := pagingGetPage_of_present hwf.self (Nat.mul_mod_left k pageSize) hlt
    (by rw [hdir]; exact hp) false 0
  rw [hdir, hidx] at hget
  have hload := t.loadWord_tableEntry hwf.self (slot_lt hd) ht hp
  have hw : t.pte (k / 1024) (k % 1024) < 2 ^ 32 := entry_lt _ _ _
  rw [Vm.tables_of_present hk hp] at htab
  generalize t.pte (k / 1024) (k % 1024) = w at hload htab hw
  refine ⟨w - w / 2 % 2 * 2, by omega, leaf_clear_rw htab, hp, ?_⟩
  refine bind_eq_ok.mpr ⟨t, hrun, ?_⟩
  rw [u32_of_lt hlt]
  exact bind_eq_ok.mpr ⟨_, hget, bind_eq_ok.mpr ⟨w, hload,
    t.storeWord_tableEntry hwf.self (slot_lt hd) ht hp _⟩⟩

theorem procProtectCode_spec {s : Vm Pmm} (hwf : DirWF Pmm.Taken s) (hk : k ≤ mappablePages)
    (htables : ∀ p < k, ∃ f, s.tables p = some (f, 7)) :
    ∃ s', procProtectCode s k = .ok s' ∧ Protected s s' k := by
  induction k with
  | zero =>
      exact ⟨s, rfl, ⟨⟨rfl, rfl, rfl⟩, hwf, fun _ _ => rfl, fun p => by simp,
        fun _ _ _ _ _ _ => rfl⟩⟩
  | succ k ih =>
      obtain ⟨t, hrun, hprot⟩ := ih (by omega) fun p hp => htables p (by omega)
      obtain ⟨f, hf⟩ := htables k (Nat.lt_succ_self k)
      have hk' : t.tables k = some (f, 7) := by rw [hprot.tables, if_neg (Nat.lt_irrefl k), hf]
      obtain ⟨v, hv, hleaf, hp, hrun'⟩ := procProtectCode_succ hrun hprot.wf (by omega) hk'
      obtain ⟨-, -, hd, ht⟩ := page_indices (by omega : k < mappablePages)
      have hpde := fun j hj => t.pde_withEntry hprot.wf hd hp ht hv (j := j) hj
      refine ⟨_, hrun', hprot.toSameButMem.trans ⟨rfl, rfl, rfl⟩, hprot.wf.withEntry hd hp ht hv,
        fun j hj => (hpde j hj).trans (hprot.pde j hj), fun p => ?_, fun g hg hdir hnot j hj => ?_⟩
      · rw [t.tables_withEntry hprot.wf (by omega) hp hv, hleaf]
        by_cases heq : p = k
        · subst heq
          rw [Function.update_self, if_pos (Nat.lt_succ_self p), hf]
          rfl
        · rw [Function.update_of_ne heq, hprot.tables]
          by_cases hlt : p < k
          · rw [if_pos hlt, if_pos (by omega)]
          · rw [if_neg hlt, if_neg (by omega)]
      · have hnot' : ∀ d ∈ pageSlots 0 (k + 1), pageFrame (t.pde d) ≠ g := fun d hd' => by
          have hslot := slot_of_mem_pageSlots (by omega) hd'
          rw [← hpde d (slot_lt hslot)]
          exact hnot d hd'
        have hne := hnot' _ (mem_pageSlots.mpr ⟨k, Nat.zero_le k, by omega, rfl⟩)
        rw [t.entry_withEntry (pageFrame_mod _) hg ht hj hv, if_neg fun hc => hne hc.1.symm]
        refine hprot.only g hg hdir (fun d hd' => ?_) j hj
        obtain ⟨p, hlo, hhi, rfl⟩ := mem_pageSlots.mp hd'
        exact hnot' _ (mem_pageSlots.mpr ⟨p, hlo, by omega, rfl⟩)

/-- Without the write flag the pages are as grown, with other flags. -/
theorem Grown.protect {s s' s'' : Vm Pmm} (h : Grown s s' 0 num 7 a ts)
    (hprot : Protected s' s'' num) : Grown s s'' 0 num 5 a ts where
  cr3 := hprot.cr3.trans h.cr3
  wf := hprot.wf
  draws := h.draws.trans (.nil hprot.toSameButMem)
  tables := fun p => by
    rw [hprot.tables, h.tables]
    by_cases hp : p < num
    · rw [if_pos hp, if_pos ⟨Nat.zero_le p, by omega⟩, if_pos ⟨Nat.zero_le p, by omega⟩]
      rfl
    · rw [if_neg hp, if_neg (by omega), if_neg (by omega)]
  slots := h.slots.congr hprot.pde
  within := h.within
  aligned := h.aligned
  apart :=
    { dir := by rw [hprot.cr3]; exact h.apart.dir
      table := fun d hd => by rw [hprot.pde d (slot_lt hd)]; exact h.apart.table d hd }
  only := fun f hf hdir hin hnot j hj => by
    rw [hprot.only f hf (by rwa [h.cr3]) hnot j hj]
    refine h.only f hf hdir hin (fun d hd => ?_) j hj
    rw [← hprot.pde d (slot_lt (slot_of_mem_pageSlots h.within hd))]
    exact hnot d hd

/-! ## code and stack -/

/-- The bytes of the grown pages, under stores to other frames. -/
theorem Grown.bytes_kept {s s' s'' : Vm Pmm} (h : Grown s s' page num fl a ts)
    (hkeep : ∀ f, f % pageSize = 0 → InPages a num f → f ≠ s'.cr3 →
      (∀ d < 1023, isPresent (s'.pde d) = true → pageFrame (s'.pde d) ≠ f) →
      ∀ j < pageEntries, entry s''.mem f j = entry s'.mem f j)
    (hi : i < num * pageSize) : s''.mem (a + i) = s'.mem (a + i) := by
  have ha := h.aligned.1
  have hin : InPages a num (a + i / pageSize * pageSize) := by
    unfold InPages pageSize at *
    omega
  have hsplit : a + i / pageSize * pageSize + i % pageSize = a + i := by
    rw [Nat.add_assoc, Nat.div_add_mod']
  rw [← hsplit]
  refine byte_of_entries (hkeep _ (by unfold pageSize at *; omega) hin (fun heq => ?_)
    fun d hd hp heq => ?_) (Nat.mod_lt _ (by decide))
  · exact h.apart.dir (heq ▸ hin)
  · exact h.apart.table d hd hp (heq ▸ hin)

/-- The slots of the grown pages are present. -/
theorem Grown.present {s s' : Vm Pmm} (h : Grown s s' page num fl a ts)
    (hd : d ∈ pageSlots page num) : isPresent (s'.pde d) = true := by
  obtain ⟨p, hlo, hhi, rfl⟩ := mem_pageSlots.mp hd
  rw [← Bool.not_eq_false]
  intro habs
  have hpage := h.tables p
  rw [if_pos ⟨hlo, hhi⟩, Vm.tables_of_absent habs] at hpage
  contradiction

/-- Frames in use keep their contents, but for the directory and the tables of the pages. -/
theorem Grown.only_taken {s s' : Vm Pmm} (h : Grown s s' page num fl a ts) (hs : s.pmm.Sane)
    (hsucc : s.Succeeds s') (hf : f % pageSize = 0) (htaken : s.pmm.Taken f) (hdir : f ≠ s.cr3)
    (hold : ∀ d ∈ pageSlots page num, isPresent (s.pde d) = true → pageFrame (s.pde d) ≠ f) :
    ∀ j < pageEntries, entry s'.mem f j = entry s.mem f j := by
  have hne := h.draws.addr_ne hsucc
  refine h.only f hf hdir (fun hin => ?_) fun d hd heq => ?_
  · exact h.draws.not_taken hs hne (List.mem_append_right _ (List.mem_singleton_self _))
      (mem_blocksFrom_of_inPages h.aligned.1 hin) htaken
  · have hlt := slot_of_mem_pageSlots h.within hd
    cases hp : isPresent (s.pde d) with
    | true => exact hold d hd hp (by rw [← h.slots.kept hlt hp]; exact heq)
    | false =>
        obtain ⟨t, ht, rfl⟩ := h.slots.mem_of_present (slot_lt hlt) hp (h.present hd)
        rw [(h.slots.placed t ht).2.2] at heq
        have hmem : Alloc.table t.1 t.2 ∈
            ts.map (fun (d, a) => Alloc.table d a) ++ [.pages num a] :=
          List.mem_append_left _ (Alloc.table_mem_map ht)
        exact h.draws.not_taken hs hne hmem (mem_blocks_table t.1 t.2) (heq ▸ htaken)

section

variable {s : Vm Pmm} {p' : Pmm} (hs : s.pmm.Sane) (hwf : DirWF Pmm.Taken s)

include hs hwf

/-- **The code of a process**: its pages are mapped read-only and hold the code. -/
theorem procLoadCode_returns (code : Nat → BitVec 8)
    (hend : len ≤ kernelBaseVirt) (hfree : ∀ p < numCodePages len, s.tables p = none)
    (hsmall : ∀ d < kernelPageDirIndex, s.SmallSlot d)
    (hgrant : Run Request.Granted s.pmm (.pages (numCodePages len) ::
      List.replicate (s.missing 0 (numCodePages len)).card .page) p') :
    ∃ c s' ts, procLoadCode s code len (numCodePages len) = .ok s' ∧ s'.pmm = p' ∧ p'.Sane ∧
      s.Succeeds s' ∧ Grown s s' 0 (numCodePages len) 5 c ts ∧
      ∀ i < len, s'.mem (c + i) = code i := by
  have hlen : len ≤ numCodePages len * pageSize := by unfold numCodePages pageSize; omega
  have hpages : numCodePages len * pageSize ≤ 0xFFC00000 := by
    unfold numCodePages kernelBaseVirt pageSize at *
    omega
  have hpos : 0 < numCodePages len := Nat.succ_pos _
  generalize numCodePages len = num at *
  obtain ⟨c, t, s₁, ts, halloc, hmap, rfl, hsane, hsucc, hgrown⟩ :=
    grow_returns hs hwf hpos (rfl : 0 % pageSize = 0) (by omega)
      (fun i hi => by rw [Nat.zero_div, Nat.zero_add]; exact hfree i hi) hgrant
  rw [Nat.zero_div] at hgrown
  obtain ⟨hstore, hcopied⟩ := hgrown.storeCode hsmall hend hlen code
  generalize hs₂ : ({ s₁ with mem := s₁.mem.fill c len code } : Vm Pmm) = s₂ at hstore hcopied
  have hmem : s₂.mem = s₁.mem.fill c len code := by rw [← hs₂]
  have hsame : s₁.SameButMem s₂ := by rw [← hs₂]; exact ⟨rfl, rfl, rfl⟩
  have hwithin := hcopied.within
  obtain ⟨s', hrun, hprot⟩ := procProtectCode_spec hcopied.wf (k := num) (by omega) fun p hp =>
    ⟨_, by rw [hcopied.tables, if_pos ⟨Nat.zero_le p, by omega⟩]⟩
  refine ⟨c, s', ts, ?_, hprot.pmm.trans hsame.pmm, hsane, ?_, hcopied.protect hprot,
    fun i hi => ?_⟩
  · rw [procLoadCode, halloc]
    exact bind_eq_ok.mpr ⟨s₁, hmap, bind_eq_ok.mpr ⟨s₂, hstore, hrun⟩⟩
  · obtain ⟨new, hlog, hnz⟩ := hsucc
    exact ⟨new, by rw [hprot.log, hsame.log, hlog], hnz⟩
  · rw [hcopied.bytes_kept (fun f hf _ hdir htab => hprot.only f hf hdir fun d hd => ?_) (by omega),
      hmem, ByteMem.fill, if_pos (by omega), Nat.add_sub_cancel_left]
    have hlt := slot_of_mem_pageSlots hwithin hd
    rw [hprot.pde d (slot_lt hlt)]
    exact htab d hlt (hcopied.present hd)

/-- **The stack of a process.** -/
theorem procMapStack_returns
    (hfree : ∀ i < procKernelStackPages, s.tables (stackPage + i) = none)
    (hgrant : Run Request.Granted s.pmm (.pages procKernelStackPages ::
      List.replicate (s.missing stackPage procKernelStackPages).card .page) p') :
    ∃ a s' ts, procMapStack s procKernelStackPages = .ok s' ∧ s'.pmm = p' ∧ p'.Sane ∧
      s.Succeeds s' ∧ Grown s s' stackPage procKernelStackPages 7 a ts := by
  have hvirt : u32Sub kernelBaseVirt (pageSize * procKernelStackPages) = stackPage * pageSize := by
    decide
  have hpage : stackPage * pageSize / pageSize = stackPage := by decide
  obtain ⟨a, t, s', ts, halloc, hmap, hpmm, hsane, hsucc, hgrown⟩ :=
    grow_returns hs hwf (by decide : 0 < procKernelStackPages)
      (by decide : stackPage * pageSize % pageSize = 0) (by decide) (by rwa [hpage]) (by rwa [hpage])
  rw [hpage] at hgrown
  refine ⟨a, s', ts, ?_, hpmm, hsane, hsucc, hgrown⟩
  rw [procMapStack, halloc, hvirt]
  exact hmap

end

end NimbleOS
