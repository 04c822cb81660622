import Mathlib.Data.Finset.Card
import Mathlib.Data.Finset.Image
import NimbleOS.Paging.Refine

/-!
# NimbleOS.Paging.Progress

`paging_map_pages` returns.  On pages that are not mapped yet it needs one frame
for every page table that is missing, and nothing else; and it writes the
directory and the tables of these pages only.
-/

namespace NimbleOS

variable {P : Type}

/-! ## the tables that a range needs -/

/-- The directory slots of `num` pages from `page` on. -/
def pageSlots (page num : Nat) : Finset Nat := (Finset.range num).image fun i => (page + i) / 1024

/-- Those of them that have no page table. -/
def Vm.missing (s : Vm P) (page num : Nat) : Finset Nat :=
  (pageSlots page num).filter fun d => isPresent (s.pde d) = false

theorem mem_pageSlots : d ∈ pageSlots page num ↔ ∃ p, page ≤ p ∧ p < page + num ∧ p / 1024 = d := by
  simp only [pageSlots, Finset.mem_image, Finset.mem_range]
  constructor
  · rintro ⟨i, hi, rfl⟩
    exact ⟨page + i, by omega, by omega, rfl⟩
  · rintro ⟨p, hlo, hhi, rfl⟩
    exact ⟨p - page, by omega, by rw [Nat.add_sub_cancel' hlo]⟩

/-- Pages in one slot. -/
theorem pageSlots_eq_singleton (hnum : 0 < num) (hlo : page / 1024 = d)
    (hhi : (page + num - 1) / 1024 = d) : pageSlots page num = {d} := by
  ext c
  rw [mem_pageSlots, Finset.mem_singleton]
  constructor
  · rintro ⟨p, hp, hp', rfl⟩
    omega
  · rintro rfl
    exact ⟨page, Nat.le_refl _, by omega, hlo⟩

theorem pageSlots_mono (hlo : page ≤ page') (hhi : page' + num' ≤ page + num) :
    pageSlots page' num' ⊆ pageSlots page num := by
  intro d hd
  obtain ⟨p, hp, hp', rfl⟩ := mem_pageSlots.mp hd
  exact mem_pageSlots.mpr ⟨p, by omega, by omega, rfl⟩

theorem Vm.mem_missing {s : Vm P} :
    d ∈ s.missing page num ↔ d ∈ pageSlots page num ∧ isPresent (s.pde d) = false := by
  rw [missing, Finset.mem_filter]

theorem Vm.missing_mono (s : Vm P) (hlo : page ≤ page') (hhi : page' + num' ≤ page + num) :
    s.missing page' num' ⊆ s.missing page num :=
  Finset.filter_subset_filter _ (pageSlots_mono hlo hhi)

/-- Slots of mappable pages. -/
theorem slot_of_mem_pageSlots (hend : page + num ≤ mappablePages) (hd : d ∈ pageSlots page num) :
    d < 1023 := by
  obtain ⟨p, -, hhi, rfl⟩ := mem_pageSlots.mp hd
  unfold mappablePages at hend
  omega

/-- The first page's table and those that the rest then still needs. -/
theorem Vm.card_missing_succ {s s' : Vm P} (hend : page + (num + 1) ≤ mappablePages)
    (hslots : ∀ d < 1023, isPresent (s'.pde d) = (isPresent (s.pde d) || decide (d = page / 1024))) :
    (s.missing page (num + 1)).card = (s.missing page 1).card + (s'.missing (page + 1) num).card := by
  have hunion : s.missing page (num + 1) = s.missing page 1 ∪ s'.missing (page + 1) num := by
    ext d
    simp only [Finset.mem_union, mem_missing]
    constructor
    · rintro ⟨hmem, habs⟩
      have hd := slot_of_mem_pageSlots hend hmem
      obtain ⟨p, hlo, hhi, rfl⟩ := mem_pageSlots.mp hmem
      by_cases heq : p / 1024 = page / 1024
      · exact .inl ⟨mem_pageSlots.mpr ⟨page, by omega, by omega, heq.symm⟩, habs⟩
      · have hne : p ≠ page := fun hc => heq (by rw [hc])
        refine .inr ⟨mem_pageSlots.mpr ⟨p, by omega, by omega, rfl⟩, ?_⟩
        rw [hslots _ hd, habs, decide_eq_false heq]
        rfl
    · rintro (⟨hmem, habs⟩ | ⟨hmem, habs⟩)
      · obtain ⟨p, hlo, hhi, rfl⟩ := mem_pageSlots.mp hmem
        exact ⟨mem_pageSlots.mpr ⟨p, by omega, by omega, rfl⟩, habs⟩
      · have hd := slot_of_mem_pageSlots (by omega) hmem
        obtain ⟨p, hlo, hhi, rfl⟩ := mem_pageSlots.mp hmem
        rw [hslots _ hd, Bool.or_eq_false_iff] at habs
        exact ⟨mem_pageSlots.mpr ⟨p, by omega, by omega, rfl⟩, habs.1⟩
  rw [hunion, Finset.card_union_of_disjoint]
  rw [Finset.disjoint_left]
  intro d hfirst hrest
  obtain ⟨hmem, habs⟩ := mem_missing.mp hfirst
  obtain ⟨p, hlo, hhi, rfl⟩ := mem_pageSlots.mp hmem
  obtain rfl : p = page := by omega
  obtain ⟨hmem', habs'⟩ := mem_missing.mp hrest
  rw [hslots _ (slot_of_mem_pageSlots (by omega) hmem'), habs, decide_eq_true rfl] at habs'
  contradiction

/-- One page needs one table or none. -/
theorem Vm.card_missing_one (s : Vm P) (page : Nat) :
    (s.missing page 1).card = if isPresent (s.pde (page / 1024)) then 0 else 1 := by
  have hslots : pageSlots page 1 = {page / 1024} := by
    simp [pageSlots]
  rw [missing, hslots, Finset.filter_singleton]
  cases isPresent (s.pde (page / 1024)) <;> simp

/-! ## one page -/

/-- Besides the directory, only the tables of the slots in `ds` were written. -/
def OnlySlots (s s' : Vm P) (ds : Finset Nat) : Prop :=
  ∀ f, f % pageSize = 0 → f ≠ s.cr3 → (∀ d ∈ ds, pageFrame (s'.pde d) ≠ f) →
    ∀ j < pageEntries, entry s'.mem f j = entry s.mem f j

/-- The first page, then the rest, which leaves the first page's table where it is. -/
theorem OnlySlots.succ {s s₁ s' : Vm P} (h : OnlySlots s s₁ (pageSlots page 1))
    (h' : OnlySlots s₁ s' (pageSlots (page + 1) num)) (hcr3 : s₁.cr3 = s.cr3)
    (hkept : s'.pde (page / 1024) = s₁.pde (page / 1024)) :
    OnlySlots s s' (pageSlots page (num + 1)) := by
  intro f hf hdir hnot j hj
  have hrest : ∀ d ∈ pageSlots (page + 1) num, pageFrame (s'.pde d) ≠ f := fun d hd =>
    hnot d (pageSlots_mono (by omega) (by omega) hd)
  have hfirst : ∀ d ∈ pageSlots page 1, pageFrame (s₁.pde d) ≠ f := by
    intro d hd
    have hne := hnot d (pageSlots_mono (by omega) (by omega) hd)
    obtain ⟨p, hlo, hhi, rfl⟩ := mem_pageSlots.mp hd
    obtain rfl : p = page := by omega
    rwa [hkept] at hne
  rw [h' f hf (by rwa [hcr3]) hrest j hj]
  exact h f hf hdir hfirst j hj

/-- Storing an entry in an existing table. -/
theorem OnlySlots.withEntry {s : Vm P} {taken : P → Nat → Prop} (hwf : DirWF taken s)
    (hd : d < 1023) (hp : isPresent (s.pde d) = true) (ht : t < pageEntries) (hv : v < 2 ^ 32)
    (hin : d ∈ ds) : OnlySlots s (s.withEntry (pageFrame (s.pde d)) t v) ds := by
  intro f hf _ hnot j hj
  have hframe := hnot d hin
  rw [s.pde_withEntry hwf hd hp ht hv (slot_lt hd)] at hframe
  rw [s.entry_withEntry (pageFrame_mod _) hf ht hj hv, if_neg fun hc => hframe hc.1.symm]

/-! A new table for the slot `d`, then an entry in it. -/

section

variable {s : Vm P} {a : Nat} (p : P) (hself : SelfMapped s.mem s.cr3) (ha : TableFrame s a)
  (hd : d < 1023) (ht : t < pageEntries) (hv : v < 2 ^ 32)

include hself ha hd ht hv

theorem Vm.pde_withTable_withEntry (flags : Nat) (hj : j < pageEntries) :
    ((s.withTable d flags a p).withEntry a t v).pde j =
      if j = d then pdeRaw a flags else s.pde j := by
  have hentry := (s.withTable d flags a p).entry_withEntry ha.aligned hself.aligned ht hj hv
  rw [if_neg fun hc => ha.ne_dir hc.1.symm] at hentry
  exact hentry.trans (s.pde_withTable p hself.aligned ha flags (slot_lt hd) hj)

theorem OnlySlots.withTable_withEntry (hf : MapFlags flags) (hin : d ∈ ds) :
    OnlySlots s ((s.withTable d flags a p).withEntry a t v) ds := by
  obtain ⟨-, -, -, hframe, -⟩ := pdeRaw_fields ha.aligned ha.lt hf
  intro f hf' hcr3 hnot j hj
  have hfa := hnot d hin
  rw [Vm.pde_withTable_withEntry p hself ha hd ht hv flags (slot_lt hd), if_pos rfl, hframe] at hfa
  rw [(s.withTable d flags a p).entry_withEntry ha.aligned hf' ht hj hv,
    if_neg fun hc => hfa hc.1.symm,
    s.entry_withTable p hself.aligned ha flags (slot_lt hd) hf' hj, if_neg (Ne.symm hfa),
    if_neg fun hc => hcr3 hc.1]

end

section

variable [FrameAllocator P] {valid : P → Prop} {taken : P → Nat → Prop} {s : Vm P}
  (hfresh : FreshFrames valid taken)

include hfresh

/-- `paging_map_page` on a page that is not mapped, with a frame for a missing table. -/
theorem pagingMapPage_returns (hwf : DirWF taken s) (hvalid : valid s.pmm)
    (halign : virt % pageSize = 0) (hlt : virt < 0xFFC00000) (hphys : phys % pageSize = 0)
    (hphys' : phys < 2 ^ 32) (hf : MapFlags flags) (hfree : s.tables (virt / pageSize) = none)
    (hgrant : Run AllocStep s.pmm as p') (hne : ∀ a ∈ as, a ≠ 0)
    (hlen : as.length = (s.missing (virt / pageSize) 1).card) :
    ∃ s', pagingMapPage s virt phys flags = .ok s' ∧ s.Succeeds s' ∧ s'.pmm = p' ∧
      (∀ d < 1023, isPresent (s'.pde d) =
        (isPresent (s.pde d) || decide (d = virt / pageSize / 1024))) ∧
      OnlySlots s s' (pageSlots (virt / pageSize) 1) := by
  have hvirt : virt < 2 ^ 32 := by omega
  have hraw := (pteRaw_fields hphys hphys' hf).1
  obtain ⟨hpage, hdir, htab⟩ := page_of_aligned halign hlt
  obtain ⟨-, -, hd, ht⟩ := page_indices hpage
  have hin : virt / pageSize / 1024 ∈ pageSlots (virt / pageSize) 1 :=
    mem_pageSlots.mpr ⟨_, Nat.le_refl _, Nat.lt_succ_self _, rfl⟩
  rw [s.card_missing_one] at hlen
  cases hp : isPresent (s.pde (virt / pageSize / 1024)) with
  | true =>
      rw [hp, if_pos rfl, List.length_eq_zero_iff] at hlen
      subst hlen
      cases hgrant
      have hpte := Vm.tables_of_present hpage hp
      rw [hfree, eq_comm, leaf_eq_none] at hpte
      have hmap := pagingMapPage_of_table hwf.self halign hvirt (by rw [hdir]; exact hp) phys flags
      rw [hdir, htab, hpte, if_neg Bool.false_ne_true] at hmap
      refine ⟨_, hmap, ⟨[], rfl, by simp⟩, rfl, fun j hj => ?_, .withEntry hwf hd hp ht hraw hin⟩
      rw [s.pde_withEntry hwf hd hp ht hraw (slot_lt hj)]
      by_cases heq : j = virt / pageSize / 1024
      · rw [heq, hp, Bool.true_or]
      · rw [decide_eq_false heq, Bool.or_false]
  | false =>
      rw [hp, if_neg Bool.false_ne_true, List.length_eq_one_iff] at hlen
      obtain ⟨a, rfl⟩ := hlen
      have hane := hne a (List.mem_singleton_self a)
      cases hgrant with
      | @cons _ _ p₁ _ _ halloc hrest =>
          cases hrest
          have ha := hwf.tableFrame hfresh hvalid halloc hane
          have hmap := pagingMapPage_create hwf.self halign hvirt (by rw [hdir]; exact hp) flags halloc
            ha phys
          rw [hdir, htab] at hmap
          have hpres := (pdeRaw_fields ha.aligned ha.lt hf).2.1
          refine ⟨_, hmap, ⟨[.table _ a], rfl, List.forall_mem_singleton.mpr hane⟩, rfl,
            fun j hj => ?_, .withTable_withEntry p' hwf.self ha hd ht hraw hf hin⟩
          rw [Vm.pde_withTable_withEntry p' hwf.self ha hd ht hraw flags (slot_lt hj)]
          by_cases heq : j = virt / pageSize / 1024
          · rw [if_pos heq, hpres, decide_eq_true heq, Bool.or_true]
          · rw [if_neg heq, decide_eq_false heq, Bool.or_false]

/-! ## a range of pages -/

/-- What `paging_map_pages` has done: the pages from `page` on are mapped, with the
page tables `ts` created for them. -/
structure Mapped (valid : P → Prop) (taken : P → Nat → Prop) (s s' : Vm P)
    (page phys num flags : Nat) (ts : List (Nat × Nat)) : Prop where
  wf : DirWF taken s'
  inv : valid s'.pmm
  cr3 : s'.cr3 = s.cr3
  tables : s.tables.mapRange page phys num flags = some s'.tables
  new : NewTables (fun p fl => (page ≤ p ∧ p < page + num) ∧ fl = flags) s s' ts
  only : OnlySlots s s' (pageSlots page num)

/-- **paging_map_pages** returns, if the frame allocator answers once for every
missing table. -/
theorem pagingMapPages_returns (hwf : DirWF taken s) (hvalid : valid s.pmm)
    (halign : virt % pageSize = 0) (hend : virt + num * pageSize ≤ 0xFFC00000)
    (hphys : phys % pageSize = 0) (hphys' : phys < 2 ^ 32) (hf : MapFlags flags)
    (hfree : ∀ i < num, s.tables (virt / pageSize + i) = none)
    (hgrant : Run AllocStep s.pmm as p') (hne : ∀ a ∈ as, a ≠ 0)
    (hlen : as.length = (s.missing (virt / pageSize) num).card) :
    ∃ s' ts, pagingMapPages s virt phys num flags = .ok s' ∧ s.Succeeds s' ∧ s'.pmm = p' ∧
      Mapped valid taken s s' (virt / pageSize) phys num flags ts := by
  -- the calls return; what they do to the map is known from the simulation
  suffices hret : ∃ s', pagingMapPages s virt phys num flags = .ok s' ∧ s.Succeeds s' ∧
      s'.pmm = p' ∧ OnlySlots s s' (pageSlots (virt / pageSize) num) by
    obtain ⟨s', hrun, hsucc, hpmm, honly⟩ := hret
    have hsim : Simulates valid taken
        (fun p fl => (virt / pageSize ≤ p ∧ p < virt / pageSize + num) ∧ fl = flags) s _ _ :=
      pagingMapPages_simulates hfresh hwf hvalid halign hend hphys hphys' hf
        fun p hlo hhi => ⟨⟨hlo, hhi⟩, rfl⟩
    rw [hrun] at hsim
    obtain ⟨ts, htables, hwf', hvalid', hcr3, hnew, -⟩ := hsim.of_ok hsucc
    exact ⟨s', ts, hrun, hsucc, hpmm, hwf', hvalid', hcr3, htables, hnew, honly⟩
  induction num generalizing s virt phys as with
  | zero =>
      have hnil : as = [] := by
        rw [← List.length_eq_zero_iff, hlen]
        rfl
      subst hnil
      cases hgrant
      exact ⟨s, rfl, ⟨[], rfl, by simp⟩, rfl, fun _ _ _ _ _ _ => rfl⟩
  | succ num ih =>
      obtain ⟨hu, halign', hend', hpage⟩ := next_page halign hend
      obtain ⟨hframe, hframe'⟩ := next_frame hphys
      have hlt : virt < 0xFFC00000 := by unfold pageSize at hend; omega
      have hpages : virt / pageSize + (num + 1) ≤ mappablePages := by
        unfold mappablePages pageSize at *
        omega
      have hle : (s.missing (virt / pageSize) 1).card ≤ as.length :=
        hlen ▸ Finset.card_le_card (s.missing_mono (Nat.le_refl _) (by omega))
      rw [← List.take_append_drop (s.missing (virt / pageSize) 1).card as] at hgrant
      obtain ⟨p₁, hgrant₁, hgrant₂⟩ := hgrant.of_append
      have hfirst : s.tables (virt / pageSize) = none := hfree 0 (Nat.succ_pos num)
      obtain ⟨s₁, hmap, hsucc₁, rfl, hslots, honly₁⟩ := pagingMapPage_returns hfresh hwf hvalid
        halign hlt hphys hphys' hf hfirst hgrant₁ (fun a ha => hne a (List.mem_of_mem_take ha))
        (List.length_take_of_le hle)
      have hsim : Simulates valid taken (fun _ _ => True) s _ _ := pagingMapPage_simulates hwf
        halign hlt hfresh hvalid hphys hphys' hf trivial
      rw [hmap, PageMap.mapRange_one _ _ _ hphys', if_pos hfirst] at hsim
      obtain ⟨ts₁, htables, hwf₁, hvalid₁, hcr3, -, -⟩ := hsim.of_ok hsucc₁
      have hlen₂ : (as.drop (s.missing (virt / pageSize) 1).card).length =
          (s₁.missing ((virt + pageSize) / pageSize) num).card := by
        rw [List.length_drop, hlen, Vm.card_missing_succ hpages hslots, hpage,
          Nat.add_sub_cancel_left]
      have hfree₁ : ∀ i < num, s₁.tables ((virt + pageSize) / pageSize + i) = none := by
        intro i hi
        rw [← Option.some.inj htables, Function.update_of_ne (by omega), hpage, Nat.add_assoc,
          Nat.add_comm 1 i]
        exact hfree (i + 1) (by omega)
      obtain ⟨s', hrest, hsucc, hpmm, honly⟩ := ih hwf₁ hvalid₁ halign' hend' hframe hframe' hfree₁
        hgrant₂ (fun a ha => hne a (List.mem_of_mem_drop ha)) hlen₂
      have hsim₂ : Simulates valid taken (fun _ _ => True) s₁ _ _ := pagingMapPages_simulates hfresh
        hwf₁ hvalid₁ halign' hend' hframe hframe' hf fun _ _ _ => trivial
      rw [hrest] at hsim₂
      obtain ⟨ts₂, -, -, -, -, hnew, -⟩ := hsim₂.of_ok hsucc
      -- the first page's table stays where it is
      have hd : virt / pageSize / 1024 < 1023 :=
        slot_of_mem_pageSlots hpages (mem_pageSlots.mpr ⟨_, Nat.le_refl _, by omega, rfl⟩)
      have hkept : s'.pde (virt / pageSize / 1024) = s₁.pde (virt / pageSize / 1024) :=
        hnew.kept hd (by rw [hslots _ hd, decide_eq_true rfl, Bool.or_true])
      rw [hpage] at honly
      refine ⟨s', ?_, hsucc₁.trans hsucc, hpmm, honly₁.succ honly hcr3 hkept⟩
      rw [pagingMapPages, hu]
      exact bind_eq_ok.mpr ⟨s₁, hmap, hrest⟩

omit [FrameAllocator P] hfresh in
/-- One new table for every slot that was missing, if none is missing in the end. -/
theorem NewSlots.length_eq {s' : Vm P} {maps : Nat → Nat → Prop} (h : NewSlots maps s s' ts)
    (hmaps : ∀ p f, maps p f → page ≤ p ∧ p < page + num) (hend : page + num ≤ mappablePages)
    (hpresent : ∀ d ∈ pageSlots page num, isPresent (s'.pde d) = true) :
    ts.length = (s.missing page num).card := by
  have hnodup : (ts.map Prod.fst).Nodup := List.pairwise_map.mpr h.distinct
  have hslots : (ts.map Prod.fst).toFinset = s.missing page num := by
    ext d
    rw [List.mem_toFinset, Vm.mem_missing]
    constructor
    · intro hd
      obtain ⟨t, ht, rfl⟩ := List.mem_map.mp hd
      obtain ⟨p, f, hp, hslot, -⟩ := h.needed t ht
      obtain ⟨hlo, hhi⟩ := hmaps p f hp
      exact ⟨mem_pageSlots.mpr ⟨p, hlo, hhi, hslot⟩, (h.absent t ht).2⟩
    · rintro ⟨hd, habs⟩
      have hlt := slot_of_mem_pageSlots hend hd
      obtain ⟨t, ht, heq⟩ := h.mem_of_present (slot_lt hlt) habs (hpresent d hd)
      exact List.mem_map.mpr ⟨t, ht, heq⟩
  rw [← hslots, List.toFinset_card_of_nodup hnodup, List.length_map]

/-- **What a successful call was granted**: none of the pages was mapped, and the frame
allocator has answered once for every missing table. -/
theorem pagingMapPages_granted {s' : Vm P} (hwf : DirWF taken s) (hvalid : valid s.pmm)
    (halign : virt % pageSize = 0) (hend : virt + num * pageSize ≤ 0xFFC00000)
    (hphys : phys % pageSize = 0) (hphys' : phys < 2 ^ 32) (hf : MapFlags flags)
    (h : pagingMapPages s virt phys num flags = .ok s') (hsucc : s.Succeeds s') :
    (∀ i < num, s.tables (virt / pageSize + i) = none) ∧
      ∃ as, Run AllocStep s.pmm as s'.pmm ∧ (∀ a ∈ as, a ≠ 0) ∧
        as.length = (s.missing (virt / pageSize) num).card := by
  have hsim : Simulates valid taken
      (fun p fl => (virt / pageSize ≤ p ∧ p < virt / pageSize + num) ∧ fl = flags) s _ _ :=
    pagingMapPages_simulates hfresh hwf hvalid halign hend hphys hphys' hf
      fun p hlo hhi => ⟨⟨hlo, hhi⟩, rfl⟩
  rw [h] at hsim
  obtain ⟨ts, htables, -, -, -, hnew, -⟩ := hsim.of_ok hsucc
  by_cases hfree : ∀ i < num, s.tables (virt / pageSize + i) = none
  swap
  · rw [PageMap.mapRange, if_neg hfree] at htables
    contradiction
  rw [PageMap.mapRange, if_pos hfree, Option.some.injEq] at htables
  refine ⟨hfree, _, hnew.draws, fun a ha => ?_, ?_⟩
  · obtain ⟨t, ht, rfl⟩ := List.mem_map.mp (List.mem_reverse.mp ha)
    obtain ⟨new, hlog, hnz⟩ := hsucc
    rw [hnew.log] at hlog
    rw [← List.append_cancel_right hlog] at hnz
    exact hnz (.table t.1 t.2) (Alloc.table_mem_map ht)
  · rw [List.length_reverse, List.length_map]
    refine hnew.length_eq (fun p f hp => hp.1)
      (by unfold mappablePages pageSize at *; omega) fun d hd => ?_
    obtain ⟨p, hlo, hhi, rfl⟩ := mem_pageSlots.mp hd
    rw [← Bool.not_eq_false]
    intro habs
    have hpage := Vm.tables_of_absent habs
    rw [← htables] at hpage
    dsimp only at hpage
    rw [if_pos ⟨hlo, hhi⟩] at hpage
    cases hpage

/-- A successful call has mapped the pages. -/
theorem pagingMapPages_mapped {s' : Vm P} (hwf : DirWF taken s) (hvalid : valid s.pmm)
    (halign : virt % pageSize = 0) (hend : virt + num * pageSize ≤ 0xFFC00000)
    (hphys : phys % pageSize = 0) (hphys' : phys < 2 ^ 32) (hf : MapFlags flags)
    (h : pagingMapPages s virt phys num flags = .ok s') (hsucc : s.Succeeds s') :
    ∃ ts, Mapped valid taken s s' (virt / pageSize) phys num flags ts := by
  obtain ⟨hfree, as, hrun, hne, hlen⟩ :=
    pagingMapPages_granted hfresh hwf hvalid halign hend hphys hphys' hf h hsucc
  obtain ⟨s'', ts, hmap, -, -, hmapped⟩ :=
    pagingMapPages_returns hfresh hwf hvalid halign hend hphys hphys' hf hfree hrun hne hlen
  obtain rfl : s' = s'' := Except.ok.inj (h.symm.trans hmap)
  exact ⟨ts, hmapped⟩

end

end NimbleOS
