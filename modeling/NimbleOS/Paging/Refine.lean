import Mathlib.Data.List.Nodup
import NimbleOS.Lib.Run
import NimbleOS.Paging.Tables

/-!
# NimbleOS.Paging.Refine

The virtual memory manager refines the abstract map: over any sequence of calls
the tables carry out the operations of the map, or the kernel halts where the map
forbids the operation, or the frame allocator gives up.  `Simulates` is the
relation between the two levels, closed under composition; `paging_refines` is the
result.
-/

namespace NimbleOS

variable {P : Type}

/-! ## the simulation -/

/-- A call of the frame allocator that answers `a`. -/
def AllocStep [FrameAllocator P] (p : P) (a : Nat) (p' : P) : Prop :=
  FrameAllocator.allocPage p = .ok (a, p')

/-- The directory has gained the slots `new` (slot and frame of the page table, the
latest first): none of them was present, and each was needed to map a page with
flags such that `maps page flags`.  No other slot changed. -/
structure NewSlots (maps : Nat → Nat → Prop) (s s' : Vm P) (new : List (Nat × Nat)) : Prop where
  distinct : new.Pairwise fun t u => t.1 ≠ u.1
  absent : ∀ t ∈ new, t.1 < 1023 ∧ isPresent (s.pde t.1) = false
  placed : ∀ t ∈ new, isPresent (s'.pde t.1) = true ∧ isLarge (s'.pde t.1) = false ∧
    pageFrame (s'.pde t.1) = t.2
  needed : ∀ t ∈ new, ∃ page flags, maps page flags ∧ page / 1024 = t.1 ∧
    s'.pde t.1 = pdeRaw t.2 flags
  same : ∀ d < pageEntries, (∀ t ∈ new, t.1 ≠ d) → s'.pde d = s.pde d

/-- The frames of these page tables are what was taken from the frame allocator. -/
structure NewTables [FrameAllocator P] (maps : Nat → Nat → Prop) (s s' : Vm P)
    (new : List (Nat × Nat)) : Prop extends NewSlots maps s s' new where
  log : s'.log = new.map (fun (d, a) => .table d a) ++ s.log
  draws : Run AllocStep s.pmm (new.map Prod.snd).reverse s'.pmm

/-- Only the directory and its tables were written. -/
def OnlyTables (s s' : Vm P) : Prop :=
  ∀ f, f % pageSize = 0 → f ≠ s.cr3 →
    (∀ d < 1023, isPresent (s'.pde d) = true → pageFrame (s'.pde d) ≠ f) →
    ∀ j < pageEntries, entry s'.mem f j = entry s.mem f j

theorem OnlyTables.trans {s' s'' : Vm P} (h : OnlyTables s s') (h' : OnlyTables s' s'')
    (hcr3 : s'.cr3 = s.cr3) (hkept : ∀ d < 1023, isPresent (s'.pde d) = true →
      s''.pde d = s'.pde d) : OnlyTables s s'' := by
  intro f hf hne htab j hj
  rw [h' f hf (by rwa [hcr3]) htab j hj]
  refine h f hf hne (fun d hd hp => ?_) j hj
  have hp' := htab d hd
  rw [hkept d hd hp] at hp'
  exact hp' hp

/-- `Simulates … maps s r o`: `r` is what the operation with abstract outcome `o`,
which maps pages as `maps` says, may lead to from `s`. -/
inductive Simulates [FrameAllocator P] (valid : P → Prop) (taken : P → Nat → Prop)
    (maps : Nat → Nat → Prop) (s : Vm P) : Except Halt (Vm P) → Option PageMap → Prop where
  /-- The tables describe the outcome. -/
  | ok {s' : Vm P} {o : Option PageMap} (tables : o = some s'.tables) (wf : DirWF taken s')
      (inv : valid s'.pmm) (cr3 : s'.cr3 = s.cr3) (new : NewTables maps s s' ts)
      (only : OnlyTables s s') : Simulates valid taken maps s (.ok s') o
  /-- The operation maps a page that is mapped already. -/
  | halts : Simulates valid taken maps s (.error .alreadyMapped) none
  /-- After the answers `as` the frame allocator fails. -/
  | gaveUp {p : P} {e : Halt} (draws : Run AllocStep s.pmm as p)
      (fails : FrameAllocator.allocPage p = .error e) : Simulates valid taken maps s (.error e) o
  /-- The frame allocator answered 0. -/
  | zero {p p' : P} (inv : valid p) (answer : FrameAllocator.allocPage p = .ok (0, p'))
      (logged : ∀ s', r = .ok s' → ¬ s.Succeeds s') : Simulates valid taken maps s r o

section

variable [FrameAllocator P] {valid : P → Prop} {taken : P → Nat → Prop} {maps : Nat → Nat → Prop}
  {s : Vm P}

/-! ### composition -/

omit [FrameAllocator P] in
theorem NewSlots.nil {s' : Vm P} (hpde : ∀ d < pageEntries, s'.pde d = s.pde d) :
    NewSlots maps s s' [] where
  distinct := .nil
  absent := fun _ h => nomatch h
  placed := fun _ h => nomatch h
  needed := fun _ h => nomatch h
  same := fun d hd _ => hpde d hd

/-- Nothing was taken where the directory did not change. -/
theorem NewTables.nil {s' : Vm P} (hlog : s'.log = s.log) (hpmm : s'.pmm = s.pmm)
    (hpde : ∀ d < pageEntries, s'.pde d = s.pde d) : NewTables maps s s' [] where
  toNewSlots := .nil hpde
  log := hlog
  draws := by rw [hpmm]; exact .nil _

omit [FrameAllocator P] in
/-- A present slot is not that of a new table. -/
theorem NewSlots.kept {s' : Vm P} (h : NewSlots maps s s' new) (hd : d < 1023)
    (hp : isPresent (s.pde d) = true) : s'.pde d = s.pde d := by
  refine h.same d (slot_lt hd) fun t ht heq => ?_
  have habs := (h.absent t ht).2
  rw [heq, hp] at habs
  contradiction

omit [FrameAllocator P] in
/-- The slots were gained from any state with the same directory. -/
theorem NewSlots.congr_left {t s' : Vm P} (h : NewSlots maps s s' new)
    (hpde : ∀ d < pageEntries, t.pde d = s.pde d) : NewSlots maps t s' new where
  distinct := h.distinct
  absent := fun u hu => by
    rw [hpde _ (slot_lt (h.absent u hu).1)]
    exact h.absent u hu
  placed := h.placed
  needed := h.needed
  same := fun d hd hnone => (h.same d hd hnone).trans (hpde d hd).symm

omit [FrameAllocator P] in
theorem NewSlots.mono {maps' : Nat → Nat → Prop} {s' : Vm P} (h : NewSlots maps s s' new)
    (hmaps : ∀ page flags, maps page flags → maps' page flags) : NewSlots maps' s s' new where
  distinct := h.distinct
  absent := h.absent
  placed := h.placed
  needed := fun t ht => by
    obtain ⟨page, flags, hpage, hslot⟩ := h.needed t ht
    exact ⟨page, flags, hmaps page flags hpage, hslot⟩
  same := h.same

omit [FrameAllocator P] in
/-- A slot that has become present is that of a new table. -/
theorem NewSlots.mem_of_present {s' : Vm P} (h : NewSlots maps s s' new) (hd : d < pageEntries)
    (habs : isPresent (s.pde d) = false) (hp : isPresent (s'.pde d) = true) :
    ∃ t ∈ new, t.1 = d := by
  by_contra hnone
  rw [h.same d hd fun t ht heq => hnone ⟨t, ht, heq⟩, habs] at hp
  contradiction

omit [FrameAllocator P] in
/-- Stores that leave the directory alone. -/
theorem NewSlots.congr {s' s'' : Vm P} (h : NewSlots maps s s' new)
    (hpde : ∀ d < pageEntries, s''.pde d = s'.pde d) : NewSlots maps s s'' new where
  distinct := h.distinct
  absent := h.absent
  placed := fun t ht => by rw [hpde _ (slot_lt (h.absent t ht).1)]; exact h.placed t ht
  needed := fun t ht => by rw [hpde _ (slot_lt (h.absent t ht).1)]; exact h.needed t ht
  same := fun d hd hnone => (hpde d hd).trans (h.same d hd hnone)

omit [FrameAllocator P] in
theorem NewSlots.trans {s' s'' : Vm P} (h : NewSlots maps s s' new)
    (h' : NewSlots maps s' s'' new') : NewSlots maps s s'' (new' ++ new) where
  distinct := by
    refine List.pairwise_append.mpr ⟨h'.distinct, h.distinct, fun t ht u hu heq => ?_⟩
    have habs := (h'.absent t ht).2
    rw [heq, (h.placed u hu).1] at habs
    contradiction
  absent := by
    intro t ht
    cases List.mem_append.mp ht with
    | inr hold => exact h.absent t hold
    | inl hnew =>
        obtain ⟨hlt, habs⟩ := h'.absent t hnew
        refine ⟨hlt, ?_⟩
        cases hp : isPresent (s.pde t.1) with
        | false => rfl
        | true => rw [h.kept hlt hp, hp] at habs; contradiction
  placed := by
    intro t ht
    cases List.mem_append.mp ht with
    | inl hnew => exact h'.placed t hnew
    | inr hold =>
        have hp := h.placed t hold
        rw [h'.kept (h.absent t hold).1 hp.1]
        exact hp
  needed := by
    intro t ht
    cases List.mem_append.mp ht with
    | inl hnew => exact h'.needed t hnew
    | inr hold =>
        rw [h'.kept (h.absent t hold).1 (h.placed t hold).1]
        exact h.needed t hold
  same := by
    intro d hd hnone
    rw [h'.same d hd fun t ht => hnone t (List.mem_append_left _ ht),
      h.same d hd fun t ht => hnone t (List.mem_append_right _ ht)]

omit [FrameAllocator P] in
/-- New tables are small, so a slot without a large page stays without. -/
theorem NewSlots.smallSlot {s' : Vm P} (h : NewSlots maps s s' new) (hd : d < 1023)
    (hsmall : s.SmallSlot d) : s'.SmallSlot d := by
  intro hp
  by_cases hnew : ∃ t ∈ new, t.1 = d
  · obtain ⟨t, ht, rfl⟩ := hnew
    exact (h.placed t ht).2.1
  · have hsame := h.same d (slot_lt hd) fun t ht heq => hnew ⟨t, ht, heq⟩
    rw [hsame] at hp ⊢
    exact hsmall hp

theorem NewTables.trans {s' s'' : Vm P} (h : NewTables maps s s' new)
    (h' : NewTables maps s' s'' new') : NewTables maps s s'' (new' ++ new) where
  toNewSlots := h.toNewSlots.trans h'.toNewSlots
  log := by rw [h'.log, h.log, List.map_append, List.append_assoc]
  draws := by
    rw [List.map_append, List.reverse_append]
    exact h.draws.append h'.draws

/-- Outcomes compose. -/
theorem Simulates.step {s' : Vm P} (h : Simulates valid taken maps s (.ok s') o')
    (hs : s.Extends s') (hr : ∀ s'', r = .ok s'' → s'.Extends s'')
    (hnext : o' = some s'.tables → DirWF taken s' → valid s'.pmm →
      Simulates valid taken maps s' r o) : Simulates valid taken maps s r o := by
  cases h with
  | zero hinv hanswer hlogged =>
      refine .zero hinv hanswer fun s'' hok hsucc => ?_
      exact hlogged s' rfl (hsucc.split hs (hr s'' hok)).1
  | ok htables hwf' hinv' hcr3 hnew honly =>
      cases hnext htables hwf' hinv' with
      | halts => exact .halts
      | gaveUp hdraws hfails => exact .gaveUp (hnew.draws.append hdraws) hfails
      | zero hinv hanswer hlogged =>
          refine .zero hinv hanswer fun s'' hok hsucc => ?_
          exact hlogged s'' hok (hsucc.split hs (hr s'' hok)).2
      | ok htables' hwf'' hinv'' hcr3' hnew' honly' =>
          exact .ok htables' hwf'' hinv'' (hcr3'.trans hcr3) (hnew.trans hnew')
            (honly.trans honly' hcr3 fun d hd hp => hnew'.kept hd hp)

/-- Outcomes compose like the computations. -/
theorem Simulates.bind {f : Vm P → Except Halt (Vm P)} {g : PageMap → Option PageMap}
    (h : Simulates valid taken maps s r o) (hs : ∀ s', r = .ok s' → s.Extends s')
    (hext : ∀ s' s'', f s' = .ok s'' → s'.Extends s'')
    (hnext : ∀ s', DirWF taken s' → valid s'.pmm →
      Simulates valid taken maps s' (f s') (g s'.tables)) :
    Simulates valid taken maps s (r >>= f) (o.bind g) := by
  cases r with
  | ok s' =>
      refine h.step (hs s' rfl) (hext s') fun ho hwf' hvalid' => ?_
      rw [ho]
      exact hnext s' hwf' hvalid'
  | error e =>
      cases h with
      | halts => exact .halts
      | gaveUp hdraws hfails => exact .gaveUp hdraws hfails
      | zero hinv hanswer _ => exact .zero hinv hanswer fun s' hok => by contradiction

/-- What a successful computation that returns has done. -/
theorem Simulates.of_ok {s' : Vm P} (h : Simulates valid taken maps s (.ok s') o)
    (hsucc : s.Succeeds s') :
    ∃ ts, o = some s'.tables ∧ DirWF taken s' ∧ valid s'.pmm ∧ s'.cr3 = s.cr3 ∧
      NewTables maps s s' ts ∧ OnlyTables s s' := by
  cases h with
  | ok htables hwf hinv hcr3 hnew honly => exact ⟨_, htables, hwf, hinv, hcr3, hnew, honly⟩
  | zero _ _ hlogged => exact absurd hsucc (hlogged s' rfl)

theorem Simulates.refl (hwf : DirWF taken s) (hvalid : valid s.pmm) :
    Simulates valid taken maps s (.ok s) (some s.tables) :=
  .ok rfl hwf hvalid rfl (.nil rfl rfl fun _ _ => rfl) fun _ _ _ _ _ _ => rfl

/-! ### single pages -/

section

variable (hwf : DirWF taken s) (halign : virt % pageSize = 0) (hlt : virt < 0xFFC00000)

include hwf halign hlt

/-- Writing the entry of `virt` in an existing table, on both levels. -/
theorem simulates_withEntry (hvalid : valid s.pmm)
    (hp : isPresent (s.pde (dirIndex virt)) = true) (hv : v < 2 ^ 32) :
    Simulates valid taken maps s
      (.ok (s.withEntry (pageFrame (s.pde (dirIndex virt))) (tableIndex virt) v))
      (some (Function.update s.tables (virt / pageSize) (leaf v))) := by
  obtain ⟨hpage, hdir, htab⟩ := page_of_aligned halign hlt
  obtain ⟨-, -, hd, ht⟩ := page_indices hpage
  rw [hdir] at hp
  rw [hdir, htab]
  have hpde : ∀ d < pageEntries, (s.withEntry (pageFrame (s.pde (virt / pageSize / 1024)))
      (virt / pageSize % 1024) v).pde d = s.pde d := fun d hd' =>
    s.pde_withEntry hwf hd hp ht hv hd'
  refine .ok (by rw [s.tables_withEntry hwf hpage hp hv]) (hwf.withEntry hd hp ht hv) hvalid rfl
    (.nil rfl rfl hpde) fun f hf _ hnot j hj => ?_
  have hne := hnot _ hd (by rw [hpde _ (slot_lt hd)]; exact hp)
  rw [hpde _ (slot_lt hd)] at hne
  rw [s.entry_withEntry (pageFrame_mod _) hf ht hj hv, if_neg fun hc => hne hc.1.symm]

/-- Creating the table for `virt`, on both levels. -/
theorem simulates_withTable (hfresh : FreshFrames valid taken) (hvalid : valid s.pmm)
    (habs : isPresent (s.pde (dirIndex virt)) = false) (hf : MapFlags flags)
    (hmaps : maps (virt / pageSize) flags) {a : Nat} {pmm : P}
    (halloc : FrameAllocator.allocPage s.pmm = .ok (a, pmm)) (hne : a ≠ 0) :
    Simulates valid taken maps s (.ok (s.withTable (dirIndex virt) flags a pmm))
      (some s.tables) := by
  obtain ⟨hpage, hdir, htab⟩ := page_of_aligned halign hlt
  have hd : dirIndex virt < 1023 := hdir ▸ (page_indices hpage).2.2.1
  have ha := hwf.tableFrame hfresh hvalid halloc hne
  obtain ⟨-, hpres, hlarge, hframe, -⟩ := pdeRaw_fields ha.aligned ha.lt hf
  have hpde : ∀ j < pageEntries, (s.withTable (dirIndex virt) flags a pmm).pde j =
      if j = dirIndex virt then pdeRaw a flags else s.pde j := fun j hj =>
    s.pde_withTable pmm hwf.self.aligned ha flags (slot_lt hd) hj
  have hslot := hpde _ (slot_lt hd)
  rw [if_pos rfl] at hslot
  have hnew : NewTables maps s (s.withTable (dirIndex virt) flags a pmm) [(dirIndex virt, a)] :=
    { log := rfl
      draws := .single halloc
      distinct := List.pairwise_singleton _ _
      absent := List.forall_mem_singleton.mpr ⟨hd, habs⟩
      placed := List.forall_mem_singleton.mpr (by rw [hslot]; exact ⟨hpres, hlarge, hframe⟩)
      needed := List.forall_mem_singleton.mpr ⟨_, flags, hmaps, hdir.symm, hslot⟩
      same := fun j hj hnone => by
        rw [hpde j hj, if_neg (hnone _ List.mem_cons_self).symm] }
  refine .ok (by rw [s.tables_withTable hfresh hvalid hwf halloc hne hd habs hf])
    (hwf.withTable hfresh hvalid halloc hne hd habs hf) (hfresh.valid_of hvalid halloc) rfl hnew
    fun f hf' hcr3 hnot j hj => ?_
  have hfa : f ≠ a := by
    have h := hnot _ hd (by rw [hslot, hpres])
    rw [hslot, hframe] at h
    exact h.symm
  rw [s.entry_withTable pmm hwf.self.aligned ha flags (slot_lt hd) hf' hj, if_neg hfa,
    if_neg fun hc => hcr3 hc.1]

/-- **paging_map_page** inserts the page, or halts where it is mapped already. -/
theorem pagingMapPage_simulates (hfresh : FreshFrames valid taken) (hvalid : valid s.pmm)
    (hphys : phys % pageSize = 0) (hphys' : phys < 2 ^ 32) (hf : MapFlags flags)
    (hmaps : maps (virt / pageSize) flags) :
    Simulates valid taken maps s (pagingMapPage s virt phys flags)
      (s.tables.mapRange (virt / pageSize) phys 1 flags) := by
  have hvirt : virt < 2 ^ 32 := by omega
  have hraw := (pteRaw_fields hphys hphys' hf).1
  rw [PageMap.mapRange_one _ _ _ hphys', ← leaf_pteRaw hphys hphys' hf]
  cases hp : isPresent (s.pde (dirIndex virt)) with
  | true =>
      rw [pagingMapPage_of_table hwf.self halign hvirt hp, s.tables_of_dirIndex halign hlt hp]
      cases hpte : isPresent (s.pte (dirIndex virt) (tableIndex virt)) with
      | true =>
          rw [if_pos rfl, if_neg fun hc => by rw [leaf_eq_none, hpte] at hc; contradiction]
          exact .halts
      | false =>
          rw [if_neg Bool.false_ne_true, if_pos (leaf_eq_none.mpr hpte)]
          exact simulates_withEntry hwf halign hlt hvalid hp hraw
  | false =>
      rw [if_pos (s.tables_of_no_table halign hlt hp)]
      cases halloc : FrameAllocator.allocPage s.pmm with
      | error e =>
          rw [pagingMapPage_of_error hwf.self halign hvirt hp halloc]
          exact .gaveUp (.nil _) halloc
      | ok r =>
          obtain ⟨a, pmm⟩ := r
          by_cases hne : a = 0
          · subst hne
            refine .zero hvalid halloc fun s' hok hsucc => ?_
            obtain ⟨a, halloc', hlog⟩ := pagingMapPage_log hwf.self hvirt hp hok
            rw [halloc] at halloc'
            cases halloc'
            exact hsucc.head hlog rfl
          · have ha := hwf.tableFrame hfresh hvalid halloc hne
            have htable := simulates_withTable hwf halign hlt hfresh hvalid hp hf hmaps halloc hne
            obtain ⟨-, hpres, -, hframe, -⟩ := pdeRaw_fields ha.aligned ha.lt hf
            have hpde := s.pde_withTable pmm hwf.self.aligned ha flags (dirIndex_lt hvirt)
              (dirIndex_lt hvirt)
            rw [if_pos rfl] at hpde
            rw [pagingMapPage_create hwf.self halign hvirt hp flags halloc ha]
            refine htable.step (List.suffix_cons _ _) (fun s'' hok => ?_) fun ho hwf' hvalid' => ?_
            · cases hok
              exact List.suffix_refl _
            · have hp' : isPresent ((s.withTable (dirIndex virt) flags a pmm).pde (dirIndex virt)) =
                  true := by rw [hpde, hpres]
              have hentry : Simulates valid taken maps (s.withTable (dirIndex virt) flags a pmm) _ _ :=
                simulates_withEntry hwf' halign hlt hvalid' hp' hraw
              rw [hpde, hframe, ← Option.some.inj ho] at hentry
              exact hentry

/-- **paging_unmap_page** deletes the page, and is harmless where it is absent. -/
theorem pagingUnmapPage_simulates (hvalid : valid s.pmm) :
    Simulates valid taken maps s (pagingUnmapPage s virt)
      (some (s.tables.unmapRange (virt / pageSize) 1)) := by
  have hvirt : virt < 2 ^ 32 := by omega
  rw [PageMap.unmapRange_one]
  cases hp : isPresent (s.pde (dirIndex virt)) with
  | true =>
      have hlt32 : s.pte (dirIndex virt) (tableIndex virt) < 2 ^ 32 := entry_lt _ _ _
      generalize hw : s.pte (dirIndex virt) (tableIndex virt) = w at hlt32
      have habs : isPresent (w - w % 2) = false := by
        unfold isPresent
        exact decide_eq_false (by omega)
      rw [pagingUnmapPage_of_table hwf.self halign hvirt hp, hw, ← leaf_eq_none.mpr habs]
      exact simulates_withEntry hwf halign hlt hvalid hp (by omega)
  | false =>
      rw [pagingUnmapPage_of_absent hwf.self halign hvirt hp]
      have hnone := s.tables_of_no_table halign hlt hp
      rw [← hnone, Function.update_eq_self]
      exact .refl hwf hvalid

end

/-! ### ranges -/

/-- The page behind `virt` is the next one. -/
theorem next_page (halign : virt % pageSize = 0) (hend : virt + (num + 1) * pageSize ≤ 0xFFC00000) :
    u32 (virt + pageSize) = virt + pageSize ∧ (virt + pageSize) % pageSize = 0 ∧
      virt + pageSize + num * pageSize ≤ 0xFFC00000 ∧
      (virt + pageSize) / pageSize = virt / pageSize + 1 := by
  unfold u32 pageSize at *
  omega

theorem next_frame (hphys : phys % pageSize = 0) :
    u32 (phys + pageSize) % pageSize = 0 ∧ u32 (phys + pageSize) < 2 ^ 32 := by
  unfold u32 pageSize at *
  omega

/-- The loop of **paging_map_pages**. -/
theorem pagingMapPages_simulates (hfresh : FreshFrames valid taken) (hwf : DirWF taken s)
    (hvalid : valid s.pmm) (halign : virt % pageSize = 0)
    (hend : virt + num * pageSize ≤ 0xFFC00000) (hphys : phys % pageSize = 0)
    (hphys' : phys < 2 ^ 32) (hf : MapFlags flags)
    (hmaps : ∀ p, virt / pageSize ≤ p → p < virt / pageSize + num → maps p flags) :
    Simulates valid taken maps s (pagingMapPages s virt phys num flags)
      (s.tables.mapRange (virt / pageSize) phys num flags) := by
  induction num generalizing s virt phys with
  | zero =>
      have hempty : s.tables.mapRange (virt / pageSize) phys 0 flags = some s.tables := by
        rw [PageMap.mapRange, if_pos fun i hi => absurd hi (Nat.not_lt_zero i)]
        congr 1
        funext p
        rw [if_neg (by omega)]
      rw [hempty]
      exact .refl hwf hvalid
  | succ num ih =>
      obtain ⟨hu, halign', hend', hpage⟩ := next_page halign hend
      obtain ⟨hframe, hframe'⟩ := next_frame hphys
      have hlt : virt < 0xFFC00000 := by unfold pageSize at hend; omega
      have hfirst := pagingMapPage_simulates hwf halign hlt hfresh hvalid hphys hphys' hf
        (hmaps _ (Nat.le_refl _) (by omega))
      rw [pagingMapPages, hu, PageMap.mapRange_succ _ _ _ _ hphys']
      refine hfirst.bind (fun _ => pagingMapPage_extends) (fun _ _ => pagingMapPages_extends)
        fun s' hwf' hvalid' => ?_
      rw [← hpage]
      exact ih hwf' hvalid' halign' hend' hframe hframe' fun p hlo hhi =>
        hmaps p (by omega) (by omega)

/-- The loop of **paging_unmap_pages**. -/
theorem pagingUnmapPages_simulates (hwf : DirWF taken s) (hvalid : valid s.pmm)
    (halign : virt % pageSize = 0) (hend : virt + num * pageSize ≤ 0xFFC00000) :
    Simulates valid taken maps s (pagingUnmapPages s virt num)
      (some (s.tables.unmapRange (virt / pageSize) num)) := by
  induction num generalizing s virt with
  | zero =>
      have hempty : s.tables.unmapRange (virt / pageSize) 0 = s.tables := by
        funext p
        rw [PageMap.unmapRange, if_neg (by omega)]
      rw [hempty]
      exact .refl hwf hvalid
  | succ num ih =>
      obtain ⟨hu, halign', hend', hpage⟩ := next_page halign hend
      have hlt : virt < 0xFFC00000 := by unfold pageSize at hend; omega
      have hfirst : Simulates valid taken maps s (pagingUnmapPage s virt) _ :=
        pagingUnmapPage_simulates hwf halign hlt hvalid
      rw [pagingUnmapPages, hu, PageMap.unmapRange_succ]
      refine hfirst.bind (g := fun σ => some (σ.unmapRange (virt / pageSize + 1) num))
        (fun _ => pagingUnmapPage_extends) (fun _ _ => pagingUnmapPages_extends)
        fun s' hwf' hvalid' => ?_
      rw [← hpage]
      exact ih hwf' hvalid' halign' hend'

end

/-! ### sequences of calls -/

/-- A call of the virtual memory manager. -/
inductive PagingOp where
  | mapPage (virt phys flags : Nat)
  | mapPages (virt phys num flags : Nat)
  | unmapPage (virt : Nat)
  | unmapPages (virt num : Nat)

namespace PagingOp

def call [FrameAllocator P] (s : Vm P) : PagingOp → Except Halt (Vm P)
  | mapPage virt phys flags => pagingMapPage s virt phys flags
  | mapPages virt phys num flags => pagingMapPages s virt phys num flags
  | unmapPage virt => pagingUnmapPage s virt
  | unmapPages virt num => pagingUnmapPages s virt num

/-- The call on the abstract map; `none` where the kernel has to halt. -/
def abstract (σ : PageMap) : PagingOp → Option PageMap
  | mapPage virt phys flags => σ.mapRange (virt / pageSize) phys 1 flags
  | mapPages virt phys num flags => σ.mapRange (virt / pageSize) phys num flags
  | unmapPage virt => some (σ.unmapRange (virt / pageSize) 1)
  | unmapPages virt num => some (σ.unmapRange (virt / pageSize) num)

/-- The call maps page `p` with flags `fl`. -/
def Maps (p fl : Nat) : PagingOp → Prop
  | mapPage virt _ flags => p = virt / pageSize ∧ fl = flags
  | mapPages virt _ num flags =>
      (virt / pageSize ≤ p ∧ p < virt / pageSize + num) ∧ fl = flags
  | _ => False

/-- Page-aligned addresses, all of them below `0xFFC00000`, and proper flags. -/
def Legal : PagingOp → Prop
  | mapPage virt phys flags =>
      virt % pageSize = 0 ∧ virt < 0xFFC00000 ∧ phys % pageSize = 0 ∧ phys < 2 ^ 32 ∧
        MapFlags flags
  | mapPages virt phys num flags =>
      virt % pageSize = 0 ∧ virt + num * pageSize ≤ 0xFFC00000 ∧ phys % pageSize = 0 ∧
        phys < 2 ^ 32 ∧ MapFlags flags
  | unmapPage virt => virt % pageSize = 0 ∧ virt < 0xFFC00000
  | unmapPages virt num => virt % pageSize = 0 ∧ virt + num * pageSize ≤ 0xFFC00000

variable [FrameAllocator P] {valid : P → Prop} {taken : P → Nat → Prop} {maps : Nat → Nat → Prop}
  {s : Vm P}

/-- **Step lemma**: every call carries out the operation of the map. -/
theorem call_simulates (hfresh : FreshFrames valid taken) (hwf : DirWF taken s)
    (hvalid : valid s.pmm) (op : PagingOp) (hlegal : op.Legal)
    (hmaps : ∀ p fl, op.Maps p fl → maps p fl) :
    Simulates valid taken maps s (op.call s) (op.abstract s.tables) := by
  cases op with
  | mapPage virt phys flags =>
      obtain ⟨halign, hlt, hphys, hphys', hf⟩ := hlegal
      exact pagingMapPage_simulates hwf halign hlt hfresh hvalid hphys hphys' hf
        (hmaps _ _ ⟨rfl, rfl⟩)
  | mapPages virt phys num flags =>
      obtain ⟨halign, hend, hphys, hphys', hf⟩ := hlegal
      exact pagingMapPages_simulates hfresh hwf hvalid halign hend hphys hphys' hf
        fun p hlo hhi => hmaps p flags ⟨⟨hlo, hhi⟩, rfl⟩
  | unmapPage virt =>
      obtain ⟨halign, hlt⟩ := hlegal
      exact pagingUnmapPage_simulates hwf halign hlt hvalid
  | unmapPages virt num =>
      obtain ⟨halign, hend⟩ := hlegal
      exact pagingUnmapPages_simulates hwf hvalid halign hend

theorem call_extends {s' : Vm P} (op : PagingOp) (h : op.call s = .ok s') : s.Extends s' := by
  cases op with
  | mapPage virt phys flags => exact pagingMapPage_extends h
  | mapPages virt phys num flags => exact pagingMapPages_extends h
  | unmapPage virt => exact pagingUnmapPage_extends h
  | unmapPages virt num => exact pagingUnmapPages_extends h

theorem calls_extend {s' : Vm P} (ops : List PagingOp) (h : ops.foldlM call s = .ok s') :
    s.Extends s' := by
  induction ops generalizing s with
  | nil =>
      cases h
      exact List.suffix_refl _
  | cons op ops ih =>
      rw [List.foldlM_cons] at h
      obtain ⟨s₁, hop, hrest⟩ := bind_eq_ok.mp h
      exact (call_extends op hop).trans (ih hrest)

/-- **Run lemma**: so does every sequence of calls. -/
theorem calls_simulate (hfresh : FreshFrames valid taken) (hwf : DirWF taken s)
    (hvalid : valid s.pmm) (ops : List PagingOp) (hlegal : ∀ op ∈ ops, op.Legal)
    (hmaps : ∀ op ∈ ops, ∀ p fl, op.Maps p fl → maps p fl) :
    Simulates valid taken maps s (ops.foldlM call s) (ops.foldlM abstract s.tables) := by
  induction ops generalizing s with
  | nil => exact .refl hwf hvalid
  | cons op ops ih =>
      obtain ⟨hop, hops⟩ := List.forall_mem_cons.mp hlegal
      obtain ⟨hmap, hmaps'⟩ := List.forall_mem_cons.mp hmaps
      rw [List.foldlM_cons, List.foldlM_cons]
      exact (call_simulates hfresh hwf hvalid op hop hmap).bind (fun _ => call_extends op)
        (fun _ _ => calls_extend ops) fun s' hwf' hvalid' => ih hwf' hvalid' hops hmaps'

end PagingOp

section

variable [FrameAllocator P] {valid : P → Prop} {taken : P → Nat → Prop} {s : Vm P}

omit [FrameAllocator P] in
theorem view_eq_tables (hself : SelfMapped s.mem s.cr3) (hsmall : ∀ d < 1023, s.SmallSlot d) :
    s.view = s.tables := by
  funext page
  by_cases hpage : page < mappablePages
  · exact s.view_eq_tables hself hpage (hsmall _ (page_indices hpage).2.2.1)
  · rw [Vm.tables_of_not_mappable _ hpage, Vm.view, if_neg hpage]

/-- **The tables refine the map.**  Take a well-formed directory without large
pages and a frame allocator that hands out fresh frames other than 0.  Over any
sequence of legal calls, either the processor's walk follows the abstract map, and
a frame for a page table was taken only for a slot that had none, to map a page
there, with the flags of that mapping; or the kernel halts because an operation maps a page that is mapped
already; or the allocator fails. -/
theorem paging_refines (hfresh : FreshFrames valid taken)
    (hne : ∀ p a p', valid p → FrameAllocator.allocPage p = .ok (a, p') → a ≠ 0)
    (hwf : DirWF taken s) (hsmall : ∀ d < 1023, s.SmallSlot d) (hvalid : valid s.pmm)
    (ops : List PagingOp) (hlegal : ∀ op ∈ ops, op.Legal) :
    (∃ s' new, ops.foldlM PagingOp.call s = .ok s' ∧
        ops.foldlM PagingOp.abstract s.view = some s'.view ∧ DirWF taken s' ∧
        (∀ d < 1023, s'.SmallSlot d) ∧ s'.cr3 = s.cr3 ∧
        NewTables (fun p fl => ∃ op ∈ ops, op.Maps p fl) s s' new ∧ OnlyTables s s') ∨
      (ops.foldlM PagingOp.call s = .error .alreadyMapped ∧
        ops.foldlM PagingOp.abstract s.view = none) ∨
      ∃ as p e, Run AllocStep s.pmm as p ∧ FrameAllocator.allocPage p = .error e ∧
        ops.foldlM PagingOp.call s = .error e := by
  have hsim := PagingOp.calls_simulate hfresh hwf hvalid ops hlegal
    fun op hop p fl hp => (⟨op, hop, hp⟩ : ∃ op ∈ ops, op.Maps p fl)
  rw [view_eq_tables hwf.self hsmall]
  generalize ops.foldlM PagingOp.call s = r at hsim
  generalize ops.foldlM PagingOp.abstract s.tables = o at hsim
  cases hsim with
  | @ok _ s' _ htables hwf' hinv' hcr3 hnew honly =>
      have hsmall' := fun d (hd : d < 1023) => hnew.smallSlot hd (hsmall d hd)
      rw [← view_eq_tables hwf'.self hsmall'] at htables
      exact .inl ⟨s', _, rfl, htables, hwf', hsmall', hcr3, hnew, honly⟩
  | halts => exact .inr (.inl ⟨rfl, rfl⟩)
  | gaveUp hdraws hfails => exact .inr (.inr ⟨_, _, _, hdraws, hfails, rfl⟩)
  | zero hinv hanswer _ => exact absurd rfl (hne _ _ _ hinv hanswer)

end

end NimbleOS
