import NimbleOS.Paging.Progress
import NimbleOS.Proc.Draws

/-!
# NimbleOS.Proc.Clone

What the first part of `proc_run_code` does to memory: it copies the current page
directory into a new frame through the window, a temporary mapping of that frame
after the kernel heap.  `Window` says that the window is open; stores through it
change the mapped frame only.
-/

namespace NimbleOS

/-- Directory slot of the window. -/
def windowSlot : Nat := 833

/-- Page number of the window. -/
def windowPage : Nat := kernelHeapEndVirt / pageSize

/-- What the temporary mapping maps. -/
def MapsWindow (page flags : Nat) : Prop := page = windowPage ∧ flags = pageRw

/-! ## the window -/

/-- The window shows frame `a`, which is neither the directory nor the window's
own page table. -/
structure Window (s : Vm Pmm) (a : Nat) : Prop where
  self : SelfMapped s.mem s.cr3
  present : isPresent (s.pde windowSlot) = true
  small : isLarge (s.pde windowSlot) = false
  mapped : isPresent (s.pte windowSlot 0) = true
  frame : pageFrame (s.pte windowSlot 0) = a
  dir : s.cr3 ≠ a
  table : pageFrame (s.pde windowSlot) ≠ a

namespace Window

variable {s s' : Vm Pmm}

theorem aligned (h : Window s a) : a % pageSize = 0 := h.frame ▸ pageFrame_mod _

/-- Stores into the frame leave the directory as it is. -/
theorem pde_eq (h : Window s a) (hagree : AgreeOff (· = a) s s') (hj : j < pageEntries) :
    s'.pde j = s.pde j := by
  rw [Vm.pde, hagree.cr3]
  exact hagree.entries _ h.self.aligned h.dir j hj

/-- They leave the window open. -/
theorem congr (h : Window s a) (hagree : AgreeOff (· = a) s s') : Window s' a := by
  have hpde := h.pde_eq hagree (j := windowSlot) (by decide)
  have hpte : s'.pte windowSlot 0 = s.pte windowSlot 0 := by
    rw [Vm.pte, hpde]
    exact hagree.entries _ (pageFrame_mod _) h.table 0 (by decide)
  have hself := h.pde_eq hagree (j := 1023) (by decide)
  rw [Vm.pde, hagree.cr3] at hself
  exact
    { self := by rw [hagree.cr3]; exact h.self.congr hself
      present := by rw [hpde]; exact h.present
      small := by rw [hpde]; exact h.small
      mapped := by rw [hpte]; exact h.mapped
      frame := by rw [hpte]; exact h.frame
      dir := by rw [hagree.cr3]; exact h.dir
      table := by rw [hpde]; exact h.table }

theorem walk (h : Window s a) (ho : o < pageSize) :
    walk s.mem s.cr3 (kernelHeapEndVirt + o) = some (a + o) := by
  have hslot : windowPage / 1024 = windowSlot := by decide
  have hentry : windowPage % 1024 = 0 := by decide
  have htables : s.tables windowPage = some (a, s.pte windowSlot 0 % pageSize) := by
    rw [Vm.tables_of_present (by decide) (by rw [hslot]; exact h.present), hslot, hentry, leaf,
      if_pos h.mapped, h.frame]
  have hsmall : s.SmallSlot (windowPage / 1024) := by
    rw [hslot]
    exact fun _ => h.small
  rw [show kernelHeapEndVirt = windowPage * pageSize from rfl]
  exact s.walk_of_tables h.self hsmall htables ho

/-- A word store through the window. -/
theorem storeWord (h : Window s a) (hj : j < pageEntries) (v : Nat) :
    s.storeWord (kernelHeapEndVirt + 4 * j) v = .ok (s.withEntry a j v) := by
  have hw := h.walk (o := 4 * j) (by unfold pageEntries pageSize at *; omega)
  rw [Vm.storeWord, Vm.storeAddr_of_walk hw (.inr (Nat.le_add_right _ _))]
  rfl

/-- Copying the current directory through the window. -/
theorem memcpy (h : Window s a) :
    memcpy s kernelHeapEndVirt 0xFFFFF000 pageSize =
      .ok { s with mem := s.mem.fill a pageSize fun j => s.mem (s.cr3 + j) } := by
  have ha := h.aligned
  have hcr3 := h.self.aligned
  have hne : a ≠ s.cr3 := Ne.symm h.dir
  refine memcpy_eq_fill s (by decide) (by decide) (.inr (Nat.le_refl _))
    (by unfold pageSize at *; omega) fun f k i hki hi => ?_
  have hopen := h.congr (agreeOff_fill s ha (k := k) (fun g hg hlo hhi => ?_) f)
  swap
  · unfold pageSize at *
    omega
  refine ⟨hopen.walk hi, ?_⟩
  have hw := walk_recursive hopen.self (d := 1023) (by decide) hi hopen.self.present
  rw [hopen.self.self] at hw
  exact hw

theorem procClearSlots (h : Window s a) (hn : n ≤ pageEntries) :
    ∃ s', procClearSlots s n = .ok s' ∧ AgreeOff (· = a) s s' ∧
      ∀ j < pageEntries, entry s'.mem a j = if j < n then 0 else entry s.mem a j := by
  induction n with
  | zero => exact ⟨s, rfl, .refl _ s, fun j _ => by simp⟩
  | succ n ih =>
      obtain ⟨s₁, hrun, hagree, hentries⟩ := ih (by omega)
      have hopen := h.congr hagree
      refine ⟨s₁.withEntry a n 0, ?_,
        hagree.trans (agreeOff_withEntry s₁ h.aligned rfl hn (by decide)), fun j hj => ?_⟩
      · rw [NimbleOS.procClearSlots, hrun]
        exact hopen.storeWord hn 0
      · rw [s₁.entry_withEntry h.aligned h.aligned hn hj (by decide), hentries j hj]
        by_cases hjn : j = n
        · rw [if_pos ⟨rfl, hjn⟩, if_pos (by omega)]
        · rw [if_neg fun hc => hjn hc.2]
          by_cases hlt : j < n
          · rw [if_pos hlt, if_pos (by omega)]
          · rw [if_neg hlt, if_neg (by omega)]

end Window

/-! ## through the window -/

/-- From the open window to the end of `procCloneDirectory`: frame `a` holds the
copy, and the window is closed. -/
structure Copied (s : Vm Pmm) (a : Nat) (s' : Vm Pmm) : Prop extends s.SameButMem s' where
  wf : DirWF Pmm.Taken s'
  pde : ∀ j < pageEntries, s'.pde j = s.pde j
  tables : s'.tables = Function.update s.tables windowPage none
  copy : ∀ j < pageEntries, entry s'.mem a j =
    if j < kernelPageDirIndex then 0 else if j = 1023 then pdeRaw a 0 else s.pde j
  only : ∀ f, f % pageSize = 0 → f ≠ a → f ≠ pageFrame (s.pde windowSlot) →
    ∀ j < pageEntries, entry s'.mem f j = entry s.mem f j

/-- The stores through the window. -/
theorem Window.copy (h : Window s a) (hlt : a < 2 ^ 32) :
    ∃ s₂ s₃ s', NimbleOS.memcpy s kernelHeapEndVirt 0xFFFFF000 pageSize = .ok s₂ ∧
      s₂.storeWord (kernelHeapEndVirt + 4 * 1023) (a ||| pagePresent ||| pageRw) = .ok s₃ ∧
      NimbleOS.procClearSlots s₃ kernelPageDirIndex = .ok s' ∧ AgreeOff (· = a) s s' ∧
      ∀ j < pageEntries, entry s'.mem a j =
        if j < kernelPageDirIndex then 0 else if j = 1023 then pdeRaw a 0 else s.pde j := by
  have ha := h.aligned
  have hraw := (pdeRaw_fields ha hlt (.inl rfl : MapFlags 0)).1
  have hself : a ||| pagePresent ||| pageRw = pdeRaw a 0 := by
    rw [pdeRaw, Nat.zero_and, Nat.or_zero]
  obtain ⟨s₂, hcopy, hoff₂, hentries₂⟩ : ∃ s₂, NimbleOS.memcpy s kernelHeapEndVirt 0xFFFFF000 pageSize
      = .ok s₂ ∧ AgreeOff (· = a) s s₂ ∧ ∀ j < pageEntries, entry s₂.mem a j = s.pde j := by
    refine ⟨_, h.memcpy, agreeOff_fill s ha (fun g hg hlo hhi => ?_) _, fun j hj => ?_⟩
    · unfold pageSize at *
      omega
    rw [entry_copy s.mem ha ha hj, if_pos rfl, Vm.pde]
  have hoff₃ := hoff₂.trans (agreeOff_withEntry s₂ ha rfl (i := 1023) (by decide) hraw)
  have hstore := (h.congr hoff₂).storeWord (j := 1023) (by decide) (pdeRaw a 0)
  obtain ⟨s', hclear, hoff, hentries⟩ :=
    (h.congr hoff₃).procClearSlots (n := kernelPageDirIndex) (by decide)
  refine ⟨s₂, _, s', hcopy, by rw [hself, hstore], hclear, hoff₃.trans hoff, fun j hj => ?_⟩
  rw [hentries j hj, s₂.entry_withEntry ha ha (by decide) hj hraw, hentries₂ j hj]
  simp only [true_and]

/-- Closing the window. -/
theorem Window.close (h : Window s a) (hwf : DirWF Pmm.Taken s) :
    ∃ s', pagingUnmapPage s kernelHeapEndVirt = .ok s' ∧ s.SameButMem s' ∧
      DirWF Pmm.Taken s' ∧ (∀ j < pageEntries, s'.pde j = s.pde j) ∧
      s'.tables = Function.update s.tables windowPage none ∧
      ∀ f, f % pageSize = 0 → f ≠ pageFrame (s.pde windowSlot) → ∀ j < pageEntries,
        entry s'.mem f j = entry s.mem f j := by
  have hdir : dirIndex kernelHeapEndVirt = windowSlot := by decide
  have htab : tableIndex kernelHeapEndVirt = 0 := by decide
  have hslot : windowPage / 1024 = windowSlot := by decide
  have hentry : windowPage % 1024 = 0 := by decide
  have halign : kernelHeapEndVirt % pageSize = 0 := by decide
  have hunmap := pagingUnmapPage_of_table h.self halign (by decide) (by rw [hdir]; exact h.present)
  rw [hdir, htab] at hunmap
  have hv : s.pte windowSlot 0 - s.pte windowSlot 0 % 2 < 2 ^ 32 :=
    Nat.lt_of_le_of_lt (Nat.sub_le _ _) (entry_lt _ _ _)
  have hleaf : leaf (s.pte windowSlot 0 - s.pte windowSlot 0 % 2) = none := by
    rw [leaf_eq_none, isPresent, decide_eq_false_iff_not]
    omega
  generalize s.pte windowSlot 0 - s.pte windowSlot 0 % 2 = v at hunmap hv hleaf
  have hpage : windowPage < mappablePages := by decide
  have htables := s.tables_withEntry hwf hpage (by rw [hslot]; exact h.present) hv
  rw [hslot, hentry, hleaf] at htables
  exact ⟨_, hunmap, ⟨rfl, rfl, rfl⟩, hwf.withEntry (by decide) h.present (by decide) hv,
    fun j hj => s.pde_withEntry hwf (by decide) h.present (by decide) hv hj, htables,
    fun f hf hne j hj => by
      rw [s.entry_withEntry (pageFrame_mod _) hf (by decide) hj hv, if_neg fun hc => hne hc.1]⟩

theorem procCloneDirectory_of_window {s s₁ : Vm Pmm}
    (hmap : pagingMapPage s kernelHeapEndVirt a pageRw = .ok s₁) (h : Window s₁ a)
    (hapart : Apart (· = a) s₁) (hwf : DirWF Pmm.Taken s₁) (hlt : a < 2 ^ 32) :
    ∃ s', procCloneDirectory s a = .ok s' ∧ Copied s₁ a s' := by
  obtain ⟨s₂, s₃, s₄, hcopy, hself, hclear, hoff, hentries⟩ := h.copy hlt
  have hpde := fun j (hj : j < pageEntries) => h.pde_eq hoff hj
  have hwin := h.congr hoff
  have hwf₄ := hoff.wf hapart hwf
  obtain ⟨s', hunmap, hsame, hwf', hpde', htables, honly⟩ := hwin.close hwf₄
  have hslot : pageFrame (s₄.pde windowSlot) = pageFrame (s₁.pde windowSlot) := by
    rw [hpde windowSlot (by decide)]
  refine ⟨s', ?_, hoff.toSameButMem.trans hsame, hwf', fun j hj => (hpde' j hj).trans (hpde j hj),
    by rw [htables, hoff.tables_eq hapart h.self.aligned], fun j hj => ?_, fun f hf hne htab j hj => ?_⟩
  · exact bind_eq_ok.mpr ⟨s₁, hmap, bind_eq_ok.mpr ⟨s₂, hcopy, bind_eq_ok.mpr ⟨s₃, hself,
      bind_eq_ok.mpr ⟨s₄, hclear, hunmap⟩⟩⟩⟩
  · rw [honly a h.aligned (Ne.symm hwin.table) j hj]
    exact hentries j hj
  · rw [honly f hf (by rwa [hslot]) j hj]
    exact hoff.entries f hf hne j hj

/-! ## the clone -/

/-- Frame `a` holds a copy of the current directory: the same kernel slots, no
other slots, and a reference to itself.  The current directory has at most gained
a table for the window. -/
structure Cloned (s : Vm Pmm) (a : Nat) (s' : Vm Pmm) (ts : List (Nat × Nat)) : Prop where
  cr3 : s'.cr3 = s.cr3
  sane : s'.pmm.Sane
  wf : DirWF Pmm.Taken s'
  new : NewTables MapsWindow s s' ts
  present : isPresent (s'.pde windowSlot) = true
  tables : s'.tables = s.tables
  ne_table : ∀ d < 1023, isPresent (s'.pde d) = true → pageFrame (s'.pde d) ≠ a
  copy : ∀ j < pageEntries, entry s'.mem a j =
    if j < kernelPageDirIndex then 0 else if j = 1023 then pdeRaw a 0 else s'.pde j
  only : ∀ f, f % pageSize = 0 → f ≠ s.cr3 → f ≠ a → f ≠ pageFrame (s'.pde windowSlot) →
    ∀ j < pageEntries, entry s'.mem f j = entry s.mem f j

/-- What the proofs need of the state in which a process is created: a
well-formed directory that maps no large page at the window. -/
structure CanClone (s : Vm Pmm) : Prop where
  sane : s.pmm.Sane
  wf : DirWF Pmm.Taken s
  small : s.SmallSlot windowSlot

/-- New tables are in frames that were not taken. -/
theorem NewTables.fresh {maps : Nat → Nat → Prop} {s s' : Vm Pmm} (h : NewTables maps s s' ts)
    (hs : s.pmm.Sane) (hsucc : s.Succeeds s') :
    ∀ t ∈ ts, t.2 % pageSize = 0 ∧ t.2 < 2 ^ 32 ∧ ¬ s.pmm.Taken t.2 ∧ s'.pmm.Taken t.2 := by
  intro t ht
  have hdraws := h.draws_log
  have hspec := hdraws.spec hs (hdraws.addr_ne hsucc)
  have hmem := Alloc.table_mem_map ht
  have hblock : t.2 / pageSize ∈ (Alloc.table t.1 t.2).blocks := by
    simp [Alloc.blocks, blocksFrom]
  obtain ⟨halign, hlt⟩ := hspec.aligned _ hmem _ hblock
  have hfree := (hspec.free _ hmem _ hblock).2
  refine ⟨halign, hlt, ?_, (hspec.used _).mpr (.inr ⟨_, hmem, hblock⟩)⟩
  rw [Pmm.Taken, hfree]
  exact Bool.false_ne_true

/-- A table that is new or was there before: the first were not taken before. -/
theorem NewTables.ne_of_taken {maps : Nat → Nat → Prop} {s s' : Vm Pmm} (h : NewTables maps s s' ts)
    (hs : s.pmm.Sane) (hsucc : s.Succeeds s') (ha : s.pmm.Taken a)
    (hne : ∀ d < 1023, isPresent (s.pde d) = true → pageFrame (s.pde d) ≠ a) :
    ∀ d < 1023, isPresent (s'.pde d) = true → pageFrame (s'.pde d) ≠ a := by
  intro d hd hp heq
  by_cases hnew : ∃ t ∈ ts, t.1 = d
  · obtain ⟨t, ht, rfl⟩ := hnew
    have hfree := (h.fresh hs hsucc t ht).2.2.1
    rw [(h.placed t ht).2.2] at heq
    exact hfree (heq ▸ ha)
  · have hsame := h.same d (slot_lt hd) fun t ht heq => hnew ⟨t, ht, heq⟩
    rw [hsame] at hp heq
    exact hne d hd hp heq

/-- Mapping the frame at the window opens it. -/
theorem window_of_map {s s₁ : Vm Pmm} (hc : CanClone s) (ha : TableFrame s a)
    (htaken : s.pmm.Taken a)
    (hne : ∀ d < 1023, isPresent (s.pde d) = true → pageFrame (s.pde d) ≠ a)
    (hmap : pagingMapPage s kernelHeapEndVirt a pageRw = .ok s₁) (hsucc : s.Succeeds s₁) :
    ∃ ts, Window s₁ a ∧ Apart (· = a) s₁ ∧ DirWF Pmm.Taken s₁ ∧ s₁.pmm.Sane ∧ s₁.cr3 = s.cr3 ∧
      NewTables MapsWindow s s₁ ts ∧ s.tables windowPage = none ∧
      s₁.tables = Function.update s.tables windowPage (some (a, 3)) := by
  have hslot : windowPage / 1024 = windowSlot := by decide
  have hentry : windowPage % 1024 = 0 := by decide
  have hmaps : MapsWindow (kernelHeapEndVirt / pageSize) pageRw := ⟨rfl, rfl⟩
  have hflags : MapFlags pageRw := .inr (.inl rfl)
  have halign : kernelHeapEndVirt % pageSize = 0 := by decide
  have hsim := pagingMapPage_simulates hc.wf halign (by decide) pmm_freshFrames hc.sane
    ha.aligned ha.lt hflags hmaps
  rw [hmap, PageMap.mapRange_one _ _ _ ha.lt,
    show kernelHeapEndVirt / pageSize = windowPage from rfl] at hsim
  obtain ⟨ts, htables, hwf, hsane, hcr3, hnew, -⟩ := hsim.of_ok hsucc
  by_cases hnone : s.tables windowPage = none
  swap
  · rw [if_neg hnone] at htables
    contradiction
  rw [if_pos hnone, Option.some.injEq] at htables
  have hpage : s₁.tables windowPage = some (a, 3) := by
    rw [← htables]
    exact Function.update_self _ _ _
  have hp : isPresent (s₁.pde windowSlot) = true := by
    rw [← Bool.not_eq_false]
    intro habs
    rw [Vm.tables_of_absent (by rw [hslot]; exact habs)] at hpage
    contradiction
  rw [Vm.tables_of_present (by decide) (by rw [hslot]; exact hp), hslot, hentry, leaf] at hpage
  have hpte : isPresent (s₁.pte windowSlot 0) = true := by
    by_contra hc
    rw [if_neg hc] at hpage
    contradiction
  rw [if_pos hpte, Option.some.injEq, Prod.mk.injEq] at hpage
  have hapart : Apart (· = a) s₁ :=
    { dir := hcr3.symm ▸ ha.ne_dir.symm
      table := hnew.ne_of_taken hc.sane hsucc htaken hne }
  have hwindow : Window s₁ a :=
    { self := hwf.self
      present := hp
      small := hnew.smallSlot (by decide) hc.small hp
      mapped := hpte
      frame := hpage.1
      dir := hapart.dir
      table := hapart.table windowSlot (by decide) hp }
  exact ⟨ts, hwindow, hapart, hwf, hsane, hcr3, hnew, hnone, htables.symm⟩

/-- **procCloneDirectory** clones the current directory.  It returns if the window is
closed and the frame allocator answers once for a missing table of the window. -/
theorem procCloneDirectory_returns {s : Vm Pmm} (hc : CanClone s) (ha : TableFrame s a)
    (htaken : s.pmm.Taken a)
    (hne : ∀ d < 1023, isPresent (s.pde d) = true → pageFrame (s.pde d) ≠ a)
    (hfree : s.tables windowPage = none) (hgrant : Run AllocStep s.pmm as p')
    (hnz : ∀ b ∈ as, b ≠ 0) (hlen : as.length = (s.missing windowPage 1).card) :
    ∃ s' ts, procCloneDirectory s a = .ok s' ∧ s'.pmm = p' ∧ s.Succeeds s' ∧ Cloned s a s' ts := by
  have halign : kernelHeapEndVirt % pageSize = 0 := by decide
  obtain ⟨s₁, hmap, hsucc, rfl, -, honly⟩ := pagingMapPage_returns pmm_freshFrames hc.wf hc.sane
    halign (by decide) ha.aligned ha.lt (by decide : MapFlags pageRw) hfree hgrant hnz hlen
  obtain ⟨ts, hwin, hapart, hwf, hsane, hcr3, hnew, hnone, htables⟩ :=
    window_of_map hc ha htaken hne hmap hsucc
  obtain ⟨s', hclone, hcopied⟩ := procCloneDirectory_of_window hmap hwin hapart hwf ha.lt
  have hsucc' : s.Succeeds s' := by
    obtain ⟨new, hlog, hnew⟩ := hsucc
    exact ⟨new, by rw [hcopied.log, hlog], hnew⟩
  refine ⟨s', ts, hclone, hcopied.pmm, hsucc',
    { cr3 := hcopied.cr3.trans hcr3
      sane := by rw [hcopied.pmm]; exact hsane
      wf := hcopied.wf
      new := hnew.trans (.nil hcopied.log hcopied.pmm hcopied.pde)
      present := by rw [hcopied.pde windowSlot (by decide)]; exact hwin.present
      tables := by
        rw [hcopied.tables, htables, Function.update_idem, ← hnone, Function.update_eq_self]
      ne_table := fun d hd => by rw [hcopied.pde d (slot_lt hd)]; exact hapart.table d hd
      copy := fun j hj => by rw [hcopied.copy j hj, hcopied.pde j hj]
      only := fun f hf hdir hfa hwindow j hj => ?_ }⟩
  rw [hcopied.pde windowSlot (by decide)] at hwindow
  rw [hcopied.only f hf hfa hwindow j hj]
  refine honly f hf hdir (fun d hd => ?_) j hj
  obtain ⟨p, hlo, hhi, rfl⟩ := mem_pageSlots.mp hd
  obtain rfl : p = windowPage := Nat.le_antisymm (Nat.le_of_lt_succ hhi) hlo
  exact hwindow.symm

end NimbleOS
