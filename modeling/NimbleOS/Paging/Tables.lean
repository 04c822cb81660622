import NimbleOS.Paging
import NimbleOS.Paging.PageMap

/-!
# NimbleOS.Paging.Tables

The page map that the tables of a directory hold.  `Vm.tables` reads it off the
words as the code does, `Vm.view` by the processor's walk; they agree where no
large page is mapped.  A store into a table changes one page of the map, a new
table none, and both keep the directory well-formed (`DirWF`).
-/

namespace NimbleOS

/-! ## the map of a directory -/

/-- Pages below `0xFFC00000`. -/
def mappablePages : Nat := 0xFFC00

variable {P : Type}

/-- What a page entry says. -/
def leaf (w : Nat) : Option (Nat × Nat) :=
  if isPresent w then some (pageFrame w, w % pageSize) else none

/-- The map in the words of the tables, as the code reads them: it takes every
present slot for a page table. -/
def Vm.tables (s : Vm P) : PageMap :=
  fun page =>
    if page < mappablePages ∧ isPresent (s.pde (page / 1024)) then
      leaf (s.pte (page / 1024) (page % 1024))
    else none

/-- The map that the processor's walk finds. -/
def Vm.view (s : Vm P) : PageMap :=
  fun page => if page < mappablePages then translate s.mem s.cr3 (page * pageSize) else none

/-- A well-formed directory: slot 1023 refers to the directory, every other
present slot to a frame of its own, and all these frames are taken in the frame
allocator. -/
structure DirWF (taken : P → Nat → Prop) (s : Vm P) : Prop where
  self : SelfMapped s.mem s.cr3
  ne_dir : ∀ d < 1023, isPresent (s.pde d) = true → pageFrame (s.pde d) ≠ s.cr3
  inj : ∀ d < 1023, ∀ d' < 1023, isPresent (s.pde d) = true → isPresent (s.pde d') = true →
    pageFrame (s.pde d) = pageFrame (s.pde d') → d = d'
  dir_taken : taken s.pmm s.cr3
  table_taken : ∀ d < 1023, isPresent (s.pde d) = true → taken s.pmm (pageFrame (s.pde d))

/-- Slot `d` does not map a large page. -/
def Vm.SmallSlot (s : Vm P) (d : Nat) : Prop :=
  isPresent (s.pde d) = true → isLarge (s.pde d) = false

/-! ### pages and entries -/

/-- The indices of a mappable page. -/
theorem page_indices (h : page < mappablePages) :
    dirIndex (page * pageSize) = page / 1024 ∧ tableIndex (page * pageSize) = page % 1024 ∧
      page / 1024 < 1023 ∧ page % 1024 < pageEntries := by
  unfold dirIndex tableIndex mappablePages pageSize pageEntries at *
  omega

/-- An aligned virtual address below `0xFFC00000` is that of a mappable page. -/
theorem page_of_aligned (halign : virt % pageSize = 0) (hlt : virt < 0xFFC00000) :
    virt / pageSize < mappablePages ∧ dirIndex virt = virt / pageSize / 1024 ∧
      tableIndex virt = virt / pageSize % 1024 := by
  unfold mappablePages dirIndex tableIndex pageSize at *
  omega

theorem slot_lt (hd : d < 1023) : d < pageEntries := by
  unfold pageEntries
  omega

theorem Vm.tables_of_present {s : Vm P} (hpage : page < mappablePages)
    (hp : isPresent (s.pde (page / 1024)) = true) :
    s.tables page = leaf (s.pte (page / 1024) (page % 1024)) := by
  rw [tables, if_pos ⟨hpage, hp⟩]

theorem Vm.tables_of_absent {s : Vm P} (habs : isPresent (s.pde (page / 1024)) = false) :
    s.tables page = none := by
  rw [tables, if_neg]
  rw [habs]
  exact fun h => Bool.false_ne_true h.2

theorem Vm.tables_of_not_mappable (s : Vm P) (hpage : ¬ page < mappablePages) :
    s.tables page = none := by
  rw [tables, if_neg fun h => hpage h.1]

theorem Vm.tables_of_dirIndex {s : Vm P} (halign : virt % pageSize = 0) (hlt : virt < 0xFFC00000)
    (hp : isPresent (s.pde (dirIndex virt)) = true) :
    s.tables (virt / pageSize) = leaf (s.pte (dirIndex virt) (tableIndex virt)) := by
  obtain ⟨hpage, hdir, htab⟩ := page_of_aligned halign hlt
  rw [hdir] at hp
  rw [Vm.tables_of_present hpage hp, hdir, htab]

theorem Vm.tables_of_no_table {s : Vm P} (halign : virt % pageSize = 0) (hlt : virt < 0xFFC00000)
    (habs : isPresent (s.pde (dirIndex virt)) = false) :
    s.tables (virt / pageSize) = none := by
  obtain ⟨-, hdir, -⟩ := page_of_aligned halign hlt
  rw [hdir] at habs
  exact Vm.tables_of_absent habs

theorem leaf_pteRaw (hphys : phys % pageSize = 0) (hlt : phys < 2 ^ 32) (hf : MapFlags flags) :
    leaf (pteRaw phys flags) = some (phys, flags + pagePresent) := by
  obtain ⟨-, hp, hframe, hflags, -⟩ := pteRaw_fields hphys hlt hf
  rw [leaf, if_pos hp, hframe, hflags, pagePresent]

theorem leaf_eq_none : leaf w = none ↔ isPresent w = false := by
  unfold leaf
  cases isPresent w <;> simp

/-- The directory depends on the memory. -/
theorem Vm.pde_of_same {s t : Vm P} (hmem : t.mem = s.mem) (hcr3 : t.cr3 = s.cr3) (d : Nat) :
    t.pde d = s.pde d := by
  rw [pde, pde, hmem, hcr3]

theorem Vm.tables_of_same {s t : Vm P} (hmem : t.mem = s.mem) (hcr3 : t.cr3 = s.cr3) :
    t.tables = s.tables := by
  funext p
  simp only [tables, pte, pde_of_same hmem hcr3, hmem]

/-- The map depends on the directory and on its tables. -/
theorem Vm.tables_congr {s s' : Vm P} (hpde : ∀ d < 1023, s'.pde d = s.pde d)
    (hpte : ∀ d < 1023, isPresent (s.pde d) = true → ∀ t < pageEntries,
      entry s'.mem (pageFrame (s.pde d)) t = entry s.mem (pageFrame (s.pde d)) t) :
    s'.tables = s.tables := by
  funext q
  by_cases hq : q < mappablePages
  · obtain ⟨-, -, hd, ht⟩ := page_indices hq
    cases hp : isPresent (s.pde (q / 1024)) with
    | true =>
        rw [tables_of_present hq (by rw [hpde _ hd, hp]), tables_of_present hq hp, pte, hpde _ hd,
          hpte _ hd hp _ ht, pte]
    | false => rw [tables_of_absent (by rw [hpde _ hd, hp]), tables_of_absent hp]
  · rw [tables_of_not_mappable _ hq, tables_of_not_mappable _ hq]

/-- In the recursive region the processor finds the directory's own slots. -/
theorem translate_recursive (hself : SelfMapped m cr3) (hdir : dirIndex virt = 1023) :
    translate m cr3 virt = leaf (entry m cr3 (tableIndex virt)) := by
  have hpde : entry m (pageFrame cr3) (dirIndex virt) = entry m cr3 1023 := by
    rw [pageFrame_of_aligned hself.aligned, hdir]
  rw [translate_of_table hpde hself.present hself.small, hself.self, leaf]

/-- **Code and processor agree** on a page whose slot maps no large page. -/
theorem Vm.view_eq_tables {s : Vm P} (hself : SelfMapped s.mem s.cr3)
    (hpage : page < mappablePages) (hsmall : s.SmallSlot (page / 1024)) :
    s.view page = s.tables page := by
  obtain ⟨hdir, htab, -, -⟩ := page_indices hpage
  have hframe := pageFrame_of_aligned hself.aligned
  have hpde : entry s.mem (pageFrame s.cr3) (dirIndex (page * pageSize)) = s.pde (page / 1024) := by
    rw [hframe, hdir, pde]
  rw [view, if_pos hpage]
  cases hp : isPresent (s.pde (page / 1024)) with
  | true =>
      rw [tables_of_present hpage hp, translate_of_table hpde hp (hsmall hp), htab]
      rfl
  | false => rw [tables_of_absent hp, translate_of_absent (by rw [hpde, hp])]

/-- The same for any address of the page. -/
theorem Vm.translate_eq_tables {s : Vm P} (hself : SelfMapped s.mem s.cr3)
    (hvirt : virt < 0xFFC00000) (hsmall : s.SmallSlot (dirIndex virt)) :
    translate s.mem s.cr3 virt = s.tables (virt / pageSize) := by
  have hpage : virt / pageSize < mappablePages := by unfold mappablePages pageSize; omega
  have hdir : dirIndex (virt / pageSize * pageSize) = dirIndex virt := by
    unfold dirIndex pageSize
    omega
  have htab : tableIndex (virt / pageSize * pageSize) = tableIndex virt := by
    unfold tableIndex pageSize
    omega
  obtain ⟨hslot, -⟩ := page_indices hpage
  have hview := Vm.view_eq_tables hself hpage (by rwa [← hslot, hdir])
  rw [view, if_pos hpage, translate, hdir, htab] at hview
  exact hview

/-- A page in the tables is where the processor finds it, byte by byte. -/
theorem Vm.walk_of_tables {s : Vm P} (hself : SelfMapped s.mem s.cr3)
    (hsmall : s.SmallSlot (page / 1024)) (h : s.tables page = some (f, fl)) (ho : o < pageSize) :
    walk s.mem s.cr3 (page * pageSize + o) = some (f + o) := by
  by_cases hmap : page < mappablePages ∧ isPresent (s.pde (page / 1024)) = true
  · obtain ⟨hpage, hp⟩ := hmap
    have hframe := pageFrame_of_aligned hself.aligned
    have hdir : dirIndex (page * pageSize + o) = page / 1024 := by
      unfold dirIndex pageSize at *; omega
    have htab : tableIndex (page * pageSize + o) = page % 1024 := by
      unfold tableIndex pageSize at *; omega
    have hoff : (page * pageSize + o) % pageSize = o := by unfold pageSize at *; omega
    have hpde : entry s.mem (pageFrame s.cr3) (dirIndex (page * pageSize + o)) =
        s.pde (page / 1024) := by
      rw [hframe, hdir, pde]
    rw [tables_of_present hpage hp, leaf] at h
    rw [walk, translate_of_table hpde hp (hsmall hp), htab]
    change (if isPresent (s.pte (page / 1024) (page % 1024)) = true then
      some (pageFrame (s.pte (page / 1024) (page % 1024)),
        s.pte (page / 1024) (page % 1024) % pageSize) else none).map _ = _
    rw [h, Option.map_some, hoff]
  · rw [tables, if_neg hmap] at h
    contradiction

/-- A well-formed directory is one whatever is taken. -/
theorem DirWF.untaken {taken : P → Nat → Prop} {s : Vm P} (hwf : DirWF taken s) :
    DirWF (fun _ _ => True) s where
  self := hwf.self
  ne_dir := hwf.ne_dir
  inj := hwf.inj
  dir_taken := trivial
  table_taken := fun _ _ _ => trivial

/-- Well-formedness depends on the directory and on what is taken. -/
theorem DirWF.congr {taken : P → Nat → Prop} {s s' : Vm P} (hwf : DirWF taken s)
    (hcr3 : s'.cr3 = s.cr3) (hpde : ∀ d < pageEntries, s'.pde d = s.pde d)
    (htaken : ∀ f, taken s.pmm f → taken s'.pmm f) : DirWF taken s' := by
  constructor
  · rw [hcr3]
    refine hwf.self.congr ?_
    have h := hpde 1023 (by decide)
    rwa [Vm.pde, hcr3] at h
  · intro d hd
    rw [hpde d (slot_lt hd), hcr3]
    exact hwf.ne_dir d hd
  · intro d hd d' hd'
    rw [hpde d (slot_lt hd), hpde d' (slot_lt hd')]
    exact hwf.inj d hd d' hd'
  · rw [hcr3]
    exact htaken _ hwf.dir_taken
  · intro d hd
    rw [hpde d (slot_lt hd)]
    exact fun hp => htaken _ (hwf.table_taken d hd hp)

/-! ### stores elsewhere -/

/-- Outside of the frames in `off`, the entries of `s'` are those of `s`. -/
structure AgreeOff (off : Nat → Prop) (s s' : Vm P) : Prop extends s.SameButMem s' where
  entries : ∀ f, f % pageSize = 0 → ¬ off f → ∀ j < pageEntries, entry s'.mem f j = entry s.mem f j

/-- Neither the directory nor a table is in one of the frames in `off`. -/
structure Apart (off : Nat → Prop) (s : Vm P) : Prop where
  dir : ¬ off s.cr3
  table : ∀ d < 1023, isPresent (s.pde d) = true → ¬ off (pageFrame (s.pde d))

section

variable {off : Nat → Prop} {s s' s'' : Vm P}

theorem AgreeOff.refl (off : Nat → Prop) (s : Vm P) : AgreeOff off s s :=
  ⟨⟨rfl, rfl, rfl⟩, fun _ _ _ _ _ => rfl⟩

theorem AgreeOff.trans (h : AgreeOff off s s') (h' : AgreeOff off s' s'') : AgreeOff off s s'' where
  toSameButMem := h.toSameButMem.trans h'.toSameButMem
  entries := fun f hf hne j hj => (h'.entries f hf hne j hj).trans (h.entries f hf hne j hj)

/-- A word store into a frame. -/
theorem agreeOff_withEntry (s : Vm P) (ha : a % pageSize = 0) (hin : off a) (hi : i < pageEntries)
    (hv : v < 2 ^ 32) : AgreeOff off s (s.withEntry a i v) where
  cr3 := rfl
  pmm := rfl
  log := rfl
  entries := fun f hf hne j hj => by
    rw [s.entry_withEntry ha hf hi hj hv, if_neg]
    rintro ⟨rfl, -⟩
    exact hne hin

/-- A range store into frames. -/
theorem agreeOff_fill (s : Vm P) (ha : a % pageSize = 0)
    (hin : ∀ f, f % pageSize = 0 → a ≤ f → f < a + k → off f) (g : Nat → BitVec 8) :
    AgreeOff off s { s with mem := s.mem.fill a k g } where
  cr3 := rfl
  pmm := rfl
  log := rfl
  entries := fun f hf hne j hj => by
    refine entry_fill_of_disjoint _ _ hj ?_
    by_contra hc
    exact hne (hin f hf (by unfold pageSize at *; omega) (by omega))

variable (h : Apart off s) (hagree : AgreeOff off s s')

include h hagree

theorem AgreeOff.pde_eq (hcr3 : s.cr3 % pageSize = 0) (hj : j < pageEntries) :
    s'.pde j = s.pde j := by
  rw [Vm.pde, hagree.cr3]
  exact hagree.entries _ hcr3 h.dir j hj

theorem AgreeOff.apart (hcr3 : s.cr3 % pageSize = 0) : Apart off s' where
  dir := by rw [hagree.cr3]; exact h.dir
  table := fun d hd => by rw [hagree.pde_eq h hcr3 (slot_lt hd)]; exact h.table d hd

/-- Such stores do not change the map. -/
theorem AgreeOff.tables_eq (hcr3 : s.cr3 % pageSize = 0) : s'.tables = s.tables :=
  Vm.tables_congr (fun _ hd => hagree.pde_eq h hcr3 (slot_lt hd)) fun d hd hp t ht =>
    hagree.entries _ (pageFrame_mod _) (h.table d hd hp) t ht

theorem AgreeOff.wf {taken : P → Nat → Prop} (hwf : DirWF taken s) : DirWF taken s' :=
  hwf.congr hagree.cr3 (fun _ hj => hagree.pde_eq h hwf.self.aligned hj) fun f hf => by
    rwa [hagree.pmm]

end

/-! ### writing an entry of a table -/

section

variable {taken : P → Nat → Prop} {s : Vm P} {d : Nat}

theorem Vm.pde_withEntry (hwf : DirWF taken s) (hd : d < 1023)
    (hp : isPresent (s.pde d) = true) (ht : t < pageEntries) (hv : v < 2 ^ 32)
    (hj : j < pageEntries) : (s.withEntry (pageFrame (s.pde d)) t v).pde j = s.pde j := by
  have h := s.entry_withEntry (pageFrame_mod (s.pde d)) hwf.self.aligned ht hj hv
  rw [if_neg fun heq => hwf.ne_dir d hd hp heq.1.symm] at h
  exact h

theorem Vm.pte_withEntry (hwf : DirWF taken s) (hd : d < 1023)
    (hp : isPresent (s.pde d) = true) (ht : t < pageEntries) (hv : v < 2 ^ 32)
    (hd' : d' < 1023) (hp' : isPresent (s.pde d') = true) (ht' : t' < pageEntries) :
    (s.withEntry (pageFrame (s.pde d)) t v).pte d' t' =
      if d' = d ∧ t' = t then v else s.pte d' t' := by
  have hpde := s.pde_withEntry hwf hd hp ht hv (slot_lt hd')
  have h := s.entry_withEntry (pageFrame_mod (s.pde d)) (pageFrame_mod (s.pde d')) ht ht' hv
  rw [pte, hpde, h]
  by_cases heq : d' = d
  · subst heq
    simp only [true_and, pte]
  · rw [if_neg fun hc => heq (hwf.inj d' hd' d hd hp' hp hc.1), if_neg fun hc => heq hc.1, pte]

theorem DirWF.withEntry (hwf : DirWF taken s) (hd : d < 1023)
    (hp : isPresent (s.pde d) = true) (ht : t < pageEntries) (hv : v < 2 ^ 32) :
    DirWF taken (s.withEntry (pageFrame (s.pde d)) t v) := by
  have hpde : ∀ j, j < pageEntries → (s.withEntry (pageFrame (s.pde d)) t v).pde j = s.pde j :=
    fun j hj => s.pde_withEntry hwf hd hp ht hv hj
  constructor
  · exact hwf.self.congr (hpde 1023 (by decide))
  · intro j hj
    rw [hpde j (slot_lt hj)]
    exact hwf.ne_dir j hj
  · intro j hj k hk
    rw [hpde j (slot_lt hj), hpde k (slot_lt hk)]
    exact hwf.inj j hj k hk
  · exact hwf.dir_taken
  · intro j hj
    rw [hpde j (slot_lt hj)]
    exact hwf.table_taken j hj

/-- **Writing a table entry** changes the translation of one page. -/
theorem Vm.tables_withEntry (hwf : DirWF taken s) (hpage : page < mappablePages)
    (hp : isPresent (s.pde (page / 1024)) = true) (hv : v < 2 ^ 32) :
    (s.withEntry (pageFrame (s.pde (page / 1024))) (page % 1024) v).tables =
      Function.update s.tables page (leaf v) := by
  obtain ⟨-, -, hd, ht⟩ := page_indices hpage
  funext q
  by_cases hq : q < mappablePages
  · obtain ⟨-, -, hd', ht'⟩ := page_indices hq
    have hpde := s.pde_withEntry hwf hd hp ht hv (slot_lt hd')
    cases hp' : isPresent (s.pde (q / 1024)) with
    | true =>
        rw [tables_of_present hq (by rw [hpde, hp']), s.pte_withEntry hwf hd hp ht hv hd' hp' ht']
        by_cases heq : q = page
        · subst heq
          rw [if_pos ⟨rfl, rfl⟩, Function.update_self]
        · rw [if_neg (by omega), Function.update_of_ne heq, tables_of_present hq hp']
    | false =>
        have hne : q ≠ page := by
          rintro rfl
          rw [hp] at hp'
          contradiction
        rw [tables_of_absent (by rw [hpde, hp']), Function.update_of_ne hne, tables_of_absent hp']
  · have hne : q ≠ page := by
      rintro rfl
      exact hq hpage
    rw [tables_of_not_mappable _ hq, Function.update_of_ne hne, tables_of_not_mappable _ hq]

end

/-! ### creating a table -/

/-- A frame allocator that hands out fresh frames: an answer other than 0 is not
among the frames that are `taken`.  `valid` is the allocator's own invariant. -/
structure FreshFrames [FrameAllocator P] (valid : P → Prop) (taken : P → Nat → Prop) : Prop where
  valid_of : valid p → FrameAllocator.allocPage p = .ok (a, p') → valid p'
  aligned : valid p → FrameAllocator.allocPage p = .ok (a, p') → a % pageSize = 0 ∧ a < 2 ^ 32
  fresh : valid p → FrameAllocator.allocPage p = .ok (a, p') → a ≠ 0 → ¬ taken p a
  takes : valid p → FrameAllocator.allocPage p = .ok (a, p') → a ≠ 0 → taken p' a
  keeps : valid p → FrameAllocator.allocPage p = .ok (a, p') → taken p f → taken p' f

section

variable [FrameAllocator P] {valid : P → Prop} {taken : P → Nat → Prop} {s : Vm P} {a : Nat}
  {pmm : P} (hfresh : FreshFrames valid taken) (hvalid : valid s.pmm) (hwf : DirWF taken s)
  (halloc : FrameAllocator.allocPage s.pmm = .ok (a, pmm)) (hne : a ≠ 0)

include hfresh hvalid hwf halloc hne

theorem DirWF.tableFrame : TableFrame s a where
  aligned := (hfresh.aligned hvalid halloc).1
  lt := (hfresh.aligned hvalid halloc).2
  ne_dir := by
    rintro rfl
    exact hfresh.fresh hvalid halloc hne hwf.dir_taken

theorem DirWF.frame_ne (hd : d < 1023) (hp : isPresent (s.pde d) = true) :
    pageFrame (s.pde d) ≠ a := by
  rintro rfl
  exact hfresh.fresh hvalid halloc hne (hwf.table_taken d hd hp)

theorem DirWF.withTable (hd : d < 1023) (habs : isPresent (s.pde d) = false)
    (hf : MapFlags flags) : DirWF taken (s.withTable d flags a pmm) := by
  have ha := hwf.tableFrame hfresh hvalid halloc hne
  obtain ⟨-, hpres, -, hframe, -⟩ := pdeRaw_fields ha.aligned ha.lt hf
  have hpde : ∀ j, j < 1023 → (s.withTable d flags a pmm).pde j =
      if j = d then pdeRaw a flags else s.pde j := fun j hj =>
    s.pde_withTable pmm hwf.self.aligned ha flags (slot_lt hd) (slot_lt hj)
  constructor
  · exact hwf.self.withTable pmm (slot_lt hd) habs flags ha
  · intro j hj
    rw [hpde j hj]
    split
    · rw [hframe]
      exact fun _ => ha.ne_dir
    · exact hwf.ne_dir j hj
  · intro j hj k hk
    rw [hpde j hj, hpde k hk]
    by_cases hjd : j = d
    · by_cases hkd : k = d
      · exact fun _ _ _ => hjd.trans hkd.symm
      · rw [if_pos hjd, if_neg hkd, hframe]
        intro _ hp heq
        exact absurd heq.symm (hwf.frame_ne hfresh hvalid halloc hne hk hp)
    · by_cases hkd : k = d
      · rw [if_neg hjd, if_pos hkd, hframe]
        intro hp _ heq
        exact absurd heq (hwf.frame_ne hfresh hvalid halloc hne hj hp)
      · rw [if_neg hjd, if_neg hkd]
        exact hwf.inj j hj k hk
  · exact hfresh.keeps hvalid halloc hwf.dir_taken
  · intro j hj
    rw [hpde j hj]
    split
    · rw [hframe]
      exact fun _ => hfresh.takes hvalid halloc hne
    · exact fun hp => hfresh.keeps hvalid halloc (hwf.table_taken j hj hp)

/-- **A new table** is empty: no page's translation changes. -/
theorem Vm.tables_withTable (hd : d < 1023) (habs : isPresent (s.pde d) = false)
    (hf : MapFlags flags) : (s.withTable d flags a pmm).tables = s.tables := by
  have ha := hwf.tableFrame hfresh hvalid halloc hne
  obtain ⟨-, hpres, -, hframe, -⟩ := pdeRaw_fields ha.aligned ha.lt hf
  funext q
  by_cases hq : q < mappablePages
  · obtain ⟨-, -, hdq, htq⟩ := page_indices hq
    have hpde := s.pde_withTable pmm hwf.self.aligned ha flags (slot_lt hd) (slot_lt hdq)
    by_cases heq : q / 1024 = d
    · -- the slot of the new table: every entry of it is 0
      subst heq
      rw [if_pos rfl] at hpde
      rw [tables_of_present hq (by rw [hpde, hpres]), tables_of_absent habs, pte, hpde, hframe,
        s.entry_withTable pmm hwf.self.aligned ha flags (slot_lt hd) ha.aligned htq, if_pos rfl]
      rfl
    · rw [if_neg heq] at hpde
      cases hp : isPresent (s.pde (q / 1024)) with
      | true =>
          rw [tables_of_present hq (by rw [hpde, hp]), tables_of_present hq hp, pte, hpde,
            s.entry_withTable pmm hwf.self.aligned ha flags (slot_lt hd) (pageFrame_mod _) htq,
            if_neg (hwf.frame_ne hfresh hvalid halloc hne hdq hp),
            if_neg fun hc => hwf.ne_dir _ hdq hp hc.1, pte]
      | false => rw [tables_of_absent (by rw [hpde, hp]), tables_of_absent hp]
  · rw [tables_of_not_mappable _ hq, tables_of_not_mappable _ hq]

end

end NimbleOS
