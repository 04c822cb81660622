import NimbleOS.Proc.Shared

/-!
# NimbleOS.Proc.Owners

Which frame belongs to which process.  `Space.Lives` is what a new address space has
and keeps: its tables, its page map, and that its blocks are in use.  `Owners` is the
invariant of all of them together: no block has two owners, and none belongs to the
kernel or was in use before the first of these processes.
-/

namespace NimbleOS

open Pmm

/-! ## the blocks of an address space -/

namespace Space

/-- What the process owns, its directory included. -/
def belongings (o : Space) (len : Nat) : List Alloc := o.owned len ++ [.directory o.directory]

/-- Block `b` belongs to the process. -/
def Owns (o : Space) (len b : Nat) : Prop := ∃ e ∈ o.belongings len, b ∈ e.blocks

/-- The allocations are the belongings and the window's table. -/
theorem mem_allocs {o : Space} :
    e ∈ o.allocs len ↔ e ∈ o.belongings len ∨ ∃ t ∈ o.window, .table t.1 t.2 = e := by
  simp only [allocs, belongings, List.mem_append, List.mem_map]
  exact (or_assoc.trans (or_congr_right or_comm)).symm

theorem owns_directory (o : Space) (len : Nat) : o.Owns len (o.directory / pageSize) :=
  ⟨_, List.mem_append_right _ (List.mem_singleton_self _), mem_blocks_directory _⟩

theorem table_mem_owned {o : Space} (len : Nat) (ht : t ∈ o.tables) :
    Alloc.table t.1 t.2 ∈ o.owned len := by
  simp only [owned, List.mem_append]
  rcases List.mem_append.mp ht with ht | ht
  · exact .inl (.inl (Alloc.table_mem_map ht))
  · exact .inr (.inl (Alloc.table_mem_map ht))

theorem table_mem_belongings {o : Space} (len : Nat) (ht : t ∈ o.tables) :
    Alloc.table t.1 t.2 ∈ o.belongings len := List.mem_append_left _ (table_mem_owned len ht)

theorem owns_table {o : Space} (len : Nat) (ht : t ∈ o.tables) : o.Owns len (t.2 / pageSize) :=
  ⟨_, table_mem_belongings len ht, mem_blocks_table t.1 t.2⟩

/-- The address space `o` for a code of `len` bytes is in place. -/
structure Lives (s : Vm Pmm) (o : Space) (len : Nat) : Prop where
  wf : DirWF Pmm.Taken (s.inDir o.directory)
  distinct : o.tables.Pairwise fun t u => t.1 ≠ u.1
  user : ∀ t ∈ o.tables, t.1 < kernelPageDirIndex ∧
    (s.inDir o.directory).pde t.1 = pdeRaw t.2 6
  low : ∀ j < kernelPageDirIndex, (∀ t ∈ o.tables, t.1 ≠ j) → (s.inDir o.directory).pde j = 0
  self : (s.inDir o.directory).pde 1023 = pdeRaw o.directory 0
  space : ∀ p < 0xC0000, (s.inDir o.directory).tables p =
    if p < numCodePages len then some (o.code + p * pageSize, 5)
    else if stackPage ≤ p then some (o.stack + (p - stackPage) * pageSize, 7) else none
  room : numCodePages len ≤ stackPage
  used : ∀ b, o.Owns len b → s.pmm.isUsed b = true
  aligned : ∀ e ∈ o.belongings len, e.addr % pageSize = 0 ∧ e.addr < 2 ^ 32
  disjoint : (o.belongings len).Pairwise fun e e' => Disjoint e.blocks e'.blocks

end Space

/-- The slots below the kernel hold user tables of the process. -/
theorem Space.Lives.pde_low {s : Vm Pmm} {o : Space} (h : o.Lives s len)
    (hd : d < kernelPageDirIndex) (hp : isPresent ((s.inDir o.directory).pde d) = true) :
    ∃ t ∈ o.tables, t.1 = d ∧ (s.inDir o.directory).pde d = pdeRaw t.2 6 ∧
      pageFrame ((s.inDir o.directory).pde d) = t.2 := by
  by_cases hnew : ∃ t ∈ o.tables, t.1 = d
  · obtain ⟨t, ht, rfl⟩ := hnew
    obtain ⟨halign, hlt⟩ : t.2 % pageSize = 0 ∧ t.2 < 2 ^ 32 :=
      h.aligned _ (Space.table_mem_belongings len ht)
    have hraw := (h.user t ht).2
    exact ⟨t, ht, rfl, hraw, by
      rw [hraw, (pdeRaw_fields halign hlt (by decide : MapFlags 6)).2.2.2.1]⟩
  · rw [h.low d hd fun t ht heq => hnew ⟨t, ht, heq⟩] at hp
    contradiction

/-- Building an address space brings it to life. -/
theorem Built.lives {s s' : Vm Pmm} {o : Space} (h : Built s code len s' o) (hs : s.pmm.Sane)
    (hend : numCodePages len ≤ stackPage) : o.Lives s' len := by
  have hspec := h.draws.spec hs h.nonzero
  have hmem : ∀ e ∈ o.belongings len, e ∈ o.allocs len := fun e he => Space.mem_allocs.mpr (.inl he)
  have hsub : (o.belongings len).Sublist (o.allocs len) :=
    (List.Sublist.refl _).append (List.sublist_append_right _ _)
  exact
    { wf := h.wf_new
      distinct := h.distinct
      user := h.user
      low := h.low
      self := h.self
      space := h.space
      room := hend
      used := fun b ⟨e, he, hb⟩ => (hspec.used b).mpr (.inr ⟨e, hmem e he, hb⟩)
      aligned := fun e he => by
        have hblock : e.addr / pageSize ∈ e.blocks := by
          simp only [Space.belongings, Space.owned, List.mem_append, List.mem_map,
            List.mem_singleton] at he
          have hnum : 0 < numCodePages len := Nat.succ_pos _
          rcases he with ((⟨t, -, rfl⟩ | rfl) | ⟨t, -, rfl⟩ | rfl) | rfl <;>
            simp only [Alloc.blocks, Alloc.addr, blocksFrom, Finset.mem_Ico,
              procKernelStackPages] <;> omega
        exact hspec.aligned e (hmem e he) _ hblock
      disjoint := hspec.disjoint.sublist hsub }

namespace Space.Lives

variable {s s' : Vm Pmm} {o : Space} (h : o.Lives s len)

include h

/-- What other creations leave alone: the directory's slots below the kernel, the tables
behind them, and the blocks in use. -/
theorem congr (hpde : ∀ j < kernelPageDirIndex, (s'.inDir o.directory).pde j =
      (s.inDir o.directory).pde j)
    (hself : (s'.inDir o.directory).pde 1023 = (s.inDir o.directory).pde 1023)
    (htables : ∀ p < 0xC0000, (s'.inDir o.directory).tables p = (s.inDir o.directory).tables p)
    (hused : ∀ b, s.pmm.isUsed b = true → s'.pmm.isUsed b = true)
    (hwf : DirWF Pmm.Taken (s'.inDir o.directory)) : o.Lives s' len where
  wf := hwf
  distinct := h.distinct
  user := fun t ht => ⟨(h.user t ht).1, by rw [hpde _ (h.user t ht).1]; exact (h.user t ht).2⟩
  low := fun j hj hnone => by rw [hpde j hj]; exact h.low j hj hnone
  self := hself.trans h.self
  space := fun p hp => by rw [htables p hp]; exact h.space p hp
  room := h.room
  used := fun b hb => hused b (h.used b hb)
  aligned := h.aligned
  disjoint := h.disjoint

/-- A frame that is not a table of the process keeps the page map. -/
theorem tables_congr (hpde : ∀ j < kernelPageDirIndex, (s'.inDir o.directory).pde j =
      (s.inDir o.directory).pde j)
    (hpte : ∀ t ∈ o.tables, ∀ j < pageEntries, entry s'.mem t.2 j = entry s.mem t.2 j)
    (hp : p < 0xC0000) : (s'.inDir o.directory).tables p = (s.inDir o.directory).tables p := by
  have hmap : p < mappablePages := by unfold mappablePages; omega
  have hd : p / 1024 < kernelPageDirIndex := by unfold kernelPageDirIndex kernelBaseVirt; omega
  cases hpres : isPresent ((s.inDir o.directory).pde (p / 1024)) with
  | true =>
      obtain ⟨t, ht, -, -, hframe⟩ := h.pde_low hd hpres
      rw [Vm.tables_of_present hmap (by rw [hpde _ hd, hpres]), Vm.tables_of_present hmap hpres,
        Vm.pte, Vm.pte, hpde _ hd, hframe]
      exact congrArg leaf (hpte t ht _ (Nat.mod_lt _ (by decide)))
  | false =>
      rw [Vm.tables_of_absent (by rw [hpde _ hd, hpres]), Vm.tables_of_absent hpres]

end Space.Lives

/-! ## all of them -/

/-- A process with its address space. -/
structure Owner where
  addr : Nat
  space : Space
  len : Nat

def Owner.directory (o : Owner) : Nat := o.space.directory

def Owner.Owns (o : Owner) (b : Nat) : Prop := o.space.Owns o.len b

/-- The processes `os` and the kernel directory `kd`; the blocks in `old` were in use
before the first of the processes was created. -/
structure Owners (old : Nat → Prop) (kd : Nat) (k : Kernel) (os : List Owner) : Prop where
  shared : Shared kd (os.map Owner.directory) k
  lives : ∀ o ∈ os, o.space.Lives k.vm o.len
  apart : os.Pairwise fun o o' => ∀ b, o.Owns b → ¬ o'.Owns b
  old_used : ∀ b, old b → k.vm.pmm.isUsed b = true
  old_directory : old (kd / pageSize)
  fresh : ∀ o ∈ os, ∀ b, o.Owns b → ¬ old b
  /-- The page tables of the kernel directory belong to none of the processes, and those of
  the kernel's half are not for the user. -/
  kernel : ∀ j < 1023, isPresent (entry k.vm.mem kd j) = true →
    (kernelPageDirIndex ≤ j → isUser (entry k.vm.mem kd j) = false) ∧
      ∀ o ∈ os, ¬ o.Owns (pageFrame (entry k.vm.mem kd j) / pageSize)

namespace Owners

variable {old : Nat → Prop} {k k' : Kernel} {os : List Owner} (h : Owners old kd k os)

include h

/-- Two owners of a block are the same. -/
theorem owner_unique (ho : o ∈ os) (ho' : o' ∈ os) (hb : o.Owns b) (hb' : o'.Owns b) : o = o' := by
  by_contra hne
  have hsymm : Std.Symm fun o o' : Owner => ∀ b, o.Owns b → ¬ o'.Owns b :=
    ⟨fun _ _ h b hb' hb => h b hb hb'⟩
  exact h.apart.forall ho ho' hne b hb hb'

omit h in
theorem mem_directory (ho : o ∈ os) : o.directory ∈ kd :: os.map Owner.directory :=
  List.mem_cons_of_mem kd (List.mem_map_of_mem ho)

/-- No table of a process is a directory. -/
theorem table_ne_directory (ho : o ∈ os) (ht : t ∈ o.space.tables)
    (hd : d ∈ kd :: os.map Owner.directory) : t.2 ≠ d := by
  rintro rfl
  have hown : o.Owns (t.2 / pageSize) := Space.owns_table o.len ht
  rcases List.mem_cons.mp hd with hkd | hd
  · rw [hkd] at hown
    exact h.fresh o ho _ hown h.old_directory
  · obtain ⟨o', ho', heq⟩ := List.mem_map.mp hd
    have hown' : o'.Owns (t.2 / pageSize) := heq ▸ o'.space.owns_directory o'.len
    obtain rfl := h.owner_unique ho ho' hown hown'
    -- within the process, tables and directory are disjoint
    have hdisj := (h.lives o ho).disjoint
    rw [Space.belongings, List.pairwise_append] at hdisj
    have hpair := hdisj.2.2 _ (Space.table_mem_owned o.len ht) _ (List.mem_singleton_self _)
    exact Finset.disjoint_left.mp hpair (mem_blocks_table t.1 t.2)
      (heq ▸ mem_blocks_directory o.directory)

/-! ### creation -/

variable {o : Space} (hbuilt : Built { k.vm with log := l } code len k'.vm o)

include hbuilt

/-- A process that is alive stays so. -/
theorem lives_kept (hp : p ∈ os) : p.space.Lives k'.vm p.len := by
  have hlives := h.lives p hp
  have hcr3 : k'.vm.cr3 = k.vm.cr3 := hbuilt.cr3
  have hdir : p.space.directory ∈ kd :: os.map Owner.directory := mem_directory hp
  have hpde : ∀ j < kernelPageDirIndex, (k'.vm.inDir p.space.directory).pde j =
      (k.vm.inDir p.space.directory).pde j := fun j hj =>
    h.shared.entry_kept hbuilt hdir (by
      unfold kernelPageDirIndex kernelBaseVirt pageEntries at *
      omega) (.inl (by
      unfold kernelPageDirIndex kernelBaseVirt windowSlot at *
      omega))
  have hself : (k'.vm.inDir p.space.directory).pde 1023 = (k.vm.inDir p.space.directory).pde 1023 :=
    h.shared.entry_kept hbuilt hdir (by decide) (.inl (by decide))
  refine hlives.congr hpde hself (fun q hq => ?_) (fun b hb => ((h.shared.draws_spec hbuilt).used b).mpr
    (.inl hb)) (h.shared.wf_kept hbuilt hdir)
  by_cases hcur : p.space.directory = k.vm.cr3
  · have htables : k'.vm.tables = k.vm.tables := hbuilt.tables
    have hnew : k'.vm.inDir p.space.directory = k'.vm := by rw [hcur, ← hcr3]; rfl
    have hold : k.vm.inDir p.space.directory = k.vm := by rw [hcur]; rfl
    rw [hnew, hold, htables]
  · refine hlives.tables_congr hpde (fun t ht => ?_) hq
    obtain ⟨hslot, hraw⟩ := hlives.user t ht
    obtain ⟨halign, hlt⟩ : t.2 % pageSize = 0 ∧ t.2 < 2 ^ 32 :=
      hlives.aligned _ (Space.table_mem_belongings p.len ht)
    have htaken : k.vm.pmm.Taken t.2 := hlives.used _ (Space.owns_table p.len ht)
    have hwindow := h.shared.window_present hdir hcur
    refine hbuilt.only t.2 halign htaken (h.table_ne_directory hp ht h.shared.current) fun heq => ?_
    have hkd : entry k.vm.mem k.vm.cr3 windowSlot = entry k.vm.mem kd windowSlot :=
      h.shared.high _ h.shared.current _ (by decide) (by decide)
    rw [hbuilt.pde_current (by decide) (.inr hwindow)] at heq
    rw [Vm.pde, hkd] at hwindow
    have heq' : t.2 = pageFrame (entry k.vm.mem kd windowSlot) := heq.trans (congrArg pageFrame hkd)
    refine (h.kernel windowSlot (by decide) hwindow).2 p hp ?_
    rw [← heq']
    exact Space.owns_table p.len ht

/-- The new process owns free blocks. -/
theorem new_free (hb : o.Owns len b) : k.vm.pmm.isUsed b = false := by
  obtain ⟨e, he, hb⟩ := hb
  exact ((h.shared.draws_spec hbuilt).free e (Space.mem_allocs.mpr (.inl he)) b hb).2

/-- The window's new table belongs to no process. -/
theorem window_not_owned (ht : t ∈ o.window) : ¬ o.Owns len (t.2 / pageSize) := by
  rintro ⟨e, he, hb⟩
  have hdisj := (h.shared.draws_spec hbuilt).disjoint
  have hwindow := Alloc.table_mem_map ht
  rw [Space.allocs, List.pairwise_append, List.pairwise_append] at hdisj
  rcases List.mem_append.mp he with he | he
  · have hpair := hdisj.2.2 e he _ (List.mem_append_left _ hwindow)
    exact Finset.disjoint_left.mp hpair hb (mem_blocks_table t.1 t.2)
  · have hpair := hdisj.2.1.2.2 _ hwindow e he
    exact Finset.disjoint_left.mp hpair (mem_blocks_table t.1 t.2) hb

/-- The kernel's slots after the creation: as before, or that of the window's new table. -/
theorem kernel_slot (hj : j < 1023) :
    entry k'.vm.mem kd j = entry k.vm.mem kd j ∨
      os = [] ∧ ∃ t ∈ o.window, entry k'.vm.mem kd j = pdeRaw t.2 pageRw ∧
        pageFrame (entry k'.vm.mem kd j) = t.2 := by
  have hkd : kd ∈ kd :: os.map Owner.directory := List.mem_cons_self
  by_cases hnot : j ≠ windowSlot ∨ isPresent (k.vm.pde windowSlot) = true
  · exact .inl (h.shared.entry_kept hbuilt hkd (slot_lt hj) hnot)
  · obtain ⟨rfl, habs⟩ : j = windowSlot ∧ ¬ isPresent (k.vm.pde windowSlot) = true := by
      rw [not_or, not_not] at hnot
      exact hnot
    rw [Vm.pde, h.shared.high _ h.shared.current _ (by decide) (by decide)] at habs
    have hempty : os = [] := List.map_eq_nil_iff.mp (h.shared.window.resolve_right habs)
    have hcr3 : k'.vm.cr3 = kd := by
      have hcur := h.shared.current
      rw [hempty] at hcur
      exact hbuilt.cr3.trans (List.mem_singleton.mp hcur)
    have habs' : isPresent (({ k.vm with log := l } : Vm Pmm).pde windowSlot) = false := by
      rw [Bool.eq_false_iff, Vm.pde, h.shared.high _ h.shared.current _ (by decide) (by decide)]
      exact habs
    obtain ⟨t, ht, heq⟩ := hbuilt.window.mem_of_present (by decide) habs' hbuilt.present
    obtain ⟨-, -, hframe⟩ := hbuilt.window.placed t ht
    obtain ⟨page, flags, ⟨-, rfl⟩, -, hraw⟩ := hbuilt.window.needed t ht
    rw [heq, Vm.pde, hcr3] at hframe hraw
    exact .inr ⟨hempty, t, ht, hraw, hframe⟩

/-- **Creation**: the new process has its own blocks, and the others keep theirs. -/
theorem create (hend : numCodePages len ≤ stackPage) (addr : Nat) :
    Owners old kd k' (⟨addr, o, len⟩ :: os) := by
  have hspec := h.shared.draws_spec hbuilt
  have hnew : ∀ b, (Owner.mk addr o len).Owns b → k.vm.pmm.isUsed b = false := fun b hb =>
    h.new_free hbuilt hb
  refine
    { shared := h.shared.create hbuilt
      lives := List.forall_mem_cons.mpr ⟨hbuilt.lives h.shared.sane hend,
        fun p hp => h.lives_kept hbuilt hp⟩
      apart := List.pairwise_cons.mpr ⟨fun p hp b hb hb' => by
        have hused := (h.lives p hp).used b hb'
        rw [hnew b hb] at hused
        contradiction, h.apart⟩
      old_used := fun b hb => (hspec.used b).mpr (.inl (h.old_used b hb))
      old_directory := h.old_directory
      fresh := List.forall_mem_cons.mpr ⟨fun b hb hold => by
        have hused := h.old_used b hold
        rw [hnew b hb] at hused
        contradiction, h.fresh⟩
      kernel := fun j hj hp => ?_ }
  rcases h.kernel_slot hbuilt hj with hsame | ⟨rfl, t, ht, hraw, hframe⟩
  · rw [hsame] at hp ⊢
    obtain ⟨huser, hnone⟩ := h.kernel j hj hp
    refine ⟨huser, List.forall_mem_cons.mpr ⟨fun hown => ?_, hnone⟩⟩
    have htaken := (h.shared.wf kd List.mem_cons_self).table_taken j hj hp
    have hfree := hnew _ hown
    rw [Vm.pde_inDir] at htaken
    rw [show k.vm.pmm.isUsed _ = true from htaken] at hfree
    contradiction
  · rw [hframe]
    refine ⟨fun _ => ?_, List.forall_mem_singleton.mpr (h.window_not_owned hbuilt ht)⟩
    obtain ⟨halign, hlt⟩ : t.2 % pageSize = 0 ∧ t.2 < 2 ^ 32 :=
      hspec.aligned (.table t.1 t.2) (Space.mem_allocs.mpr (.inr ⟨t, ht, rfl⟩)) _
        (mem_blocks_table t.1 t.2)
    rw [hraw, (pdeRaw_fields halign hlt (by decide : MapFlags pageRw)).2.2.2.2]
    rfl

end Owners

end NimbleOS
