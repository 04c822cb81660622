import NimbleOS.Paging.Frames
import NimbleOS.Paging.Progress

/-!
# NimbleOS.Paging.Rights

The access that the processor grants to a mapped page.  The directory and the page
entry both have to allow it, and `paging_get_page` writes the entry of the directory
once, when it creates the page table: with the write bit, and with the flags of the
call that needed the table.  So a page is writable as its own call asked, and
accessible in user mode if the first call into its slot asked for that as well.
-/

namespace NimbleOS

variable {P : Type}

/-! ## the processor's check -/

def isWritable (w : Nat) : Bool := w / 2 % 2 = 1

/-- What the page walk grants at `virt`: write access, and access in user mode.  Both
levels have to allow it. -/
def accessRights (m : ByteMem) (cr3 virt : Nat) : Option (Bool × Bool) :=
  let pde := entry m (pageFrame cr3) (dirIndex virt)
  (translate m cr3 virt).map fun (_, flags) =>
    (isWritable pde && isWritable flags, isUser pde && isUser flags)

/-! ## mappings in their order -/

/-- The pages that the call maps, and their flags. -/
def PagingOp.mappings : PagingOp → List (Nat × Nat)
  | mapPage virt _ flags => [(virt / pageSize, flags)]
  | mapPages virt _ num flags => (List.range' (virt / pageSize) num).map fun page => (page, flags)
  | _ => []

def PagingOp.IsMap : PagingOp → Prop
  | mapPage .. | mapPages .. => True
  | _ => False

/-- The flags of the first mapping in slot `d`. -/
def firstFlags (ms : List (Nat × Nat)) (d : Nat) : Option Nat :=
  (ms.find? fun m => m.1 / 1024 = d).map Prod.snd

/-- The access through a page table. -/
theorem accessRights_of_table {m : ByteMem} (pde : Nat) (hpde : entry m (pageFrame cr3) (dirIndex virt) = pde)
    (hp : isPresent pde = true) (hl : isLarge pde = false)
    (hpte : entry m (pageFrame pde) (tableIndex virt) = pte) (hp' : isPresent pte = true) :
    accessRights m cr3 virt = some (isWritable pde && isWritable (pte % pageSize),
      isUser pde && isUser (pte % pageSize)) := by
  rw [accessRights, translate_of_table hpde hp hl, hpte, if_pos hp', hpde, Option.map_some]

/-- Every page has the access that its mapping asked for. -/
def RightsAsAsked (s : Vm P) (ms : List (Nat × Nat)) : Prop :=
  ∀ virt flags, (virt / pageSize, flags) ∈ ms →
    accessRights s.mem s.cr3 virt = some (isWritable flags, isUser flags)

/-- A later mapping is the first in its slot only if there was none. -/
theorem firstFlags_append (ms : List (Nat × Nat)) (page flags d : Nat) :
    firstFlags (ms ++ [(page, flags)]) d =
      (firstFlags ms d).or (if page / 1024 = d then some flags else none) := by
  unfold firstFlags
  rw [List.find?_append]
  cases ms.find? fun m => m.1 / 1024 = d with
  | some m => rfl
  | none =>
      by_cases h : page / 1024 = d
      · simp [h]
      · simp [h]

/-! ## what the entries record -/

/-- The word in a slot whose first mapping had the flags `o`. -/
def SlotWord (w : Nat) : Option Nat → Prop
  | none => isPresent w = false
  | some flags => MapFlags flags ∧ ∃ a, a % pageSize = 0 ∧ a < 2 ^ 32 ∧ w = pdeRaw a flags

theorem SlotWord.of_present (h : SlotWord w o) (hp : isPresent w = true) :
    ∃ flags, o = some flags := by
  cases o with
  | some flags => exact ⟨flags, rfl⟩
  | none =>
      rw [SlotWord, hp] at h
      contradiction

theorem SlotWord.of_absent (h : SlotWord w o) (habs : isPresent w = false) : o = none := by
  cases o with
  | none => rfl
  | some flags =>
      obtain ⟨hf, a, ha, hlt, rfl⟩ := h
      rw [(pdeRaw_fields ha hlt hf).2.1] at habs
      contradiction

/-- A page that is mapped as the next one gives its flags to a slot that was empty. -/
theorem SlotWord.mapPage [FrameAllocator P] {s s' : Vm P} (h : SlotWord (s.pde d) (firstFlags ms d))
    (hd : d < 1023) (hnew : NewTables (fun p f => p = page ∧ f = flags) s s' ts)
    (hf : MapFlags flags) (hpage : s'.tables page ≠ none) :
    SlotWord (s'.pde d) (firstFlags (ms ++ [(page, flags)]) d) := by
  rw [firstFlags_append]
  cases hp : isPresent (s.pde d) with
  | true =>
      -- the slot keeps its word
      obtain ⟨first, hfirst⟩ := h.of_present hp
      rw [hnew.kept hd hp, hfirst]
      rwa [hfirst] at h
  | false =>
      rw [h.of_absent hp, Option.none_or]
      by_cases hslot : page / 1024 = d
      · -- the slot has got its table by this call
        have hp' : isPresent (s'.pde d) = true := by
          rw [← Bool.not_eq_false, ← hslot]
          exact fun hc => hpage (Vm.tables_of_absent hc)
        obtain ⟨t, ht, rfl⟩ := hnew.mem_of_present (slot_lt hd) hp hp'
        obtain ⟨-, -, hframe⟩ := hnew.placed t ht
        obtain ⟨_, _, ⟨-, rfl⟩, -, hword⟩ := hnew.needed t ht
        rw [if_pos hslot, hword]
        refine ⟨hf, t.2, ?_, ?_, rfl⟩
        · rw [← hframe]
          exact pageFrame_mod _
        · rw [← hframe]
          exact Nat.lt_of_le_of_lt (Nat.div_mul_le_self _ _) (entry_lt _ _ _)
      · rw [if_neg hslot, SlotWord, hnew.same d (slot_lt hd) fun t ht heq => ?_]
        · exact hp
        · obtain ⟨_, _, ⟨rfl, -⟩, hd', -⟩ := hnew.needed t ht
          exact hslot (hd'.trans heq)

theorem isWritable_of_add (ha : a % pageSize = 0) (f : Nat) : isWritable (a + f) = isWritable f := by
  unfold isWritable pageSize at *
  simp only [decide_eq_decide]
  omega

/-- A directory entry always allows to write. -/
theorem isWritable_pdeRaw (ha : a % pageSize = 0) (hf : MapFlags flags) :
    isWritable (pdeRaw a flags) = true := by
  rw [pdeRaw_eq ha hf, isWritable_of_add ha]
  rcases hf with rfl | rfl | rfl | rfl <;> rfl

theorem isWritable_present (hf : MapFlags flags) :
    isWritable (flags + pagePresent) = isWritable flags ∧
      isUser (flags + pagePresent) = isUser flags := by
  rcases hf with rfl | rfl | rfl | rfl <;> decide

/-- After the mappings `ms` into an empty directory. -/
structure Granted (valid : P → Prop) (taken : P → Nat → Prop) (s : Vm P)
    (ms : List (Nat × Nat)) : Prop where
  inv : valid s.pmm
  wf : DirWF taken s
  /-- The slots have the flags of their first mappings. -/
  slots : ∀ d < 1023, SlotWord (s.pde d) (firstFlags ms d)
  /-- The pages have the flags of their own. -/
  pages : ∀ page flags, (page, flags) ∈ ms →
    MapFlags flags ∧ ∃ phys, s.tables page = some (phys, flags + pagePresent)
  others : ∀ page, (∀ flags, (page, flags) ∉ ms) → s.tables page = none

section

variable {valid : P → Prop} {taken : P → Nat → Prop} {s : Vm P} {ms : List (Nat × Nat)}

/-- The access to a mapped page. -/
theorem Granted.rights (h : Granted valid taken s ms) (hmem : (virt / pageSize, flags) ∈ ms) :
    ∃ first, firstFlags ms (dirIndex virt) = some first ∧
      accessRights s.mem s.cr3 virt = some (isWritable flags, isUser first && isUser flags) := by
  obtain ⟨hf, phys, hpage⟩ := h.pages _ _ hmem
  have hmap : virt / pageSize < mappablePages ∧
      isPresent (s.pde (virt / pageSize / 1024)) = true := by
    by_contra hnot
    rw [Vm.tables, if_neg hnot] at hpage
    contradiction
  have hvirt : virt < 0xFFC00000 := by
    have := hmap.1
    unfold mappablePages pageSize at this
    omega
  have hdir : virt / pageSize / 1024 = dirIndex virt := by
    unfold dirIndex pageSize
    omega
  have hd : dirIndex virt < 1023 := hdir ▸ (page_indices hmap.1).2.2.1
  have hslot := h.slots _ hd
  obtain ⟨first, hfirst⟩ := hslot.of_present (hdir ▸ hmap.2)
  rw [hfirst] at hslot
  obtain ⟨hf₀, a, ha, hlt, hword⟩ := hslot
  obtain ⟨-, -, hlarge, -, huser⟩ := pdeRaw_fields ha hlt hf₀
  have hword' : entry s.mem (pageFrame s.cr3) (dirIndex virt) = pdeRaw a first := by
    rw [pageFrame_of_aligned h.wf.self.aligned]
    exact hword
  have hsmall : s.SmallSlot (dirIndex virt) := fun _ => by rw [hword, hlarge]
  refine ⟨first, hfirst, ?_⟩
  obtain ⟨hwrite, huser'⟩ := isWritable_present hf
  rw [accessRights, Vm.translate_eq_tables h.wf.self hvirt hsmall, hpage, hword',
    Option.map_some, isWritable_pdeRaw ha hf₀, huser]
  simp only [hwrite, huser', Bool.true_and]

variable [FrameAllocator P]

/-- **Step lemma**: one page. -/
theorem Granted.mapPage (hfresh : FreshFrames valid taken) (h : Granted valid taken s ms)
    (halign : virt % pageSize = 0) (hlt : virt < 0xFFC00000) (hphys : phys % pageSize = 0)
    (hphys' : phys < 2 ^ 32) (hf : MapFlags flags)
    (hok : pagingMapPage s virt phys flags = .ok s') (hsucc : s.Succeeds s') :
    Granted valid taken s' (ms ++ [(virt / pageSize, flags)]) := by
  obtain ⟨hpage, -, -⟩ := page_of_aligned halign hlt
  have hsim : Simulates valid taken (fun p f => p = virt / pageSize ∧ f = flags) s _ _ :=
    pagingMapPage_simulates h.wf halign hlt hfresh h.inv hphys hphys' hf ⟨rfl, rfl⟩
  rw [hok] at hsim
  obtain ⟨ts, htables, hwf, hinv, -, hnew, -⟩ := hsim.of_ok hsucc
  rw [PageMap.mapRange_one _ _ _ hphys'] at htables
  have hfree : s.tables (virt / pageSize) = none := by
    by_contra hne
    rw [if_neg hne] at htables
    contradiction
  rw [if_pos hfree] at htables
  have hupdate := Option.some.inj htables
  constructor
  · exact hinv
  · exact hwf
  · intro d hd
    refine (h.slots d hd).mapPage hd hnew hf ?_
    rw [← hupdate, Function.update_self]
    exact Option.some_ne_none _
  · intro page fl hmem
    rw [← hupdate]
    rcases List.mem_append.mp hmem with hold | hlast
    · obtain ⟨hf₀, phys₀, hpage₀⟩ := h.pages page fl hold
      have hne : page ≠ virt / pageSize := by
        rintro rfl
        rw [hfree] at hpage₀
        contradiction
      exact ⟨hf₀, phys₀, by rw [Function.update_of_ne hne, hpage₀]⟩
    · cases List.mem_singleton.mp hlast
      exact ⟨hf, phys, Function.update_self ..⟩
  · intro page hnot
    have hne : page ≠ virt / pageSize := by
      rintro rfl
      exact hnot flags (List.mem_append_right _ (List.mem_singleton_self _))
    rw [← hupdate, Function.update_of_ne hne]
    exact h.others page fun fl hmem => hnot fl (List.mem_append_left _ hmem)

/-- The loop of `paging_map_pages`. -/
theorem Granted.mapPages (hfresh : FreshFrames valid taken) (h : Granted valid taken s ms)
    (halign : virt % pageSize = 0) (hend : virt + num * pageSize ≤ 0xFFC00000)
    (hphys : phys % pageSize = 0) (hphys' : phys < 2 ^ 32) (hf : MapFlags flags)
    (hok : pagingMapPages s virt phys num flags = .ok s') (hsucc : s.Succeeds s') :
    Granted valid taken s'
      (ms ++ (List.range' (virt / pageSize) num).map fun page => (page, flags)) := by
  induction num generalizing s virt phys ms with
  | zero =>
      cases hok
      rwa [List.range'_zero, List.map_nil, List.append_nil]
  | succ num ih =>
      obtain ⟨hu, halign', hend', hpage⟩ := next_page halign hend
      obtain ⟨hframe, hframe'⟩ := next_frame hphys
      have hlt : virt < 0xFFC00000 := by unfold pageSize at hend; omega
      obtain ⟨s₁, hfirst, hrest⟩ := bind_eq_ok.mp hok
      obtain ⟨hsucc₁, hsucc₂⟩ := hsucc.split (pagingMapPage_extends hfirst)
        (pagingMapPages_extends hrest)
      rw [hu] at hrest
      have hnext := ih (h.mapPage hfresh halign hlt hphys hphys' hf hfirst hsucc₁) halign' hend'
        hframe hframe' hrest hsucc₂
      rw [hpage, List.append_assoc, List.singleton_append] at hnext
      rw [List.range'_succ, List.map_cons]
      exact hnext

theorem Granted.call (hfresh : FreshFrames valid taken) (h : Granted valid taken s ms)
    (op : PagingOp) (hmap : op.IsMap) (hlegal : op.Legal) (hok : op.call s = .ok s')
    (hsucc : s.Succeeds s') : Granted valid taken s' (ms ++ op.mappings) := by
  cases op with
  | mapPage virt phys flags =>
      obtain ⟨halign, hlt, hphys, hphys', hf⟩ := hlegal
      exact h.mapPage hfresh halign hlt hphys hphys' hf hok hsucc
  | mapPages virt phys num flags =>
      obtain ⟨halign, hend, hphys, hphys', hf⟩ := hlegal
      exact h.mapPages hfresh halign hend hphys hphys' hf hok hsucc
  | unmapPage virt => exact hmap.elim
  | unmapPages virt num => exact hmap.elim

/-- **Run lemma**: every sequence of calls. -/
theorem Granted.calls (hfresh : FreshFrames valid taken) (h : Granted valid taken s ms)
    (ops : List PagingOp) (hmap : ∀ op ∈ ops, op.IsMap) (hlegal : ∀ op ∈ ops, op.Legal)
    (hok : ops.foldlM PagingOp.call s = .ok s') (hsucc : s.Succeeds s') :
    Granted valid taken s' (ms ++ ops.flatMap PagingOp.mappings) := by
  induction ops generalizing s ms with
  | nil =>
      cases hok
      rwa [List.flatMap_nil, List.append_nil]
  | cons op ops ih =>
      obtain ⟨hop, hops⟩ := List.forall_mem_cons.mp hmap
      obtain ⟨hop', hops'⟩ := List.forall_mem_cons.mp hlegal
      rw [List.foldlM_cons] at hok
      obtain ⟨s₁, hfirst, hrest⟩ := bind_eq_ok.mp hok
      obtain ⟨hsucc₁, hsucc₂⟩ := hsucc.split (PagingOp.call_extends op hfirst)
        (PagingOp.calls_extend ops hrest)
      rw [List.flatMap_cons, ← List.append_assoc]
      exact ih (h.call hfresh op hop hop' hfirst hsucc₁) hops hops' hrest hsucc₂

end

/-! ## an empty directory -/

/-- Nothing but the reference of the directory to itself. -/
structure OnlySelf (taken : P → Nat → Prop) (s : Vm P) : Prop where
  self : SelfMapped s.mem s.cr3
  absent : ∀ d < 1023, isPresent (s.pde d) = false
  dir_taken : taken s.pmm s.cr3

theorem OnlySelf.granted {valid : P → Prop} {taken : P → Nat → Prop} {s : Vm P}
    (h : OnlySelf taken s) (hvalid : valid s.pmm) : Granted valid taken s [] where
  inv := hvalid
  wf := by
    have habs : ∀ d < 1023, ¬ isPresent (s.pde d) = true := fun d hd =>
      Bool.eq_false_iff.mp (h.absent d hd)
    exact ⟨h.self, fun d hd hp => absurd hp (habs d hd), fun d hd _ _ hp => absurd hp (habs d hd),
      h.dir_taken, fun d hd hp => absurd hp (habs d hd)⟩
  slots := fun d hd => h.absent d hd
  pages := fun _ _ hmem => nomatch hmem
  others := fun page _ => by
    by_cases hpage : page < mappablePages
    · exact Vm.tables_of_absent (h.absent _ (page_indices hpage).2.2.1)
    · exact s.tables_of_not_mappable hpage

open Pmm

/-- **The access to a mapped page**: writable as its own mapping asked; accessible in
user mode if it asked for that and the first mapping in its slot did. -/
theorem map_rights {s s' : Vm Pmm} (hs : s.pmm.Sane) (hself : OnlySelf Pmm.Taken s)
    (ops : List PagingOp) (hmap : ∀ op ∈ ops, op.IsMap) (hlegal : ∀ op ∈ ops, op.Legal)
    (hok : ops.foldlM PagingOp.call s = .ok s') (hsucc : s.Succeeds s')
    (hmem : (virt / pageSize, flags) ∈ ops.flatMap PagingOp.mappings) :
    ∃ first, firstFlags (ops.flatMap PagingOp.mappings) (dirIndex virt) = some first ∧
      accessRights s'.mem s'.cr3 virt = some (isWritable flags, isUser first && isUser flags) :=
  ((hself.granted hs).calls pmm_freshFrames ops hmap hlegal hok hsucc).rights hmem

/-! ### rights that no call asked for -/

theorem PagingOp.calls_cons {s : Vm Pmm} {op : PagingOp} (hop : op.call s = .ok s₁)
    (hrest : ops.foldlM PagingOp.call s₁ = .ok s') :
    (op :: ops).foldlM PagingOp.call s = .ok s' := by
  rw [List.foldlM_cons]
  exact bind_eq_ok.mpr ⟨s₁, hop, hrest⟩

/-- After the calls some page does not have the access that its mapping asked for. -/
def Misgrants (s : Vm Pmm) (ops : List PagingOp) : Prop :=
  ∃ s', ops.foldlM PagingOp.call s = .ok s' ∧ s.Succeeds s' ∧
    ¬ RightsAsAsked s' (ops.flatMap PagingOp.mappings)

theorem emptyDir_onlySelf : OnlySelf Pmm.Taken emptyDir :=
  ⟨emptyDir_wf.self, fun _ hd => emptyDir_absent hd, emptyDir_wf.dir_taken⟩

theorem emptyDir_alloc : ∃ p, FrameAllocator.allocPage emptyDir.pmm = .ok (0x2000, p) := by
  have hguard : ¬ u32Sub twoUsed.maxBlocks twoUsed.usedBlocks ≤ 0 := by decide
  have hfind : mmapFindFree twoUsed = 2 := by decide
  change ∃ p, pmmAllocPage twoUsed = .ok (0x2000, p)
  simp only [pmmAllocPage, hguard, hfind]
  exact ⟨_, rfl⟩

/-- A page for the kernel, then one for user mode in the same slot. -/
def kernelThenUser : List PagingOp := [.mapPage 0x400000 0x20000 2, .mapPage 0x401000 0x21000 6]

theorem kernelThenUser_legal : ∀ op ∈ kernelThenUser, op.IsMap ∧ op.Legal := by
  intro op hop
  simp only [kernelThenUser, List.mem_cons, List.not_mem_nil, or_false] at hop
  rcases hop with rfl | rfl <;> exact ⟨trivial, by unfold PagingOp.Legal; decide⟩

theorem kernelThenUser_returns :
    ∃ s', kernelThenUser.foldlM PagingOp.call emptyDir = .ok s' ∧ emptyDir.Succeeds s' := by
  obtain ⟨p, halloc⟩ := emptyDir_alloc
  have hrw : MapFlags 2 := by decide
  have huser : MapFlags 6 := by decide
  have hpage : (0x400000 / pageSize) / 1024 = 1 := by decide
  have h₀ := emptyDir_onlySelf.granted twoUsed_whole.toSane
  obtain ⟨s₁, hcall₁, hsucc₁, -, hpres, -⟩ := pagingMapPage_returns pmm_freshFrames h₀.wf h₀.inv
    (by decide : 0x400000 % pageSize = 0) (by decide) (by decide : 0x20000 % pageSize = 0)
    (by decide) hrw (h₀.others _ fun _ hmem => nomatch hmem) (.single halloc)
    (List.forall_mem_singleton.mpr (by decide))
    (by rw [Vm.card_missing_one, hpage, emptyDir_absent (by decide)]; rfl)
  have h₁ := h₀.mapPage pmm_freshFrames (by decide) (by decide) (by decide) (by decide) hrw hcall₁
    hsucc₁
  obtain ⟨s₂, hcall₂, hsucc₂, -⟩ := pagingMapPage_returns pmm_freshFrames h₁.wf h₁.inv
    (by decide : 0x401000 % pageSize = 0) (by decide) (by decide : 0x21000 % pageSize = 0)
    (by decide) huser (h₁.others _ fun fl => by simp [pageSize]) (.nil _)
    (fun _ hmem => nomatch hmem)
    (by
      rw [Vm.card_missing_one, show 0x401000 / pageSize / 1024 = 1 from rfl, hpres 1 (by decide),
        hpage, decide_eq_true rfl, Bool.or_true]
      rfl)
  exact ⟨s₂, PagingOp.calls_cons hcall₁ (PagingOp.calls_cons hcall₂ rfl), hsucc₁.trans hsucc₂⟩

theorem kernelThenUser_mem :
    (0x401000 / pageSize, 6) ∈ kernelThenUser.flatMap PagingOp.mappings :=
  List.mem_cons_of_mem _ (List.mem_singleton_self _)

theorem map_rights_kernelThenUser : ∃ s' first, kernelThenUser.foldlM PagingOp.call emptyDir = .ok s' ∧
    firstFlags (kernelThenUser.flatMap PagingOp.mappings) (dirIndex 0x401000) = some first ∧
    accessRights s'.mem s'.cr3 0x401000 = some (isWritable 6, isUser first && isUser 6) := by
  obtain ⟨s', hok, hsucc⟩ := kernelThenUser_returns
  obtain ⟨first, hfirst, hrights⟩ := map_rights twoUsed_whole.toSane emptyDir_onlySelf kernelThenUser
    (fun op hop => (kernelThenUser_legal op hop).1) (fun op hop => (kernelThenUser_legal op hop).2)
    hok hsucc kernelThenUser_mem
  exact ⟨s', first, hok, hfirst, hrights⟩

theorem misgrants_order : Misgrants emptyDir kernelThenUser := by
  obtain ⟨s', hok, hsucc⟩ := kernelThenUser_returns
  refine ⟨s', hok, hsucc, fun hasked => ?_⟩
  have h := (emptyDir_onlySelf.granted twoUsed_whole.toSane).calls pmm_freshFrames kernelThenUser
    (fun op hop => (kernelThenUser_legal op hop).1) (fun op hop => (kernelThenUser_legal op hop).2)
    hok hsucc
  obtain ⟨first, hfirst, hrights⟩ := h.rights kernelThenUser_mem
  have hfirst' : first = 2 := Option.some.inj (hfirst.symm.trans rfl)
  rw [hasked 0x401000 6 kernelThenUser_mem, hfirst'] at hrights
  exact absurd hrights (by decide)

/-- A frame address that is not that of a page. -/
theorem misgrants_unaligned : Misgrants emptyDir [.mapPage 0x400000 0x20002 0] := by
  obtain ⟨p, halloc⟩ := emptyDir_alloc
  have hself := emptyDir_wf.self
  have ha : TableFrame emptyDir 0x2000 := ⟨by decide, by decide, by decide⟩
  have hd : (1 : Nat) < pageEntries := by decide
  have ht : (0 : Nat) < pageEntries := by decide
  have hdir : dirIndex 0x400000 = 1 := by decide
  have htab : tableIndex 0x400000 = 0 := by decide
  have hcall := pagingMapPage_create hself (by decide : 0x400000 % pageSize = 0) (by decide)
    (by rw [hdir]; exact emptyDir_absent (by decide)) 0 halloc ha 0x20002
  rw [hdir, htab] at hcall
  have hpde := emptyDir.pde_withTable p hself.aligned ha 0 hd hd
  have hlog : (emptyDir.withTable 1 0 0x2000 p).log = [.table 1 0x2000] ++ emptyDir.log := rfl
  have hcr3 : (emptyDir.withTable 1 0 0x2000 p).cr3 = 0x1000 := rfl
  generalize emptyDir.withTable 1 0 0x2000 p = s at hcall hpde hlog hcr3
  rw [if_pos rfl, Vm.pde, hcr3] at hpde
  refine ⟨_, PagingOp.calls_cons hcall rfl, ⟨_, hlog, ?_⟩, fun hasked => ?_⟩
  · exact List.forall_mem_singleton.mpr (by decide : (0x2000 : Nat) ≠ 0)
  · have hframe : (0x2000 : Nat) % pageSize = 0 := by decide
    have hraw : pteRaw 0x20002 0 < 2 ^ 32 := by decide
    have hpde' := s.entry_withEntry hframe (g := 0x1000) (by decide) ht hd hraw
    have hpte := s.entry_withEntry hframe hframe ht ht hraw
    rw [if_neg (by decide), hpde] at hpde'
    rw [if_pos ⟨rfl, rfl⟩] at hpte
    have hrights := hasked 0x400000 0 (List.mem_singleton_self _)
    have haccess : accessRights (s.withEntry 0x2000 0 (pteRaw 0x20002 0)).mem 0x1000 0x400000 = _ :=
      accessRights_of_table (pdeRaw 0x2000 0) hpde' (by decide) (by decide) hpte (by decide)
    rw [show (s.withEntry 0x2000 0 (pteRaw 0x20002 0)).cr3 = 0x1000 from hcr3, haccess] at hrights
    exact absurd hrights (by decide)

/-- A page table written through the window on the tables. -/
theorem misgrants_window :
    Misgrants emptyDir [.mapPage 0xFFC00000 0x5000 0, .mapPage 0 0x8000 2] := by
  have hself := emptyDir_wf.self
  have hd : (0 : Nat) < pageEntries := by decide
  have hd' : (1023 : Nat) < pageEntries := by decide
  have hdir : (0x1000 : Nat) % pageSize = 0 := by decide
  have htab : (0x5000 : Nat) % pageSize = 0 := by decide
  have hraw : pteRaw 0x5000 0 < 2 ^ 32 := by decide
  have hraw' : pteRaw 0x8000 2 < 2 ^ 32 := by decide
  have hentry : entry emptyDir.mem 0x5000 0 = 0 := by
    have h := entry_setWord (fun _ => 0) (v := 0x1003) hdir htab hd' hd (by decide)
    rw [if_neg (by decide)] at h
    exact h
  -- the first page is in slot 1023: its entry is slot 0 of the directory
  have hpde : emptyDir.pde (dirIndex 0xFFC00000) = 0x1003 := emptyDir_pde hd'
  have hpte : emptyDir.pte (dirIndex 0xFFC00000) (tableIndex 0xFFC00000) = 0 := by
    rw [Vm.pte, hpde]
    exact emptyDir_pde hd
  have hcall₁ := pagingMapPage_of_table hself (by decide : 0xFFC00000 % pageSize = 0) (by decide)
    (by rw [hpde]; decide) 0x5000 0
  rw [hpte, if_neg (by decide), hpde] at hcall₁
  have hslot := emptyDir.entry_withEntry hdir hdir hd hd hraw
  have hself' := emptyDir.entry_withEntry hdir hdir hd hd' hraw
  have hnext := emptyDir.entry_withEntry hdir htab hd hd hraw
  have hlog : (emptyDir.withEntry 0x1000 0 (pteRaw 0x5000 0)).log = emptyDir.log := rfl
  have hcr3 : (emptyDir.withEntry 0x1000 0 (pteRaw 0x5000 0)).cr3 = 0x1000 := rfl
  rw [show pageFrame 0x1003 = 0x1000 from rfl, show tableIndex 0xFFC00000 = 0 from rfl] at hcall₁
  generalize emptyDir.withEntry 0x1000 0 (pteRaw 0x5000 0) = s at *
  rw [if_pos ⟨rfl, rfl⟩] at hslot
  rw [if_neg (by decide)] at hself' hnext
  rw [hentry] at hnext
  have hmapped : SelfMapped s.mem s.cr3 := hcr3 ▸ hself.congr hself'
  have hpde₀ : s.pde (dirIndex 0) = pteRaw 0x5000 0 := by
    rw [Vm.pde, hcr3]
    exact hslot
  have hpte₀ : s.pte (dirIndex 0) (tableIndex 0) = 0 := by
    rw [Vm.pte, hpde₀]
    exact hnext
  have hcall₂ := pagingMapPage_of_table hmapped (by decide : 0 % pageSize = 0) (by decide)
    (by rw [hpde₀]; decide) 0x8000 2
  rw [hpte₀, if_neg (by decide), hpde₀, show pageFrame (pteRaw 0x5000 0) = 0x5000 from rfl,
    show tableIndex 0 = 0 from rfl] at hcall₂
  have hslot' := s.entry_withEntry htab hdir hd hd hraw'
  have hnext' := s.entry_withEntry htab htab hd hd hraw'
  rw [if_neg (by decide), hslot] at hslot'
  rw [if_pos ⟨rfl, rfl⟩] at hnext'
  refine ⟨_, PagingOp.calls_cons hcall₁ (PagingOp.calls_cons hcall₂ rfl), ⟨[], hlog, ?_⟩,
    fun hasked => ?_⟩
  · exact fun _ hmem => absurd hmem List.not_mem_nil
  · have hrights := hasked 0 2 (List.mem_cons_of_mem _ (List.mem_singleton_self _))
    have haccess : accessRights (s.withEntry 0x5000 0 (pteRaw 0x8000 2)).mem 0x1000 0 = _ :=
      accessRights_of_table (pteRaw 0x5000 0) hslot' (by decide) (by decide) hnext' (by decide)
    rw [show (s.withEntry 0x5000 0 (pteRaw 0x8000 2)).cr3 = 0x1000 from hcr3, haccess] at hrights
    exact absurd hrights (by decide)

/-- **Not every page has the rights that its call asked for**: not in every order of the
calls; not from a frame address that is not that of a page; not through the window. -/
theorem rights_not_as_asked : OnlySelf Pmm.Taken emptyDir ∧ Misgrants emptyDir kernelThenUser ∧
    Misgrants emptyDir [.mapPage 0x400000 0x20002 0] ∧
    Misgrants emptyDir [.mapPage 0xFFC00000 0x5000 0, .mapPage 0 0x8000 2] :=
  ⟨emptyDir_onlySelf, misgrants_order, misgrants_unaligned, misgrants_window⟩

end NimbleOS
