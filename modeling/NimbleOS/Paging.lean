import NimbleOS.Vm

/-!
# NimbleOS.Paging

The virtual memory manager (`kernel/src/mem/paging.c`).  The code never holds a
physical pointer to a table: slot 1023 of every directory refers to the directory
itself, so the walk of an address from `0xFFC00000` on ends in a page table, and
from `0xFFFFF000` on in the directory.

The second half says what the calls do, as equations on the state, for a
directory that does refer to itself (`SelfMapped`).
-/

namespace NimbleOS

variable {P : Type}

/-! ## the code -/

/-- The address of `dir[i]`. -/
def dirEntry (i : Nat) : Nat := 0xFFFFF000 + 4 * i

/-- The address of `table[i]` for the table of slot `d`. -/
def tableEntry (d i : Nat) : Nat := 0xFFC00000 + 4 * pageEntries * d + 4 * i

/-- `pmm_alloc_page` for the table of slot `d`. -/
def Vm.allocTable [FrameAllocator P] (s : Vm P) (d : Nat) : Except Halt (Nat × Vm P) := do
  let (a, pmm) ← FrameAllocator.allocPage s.pmm
  return (a, { s with pmm := pmm, log := .table d a :: s.log })

/-- The branch of `paging_get_page` that creates the page table. -/
def pagingCreateTable [FrameAllocator P] (s : Vm P) (d flags : Nat) : Except Halt (Vm P) := do
  let (newTable, s) ← s.allocTable d
  let s ← s.storeWord (dirEntry d) (newTable ||| pagePresent ||| pageRw ||| (flags &&& pageFlags))
  memset s (tableEntry d 0) 0 pageSize

/-- `paging_get_page`; `none` is `NULL`. -/
def pagingGetPage [FrameAllocator P] (s : Vm P) (virt : Nat) (create : Bool) (flags : Nat) :
    Except Halt (Option Nat × Vm P) :=
  if virt % pageSize ≠ 0 then .error .unaligned
  else do
    let d := dirIndex virt
    let pde ← s.loadWord (dirEntry d)
    let s ← (if !isPresent pde && create then pagingCreateTable s d flags else .ok s)
    let pde ← s.loadWord (dirEntry d)
    return (if isPresent pde then some (tableEntry d (tableIndex virt)) else none, s)

def pagingMapPage [FrameAllocator P] (s : Vm P) (virt phys flags : Nat) : Except Halt (Vm P) := do
  let (page, s) ← pagingGetPage s virt true flags
  let page := page.getD 0
  let pte ← s.loadWord page
  if isPresent pte then .error .alreadyMapped
  else s.storeWord page (phys ||| pagePresent ||| (flags &&& pageFlags))

/-- The loop of `paging_map_pages`, with `num` pages left. -/
def pagingMapPages [FrameAllocator P] (s : Vm P) (virt phys : Nat) :
    (num flags : Nat) → Except Halt (Vm P)
  | 0, _ => .ok s
  | num + 1, flags => do
      let s ← pagingMapPage s virt phys flags
      pagingMapPages s (u32 (virt + pageSize)) (u32 (phys + pageSize)) num flags

/-- `page->present = 0` clears bit 0 of the entry. -/
def pagingUnmapPage [FrameAllocator P] (s : Vm P) (virt : Nat) : Except Halt (Vm P) := do
  let (page, s) ← pagingGetPage s virt false 0
  match page with
  | some page =>
      let pte ← s.loadWord page
      s.storeWord page (pte - pte % 2)
  | none => return s

/-- The loop of `paging_unmap_pages`, with `num` pages left. -/
def pagingUnmapPages [FrameAllocator P] (s : Vm P) (virt : Nat) : Nat → Except Halt (Vm P)
  | 0 => .ok s
  | num + 1 => do
      let s ← pagingUnmapPage s virt
      pagingUnmapPages s (u32 (virt + pageSize)) num

/-- The frame of the entry, whatever its present bit, and the offset of `virt`. -/
def pagingVirtToPhys [FrameAllocator P] (s : Vm P) (virt : Nat) : Except Halt (Nat × Vm P) := do
  let (page, s) ← pagingGetPage s (pageFrame virt) false 0
  match page with
  | some page =>
      let pte ← s.loadWord page
      return (pageFrame pte + virt % pageSize, s)
  | none => return (0, s)

/-- The kernel's image and heap are in the directory at `dirPhys` where they are in the
current one. -/
def Vm.KeepsKernel (s : Vm P) (dirPhys : Nat) : Prop :=
  ∀ page < kernelHeapEndVirt / pageSize, kernelBaseVirt / pageSize ≤ page →
    walk s.mem dirPhys (page * pageSize) = walk s.mem s.cr3 (page * pageSize)

instance (s : Vm P) (dirPhys : Nat) : Decidable (s.KeepsKernel dirPhys) :=
  inferInstanceAs (Decidable (∀ page < _, _ → _))

/-- The code behind the `mov` to CR3 is fetched through the directory that it has loaded. -/
def pagingSwitchDirectory (s : Vm P) (dirPhys : Nat) : Except Halt (Vm P) :=
  if s.KeepsKernel dirPhys then .ok { s with cr3 := dirPhys } else .error .kernelUnmapped

/-! ## switching directories -/

/-- The same machine in another directory. -/
def Vm.inDir (s : Vm P) (dir : Nat) : Vm P := { s with cr3 := dir }

@[simp] theorem Vm.inDir_mem (s : Vm P) (dir : Nat) : (s.inDir dir).mem = s.mem := rfl

@[simp] theorem Vm.inDir_cr3 (s : Vm P) (dir : Nat) : (s.inDir dir).cr3 = dir := rfl

@[simp] theorem Vm.inDir_pmm (s : Vm P) (dir : Nat) : (s.inDir dir).pmm = s.pmm := rfl

@[simp] theorem Vm.inDir_log (s : Vm P) (dir : Nat) : (s.inDir dir).log = s.log := rfl

theorem pagingSwitchDirectory_eq_ok {s s' : Vm P} :
    pagingSwitchDirectory s dir = .ok s' ↔ s.KeepsKernel dir ∧ s' = s.inDir dir := by
  unfold pagingSwitchDirectory
  split
  · next hkeeps => exact ⟨fun h => ⟨hkeeps, (Except.ok.inj h).symm⟩, fun h => congrArg _ h.2.symm⟩
  · next hloses => exact ⟨fun h => (nomatch h), fun h => absurd h.1 hloses⟩

/-- Where the directory does not have the kernel, the load of CR3 is the last instruction. -/
theorem pagingSwitchDirectory_loses {s : Vm P} (h : ¬ s.KeepsKernel dir) :
    pagingSwitchDirectory s dir = .error .kernelUnmapped := by
  unfold pagingSwitchDirectory
  split
  · next hkeeps => exact absurd hkeeps h
  · rfl

/-- Directories with the same slot for an address translate it alike. -/
theorem translate_agree {m : ByteMem} (hd : d % pageSize = 0) (hd' : d' % pageSize = 0)
    (h : entry m d (dirIndex virt) = entry m d' (dirIndex virt)) :
    translate m d virt = translate m d' virt := by
  simp only [translate, pageFrame_of_aligned hd, pageFrame_of_aligned hd', h]

namespace Vm.KeepsKernel

variable {s : Vm P}

/-- A directory with the same slots keeps the kernel. -/
theorem of_slots (hdir : dir % pageSize = 0) (hcr3 : s.cr3 % pageSize = 0)
    (h : ∀ j, dirIndex kernelBaseVirt ≤ j → j < dirIndex kernelHeapEndVirt →
      entry s.mem dir j = entry s.mem s.cr3 j) : s.KeepsKernel dir := by
  intro page hpage hkernel
  rw [walk, walk, translate_agree hdir hcr3 (h _ ?_ ?_)]
  · unfold dirIndex kernelBaseVirt pageSize at *
    omega
  · unfold dirIndex kernelHeapEndVirt pageSize at *
    omega

/-- A directory that keeps the kernel is left for another one. -/
theorem inDir (h : s.KeepsKernel dir) (h' : s.KeepsKernel dir') : (s.inDir dir).KeepsKernel dir' :=
  fun page hpage hkernel => (h' page hpage hkernel).trans (h page hpage hkernel).symm

/-- Only memory and the directory matter. -/
theorem congr {s' : Vm P} (h : s.KeepsKernel dir) (hmem : s'.mem = s.mem) (hcr3 : s'.cr3 = s.cr3) :
    s'.KeepsKernel dir := by
  unfold KeepsKernel
  rw [hmem, hcr3]
  exact h

end Vm.KeepsKernel

/-! ## addresses of the recursive mapping -/

theorem dirIndex_lt (h : virt < 2 ^ 32) : dirIndex virt < pageEntries := by
  unfold dirIndex pageEntries
  omega

theorem tableIndex_lt (virt : Nat) : tableIndex virt < pageEntries := by
  unfold tableIndex pageEntries
  omega

/-- Slot `i` of the directory, and the word there. -/
def Vm.pde (s : Vm P) (i : Nat) : Nat := entry s.mem s.cr3 i

/-- Entry `t` of the table of slot `d`. -/
def Vm.pte (s : Vm P) (d t : Nat) : Nat := entry s.mem (pageFrame (s.pde d)) t

/-- Slot 1023 of the current directory refers to the directory. -/
structure SelfMapped (m : ByteMem) (cr3 : Nat) : Prop where
  aligned : cr3 % pageSize = 0
  present : isPresent (entry m cr3 1023) = true
  small : isLarge (entry m cr3 1023) = false
  self : pageFrame (entry m cr3 1023) = cr3

theorem dirIndex_recursive (hd : d < pageEntries) (ho : o < pageSize) :
    dirIndex (0xFFC00000 + pageSize * d + o) = 1023 ∧
      tableIndex (0xFFC00000 + pageSize * d + o) = d ∧
      (0xFFC00000 + pageSize * d + o) % pageSize = o := by
  unfold dirIndex tableIndex pageEntries pageSize at *
  omega

/-- **The recursive mapping**: the walk of an address in the window of slot `d`
ends in the frame that the slot refers to. -/
theorem walk_recursive (hself : SelfMapped m cr3) (hd : d < pageEntries) (ho : o < pageSize)
    (hp : isPresent (entry m cr3 d) = true) :
    walk m cr3 (0xFFC00000 + pageSize * d + o) = some (pageFrame (entry m cr3 d) + o) := by
  obtain ⟨hdir, htab, hoff⟩ := dirIndex_recursive hd ho
  have hframe := pageFrame_of_aligned hself.aligned
  have hpde : entry m (pageFrame cr3) (dirIndex (0xFFC00000 + pageSize * d + o)) =
      entry m cr3 1023 := by rw [hframe, hdir]
  have ht := translate_of_table hpde hself.present hself.small
  rw [hself.self, htab, if_pos hp] at ht
  rw [walk, ht, Option.map_some, hoff]

theorem tableEntry_eq (d i : Nat) : tableEntry d i = 0xFFC00000 + pageSize * d + 4 * i := rfl

theorem dirEntry_eq (i : Nat) : dirEntry i = 0xFFC00000 + pageSize * 1023 + 4 * i := rfl

theorem walk_dirEntry (hself : SelfMapped m cr3) (hi : i < pageEntries) :
    walk m cr3 (dirEntry i) = some (cr3 + 4 * i) := by
  rw [dirEntry_eq, walk_recursive hself (by decide) (by unfold pageEntries pageSize at *; omega)
    hself.present, hself.self]

theorem walk_tableEntry (hself : SelfMapped m cr3) (hd : d < pageEntries) (hi : i < pageEntries)
    (hp : isPresent (entry m cr3 d) = true) :
    walk m cr3 (tableEntry d i) = some (pageFrame (entry m cr3 d) + 4 * i) := by
  rw [tableEntry_eq, walk_recursive hself hd (by unfold pageEntries pageSize at *; omega) hp]

/-! ## loads and stores through it -/

namespace Vm

theorem loadAddr_of_walk {s : Vm P} (h : walk s.mem s.cr3 virt = some a) :
    s.loadAddr virt = .ok a := by
  rw [loadAddr, h]

/-- The window is not part of the kernel's image and heap. -/
theorem storeAddr_of_walk {s : Vm P} (h : walk s.mem s.cr3 virt = some a)
    (hk : virt < kernelBaseVirt ∨ kernelHeapEndVirt ≤ virt) : s.storeAddr virt = .ok a := by
  rw [storeAddr, if_neg (by omega), loadAddr_of_walk h]

theorem loadWord_dirEntry {s : Vm P} (hself : SelfMapped s.mem s.cr3) (hi : i < pageEntries) :
    s.loadWord (dirEntry i) = .ok (s.pde i) := by
  rw [loadWord, loadAddr_of_walk (walk_dirEntry hself hi)]
  rfl

theorem loadWord_tableEntry {s : Vm P} (hself : SelfMapped s.mem s.cr3) (hd : d < pageEntries)
    (ht : t < pageEntries) (hp : isPresent (s.pde d) = true) :
    s.loadWord (tableEntry d t) = .ok (s.pte d t) := by
  have hw := walk_tableEntry (m := s.mem) hself hd ht hp
  rw [loadWord, loadAddr_of_walk hw]
  rfl

theorem storeWord_dirEntry {s : Vm P} (hself : SelfMapped s.mem s.cr3) (hi : i < pageEntries)
    (v : Nat) :
    s.storeWord (dirEntry i) v = .ok { s with mem := s.mem.setWord (s.cr3 + 4 * i) v } := by
  have hk : kernelHeapEndVirt ≤ dirEntry i := by unfold dirEntry kernelHeapEndVirt; omega
  rw [storeWord, storeAddr_of_walk (walk_dirEntry hself hi) (.inr hk)]
  rfl

theorem storeWord_tableEntry {s : Vm P} (hself : SelfMapped s.mem s.cr3) (hd : d < pageEntries)
    (ht : t < pageEntries) (hp : isPresent (s.pde d) = true) (v : Nat) :
    s.storeWord (tableEntry d t) v =
      .ok { s with mem := s.mem.setWord (pageFrame (s.pde d) + 4 * t) v } := by
  have hk : kernelHeapEndVirt ≤ tableEntry d t := by
    unfold tableEntry kernelHeapEndVirt; omega
  have hw : walk s.mem s.cr3 (tableEntry d t) = _ := walk_tableEntry hself hd ht hp
  rw [storeWord, storeAddr_of_walk hw (.inr hk)]
  rfl

end Vm

/-- A byte loop whose addresses lead to the bytes from `a` on, whatever the
bytes there are, stores a range. -/
theorem storeBytes_eq_fill (s : Vm P) (hsmall : dst + n ≤ 2 ^ 32)
    (hk : dst + n ≤ kernelBaseVirt ∨ kernelHeapEndVirt ≤ dst)
    (hwalk : ∀ (f : Nat → BitVec 8) (k i : Nat), k ≤ i → i < n →
      walk (s.mem.fill a k f) s.cr3 (dst + i) = some (a + i)) (f : Nat → BitVec 8) :
    storeBytes s dst f n = .ok { s with mem := s.mem.fill a n f } := by
  induction n with
  | zero => rw [ByteMem.fill_zero]; rfl
  | succ n ih =>
      rw [storeBytes, ih (by omega) (by omega) fun g k i hki hi => hwalk g k i hki (by omega)]
      have hw := hwalk f n n (Nat.le_refl n) (Nat.lt_succ_self n)
      have haddr := Vm.storeAddr_of_walk (s := { s with mem := s.mem.fill a n f }) hw (by omega)
      simp only [bind, Except.bind, Vm.storeByte]
      rw [u32_of_lt (by omega), haddr, ByteMem.fill_succ]
      rfl

/-! ## what the calls leave alone -/

/-- Stores change the memory only. -/
structure Vm.SameButMem (s s' : Vm P) : Prop where
  cr3 : s'.cr3 = s.cr3
  pmm : s'.pmm = s.pmm
  log : s'.log = s.log

theorem Vm.SameButMem.trans {s s' s'' : Vm P} (h : s.SameButMem s') (h' : s'.SameButMem s'') :
    s.SameButMem s'' :=
  ⟨h'.cr3.trans h.cr3, h'.pmm.trans h.pmm, h'.log.trans h.log⟩

theorem Vm.storeWord_same {s s' : Vm P} (h : s.storeWord virt v = .ok s') : s.SameButMem s' := by
  obtain ⟨a, -, ha⟩ := bind_eq_ok.mp h
  cases ha
  exact ⟨rfl, rfl, rfl⟩

theorem Vm.storeByte_same {s s' : Vm P} (h : s.storeByte virt v = .ok s') : s.SameButMem s' := by
  obtain ⟨a, -, ha⟩ := bind_eq_ok.mp h
  cases ha
  exact ⟨rfl, rfl, rfl⟩

theorem storeBytes_same {s s' : Vm P} (h : storeBytes s dst src n = .ok s') : s.SameButMem s' := by
  induction n generalizing s' with
  | zero =>
      cases h
      exact ⟨rfl, rfl, rfl⟩
  | succ n ih =>
      obtain ⟨t, ht, hs⟩ := bind_eq_ok.mp h
      exact (ih ht).trans (Vm.storeByte_same hs)

theorem memcpy_same {s s' : Vm P} (h : memcpy s dst src n = .ok s') : s.SameButMem s' := by
  induction n generalizing s' with
  | zero =>
      cases h
      exact ⟨rfl, rfl, rfl⟩
  | succ n ih =>
      obtain ⟨t, ht, hs⟩ := bind_eq_ok.mp h
      obtain ⟨v, -, hv⟩ := bind_eq_ok.mp hs
      exact (ih ht).trans (Vm.storeByte_same hv)

section

variable [FrameAllocator P] {s s' : Vm P}

/-- Creating a table logs one answer of the allocator. -/
theorem pagingCreateTable_log (h : pagingCreateTable s d flags = .ok s') :
    ∃ a, FrameAllocator.allocPage s.pmm = .ok (a, s'.pmm) ∧ s'.log = .table d a :: s.log ∧
      s'.cr3 = s.cr3 := by
  obtain ⟨⟨a, s₁⟩, halloc, hrest⟩ := bind_eq_ok.mp h
  obtain ⟨⟨a', pmm⟩, hpage, hs₁⟩ := bind_eq_ok.mp halloc
  cases hs₁
  obtain ⟨s₂, hstore, hset⟩ := bind_eq_ok.mp hrest
  have hsame := (Vm.storeWord_same hstore).trans (storeBytes_same hset)
  exact ⟨a, by rw [hsame.pmm]; exact hpage, hsame.log, hsame.cr3⟩

/-- `paging_get_page` changes nothing but to create a missing table. -/
theorem pagingGetPage_log (h : pagingGetPage s virt create flags = .ok (page, s')) :
    s' = s ∨ pagingCreateTable s (dirIndex virt) flags = .ok s' := by
  unfold pagingGetPage at h
  split at h
  · contradiction
  obtain ⟨pde, -, h⟩ := bind_eq_ok.mp h
  obtain ⟨s₁, hs₁, h⟩ := bind_eq_ok.mp h
  obtain ⟨pde', -, h⟩ := bind_eq_ok.mp h
  cases h
  split at hs₁
  · exact .inr hs₁
  · cases hs₁
    exact .inl rfl

/-- The log only grows. -/
def Vm.Extends (s s' : Vm P) : Prop := s.log <:+ s'.log

theorem pagingGetPage_extends (h : pagingGetPage s virt create flags = .ok (page, s')) :
    s.Extends s' := by
  rcases pagingGetPage_log h with rfl | hcreate
  · exact List.suffix_refl _
  · obtain ⟨a, -, hlog, -⟩ := pagingCreateTable_log hcreate
    rw [Vm.Extends, hlog]
    exact List.suffix_cons _ _

theorem pagingMapPage_extends (h : pagingMapPage s virt phys flags = .ok s') : s.Extends s' := by
  obtain ⟨⟨page, s₁⟩, hget, h⟩ := bind_eq_ok.mp h
  obtain ⟨pte, -, h⟩ := bind_eq_ok.mp h
  have hext := pagingGetPage_extends hget
  split at h
  · contradiction
  · rwa [Vm.Extends, ← (Vm.storeWord_same h).log] at hext

theorem pagingMapPages_extends (h : pagingMapPages s virt phys num flags = .ok s') :
    s.Extends s' := by
  induction num generalizing s virt phys with
  | zero =>
      cases h
      exact List.suffix_refl _
  | succ num ih =>
      obtain ⟨s₁, hmap, h⟩ := bind_eq_ok.mp h
      exact (pagingMapPage_extends hmap).trans (ih h)

theorem pagingUnmapPage_extends (h : pagingUnmapPage s virt = .ok s') : s.Extends s' := by
  obtain ⟨⟨page, s₁⟩, hget, h⟩ := bind_eq_ok.mp h
  have hext := pagingGetPage_extends hget
  cases page with
  | none =>
      cases h
      exact hext
  | some page =>
      obtain ⟨pte, -, h⟩ := bind_eq_ok.mp h
      rwa [Vm.Extends, ← (Vm.storeWord_same h).log] at hext

theorem pagingUnmapPages_extends (h : pagingUnmapPages s virt num = .ok s') : s.Extends s' := by
  induction num generalizing s virt with
  | zero =>
      cases h
      exact List.suffix_refl _
  | succ num ih =>
      obtain ⟨s₁, hunmap, h⟩ := bind_eq_ok.mp h
      exact (pagingUnmapPage_extends hunmap).trans (ih h)

end

/-- The allocations between `s` and `s'` have all succeeded. -/
def Vm.Succeeds (s s' : Vm P) : Prop :=
  ∃ new, s'.log = new ++ s.log ∧ ∀ e ∈ new, e.addr ≠ 0

theorem Vm.Succeeds.head {s s' : Vm P} (h : s.Succeeds s') (hlog : s'.log = e :: s.log) :
    e.addr ≠ 0 := by
  obtain ⟨new, hnew, hnz⟩ := h
  rw [hlog, ← List.singleton_append] at hnew
  rw [← List.append_cancel_right hnew] at hnz
  exact hnz e List.mem_cons_self

theorem Vm.Succeeds.trans {s s' s'' : Vm P} (h : s.Succeeds s') (h' : s'.Succeeds s'') :
    s.Succeeds s'' := by
  obtain ⟨new, hlog, hnz⟩ := h
  obtain ⟨new', hlog', hnz'⟩ := h'
  refine ⟨new' ++ new, by rw [hlog', hlog, List.append_assoc], fun e he => ?_⟩
  exact (List.mem_append.mp he).elim (hnz' e) (hnz e)

theorem Vm.SameButMem.extends {s s' : Vm P} (h : s.SameButMem s') : s.Extends s' :=
  ⟨[], h.log.symm⟩

/-- Of a successful computation every part is successful. -/
theorem Vm.Succeeds.split {s s' s'' : Vm P} (h : s.Succeeds s'') (h₁ : s.Extends s')
    (h₂ : s'.Extends s'') : s.Succeeds s' ∧ s'.Succeeds s'' := by
  obtain ⟨new, hlog, hnz⟩ := h
  obtain ⟨new₁, hlog₁⟩ := h₁
  obtain ⟨new₂, hlog₂⟩ := h₂
  have hnew : new = new₂ ++ new₁ := by
    rw [← hlog₂, ← hlog₁, ← List.append_assoc] at hlog
    exact (List.append_cancel_right hlog).symm
  subst hnew
  exact ⟨⟨new₁, hlog₁.symm, fun e he => hnz e (List.mem_append_right _ he)⟩,
    ⟨new₂, hlog₂.symm, fun e he => hnz e (List.mem_append_left _ he)⟩⟩

/-- The same loop from other bytes of memory, which it does not overlap. -/
theorem memcpy_eq_fill (s : Vm P) (hdst : dst + n ≤ 2 ^ 32) (hsrc : src + n ≤ 2 ^ 32)
    (hk : dst + n ≤ kernelBaseVirt ∨ kernelHeapEndVirt ≤ dst) (hdisj : b + n ≤ a ∨ a + n ≤ b)
    (hwalk : ∀ (f : Nat → BitVec 8) (k i : Nat), k ≤ i → i < n →
      walk (s.mem.fill a k f) s.cr3 (dst + i) = some (a + i) ∧
        walk (s.mem.fill a k f) s.cr3 (src + i) = some (b + i)) :
    memcpy s dst src n = .ok { s with mem := s.mem.fill a n fun j => s.mem (b + j) } := by
  induction n with
  | zero => rw [ByteMem.fill_zero]; rfl
  | succ n ih =>
      rw [memcpy, ih (by omega) (by omega) (by omega) (by omega)
        fun g k i hki hi => hwalk g k i hki (by omega)]
      let t : Vm P := { s with mem := s.mem.fill a n fun j => s.mem (b + j) }
      obtain ⟨hwdst, hwsrc⟩ :=
        hwalk (fun j => s.mem (b + j)) n n (Nat.le_refl n) (Nat.lt_succ_self n)
      have hstore := Vm.storeAddr_of_walk (s := t) hwdst (by omega)
      have hload := Vm.loadAddr_of_walk (s := t) hwsrc
      have hbyte : t.mem (b + n) = s.mem (b + n) :=
        s.mem.fill_of_disjoint (fun j => s.mem (b + j)) (by omega)
      change ((t.loadByte (u32 (src + n))) >>= fun v => t.storeByte (u32 (dst + n)) v) = _
      simp only [Vm.loadByte, Vm.storeByte, bind, Except.bind, u32_of_lt (show src + n < 2 ^ 32 by omega),
        u32_of_lt (show dst + n < 2 ^ 32 by omega), hload, hstore, pure, Except.pure, hbyte]
      rw [ByteMem.fill_succ]

/-! ## raw entries -/

/-- `flags` is built from `PAGE_RW` and `PAGE_USER`. -/
def MapFlags (flags : Nat) : Prop := flags = 0 ∨ flags = 2 ∨ flags = 4 ∨ flags = 6

instance : Decidable (MapFlags flags) := by unfold MapFlags; infer_instance

/-- The word stored in the directory for a new table. -/
def pdeRaw (frame flags : Nat) : Nat :=
  frame ||| pagePresent ||| pageRw ||| (flags &&& pageFlags)

/-- The word stored in a table for a new page. -/
def pteRaw (frame flags : Nat) : Nat := frame ||| pagePresent ||| (flags &&& pageFlags)

theorem or_of_aligned (ha : a % pageSize = 0) (hf : f < pageSize) : a ||| f = a + f := by
  obtain ⟨n, rfl⟩ := Nat.dvd_of_mod_eq_zero ha
  have h := Nat.two_pow_add_eq_or_of_lt (i := 12) (b := f) (by unfold pageSize at hf; omega) n
  rw [pageSize, show (4096 : Nat) = 2 ^ 12 from rfl, h]

theorem pdeRaw_eq (ha : a % pageSize = 0) (hf : MapFlags flags) :
    pdeRaw a flags = a + (3 ||| flags) := by
  rw [pdeRaw, Nat.or_assoc, Nat.or_assoc, or_of_aligned ha]
  · rcases hf with rfl | rfl | rfl | rfl <;> rfl
  · rcases hf with rfl | rfl | rfl | rfl <;> decide

theorem pteRaw_eq (ha : a % pageSize = 0) (hf : MapFlags flags) :
    pteRaw a flags = a + (1 ||| flags) := by
  rw [pteRaw, Nat.or_assoc, or_of_aligned ha]
  · rcases hf with rfl | rfl | rfl | rfl <;> rfl
  · rcases hf with rfl | rfl | rfl | rfl <;> decide

/-- With any flags, the word for a new table is a present entry of its frame. -/
theorem pdeRaw_word (ha : a % pageSize = 0) (hlt : a < 2 ^ 32) (flags : Nat) :
    pdeRaw a flags < 2 ^ 32 ∧ isPresent (pdeRaw a flags) = true ∧
      pageFrame (pdeRaw a flags) = a := by
  have hlow : 3 ||| (flags &&& pageFlags) < pageSize :=
    Nat.or_lt_two_pow (n := 12) (by decide) (Nat.and_lt_two_pow _ (by decide))
  have hodd : (3 ||| (flags &&& pageFlags)) % 2 = 1 := Nat.or_mod_two_eq_one.mpr (.inl rfl)
  have heq : pdeRaw a flags = a + (3 ||| (flags &&& pageFlags)) := by
    rw [pdeRaw, Nat.or_assoc, Nat.or_assoc, ← or_of_aligned ha hlow, ← Nat.or_assoc pagePresent]
    rfl
  rw [heq, pageFrame_add ha hlow, isPresent_iff]
  refine ⟨?_, ?_, rfl⟩
  · unfold pageSize at *
    omega
  · unfold pageSize at *
    omega

/-- The low bits of an entry do not depend on its frame. -/
theorem bits_add (ha : a % pageSize = 0) (f : Nat) :
    isPresent (a + f) = isPresent f ∧ isLarge (a + f) = isLarge f ∧ isUser (a + f) = isUser f := by
  unfold isPresent isLarge isUser pageSize at *
  simp only [decide_eq_decide]
  omega

/-- The fields of a directory entry as `paging_get_page` writes it. -/
theorem pdeRaw_fields (ha : a % pageSize = 0) (hlt : a < 2 ^ 32) (hf : MapFlags flags) :
    pdeRaw a flags < 2 ^ 32 ∧ isPresent (pdeRaw a flags) = true ∧
      isLarge (pdeRaw a flags) = false ∧ pageFrame (pdeRaw a flags) = a ∧
      isUser (pdeRaw a flags) = isUser flags := by
  have hlow : 3 ||| flags < pageSize := by rcases hf with rfl | rfl | rfl | rfl <;> decide
  obtain ⟨hp, hl, hu⟩ := bits_add ha (3 ||| flags)
  rw [pdeRaw_eq ha hf, hp, hl, hu, pageFrame_add ha hlow]
  refine ⟨by unfold pageSize at *; omega, ?_⟩
  rcases hf with rfl | rfl | rfl | rfl <;> simp only [true_and] <;> decide

/-- The fields of a page entry as `paging_map_page` writes it. -/
theorem pteRaw_fields (ha : a % pageSize = 0) (hlt : a < 2 ^ 32) (hf : MapFlags flags) :
    pteRaw a flags < 2 ^ 32 ∧ isPresent (pteRaw a flags) = true ∧
      pageFrame (pteRaw a flags) = a ∧ pteRaw a flags % pageSize = flags + 1 ∧
      isUser (pteRaw a flags) = isUser flags := by
  have hlow : 1 ||| flags < pageSize := by rcases hf with rfl | rfl | rfl | rfl <;> decide
  obtain ⟨hp, -, hu⟩ := bits_add ha (1 ||| flags)
  have hmod : (a + (1 ||| flags)) % pageSize = (1 ||| flags) := by unfold pageSize at *; omega
  rw [pteRaw_eq ha hf, hp, hu, pageFrame_add ha hlow, hmod]
  refine ⟨by unfold pageSize at *; omega, ?_⟩
  rcases hf with rfl | rfl | rfl | rfl <;> simp only [true_and] <;> decide

/-! ## what the calls do -/

/-- The state after entry `i` of the table or directory in frame `f` has been
written. -/
def Vm.withEntry (s : Vm P) (f i v : Nat) : Vm P := { s with mem := s.mem.setWord (f + 4 * i) v }

/-- The state after a table for slot `d` has been created in frame `a`. -/
def Vm.withTable (s : Vm P) (d flags a : Nat) (pmm : P) : Vm P :=
  { s with
    mem := (s.mem.setWord (s.cr3 + 4 * d) (pdeRaw a flags)).fill a pageSize fun _ => 0
    pmm := pmm
    log := .table d a :: s.log }

/-- What the proofs need of a frame that the allocator hands out for a table: it
is a frame, and not the current directory. -/
structure TableFrame (s : Vm P) (a : Nat) : Prop where
  aligned : a % pageSize = 0
  lt : a < 2 ^ 32
  ne_dir : a ≠ s.cr3

theorem Vm.entry_withEntry (s : Vm P) (hf : f % pageSize = 0) (hg : g % pageSize = 0)
    (hi : i < pageEntries) (hj : j < pageEntries) (hv : v < 2 ^ 32) :
    entry (s.withEntry f i v).mem g j = if g = f ∧ j = i then v else entry s.mem g j :=
  entry_setWord s.mem hf hg hi hj hv

theorem Vm.entry_withTable (s : Vm P) (pmm : P) (hcr3 : s.cr3 % pageSize = 0)
    (ha : TableFrame s a) (flags : Nat) (hd : d < pageEntries) (hg : g % pageSize = 0)
    (hj : j < pageEntries) :
    entry (s.withTable d flags a pmm).mem g j =
      if g = a then 0 else if g = s.cr3 ∧ j = d then pdeRaw a flags else entry s.mem g j := by
  have hraw := (pdeRaw_word ha.aligned ha.lt flags).1
  rw [withTable, entry_clear _ hg ha.aligned hj, entry_setWord _ hcr3 hg hd hj hraw]

/-- The slot of the new table refers to it. -/
theorem Vm.pde_withTable (s : Vm P) (pmm : P) (hcr3 : s.cr3 % pageSize = 0)
    (ha : TableFrame s a) (flags : Nat) (hd : d < pageEntries) (hj : j < pageEntries) :
    (s.withTable d flags a pmm).pde j = if j = d then pdeRaw a flags else s.pde j := by
  have h := s.entry_withTable pmm hcr3 ha flags hd hcr3 hj
  rw [if_neg (Ne.symm ha.ne_dir)] at h
  simp only [true_and] at h
  exact h

theorem SelfMapped.congr (hself : SelfMapped m cr3) (h : entry m' cr3 1023 = entry m cr3 1023) :
    SelfMapped m' cr3 :=
  ⟨hself.aligned, by rw [h]; exact hself.present, by rw [h]; exact hself.small,
    by rw [h]; exact hself.self⟩

/-- An absent slot is not the one that refers to the directory. -/
theorem SelfMapped.ne_of_absent {s : Vm P} (hself : SelfMapped s.mem s.cr3)
    (habs : isPresent (s.pde d) = false) : d ≠ 1023 := by
  rintro rfl
  rw [Vm.pde, hself.present] at habs
  contradiction

/-- A new table in another slot leaves the self reference alone. -/
theorem SelfMapped.withTable {s : Vm P} (hself : SelfMapped s.mem s.cr3) (pmm : P)
    (hd : d < pageEntries) (habs : isPresent (s.pde d) = false) (flags : Nat)
    (ha : TableFrame s a) : SelfMapped (s.withTable d flags a pmm).mem s.cr3 := by
  have h := s.pde_withTable pmm hself.aligned ha flags hd (j := 1023) (by decide)
  rw [if_neg (Ne.symm (hself.ne_of_absent habs))] at h
  exact hself.congr h

section

variable [FrameAllocator P]

/-- `paging_get_page` with a missing table: the table is created, empty. -/
theorem pagingCreateTable_eq {s : Vm P} {a : Nat} {pmm : P} (hself : SelfMapped s.mem s.cr3)
    (hd : d < pageEntries) (habs : isPresent (s.pde d) = false) (flags : Nat)
    (halloc : FrameAllocator.allocPage s.pmm = .ok (a, pmm)) (ha : TableFrame s a) :
    pagingCreateTable s d flags = .ok (s.withTable d flags a pmm) := by
  have hd' := hself.ne_of_absent habs
  obtain ⟨hraw, hpres, hframe⟩ := pdeRaw_word ha.aligned ha.lt flags
  have hslot : (1023 : Nat) < pageEntries := by decide
  let s₁ : Vm P := { s with pmm := pmm, log := .table d a :: s.log }
  let s₂ : Vm P := s₁.withEntry s.cr3 d (pdeRaw a flags)
  have hentry : ∀ j, j < pageEntries →
      entry s₂.mem s.cr3 j = if j = d then pdeRaw a flags else entry s.mem s.cr3 j := by
    intro j hj
    have h := s₁.entry_withEntry hself.aligned hself.aligned hd hj hraw
    simpa using h
  have hstore : s₁.storeWord (dirEntry d) (pdeRaw a flags) = .ok s₂ :=
    Vm.storeWord_dirEntry (s := s₁) hself hd _
  -- while the new frame is cleared, the directory does not change
  have hwalk : ∀ (f : Nat → BitVec 8) (k i : Nat), k ≤ i → i < pageSize →
      walk (s₂.mem.fill a k f) s₂.cr3 (tableEntry d 0 + i) = some (a + i) := by
    intro f k i hki hi
    have hfill : ∀ j, j < pageEntries →
        entry (s₂.mem.fill a k f) s.cr3 j = entry s₂.mem s.cr3 j := by
      intro j hj
      have h1 := hself.aligned
      have h2 := ha.aligned
      have h3 := ha.ne_dir
      exact entry_fill_of_disjoint _ _ hj (by unfold pageSize at *; omega)
    have hself₂ : SelfMapped (s₂.mem.fill a k f) s₂.cr3 :=
      hself.congr (by rw [hfill _ hslot, hentry _ hslot, if_neg (Ne.symm hd')])
    have hdir : entry (s₂.mem.fill a k f) s₂.cr3 d = pdeRaw a flags := by
      rw [show s₂.cr3 = s.cr3 from rfl, hfill d hd, hentry d hd, if_pos rfl]
    have hw := walk_recursive hself₂ hd hi (by rw [hdir]; exact hpres)
    rw [hdir, hframe] at hw
    exact hw
  have hend : tableEntry d 0 + pageSize ≤ 2 ^ 32 := by
    unfold tableEntry pageEntries pageSize at *; omega
  have hstart : kernelHeapEndVirt ≤ tableEntry d 0 := by
    unfold tableEntry kernelHeapEndVirt; omega
  have hset := storeBytes_eq_fill s₂ hend (.inr hstart) hwalk fun _ => 0
  simp only [pagingCreateTable, Vm.allocTable, halloc, bind, Except.bind, pure, Except.pure]
  simp only [s₁, pdeRaw] at hstore
  rw [hstore]
  exact hset

/-! ### paging_get_page -/

variable {s : Vm P} (hself : SelfMapped s.mem s.cr3) (halign : virt % pageSize = 0)
  (hvirt : virt < 2 ^ 32)

include hself halign hvirt

theorem pagingGetPage_of_present (hp : isPresent (s.pde (dirIndex virt)) = true)
    (create : Bool) (flags : Nat) :
    pagingGetPage s virt create flags =
      .ok (some (tableEntry (dirIndex virt) (tableIndex virt)), s) := by
  simp [pagingGetPage, halign, s.loadWord_dirEntry hself (dirIndex_lt hvirt), hp, bind,
    Except.bind, pure, Except.pure]

theorem pagingGetPage_of_absent (habs : isPresent (s.pde (dirIndex virt)) = false)
    (flags : Nat) : pagingGetPage s virt false flags = .ok (none, s) := by
  simp [pagingGetPage, halign, s.loadWord_dirEntry hself (dirIndex_lt hvirt), habs, bind,
    Except.bind, pure, Except.pure]

theorem pagingGetPage_create {a : Nat} {pmm : P}
    (habs : isPresent (s.pde (dirIndex virt)) = false) (flags : Nat)
    (halloc : FrameAllocator.allocPage s.pmm = .ok (a, pmm)) (ha : TableFrame s a) :
    pagingGetPage s virt true flags =
      .ok (some (tableEntry (dirIndex virt) (tableIndex virt)),
        s.withTable (dirIndex virt) flags a pmm) := by
  have hd := dirIndex_lt hvirt
  have hself' := hself.withTable pmm hd habs flags ha
  have hpde := s.pde_withTable pmm hself.aligned ha flags hd hd
  rw [if_pos rfl] at hpde
  have hpres := (pdeRaw_word ha.aligned ha.lt flags).2.1
  simp [pagingGetPage, halign, s.loadWord_dirEntry hself hd, habs,
    pagingCreateTable_eq hself hd habs flags halloc ha,
    Vm.loadWord_dirEntry (s := s.withTable (dirIndex virt) flags a pmm) hself' hd, hpde, hpres,
    bind, Except.bind, pure, Except.pure]

theorem pagingGetPage_of_error {e : Halt} (habs : isPresent (s.pde (dirIndex virt)) = false)
    (halloc : FrameAllocator.allocPage s.pmm = .error e) (flags : Nat) :
    pagingGetPage s virt true flags = .error e := by
  simp [pagingGetPage, halign, s.loadWord_dirEntry hself (dirIndex_lt hvirt), habs,
    pagingCreateTable, Vm.allocTable, halloc, bind, Except.bind]

omit halign in
/-- With a missing table, `paging_map_page` logs one answer of the allocator. -/
theorem pagingMapPage_log {s' : Vm P} (habs : isPresent (s.pde (dirIndex virt)) = false)
    (h : pagingMapPage s virt phys flags = .ok s') :
    ∃ a, FrameAllocator.allocPage s.pmm = .ok (a, s'.pmm) ∧
      s'.log = .table (dirIndex virt) a :: s.log := by
  obtain ⟨⟨page, s₁⟩, hget, h⟩ := bind_eq_ok.mp h
  obtain ⟨pte, -, h⟩ := bind_eq_ok.mp h
  split at h
  · contradiction
  have hsame := Vm.storeWord_same h
  unfold pagingGetPage at hget
  split at hget
  · contradiction
  obtain ⟨pde, hload, hget⟩ := bind_eq_ok.mp hget
  rw [s.loadWord_dirEntry hself (dirIndex_lt hvirt)] at hload
  cases hload
  obtain ⟨s₂, hcreate, hget⟩ := bind_eq_ok.mp hget
  obtain ⟨pde', -, hget⟩ := bind_eq_ok.mp hget
  cases hget
  rw [habs] at hcreate
  obtain ⟨a, halloc, hlog, -⟩ := pagingCreateTable_log hcreate
  exact ⟨a, by rw [hsame.pmm]; exact halloc, by rw [hsame.log]; exact hlog⟩

/-! ### paging_map_page and paging_unmap_page -/

theorem pagingMapPage_of_table (hp : isPresent (s.pde (dirIndex virt)) = true) (phys flags : Nat) :
    pagingMapPage s virt phys flags =
      if isPresent (s.pte (dirIndex virt) (tableIndex virt)) then .error .alreadyMapped
      else .ok (s.withEntry (pageFrame (s.pde (dirIndex virt))) (tableIndex virt)
        (pteRaw phys flags)) := by
  have hd := dirIndex_lt hvirt
  have ht := tableIndex_lt virt
  have hstore := s.storeWord_tableEntry hself hd ht hp (pteRaw phys flags)
  simp only [pagingMapPage, pagingGetPage_of_present hself halign hvirt hp, bind, Except.bind,
    Option.getD_some, s.loadWord_tableEntry hself hd ht hp]
  split
  · rfl
  · exact hstore

theorem pagingMapPage_create {a : Nat} {pmm : P}
    (habs : isPresent (s.pde (dirIndex virt)) = false) (flags : Nat)
    (halloc : FrameAllocator.allocPage s.pmm = .ok (a, pmm)) (ha : TableFrame s a)
    (phys : Nat) :
    pagingMapPage s virt phys flags =
      .ok ((s.withTable (dirIndex virt) flags a pmm).withEntry a (tableIndex virt)
        (pteRaw phys flags)) := by
  have hd := dirIndex_lt hvirt
  have ht := tableIndex_lt virt
  have hself' := hself.withTable pmm hd habs flags ha
  have hpde := s.pde_withTable pmm hself.aligned ha flags hd hd
  rw [if_pos rfl] at hpde
  obtain ⟨-, hpres, hframe⟩ := pdeRaw_word ha.aligned ha.lt flags
  have hp : isPresent ((s.withTable (dirIndex virt) flags a pmm).pde (dirIndex virt)) = true := by
    rw [hpde, hpres]
  have hpte : (s.withTable (dirIndex virt) flags a pmm).pte (dirIndex virt) (tableIndex virt) = 0 := by
    rw [Vm.pte, hpde, hframe, s.entry_withTable pmm hself.aligned ha flags hd ha.aligned ht, if_pos rfl]
  have hstore := Vm.storeWord_tableEntry hself' hd ht hp (pteRaw phys flags)
  simp only [pagingMapPage, pagingGetPage_create hself halign hvirt habs flags halloc ha, bind,
    Except.bind, Option.getD_some, Vm.loadWord_tableEntry hself' hd ht hp, hpte]
  rw [if_neg (by decide)]
  rw [hpde, hframe] at hstore
  exact hstore

theorem pagingMapPage_of_error {e : Halt} (habs : isPresent (s.pde (dirIndex virt)) = false)
    (halloc : FrameAllocator.allocPage s.pmm = .error e) (phys flags : Nat) :
    pagingMapPage s virt phys flags = .error e := by
  rw [pagingMapPage, pagingGetPage_of_error hself halign hvirt habs halloc]
  rfl

theorem pagingUnmapPage_of_table (hp : isPresent (s.pde (dirIndex virt)) = true) :
    pagingUnmapPage s virt =
      .ok (s.withEntry (pageFrame (s.pde (dirIndex virt))) (tableIndex virt)
        (s.pte (dirIndex virt) (tableIndex virt) -
          s.pte (dirIndex virt) (tableIndex virt) % 2)) := by
  have hd := dirIndex_lt hvirt
  have ht := tableIndex_lt virt
  simp only [pagingUnmapPage, pagingGetPage_of_present hself halign hvirt hp, bind, Except.bind,
    s.loadWord_tableEntry hself hd ht hp]
  exact s.storeWord_tableEntry hself hd ht hp _

theorem pagingUnmapPage_of_absent (habs : isPresent (s.pde (dirIndex virt)) = false) :
    pagingUnmapPage s virt = .ok s := by
  simp only [pagingUnmapPage, pagingGetPage_of_absent hself halign hvirt habs, bind, Except.bind]
  rfl

end

end NimbleOS
