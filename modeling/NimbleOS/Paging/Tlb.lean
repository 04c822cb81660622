import NimbleOS.Lib.Cache
import NimbleOS.Lib.Relate
import NimbleOS.Paging.Refine

/-!
# NimbleOS.Paging.Tlb

The same calls on a processor that translates through a TLB.  `Tvm` is the machine of
`Vm` with one: a cached translation is used without a look at the tables, and before
each access the processor fills and evicts entries as it likes.  The functions below
are those of `kernel/src/mem/paging.c` once more, this time with their `invlpg` and
their loads of CR3, which `Vm` has no use for.

An access through a TLB that agrees with the tables is an access through the tables;
the second half says which translations a store into a table or the directory changes.
-/

namespace NimbleOS

variable {P : Type}

/-- The translation of a page, as the tables have it. -/
def Vm.look (s : Vm P) (page : Nat) : Option (Nat × Nat) :=
  if page < 2 ^ 20 then translate s.mem s.cr3 (page * pageSize) else none

/-- Memory, the TLB, and what the processor will do with each of its entries before
the next access and the ones after that. -/
structure Tvm (P : Type) where
  vm : Vm P
  tlb : Cache Nat (Nat × Nat)
  moves : Nat → Nat → CacheMove

namespace Tvm

/-! ## the code -/

/-- The processor before an access to `virt`.  Without speculation it fills the TLB with
the page of the access only. -/
def act (spec : Bool) (t : Tvm P) (virt : Nat) : Tvm P :=
  { t with
    tlb := t.tlb.move t.vm.look (fun page => spec || page == virt / pageSize) (t.moves 0)
    moves := fun i => t.moves (i + 1) }

variable (spec : Bool)

def loadAddr (t : Tvm P) (virt : Nat) : Except Halt (Nat × Tvm P) :=
  let t := t.act spec virt
  match t.tlb (virt / pageSize) with
  | some (frame, _) => .ok (frame + virt % pageSize, t)
  | none => do
      let a ← t.vm.loadAddr virt
      return (a, t)

def storeAddr (t : Tvm P) (virt : Nat) : Except Halt (Nat × Tvm P) :=
  if kernelBaseVirt ≤ virt ∧ virt < kernelHeapEndVirt then .error .kernelOverwritten
  else t.loadAddr spec virt

def loadWord (t : Tvm P) (virt : Nat) : Except Halt (Nat × Tvm P) := do
  let (a, t) ← t.loadAddr spec virt
  return (t.vm.mem.word a, t)

def storeWord (t : Tvm P) (virt v : Nat) : Except Halt (Tvm P) := do
  let (a, t) ← t.storeAddr spec virt
  return { t with vm := { t.vm with mem := t.vm.mem.setWord a v } }

def loadByte (t : Tvm P) (virt : Nat) : Except Halt (BitVec 8 × Tvm P) := do
  let (a, t) ← t.loadAddr spec virt
  return (t.vm.mem a, t)

def storeByte (t : Tvm P) (virt : Nat) (v : BitVec 8) : Except Halt (Tvm P) := do
  let (a, t) ← t.storeAddr spec virt
  return { t with vm := { t.vm with mem := t.vm.mem.setByte a v } }

def memset (t : Tvm P) (dst : Nat) (value : BitVec 8) : (size : Nat) → Except Halt (Tvm P)
  | 0 => .ok t
  | n + 1 => do
      let t ← memset t dst value n
      t.storeByte spec (u32 (dst + n)) value

/-- `paging_invalidate_page`: `invlpg`. -/
def pagingInvalidatePage (t : Tvm P) (virt : Nat) : Tvm P :=
  { t with tlb := t.tlb.drop (virt / pageSize) }

/-- `paging_invalidate_cache`: CR3 is loaded with its own value. -/
def pagingInvalidateCache (t : Tvm P) : Tvm P := { t with tlb := .empty }

def pagingSwitchDirectory (t : Tvm P) (dirPhys : Nat) : Except Halt (Tvm P) := do
  let s ← NimbleOS.pagingSwitchDirectory t.vm dirPhys
  return { t with vm := s, tlb := .empty }

variable [FrameAllocator P]

def allocTable (t : Tvm P) (d : Nat) : Except Halt (Nat × Tvm P) := do
  let (a, s) ← t.vm.allocTable d
  return (a, { t with vm := s })

def pagingCreateTable (t : Tvm P) (d flags : Nat) : Except Halt (Tvm P) := do
  let (newTable, t) ← t.allocTable d
  let t ← t.storeWord spec (dirEntry d)
    (newTable ||| pagePresent ||| pageRw ||| (flags &&& pageFlags))
  t.memset spec (tableEntry d 0) 0 pageSize

def pagingGetPage (t : Tvm P) (virt : Nat) (create : Bool) (flags : Nat) :
    Except Halt (Option Nat × Tvm P) :=
  if virt % pageSize ≠ 0 then .error .unaligned
  else do
    let d := dirIndex virt
    let (pde, t) ← t.loadWord spec (dirEntry d)
    let t ← (if !isPresent pde && create then t.pagingCreateTable spec d flags else .ok t)
    let (pde, t) ← t.loadWord spec (dirEntry d)
    return (if isPresent pde then some (tableEntry d (tableIndex virt)) else none, t)

def pagingMapPage (t : Tvm P) (virt phys flags : Nat) : Except Halt (Tvm P) := do
  let (page, t) ← t.pagingGetPage spec virt true flags
  let page := page.getD 0
  let (pte, t) ← t.loadWord spec page
  if isPresent pte then .error .alreadyMapped
  else do
    let t ← t.storeWord spec page (phys ||| pagePresent ||| (flags &&& pageFlags))
    return t.pagingInvalidatePage virt

def pagingMapPages (t : Tvm P) (virt phys : Nat) : (num flags : Nat) → Except Halt (Tvm P)
  | 0, _ => .ok t
  | num + 1, flags => do
      let t ← t.pagingMapPage spec virt phys flags
      pagingMapPages t (u32 (virt + pageSize)) (u32 (phys + pageSize)) num flags

/-- A page without a table is not invalidated. -/
def pagingUnmapPage (t : Tvm P) (virt : Nat) : Except Halt (Tvm P) := do
  let (page, t) ← t.pagingGetPage spec virt false 0
  match page with
  | some page =>
      let (pte, t) ← t.loadWord spec page
      let t ← t.storeWord spec page (pte - pte % 2)
      return t.pagingInvalidatePage virt
  | none => return t

def pagingUnmapPages (t : Tvm P) (virt : Nat) : Nat → Except Halt (Tvm P)
  | 0 => .ok t
  | num + 1 => do
      let t ← t.pagingUnmapPage spec virt
      pagingUnmapPages t (u32 (virt + pageSize)) num

end Tvm

/-! ## accesses -/

theorem translate_page (m : ByteMem) (cr3 virt : Nat) :
    translate m cr3 (virt / pageSize * pageSize) = translate m cr3 virt := by
  have hdir : dirIndex (virt / pageSize * pageSize) = dirIndex virt := by
    unfold dirIndex pageSize
    omega
  have htab : tableIndex (virt / pageSize * pageSize) = tableIndex virt := by
    unfold tableIndex pageSize
    omega
  simp only [translate, hdir, htab]

theorem translate_aligned (h : translate m cr3 virt = some (f, fl)) : f % pageSize = 0 := by
  simp only [translate] at h
  split at h
  · contradiction
  split at h
  · cases h
    unfold pageSize
    omega
  split at h
  · cases h
    exact pageFrame_mod _
  · contradiction

/-- A page that the tables translate, and where its bytes are. -/
theorem Vm.walk_of_look {s : Vm P} (h : s.look (virt / pageSize) = some (f, fl)) :
    walk s.mem s.cr3 virt = some (f + virt % pageSize) := by
  unfold Vm.look at h
  split at h
  · rw [translate_page] at h
    rw [walk, h, Option.map_some]
  · contradiction

namespace Tvm

/-- The TLB agrees with the tables, except perhaps for the pages in `bad`. -/
def CoherentOff (bad : Nat → Prop) (t : Tvm P) : Prop := t.tlb.Coherent bad t.vm.look

/-- The TLB agrees with the tables. -/
def Coherent (t : Tvm P) : Prop := t.CoherentOff fun _ => False

variable {spec : Bool} {bad : Nat → Prop} {t : Tvm P}

theorem tlb_act (spec : Bool) (t : Tvm P) (virt : Nat) :
    (t.act spec virt).tlb =
      t.tlb.move t.vm.look (fun page => spec || page == virt / pageSize) (t.moves 0) := rfl

variable (spec) in
theorem CoherentOff.act (h : t.CoherentOff bad) (virt : Nat) :
    (t.act spec virt).CoherentOff bad := Cache.Coherent.move h _ _

/-- **An access through a coherent TLB** finds what the walk finds. -/
theorem loadAddr_eq (h : t.CoherentOff bad) (hvirt : ¬ bad (virt / pageSize)) :
    t.loadAddr spec virt = (t.vm.loadAddr virt).map fun a => (a, t.act spec virt) := by
  have hact := h.act spec virt
  cases htlb : (t.act spec virt).tlb (virt / pageSize) with
  | none =>
      simp only [loadAddr, htlb]
      rfl
  | some x =>
      obtain ⟨frame, fl⟩ := x
      have hwalk := Vm.walk_of_look (hact _ _ hvirt htlb)
      have haddr : t.vm.loadAddr virt = .ok (frame + virt % pageSize) :=
        Vm.loadAddr_of_walk hwalk
      simp only [loadAddr, htlb, haddr]
      rfl

theorem storeAddr_eq (h : t.CoherentOff bad) (hvirt : ¬ bad (virt / pageSize)) :
    t.storeAddr spec virt = (t.vm.storeAddr virt).map fun a => (a, t.act spec virt) := by
  unfold storeAddr Vm.storeAddr
  split
  · rfl
  · exact loadAddr_eq h hvirt

theorem loadWord_eq (h : t.CoherentOff bad) (hvirt : ¬ bad (virt / pageSize)) :
    t.loadWord spec virt = (t.vm.loadWord virt).map fun w => (w, t.act spec virt) := by
  rw [loadWord, loadAddr_eq h hvirt, Vm.loadWord]
  cases t.vm.loadAddr virt <;> rfl

variable (spec) in
theorem loadByte_eq (h : t.CoherentOff bad) (hvirt : ¬ bad (virt / pageSize)) :
    t.loadByte spec virt = (t.vm.loadByte virt).map fun v => (v, t.act spec virt) := by
  rw [loadByte, loadAddr_eq h hvirt, Vm.loadByte]
  cases t.vm.loadAddr virt <;> rfl

theorem storeWord_eq (h : t.CoherentOff bad) (hvirt : ¬ bad (virt / pageSize)) (v : Nat) :
    t.storeWord spec virt v =
      (t.vm.storeWord virt v).map fun s => { t.act spec virt with vm := s } := by
  rw [storeWord, storeAddr_eq h hvirt, Vm.storeWord]
  cases t.vm.storeAddr virt <;> rfl

variable (spec) in
theorem storeByte_eq (h : t.CoherentOff bad) (hvirt : ¬ bad (virt / pageSize)) (v : BitVec 8) :
    t.storeByte spec virt v =
      (t.vm.storeByte virt v).map fun s => { t.act spec virt with vm := s } := by
  rw [storeByte, storeAddr_eq h hvirt, Vm.storeByte]
  cases t.vm.storeAddr virt <;> rfl

end Tvm

/-! ## what a store changes in the translations -/

/-- The translation of a page depends on the slot and on the entry that it uses. -/
theorem Vm.look_congr {s s' : Vm P} (hself : SelfMapped s.mem s.cr3) (hcr3 : s'.cr3 = s.cr3)
    (hpde : page / 1024 < pageEntries → s'.pde (page / 1024) = s.pde (page / 1024))
    (hpte : page / 1024 < pageEntries → isPresent (s.pde (page / 1024)) = true →
      isLarge (s.pde (page / 1024)) = false →
      s'.pte (page / 1024) (page % 1024) = s.pte (page / 1024) (page % 1024)) :
    s'.look page = s.look page := by
  unfold Vm.look
  split
  · have hslot : page / 1024 < pageEntries := by unfold pageEntries; omega
    have hdir : dirIndex (page * pageSize) = page / 1024 := by
      unfold dirIndex pageSize
      omega
    have htab : tableIndex (page * pageSize) = page % 1024 := by
      unfold tableIndex pageSize
      omega
    have hp := hpde hslot
    have ht := hpte hslot
    unfold Vm.pde at hp ht
    unfold Vm.pte Vm.pde at ht
    rw [hcr3] at hp ht
    simp only [translate, hdir, htab, hcr3, pageFrame_of_aligned hself.aligned]
    rw [hp] at ht ⊢
    cases hpres : isPresent (entry s.mem s.cr3 (page / 1024)) with
    | false => rfl
    | true =>
        cases hlarge : isLarge (entry s.mem s.cr3 (page / 1024)) with
        | true => rfl
        | false => rw [ht hpres hlarge]
  · rfl

/-- A page without a slot is not translated. -/
theorem Vm.look_of_absent {s : Vm P} (halign : s.cr3 % pageSize = 0)
    (habs : isPresent (s.pde (page / 1024)) = false) : s.look page = none := by
  unfold Vm.look
  split
  · have hdir : dirIndex (page * pageSize) = page / 1024 := by
      unfold dirIndex pageSize
      omega
    refine translate_of_absent ?_
    rwa [pageFrame_of_aligned halign, hdir]
  · rfl

/-- The translation of a page whose slot refers to a table. -/
theorem Vm.look_of_table {s : Vm P} (halign : s.cr3 % pageSize = 0) (hpage : page < 2 ^ 20)
    (hp : isPresent (s.pde (page / 1024)) = true) (hl : isLarge (s.pde (page / 1024)) = false) :
    s.look page = leaf (s.pte (page / 1024) (page % 1024)) := by
  have hdir : dirIndex (page * pageSize) = page / 1024 := by
    unfold dirIndex pageSize
    omega
  have htab : tableIndex (page * pageSize) = page % 1024 := by
    unfold tableIndex pageSize
    omega
  have hpde : entry s.mem (pageFrame s.cr3) (dirIndex (page * pageSize)) = s.pde (page / 1024) := by
    rw [pageFrame_of_aligned halign, hdir, Vm.pde]
  rw [Vm.look, if_pos hpage, translate_of_table hpde hp hl, htab]
  rfl

/-- The table of slot 1023 is the directory. -/
theorem SelfMapped.pte_self {s : Vm P} (hself : SelfMapped s.mem s.cr3) (j : Nat) :
    s.pte 1023 j = s.pde j := by
  have hframe := hself.self
  unfold Vm.pte Vm.pde
  rw [hframe]

section

variable {taken : P → Nat → Prop} {s : Vm P} {d : Nat}

/-- **A store into a table** concerns the translation of one page. -/
theorem Vm.look_withEntry (hwf : DirWF taken s) (hd : d < 1023)
    (hp : isPresent (s.pde d) = true) (ht : t < pageEntries) (hv : v < 2 ^ 32)
    (hne : page ≠ d * 1024 + t) :
    (s.withEntry (pageFrame (s.pde d)) t v).look page = s.look page := by
  have hpde : ∀ j, j < pageEntries → (s.withEntry (pageFrame (s.pde d)) t v).pde j = s.pde j :=
    fun j hj => s.pde_withEntry hwf hd hp ht hv hj
  have hindex : page % 1024 < pageEntries := by unfold pageEntries; omega
  refine Vm.look_congr hwf.self rfl (hpde _) fun hslot hpres _ => ?_
  by_cases hself : page / 1024 = 1023
  · rw [hself, (hwf.withEntry hd hp ht hv).self.pte_self, hwf.self.pte_self, hpde _ hindex]
  · have hslot' : page / 1024 < 1023 := by unfold pageEntries at hslot; omega
    rw [s.pte_withEntry hwf hd hp ht hv hslot' hpres hindex, if_neg]
    rintro ⟨hdir, htab⟩
    omega

end

/-! ## a table that is being cleared -/

/-- The state when the table of slot `d`, in frame `a`, is in the directory and its first
`k` bytes are cleared. -/
def Vm.clearing (s : Vm P) (d flags a : Nat) (pmm : P) (k : Nat) : Vm P :=
  { s with
    mem := (s.mem.setWord (s.cr3 + 4 * d) (pdeRaw a flags)).fill a k fun _ => 0
    pmm := pmm
    log := .table d a :: s.log }

theorem isPresent_entry (m : ByteMem) (a j : Nat) :
    isPresent (entry m a j) = ((m (a + 4 * j)).toNat % 2 = 1 : Bool) := by
  unfold isPresent entry ByteMem.word
  rw [decide_eq_decide]
  omega

section

variable {taken : P → Nat → Prop} {s : Vm P} {d a : Nat} {pmm : P}

theorem Vm.entry_clearing (s : Vm P) (pmm : P) (hcr3 : s.cr3 % pageSize = 0) (ha : TableFrame s a)
    (flags : Nat) (hd : d < pageEntries) (hk : k ≤ pageSize) (hg : g % pageSize = 0) (hga : g ≠ a)
    (hj : j < pageEntries) :
    entry (s.clearing d flags a pmm k).mem g j =
      if g = s.cr3 ∧ j = d then pdeRaw a flags else entry s.mem g j := by
  have hraw := (pdeRaw_word ha.aligned ha.lt flags).1
  have haligned := ha.aligned
  rw [Vm.clearing, entry_fill_of_disjoint _ _ hj (by unfold pageSize at *; omega),
    entry_setWord _ hcr3 hg hd hj hraw]

theorem Vm.pde_clearing (s : Vm P) (pmm : P) (hcr3 : s.cr3 % pageSize = 0) (ha : TableFrame s a)
    (flags : Nat) (hd : d < pageEntries) (hk : k ≤ pageSize) (hj : j < pageEntries) :
    (s.clearing d flags a pmm k).pde j = if j = d then pdeRaw a flags else s.pde j := by
  have h := s.entry_clearing pmm hcr3 ha flags hd hk hcr3 ha.ne_dir.symm hj
  simp only [true_and] at h
  exact h

theorem SelfMapped.clearing (hself : SelfMapped s.mem s.cr3) (pmm : P) (hd : d < 1023)
    (flags : Nat) (ha : TableFrame s a) (hk : k ≤ pageSize) :
    SelfMapped (s.clearing d flags a pmm k).mem s.cr3 := by
  have h := s.pde_clearing pmm hself.aligned ha flags (slot_lt hd) hk (j := 1023) (by decide)
  rw [if_neg (by omega)] at h
  exact hself.congr h

/-- Publishing the table concerns the pages of its slot and its own window. -/
theorem Vm.look_clearing (hwf : DirWF taken s) (pmm : P) (ha : TableFrame s a) (flags : Nat)
    (hnew : ∀ e < 1023, isPresent (s.pde e) = true → pageFrame (s.pde e) ≠ a) (hd : d < 1023)
    (hk : k ≤ pageSize) (hslot : page / 1024 ≠ d) (hwindow : page ≠ 1023 * 1024 + d) :
    (s.clearing d flags a pmm k).look page = s.look page := by
  have hpde : ∀ j, j < pageEntries → j ≠ d → (s.clearing d flags a pmm k).pde j = s.pde j :=
    fun j hj hne => by
      rw [s.pde_clearing pmm hwf.self.aligned ha flags (slot_lt hd) hk hj, if_neg hne]
  have hindex : page % 1024 < pageEntries := by unfold pageEntries; omega
  refine Vm.look_congr hwf.self rfl (fun hlt => hpde _ hlt hslot) fun hlt hpres _ => ?_
  by_cases hself : page / 1024 = 1023
  · have hselfk : SelfMapped (s.clearing d flags a pmm k).mem (s.clearing d flags a pmm k).cr3 :=
      hwf.self.clearing pmm hd flags ha hk
    rw [hself, hselfk.pte_self, hwf.self.pte_self, hpde _ hindex (by omega)]
  · have hslot' : page / 1024 < 1023 := by unfold pageEntries at hlt; omega
    rw [Vm.pte, hpde _ hlt hslot, s.entry_clearing pmm hwf.self.aligned ha flags (slot_lt hd) hk
      (pageFrame_mod _) (hnew _ hslot' hpres) hindex, if_neg fun hc => hwf.ne_dir _ hslot' hpres hc.1]
    rfl

/-- While the table is cleared, the other pages keep their translations. -/
theorem Vm.look_clearing_same (hwf : DirWF taken s) (pmm : P) (ha : TableFrame s a) (flags : Nat)
    (hnew : ∀ e < 1023, isPresent (s.pde e) = true → pageFrame (s.pde e) ≠ a) (hd : d < 1023)
    (hk : k ≤ pageSize) (hk' : k' ≤ pageSize) (hslot : page / 1024 ≠ d) :
    (s.clearing d flags a pmm k').look page = (s.clearing d flags a pmm k).look page := by
  by_cases hwindow : page = 1023 * 1024 + d
  · have hindex : page % 1024 = d := by omega
    have hdir : page / 1024 = 1023 := by omega
    have hlt : page < 2 ^ 20 := by omega
    have hlook : ∀ k ≤ pageSize, (s.clearing d flags a pmm k).look page = leaf (pdeRaw a flags) := by
      intro k hk
      have hself : SelfMapped (s.clearing d flags a pmm k).mem (s.clearing d flags a pmm k).cr3 :=
        hwf.self.clearing pmm hd flags ha hk
      rw [Vm.look_of_table hself.aligned hlt (by rw [hdir]; exact hself.present)
        (by rw [hdir]; exact hself.small), hdir, hself.pte_self, hindex,
        s.pde_clearing pmm hwf.self.aligned ha flags (slot_lt hd) hk (slot_lt hd), if_pos rfl]
    rw [hlook k hk, hlook k' hk']
  · rw [Vm.look_clearing hwf pmm ha flags hnew hd hk hslot hwindow,
      Vm.look_clearing hwf pmm ha flags hnew hd hk' hslot hwindow]

/-- The translation of a page of the new slot, in the words of the frame. -/
theorem Vm.look_clearing_slot (hself : SelfMapped s.mem s.cr3) (pmm : P) (ha : TableFrame s a)
    (hf : MapFlags flags) (hd : d < 1023) (hk : k ≤ pageSize) (hj : j < pageEntries) :
    (s.clearing d flags a pmm k).look (d * 1024 + j) =
      leaf (entry (s.clearing d flags a pmm k).mem a j) := by
  obtain ⟨-, hpres, hlarge, hframe, -⟩ := pdeRaw_fields ha.aligned ha.lt hf
  have hpde := s.pde_clearing pmm hself.aligned ha flags (slot_lt hd) hk (slot_lt hd)
  rw [if_pos rfl] at hpde
  unfold pageEntries at hj
  have hslot : (d * 1024 + j) / 1024 = d := by omega
  have hindex : (d * 1024 + j) % 1024 = j := by omega
  rw [Vm.look_of_table (s := s.clearing d flags a pmm k) hself.aligned (by omega)
    (by rw [hslot, hpde]; exact hpres) (by rw [hslot, hpde]; exact hlarge), hslot, hindex, Vm.pte,
    hpde, hframe]

/-- Clearing a frame puts no page into it. -/
theorem Vm.isPresent_clearing (h : isPresent (entry s.mem a j) = false) (ha : TableFrame s a)
    (hcr3 : s.cr3 % pageSize = 0) (flags : Nat) (hd : d < pageEntries) (hj : j < pageEntries)
    (pmm : P) (k : Nat) : isPresent (entry (s.clearing d flags a pmm k).mem a j) = false := by
  have haligned := ha.aligned
  have hne := ha.ne_dir
  rw [isPresent_entry] at h ⊢
  have hbyte : (s.mem.setWord (s.cr3 + 4 * d) (pdeRaw a flags)) (a + 4 * j) = s.mem (a + 4 * j) := by
    rw [ByteMem.setWord, if_neg]
    unfold pageEntries pageSize at *
    omega
  simp only [Vm.clearing, ByteMem.fill, hbyte]
  split
  · rfl
  · exact h

end

end NimbleOS
