import NimbleOS.Basic
import NimbleOS.Lib.ByteMem

/-!
# NimbleOS.Vm

Memory as the kernel's C code sees it.  `translate` is the processor's two-level
page walk over the raw bytes of physical memory; every load and store of the
model goes through it.  The kernel runs with write protection off, so the walk
of a kernel access looks at the present bits alone.  There is no TLB here
(`Paging.Coherence` says when that makes no difference), and the accessed and
dirty bits are not modelled.

The contents of the kernel's own image and heap are Lean state in the modules
that use them, not bytes of this memory.  A store into their address range ends
the call with `Halt.kernelOverwritten`.
-/

namespace NimbleOS

def pageEntries : Nat := 1024

def pagePresent : Nat := 0x001
def pageRw : Nat := 0x002
def pageUser : Nat := 0x004
def pageFlags : Nat := 0xFFF

/-- `KERNEL_HEAP_END_VIRT`: the kernel's image and heap end here. -/
def kernelHeapEndVirt : Nat := 0xD0400000

/-! ## entries of directories and tables -/

/-- `w & PAGE_FRAME`. -/
def pageFrame (w : Nat) : Nat := w / pageSize * pageSize

/-- The bit-fields of `directory_entry_t` and `page_entry_t`. -/
def isPresent (w : Nat) : Bool := w % 2 = 1
def isUser (w : Nat) : Bool := w / 4 % 2 = 1
def isLarge (w : Nat) : Bool := w / 128 % 2 = 1

def dirIndex (virt : Nat) : Nat := virt / 2 ^ 22
def tableIndex (virt : Nat) : Nat := virt / 2 ^ 12 % 1024

/-- Entry `i` of the directory or table in frame `f`. -/
def entry (m : ByteMem) (f i : Nat) : Nat := m.word (f + 4 * i)

/-- The page walk: the 4 KiB frame of `virt` and the flags of its last entry. -/
def translate (m : ByteMem) (cr3 virt : Nat) : Option (Nat × Nat) :=
  let pde := entry m (pageFrame cr3) (dirIndex virt)
  if !isPresent pde then none
  else if isLarge pde then
    some (pde / 2 ^ 22 * 2 ^ 22 + tableIndex virt * pageSize, pde % pageSize)
  else
    let pte := entry m (pageFrame pde) (tableIndex virt)
    if isPresent pte then some (pageFrame pte, pte % pageSize) else none

/-- The physical address of `virt`. -/
def walk (m : ByteMem) (cr3 virt : Nat) : Option Nat :=
  (translate m cr3 virt).map fun (frame, _) => frame + virt % pageSize

/-! ## the machine state -/

/-- What the virtual memory manager asks of the physical one. -/
class FrameAllocator (P : Type) where
  allocPage : P → Except Halt (Nat × P)

/-- An allocation and its answer, in the ghost log of `Vm`. -/
inductive Alloc where
  /-- `pmm_alloc_page` for the page table of a directory slot. -/
  | table (slot addr : Nat)
  /-- `pmm_alloc_page` for a page directory. -/
  | directory (addr : Nat)
  /-- `pmm_alloc_pages`. -/
  | pages (num addr : Nat)
  /-- `kmalloc`. -/
  | heap (size addr : Nat)
  deriving DecidableEq

/-- The log entry of one of these tables. -/
theorem Alloc.table_mem_map {ts : List (Nat × Nat)} (ht : t ∈ ts) :
    Alloc.table t.1 t.2 ∈ ts.map fun (d, a) => Alloc.table d a := List.mem_map_of_mem ht

/-- The answer: 0 where the allocation failed. -/
def Alloc.addr : Alloc → Nat
  | .table _ a | .directory a | .pages _ a | .heap _ a => a

/-- Physical memory, the directory register and the frame allocator.  `log` is a
ghost: the allocations made so far, the latest first. -/
structure Vm (P : Type) where
  mem : ByteMem
  cr3 : Nat
  pmm : P
  log : List Alloc

namespace Vm

variable {P : Type}

/-- The physical address of a load. -/
def loadAddr (s : Vm P) (virt : Nat) : Except Halt Nat :=
  match walk s.mem s.cr3 virt with
  | some a => .ok a
  | none => .error .pageFault

/-- The physical address of a store. -/
def storeAddr (s : Vm P) (virt : Nat) : Except Halt Nat :=
  if kernelBaseVirt ≤ virt ∧ virt < kernelHeapEndVirt then .error .kernelOverwritten
  else s.loadAddr virt

def loadWord (s : Vm P) (virt : Nat) : Except Halt Nat := do
  let a ← s.loadAddr virt
  return s.mem.word a

def storeWord (s : Vm P) (virt v : Nat) : Except Halt (Vm P) := do
  let a ← s.storeAddr virt
  return { s with mem := s.mem.setWord a v }

def loadByte (s : Vm P) (virt : Nat) : Except Halt (BitVec 8) := do
  let a ← s.loadAddr virt
  return s.mem a

def storeByte (s : Vm P) (virt : Nat) (v : BitVec 8) : Except Halt (Vm P) := do
  let a ← s.storeAddr virt
  return { s with mem := s.mem.setByte a v }

end Vm

/-! ## string.h -/

section

variable {P : Type}

/-- The loop of `memcpy` from bytes that no store of the loop changes. -/
def storeBytes (s : Vm P) (dst : Nat) (src : Nat → BitVec 8) : Nat → Except Halt (Vm P)
  | 0 => .ok s
  | n + 1 => do
      let s ← storeBytes s dst src n
      s.storeByte (u32 (dst + n)) (src n)

def memset (s : Vm P) (dst : Nat) (value : BitVec 8) (size : Nat) : Except Halt (Vm P) :=
  storeBytes s dst (fun _ => value) size

/-- `memcpy` within virtual memory. -/
def memcpy (s : Vm P) (dst src : Nat) : Nat → Except Halt (Vm P)
  | 0 => .ok s
  | n + 1 => do
      let s ← memcpy s dst src n
      let v ← s.loadByte (u32 (src + n))
      s.storeByte (u32 (dst + n)) v

end

/-! ## reading entries after stores -/

theorem isPresent_iff (w : Nat) : isPresent w = true ↔ w % 2 = 1 := decide_eq_true_iff

theorem entry_lt (m : ByteMem) (f i : Nat) : entry m f i < 2 ^ 32 := m.word_lt _

theorem pageFrame_mod (w : Nat) : pageFrame w % pageSize = 0 := Nat.mul_mod_left _ _

theorem pageFrame_of_aligned (h : a % pageSize = 0) : pageFrame a = a :=
  Nat.div_mul_cancel (Nat.dvd_of_mod_eq_zero h)

theorem pageFrame_add (h : a % pageSize = 0) (hf : f < pageSize) : pageFrame (a + f) = a := by
  unfold pageFrame pageSize at *
  omega

/-- Distinct entries do not overlap. -/
theorem entry_setWord (m : ByteMem) (hf : f % pageSize = 0) (hf' : f' % pageSize = 0)
    (hi : i < pageEntries) (hi' : i' < pageEntries) (hv : v < 2 ^ 32) :
    entry (m.setWord (f + 4 * i) v) f' i' = if f' = f ∧ i' = i then v else entry m f' i' := by
  unfold pageEntries pageSize at *
  by_cases heq : f' = f ∧ i' = i
  · obtain ⟨rfl, rfl⟩ := heq
    rw [if_pos ⟨rfl, rfl⟩, entry, m.word_setWord_self _ hv]
  · rw [if_neg heq, entry, m.word_setWord_of_disjoint _ (by omega), entry]

/-- A range store outside a frame leaves its entries alone. -/
theorem entry_fill_of_disjoint (m : ByteMem) (g : Nat → BitVec 8) (hi : i < pageEntries)
    (h : f + pageSize ≤ a ∨ a + n ≤ f) : entry (m.fill a n g) f i = entry m f i := by
  unfold pageEntries pageSize at *
  exact m.word_fill_of_disjoint _ (by omega)

/-- The entries of a frame are its bytes. -/
theorem byte_of_entries {m m' : ByteMem} (h : ∀ j < pageEntries, entry m' f j = entry m f j)
    (ho : o < pageSize) : m' (f + o) = m (f + o) := by
  have hword := h (o / 4) (by unfold pageEntries pageSize at *; omega)
  have hbyte := ByteMem.byte_of_word hword (Nat.mod_lt o (by decide : 0 < 4))
  rwa [show f + 4 * (o / 4) + o % 4 = f + o by omega] at hbyte

/-- Clearing a page. -/
theorem entry_clear (m : ByteMem) (hf : f % pageSize = 0) (ha : a % pageSize = 0)
    (hi : i < pageEntries) :
    entry (m.fill a pageSize fun _ => 0) f i = if f = a then 0 else entry m f i := by
  by_cases heq : f = a
  · subst heq
    rw [if_pos rfl]
    exact m.word_fill_zeros (by omega) (by unfold pageEntries pageSize at *; omega)
  · rw [if_neg heq]
    exact entry_fill_of_disjoint m _ hi (by unfold pageSize at *; omega)

/-- Copying a page. -/
theorem entry_copy (m : ByteMem) (hf : f % pageSize = 0) (ha : a % pageSize = 0)
    (hi : i < pageEntries) :
    entry (m.fill a pageSize fun j => m (src + j)) f i =
      if f = a then entry m src i else entry m f i := by
  by_cases heq : f = a
  · subst heq
    rw [if_pos rfl]
    exact m.word_fill_copy src (by unfold pageEntries pageSize at *; omega)
  · rw [if_neg heq]
    exact entry_fill_of_disjoint m _ hi (by unfold pageSize at *; omega)

/-! ## the walk -/

/-- The walk of an address whose slot refers to a page table. -/
theorem translate_of_table {m : ByteMem} {pde : Nat}
    (hpde : entry m (pageFrame cr3) (dirIndex virt) = pde) (hp : isPresent pde = true)
    (hl : isLarge pde = false) :
    translate m cr3 virt =
      if isPresent (entry m (pageFrame pde) (tableIndex virt)) then
        some (pageFrame (entry m (pageFrame pde) (tableIndex virt)),
          entry m (pageFrame pde) (tableIndex virt) % pageSize)
      else none := by
  simp only [translate, hpde, hp, hl, Bool.not_true, Bool.false_eq_true, if_false]

theorem translate_of_absent {m : ByteMem}
    (hp : isPresent (entry m (pageFrame cr3) (dirIndex virt)) = false) :
    translate m cr3 virt = none := by
  simp only [translate, hp, Bool.not_false, if_true]

end NimbleOS
