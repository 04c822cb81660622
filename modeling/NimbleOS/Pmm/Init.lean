import NimbleOS.Pmm.Alloc

/-!
# NimbleOS.Pmm.Init

`pmm_init`: size the bitmap from `mem_lower` and `mem_upper`, fill it with ones,
walk the multiboot memory map freeing the available regions, and mark the low
memory, the kernel and the bitmap as used again.

The bitmap is the memory from `KERNEL_END` on, and the walk reads its entries from
that memory too: the words of `Pmm.bitmap` are those of the whole address space, which
comes round to the bytes in front of `KERNEL_END` behind 4 GiB.  So an entry may be
changed by `memset` and by the walk itself, unless it is clear of the bitmap.  The
structure that `mbi` points to is taken as a value.

`Visits` is the list of entries the walk reads, and `pmmInit_isUsed` says of each
block how it ends up.
-/

namespace NimbleOS

open Pmm

/-- `multiboot_memory_map_t`.  `size` and `type` are 32-bit fields, `addr` and
`len` 64-bit ones. -/
structure MmapEntry where
  size : Nat
  addr : Nat
  len : Nat
  type : Nat
  deriving DecidableEq, Repr

/-- The fields of `multiboot_info_t` that `pmm_init` reads. -/
structure MultibootInfo where
  memLower : Nat
  memUpper : Nat
  mmapLength : Nat
  mmapAddr : Nat

def p2v (addr : Nat) : Nat := u32 (addr + kernelBaseVirt)

/-- The kernel as linked: it starts at 1 MiB above `KERNEL_OFFSET`, and its end
`KERNEL_END` is a 32-bit address, of any alignment. -/
structure KernelImage where
  kernelEnd : Nat
  start_le : kernelBaseVirt + 0x100000 ≤ kernelEnd
  end_lt : kernelEnd < 2 ^ 32

/-- `KERNEL_END_PHYS`. -/
def KernelImage.endPhys (image : KernelImage) : Nat := image.kernelEnd - kernelBaseVirt

/-! ## the code -/

def pmmInitRegion (p : Pmm) (addr size : Nat) : Pmm :=
  mmapUnsetBlocks p (addr / pageSize) (size / pageSize)

def pmmDeinitRegion (p : Pmm) (addr size : Nat) : Pmm :=
  mmapSetBlocks p (addr / pageSize) (size / pageSize)

/-- Store 0xFF into byte `k` of the bitmap. -/
def bitmapSetByte (bitmap : Nat → BitVec 32) (k : Nat) : Nat → BitVec 32 :=
  Function.update bitmap (k / 4) (bitmap (k / 4) ||| (0xFF#32 <<< (8 * (k % 4))))

/-- `memset(bitmap, 0xFF, n)`. -/
def bitmapMemset (bitmap : Nat → BitVec 32) (n : Nat) : Nat → BitVec 32 :=
  (List.range n).foldl bitmapSetByte bitmap

/-- The byte at address `a`, of the memory that starts at `KERNEL_END`. -/
def KernelImage.byteAt (image : KernelImage) (memory : Nat → BitVec 32) (a : Nat) : Nat :=
  let o := u32Sub a image.kernelEnd
  (memory (o / 4)).toNat / 256 ^ (o % 4) % 256

/-- The number in the `n` bytes from address `a` on, the lowest byte first. -/
def KernelImage.fieldAt (image : KernelImage) (memory : Nat → BitVec 32) : (a n : Nat) → Nat
  | _, 0 => 0
  | a, n + 1 => image.byteAt memory a + 256 * fieldAt image memory (a + 1) n

/-- `*mmap`; the structure is packed. -/
def KernelImage.mmapEntryAt (image : KernelImage) (memory : Nat → BitVec 32) (mmap : Nat) :
    MmapEntry where
  size := image.fieldAt memory mmap 4
  addr := image.fieldAt memory (mmap + 4) 8
  len := image.fieldAt memory (mmap + 12) 8
  type := image.fieldAt memory (mmap + 20) 4

/-- What the body of the walk does with an entry of non-zero length; the casts
to `uintptr_t` and `uint32_t` cut its 64-bit fields. -/
def pmmInitEntry (p : Pmm) (e : MmapEntry) : Pmm :=
  if e.type = 1 then pmmInitRegion p (u32 e.addr) (u32 e.len) else p

/-- The step to the next entry: `mmap->size` is read when the region is free already. -/
def mmapNext (image : KernelImage) (p : Pmm) (mmap : Nat) : Nat :=
  u32 (mmap + (image.mmapEntryAt p.bitmap mmap).size + 4)

/-- The `while` loop of `pmm_init`, at address `mmap`.  An entry of length 0 is
read again and again: its `continue` skips the step to the next entry. -/
def pmmInitWalk (image : KernelImage) (stop : Nat) :
    (fuel mmap : Nat) → Pmm → Except Halt Pmm
  | 0, _, _ => .error .outOfFuel
  | fuel + 1, mmap, p =>
      if mmap < stop then
        let e := image.mmapEntryAt p.bitmap mmap
        if e.len = 0 then pmmInitWalk image stop fuel mmap p
        else
          let p := pmmInitEntry p e
          pmmInitWalk image stop fuel (mmapNext image p mmap) p
      else .ok p

/-- `max_blocks`. -/
def MultibootInfo.maxBlocks (mbi : MultibootInfo) : Nat :=
  u32 (u32 (mbi.memLower + mbi.memUpper) * 1024) / pageSize

/-- Where the walk starts. -/
def MultibootInfo.mmapStart (mbi : MultibootInfo) : Nat := p2v mbi.mmapAddr

/-- Where the walk stops. -/
def MultibootInfo.mmapStop (mbi : MultibootInfo) : Nat := u32 (p2v mbi.mmapAddr + mbi.mmapLength)

/-- The state in which the walk starts; `memory` is what the memory held before. -/
def pmmInitStart (memory : Nat → BitVec 32) (mbi : MultibootInfo) : Pmm where
  bitmap := bitmapMemset memory (mbi.maxBlocks / 8)
  usedBlocks := mbi.maxBlocks
  maxBlocks := mbi.maxBlocks

def pmmInit (image : KernelImage) (memory : Nat → BitVec 32) (mbi : MultibootInfo) (fuel : Nat) :
    Except Halt Pmm := do
  let p ← pmmInitWalk image mbi.mmapStop fuel mbi.mmapStart (pmmInitStart memory mbi)
  return pmmDeinitRegion p 0 (u32 (image.endPhys + mbi.maxBlocks / 8))

/-! ## the entries of the walk -/

/-- From address `mmap` and state `p` on the walk reads the entries of the list, in
order, and leaves the map behind. -/
inductive Visits (image : KernelImage) (stop : Nat) : Nat → Pmm → List MmapEntry → Prop where
  | done (h : ¬ mmap < stop) : Visits image stop mmap p []
  | entry (h : mmap < stop) (he : image.mmapEntryAt p.bitmap mmap = e) (hlen : e.len ≠ 0)
      (hrest : Visits image stop (mmapNext image (pmmInitEntry p e) mmap) (pmmInitEntry p e) es) :
      Visits image stop mmap p (e :: es)

/-- The memory map that the boot loader has left in memory has the entries `es`. -/
def MultibootInfo.Lists (mbi : MultibootInfo) (image : KernelImage) (memory : Nat → BitVec 32)
    (es : List MmapEntry) : Prop :=
  Visits image mbi.mmapStop mbi.mmapStart (pmmInitStart memory mbi) es

/-- The walk ends when its list does, having processed the entries in order. -/
theorem pmmInitWalk_of_visits (h : Visits image stop mmap p es) (hfuel : es.length < fuel) :
    pmmInitWalk image stop fuel mmap p = .ok (es.foldl pmmInitEntry p) := by
  induction h generalizing fuel with
  | done hstop =>
      obtain ⟨fuel, rfl⟩ := Nat.exists_eq_add_of_lt hfuel
      simp [pmmInitWalk, hstop]
  | entry hlt he hlen _ ih =>
      cases fuel with
      | zero => simp at hfuel
      | succ fuel =>
          simp only [pmmInitWalk, if_pos hlt, he, if_neg hlen, List.foldl_cons]
          exact ih (by simpa using hfuel)

/-- A walk that ended has visited such a list. -/
theorem visits_of_pmmInitWalk (h : pmmInitWalk image stop fuel mmap p = .ok p') :
    ∃ es, Visits image stop mmap p es ∧ p' = es.foldl pmmInitEntry p := by
  induction fuel generalizing mmap p with
  | zero => simp [pmmInitWalk] at h
  | succ fuel ih =>
      rw [pmmInitWalk] at h
      by_cases hstop : mmap < stop
      · rw [if_pos hstop] at h
        by_cases hlen : (image.mmapEntryAt p.bitmap mmap).len = 0
        · simp only [if_pos hlen] at h
          exact ih h
        · simp only [if_neg hlen] at h
          obtain ⟨es, hes, hp⟩ := ih h
          exact ⟨image.mmapEntryAt p.bitmap mmap :: es, .entry hstop rfl hlen hes, hp⟩
      · rw [if_neg hstop] at h
        exact ⟨[], .done hstop, (Except.ok.inj h).symm⟩

theorem Visits.unique (h : Visits image stop mmap p es) (h' : Visits image stop mmap p es') :
    es = es' := by
  induction h generalizing es' with
  | done hstop =>
      cases h' with
      | done => rfl
      | entry hlt => exact absurd hlt hstop
  | entry hlt he _ _ ih =>
      subst he
      cases h' with
      | done hstop => exact absurd hlt hstop
      | entry _ he' _ hrest =>
          subst he'
          rw [ih hrest]

/-! ### maps that are clear of the bitmap -/

/-- The entry at `a` is not within 256 KiB behind `KERNEL_END`, where the bits of all block
numbers are that `pmm_init` can come to. -/
def KernelImage.Clear (image : KernelImage) (a : Nat) : Prop :=
  ∀ j < 24, 2 ^ 18 ≤ u32Sub (a + j) image.kernelEnd

instance (image : KernelImage) (a : Nat) : Decidable (image.Clear a) := by
  unfold KernelImage.Clear; infer_instance

/-- The memory behind these 256 KiB is as it was. -/
def SameBehind (m m' : Nat → BitVec 32) : Prop := ∀ i, 2 ^ 16 ≤ i → m i = m' i

theorem fieldAt_congr {image : KernelImage} (h : SameBehind m m')
    (hclear : ∀ j < n, 2 ^ 18 ≤ u32Sub (a + j) image.kernelEnd) :
    image.fieldAt m a n = image.fieldAt m' a n := by
  induction n generalizing a with
  | zero => rfl
  | succ n ih =>
      have hfirst := hclear 0 (by omega)
      rw [Nat.add_zero] at hfirst
      have hword := h (u32Sub a image.kernelEnd / 4) (by omega)
      have hrest : ∀ j < n, 2 ^ 18 ≤ u32Sub (a + 1 + j) image.kernelEnd := fun j hj => by
        have hbyte := hclear (j + 1) (by omega)
        rwa [Nat.add_assoc, Nat.add_comm 1 j]
      simp only [KernelImage.fieldAt, KernelImage.byteAt, hword, ih hrest]

theorem KernelImage.Clear.mmapEntryAt {image : KernelImage} (hclear : image.Clear a)
    (h : SameBehind m m') : image.mmapEntryAt m a = image.mmapEntryAt m' a := by
  have hfield : ∀ o n, o + n ≤ 24 → image.fieldAt m (a + o) n = image.fieldAt m' (a + o) n :=
    fun o n hle => fieldAt_congr h fun j hj => by
      rw [Nat.add_assoc]
      exact hclear (o + j) (by omega)
  have hsize := hfield 0 4 (by decide)
  rw [Nat.add_zero] at hsize
  simp only [KernelImage.mmapEntryAt, hsize, hfield 4 8 (by decide), hfield 12 8 (by decide),
    hfield 20 4 (by decide)]

theorem sameBehind_memset (memory : Nat → BitVec 32) (hn : n ≤ 2 ^ 18) :
    SameBehind (bitmapMemset memory n) memory := by
  intro i hi
  induction n with
  | zero => rfl
  | succ n ih =>
      have hsucc : bitmapMemset memory (n + 1) = bitmapSetByte (bitmapMemset memory n) n := by
        simp [bitmapMemset, List.range_succ, List.foldl_append]
      rw [hsucc, bitmapSetByte, Function.update_of_ne (by omega), ih (by omega)]

theorem sameBehind_mmapUnsetBlocks (p : Pmm) (hle : first + num ≤ 2 ^ 21) :
    SameBehind (mmapUnsetBlocks p first num).bitmap p.bitmap := by
  intro i hi
  induction num with
  | zero => rfl
  | succ num ih =>
      rw [mmapUnsetBlocks_succ, u32_of_lt (by omega)]
      exact (Function.update_of_ne (by omega) _ _).trans (ih (by omega))

/-- The region of an entry has block numbers below `2 ^ 21`. -/
theorem sameBehind_pmmInitEntry (p : Pmm) (e : MmapEntry) :
    SameBehind (pmmInitEntry p e).bitmap p.bitmap := by
  unfold pmmInitEntry
  split
  · refine sameBehind_mmapUnsetBlocks p ?_
    unfold u32 pageSize
    omega
  · exact fun _ _ => rfl

/-- The entries that the boot loader has left from `mmap` on, none of them near the bitmap. -/
inductive Passes (image : KernelImage) (memory : Nat → BitVec 32) (stop : Nat) :
    Nat → List MmapEntry → Prop where
  | done (h : ¬ mmap < stop) : Passes image memory stop mmap []
  | entry (h : mmap < stop) (hclear : image.Clear mmap) (he : image.mmapEntryAt memory mmap = e)
      (hlen : e.len ≠ 0) (hrest : Passes image memory stop (u32 (mmap + e.size + 4)) es) :
      Passes image memory stop mmap (e :: es)

/-- The walk finds them as they were. -/
theorem Passes.visits (h : Passes image memory stop mmap es) {p : Pmm}
    (hp : SameBehind p.bitmap memory) : Visits image stop mmap p es := by
  induction h generalizing p with
  | done hstop => exact .done hstop
  | @entry mmap e es hlt hclear he hlen _ ih =>
      have hafter : SameBehind (pmmInitEntry p e).bitmap memory := fun i hi =>
        (sameBehind_pmmInitEntry p e i hi).trans (hp i hi)
      refine .entry hlt ((hclear.mmapEntryAt hp).trans he) hlen ?_
      rw [mmapNext, hclear.mmapEntryAt hafter, he]
      exact ih hafter

theorem maxBlocks_lt (mbi : MultibootInfo) : mbi.maxBlocks < 2 ^ 20 := by
  unfold MultibootInfo.maxBlocks u32 pageSize; omega

theorem sameBehind_pmmInitStart (memory : Nat → BitVec 32) (mbi : MultibootInfo) :
    SameBehind (pmmInitStart memory mbi).bitmap memory := by
  have hmax := maxBlocks_lt mbi
  exact sameBehind_memset memory (by omega)

theorem Passes.lists {mbi : MultibootInfo} (h : Passes image memory mbi.mmapStop mbi.mmapStart es) :
    mbi.Lists image memory es :=
  h.visits (sameBehind_pmmInitStart memory mbi)

/-! ## blocks after the walk -/

namespace MmapEntry

/-- The first block of the region that an entry frees, as the code computes it. -/
def firstBlock (e : MmapEntry) : Nat := u32 e.addr / pageSize

/-- The number of blocks that an entry frees, as the code computes it. -/
def numBlocks (e : MmapEntry) : Nat := u32 e.len / pageSize

/-- The code frees block `b` for entry `e`. -/
def Frees (e : MmapEntry) (b : Nat) : Prop :=
  e.type = 1 ∧ e.firstBlock ≤ b ∧ b < e.firstBlock + e.numBlocks

instance (e : MmapEntry) (b : Nat) : Decidable (e.Frees b) := by unfold Frees; infer_instance

theorem range_le (e : MmapEntry) : e.firstBlock + e.numBlocks ≤ 2 ^ 32 := by
  unfold firstBlock numBlocks u32 pageSize; omega

end MmapEntry

theorem isUsed_pmmInitEntry (p : Pmm) (e : MmapEntry) (b : Nat) :
    (pmmInitEntry p e).isUsed b = (!decide (e.Frees b) && p.isUsed b) := by
  unfold pmmInitEntry pmmInitRegion
  by_cases ht : e.type = 1
  · rw [if_pos ht]
    change (mmapUnsetBlocks p e.firstBlock e.numBlocks).isUsed b = _
    rw [isUsed_mmapUnsetBlocks p e.range_le]
    simp [MmapEntry.Frees, ht]
  · simp [MmapEntry.Frees, ht]

theorem isUsed_foldl_pmmInitEntry (es : List MmapEntry) (p : Pmm) (b : Nat) :
    (es.foldl pmmInitEntry p).isUsed b = (!decide (∃ e ∈ es, e.Frees b) && p.isUsed b) := by
  induction es generalizing p with
  | nil => simp
  | cons e es ih =>
      rw [List.foldl_cons, ih, isUsed_pmmInitEntry]
      simp [Bool.and_assoc, Bool.and_comm, Bool.and_left_comm]

theorem maxBlocks_foldl_pmmInitEntry (es : List MmapEntry) (p : Pmm) :
    (es.foldl pmmInitEntry p).maxBlocks = p.maxBlocks := by
  induction es generalizing p with
  | nil => rfl
  | cons e es ih =>
      rw [List.foldl_cons, ih]
      unfold pmmInitEntry pmmInitRegion
      split <;> simp

/-- The bits that `memset` sets are those of its bytes. -/
theorem test_bitmapMemset (memory : Nat → BitVec 32) (n b : Nat) :
    Bitset.test (bitmapMemset memory n) b = (decide (b < 8 * n) || Bitset.test memory b) := by
  induction n with
  | zero => simp [bitmapMemset]
  | succ n ih =>
      have hsucc : bitmapMemset memory (n + 1) = bitmapSetByte (bitmapMemset memory n) n := by
        simp [bitmapMemset, List.range_succ, List.foldl_append]
      have hmask : ∀ i, (0xFF#32).getLsbD i = decide (i < 8) := by
        intro i
        have hones : (0xFF#32 : BitVec 32) = (BitVec.allOnes 8).setWidth 32 := by decide
        rw [hones, BitVec.getLsbD_setWidth, BitVec.getLsbD_allOnes]
        simp; omega
      rw [hsucc, Bitset.test, bitmapSetByte]
      by_cases hw : b / 32 = n / 4
      · rw [hw, Function.update_self, BitVec.getLsbD_or, BitVec.getLsbD_shiftLeft, hmask,
          ← hw, ← Bitset.test, ih]
        grind
      · rw [Function.update_of_ne hw, ← Bitset.test, ih]
        congr 2
        grind

/-! ## the counter after the walk -/

/-- Number of times the walk calls `mmap_unset`. -/
def freedTotal (es : List MmapEntry) : Nat :=
  ((es.filter fun e => e.type = 1).map MmapEntry.numBlocks).sum

theorem usedBlocks_mmapUnsetBlocks (p : Pmm) (hlt : p.usedBlocks < 2 ^ 32) (first num : Nat) :
    (mmapUnsetBlocks p first num).usedBlocks < 2 ^ 32 ∧
      ((mmapUnsetBlocks p first num).usedBlocks + num) % 2 ^ 32 = p.usedBlocks := by
  induction num with
  | zero => exact ⟨hlt, Nat.mod_eq_of_lt hlt⟩
  | succ num ih =>
      rw [mmapUnsetBlocks_succ]
      change u32Sub (mmapUnsetBlocks p first num).usedBlocks 1 < _ ∧
        (u32Sub (mmapUnsetBlocks p first num).usedBlocks 1 + (num + 1)) % _ = _
      unfold u32Sub
      omega

theorem usedBlocks_mmapSetBlocks (p : Pmm) (hlt : p.usedBlocks < 2 ^ 32) (first num : Nat) :
    (mmapSetBlocks p first num).usedBlocks = (p.usedBlocks + num) % 2 ^ 32 := by
  induction num with
  | zero => exact (Nat.mod_eq_of_lt hlt).symm
  | succ num ih =>
      rw [mmapSetBlocks_succ]
      change u32 ((mmapSetBlocks p first num).usedBlocks + 1) = _
      rw [ih, u32]
      omega

theorem usedBlocks_foldl_pmmInitEntry (es : List MmapEntry) (p : Pmm)
    (hlt : p.usedBlocks < 2 ^ 32) :
    (es.foldl pmmInitEntry p).usedBlocks < 2 ^ 32 ∧
      ((es.foldl pmmInitEntry p).usedBlocks + freedTotal es) % 2 ^ 32 = p.usedBlocks := by
  induction es generalizing p with
  | nil => exact ⟨hlt, Nat.mod_eq_of_lt hlt⟩
  | cons e es ih =>
      rw [List.foldl_cons]
      by_cases ht : e.type = 1
      · have htotal : freedTotal (e :: es) = e.numBlocks + freedTotal es := by
          simp [freedTotal, ht]
        have hentry : pmmInitEntry p e = mmapUnsetBlocks p e.firstBlock e.numBlocks := by
          rw [pmmInitEntry, if_pos ht]; rfl
        obtain ⟨hlt', hsum⟩ := usedBlocks_mmapUnsetBlocks p hlt e.firstBlock e.numBlocks
        rw [hentry, htotal]
        obtain ⟨hlt'', hsum'⟩ := ih _ hlt'
        refine ⟨hlt'', ?_⟩
        omega
      · have htotal : freedTotal (e :: es) = freedTotal es := by simp [freedTotal, ht]
        rw [htotal, pmmInitEntry, if_neg ht]
        exact ih p hlt

/-! ## the state that `pmm_init` leaves -/

/-- The number of whole blocks below the end of the protected range. -/
def edgeBlock (image : KernelImage) (mbi : MultibootInfo) : Nat :=
  (image.endPhys + mbi.maxBlocks / 8) / pageSize

theorem endPhys_bounds (image : KernelImage) :
    0x100000 ≤ image.endPhys ∧ image.endPhys < 0x40000000 := by
  have hlo := image.start_le
  have hhi := image.end_lt
  unfold KernelImage.endPhys kernelBaseVirt at *
  omega

/-- The protected range starts above block 255 and does not wrap. -/
theorem edgeBlock_bounds (image : KernelImage) (mbi : MultibootInfo) :
    256 ≤ edgeBlock image mbi ∧ edgeBlock image mbi < 2 ^ 20 ∧
      u32 (image.endPhys + mbi.maxBlocks / 8) / pageSize = edgeBlock image mbi := by
  have hend := endPhys_bounds image
  have hmax := maxBlocks_lt mbi
  unfold edgeBlock u32 pageSize
  omega

/-- The state after `pmm_init` over a map with the entries `es`. -/
def pmmInitResult (image : KernelImage) (memory : Nat → BitVec 32) (mbi : MultibootInfo)
    (es : List MmapEntry) : Pmm :=
  mmapSetBlocks (es.foldl pmmInitEntry (pmmInitStart memory mbi)) 0 (edgeBlock image mbi)

/-- On a map that lists `es` the call returns, in that state. -/
theorem pmmInit_of_lists (h : mbi.Lists image memory es) (hfuel : es.length < fuel) :
    pmmInit image memory mbi fuel = .ok (pmmInitResult image memory mbi es) := by
  have hedge := (edgeBlock_bounds image mbi).2.2
  rw [pmmInit, pmmInitWalk_of_visits h hfuel]
  simp only [bind, Except.bind, pure, Except.pure, pmmDeinitRegion, hedge, pmmInitResult,
    Nat.zero_div]

/-- A call that returned ran over a map that lists some entries. -/
theorem lists_of_pmmInit (h : pmmInit image memory mbi fuel = .ok p) :
    ∃ es, mbi.Lists image memory es ∧ p = pmmInitResult image memory mbi es := by
  have hedge := (edgeBlock_bounds image mbi).2.2
  unfold pmmInit at h
  simp only [bind, Except.bind, pure, Except.pure] at h
  split at h
  · contradiction
  · next q hwalk =>
    obtain ⟨es, hes, hq⟩ := visits_of_pmmInitWalk hwalk
    refine ⟨es, hes, ?_⟩
    rw [← Except.ok.inj h, pmmDeinitRegion, hedge, hq, pmmInitResult, Nat.zero_div]

section Result

variable (image : KernelImage) (memory : Nat → BitVec 32) (mbi : MultibootInfo)
  (es : List MmapEntry)

@[simp] theorem maxBlocks_pmmInitResult :
    (pmmInitResult image memory mbi es).maxBlocks = mbi.maxBlocks := by
  rw [pmmInitResult, maxBlocks_mmapSetBlocks, maxBlocks_foldl_pmmInitEntry, pmmInitStart]

/-- How each block ends up: used below the edge of the protected range; above it
free exactly when an entry freed it, or when `memset` did not reach its bit and
the memory happened to hold a 0 there. -/
theorem isUsed_pmmInitResult (b : Nat) :
    (pmmInitResult image memory mbi es).isUsed b =
      (decide (b < edgeBlock image mbi) || (!decide (∃ e ∈ es, e.Frees b) &&
        (decide (b < 8 * (mbi.maxBlocks / 8)) || Bitset.test memory b))) := by
  have hedge := edgeBlock_bounds image mbi
  rw [pmmInitResult, isUsed_mmapSetBlocks _ (by omega), isUsed_foldl_pmmInitEntry, isUsed,
    pmmInitStart, test_bitmapMemset]
  simp

/-- The counter starts at `max_blocks`, goes down for every block an entry frees
and up for every block of the protected range. -/
theorem usedBlocks_pmmInitResult :
    ((pmmInitResult image memory mbi es).usedBlocks + freedTotal es) % 2 ^ 32 =
      (mbi.maxBlocks + edgeBlock image mbi) % 2 ^ 32 := by
  have hmax := maxBlocks_lt mbi
  have hstart : (pmmInitStart memory mbi).usedBlocks = mbi.maxBlocks := rfl
  obtain ⟨hlt, hsum⟩ := usedBlocks_foldl_pmmInitEntry es (pmmInitStart memory mbi) (by omega)
  rw [pmmInitResult, usedBlocks_mmapSetBlocks _ hlt]
  omega

theorem usedBlocks_pmmInitResult_lt :
    (pmmInitResult image memory mbi es).usedBlocks < 2 ^ 32 := by
  have hmax := maxBlocks_lt mbi
  have hstart : (pmmInitStart memory mbi).usedBlocks = mbi.maxBlocks := rfl
  have hlt := (usedBlocks_foldl_pmmInitEntry es (pmmInitStart memory mbi) (by omega)).1
  rw [pmmInitResult, usedBlocks_mmapSetBlocks _ hlt]
  exact Nat.mod_lt _ (by decide)

theorem sane_pmmInitResult : (pmmInitResult image memory mbi es).Sane := by
  have hmax := maxBlocks_lt mbi
  have hedge := edgeBlock_bounds image mbi
  refine ⟨by rw [maxBlocks_pmmInitResult]; omega, ?_⟩
  rw [isUsed_pmmInitResult]
  simp; omega

end Result

/-! ## small machines -/

/-- The 24 bytes of an entry. -/
def MmapEntry.words (e : MmapEntry) : List (BitVec 32) :=
  [BitVec.ofNat 32 e.size, BitVec.ofNat 32 e.addr, BitVec.ofNat 32 (e.addr / 2 ^ 32),
    BitVec.ofNat 32 e.len, BitVec.ofNat 32 (e.len / 2 ^ 32), BitVec.ofNat 32 e.type]

/-- A memory that is 0 but for the entries `es` from address `a` on. -/
def KernelImage.withMap (image : KernelImage) (a : Nat) (es : List MmapEntry) (i : Nat) : BitVec 32 :=
  if i < u32Sub a image.kernelEnd / 4 then 0
  else (es.flatMap MmapEntry.words).getD (i - u32Sub a image.kernelEnd / 4) 0

/-- A boot loader's information on a machine with 4 MiB of memory and a memory
map of one entry; the modules about `pmm_init` use it for their concrete runs. -/
def fourMiB : MultibootInfo where
  memLower := 0
  memUpper := 4096
  mmapLength := 24
  mmapAddr := 0x9000

/-- A kernel of 64 KiB. -/
def smallImage : KernelImage := ⟨0xC0110000, by decide, by decide⟩

end NimbleOS
