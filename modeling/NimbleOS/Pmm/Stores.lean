import NimbleOS.Pmm.Init

/-!
# NimbleOS.Pmm.Stores

Does `pmm_init` stay inside the bitmap?  The bitmap has `max_blocks / 8` bytes, and
`max_blocks` comes from `mem_lower + mem_upper`; the blocks that are freed come from
the memory map.  `pmmInitCalls` lists the calls of `mmap_unset` and `mmap_set` with
their block numbers, and `pmm_init_stores_iff` says for which memory sizes each of
them stores inside the bitmap.
-/

namespace NimbleOS

/-! ## the calls -/

/-- A call of `mmap_unset` or `mmap_set`. -/
inductive MmapCall where
  | unset (bit : Nat)
  | set (bit : Nat)

namespace MmapCall

def bit : MmapCall → Nat
  | unset bit => bit
  | set bit => bit

def call (p : Pmm) : MmapCall → Pmm
  | unset bit => mmapUnset p bit
  | set bit => mmapSet p bit

/-- The call stores the 32-bit word of its bit: its last byte is before this one. -/
def wordEnd (c : MmapCall) : Nat := 4 * (c.bit / 32) + 4

end MmapCall

/-- The calls of a loop over `num` blocks from `first` on. -/
def mmapCalls (f : Nat → MmapCall) (first num : Nat) : List MmapCall :=
  (List.range num).map fun i => f (u32 (first + i))

/-- The calls for an entry of the memory map. -/
def MmapEntry.calls (e : MmapEntry) : List MmapCall :=
  if e.type = 1 then mmapCalls .unset e.firstBlock e.numBlocks else []

/-- The calls of `pmm_init`. -/
def pmmInitCalls (image : KernelImage) (mbi : MultibootInfo) (es : List MmapEntry) :
    List MmapCall :=
  es.flatMap MmapEntry.calls ++ mmapCalls .set 0 (edgeBlock image mbi)

theorem mmapUnsetBlocks_eq_calls (p : Pmm) (first num : Nat) :
    mmapUnsetBlocks p first num = (mmapCalls .unset first num).foldl MmapCall.call p := by
  rw [mmapCalls, List.foldl_map]
  rfl

theorem mmapSetBlocks_eq_calls (p : Pmm) (first num : Nat) :
    mmapSetBlocks p first num = (mmapCalls .set first num).foldl MmapCall.call p := by
  rw [mmapCalls, List.foldl_map]
  rfl

theorem pmmInitEntry_eq_calls (p : Pmm) (e : MmapEntry) :
    pmmInitEntry p e = e.calls.foldl MmapCall.call p := by
  unfold pmmInitEntry MmapEntry.calls
  split
  · exact mmapUnsetBlocks_eq_calls p _ _
  · rfl

/-- Between the `memset` and its return, `pmm_init` makes these calls. -/
theorem pmmInitResult_eq_calls (image : KernelImage) (memory : Nat → BitVec 32)
    (mbi : MultibootInfo) (es : List MmapEntry) :
    pmmInitResult image memory mbi es =
      (pmmInitCalls image mbi es).foldl MmapCall.call (pmmInitStart memory mbi) := by
  have hentry : pmmInitEntry = fun p e => e.calls.foldl MmapCall.call p := by
    funext p e
    exact pmmInitEntry_eq_calls p e
  rw [pmmInitResult, mmapSetBlocks_eq_calls, pmmInitCalls, List.foldl_append, List.foldl_flatMap,
    hentry]

/-! ## the block numbers -/

/-- A loop below `2 ^ 32` passes the block numbers of its range. -/
theorem forall_mmapCalls_bit {f : Nat → MmapCall} (hf : ∀ b, (f b).bit = b)
    (hlt : first + num ≤ 2 ^ 32) (bound : Nat) :
    (∀ c ∈ mmapCalls f first num, c.bit < bound) ↔ num = 0 ∨ first + num ≤ bound := by
  have hbit : ∀ i < num, (f (u32 (first + i))).bit = first + i := fun i hi => by
    rw [hf, u32_of_lt (by omega)]
  simp only [mmapCalls, List.forall_mem_map, List.mem_range]
  constructor
  · intro h
    by_cases hnum : num = 0
    · exact .inl hnum
    · have hlast := h (num - 1) (by omega)
      rw [hbit _ (by omega)] at hlast
      exact .inr (by omega)
  · intro h i hi
    rw [hbit i hi]
    omega

/-- The call is at a block below `max_blocks` and stores inside the bitmap. -/
def MmapCall.Inside (mbi : MultibootInfo) (c : MmapCall) : Prop :=
  c.bit < mbi.maxBlocks ∧ c.wordEnd ≤ mbi.maxBlocks / 8

/-- Both hold of the blocks whose words are whole. -/
theorem MmapCall.inside_iff (mbi : MultibootInfo) (c : MmapCall) :
    c.Inside mbi ↔ c.bit < 32 * (mbi.maxBlocks / 32) := by
  unfold Inside wordEnd
  omega

/-! ## the two ranges of memory -/

/-- The available entries are the `mem_lower` KiB from address 0 and the `mem_upper`
KiB from 1 MiB. -/
structure DescribesMemory (mbi : MultibootInfo) (es : List MmapEntry) : Prop where
  only : ∀ e ∈ es, e.type = 1 → e.addr = 0 ∧ e.len = mbi.memLower * 1024 ∨
    e.addr = 0x100000 ∧ e.len = mbi.memUpper * 1024
  lower : mbi.memLower ≠ 0 →
    ∃ e ∈ es, e.type = 1 ∧ e.addr = 0 ∧ e.len = mbi.memLower * 1024
  upper : mbi.memUpper ≠ 0 →
    ∃ e ∈ es, e.type = 1 ∧ e.addr = 0x100000 ∧ e.len = mbi.memUpper * 1024

/-- The blocks of the two ranges, and the protected ones, are below `bound`. -/
def FitsBelow (image : KernelImage) (mbi : MultibootInfo) (bound : Nat) : Prop :=
  edgeBlock image mbi ≤ bound ∧ mbi.memLower % 2 ^ 22 / 4 ≤ bound ∧
    (mbi.memUpper % 2 ^ 22 / 4 = 0 ∨ 256 + mbi.memUpper % 2 ^ 22 / 4 ≤ bound)

instance (image : KernelImage) (mbi : MultibootInfo) (bound : Nat) :
    Decidable (FitsBelow image mbi bound) := by unfold FitsBelow; infer_instance

/-- The blocks of `n` KiB, as the code computes them. -/
theorem u32_kib (n : Nat) : u32 (n * 1024) / pageSize = n % 2 ^ 22 / 4 := by
  unfold u32 pageSize
  omega

theorem forall_entry_calls (e : MmapEntry) (bound : Nat) :
    (∀ c ∈ e.calls, c.bit < bound) ↔
      (e.type = 1 → e.numBlocks = 0 ∨ e.firstBlock + e.numBlocks ≤ bound) := by
  unfold MmapEntry.calls
  by_cases ht : e.type = 1
  · rw [if_pos ht, forall_mmapCalls_bit (fun _ => rfl) e.range_le]
    exact ⟨fun h _ => h, fun h => h ht⟩
  · rw [if_neg ht]
    exact ⟨fun _ h => absurd h ht, fun _ _ hc => nomatch hc⟩

/-- All block numbers are below the bound if the ranges fit. -/
theorem forall_pmmInitCalls_iff (hmem : DescribesMemory mbi es) (bound : Nat) :
    (∀ c ∈ pmmInitCalls image mbi es, c.bit < bound) ↔ FitsBelow image mbi bound := by
  have hedge := edgeBlock_bounds image mbi
  have hlower : ∀ e : MmapEntry, e.addr = 0 → e.len = mbi.memLower * 1024 →
      e.firstBlock = 0 ∧ e.numBlocks = mbi.memLower % 2 ^ 22 / 4 := fun e haddr hlen => by
    rw [MmapEntry.firstBlock, MmapEntry.numBlocks, haddr, hlen, u32_kib]
    exact ⟨rfl, rfl⟩
  have hupper : ∀ e : MmapEntry, e.addr = 0x100000 → e.len = mbi.memUpper * 1024 →
      e.firstBlock = 256 ∧ e.numBlocks = mbi.memUpper % 2 ^ 22 / 4 := fun e haddr hlen => by
    rw [MmapEntry.firstBlock, MmapEntry.numBlocks, haddr, hlen, u32_kib]
    exact ⟨rfl, rfl⟩
  have hsplit : (∀ c ∈ pmmInitCalls image mbi es, c.bit < bound) ↔
      (∀ e ∈ es, ∀ c ∈ e.calls, c.bit < bound) ∧
        ∀ c ∈ mmapCalls .set 0 (edgeBlock image mbi), c.bit < bound := by
    simp only [pmmInitCalls, List.forall_mem_append, List.forall_mem_flatMap]
  rw [hsplit, forall_mmapCalls_bit (fun _ => rfl) (by omega)]
  simp only [forall_entry_calls]
  constructor
  · rintro ⟨hentries, hprot⟩
    refine ⟨by omega, ?_, ?_⟩
    · by_cases hzero : mbi.memLower = 0
      · rw [hzero]
        exact Nat.zero_le _
      · obtain ⟨e, he, ht, haddr, hlen⟩ := hmem.lower hzero
        obtain ⟨hfirst, hnum⟩ := hlower e haddr hlen
        have := hentries e he ht
        omega
    · by_cases hzero : mbi.memUpper = 0
      · rw [hzero]
        exact .inl rfl
      · obtain ⟨e, he, ht, haddr, hlen⟩ := hmem.upper hzero
        obtain ⟨hfirst, hnum⟩ := hupper e haddr hlen
        have := hentries e he ht
        omega
  · rintro ⟨hprot, hlow, hup⟩
    refine ⟨fun e he ht => ?_, by omega⟩
    cases hmem.only e he ht with
    | inl h =>
        obtain ⟨hfirst, hnum⟩ := hlower e h.1 h.2
        omega
    | inr h =>
        obtain ⟨hfirst, hnum⟩ := hupper e h.1 h.2
        omega

/-- **When the stores stay inside the bitmap.**  For memory in the two ranges that
the boot loader reports, every block number is below `max_blocks` and every store
is inside the `max_blocks / 8` bytes, if and only if the ranges and the protected
blocks lie below the last whole word of the bitmap. -/
theorem pmm_init_stores_iff (image : KernelImage) (hmem : DescribesMemory mbi es) :
    (∀ c ∈ pmmInitCalls image mbi es, c.Inside mbi) ↔
      FitsBelow image mbi (32 * (mbi.maxBlocks / 32)) := by
  simp only [MmapCall.inside_iff]
  exact forall_pmmInitCalls_iff hmem _

/-- Memory without a hole: 1 MiB and 3 MiB. -/
def noHole : MultibootInfo := { fourMiB with memLower := 1024, memUpper := 3072 }

theorem noHole_describes :
    DescribesMemory noHole [⟨20, 0, 0x100000, 1⟩, ⟨20, 0x100000, 0x300000, 1⟩] where
  only := by decide
  lower := fun _ => ⟨_, List.mem_cons_self, rfl, rfl, rfl⟩
  upper := fun _ => ⟨_, List.mem_cons_of_mem _ List.mem_cons_self, rfl, rfl, rfl⟩

theorem pmm_init_stores_iff_no_hole :
    FitsBelow smallImage noHole (32 * (noHole.maxBlocks / 32)) ∧
      ∀ c ∈ pmmInitCalls smallImage noHole [⟨20, 0, 0x100000, 1⟩, ⟨20, 0x100000, 0x300000, 1⟩],
        c.Inside noHole :=
  ⟨by decide, (pmm_init_stores_iff smallImage noHole_describes).mpr (by decide)⟩

/-- On a machine with the hole below 1 MiB and some memory above it the blocks do
not fit, whatever its size: `max_blocks` leaves the hole out. -/
theorem not_fitsBelow_of_hole (image : KernelImage) (hlower : mbi.memLower ≤ 640)
    (hupper : 4 ≤ mbi.memUpper % 2 ^ 22) : ¬ FitsBelow image mbi mbi.maxBlocks := by
  rintro ⟨hprot, -, hup⟩
  have hedge := (edgeBlock_bounds image mbi).1
  unfold MultibootInfo.maxBlocks u32 pageSize at *
  omega

/-- 640 KiB and 3 MiB: the block of the last 4 KiB is 1023, `max_blocks` is 928. -/
def withLowHole : MultibootInfo := { fourMiB with memLower := 640, memUpper := 3072 }

/-- The walk clears bits behind the bitmap. -/
theorem pmm_init_stores_outside :
    DescribesMemory withLowHole [⟨20, 0, 0xA0000, 1⟩, ⟨20, 0x100000, 0x300000, 1⟩] ∧
      ∃ c ∈ pmmInitCalls smallImage withLowHole
          [⟨20, 0, 0xA0000, 1⟩, ⟨20, 0x100000, 0x300000, 1⟩],
        withLowHole.maxBlocks ≤ c.bit ∧ withLowHole.maxBlocks / 8 < c.wordEnd := by
  have hmem : DescribesMemory withLowHole
      [⟨20, 0, 0xA0000, 1⟩, ⟨20, 0x100000, 0x300000, 1⟩] :=
    { only := by decide
      lower := fun _ => ⟨_, List.mem_cons_self, rfl, rfl, rfl⟩
      upper := fun _ => ⟨_, List.mem_cons_of_mem _ List.mem_cons_self, rfl, rfl, rfl⟩ }
  refine ⟨hmem, ?_⟩
  by_contra hnone
  have hall : ∀ c ∈ pmmInitCalls smallImage withLowHole
      [⟨20, 0, 0xA0000, 1⟩, ⟨20, 0x100000, 0x300000, 1⟩], c.bit < withLowHole.maxBlocks + 32 := by
    intro c hc
    by_contra hge
    refine hnone ⟨c, hc, by omega, ?_⟩
    unfold MmapCall.wordEnd
    omega
  have hfits := (forall_pmmInitCalls_iff hmem _).mp hall
  revert hfits
  decide

end NimbleOS
