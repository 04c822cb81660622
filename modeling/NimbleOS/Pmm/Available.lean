import NimbleOS.Pmm.Init

/-!
# NimbleOS.Pmm.Available

Is every block that `pmm_init` leaves free available memory?  The walk cuts the
64-bit `addr` and `len` of an entry to 32 bits and rounds each down to blocks, so
an entry frees the blocks of an *image* of itself.  An image stays inside its
entry except in two cases: an entry that starts below 4 GiB at an address off a
block boundary also frees the bytes between the boundary and its start, and an
entry at or above 4 GiB frees memory somewhere else.  Apart from the entries,
the bits after the last whole byte of the bitmap are never initialised.

`pmm_init_frees_available_iff` says that nothing else can go wrong.
-/

namespace NimbleOS

open Pmm

/-- Physical address `x` is available memory, in exact arithmetic. -/
def AvailableAt (es : List MmapEntry) (x : Nat) : Prop :=
  ∃ e ∈ es, e.type = 1 ∧ e.addr ≤ x ∧ x < e.addr + e.len

/-- Every byte of block `b` is available memory. -/
def AvailableBlock (es : List MmapEntry) (b : Nat) : Prop :=
  ∀ x, b * pageSize ≤ x → x < (b + 1) * pageSize → AvailableAt es x

/-- Every block below `max_blocks` that is marked free is available memory. -/
def FreesAvailable (p : Pmm) (es : List MmapEntry) : Prop :=
  ∀ b, b < p.maxBlocks → p.isFree b = true → AvailableBlock es b

/-- Block `b` is below `max_blocks` and not protected again after the walk. -/
def InPlay (image : KernelImage) (mbi : MultibootInfo) (b : Nat) : Prop :=
  edgeBlock image mbi ≤ b ∧ b < mbi.maxBlocks

/-- What the boot information has to satisfy: the memory that the code frees
beside an available entry is available through other entries. -/
structure MapSafe (image : KernelImage) (memory : Nat → BitVec 32) (mbi : MultibootInfo)
    (es : List MmapEntry) : Prop where
  /-- An entry below 4 GiB that is not block-aligned: the bytes from the block
  boundary up to its start. -/
  unaligned : ∀ e ∈ es, e.type = 1 → e.addr < 2 ^ 32 → 0 < e.numBlocks →
    InPlay image mbi e.firstBlock →
    ∀ x, e.firstBlock * pageSize ≤ x → x < e.addr → AvailableAt es x
  /-- An entry at or above 4 GiB: the blocks of its image. -/
  high : ∀ e ∈ es, 2 ^ 32 ≤ e.addr → ∀ b, e.Frees b → InPlay image mbi b → AvailableBlock es b
  /-- The last `max_blocks % 8` bits, where the memory held a 0. -/
  tail : ∀ b, 8 * (mbi.maxBlocks / 8) ≤ b → InPlay image mbi b →
    Bitset.test memory b = false → AvailableBlock es b

/-- The image of an entry below 4 GiB lies inside the entry, but for the bytes
of its first block that come before its start. -/
theorem availableAt_of_frees (he : e ∈ es) (hfrees : e.Frees b) (hlow : e.addr < 2 ^ 32)
    (hstart : b = e.firstBlock → e.addr ≤ x) (hx : b * pageSize ≤ x)
    (hx' : x < (b + 1) * pageSize) : AvailableAt es x := by
  obtain ⟨htype, hlo, hhi⟩ := hfrees
  have haddr : e.firstBlock = e.addr / pageSize := by
    rw [MmapEntry.firstBlock, u32_of_lt hlow]
  have hlen : e.numBlocks * pageSize ≤ e.len := by
    unfold MmapEntry.numBlocks u32 pageSize
    omega
  have hb : e.addr ≤ x := by
    by_cases hfirst : b = e.firstBlock
    · exact hstart hfirst
    · have : e.firstBlock + 1 ≤ b := by omega
      unfold pageSize at *
      omega
  refine ⟨e, he, htype, hb, ?_⟩
  unfold pageSize at *
  omega

section

variable (image : KernelImage) (memory : Nat → BitVec 32) (mbi : MultibootInfo)
  (es : List MmapEntry)

/-- Which blocks in play are free after `pmm_init`. -/
theorem isFree_pmmInitResult (hplay : InPlay image mbi b) :
    (pmmInitResult image memory mbi es).isFree b = true ↔
      (∃ e ∈ es, e.Frees b) ∨
        (8 * (mbi.maxBlocks / 8) ≤ b ∧ Bitset.test memory b = false) := by
  have hedge : ¬ b < edgeBlock image mbi := Nat.not_lt.mpr hplay.1
  rw [isFree_eq_true, isUsed_pmmInitResult]
  by_cases hfrees : ∃ e ∈ es, e.Frees b
  · simp [hfrees, hedge]
  · simp only [hedge, hfrees, decide_false, Bool.false_or, Bool.not_false, Bool.true_and,
      false_or]
    simp

/-- Free blocks below `max_blocks` are in play. -/
theorem inPlay_of_isFree (hlt : b < mbi.maxBlocks)
    (hfree : (pmmInitResult image memory mbi es).isFree b = true) : InPlay image mbi b := by
  refine ⟨Nat.le_of_not_lt fun hedge => ?_, hlt⟩
  rw [isFree_eq_true, isUsed_pmmInitResult] at hfree
  simp [hedge] at hfree

theorem freesAvailable_iff :
    FreesAvailable (pmmInitResult image memory mbi es) es ↔ MapSafe image memory mbi es := by
  have hmax := maxBlocks_pmmInitResult image memory mbi es
  constructor
  · intro h
    -- every block in play that the code frees is available as a whole
    have hblock : ∀ b, InPlay image mbi b → ((∃ e ∈ es, e.Frees b) ∨
        (8 * (mbi.maxBlocks / 8) ≤ b ∧ Bitset.test memory b = false)) → AvailableBlock es b :=
      fun b hplay hfree => h b (by rw [hmax]; exact hplay.2)
        ((isFree_pmmInitResult image memory mbi es hplay).mpr hfree)
    constructor
    · intro e he htype hlow hnum hplay x hx hlt
      have hfrees : e.Frees e.firstBlock := ⟨htype, Nat.le_refl _, by omega⟩
      refine hblock _ hplay (.inl ⟨e, he, hfrees⟩) x hx ?_
      rw [MmapEntry.firstBlock, u32_of_lt hlow]
      unfold pageSize
      omega
    · intro e he _ b hfrees hplay
      exact hblock b hplay (.inl ⟨e, he, hfrees⟩)
    · intro b htail hplay hclear
      exact hblock b hplay (.inr ⟨htail, hclear⟩)
  · intro h b hlt hfree
    rw [hmax] at hlt
    have hplay := inPlay_of_isFree image memory mbi es hlt hfree
    rcases (isFree_pmmInitResult image memory mbi es hplay).mp hfree with
      ⟨e, he, hfrees⟩ | ⟨htail, hclear⟩
    · by_cases hlow : e.addr < 2 ^ 32
      · intro x hx hx'
        by_cases hbefore : b = e.firstBlock ∧ x < e.addr
        · obtain ⟨rfl, hxe⟩ := hbefore
          have hnum : 0 < e.numBlocks := by have := hfrees.2.2; omega
          exact h.unaligned e he hfrees.1 hlow hnum hplay x hx hxe
        · exact availableAt_of_frees he hfrees hlow
            (fun hb => Nat.le_of_not_lt fun hxe => hbefore ⟨hb, hxe⟩) hx hx'
      · exact h.high e he (Nat.le_of_not_lt hlow) b hfrees hplay
    · exact h.tail b htail hplay hclear

end

/-- **Only available memory is freed.**  On every memory map `pmm_init` returns,
and the blocks it leaves free are available memory if and only if the map is
safe in the sense of `MapSafe`. -/
theorem pmm_init_frees_available_iff (hmap : mbi.Lists image memory es) :
    ∃ p, (∀ fuel, es.length < fuel → pmmInit image memory mbi fuel = .ok p) ∧
      (FreesAvailable p es ↔ MapSafe image memory mbi es) :=
  ⟨_, fun _ hfuel => pmmInit_of_lists hmap hfuel, freesAvailable_iff image memory mbi es⟩

/-! ## two memory maps -/

/-- The upper half of the 4 MiB is available. -/
def alignedEntry : MmapEntry where
  size := 20
  addr := 0x200000
  len := 0x200000
  type := 1

def alignedMap : Nat → BitVec 32 := smallImage.withMap 0xC0009000 [alignedEntry]

theorem alignedEntry_lists : fourMiB.Lists smallImage alignedMap [alignedEntry] :=
  Passes.lists (.entry (by decide) (by decide) (by decide) (by decide) (.done (by decide)))

theorem alignedEntry_safe : MapSafe smallImage alignedMap fourMiB [alignedEntry] := by
  constructor
  · intro e he _ _ _ _ x hx hlt
    obtain rfl : e = alignedEntry := List.mem_singleton.mp he
    simp only [MmapEntry.firstBlock, alignedEntry, u32, pageSize] at hx hlt
    omega
  · intro e he hhigh
    obtain rfl : e = alignedEntry := List.mem_singleton.mp he
    simp [alignedEntry] at hhigh
  · intro b hb hplay
    have hmax : fourMiB.maxBlocks = 1024 := by decide
    have := hplay.2
    omega

theorem pmm_init_frees_available_aligned :
    ∃ p, (∀ fuel, [alignedEntry].length < fuel →
        pmmInit smallImage alignedMap fourMiB fuel = .ok p) ∧
      FreesAvailable p [alignedEntry] := by
  obtain ⟨p, hinit, hiff⟩ := pmm_init_frees_available_iff alignedEntry_lists
  exact ⟨p, hinit, hiff.mpr alignedEntry_safe⟩

/-- One available entry that starts in the middle of block 512. -/
def unalignedEntry : MmapEntry where
  size := 20
  addr := 0x200800
  len := 0x100000
  type := 1

def unalignedMap : Nat → BitVec 32 := smallImage.withMap 0xC0009000 [unalignedEntry]

/-- Block 512 is freed although its first half is not available. -/
theorem pmm_init_frees_unavailable :
    fourMiB.Lists smallImage unalignedMap [unalignedEntry] ∧
      ∃ p, pmmInit smallImage unalignedMap fourMiB 2 = .ok p ∧ ¬ FreesAvailable p [unalignedEntry] := by
  have hmap : fourMiB.Lists smallImage unalignedMap [unalignedEntry] :=
    Passes.lists (.entry (by decide) (by decide) (by decide) (by decide) (.done (by decide)))
  refine ⟨hmap, _, pmmInit_of_lists hmap (by decide), fun h => ?_⟩
  have hsafe := (freesAvailable_iff smallImage unalignedMap fourMiB [unalignedEntry]).mp h
  have hplay : InPlay smallImage fourMiB unalignedEntry.firstBlock :=
    ⟨by decide, by decide⟩
  obtain ⟨e, he, -, hstart, -⟩ := hsafe.unaligned unalignedEntry (List.mem_singleton.mpr rfl)
    rfl (by decide) (by decide) hplay 0x200000 (by decide) (by decide)
  obtain rfl : e = unalignedEntry := List.mem_singleton.mp he
  simp [unalignedEntry] at hstart

end NimbleOS
