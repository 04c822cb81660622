import NimbleOS.Pmm.Init

/-!
# NimbleOS.Pmm.Walk

Which entries of the memory map the `while` loop of `pmm_init` visits, and whether
it ends.  `mmapVisited` is the trace of the loop; `EntriesFrom` lists the entries
that start inside the buffer, each where the `size` of the one before says, without
the wrap of 32-bit addresses.  The two agree unless an entry of length 0 stops the
loop from advancing, a step past 4 GiB comes back below the end of the buffer, or
`memset` and the loop itself have changed an entry before it is read.
-/

namespace NimbleOS

/-! ## the trace of the loop -/

/-- The entries that the loop visits from `mmap` on: their addresses, and what it reads there. -/
def mmapVisited (image : KernelImage) (stop : Nat) :
    (fuel mmap : Nat) → Pmm → Except Halt (List (Nat × MmapEntry))
  | 0, _, _ => .error .outOfFuel
  | fuel + 1, mmap, p =>
      if mmap < stop then
        let e := image.mmapEntryAt p.bitmap mmap
        if e.len = 0 then (mmapVisited image stop fuel mmap p).map ((mmap, e) :: ·)
        else
          let p := pmmInitEntry p e
          (mmapVisited image stop fuel (mmapNext image p mmap) p).map ((mmap, e) :: ·)
      else .ok []

theorem map_eq_ok {x : Except ε α} {f : α → β} : x.map f = .ok b ↔ ∃ a, x = .ok a ∧ f a = b := by
  cases x with
  | error e => simp [Except.map]
  | ok a => simp [Except.map]

/-- An entry of length 0 frees nothing. -/
theorem pmmInitEntry_of_len_zero (p : Pmm) (h : e.len = 0) : pmmInitEntry p e = p := by
  have hnone : u32 e.len / pageSize = 0 := by rw [h]; decide
  unfold pmmInitEntry
  split
  · rw [pmmInitRegion, hnone]
    rfl
  · rfl

/-- The loop processes the entries of its trace, in order. -/
theorem pmmInitWalk_eq_map (image : KernelImage) (stop fuel mmap : Nat) (p : Pmm) :
    pmmInitWalk image stop fuel mmap p =
      (mmapVisited image stop fuel mmap p).map fun visited =>
        (visited.map Prod.snd).foldl pmmInitEntry p := by
  induction fuel generalizing mmap p with
  | zero => rfl
  | succ fuel ih =>
      rw [pmmInitWalk, mmapVisited]
      by_cases hlt : mmap < stop
      · rw [if_pos hlt, if_pos hlt]
        dsimp only
        by_cases hlen : (image.mmapEntryAt p.bitmap mmap).len = 0
        · rw [if_pos hlen, if_pos hlen, ih]
          cases mmapVisited image stop fuel mmap p with
          | error e => rfl
          | ok visited => simp [Except.map, pmmInitEntry_of_len_zero p hlen]
        · rw [if_neg hlen, if_neg hlen, ih]
          cases mmapVisited image stop fuel _ (pmmInitEntry p (image.mmapEntryAt p.bitmap mmap)) with
          | error e => simp only [Except.map]
          | ok visited => simp only [Except.map, List.map_cons, List.foldl_cons]
      · rw [if_neg hlt, if_neg hlt]
        rfl

/-! ## the entries of the buffer -/

/-- The addresses, in order, of the entries from `mmap` on that start below `stop`. -/
inductive EntriesFrom (entryAt : Nat → MmapEntry) (stop : Nat) : Nat → List Nat → Prop where
  | done (h : stop ≤ mmap) : EntriesFrom entryAt stop mmap []
  | entry (h : mmap < stop)
      (hrest : EntriesFrom entryAt stop (mmap + (entryAt mmap).size + 4) entries) :
      EntriesFrom entryAt stop mmap (mmap :: entries)

/-- Every buffer has such a list. -/
theorem exists_entriesFrom (entryAt : Nat → MmapEntry) (stop mmap : Nat) :
    ∃ entries, EntriesFrom entryAt stop mmap entries := by
  by_cases h : mmap < stop
  · obtain ⟨entries, hrest⟩ := exists_entriesFrom entryAt stop (mmap + (entryAt mmap).size + 4)
    exact ⟨mmap :: entries, .entry h hrest⟩
  · exact ⟨[], .done (Nat.le_of_not_lt h)⟩
termination_by stop - mmap

/-- Each of them starts inside the buffer, and they are in ascending order. -/
theorem EntriesFrom.sorted (h : EntriesFrom entryAt stop mmap entries) :
    (∀ a ∈ entries, mmap ≤ a ∧ a < stop) ∧ entries.Pairwise (· < ·) := by
  induction h with
  | done => exact ⟨fun _ ha => (nomatch ha), .nil⟩
  | @entry mmap entries hlt _ ih =>
      obtain ⟨hbounds, hsorted⟩ := ih
      refine ⟨List.forall_mem_cons.mpr ⟨⟨Nat.le_refl _, hlt⟩, fun a ha => ?_⟩,
        List.pairwise_cons.mpr ⟨fun a ha => ?_, hsorted⟩⟩
      · have := hbounds a ha
        omega
      · have := (hbounds a ha).1
        omega

/-- The loop comes to the entry `e` at `a` in state `p`: it is as it was, it is not empty, and
the step behind it leads to the next entry, or out of the buffer if that has no more. -/
structure Advances (image : KernelImage) (stop : Nat) (p : Pmm) (a : Nat) (e : MmapEntry) : Prop where
  intact : image.mmapEntryAt p.bitmap a = e
  len_ne : e.len ≠ 0
  step : mmapNext image (pmmInitEntry p e) a = a + e.size + 4 ∨
    stop ≤ a + e.size + 4 ∧ stop ≤ mmapNext image (pmmInitEntry p e) a

/-- The loop advances at each of the entries, having freed those before it. -/
def AdvancesAll (image : KernelImage) (entryAt : Nat → MmapEntry) (stop : Nat) :
    Pmm → List Nat → Prop
  | _, [] => True
  | p, a :: entries =>
      Advances image stop p a (entryAt a) ∧
        AdvancesAll image entryAt stop (pmmInitEntry p (entryAt a)) entries

/-! ## when they agree -/

/-- An empty entry is visited over and over. -/
theorem mmapVisited_of_len_zero (hlt : mmap < stop)
    (hlen : (image.mmapEntryAt p.bitmap mmap).len = 0) (fuel : Nat) :
    mmapVisited image stop fuel mmap p = .error .outOfFuel := by
  induction fuel with
  | zero => rfl
  | succ fuel ih =>
      simp only [mmapVisited, if_pos hlt, if_pos hlen, ih]
      rfl

/-- Where every entry advances, the loop visits them all and ends. -/
theorem mmapVisited_of_entries (h : EntriesFrom entryAt stop mmap entries)
    (hadv : AdvancesAll image entryAt stop p entries) (hfuel : entries.length < fuel) :
    mmapVisited image stop fuel mmap p = .ok (entries.map fun a => (a, entryAt a)) := by
  induction h generalizing fuel p with
  | done hle =>
      obtain ⟨fuel, rfl⟩ := Nat.exists_eq_add_of_lt hfuel
      simp [mmapVisited, Nat.not_lt.mpr hle]
  | @entry mmap entries hlt hrest ih =>
      obtain ⟨⟨hintact, hlen, hstep⟩, hadv'⟩ := hadv
      cases fuel with
      | zero => simp at hfuel
      | succ fuel =>
          have hroom : entries.length < fuel := by simpa using hfuel
          have hnext : mmapVisited image stop fuel (mmapNext image (pmmInitEntry p (entryAt mmap)) mmap)
              (pmmInitEntry p (entryAt mmap)) = .ok (entries.map fun a => (a, entryAt a)) := by
            rcases hstep with hsame | ⟨hlast, hover⟩
            · rw [hsame]
              exact ih hadv' hroom
            · -- the step leaves the buffer
              have hnil : entries = [] := by
                cases hrest with
                | done => rfl
                | entry hlt' => omega
              obtain ⟨fuel, rfl⟩ := Nat.exists_eq_add_of_lt hroom
              simp [mmapVisited, Nat.not_lt.mpr hover, hnil]
          simp only [mmapVisited, if_pos hlt, hintact, if_neg hlen, hnext]
          rfl

/-- A trace starts with what is read at its first address. -/
theorem mmapVisited_head (h : mmapVisited image stop fuel mmap p = .ok ((a, e) :: visited)) :
    mmap = a ∧ mmap < stop ∧ image.mmapEntryAt p.bitmap mmap = e := by
  cases fuel with
  | zero => cases h
  | succ fuel =>
      rw [mmapVisited] at h
      by_cases hlt : mmap < stop
      · rw [if_pos hlt] at h
        dsimp only at h
        split at h <;>
        · obtain ⟨visited', -, hcons⟩ := map_eq_ok.mp h
          obtain ⟨hpair, -⟩ := List.cons.inj hcons
          exact ⟨congrArg Prod.fst hpair, hlt, congrArg Prod.snd hpair⟩
      · rw [if_neg hlt] at h
        cases h

/-- An empty trace ends behind the buffer. -/
theorem mmapVisited_nil (h : mmapVisited image stop fuel mmap p = .ok []) : stop ≤ mmap := by
  by_contra hback
  cases fuel with
  | zero => cases h
  | succ fuel =>
      rw [mmapVisited, if_pos (Nat.lt_of_not_le hback)] at h
      dsimp only at h
      split at h <;>
      · obtain ⟨_, _, hcons⟩ := map_eq_ok.mp h
        exact absurd hcons (List.cons_ne_nil _ _)

/-- A loop that visits exactly the entries of the buffer advances at each. -/
theorem advancesAll_of_mmapVisited (h : EntriesFrom entryAt stop mmap entries)
    (hvisited : mmapVisited image stop fuel mmap p = .ok (entries.map fun a => (a, entryAt a))) :
    AdvancesAll image entryAt stop p entries := by
  induction h generalizing fuel p with
  | done => trivial
  | @entry mmap entries hlt hrest ih =>
      obtain ⟨-, -, hintact⟩ := mmapVisited_head hvisited
      have hlen : (image.mmapEntryAt p.bitmap mmap).len ≠ 0 := by
        intro hlen
        rw [mmapVisited_of_len_zero hlt hlen] at hvisited
        cases hvisited
      cases fuel with
      | zero => cases hvisited
      | succ fuel =>
          rw [mmapVisited, if_pos hlt] at hvisited
          dsimp only at hvisited
          rw [if_neg hlen, hintact] at hvisited
          obtain ⟨visited, hnext, hcons⟩ := map_eq_ok.mp hvisited
          obtain rfl := (List.cons.inj hcons).2
          have hstep : mmapNext image (pmmInitEntry p (entryAt mmap)) mmap = mmap + (entryAt mmap).size + 4 ∨
              stop ≤ mmap + (entryAt mmap).size + 4 ∧
                stop ≤ mmapNext image (pmmInitEntry p (entryAt mmap)) mmap := by
            cases hrest with
            | done hend => exact .inr ⟨hend, mmapVisited_nil hnext⟩
            | entry hlt' _ => exact .inl (mmapVisited_head hnext).1
          refine ⟨⟨hintact, hintact ▸ hlen, hstep⟩, ?_⟩
          rcases hstep with hsame | ⟨hlast, -⟩
          · rw [hsame] at hnext
            exact ih hnext
          · cases hrest with
            | done => trivial
            | entry hlt' => omega

/-- Where the entries are clear of the bitmap, each of them has to be non-empty, and the step
behind it not to wrap to an address below `stop`. -/
theorem advancesAll_of_clear (hstop : stop < 2 ^ 32) {p : Pmm} (hp : SameBehind p.bitmap memory)
    (h : ∀ a ∈ entries, image.Clear a ∧ (image.mmapEntryAt memory a).len ≠ 0 ∧
      (a + (image.mmapEntryAt memory a).size + 4 < 2 ^ 32 ∨
        stop ≤ u32 (a + (image.mmapEntryAt memory a).size + 4))) :
    AdvancesAll image (image.mmapEntryAt memory) stop p entries := by
  induction entries generalizing p with
  | nil => trivial
  | cons a entries ih =>
      obtain ⟨⟨hclear, hlen, hstep⟩, hrest⟩ := List.forall_mem_cons.mp h
      have hafter : SameBehind (pmmInitEntry p (image.mmapEntryAt memory a)).bitmap memory :=
        fun i hi => (sameBehind_pmmInitEntry p _ i hi).trans (hp i hi)
      refine ⟨⟨hclear.mmapEntryAt hp, hlen, ?_⟩, ih hafter hrest⟩
      rw [mmapNext, hclear.mmapEntryAt hafter]
      by_cases hsmall : a + (image.mmapEntryAt memory a).size + 4 < 2 ^ 32
      · exact .inl (u32_of_lt hsmall)
      · exact .inr ⟨by omega, hstep.resolve_left hsmall⟩

/-! ## the walk of pmm_init -/

/-- The buffer of the boot loader's memory map, moved to the kernel half. -/
structure MultibootInfo.InKernelHalf (mbi : MultibootInfo) : Prop where
  start : mbi.mmapAddr + kernelBaseVirt < 2 ^ 32
  stop : mbi.mmapAddr + kernelBaseVirt + mbi.mmapLength ≤ 2 ^ 32

/-- The addresses of the entries that start inside the buffer, in order, as the boot loader has
left them in memory. -/
def MultibootInfo.HasEntries (mbi : MultibootInfo) (image : KernelImage)
    (memory : Nat → BitVec 32) (entries : List Nat) : Prop :=
  EntriesFrom (image.mmapEntryAt memory) (mbi.mmapAddr + kernelBaseVirt + mbi.mmapLength)
    (mbi.mmapAddr + kernelBaseVirt) entries

/-- `pmm_init` returns, having visited these entries. -/
def PmmInitVisits (image : KernelImage) (memory : Nat → BitVec 32) (mbi : MultibootInfo)
    (visited : List (Nat × MmapEntry)) : Prop :=
  ∃ fuel p, pmmInit image memory mbi fuel = .ok p ∧
    mmapVisited image mbi.mmapStop fuel mbi.mmapStart (pmmInitStart memory mbi) = .ok visited

/-- The loop decides whether the call returns. -/
theorem pmmInitVisits_iff (image : KernelImage) (memory : Nat → BitVec 32) :
    PmmInitVisits image memory mbi visited ↔ ∃ fuel,
      mmapVisited image mbi.mmapStop fuel mbi.mmapStart (pmmInitStart memory mbi) = .ok visited := by
  constructor
  · rintro ⟨fuel, p, -, h⟩
    exact ⟨fuel, h⟩
  · rintro ⟨fuel, h⟩
    have hwalk := pmmInitWalk_eq_map image mbi.mmapStop fuel mbi.mmapStart (pmmInitStart memory mbi)
    rw [h] at hwalk
    exact ⟨fuel, _, bind_eq_ok.mpr ⟨_, hwalk, rfl⟩, h⟩

/-- Two entries of the usual 20 bytes behind their size field at `0x9000`, the second of type 2. -/
def twoEntriesMap : Nat → BitVec 32 :=
  smallImage.withMap 0xC0009000 [⟨20, 0, 0x9F000, 1⟩, ⟨20, 0x100000, 0x300000, 2⟩]

/-- A machine without memory above 4 MiB. -/
def twoEntriesInfo : MultibootInfo where
  memLower := 636
  memUpper := 3072
  mmapLength := 48
  mmapAddr := 0x9000

theorem twoEntriesInfo_inKernelHalf : twoEntriesInfo.InKernelHalf := ⟨by decide, by decide⟩

theorem twoEntriesInfo_hasEntries :
    twoEntriesInfo.HasEntries smallImage twoEntriesMap [0xC0009000, 0xC0009018] :=
  .entry (by decide) (.entry (by decide) (.done (by decide)))

/-- The first entry has length 0. -/
def emptyEntryMap : Nat → BitVec 32 :=
  smallImage.withMap 0xC0009000 [⟨20, 0, 0, 1⟩, ⟨20, 0x100000, 0x300000, 2⟩]

end NimbleOS
