import NimbleOS.Proc.Steps

/-!
# NimbleOS.Proc.NullDirectory

A directory at physical address 0.  `proc_run_code` takes the answer 0 of `pmm_alloc_page`
for the frame of its directory.  Where the window has no page table, 0 is the frame of that
table too, and the copy of the directory goes where the table is.  Where it has one, the copy
comes out right, and the call halts in it: the page table for the code is to be cleared in
the frame of the directory that it is in.
-/

namespace NimbleOS

open Pmm Halting

/-- What a call finds: the memory manager with block 0 in use, and a well-formed directory that
has the kernel's image in a large page and maps nothing behind the heap. -/
structure AtCall (s : Vm Pmm) : Prop where
  sane : s.pmm.Sane
  wf : DirWF (fun _ _ => True) s
  closed : translate s.mem s.cr3 kernelHeapEndVirt = none
  image : s.pde kernelPageDirIndex = 0x83

/-- The memory manager answers 0 to the request for a page: it has no free block to hand out. -/
def Empty (p : Pmm) : Prop := pmmAllocPage p = .ok (0, p)

/-! ## what no store of the call reaches -/

theorem translate_frame (h : translate m cr3 virt = some (f, fl)) : f % pageSize = 0 := by
  unfold translate at h
  dsimp only at h
  split at h
  · contradiction
  · split at h
    · cases h
      unfold pageSize
      omega
    · split at h
      · cases h
        exact pageFrame_mod _
      · contradiction

/-- A walk keeps the offset in the page. -/
theorem walk_mod (h : walk m cr3 virt = some a) : a % pageSize = virt % pageSize := by
  obtain ⟨⟨f, fl⟩, htrans, rfl⟩ := Option.map_eq_some_iff.mp h
  have hf := translate_frame htrans
  change (f + virt % pageSize) % pageSize = _
  unfold pageSize at *
  omega

theorem Vm.storeAddr_eq_ok {s : Vm P} (h : s.storeAddr virt = .ok a) :
    walk s.mem s.cr3 virt = some a := by
  unfold storeAddr at h
  split at h
  · contradiction
  · unfold loadAddr at h
    split at h
    · next hw => rw [hw, Except.ok.inj h]
    · contradiction

/-- A word store at offset `4 * i` of a page changes entry `i` of one frame only. -/
theorem Vm.storeWord_entry {s s' : Vm P} (h : s.storeWord virt v = .ok s')
    (hi : virt % pageSize = 4 * i) (hj : j < pageEntries) (hne : j ≠ i) (hf : f % pageSize = 0) :
    entry s'.mem f j = entry s.mem f j := by
  obtain ⟨a, haddr, ha⟩ := bind_eq_ok.mp h
  cases ha
  have hmod := walk_mod (Vm.storeAddr_eq_ok haddr)
  refine s.mem.word_setWord_of_disjoint v ?_
  unfold pageEntries pageSize at *
  omega

/-- `paging_get_page` answers the address of the entry. -/
theorem pagingGetPage_addr {s s' : Vm Pmm} (h : pagingGetPage s virt create flags = .ok (some a, s')) :
    a = tableEntry (dirIndex virt) (tableIndex virt) := by
  unfold pagingGetPage at h
  split at h
  · contradiction
  obtain ⟨pde, -, h⟩ := bind_eq_ok.mp h
  obtain ⟨s₁, -, h⟩ := bind_eq_ok.mp h
  obtain ⟨pde', -, h⟩ := bind_eq_ok.mp h
  have hpage := (Prod.mk.inj (Except.ok.inj h)).1
  split at hpage
  · exact (Option.some.inj hpage).symm
  · contradiction

/-! ## the window's table at 0 -/

/-- The directory at `d` has a table for the window in frame 0; the kernel's image is in the
directory, and not in frame 0. -/
structure Torn (d : Nat) (s : Vm Pmm) : Prop where
  cr3 : s.cr3 = d
  window : entry s.mem d windowSlot = 3
  image : entry s.mem d kernelPageDirIndex = 0x83
  zero : entry s.mem 0 kernelPageDirIndex = 0

/-- Stores elsewhere in a page do not change it. -/
theorem Torn.storeWord {s s' : Vm Pmm} (h : Torn d s) (hd : d % pageSize = 0)
    (hi : virt % pageSize = 4 * i) (hw : i ≠ windowSlot) (hk : i ≠ kernelPageDirIndex)
    (hstore : s.storeWord virt v = .ok s') : Torn d s' where
  cr3 := (Vm.storeWord_same hstore).cr3.trans h.cr3
  window := (Vm.storeWord_entry hstore hi (by decide) (Ne.symm hw) hd).trans h.window
  image := (Vm.storeWord_entry hstore hi (by decide) (Ne.symm hk) hd).trans h.image
  zero := (Vm.storeWord_entry hstore hi (by decide) (Ne.symm hk) rfl).trans h.zero

theorem Torn.procClearSlots {s s' : Vm Pmm} (h : Torn d s) (hd : d % pageSize = 0)
    (hn : n ≤ kernelPageDirIndex) (hclear : procClearSlots s n = .ok s') : Torn d s' := by
  induction n generalizing s' with
  | zero =>
      cases hclear
      exact h
  | succ n ih =>
      obtain ⟨s₁, hfirst, hstore⟩ := bind_eq_ok.mp hclear
      have hlt : kernelPageDirIndex < windowSlot := by decide
      have hslots : windowSlot < pageEntries := by decide
      refine (ih (by omega) hfirst).storeWord hd (i := n) ?_ (by omega) (by omega) hstore
      unfold kernelHeapEndVirt pageEntries pageSize at *
      omega

theorem Torn.pagingUnmapPage {s s' : Vm Pmm} (h : Torn d s) (hd : d % pageSize = 0)
    (hunmap : pagingUnmapPage s kernelHeapEndVirt = .ok s') : Torn d s' := by
  obtain ⟨⟨page, s₁⟩, hget, hunmap⟩ := bind_eq_ok.mp hunmap
  obtain rfl := pagingGetPage_same hget
  cases page with
  | none =>
      cases hunmap
      exact h
  | some page =>
      obtain rfl := pagingGetPage_addr hget
      obtain ⟨pte, -, hstore⟩ := bind_eq_ok.mp hunmap
      exact h.storeWord hd (i := 0) (by decide) (by decide) (by decide) hstore

/-- Frame 0 is not a directory with the kernel. -/
theorem Torn.not_keepsKernel {s : Vm Pmm} (h : Torn d s) (hd : d % pageSize = 0) :
    ¬ s.KeepsKernel 0 := by
  intro hkeeps
  have hdir : dirIndex (0xC0000 * pageSize) = kernelPageDirIndex := by decide
  have hsame := hkeeps 0xC0000 (by decide) (by decide)
  have hzero : translate s.mem 0 (0xC0000 * pageSize) = none := by
    refine translate_of_absent ?_
    rw [hdir, show pageFrame 0 = 0 from rfl, h.zero]
    rfl
  have himage : walk s.mem s.cr3 (0xC0000 * pageSize) ≠ none := by
    rw [walk, translate, hdir, h.cr3, pageFrame_of_aligned hd, h.image]
    exact Option.some_ne_none _
  rw [walk, hzero] at hsame
  exact himage hsame.symm

/-! ### the copy of the directory over it -/

/-- Before byte `n` is copied: the directory is as in `m`, and the window has left frame 0,
or will leave it within the first entry. -/
structure Copying (m : ByteMem) (d n : Nat) (s : Vm Pmm) : Prop where
  cr3 : s.cr3 = d
  dir : ∀ o < pageSize, s.mem (d + o) = m (d + o)
  zero : entry s.mem 0 kernelPageDirIndex = 0
  leaves : isPresent (entry s.mem 0 0) = true →
    pageFrame (entry s.mem 0 0) ≠ 0 ∨ n < 4 ∧ ∀ i < n, s.mem i = m (d + i)

/-- The directory that is copied. -/
structure Copyable (m : ByteMem) (d : Nat) : Prop where
  self : SelfMapped m d
  window : entry m d windowSlot = 3
  image : entry m d kernelPageDirIndex = 0x83
  first : isPresent (entry m d 0) = true → pageFrame (entry m d 0) ≠ 0

theorem Copying.entry_dir {s : Vm Pmm} (h : Copying m d n s) (hj : j < pageEntries) :
    entry s.mem d j = entry m d j := by
  refine ByteMem.word_congr fun b hlo hhi => ?_
  have hbyte := h.dir (b - d) (by unfold pageEntries pageSize at *; omega)
  rwa [Nat.add_sub_cancel' (by omega)] at hbyte

theorem Copying.torn {s : Vm Pmm} (h : Copying m d n s) (hm : Copyable m d) : Torn d s where
  cr3 := h.cr3
  window := (h.entry_dir (by decide)).trans hm.window
  image := (h.entry_dir (by decide)).trans hm.image
  zero := h.zero

/-- The window shows the frame of the first entry of frame 0. -/
theorem Copying.walk_window {s : Vm Pmm} (h : Copying m d n s) (hm : Copyable m d)
    (hn : n < pageSize) (hw : walk s.mem s.cr3 (kernelHeapEndVirt + n) = some a) :
    isPresent (entry s.mem 0 0) = true ∧ a = pageFrame (entry s.mem 0 0) + n := by
  have hdir : dirIndex (kernelHeapEndVirt + n) = windowSlot := by
    unfold dirIndex kernelHeapEndVirt windowSlot pageSize at *
    omega
  have htab : tableIndex (kernelHeapEndVirt + n) = 0 := by
    unfold tableIndex kernelHeapEndVirt pageSize at *
    omega
  have hoff : (kernelHeapEndVirt + n) % pageSize = n := by
    unfold kernelHeapEndVirt pageSize at *
    omega
  have hpde : entry s.mem (pageFrame s.cr3) (dirIndex (kernelHeapEndVirt + n)) = 3 := by
    rw [hdir, h.cr3, pageFrame_of_aligned hm.self.aligned, h.entry_dir (by decide), hm.window]
  rw [walk, translate_of_table hpde (by decide) (by decide), htab, hoff,
    show pageFrame 3 = 0 from rfl] at hw
  split at hw
  · next hp =>
      rw [Option.map_some, Option.some.injEq] at hw
      exact ⟨hp, hw.symm⟩
  · contradiction

/-- The byte that is read is the directory's. -/
theorem Copying.loadByte {s : Vm Pmm} (h : Copying m d n s) (hm : Copyable m d) (hn : n < pageSize) :
    s.loadByte (u32 (0xFFFFF000 + n)) = .ok (m (d + n)) := by
  have hself : SelfMapped s.mem s.cr3 := by
    rw [h.cr3]
    exact hm.self.congr (h.entry_dir (by decide))
  have hw := walk_recursive hself (d := 1023) (by decide) hn hself.present
  rw [hself.self] at hw
  rw [u32_of_lt (by unfold pageSize at hn; omega)]
  refine bind_eq_ok.mpr ⟨_, Vm.loadAddr_of_walk hw, ?_⟩
  rw [h.cr3]
  exact congrArg Except.ok (h.dir n hn)

/-- It goes to the frame of the first entry of frame 0. -/
theorem Copying.setByte {s : Vm Pmm} (h : Copying m d n s) (hm : Copyable m d) (hn : n < pageSize)
    (hp : isPresent (entry s.mem 0 0) = true) : Copying m d (n + 1)
      { s with mem := s.mem.setByte (pageFrame (entry s.mem 0 0) + n) (m (d + n)) } := by
  have hframe := pageFrame_mod (entry s.mem 0 0)
  have hleaves := h.leaves hp
  generalize hF : pageFrame (entry s.mem 0 0) = F at *
  have haligned := hm.self.aligned
  refine ⟨h.cr3, fun o ho => ?_, ?_, fun hp' => ?_⟩
  · change (if d + o = F + n then m (d + n) else s.mem (d + o)) = _
    split
    · next heq =>
        obtain rfl : o = n := by unfold pageSize at *; omega
        rfl
    · exact h.dir o ho
  · refine Eq.trans (ByteMem.word_congr fun b hlo hhi => if_neg ?_) h.zero
    unfold kernelPageDirIndex kernelBaseVirt pageSize at *
    omega
  · by_cases hF0 : F = 0
    swap
    · -- the window has left frame 0
      have hsame : entry (s.mem.setByte (F + n) (m (d + n))) 0 0 = entry s.mem 0 0 := by
        refine ByteMem.word_congr fun b hlo hhi => if_neg ?_
        unfold pageSize at *
        omega
      rw [hsame, hF]
      exact .inl hF0
    · obtain ⟨hlt, hbytes⟩ := hleaves.resolve_left (not_not.mpr hF0)
      have hnew : ∀ i < n + 1, s.mem.setByte (F + n) (m (d + n)) i = m (d + i) := by
        intro i hi
        change (if i = F + n then m (d + n) else s.mem i) = _
        split
        · next heq =>
            obtain rfl : i = n := by omega
            rfl
        · exact hbytes i (by omega)
      by_cases hlast : n + 1 < 4
      · exact .inr ⟨hlast, hnew⟩
      · -- all of the first entry has been copied
        have hword : entry (s.mem.setByte (F + n) (m (d + n))) 0 0 = entry m d 0 := by
          unfold entry ByteMem.word
          rw [hnew _ (by omega), hnew _ (by omega), hnew _ (by omega), hnew _ (by omega)]
        rw [hword] at hp' ⊢
        exact .inl (hm.first hp')

/-- One byte. -/
theorem Copying.step {s s' : Vm Pmm} (h : Copying m d n s) (hm : Copyable m d) (hn : n < pageSize)
    (hload : s.loadByte (u32 (0xFFFFF000 + n)) = .ok v)
    (hstore : s.storeByte (u32 (kernelHeapEndVirt + n)) v = .ok s') : Copying m d (n + 1) s' := by
  obtain rfl := Except.ok.inj ((h.loadByte hm hn).symm.trans hload)
  rw [u32_of_lt (by unfold kernelHeapEndVirt pageSize at *; omega)] at hstore
  obtain ⟨a, haddr, ha⟩ := bind_eq_ok.mp hstore
  cases ha
  obtain ⟨hp, rfl⟩ := h.walk_window hm hn (Vm.storeAddr_eq_ok haddr)
  exact h.setByte hm hn hp

/-- The copy, byte after byte. -/
theorem Copying.memcpy {s s' : Vm Pmm} (h : Copying m d 0 s) (hm : Copyable m d)
    (hn : n ≤ pageSize) (hcopy : memcpy s kernelHeapEndVirt 0xFFFFF000 n = .ok s') :
    Copying m d n s' := by
  induction n generalizing s' with
  | zero =>
      cases hcopy
      exact h
  | succ n ih =>
      obtain ⟨s₁, hfirst, hbyte⟩ := bind_eq_ok.mp hcopy
      obtain ⟨v, hload, hstore⟩ := bind_eq_ok.mp hbyte
      exact (ih (by omega) hfirst).step hm hn hload hstore

theorem AtCall.ne_zero {s : Vm Pmm} (h : AtCall s) : s.cr3 ≠ 0 := by
  have hp : isPresent (s.pde kernelPageDirIndex) = true := by
    rw [h.image]
    decide
  have hne := h.wf.ne_dir kernelPageDirIndex (by decide) hp
  rw [h.image] at hne
  exact Ne.symm hne

/-- No page table is in frame 0, where the kernel's image is. -/
theorem AtCall.table_ne_zero {s : Vm Pmm} (h : AtCall s) (hd : d < 1023)
    (hne : d ≠ kernelPageDirIndex) (hp : isPresent (s.pde d) = true) : pageFrame (s.pde d) ≠ 0 := by
  have himage : isPresent (s.pde kernelPageDirIndex) = true := by
    rw [h.image]
    decide
  refine fun hzero => hne (h.wf.inj d hd _ (by decide) hp himage ?_)
  rw [h.image]
  exact hzero

theorem AtCall.withLog {s : Vm Pmm} (h : AtCall s) (l : List Alloc) :
    AtCall { s with log := l } where
  sane := h.sane
  wf := h.wf.congr rfl (fun _ _ => rfl) fun _ _ => trivial
  closed := h.closed
  image := h.image

/-- The directory at 0 is taken for granted. -/
theorem AtCall.allocDirectory {s : Vm Pmm} (h : AtCall s) (hempty : Empty s.pmm) :
    s.allocDirectory = .ok (0, { s with log := .directory 0 :: s.log }) ∧
      AtCall { s with log := .directory 0 :: s.log } := by
  have halloc : pmmAllocPage s.pmm = .ok (0, s.pmm) := hempty
  refine ⟨?_, h.withLog _⟩
  rw [Vm.allocDirectory, halloc]
  rfl

/-- **Torn**: the directory that was to be copied is left with a page table in frame 0. -/
theorem torn_clone {s : Vm Pmm} (h : AtCall s) (hempty : Empty s.pmm)
    (habs : isPresent (s.pde windowSlot) = false) :
    Torn s.cr3 ((procCloneDirectorySteps 0).final s) := by
  have hdir : dirIndex kernelHeapEndVirt = windowSlot := by decide
  have htab : tableIndex kernelHeapEndVirt = 0 := by decide
  have haligned := h.wf.self.aligned
  have hframe : TableFrame s 0 := ⟨rfl, by decide, Ne.symm h.ne_zero⟩
  have hmap := pagingMapPage_create h.wf.self (by decide : kernelHeapEndVirt % pageSize = 0)
    (by decide) (by rw [hdir]; exact habs) pageRw hempty hframe 0
  rw [hdir, htab] at hmap
  generalize hs₁ : (s.withTable windowSlot pageRw 0 s.pmm).withEntry 0 0 (pteRaw 0 pageRw) = s₁ at hmap
  have hcr3 : s₁.cr3 = s.cr3 := by rw [← hs₁]; rfl
  have hentry : ∀ f j, f % pageSize = 0 → j < pageEntries → entry s₁.mem f j =
      if f = 0 then if j = 0 then 3 else 0
      else if f = s.cr3 ∧ j = windowSlot then 3 else entry s.mem f j := by
    intro f j hf hj
    rw [← hs₁, (s.withTable windowSlot pageRw 0 s.pmm).entry_withEntry (by decide) hf (by decide) hj
      (by decide), s.entry_withTable s.pmm haligned hframe pageRw (by decide) hf hj]
    by_cases hf0 : f = 0
    · by_cases hj0 : j = 0
      · rw [if_pos ⟨hf0, hj0⟩, if_pos hf0, if_pos hj0]
        rfl
      · rw [if_neg fun hc => hj0 hc.2, if_pos hf0, if_pos hf0, if_neg hj0]
    · rw [if_neg fun hc => hf0 hc.1, if_neg hf0, if_neg hf0]
      rfl
  have hpde : ∀ j < pageEntries, entry s₁.mem s.cr3 j = if j = windowSlot then 3 else s.pde j := by
    intro j hj
    rw [hentry _ j haligned hj, if_neg h.ne_zero]
    simp only [true_and]
    rfl
  have hm : Copyable s₁.mem s.cr3 :=
    { self := h.wf.self.congr (by rw [hpde _ (by decide), if_neg (by decide)]; rfl)
      window := by rw [hpde _ (by decide), if_pos rfl]
      image := by rw [hpde _ (by decide), if_neg (by decide), h.image]
      first := by
        rw [hpde _ (by decide), if_neg (by decide)]
        exact h.table_ne_zero (by decide) (by decide) }
  have hstart : Copying s₁.mem s.cr3 0 s₁ :=
    { cr3 := hcr3
      dir := fun _ _ => rfl
      zero := by rw [hentry 0 _ rfl (by decide), if_pos rfl, if_neg (by decide)]
      leaves := fun _ => .inr ⟨by decide, fun i hi => absurd hi (Nat.not_lt_zero i)⟩ }
  rw [procCloneDirectorySteps, final_bind_of_ok _ (outcome_run_eq_ok (a := ()).mpr hmap)]
  refine final_bind _ (final_run (hstart.torn hm) fun s₂ hcopy => ?_) fun _ s₂ _ htorn => ?_
  · exact (hstart.memcpy hm (Nat.le_refl _) hcopy).torn hm
  · refine Keeps.bind (Q := Torn s.cr3) (.run fun _ _ hs hstore => ?_) (fun _ => ?_) s₂ htorn
    · exact hs.storeWord haligned (i := 1023) (by decide) (by decide) (by decide) hstore
    · exact .bind (.run fun _ _ hs hclear => hs.procClearSlots haligned (Nat.le_refl _) hclear)
        fun _ => .run fun _ _ hs hunmap => hs.pagingUnmapPage haligned hunmap

/-- The call halts where it loads that directory. -/
theorem fails_torn {s : Vm Pmm} (h : AtCall s) (hempty : Empty s.pmm)
    (habs : isPresent (s.pde windowSlot) = false) (code : Nat → BitVec 8) (len : Nat) :
    Fails (Torn s.cr3) (procBuildSpaceSteps code len) s := by
  obtain ⟨halloc, h₁⟩ := h.allocDirectory hempty
  refine .of_ok ((outcome_step _ s).trans halloc) ?_
  refine .bind (torn_clone h₁ hempty habs) fun _ s₂ _ htorn => ?_
  refine .bind (final_step htorn fun d s₃ hcurrent => ?_) fun d s₃ _ htorn₃ => ?_
  · rwa [procCurrentDirectory_same hcurrent]
  · exact .left (.run htorn₃ (pagingSwitchDirectory_loses
      (htorn₃.not_keepsKernel h.wf.self.aligned)))

/-! ## the directory at 0 -/

/-- A byte loop that halts does so with more bytes, too. -/
theorem storeBytes_error {s : Vm P} (h : storeBytes s dst f n = .error e) (hle : n ≤ m) :
    storeBytes s dst f m = .error e := by
  induction hle with
  | refl => exact h
  | step _ ih =>
      rw [storeBytes, ih]
      rfl

/-- To clear the directory as the table of its slot 0: with the first byte the slot is cleared,
and the second has nowhere to go. -/
theorem memset_over_directory {s : Vm P} (hself : SelfMapped s.mem s.cr3)
    (hpres : isPresent (s.pde 0) = true) (hframe : pageFrame (s.pde 0) = s.cr3) :
    memset s (tableEntry 0 0) 0 pageSize = .error .pageFault := by
  -- the first byte
  have hwalk := walk_recursive hself (d := 0) (o := 0) (by decide) (by decide) hpres
  rw [show pageFrame (entry s.mem s.cr3 0) = s.cr3 from hframe] at hwalk
  let s₁ : Vm P := { s with mem := s.mem.setByte (s.cr3 + 0) 0 }
  have hfirst : s.storeByte (u32 (tableEntry 0 0 + 0)) 0 = .ok s₁ :=
    bind_eq_ok.mpr ⟨_, Vm.storeAddr_of_walk hwalk (.inr (by decide)), rfl⟩
  -- the second
  have hself₁ : SelfMapped s₁.mem s₁.cr3 := by
    refine hself.congr (ByteMem.word_congr fun b hlo hhi => if_neg ?_)
    change s.cr3 + 4 * 1023 ≤ b at hlo
    omega
  have habs : isPresent (entry s₁.mem s₁.cr3 0) = false := by
    have hbyte : s₁.mem (s.cr3 + 4 * 0) = 0 := if_pos rfl
    change isPresent (s₁.mem.word (s.cr3 + 4 * 0)) = false
    rw [ByteMem.word, hbyte, isPresent, decide_eq_false_iff_not, show (0 : BitVec 8).toNat = 0 from rfl]
    omega
  have hwalk₁ : walk s₁.mem s₁.cr3 (u32 (tableEntry 0 0 + 1)) = none := by
    have hdir : dirIndex (u32 (tableEntry 0 0 + 1)) = 1023 := by decide
    have htab : tableIndex (u32 (tableEntry 0 0 + 1)) = 0 := by decide
    rw [walk, translate_of_table (by rw [hdir, pageFrame_of_aligned hself₁.aligned]) hself₁.present
      hself₁.small, hself₁.self, htab, habs]
    rfl
  have hsecond : s₁.storeByte (u32 (tableEntry 0 0 + 1)) 0 = .error .pageFault := by
    rw [Vm.storeByte, Vm.storeAddr, if_neg (by decide), Vm.loadAddr, hwalk₁]
    rfl
  have htwo : storeBytes s (tableEntry 0 0) (fun _ => 0) 2 = .error .pageFault := by
    have hone : storeBytes s (tableEntry 0 0) (fun _ => 0) 1 = .ok s₁ := hfirst
    rw [storeBytes, hone]
    exact hsecond
  exact storeBytes_error htwo (by decide)

/-- A table for slot 0 in the frame of the directory. -/
theorem pagingCreateTable_over_directory [FrameAllocator P] {s : Vm P} {p : P}
    (hself : SelfMapped s.mem s.cr3) (hlt : s.cr3 < 2 ^ 32)
    (halloc : FrameAllocator.allocPage s.pmm = .ok (s.cr3, p)) (flags : Nat) :
    pagingCreateTable s 0 flags = .error .pageFault := by
  obtain ⟨hraw, hpres, hframe⟩ := pdeRaw_word hself.aligned hlt flags
  let s₁ : Vm P := { s with pmm := p, log := .table 0 s.cr3 :: s.log }
  let s₂ : Vm P := s₁.withEntry s.cr3 0 (pdeRaw s.cr3 flags)
  have hstore : s₁.storeWord (dirEntry 0) (pdeRaw s.cr3 flags) = .ok s₂ :=
    Vm.storeWord_dirEntry (s := s₁) hself (by decide) _
  have hentry : ∀ j < pageEntries,
      entry s₂.mem s.cr3 j = if j = 0 then pdeRaw s.cr3 flags else entry s.mem s.cr3 j := by
    intro j hj
    have h := s₁.entry_withEntry hself.aligned hself.aligned (by decide : 0 < pageEntries) hj hraw
    simpa using h
  have hself₂ : SelfMapped s₂.mem s₂.cr3 := by
    refine hself.congr ?_
    rw [hentry _ (by decide), if_neg (by decide)]
  have hslot : s₂.pde 0 = pdeRaw s.cr3 flags := by
    rw [Vm.pde, show s₂.cr3 = s.cr3 from rfl, hentry _ (by decide), if_pos rfl]
  have hset : memset s₂ (tableEntry 0 0) 0 pageSize = .error .pageFault :=
    memset_over_directory hself₂ (by rw [hslot]; exact hpres) (by rw [hslot]; exact hframe)
  simp only [pagingCreateTable, Vm.allocTable, halloc, bind, Except.bind, pure, Except.pure]
  simp only [s₁, pdeRaw] at hstore
  rw [hstore]
  exact hset

/-- A page table for the window opens it on frame 0. -/
theorem AtCall.openWindow {s : Vm Pmm} (h : AtCall s) (hp : isPresent (s.pde windowSlot) = true) :
    ∃ s₁, pagingMapPage s kernelHeapEndVirt 0 pageRw = .ok s₁ ∧ Window s₁ 0 ∧ s.SameButMem s₁ ∧
      ∀ j < pageEntries, s₁.pde j = s.pde j := by
  have hdir : dirIndex kernelHeapEndVirt = windowSlot := by decide
  have htab : tableIndex kernelHeapEndVirt = 0 := by decide
  have hslot : windowSlot < 1023 := by decide
  have haligned := h.wf.self.aligned
  have hv : pteRaw 0 pageRw < 2 ^ 32 := by decide
  have htable : pageFrame (s.pde windowSlot) ≠ 0 := h.table_ne_zero hslot (by decide) hp
  -- the window is closed, and so the slot does not map a large page
  have hclosed := h.closed
  have hpde : entry s.mem (pageFrame s.cr3) (dirIndex kernelHeapEndVirt) = s.pde windowSlot := by
    rw [hdir, pageFrame_of_aligned haligned]
    rfl
  have hsmall : isLarge (s.pde windowSlot) = false := by
    rw [← Bool.not_eq_true]
    intro hlarge
    simp only [translate, hpde, hp, hlarge, Bool.not_true, Bool.false_eq_true, if_false, if_true] at hclosed
    contradiction
  have hpte : isPresent (s.pte windowSlot 0) = false := by
    rw [translate_of_table hpde hp hsmall, htab] at hclosed
    rw [← Bool.not_eq_true]
    intro hpres
    rw [Vm.pte] at hpres
    rw [if_pos hpres] at hclosed
    contradiction
  have hmap := pagingMapPage_of_table h.wf.self (by decide : kernelHeapEndVirt % pageSize = 0)
    (by decide) (by rw [hdir]; exact hp) 0 pageRw
  rw [hdir, htab, hpte, if_neg Bool.false_ne_true] at hmap
  have hpde₁ : ∀ j < pageEntries,
      (s.withEntry (pageFrame (s.pde windowSlot)) 0 (pteRaw 0 pageRw)).pde j = s.pde j :=
    fun j hj => s.pde_withEntry h.wf hslot hp (by decide) hv hj
  have hwf₁ : DirWF _ (s.withEntry (pageFrame (s.pde windowSlot)) 0 (pteRaw 0 pageRw)) :=
    h.wf.withEntry hslot hp (by decide) hv
  have hpte₁ : (s.withEntry (pageFrame (s.pde windowSlot)) 0 (pteRaw 0 pageRw)).pte windowSlot 0 =
      pteRaw 0 pageRw := by
    rw [Vm.pte, hpde₁ _ (slot_lt hslot), s.entry_withEntry (pageFrame_mod _) (pageFrame_mod _)
      (by decide) (by decide) hv, if_pos ⟨rfl, rfl⟩]
  have hsame₁ : s.SameButMem (s.withEntry (pageFrame (s.pde windowSlot)) 0 (pteRaw 0 pageRw)) :=
    ⟨rfl, rfl, rfl⟩
  generalize s.withEntry (pageFrame (s.pde windowSlot)) 0 (pteRaw 0 pageRw) = s₁ at *
  exact ⟨s₁, hmap,
    { self := hwf₁.self
      present := by rw [hpde₁ _ (slot_lt hslot), hp]
      small := by rw [hpde₁ _ (slot_lt hslot), hsmall]
      mapped := by rw [hpte₁]; decide
      frame := by rw [hpte₁]; decide
      dir := by rw [hsame₁.cr3]; exact h.ne_zero
      table := by rw [hpde₁ _ (slot_lt hslot)]; exact htable }, hsame₁, hpde₁⟩

theorem pagingMapPage_of_create_error [FrameAllocator P] {s : Vm P}
    (hself : SelfMapped s.mem s.cr3) (halign : virt % pageSize = 0) (hvirt : virt < 2 ^ 32)
    (habs : isPresent (s.pde (dirIndex virt)) = false)
    (hcreate : pagingCreateTable s (dirIndex virt) flags = .error e) (phys : Nat) :
    pagingMapPage s virt phys flags = .error e := by
  have hget : pagingGetPage s virt true flags = .error e := by
    simp [pagingGetPage, halign, s.loadWord_dirEntry hself (dirIndex_lt hvirt), habs, hcreate, bind,
      Except.bind]
  rw [pagingMapPage, hget]
  rfl

/-- The copy of a directory that has a table for the window. -/
structure NullCopy (s s' : Vm Pmm) : Prop extends s.SameButMem s' where
  self : SelfMapped s'.mem s'.cr3
  keeps : s'.KeepsKernel 0
  null : SelfMapped s'.mem 0
  first : entry s'.mem 0 0 = 0

theorem null_clone {s : Vm Pmm} (h : AtCall s) (hp : isPresent (s.pde windowSlot) = true) :
    ∃ s', procCloneDirectory s 0 = .ok s' ∧ NullCopy s s' := by
  have hdir : dirIndex kernelHeapEndVirt = windowSlot := by decide
  have htab : tableIndex kernelHeapEndVirt = 0 := by decide
  have hslot : windowSlot < 1023 := by decide
  have hnull : 0 % pageSize = 0 := by decide
  obtain ⟨s₁, hmap, hwin, hsame₁, hpde₁⟩ := h.openWindow hp
  obtain ⟨s₂, s₃, s₄, hcopy, hself, hclear, hoff, hentries⟩ := hwin.copy (by decide)
  have hwin₄ := hwin.congr hoff
  have hpde₄ : ∀ j < pageEntries, s₄.pde j = s.pde j := fun j hj =>
    (hwin.pde_eq hoff hj).trans (hpde₁ j hj)
  have hcr3₄ : s₄.cr3 = s.cr3 := hoff.cr3.trans hsame₁.cr3
  have hunmap := pagingUnmapPage_of_table hwin₄.self
    (by decide : kernelHeapEndVirt % pageSize = 0) (by decide) (by rw [hdir]; exact hwin₄.present)
  rw [hdir, htab] at hunmap
  have hv : s₄.pte windowSlot 0 - s₄.pte windowSlot 0 % 2 < 2 ^ 32 :=
    Nat.lt_of_le_of_lt (Nat.sub_le _ _) (entry_lt _ _ _)
  generalize s₄.pte windowSlot 0 - s₄.pte windowSlot 0 % 2 = v at hunmap hv
  have hne : s₄.cr3 ≠ pageFrame (s₄.pde windowSlot) := by
    rw [hcr3₄, hpde₄ _ (by decide)]
    exact Ne.symm (h.wf.ne_dir windowSlot hslot hp)
  generalize hW : pageFrame (s₄.pde windowSlot) = W at hunmap hne
  have hWmod : W % pageSize = 0 := hW ▸ pageFrame_mod _
  have honly : ∀ f j, f % pageSize = 0 → f ≠ W → j < pageEntries →
      entry (s₄.withEntry W 0 v).mem f j = entry s₄.mem f j := by
    intro f j hf hfW hj
    rw [s₄.entry_withEntry hWmod hf (by decide) hj hv, if_neg fun hc => hfW hc.1]
  have hcurrent : ∀ j < pageEntries, entry (s₄.withEntry W 0 v).mem s₄.cr3 j = s.pde j := by
    intro j hj
    rw [honly _ j hwin₄.self.aligned hne hj]
    exact hpde₄ j hj
  have hcopied : ∀ j < pageEntries, entry (s₄.withEntry W 0 v).mem 0 j =
      if j < kernelPageDirIndex then 0 else if j = 1023 then pdeRaw 0 0 else s.pde j := by
    intro j hj
    rw [honly 0 j hnull (hW ▸ Ne.symm hwin₄.table) hj, hentries j hj, hpde₁ j hj]
  refine ⟨s₄.withEntry W 0 v, bind_eq_ok.mpr ⟨s₁, hmap, bind_eq_ok.mpr ⟨s₂, hcopy,
    bind_eq_ok.mpr ⟨s₃, hself, bind_eq_ok.mpr ⟨s₄, hclear, hunmap⟩⟩⟩⟩,
    { toSameButMem := (hsame₁.trans hoff.toSameButMem).trans ⟨rfl, rfl, rfl⟩
      self := ?_
      keeps := .of_slots hnull hwin₄.self.aligned fun j hlo hhi => ?_
      null := ?_
      first := ?_ }⟩
  · exact hwin₄.self.congr (honly _ _ hwin₄.self.aligned hne (by decide))
  · have hj : j < 833 := hhi
    have hlo' : kernelPageDirIndex ≤ j := hlo
    refine Eq.trans ?_ (hcurrent j (by unfold pageEntries; omega)).symm
    rw [hcopied j (by unfold pageEntries; omega), if_neg (by omega), if_neg (by omega)]
  · have hraw := hcopied 1023 (by decide)
    rw [if_neg (by decide), if_pos rfl] at hraw
    exact ⟨hnull, by rw [hraw]; decide, by rw [hraw]; decide, by rw [hraw]; decide⟩
  · rw [hcopied 0 (by decide), if_pos (by decide)]

/-- No block that the search looks at is free. -/
theorem Empty.full (hempty : Empty p) (hs : p.Sane) (hpos : 0 < b) (hb : b < p.scanned) :
    p.isUsed b = true := by
  unfold Empty pmmAllocPage at hempty
  split at hempty
  · contradiction
  dsimp only at hempty
  split at hempty
  · next hzero =>
      have hfree := mmapFindFree_eq_zero p hzero hpos hb hs.zero_used
      rwa [isFree, Bool.not_eq_false'] at hfree
  · next hne =>
      have hlt := (mmapFindFree_spec p hne).1
      have hscan := scanned_le p
      have hmax := hs.max_le
      have haddr := (Prod.mk.inj (Except.ok.inj hempty)).1
      rw [u32_block (by omega)] at haddr
      unfold pageSize at haddr
      omega

/-- Several pages are not found either. -/
theorem Empty.allocPages (hempty : Empty p) (hs : p.Sane) (n : Nat) : pmmAllocPages p n = (0, p) := by
  rcases pmmAllocPages_cases hs.max_le hs.zero_used n with hzero | ⟨f, p', -, hn, htakes⟩
  · exact hzero
  · have hbelow := htakes.below
    have hused := hempty.full hs htakes.pos (by omega)
    rw [htakes.free f (Nat.le_refl f) (by omega)] at hused
    contradiction

/-- In the directory at 0, the page table for the code is taken from frame 0. -/
theorem fails_loadCode {s : Vm Pmm} (hcr3 : s.cr3 = 0) (hs : s.pmm.Sane) (hempty : Empty s.pmm)
    (hnull : SelfMapped s.mem 0) (hfirst : entry s.mem 0 0 = 0) (code : Nat → BitVec 8)
    (len num : Nat) : Fails (fun s' => s'.cr3 = 0) (procLoadCodeSteps code len (num + 1)) s := by
  have halloc : s.allocPages (num + 1) =
      (0, { s with pmm := s.pmm, log := .pages (num + 1) 0 :: s.log }) :=
    s.allocPages_of_answer (hempty.allocPages hs _)
  have hstep : (step fun s => .ok (s.allocPages (num + 1)) : Halting (Vm Pmm) Halt Nat).outcome s =
      .ok (0, { s with pmm := s.pmm, log := .pages (num + 1) 0 :: s.log }) := by
    rw [outcome_step, halloc]
  refine .of_ok hstep (.left (.run hcr3 (e := .pageFault) ?_))
  generalize hs' : ({ s with pmm := s.pmm, log := .pages (num + 1) 0 :: s.log } : Vm Pmm) = s'
  have hcr3' : s'.cr3 = 0 := by rw [← hs', ← hcr3]
  have hself : SelfMapped s'.mem s'.cr3 := by rw [hcr3', ← hs']; exact hnull
  have habs : isPresent (s'.pde 0) = false := by
    rw [Vm.pde, hcr3', ← hs', hfirst]
    rfl
  have hanswer : FrameAllocator.allocPage s'.pmm = .ok (s'.cr3, s'.pmm) := by
    rw [hcr3', ← hs']
    exact hempty
  have hcreate := pagingCreateTable_over_directory hself (by rw [hcr3']; decide) hanswer
    (pageUser ||| pageRw)
  have hmap := pagingMapPage_of_create_error hself (by decide : 0 % pageSize = 0) (by decide) habs
    hcreate 0
  rw [pagingMapPages, hmap]
  rfl

/-- The call halts in the directory at 0. -/
theorem fails_null {s : Vm Pmm} (h : AtCall s) (hempty : Empty s.pmm)
    (hp : isPresent (s.pde windowSlot) = true) (code : Nat → BitVec 8) (len : Nat) :
    Fails (fun s' => s'.cr3 = 0) (procBuildSpaceSteps code len) s := by
  obtain ⟨halloc, h₁⟩ := h.allocDirectory hempty
  obtain ⟨s₂, hclone, hcopy⟩ := null_clone h₁ hp
  have hpmm : s₂.pmm = s.pmm := hcopy.pmm
  refine .of_ok ((outcome_step _ s).trans halloc) ?_
  refine .of_ok ((computes_procCloneDirectory 0).outcome_of_ok hclone) ?_
  refine .of_ok ((outcome_step _ s₂).trans (procCurrentDirectory_eq hcopy.self)) ?_
  refine .of_ok (outcome_run_eq_ok (a := ()).mpr (pagingSwitchDirectory_eq_ok.mpr ⟨hcopy.keeps, rfl⟩)) ?_
  have hsane : (s₂.inDir 0).pmm.Sane := by
    rw [Vm.inDir_pmm, hpmm]
    exact h.sane
  have hempty₂ : Empty (s₂.inDir 0).pmm := by
    rw [Vm.inDir_pmm, hpmm]
    exact hempty
  exact .left (fails_loadCode rfl hsane hempty₂ hcopy.null hcopy.first code len (len / pageSize))

/-- **A null directory**: where the request for the directory is answered by 0, the call halts
with the directory changed, or another one loaded. -/
theorem fails_of_empty {s : Vm Pmm} (h : AtCall s) (hempty : Empty s.pmm) (code : Nat → BitVec 8)
    (len : Nat) : Fails (fun s' => ¬ (s'.cr3 = s.cr3 ∧ ∀ j < pageEntries, s'.pde j = s.pde j))
      (procBuildSpaceSteps code len) s := by
  by_cases hp : isPresent (s.pde windowSlot) = true
  · refine (fails_null h hempty hp code len).mono fun s' hcr3 hsame => ?_
    exact h.ne_zero (hsame.1.symm.trans hcr3)
  · rw [Bool.not_eq_true] at hp
    refine (fails_torn h hempty hp code len).mono fun s' htorn hsame => ?_
    have hslot := hsame.2 windowSlot (by decide)
    rw [Vm.pde, htorn.cr3, htorn.window] at hslot
    rw [← hslot] at hp
    contradiction

end NimbleOS
