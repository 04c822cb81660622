import NimbleOS.Pmm.Init
import NimbleOS.Pmm.Ledger
import NimbleOS.Proc.Live

/-!
# NimbleOS.Proc.Reuse

A creation that is handed the directory in which it was called.  `proc_run_code` clears the frame
that it gets for a page table; if this is the directory that it goes back to, the kernel is not
mapped there any more (`procBuildSpace_loses_kernel`).  An exit makes this possible: it gives
back ten blocks from the page table of the stack on, and the directory of the next process may
be behind it.
-/

namespace NimbleOS

open Pmm

theorem bind_of_ok {x : Except ε α} {f : α → Except ε β} (h : x = .ok a) : x >>= f = f a := by
  rw [h]
  rfl

/-! ## the directory that is gone back to -/

/-- The loaded directory has the kernel, and the frames of the kernel's tables are in use.  Its
own frame need not be. -/
structure Loaded (s : Vm Pmm) : Prop where
  wf : DirWF (fun _ _ => True) s
  window : isPresent (s.pde windowSlot) = true
  small : isLarge (s.pde windowSlot) = false
  closed : s.tables windowPage = none
  image : s.pde kernelPageDirIndex = 0x83
  kernel : ∀ j, kernelPageDirIndex ≤ j → j < 1023 → isPresent (s.pde j) = true →
    s.pmm.Taken (pageFrame (s.pde j))

section

variable {s : Vm Pmm} (h : Loaded s) (hs : s.pmm.Sane) (ha : TableFrame s a) (htaken : s.pmm.Taken a)
  (hne : ∀ j < 1023, isPresent (s.pde j) = true → pageFrame (s.pde j) ≠ a)

include h hs ha htaken hne

/-- The directory is copied without an allocation. -/
theorem Loaded.clone : ∃ s', procCloneDirectory s a = .ok s' ∧ s'.pmm = s.pmm ∧ s'.cr3 = s.cr3 ∧
    SelfMapped s'.mem s'.cr3 ∧ s'.KeepsKernel a ∧ DirWF Pmm.Taken (s'.inDir a) ∧
    (∀ d < kernelPageDirIndex, isPresent ((s'.inDir a).pde d) = false) ∧
    (s'.inDir a).pde kernelPageDirIndex = 0x83 := by
  -- with every block marked the directory is in use, and the call asks for nothing
  obtain ⟨q, hmarks⟩ := exists_marks (fun _ => True) s.pmm
  have hall : ∀ f, q.Taken f := fun f => (hmarks.used _).mpr (.inl trivial)
  have hc : CanClone { s with pmm := q } :=
    { sane := hmarks.sane hs
      wf :=
        { self := h.wf.self
          ne_dir := h.wf.ne_dir
          inj := h.wf.inj
          dir_taken := hall _
          table_taken := fun _ _ _ => hall _ }
      small := fun _ => h.small }
  have hslot : windowPage / 1024 = windowSlot := by decide
  have hmissing : (({ s with pmm := q } : Vm Pmm).missing windowPage 1).card = 0 := by
    rw [Vm.card_missing_one, hslot]
    exact if_pos h.window
  obtain ⟨s', ws, hclone, hpmm, -, hcloned⟩ := procCloneDirectory_returns hc
    ⟨ha.aligned, ha.lt, ha.ne_dir⟩ (hall a) hne h.closed (.nil q) (List.forall_mem_nil _)
    hmissing.symm
  obtain rfl : ws = [] := List.eq_nil_iff_forall_not_mem.mpr fun t ht => by
    obtain ⟨page, flags, ⟨rfl, -⟩, hpage, -⟩ := hcloned.new.needed t ht
    have habs := (hcloned.new.absent t ht).2
    rw [← hpage, hslot] at habs
    exact Bool.false_ne_true (habs.symm.trans h.window)
  have hpde : ∀ j < pageEntries, s'.pde j = s.pde j := fun j hj =>
    hcloned.new.same j hj (List.forall_mem_nil _)
  obtain ⟨new, hlog, -, hagain⟩ := procCloneDirectory_replays a _ s' hclone
  obtain rfl : new = [] := List.append_cancel_right (hlog.symm.trans hcloned.new.log)
  have hwf := hcloned.wf_copy ha.aligned ha.lt (hpmm ▸ hall a)
  refine ⟨{ s' with pmm := s.pmm }, hagain s.pmm s.pmm (.nil _), rfl, hcloned.cr3, hcloned.wf.self,
    (hcloned.keepsKernel ha.aligned).congr rfl rfl,
    { self := hwf.self
      ne_dir := hwf.ne_dir
      inj := hwf.inj
      dir_taken := htaken
      table_taken := fun j hj hp => ?_ }, fun d hd => hcloned.absent_copy hd, ?_⟩
  · have hp' : isPresent ((s'.inDir a).pde j) = true := hp
    obtain ⟨hlo, hsame⟩ := hcloned.pde_of_present hj hp'
    rw [hsame, hpde j (slot_lt hj)] at hp'
    have hkernel := h.kernel j hlo hj hp'
    rwa [← hpde j (slot_lt hj), ← hsame] at hkernel
  · have himage := hcloned.pde_copy (j := kernelPageDirIndex) (by decide)
    rw [if_neg (Nat.lt_irrefl _), if_neg (by decide), hpde _ (by decide), h.image] at himage
    exact himage

end

/-- **Without the kernel**: a page table in the frame `d` of a directory leaves nothing of the
directory.  The slot of the kernel's image is the entry of a page that is not mapped. -/
theorem Populated.not_keepsKernel {s s' : Vm Pmm}
    (h : Populated (s.inDir a) code len s' c st tc [(767, d)]) (hlen : codeSlots len ≤ 767)
    (ha : a % pageSize = 0) (hd : d % pageSize = 0)
    (himage : (s.inDir a).pde kernelPageDirIndex = 0x83) : ¬ s'.KeepsKernel d := by
  have hdir : dirIndex (0xC0000 * pageSize) = kernelPageDirIndex := by decide
  -- the stack's table has no entry there
  obtain ⟨hpresent, -, hframe⟩ := h.slots.placed (767, d) List.mem_cons_self
  have hpage := h.space 0xBFF00 (by decide)
  have htable : s'.tables 0xBFF00 = leaf (s'.pte 767 768) :=
    Vm.tables_of_present (by decide) hpresent
  rw [if_neg (by unfold codeSlots numCodePages pageSize at *; omega), if_neg (by decide), htable,
    Vm.pte, hframe, leaf_eq_none] at hpage
  have hlost : translate s'.mem d (0xC0000 * pageSize) = none := by
    refine translate_of_absent ?_
    rw [pageFrame_of_aligned hd, hdir]
    exact hpage
  -- the new directory has the kernel's slot
  have hslot := h.pde_kernel (Nat.le_refl kernelPageDirIndex) (by decide)
  have hcr3 : s'.cr3 = a := h.cr3
  rw [himage, Vm.pde, hcr3] at hslot
  have hlarge : isPresent 0x83 = true ∧ isLarge 0x83 = true := by decide
  have hkept : translate s'.mem a (0xC0000 * pageSize) ≠ none := by
    simp only [translate, pageFrame_of_aligned ha, hdir, hslot, hlarge, Bool.not_true,
      Bool.false_eq_true, if_false, if_true]
    exact Option.some_ne_none _
  intro hkeeps
  have hsame := hkeeps 0xC0000 (by decide) (by decide)
  rw [walk, walk, hlost, hcr3, Option.map_none, eq_comm, Option.map_eq_none_iff] at hsame
  exact hkept hsame

/-- **A creation** that is handed the loaded directory for the page table of the stack does not
return: behind the `mov` to CR3 there is no code to go on with. -/
theorem procBuildSpace_loses_kernel {s : Vm Pmm} (h : Loaded s) (hs : s.pmm.Sane)
    (ys : List (Request × Nat)) (hlen : codeSlots len ≤ 767) (hdir : a ≠ s.cr3)
    (hne : ∀ j < 1023, isPresent (s.pde j) = true → pageFrame (s.pde j) ≠ a)
    (hreq : ys.map Prod.fst = codeRequests len ++ [.pages procKernelStackPages])
    (hnz : ∀ y ∈ (.page, a) :: (ys ++ [(.page, s.cr3)]), y.2 ≠ 0)
    (hanswers : Run Request.Answers s.pmm ((.page, a) :: (ys ++ [(.page, s.cr3)])) p')
    (code : Nat → BitVec 8) : procBuildSpace s code len = .error .kernelUnmapped := by
  obtain ⟨ha, hnz⟩ := List.forall_mem_cons.mp hnz
  cases hanswers with
  | @cons _ _ p₁ _ _ hcall hanswers =>
  -- the directory
  obtain ⟨b, t, halloc, hmem, hcr3, rfl, -, halign, hlt, hsane, hdraws⟩ :=
    allocDirectory_returns hs ⟨a, ha, hcall⟩
  have hdrawn := hdraws.run
  cases hdrawn with
  | cons hdraw _ =>
  obtain rfl : a = b := (Prod.mk.inj (Except.ok.inj (hcall.symm.trans hdraw))).1
  have hnew : ∀ e ∈ [Alloc.directory a], e.addr ≠ 0 := List.forall_mem_singleton.mpr ha
  have hpde : ∀ j, t.pde j = s.pde j := Vm.pde_of_same hmem hcr3
  have hloaded : Loaded t :=
    { wf := h.wf.congr hcr3 (fun j _ => hpde j) fun _ _ => trivial
      window := by rw [hpde]; exact h.window
      small := by rw [hpde]; exact h.small
      closed := by rw [Vm.tables_of_same hmem hcr3]; exact h.closed
      image := by rw [hpde]; exact h.image
      kernel := fun j hlo hj hp => by
        rw [hpde] at hp ⊢
        exact hdraws.keeps hs hnew (h.kernel j hlo hj hp) }
  have htaken : t.pmm.Taken a :=
    hdraws.taken hs hnew (List.mem_singleton_self _) (mem_blocks_directory a)
  obtain ⟨s₂, hclone, hpmm, hcr3₂, hself, hkeeps, hwf, habs, himage⟩ := hloaded.clone hsane
    ⟨halign, hlt, hcr3 ▸ hdir⟩ htaken fun j hj hp => by rw [hpde] at hp ⊢; exact hne j hj hp
  -- code and stack
  have hend : numCodePages len ≤ stackPage := by
    unfold codeSlots numCodePages stackPage pageSize at *
    omega
  have hlast : stackRequests len = [.pages procKernelStackPages, .page] := by
    rw [stackRequests, if_pos hlen]
  have hrequests : (ys ++ [(Request.page, s.cr3)]).map Prod.fst =
      codeRequests len ++ stackRequests len := by
    rw [List.map_append, hreq, hlast, List.append_assoc]
    rfl
  rw [← hpmm] at hanswers hsane
  obtain ⟨s₃, s₄, c, st, tc, tk, hload, hstack, -, hpop⟩ := populate_returns (t := s₂.inDir a) hsane
    habs hend hwf code (granted_iff_answers.mpr ⟨_, hrequests, hnz, hanswers⟩)
  -- the stack's table is the directory
  have htk := hpop.stackTables
  rw [if_pos hlen] at htk
  obtain ⟨⟨d, b⟩, rfl⟩ := List.length_eq_one_iff.mp htk
  obtain rfl : d = 767 := hpop.stackSlot (d, b) (List.mem_singleton_self _)
  have howned := Space.owned_requests (o := ⟨a, c, st, [], tc, [(767, b)]⟩) hpop.codeTables
    hpop.stackTables
  have haddr := congrArg List.getLast?
    (answers_of_draws howned hpop.draws.run hanswers hrequests).2
  rw [List.map_reverse, List.getLast?_reverse, List.map_append, List.map_singleton,
    List.getLast?_concat] at haddr
  obtain rfl : b = s.cr3 := Option.some.inj haddr
  have hlost := hpop.not_keepsKernel hlen halign h.wf.self.aligned himage
  have hback : s₂.cr3 = s.cr3 := hcr3₂.trans hcr3
  have hcurrent := hback ▸ procCurrentDirectory_eq hself
  have hswitch : pagingSwitchDirectory s₂ a = .ok (s₂.inDir a) :=
    pagingSwitchDirectory_eq_ok.mpr ⟨hkeeps, rfl⟩
  have hreset := pagingSwitchDirectory_loses hlost
  calc procBuildSpace s code len
      = pagingSwitchDirectory s₄ s.cr3 >>= fun s => pure (a, s) :=
        (bind_of_ok halloc).trans ((bind_of_ok hclone).trans ((bind_of_ok hcurrent).trans
          ((bind_of_ok hswitch).trans ((bind_of_ok hload).trans (bind_of_ok hstack)))))
    _ = .error .kernelUnmapped := by rw [hreset]; rfl

/-! ## the blocks of the small machine -/

/-- Of 2048 blocks these are used, and so many are counted. -/
structure Uses (U : Nat → Prop) (c : Nat) (p : Pmm) : Prop where
  maxBlocks : p.maxBlocks = 2048
  usedBlocks : p.usedBlocks = c
  used : ∀ b, p.isUsed b = true ↔ U b

namespace Uses

variable {p : Pmm} (h : Uses U c p)

include h

theorem congr (hc : c = c') (hU : ∀ b, U b ↔ V b) : Uses V c' p where
  maxBlocks := h.maxBlocks
  usedBlocks := hc ▸ h.usedBlocks
  used := fun b => (h.used b).trans (hU b)

theorem sane (h0 : U 0) : p.Sane :=
  ⟨by rw [h.maxBlocks]; decide, (h.used 0).mpr h0⟩

theorem free (hb : ¬ U b) : p.isFree b = true := by
  rw [isFree_eq_true, ← Bool.not_eq_true, h.used]
  exact hb

/-- **A request** is granted at the leftmost run of free blocks that is long enough. -/
theorem answers (h0 : U 0) (r : Request) (hr : 0 < r.size) (hc : c + r.size ≤ 2048) (hf : 0 < f)
    (hlast : f + r.size ≤ 2048) (hfree : ∀ b, f ≤ b → b < f + r.size → ¬ U b)
    (hleast : ∀ g < f, ∃ b, g ≤ b ∧ b < g + r.size ∧ U b) :
    ∃ p', Request.Answers p (r, f * pageSize) p' ∧
      Uses (fun b => (f ≤ b ∧ b < f + r.size) ∨ U b) (c + r.size) p' := by
  have hs := h.sane h0
  have hscan : p.scanned = 2048 := by rw [scanned, h.maxBlocks]
  have hleft : FirstFit.IsLeftmost p.isFree p.scanned r.size f :=
    { within := by rw [hscan]; exact hlast
      fits := fun b hlo hhi => h.free (hfree b hlo hhi)
      least := fun g hg hfits => by
        obtain ⟨b, hlo, hhi, hb⟩ := hleast g hg
        have hfree := (isFree_eq_true p).mp (hfits b hlo hhi)
        rw [(h.used b).mpr hb] at hfree
        cases hfree }
  have htakes : Takes p f r.size (mmapSetBlocks p f r.size) :=
    { pos := hf
      below := hleft.within
      free := fun b hlo hhi => (isFree_eq_true p).mp (hleft.fits b hlo hhi)
      result := rfl }
  have hcredit : r.size ≤ p.credit := by
    rw [Pmm.credit, h.maxBlocks, h.usedBlocks, u32Sub_of_le (by omega) (by omega)]
    omega
  have haddr : f * pageSize ≠ 0 := by unfold pageSize; omega
  refine ⟨_, ?_, by rw [htakes.maxBlocks_eq, h.maxBlocks], ?_, fun b => ?_⟩
  · cases r with
    | page =>
        have hfind : mmapFindFree p = f := by
          rw [mmapFindFree_eq_leftmost p hs.zero_used]
          exact hleft.leftmost_eq _ hr
        exact (pmmAllocPage_grants_iff hs haddr).mpr ⟨hcredit, by rw [hfind], by rw [hfind]; exact htakes⟩
    | pages num =>
        have hfind : mmapFindFreeFrame p num = f := by
          have hnum : 0 < num := hr
          rw [mmapFindFreeFrame_eq_leftmost p hs.zero_used hnum]
          exact hleft.leftmost_eq _ hnum
        exact congrArg Except.ok ((pmmAllocPages_grants_iff hs haddr).mpr
          ⟨hcredit, by rw [hfind], by rw [hfind]; exact htakes⟩)
  · have hcount := h.usedBlocks
    rw [usedBlocks_mmapSetBlocks p (by omega), hcount, Nat.mod_eq_of_lt (by omega)]
  · rw [htakes.isUsed_eq hs.max_le, Bool.or_eq_true, decide_eq_true_iff, h.used]

/-- **Blocks** are given back. -/
theorem unset (hf : f + n ≤ 2048) (hn : n ≤ c) (hc : c ≤ 2048) :
    Uses (fun b => ¬ (f ≤ b ∧ b < f + n) ∧ U b) (c - n) (mmapUnsetBlocks p f n) where
  maxBlocks := by rw [maxBlocks_mmapUnsetBlocks, h.maxBlocks]
  usedBlocks := by
    have hcount := h.usedBlocks
    obtain ⟨hlt, hsum⟩ := usedBlocks_mmapUnsetBlocks p (by omega) f n
    omega
  used := fun b => by
    rw [isUsed_mmapUnsetBlocks p (by omega), Bool.and_eq_true, Bool.not_eq_true',
      decide_eq_false_iff_not, h.used]

end Uses

/-- The kernel's heap is in its place, and below it the first `n` blocks are used. -/
def Filled (n : Nat) : Pmm → Prop := Uses (fun b => b < n ∨ (256 ≤ b ∧ b < 1281)) (n + 1025)

/-- Answers one behind the other, from the block `n` on. -/
def consecutive (n : Nat) : List Request → List (Request × Nat)
  | [] => []
  | r :: rs => (r, n * pageSize) :: consecutive (n + r.size) rs

theorem map_fst_consecutive (n : Nat) (rs : List Request) : (consecutive n rs).map Prod.fst = rs := by
  induction rs generalizing n with
  | nil => rfl
  | cons r rs ih => rw [consecutive, List.map_cons, ih]

/-- Requests are granted one behind the other, as long as they fit below the heap. -/
theorem Filled.answers {p : Pmm} (h : Filled n p) (hn : 0 < n) (rs : List Request)
    (hsize : ∀ r ∈ rs, 0 < r.size) (hlast : n + (rs.map Request.size).sum ≤ 256) :
    ∃ p', Run Request.Answers p (consecutive n rs) p' ∧
      Filled (n + (rs.map Request.size).sum) p' := by
  induction rs generalizing p n with
  | nil => exact ⟨p, .nil p, h⟩
  | cons r rs ih =>
      obtain ⟨hr, hrs⟩ := List.forall_mem_cons.mp hsize
      rw [List.map_cons, List.sum_cons] at hlast
      obtain ⟨p₁, hanswer, h₁⟩ := Uses.answers h (.inl hn) r hr (by omega) hn (by omega)
        (fun b hlo hhi => by omega) fun g hg => ⟨g, Nat.le_refl g, by omega, .inl hg⟩
      have hfilled : Filled (n + r.size) p₁ := h₁.congr (by omega) fun b => by omega
      obtain ⟨p', hanswers, h'⟩ := ih hfilled (by omega) hrs (by omega)
      rw [List.map_cons, List.sum_cons, ← Nat.add_assoc]
      exact ⟨p', .cons hanswer hanswers, h'⟩

/-- What `paging_init` takes on the small machine. -/
theorem bootVm_filled : ∃ s₀, pagingInit bootVm 0x100000 = .ok s₀ ∧ bootVm.Succeeds s₀ ∧
    Filled 4 s₀.pmm := by
  have h : Uses (fun b => b = 0 ∨ b = 256) 2 bootPmm :=
    ⟨rfl, rfl, fun b => by rw [bootPmm_isUsed, decide_eq_true_iff]⟩
  obtain ⟨p₁, hpage, h₁⟩ := h.answers (.inl rfl) .page (by decide) (by decide) Nat.one_pos (by decide)
    (fun b hlo hhi => by rw [Request.size] at hhi; omega) fun g hg => ⟨g, Nat.le_refl g, by
      rw [Request.size]; omega, by omega⟩
  have hsize : (Request.pages heapPages).size = 1024 := by decide
  obtain ⟨p₂, hheap, h₂⟩ := h₁.answers (f := 257) (.inr (.inl rfl)) (.pages heapPages) (by decide)
    (by decide) (by decide) (by decide) (fun b hlo _ => by rw [Request.size]; omega) fun g hg =>
      ⟨256, by omega, by rw [hsize]; omega, .inr (.inr rfl)⟩
  have hfilled : Filled 2 p₂ := h₂.congr rfl fun b => by
    rw [hsize, Request.size]
    omega
  obtain ⟨p', htables, hfilled'⟩ := hfilled.answers (by decide) [.page, .page] (by decide) (by decide)
  have hgrant : Run Request.Granted bootVm.pmm bootRequests p' := granted_iff_answers.mpr
    ⟨_, rfl, by decide, .cons hpage (.cons hheap htables)⟩
  obtain ⟨s₀, hinit, hsucc, rfl⟩ := pagingInit_of_granted bootVm_boot hgrant
  exact ⟨s₀, hinit, hsucc, hfilled'⟩

/-- Where a process of 128 bytes has its directory and its page tables. -/
structure Lies (n w : Nat) (o : Space) : Prop where
  window : o.window.length = w
  windowTable : ∀ t ∈ o.window, t.2 = (n + 1) * pageSize
  directory : o.directory = n * pageSize
  codeTables : o.codeTables = [(0, (n + w + 2) * pageSize)]
  stackTables : o.stackTables = [(767, (n + w + 13) * pageSize)]

theorem Built.lies {s s' : Vm Pmm} {o : Space} (hb : Built s code 128 s' o) (h : Filled n s.pmm)
    (hn : 0 < n) (hlast : n + 15 ≤ 256) (hw : (windowRequests s).length = w) :
    Filled (n + w + 14) s'.pmm ∧ Lies n w o := by
  have hw1 : w = 0 ∨ w = 1 := by
    rw [← hw, windowRequests]
    split
    · exact .inl rfl
    · exact .inr rfl
  have hwindow : o.window.length = w := by rw [← hw, ← hb.length_window, List.length_replicate]
  have hreq : procRequests s 128 =
      .page :: (List.replicate w .page ++ [.pages 1, .page, .pages 10, .page]) := by
    rw [procRequests, ← hb.length_window, hwindow]
    rfl
  have hsize : ((procRequests s 128).map Request.size).sum = w + 14 := by
    rw [hreq]
    rcases hw1 with rfl | rfl <;> rfl
  -- the answers, and what the log has of them
  obtain ⟨p', hanswers, hfilled⟩ := h.answers hn (procRequests s 128) (procRequests_pos s 128) (by
    omega)
  obtain ⟨hzip, haddr⟩ := answers_of_draws hb.requests hb.draws.run hanswers
    (map_fst_consecutive n _)
  have hdrawn := (draws_iff_answers hb.requests).mp hb.draws.run
  rw [← hzip] at hdrawn
  obtain ⟨-, rfl⟩ := answers_unique hanswers hdrawn rfl
  rw [hsize, ← Nat.add_assoc] at hfilled
  refine ⟨hfilled, ?_⟩
  obtain ⟨⟨d, a⟩, htc⟩ := List.length_eq_one_iff.mp (hb.codeTables : o.codeTables.length = 1)
  obtain ⟨⟨e, b⟩, htk⟩ := List.length_eq_one_iff.mp (hb.stackTables : o.stackTables.length = 1)
  have hd : d = 0 := Nat.lt_one_iff.mp (hb.codeSlot (d, a) (by rw [htc]; exact List.mem_singleton_self _))
  have he : e = 767 := hb.stackSlot (e, b) (by rw [htk]; exact List.mem_singleton_self _)
  rw [hreq, Space.allocs, Space.owned, htc, htk] at haddr
  rcases hw1 with rfl | rfl
  · have hnil := List.eq_nil_of_length_eq_zero hwindow
    simp only [hnil, List.map_nil, List.nil_append, List.replicate_zero, consecutive, Request.size,
      List.cons_append, List.reverse_cons, List.reverse_nil, List.map_cons, Alloc.addr, Nat.add_assoc,
      Nat.reduceAdd, List.cons.injEq, and_true] at haddr
    obtain ⟨hdir, -, rfl, -, rfl⟩ := haddr
    exact ⟨hwindow, fun t ht => (List.not_mem_nil (hnil ▸ ht)).elim, hdir, by rw [htc, hd],
      by rw [htk, he]⟩
  · obtain ⟨u, hu⟩ := List.length_eq_one_iff.mp hwindow
    simp only [hu, List.map_cons, List.map_nil, List.cons_append, List.nil_append, List.replicate_one,
      consecutive, Request.size, List.reverse_cons, List.reverse_nil, Alloc.addr, Nat.add_assoc,
      Nat.reduceAdd, List.cons.injEq, and_true] at haddr
    obtain ⟨hdir, hwin, -, rfl, -, rfl⟩ := haddr
    exact ⟨hwindow, fun t ht => (List.mem_singleton.mp (hu ▸ ht)) ▸ hwin, hdir, by rw [htc, hd],
      by rw [htk, he]⟩

/-! ### what the exit gives back -/

/-- Two processes, of which the first has exited. -/
def Emptied : Pmm → Prop :=
  Uses (fun b => (b < 33 ∧ b ≠ 4 ∧ b ≠ 7 ∧ (b < 18 ∨ 28 ≤ b)) ∨ (256 ≤ b ∧ b < 1281)) 1046

theorem Filled.emptied {p : Pmm} (h : Filled 33 p) :
    Emptied (pmmFreePage (pmmFreePages (pmmFreePages p (7 * pageSize) 1) (18 * pageSize) 10)
      (4 * pageSize)) := by
  have hblock : ∀ b, b * pageSize / pageSize = b := fun b => Nat.mul_div_cancel b (by decide)
  rw [pmmFreePage, pmmFreePages, pmmFreePages, hblock, hblock, hblock,
    ← mmapUnsetBlocks_one _ (by decide)]
  have hcode := Uses.unset h (f := 7) (n := 1) (by decide) (by decide) (by decide)
  have hstack := hcode.unset (f := 18) (n := 10) (by decide) (by decide) (by decide)
  have hdir := hstack.unset (f := 4) (n := 1) (by decide) (by decide) (by decide)
  exact hdir.congr rfl fun b => by omega

/-- The second directory is behind the page table of the first stack: its block is free, and the
fifth request is granted with it. -/
theorem Emptied.answers {p : Pmm} (h : Emptied p) :
    ∃ p', Run Request.Answers p [(.page, 4 * pageSize), (.pages 1, 7 * pageSize),
      (.page, 18 * pageSize), (.pages 10, 33 * pageSize), (.page, 19 * pageSize)] p' := by
  have hsize : Request.page.size = 1 ∧ (Request.pages 1).size = 1 ∧ (Request.pages 10).size = 10 :=
    ⟨rfl, rfl, rfl⟩
  obtain ⟨p₁, hdir, h₁⟩ := Uses.answers h (f := 4) (by decide) .page (by decide) (by decide) (by decide)
    (by decide) (fun b hlo hhi => by omega) fun g hg => ⟨g, by omega, by omega, by omega⟩
  obtain ⟨p₂, hcode, h₂⟩ := h₁.answers (f := 7) (by decide) (.pages 1) (by decide) (by decide)
    (by decide) (by decide) (fun b hlo hhi => by omega) fun g hg => ⟨g, by omega, by omega, by omega⟩
  obtain ⟨p₃, htable, h₃⟩ := h₂.answers (f := 18) (by decide) .page (by decide) (by decide) (by decide)
    (by decide) (fun b hlo hhi => by omega) fun g hg => ⟨g, by omega, by omega, by omega⟩
  obtain ⟨p₄, hstack, h₄⟩ := h₃.answers (f := 33) (by decide) (.pages 10) (by decide) (by decide)
    (by decide) (by decide) (fun b hlo hhi => by omega) fun g hg => by
      by_cases hlow : g ≤ 18
      · exact ⟨g, by omega, by omega, by omega⟩
      · exact ⟨max g 28, by omega, by omega, by omega⟩
  obtain ⟨p₅, hlast, -⟩ := h₄.answers (f := 19) (by decide) .page (by decide) (by decide) (by decide)
    (by decide) (fun b hlo hhi => by omega) fun g hg => ⟨g, by omega, by omega, by omega⟩
  exact ⟨p₅, .cons hdir (.cons hcode (.cons htable (.cons hstack (.single hlast))))⟩

/-! ### the two directories -/

section

variable {s s' : Vm Pmm} {o : Space} (hb : Built s code 128 s' o) (hl : Lies n w o)

include hb hl

/-- The slots of code and stack. -/
theorem Lies.slots (hs : s.pmm.Sane) :
    pageFrame ((s'.inDir o.directory).pde 0) = (n + w + 2) * pageSize ∧
      pageFrame ((s'.inDir o.directory).pde 767) = (n + w + 13) * pageSize ∧
      ∀ j < kernelPageDirIndex, isPresent ((s'.inDir o.directory).pde j) = true →
        n + w < pageFrame ((s'.inDir o.directory).pde j) / pageSize := by
  have htables : o.tables = [(767, (n + w + 13) * pageSize), (0, (n + w + 2) * pageSize)] := by
    rw [Space.tables, hl.stackTables, hl.codeTables]
    rfl
  have hframe : ∀ t ∈ o.tables, pageFrame ((s'.inDir o.directory).pde t.1) = t.2 := fun t ht => by
    obtain ⟨halign, hlt⟩ := hb.table_aligned hs ht
    rw [(hb.user t ht).2]
    exact (pdeRaw_fields halign hlt (by decide : MapFlags 6)).2.2.2.1
  refine ⟨hframe (0, _) (by rw [htables]; simp), hframe (767, _) (by rw [htables]; simp),
    fun j hj hp => ?_⟩
  rcases hb.pde_new hj with hzero | ⟨t, ht, rfl, -⟩
  · rw [hzero] at hp
    cases hp
  · rw [hframe t ht]
    rw [htables, List.mem_cons, List.mem_singleton] at ht
    rcases ht with rfl | rfl
    · rw [Nat.mul_div_cancel _ (by decide)]
      omega
    · rw [Nat.mul_div_cancel _ (by decide)]
      omega

/-- The slots of the directory that is copied. -/
theorem Lies.kernel_slots (hj : j < 1023) :
    s'.pde j = s.pde j ∨ pageFrame (s'.pde j) / pageSize = n + 1 := by
  by_cases hnew : ∃ t ∈ o.window, t.1 = j
  · obtain ⟨t, ht, rfl⟩ := hnew
    obtain ⟨-, -, hframe⟩ := hb.window.placed t ht
    rw [hframe, hl.windowTable t ht, Nat.mul_div_cancel _ (by decide)]
    exact .inr rfl
  · exact .inl (hb.window.same j (slot_lt hj) fun t ht heq => hnew ⟨t, ht, heq⟩)

end

/-- Blocks of the kernel's page tables: of `paging_init`, and of the window. -/
def KernelBlock (b : Nat) : Prop := b < 4 ∨ b = 5 ∨ (256 ≤ b ∧ b < 1281)

/-- The tables of the kernel are there after the first creation. -/
theorem Lies.kernelBlock {s s' : Vm Pmm} {o : Space} (hl : Lies 4 1 o) (hb : Built s code 128 s' o)
    (hwf : DirWF Pmm.Taken s) (hfilled : Filled 4 s.pmm) (hj : j < 1023)
    (hp : isPresent (s'.pde j) = true) : KernelBlock (pageFrame (s'.pde j) / pageSize) := by
  rcases hl.kernel_slots hb hj with hold | hnew
  · rw [hold] at hp ⊢
    exact ((hfilled.used _).mp (hwf.table_taken j hj hp)).imp_right .inr
  · exact .inr (.inl hnew)

/-- A creation moves the heap pointer behind the process and its kernel stack. -/
theorem procRunCode_heap {k k' : Kernel} (hpos : 0 < k.heapPointer)
    (hroom : k.heapPointer + (sizeofProcess + pageSize) < kernelHeapEndVirt)
    (hrun : procRunCode k code len = .ok k') :
    k'.heapPointer = k.heapPointer + (sizeofProcess + pageSize) := by
  obtain ⟨hprocess, -, hheap⟩ := kmallocs_succeed hpos hroom
  exact (procRunCode_heapPointer hprocess hrun).trans hheap

/-- Two processes on the small machine, the directories of which are in the blocks 4 and 19. -/
structure TwoLie (k : Kernel) (h : History) (a b : Nat) : Prop where
  tracks : Tracks k h
  ring : h.ring = [a, b]
  spaces : ∃ ds, Spaces 0x100000 k ds
  heap : k.heapPointer = kernelHeapBaseVirt + (sizeofProcess + pageSize) + (sizeofProcess + pageSize)
  filled : Filled 33 k.vm.pmm
  first : ∃ pid stack, k.fixedOf a = some (newProcess pid 128 stack (4 * pageSize))
  second : ∃ pid stack, k.fixedOf b = some (newProcess pid 128 stack (19 * pageSize))
  code : pageFrame (entry k.vm.mem (4 * pageSize) 0) = 7 * pageSize
  stack : pageFrame (entry k.vm.mem (4 * pageSize) 767) = 18 * pageSize
  low : ∀ j < kernelPageDirIndex, isPresent (entry k.vm.mem (19 * pageSize) j) = true →
    19 < pageFrame (entry k.vm.mem (19 * pageSize) j) / pageSize
  high : ∀ j, kernelPageDirIndex ≤ j → j < 1023 →
    isPresent (entry k.vm.mem (19 * pageSize) j) = true →
      KernelBlock (pageFrame (entry k.vm.mem (19 * pageSize) j) / pageSize)
  image : entry k.vm.mem (19 * pageSize) kernelPageDirIndex = 0x83

theorem twoLie : ∃ s₀ k h b, pagingInit bootVm 0x100000 = .ok s₀ ∧
    Run SchedStep (bootKernel s₀ 0) [.create (fun _ => 0x90) 128, .create (fun _ => 0x90) 128] k ∧
      (bootKernel s₀ 0).vm.Succeeds k.vm ∧ TwoLie k h kernelHeapBaseVirt b := by
  obtain ⟨s₀, k₁, k, ds, hinit, hsucc, hrun₁, hsucc₁, hrun₂, hsucc₂, hspaces₂⟩ := twoCreated
  obtain ⟨s₀', hinit', -, hfilled₀⟩ := bootVm_filled
  obtain rfl := Except.ok.inj (hinit.symm.trans hinit')
  have hbooted := pagingInit_booted bootVm_boot hinit hsucc
  have hspaces₀ := hbooted.spaces 0
  obtain ⟨d₁, hspaces₁⟩ := hspaces₀.create hrun₁ hsucc₁
  have hready₀ := hspaces₀.ready hspaces₀.process
  have hready₁ := hspaces₁.ready hspaces₁.process
  obtain ⟨-, ht₁⟩ := (tracks_boot s₀ 0).create (process_ne_zero hrun₁ hsucc₁) hrun₁
  obtain ⟨-, ht₂⟩ := ht₁.create (process_ne_zero hrun₂ hsucc₂) hrun₂
  obtain ⟨-, o₁, l₁, st₁, hb₁, hbelow₁, hnew₁⟩ :=
    (tracks_boot s₀ 0).creates hready₀ hrun₁ hsucc₁
  obtain ⟨-, o₂, l₂, st₂, hb₂, -, hnew₂⟩ := ht₁.creates hready₁ hrun₂ hsucc₂
  have hheap₀ : (bootKernel s₀ 0).heapPointer = kernelHeapBaseVirt := rfl
  have hheap₁ : k₁.heapPointer = kernelHeapBaseVirt + (sizeofProcess + pageSize) := by
    rw [procRunCode_heap (by rw [hheap₀]; decide) (by rw [hheap₀]; decide) hrun₁, hheap₀]
  have hheap₂ : k.heapPointer = kernelHeapBaseVirt + (sizeofProcess + pageSize) +
      (sizeofProcess + pageSize) := by
    rw [procRunCode_heap (by rw [hheap₁]; decide) (by rw [hheap₁]; decide) hrun₂, hheap₁]
  -- the first takes a table for the window
  have hmissing : isPresent (({ (bootKernel s₀ 0).vm with log := l₁ } : Vm Pmm).pde windowSlot) =
    false := hbooted.window
  have hpresent : isPresent (({ k₁.vm with log := l₂ } : Vm Pmm).pde windowSlot) = true := hb₁.present
  obtain ⟨hfilled₁, hl₁⟩ := hb₁.lies (n := 4) (w := 1) hfilled₀ (by decide) (by decide) (by
    rw [windowRequests, if_neg (by rw [Bool.not_eq_true]; exact hmissing)]
    rfl)
  obtain ⟨hfilled₂, hl₂⟩ := hb₂.lies (n := 19) (w := 0) hfilled₁ (by decide) (by decide) (by
    rw [windowRequests, if_pos hpresent]
    rfl)
  obtain ⟨hcode, hstack, -⟩ := hl₁.slots hb₁ hready₀.sane
  obtain ⟨-, -, hlow⟩ := hl₂.slots hb₂ hready₁.sane
  rw [hl₁.directory] at hcode hstack
  rw [hl₂.directory] at hlow
  -- the kernel's tables
  have hsame : ∀ j < pageEntries, k.vm.pde j = k₁.vm.pde j := fun j hj =>
    hb₂.pde_current hj (.inr hpresent)
  have hkernel : ∀ j < 1023, isPresent (k.vm.pde j) = true →
      KernelBlock (pageFrame (k.vm.pde j) / pageSize) := fun j hj hp => by
    rw [hsame j (slot_lt hj)] at hp ⊢
    have hwf : DirWF Pmm.Taken ({ (bootKernel s₀ 0).vm with log := l₁ } : Vm Pmm) :=
      hbooted.wf.congr rfl (fun _ _ => rfl) fun _ h => h
    exact hl₁.kernelBlock hb₁ hwf hfilled₀ hj hp
  -- the second directory has them
  have hhigh : ∀ j, kernelPageDirIndex ≤ j → j < 1023 →
      entry k.vm.mem (19 * pageSize) j = k.vm.pde j := fun j hlo hhi => by
    rw [← hl₂.directory]
    exact hb₂.high j hlo hhi
  -- the first directory has stayed
  have hfirst : ∀ j < pageEntries,
      entry k.vm.mem (4 * pageSize) j = entry k₁.vm.mem (4 * pageSize) j := by
    refine hb₂.only (4 * pageSize) (by decide) ?_ ?_ ?_
    · exact (hfilled₁.used 4).mpr (.inl (by decide))
    · have hcr3 : k₁.vm.cr3 = 0x100000 := hb₁.cr3.trans hbooted.cr3
      show 4 * pageSize ≠ k₁.vm.cr3
      rw [hcr3]
      decide
    · intro heq
      have hblock := hkernel windowSlot (by decide) hb₂.present
      rw [← heq] at hblock
      exact absurd hblock (by unfold KernelBlock; decide)
  have hrun : Run SchedStep (bootKernel s₀ 0)
      [.create (fun _ => 0x90) 128, .create (fun _ => 0x90) 128] k :=
    .cons ⟨none, .create (process_ne_zero hrun₁ hsucc₁) hrun₁⟩
      (.single ⟨none, .create (process_ne_zero hrun₂ hsucc₂) hrun₂⟩)
  exact ⟨s₀, k, _, k₁.heapPointer, hinit, hrun, hsucc₁.trans hsucc₂,
    { tracks := ht₂
      ring := rfl
      spaces := ⟨ds, hspaces₂⟩
      heap := hheap₂
      filled := hfilled₂
      first := by
        refine ⟨1, st₁, ?_⟩
        rw [← hl₁.directory]
        exact (ht₁.fixed_run (.single ⟨none, .create (process_ne_zero hrun₂ hsucc₂) hrun₂⟩)
          hbelow₁).trans hnew₁
      second := ⟨k₁.nextPid, st₂, by rw [← hl₂.directory]; exact hnew₂⟩
      code := by rw [hfirst 0 (by decide)]; exact hcode
      stack := by rw [hfirst 767 (by decide)]; exact hstack
      low := hlow
      high := fun j hlo hhi hp => by
        rw [hhigh j hlo hhi] at hp ⊢
        exact hkernel j hhi hp
      image := by
        rw [hhigh _ (Nat.le_refl _) (by decide), hsame _ (by decide)]
        have himage := hb₁.pde_current (d := kernelPageDirIndex) (by decide) (.inl (by decide))
        exact himage.trans hbooted.image }⟩

/-- The fields that an exit reads. -/
theorem fixed_fields {k : Kernel} (h : k.fixedOf a = some (newProcess pid len stack pd))
    (hp : k.processes a = some p) :
    p.directory = pd ∧ p.codeLen = numCodePages len ∧ p.stackLen = procKernelStackPages := by
  rw [Kernel.fixedOf, hp, Option.map_some] at h
  have heq : p.fixed = newProcess pid len stack pd := Option.some.inj h
  exact ⟨congrArg Process.directory heq, congrArg Process.codeLen heq, congrArg Process.stackLen heq⟩

/-- **The exit** of the first process, which is entered when the second one has run. -/
theorem TwoLie.exit {k : Kernel} (h : TwoLie k hist a b) : ∃ k',
    Run SchedStep k [.switch none, .switch none, .exit] k' ∧ k.SameSpaces k' ∧
      k'.vm.cr3 = 19 * pageSize ∧ k'.heapPointer = k.heapPointer ∧ Emptied k'.vm.pmm := by
  obtain ⟨ds, hspaces⟩ := h.spaces
  obtain ⟨pid₁, stack₁, hfirst⟩ := h.first
  obtain ⟨pid₂, stack₂, hsecond⟩ := h.second
  have hring : RingAt k [a, b] := h.ring ▸ h.tracks.ring
  -- two switches
  obtain ⟨k₁, iret₁, hswitch₁, hring₁, -⟩ := hring.switch (List.cons_ne_nil _ _) (hspaces.loads _) none
  change RingAt k₁ [b, a] at hring₁
  have hspaces₁ := hspaces.schedule hswitch₁
  obtain ⟨k₂, iret₂, hswitch₂, hring₂, hentered₂, -⟩ :=
    hring₁.switch (List.cons_ne_nil _ _) (hspaces₁.loads _) none
  change RingAt k₂ [a, b] at hring₂
  have hspaces₂ := hspaces₁.schedule hswitch₂
  have hsame₂ := (procSwitchProcess_sameSpaces hswitch₁).trans (procSwitchProcess_sameSpaces hswitch₂)
  -- the first process is entered, and exits
  obtain ⟨p, hp, hcr3, -⟩ := hentered₂
  rw [hring₂.current] at hp
  obtain ⟨hdir, hcodeLen, hstackLen⟩ := fixed_fields ((hsame₂.fixedOf a).trans hfirst) hp
  rw [hdir] at hcr3
  have hself := (hspaces₂.ready hspaces₂.process).wf.self
  have hfree := procFreeSpace_eq hself p
  obtain ⟨k₃, iret₃, hexit, hring₃, hentered₃, -⟩ := hring₂.exit hp hfree (hspaces₂.loads _)
  have hreturns : SchedReturns k₂ .exit k₃ (some iret₃) := .exit ⟨_, fun fuel hfuel => hexit fuel hfuel⟩
  have hsame₃ := hsame₂.trans (schedReturns_sameSpaces hreturns rfl)
  obtain ⟨q, hq, hcr3', -⟩ := hentered₃
  rw [hring₃.current] at hq
  have hdir' := (fixed_fields ((hsame₃.fixedOf b).trans hsecond) hq).1
  have hheap : k₃.heapPointer = k.heapPointer :=
    (schedReturns_sameStacks hreturns rfl).heapPointer.trans
      ((procSwitchProcess_sameStacks hswitch₂).heapPointer.trans
        (procSwitchProcess_sameStacks hswitch₁).heapPointer)
  have hrun : Run SchedStep k [.switch none, .switch none, .exit] k₃ :=
    .cons ⟨_, .switch hswitch₁⟩ (.cons ⟨_, .switch hswitch₂⟩ (.single ⟨_, hreturns⟩))
  refine ⟨k₃, hrun, hsame₃, hcr3'.trans hdir', hheap, ?_⟩
  -- what it reads off its directory
  have hpde : ∀ j, k₂.vm.pde j = entry k.vm.mem (4 * pageSize) j := fun j => by
    rw [Vm.pde, hsame₂.mem, hcr3]
  have hlast : pageFrame (k₂.vm.pde 1023) = 4 * pageSize := hself.self.trans hcr3
  obtain ⟨p', k', hp', hfree', hpmm, -⟩ := procExitCurrentProcess_of_ok (hexit _ (Nat.lt_succ_self _))
  rw [hring₂.current] at hp'
  obtain rfl := Option.some.inj (hp.symm.trans hp')
  obtain rfl := Except.ok.inj (hfree.symm.trans hfree')
  have hfilled : Filled 33 k₂.vm.pmm := by
    rw [procSwitchProcess_pmm hswitch₂, procSwitchProcess_pmm hswitch₁]
    exact h.filled
  rw [hpmm, hlast, hpde, hpde, h.code, h.stack, hcodeLen, hstackLen]
  exact hfilled.emptied

/-! ### the next creation -/

/-- The second directory, when the first process has exited. -/
theorem TwoLie.loaded {k : Kernel} {s : Vm Pmm} (h : TwoLie k hist a b) (hmem : s.mem = k.vm.mem)
    (hcr3 : s.cr3 = 19 * pageSize) (hemptied : Emptied s.pmm) : Loaded s := by
  obtain ⟨ds, hspaces⟩ := h.spaces
  obtain ⟨pid, stack, hsecond⟩ := h.second
  have hring : RingAt k [a, b] := h.ring ▸ h.tracks.ring
  obtain ⟨p, hp⟩ := hring.process_some (List.mem_cons_of_mem a (List.mem_singleton_self b))
  have hin : 19 * pageSize ∈ ds :=
    (fixed_fields hsecond hp).1 ▸ hspaces.directory b p hp
  have hmemds := List.mem_cons_of_mem 0x100000 hin
  have hwf := hspaces.wf _ hmemds
  obtain ⟨hsmall, hclosed⟩ := ((hspaces.toShared.inDir hmemds).ready hspaces.process).window
  have hpde : ∀ j, s.pde j = entry k.vm.mem (19 * pageSize) j := fun j => by
    rw [Vm.pde, hmem, hcr3]
  have hpresent : isPresent (s.pde windowSlot) = true := by
    rw [hpde, hspaces.high _ hmemds _ (by decide) (by decide)]
    exact hspaces.window.resolve_left (List.ne_nil_of_mem hin)
  exact
    { wf := hwf.untaken.congr hcr3 (fun j _ => hpde j) fun _ _ => trivial
      window := hpresent
      small := by
        rw [hpde] at hpresent ⊢
        exact hsmall hpresent
      closed := by
        rw [← hclosed]
        exact congrFun (Vm.tables_of_same (s := k.vm.inDir (19 * pageSize)) hmem hcr3) _
      image := by rw [hpde, h.image]
      kernel := fun j hlo hj hp => by
        rw [hpde] at hp ⊢
        have hblock := h.high j hlo hj hp
        refine (hemptied.used _).mpr ?_
        unfold KernelBlock at hblock
        omega }

/-- It has nothing in the block of the first one. -/
theorem TwoLie.ne_first {k : Kernel} (h : TwoLie k hist a b) (hj : j < 1023)
    (hp : isPresent (entry k.vm.mem (19 * pageSize) j) = true) :
    pageFrame (entry k.vm.mem (19 * pageSize) j) ≠ 4 * pageSize := fun heq => by
  have hblock : 4 * pageSize / pageSize = 4 := by decide
  by_cases hlow : j < kernelPageDirIndex
  · have hbehind := h.low j hlow hp
    rw [heq, hblock] at hbehind
    omega
  · have hkernel := h.high j (Nat.le_of_not_lt hlow) hj hp
    rw [heq, hblock] at hkernel
    exact absurd hkernel (by unfold KernelBlock; decide)

/-- The calls of `kmalloc`, and then the address space. -/
theorem procRunCode_of_lost {k : Kernel} (h : ∀ l, procBuildSpace { k.vm with log := l } code len =
    .error .kernelUnmapped) : procRunCode k code len = .error .kernelUnmapped := by
  obtain ⟨l, hvm⟩ := ((kmalloc_same k sizeofProcess).trans (kmalloc_same _ pageSize)).vm
  have hlost := h l
  rw [← hvm] at hlost
  rw [procRunCode]
  dsimp only
  rw [hlost]
  rfl

end NimbleOS
