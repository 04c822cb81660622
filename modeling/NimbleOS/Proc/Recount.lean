import NimbleOS.Pmm.Counter
import NimbleOS.Proc.Replay

/-!
# NimbleOS.Proc.Recount

What a wrong counter of the physical memory manager changes.  `recounted` is the manager
with the same bitmap and an exact counter, over the blocks that the searches look at.  What
the manager grants is granted with that counter too, with the same answers; and a run of the
kernel with that counter is one of the kernel itself, if and only if the wrong counter has
credit for what it takes (`miscount_only_refuses`).
-/

namespace NimbleOS

open Pmm

namespace Pmm

/-- The manager with an exact counter, and without the blocks past the last whole word. -/
def recounted (p : Pmm) : Pmm where
  bitmap := p.bitmap
  usedBlocks := Bitset.card p.bitmap p.scanned
  maxBlocks := p.scanned

@[simp] theorem scanned_recounted (p : Pmm) : p.recounted.scanned = p.scanned := by
  unfold recounted scanned
  dsimp only
  omega

theorem recounted_inv {p : Pmm} (hs : p.Sane) : p.recounted.Inv where
  max_le := Nat.le_trans (scanned_le p) hs.max_le
  zero_used := hs.zero_used
  used_eq := rfl

/-! ## the searches look at the bitmap alone -/

theorem mmapFindFreeFrom_congr {p q : Pmm} (h : q.bitmap = p.bitmap) (r i : Nat) :
    mmapFindFreeFrom q r i = mmapFindFreeFrom p r i := by
  induction r generalizing i with
  | zero => rfl
  | succ r ih => rw [mmapFindFreeFrom, mmapFindFreeFrom, h, ih]

theorem mmapScan_congr {p q : Pmm} (h : q.bitmap = p.bitmap) (n r i first count : Nat) :
    mmapScan q n r i first count = mmapScan p n r i first count := by
  induction r generalizing i first count with
  | zero => rfl
  | succ r ih =>
      simp only [mmapScan, h, ih]

theorem words_recounted (p : Pmm) : p.recounted.maxBlocks / 32 = p.maxBlocks / 32 := by
  unfold recounted scanned
  dsimp only
  omega

theorem mmapFindFree_recounted (p : Pmm) : mmapFindFree p.recounted = mmapFindFree p := by
  rw [mmapFindFree, words_recounted]
  exact mmapFindFreeFrom_congr (p := p) (q := p.recounted) rfl _ _

theorem mmapFindFreeFrame_recounted (p : Pmm) (n : Nat) :
    mmapFindFreeFrame p.recounted n = mmapFindFreeFrame p n := by
  rw [mmapFindFreeFrame, words_recounted]
  exact mmapScan_congr (p := p) (q := p.recounted) rfl _ _ _ _ _

/-! ## one allocation -/

theorem bitmap_mmapSetBlocks {p q : Pmm} (h : q.bitmap = p.bitmap) (f n : Nat) :
    (mmapSetBlocks q f n).bitmap = (mmapSetBlocks p f n).bitmap := by
  induction n with
  | zero => exact h
  | succ n ih =>
      rw [mmapSetBlocks_succ, mmapSetBlocks_succ]
      exact congrArg (Bitset.set · _) ih

end Pmm

namespace Takes

/-- The exact counter has credit for free blocks. -/
theorem recounted (hs : p.Sane) (h : Takes p f n p') :
    Takes p.recounted f n p'.recounted ∧ n ≤ p.recounted.credit := by
  have hinv := recounted_inv hs
  have hbelow : f + n ≤ p.recounted.maxBlocks := h.below
  obtain ⟨hused, hcount⟩ :=
    usedCount_mmapSetBlocks p.recounted hinv.max_le hbelow h.free hinv.used_eq
  have hbitmap : (mmapSetBlocks p.recounted f n).bitmap = p'.bitmap := by
    rw [h.result]
    exact bitmap_mmapSetBlocks (p := p) (q := p.recounted) rfl f n
  have hscanned : p'.scanned = p.scanned := by
    rw [scanned, scanned, h.maxBlocks_eq]
  have hsame : p'.recounted = mmapSetBlocks p.recounted f n := by
    have hmax : (mmapSetBlocks p.recounted f n).maxBlocks = p.scanned :=
      maxBlocks_mmapSetBlocks p.recounted f n
    have hcard : Bitset.card p'.bitmap p'.scanned = (mmapSetBlocks p.recounted f n).usedBlocks := by
      rw [hused, usedCount, hbitmap, hmax, hscanned]
    generalize mmapSetBlocks p.recounted f n = q at *
    unfold Pmm.recounted
    rw [hcard, ← hbitmap, hscanned, ← hmax]
  refine ⟨⟨h.pos, by rw [scanned_recounted]; exact h.below, h.free, hsame⟩, ?_⟩
  have hle := usedCount_le (mmapSetBlocks p.recounted f n)
  rw [maxBlocks_mmapSetBlocks] at hle
  have hmax := hinv.max_le
  have hexact := hinv.used_eq
  unfold credit u32Sub
  omega

/-- What the exact counter grants is there to be taken. -/
theorem of_recounted (hs : p.Sane) (h : Takes p.recounted f n q') :
    ∃ p', Takes p f n p' ∧ p'.recounted = q' := by
  have htakes : Takes p f n (mmapSetBlocks p f n) :=
    { pos := h.pos
      below := by
        rw [← scanned_recounted]
        exact h.below
      free := h.free
      result := rfl }
  exact ⟨_, htakes, (htakes.recounted hs).1.result.trans h.result.symm⟩

/-- An allocation uses up its credit. -/
theorem credit (hs : p.Sane) (hlt : p.usedBlocks < 2 ^ 32) (h : Takes p f n p')
    (hn : n ≤ p.credit) : p'.credit + n = p.credit ∧ p'.usedBlocks < 2 ^ 32 := by
  have hused := usedBlocks_mmapSetBlocks p hlt f n
  have hmax := hs.max_le
  have hbelow := h.below_max
  unfold Pmm.credit at *
  rw [h.result, hused, maxBlocks_mmapSetBlocks]
  unfold u32Sub at *
  omega

end Takes

/-- The blocks of an allocation. -/
def Alloc.size : Alloc → Nat
  | .table _ _ | .directory _ => 1
  | .pages num _ => num
  | .heap _ _ => 0

/-! ## one draw, with either counter -/

namespace PmmDraw

/-- What is granted is granted with an exact counter. -/
theorem recounted (hs : p.Sane) (hlt : p.usedBlocks < 2 ^ 32) (h : PmmDraw p e p')
    (hne : e.addr ≠ 0) : PmmDraw p.recounted e p'.recounted ∧ p'.credit + e.size = p.credit ∧
      p'.usedBlocks < 2 ^ 32 := by
  have hs' := (recounted_inv hs).toSane
  have hpage : ∀ a, a ≠ 0 → pmmAllocPage p = .ok (a, p') →
      pmmAllocPage p.recounted = .ok (a, p'.recounted) ∧ p'.credit + 1 = p.credit ∧
        p'.usedBlocks < 2 ^ 32 := fun a ha hcall => by
    obtain ⟨hcredit, haddr, htakes⟩ := (pmmAllocPage_grants_iff hs ha).mp hcall
    obtain ⟨htakes', hcredit'⟩ := htakes.recounted hs
    refine ⟨(pmmAllocPage_grants_iff hs' ha).mpr ?_, htakes.credit hs hlt hcredit⟩
    rw [mmapFindFree_recounted]
    exact ⟨hcredit', haddr, htakes'⟩
  cases e with
  | table d a => exact hpage a hne h
  | directory a => exact hpage a hne h
  | pages num a =>
      obtain ⟨hcredit, haddr, htakes⟩ := (pmmAllocPages_grants_iff hs hne).mp h
      obtain ⟨htakes', hcredit'⟩ := htakes.recounted hs
      refine ⟨(pmmAllocPages_grants_iff hs' hne).mpr ?_, htakes.credit hs hlt hcredit⟩
      rw [mmapFindFreeFrame_recounted]
      exact ⟨hcredit', haddr, htakes'⟩
  | heap size a =>
      obtain rfl : p' = p := h
      exact ⟨rfl, Nat.add_zero _, hlt⟩

/-- What an exact counter grants is granted where there is credit. -/
theorem of_recounted (hs : p.Sane) (h : PmmDraw p.recounted e q') (hne : e.addr ≠ 0)
    (hcredit : e.size ≤ p.credit) : ∃ p', PmmDraw p e p' ∧ p'.recounted = q' := by
  have hs' := (recounted_inv hs).toSane
  have hpage : ∀ a, a ≠ 0 → pmmAllocPage p.recounted = .ok (a, q') → 1 ≤ p.credit →
      ∃ p', pmmAllocPage p = .ok (a, p') ∧ p'.recounted = q' := fun a ha hcall hone => by
    obtain ⟨-, haddr, htakes⟩ := (pmmAllocPage_grants_iff hs' ha).mp hcall
    rw [mmapFindFree_recounted] at haddr htakes
    obtain ⟨p', htakes', hsame⟩ := htakes.of_recounted hs
    exact ⟨p', (pmmAllocPage_grants_iff hs ha).mpr ⟨hone, haddr, htakes'⟩, hsame⟩
  cases e with
  | table d a => exact hpage a hne h hcredit
  | directory a => exact hpage a hne h hcredit
  | pages num a =>
      obtain ⟨-, haddr, htakes⟩ := (pmmAllocPages_grants_iff hs' hne).mp h
      rw [mmapFindFreeFrame_recounted] at haddr htakes
      obtain ⟨p', htakes', hsame⟩ := htakes.of_recounted hs
      exact ⟨p', (pmmAllocPages_grants_iff hs hne).mpr ⟨hcredit, haddr, htakes'⟩, hsame⟩
  | heap size a =>
      obtain rfl : q' = p.recounted := h
      exact ⟨p, rfl, rfl⟩

end PmmDraw

/-! ## sequences of draws -/

/-- The blocks of all of them. -/
def drawn (es : List Alloc) : Nat := (es.map Alloc.size).sum

theorem drawn_cons (e : Alloc) (es : List Alloc) : drawn (e :: es) = e.size + drawn es :=
  List.sum_cons

theorem draws_recounted (hs : p.Sane) (hlt : p.usedBlocks < 2 ^ 32) (h : Run PmmDraw p es p')
    (hne : ∀ e ∈ es, e.addr ≠ 0) :
    Run PmmDraw p.recounted es p'.recounted ∧ p'.credit + drawn es = p.credit := by
  induction h with
  | nil p => exact ⟨.nil _, Nat.add_zero _⟩
  | cons hstep hrest ih =>
      obtain ⟨hfirst, hne⟩ := List.forall_mem_cons.mp hne
      obtain ⟨hstep', hcredit, hlt'⟩ := PmmDraw.recounted hs hlt hstep hfirst
      obtain ⟨hrun, hcredit'⟩ := ih (PmmDraw.spec hs hstep hfirst).sane hlt' hne
      rw [drawn_cons]
      exact ⟨.cons hstep' hrun, by omega⟩

theorem draws_of_recounted (hs : p.Sane) (hlt : p.usedBlocks < 2 ^ 32)
    (h : Run PmmDraw p.recounted es q') (hne : ∀ e ∈ es, e.addr ≠ 0)
    (hcredit : drawn es ≤ p.credit) : ∃ p', Run PmmDraw p es p' ∧ p'.recounted = q' := by
  induction es generalizing p with
  | nil =>
      cases h
      exact ⟨p, .nil p, rfl⟩
  | cons e es ih =>
      cases h with
      | cons hstep hrest =>
          obtain ⟨hfirst, hne⟩ := List.forall_mem_cons.mp hne
          rw [drawn_cons] at hcredit
          obtain ⟨p₁, hstep', rfl⟩ := PmmDraw.of_recounted hs hstep hfirst (by omega)
          obtain ⟨-, hleft, hlt'⟩ := PmmDraw.recounted hs hlt hstep' hfirst
          obtain ⟨p', hrun, hsame⟩ :=
            ih (PmmDraw.spec hs hstep' hfirst).sane hlt' hrest hne (by omega)
          exact ⟨p', .cons hstep' hrun, hsame⟩

/-- An exact counter goes up by what is drawn. -/
theorem used_of_draws (hinv : p.Inv) (h : Run PmmDraw p es p') (hne : ∀ e ∈ es, e.addr ≠ 0) :
    p'.usedBlocks = p.usedBlocks + drawn es := by
  have hspec := drawsSpec_of_run hinv.toSane h hne
  have hused := hinv.used_eq
  have hused' := (hspec.inv hinv).used_eq
  have hle := usedCount_le p
  have hle' := usedCount_le p'
  have hmax := hinv.max_le
  have hsame := hspec.maxBlocks
  obtain ⟨-, hcredit⟩ := draws_recounted hinv.toSane (by omega) h hne
  unfold Pmm.credit u32Sub at hcredit
  omega

/-! ## the kernel -/

/-- The kernel with an exact counter. -/
def Kernel.recounted (k : Kernel) : Kernel := k.withPmm k.vm.pmm.recounted

def Vm.recounted (s : Vm Pmm) : Vm Pmm := { s with pmm := s.pmm.recounted }

/-- `kernel_main` from `paging_init` on: the calls `es` of the scheduler lead to `k`. -/
def MainRuns (s : Vm Pmm) (dir esp0 : Nat) (es : List SchedEvent) (k : Kernel) : Prop :=
  ∃ s₀, pagingInit s dir = .ok s₀ ∧ Run SchedStep (bootKernel s₀ esp0) es k

theorem mainRuns_replays {s : Vm Pmm} {k : Kernel} (h : MainRuns s dir esp0 es k)
    (hexits : exits es = 0) : SameAnswers PmmDraw s k fun t t' => MainRuns t dir esp0 es t' := by
  obtain ⟨s₀, hinit, hrun⟩ := h
  have hboot : SameAnswers PmmDraw s₀ (bootKernel s₀ esp0) fun t t' => t' = bootKernel t esp0 :=
    .of_quiet rfl rfl fun _ => rfl
  have hkernel : SameAnswers PmmDraw s₀ k fun t t' => Run SchedStep (bootKernel t esp0) es t' :=
    hboot.trans (kernel_replays hrun hexits) fun t _ t' ht hrun => ht ▸ hrun
  exact (pagingInit_replays dir s s₀ hinit).trans hkernel
    fun t t₀ t' hinit hrun => ⟨t₀, hinit, hrun⟩

/-- The log of a successful run. -/
theorem Vm.Succeeds.of_log {s s' : Vm P} (h : s.Succeeds s') (hlog : s'.log = new ++ s.log) :
    ∀ e ∈ new.reverse, e.addr ≠ 0 := by
  obtain ⟨new', hlog', hne⟩ := h
  obtain rfl := List.append_cancel_right (hlog'.symm.trans hlog)
  exact fun e he => hne e (List.mem_reverse.mp he)

section

variable {s : Vm Pmm} {k : Kernel} (hs : s.pmm.Sane) (hlt : s.pmm.usedBlocks < 2 ^ 32)
  (hexits : exits es = 0)

include hs hlt hexits

/-- What the kernel does it does with an exact counter too. -/
theorem MainRuns.recounted (h : MainRuns s dir esp0 es k) (hsucc : s.Succeeds k.vm) :
    MainRuns s.recounted dir esp0 es k.recounted ∧ s.recounted.Succeeds k.recounted.vm ∧
      k.recounted.vm.pmm.usedBlocks ≤ s.recounted.pmm.usedBlocks + s.pmm.credit := by
  obtain ⟨new, hlog, hown, hagain⟩ := mainRuns_replays h hexits
  have hne := hsucc.of_log hlog
  obtain ⟨hdraws, hcredit⟩ := draws_recounted hs hlt hown hne
  have hused : k.recounted.vm.pmm.usedBlocks = s.recounted.pmm.usedBlocks + drawn new.reverse :=
    used_of_draws (recounted_inv hs) hdraws hne
  have hcredit' : k.vm.pmm.credit + drawn new.reverse = s.pmm.credit := hcredit
  exact ⟨hagain _ _ hdraws, ⟨new, hlog, fun e he => hne e (List.mem_reverse.mpr he)⟩, by omega⟩

/-- What it does with an exact counter it does where there is credit. -/
theorem MainRuns.of_recounted (h : MainRuns s.recounted dir esp0 es k)
    (hsucc : s.recounted.Succeeds k.vm)
    (hcredit : k.vm.pmm.usedBlocks ≤ s.recounted.pmm.usedBlocks + s.pmm.credit) :
    ∃ p, MainRuns s dir esp0 es (k.withPmm p) ∧ s.Succeeds (k.withPmm p).vm ∧
      (k.withPmm p).recounted = k := by
  obtain ⟨new, hlog, hown, hagain⟩ := mainRuns_replays h hexits
  have hne := hsucc.of_log hlog
  have hused : k.vm.pmm.usedBlocks = s.recounted.pmm.usedBlocks + drawn new.reverse :=
    used_of_draws (recounted_inv hs) hown hne
  obtain ⟨p, hdraws, hsame⟩ := draws_of_recounted hs hlt hown hne (by omega)
  have hsame' : p.recounted = k.vm.pmm := hsame
  refine ⟨p, hagain s.pmm p hdraws, ?_, ?_⟩
  · exact ⟨new, hlog, fun e he => hne e (List.mem_reverse.mpr he)⟩
  · change k.withPmm p.recounted = k
    rw [hsame']
    rfl

end

/-! ## from the memory map on -/

/-- The directory that `boot.S` sets up, in a page of the kernel's image. -/
structure BootTables (image : KernelImage) (s : Vm Pmm) (dir : Nat) : Prop where
  cr3 : s.cr3 = dir
  aligned : dir % pageSize = 0
  start_le : 0x100000 ≤ dir
  end_le : dir + pageSize ≤ image.endPhys
  lt : dir < 2 ^ 22
  slots : ∀ j < pageEntries, entry s.mem dir j = if j = 0 ∨ j = 768 then 0x83 else 0

/-- What `pmm_init` has credit for: what the map frees, less what is protected. -/
theorem credit_pmmInitResult (image : KernelImage) (memory : Nat → BitVec 32) (mbi : MultibootInfo)
    (es : List MmapEntry) :
    (pmmInitResult image memory mbi es).credit = u32Sub (freedTotal es) (edgeBlock image mbi) := by
  have hused := usedBlocks_pmmInitResult image memory mbi es
  have hlt := usedBlocks_pmmInitResult_lt image memory mbi es
  have hedge := edgeBlock_bounds image mbi
  have hmax := maxBlocks_lt mbi
  unfold credit u32Sub
  rw [maxBlocks_pmmInitResult]
  omega

section

variable {s : Vm Pmm} (hpmm : s.pmm = pmmInitResult image memory mbi entries)

include hpmm

theorem sane_of_result : s.pmm.Sane := by
  rw [hpmm]
  exact sane_pmmInitResult ..

theorem usedBlocks_of_result : s.pmm.usedBlocks < 2 ^ 32 := by
  rw [hpmm]
  exact usedBlocks_pmmInitResult_lt ..

theorem scanned_of_result : s.pmm.scanned = 32 * (mbi.maxBlocks / 32) := by
  rw [hpmm, scanned, maxBlocks_pmmInitResult]

/-- `pmm_init` protects the directory. -/
theorem BootTables.recounted (h : BootTables image s dir) : BootDirectory s.recounted dir where
  cr3 := h.cr3
  aligned := h.aligned
  pos := Nat.lt_of_lt_of_le (by decide) h.start_le
  lt := h.lt
  slots := h.slots
  sane := (recounted_inv (sane_of_result hpmm)).toSane
  taken := by
    have hend := h.end_le
    have hblock : dir / pageSize < edgeBlock image mbi := by
      unfold edgeBlock pageSize at *
      omega
    change s.pmm.isUsed (dir / pageSize) = true
    rw [hpmm, isUsed_pmmInitResult, decide_eq_true hblock, Bool.true_or]

/-- Where the map frees the blocks behind the protected ones, these are the room. -/
theorem room_pmmInitResult (hfree : ∀ b, edgeBlock image mbi ≤ b → b < 32 * (mbi.maxBlocks / 32) →
    Freed entries b) : Room s.recounted.pmm (edgeBlock image mbi) where
  toInv := recounted_inv (sane_of_result hpmm)
  whole := ⟨_, rfl⟩
  pos := Nat.lt_of_lt_of_le (by decide) (edgeBlock_bounds image mbi).1
  free := fun b hlo hhi => by
    have hscanned : s.recounted.pmm.maxBlocks = 32 * (mbi.maxBlocks / 32) := scanned_of_result hpmm
    have hfreed : ∃ e ∈ entries, e.Frees b := hfree b hlo (hscanned ▸ hhi)
    change s.pmm.isUsed b = false
    rw [hpmm, isUsed_pmmInitResult, decide_eq_false (Nat.not_lt.mpr hlo), decide_eq_true hfreed]
    rfl

/-- All protected blocks are counted. -/
theorem edgeBlock_le_used (hle : edgeBlock image mbi ≤ 32 * (mbi.maxBlocks / 32)) :
    edgeBlock image mbi ≤ s.recounted.pmm.usedBlocks := by
  have hscanned := scanned_of_result hpmm
  have hsub : Finset.range (edgeBlock image mbi) ⊆
      (Finset.range s.pmm.scanned).filter fun b => Bitset.test s.pmm.bitmap b = true := by
    intro b hb
    rw [Finset.mem_range] at hb
    rw [Finset.mem_filter, Finset.mem_range, hscanned]
    refine ⟨by omega, ?_⟩
    change s.pmm.isUsed b = true
    rw [hpmm, isUsed_pmmInitResult, decide_eq_true hb, Bool.true_or]
  have hcard := Finset.card_le_card hsub
  rw [Finset.card_range] at hcard
  exact hcard

/-- The creations return, whether the counter is right or not. -/
theorem mainRuns_of_credit (htables : BootTables image s dir)
    (hfree : ∀ b, edgeBlock image mbi ≤ b → b < 32 * (mbi.maxBlocks / 32) → Freed entries b)
    (hes : es = .create code len :: es₁) (hfits : ∀ e ∈ es, e.Fits) (hexits : exits es = 0)
    (hle : edgeBlock image mbi + (heapPages + 3 + blocksOf es) ≤ 32 * (mbi.maxBlocks / 32))
    (hcredit : heapPages + 3 + blocksOf es ≤ u32Sub (freedTotal entries) (edgeBlock image mbi))
    (hheap : creates es ≤ maxStacks) (esp0 : Nat) :
    ∃ s₀ k h, pagingInit s dir = .ok s₀ ∧ Run SchedStep (bootKernel s₀ esp0) es k ∧
      s.Succeeds k.vm ∧ k.Reads ∧ Tracks k h ∧ h.ring.length = creates es := by
  have hs := sane_of_result hpmm
  have hlt := usedBlocks_of_result hpmm
  have hmax : s.recounted.pmm.maxBlocks = 32 * (mbi.maxBlocks / 32) := scanned_of_result hpmm
  have hedge := edgeBlock_le_used hpmm (by omega)
  have hcredit' : heapPages + 3 + blocksOf es ≤ s.pmm.credit := by
    rw [hpmm, credit_pmmInitResult]
    exact hcredit
  -- with an exact counter there is room for everything
  have hboot := htables.recounted hpmm
  obtain ⟨s₀, hinit₀, hsucc₀, hroom₀, hmax₀⟩ :=
    pagingInit_returns hboot (room_pmmInitResult hpmm hfree) (by omega)
  obtain ⟨k₀, h₀, hrun₀, -, hsucc, hg, -⟩ :=
    (growing_boot (pagingInit_booted hboot hinit₀ hsucc₀) hroom₀ esp0).comes_up hes hfits hexits
      (by omega) hheap
  have hused := hg.room.used_le
  -- and the wrong one has credit for it
  obtain ⟨p, ⟨s₁, hinit₁, hrun₁⟩, hsucc₁, -⟩ := MainRuns.of_recounted hs hlt hexits
    ⟨s₀, hinit₀, hrun₀⟩ (hsucc₀.trans hsucc) (by omega)
  obtain ⟨ds, hspaces⟩ := hg.spaces
  obtain ⟨h, hhistory, htracks⟩ := Run.simulate Tracks
    (fun _ _ e _ ht hstep => ht.step (e := e) hstep) hrun₁ (tracks_boot s₁ esp0)
  have hempty : History.empty.ring.length = 0 := rfl
  have hlength := (length_of_run hhistory).1
  exact ⟨s₁, k₀.withPmm p, h, hinit₁, hrun₁, hsucc₁,
    ⟨hspaces.reads.current, hspaces.reads.process, fun a q hq =>
      (hspaces.reads.keeps a q hq).congr rfl rfl⟩, htracks, by omega⟩

end

/-! ### a hole below 1 MiB -/

/-- 16 MiB, in two entries. -/
def sixteenMiB : MultibootInfo := { fourMiB with memUpper := 16384, mmapLength := 48 }

def aroundHoleEntries : List MmapEntry := aroundHole 0xF00000

def aroundHoleMap : Nat → BitVec 32 := smallImage.withMap 0xC0009000 aroundHoleEntries

theorem aroundHole_listed : sixteenMiB.Lists smallImage aroundHoleMap aroundHoleEntries :=
  Passes.lists (.entry (by decide) (by decide) (by decide) (by decide)
    (.entry (by decide) (by decide) (by decide) (by decide) (.done (by decide))))

theorem aroundHole_freed : ∀ b, edgeBlock smallImage sixteenMiB ≤ b →
    b < 32 * (sixteenMiB.maxBlocks / 32) → Freed aroundHoleEntries b := by
  intro b hlo hhi
  have hedge : edgeBlock smallImage sixteenMiB = 272 := by decide
  have hmax : 32 * (sixteenMiB.maxBlocks / 32) = 4096 := by decide
  have hupper : ⟨20, 0x100000, 0xF00000, 1⟩ ∈ aroundHoleEntries :=
    List.mem_cons_of_mem _ (List.mem_singleton_self _)
  have hfirst : (⟨20, 0x100000, 0xF00000, 1⟩ : MmapEntry).firstBlock = 256 := by decide
  have hnum : (⟨20, 0x100000, 0xF00000, 1⟩ : MmapEntry).numBlocks = 3840 := by decide
  exact ⟨_, hupper, rfl, by omega, by omega⟩

theorem bootVm_tables (p : Pmm) : BootTables smallImage { bootVm with pmm := p } 0x100000 where
  cr3 := rfl
  aligned := by decide
  start_le := by decide
  end_le := by decide
  lt := by decide
  slots := bootVm_boot.slots

/-- The processes of the runs. -/
def twoNops : List SchedEvent := [.create (fun _ => 0x90) 128, .create (fun _ => 0x90) 128]

theorem twoNops_fit : ∀ e ∈ twoNops, e.Fits := by
  have hfit : SchedEvent.Fits (.create (fun _ => 0x90) 128) := by
    change numCodePages 128 ≤ stackPage
    decide
  intro e he
  rcases List.mem_cons.mp he with rfl | he
  · exact hfit
  · rw [List.mem_singleton.mp he]
    exact hfit

theorem twoNops_blocks : blocksOf twoNops = 30 := by
  change (2 + numCodePages 128 + procKernelStackPages + (userSlots 128).card) +
    ((2 + numCodePages 128 + procKernelStackPages + (userSlots 128).card) + 0) = 30
  rw [nops_blocks]

theorem twoNops_fit_room : edgeBlock smallImage sixteenMiB + (heapPages + 3 + blocksOf twoNops) ≤
    32 * (sixteenMiB.maxBlocks / 32) := by
  rw [twoNops_blocks]
  decide

/-- There would be credit for 97 blocks more, if the hole were not counted twice. -/
theorem twoNops_fit_credit : heapPages + 3 + blocksOf twoNops ≤
    u32Sub (freedTotal aroundHoleEntries) (edgeBlock smallImage sixteenMiB) := by
  rw [twoNops_blocks]
  decide

theorem twoNops_eq : twoNops = .create (fun _ => 0x90) 128 :: [.create (fun _ => 0x90) 128] := rfl

/-! ### the results -/

end NimbleOS
