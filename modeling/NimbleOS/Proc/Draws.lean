import NimbleOS.Proc
import NimbleOS.Pmm.Ledger

/-!
# NimbleOS.Proc.Draws

The ghost log accounts for the physical memory manager: while address spaces are
built, its state changes only by the calls that the log records.  If these calls
have all succeeded, the log's blocks are pairwise disjoint, they were free before
and are used after, and no other block changed (`Draws.spec`).
-/

namespace NimbleOS

open Pmm

/-- The blocks that an allocation took. -/
def Alloc.blocks : Alloc → Finset Nat
  | .table _ a | .directory a => blocksFrom a 1
  | .pages num a => blocksFrom a num
  | .heap _ _ => ∅

/-- The call of the physical memory manager behind a log entry. -/
def PmmDraw (p : Pmm) (e : Alloc) (p' : Pmm) : Prop :=
  match e with
  | .table _ a | .directory a => pmmAllocPage p = .ok (a, p')
  | .pages num a => pmmAllocPages p num = (a, p')
  | .heap _ _ => p' = p

/-- `new` (the latest first) is what the log has gained from `s` to `s'`, and
accounts for the change of the physical memory manager. -/
structure Draws (s s' : Vm Pmm) (new : List Alloc) : Prop where
  log : s'.log = new ++ s.log
  run : Run PmmDraw s.pmm new.reverse s'.pmm

namespace Draws

theorem nil {s s' : Vm Pmm} (h : s.SameButMem s') : Draws s s' [] :=
  ⟨h.log, by rw [h.pmm]; exact .nil _⟩

theorem trans {s s' s'' : Vm Pmm} (h : Draws s s' new) (h' : Draws s' s'' new') :
    Draws s s'' (new' ++ new) :=
  ⟨by rw [h'.log, h.log, List.append_assoc],
    by rw [List.reverse_append]; exact h.run.append h'.run⟩

end Draws

/-- The tables that a sequence of paging calls created. -/
theorem NewTables.draws_log {maps : Nat → Nat → Prop} {s s' : Vm Pmm} (h : NewTables maps s s' ts) :
    Draws s s' (ts.map fun (d, a) => .table d a) := by
  refine ⟨h.log, ?_⟩
  have hdraws := h.draws
  rw [← List.map_reverse] at hdraws ⊢
  generalize ts.reverse = us at hdraws
  generalize s.pmm = p at hdraws
  induction us generalizing p with
  | nil =>
      cases hdraws
      exact .nil _
  | cons u us ih =>
      cases hdraws with
      | cons hstep hrest => exact .cons hstep (ih _ hrest)

/-! ## one call -/

/-- What a successful allocation does. -/
structure DrawSpec (p : Pmm) (e : Alloc) (p' : Pmm) : Prop where
  sane : p'.Sane
  inv : p.Inv → p'.Inv
  maxBlocks : p'.maxBlocks = p.maxBlocks
  free : ∀ b ∈ e.blocks, b < p.maxBlocks ∧ p.isUsed b = false
  used : ∀ b, p'.isUsed b = (decide (b ∈ e.blocks) || p.isUsed b)
  aligned : ∀ b ∈ e.blocks, e.addr % pageSize = 0 ∧ e.addr < 2 ^ 32

/-- Taking a run of blocks is a successful allocation of them. -/
theorem Takes.drawSpec (hs : p.Sane) (h : Takes p f n p') {e : Alloc}
    (hblocks : e.blocks = blocksFrom (f * pageSize) n) (haddr : e.addr = f * pageSize) :
    DrawSpec p e p' where
  sane := hs.takes h
  inv := fun hinv => hinv.takes h
  maxBlocks := h.maxBlocks_eq
  free := fun b hb => by
    rw [hblocks, mem_blocksFrom_block] at hb
    have := h.below_max
    exact ⟨by omega, h.free b hb.1 hb.2⟩
  used := fun b => by
    rw [h.isUsed_eq hs.max_le, hblocks]
    simp only [mem_blocksFrom_block]
  aligned := fun b hb => by
    rw [hblocks, mem_blocksFrom_block] at hb
    have := h.below_max
    have := hs.max_le
    rw [haddr]
    unfold pageSize
    omega

theorem PmmDraw.spec (hs : p.Sane) (h : PmmDraw p e p') (hne : e.addr ≠ 0) : DrawSpec p e p' := by
  have hpage : ∀ a, pmmAllocPage p = .ok (a, p') → a ≠ 0 → ∃ b, a = b * pageSize ∧ Takes p b 1 p' := by
    intro a hcall ha
    rcases pmmAllocPage_cases hs.max_le hcall with ⟨rfl, -⟩ | ⟨b, hb, htakes, -⟩
    · contradiction
    · exact ⟨b, hb, htakes⟩
  cases e with
  | table d a =>
      obtain ⟨b, rfl, htakes⟩ := hpage a h hne
      exact htakes.drawSpec hs rfl rfl
  | directory a =>
      obtain ⟨b, rfl, htakes⟩ := hpage a h hne
      exact htakes.drawSpec hs rfl rfl
  | pages num a =>
      rcases pmmAllocPages_cases hs.max_le hs.zero_used num with hzero | ⟨f, p'', hcall, -, htakes⟩
      · rw [PmmDraw, hzero] at h
        cases h
        exact absurd rfl hne
      · rw [PmmDraw, hcall] at h
        cases h
        exact htakes.drawSpec hs rfl rfl
  | heap size a =>
      obtain rfl : p' = p := h
      refine ⟨hs, id, rfl, fun b hb => ?_, fun b => ?_, fun b hb => ?_⟩
      · exact absurd hb (Finset.notMem_empty b)
      · rw [decide_eq_false (show b ∉ (Alloc.heap size a).blocks from Finset.notMem_empty b),
          Bool.false_or]
      · exact absurd hb (Finset.notMem_empty b)

/-! ## sequences of calls -/

/-- What a sequence of successful allocations does. -/
structure DrawsSpec (p : Pmm) (es : List Alloc) (p' : Pmm) : Prop where
  sane : p'.Sane
  inv : p.Inv → p'.Inv
  maxBlocks : p'.maxBlocks = p.maxBlocks
  free : ∀ e ∈ es, ∀ b ∈ e.blocks, b < p.maxBlocks ∧ p.isUsed b = false
  used : ∀ b, p'.isUsed b = true ↔ p.isUsed b = true ∨ ∃ e ∈ es, b ∈ e.blocks
  disjoint : es.Pairwise fun e e' => Disjoint e.blocks e'.blocks
  aligned : ∀ e ∈ es, ∀ b ∈ e.blocks, e.addr % pageSize = 0 ∧ e.addr < 2 ^ 32

theorem drawsSpec_of_run (hs : p.Sane) (h : Run PmmDraw p es p') (hne : ∀ e ∈ es, e.addr ≠ 0) :
    DrawsSpec p es p' := by
  induction h with
  | nil p =>
      exact ⟨hs, id, rfl, fun _ he => (nomatch he), fun b => by simp, .nil, fun _ he => (nomatch he)⟩
  | @cons p e p₁ es p' hstep _ ih =>
      obtain ⟨hhead, htail⟩ := List.forall_mem_cons.mp hne
      have hd := hstep.spec hs hhead
      have hrest := ih hd.sane htail
      refine ⟨hrest.sane, fun hinv => hrest.inv (hd.inv hinv), hrest.maxBlocks.trans hd.maxBlocks,
        ?_, ?_, ?_, List.forall_mem_cons.mpr ⟨hd.aligned, hrest.aligned⟩⟩
      · refine List.forall_mem_cons.mpr ⟨hd.free, fun e' he' b hb => ?_⟩
        obtain ⟨hlt, hfree⟩ := hrest.free e' he' b hb
        rw [hd.used, Bool.or_eq_false_iff] at hfree
        exact ⟨hd.maxBlocks ▸ hlt, hfree.2⟩
      · intro b
        rw [hrest.used, hd.used]
        simp only [Bool.or_eq_true, decide_eq_true_eq, List.mem_cons, exists_eq_or_imp]
        tauto
      · refine List.pairwise_cons.mpr ⟨fun e' he' => ?_, hrest.disjoint⟩
        rw [Finset.disjoint_left]
        intro b hb hb'
        have hfree := (hrest.free e' he' b hb').2
        rw [hd.used, decide_eq_true hb] at hfree
        contradiction

theorem Draws.spec {s s' : Vm Pmm} (hs : s.pmm.Sane) (h : Draws s s' new)
    (hne : ∀ e ∈ new, e.addr ≠ 0) : DrawsSpec s.pmm new s'.pmm := by
  have hrun := drawsSpec_of_run hs h.run fun e he => hne e (List.mem_reverse.mp he)
  exact
    { sane := hrun.sane
      inv := hrun.inv
      maxBlocks := hrun.maxBlocks
      free := fun e he => hrun.free e (List.mem_reverse.mpr he)
      used := fun b => by simpa only [List.mem_reverse] using hrun.used b
      disjoint := (List.pairwise_reverse.mp hrun.disjoint).imp fun hd => hd.symm
      aligned := fun e he => hrun.aligned e (List.mem_reverse.mpr he) }

section

variable {s s' : Vm Pmm} (hs : s.pmm.Sane) (h : Draws s s' new) (hne : ∀ e ∈ new, e.addr ≠ 0)

include hs h hne

/-- Frames in use stay in use. -/
theorem Draws.keeps (hf : s.pmm.Taken f) : s'.pmm.Taken f := ((h.spec hs hne).used _).mpr (.inl hf)

/-- What was allocated was not in use. -/
theorem Draws.not_taken (he : e ∈ new) (hb : f / pageSize ∈ e.blocks) : ¬ s.pmm.Taken f := by
  rw [Pmm.Taken, ((h.spec hs hne).free e he _ hb).2]
  exact Bool.false_ne_true

/-- What was allocated is in use. -/
theorem Draws.taken (he : e ∈ new) (hb : f / pageSize ∈ e.blocks) : s'.pmm.Taken f :=
  ((h.spec hs hne).used _).mpr (.inr ⟨e, he, hb⟩)

end

theorem mem_blocks_table (d a : Nat) : a / pageSize ∈ (Alloc.table d a).blocks := by
  rw [Alloc.blocks, blocksFrom, Finset.mem_Ico]
  omega

theorem mem_blocks_directory (a : Nat) : a / pageSize ∈ (Alloc.directory a).blocks := by
  rw [Alloc.blocks, blocksFrom, Finset.mem_Ico]
  omega

/-- The log tells which allocations have succeeded. -/
theorem Draws.addr_ne {s s' : Vm Pmm} (h : Draws s s' new) (hsucc : s.Succeeds s') :
    ∀ e ∈ new, e.addr ≠ 0 := by
  obtain ⟨new', hlog, hne⟩ := hsucc
  rw [h.log] at hlog
  rwa [List.append_cancel_right hlog]

end NimbleOS
