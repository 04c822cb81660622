import Mathlib.Data.Finset.Card
import Mathlib.Data.Finset.Image
import NimbleOS.Proc.Clone

/-!
# NimbleOS.Proc.Requests

What `proc_run_code` asks of the physical memory manager, call by call.  The list
(`procRequests`) depends on the length of the code and on whether the window has a
page table already; as long as every request is granted, these are the calls that
are made, and the counter of used blocks grows by what the list asks for.
-/

namespace NimbleOS

open Pmm

/-! ## requests -/

/-- A request to the physical memory manager. -/
inductive Request where
  /-- `pmm_alloc_page` -/
  | page
  /-- `pmm_alloc_pages` -/
  | pages (num : Nat)

namespace Request

/-- Number of blocks asked for. -/
def size : Request → Nat
  | page => 1
  | pages num => num

def call (p : Pmm) : Request → Except Halt (Nat × Pmm)
  | page => pmmAllocPage p
  | pages num => .ok (pmmAllocPages p num)

/-- The call succeeds. -/
def Granted (p : Pmm) (r : Request) (p' : Pmm) : Prop := ∃ a, a ≠ 0 ∧ r.call p = .ok (a, p')

/-- The call answers 0. -/
def Refused (p : Pmm) (r : Request) : Prop := ∃ p', r.call p = .ok (0, p')

end Request

/-- A granted request takes that many free blocks. -/
theorem Request.Granted.takes (hs : p.Sane) (h : Granted p r p') : ∃ f, Takes p f r.size p' := by
  obtain ⟨a, hne, hcall⟩ := h
  cases r with
  | page =>
      rcases pmmAllocPage_cases hs.max_le hcall with ⟨rfl, -⟩ | ⟨b, -, htakes, -⟩
      · contradiction
      · exact ⟨b, htakes⟩
  | pages num =>
      rw [call, Except.ok.injEq] at hcall
      rcases pmmAllocPages_cases hs.max_le hs.zero_used num with hzero | ⟨f, p'', hsome, -, htakes⟩
      · rw [hzero] at hcall
        cases hcall
        contradiction
      · rw [hsome] at hcall
        cases hcall
        exact ⟨f, htakes⟩

theorem Request.Granted.used (hinv : p.Inv) (h : Granted p r p') :
    p'.Inv ∧ p'.usedBlocks = p.usedBlocks + r.size := by
  obtain ⟨f, htakes⟩ := h.takes hinv.toSane
  obtain ⟨hused, hcount⟩ :=
    usedCount_mmapSetBlocks p hinv.max_le htakes.below_max htakes.free hinv.used_eq
  refine ⟨hinv.takes htakes, ?_⟩
  rw [htakes.result, hused, hcount, hinv.used_eq]

/-- Over a run of granted requests the counter grows by what was asked for. -/
theorem granted_used (h : Run Request.Granted p rs p') (hinv : p.Inv) :
    p'.Inv ∧ p'.usedBlocks = p.usedBlocks + (rs.map Request.size).sum := by
  induction h with
  | nil p => exact ⟨hinv, rfl⟩
  | cons hstep _ ih =>
      obtain ⟨hinv₁, hused₁⟩ := hstep.used hinv
      obtain ⟨hinv', hused'⟩ := ih hinv₁
      refine ⟨hinv', ?_⟩
      rw [hused', hused₁, List.map_cons, List.sum_cons, Nat.add_assoc]

/-- Granted single pages, as the frame allocator of the paging theorems. -/
theorem allocSteps_of_granted (h : Run Request.Granted p (List.replicate n .page) p') :
    ∃ as, as.length = n ∧ (∀ a ∈ as, a ≠ 0) ∧ Run AllocStep p as p' := by
  induction n generalizing p with
  | zero =>
      cases h
      exact ⟨[], rfl, by simp, .nil _⟩
  | succ n ih =>
      rw [List.replicate_succ] at h
      cases h with
      | cons hstep hrest =>
          obtain ⟨a, hne, hcall⟩ := hstep
          obtain ⟨as, hlen, hnz, hrun⟩ := ih hrest
          exact ⟨a :: as, by rw [List.length_cons, hlen], List.forall_mem_cons.mpr ⟨hne, hnz⟩,
            .cons hcall hrun⟩

/-! ## enough memory -/

/-- All blocks from `n` on are free, and the searches see them. -/
structure Room (p : Pmm) (n : Nat) : Prop extends p.Whole where
  pos : 0 < n
  free : ∀ b, n ≤ b → b < p.maxBlocks → p.isUsed b = false

namespace Room

variable {p : Pmm} (h : Room p n)

include h

theorem used_le : p.usedBlocks ≤ n := by
  rw [h.used_eq, usedCount, Bitset.card]
  refine Nat.le_trans (Finset.card_le_card fun b hb => ?_) (Nat.le_of_eq (Finset.card_range n))
  rw [Finset.mem_filter, Finset.mem_range] at hb
  rw [Finset.mem_range]
  by_contra hge
  have hfree : Bitset.test p.bitmap b = false := h.free b (by omega) hb.1
  rw [hfree] at hb
  exact Bool.false_ne_true hb.2

theorem scanned_eq : p.scanned = p.maxBlocks := by
  have := h.whole
  unfold scanned
  omega

theorem guard (hle : n + m ≤ p.maxBlocks) : m ≤ u32Sub p.maxBlocks p.usedBlocks := by
  have hused := h.used_le
  have hmax := h.max_le
  rw [u32Sub_of_le (by omega) (by omega)]
  omega

/-- Blocks taken below the end of the room leave the rest of it. -/
theorem takes (ht : Takes p f m p') (hf : f ≤ n) : Room p' (n + m) where
  toInv := h.toInv.takes ht
  whole := by rw [ht.maxBlocks_eq]; exact h.whole
  pos := by have := h.pos; omega
  free := fun b hlo hhi => by
    rw [ht.maxBlocks_eq] at hhi
    rw [ht.isUsed_eq h.max_le, h.free b (by omega) hhi, decide_eq_false (by omega)]
    rfl

/-- **A request** for no more than there is room is granted, at the room's start or below. -/
theorem granted (r : Request) (hsize : 0 < r.size) (hle : n + r.size ≤ p.maxBlocks) :
    ∃ p', r.Granted p p' ∧ Room p' (n + r.size) ∧ p'.maxBlocks = p.maxBlocks := by
  have hguard := h.guard hle
  have hscan := h.scanned_eq
  have hmax := h.max_le
  cases r with
  | page =>
      have hfind := h.find_ne_zero hguard
      obtain ⟨hlt, hfree, hleast⟩ := mmapFindFree_spec p hfind
      have hn : mmapFindFree p ≤ n := by
        by_contra hgt
        have hused := hleast n (by omega)
        rw [isFree, h.free n (Nat.le_refl n) (by rw [Request.size] at hle; omega)] at hused
        contradiction
      have ht : Takes p (mmapFindFree p) 1 (mmapSet p (mmapFindFree p)) :=
        { pos := Nat.pos_of_ne_zero hfind
          below := hlt
          free := fun b hlo hhi => by
            obtain rfl : b = mmapFindFree p := by omega
            exact (isFree_eq_true p).mp hfree
          result := (mmapSetBlocks_one p (by omega)).symm }
      refine ⟨_, ⟨_, ?_, pmmAllocPage_of_find hguard rfl hfind (by omega)⟩, h.takes ht hn,
        ht.maxBlocks_eq⟩
      unfold pageSize
      omega
  | pages num =>
      rw [Request.size] at *
      have hfits : FirstFit.Fits p.isFree num n := fun b hlo hhi =>
        (isFree_eq_true p).mpr (h.free b hlo (by omega))
      rcases mmapFindFreeFrame_spec p h.zero_used hsize with ⟨-, hnone⟩ | ⟨hfind, hleft⟩
      · exact absurd hfits (hnone n (by rw [hscan]; exact hle))
      · have hn : mmapFindFreeFrame p num ≤ n := by
          by_contra hgt
          exact hleft.least n (by omega) hfits
        have hlt := hleft.within
        have ht : Takes p (mmapFindFreeFrame p num) num (mmapSetBlocks p (mmapFindFreeFrame p num) num) :=
          { pos := Nat.pos_of_ne_zero hfind
            below := hlt
            free := fun b hlo hhi => (isFree_eq_true p).mp (hleft.fits b hlo hhi)
            result := rfl }
        have hcall := pmmAllocPages_of_find hguard rfl hfind (by omega)
        refine ⟨_, ⟨_, ?_, congrArg Except.ok hcall⟩, h.takes ht hn, ht.maxBlocks_eq⟩
        unfold pageSize
        omega

/-- **Requests** for no more than there is room are all granted. -/
theorem grantedAll (rs : List Request) (hsize : ∀ r ∈ rs, 0 < r.size)
    (hle : n + (rs.map Request.size).sum ≤ p.maxBlocks) :
    ∃ p', Run Request.Granted p rs p' ∧ Room p' (n + (rs.map Request.size).sum) ∧
      p'.maxBlocks = p.maxBlocks := by
  induction rs generalizing p n with
  | nil => exact ⟨p, .nil p, h, rfl⟩
  | cons r rs ih =>
      obtain ⟨hr, hrs⟩ := List.forall_mem_cons.mp hsize
      rw [List.map_cons, List.sum_cons] at hle ⊢
      obtain ⟨p₁, hgrant, hroom, hmax⟩ := h.granted r hr (by omega)
      obtain ⟨p', hrun, hroom', hmax'⟩ := ih hroom hrs (by rw [hmax]; omega)
      rw [Nat.add_assoc] at hroom'
      exact ⟨p', .cons hgrant hrun, hroom', hmax'.trans hmax⟩

end Room

/-! ## the requests of proc_run_code -/

/-- `num_code_pages`. -/
def numCodePages (len : Nat) : Nat := len / pageSize + 1

/-- The 4 MiB slots of the code pages. -/
def codeSlots (len : Nat) : Nat := len / 2 ^ 22 + 1

/-- First page of the stack. -/
def stackPage : Nat := 0xBFFF6

/-- The page table of the window, unless there is one. -/
def windowRequests (s : Vm Pmm) : List Request :=
  if isPresent (s.pde windowSlot) then [] else [.page]

/-- The code and its page tables. -/
def codeRequests (len : Nat) : List Request :=
  .pages (numCodePages len) :: List.replicate (codeSlots len) .page

/-- The stack and its page table, unless the code has reached it. -/
def stackRequests (len : Nat) : List Request :=
  .pages procKernelStackPages :: if codeSlots len ≤ 767 then [.page] else []

/-- The calls of the physical memory manager that `proc_run_code` makes, in order,
as long as they are granted. -/
def procRequests (s : Vm Pmm) (len : Nat) : List Request :=
  .page :: (windowRequests s ++ (codeRequests len ++ stackRequests len))

/-- The distinct slots below the kernel that code and stack touch. -/
def userSlots (len : Nat) : Finset Nat :=
  ((Finset.range (numCodePages len)) ∪ (Finset.Ico stackPage 0xC0000)).image fun p => p / 1024

theorem card_userSlots (hend : numCodePages len ≤ stackPage) :
    (userSlots len).card = codeSlots len + if codeSlots len ≤ 767 then 1 else 0 := by
  have hslots : userSlots len = insert 767 (Finset.range (codeSlots len)) := by
    ext d
    simp only [userSlots, Finset.mem_image, Finset.mem_union, Finset.mem_range, Finset.mem_Ico,
      Finset.mem_insert]
    unfold numCodePages codeSlots stackPage pageSize at *
    constructor
    · rintro ⟨p, hp, rfl⟩
      omega
    · rintro (rfl | hd)
      · exact ⟨0xBFFF6, by omega, by omega⟩
      · exact ⟨d * 1024, by omega, by omega⟩
  rw [hslots]
  by_cases hle : codeSlots len ≤ 767
  · rw [if_pos hle, Finset.card_insert_of_notMem (by simpa using hle), Finset.card_range]
  · have hmem : 767 ∈ Finset.range (codeSlots len) := Finset.mem_range.mpr (by omega)
    rw [if_neg hle, Finset.insert_eq_of_mem hmem, Finset.card_range, Nat.add_zero]

/-- What the requests ask for. -/
theorem procRequests_size (s : Vm Pmm) (hend : numCodePages len ≤ stackPage) :
    ((procRequests s len).map Request.size).sum =
      1 + numCodePages len + procKernelStackPages + (userSlots len).card +
        if isPresent (s.pde windowSlot) then 0 else 1 := by
  rw [card_userSlots hend]
  simp only [procRequests, windowRequests, codeRequests, stackRequests, List.map_cons,
    List.map_append, List.sum_cons, List.sum_append, List.map_replicate, List.sum_replicate_nat,
    Request.size, Nat.mul_one]
  split <;> split <;> simp only [List.map_cons, List.map_nil, List.sum_cons, List.sum_nil,
    Request.size] <;> omega

/-- No request is empty. -/
theorem procRequests_pos (s : Vm Pmm) (len : Nat) : ∀ r ∈ procRequests s len, 0 < r.size := by
  intro r hr
  simp only [procRequests, codeRequests, stackRequests, List.mem_cons, List.mem_append,
    List.mem_replicate] at hr
  rcases hr with rfl | hwindow | (rfl | ⟨-, rfl⟩) | rfl | hstack
  · exact Nat.one_pos
  · unfold windowRequests at hwindow
    split at hwindow
    · cases hwindow
    · rw [List.mem_singleton.mp hwindow]
      exact Nat.one_pos
  · exact Nat.succ_pos _
  · exact Nat.one_pos
  · decide
  · split at hstack
    · rw [List.mem_singleton.mp hstack]
      exact Nat.one_pos
    · cases hstack

theorem Room.mono {p : Pmm} (h : Room p n) (hle : n ≤ m) : Room p m where
  toWhole := h.toWhole
  pos := Nat.lt_of_lt_of_le h.pos hle
  free := fun b hlo hhi => h.free b (Nat.le_trans hle hlo) hhi

/-- The requests are granted where there is room. -/
theorem Room.procRequests {p : Pmm} (h : Room p n) (s : Vm Pmm) (hend : numCodePages len ≤ stackPage)
    (hle : n + (2 + numCodePages len + procKernelStackPages + (userSlots len).card) ≤ p.maxBlocks) :
    ∃ p', Run Request.Granted p (procRequests s len) p' ∧
      Room p' (n + (2 + numCodePages len + procKernelStackPages + (userSlots len).card)) ∧
      p'.maxBlocks = p.maxBlocks := by
  have hsize : ((NimbleOS.procRequests s len).map Request.size).sum ≤
      2 + numCodePages len + procKernelStackPages + (userSlots len).card := by
    rw [procRequests_size s hend]
    split <;> omega
  obtain ⟨p', hrun, hroom, hmax⟩ := h.grantedAll _ (procRequests_pos s len) (by omega)
  exact ⟨p', hrun, hroom.mono (by omega), hmax⟩

end NimbleOS
