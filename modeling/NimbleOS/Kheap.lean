import NimbleOS.Boot
import NimbleOS.Lib.Run

/-!
# NimbleOS.Kheap

The kernel heap (`kernel/src/mem/kheap.c`): a pointer that only moves up.  A request is
refused by a test on a 32-bit sum.  As long as this sum does not wrap, the blocks that are
handed out are disjoint and in the heap; one that wraps passes the test, and moves the
pointer out of the heap.
-/

namespace NimbleOS

/-- `kamalloc`: the next multiple of `align`, even if the pointer is one. -/
def kamalloc (k : Kernel) (size align : Nat) : Nat × Kernel :=
  let next := u32 ((k.heapPointer / align + 1) * align)
  if u32 (next + size) ≥ kernelHeapEndVirt then
    (0, { k with vm := { k.vm with log := .heap size 0 :: k.vm.log } })
  else
    (next,
      { k with
        vm := { k.vm with log := .heap size next :: k.vm.log }
        heapPointer := u32 (next + size) })

/-! ## calls -/

inductive HeapCall where
  | kmalloc (size : BitVec 32)
  | kamalloc (size align : BitVec 32) (h : align ≠ 0)

namespace HeapCall

def size : HeapCall → Nat
  | .kmalloc size => size.toNat
  | .kamalloc size _ _ => size.toNat

def align : HeapCall → Nat
  | .kmalloc _ => 1
  | .kamalloc _ align _ => align.toNat

def exec (k : Kernel) : HeapCall → Nat × Kernel
  | .kmalloc size => NimbleOS.kmalloc k size.toNat
  | .kamalloc size align _ => NimbleOS.kamalloc k size.toNat align.toNat

/-- Where the block would begin, without a bound on addresses. -/
def start (hp : Nat) : HeapCall → Nat
  | .kmalloc _ => hp
  | .kamalloc _ align _ => (hp / align.toNat + 1) * align.toNat

end HeapCall

/-- The kernel, and the blocks that have been handed out: their addresses and sizes. -/
structure HeapState where
  kernel : Kernel
  blocks : List (Nat × Nat)

def heapStep (s : HeapState) (call : HeapCall) : HeapState :=
  { kernel := (call.exec s.kernel).2
    blocks :=
      if (call.exec s.kernel).1 = 0 then s.blocks
      else ((call.exec s.kernel).1, call.size) :: s.blocks }

/-- What a call owes its caller. -/
structure HeapSafe (s : HeapState) (call : HeapCall) : Prop where
  bounds : kernelHeapBaseVirt ≤ (heapStep s call).kernel.heapPointer ∧
    (heapStep s call).kernel.heapPointer ≤ kernelHeapEndVirt
  inside : (call.exec s.kernel).1 ≠ 0 → kernelHeapBaseVirt ≤ (call.exec s.kernel).1 ∧
    (call.exec s.kernel).1 + call.size ≤ kernelHeapEndVirt
  disjoint : (call.exec s.kernel).1 ≠ 0 → ∀ b ∈ s.blocks, ∀ a, b.1 ≤ a → a < b.1 + b.2 →
    ¬ ((call.exec s.kernel).1 ≤ a ∧ a < (call.exec s.kernel).1 + call.size)
  aligned : call.align ∣ (call.exec s.kernel).1
  unchanged : (call.exec s.kernel).1 = 0 →
    (heapStep s call).kernel.heapPointer = s.kernel.heapPointer

/-- A request that passes the test also fits without wrap-around.  Or its block begins at
`2 ^ 32`: then the answer is 0, which reads as a refusal, and `size` is the new pointer. -/
def FitsExactly (s : HeapState) (call : HeapCall) : Prop :=
  let hp := s.kernel.heapPointer
  u32 (u32 (call.start hp) + call.size) ≥ kernelHeapEndVirt ∨
    call.start hp + call.size < kernelHeapEndVirt ∨ call.start hp = 2 ^ 32 ∧ call.size = hp

/-! ## one call -/

/-- Both functions in one: the answer and the new pointer. -/
theorem exec_eq (k : Kernel) (call : HeapCall) (h : k.heapPointer < 2 ^ 32) :
    (call.exec k).1 =
        (if u32 (u32 (call.start k.heapPointer) + call.size) ≥ kernelHeapEndVirt then 0
        else u32 (call.start k.heapPointer)) ∧
      (call.exec k).2.heapPointer =
        if u32 (u32 (call.start k.heapPointer) + call.size) ≥ kernelHeapEndVirt then k.heapPointer
        else u32 (u32 (call.start k.heapPointer) + call.size) := by
  cases call with
  | kmalloc size =>
      simp only [HeapCall.exec, HeapCall.start, HeapCall.size, kmalloc, u32_of_lt h]
      by_cases hfull : u32 (k.heapPointer + size.toNat) ≥ kernelHeapEndVirt
      · simp only [if_pos hfull, and_self]
      · simp only [if_neg hfull, and_self]
  | kamalloc size align hne =>
      simp only [HeapCall.exec, HeapCall.start, HeapCall.size, kamalloc]
      by_cases hfull : u32 (u32 ((k.heapPointer / align.toNat + 1) * align.toNat) + size.toNat) ≥
          kernelHeapEndVirt
      · rw [if_pos hfull]
        exact ⟨(if_pos hfull).symm, (if_pos hfull).symm⟩
      · rw [if_neg hfull]
        exact ⟨(if_neg hfull).symm, (if_neg hfull).symm⟩

theorem HeapCall.size_lt (call : HeapCall) : call.size < 2 ^ 32 := by
  cases call <;> exact BitVec.isLt _

/-- A block begins at or behind the pointer; if it begins behind the last address, then less
than the heap's base behind it. -/
theorem start_spec (call : HeapCall) (h : hp < kernelHeapEndVirt) :
    hp ≤ call.start hp ∧ call.start hp < 2 ^ 32 + kernelHeapBaseVirt := by
  cases call with
  | kmalloc size =>
      refine ⟨Nat.le_refl _, ?_⟩
      have hend : kernelHeapEndVirt = 0xD0400000 := rfl
      have hbase : kernelHeapBaseVirt = 0xD0000000 := rfl
      simp only [HeapCall.start]
      omega
  | kamalloc size align hne =>
      have halign := align.isLt
      have hend : kernelHeapEndVirt = 0xD0400000 := rfl
      have hbase : kernelHeapBaseVirt = 0xD0000000 := rfl
      have hpos : 0 < align.toNat := Nat.pos_of_ne_zero fun h0 => hne (BitVec.eq_of_toNat_eq h0)
      have hdiv := Nat.div_add_mod hp align.toNat
      have hmod := Nat.mod_lt hp hpos
      have hprod : (hp / align.toNat + 1) * align.toNat =
          align.toNat * (hp / align.toNat) + align.toNat := by rw [Nat.add_mul, Nat.mul_comm, Nat.one_mul]
      rw [HeapCall.start, hprod]
      refine ⟨by omega, ?_⟩
      by_cases hsmall : hp < align.toNat
      · rw [Nat.div_eq_of_lt hsmall, Nat.mul_zero]
        omega
      · omega

theorem align_dvd_start (call : HeapCall) (hp : Nat) : call.align ∣ call.start hp := by
  cases call with
  | kmalloc size => exact Nat.one_dvd _
  | kamalloc size align hne => exact Nat.dvd_mul_left _ _

section

variable {start : Nat} (hbase : kernelHeapBaseVirt ≤ hp) (hend : hp < kernelHeapEndVirt)
  (hstart : hp ≤ start) (hsize : size < 2 ^ 32)
  (hp_eq : p = if u32 (u32 start + size) ≥ kernelHeapEndVirt then 0 else u32 start)
  (hhp_eq : hp' = if u32 (u32 start + size) ≥ kernelHeapEndVirt then hp
    else u32 (u32 start + size))

include hbase hend hstart hp_eq hhp_eq

/-- A request that fits is refused, or answered with the block at `start`. -/
theorem request_fits (hfits : u32 (u32 start + size) ≥ kernelHeapEndVirt ∨
      start + size < kernelHeapEndVirt ∨ start = 2 ^ 32 ∧ size = hp) :
    p = 0 ∧ hp' = hp ∨
      p ≠ 0 ∧ p = start ∧ hp' = start + size ∧ start + size < kernelHeapEndVirt := by
  have hend' : kernelHeapEndVirt = 0xD0400000 := rfl
  have hbase' : kernelHeapBaseVirt = 0xD0000000 := rfl
  rw [hend'] at hend hp_eq hhp_eq hfits ⊢
  rw [hbase'] at hbase
  by_cases hfull : u32 (u32 start + size) ≥ 0xD0400000
  · rw [if_pos hfull] at hp_eq hhp_eq
    exact .inl ⟨hp_eq, hhp_eq⟩
  · rw [if_neg hfull] at hp_eq hhp_eq
    unfold u32 at *
    obtain hfits | hfits | ⟨htop, hsame⟩ := hfits
    · exact absurd hfits hfull
    · exact .inr (by omega)
    · exact .inl (by omega)

include hsize

/-- **One request** in numbers, from a pointer `hp` in the heap for `size` bytes at `start`: the
answer `p` and the new pointer `hp'` are in order exactly if it fits. -/
theorem request_iff (hwrap : start < 2 ^ 32 + kernelHeapBaseVirt) :
    ((kernelHeapBaseVirt ≤ hp' ∧ hp' ≤ kernelHeapEndVirt) ∧
        (p ≠ 0 → kernelHeapBaseVirt ≤ p ∧ p + size ≤ kernelHeapEndVirt) ∧ (p = 0 → hp' = hp)) ↔
      u32 (u32 start + size) ≥ kernelHeapEndVirt ∨ start + size < kernelHeapEndVirt ∨
        start = 2 ^ 32 ∧ size = hp := by
  constructor
  · have hend' : kernelHeapEndVirt = 0xD0400000 := rfl
    have hbase' : kernelHeapBaseVirt = 0xD0000000 := rfl
    rw [hend'] at hend hp_eq hhp_eq ⊢
    rw [hbase'] at hbase hwrap ⊢
    rintro ⟨-, hinside, hnull⟩
    by_cases hfull : u32 (u32 start + size) ≥ 0xD0400000
    · exact .inl hfull
    · rw [if_neg hfull] at hp_eq hhp_eq
      unfold u32 at *
      by_cases hzero : p = 0
      · have := hnull hzero
        omega
      · have := hinside hzero
        omega
  · intro hfits
    obtain ⟨hzero, hkept⟩ | ⟨hzero, hp_start, hnew, hroom⟩ :=
      request_fits hbase hend hstart hp_eq hhp_eq hfits
    · refine ⟨by omega, fun h => absurd hzero h, fun _ => hkept⟩
    · exact ⟨by omega, fun _ => by omega, fun h => absurd h hzero⟩

end

/-! ## runs -/

/-- The pointer is in the heap, and the blocks lie below it. -/
structure HeapInv (s : HeapState) : Prop where
  base : kernelHeapBaseVirt ≤ s.kernel.heapPointer
  room : s.kernel.heapPointer < kernelHeapEndVirt
  below : ∀ b ∈ s.blocks, b.1 + b.2 ≤ s.kernel.heapPointer

section

variable {s : HeapState} (h : HeapInv s) (call : HeapCall)

include h

theorem HeapInv.lt : s.kernel.heapPointer < 2 ^ 32 :=
  Nat.lt_trans h.room (by decide)

/-- A call that fits: no block, or one between the old pointer and the new one. -/
theorem HeapInv.fits (hfits : FitsExactly s call) :
    (call.exec s.kernel).1 = 0 ∧ (heapStep s call).kernel.heapPointer = s.kernel.heapPointer ∨
      (call.exec s.kernel).1 ≠ 0 ∧ (call.exec s.kernel).1 = call.start s.kernel.heapPointer ∧
        (heapStep s call).kernel.heapPointer = (call.exec s.kernel).1 + call.size ∧
        (call.exec s.kernel).1 + call.size < kernelHeapEndVirt := by
  obtain ⟨hanswer, hpointer⟩ := exec_eq s.kernel call h.lt
  obtain hnone | ⟨hzero, hp, hnew, hroom⟩ :=
    request_fits h.base h.room (start_spec call h.room).1 hanswer hpointer hfits
  · exact .inl hnone
  · refine .inr ⟨hzero, hp, hnew.trans ?_, ?_⟩
    · rw [hp]
    · rwa [hp]

/-- **Step lemma**: such a call keeps the invariant. -/
theorem HeapInv.step (hfits : FitsExactly s call) : HeapInv (heapStep s call) := by
  have hstart := (start_spec call h.room).1
  obtain ⟨hzero, hkept⟩ | ⟨hzero, hp, hnew, hroom⟩ := h.fits call hfits
  · refine ⟨by rw [hkept]; exact h.base, by rw [hkept]; exact h.room, fun b hb => ?_⟩
    rw [heapStep, if_pos hzero] at hb
    rw [hkept]
    exact h.below b hb
  · have hbase := h.base
    refine ⟨by omega, by omega, fun b hb => ?_⟩
    rw [heapStep, if_neg hzero] at hb
    obtain rfl | hb := List.mem_cons.mp hb
    · rw [hnew]
    · have := h.below b hb
      omega

/-- A call is safe exactly if it fits. -/
theorem heapSafe_iff : HeapSafe s call ↔ FitsExactly s call := by
  obtain ⟨hanswer, hpointer⟩ := exec_eq s.kernel call h.lt
  obtain ⟨hstart, hwrap⟩ := start_spec call h.room
  have hiff := request_iff h.base h.room hstart call.size_lt hanswer hpointer hwrap
  constructor
  · exact fun hsafe => hiff.mp ⟨hsafe.bounds, hsafe.inside, hsafe.unchanged⟩
  · intro hfits
    obtain ⟨hbounds, hinside, hunchanged⟩ := hiff.mpr hfits
    refine
      { bounds := hbounds
        inside := hinside
        disjoint := fun hne b hb a _ ha => ?_
        aligned := ?_
        unchanged := hunchanged }
    · obtain ⟨hzero, -⟩ | ⟨-, hp, -, -⟩ := h.fits call hfits
      · exact absurd hzero hne
      · have := h.below b hb
        omega
    · obtain ⟨hzero, -⟩ | ⟨-, hp, -, -⟩ := h.fits call hfits
      · rw [hzero]
        exact Nat.dvd_zero _
      · rw [hp]
        exact align_dvd_start call _

end

/-- The calls, one after the other. -/
def HeapRuns (s : HeapState) (call : HeapCall) (s' : HeapState) : Prop := s' = heapStep s call

/-- **The kernel heap.**  In a run of calls on the initial heap each is safe exactly if each
of them fits: its 32-bit sum is refused, or does not wrap. -/
theorem heap_safe_iff (k : Kernel) (hk : k.heapPointer = kernelHeapBaseVirt) (calls : List HeapCall) :
    Run.Always HeapRuns HeapSafe { kernel := k, blocks := [] } calls ↔
      Run.Always HeapRuns FitsExactly { kernel := k, blocks := [] } calls := by
  refine Run.always_congr HeapInv (fun s call h => heapSafe_iff h call) (fun s call s' h hfits hs => ?_)
    ⟨Nat.le_of_eq hk.symm, by rw [hk]; decide, fun b hb => by cases hb⟩
  rw [hs]
  exact h.step call hfits

/-- The heap before the first call. -/
def HeapState.initial : HeapState := { kernel := bootKernel bootVm 0, blocks := [] }

/-- 100 bytes, then a page on a page boundary. -/
theorem heap_safe_iff_two :
    Run.Always HeapRuns HeapSafe .initial [.kmalloc 100, .kamalloc 4096 4096 (by decide)] := by
  refine (heap_safe_iff (bootKernel bootVm 0) rfl _).mpr (.cons (.inr (.inl (by decide))) ?_)
  rintro s rfl
  exact .cons (.inr (.inl (by decide))) fun _ _ => Run.always_nil

/-- `kmalloc(0x30000000)` on the initial heap: the sum is 0, so the request is granted, and the
heap pointer is NULL. -/
theorem kmalloc_wraps :
    ¬ Run.Always HeapRuns HeapSafe .initial [.kmalloc 0x30000000] ∧
      (kmalloc HeapState.initial.kernel 0x30000000).1 = kernelHeapBaseVirt ∧
      (kmalloc HeapState.initial.kernel 0x30000000).2.heapPointer = 0 := by
  refine ⟨fun hall => ?_, by decide, by decide⟩
  have hlow := hall.head.bounds.1
  revert hlow
  decide

end NimbleOS
