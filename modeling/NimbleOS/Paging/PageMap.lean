import Mathlib.Logic.Function.Basic
import NimbleOS.Vm

/-!
# NimbleOS.Paging.PageMap

What the virtual memory manager is for: it maintains a finite map from virtual
pages to frames and flags.  The operations on such a map are stated here with no
tables in it, on whole ranges; the laws say that a range is its first page and the
rest, and that one page is a range of length one.
-/

namespace NimbleOS

/-- Virtual page number to frame address and page-entry flags. -/
abbrev PageMap := Nat → Option (Nat × Nat)

namespace PageMap

/-- Page `page + i` goes to `phys + i * 4096`; an already mapped page forbids it. -/
def mapRange (σ : PageMap) (page phys num flags : Nat) : Option PageMap :=
  if ∀ i < num, σ (page + i) = none then
    some fun p =>
      if page ≤ p ∧ p < page + num then
        some (u32 (phys + (p - page) * pageSize), flags + pagePresent)
      else σ p
  else none

def unmapRange (σ : PageMap) (page num : Nat) : PageMap :=
  fun p => if page ≤ p ∧ p < page + num then none else σ p

/-- Where a range has been mapped. -/
theorem mapRange_at {σ σ' : PageMap} (h : σ.mapRange page phys num flags = some σ') (p : Nat) :
    σ' p = if page ≤ p ∧ p < page + num then
      some (u32 (phys + (p - page) * pageSize), flags + pagePresent) else σ p := by
  unfold mapRange at h
  split at h
  · rw [← Option.some.inj h]
  · contradiction

/-- One page is a range of length one. -/
theorem mapRange_one (σ : PageMap) (page flags : Nat) (hphys : phys < 2 ^ 32) :
    σ.mapRange page phys 1 flags =
      if σ page = none then some (Function.update σ page (some (phys, flags + pagePresent)))
      else none := by
  have hall : (∀ i < 1, σ (page + i) = none) ↔ σ page = none :=
    ⟨fun h => h 0 Nat.one_pos, fun h i hi => by rwa [Nat.lt_one_iff.mp hi]⟩
  simp only [mapRange, hall]
  split
  · congr 1
    funext p
    by_cases hp : p = page
    · subst hp
      simp [u32_of_lt hphys]
    · rw [Function.update_of_ne hp, if_neg (by omega)]
  · rfl

theorem unmapRange_one (σ : PageMap) (page : Nat) :
    σ.unmapRange page 1 = Function.update σ page none := by
  funext p
  by_cases hp : p = page
  · subst hp
    simp [unmapRange]
  · rw [Function.update_of_ne hp, unmapRange, if_neg (by omega)]

/-- A range is its first page and the rest. -/
theorem mapRange_succ (σ : PageMap) (page num flags : Nat) (hphys : phys < 2 ^ 32) :
    σ.mapRange page phys (num + 1) flags =
      (σ.mapRange page phys 1 flags).bind fun σ =>
        σ.mapRange (page + 1) (u32 (phys + pageSize)) num flags := by
  rw [mapRange_one σ page flags hphys]
  by_cases hpage : σ page = none
  · rw [if_pos hpage, Option.bind_some]
    have hall : (∀ i < num + 1, σ (page + i) = none) ↔
        ∀ i < num, Function.update σ page (some (phys, flags + pagePresent)) (page + 1 + i)
          = none := by
      constructor
      · intro h i hi
        rw [Function.update_of_ne (by omega), show page + 1 + i = page + (i + 1) by omega]
        exact h (i + 1) (by omega)
      · intro h i hi
        cases i with
        | zero => exact hpage
        | succ i =>
            have := h i (by omega)
            rwa [Function.update_of_ne (by omega), show page + 1 + i = page + (i + 1) by omega]
              at this
    simp only [mapRange, hall]
    split
    · congr 1
      funext p
      by_cases hp : p = page
      · subst hp
        rw [if_pos (by omega), if_neg (by omega), Function.update_self, Nat.sub_self,
          Nat.zero_mul, Nat.add_zero, u32_of_lt hphys]
      · rw [Function.update_of_ne hp]
        by_cases hin : page + 1 ≤ p ∧ p < page + 1 + num
        · have haddr : u32 (phys + (p - page) * pageSize) =
              u32 (u32 (phys + pageSize) + (p - (page + 1)) * pageSize) := by
            unfold u32 pageSize
            omega
          rw [if_pos (by omega), if_pos hin, haddr]
        · rw [if_neg (by omega), if_neg hin]
    · rfl
  · rw [if_neg hpage, Option.bind_none, mapRange, if_neg]
    exact fun h => hpage (h 0 (Nat.succ_pos num))

theorem unmapRange_succ (σ : PageMap) (page num : Nat) :
    σ.unmapRange page (num + 1) = (σ.unmapRange page 1).unmapRange (page + 1) num := by
  funext p
  simp only [unmapRange]
  by_cases hp : p = page
  · subst hp
    rw [if_pos (by omega), if_neg (by omega), if_pos (by omega)]
  · by_cases hin : page + 1 ≤ p ∧ p < page + 1 + num
    · rw [if_pos (by omega), if_pos hin]
    · rw [if_neg (by omega), if_neg hin, if_neg (by omega)]

end PageMap

end NimbleOS
