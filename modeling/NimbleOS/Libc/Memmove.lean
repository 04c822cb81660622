import NimbleOS.Basic
import NimbleOS.Lib.ByteMem

/-!
# NimbleOS.Libc.Memmove

`memmove` (`libc/src/string/memmove.c`).  It copies upwards if the destination is below the
source, else downwards, so that in an overlap no byte of the source is written before it is
read.
-/

namespace NimbleOS

/-- `dst[i] = src[i]`. -/
def memmoveByte (m : ByteMem) (dst src i : Nat) : ByteMem :=
  m.setByte (u32 (dst + i)) (m (u32 (src + i)))

/-- The loop `for (i = 0; i < size; i++)` from `i` on, with `r` bytes left. -/
def memmoveUp (dst src : Nat) : (r i : Nat) → ByteMem → ByteMem
  | 0, _, m => m
  | r + 1, i, m => memmoveUp dst src r (i + 1) (memmoveByte m dst src i)

/-- The loop `for (i = size; i != 0; i--)` from `i` on. -/
def memmoveDown (dst src : Nat) : (i : Nat) → ByteMem → ByteMem
  | 0, m => m
  | i + 1, m => memmoveDown dst src i (memmoveByte m dst src i)

/-- `memmove`: the pointer that it returns, and the memory. -/
def memmove (m : ByteMem) (dst src size : Nat) : Nat × ByteMem :=
  (dst, if dst < src then memmoveUp dst src size 0 m else memmoveDown dst src size m)

/-! ## the two loops -/

section

variable (m : ByteMem) {dst src size : Nat} (hdst : dst + size ≤ 2 ^ 32) (hsrc : src + size ≤ 2 ^ 32)

include hdst hsrc

/-- Upwards: behind the bytes that are written, the source is as it was. -/
theorem memmoveByte_up (hle : dst ≤ src) (hi : i < size) :
    memmoveByte (m.fill dst i fun j => m (src + j)) dst src i =
      m.fill dst (i + 1) fun j => m (src + j) := by
  have hread : m.fill dst i (fun j => m (src + j)) (src + i) = m (src + i) :=
    ByteMem.fill_of_disjoint m _ (by omega)
  rw [memmoveByte, u32_of_lt (by omega), u32_of_lt (by omega), hread, ByteMem.fill_succ]

/-- Downwards: below the bytes that are written, the source is as it was. -/
theorem memmoveByte_down (hle : src ≤ dst) (hi : i < size) :
    memmoveByte (m.fill (dst + (i + 1)) (size - (i + 1)) fun j => m (src + (i + 1) + j)) dst src i =
      m.fill (dst + i) (size - i) fun j => m (src + i + j) := by
  have hread : m.fill (dst + (i + 1)) (size - (i + 1)) (fun j => m (src + (i + 1) + j)) (src + i) =
      m (src + i) := ByteMem.fill_of_disjoint m _ (by omega)
  have hbytes : (fun j => m (src + (i + 1) + j)) = fun j => m (src + i + (j + 1)) :=
    funext fun j => congrArg m (by omega)
  rw [memmoveByte, u32_of_lt (by omega), u32_of_lt (by omega), hread, hbytes,
    show size - i = size - (i + 1) + 1 by omega, ByteMem.fill_cons]
  rfl

theorem memmoveUp_eq_fill (hle : dst ≤ src) (hi : i + r = size) :
    memmoveUp dst src r i (m.fill dst i fun j => m (src + j)) =
      m.fill dst size fun j => m (src + j) := by
  induction r generalizing i with
  | zero =>
      obtain rfl : i = size := hi
      rfl
  | succ r ih =>
      rw [memmoveUp, memmoveByte_up m hdst hsrc hle (by omega)]
      exact ih (by omega)

theorem memmoveDown_eq_fill (hle : src ≤ dst) (hi : i ≤ size) :
    memmoveDown dst src i (m.fill (dst + i) (size - i) fun j => m (src + i + j)) =
      m.fill dst size fun j => m (src + j) := by
  induction i with
  | zero => rfl
  | succ i ih =>
      rw [memmoveDown, memmoveByte_down m hdst hsrc hle (by omega)]
      exact ih (by omega)

/-- `memmove` stores what the source held before. -/
theorem memmove_eq_fill : memmove m dst src size = (dst, m.fill dst size fun j => m (src + j)) := by
  rw [memmove]
  split
  · next hlt =>
      have hup := memmoveUp_eq_fill m hdst hsrc (Nat.le_of_lt hlt) (Nat.zero_add size)
      rw [ByteMem.fill_zero] at hup
      rw [hup]
  · next hnot =>
      have hdown := memmoveDown_eq_fill m hdst hsrc (Nat.le_of_not_lt hnot) (Nat.le_refl size)
      rw [Nat.sub_self, ByteMem.fill_zero] at hdown
      rw [hdown]

end

/-- **memmove**: the destination holds what the source held before, and no other byte changes,
wherever the two ranges are. -/
theorem memmove_copies (m : ByteMem) (hdst : dst + size ≤ 2 ^ 32) (hsrc : src + size ≤ 2 ^ 32) :
    (∀ i, i < size → (memmove m dst src size).2 (dst + i) = m (src + i)) ∧
      (∀ b, b < dst ∨ dst + size ≤ b → (memmove m dst src size).2 b = m b) ∧
      (memmove m dst src size).1 = dst := by
  rw [memmove_eq_fill m hdst hsrc]
  exact ⟨fun i hi => ByteMem.fill_apply m dst (fun j => m (src + j)) hi,
    fun b hb => ByteMem.fill_of_disjoint m (fun j => m (src + j)) hb, rfl⟩

/-- Two bytes further up, in an overlap: at the end of the address space, each address holds
its low byte. -/
theorem memmove_copies_overlap :
    let m : ByteMem := fun a => BitVec.ofNat 8 a
    (memmove m 0xFFFFFFFA 0xFFFFFFF8 6).2 0xFFFFFFFF = 0xFD ∧
      (∀ i, i < 6 → (memmove m 0xFFFFFFFA 0xFFFFFFF8 6).2 (0xFFFFFFFA + i) = m (0xFFFFFFF8 + i)) ∧
      (∀ b, b < 0xFFFFFFFA ∨ 0xFFFFFFFA + 6 ≤ b → (memmove m 0xFFFFFFFA 0xFFFFFFF8 6).2 b = m b) ∧
      (memmove m 0xFFFFFFFA 0xFFFFFFF8 6).1 = 0xFFFFFFFA := by
  intro m
  have hcopies := memmove_copies m (by decide : 0xFFFFFFFA + 6 ≤ 2 ^ 32)
    (by decide : 0xFFFFFFF8 + 6 ≤ 2 ^ 32)
  exact ⟨hcopies.1 5 (by decide), hcopies⟩

end NimbleOS
