import Mathlib.Algebra.GroupWithZero.Nat

/-!
# ByteMem

Byte-addressed memory with little-endian 32-bit words: single words, and the
contiguous stores that byte loops make.  A word store and a range store are each
described by what `word` reads afterwards, at the place they wrote and at places
that they do not overlap.
-/

/-- Byte-addressed memory. -/
abbrev ByteMem := Nat → BitVec 8

namespace ByteMem

/-- The 32-bit word at `a`. -/
def word (m : ByteMem) (a : Nat) : Nat :=
  (m a).toNat + 2 ^ 8 * (m (a + 1)).toNat + 2 ^ 16 * (m (a + 2)).toNat +
    2 ^ 24 * (m (a + 3)).toNat

def setByte (m : ByteMem) (a : Nat) (v : BitVec 8) : ByteMem := fun b => if b = a then v else m b

/-- Store the word `v` at `a`. -/
def setWord (m : ByteMem) (a v : Nat) : ByteMem :=
  fun b => if a ≤ b ∧ b < a + 4 then BitVec.ofNat 8 (v / 2 ^ (8 * (b - a))) else m b

/-- Store the bytes `f 0`, …, `f (n - 1)` from `a` on. -/
def fill (m : ByteMem) (a n : Nat) (f : Nat → BitVec 8) : ByteMem :=
  fun b => if a ≤ b ∧ b < a + n then f (b - a) else m b

theorem word_lt (m : ByteMem) (a : Nat) : m.word a < 2 ^ 32 := by
  have h0 := (m a).isLt
  have h1 := (m (a + 1)).isLt
  have h2 := (m (a + 2)).isLt
  have h3 := (m (a + 3)).isLt
  unfold word
  omega

/-- A word depends on its four bytes only. -/
theorem word_congr {m m' : ByteMem} (h : ∀ b, a ≤ b → b < a + 4 → m' b = m b) :
    m'.word a = m.word a := by
  unfold word
  rw [h a (by omega) (by omega), h (a + 1) (by omega) (by omega), h (a + 2) (by omega) (by omega),
    h (a + 3) (by omega) (by omega)]

/-- A word determines its bytes. -/
theorem byte_of_word {m m' : ByteMem} (h : m'.word a = m.word a) (hk : k < 4) :
    m' (a + k) = m (a + k) := by
  have h0 := (m a).isLt
  have h1 := (m (a + 1)).isLt
  have h2 := (m (a + 2)).isLt
  have h0' := (m' a).isLt
  have h1' := (m' (a + 1)).isLt
  have h2' := (m' (a + 2)).isLt
  unfold word at h
  refine BitVec.eq_of_toNat_eq ?_
  obtain rfl | rfl | rfl | rfl : k = 0 ∨ k = 1 ∨ k = 2 ∨ k = 3 := by omega
  · rw [Nat.add_zero]
    omega
  all_goals omega

/-! ## word stores -/

theorem word_setWord_self (m : ByteMem) (a : Nat) (hv : v < 2 ^ 32) :
    (m.setWord a v).word a = v := by
  simp only [word, setWord]
  simp only [show a ≤ a ∧ a < a + 4 by omega, show a ≤ a + 1 ∧ a + 1 < a + 4 by omega,
    show a ≤ a + 2 ∧ a + 2 < a + 4 by omega, show a ≤ a + 3 ∧ a + 3 < a + 4 by omega,
    if_true, Nat.sub_self, Nat.add_sub_cancel_left, BitVec.toNat_ofNat, and_self]
  omega

theorem word_setWord_of_disjoint (m : ByteMem) (v : Nat) (h : b + 4 ≤ a ∨ a + 4 ≤ b) :
    (m.setWord a v).word b = m.word b := by
  refine word_congr fun c hlo hhi => ?_
  rw [setWord, if_neg (by omega)]

/-! ## range stores -/

@[simp] theorem fill_zero (m : ByteMem) (a : Nat) (f : Nat → BitVec 8) : m.fill a 0 f = m := by
  funext b
  rw [fill, if_neg (by omega)]

/-- A byte loop stores one byte after the other. -/
theorem fill_succ (m : ByteMem) (a n : Nat) (f : Nat → BitVec 8) :
    m.fill a (n + 1) f = (m.fill a n f).setByte (a + n) (f n) := by
  funext b
  simp only [fill, setByte]
  by_cases hb : b = a + n
  · subst hb
    rw [if_pos (by omega), if_pos rfl, Nat.add_sub_cancel_left]
  · rw [if_neg hb]
    by_cases hin : a ≤ b ∧ b < a + n
    · rw [if_pos hin, if_pos (by omega)]
    · rw [if_neg hin, if_neg (by omega)]

/-- So does a byte loop that runs downwards. -/
theorem fill_cons (m : ByteMem) (a n : Nat) (f : Nat → BitVec 8) :
    m.fill a (n + 1) f = (m.fill (a + 1) n fun j => f (j + 1)).setByte a (f 0) := by
  funext b
  simp only [fill, setByte]
  by_cases hb : b = a
  · subst hb
    rw [if_pos (by omega), if_pos rfl, Nat.sub_self]
  · rw [if_neg hb]
    by_cases hin : a + 1 ≤ b ∧ b < a + 1 + n
    · rw [if_pos hin, if_pos (by omega), show b - (a + 1) + 1 = b - a by omega]
    · rw [if_neg hin, if_neg (by omega)]

theorem fill_of_disjoint (m : ByteMem) (f : Nat → BitVec 8) (h : b < a ∨ a + n ≤ b) :
    m.fill a n f b = m b := by
  rw [fill, if_neg (by omega)]

theorem word_fill_of_disjoint (m : ByteMem) (f : Nat → BitVec 8) (h : b + 4 ≤ a ∨ a + n ≤ b) :
    (m.fill a n f).word b = m.word b :=
  word_congr fun _ _ _ => fill_of_disjoint m f (by omega)

theorem fill_apply (m : ByteMem) (a : Nat) (f : Nat → BitVec 8) (hi : i < n) :
    m.fill a n f (a + i) = f i := by
  rw [fill, if_pos (by omega), Nat.add_sub_cancel_left]

/-- Inside a range of zeros every word is zero. -/
theorem word_fill_zeros (m : ByteMem) (hlo : a ≤ b) (hhi : b + 4 ≤ a + n) :
    (m.fill a n fun _ => 0).word b = 0 := by
  simp only [word, fill]
  rw [if_pos (by omega), if_pos (by omega), if_pos (by omega), if_pos (by omega)]
  rfl

/-- Inside a copy every word is that of the original. -/
theorem word_fill_copy (m : ByteMem) (src : Nat) (hi : i + 4 ≤ n) :
    (m.fill a n fun j => m (src + j)).word (a + i) = m.word (src + i) := by
  simp only [word, fill]
  rw [if_pos (by omega), if_pos (by omega), if_pos (by omega), if_pos (by omega)]
  have hoff : ∀ k, a + i + k - a = i + k := fun k => by omega
  rw [Nat.add_sub_cancel_left, hoff, hoff, hoff]
  simp only [Nat.add_assoc]

end ByteMem
