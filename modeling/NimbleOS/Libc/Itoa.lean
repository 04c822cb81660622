import NimbleOS.Libc

/-!
# NimbleOS.Libc.Itoa

`itoa` and `utoa`: the digits of a number, put down from the last to the first and
then reversed.  A buffer is the list of the characters before its NUL.
-/

namespace NimbleOS

/-- The string literal of both functions, which a remainder indexes from its middle. -/
def digitTable : List (BitVec 8) :=
  "zyxwvutsrqponmlkjihgfedcba9876543210123456789abcdefghijklmnopqrstuvwxyz".toList.map chr

/-- `do { *ptr++ = table[35 + value % base]; value /= base; } while (value)`. -/
def itoaDigits (base : Int) : (fuel : Nat) → (value : Int) → List (BitVec 8)
  | 0, _ => []
  | fuel + 1, value =>
      digitTable.getD (35 + value.tmod base).toNat 0 ::
        if value.tdiv base = 0 then [] else itoaDigits base fuel (value.tdiv base)

/-- The loop has enough fuel: each round but the last makes the value smaller. -/
def itoaLoop (value base : Int) : List (BitVec 8) := itoaDigits base (value.natAbs + 1) value

/-- `itoa`; the second loop of the source swaps the two ends inwards. -/
def itoa (value base : Int) : List (BitVec 8) :=
  if base < 2 ∨ base > 36 then []
  else
    (if value < 0 ∧ base = 10 then [chr '-'] else []) ++ (itoaLoop value base).reverse

def utoa (value base : Nat) : List (BitVec 8) :=
  if base < 2 ∨ base > 36 then [] else (itoaLoop value base).reverse

example : itoa (-205) 10 = [chr '-', chr '2', chr '0', chr '5'] := by decide

example : utoa 255 16 = [chr 'f', chr 'f'] := by decide

/-! ## decimal numerals -/

/-- The remainders modulo 10, of either sign, index digits. -/
theorem isdigit_digitTable (value : Int) :
    isdigit (digitTable.getD (35 + value.tmod 10).toNat 0).toInt = true := by
  have hrange : -10 < value.tmod 10 ∧ value.tmod 10 < 10 := by
    rcases Int.le_total 0 value with h | h
    · have := Int.tmod_eq_emod_of_nonneg (b := 10) h
      omega
    · have := Int.tmod_eq_emod_of_nonneg (b := 10) (a := -value) (by omega)
      rw [Int.neg_tmod] at this
      omega
  have hall : ∀ i : Fin 19, isdigit (digitTable.getD (26 + i.val) 0).toInt = true := by decide
  have hi := hall ⟨(9 + value.tmod 10).toNat, by omega⟩
  have heq : 26 + (9 + value.tmod 10).toNat = (35 + value.tmod 10).toNat := by omega
  rwa [heq] at hi

theorem isdigit_of_mem_itoaDigits (h : c ∈ itoaDigits 10 fuel value) :
    isdigit c.toInt = true := by
  induction fuel generalizing value with
  | zero => cases h
  | succ fuel ih =>
      rw [itoaDigits] at h
      cases h with
      | head => exact isdigit_digitTable value
      | tail _ hrest =>
          split at hrest
          · cases hrest
          · exact ih hrest

theorem natAbs_tdiv_ten (value : Int) : (value.tdiv 10).natAbs = value.natAbs / 10 :=
  Int.natAbs_tdiv value 10

/-- A number below `10 ^ k` has at most `k` digits. -/
theorem length_itoaDigits_le (hk : 0 < k) (h : value.natAbs < 10 ^ k) :
    (itoaDigits 10 fuel value).length ≤ k := by
  induction fuel generalizing value k with
  | zero => exact Nat.zero_le _
  | succ fuel ih =>
      rw [itoaDigits, List.length_cons]
      split
      · exact hk
      · next hne =>
          cases k with
          | zero => contradiction
          | succ k =>
              have hlt : (value.tdiv 10).natAbs < 10 ^ k := by
                rw [natAbs_tdiv_ten]
                rw [Nat.pow_succ] at h
                omega
              have hk' : 0 < k := by
                refine Nat.pos_of_ne_zero fun h0 => hne ?_
                subst h0
                exact Int.natAbs_eq_zero.mp (by omega)
              exact Nat.succ_le_succ (ih hk' hlt)

/-- A number from 10 on has two digits at least. -/
theorem two_le_length_itoaDigits (h : 10 ≤ value.natAbs) :
    2 ≤ (itoaDigits 10 (fuel + 2) value).length := by
  have hne : value.tdiv 10 ≠ 0 := by
    intro h0
    have := natAbs_tdiv_ten value
    rw [h0] at this
    omega
  rw [itoaDigits, if_neg hne, itoaDigits]
  simp

/-- The text of an `int` in base 10. -/
theorem isprint_of_mem_itoa (h : c ∈ itoa value 10) : isprint c.toInt = true := by
  rw [itoa, if_neg (by decide), List.mem_append, List.mem_reverse] at h
  rcases h with hsign | hdigit
  · split at hsign
    · obtain rfl := List.mem_singleton.mp hsign
      decide
    · cases hsign
  · have := isdigit_of_mem_itoaDigits hdigit
    simp only [isdigit, isprint, Bool.and_eq_true, decide_eq_true_eq, Char.reduceToNat] at *
    omega

/-- An `int` has at most 11 characters. -/
theorem length_itoa_le (h : value.natAbs ≤ 2 ^ 31) : (itoa value 10).length ≤ 11 := by
  have hdigits : (itoaLoop value 10).length ≤ 10 := length_itoaDigits_le (by decide) (by omega)
  rw [itoa, if_neg (by decide), List.length_append, List.length_reverse]
  split
  · simp only [List.length_singleton]
    omega
  · simp only [List.length_nil]
    omega

/-- Which numbers have a text of one character. -/
theorem length_itoa_le_one_iff (value : Int) :
    (itoa value 10).length ≤ 1 ↔ 0 ≤ value ∧ value < 10 := by
  have hpos : 0 < (itoaLoop value 10).length := by
    rw [itoaLoop, itoaDigits]
    simp
  rw [itoa, if_neg (by decide), List.length_append, List.length_reverse]
  by_cases hneg : value < 0
  · rw [if_pos ⟨hneg, rfl⟩, List.length_singleton]
    omega
  · rw [if_neg (fun h => hneg h.1), List.length_nil]
    by_cases hlt : value < 10
    · have : (itoaLoop value 10).length ≤ 1 := length_itoaDigits_le (by decide) (by omega)
      omega
    · obtain ⟨fuel, hfuel⟩ : ∃ fuel, value.natAbs + 1 = fuel + 2 := ⟨value.natAbs - 1, by omega⟩
      have hlen : 2 ≤ (itoaDigits 10 (fuel + 2) value).length :=
        two_le_length_itoaDigits (by omega)
      rw [itoaLoop, hfuel]
      omega

theorem itoa_ne_nil (value : Int) : itoa value 10 ≠ [] := by
  rw [itoa, if_neg (by decide), itoaLoop, itoaDigits]
  simp

end NimbleOS
