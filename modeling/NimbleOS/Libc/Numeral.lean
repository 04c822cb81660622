import NimbleOS.Lib.Numeral
import NimbleOS.Libc.Itoa

/-!
# NimbleOS.Libc.Numeral

What `itoa` and `utoa` write: numerals with the digits `0`-`9` and `a`-`z`.
-/

namespace NimbleOS

/-- The character for the digit `d`. -/
def digitChar (d : Nat) : BitVec 8 :=
  if d < 10 then BitVec.ofNat 8 ('0'.toNat + d) else BitVec.ofNat 8 ('a'.toNat + (d - 10))

/-- The digit that a character stands for. -/
def digitOf (c : BitVec 8) : Option Nat :=
  if '0'.toNat ≤ c.toNat ∧ c.toNat ≤ '9'.toNat then some (c.toNat - '0'.toNat)
  else if 'a'.toNat ≤ c.toNat ∧ c.toNat ≤ 'z'.toNat then some (c.toNat - 'a'.toNat + 10)
  else none

/-- The numeral of `n` in base `base`, as text. -/
def numeral (base n : Nat) : List (BitVec 8) := (Numeral.digits base n).map digitChar

example : numeral 16 255 = [chr 'f', chr 'f'] := by simp [numeral, Numeral.digits, Numeral.lsdFirst]; decide

/-- `s` is a numeral of `n`: digits of the base, no leading zero. -/
def IsNumeral (base n : Nat) (s : List (BitVec 8)) : Prop :=
  ∃ ds, s.map digitOf = ds.map some ∧ Numeral.Is base n ds

/-! ## digits and characters -/

theorem digitOf_digitChar (h : d < 36) : digitOf (digitChar d) = some d := by
  revert d
  decide

theorem digitChar_of_digitOf {c : BitVec 8} (h : digitOf c = some d) : digitChar d = c := by
  have hlt := c.isLt
  refine BitVec.eq_of_toNat_eq ?_
  simp only [digitOf, Char.reduceToNat] at h
  split at h
  · obtain rfl := Option.some.inj h
    rw [digitChar, if_pos (by omega), BitVec.toNat_ofNat]
    simp only [Char.reduceToNat]
    omega
  · split at h
    · obtain rfl := Option.some.inj h
      rw [digitChar, if_neg (by omega), BitVec.toNat_ofNat]
      simp only [Char.reduceToNat]
      omega
    · contradiction

theorem isdigit_digitChar (h : d < 10) : isdigit (digitChar d).toInt = true := by
  revert d
  decide

/-- The string literal, around its middle. -/
theorem digitTable_middle {r : Int} (h : r.natAbs < 36) :
    digitTable[(35 + r).toNat]? = some (digitChar r.natAbs) := by
  have hall : ∀ i : Fin 71, digitTable[i.val]? = some (digitChar ((i.val : Int) - 35).natAbs) := by
    decide +kernel
  have hi := hall ⟨(35 + r).toNat, by omega⟩
  rwa [show (((35 + r).toNat : Nat) : Int) - 35 = r by omega] at hi

theorem map_digitOf_map_digitChar {ds : List Nat} (h : ∀ d ∈ ds, d < 36) :
    (ds.map digitChar).map digitOf = ds.map some := by
  rw [List.map_map]
  exact List.map_congr_left fun d hd => digitOf_digitChar (h d hd)

theorem map_digitChar_of_map_digitOf {ds : List Nat} (h : s.map digitOf = ds.map some) :
    ds.map digitChar = s := by
  induction s generalizing ds with
  | nil => simpa using h.symm
  | cons c s ih =>
      cases ds with
      | nil => cases h
      | cons d ds =>
          obtain ⟨hc, hs⟩ := List.cons.inj h
          rw [List.map_cons, digitChar_of_digitOf hc, ih hs]

/-- **Uniqueness** of the text of a number. -/
theorem isNumeral_iff (hlo : 2 ≤ base) (hhi : base ≤ 36) :
    IsNumeral base n s ↔ s = numeral base n := by
  constructor
  · rintro ⟨ds, hmap, his⟩
    rw [numeral, ← (Numeral.is_iff hlo).mp his, map_digitChar_of_map_digitOf hmap]
  · rintro rfl
    refine ⟨Numeral.digits base n, map_digitOf_map_digitChar fun d hd => ?_, Numeral.is_digits hlo n⟩
    have := Numeral.digits_lt hlo hd
    omega

theorem length_numeral_le_iff (hb : 2 ≤ base) (hk : 0 < k) :
    (numeral base n).length ≤ k ↔ n < base ^ k := by
  rw [numeral, List.length_map, Numeral.length_digits_le_iff hb hk]

theorem isdigit_of_mem_numeral {c : BitVec 8} (h : c ∈ numeral 10 n) : isdigit c.toInt = true := by
  obtain ⟨d, hd, rfl⟩ := List.mem_map.mp h
  exact isdigit_digitChar (Numeral.digits_lt (by decide) hd)

theorem digitChar_ne_zero (h : d < 36) : digitChar d ≠ 0 := by
  revert d
  decide

theorem ne_zero_of_mem_numeral {c : BitVec 8} (hlo : 2 ≤ base) (hhi : base ≤ 36)
    (h : c ∈ numeral base n) : c ≠ 0 := by
  obtain ⟨d, hd, rfl⟩ := List.mem_map.mp h
  have hlt := Numeral.digits_lt hlo hd
  exact digitChar_ne_zero (by omega)

/-! ## the texts of itoa and utoa -/

/-- The first loop puts down the digits, the last one first. -/
theorem itoaDigits_eq {base : Nat} (hlo : 2 ≤ base) (hhi : base ≤ 36) (hfuel : value.natAbs < fuel) :
    itoaDigits base fuel value = (Numeral.lsdFirst base value.natAbs).map digitChar := by
  induction fuel generalizing value with
  | zero => omega
  | succ fuel ih =>
      have hmod : (value.tmod base).natAbs = value.natAbs % base := Int.natAbs_tmod value base
      have hdiv : (value.tdiv base).natAbs = value.natAbs / base := Int.natAbs_tdiv value base
      have hdigit : digitTable.getD (35 + value.tmod base).toNat 0 =
          digitChar (value.natAbs % base) := by
        have hlt := Nat.mod_lt value.natAbs (y := base) (by omega)
        rw [List.getD_eq_getElem?_getD, digitTable_middle (by omega), hmod]
        rfl
      rw [itoaDigits, Numeral.lsdFirst_step hlo, List.map_cons, hdigit]
      by_cases hz : value.tdiv base = 0
      · rw [if_pos hz, if_pos (by omega), List.map_nil]
      · have hpos : value.natAbs / base ≠ 0 := by omega
        have hlt : value.natAbs / base < value.natAbs :=
          Nat.div_lt_self (Nat.pos_of_ne_zero fun h0 => hpos (by rw [h0, Nat.zero_div])) hlo
        rw [if_neg hz, if_neg hpos, ih (by omega), hdiv]

theorem itoaLoop_eq {base : Nat} (hlo : 2 ≤ base) (hhi : base ≤ 36) (value : Int) :
    (itoaLoop value base).reverse = numeral base value.natAbs := by
  rw [itoaLoop, itoaDigits_eq hlo hhi (Nat.lt_succ_self _), numeral, Numeral.digits, List.map_reverse]

/-- **utoa** writes the numeral of its argument. -/
theorem utoa_eq (hlo : 2 ≤ base) (hhi : base ≤ 36) (value : Nat) :
    utoa value base = numeral base value := by
  rw [utoa, if_neg (by omega), itoaLoop_eq hlo hhi, Int.natAbs_natCast]

/-- **itoa** in base 10: the sign, and the numeral of the magnitude. -/
theorem itoa_ten (value : Int) :
    itoa value 10 = (if value < 0 then [chr '-'] else []) ++ numeral 10 value.natAbs := by
  have hloop := itoaLoop_eq (show 2 ≤ 10 by decide) (by decide) value
  rw [itoa, if_neg (by decide)]
  simp only [and_true]
  exact congrArg _ hloop

theorem ne_zero_of_mem_itoa {c : BitVec 8} (h : c ∈ itoa value 10) : c ≠ 0 := by
  rintro rfl
  exact absurd (isprint_of_mem_itoa h) (by decide)

end NimbleOS
