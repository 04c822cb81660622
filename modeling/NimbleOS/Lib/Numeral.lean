import Mathlib.Data.Nat.Digits.Lemmas

/-!
# Numeral

Numbers in positional notation, most significant digit first, as they are written down.
`Nat.digits` lists the digits from the other end and has none for zero; a numeral has at
least one.
-/

namespace Numeral

/-- The number that the digits `ds` denote in base `b`. -/
def value (b : Nat) (ds : List Nat) : Nat := ds.foldl (fun n d => b * n + d) 0

/-- `ds` is a numeral of `n` in base `b`, without leading zeros. -/
structure Is (b n : Nat) (ds : List Nat) : Prop where
  nonempty : ds ≠ []
  lt : ∀ d ∈ ds, d < b
  value : value b ds = n
  leading : 1 < ds.length → ds.head? ≠ some 0

/-- The digits that division by `b` yields one after the other, until nothing is left. -/
def lsdFirst (b n : Nat) : List Nat := if n = 0 then [0] else Nat.digits b n

/-- The numeral of `n` in base `b`. -/
def digits (b n : Nat) : List Nat := (lsdFirst b n).reverse

theorem value_reverse (b : Nat) (ds : List Nat) : value b ds.reverse = Nat.ofDigits b ds := by
  rw [value, List.foldl_reverse, Nat.ofDigits_eq_foldr]
  exact congrArg (fun f => List.foldr f 0 ds) (by funext d n; simp [Nat.add_comm])

/-- One division. -/
theorem lsdFirst_step (hb : 1 < b) (n : Nat) :
    lsdFirst b n = n % b :: if n / b = 0 then [] else lsdFirst b (n / b) := by
  by_cases hn : n = 0
  · simp [lsdFirst, hn]
  · rw [lsdFirst, if_neg hn, Nat.digits_eq_cons_digits_div hb hn, lsdFirst]
    by_cases hdiv : n / b = 0
    · simp [hdiv]
    · simp [hdiv]

theorem lsdFirst_ne_nil (b n : Nat) : lsdFirst b n ≠ [] := by
  rw [lsdFirst]
  split
  · simp
  · next hn => exact Nat.digits_ne_nil_iff_ne_zero.mpr hn

theorem lsdFirst_lt (hb : 1 < b) (h : d ∈ lsdFirst b n) : d < b := by
  rw [lsdFirst] at h
  split at h
  · obtain rfl := List.mem_singleton.mp h
    omega
  · exact Nat.digits_lt_base hb h

theorem ofDigits_lsdFirst (b n : Nat) : Nat.ofDigits b (lsdFirst b n) = n := by
  rw [lsdFirst]
  split
  · next hn => simp [hn]
  · exact Nat.ofDigits_digits b n

/-- The last digit is not zero, unless it is the only one. -/
theorem getLast?_lsdFirst (h : 1 < (lsdFirst b n).length) : (lsdFirst b n).getLast? ≠ some 0 := by
  rw [lsdFirst] at h ⊢
  split at h
  · simp at h
  · next hn =>
      rw [if_neg hn, List.getLast?_eq_some_getLast (Nat.digits_ne_nil_iff_ne_zero.mpr hn)]
      exact fun heq => Nat.getLast_digit_ne_zero b hn (Option.some.inj heq)

theorem digits_lt (hb : 1 < b) (h : d ∈ digits b n) : d < b :=
  lsdFirst_lt hb (List.mem_reverse.mp h)

theorem value_digits (b n : Nat) : value b (digits b n) = n := by
  rw [digits, value_reverse, ofDigits_lsdFirst]

/-- The division algorithm produces a numeral. -/
theorem is_digits (hb : 1 < b) (n : Nat) : Is b n (digits b n) where
  nonempty := by simpa [digits] using lsdFirst_ne_nil b n
  lt _ := digits_lt hb
  value := value_digits b n
  leading h := by
    rw [digits, List.length_reverse] at h
    rw [digits, List.head?_reverse]
    exact getLast?_lsdFirst h

/-- **Uniqueness**: every number has exactly one numeral. -/
theorem is_iff (hb : 1 < b) : Is b n ds ↔ ds = digits b n := by
  constructor
  · intro h
    have hvalue : Nat.ofDigits b ds.reverse = n := by
      rw [← value_reverse, List.reverse_reverse, h.value]
    rw [digits, ← List.reverse_eq_iff]
    by_cases hlast : ds.head? = some 0
    · -- a leading zero is the whole numeral
      obtain ⟨tail, rfl⟩ := List.head?_eq_some_iff.mp hlast
      obtain rfl : tail = [] := by
        cases tail with
        | nil => rfl
        | cons d tail => exact absurd hlast (h.leading (by simp))
      obtain rfl : n = 0 := by simpa using hvalue.symm
      simp [lsdFirst]
    · have hdigits : Nat.digits b n = ds.reverse := by
        rw [← hvalue]
        refine Nat.digits_ofDigits b hb _ (fun d hd => h.lt d (List.mem_reverse.mp hd)) fun hne => ?_
        rw [List.getLast_reverse]
        intro hzero
        rw [List.head?_eq_some_head h.nonempty, hzero] at hlast
        contradiction
      have hn : n ≠ 0 := by
        rw [← Nat.digits_ne_nil_iff_ne_zero (b := b), hdigits]
        simpa using h.nonempty
      rw [lsdFirst, if_neg hn, hdigits]
  · rintro rfl
    exact is_digits hb n

/-- How long a numeral is. -/
theorem length_digits_le_iff (hb : 1 < b) (hk : 0 < k) :
    (digits b n).length ≤ k ↔ n < b ^ k := by
  rw [digits, List.length_reverse, lsdFirst]
  split
  · next hn =>
      subst hn
      exact iff_of_true hk (Nat.pow_pos (by omega))
  · exact Nat.digits_length_le_iff hb n

end Numeral
