import NimbleOS.Libc

/-!
# NimbleOS.Libc.Atoi

The value of `atoi`.  It sums the digits up negatively in 32 bits, so it is the number
that the digits denote as long as this is below `2 ^ 31`, and its residue in any case.
-/

namespace NimbleOS

/-- The number that a text of digits denotes. -/
def decimal (ds : List (BitVec 8)) : Nat := ds.foldl (fun n c => 10 * n + (c.toNat - '0'.toNat)) 0

example : decimal [chr '0', chr '4', chr '2'] = 42 := by decide

/-- What the loop subtracts for a digit. -/
theorem signExtend_digit {c : BitVec 8} (h : isdigit c.toInt = true) :
    c.signExtend 32 - (chr '0').signExtend 32 = BitVec.ofNat 32 (c.toNat - '0'.toNat) := by
  revert c
  decide

/-- The loop of `atoi` from the negative of `n`. -/
theorem atoiDigits_neg (h : ∀ c ∈ ds, isdigit c.toInt = true) (n : Nat) :
    atoiDigits ds (-BitVec.ofNat 32 n) =
      -BitVec.ofNat 32 (ds.foldl (fun n c => 10 * n + (c.toNat - '0'.toNat)) n) := by
  induction ds generalizing n with
  | nil => rfl
  | cons c ds ih =>
      obtain ⟨hc, hds⟩ := List.forall_mem_cons.mp h
      have hstep : 10 * -BitVec.ofNat 32 n - BitVec.ofNat 32 (c.toNat - '0'.toNat) =
          -BitVec.ofNat 32 (10 * n + (c.toNat - '0'.toNat)) := by
        rw [BitVec.ofNat_add, BitVec.ofNat_mul, BitVec.neg_add, BitVec.mul_neg]
        rfl
      rw [atoiDigits, if_pos hc, signExtend_digit hc, hstep, ih hds]
      rfl

/-- **atoi** of a text of digits. -/
theorem atoi_eq_decimal (h : ∀ c ∈ ds, isdigit c.toInt = true) :
    atoi ds = BitVec.ofNat 32 (decimal ds) := by
  cases ds with
  | nil => rfl
  | cons c ds =>
      have hloop : atoiDigits (c :: ds) 0 = -BitVec.ofNat 32 (decimal (c :: ds)) := atoiDigits_neg h 0
      rw [atoi_cons_digit (List.forall_mem_cons.mp h).1, hloop, BitVec.neg_neg]

end NimbleOS
