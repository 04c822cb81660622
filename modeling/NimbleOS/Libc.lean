import NimbleOS.Basic

/-!
# NimbleOS.Libc

The parts of `libc` that the terminal rests on: the character classes of
`ctype.c` and `atoi`.  A `char` is a `BitVec 8`, signed as on the target; an
`int` argument is its `toInt`.
-/

namespace NimbleOS

/-- The `char` of a character literal. -/
def chr (c : Char) : BitVec 8 := BitVec.ofNat 8 c.toNat

theorem chr_ofNat_toNat (c : BitVec 8) : chr (Char.ofNat c.toNat) = c := by
  revert c
  decide

/-! ## character classes -/

def isdigit (c : Int) : Bool := '0'.toNat ≤ c && c ≤ '9'.toNat

def isalpha (c : Int) : Bool :=
  ('A'.toNat ≤ c && c ≤ 'Z'.toNat) || ('a'.toNat ≤ c && c ≤ 'z'.toNat)

def isprint (c : Int) : Bool := 32 ≤ c && c ≤ 126

def isspace (c : Int) : Bool := c = ' '.toNat || (9 ≤ c && c ≤ 13)

/-- The classes of digits and letters are disjoint. -/
theorem isalpha_of_isdigit (h : isdigit c = true) : isalpha c = false := by
  simp only [isdigit, isalpha, Bool.and_eq_true, decide_eq_true_eq, Bool.or_eq_false_iff,
    Bool.and_eq_false_iff, decide_eq_false_iff_not, Char.reduceToNat] at *
  omega

/-! ## atoi -/

/-- The loop `while (isdigit(*s)) n = 10*n - (*s++ - '0')`. -/
def atoiDigits : List (BitVec 8) → BitVec 32 → BitVec 32
  | [], n => n
  | c :: s, n =>
      if isdigit c.toInt then atoiDigits s (10 * n - (c.signExtend 32 - (chr '0').signExtend 32)) else n

/-- `atoi`: the digits are summed up negatively, and negated at the end. -/
def atoi (s : List (BitVec 8)) : BitVec 32 :=
  match s.dropWhile fun c => isspace c.toInt with
  | [] => 0
  | c :: s =>
      if c = chr '-' then atoiDigits s 0
      else if c = chr '+' then -atoiDigits s 0
      else -atoiDigits (c :: s) 0

example : atoi [chr '-', chr '4', chr '2', chr 'm'] = -42 := by decide

/-- The loop stops at a NUL behind the digits. -/
theorem atoiDigits_append_nul (h : ∀ c ∈ ds, isdigit c.toInt = true) (rest : List (BitVec 8))
    (n : BitVec 32) : atoiDigits (ds ++ 0 :: rest) n = atoiDigits ds n := by
  induction ds generalizing n with
  | nil =>
      have hnul : ¬ isdigit (0 : BitVec 8).toInt = true := by decide
      simp only [List.nil_append, atoiDigits, if_neg hnul]
  | cons c ds ih =>
      obtain ⟨hc, hds⟩ := List.forall_mem_cons.mp h
      rw [List.cons_append, atoiDigits, if_pos hc, atoiDigits, if_pos hc, ih hds]

theorem isspace_of_isdigit (h : isdigit n = true) : isspace n = false := by
  simp only [isdigit, isspace, Bool.and_eq_true, decide_eq_true_eq, Bool.or_eq_false_iff,
    Bool.and_eq_false_iff, decide_eq_false_iff_not, Char.reduceToNat] at *
  omega

/-- Characters of different classes. -/
theorem ne_of_class {p : Int → Bool} {c d : BitVec 8} (hc : p c.toInt = true)
    (hd : p d.toInt = false) : c ≠ d := by
  intro heq
  rw [heq, hd] at hc
  contradiction

/-- A digit starts a number without space and sign. -/
theorem atoi_cons_digit (hc : isdigit c.toInt = true) (s : List (BitVec 8)) :
    atoi (c :: s) = -atoiDigits (c :: s) 0 := by
  rw [atoi, List.dropWhile_cons_of_neg (by simp [isspace_of_isdigit hc])]
  have hminus : c ≠ chr '-' := ne_of_class hc (by decide)
  have hplus : c ≠ chr '+' := ne_of_class hc (by decide)
  simp only [if_neg hminus, if_neg hplus]

/-- The value of a buffer that holds digits, NUL-terminated, and other bytes behind. -/
theorem atoi_append_nul (h : ∀ c ∈ ds, isdigit c.toInt = true) (rest : List (BitVec 8)) :
    atoi (ds ++ 0 :: rest) = atoi ds := by
  cases ds with
  | nil =>
      have hdrop : (0 :: rest).dropWhile (fun c : BitVec 8 => isspace c.toInt) = 0 :: rest :=
        List.dropWhile_cons_of_neg (by decide)
      have hnul : ¬ isdigit (0 : BitVec 8).toInt = true := by decide
      have hminus : ¬ (0 : BitVec 8) = chr '-' := by decide
      have hplus : ¬ (0 : BitVec 8) = chr '+' := by decide
      rw [List.nil_append, atoi, hdrop]
      simp only [if_neg hminus, if_neg hplus, atoiDigits, if_neg hnul]
      rfl
  | cons c ds =>
      have hc := (List.forall_mem_cons.mp h).1
      rw [List.cons_append, atoi_cons_digit hc, atoi_cons_digit hc, ← List.cons_append,
        atoiDigits_append_nul h]

/-- What stands behind a NUL does not matter. -/
theorem atoiDigits_nul (s rest rest' : List (BitVec 8)) (n : BitVec 32) :
    atoiDigits (s ++ 0 :: rest) n = atoiDigits (s ++ 0 :: rest') n := by
  induction s generalizing n with
  | nil =>
      have hnul : ¬ isdigit (0 : BitVec 8).toInt = true := by decide
      simp only [List.nil_append, atoiDigits, if_neg hnul]
  | cons c s ih =>
      simp only [List.cons_append, atoiDigits, ih]

theorem atoi_nul (s rest rest' : List (BitVec 8)) :
    atoi (s ++ 0 :: rest) = atoi (s ++ 0 :: rest') := by
  have hdrop : ∀ rest, (s ++ 0 :: rest).dropWhile (fun c : BitVec 8 => isspace c.toInt) =
      s.dropWhile (fun c => isspace c.toInt) ++ 0 :: rest := by
    intro rest
    rw [List.dropWhile_append]
    split
    · next hempty =>
        rw [List.isEmpty_iff.mp hempty]
        exact List.dropWhile_cons_of_neg (by decide)
    · rfl
  rw [atoi, atoi, hdrop, hdrop]
  cases s.dropWhile (fun c => isspace c.toInt) with
  | nil =>
      have hminus : ¬ (0 : BitVec 8) = chr '-' := by decide
      have hplus : ¬ (0 : BitVec 8) = chr '+' := by decide
      simp only [List.nil_append, if_neg hminus, if_neg hplus]
      exact congrArg _ (atoiDigits_nul [] rest rest' 0)
  | cons c s =>
      simp only [List.cons_append]
      rw [atoiDigits_nul s rest rest']
      exact congrArg _ (congrArg _ (congrArg _ (atoiDigits_nul (c :: s) rest rest' 0)))

end NimbleOS
