import NimbleOS.Lib.CType
import NimbleOS.Libc.Atoi
import NimbleOS.Libc.Numeral

/-!
# NimbleOS.Libc.Aton

`atoi`, `atol` and `atoll` in the arithmetic of their types: one function, up to the type
of the result.  It has no result when one of its operations overflows.  Where it has one,
`atoi` of the wrapping arithmetic has the same.
-/

namespace NimbleOS

/-- The loop `while (isdigit(*s)) n = 10*n - (*s++ - '0')`; the difference is an `int`. -/
def atonDigits (t : CType) : List (BitVec 8) → Int → Option Int
  | [], n => some n
  | c :: s, n =>
      if isdigit c.toInt then do
        let m ← t.fit (10 * n)
        let d ← CType.int.fit (c.toInt - '0'.toNat)
        let n ← t.fit (m - d)
        atonDigits t s n
      else some n

/-- `return neg ? n : -n`, behind the spaces and the sign. -/
def aton (t : CType) (s : List (BitVec 8)) : Option Int :=
  match s.dropWhile fun c => isspace c.toInt with
  | [] => t.fit 0
  | c :: s =>
      if c = chr '-' then atonDigits t s 0
      else do
        let n ← atonDigits t (if c = chr '+' then s else c :: s) 0
        t.fit (-n)

/-- `atoi`, where it does not overflow. -/
def atoiExact (s : List (BitVec 8)) : Option Int := aton .int s

/-- `atol`; a `long` has 32 bits. -/
def atol (s : List (BitVec 8)) : Option Int := aton .int s

def atoll (s : List (BitVec 8)) : Option Int := aton .longLong s

/-! ## the value of a text of digits -/

theorem toInt_of_isdigit {c : BitVec 8} (h : isdigit c.toInt = true) :
    c.toInt - '0'.toNat = (c.toNat - '0'.toNat : Nat) ∧ c.toNat - '0'.toNat < 10 := by
  revert c
  decide

/-- The number that a prefix denotes is not above that of the whole. -/
theorem le_foldl_decimal (ds : List (BitVec 8)) (n : Nat) :
    n ≤ ds.foldl (fun n c => 10 * n + (c.toNat - '0'.toNat)) n := by
  induction ds generalizing n with
  | nil => exact Nat.le_refl n
  | cons c ds ih =>
      rw [List.foldl_cons]
      exact Nat.le_trans (by omega) (ih _)

/-- **The loop** over digits overflows exactly if the number does not fit, negated, into
the type. -/
theorem atonDigits_neg {t : CType} (h : ∀ c ∈ ds, isdigit c.toInt = true) (h0 : 0 < t.hi) (n : Nat)
    (hn : t.lo ≤ -(n : Int)) :
    atonDigits t ds (-(n : Int)) =
      let m := ds.foldl (fun n c => 10 * n + (c.toNat - '0'.toNat)) n
      if t.lo ≤ -(m : Int) then some (-(m : Int)) else none := by
  induction ds generalizing n with
  | nil => exact (if_pos hn).symm
  | cons c ds ih =>
      obtain ⟨hc, hds⟩ := List.forall_mem_cons.mp h
      obtain ⟨hd, hlt⟩ := toInt_of_isdigit hc
      have hint : CType.int.fit (c.toInt - '0'.toNat) = some ((c.toNat - '0'.toNat : Nat) : Int) := by
        rw [hd]
        exact CType.fit_of_has ⟨by simp only [CType.int]; omega, by simp only [CType.int]; omega⟩
      have hle := le_foldl_decimal ds (10 * n + (c.toNat - '0'.toNat))
      rw [atonDigits, if_pos hc, hint, List.foldl_cons]
      simp only [Option.bind_eq_bind, Option.bind_some]
      by_cases hmul : t.lo ≤ 10 * -(n : Int)
      · rw [CType.fit_of_has ⟨hmul, by omega⟩, Option.bind_some]
        by_cases hsub : t.lo ≤ 10 * -(n : Int) - ((c.toNat - '0'.toNat : Nat) : Int)
        · have hneg : 10 * -(n : Int) - ((c.toNat - '0'.toNat : Nat) : Int) =
              -((10 * n + (c.toNat - '0'.toNat) : Nat) : Int) := by omega
          rw [CType.fit_of_has ⟨hsub, by omega⟩, Option.bind_some, hneg, ih hds _ (by omega)]
        · rw [CType.fit, if_neg (fun hh => hsub hh.1), if_neg (by omega)]
          rfl
      · rw [CType.fit, if_neg (fun hh => hmul hh.1), if_neg (by omega)]
        rfl

/-- The loop from zero. -/
theorem atonDigits_zero {t : CType} (h : ∀ c ∈ ds, isdigit c.toInt = true) (h0 : t.Has 0) :
    atonDigits t ds 0 = if t.lo ≤ -(decimal ds : Int) then some (-(decimal ds : Int)) else none :=
  atonDigits_neg h h0.2 0 h0.1

/-- A digit starts a number without space and sign. -/
theorem aton_cons_digit {t : CType} (hc : isdigit c.toInt = true) (s : List (BitVec 8)) :
    aton t (c :: s) = (atonDigits t (c :: s) 0).bind fun n => t.fit (-n) := by
  rw [aton, List.dropWhile_cons_of_neg (by simp [isspace_of_isdigit hc])]
  have hminus : c ≠ chr '-' := ne_of_class hc (by decide)
  have hplus : c ≠ chr '+' := ne_of_class hc (by decide)
  simp only [if_neg hminus, if_neg hplus]
  rfl

/-- **aton** of a text of digits: the number, if the type has it. -/
theorem aton_digits {t : CType} (h : ∀ c ∈ ds, isdigit c.toInt = true) (h0 : t.Has 0)
    (hlo : t.lo = -t.hi) : aton t ds = t.fit (decimal ds) := by
  cases ds with
  | nil => rfl
  | cons c ds =>
      rw [aton_cons_digit (List.forall_mem_cons.mp h).1, atonDigits_zero h h0]
      by_cases hle : t.lo ≤ -(decimal (c :: ds) : Int)
      · rw [if_pos hle, Option.bind_some, Int.neg_neg]
      · rw [if_neg hle, CType.fit, if_neg (fun hh => hle (by have := hh.2; omega))]
        rfl

/-- Behind a minus sign. -/
theorem aton_minus {t : CType} (h : ∀ c ∈ ds, isdigit c.toInt = true) (h0 : t.Has 0) :
    aton t (chr '-' :: ds) =
      if t.lo ≤ -(decimal ds : Int) then some (-(decimal ds : Int)) else none := by
  rw [aton, List.dropWhile_cons_of_neg (by decide)]
  simp only [if_true]
  exact atonDigits_zero h h0

/-! ## the value of a numeral -/

theorem decimal_map_digitChar (h : ∀ d ∈ ds, d < 10) :
    decimal (ds.map digitChar) = Numeral.value 10 ds := by
  have hdigit : ∀ d, d < 10 → (digitChar d).toNat - '0'.toNat = d := by decide
  have hfold : ∀ n, (ds.map digitChar).foldl (fun n c => 10 * n + (c.toNat - '0'.toNat)) n =
      ds.foldl (fun n d => 10 * n + d) n := by
    induction ds with
    | nil => exact fun n => rfl
    | cons d ds ih =>
        obtain ⟨hd, hds⟩ := List.forall_mem_cons.mp h
        intro n
        rw [List.map_cons, List.foldl_cons, List.foldl_cons, hdigit d hd, ih hds]
  exact hfold 0

theorem decimal_numeral (n : Nat) : decimal (numeral 10 n) = n := by
  rw [numeral, decimal_map_digitChar fun d hd => Numeral.digits_lt (by decide) hd,
    Numeral.value_digits]

/-- **Decoding** the text of an integer of the type. -/
theorem aton_itoa {t : CType} (h0 : t.Has 0) (hlo : t.lo = -t.hi) {v : Int} (hv : t.Has v) :
    aton t (itoa v 10) = some v := by
  rw [itoa_ten]
  by_cases hneg : v < 0
  · rw [if_pos hneg, List.singleton_append, aton_minus (fun c => isdigit_of_mem_numeral) h0,
      decimal_numeral, if_pos (by have := hv.1; omega)]
    exact congrArg some (by omega)
  · rw [if_neg hneg, List.nil_append, aton_digits (fun c => isdigit_of_mem_numeral) h0 hlo,
      decimal_numeral]
    obtain ⟨n, rfl⟩ := Int.eq_ofNat_of_zero_le (Int.not_lt.mp hneg)
    exact CType.fit_of_has hv

/-! ## the wrapping arithmetic -/

theorem atoiDigits_of_atonDigits (h : atonDigits .int s n = some m) :
    atoiDigits s (BitVec.ofInt 32 n) = BitVec.ofInt 32 m := by
  induction s generalizing n with
  | nil =>
      obtain rfl := Option.some.inj h
      rfl
  | cons c s ih =>
      rw [atonDigits] at h
      rw [atoiDigits]
      by_cases hc : isdigit c.toInt = true
      · rw [if_pos hc] at h ⊢
        simp only [Option.bind_eq_bind, Option.bind_eq_some_iff, CType.fit_eq_some_iff] at h
        obtain ⟨_, ⟨-, rfl⟩, _, ⟨-, rfl⟩, _, ⟨-, rfl⟩, hrest⟩ := h
        rw [← ih hrest]
        congr 1
        obtain ⟨hd, -⟩ := toInt_of_isdigit hc
        rw [signExtend_digit hc, hd, Int.sub_eq_add_neg, BitVec.ofInt_add, BitVec.ofInt_mul,
          BitVec.ofInt_neg, BitVec.ofInt_natCast, BitVec.sub_eq_add_neg]
        rfl
      · rw [if_neg hc] at h ⊢
        rw [Option.some.inj h]

/-- **atoi** returns what the exact arithmetic returns. -/
theorem atoi_of_atoiExact (h : atoiExact s = some n) : atoi s = BitVec.ofInt 32 n := by
  rw [atoiExact, aton] at h
  rw [atoi]
  cases hdrop : s.dropWhile fun c => isspace c.toInt with
  | nil =>
      simp only [hdrop] at h ⊢
      obtain ⟨-, rfl⟩ := CType.fit_eq_some_iff.mp h
      rfl
  | cons c s' =>
      simp only [hdrop] at h ⊢
      by_cases hminus : c = chr '-'
      · rw [if_pos hminus] at h ⊢
        exact atoiDigits_of_atonDigits h
      · rw [if_neg hminus] at h ⊢
        obtain ⟨m, hloop, hfit⟩ := Option.bind_eq_some_iff.mp h
        obtain ⟨-, rfl⟩ := CType.fit_eq_some_iff.mp hfit
        have hwrap := atoiDigits_of_atonDigits hloop
        rw [BitVec.ofInt_neg, ← hwrap]
        split <;> rfl

end NimbleOS
