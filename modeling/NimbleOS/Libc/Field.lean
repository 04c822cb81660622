import NimbleOS.Libc.Format

/-!
# NimbleOS.Libc.Field

Reading back what `%d` with a width has printed.  Spaces in front of a number and zeros in
front of its digits do not change its value; but `printf` puts the zeros in front of the
sign.
-/

namespace NimbleOS

/-- The directive `%wd`, or `%0wd` with the flag. -/
def decimalDirective (pad0 : Bool) (w : Fin 10) : Directive :=
  { pad0 := pad0, width := some w, conversion := .d }

theorem decimalDirective_field (pad0 : Bool) (w : Fin 10) (text : List (BitVec 8)) :
    (decimalDirective pad0 w).field text =
      List.replicate (w.val - text.length) (chr (if pad0 then '0' else ' ')) ++ text := rfl

/-! ## zeros in front -/

theorem isdigit_zeroChar : isdigit (chr '0').toInt = true := by decide

/-- Zeros in front of digits do not count. -/
theorem atoiDigits_zeros (k : Nat) (s : List (BitVec 8)) :
    atoiDigits (List.replicate k (chr '0') ++ s) 0 = atoiDigits s 0 := by
  induction k with
  | zero => rfl
  | succ k ih =>
      rw [List.replicate_succ, List.cons_append, atoiDigits, if_pos isdigit_zeroChar]
      exact ih

/-- A number without a sign, behind zeros. -/
theorem atoi_zeros (hd : isdigit d.toInt = true) (k : Nat) (s : List (BitVec 8)) :
    atoi (List.replicate k (chr '0') ++ d :: s) = atoi (d :: s) := by
  cases k with
  | zero => rfl
  | succ k =>
      have hzeros := atoiDigits_zeros (k + 1) (d :: s)
      rw [List.replicate_succ, List.cons_append] at hzeros ⊢
      rw [atoi_cons_digit isdigit_zeroChar, atoi_cons_digit hd, hzeros]

/-- A sign behind zeros ends the number. -/
theorem atoi_zeros_minus (k : Nat) (s : List (BitVec 8)) :
    atoi (List.replicate (k + 1) (chr '0') ++ chr '-' :: s) = 0 := by
  have hminus : ¬ isdigit (chr '-').toInt = true := by decide
  have hzeros := atoiDigits_zeros (k + 1) (chr '-' :: s)
  rw [List.replicate_succ, List.cons_append] at hzeros ⊢
  rw [atoi_cons_digit isdigit_zeroChar, hzeros, atoiDigits, if_neg hminus]
  rfl

theorem atoi_spaces (k : Nat) (s : List (BitVec 8)) :
    atoi (List.replicate k (chr ' ') ++ s) = atoi s := by
  induction k with
  | zero => rfl
  | succ k ih =>
      rw [← ih, List.replicate_succ, List.cons_append, atoi, atoi,
        List.dropWhile_cons_of_pos (by decide)]

theorem atoi_itoa (v : BitVec 32) : atoi (itoa v.toInt 10) = v := by
  have hexact : atoiExact (itoa v.toInt 10) = some v.toInt :=
    aton_itoa (by decide) (by decide) (CType.has_int v)
  rw [atoi_of_atoiExact hexact, BitVec.ofInt_toInt]

/-! ## the field -/

/-- The field denotes the number, unless zeros stand in front of its sign. -/
theorem atoi_field (pad0 : Bool) (w : Fin 10) (v : BitVec 32) :
    atoi ((decimalDirective pad0 w).field (itoa v.toInt 10)) = v ↔
      pad0 = false ∨ 0 ≤ v.toInt ∨ w.val ≤ (itoa v.toInt 10).length := by
  rw [decimalDirective_field]
  cases pad0 with
  | false =>
      refine iff_of_true ?_ (.inl rfl)
      simp only [Bool.false_eq_true, if_false, atoi_spaces, atoi_itoa]
  | true =>
      simp only [Bool.true_eq_false, false_or, if_true]
      by_cases hshort : w.val ≤ (itoa v.toInt 10).length
      · refine iff_of_true ?_ (.inr hshort)
        rw [Nat.sub_eq_zero_of_le hshort]
        exact atoi_itoa v
      · by_cases hneg : v.toInt < 0
        · obtain ⟨k, hk⟩ := Nat.exists_eq_add_of_lt (Nat.lt_of_not_le hshort)
          refine iff_of_false (fun heq => ?_) (by omega)
          rw [show w.val - (itoa v.toInt 10).length = k + 1 by omega, itoa_ten, if_pos hneg,
            List.singleton_append, atoi_zeros_minus] at heq
          rw [← heq] at hneg
          exact absurd hneg (by decide)
        · refine iff_of_true ?_ (.inl (by omega))
          have hvalue := atoi_itoa v
          have hdigits : ∀ c ∈ itoa v.toInt 10, isdigit c.toInt = true := by
            rw [itoa_ten, if_neg hneg]
            exact fun c => isdigit_of_mem_numeral
          obtain ⟨d, s, hds⟩ := List.exists_cons_of_ne_nil (itoa_ne_nil v.toInt)
          rw [hds] at hvalue hdigits ⊢
          rw [atoi_zeros (hdigits d List.mem_cons_self), hvalue]

/-- **The field of `%d`**: what `printf` emits for a directive with a width is read back as
the argument exactly if it has no zeros in front of a sign. -/
theorem printf_field_atoi (pad0 : Bool) (w : Fin 10) (v : BitVec 32)
    (hformat : IsCString mem format (chr '%' :: (decimalDirective pad0 w).text)) :
    ∃ out, (∃ n, ∀ fuel, n ≤ fuel → printf mem fuel format [v] = .ok out) ∧
      (atoi out.chars = v ↔
        pad0 = false ∨ 0 ≤ v.toInt ∨ w.val ≤ (itoa v.toInt 10).length) := by
  have hdenotes : (decimalDirective pad0 w).conversion.Denotes mem v (itoa v.toInt 10) := itoa_ten _
  have hprintf := printfLoop_rendered (.directive (decimalDirective pad0 w) hdenotes .nil) []
    (by simpa [Piece.text] using hformat) []
  refine ⟨_, hprintf, ?_⟩
  rw [List.append_nil]
  exact atoi_field pad0 w v

/-- The theorem for `"%5d"`. -/
theorem printf_field_atoi_spaces :
    ∃ out, (∃ n, ∀ fuel, n ≤ fuel → printf (literal [chr '%', chr '5', chr 'd']) fuel 0 [-205] =
      .ok out) ∧
      (atoi out.chars = -205 ↔
        false = false ∨ 0 ≤ (-205 : BitVec 32).toInt ∨
          (5 : Fin 10).val ≤ (itoa (-205 : BitVec 32).toInt 10).length) :=
  printf_field_atoi false 5 (-205)
    ⟨by decide, by decide, by decide, by decide, by decide, by decide, by rfl⟩

/-- `"%04d"` prints -5 as `00-5`, which is 0. -/
theorem printf_field_zeros : ¬ ∃ out,
    (∃ n, ∀ fuel, n ≤ fuel → printf (literal [chr '%', chr '0', chr '4', chr 'd']) fuel 0 [-5] =
      .ok out) ∧ atoi out.chars = -5 := by
  rintro ⟨out, ⟨n, hn⟩, hvalue⟩
  have hdenotes : (decimalDirective true 4).conversion.Denotes (literal [chr '%', chr '0', chr '4', chr 'd'])
      (-5) (itoa (-5 : BitVec 32).toInt 10) := itoa_ten _
  obtain ⟨m, hm⟩ := printfLoop_rendered (.directive (decimalDirective true 4) hdenotes .nil) []
    (p := 0) ⟨by decide, by decide, by decide, by decide, by decide, by decide, by decide, by decide,
      by rfl⟩ []
  have heq := (hn (n + m) (by omega)).symm.trans (hm (n + m) (by omega))
  rw [Except.ok.inj heq] at hvalue
  revert hvalue
  decide

end NimbleOS
