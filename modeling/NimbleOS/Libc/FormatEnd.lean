import Mathlib.Logic.Relation
import NimbleOS.Libc.Format

/-!
# NimbleOS.Libc.FormatEnd

Where `printf` stops reading its format.  The loop tests for the NUL at its head only, and a
directive takes its characters without a test; so a NUL inside a directive is taken for a
character, and the loop goes on behind it.
-/

namespace NimbleOS

/-! ## the walk over the format -/

/-- The pointer and the number of arguments taken, after a round of the loop. -/
def printfNext (mem : Nat → BitVec 8) (s : Nat × Nat) : Nat × Nat :=
  if mem s.1 = chr '%' then ((printfDirective mem (s.1 + 1)).2.2.2, s.2 + 1) else (s.1 + 1, s.2)

/-- The loop, once in `s`, comes to its head in `s'`. -/
def Heads (mem : Nat → BitVec 8) : Nat × Nat → Nat × Nat → Prop :=
  Relation.ReflTransGen fun s s' => mem s.1 ≠ 0 ∧ s' = printfNext mem s

/-- In the round from `s` on, the character at `i` is read: the test reads the first, and a
round moves the pointer over what it has read. -/
def ReadsAt (mem : Nat → BitVec 8) (s : Nat × Nat) (i : Nat) : Prop :=
  i = s.1 ∨ mem s.1 ≠ 0 ∧ s.1 ≤ i ∧ i < (printfNext mem s).1

/-- From `s` on, no character of the format behind `e` is read. -/
def ReadsWithin (mem : Nat → BitVec 8) (s : Nat × Nat) (e : Nat) : Prop :=
  ∀ s', Heads mem s s' → ∀ i, ReadsAt mem s' i → i ≤ e

/-- The loop returns, with finitely many characters. -/
def PrintfReturns (mem : Nat → BitVec 8) (args : Nat → BitVec 32) (s : Nat × Nat) : Prop :=
  ∃ n out, ∀ fuel, n ≤ fuel → printfLoop mem args fuel s.1 s.2 = .ok out

/-- The argument of a `%s` is `NULL` or points to a string. -/
def StringAt (mem : Nat → BitVec 8) (args : Nat → BitVec 32) (s : Nat × Nat) : Prop :=
  mem s.1 = chr '%' → (printfDirective mem (s.1 + 1)).2.2.1 = chr 's' →
    args s.2 = 0 ∨ ∃ text, IsCString mem (args s.2).toNat text

theorem lt_printfDirective (mem : Nat → BitVec 8) (p : Nat) : p < (printfDirective mem p).2.2.2 := by
  simp only [printfDirective]
  split <;> split <;> omega

theorem lt_printfNext (mem : Nat → BitVec 8) (s : Nat × Nat) : s.1 < (printfNext mem s).1 := by
  rw [printfNext]
  split
  · exact Nat.lt_of_succ_lt (lt_printfDirective mem (s.1 + 1))
  · exact Nat.lt_succ_self _

/-- At the NUL the walk ends. -/
theorem heads_nul (h : mem s.1 = 0) : Heads mem s s' ↔ s' = s := by
  rw [Heads, Relation.ReflTransGen.cases_head_iff]
  constructor
  · rintro (rfl | ⟨_, ⟨hne, -⟩, -⟩)
    · rfl
    · exact absurd h hne
  · exact fun heq => .inl heq.symm

theorem heads_next (h : mem s.1 ≠ 0) : Heads mem s s' ↔ s' = s ∨ Heads mem (printfNext mem s) s' := by
  rw [Heads, Relation.ReflTransGen.cases_head_iff]
  constructor
  · rintro (rfl | ⟨_, ⟨-, rfl⟩, hrest⟩)
    · exact .inl rfl
    · exact .inr hrest
  · rintro (rfl | hrest)
    · exact .inl rfl
    · exact .inr ⟨_, ⟨h, rfl⟩, hrest⟩

theorem readsWithin_nul (h : mem s.1 = 0) : ReadsWithin mem s e ↔ s.1 ≤ e := by
  constructor
  · exact fun hall => hall s .refl s.1 (.inl rfl)
  · intro hle s' hs' i hi
    obtain rfl := (heads_nul h).mp hs'
    rcases hi with rfl | ⟨hne, -⟩
    · exact hle
    · exact absurd h hne

/-- One round. -/
theorem readsWithin_next (h : mem s.1 ≠ 0) :
    ReadsWithin mem s e ↔ (printfNext mem s).1 ≤ e + 1 ∧ ReadsWithin mem (printfNext mem s) e := by
  have hlt := lt_printfNext mem s
  constructor
  · intro hall
    refine ⟨?_, fun s' hs' => hall s' ((heads_next h).mpr (.inr hs'))⟩
    have hlast := hall s .refl ((printfNext mem s).1 - 1) (.inr ⟨h, by omega, by omega⟩)
    omega
  · rintro ⟨hle, hall⟩ s' hs' i hi
    rcases (heads_next h).mp hs' with rfl | hrest
    · rcases hi with rfl | ⟨-, -, hi⟩
      · omega
      · omega
    · exact hall s' hrest i hi

/-! ## where a directive ends -/

/-- Where in a format the next character stands: outside directives, or behind the `%`, the
flag or the width of one. -/
inductive Place where
  | text | percent | flag | width
  deriving DecidableEq

def Place.next : Place → BitVec 8 → Place
  | .text, c => if c = chr '%' then .percent else .text
  | .percent, c => if c = chr '0' then .flag else if isdigit c.toInt then .width else .text
  | .flag, c => if isdigit c.toInt then .width else .text
  | .width, _ => .text

/-- No directive is cut off by the end of the format. -/
def Complete (format : List (BitVec 8)) : Prop := format.foldl Place.next .text = .text

instance (format : List (BitVec 8)) : Decidable (Complete format) := inferInstanceAs (Decidable (_ = _))

example : Complete ("%05d, 50%s".toList.map chr) := by decide

example : ¬ Complete ("%d, 50%0".toList.map chr) := by decide

/-- **A directive** ends within the format, as the automaton has it, or takes the NUL for its
letter. -/
theorem printfDirective_end (h : IsCString mem p s) :
    (∃ d rest, s = d ++ rest ∧ (printfDirective mem p).2.2.2 = p + d.length ∧
      s.foldl Place.next .percent = rest.foldl Place.next .text) ∨
    (printfDirective mem p).2.2.2 = p + s.length + 1 ∧ s.foldl Place.next .percent ≠ .text := by
  have hnul : isdigit 0 = false := by decide
  have hnul' : 0#8 ≠ chr '0' := by decide
  cases s with
  | nil =>
      have hp : mem p = 0 := h
      exact .inr ⟨by simp [printfDirective, hp, hnul, hnul'], by decide⟩
  | cons c s =>
      obtain ⟨hp, -, hs⟩ := h
      by_cases hflag : c = chr '0'
      · cases s with
        | nil =>
            have hp' : mem (p + 1) = 0 := hs
            exact .inr ⟨by simp [printfDirective, hp, hflag, hp', hnul],
              by simp [List.foldl, Place.next, hflag]⟩
        | cons w s =>
            obtain ⟨hw, -, hs⟩ := hs
            by_cases hwidth : isdigit w.toInt = true
            · cases s with
              | nil =>
                  exact .inr ⟨by simp [printfDirective, hp, hflag, hw, hwidth],
                    by simp [List.foldl, Place.next, hflag, hwidth]⟩
              | cons l s =>
                  exact .inl ⟨[c, w, l], s, rfl, by simp [printfDirective, hp, hflag, hw, hwidth],
                    by simp [List.foldl, Place.next, hflag, hwidth]⟩
            · exact .inl ⟨[c, w], s, rfl, by simp [printfDirective, hp, hflag, hw, hwidth],
                by simp [List.foldl, Place.next, hflag, hwidth]⟩
      · by_cases hwidth : isdigit c.toInt = true
        · cases s with
          | nil =>
              exact .inr ⟨by simp [printfDirective, hp, hflag, hwidth],
                by simp [List.foldl, Place.next, hflag, hwidth]⟩
          | cons l s =>
              exact .inl ⟨[c, l], s, rfl, by simp [printfDirective, hp, hflag, hwidth],
                by simp [List.foldl, Place.next, hflag, hwidth]⟩
        · exact .inl ⟨[c], s, rfl, by simp [printfDirective, hp, hflag, hwidth],
            by simp [List.foldl, Place.next, hflag, hwidth]⟩

/-- The loop reads no character behind the NUL exactly if no directive is cut off. -/
theorem readsWithin_iff_complete (h : IsCString mem p s) (k : Nat) :
    ReadsWithin mem (p, k) (p + s.length) ↔ Complete s := by
  induction hlen : s.length using Nat.strong_induction_on generalizing p k s with
  | _ n ih =>
      subst hlen
      cases s with
      | nil =>
          rw [readsWithin_nul (s := (p, k)) h]
          exact iff_of_true (Nat.le_add_right _ _) rfl
      | cons c s =>
          obtain ⟨hp, hne, hs⟩ := h
          have hnul : mem (p, k).1 ≠ 0 := fun h0 => hne (hp.symm.trans h0)
          rw [readsWithin_next hnul, List.length_cons]
          by_cases hpercent : c = chr '%'
          · have hnext : printfNext mem (p, k) = ((printfDirective mem (p + 1)).2.2.2, k + 1) :=
              if_pos (hp.trans hpercent)
            have hcomplete : Complete (c :: s) ↔ s.foldl Place.next .percent = .text := by
              simp [Complete, Place.next, hpercent]
            rw [hnext, hcomplete]
            rcases printfDirective_end hs with ⟨d, rest, rfl, hq, hplace⟩ | ⟨hq, hplace⟩
            · rw [hq, hplace, List.length_append]
              have hrest := ih rest.length (by simp only [List.length_cons, List.length_append]; omega)
                (isCString_append hs) (k + 1) rfl
              rw [show p + 1 + d.length + rest.length = p + (d.length + rest.length + 1) by omega]
                at hrest
              rw [hrest, and_iff_right (by omega)]
              rfl
            · refine iff_of_false (fun hall => ?_) hplace
              have hbehind := hall.2 _ .refl _ (.inl rfl)
              simp only [hq] at hbehind
              omega
          · have hnext : printfNext mem (p, k) = (p + 1, k) := if_neg fun h => hpercent (hp.symm.trans h)
            have hcomplete : Complete (c :: s) ↔ Complete s := by
              simp [Complete, Place.next, hpercent]
            rw [hnext, hcomplete, show p + (s.length + 1) = p + 1 + s.length by omega,
              ih s.length (Nat.lt_succ_self _) hs k rfl, and_iff_right (by simp only; omega)]

/-! ## the loop returns -/

theorem printfReturns_nul (h : mem s.1 = 0) : PrintfReturns mem args s := by
  refine ⟨1, { chars := [], written := 0 }, fun fuel hfuel => ?_⟩
  obtain ⟨fuel, rfl⟩ := Nat.exists_eq_add_of_le' hfuel
  rw [printfLoop, if_pos h]

/-- The `switch` comes to an end, whatever the letter. -/
theorem printfConversion_returns (c : BitVec 8) (arg : BitVec 32)
    (h : c = chr 's' → arg = 0 ∨ ∃ text, IsCString mem arg.toNat text) :
    ∃ n conversion, ∀ fuel, n ≤ fuel → printfConversion mem fuel c arg = .ok conversion := by
  by_cases hs : c = chr 's'
  · have hdenotes : ∃ text, Conversion.s.Denotes mem arg text := by
      by_cases hnull : arg = 0
      · exact ⟨nullText, by simp only [Conversion.Denotes, if_pos hnull]⟩
      · obtain ⟨text, htext⟩ := (h hs).resolve_left hnull
        exact ⟨text, by simpa only [Conversion.Denotes, if_neg hnull] using htext⟩
    obtain ⟨text, htext⟩ := hdenotes
    obtain ⟨n, hn⟩ := printfConversion_of_denotes .s htext
    subst hs
    exact ⟨n, _, hn⟩
  · have hne : Char.ofNat c.toNat ≠ 's' := fun hc => hs (by rw [← chr_ofNat_toNat c, hc])
    have hsame : ∀ fuel, printfConversion mem fuel c arg = printfConversion mem 0 c arg := by
      intro fuel
      simp only [printfConversion]
      split <;> first | rfl | contradiction
    cases hconv : printfConversion mem 0 c arg with
    | ok conversion => exact ⟨0, conversion, fun fuel _ => (hsame fuel).trans hconv⟩
    | error e =>
        simp only [printfConversion] at hconv
        split at hconv <;> contradiction

/-- One round. -/
theorem printfReturns_next (hne : mem s.1 ≠ 0) (hstring : StringAt mem args s)
    (h : PrintfReturns mem args (printfNext mem s)) : PrintfReturns mem args s := by
  obtain ⟨n, out, hout⟩ := h
  by_cases hpercent : mem s.1 = chr '%'
  · obtain ⟨m, conversion, hconversion⟩ := printfConversion_returns _ _ (hstring hpercent)
    rw [printfNext, if_pos hpercent] at hout
    refine ⟨n + m + 1, .after (printfField (printfDirective mem (s.1 + 1)).1
      (printfDirective mem (s.1 + 1)).2.1 (args s.2) conversion) out, fun fuel hfuel => ?_⟩
    obtain ⟨fuel, rfl⟩ := Nat.exists_eq_add_of_le' (Nat.le_of_add_left_le hfuel)
    exact printfLoop_directive hpercent rfl (hconversion fuel (by omega)) (hout fuel (by omega))
  · rw [printfNext, if_neg hpercent] at hout
    refine ⟨n + 1, .after [mem s.1] out, fun fuel hfuel => ?_⟩
    obtain ⟨fuel, rfl⟩ := Nat.exists_eq_add_of_le' (Nat.le_of_add_left_le hfuel)
    exact printfLoop_ordinary hne hpercent (hout fuel (by omega))

/-- **Termination**, for a format without a directive that is cut off. -/
theorem printfReturns_of_complete (h : IsCString mem p s) (hcomplete : Complete s)
    (hstrings : ∀ t, Heads mem (p, k) t → t.1 < p + s.length → StringAt mem args t) :
    PrintfReturns mem args (p, k) := by
  induction hlen : s.length using Nat.strong_induction_on generalizing p k s with
  | _ n ih =>
      subst hlen
      cases s with
      | nil => exact printfReturns_nul (s := (p, k)) h
      | cons c s =>
          obtain ⟨hp, hne, hs⟩ := h
          have hnul : mem (p, k).1 ≠ 0 := fun h0 => hne (hp.symm.trans h0)
          have hhere := hstrings (p, k) .refl (by simp only [List.length_cons]; omega)
          have htail : ∀ t, Heads mem (printfNext mem (p, k)) t → Heads mem (p, k) t :=
            fun t ht => (heads_next hnul).mpr (.inr ht)
          refine printfReturns_next hnul hhere ?_
          by_cases hpercent : c = chr '%'
          · have hnext : printfNext mem (p, k) = ((printfDirective mem (p + 1)).2.2.2, k + 1) :=
              if_pos (hp.trans hpercent)
            rw [hnext] at htail ⊢
            have hplace : s.foldl Place.next .percent = .text := by
              simpa [Complete, Place.next, hpercent] using hcomplete
            rcases printfDirective_end hs with ⟨d, rest, rfl, hq, hplace'⟩ | ⟨-, hcut⟩
            · rw [hq] at htail ⊢
              simp only [List.length_cons, List.length_append] at hstrings ih
              exact ih rest.length (by omega) (isCString_append hs) (hplace'.symm.trans hplace)
                (fun t ht hlt => hstrings t (htail t ht) (by omega)) rfl
            · exact absurd hplace hcut
          · have hnext : printfNext mem (p, k) = (p + 1, k) := if_neg fun h => hpercent (hp.symm.trans h)
            rw [hnext] at htail ⊢
            have hrest : Complete s := by simpa [Complete, Place.next, hpercent] using hcomplete
            rw [List.length_cons] at hstrings
            exact ih s.length (Nat.lt_succ_self _) hs hrest
              (fun t ht hlt => hstrings t (htail t ht) (by omega)) rfl

/-- **The end of the format**: `printf` reads nothing behind the NUL and returns exactly if
the format has no directive that is cut off. -/
theorem printf_stops_iff (h : IsCString mem format s)
    (hstrings : ∀ t, Heads mem (format, 0) t → t.1 < format + s.length →
      StringAt mem (args.getD · 0) t) :
    (ReadsWithin mem (format, 0) (format + s.length) ∧
      ∃ n out, ∀ fuel, n ≤ fuel → printf mem fuel format args = .ok out) ↔ Complete s := by
  constructor
  · exact fun hall => (readsWithin_iff_complete h 0).mp hall.1
  · exact fun hcomplete =>
      ⟨(readsWithin_iff_complete h 0).mpr hcomplete, printfReturns_of_complete h hcomplete hstrings⟩

/-- The theorem for `"%s!"` and `NULL`. -/
theorem printf_stops_iff_null :
    (ReadsWithin (literal [chr '%', chr 's', chr '!']) (0, 0) (0 + 3) ∧
      ∃ n out, ∀ fuel, n ≤ fuel → printf (literal [chr '%', chr 's', chr '!']) fuel 0 [0] = .ok out) ↔
      Complete [chr '%', chr 's', chr '!'] := by
  have hformat : IsCString (literal [chr '%', chr 's', chr '!']) 0 [chr '%', chr 's', chr '!'] :=
    ⟨by decide, by decide, by decide, by decide, by decide, by decide, by rfl⟩
  have hnull : ∀ k, ([0] : List (BitVec 32)).getD k 0 = 0 := by
    intro k
    cases k <;> rfl
  exact printf_stops_iff hformat fun t _ _ _ _ => .inl (hnull t.2)

/-- `"50%"` is read beyond its end. -/
theorem printf_cut_off : ¬ (ReadsWithin (literal [chr '5', chr '0', chr '%']) (0, 0) (0 + 3) ∧
    ∃ n out, ∀ fuel, n ≤ fuel → printf (literal [chr '5', chr '0', chr '%']) fuel 0 [] = .ok out) := by
  rintro ⟨hreads, -⟩
  have hformat : IsCString (literal [chr '5', chr '0', chr '%']) 0 [chr '5', chr '0', chr '%'] :=
    ⟨by decide, by decide, by decide, by decide, by decide, by decide, by rfl⟩
  exact absurd ((readsWithin_iff_complete hformat 0).mp hreads) (by decide)

end NimbleOS
