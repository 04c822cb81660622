import Mathlib.Data.Nat.Init
import Mathlib.Tactic.ByContra

/-!
# FirstFit

Leftmost-fit search over a sequence of slots, `free k` telling whether slot `k`
is free.  A one-pass scanner only remembers the length of the run of free slots
that ends at its position; `run` is that length, and the theorems say what it
knows: a run of `n` slots ends at `k` exactly when `n ≤ run free k`
(`le_run_iff`), and the first position where the run reaches `n` ends the
leftmost fit (`isLeftmost_of_run_eq`).
-/

namespace FirstFit

variable (free : Nat → Bool)

/-- Length of the run of free slots ending right before `k`. -/
def run : Nat → Nat
  | 0 => 0
  | k + 1 => if free k then run k + 1 else 0

@[simp] theorem run_zero : run free 0 = 0 := rfl

theorem run_succ_of_free (h : free k = true) : run free (k + 1) = run free k + 1 := by
  simp [run, h]

theorem run_succ_of_used (h : free k = false) : run free (k + 1) = 0 := by
  simp [run, h]

theorem run_le (k : Nat) : run free k ≤ k := by
  induction k with
  | zero => simp
  | succ k ih =>
      cases h : free k with
      | true => rw [run_succ_of_free free h]; omega
      | false => rw [run_succ_of_used free h]; omega

/-- The `n` slots from `f` on are all free. -/
def Fits (n f : Nat) : Prop := ∀ j, f ≤ j → j < f + n → free j = true

/-- The run that ends at `k` is the longest free stretch ending there. -/
theorem le_run_iff (n k : Nat) : n ≤ run free k ↔ n ≤ k ∧ Fits free n (k - n) := by
  induction k generalizing n with
  | zero =>
      constructor
      · intro h
        exact ⟨h, fun j _ _ => by simp at h; omega⟩
      · rintro ⟨h, -⟩; exact h
  | succ k ih =>
      cases h : free k with
      | false =>
          rw [run_succ_of_used free h]
          constructor
          · intro hn
            exact ⟨by omega, fun j _ _ => by omega⟩
          · rintro ⟨hn, hfit⟩
            -- a non-empty stretch ending at `k + 1` contains the used slot `k`
            by_contra hpos
            have hk := hfit k (by omega) (by omega)
            rw [h] at hk
            exact Bool.noConfusion hk
      | true =>
          rw [run_succ_of_free free h]
          cases n with
          | zero => exact ⟨fun _ => ⟨by omega, fun j _ _ => by omega⟩, fun _ => by omega⟩
          | succ n =>
              rw [Nat.succ_le_succ_iff, ih n]
              have hsub : k + 1 - (n + 1) = k - n := by omega
              rw [hsub]
              constructor
              · rintro ⟨hn, hfit⟩
                refine ⟨by omega, fun j hj hjn => ?_⟩
                by_cases hjk : j = k
                · rw [hjk, h]
                · exact hfit j hj (by omega)
              · rintro ⟨hn, hfit⟩
                exact ⟨by omega, fun j hj hjn => hfit j hj (by omega)⟩

/-- A run of exactly `n` slots ending at `k` occupies `k - n` up to `k`. -/
theorem fits_of_run_eq (h : run free k = n) : n ≤ k ∧ Fits free n (k - n) :=
  (le_run_iff free n k).mp (by omega)

/-- A run grows by at most one slot a position, so it passes every length. -/
theorem exists_run_eq_of_le (hn : 0 < n) (h : n ≤ run free k) :
    ∃ k', k' ≤ k ∧ run free k' = n := by
  induction k with
  | zero => simp at h; omega
  | succ k ih =>
      by_cases hk : n ≤ run free k
      · obtain ⟨k', hk', hrun⟩ := ih hk
        exact ⟨k', by omega, hrun⟩
      · refine ⟨k + 1, Nat.le_refl _, ?_⟩
        cases hf : free k with
        | true => rw [run_succ_of_free free hf] at h ⊢; omega
        | false => rw [run_succ_of_used free hf] at h; omega

/-- `f` is the leftmost fit of `n` slots below `bound`. -/
structure IsLeftmost (bound n f : Nat) : Prop where
  within : f + n ≤ bound
  fits : Fits free n f
  least : ∀ g, g < f → ¬ Fits free n g

/-- The first position where the run reaches `n` ends the leftmost fit. -/
theorem isLeftmost_of_run_eq (hk : k ≤ bound) (hrun : run free k = n)
    (hfirst : ∀ k', k' < k → run free k' < n) : IsLeftmost free bound n (k - n) := by
  obtain ⟨hnk, hfit⟩ := fits_of_run_eq free hrun
  refine ⟨by omega, hfit, fun g hg hgfit => ?_⟩
  have hend : n ≤ run free (g + n) := by
    rw [le_run_iff]
    exact ⟨by omega, by rwa [show g + n - n = g by omega]⟩
  have := hfirst (g + n) (by omega)
  omega

/-- Runs that stay below `n` up to `bound` leave no fit of `n` slots. -/
theorem not_fits_of_run_lt (hrun : ∀ k, k ≤ bound → run free k < n) (hf : f + n ≤ bound) :
    ¬ Fits free n f := by
  intro hfit
  have hend : n ≤ run free (f + n) := by
    rw [le_run_iff]
    exact ⟨by omega, by rwa [show f + n - n = f by omega]⟩
  have := hrun (f + n) hf
  omega

/-! ## the plain search -/

/-- The least fit of `n` slots below the bound, found by trying every slot; 0 if there is
none. -/
def leftmost (bound n : Nat) : Nat :=
  ((List.range bound).find? fun f =>
    decide (f + n ≤ bound) && (List.range n).all fun j => free (f + j)).getD 0

/-- What the search tests at a slot. -/
theorem fits_test_iff (bound n f : Nat) :
    (decide (f + n ≤ bound) && (List.range n).all fun j => free (f + j)) = true ↔
      f + n ≤ bound ∧ Fits free n f := by
  rw [Bool.and_eq_true, decide_eq_true_iff, List.all_eq_true]
  refine and_congr_right fun _ => ⟨fun h j hlo hhi => ?_, fun h j hj => ?_⟩
  · have hj := h (j - f) (List.mem_range.mpr (by omega))
    rwa [Nat.add_sub_cancel' hlo] at hj
  · exact h (f + j) (Nat.le_add_right f j) (Nat.add_lt_add_left (List.mem_range.mp hj) f)

theorem IsLeftmost.leftmost_eq (h : IsLeftmost free bound n f) (hn : 0 < n) :
    leftmost free bound n = f := by
  have hlt : f < bound := by
    have hwithin := h.within
    omega
  have hfind : (List.range bound).find? (fun f =>
      decide (f + n ≤ bound) && (List.range n).all fun j => free (f + j)) = some f := by
    refine List.find?_range_eq_some.mpr
      ⟨(fits_test_iff free bound n f).mpr ⟨h.within, h.fits⟩, List.mem_range.mpr hlt, fun g hg => ?_⟩
    rw [Bool.not_eq_true', Bool.eq_false_iff]
    exact fun htest => h.least g hg ((fits_test_iff free bound n g).mp htest).2
  rw [leftmost, hfind, Option.getD_some]

theorem leftmost_eq_zero (h : ∀ f, f + n ≤ bound → ¬ Fits free n f) : leftmost free bound n = 0 := by
  have hfind : (List.range bound).find? (fun f =>
      decide (f + n ≤ bound) && (List.range n).all fun j => free (f + j)) = none := by
    rw [List.find?_eq_none]
    intro f _ htest
    obtain ⟨hwithin, hfits⟩ := (fits_test_iff free bound n f).mp htest
    exact h f hwithin hfits
  rw [leftmost, hfind, Option.getD_none]

/-- What the search returns is a fit, unless it is 0. -/
theorem leftmost_fits (h : leftmost free bound n ≠ 0) :
    leftmost free bound n + n ≤ bound ∧ Fits free n (leftmost free bound n) := by
  unfold leftmost at h ⊢
  cases hfind : (List.range bound).find? (fun f =>
      decide (f + n ≤ bound) && (List.range n).all fun j => free (f + j)) with
  | none =>
      rw [hfind] at h
      exact absurd rfl h
  | some f =>
      have htest := List.find?_some hfind
      exact (fits_test_iff free bound n f).mp htest

end FirstFit
