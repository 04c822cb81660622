import Mathlib.Algebra.GroupWithZero.Nat
import Mathlib.Data.Finset.Card
import Mathlib.Data.Finset.Range
import Mathlib.Logic.Function.Basic
import Mathlib.Data.Nat.Init

/-!
# Bitset

Sets of natural numbers stored as an array of machine words: bit `b` lives in
word `b / w` at position `b % w`.  The array is total; a client that owns only
a prefix of it restricts its own indices.

The laws are the ones an allocator needs: what a `set` or a `clear` does to
every bit (`test_set`, `test_clear`), when two bits share a word, and how the
number of set bits below a bound moves (`card_set`, `card_clear`); and every set has an
array (`exists_test`).
-/

namespace Bitset

variable {w : Nat} (a : Nat → BitVec w) (b c : Nat)

/-- Bit `b` of the array. -/
def test : Bool := (a (b / w)).getLsbD (b % w)

/-- The one-bit mask of `b` inside its word. -/
def mask (w b : Nat) : BitVec w := 1#w <<< (b % w)

/-- Set bit `b`. -/
def set : Nat → BitVec w := Function.update a (b / w) (a (b / w) ||| mask w b)

/-- Clear bit `b`. -/
def clear : Nat → BitVec w := Function.update a (b / w) (a (b / w) &&& ~~~mask w b)

/-! ## one bit -/

/-- The mask of `b` has exactly the bit of `b`. -/
theorem getLsbD_mask (hw : 0 < w) (hi : i < w) :
    (mask w b).getLsbD i = decide (i = b % w) := by
  have hb : b % w < w := Nat.mod_lt b hw
  simp only [mask, BitVec.getLsbD_shiftLeft, BitVec.getLsbD_one]
  by_cases h : i = b % w
  · subst h; simp [hi, hw]
  · have hor : i < b % w ∨ b % w < i := Nat.lt_or_gt_of_ne h
    cases hor with
    | inl hlt => simp [h, hlt]
    | inr hgt => simp [h, hi]; omega

/-- Two bits coincide exactly when their word and their position do. -/
theorem div_mod_eq_iff : b / w = c / w ∧ b % w = c % w ↔ b = c := by
  constructor
  · rintro ⟨hd, hm⟩
    rw [← Nat.div_add_mod b w, ← Nat.div_add_mod c w, hd, hm]
  · rintro rfl; exact ⟨rfl, rfl⟩

theorem test_set [NeZero w] : test (set a b) c = (decide (c = b) || test a c) := by
  have hw : 0 < w := Nat.pos_of_ne_zero (NeZero.ne w)
  have hc : c % w < w := Nat.mod_lt c hw
  unfold test set
  by_cases hd : c / w = b / w
  · rw [hd, Function.update_self, BitVec.getLsbD_or, getLsbD_mask b hw hc]
    by_cases hm : c % w = b % w
    · have hcb : c = b := (div_mod_eq_iff c b).mp ⟨hd, hm⟩
      simp [hcb]
    · have hcb : c ≠ b := fun h => hm (by rw [h])
      simp [hcb, hm]
  · have hcb : c ≠ b := fun h => hd (by rw [h])
    rw [Function.update_of_ne hd]
    simp [hcb]

theorem test_clear [NeZero w] : test (clear a b) c = (decide (c ≠ b) && test a c) := by
  have hw : 0 < w := Nat.pos_of_ne_zero (NeZero.ne w)
  have hc : c % w < w := Nat.mod_lt c hw
  unfold test clear
  by_cases hd : c / w = b / w
  · rw [hd, Function.update_self, BitVec.getLsbD_and, BitVec.getLsbD_not,
      getLsbD_mask b hw hc]
    by_cases hm : c % w = b % w
    · have hcb : c = b := (div_mod_eq_iff c b).mp ⟨hd, hm⟩
      simp [hcb]
    · have hcb : c ≠ b := fun h => hm (by rw [h])
      simp [hcb, hm, hc]
  · have hcb : c ≠ b := fun h => hd (by rw [h])
    rw [Function.update_of_ne hd]
    simp [hcb]

/-- A one-bit test of a word, as C code writes it. -/
theorem and_mask_eq_zero_iff (x : BitVec w) (hj : j < w) :
    x &&& (1#w <<< j) = 0#w ↔ x.getLsbD j = false := by
  have hw : 0 < w := by omega
  have hmask : ∀ i, i < w → (1#w <<< j).getLsbD i = decide (i = j) := by
    intro i hi
    have h := getLsbD_mask (w := w) j hw hi
    rwa [mask, Nat.mod_eq_of_lt hj] at h
  constructor
  · intro h
    have hbit := congrArg (fun v => v.getLsbD j) h
    simpa [BitVec.getLsbD_and, hmask j hj] using hbit
  · intro h
    apply BitVec.eq_of_getLsbD_eq
    intro i hi
    rw [BitVec.getLsbD_and, hmask i hi]
    by_cases hij : i = j
    · subst hij; simp [h]
    · simp [hij]

/-! ## every set -/

/-- There is a word with any given bits. -/
theorem exists_word (f : Nat → Bool) : ∃ x : BitVec w, ∀ i < w, x.getLsbD i = f i := by
  induction w with
  | zero => exact ⟨0#0, fun i hi => absurd hi (Nat.not_lt_zero i)⟩
  | succ w ih =>
      obtain ⟨x, hx⟩ := ih
      refine ⟨BitVec.cons (f w) x, fun i hi => ?_⟩
      rw [BitVec.getLsbD_cons]
      split
      · next heq => rw [heq]
      · exact hx i (by omega)

/-- Every set of numbers is stored in some array. -/
theorem exists_test [NeZero w] (P : Nat → Prop) : ∃ a : Nat → BitVec w, ∀ b, test a b = true ↔ P b := by
  classical
  have hword : ∀ k, ∃ x : BitVec w, ∀ i < w, x.getLsbD i = decide (P (w * k + i)) := fun _ =>
    exists_word _
  choose a ha using hword
  refine ⟨a, fun b => ?_⟩
  have hmod : b % w < w := Nat.mod_lt b (Nat.pos_of_ne_zero (NeZero.ne w))
  rw [test, ha _ _ hmod, Nat.div_add_mod, decide_eq_true_iff]

/-! ## counting -/

/-- Number of set bits below `n`. -/
def card (n : Nat) : Nat := ((Finset.range n).filter fun b => test a b = true).card

theorem card_le : card a n ≤ n := by
  have h := Finset.card_filter_le (Finset.range n) (fun b => test a b = true)
  rwa [Finset.card_range] at h

/-- Setting a clear bit below the bound raises the count by one. -/
theorem card_set [NeZero w] (hb : b < n) (hfree : test a b = false) :
    card (set a b) n = card a n + 1 := by
  have hins : ((Finset.range n).filter fun c => test (set a b) c = true) =
      insert b ((Finset.range n).filter fun c => test a c = true) := by
    ext c
    simp only [Finset.mem_filter, Finset.mem_range, Finset.mem_insert, test_set]
    by_cases hcb : c = b
    · subst hcb; simp [hb]
    · simp [hcb]
  have hnot : b ∉ (Finset.range n).filter fun c => test a c = true := by
    simp [hfree]
  rw [card, hins, Finset.card_insert_of_notMem hnot, card]

/-- Clearing a set bit below the bound lowers the count by one. -/
theorem card_clear [NeZero w] (hb : b < n) (hset : test a b = true) :
    card (clear a b) n + 1 = card a n := by
  have hers : ((Finset.range n).filter fun c => test (clear a b) c = true) =
      ((Finset.range n).filter fun c => test a c = true).erase b := by
    ext c
    simp only [Finset.mem_filter, Finset.mem_range, Finset.mem_erase, test_clear]
    by_cases hcb : c = b
    · subst hcb; simp
    · simp [hcb]
  have hmem : b ∈ (Finset.range n).filter fun c => test a c = true := by
    simp [hb, hset]
  rw [card, hers, Finset.card_erase_of_mem hmem, card]
  have hpos := Finset.card_pos.mpr ⟨b, hmem⟩
  omega

/-- A bound with fewer set bits than slots leaves a clear bit. -/
theorem exists_clear_of_card_lt (h : card a n < n) : ∃ b < n, test a b = false := by
  by_contra hall
  have hfull : ((Finset.range n).filter fun b => test a b = true) = Finset.range n := by
    apply Finset.filter_true_of_mem
    intro b hb
    by_contra hbit
    exact hall ⟨b, Finset.mem_range.mp hb, by simpa using hbit⟩
  rw [card, hfull, Finset.card_range] at h
  exact Nat.lt_irrefl n h

end Bitset
