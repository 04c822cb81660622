import Mathlib.Algebra.GroupWithZero.Nat

/-!
# WordStack

A stack of 32-bit words that grows down in a memory.  `At mem sp ws` says that the words
`ws` stand from the address `sp` upwards.
-/

namespace WordStack

def store (mem : BitVec 32 → BitVec 32) (a v : BitVec 32) : BitVec 32 → BitVec 32 :=
  fun x => if x = a then v else mem x

/-- The words from `sp` upwards. -/
def At (mem : BitVec 32 → BitVec 32) (sp : BitVec 32) (ws : List (BitVec 32)) : Prop :=
  ∀ i (h : i < ws.length), mem (sp + BitVec.ofNat 32 (4 * i)) = ws[i]

theorem At.nil (mem : BitVec 32 → BitVec 32) (sp : BitVec 32) : At mem sp [] :=
  fun _ h => absurd h (Nat.not_lt_zero _)

/-- The word that is pushed stands on those that were there. -/
theorem At.push (h : At mem sp ws) (hlen : ws.length < 2 ^ 30 - 1) (v : BitVec 32) :
    At (store mem (sp - 4) v) (sp - 4) (v :: ws) := by
  intro i hi
  cases i with
  | zero =>
      have hsp : sp - 4 + BitVec.ofNat 32 (4 * 0) = sp - 4 := BitVec.add_zero _
      rw [hsp, store, if_pos rfl]
      rfl
  | succ i =>
      have hi' : i < ws.length := Nat.lt_of_succ_lt_succ hi
      have haddr : sp - 4 + BitVec.ofNat 32 (4 * (i + 1)) = sp + BitVec.ofNat 32 (4 * i) := by
        bv_omega
      have hne : sp + BitVec.ofNat 32 (4 * i) ≠ sp - 4 := by bv_omega
      rw [haddr, store, if_neg hne, h i hi']
      rfl

/-- The words below the top one. -/
theorem At.tail (h : At mem sp (w :: ws)) : At mem (sp + 4) ws := by
  intro i hi
  have haddr : sp + 4 + BitVec.ofNat 32 (4 * i) = sp + BitVec.ofNat 32 (4 * (i + 1)) := by
    bv_omega
  rw [haddr, h (i + 1) (Nat.succ_lt_succ hi)]
  rfl

/-- The words below several. -/
theorem At.drop (h : At mem sp (u ++ ws)) : At mem (sp + BitVec.ofNat 32 (4 * u.length)) ws := by
  intro i hi
  have haddr : sp + BitVec.ofNat 32 (4 * u.length) + BitVec.ofNat 32 (4 * i) =
      sp + BitVec.ofNat 32 (4 * (u.length + i)) := by
    bv_omega
  have hlen : u.length + i < (u ++ ws).length := by
    rw [List.length_append]
    omega
  rw [haddr, h (u.length + i) hlen, List.getElem_append_right (Nat.le_add_right _ _)]
  simp only [Nat.add_sub_cancel_left]

/-- Another memory with the same words. -/
theorem At.congr (h : At mem sp ws)
    (hmem : ∀ i < ws.length, m (sp + BitVec.ofNat 32 (4 * i)) = mem (sp + BitVec.ofNat 32 (4 * i))) :
    At m sp ws :=
  fun i hi => (hmem i hi).trans (h i hi)

end WordStack
