import NimbleOS.Cpu.Irq
import NimbleOS.Lib.LastWrite

/-!
# NimbleOS.Cpu.Mask

`irq_mask` and `irq_unmask`.  A line is masked by its bit in the mask register of its
controller.  `irq_unmask` shifts by the register's contents in place of the line, so it
clears the right bit only for some contents.
-/

namespace NimbleOS

variable {H : Type}

def irqGetmask (s : IrqState H) (pic : Nat) : BitVec 8 := inportb s pic

def irqSetmask (s : IrqState H) (pic : Nat) (mask : BitVec 8) : IrqState H := outportb s pic mask

/-- `1 << n`; the machine takes the count modulo 32. -/
def shiftOne (n : Nat) : BitVec 32 := 1#32 <<< (n % 32)

/-- The data port of the line's controller, and the line there. -/
def irqPort (irq : Nat) : Nat × Nat := if irq < 8 then (pic1Data, irq) else (pic2Data, irq - 8)

def irqMask (s : IrqState H) (irq : Nat) : IrqState H :=
  let (pic, irq) := irqPort irq
  let mask := irqGetmask s pic
  irqSetmask s pic ((mask.setWidth 32 ||| shiftOne irq).setWidth 8)

/-- `mask &= ~(1 << mask)`. -/
def irqUnmask (s : IrqState H) (irq : Nat) : IrqState H :=
  let (pic, _) := irqPort irq
  let mask := irqGetmask s pic
  irqSetmask s pic ((mask.setWidth 32 &&& ~~~shiftOne mask.toNat).setWidth 8)

/-! ## one register -/

theorem getLsbD_shiftOne (n j : Nat) (hj : j < 32) : (shiftOne n).getLsbD j = decide (j = n % 32) := by
  have hlt := Nat.mod_lt n (y := 32) (by decide)
  rw [shiftOne, BitVec.getLsbD_shiftLeft, BitVec.getLsbD_one]
  simp only [hj, decide_true, Bool.true_and]
  by_cases h : j = n % 32
  · simp [h]
  · simp only [h, decide_false, Bool.and_eq_false_iff, Bool.not_eq_false', decide_eq_true_eq,
      decide_eq_false_iff_not]
    omega

theorem getLsbD_mask (m : BitVec 8) (i j : Nat) (hi : i < 8) (hj : j < 8) :
    ((m.setWidth 32 ||| shiftOne i).setWidth 8).getLsbD j = if j = i then true else m.getLsbD j := by
  have hbit := getLsbD_shiftOne i j (by omega)
  rw [Nat.mod_eq_of_lt (by omega)] at hbit
  rw [BitVec.getLsbD_setWidth, BitVec.getLsbD_or, hbit, BitVec.getLsbD_setWidth]
  by_cases h : j = i
  · simp [h, hi]
  · simp [h, hj, show j < 32 by omega]

theorem getLsbD_unmask (m : BitVec 8) (j : Nat) (hj : j < 8) :
    ((m.setWidth 32 &&& ~~~shiftOne m.toNat).setWidth 8).getLsbD j =
      (m.getLsbD j && decide (j ≠ m.toNat % 32)) := by
  have hbit := getLsbD_shiftOne m.toNat j (by omega)
  rw [BitVec.getLsbD_setWidth, BitVec.getLsbD_and, BitVec.getLsbD_not, hbit, BitVec.getLsbD_setWidth]
  simp [hj, show j < 32 by omega]

/-- The register's contents `m` happen to be such that unmasking its line `i` works. -/
def UnmaskRight (m : BitVec 8) (i : Nat) : Prop :=
  m.toNat % 32 = i ∨ m.getLsbD i = false ∧ m.getLsbD (m.toNat % 32) = false

instance (m : BitVec 8) (i : Nat) : Decidable (UnmaskRight m i) := inferInstanceAs (Decidable (_ ∨ _))

/-- Bit by bit. -/
theorem unmask_iff (m : BitVec 8) (i : Nat) (hi : i < 8) :
    (∀ j, j < 8 → ((m.setWidth 32 &&& ~~~shiftOne m.toNat).setWidth 8).getLsbD j =
      if j = i then false else m.getLsbD j) ↔ UnmaskRight m i := by
  constructor
  · intro hall
    by_cases heq : m.toNat % 32 = i
    · exact .inl heq
    · refine .inr ⟨?_, ?_⟩
      · have hbit := hall i hi
        rw [getLsbD_unmask m i hi, if_pos rfl] at hbit
        simpa [Ne.symm heq] using hbit
      · by_cases hk : m.toNat % 32 < 8
        · have hbit := hall _ hk
          rw [getLsbD_unmask m _ hk, if_neg heq] at hbit
          simpa using hbit.symm
        · exact BitVec.getLsbD_of_ge m _ (by omega)
  · intro hright j hj
    rw [getLsbD_unmask m j hj]
    rcases hright with heq | ⟨hline, hother⟩
    · rw [heq]
      by_cases hji : j = i
      · simp [hji]
      · simp [hji]
    · by_cases hji : j = i
      · simp [hji, hline]
      · rw [if_neg hji]
        by_cases hjk : j = m.toNat % 32
        · simp [hjk, hother]
        · simp [hjk]

/-! ## the lines -/

/-- The mask register of the line's controller. -/
def IrqState.maskOf (s : IrqState H) (l : Fin 16) : BitVec 8 :=
  if l.val < 8 then s.pic1.imr else s.pic2.imr

/-- Whether the line `l` is masked. -/
def IrqState.masked (s : IrqState H) (l : Fin 16) : Bool := (s.maskOf l).getLsbD (l.val % 8)

theorem irqPort_fst (s : IrqState H) (l : Fin 16) : irqGetmask s (irqPort l).1 = s.maskOf l := by
  rw [irqPort, IrqState.maskOf]
  split <;> rfl

theorem irqPort_snd (l : Fin 16) : (irqPort l).2 = l.val % 8 := by
  have hlt := l.isLt
  rw [irqPort]
  split
  · exact (Nat.mod_eq_of_lt ‹_›).symm
  · simp only
    omega

/-- A write to the mask register of one controller. -/
theorem maskOf_irqSetmask (s : IrqState H) (i l : Fin 16) (mask : BitVec 8) :
    (irqSetmask s (irqPort i).1 mask).maskOf l =
      if (l.val < 8 ↔ i.val < 8) then mask else s.maskOf l := by
  simp only [irqPort, IrqState.maskOf]
  by_cases hi : i.val < 8
  · simp only [hi, if_true, iff_true]
    split <;> rfl
  · simp only [hi, if_false, iff_false]
    split <;> rfl

/-- Two lines of one controller differ in their bits. -/
theorem same_line {i l : Fin 16} (h : l.val < 8 ↔ i.val < 8) : l.val % 8 = i.val % 8 ↔ l = i := by
  have hi := i.isLt
  have hl := l.isLt
  constructor
  · exact fun heq => Fin.ext (by omega)
  · exact fun heq => by rw [heq]

/-- `irq_mask` masks its line, and no other. -/
theorem masked_irqMask (s : IrqState H) (i l : Fin 16) :
    (irqMask s i).masked l = if l = i then true else s.masked l := by
  have hlt : ∀ l : Fin 16, l.val % 8 < 8 := fun l => Nat.mod_lt _ (by decide)
  have hdef : irqMask s i = irqSetmask s (irqPort i).1
      (((s.maskOf i).setWidth 32 ||| shiftOne (i.val % 8)).setWidth 8) := by
    rw [← irqPort_fst, ← irqPort_snd]
    rfl
  rw [hdef, IrqState.masked, maskOf_irqSetmask]
  by_cases hsame : l.val < 8 ↔ i.val < 8
  · rw [if_pos hsame, getLsbD_mask _ _ _ (hlt i) (hlt l)]
    have hmask : s.maskOf i = s.maskOf l := by simp only [IrqState.maskOf, hsame]
    simp only [same_line hsame, hmask]
    rfl
  · have hne : l ≠ i := by
      rintro rfl
      exact hsame Iff.rfl
    rw [if_neg hsame, if_neg hne]
    rfl

/-- `irq_unmask` unmasks its line, and no other, exactly for the right register contents. -/
theorem masked_irqUnmask_iff (s : IrqState H) (i : Fin 16) :
    (∀ l, (irqUnmask s i).masked l = if l = i then false else s.masked l) ↔
      UnmaskRight (s.maskOf i) (i.val % 8) := by
  have hlt : ∀ l : Fin 16, l.val % 8 < 8 := fun l => Nat.mod_lt _ (by decide)
  have hdef : irqUnmask s i = irqSetmask s (irqPort i).1
      (((s.maskOf i).setWidth 32 &&& ~~~shiftOne (s.maskOf i).toNat).setWidth 8) := by
    rw [← irqPort_fst]
    rfl
  rw [← unmask_iff _ _ (hlt i)]
  constructor
  · intro hall j hj
    -- the line of the same controller with the bit j
    have hline : i.val / 8 * 8 + j < 16 := by
      have := i.isLt
      omega
    have hbit := hall ⟨i.val / 8 * 8 + j, hline⟩
    have hsame : i.val / 8 * 8 + j < 8 ↔ i.val < 8 := by omega
    have hmod : (i.val / 8 * 8 + j) % 8 = j := by omega
    have hmask : s.maskOf ⟨i.val / 8 * 8 + j, hline⟩ = s.maskOf i := by
      simp only [IrqState.maskOf, hsame]
    rw [hdef, IrqState.masked, maskOf_irqSetmask, if_pos hsame, IrqState.masked, hmask] at hbit
    have heq := same_line (i := i) (l := ⟨i.val / 8 * 8 + j, hline⟩) hsame
    simp only [hmod] at hbit heq
    rw [hbit]
    simp only [heq]
  · intro hall l
    rw [hdef, IrqState.masked, maskOf_irqSetmask]
    by_cases hsame : l.val < 8 ↔ i.val < 8
    · have hmask : s.maskOf i = s.maskOf l := by simp only [IrqState.maskOf, hsame]
      rw [if_pos hsame, hall _ (hlt l)]
      simp only [same_line hsame, hmask]
      rfl
    · have hne : l ≠ i := by
        rintro rfl
        exact hsame Iff.rfl
      rw [if_neg hsame, if_neg hne]
      rfl

/-! ## sequences of calls -/

inductive MaskCall where
  | mask (irq : Fin 16)
  | unmask (irq : Fin 16)

def MaskCall.run (s : IrqState H) : MaskCall → IrqState H
  | .mask irq => irqMask s irq
  | .unmask irq => irqUnmask s irq

/-- What a call is to make of the line `l`; `none` if it does not name it. -/
def MaskCall.sets (l : Fin 16) : MaskCall → Option Bool
  | .mask irq => if l = irq then some true else none
  | .unmask irq => if l = irq then some false else none

/-- The call does to every line what it is to do. -/
def MaskCall.Right (s : IrqState H) : MaskCall → Prop
  | .mask _ => True
  | .unmask irq => UnmaskRight (s.maskOf irq) (irq.val % 8)

theorem MaskCall.right_iff (s : IrqState H) (c : MaskCall) :
    (∀ l, (c.run s).masked l = (c.sets l).getD (s.masked l)) ↔ c.Right s := by
  cases c with
  | mask irq =>
      refine iff_of_true (fun l => ?_) trivial
      rw [run, masked_irqMask, sets]
      split <;> rfl
  | unmask irq =>
      rw [Right, ← masked_irqUnmask_iff]
      refine forall_congr' fun l => ?_
      rw [run, sets]
      split <;> rfl

/-- After the calls, a line is as the last call that names it says, or as it was. -/
def LastCallWins (s : IrqState H) (calls : List MaskCall) : Prop :=
  ∀ l, (calls.foldl MaskCall.run s).masked l =
    (LastWrite.last (MaskCall.sets l) calls).getD (s.masked l)

/-- One more call. -/
theorem LastCallWins.snoc (h : LastCallWins s calls) (c : MaskCall) :
    LastCallWins s (calls ++ [c]) ↔ c.Right (calls.foldl MaskCall.run s) := by
  rw [← MaskCall.right_iff, LastCallWins]
  refine forall_congr' fun l => ?_
  rw [List.foldl_append, LastWrite.last_snoc, h l]
  cases c.sets l <;> rfl

/-- **Masking and unmasking**: after every prefix of the calls each line is as the last call
that names it says, exactly if each `irq_unmask` finds contents for which it works. -/
theorem irq_lines_iff (s : IrqState H) (calls : List MaskCall) :
    (∀ pre, pre <+: calls → LastCallWins s pre) ↔
      ∀ pre c post, calls = pre ++ c :: post → c.Right (pre.foldl MaskCall.run s) := by
  constructor
  · rintro hall pre c post rfl
    refine ((hall pre (List.prefix_append _ _)).snoc c).mp (hall (pre ++ [c]) ⟨post, by simp⟩)
  · intro hright pre hpre
    induction pre using List.reverseRecOn with
    | nil => exact fun l => rfl
    | append_singleton pre c ih =>
        obtain ⟨post, rfl⟩ := hpre
        rw [LastCallWins.snoc (ih ⟨c :: post, by simp⟩)]
        exact hright pre c post (by simp)

/-- Controllers that mask nothing, and no handlers. -/
def IrqState.unmasked : IrqState Unit :=
  { pic1 := { isr := 0, irr := 0, imr := 0, readIsr := false }
    pic2 := { isr := 0, irr := 0, imr := 0, readIsr := false }
    handlers := fun _ => none }

/-- Line 0, masked and unmasked again, stays masked. -/
theorem irq_unmask_keeps : ¬ LastCallWins IrqState.unmasked [.mask 0, .unmask 0] := by
  intro h
  exact absurd (h 0) (by decide)

end NimbleOS
