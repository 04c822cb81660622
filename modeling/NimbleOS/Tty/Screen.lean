import NimbleOS.Tty

/-!
# NimbleOS.Tty.Screen

The screen as its 80 by 25 cells, and what the drawing functions do to it cell by
cell.  None of them changes anything else of the terminal's state, except
`term_scrolldown` the row of the cursor.
-/

namespace NimbleOS

/-- The cell in column `x` of row `y`. -/
def Term.cell (t : Term) (x y : Nat) : BitVec 16 := t.memory (t.entry x y)

/-- The character that a cell shows. -/
def cellChar (e : BitVec 16) : BitVec 8 := e.setWidth 8

@[simp] theorem cellChar_termMakeEntry (c color : BitVec 8) :
    cellChar (termMakeEntry c color) = c := by
  ext i hi
  simp only [cellChar, termMakeEntry, BitVec.getElem_setWidth, BitVec.getLsbD_or,
    BitVec.getLsbD_shiftLeft, BitVec.getLsbD_signExtend]
  simp [hi, Nat.lt_trans hi (show 8 < 16 by decide), BitVec.getLsbD_eq_getElem]

/-- Cursor, colour and buffer are the same. -/
structure SameState (t t' : Term) : Prop where
  row : t'.row = t.row
  column : t'.column = t.column
  color : t'.color = t.color
  buffer : t'.buffer = t.buffer

theorem SameState.refl (t : Term) : SameState t t := ⟨rfl, rfl, rfl, rfl⟩

theorem SameState.trans (h : SameState t t') (h' : SameState t' t'') : SameState t t'' :=
  ⟨h'.row.trans h.row, h'.column.trans h.column, h'.color.trans h.color,
    h'.buffer.trans h.buffer⟩

/-- Every step of a loop keeps the state. -/
theorem SameState.foldl {f : Term → α → Term} (h : ∀ t a, SameState t (f t a)) (as : List α)
    (t : Term) : SameState t (as.foldl f t) := by
  induction as generalizing t with
  | nil => exact .refl t
  | cons a as ih => exact (h t a).trans (ih (f t a))

/-! ## single cells -/

/-- Distinct cells have distinct addresses. -/
theorem Term.entry_inj (t : Term) (hx : x < vgaWidth) (hy : y < vgaHeight) (hx' : x' < vgaWidth)
    (hy' : y' < vgaHeight) : t.entry x' y' = t.entry x y ↔ x' = x ∧ y' = y := by
  have hindex : t.entry x' y' = t.entry x y ↔ y' * vgaWidth + x' = y * vgaWidth + x := by
    have hk : y * vgaWidth + x < 2000 := by unfold vgaWidth vgaHeight at *; omega
    have hk' : y' * vgaWidth + x' < 2000 := by unfold vgaWidth vgaHeight at *; omega
    unfold entry u32
    omega
  rw [hindex]
  unfold vgaWidth at *
  omega

theorem sameState_setEntry (t : Term) (x y : Nat) (e : BitVec 16) :
    SameState t (t.setEntry x y e) := ⟨rfl, rfl, rfl, rfl⟩

theorem Term.cell_setEntry (t : Term) (e : BitVec 16) (hx : x < vgaWidth) (hy : y < vgaHeight)
    (hx' : x' < vgaWidth) (hy' : y' < vgaHeight) :
    (t.setEntry x y e).cell x' y' = if x' = x ∧ y' = y then e else t.cell x' y' := by
  change (if t.entry x' y' = t.entry x y then e else t.memory (t.entry x' y')) = _
  simp only [t.entry_inj hx hy hx' hy']
  rfl

theorem sameState_termPutcharAt (t : Term) (c : BitVec 8) (x y : Nat) :
    SameState t (termPutcharAt t c x y) := by
  unfold termPutcharAt
  split
  · exact .refl t
  · exact sameState_setEntry t x y _

/-- Outside of the screen nothing is drawn. -/
theorem Term.cell_termPutcharAt (t : Term) (c : BitVec 8) (x y : Nat) (hx' : x' < vgaWidth)
    (hy' : y' < vgaHeight) :
    (termPutcharAt t c x y).cell x' y' =
      if x' = x ∧ y' = y then termMakeEntry c t.color else t.cell x' y' := by
  unfold termPutcharAt
  by_cases hout : y ≥ vgaHeight ∨ x ≥ vgaWidth
  · rw [if_pos hout, if_neg (by omega)]
  · rw [if_neg hout, t.cell_setEntry _ (by omega) (by omega) hx' hy']

/-! ## erasing to the end of the line -/

/-- The loop of `K`: blanks from column `x` of the cursor's row. -/
def termEraseFrom (t : Term) (x n : Nat) : Term :=
  (List.range' x n).foldl (fun t x => termPutcharAt t (chr ' ') x t.row) t

theorem sameState_termEraseFrom (t : Term) (x n : Nat) : SameState t (termEraseFrom t x n) :=
  SameState.foldl (fun t x => sameState_termPutcharAt t _ x _) _ t

theorem Term.cell_termEraseFrom (t : Term) (x n : Nat) (hx' : x' < vgaWidth)
    (hy' : y' < vgaHeight) :
    (termEraseFrom t x n).cell x' y' =
      if (x ≤ x' ∧ x' < x + n) ∧ y' = t.row then termMakeEntry (chr ' ') t.color
      else t.cell x' y' := by
  induction n generalizing t x with
  | zero =>
      rw [if_neg (by omega)]
      rfl
  | succ n ih =>
      have hstep : termEraseFrom t x (n + 1) =
          termEraseFrom (termPutcharAt t (chr ' ') x t.row) (x + 1) n := rfl
      have hsame := sameState_termPutcharAt t (chr ' ') x t.row
      rw [hstep, ih, hsame.row, hsame.color, t.cell_termPutcharAt _ _ _ hx' hy']
      by_cases hrow : y' = t.row
      · by_cases hlater : x + 1 ≤ x' ∧ x' < x + 1 + n
        · rw [if_pos ⟨hlater, hrow⟩, if_pos ⟨by omega, hrow⟩]
        · rw [if_neg fun hc => hlater hc.1]
          by_cases hfirst : x' = x
          · rw [if_pos ⟨hfirst, hrow⟩, if_pos ⟨by omega, hrow⟩]
          · rw [if_neg fun hc => hfirst hc.1, if_neg (by omega)]
      · rw [if_neg fun hc => hrow hc.2, if_neg fun hc => hrow hc.2, if_neg fun hc => hrow hc.2]

/-! ## filling the screen -/

/-- The loop over the cells of column `x`. -/
theorem Term.cell_fillColumn (t : Term) (e : BitVec 16) (hx : x < vgaWidth) (hx' : x' < vgaWidth)
    (hy' : y' < vgaHeight) (hn : n ≤ vgaHeight) :
    ((List.range n).foldl (fun t y => t.setEntry x y e) t).cell x' y' =
      if x' = x ∧ y' < n then e else t.cell x' y' := by
  induction n with
  | zero => simp
  | succ n ih =>
      rw [List.range_succ, List.foldl_append, List.foldl_cons, List.foldl_nil,
        cell_setEntry _ e hx (by omega) hx' hy', ih (by omega)]
      by_cases hcol : x' = x
      · by_cases hlast : y' = n
        · rw [if_pos ⟨hcol, hlast⟩, if_pos ⟨hcol, by omega⟩]
        · rw [if_neg fun hc => hlast hc.2]
          by_cases hlt : y' < n
          · rw [if_pos ⟨hcol, hlt⟩, if_pos ⟨hcol, by omega⟩]
          · rw [if_neg fun hc => hlt hc.2, if_neg (by omega)]
      · rw [if_neg fun hc => hcol hc.1, if_neg fun hc => hcol hc.1, if_neg fun hc => hcol hc.1]

theorem sameState_fillColumn (t : Term) (e : BitVec 16) (x n : Nat) :
    SameState t ((List.range n).foldl (fun t y => t.setEntry x y e) t) :=
  SameState.foldl (fun t y => sameState_setEntry t x y e) _ t

theorem sameState_fill (t : Term) (e : BitVec 16) : SameState t (t.fill e) :=
  SameState.foldl (fun t x => sameState_fillColumn t e x _) _ t

theorem Term.cell_fill (t : Term) (e : BitVec 16) (hx : x < vgaWidth) (hy : y < vgaHeight) :
    (t.fill e).cell x y = e := by
  have hall : ∀ n ≤ vgaWidth, ((List.range n).foldl (fun t x =>
      (List.range vgaHeight).foldl (fun t y => t.setEntry x y e) t) t).cell x y =
        if x < n then e else t.cell x y := by
    intro n hn
    induction n with
    | zero => simp
    | succ n ih =>
        rw [List.range_succ, List.foldl_append, List.foldl_cons, List.foldl_nil,
          cell_fillColumn _ e (by omega) hx hy (Nat.le_refl _), ih (by omega)]
        by_cases hlast : x = n
        · rw [if_pos ⟨hlast, hy⟩, if_pos (by omega)]
        · rw [if_neg fun hc => hlast hc.1]
          by_cases hlt : x < n
          · rw [if_pos hlt, if_pos (by omega)]
          · rw [if_neg hlt, if_neg (by omega)]
  rw [fill, hall _ (Nat.le_refl _), if_pos hx]

/-- `term_init` clears the screen and moves the cursor home. -/
theorem termInit_spec (t : Term) :
    (termInit t).row = 0 ∧ (termInit t).column = 0 ∧
      ∀ x < vgaWidth, ∀ y < vgaHeight,
        (termInit t).cell x y = termMakeEntry (chr ' ') t.color := by
  have hsame := sameState_fill
    { t with
      buffer := vgaMemory
      color := termMakeColor TermVgaColor.white.val TermVgaColor.black.val
      row := 0
      column := 0 } (termMakeEntry (chr ' ') t.color)
  exact ⟨hsame.row, hsame.column, fun x hx y hy => Term.cell_fill _ _ hx hy⟩

/-! ## scrolling -/

/-- What scrolling puts in a cell. -/
def Term.scrolled (t : Term) (x y : Nat) : BitVec 16 :=
  if y < vgaHeight - 1 then t.cell x (y + 1) else termMakeEntry (chr ' ') t.color

theorem sameState_termScrollCell (t : Term) (x y : Nat) : SameState t (termScrollCell t x y) := by
  unfold termScrollCell
  split <;> exact sameState_setEntry t x y _

/-- The row `y + 1`, from which row `y` is copied, does not change meanwhile. -/
theorem Term.cell_scrollRow (t : Term) (hy : y < vgaHeight) (hx' : x' < vgaWidth)
    (hy' : y' < vgaHeight) (hn : n ≤ vgaWidth) :
    ((List.range n).foldl (fun t x => termScrollCell t x y) t).cell x' y' =
      if x' < n ∧ y' = y then t.scrolled x' y else t.cell x' y' := by
  induction n generalizing x' y' with
  | zero => simp
  | succ n ih =>
      rw [List.range_succ, List.foldl_append, List.foldl_cons, List.foldl_nil]
      have hsame := SameState.foldl (fun t x => sameState_termScrollCell t x y) (List.range n) t
      have hbelow : y < vgaHeight - 1 →
          ((List.range n).foldl (fun t x => termScrollCell t x y) t).cell n (y + 1) =
            t.cell n (y + 1) := fun hlt => by
        rw [ih (by omega) (by omega) (by omega), if_neg (by omega)]
      have hrest := ih hx' hy' (by omega)
      generalize (List.range n).foldl (fun t x => termScrollCell t x y) t = u at *
      have hcell : (termScrollCell u n y).cell x' y' =
          if x' = n ∧ y' = y then t.scrolled n y else u.cell x' y' := by
        unfold termScrollCell scrolled
        by_cases hlt : y < vgaHeight - 1
        · rw [if_pos hlt, if_pos hlt, u.cell_setEntry _ (by omega) hy hx' hy', ← hbelow hlt]
          rfl
        · rw [if_neg hlt, if_neg hlt, u.cell_setEntry _ (by omega) hy hx' hy', hsame.color]
      rw [hcell, hrest]
      by_cases hrow : y' = y
      · by_cases hlast : x' = n
        · rw [if_pos ⟨hlast, hrow⟩, if_pos ⟨by omega, hrow⟩, hlast]
        · rw [if_neg fun hc => hlast hc.1]
          by_cases hlt : x' < n
          · rw [if_pos ⟨hlt, hrow⟩, if_pos ⟨by omega, hrow⟩]
          · rw [if_neg fun hc => hlt hc.1, if_neg (by omega)]
      · rw [if_neg fun hc => hrow hc.2, if_neg fun hc => hrow hc.2, if_neg fun hc => hrow hc.2]

theorem Term.cell_scrollRows (t : Term) (hx : x < vgaWidth) (hy : y < vgaHeight)
    (hn : n ≤ vgaHeight) :
    ((List.range n).foldl
      (fun t y => (List.range vgaWidth).foldl (fun t x => termScrollCell t x y) t) t).cell x y =
        if y < n then t.scrolled x y else t.cell x y := by
  induction n generalizing y with
  | zero => simp
  | succ n ih =>
      rw [List.range_succ, List.foldl_append, List.foldl_cons, List.foldl_nil]
      have hsame := SameState.foldl (fun t y =>
        SameState.foldl (fun t x => sameState_termScrollCell t x y) (List.range vgaWidth) t)
        (List.range n) t
      have hbelow : n < vgaHeight - 1 → _ := fun hlt => ih (y := n + 1) (by omega) (by omega)
      have hrest := ih hy (by omega)
      generalize (List.range n).foldl
        (fun t y => (List.range vgaWidth).foldl (fun t x => termScrollCell t x y) t) t = u at *
      have hscrolled : u.scrolled x n = t.scrolled x n := by
        unfold scrolled
        by_cases hlt : n < vgaHeight - 1
        · rw [if_pos hlt, if_pos hlt, hbelow hlt, if_neg (by omega)]
        · rw [if_neg hlt, if_neg hlt, hsame.color]
      rw [u.cell_scrollRow (by omega) hx hy (Nat.le_refl _), hscrolled, hrest]
      by_cases hlast : y = n
      · rw [if_pos ⟨hx, hlast⟩, if_pos (by omega), hlast]
      · rw [if_neg fun hc => hlast hc.2]
        by_cases hlt : y < n
        · rw [if_pos hlt, if_pos (by omega)]
        · rw [if_neg hlt, if_neg (by omega)]

theorem Term.cell_withRow (t : Term) (row x y : Nat) :
    ({ t with row := row } : Term).cell x y = t.cell x y := rfl

/-- **Scrolling** moves every row up by one and blanks the last. -/
theorem termScrolldown_spec (t : Term) :
    (termScrolldown t).row = u32Sub t.row 1 ∧ (termScrolldown t).column = t.column ∧
      (termScrolldown t).color = t.color ∧
      ∀ x < vgaWidth, ∀ y < vgaHeight, (termScrolldown t).cell x y = t.scrolled x y := by
  have hsame := SameState.foldl (fun t y =>
    SameState.foldl (fun t x => sameState_termScrollCell t x y) (List.range vgaWidth) t)
    (List.range vgaHeight) t
  have hcells : ∀ x < vgaWidth, ∀ y < vgaHeight, _ = t.scrolled x y := fun x hx y hy =>
    (t.cell_scrollRows hx hy (Nat.le_refl _)).trans (if_pos hy)
  unfold termScrolldown
  generalize (List.range vgaHeight).foldl
    (fun t y => (List.range vgaWidth).foldl (fun t x => termScrollCell t x y) t) t = u at *
  refine ⟨?_, hsame.column, hsame.color, fun x hx y hy => ?_⟩
  · change u32Sub u.row 1 = _
    rw [hsame.row]
  · exact (u.cell_withRow _ x y).trans (hcells x hx y hy)

end NimbleOS
