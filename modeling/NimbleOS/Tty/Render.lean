import Mathlib.Data.List.GetD
import NimbleOS.Lib.Layout
import NimbleOS.Tty.Putchar
import NimbleOS.Tty.Screen

/-!
# NimbleOS.Tty.Render

Plain text on the screen: what `term_putchar` shows is the end of the text, broken
into rows of 80 characters.  `Shows` relates the terminal to the rows of a text that
may be longer than the screen; a full row stays open until one more character
arrives.
-/

namespace NimbleOS

/-- The characters that `term_putchar` takes for line breaks. -/
def isBreak (c : BitVec 8) : Bool := c = chr '\n' || c = chr '\r'

/-- The rows of a text. -/
def textRows (text : List (BitVec 8)) : List (List (BitVec 8)) :=
  Layout.rows isBreak vgaWidth text

/-- The character at column `x` of screen row `y`, if the last 25 rows are shown and
padded with spaces. -/
def shownChar (rows : List (List (BitVec 8))) (x y : Nat) : BitVec 8 :=
  (rows.getD (rows.length - vgaHeight + y) []).getD x (chr ' ')

/-- The terminal shows the rows, and the cursor stands behind the last of them. -/
structure Shows (t : Term) (rows : List (List (BitVec 8))) : Prop where
  row : t.row = min (rows.length - 1) (vgaHeight - 1)
  column : t.column = (rows.getLastD []).length
  chars : ∀ x < vgaWidth, ∀ y < vgaHeight, cellChar (t.cell x y) = shownChar rows x y

/-! ## a new row -/

/-- The cursor moves to the next row, and the screen scrolls if there is none. -/
def termNewRow (t : Term) : Term :=
  let t := { t with row := u32 (t.row + 1), column := 0 }
  if t.row ≥ vgaHeight then termScrolldown t else t

theorem getD_snoc (rows : List (List (BitVec 8))) (i : Nat) :
    (rows ++ [[]]).getD i [] = rows.getD i [] := by
  simp only [List.getD_eq_getElem?_getD]
  by_cases hi : i < rows.length
  · rw [List.getElem?_append_left hi]
  · rw [List.getElem?_append_right (Nat.le_of_not_lt hi),
      List.getElem?_eq_none (Nat.le_of_not_lt hi)]
    cases i - rows.length <;> simp

theorem Shows.newRow (h : Shows t rows) (hne : rows ≠ []) : Shows (termNewRow t) (rows ++ [[]]) := by
  have hpos : 0 < rows.length := List.length_pos_iff.mpr hne
  have hrow := h.row
  have hlen : (rows ++ [[]]).length = rows.length + 1 := by simp
  have hcol : ((rows ++ [[]]).getLastD []).length = 0 := by simp
  have hstep : u32 (t.row + 1) = t.row + 1 := by
    unfold u32 vgaHeight at *
    omega
  unfold termNewRow
  simp only [hstep]
  by_cases hfull : t.row + 1 ≥ vgaHeight
  · -- the screen scrolls
    rw [if_pos hfull]
    obtain ⟨hrow', hcol', -, hcells⟩ :=
      termScrolldown_spec { t with row := t.row + 1, column := 0 }
    have hrows : vgaHeight ≤ rows.length := by unfold vgaHeight at *; omega
    refine ⟨?_, by rw [hcol', hcol], fun x hx y hy => ?_⟩
    · have hback : u32Sub (t.row + 1) 1 = t.row := by
        unfold u32Sub vgaHeight at *
        omega
      rw [hrow', hlen]
      change u32Sub (t.row + 1) 1 = _
      rw [hback]
      unfold vgaHeight at *
      omega
    · rw [hcells x hx y hy, Term.scrolled, shownChar, hlen, getD_snoc]
      by_cases hlast : y < vgaHeight - 1
      · have hindex : rows.length + 1 - vgaHeight + y = rows.length - vgaHeight + (y + 1) := by
          omega
        rw [if_pos hlast, hindex]
        exact h.chars x hx (y + 1) (by omega)
      · rw [if_neg hlast, cellChar_termMakeEntry, List.getD_eq_default (l := rows) _ (by omega)]
        rfl
  · rw [if_neg hfull]
    have hrows : rows.length + 1 ≤ vgaHeight := by unfold vgaHeight at *; omega
    refine ⟨?_, hcol.symm, fun x hx y hy => ?_⟩
    · rw [hlen]
      change t.row + 1 = _
      omega
    · have hindex : rows.length + 1 - vgaHeight + y = rows.length - vgaHeight + y := by omega
      rw [shownChar, hlen, getD_snoc, hindex]
      exact h.chars x hx y hy

/-! ## a character in the last row -/

theorem Shows.putNext (h : Shows t (pre ++ [last])) (hroom : last.length < vgaWidth)
    (c : BitVec 8) : Shows (termPutNext t c) (pre ++ [last ++ [c]]) := by
  have hrow := h.row
  have hcol := h.column
  rw [List.getLastD_concat] at hcol
  rw [List.length_append, List.length_singleton] at hrow
  have hcells := fun x (hx : x < vgaWidth) y (hy : y < vgaHeight) =>
    t.cell_termPutcharAt c t.column t.row hx hy
  have hrow' := (sameState_termPutcharAt t c t.column t.row).row
  refine ⟨?_, ?_, fun x hx y hy => ?_⟩
  · change (termPutcharAt t c t.column t.row).row = _
    rw [hrow', hrow]
    simp
  · change u32 (t.column + 1) = _
    rw [hcol, List.getLastD_concat, List.length_append, List.length_singleton, u32_of_lt]
    unfold vgaWidth at hroom
    omega
  · change cellChar ((termPutcharAt t c t.column t.row).cell x y) = _
    have hold := h.chars x hx y hy
    rw [hcells x hx y hy]
    rw [shownChar, List.length_append, List.length_singleton] at hold ⊢
    by_cases hpos : y = t.row
    · -- the row of the cursor is the last one
      have hindex : pre.length + 1 - vgaHeight + y = pre.length := by omega
      rw [hindex, List.getD_append_right _ _ _ _ (Nat.le_refl _), Nat.sub_self,
        List.getD_cons_zero] at hold ⊢
      by_cases hx' : x = t.column
      · rw [if_pos ⟨hx', hpos⟩, cellChar_termMakeEntry, hx', hcol,
          List.getD_append_right _ _ _ _ (Nat.le_refl _), Nat.sub_self, List.getD_cons_zero]
      · rw [if_neg fun hc => hx' hc.1, hold]
        by_cases hlt : x < last.length
        · rw [List.getD_append _ _ _ _ hlt]
        · rw [List.getD_eq_default _ _ (by omega), List.getD_eq_default]
          rw [List.length_append, List.length_singleton]
          omega
    · rw [if_neg fun hc => hpos hc.2, hold]
      by_cases hlt : pre.length + 1 - vgaHeight + y < pre.length
      · rw [List.getD_append _ _ _ _ hlt, List.getD_append _ _ _ _ hlt]
      · rw [List.getD_eq_default (l := pre ++ [last]), List.getD_eq_default (l := pre ++ [last ++ [c]])]
        · rw [List.length_append, List.length_singleton]
          omega
        · rw [List.length_append, List.length_singleton]
          omega

/-! ## term_putchar -/

/-- A line break. -/
theorem termPutchar_of_break {s : Tty} (hs : s.ctx.state = .normal) (hc : isBreak c = true) :
    termPutchar s c = .ok { s with term := termNewRow s.term } := by
  have hbreak : c = chr '\n' ∨ c = chr '\r' := by simpa [isBreak] using hc
  have hesc : c ≠ chr '\x1B' := by cases hbreak <;> subst c <;> decide
  have hprint : isprint c.toInt = false := by cases hbreak <;> subst c <;> decide
  have hadvance : termAdvance s.term c = termNewRow s.term := by
    unfold termAdvance termNewRow
    simp only [if_pos hbreak]
    rw [if_neg (show ¬ 0 ≥ vgaWidth by decide)]
  rw [termPutchar_of_interpret (ansiInterpretChar_of_normal hs hesc _), hadvance, hprint]
  rfl

/-- A printable character, in a new row if the current one is full. -/
theorem termPutchar_of_print {s : Tty} (hs : s.ctx.state = .normal) (hc : isprint c.toInt = true)
    (hrow : s.term.row < vgaHeight) :
    termPutchar s c = .ok { s with
      term := termPutNext (if s.term.column ≥ vgaWidth then termNewRow s.term else s.term) c } := by
  have hbreak : ¬ (c = chr '\n' ∨ c = chr '\r') :=
    not_or.mpr ⟨ne_of_class hc (by decide), ne_of_class hc (by decide)⟩
  have htab : c ≠ chr '\t' := ne_of_class hc (by decide)
  have hescape : c ≠ chr '\x1B' := ne_of_class hc (by decide)
  have hadvance : termAdvance s.term c =
      if s.term.column ≥ vgaWidth then termNewRow s.term else s.term := by
    unfold termAdvance termNewRow
    simp only [if_neg hbreak, if_neg htab]
    by_cases hfull : s.term.column ≥ vgaWidth
    · simp only [if_pos hfull]
    · simp only [if_neg hfull]
      rw [if_neg (Nat.not_le.mpr hrow)]
  rw [termPutchar_of_interpret (ansiInterpretChar_of_normal hs hescape _), hadvance, hc]
  rfl

theorem Shows.row_lt (h : Shows t rows) : t.row < vgaHeight := by
  rw [h.row]
  unfold vgaHeight
  omega

/-- **Step lemma**: one more character of text. -/
theorem termPutchar_shows {s : Tty} (hs : s.ctx.state = .normal)
    (h : Shows s.term (textRows text)) (hc : isprint c.toInt = true ∨ isBreak c = true) :
    ∃ t, termPutchar s c = .ok { s with term := t } ∧ Shows t (textRows (text ++ [c])) := by
  obtain ⟨pre, last, hrows, hle, hsnoc⟩ := Layout.rows_snoc isBreak vgaWidth (by decide) text c
  unfold textRows at *
  rw [hrows] at h
  have hcol := h.column
  rw [List.getLastD_concat] at hcol
  have hnew := h.newRow (by simp)
  rw [hsnoc]
  by_cases hbreak : isBreak c = true
  · refine ⟨_, termPutchar_of_break hs hbreak, ?_⟩
    rw [if_pos hbreak]
    rwa [List.append_assoc] at hnew
  · have hprint : isprint c.toInt = true := hc.resolve_right hbreak
    refine ⟨_, termPutchar_of_print hs hprint h.row_lt, ?_⟩
    rw [if_neg hbreak]
    by_cases hroom : last.length < vgaWidth
    · rw [if_pos hroom, if_neg (by omega)]
      exact h.putNext hroom c
    · -- the wrap was deferred until now
      rw [if_neg hroom, if_pos (by omega)]
      have hput := hnew.putNext (by decide) c
      rwa [List.append_assoc] at hput

/-- **Run lemma**: text behind text. -/
theorem termWrite_shows {s : Tty} (hs : s.ctx.state = .normal)
    (h : Shows s.term (textRows text))
    (hc : ∀ c ∈ more, isprint c.toInt = true ∨ isBreak c = true) :
    ∃ t, termWrite s more = .ok { s with term := t } ∧ Shows t (textRows (text ++ more)) := by
  induction more generalizing s text with
  | nil => exact ⟨s.term, rfl, by rwa [List.append_nil]⟩
  | cons c more ih =>
      obtain ⟨hfirst, hmore⟩ := List.forall_mem_cons.mp hc
      obtain ⟨t, hput, hshows⟩ := termPutchar_shows hs h hfirst
      obtain ⟨t', hwrite, hshows'⟩ := ih (s := { s with term := t }) hs hshows hmore
      refine ⟨t', ?_, by rwa [List.append_assoc] at hshows'⟩
      rw [termWrite, List.foldlM_cons, hput]
      exact hwrite

/-- The cleared screen shows the empty text. -/
theorem termInit_shows (t : Term) : Shows (termInit t) (textRows []) := by
  obtain ⟨hrow, hcol, hcells⟩ := termInit_spec t
  have hempty : Layout.chunks vgaWidth ([] : List (BitVec 8)) = [[]] :=
    Layout.chunks_of_le vgaWidth (Nat.zero_le _)
  have hrows : textRows [] = [[]] := by simp [textRows, Layout.rows, Layout.lines, hempty]
  rw [hrows]
  refine ⟨hrow, hcol, fun x hx y hy => ?_⟩
  rw [hcells x hx y hy, cellChar_termMakeEntry, shownChar]
  cases y <;> simp [vgaHeight]

/-- **Plain text is rendered in rows of 80.**  After `term_init`, with the
interpreter idle, any text of printable characters and line breaks is written, and
the screen and the cursor are those of the reference rendering. -/
theorem term_renders_text (s : Tty) (hs : s.ctx.state = .normal) (text : List (BitVec 8))
    (hc : ∀ c ∈ text, isprint c.toInt = true ∨ isBreak c = true) :
    ∃ t, termWrite { s with term := termInit s.term } text = .ok { s with term := t } ∧
      t.row = min ((textRows text).length - 1) 24 ∧
      t.column = ((textRows text).getLastD []).length ∧
      ∀ x < 80, ∀ y < 25, cellChar (t.cell x y) = shownChar (textRows text) x y := by
  obtain ⟨t, hwrite, hshows⟩ := termWrite_shows (s := { s with term := termInit s.term }) hs
    (termInit_shows s.term) hc
  exact ⟨t, hwrite, hshows.row, hshows.column, hshows.chars⟩

theorem term_renders_text_two_lines :
    ∃ t, termWrite { Tty.start with term := termInit Tty.start.term }
        [chr 'o', chr 'k', chr '\n', chr '!'] = .ok { Tty.start with term := t } ∧
      t.row = 1 ∧ t.column = 1 ∧ cellChar (t.cell 0 1) = chr '!' := by
  obtain ⟨t, hwrite, hrow, hcol, hchars⟩ := term_renders_text Tty.start rfl
    [chr 'o', chr 'k', chr '\n', chr '!'] (by decide)
  have hrows : textRows [chr 'o', chr 'k', chr '\n', chr '!'] = [[chr 'o', chr 'k'], [chr '!']] := by
    have hline : Layout.lines isBreak [chr 'o', chr 'k', chr '\n', chr '!'] =
        [[chr 'o', chr 'k'], [chr '!']] := by decide
    rw [textRows, Layout.rows, hline]
    simp [Layout.chunks_of_le, vgaWidth]
  have hcell := hchars 0 (by decide) 1 (by decide)
  rw [hrows] at hrow hcol hcell
  exact ⟨t, hwrite, hrow, hcol, hcell⟩

end NimbleOS
