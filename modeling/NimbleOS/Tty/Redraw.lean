import NimbleOS.Libc.Printf
import NimbleOS.Tty.Sequence

/-!
# NimbleOS.Tty.Redraw

The process number in the corner of the screen, which `proc_switch_process`
redraws at each switch: the cursor is saved, the number printed from row 24,
column 78 on, and the cursor restored.  A number of one character keeps to its two
cells; a longer one reaches the end of the last row, and the screen scrolls.
-/

namespace NimbleOS

/-- `printf` in the kernel, whose `putchar` is `term_putchar`. -/
def kernelPrintf (s : Tty) (format : List (BitVec 8)) (args : List (BitVec 32)) :
    Except Halt Tty := do
  let printed ← printfText format args
  termWrite s printed.chars

/-- The four calls of `printf` in `proc_switch_process`. -/
def procRedraw (s : Tty) (pid : BitVec 32) : Except Halt Tty := do
  let s ← kernelPrintf s ("\x1B[s\x1B[24;78H".toList.map chr) []
  let s ← kernelPrintf s ("\x1B[K".toList.map chr) []
  let s ← kernelPrintf s ("%d".toList.map chr) [pid]
  kernelPrintf s ("\x1B[u".toList.map chr) []

/-! ## text in a row -/

/-- The cell that shows a character. -/
def Term.cellOf (t : Term) (c : BitVec 8) : BitVec 16 := termMakeEntry c t.color

/-- `text` was put in the cursor's row, from the cursor on. -/
structure PutText (t t' : Term) (text : List (BitVec 8)) : Prop where
  row : t'.row = t.row
  column : t'.column = t.column + text.length
  color : t'.color = t.color
  cells : ∀ x < vgaWidth, ∀ y < vgaHeight, t'.cell x y =
    if y = t.row ∧ t.column ≤ x ∧ x < t.column + text.length then
      t.cellOf (text.getD (x - t.column) (chr ' '))
    else t.cell x y

theorem PutText.nil (t : Term) : PutText t t [] :=
  { row := rfl
    column := rfl
    color := rfl
    cells := fun x hx y hy => by rw [List.length_nil, if_neg (by omega)] }

/-- One character more in front. -/
theorem PutText.cons {t t' : Term} (hcol : t.column < vgaWidth)
    (h : PutText (termPutNext t c) t' text) : PutText t t' (c :: text) := by
  have hsame := sameState_termPutcharAt t c t.column t.row
  have hrow : (termPutNext t c).row = t.row := hsame.row
  have hcolor : (termPutNext t c).color = t.color := hsame.color
  have hcolumn : (termPutNext t c).column = t.column + 1 := by
    show u32 (t.column + 1) = _
    rw [u32_of_lt]
    unfold vgaWidth at hcol
    omega
  refine
    { row := h.row.trans hrow
      column := by rw [h.column, hcolumn, List.length_cons]; omega
      color := h.color.trans hcolor
      cells := fun x hx y hy => ?_ }
  have hput : (termPutNext t c).cell x y =
      if x = t.column ∧ y = t.row then termMakeEntry c t.color else t.cell x y :=
    t.cell_termPutcharAt c t.column t.row hx hy
  rw [h.cells x hx y hy, hput, hrow, hcolumn, List.length_cons, Term.cellOf, hcolor]
  by_cases hy' : y = t.row
  · by_cases hlater : t.column + 1 ≤ x ∧ x < t.column + 1 + text.length
    · have hindex : x - t.column = (x - (t.column + 1)) + 1 := by omega
      rw [if_pos ⟨hy', hlater⟩, if_pos ⟨hy', by omega, by omega⟩, hindex, List.getD_cons_succ]
      rfl
    · rw [if_neg fun hc => hlater hc.2]
      by_cases hx' : x = t.column
      · rw [if_pos ⟨hx', hy'⟩, if_pos ⟨hy', by omega, by omega⟩, hx', Nat.sub_self,
          List.getD_cons_zero]
        rfl
      · rw [if_neg fun hc => hx' hc.1, if_neg (by omega)]
  · rw [if_neg fun hc => hy' hc.1, if_neg fun hc => hy' hc.2, if_neg fun hc => hy' hc.1]

/-- Printable text that fits in the row of the cursor. -/
theorem termWrite_row {s : Tty} (hs : s.ctx.state = .normal) (hrow : s.term.row < vgaHeight)
    (hfit : s.term.column + text.length ≤ vgaWidth) (hc : ∀ c ∈ text, isprint c.toInt = true) :
    ∃ t, termWrite s text = .ok { s with term := t } ∧ PutText s.term t text := by
  induction text generalizing s with
  | nil => exact ⟨s.term, rfl, .nil _⟩
  | cons c text ih =>
      obtain ⟨hprint, htext⟩ := List.forall_mem_cons.mp hc
      rw [List.length_cons] at hfit
      have hcol : s.term.column < vgaWidth := by omega
      have hput := termPutchar_of_print hs hprint hrow
      rw [if_neg (Nat.not_le.mpr hcol)] at hput
      have hrow' : (termPutNext s.term c).row = s.term.row :=
        (sameState_termPutcharAt s.term c _ _).row
      have hcolumn : (termPutNext s.term c).column ≤ s.term.column + 1 := Nat.mod_le _ _
      obtain ⟨t, hwrite, hput'⟩ :=
        ih (s := { s with term := termPutNext s.term c }) hs (Nat.lt_of_le_of_lt (Nat.le_of_eq hrow') hrow)
          (by dsimp only; omega) htext
      exact ⟨t, by rw [termWrite_cons hput, hwrite], hput'.cons hcol⟩

/-- Behind the last column of the last row: the screen scrolls first. -/
theorem termNewRow_spec {t : Term} (hrow : t.row = vgaHeight - 1) :
    (termNewRow t).row = vgaHeight - 1 ∧ (termNewRow t).column = 0 ∧
      (termNewRow t).color = t.color ∧
      ∀ x < vgaWidth, ∀ y < vgaHeight, (termNewRow t).cell x y = t.scrolled x y := by
  have hstep : u32 (t.row + 1) = vgaHeight := by rw [hrow]; rfl
  obtain ⟨hrow', hcol, hcolor, hcells⟩ :=
    termScrolldown_spec { t with row := vgaHeight, column := 0 }
  unfold termNewRow
  simp only [hstep]
  rw [if_pos (show vgaHeight ≥ vgaHeight from Nat.le_refl _)]
  have hback : u32Sub vgaHeight 1 = vgaHeight - 1 := by decide
  generalize termScrolldown { t with row := vgaHeight, column := 0 } = u at *
  refine ⟨hrow'.trans hback, hcol, hcolor, fun x hx y hy => ?_⟩
  rw [hcells x hx y hy]
  rfl

/-! ## the four sequences -/

theorem kernelPrintf_plain (h : ∀ c ∈ text, c ≠ 0 ∧ c ≠ chr '%') (s : Tty)
    (args : List (BitVec 32)) : kernelPrintf s text args = termWrite s text := by
  rw [kernelPrintf, printfText_plain args h]
  rfl

theorem kernelPrintf_number (s : Tty) (n : BitVec 32) (hpre : ∀ c ∈ pre, c ≠ 0 ∧ c ≠ chr '%')
    (hpost : ∀ c ∈ post, c ≠ 0 ∧ c ≠ chr '%') :
    kernelPrintf s (pre ++ [chr '%', chr 'd'] ++ post) [n] =
      termWrite s (pre ++ itoa n.toInt 10 ++ post) := by
  rw [kernelPrintf, printfText_number n hpre hpost]
  rfl

theorem kernelPrintf_int (s : Tty) (n : BitVec 32) :
    kernelPrintf s [chr '%', chr 'd'] [n] = termWrite s (itoa n.toInt 10) := by
  rw [kernelPrintf, printfText_int]
  rfl

theorem isParam_nil : IsParam [] where
  digits c hc := by cases hc
  room := by decide

/-- A command without parameters. -/
theorem termWrite_command {s : Tty} (hidle : s.ctx.Idle) (hs : s.term.OnScreen)
    (hc : isalpha c.toInt = true) :
    ∃ ctx', ctx'.savedRow = s.ctx.savedRow ∧ ctx'.savedCol = s.ctx.savedCol ∧
      termWrite s [chr '\x1B', chr '[', c] =
        .ok
          { ctx := { (ansiCommand ctx' s.term c).1 with
              currentArg := 0, currentIndex := 0, state := .normal }
            term := (ansiCommand ctx' s.term c).2 } := by
  obtain ⟨ctx', -, -, hrow, hcol, hwrite⟩ :=
    termWrite_sequence hidle hs (show ∀ ds ∈ [] ++ [[]], IsParam ds from fun ds hds => by
      rw [List.mem_singleton.mp hds]
      exact isParam_nil) (by decide) hc
  exact ⟨ctx', hrow, hcol, hwrite⟩

/-- `ESC [ s`. -/
theorem termWrite_save {s : Tty} (hidle : s.ctx.Idle) (hs : s.term.OnScreen) :
    ∃ ctx', termWrite s [chr '\x1B', chr '[', chr 's'] = .ok { s with ctx := ctx' } ∧
      ctx'.Idle ∧ ctx'.savedRow = s.term.row ∧ ctx'.savedCol = s.term.column := by
  obtain ⟨ctx', -, -, hwrite⟩ := termWrite_command (c := chr 's') hidle hs (by decide)
  exact ⟨_, hwrite, ⟨rfl, rfl, rfl⟩, rfl, rfl⟩

/-- `ESC [ u`. -/
theorem termWrite_restore {s : Tty} (hidle : s.ctx.Idle) (hs : s.term.OnScreen) :
    ∃ ctx', termWrite s [chr '\x1B', chr '[', chr 'u'] =
        .ok
          { ctx := ctx'
            term := { s.term with row := s.ctx.savedRow, column := s.ctx.savedCol } } ∧
      ctx'.Idle ∧ ctx'.savedRow = s.ctx.savedRow ∧ ctx'.savedCol = s.ctx.savedCol := by
  obtain ⟨ctx', hrow, hcol, hwrite⟩ := termWrite_command (c := chr 'u') hidle hs (by decide)
  have hterm : (ansiCommand ctx' s.term (chr 'u')).2 =
      { s.term with row := s.ctx.savedRow, column := s.ctx.savedCol } := by
    rw [← hrow, ← hcol]
    rfl
  rw [hterm] at hwrite
  exact ⟨_, hwrite, ⟨rfl, rfl, rfl⟩, hrow, hcol⟩

/-- `ESC [ K`. -/
theorem termWrite_erase {s : Tty} (hidle : s.ctx.Idle) (hs : s.term.OnScreen) :
    ∃ ctx', termWrite s [chr '\x1B', chr '[', chr 'K'] =
        .ok
          { ctx := ctx'
            term := termEraseFrom s.term s.term.column (vgaWidth - s.term.column) } ∧
      ctx'.Idle ∧ ctx'.savedRow = s.ctx.savedRow ∧ ctx'.savedCol = s.ctx.savedCol := by
  obtain ⟨ctx', hrow, hcol, hwrite⟩ := termWrite_command (c := chr 'K') hidle hs (by decide)
  exact ⟨_, hwrite, ⟨rfl, rfl, rfl⟩, hrow, hcol⟩

/-- `ESC [ 24 ; 78 H`. -/
theorem termWrite_corner {s : Tty} (hidle : s.ctx.Idle) (hs : s.term.OnScreen) :
    ∃ ctx', termWrite s
          (escapeSequence ([[chr '2', chr '4']] ++ [[chr '7', chr '8']]) (chr 'H')) =
        .ok { ctx := ctx', term := { s.term with row := 24, column := 78 } } ∧
      ctx'.Idle ∧ ctx'.savedRow = s.ctx.savedRow ∧ ctx'.savedCol = s.ctx.savedCol := by
  have hp : ∀ ds ∈ [[chr '2', chr '4']] ++ [[chr '7', chr '8']], IsParam ds := by
    have hall : ∀ ds ∈ [[chr '2', chr '4']] ++ [[chr '7', chr '8']],
        (∀ c ∈ ds, isdigit c.toInt = true) ∧ ds.length < ansiBufferSize := by decide
    exact fun ds hds => ⟨(hall ds hds).1, (hall ds hds).2⟩
  obtain ⟨ctx', hargs, -, hrow, hcol, hwrite⟩ :=
    termWrite_sequence (c := chr 'H') hidle hs hp (by decide) (by decide)
  have hvalues : ([[chr '2', chr '4']] ++ [[chr '7', chr '8']]).map paramValue = [24, 78] := by
    decide
  rw [hvalues] at hargs
  have hterm : (ansiCommand ctx' s.term (chr 'H')).2 =
      { s.term with row := 24, column := 78 } := by
    show termSetColumn (termSetRow s.term (ctx'.args.toList.getD 0 0))
      (ctx'.args.toList.getD 1 0) = _
    rw [hargs]
    rfl
  rw [hterm] at hwrite
  exact ⟨_, hwrite, ⟨rfl, rfl, rfl⟩, hrow, hcol⟩

/-! ## the redraw -/

/-- The cursor has been saved and moved to the corner, and the two cells there are
blank. -/
structure Corner (s s' : Tty) : Prop where
  idle : s'.ctx.Idle
  savedRow : s'.ctx.savedRow = s.term.row
  savedCol : s'.ctx.savedCol = s.term.column
  row : s'.term.row = 24
  column : s'.term.column = 78
  color : s'.term.color = s.term.color
  cells : ∀ x < vgaWidth, ∀ y < vgaHeight, s'.term.cell x y =
    if y = 24 ∧ 78 ≤ x then s.term.cellOf (chr ' ') else s.term.cell x y

theorem redraw_corner {s : Tty} (hidle : s.ctx.Idle) (hs : s.term.OnScreen) :
    ∃ s₁ s₂, kernelPrintf s ("\x1B[s\x1B[24;78H".toList.map chr) [] = .ok s₁ ∧
      kernelPrintf s₁ ("\x1B[K".toList.map chr) [] = .ok s₂ ∧ Corner s s₂ := by
  have hfirst : "\x1B[s\x1B[24;78H".toList.map chr =
      [chr '\x1B', chr '[', chr 's'] ++
        escapeSequence ([[chr '2', chr '4']] ++ [[chr '7', chr '8']]) (chr 'H') := rfl
  have hsecond : "\x1B[K".toList.map chr = [chr '\x1B', chr '[', chr 'K'] := rfl
  obtain ⟨ctx₁, hsave, hidle₁, hrow₁, hcol₁⟩ := termWrite_save hidle hs
  obtain ⟨ctx₂, hmove, hidle₂, hrow₂, hcol₂⟩ :=
    termWrite_corner (s := { s with ctx := ctx₁ }) hidle₁ hs
  have hs₂ : ({ s.term with row := 24, column := 78 } : Term).OnScreen :=
    ⟨show 24 < vgaHeight by decide, show 78 < vgaWidth by decide⟩
  obtain ⟨ctx₃, herase, hidle₃, hrow₃, hcol₃⟩ :=
    termWrite_erase (s := { ctx := ctx₂, term := { s.term with row := 24, column := 78 } })
      hidle₂ hs₂
  have hsame := sameState_termEraseFrom { s.term with row := 24, column := 78 } 78 (vgaWidth - 78)
  refine ⟨{ ctx := ctx₂, term := { s.term with row := 24, column := 78 } },
    { ctx := ctx₃
      term := termEraseFrom { s.term with row := 24, column := 78 } 78 (vgaWidth - 78) }, ?_, ?_,
    { idle := hidle₃
      savedRow := hrow₃.trans (hrow₂.trans hrow₁)
      savedCol := hcol₃.trans (hcol₂.trans hcol₁)
      row := hsame.row
      column := hsame.column
      color := hsame.color
      cells := fun x hx y hy => ?_ }⟩
  · rw [hfirst, kernelPrintf_plain (by decide), termWrite_append hsave, hmove]
  · rw [hsecond, kernelPrintf_plain (by decide), herase]
  · show (termEraseFrom { s.term with row := 24, column := 78 } 78 (vgaWidth - 78)).cell x y = _
    rw [Term.cell_termEraseFrom _ _ _ hx hy]
    by_cases hy' : y = 24
    · by_cases hx' : 78 ≤ x
      · rw [if_pos ⟨⟨hx', by unfold vgaWidth at *; omega⟩, hy'⟩, if_pos ⟨hy', hx'⟩]
        rfl
      · rw [if_neg fun hc => hx' hc.1.1, if_neg fun hc => hx' hc.2]
        rfl
    · rw [if_neg fun hc => hy' hc.2, if_neg fun hc => hy' hc.1]
      rfl

/-- What follows the corner. -/
theorem procRedraw_of_corner {s : Tty} (hidle : s.ctx.Idle) (hs : s.term.OnScreen)
    (pid : BitVec 32) :
    ∃ s₂, Corner s s₂ ∧
      procRedraw s pid = termWrite s₂ (itoa pid.toInt 10 ++ [chr '\x1B', chr '[', chr 'u']) := by
  have hint : "%d".toList.map chr = [chr '%', chr 'd'] := rfl
  have hlast : "\x1B[u".toList.map chr = [chr '\x1B', chr '[', chr 'u'] := rfl
  have hplain : ∀ s, kernelPrintf s [chr '\x1B', chr '[', chr 'u'] [] = _ := fun s =>
    kernelPrintf_plain (by decide) s []
  obtain ⟨s₁, s₂, h₁, h₂, hcorner⟩ := redraw_corner hidle hs
  refine ⟨s₂, hcorner, ?_⟩
  rw [procRedraw, h₁, hint, hlast, termWrite, List.foldlM_append]
  simp only [bind, Except.bind, h₂, kernelPrintf_int, hplain]
  rfl

/-- **A number of one character** changes two cells of the screen, and nothing else. -/
theorem procRedraw_of_short {s : Tty} (hidle : s.ctx.Idle) (hs : s.term.OnScreen)
    (htext : itoa pid.toInt 10 = [a]) :
    ∃ s', procRedraw s pid = .ok s' ∧ s'.ctx.Idle ∧
      s'.ctx.savedRow = s.term.row ∧ s'.ctx.savedCol = s.term.column ∧
      s'.term.row = s.term.row ∧ s'.term.column = s.term.column ∧
      s'.term.color = s.term.color ∧
      ∀ x < vgaWidth, ∀ y < vgaHeight, s'.term.cell x y =
        if y = 24 ∧ 78 ≤ x then s.term.cellOf (if x = 78 then a else chr ' ')
        else s.term.cell x y := by
  obtain ⟨s₂, hcorner, hredraw⟩ := procRedraw_of_corner hidle hs pid
  have hprint : ∀ c ∈ [a], isprint c.toInt = true := by
    rw [← htext]
    exact fun c => isprint_of_mem_itoa
  have hrow₂ : s₂.term.row < vgaHeight := by rw [hcorner.row]; decide
  have hfit : s₂.term.column + [a].length ≤ vgaWidth := by
    rw [hcorner.column, List.length_singleton]
    decide
  obtain ⟨t, hwrite, hput⟩ := termWrite_row hcorner.idle.state hrow₂ hfit hprint
  have ht : t.OnScreen := by
    refine ⟨by rw [hput.row]; exact hrow₂, ?_⟩
    rw [hput.column, hcorner.column, List.length_singleton]
    decide
  obtain ⟨ctx', hrestore, hidle', hsr, hsc⟩ :=
    termWrite_restore (s := { s₂ with term := t }) hcorner.idle ht
  rw [htext, termWrite_append hwrite, hrestore] at hredraw
  refine ⟨_, hredraw, hidle', hsr.trans hcorner.savedRow, hsc.trans hcorner.savedCol,
    hcorner.savedRow, hcorner.savedCol, hput.color.trans hcorner.color, fun x hx y hy => ?_⟩
  refine (hput.cells x hx y hy).trans ?_
  rw [hcorner.cells x hx y hy, hcorner.row, hcorner.column, Term.cellOf, hcorner.color,
    List.length_singleton]
  by_cases hcell : y = 24 ∧ 78 ≤ x
  · by_cases hx' : x = 78
    · rw [if_pos ⟨hcell.1, hcell.2, by omega⟩, if_pos hcell, if_pos hx', hx', Nat.sub_self,
        List.getD_cons_zero]
      rfl
    · rw [if_neg (by omega), if_pos hcell, if_pos hcell, if_neg hx']
  · rw [if_neg fun hc => hcell ⟨hc.1, hc.2.1⟩, if_neg hcell, if_neg hcell]

/-- Behind the last column the next character finds the same state as in a new row. -/
theorem termWrite_newRow {s : Tty} (hfull : vgaWidth ≤ s.term.column)
    (hnew : (termNewRow s.term).OnScreen) (hc : IsQuiet c) (more : List (BitVec 8)) :
    termWrite s (c :: more) = termWrite { s with term := termNewRow s.term } (c :: more) := by
  have hput : termPutchar s c = termPutchar { s with term := termNewRow s.term } c := by
    rw [termPutchar, termPutchar, termAdvance_of_full hfull hc]
    simp only [termAdvance_of_onScreen hnew hc]
  rw [termWrite, termWrite, List.foldlM_cons, List.foldlM_cons, hput]

theorem isQuiet_of_isprint (h : isprint c.toInt = true) : IsQuiet c :=
  isQuiet_of_class h (by decide) (by decide) (by decide)

/-- Behind the last column of the last row, the rest of the text goes to a new last
row; so does the restoring of the cursor. -/
theorem redraw_overflow {s : Tty} (hidle : s.ctx.Idle) (hrow : s.term.row = vgaHeight - 1)
    (hcol : s.term.column = vgaWidth) (hfit : rest.length < vgaWidth)
    (hc : ∀ c ∈ rest, isprint c.toInt = true) :
    ∃ s', termWrite s (rest ++ [chr '\x1B', chr '[', chr 'u']) = .ok s' ∧
      s'.ctx.Idle ∧ s'.ctx.savedRow = s.ctx.savedRow ∧ s'.ctx.savedCol = s.ctx.savedCol ∧
      s'.term.row = s.ctx.savedRow ∧ s'.term.column = s.ctx.savedCol ∧
      s'.term.color = s.term.color ∧
      ∀ x < vgaWidth, ∀ y < vgaHeight, s'.term.cell x y =
        if y < vgaHeight - 1 then s.term.cell x (y + 1)
        else s.term.cellOf (rest.getD x (chr ' ')) := by
  obtain ⟨hrow₁, hcol₁, hcolor₁, hcells₁⟩ := termNewRow_spec hrow
  have hfull : vgaWidth ≤ s.term.column := Nat.le_of_eq hcol.symm
  have hnew : (termNewRow s.term).OnScreen := by
    refine ⟨by rw [hrow₁]; decide, by rw [hcol₁]; decide⟩
  have hshift : termWrite s (rest ++ [chr '\x1B', chr '[', chr 'u']) =
      termWrite { s with term := termNewRow s.term } (rest ++ [chr '\x1B', chr '[', chr 'u']) := by
    cases rest with
    | nil => exact termWrite_newRow hfull hnew ⟨by decide, by decide⟩ _
    | cons c rest => exact termWrite_newRow hfull hnew (isQuiet_of_isprint (hc c (by simp))) _
  obtain ⟨t, hwrite, hput⟩ :=
    termWrite_row (s := { s with term := termNewRow s.term }) hidle.state hnew.row
      (by dsimp only; omega) hc
  have ht : t.OnScreen := by
    refine ⟨by rw [hput.row]; exact hnew.row, ?_⟩
    rw [hput.column]
    dsimp only
    omega
  obtain ⟨ctx', hrestore, hidle', hsr, hsc⟩ := termWrite_restore (s := { s with term := t }) hidle ht
  rw [hshift, termWrite_append hwrite, hrestore]
  refine ⟨_, rfl, hidle', hsr, hsc, rfl, rfl, hput.color.trans hcolor₁, fun x hx y hy => ?_⟩
  have hcell : t.cell x y = _ := hput.cells x hx y hy
  refine Eq.trans ?_ (hcell.trans ?_)
  · rfl
  dsimp only
  rw [hcells₁ x hx y hy, hrow₁, hcol₁, Term.cellOf, hcolor₁, Term.scrolled, Term.cellOf]
  by_cases hlast : y < vgaHeight - 1
  · rw [if_neg (by omega), if_pos hlast, if_pos hlast]
  · have hy' : y = vgaHeight - 1 := by omega
    by_cases hx' : x < rest.length
    · rw [if_pos ⟨hy', by omega, by omega⟩, if_neg hlast, Nat.sub_zero]
    · rw [if_neg (by omega), if_neg hlast, if_neg hlast, List.getD_eq_default _ _ (by omega)]

/-- **A longer number**: its first two characters fill the corner, and then the screen
scrolls, with the rest of the number in the new last row. -/
theorem procRedraw_of_long {s : Tty} (hidle : s.ctx.Idle) (hs : s.term.OnScreen)
    (htext : itoa pid.toInt 10 = a :: b :: rest) :
    ∃ s', procRedraw s pid = .ok s' ∧ s'.ctx.Idle ∧
      s'.term.row = s.term.row ∧ s'.term.column = s.term.column ∧
      ∀ x < vgaWidth, ∀ y < vgaHeight, s'.term.cell x y =
        if y < vgaHeight - 1 then
          if y + 1 = 24 ∧ 78 ≤ x then s.term.cellOf (if x = 78 then a else b)
          else s.term.cell x (y + 1)
        else s.term.cellOf (rest.getD x (chr ' ')) := by
  obtain ⟨s₂, hcorner, hredraw⟩ := procRedraw_of_corner hidle hs pid
  have hprint : ∀ c ∈ [a, b] ++ rest, isprint c.toInt = true := by
    intro c hc
    have hmem : c ∈ itoa pid.toInt 10 := htext ▸ hc
    exact isprint_of_mem_itoa hmem
  have hsmall : pid.toInt.natAbs ≤ 2 ^ 31 := by
    have := pid.toInt_lt
    have := pid.le_toInt
    omega
  have hlen := length_itoa_le hsmall
  rw [htext, List.length_cons, List.length_cons] at hlen
  have hrow₂ : s₂.term.row < vgaHeight := by rw [hcorner.row]; decide
  have hfit : s₂.term.column + [a, b].length ≤ vgaWidth := by
    rw [hcorner.column, List.length_cons, List.length_singleton]
    decide
  obtain ⟨t, hwrite, hput⟩ := termWrite_row hcorner.idle.state hrow₂ hfit
    fun c hc => hprint c (List.mem_append_left _ hc)
  have hrow : t.row = vgaHeight - 1 := by rw [hput.row, hcorner.row]; rfl
  have hcol : t.column = vgaWidth := by
    rw [hput.column, hcorner.column, List.length_cons, List.length_singleton]
    rfl
  obtain ⟨s', hover, hidle', -, -, hrow', hcol', hcolor', hcells'⟩ :=
    redraw_overflow (s := { s₂ with term := t }) hcorner.idle hrow hcol
      (by unfold vgaWidth; omega) fun c hc => hprint c (List.mem_append_right _ hc)
  have happend := termWrite_append hwrite (rest ++ [chr '\x1B', chr '[', chr 'u'])
  rw [hover] at happend
  refine ⟨s', ?_, hidle', hrow'.trans hcorner.savedRow, hcol'.trans hcorner.savedCol,
    fun x hx y hy => ?_⟩
  · rw [hredraw, htext, ← happend]
    rfl
  · have hcolor : t.color = s.term.color := hput.color.trans hcorner.color
    rw [hcells' x hx y hy]
    dsimp only
    rw [Term.cellOf, hcolor]
    by_cases hlast : y < vgaHeight - 1
    · rw [if_pos hlast, if_pos hlast, hput.cells x hx (y + 1) (by omega),
        hcorner.cells x hx (y + 1) (by omega), hcorner.row, hcorner.column, Term.cellOf,
        hcorner.color]
      by_cases hcell : y + 1 = 24 ∧ 78 ≤ x
      · rw [if_pos ⟨hcell.1, hcell.2, by unfold vgaWidth at hx; simp; omega⟩, if_pos hcell]
        by_cases hx' : x = 78
        · rw [if_pos hx', hx', Nat.sub_self, List.getD_cons_zero]
          rfl
        · have hindex : x - 78 = 1 := by unfold vgaWidth at hx; omega
          rw [if_neg hx', hindex, List.getD_cons_succ, List.getD_cons_zero]
          rfl
      · rw [if_neg fun hc => hcell ⟨hc.1, hc.2.1⟩, if_neg hcell, if_neg hcell]
    · rw [if_neg hlast, if_neg hlast]
      rfl

/-! ## what the redraw leaves alone -/

/-- Cursor and screen are the same, but for the two cells in the corner. -/
structure Framed (s s' : Tty) : Prop where
  idle : s'.ctx.Idle
  row : s'.term.row = s.term.row
  column : s'.term.column = s.term.column
  cells : ∀ x < vgaWidth, ∀ y < vgaHeight, ¬ (y = 24 ∧ 78 ≤ x) →
    s'.term.cell x y = s.term.cell x y

/-- Scrolling `text` in at the corner does not change the screen: each column already
shows, all over, the character that it gets. -/
structure Wallpaper (t : Term) (text : List (BitVec 8)) : Prop where
  left : ∀ x < 78, ∀ y < vgaHeight, t.cell x y = t.cellOf (text.getD (x + 2) (chr ' '))
  right : ∀ x, 78 ≤ x → x < vgaWidth → ∀ y < vgaHeight - 1,
    t.cell x y = t.cellOf (text.getD (x - 78) (chr ' '))

/-- A column in which every cell is like the one below it. -/
theorem column_const {f : Nat → α} (h : ∀ y < n, f y = f (y + 1)) : ∀ y ≤ n, f y = f n := by
  intro y hy
  induction n with
  | zero => rw [Nat.le_zero.mp hy]
  | succ n ih =>
      by_cases hlast : y = n + 1
      · rw [hlast]
      · rw [ih (fun y hy => h y (by omega)) (by omega), h n (by omega)]

/-- A redraw that scrolls changes the screen, unless there is nothing to see of it. -/
theorem framed_of_long_iff {s : Tty} (hidle : s.ctx.Idle) (hs : s.term.OnScreen)
    (htext : itoa pid.toInt 10 = a :: b :: rest) :
    (∃ s', procRedraw s pid = .ok s' ∧ Framed s s') ↔ Wallpaper s.term (a :: b :: rest) := by
  obtain ⟨s', hok, hidle', hrow, hcol, hcells⟩ := procRedraw_of_long hidle hs htext
  have hcorner : ∀ x, 78 ≤ x → x < vgaWidth →
      (if x = 78 then a else b) = (a :: b :: rest).getD (x - 78) (chr ' ') := by
    intro x hx hx'
    obtain rfl | rfl : x = 78 ∨ x = 79 := by unfold vgaWidth at hx'; omega
    · rfl
    · rfl
  constructor
  · rintro ⟨s'', hok', hframed⟩
    obtain rfl := Except.ok.inj (hok.symm.trans hok')
    constructor
    · intro x hx y hy
      have hx' : x < vgaWidth := by unfold vgaWidth; omega
      have hup : ∀ y < vgaHeight - 1, s.term.cell x y = s.term.cell x (y + 1) := by
        intro y hy
        rw [← hframed.cells x hx' y (by omega) (by omega), hcells x hx' y (by omega), if_pos hy,
          if_neg (by omega)]
      have hlast : s.term.cell x (vgaHeight - 1) = s.term.cellOf (rest.getD x (chr ' ')) := by
        rw [← hframed.cells x hx' _ (by decide) (by omega), hcells x hx' _ (by decide),
          if_neg (Nat.lt_irrefl _)]
      rw [column_const hup y (by omega), hlast]
      rfl
    · intro x hx hx' y hy
      have hup : ∀ y < 23, s.term.cell x y = s.term.cell x (y + 1) := by
        intro y hy
        have hy' : y < vgaHeight - 1 := by unfold vgaHeight; omega
        rw [← hframed.cells x hx' y (by omega) (by omega), hcells x hx' y (by omega), if_pos hy',
          if_neg (by omega)]
      have hlast : s.term.cell x 23 = s.term.cellOf (if x = 78 then a else b) := by
        rw [← hframed.cells x hx' 23 (by decide) (by omega), hcells x hx' 23 (by decide),
          if_pos (by decide), if_pos ⟨rfl, hx⟩]
      rw [column_const hup y (by unfold vgaHeight at hy; omega), hlast, hcorner x hx hx']
  · intro hwall
    refine ⟨s', hok, hidle', hrow, hcol, fun x hx y hy hne => ?_⟩
    rw [hcells x hx y hy]
    by_cases hlast : y < vgaHeight - 1
    · rw [if_pos hlast]
      by_cases hx' : 78 ≤ x
      · by_cases hy' : y + 1 = 24
        · rw [if_pos ⟨hy', hx'⟩, hcorner x hx' hx, hwall.right x hx' hx y hlast]
        · have hy'' : y + 1 < vgaHeight - 1 := by unfold vgaHeight at *; omega
          rw [if_neg fun hc => hy' hc.1, hwall.right x hx' hx y hlast,
            hwall.right x hx' hx (y + 1) hy'']
      · rw [if_neg fun hc => hx' hc.2, hwall.left x (by omega) y hy,
          hwall.left x (by omega) (y + 1) (by omega)]
    · have hx' : x < 78 := by unfold vgaHeight at *; omega
      rw [if_neg hlast, hwall.left x hx' y hy]
      rfl

/-- Only the numbers below 10 have a text of one character. -/
theorem length_itoa_pid (pid : BitVec 32) :
    (itoa pid.toInt 10).length ≤ 1 ↔ pid.toNat < 10 := by
  rw [length_itoa_le_one_iff, BitVec.toInt_eq_toNat_cond]
  split <;> omega

/-- **What the redraw leaves alone**: from any state in which no sequence is open and
the cursor is on the screen, everything but the two cells in the corner is as before
exactly if the number is below 10, or nothing is to be seen of the scrolling. -/
theorem proc_redraw_framed_iff (s : Tty) (hidle : s.ctx.Idle) (hs : s.term.OnScreen)
    (pid : BitVec 32) :
    (∃ s', procRedraw s pid = .ok s' ∧ Framed s s') ↔
      pid.toNat < 10 ∨ Wallpaper s.term (itoa pid.toInt 10) := by
  cases htext : itoa pid.toInt 10 with
  | nil => exact absurd htext (itoa_ne_nil _)
  | cons a more =>
      have hlen := length_itoa_pid pid
      rw [htext, List.length_cons] at hlen
      cases more with
      | nil =>
          obtain ⟨s', hok, hidle', -, -, hrow, hcol, -, hcells⟩ := procRedraw_of_short hidle hs htext
          refine ⟨fun _ => .inl (hlen.mp (Nat.le_refl _)), fun _ => ⟨s', hok, hidle', hrow, hcol,
            fun x hx y hy hne => ?_⟩⟩
          rw [hcells x hx y hy, if_neg hne]
      | cons b rest =>
          rw [framed_of_long_iff hidle hs htext]
          refine ⟨.inr, fun h => h.resolve_left fun hlt => ?_⟩
          have := hlen.mpr hlt
          rw [List.length_cons] at this
          omega

theorem Tty.start_idle : Tty.start.ctx.Idle := ⟨rfl, rfl, rfl⟩

theorem Tty.start_onScreen : Tty.start.term.OnScreen := by
  obtain ⟨hrow, hcol, -⟩ :=
    termInit_spec { row := 0, column := 0, color := 0, buffer := 0, memory := fun _ => 0 }
  exact ⟨by rw [start, hrow]; decide, by rw [start, hcol]; decide⟩

theorem proc_redraw_framed_iff_seven :
    ∃ s', procRedraw .start 7 = .ok s' ∧ Framed .start s' :=
  (proc_redraw_framed_iff .start Tty.start_idle Tty.start_onScreen 7).mpr (.inl (by decide))

/-- The tenth process scrolls the screen. -/
theorem proc_redraw_scrolls_ten :
    ¬ ∃ s', procRedraw .start 10 = .ok s' ∧ Framed .start s' := by
  have htext : itoa (10 : BitVec 32).toInt 10 = [chr '1', chr '0'] := by decide
  rw [framed_of_long_iff Tty.start_idle Tty.start_onScreen htext]
  intro hwall
  obtain ⟨-, -, hcells⟩ :=
    termInit_spec { row := 0, column := 0, color := 0, buffer := 0, memory := fun _ => 0 }
  have hcell : Tty.start.term.cell 78 0 = _ := hcells 78 (by decide) 0 (by decide)
  have hwant := congrArg cellChar (hwall.right 78 (by decide) (by decide) 0 (by decide))
  rw [hcell, cellChar_termMakeEntry, Term.cellOf, cellChar_termMakeEntry] at hwant
  revert hwant
  decide

end NimbleOS
