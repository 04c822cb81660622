import NimbleOS.Lib.Stream
import NimbleOS.Tty.Arguments
import NimbleOS.Tty.Redraw

/-!
# NimbleOS.Tty.Cursor

Where the cursor can go.  `term_putchar` wraps and scrolls once for each byte, before the
interpreter sees it; the commands that move or set the cursor do not look at the edges of
the screen.  `KeepsCursor` says of such a command that its target is on the screen, and
the cursor stays there exactly as long as every command of the stream does that.
-/

namespace NimbleOS

/-! ## wrap and scroll -/

/-- On the screen, or behind the last column of a row. -/
structure Term.CursorOn (t : Term) : Prop where
  row : t.row < vgaHeight
  column : t.column ≤ vgaWidth

theorem Term.OnScreen.cursorOn {t : Term} (h : t.OnScreen) : t.CursorOn :=
  ⟨h.row, Nat.le_of_lt h.column⟩

theorem termPutNext_row (t : Term) (c : BitVec 8) : (termPutNext t c).row = t.row :=
  (sameState_termPutcharAt t _ _ _).row

theorem termPutNext_column (t : Term) (c : BitVec 8) :
    (termPutNext t c).column = u32 (t.column + 1) := rfl

/-- A line break opens a row, a tab moves by four columns. -/
theorem Term.CursorOn.break {t : Term} (h : t.CursorOn) (c : BitVec 8) :
    (termBreak t c).row < vgaHeight ∧ (termBreak t c).column ≤ vgaWidth + 4 ∨
      (termBreak t c).row = t.row + 1 ∧ (termBreak t c).column = 0 := by
  obtain ⟨hrow, hcol⟩ := h
  unfold termBreak
  split
  · refine .inr ⟨u32_of_lt ?_, rfl⟩
    unfold vgaHeight at hrow
    omega
  · split
    · refine .inl ⟨?_, ?_⟩
      · change (termPutNext (termPutNext (termPutNext (termPutNext t _) _) _) _).row < _
        rwa [termPutNext_row, termPutNext_row, termPutNext_row, termPutNext_row]
      · change (termPutNext (termPutNext (termPutNext (termPutNext t _) _) _) _).column ≤ _
        rw [termPutNext_column, termPutNext_column, termPutNext_column, termPutNext_column]
        unfold u32 vgaWidth at *
        omega
    · exact .inl ⟨hrow, by omega⟩

/-- **Wrap and scroll** bring the cursor back to a column of the screen. -/
theorem Term.CursorOn.advance {t : Term} (h : t.CursorOn) (c : BitVec 8) :
    (termAdvance t c).OnScreen := by
  have hplace : (termPlace t c).row ≤ vgaHeight ∧ (termPlace t c).column < vgaWidth := by
    have hrow := h.row
    unfold termPlace termWrap
    split
    · next hfull =>
        rcases h.break c with ⟨hrow', -⟩ | ⟨-, hcol'⟩
        · refine ⟨?_, (by decide : 0 < vgaWidth)⟩
          change u32 ((termBreak t c).row + 1) ≤ _
          rw [u32_of_lt (by unfold vgaHeight at hrow'; omega)]
          exact hrow'
        · rw [hcol'] at hfull
          exact absurd hfull (by decide)
    · next hroom =>
        refine ⟨?_, Nat.lt_of_not_le hroom⟩
        rcases h.break c with ⟨hrow', -⟩ | ⟨hrow', -⟩ <;> omega
  obtain ⟨hrow, hcol⟩ := hplace
  rw [termAdvance_eq]
  split
  · next hfull =>
      obtain ⟨hup, hsame, -⟩ := termScrolldown_spec (termPlace t c)
      constructor
      · rw [hup, Nat.le_antisymm hrow hfull]
        decide
      · rwa [hsame]
  · next hroom => exact ⟨Nat.lt_of_not_le hroom, hcol⟩

/-- The next character does not leave the row. -/
theorem Term.OnScreen.putNext {t : Term} (h : t.OnScreen) (c : BitVec 8) :
    (termPutNext t c).CursorOn := by
  obtain ⟨hrow, hcol⟩ := h
  constructor
  · rwa [termPutNext_row]
  · rw [termPutNext_column, u32_of_lt (by unfold vgaWidth at hcol; omega)]
    exact hcol

/-! ## the commands -/

/-- The command `c` with the arguments `arg` leaves the cursor on the screen.  Rows and
columns are `uint32_t`s, so a move can also come back on the other side. -/
def KeepsCursor (t : Term) (arg : Nat → Nat) (c : BitVec 8) : Prop :=
  match Char.ofNat c.toNat with
  | 'H' | 'f' => arg 0 < vgaHeight ∧ arg 1 ≤ vgaWidth
  | 'A' => arg 0 ≤ t.row ∨ 2 ^ 32 + t.row < arg 0 + vgaHeight
  | 'B' => t.row + arg 0 < vgaHeight ∨ 2 ^ 32 ≤ t.row + arg 0
  | 'C' => t.column + arg 0 ≤ vgaWidth ∨ 2 ^ 32 ≤ t.column + arg 0
  | 'D' => arg 0 ≤ t.column ∨ 2 ^ 32 + t.column ≤ arg 0 + vgaWidth
  | _ => True

/-- The saved cursor is one that was on the screen. -/
structure AnsiContext.SavedOn (ctx : AnsiContext) : Prop where
  row : ctx.savedRow < vgaHeight
  column : ctx.savedCol ≤ vgaWidth

/-- The commands that do not move the cursor. -/
structure SameCursor (t t' : Term) : Prop where
  row : t'.row = t.row
  column : t'.column = t.column

theorem SameState.sameCursor (h : SameState t t') : SameCursor t t' := ⟨h.row, h.column⟩

theorem sameCursor_ansiGraphic (t : Term) (arg : Nat) : SameCursor t (ansiGraphic t arg) := by
  unfold ansiGraphic termSetFgColor termSetBgColor termSetBlink
  split
  · exact ⟨rfl, rfl⟩
  · exact ⟨rfl, rfl⟩
  · split
    · exact ⟨rfl, rfl⟩
    · split <;> exact ⟨rfl, rfl⟩

theorem sameCursor_graphics (t : Term) (args : List Nat) :
    SameCursor t (args.foldl ansiGraphic t) := by
  induction args generalizing t with
  | nil => exact ⟨rfl, rfl⟩
  | cons arg args ih =>
      have hone := sameCursor_ansiGraphic t arg
      have hrest := ih (ansiGraphic t arg)
      exact ⟨hrest.row.trans hone.row, hrest.column.trans hone.column⟩

theorem SameCursor.cursorOn {t t' : Term} (h : SameCursor t t') (ht : t.CursorOn) :
    t'.CursorOn := ⟨h.row ▸ ht.row, h.column ▸ ht.column⟩

/-- **Commands and the cursor.** -/
theorem ansiCommand_cursorOn_iff {t : Term} {d : AnsiContext} (h : t.OnScreen) (hd : d.SavedOn)
    (harg : d.args.toList.getD 0 0 < 2 ^ 32) :
    (ansiCommand d t c).2.CursorOn ↔ KeepsCursor t (d.args.toList.getD · 0) c := by
  have hon := h.cursorOn
  obtain ⟨hrow, hcol⟩ := h
  have hset : ∀ row column, (termSetColumn (termSetRow t row) column).CursorOn ↔
      row < vgaHeight ∧ column ≤ vgaWidth := fun row column =>
    ⟨fun h => ⟨h.row, h.column⟩, fun h => ⟨h.1, h.2⟩⟩
  have hsetRow : ∀ row, (termSetRow t row).CursorOn ↔ row < vgaHeight := fun row =>
    ⟨fun h => h.row, fun h => ⟨h, hon.column⟩⟩
  have hsetColumn : ∀ column, (termSetColumn t column).CursorOn ↔ column ≤ vgaWidth := fun column =>
    ⟨fun h => h.column, fun h => ⟨hon.row, h⟩⟩
  unfold ansiCommand KeepsCursor
  dsimp only
  generalize Char.ofNat c.toNat = ch
  split
  · exact iff_of_true hon trivial
  · exact iff_of_true ((hset _ _).mpr ⟨hd.row, hd.column⟩) trivial
  · exact iff_of_true ((sameState_termEraseFrom t _ _).sameCursor.cursorOn hon) trivial
  · exact hset _ _
  · exact hset _ _
  · rw [hsetRow]
    change _ ↔ d.args.toList.getD 0 0 ≤ t.row ∨ 2 ^ 32 + t.row < d.args.toList.getD 0 0 + vgaHeight
    unfold u32Sub vgaHeight at *
    omega
  · rw [hsetRow]
    change _ ↔ t.row + d.args.toList.getD 0 0 < vgaHeight ∨ 2 ^ 32 ≤ t.row + d.args.toList.getD 0 0
    unfold u32 vgaHeight at *
    omega
  · rw [hsetColumn]
    change _ ↔ t.column + d.args.toList.getD 0 0 ≤ vgaWidth ∨
      2 ^ 32 ≤ t.column + d.args.toList.getD 0 0
    unfold u32 vgaWidth at *
    omega
  · rw [hsetColumn]
    change _ ↔ d.args.toList.getD 0 0 ≤ t.column ∨
      2 ^ 32 + t.column ≤ d.args.toList.getD 0 0 + vgaWidth
    unfold u32Sub vgaWidth at *
    omega
  · refine iff_of_true ?_ trivial
    dsimp only
    split
    · obtain ⟨hrow₀, hcol₀, -⟩ := termInit_spec t
      exact ⟨by rw [hrow₀]; decide, by rw [hcol₀]; decide⟩
    · exact hon
  · exact iff_of_true ((sameCursor_graphics t _).cursorOn hon) trivial
  · next hH hf hA hB hC hD hJ hm =>
    split
    · exact absurd rfl hH
    · exact absurd rfl hf
    · exact absurd rfl hA
    · exact absurd rfl hB
    · exact absurd rfl hC
    · exact absurd rfl hD
    · exact iff_of_true hon trivial

/-! ## streams -/

/-- What the cursor keeps: it is on the screen or behind a full row, and no character that
follows is put outside of the screen. -/
structure CursorKept (s : Tty) : Prop where
  cursor : s.term.CursorOn
  shown : ∀ c, (termAdvance s.term c).OnScreen

/-- What the byte `c` needs: room for the parameter that it ends, and of a command a
target on the screen. -/
def CursorStep (p : Pending) (s : Tty) (c : BitVec 8) : Prop :=
  p.Room c ∧ ∀ vs, p.arguments c = some vs →
    KeepsCursor (termAdvance s.term c)
      ((vs ++ s.ctx.args.toList.drop vs.length).getD · 0) c

/-- The terminal between two bytes. -/
structure CursorInv (p : Pending) (s : Tty) : Prop where
  reads : p.Reads s.ctx
  cursor : s.term.CursorOn
  saved : s.ctx.SavedOn

theorem CursorInv.kept {p : Pending} (h : CursorInv p s) : CursorKept s :=
  ⟨h.cursor, fun c => h.cursor.advance c⟩

/-- A command keeps the saved cursor, or saves one that is on the screen. -/
theorem ansiCommand_savedOn {t : Term} {d : AnsiContext} (h : t.CursorOn) (hd : d.SavedOn) :
    (ansiCommand d t c).1.SavedOn := by
  unfold ansiCommand
  dsimp only
  split
  · exact ⟨h.row, h.column⟩
  all_goals exact hd

/-- **Step lemma**: a byte keeps the cursor exactly if it has what it needs. -/
theorem termPutchar_cursor {p : Pending} {s : Tty} (h : CursorInv p s) (hr : p.Room c) :
    ∃ s', termPutchar s c = .ok s' ∧ (p.next c).Reads s'.ctx ∧
      (s'.term.CursorOn ↔ CursorStep p s c) ∧ (s'.term.CursorOn → s'.ctx.SavedOn) := by
  have hon := h.cursor.advance c
  obtain ⟨escaped, ctx', t', hput, hreads, heffect⟩ := termPutchar_spec h.reads hr
  refine ⟨_, hput, hreads, ?_⟩
  rw [Pending.Effect] at heffect
  cases hargs : p.arguments c with
  | none =>
      rw [hargs] at heffect
      obtain ⟨rfl, hrow, hcol⟩ := heffect
      have hstep : CursorStep p s c := ⟨hr, fun vs hvs => by rw [hargs] at hvs; cases hvs⟩
      refine ⟨iff_of_true ?_ hstep, fun _ => ⟨hrow ▸ h.saved.row, hcol ▸ h.saved.column⟩⟩
      dsimp only
      split
      · exact hon.cursorOn
      · exact hon.putNext c
  | some vs =>
      rw [hargs] at heffect
      obtain ⟨rfl, d, hd, rfl, rfl⟩ := heffect
      have hsaved : d.SavedOn := ⟨hd.savedRow ▸ h.saved.row, hd.savedCol ▸ h.saved.column⟩
      obtain ⟨v, rest, rfl, hv⟩ := Pending.arguments_first hargs
      have hiff := ansiCommand_cursorOn_iff (c := c) hon hsaved (by rw [hd.args]; exact hv)
      have hafter := ansiCommand_savedOn (c := c) hon.cursorOn hsaved
      rw [hd.args] at hiff
      refine ⟨?_, fun _ => ⟨hafter.row, hafter.column⟩⟩
      rw [CursorStep, hargs]
      simp only [Bool.true_or, if_true, Option.some.injEq, forall_eq']
      rw [hiff, and_iff_right hr]

/-- **Where the cursor stays.**  Whatever `term_init` starts from, the cursor is on the
screen or behind a full row after every byte of a stream, and no printable character is
put outside of the screen, exactly if every parameter has room and the target of every
command that moves, sets or restores the cursor is on the screen. -/
theorem term_cursor_kept_iff (hctx : ctx.Started) (t : Term) (bytes : List (BitVec 8)) :
    Stream.AllPrefixes termPutchar CursorKept { ctx := ctx, term := termInit t } bytes ↔
      Stream.EachStep termPutchar Pending.next CursorStep .none
        { ctx := ctx, term := termInit t } bytes := by
  have hsaved : ctx.SavedOn := by
    rcases hctx with rfl | ⟨ctx₀, rfl⟩
    · exact ⟨by decide, by decide⟩
    · exact ⟨(by decide : 0 < vgaHeight), Nat.zero_le _⟩
  obtain ⟨hrow, hcol, -⟩ := termInit_spec t
  refine Stream.allPrefixes_iff_eachStep CursorInv (fun p s h => h.kept)
    (fun p s c h hc => ?_) (fun p s c s' h hc hput hkept => ?_)
    ⟨hctx.reads, ⟨by rw [hrow]; decide, by rw [hcol]; decide⟩, hsaved⟩ bytes
  · obtain ⟨s', hput, hreads, hiff, hafter⟩ := termPutchar_cursor h hc.1
    exact ⟨s', hput, hreads, hiff.mpr hc, hafter (hiff.mpr hc)⟩
  · by_cases hr : p.Room c
    · obtain ⟨t', hput', -, hiff, -⟩ := termPutchar_cursor h hr
      obtain rfl : s' = t' := Except.ok.inj (hput.symm.trans hput')
      exact hc (hiff.mp hkept.cursor)
    · rw [termPutchar_error h.reads.describes hr] at hput
      cases hput

/-- A single letter outside of any sequence. -/
theorem term_cursor_kept_iff_letter :
    Stream.AllPrefixes termPutchar CursorKept .start [chr 'A'] := by
  refine (term_cursor_kept_iff (.inl rfl) _ [chr 'A']).mpr fun pre c post s' heq _ => ?_
  obtain ⟨rfl, hcons⟩ | ⟨pre', rfl, hnil⟩ := List.cons_eq_append_iff.mp heq
  · obtain ⟨rfl, -⟩ := List.cons.inj hcons
    exact ⟨trivial, fun vs hvs => by cases hvs⟩
  · simp at hnil

/-- `ESC [ 3 0 B` moves the cursor to row 30, and the next character is not shown. -/
theorem term_cursor_leaves_screen :
    ¬ Stream.AllPrefixes termPutchar CursorKept .start (escapeSequence [[chr '3', chr '0']] (chr 'B')) ∧
      ∃ s', termWrite .start (escapeSequence [[chr '3', chr '0']] (chr 'B')) = .ok s' ∧
        s'.term.row = 30 ∧ ¬ (termAdvance s'.term (chr 'x')).OnScreen := by
  have hparam : ∀ ds ∈ [] ++ [[chr '3', chr '0']], IsParam ds := by
    intro ds hds
    obtain rfl : ds = [chr '3', chr '0'] := by simpa using hds
    exact ⟨by decide, by decide⟩
  obtain ⟨ctx', hargs, -, -, -, hwrite⟩ := termWrite_sequence (c := chr 'B') Tty.start_idle
    Tty.start_onScreen hparam (by decide) (by decide)
  obtain ⟨hrow₀, hcol₀, -⟩ := termInit_spec
    { row := 0, column := 0, color := 0, buffer := 0, memory := fun _ => 0 }
  change Tty.start.term.row = 0 at hrow₀
  change Tty.start.term.column = 0 at hcol₀
  have hdown : ∀ t, (ansiCommand ctx' t (chr 'B')).2.row = u32 (t.row + ctx'.args.toList.getD 0 0) ∧
      (ansiCommand ctx' t (chr 'B')).2.column = t.column := fun _ => ⟨rfl, rfl⟩
  have hrow : (ansiCommand ctx' Tty.start.term (chr 'B')).2.row = 30 := by
    rw [(hdown _).1, hargs, hrow₀]
    decide
  have hcol : (ansiCommand ctx' Tty.start.term (chr 'B')).2.column = 0 := by
    rw [(hdown _).2, hcol₀]
  have hsequence : escapeSequence ([] ++ [[chr '3', chr '0']]) (chr 'B') =
      escapeSequence [[chr '3', chr '0']] (chr 'B') := rfl
  rw [hsequence] at hwrite
  refine ⟨fun hall => ?_, _, hwrite, hrow, fun hon => ?_⟩
  · obtain ⟨s', hrun, hkept⟩ := hall _ (List.prefix_refl _)
    rw [termWrite] at hwrite
    obtain rfl := Except.ok.inj (hwrite.symm.trans hrun)
    exact absurd hkept.cursor.row (by rw [hrow]; decide)
  · generalize (ansiCommand ctx' Tty.start.term (chr 'B')).2 = t at hrow hcol hon
    have hplace : termPlace t (chr 'x') = t := by
      have hbreak : termBreak t (chr 'x') = t := rfl
      rw [termPlace, hbreak, termWrap, if_neg]
      rw [hcol]
      decide
    have hbelow := hon.row
    rw [termAdvance_eq, hplace, hrow, if_pos (by decide), (termScrolldown_spec t).1, hrow] at hbelow
    revert hbelow
    decide

end NimbleOS
