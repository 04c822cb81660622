import NimbleOS.Lib.Relate
import NimbleOS.Tty.Render

/-!
# NimbleOS.Tty.Lockstep

Two terminals that receive the same bytes.  `SameTty off` says that they show the same
but for the cells in `off`, that their cursors agree, and that their interpreters are
at the same point of the same sequence.  What one byte needs to keep this is stated
on the two states before it: `ByteAgrees`.
-/

namespace NimbleOS

/-- Cursor, colour and the cells outside of `off` are the same. -/
structure SameTerm (off : Nat → Nat → Prop) (t u : Term) : Prop where
  row : u.row = t.row
  column : u.column = t.column
  color : u.color = t.color
  cells : ∀ x < vgaWidth, ∀ y < vgaHeight, ¬ off x y → u.cell x y = t.cell x y

/-- The interpreters are at the same point: the digits of the open parameter and the
values of the parameters before it are the same. -/
structure SameInterpreter (ctx ctx' : AnsiContext) : Prop where
  state : ctx'.state = ctx.state
  currentArg : ctx'.currentArg = ctx.currentArg
  currentIndex : ctx'.currentIndex = ctx.currentIndex
  digits : ctx'.buf.toList.take ctx.currentIndex = ctx.buf.toList.take ctx.currentIndex
  values : ctx'.args.toList.take ctx.currentArg = ctx.args.toList.take ctx.currentArg

structure SameTty (off : Nat → Nat → Prop) (s s' : Tty) : Prop where
  term : SameTerm off s.term s'.term
  interpreter : SameInterpreter s.ctx s'.ctx

/-! ## drawing -/

namespace SameTerm

variable {off : Nat → Nat → Prop} {t u : Term}

theorem refl (t : Term) : SameTerm off t t := ⟨rfl, rfl, rfl, fun _ _ _ _ _ => rfl⟩

/-- Moving both cursors to the same place. -/
theorem withCursor (h : SameTerm off t u) (row column : Nat) :
    SameTerm off { t with row := row, column := column } { u with row := row, column := column } :=
  ⟨rfl, rfl, h.color, h.cells⟩

theorem setRow (h : SameTerm off t u) (row : Nat) :
    SameTerm off (termSetRow t row) (termSetRow u row) :=
  ⟨rfl, h.column, h.color, h.cells⟩

theorem setColumn (h : SameTerm off t u) (column : Nat) :
    SameTerm off (termSetColumn t column) (termSetColumn u column) :=
  ⟨h.row, rfl, h.color, h.cells⟩

theorem withColor (h : SameTerm off t u) (color : BitVec 8) :
    SameTerm off { t with color := color } { u with color := color } :=
  ⟨h.row, h.column, rfl, h.cells⟩

theorem putcharAt (h : SameTerm off t u) (c : BitVec 8) (x y : Nat) :
    SameTerm off (termPutcharAt t c x y) (termPutcharAt u c x y) := by
  have ht := sameState_termPutcharAt t c x y
  have hu := sameState_termPutcharAt u c x y
  refine
    { row := by rw [hu.row, h.row, ht.row]
      column := by rw [hu.column, h.column, ht.column]
      color := by rw [hu.color, h.color, ht.color]
      cells := fun x' hx' y' hy' hoff => ?_ }
  rw [u.cell_termPutcharAt c x y hx' hy', t.cell_termPutcharAt c x y hx' hy', h.color,
    h.cells x' hx' y' hy' hoff]

theorem putNext (h : SameTerm off t u) (c : BitVec 8) :
    SameTerm off (termPutNext t c) (termPutNext u c) := by
  have hput := h.putcharAt c t.column t.row
  unfold termPutNext
  rw [h.row, h.column]
  exact ⟨hput.row, rfl, hput.color, hput.cells⟩

/-- Fewer cells need to agree. -/
theorem mono (h : SameTerm off t u)
    (hoff : ∀ x < vgaWidth, ∀ y < vgaHeight, off x y → off' x y) : SameTerm off' t u :=
  ⟨h.row, h.column, h.color, fun x hx y hy hne => h.cells x hx y hy fun ho => hne (hoff x hx y hy ho)⟩

/-- The cell that is drawn agrees afterwards. -/
theorem putNext_covers (h : SameTerm off t u) (c : BitVec 8) :
    SameTerm (fun x y => off x y ∧ ¬ (x = t.column ∧ y = t.row)) (termPutNext t c)
      (termPutNext u c) := by
  have hput := h.putNext c
  refine ⟨hput.row, hput.column, hput.color, fun x hx y hy hne => ?_⟩
  by_cases hcell : x = t.column ∧ y = t.row
  · have ht : (termPutNext t c).cell x y = _ := t.cell_termPutcharAt c t.column t.row hx hy
    have hu : (termPutNext u c).cell x y = _ := u.cell_termPutcharAt c u.column u.row hx hy
    rw [h.column, h.row, if_pos hcell, h.color] at hu
    rw [if_pos hcell] at ht
    rw [hu, ht]
  · exact hput.cells x hx y hy fun ho => hne ⟨ho, hcell⟩

/-- The same step of a loop on both. -/
theorem foldl {f g : Term → α → Term} (hstep : ∀ t u a, SameTerm off t u →
    SameTerm off (f t a) (g u a)) (h : SameTerm off t u) (as : List α) :
    SameTerm off (as.foldl f t) (as.foldl g u) := by
  induction as generalizing t u with
  | nil => exact h
  | cons a as ih => exact ih (hstep t u a h)

/-- Scrolling moves cells out of `off`: there the screens must agree too. -/
theorem scrolldown (h : SameTerm off t u)
    (hoff : ∀ x < vgaWidth, ∀ y < vgaHeight - 1, ¬ off x y → u.cell x (y + 1) = t.cell x (y + 1)) :
    SameTerm off (termScrolldown t) (termScrolldown u) := by
  obtain ⟨htr, htc, htcolor, htcells⟩ := termScrolldown_spec t
  obtain ⟨hur, huc, hucolor, hucells⟩ := termScrolldown_spec u
  refine
    { row := by rw [hur, h.row, htr]
      column := by rw [huc, h.column, htc]
      color := by rw [hucolor, h.color, htcolor]
      cells := fun x hx y hy hne => ?_ }
  rw [hucells x hx y hy, htcells x hx y hy, Term.scrolled, Term.scrolled, h.color]
  by_cases hlast : y < vgaHeight - 1
  · rw [if_pos hlast, if_pos hlast, hoff x hx y hlast hne]
  · rw [if_neg hlast, if_neg hlast]

theorem init (h : SameTerm off t u) : SameTerm off (termInit t) (termInit u) := by
  obtain ⟨htr, htc, htcells⟩ := termInit_spec t
  obtain ⟨hur, huc, hucells⟩ := termInit_spec u
  have ht := sameState_fill
    { t with
      buffer := vgaMemory
      color := termMakeColor TermVgaColor.white.val TermVgaColor.black.val
      row := 0
      column := 0 } (termMakeEntry (chr ' ') t.color)
  have hu := sameState_fill
    { u with
      buffer := vgaMemory
      color := termMakeColor TermVgaColor.white.val TermVgaColor.black.val
      row := 0
      column := 0 } (termMakeEntry (chr ' ') u.color)
  refine
    { row := by rw [hur, htr]
      column := by rw [huc, htc]
      color := hu.color.trans ht.color.symm
      cells := fun x hx y hy _ => ?_ }
  rw [hucells x hx y hy, htcells x hx y hy, h.color]

theorem erase (h : SameTerm off t u) (x n : Nat) :
    SameTerm off (termEraseFrom t x n) (termEraseFrom u x n) :=
  foldl (fun t u x h => by rw [h.row]; exact h.putcharAt _ _ _) h _

theorem graphic (h : SameTerm off t u) (arg : Nat) :
    SameTerm off (ansiGraphic t arg) (ansiGraphic u arg) := by
  unfold ansiGraphic termSetFgColor termSetBgColor termSetBlink termGetFgColor termGetBgColor
  rw [h.color]
  split
  · exact h.withColor _
  · exact h.withColor _
  · split
    · exact h.withColor _
    · split
      · exact h.withColor _
      · exact h

end SameTerm

/-! ## the cursor before the character -/

/-- Line breaks and tabs. -/
def termBreak (t : Term) (c : BitVec 8) : Term :=
  if c = chr '\n' ∨ c = chr '\r' then { t with row := u32 (t.row + 1), column := 0 }
  else if c = chr '\t' then (List.range 4).foldl (fun t _ => termPutNext t (chr ' ')) t
  else t

/-- The cursor wraps behind the last column. -/
def termWrap (t : Term) : Term :=
  if t.column ≥ vgaWidth then { t with row := u32 (t.row + 1), column := 0 } else t

/-- `term_putchar` before its test for scrolling. -/
def termPlace (t : Term) (c : BitVec 8) : Term := termWrap (termBreak t c)

theorem termAdvance_eq (t : Term) (c : BitVec 8) :
    termAdvance t c =
      if (termPlace t c).row ≥ vgaHeight then termScrolldown (termPlace t c) else termPlace t c :=
  rfl

namespace SameTerm

variable {off : Nat → Nat → Prop} {t u : Term}

theorem place (h : SameTerm off t u) (c : BitVec 8) :
    SameTerm off (termPlace t c) (termPlace u c) := by
  have hbreak : SameTerm off (termBreak t c) (termBreak u c) := by
    unfold termBreak
    split
    · rw [h.row]
      exact h.withCursor _ _
    · split
      · exact foldl (fun t u _ h => h.putNext _) h _
      · exact h
  unfold termPlace termWrap
  rw [hbreak.column, hbreak.row]
  split
  · exact hbreak.withCursor _ _
  · exact hbreak

theorem advance (h : SameTerm off t u) (c : BitVec 8)
    (hoff : (termPlace t c).row ≥ vgaHeight → ∀ x < vgaWidth, ∀ y < vgaHeight - 1, ¬ off x y →
      (termPlace u c).cell x (y + 1) = (termPlace t c).cell x (y + 1)) :
    SameTerm off (termAdvance t c) (termAdvance u c) := by
  have hplace := h.place c
  rw [termAdvance_eq, termAdvance_eq, hplace.row]
  by_cases hfull : (termPlace t c).row ≥ vgaHeight
  · rw [if_pos hfull, if_pos hfull]
    exact hplace.scrolldown (hoff hfull)
  · rw [if_neg hfull, if_neg hfull]
    exact hplace

end SameTerm

/-- The cells that a tab overwrites. -/
def InTab (t : Term) (x y : Nat) : Prop := y = t.row ∧ t.column ≤ x ∧ x < t.column + 4

/-- The cells that a tab has drawn agree afterwards. -/
theorem SameTerm.tab {t u : Term} (h : SameTerm off t u) :
    SameTerm (fun x y => off x y ∧ ¬ InTab t x y) (termPlace t (chr '\t'))
      (termPlace u (chr '\t')) := by
  have hstep : ∀ t : Term, (termPutNext t (chr ' ')).row = t.row ∧
      (termPutNext t (chr ' ')).column = u32 (t.column + 1) := fun t =>
    ⟨(sameState_termPutcharAt t _ _ _).row, rfl⟩
  have h₁ := h.putNext_covers (chr ' ')
  have h₂ := h₁.putNext_covers (chr ' ')
  have h₃ := h₂.putNext_covers (chr ' ')
  have h₄ := h₃.putNext_covers (chr ' ')
  have hbreak : SameTerm (fun x y => off x y ∧ ¬ InTab t x y) (termBreak t (chr '\t'))
      (termBreak u (chr '\t')) := by
    refine SameTerm.mono h₄ fun x hx y hy hne => ?_
    obtain ⟨⟨⟨⟨hoff, hne₁⟩, hne₂⟩, hne₃⟩, hne₄⟩ := hne
    refine ⟨hoff, fun ⟨hrow, hlo, hhi⟩ => ?_⟩
    rw [(hstep _).1, (hstep _).2] at hne₂ hne₃ hne₄
    rw [(hstep _).1, (hstep _).2] at hne₃ hne₄
    rw [(hstep _).1, (hstep _).2] at hne₄
    unfold u32 vgaWidth at *
    omega
  unfold termPlace termWrap
  rw [hbreak.column, hbreak.row]
  split
  · exact hbreak.withCursor _ _
  · exact hbreak

/-! ## the interpreter -/

/-- What the letter of a sequence reads besides the parameters of the sequence: the
saved cursor, and the second parameter where there is only one. -/
structure LetterAgrees (ctx ctx' : AnsiContext) (c : BitVec 8) : Prop where
  saved : c = chr 'u' → ctx'.savedRow = ctx.savedRow ∧ ctx'.savedCol = ctx.savedCol
  second : c = chr 'H' ∨ c = chr 'f' → ctx.currentArg = 0 →
    ctx'.args.toList.getD 1 0 = ctx.args.toList.getD 1 0

theorem take_set_succ (l : List α) (h : i < l.length) (a : α) :
    (l.set i a).take (i + 1) = l.take i ++ [a] := by
  rw [List.take_add_one, List.take_set_of_le (Nat.le_refl _), List.getElem?_set_self h]
  rfl

/-- What ending a parameter does to the context: the value is that of the digits
received for it. -/
structure EndedParam (ctx d : AnsiContext) : Prop where
  state : d.state = ctx.state
  currentIndex : d.currentIndex = ctx.currentIndex
  currentArg : d.currentArg = ctx.currentArg + 1
  args : d.args.toList = ctx.args.toList.set ctx.currentArg
    (atoi (ctx.buf.toList.take ctx.currentIndex ++ [0])).toNat
  savedRow : d.savedRow = ctx.savedRow
  savedCol : d.savedCol = ctx.savedCol

theorem ansiEndParam_spec (hi : ctx.currentIndex < ansiBufferSize)
    (ha : ctx.currentArg < ansiBufferSize) :
    ∃ d, ansiEndParam ctx = .ok d ∧ EndedParam ctx d := by
  have hcount : u32 (ctx.currentArg + 1) = ctx.currentArg + 1 := by
    rw [u32_of_lt]
    unfold ansiBufferSize at ha
    omega
  have hbuf : atoi (ctx.buf.toList.set ctx.currentIndex 0) =
      atoi (ctx.buf.toList.take ctx.currentIndex ++ [0]) := by
    rw [List.set_eq_take_append_cons_drop, if_pos (by rwa [Vector.length_toList])]
    exact atoi_nul _ _ _
  simp only [ansiEndParam, AnsiContext.storeBuf, dif_pos hi, bind, Except.bind,
    AnsiContext.storeArg, dif_pos ha, pure, Except.pure, hcount, Vector.toList_set, hbuf]
  exact ⟨_, rfl, rfl, rfl, rfl, Vector.toList_set ha, rfl, rfl⟩

namespace SameInterpreter

variable {ctx ctx' : AnsiContext}

theorem refl (ctx : AnsiContext) : SameInterpreter ctx ctx := ⟨rfl, rfl, rfl, rfl, rfl⟩

/-- Two interpreters outside of any sequence. -/
theorem of_idle (h : ctx.state = .normal) (hi : ctx.currentIndex = 0) (ha : ctx.currentArg = 0)
    (h' : ctx'.state = .normal) (hi' : ctx'.currentIndex = 0) (ha' : ctx'.currentArg = 0) :
    SameInterpreter ctx ctx' where
  state := h'.trans h.symm
  currentArg := ha'.trans ha.symm
  currentIndex := hi'.trans hi.symm
  digits := by rw [hi, List.take_zero, List.take_zero]
  values := by rw [ha, List.take_zero, List.take_zero]

/-- The parameters that end have the same value. -/
theorem endParam (h : SameInterpreter ctx ctx') :
    Relates (fun d d' => EndedParam ctx d ∧ EndedParam ctx' d' ∧
        d'.args.toList.take d.currentArg = d.args.toList.take d.currentArg)
      (ansiEndParam ctx) (ansiEndParam ctx') := by
  by_cases hroom : ctx.currentIndex < ansiBufferSize ∧ ctx.currentArg < ansiBufferSize
  · have hroom' : ctx'.currentIndex < ansiBufferSize ∧ ctx'.currentArg < ansiBufferSize := by
      rwa [h.currentIndex, h.currentArg]
    obtain ⟨d, hend, hd⟩ := ansiEndParam_spec hroom.1 hroom.2
    obtain ⟨d', hend', hd'⟩ := ansiEndParam_spec hroom'.1 hroom'.2
    rw [hend, hend']
    refine .ok ⟨hd, hd', ?_⟩
    have hlen : ctx.currentArg < ctx.args.toList.length := by
      rw [Vector.length_toList]
      exact hroom.2
    have hlen' : ctx.currentArg < ctx'.args.toList.length := by
      rw [Vector.length_toList]
      exact hroom.2
    rw [hd.args, hd'.args, hd.currentArg, h.currentArg, h.currentIndex, h.digits,
      take_set_succ _ hlen, take_set_succ _ hlen', h.values]
  · have hroom' : ¬ (ctx'.currentIndex < ansiBufferSize ∧ ctx'.currentArg < ansiBufferSize) := by
      rwa [h.currentIndex, h.currentArg]
    rw [ansiEndParam_error hroom, ansiEndParam_error hroom']
    exact .error

end SameInterpreter

theorem getD_set_succ (xs : List Nat) (i v : Nat) :
    (xs.set 0 v).getD (i + 1) 0 = xs.getD (i + 1) 0 := by
  cases xs <;> rfl

/-- An argument among those that have been stored. -/
theorem getD_eq_of_take {xs ys : List Nat} (h : ys.take n = xs.take n) (hi : i < n) :
    ys.getD i 0 = xs.getD i 0 := by
  have hi' := congrArg (fun l => l.getD i 0) h
  simpa only [List.getD_eq_getElem?_getD, List.getElem?_take_of_lt hi] using hi'

/-- The command of a letter, with the same parameters. -/
theorem SameTerm.command {t u : Term} (h : SameTerm off t u) {d d' : AnsiContext}
    (hcount : d'.currentArg = d.currentArg) (hpos : 0 < d.currentArg)
    (hvalues : d'.args.toList.take d.currentArg = d.args.toList.take d.currentArg)
    (hsaved : c = chr 'u' → d'.savedRow = d.savedRow ∧ d'.savedCol = d.savedCol)
    (hsecond : c = chr 'H' ∨ c = chr 'f' → d'.args.toList.getD 1 0 = d.args.toList.getD 1 0) :
    SameTerm off (ansiCommand d t c).2 (ansiCommand d' u c).2 := by
  have hfirst : d'.args.toList.getD 0 0 = d.args.toList.getD 0 0 := getD_eq_of_take hvalues hpos
  have hc := chr_ofNat_toNat c
  unfold ansiCommand
  dsimp only
  split
  · exact h
  · next hu =>
      obtain ⟨hrow, hcol⟩ := hsaved (by rw [← hc, hu])
      rw [hrow, hcol]
      exact (h.setRow _).setColumn _
  · rw [h.column]
    exact h.erase t.column (vgaWidth - t.column)
  · next hH =>
      rw [hfirst, hsecond (.inl (by rw [← hc, hH]))]
      exact (h.setRow _).setColumn _
  · next hf =>
      rw [hfirst, hsecond (.inr (by rw [← hc, hf]))]
      exact (h.setRow _).setColumn _
  · rw [hfirst, h.row]
    exact h.setRow _
  · rw [hfirst, h.row]
    exact h.setRow _
  · rw [hfirst, h.column]
    exact h.setColumn _
  · rw [hfirst, h.column]
    exact h.setColumn _
  · rw [hfirst]
    dsimp only
    split
    · exact h.init
    · exact h
  · rw [hcount, hvalues]
    exact SameTerm.foldl (fun t u arg h => h.graphic arg) h _
  · exact h

/-- A letter touches neither the parameters nor their number. -/
theorem ansiCommand_context (d : AnsiContext) (t : Term) (c : BitVec 8) :
    (ansiCommand d t c).1.buf = d.buf ∧ (ansiCommand d t c).1.args = d.args := by
  unfold ansiCommand
  dsimp only
  split <;> exact ⟨rfl, rfl⟩

/-- **One character**: both interpreters take it for the same, and do the same. -/
theorem ansiInterpretChar_same {t u : Term} (hctx : SameInterpreter ctx ctx')
    (hterm : SameTerm off t u)
    (hletter : ctx.state = .params → LetterAgrees ctx ctx' c) :
    Relates (fun r r' => r'.1 = r.1 ∧ SameInterpreter r.2.1 r'.2.1 ∧ SameTerm off r.2.2 r'.2.2)
      (ansiInterpretChar ctx t c) (ansiInterpretChar ctx' u c) := by
  cases ansiBranch ctx c with
  | escape hs hc =>
      rw [ansiInterpretChar_escape hs hc, ansiInterpretChar_escape (hctx.state.trans hs) hc]
      exact .ok ⟨rfl, ⟨rfl, hctx.currentArg, hctx.currentIndex, hctx.digits, hctx.values⟩, hterm⟩
  | text hs hc =>
      rw [ansiInterpretChar_of_normal hs hc, ansiInterpretChar_of_normal (hctx.state.trans hs) hc]
      exact .ok ⟨rfl, hctx, hterm⟩
  | opened hs hc =>
      rw [ansiInterpretChar_opened hs hc, ansiInterpretChar_opened (hctx.state.trans hs) hc]
      exact .ok ⟨rfl, ⟨rfl, hctx.currentArg, hctx.currentIndex, hctx.digits, hctx.values⟩, hterm⟩
  | closed hs hc =>
      rw [ansiInterpretChar_closed hs hc, ansiInterpretChar_closed (hctx.state.trans hs) hc]
      exact .ok ⟨rfl, ⟨rfl, hctx.currentArg, hctx.currentIndex, hctx.digits, hctx.values⟩, hterm⟩
  | separator hs hsep =>
      rw [ansiInterpretChar_separator hs hsep,
        ansiInterpretChar_separator (hctx.state.trans hs) hsep]
      refine hctx.endParam.bind fun d d' _ _ hd => .ok ⟨rfl, ?_, hterm⟩
      obtain ⟨hd, hd', hvalues⟩ := hd
      exact
        { state := by rw [hd.state, hd'.state, hctx.state]
          currentArg := by rw [hd.currentArg, hd'.currentArg, hctx.currentArg]
          currentIndex := rfl
          digits := by rw [List.take_zero, List.take_zero]
          values := hvalues }
  | overflow hs hdigit hfull =>
      rw [ansiInterpretChar_overflow hs hdigit hfull,
        ansiInterpretChar_overflow (hctx.state.trans hs) hdigit (by rwa [hctx.currentIndex])]
      exact .ok ⟨rfl, .of_idle rfl rfl rfl rfl rfl rfl, hterm⟩
  | digit hs hdigit hroom =>
      have hroom' : ctx'.currentIndex < ansiBufferSize := by rwa [hctx.currentIndex]
      have hlen : ctx.currentIndex < ctx.buf.toList.length := by rwa [Vector.length_toList]
      have hlen' : ctx.currentIndex < ctx'.buf.toList.length := by rwa [Vector.length_toList]
      rw [ansiInterpretChar_digit hs hdigit hroom,
        ansiInterpretChar_digit (hctx.state.trans hs) hdigit hroom']
      refine .ok ⟨rfl,
        { state := hctx.state
          currentArg := hctx.currentArg
          currentIndex := congrArg (· + 1) hctx.currentIndex
          digits := ?_
          values := hctx.values }, hterm⟩
      rw [Vector.toList_set, Vector.toList_set, hctx.currentIndex, take_set_succ _ hlen,
        take_set_succ _ hlen', hctx.digits]
  | letter hs halpha =>
      rw [ansiInterpretChar_letter hs halpha, ansiInterpretChar_letter (hctx.state.trans hs) halpha]
      refine hctx.endParam.bind fun d d' _ _ hd => ?_
      obtain ⟨hd, hd', hvalues⟩ := hd
      have hagree := hletter hs
      refine .ok ⟨rfl, .of_idle rfl rfl rfl rfl rfl rfl, hterm.command ?_ ?_ hvalues ?_ ?_⟩
      · rw [hd.currentArg, hd'.currentArg, hctx.currentArg]
      · rw [hd.currentArg]
        exact Nat.succ_pos _
      · rw [hd.savedRow, hd'.savedRow, hd.savedCol, hd'.savedCol]
        exact hagree.saved
      · intro hc
        by_cases hfirst : ctx.currentArg = 0
        · rw [hd.args, hd'.args, hctx.currentArg, hfirst, getD_set_succ, getD_set_succ]
          exact hagree.second hc hfirst
        · exact getD_eq_of_take hvalues (by rw [hd.currentArg]; omega)
  | skipped hs hsep hdigit halpha =>
      rw [ansiInterpretChar_skipped hs hsep hdigit halpha,
        ansiInterpretChar_skipped (hctx.state.trans hs) hsep hdigit halpha]
      exact .ok ⟨rfl, hctx, hterm⟩

/-! ## one byte -/

/-- What the byte `c` needs of the two states before it: where it scrolls, the cells
that leave `off` are the same, and where it is the letter of a sequence, so is what the
letter reads. -/
structure ByteAgrees (off : Nat → Nat → Prop) (s s' : Tty) (c : BitVec 8) : Prop where
  scroll : (termPlace s.term c).row ≥ vgaHeight →
    ∀ x < vgaWidth, ∀ y < vgaHeight - 1, ¬ off x y →
      (termPlace s'.term c).cell x (y + 1) = (termPlace s.term c).cell x (y + 1)
  letter : s.ctx.state = .params → LetterAgrees s.ctx s'.ctx c

/-- **Step lemma**: one byte keeps the two terminals in step. -/
theorem termPutchar_same {s s' : Tty} (h : SameTty off s s') (hc : ByteAgrees off s s' c) :
    Relates (SameTty off) (termPutchar s c) (termPutchar s' c) := by
  have hadvance := h.term.advance c hc.scroll
  refine (ansiInterpretChar_same h.interpreter hadvance hc.letter).bind fun r r' _ _ hr => ?_
  obtain ⟨escaped, ctx, t⟩ := r
  obtain ⟨escaped', ctx', u⟩ := r'
  obtain ⟨hescaped, hctx, hterm⟩ := hr
  obtain rfl : escaped' = escaped := hescaped
  dsimp only
  split
  · exact .ok ⟨hterm, hctx⟩
  · exact .ok ⟨hterm.putNext c, hctx⟩

end NimbleOS
