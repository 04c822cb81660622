import NimbleOS.Tty

/-!
# NimbleOS.Tty.Ansi

The escape sequence interpreter (`kernel/src/cpu/misc/ansi_interpreter.c`).  Its
two arrays are vectors of `ANSI_BUFFER_SIZE` elements, and a store outside them
ends the call with `Halt.outOfBounds`: in the source nothing checks the index of
a store, except that of a digit.
-/

namespace NimbleOS

def ansiBufferSize : Nat := 32

inductive AnsiState where
  | normal
  | bracket
  | params
  deriving DecidableEq, Repr

/-- `ansi_interpreter_context`. -/
structure AnsiContext where
  state : AnsiState
  buf : Vector (BitVec 8) ansiBufferSize
  args : Vector Nat ansiBufferSize
  currentArg : Nat
  currentIndex : Nat
  savedRow : Nat
  savedCol : Nat

/-- The context as a C static: all bytes zero. -/
def AnsiContext.zeroed : AnsiContext :=
  { state := .normal
    buf := .replicate _ 0
    args := .replicate _ 0
    currentArg := 0
    currentIndex := 0
    savedRow := 0
    savedCol := 0 }

def ansiInitContext (ctx : AnsiContext) : AnsiContext :=
  { ctx with state := .normal, currentArg := 0, currentIndex := 0, savedRow := 0, savedCol := 0 }

/-! ## the two arrays -/

/-- `ctx->buf[i] = c`. -/
def AnsiContext.storeBuf (ctx : AnsiContext) (i : Nat) (c : BitVec 8) : Except Halt AnsiContext :=
  if h : i < ansiBufferSize then .ok { ctx with buf := ctx.buf.set i c h } else .error .outOfBounds

/-- `ctx->args[i] = v`. -/
def AnsiContext.storeArg (ctx : AnsiContext) (i v : Nat) : Except Halt AnsiContext :=
  if h : i < ansiBufferSize then .ok { ctx with args := ctx.args.set i v h } else .error .outOfBounds

/-- The end of a parameter, at `;` or a letter: the text in `buf` is terminated
and its value stored as the next argument. -/
def ansiEndParam (ctx : AnsiContext) : Except Halt AnsiContext := do
  let ctx ← ctx.storeBuf ctx.currentIndex 0
  let ctx ← ctx.storeArg ctx.currentArg (atoi ctx.buf.toList).toNat
  return { ctx with currentArg := u32 (ctx.currentArg + 1) }

/-! ## the commands -/

/-- The colours of the parameters 30 to 37 and 40 to 47. -/
def ansiFgColor : Nat → Option TermVgaColor
  | 30 => some .black
  | 31 => some .red
  | 32 => some .green
  | 33 => some .yellow
  | 34 => some .blue
  | 35 => some .magenta
  | 36 => some .cyan
  | 37 => some .white
  | _ => none

def ansiBgColor : Nat → Option TermVgaColor
  | 40 => some .black
  | 41 => some .red
  | 42 => some .green
  | 43 => some .brown
  | 44 => some .blue
  | 45 => some .magenta
  | 46 => some .cyan
  | 47 => some .lightGrey
  | _ => none

/-- One parameter of `m`. -/
def ansiGraphic (t : Term) (arg : Nat) : Term :=
  match ansiFgColor arg, ansiBgColor arg with
  | some color, _ => termSetFgColor t color
  | none, some color => termSetBgColor t color
  | none, none => if arg = 0 then termSetBlink t false else if arg = 5 then termSetBlink t true else t

/-- The command that the letter `c` ends. -/
def ansiCommand (ctx : AnsiContext) (t : Term) (c : BitVec 8) : AnsiContext × Term :=
  let arg := ctx.args.toList.getD
  match Char.ofNat c.toNat with
  | 's' => ({ ctx with savedRow := t.row, savedCol := t.column }, t)
  | 'u' => (ctx, termSetColumn (termSetRow t ctx.savedRow) ctx.savedCol)
  | 'K' =>
      (ctx, (List.range' t.column (vgaWidth - t.column)).foldl
        (fun t x => termPutcharAt t (chr ' ') x t.row) t)
  | 'H' | 'f' => (ctx, termSetColumn (termSetRow t (arg 0 0)) (arg 1 0))
  | 'A' => (ctx, termSetRow t (u32Sub t.row (arg 0 0)))
  | 'B' => (ctx, termSetRow t (u32 (t.row + arg 0 0)))
  | 'C' => (ctx, termSetColumn t (u32 (t.column + arg 0 0)))
  | 'D' => (ctx, termSetColumn t (u32Sub t.column (arg 0 0)))
  | 'J' => (ctx, if arg 0 0 = 2 then termInit t else t)
  | 'm' => (ctx, (ctx.args.toList.take ctx.currentArg).foldl ansiGraphic t)
  | _ => (ctx, t)

/-! ## the interpreter -/

/-- `ansi_interpret_char`; `true` while in an escape sequence. -/
def ansiInterpretChar (ctx : AnsiContext) (t : Term) (c : BitVec 8) :
    Except Halt (Bool × AnsiContext × Term) :=
  match ctx.state with
  | .normal =>
      if c = chr '\x1B' then .ok (true, { ctx with state := .bracket }, t)
      else .ok (false, ctx, t)
  | .bracket =>
      if c = chr '[' then .ok (true, { ctx with state := .params }, t)
      else .ok (false, { ctx with state := .normal }, t)
  | .params =>
      if c = chr ';' then do
        let ctx ← ansiEndParam ctx
        return (true, { ctx with currentIndex := 0 }, t)
      else if isdigit c.toInt then
        if ctx.currentIndex ≥ ansiBufferSize then
          .ok (true, { ctx with currentArg := 0, currentIndex := 0, state := .normal }, t)
        else do
          let ctx ← ctx.storeBuf ctx.currentIndex c
          return (true, { ctx with currentIndex := u32 (ctx.currentIndex + 1) }, t)
      else if isalpha c.toInt then do
        let ctx ← ansiEndParam ctx
        let (ctx, t) := ansiCommand ctx t c
        return (true, { ctx with currentArg := 0, currentIndex := 0, state := .normal }, t)
      else .ok (true, ctx, t)

/-! ## its branches -/

/-- The branch that the interpreter takes. -/
inductive AnsiBranch (ctx : AnsiContext) (c : BitVec 8) : Prop where
  | escape (hs : ctx.state = .normal) (hc : c = chr '\x1B')
  | text (hs : ctx.state = .normal) (hc : c ≠ chr '\x1B')
  | opened (hs : ctx.state = .bracket) (hc : c = chr '[')
  | closed (hs : ctx.state = .bracket) (hc : c ≠ chr '[')
  | separator (hs : ctx.state = .params) (hc : c = chr ';')
  | overflow (hs : ctx.state = .params) (hc : isdigit c.toInt = true)
      (hfull : ansiBufferSize ≤ ctx.currentIndex)
  | digit (hs : ctx.state = .params) (hc : isdigit c.toInt = true)
      (hroom : ctx.currentIndex < ansiBufferSize)
  | letter (hs : ctx.state = .params) (hc : isalpha c.toInt = true)
  | skipped (hs : ctx.state = .params) (hsep : c ≠ chr ';') (hdigit : ¬ isdigit c.toInt = true)
      (halpha : ¬ isalpha c.toInt = true)

theorem ansiBranch (ctx : AnsiContext) (c : BitVec 8) : AnsiBranch ctx c := by
  cases hs : ctx.state with
  | normal =>
      by_cases hc : c = chr '\x1B'
      · exact .escape hs hc
      · exact .text hs hc
  | bracket =>
      by_cases hc : c = chr '['
      · exact .opened hs hc
      · exact .closed hs hc
  | params =>
      by_cases hsep : c = chr ';'
      · exact .separator hs hsep
      · by_cases hdigit : isdigit c.toInt = true
        · cases Nat.lt_or_ge ctx.currentIndex ansiBufferSize with
          | inl hroom => exact .digit hs hdigit hroom
          | inr hfull => exact .overflow hs hdigit hfull
        · by_cases halpha : isalpha c.toInt = true
          · exact .letter hs halpha
          · exact .skipped hs hsep hdigit halpha

section

variable {ctx : AnsiContext}

theorem ansiInterpretChar_escape (hs : ctx.state = .normal) (hc : c = chr '\x1B') (t : Term) :
    ansiInterpretChar ctx t c = .ok (true, { ctx with state := .bracket }, t) := by
  rw [ansiInterpretChar, hs]
  exact if_pos hc

/-- Outside of escape sequences the interpreter lets text through. -/
theorem ansiInterpretChar_of_normal (hs : ctx.state = .normal) (hc : c ≠ chr '\x1B') (t : Term) :
    ansiInterpretChar ctx t c = .ok (false, ctx, t) := by
  rw [ansiInterpretChar, hs]
  exact if_neg hc

theorem ansiInterpretChar_opened (hs : ctx.state = .bracket) (hc : c = chr '[') (t : Term) :
    ansiInterpretChar ctx t c = .ok (true, { ctx with state := .params }, t) := by
  rw [ansiInterpretChar, hs]
  exact if_pos hc

theorem ansiInterpretChar_closed (hs : ctx.state = .bracket) (hc : c ≠ chr '[') (t : Term) :
    ansiInterpretChar ctx t c = .ok (false, { ctx with state := .normal }, t) := by
  rw [ansiInterpretChar, hs]
  exact if_neg hc

theorem ansiInterpretChar_separator (hs : ctx.state = .params) (hc : c = chr ';') (t : Term) :
    ansiInterpretChar ctx t c = (do
      let ctx ← ansiEndParam ctx
      return (true, { ctx with currentIndex := 0 }, t)) := by
  rw [ansiInterpretChar, hs]
  exact if_pos hc

/-- A digit too many ends the sequence. -/
theorem ansiInterpretChar_overflow (hs : ctx.state = .params) (hc : isdigit c.toInt = true)
    (hfull : ansiBufferSize ≤ ctx.currentIndex) (t : Term) :
    ansiInterpretChar ctx t c =
      .ok (true, { ctx with currentArg := 0, currentIndex := 0, state := .normal }, t) := by
  have hsep : c ≠ chr ';' := ne_of_class hc (by decide)
  rw [ansiInterpretChar, hs]
  dsimp only
  rw [if_neg hsep, if_pos hc, if_pos hfull]

theorem ansiInterpretChar_digit (hs : ctx.state = .params) (hc : isdigit c.toInt = true)
    (hroom : ctx.currentIndex < ansiBufferSize) (t : Term) :
    ansiInterpretChar ctx t c = .ok (true, { ctx with
      buf := ctx.buf.set ctx.currentIndex c hroom
      currentIndex := ctx.currentIndex + 1 }, t) := by
  have hsep : c ≠ chr ';' := ne_of_class hc (by decide)
  have hnext : u32 (ctx.currentIndex + 1) = ctx.currentIndex + 1 :=
    u32_of_lt (by unfold ansiBufferSize at hroom; omega)
  rw [ansiInterpretChar, hs]
  dsimp only
  rw [if_neg hsep, if_pos hc, if_neg (Nat.not_le.mpr hroom), AnsiContext.storeBuf, dif_pos hroom]
  simp only [bind, Except.bind, pure, Except.pure, hnext, hs]

theorem ansiInterpretChar_letter (hs : ctx.state = .params) (hc : isalpha c.toInt = true) (t : Term) :
    ansiInterpretChar ctx t c = (do
      let ctx ← ansiEndParam ctx
      return (true, { (ansiCommand ctx t c).1 with
        currentArg := 0, currentIndex := 0, state := .normal }, (ansiCommand ctx t c).2)) := by
  have hsep : c ≠ chr ';' := ne_of_class hc (by decide)
  have hdigit : ¬ isdigit c.toInt = true := fun hd => by
    rw [isalpha_of_isdigit hd] at hc
    contradiction
  rw [ansiInterpretChar, hs]
  dsimp only
  rw [if_neg hsep, if_neg hdigit, if_pos hc]

theorem ansiInterpretChar_skipped (hs : ctx.state = .params) (hsep : c ≠ chr ';')
    (hdigit : ¬ isdigit c.toInt = true) (halpha : ¬ isalpha c.toInt = true) (t : Term) :
    ansiInterpretChar ctx t c = .ok (true, ctx, t) := by
  rw [ansiInterpretChar, hs]
  dsimp only
  rw [if_neg hsep, if_neg hdigit, if_neg halpha]

end

end NimbleOS
