import NimbleOS.Libc.Atoi
import NimbleOS.Tty.Render

/-!
# NimbleOS.Tty.Sequence

Complete escape sequences.  `Collecting` describes the interpreter's context within
a sequence, by the values of the parameters that have ended and by the digits of the
open one; `ansiFeed_sequence` is what a whole sequence does: the command of its
letter, with the values of its parameters.  `termWrite_sequence` says the same of the
terminal, where each character also passes through the wrap test.
-/

namespace NimbleOS

/-- The interpreter is fed one character after the other; the flag says whether all of
them belonged to a sequence. -/
def ansiFeed (ctx : AnsiContext) (t : Term) : List (BitVec 8) →
    Except Halt (Bool × AnsiContext × Term)
  | [] => .ok (true, ctx, t)
  | c :: text => do
      let (escaped, ctx, t) ← ansiInterpretChar ctx t c
      let (rest, ctx, t) ← ansiFeed ctx t text
      return (escaped && rest, ctx, t)

/-- `ESC [ param ; param … letter`. -/
def escapeSequence (params : List (List (BitVec 8))) (letter : BitVec 8) : List (BitVec 8) :=
  chr '\x1B' :: chr '[' :: ([chr ';'].intercalate params ++ [letter])

/-- The value of a parameter's text. -/
def paramValue (ds : List (BitVec 8)) : Nat := (atoi ds).toNat

/-- Digits that fit in `buf` with their NUL. -/
structure IsParam (ds : List (BitVec 8)) : Prop where
  digits : ∀ c ∈ ds, isdigit c.toInt = true
  room : ds.length < ansiBufferSize

theorem ansiFeed_cons (h : ansiInterpretChar ctx t c = .ok (true, ctx', t')) :
    ansiFeed ctx t (c :: text) = ansiFeed ctx' t' text := by
  rw [ansiFeed, h]
  simp only [bind, Except.bind, Bool.true_and, pure, Except.pure]
  cases ansiFeed ctx' t' text <;> rfl

/-- A text that is taken whole is taken character by character. -/
theorem ansiFeed_cons_of_ok (h : ansiFeed ctx t (c :: text) = .ok (true, ctx', t')) :
    ∃ ctx₁ t₁, ansiInterpretChar ctx t c = .ok (true, ctx₁, t₁) ∧
      ansiFeed ctx₁ t₁ text = .ok (true, ctx', t') := by
  rw [ansiFeed] at h
  obtain ⟨⟨escaped, ctx₁, t₁⟩, hc, h⟩ := bind_eq_ok.mp h
  obtain ⟨⟨rest, ctx₂, t₂⟩, htext, h⟩ := bind_eq_ok.mp h
  simp only [pure, Except.pure, Except.ok.injEq, Prod.mk.injEq, Bool.and_eq_true] at h
  obtain ⟨⟨rfl, rfl⟩, rfl, rfl⟩ := h
  exact ⟨ctx₁, t₁, hc, htext⟩

theorem ansiFeed_append (h : ansiFeed ctx t text = .ok (true, ctx', t')) (more : List (BitVec 8)) :
    ansiFeed ctx t (text ++ more) = ansiFeed ctx' t' more := by
  induction text generalizing ctx t with
  | nil =>
      obtain ⟨-, rfl, rfl⟩ : true = true ∧ ctx = ctx' ∧ t = t' := by
        simpa [ansiFeed] using h
      rfl
  | cons c text ih =>
      obtain ⟨ctx₁, t₁, hc, htext⟩ := ansiFeed_cons_of_ok h
      rw [List.cons_append, ansiFeed_cons hc, ih htext]

/-! ## within a sequence -/

/-- Behind `ESC [`, parameters with the values `vs` have ended and `ds` are the
digits of the next one; behind the values are the arguments of earlier sequences. -/
structure Collecting (ctx₀ ctx : AnsiContext) (vs : List Nat) (ds : List (BitVec 8)) : Prop where
  state : ctx.state = .params
  index : ctx.currentIndex = ds.length
  arg : ctx.currentArg = vs.length
  buf : ds <+: ctx.buf.toList
  args : ctx.args.toList = vs ++ ctx₀.args.toList.drop vs.length
  savedRow : ctx.savedRow = ctx₀.savedRow
  savedCol : ctx.savedCol = ctx₀.savedCol

/-- The store of one element behind a prefix that leaves room. -/
theorem prefix_set {xs ys : List α} (h : xs <+: ys) (hlen : xs.length < ys.length) (a : α) :
    ∃ rest, ys.set xs.length a = xs ++ a :: rest := by
  obtain ⟨zs, rfl⟩ := h
  cases zs with
  | nil => simp at hlen
  | cons z zs => exact ⟨zs, by simp⟩

/-- One more digit. -/
theorem Collecting.digit (h : Collecting ctx₀ ctx vs ds) (hc : isdigit c.toInt = true)
    (hroom : ds.length < ansiBufferSize) (t : Term) :
    ∃ ctx', ansiInterpretChar ctx t c = .ok (true, ctx', t) ∧
      Collecting ctx₀ ctx' vs (ds ++ [c]) := by
  have hlen : ds.length < ctx.buf.toList.length := by rwa [Vector.length_toList]
  obtain ⟨rest, hset⟩ := prefix_set h.buf hlen c
  refine ⟨_, ansiInterpretChar_digit h.state hc (h.index ▸ hroom) t,
    { state := h.state
      index := ?_
      arg := h.arg
      buf := ⟨rest, ?_⟩
      args := h.args
      savedRow := h.savedRow
      savedCol := h.savedCol }⟩
  · rw [List.length_append, List.length_singleton]
    exact congrArg (· + 1) h.index
  · rw [Vector.toList_set, h.index, hset, List.append_assoc, List.singleton_append]

/-- The digits of a parameter. -/
theorem Collecting.digits (h : Collecting ctx₀ ctx vs ds) (hp : IsParam (ds ++ more)) (t : Term) :
    ∃ ctx', ansiFeed ctx t more = .ok (true, ctx', t) ∧ Collecting ctx₀ ctx' vs (ds ++ more) := by
  induction more generalizing ctx ds with
  | nil => exact ⟨ctx, rfl, by rwa [List.append_nil]⟩
  | cons c more ih =>
      have hc : isdigit c.toInt = true := hp.digits c (by simp)
      have hroom : ds.length < ansiBufferSize := by
        have := hp.room
        rw [List.length_append] at this
        omega
      obtain ⟨ctx₁, hfeed, h₁⟩ := h.digit hc hroom t
      rw [List.append_cons] at hp
      obtain ⟨ctx', hfeed', h'⟩ := ih h₁ hp
      refine ⟨ctx', by rw [ansiFeed_cons hfeed, hfeed'], ?_⟩
      rwa [List.append_assoc, List.singleton_append] at h'

/-- The end of a parameter stores its value as the next argument. -/
theorem Collecting.endParam (h : Collecting ctx₀ ctx vs ds) (hp : IsParam ds)
    (hroom : vs.length < ansiBufferSize) :
    ∃ ctx', ansiEndParam ctx = .ok ctx' ∧ ctx'.state = .params ∧
      ctx'.currentArg = (vs ++ [paramValue ds]).length ∧
      ctx'.args.toList =
        (vs ++ [paramValue ds]) ++ ctx₀.args.toList.drop (vs ++ [paramValue ds]).length ∧
      ctx'.savedRow = ctx₀.savedRow ∧ ctx'.savedCol = ctx₀.savedCol := by
  have hlen : ds.length < ctx.buf.toList.length := by
    rw [Vector.length_toList]
    exact hp.room
  obtain ⟨rest, hset⟩ := prefix_set h.buf hlen 0
  have hold : vs.length < ctx₀.args.toList.length := by rwa [Vector.length_toList]
  have hcount : u32 (vs.length + 1) = (vs ++ [paramValue ds]).length := by
    rw [List.length_append, List.length_singleton, u32_of_lt]
    unfold ansiBufferSize at hroom
    omega
  simp only [ansiEndParam, AnsiContext.storeBuf, h.index, dif_pos hp.room, bind, Except.bind,
    AnsiContext.storeArg, h.arg, dif_pos hroom, pure, Except.pure, Vector.toList_set, hset,
    atoi_append_nul hp.digits]
  refine ⟨_, rfl, h.state, hcount, ?_, h.savedRow, h.savedCol⟩
  rw [Vector.toList_set, h.args, List.set_append_right _ _ (Nat.le_refl _), Nat.sub_self,
    List.drop_eq_getElem_cons hold, List.set_cons_zero, List.length_append, List.length_singleton,
    List.append_assoc]
  rfl

/-- The end of a parameter at `;`. -/
theorem Collecting.separator (h : Collecting ctx₀ ctx vs ds) (hp : IsParam ds)
    (hroom : vs.length < ansiBufferSize) (t : Term) :
    ∃ ctx', ansiInterpretChar ctx t (chr ';') = .ok (true, ctx', t) ∧
      Collecting ctx₀ ctx' (vs ++ [paramValue ds]) [] := by
  obtain ⟨ctx', hend, hstate, harg, hargs, hrow, hcol⟩ := h.endParam hp hroom
  rw [ansiInterpretChar_separator h.state rfl, hend]
  exact ⟨_, rfl,
    { state := hstate
      index := rfl
      arg := harg
      buf := List.nil_prefix
      args := hargs
      savedRow := hrow
      savedCol := hcol }⟩

/-- All parameters, the last one still open. -/
theorem Collecting.params (h : Collecting ctx₀ ctx vs []) (hp : ∀ ds ∈ init ++ [last], IsParam ds)
    (hroom : vs.length + init.length < ansiBufferSize) (t : Term) :
    ∃ ctx', ansiFeed ctx t ([chr ';'].intercalate (init ++ [last])) = .ok (true, ctx', t) ∧
      Collecting ctx₀ ctx' (vs ++ init.map paramValue) last := by
  induction init generalizing ctx vs with
  | nil =>
      obtain ⟨ctx', hfeed, h'⟩ := h.digits (show IsParam ([] ++ last) from hp last (by simp)) t
      refine ⟨ctx', ?_, ?_⟩
      · rwa [List.nil_append, List.intercalate_singleton]
      · rwa [List.map_nil, List.append_nil]
  | cons ds init ih =>
      obtain ⟨hds, hinit⟩ := List.forall_mem_cons.mp hp
      rw [List.length_cons] at hroom
      obtain ⟨ctx₁, hfeed₁, h₁⟩ := h.digits (show IsParam ([] ++ ds) from hds) t
      obtain ⟨ctx₂, hfeed₂, h₂⟩ := h₁.separator hds (by omega) t
      obtain ⟨ctx', hfeed', h'⟩ := ih h₂ hinit (by rw [List.length_append, List.length_singleton]; omega)
      refine ⟨ctx', ?_, ?_⟩
      · rw [List.cons_append, List.intercalate_cons_of_ne_nil (by simp), List.append_assoc,
          ansiFeed_append hfeed₁ _, List.singleton_append, ansiFeed_cons hfeed₂, hfeed']
      · rwa [List.map_cons, List.append_cons]

/-- The letter ends the last parameter and executes its command. -/
theorem Collecting.letter (h : Collecting ctx₀ ctx vs ds) (hp : IsParam ds)
    (hroom : vs.length < ansiBufferSize) (hc : isalpha c.toInt = true) (t : Term) :
    ∃ ctx', ctx'.args.toList =
        (vs ++ [paramValue ds]) ++ ctx₀.args.toList.drop (vs ++ [paramValue ds]).length ∧
      ctx'.currentArg = (vs ++ [paramValue ds]).length ∧
      ctx'.savedRow = ctx₀.savedRow ∧ ctx'.savedCol = ctx₀.savedCol ∧
      ansiInterpretChar ctx t c =
        .ok (true,
          { (ansiCommand ctx' t c).1 with currentArg := 0, currentIndex := 0, state := .normal },
          (ansiCommand ctx' t c).2) := by
  obtain ⟨ctx', hend, -, harg, hargs, hrow, hcol⟩ := h.endParam hp hroom
  refine ⟨ctx', hargs, harg, hrow, hcol, ?_⟩
  rw [ansiInterpretChar_letter h.state hc, hend]
  rfl

/-! ## whole sequences -/

/-- The interpreter is not in a sequence. -/
structure AnsiContext.Idle (ctx : AnsiContext) : Prop where
  state : ctx.state = .normal
  index : ctx.currentIndex = 0
  arg : ctx.currentArg = 0

/-- The start of a sequence. -/
theorem ansiFeed_open (h : AnsiContext.Idle ctx) (t : Term) :
    ∃ ctx', ansiFeed ctx t [chr '\x1B', chr '['] = .ok (true, ctx', t) ∧
      Collecting ctx ctx' [] [] := by
  have hescape := ansiInterpretChar_escape h.state rfl t
  have hopened : ansiInterpretChar { ctx with state := .bracket } t (chr '[') =
      .ok (true, { ctx with state := .params }, t) := ansiInterpretChar_opened rfl rfl t
  refine ⟨{ ctx with state := .params }, ?_,
    { state := rfl
      index := h.index
      arg := h.arg
      buf := List.nil_prefix
      args := rfl
      savedRow := rfl
      savedCol := rfl }⟩
  rw [ansiFeed_cons hescape, ansiFeed_cons hopened, ansiFeed]

/-- The text of a sequence up to its letter: its values are collected. -/
theorem ansiFeed_params (h : AnsiContext.Idle ctx) (hp : ∀ ds ∈ init ++ [last], IsParam ds)
    (hroom : init.length < ansiBufferSize) (t : Term) :
    ∃ ctx', ansiFeed ctx t (chr '\x1B' :: chr '[' :: [chr ';'].intercalate (init ++ [last])) =
        .ok (true, ctx', t) ∧
      Collecting ctx ctx' (init.map paramValue) last := by
  obtain ⟨ctx₁, hopen, h₁⟩ := ansiFeed_open h t
  obtain ⟨ctx', hfeed, h'⟩ := h₁.params hp (by rw [List.length_nil]; omega) t
  refine ⟨ctx', ?_, h'⟩
  have happend := ansiFeed_append hopen ([chr ';'].intercalate (init ++ [last]))
  rw [← hfeed, ← happend]
  rfl

/-- **Complete sequences**: the command of the letter is executed, with the values of
the parameters as the first arguments, and the interpreter is idle again. -/
theorem ansiFeed_sequence (h : AnsiContext.Idle ctx) (hp : ∀ ds ∈ init ++ [last], IsParam ds)
    (hroom : init.length < ansiBufferSize) (hc : isalpha c.toInt = true) (t : Term) :
    ∃ ctx', ctx'.args.toList =
        (init ++ [last]).map paramValue ++ ctx.args.toList.drop (init ++ [last]).length ∧
      ctx'.currentArg = (init ++ [last]).length ∧
      ctx'.savedRow = ctx.savedRow ∧ ctx'.savedCol = ctx.savedCol ∧
      ansiFeed ctx t (escapeSequence (init ++ [last]) c) =
        .ok (true,
          { (ansiCommand ctx' t c).1 with currentArg := 0, currentIndex := 0, state := .normal },
          (ansiCommand ctx' t c).2) := by
  obtain ⟨ctx₁, hfeed, h₁⟩ := ansiFeed_params h hp hroom t
  have hlen : (init.map paramValue).length < ansiBufferSize := by rwa [List.length_map]
  obtain ⟨ctx', hargs, harg, hrow, hcol, hletter⟩ := h₁.letter (hp last (by simp)) hlen hc t
  refine ⟨ctx', ?_, ?_, hrow, hcol, ?_⟩
  · simpa using hargs
  · simpa using harg
  · have happend := ansiFeed_append hfeed [c]
    rw [ansiFeed_cons hletter] at happend
    exact happend

theorem paramValue_eq_decimal (h : IsParam ds) : paramValue ds = decimal ds % 2 ^ 32 := by
  rw [paramValue, atoi_eq_decimal h.digits, BitVec.toNat_ofNat]

/-- **Every sequence is understood**: from the idle state, 1 to 32 parameters of at most
31 digits each and a letter make the interpreter execute the command of the letter with
the numbers that the parameters denote, `m` with each of them in order, and leave it
idle.  All the characters are taken as part of the sequence. -/
theorem ansi_sequence_understood {ctx : AnsiContext} (h : ctx.Idle)
    (params : List (List (BitVec 8))) (hpos : 1 ≤ params.length) (hle : params.length ≤ 32)
    (hparams : ∀ ds ∈ params,
      (∀ c ∈ ds, isdigit c.toInt = true) ∧ ds.length ≤ 31 ∧ decimal ds < 2 ^ 31)
    (hc : isalpha c.toInt = true) (t : Term) :
    ∃ d ctx', ansiFeed ctx t (escapeSequence params c) = .ok (true, ctx', (ansiCommand d t c).2) ∧
      ctx' = { (ansiCommand d t c).1 with currentArg := 0, currentIndex := 0, state := .normal } ∧
      ctx'.Idle ∧ d.args.toList.take params.length = params.map decimal ∧
      d.currentArg = params.length ∧ d.savedRow = ctx.savedRow ∧ d.savedCol = ctx.savedCol ∧
      (c = chr 'm' → (ansiCommand d t c).2 = (params.map decimal).foldl ansiGraphic t) := by
  have hne : params ≠ [] := List.ne_nil_of_length_pos hpos
  have hsplit : params.dropLast ++ [params.getLast hne] = params := List.dropLast_concat_getLast hne
  have hisparam : ∀ ds ∈ params, IsParam ds := fun ds hds =>
    ⟨(hparams ds hds).1, Nat.lt_succ_of_le (hparams ds hds).2.1⟩
  have hvalues : params.map paramValue = params.map decimal :=
    List.map_congr_left fun ds hds => by
      rw [paramValue_eq_decimal (hisparam ds hds), Nat.mod_eq_of_lt]
      exact Nat.lt_trans (hparams ds hds).2.2 (by decide)
  have hroom : params.dropLast.length < ansiBufferSize := by
    rw [List.length_dropLast]
    unfold ansiBufferSize
    omega
  obtain ⟨d, hargs, harg, hrow, hcol, hfeed⟩ :=
    ansiFeed_sequence h (by rwa [hsplit]) hroom hc t
  rw [hsplit] at hargs harg hfeed
  have htake : d.args.toList.take params.length = params.map decimal := by
    rw [hargs, hvalues]
    exact List.take_left' (List.length_map _)
  refine ⟨d, _, hfeed, rfl, ⟨rfl, rfl, rfl⟩, htake, harg, hrow, hcol, ?_⟩
  rintro rfl
  change (d.args.toList.take d.currentArg).foldl ansiGraphic t = _
  rw [harg, htake]

/-- Blinking text on red: the parameters 05 and 41. -/
theorem ansi_sequence_understood_red :
    ∃ ctx', ansiFeed .zeroed Tty.start.term
        (escapeSequence [[chr '0', chr '5'], [chr '4', chr '1']] (chr 'm')) =
          .ok (true, ctx', [5, 41].foldl ansiGraphic Tty.start.term) ∧ ctx'.Idle := by
  obtain ⟨d, ctx', hfeed, -, hidle, -, -, -, -, hm⟩ :=
    ansi_sequence_understood (h := (⟨rfl, rfl, rfl⟩ : AnsiContext.zeroed.Idle))
      [[chr '0', chr '5'], [chr '4', chr '1']] (by decide) (by decide) (by decide)
      (by decide : isalpha (chr 'm').toInt = true) Tty.start.term
  have hvalues : [[chr '0', chr '5'], [chr '4', chr '1']].map decimal = [5, 41] := by decide
  rw [hm rfl, hvalues] at hfeed
  exact ⟨ctx', hfeed, hidle⟩

/-! ## sequences on the terminal -/

/-- The cursor is on the screen. -/
structure Term.OnScreen (t : Term) : Prop where
  row : t.row < vgaHeight
  column : t.column < vgaWidth

/-- A character that moves nothing before it is looked at. -/
structure IsQuiet (c : BitVec 8) : Prop where
  newline : ¬ (c = chr '\n' ∨ c = chr '\r')
  tab : c ≠ chr '\t'

theorem termAdvance_of_onScreen {t : Term} (h : t.OnScreen) (hc : IsQuiet c) :
    termAdvance t c = t := by
  unfold termAdvance
  simp only [if_neg hc.newline, if_neg hc.tab]
  rw [if_neg (Nat.not_le.mpr h.column), if_neg (Nat.not_le.mpr h.row)]

/-- Behind the last column, any other character opens a new row first. -/
theorem termAdvance_of_full {t : Term} (h : vgaWidth ≤ t.column) (hc : IsQuiet c) :
    termAdvance t c = termNewRow t := by
  unfold termAdvance termNewRow
  simp only [if_neg hc.newline, if_neg hc.tab, if_pos (show t.column ≥ vgaWidth from h)]

/-- A class without line breaks and tabs. -/
theorem isQuiet_of_class {p : Int → Bool} (h : p c.toInt = true) (hline : p (chr '\n').toInt = false)
    (hreturn : p (chr '\r').toInt = false) (htab : p (chr '\t').toInt = false) : IsQuiet c :=
  ⟨not_or.mpr ⟨ne_of_class h hline, ne_of_class h hreturn⟩, ne_of_class h htab⟩

theorem isQuiet_of_isdigit (h : isdigit c.toInt = true) : IsQuiet c :=
  isQuiet_of_class h (by decide) (by decide) (by decide)

theorem isQuiet_of_isalpha (h : isalpha c.toInt = true) : IsQuiet c :=
  isQuiet_of_class h (by decide) (by decide) (by decide)

/-- Only a letter lets the interpreter touch the terminal. -/
theorem ansiInterpretChar_term (hc : ¬ isalpha c.toInt = true)
    (h : ansiInterpretChar ctx t c = .ok (escaped, ctx', t')) : t' = t := by
  have hterm : ∀ {e d u}, ansiInterpretChar ctx t c = .ok (e, d, u) → t' = u := fun hans =>
    congrArg (fun r => r.2.2) (Except.ok.inj (h.symm.trans hans))
  cases ansiBranch ctx c with
  | escape hs hc => exact hterm (ansiInterpretChar_escape hs hc t)
  | text hs hc => exact hterm (ansiInterpretChar_of_normal hs hc t)
  | opened hs hc => exact hterm (ansiInterpretChar_opened hs hc t)
  | closed hs hc => exact hterm (ansiInterpretChar_closed hs hc t)
  | separator hs hsep =>
      rw [ansiInterpretChar_separator hs hsep] at h
      obtain ⟨ctx₁, -, h⟩ := bind_eq_ok.mp h
      cases h
      rfl
  | overflow hs hdigit hfull => exact hterm (ansiInterpretChar_overflow hs hdigit hfull t)
  | digit hs hdigit hroom => exact hterm (ansiInterpretChar_digit hs hdigit hroom t)
  | letter hs halpha => exact absurd halpha hc
  | skipped hs hsep hdigit halpha =>
      exact hterm (ansiInterpretChar_skipped hs hsep hdigit halpha t)

theorem termPutchar_of_escaped {s : Tty} (hs : s.term.OnScreen) (hc : IsQuiet c)
    (h : ansiInterpretChar s.ctx s.term c = .ok (true, ctx', t')) :
    termPutchar s c = .ok { ctx := ctx', term := t' } := by
  rw [← termAdvance_of_onScreen hs hc] at h
  rw [termPutchar_of_interpret h]
  rfl

theorem termWrite_cons (h : termPutchar s c = .ok s') :
    termWrite s (c :: text) = termWrite s' text := by
  rw [termWrite, List.foldlM_cons, h]
  rfl

theorem termWrite_append (h : termWrite s text = .ok s') (more : List (BitVec 8)) :
    termWrite s (text ++ more) = termWrite s' more := by
  rw [termWrite, List.foldlM_append, ← termWrite, h]
  rfl

/-- The part of a sequence before its letter leaves the terminal alone. -/
theorem termWrite_of_ansiFeed {s : Tty} (hs : s.term.OnScreen)
    (hc : ∀ c ∈ text, IsQuiet c ∧ ¬ isalpha c.toInt = true)
    (h : ansiFeed s.ctx s.term text = .ok (true, ctx', t')) :
    termWrite s text = .ok { ctx := ctx', term := s.term } := by
  induction text generalizing s with
  | nil =>
      simp only [ansiFeed, Except.ok.injEq, Prod.mk.injEq] at h
      obtain ⟨-, rfl, -⟩ := h
      rfl
  | cons c text ih =>
      obtain ⟨⟨hquiet, halpha⟩, htext⟩ := List.forall_mem_cons.mp hc
      obtain ⟨ctx₁, t₁, hfirst, hrest⟩ := ansiFeed_cons_of_ok h
      have hterm := ansiInterpretChar_term halpha hfirst
      subst hterm
      rw [termWrite_cons (termPutchar_of_escaped hs hquiet hfirst)]
      exact ih (s := { ctx := ctx₁, term := s.term }) hs htext hrest

theorem mem_intercalate_singleton {params : List (List α)} (h : c ∈ [sep].intercalate params) :
    c = sep ∨ ∃ ds ∈ params, c ∈ ds := by
  induction params with
  | nil => cases h
  | cons ds params ih =>
      by_cases hnil : params = []
      · subst hnil
        rw [List.intercalate_singleton] at h
        exact .inr ⟨ds, by simp, h⟩
      · rw [List.intercalate_cons_of_ne_nil hnil, List.mem_append, List.mem_append,
          List.mem_singleton] at h
        obtain (hds | hsep) | hrest := h
        · exact .inr ⟨ds, by simp, hds⟩
        · exact .inl hsep
        · obtain hsep | ⟨ds', hmem, hc⟩ := ih hrest
          · exact .inl hsep
          · exact .inr ⟨ds', List.mem_cons_of_mem _ hmem, hc⟩

/-- Before its letter a sequence has no letters, and no characters that move the cursor. -/
theorem isQuiet_of_mem_params (hp : ∀ ds ∈ params, IsParam ds)
    (h : c ∈ chr '\x1B' :: chr '[' :: [chr ';'].intercalate params) :
    IsQuiet c ∧ ¬ isalpha c.toInt = true := by
  have hfixed : ∀ d ∈ [chr '\x1B', chr '[', chr ';'],
      (¬ (d = chr '\n' ∨ d = chr '\r') ∧ d ≠ chr '\t') ∧ ¬ isalpha d.toInt = true := by decide
  have hof : c ∈ [chr '\x1B', chr '[', chr ';'] → IsQuiet c ∧ ¬ isalpha c.toInt = true :=
    fun hmem => ⟨⟨(hfixed c hmem).1.1, (hfixed c hmem).1.2⟩, (hfixed c hmem).2⟩
  obtain rfl | rfl | h := by simpa only [List.mem_cons] using h
  · exact hof (by simp)
  · exact hof (by simp)
  · obtain rfl | ⟨ds, hds, hmem⟩ := mem_intercalate_singleton h
    · exact hof (by simp)
    · have hdigit := (hp ds hds).digits c hmem
      exact ⟨isQuiet_of_isdigit hdigit, by rw [isalpha_of_isdigit hdigit]; exact Bool.false_ne_true⟩

/-- **A complete sequence on the terminal**: the command of its letter is executed on
the terminal, and nothing else happens to it. -/
theorem termWrite_sequence {s : Tty} (hidle : s.ctx.Idle) (hs : s.term.OnScreen)
    (hp : ∀ ds ∈ init ++ [last], IsParam ds) (hroom : init.length < ansiBufferSize)
    (hc : isalpha c.toInt = true) :
    ∃ ctx', ctx'.args.toList =
        (init ++ [last]).map paramValue ++ s.ctx.args.toList.drop (init ++ [last]).length ∧
      ctx'.currentArg = (init ++ [last]).length ∧
      ctx'.savedRow = s.ctx.savedRow ∧ ctx'.savedCol = s.ctx.savedCol ∧
      termWrite s (escapeSequence (init ++ [last]) c) =
        .ok
          { ctx := { (ansiCommand ctx' s.term c).1 with
              currentArg := 0, currentIndex := 0, state := .normal }
            term := (ansiCommand ctx' s.term c).2 } := by
  obtain ⟨ctx₁, hfeed, h₁⟩ := ansiFeed_params hidle hp hroom s.term
  have hlen : (init.map paramValue).length < ansiBufferSize := by rwa [List.length_map]
  obtain ⟨ctx', hargs, harg, hrow, hcol, hletter⟩ :=
    h₁.letter (hp last (by simp)) hlen hc s.term
  have hbefore := termWrite_of_ansiFeed hs (fun c hmem => isQuiet_of_mem_params hp hmem) hfeed
  have hput : termPutchar { ctx := ctx₁, term := s.term } c = _ :=
    termPutchar_of_escaped hs (isQuiet_of_isalpha hc) hletter
  refine ⟨ctx', by simpa using hargs, by simpa using harg, hrow, hcol, ?_⟩
  have happend := termWrite_append hbefore [c]
  rw [termWrite_cons hput] at happend
  exact happend

end NimbleOS
