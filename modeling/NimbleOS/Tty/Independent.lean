import NimbleOS.Lib.Stream
import NimbleOS.Tty.Arguments
import NimbleOS.Tty.Redraw

/-!
# NimbleOS.Tty.Independent

Whether a stream depends on what has been written before it.  Two terminals that show
the same are given the same bytes; they go on showing the same as long as no `H` or `f`
with a single parameter looks at the second argument, which is then one of an earlier
sequence.
-/

namespace NimbleOS

/-! ## the second argument -/

/-- The character ends the second parameter of its sequence. -/
def Pending.EndsSecond (p : Pending) (c : BitVec 8) : Prop :=
  ∃ w, p = .params w ∧ IsEnd c ∧ endedParams w = 1

/-- The character is an `H` or `f` whose sequence has a single parameter. -/
def Pending.ReadsSecond (p : Pending) (c : BitVec 8) : Prop :=
  ∃ w, p = .params w ∧ endedParams w = 0 ∧ (c = chr 'H' ∨ c = chr 'f')

def AnsiContext.second (ctx : AnsiContext) : Nat := ctx.args.toList.getD 1 0

/-- A parameter that ends stores the second argument, or leaves it alone. -/
theorem WithArgs.second {ctx d : AnsiContext} (h : WithArgs ctx d (vs ++ [v]))
    (hvs : ctx.args.toList.take vs.length = vs) :
    d.second = if vs.length = 1 then v else ctx.second := by
  rw [AnsiContext.second, h.args]
  match vs with
  | [] =>
      cases hargs : ctx.args.toList with
      | nil => simp [AnsiContext.second, hargs]
      | cons a as =>
          rw [AnsiContext.second, hargs]
          cases as <;> rfl
  | [a] => rfl
  | a :: b :: rest =>
      rw [if_neg (by simp), AnsiContext.second, ← List.take_append_drop (a :: b :: rest).length
        ctx.args.toList, hvs]
      rfl

/-- The second argument after a character: the value of the parameter that has ended, or
the one before. -/
theorem ansiInterpretChar_second {p : Pending} (h : p.Reads ctx) (hr : p.Room c)
    (hans : ansiInterpretChar ctx t c = .ok (escaped, ctx', t')) :
    (∀ w, p = .params w → IsEnd c → endedParams w = 1 →
        ctx'.second = paramValue (scanParams w).2) ∧
      (¬ p.EndsSecond c → ctx'.second = ctx.second) := by
  cases p with
  | none =>
      refine ⟨fun w heq => (by cases heq), fun _ => ?_⟩
      by_cases hc : c = chr '\x1B'
      · rw [ansiInterpretChar_escape h.describes.1 hc] at hans
        cases hans
        rfl
      · rw [ansiInterpretChar_of_normal h.describes.1 hc] at hans
        cases hans
        rfl
  | escape =>
      refine ⟨fun w heq => (by cases heq), fun _ => ?_⟩
      by_cases hc : c = chr '['
      · rw [ansiInterpretChar_opened h.describes.1 hc] at hans
        cases hans
        rfl
      · rw [ansiInterpretChar_closed h.describes.1 hc] at hans
        cases hans
        rfl
  | params w =>
      have hlen := (scanParams_length w).1
      by_cases hend : IsEnd c
      · obtain ⟨hi, ha⟩ := hr hend
        obtain ⟨d, hd, -, hargs⟩ := h.endParam hi ha
        obtain ⟨-, -, harg, -⟩ := h.describes
        have htake : ctx.args.toList.take (scanParams w).1.length = (scanParams w).1 := by
          rw [hlen, ← harg]
          exact (h.collected w rfl).1
        have hsecond := hargs.second htake
        have hctx : ctx'.second = d.second := by
          cases hend with
          | inl hsep =>
              rw [ansiInterpretChar_separator h.describes.1 hsep, hd] at hans
              cases hans
              rfl
          | inr halpha =>
              rw [ansiInterpretChar_letter h.describes.1 halpha, hd] at hans
              cases hans
              exact congrArg (fun v => v.toList.getD 1 0) (ansiCommand_context d t c).2
        rw [hctx, hsecond, hlen]
        refine ⟨fun w' heq _ hone => ?_, fun hnot => ?_⟩
        · obtain rfl : w = w' := Pending.params.inj heq
          rw [if_pos hone]
        · rw [if_neg fun hone => hnot ⟨w, rfl, hend, hone⟩]
      · refine ⟨fun _ _ he => absurd he hend, fun _ => ?_⟩
        obtain ⟨hsep, halpha⟩ := not_or.mp hend
        have hstate := h.describes.1
        by_cases hdigit : isdigit c.toInt = true
        · cases Nat.lt_or_ge ctx.currentIndex ansiBufferSize with
          | inl hroom =>
              rw [ansiInterpretChar_digit hstate hdigit hroom] at hans
              cases hans
              rfl
          | inr hfull =>
              rw [ansiInterpretChar_overflow hstate hdigit hfull] at hans
              cases hans
              rfl
        · rw [ansiInterpretChar_skipped hstate hsep hdigit halpha] at hans
          cases hans
          rfl

/-! ## the saved cursor -/

structure SameSaved (ctx ctx' : AnsiContext) : Prop where
  row : ctx'.savedRow = ctx.savedRow
  column : ctx'.savedCol = ctx.savedCol

/-- A command saves the cursor of the terminal, or leaves the saved one alone. -/
theorem ansiCommand_sameSaved {t u : Term} (hrow : u.row = t.row) (hcol : u.column = t.column)
    {d d' : AnsiContext} (h : SameSaved d d') (c : BitVec 8) :
    SameSaved (ansiCommand d t c).1 (ansiCommand d' u c).1 := by
  unfold ansiCommand
  dsimp only
  split
  · exact ⟨hrow, hcol⟩
  all_goals exact h

theorem ansiInterpretChar_sameSaved {p : Pending} {t u : Term} (hrow : u.row = t.row)
    (hcol : u.column = t.column) (h : SameSaved ctx ctx')
    (heffect : p.Effect c ctx t escaped d t') (heffect' : p.Effect c ctx' u escaped' d' u') :
    SameSaved d d' := by
  rw [Pending.Effect] at heffect heffect'
  cases hargs : p.arguments c with
  | none =>
      rw [hargs] at heffect heffect'
      exact ⟨by rw [heffect.savedRow, heffect'.savedRow, h.row],
        by rw [heffect.savedCol, heffect'.savedCol, h.column]⟩
  | some vs =>
      rw [hargs] at heffect heffect'
      obtain ⟨-, e, he, rfl, -⟩ := heffect
      obtain ⟨-, e', he', rfl, -⟩ := heffect'
      have hsaved : SameSaved e e' :=
        ⟨by rw [he.savedRow, he'.savedRow, h.row], by rw [he.savedCol, he'.savedCol, h.column]⟩
      have hafter := ansiCommand_sameSaved hrow hcol hsaved c
      exact ⟨hafter.row, hafter.column⟩

/-! ## two terminals -/

/-- Screen, cursor and colour are the same. -/
def SameShown (s : Tty × Tty) : Prop := SameTerm (fun _ _ => False) s.1.term s.2.term

/-- Two terminals that have received the same since their second arguments were `a` and
`b`; `seen` says that a second parameter has ended since. -/
structure TwoRuns (a b : Nat) (p : Pending × Bool) (s : Tty × Tty) : Prop where
  same : SameTty (fun _ _ => False) s.1 s.2
  saved : SameSaved s.1.ctx s.2.ctx
  reads : p.1.Reads s.1.ctx
  reads' : p.1.Reads s.2.ctx
  seen : p.2 = true → s.2.ctx.second = s.1.ctx.second
  kept : p.2 = false → s.1.ctx.second = a ∧ s.2.ctx.second = b

open Classical in
/-- The text, and whether it has ended a second parameter. -/
noncomputable def nextSeen (p : Pending × Bool) (c : BitVec 8) : Pending × Bool :=
  (p.1.next c, p.2 || decide (p.1.EndsSecond c))

theorem TwoRuns.agree (h : TwoRuns a b p s) (hab : a = b ∨ p.2 = true) :
    s.2.ctx.second = s.1.ctx.second := by
  cases hp : p.2 with
  | true => exact h.seen hp
  | false =>
      obtain ⟨hfirst, hsecond⟩ := h.kept hp
      rcases hab with hab | hab
      · rw [hfirst, hsecond, hab]
      · rw [hp] at hab
        cases hab

/-- What the byte needs: a second argument that is the same, if it reads one. -/
def ReadsSame (a b : Nat) (p : Pending × Bool) (c : BitVec 8) : Prop :=
  p.1.Room c ∧ (p.1.ReadsSecond c → a = b ∨ p.2 = true)

/-- A single parameter that has not ended yet. -/
theorem Pending.Reads.readsSecond {p : Pending} (h : p.Reads ctx) (hs : ctx.state = .params)
    (hc : c = chr 'H' ∨ c = chr 'f') (hfirst : ctx.currentArg = 0) : p.ReadsSecond c := by
  have hd := h.describes
  cases p with
  | none =>
      rw [hd.1] at hs
      cases hs
  | escape =>
      rw [hd.1] at hs
      cases hs
  | params w => exact ⟨w, rfl, hd.2.2.1.symm.trans hfirst, hc⟩

/-- **Step lemma**: a byte that has what it needs keeps the two terminals the same. -/
theorem TwoRuns.step (h : TwoRuns a b p s) (hc : ReadsSame a b p c) :
    ∃ s', Stream.both termPutchar s c = .ok s' ∧ TwoRuns a b (nextSeen p c) s' := by
  obtain ⟨s, u⟩ := s
  obtain ⟨hr, hsecond⟩ := hc
  obtain ⟨e, ctx₁, t₁, hans, hreads, heffect⟩ :=
    ansiInterpretChar_spec h.reads hr (termAdvance s.term c)
  obtain ⟨e', ctx₂, t₂, hans', hreads', heffect'⟩ :=
    ansiInterpretChar_spec h.reads' hr (termAdvance u.term c)
  have hadvance := h.same.term.advance c fun hfull x hx y hy _ =>
    (h.same.term.place c).cells x hx (y + 1) (by unfold vgaHeight at *; omega) id
  have hrel := termPutchar_same h.same (c := c)
    { scroll := fun _ x hx y hy _ =>
        (h.same.term.place c).cells x hx (y + 1) (by unfold vgaHeight at *; omega) id
      letter := fun hs =>
        { saved := fun _ => ⟨h.saved.row, h.saved.column⟩
          second := fun hc hfirst => h.agree (hsecond (h.reads.readsSecond hs hc hfirst)) } }
  have hput := termPutchar_of_interpret hans
  have hput' := termPutchar_of_interpret hans'
  rw [hput, hput'] at hrel
  cases hrel with
  | ok hsame =>
      have hboth := Stream.both_ok hput hput'
      obtain ⟨hends, hother⟩ := ansiInterpretChar_second h.reads hr hans
      obtain ⟨hends', hother'⟩ := ansiInterpretChar_second h.reads' hr hans'
      refine ⟨_, hboth,
        { same := hsame
          saved := ansiInterpretChar_sameSaved hadvance.row hadvance.column h.saved heffect heffect'
          reads := hreads
          reads' := hreads'
          seen := fun hseen => ?_
          kept := fun hnot => ?_ }⟩
      · by_cases hend : p.1.EndsSecond c
        · obtain ⟨w, hw, hc, hone⟩ := hend
          exact (hends' w hw hc hone).trans (hends w hw hc hone).symm
        · have hp : p.2 = true := by simpa [nextSeen, hend] using hseen
          exact (hother' hend).trans ((h.seen hp).trans (hother hend).symm)
      · have hboth : p.2 = false ∧ ¬ p.1.EndsSecond c := by simpa [nextSeen] using hnot
        obtain ⟨hp, hend⟩ := hboth
        obtain ⟨hfirst, hsecond⟩ := h.kept hp
        exact ⟨(hother hend).trans hfirst, (hother' hend).trans hsecond⟩

/-- An `H` or `f` with a single parameter moves the cursor to the second argument. -/
theorem termPutchar_column {p : Pending} {s s' : Tty} (h : p.Reads s.ctx) (hr : p.Room c)
    (hread : p.ReadsSecond c) (hput : termPutchar s c = .ok s') :
    s'.term.column = s.ctx.second := by
  obtain ⟨e, ctx', t', hput', -, heffect⟩ := termPutchar_spec h hr
  obtain rfl := Except.ok.inj (hput.symm.trans hput')
  obtain ⟨w, rfl, hnone, hc⟩ := hread
  have halpha : isalpha c.toInt = true := by rcases hc with rfl | rfl <;> decide
  have hvalues : (scanParams w).1 = [] := by
    rw [← List.length_eq_zero_iff, (scanParams_length w).1, hnone]
  rw [Pending.Effect, Pending.arguments, if_pos halpha, hvalues] at heffect
  obtain ⟨rfl, d, hd, -, rfl⟩ := heffect
  have hsecond : d.second = s.ctx.second := hd.second rfl
  rw [← hsecond]
  rcases hc with rfl | rfl
  · have hchar : Char.ofNat (chr 'H').toNat = 'H' := by decide
    simp only [Bool.true_or, if_true, ansiCommand, hchar]
    rfl
  · have hchar : Char.ofNat (chr 'f').toNat = 'f' := by decide
    simp only [Bool.true_or, if_true, ansiCommand, hchar]
    rfl

/-- A byte that reads two different second arguments shows it. -/
theorem TwoRuns.differs (h : TwoRuns a b p s) (hr : p.1.Room c) (hc : ¬ ReadsSame a b p c)
    (hboth : Stream.both termPutchar s c = .ok s') : ¬ SameShown s' := by
  intro hshown
  obtain ⟨hput, hput'⟩ := Stream.both_ok_iff.mp hboth
  refine hc ⟨hr, fun hread => ?_⟩
  by_contra hne
  obtain ⟨hab, hp⟩ := not_or.mp hne
  obtain ⟨hfirst, hsecond⟩ := h.kept (Bool.eq_false_iff.mpr hp)
  have hcol := hshown.column
  rw [termPutchar_column h.reads hr hread hput, termPutchar_column h.reads' hr hread hput', hfirst,
    hsecond] at hcol
  exact hab hcol.symm

/-! ## streams -/

/-- The stream has the same effect on both terminals: after each of its bytes they show
the same. -/
def SameEffect (s u : Tty) (bytes : List (BitVec 8)) : Prop :=
  ∀ pre, pre <+: bytes → ∃ s' u', termWrite s pre = .ok s' ∧ termWrite u pre = .ok u' ∧
    SameShown (s', u')

/-- A second parameter has ended before any `H` or `f` with a single one. -/
def SecondFirst (bytes : List (BitVec 8)) : Prop :=
  ∀ pre c post, bytes = pre ++ c :: post → (pending pre).ReadsSecond c →
    ∃ pre₁ d post₁, pre = pre₁ ++ d :: post₁ ∧ (pending pre₁).EndsSecond d

theorem sameEffect_iff_allPrefixes :
    SameEffect s u bytes ↔ Stream.AllPrefixes (Stream.both termPutchar) SameShown (s, u) bytes := by
  refine forall₂_congr fun pre _ => ⟨?_, ?_⟩
  · rintro ⟨s', u', hs, hu, hshown⟩
    exact ⟨(s', u'), Stream.foldlM_both_iff.mpr ⟨hs, hu⟩, hshown⟩
  · rintro ⟨p, hrun, hshown⟩
    obtain ⟨hs, hu⟩ := Stream.foldlM_both_iff.mp hrun
    exact ⟨p.1, p.2, hs, hu, hshown⟩

theorem foldl_nextSeen_fst (text : List (BitVec 8)) (p : Pending × Bool) :
    (text.foldl nextSeen p).1 = text.foldl .next p.1 := by
  induction text generalizing p with
  | nil => rfl
  | cons c text ih => exact ih (nextSeen p c)

/-- The flag says whether a second parameter has ended. -/
theorem foldl_nextSeen_snd (text : List (BitVec 8)) :
    (text.foldl nextSeen (.none, false)).2 = true ↔
      ∃ pre d post, text = pre ++ d :: post ∧ (pending pre).EndsSecond d := by
  induction text using List.reverseRecOn with
  | nil => simp
  | append_singleton text c ih =>
      have hpending : (text.foldl nextSeen (.none, false)).1 = pending text :=
        foldl_nextSeen_fst text _
      rw [List.foldl_append, List.foldl_cons, List.foldl_nil, nextSeen, hpending]
      simp only [Bool.or_eq_true, ih, decide_eq_true_eq]
      constructor
      · rintro (⟨pre, d, post, rfl, hend⟩ | hend)
        · exact ⟨pre, d, post ++ [c], by simp, hend⟩
        · exact ⟨text, c, [], rfl, hend⟩
      · rintro ⟨pre, d, post, heq, hend⟩
        rcases List.eq_nil_or_concat post with rfl | ⟨post, e, rfl⟩
        · obtain ⟨rfl, hd⟩ := List.append_inj' heq rfl
          obtain rfl : c = d := (List.cons.inj hd).1
          exact .inr hend
        · rw [List.concat_eq_append, ← List.cons_append, ← List.append_assoc] at heq
          exact .inl ⟨pre, d, post, (List.append_inj' heq rfl).1, hend⟩

/-- Every byte has what it needs. -/
theorem readsSame_iff (hroom : InRoom bytes) :
    (∀ pre c post, bytes = pre ++ c :: post →
        ReadsSame a b (pre.foldl nextSeen (.none, false)) c) ↔ a = b ∨ SecondFirst bytes := by
  have hfst : ∀ pre, (pre.foldl nextSeen (.none, false)).1 = pending pre := fun pre =>
    foldl_nextSeen_fst pre _
  simp only [ReadsSame, hfst, foldl_nextSeen_snd]
  constructor
  · intro h
    by_cases hab : a = b
    · exact .inl hab
    · exact .inr fun pre c post heq hread => ((h pre c post heq).2 hread).resolve_left hab
  · intro h pre c post heq
    exact ⟨hroom pre c post heq, fun hread => h.imp_right fun hall => hall pre c post heq hread⟩

/-- **Run lemma**: the two terminals show the same all along exactly if each byte has what
it needs. -/
theorem TwoRuns.allPrefixes_iff (h : TwoRuns a b p s) (bytes : List (BitVec 8)) :
    Stream.AllPrefixes (Stream.both termPutchar) SameShown s bytes ↔
      ∀ pre c post, bytes = pre ++ c :: post → ReadsSame a b (pre.foldl nextSeen p) c := by
  have hgood : ∀ p s, TwoRuns a b p s → SameShown s := fun p s h => h.same.term
  have hbad : ∀ p s c s', TwoRuns a b p s → ¬ ReadsSame a b p c →
      Stream.both termPutchar s c = .ok s' → ¬ SameShown s' := by
    intro p s c s' h hc hboth
    by_cases hr : p.1.Room c
    · exact h.differs hr hc hboth
    · obtain ⟨hput, -⟩ := Stream.both_ok_iff.mp hboth
      rw [termPutchar_error h.reads.describes hr] at hput
      cases hput
  have hstep : ∀ p s c, TwoRuns a b p s → ReadsSame a b p c →
      ∃ s', Stream.both termPutchar s c = .ok s' ∧ TwoRuns a b (nextSeen p c) s' := by
    intro p s c h hc
    exact h.step hc
  exact Stream.allPrefixes_iff_text (f := Stream.both termPutchar) (s := s) (p := p)
    (ReadsSame a b) (TwoRuns a b) hgood hstep hbad h bytes

/-- **Independence of what was written before.**  Two histories have led to the same
screen, cursor, colour and saved cursor, outside of any sequence.  A further stream that
stays in the interpreter's arrays has the same effect after both exactly if they have
left the same second argument, or the stream ends a second parameter before its first `H` or
`f` with a single one. -/
theorem term_same_effect_iff (hctx : ctx.Started) (hctx' : ctx'.Started) (t t' : Term)
    {s u : Tty} (hs : termWrite { ctx := ctx, term := termInit t } early = .ok s)
    (hu : termWrite { ctx := ctx', term := termInit t' } early' = .ok u)
    (hshown : SameShown (s, u)) (hsaved : SameSaved s.ctx u.ctx)
    (hnormal : s.ctx.state = .normal) (hnormal' : u.ctx.state = .normal)
    (bytes : List (BitVec 8)) (hroom : InRoom bytes) :
    SameEffect s u bytes ↔ s.ctx.second = u.ctx.second ∨ SecondFirst bytes := by
  have hreads := termWrite_reads hctx.reads hs
  have hreads' := termWrite_reads hctx'.reads hu
  rw [hreads.describes.of_normal hnormal] at hreads
  rw [hreads'.describes.of_normal hnormal'] at hreads'
  have hstart : TwoRuns s.ctx.second u.ctx.second (.none, false) (s, u) :=
    { same := ⟨hshown, .of_idle hnormal hreads.describes.2.1 hreads.describes.2.2 hnormal'
        hreads'.describes.2.1 hreads'.describes.2.2⟩
      saved := hsaved
      reads := hreads
      reads' := hreads'
      seen := fun h => by cases h
      kept := fun _ => ⟨rfl, rfl⟩ }
  exact sameEffect_iff_allPrefixes.trans ((hstart.allPrefixes_iff bytes).trans (readsSame_iff hroom))

/-! ## a history that leaves an argument behind -/

/-- `ESC [ 0 ; 7 m`: no blinking, and a parameter without a meaning. -/
def argumentLeft : List (BitVec 8) := escapeSequence [[chr '0'], [chr '7']] (chr 'm')

/-- Nothing of it is to be seen where text does not blink, but the second argument is 7. -/
theorem termWrite_argumentLeft {s : Tty} (hidle : s.ctx.Idle) (hs : s.term.OnScreen)
    (hcolor : s.term.color &&& ~~~0x80 = s.term.color) :
    ∃ u, termWrite s argumentLeft = .ok u ∧ u.term = s.term ∧ SameSaved s.ctx u.ctx ∧
      u.ctx.Idle ∧ u.ctx.second = 7 := by
  have hparams : ∀ ds ∈ [[chr '0']] ++ [[chr '7']], IsParam ds := by
    intro ds hds
    obtain rfl | rfl : ds = [chr '0'] ∨ ds = [chr '7'] := by simpa using hds
    · exact ⟨by decide, by decide⟩
    · exact ⟨by decide, by decide⟩
  obtain ⟨d, hargs, harg, hrow, hcol, hwrite⟩ :=
    termWrite_sequence (c := chr 'm') hidle hs hparams (by decide) (by decide)
  have hvalues : ([[chr '0']] ++ [[chr '7']]).map paramValue = [0, 7] := by decide
  have htake : d.args.toList.take d.currentArg = [0, 7] := by
    rw [hargs, harg, hvalues]
    rfl
  have hcommand : (ansiCommand d s.term (chr 'm')).2 = s.term := by
    have hgraphic : [0, 7].foldl ansiGraphic s.term =
        { s.term with color := s.term.color &&& ~~~0x80 } := rfl
    change (d.args.toList.take d.currentArg).foldl ansiGraphic s.term = _
    rw [htake, hgraphic, hcolor]
  have hsecond : d.second = 7 := by
    rw [AnsiContext.second, hargs, hvalues]
    rfl
  rw [hcommand] at hwrite
  exact ⟨_, hwrite, rfl, ⟨hrow, hcol⟩, ⟨rfl, rfl, rfl⟩, hsecond⟩

theorem Tty.start_color : Tty.start.term.color = 0x0F := by
  have hsame := sameState_fill
    { row := 0
      column := 0
      color := termMakeColor TermVgaColor.white.val TermVgaColor.black.val
      buffer := vgaMemory
      memory := fun _ => 0 } (termMakeEntry (chr ' ') 0)
  exact hsame.color.trans (by decide)

/-- A letter outside of any sequence, after no history and after this one. -/
theorem term_same_effect_iff_letter :
    ∃ u, termWrite .start argumentLeft = .ok u ∧ SameEffect .start u [chr 'A'] := by
  obtain ⟨u, hwrite, hterm, hsaved, hidle, -⟩ :=
    termWrite_argumentLeft Tty.start_idle Tty.start_onScreen (by rw [Tty.start_color]; decide)
  have hshown : SameShown (.start, u) := by
    rw [SameShown, hterm]
    exact .refl _
  have hsplit : ∀ {pre c post}, [chr 'A'] = pre ++ c :: post → pre = [] := by
    intro pre c post heq
    cases pre with
    | nil => rfl
    | cons x pre => simp at heq
  have hnothing : termWrite .start [] = .ok .start := rfl
  refine ⟨u, hwrite, (term_same_effect_iff (.inl rfl) (.inl rfl) _ _ hnothing hwrite hshown hsaved
    rfl hidle.state [chr 'A'] fun pre c post heq => ?_).mpr (.inr fun pre c post heq hread => ?_)⟩
  · rw [hsplit heq]
    trivial
  · rw [hsplit heq] at hread
    obtain ⟨w, hw, -⟩ := hread
    cases hw

/-- `ESC [ 5 H`. -/
def rowOnly : List (BitVec 8) := escapeSequence [[chr '5']] (chr 'H')

/-- `ESC [ 5 H` on any terminal: the column is the second argument. -/
theorem termWrite_rowOnly {s : Tty} (hidle : s.ctx.Idle) (hs : s.term.OnScreen) :
    ∃ s', termWrite s rowOnly = .ok s' ∧ s'.term.column = s.ctx.second := by
  have hparam : ∀ ds ∈ [] ++ [[chr '5']], IsParam ds := by
    intro ds hds
    obtain rfl : ds = [chr '5'] := by simpa using hds
    exact ⟨by decide, by decide⟩
  obtain ⟨d, hargs, -, -, -, hwrite⟩ :=
    termWrite_sequence (c := chr 'H') hidle hs hparam (by decide) (by decide)
  have hcolumn : ∀ t, (ansiCommand d t (chr 'H')).2.column = d.second := fun _ => rfl
  refine ⟨_, hwrite, (hcolumn _).trans ?_⟩
  rw [AnsiContext.second, AnsiContext.second, hargs]
  cases s.ctx.args.toList with
  | nil => rfl
  | cons a as => cases as <;> rfl

/-- `ESC [ 5 H` moves the cursor to column 0 on a new terminal, and to column 7 on one
that shows the same but has received `ESC [ 0 ; 7 m`. -/
theorem term_column_from_history :
    ∃ u s' u', termWrite .start argumentLeft = .ok u ∧ SameShown (.start, u) ∧
      SameSaved Tty.start.ctx u.ctx ∧ u.ctx.Idle ∧ InRoom rowOnly ∧
      ¬ SameEffect .start u rowOnly ∧ termWrite .start rowOnly = .ok s' ∧ s'.term.column = 0 ∧
      termWrite u rowOnly = .ok u' ∧ u'.term.column = 7 := by
  obtain ⟨u, hwrite, hterm, hsaved, hidle, hsecond⟩ :=
    termWrite_argumentLeft Tty.start_idle Tty.start_onScreen (by rw [Tty.start_color]; decide)
  have hshown : SameShown (.start, u) := by
    rw [SameShown, hterm]
    exact .refl _
  obtain ⟨s', hs, hcol⟩ := termWrite_rowOnly Tty.start_idle Tty.start_onScreen
  obtain ⟨u', hu, hcol'⟩ := termWrite_rowOnly hidle (by rw [hterm]; exact Tty.start_onScreen)
  rw [hsecond] at hcol'
  have hzero : Tty.start.ctx.second = 0 := by decide
  rw [hzero] at hcol
  have hroom : InRoom rowOnly := (termWrite_ok_iff hidle.reads.describes).mp ⟨u', hu⟩
  refine ⟨u, s', u', hwrite, hshown, hsaved, hidle, hroom, fun hsame => ?_, hs, hcol, hu, hcol'⟩
  obtain ⟨s'', u'', hs'', hu'', hend⟩ := hsame rowOnly (List.prefix_refl _)
  obtain rfl := Except.ok.inj (hs.symm.trans hs'')
  obtain rfl := Except.ok.inj (hu.symm.trans hu'')
  have hcolumn := hend.column
  rw [hcol, hcol'] at hcolumn
  contradiction

end NimbleOS
