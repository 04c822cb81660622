import Mathlib.Data.List.Induction
import NimbleOS.Tty.Lockstep
import NimbleOS.Tty.Sequence

/-!
# NimbleOS.Tty.Arguments

The arguments with which a text executes a command.  `Pending.arguments` reads them off
the text alone; `ansiInterpretChar_spec` says that the interpreter does nothing to the
terminal until a letter ends a sequence, and then executes its command with them.
-/

namespace NimbleOS

/-! ## the parameters of a text -/

/-- One character of a sequence: the values of the parameters that have ended, and the
digits of the open one. -/
def scanChar (p : List Nat × List (BitVec 8)) (c : BitVec 8) : List Nat × List (BitVec 8) :=
  if c = chr ';' then (p.1 ++ [paramValue p.2], [])
  else if isdigit c.toInt then (p.1, p.2 ++ [c])
  else p

/-- What a text `w` behind `ESC [` has collected. -/
def scanParams (w : List (BitVec 8)) : List Nat × List (BitVec 8) := w.foldl scanChar ([], [])

/-- What ends a parameter. -/
def IsEnd (c : BitVec 8) : Prop := c = chr ';' ∨ isalpha c.toInt = true

/-- The arguments of the command that `c` ends, if it ends one. -/
def Pending.arguments : Pending → BitVec 8 → Option (List Nat)
  | .params w, c =>
      if isalpha c.toInt then some ((scanParams w).1 ++ [paramValue (scanParams w).2]) else .none
  | _, _ => .none

theorem scanParams_snoc (w : List (BitVec 8)) (c : BitVec 8) :
    scanParams (w ++ [c]) = scanChar (scanParams w) c := by
  rw [scanParams, List.foldl_append]
  rfl

/-- The text counts as `Pending` counts it. -/
theorem scanParams_length (w : List (BitVec 8)) :
    (scanParams w).1.length = endedParams w ∧ (scanParams w).2.length = lastDigits w := by
  induction w using List.reverseRecOn with
  | nil => exact ⟨rfl, rfl⟩
  | append_singleton w c ih =>
      obtain ⟨hvalues, hdigits⟩ := ih
      rw [scanParams_snoc, scanChar, endedParams_snoc]
      by_cases hsep : c = chr ';'
      · rw [if_pos hsep, if_pos hsep, lastDigits_snoc_separator w hsep, List.length_append,
          List.length_singleton, hvalues]
        exact ⟨rfl, rfl⟩
      · rw [if_neg hsep, if_neg hsep, lastDigits_snoc w hsep]
        split
        · rw [List.length_append, List.length_singleton, hvalues, hdigits]
          exact ⟨rfl, rfl⟩
        · exact ⟨hvalues, hdigits⟩

/-- The open parameter has digits only. -/
theorem isdigit_of_mem_scanParams (h : c ∈ (scanParams w).2) : isdigit c.toInt = true := by
  induction w using List.reverseRecOn with
  | nil => cases h
  | append_singleton w d ih =>
      rw [scanParams_snoc, scanChar] at h
      split at h
      · cases h
      · split at h
        · next hd =>
            rcases List.mem_append.mp h with h | h
            · exact ih h
            · rw [List.mem_singleton.mp h]
              exact hd
        · exact ih h

/-- Values are 32-bit numbers. -/
theorem paramValue_lt (ds : List (BitVec 8)) : paramValue ds < 2 ^ 32 := (atoi ds).isLt

theorem lt_of_mem_scanParams (h : v ∈ (scanParams w).1) : v < 2 ^ 32 := by
  induction w using List.reverseRecOn with
  | nil => cases h
  | append_singleton w d ih =>
      rw [scanParams_snoc, scanChar] at h
      split at h
      · rcases List.mem_append.mp h with h | h
        · exact ih h
        · rw [List.mem_singleton.mp h]
          exact paramValue_lt _
      · split at h <;> exact ih h

/-- A command has a first argument. -/
theorem Pending.arguments_first {p : Pending} (h : p.arguments c = .some vs) :
    ∃ v rest, vs = v :: rest ∧ v < 2 ^ 32 := by
  cases p with
  | none => cases h
  | escape => cases h
  | params w =>
      rw [Pending.arguments] at h
      split at h
      · obtain rfl := Option.some.inj h
        cases hvs : (scanParams w).1 with
        | nil => exact ⟨_, _, rfl, paramValue_lt _⟩
        | cons v rest =>
            exact ⟨v, _, rfl, lt_of_mem_scanParams (by rw [hvs]; exact List.mem_cons_self)⟩
      · cases h

/-! ## the interpreter reads them -/

/-- Within a sequence the arrays hold its values and the digits of the open parameter. -/
def Pending.Collected (p : Pending) (ctx : AnsiContext) : Prop :=
  ∀ w, p = .params w →
    ctx.args.toList.take ctx.currentArg = (scanParams w).1 ∧
      ctx.buf.toList.take ctx.currentIndex = (scanParams w).2

/-- The context is the one that the text leaves. -/
structure Pending.Reads (p : Pending) (ctx : AnsiContext) : Prop where
  describes : p.Describes ctx
  collected : p.Collected ctx

theorem AnsiContext.Started.reads (h : AnsiContext.Started ctx) : Pending.none.Reads ctx :=
  ⟨h.describes, fun _ heq => by cases heq⟩

/-- A context outside of any sequence. -/
theorem AnsiContext.Idle.reads {ctx : AnsiContext} (h : ctx.Idle) : Pending.none.Reads ctx :=
  ⟨⟨h.state, h.index, h.arg⟩, fun _ heq => by cases heq⟩

/-- In the normal state no sequence is open. -/
theorem Pending.Describes.of_normal {p : Pending} (h : p.Describes ctx)
    (hs : ctx.state = .normal) : p = .none := by
  cases p with
  | none => rfl
  | escape =>
      rw [h.1] at hs
      cases hs
  | params w =>
      rw [h.1] at hs
      cases hs

/-- The interpreter's reaction to a character that ends no sequence. -/
structure Quiet (ctx ctx' : AnsiContext) (t t' : Term) : Prop where
  term : t' = t
  savedRow : ctx'.savedRow = ctx.savedRow
  savedCol : ctx'.savedCol = ctx.savedCol

/-- The context in which a command is executed with the arguments `args`; behind them
are the arguments of earlier sequences. -/
structure WithArgs (ctx d : AnsiContext) (vs : List Nat) : Prop where
  args : d.args.toList = vs ++ ctx.args.toList.drop vs.length
  count : d.currentArg = vs.length
  savedRow : d.savedRow = ctx.savedRow
  savedCol : d.savedCol = ctx.savedCol

/-- The arguments of the command are the values of its parameters. -/
theorem Pending.Reads.endParam {w : List (BitVec 8)} (h : (Pending.params w).Reads ctx)
    (hi : lastDigits w < ansiBufferSize) (ha : endedParams w < ansiBufferSize) :
    ∃ d, ansiEndParam ctx = .ok d ∧ d.state = .params ∧
      WithArgs ctx d ((scanParams w).1 ++ [paramValue (scanParams w).2]) := by
  obtain ⟨hstate, hindex, harg, -⟩ := h.describes
  obtain ⟨hvalues, hdigits⟩ := h.collected w rfl
  obtain ⟨d, hend, hd⟩ := ansiEndParam_spec (hindex ▸ hi) (harg ▸ ha)
  have hlen := (scanParams_length w).1
  have hvalue : atoi ((scanParams w).2 ++ [0]) = atoi (scanParams w).2 :=
    atoi_append_nul (fun _ hc => isdigit_of_mem_scanParams hc) []
  have hroom : ctx.currentArg < ctx.args.toList.length := by
    rw [Vector.length_toList, harg]
    exact ha
  refine ⟨d, hend, hd.state.trans hstate,
    { args := ?_
      count := by rw [hd.currentArg, List.length_append, List.length_singleton, hlen, harg]
      savedRow := hd.savedRow
      savedCol := hd.savedCol }⟩
  rw [hd.args, hdigits, hvalue, List.set_eq_take_append_cons_drop, if_pos hroom, hvalues,
    List.length_append, List.length_singleton, hlen, harg, List.append_assoc]
  rfl

/-- What a character does, in a text with the open sequence `p`. -/
def Pending.Effect (p : Pending) (c : BitVec 8) (ctx : AnsiContext) (t : Term) (escaped : Bool)
    (ctx' : AnsiContext) (t' : Term) : Prop :=
  match p.arguments c with
  | .none => Quiet ctx ctx' t t'
  | .some vs => escaped = true ∧ ∃ d, WithArgs ctx d vs ∧
      ctx' = { (ansiCommand d t c).1 with currentArg := 0, currentIndex := 0, state := .normal } ∧
      t' = (ansiCommand d t c).2

theorem Pending.collected_none (ctx : AnsiContext) : Pending.none.Collected ctx :=
  fun _ heq => by cases heq

theorem Pending.collected_params (h : ctx.args.toList.take ctx.currentArg = (scanParams w).1 ∧
    ctx.buf.toList.take ctx.currentIndex = (scanParams w).2) : (Pending.params w).Collected ctx := by
  rintro w' heq
  obtain rfl : w = w' := Pending.params.inj heq
  exact h

section

variable {w : List (BitVec 8)} (h : (Pending.params w).Reads ctx)
  (hans : ansiInterpretChar ctx t c = .ok (escaped, ctx', t'))

include h hans

/-- A `;` ends the open parameter. -/
theorem Pending.Reads.separator (hr : (Pending.params w).Room c) (hsep : c = chr ';') :
    ((Pending.params w).next c).Collected ctx' ∧
      (Pending.params w).Effect c ctx t escaped ctx' t' := by
  obtain ⟨hi, ha⟩ := hr (.inl hsep)
  obtain ⟨d, hend, -, hargs⟩ := h.endParam hi ha
  rw [ansiInterpretChar_separator h.describes.1 hsep, hend] at hans
  cases hans
  have halpha : ¬ isalpha c.toInt = true := by
    rw [hsep]
    decide
  have hnext : (Pending.params w).next c = .params (w ++ [c]) := by
    rw [hsep]
    rfl
  rw [hnext, Pending.Effect, Pending.arguments, if_neg halpha]
  refine ⟨Pending.collected_params ?_, rfl, hargs.savedRow, hargs.savedCol⟩
  rw [scanParams_snoc, scanChar, if_pos hsep, List.take_zero, hargs.args, hargs.count,
    List.take_left]
  exact ⟨rfl, rfl⟩

/-- A digit belongs to the open parameter, or is one too many. -/
theorem Pending.Reads.digit (hdig : isdigit c.toInt = true) :
    ((Pending.params w).next c).Collected ctx' ∧
      (Pending.params w).Effect c ctx t escaped ctx' t' := by
  obtain ⟨hstate, hindex, -⟩ := h.describes
  obtain ⟨hvalues, hdigits⟩ := h.collected w rfl
  have hsep : c ≠ chr ';' := ne_of_class hdig (by decide)
  have halpha : ¬ isalpha c.toInt = true := by
    rw [isalpha_of_isdigit hdig]
    exact Bool.false_ne_true
  rw [Pending.Effect, Pending.arguments, if_neg halpha]
  by_cases hfull : ansiBufferSize ≤ lastDigits w
  · have hnext : (Pending.params w).next c = .none := if_pos (.inr ⟨hdig, hfull⟩)
    rw [ansiInterpretChar_overflow hstate hdig (by rwa [hindex])] at hans
    cases hans
    rw [hnext]
    exact ⟨Pending.collected_none _, rfl, rfl, rfl⟩
  · have hi : ctx.currentIndex < ansiBufferSize := by omega
    have hnext : (Pending.params w).next c = .params (w ++ [c]) :=
      if_neg (not_or.mpr ⟨halpha, fun hc => hfull hc.2⟩)
    have hlen : ctx.currentIndex < ctx.buf.toList.length := by rwa [Vector.length_toList]
    rw [ansiInterpretChar_digit hstate hdig hi] at hans
    cases hans
    rw [hnext]
    refine ⟨Pending.collected_params ?_, rfl, rfl, rfl⟩
    rw [scanParams_snoc, scanChar, if_neg hsep, if_pos hdig, Vector.toList_set,
      take_set_succ _ hlen, hdigits]
    exact ⟨hvalues, rfl⟩

/-- A letter executes its command; other characters are skipped. -/
theorem Pending.Reads.letter (hr : (Pending.params w).Room c) (hsep : c ≠ chr ';')
    (hdig : ¬ isdigit c.toInt = true) :
    ((Pending.params w).next c).Collected ctx' ∧
      (Pending.params w).Effect c ctx t escaped ctx' t' := by
  rw [Pending.Effect, Pending.arguments]
  by_cases halpha : isalpha c.toInt = true
  · obtain ⟨hi, ha⟩ := hr (.inr halpha)
    obtain ⟨d, hend, -, hargs⟩ := h.endParam hi ha
    have hnext : (Pending.params w).next c = .none := if_pos (.inl halpha)
    rw [ansiInterpretChar_letter h.describes.1 halpha, hend] at hans
    cases hans
    rw [hnext, if_pos halpha]
    exact ⟨Pending.collected_none _, rfl, d, hargs, rfl, rfl⟩
  · have hnext : (Pending.params w).next c = .params (w ++ [c]) :=
      if_neg (not_or.mpr ⟨halpha, fun hc => hdig hc.1⟩)
    rw [ansiInterpretChar_skipped h.describes.1 hsep hdig halpha] at hans
    cases hans
    rw [hnext, if_neg halpha]
    refine ⟨Pending.collected_params ?_, rfl, rfl, rfl⟩
    rw [scanParams_snoc, scanChar, if_neg hsep, if_neg hdig]
    exact h.collected w rfl

end

/-- **One character**: where it has room, the interpreter takes it; the terminal is left
alone, or the command of the letter is executed with the arguments that the text gives. -/
theorem ansiInterpretChar_spec {p : Pending} (h : p.Reads ctx) (hr : p.Room c) (t : Term) :
    ∃ escaped ctx' t', ansiInterpretChar ctx t c = .ok (escaped, ctx', t') ∧
      (p.next c).Reads ctx' ∧ p.Effect c ctx t escaped ctx' t' := by
  obtain ⟨escaped, ctx', t', hans, hd⟩ := ansiInterpretChar_ok h.describes hr t
  refine ⟨escaped, ctx', t', hans, ?_⟩
  suffices hboth : (p.next c).Collected ctx' ∧ p.Effect c ctx t escaped ctx' t' from
    ⟨⟨hd, hboth.1⟩, hboth.2⟩
  cases p with
  | none =>
      have hnext : ∀ w, Pending.none.next c ≠ .params w := fun w heq => by
        rw [Pending.next] at heq
        split at heq <;> cases heq
      refine ⟨fun w heq => absurd heq (hnext w), ?_⟩
      by_cases hc : c = chr '\x1B'
      · rw [ansiInterpretChar_escape h.describes.1 hc] at hans
        cases hans
        exact ⟨rfl, rfl, rfl⟩
      · rw [ansiInterpretChar_of_normal h.describes.1 hc] at hans
        cases hans
        exact ⟨rfl, rfl, rfl⟩
  | escape =>
      rw [Pending.next]
      by_cases hc : c = chr '['
      · rw [ansiInterpretChar_opened h.describes.1 hc] at hans
        cases hans
        rw [if_pos hc]
        refine ⟨Pending.collected_params ?_, rfl, rfl, rfl⟩
        rw [h.describes.2.1, h.describes.2.2]
        exact ⟨rfl, rfl⟩
      · rw [ansiInterpretChar_closed h.describes.1 hc] at hans
        cases hans
        rw [if_neg hc]
        exact ⟨Pending.collected_none _, rfl, rfl, rfl⟩
  | params w =>
      by_cases hsep : c = chr ';'
      · exact h.separator hans hr hsep
      · by_cases hdig : isdigit c.toInt = true
        · exact h.digit hans hdig
        · exact h.letter hans hr hsep hdig

/-! ## on the terminal -/

/-- **One byte**: wrap and scroll, the interpreter, and a printable character that is not
part of a sequence. -/
theorem termPutchar_spec {p : Pending} {s : Tty} (h : p.Reads s.ctx) (hr : p.Room c) :
    ∃ escaped ctx' t', termPutchar s c = .ok
        { ctx := ctx', term := if escaped || !isprint c.toInt then t' else termPutNext t' c } ∧
      (p.next c).Reads ctx' ∧ p.Effect c s.ctx (termAdvance s.term c) escaped ctx' t' := by
  obtain ⟨escaped, ctx', t', hans, hreads, heffect⟩ :=
    ansiInterpretChar_spec h hr (termAdvance s.term c)
  exact ⟨escaped, ctx', t', termPutchar_of_interpret hans, hreads, heffect⟩

/-- The context after a stream is the one that its text leaves. -/
theorem termWrite_reads {p : Pending} {s s' : Tty} (h : p.Reads s.ctx)
    (hwrite : termWrite s bytes = .ok s') : (bytes.foldl .next p).Reads s'.ctx := by
  induction bytes generalizing s p with
  | nil =>
      cases hwrite
      exact h
  | cons c bytes ih =>
      rw [termWrite, List.foldlM_cons] at hwrite
      obtain ⟨s₁, hput, hrest⟩ := bind_eq_ok.mp hwrite
      by_cases hr : p.Room c
      · obtain ⟨escaped, ctx', t', hput', hreads, -⟩ := termPutchar_spec h hr
        obtain rfl := Except.ok.inj (hput.symm.trans hput')
        exact ih (s := { ctx := ctx', term := _ }) hreads hrest
      · rw [termPutchar_error h.describes hr] at hput
        cases hput

end NimbleOS
