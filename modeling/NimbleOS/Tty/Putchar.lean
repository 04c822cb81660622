import NimbleOS.Lib.Stream
import NimbleOS.Tty.Ansi

/-!
# NimbleOS.Tty.Putchar

`term_putchar` and `term_write`, and which byte streams they survive.  Two stores
of the interpreter are unchecked: the NUL behind a parameter's digits, and the
parameter's value.  `Pending` is the escape sequence that a text leaves open,
read off the text alone; a stream is safe if, whenever `;` or a letter ends a
parameter, fewer than 32 digits of that parameter and fewer than 32 parameters
stand before it.
-/

namespace NimbleOS

/-- The statics of `tty.c`: the interpreter's context and the terminal's state. -/
structure Tty where
  ctx : AnsiContext
  term : Term

/-- `term_putchar_at(c, term_column++, term_row)`. -/
def termPutNext (t : Term) (c : BitVec 8) : Term :=
  { termPutcharAt t c t.column t.row with column := u32 (t.column + 1) }

/-- The cursor movements of `term_putchar` before the character is looked at. -/
def termAdvance (t : Term) (c : BitVec 8) : Term :=
  let t :=
    if c = chr '\n' ∨ c = chr '\r' then { t with row := u32 (t.row + 1), column := 0 }
    else if c = chr '\t' then (List.range 4).foldl (fun t _ => termPutNext t (chr ' ')) t
    else t
  let t := if t.column ≥ vgaWidth then { t with row := u32 (t.row + 1), column := 0 } else t
  if t.row ≥ vgaHeight then termScrolldown t else t

def termPutchar (s : Tty) (c : BitVec 8) : Except Halt Tty := do
  let t := termAdvance s.term c
  let (escaped, ctx, t) ← ansiInterpretChar s.ctx t c
  if escaped || !isprint c.toInt then return { ctx := ctx, term := t }
  return { ctx := ctx, term := termPutNext t c }

def termWrite (s : Tty) (data : List (BitVec 8)) : Except Halt Tty := data.foldlM termPutchar s

/-! ## the open sequence -/

/-- Digits of the last parameter of `w`: those after the last `;`. -/
def lastDigits (w : List (BitVec 8)) : Nat :=
  (w.reverse.takeWhile (· ≠ chr ';')).countP fun c => isdigit c.toInt

/-- Parameters of `w` that a `;` has ended. -/
def endedParams (w : List (BitVec 8)) : Nat := w.count (chr ';')

/-- The escape sequence that a text leaves open. -/
inductive Pending where
  /-- No sequence is open. -/
  | none
  /-- The text ends with the escape character. -/
  | escape
  /-- `w` follows the `[`. -/
  | params (w : List (BitVec 8))

/-- A letter ends the sequence, and so does a digit too many. -/
def Pending.next : Pending → BitVec 8 → Pending
  | .none, c => if c = chr '\x1B' then .escape else .none
  | .escape, c => if c = chr '[' then .params [] else .none
  | .params w, c =>
      if isalpha c.toInt ∨ isdigit c.toInt ∧ ansiBufferSize ≤ lastDigits w then .none
      else .params (w ++ [c])

/-- Where `c` ends a parameter, the parameter and the list of them have room. -/
def Pending.Room : Pending → BitVec 8 → Prop
  | .params w, c =>
      c = chr ';' ∨ isalpha c.toInt →
        lastDigits w < ansiBufferSize ∧ endedParams w < ansiBufferSize
  | _, _ => True

/-- The sequence that is open after `text`. -/
def pending (text : List (BitVec 8)) : Pending := text.foldl .next .none

/-- Every parameter that the stream ends has room. -/
def InRoom (bytes : List (BitVec 8)) : Prop :=
  ∀ pre c post, bytes = pre ++ c :: post → (pending pre).Room c

/-! ### the counts of a text -/

theorem lastDigits_snoc_separator (w : List (BitVec 8)) (h : c = chr ';') :
    lastDigits (w ++ [c]) = 0 := by
  subst h
  simp [lastDigits]

theorem lastDigits_snoc (w : List (BitVec 8)) (h : c ≠ chr ';') :
    lastDigits (w ++ [c]) = lastDigits w + if isdigit c.toInt then 1 else 0 := by
  simp [lastDigits, h, List.countP_cons]

theorem endedParams_snoc (w : List (BitVec 8)) (c : BitVec 8) :
    endedParams (w ++ [c]) = endedParams w + if c = chr ';' then 1 else 0 := by
  simp [endedParams, List.count_singleton]

/-! ## the interpreter follows the text -/

/-- The context is the one that the open sequence leaves. -/
def Pending.Describes : Pending → AnsiContext → Prop
  | .none, ctx => ctx.state = .normal ∧ ctx.currentIndex = 0 ∧ ctx.currentArg = 0
  | .escape, ctx => ctx.state = .bracket ∧ ctx.currentIndex = 0 ∧ ctx.currentArg = 0
  | .params w, ctx =>
      ctx.state = .params ∧ ctx.currentIndex = lastDigits w ∧ ctx.currentArg = endedParams w ∧
        lastDigits w ≤ ansiBufferSize ∧ endedParams w ≤ ansiBufferSize

/-- A zeroed or initialised context. -/
def AnsiContext.Started (ctx : AnsiContext) : Prop :=
  ctx = .zeroed ∨ ∃ ctx₀, ctx = ansiInitContext ctx₀

theorem AnsiContext.Started.describes (h : AnsiContext.Started ctx) :
    Pending.none.Describes ctx := by
  rcases h with rfl | ⟨ctx₀, rfl⟩
  · exact ⟨rfl, rfl, rfl⟩
  · exact ⟨rfl, rfl, rfl⟩

/-- Ending a parameter that has room stores both values and counts it. -/
theorem ansiEndParam_ok (hi : ctx.currentIndex < ansiBufferSize)
    (ha : ctx.currentArg < ansiBufferSize) :
    ∃ ctx', ansiEndParam ctx = .ok ctx' ∧ ctx'.state = ctx.state ∧
      ctx'.currentArg = ctx.currentArg + 1 := by
  have hu : u32 (ctx.currentArg + 1) = ctx.currentArg + 1 :=
    u32_of_lt (by unfold ansiBufferSize at ha; omega)
  simp only [ansiEndParam, AnsiContext.storeBuf, hi, AnsiContext.storeArg]
  simp only [dif_pos, bind, Except.bind, ha, pure, Except.pure, hu]
  exact ⟨_, rfl, rfl, rfl⟩

/-- Ending a parameter without room writes past one of the arrays. -/
theorem ansiEndParam_error
    (h : ¬ (ctx.currentIndex < ansiBufferSize ∧ ctx.currentArg < ansiBufferSize)) :
    ansiEndParam ctx = .error .outOfBounds := by
  simp only [ansiEndParam, AnsiContext.storeBuf]
  by_cases hi : ctx.currentIndex < ansiBufferSize
  · have ha : ¬ ctx.currentArg < ansiBufferSize := fun ha => h ⟨hi, ha⟩
    simp only [dif_pos hi, bind, Except.bind, AnsiContext.storeArg, dif_neg ha]
  · simp only [dif_neg hi, bind, Except.bind]

/-- **Step lemma**: with room, the interpreter takes the character and its
context follows the text. -/
theorem ansiInterpretChar_ok {p : Pending} (hd : p.Describes ctx) (hr : p.Room c) (t : Term) :
    ∃ escaped ctx' t', ansiInterpretChar ctx t c = .ok (escaped, ctx', t') ∧
      (p.next c).Describes ctx' := by
  cases p with
  | none =>
      obtain ⟨hs, hi, ha⟩ := hd
      rw [Pending.next]
      by_cases hc : c = chr '\x1B'
      · rw [ansiInterpretChar_escape hs hc, if_pos hc]
        exact ⟨_, _, _, rfl, rfl, hi, ha⟩
      · rw [ansiInterpretChar_of_normal hs hc, if_neg hc]
        exact ⟨_, _, _, rfl, hs, hi, ha⟩
  | escape =>
      obtain ⟨hs, hi, ha⟩ := hd
      rw [Pending.next]
      by_cases hc : c = chr '['
      · rw [ansiInterpretChar_opened hs hc, if_pos hc]
        exact ⟨_, _, _, rfl, rfl, hi.trans rfl, ha.trans rfl, Nat.zero_le _, Nat.zero_le _⟩
      · rw [ansiInterpretChar_closed hs hc, if_neg hc]
        exact ⟨_, _, _, rfl, rfl, hi, ha⟩
  | params w =>
      obtain ⟨hs, hi, ha, hilt, halt⟩ := hd
      have hends := endedParams_snoc w c
      by_cases hsep : c = chr ';'
      · obtain ⟨hroomi, hrooma⟩ := hr (.inl hsep)
        obtain ⟨ctx', hend, hs', ha'⟩ := ansiEndParam_ok (hi ▸ hroomi) (ha ▸ hrooma)
        have hnext : (Pending.params w).next c = .params (w ++ [c]) := by
          subst hsep
          rfl
        have hd0 := lastDigits_snoc_separator w hsep
        rw [if_pos hsep] at hends
        rw [ansiInterpretChar_separator hs hsep, hend, hnext]
        exact ⟨_, _, _, rfl, hs'.trans hs, hd0.symm, by rw [hends, ← ha]; exact ha', by omega,
          by omega⟩
      · have hsnoc := lastDigits_snoc w hsep
        rw [if_neg hsep, Nat.add_zero] at hends
        rw [Pending.next]
        by_cases hdigit : isdigit c.toInt = true
        · have halpha : ¬ isalpha c.toInt = true := by
            rw [isalpha_of_isdigit hdigit]
            exact Bool.false_ne_true
          rw [if_pos hdigit] at hsnoc
          by_cases hfull : ansiBufferSize ≤ lastDigits w
          · rw [ansiInterpretChar_overflow hs hdigit (hi ▸ hfull), if_pos (.inr ⟨hdigit, hfull⟩)]
            exact ⟨_, _, _, rfl, rfl, rfl, rfl⟩
          · have hlt : lastDigits w < ansiBufferSize := Nat.lt_of_not_le hfull
            rw [ansiInterpretChar_digit hs hdigit (hi ▸ hlt),
              if_neg (not_or.mpr ⟨halpha, fun h => hfull h.2⟩)]
            exact ⟨_, _, _, rfl, hs, (congrArg (· + 1) hi).trans hsnoc.symm, by rw [hends]; exact ha,
              by omega, by omega⟩
        · rw [if_neg hdigit, Nat.add_zero] at hsnoc
          by_cases halpha : isalpha c.toInt = true
          · obtain ⟨hroomi, hrooma⟩ := hr (.inr halpha)
            obtain ⟨ctx', hend, -⟩ := ansiEndParam_ok (hi ▸ hroomi) (ha ▸ hrooma)
            rw [ansiInterpretChar_letter hs halpha, hend, if_pos (.inl halpha)]
            exact ⟨_, _, _, rfl, rfl, rfl, rfl⟩
          · rw [ansiInterpretChar_skipped hs hsep hdigit halpha,
              if_neg (not_or.mpr ⟨halpha, fun h => hdigit h.1⟩)]
            exact ⟨_, _, _, rfl, hs, by rw [hsnoc]; exact hi, by rw [hends]; exact ha, by omega,
              by omega⟩

/-- Where `c` ends a parameter, both arrays have room. -/
def AnsiContext.Room (ctx : AnsiContext) (c : BitVec 8) : Prop :=
  ctx.state = .params → c = chr ';' ∨ isalpha c.toInt →
    ctx.currentIndex < ansiBufferSize ∧ ctx.currentArg < ansiBufferSize

/-- The same, from the open sequence and from the context it has left. -/
theorem Pending.Describes.room_iff {p : Pending} (hd : p.Describes ctx) : p.Room c ↔ ctx.Room c := by
  cases p with
  | none => exact iff_of_true trivial fun hs => by rw [hd.1] at hs; cases hs
  | escape => exact iff_of_true trivial fun hs => by rw [hd.1] at hs; cases hs
  | params w =>
      obtain ⟨hs, hi, ha, -⟩ := hd
      rw [Room, AnsiContext.Room, hi, ha]
      exact ⟨fun h _ => h, fun h => h hs⟩

/-- **Step lemma**: without room, the store goes past the end of an array. -/
theorem ansiInterpretChar_no_room {ctx : AnsiContext} (h : ¬ ctx.Room c) (t : Term) :
    ansiInterpretChar ctx t c = .error .outOfBounds := by
  simp only [AnsiContext.Room, Classical.not_imp] at h
  obtain ⟨hs, hend, hfull⟩ := h
  cases hend with
  | inl hsep =>
      rw [ansiInterpretChar_separator hs hsep, ansiEndParam_error hfull]
      rfl
  | inr halpha =>
      rw [ansiInterpretChar_letter hs halpha, ansiEndParam_error hfull]
      rfl

theorem ansiInterpretChar_error {p : Pending} (hd : p.Describes ctx) (hr : ¬ p.Room c)
    (t : Term) : ansiInterpretChar ctx t c = .error .outOfBounds :=
  ansiInterpretChar_no_room (mt hd.room_iff.mpr hr) t

/-- The byte's effect, with the interpreter's reaction. -/
theorem termPutchar_of_interpret {s : Tty}
    (hans : ansiInterpretChar s.ctx (termAdvance s.term c) c = .ok (escaped, ctx', t')) :
    termPutchar s c = .ok
      { ctx := ctx', term := if escaped || !isprint c.toInt then t' else termPutNext t' c } := by
  simp only [termPutchar, hans, bind, Except.bind, pure, Except.pure]
  split <;> rfl

theorem termPutchar_no_room {s : Tty} (h : ¬ s.ctx.Room c) :
    termPutchar s c = .error .outOfBounds := by
  simp only [termPutchar, ansiInterpretChar_no_room h, bind, Except.bind]

theorem termPutchar_ok {p : Pending} (hd : p.Describes s.ctx) (hr : p.Room c) :
    ∃ s', termPutchar s c = .ok s' ∧ (p.next c).Describes s'.ctx := by
  obtain ⟨escaped, ctx', t', hans, hd'⟩ := ansiInterpretChar_ok hd hr (termAdvance s.term c)
  exact ⟨_, termPutchar_of_interpret hans, hd'⟩

theorem termPutchar_error {p : Pending} (hd : p.Describes s.ctx) (hr : ¬ p.Room c) :
    termPutchar s c = .error .outOfBounds := termPutchar_no_room (mt hd.room_iff.mpr hr)

/-! ## streams -/

/-- **Run lemma**: from a context that `p` describes, the stream is written to
its end exactly if each character finds room after what precedes it. -/
theorem termWrite_ok_iff {p : Pending} (hd : p.Describes s.ctx) :
    (∃ s', termWrite s bytes = .ok s') ↔
      ∀ pre c post, bytes = pre ++ c :: post → (pre.foldl .next p).Room c :=
  Stream.foldlM_ok_iff Pending.Room (fun p s => p.Describes s.ctx)
    (fun _ _ _ hd hr => termPutchar_ok hd hr) (fun _ _ _ hd hr => ⟨_, termPutchar_error hd hr⟩) hd bytes

/-- **Which streams stay inside the arrays.**  From a zeroed or initialised
context, every store of the interpreter is at an index below 32 exactly if every
parameter that the stream ends has room. -/
theorem term_write_in_bounds_iff (hctx : s.ctx.Started) (bytes : List (BitVec 8)) :
    (∃ s', termWrite s bytes = .ok s') ↔ InRoom bytes := termWrite_ok_iff hctx.describes

/-- The terminal as the kernel starts it. -/
def Tty.start : Tty :=
  { ctx := .zeroed
    term := termInit { row := 0, column := 0, color := 0, buffer := 0, memory := fun _ => 0 } }

/-- Blinking text on. -/
def blinkOn : List (BitVec 8) := [chr '\x1B', chr '[', chr '5', chr 'm']

theorem term_write_in_bounds_iff_blinkOn :
    (∃ s', termWrite .start blinkOn = .ok s') ∧ InRoom blinkOn := by
  have h : ∃ s', termWrite .start blinkOn = .ok s' := ⟨_, rfl⟩
  exact ⟨h, (term_write_in_bounds_iff (.inl rfl) blinkOn).mp h⟩

/-- An escape sequence up to a parameter of 32 digits. -/
def fullParam : List (BitVec 8) := chr '\x1B' :: chr '[' :: List.replicate 32 (chr '1')

/-- An escape sequence up to 32 empty parameters. -/
def fullList : List (BitVec 8) := chr '\x1B' :: chr '[' :: List.replicate 32 (chr ';')

/-- The next character that ends a parameter is stored behind the array: the NUL
of the first stream in `buf[32]`, the value of the second in `args[32]`. -/
theorem term_write_out_of_bounds :
    (¬ ∃ s', termWrite .start (fullParam ++ [chr 'm']) = .ok s') ∧
      ¬ ∃ s', termWrite .start (fullList ++ [chr ';']) = .ok s' := by
  have hd : Pending.none.Describes Tty.start.ctx := AnsiContext.Started.describes (.inl rfl)
  constructor
  · intro h
    have hroom := (termWrite_ok_iff hd).mp h fullParam (chr 'm') [] rfl
    have hdigits := (hroom (.inr (by decide))).1
    revert hdigits
    decide
  · intro h
    have hroom := (termWrite_ok_iff hd).mp h fullList (chr ';') [] rfl
    have hended := (hroom (.inl rfl)).2
    revert hended
    decide

end NimbleOS
