import NimbleOS.Boot
import NimbleOS.Lib.Stream
import NimbleOS.Tty.Arguments
import NimbleOS.Tty.Redraw

/-!
# NimbleOS.Tty.Window

Where the terminal writes.  `paging_init` moves it to a window of the kernel's half of the
address spaces; `Drawn` says that an operation stores to the cells of the terminal's buffer
only and leaves the buffer where it is.  The one command that does not is `2J`: it calls
`term_init`, which sets the buffer to the address it had before paging.
-/

namespace NimbleOS

def termSetBuffer (t : Term) (buffer : Nat) : Term := { t with buffer := buffer }

/-! ## drawing -/

/-- Only cells of the buffer are stored to. -/
structure Drawn (t t' : Term) : Prop where
  buffer : t'.buffer = t.buffer
  outside : ∀ a, (∀ x < vgaWidth, ∀ y < vgaHeight, a ≠ t.entry x y) → t'.memory a = t.memory a

namespace Drawn

theorem refl (t : Term) : Drawn t t := ⟨rfl, fun _ _ => rfl⟩

theorem trans (h : Drawn t t') (h' : Drawn t' t'') : Drawn t t'' where
  buffer := h'.buffer.trans h.buffer
  outside := fun a ha => by
    refine (h'.outside a fun x hx y hy => ?_).trans (h.outside a ha)
    rw [Term.entry, h.buffer]
    exact ha x hx y hy

/-- Steps that leave the memory alone. -/
theorem of_same (hbuffer : t'.buffer = t.buffer) (hmemory : t'.memory = t.memory) : Drawn t t' :=
  ⟨hbuffer, fun a _ => by rw [hmemory]⟩

theorem setRow (t : Term) (row : Nat) : Drawn t (termSetRow t row) := .of_same rfl rfl

theorem setColumn (t : Term) (column : Nat) : Drawn t (termSetColumn t column) := .of_same rfl rfl

theorem setEntry (t : Term) (e : BitVec 16) (hx : x < vgaWidth) (hy : y < vgaHeight) :
    Drawn t (t.setEntry x y e) where
  buffer := rfl
  outside := fun _ ha => if_neg (ha x hx y hy)

theorem foldl {f : Term → α → Term} {as : List α} (h : ∀ t, ∀ a ∈ as, Drawn t (f t a)) (t : Term) :
    Drawn t (as.foldl f t) := by
  induction as generalizing t with
  | nil => exact .refl t
  | cons a as ih =>
      obtain ⟨ha, has⟩ := List.forall_mem_cons.mp (fun a ha t => h t a ha)
      exact (ha t).trans (ih (fun t a ha => has a ha t) (f t a))

theorem putcharAt (t : Term) (c : BitVec 8) (x y : Nat) : Drawn t (termPutcharAt t c x y) := by
  unfold termPutcharAt
  split
  · exact .refl t
  · exact .setEntry t _ (by omega) (by omega)

theorem putNext (t : Term) (c : BitVec 8) : Drawn t (termPutNext t c) :=
  (putcharAt t c t.column t.row).trans (.of_same rfl rfl)

theorem fill (t : Term) (e : BitVec 16) : Drawn t (t.fill e) :=
  .foldl (fun t _ hx => .foldl (fun t _ hy =>
    .setEntry t e (List.mem_range.mp hx) (List.mem_range.mp hy)) t) t

theorem scrolldown (t : Term) : Drawn t (termScrolldown t) := by
  have hcell : ∀ t, ∀ y ∈ List.range vgaHeight, ∀ x ∈ List.range vgaWidth,
      Drawn t (termScrollCell t x y) := fun t y hy x hx => by
    unfold termScrollCell
    split <;> exact .setEntry t _ (List.mem_range.mp hx) (List.mem_range.mp hy)
  have hloop := Drawn.foldl (fun t y hy => .foldl (fun t x hx => hcell t y hy x hx) t) t
  unfold termScrolldown
  generalize (List.range vgaHeight).foldl
    (fun t y => (List.range vgaWidth).foldl (fun t x => termScrollCell t x y) t) t = u at *
  exact hloop.trans (.of_same rfl rfl)

theorem advance (t : Term) (c : BitVec 8) : Drawn t (termAdvance t c) := by
  have hbreak : Drawn t (termBreak t c) := by
    unfold termBreak
    split
    · exact .of_same rfl rfl
    · split
      · exact .foldl (fun t _ _ => .putNext t _) t
      · exact .refl t
  have hplace : Drawn t (termPlace t c) := by
    refine hbreak.trans ?_
    unfold termPlace termWrap
    split <;> exact .of_same rfl rfl
  rw [termAdvance_eq]
  split
  · exact hplace.trans (.scrolldown _)
  · exact hplace

theorem graphic (t : Term) (arg : Nat) : Drawn t (ansiGraphic t arg) := by
  unfold ansiGraphic termSetFgColor termSetBgColor termSetBlink
  split
  · exact .of_same rfl rfl
  · exact .of_same rfl rfl
  · split
    · exact .of_same rfl rfl
    · split <;> exact .of_same rfl rfl

end Drawn

/-- Every command but `2J` draws in the buffer. -/
theorem ansiCommand_drawn (d : AnsiContext) (t : Term) {c : BitVec 8}
    (h : ¬ (c = chr 'J' ∧ d.args.toList.getD 0 0 = 2)) : Drawn t (ansiCommand d t c).2 := by
  have hc := chr_ofNat_toNat c
  unfold ansiCommand
  dsimp only
  split
  · exact .refl t
  · exact (Drawn.setRow t _).trans (.setColumn _ _)
  · exact .foldl (fun t x _ => .putcharAt t _ x _) t
  · exact (Drawn.setRow t _).trans (.setColumn _ _)
  · exact (Drawn.setRow t _).trans (.setColumn _ _)
  · exact .setRow t _
  · exact .setRow t _
  · exact .setColumn t _
  · exact .setColumn t _
  · next hJ =>
      rw [hJ] at hc
      rw [if_neg fun htwo => h ⟨hc.symm, htwo⟩]
      exact .refl t
  · exact .foldl (fun t arg _ => .graphic t arg) t
  · exact .refl t

theorem termInit_buffer (t : Term) : (termInit t).buffer = vgaMemory := by
  have hsame := sameState_fill
    { t with
      buffer := vgaMemory
      color := termMakeColor TermVgaColor.white.val TermVgaColor.black.val
      row := 0
      column := 0 } (termMakeEntry (chr ' ') t.color)
  exact hsame.buffer

/-- `2J` starts the terminal anew. -/
theorem ansiCommand_clear {d : AnsiContext} (t : Term) (h : d.args.toList.getD 0 0 = 2) :
    (ansiCommand d t (chr 'J')).2 = termInit t := by
  have hchar : Char.ofNat (chr 'J').toNat = 'J' := by decide
  unfold ansiCommand
  simp only [hchar]
  rw [if_pos h]

/-! ## streams -/

/-- Nothing outside of the window has been written since `t`. -/
structure InWindow (t : Term) (s : Tty) : Prop where
  buffer : s.term.buffer = kernelVgaBaseVirt
  outside : ∀ a, a < kernelVgaBaseVirt ∨ kernelVgaBaseVirt + 2 * (vgaWidth * vgaHeight) ≤ a →
    s.term.memory a = t.memory a

/-- The letter `c` ends a sequence that clears the screen: its first argument is 2. -/
def Pending.Clears (p : Pending) (c : BitVec 8) : Prop :=
  c = chr 'J' ∧ ∃ rest, p.arguments c = some (2 :: rest)

theorem InWindow.drawn {s s' : Tty} (h : InWindow t s) (hd : Drawn s.term s'.term) :
    InWindow t s' where
  buffer := hd.buffer.trans h.buffer
  outside := fun a ha => by
    refine (hd.outside a fun x hx y hy heq => ?_).trans (h.outside a ha)
    rw [heq, Term.entry, h.buffer] at ha
    have hbase : kernelVgaBaseVirt = 0xCFFFF000 := by decide
    unfold u32 vgaWidth vgaHeight at *
    omega

/-- **Step lemma**: a byte that does not clear the screen draws in the buffer. -/
theorem termPutchar_window {p : Pending} {s : Tty} (h : p.Reads s.ctx) (hr : p.Room c) :
    ∃ s', termPutchar s c = .ok s' ∧ (p.next c).Reads s'.ctx ∧
      (p.Clears c → s'.term.buffer = vgaMemory) ∧ (¬ p.Clears c → Drawn s.term s'.term) := by
  obtain ⟨escaped, ctx', t', hput, hreads, heffect⟩ := termPutchar_spec h hr
  refine ⟨_, hput, hreads, ?_⟩
  have hadvance := Drawn.advance s.term c
  rw [Pending.Effect] at heffect
  cases hargs : p.arguments c with
  | none =>
      rw [hargs] at heffect
      obtain ⟨rfl, -, -⟩ := heffect
      refine ⟨fun hclear => ?_, fun _ => ?_⟩
      · obtain ⟨-, rest, hclear⟩ := hclear
        rw [hargs] at hclear
        cases hclear
      · dsimp only
        split
        · exact hadvance
        · exact hadvance.trans (.putNext _ c)
  | some vs =>
      rw [hargs] at heffect
      obtain ⟨rfl, d, hd, rfl, rfl⟩ := heffect
      obtain ⟨v, rest, rfl, -⟩ := Pending.arguments_first hargs
      have hfirst : d.args.toList.getD 0 0 = v := by
        rw [hd.args]
        rfl
      simp only [Bool.true_or, if_true]
      refine ⟨fun hclears => ?_, fun hnot => hadvance.trans (ansiCommand_drawn d _ ?_)⟩
      · obtain ⟨rfl, rest', hclear⟩ := hclears
        rw [hargs] at hclear
        have htwo : d.args.toList.getD 0 0 = 2 := by
          rw [hfirst, (List.cons.inj (Option.some.inj hclear)).1]
        rw [ansiCommand_clear _ htwo, termInit_buffer]
      · rintro ⟨hc, htwo⟩
        exact hnot ⟨hc, rest, by rw [hargs, ← hfirst, htwo]⟩

/-- **Where the terminal writes.**  After `paging_init` has set the buffer, whatever has
been written before, all cell writes of a stream go to the window and the buffer stays
there exactly if every parameter has room and no sequence of the stream is `2J`. -/
theorem term_window_kept_iff (hctx : ctx.Started) (t : Term) {s : Tty}
    (hearly : termWrite { ctx := ctx, term := termInit t } early = .ok s)
    (bytes : List (BitVec 8)) :
    Stream.AllPrefixes termPutchar (InWindow (termSetBuffer s.term kernelVgaBaseVirt))
        { s with term := termSetBuffer s.term kernelVgaBaseVirt } bytes ↔
      ∀ pre c post, bytes = pre ++ c :: post →
        (pending (early ++ pre)).Room c ∧ ¬ (pending (early ++ pre)).Clears c := by
  have hreads : (pending early).Reads s.ctx := termWrite_reads hctx.reads hearly
  have hpending : ∀ pre, pending (early ++ pre) = pre.foldl .next (pending early) := fun pre =>
    List.foldl_append
  have hstart : InWindow (termSetBuffer s.term kernelVgaBaseVirt)
      { s with term := termSetBuffer s.term kernelVgaBaseVirt } := ⟨rfl, fun _ _ => rfl⟩
  simp only [hpending]
  refine Stream.allPrefixes_iff_text
    (s := { s with term := termSetBuffer s.term kernelVgaBaseVirt })
    (fun p c => p.Room c ∧ ¬ p.Clears c)
    (fun (p : Pending) (s' : Tty) => p.Reads s'.ctx ∧ InWindow (termSetBuffer s.term kernelVgaBaseVirt) s')
    (fun p s' h => h.2) (fun p s' c h hc => ?_) (fun p s' c s'' h hc hput hgood => ?_)
    ⟨hreads, hstart⟩ bytes
  · obtain ⟨s'', hput, hreads', -, hdrawn⟩ := termPutchar_window h.1 hc.1
    exact ⟨s'', hput, hreads', h.2.drawn (hdrawn hc.2)⟩
  · by_cases hr : p.Room c
    · obtain ⟨s₁, hput', -, hclear, -⟩ := termPutchar_window h.1 hr
      obtain rfl := Except.ok.inj (hput.symm.trans hput')
      have hbuffer := hclear (Classical.not_not.mp fun hnot => hc ⟨hr, hnot⟩)
      rw [hgood.buffer] at hbuffer
      revert hbuffer
      decide
    · rw [termPutchar_error h.1.describes hr] at hput
      cases hput

/-- The terminal when `paging_init` has moved it to the window. -/
def Tty.windowed : Tty :=
  { Tty.start with term := termSetBuffer Tty.start.term kernelVgaBaseVirt }

/-- A single letter outside of any sequence. -/
theorem term_window_kept_iff_letter :
    Stream.AllPrefixes termPutchar (InWindow Tty.windowed.term) .windowed [chr 'A'] := by
  have hearly : termWrite .start [] = .ok .start := rfl
  refine (term_window_kept_iff (.inl rfl) _ hearly [chr 'A']).mpr fun pre c post heq => ?_
  obtain ⟨rfl, hcons⟩ | ⟨pre', rfl, hnil⟩ := List.cons_eq_append_iff.mp heq
  · obtain ⟨rfl, -⟩ := List.cons.inj hcons
    refine ⟨trivial, fun hclear => ?_⟩
    obtain ⟨-, rest, hargs⟩ := hclear
    cases hargs
  · simp at hnil

/-- `ESC [ 2 J` on any terminal. -/
theorem termWrite_clear {s : Tty} (hidle : s.ctx.Idle) (hs : s.term.OnScreen) :
    ∃ s', termWrite s (escapeSequence [[chr '2']] (chr 'J')) = .ok s' ∧
      s'.term.buffer = vgaMemory := by
  have hparam : ∀ ds ∈ [] ++ [[chr '2']], IsParam ds := by
    intro ds hds
    obtain rfl : ds = [chr '2'] := by simpa using hds
    exact ⟨by decide, by decide⟩
  obtain ⟨d, hargs, -, -, -, hwrite⟩ :=
    termWrite_sequence (c := chr 'J') hidle hs hparam (by decide) (by decide)
  have htwo : d.args.toList.getD 0 0 = 2 := by
    rw [hargs]
    rfl
  exact ⟨_, hwrite, by rw [ansiCommand_clear _ htwo, termInit_buffer]⟩

theorem Term.OnScreen.setBuffer {t : Term} (h : t.OnScreen) (buffer : Nat) :
    (termSetBuffer t buffer).OnScreen := ⟨h.row, h.column⟩

/-- `ESC [ 2 J` moves the buffer back to low memory, where a process has its own pages. -/
theorem term_clear_leaves_window :
    (¬ Stream.AllPrefixes termPutchar (InWindow Tty.windowed.term) .windowed
      (escapeSequence [[chr '2']] (chr 'J'))) ∧
      ∃ s', termWrite .windowed (escapeSequence [[chr '2']] (chr 'J')) = .ok s' ∧
        s'.term.buffer = vgaMemory := by
  obtain ⟨s', hwrite, hbuffer⟩ := termWrite_clear (s := .windowed) Tty.start_idle
    (Tty.start_onScreen.setBuffer kernelVgaBaseVirt)
  refine ⟨fun hall => ?_, s', hwrite, hbuffer⟩
  obtain ⟨s'', hrun, hkept⟩ := hall _ (List.prefix_refl _)
  rw [termWrite] at hwrite
  obtain rfl := Except.ok.inj (hwrite.symm.trans hrun)
  have hmoved := hkept.buffer
  rw [hbuffer] at hmoved
  revert hmoved
  decide

/-! ## from any state of the interpreter -/

/-- `c` is the `J` of a sequence whose first parameter is 2. -/
def AnsiContext.Clears (ctx : AnsiContext) (c : BitVec 8) : Prop :=
  ctx.state = .params ∧ c = chr 'J' ∧
    ∃ ctx', ansiEndParam ctx = .ok ctx' ∧ ctx'.args.toList.getD 0 0 = 2

/-- With room, the character is interpreted, and draws in the buffer or clears the screen. -/
theorem ansiInterpretChar_room {ctx : AnsiContext} (h : ctx.Room c) (t : Term) :
    ∃ escaped ctx' t', ansiInterpretChar ctx t c = .ok (escaped, ctx', t') ∧
      (isalpha c.toInt = true → ctx'.state = .normal) ∧
      (ctx.Clears c → escaped = true ∧ t'.buffer = vgaMemory) ∧ (¬ ctx.Clears c → Drawn t t') := by
  have hstate : ctx.state ≠ .params → ¬ ctx.Clears c := fun hne hc => hne hc.1
  have hplain : c ≠ chr 'J' → ¬ ctx.Clears c := fun hne hc => hne hc.2.1
  cases ansiBranch ctx c with
  | escape hs hc =>
      exact ⟨_, _, _, ansiInterpretChar_escape hs hc t, fun ha => absurd hc (ne_of_class ha (by decide)),
        fun h => absurd h (hstate (by rw [hs]; decide)), fun _ => .refl t⟩
  | text hs hc =>
      exact ⟨_, _, _, ansiInterpretChar_of_normal hs hc t, fun _ => hs,
        fun h => absurd h (hstate (by rw [hs]; decide)), fun _ => .refl t⟩
  | opened hs hc =>
      exact ⟨_, _, _, ansiInterpretChar_opened hs hc t, fun ha => absurd hc (ne_of_class ha (by decide)),
        fun h => absurd h (hstate (by rw [hs]; decide)), fun _ => .refl t⟩
  | closed hs hc =>
      exact ⟨_, _, _, ansiInterpretChar_closed hs hc t, fun _ => rfl,
        fun h => absurd h (hstate (by rw [hs]; decide)), fun _ => .refl t⟩
  | separator hs hsep =>
      obtain ⟨hi, ha⟩ := h hs (.inl hsep)
      obtain ⟨ctx', hend, -⟩ := ansiEndParam_ok hi ha
      rw [ansiInterpretChar_separator hs hsep, hend]
      exact ⟨_, _, _, rfl, fun ha => absurd hsep (ne_of_class ha (by decide)),
        fun h => absurd h (hplain (by rw [hsep]; decide)), fun _ => .refl t⟩
  | overflow hs hdigit hfull =>
      exact ⟨_, _, _, ansiInterpretChar_overflow hs hdigit hfull t, fun _ => rfl,
        fun h => absurd h (hplain (ne_of_class hdigit (by decide))), fun _ => .refl t⟩
  | digit hs hdigit hroom =>
      have halpha := isalpha_of_isdigit hdigit
      exact ⟨_, _, _, ansiInterpretChar_digit hs hdigit hroom t,
        fun ha => (by rw [halpha] at ha; contradiction),
        fun h => absurd h (hplain (ne_of_class hdigit (by decide))), fun _ => .refl t⟩
  | letter hs halpha =>
      obtain ⟨hi, ha⟩ := h hs (.inr halpha)
      obtain ⟨ctx', hend, -⟩ := ansiEndParam_ok hi ha
      rw [ansiInterpretChar_letter hs halpha, hend]
      refine ⟨_, _, _, rfl, fun _ => rfl, fun hclears => ?_, fun hclears => ?_⟩
      · obtain ⟨-, rfl, ctx₁, hend₁, htwo⟩ := hclears
        obtain rfl := Except.ok.inj (hend.symm.trans hend₁)
        exact ⟨rfl, by rw [ansiCommand_clear _ htwo, termInit_buffer]⟩
      · exact ansiCommand_drawn _ _ fun hJ => hclears ⟨hs, hJ.1, _, hend, hJ.2⟩
  | skipped hs hsep hdigit halpha =>
      refine ⟨_, _, _, ansiInterpretChar_skipped hs hsep hdigit halpha t, fun ha => absurd ha halpha,
        fun hclears => ?_, fun _ => .refl t⟩
      obtain ⟨-, rfl, -⟩ := hclears
      exact absurd (by decide) halpha

/-- The terminal can be given `c`: it stands at its window and stays there, and no array of
the interpreter ends at `c`. -/
structure Tty.Takes (s : Tty) (c : BitVec 8) : Prop where
  buffer : s.term.buffer = kernelVgaBaseVirt
  room : s.ctx.Room c
  stays : ¬ s.ctx.Clears c

theorem InWindow.refl {s : Tty} (h : s.term.buffer = kernelVgaBaseVirt) : InWindow s.term s :=
  ⟨h, fun _ _ => rfl⟩

/-- With room, a byte draws in the buffer, or clears the screen. -/
theorem termPutchar_room {s : Tty} (h : s.ctx.Room c) :
    ∃ s', termPutchar s c = .ok s' ∧ (isalpha c.toInt = true → s'.ctx.state = .normal) ∧
      (s.ctx.Clears c → s'.term.buffer = vgaMemory) ∧
      (¬ s.ctx.Clears c → Drawn s.term s'.term) := by
  obtain ⟨escaped, ctx', t', hans, hstate, hclears, hdrawn⟩ :=
    ansiInterpretChar_room h (termAdvance s.term c)
  have hadvance := Drawn.advance s.term c
  rw [termPutchar_of_interpret hans]
  by_cases hshown : (escaped || !isprint c.toInt) = true
  · rw [if_pos hshown]
    exact ⟨_, rfl, hstate, fun hc => (hclears hc).2, fun hc => hadvance.trans (hdrawn hc)⟩
  · rw [if_neg hshown]
    refine ⟨_, rfl, hstate, fun hc => ?_, fun hc => (hadvance.trans (hdrawn hc)).trans (.putNext _ c)⟩
    rw [(hclears hc).1, Bool.true_or] at hshown
    exact absurd rfl hshown

/-- **One character**: it is written inside of the terminal exactly if it can be taken. -/
theorem termPutchar_takes_iff (s : Tty) (c : BitVec 8) :
    (∃ s', termPutchar s c = .ok s' ∧ InWindow s.term s') ↔ s.Takes c := by
  by_cases hroom : s.ctx.Room c
  · obtain ⟨s', hput, -, hclears, hdrawn⟩ := termPutchar_room hroom
    constructor
    · rintro ⟨s'', hput', hwindow⟩
      obtain rfl := Except.ok.inj (hput.symm.trans hput')
      have hstays : ¬ s.ctx.Clears c := fun hc => by
        have hmoved := hwindow.buffer
        rw [hclears hc] at hmoved
        revert hmoved
        decide
      exact ⟨(hdrawn hstays).buffer.symm.trans hwindow.buffer, hroom, hstays⟩
    · rintro ⟨hbuffer, -, hstays⟩
      exact ⟨s', hput, (InWindow.refl hbuffer).drawn (hdrawn hstays)⟩
  · refine iff_of_false (fun ⟨_, hok, _⟩ => ?_) fun h => hroom h.room
    rw [termPutchar_no_room hroom] at hok
    cases hok

/-- Text without escapes, outside of any sequence. -/
theorem termWrite_plain {s : Tty} (hs : s.ctx.state = .normal) (htext : ∀ c ∈ text, c ≠ chr '\x1B') :
    ∃ s', termWrite s text = .ok s' ∧ Drawn s.term s'.term := by
  induction text generalizing s with
  | nil => exact ⟨s, rfl, .refl _⟩
  | cons c text ih =>
      obtain ⟨hc, htext⟩ := List.forall_mem_cons.mp htext
      have hroom : s.ctx.Room c := fun hp => by rw [hs] at hp; cases hp
      have hstays : ¬ s.ctx.Clears c := fun hp => by rw [AnsiContext.Clears, hs] at hp; cases hp.1
      obtain ⟨s', hput, -, -, hdrawn⟩ := termPutchar_room hroom
      have hnormal : s'.ctx.state = .normal := by
        rw [termPutchar_of_interpret (ansiInterpretChar_of_normal hs hc _)] at hput
        rw [← Except.ok.inj hput]
        exact hs
      obtain ⟨s'', hwrite, hrest⟩ := ih hnormal htext
      exact ⟨s'', by rw [termWrite, Stream.foldlM_cons_ok hput, ← termWrite, hwrite],
        (hdrawn hstays).trans hrest⟩

/-- **A message** that begins with a letter, other than `J`, is written inside of the terminal
exactly if the letter can be taken. -/
theorem termWrite_takes_iff (s : Tty) (hc : isalpha c.toInt = true) (hJ : c ≠ chr 'J')
    (htext : ∀ c ∈ text, c ≠ chr '\x1B') :
    (∃ s', termWrite s (c :: text) = .ok s' ∧ InWindow s.term s') ↔ s.Takes c := by
  rw [← termPutchar_takes_iff]
  by_cases hroom : s.ctx.Room c
  · obtain ⟨s₁, hput, hnormal, -, hdrawn⟩ := termPutchar_room hroom
    have hfirst := hdrawn fun h => hJ h.2.1
    obtain ⟨s₂, hwrite, hrest⟩ := termWrite_plain (hnormal hc) htext
    have hwhole : termWrite s (c :: text) = .ok s₂ := by
      rw [termWrite, Stream.foldlM_cons_ok hput, ← termWrite, hwrite]
    constructor
    · rintro ⟨s', hok, hwindow⟩
      obtain rfl := Except.ok.inj (hwhole.symm.trans hok)
      have hbuffer : s.term.buffer = kernelVgaBaseVirt :=
        (hfirst.trans hrest).buffer.symm.trans hwindow.buffer
      exact ⟨s₁, hput, (InWindow.refl hbuffer).drawn hfirst⟩
    · rintro ⟨s', hok, hwindow⟩
      obtain rfl := Except.ok.inj (hput.symm.trans hok)
      exact ⟨s₂, hwhole, hwindow.drawn hrest⟩
  · have hput := termPutchar_no_room hroom
    refine iff_of_false (fun htakes => ?_) fun htakes => ?_
    · obtain ⟨s', hok, -⟩ := htakes
      rw [termWrite, Stream.foldlM_cons_error hput] at hok
      cases hok
    · obtain ⟨s', hok, -⟩ := htakes
      rw [hput] at hok
      cases hok

end NimbleOS
