import NimbleOS.Lib.Run
import NimbleOS.Tty.Lockstep
import NimbleOS.Tty.Redraw

/-!
# NimbleOS.Tty.Interleave

Two writers on one terminal: the bytes that processes write through the `putchar`
system call, and the redraws of `proc_switch_process` between them.  The run with the
redraws is compared with the run of the same bytes without them.  A redraw is not to
be seen if it finds the interpreter idle and the cursor on the screen; what it leaves
behind, in the corner, in the saved cursor and in the interpreter's arguments, must
not be looked at either.
-/

namespace NimbleOS

inductive TtyEvent where
  /-- The `putchar` system call, with the character in `ebx`. -/
  | putchar (ebx : BitVec 32)
  /-- The scheduler switches to the process with this number. -/
  | switch (pid : BitVec 32)
  deriving DecidableEq

/-- `putchar((char)regs->ebx)`. -/
def syscallPutchar (s : Tty) (ebx : BitVec 32) : Except Halt Tty := termPutchar s (ebx.setWidth 8)

def ttyStep (s : Tty) : TtyEvent → Except Halt Tty
  | .putchar ebx => syscallPutchar s ebx
  | .switch pid => procRedraw s pid

/-- The bytes and the switches, in their order. -/
def ttyRun (s : Tty) (es : List TtyEvent) : Except Halt Tty := es.foldlM ttyStep s

/-- The bytes alone. -/
def ttyBytes : List TtyEvent → List (BitVec 8)
  | [] => []
  | .putchar ebx :: es => ebx.setWidth 8 :: ttyBytes es
  | .switch _ :: es => ttyBytes es

/-- The two cells that belong to the process number. -/
def InCorner (x y : Nat) : Prop := y = 24 ∧ 78 ≤ x

/-- Both runs, side by side: the first one without the redraws. -/
inductive PairStep : Tty × Tty → TtyEvent → Tty × Tty → Prop where
  | putchar : syscallPutchar s ebx = .ok t → syscallPutchar s' ebx = .ok t' →
      PairStep (s, s') (.putchar ebx) (t, t')
  | switch : procRedraw s' pid = .ok t' → PairStep (s, s') (.switch pid) (s, t')

/-- What a byte needs of the states of the two runs before it.  If it scrolls, the
corners of both screens agree but for what it overwrites; if it is the letter of a
sequence, what the letter reads besides the parameters of its sequence agrees. -/
structure ByteUndisturbed (s s' : Tty) (c : BitVec 8) : Prop where
  scroll : (termPlace s.term c).row ≥ vgaHeight → ∀ x, 78 ≤ x → x < vgaWidth →
    s'.term.cell x 24 = s.term.cell x 24 ∨ c = chr '\t' ∧ InTab s.term x 24
  letter : s.ctx.state = .params → LetterAgrees s.ctx s'.ctx c

/-- What an event needs.  A switch finds the interpreter idle and the cursor on the
screen. -/
def Undisturbed (p : Tty × Tty) : TtyEvent → Prop
  | .putchar ebx => ByteUndisturbed p.1 p.2 (ebx.setWidth 8)
  | .switch _ => p.2.ctx.Idle ∧ p.2.term.OnScreen

/-! ## one event -/

/-- The cells that scroll out of the corner agree. -/
theorem byteAgrees_of_undisturbed {s s' : Tty} (h : SameTty InCorner s s')
    (hc : ByteUndisturbed s s' c) : ByteAgrees InCorner s s' c where
  letter := hc.letter
  scroll := by
    intro hfull x hx y hy hne
    -- of the corner, `left` remains to be overwritten by a tab
    have hleft : SameTerm
        (fun x y => InCorner x y ∧ s'.term.cell x y ≠ s.term.cell x y) s.term s'.term := by
      refine ⟨h.term.row, h.term.column, h.term.color, fun x hx y hy hne => ?_⟩
      by_cases hcorner : InCorner x y
      · exact Classical.not_not.mp fun hdiff => hne ⟨hcorner, hdiff⟩
      · exact h.term.cells x hx y hy hcorner
    have hy' : y + 1 < vgaHeight := by omega
    by_cases hcorner : InCorner x (y + 1)
    · obtain ⟨rfl, hx'⟩ : y = 23 ∧ 78 ≤ x := ⟨by have := hcorner.1; omega, hcorner.2⟩
      obtain hsame | ⟨rfl, htab⟩ := hc.scroll hfull x hx' hx
      · exact (hleft.place c).cells x hx 24 (by decide) fun hdiff => hdiff.2 hsame
      · exact hleft.tab.cells x hx 24 (by decide) fun hdiff => hdiff.2 htab
    · exact (hleft.place c).cells x hx (y + 1) hy' fun hdiff => hcorner hdiff.1

/-- An undisturbed redraw is not to be seen. -/
theorem procRedraw_same {s s' : Tty} (h : SameTty InCorner s s')
    (hc : Undisturbed (s, s') (.switch pid)) (hpid : pid.toNat < 10) :
    ∃ t', procRedraw s' pid = .ok t' ∧ SameTty InCorner s t' := by
  obtain ⟨hidle, hon⟩ := hc
  have hlen := (length_itoa_pid pid).mpr hpid
  cases htext : itoa pid.toInt 10 with
  | nil => exact absurd htext (itoa_ne_nil _)
  | cons a more =>
      obtain rfl : more = [] := by
        rw [htext, List.length_cons] at hlen
        exact List.length_eq_zero_iff.mp (by omega)
      obtain ⟨t', hok, hidle', -, -, hrow, hcol, hcolor, hcells⟩ :=
        procRedraw_of_short hidle hon htext
      have hstate : s.ctx.state = .normal := h.interpreter.state.symm.trans hidle.state
      have hindex : s.ctx.currentIndex = 0 := h.interpreter.currentIndex.symm.trans hidle.index
      have harg : s.ctx.currentArg = 0 := h.interpreter.currentArg.symm.trans hidle.arg
      refine ⟨t', hok,
        { term := ⟨hrow.trans h.term.row, hcol.trans h.term.column, hcolor.trans h.term.color, ?_⟩
          interpreter := .of_idle hstate hindex harg hidle'.state hidle'.index hidle'.arg }⟩
      intro x hx y hy hne
      rw [hcells x hx y hy]
      exact (if_neg hne).trans (h.term.cells x hx y hy hne)

/-! ## runs -/

/-- **Run lemma**: while every event is undisturbed, the two runs stay in step. -/
theorem ttyRun_same {s s' : Tty} (h : SameTty InCorner s s') (es : List TtyEvent)
    (hpid : ∀ pid, .switch pid ∈ es → pid.toNat < 10)
    (hall : Run.Always PairStep Undisturbed (s, s') es) :
    Relates (SameTty InCorner) (termWrite s (ttyBytes es)) (ttyRun s' es) := by
  induction es generalizing s s' with
  | nil => exact .ok h
  | cons e es ih =>
      have hpid' : ∀ pid, .switch pid ∈ es → pid.toNat < 10 := fun pid hmem =>
        hpid pid (List.mem_cons_of_mem _ hmem)
      rw [ttyRun, List.foldlM_cons]
      cases e with
      | putchar ebx =>
          have hbyte := termPutchar_same h (byteAgrees_of_undisturbed h hall.head)
          rw [ttyBytes, termWrite, List.foldlM_cons, ttyStep]
          exact hbyte.bind fun t t' ht ht' hsame => ih hsame hpid' (hall.tail (.putchar ht ht'))
      | switch pid =>
          obtain ⟨t', hok, hsame⟩ := procRedraw_same h hall.head (hpid pid (by simp))
          rw [ttyBytes, ttyStep, hok]
          exact ih hsame hpid' (hall.tail (.switch hok))

/-- **Redraws are not to be seen**: if every event of the run is undisturbed, the run
with redraws of one-digit process numbers ends as the bytes alone do: the cursor, the
interpreter and all cells but the two in the corner are the same. -/
theorem tty_redraws_unseen (s : Tty) (es : List TtyEvent)
    (hpid : ∀ pid, .switch pid ∈ es → pid.toNat < 10)
    (hall : Run.Always PairStep Undisturbed (s, s) es) :
    Relates (SameTty InCorner) (termWrite s (ttyBytes es)) (ttyRun s es) :=
  ttyRun_same ⟨.refl _, .refl _⟩ es hpid hall

theorem termPlace_of_onScreen {t : Term} (h : t.OnScreen) (hc : IsQuiet c) :
    termPlace t c = t := by
  unfold termPlace termBreak termWrap
  simp only [if_neg hc.newline, if_neg hc.tab]
  exact if_neg (Nat.not_le.mpr h.column)

/-- A switch before a character. -/
theorem tty_redraws_unseen_switch :
    Relates (SameTty InCorner) (termWrite .start (ttyBytes [.switch 1, .putchar 97]))
      (ttyRun .start [.switch 1, .putchar 97]) := by
  refine tty_redraws_unseen .start _ (fun pid hmem => ?_) (.cons ?_ fun p hp => ?_)
  · obtain rfl : pid = 1 := by simpa using hmem
    decide
  · exact ⟨Tty.start_idle, Tty.start_onScreen⟩
  · refine .cons ?_ fun _ _ => Run.always_nil
    cases hp with
    | switch hok =>
        have hplace := termPlace_of_onScreen (c := chr 'a') Tty.start_onScreen
          ⟨by decide, by decide⟩
        constructor
        · intro hfull
          rw [show (BitVec.setWidth 8 (97 : BitVec 32)) = chr 'a' by decide, hplace] at hfull
          exact absurd Tty.start_onScreen.row (Nat.not_lt.mpr hfull)
        · intro hparams
          cases hparams

/-- A process writes these characters. -/
def putchars (text : List (BitVec 8)) : List TtyEvent := text.map fun c => .putchar (c.setWidth 32)

theorem ttyRun_putchars (h : termWrite s text = .ok s') (es : List TtyEvent) :
    ttyRun s (putchars text ++ es) = ttyRun s' es := by
  induction text generalizing s with
  | nil =>
      obtain rfl := Except.ok.inj h
      rfl
  | cons c text ih =>
      rw [termWrite, List.foldlM_cons] at h
      obtain ⟨s₁, hput, h⟩ := bind_eq_ok.mp h
      have hchar : (c.setWidth 32).setWidth 8 = c := by simp
      have hstep : ttyStep s (.putchar (c.setWidth 32)) = .ok s₁ := by
        rw [ttyStep, syscallPutchar, hchar, hput]
      rw [putchars, List.map_cons, List.cons_append, ttyRun, List.foldlM_cons, hstep]
      exact ih h

theorem ttyBytes_putchars (text : List (BitVec 8)) (es : List TtyEvent) :
    ttyBytes (putchars text ++ es) = text ++ ttyBytes es := by
  induction text with
  | nil => rfl
  | cons c text ih =>
      have hchar : (c.setWidth 32).setWidth 8 = c := by simp
      rw [putchars, List.map_cons, List.cons_append, ttyBytes, hchar, ← putchars, ih]
      rfl

/-- A process saves the cursor, writes a character and restores the cursor; a switch
comes in between. -/
def saveRestore : List TtyEvent :=
  putchars [chr '\x1B', chr '[', chr 's'] ++ (putchars [chr 'a'] ++
    .switch 1 :: (putchars [chr '\x1B', chr '[', chr 'u'] ++ []))

/-- The cursor is restored to where the redraw found it, not to where it was saved. -/
theorem saveRestore_differs {s : Tty} (hidle : s.ctx.Idle) (hon : s.term.OnScreen)
    (hcol : s.term.column + 1 < vgaWidth) :
    ¬ Relates (SameTty InCorner) (termWrite s (ttyBytes saveRestore)) (ttyRun s saveRestore) := by
  obtain ⟨ctx₁, hsave, hidle₁, -, hsaved₁⟩ := termWrite_save hidle hon
  -- the character moves the cursor by one
  obtain ⟨t₂, hchar, hput⟩ := termWrite_row (s := { s with ctx := ctx₁ }) hidle₁.state
    hon.row (show s.term.column + [chr 'a'].length ≤ vgaWidth from Nat.le_of_lt hcol)
    (by decide)
  have hon₂ : t₂.OnScreen := ⟨hput.row ▸ hon.row, hput.column ▸ hcol⟩
  -- the bytes alone
  obtain ⟨ctx₃, hrestore, -⟩ := termWrite_restore (s := { ctx := ctx₁, term := t₂ }) hidle₁ hon₂
  -- with the redraw
  have htext : itoa (1 : BitVec 32).toInt 10 = [chr '1'] := by decide
  obtain ⟨s₄, hredraw, hidle₄, -, hsaved₄, hrow₄, hcol₄, -⟩ :=
    procRedraw_of_short (s := { ctx := ctx₁, term := t₂ }) hidle₁ hon₂ htext
  have hon₄ : s₄.term.OnScreen := ⟨hrow₄ ▸ hon₂.row, hcol₄ ▸ hon₂.column⟩
  obtain ⟨ctx₅, hrestore', -⟩ := termWrite_restore hidle₄ hon₄
  have hswitch : ttyStep { ctx := ctx₁, term := t₂ } (.switch 1) = .ok s₄ := hredraw
  have hwith : ttyRun s saveRestore =
      ttyRun s₄ (putchars [chr '\x1B', chr '[', chr 'u'] ++ []) := by
    rw [saveRestore, ttyRun_putchars hsave, ttyRun_putchars hchar, ttyRun, List.foldlM_cons,
      hswitch]
    rfl
  rw [hwith, ttyRun_putchars hrestore', saveRestore, ttyBytes_putchars, ttyBytes_putchars, ttyBytes,
    ttyBytes_putchars, termWrite_append hsave, termWrite_append hchar, termWrite_append hrestore]
  intro hrel
  cases hrel with
  | ok hsame =>
      have hwant : s₄.ctx.savedCol = ctx₁.savedCol := hsame.term.column
      rw [hsaved₄, hsaved₁] at hwant
      have hmoved : t₂.column = s.term.column + 1 := hput.column
      dsimp only at hwant
      omega

theorem tty_redraw_loses_saved_cursor :
    ¬ Relates (SameTty InCorner) (termWrite .start (ttyBytes saveRestore))
      (ttyRun .start saveRestore) := by
  have hcol : Tty.start.term.column = 0 :=
    (termInit_spec { row := 0, column := 0, color := 0, buffer := 0, memory := fun _ => 0 }).2.1
  refine saveRestore_differs Tty.start_idle Tty.start_onScreen ?_
  rw [hcol]
  decide

end NimbleOS
