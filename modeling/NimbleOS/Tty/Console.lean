import NimbleOS.Cpu.Keyboard
import NimbleOS.Tty.Interleave

/-!
# NimbleOS.Tty.Console

All that writes on the one terminal: `printf` in the kernel, the echo of the keyboard
handler, the `putchar` system call, and the process number at each switch.  `Logs`
says which text they amount to; `console_shows` that, whatever their order, the
screen left of the two columns of the process number is that text in rows, also
after any scrolling.
-/

namespace NimbleOS

inductive ConsoleEvent where
  /-- `printf` in the kernel; `mem` is what it finds in memory. -/
  | printf (mem : Nat → BitVec 8) (format : Nat) (args : List (BitVec 32))
  /-- IRQ 1, with the byte in `KBD_DATA`. -/
  | key (scancode : BitVec 8)
  /-- The `putchar` system call, with the character in `ebx`. -/
  | putchar (ebx : BitVec 32)
  /-- The scheduler switches to the process with this number. -/
  | switch (pid : BitVec 32)

structure Console where
  keyboard : Keyboard
  tty : Tty

def consoleStep (fuel : Nat) (s : Console) : ConsoleEvent → Except Halt Console
  | .printf mem format args => do
      let printed ← printf mem fuel format args
      let tty ← termWrite s.tty printed.chars
      return { s with tty := tty }
  | .key scancode => do
      let (keyboard, text) ← keyboardHandler s.keyboard scancode
      let tty ← termWrite s.tty text
      return { keyboard := keyboard, tty := tty }
  | .putchar ebx => do
      let tty ← syscallPutchar s.tty ebx
      return { s with tty := tty }
  | .switch pid => do
      let tty ← procRedraw s.tty pid
      return { s with tty := tty }

/-- The events in their order. -/
def consoleRun (fuel : Nat) (s : Console) (es : List ConsoleEvent) : Except Halt Console :=
  es.foldlM (consoleStep fuel) s

/-! ## the text -/

/-- A character of plain text. -/
def Legible (c : BitVec 8) : Prop := isprint c.toInt = true ∨ isBreak c = true

instance (c : BitVec 8) : Decidable (Legible c) := inferInstanceAs (Decidable (_ ∨ _))

/-- The length of the last row. -/
def lastLength (text : List (BitVec 8)) : Nat := ((textRows text).getLastD []).length

/-- A switch that finds the last row full breaks the line, where otherwise the next character
would. -/
def textAtSwitch (text : List (BitVec 8)) : List (BitVec 8) :=
  if lastLength text = vgaWidth then text ++ [chr '\n'] else text

def keyBackspace : Nat := 0x0E
def keyTab : Nat := 0x0F

/-- What an event adds to the text, and what it does to `keys_state`. -/
inductive Logs : Keyboard × List (BitVec 8) → ConsoleEvent → Keyboard × List (BitVec 8) → Prop where
  | printf : Rendered mem ps args out → IsCString mem format (ps.flatMap Piece.text) →
      (∀ c ∈ out, Legible c) → Logs (k, text) (.printf mem format (args ++ more)) (k, text ++ out)
  | key : keyCode b < scToChar.length → keyCode b ≠ keyBackspace → keyCode b ≠ keyTab →
      Logs (k, text) (.key b) (k.after b, text ++ k.echo b)
  | putchar : Legible (ebx.setWidth 8) → Logs (k, text) (.putchar ebx) (k, text ++ [ebx.setWidth 8])
  | switch : pid.toNat < 10 → Logs (k, text) (.switch pid) (k, textAtSwitch text)

/-! ## what keys print -/

theorem legible_textIf (flag : Bool) (h : ∀ c ∈ text.toList.map chr, Legible c) :
    ∀ c ∈ textIf flag text, Legible c := by
  cases flag with
  | true => exact h
  | false => exact fun c hc => absurd hc List.not_mem_nil

theorem legible_keyText (hc : Legible c) (event : KeyEvent) : ∀ d ∈ keyText c event, Legible d := by
  intro d hd
  rw [keyText, List.cons_append, List.cons_append, List.cons_append, List.mem_cons, List.mem_append,
    List.mem_append, List.mem_append] at hd
  rcases hd with rfl | ((halt | hshift) | hcontrol) | hsuper
  · exact hc
  · exact legible_textIf _ (by decide) d halt
  · exact legible_textIf _ (by decide) d hshift
  · exact legible_textIf _ (by decide) d hcontrol
  · exact legible_textIf _ (by decide) d hsuper

theorem legible_scToChar : ∀ i < scToChar.length, i ≠ keyBackspace → i ≠ keyTab →
    scToChar.getD i 0 ≠ 0 → Legible (scToChar.getD i 0) := by
  decide

/-- No key but backspace and tab prints anything else than text. -/
theorem legible_echo (k : Keyboard) (hcode : keyCode b < scToChar.length)
    (hback : keyCode b ≠ keyBackspace) (htab : keyCode b ≠ keyTab) : ∀ c ∈ k.echo b, Legible c := by
  by_cases hchar : scToChar.getD (keyCode b) 0 = 0
  · rw [Keyboard.echo, if_neg (not_not.mpr hchar)]
    exact fun c hc => absurd hc List.not_mem_nil
  · rw [Keyboard.echo, if_pos hchar]
    exact legible_keyText (legible_scToChar _ hcode hback htab hchar) _

theorem keyboardHandler_ok (hcode : keyCode b < scToChar.length) (k : Keyboard) :
    keyboardHandler k b = .ok (k.after b, k.echo b) := by
  have hstep := keyboardStep_ok hcode k []
  rw [keyboardStep] at hstep
  obtain ⟨⟨k', text⟩, hhandler, hpure⟩ := bind_eq_ok.mp hstep
  obtain ⟨rfl, rfl⟩ := Prod.mk.inj (Except.ok.inj hpure)
  exact hhandler

/-! ## the screen and the text -/

/-- The two columns of the process number. -/
def InMargin (x _y : Nat) : Prop := 78 ≤ x

/-- Left of the margin the terminal shows the text, and between two events its interpreter is
idle. -/
structure Types (s : Tty) (text : List (BitVec 8)) : Prop where
  idle : s.ctx.Idle
  shown : ∃ t, Shows t (textRows text) ∧ SameTerm InMargin t s.term

namespace Types

variable {s : Tty}

theorem row (h : Types s text) : s.term.row = min ((textRows text).length - 1) (vgaHeight - 1) := by
  obtain ⟨t, hshows, hsame⟩ := h.shown
  exact hsame.row.trans hshows.row

theorem column (h : Types s text) : s.term.column = lastLength text := by
  obtain ⟨t, hshows, hsame⟩ := h.shown
  exact hsame.column.trans hshows.column

/-- What scrolls comes from the same column. -/
theorem byteAgrees {t u : Term} (h : SameTerm InMargin t u) (hs : ctx.state = .normal)
    (c : BitVec 8) : ByteAgrees InMargin { ctx := ctx, term := t } { ctx := ctx, term := u } c where
  letter := fun hparams => by
    rw [hs] at hparams
    cases hparams
  scroll := fun _ x hx y hy hoff => (h.place c).cells x hx (y + 1) (by omega) hoff

/-- **One character** more. -/
theorem putchar (h : Types s text) (hc : Legible c) :
    ∃ s', termPutchar s c = .ok s' ∧ Types s' (text ++ [c]) := by
  obtain ⟨t, hshows, hsame⟩ := h.shown
  obtain ⟨t', hput, hshows'⟩ :=
    termPutchar_shows (s := { ctx := s.ctx, term := t }) h.idle.state hshows hc
  have hboth : SameTty InMargin { ctx := s.ctx, term := t } s := ⟨hsame, .refl _⟩
  have hrel := termPutchar_same hboth (byteAgrees hsame h.idle.state c)
  rw [hput] at hrel
  obtain ⟨s', hok, hsame'⟩ := hrel.of_ok
  exact ⟨s', hok,
    { idle :=
        { state := hsame'.interpreter.state.trans h.idle.state
          index := hsame'.interpreter.currentIndex.trans h.idle.index
          arg := hsame'.interpreter.currentArg.trans h.idle.arg }
      shown := ⟨t', hshows', hsame'.term⟩ }⟩

/-- Any number of characters. -/
theorem write (h : Types s text) (hmore : ∀ c ∈ more, Legible c) :
    ∃ s', termWrite s more = .ok s' ∧ Types s' (text ++ more) := by
  induction more generalizing s text with
  | nil => exact ⟨s, rfl, by rwa [List.append_nil]⟩
  | cons c more ih =>
      obtain ⟨hc, hmore⟩ := List.forall_mem_cons.mp hmore
      obtain ⟨s₁, hput, h₁⟩ := h.putchar hc
      obtain ⟨s', hwrite, h'⟩ := ih h₁ hmore
      rw [List.append_assoc] at h'
      exact ⟨s', by rw [termWrite_cons hput, hwrite], h'⟩

end Types

/-! ## switches -/

theorem lastLength_le (text : List (BitVec 8)) : lastLength text ≤ vgaWidth := by
  obtain ⟨pre, last, hrows, hle, -⟩ := Layout.rows_snoc isBreak vgaWidth (by decide) text 0
  rw [lastLength, textRows, hrows, List.getLastD_concat]
  exact hle

theorem lastLength_break (text : List (BitVec 8)) : lastLength (text ++ [chr '\n']) = 0 := by
  obtain ⟨pre, last, -, -, hsnoc⟩ := Layout.rows_snoc isBreak vgaWidth (by decide) text (chr '\n')
  rw [lastLength, textRows, hsnoc, if_pos (by decide)]
  simp

/-- The text of a number below 10. -/
theorem itoa_pid {pid : BitVec 32} (hpid : pid.toNat < 10) : itoa pid.toInt 10 = [digitChar pid.toNat] := by
  have htoInt : pid.toInt = pid.toNat := by
    rw [BitVec.toInt_eq_toNat_cond]
    split <;> omega
  rw [itoa_ten, htoInt, if_neg (by omega), Int.natAbs_natCast, numeral, Numeral.digits,
    Numeral.lsdFirst_step (by decide), Nat.div_eq_of_lt hpid, if_pos rfl, Nat.mod_eq_of_lt hpid]
  rfl

namespace Types

variable {s : Tty}

theorem onScreen (h : Types s text) (hroom : lastLength text < vgaWidth) : s.term.OnScreen where
  row := by
    rw [h.row]
    unfold vgaHeight
    omega
  column := by rwa [h.column]

/-- The redraw keeps to the margin. -/
theorem redraw_of_room (h : Types s text) (hroom : lastLength text < vgaWidth)
    (hpid : pid.toNat < 10) : ∃ s', procRedraw s pid = .ok s' ∧ Types s' text ∧
      cellChar (s'.term.cell 78 24) = digitChar pid.toNat := by
  obtain ⟨t, hshows, hsame⟩ := h.shown
  obtain ⟨s', hok, hidle, -, -, hrow, hcol, hcolor, hcells⟩ :=
    procRedraw_of_short h.idle (h.onScreen hroom) (itoa_pid hpid)
  refine ⟨s', hok, ⟨hidle, t, hshows, ?_⟩, ?_⟩
  · refine ⟨hrow.trans hsame.row, hcol.trans hsame.column, hcolor.trans hsame.color,
      fun x hx y hy hoff => ?_⟩
    rw [hcells x hx y hy, if_neg fun hc => hoff hc.2]
    exact hsame.cells x hx y hy hoff
  · rw [hcells 78 (by decide) 24 (by decide), if_pos ⟨rfl, by decide⟩, if_pos rfl, Term.cellOf,
      cellChar_termMakeEntry]

/-- The redraw finds the last row full: its first character breaks the line. -/
theorem redraw_of_full (h : Types s text) (hfull : lastLength text = vgaWidth) :
    ∃ s₁, Types s₁ (text ++ [chr '\n']) ∧ ∀ pid, procRedraw s pid = procRedraw s₁ pid := by
  have hbreak : isBreak (chr '\n') = true := by decide
  obtain ⟨s₁, hput, h₁⟩ := h.putchar (.inr hbreak)
  rw [termPutchar_of_break h.idle.state hbreak] at hput
  obtain rfl := Except.ok.inj hput
  have hon := h₁.onScreen (by rw [lastLength_break]; decide)
  have hfirst : "\x1B[s\x1B[24;78H".toList.map chr =
      chr '\x1B' :: "[s\x1B[24;78H".toList.map chr := rfl
  refine ⟨_, h₁, fun pid => ?_⟩
  rw [procRedraw, procRedraw, hfirst, kernelPrintf_plain (by decide), kernelPrintf_plain (by decide),
    termWrite_newRow (by rw [h.column, hfull]) hon ⟨by decide, by decide⟩]

/-- **A switch.** -/
theorem redraw (h : Types s text) (hpid : pid.toNat < 10) :
    ∃ s', procRedraw s pid = .ok s' ∧ Types s' (textAtSwitch text) ∧
      cellChar (s'.term.cell 78 24) = digitChar pid.toNat := by
  have hle := lastLength_le text
  by_cases hfull : lastLength text = vgaWidth
  · obtain ⟨s₁, h₁, hredraw⟩ := h.redraw_of_full hfull
    rw [textAtSwitch, if_pos hfull, hredraw]
    exact h₁.redraw_of_room (by rw [lastLength_break]; decide) hpid
  · rw [textAtSwitch, if_neg hfull]
    exact h.redraw_of_room (by omega) hpid

end Types

/-! ## runs -/

/-- The console after the events that `Logs` has seen. -/
structure Follows (s : Console) (x : Keyboard × List (BitVec 8)) : Prop where
  keyboard : s.keyboard = x.1
  types : Types s.tty x.2

/-- **Step lemma.** -/
theorem Follows.step (h : Follows s x) (hlogs : Logs x e x') :
    ∃ s' n, (∀ fuel, n ≤ fuel → consoleStep fuel s e = .ok s') ∧ Follows s' x' := by
  obtain ⟨hkeyboard, htypes⟩ := h
  cases hlogs with
  | printf hrendered hformat hlegible =>
      rename_i more
      obtain ⟨n, hprintf⟩ := printf_rendered hrendered hformat more
      obtain ⟨tty, hwrite, htypes'⟩ := htypes.write hlegible
      refine ⟨{ s with tty := tty }, n, fun fuel hfuel => ?_, hkeyboard, htypes'⟩
      simp only [consoleStep, hprintf fuel hfuel, hwrite, bind, Except.bind, pure, Except.pure]
  | key hcode hback htab =>
      rename_i b k text
      obtain rfl : s.keyboard = k := hkeyboard
      obtain ⟨tty, hwrite, htypes'⟩ := htypes.write (legible_echo s.keyboard hcode hback htab)
      refine ⟨{ keyboard := s.keyboard.after b, tty := tty }, 0, fun fuel _ => ?_, rfl, htypes'⟩
      simp only [consoleStep, keyboardHandler_ok hcode, hwrite, bind, Except.bind, pure, Except.pure]
  | putchar hlegible =>
      obtain ⟨tty, hput, htypes'⟩ := htypes.putchar hlegible
      refine ⟨{ s with tty := tty }, 0, fun fuel _ => ?_, hkeyboard, htypes'⟩
      simp only [consoleStep, syscallPutchar, hput, bind, Except.bind, pure, Except.pure]
  | switch hpid =>
      obtain ⟨tty, hredraw, htypes', -⟩ := htypes.redraw hpid
      refine ⟨{ s with tty := tty }, 0, fun fuel _ => ?_, hkeyboard, htypes'⟩
      simp only [consoleStep, hredraw, bind, Except.bind, pure, Except.pure]

/-- **Run lemma.** -/
theorem Follows.run (h : Follows s x) (hrun : Run Logs x es x') :
    ∃ s' n, (∀ fuel, n ≤ fuel → consoleRun fuel s es = .ok s') ∧ Follows s' x' := by
  induction hrun generalizing s with
  | nil => exact ⟨s, 0, fun _ _ => rfl, h⟩
  | cons hlogs _ ih =>
      obtain ⟨s₁, n₁, hstep, h₁⟩ := h.step hlogs
      obtain ⟨s', n₂, hrun, h'⟩ := ih h₁
      refine ⟨s', max n₁ n₂, fun fuel hfuel => ?_, h'⟩
      rw [consoleRun, List.foldlM_cons, hstep fuel (by omega)]
      exact hrun fuel (by omega)

/-- A switch at the end leaves its number in the corner. -/
theorem Follows.run_switch (h : Follows s x) (hrun : Run Logs x (es ++ [.switch pid]) x') :
    ∃ s' n, (∀ fuel, n ≤ fuel → consoleRun fuel s (es ++ [.switch pid]) = .ok s') ∧
      cellChar (s'.tty.term.cell 78 24) = digitChar pid.toNat := by
  obtain ⟨x₁, hbefore, hlast⟩ := hrun.of_append
  obtain ⟨s₁, n, hrun₁, h₁⟩ := h.run hbefore
  cases hlast with
  | cons hlogs _ =>
      cases hlogs with
      | switch hpid =>
          obtain ⟨tty, hredraw, -, hcorner⟩ := h₁.types.redraw hpid
          refine ⟨{ s₁ with tty := tty }, n, fun fuel hfuel => ?_, hcorner⟩
          have hbefore := hrun₁ fuel hfuel
          rw [consoleRun] at hbefore
          rw [consoleRun, Stream.foldlM_append_ok hbefore, List.foldlM_cons]
          simp only [consoleStep, hredraw, bind, Except.bind, pure, Except.pure]
          rfl

/-- **The console.**  From `term_init` on, whatever plain text the kernel, the keyboard and the
processes print, in whatever order, and whenever processes below number 10 are switched to: no
call halts, `keys_state` and the cursor are those of the keys and the text, the screen shows the
end of the text in rows of 80, but for the last two columns, and after a switch the corner shows
the number of the process. -/
theorem console_shows (hidle : s.tty.ctx.Idle) (hinit : s.tty.term = termInit t₀)
    (hrun : Run Logs (s.keyboard, []) es (k, text)) :
    ∃ s' n, (∀ fuel, n ≤ fuel → consoleRun fuel s es = .ok s') ∧ s'.keyboard = k ∧
      s'.tty.ctx.Idle ∧ s'.tty.term.row = min ((textRows text).length - 1) 24 ∧
      s'.tty.term.column = ((textRows text).getLastD []).length ∧
      (∀ x < 78, ∀ y < 25, cellChar (s'.tty.term.cell x y) = shownChar (textRows text) x y) ∧
      ∀ es₀ pid, es = es₀ ++ [.switch pid] →
        cellChar (s'.tty.term.cell 78 24) = digitChar pid.toNat := by
  have hstart : Follows s (s.keyboard, []) :=
    ⟨rfl, hidle, termInit t₀, termInit_shows t₀, by rw [hinit]; exact .refl _⟩
  obtain ⟨s', n, hok, h'⟩ := hstart.run hrun
  refine ⟨s', n, hok, h'.keyboard, h'.types.idle, h'.types.row, h'.types.column,
    fun x hx y hy => ?_, fun es₀ pid hes => ?_⟩
  · obtain ⟨t, hshows, hsame⟩ := h'.types.shown
    have hx' : x < vgaWidth := Nat.lt_trans hx (by decide)
    rw [hsame.cells x hx' y hy (Nat.not_le.mpr hx)]
    exact hshows.chars x hx' y hy
  · subst hes
    obtain ⟨s'', n', hok', hcorner⟩ := hstart.run_switch hrun
    have hsame := (hok (max n n') (by omega)).symm.trans (hok' (max n n') (by omega))
    rw [Except.ok.inj hsame]
    exact hcorner

/-- A number and a line break, the key `A`, a system call, a switch. -/
def consoleEvents : List ConsoleEvent :=
  [.printf (literal ("%05d\n".toList.map chr)) 0 [-205], .key 0x1E, .putchar 33, .switch 3]

theorem textRows_consoleEvents :
    textRows ("0-205\na!".toList.map chr) = ["0-205".toList.map chr, [chr 'a', chr '!']] := by
  have hlines : Layout.lines isBreak ("0-205\na!".toList.map chr) =
      ["0-205".toList.map chr, [chr 'a', chr '!']] := by decide
  have hfirst : Layout.chunks vgaWidth ("0-205".toList.map chr) = ["0-205".toList.map chr] :=
    Layout.chunks_of_le vgaWidth (by decide)
  have hsecond : Layout.chunks vgaWidth [chr 'a', chr '!'] = [[chr 'a', chr '!']] :=
    Layout.chunks_of_le vgaWidth (by decide)
  rw [textRows, Layout.rows, hlines, List.flatMap_cons, hfirst, List.flatMap_cons, hsecond]
  rfl

theorem consoleEvents_logged : ∃ k, Run Logs (Keyboard.start.1, []) consoleEvents
    (k, "0-205\na!".toList.map chr) := by
  have hnewline : chr '\n' ≠ 0 ∧ chr '\n' ≠ chr '%' := by decide
  have htext : [chr '-', chr '2', chr '0', chr '5'] = itoa (-205 : BitVec 32).toInt 10 := by decide
  have hformat : IsCString (literal ("%05d\n".toList.map chr)) 0 ("%05d\n".toList.map chr) := by
    repeat' constructor
    all_goals decide
  have hrendered : Rendered (literal ("%05d\n".toList.map chr)) _ [-205] ("0-205\n".toList.map chr) :=
    .directive { pad0 := true, width := some 5, conversion := .d } (htext.trans (itoa_ten _))
      (.ordinary (chr '\n') hnewline .nil)
  have hprintf : Logs (Keyboard.start.1, [])
      (.printf (literal ("%05d\n".toList.map chr)) 0 ([-205] ++ []))
      (Keyboard.start.1, [] ++ "0-205\n".toList.map chr) := .printf hrendered hformat (by decide)
  have hroom : textAtSwitch ("0-205\na!".toList.map chr) = "0-205\na!".toList.map chr := by
    rw [textAtSwitch, lastLength, textRows_consoleEvents]
    rfl
  have hswitch : Logs (Keyboard.start.1.after 0x1E, "0-205\na!".toList.map chr) (.switch 3) _ :=
    .switch (by decide)
  rw [hroom] at hswitch
  exact ⟨_, .cons hprintf
    (.cons (.key (by decide) (by decide) (by decide))
      (.cons (.putchar (by decide)) (.cons hswitch (.nil _))))⟩

theorem console_shows_events :
    ∃ s' n, (∀ fuel, n ≤ fuel →
        consoleRun fuel { keyboard := Keyboard.start.1, tty := .start } consoleEvents = .ok s') ∧
      s'.tty.term.row = 1 ∧ s'.tty.term.column = 2 ∧
      cellChar (s'.tty.term.cell 0 1) = chr 'a' ∧ cellChar (s'.tty.term.cell 78 24) = chr '3' := by
  obtain ⟨k, hlogged⟩ := consoleEvents_logged
  obtain ⟨s', n, hok, -, -, hrow, hcol, hcells, hcorner⟩ :=
    console_shows (s := { keyboard := Keyboard.start.1, tty := .start }) Tty.start_idle rfl hlogged
  have hcell := hcells 0 (by decide) 1 (by decide)
  have hpid := hcorner (consoleEvents.take 3) 3 rfl
  rw [textRows_consoleEvents] at hrow hcol hcell
  exact ⟨s', n, hok, hrow, hcol, hcell, hpid⟩

end NimbleOS
