import NimbleOS.Lib.LastWrite
import NimbleOS.Lib.Stream
import NimbleOS.Libc.Format

/-!
# NimbleOS.Cpu.Keyboard

The keyboard driver (`kernel/src/cpu/devices/keyboard.c`): one scancode byte for each
interrupt.  The handler records presses and releases in `keys_state` and echoes characters
from `sc_to_char`; it does not know the prefix of the extended keys, and looks up the
character of a release too.
-/

namespace NimbleOS

/-! ## the tables -/

/-- `sc_to_char`. -/
def scToChar : List (BitVec 8) :=
  [0, 0] ++ "1234567890-=\x08\tqwertyuiop[]\r".toList.map chr ++ [0] ++
    "asdfghjkl;'\x60".toList.map chr ++ [0] ++ "\\zxcvbnm,./".toList.map chr ++ [0, chr '*', 0, chr ' '] ++
    List.replicate 13 0 ++ "789-456+1230.".toList.map chr ++ List.replicate 8 0

/-- The number of elements of `sc_to_char`. -/
def keysStateCount : Nat := 256

def keyLCtrl : Nat := 0x1D
def keyLShift : Nat := 0x2A
def keyRShift : Nat := 0x36
def keyLAlt : Nat := 0x38
def keyCapsLock : Nat := 0x3A
def keyNumLock : Nat := 0x45
def keyScrollLock : Nat := 0x46
def keySuper : Nat := 0x5B

/-- `keys_state`; `true` is `KEY_STATE_PRESSED`. -/
structure Keyboard where
  keysState : Nat → Bool

/-- `key_event_t`. -/
structure KeyEvent where
  key : Nat
  pressed : Bool
  alt : Bool
  altGr : Bool
  shift : Bool
  super : Bool
  control : Bool
  scrollLock : Bool
  capsLock : Bool
  numLock : Bool

/-- `keys_state[i] = state`. -/
def Keyboard.setKey (k : Keyboard) (i : Nat) (state : Bool) : Except Halt Keyboard :=
  if i < keysStateCount then .ok { keysState := fun j => if j = i then state else k.keysState j }
  else .error .outOfBounds

/-- `sc_to_char[sc]`. -/
def scToCharAt (sc : Nat) : Except Halt (BitVec 8) :=
  if h : sc < scToChar.length then .ok scToChar[sc] else .error .outOfBounds

/-! ## the handler -/

def kbdKeyReleased : BitVec 8 := 1#8 <<< 7

/-- `scancode & ~KBD_KEY_RELEASED`. -/
def keyCode (scancode : BitVec 8) : Nat := (scancode &&& ~~~kbdKeyReleased).toNat

/-- Whether the byte is sent when the key is released. -/
def isRelease (scancode : BitVec 8) : Bool := scancode &&& kbdKeyReleased ≠ 0

/-- The event that the handler makes up, `keys_state` being that of `k`. -/
def keyEvent (k : Keyboard) (sc : Nat) (pressed : Bool) : KeyEvent :=
  { key := sc
    pressed := pressed
    alt := k.keysState keyLAlt
    altGr := false
    shift := k.keysState keyLShift || k.keysState keyRShift
    super := k.keysState keySuper
    control := k.keysState keyLCtrl
    scrollLock := k.keysState keyScrollLock
    capsLock := k.keysState keyCapsLock
    numLock := k.keysState keyNumLock }

/-- `flag ? text : ""`. -/
def textIf (flag : Bool) (text : String) : List (BitVec 8) := if flag then text.toList.map chr else []

/-- `printf("%c%s%s%s%s", …)`. -/
def keyText (c : BitVec 8) (event : KeyEvent) : List (BitVec 8) :=
  c :: textIf event.alt " Alt " ++ textIf event.shift " Shift " ++ textIf event.control " Control " ++
    textIf event.super " Super "

/-- `keyboard_handler`, for the byte read from `KBD_DATA`; with the text that it prints. -/
def keyboardHandler (k : Keyboard) (scancode : BitVec 8) :
    Except Halt (Keyboard × List (BitVec 8)) := do
  let sc := keyCode scancode
  let pressed := !isRelease scancode
  let k ← k.setKey sc pressed
  let event := keyEvent k sc pressed
  let c ← scToCharAt sc
  return (k, if c ≠ 0 then keyText c event else [])

/-- The handler at each byte of a stream; the texts one after the other. -/
def keyboardStep (s : Keyboard × List (BitVec 8)) (scancode : BitVec 8) :
    Except Halt (Keyboard × List (BitVec 8)) := do
  let (k, text) ← keyboardHandler s.1 scancode
  return (k, s.2 ++ text)

/-- All keys released, nothing printed. -/
def Keyboard.start : Keyboard × List (BitVec 8) := ({ keysState := fun _ => false }, [])

/-- A plain `%s`. -/
def stringDirective : Directive := { pad0 := false, width := none, conversion := .s }

/-- The text is what `printf` prints for a pointer to the string of each modifier. -/
theorem printf_keyText (c : BitVec 8) (event : KeyEvent)
    (hformat : IsCString mem format ("%c%s%s%s%s".toList.map chr))
    (halt : p₁ ≠ 0 ∧ IsCString mem p₁.toNat (textIf event.alt " Alt "))
    (hshift : p₂ ≠ 0 ∧ IsCString mem p₂.toNat (textIf event.shift " Shift "))
    (hcontrol : p₃ ≠ 0 ∧ IsCString mem p₃.toNat (textIf event.control " Control "))
    (hsuper : p₄ ≠ 0 ∧ IsCString mem p₄.toNat (textIf event.super " Super ")) :
    ∃ n, ∀ fuel, n ≤ fuel → printf mem fuel format [c.signExtend 32, p₁, p₂, p₃, p₄] =
      .ok { chars := keyText c event, written := (keyText c event).length } := by
  have hdenotes : ∀ {p : BitVec 32} {text : List (BitVec 8)}, p ≠ 0 ∧ IsCString mem p.toNat text →
      stringDirective.conversion.Denotes mem p text := by
    rintro p text ⟨hp, htext⟩
    simpa only [stringDirective, Conversion.Denotes, if_neg hp] using htext
  have hchar : (c.signExtend 32).setWidth 8 = c := by
    revert c
    decide
  have hrendered := Rendered.char (c.signExtend 32) (.directive stringDirective (hdenotes halt)
    (.directive stringDirective (hdenotes hshift) (.directive stringDirective (hdenotes hcontrol)
      (.directive stringDirective (hdenotes hsuper) (@Rendered.nil mem)))))
  have hfield : ∀ text, stringDirective.field text = text := fun text => by
    simp [stringDirective, Directive.field, Conversion.lead]
  simp only [hfield, hchar] at hrendered
  have hprintf := printfLoop_rendered hrendered [] hformat []
  simpa only [printf, keyText, List.append_nil, List.append_assoc, List.cons_append,
    List.nil_append, List.length_nil] using hprintf

/-! ## what was typed -/

/-- A key was pressed or released; `extended` keys are those with the prefix. -/
structure ScanEvent where
  extended : Bool
  code : Nat
  pressed : Bool

/-- `0xE0`. -/
def extendedPrefix : BitVec 8 := 0xE0

/-- One byte: whether a prefix precedes, and the events so far. -/
def scanByte (s : Bool × List ScanEvent) (b : BitVec 8) : Bool × List ScanEvent :=
  if b = extendedPrefix then (true, s.2)
  else (false, s.2 ++ [{ extended := s.1, code := keyCode b, pressed := !isRelease b }])

/-- The events of a stream. -/
def scanEvents (bytes : List (BitVec 8)) : List ScanEvent := (bytes.foldl scanByte (false, [])).2

/-- The element of `keys_state` that stands for the key: extended keys have none, except for
`KEY_SUPER`. -/
def ScanEvent.slot (e : ScanEvent) : Option Nat :=
  if e.extended = false ∨ e.code = keySuper then some e.code else none

/-- What an event says about an element of `keys_state`. -/
def ScanEvent.tells (i : Nat) (e : ScanEvent) : Option Bool :=
  if e.slot = some i then some e.pressed else none

/-- The key was last pressed, not released. -/
def held (events : List ScanEvent) (i : Nat) : Bool := (LastWrite.last (ScanEvent.tells i) events).getD false

section

variable (extChar : Nat → BitVec 8)

/-- The character of the key, 0 if there is none; `extChar` has those of the extended keys. -/
def ScanEvent.char (e : ScanEvent) : BitVec 8 :=
  if e.extended then extChar e.code else scToChar.getD e.code 0

/-- The rendering of a press of a key with a character, after the events `before`. -/
def ScanEvent.rendering (before : List ScanEvent) (e : ScanEvent) : List (BitVec 8) :=
  let now := before ++ [e]
  if e.pressed = true ∧ e.char extChar ≠ 0 then
    e.char extChar :: textIf (held now keyLAlt) " Alt " ++
      textIf (held now keyLShift || held now keyRShift) " Shift " ++
      textIf (held now keyLCtrl) " Control " ++ textIf (held now keySuper) " Super "
  else []

/-- The renderings of the events `es`, one after the other. -/
def echoOf : (before es : List ScanEvent) → List (BitVec 8)
  | _, [] => []
  | before, e :: es => e.rendering extChar before ++ echoOf (before ++ [e]) es

/-- After the stream the state of each key is that of its last event, and the echo is that of
the presses. -/
def Echoes (bytes : List (BitVec 8)) : Prop :=
  ∃ k text, bytes.foldlM keyboardStep Keyboard.start = .ok (k, text) ∧
    (∀ i, i < keysStateCount → k.keysState i = held (scanEvents bytes) i) ∧
    text = echoOf extChar [] (scanEvents bytes)

end

/-! ## one byte -/

/-- The condition on a byte: the table has its key, and no release has a character. -/
def ByteRight (b : BitVec 8) : Prop :=
  keyCode b < scToChar.length ∧ (isRelease b = true → scToChar.getD (keyCode b) 0 = 0)

instance (b : BitVec 8) : Decidable (ByteRight b) := inferInstanceAs (Decidable (_ ∧ _))

theorem keyCode_lt (b : BitVec 8) : keyCode b < keysStateCount := by
  exact BitVec.isLt _

/-- The state after a byte. -/
def Keyboard.after (k : Keyboard) (b : BitVec 8) : Keyboard :=
  { keysState := fun j => if j = keyCode b then !isRelease b else k.keysState j }

/-- What the handler prints for a byte. -/
def Keyboard.echo (k : Keyboard) (b : BitVec 8) : List (BitVec 8) :=
  let c := scToChar.getD (keyCode b) 0
  if c ≠ 0 then keyText c (keyEvent (k.after b) (keyCode b) (!isRelease b)) else []

theorem keyboardStep_ok (hb : keyCode b < scToChar.length) (k : Keyboard) (text : List (BitVec 8)) :
    keyboardStep (k, text) b = .ok (k.after b, text ++ k.echo b) := by
  have hset : k.setKey (keyCode b) (!isRelease b) = .ok (k.after b) := if_pos (keyCode_lt b)
  have hchar : scToCharAt (keyCode b) = .ok (scToChar.getD (keyCode b) 0) := by
    rw [scToCharAt, dif_pos hb, List.getD_eq_getElem?_getD, List.getElem?_eq_getElem hb]
    rfl
  simp only [keyboardStep, keyboardHandler, hset, hchar, bind, Except.bind, pure, Except.pure]
  rfl

theorem keyboardStep_error (hb : ¬ keyCode b < scToChar.length) (s : Keyboard × List (BitVec 8)) :
    keyboardStep s b = .error .outOfBounds := by
  have hset : s.1.setKey (keyCode b) (!isRelease b) = .ok (s.1.after b) := if_pos (keyCode_lt b)
  have hchar : scToCharAt (keyCode b) = .error .outOfBounds := dif_neg hb
  simp only [keyboardStep, keyboardHandler, hset, hchar, bind, Except.bind]

/-! ## streams -/

/-- The handler survives exactly the streams whose codes the table has. -/
theorem keyboard_ok_iff (s : Keyboard × List (BitVec 8)) (bytes : List (BitVec 8)) :
    (∃ s', bytes.foldlM keyboardStep s = .ok s') ↔ ∀ b ∈ bytes, keyCode b < scToChar.length :=
  Stream.foldlM_ok_iff_all (fun b => keyCode b < scToChar.length)
    (fun s _ hb => ⟨_, keyboardStep_ok hb s.1 s.2⟩) (fun s _ hb => ⟨_, keyboardStep_error hb s⟩) s bytes

/-- The prefix of the extended keys is not among these codes. -/
theorem ne_extendedPrefix (hb : keyCode b < scToChar.length) : b ≠ extendedPrefix := by
  rintro rfl
  revert hb
  decide

/-- Without prefixes every byte is an event of its own. -/
theorem scanEvents_snoc (hpre : ∀ b ∈ pre, keyCode b < scToChar.length)
    (hb : keyCode b < scToChar.length) :
    scanEvents (pre ++ [b]) =
      scanEvents pre ++ [{ extended := false, code := keyCode b, pressed := !isRelease b }] := by
  have hflag : (pre.foldl scanByte (false, [])).1 = false := by
    cases pre using List.reverseRecOn with
    | nil => rfl
    | append_singleton pre c =>
        rw [List.foldl_append, List.foldl_cons, List.foldl_nil, scanByte,
          if_neg (ne_extendedPrefix (hpre c (by simp)))]
  rw [scanEvents, List.foldl_append, List.foldl_cons, List.foldl_nil, scanByte,
    if_neg (ne_extendedPrefix hb), hflag]
  rfl

theorem held_snoc (events : List ScanEvent) (e : ScanEvent) (i : Nat) :
    held (events ++ [e]) i = (e.tells i).getD (held events i) := by
  rw [held, LastWrite.last_snoc]
  cases e.tells i <;> rfl

theorem echoOf_snoc (extChar : Nat → BitVec 8) (before es : List ScanEvent) (e : ScanEvent) :
    echoOf extChar before (es ++ [e]) = echoOf extChar before es ++ e.rendering extChar (before ++ es) := by
  induction es generalizing before with
  | nil => simp [echoOf]
  | cons d es ih => simp [echoOf, ih]

theorem tells_plain (i c : Nat) (pressed : Bool) :
    ScanEvent.tells i { extended := false, code := c, pressed := pressed } =
      if c = i then some pressed else none := by
  simp [ScanEvent.tells, ScanEvent.slot]

/-- The events' view of the state after a byte. -/
theorem after_keysState (hstate : ∀ i, i < keysStateCount → k.keysState i = held events i)
    (b : BitVec 8) (hi : i < keysStateCount) :
    (Keyboard.after k b).keysState i =
      held (events ++ [{ extended := false, code := keyCode b, pressed := !isRelease b }]) i := by
  rw [held_snoc, Keyboard.after, tells_plain]
  by_cases heq : keyCode b = i
  · simp [heq]
  · simp [heq, Ne.symm heq, hstate i hi]

/-- The rendering of a press is what the handler prints; of a release, it prints the same. -/
theorem echo_eq_rendering (extChar : Nat → BitVec 8)
    (hstate : ∀ i, i < keysStateCount → k.keysState i = held events i) (b : BitVec 8) :
    Keyboard.echo k b = ScanEvent.rendering extChar events
        { extended := false, code := keyCode b, pressed := !isRelease b } ↔
      (isRelease b = true → scToChar.getD (keyCode b) 0 = 0) := by
  have hmod := fun i hi => after_keysState (i := i) hstate b hi
  simp only [Keyboard.echo, ScanEvent.rendering, ScanEvent.char, Bool.false_eq_true, if_false, keyText,
    keyEvent, hmod keyLAlt (by decide), hmod keyLShift (by decide), hmod keyRShift (by decide),
    hmod keyLCtrl (by decide), hmod keySuper (by decide)]
  generalize scToChar.getD (keyCode b) 0 = c
  cases isRelease b with
  | false => simp
  | true =>
      by_cases hc : c = 0
      · simp [hc]
      · simp

/-- **One more byte.** -/
theorem Echoes.snoc (h : Echoes extChar pre) (b : BitVec 8) :
    Echoes extChar (pre ++ [b]) ↔ ByteRight b := by
  obtain ⟨k, text, hrun, hstate, htext⟩ := h
  have hpre := (keyboard_ok_iff Keyboard.start pre).mp ⟨_, hrun⟩
  have hsnoc : (pre ++ [b]).foldlM keyboardStep Keyboard.start = keyboardStep (k, text) b := by
    rw [Stream.foldlM_append_ok hrun, List.foldlM_cons]
    cases keyboardStep (k, text) b <;> rfl
  rw [Echoes, hsnoc, ByteRight]
  by_cases hb : keyCode b < scToChar.length
  · rw [keyboardStep_ok hb, scanEvents_snoc hpre hb, echoOf_snoc, ← htext, List.nil_append,
      ← echo_eq_rendering extChar hstate b, and_iff_right hb]
    constructor
    · rintro ⟨k', text', hok, -, hecho⟩
      obtain ⟨rfl, rfl⟩ := Prod.mk.inj (Except.ok.inj hok)
      exact List.append_cancel_left hecho
    · intro hecho
      exact ⟨_, _, rfl, fun i hi => after_keysState hstate b hi, by rw [hecho]⟩
  · rw [keyboardStep_error hb]
    exact iff_of_false (fun ⟨_, _, hok, _⟩ => by cases hok) fun hright => hb hright.1

/-- **The keyboard**: after every prefix of the stream the states and the echo are those of its
events, and every access is within the tables, exactly if every byte has a code below 92 and
no release is of a key with a character. -/
theorem keyboard_echoes_iff (extChar : Nat → BitVec 8) (bytes : List (BitVec 8)) :
    (∀ pre, pre <+: bytes → Echoes extChar pre) ↔ ∀ b ∈ bytes, ByteRight b := by
  constructor
  · intro hall b hb
    obtain ⟨pre, post, rfl⟩ := List.append_of_mem hb
    exact ((hall pre (List.prefix_append _ _)).snoc b).mp (hall (pre ++ [b]) ⟨post, by simp⟩)
  · intro hright pre hpre
    induction pre using List.reverseRecOn with
    | nil => exact ⟨_, _, rfl, fun i _ => rfl, rfl⟩
    | append_singleton pre b ih =>
        obtain ⟨post, rfl⟩ := hpre
        exact ((ih ⟨b :: post, by simp⟩).snoc b).mpr (hright b (by simp))

/-- Releasing `A` prints its character once more, and the prefix of the extended keys is looked
up behind the table. -/
theorem keyboard_wrong : ¬ (∀ pre, pre <+: [0x1E, 0x9E] → Echoes (fun _ => 0) pre) ∧
    ¬ ∀ pre, pre <+: [extendedPrefix, 0x1D] → Echoes (fun _ => 0) pre := by
  have hstart : Echoes (fun _ => 0) [] := ⟨_, _, rfl, fun i _ => rfl, rfl⟩
  constructor
  · intro hall
    have hpress := hall [0x1E] ⟨[0x9E], rfl⟩
    exact absurd ((hpress.snoc 0x9E).mp (hall [0x1E, 0x9E] (List.prefix_refl _))) (by decide)
  · intro hall
    exact absurd ((hstart.snoc extendedPrefix).mp (hall [extendedPrefix] ⟨[0x1D], rfl⟩)) (by decide)

end NimbleOS
