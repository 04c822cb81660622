import NimbleOS.Libc.Buffer

/-!
# NimbleOS.Libc.Format

What `printf` prints.  A well-formed format is a list of `Piece`s: ordinary characters,
and directives with a flag, a width and a conversion.  A conversion denotes a text for its
argument; `Rendered` is the output that the pieces and their arguments ask for, and
`printf` emits it.
-/

namespace NimbleOS

/-- The conversions with a width. -/
inductive Conversion where
  | b | d | u | x | upperX | p | s
  deriving DecidableEq

/-- A `%`, the flag `0`, a width of one digit, and a conversion. -/
structure Directive where
  pad0 : Bool
  width : Option (Fin 10)
  conversion : Conversion

/-- A piece of a format; `char` is `%c`. -/
inductive Piece where
  | ordinary (c : BitVec 8) (h : c ≠ 0 ∧ c ≠ chr '%')
  | directive (d : Directive)
  | char

def Conversion.letter : Conversion → BitVec 8
  | .b => chr 'b'
  | .d => chr 'd'
  | .u => chr 'u'
  | .x => chr 'x'
  | .upperX => chr 'X'
  | .p => chr 'p'
  | .s => chr 's'

/-- What follows the `%`. -/
def Directive.text (d : Directive) : List (BitVec 8) :=
  (if d.pad0 then [chr '0'] else []) ++ (d.width.toList.map fun w => digitChar w.val) ++
    [d.conversion.letter]

def Piece.text : Piece → List (BitVec 8)
  | .ordinary c _ => [c]
  | .directive d => chr '%' :: d.text
  | .char => [chr '%', chr 'c']

/-! ## what a format asks for -/

/-- The digit characters of `%X`. -/
def upperDigitChar (d : Nat) : BitVec 8 :=
  if d < 10 then BitVec.ofNat 8 ('0'.toNat + d) else BitVec.ofNat 8 ('A'.toNat + (d - 10))

/-- `text` is what the conversion makes of the argument.  A string is the one its pointer
points to. -/
def Conversion.Denotes (mem : Nat → BitVec 8) (arg : BitVec 32) (text : List (BitVec 8)) :
    Conversion → Prop
  | .b => arg.toNat < 2 ^ 31 ∧ text = numeral 2 arg.toNat
  | .d => text = (if arg.toInt < 0 then [chr '-'] else []) ++ numeral 10 arg.toInt.natAbs
  | .u => text = numeral 10 arg.toNat
  | .x => text = numeral 16 arg.toNat
  | .upperX => text = (Numeral.digits 16 arg.toNat).map upperDigitChar
  | .p => text = numeral 16 arg.toNat
  | .s => if arg = 0 then text = nullText else IsCString mem arg.toNat text

/-- What stands in front of the padding. -/
def Conversion.lead : Conversion → List (BitVec 8)
  | .p => [chr '0', chr 'x']
  | _ => []

/-- The text, padded to the width. -/
def Directive.field (d : Directive) (text : List (BitVec 8)) : List (BitVec 8) :=
  d.conversion.lead ++
    List.replicate ((d.width.elim 0 Fin.val) - text.length) (chr (if d.pad0 then '0' else ' ')) ++ text

/-- `out` is what the pieces ask for, with one argument for each directive. -/
inductive Rendered (mem : Nat → BitVec 8) :
    List Piece → List (BitVec 32) → List (BitVec 8) → Prop where
  | nil : Rendered mem [] [] []
  | ordinary (c : BitVec 8) (h : c ≠ 0 ∧ c ≠ chr '%') (rest : Rendered mem ps args out) :
      Rendered mem (.ordinary c h :: ps) args (c :: out)
  | directive (d : Directive) (h : d.conversion.Denotes mem arg text)
      (rest : Rendered mem ps args out) :
      Rendered mem (.directive d :: ps) (arg :: args) (d.field text ++ out)
  | char (arg : BitVec 32) (rest : Rendered mem ps args out) :
      Rendered mem (.char :: ps) (arg :: args) (arg.setWidth 8 :: out)

/-! ## the conversions -/

theorem toupper_digitChar (h : d < 16) : toupper (digitChar d) = upperDigitChar d := by
  revert d
  decide

/-- The case for the letter, given enough fuel to find the end of a string. -/
theorem printfConversion_of_denotes (c : Conversion) (h : c.Denotes mem arg text) :
    ∃ n, ∀ fuel, n ≤ fuel → printfConversion mem fuel c.letter arg = .ok (c.lead, some text) := by
  cases c with
  | b => exact ⟨0, fun fuel _ => by rw [h.2, ← utoa_eq (by decide) (by decide)]; rfl⟩
  | d => exact ⟨0, fun fuel _ => by rw [show text = _ from h, ← itoa_ten]; rfl⟩
  | u => exact ⟨0, fun fuel _ => by rw [show text = _ from h, ← utoa_eq (by decide) (by decide)]; rfl⟩
  | x => exact ⟨0, fun fuel _ => by rw [show text = _ from h, ← utoa_eq (by decide) (by decide)]; rfl⟩
  | p => exact ⟨0, fun fuel _ => by rw [show text = _ from h, ← utoa_eq (by decide) (by decide)]; rfl⟩
  | upperX =>
      have hupper : (utoa arg.toNat 16).map toupper = text := by
        rw [utoa_eq (by decide) (by decide), numeral, List.map_map, show text = _ from h]
        exact List.map_congr_left fun d hd => toupper_digitChar (Numeral.digits_lt (by decide) hd)
      exact ⟨0, fun fuel _ => by rw [← hupper]; rfl⟩
  | s =>
      simp only [Conversion.Denotes] at h
      refine ⟨text.length + 1, fun fuel hfuel => ?_⟩
      have hunfold : printfConversion mem fuel Conversion.s.letter arg =
          if arg = 0 then .ok ([], some nullText)
          else do
            let text ← cString mem fuel arg.toNat
            return ([], some text) := rfl
      rw [hunfold]
      by_cases hnull : arg = 0
      · rw [if_pos hnull] at h ⊢
        rw [h]
        rfl
      · rw [if_neg hnull] at h ⊢
        rw [cString_of_isCString h hfuel]
        rfl

/-- **The conversions and the buffer**: the text that `printfConversion` answers is the string
in `buf` when the second `switch` comes to print it. -/
theorem printfConversion_buffer (mem : Nat → BitVec 8) (fuel : Nat) (c : Conversion) (hc : c ≠ .s)
    (arg : BitVec 32) (buf : Buf) :
    ∃ text buf', printfConversion mem fuel c.letter arg = .ok (c.lead, some text) ∧
      printfBuffer c.letter arg buf = some buf' ∧
      if c = .upperX then ∃ n, ∀ fuel, n ≤ fuel → ∃ buf'', printfUpper fuel 0 buf' = .ok buf'' ∧
        IsCString buf''.mem 0 text
      else IsCString buf'.mem 0 text := by
  have hutoa : ∀ base, 2 ≤ base → base ≤ 36 →
      ∃ buf', utoaBuf arg base buf = some buf' ∧ IsCString buf'.mem 0 (utoa arg.toNat base) := by
    intro base hlo hhi
    obtain ⟨buf', hbuf', hwritten⟩ := utoaBuf_eq arg base buf
    refine ⟨buf', hbuf', hwritten.isCString fun c hmem => ?_⟩
    rw [utoa_eq hlo hhi] at hmem
    exact ne_zero_of_mem_numeral hlo hhi hmem
  cases c with
  | b =>
      obtain ⟨buf', hbuf', hstring⟩ := hutoa 2 (by decide) (by decide)
      exact ⟨_, buf', rfl, hbuf', hstring⟩
  | u =>
      obtain ⟨buf', hbuf', hstring⟩ := hutoa 10 (by decide) (by decide)
      exact ⟨_, buf', rfl, hbuf', hstring⟩
  | x =>
      obtain ⟨buf', hbuf', hstring⟩ := hutoa 16 (by decide) (by decide)
      exact ⟨_, buf', rfl, hbuf', hstring⟩
  | p =>
      obtain ⟨buf', hbuf', hstring⟩ := hutoa 16 (by decide) (by decide)
      exact ⟨_, buf', rfl, hbuf', hstring⟩
  | d =>
      obtain ⟨buf', hbuf', hwritten⟩ := itoaBuf_eq arg 10 buf
      refine ⟨_, buf', rfl, hbuf', ?_⟩
      rw [if_neg (by decide)]
      exact hwritten.isCString fun c => ne_zero_of_mem_itoa
  | upperX =>
      obtain ⟨buf', hbuf', hstring⟩ := hutoa 16 (by decide) (by decide)
      refine ⟨_, buf', rfl, hbuf', ?_⟩
      rw [if_pos rfl]
      refine ⟨(utoa arg.toNat 16).length + 1, fun fuel hfuel => ?_⟩
      obtain ⟨buf'', hrun, hupper, -⟩ := printfUpper_eq hstring hfuel
      exact ⟨buf'', hrun, hupper⟩
  | s => contradiction

/-! ## the directives -/

theorem isCString_append (h : IsCString mem p (s ++ s')) : IsCString mem (p + s.length) s' := by
  induction s generalizing p with
  | nil => exact h
  | cons c s ih =>
      rw [List.length_cons, Nat.add_comm s.length, ← Nat.add_assoc]
      exact ih h.2.2

theorem isdigit_letter (c : Conversion) : isdigit c.letter.toInt = false := by cases c <;> rfl

theorem letter_ne_zeroChar (c : Conversion) : c.letter ≠ chr '0' := by cases c <;> decide

theorem digitChar_width (w : Fin 10) :
    isdigit (digitChar w.val).toInt = true ∧ (digitChar w.val).toNat - (chr '0').toNat = w.val ∧
      (digitChar w.val = chr '0' ↔ w.val = 0) := by
  revert w
  decide

/-- **The directive** is taken apart as it was written.  Without the flag, a width 0 is taken
for it; neither pads. -/
theorem printfDirective_text (d : Directive) (h : IsCString mem p (d.text ++ rest)) :
    ∃ pad0 padCount,
      printfDirective mem p = (pad0, padCount, d.conversion.letter, p + d.text.length) ∧
      ∀ arg text, printfField pad0 padCount arg (d.conversion.lead, some text) = d.field text := by
  obtain ⟨pad0, width, conversion⟩ := d
  have hdigit := isdigit_letter conversion
  have hzero := letter_ne_zeroChar conversion
  cases pad0 with
  | false =>
      cases width with
      | none =>
          obtain ⟨hc, -⟩ := h
          exact ⟨false, 0, by simp [printfDirective, Directive.text, hc, hdigit, hzero], fun _ _ => rfl⟩
      | some w =>
          obtain ⟨hw, -, hc, -⟩ := h
          obtain ⟨hisdigit, hvalue, hiff⟩ := digitChar_width w
          by_cases hw0 : w.val = 0
          · refine ⟨true, 0, ?_, fun arg text => ?_⟩
            · have hflag := hw.trans (hiff.mpr hw0)
              simp [printfDirective, Directive.text, hflag, hc, hdigit]
            · simp [printfField, Directive.field, hw0]
          · refine ⟨false, w.val, ?_, fun _ _ => rfl⟩
            simp [printfDirective, Directive.text, hw, hiff, hw0, hisdigit, hvalue, hc]
  | true =>
      cases width with
      | none =>
          obtain ⟨hflag, -, hc, -⟩ := h
          exact ⟨true, 0, by simp [printfDirective, Directive.text, hflag, hc, hdigit], fun _ _ => rfl⟩
      | some w =>
          obtain ⟨hflag, -, hw, -, hc, -⟩ := h
          obtain ⟨hisdigit, hvalue, -⟩ := digitChar_width w
          refine ⟨true, w.val, ?_, fun _ _ => rfl⟩
          simp [printfDirective, Directive.text, hflag, hw, hisdigit, hvalue, hc]

/-! ## the loop -/

/-- A character of its own. -/
theorem printfLoop_ordinary (hnul : mem p ≠ 0) (hpercent : mem p ≠ chr '%')
    (hrest : printfLoop mem args fuel (p + 1) arg = .ok rest) :
    printfLoop mem args (fuel + 1) p arg = .ok (.after [mem p] rest) := by
  rw [printfLoop, if_neg hnul, if_pos hpercent, hrest]
  rfl

/-- A directive takes the next argument. -/
theorem printfLoop_directive (hpercent : mem p = chr '%')
    (hdirective : printfDirective mem (p + 1) = (pad0, padCount, c, q))
    (hconversion : printfConversion mem fuel c (args arg) = .ok conversion)
    (hrest : printfLoop mem args fuel q (arg + 1) = .ok rest) :
    printfLoop mem args (fuel + 1) p arg =
      .ok (.after (printfField pad0 padCount (args arg) conversion) rest) := by
  rw [printfLoop, if_neg (by rw [hpercent]; decide), if_neg (fun h => h hpercent), hdirective]
  simp only [hconversion, hrest, bind, Except.bind]
  rfl

/-- **The loop** over the pieces, from the argument `k` on. -/
theorem printfLoop_rendered (h : Rendered mem ps args out) (more : List (BitVec 32))
    (hformat : IsCString mem p (ps.flatMap Piece.text)) (pre : List (BitVec 32)) :
    ∃ n, ∀ fuel, n ≤ fuel →
      printfLoop mem ((pre ++ args ++ more).getD · 0) fuel p pre.length =
        .ok { chars := out, written := out.length } := by
  induction h generalizing p pre with
  | nil =>
      refine ⟨1, fun fuel hfuel => ?_⟩
      obtain ⟨fuel, rfl⟩ := Nat.exists_eq_add_of_le' hfuel
      rw [printfLoop, if_pos (show mem p = 0 from hformat)]
      rfl
  | ordinary c hc _ ih =>
      obtain ⟨hp, -, hrest⟩ := hformat
      obtain ⟨n, hn⟩ := ih hrest pre
      refine ⟨n + 1, fun fuel hfuel => ?_⟩
      obtain ⟨fuel, rfl⟩ := Nat.exists_eq_add_of_le' (Nat.le_of_add_left_le hfuel)
      rw [printfLoop_ordinary (hp ▸ hc.1) (hp ▸ hc.2) (hn fuel (by omega)), hp]
      simp [Printed.after, Nat.add_comm]
  | @directive arg text ps args out d hdenotes _ ih =>
      obtain ⟨hp, -, htext⟩ := hformat
      obtain ⟨pad0, padCount, hdirective, hfield⟩ := printfDirective_text d htext
      obtain ⟨n₁, hn₁⟩ := printfConversion_of_denotes d.conversion hdenotes
      obtain ⟨n₂, hn₂⟩ := ih (isCString_append htext) (pre ++ [arg])
      refine ⟨n₁ + n₂ + 1, fun fuel hfuel => ?_⟩
      obtain ⟨fuel, rfl⟩ := Nat.exists_eq_add_of_le' (Nat.le_of_add_left_le hfuel)
      have harg : (pre ++ arg :: args ++ more).getD pre.length 0 = arg := by simp
      have hrest := hn₂ fuel (by omega)
      rw [List.length_append, List.append_assoc pre, List.singleton_append] at hrest
      rw [printfLoop_directive (c := d.conversion.letter) hp hdirective
        (by rw [harg]; exact hn₁ fuel (by omega)) hrest, hfield]
      simp [Printed.after]
  | @char ps args out arg _ ih =>
      obtain ⟨hp, -, hc, hne, hrest⟩ := hformat
      obtain ⟨n, hn⟩ := ih hrest (pre ++ [arg])
      refine ⟨n + 1, fun fuel hfuel => ?_⟩
      obtain ⟨fuel, rfl⟩ := Nat.exists_eq_add_of_le' (Nat.le_of_add_left_le hfuel)
      have harg : (pre ++ arg :: args ++ more).getD pre.length 0 = arg := by simp
      have hdirective : printfDirective mem (p + 1) = (false, 0, chr 'c', p + 1 + 1) := by
        have hnondigit : isdigit (chr 'c').toInt = false := by decide
        have hnozero : chr 'c' ≠ chr '0' := by decide
        simp [printfDirective, hc, hnondigit, hnozero]
      have hrest := hn fuel (by omega)
      rw [List.length_append, List.append_assoc pre, List.singleton_append] at hrest
      have hconversion : printfConversion mem fuel (chr 'c')
          ((pre ++ arg :: args ++ more).getD pre.length 0) = .ok ([], none) := rfl
      rw [printfLoop_directive hp hdirective hconversion hrest, harg]
      simp [Printed.after, printfField, Nat.add_comm]

/-- **printf** emits what its format asks for, and returns the number of characters. -/
theorem printf_rendered (h : Rendered mem ps args out)
    (hformat : IsCString mem format (ps.flatMap Piece.text)) (more : List (BitVec 32)) :
    ∃ n, ∀ fuel, n ≤ fuel →
      printf mem fuel format (args ++ more) = .ok { chars := out, written := out.length } :=
  printfLoop_rendered h more hformat []

/-- The theorem for `"%05d\n"` and -205. -/
theorem printf_rendered_padded : ∃ n, ∀ fuel, n ≤ fuel →
    printf (literal ("%05d\n".toList.map chr)) fuel 0 ([-205] ++ [7]) =
      .ok { chars := "0-205\n".toList.map chr, written := 6 } := by
  have hnewline : chr '\n' ≠ 0 ∧ chr '\n' ≠ chr '%' := by decide
  have htext : [chr '-', chr '2', chr '0', chr '5'] = itoa (-205 : BitVec 32).toInt 10 := by decide
  have hformat : IsCString (literal ("%05d\n".toList.map chr)) 0
      ("%05d\n".toList.map chr) := by
    repeat' constructor
    all_goals decide
  exact printf_rendered (.directive { pad0 := true, width := some 5, conversion := .d }
    (htext.trans (itoa_ten _)) (.ordinary (chr '\n') hnewline .nil)) hformat [7]

end NimbleOS
