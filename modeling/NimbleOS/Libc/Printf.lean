import NimbleOS.Libc.Itoa

/-!
# NimbleOS.Libc.Printf

`printf` (`libc/src/stdio/printf.c`).  Memory is a function from addresses to bytes
and the arguments are the words above the format pointer on the stack.  What is
passed to `putchar` does not influence the rest, so the result is the list of these
characters, together with `written`.  The loop over the format and the search for
the end of a string take fuel.
-/

namespace NimbleOS

/-- The characters passed to `putchar`, and the return value: an `int`, which has room for the
count of fewer than `2 ^ 31` characters. -/
structure Printed where
  chars : List (BitVec 8)
  written : Nat
  deriving DecidableEq

/-- The characters `cs`, each counted, and then the rest. -/
def Printed.after (cs : List (BitVec 8)) (rest : Printed) : Printed :=
  { chars := cs ++ rest.chars, written := cs.length + rest.written }

/-- The string at `p`, up to its NUL. -/
def cString (mem : Nat → BitVec 8) : (fuel p : Nat) → Except Halt (List (BitVec 8))
  | 0, _ => .error .outOfFuel
  | fuel + 1, p =>
      if mem p = 0 then .ok []
      else do
        let cs ← cString mem fuel (p + 1)
        return mem p :: cs

/-- `s` is the string at `p`: no character of it is a NUL, and one stands behind it. -/
def IsCString (mem : Nat → BitVec 8) (p : Nat) : List (BitVec 8) → Prop
  | [] => mem p = 0
  | c :: s => mem p = c ∧ c ≠ 0 ∧ IsCString mem (p + 1) s

def toupper (c : BitVec 8) : BitVec 8 := if isalpha c.toInt then c &&& ~~~32 else c

/-- The text `"(null)"`. -/
def nullText : List (BitVec 8) := "(null)".toList.map chr

/-- What the two `switch` statements make of the directive letter `c` and the next
argument: the characters emitted before any padding, and the string to be padded;
`none` for a character of its own. -/
def printfConversion (mem : Nat → BitVec 8) (fuel : Nat) (c : BitVec 8) (arg : BitVec 32) :
    Except Halt (List (BitVec 8) × Option (List (BitVec 8))) :=
  match Char.ofNat c.toNat with
  | 'b' => .ok ([], some (utoa arg.toNat 2))
  | 'd' => .ok ([], some (itoa arg.toInt 10))
  | 'u' => .ok ([], some (utoa arg.toNat 10))
  | 'x' => .ok ([], some (utoa arg.toNat 16))
  | 'X' => .ok ([], some ((utoa arg.toNat 16).map toupper))
  | 'p' => .ok ([chr '0', chr 'x'], some (utoa arg.toNat 16))
  | 's' =>
      if arg = 0 then .ok ([], some nullText)
      else do
        let text ← cString mem fuel arg.toNat
        return ([], some text)
  | _ => .ok ([], none)

/-- The padding and the string, or the character. -/
def printfField (pad0 : Bool) (padCount : Nat) (arg : BitVec 32) :
    List (BitVec 8) × Option (List (BitVec 8)) → List (BitVec 8)
  | (lead, some text) =>
      lead ++ List.replicate (padCount - text.length) (chr (if pad0 then '0' else ' ')) ++ text
  | (lead, none) => lead ++ [arg.setWidth 8]

/-- The flag, the width and the letter that follow a `%`, and the pointer behind them. -/
def printfDirective (mem : Nat → BitVec 8) (format : Nat) : Bool × Nat × BitVec 8 × Nat :=
  let pad0 := mem format = chr '0'
  let format := if pad0 then format + 1 else format
  let width := isdigit (mem format).toInt
  let padCount := if width then (mem format).toNat - (chr '0').toNat else 0
  let format := if width then format + 1 else format
  (pad0, padCount, mem format, format + 1)

/-- `while ((c = *format++) != 0)`; each directive takes one word of the arguments. -/
def printfLoop (mem : Nat → BitVec 8) (args : Nat → BitVec 32) :
    (fuel format arg : Nat) → Except Halt Printed
  | 0, _, _ => .error .outOfFuel
  | fuel + 1, format, arg =>
      if mem format = 0 then .ok { chars := [], written := 0 }
      else if mem format ≠ chr '%' then do
        let rest ← printfLoop mem args fuel (format + 1) arg
        return .after [mem format] rest
      else do
        let (pad0, padCount, c, format) := printfDirective mem (format + 1)
        let conversion ← printfConversion mem fuel c (args arg)
        let rest ← printfLoop mem args fuel format (arg + 1)
        return .after (printfField pad0 padCount (args arg) conversion) rest

def printf (mem : Nat → BitVec 8) (fuel format : Nat) (args : List (BitVec 32)) :
    Except Halt Printed :=
  printfLoop mem (args.getD · 0) fuel format 0

/-- A string literal at address 0; nothing else is in memory. -/
def literal (text : List (BitVec 8)) (p : Nat) : BitVec 8 := text.getD p 0

/-- `printf` of a string literal whose arguments are numbers. -/
def printfText (format : List (BitVec 8)) (args : List (BitVec 32)) : Except Halt Printed :=
  printf (literal format) (format.length + 1) 0 args

example : printfText ("IRQ %03d\n".toList.map chr) [7] =
    .ok { chars := "IRQ 007\n".toList.map chr, written := 8 } := rfl

/-! ## strings in memory -/

/-- The search for the end finds it. -/
theorem cString_of_isCString (h : IsCString mem p s) (hfuel : s.length < fuel) :
    cString mem fuel p = .ok s := by
  induction s generalizing fuel p with
  | nil =>
      cases fuel with
      | zero => contradiction
      | succ fuel => rw [cString, if_pos (show mem p = 0 from h)]
  | cons c s ih =>
      obtain ⟨hc, hne, hs⟩ := h
      cases fuel with
      | zero => contradiction
      | succ fuel =>
          rw [cString, hc, if_neg hne, ih hs (Nat.lt_of_succ_lt_succ hfuel)]
          rfl

/-- At most one string stands at an address. -/
theorem isCString_unique (h : IsCString mem p s) (h' : IsCString mem p s') : s = s' := by
  induction s generalizing p s' with
  | nil =>
      cases s' with
      | nil => rfl
      | cons c' s' => exact absurd (h'.1.symm.trans h) h'.2.1
  | cons c s ih =>
      cases s' with
      | nil => exact absurd (h.1.symm.trans h') h.2.1
      | cons c' s' => rw [h.1.symm.trans h'.1, ih h.2.2 h'.2.2]

theorem isCString_of_getD (hs : ∀ c ∈ s, c ≠ 0)
    (h : ∀ i, i ≤ s.length → mem (p + i) = s.getD i 0) : IsCString mem p s := by
  induction s generalizing p with
  | nil => exact h 0 (Nat.le_refl 0)
  | cons c s ih =>
      obtain ⟨hc, hs⟩ := List.forall_mem_cons.mp hs
      refine ⟨h 0 (Nat.zero_le _), hc, ih hs fun i hi => ?_⟩
      rw [Nat.add_assoc, Nat.add_comm 1]
      exact h (i + 1) (Nat.succ_le_succ hi)

/-! ## plain text and single numbers -/

theorem Printed.after_after (cs cs' : List (BitVec 8)) (rest : Printed) :
    Printed.after cs (.after cs' rest) = .after (cs ++ cs') rest := by
  simp [Printed.after, Nat.add_assoc]

/-- Text without `%` and NUL in front of the rest of the format. -/
theorem printfLoop_text (pre rest : List (BitVec 8)) (args : Nat → BitVec 32) (arg fuel : Nat)
    (h : ∀ c ∈ text, c ≠ 0 ∧ c ≠ chr '%') :
    printfLoop (literal (pre ++ text ++ rest)) args (text.length + fuel) pre.length arg =
      (printfLoop (literal (pre ++ text ++ rest)) args fuel (pre ++ text).length arg).map
        (.after text) := by
  induction text generalizing pre with
  | nil =>
      rw [List.length_nil, Nat.zero_add, List.append_nil]
      cases printfLoop (literal (pre ++ rest)) args fuel pre.length arg with
      | error e => rfl
      | ok r => simp [Except.map, Printed.after]
  | cons c text ih =>
      obtain ⟨⟨hnul, hpercent⟩, htext⟩ := List.forall_mem_cons.mp h
      have hc : literal (pre ++ c :: text ++ rest) pre.length = c := by simp [literal]
      have hrest := ih (pre ++ [c]) htext
      rw [List.append_assoc pre, List.singleton_append, List.length_append,
        List.length_singleton] at hrest
      rw [List.length_cons, Nat.add_right_comm, printfLoop, hc, if_neg hnul, if_pos hpercent, hrest]
      cases printfLoop (literal (pre ++ c :: text ++ rest)) args fuel (pre ++ c :: text).length arg with
      | error e => rfl
      | ok r => simp [Except.map, bind, Except.bind, pure, Except.pure, Printed.after_after]

/-- From the `n`-th character of a text without `%` and NUL on, the rest is printed. -/
theorem printfLoop_plain (pre : List (BitVec 8)) (args : Nat → BitVec 32) (arg fuel : Nat)
    (h : ∀ c ∈ post, c ≠ 0 ∧ c ≠ chr '%') :
    printfLoop (literal (pre ++ post)) args (post.length + (fuel + 1)) pre.length arg =
      .ok { chars := post, written := post.length } := by
  have htext := printfLoop_text pre [] args arg (fuel + 1) h
  have hnul : literal (pre ++ post) (pre ++ post).length = 0 := by simp [literal]
  rw [List.append_nil, printfLoop, if_pos hnul] at htext
  rw [htext]
  simp [Except.map, Printed.after]

theorem printfText_plain (args : List (BitVec 32)) (h : ∀ c ∈ text, c ≠ 0 ∧ c ≠ chr '%') :
    printfText text args = .ok { chars := text, written := text.length } :=
  printfLoop_plain [] _ 0 0 h

/-- A directive without flag and width. -/
theorem printfDirective_letter (h : mem p = c) (hzero : c ≠ chr '0')
    (hdigit : isdigit c.toInt = false) : printfDirective mem p = (false, 0, c, p + 1) := by
  simp [printfDirective, h, hzero, hdigit]

/-- A number in the middle of a text. -/
theorem printfText_number (n : BitVec 32) (hpre : ∀ c ∈ pre, c ≠ 0 ∧ c ≠ chr '%')
    (hpost : ∀ c ∈ post, c ≠ 0 ∧ c ≠ chr '%') :
    printfText (pre ++ [chr '%', chr 'd'] ++ post) [n] =
      .ok { chars := pre ++ itoa n.toInt 10 ++ post
            written := (pre ++ itoa n.toInt 10 ++ post).length } := by
  have htext := printfLoop_text [] ([chr '%', chr 'd'] ++ post) ([n].getD · 0) 0 (post.length + 3) hpre
  have hplain := printfLoop_plain (pre ++ [chr '%', chr 'd']) ([n].getD · 0) 1 1 hpost
  have hpercent : literal (pre ++ [chr '%', chr 'd'] ++ post) pre.length = chr '%' := by
    simp [literal]
  have hd : literal (pre ++ [chr '%', chr 'd'] ++ post) (pre.length + 1) = chr 'd' := by
    simp [literal]
  have hdirective := printfDirective_letter hd (by decide) (by decide)
  have hconv : ∀ mem fuel, printfConversion mem fuel (chr 'd') n =
      .ok ([], some (itoa n.toInt 10)) := fun _ _ => rfl
  have hlength : (pre ++ [chr '%', chr 'd'] ++ post).length + 1 = pre.length + (post.length + 3) := by
    simp only [List.length_append, List.length_cons, List.length_nil]
    omega
  rw [List.nil_append, ← List.append_assoc, List.length_nil] at htext
  rw [List.length_append, List.length_cons, List.length_cons, List.length_nil] at hplain
  rw [printfText, printf, hlength, htext, printfLoop, hpercent, if_neg (by decide),
    if_neg (fun h => h rfl), hdirective]
  simp only [List.getD_cons_zero, hconv, bind, Except.bind, hplain]
  simp [Except.map, pure, Except.pure, printfField, Printed.after]

/-- `printf("%d", n)`. -/
theorem printfText_int (n : BitVec 32) :
    printfText [chr '%', chr 'd'] [n] =
      .ok { chars := itoa n.toInt 10, written := (itoa n.toInt 10).length } := by
  have h : ∀ c ∈ ([] : List (BitVec 8)), c ≠ 0 ∧ c ≠ chr '%' := fun c hc => by cases hc
  simpa only [List.nil_append, List.append_nil] using printfText_number n h h

end NimbleOS
