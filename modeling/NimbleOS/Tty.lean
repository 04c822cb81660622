import NimbleOS.Libc

/-!
# NimbleOS.Tty

The VGA text terminal (`kernel/src/cpu/devices/tty.c`), up to the functions that
the escape sequence interpreter calls back.
-/

namespace NimbleOS

def vgaWidth : Nat := 80
def vgaHeight : Nat := 25
def vgaMemory : Nat := 0xB8000

/-- `term_vga_color`, its sixteen values. -/
inductive TermVgaColor where
  | black | blue | green | cyan | red | magenta | brown | lightGrey
  | darkGrey | lightBlue | lightGreen | lightCyan | lightRed | lightMagenta | yellow | white
  deriving DecidableEq, Repr

/-- The value of an enumerator. -/
def TermVgaColor.val (c : TermVgaColor) : BitVec 8 := BitVec.ofNat 8 c.ctorIdx

/-- The statics of `tty.c`, and the video memory they write to. -/
structure Term where
  row : Nat
  column : Nat
  color : BitVec 8
  buffer : Nat
  memory : Nat → BitVec 16

/-! ## cells -/

def termMakeColor (fg bg : BitVec 8) : BitVec 8 := fg ||| bg <<< 4

/-- `c16 = c` sign-extends the character. -/
def termMakeEntry (c : BitVec 8) (color : BitVec 8) : BitVec 16 :=
  c.signExtend 16 ||| color.setWidth 16 <<< 8

/-- The address of `VGA_ENTRY(x, y)`. -/
def Term.entry (t : Term) (x y : Nat) : Nat := u32 (t.buffer + 2 * (y * vgaWidth + x))

def Term.setEntry (t : Term) (x y : Nat) (e : BitVec 16) : Term :=
  { t with memory := fun a => if a = t.entry x y then e else t.memory a }

/-- All cells `(x, y)`, column by column. -/
def Term.fill (t : Term) (e : BitVec 16) : Term :=
  (List.range vgaWidth).foldl
    (fun t x => (List.range vgaHeight).foldl (fun t y => t.setEntry x y e) t) t

/-- The cells are cleared with the colour that was in force before. -/
def termInit (t : Term) : Term :=
  let entry := termMakeEntry (chr ' ') t.color
  Term.fill
    { t with
      buffer := vgaMemory
      color := termMakeColor TermVgaColor.white.val TermVgaColor.black.val
      row := 0
      column := 0 } entry

def termPutcharAt (t : Term) (c : BitVec 8) (x y : Nat) : Term :=
  if y ≥ vgaHeight ∨ x ≥ vgaWidth then t
  else t.setEntry x y (termMakeEntry c t.color)

/-- One step of the loops of `term_scrolldown`. -/
def termScrollCell (t : Term) (x y : Nat) : Term :=
  if y < vgaHeight - 1 then t.setEntry x y (t.memory (t.entry x (y + 1)))
  else t.setEntry x y (termMakeEntry (chr ' ') t.color)

def termScrolldown (t : Term) : Term :=
  let t := (List.range vgaHeight).foldl
    (fun t y => (List.range vgaWidth).foldl (fun t x => termScrollCell t x y) t) t
  { t with row := u32Sub t.row 1 }

/-! ## setters -/

def termSetBlink (t : Term) (blink : Bool) : Term :=
  if blink then { t with color := t.color ||| 0x80 } else { t with color := t.color &&& ~~~0x80 }

def termGetFgColor (t : Term) : BitVec 8 := t.color &&& 0x0F

def termGetBgColor (t : Term) : BitVec 8 := t.color >>> 4

def termSetRow (t : Term) (row : Nat) : Term := { t with row := row }

def termSetColumn (t : Term) (column : Nat) : Term := { t with column := column }

def termSetBgColor (t : Term) (color : TermVgaColor) : Term :=
  { t with color := termMakeColor (termGetFgColor t) color.val }

def termSetFgColor (t : Term) (color : TermVgaColor) : Term :=
  { t with color := termMakeColor color.val (termGetBgColor t) }

end NimbleOS
