import JarJar.Types
import JarJar.Stdlib
import JarJar.Lib.CountedLoop
import Mathlib.Logic.Function.Basic

/- The text console. A character goes to the cell under the cursor; then the cursor
   moves on, is brought back from beyond the right edge to the next row, and from
   below the last row to the last one, which scrolls, or to the first.

   Correspondence (C ↔ Lean):
     `console_t`                             ↔ `Console`
     `vga_color_t`, `vga_entry_color`        ↔ `VgaColor`, `vgaEntryColor`
     `vga_entry`                             ↔ `vgaEntry`
     `console->buffer[i] = v`                ↔ `Console.store`
     `console->buffer[i] = buffer[j]`        ↔ `Console.copy`
     the loops over a row                    ↔ `blankRow`, `copyRow`
     the stages of `console_putchar`         ↔ `place`, `wrap`, `scrollBelow`, `showCursor`
     `console_putchar`, `console_puts`       ↔ `putchar`, `puts`
     `console_clear`                         ↔ `clear`
     `console_scroll_up`, `…_scroll_down`    ↔ `scrollUp`, `scrollDown`
     `console_set_cursor_pos`                ↔ `setCursorPos`
   `touched` is the record of the cells that were read or written. The ports of the
   hardware cursor are left out. -/
namespace JarJar.Vga
open CountedLoop Libc

inductive VgaColor where
  | black | blue | green | cyan | red | magenta | brown | lightGrey
  | darkGrey | lightBlue | lightGreen | lightCyan | lightRed | lightMagenta | lightBrown | white
  deriving DecidableEq, Repr

def VgaColor.code : VgaColor → U8
  | .black => 0
  | .blue => 1
  | .green => 2
  | .cyan => 3
  | .red => 4
  | .magenta => 5
  | .brown => 6
  | .lightGrey => 7
  | .darkGrey => 8
  | .lightBlue => 9
  | .lightGreen => 10
  | .lightCyan => 11
  | .lightRed => 12
  | .lightMagenta => 13
  | .lightBrown => 14
  | .white => 15

def vgaEntryColor (fg bg : VgaColor) : U8 := fg.code ||| (bg.code <<< 4)

def vgaEntry (c color : U8) : U16 := c.setWidth 16 ||| (color.setWidth 16 <<< 8)

structure Console where
  buffer : Nat → U16
  width : U32
  height : U32
  cursorX : U32
  cursorY : U32
  color : U8
  cursorEnabled : Bool
  scrollEnabled : Bool
  touched : List Nat

namespace Console

/-- `y * console->width + x`. -/
def index (c : Console) (y x : U32) : Nat := (y * c.width + x).toNat

def blank (c : Console) : U16 := vgaEntry (ch ' ') c.color

def store (c : Console) (i : Nat) (v : U16) : Console :=
  { c with buffer := Function.update c.buffer i v, touched := i :: c.touched }

def copy (c : Console) (dst src : Nat) : Console :=
  { c with buffer := Function.update c.buffer dst (c.buffer src), touched := dst :: src :: c.touched }

def setCursorPos (x y : U32) (c : Console) : Console :=
  let x := if c.width ≤ x then c.width - 1 else x
  let y := if c.height ≤ y then c.height - 1 else y
  { c with cursorX := x, cursorY := y }

/-- The inner loop that blanks the row `y`. -/
def blankRow (y : U32) (c : Console) : Console :=
  loop c.width.toNat (fun x c => c.store (c.index y (BitVec.ofNat 32 x)) c.blank) c

/-- The inner loop that copies the row `src` to the row `dst`. -/
def copyRow (dst src : U32) (c : Console) : Console :=
  loop c.width.toNat (fun x c =>
    c.copy (c.index dst (BitVec.ofNat 32 x)) (c.index src (BitVec.ofNat 32 x))) c

def clear (c : Console) : Console :=
  let c := loop c.height.toNat (fun y => blankRow (BitVec.ofNat 32 y)) c
  { c with cursorX := 0, cursorY := 0 }.setCursorPos 0 0

/-- Every row takes over the next one, and the last is blank. -/
def scrollUp (c : Console) : Console :=
  let c := loop (c.height - 1).toNat (fun y =>
    copyRow (BitVec.ofNat 32 y) (BitVec.ofNat 32 y + 1)) c
  c.blankRow (c.height - 1)

/-- Every row takes over the one before, the last row first, and the first is blank. -/
def scrollDown (c : Console) : Console :=
  let c := loop (c.height - 1).toNat (fun i c =>
    let y := c.height - 1 - BitVec.ofNat 32 i
    c.copyRow y (y - 1)) c
  loop c.width.toNat (fun x c => c.store x c.blank) c

/-- The character at the cursor. A `char` is signed: bytes from 0x80 on are below `' '`. -/
def place (b : U8) (c : Console) : Console :=
  if b = ch '\n' then { c with cursorX := 0, cursorY := c.cursorY + 1 }
  else if b = ch '\r' then { c with cursorX := 0 }
  else if b = ch '\t' then { c with cursorX := (c.cursorX + 8) &&& ~~~7 }
  else if b = 8 then
    if 0 < c.cursorX then
      let c := { c with cursorX := c.cursorX - 1 }
      c.store (c.index c.cursorY c.cursorX) c.blank
    else c
  else if (ch ' ').toInt ≤ b.toInt then
    let c := c.store (c.index c.cursorY c.cursorX) (vgaEntry b c.color)
    { c with cursorX := c.cursorX + 1 }
  else c

def wrap (c : Console) : Console :=
  if c.width ≤ c.cursorX then { c with cursorX := 0, cursorY := c.cursorY + 1 } else c

def scrollBelow (c : Console) : Console :=
  if c.height ≤ c.cursorY then
    if c.scrollEnabled then
      let c := c.scrollUp
      { c with cursorY := c.height - 1 }
    else { c with cursorY := 0 }
  else c

def showCursor (c : Console) : Console :=
  if c.cursorEnabled then c.setCursorPos c.cursorX c.cursorY else c

def putchar (b : U8) (c : Console) : Console := (c.place b).wrap.scrollBelow.showCursor

/-- A string ends at its NUL. -/
def puts : List U8 → Console → Console
  | [], c => c
  | b :: str, c => if b = 0 then c else puts str (c.putchar b)

def setColor (fg bg : VgaColor) (c : Console) : Console := { c with color := vgaEntryColor fg bg }

def setForeground (color : VgaColor) (c : Console) : Console :=
  { c with color := (c.color &&& 0xF0) ||| color.code }

def setBackground (color : VgaColor) (c : Console) : Console :=
  { c with color := (c.color &&& 0x0F) ||| (color.code <<< 4) }

def resetColor (c : Console) : Console := c.setColor .lightGrey .black

def aiOutput (c : Console) : Console := c.setColor .lightGreen .black
def aiThinking (c : Console) : Console := c.setColor .lightBlue .black
def aiWarning (c : Console) : Console := c.setColor .lightBrown .black
def aiError (c : Console) : Console := c.setColor .lightRed .black

def enableCursor (c : Console) : Console := { c with cursorEnabled := true }
def disableCursor (c : Console) : Console := { c with cursorEnabled := false }

end Console

/-- The calls on a console. -/
inductive Op where
  | putchar (b : U8)
  | puts (str : List U8)
  | clear
  | setCursorPos (x y : U32)
  | scrollUp
  | scrollDown
  | enableCursor
  | disableCursor
  | setColor (fg bg : VgaColor)
  | setForeground (color : VgaColor)
  | setBackground (color : VgaColor)
  | resetColor
  | aiOutput
  | aiThinking
  | aiWarning
  | aiError

def Console.step (c : Console) : Op → Console
  | .putchar b => c.putchar b
  | .puts str => c.puts str
  | .clear => c.clear
  | .setCursorPos x y => c.setCursorPos x y
  | .scrollUp => c.scrollUp
  | .scrollDown => c.scrollDown
  | .enableCursor => c.enableCursor
  | .disableCursor => c.disableCursor
  | .setColor fg bg => c.setColor fg bg
  | .setForeground color => c.setForeground color
  | .setBackground color => c.setBackground color
  | .resetColor => c.resetColor
  | .aiOutput => c.aiOutput
  | .aiThinking => c.aiThinking
  | .aiWarning => c.aiWarning
  | .aiError => c.aiError

end JarJar.Vga
