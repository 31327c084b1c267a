import KernelC.Lib.ByteMem
import KernelC.Libc.String

/-!
# The text console: `vga/vga.c`

`vid` is the memory from `VGA_BUF` on; the text buffer is its first 4000 bytes.
Every store goes through `poke`, which records in `stray` whether a byte outside
the text buffer was ever written. The cursor registers of the controller hold
what was last sent to them.

A character is a byte, a colour argument any `uint8_t`.
-/

namespace KernelC.Vga

structure Console where
  vid : Mem
  x : UInt8
  y : UInt8
  cursorHigh : UInt8
  cursorLow : UInt8
  stray : Bool

def vgaWidth : Nat := 80

def vgaHeight : Nat := 25

def black : UInt8 := 0

def makeColor (fore back : UInt8) : UInt8 := (back <<< 4) ||| (fore &&& 0x0F)

/-- Store the bytes `bs` at the offset `i`. -/
def Console.poke (v : Console) (i : Nat) (bs : List UInt8) : Console :=
  { v with
    vid := store v.vid i bs
    stray := v.stray || decide (4000 < i + bs.length) }

/-- The body of the loop of `clean_screen`, at `i = 2 * k`. -/
def cleanCell (v : Console) (k : Nat) : Console :=
  (v.poke (2 * k) [0x20]).poke (2 * k + 1) [0x07]

def cleanScreen (v : Console) : Console :=
  { (List.range (80 * 25)).foldl cleanCell v with x := 0, y := 0 }

/-- `vid[i] = vid[i + VGA_WIDTH]`, of 16-bit words. -/
def shiftWord (v : Console) (i : Nat) : Console :=
  v.poke (2 * i) (bytesLE 2 (readLE v.vid (2 * (i + vgaWidth)) 2))

/-- `vid[i] = make_color(BLACK, BLACK) << 8 | ' '`, of a 16-bit word. -/
def blankWord (v : Console) (i : Nat) : Console :=
  v.poke (2 * i) (bytesLE 2 ((makeColor black black).toNat <<< 8 ||| 0x20))

def scrollScreen (v : Console) : Console :=
  let v := (List.range ((vgaHeight - 1) * vgaWidth)).foldl shiftWord v
  let v := (List.range' ((vgaHeight - 1) * vgaWidth) vgaWidth).foldl blankWord v
  if 0 < v.y then { v with y := v.y - 1 } else v

def updateHardwareCursor (v : Console) (x y : UInt8) : Console :=
  let pos := (y.toNat * vgaWidth + x.toNat) % 2 ^ 16
  { v with cursorHigh := UInt8.ofNat (pos >>> 8), cursorLow := UInt8.ofNat pos }

/-- The start of the next row, as the source writes it three times. -/
def nextRow (v : Console) : Console :=
  let v := { v with x := 0, y := v.y + 1 }
  if vgaHeight ≤ v.y.toNat then { scrollScreen v with y := 24 } else v

def printChar (v : Console) (c fore back : UInt8) : Console :=
  let color := makeColor fore back
  if c = 0x0A then nextRow v
  else
    let offset := (v.y.toNat * vgaWidth + v.x.toNat) * 2
    let v := v.poke offset [c]
    let v := v.poke (offset + 1) [color]
    let v := { v with x := v.x + 1 }
    let v := if vgaWidth ≤ v.x.toNat then nextRow v else v
    updateHardwareCursor v v.x v.y

/-- The loop of `print_string`. -/
def printChars (v : Console) (fore back : UInt8) : List UInt8 → Console
  | [] => v
  | c :: cs =>
    if c = 0x0A then printChars (nextRow v) fore back cs
    else printChars (printChar v c fore back) fore back cs

def printString (v : Console) (str : CStr) (fore back : UInt8) : Console :=
  let v := printChars v fore back str.chars
  updateHardwareCursor v v.x v.y

inductive Call
  | printChar (c fore back : UInt8)
  | printString (str : CStr) (fore back : UInt8)

def Call.run (v : Console) : Call → Console
  | .printChar c fore back => Vga.printChar v c fore back
  | .printString str fore back => Vga.printString v str fore back

/-! ## Without the cursor

`print_char_position` and `print_string_position` have a position of their own, of
type `unsigned int`. -/

def tabSize : UInt32 := 8

def printCharPosition (v : Console) (c : UInt8) (x y : UInt32) (fore back : UInt8) : Console :=
  if vgaWidth ≤ x.toNat ∨ vgaHeight ≤ y.toNat then v
  else
    let color := makeColor fore back
    let offset := (y * 80 + x) * 2
    (v.poke offset.toNat [c]).poke (offset + 1).toNat [color]

/-- The variables of the loop of `print_string_position`. -/
structure Pen where
  console : Console
  offset : UInt32
  col : UInt32

def Pen.put (p : Pen) (c color : UInt8) : Pen where
  console := (p.console.poke p.offset.toNat [c]).poke (p.offset + 1).toNat [color]
  offset := p.offset + 2
  col := p.col + 1

/-- The loop for a tab, with `n` rounds left. -/
def Pen.spaces (color : UInt8) : Nat → Pen → Pen
  | 0, p => p
  | n + 1, p => (p.put 0x20 color).spaces color n

def positionLoop (color : UInt8) : List UInt8 → Pen → Pen
  | [], p => p
  | c :: cs, p =>
    let p := if c = 0x09 then p.spaces color (tabSize - p.col % tabSize).toNat else p.put c color
    if vgaWidth ≤ p.col.toNat then p else positionLoop color cs p

def printStringPosition (v : Console) (str : CStr) (x y : UInt32) (fore back : UInt8) : Console :=
  let offset := (y * 80 + x) * 2
  (positionLoop (makeColor fore back) str.chars { console := v, offset := offset, col := x }).console

/-! ## Erasing -/

def backspace (v : Console) : Console :=
  let v :=
    if v.x = 0 then
      if 0 < v.y then { v with y := v.y - 1, x := 79 } else v
    else { v with x := v.x - 1 }
  let offset := (v.y.toNat * vgaWidth + v.x.toNat) * 2
  let v := v.poke offset [0x20]
  let v := v.poke (offset + 1) [makeColor black black]
  updateHardwareCursor v v.x v.y

end KernelC.Vga
