import Mathlib.Algebra.Ring.Int.Defs
import Mathlib.Logic.Function.Basic

/-!
# The keyboard: `keyboard/keyboard.c`

A key is the scancode of its make code, as in `keyboard.h`; the break code has
bit 7 set as well. A `char` is its byte. The handler and `kbd_getchar` run with
interrupts off, so each is one step. The indices are only ever set to a
remainder of a division of a non-negative number, so they are natural numbers.

`accepted` is not in the source: it records what `kbd_buffer_push` put into the
buffer.
-/

namespace KernelC.Keyboard

def kbdBufSize : Nat := 256

structure Kbd where
  shiftDown : Bool
  capsLock : Bool
  ctrlDown : Bool
  kbdBuf : Nat → UInt8
  kbdHead : Nat
  kbdTail : Nat
  accepted : List UInt8

def start : Kbd :=
  { shiftDown := false, capsLock := false, ctrlDown := false, kbdBuf := fun _ => 0, kbdHead := 0,
    kbdTail := 0, accepted := [] }

def keyC : UInt8 := 0x2E

def keyLshift : UInt8 := 0x2A

def keyRshift : UInt8 := 0x36

def keyCapslock : UInt8 := 0x3A

def keyLcontrol : UInt8 := 0x1D

/-- No byte is equal to it. -/
def keyRcontrol : Nat := 0xE01D

/-- The blank, as it goes through the buffer. -/
def internalSpace : Char := '\x01'

/-- The letters, in the order of the alphabet. -/
def alphaKeys : List UInt8 :=
  [0x1E, 0x30, 0x2E, 0x20, 0x12, 0x21, 0x22, 0x23, 0x17, 0x24, 0x25, 0x26, 0x32, 0x31, 0x18, 0x19,
    0x10, 0x13, 0x1F, 0x14, 0x16, 0x2F, 0x11, 0x2D, 0x15, 0x2C]

/-- The entries of `scancode_to_ascii`; the others are 0. -/
def scancodeToAscii : List (UInt8 × Char) :=
  [(0x1E, 'a'), (0x30, 'b'), (0x2E, 'c'), (0x20, 'd'), (0x12, 'e'), (0x21, 'f'), (0x22, 'g'),
    (0x23, 'h'), (0x17, 'i'), (0x24, 'j'), (0x25, 'k'), (0x26, 'l'), (0x32, 'm'), (0x31, 'n'),
    (0x18, 'o'), (0x19, 'p'), (0x10, 'q'), (0x13, 'r'), (0x1F, 's'), (0x14, 't'), (0x16, 'u'),
    (0x2F, 'v'), (0x11, 'w'), (0x2D, 'x'), (0x15, 'y'), (0x2C, 'z'),
    -- the digits
    (0x02, '1'), (0x03, '2'), (0x04, '3'), (0x05, '4'), (0x06, '5'), (0x07, '6'), (0x08, '7'),
    (0x09, '8'), (0x0A, '9'), (0x0B, '0'),
    -- KEY_MINUS to KEY_GRAVE
    (0x0C, '-'), (0x0D, '='), (0x1A, '['), (0x1B, ']'), (0x27, ';'), (0x2B, '\\'), (0x33, ','),
    (0x34, '.'), (0x35, '/'), (0x28, '\''), (0x29, '\x60'),
    -- KEY_SPACE, KEY_ENTER, KEY_TAB, KEY_BACKSPACE
    (0x39, internalSpace), (0x1C, '\n'), (0x0F, '\t'), (0x0E, '\x08')]

def scancodeToAsciiShifted : List (UInt8 × Char) :=
  [(0x1E, 'A'), (0x30, 'B'), (0x2E, 'C'), (0x20, 'D'), (0x12, 'E'), (0x21, 'F'), (0x22, 'G'),
    (0x23, 'H'), (0x17, 'I'), (0x24, 'J'), (0x25, 'K'), (0x26, 'L'), (0x32, 'M'), (0x31, 'N'),
    (0x18, 'O'), (0x19, 'P'), (0x10, 'Q'), (0x13, 'R'), (0x1F, 'S'), (0x14, 'T'), (0x16, 'U'),
    (0x2F, 'V'), (0x11, 'W'), (0x2D, 'X'), (0x15, 'Y'), (0x2C, 'Z'),
    (0x02, '!'), (0x03, '@'), (0x04, '#'), (0x05, '$'), (0x06, '%'), (0x07, '^'), (0x08, '&'),
    (0x09, '*'), (0x0A, '('), (0x0B, ')'),
    (0x0C, '_'), (0x0D, '+'), (0x1A, '\x7b'), (0x1B, '\x7d'), (0x27, ':'), (0x2B, '|'),
    (0x33, '<'), (0x34, '>'), (0x35, '?'), (0x28, '"'), (0x29, '~'),
    (0x39, internalSpace), (0x1C, '\n'), (0x0F, '\t'), (0x0E, '\x08')]

/-- The entry of a table at `scancode`. -/
def entry (table : List (UInt8 × Char)) (scancode : UInt8) : UInt8 :=
  match table.lookup scancode with
  | some c => c.toUInt8
  | none => 0

def myToupper (c : UInt8) : UInt8 := if 0x61 ≤ c ∧ c ≤ 0x7A then c - 32 else c

def isAlpha (scancode : UInt8) : Bool := alphaKeys.contains scancode

/-- The character of a key, or 0 if it has none. -/
def getAsciiChar (k : Kbd) (scancode : UInt8) : UInt8 :=
  if isAlpha scancode then
    let base := entry scancodeToAscii scancode
    if xor k.shiftDown k.capsLock then myToupper base else base
  else if k.shiftDown then entry scancodeToAsciiShifted scancode
  else entry scancodeToAscii scancode

def kbdBufferPush (k : Kbd) (c : UInt8) : Kbd :=
  let next := (k.kbdHead + 1) % kbdBufSize
  if next ≠ k.kbdTail then
    { k with
      kbdBuf := Function.update k.kbdBuf k.kbdHead c
      kbdHead := next
      accepted := k.accepted ++ [c] }
  else k

/-- Returns the oldest character, or -1. -/
def kbdGetchar (k : Kbd) : Kbd × UInt8 :=
  if k.kbdHead = k.kbdTail then (k, 0xFF)
  else ({ k with kbdTail := (k.kbdTail + 1) % kbdBufSize }, k.kbdBuf k.kbdTail)

/-- A `char` as an `int`. -/
def charToInt (c : UInt8) : Int := if c < 0x80 then c.toNat else c.toNat - 256

/-- `SYSCALL_GETCHAR`. -/
def syscallGetchar (k : Kbd) : Kbd × Nat :=
  let r := kbdGetchar k
  let c := charToInt r.2
  (r.1, if c = -1 then 0 else (c % 2 ^ 64).toNat)

def released (code : UInt8) : Bool := code &&& 0x80 ≠ 0

def keyOf (code : UInt8) : UInt8 := code &&& 0x7F

/-- The handler, for the byte `code` from the keyboard's port. -/
def keyboardHandler (k : Kbd) (code : UInt8) : Kbd :=
  let released := released code
  let key := keyOf code
  if key = keyLcontrol ∨ key.toNat = keyRcontrol then { k with ctrlDown := !released }
  else if !released ∧ k.ctrlDown ∧ key = keyC then kbdBufferPush k 0x03
  else if key = keyLshift ∨ key = keyRshift then { k with shiftDown := !released }
  else if key = keyCapslock ∧ !released then { k with capsLock := !k.capsLock }
  else if !released then
    let ch := getAsciiChar k key
    if ch ≠ 0 then kbdBufferPush k ch else k
  else k

end KernelC.Keyboard
