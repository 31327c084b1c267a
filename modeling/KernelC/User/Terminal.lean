import Mathlib.Logic.Function.Basic

/-!
# The terminal: `user/terminal.asm`

One turn of `.loop` reads a character and acts on it. What the system calls of
the turn return is the environment's: the character, and the results of
`SYSCALL_TASK_STOP` and `SYSCALL_TASK_CREATE` where they are made. A turn that
starts a program ends when the program has ended. What is printed is left out.

`buf` is the block of 8192 bytes from `SYSCALL_MALLOC`; a store behind its end
is undefined (`none`). `started` is not in the source: it records the strings
that were passed to `SYSCALL_TASK_CREATE`.
-/

namespace KernelC.User

structure Shell where
  buf : Nat → UInt8
  inputLen : Nat
  r15 : UInt64
  started : List (List UInt8)

def start (buf : Nat → UInt8) : Shell := { buf := buf, inputLen := 0, r15 := 0, started := [] }

/-- What the calls of one turn return. -/
structure Turn where
  getchar : Nat
  taskStop : UInt64
  taskCreate : UInt64

/-- The low byte of the character. -/
def Turn.al (u : Turn) : UInt8 := UInt8.ofNat u.getchar

/-- The string at the offset `i`, without its terminator; at most `n` bytes. -/
def stringAt (buf : Nat → UInt8) : Nat → Nat → List UInt8
  | _, 0 => []
  | i, n + 1 => if buf i = 0 then [] else buf i :: stringAt buf (i + 1) n

/-- Store a byte at `input_buffer_ptr + input_len`. -/
def store (s : Shell) (b : UInt8) : Option Shell :=
  if s.inputLen < 8192 then some { s with buf := Function.update s.buf s.inputLen b } else none

def notBackspace (s : Shell) (al : UInt8) : Option Shell :=
  let al := if al = 0x01 then 32 else al
  (store s al).map fun s => { s with inputLen := s.inputLen + 1 }

def notNewline (s : Shell) (al : UInt8) : Option Shell :=
  if al = 8 then
    if s.inputLen = 0 then some s else some { s with inputLen := s.inputLen - 1 }
  else notBackspace s al

def notCtrlC (s : Shell) (al : UInt8) (taskCreate : UInt64) : Option Shell :=
  if al = 10 then
    (store s 0).map fun s =>
      { s with
        inputLen := 0
        started := s.started ++ [stringAt s.buf 0 8192]
        r15 := if taskCreate = 0 then s.r15 else taskCreate }
  else notNewline s al

/-- One turn of `.loop`. After Ctrl+C the result of `SYSCALL_TASK_STOP` is where
the character was. -/
def turn (s : Shell) (u : Turn) : Option Shell :=
  if u.al = 0 then some s
  else if u.al = 32 then some s
  else if u.al = 0x03 ∧ s.r15 ≠ 0 then
    notCtrlC { s with r15 := 0 } u.taskStop.toUInt8 u.taskCreate
  else notCtrlC s u.al u.taskCreate

end KernelC.User
