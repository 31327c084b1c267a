import Mathlib.Logic.Function.Iterate

/-!
# The wall clock: `time/clock/rtc.c`, `time/clock/clock.c`, `time/timer.c`

With `format_up` of `vga/vga.c`, the text of the uptime.

The CMOS is the bytes of its registers, which stay as they are during the read,
and the number of polls of register A that still see an update in progress. A
`uint8_t` is a `UInt8`; where C computes in `int`, so does the model, on the
values as natural numbers, and the result is cut back to a byte.

`timer_tick` also sends the end-of-interrupt to the PIC, which no clock reads,
and `h`, `m`, `s`, the globals that `init_system_clock` reads into, are only
used there.
-/

namespace KernelC.Time

/-! ## The RTC -/

structure Cmos where
  regs : UInt8 → UInt8
  updating : Nat

/-- Register A as the next poll reads it: bit 7 is update-in-progress. -/
def Cmos.statusA (c : Cmos) : UInt8 :=
  if c.updating = 0 then c.regs 0x0A &&& 0x7F else c.regs 0x0A ||| 0x80

theorem Cmos.statusA_ready {c : Cmos} (h : c.updating = 0) : c.statusA &&& 0x80 = 0 := by
  rw [Cmos.statusA, if_pos h, UInt8.and_assoc]
  exact UInt8.and_zero

def rtcWaitReady (c : Cmos) : Cmos :=
  if c.statusA &&& 0x80 = 0 then c
  else rtcWaitReady { c with updating := c.updating - 1 }
termination_by c.updating
decreasing_by
  have : c.updating ≠ 0 := fun h => by simp_all [Cmos.statusA_ready h]
  omega

def cmosRead (c : Cmos) (reg : UInt8) : UInt8 := c.regs reg

def bcdToBin (bcd : UInt8) : UInt8 := (bcd &&& 0x0F) + (bcd >>> (4 : UInt8)) * 10

def timezoneOffset : Nat := 7

structure ClockTime where
  hh : UInt8
  mm : UInt8
  ss : UInt8
deriving DecidableEq, Repr

/-- The hour, the minute and the second, as `init_system_clock` stores them. -/
def readRtcTime (c : Cmos) : ClockTime :=
  let c := rtcWaitReady c
  let ss := cmosRead c 0x00
  let mm := cmosRead c 0x02
  let hh := cmosRead c 0x04
  let regB := cmosRead c 0x0B
  let bcd := regB &&& 0x04 = 0
  let ss := if bcd then bcdToBin ss else ss
  let mm := if bcd then bcdToBin mm else mm
  -- without the PM bit
  let hh := if bcd then bcdToBin (hh &&& 0x7F) else hh &&& 0x7F
  let hh :=
    if regB &&& 0x02 = 0 ∧ cmosRead c 0x04 &&& 0x80 ≠ 0 then UInt8.ofNat ((hh.toNat + 12) % 24)
    else hh
  { hh := UInt8.ofNat ((hh.toNat + timezoneOffset + 24) % 24), mm := mm, ss := ss }

/-! ## The clock and the timer -/

structure Timer where
  tickTime : UInt16
  seconds : UInt32
  systemClock : ClockTime

def initSystemClock (c : Cmos) (t : Timer) : Timer := { t with systemClock := readRtcTime c }

def clockTick (k : ClockTime) : ClockTime :=
  if 60 ≤ k.ss + 1 then
    if 60 ≤ k.mm + 1 then
      if 24 ≤ k.hh + 1 then { hh := 0, mm := 0, ss := 0 }
      else { hh := k.hh + 1, mm := 0, ss := 0 }
    else { k with mm := k.mm + 1, ss := 0 }
  else { k with ss := k.ss + 1 }

def timerTick (t : Timer) : Timer :=
  if 1000 ≤ t.tickTime + 1 then
    { tickTime := 0, seconds := t.seconds + 1, systemClock := clockTick t.systemClock }
  else { t with tickTime := t.tickTime + 1 }

/-! ## The texts

A buffer gets nine bytes, `"hh:mm:ss"` and the terminator. -/

def formatClock (t : ClockTime) : List UInt8 :=
  [0x30 + t.hh / 10, 0x30 + t.hh % 10, 0x3A, 0x30 + t.mm / 10, 0x30 + t.mm % 10, 0x3A,
    0x30 + t.ss / 10, 0x30 + t.ss % 10, 0]

def formatUp (totalSeconds : UInt32) : List UInt8 :=
  let hours := totalSeconds / 3600
  let minutes := totalSeconds % 3600 / 60
  let seconds := totalSeconds % 60
  [(0x30 + hours / 10 % 10).toUInt8, (0x30 + hours % 10).toUInt8, 0x3A,
    (0x30 + minutes / 10).toUInt8, (0x30 + minutes % 10).toUInt8, 0x3A,
    (0x30 + seconds / 10).toUInt8, (0x30 + seconds % 10).toUInt8, 0]

end KernelC.Time
