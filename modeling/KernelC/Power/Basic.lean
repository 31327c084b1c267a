import KernelC.Lib.ByteMem

/-!
# Switching the machine off: `power/poweroff.c`

Physical memory is mapped at its own addresses (`p2v`), so a pointer is a
number, and `power_off` only reads memory until it writes to the PM1 control
registers. What it does to the machine is the list of its port and register
writes; at its end, or where a table is missing, it halts for ever.

A table of ACPI is given by its address. The bytes of the structures are read at
their offsets in the packed C structs.
-/

namespace KernelC.Power

/-- A write to a port, or to a register in memory. -/
inductive Out where
  | outb (port : Nat) (value : UInt8)
  | outw (port : Nat) (value : UInt16)
  | store16 (addr : Nat) (value : UInt16)
deriving DecidableEq

/-! ## Reading the tables -/

/-- `"RSD PTR "`. -/
def sigRsdp : List UInt8 := [0x52, 0x53, 0x44, 0x20, 0x50, 0x54, 0x52, 0x20]

/-- `"FACP"`. -/
def sigFacp : List UInt8 := [0x46, 0x41, 0x43, 0x50]

/-- `"_S5_"`. -/
def nameS5 : List UInt8 := [0x5F, 0x53, 0x35, 0x5F]

/-- The difference of the first two bytes that are not equal, or 0. -/
def memcmpSimple (m : Mem) (a : Nat) : List UInt8 → Int
  | [] => 0
  | b :: rest =>
    if m a ≠ b then (m a).toNat - b.toNat else memcmpSimple m (a + 1) rest

def checksumOk (m : Mem) (p n : Nat) : Bool :=
  (List.range n).foldl (fun s i => s + m (p + i)) 0 = 0

def readU32 (m : Mem) (p : Nat) : Nat := readLE m p 4

def readU64 (m : Mem) (p : Nat) : Nat := readLE m p 8

def rsdpRevision (m : Mem) (r : Nat) : UInt8 := m (r + 15)

def rsdpRsdtAddress (m : Mem) (r : Nat) : Nat := readU32 m (r + 16)

def rsdpLength (m : Mem) (r : Nat) : Nat := readU32 m (r + 20)

def rsdpXsdtAddress (m : Mem) (r : Nat) : Nat := readU64 m (r + 24)

/-- Is there a root pointer at `a`? -/
def isRsdp (m : Mem) (a : Nat) : Bool :=
  memcmpSimple m a sigRsdp = 0 ∧
    ((2 ≤ rsdpRevision m a ∧ rsdpLength m a ≠ 0 ∧ checksumOk m a (rsdpLength m a)) ∨
      checksumOk m a 20)

def findRsdpLoop (m : Mem) : Nat → Nat → Nat
  | 0, _ => 0
  | k + 1, a => if isRsdp m a then a else findRsdpLoop m k (a + 16)

/-- From `0xE0000` to `0xFFFFF`, on 16-byte boundaries. -/
def findRsdp (m : Mem) : Nat := findRsdpLoop m 0x2000 0xE0000

def sdtHdrSize : Nat := 36

def sdtLength (m : Mem) (h : Nat) : Nat := readU32 m (h + 4)

/-- The table at `phys`, if its header is plausible and its bytes add up to 0. -/
def mapSdt (m : Mem) (phys : Nat) : Option Nat :=
  if phys = 0 then none
  else if sdtLength m phys < sdtHdrSize ∨ 0x200000 < sdtLength m phys then none
  else if !checksumOk m phys (sdtLength m phys) then none
  else some phys

/-- The first of the next `k` entries, of `width` bytes each, that is a table with the signature. -/
def findEntry (m : Mem) (sig : List UInt8) (width base : Nat) : Nat → Nat → Nat
  | 0, _ => 0
  | k + 1, i =>
    let e := readLE m (base + i * width) width
    if (mapSdt m e).isSome ∧ memcmpSimple m e sig = 0 then e
    else findEntry m sig width base k (i + 1)

def findTable (m : Mem) (tablePhys : Nat) (sig : List UInt8) (xsdt : Bool) : Nat :=
  match mapSdt m tablePhys with
  | none => 0
  | some t =>
    let width := if xsdt then 8 else 4
    findEntry m sig width (tablePhys + sdtHdrSize) ((sdtLength m t - sdtHdrSize) / width) 0

/-! ## The sleep type -/

def findS5Loop (m : Mem) (p len : Nat) : Nat → Nat → Option (UInt8 × UInt8)
  | 0, _ => none
  | k + 1, i =>
    if i + 4 < len then
      let pos := i + 4
      if memcmpSimple m (p + i) nameS5 = 0 ∧ pos + 6 < len then
        some (m (p + pos + 5), m (p + pos + 7))
      else findS5Loop m p len k (i + 1)
    else none

/-- `slp_a` and `slp_b`. -/
def findS5 (m : Mem) (dsdtPhys : Nat) : Option (UInt8 × UInt8) :=
  match mapSdt m dsdtPhys with
  | none => none
  | some dsdt => findS5Loop m dsdtPhys (sdtLength m dsdt) (sdtLength m dsdt) 0

/-! ## The PM1 control registers -/

/-- The addresses, 0 for a register that is missing, and whether they are ports. -/
structure Pm1 where
  a : Nat
  b : Nat
  io : Bool
deriving DecidableEq

def gasSize : Nat := 12

def gasSpace (m : Mem) (g : Nat) : UInt8 := m g

def gasWidth (m : Mem) (g : Nat) : UInt8 := m (g + 1)

def gasAddress (m : Mem) (g : Nat) : Nat := readU64 m (g + 4)

def candidateOffsets : List (Nat × Nat) :=
  [(76, 84), (80, 88), (92, 100), (100, 108), (116, 124), (128, 136), (140, 148)]

def tryCandidates (m : Mem) (fadt len : Nat) : List (Nat × Nat) → Pm1 → Pm1
  | [], pm => pm
  | (offA, offB) :: rest, pm =>
    let pm :=
      if offA + gasSize ≤ len ∧ gasAddress m (fadt + offA) ≠ 0 then
        { pm with a := gasAddress m (fadt + offA), io := gasSpace m (fadt + offA) = 0 }
      else pm
    let pm :=
      if offB + gasSize ≤ len ∧ gasAddress m (fadt + offB) ≠ 0 then
        { pm with
          b := gasAddress m (fadt + offB)
          io := pm.io || gasSpace m (fadt + offB) = 0 }
      else pm
    if pm.a ≠ 0 ∨ pm.b ≠ 0 then pm else tryCandidates m fadt len rest pm

def tryFindGasInFadt (m : Mem) (fadt len : Nat) (pm : Pm1) : Pm1 :=
  tryCandidates m fadt len candidateOffsets pm

/-- The last resort of `power_off`: anything in the FADT that looks like a register. -/
def scanGas (m : Mem) (fadt len : Nat) : Nat → Nat → Pm1 → Pm1
  | 0, _, pm => pm
  | k + 1, i, pm =>
    if i + gasSize ≤ len then
      let gas := fadt + i
      if gasAddress m gas ≠ 0 ∧ (gasSpace m gas = 0 ∨ gasSpace m gas = 1) ∧
          0 < gasWidth m gas ∧ gasWidth m gas ≤ 64 then
        if pm.a = 0 then
          scanGas m fadt len k (i + 4)
            { pm with a := gasAddress m gas, io := gasSpace m gas = 0 }
        else if pm.b = 0 then
          { pm with b := gasAddress m gas, io := pm.io || gasSpace m gas = 0 }
        else scanGas m fadt len k (i + 4) pm
      else scanGas m fadt len k (i + 4) pm
    else pm

def fadtPm1 (m : Mem) (fadt : Nat) : Pm1 :=
  let len := sdtLength m fadt
  let pm : Pm1 :=
    if 72 ≤ len then { a := readU32 m (fadt + 64), b := readU32 m (fadt + 68), io := true }
    else { a := 0, b := 0, io := true }
  let pm := if pm.a = 0 ∧ pm.b = 0 then tryFindGasInFadt m fadt len pm else pm
  if pm.a = 0 ∧ pm.b = 0 then scanGas m fadt len len sdtHdrSize pm else pm

def fadtDsdt (m : Mem) (fadt : Nat) : Nat :=
  let len := sdtLength m fadt
  let d64 := if 140 ≤ len then readU64 m (fadt + 140) else 0
  if d64 = 0 ∧ 44 ≤ len then readU32 m (fadt + 40) else d64

/-! ## power_off -/

/-- `io_wait`. -/
def ioWait : List Out := [.outb 0x80 0]

def emulatorFallback : List Out := [.outw 0x604 0x2000] ++ ioWait ++ [.outw 0x4004 0x2000] ++ ioWait

def pm1SlpEn : UInt16 := (1 : UInt16) <<< (13 : UInt16)

def sleepValue (s5 : UInt8) : UInt16 := (s5 &&& 0x7).toUInt16 <<< (10 : UInt16) ||| pm1SlpEn

def writePm (addr : Nat) (isIo : Bool) (value : UInt16) : List Out :=
  if addr = 0 then []
  else if isIo ∧ addr ≤ 0xFFFF then [.outw addr value]
  else [.store16 addr value]

/-- The FADT, by way of the root pointer and the root table. -/
def findFadt (m : Mem) : Option Nat :=
  let rsdp := findRsdp m
  if rsdp = 0 then none
  else
    let useXsdt : Bool := 2 ≤ rsdpRevision m rsdp ∧ rsdpXsdtAddress m rsdp ≠ 0
    let tablePhys := if useXsdt then rsdpXsdtAddress m rsdp else rsdpRsdtAddress m rsdp
    if tablePhys = 0 then none
    else
      let fadt := findTable m tablePhys sigFacp useXsdt
      if fadt = 0 then none else mapSdt m fadt

/-- Both registers get the value made from `slp_a`, which is 5 if the DSDT does not say. -/
def powerOff (m : Mem) : List Out :=
  match findFadt m with
  | none => emulatorFallback ++ emulatorFallback
  | some fadt =>
    let pm := fadtPm1 m fadt
    let dsdt := fadtDsdt m fadt
    let s5a := if dsdt = 0 then 5 else ((findS5 m dsdt).map Prod.fst).getD 5
    emulatorFallback ++ writePm pm.a pm.io (sleepValue s5a) ++
      writePm pm.b pm.io (sleepValue s5a) ++ ioWait ++ emulatorFallback

end KernelC.Power
