import KernelC.Lib.ByteMem

/-!
# Where interrupts go: `idt.c`, `pic.c` and the beginning of `kmain`

`idt_install` fills the interrupt descriptor table, `pic_remap` moves the vectors of the
two interrupt controllers, and `kmain` masks all lines but those of the timer and the
keyboard. The processor (`gateAt`) and a controller (`Pic.command`, `Pic.data`) are modelled
as far as these functions use them.

Result: `interrupts_routed`, which handler each vector and each line leads to.
-/

namespace KernelC.Interrupt

/-! ## The table -/

/-- The fields of the packed `struct idt_entry` at the index `num`. -/
def idtSetGate (m : Mem) (idt num handler sel flags : Nat) : Mem :=
  let e := idt + 16 * num
  let m := writeLE m e 2 (handler % 2 ^ 16)
  let m := writeLE m (e + 2) 2 sel
  let m := writeLE m (e + 4) 1 0
  let m := writeLE m (e + 5) 1 flags
  let m := writeLE m (e + 6) 2 (handler / 2 ^ 16 % 2 ^ 16)
  let m := writeLE m (e + 8) 4 (handler / 2 ^ 32 % 2 ^ 32)
  writeLE m (e + 12) 4 0

/-- The addresses of the assembly handlers. -/
structure Handlers where
  isrStub : Nat → Nat
  isr32 : Nat
  isr33 : Nat
  isr80 : Nat

/-- The table of `idt_install`, at `idt`. -/
def idtInstall (m : Mem) (idt : Nat) (h : Handlers) : Mem :=
  let m := (List.range 32).foldl (fun m i => idtSetGate m idt i (h.isrStub i) 0x08 0x8E) m
  let m := idtSetGate m idt 32 h.isr32 0x08 0x8E
  let m := idtSetGate m idt 33 h.isr33 0x08 0x8E
  idtSetGate m idt 0x80 h.isr80 0x08 0xEE

/-- `idtp.limit`. -/
def idtLimit : Nat := 256 * 16 - 1

structure Gate where
  target : Nat
  selector : Nat
  dpl : Nat
deriving DecidableEq

/-- The processor's lookup of the vector `v`: a gate that is present and an interrupt gate. -/
def gateAt (m : Mem) (base limit v : Nat) : Option Gate :=
  let e := base + 16 * v
  let attr := readLE m (e + 5) 1
  if 16 * v + 15 ≤ limit ∧ attr / 2 ^ 7 = 1 ∧ attr % 2 ^ 5 = 0xE then
    some
      { target := readLE m e 2 + 2 ^ 16 * readLE m (e + 6) 2 + 2 ^ 32 * readLE m (e + 8) 4
        selector := readLE m (e + 2) 2
        dpl := attr / 2 ^ 5 % 2 ^ 2 }
  else none

section

variable {m : Mem} {idt num handler sel flags v : Nat}

theorem idtSetGate_of_outside {x : Nat} (h : x < idt + 16 * num ∨ idt + 16 * num + 16 ≤ x) :
    idtSetGate m idt num handler sel flags x = m x := by
  unfold idtSetGate
  simp (disch := omega) only [writeLE_of_outside]

/-- A lookup depends on the 16 bytes of its entry. -/
theorem gateAt_congr {m' : Mem} {base limit : Nat}
    (h : ∀ x, base + 16 * v ≤ x → x < base + 16 * v + 16 → m' x = m x) :
    gateAt m' base limit v = gateAt m base limit v := by
  have hread : ∀ a n, base + 16 * v ≤ a → a + n ≤ base + 16 * v + 16 →
      readLE m' a n = readLE m a n := fun a n hlo hhi =>
    readLE_congr fun x h1 h2 => h x (by omega) (by omega)
  unfold gateAt
  simp (disch := omega) only [hread]

theorem gateAt_setGate_of_ne {limit : Nat} (h : v ≠ num) :
    gateAt (idtSetGate m idt num handler sel flags) idt limit v = gateAt m idt limit v :=
  gateAt_congr fun x h1 h2 => idtSetGate_of_outside (by omega)

/-- The address that was split over three fields comes together again. -/
theorem gateAt_setGate_same {limit : Nat} (hlimit : 16 * num + 15 ≤ limit)
    (hh : handler < 2 ^ 64) (hsel : sel < 2 ^ 16) (hflags : flags < 2 ^ 8)
    (hpresent : flags / 2 ^ 7 = 1 ∧ flags % 2 ^ 5 = 0xE) :
    gateAt (idtSetGate m idt num handler sel flags) idt limit num =
      some ⟨handler, sel, flags / 2 ^ 5 % 2 ^ 2⟩ := by
  unfold idtSetGate gateAt
  simp (disch := omega) only [readLE_writeLE_of_disjoint, readLE_writeLE_same]
  have hattr : flags % 256 ^ 1 = flags := Nat.mod_eq_of_lt (by omega)
  rw [hattr, if_pos ⟨hlimit, hpresent⟩, Option.some.injEq, Gate.mk.injEq]
  refine ⟨?_, Nat.mod_eq_of_lt (by omega), rfl⟩
  omega

end

/-- The entries of the first `n` exceptions. -/
theorem gateAt_stubs (m : Mem) (idt : Nat) {limit : Nat} {stub : Nat → Nat} {n v : Nat}
    (hlimit : 16 * n ≤ limit) (hstub : ∀ i < n, stub i < 2 ^ 64) :
    gateAt ((List.range n).foldl (fun m i => idtSetGate m idt i (stub i) 0x08 0x8E) m) idt limit v =
      if v < n then some ⟨stub v, 0x08, 0⟩ else gateAt m idt limit v := by
  induction n with
  | zero => rfl
  | succ n ih =>
    rw [List.range_succ, List.foldl_append, List.foldl_cons, List.foldl_nil]
    by_cases hv : v = n
    · subst hv
      rw [gateAt_setGate_same (by omega) (hstub v (Nat.lt_succ_self v)) (by decide) (by decide) (by decide),
        if_pos (Nat.lt_succ_self v)]
      rfl
    · rw [gateAt_setGate_of_ne hv, ih (by omega) fun i hi => hstub i (by omega)]
      by_cases hlt : v < n
      · rw [if_pos hlt, if_pos (by omega)]
      · rw [if_neg hlt, if_neg (by omega)]

theorem gateAt_zero {m : Mem} {base limit v : Nat}
    (h : ∀ x, base + 16 * v ≤ x → x < base + 16 * v + 16 → m x = 0) :
    gateAt m base limit v = none := by
  have hattr : readLE (fun _ => 0) (base + 16 * v + 5) 1 = 0 := rfl
  rw [gateAt_congr (m := fun _ => 0) h, gateAt, hattr]
  exact if_neg fun hp => absurd hp.2.1 (by decide)

/-! ## The interrupt controllers -/

/-- An 8259A: the vector of its line 0, its mask, and the command word that it expects next,
0 for a mask. -/
structure Pic where
  offset : UInt8
  mask : UInt8
  expects : Nat

/-- A write to the command port: bit 4 starts the initialisation. The other commands are
about the interrupt in service. -/
def Pic.command (p : Pic) (v : UInt8) : Pic :=
  if v &&& 0x10 ≠ 0 then { p with mask := 0, expects := 2 } else p

/-- A write to the data port: the rest of an initialisation of a cascaded controller with
ICW4, or the mask. -/
def Pic.data (p : Pic) (v : UInt8) : Pic :=
  match p.expects with
  | 2 => { p with offset := v &&& 0xF8, expects := 3 }
  | 3 => { p with expects := 4 }
  | 4 => { p with expects := 0 }
  | _ => { p with mask := v }

/-- The two controllers, the second on line 2 of the first. -/
structure Pics where
  pic1 : Pic
  pic2 : Pic

def pic1Command : UInt16 := 0x20

def pic1Data : UInt16 := 0x21

def pic2Command : UInt16 := 0xA0

def pic2Data : UInt16 := 0xA1

def Pics.outb (p : Pics) (port : UInt16) (v : UInt8) : Pics :=
  if port = pic1Command then { p with pic1 := p.pic1.command v }
  else if port = pic1Data then { p with pic1 := p.pic1.data v }
  else if port = pic2Command then { p with pic2 := p.pic2.command v }
  else if port = pic2Data then { p with pic2 := p.pic2.data v }
  else p

/-- Reading a data port gives the mask. -/
def picRemap (p : Pics) (offset1 offset2 : Int) : Pics :=
  let a1 := p.pic1.mask
  let a2 := p.pic2.mask
  let p := p.outb pic1Command (0x10 ||| 0x01)
  let p := p.outb pic2Command (0x10 ||| 0x01)
  let p := p.outb pic1Data (UInt8.ofNat (offset1 % 256).toNat)
  let p := p.outb pic2Data (UInt8.ofNat (offset2 % 256).toNat)
  let p := p.outb pic1Data 4
  let p := p.outb pic2Data 2
  let p := p.outb pic1Data 0x01
  let p := p.outb pic2Data 0x01
  let p := p.outb pic1Data a1
  p.outb pic2Data a2

/-- What `kmain` does to the controllers: `pic_remap(0x20, 0x28)` in `idt_install`, the ports
0x43 and 0x40 of `init_timer`, with the divisor `d`, and the mask. -/
def kmainPics (p : Pics) (d : UInt32) : Pics :=
  let p := picRemap p 0x20 0x28
  let p := p.outb 0x43 0x36
  let p := p.outb 0x40 (d &&& 0xFF).toUInt8
  let p := p.outb 0x40 ((d >>> 8) &&& 0xFF).toUInt8
  p.outb pic1Data 0xFC

def Pic.masked (p : Pic) (line : Nat) : Bool := p.mask.toNat.testBit line

/-- The vector that the line `irq` raises, if it is not masked. -/
def Pics.vector (p : Pics) (irq : Nat) : Option Nat :=
  if irq < 8 then if p.pic1.masked irq then none else some (p.pic1.offset.toNat + irq)
  else if p.pic1.masked 2 || p.pic2.masked (irq - 8) then none
  else some (p.pic2.offset.toNat + (irq - 8))

/-- Whatever state the firmware left. -/
theorem kmainPics_eq (p : Pics) (d : UInt32) (h1 : p.pic1.expects = 0) (h2 : p.pic2.expects = 0) :
    kmainPics p d = ⟨⟨0x20, 0xFC, 0⟩, ⟨0x28, p.pic2.mask, 0⟩⟩ := by
  obtain ⟨⟨o1, m1, e1⟩, ⟨o2, m2, e2⟩⟩ := p
  dsimp only at h1 h2
  subst h1 h2
  rfl

/-- After the beginning of `kmain`, whatever the memory, the controllers' masks and the divisor
were: the vectors 0 to 31 lead to their stubs, 32 to `isr32`, 33 to `isr33` and 0x80 to `isr80`,
each at its full address and in ring 0; no other vector has a gate; and 0x80 is the only one that
a program in ring 3 may call. Of the sixteen lines only the timer's and the keyboard's are let
through, and they raise 32 and 33. -/
theorem interrupts_routed {m : Mem} {h : Handlers} {p : Pics} (idt : Nat) (d : UInt32)
    (hzero : ∀ x, idt ≤ x → x < idt + 4096 → m x = 0) (hstub : ∀ i < 32, h.isrStub i < 2 ^ 64)
    (h32 : h.isr32 < 2 ^ 64) (h33 : h.isr33 < 2 ^ 64) (h80 : h.isr80 < 2 ^ 64)
    (hpics : p.pic1.expects = 0 ∧ p.pic2.expects = 0) :
    (∀ v, gateAt (idtInstall m idt h) idt idtLimit v =
      if v < 32 then some ⟨h.isrStub v, 0x08, 0⟩
      else if v = 32 then some ⟨h.isr32, 0x08, 0⟩
      else if v = 33 then some ⟨h.isr33, 0x08, 0⟩
      else if v = 0x80 then some ⟨h.isr80, 0x08, 3⟩
      else none) ∧
    ∀ irq, (kmainPics p d).vector irq =
      if irq = 0 then some 32 else if irq = 1 then some 33 else none := by
  refine ⟨fun v => ?_, fun irq => ?_⟩
  · unfold idtInstall
    dsimp only
    by_cases hv80 : v = 0x80
    · subst hv80
      rw [gateAt_setGate_same (by decide) h80 (by decide) (by decide) (by decide)]
      rfl
    rw [gateAt_setGate_of_ne hv80]
    by_cases hv33 : v = 33
    · subst hv33
      rw [gateAt_setGate_same (by decide) h33 (by decide) (by decide) (by decide)]
      rfl
    rw [gateAt_setGate_of_ne hv33]
    by_cases hv32 : v = 32
    · subst hv32
      rw [gateAt_setGate_same (by decide) h32 (by decide) (by decide) (by decide)]
      rfl
    rw [gateAt_setGate_of_ne hv32, gateAt_stubs m idt (by decide) hstub, if_neg hv32, if_neg hv33,
      if_neg hv80]
    by_cases hlt : v < 32
    · rw [if_pos hlt, if_pos hlt]
    · rw [if_neg hlt, if_neg hlt]
      by_cases hin : v < 256
      · exact gateAt_zero fun x h1 h2 => hzero x (by omega) (by omega)
      · -- behind the limit
        refine if_neg fun hp => ?_
        have := hp.1
        unfold idtLimit at this
        omega
  · rw [kmainPics_eq p d hpics.1 hpics.2]
    unfold Pics.vector Pic.masked
    dsimp only
    have hfirst : ∀ i < 8, (if (UInt8.toNat 0xFC).testBit i then none
        else some (UInt8.toNat 0x20 + i)) =
          if i = 0 then some 32 else if i = 1 then some 33 else none := by decide
    -- line 2 of the first controller is masked
    have hcascade : (UInt8.toNat 0xFC).testBit 2 = true := by decide
    by_cases hlt : irq < 8
    · rw [if_pos hlt, hfirst irq hlt]
    · rw [if_neg hlt, hcascade, Bool.true_or, if_pos rfl, if_neg (by omega), if_neg (by omega)]

/-- Handlers in the upper half of the addresses. -/
def highHandlers : Handlers where
  isrStub i := 0xFFFF800000100000 + 64 * i
  isr32 := 0xFFFF800000200000
  isr33 := 0xFFFF800000300000
  isr80 := 0xFFFF800000400000

/-- The controllers as a PC's firmware leaves them. -/
def firmwarePics : Pics := ⟨⟨0x08, 0xB8, 0⟩, ⟨0x70, 0x8F, 0⟩⟩

theorem interrupts_routed_high :
    gateAt (idtInstall (fun _ => 0) 0x4000 highHandlers) 0x4000 idtLimit 0x80 =
        some ⟨0xFFFF800000400000, 0x08, 3⟩ ∧
      (kmainPics firmwarePics 1193).vector 1 = some 33 := by
  obtain ⟨hgate, hline⟩ := interrupts_routed (m := fun _ => 0)
    (h := highHandlers) (p := firmwarePics) 0x4000 1193 (fun _ _ _ => rfl)
    (fun i hi => by unfold highHandlers; dsimp only; omega) (by decide) (by decide) (by decide)
    ⟨rfl, rfl⟩
  exact ⟨hgate 0x80, hline 1⟩

end KernelC.Interrupt
