import KernelC.Power.Basic

/-!
# The sleep type in the DSDT

`_S5_` is a package of at least four small integers. In AML its name is followed
by the package opcode, the length of the package in one to four bytes, the
number of elements and the elements, each of one or two bytes. `find_s5` takes
the bytes at offsets 5 and 7 after the name, where the first two elements are
only for some of these encodings, and `power_off` writes the first of them to
both registers.

Results:
1. `findS5_first`: `find_s5` returns the two bytes after the first name.
2. `at_offsets`: which bytes of the package these are.
3. `powerOff_right_iff`: when the values are those of the package, on both
   registers; `short_length_misread`.
-/

namespace KernelC.Power

/-! ## The encoding -/

/-- An element of the package: `ZeroOp`, `OneOp` or `BytePrefix`. -/
inductive Elem where
  | zero
  | one
  | byte (v : UInt8)
deriving DecidableEq

def Elem.value : Elem → UInt8
  | .zero => 0
  | .one => 1
  | .byte v => v

def Elem.bytes : Elem → List UInt8
  | .zero => [0x00]
  | .one => [0x01]
  | .byte v => [0x0A, v]

/-- A length in `follow + 1` bytes: six bits in a single byte, otherwise four bits
in the first one, which also says how many follow. -/
def pkgLength (follow n : Nat) : List UInt8 :=
  if follow = 0 then [UInt8.ofNat n]
  else UInt8.ofNat (follow * 64 + n % 16) :: bytesLE follow (n / 16)

/-- `Package{a, b, ...}`, encoded with `follow` further bytes of length. -/
structure S5 where
  a : Elem
  b : Elem
  rest : List Elem
  follow : Nat
  four : 2 ≤ rest.length
  count_lt : rest.length + 2 < 256
  follow_le : follow ≤ 3
  fits : follow = 0 → ((a :: b :: rest).flatMap Elem.bytes).length < 62

/-- The elements one after the other. -/
def S5.body (e : S5) : List UInt8 := (e.a :: e.b :: e.rest).flatMap Elem.bytes

def S5.count (e : S5) : UInt8 := UInt8.ofNat (e.rest.length + 2)

/-- What follows the name. The length counts its own bytes. -/
def S5.package (e : S5) : List UInt8 :=
  [0x12] ++ pkgLength e.follow (e.follow + 1 + 1 + e.body.length) ++ [e.count] ++ e.body

/-- The DSDT at `d` is a valid table, and its first `_S5_`, at offset `i`, is the name of the
package `e`. -/
structure HasS5 (m : Mem) (d i : Nat) (e : S5) : Prop where
  valid : mapSdt m d = some d
  inside : i + 4 + e.package.length ≤ sdtLength m d
  name : memcmpSimple m (d + i) nameS5 = 0
  first : ∀ j < i, memcmpSimple m (d + j) nameS5 ≠ 0
  bytes : load m (d + i + 4) e.package.length = e.package

/-! ## The bytes at the two offsets -/

theorem Elem.bytes_pos (x : Elem) : 1 ≤ x.bytes.length := by
  cases x <;> simp [Elem.bytes]

theorem length_flatMap_bytes (l : List Elem) : l.length ≤ (l.flatMap Elem.bytes).length := by
  induction l with
  | nil => simp
  | cons x l ih =>
    have := x.bytes_pos
    simp only [List.flatMap_cons, List.length_append, List.length_cons]
    omega

theorem S5.four_le_body (e : S5) : 4 ≤ e.body.length := by
  have h := length_flatMap_bytes (e.a :: e.b :: e.rest)
  have := e.four
  simp only [List.length_cons] at h
  exact Nat.le_trans (by omega) h

theorem pkgLength_length (follow n : Nat) : (pkgLength follow n).length = follow + 1 := by
  unfold pkgLength
  split
  · rename_i h
    simp [h]
  · simp

theorem S5.package_length (e : S5) : e.package.length = e.follow + 3 + e.body.length := by
  simp only [S5.package, List.length_append, List.length_singleton, pkgLength_length]
  omega

/-- Everything the scanner needs is inside the table. -/
theorem HasS5.room {m : Mem} {d i : Nat} {e : S5} (h : HasS5 m d i e) :
    i + 4 + 6 < sdtLength m d := by
  have := h.inside
  have := e.package_length
  have := e.four_le_body
  omega

theorem findS5Loop_first {m : Mem} {d len i : Nat} (hname : memcmpSimple m (d + i) nameS5 = 0)
    (hroom : i + 4 + 6 < len) {k j : Nat} (hj : j ≤ i) (hk : i < j + k)
    (hfirst : ∀ l, j ≤ l → l < i → memcmpSimple m (d + l) nameS5 ≠ 0) :
    findS5Loop m d len k j = some (m (d + (i + 4) + 5), m (d + (i + 4) + 7)) := by
  induction k generalizing j with
  | zero => omega
  | succ k ih =>
    rw [findS5Loop, if_pos (by omega)]
    rcases Nat.lt_or_eq_of_le hj with hlt | rfl
    · have hne := hfirst j (Nat.le_refl j) hlt
      rw [if_neg fun hc => hne hc.1]
      exact ih (by omega) (by omega) fun l h1 h2 => hfirst l (by omega) h2
    · rw [if_pos ⟨hname, hroom⟩]

/-- The scanner stops at the first name and returns the bytes at its fixed offsets. -/
theorem findS5_first {m : Mem} {d i : Nat} {e : S5} (h : HasS5 m d i e) :
    findS5 m d = some (m (d + (i + 4) + 5), m (d + (i + 4) + 7)) := by
  have hroom := h.room
  rw [findS5, h.valid]
  exact findS5Loop_first h.name hroom (Nat.zero_le i) (by omega) fun l _ hl => h.first l hl

/-- The bytes from the name on are those of the package, and then the next byte of memory. -/
theorem HasS5.byte_eq {m : Mem} {d i : Nat} {e : S5} (h : HasS5 m d i e) {j : Nat}
    (hj : j ≤ e.package.length) :
    m (d + (i + 4) + j) = e.package.getD j (m (d + (i + 4) + e.package.length)) := by
  rcases Nat.lt_or_eq_of_le hj with hlt | rfl
  · have hb : (load m (d + i + 4) e.package.length)[j]? = e.package[j]? := by rw [h.bytes]
    rw [List.getD_eq_getElem?_getD, ← hb]
    simp [load, hlt, Nat.add_assoc]
  · simp [List.getD_eq_getElem?_getD]

/-- The bytes at offsets 5 and 7 are the first two elements' values: with a length of one byte
the scanner looks at bytes 2 and 4 of the elements, with a longer one further to the front. -/
def S5.AtFixedOffsets (e : S5) (next : UInt8) : Prop :=
  match e.follow with
  | 0 => e.body.getD 2 next = e.a.value ∧ e.body.getD 4 next = e.b.value
  | 1 => e.body.getD 1 next = e.a.value ∧ e.body.getD 3 next = e.b.value
  | 2 => e.body.getD 0 next = e.a.value ∧ e.body.getD 2 next = e.b.value
  | _ => e.count = e.a.value ∧ e.body.getD 1 next = e.b.value

theorem S5.at_offsets (e : S5) (next : UInt8) :
    e.package.getD 5 next = e.a.value ∧ e.package.getD 7 next = e.b.value ↔
      e.AtFixedOffsets next := by
  have hle := e.follow_le
  unfold S5.AtFixedOffsets S5.package pkgLength
  rcases (by omega : e.follow = 0 ∨ e.follow = 1 ∨ e.follow = 2 ∨ e.follow = 3) with
    hf | hf | hf | hf
  all_goals simp [hf, bytesLE]

/-- A length of two bytes and two elements with a prefix is what the offsets are made for. -/
theorem S5.atFixedOffsets_of_prefixed {e : S5} {v w : UInt8} (hf : e.follow = 1)
    (ha : e.a = .byte v) (hb : e.b = .byte w) (next : UInt8) : e.AtFixedOffsets next := by
  unfold S5.AtFixedOffsets
  rw [hf]
  simp [S5.body, ha, hb, Elem.bytes, Elem.value]

theorem findS5_eq_iff {m : Mem} {d i : Nat} {e : S5} (h : HasS5 m d i e) :
    findS5 m d = some (e.a.value, e.b.value) ↔
      e.AtFixedOffsets (m (d + (i + 4) + e.package.length)) := by
  have hlen := e.package_length
  have hbody := e.four_le_body
  rw [findS5_first h, h.byte_eq (j := 5) (by omega), h.byte_eq (j := 7) (by omega),
    Option.some.injEq, Prod.mk.injEq]
  exact e.at_offsets _

/-! ## The registers -/

/-- The three bits can be read back from the value. -/
theorem sleepValue_bits (x : UInt8) : (sleepValue x >>> (10 : UInt16) &&& 7).toUInt8 = x &&& 7 := by
  have h : ∀ n < 256, (sleepValue (UInt8.ofNat n) >>> (10 : UInt16) &&& 7).toUInt8 =
      UInt8.ofNat n &&& 7 := by
    decide +kernel
  simpa using h x.toNat x.toNat_lt

theorem sleepValue_inj {x y : UInt8} : sleepValue x = sleepValue y ↔ x &&& 7 = y &&& 7 := by
  constructor
  · intro h
    rw [← sleepValue_bits x, ← sleepValue_bits y, h]
  · intro h
    unfold sleepValue
    rw [h]

/-- What `power_off` has to do on a machine whose FADT is at `fadt`, for the sleep types `a` and
`b`: PM1a gets the first, and PM1b the second if there are both. -/
def SleepWritten (m : Mem) (fadt : Nat) (a b : UInt8) : Prop :=
  let pm := fadtPm1 m fadt
  ∃ pm1b, powerOff m = emulatorFallback ++ writePm pm.a pm.io (sleepValue a) ++ pm1b ++ ioWait ++
      emulatorFallback ∧
    (pm.a ≠ 0 → pm.b ≠ 0 → pm1b = writePm pm.b pm.io (sleepValue b))

theorem writePm_inj {addr : Nat} {io : Bool} {v w : UInt16} (h0 : addr ≠ 0) :
    writePm addr io v = writePm addr io w ↔ v = w := by
  unfold writePm
  rw [if_neg h0, if_neg h0]
  split <;> simp

theorem powerOff_eq {m : Mem} {fadt d : Nat} {a b : UInt8} (hf : findFadt m = some fadt)
    (hd : fadtDsdt m fadt = d) (h0 : d ≠ 0) (hs : findS5 m d = some (a, b)) :
    powerOff m = emulatorFallback ++
      writePm (fadtPm1 m fadt).a (fadtPm1 m fadt).io (sleepValue a) ++
      writePm (fadtPm1 m fadt).b (fadtPm1 m fadt).io (sleepValue a) ++ ioWait ++
        emulatorFallback := by
  unfold powerOff
  rw [hf]
  simp only [hd, if_neg h0, hs, Option.map_some, Option.getD_some]

theorem sleepWritten_iff {m : Mem} {fadt d : Nat} {a b : UInt8} (hf : findFadt m = some fadt)
    (hd : fadtDsdt m fadt = d) (h0 : d ≠ 0) (hs : findS5 m d = some (a, b)) :
    SleepWritten m fadt a b ↔
      ((fadtPm1 m fadt).a ≠ 0 → (fadtPm1 m fadt).b ≠ 0 → a &&& 7 = b &&& 7) := by
  unfold SleepWritten
  rw [powerOff_eq hf hd h0 hs]
  constructor
  · rintro ⟨pm1b, heq, hb⟩ ha0 hb0
    have hpm1b := hb ha0 hb0
    simp only [List.append_assoc, List.append_cancel_left_eq] at heq
    have hw := List.append_cancel_right heq
    rw [hpm1b, writePm_inj hb0] at hw
    exact sleepValue_inj.mp hw
  · intro h
    refine ⟨_, rfl, fun ha0 hb0 => ?_⟩
    rw [sleepValue_inj.mpr (h ha0 hb0)]

/-! ## When the values are right -/

/-- `find_s5` and `power_off` do what the package says exactly when its encoding has the first
two elements at the scanner's offsets and, with two registers, the two sleep types agree. -/
theorem powerOff_right_iff {m : Mem} {d i : Nat} {e : S5} (h : HasS5 m d i e) :
    (findS5 m d = some (e.a.value, e.b.value) ↔
        e.AtFixedOffsets (m (d + (i + 4) + e.package.length))) ∧
      ∀ fadt, findFadt m = some fadt → fadtDsdt m fadt = d →
        (findS5 m d = some (e.a.value, e.b.value) ∧ SleepWritten m fadt e.a.value e.b.value ↔
          e.AtFixedOffsets (m (d + (i + 4) + e.package.length)) ∧
            ((fadtPm1 m fadt).a ≠ 0 → (fadtPm1 m fadt).b ≠ 0 →
              e.a.value &&& 7 = e.b.value &&& 7)) := by
  have hd0 : d ≠ 0 := by
    rintro rfl
    simpa [mapSdt] using h.valid
  refine ⟨findS5_eq_iff h, fun fadt hf hd => ?_⟩
  rw [← findS5_eq_iff h]
  exact and_congr_right fun hs => sleepWritten_iff hf hd hd0 hs

/-- A table whose bytes, with the one at `off` set to the checksum, add up to 0. -/
def sealTable (off : Nat) (bs : List UInt8) : List UInt8 :=
  bs.set off (0 - bs.foldl (· + ·) 0)

def dsdtTable (e : S5) : List UInt8 :=
  sealTable 9 ([0x44, 0x53, 0x44, 0x54] ++ bytesLE 4 (41 + e.package.length) ++
    List.replicate 28 0 ++ [0x08] ++ nameS5 ++ e.package)

/-- PM1a at port 0x404 and PM1b at port 0x504. -/
def fadtTable : List UInt8 :=
  sealTable 9 (sigFacp ++ bytesLE 4 72 ++ List.replicate 32 0 ++ bytesLE 4 0x3000 ++
    List.replicate 20 0 ++ bytesLE 4 0x404 ++ bytesLE 4 0x504)

def rsdtTable : List UInt8 :=
  sealTable 9 ([0x52, 0x53, 0x44, 0x54] ++ bytesLE 4 40 ++ List.replicate 28 0 ++ bytesLE 4 0x2000)

def rsdpTable : List UInt8 := sealTable 8 (sigRsdp ++ List.replicate 8 0 ++ bytesLE 4 0x1000)

/-- A machine whose DSDT names the package `e`. -/
def machineWith (e : S5) : Mem :=
  store (store (store (store (fun _ => 0) 0xE0000 rsdpTable) 0x1000 rsdtTable) 0x2000 fadtTable)
    0x3000 (dsdtTable e)

/-- `Package{5, 5, 0, 0}`, with a length of `follow + 1` bytes. -/
def fiveFive (follow : Nat) (h : follow ≤ 3) : S5 where
  a := .byte 5
  b := .byte 5
  rest := [.zero, .zero]
  follow := follow
  four := by decide
  count_lt := by decide
  follow_le := h
  fits := by intro; decide

theorem twoByteLength_hasS5 :
    HasS5 (machineWith (fiveFive 1 (by decide))) 0x3000 37 (fiveFive 1 (by decide)) where
  valid := by decide +kernel
  inside := by decide +kernel
  name := by decide +kernel
  first := by decide +kernel
  bytes := by decide +kernel

theorem oneByteLength_hasS5 :
    HasS5 (machineWith (fiveFive 0 (by decide))) 0x3000 37 (fiveFive 0 (by decide)) where
  valid := by decide +kernel
  inside := by decide +kernel
  name := by decide +kernel
  first := by decide +kernel
  bytes := by decide +kernel

/-- With a length of two bytes the values arrive at both registers. -/
theorem powerOff_right_two_byte_length :
    findS5 (machineWith (fiveFive 1 (by decide))) 0x3000 = some (5, 5) ∧
      SleepWritten (machineWith (fiveFive 1 (by decide))) 0x2000 5 5 :=
  ((powerOff_right_iff twoByteLength_hasS5).2 0x2000 (by decide +kernel) (by decide +kernel)).mpr
    ⟨S5.atFixedOffsets_of_prefixed rfl rfl rfl _, fun _ _ => rfl⟩

/-- With a length of one byte, as an assembler writes it, the prefix of the second element is
taken for the sleep type: the registers get type 2 where the package says 5. -/
theorem short_length_misread :
    let e := fiveFive 0 (by decide)
    let m := machineWith e
    HasS5 m 0x3000 37 e ∧ findFadt m = some 0x2000 ∧ fadtDsdt m 0x2000 = 0x3000 ∧
      (e.a.value, e.b.value) = (5, 5) ∧ findS5 m 0x3000 = some (0x0A, 0) ∧
      powerOff m = emulatorFallback ++ [.outw 0x404 0x2800, .outw 0x504 0x2800] ++ ioWait ++
        emulatorFallback ∧
      sleepValue 5 = 0x3400 := by
  refine ⟨oneByteLength_hasS5, by decide +kernel, by decide +kernel, rfl, by decide +kernel,
    by decide +kernel, by decide +kernel⟩

end KernelC.Power
