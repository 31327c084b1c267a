import KernelC.Lib.Reading
import KernelC.Power.S5

/-!
# Which bytes of the tables are read

The functions of `power/poweroff.c` again, from the FADT on, as computations that
record what they read: a place is a table and an offset into it. Each has the value of
its model in `Power.Basic` (`value_readTables`, `powerOff_reads`).

Every read is guarded by the length of its table. Two guards are too weak: the 64-bit
address of the DSDT is read from offset 140 as soon as the FADT has 140 bytes, and
`find_s5` tests that offset 6 after the name is inside the table and then reads offset 7.

Result: `reads_inside_iff`.
-/

namespace KernelC.Power

/-- A table and an offset. -/
abbrev TableReading := Reading Mem (Nat × Nat)

def byteAt (t o : Nat) : TableReading UInt8 where
  value m := m (t + o)
  touched _ := [(t, o)]

/-- `read_u32` and `read_u64`, with the number of bytes. -/
def wordAt (t o n : Nat) : TableReading Nat where
  value m := readLE m (t + o) n
  touched _ := (List.range n).map fun i => (t, o + i)

def readMemcmp (t : Nat) : Nat → List UInt8 → TableReading Int
  | _, [] => pure 0
  | o, b :: rest => do
    let c ← byteAt t o
    if c ≠ b then pure (c.toNat - b.toNat) else readMemcmp t (o + 1) rest

/-- The loop of `checksum_ok`, over the offsets `is`. -/
def readSum (t : Nat) : List Nat → UInt8 → TableReading UInt8
  | [], s => pure s
  | i :: is, s => do
    let c ← byteAt t i
    readSum t is (s + c)

def readMapSdt (phys : Nat) : TableReading (Option Nat) :=
  if phys = 0 then pure none
  else do
    let length ← wordAt phys 4 4
    if length < sdtHdrSize ∨ 0x200000 < length then pure none
    else do
      let s ← readSum phys (List.range length) 0
      if s ≠ 0 then pure none else pure (some phys)

/-! ## The DSDT -/

def readS5Loop (p len : Nat) : Nat → Nat → TableReading (Option (UInt8 × UInt8))
  | 0, _ => pure none
  | k + 1, i =>
    if i + 4 < len then do
      let c ← readMemcmp p i nameS5
      let pos := i + 4
      if c = 0 ∧ pos + 6 < len then do
        let a ← byteAt p (pos + 5)
        let b ← byteAt p (pos + 7)
        pure (some (a, b))
      else readS5Loop p len k (i + 1)
    else pure none

def readS5 (dsdtPhys : Nat) : TableReading (Option (UInt8 × UInt8)) := do
  match ← readMapSdt dsdtPhys with
  | none => pure none
  | some dsdt => do
    let len ← wordAt dsdt 4 4
    readS5Loop dsdtPhys len len 0

/-! ## The FADT -/

structure Gas where
  space : UInt8
  width : UInt8
  address : Nat

/-- The copy of an `acpi_gas_t`, all of its bytes. -/
def gasAt (t o : Nat) : TableReading Gas where
  value m :=
    { space := gasSpace m (t + o), width := gasWidth m (t + o), address := gasAddress m (t + o) }
  touched _ := (List.range gasSize).map fun i => (t, o + i)

/-- The first register of a candidate. -/
def readGasA (fadt len off : Nat) (pm : Pm1) : TableReading Pm1 :=
  if off + gasSize ≤ len then do
    let gas ← gasAt fadt off
    pure (if gas.address ≠ 0 then { pm with a := gas.address, io := gas.space = 0 } else pm)
  else pure pm

/-- The second register. -/
def readGasB (fadt len off : Nat) (pm : Pm1) : TableReading Pm1 :=
  if off + gasSize ≤ len then do
    let gas ← gasAt fadt off
    pure (if gas.address ≠ 0 then { pm with b := gas.address, io := pm.io || gas.space = 0 }
      else pm)
  else pure pm

def readCandidates (fadt len : Nat) : List (Nat × Nat) → Pm1 → TableReading Pm1
  | [], pm => pure pm
  | (offA, offB) :: rest, pm => do
    let pm ← readGasA fadt len offA pm
    let pm ← readGasB fadt len offB pm
    if pm.a ≠ 0 ∨ pm.b ≠ 0 then pure pm else readCandidates fadt len rest pm

def readScan (fadt len : Nat) : Nat → Nat → Pm1 → TableReading Pm1
  | 0, _, pm => pure pm
  | k + 1, i, pm =>
    if i + gasSize ≤ len then do
      let gas ← gasAt fadt i
      if gas.address ≠ 0 ∧ (gas.space = 0 ∨ gas.space = 1) ∧ 0 < gas.width ∧ gas.width ≤ 64 then
        if pm.a = 0 then
          readScan fadt len k (i + 4) { pm with a := gas.address, io := gas.space = 0 }
        else if pm.b = 0 then
          pure { pm with b := gas.address, io := pm.io || gas.space = 0 }
        else readScan fadt len k (i + 4) pm
      else readScan fadt len k (i + 4) pm
    else pure pm

/-- The 64-bit address of the DSDT. -/
def readDsdtAddr64 (fadt len : Nat) : TableReading Nat :=
  if 140 ≤ len then wordAt fadt 140 8 else pure 0

def readDsdtAddr (fadt len : Nat) : TableReading Nat := do
  let d64 ← readDsdtAddr64 fadt len
  if d64 = 0 ∧ 44 ≤ len then wordAt fadt 40 4 else pure d64

/-- The 32-bit addresses of the registers. -/
def readPm1Fields (fadt len : Nat) : TableReading Pm1 :=
  if 72 ≤ len then do
    let p1 ← wordAt fadt 64 4
    let p2 ← wordAt fadt 68 4
    pure { a := p1, b := p2, io := true }
  else pure { a := 0, b := 0, io := true }

/-- `try_find_gas_in_fadt`, where it is called. -/
def readPm1Gas (fadt len : Nat) (pm : Pm1) : TableReading Pm1 :=
  if pm.a = 0 ∧ pm.b = 0 then readCandidates fadt len candidateOffsets pm else pure pm

def readPm1 (fadt len : Nat) : TableReading Pm1 := do
  let pm ← readPm1Fields fadt len
  let pm ← readPm1Gas fadt len pm
  if pm.a = 0 ∧ pm.b = 0 then readScan fadt len len sdtHdrSize pm else pure pm

/-- `power_off` from `map_sdt(fadt_phys)` on: the registers and the sleep type. -/
def readTables (fadtPhys : Nat) : TableReading (Option (Pm1 × UInt8)) := do
  match ← readMapSdt fadtPhys with
  | none => pure none
  | some fadt => do
    let len ← wordAt fadt 4 4
    let dsdt ← readDsdtAddr fadt len
    let pm ← readPm1 fadt len
    if dsdt = 0 then pure (some (pm, 5))
    else do
      let s5 ← readS5 dsdt
      pure (some (pm, (s5.map Prod.fst).getD 5))

/-! ## The values -/

variable {m : Mem}

@[simp] theorem value_byteAt (t o : Nat) : (byteAt t o).value m = m (t + o) := rfl

@[simp] theorem value_wordAt (t o n : Nat) : (wordAt t o n).value m = readLE m (t + o) n := rfl

theorem value_readMemcmp (t o : Nat) (s : List UInt8) :
    (readMemcmp t o s).value m = memcmpSimple m (t + o) s := by
  induction s generalizing o with
  | nil => rfl
  | cons b rest ih =>
    rw [readMemcmp, memcmpSimple]
    simp only [Reading.value_bind, Reading.value_ite, Reading.value_pure, ih]
    rfl

theorem value_readSum (t : Nat) (is : List Nat) (s : UInt8) :
    (readSum t is s).value m = is.foldl (fun s i => s + m (t + i)) s := by
  induction is generalizing s with
  | nil => rfl
  | cons i is ih => exact ih _

theorem value_readMapSdt (phys : Nat) : (readMapSdt phys).value m = mapSdt m phys := by
  unfold readMapSdt mapSdt checksumOk
  simp only [Reading.value_bind, Reading.value_ite, Reading.value_pure, value_readSum,
    Bool.not_eq_true', decide_eq_false_iff_not]
  rfl

theorem value_readS5Loop (p len k i : Nat) :
    (readS5Loop p len k i).value m = findS5Loop m p len k i := by
  induction k generalizing i with
  | zero => rfl
  | succ k ih =>
    rw [readS5Loop, findS5Loop]
    simp only [Reading.value_bind, Reading.value_ite, Reading.value_pure, value_readMemcmp, ih]
    rfl

theorem value_readS5 (dsdt : Nat) : (readS5 dsdt).value m = findS5 m dsdt := by
  unfold readS5 findS5
  rw [Reading.value_bind, value_readMapSdt]
  cases mapSdt m dsdt with
  | none => rfl
  | some d => exact value_readS5Loop _ _ _ _

theorem value_readCandidates (fadt len : Nat) (cs : List (Nat × Nat)) (pm : Pm1) :
    (readCandidates fadt len cs pm).value m = tryCandidates m fadt len cs pm := by
  induction cs generalizing pm with
  | nil => rfl
  | cons c rest ih =>
    obtain ⟨offA, offB⟩ := c
    rw [readCandidates, tryCandidates]
    simp only [Reading.value_bind, Reading.value_ite, Reading.value_pure, ih, readGasA, readGasB,
      ite_and]
    rfl

theorem value_readScan (fadt len k i : Nat) (pm : Pm1) :
    (readScan fadt len k i pm).value m = scanGas m fadt len k i pm := by
  induction k generalizing i pm with
  | zero => rfl
  | succ k ih =>
    rw [readScan, scanGas]
    simp only [Reading.value_bind, Reading.value_ite, Reading.value_pure, ih]
    rfl

theorem value_readDsdtAddr (fadt : Nat) :
    (readDsdtAddr fadt (sdtLength m fadt)).value m = fadtDsdt m fadt := by
  unfold readDsdtAddr fadtDsdt readDsdtAddr64
  simp only [Reading.value_bind, Reading.value_ite, Reading.value_pure]
  rfl

theorem value_readPm1 (fadt : Nat) :
    (readPm1 fadt (sdtLength m fadt)).value m = fadtPm1 m fadt := by
  unfold readPm1 fadtPm1 tryFindGasInFadt readPm1Gas readPm1Fields
  simp only [Reading.value_bind, Reading.value_ite, Reading.value_pure, value_readCandidates,
    value_readScan]
  rfl

/-- The registers and the sleep type that `power_off` finds. -/
theorem value_readTables {fadt : Nat} (hmap : mapSdt m fadt = some fadt) :
    (readTables fadt).value m = some (fadtPm1 m fadt,
      if fadtDsdt m fadt = 0 then 5 else ((findS5 m (fadtDsdt m fadt)).map Prod.fst).getD 5) := by
  unfold readTables
  rw [Reading.value_bind, value_readMapSdt, hmap]
  simp only [Reading.value_bind, Reading.value_ite, Reading.value_pure, value_readS5]
  rw [show (wordAt fadt 4 4).value m = sdtLength m fadt from rfl, value_readDsdtAddr, value_readPm1]
  split
  · rfl
  · rfl

theorem mapSdt_eq {phys t : Nat} (h : mapSdt m phys = some t) : t = phys := by
  unfold mapSdt at h
  simp only [Option.ite_none_left_eq_some, Option.some.injEq] at h
  exact h.2.2.2.symm

theorem findFadt_mapped {fadt : Nat} (h : findFadt m = some fadt) :
    mapSdt m fadt = some fadt := by
  unfold findFadt at h
  simp only [Option.ite_none_left_eq_some] at h
  have hmap := h.2.2.2
  rw [← mapSdt_eq hmap] at hmap
  exact hmap

/-- What `power_off` does, from what it reads. -/
theorem powerOff_reads (m : Mem) :
    powerOff m = match (findFadt m).bind fun fadt => (readTables fadt).value m with
      | none => emulatorFallback ++ emulatorFallback
      | some (pm, s5a) =>
        emulatorFallback ++ writePm pm.a pm.io (sleepValue s5a) ++
          writePm pm.b pm.io (sleepValue s5a) ++ ioWait ++ emulatorFallback := by
  unfold powerOff
  cases h : findFadt m with
  | none => rfl
  | some fadt =>
    rw [Option.bind_some, value_readTables (findFadt_mapped h)]

/-! ## The places -/

/-- A place inside its table, if that is one that `map_sdt` accepts. -/
def Inside (m : Mem) (k : Nat × Nat) : Prop := mapSdt m k.1 = some k.1 → k.2 < sdtLength m k.1

/-- A name `_S5_` at the offset `i` of the table `d`. -/
def NameAt (m : Mem) (d i : Nat) : Prop := memcmpSimple m (d + i) nameS5 = 0

/-- The first name from offset `i` on begins 11 bytes before the end of the table. -/
def LateFrom (m : Mem) (d i : Nat) : Prop :=
  i ≤ sdtLength m d - 11 ∧ NameAt m d (sdtLength m d - 11) ∧
    ∀ j, i ≤ j → j < sdtLength m d - 11 → ¬ NameAt m d j

/-- The first name of the table begins 11 bytes before its end. -/
def LateName (m : Mem) (d : Nat) : Prop :=
  NameAt m d (sdtLength m d - 11) ∧ ∀ j < sdtLength m d - 11, ¬ NameAt m d j

theorem mapSdt_length {t : Nat} (h : mapSdt m t = some t) : 36 ≤ sdtLength m t := by
  by_contra hlt
  have hshort : sdtLength m t < sdtHdrSize ∨ 0x200000 < sdtLength m t := Or.inl (by
    show sdtLength m t < 36
    omega)
  unfold mapSdt at h
  rw [if_pos hshort, ite_self] at h
  cases h

section Places

variable {α : Type} {t d k : Nat}

open Reading

/-- A run of `n` bytes. -/
theorem within_run_iff {x : TableReading α} {o n : Nat}
    (hx : x.touched m = (List.range n).map fun i => (t, o + i)) (hn : 0 < n) :
    Within (Inside m) x m ↔ (mapSdt m t = some t → o + n ≤ sdtLength m t) := by
  unfold Within
  rw [hx, List.forall_mem_map]
  constructor
  · intro h hmap
    have hlast := h (n - 1) (List.mem_range.mpr (by omega)) hmap
    have hlt : o + (n - 1) < sdtLength m t := hlast
    omega
  · intro h i hi hmap
    have hi' := List.mem_range.mp hi
    have hle := h hmap
    show o + i < sdtLength m t
    omega

theorem within_wordAt {o n : Nat} (hn : 0 < n) :
    Within (Inside m) (wordAt t o n) m ↔ (mapSdt m t = some t → o + n ≤ sdtLength m t) :=
  within_run_iff rfl hn

theorem within_byteAt {o : Nat} :
    Within (Inside m) (byteAt t o) m ↔ (mapSdt m t = some t → o + 1 ≤ sdtLength m t) :=
  within_run_iff (n := 1) rfl Nat.one_pos

theorem within_gasAt {o : Nat} :
    Within (Inside m) (gasAt t o) m ↔ (mapSdt m t = some t → o + gasSize ≤ sdtLength m t) :=
  within_run_iff rfl (by decide)

theorem within_readMemcmp {o : Nat} {s : List UInt8} (h : o + s.length ≤ sdtLength m t) :
    Within (Inside m) (readMemcmp t o s) m := by
  induction s generalizing o with
  | nil => exact within_pure _
  | cons b rest ih =>
    rw [List.length_cons] at h
    rw [readMemcmp, within_bind, within_ite]
    refine ⟨within_byteAt.mpr fun _ => by omega, fun _ => within_pure _, fun _ => ih (by omega)⟩

theorem within_readSum {is : List Nat} (h : ∀ i ∈ is, i < sdtLength m t) (s : UInt8) :
    Within (Inside m) (readSum t is s) m := by
  induction is generalizing s with
  | nil => exact within_pure _
  | cons i is ih =>
    rw [readSum, within_bind]
    refine ⟨within_byteAt.mpr fun _ => h i List.mem_cons_self, ?_⟩
    exact ih (fun j hj => h j (List.mem_cons_of_mem _ hj)) _

theorem within_length : Within (Inside m) (wordAt t 4 4) m := by
  refine (within_wordAt (by decide)).mpr fun hmap => ?_
  have := mapSdt_length hmap
  omega

theorem within_readMapSdt : Within (Inside m) (readMapSdt t) m := by
  unfold readMapSdt
  rw [within_ite, within_bind, within_ite, within_bind, within_ite]
  refine ⟨fun _ => within_pure _, fun _ => ⟨within_length, fun _ => within_pure _, fun _ => ?_⟩⟩
  exact ⟨within_readSum (fun i hi => List.mem_range.mp hi) _, fun _ => within_pure _,
    fun _ => within_pure _⟩

/-! ### The DSDT -/

theorem lateFrom_here {i : Nat} (hname : NameAt m d i) (hroom : i + 4 + 6 < sdtLength m d) :
    i + 12 ≤ sdtLength m d ↔ ¬ LateFrom m d i := by
  constructor
  · intro hle hlate
    exact hlate.2.2 i (Nat.le_refl i) (by omega) hname
  · intro hno
    by_contra hlt
    have hi : i = sdtLength m d - 11 := by omega
    rw [hi] at hname
    exact hno ⟨by omega, hname, fun j h1 h2 => by omega⟩

theorem lateFrom_next {i : Nat} (hlen : 36 ≤ sdtLength m d)
    (hno : ¬ (NameAt m d i ∧ i + 4 + 6 < sdtLength m d)) :
    LateFrom m d i ↔ LateFrom m d (i + 1) := by
  constructor
  · rintro ⟨hle, hname, hfirst⟩
    have hne : i ≠ sdtLength m d - 11 := by
      rintro rfl
      exact hno ⟨hname, by omega⟩
    exact ⟨by omega, hname, fun j h1 h2 => hfirst j (by omega) h2⟩
  · rintro ⟨hle, hname, hfirst⟩
    refine ⟨by omega, hname, fun j h1 h2 hj => ?_⟩
    rcases Nat.eq_or_lt_of_le h1 with rfl | hlt
    · exact hno ⟨hj, by omega⟩
    · exact hfirst j hlt h2 hj

/-- The scan leaves the table if the first name that it meets is too late. -/
theorem within_readS5Loop (hmap : mapSdt m d = some d) {i : Nat} (hk : sdtLength m d ≤ i + k) :
    Within (Inside m) (readS5Loop d (sdtLength m d) k i) m ↔ ¬ LateFrom m d i := by
  have hlen := mapSdt_length hmap
  induction k generalizing i with
  | zero => exact iff_of_true (within_pure _) fun hlate => by have := hlate.1; omega
  | succ k ih =>
    rw [readS5Loop]
    by_cases hend : i + 4 < sdtLength m d
    · have hmemcmp : Within (Inside m) (readMemcmp d i nameS5) m :=
        within_readMemcmp (by show i + 4 ≤ _; omega)
      rw [if_pos hend, within_bind, and_iff_right hmemcmp, value_readMemcmp]
      dsimp only
      by_cases hname : memcmpSimple m (d + i) nameS5 = 0 ∧ i + 4 + 6 < sdtLength m d
      · rw [if_pos hname, ← lateFrom_here hname.1 hname.2, within_bind, within_bind, within_byteAt,
          within_byteAt]
        constructor
        · exact fun h => h.2.1 hmap
        · exact fun h => ⟨fun _ => by omega, fun _ => by omega, within_pure _⟩
      · rw [if_neg hname, lateFrom_next hlen hname]
        exact ih (by omega)
    · rw [if_neg hend]
      exact iff_of_true (within_pure _) fun hlate => by have := hlate.1; omega

theorem lateFrom_zero : LateFrom m d 0 ↔ LateName m d :=
  ⟨fun h => ⟨h.2.1, fun j hj => h.2.2 j (Nat.zero_le j) hj⟩,
    fun h => ⟨Nat.zero_le _, h.1, fun j _ hj => h.2 j hj⟩⟩

theorem within_readS5 :
    Within (Inside m) (readS5 d) m ↔ (mapSdt m d = some d → ¬ LateName m d) := by
  unfold readS5
  rw [within_bind, and_iff_right within_readMapSdt, value_readMapSdt]
  cases hmap : mapSdt m d with
  | none => exact iff_of_true (within_pure _) fun hno => by cases hno
  | some t =>
    obtain rfl := mapSdt_eq hmap
    rw [forall_prop_of_true rfl, ← lateFrom_zero]
    show Within (Inside m) (wordAt t 4 4 >>= fun len => readS5Loop t len len 0) m ↔ _
    rw [within_bind, and_iff_right within_length]
    exact within_readS5Loop hmap (by show _ ≤ 0 + sdtLength m t; omega)

/-! ### The FADT -/

variable {fadt : Nat}

theorem within_readDsdtAddr (hmap : mapSdt m fadt = some fadt) :
    Within (Inside m) (readDsdtAddr fadt (sdtLength m fadt)) m ↔
      ¬ (140 ≤ sdtLength m fadt ∧ sdtLength m fadt < 148) := by
  have h32 : ∀ d64 : Nat, Within (Inside m)
      (if d64 = 0 ∧ 44 ≤ sdtLength m fadt then wordAt fadt 40 4 else pure d64) m := by
    intro d64
    rw [within_ite, within_wordAt (by decide)]
    exact ⟨fun h _ => h.2, fun _ => within_pure _⟩
  unfold readDsdtAddr readDsdtAddr64
  rw [within_bind, and_iff_left (h32 _), within_ite, within_wordAt (by decide)]
  constructor
  · rintro ⟨h, -⟩ ⟨hle, hlt⟩
    have := h hle hmap
    omega
  · exact fun h => ⟨fun hle _ => by omega, fun _ => within_pure _⟩

theorem within_readGasA (off : Nat) (pm : Pm1) :
    Within (Inside m) (readGasA fadt (sdtLength m fadt) off pm) m := by
  unfold readGasA
  rw [within_ite, within_bind, within_gasAt]
  exact ⟨fun h => ⟨fun _ => h, within_pure _⟩, fun _ => within_pure _⟩

theorem within_readGasB (off : Nat) (pm : Pm1) :
    Within (Inside m) (readGasB fadt (sdtLength m fadt) off pm) m := by
  unfold readGasB
  rw [within_ite, within_bind, within_gasAt]
  exact ⟨fun h => ⟨fun _ => h, within_pure _⟩, fun _ => within_pure _⟩

theorem within_readCandidates (cs : List (Nat × Nat)) (pm : Pm1) :
    Within (Inside m) (readCandidates fadt (sdtLength m fadt) cs pm) m := by
  induction cs generalizing pm with
  | nil => exact within_pure _
  | cons c rest ih =>
    obtain ⟨offA, offB⟩ := c
    rw [readCandidates, within_bind, within_bind, within_ite]
    exact ⟨within_readGasA offA pm, within_readGasB offB _, fun _ => within_pure _, fun _ => ih _⟩

theorem within_readScan (i : Nat) (pm : Pm1) :
    Within (Inside m) (readScan fadt (sdtLength m fadt) k i pm) m := by
  induction k generalizing i pm with
  | zero => exact within_pure _
  | succ k ih =>
    rw [readScan, within_ite, within_bind, within_gasAt, within_ite, within_ite, within_ite]
    refine ⟨fun h => ⟨fun _ => h, fun _ => ⟨fun _ => ih _ _, fun _ => ?_⟩, fun _ => ih _ _⟩,
      fun _ => within_pure _⟩
    exact ⟨fun _ => within_pure _, fun _ => ih _ _⟩

theorem within_readPm1 :
    Within (Inside m) (readPm1 fadt (sdtLength m fadt)) m := by
  have hfields : Within (Inside m) (readPm1Fields fadt (sdtLength m fadt)) m := by
    unfold readPm1Fields
    rw [within_ite, within_bind, within_bind, within_wordAt (by decide), within_wordAt (by decide)]
    exact ⟨fun h => ⟨fun _ => by omega, fun _ => h, within_pure _⟩, fun _ => within_pure _⟩
  have hgas : ∀ pm, Within (Inside m) (readPm1Gas fadt (sdtLength m fadt) pm) m := by
    intro pm
    unfold readPm1Gas
    rw [within_ite]
    exact ⟨fun _ => within_readCandidates _ _, fun _ => within_pure _⟩
  unfold readPm1
  rw [within_bind, within_bind, within_ite]
  exact ⟨hfields, hgas _, fun _ => within_readScan _ _, fun _ => within_pure _⟩

end Places

/-- For every memory and every FADT that `map_sdt` accepts: each byte that `power_off`
reads of the FADT, and of a DSDT that is accepted too, is inside its table, exactly when
the FADT does not end inside the field at offset 140, and the first name `_S5_` of the
DSDT does not begin 11 bytes before its end. -/
theorem reads_inside_iff (m : Mem) (fadt : Nat) (hmap : mapSdt m fadt = some fadt) :
    (∀ t o, (t, o) ∈ (readTables fadt).touched m → mapSdt m t = some t → o < sdtLength m t) ↔
      ¬ (140 ≤ sdtLength m fadt ∧ sdtLength m fadt < 148) ∧
        ∀ dsdt, fadtDsdt m fadt = dsdt → mapSdt m dsdt = some dsdt → ¬ LateName m dsdt := by
  have hwithin : (∀ t o, (t, o) ∈ (readTables fadt).touched m → mapSdt m t = some t →
      o < sdtLength m t) ↔ Reading.Within (Inside m) (readTables fadt) m :=
    ⟨fun h k hk => h k.1 k.2 hk, fun h t o hk => h (t, o) hk⟩
  have hdsdt : Reading.Within (Inside m)
        (if fadtDsdt m fadt = 0 then pure (some (fadtPm1 m fadt, 5))
          else do
            let s5 ← readS5 (fadtDsdt m fadt)
            pure (some (fadtPm1 m fadt, (s5.map Prod.fst).getD 5))) m ↔
      ∀ dsdt, fadtDsdt m fadt = dsdt → mapSdt m dsdt = some dsdt → ¬ LateName m dsdt := by
    rw [forall_eq', Reading.within_ite, Reading.within_bind, within_readS5]
    constructor
    · rintro ⟨-, h⟩ hacc
      refine (h ?_).1 hacc
      intro hzero
      rw [hzero] at hacc
      cases hacc
    · exact fun h => ⟨fun _ => Reading.within_pure _, fun _ => ⟨h, Reading.within_pure _⟩⟩
  rw [hwithin]
  unfold readTables
  rw [Reading.within_bind, and_iff_right within_readMapSdt, value_readMapSdt, hmap]
  show Reading.Within (Inside m) (wordAt fadt 4 4 >>= _) m ↔ _
  rw [Reading.within_bind, and_iff_right within_length]
  rw [show (wordAt fadt 4 4).value m = sdtLength m fadt from rfl, Reading.within_bind,
    within_readDsdtAddr hmap, value_readDsdtAddr, Reading.within_bind,
    and_iff_right within_readPm1, value_readPm1, hdsdt]

/-- A FADT of 44 bytes at `0x2000`, with its DSDT at `0x3000`. -/
def shortFadt (dsdt : List UInt8) : Mem :=
  store (store (store (fun _ => 0) 0x2000 [0x46, 0x41, 0x43, 0x50, 44, 0, 0, 0, 0, 0x8A])
    0x2028 [0x00, 0x30, 0, 0]) 0x3000 dsdt

/-- A DSDT with the name at offset 37, and its length and checksum. -/
def dsdtWithName (length checksum : UInt8) : List UInt8 :=
  [0, 0, 0, 0, length, 0, 0, 0, 0, checksum] ++ List.replicate 27 0 ++ nameS5

/-- With 12 bytes from the name to the end of the DSDT. -/
theorem reads_inside_room :
    let m := shortFadt (dsdtWithName 49 0x89)
    mapSdt m 0x3000 = some 0x3000 ∧ NameAt m 0x3000 37 ∧
      ∀ t o, (t, o) ∈ (readTables 0x2000).touched m → mapSdt m t = some t → o < sdtLength m t := by
  intro m
  refine ⟨by decide +kernel, by unfold NameAt; decide +kernel, ?_⟩
  refine (reads_inside_iff m 0x2000 (by decide +kernel)).mpr ⟨by decide +kernel, ?_⟩
  rintro dsdt rfl - ⟨hname, -⟩
  have hno : memcmpSimple m
      (fadtDsdt m 0x2000 + (sdtLength m (fadtDsdt m 0x2000) - 11)) nameS5 ≠ 0 := by
    decide +kernel
  exact hno hname

/-- A FADT of 140 bytes, of which offset 147 is read; and a DSDT of 48 bytes, of which
offset 48 is read. -/
theorem reads_outside :
    let short := store (fun _ => 0) 0x2000 [0x46, 0x41, 0x43, 0x50, 140, 0, 0, 0, 0, 0x5A]
    let late := shortFadt (dsdtWithName 48 0x8A)
    (mapSdt short 0x2000 = some 0x2000 ∧ sdtLength short 0x2000 = 140 ∧
      (0x2000, 147) ∈ (readTables 0x2000).touched short) ∧
    (mapSdt late 0x2000 = some 0x2000 ∧ mapSdt late 0x3000 = some 0x3000 ∧
      sdtLength late 0x3000 = 48 ∧ (0x3000, 48) ∈ (readTables 0x2000).touched late) := by
  decide +kernel

end KernelC.Power
