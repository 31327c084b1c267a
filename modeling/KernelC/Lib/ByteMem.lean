import Mathlib.Algebra.Group.Nat.Defs
import Mathlib.Data.List.Basic
import Mathlib.Data.Nat.Basic

/-!
# Byte-addressed memory

Memory is a function from addresses to bytes. `load` and `store` move a run of
bytes, `readLE` and `writeLE` an unsigned little-endian integer of `n` bytes.

The rules: a read at the place of a write returns what was written
(`load_store_same`, `readLE_writeLE_same`), and a read away from it does not
see the write (`load_store_of_disjoint`, `readLE_writeLE_of_disjoint`). Reads
depend only on the bytes they cover (`load_congr`, `readLE_congr`).
-/

namespace KernelC

abbrev Mem := Nat → UInt8

/-- The `n` bytes at `a`. -/
def load (m : Mem) (a n : Nat) : List UInt8 :=
  (List.range n).map fun i => m (a + i)

/-- Put the bytes `bs` at `a`. -/
def store (m : Mem) (a : Nat) (bs : List UInt8) : Mem := fun x =>
  if a ≤ x ∧ x < a + bs.length then bs.getD (x - a) 0 else m x

@[simp] theorem load_length (m : Mem) (a n : Nat) : (load m a n).length = n := by
  simp [load]

theorem store_of_outside {m : Mem} {a x : Nat} {bs : List UInt8}
    (h : x < a ∨ a + bs.length ≤ x) : store m a bs x = m x := by
  unfold store
  rw [if_neg (by omega)]

theorem load_congr {m m' : Mem} {a n : Nat} (h : ∀ x, a ≤ x → x < a + n → m' x = m x) :
    load m' a n = load m a n := by
  unfold load
  refine List.map_congr_left fun i hi => ?_
  have := List.mem_range.mp hi
  exact h _ (by omega) (by omega)

theorem load_store_of_disjoint {m : Mem} {a b n : Nat} {bs : List UInt8}
    (h : b + n ≤ a ∨ a + bs.length ≤ b) : load (store m a bs) b n = load m b n :=
  load_congr fun x h1 h2 => store_of_outside (by omega)

theorem load_take (m : Mem) (a n k : Nat) : (load m a n).take k = load m a (min k n) := by
  unfold load
  rw [← List.map_take, List.take_range]

theorem load_store_prefix {m : Mem} {a n : Nat} {bs : List UInt8} (h : bs.length ≤ n) :
    (load (store m a bs) a n).take bs.length = bs := by
  apply List.ext_getElem
  · simp [h]
  · intro i h1 h2
    simp [load, store, h2]

theorem load_store_same (m : Mem) (a : Nat) (bs : List UInt8) :
    load (store m a bs) a bs.length = bs := by
  have h := load_store_prefix (m := m) (a := a) (Nat.le_refl bs.length)
  rwa [List.take_of_length_le (by simp)] at h

theorem load_add (m : Mem) (a n k : Nat) :
    load m a (n + k) = load m a n ++ load m (a + n) k := by
  unfold load
  rw [List.range_add, List.map_append, List.map_map]
  simp only [Function.comp_def, Nat.add_assoc]

/-! ## Little-endian integers -/

def bytesLE : Nat → Nat → List UInt8
  | 0, _ => []
  | n + 1, v => UInt8.ofNat v :: bytesLE n (v / 256)

def ofLE : List UInt8 → Nat
  | [] => 0
  | b :: bs => b.toNat + 256 * ofLE bs

@[simp] theorem bytesLE_length (n v : Nat) : (bytesLE n v).length = n := by
  induction n generalizing v with
  | zero => rfl
  | succ n ih => simp [bytesLE, ih]

theorem ofLE_bytesLE (n v : Nat) : ofLE (bytesLE n v) = v % 256 ^ n := by
  induction n generalizing v with
  | zero => simp [bytesLE, ofLE, Nat.mod_one]
  | succ n ih =>
    have hbyte : (UInt8.ofNat v).toNat = v % 256 := rfl
    rw [bytesLE, ofLE, ih, hbyte, Nat.pow_succ', Nat.mod_mul]

theorem bytesLE_ofLE (bs : List UInt8) : bytesLE bs.length (ofLE bs) = bs := by
  induction bs with
  | nil => rfl
  | cons b bs ih =>
    have hb := b.toNat_lt
    have hmod : (b.toNat + 256 * ofLE bs) % 2 ^ 8 = b.toNat := by omega
    have hlow : UInt8.ofNat (b.toNat + 256 * ofLE bs) = b := by
      apply UInt8.toNat_inj.mp
      rw [UInt8.toNat_ofNat', hmod]
    have hhigh : (b.toNat + 256 * ofLE bs) / 256 = ofLE bs := by omega
    rw [ofLE, List.length_cons, bytesLE, hlow, hhigh, ih]

theorem ofLE_lt (bs : List UInt8) : ofLE bs < 256 ^ bs.length := by
  induction bs with
  | nil => simp [ofLE]
  | cons b bs ih =>
    have hb := b.toNat_lt
    simp only [ofLE, List.length_cons, Nat.pow_succ]
    omega

/-- The unsigned `n`-byte integer at `a`. -/
def readLE (m : Mem) (a n : Nat) : Nat := ofLE (load m a n)

def writeLE (m : Mem) (a n v : Nat) : Mem := store m a (bytesLE n v)

theorem readLE_lt (m : Mem) (a n : Nat) : readLE m a n < 256 ^ n := by
  simpa [readLE] using ofLE_lt (load m a n)

theorem readLE_writeLE_same (m : Mem) (a n v : Nat) :
    readLE (writeLE m a n v) a n = v % 256 ^ n := by
  have h := load_store_same m a (bytesLE n v)
  rw [bytesLE_length] at h
  rw [readLE, writeLE, h, ofLE_bytesLE]

/-- Writing what is read elsewhere copies the bytes. -/
theorem bytesLE_readLE (m : Mem) (a n : Nat) : bytesLE n (readLE m a n) = load m a n := by
  have h := bytesLE_ofLE (load m a n)
  rwa [load_length] at h

theorem writeLE_of_outside {m : Mem} {a n v x : Nat} (h : x < a ∨ a + n ≤ x) :
    writeLE m a n v x = m x :=
  store_of_outside (by simpa using h)

/-- A second write of the same width at the same place. -/
theorem writeLE_writeLE (m : Mem) (a n v v' : Nat) :
    writeLE (writeLE m a n v) a n v' = writeLE m a n v' := by
  funext x
  unfold writeLE store
  by_cases hx : a ≤ x ∧ x < a + n
  · simp [hx]
  · simp [hx]

theorem readLE_congr {m m' : Mem} {a n : Nat} (h : ∀ x, a ≤ x → x < a + n → m' x = m x) :
    readLE m' a n = readLE m a n := by
  rw [readLE, load_congr h, readLE]

theorem readLE_writeLE_of_disjoint {m : Mem} {a n v b k : Nat} (h : b + k ≤ a ∨ a + n ≤ b) :
    readLE (writeLE m a n v) b k = readLE m b k :=
  readLE_congr fun x h1 h2 => writeLE_of_outside (by omega)

end KernelC
