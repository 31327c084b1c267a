import KernelC.Lib.ByteMem

/-!
# Page tables of four levels

A table is 512 entries of eight bytes. The walk starts at a table of level 3 and takes nine bits
of the address at each level; it ends at a page of 4 KiB, or before that at a large one. An access
is allowed as far as every entry on the way allows it. No entry, no translation: `none` is a page
fault, or the general protection fault of an address that is not canonical. Protection keys, the
no-execute bit and the accessed and dirty bits are left out.

Rules: `walk_linear`, for a table of large pages in a row, and `walk_first`, for a table with
nothing but its first entry.
-/

namespace KernelC.Paging

/-! ## Entries -/

def present (e : Nat) : Bool := e.testBit 0

def writable (e : Nat) : Bool := e.testBit 1

def user (e : Nat) : Bool := e.testBit 2

def large (e : Nat) : Bool := e.testBit 7

/-- The address in an entry, of something aligned to `2 ^ k`. -/
def base (k e : Nat) : Nat := e % 2 ^ 52 / 2 ^ k * 2 ^ k

/-- An entry of level `l` stands for `2 ^ span l` bytes. -/
def span (l : Nat) : Nat := 12 + 9 * l

/-- The bits between the flags and the address of a large page, which have to be 0. -/
def reserved (l e : Nat) : Nat := e / 2 ^ 13 % 2 ^ (span l - 13)

/-! ## The walk -/

/-- A translated address, and what may be done there. -/
structure Page where
  addr : Nat
  writable : Bool
  user : Bool
deriving DecidableEq

def index (l a : Nat) : Nat := a / 2 ^ span l % 512

def entry (m : Mem) (l table a : Nat) : Nat := readLE m (table + 8 * index l a) 8

/-- The page of an entry that ends the walk. -/
def leaf (l e a : Nat) : Page where
  addr := base (span l) e + a % 2 ^ span l
  writable := Paging.writable e
  user := Paging.user e

/-- What is left under an entry. -/
def Page.under (p : Page) (e : Nat) : Page :=
  { p with writable := p.writable && Paging.writable e, user := p.user && Paging.user e }

/-- The walk of the address `a` from a table of level `l`. -/
def walk (m : Mem) : Nat → Nat → Nat → Option Page
  | 0, table, a =>
    let e := entry m 0 table a
    if present e then some (leaf 0 e a) else none
  | l + 1, table, a =>
    let e := entry m (l + 1) table a
    if present e then
      if large e then
        -- there are no large pages in a table of level 3
        if l + 1 ≤ 2 ∧ reserved (l + 1) e = 0 then some (leaf (l + 1) e a) else none
      else (walk m l (base 12 e) a).map fun p => p.under e
    else none

/-- Bits 47 to 63 are alike. -/
def Canonical (a : Nat) : Prop := a < 2 ^ 47 ∨ 2 ^ 64 - 2 ^ 47 ≤ a ∧ a < 2 ^ 64

instance (a : Nat) : Decidable (Canonical a) := inferInstanceAs (Decidable (_ ∨ _))

def pageOf (m : Mem) (cr3 a : Nat) : Option Page :=
  if Canonical a then walk m 3 (base 12 cr3) a else none

/-! ## The rules -/

variable {m : Mem} {l table a : Nat}

theorem index_lt (l a : Nat) : index l a < 512 := Nat.mod_lt _ (by decide)

theorem pow_span_succ (l : Nat) : 2 ^ span (l + 1) = 2 ^ span l * 512 := by
  rw [span, Nat.mul_add, ← Nat.add_assoc, Nat.pow_add]
  rfl

/-- The index and the rest of an address. -/
theorem mod_span_succ (l a : Nat) :
    a % 2 ^ span (l + 1) = index l a * 2 ^ span l + a % 2 ^ span l := by
  rw [pow_span_succ, Nat.mod_mul, index, Nat.add_comm, Nat.mul_comm]

theorem index_eq_zero_iff : index l a = 0 ↔ a % 2 ^ span (l + 1) < 2 ^ span l := by
  have hrest : a % 2 ^ span l < 2 ^ span l := Nat.mod_lt _ (Nat.two_pow_pos _)
  rw [mod_span_succ]
  constructor
  · intro h
    rw [h, Nat.zero_mul, Nat.zero_add]
    exact hrest
  · intro h
    by_contra hne
    have hmul : 2 ^ span l ≤ index l a * 2 ^ span l :=
      Nat.le_mul_of_pos_left _ (Nat.pos_of_ne_zero hne)
    omega

/-- An entry for the large page at `b`. -/
structure LargePage (l e b : Nat) (w u : Bool) : Prop where
  present : present e = true
  large : large e = true
  reserved : reserved l e = 0
  base : base (span l) e = b
  writable : writable e = w
  user : user e = u

/-- Large pages in a row are one linear region. -/
theorem walk_linear {b : Nat} {w u : Bool} (hl : l + 1 ≤ 2)
    (h : ∀ i < 512, LargePage (l + 1) (readLE m (table + 8 * i) 8) (b + i * 2 ^ span (l + 1)) w u) :
    walk m (l + 1) table a = some ⟨b + a % 2 ^ span (l + 2), w, u⟩ := by
  have he := h (index (l + 1) a) (index_lt _ _)
  have haddr : leaf (l + 1) (entry m (l + 1) table a) a = ⟨b + a % 2 ^ span (l + 2), w, u⟩ := by
    unfold leaf entry
    rw [he.base, he.writable, he.user, mod_span_succ (l + 1), Nat.add_assoc]
  have hreserved : reserved (l + 1) (entry m (l + 1) table a) = 0 := he.reserved
  rw [walk]
  rw [if_pos (show present (entry m (l + 1) table a) = true from he.present),
    if_pos (show large (entry m (l + 1) table a) = true from he.large), if_pos ⟨hl, hreserved⟩,
    haddr]

/-- A table with only its first entry sends the addresses at the beginning to the next one. -/
theorem walk_first {e : Nat} (he : readLE m table 8 = e) (hpresent : present e = true)
    (hlarge : large e = false)
    (hrest : ∀ i < 512, i ≠ 0 → present (readLE m (table + 8 * i) 8) = false) :
    walk m (l + 1) table a =
      if a % 2 ^ span (l + 2) < 2 ^ span (l + 1) then
        (walk m l (base 12 e) a).map fun p => p.under e
      else none := by
  rw [walk]
  by_cases h0 : index (l + 1) a = 0
  · have hentry : entry m (l + 1) table a = e := by rw [entry, h0, Nat.mul_zero, Nat.add_zero, he]
    rw [if_pos (index_eq_zero_iff.mp h0), hentry, if_pos hpresent, if_neg (by rw [hlarge]; simp)]
  · have hentry : present (entry m (l + 1) table a) = false := hrest _ (index_lt _ _) h0
    rw [if_neg (fun h => h0 (index_eq_zero_iff.mpr h)), if_neg (by rw [hentry]; simp)]

end KernelC.Paging
